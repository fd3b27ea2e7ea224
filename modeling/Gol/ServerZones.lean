import Gol.LibraryBisect
import Gol.ServerTicks

/-! The ticks of a schedule in its time zone (`next_tick`, `gap_tick` and `is_tick`, `scheduler.rs`). Instants and
wall-clock times are in milliseconds. A zone is its offset from UTC and what chrono answers for a wall-clock time; a
pattern is what croner matches of the wall-clock minutes, and its search is any that goes forward and steps over no
instant it matches. -/

namespace Gol
open Library

def minute : Int := 60000

def hour : Int := 60 * minute

/-- The instants chrono holds. -/
def isInstant (ms : Int) : Bool := -8334601228800000 ≤ ms ∧ ms ≤ 8210266876799999

/-- The instants that show a wall-clock time: none, one, or the first and the last of more. -/
inductive LocalResult where
  | none
  | single (instant : Int)
  | ambiguous (first last : Int)
  deriving DecidableEq

/-- The instants that `offset` shows `wall` at, as `result` has them. -/
def LocalResult.Of (offset : Int → Int) (wall : Int) : LocalResult → Prop
  | .none => ∀ t, t + offset t ≠ wall
  | .single t => ∀ u, u + offset u = wall ↔ u = t
  | .ambiguous first last =>
      first < last ∧ first + offset first = wall ∧ last + offset last = wall ∧
        ∀ u, u + offset u = wall → first ≤ u ∧ u ≤ last

/-- A time zone. Its clocks change on whole minutes, at most once an hour, by at most three hours. -/
structure Zone where
  offset : Int → Int
  fromLocal : Int → LocalResult
  onMinutes : ∀ t, offset (t - 1) ≠ offset t → t % minute = 0
  hourly : ∀ t u, offset (t - 1) ≠ offset t → offset (u - 1) ≠ offset u → t < u → t + hour ≤ u
  within : ∀ t, |offset t - offset (t - 1)| ≤ 3 * hour
  fromLocal_of : ∀ wall, (fromLocal wall).Of offset wall

/-- What a parsed expression matches, by number, of the wall-clock minutes since the epoch. -/
abbrev CronPattern := Int → Bool

/-- croner matches a time at the start of its minute. -/
def CronPattern.isTimeMatching (pattern : CronPattern) (wall : Int) : Bool :=
  wall % minute = 0 && pattern (wall / minute)

/-- The parser and the search of croner. -/
structure Croner where
  parse : String → Except String CronPattern
  findNextOccurrence : CronPattern → Zone → Int → Except String Int
  instants : ∀ pattern zone after t, findNextOccurrence pattern zone after = .ok t → isInstant t = true
  later : ∀ pattern zone after t, findNextOccurrence pattern zone after = .ok t → after < t
  skips : ∀ pattern zone after t, findNextOccurrence pattern zone after = .ok t →
    ∀ u, after < u → u < t → pattern.isTimeMatching (u + zone.offset u) = false

namespace Zone

variable (zone : Zone) (pattern : CronPattern)

def wall (t : Int) : Int := t + zone.offset t

/-! ### The search for a gap -/

/-- Whether the pattern matches a minute from `skipped` up to `stop`. -/
def anySkipped (pattern : CronPattern) (stop : Int) : Nat → Int → Bool
  | 0, _ => false
  | fuel + 1, skipped =>
      decide (skipped < stop) && (pattern.isTimeMatching skipped || anySkipped pattern stop fuel (skipped + minute))

/-- Where the clocks resume, for a gap in `(from_, to_]`: the first minute on the new offset. -/
def resume (from_ to_ : Int) : Int :=
  let old := zone.offset from_
  let high := (bisect (fun middle => zone.offset middle > old) minute (to_ - from_).toNat from_ to_).2
  let resume := high - high % minute
  if zone.offset resume > old then resume else resume + minute

/-- The gap in `(from_, to_]`, where it lies between `after` and `before` and skipped a minute the pattern names. -/
def gapIn (after before from_ to_ : Int) : Option Int :=
  let old := zone.offset from_
  let new := zone.offset to_
  if new > old then
    let resume := zone.resume from_ to_
    if resume > after ∧ resume < before ∧
        anySkipped pattern (resume + new) ((new - old).toNat + 1) (resume + old) = true then some resume
    else none
  else none

/-- Hour by hour, from `from_`. -/
def gapFrom (after before : Int) : Nat → Int → Option Int
  | 0, _ => none
  | fuel + 1, from_ =>
      if from_ < before then
        let to_ := min (from_ + hour) before
        match zone.gapIn pattern after before from_ to_ with
        | some resume => some resume
        | none => gapFrom after before fuel to_
      else none

def gapTick (after before : Int) : Option Int := zone.gapFrom pattern after before (before - after).toNat after

/-! ### The candidates -/

/-- Whether, of the wall-clock minutes from `skipped` back that were never shown, one matches. -/
def anyUnshown : Nat → Int → Bool
  | 0, _ => false
  | fuel + 1, skipped =>
      if zone.fromLocal skipped ≠ .none then false
      else pattern.isTimeMatching skipped || anyUnshown fuel (skipped - minute)

def isTick (candidate : Int) : Bool :=
  let wall := zone.wall candidate
  match zone.fromLocal wall with
  | .ambiguous first _ => if candidate ≠ first then false else
      pattern.isTimeMatching wall || zone.anyUnshown pattern (3 * 60) (wall - minute)
  | _ => pattern.isTimeMatching wall || zone.anyUnshown pattern (3 * 60) (wall - minute)

def maxCandidates : Nat := 1000

def search (croner : Croner) (afterMs : Int) : Nat → Int → Except String Int
  | 0, _ => .error "no next tick"
  | fuel + 1, after =>
      match croner.findNextOccurrence pattern zone after with
      | .error error => .error s!"no next tick: {error}"
      | .ok candidate =>
          if zone.isTick pattern candidate then
            -- croner steps over a gap whose skipped times a list or a step names.
            .ok ((zone.gapTick pattern afterMs candidate).getD candidate)
          else search croner afterMs fuel candidate

end Zone

/-- `chrono_tz`'s zones, by name. -/
abbrev Zones := String → Option Zone

def nextTickMs (croner : Croner) (zones : Zones) (cron timeZone : String) (afterMs : Int) : Except String Int :=
  match croner.parse cron with
  | .error error => .error s!"not a cron expression: {error}"
  | .ok pattern =>
      match zones timeZone with
      | none => .error s!"not a known time zone: {timeZone}"
      | some zone =>
          if isInstant afterMs then zone.search pattern croner afterMs Zone.maxCandidates afterMs
          else .error "a time out of range"

/-- `next_tick`, in the 64 bits of its times. -/
def nextTick (croner : Croner) (zones : Zones) : NextTick := fun cron timeZone afterMs =>
  (nextTickMs croner zones cron timeZone afterMs.toInt).map Int64.ofInt

/-! ### Ticks -/

namespace Zone

variable (zone : Zone) (pattern : CronPattern)

/-- The clocks jump forward at `t`, over `wall`. -/
def Skips (t wall : Int) : Prop := t + zone.offset (t - 1) ≤ wall ∧ wall < t + zone.offset t

/-- Where the clocks resume after a gap that skipped a minute the pattern names. -/
def GapEnd (t : Int) : Prop := ∃ wall, zone.Skips t wall ∧ pattern.isTimeMatching wall = true

/-- The first time that the clocks show what they show at `t`. -/
def FirstShown (t : Int) : Prop := ∀ u, u < t → zone.wall u ≠ zone.wall t

/-- The first occurrence of each wall-clock minute the pattern names, and the end of each gap that skipped one. -/
def Tick (t : Int) : Prop := pattern.isTimeMatching (zone.wall t) = true ∧ zone.FirstShown t ∨ zone.GapEnd pattern t

/-- The first tick after a time. -/
structure FirstTick (after t : Int) : Prop where
  later : after < t
  tick : zone.Tick pattern t
  first : ∀ u, after < u → u < t → ¬ zone.Tick pattern u

/-- The clocks are off UTC by whole minutes, and go back only to times they have shown. -/
structure Regular : Prop where
  minutes : ∀ t, zone.offset t % minute = 0
  shown : ∀ t, zone.offset t < zone.offset (t - 1) → ∃ u, u < t ∧ zone.wall u = zone.wall t

variable {zone : Zone} {pattern : CronPattern} {a b t u r : Int} {after before from_ to_ : Int}

theorem isTimeMatching_whole {wall : Int} (h : pattern.isTimeMatching wall = true) : wall % 60000 = 0 := by
  rw [CronPattern.isTimeMatching, Bool.and_eq_true, decide_eq_true_eq] at h
  exact h.1

/-! ### Between two changes -/

theorem offset_eq (hab : a ≤ b) (hsteady : ∀ u, a < u → u ≤ b → zone.offset (u - 1) = zone.offset u) :
    zone.offset b = zone.offset a := by
  induction b, hab using Int.leInduction with
  | base => rfl
  | succ b hab ih =>
      have hlast := hsteady (b + 1) (by omega) (le_refl _)
      rw [Int.add_sub_cancel] at hlast
      rw [← hlast]
      exact ih fun u hu hu' => hsteady u hu (by omega)

/-- A change parts an hour in two. -/
theorem offset_around (hhour : b - a ≤ hour) (ht : a < t) (ht' : t ≤ b)
    (hchange : zone.offset (t - 1) ≠ zone.offset t) :
    (∀ u, a ≤ u → u < t → zone.offset u = zone.offset a) ∧ ∀ u, t ≤ u → u ≤ b → zone.offset u = zone.offset b := by
  have honly : ∀ u, a < u → u ≤ b → u ≠ t → zone.offset (u - 1) = zone.offset u := by
    intro u hu hu' hne
    by_contra hother
    rcases Int.lt_or_gt_of_ne hne with hlt | hgt
    · have hfar := zone.hourly u t hother hchange hlt
      omega
    · have hfar := zone.hourly t u hchange hother hgt
      omega
  constructor
  · intro u hu hut
    exact offset_eq hu fun v hv hv' => honly v hv (by omega) (by omega)
  · intro u hu hu'
    exact (offset_eq hu' fun v hv hv' => honly v (by omega) hv' (by omega)).symm

theorem GapEnd.forward (h : zone.GapEnd pattern t) : zone.offset (t - 1) < zone.offset t := by
  obtain ⟨wall, ⟨hfrom, hto⟩, -⟩ := h
  omega

/-! ### The search for a gap -/

theorem anySkipped_iff {stop skipped : Int} {fuel : Nat} (hwhole : skipped % 60000 = 0)
    (hfuel : stop - skipped ≤ fuel) :
    anySkipped pattern stop fuel skipped = true ↔ ∃ wall, (skipped ≤ wall ∧ wall < stop) ∧
      pattern.isTimeMatching wall = true := by
  induction fuel generalizing skipped with
  | zero =>
      refine ⟨nofun, ?_⟩
      rintro ⟨wall, ⟨hfrom, hto⟩, -⟩
      omega
  | succ fuel ih =>
      have hnext : (skipped + minute) % 60000 = 0 ∧ stop - (skipped + minute) ≤ fuel := by
        rw [minute]
        omega
      rw [anySkipped, Bool.and_eq_true, decide_eq_true_eq, Bool.or_eq_true, ih hnext.1 hnext.2]
      constructor
      · rintro ⟨hlt, hmatch | ⟨wall, ⟨hfrom, hto⟩, hmatch⟩⟩
        · exact ⟨skipped, ⟨le_refl _, hlt⟩, hmatch⟩
        · rw [minute] at hfrom
          exact ⟨wall, ⟨by omega, hto⟩, hmatch⟩
      · rintro ⟨wall, ⟨hfrom, hto⟩, hmatch⟩
        refine ⟨by omega, ?_⟩
        by_cases heq : wall = skipped
        · exact .inl (heq ▸ hmatch)
        · have hwall := isTimeMatching_whole hmatch
          refine .inr ⟨wall, ⟨?_, hto⟩, hmatch⟩
          rw [minute]
          omega

/-- The bisection ends within a minute of the change. -/
theorem resume_eq (hhour : to_ - from_ ≤ hour) (ht : from_ < t) (ht' : t ≤ to_)
    (hforward : zone.offset (t - 1) < zone.offset t) :
    zone.resume from_ to_ = t := by
  obtain ⟨hbelow, habove⟩ := offset_around hhour ht ht' (ne_of_lt hforward)
  have hold : zone.offset (t - 1) = zone.offset from_ := hbelow _ (by omega) (by omega)
  have hnew : zone.offset t = zone.offset to_ := habove _ (le_refl _) ht'
  have hwhole : t % 60000 = 0 := zone.onMinutes t (ne_of_lt hforward)
  have hturn : ∀ u, from_ ≤ u → u ≤ to_ → (decide (zone.offset u > zone.offset from_) = true ↔ t ≤ u) := by
    intro u hu hu'
    rw [decide_eq_true_eq]
    constructor
    · intro hgreater
      by_contra hless
      rw [hbelow u hu (by omega)] at hgreater
      exact lt_irrefl _ hgreater
    · intro hge
      rw [habove u hge hu', ← hnew, ← hold]
      exact hforward
  obtain ⟨hlow, hhigh, hclose⟩ :=
    bisect_around (by decide : 1 ≤ minute) hturn ht ht' (Int.self_le_toNat (to_ - from_))
  rw [resume]
  generalize bisect (fun middle => decide (zone.offset middle > zone.offset from_)) minute
    (to_ - from_).toNat from_ to_ = around at *
  have hfloor : around.2 - around.2 % minute = t := by
    rw [minute] at *
    omega
  simp only [hfloor]
  exact if_pos (by omega)

/-- Within an hour, the search finds the end of the gap, if it skipped a minute the pattern names. -/
theorem gapIn_eq (hregular : zone.Regular) (hhour : to_ - from_ ≤ hour) (ht : from_ < t) (ht' : t ≤ to_)
    (hforward : zone.offset (t - 1) < zone.offset t) (hafter : after ≤ from_) :
    zone.gapIn pattern after before from_ to_ = some t ↔ t < before ∧ zone.GapEnd pattern t := by
  obtain ⟨hbelow, habove⟩ := offset_around hhour ht ht' (ne_of_lt hforward)
  have hold : zone.offset (t - 1) = zone.offset from_ := hbelow _ (by omega) (by omega)
  have hnew : zone.offset t = zone.offset to_ := habove _ (le_refl _) ht'
  have hwhole : t % 60000 = 0 := zone.onMinutes t (ne_of_lt hforward)
  have hskipped : anySkipped pattern (t + zone.offset to_) ((zone.offset to_ - zone.offset from_).toNat + 1)
    (t + zone.offset from_) =
      true ↔ zone.GapEnd pattern t := by
    have hminutes : zone.offset from_ % 60000 = 0 := hregular.minutes from_
    rw [anySkipped_iff (by omega) (by omega), GapEnd]
    simp only [Skips, hold, hnew]
  have hgreater : zone.offset to_ > zone.offset from_ := by omega
  simp only [gapIn, if_pos hgreater, resume_eq hhour ht ht' hforward]
  rw [← hskipped]
  constructor
  · intro heq
    split at heq
    · next hall => exact hall.2
    · cases heq
  · rintro ⟨hbefore, hend⟩
    exact if_pos ⟨by omega, hbefore, hend⟩

/-- What the search finds in an hour is such a gap's end. -/
theorem gapIn_some (hregular : zone.Regular) (hhour : to_ - from_ ≤ hour) (hle : from_ ≤ to_) (hafter : after ≤ from_)
    (hfound : zone.gapIn pattern after before from_ to_ = some r) :
    from_ < r ∧ r ≤ to_ ∧ r < before ∧ zone.GapEnd pattern r := by
  have hgreater : zone.offset from_ < zone.offset to_ := by
    by_contra hnot
    simp only [gapIn, gt_iff_lt, if_neg hnot] at hfound
    cases hfound
  have hchange : ∃ t, from_ < t ∧ t ≤ to_ ∧ zone.offset (t - 1) ≠ zone.offset t := by
    by_contra hnone
    have hsame := offset_eq hle fun u hu hu' => by
      by_contra hother
      exact hnone ⟨u, hu, hu', hother⟩
    omega
  obtain ⟨t, ht, ht', hchange⟩ := hchange
  obtain ⟨hbelow, habove⟩ := offset_around hhour ht ht' hchange
  have hforward : zone.offset (t - 1) < zone.offset t := by
    rw [hbelow (t - 1) (by omega) (by omega), habove t (le_refl _) ht']
    exact hgreater
  have hr : r = t := by
    simp only [gapIn, gt_iff_lt, if_pos hgreater, resume_eq hhour ht ht' hforward] at hfound
    split at hfound
    · exact (Option.some.inj hfound).symm
    · cases hfound
  subst hr
  exact ⟨ht, ht', (gapIn_eq hregular hhour ht ht' hforward hafter).mp hfound⟩

theorem gapIn_none (hregular : zone.Regular) (hhour : to_ - from_ ≤ hour) (hafter : after ≤ from_)
    (hfound : zone.gapIn pattern after before from_ to_ = none) (ht : from_ < t) (ht' : t ≤ to_)
    (hbefore : t < before) :
    ¬ zone.GapEnd pattern t := by
  intro hend
  rw [(gapIn_eq hregular hhour ht ht' hend.forward hafter).mpr ⟨hbefore, hend⟩] at hfound
  cases hfound

/-- Hour by hour, the search finds the first gap's end. -/
theorem gapFrom_spec (hregular : zone.Regular) {fuel : Nat} (hafter : after ≤ from_) (hfuel : before - from_ ≤ fuel) :
    (∀ r, zone.gapFrom pattern after before fuel from_ = some r →
      (from_ < r ∧ r < before ∧ zone.GapEnd pattern r) ∧ ∀ u, from_ < u → u < r → ¬ zone.GapEnd pattern u) ∧
    (zone.gapFrom pattern after before fuel from_ = none → ∀ u, from_ < u → u < before → ¬ zone.GapEnd pattern u) := by
  induction fuel generalizing from_ with
  | zero =>
      refine ⟨nofun, fun _ u hu hu' => ?_⟩
      omega
  | succ fuel ih =>
      rw [gapFrom]
      split
      · next hlt =>
        have hstep : min (from_ + hour) before - from_ ≤ hour ∧ from_ < min (from_ + hour) before ∧
            before - min (from_ + hour) before ≤ fuel ∧ min (from_ + hour) before ≤ before := by
          rw [hour, minute]
          omega
        dsimp only
        generalize min (from_ + hour) before = to_ at hstep ⊢
        obtain ⟨hhour, hup, hrest, hto⟩ := hstep
        cases hfound : zone.gapIn pattern after before from_ to_ with
        | some resume =>
            refine ⟨fun r hr => ?_, nofun⟩
            cases hr
            obtain ⟨hfrom, hle, hbefore, hend⟩ := gapIn_some hregular hhour hup.le hafter hfound
            refine ⟨⟨hfrom, hbefore, hend⟩, fun u hu hur hother => ?_⟩
            -- Two gaps do not end within the hour.
            have hfar := zone.hourly u resume (ne_of_lt hother.forward) (ne_of_lt hend.forward) hur
            omega
        | none =>
            have hnone := fun u hu hu' hbefore => gapIn_none (t := u) hregular hhour hafter hfound hu hu' hbefore
            obtain ⟨hsome, hnothing⟩ := ih (Int.le_trans hafter hup.le) hrest
            constructor
            · intro r hr
              obtain ⟨⟨hfrom, hbefore, hend⟩, hfirst⟩ := hsome r hr
              refine ⟨⟨by omega, hbefore, hend⟩, fun u hu hur => ?_⟩
              rcases le_or_gt u to_ with hle | hgt
              · exact hnone u hu hle (by omega)
              · exact hfirst u hgt hur
            · intro hr u hu hbefore
              rcases le_or_gt u to_ with hle | hgt
              · exact hnone u hu hle hbefore
              · exact hnothing hr u hgt hbefore
      · refine ⟨nofun, fun _ u hu hu' => ?_⟩
        omega

theorem gapTick_spec (pattern : CronPattern) (hregular : zone.Regular) (after before : Int) :
    (∀ r, zone.gapTick pattern after before = some r →
      (after < r ∧ r < before ∧ zone.GapEnd pattern r) ∧ ∀ u, after < u → u < r → ¬ zone.GapEnd pattern u) ∧
    (zone.gapTick pattern after before = none → ∀ u, after < u → u < before → ¬ zone.GapEnd pattern u) :=
  gapFrom_spec hregular (le_refl _) (Int.self_le_toNat _)

/-! ### The candidates -/

/-- A candidate that shows again what the clocks showed before is no tick. -/
theorem isTick_iff {c : Int} : zone.isTick pattern c = true ↔ zone.FirstShown c ∧
    (pattern.isTimeMatching (zone.wall c) || zone.anyUnshown pattern (3 * 60) (zone.wall c - minute)) = true := by
  have hof := zone.fromLocal_of (zone.wall c)
  simp only [isTick]
  cases hlocal : zone.fromLocal (zone.wall c) with
  | none =>
      rw [hlocal] at hof
      exact absurd rfl (hof c)
  | single t =>
      rw [hlocal] at hof
      refine (and_iff_right fun u hu hsame => ?_).symm
      have hc : c = t := (hof c).mp rfl
      have hut : u = t := (hof u).mp hsame
      omega
  | ambiguous first last =>
      rw [hlocal] at hof
      obtain ⟨-, hfirst, -, hbetween⟩ := hof
      dsimp only
      by_cases heq : c = first
      · subst heq
        rw [if_neg (not_not.mpr rfl), and_iff_right]
        intro u hu hsame
        have hle := (hbetween u hsame).1
        omega
      · rw [if_pos heq]
        refine ⟨nofun, fun h => absurd hfirst (h.1 first ?_)⟩
        have hle := (hbetween c rfl).1
        omega

theorem anyUnshown_some {fuel : Nat} {skipped : Int} (h : zone.anyUnshown pattern fuel skipped = true) :
    ∃ k : Nat, (∀ j : Nat, j ≤ k → zone.fromLocal (skipped - j * 60000) = .none) ∧
      pattern.isTimeMatching (skipped - k * 60000) = true := by
  induction fuel generalizing skipped with
  | zero => cases h
  | succ fuel ih =>
      rw [anyUnshown] at h
      split at h
      · cases h
      · next hlocal =>
        rw [not_not] at hlocal
        rcases Bool.or_eq_true_iff.mp h with hmatch | hrest
        · refine ⟨0, fun j hj => ?_, by simpa using hmatch⟩
          rw [Nat.le_zero.mp hj]
          simpa using hlocal
        · obtain ⟨k, hunshown, hmatch⟩ := ih hrest
          have hback : ∀ j : Nat, skipped - minute - j * 60000 = skipped - (j + 1 : Nat) * 60000 := by
            intro j
            rw [minute]
            omega
          refine ⟨k + 1, fun j hj => ?_, hback k ▸ hmatch⟩
          cases j with
          | zero => simpa using hlocal
          | succ j => exact hback j ▸ hunshown j (Nat.le_of_succ_le_succ hj)

theorem shown_of_fromLocal {wall : Int} (h : zone.fromLocal wall = .none) (t : Int) : zone.wall t ≠ wall := by
  have hof := zone.fromLocal_of wall
  rw [h] at hof
  exact hof t

/-- Just before a whole minute, the clocks showed the minute before, on the offset they then had. -/
theorem wall_minute_before (zone : Zone) (hwhole : t % 60000 = 0) :
    zone.wall (t - 60000) = t + zone.offset (t - 1) - 60000 := by
  have hsteady : zone.offset (t - 1) = zone.offset (t - 60000) := by
    refine offset_eq (by omega) fun u hu hu' => ?_
    by_contra hchange
    have honMinute : u % 60000 = 0 := zone.onMinutes u hchange
    omega
  rw [wall, hsteady]
  omega

/-- The candidate croner's search may give for a time in no gap: the minutes before it were never shown only where it
ends one. -/
theorem gapEnd_of_unshown (hregular : zone.Regular) {c : Int} (hfirst : zone.FirstShown c)
    (h : zone.anyUnshown pattern (3 * 60) (zone.wall c - minute) = true) : zone.GapEnd pattern c := by
  obtain ⟨k, hunshown, hmatch⟩ := anyUnshown_some h
  rw [minute] at hunshown hmatch
  have hmatched := isTimeMatching_whole hmatch
  have hminutes : zone.offset c % 60000 = 0 := hregular.minutes c
  have hbefore : zone.offset (c - 1) % 60000 = 0 := hregular.minutes (c - 1)
  have hwall : zone.wall c = c + zone.offset c := rfl
  have hwhole : c % 60000 = 0 := by omega
  have hshown := wall_minute_before zone hwhole
  have hforward : zone.offset (c - 1) < zone.offset c := by
    rcases lt_trichotomy (zone.offset (c - 1)) (zone.offset c) with hlt | heq | hgt
    · exact hlt
    · have hnone := hunshown 0 (Nat.zero_le k)
      refine absurd ?_ (shown_of_fromLocal hnone (c - 60000))
      rw [hshown]
      push_cast
      omega
    · obtain ⟨u, hu, hsame⟩ := hregular.shown c hgt
      exact absurd hsame (hfirst u hu)
  refine ⟨zone.wall c - 60000 - k * 60000, ⟨?_, by omega⟩, hmatch⟩
  -- The walk back stops where the clocks were a minute before.
  by_contra hpast
  have hsteps : ∃ j : Nat, j ≤ k ∧ zone.wall c - 60000 - j * 60000 = c + zone.offset (c - 1) - 60000 := by
    refine ⟨((zone.offset c - zone.offset (c - 1)) / 60000).toNat, ?_, ?_⟩
    · omega
    · omega
  obtain ⟨j, hj, hsame⟩ := hsteps
  exact shown_of_fromLocal (hunshown j hj) (c - 60000) (hshown.trans hsame.symm)

theorem isTick_of_first (hmatch : pattern.isTimeMatching (zone.wall t) = true) (hfirst : zone.FirstShown t) :
    zone.isTick pattern t = true :=
  isTick_iff.mpr ⟨hfirst, by rw [hmatch, Bool.true_or]⟩

theorem tick_of_isTick (hregular : zone.Regular) (h : zone.isTick pattern t = true) : zone.Tick pattern t := by
  obtain ⟨hfirst, hor⟩ := isTick_iff.mp h
  rcases Bool.or_eq_true_iff.mp hor with hmatch | hunshown
  · exact .inl ⟨hmatch, hfirst⟩
  · exact .inr (gapEnd_of_unshown hregular hfirst hunshown)

variable {croner : Croner} {afterMs : Int}

/-- The candidate accepted has passed over no first occurrence. -/
theorem search_ok {fuel : Nat} (h : zone.search pattern croner afterMs fuel after = .ok t) :
    ∃ c, after < c ∧ isInstant c = true ∧ zone.isTick pattern c = true ∧ t = (zone.gapTick pattern afterMs c).getD c ∧
      ∀ u, after < u → u < c → pattern.isTimeMatching (zone.wall u) = true → ¬ zone.FirstShown u := by
  induction fuel generalizing after with
  | zero => cases h
  | succ fuel ih =>
      rw [search] at h
      cases hfind : croner.findNextOccurrence pattern zone after with
      | error error =>
          rw [hfind] at h
          cases h
      | ok candidate =>
          simp only [hfind] at h
          have hlater := croner.later pattern zone after candidate hfind
          have hskips : ∀ u, after < u → u < candidate → pattern.isTimeMatching (zone.wall u) = false :=
            croner.skips pattern zone after candidate hfind
          split at h
          · next htick =>
            refine ⟨candidate, hlater, croner.instants pattern zone after candidate hfind, htick,
              (Except.ok.inj h).symm, ?_⟩
            intro u hu hu' hmatch
            rw [hskips u hu hu'] at hmatch
            cases hmatch
          · next hnot =>
            obtain ⟨c, hc, hinstant, htick, ht, hnone⟩ := ih h
            refine ⟨c, Int.lt_trans hlater hc, hinstant, htick, ht, fun u hu hu' hmatch hfirst => ?_⟩
            rcases lt_trichotomy u candidate with hlt | heq | hgt
            · rw [hskips u hu hlt] at hmatch
              cases hmatch
            · exact hnot (heq ▸ isTick_of_first hmatch hfirst)
            · exact hnone u hgt hu' hmatch hfirst

theorem search_first (hregular : zone.Regular) {fuel : Nat}
    (h : zone.search pattern croner afterMs fuel afterMs = .ok t) :
    zone.FirstTick pattern afterMs t ∧ ∃ c, isInstant c = true ∧ t ≤ c := by
  obtain ⟨c, hlater, hinstant, htick, ht, hnone⟩ := search_ok h
  obtain ⟨hsome, hnothing⟩ := gapTick_spec pattern hregular afterMs c
  cases hgap : zone.gapTick pattern afterMs c with
  | none =>
      rw [hgap, Option.getD_none] at ht
      subst ht
      refine ⟨⟨hlater, tick_of_isTick hregular htick, fun u hu hut => ?_⟩, t, hinstant, le_refl _⟩
      rintro (⟨hmatch, hfirst⟩ | hend)
      · exact hnone u hu hut hmatch hfirst
      · exact hnothing hgap u hu hut hend
  | some resume =>
      rw [hgap, Option.getD_some] at ht
      subst ht
      obtain ⟨⟨hafter, hbefore, hend⟩, hfirst⟩ := hsome t hgap
      refine ⟨⟨hafter, .inr hend, fun u hu hut => ?_⟩, c, hinstant, hbefore.le⟩
      rintro (⟨hmatch, hshown⟩ | hother)
      · exact hnone u hu (Int.lt_trans hut hbefore) hmatch hshown
      · exact hfirst u hu hut hother

end Zone

variable {croner : Croner} {zones : Zones} {cron timeZone : String}

theorem nextTickMs_ok {afterMs t : Int} (h : nextTickMs croner zones cron timeZone afterMs = .ok t) :
    ∃ pattern zone, croner.parse cron = .ok pattern ∧ zones timeZone = some zone ∧ isInstant afterMs = true ∧
      zone.search pattern croner afterMs Zone.maxCandidates afterMs = .ok t := by
  rw [nextTickMs] at h
  cases hparse : croner.parse cron with
  | error error =>
      rw [hparse] at h
      cases h
  | ok pattern =>
      cases hzone : zones timeZone with
      | none =>
          rw [hparse, hzone] at h
          cases h
      | some zone =>
          simp only [hparse, hzone] at h
          split at h
          · next hinstant => exact ⟨pattern, zone, rfl, rfl, hinstant, h⟩
          · cases h

/-- A tick found is between two instants, so it fits its 64 bits. -/
theorem nextTick_ok (hregular : ∀ zone, zones timeZone = some zone → zone.Regular) {afterMs t : Int64}
    (h : nextTick croner zones cron timeZone afterMs = .ok t) :
    ∃ pattern zone, croner.parse cron = .ok pattern ∧ zones timeZone = some zone ∧
      zone.FirstTick pattern afterMs.toInt t.toInt := by
  rw [nextTick] at h
  cases hnext : nextTickMs croner zones cron timeZone afterMs.toInt with
  | error error =>
      rw [hnext] at h
      cases h
  | ok tick =>
      rw [hnext] at h
      obtain ⟨pattern, zone, hparse, hzone, hinstant, hsearch⟩ := nextTickMs_ok hnext
      obtain ⟨hfirst, c, hc, hle⟩ := Zone.search_first (hregular zone hzone) hsearch
      have hlater := hfirst.later
      rw [isInstant, decide_eq_true_eq] at hinstant hc
      have hround : (Int64.ofInt tick).toInt = tick := by
        refine Int64.toInt_ofInt_of_le ?_ ?_
        · omega
        · omega
      have ht : t = Int64.ofInt tick := (Except.ok.inj h).symm
      rw [ht, hround]
      exact ⟨pattern, zone, hparse, hzone, hfirst⟩

/-- In regular zones, what the scheduler takes for a trigger's next tick is the first. -/
theorem nextTick_findsFirst (hregular : ∀ timeZone zone, zones timeZone = some zone → zone.Regular) :
    (nextTick croner zones).FindsFirst := by
  refine ⟨fun cron timeZone => {tick | ∃ pattern zone, croner.parse cron = .ok pattern ∧ zones timeZone = some zone ∧
    zone.Tick pattern tick.toInt}, fun cron timeZone after tick h => ?_⟩
  obtain ⟨pattern, zone, hparse, hzone, hfirst⟩ := nextTick_ok (hregular timeZone) h
  refine ⟨⟨pattern, zone, hparse, hzone, hfirst.tick⟩, Int64.lt_iff_toInt_lt.mpr hfirst.later, ?_⟩
  rintro other ⟨pattern', zone', hparse', hzone', hother⟩ hafter
  rw [hparse, Except.ok.injEq] at hparse'
  rw [hzone, Option.some.injEq] at hzone'
  subst hparse' hzone'
  by_contra hless
  rw [Int64.le_iff_toInt_le, not_le] at hless
  exact hfirst.first other.toInt (Int64.lt_iff_toInt_lt.mp hafter) hless hother

/-- In zones off UTC by whole minutes, whose clocks go back only to times they have shown, `next_tick` finds the first
tick. -/
theorem next_tick_first (croner : Croner) (zones : Zones) (cron timeZone : String)
    (hregular : ∀ zone, zones timeZone = some zone → zone.Regular) (afterMs t : Int64)
    (hnext : nextTick croner zones cron timeZone afterMs = .ok t) :
    ∃ pattern zone, croner.parse cron = .ok pattern ∧ zones timeZone = some zone ∧
      zone.FirstTick pattern afterMs.toInt t.toInt :=
  nextTick_ok hregular hnext

/-! ### Zones at a change -/

namespace Zone

/-- An hour on from the epoch. -/
def springOffset (base t : Int) : Int := if t < 0 then base else base + 3600000

theorem springOffset_cases (base t : Int) :
    t < 0 ∧ springOffset base t = base ∨ 0 ≤ t ∧ springOffset base t = base + 3600000 := by
  by_cases hneg : t < 0
  · exact .inl ⟨hneg, if_pos hneg⟩
  · exact .inr ⟨by omega, if_neg hneg⟩

theorem springOffset_change {base t : Int} (h : springOffset base (t - 1) ≠ springOffset base t) : t = 0 := by
  have hnow := springOffset_cases base t
  have hbefore := springOffset_cases base (t - 1)
  omega

def springLocal (base wall : Int) : LocalResult :=
  if wall < base then .single (wall - base) else if wall < base + 3600000 then .none
  else .single (wall - base - 3600000)

/-- The clocks go forward by an hour at the epoch. -/
def springing (base : Int) : Zone where
  offset := springOffset base
  fromLocal := springLocal base
  onMinutes t h := by rw [springOffset_change h]; rfl
  hourly t u ht hu hlt := by
    have ht := springOffset_change ht
    have hu := springOffset_change hu
    omega
  within t := by
    have hnow := springOffset_cases base t
    have hbefore := springOffset_cases base (t - 1)
    rw [abs_le, hour, minute]
    omega
  fromLocal_of wall := by
    rw [springLocal]
    by_cases hbefore : wall < base
    · rw [if_pos hbefore]
      intro u
      have hu := springOffset_cases base u
      omega
    · rw [if_neg hbefore]
      by_cases hgap : wall < base + 3600000
      · rw [if_pos hgap]
        intro u
        have hu := springOffset_cases base u
        omega
      · rw [if_neg hgap]
        intro u
        have hu := springOffset_cases base u
        omega

theorem regular_springing : (springing 0).Regular where
  minutes t := by
    have hnow : t < 0 ∧ (springing 0).offset t = 0 ∨ 0 ≤ t ∧ (springing 0).offset t = 0 + 3600000 :=
      springOffset_cases 0 t
    rw [minute]
    omega
  shown t hback := by
    have hback : springOffset 0 t < springOffset 0 (t - 1) := hback
    have hnow := springOffset_cases 0 t
    have hbefore := springOffset_cases 0 (t - 1)
    omega

/-- Three hours on at the epoch, and an hour and a half later back over times not shown. -/
def backOffset (t : Int) : Int := if t < 0 then 0 else if t < 5400000 then 10800000 else 1800000

theorem backOffset_cases (t : Int) : t < 0 ∧ backOffset t = 0 ∨ (0 ≤ t ∧ t < 5400000) ∧ backOffset t = 10800000 ∨
    5400000 ≤ t ∧ backOffset t = 1800000 := by
  by_cases hneg : t < 0
  · exact .inl ⟨hneg, if_pos hneg⟩
  · by_cases hback : t < 5400000
    · exact .inr (.inl ⟨⟨by omega, hback⟩, by rw [backOffset, if_neg hneg, if_pos hback]⟩)
    · exact .inr (.inr ⟨by omega, by rw [backOffset, if_neg hneg, if_neg hback]⟩)

theorem backOffset_change {t : Int} (h : backOffset (t - 1) ≠ backOffset t) : t = 0 ∨ t = 5400000 := by
  have hnow := backOffset_cases t
  have hbefore := backOffset_cases (t - 1)
  omega

def backLocal (wall : Int) : LocalResult :=
  if wall < 0 then .single wall else if wall < 7200000 then .none
  else if wall < 10800000 then .single (wall - 1800000)
  else if wall < 16200000 then .ambiguous (wall - 10800000) (wall - 1800000)
  else .single (wall - 1800000)

/-- The clocks go back to a time they have not shown. -/
def backing : Zone where
  offset := backOffset
  fromLocal := backLocal
  onMinutes t h := by
    rcases backOffset_change h with rfl | rfl <;> rfl
  hourly t u ht hu hlt := by
    have ht := backOffset_change ht
    have hu := backOffset_change hu
    rw [hour, minute]
    omega
  within t := by
    have hnow := backOffset_cases t
    have hbefore := backOffset_cases (t - 1)
    rw [abs_le, hour, minute]
    omega
  fromLocal_of wall := by
    have hshown := backOffset_cases (wall - 1800000)
    have hfirst := backOffset_cases (wall - 10800000)
    rw [backLocal]
    split
    · intro u
      have hu := backOffset_cases u
      omega
    · split
      · intro u
        have hu := backOffset_cases u
        omega
      · split
        · intro u
          have hu := backOffset_cases u
          omega
        · split
          · refine ⟨by omega, by omega, by omega, fun u hsame => ?_⟩
            have hu := backOffset_cases u
            omega
          · intro u
            have hu := backOffset_cases u
            omega

end Zone

namespace Croner

/-- The next instant where a minute may start on the clocks: one on the offset then, or a minute of UTC. -/
def nextMinute (zone : Zone) (after : Int) : Int :=
  min (after + 1 + (-(after + 1 + zone.offset (after + 1))) % 60000) (after + 1 + (-(after + 1)) % 60000)

/-- A search minute by minute. -/
def eachMinute (parse : String → Except String CronPattern) : Croner where
  parse := parse
  findNextOccurrence _ zone after :=
    if isInstant (nextMinute zone after) then .ok (nextMinute zone after) else .error "no time found"
  instants pattern zone after t h := by
    split at h
    · next hinstant => exact Except.ok.inj h ▸ hinstant
    · cases h
  later pattern zone after t h := by
    split at h
    · rw [← Except.ok.inj h, nextMinute]
      omega
    · cases h
  skips pattern zone after t h u hu hut := by
    split at h
    · rw [← Except.ok.inj h, nextMinute] at hut
      -- No change falls between two whole minutes.
      have hsteady : zone.offset u = zone.offset (after + 1) := by
        refine Zone.offset_eq (by omega) fun v hv hv' => ?_
        by_contra hchange
        have hwhole : v % 60000 = 0 := zone.onMinutes v hchange
        omega
      by_contra hmatch
      have hwall := Zone.isTimeMatching_whole (Bool.eq_true_of_not_eq_false hmatch)
      rw [hsteady] at hwall
      omega
    · cases h

end Croner

/-- Half past midnight. -/
def halfPast : CronPattern := fun minute => minute % 1440 = 30

/-- Half past midnight on the day the clocks go forward is where they resume. -/
theorem next_tick_first_spring :
    ∃ pattern zone, (Croner.eachMinute fun _ => .ok halfPast).parse "30 0 * * *" = .ok pattern ∧
    (fun _ => some (Zone.springing 0) : Zones) "Europe/Here" = some zone ∧
      zone.FirstTick pattern (-90000 : Int64).toInt (0 : Int64).toInt :=
  next_tick_first (Croner.eachMinute fun _ => .ok halfPast)
    (fun _ => some (Zone.springing 0)) "30 0 * * *" "Europe/Here"
    (fun _ hzone => by cases hzone; exact Zone.regular_springing) (-90000) 0 (by decide +kernel)

/-- Half past one on the day of the epoch. -/
def halfPastOne : CronPattern := fun minute => minute = 90

/-- Where the clocks go back to a time not shown, the search stops there, though that is no tick. Where they are off
UTC by half a minute, it steps over the end of a gap, which is one, and stops at the next minute, which is not. -/
theorem next_tick_not_first :
    ((∀ t, Zone.backing.offset t % minute = 0) ∧
      nextTick (Croner.eachMinute fun _ => .ok halfPastOne)
        (fun _ => some Zone.backing) "30 1 1 1 *" "Back" 0 = .ok 5400000 ∧
      ¬ Zone.backing.FirstTick halfPastOne 0 5400000) ∧
    (∀ t, (Zone.springing 30000).offset (t - 1) ≤ (Zone.springing 30000).offset t) ∧
      nextTick (Croner.eachMinute fun _ => .ok halfPast)
        (fun _ => some (Zone.springing 30000)) "30 0 * * *" "Half" (-1) =
        .ok 30000 ∧
      ¬ (Zone.springing 30000).FirstTick halfPast (-1) 30000 := by
  refine ⟨⟨fun t => ?_, by decide +kernel, fun h => ?_⟩, fun t => ?_, by decide +kernel, fun h => ?_⟩
  · have hnow := Zone.backOffset_cases t
    show Zone.backOffset t % 60000 = 0
    omega
  · rcases h.tick with ⟨hmatch, -⟩ | hend
    · exact absurd hmatch (by decide +kernel)
    · exact absurd hend.forward (by decide +kernel)
  · have hnow := Zone.springOffset_cases 30000 t
    have hbefore := Zone.springOffset_cases 30000 (t - 1)
    show Zone.springOffset 30000 (t - 1) ≤ Zone.springOffset 30000 t
    omega
  · refine h.first 0 (by decide) (by decide) (.inr ⟨1800000, ?_, by decide +kernel⟩)
    exact ⟨by decide +kernel, by decide +kernel⟩

end Gol
