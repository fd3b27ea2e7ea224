import Mathlib.Data.List.Perm.Subperm
import Gol.ProtocolTypes

/-! The run queue (`queue.rs`): the keys of a `RedisRunQueue` and its scripts, each one atomic step of Redis. A run
can be on a list several times. A lease has no deadline here: it can run out between any two steps (`expire`), so
renewing one only answers whether its token still holds it. -/

namespace Gol

/-- A claim's token, a random UUID. -/
abbrev Token := Uuid

structure RunQueue where
  /-- Newest first: a push adds at the head, a claim takes the last. -/
  runs : List RunId
  processing : List RunId
  /-- Each entry with its score by the Redis clock, longest pending first. -/
  pending : List (RunId × Nat)
  /-- Each parked run with the ask it waits on. -/
  parked : List (RunId × MessageId)
  deliveries : RunId → Nat
  leases : RunId → Option Token

namespace RunQueue

def empty : RunQueue := ⟨[], [], [], [], fun _ => 0, fun _ => none⟩

def IsPending (q : RunQueue) (id : RunId) : Prop := id ∈ q.pending.map Prod.fst

instance (q : RunQueue) (id : RunId) : Decidable (q.IsPending id) := inferInstanceAs (Decidable (_ ∈ _))

/-! ### The scripts -/

/-- `ZADD NX`: an entry that is already pending keeps its score. -/
def pend (q : RunQueue) (now : Nat) (id : RunId) : RunQueue :=
  if q.IsPending id then q else { q with pending := q.pending ++ [(id, now)] }

def unpend (q : RunQueue) (id : RunId) : RunQueue :=
  { q with pending := q.pending.filter fun entry => entry.1 ≠ id }

def push (q : RunQueue) (id : RunId) : RunQueue := { q.unpend id with runs := id :: q.runs }

def queuedOrClaimed (q : RunQueue) (id : RunId) : Bool := id ∈ q.runs ∨ id ∈ q.processing

def pushOnce (q : RunQueue) (id : RunId) : Bool × RunQueue :=
  if q.queuedOrClaimed id then (false, q.unpend id) else (true, q.push id)

/-- The entries pending for at least `age`. -/
def pendingFor (q : RunQueue) (now age : Nat) : List RunId :=
  (q.pending.filter fun entry => entry.2 + age ≤ now).map Prod.fst

/-- `LMOVE` and `SET NX`: a run already leased is dropped from processing again. -/
def claim (q : RunQueue) (token : Token) : Option RunId × RunQueue :=
  match q.runs.getLast? with
  | none => (none, q)
  | some id =>
      let moved := { q with runs := q.runs.dropLast, processing := id :: q.processing }
      if (q.leases id).isSome then (none, { moved with processing := moved.processing.erase id })
      else (some id, { moved with leases := Function.update q.leases id (some token) })

def start (q : RunQueue) (id : RunId) : Nat × RunQueue :=
  (q.deliveries id + 1, { q with deliveries := Function.update q.deliveries id (q.deliveries id + 1) })

def release (q : RunQueue) (id : RunId) (token : Token) : RunQueue :=
  if q.leases id = some token then
    { q with
      processing := q.processing.erase id
      runs := id :: q.runs
      leases := Function.update q.leases id none }
  else q

def park (q : RunQueue) (id : RunId) (token : Token) (ask : MessageId) : Bool × RunQueue :=
  if q.leases id = some token then
    (true,
      { q with
        processing := q.processing.erase id
        parked := (id, ask) :: q.parked.filter fun entry => entry.1 ≠ id
        leases := Function.update q.leases id none
        deliveries := Function.update q.deliveries id 0 })
  else (false, q)

def wake (q : RunQueue) (id : RunId) (ask : MessageId) : Bool × RunQueue :=
  if q.parked.lookup id = some ask then
    (true, { q with parked := q.parked.filter fun entry => entry.1 ≠ id, runs := id :: q.runs })
  else (false, q)

def renew (q : RunQueue) (id : RunId) (token : Token) : Bool := q.leases id = some token

def ack (q : RunQueue) (id : RunId) (token : Token) : RunQueue :=
  { q with
    processing := q.processing.erase id
    deliveries := Function.update q.deliveries id 0
    leases := if q.leases id = some token then Function.update q.leases id none else q.leases }

/-- One run of the list `reap` goes through. -/
def reapOne (reaped : List RunId × RunQueue) (id : RunId) : List RunId × RunQueue :=
  if (reaped.2.leases id).isNone then
    (reaped.1 ++ [id],
      { reaped.2 with processing := reaped.2.processing.erase id, runs := reaped.2.runs ++ [id] })
  else reaped

/-- Moves every run in processing whose lease is gone to the end that claims take from. -/
def reap (q : RunQueue) : List RunId × RunQueue := q.processing.foldl reapOne ([], q)

/-- The lease of `id` runs out. -/
def expire (q : RunQueue) (id : RunId) : RunQueue := { q with leases := Function.update q.leases id none }

/-! ### What a script does to each run -/

/-- The run is on a list of the queue, or parked. -/
def Carries (q : RunQueue) (id : RunId) : Prop :=
  id ∈ q.runs ∨ id ∈ q.processing ∨ id ∈ q.parked.map Prod.fst

instance (q : RunQueue) (id : RunId) : Decidable (q.Carries id) := inferInstanceAs (Decidable (_ ∨ _))

/-- A leased run is in processing. -/
def Leashed (q : RunQueue) (id : RunId) : Prop := q.leases id ≠ none → id ∈ q.processing

/-- The queue carries the run or leases it. -/
def Knows (q : RunQueue) (id : RunId) : Prop := q.Carries id ∨ q.leases id ≠ none

/-- What a step of the queue can do to its runs: take up those in `added`, lose those in `gone`, and take those in
`dropped` off pending without queueing them. -/
structure Shift (q q' : RunQueue) (added gone dropped : RunId → Prop) : Prop where
  knows : ∀ id, q'.Knows id → q.Knows id ∨ added id
  keeps : ∀ id, q.Leashed id → ¬ gone id → q.Carries id → q'.Carries id
  leashed : ∀ id, q.Leashed id → ¬ gone id → q'.Leashed id
  pending : ∀ id, q.IsPending id → q'.IsPending id ∨ q'.Carries id ∨ dropped id

def nobody : RunId → Prop := fun _ => False

theorem Shift.refl (q : RunQueue) : q.Shift q nobody nobody nobody where
  knows _ h := .inl h
  keeps _ _ _ h := h
  leashed _ h _ := h
  pending _ h := .inl h

/-- A step that leaves the lists, the parked runs and the leases as they are. -/
theorem shift_of_same {q q' : RunQueue} {dropped : RunId → Prop} (hruns : q'.runs = q.runs)
    (hprocessing : q'.processing = q.processing) (hparked : q'.parked = q.parked) (hleases : q'.leases = q.leases)
    (hpending : ∀ id, q.IsPending id → q'.IsPending id ∨ q'.Carries id ∨ dropped id) :
    q.Shift q' nobody nobody dropped := by
  have hcarries : ∀ id, q'.Carries id ↔ q.Carries id := fun id => by simp [Carries, hruns, hprocessing, hparked]
  refine ⟨fun id h => .inl ?_, fun id _ _ h => (hcarries id).mpr h, fun id h _ => ?_, hpending⟩
  · simpa [Knows, hcarries, hleases] using h
  · simpa [Leashed, hleases, hprocessing] using h

theorem shift_pend (q : RunQueue) (now : Nat) (id : RunId) : q.Shift (q.pend now id) nobody nobody nobody := by
  unfold pend
  split
  · exact .refl q
  · refine shift_of_same rfl rfl rfl rfl fun other h => .inl ?_
    simp only [IsPending, List.map_append, List.mem_append] at h ⊢
    exact .inl h

theorem isPending_pend (q : RunQueue) (now : Nat) (id : RunId) : (q.pend now id).IsPending id := by
  unfold pend
  split
  · assumption
  · simp [IsPending]

theorem IsPending.unpend {q : RunQueue} {other : RunId} (h : q.IsPending other) (id : RunId) :
    (q.unpend id).IsPending other ∨ other = id := by
  by_cases hid : other = id
  · exact .inr hid
  · left
    simp only [IsPending, RunQueue.unpend, List.mem_map, List.mem_filter] at h ⊢
    obtain ⟨entry, hmem, rfl⟩ := h
    exact ⟨entry, ⟨hmem, by simpa using hid⟩, rfl⟩

theorem shift_unpend (q : RunQueue) (id : RunId) : q.Shift (q.unpend id) nobody nobody (· = id) :=
  shift_of_same rfl rfl rfl rfl fun _ h => (h.unpend id).imp_right .inr

theorem shift_push (q : RunQueue) (id : RunId) : q.Shift (q.push id) (· = id) nobody nobody where
  knows other h := by
    rcases h with (hruns | hrest) | hlease
    · rcases List.mem_cons.mp hruns with rfl | hruns
      · exact .inr rfl
      · exact .inl (.inl (.inl hruns))
    · exact .inl (.inl (.inr hrest))
    · exact .inl (.inr hlease)
  keeps other _ _ h := h.imp_left (List.mem_cons_of_mem _)
  leashed _ h _ := h
  pending other h := by
    rcases h.unpend id with h | rfl
    · exact .inl h
    · exact .inr (.inl (.inl (List.mem_cons_self ..)))

theorem carries_of_queuedOrClaimed {q : RunQueue} {id : RunId} (h : q.queuedOrClaimed id = true) : q.Carries id := by
  rcases (by simpa [queuedOrClaimed] using h : id ∈ q.runs ∨ id ∈ q.processing) with h | h
  · exact .inl h
  · exact .inr (.inl h)

theorem shift_pushOnce (q : RunQueue) (id : RunId) : q.Shift (q.pushOnce id).2 (· = id) nobody nobody := by
  unfold pushOnce
  split
  · next h =>
      have hshift := q.shift_unpend id
      refine ⟨fun other h => .inl ((hshift.knows other h).resolve_right not_false), hshift.keeps, hshift.leashed,
        fun other hpending => ?_⟩
      rcases hpending.unpend id with hpending | rfl
      · exact .inl hpending
      · exact .inr (.inl (carries_of_queuedOrClaimed h))
  · exact q.shift_push id

theorem mem_runs_of_last {q : RunQueue} {id : RunId} (h : q.runs.getLast? = some id) (other : RunId) :
    other ∈ q.runs ↔ other ∈ q.runs.dropLast ∨ other = id := by
  obtain ⟨rest, hrest⟩ := List.getLast?_eq_some_iff.mp h
  rw [hrest]
  simp

theorem mem_erase_or {l : List RunId} {other : RunId} (h : other ∈ l) (id : RunId) :
    other ∈ l.erase id ∨ other = id := by
  by_cases hid : other = id
  · exact .inr hid
  · exact .inl ((List.mem_erase_of_ne hid).mpr h)

/-- A run queued twice: its copy is dropped, and the lease keeps the one in processing. -/
theorem shift_claim_leased {q : RunQueue} {id : RunId} (hlast : q.runs.getLast? = some id)
    (hleased : q.leases id ≠ none) : q.Shift { q with runs := q.runs.dropLast } nobody nobody nobody where
  knows other h := .inl (h.imp_left fun h => h.imp_left fun h => (mem_runs_of_last hlast other).mpr (.inl h))
  keeps other hleash _ h := by
    rcases h with hruns | hrest
    · rcases (mem_runs_of_last hlast other).mp hruns with hruns | rfl
      · exact .inl hruns
      · exact .inr (.inl (hleash hleased))
    · exact .inr hrest
  leashed _ h _ := h
  pending _ h := .inl h

theorem shift_claim_free {q : RunQueue} {id : RunId} (hlast : q.runs.getLast? = some id) (token : Token) :
    q.Shift { q with
      runs := q.runs.dropLast
      processing := id :: q.processing
      leases := Function.update q.leases id (some token) } nobody nobody nobody where
  knows other h := by
    left
    rcases h with (hruns | hprocessing | hparked) | hlease
    · exact .inl (.inl ((mem_runs_of_last hlast other).mpr (.inl hruns)))
    · rcases List.mem_cons.mp hprocessing with rfl | hprocessing
      · exact .inl (.inl ((mem_runs_of_last hlast other).mpr (.inr rfl)))
      · exact .inl (.inr (.inl hprocessing))
    · exact .inl (.inr (.inr hparked))
    · by_cases hid : other = id
      · exact .inl (.inl ((mem_runs_of_last hlast other).mpr (.inr hid)))
      · exact .inr (by simpa [Function.update_of_ne hid] using hlease)
  keeps other _ _ h := by
    rcases h with hruns | hprocessing | hparked
    · rcases (mem_runs_of_last hlast other).mp hruns with hruns | rfl
      · exact .inl hruns
      · exact .inr (.inl (List.mem_cons_self ..))
    · exact .inr (.inl (List.mem_cons_of_mem _ hprocessing))
    · exact .inr (.inr hparked)
  leashed other hleash _ hlease := by
    by_cases hid : other = id
    · exact hid ▸ List.mem_cons_self ..
    · exact List.mem_cons_of_mem _ (hleash (by simpa [Function.update_of_ne hid] using hlease))
  pending _ h := .inl h

theorem shift_claim (q : RunQueue) (token : Token) : q.Shift (q.claim token).2 nobody nobody nobody := by
  unfold claim
  split
  · exact .refl q
  · next id hlast =>
      dsimp only
      split
      · next hleased =>
          rw [List.erase_cons_head]
          exact shift_claim_leased hlast (Option.isSome_iff_ne_none.mp hleased)
      · exact shift_claim_free hlast token

/-- A claimed run is in processing. -/
theorem carries_claim {q : RunQueue} {token : Token} {id : RunId} (h : (q.claim token).1 = some id) :
    (q.claim token).2.Carries id := by
  unfold claim at h ⊢
  split
  · next hlast => simp [hlast] at h
  · next last hlast =>
      simp only [hlast] at h ⊢
      split
      · next hleased => simp [hleased] at h
      · next hfree =>
          rw [if_neg hfree, Option.some.injEq] at h
          exact h ▸ .inr (.inl (List.mem_cons_self ..))

/-- A run whose lease is given up moves from processing to another place of the queue. -/
theorem shift_handBack {q q' : RunQueue} (id : RunId) (hleased : q.leases id ≠ none)
    (hprocessing : q'.processing = q.processing.erase id) (hleases : q'.leases = Function.update q.leases id none)
    (hpending : q'.pending = q.pending) (hself : q'.Carries id)
    (hback : ∀ other, other ∈ q'.runs ∨ other ∈ q'.parked.map Prod.fst →
      other ∈ q.runs ∨ other ∈ q.parked.map Prod.fst ∨ other = id)
    (hforth : ∀ other, other ∈ q.runs ∨ other ∈ q.parked.map Prod.fst → q'.Carries other) :
    q.Shift q' nobody nobody nobody where
  knows other h := by
    left
    have hback' : other ∈ q'.runs ∨ other ∈ q'.parked.map Prod.fst → q.Knows other := by
      intro h
      rcases hback other h with h | h | rfl
      · exact .inl (.inl h)
      · exact .inl (.inr (.inr h))
      · exact .inr hleased
    rcases h with (hruns | hin | hparked) | hlease
    · exact hback' (.inl hruns)
    · rw [hprocessing] at hin
      exact .inl (.inr (.inl (List.mem_of_mem_erase hin)))
    · exact hback' (.inr hparked)
    · by_cases hid : other = id
      · simp [hleases, hid] at hlease
      · exact .inr (by simpa [hleases, Function.update_of_ne hid] using hlease)
  keeps other _ _ h := by
    rcases h with hruns | hin | hparked
    · exact hforth other (.inl hruns)
    · rcases mem_erase_or hin id with hin | rfl
      · exact .inr (.inl (hprocessing ▸ hin))
      · exact hself
    · exact hforth other (.inr hparked)
  leashed other hleash _ hlease := by
    by_cases hid : other = id
    · simp [hleases, hid] at hlease
    · rw [hprocessing]
      exact (List.mem_erase_of_ne hid).mpr (hleash (by simpa [hleases, Function.update_of_ne hid] using hlease))
  pending other h := .inl (by simpa [IsPending, hpending] using h)

theorem shift_release (q : RunQueue) (id : RunId) (token : Token) :
    q.Shift (q.release id token) nobody nobody nobody := by
  unfold release
  split
  · next hlease =>
      refine shift_handBack id (by simp [hlease]) rfl rfl rfl (.inl (List.mem_cons_self ..)) ?_ ?_
      · rintro other (h | h)
        · rcases List.mem_cons.mp h with rfl | h
          · exact .inr (.inr rfl)
          · exact .inl h
        · exact .inr (.inl h)
      · rintro other (h | h)
        · exact .inl (List.mem_cons_of_mem _ h)
        · exact .inr (.inr h)
  · exact .refl q

theorem mem_filter_or {entries : List (RunId × MessageId)} {other : RunId}
    (h : other ∈ entries.map Prod.fst) (id : RunId) :
    other ∈ (entries.filter fun entry => entry.1 ≠ id).map Prod.fst ∨ other = id := by
  by_cases hid : other = id
  · exact .inr hid
  · left
    obtain ⟨entry, hmem, rfl⟩ := List.mem_map.mp h
    exact List.mem_map.mpr ⟨entry, List.mem_filter.mpr ⟨hmem, by simpa using hid⟩, rfl⟩

theorem mem_of_mem_filter {entries : List (RunId × MessageId)} {id other : RunId}
    (h : other ∈ (entries.filter fun entry => entry.1 ≠ id).map Prod.fst) : other ∈ entries.map Prod.fst := by
  obtain ⟨entry, hmem, rfl⟩ := List.mem_map.mp h
  exact List.mem_map.mpr ⟨entry, (List.mem_filter.mp hmem).1, rfl⟩

theorem shift_park (q : RunQueue) (id : RunId) (token : Token) (ask : MessageId) :
    q.Shift (q.park id token ask).2 nobody nobody nobody := by
  unfold park
  split
  · next hlease =>
      refine shift_handBack id (by simp [hlease]) rfl rfl rfl (.inr (.inr (by simp))) ?_ ?_
      · rintro other (h | h)
        · exact .inl h
        · rcases List.mem_cons.mp h with rfl | h
          · exact .inr (.inr rfl)
          · exact .inr (.inl (mem_of_mem_filter h))
      · rintro other (h | h)
        · exact .inl h
        · refine .inr (.inr (List.mem_cons.mpr ?_))
          exact (mem_filter_or h id).symm
  · exact .refl q

theorem mem_parked_of_lookup {q : RunQueue} {id : RunId} {ask : MessageId} (h : q.parked.lookup id = some ask) :
    id ∈ q.parked.map Prod.fst := by
  by_contra hnot
  have hnone : q.parked.lookup id = none := by
    rw [List.lookup_eq_none_iff]
    intro entry hentry
    simp only [bne_iff_ne, ne_eq]
    rintro rfl
    exact hnot (List.mem_map_of_mem hentry)
  simp [hnone] at h

theorem shift_wake (q : RunQueue) (id : RunId) (ask : MessageId) :
    q.Shift (q.wake id ask).2 nobody nobody nobody := by
  unfold wake
  split
  · next hparked =>
      have hmem := mem_parked_of_lookup hparked
      refine ⟨fun other h => .inl ?_, fun other _ _ h => ?_, fun _ h _ => h, fun _ h => .inl h⟩
      · rcases h with (hruns | hin | hrest) | hlease
        · rcases List.mem_cons.mp hruns with rfl | hruns
          · exact .inl (.inr (.inr hmem))
          · exact .inl (.inl hruns)
        · exact .inl (.inr (.inl hin))
        · exact .inl (.inr (.inr (mem_of_mem_filter hrest)))
        · exact .inr hlease
      · rcases h with hruns | hin | hrest
        · exact .inl (List.mem_cons_of_mem _ hruns)
        · exact .inr (.inl hin)
        · rcases mem_filter_or hrest id with hrest | rfl
          · exact .inr (.inr hrest)
          · exact .inl (List.mem_cons_self ..)
  · exact .refl q

theorem shift_ack (q : RunQueue) (id : RunId) (token : Token) : q.Shift (q.ack id token) nobody (· = id) nobody where
  knows other h := by
    left
    rcases h with (hruns | hin | hparked) | hlease
    · exact .inl (.inl hruns)
    · exact .inl (.inr (.inl (List.mem_of_mem_erase hin)))
    · exact .inl (.inr (.inr hparked))
    · right
      simp only [ack] at hlease
      split at hlease
      · by_cases hid : other = id
        · simp [hid] at hlease
        · simpa [Function.update_of_ne hid] using hlease
      · exact hlease
  keeps other _ hother h := h.imp_right fun h => h.imp_left (List.mem_erase_of_ne hother).mpr
  leashed other hleash hother hlease := by
    refine (List.mem_erase_of_ne hother).mpr (hleash ?_)
    simp only [ack] at hlease
    split at hlease
    · simpa [Function.update_of_ne hother] using hlease
    · exact hlease
  pending _ h := .inl h

/-! ### Reaping -/

theorem Shift.trans {q mid q' : RunQueue} (h : q.Shift mid nobody nobody nobody)
    (h' : mid.Shift q' nobody nobody nobody) (hpending : q'.pending = q.pending) :
    q.Shift q' nobody nobody nobody where
  knows id hknows := .inl ((h.knows id ((h'.knows id hknows).resolve_right not_false)).resolve_right not_false)
  keeps id hleash _ hcarries :=
    h'.keeps id (h.leashed id hleash not_false) not_false (h.keeps id hleash not_false hcarries)
  leashed id hleash _ := h'.leashed id (h.leashed id hleash not_false) not_false
  pending id h := .inl (by simpa [IsPending, hpending] using h)

/-- A run that is reaped has no lease, so it moves between the lists like one handed back. -/
theorem shift_reapOne (reaped : List RunId × RunQueue) {id : RunId} (hin : id ∈ reaped.2.processing) :
    reaped.2.Shift (reapOne reaped id).2 nobody nobody nobody := by
  unfold reapOne
  split
  · next hfree =>
      refine ⟨fun other h => .inl ?_, fun other _ _ h => ?_, fun other hleash _ hlease => ?_, fun _ h => .inl h⟩
      · rcases h with (hruns | hprocessing | hparked) | hlease
        · rcases List.mem_append.mp hruns with hruns | hsame
          · exact .inl (.inl hruns)
          · exact .inl (.inr (.inl (List.mem_singleton.mp hsame ▸ hin)))
        · exact .inl (.inr (.inl (List.mem_of_mem_erase hprocessing)))
        · exact .inl (.inr (.inr hparked))
        · exact .inr hlease
      · rcases h with hruns | hprocessing | hparked
        · exact .inl (List.mem_append_left _ hruns)
        · rcases mem_erase_or hprocessing id with hprocessing | rfl
          · exact .inr (.inl hprocessing)
          · exact .inl (by simp)
        · exact .inr (.inr hparked)
      · have hother : other ≠ id := by
          rintro rfl
          exact hlease (Option.isNone_iff_eq_none.mp hfree)
        exact (List.mem_erase_of_ne hother).mpr (hleash hlease)
  · exact .refl _

theorem reapOne_pending (reaped : List RunId × RunQueue) (id : RunId) :
    (reapOne reaped id).2.pending = reaped.2.pending := by
  unfold reapOne
  split <;> rfl

/-- A reap changes only the two lists. -/
theorem reap_keeps (q : RunQueue) :
    q.reap.2.parked = q.parked ∧ q.reap.2.deliveries = q.deliveries ∧ q.reap.2.leases = q.leases := by
  have hfold : ∀ (rest : List RunId) (reaped : List RunId × RunQueue),
      (rest.foldl reapOne reaped).2.parked = reaped.2.parked ∧
        (rest.foldl reapOne reaped).2.deliveries = reaped.2.deliveries ∧
          (rest.foldl reapOne reaped).2.leases = reaped.2.leases := by
    intro rest
    induction rest with
    | nil => exact fun _ => ⟨rfl, rfl, rfl⟩
    | cons id rest ih =>
        intro reaped
        have hone : (reapOne reaped id).2.parked = reaped.2.parked ∧
            (reapOne reaped id).2.deliveries = reaped.2.deliveries ∧
              (reapOne reaped id).2.leases = reaped.2.leases := by
          unfold reapOne
          split <;> exact ⟨rfl, rfl, rfl⟩
        obtain ⟨hparked, hdeliveries, hleases⟩ := ih (reapOne reaped id)
        exact ⟨hparked.trans hone.1, hdeliveries.trans hone.2.1, hleases.trans hone.2.2⟩
  exact hfold q.processing ([], q)

theorem subperm_reapOne {reaped : List RunId × RunQueue} {id : RunId} {rest : List RunId}
    (h : (id :: rest).Subperm reaped.2.processing) : rest.Subperm (reapOne reaped id).2.processing := by
  unfold reapOne
  split
  · have herase := h.erase id
    rwa [List.erase_cons_head] at herase
  · exact (List.sublist_cons_self id rest).subperm.trans h

/-- The runs still to be reaped are in processing, with as many copies. -/
theorem shift_foldl_reapOne (rest : List RunId) (reaped : List RunId × RunQueue)
    (h : rest.Subperm reaped.2.processing) :
    reaped.2.Shift (rest.foldl reapOne reaped).2 nobody nobody nobody ∧
      (rest.foldl reapOne reaped).2.pending = reaped.2.pending := by
  induction rest generalizing reaped with
  | nil => exact ⟨.refl _, rfl⟩
  | cons id rest ih =>
      obtain ⟨hrest, hpending⟩ := ih (reapOne reaped id) (subperm_reapOne h)
      have hpending' := hpending.trans (reapOne_pending reaped id)
      exact ⟨(shift_reapOne reaped (h.subset (List.mem_cons_self ..))).trans hrest hpending', hpending'⟩

theorem shift_reap (q : RunQueue) : q.Shift q.reap.2 nobody nobody nobody :=
  (shift_foldl_reapOne q.processing ([], q) (List.Subperm.refl _)).1

end RunQueue
end Gol
