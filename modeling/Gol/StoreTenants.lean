import Gol.StoreThreads
import Gol.StoreWorkLists

/-! What a store shows one principal: its runs, the order they were stored in, and its stops of them. Run ids are held
by principals, each run by its own; then no write of another principal's changes what a store shows, and stores that
show a principal the same answer its reads of runs, stops and threads alike. -/

namespace Gol
open Library

variable {holder : RunId → Principal} {k other : Principal}

/-- Whether a stop of the principal's, of this scope, is later than the run, or is of a run. -/
def Stops.covers (s : Stops) (k : Principal) (scope : StopScope) (id : RunId) : Bool :=
  s.entries.any fun entry => entry.principal = k && entry.scope = scope && match scope with
    | .run _ => true
    | _ => s.numberOf id < entry.number

/-- The run's number, below every number while it is not stored. -/
def Stops.place (s : Stops) (id : RunId) : WithBot Nat := s.stored.lookup id

/-- The stops that name a run are of it, of its thread or of its owner. -/
theorem Stops.names_eq (s : Stops) (spec : RunSpec) :
    s.names spec = (s.covers (principal spec.owner) (.run spec.runId) spec.runId ||
      (threadOf spec).any (fun thread => s.covers (principal spec.owner) (.thread thread) spec.runId) ||
      s.covers (principal spec.owner) .owner spec.runId) := by
  rw [Bool.eq_iff_iff]
  simp only [names, covers, Bool.or_eq_true, List.any_eq_true, Option.any_eq_true, Bool.and_eq_true,
    decide_eq_true_eq, and_true]
  constructor
  · rintro ⟨entry, hmem, howner, hnames⟩
    cases hscope : entry.scope with
    | run id =>
        obtain rfl : id = spec.runId := by simpa [stopNames, hscope] using hnames
        exact .inl (.inl ⟨entry, hmem, howner, hscope⟩)
    | thread thread =>
        obtain ⟨hlater, hthread⟩ : s.numberOf spec.runId < entry.number ∧ threadOf spec = some thread := by
          simpa [stopNames, hscope] using hnames
        exact .inl (.inr ⟨thread, hthread, entry, hmem, ⟨howner, hscope⟩, hlater⟩)
    | owner => exact .inr ⟨entry, hmem, ⟨howner, hscope⟩, by simpa [stopNames, hscope] using hnames⟩
  · rintro ((⟨entry, hmem, howner, hscope⟩ | ⟨thread, hthread, entry, hmem, ⟨howner, hscope⟩, hlater⟩) |
      ⟨entry, hmem, ⟨howner, hscope⟩, hlater⟩)
    · exact ⟨entry, hmem, howner, by simp [stopNames, hscope]⟩
    · exact ⟨entry, hmem, howner, by simp [stopNames, hscope, hthread, hlater]⟩
    · exact ⟨entry, hmem, howner, by simp [stopNames, hscope, hlater]⟩

namespace StopStore

variable {s t u : StopStore}

/-- Each run stored has one number, as many were taken as runs are stored, and no stop's is above the last one taken.
Unlike `Ordered`, this does not ask that a child's parent is stored before it. -/
structure Arranged (s : StopStore) : Prop where
  numbered : s.Numbered
  room : s.stops.stored.length ≤ s.stops.order
  entries : ∀ entry ∈ s.stops.entries, entry.number ≤ s.stops.order

theorem arranged_empty : empty.Arranged where
  numbered := numbered_empty
  room := Nat.le_refl 0
  entries _ hmem := by cases hmem

theorem Arranged.apply (h : s.Arranged) (op : StopOp) : (s.apply op).Arranged where
  numbered := h.numbered.apply op
  room := by
    cases op with
    | stop owner scope => exact Nat.le_succ_of_le h.room
    | write now op =>
        rcases s.stops_write now op with heq | ⟨new, -, -, heq⟩
        · exact heq ▸ h.room
        · rw [heq, Stops.putRun, List.length_append]
          exact Nat.succ_le_succ h.room
  entries := by
    cases op with
    | stop owner scope =>
        intro entry hmem
        rcases List.mem_append.mp hmem with hmem | hmem
        · exact Nat.le_succ_of_le (h.entries entry (List.mem_of_mem_filter hmem))
        · rw [List.mem_singleton.mp hmem]
          exact Nat.le_refl _
    | write now op =>
        rcases s.stops_write now op with heq | ⟨new, -, -, heq⟩
        · exact heq ▸ h.entries
        · rw [heq]
          exact fun entry hmem => Nat.le_succ_of_le (h.entries entry hmem)

theorem Arranged.lookup_eq_none (h : s.Arranged) {id : RunId} (hnone : s.logs.runs id = none) :
    s.stops.stored.lookup id = none := by
  rw [List.lookup_eq_none_iff]
  intro entry hmem
  have hstored : entry.1 ∈ s.stops.stored.map Prod.fst := List.mem_map_of_mem hmem
  simp only [bne_iff_ne, ne_eq]
  rintro rfl
  exact (h.numbered.stored _).mp hstored hnone

theorem Arranged.numberOf_le (h : s.Arranged) (id : RunId) : s.stops.numberOf id ≤ s.stops.order := by
  rw [Stops.numberOf]
  cases hlookup : s.stops.stored.lookup id with
  | none => exact Nat.zero_le _
  | some number =>
      obtain ⟨before, after, hsplit, -⟩ := List.lookup_eq_some_iff.mp hlookup
      exact h.numbered.bounded (id, number) (hsplit ▸ by simp)

/-- A search upwards goes on from stored runs only, and is given more steps than there are. -/
theorem Arranged.anyAbove_iff (h : s.Arranged) {p : RunId → Bool} {id : RunId} :
    anyAbove (Stops.parentOf s.logs.runs) p (s.stops.order + 1) id = true ↔
      ∃ above, Under (Stops.parentOf s.logs.runs) id above ∧ p above = true := by
  have hstored : ∀ id above, Stops.parentOf s.logs.runs id = some above → id ∈ s.stops.stored.map Prod.fst := by
    intro id above hparent
    obtain ⟨run, hrun, -⟩ := Option.bind_eq_some_iff.mp hparent
    exact (h.numbered.stored id).mpr (by simp [hrun])
  have hroom : (s.stops.stored.map Prod.fst).length < s.stops.order + 1 := by
    rw [List.length_map]
    exact Nat.lt_succ_of_le h.room
  exact anyAbove_iff_of_keys hstored hroom

theorem Arranged.stopped_iff (h : s.Arranged) {id : RunId} :
    s.stopped id = true ↔ ∃ above, Under (Stops.parentOf s.logs.runs) id above ∧
      s.stops.namesStored s.logs.runs above = true := by
  rw [stopped, Stops.stopped, Stops.stoppedWithin_eq]
  exact h.anyAbove_iff

theorem Arranged.within_iff (h : s.Arranged) {id under : RunId} :
    Stops.within s.logs.runs under (s.stops.order + 1) id = true ↔ Under (Stops.parentOf s.logs.runs) id under := by
  rw [Stops.within_eq, h.anyAbove_iff]
  simp

/-- Each run stored is of the principal that holds its id, and of its parent's. -/
structure Housed (holder : RunId → Principal) (s : StopStore) : Prop where
  arranged : s.Arranged
  held : ∀ id run, s.logs.runs id = some run → principal run.spec.owner = holder id
  family : ∀ id run parent, s.logs.runs id = some run → run.spec.lineage.parent = some parent →
    holder parent = holder id

theorem housed_empty (holder : RunId → Principal) : empty.Housed holder where
  arranged := arranged_empty
  held _ _ hrun := by cases hrun
  family _ _ _ hrun := by cases hrun

/-- The two stores show the principal the same: the runs under its ids, in the order they were stored, and which of
its stops are later than each. -/
structure ShowsRuns (holder : RunId → Principal) (k : Principal) (s t : StopStore) : Prop where
  runs : ∀ id, holder id = k → s.logs.runs id = t.logs.runs id
  order : (s.stops.stored.map Prod.fst).filter (fun id => holder id = k) =
    (t.stops.stored.map Prod.fst).filter fun id => holder id = k
  sooner : ∀ a b, holder a = k → holder b = k → (s.stops.place a ≤ s.stops.place b ↔ t.stops.place a ≤ t.stops.place b)
  covers : ∀ scope id, holder id = k → s.stops.covers k scope id = t.stops.covers k scope id

theorem ShowsRuns.refl (holder : RunId → Principal) (k : Principal) (s : StopStore) : ShowsRuns holder k s s :=
  ⟨fun _ _ => rfl, rfl, fun _ _ _ _ => Iff.rfl, fun _ _ _ => rfl⟩

theorem ShowsRuns.symm (h : ShowsRuns holder k s t) : ShowsRuns holder k t s :=
  ⟨fun id hid => (h.runs id hid).symm, h.order.symm, fun a b ha hb => (h.sooner a b ha hb).symm,
    fun scope id hid => (h.covers scope id hid).symm⟩

theorem ShowsRuns.trans (h : ShowsRuns holder k s t) (h' : ShowsRuns holder k t u) : ShowsRuns holder k s u :=
  ⟨fun id hid => (h.runs id hid).trans (h'.runs id hid), h.order.trans h'.order,
    fun a b ha hb => (h.sooner a b ha hb).trans (h'.sooner a b ha hb),
    fun scope id hid => (h.covers scope id hid).trans (h'.covers scope id hid)⟩

/-! ### Writes -/

/-- A write of the principal's own: a run of its own, under none or another of its own, an append to its run, or a
stop of its own. -/
def OwnWrite (holder : RunId → Principal) (k : Principal) : StopOp → Prop
  | .write _ (.putRun run) => holder run.spec.runId = k ∧ principal run.spec.owner = k ∧
      ∀ parent, run.spec.lineage.parent = some parent → holder parent = k
  | .write _ (.appendEvents id _) | .write _ (.appendEventsAfter id _ _) => holder id = k
  | .write _ (.pruneOutbox _) => False
  | .stop owner _ => principal owner = k

theorem Housed.apply (h : s.Housed holder) {op : StopOp} (hown : OwnWrite holder k op) :
    (s.apply op).Housed holder where
  arranged := h.arranged.apply op
  family id run parent hrun hparent := by
    rcases runs_apply op hrun with ⟨old, hold, hspec⟩ | ⟨-, hid, ⟨now, rfl⟩, -⟩
    · exact h.family id old parent hold (hspec ▸ hparent)
    · rw [← hid, hown.1]
      exact hown.2.2 parent hparent
  held id run hrun := by
    rcases runs_apply op hrun with ⟨old, hold, hspec⟩ | ⟨-, hid, ⟨now, rfl⟩, -⟩
    · rw [← hspec]
      exact h.held id old hold
    · rw [← hid, hown.1]
      exact hown.2.1

/-- The answer of a write. -/
def writeAnswer (s : StopStore) : StopOp → StoreAnswer
  | .write now op => (s.logs.exec now op).2
  | .stop _ _ => .put .stored

section Put

variable {now : Timestamp} {run : StoredRun}

theorem put_refused {error : StoreError} (hcheck : checkOneTerminal run.events = .error error) :
    s.writeAnswer (.write now (.putRun run)) = .failed error ∧ s.apply (.write now (.putRun run)) = s := by
  simp [writeAnswer, StopStore.apply, numbered, LogStore.exec, LogStore.putRun, hcheck]

theorem put_existed {checked : Unit} {stored : StoredRun} (hcheck : checkOneTerminal run.events = .ok checked)
    (hrun : s.logs.runs run.spec.runId = some stored) :
    s.writeAnswer (.write now (.putRun run)) = .put .existed ∧ s.apply (.write now (.putRun run)) = s := by
  simp [writeAnswer, StopStore.apply, numbered, LogStore.exec, LogStore.putRun, hcheck, hrun]

theorem put_stored {checked : Unit} (hcheck : checkOneTerminal run.events = .ok checked)
    (hrun : s.logs.runs run.spec.runId = none) :
    s.writeAnswer (.write now (.putRun run)) = .put .stored ∧ s.apply (.write now (.putRun run)) = s.put now run := by
  simp [writeAnswer, StopStore.apply, numbered, LogStore.exec, LogStore.putRun, hcheck, hrun, StopStore.put]

end Put

theorem covers_putStop (s : Stops) (owner : Owner) (scope scope' : StopScope) (k : Principal) {id : RunId}
    (hbounded : s.numberOf id ≤ s.order) :
    (s.putStop owner scope).covers k scope' id =
      if principal owner = k ∧ scope' = scope then true else s.covers k scope' id := by
  have hnumber : (s.putStop owner scope).numberOf id = s.numberOf id := rfl
  rw [Bool.eq_iff_iff]
  simp only [Stops.covers, hnumber]
  simp only [Stops.putStop, List.any_append, List.any_filter, List.any_cons, List.any_nil, Bool.or_false,
    Bool.or_eq_true, List.any_eq_true, Bool.and_eq_true, decide_eq_true_eq, not_and]
  by_cases hsame : principal owner = k ∧ scope' = scope
  · rw [if_pos hsame]
    refine iff_of_true (.inr ⟨⟨hsame.1, hsame.2.symm⟩, ?_⟩) rfl
    cases scope' with
    | run _ => rfl
    | thread _ | owner => exact decide_eq_true (Nat.lt_succ_of_le hbounded)
  · rw [if_neg hsame]
    constructor
    · rintro (⟨entry, hmem, -, hentry⟩ | ⟨⟨howner, hscope⟩, -⟩)
      · exact List.any_eq_true.mpr ⟨entry, hmem, by simpa using hentry⟩
      · exact absurd ⟨howner, hscope.symm⟩ hsame
    · intro hany
      obtain ⟨entry, hmem, hentry⟩ := List.any_eq_true.mp hany
      simp only [Bool.and_eq_true, decide_eq_true_eq] at hentry
      refine .inl ⟨entry, hmem, fun howner hscope => hsame ?_, hentry⟩
      exact ⟨howner.symm.trans hentry.1.1, hentry.1.2.symm.trans hscope⟩

theorem place_putRun_of_ne (s : Stops) {new id : RunId} (h : id ≠ new) : (s.putRun new).place id = s.place id := by
  rw [Stops.place, Stops.lookup_putRun, if_neg h, Option.or_none, Stops.place]

theorem numberOf_putRun_of_ne (s : Stops) {new id : RunId} (h : id ≠ new) :
    (s.putRun new).numberOf id = s.numberOf id := by
  rw [Stops.numberOf, Stops.lookup_putRun, if_neg h, Option.or_none, Stops.numberOf]

theorem covers_putRun_of_ne (s : Stops) {new id : RunId} (h : id ≠ new) (k : Principal) (scope : StopScope) :
    (s.putRun new).covers k scope id = s.covers k scope id := by
  rw [Stops.covers, Stops.covers, numberOf_putRun_of_ne s h]
  rfl

/-- A new run is later than every stop. -/
theorem Arranged.covers_new (h : s.Arranged) {new : RunId} (hnone : s.logs.runs new = none)
    (k : Principal) {scope : StopScope} (hscope : ∀ under, scope ≠ .run under) :
    (s.stops.putRun new).covers k scope new = false := by
  have hnumber : (s.stops.putRun new).numberOf new = s.stops.order + 1 := by
    rw [Stops.numberOf, Stops.lookup_putRun, h.lookup_eq_none hnone]
    simp
  rw [Stops.covers, hnumber]
  refine List.any_eq_false.mpr fun entry hmem => ?_
  have hbounded := h.entries entry hmem
  cases scope with
  | run under => exact absurd rfl (hscope under)
  | thread _ | owner =>
      simp only [Bool.and_eq_true, decide_eq_true_eq, not_and]
      omega

theorem Housed.place_le (h : s.Housed holder) (id : RunId) : s.stops.place id ≤ WithBot.some s.stops.order := by
  have hbounded := h.arranged.numberOf_le id
  rw [Stops.place, Stops.numberOf] at *
  cases hlookup : s.stops.stored.lookup id with
  | none => exact bot_le (α := WithBot Nat)
  | some number =>
      rw [hlookup] at hbounded
      exact WithBot.coe_le_coe.mpr hbounded

theorem Housed.place_new (h : s.Housed holder) {new : StoredRun} (hnone : s.logs.runs new.spec.runId = none) :
    (s.stops.putRun new.spec.runId).place new.spec.runId = WithBot.some (s.stops.order + 1) := by
  rw [Stops.place, Stops.lookup_putRun, h.arranged.lookup_eq_none hnone, if_pos rfl]
  rfl

theorem Housed.place_lt_new (h : s.Housed holder) {new : StoredRun}
    (hnone : s.logs.runs new.spec.runId = none) (id : RunId) :
    s.stops.place id < (s.stops.putRun new.spec.runId).place new.spec.runId := by
  rw [h.place_new hnone]
  exact (h.place_le id).trans_lt (WithBot.coe_lt_coe.mpr (Nat.lt_succ_self _))

/-- A put of one of the principal's runs, that is stored. -/
theorem ShowsRuns.put (hs : s.Housed holder) (ht : t.Housed holder) (h : ShowsRuns holder k s t) (now : Timestamp)
    {new : StoredRun} (hown : holder new.spec.runId = k) (hnone : s.logs.runs new.spec.runId = none) :
    ShowsRuns holder k (s.put now new) (t.put now new) where
  runs id hid := by
    by_cases hnew : id = new.spec.runId
    · subst hnew
      simp only [StopStore.put, LogStore.extend_runs_self]
    · calc
        _ = s.logs.runs id := LogStore.extend_runs_of_ne _ _ hnew _ _
        _ = t.logs.runs id := h.runs id hid
        _ = _ := (LogStore.extend_runs_of_ne _ _ hnew _ _).symm
  order := by
    simp only [StopStore.put, Stops.putRun, List.map_append, List.map_cons, List.map_nil, List.filter_append, h.order]
  sooner a b ha hb := by
    have hnone' : t.logs.runs new.spec.runId = none := (h.runs _ hown).symm.trans hnone
    simp only [StopStore.put]
    by_cases hanew : a = new.spec.runId
    · by_cases hbnew : b = new.spec.runId
      · rw [hanew, hbnew]
        exact iff_of_true le_rfl le_rfl
      · -- The new run is after every other.
        rw [hanew, place_putRun_of_ne _ hbnew, place_putRun_of_ne _ hbnew]
        exact iff_of_false (not_le.mpr (hs.place_lt_new hnone b)) (not_le.mpr (ht.place_lt_new hnone' b))
    · by_cases hbnew : b = new.spec.runId
      · rw [hbnew, place_putRun_of_ne _ hanew, place_putRun_of_ne _ hanew]
        exact iff_of_true (hs.place_lt_new hnone a).le (ht.place_lt_new hnone' a).le
      · rw [place_putRun_of_ne _ hanew, place_putRun_of_ne _ hanew, place_putRun_of_ne _ hbnew,
          place_putRun_of_ne _ hbnew]
        exact h.sooner a b ha hb
  covers scope id hid := by
    by_cases hnew : id = new.spec.runId
    · subst hnew
      have hnone' : t.logs.runs new.spec.runId = none := (h.runs _ hown).symm.trans hnone
      simp only [StopStore.put]
      cases scope with
      | run under => exact h.covers (.run under) _ hid
      | thread _ | owner => rw [hs.arranged.covers_new hnone k (by simp), ht.arranged.covers_new hnone' k (by simp)]
    · simp only [StopStore.put]
      rw [covers_putRun_of_ne _ hnew, covers_putRun_of_ne _ hnew]
      exact h.covers scope id hid

/-- A put of another principal's run. -/
theorem showsRuns_put_other (now : Timestamp) {new : StoredRun} (hother : holder new.spec.runId ≠ k) :
    ShowsRuns holder k s (s.put now new) := by
  have hne : ∀ id, holder id = k → id ≠ new.spec.runId := by
    rintro id hid rfl
    exact hother hid
  refine ⟨fun id hid => (LogStore.extend_runs_of_ne _ _ (hne id hid) _ _).symm, ?_, fun a b ha hb => ?_,
    fun scope id hid => ?_⟩
  · simp [StopStore.put, Stops.putRun, hother]
  · simp only [StopStore.put, place_putRun_of_ne _ (hne a ha), place_putRun_of_ne _ (hne b hb)]
  · exact (covers_putRun_of_ne _ (hne id hid) k scope).symm

/-- An append reads and changes its run only. -/
theorem appendChecked_eq {s t : LogStore} {id : RunId} (h : s.runs id = t.runs id) (now : Timestamp) (seen : Option Nat)
    (events : List Event) : (s.appendChecked now id seen events).2 = (t.appendChecked now id seen events).2 ∧
      (s.appendChecked now id seen events).1.runs id = (t.appendChecked now id seen events).1.runs id := by
  unfold LogStore.appendChecked
  rw [← h]
  cases checkOneTerminal events with
  | error error => exact ⟨rfl, h⟩
  | ok checked =>
      cases hrun : s.runs id with
      | none => exact ⟨rfl, h⟩
      | some stored =>
          simp only
          split
          · exact ⟨rfl, h⟩
          · split
            · exact ⟨rfl, h⟩
            · exact ⟨rfl, by simp⟩

theorem ShowsRuns.append (h : ShowsRuns holder k s t) {id : RunId} (hown : holder id = k)
    (now : Timestamp) (seen : Option Nat) (events : List Event) :
    ShowsRuns holder k ⟨(s.logs.appendChecked now id seen events).1, s.stops⟩
      ⟨(t.logs.appendChecked now id seen events).1, t.stops⟩ := by
  refine ⟨fun other hother => ?_, h.order, h.sooner, h.covers⟩
  by_cases hid : other = id
  · subst hid
    exact (appendChecked_eq (h.runs other hother) now seen events).2
  · simp only [runs_append_of_ne now seen events hid]
    exact h.runs other hother

theorem showsRuns_append_other {id : RunId} (hother : holder id ≠ k) (now : Timestamp) (seen : Option Nat)
    (events : List Event) :
    ShowsRuns holder k s ⟨(s.logs.appendChecked now id seen events).1, s.stops⟩ := by
  refine ⟨fun other hheld => ?_, rfl, fun _ _ _ _ => Iff.rfl, fun _ _ _ => rfl⟩
  have hne : other ≠ id := by
    rintro rfl
    exact hother hheld
  exact (runs_append_of_ne now seen events hne).symm

/-- A principal's own write does the same in stores that show it the same. -/
theorem ShowsRuns.apply (hs : s.Housed holder) (ht : t.Housed holder) (h : ShowsRuns holder k s t) {op : StopOp}
    (hown : OwnWrite holder k op) :
    s.writeAnswer op = t.writeAnswer op ∧ ShowsRuns holder k (s.apply op) (t.apply op) := by
  cases op with
  | stop owner scope =>
      refine ⟨rfl, h.runs, h.order, h.sooner, fun scope' id hid => ?_⟩
      simp only [StopStore.apply, covers_putStop _ owner scope scope' k (hs.arranged.numberOf_le id),
        covers_putStop _ owner scope scope' k (ht.arranged.numberOf_le id), h.covers scope' id hid]
  | write now op =>
      cases op with
      | putRun run =>
          cases hcheck : checkOneTerminal run.events with
          | error error =>
              rw [(put_refused hcheck).1, (put_refused hcheck).2, (put_refused hcheck).1, (put_refused hcheck).2]
              exact ⟨rfl, h⟩
          | ok checked =>
              have hsame := h.runs _ hown.1
              cases hrun : s.logs.runs run.spec.runId with
              | some stored =>
                  have hrun' := hsame.symm.trans hrun
                  rw [(put_existed hcheck hrun).1, (put_existed hcheck hrun).2, (put_existed hcheck hrun').1,
                    (put_existed hcheck hrun').2]
                  exact ⟨rfl, h⟩
              | none =>
                  have hrun' := hsame.symm.trans hrun
                  rw [(put_stored hcheck hrun).1, (put_stored hcheck hrun).2, (put_stored hcheck hrun').1,
                    (put_stored hcheck hrun').2]
                  exact ⟨rfl, h.put hs ht now hown.1 hrun⟩
      | appendEvents id events =>
          exact ⟨(appendChecked_eq (h.runs id hown) now none events).1, h.append hown now none events⟩
      | appendEventsAfter id seen events =>
          exact ⟨(appendChecked_eq (h.runs id hown) now (some seen) events).1, h.append hown now (some seen) events⟩
      | pruneOutbox before => exact hown.elim

/-- Another principal's write shows nothing of it. -/
theorem Housed.showsRuns_other (hs : s.Housed holder) {op : StopOp}
    (hown : OwnWrite holder other op) (hne : k ≠ other) :
    ShowsRuns holder k s (s.apply op) := by
  cases op with
  | stop owner scope =>
      refine ⟨fun _ _ => rfl, rfl, fun _ _ _ _ => Iff.rfl, fun scope' id _ => ?_⟩
      have howner : principal owner ≠ k := fun heq => hne (heq.symm.trans hown)
      simp only [StopStore.apply, covers_putStop _ owner scope scope' k (hs.arranged.numberOf_le id), howner,
        false_and, if_false]
  | write now op =>
      cases op with
      | putRun run =>
          have hother : holder run.spec.runId ≠ k := fun heq => hne (heq.symm.trans hown.1)
          cases hcheck : checkOneTerminal run.events with
          | error error =>
              rw [(put_refused hcheck).2]
              exact .refl holder k s
          | ok checked =>
              cases hrun : s.logs.runs run.spec.runId with
              | some stored =>
                  rw [(put_existed hcheck hrun).2]
                  exact .refl holder k s
              | none =>
                  rw [(put_stored hcheck hrun).2]
                  exact showsRuns_put_other now hother
      | appendEvents id events => exact showsRuns_append_other (fun heq => hne (heq.symm.trans hown)) now none events
      | appendEventsAfter id seen events =>
          exact showsRuns_append_other (fun heq => hne (heq.symm.trans hown)) now (some seen) events
      | pruneOutbox before => exact hown.elim

/-! ### Reads -/

/-- The runs above one of the principal's are its own, and the same in stores that show it the same. -/
theorem ShowsRuns.under (hs : s.Housed holder) (h : ShowsRuns holder k s t) {id above : RunId} (hid : holder id = k)
    (hunder : Under (Stops.parentOf s.logs.runs) id above) :
    Under (Stops.parentOf t.logs.runs) id above ∧ holder above = k := by
  induction hunder with
  | refl => exact ⟨.refl, hid⟩
  | tail _ hparent ih =>
      obtain ⟨hrest, hmid⟩ := ih
      refine ⟨hrest.tail ?_, ?_⟩
      · rwa [Stops.parentOf, h.runs _ hmid] at hparent
      · obtain ⟨run, hrun, hparent⟩ := Option.bind_eq_some_iff.mp hparent
        exact (hs.family _ run _ hrun hparent).trans hmid

theorem ShowsRuns.namesStored (hs : s.Housed holder) (h : ShowsRuns holder k s t) {id : RunId} (hid : holder id = k) :
    s.stops.namesStored s.logs.runs id = t.stops.namesStored t.logs.runs id := by
  rw [Stops.namesStored, Stops.namesStored, ← h.runs id hid]
  cases hrun : s.logs.runs id with
  | none => rfl
  | some run =>
      have hrunId := hs.arranged.numbered.id id run hrun
      have howner : principal run.spec.owner = k := (hs.held id run hrun).trans hid
      simp only [Option.any_some, Stops.names_eq, howner, hrunId, h.covers _ id hid]

theorem ShowsRuns.stopped (hs : s.Housed holder) (ht : t.Housed holder) (h : ShowsRuns holder k s t) {id : RunId}
    (hid : holder id = k) : s.stopped id = t.stopped id := by
  rw [Bool.eq_iff_iff, hs.arranged.stopped_iff, ht.arranged.stopped_iff]
  constructor
  · rintro ⟨above, hunder, hnames⟩
    obtain ⟨hunder', habove⟩ := h.under hs hid hunder
    exact ⟨above, hunder', h.namesStored hs habove ▸ hnames⟩
  · rintro ⟨above, hunder, hnames⟩
    obtain ⟨hunder', habove⟩ := h.symm.under ht hid hunder
    exact ⟨above, hunder', h.symm.namesStored ht habove ▸ hnames⟩

/-- The principal's runs, in the order they were stored. -/
theorem Housed.values_held (hs : s.Housed holder) (k : Principal) :
    s.values.filter (fun run => principal run.spec.owner = k) =
      ((s.stops.stored.map Prod.fst).filter fun id => holder id = k).filterMap s.logs.runs := by
  rw [values]
  induction s.stops.stored with
  | nil => rfl
  | cons entry rest ih =>
      rw [List.filterMap_cons, List.map_cons, List.filter_cons]
      cases hrun : s.logs.runs entry.1 with
      | none =>
          rw [ih]
          split
          · rw [List.filterMap_cons, hrun]
          · rfl
      | some run =>
          have howner := hs.held entry.1 run hrun
          rw [List.filter_cons, ih, howner]
          by_cases hheld : holder entry.1 = k
          · simp [hheld, hrun]
          · simp [hheld]

theorem ShowsRuns.values (hs : s.Housed holder) (ht : t.Housed holder) (h : ShowsRuns holder k s t) :
    s.values.filter (fun run => principal run.spec.owner = k) = t.values.filter fun run =>
      principal run.spec.owner = k := by
  rw [hs.values_held, ht.values_held, h.order]
  refine List.filterMap_congr fun id hmem => h.runs id ?_
  simpa using (List.mem_filter.mp hmem).2

/-- What is filtered of a principal's runs is the same in both. -/
theorem ShowsRuns.filter_values (hs : s.Housed holder) (ht : t.Housed holder) {owner : Owner}
    (h : ShowsRuns holder (principal owner) s t) (p : StoredRun → Bool) :
    s.values.filter (fun run => run.spec.owner.is owner && p run) =
      t.values.filter fun run => run.spec.owner.is owner && p run := by
  have hsplit : ∀ u : StopStore, u.values.filter (fun run => run.spec.owner.is owner && p run) =
      (u.values.filter fun run => principal run.spec.owner = principal owner).filter p := by
    intro u
    rw [List.filter_filter]
    refine List.filter_congr fun run _ => ?_
    rw [Bool.and_comm, Bool.eq_iff_iff]
    simp [Owner.is_iff]
  rw [hsplit, hsplit, h.values hs ht]

theorem Housed.held_of_values (h : s.Housed holder) {owner : Owner} {run : StoredRun} (hmem : run ∈ s.values)
    (howner : run.spec.owner.is owner = true) : holder run.spec.runId = principal owner := by
  rw [← h.held _ run (h.arranged.numbered.mem_values.mp hmem)]
  exact Owner.is_iff.mp howner

theorem ShowsRuns.within (hs : s.Housed holder) (ht : t.Housed holder) (h : ShowsRuns holder k s t)
    (under : RunId) {id : RunId} (hid : holder id = k) :
    Stops.within s.logs.runs under (s.stops.order + 1) id = Stops.within t.logs.runs under (t.stops.order + 1) id := by
  rw [Bool.eq_iff_iff, hs.arranged.within_iff, ht.arranged.within_iff]
  exact ⟨fun hunder => (h.under hs hid hunder).1, fun hunder => (h.symm.under ht hid hunder).1⟩

/-- Whether `scope` names a run of its owner's that has not ended. -/
def inScope (u : StopStore) (scope : StopScope) (run : StoredRun) : Bool :=
  !hasEnded run.events && match scope with
    | .run under => Stops.within u.logs.runs under (u.stops.order + 1) run.spec.runId
    | .thread thread => threadOf run.spec = some thread
    | .owner => true

theorem openRunsUnder_eq (u : StopStore) (owner : Owner) (scope : StopScope) :
    u.stops.openRunsUnder u.logs.runs owner scope =
      u.values.filter fun run => run.spec.owner.is owner && u.inScope scope run := by
  refine List.filter_congr fun run _ => ?_
  cases scope <;> simp only [inScope, Bool.and_assoc]

theorem ShowsRuns.openRunsUnder (hs : s.Housed holder) (ht : t.Housed holder) {owner : Owner}
    (h : ShowsRuns holder (principal owner) s t) (scope : StopScope) :
    s.stops.openRunsUnder s.logs.runs owner scope = t.stops.openRunsUnder t.logs.runs owner scope := by
  rw [openRunsUnder_eq, openRunsUnder_eq, ← h.filter_values hs ht]
  refine List.filter_congr fun run hmem => ?_
  cases howner : run.spec.owner.is owner with
  | false => rfl
  | true =>
      have hheld := hs.held_of_values hmem howner
      cases scope with
      | run under => simp only [inScope, h.within hs ht under hheld]
      | thread _ | owner => rfl

theorem Housed.openRunsUnder_held (h : s.Housed holder) {owner : Owner} {scope : StopScope} {run : StoredRun}
    (hmem : run ∈ s.stops.openRunsUnder s.logs.runs owner scope) : holder run.spec.runId = principal owner := by
  rw [openRunsUnder_eq] at hmem
  obtain ⟨hmem, his⟩ := List.mem_filter.mp hmem
  exact h.held_of_values hmem (Bool.and_eq_true_iff.mp his).1

section Threads

variable {owner : Owner}

theorem Housed.threadRuns_held (h : s.Housed holder) {thread : String} {run : StoredRun}
    (hmem : run ∈ s.threadRuns owner thread) :
    holder run.spec.runId = principal owner := by
  obtain ⟨hmem, his⟩ := List.mem_filter.mp hmem
  exact h.held_of_values hmem (Bool.and_eq_true_iff.mp his).1

theorem Housed.runsOfThread_held (h : s.Housed holder) {thread : String} {limit : Nat} {run : StoredRun}
    (hmem : run ∈ s.runsOfThread owner thread limit) : holder run.spec.runId = principal owner :=
  h.threadRuns_held (mem_sortByKey.mp (List.mem_of_mem_take hmem))

theorem ShowsRuns.threadRuns (hs : s.Housed holder) (ht : t.Housed holder) (h : ShowsRuns holder (principal owner) s t)
    (thread : String) : s.threadRuns owner thread = t.threadRuns owner thread :=
  h.filter_values hs ht fun run => threadOf run.spec = some thread

theorem ShowsRuns.threadRoot (hs : s.Housed holder) (ht : t.Housed holder) (h : ShowsRuns holder (principal owner) s t)
    (thread : String) : s.threadRoot owner thread = t.threadRoot owner thread := by
  rw [StopStore.threadRoot, StopStore.threadRoot, threadRoots, threadRoots, h.threadRuns hs ht]

theorem ShowsRuns.threadsOf (hs : s.Housed holder) (ht : t.Housed holder) (h : ShowsRuns holder (principal owner) s t)
    (after limit : Nat) : s.threadsOf owner after limit = t.threadsOf owner after limit := by
  simp only [StopStore.threadsOf, h.filter_values hs ht fun run => (threadOf run.spec).isSome]

/-- The store's order compares a principal's runs alike in both. -/
theorem ShowsRuns.storeKey (h : ShowsRuns holder k s t) {a b : StoredRun} (ha : holder a.spec.runId = k)
    (hb : holder b.spec.runId = k) : s.storeKey a ≤ s.storeKey b ↔ t.storeKey a ≤ t.storeKey b := by
  have hle := h.sooner _ _ ha hb
  have hge := h.sooner _ _ hb ha
  have hlt : s.stops.place a.spec.runId < s.stops.place b.spec.runId ↔
      t.stops.place a.spec.runId < t.stops.place b.spec.runId := by
    rw [← not_le, ← not_le, hge]
  have heq : s.stops.place a.spec.runId = s.stops.place b.spec.runId ↔
      t.stops.place a.spec.runId = t.stops.place b.spec.runId := by
    rw [le_antisymm_iff, le_antisymm_iff, hle, hge]
  simp only [StopStore.storeKey, Prod.Lex.toLex_le_toLex]
  exact or_congr_right (and_congr_right fun _ => or_congr hlt (and_congr_left fun _ => heq))

theorem ShowsRuns.runsOfThread (hs : s.Housed holder) (ht : t.Housed holder)
    (h : ShowsRuns holder (principal owner) s t) (thread : String) (limit : Nat) :
    s.runsOfThread owner thread limit = t.runsOfThread owner thread limit := by
  rw [StopStore.runsOfThread, StopStore.runsOfThread, ← h.threadRuns hs ht]
  congr 1
  exact sortByKey_congr_le fun a ha b hb => h.storeKey (hs.threadRuns_held ha) (hs.threadRuns_held hb)

end Threads

end StopStore

end Gol
