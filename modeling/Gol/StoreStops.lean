import Gol.StoreControls

/-! How stops reach down a lineage. A stop names runs by itself; a run is stopped when a stop names it or a run above
it, so the walk goes up its lineage. Every stop and every stored run takes the next number of one order, and a child
is stored after its parent, so the walk ends and what a stop covers stays covered. -/

namespace Gol

namespace Stops

theorem lookup_putRun (stops : Stops) (new id : RunId) :
    (stops.putRun new).stored.lookup id = (stops.stored.lookup id).or
      (if id = new then some (stops.order + 1) else none) := by
  rw [putRun, List.lookup_append, List.lookup_cons, List.lookup_nil]
  by_cases hid : id = new
  · simp [hid]
  · simp [hid, beq_eq_false_iff_ne.mpr hid]

theorem numberOf_putRun (stops : Stops) (new id : RunId) :
    (stops.putRun new).numberOf id = stops.numberOf id ∨ new = id ∧
      (stops.putRun new).numberOf id = stops.order + 1 := by
  rw [numberOf, numberOf, lookup_putRun]
  cases stops.stored.lookup id with
  | some number => exact .inl rfl
  | none =>
      by_cases hid : id = new
      · exact .inr ⟨hid.symm, by simp [hid]⟩
      · exact .inl (by simp [hid])

end Stops

/-- A store with the stops it keeps. -/
structure StopStore where
  logs : LogStore
  stops : Stops

/-- A write of the logs, or a stop. -/
inductive StopOp where
  | write (now : Timestamp) (op : StoreOp)
  | stop (owner : Owner) (scope : StopScope)

namespace StopStore

def empty : StopStore := ⟨.empty, .empty⟩

/-- A run stored now takes the next number of the store's order. -/
def numbered (s : StopStore) : StoreOp → StoreAnswer → Stops
  | .putRun run, .put .stored => s.stops.putRun run.spec.runId
  | _, _ => s.stops

def apply (s : StopStore) : StopOp → StopStore
  | .write now op => ⟨(s.logs.exec now op).1, s.numbered op (s.logs.exec now op).2⟩
  | .stop owner scope => { s with stops := s.stops.putStop owner scope }

def applyAll (s : StopStore) (ops : List StopOp) : StopStore := ops.foldl apply s

def stopped (s : StopStore) (id : RunId) : Bool := s.stops.stopped s.logs.runs id

/-- A child is stored only once its parent is, with its parent's owner and session. -/
def Promised (s : StopStore) : StopOp → Prop
  | .write _ (.putRun run) => ∀ parent, run.spec.lineage.parent = some parent →
      ∃ stored, s.logs.runs parent = some stored ∧ stored.spec.owner = run.spec.owner ∧
        stored.spec.metadataGet sessionId = run.spec.metadataGet sessionId
  | _ => True

def Kept (s : StopStore) : List StopOp → Prop
  | [] => True
  | op :: rest => s.Promised op ∧ (s.apply op).Kept rest

/-- `id` is stored with this parent, or below a run that is. -/
inductive Below (s : StopStore) : RunId → RunId → Prop
  | parent {id parent : RunId} {run : StoredRun} (hrun : s.logs.runs id = some run)
      (hparent : run.spec.lineage.parent = some parent) : Below s id parent
  | up {id parent above : RunId} {run : StoredRun} (hrun : s.logs.runs id = some run)
      (hparent : run.spec.lineage.parent = some parent) (h : Below s parent above) : Below s id above

/-- The walk of `stopped` from `id` up its lineage ends with this answer. -/
inductive Walk (s : StopStore) : RunId → Bool → Prop
  | missing {id : RunId} (hrun : s.logs.runs id = none) : Walk s id false
  | named {id : RunId} {run : StoredRun} (hrun : s.logs.runs id = some run) (hnames : s.stops.names run.spec = true) :
      Walk s id true
  | root {id : RunId} {run : StoredRun} (hrun : s.logs.runs id = some run) (hnames : s.stops.names run.spec = false)
      (hparent : run.spec.lineage.parent = none) : Walk s id false
  | up {id parent : RunId} {run : StoredRun} {answer : Bool} (hrun : s.logs.runs id = some run)
      (hnames : s.stops.names run.spec = false) (hparent : run.spec.lineage.parent = some parent)
      (hwalk : Walk s parent answer) : Walk s id answer

/-! ### The order -/

/-- The store's order: a run is numbered when it is stored, after its parent. -/
structure Ordered (s : StopStore) : Prop where
  id : ∀ id run, s.logs.runs id = some run → run.spec.runId = id
  bounded : ∀ id, s.stops.numberOf id ≤ s.stops.order
  unnumbered : ∀ id, s.logs.runs id = none → s.stops.stored.lookup id = none
  parents : ∀ id run parent, s.logs.runs id = some run → run.spec.lineage.parent = some parent →
    s.logs.runs parent ≠ none ∧ s.stops.numberOf parent < s.stops.numberOf id
  entries : ∀ entry ∈ s.stops.entries, entry.number ≤ s.stops.order

theorem ordered_empty : empty.Ordered where
  id _ _ hrun := by cases hrun
  bounded _ := Nat.le_refl 0
  unnumbered _ _ := rfl
  parents _ _ _ hrun := by cases hrun
  entries _ hmem := by cases hmem

variable {s : StopStore}

/-- A run after a write is as stored before, with its spec, or was just stored and numbered. -/
theorem runs_apply (op : StopOp) {id : RunId} {run : StoredRun} (h : (s.apply op).logs.runs id = some run) :
    (∃ old, s.logs.runs id = some old ∧ old.spec = run.spec) ∨
    (s.logs.runs id = none ∧ run.spec.runId = id ∧ (∃ now, op = .write now (.putRun run)) ∧
      (s.apply op).stops = s.stops.putRun id) := by
  have happend : ∀ now other seen events, (s.logs.appendChecked now other seen events).1.runs id = some run →
      ∃ old, s.logs.runs id = some old ∧ old.spec = run.spec := by
    intro now other seen events h
    rcases s.logs.appendChecked_cases now other seen events with ⟨hkeep, -⟩ | ⟨stored, hstored, -, -, -, heq⟩
    · exact ⟨run, hkeep ▸ h, rfl⟩
    · rw [heq] at h
      by_cases hid : id = other
      · subst hid
        rw [LogStore.extend_runs_self, Option.some.injEq] at h
        exact ⟨stored, hstored, by rw [← h]⟩
      · exact ⟨run, LogStore.extend_runs_of_ne _ _ hid _ _ ▸ h, rfl⟩
  cases op with
  | stop owner scope => exact .inl ⟨run, h, rfl⟩
  | write now op =>
      cases op with
      | putRun new =>
          rcases s.logs.putRun_cases now new with ⟨hkeep, -⟩ | ⟨hnone, -, heq⟩
          · exact .inl ⟨run, hkeep ▸ h, rfl⟩
          · have hruns : (s.logs.putRun now new).1.runs id = some run := h
            have hanswer : (s.logs.exec now (.putRun new)).2 = .put .stored := congrArg Prod.snd heq
            rw [heq] at hruns
            by_cases hid : id = new.spec.runId
            · subst hid
              rw [LogStore.extend_runs_self, Option.some.injEq] at hruns
              have hrun : run = new := by rw [← hruns]; rfl
              subst hrun
              exact .inr ⟨hnone, rfl, ⟨now, rfl⟩, by rw [apply, hanswer]; rfl⟩
            · exact .inl ⟨run, LogStore.extend_runs_of_ne _ _ hid _ _ ▸ hruns, rfl⟩
      | appendEvents other events => exact .inl (happend now other none events h)
      | appendEventsAfter other seen events => exact .inl (happend now other (some seen) events h)
      | pruneOutbox before => exact .inl ⟨run, h, rfl⟩

/-- The store once it has stored `new`. -/
def put (s : StopStore) (now : Timestamp) (new : StoredRun) : StopStore :=
  ⟨s.logs.extend now new.spec.runId ⟨new.spec, []⟩ new.events, s.stops.putRun new.spec.runId⟩

theorem apply_put {now : Timestamp} {new : StoredRun} (hstored : (s.logs.exec now (.putRun new)).2 = .put .stored) :
    s.logs.runs new.spec.runId = none ∧ s.apply (.write now (.putRun new)) = s.put now new := by
  rcases s.logs.putRun_cases now new with ⟨-, hrefused⟩ | ⟨hnone, -, heq⟩
  · have hanswer : (s.logs.putRun now new).2 = .put .stored := hstored
    rw [hanswer] at hrefused
    cases hrefused
  · refine ⟨hnone, ?_⟩
    have hexec : s.logs.exec now (.putRun new) =
        (s.logs.extend now new.spec.runId ⟨new.spec, []⟩ new.events, .put .stored) := heq
    simp only [apply, hexec]
    rfl

/-- A stored run stays stored, with its spec. -/
theorem runs_kept (op : StopOp) {id : RunId} {run : StoredRun} (h : s.logs.runs id = some run) :
    ∃ later, (s.apply op).logs.runs id = some later ∧ later.spec = run.spec := by
  cases op with
  | stop owner scope => exact ⟨run, h, rfl⟩
  | write now op =>
      obtain ⟨more, hmore⟩ := (s.logs.exec_change now op).grows id run h
      exact ⟨_, hmore, rfl⟩

/-- A write numbers nothing, or a run that was not stored. -/
theorem stops_write (now : Timestamp) (op : StoreOp) :
    (s.apply (.write now op)).stops = s.stops ∨
    ∃ run : StoredRun, s.logs.runs run.spec.runId = none ∧ (s.apply (.write now op)).logs.runs run.spec.runId ≠ none ∧
      (s.apply (.write now op)).stops = s.stops.putRun run.spec.runId := by
  cases op with
  | putRun new =>
      rcases s.logs.putRun_cases now new with ⟨-, hrefusal⟩ | ⟨hnone, -, heq⟩
      · left
        have hrefusal : (s.logs.exec now (.putRun new)).2.isRefusal = true := hrefusal
        simp only [apply]
        generalize s.logs.exec now (.putRun new) = result at hrefusal
        obtain ⟨logs, answer⟩ := result
        cases answer with
        | put done => cases done <;> first | rfl | simp [StoreAnswer.isRefusal] at hrefusal
        | _ => rfl
      · right
        have hexec : s.logs.exec now (.putRun new) =
            (s.logs.extend now new.spec.runId ⟨new.spec, []⟩ new.events, .put .stored) := heq
        refine ⟨new, hnone, ?_, by simp only [apply, hexec]; rfl⟩
        simp only [apply, hexec, LogStore.extend_runs_self]
        exact Option.some_ne_none _
  | appendEvents | appendEventsAfter | pruneOutbox =>
      left
      simp only [apply, numbered]

/-- The number of a stored run does not change. -/
theorem numberOf_apply (op : StopOp) {id : RunId} (h : s.logs.runs id ≠ none) :
    (s.apply op).stops.numberOf id = s.stops.numberOf id := by
  cases op with
  | stop owner scope => rfl
  | write now op =>
      rcases s.stops_write now op with heq | ⟨run, hnone, -, heq⟩
      · rw [heq]
      · rw [heq]
        rcases s.stops.numberOf_putRun run.spec.runId id with hsame | ⟨rfl, -⟩
        · exact hsame
        · exact absurd hnone h

/-- Each write keeps the order. -/
theorem Ordered.apply (h : s.Ordered) {op : StopOp} (hpromised : s.Promised op) : (s.apply op).Ordered where
  id id run hrun := by
    rcases runs_apply op hrun with ⟨old, hold, hspec⟩ | ⟨-, hid, -⟩
    · rw [← hspec]
      exact h.id id old hold
    · exact hid
  bounded id := by
    cases op with
    | stop owner scope => exact Nat.le_succ_of_le (h.bounded id)
    | write now op =>
        rcases s.stops_write now op with heq | ⟨run, -, -, heq⟩
        · rw [heq]
          exact h.bounded id
        · rw [heq]
          rcases s.stops.numberOf_putRun run.spec.runId id with hsame | ⟨-, hnew⟩
          · rw [hsame]
            exact Nat.le_succ_of_le (h.bounded id)
          · exact Nat.le_of_eq hnew
  unnumbered id hnone := by
    have hbefore : s.logs.runs id = none := by
      by_contra hstored
      obtain ⟨run, hrun⟩ := Option.ne_none_iff_exists'.mp hstored
      obtain ⟨later, hlater, -⟩ := runs_kept op hrun
      simp [hnone] at hlater
    cases op with
    | stop owner scope => exact h.unnumbered id hbefore
    | write now op =>
        rcases s.stops_write now op with heq | ⟨run, -, hstored, heq⟩
        · rw [heq]
          exact h.unnumbered id hbefore
        · have hne : id ≠ run.spec.runId := by
            rintro rfl
            exact hstored hnone
          rw [heq, Stops.lookup_putRun, h.unnumbered id hbefore, if_neg hne, Option.none_or]
  parents id run parent hrun hparent := by
    have hkept : ∀ {other}, s.logs.runs other ≠ none → (s.apply op).logs.runs other ≠ none := by
      intro other hother
      obtain ⟨old, hold⟩ := Option.ne_none_iff_exists'.mp hother
      obtain ⟨later, hlater, -⟩ := runs_kept op hold
      simp [hlater]
    rcases runs_apply op hrun with ⟨old, hold, hspec⟩ | ⟨hnone, rfl, ⟨now, rfl⟩, hstops⟩
    · obtain ⟨hstored, hless⟩ := h.parents id old parent hold (by rw [hspec, hparent])
      refine ⟨hkept hstored, ?_⟩
      rwa [numberOf_apply op hstored, numberOf_apply op (by simp [hold])]
    · obtain ⟨stored, hstored, -⟩ := hpromised parent hparent
      have hne : s.logs.runs parent ≠ none := by simp [hstored]
      refine ⟨hkept hne, ?_⟩
      -- The child takes the number after every one taken before.
      have hnew : (s.apply (.write now (.putRun run))).stops.numberOf run.spec.runId = s.stops.order + 1 := by
        rw [hstops, Stops.numberOf, Stops.lookup_putRun, h.unnumbered _ hnone]
        simp
      rw [numberOf_apply _ hne, hnew]
      exact Nat.lt_succ_of_le (h.bounded parent)
  entries entry hmem := by
    cases op with
    | stop owner scope =>
        rcases List.mem_append.mp hmem with hmem | hmem
        · exact Nat.le_succ_of_le (h.entries entry (List.mem_of_mem_filter hmem))
        · rw [List.mem_singleton.mp hmem]
          exact Nat.le_refl _
    | write now op =>
        rcases s.stops_write now op with heq | ⟨run, -, -, heq⟩
        · rw [heq] at hmem ⊢
          exact h.entries entry hmem
        · rw [heq] at hmem ⊢
          exact Nat.le_succ_of_le (h.entries entry hmem)

theorem Ordered.applyAll (h : s.Ordered) {ops : List StopOp} (hkept : s.Kept ops) : (s.applyAll ops).Ordered := by
  induction ops generalizing s with
  | nil => exact h
  | cons op rest ih => exact ih (h.apply hkept.1) hkept.2

/-! ### The walk -/

/-- The walk ends, and `stopped` answers as it does. -/
theorem Ordered.walk (h : s.Ordered) (id : RunId) : s.Walk id (s.stopped id) := by
  suffices hwithin : ∀ fuel id, s.stops.numberOf id < fuel → s.Walk id (s.stops.stoppedWithin s.logs.runs fuel id) from
    hwithin (s.stops.order + 1) id (Nat.lt_succ_of_le (h.bounded id))
  intro fuel
  induction fuel with
  | zero => exact fun id hlt => absurd hlt (Nat.not_lt_zero _)
  | succ fuel ih =>
      intro id hlt
      cases hrun : s.logs.runs id with
      | none =>
          simp only [Stops.stoppedWithin, hrun]
          exact .missing hrun
      | some run =>
          cases hnames : s.stops.names run.spec with
          | true =>
              simp only [Stops.stoppedWithin, hrun, hnames, Bool.true_or]
              exact .named hrun hnames
          | false =>
              cases hparent : run.spec.lineage.parent with
              | none =>
                  simp only [Stops.stoppedWithin, hrun, hnames, hparent, Bool.or_false]
                  exact .root hrun hnames hparent
              | some parent =>
                  simp only [Stops.stoppedWithin, hrun, hnames, hparent, Bool.false_or]
                  obtain ⟨-, hless⟩ := h.parents id run parent hrun hparent
                  exact .up hrun hnames hparent (ih parent (by omega))

theorem Walk.unique {id : RunId} {answer answer' : Bool} (h : s.Walk id answer) (h' : s.Walk id answer') :
    answer = answer' := by
  induction h with
  | missing hrun =>
      cases h' with
      | missing => rfl
      | named hrun' | root hrun' | up hrun' => simp [hrun] at hrun'
  | named hrun hnames =>
      cases h' with
      | missing hrun' => simp [hrun] at hrun'
      | named => rfl
      | root hrun' hnames' | up hrun' hnames' =>
          rw [hrun, Option.some.injEq] at hrun'
          simp [← hrun', hnames] at hnames'
  | root hrun hnames hparent =>
      cases h' with
      | missing hrun' => simp [hrun] at hrun'
      | named hrun' hnames' =>
          rw [hrun, Option.some.injEq] at hrun'
          simp [← hrun', hnames] at hnames'
      | root => rfl
      | up hrun' _ hparent' =>
          rw [hrun, Option.some.injEq] at hrun'
          simp [← hrun', hparent] at hparent'
  | up hrun hnames hparent _ ih =>
      cases h' with
      | missing hrun' => simp [hrun] at hrun'
      | named hrun' hnames' =>
          rw [hrun, Option.some.injEq] at hrun'
          simp [← hrun', hnames] at hnames'
      | root hrun' _ hparent' =>
          rw [hrun, Option.some.injEq] at hrun'
          simp [← hrun', hparent] at hparent'
      | up hrun' _ hparent' hwalk =>
          rw [hrun, Option.some.injEq] at hrun'
          rw [← hrun', hparent, Option.some.injEq] at hparent'
          exact ih (hparent' ▸ hwalk)

theorem Ordered.walk_iff (h : s.Ordered) {id : RunId} {answer : Bool} : s.Walk id answer ↔ s.stopped id = answer :=
  ⟨fun hwalk => (h.walk id).unique hwalk, fun heq => heq ▸ h.walk id⟩

/-- A run whose parent is stopped is stopped. -/
theorem Ordered.stopped_child (h : s.Ordered) {id parent : RunId} {run : StoredRun} (hrun : s.logs.runs id = some run)
    (hparent : run.spec.lineage.parent = some parent) (hstopped : s.stopped parent = true) : s.stopped id = true := by
  refine h.walk_iff.mp ?_
  cases hnames : s.stops.names run.spec with
  | true => exact .named hrun hnames
  | false => exact .up hrun hnames hparent (h.walk_iff.mpr hstopped)

theorem Ordered.stopped_below (h : s.Ordered) {id above : RunId} (hbelow : s.Below id above)
    (hstopped : s.stopped above = true) : s.stopped id = true := by
  induction hbelow with
  | parent hrun hparent => exact h.stopped_child hrun hparent hstopped
  | up hrun hparent _ ih => exact h.stopped_child hrun hparent (ih hstopped)

/-! ### Later stops -/

/-- A stop that names a stored run is replaced only by one that names it too. -/
theorem Ordered.names_apply (h : s.Ordered) (op : StopOp) {id : RunId} {run : StoredRun}
    (hrun : s.logs.runs id = some run) (hnames : s.stops.names run.spec = true) :
    (s.apply op).stops.names run.spec = true := by
  obtain ⟨entry, hmem, hentry⟩ := List.any_eq_true.mp hnames
  have hid := h.id id run hrun
  have hnumber : (s.apply op).stops.numberOf run.spec.runId = s.stops.numberOf run.spec.runId :=
    numberOf_apply op (by simp [hid, hrun])
  have hkept : entry ∈ (s.apply op).stops.entries → (s.apply op).stops.names run.spec = true := by
    intro hmem
    refine List.any_eq_true.mpr ⟨entry, hmem, ?_⟩
    rwa [hnumber]
  cases op with
  | write now op =>
      refine hkept ?_
      rcases s.stops_write now op with heq | ⟨_, -, -, heq⟩
      · rwa [heq]
      · rwa [heq]
  | stop owner scope =>
      by_cases hsame : entry.principal = principal owner ∧ entry.scope = scope
      · refine List.any_eq_true.mpr ⟨⟨principal owner, scope, s.stops.order + 1⟩,
          List.mem_append_right _ (List.mem_singleton_self _), ?_⟩
        rw [hnumber]
        simp only [Bool.and_eq_true, decide_eq_true_eq] at hentry ⊢
        refine ⟨hsame.1.symm.trans hentry.1, ?_⟩
        have hbound : s.stops.numberOf run.spec.runId < s.stops.order + 1 := Nat.lt_succ_of_le (h.bounded _)
        have hstop := hentry.2
        rw [hsame.2] at hstop
        cases scope with
        | run => exact hstop
        | thread thread => simp_all [stopNames]
        | owner => simpa [stopNames] using hbound
      · exact hkept (List.mem_append_left _ (List.mem_filter.mpr ⟨hmem, decide_eq_true hsame⟩))

theorem Ordered.walk_apply (h : s.Ordered) (op : StopOp) {id : RunId} (hwalk : s.Walk id true) :
    (s.apply op).Walk id true := by
  generalize hanswer : true = answer at hwalk
  induction hwalk with
  | missing | root => cases hanswer
  | named hrun hnames =>
      obtain ⟨later, hlater, hspec⟩ := runs_kept op hrun
      exact .named hlater (hspec ▸ h.names_apply op hrun hnames)
  | up hrun hnames hparent _ ih =>
      obtain ⟨later, hlater, hspec⟩ := runs_kept op hrun
      cases hnames' : (s.apply op).stops.names later.spec with
      | true => exact hanswer ▸ .named hlater hnames'
      | false => exact hanswer ▸ .up hlater hnames' (hspec ▸ hparent) (hanswer ▸ ih hanswer)

/-- A stopped run stays stopped. -/
theorem Ordered.stopped_applyAll (h : s.Ordered) {ops : List StopOp} (hkept : s.Kept ops) {id : RunId}
    (hstopped : s.stopped id = true) : (s.applyAll ops).stopped id = true := by
  induction ops generalizing s with
  | nil => exact hstopped
  | cons op rest ih =>
      have hnext := h.apply hkept.1
      exact ih hnext hkept.2 (hnext.walk_iff.mp (h.walk_apply op (h.walk_iff.mpr hstopped)))

/-- The stops kept are ones that were put. -/
theorem entries_applyAll (s : StopStore) (ops : List StopOp) :
    ∀ entry ∈ (s.applyAll ops).stops.entries, entry ∈ s.stops.entries ∨
      ∃ owner, principal owner = entry.principal ∧ .stop owner entry.scope ∈ ops := by
  induction ops generalizing s with
  | nil => exact fun entry hmem => .inl hmem
  | cons op rest ih =>
      intro entry hmem
      rcases ih (s.apply op) entry hmem with hmem | ⟨owner, hprincipal, hop⟩
      · cases op with
        | stop owner scope =>
            rcases List.mem_append.mp hmem with hmem | hmem
            · exact .inl (List.mem_of_mem_filter hmem)
            · rw [List.mem_singleton.mp hmem]
              exact .inr ⟨owner, rfl, List.mem_cons_self ..⟩
        | write now op =>
            left
            rcases s.stops_write now op with heq | ⟨_, -, -, heq⟩
            · rwa [heq] at hmem
            · rwa [heq] at hmem
      · exact .inr ⟨owner, hprincipal, List.mem_cons_of_mem _ hop⟩

theorem kept_append {ops more : List StopOp} : s.Kept (ops ++ more) ↔ s.Kept ops ∧ (s.applyAll ops).Kept more := by
  induction ops generalizing s with
  | nil => simp [Kept, applyAll]
  | cons op rest ih => simp only [List.cons_append, Kept, ih, and_assoc, applyAll, List.foldl_cons]

theorem applyAll_append (s : StopStore) (ops more : List StopOp) :
    s.applyAll (ops ++ more) = (s.applyAll ops).applyAll more :=
  List.foldl_append

/-- A stored run stays stored under its number. -/
theorem kept_applyAll {ops : List StopOp} {id : RunId} {run : StoredRun} (h : s.logs.runs id = some run) :
    (∃ later, (s.applyAll ops).logs.runs id = some later ∧ later.spec = run.spec) ∧
      (s.applyAll ops).stops.numberOf id = s.stops.numberOf id := by
  induction ops generalizing s run with
  | nil => exact ⟨⟨run, h, rfl⟩, rfl⟩
  | cons op rest ih =>
      obtain ⟨next, hnext, hspec⟩ := runs_kept op h
      obtain ⟨⟨later, hlater, hspec'⟩, hnumber⟩ := ih hnext
      exact ⟨⟨later, hlater, hspec'.trans hspec⟩, hnumber.trans (numberOf_apply op (by simp [h]))⟩

/-- A stop that names a run was put for its principal: of the run itself, or of its thread or its owner after it was
stored. -/
theorem Ordered.named_stop (h : s.Ordered) {now : Timestamp} {run : StoredRun} {rest : List StopOp}
    (hstored : (s.logs.exec now (.putRun run)).2 = .put .stored) {later : StoredRun}
    (hlater : (s.applyAll (.write now (.putRun run) :: rest)).logs.runs run.spec.runId = some later)
    (hnames : (s.applyAll (.write now (.putRun run) :: rest)).stops.names later.spec = true) :
    (∃ entry ∈ s.stops.entries, entry.principal = principal run.spec.owner ∧ entry.scope = .run run.spec.runId) ∨
    ∃ owner, principal owner = principal run.spec.owner ∧ (.stop owner (.run run.spec.runId) ∈ rest ∨
      .stop owner .owner ∈ rest ∨ ∃ thread, threadOf run.spec = some thread ∧ .stop owner (.thread thread) ∈ rest) := by
  obtain ⟨hnone, hput⟩ := apply_put hstored
  have hstops : (s.apply (.write now (.putRun run))).stops = s.stops.putRun run.spec.runId := congrArg stops hput
  have hruns : (s.apply (.write now (.putRun run))).logs.runs run.spec.runId = some ⟨run.spec, run.events⟩ := by
    rw [hput, put, LogStore.extend_runs_self, List.nil_append]
  obtain ⟨⟨last, hlast, hspec⟩, hnumber⟩ := @kept_applyAll _ rest _ _ hruns
  have hlater : ((s.apply (.write now (.putRun run))).applyAll rest).logs.runs run.spec.runId = some later := hlater
  rw [hlast, Option.some.injEq] at hlater
  subst hlater
  have hnew : ((s.apply (.write now (.putRun run))).applyAll rest).stops.numberOf run.spec.runId =
      s.stops.order + 1 := by
    rw [hnumber, hstops, Stops.numberOf, Stops.lookup_putRun, h.unnumbered _ hnone]
    simp
  have hnames : ((s.apply (.write now (.putRun run))).applyAll rest).stops.names last.spec = true := hnames
  obtain ⟨entry, hmem, hentry⟩ := List.any_eq_true.mp hnames
  simp only [hspec, hnew, Bool.and_eq_true, decide_eq_true_eq] at hentry
  obtain ⟨hprincipal, hstop⟩ := hentry
  rcases entries_applyAll _ rest entry hmem with hold | ⟨owner, howner, hput⟩
  · -- An entry put before the run was stored is numbered below it.
    rw [hstops] at hold
    have hbound : entry.number ≤ s.stops.order := h.entries entry hold
    cases hscope : entry.scope with
    | run id =>
        rw [hscope] at hstop
        have hid : id = run.spec.runId := of_decide_eq_true hstop
        exact .inl ⟨entry, hold, hprincipal, hid ▸ hscope⟩
    | thread thread =>
        rw [hscope] at hstop
        have hless := (of_decide_eq_true hstop).1
        omega
    | owner =>
        rw [hscope] at hstop
        have hless := of_decide_eq_true hstop
        omega
  · refine .inr ⟨owner, howner.trans hprincipal, ?_⟩
    cases hscope : entry.scope with
    | run id =>
        rw [hscope] at hstop hput
        have hid : id = run.spec.runId := of_decide_eq_true hstop
        exact .inl (hid ▸ hput)
    | thread thread =>
        rw [hscope] at hstop hput
        exact .inr (.inr ⟨thread, (of_decide_eq_true hstop).2, hput⟩)
    | owner =>
        rw [hscope] at hput
        exact .inr (.inl hput)

/-- A stop covers a run for ever, and every run below it whenever that is stored. It covers no run stored after it
that is not below a stopped one, unless it names that run. The walk up the lineage ends. -/
theorem stops_reach_below (before after : List StopOp) (hkept : empty.Kept (before ++ after)) :
    (∀ id, (empty.applyAll before).stopped id = true → (empty.applyAll (before ++ after)).stopped id = true) ∧
    (∀ id above, (empty.applyAll (before ++ after)).Below id above →
      (empty.applyAll (before ++ after)).stopped above = true → (empty.applyAll (before ++ after)).stopped id = true) ∧
    (∀ now run rest, after = .write now (.putRun run) :: rest →
      ((empty.applyAll before).logs.exec now (.putRun run)).2 = .put .stored →
      (empty.applyAll (before ++ after)).stopped run.spec.runId = true →
      (∀ above, (empty.applyAll (before ++ after)).Below run.spec.runId above →
        (empty.applyAll (before ++ after)).stopped above = false) →
      ∃ owner, principal owner = principal run.spec.owner ∧ (.stop owner (.run run.spec.runId) ∈ before ++ after ∨
        .stop owner .owner ∈ rest ∨ ∃ thread, threadOf run.spec = some thread ∧ .stop owner (.thread thread) ∈ rest)) ∧
    ∀ id, ∃ answer, (empty.applyAll (before ++ after)).Walk id answer ∧
      (empty.applyAll (before ++ after)).stopped id = answer := by
  obtain ⟨hbefore, hafter⟩ := kept_append.mp hkept
  have hfirst : (empty.applyAll before).Ordered := ordered_empty.applyAll hbefore
  have hlast : (empty.applyAll (before ++ after)).Ordered := ordered_empty.applyAll hkept
  refine ⟨fun id hstopped => ?_, fun id above => hlast.stopped_below, ?_, fun id => ⟨_, hlast.walk id, rfl⟩⟩
  · rw [applyAll_append]
    exact hfirst.stopped_applyAll hafter hstopped
  · rintro now run rest rfl hstored hstopped hclear
    have hwalk := hlast.walk run.spec.runId
    rw [hstopped] at hwalk
    generalize hid : run.spec.runId = id at hwalk
    generalize hanswer : true = answer at hwalk
    cases hwalk with
    | missing | root => cases hanswer
    | up hrun _ hparent hup =>
        subst hid hanswer
        have hnot := hclear _ (.parent hrun hparent)
        rw [hlast.walk_iff.mp hup] at hnot
        cases hnot
    | named hrun hnames =>
        subst hid
        rw [applyAll_append] at hrun hnames
        rcases hfirst.named_stop hstored hrun hnames with ⟨entry, hmem, hprincipal, hscope⟩ | ⟨owner, howner, hput⟩
        · rcases entries_applyAll empty before entry hmem with hnil | ⟨owner, howner, hput⟩
          · cases hnil
          · exact ⟨owner, howner.trans hprincipal, .inl (List.mem_append_left _ (hscope ▸ hput))⟩
        · refine ⟨owner, howner, hput.imp_left fun hrun => ?_⟩
          exact List.mem_append_right _ (List.mem_cons_of_mem _ hrun)

def stoppedParent : StoredRun := ⟨RunSpec.plain 1 ⟨8, 4⟩, []⟩

def lateChild : StoredRun := ⟨{ RunSpec.plain 2 ⟨8, 4⟩ with lineage := ⟨some ⟨1⟩, some ⟨1⟩, 1⟩ }, []⟩

/-- The parent is checked, stopped, and its child stored. -/
theorem stops_reach_below_late :
    (empty.applyAll [.write 0 (.putRun stoppedParent), .stop stoppedParent.spec.owner (.run ⟨1⟩),
      .write 1 (.putRun lateChild)]).stopped ⟨2⟩ = true :=
  (stops_reach_below [.write 0 (.putRun stoppedParent), .stop stoppedParent.spec.owner (.run ⟨1⟩)]
    [.write 1 (.putRun lateChild)]
      ⟨nofun, trivial, fun _ h => by cases h; exact ⟨stoppedParent, rfl, rfl, rfl⟩, trivial⟩).2.1
    ⟨2⟩ ⟨1⟩ (@Below.parent (empty.applyAll _) _ _ lateChild (by decide +kernel) (by decide +kernel)) (by decide +kernel)

end StopStore
end Gol
