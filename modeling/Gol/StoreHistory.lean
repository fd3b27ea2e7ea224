import Gol.StorePostgres

/-! Whole histories of either store: any interleaving of the writes of any number of writers, with lock
poisonings and failed or lost transactions, and what every stored run and every outbox keeps at each moment. A
history is a sequence of calls, so a moment is an index into it, and a finite history is a prefix of one. -/

namespace Gol
open Library

/-- A store as a state machine: its writes, what a reader sees of a state, and whether a fault hides that a
write was committed. -/
structure Backend where
  State : Type
  Fault : Type
  init : State
  exec : State → Fault → Timestamp → StoreOp → State × StoreAnswer
  view : State → LogStore
  /-- A page read from the rows of one state and the logs of that state or a later one. -/
  outboxAfter : State → State → Owner → Nat → Nat → Except StoreError OutboxPage
  commitLost : Fault → Bool

inductive StoreKind where
  | memory
  | postgres
  deriving DecidableEq

/-- Before each write of the in-memory store, threads may have panicked holding any of its locks. -/
def memoryBackend : Backend where
  State := InMemoryStore
  Fault := List InMemoryStore.Held
  init := .empty
  exec s held now op := (held.foldl InMemoryStore.poison s).exec now op
  view := InMemoryStore.view
  outboxAfter := InMemoryStore.outboxAfter
  commitLost _ := false

def postgresBackend : Backend where
  State := PostgresStore
  Fault := Fault
  init := .empty
  exec := PostgresStore.exec
  view := PostgresStore.view
  outboxAfter db _ := db.outboxAfter
  commitLost
    | .commitLost _ => true
    | _ => false

def backend : StoreKind → Backend
  | .memory => memoryBackend
  | .postgres => postgresBackend

namespace Backend

structure Call (b : Backend) where
  fault : b.Fault
  now : Timestamp
  op : StoreOp

variable (b : Backend)

/-- The state after the first `n` calls. -/
def state (calls : Nat → b.Call) : Nat → b.State
  | 0 => b.init
  | n + 1 => (b.exec (state calls n) (calls n).fault (calls n).now (calls n).op).1

/-- What call `n` answers. -/
def answer (calls : Nat → b.Call) (n : Nat) : StoreAnswer :=
  (b.exec (b.state calls n) (calls n).fault (calls n).now (calls n).op).2

/-- What a reader sees after the first `n` calls. -/
def viewAt (calls : Nat → b.Call) (n : Nat) : LogStore := b.view (b.state calls n)

/-- Every outbox row the first `n` calls issued, in order. -/
def issued (calls : Nat → b.Call) : Nat → LogStore.Issued
  | 0 => []
  | n + 1 => issued calls n ++ fresh (b.viewAt calls n).outbox.rows (b.viewAt calls (n + 1)).outbox.rows

/-! ### A store that refines the log store -/

/-- The step of one write: the log store's, or an error that left everything as it was, or an error that hides
the log store's step. -/
def StepOf (s : b.State) (call : b.Call) (after : b.State × StoreAnswer) : Prop :=
  (b.view after.1, after.2) = (b.view s).exec call.now call.op ∨
  (∃ error, after.2 = .failed error ∧ b.view after.1 = b.view s) ∨
  (∃ error, b.commitLost call.fault = true ∧ after.2 = .failed error ∧
    b.view after.1 = ((b.view s).exec call.now call.op).1)

structure Refines where
  Inv : b.State → Prop
  inv_init : Inv b.init
  view_init : b.view b.init = .empty
  inv_exec : ∀ s, Inv s → ∀ call : b.Call, Inv (b.exec s call.fault call.now call.op).1
  exec_step : ∀ s, Inv s → ∀ call : b.Call, b.StepOf s call (b.exec s call.fault call.now call.op)
  page : ∀ s later issued, Inv s → Inv later → (b.view s).Sound issued → ∀ owner after limit,
    b.outboxAfter s later owner after limit = (b.view s).outboxAfter (b.view s) owner after limit ∨
    b.outboxAfter s later owner after limit = (b.view s).outboxAfter (b.view later) owner after limit

end Backend

def memoryRefines : memoryBackend.Refines where
  Inv := InMemoryStore.Disciplined
  inv_init := InMemoryStore.disciplined_empty
  view_init := rfl
  inv_exec s h call := (h.poisonAll call.fault).exec call.now call.op
  exec_step s h call := by
    have hview := s.view_poisonAll call.fault
    rcases InMemoryStore.exec_refines (h.poisonAll call.fault) call.now call.op with heq | ⟨error, heq⟩
    · rw [hview] at heq
      exact .inl heq
    · exact .inr (.inl ⟨error, congrArg Prod.snd heq, (congrArg (fun after => after.1.view) heq).trans hview⟩)
  page s later issued _ _ _ owner after limit := .inr (s.outboxAfter_eq later owner after limit)

def postgresRefines : postgresBackend.Refines where
  Inv := PostgresStore.Consistent
  inv_init := PostgresStore.consistent_empty
  view_init := rfl
  inv_exec s h call := (PostgresStore.exec_outcome h call.fault call.now call.op).1
  exec_step s h call := by
    obtain ⟨-, hstep | ⟨error, heq⟩ | ⟨error, hlost, hanswer, hview⟩⟩ :=
      PostgresStore.exec_outcome h call.fault call.now call.op
    · exact .inl hstep
    · exact .inr (.inl ⟨error, congrArg Prod.snd heq, congrArg (fun after => after.1.view) heq⟩)
    · refine .inr (.inr ⟨error, ?_, hanswer, hview⟩)
      simp only [hlost, postgresBackend]
  page s later issued h _ hsound owner after limit :=
    .inl (PostgresStore.outboxAfter_eq h hsound owner after limit)

/-- Both stores refine the log store. -/
def refines : (kind : StoreKind) → (backend kind).Refines
  | .memory => memoryRefines
  | .postgres => postgresRefines

namespace Backend

variable {b : Backend} (href : b.Refines) (calls : Nat → b.Call)
include href

theorem inv_state (n : Nat) : href.Inv (b.state calls n) := by
  induction n with
  | zero => exact href.inv_init
  | succ n ih => exact href.inv_exec _ ih (calls n)

theorem step_at (n : Nat) :
    b.StepOf (b.state calls n) (calls n) (b.state calls (n + 1), b.answer calls n) :=
  href.exec_step _ (inv_state href calls n) (calls n)

theorem change_at (n : Nat) : (b.viewAt calls n).Change (b.viewAt calls (n + 1)) := by
  rcases step_at href calls n with heq | ⟨error, -, hkeep⟩ | ⟨error, -, -, hlost⟩
  · have hview : b.viewAt calls (n + 1) = ((b.viewAt calls n).exec (calls n).now (calls n).op).1 :=
      congrArg Prod.fst heq
    rw [hview]
    exact LogStore.exec_change _ _ _
  · rw [viewAt, viewAt, hkeep]
    exact .keep _
  · rw [viewAt, viewAt, hlost]
    exact LogStore.exec_change _ _ _

/-- Every moment's store is sound for the rows issued until then. -/
theorem sound_at (n : Nat) : (b.viewAt calls n).Sound (b.issued calls n) := by
  induction n with
  | zero =>
      rw [viewAt, state, href.view_init]
      exact LogStore.sound_empty
  | succ n ih => exact ih.change (change_at href calls n)

theorem grows_of_le {i j : Nat} (h : i ≤ j) : (b.viewAt calls i).Grows (b.viewAt calls j) := by
  induction j, h using Nat.le_induction with
  | base => exact .refl _
  | succ j _ ih => exact ih.trans (change_at href calls j).grows

/-- The rows of `principal` are pruned further, never less. -/
theorem pruned_mono (principal : Principal) {i j : Nat} (h : i ≤ j) :
    (b.viewAt calls i).outbox.pruned principal ≤ (b.viewAt calls j).outbox.pruned principal := by
  induction j, h using Nat.le_induction with
  | base => exact Nat.le_refl _
  | succ j _ ih => exact ih.trans ((change_at href calls j).pruned_le principal)

/-- A principal's numbers are never issued again. -/
theorem counts_mono (principal : Principal) {i j : Nat} (h : i ≤ j) :
    (b.viewAt calls i).outbox.counts principal ≤ (b.viewAt calls j).outbox.counts principal := by
  induction j, h using Nat.le_induction with
  | base => exact Nat.le_refl _
  | succ j _ ih => exact ih.trans ((change_at href calls j).counts_le principal)

/-- A page read from the rows of one moment and the logs of that or a later one. -/
theorem page_at {i j : Nat} (h : i ≤ j) (owner : Owner) (after limit : Nat) :
    ∃ entries, b.outboxAfter (b.state calls i) (b.state calls j) owner after limit =
        .ok ⟨entries, (b.viewAt calls i).outbox.pruned (principal owner),
          (b.viewAt calls i).outbox.counts (principal owner)⟩ ∧
      List.Forall₂ (b.viewAt calls i).Names (((b.viewAt calls i).outbox.rows.filter fun row =>
        row.key = principal owner ∧ after < row.seq).take limit) entries := by
  have hsound := sound_at href calls i
  rcases href.page _ _ _ (inv_state href calls i) (inv_state href calls j) hsound owner after limit with heq | heq
  · rw [heq]
    exact hsound.outboxAfter_ok (.refl _) owner after limit
  · rw [heq]
    exact hsound.outboxAfter_ok (grows_of_le href calls h) owner after limit

/-- An accepted `append_events_after` put its batch right after the log its writer saw. -/
theorem appended_at {i : Nat} {id : RunId} {seen : Nat} {batch : List Event}
    (hop : (calls i).op = .appendEventsAfter id seen batch) (hanswer : b.answer calls i = .append .appended) :
    ∃ run, (b.viewAt calls i).runs id = some run ∧ run.events.length = seen ∧
      (b.viewAt calls (i + 1)).runs id = some { run with events := run.events ++ batch } := by
  rcases step_at href calls i with heq | ⟨error, hfailed, -⟩ | ⟨error, -, hfailed, -⟩
  · have hview : b.viewAt calls (i + 1) = ((b.viewAt calls i).exec (calls i).now (calls i).op).1 :=
      congrArg Prod.fst heq
    have hexec : ((b.viewAt calls i).exec (calls i).now (calls i).op).2 = .append .appended :=
      (congrArg Prod.snd heq).symm.trans hanswer
    rw [hop] at hview hexec
    obtain ⟨run, hrun, hseen, hafter⟩ := LogStore.exec_appendEventsAfter hexec
    refine ⟨run, hrun, hseen, ?_⟩
    rw [hview, hafter, LogStore.extend_runs_self]
  · simp [hanswer] at hfailed
  · simp [hanswer] at hfailed

/-- A refusal that is not a lost commit left everything as it was. -/
theorem refused_at {i : Nat} (hrefused : (b.answer calls i).isRefusal = true) :
    b.viewAt calls (i + 1) = b.viewAt calls i ∨
    (∃ error, b.commitLost (calls i).fault = true ∧ b.answer calls i = .failed error ∧
      b.viewAt calls (i + 1) = ((b.viewAt calls i).exec (calls i).now (calls i).op).1) := by
  rcases step_at href calls i with heq | ⟨error, -, hkeep⟩ | hlost
  · have hview : b.viewAt calls (i + 1) = ((b.viewAt calls i).exec (calls i).now (calls i).op).1 :=
      congrArg Prod.fst heq
    have hexec : ((b.viewAt calls i).exec (calls i).now (calls i).op).2 = b.answer calls i :=
      (congrArg Prod.snd heq).symm
    rw [← hexec] at hrefused
    exact .inl (hview.trans (LogStore.exec_refused _ _ _ hrefused))
  · exact .inl hkeep
  · exact .inr hlost

omit href in
/-- A row once issued stays issued. -/
theorem issued_mono {i j : Nat} (h : i ≤ j) {row : Row Principal (RunId × Nat)} (hrow : row ∈ b.issued calls i) :
    row ∈ b.issued calls j := by
  induction j, h using Nat.le_induction with
  | base => exact hrow
  | succ j _ ih => exact List.mem_append_left _ ih

end Backend

/-! ### Run logs -/

/-- In every history of either store: a run keeps its spec and its log only grows; a log ends at its terminal
event; an accepted `append_events_after` follows exactly the log its writer saw and stays there; a refusal
leaves every run and outbox as it was, but for an error that is Postgres's lost answer to a commit. -/
theorem run_logs_of_history (kind : StoreKind) (calls : Nat → (backend kind).Call) :
    (∀ i j, i ≤ j → ∀ id run, ((backend kind).viewAt calls i).runs id = some run →
      ∃ later, ((backend kind).viewAt calls j).runs id = some later ∧ later.spec = run.spec ∧
        run.events <+: later.events) ∧
    (∀ i id run, ((backend kind).viewAt calls i).runs id = some run → EndsAtTerminal run.events) ∧
    (∀ i id seen batch, (calls i).op = .appendEventsAfter id seen batch →
      (backend kind).answer calls i = .append .appended →
      (∃ before, ((backend kind).viewAt calls i).runs id = some before ∧ before.events.length = seen) ∧
      ∀ j, i < j → ∃ after, ((backend kind).viewAt calls j).runs id = some after ∧
        (after.events.drop seen).take batch.length = batch) ∧
    (∀ i, ((backend kind).answer calls i).isRefusal = true →
      (backend kind).viewAt calls (i + 1) = (backend kind).viewAt calls i ∨
      (kind = .postgres ∧ (backend kind).commitLost (calls i).fault = true ∧
        (∃ error, (backend kind).answer calls i = .failed error) ∧
        (backend kind).viewAt calls (i + 1) =
          (((backend kind).viewAt calls i).exec (calls i).now (calls i).op).1)) := by
  refine ⟨?_, ?_, ?_, ?_⟩
  · intro i j hij id run hrun
    obtain ⟨more, hlater⟩ := Backend.grows_of_le (refines kind) calls hij id run hrun
    exact ⟨_, hlater, rfl, List.prefix_append _ _⟩
  · intro i id run hrun
    exact (Backend.sound_at (refines kind) calls i).ends id run hrun
  · intro i id seen batch hop hanswer
    obtain ⟨before, hbefore, hseen, hafter⟩ := Backend.appended_at (refines kind) calls hop hanswer
    refine ⟨⟨before, hbefore, hseen⟩, fun j hij => ?_⟩
    obtain ⟨more, hlater⟩ := Backend.grows_of_le (refines kind) calls (Nat.succ_le_of_lt hij) id _ hafter
    refine ⟨_, hlater, ?_⟩
    simp [← hseen]
  · intro i hrefused
    rcases Backend.refused_at (refines kind) calls hrefused with hkeep | ⟨error, hlost, hanswer, hview⟩
    · exact .inl hkeep
    · cases kind with
      | memory => simp [backend, memoryBackend] at hlost
      | postgres => exact .inr ⟨rfl, hlost, ⟨error, hanswer⟩, hview⟩

/-- Postgres commits a new run and the answer to the commit is lost: an error, with the run stored. -/
theorem commit_lost_stores_run :
    ¬ ∀ (kind : StoreKind) (calls : Nat → (backend kind).Call) (i : Nat),
      ((backend kind).answer calls i).isRefusal = true →
        (backend kind).viewAt calls (i + 1) = (backend kind).viewAt calls i := by
  intro h
  let run : StoredRun := ⟨.plain 7 ⟨10, 10⟩, []⟩
  let calls : Nat → (backend .postgres).Call :=
    fun _ => ⟨Fault.commitLost ⟨"connection closed"⟩, 0, .putRun run⟩
  have hsame := h .postgres calls 0 rfl
  have hruns := congrArg (fun store => (store.runs ⟨7⟩).isSome) hsame
  exact absurd hruns (by decide)

/-! ### Outboxes -/

/-- In every history of either store, at each moment and for each principal: the numbers ever issued are 1 to
`n`; the rows kept are those past the pruned ones, of which there are never fewer or more than `n`; each event
of each stored run has exactly one number, in that run's principal's outbox, and numbers increase with the
position in the run; a row names a stored run of its own principal; and a page read from the rows, even with
logs read later, gives each of them the very event it names. -/
theorem outboxes_of_history (kind : StoreKind) (calls : Nat → (backend kind).Call) (i : Nat) :
    (∀ p, (((backend kind).issued calls i).filter (·.key = p)).map Row.seq =
      List.range' 1 (((backend kind).viewAt calls i).outbox.counts p)) ∧
    (∀ p, (((backend kind).viewAt calls i).outbox.rows.filter (·.key = p)).map Row.seq =
      List.range' (((backend kind).viewAt calls i).outbox.pruned p + 1)
        (((backend kind).viewAt calls i).outbox.counts p - ((backend kind).viewAt calls i).outbox.pruned p)) ∧
    (∀ row ∈ ((backend kind).viewAt calls i).outbox.rows, row ∈ (backend kind).issued calls i) ∧
    (∀ p, ((backend kind).viewAt calls i).outbox.pruned p ≤ ((backend kind).viewAt calls i).outbox.counts p ∧
      ∀ j, i ≤ j →
        ((backend kind).viewAt calls i).outbox.pruned p ≤ ((backend kind).viewAt calls j).outbox.pruned p) ∧
    (∀ id run, ((backend kind).viewAt calls i).runs id = some run → ∀ k, k < run.events.length →
      ∃! row, row ∈ (backend kind).issued calls i ∧ row.item = (id, k + 1)) ∧
    (∀ row ∈ (backend kind).issued calls i, ∃ run, ((backend kind).viewAt calls i).runs row.item.1 = some run ∧
      row.key = principal run.spec.owner ∧ 1 ≤ row.item.2 ∧ row.item.2 ≤ run.events.length) ∧
    (∀ row ∈ (backend kind).issued calls i, ∀ row' ∈ (backend kind).issued calls i,
      row.item.1 = row'.item.1 → row.item.2 < row'.item.2 → row.seq < row'.seq) ∧
    (∀ j, i ≤ j → ∀ owner after limit, ∃ entries,
      (backend kind).outboxAfter ((backend kind).state calls i) ((backend kind).state calls j) owner after limit =
        .ok ⟨entries, ((backend kind).viewAt calls i).outbox.pruned (principal owner),
          ((backend kind).viewAt calls i).outbox.counts (principal owner)⟩ ∧
      List.Forall₂ (((backend kind).viewAt calls i).Names)
        ((((backend kind).viewAt calls i).outbox.rows.filter fun row =>
          row.key = principal owner ∧ after < row.seq).take limit) entries) := by
  have hsound := Backend.sound_at (refines kind) calls i
  refine ⟨hsound.accounts.numbered, hsound.accounts.retained_seqs, fun row => hsound.accounts.mem_issued, ?_, ?_,
    fun row => hsound.position, ?_, ?_⟩
  · exact fun p => ⟨hsound.accounts.bounded p, fun j hij => Backend.pruned_mono (refines kind) calls p hij⟩
  · exact fun id run hrun k hk => hsound.existsUnique_row hrun hk
  · exact fun row hrow row' hrow' => hsound.seq_lt_of_position_lt hrow hrow'
  · exact fun j hij => Backend.page_at (refines kind) calls hij

end Gol
