import Mathlib.Data.List.Sort
import Gol.StoreMemory

/-! The Postgres store (`postgres.rs`): the tables `runs`, `run_events`, `outbox_counters` and `outbox`, and the
statements of `put_run`, `append_checked`, `prune_outbox` and `outbox_after` over them. A transaction holds the
run row, then the counter row, to its commit, so it is one step. It fails before its commit, with everything
rolled back, or the answer to its commit is lost: `StoreError` then says nothing about the write. -/

namespace Gol
open Library

/-- A row of `runs`. A row of an older server has no owner columns. -/
structure RunRow where
  spec : RunSpec
  ownerIssuer : Option String
  ownerSubject : Option String
  deriving DecidableEq

/-- A row of `run_events`. -/
structure EventRow where
  runId : RunId
  seq : Nat
  body : Event
  terminal : Bool
  deriving DecidableEq

/-- A row of `outbox_counters`. -/
structure CounterRow where
  last : Nat
  pruned : Nat
  deriving DecidableEq

structure PostgresStore where
  runs : RunId → Option RunRow
  runEvents : List EventRow
  outboxCounters : Principal → Option CounterRow
  outbox : List OutboxRow

/-- How a transaction goes: it commits and answers, it fails with nothing committed, or it commits and the
answer is lost. -/
inductive Fault where
  | none
  | failed (error : StoreError)
  | commitLost (error : StoreError)
  deriving DecidableEq

namespace PostgresStore

def empty : PostgresStore := ⟨fun _ => none, [], fun _ => none, []⟩

def transact {α : Type} (db : PostgresStore) (fault : Fault) (tx : PostgresStore → PostgresStore × α) :
    PostgresStore × Except StoreError α :=
  match fault with
  | .none => ((tx db).1, .ok (tx db).2)
  | .failed error => (db, .error error)
  | .commitLost error => ((tx db).1, .error error)

/-- `EventRows::insert`: the rows numbered after `last`, and their numbers in `principal`'s outbox. -/
def insert (db : PostgresStore) (now : Timestamp) (runId : RunId) (last : Nat) (principal : Principal)
    (events : List Event) : PostgresStore :=
  let db :=
    { db with
      runEvents := db.runEvents ++ (events.zipIdx 1).map fun row =>
        { runId := runId, seq := last + row.2, body := row.1, terminal := isTerminal row.1.payload : EventRow } }
  let count := events.length
  if count = 0 then db else
  let counter :=
    match db.outboxCounters principal with
    | some counter => { counter with last := counter.last + count }
    | none => { last := count, pruned := 0 }
  { db with
    outboxCounters := Function.update db.outboxCounters principal (some counter)
    outbox := db.outbox ++ (List.range' 1 count).map fun n =>
      { principal := principal, seq := counter.last - count + n, runId := runId, runSeq := last + n,
        storedMs := now : OutboxRow } }

def putRun (db : PostgresStore) (fault : Fault) (now : Timestamp) (run : StoredRun) :
    PostgresStore × Except StoreError PutRun :=
  match checkOneTerminal run.events with
  | .error error => (db, .error error)
  | .ok () =>
      db.transact fault fun tx =>
        match tx.runs run.spec.runId with
        | some _ => (tx, .existed)
        | none =>
            let row := ⟨run.spec, some run.spec.owner.issuer, some run.spec.owner.subject⟩
            let tx := { tx with runs := Function.update tx.runs run.spec.runId (some row) }
            (tx.insert now run.spec.runId 0 (principal run.spec.owner) run.events, .stored)

def appendChecked (db : PostgresStore) (fault : Fault) (now : Timestamp) (id : RunId) (seen : Option Nat)
    (events : List Event) : PostgresStore × Except StoreError Append :=
  match checkOneTerminal events with
  | .error error => (db, .error error)
  | .ok () =>
      db.transact fault fun tx =>
        match tx.runs id with
        | none => (tx, .missing)
        | some locked =>
            let principal := (locked.ownerIssuer.getD locked.spec.owner.issuer,
              locked.ownerSubject.getD locked.spec.owner.subject)
            let stored := tx.runEvents.filter (·.runId = id)
            if stored.any (·.terminal) then (tx, .terminal) else
            let last := (stored.map EventRow.seq).max?.getD 0
            if seen.any (· ≠ last) then (tx, .moved) else
            (tx.insert now id last principal events, .appended)

/-- One statement: `cut`, then `gone` and `marked` over it. -/
def pruneOutbox (db : PostgresStore) (fault : Fault) (before : Timestamp) :
    PostgresStore × Except StoreError Nat :=
  db.transact fault fun tx =>
    let cut (principal : Principal) : Option Nat :=
      ((tx.outbox.filter fun row => row.principal = principal ∧ row.storedMs < before).map
        OutboxRow.seq).max?
    let kept := tx.outbox.filter fun row => !(cut row.principal).any (row.seq ≤ ·)
    let marked (principal : Principal) : Option CounterRow :=
      (tx.outboxCounters principal).map fun counter =>
        match cut principal with
        | some through => { counter with pruned := max counter.pruned through }
        | none => counter
    ({ tx with outbox := kept, outboxCounters := marked }, tx.outbox.length - kept.length)

/-- `run`: the spec, and the bodies of its `run_events` in the order of their numbers. -/
def run (db : PostgresStore) (id : RunId) : Option StoredRun :=
  (db.runs id).map fun row =>
    ⟨row.spec, ((db.runEvents.filter (·.runId = id)).insertionSort (·.seq ≤ ·.seq)).map EventRow.body⟩

/-- The `run_events` row an outbox row joins. -/
def joined (db : PostgresStore) (runId : RunId) (runSeq : Nat) : Option EventRow :=
  db.runEvents.find? fun event => event.runId = runId ∧ event.seq = runSeq

/-- The entry of an outbox row, left joined to its event. -/
def entryOf (db : PostgresStore) (row : OutboxRow) : Except StoreError OutboxEntry :=
  match db.joined row.runId row.runSeq with
  | some event => .ok ⟨row.seq, row.runId, row.runSeq, event.body⟩
  | none => .error ⟨s!"outbox entry {row.seq} has no event"⟩

/-- One snapshot: the principal's rows and their events. -/
def outboxAfter (db : PostgresStore) (owner : Owner) (after limit : Nat) : Except StoreError OutboxPage :=
  let counter := (db.outboxCounters (principal owner)).getD ⟨0, 0⟩
  let rows := ((db.outbox.filter fun row => row.principal = principal owner ∧ after < row.seq).insertionSort
    (·.seq ≤ ·.seq)).take limit
  match rows.mapM db.entryOf with
  | .error error => .error error
  | .ok entries => .ok ⟨entries, counter.pruned, counter.last⟩

/-- One snapshot: the spec, and the bodies of the `run_events` numbered after `after`, at most `limit`. -/
def runPage (db : PostgresStore) (id : RunId) (after limit : Nat) : Option StoredRun :=
  (db.runs id).map fun row =>
    ⟨row.spec, (((db.runEvents.filter fun event => event.runId = id ∧ after < event.seq).insertionSort
      (·.seq ≤ ·.seq)).take limit).map EventRow.body⟩

def exec (db : PostgresStore) (fault : Fault) (now : Timestamp) : StoreOp → PostgresStore × StoreAnswer
  | .putRun run =>
      let (db, result) := db.putRun fault now run
      (db, .of .put result)
  | .appendEvents id events =>
      let (db, result) := db.appendChecked fault now id none events
      (db, .of .append result)
  | .appendEventsAfter id seen events =>
      let (db, result) := db.appendChecked fault now id (some seen) events
      (db, .of .append result)
  | .pruneOutbox before =>
      let (db, result) := db.pruneOutbox fault before
      (db, .of .pruned result)

/-! ### Consistent tables -/

/-- The events of a run in table order. -/
def log (db : PostgresStore) (id : RunId) : List Event := (db.runEvents.filter (·.runId = id)).map EventRow.body

/-- The rows of a run are numbered from 1 with no gap, flagged by their body, and name a stored run; the owner
columns are the spec's; an outbox row has its principal's counter. -/
structure Consistent (db : PostgresStore) : Prop where
  numbered : ∀ id, (db.runEvents.filter (·.runId = id)).map EventRow.seq = List.range' 1 (db.log id).length
  flagged : ∀ row ∈ db.runEvents, row.terminal = isTerminal row.body.payload
  homed : ∀ row ∈ db.runEvents, db.runs row.runId ≠ none
  owned : ∀ id row, db.runs id = some row →
    row.ownerIssuer = some row.spec.owner.issuer ∧ row.ownerSubject = some row.spec.owner.subject
  counted : ∀ row ∈ db.outbox, db.outboxCounters row.principal ≠ none

theorem consistent_empty : empty.Consistent where
  numbered _ := rfl
  flagged _ h := by simp [empty] at h
  homed _ h := by simp [empty] at h
  owned _ _ h := by simp [empty] at h
  counted _ h := by simp [empty] at h

def view (db : PostgresStore) : LogStore where
  runs := db.run
  outbox :=
    { counts := fun principal => ((db.outboxCounters principal).getD ⟨0, 0⟩).last
      pruned := fun principal => ((db.outboxCounters principal).getD ⟨0, 0⟩).pruned
      rows := db.outbox.map OutboxRow.toRow }

theorem view_runs (db : PostgresStore) : db.view.runs = db.run := rfl

theorem view_counts (db : PostgresStore) (principal : Principal) :
    db.view.outbox.counts principal = ((db.outboxCounters principal).getD ⟨0, 0⟩).last := rfl

theorem view_pruned (db : PostgresStore) (principal : Principal) :
    db.view.outbox.pruned principal = ((db.outboxCounters principal).getD ⟨0, 0⟩).pruned := rfl

theorem view_rows (db : PostgresStore) : db.view.outbox.rows = db.outbox.map OutboxRow.toRow := rfl

/-- Table order is the order of the numbers, so reading a run gives its log. -/
theorem Consistent.run_eq {db : PostgresStore} (h : db.Consistent) (id : RunId) :
    db.run id = (db.runs id).map fun row => ⟨row.spec, db.log id⟩ := by
  have hsorted : ((db.runEvents.filter (·.runId = id)).map EventRow.seq).Pairwise (· ≤ ·) := by
    rw [h.numbered]
    exact List.pairwise_le_range'
  rw [run, List.Pairwise.insertionSort_eq (List.pairwise_map.mp hsorted)]
  rfl

/-- A page of a run is that of its log. -/
theorem Consistent.runPage_eq {db : PostgresStore} (h : db.Consistent) (id : RunId) (after limit : Nat) :
    db.runPage id after limit = db.view.runPage id after limit := by
  have hlog : ((db.runEvents.filter (·.runId = id)).map EventRow.seq) =
      List.range' (0 + 1) (db.runEvents.filter (·.runId = id)).length := by
    rw [h.numbered, log, List.length_map, Nat.zero_add]
  have hrows : db.runEvents.filter (fun event => event.runId = id ∧ after < event.seq) =
      (db.runEvents.filter (·.runId = id)).drop after := by
    rw [← filter_of_numbered EventRow.seq hlog after, List.filter_filter]
    refine List.filter_congr fun event _ => ?_
    rw [Bool.decide_and, Bool.and_comm, Nat.zero_add]
  have hsorted : ((db.runEvents.filter (·.runId = id)).drop after).Pairwise (·.seq ≤ ·.seq) := by
    refine (List.pairwise_map.mp ?_).sublist (List.drop_sublist after _)
    rw [hlog]
    exact List.pairwise_le_range'
  rw [LogStore.runPage, view_runs, h.run_eq, runPage, hrows, List.Pairwise.insertionSort_eq hsorted, Option.map_map]
  simp only [Function.comp_def, List.map_take, List.map_drop, log]

theorem max?_range' (n : Nat) : (List.range' 1 n).max?.getD 0 = n := by
  induction n with
  | zero => rfl
  | succ n ih =>
      rw [List.range'_1_concat, max?_snoc, ih, Option.getD_some]
      omega

/-- The last number is the length of the log. -/
theorem Consistent.last_eq {db : PostgresStore} (h : db.Consistent) (id : RunId) :
    ((db.runEvents.filter (·.runId = id)).map EventRow.seq).max?.getD 0 = (db.log id).length := by
  rw [h.numbered, max?_range']

theorem Consistent.any_terminal {db : PostgresStore} (h : db.Consistent) (id : RunId) :
    (db.runEvents.filter (·.runId = id)).any (·.terminal) = hasEnded (db.log id) := by
  rw [hasEnded, log, List.any_map, Bool.eq_iff_iff, List.any_eq_true, List.any_eq_true]
  constructor
  · rintro ⟨row, hrow, hterminal⟩
    exact ⟨row, hrow, by rwa [h.flagged row (List.mem_filter.mp hrow).1] at hterminal⟩
  · rintro ⟨row, hrow, hterminal⟩
    exact ⟨row, hrow, by rwa [h.flagged row (List.mem_filter.mp hrow).1]⟩

theorem Consistent.log_of_not_stored {db : PostgresStore} (h : db.Consistent) {id : RunId}
    (hnone : db.runs id = none) : db.log id = [] := by
  rw [log, List.map_eq_nil_iff, List.filter_eq_nil_iff]
  intro row hrow hid
  simp only [decide_eq_true_eq] at hid
  exact h.homed row hrow (hid ▸ hnone)

/-! ### Inserting a batch -/

/-- The rows of a batch inserted after `last`. -/
def newRows (runId : RunId) (last : Nat) (events : List Event) : List EventRow :=
  (events.zipIdx 1).map fun row =>
    { runId := runId, seq := last + row.2, body := row.1, terminal := isTerminal row.1.payload }

theorem runId_of_mem_newRows {runId : RunId} {last : Nat} {events : List Event} {row : EventRow}
    (h : row ∈ newRows runId last events) :
    row.runId = runId ∧ row.terminal = isTerminal row.body.payload := by
  obtain ⟨pair, -, rfl⟩ := List.mem_map.mp h
  exact ⟨rfl, rfl⟩

theorem body_newRows (runId : RunId) (last : Nat) (events : List Event) :
    (newRows runId last events).map EventRow.body = events := by
  simp [newRows, Function.comp_def]

theorem seq_newRows (runId : RunId) (last : Nat) (events : List Event) :
    (newRows runId last events).map EventRow.seq = List.range' (last + 1) events.length := by
  have hsnd : (events.zipIdx 1).map Prod.snd = List.range' 1 events.length := List.zipIdx_map_snd _ _
  have hcomp : (newRows runId last events).map EventRow.seq = ((events.zipIdx 1).map Prod.snd).map (last + ·) := by
    rw [newRows, List.map_map, List.map_map]
    rfl
  rw [hcomp, hsnd, List.map_add_range']

theorem filter_newRows_self (runId : RunId) (last : Nat) (events : List Event) :
    (newRows runId last events).filter (·.runId = runId) = newRows runId last events := by
  rw [List.filter_eq_self]
  intro row hrow
  simpa using (runId_of_mem_newRows hrow).1

theorem filter_newRows_of_ne {runId other : RunId} (h : other ≠ runId) (last : Nat) (events : List Event) :
    (newRows runId last events).filter (·.runId = other) = [] := by
  rw [List.filter_eq_nil_iff]
  intro row hrow
  simpa [(runId_of_mem_newRows hrow).1] using Ne.symm h

@[simp] theorem insert_runs (db : PostgresStore) (now : Timestamp) (runId : RunId) (last : Nat)
    (principal : Principal) (events : List Event) :
    (db.insert now runId last principal events).runs = db.runs := by
  unfold insert
  dsimp only
  split <;> rfl

@[simp] theorem insert_runEvents (db : PostgresStore) (now : Timestamp) (runId : RunId) (last : Nat)
    (principal : Principal) (events : List Event) :
    (db.insert now runId last principal events).runEvents = db.runEvents ++ newRows runId last events := by
  unfold insert
  dsimp only
  split <;> rfl

theorem insert_log_self (db : PostgresStore) (now : Timestamp) (runId : RunId) (last : Nat)
    (principal : Principal) (events : List Event) :
    (db.insert now runId last principal events).log runId = db.log runId ++ events := by
  rw [log, insert_runEvents, List.filter_append, filter_newRows_self, List.map_append, body_newRows, log]

theorem insert_log_of_ne (db : PostgresStore) (now : Timestamp) {runId other : RunId} (h : other ≠ runId)
    (last : Nat) (principal : Principal) (events : List Event) :
    (db.insert now runId last principal events).log other = db.log other := by
  rw [log, insert_runEvents, List.filter_append, filter_newRows_of_ne h, List.append_nil, log]

theorem Consistent.insert {db : PostgresStore} (h : db.Consistent) (now : Timestamp) {id : RunId}
    (hstored : db.runs id ≠ none) (principal : Principal) (events : List Event) :
    (db.insert now id (db.log id).length principal events).Consistent where
  numbered other := by
    rw [insert_runEvents, List.filter_append, List.map_append, h.numbered]
    by_cases hid : other = id
    · subst hid
      rw [filter_newRows_self, seq_newRows, insert_log_self, List.length_append,
        Nat.add_comm (db.log other).length 1, List.range'_append_1]
    · rw [filter_newRows_of_ne hid, insert_log_of_ne _ _ hid, List.map_nil, List.append_nil]
  flagged row hrow := by
    rw [insert_runEvents] at hrow
    rcases List.mem_append.mp hrow with hold | hnew
    · exact h.flagged row hold
    · exact (runId_of_mem_newRows hnew).2
  homed row hrow := by
    rw [insert_runEvents] at hrow
    rw [insert_runs]
    rcases List.mem_append.mp hrow with hold | hnew
    · exact h.homed row hold
    · rwa [(runId_of_mem_newRows hnew).1]
  owned other row hrow := by
    rw [insert_runs] at hrow
    exact h.owned other row hrow
  counted row hrow := by
    unfold PostgresStore.insert at hrow ⊢
    dsimp only at hrow ⊢
    split
    · next hzero =>
        rw [if_pos hzero] at hrow
        exact h.counted row hrow
    · next hzero =>
        rw [if_neg hzero] at hrow
        by_cases hprincipal : row.principal = principal
        · simp [hprincipal]
        · simp only [Function.update_of_ne hprincipal]
          rcases List.mem_append.mp hrow with hold | hnew
          · exact h.counted row hold
          · obtain ⟨n, -, rfl⟩ := List.mem_map.mp hnew
            exact absurd rfl hprincipal

/-- The counter and the outbox rows of a batch are the ledger's. -/
theorem insert_view_outbox (db : PostgresStore) (now : Timestamp) (runId : RunId) (last : Nat)
    (principal : Principal) (events : List Event) :
    (db.insert now runId last principal events).view.outbox =
      db.view.outbox.number principal (LogStore.positions runId last events.length) now := by
  have hrows : ∀ before : Nat, ((List.range' 1 events.length).map fun n =>
      ({ principal := principal, seq := before + events.length - events.length + n, runId := runId,
         runSeq := last + n, storedMs := now : OutboxRow }).toRow) =
      rowsAfter principal now before (LogStore.positions runId last events.length) := by
    intro before
    rw [← InMemoryStore.rows_eq_rowsAfter, List.range'_eq_map_range, List.map_map]
    apply List.map_congr_left
    intro n _
    simp [OutboxRow.toRow]
    omega
  unfold insert
  dsimp only
  split
  · next hzero =>
      simp [view, Ledger.number, LogStore.positions, hzero, rowsAfter]
  · cases hcounter : db.outboxCounters principal with
    | none =>
        have hnew := hrows 0
        rw [Nat.zero_add] at hnew
        refine Ledger.ext (funext fun other => ?_) (funext fun other => ?_) ?_
        · by_cases hother : other = principal <;>
            simp [view, Ledger.number, LogStore.positions, hother, hcounter]
        · by_cases hother : other = principal <;> simp [view, Ledger.number, hother, hcounter]
        · simp only [view, Ledger.number, List.map_append, List.map_map, hcounter, Option.getD_none,
            ← hnew]
          rfl
    | some counter =>
        have hnew := hrows counter.last
        refine Ledger.ext (funext fun other => ?_) (funext fun other => ?_) ?_
        · by_cases hother : other = principal <;>
            simp [view, Ledger.number, LogStore.positions, hother, hcounter]
        · by_cases hother : other = principal <;> simp [view, Ledger.number, hother, hcounter]
        · simp only [view, Ledger.number, List.map_append, List.map_map, hcounter, Option.getD_some,
            ← hnew]
          rfl

theorem insert_view {db : PostgresStore} (h : db.Consistent) (now : Timestamp) {id : RunId} {row : RunRow}
    (hrow : db.runs id = some row) (events : List Event) :
    (db.insert now id (db.log id).length (principal row.spec.owner) events).view =
      db.view.extend now id ⟨row.spec, db.log id⟩ events := by
  have hstored : db.runs id ≠ none := by simp [hrow]
  have hafter := h.insert now hstored (principal row.spec.owner) events
  apply LogStore.ext
  · funext other
    rw [view_runs, hafter.run_eq, insert_runs]
    by_cases hid : other = id
    · subst hid
      rw [LogStore.extend_runs_self, insert_log_self, hrow]
      rfl
    · rw [LogStore.extend_runs_of_ne _ _ hid, insert_log_of_ne _ _ hid, view_runs, h.run_eq]
  · exact db.insert_view_outbox now id (db.log id).length (principal row.spec.owner) events

/-! ### Refinement of the log store -/

/-- A transaction's step on the tables is the log store's, with the same answer, and keeps them consistent. -/
def Realizes {α : Type} (db : PostgresStore) (tx : PostgresStore → PostgresStore × α)
    (done : α → StoreAnswer) (spec : LogStore × StoreAnswer) : Prop :=
  ((tx db).1.view, done (tx db).2) = spec ∧ (tx db).1.Consistent

/-- Under a fault the step is made or not, and the answer is an error; only a lost commit is made. -/
def Outcome (db : PostgresStore) (fault : Fault) (after : PostgresStore × StoreAnswer)
    (spec : LogStore × StoreAnswer) : Prop :=
  after.1.Consistent ∧
  ((after.1.view, after.2) = spec ∨
    (∃ error, after = (db, .failed error)) ∨
    (∃ error, fault = .commitLost error ∧ after.2 = .failed error ∧ after.1.view = spec.1))

theorem Realizes.outcome {α : Type} {db : PostgresStore} (h : db.Consistent)
    {tx : PostgresStore → PostgresStore × α} {done : α → StoreAnswer} {spec : LogStore × StoreAnswer}
    (hreal : db.Realizes tx done spec) (fault : Fault) :
    db.Outcome fault ((db.transact fault tx).1, .of done (db.transact fault tx).2) spec := by
  obtain ⟨hstep, hafter⟩ := hreal
  cases fault with
  | none => exact ⟨hafter, .inl hstep⟩
  | failed error => exact ⟨h, .inr (.inl ⟨error, rfl⟩)⟩
  | commitLost error => exact ⟨hafter, .inr (.inr ⟨error, rfl, rfl, congrArg Prod.fst hstep⟩)⟩

/-- The tables with a new row of `runs`. -/
def addRun (db : PostgresStore) (spec : RunSpec) : PostgresStore :=
  { db with runs :=
      Function.update db.runs spec.runId (some ⟨spec, some spec.owner.issuer, some spec.owner.subject⟩) }

theorem Consistent.addRun {db : PostgresStore} (h : db.Consistent) (spec : RunSpec) :
    (db.addRun spec).Consistent where
  numbered := h.numbered
  flagged := h.flagged
  homed row hrow := by
    by_cases hid : row.runId = spec.runId
    · simp [PostgresStore.addRun, hid]
    · simpa [PostgresStore.addRun, hid] using h.homed row hrow
  owned id row hrow := by
    by_cases hid : id = spec.runId
    · subst hid
      simp only [PostgresStore.addRun, Function.update_self, Option.some.injEq] at hrow
      subst hrow
      exact ⟨rfl, rfl⟩
    · simp only [PostgresStore.addRun, Function.update_of_ne hid] at hrow
      exact h.owned id row hrow
  counted := h.counted

theorem view_addRun_extend {db : PostgresStore} (spec : RunSpec) (now : Timestamp) (events : List Event) :
    (db.addRun spec).view.extend now spec.runId ⟨spec, []⟩ events =
      db.view.extend now spec.runId ⟨spec, []⟩ events := by
  apply LogStore.ext
  · funext id
    by_cases hid : id = spec.runId
    · subst hid
      simp
    · rw [LogStore.extend_runs_of_ne _ _ hid, LogStore.extend_runs_of_ne _ _ hid]
      simp [view, run, addRun, hid]
  · rfl

theorem putRun_outcome {db : PostgresStore} (h : db.Consistent) (fault : Fault) (now : Timestamp)
    (run : StoredRun) :
    db.Outcome fault ((db.putRun fault now run).1, .of .put (db.putRun fault now run).2)
      (db.view.putRun now run) := by
  unfold putRun LogStore.putRun
  cases checkOneTerminal run.events with
  | error error => exact ⟨h, .inl rfl⟩
  | ok _ =>
      refine Realizes.outcome h ?_ fault
      dsimp only
      rw [Realizes, view_runs, h.run_eq]
      cases hrow : db.runs run.spec.runId with
      | some row => exact ⟨rfl, h⟩
      | none =>
          have hadd := h.addRun run.spec
          have hlog : (db.addRun run.spec).log run.spec.runId = [] := h.log_of_not_stored hrow
          have hstored : (db.addRun run.spec).runs run.spec.runId =
              some ⟨run.spec, some run.spec.owner.issuer, some run.spec.owner.subject⟩ :=
            Function.update_self _ _ _
          have hview := insert_view hadd now hstored run.events
          have hafter := hadd.insert now (Option.ne_none_iff_exists'.mpr ⟨_, hstored⟩)
            (principal run.spec.owner) run.events
          rw [hlog] at hview hafter
          exact ⟨Prod.ext (hview.trans (view_addRun_extend _ _ _)) rfl, hafter⟩

theorem appendChecked_outcome {db : PostgresStore} (h : db.Consistent) (fault : Fault) (now : Timestamp)
    (id : RunId) (seen : Option Nat) (events : List Event) :
    db.Outcome fault
      ((db.appendChecked fault now id seen events).1, .of .append (db.appendChecked fault now id seen events).2)
      (db.view.appendChecked now id seen events) := by
  unfold appendChecked LogStore.appendChecked
  cases checkOneTerminal events with
  | error error => exact ⟨h, .inl rfl⟩
  | ok _ =>
      refine Realizes.outcome h ?_ fault
      dsimp only
      rw [Realizes, view_runs, h.run_eq]
      cases hrow : db.runs id with
      | none => exact ⟨rfl, h⟩
      | some row =>
          obtain ⟨hissuer, hsubject⟩ := h.owned id row hrow
          simp only [Option.map_some, h.any_terminal, h.last_eq, hissuer, hsubject, Option.getD_some]
          split
          · exact ⟨rfl, h⟩
          · split
            · exact ⟨rfl, h⟩
            · refine ⟨Prod.ext ?_ rfl, ?_⟩
              · exact insert_view h now hrow events
              · exact h.insert now (by simp [hrow]) (principal row.spec.owner) events

/-- The highest old number that the statement's `cut` finds. -/
theorem cut_eq_through (db : PostgresStore) (before : Timestamp) (principal : Principal) :
    ((db.outbox.filter fun row => row.principal = principal ∧ row.storedMs < before).map
      OutboxRow.seq).max? = db.view.outbox.through before principal := by
  simp only [Ledger.through, view, List.filter_map, List.map_map]
  rfl

/-- The rows the statement keeps are the ledger's. -/
theorem kept_eq_prune (db : PostgresStore) (before : Timestamp) :
    (db.outbox.filter fun row =>
      !(db.view.outbox.through before row.principal).any (row.seq ≤ ·)).map OutboxRow.toRow =
    (db.view.outbox.prune before).rows := by
  rw [Ledger.prune, view_rows, List.filter_map]
  congr 1
  apply List.filter_congr
  intro row _
  simp only [Function.comp_apply, OutboxRow.toRow]
  cases db.view.outbox.through before row.principal with
  | none => rfl
  | some last =>
      rw [Option.any_some, Option.all_some, Bool.eq_iff_iff]
      simp only [Bool.not_eq_true', decide_eq_false_iff_not, Nat.not_le]
      exact decide_eq_true_iff.symm

/-- A principal without a counter has no rows, so nothing of its outbox is cut. -/
theorem Consistent.through_of_no_counter {db : PostgresStore} (h : db.Consistent) (before : Timestamp)
    {principal : Principal} (hnone : db.outboxCounters principal = none) :
    db.view.outbox.through before principal = none := by
  rw [← cut_eq_through, List.max?_eq_none_iff, List.map_eq_nil_iff, List.filter_eq_nil_iff]
  intro row hrow hold
  simp only [decide_eq_true_eq] at hold
  exact h.counted row hrow (hold.1 ▸ hnone)

theorem pruneOutbox_outcome {db : PostgresStore} (h : db.Consistent) (fault : Fault) (before : Timestamp) :
    db.Outcome fault ((db.pruneOutbox fault before).1, .of .pruned (db.pruneOutbox fault before).2)
      (db.view.pruneOutbox before) := by
  refine Realizes.outcome h ?_ fault
  simp only [Realizes, cut_eq_through]
  have hkept := db.kept_eq_prune before
  refine ⟨Prod.ext (LogStore.ext rfl (Ledger.ext (funext fun principal => ?_) (funext fun principal => ?_) hkept))
    ?_, ⟨h.numbered, h.flagged, h.homed, h.owned, ?_⟩⟩
  · rw [view_counts]
    simp only [LogStore.pruneOutbox, Ledger.prune, view_counts]
    cases db.outboxCounters principal with
    | none => rfl
    | some counter => cases db.view.outbox.through before principal <;> rfl
  · rw [view_pruned]
    simp only [LogStore.pruneOutbox, Ledger.prune, view_pruned]
    cases hcounter : db.outboxCounters principal with
    | none => simp [h.through_of_no_counter before hcounter]
    | some counter => cases db.view.outbox.through before principal <;> simp
  · have hlength := congrArg List.length hkept
    rw [List.length_map] at hlength
    simp only [LogStore.pruneOutbox, hlength, view_rows, List.length_map]
  · intro row hrow
    have hcounter := h.counted row (List.mem_filter.mp hrow).1
    simpa using hcounter

theorem exec_outcome {db : PostgresStore} (h : db.Consistent) (fault : Fault) (now : Timestamp)
    (op : StoreOp) : db.Outcome fault (db.exec fault now op) (db.view.exec now op) := by
  cases op with
  | putRun run => exact putRun_outcome h fault now run
  | appendEvents id events => exact appendChecked_outcome h fault now id none events
  | appendEventsAfter id seen events => exact appendChecked_outcome h fault now id (some seen) events
  | pruneOutbox before => exact pruneOutbox_outcome h fault before

/-! ### Reading the outbox -/

/-- The row of `run_events` with a number is the log's event at that position. -/
theorem Consistent.joined_eq {db : PostgresStore} (h : db.Consistent) (id : RunId) {seq : Nat}
    (hseq : 1 ≤ seq) :
    (db.joined id seq).map EventRow.body = (db.run id).bind fun run => run.events[seq - 1]? := by
  have hlog : (db.joined id seq).map EventRow.body = (db.log id)[seq - 1]? := by
    have hnumbered := h.numbered id
    rw [log, List.length_map] at hnumbered
    have hfind := find?_of_numbered EventRow.seq hnumbered (seq - 1)
    rw [Nat.add_sub_cancel' hseq, List.find?_filter] at hfind
    rw [joined, log, List.getElem?_map, ← hfind]
    congr 2
    funext row
    simp
  rw [hlog, h.run_eq]
  cases hrow : db.runs id with
  | none => simp [h.log_of_not_stored hrow]
  | some row => rfl

theorem entryOf_eq {db : PostgresStore} (h : db.Consistent) {issued : LogStore.Issued}
    (hsound : db.view.Sound issued) {row : OutboxRow} (hrow : row ∈ db.outbox) :
    db.entryOf row = db.view.entryOf row.toRow := by
  have hissued : row.toRow ∈ issued := by
    apply hsound.accounts.mem_issued
    rw [view_rows]
    exact List.mem_map_of_mem hrow
  obtain ⟨-, -, -, hseq, -⟩ := hsound.position hissued
  have hevent := h.joined_eq row.runId hseq
  simp only [entryOf, LogStore.entryOf, view_runs, OutboxRow.toRow] at hevent ⊢
  rw [← hevent]
  cases db.joined row.runId row.runSeq <;> rfl

theorem rows_sorted {db : PostgresStore} {issued : LogStore.Issued} (hsound : db.view.Sound issued)
    (owner : Owner) (after : Nat) :
    (db.outbox.filter fun row => row.principal = principal owner ∧ after < row.seq).Pairwise
      (·.seq ≤ ·.seq) := by
  have hrows := hsound.accounts.rows_ordered (principal owner)
  rw [view_rows, List.filter_map, List.pairwise_map] at hrows
  have hsub : (db.outbox.filter fun row => row.principal = principal owner ∧ after < row.seq).Sublist
      (db.outbox.filter ((fun row => decide (row.key = principal owner)) ∘ OutboxRow.toRow)) := by
    apply List.monotone_filter_right
    intro row hrow
    simp only [decide_eq_true_eq] at hrow
    simp [OutboxRow.toRow, hrow.1]
  exact (hrows.sublist hsub).imp (fun hlt => Nat.le_of_lt hlt)

theorem mapM_congr_mem {α β ε : Type} {f g : α → Except ε β} {rows : List α}
    (h : ∀ row ∈ rows, f row = g row) : rows.mapM f = rows.mapM g := by
  induction rows with
  | nil => rfl
  | cons row rows ih =>
      rw [List.mapM_cons, List.mapM_cons, h row (by simp), ih fun row hrow => h row (by simp [hrow])]

/-- A page is read as the log store reads it: the rows of a principal stand in order. -/
theorem outboxAfter_eq {db : PostgresStore} (h : db.Consistent) {issued : LogStore.Issued}
    (hsound : db.view.Sound issued) (owner : Owner) (after limit : Nat) :
    db.outboxAfter owner after limit = db.view.outboxAfter db.view owner after limit := by
  have hentries : ∀ row ∈ (db.outbox.filter fun row =>
      row.principal = principal owner ∧ after < row.seq).take limit,
      db.entryOf row = (db.view.entryOf ∘ OutboxRow.toRow) row := by
    intro row hrow
    exact entryOf_eq h hsound (List.mem_filter.mp (List.mem_of_mem_take hrow)).1
  simp only [outboxAfter, LogStore.outboxAfter, (rows_sorted hsound owner after).insertionSort_eq,
    mapM_congr_mem hentries, view_rows, view_counts, view_pruned, List.filter_map, ← List.map_take,
    List.mapM_map]
  rfl

end PostgresStore
end Gol
