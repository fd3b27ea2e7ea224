import Gol.LibraryTransactions
import Gol.StoreHistory

/-! The Postgres store's writes, statement by statement: `put_run` and `append_checked` as the sessions of many
servers run them side by side, each locking its run's row, then its principal's counter, to its end. -/

namespace Gol
open Library

/-- What a transaction locks: a run's row, and under it the rows of its events; a principal's counter, and under it
its outbox. -/
inductive RowKey where
  | run (id : RunId)
  | counter (principal : Principal)
  deriving DecidableEq

structure RunRows where
  row : Option RunRow
  events : List EventRow
  deriving DecidableEq

structure CounterRows where
  row : Option CounterRow
  entries : List OutboxRow
  deriving DecidableEq

@[reducible] def RowKey.Row : RowKey → Type
  | .run _ => RunRows
  | .counter _ => CounterRows

namespace PostgresStore

/-- A transaction over the store's rows, and what its caller is told. -/
abbrev Tx : Type := Prog (RowSig RowKey.Row) StoreAnswer

/-- The outbox rows of a batch, numbered up to `last`. -/
def newEntries (now : Timestamp) (runId : RunId) (from_ : Nat) (principal : Principal) (count last : Nat) :
    List OutboxRow :=
  (List.range' 1 count).map fun n =>
    { principal := principal, seq := last - count + n, runId := runId, runSeq := from_ + n, storedMs := now }

/-- The counter row with `count` more. -/
def counted (count : Nat) : Option CounterRow → CounterRow
  | some counter => { counter with last := counter.last + count }
  | none => { last := count, pruned := 0 }

/-- `EventRows::insert`: the event rows in one statement, then their numbers in another, which takes the counter's
row. -/
def insertTx (now : Timestamp) (id : RunId) (run : RunRows) (last : Nat) (principal : Principal) (events : List Event)
    (answer : StoreAnswer) : Tx :=
  .call (.write (.run id) { run with events := run.events ++ newRows id last events }) fun _ =>
  if events.length = 0 then .ret answer else
  .call (.lock (.counter principal)) fun (counter : CounterRows) =>
  let row := counted events.length counter.row
  .call (.write (.counter principal)
    ⟨some row, counter.entries ++ newEntries now id last principal events.length row.last⟩) fun _ =>
  .ret answer

def putRunTx (now : Timestamp) (run : StoredRun) : Tx :=
  match checkOneTerminal run.events with
  | .error error => .ret (.failed error)
  | .ok () =>
      .call (.lock (.run run.spec.runId)) fun (stored : RunRows) =>
      match stored.row with
      | some _ => .ret (.put .existed)
      | none =>
          let row : RunRow := ⟨run.spec, some run.spec.owner.issuer, some run.spec.owner.subject⟩
          .call (.write (.run run.spec.runId) { stored with row := some row }) fun _ =>
          insertTx now run.spec.runId { stored with row := some row } 0
            (principal run.spec.owner) run.events (.put .stored)

def appendTx (now : Timestamp) (id : RunId) (seen : Option Nat) (events : List Event) : Tx :=
  match checkOneTerminal events with
  | .error error => .ret (.failed error)
  | .ok () =>
      .call (.lock (.run id)) fun (stored : RunRows) =>
      match stored.row with
      | none => .ret (.append .missing)
      | some locked =>
          let principal := (locked.ownerIssuer.getD locked.spec.owner.issuer,
            locked.ownerSubject.getD locked.spec.owner.subject)
          if stored.events.any (·.terminal) then .ret (.append .terminal) else
          let last := (stored.events.map EventRow.seq).max?.getD 0
          if seen.any (· ≠ last) then .ret (.append .moved) else
          insertTx now id stored last principal events (.append .appended)

/-- The writes that servers make to runs and their logs. -/
inductive Writer where
  | putRun (run : StoredRun)
  | append (id : RunId) (seen : Option Nat) (events : List Event)

def Writer.op : Writer → StoreOp
  | .putRun run => .putRun run
  | .append id none events => .appendEvents id events
  | .append id (some seen) events => .appendEventsAfter id seen events

/-- The transaction of a write made at `now`. -/
def transaction : Timestamp × Writer → Tx
  | (now, .putRun run) => putRunTx now run
  | (now, .append id seen events) => appendTx now id seen events

/-! ### One at a time -/

/-- The tables by what their transactions lock. -/
def rowsOf (db : PostgresStore) : Rows RowKey.Row
  | .run id => ⟨db.runs id, db.runEvents.filter (·.runId = id)⟩
  | .counter principal => ⟨db.outboxCounters principal, db.outbox.filter (·.principal = principal)⟩

variable (db : PostgresStore)

theorem insert_of_none (now : Timestamp) (id : RunId) (last : Nat) (principal : Principal) {events : List Event}
    (h : events.length = 0) : db.insert now id last principal events = { db with
      runEvents := db.runEvents ++ newRows id last events } :=
  if_pos h

theorem insert_of_some (now : Timestamp) (id : RunId) (last : Nat) (principal : Principal) {events : List Event}
    (h : events.length ≠ 0) : db.insert now id last principal events = { db with
      runEvents := db.runEvents ++ newRows id last events
      outboxCounters := Function.update db.outboxCounters principal
        (some (counted events.length (db.outboxCounters principal)))
      outbox := db.outbox ++ newEntries now id last principal events.length
        (counted events.length (db.outboxCounters principal)).last } :=
  if_neg h

theorem filter_newEntries (now : Timestamp) (id : RunId) (from_ : Nat)
    (principal other : Principal) (count last : Nat) :
    (newEntries now id from_ principal count last).filter (·.principal = other) =
      if other = principal then newEntries now id from_ principal count last else [] := by
  have hprincipal : ∀ row ∈ newEntries now id from_ principal count last, row.principal = principal := by
    intro row hmem
    obtain ⟨n, -, rfl⟩ := List.mem_map.mp hmem
    rfl
  split
  · next hsame =>
      rw [List.filter_eq_self]
      exact fun row hmem => by simpa using (hprincipal row hmem).trans hsame.symm
  · next hne =>
      rw [List.filter_eq_nil_iff]
      intro row hmem heq
      have hother : row.principal = other := by simpa using heq
      exact hne (hother.symm.trans (hprincipal row hmem))

/-- The rows of a run whose batch is inserted, with its numbers in its principal's outbox. -/
theorem rowsOf_insert (now : Timestamp) (id : RunId) (last : Nat) (principal : Principal) (events : List Event) :
    (db.insert now id last principal events).rowsOf =
      if events.length = 0 then
        Function.update db.rowsOf (.run id)
          ⟨db.runs id, db.runEvents.filter (·.runId = id) ++ newRows id last events⟩
      else
        Function.update (Function.update db.rowsOf (.run id)
          ⟨db.runs id, db.runEvents.filter (·.runId = id) ++ newRows id last events⟩) (.counter principal)
            ⟨some (counted events.length (db.outboxCounters principal)), db.outbox.filter (·.principal = principal) ++
              newEntries now id last principal events.length
                (counted events.length (db.outboxCounters principal)).last⟩ := by
  have hruns : ∀ other, (db.insert now id last principal events).rowsOf (.run other) =
      Function.update db.rowsOf (.run id) ⟨db.runs id, db.runEvents.filter (·.runId = id) ++ newRows id last events⟩
        (.run other) := by
    intro other
    by_cases hid : other = id
    · subst hid
      simp [rowsOf, List.filter_append, filter_newRows_self]
    · rw [Function.update_of_ne (by simpa using hid)]
      simp [rowsOf, List.filter_append, filter_newRows_of_ne hid]
  funext k
  cases k with
  | run other =>
      rw [hruns]
      split
      · rfl
      · exact (Function.update_of_ne (show RowKey.run other ≠ .counter principal by simp) ..).symm
  | counter other =>
      split
      · next hnone =>
          rw [db.insert_of_none now id last principal hnone]
          rfl
      · next hsome =>
          rw [db.insert_of_some now id last principal hsome]
          simp only [rowsOf, List.filter_append, filter_newEntries]
          by_cases hother : other = principal
          · subst hother
            simp
          · simp [hother, rowsOf]

theorem run_insertTx (now : Timestamp) (id : RunId) (last : Nat) (principal : Principal) (events : List Event)
    (answer : StoreAnswer) : db.rowsOf.run (insertTx now id (db.rowsOf (.run id)) last principal events answer) =
      (answer, (db.insert now id last principal events).rowsOf) := by
  rw [insertTx, Rows.run_write, rowsOf_insert]
  split
  · rfl
  · simp only [Rows.run_lock, Rows.run_write, Rows.run_ret]
    rfl

theorem rowsOf_addRun (spec : RunSpec) : (db.addRun spec).rowsOf = Function.update db.rowsOf (.run spec.runId)
    { db.rowsOf (.run spec.runId) with row := some ⟨spec, some spec.owner.issuer, some spec.owner.subject⟩ } := by
  funext k
  cases k with
  | run other =>
      by_cases hid : other = spec.runId
      · subst hid
        simp [rowsOf, addRun]
      · rw [Function.update_of_ne (by simpa using hid)]
        simp [rowsOf, addRun, hid]
  | counter other => rfl

theorem run_appendTx (now : Timestamp) (id : RunId) (seen : Option Nat) (events : List Event) :
    db.rowsOf.run (appendTx now id seen events) =
      (.of .append (db.appendChecked .none now id seen events).2,
        (db.appendChecked .none now id seen events).1.rowsOf) := by
  unfold appendTx appendChecked
  cases checkOneTerminal events with
  | error error => rfl
  | ok _ =>
      have hrow : (db.rowsOf (.run id)).row = db.runs id := rfl
      have hevents : (db.rowsOf (.run id)).events = db.runEvents.filter (·.runId = id) := rfl
      simp only [Rows.run_lock, transact, hrow, hevents]
      cases db.runs id with
      | none => rfl
      | some locked =>
          dsimp only
          split
          · rfl
          · split
            · rfl
            · exact run_insertTx ..

theorem run_putRunTx (now : Timestamp) (run : StoredRun) : db.rowsOf.run (putRunTx now run) =
    (.of .put (db.putRun .none now run).2, (db.putRun .none now run).1.rowsOf) := by
  unfold putRunTx putRun
  cases checkOneTerminal run.events with
  | error error => rfl
  | ok _ =>
      have hrow : (db.rowsOf (.run run.spec.runId)).row = db.runs run.spec.runId := rfl
      simp only [Rows.run_lock, transact, hrow]
      cases db.runs run.spec.runId with
      | some stored => rfl
      | none =>
          have hnew : (db.addRun run.spec).rowsOf (.run run.spec.runId) = { db.rowsOf (.run run.spec.runId) with
              row := some ⟨run.spec, some run.spec.owner.issuer, some run.spec.owner.subject⟩ } := by
            rw [rowsOf_addRun, Function.update_self]
          dsimp only
          rw [Rows.run_write, ← rowsOf_addRun, ← hnew]
          exact (db.addRun run.spec).run_insertTx now run.spec.runId 0
            (principal run.spec.owner) run.events (.put .stored)

/-- Alone, a write's transaction does what the store's call does. -/
theorem run_transaction (name : Timestamp × Writer) : db.rowsOf.run (transaction name) =
    ((db.exec .none name.1 name.2.op).2, (db.exec .none name.1 name.2.op).1.rowsOf) := by
  obtain ⟨now, writer⟩ := name
  cases writer with
  | putRun run => exact db.run_putRunTx now run
  | append id seen events => cases seen <;> exact db.run_appendTx now id _ events

/-! ### Locks -/

/-- Runs are locked before counters. -/
def rankOf : RowKey → Nat
  | .run _ => 0
  | .counter _ => 1

theorem climbs_insertTx (now : Timestamp) (id : RunId) (run : RunRows) (last : Nat) (principal : Principal)
    (events : List Event) (answer : StoreAnswer) :
    (insertTx now id run last principal events answer).Climbs rankOf [.run id] := by
  refine ⟨List.mem_singleton_self _, ?_⟩
  split
  · trivial
  · refine ⟨fun other hother => ?_, fun counter => ⟨List.mem_cons_self .., trivial⟩⟩
    obtain rfl := List.mem_singleton.mp hother
    exact Nat.zero_lt_one

theorem climbs_transaction (name : Timestamp × Writer) : (transaction name).Climbs rankOf [] := by
  obtain ⟨now, writer⟩ := name
  cases writer with
  | putRun run =>
      simp only [transaction, putRunTx]
      split
      · trivial
      · refine ⟨by simp, fun stored => ?_⟩
        dsimp only
        split
        · trivial
        · exact ⟨List.mem_singleton_self _, climbs_insertTx ..⟩
  | append id seen events =>
      simp only [transaction, appendTx]
      split
      · trivial
      · refine ⟨by simp, fun stored => ?_⟩
        dsimp only
        split
        · trivial
        · split
          · trivial
          · split
            · trivial
            · exact climbs_insertTx ..

/-! ### Side by side -/

/-- The call of the store that a committed write is. -/
def callOf (name : Timestamp × Writer) : postgresBackend.Call := ⟨.none, name.1, name.2.op⟩

/-- The history of the committed writes, in the order they committed. -/
def historyOf (done : List ((Timestamp × Writer) × StoreAnswer)) (n : Nat) : postgresBackend.Call :=
  (done.map fun entry => callOf entry.1).getD n (callOf (default, .append ⟨0⟩ none []))

end PostgresStore

/-- A state depends on the calls before it. -/
theorem Backend.state_congr {b : Backend} {calls calls' : Nat → b.Call} {n : Nat} (h : ∀ i < n, calls i = calls' i) :
    b.state calls n = b.state calls' n := by
  induction n with
  | zero => rfl
  | succ n ih => rw [Backend.state, Backend.state, ih fun i hi => h i (by omega), h n (by omega)]

namespace PostgresStore

variable {done : List ((Timestamp × Writer) × StoreAnswer)}

theorem historyOf_append (more : List ((Timestamp × Writer) × StoreAnswer)) {i : Nat} (h : i < done.length) :
    historyOf (done ++ more) i = historyOf done i := by
  simp [historyOf, List.getElem?_append_left, h]

theorem state_append (more : List ((Timestamp × Writer) × StoreAnswer)) {n : Nat} (h : n ≤ done.length) :
    postgresBackend.state (historyOf (done ++ more)) n = postgresBackend.state (historyOf done) n :=
  Backend.state_congr fun _ hi => historyOf_append more (hi.trans_le h)

theorem answer_append (more : List ((Timestamp × Writer) × StoreAnswer)) {n : Nat} (h : n < done.length) :
    postgresBackend.answer (historyOf (done ++ more)) n = postgresBackend.answer (historyOf done) n := by
  rw [Backend.answer, Backend.answer, state_append more h.le, historyOf_append more h]

/-- Transactions one after another are the calls of a history. -/
theorem serial_history {rows : Rows RowKey.Row} (h : Serial transaction (rowsOf .empty) done rows) :
    rows = rowsOf (postgresBackend.state (historyOf done) done.length) ∧
      ∀ i (hi : i < done.length), done[i].2 = postgresBackend.answer (historyOf done) i := by
  induction h with
  | nil => exact ⟨rfl, by simp⟩
  | @snoc done rows _ name ih =>
      obtain ⟨rfl, hanswers⟩ := ih
      have hruns := run_transaction (postgresBackend.state (historyOf done) done.length) name
      have hlast : ∀ answer, historyOf (done ++ [(name, answer)]) done.length = callOf name := fun answer => by
        simp [historyOf]
      refine ⟨?_, fun i hi => ?_⟩
      · rw [List.length_append, List.length_singleton, Backend.state, state_append _ le_rfl, hlast, hruns]
        rfl
      · by_cases hbefore : i < done.length
        · rw [List.getElem_append_left hbefore, answer_append _ hbefore]
          exact hanswers i hbefore
        · obtain rfl : i = done.length := by
            rw [List.length_append, List.length_singleton] at hi
            omega
          rw [List.getElem_concat_length rfl, Backend.answer, state_append _ le_rfl, hlast, hruns]
          rfl

/-- A new run of the plain spec `id`, with its first event. -/
def opened (id : Uuid) : StoredRun := ⟨.plain id ⟨3, 2⟩, [.record (.plain id ⟨3, 2⟩) .system (.plain 0) .runStarted]⟩

/-- Two runs of one principal are put, the second twice. The principal's counter is taken by the first while the
others wait. -/
def racers : List (Timestamp × Writer) := [(5, .putRun (opened 1)), (5, .putRun (opened 2)), (6, .putRun (opened 2))]

def turns : List Nat := [0, 1, 0, 1, 1, 0, 0, 0, 0, 0, 0, 0, 0, 0]

end PostgresStore

end Gol
