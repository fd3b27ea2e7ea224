import Mathlib.Data.List.Induction
import Gol.StoreLog

/-! The in-memory store (`InMemoryStore`, `store.rs`): its maps, its outbox and its store order, each behind a
lock. A poisoned lock refuses writes. `put_run` numbers its events before it takes the store-order lock, so
that a refusal there leaves nothing behind rests on the order in which the locks are taken. -/

namespace Gol
open Library

structure OutboxRow where
  principal : Principal
  seq : Nat
  runId : RunId
  runSeq : Nat
  storedMs : Timestamp
  deriving DecidableEq

/-- The row as the ledger keeps it. -/
def OutboxRow.toRow (row : OutboxRow) : Row Principal (RunId × Nat) :=
  ⟨row.principal, row.seq, (row.runId, row.runSeq), row.storedMs⟩

structure Outbox where
  counts : Principal → Nat
  pruned : Principal → Nat
  rows : List OutboxRow

def Outbox.empty : Outbox := ⟨fun _ => 0, fun _ => 0, []⟩

structure InMemoryStore where
  runs : RunId → Option StoredRun
  outbox : Outbox
  order : Nat
  stored : RunId → Option Nat
  runsPoisoned : Bool
  outboxPoisoned : Bool
  storedPoisoned : Bool

namespace InMemoryStore

def empty : InMemoryStore := ⟨fun _ => none, .empty, 0, fun _ => none, false, false, false⟩

/-- What `write` answers for the lock named `name`. -/
def lockPoisoned (name : String) : StoreError := ⟨name ++ " store lock poisoned"⟩

/-- Number `count` events stored in `run`'s log after `stored` events, in its owner's outbox. -/
def number (s : InMemoryStore) (now : Timestamp) (owner : Owner) (run : RunId) (stored count : Nat) :
    InMemoryStore × Except StoreError Unit :=
  if s.outboxPoisoned then (s, .error (lockPoisoned "outbox")) else
  let first := s.outbox.counts (principal owner) + 1
  let rows := (List.range count).map fun n =>
    { principal := principal owner, seq := first + n, runId := run, runSeq := stored + n + 1,
      storedMs := now : OutboxRow }
  ({ s with
      outbox :=
        { s.outbox with
          counts := Function.update s.outbox.counts (principal owner) (first + count - 1)
          rows := s.outbox.rows ++ rows } }, .ok ())

def putRun (s : InMemoryStore) (now : Timestamp) (run : StoredRun) :
    InMemoryStore × Except StoreError PutRun :=
  match checkOneTerminal run.events with
  | .error error => (s, .error error)
  | .ok () =>
      if s.runsPoisoned then (s, .error (lockPoisoned "run")) else
      match s.runs run.spec.runId with
      | some _ => (s, .ok .existed)
      | none =>
          match s.number now run.spec.owner run.spec.runId 0 run.events.length with
          | (s, .error error) => (s, .error error)
          | (s, .ok ()) =>
              let order := s.order + 1
              let s := { s with order := order }
              if s.storedPoisoned then (s, .error (lockPoisoned "run order")) else
              ({ s with
                  stored := Function.update s.stored run.spec.runId (some order)
                  runs := Function.update s.runs run.spec.runId (some run) }, .ok .stored)

def appendChecked (s : InMemoryStore) (now : Timestamp) (id : RunId) (seen : Option Nat)
    (events : List Event) : InMemoryStore × Except StoreError Append :=
  match checkOneTerminal events with
  | .error error => (s, .error error)
  | .ok () =>
      if s.runsPoisoned then (s, .error (lockPoisoned "run")) else
      match s.runs id with
      | none => (s, .ok .missing)
      | some stored =>
          if hasEnded stored.events then (s, .ok .terminal)
          else if seen.any (· ≠ stored.events.length) then (s, .ok .moved)
          else
            match s.number now stored.spec.owner id stored.events.length events.length with
            | (s, .error error) => (s, .error error)
            | (s, .ok ()) =>
                ({ s with
                    runs := Function.update s.runs id
                      (some { stored with events := stored.events ++ events }) }, .ok .appended)

/-- The highest number of each principal's rows stored before `before`. -/
def pruneThrough (before : Timestamp) (rows : List OutboxRow) : Principal → Option Nat :=
  rows.foldl (fun through row =>
    if row.storedMs < before then
      Function.update through row.principal (some (max ((through row.principal).getD 0) row.seq))
    else through) fun _ => none

def pruneOutbox (s : InMemoryStore) (before : Timestamp) : InMemoryStore × Except StoreError Nat :=
  if s.outboxPoisoned then (s, .error (lockPoisoned "outbox")) else
  let through := pruneThrough before s.outbox.rows
  let rows := s.outbox.rows.filter fun row => (through row.principal).all (· < row.seq)
  let pruned := fun principal =>
    match through principal with
    | some last => max (s.outbox.pruned principal) last
    | none => s.outbox.pruned principal
  ({ s with outbox := { s.outbox with rows := rows, pruned := pruned } },
    .ok (s.outbox.rows.length - rows.length))

/-- Reads the rows of `s` and then, having let go of the outbox lock, the runs of `later`. -/
def outboxAfter (s later : InMemoryStore) (owner : Owner) (after limit : Nat) :
    Except StoreError OutboxPage :=
  let rows := (s.outbox.rows.filter fun row => row.principal = principal owner ∧ after < row.seq).take limit
  let entry (row : OutboxRow) : Except StoreError OutboxEntry :=
    match (later.runs row.runId).bind fun run => run.events[row.runSeq - 1]? with
    | some event => .ok ⟨row.seq, row.runId, row.runSeq, event⟩
    | none => .error ⟨s!"outbox entry {row.seq} has no event"⟩
  match rows.mapM entry with
  | .error error => .error error
  | .ok entries => .ok ⟨entries, s.outbox.pruned (principal owner), s.outbox.counts (principal owner)⟩

def runPage (s : InMemoryStore) (id : RunId) (after limit : Nat) : Option StoredRun :=
  (s.runs id).map fun run => { run with events := (run.events.drop after).take limit }

/-- The locks a thread may hold at once: the store order and a writer's outbox are taken after `runs`. -/
inductive Held where
  | runs
  | outbox
  | runsAndOutbox
  | runsAndStored
  deriving DecidableEq

/-- A thread panics and poisons the locks it holds. -/
def poison (s : InMemoryStore) : Held → InMemoryStore
  | .runs => { s with runsPoisoned := true }
  | .outbox => { s with outboxPoisoned := true }
  | .runsAndOutbox => { s with runsPoisoned := true, outboxPoisoned := true }
  | .runsAndStored => { s with runsPoisoned := true, storedPoisoned := true }

def exec (s : InMemoryStore) (now : Timestamp) : StoreOp → InMemoryStore × StoreAnswer
  | .putRun run =>
      let (s, result) := s.putRun now run
      (s, .of .put result)
  | .appendEvents id events =>
      let (s, result) := s.appendChecked now id none events
      (s, .of .append result)
  | .appendEventsAfter id seen events =>
      let (s, result) := s.appendChecked now id (some seen) events
      (s, .of .append result)
  | .pruneOutbox before =>
      let (s, result) := s.pruneOutbox before
      (s, .of .pruned result)

/-! ### Refinement of the log store -/

def view (s : InMemoryStore) : LogStore where
  runs := s.runs
  outbox := ⟨s.outbox.counts, s.outbox.pruned, s.outbox.rows.map OutboxRow.toRow⟩

/-- The store-order lock is taken only while `runs` is held, so a panic that poisons it poisons both. -/
def Disciplined (s : InMemoryStore) : Prop := s.storedPoisoned = true → s.runsPoisoned = true

theorem disciplined_empty : empty.Disciplined := by simp [Disciplined, empty]

theorem Disciplined.poison {s : InMemoryStore} (h : s.Disciplined) (held : Held) :
    (s.poison held).Disciplined := by
  cases held <;> simp_all [Disciplined, InMemoryStore.poison]

@[simp] theorem view_poison (s : InMemoryStore) (held : Held) : (s.poison held).view = s.view := by
  cases held <;> rfl

theorem Disciplined.poisonAll {s : InMemoryStore} (h : s.Disciplined) (held : List Held) :
    (held.foldl InMemoryStore.poison s).Disciplined := by
  induction held generalizing s with
  | nil => exact h
  | cons first held ih => exact ih (h.poison first)

theorem view_poisonAll (s : InMemoryStore) (held : List Held) :
    (held.foldl InMemoryStore.poison s).view = s.view := by
  induction held generalizing s with
  | nil => rfl
  | cons first held ih => rw [List.foldl_cons, ih, view_poison]

/-- The loop that pushes a batch's rows numbers them as the ledger does. -/
theorem rows_eq_rowsAfter (principal : Principal) (now : Timestamp) (run : RunId) (last stored count : Nat) :
    ((List.range count).map fun n =>
        ({ principal := principal, seq := last + 1 + n, runId := run, runSeq := stored + n + 1,
           storedMs := now : OutboxRow }).toRow) =
      rowsAfter principal now last (LogStore.positions run stored count) := by
  induction count generalizing last stored with
  | zero => rfl
  | succ count ih =>
      rw [List.range_succ_eq_map, List.map_cons, List.map_map, LogStore.positions, List.range'_succ,
        List.map_cons, rowsAfter]
      congr 1
      have hnext := ih (last + 1) (stored + 1)
      rw [LogStore.positions] at hnext
      rw [← hnext]
      apply List.map_congr_left
      intro n _
      simp [OutboxRow.toRow]
      omega

theorem number_spec (s : InMemoryStore) (now : Timestamp) (owner : Owner) (run : RunId)
    (stored count : Nat) :
    (∃ error, s.number now owner run stored count = (s, .error error)) ∨
    (∃ outbox, s.number now owner run stored count = ({ s with outbox := outbox }, .ok ()) ∧
      ({ s with outbox := outbox } : InMemoryStore).view.outbox =
        s.view.outbox.number (principal owner) (LogStore.positions run stored count) now) := by
  unfold number
  split
  · exact .inl ⟨_, rfl⟩
  · refine .inr ⟨_, rfl, ?_⟩
    simp only [view, Ledger.number, List.map_append, List.map_map]
    congr 1
    · congr 1
      simp [LogStore.positions]
    · congr 1
      exact rows_eq_rowsAfter _ _ _ _ _ _

theorem putRun_refines {s : InMemoryStore} (h : s.Disciplined) (now : Timestamp) (run : StoredRun) :
    ((s.putRun now run).1.view, StoreAnswer.of .put (s.putRun now run).2) = s.view.putRun now run ∨
    (∃ error, s.putRun now run = (s, .error error)) := by
  unfold putRun LogStore.putRun
  cases checkOneTerminal run.events with
  | error error => exact .inl rfl
  | ok _ =>
      dsimp only
      split
      · exact .inr ⟨_, rfl⟩
      · next hruns =>
          have hview : s.view.runs = s.runs := rfl
          rw [hview]
          cases s.runs run.spec.runId with
          | some stored => exact .inl rfl
          | none =>
              rcases s.number_spec now run.spec.owner run.spec.runId 0 run.events.length with
                ⟨error, herror⟩ | ⟨outbox, hok, houtbox⟩
              · rw [herror]
                exact .inr ⟨error, rfl⟩
              · -- The lock order makes this refusal unreachable once `runs` was not poisoned.
                have hstored : s.storedPoisoned = false := by
                  cases hpoison : s.storedPoisoned with
                  | false => rfl
                  | true => exact absurd (h hpoison) hruns
                rw [hok]
                simp only [hstored, Bool.false_eq_true, ↓reduceIte]
                refine .inl (Prod.ext ?_ rfl)
                simp only [LogStore.extend, List.nil_append, List.length_nil, ← houtbox]
                rfl

theorem appendChecked_refines (s : InMemoryStore) (now : Timestamp) (id : RunId) (seen : Option Nat)
    (events : List Event) :
    ((s.appendChecked now id seen events).1.view,
        StoreAnswer.of .append (s.appendChecked now id seen events).2) =
      s.view.appendChecked now id seen events ∨
    (∃ error, s.appendChecked now id seen events = (s, .error error)) := by
  unfold appendChecked LogStore.appendChecked
  cases checkOneTerminal events with
  | error error => exact .inl rfl
  | ok _ =>
      dsimp only
      split
      · exact .inr ⟨_, rfl⟩
      · have hview : s.view.runs = s.runs := rfl
        rw [hview]
        cases s.runs id with
        | none => exact .inl rfl
        | some stored =>
            dsimp only
            split
            · exact .inl rfl
            · split
              · exact .inl rfl
              · rcases s.number_spec now stored.spec.owner id stored.events.length events.length with
                  ⟨error, herror⟩ | ⟨outbox, hok, houtbox⟩
                · rw [herror]
                  exact .inr ⟨error, rfl⟩
                · rw [hok]
                  refine .inl (Prod.ext ?_ rfl)
                  simp only [LogStore.extend, ← houtbox]
                  rfl

/-- The loop over the rows finds the ledger's highest old number of each principal. -/
theorem pruneThrough_eq (counts pruned : Principal → Nat) (before : Timestamp) (rows : List OutboxRow) :
    pruneThrough before rows = (Ledger.mk counts pruned (rows.map OutboxRow.toRow)).through before := by
  induction rows using List.reverseRecOn with
  | nil => rfl
  | append_singleton rows row ih =>
      have hstep : pruneThrough before (rows ++ [row]) =
          if row.storedMs < before then
            Function.update (pruneThrough before rows) row.principal
              (some (max ((pruneThrough before rows row.principal).getD 0) row.seq))
          else pruneThrough before rows := by
        simp only [pruneThrough, List.foldl_append, List.foldl_cons, List.foldl_nil]
      funext principal
      rw [hstep, List.map_append, List.map_cons, List.map_nil, Ledger.through_snoc, ← ih]
      by_cases hold : row.storedMs < before
      · by_cases hkey : principal = row.principal
        · subst hkey
          simp [OutboxRow.toRow, hold]
        · simp [OutboxRow.toRow, hold, hkey, Ne.symm hkey]
      · simp [OutboxRow.toRow, hold]

theorem pruneOutbox_refines (s : InMemoryStore) (before : Timestamp) :
    ((s.pruneOutbox before).1.view, StoreAnswer.of .pruned (s.pruneOutbox before).2) =
      s.view.pruneOutbox before ∨
    (∃ error, s.pruneOutbox before = (s, .error error)) := by
  unfold pruneOutbox
  split
  · exact .inr ⟨_, rfl⟩
  · have hrows : (s.outbox.rows.filter fun row =>
        (pruneThrough before s.outbox.rows row.principal).all (· < row.seq)).map OutboxRow.toRow =
        (s.view.outbox.prune before).rows := by
      rw [pruneThrough_eq s.outbox.counts s.outbox.pruned]
      simp only [view, Ledger.prune, List.filter_map]
      rfl
    refine .inl (Prod.ext ?_ ?_)
    · simp only [view, LogStore.pruneOutbox, hrows]
      congr 2
      funext principal
      rw [pruneThrough_eq s.outbox.counts s.outbox.pruned]
      cases (Ledger.mk s.outbox.counts s.outbox.pruned (s.outbox.rows.map OutboxRow.toRow)).through before
        principal <;> simp
    · have hlength := congrArg List.length hrows
      rw [List.length_map] at hlength
      simp only [StoreAnswer.of, LogStore.pruneOutbox, hlength]
      simp [view]

/-- A write makes the log store's step, or is refused with nothing written. -/
theorem exec_refines {s : InMemoryStore} (h : s.Disciplined) (now : Timestamp) (op : StoreOp) :
    ((s.exec now op).1.view, (s.exec now op).2) = s.view.exec now op ∨
    (∃ error, s.exec now op = (s, .failed error)) := by
  cases op with
  | putRun run =>
      rcases putRun_refines h now run with heq | ⟨error, heq⟩
      · exact .inl heq
      · exact .inr ⟨error, by rw [exec, heq]; rfl⟩
  | appendEvents id events =>
      rcases s.appendChecked_refines now id none events with heq | ⟨error, heq⟩
      · exact .inl heq
      · exact .inr ⟨error, by rw [exec, heq]; rfl⟩
  | appendEventsAfter id seen events =>
      rcases s.appendChecked_refines now id (some seen) events with heq | ⟨error, heq⟩
      · exact .inl heq
      · exact .inr ⟨error, by rw [exec, heq]; rfl⟩
  | pruneOutbox before =>
      rcases s.pruneOutbox_refines before with heq | ⟨error, heq⟩
      · exact .inl heq
      · exact .inr ⟨error, by rw [exec, heq]; rfl⟩

theorem number_poisoned (s : InMemoryStore) (now : Timestamp) (owner : Owner) (run : RunId)
    (stored count : Nat) :
    (s.number now owner run stored count).1.runsPoisoned = s.runsPoisoned ∧
    (s.number now owner run stored count).1.storedPoisoned = s.storedPoisoned := by
  rcases s.number_spec now owner run stored count with ⟨error, heq⟩ | ⟨outbox, heq, -⟩ <;>
    exact ⟨by rw [heq], by rw [heq]⟩

/-- A write poisons no lock. -/
theorem Disciplined.exec {s : InMemoryStore} (h : s.Disciplined) (now : Timestamp) (op : StoreOp) :
    (s.exec now op).1.Disciplined := by
  have hnumber := s.number_poisoned now
  have happend : ∀ id seen events, (s.appendChecked now id seen events).1.Disciplined := by
    intro id seen events
    unfold appendChecked Disciplined
    grind [Disciplined]
  cases op with
  | putRun run =>
      simp only [InMemoryStore.exec, putRun]
      unfold Disciplined at h ⊢
      grind
  | appendEvents id events => exact happend id none events
  | appendEventsAfter id seen events => exact happend id (some seen) events
  | pruneOutbox before =>
      simp only [InMemoryStore.exec, pruneOutbox]
      split <;> exact h

/-- A page is read as the log store reads it. -/
theorem outboxAfter_eq (s later : InMemoryStore) (owner : Owner) (after limit : Nat) :
    s.outboxAfter later owner after limit = s.view.outboxAfter later.view owner after limit := by
  simp only [outboxAfter, LogStore.outboxAfter, view, List.filter_map, ← List.map_take, List.mapM_map]
  rfl

end InMemoryStore
end Gol
