import Gol.LibraryLedger
import Gol.ProtocolReduce

/-! The run-log store as its callers see it (`trait RunStore` and `OutboxStore`, `store.rs`): each run's spec
and log, and a ledger that numbers every stored event for the run's principal. Each write is one atomic step
`LogStore.exec`; the in-memory and the Postgres store both refine it. -/

namespace Gol
open Library

structure StoredRun where
  spec : RunSpec
  events : List Event
  deriving DecidableEq

structure StoreError where
  message : String
  deriving DecidableEq

inductive PutRun where
  | stored
  | existed
  deriving DecidableEq

inductive Append where
  | appended
  | terminal
  | missing
  | moved
  deriving DecidableEq

abbrev Principal := String × String

/-- The key an owner's outbox is kept under. -/
def principal (owner : Owner) : Principal := (owner.issuer, owner.subject)

/-- A batch ends at its terminal event, if it has one. -/
def checkOneTerminal (events : List Event) : Except StoreError Unit :=
  let afterTerminal :=
    (events.findIdx? fun event => isTerminal event.payload).any fun at_ => at_ + 1 < events.length
  if afterTerminal then .error ⟨"a batch holds an event after its terminal event"⟩ else .ok ()

/-- The log holds at most one terminal event, and that is its last. -/
abbrev EndsAtTerminal (events : List Event) : Prop := EndsOnce (fun event => isTerminal event.payload) events

theorem checkOneTerminal_ok_iff (events : List Event) :
    checkOneTerminal events = .ok () ↔ EndsAtTerminal events := by
  rw [EndsAtTerminal, endsOnce_iff_findIdx?, checkOneTerminal]
  cases hfind : events.findIdx? fun event => isTerminal event.payload with
  | none => simp
  | some at_ =>
      have hlt : at_ < events.length := (List.findIdx?_eq_some_iff_getElem.mp hfind).1
      by_cases hlast : at_ + 1 = events.length
      · simp [hlast]
      · have hafter : at_ + 1 < events.length := by omega
        simp [hlast, hafter]

/-! ### Operations -/

inductive StoreOp where
  | putRun (run : StoredRun)
  | appendEvents (id : RunId) (events : List Event)
  | appendEventsAfter (id : RunId) (seen : Nat) (events : List Event)
  | pruneOutbox (before : Timestamp)
  deriving DecidableEq

inductive StoreAnswer where
  | put (done : PutRun)
  | append (done : Append)
  | pruned (count : Nat)
  | failed (error : StoreError)
  deriving DecidableEq

/-- What a caller of the trait sees of a result. -/
def StoreAnswer.of {α : Type} (done : α → StoreAnswer) : Except StoreError α → StoreAnswer
  | .ok value => done value
  | .error error => .failed error

/-- The answers that say nothing was written. -/
def StoreAnswer.isRefusal : StoreAnswer → Bool
  | .put .existed | .append .terminal | .append .missing | .append .moved | .failed _ => true
  | _ => false

@[ext] structure LogStore where
  runs : RunId → Option StoredRun
  /-- Each row's item is the run it names and the event's position there, from 1. -/
  outbox : Ledger Principal (RunId × Nat)

namespace LogStore

def empty : LogStore := ⟨fun _ => none, .empty⟩

/-- The positions of `count` events stored in `run`'s log after `stored` events. -/
def positions (run : RunId) (stored count : Nat) : List (RunId × Nat) :=
  (List.range' (stored + 1) count).map fun seq => (run, seq)

/-- Store `events` at the end of `run`'s log, under `id`, numbered in its owner's outbox. -/
def extend (s : LogStore) (now : Timestamp) (id : RunId) (run : StoredRun) (events : List Event) :
    LogStore where
  runs := Function.update s.runs id (some { run with events := run.events ++ events })
  outbox := s.outbox.number (principal run.spec.owner)
    (positions id run.events.length events.length) now

def putRun (s : LogStore) (now : Timestamp) (run : StoredRun) : LogStore × StoreAnswer :=
  match checkOneTerminal run.events with
  | .error error => (s, .failed error)
  | .ok () =>
      match s.runs run.spec.runId with
      | some _ => (s, .put .existed)
      | none => (s.extend now run.spec.runId ⟨run.spec, []⟩ run.events, .put .stored)

def appendChecked (s : LogStore) (now : Timestamp) (id : RunId) (seen : Option Nat) (events : List Event) :
    LogStore × StoreAnswer :=
  match checkOneTerminal events with
  | .error error => (s, .failed error)
  | .ok () =>
      match s.runs id with
      | none => (s, .append .missing)
      | some stored =>
          if hasEnded stored.events then (s, .append .terminal)
          else if seen.any (· ≠ stored.events.length) then (s, .append .moved)
          else (s.extend now id stored events, .append .appended)

def pruneOutbox (s : LogStore) (before : Timestamp) : LogStore × StoreAnswer :=
  let kept := s.outbox.prune before
  ({ s with outbox := kept }, .pruned (s.outbox.rows.length - kept.rows.length))

/-- One write of the store, made at `now`. -/
def exec (s : LogStore) (now : Timestamp) : StoreOp → LogStore × StoreAnswer
  | .putRun run => s.putRun now run
  | .appendEvents id events => s.appendChecked now id none events
  | .appendEventsAfter id seen events => s.appendChecked now id (some seen) events
  | .pruneOutbox before => s.pruneOutbox before

/-! ### Reading the outbox -/

end LogStore

structure OutboxEntry where
  seq : Nat
  runId : RunId
  runSeq : Nat
  event : Event
  deriving DecidableEq

structure OutboxPage where
  entries : List OutboxEntry
  prunedThrough : Nat
  last : Nat
  deriving DecidableEq

namespace LogStore

/-- The event a row names in the logs of `s`. -/
def entryOf (s : LogStore) (row : Row Principal (RunId × Nat)) : Except StoreError OutboxEntry :=
  match (s.runs row.item.1).bind fun run => run.events[row.item.2 - 1]? with
  | some event => .ok ⟨row.seq, row.item.1, row.item.2, event⟩
  | none => .error ⟨s!"outbox entry {row.seq} has no event"⟩

/-- The entries of `owner`'s outbox after `after`, at most `limit`, read from the rows of `s` and the logs of
`later`. -/
def outboxAfter (s later : LogStore) (owner : Owner) (after limit : Nat) : Except StoreError OutboxPage :=
  let rows := (s.outbox.rows.filter fun row => row.key = principal owner ∧ after < row.seq).take limit
  match rows.mapM later.entryOf with
  | .error error => .error error
  | .ok entries => .ok ⟨entries, s.outbox.pruned (principal owner), s.outbox.counts (principal owner)⟩

/-- The run with at most `limit` of its events: those after the first `after`. -/
def runPage (s : LogStore) (id : RunId) (after limit : Nat) : Option StoredRun :=
  (s.runs id).map fun run => { run with events := (run.events.drop after).take limit }

/-! ### What a write can change -/

/-- Every change a write makes to the store: none, one batch at the end of an open or new log, or a prune. -/
inductive Change : LogStore → LogStore → Prop
  | keep (s : LogStore) : Change s s
  | extend (s : LogStore) (now : Timestamp) (id : RunId) (run : StoredRun) (events : List Event)
      (hrun : s.runs id = some run ∨ (s.runs id = none ∧ run.events = [] ∧ run.spec.runId = id))
      (hopen : hasEnded run.events = false) (hends : EndsAtTerminal events) :
      Change s (s.extend now id run events)
  | prune (s : LogStore) (before : Timestamp) : Change s { s with outbox := s.outbox.prune before }

theorem putRun_cases (s : LogStore) (now : Timestamp) (run : StoredRun) :
    ((s.putRun now run).1 = s ∧ (s.putRun now run).2.isRefusal = true) ∨
    (s.runs run.spec.runId = none ∧ EndsAtTerminal run.events ∧
      s.putRun now run = (s.extend now run.spec.runId ⟨run.spec, []⟩ run.events, .put .stored)) := by
  unfold putRun
  cases hcheck : checkOneTerminal run.events with
  | error error => exact .inl ⟨rfl, rfl⟩
  | ok _ =>
      cases hrun : s.runs run.spec.runId with
      | some stored => exact .inl ⟨rfl, rfl⟩
      | none => exact .inr ⟨rfl, (checkOneTerminal_ok_iff _).mp hcheck, rfl⟩

theorem appendChecked_cases (s : LogStore) (now : Timestamp) (id : RunId) (seen : Option Nat)
    (events : List Event) :
    ((s.appendChecked now id seen events).1 = s ∧
      (s.appendChecked now id seen events).2.isRefusal = true) ∨
    (∃ stored, s.runs id = some stored ∧ hasEnded stored.events = false ∧ EndsAtTerminal events ∧
      (∀ n, seen = some n → n = stored.events.length) ∧
      s.appendChecked now id seen events = (s.extend now id stored events, .append .appended)) := by
  unfold appendChecked
  cases hcheck : checkOneTerminal events with
  | error error => exact .inl ⟨rfl, rfl⟩
  | ok _ =>
      cases hrun : s.runs id with
      | none => exact .inl ⟨rfl, rfl⟩
      | some stored =>
          dsimp only
          split
          · exact .inl ⟨rfl, rfl⟩
          · next hopen =>
              split
              · exact .inl ⟨rfl, rfl⟩
              · next hseen =>
                  refine .inr ⟨stored, rfl, by simpa using hopen, (checkOneTerminal_ok_iff _).mp hcheck, ?_, rfl⟩
                  rintro n rfl
                  simpa using hseen

theorem exec_change (s : LogStore) (now : Timestamp) (op : StoreOp) : s.Change (s.exec now op).1 := by
  have happend : ∀ id seen events, s.Change (s.appendChecked now id seen events).1 := by
    intro id seen events
    rcases s.appendChecked_cases now id seen events with ⟨hkeep, -⟩ | ⟨stored, hrun, hopen, hends, -, heq⟩
    · rw [hkeep]
      exact .keep s
    · rw [heq]
      exact .extend s now id stored events (.inl hrun) hopen hends
  cases op with
  | putRun run =>
      rcases s.putRun_cases now run with ⟨hkeep, -⟩ | ⟨hnone, hends, heq⟩
      · rw [exec, hkeep]
        exact .keep s
      · rw [exec, heq]
        exact .extend s now run.spec.runId ⟨run.spec, []⟩ run.events (.inr ⟨hnone, rfl, rfl⟩) rfl hends
  | appendEvents id events => exact happend id none events
  | appendEventsAfter id seen events => exact happend id (some seen) events
  | pruneOutbox before => exact .prune s before

/-- An answer that says nothing was written is true. -/
theorem exec_refused (s : LogStore) (now : Timestamp) (op : StoreOp)
    (h : (s.exec now op).2.isRefusal = true) : (s.exec now op).1 = s := by
  have happend : ∀ id seen events, (s.appendChecked now id seen events).2.isRefusal = true →
      (s.appendChecked now id seen events).1 = s := by
    intro id seen events h
    rcases s.appendChecked_cases now id seen events with ⟨hkeep, -⟩ | ⟨stored, -, -, -, -, heq⟩
    · exact hkeep
    · simp [heq, StoreAnswer.isRefusal] at h
  cases op with
  | putRun run =>
      rcases s.putRun_cases now run with ⟨hkeep, -⟩ | ⟨-, -, heq⟩
      · exact hkeep
      · simp [exec, heq, StoreAnswer.isRefusal] at h
  | appendEvents id events => exact happend id none events h
  | appendEventsAfter id seen events => exact happend id (some seen) events h
  | pruneOutbox before => simp [exec, pruneOutbox, StoreAnswer.isRefusal] at h

/-- An accepted `append_events_after` found the log as long as its writer saw it. -/
theorem exec_appendEventsAfter {s : LogStore} {now : Timestamp} {id : RunId} {seen : Nat}
    {events : List Event}
    (h : (s.exec now (.appendEventsAfter id seen events)).2 = .append .appended) :
    ∃ stored, s.runs id = some stored ∧ stored.events.length = seen ∧
      (s.exec now (.appendEventsAfter id seen events)).1 = s.extend now id stored events := by
  rcases s.appendChecked_cases now id (some seen) events with
    ⟨-, hrefusal⟩ | ⟨stored, hrun, -, -, hseen, heq⟩
  · rw [exec] at h
    simp [h, StoreAnswer.isRefusal] at hrefusal
  · exact ⟨stored, hrun, (hseen seen rfl).symm, by rw [exec, heq]⟩

/-! ### Runs only grow -/

/-- Each run of `s` is stored in `later` with the same spec and a log that extends it. -/
def Grows (s later : LogStore) : Prop :=
  ∀ id run, s.runs id = some run →
    ∃ more, later.runs id = some { run with events := run.events ++ more }

theorem Grows.refl (s : LogStore) : s.Grows s := fun _ _ hrun => ⟨[], by simpa using hrun⟩

theorem Grows.trans {s mid later : LogStore} (h : s.Grows mid) (h' : mid.Grows later) : s.Grows later := by
  intro id run hrun
  obtain ⟨more, hmid⟩ := h id run hrun
  obtain ⟨rest, hlater⟩ := h' id _ hmid
  exact ⟨more ++ rest, by simpa using hlater⟩

@[simp] theorem extend_runs_self (s : LogStore) (now : Timestamp) (id : RunId) (run : StoredRun)
    (events : List Event) :
    (s.extend now id run events).runs id = some { run with events := run.events ++ events } := by
  simp [extend]

theorem extend_runs_of_ne (s : LogStore) (now : Timestamp) {id other : RunId} (h : other ≠ id)
    (run : StoredRun) (events : List Event) : (s.extend now id run events).runs other = s.runs other := by
  simp [extend, h]

theorem Change.grows {s later : LogStore} (h : s.Change later) : s.Grows later := by
  cases h with
  | keep => exact .refl s
  | prune before => exact fun _ _ hrun => ⟨[], by simpa using hrun⟩
  | extend now id run events hrun hopen hends =>
      intro other stored hstored
      by_cases hid : other = id
      · subst hid
        rcases hrun with hrun | ⟨hnone, -⟩
        · rw [hrun, Option.some.injEq] at hstored
          subst hstored
          exact ⟨events, s.extend_runs_self now other run events⟩
        · rw [hnone] at hstored
          contradiction
      · exact ⟨[], by simpa [s.extend_runs_of_ne now hid] using hstored⟩

theorem Change.pruned_le {s later : LogStore} (h : s.Change later) (principal : Principal) :
    s.outbox.pruned principal ≤ later.outbox.pruned principal := by
  cases h with
  | keep => exact Nat.le_refl _
  | prune before => exact s.outbox.pruned_le_prune before principal
  | extend now id run events hrun hopen hends => exact Nat.le_refl _

theorem Change.counts_le {s later : LogStore} (h : s.Change later) (principal : Principal) :
    s.outbox.counts principal ≤ later.outbox.counts principal := by
  cases h with
  | keep => exact Nat.le_refl _
  | prune before => exact Nat.le_refl _
  | extend now id run events hrun hopen hends =>
      by_cases hsame : principal = Gol.principal run.spec.owner
      · rw [hsame, LogStore.extend, Ledger.number_counts_self]
        exact Nat.le_add_right _ _
      · rw [LogStore.extend]
        exact Nat.le_of_eq (Ledger.number_counts_of_ne _ hsame _ _).symm

/-! ### What every reachable store keeps -/

abbrev Issued := List (Row Principal (RunId × Nat))

/-- Each log ends at its terminal event, and the rows ever issued are the positions of the stored events,
each in the outbox of its run's principal. -/
structure Sound (s : LogStore) (issued : Issued) : Prop where
  accounts : s.outbox.Accounts issued
  ends : ∀ id run, s.runs id = some run → EndsAtTerminal run.events
  keyed : ∀ id run, s.runs id = some run → run.spec.runId = id
  placed : ∀ id run, s.runs id = some run →
    (issued.filter (·.item.1 = id)).map (·.item.2) = List.range' 1 run.events.length
  owned : ∀ row ∈ issued, ∃ run, s.runs row.item.1 = some run ∧ row.key = principal run.spec.owner

theorem sound_empty : empty.Sound [] where
  accounts := Ledger.accounts_empty
  ends _ _ h := by simp [empty] at h
  keyed _ _ h := by simp [empty] at h
  placed _ _ h := by simp [empty] at h
  owned _ h := by simp at h

theorem item_of_mem_newRows {key : Principal} {now : Timestamp} {last : Nat} {id : RunId}
    {stored count : Nat} {row : Row Principal (RunId × Nat)}
    (h : row ∈ rowsAfter key now last (positions id stored count)) : row.item.1 = id := by
  have hitem : row.item ∈ (rowsAfter key now last (positions id stored count)).map Row.item :=
    List.mem_map_of_mem h
  rw [item_rowsAfter, positions] at hitem
  obtain ⟨seq, -, heq⟩ := List.mem_map.mp hitem
  rw [← heq]

theorem seqs_newRows (key : Principal) (now : Timestamp) (last : Nat) (id : RunId) (stored count : Nat) :
    (rowsAfter key now last (positions id stored count)).map (·.item.2) =
      List.range' (stored + 1) count := by
  have hcomp : (rowsAfter key now last (positions id stored count)).map (·.item.2) =
      ((rowsAfter key now last (positions id stored count)).map Row.item).map Prod.snd := by
    rw [List.map_map]
    rfl
  rw [hcomp, item_rowsAfter, positions, List.map_map]
  exact List.map_id _

/-- A log not stored yet has no rows; a stored one has a row for each event. -/
theorem Sound.placed_before {s : LogStore} {issued : Issued} (h : s.Sound issued) {id : RunId}
    {run : StoredRun}
    (hrun : s.runs id = some run ∨ (s.runs id = none ∧ run.events = [] ∧ run.spec.runId = id)) :
    (issued.filter (·.item.1 = id)).map (·.item.2) = List.range' 1 run.events.length := by
  rcases hrun with hrun | ⟨hnone, hnil, -⟩
  · exact h.placed id run hrun
  · rw [hnil, List.length_nil, List.range'_zero, List.map_eq_nil_iff, List.filter_eq_nil_iff]
    intro row hrow hid
    obtain ⟨other, hother, -⟩ := h.owned row hrow
    simp only [decide_eq_true_eq] at hid
    rw [hid, hnone] at hother
    contradiction

theorem Sound.extend {s : LogStore} {issued : Issued} (h : s.Sound issued) (now : Timestamp) {id : RunId}
    {run : StoredRun} {events : List Event}
    (hrun : s.runs id = some run ∨ (s.runs id = none ∧ run.events = [] ∧ run.spec.runId = id))
    (hopen : hasEnded run.events = false) (hends : EndsAtTerminal events) :
    (s.extend now id run events).Sound
      (issued ++ rowsAfter (principal run.spec.owner) now (s.outbox.counts (principal run.spec.owner))
        (positions id run.events.length events.length)) where
  accounts := h.accounts.number _ _ _
  ends other stored hstored := by
    by_cases hid : other = id
    · subst hid
      rw [extend_runs_self, Option.some.injEq] at hstored
      subst hstored
      exact EndsOnce.append hopen hends
    · rw [s.extend_runs_of_ne now hid] at hstored
      exact h.ends other stored hstored
  keyed other stored hstored := by
    by_cases hid : other = id
    · subst hid
      rw [extend_runs_self, Option.some.injEq] at hstored
      subst hstored
      rcases hrun with hrun | ⟨-, -, hkey⟩
      · exact h.keyed other run hrun
      · exact hkey
    · rw [s.extend_runs_of_ne now hid] at hstored
      exact h.keyed other stored hstored
  placed other stored hstored := by
    rw [List.filter_append, List.map_append]
    by_cases hid : other = id
    · subst hid
      rw [extend_runs_self, Option.some.injEq] at hstored
      subst hstored
      have hnew : ∀ row ∈ rowsAfter (principal run.spec.owner) now
          (s.outbox.counts (principal run.spec.owner))
          (positions other run.events.length events.length), decide (row.item.1 = other) = true := by
        intro row hrow
        simpa using item_of_mem_newRows hrow
      rw [h.placed_before hrun, List.filter_eq_self.mpr hnew, seqs_newRows, List.length_append,
        Nat.add_comm run.events.length 1, List.range'_append_1]
    · rw [s.extend_runs_of_ne now hid] at hstored
      rw [h.placed other stored hstored, List.filter_eq_nil_iff.mpr, List.map_nil, List.append_nil]
      intro row hrow
      rw [item_of_mem_newRows hrow]
      simpa using Ne.symm hid
  owned row hrow := by
    rcases List.mem_append.mp hrow with hold | hnew
    · obtain ⟨stored, hstored, hkey⟩ := h.owned row hold
      by_cases hid : row.item.1 = id
      · rw [hid] at hstored
        rcases hrun with hrun | ⟨hnone, -⟩
        · rw [hrun, Option.some.injEq] at hstored
          exact ⟨_, by rw [hid, extend_runs_self], by rw [hkey, hstored]⟩
        · rw [hnone] at hstored
          contradiction
      · exact ⟨stored, by rw [s.extend_runs_of_ne now hid, hstored], hkey⟩
    · refine ⟨{ run with events := run.events ++ events }, ?_, key_of_mem_rowsAfter hnew⟩
      rw [item_of_mem_newRows hnew, extend_runs_self]

/-- A write keeps the store sound for the rows issued so far and those it issues. -/
theorem Sound.change {s later : LogStore} {issued : Issued} (h : s.Sound issued) (hchange : s.Change later) :
    later.Sound (issued ++ fresh s.outbox.rows later.outbox.rows) := by
  cases hchange with
  | keep => rwa [fresh_self, List.append_nil]
  | prune before =>
      rw [Ledger.fresh_prune, List.append_nil]
      exact ⟨h.accounts.prune before, h.ends, h.keyed, h.placed, h.owned⟩
  | extend now id run events hrun hopen hends =>
      rw [LogStore.extend, Ledger.fresh_number h.accounts]
      exact h.extend now hrun hopen hends

/-! ### What a row names -/

theorem Sound.position {s : LogStore} {issued : Issued} (h : s.Sound issued)
    {row : Row Principal (RunId × Nat)} (hrow : row ∈ issued) :
    ∃ run, s.runs row.item.1 = some run ∧ row.key = principal run.spec.owner ∧
      1 ≤ row.item.2 ∧ row.item.2 ≤ run.events.length := by
  obtain ⟨run, hrun, hkey⟩ := h.owned row hrow
  have hmem : row.item.2 ∈ (issued.filter (·.item.1 = row.item.1)).map (·.item.2) :=
    List.mem_map_of_mem (List.mem_filter.mpr ⟨hrow, by simp⟩)
  rw [h.placed _ run hrun, List.mem_range'_1] at hmem
  exact ⟨run, hrun, hkey, by omega, by omega⟩

/-- Row `i` of a run's rows is that of event `i`. -/
theorem Sound.row_at {s : LogStore} {issued : Issued} (h : s.Sound issued) {id : RunId} {run : StoredRun}
    (hrun : s.runs id = some run) {i : Nat} {row : Row Principal (RunId × Nat)}
    (hrow : (issued.filter (·.item.1 = id))[i]? = some row) : row.item = (id, i + 1) := by
  have hseq : ((issued.filter (·.item.1 = id)).map (·.item.2))[i]? = some row.item.2 := by
    rw [List.getElem?_map, hrow]
    rfl
  rw [h.placed id run hrun, List.getElem?_eq_some_iff] at hseq
  obtain ⟨_, hseq⟩ := hseq
  rw [List.getElem_range', Nat.one_mul] at hseq
  have hid := (List.mem_filter.mp (List.mem_of_getElem? hrow)).2
  simp only [decide_eq_true_eq] at hid
  rw [← hid, Nat.add_comm i 1, hseq]

/-- Each stored event has exactly one row. -/
theorem Sound.existsUnique_row {s : LogStore} {issued : Issued} (h : s.Sound issued) {id : RunId}
    {run : StoredRun} (hrun : s.runs id = some run) {k : Nat} (hk : k < run.events.length) :
    ∃! row, row ∈ issued ∧ row.item = (id, k + 1) := by
  have hlength : (issued.filter (·.item.1 = id)).length = run.events.length := by
    have := congrArg List.length (h.placed id run hrun)
    simpa using this
  obtain ⟨row, hrow⟩ : ∃ row, (issued.filter (·.item.1 = id))[k]? = some row :=
    ⟨_, List.getElem?_eq_getElem (by omega)⟩
  refine ⟨row, ⟨(List.mem_filter.mp (List.mem_of_getElem? hrow)).1, h.row_at hrun hrow⟩, ?_⟩
  rintro other ⟨hother, hitem⟩
  obtain ⟨i, hi⟩ : ∃ i, (issued.filter (·.item.1 = id))[i]? = some other :=
    List.mem_iff_getElem?.mp (List.mem_filter.mpr ⟨hother, by simp [hitem]⟩)
  have hposition := h.row_at hrun hi
  rw [hitem, Prod.mk.injEq] at hposition
  have hki : k = i := by omega
  rw [← hki, hrow, Option.some.injEq] at hi
  exact hi.symm

/-- The numbers of a run's events increase with their positions. -/
theorem Sound.seq_lt_of_position_lt {s : LogStore} {issued : Issued} (h : s.Sound issued)
    {row row' : Row Principal (RunId × Nat)} (hrow : row ∈ issued) (hrow' : row' ∈ issued)
    (hid : row.item.1 = row'.item.1) (hlt : row.item.2 < row'.item.2) : row.seq < row'.seq := by
  obtain ⟨run, hrun, hkey⟩ := h.owned row hrow
  have hordered : (issued.filter (·.item.1 = row.item.1)).Pairwise (·.seq < ·.seq) := by
    -- All rows of the run are its principal's, whose rows stand in order.
    have hsub : (issued.filter (·.item.1 = row.item.1)).Sublist (issued.filter (·.key = row.key)) := by
      have hfilter : issued.filter (·.item.1 = row.item.1) =
          (issued.filter (·.key = row.key)).filter (·.item.1 = row.item.1) := by
        rw [List.filter_filter]
        apply List.filter_congr
        intro other hother
        by_cases hsame : other.item.1 = row.item.1
        · obtain ⟨run', hrun', hkey'⟩ := h.owned other hother
          rw [hsame, hrun, Option.some.injEq] at hrun'
          simp [hsame, hkey, hkey', hrun']
        · simp [hsame]
      rw [hfilter]
      exact List.filter_sublist
    exact (h.accounts.ordered row.key).sublist hsub
  obtain ⟨i, hi⟩ : ∃ i, (issued.filter (·.item.1 = row.item.1))[i]? = some row :=
    List.mem_iff_getElem?.mp (List.mem_filter.mpr ⟨hrow, by simp⟩)
  obtain ⟨j, hj⟩ : ∃ j, (issued.filter (·.item.1 = row.item.1))[j]? = some row' :=
    List.mem_iff_getElem?.mp (List.mem_filter.mpr ⟨hrow', by simp [hid]⟩)
  have hi' := congrArg Prod.snd (h.row_at hrun hi)
  have hj' := congrArg Prod.snd (h.row_at hrun hj)
  simp only at hi' hj'
  obtain ⟨hilt, hi⟩ := List.getElem?_eq_some_iff.mp hi
  obtain ⟨hjlt, hj⟩ := List.getElem?_eq_some_iff.mp hj
  have hseq := List.pairwise_iff_getElem.mp hordered i j hilt hjlt (by omega)
  rwa [hi, hj] at hseq

/-- The entry is the row's, and its event stands in the run's log of `s` at the row's position. -/
def Names (s : LogStore) (row : Row Principal (RunId × Nat)) (entry : OutboxEntry) : Prop :=
  entry.seq = row.seq ∧ (entry.runId, entry.runSeq) = row.item ∧
    ∃ run, s.runs entry.runId = some run ∧ run.events[entry.runSeq - 1]? = some entry.event

theorem Sound.entryOf_ok {s later : LogStore} {issued : Issued} (h : s.Sound issued) (hgrows : s.Grows later)
    {row : Row Principal (RunId × Nat)} (hrow : row ∈ issued) :
    ∃ entry, later.entryOf row = .ok entry ∧ s.Names row entry := by
  obtain ⟨run, hrun, -, hfirst, hlast⟩ := h.position hrow
  obtain ⟨more, hlater⟩ := hgrows _ run hrun
  have hlt : row.item.2 - 1 < run.events.length := by omega
  refine ⟨⟨row.seq, row.item.1, row.item.2, run.events[row.item.2 - 1]⟩, ?_, rfl, rfl, run, hrun, ?_⟩
  · simp [entryOf, hlater, List.getElem?_append_left hlt, List.getElem?_eq_getElem hlt]
  · exact List.getElem?_eq_getElem hlt

theorem mapM_ok {α β ε : Type} {f : α → Except ε β} {P : α → β → Prop} {rows : List α}
    (h : ∀ row ∈ rows, ∃ entry, f row = .ok entry ∧ P row entry) :
    ∃ entries, rows.mapM f = .ok entries ∧ List.Forall₂ P rows entries := by
  induction rows with
  | nil => exact ⟨[], rfl, .nil⟩
  | cons row rows ih =>
      obtain ⟨entry, hentry, hnames⟩ := h row (by simp)
      obtain ⟨entries, hentries, hall⟩ := ih fun row hrow => h row (by simp [hrow])
      refine ⟨entry :: entries, ?_, .cons hnames hall⟩
      rw [List.mapM_cons, hentry, hentries]
      rfl

/-- A page reads every row it holds, whether or not the logs grew since. -/
theorem Sound.outboxAfter_ok {s later : LogStore} {issued : Issued} (h : s.Sound issued)
    (hgrows : s.Grows later) (owner : Owner) (after limit : Nat) :
    ∃ entries, s.outboxAfter later owner after limit =
        .ok ⟨entries, s.outbox.pruned (principal owner), s.outbox.counts (principal owner)⟩ ∧
      List.Forall₂ s.Names ((s.outbox.rows.filter fun row =>
        row.key = principal owner ∧ after < row.seq).take limit) entries := by
  have hrows : ∀ row ∈ (s.outbox.rows.filter fun row => row.key = principal owner ∧ after < row.seq).take limit,
      ∃ entry, later.entryOf row = .ok entry ∧ s.Names row entry := by
    intro row hrow
    exact h.entryOf_ok hgrows (h.accounts.mem_issued (List.mem_filter.mp (List.mem_of_mem_take hrow)).1)
  obtain ⟨entries, hentries, hall⟩ := mapM_ok hrows
  exact ⟨entries, by simp only [outboxAfter, hentries], hall⟩

end LogStore
end Gol
