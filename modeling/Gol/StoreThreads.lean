import Mathlib.Data.Prod.Lex
import Mathlib.Order.WithBot
import Mathlib.Data.String.Basic
import Gol.LibraryOrder
import Gol.StoreStops

/-! The threads a store's runs make (`trait ThreadStore`, `store.rs`): a thread's runs in order, its coordinator and
the list of a principal's threads. Each is worked out anew from the runs stored, at every read. -/

namespace Gol
open Library

/-- When a run was stored, for ordering: its first event's time. -/
def createdMs (run : StoredRun) : Timestamp := (run.events.head?.map fun event => event.envelope.at_).getD 0

structure ThreadSummary where
  threadId : String
  agentId : AgentId
  startedMs : Timestamp
  runs : Nat
  deriving DecidableEq

namespace StopStore

/-- The runs stored, in an order of no meaning: what is worked out from them sorts them. -/
def values (s : StopStore) : List StoredRun := s.stops.stored.filterMap fun entry => s.logs.runs entry.1

/-- Whether the run is of `owner`'s principal's thread. -/
def inThread (owner : Owner) (thread : String) (run : StoredRun) : Bool :=
  run.spec.owner.is owner && threadOf run.spec = some thread

def threadRuns (s : StopStore) (owner : Owner) (thread : String) : List StoredRun :=
  s.values.filter (inThread owner thread)

/-- By creation time, then by the store's order, then by id. -/
def storeKey (s : StopStore) (run : StoredRun) : Timestamp ×ₗ WithBot Nat ×ₗ Nat :=
  toLex (createdMs run, toLex (s.stops.stored.lookup run.spec.runId, run.spec.runId.uuid.toNat))

def runsOfThread (s : StopStore) (owner : Owner) (thread : String) (limit : Nat) : List StoredRun :=
  (sortByKey s.storeKey (s.threadRuns owner thread)).take limit

/-- By creation time, then by id. -/
def idKey (run : StoredRun) : Timestamp ×ₗ Nat := toLex (createdMs run, run.spec.runId.uuid.toNat)

def isRoot (run : StoredRun) : Bool := run.spec.lineage.parent.isNone

/-- The runs of the thread with no parent. -/
def threadRoots (s : StopStore) (owner : Owner) (thread : String) : List StoredRun :=
  (s.threadRuns owner thread).filter isRoot

def threadRoot (s : StopStore) (owner : Owner) (thread : String) : Option RunSpec :=
  (leastByKey idKey (s.threadRoots owner thread)).map (·.spec)

/-- A thread's first run sets it, and its first run with no parent names its agent and start. -/
def countRun (entry : ThreadSummary × Bool) (run : StoredRun) : ThreadSummary × Bool :=
  let thread := { entry.1 with runs := entry.1.runs + 1 }
  if isRoot run && !entry.2 then
    ({ thread with agentId := run.spec.agentId, startedMs := createdMs run }, true)
  else (thread, entry.2)

/-- The threads seen so far with one more run, of the thread `id`. -/
def countIn (id : String) (run : StoredRun) : List (ThreadSummary × Bool) → List (ThreadSummary × Bool)
  | [] => [countRun (⟨id, run.spec.agentId, createdMs run, 0⟩, false) run]
  | entry :: rest => if entry.1.threadId = id then countRun entry run :: rest else entry :: countIn id run rest

/-- One pass over the runs, oldest first. -/
def countThreads (runs : List StoredRun) : List (ThreadSummary × Bool) :=
  runs.foldl (fun threads run => (threadOf run.spec).elim threads fun id => countIn id run threads) []

/-- Newest first, then by id. -/
def newestKey (thread : ThreadSummary) : Timestamp ×ₗ String := toLex (-thread.startedMs, thread.threadId)

def threadsOf (s : StopStore) (owner : Owner) (after limit : Nat) : List ThreadSummary :=
  let owned := s.values.filter fun run => run.spec.owner.is owner && (threadOf run.spec).isSome
  ((sortByKey newestKey ((countThreads (sortByKey idKey owned)).map Prod.fst)).drop after).take limit

/-! ### The runs stored -/

/-- Every run stored has one number, and no other run has one. -/
structure Numbered (s : StopStore) : Prop where
  id : ∀ id run, s.logs.runs id = some run → run.spec.runId = id
  nodup : (s.stops.stored.map Prod.fst).Nodup
  stored : ∀ id, id ∈ s.stops.stored.map Prod.fst ↔ s.logs.runs id ≠ none
  bounded : ∀ entry ∈ s.stops.stored, entry.2 ≤ s.stops.order

theorem numbered_empty : empty.Numbered where
  id _ _ hrun := by cases hrun
  nodup := List.nodup_nil
  stored _ := ⟨nofun, fun h => absurd rfl h⟩
  bounded _ hmem := by cases hmem

variable {s : StopStore}

theorem runs_ne_none_apply (op : StopOp) {id : RunId} (h : s.logs.runs id ≠ none) :
    (s.apply op).logs.runs id ≠ none := by
  obtain ⟨run, hrun⟩ := Option.ne_none_iff_exists'.mp h
  obtain ⟨later, hlater, -⟩ := runs_kept op hrun
  simp [hlater]

/-- A write stores a new run under the next number, or keeps the runs stored, numbered as they were. -/
theorem apply_cases (s : StopStore) (op : StopOp) :
    (∃ now run, op = .write now (.putRun run) ∧ s.logs.runs run.spec.runId = none ∧ s.apply op = s.put now run) ∨
    ((s.apply op).stops.stored = s.stops.stored ∧ s.stops.order ≤ (s.apply op).stops.order ∧
      ∀ id, (s.apply op).logs.runs id ≠ none → s.logs.runs id ≠ none) := by
  have hkept : (s.apply op).stops.stored = s.stops.stored → ∀ id, (s.apply op).logs.runs id ≠ none →
      s.logs.runs id ≠ none := by
    intro hstored id hid
    obtain ⟨run, hrun⟩ := Option.ne_none_iff_exists'.mp hid
    rcases runs_apply op hrun with ⟨old, hold, -⟩ | ⟨-, -, -, hput⟩
    · simp [hold]
    · have hentries := congrArg Stops.stored hput
      simp [hstored, Stops.putRun] at hentries
  cases op with
  | stop owner scope => exact .inr ⟨rfl, Nat.le_succ _, hkept rfl⟩
  | write now op =>
      rcases s.stops_write now op with heq | ⟨new, hnone, hnew, heq⟩
      · have hstored := congrArg Stops.stored heq
        exact .inr ⟨hstored, Nat.le_of_eq (congrArg Stops.order heq).symm, hkept hstored⟩
      · left
        obtain ⟨run, hrun⟩ := Option.ne_none_iff_exists'.mp hnew
        rcases runs_apply _ hrun with ⟨old, hold, -⟩ | ⟨-, hid, ⟨_, hop⟩, hput⟩
        · simp [hnone] at hold
        · cases hop
          refine ⟨now, run, rfl, hid ▸ hnone, ?_⟩
          rcases s.logs.putRun_cases now run with ⟨hsame, -⟩ | ⟨-, -, hexec⟩
          · have hlogs : (s.apply (.write now (.putRun run))).logs = s.logs := hsame
            rw [hlogs, hnone] at hrun
            cases hrun
          · have hlogs := congrArg Prod.fst hexec
            exact congrArg₂ StopStore.mk hlogs (hid ▸ hput)

theorem Numbered.put (h : s.Numbered) {now : Timestamp} {new : StoredRun} (hnone : s.logs.runs new.spec.runId = none) :
    (s.put now new).Numbered where
  id id run hrun := by
    by_cases hnew : id = new.spec.runId
    · subst hnew
      have hruns : (s.put now new).logs.runs new.spec.runId = some ⟨new.spec, new.events⟩ :=
        LogStore.extend_runs_self ..
      rw [hruns, Option.some.injEq] at hrun
      rw [← hrun]
    · exact h.id id run (LogStore.extend_runs_of_ne _ _ hnew _ _ ▸ hrun)
  nodup := by
    rw [StopStore.put, Stops.putRun, List.map_append, List.nodup_append]
    refine ⟨h.nodup, List.nodup_singleton _, ?_⟩
    rintro id hmem other hother rfl
    rw [List.map_cons, List.map_nil, List.mem_singleton] at hother
    exact (h.stored _).mp hmem (hother ▸ hnone)
  stored id := by
    rw [StopStore.put, Stops.putRun, List.map_append, List.mem_append, List.map_cons, List.map_nil,
      List.mem_singleton, h.stored]
    by_cases hnew : id = new.spec.runId
    · simp [hnew]
    · simp [hnew, LogStore.extend_runs_of_ne _ _ hnew]
  bounded entry hmem := by
    rcases List.mem_append.mp hmem with hmem | hmem
    · exact Nat.le_succ_of_le (h.bounded entry hmem)
    · rw [List.mem_singleton.mp hmem]
      exact Nat.le_refl _

theorem Numbered.apply (h : s.Numbered) (op : StopOp) : (s.apply op).Numbered := by
  rcases s.apply_cases op with ⟨now, new, -, hnone, heq⟩ | ⟨hstored, horder, hback⟩
  · rw [heq]
    exact h.put hnone
  · refine ⟨fun id run hrun => ?_, hstored ▸ h.nodup, fun id => ?_, fun entry hmem => ?_⟩
    · rcases runs_apply op hrun with ⟨old, hold, hspec⟩ | ⟨-, hid, -⟩
      · rw [← hspec]
        exact h.id id old hold
      · exact hid
    · rw [hstored, h.stored]
      exact ⟨runs_ne_none_apply op, hback id⟩
    · exact Nat.le_trans (h.bounded entry (hstored ▸ hmem)) horder

theorem numbered_applyAll (ops : List StopOp) : (empty.applyAll ops).Numbered := by
  suffices hall : ∀ s : StopStore, s.Numbered → (s.applyAll ops).Numbered from hall empty numbered_empty
  induction ops with
  | nil => exact fun s h => h
  | cons op rest ih => exact fun s h => ih _ (h.apply op)

theorem Numbered.mem_values (h : s.Numbered) {run : StoredRun} :
    run ∈ s.values ↔ s.logs.runs run.spec.runId = some run := by
  rw [values, List.mem_filterMap]
  constructor
  · rintro ⟨entry, -, hrun⟩
    rw [h.id _ _ hrun, hrun]
  · intro hrun
    have hmem : run.spec.runId ∈ s.stops.stored.map Prod.fst := (h.stored _).mpr (by simp [hrun])
    obtain ⟨entry, hentry, hid⟩ := List.mem_map.mp hmem
    exact ⟨entry, hentry, hid ▸ hrun⟩

/-- The runs stored have different ids. -/
theorem Numbered.injOn_id (h : s.Numbered) :
    Set.InjOn (fun run : StoredRun => run.spec.runId) {run | run ∈ s.values} := by
  intro a ha b hb hid
  have ha := h.mem_values.mp ha
  have hid : a.spec.runId = b.spec.runId := hid
  rw [hid, h.mem_values.mp hb, Option.some.injEq] at ha
  exact ha.symm

/-- A new run comes after the runs stored. -/
theorem Numbered.values_put (h : s.Numbered) {now : Timestamp} {run : StoredRun}
    (hnone : s.logs.runs run.spec.runId = none) :
    (s.put now run).values = s.values ++ [run] := by
  simp only [values, StopStore.put, Stops.putRun, List.filterMap_append, List.filterMap_cons, LogStore.extend_runs_self,
    List.nil_append, List.filterMap_nil]
  congr 1
  refine List.filterMap_congr fun entry hmem => LogStore.extend_runs_of_ne _ _ ?_ _ _
  rintro hid
  exact (h.stored entry.1).mp (List.mem_map_of_mem hmem) (hid ▸ hnone)

/-- Any other write leaves the runs stored, with longer logs. -/
theorem Numbered.values_kept (h : s.Numbered) {op : StopOp} (hstored : (s.apply op).stops.stored = s.stops.stored) :
    (s.apply op).values = s.values.map fun run => ((s.apply op).logs.runs run.spec.runId).getD run := by
  rw [values, values, hstored, List.map_filterMap]
  refine List.filterMap_congr fun entry hmem => ?_
  obtain ⟨run, hrun⟩ := Option.ne_none_iff_exists'.mp ((h.stored entry.1).mp (List.mem_map_of_mem hmem))
  obtain ⟨later, hlater, -⟩ := runs_kept op hrun
  rw [hrun, Option.map_some, h.id _ _ hrun, hlater, Option.getD_some]

/-- A stored run keeps its spec, and its log grows. -/
theorem Numbered.later_run (h : s.Numbered) (op : StopOp) {run : StoredRun} (hmem : run ∈ s.values) :
    (((s.apply op).logs.runs run.spec.runId).getD run).spec = run.spec ∧
      run.events <+: (((s.apply op).logs.runs run.spec.runId).getD run).events := by
  have hrun := h.mem_values.mp hmem
  cases op with
  | stop owner scope =>
      have hsame : (s.apply (.stop owner scope)).logs.runs run.spec.runId = some run := hrun
      simp [hsame]
  | write now op =>
      obtain ⟨more, hmore⟩ := (s.logs.exec_change now op).grows _ run hrun
      have hlater : (s.apply (.write now op)).logs.runs run.spec.runId =
        some { run with events := run.events ++ more } := hmore
      simp [hlater]

/-! ### The order of a thread -/

theorem threadRuns_subset {owner : Owner} {thread : String} {run : StoredRun} (h : run ∈ s.threadRuns owner thread) :
    run ∈ s.values := List.mem_of_mem_filter h

theorem uuid_toNat_inj {a b : RunId} (h : a.uuid.toNat = b.uuid.toNat) : a = b := by
  obtain ⟨a⟩ := a
  obtain ⟨b⟩ := b
  exact congrArg RunId.mk (BitVec.eq_of_toNat_eq h)

theorem Numbered.injOn_idKey (h : s.Numbered) : Set.InjOn idKey {run | run ∈ s.values} := by
  intro a ha b hb hkey
  have hid := congrArg (fun key => (ofLex key).2) hkey
  exact h.injOn_id ha hb (uuid_toNat_inj hid)

theorem Numbered.injOn_storeKey (h : s.Numbered) : Set.InjOn s.storeKey {run | run ∈ s.values} := by
  intro a ha b hb hkey
  have hid := congrArg (fun key => (ofLex (ofLex key).2).2) hkey
  exact h.injOn_id ha hb (uuid_toNat_inj hid)

theorem Numbered.lookup (h : s.Numbered) {run : StoredRun} (hmem : run ∈ s.values) :
    ∃ number ≤ s.stops.order, s.stops.stored.lookup run.spec.runId = some number := by
  have hkey : run.spec.runId ∈ s.stops.stored.map Prod.fst := (h.stored _).mpr (by simp [h.mem_values.mp hmem])
  cases hlookup : s.stops.stored.lookup run.spec.runId with
  | none =>
      obtain ⟨entry, hentry, hid⟩ := List.mem_map.mp hkey
      simpa [hid] using List.lookup_eq_none_iff.mp hlookup entry hentry
  | some number =>
      obtain ⟨before, after, hsplit, -⟩ := List.lookup_eq_some_iff.mp hlookup
      exact ⟨number, h.bounded (run.spec.runId, number) (hsplit ▸ by simp), rfl⟩

/-- The ids of a thread's runs, in order. -/
def threadIds (s : StopStore) (owner : Owner) (thread : String) : List RunId :=
  (sortByKey s.storeKey (s.threadRuns owner thread)).map (·.spec.runId)

section Put

variable {now : Timestamp} {new : StoredRun} {owner : Owner} {thread : String}

theorem Numbered.threadRuns_put (h : s.Numbered) (hnone : s.logs.runs new.spec.runId = none) :
    (s.put now new).threadRuns owner thread =
      s.threadRuns owner thread ++ if inThread owner thread new then [new] else [] := by
  rw [threadRuns, h.values_put hnone, List.filter_append]
  simp only [List.filter_cons, List.filter_nil, threadRuns]

theorem Numbered.storeKey_put (h : s.Numbered) {run : StoredRun} (hmem : run ∈ s.values) :
    (s.put now new).storeKey run = s.storeKey run := by
  obtain ⟨number, -, hlookup⟩ := h.lookup hmem
  simp only [storeKey, StopStore.put, Stops.lookup_putRun, hlookup, Option.some_or]

/-- The new run takes a place after those created no later. -/
theorem Numbered.storeKey_put_le (h : s.Numbered) (hnone : s.logs.runs new.spec.runId = none) {run : StoredRun}
    (hmem : run ∈ s.values) :
    (s.put now new).storeKey run ≤ (s.put now new).storeKey new ↔ createdMs run ≤ createdMs new := by
  obtain ⟨number, hbound, hlookup⟩ := h.lookup hmem
  have hunnumbered : s.stops.stored.lookup new.spec.runId = none := by
    refine List.lookup_eq_none_iff.mpr fun entry hentry => ?_
    have hne : new.spec.runId ≠ entry.1 := fun hid => (h.stored _).mp (List.mem_map_of_mem hentry) (hid ▸ hnone)
    simpa using hne
  have hless : WithBot.some number < WithBot.some (s.stops.order + 1) :=
    WithBot.coe_lt_coe.mpr (Nat.lt_succ_of_le hbound)
  simp only [storeKey, StopStore.put, Stops.lookup_putRun, hlookup, hunnumbered, Option.some_or, Option.none_or,
    if_true, Prod.Lex.toLex_le_toLex]
  constructor
  · rintro (hlt | ⟨heq, -⟩)
    · exact hlt.le
    · exact heq.le
  · intro hle
    rcases hle.lt_or_eq with hlt | heq
    · exact .inl hlt
    · exact .inr ⟨heq, .inl hless⟩

theorem Numbered.sort_put (h : s.Numbered) :
    sortByKey (s.put now new).storeKey (s.threadRuns owner thread) = sortByKey s.storeKey (s.threadRuns owner thread) :=
  (sortByKey_congr fun _ hmem => h.storeKey_put (threadRuns_subset hmem)).symm

/-- A run of another thread leaves the thread's order. -/
theorem Numbered.threadIds_put_other (h : s.Numbered) (hnone : s.logs.runs new.spec.runId = none)
    (hother : inThread owner thread new = false) :
    (s.put now new).threadIds owner thread = s.threadIds owner thread := by
  rw [threadIds, h.threadRuns_put hnone, hother, if_neg Bool.false_ne_true, List.append_nil, h.sort_put, threadIds]

/-- A new run of the thread leaves every place as it was exactly when no run of the thread was created later. -/
theorem Numbered.threadIds_put_iff (h : s.Numbered) (hnone : s.logs.runs new.spec.runId = none)
    (hin : inThread owner thread new = true) :
    s.threadIds owner thread <+: (s.put now new).threadIds owner thread ↔
      ∀ run ∈ s.threadRuns owner thread, createdMs run ≤ createdMs new := by
  have hnew : new ∉ s.threadRuns owner thread := by
    intro hmem
    simp [h.mem_values.mp (threadRuns_subset hmem)] at hnone
  have hput : (s.put now new).Numbered := h.put hnone
  have hsub : ∀ run ∈ new :: s.threadRuns owner thread, run ∈ (s.put now new).values := by
    intro run hmem
    rw [h.values_put hnone, List.mem_append, List.mem_singleton]
    rcases List.mem_cons.mp hmem with rfl | hmem
    · exact .inr rfl
    · exact .inl (threadRuns_subset hmem)
  have hsort : sortByKey (s.put now new).storeKey (s.threadRuns owner thread ++ [new]) =
      sortByKey (s.put now new).storeKey (new :: s.threadRuns owner thread) :=
    (sortByKey_eq_of_perm (hput.injOn_storeKey.mono hsub) (List.perm_append_singleton _ _)).symm
  rw [threadIds, threadIds, h.threadRuns_put hnone, hin, if_pos rfl, hsort,
    ← @Numbered.sort_put s now new owner thread h,
    sortByKey_cons_prefix_iff (hput.injOn_id.mono hsub) (hput.injOn_storeKey.mono hsub) hnew]
  exact forall₂_congr fun run hmem => h.storeKey_put_le hnone (threadRuns_subset hmem)

end Put

/-- The step stores only what meets `orderly`, and gives no run its first event later. -/
def Steady (orderly : StopStore → StoredRun → Prop) (s : StopStore) : StopOp → Prop
  | .write _ (.putRun new) => s.logs.runs new.spec.runId = none → orderly s new
  | .write _ (.appendEvents id _)
  | .write _ (.appendEventsAfter id _ _) => ∀ run, s.logs.runs id = some run → run.events ≠ []
  | _ => True

def SteadyAll (orderly : StopStore → StoredRun → Prop) (s : StopStore) : List StopOp → Prop
  | [] => True
  | op :: rest => Steady orderly s op ∧ SteadyAll orderly (s.apply op) rest

/-- No run of the thread was created later than `new`. -/
def Newest (owner : Owner) (thread : String) (s : StopStore) (new : StoredRun) : Prop :=
  inThread owner thread new = true → ∀ run ∈ s.threadRuns owner thread, createdMs run ≤ createdMs new

/-- A put leaves the runs stored before it. -/
theorem runs_put_of_stored (now : Timestamp) (new : StoredRun) {id : RunId} (h : s.logs.runs id ≠ none) :
    (s.apply (.write now (.putRun new))).logs.runs id = s.logs.runs id := by
  rcases s.logs.putRun_cases now new with ⟨hsame, -⟩ | ⟨hnone, -, hexec⟩
  · exact congrArg (fun logs => LogStore.runs logs id) hsame
  · have hne : id ≠ new.spec.runId := by
      rintro rfl
      exact h hnone
    have hruns := congrArg (fun result => LogStore.runs (Prod.fst result) id) hexec
    exact hruns.trans (LogStore.extend_runs_of_ne _ _ hne _ _)

/-- An append leaves the other runs. -/
theorem runs_append_of_ne (now : Timestamp) {id other : RunId} (seen : Option Nat)
    (events : List Event) (h : other ≠ id) :
    (s.logs.appendChecked now id seen events).1.runs other = s.logs.runs other := by
  rcases s.logs.appendChecked_cases now id seen events with ⟨hsame, -⟩ | ⟨stored, -, -, -, -, heq⟩
  · rw [hsame]
  · rw [heq]
    exact LogStore.extend_runs_of_ne _ _ h _ _

/-- A log with its first event keeps it. -/
theorem createdMs_of_prefix {run later : StoredRun} (hevents : run.events ≠ []) (hgrows : run.events <+: later.events) :
    createdMs later = createdMs run := by
  obtain ⟨more, hmore⟩ := hgrows
  rw [createdMs, createdMs, ← hmore, List.head?_append_of_ne_nil _ hevents]

theorem Numbered.createdMs_steady (h : s.Numbered) {orderly : StopStore → StoredRun → Prop} {op : StopOp}
    (hsteady : Steady orderly s op) {run : StoredRun} (hmem : run ∈ s.values) :
    createdMs (((s.apply op).logs.runs run.spec.runId).getD run) = createdMs run := by
  have hrun := h.mem_values.mp hmem
  have hsame : (s.apply op).logs.runs run.spec.runId = s.logs.runs run.spec.runId →
      createdMs (((s.apply op).logs.runs run.spec.runId).getD run) = createdMs run := by
    intro hlogs
    rw [hlogs, hrun, Option.getD_some]
  cases op with
  | stop owner scope => exact hsame rfl
  | write now op =>
      cases op with
      | putRun new => exact hsame (runs_put_of_stored now new (by simp [hrun]))
      | pruneOutbox before => exact hsame rfl
      | appendEvents id events | appendEventsAfter id _ events =>
          by_cases hid : run.spec.runId = id
          · exact createdMs_of_prefix (hsteady run (hid ▸ hrun)) (h.later_run _ hmem).2
          · exact hsame (runs_append_of_ne now _ events hid)

/-- A step that stores no run leaves the thread's runs, with longer logs. -/
theorem Numbered.threadRuns_kept (h : s.Numbered) {op : StopOp} (hstored : (s.apply op).stops.stored = s.stops.stored)
    (owner : Owner) (thread : String) :
    (s.apply op).threadRuns owner thread =
      (s.threadRuns owner thread).map fun run => ((s.apply op).logs.runs run.spec.runId).getD run := by
  rw [threadRuns, h.values_kept hstored, List.filter_map, threadRuns]
  congr 1
  refine List.filter_congr fun run hmem => ?_
  rw [Function.comp_apply, inThread, (h.later_run op hmem).1, inThread]

theorem Numbered.threadIds_steady (h : s.Numbered) {owner : Owner} {thread : String} {op : StopOp}
    (hsteady : Steady (Newest owner thread) s op) :
    s.threadIds owner thread <+: (s.apply op).threadIds owner thread := by
  rcases s.apply_cases op with ⟨now, new, rfl, hnone, heq⟩ | ⟨hstored, -, -⟩
  · rw [heq]
    cases hin : inThread owner thread new with
    | true => exact (h.threadIds_put_iff hnone hin).mpr (hsteady hnone hin)
    | false => exact (h.threadIds_put_other hnone hin).symm ▸ List.prefix_refl _
  · have hkey : ∀ run ∈ s.threadRuns owner thread,
        (s.apply op).storeKey (((s.apply op).logs.runs run.spec.runId).getD run) = s.storeKey run := by
      intro run hmem
      have hmem := threadRuns_subset hmem
      rw [storeKey, storeKey, h.createdMs_steady hsteady hmem, (h.later_run op hmem).1, hstored]
    have hids : ∀ run ∈ sortByKey s.storeKey (s.threadRuns owner thread), run.spec.runId =
        (((s.apply op).logs.runs run.spec.runId).getD run).spec.runId := by
      intro run hmem
      rw [(h.later_run op (threadRuns_subset (mem_sortByKey.mp hmem))).1]
    rw [threadIds, threadIds, h.threadRuns_kept hstored, ← map_sortByKey hkey, List.map_map, List.map_congr_left hids]
    exact List.prefix_refl _

theorem Numbered.threadIds_steadyAll (h : s.Numbered) {owner : Owner} {thread : String} {ops : List StopOp}
    (hsteady : SteadyAll (Newest owner thread) s ops) :
    s.threadIds owner thread <+: (s.applyAll ops).threadIds owner thread := by
  induction ops generalizing s with
  | nil => exact List.prefix_refl _
  | cons op rest ih => exact (h.threadIds_steady hsteady.1).trans (ih (h.apply op) hsteady.2)

/-! ### The coordinator -/

section Roots

variable {owner : Owner} {thread : String}

theorem threadRoots_subset {run : StoredRun} (h : run ∈ s.threadRoots owner thread) : run ∈ s.values :=
  threadRuns_subset (List.mem_of_mem_filter h)

theorem runsOfThread_all {limit : Nat} (hlimit : (s.threadRuns owner thread).length ≤ limit) :
    s.runsOfThread owner thread limit = sortByKey s.storeKey (s.threadRuns owner thread) :=
  List.take_of_length_le ((sortByKey_perm _ _).length_eq.trans_le hlimit)

/-- The first run with no parent in an order is the least of them. -/
theorem find?_isRoot {κ : Type} [LinearOrder κ] {key : StoredRun → κ} (hinj : Set.InjOn key {run | run ∈ s.values}) :
    (sortByKey key (s.threadRuns owner thread)).find? isRoot = leastByKey key (s.threadRoots owner thread) := by
  rw [← List.head?_filter, filter_sortByKey (hinj.mono fun _ => threadRuns_subset)]
  exact head?_sortByKey (hinj.mono fun _ => threadRoots_subset)

/-- `thread_root` is the first run with no parent in the thread's order exactly when one of them is the earliest, and
of those created with it both the first stored and the one with the least id. -/
theorem Numbered.threadRoot_iff (h : s.Numbered) {limit : Nat} (hlimit : (s.threadRuns owner thread).length ≤ limit) :
    s.threadRoot owner thread = ((s.runsOfThread owner thread limit).find? isRoot).map (·.spec) ↔
      s.threadRoots owner thread = [] ∨ ∃ first ∈ s.threadRoots owner thread, ∀ run ∈ s.threadRoots owner thread,
        idKey first ≤ idKey run ∧ s.storeKey first ≤ s.storeKey run := by
  rw [runsOfThread_all hlimit, find?_isRoot h.injOn_storeKey, threadRoot,
    ← leastByKey_eq_iff (h.injOn_idKey.mono fun _ => threadRoots_subset)
      (h.injOn_storeKey.mono fun _ => threadRoots_subset)]
  constructor
  · intro heq
    cases hleast : leastByKey idKey (s.threadRoots owner thread) with
    | none => rw [leastByKey_eq_none.mp hleast, leastByKey_nil]
    | some a =>
        cases hfirst : leastByKey s.storeKey (s.threadRoots owner thread) with
        | none => simp [leastByKey_eq_none.mp hfirst] at hleast
        | some b =>
            rw [hleast, hfirst, Option.map_some, Option.map_some, Option.some.injEq] at heq
            have hid : a.spec.runId = b.spec.runId := congrArg RunSpec.runId heq
            rw [h.injOn_id (threadRoots_subset (mem_of_leastByKey hleast))
              (threadRoots_subset (mem_of_leastByKey hfirst)) hid]
  · exact congrArg _

end Roots

/-! ### The list of threads -/

@[simp] theorem countRun_threadId (entry : ThreadSummary × Bool) (run : StoredRun) :
    (countRun entry run).1.threadId = entry.1.threadId := by
  simp only [countRun]
  split <;> rfl

/-- Once a run with no parent has named its agent and start, they stay. -/
theorem foldl_countRun_rooted (runs : List StoredRun) {entry : ThreadSummary × Bool} (h : entry.2 = true) :
    (runs.foldl countRun entry).1.agentId = entry.1.agentId ∧
      (runs.foldl countRun entry).1.startedMs = entry.1.startedMs := by
  induction runs generalizing entry with
  | nil => exact ⟨rfl, rfl⟩
  | cons run rest ih =>
      have hrun : countRun entry run = ({ entry.1 with runs := entry.1.runs + 1 }, true) := by simp [countRun, h]
      rw [List.foldl_cons, hrun]
      exact ih rfl

/-- The first run with no parent names its agent and start. -/
theorem foldl_countRun_root {runs : List StoredRun} {entry : ThreadSummary × Bool}
    (h : entry.2 = false) {root : StoredRun} (hroot : runs.find? isRoot = some root) :
    (runs.foldl countRun entry).1.agentId = root.spec.agentId ∧
      (runs.foldl countRun entry).1.startedMs = createdMs root := by
  induction runs generalizing entry with
  | nil => cases hroot
  | cons run rest ih =>
      cases hfirst : isRoot run with
      | true =>
          rw [List.find?_cons_of_pos hfirst, Option.some.injEq] at hroot
          subst hroot
          have hrun : countRun entry run =
              ({ entry.1 with runs := entry.1.runs + 1, agentId := run.spec.agentId, startedMs := createdMs run },
                true) := by
            simp [countRun, h, hfirst]
          rw [List.foldl_cons, hrun]
          exact foldl_countRun_rooted rest rfl
      | false =>
          rw [List.find?_cons_of_neg (by simp [hfirst])] at hroot
          have hrun : countRun entry run = ({ entry.1 with runs := entry.1.runs + 1 }, false) := by
            simp [countRun, h, hfirst]
          rw [List.foldl_cons, hrun]
          exact ih rfl hroot

/-- What the pass makes of one thread's runs. -/
def summarize (id : String) : List StoredRun → Option (ThreadSummary × Bool)
  | [] => none
  | first :: rest => some ((first :: rest).foldl countRun (⟨id, first.spec.agentId, createdMs first, 0⟩, false))

theorem summarize_snoc (id : String) (runs : List StoredRun) (run : StoredRun) :
    summarize id (runs ++ [run]) =
      some (countRun ((summarize id runs).getD (⟨id, run.spec.agentId, createdMs run, 0⟩, false)) run) := by
  cases runs with
  | nil => rfl
  | cons first rest => simp [summarize]

theorem find?_countIn (id other : String) (run : StoredRun) (threads : List (ThreadSummary × Bool)) :
    (countIn id run threads).find? (fun entry => entry.1.threadId = other) =
      if other = id then
        some (countRun ((threads.find? fun entry => entry.1.threadId = id).getD
          (⟨id, run.spec.agentId, createdMs run, 0⟩, false)) run)
      else threads.find? fun entry => entry.1.threadId = other := by
  induction threads with
  | nil =>
      by_cases hother : other = id
      · subst hother
        simp [countIn]
      · simp [countIn, hother, Ne.symm hother]
  | cons entry rest ih =>
      rw [countIn]
      by_cases hentry : entry.1.threadId = id
      · by_cases hother : other = id
        · subst hother
          simp [hentry]
        · simp [hentry, hother, Ne.symm hother]
      · by_cases hsame : entry.1.threadId = other
        · subst hsame
          simp [hentry]
        · rw [if_neg hentry, List.find?_cons_of_neg (by simpa using hsame), ih,
            List.find?_cons_of_neg (by simpa using hentry), List.find?_cons_of_neg (by simpa using hsame)]

theorem find?_countThreads (runs : List StoredRun) (id : String) :
    (countThreads runs).find? (fun entry => entry.1.threadId = id) =
      summarize id (runs.filter fun run => threadOf run.spec = some id) := by
  induction runs using List.reverseRecOn with
  | nil => rfl
  | append_singleton runs run ih =>
      rw [countThreads, List.foldl_append, List.foldl_cons, List.foldl_nil, List.filter_append, ← countThreads]
      cases hthread : threadOf run.spec with
      | none => simp [hthread, ih]
      | some other =>
          rw [Option.elim_some, find?_countIn]
          by_cases hother : id = other
          · subst hother
            simp [hthread, ih, summarize_snoc]
          · simp [hthread, ih, hother, Ne.symm hother]

theorem map_threadId_countIn (id : String) (run : StoredRun) (threads : List (ThreadSummary × Bool)) :
    (countIn id run threads).map (·.1.threadId) =
      threads.map (·.1.threadId) ++ if id ∈ threads.map (·.1.threadId) then [] else [id] := by
  induction threads with
  | nil => simp [countIn]
  | cons entry rest ih =>
      rw [countIn]
      by_cases hentry : entry.1.threadId = id
      · simp [hentry]
      · have hmem : id ∈ (entry :: rest).map (·.1.threadId) ↔ id ∈ rest.map (·.1.threadId) := by
          rw [List.map_cons, List.mem_cons, or_iff_right (Ne.symm hentry)]
        rw [if_neg hentry, List.map_cons, ih, if_congr hmem rfl rfl, List.map_cons, List.cons_append]

/-- The pass keeps one entry for each thread. -/
theorem nodup_countThreads (runs : List StoredRun) : ((countThreads runs).map (·.1.threadId)).Nodup := by
  induction runs using List.reverseRecOn with
  | nil => exact List.nodup_nil
  | append_singleton runs run ih =>
      rw [countThreads, List.foldl_append, List.foldl_cons, List.foldl_nil, ← countThreads]
      cases threadOf run.spec with
      | none => exact ih
      | some id =>
          rw [Option.elim_some, map_threadId_countIn]
          split
          · rwa [List.append_nil]
          · next hnew =>
              refine List.nodup_append.mpr ⟨ih, List.nodup_singleton _, ?_⟩
              rintro other hother new hid rfl
              exact hnew (List.mem_singleton.mp hid ▸ hother)

/-- The list names the agent and the start of the first run with no parent, by time and id. -/
theorem Numbered.threadsOf_root (h : s.Numbered) {owner : Owner} {thread : String} {root : StoredRun}
    (hroot : leastByKey idKey (s.threadRoots owner thread) = some root) :
    (∃ most, ∃ summary ∈ s.threadsOf owner 0 most, summary.threadId = thread) ∧
    ∀ after most, ∀ summary ∈ s.threadsOf owner after most, summary.threadId = thread →
      summary.agentId = root.spec.agentId ∧ summary.startedMs = createdMs root := by
  let owned := s.values.filter fun run => run.spec.owner.is owner && (threadOf run.spec).isSome
  have hruns : (sortByKey idKey owned).filter (fun run => threadOf run.spec = some thread) =
      sortByKey idKey (s.threadRuns owner thread) := by
    rw [filter_sortByKey (h.injOn_idKey.mono fun _ => List.mem_of_mem_filter), List.filter_filter]
    congr 1
    refine List.filter_congr fun run _ => ?_
    cases hthread : threadOf run.spec <;> simp [inThread, hthread, Bool.and_comm]
  have hfind := find?_countThreads (sortByKey idKey owned) thread
  rw [hruns] at hfind
  obtain ⟨entry, hentry, hagent, hstart⟩ :
    ∃ entry, summarize thread (sortByKey idKey (s.threadRuns owner thread)) = some entry ∧
      entry.1.agentId = root.spec.agentId ∧ entry.1.startedMs = createdMs root := by
    have hfirst : (sortByKey idKey (s.threadRuns owner thread)).find? isRoot = some root :=
      (find?_isRoot h.injOn_idKey).trans hroot
    cases hsort : sortByKey idKey (s.threadRuns owner thread) with
    | nil => simp [hsort] at hfirst
    | cons first rest => exact ⟨_, rfl, foldl_countRun_root rfl (hsort ▸ hfirst)⟩
  rw [hentry] at hfind
  have hmem := List.mem_of_find?_eq_some hfind
  have hthread : entry.1.threadId = thread := by simpa using List.find?_some hfind
  constructor
  · refine ⟨((countThreads (sortByKey idKey owned)).map Prod.fst).length, entry.1, ?_, hthread⟩
    rw [threadsOf, List.drop_zero, List.take_of_length_le (sortByKey_perm _ _).length_eq.le]
    exact mem_sortByKey.mpr (List.mem_map_of_mem hmem)
  · intro after most summary hsummary hof
    obtain ⟨other, hother, rfl⟩ :=
      List.mem_map.mp (mem_sortByKey.mp (List.mem_of_mem_drop (List.mem_of_mem_take hsummary)))
    have hsame := List.inj_on_of_nodup_map (nodup_countThreads _) hother hmem (hof.trans hthread.symm)
    rw [hsame]
    exact ⟨hagent, hstart⟩

/-! ### One coordinator -/

section Coordinator

variable {owner : Owner} {thread : String}

/-- The three views of a thread name one coordinator. -/
def ViewsAgree (s : StopStore) (owner : Owner) (thread : String) : Prop :=
  ∀ limit, (s.threadRuns owner thread).length ≤ limit →
    s.threadRoot owner thread = ((s.runsOfThread owner thread limit).find? isRoot).map (·.spec) ∧
    ∀ root, (s.runsOfThread owner thread limit).find? isRoot = some root →
      (∃ most, ∃ summary ∈ s.threadsOf owner 0 most, summary.threadId = thread) ∧
      ∀ after most, ∀ summary ∈ s.threadsOf owner after most, summary.threadId = thread →
        summary.agentId = root.spec.agentId ∧ summary.startedMs = createdMs root

/-- Of the runs with no parent one is the earliest, and of those created with it both the first stored and the one
with the least id. -/
def EarliestOnce (s : StopStore) (owner : Owner) (thread : String) : Prop :=
  s.threadRoots owner thread = [] ∨ ∃ first ∈ s.threadRoots owner thread, ∀ run ∈ s.threadRoots owner thread,
    idKey first ≤ idKey run ∧ s.storeKey first ≤ s.storeKey run

theorem Numbered.viewsAgree_iff (h : s.Numbered) : s.ViewsAgree owner thread ↔ s.EarliestOnce owner thread := by
  constructor
  · exact fun hagree => (h.threadRoot_iff (Nat.le_refl _)).mp (hagree _ (Nat.le_refl _)).1
  · intro honce limit hlimit
    refine ⟨(h.threadRoot_iff hlimit).mpr honce, fun root hroot => h.threadsOf_root ?_⟩
    rw [runsOfThread_all hlimit, find?_isRoot h.injOn_storeKey] at hroot
    rw [← hroot]
    exact (leastByKey_eq_iff (h.injOn_idKey.mono fun _ => threadRoots_subset)
      (h.injOn_storeKey.mono fun _ => threadRoots_subset)).mpr honce

/-- A run with no parent does not come, by time and id, before every other one of the thread. -/
def NotFirst (owner : Owner) (thread : String) (s : StopStore) (new : StoredRun) : Prop :=
  inThread owner thread new = true → isRoot new = true →
    s.threadRoots owner thread = [] ∨ ∃ run ∈ s.threadRoots owner thread, idKey run ≤ idKey new

theorem Numbered.threadRoots_put (h : s.Numbered) {now : Timestamp} {new : StoredRun}
    (hnone : s.logs.runs new.spec.runId = none) :
    (s.put now new).threadRoots owner thread =
      s.threadRoots owner thread ++ if inThread owner thread new && isRoot new then [new] else [] := by
  rw [threadRoots, h.threadRuns_put hnone, List.filter_append, threadRoots]
  cases inThread owner thread new <;> simp [List.filter_cons]

theorem Numbered.threadRoot_put_iff (h : s.Numbered) {now : Timestamp} {new : StoredRun}
    (hnone : s.logs.runs new.spec.runId = none) :
    (∀ root, s.threadRoot owner thread = some root → (s.put now new).threadRoot owner thread = some root) ↔
      NotFirst owner thread s new := by
  rw [threadRoot, threadRoot, h.threadRoots_put hnone, NotFirst]
  cases hin : inThread owner thread new && isRoot new with
  | false =>
      have hnot : inThread owner thread new = true → isRoot new ≠ true := by
        intro hin' hroot
        simp [hin', hroot] at hin
      simp only [Bool.false_eq_true, if_false, List.append_nil, imp_self, implies_true, true_iff]
      exact fun hin' hroot => absurd hroot (hnot hin')
  | true =>
      obtain ⟨hin, hroot⟩ := Bool.and_eq_true_iff.mp hin
      rw [if_pos rfl, leastByKey_concat]
      simp only [hin, hroot, forall_const]
      cases hleast : leastByKey idKey (s.threadRoots owner thread) with
      | none => simp [leastByKey_eq_none.mp hleast]
      | some root =>
          have hmem := mem_of_leastByKey hleast
          have hne : new.spec ≠ root.spec := by
            intro hspec
            simp [hspec, h.mem_values.mp (threadRoots_subset hmem)] at hnone
          have hcond : (s.threadRoots owner thread = [] ∨ ∃ run ∈ s.threadRoots owner thread, idKey run ≤ idKey new) ↔
              idKey root ≤ idKey new := by
            constructor
            · rintro (hnil | ⟨run, hrun, hle⟩)
              · simp [hnil] at hmem
              · exact le_trans (le_of_mem_leastByKey hrun hleast) hle
            · exact fun hle => .inr ⟨root, hmem, hle⟩
          by_cases hless : idKey new < idKey root
          · simp [hcond, hless, hne]
          · simp [hcond, hless, not_lt.mp hless]

theorem Numbered.threadRoot_steady (h : s.Numbered) {op : StopOp} (hsteady : Steady (NotFirst owner thread) s op)
    {root : RunSpec} (hroot : s.threadRoot owner thread = some root) :
    (s.apply op).threadRoot owner thread = some root := by
  rcases s.apply_cases op with ⟨now, new, rfl, hnone, heq⟩ | ⟨hstored, -, -⟩
  · rw [heq]
    exact (h.threadRoot_put_iff hnone).mpr (hsteady hnone) root hroot
  · have hkey : ∀ run ∈ s.threadRoots owner thread,
        idKey (((s.apply op).logs.runs run.spec.runId).getD run) = idKey run := by
      intro run hmem
      have hmem := threadRoots_subset hmem
      rw [idKey, idKey, h.createdMs_steady hsteady hmem, (h.later_run op hmem).1]
    have hroots : (s.apply op).threadRoots owner thread =
        (s.threadRoots owner thread).map fun run => ((s.apply op).logs.runs run.spec.runId).getD run := by
      rw [threadRoots, h.threadRuns_kept hstored, List.filter_map, threadRoots]
      congr 1
      refine List.filter_congr fun run hmem => ?_
      rw [Function.comp_apply, isRoot, (h.later_run op (threadRuns_subset hmem)).1, isRoot]
    obtain ⟨first, hfirst, rfl⟩ := Option.map_eq_some_iff.mp hroot
    rw [threadRoot, hroots, leastByKey_map hkey, hfirst, Option.map_some, Option.map_some,
      (h.later_run op (threadRoots_subset (mem_of_leastByKey hfirst))).1]

theorem Numbered.threadRoot_steadyAll (h : s.Numbered) {ops : List StopOp}
    (hsteady : SteadyAll (NotFirst owner thread) s ops) {root : RunSpec}
    (hroot : s.threadRoot owner thread = some root) :
    (s.applyAll ops).threadRoot owner thread = some root := by
  induction ops generalizing s with
  | nil => exact hroot
  | cons op rest ih => exact ih (h.apply op) hsteady.2 (h.threadRoot_steady hsteady.1 hroot)

end Coordinator

/-- The views of a thread name one coordinator exactly when one run with no parent is the earliest by both orders, and
a further run leaves the coordinator exactly when it does not come before it. -/
theorem one_coordinator_iff (ops : List StopOp) (owner : Owner) (thread : String) :
    ((empty.applyAll ops).ViewsAgree owner thread ↔ (empty.applyAll ops).EarliestOnce owner thread) ∧
    (∀ now new, ((empty.applyAll ops).logs.exec now (.putRun new)).2 = .put .stored →
      ((∀ root, (empty.applyAll ops).threadRoot owner thread = some root →
          (empty.applyAll (ops ++ [.write now (.putRun new)])).threadRoot owner thread = some root) ↔
        NotFirst owner thread (empty.applyAll ops) new)) ∧
    ∀ more, SteadyAll (NotFirst owner thread) (empty.applyAll ops) more →
      ∀ root, (empty.applyAll ops).threadRoot owner thread = some root →
        (empty.applyAll (ops ++ more)).threadRoot owner thread = some root := by
  have hnumbered := numbered_applyAll ops
  refine ⟨hnumbered.viewsAgree_iff, fun now new hstored => ?_, fun more hsteady root hroot => ?_⟩
  · obtain ⟨hnone, hput⟩ := apply_put hstored
    have hlast : empty.applyAll (ops ++ [.write now (.putRun new)]) = (empty.applyAll ops).put now new := by
      rw [applyAll_append, ← hput, applyAll, List.foldl_cons, List.foldl_nil]
    rw [hlast]
    exact hnumbered.threadRoot_put_iff hnone
  · rw [applyAll_append]
    exact hnumbered.threadRoot_steadyAll hsteady hroot

/-- A run of one thread with no parent, whose first event is stamped `at_`. -/
def rootAt (id : Uuid) (at_ : Timestamp) : StoredRun :=
  let spec := { RunSpec.plain id ⟨8, 4⟩ with metadata := [(sessionId, "thread-1")] }
  ⟨spec, [Event.record spec .system ⟨⟨0⟩, at_, ⟨0⟩⟩ .runCreated]⟩

/-- Two runs in one millisecond: the one stored second takes the thread over, and is not its first. -/
theorem tied_roots :
    (empty.applyAll [.write 0 (.putRun (rootAt 2 0))]).threadRoot (rootAt 2 0).spec.owner "thread-1" =
      some (rootAt 2 0).spec ∧
    (empty.applyAll [.write 0 (.putRun (rootAt 2 0)), .write 0 (.putRun (rootAt 1 0))]).threadRoot
      (rootAt 2 0).spec.owner "thread-1" = some (rootAt 1 0).spec ∧
    ((empty.applyAll [.write 0 (.putRun (rootAt 2 0)), .write 0 (.putRun (rootAt 1 0))]).runsOfThread
      (rootAt 2 0).spec.owner "thread-1" 2).find? isRoot = some (rootAt 2 0) := by
  decide +kernel

end StopStore
end Gol
