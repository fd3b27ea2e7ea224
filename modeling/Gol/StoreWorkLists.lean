import Gol.LibraryRounds
import Gol.StorePostgres
import Gol.StoreThreads

/-! The work list of a stop (`open_runs_under`, `store.rs` and `postgres.rs`): the runs it has to end. `stopped` goes
up from a run through its lineage; the list goes down from the scope, by what each run carries. They agree because a
child carries its parent's owner and session. -/

namespace Gol
open Library

/-- `list` is what a stop by `owner` has to end, where `before` and `after` it the stops cover these runs: every open
run it newly covers, no run that is not stopped, none of another principal and none twice. -/
structure WorkList (owner : Owner) (runs : RunId → Option StoredRun) (before after : RunId → Bool)
    (list : List StoredRun) : Prop where
  covered : ∀ id run, runs id = some run → hasEnded run.events = false → before id = false → after id = true →
    run ∈ list
  opened : ∀ run ∈ list, runs run.spec.runId = some run ∧ hasEnded run.events = false
  stopped : ∀ run ∈ list, after run.spec.runId = true
  owned : ∀ run ∈ list, run.spec.owner.is owner = true
  once : (list.map fun run => run.spec.runId).Nodup

theorem Owner.is_iff {self other : Owner} : self.is other = true ↔ principal self = principal other := by
  simp [Owner.is, principal, Prod.ext_iff]

/-! ### In memory -/

namespace Stops

def parentOf (runs : RunId → Option StoredRun) (id : RunId) : Option RunId :=
  (runs id).bind fun run => run.spec.lineage.parent

def namesStored (s : Stops) (runs : RunId → Option StoredRun) (id : RunId) : Bool :=
  (runs id).any fun run => s.names run.spec

theorem stoppedWithin_eq (s : Stops) (runs : RunId → Option StoredRun) (fuel : Nat) (id : RunId) :
    s.stoppedWithin runs fuel id = anyAbove (parentOf runs) (s.namesStored runs) fuel id := by
  induction fuel generalizing id with
  | zero => rfl
  | succ fuel ih =>
      rw [stoppedWithin, anyAbove, parentOf, namesStored]
      cases runs id with
      | none => rfl
      | some run =>
          simp only [Option.any_some, Option.bind_some]
          congr 1
          cases run.spec.lineage.parent with
          | none => rfl
          | some parent => exact ih parent

theorem within_eq (runs : RunId → Option StoredRun) (under : RunId) (fuel : Nat) (id : RunId) :
    within runs under fuel id = anyAbove (parentOf runs) (fun id => id = under) fuel id := by
  induction fuel generalizing id with
  | zero => rfl
  | succ fuel ih =>
      rw [within, anyAbove, parentOf]
      congr 1
      cases (runs id).bind fun run => run.spec.lineage.parent with
      | none => rfl
      | some parent => exact ih parent

variable {s : Stops} {owner : Owner} {scope : StopScope} {spec : RunSpec}

/-- What the stop just put names. -/
def justNames (s : Stops) (owner : Owner) (scope : StopScope) (spec : RunSpec) : Bool :=
  principal owner = principal spec.owner && stopNames scope (s.order + 1) spec (s.numberOf spec.runId)

theorem names_putStop (h : s.justNames owner scope spec = true) : (s.putStop owner scope).names spec = true :=
  List.any_eq_true.mpr ⟨⟨principal owner, scope, s.order + 1⟩, List.mem_append_right _ (List.mem_singleton_self _), h⟩

/-- The other stops kept named it before. -/
theorem justNames_of_new (hbefore : s.names spec = false) (hafter : (s.putStop owner scope).names spec = true) :
    s.justNames owner scope spec = true := by
  obtain ⟨entry, hmem, hentry⟩ := List.any_eq_true.mp hafter
  rcases List.mem_append.mp hmem with hmem | hmem
  · exact absurd hentry (List.any_eq_false.mp hbefore entry (List.mem_of_mem_filter hmem))
  · rw [List.mem_singleton.mp hmem] at hentry
    exact hentry

end Stops

namespace StopStore

variable {s : StopStore}

/-- Children carry their parent's owner and session. -/
def Inherited (s : StopStore) : Prop :=
  ∀ id run parent above, s.logs.runs id = some run → run.spec.lineage.parent = some parent →
    s.logs.runs parent = some above →
    above.spec.owner = run.spec.owner ∧ above.spec.metadataGet sessionId = run.spec.metadataGet sessionId

theorem inherited_empty : empty.Inherited := by
  intro id run parent above hrun
  cases hrun

/-- A child is stored once its parent is, with what it inherits, and no run changes its spec. -/
theorem Inherited.apply (h : s.Inherited) (hordered : s.Ordered) {op : StopOp} (hpromised : s.Promised op) :
    (s.apply op).Inherited := by
  intro id run parent above hrun hparent habove
  rcases runs_apply op hrun with ⟨old, hold, hspec⟩ | ⟨-, -, ⟨now, rfl⟩, -⟩
  · obtain ⟨top, htop⟩ := Option.ne_none_iff_exists'.mp (hordered.parents id old parent hold (hspec ▸ hparent)).1
    obtain ⟨later, hlater, hsame⟩ := runs_kept op htop
    rw [hlater, Option.some.injEq] at habove
    rw [← habove, hsame, ← hspec]
    exact h id old parent top hold (hspec ▸ hparent) htop
  · obtain ⟨top, htop, howner, hsession⟩ := hpromised parent hparent
    obtain ⟨later, hlater, hsame⟩ := runs_kept (.write now (.putRun run)) htop
    rw [hlater, Option.some.injEq] at habove
    rw [← habove, hsame]
    exact ⟨howner, hsession⟩

theorem inherited_applyAll {ops : List StopOp} (hkept : empty.Kept ops) : (empty.applyAll ops).Inherited := by
  suffices hall : ∀ s : StopStore, s.Ordered → s.Inherited → s.Kept ops → (s.applyAll ops).Inherited from
    hall empty ordered_empty inherited_empty hkept
  clear hkept
  induction ops with
  | nil => exact fun s _ h _ => h
  | cons op rest ih => exact fun s hordered h hkept => ih _ (hordered.apply hkept.1) (h.apply hordered hkept.1) hkept.2

theorem Ordered.rank (h : s.Ordered) (id above : RunId) (hparent : Stops.parentOf s.logs.runs id = some above) :
    s.stops.numberOf above < s.stops.numberOf id := by
  obtain ⟨run, hrun, hparent⟩ := Option.bind_eq_some_iff.mp hparent
  exact (h.parents id run above hrun hparent).2

/-- A run is stopped when a stop names it or a run above it. -/
theorem Ordered.stopped_iff (h : s.Ordered) {id : RunId} :
    s.stopped id = true ↔ ∃ above, Under (Stops.parentOf s.logs.runs) id above ∧
      s.stops.namesStored s.logs.runs above = true := by
  rw [stopped, Stops.stopped, Stops.stoppedWithin_eq]
  exact anyAbove_iff h.rank (Nat.lt_succ_of_le (h.bounded id))

theorem Ordered.within_iff (h : s.Ordered) {id under : RunId} :
    Stops.within s.logs.runs under (s.stops.order + 1) id = true ↔ Under (Stops.parentOf s.logs.runs) id under := by
  rw [Stops.within_eq, anyAbove_iff h.rank (Nat.lt_succ_of_le (h.bounded id))]
  simp

/-- What is above a stored run is stored, with the run's owner and session. -/
theorem Inherited.above (h : s.Inherited) (hordered : s.Ordered) {id above : RunId}
    (hunder : Under (Stops.parentOf s.logs.runs) id above) {run : StoredRun} (hrun : s.logs.runs id = some run) :
    ∃ top, s.logs.runs above = some top ∧ top.spec.owner = run.spec.owner ∧ threadOf top.spec = threadOf run.spec := by
  induction hunder with
  | refl => exact ⟨run, hrun, rfl, rfl⟩
  | tail _ hparent ih =>
      obtain ⟨mid, hmid, howner, hthread⟩ := ih
      obtain ⟨mid', hmid', hparent⟩ := Option.bind_eq_some_iff.mp hparent
      rw [hmid, Option.some.injEq] at hmid'
      subst hmid'
      obtain ⟨top, htop⟩ := Option.ne_none_iff_exists'.mp (hordered.parents _ mid _ hmid hparent).1
      obtain ⟨howner', hsession⟩ := h _ mid _ top hmid hparent htop
      refine ⟨top, htop, howner'.trans howner, ?_⟩
      rw [← hthread, threadOf, threadOf, hsession]

theorem Ordered.putStop (h : s.Ordered) (owner : Owner) (scope : StopScope) :
    (s.apply (.stop owner scope)).Ordered := by
  have hpromised : s.Promised (.stop owner scope) := trivial
  exact h.apply hpromised

theorem Numbered.ids_values (h : s.Numbered) :
    (s.values.map fun run => run.spec.runId) = s.stops.stored.map Prod.fst := by
  rw [values, List.map_filterMap, ← List.filterMap_eq_map]
  refine List.filterMap_congr fun entry hmem => ?_
  obtain ⟨run, hrun⟩ := Option.ne_none_iff_exists'.mp ((h.stored entry.1).mp (List.mem_map_of_mem hmem))
  rw [hrun, Option.map_some, h.id entry.1 run hrun]
  rfl

theorem mem_openRunsUnder (h : s.Numbered) (owner : Owner) (scope : StopScope) (run : StoredRun) :
    run ∈ s.stops.openRunsUnder s.logs.runs owner scope ↔
      s.logs.runs run.spec.runId = some run ∧ run.spec.owner.is owner = true ∧ hasEnded run.events = false ∧
        (match scope with
          | .run under => Stops.within s.logs.runs under (s.stops.order + 1) run.spec.runId
          | .thread thread => decide (threadOf run.spec = some thread)
          | .owner => true) = true := by
  refine List.mem_filter.trans (and_congr h.mem_values ?_)
  refine (Bool.and_eq_true_iff.trans (and_congr Bool.and_eq_true_iff Iff.rfl)).trans (and_assoc.trans ?_)
  exact and_congr Iff.rfl (and_congr (Iff.of_eq (Bool.not_eq_true' _)) Iff.rfl)

/-- Whether the stop just put names the run or one above it, as the scope reads it. -/
theorem justNames_scope (hordered : s.Ordered) {owner : Owner} {scope : StopScope} {id : RunId} {run : StoredRun}
    (hrun : s.logs.runs id = some run) : s.stops.justNames owner scope run.spec = true ↔
      principal owner = principal run.spec.owner ∧
        match scope with
        | .run under => under = id
        | .thread thread => threadOf run.spec = some thread
        | .owner => True := by
  have hid := hordered.id id run hrun
  have hbound : s.stops.numberOf run.spec.runId < s.stops.order + 1 := Nat.lt_succ_of_le (hordered.bounded _)
  rw [Stops.justNames, Bool.and_eq_true, decide_eq_true_eq]
  refine and_congr_right fun _ => ?_
  cases scope with
  | run under => simp [stopNames, hid]
  | thread thread => simp [stopNames, hbound]
  | owner => simp [stopNames, hbound]

/-- The list is what the stop covers. -/
theorem workList (hordered : s.Ordered) (hnumbered : s.Numbered) (hinherited : s.Inherited) (owner : Owner)
    (scope : StopScope) :
    WorkList owner s.logs.runs s.stopped (s.apply (.stop owner scope)).stopped
      ((s.apply (.stop owner scope)).stops.openRunsUnder s.logs.runs owner scope) := by
  have hafter := hordered.putStop owner scope
  have hlisted : (s.apply (.stop owner scope)).Numbered := hnumbered.apply _
  have hmem := fun run => mem_openRunsUnder hlisted owner scope run
  refine ⟨fun id run hrun hopen hbefore hstopped => ?_, fun run hlist => ?_, fun run hlist => ?_,
    fun run hlist => ?_, ?_⟩
  · -- The stop that newly covers the run names a run above it, which has its owner and its thread.
    obtain ⟨above, hunder, hnames⟩ := hafter.stopped_iff.mp hstopped
    obtain ⟨top, htop, howner, hthread⟩ := hinherited.above hordered hunder hrun
    have hnew : (s.stops.putStop owner scope).names top.spec = true := by
      have hnames : (s.logs.runs above).any (fun run => (s.stops.putStop owner scope).names run.spec) = true := hnames
      rwa [htop] at hnames
    have hold : s.stops.names top.spec = false := by
      by_contra hold
      have hbefore' : s.stopped id = true :=
        hordered.stopped_iff.mpr ⟨above, hunder, by simp [Stops.namesStored, htop, hold]⟩
      simp [hbefore] at hbefore'
    obtain ⟨hprincipal, hscope⟩ := (justNames_scope hordered htop).mp (Stops.justNames_of_new hold hnew)
    have hid := hordered.id id run hrun
    refine (hmem run).mpr ⟨hid ▸ hrun, Owner.is_iff.mpr (howner ▸ hprincipal).symm, hopen, ?_⟩
    cases scope with
    | run under =>
        refine hafter.within_iff.mpr ?_
        rw [hid, hscope]
        exact hunder
    | thread thread => exact decide_eq_true (hthread ▸ hscope)
    | owner => rfl
  · obtain ⟨hrun, -, hopen, -⟩ := (hmem run).mp hlist
    exact ⟨hrun, hopen⟩
  · -- The stop names the run its scope comes down from.
    obtain ⟨hrun, howner, -, hscope⟩ := (hmem run).mp hlist
    have hprincipal := (Owner.is_iff.mp howner).symm
    suffices hnamed : ∃ above, Under (Stops.parentOf s.logs.runs) run.spec.runId above ∧
        ∃ top, s.logs.runs above = some top ∧ s.stops.justNames owner scope top.spec = true by
      obtain ⟨above, hunder, top, htop, hnames⟩ := hnamed
      refine hafter.stopped_iff.mpr ⟨above, hunder, ?_⟩
      show (s.logs.runs above).any (fun run => (s.stops.putStop owner scope).names run.spec) = true
      rw [htop]
      exact Stops.names_putStop hnames
    cases scope with
    | run under =>
        have hunder : Under (Stops.parentOf s.logs.runs) run.spec.runId under := hafter.within_iff.mp hscope
        obtain ⟨top, htop, hsame, -⟩ := hinherited.above hordered hunder hrun
        exact ⟨under, hunder, top, htop, (justNames_scope hordered htop).mpr ⟨hsame ▸ hprincipal, rfl⟩⟩
    | thread thread =>
        exact ⟨_, .refl, run, hrun, (justNames_scope hordered hrun).mpr ⟨hprincipal, of_decide_eq_true hscope⟩⟩
    | owner => exact ⟨_, .refl, run, hrun, (justNames_scope hordered hrun).mpr ⟨hprincipal, trivial⟩⟩
  · exact ((hmem run).mp hlist).2.1
  · have hids : ((s.apply (.stop owner scope)).values.map fun run => run.spec.runId).Nodup :=
      hlisted.ids_values ▸ hlisted.nodup
    exact hids.sublist (List.filter_sublist.map _)

end StopStore
end Gol
