import Mathlib.Algebra.Order.BigOperators.Group.List
import Mathlib.Algebra.Order.Ring.Nat
import Gol.HarnessBudget

/-! The tree of runs that a root starts by delegations and message tasks, flattened to the list of its runs. Each
run is driven on from a prefix of its log, any number of times, and its spawner keeps what it stored. While every
such prefix records the children stored so far, all runs together spend at most the root's limits. A prefix that
forgets a stored child does not: the child asked for again keeps its first limits, whatever the run has left. -/

namespace Gol
open Library

/-- A run of the tree: its log, and the children that were stored for it. -/
structure Member where
  spec : RunSpec
  events : List Event
  children : Children

def Member.fresh (spec : RunSpec) : Member := ⟨spec, [], []⟩

/-- `later` is `member` after its run was resumed from `start` and driven. -/
def Drives (taken : List RunId) (member : Member) (start : List Event) (later : Member) : Prop :=
  later.spec = member.spec ∧ ∃ stamp setup tools d result finish,
    Driver.resume member.spec start stamp = .ok d ∧
    (Driver.World Children (Spawning taken) (fun _ _ => True)).Run (Driver.runUntil tools (d.setUp setup))
      member.children (result, finish) later.children ∧
    later.events = result.events

/-- The families that `spec` can grow into, if a member is resumed from a prefix of its log only when `allowed`.
Each child stored by a run joins the family. -/
inductive Reaches (spec : RunSpec) (allowed : Member → List Event → Prop) : List Member → Prop
  | root : Reaches spec allowed [.fresh spec]
  | drive {before after : List Member} {member later : Member} {start : List Event} {specs : List RunSpec}
      (family : Reaches spec allowed (before ++ member :: after)) (hstart : start <+: member.events)
      (hallowed : allowed member start)
      (hdrives : Drives ((before ++ member :: after).map fun member => member.spec.runId) member start later)
      (hspecs : later.children = member.children ++ specs.map fun spec => (spec.runId, spec.limits)) :
      Reaches spec allowed (before ++ later :: after ++ specs.map .fresh)

/-- The log records every child stored for the run. -/
def RecordsChildren (member : Member) (start : List Event) : Prop :=
  ∀ child ∈ member.children, child.1 ∈ (charged (payloads start)).map Prod.fst

/-- The counters that `fold` makes of a log are within the run's limits. -/
def InBudget (spec : RunSpec) (events : List Event) : Prop :=
  (fold spec events).steps.toNat + (fold spec events).givenSteps.toNat ≤ spec.limits.maxSteps.toNat ∧
  (fold spec events).modelCalls.toNat + (fold spec events).givenModelCalls.toNat ≤ spec.limits.maxModelCalls.toNat

instance (spec : RunSpec) (events : List Event) : Decidable (InBudget spec events) :=
  inferInstanceAs (Decidable (_ ∧ _))

/-! ### Prefixes that record the same children -/

theorem charge_grows (children : Children) (payload : EventPayload) : children <+: charge children payload := by
  unfold charge
  split
  · split
    · exact List.prefix_refl _
    · exact List.prefix_append _ _
  · exact List.prefix_refl _

theorem charged_grows {cut log : List EventPayload} (h : cut <+: log) : charged cut <+: charged log := by
  obtain ⟨more, rfl⟩ := h
  induction more using List.reverseRecOn with
  | nil => simp
  | append_singleton more payload ih =>
      rw [← List.append_assoc, charged_snoc]
      exact ih.trans (charge_grows _ _)

theorem charged_nodup (log : List EventPayload) : ((charged log).map Prod.fst).Nodup := by
  induction log using List.reverseRecOn with
  | nil => simp
  | append_singleton log payload ih =>
      rw [charged_snoc]
      unfold charge
      split
      · split
        · exact ih
        · next hnew =>
            rw [List.map_append, List.nodup_append]
            refine ⟨ih, by simp, fun runId hmem other hother heq => hnew ?_⟩
            simp only [List.map_cons, List.map_nil, List.mem_singleton] at hother
            rwa [← hother, ← heq]
      · exact ih

theorem charged_eq_of_records {cut log : List EventPayload} (hcut : cut <+: log)
    (h : ∀ child ∈ charged log, child.1 ∈ (charged cut).map Prod.fst) : charged cut = charged log := by
  obtain ⟨more, hmore⟩ := charged_grows hcut
  have hnodup := charged_nodup log
  rw [← hmore] at h hnodup ⊢
  cases more with
  | nil => simp
  | cons child more =>
      rw [List.map_append, List.nodup_append] at hnodup
      exact absurd rfl (hnodup.2.2 child.1 (h child (by simp)) child.1 (by simp))

/-! ### The tree -/

/-- The sum over the family of what each run spent. -/
def spentBy (resource : Resource) (family : List Member) : Nat :=
  (family.map fun member => spent resource member.spec (payloads member.events)).sum

/-- A member within its limits whose log records exactly the children stored for it. -/
structure Member.Sound (member : Member) : Prop where
  budgeted : Budgeted member.spec (payloads member.events)
  charged_eq : charged (payloads member.events) = member.children

theorem Member.fresh_sound (spec : RunSpec) : (Member.fresh spec).Sound := ⟨budgeted_nil spec, rfl⟩

theorem Member.Sound.drives {taken : List RunId} {member later : Member} {start : List Event} (h : member.Sound)
    (hstart : start <+: member.events) (hrecords : RecordsChildren member start)
    (hdrives : Drives taken member start later) : later.Sound := by
  obtain ⟨hspec, stamp, setup, tools, d, result, finish, hresume, hrun, hevents⟩ := hdrives
  have hcut : payloads start <+: payloads member.events := hstart.map _
  have hstored : charged (payloads start) = member.children := by
    rw [← h.charged_eq]
    apply charged_eq_of_records hcut
    rw [h.charged_eq]
    exact hrecords
  have hbudgeted : Budgeted member.spec (payloads start) := fun cut hcutOff => h.budgeted cut (hcutOff.trans hcut)
  have hsafe := ((Driver.resume_cases hresume).setUp setup).runUntil_inStep taken hbudgeted hstored tools
  have hstep := hsafe.run (fun _ _ _ _ _ => trivial) trivial hrun
  refine ⟨?_, ?_⟩
  · rw [hspec, hevents, ← hstep.spec_eq]
    exact hstep.budgeted
  · rw [hevents]
    exact hstep.charged_eq

/-- What the runs of a family were given is what the root was given and what they gave each other. -/
structure FamilySound (spec : RunSpec) (family : List Member) : Prop where
  members : ∀ member ∈ family, member.Sound
  limits : ∀ resource, (family.map fun member => (member.spec.limits.of resource).toNat).sum =
    (spec.limits.of resource).toNat + (family.map fun member => givenTo resource member.children).sum

theorem reaches_sound {spec : RunSpec} {family : List Member} (h : Reaches spec RecordsChildren family) :
    FamilySound spec family := by
  induction h with
  | root => exact ⟨by simpa using Member.fresh_sound spec, fun resource => by simp [Member.fresh, givenTo]⟩
  | @drive before after member later start specs family hstart hrecords hdrives hspecs ih =>
      refine ⟨fun other hmem => ?_, fun resource => ?_⟩
      · simp only [List.mem_append, List.mem_cons, List.mem_map] at hmem
        rcases hmem with (hbefore | rfl | hafter) | ⟨child, -, rfl⟩
        · exact ih.members other (by simp [hbefore])
        · exact (ih.members member (by simp)).drives hstart hrecords hdrives
        · exact ih.members other (by simp [hafter])
        · exact Member.fresh_sound child
      · have hsum := ih.limits resource
        have hgiven : givenTo resource later.children = givenTo resource member.children +
            (specs.map fun spec => (spec.limits.of resource).toNat).sum := by
          rw [hspecs]
          simp [givenTo, Function.comp_def]
        have hnew : (specs.map fun spec => givenTo resource (Member.fresh spec).children).sum = 0 := by
          simp [Member.fresh, givenTo]
        simp only [List.map_append, List.map_cons, List.map_map, List.sum_append, List.sum_cons, Function.comp_def]
          at hsum ⊢
        rw [hgiven, hnew, hdrives.1]
        change _ + (specs.map fun spec => (spec.limits.of resource).toNat).sum = _
        omega

theorem FamilySound.spentBy_le {spec : RunSpec} {family : List Member} (h : FamilySound spec family)
    (resource : Resource) : spentBy resource family ≤ (spec.limits.of resource).toNat := by
  have hsum : spentBy resource family + (family.map fun member => givenTo resource member.children).sum ≤
      (family.map fun member => (member.spec.limits.of resource).toNat).sum := by
    rw [spentBy, ← List.sum_map_add]
    refine List.sum_le_sum fun member hmem => ?_
    have hmember := h.members member hmem
    rw [← hmember.charged_eq]
    exact hmember.budgeted.within.le resource
  have := h.limits resource
  omega

theorem Within.inBudget {spec : RunSpec} {events : List Event} (h : Within spec (payloads events)) :
    InBudget spec events := by
  have hused := h.used
  have hgiven := h.given
  have hle := h.le
  refine ⟨?_, ?_⟩
  · have := hle .steps
    rw [← hused, ← hgiven] at this
    exact this
  · have := hle .modelCalls
    rw [← hused, ← hgiven] at this
    exact this

/-- While every resumed prefix records the children stored so far, each prefix of each run's log is within the
run's limits with exact counters, and the whole tree spends at most the root's limits. -/
theorem tree_within_budget (spec : RunSpec) (family : List Member) (h : Reaches spec RecordsChildren family) :
    (∀ member ∈ family, ∀ cut, cut <+: member.events →
      Within member.spec (payloads cut) ∧ InBudget member.spec cut) ∧
    ∀ resource, spentBy resource family ≤ (spec.limits.of resource).toNat := by
  have hsound := reaches_sound h
  refine ⟨fun member hmem cut hcut => ?_, hsound.spentBy_le⟩
  have hwithin := (hsound.members member hmem).budgeted (payloads cut) (hcut.map _)
  exact ⟨hwithin, hwithin.inBudget⟩

/-! ### A child that a cut log forgets -/

def delegator : RunSpec := { RunSpec.plain 1 ⟨10, 10⟩ with capabilities := [⟨"agent.delegate"⟩] }

def delegateGo : Effect := .delegate ⟨2⟩ "go"

/-- The spawner of one child: stored with the limits first asked for, and given with them ever after. The decider
is asked until `stop` decisions are counted. -/
def spawnOne (decider : DecisionView → Effect) (stop : UInt32) (stored : Children) :
    (c : HarnessCall) → c.Answer × Children
  | .decide view => (.ok (decider view), stored)
  | .spawn _ request =>
      match stored with
      | [] => (.ok ⟨⟨9⟩, request.limits⟩, [(⟨9⟩, request.limits)])
      | (runId, limits) :: _ => (.ok ⟨runId, limits⟩, stored)
  | .boundary d => (if d.state.steps < stop then .continue else .pause, stored)
  | .tool _ _ _ | .model _ _ | .send _ _ => (.error "none", stored)
  | .memoryRead _ _ _ | .memoryWrite _ _ _ _ => (.error (), stored)

def delegating : Driver.Setup := ⟨[], true, false, false, []⟩

def driven (decider : DecisionView → Effect) (stop : UInt32) (member : Member) (start : List Event) : Member :=
  match Driver.resume member.spec start Stamp.plain with
  | .error _ => member
  | .ok d =>
      let result := (Driver.runUntil [] (d.setUp delegating)).exec (spawnOne decider stop) member.children
      ⟨member.spec, result.1.1.events, result.2⟩

theorem drives_driven (taken : List RunId) (decider : DecisionView → Effect) (stop : UInt32) (member : Member)
    (start : List Event) (hnew : ⟨9⟩ ∉ taken ∨ member.children ≠ [])
    (hstart : (Driver.resume member.spec start Stamp.plain).isOk = true) :
    Drives taken member start (driven decider stop member start) := by
  unfold driven
  cases hresume : Driver.resume member.spec start Stamp.plain with
  | error reason => simp [hresume, Except.isOk, Except.toBool] at hstart
  | ok d =>
      have hrun := World.run_exec (Driver.World Children (Spawning taken) (fun _ _ => True)) (spawnOne decider stop)
        (fun stored => ⟨9⟩ ∉ taken ∨ stored ≠ []) (fun stored c hstored => ?_)
        (Driver.runUntil [] (d.setUp delegating)) hnew
      · exact ⟨rfl, Stamp.plain, delegating, [], d, _, _, hresume, hrun, rfl⟩
      cases c with
      | spawn log request =>
          cases stored with
          | nil =>
              have hfree : ⟨9⟩ ∉ taken := hstored.resolve_right fun hne => hne rfl
              exact ⟨.inr ⟨by simp, hfree, rfl, rfl⟩, .inl hfree⟩
          | cons child stored => exact ⟨.inl ⟨by simp, rfl⟩, hstored⟩
      | _ => exact ⟨rfl, hstored⟩

/-- The delegator after its first decision. -/
def delegated : Member := driven (fun _ => delegateGo) 1 (.fresh delegator) []

def child : RunSpec := RunSpec.plain 9 ⟨4, 5⟩

theorem reaches_delegated (allowed : Member → List Event → Prop) (h : allowed (.fresh delegator) []) :
    Reaches delegator allowed [delegated, .fresh child] := by
  have hstep := drives_driven [⟨1⟩] (fun _ => delegateGo) 1 (.fresh delegator) [] (.inl (by decide)) rfl
  exact @Reaches.drive delegator allowed [] [] (.fresh delegator) delegated [] [child] .root (List.prefix_refl _) h
    hstep (by decide +kernel)

/-- The run that delegated and its child are within the root's limits. -/
theorem tree_within_budget_delegated :
    (∀ member ∈ [delegated, .fresh child], ∀ cut, cut <+: member.events →
      Within member.spec (payloads cut) ∧ InBudget member.spec cut) ∧
    ∀ resource, spentBy resource [delegated, .fresh child] ≤ (delegator.limits.of resource).toNat :=
  tree_within_budget delegator _ (reaches_delegated RecordsChildren (by simp [RecordsChildren, Member.fresh]))

/-- Resumed from before its delegation, the run spends seven steps and asks for the same child, which still has
the four steps it was first given. -/
def redelegated : Member :=
  driven (fun view => if view.state.steps < 7 then .wait "" else delegateGo) 8 delegated (delegated.events.take 1)

theorem forgotten_child_exceeds_budget :
    Reaches delegator (fun _ _ => True) [redelegated, .fresh child] ∧
    ¬ InBudget redelegated.spec redelegated.events := by
  refine ⟨?_, by decide +kernel⟩
  have hstep := drives_driven [⟨1⟩, ⟨9⟩] (fun view => if view.state.steps < 7 then .wait "" else delegateGo) 8
    delegated (delegated.events.take 1) (.inr (by decide +kernel)) (by decide +kernel)
  exact @Reaches.drive delegator _ [] [.fresh child] delegated redelegated (delegated.events.take 1) []
    (reaches_delegated _ trivial) ⟨_, List.take_append_drop _ _⟩ trivial hstep (by decide +kernel)

end Gol
