import Mathlib.Data.List.Induction
import Gol.HarnessSteps

/-! The budget of a run and of the tree it starts. What a log spent and gave away is counted here without bounds;
`fold`'s counters agree with it while the run is within its limits, and a driver stays within them as long as its
log records every child its spawner has stored for it. Summed over a family of runs, what the runs spend is at
most what their root was given. -/

namespace Gol
open Library

/-! ### What a log spends and gives away -/

/-- What a run is limited in. -/
inductive Resource where
  | steps
  | modelCalls
  deriving DecidableEq

def Limits.of (limits : Limits) : Resource → UInt32
  | .steps => limits.maxSteps
  | .modelCalls => limits.maxModelCalls

def FoldState.used (s : FoldState) : Resource → UInt32
  | .steps => s.steps
  | .modelCalls => s.modelCalls

def FoldState.given (s : FoldState) : Resource → UInt32
  | .steps => s.givenSteps
  | .modelCalls => s.givenModelCalls

/-- Whether `payload`, recorded in the harness state `state`, is a counted decision or an authorized model call. -/
def costs (resource : Resource) (state : HarnessState) (payload : EventPayload) : Bool :=
  match resource, payload with
  | .steps, .effectDecided (.complete _) => !state.isRunning
  | .steps, .effectDecided _ => true
  | .modelCalls, .effectAuthorized (.modelCall _) => true
  | _, _ => false

def spentFrom (resource : Resource) (spec : RunSpec) : HarnessState → List EventPayload → Nat
  | _, [] => 0
  | state, payload :: log =>
      (if costs resource state payload then 1 else 0) + spentFrom resource spec (reduce state payload spec).1 log

/-- The counted decisions, or the authorized model calls, of a log. -/
def spent (resource : Resource) (spec : RunSpec) (log : List EventPayload) : Nat :=
  spentFrom resource spec .idle log

/-- The children of a run with their limits, in the order they were started. -/
abbrev Children := List (RunId × Limits)

def charge (children : Children) : EventPayload → Children
  | .childStarted runId _ limits =>
      if runId ∈ children.map Prod.fst then children else children ++ [(runId, limits)]
  | _ => children

/-- The children a log records, each with its first limits. -/
def charged (log : List EventPayload) : Children := log.foldl charge []

/-- What was given to `children`. -/
def givenTo (resource : Resource) (children : Children) : Nat :=
  (children.map fun child => (child.2.of resource).toNat).sum

theorem spentFrom_append (resource : Resource) (spec : RunSpec) (state : HarnessState)
    (log more : List EventPayload) :
    spentFrom resource spec state (log ++ more) = spentFrom resource spec state log +
      spentFrom resource spec (log.foldl (fun state payload => (reduce state payload spec).1) state) more := by
  induction log generalizing state with
  | nil => simp [spentFrom]
  | cons payload log ih =>
      simp only [List.cons_append, spentFrom, List.foldl_cons]
      rw [ih, Nat.add_assoc]

theorem harnessOf_eq_foldl (spec : RunSpec) (log : List EventPayload) :
    log.foldl (fun state payload => (reduce state payload spec).1) .idle = harnessOf spec log := by
  induction log using List.reverseRecOn with
  | nil => rfl
  | append_singleton log payload ih => rw [List.foldl_append, ih, harnessOf_snoc]; rfl

theorem spent_snoc (resource : Resource) (spec : RunSpec) (log : List EventPayload) (payload : EventPayload) :
    spent resource spec (log ++ [payload]) =
      spent resource spec log + if costs resource (harnessOf spec log) payload then 1 else 0 := by
  rw [spent, spentFrom_append, harnessOf_eq_foldl]
  rfl

@[simp] theorem charged_nil : charged [] = [] := rfl

theorem charged_snoc (log : List EventPayload) (payload : EventPayload) :
    charged (log ++ [payload]) = charge (charged log) payload := by
  simp [charged]

@[simp] theorem givenTo_snoc (resource : Resource) (children : Children) (child : RunId × Limits) :
    givenTo resource (children ++ [child]) = givenTo resource children + (child.2.of resource).toNat := by
  simp [givenTo]

/-! ### The counters of the fold -/

theorem foldStep_used (spec : RunSpec) (s : FoldState) (payload : EventPayload) (resource : Resource) :
    (foldStep spec s payload).used resource =
      s.used resource + if costs resource s.harness payload then 1 else 0 := by
  have hchild : ∀ runId agentId limits, (s.count (.childStarted runId agentId limits)).used resource =
      s.used resource := by
    intro runId agentId limits
    simp only [FoldState.count]
    split <;> cases resource <;> rfl
  change (s.count payload).used resource = _
  cases payload with
  | childStarted runId agentId limits =>
      rw [hchild]
      cases resource <;> simp [costs]
  | effectDecided effect =>
      cases effect <;> cases resource <;> simp [FoldState.count, costs, FoldState.used]
      all_goals split <;> simp_all
  | effectAuthorized effect => cases effect <;> cases resource <;> simp [FoldState.count, costs, FoldState.used]
  | _ => cases resource <;> simp [FoldState.count, costs]

theorem count_of_not_child (s : FoldState) {payload : EventPayload} (h : isChildStarted payload = false) :
    (s.count payload).children = s.children ∧ (s.count payload).started = s.started ∧
      ∀ resource, (s.count payload).given resource = s.given resource := by
  cases payload with
  | childStarted runId agentId limits => simp [isChildStarted] at h
  | effectDecided effect =>
      cases effect with
      | complete outcome =>
          simp only [FoldState.count]
          split <;> exact ⟨rfl, rfl, fun resource => by cases resource <;> rfl⟩
      | _ => exact ⟨rfl, rfl, fun resource => by cases resource <;> rfl⟩
  | effectAuthorized effect => cases effect <;> exact ⟨rfl, rfl, fun resource => by cases resource <;> rfl⟩
  | _ => exact ⟨rfl, rfl, fun resource => by cases resource <;> rfl⟩

theorem charge_of_not_child (children : Children) {payload : EventPayload} (h : isChildStarted payload = false) :
    charge children payload = children := by
  cases payload with
  | childStarted runId agentId limits => simp [isChildStarted] at h
  | _ => rfl

/-- The counters of the fold are exact and within the run's limits. -/
structure Within (spec : RunSpec) (log : List EventPayload) : Prop where
  used : ∀ resource, ((foldAll spec log).used resource).toNat = spent resource spec log
  given : ∀ resource, ((foldAll spec log).given resource).toNat = givenTo resource (charged log)
  children : (foldAll spec log).children.toNat = (charged log).length ∧ (charged log).length ≤ maxChildren.toNat
  started : ∀ runId, runId ∈ (foldAll spec log).started ↔ runId ∈ (charged log).map Prod.fst
  le : ∀ resource, spent resource spec log + givenTo resource (charged log) ≤ (spec.limits.of resource).toNat
  /-- A decided model call that was not authorized yet has a call left for it. -/
  room : ∀ before prompt, log = before ++ [.effectDecided (.modelCall prompt)] →
    spent .modelCalls spec log + givenTo .modelCalls (charged log) < spec.limits.maxModelCalls.toNat

theorem within_nil (spec : RunSpec) : Within spec [] where
  used resource := by cases resource <;> rfl
  given resource := by cases resource <;> rfl
  children := ⟨rfl, by simp⟩
  started runId := by simp [FoldState.init]
  le resource := by simp [spent, spentFrom, givenTo]
  room before prompt h := by simp at h

/-- A payload that starts no child keeps the run within its limits if there is room for what it costs. -/
theorem Within.snoc {spec : RunSpec} {log : List EventPayload} {payload : EventPayload} (h : Within spec log)
    (hchild : isChildStarted payload = false)
    (hroom : ∀ resource, costs resource (harnessOf spec log) payload = true →
      spent resource spec log + givenTo resource (charged log) < (spec.limits.of resource).toNat)
    (hmodel : ∀ prompt, payload = .effectDecided (.modelCall prompt) →
      spent .modelCalls spec log + givenTo .modelCalls (charged log) < spec.limits.maxModelCalls.toNat) :
    Within spec (log ++ [payload]) := by
  obtain ⟨hchildren, hstarted, hgiven⟩ := count_of_not_child (foldAll spec log) hchild
  have hcharged : charged (log ++ [payload]) = charged log := by
    rw [charged_snoc, charge_of_not_child _ hchild]
  refine ⟨fun resource => ?_, fun resource => ?_, ?_, fun runId => ?_, fun resource => ?_, ?_⟩
  · rw [foldAll_snoc, foldStep_used, spent_snoc, UInt32.toNat_add, h.used]
    have hlimit := (spec.limits.of resource).toNat_lt
    have hle := h.le resource
    cases hcosts : costs resource (harnessOf spec log) payload with
    | true =>
        have := hroom resource hcosts
        simp only [↓reduceIte, UInt32.toNat_one]
        omega
    | false =>
        simp only [Bool.false_eq_true, ↓reduceIte, UInt32.toNat_zero]
        omega
  · rw [foldAll_snoc, hcharged, ← h.given]
    exact congrArg UInt32.toNat (hgiven resource)
  · rw [foldAll_snoc, hcharged, ← h.children.1]
    exact ⟨congrArg UInt32.toNat hchildren, h.children.1 ▸ h.children.2⟩
  · rw [foldAll_snoc, hcharged, ← h.started]
    change runId ∈ ((foldAll spec log).count payload).started ↔ _
    rw [hstarted]
  · rw [spent_snoc, hcharged]
    have hle := h.le resource
    cases hcosts : costs resource (harnessOf spec log) payload with
    | true =>
        have := hroom resource hcosts
        simp only [↓reduceIte]
        omega
    | false => simpa using hle
  · intro before prompt heq
    obtain ⟨rfl, hlast⟩ := List.append_inj' heq rfl
    obtain rfl : payload = .effectDecided (.modelCall prompt) := by simpa using hlast
    rw [spent_snoc, hcharged]
    simpa [costs] using hmodel prompt rfl

theorem count_of_mem {s : FoldState} {runId : RunId} (h : runId ∈ s.started) (agentId : AgentId) (limits : Limits) :
    s.count (.childStarted runId agentId limits) = s := by
  simp [FoldState.count, h]

theorem count_of_not_mem {s : FoldState} {runId : RunId} (h : runId ∉ s.started) (agentId : AgentId)
    (limits : Limits) : s.count (.childStarted runId agentId limits) =
      { s with
        children := s.children + 1
        givenSteps := saturatingAdd s.givenSteps limits.maxSteps
        givenModelCalls := saturatingAdd s.givenModelCalls limits.maxModelCalls
        started := runId :: s.started } := by
  simp [FoldState.count, h]

theorem spent_child (resource : Resource) (spec : RunSpec) (log : List EventPayload) (runId : RunId)
    (agentId : AgentId) (limits : Limits) :
    spent resource spec (log ++ [.childStarted runId agentId limits]) = spent resource spec log := by
  rw [spent_snoc]
  cases resource <;> rfl

/-- A child that the log records already is not counted again. -/
theorem Within.oldChild {spec : RunSpec} {log : List EventPayload} (h : Within spec log) {runId : RunId}
    (hmem : runId ∈ (charged log).map Prod.fst) (agentId : AgentId) (limits : Limits) :
    Within spec (log ++ [.childStarted runId agentId limits]) := by
  have hcount := count_of_mem ((h.started runId).mpr hmem) agentId limits
  have hcharged : charged (log ++ [.childStarted runId agentId limits]) = charged log := by
    simp only [charged_snoc, charge, hmem, ↓reduceIte]
  refine ⟨fun resource => ?_, fun resource => ?_, ?_, fun other => ?_, fun resource => ?_, ?_⟩
  · rw [foldAll_snoc, spent_child, ← h.used]
    change (((foldAll spec log).count _).used resource).toNat = _
    rw [hcount]
  · rw [foldAll_snoc, hcharged, ← h.given]
    change (((foldAll spec log).count _).given resource).toNat = _
    rw [hcount]
  · rw [foldAll_snoc, hcharged]
    change ((foldAll spec log).count _).children.toNat = _ ∧ _
    rw [hcount]
    exact h.children
  · rw [foldAll_snoc, hcharged, ← h.started]
    change other ∈ ((foldAll spec log).count _).started ↔ _
    rw [hcount]
  · rw [spent_child, hcharged]
    exact h.le resource
  · intro before prompt heq
    simp at heq

/-- A new child is paid for from what is left. -/
theorem Within.newChild {spec : RunSpec} {log : List EventPayload} (h : Within spec log) {runId : RunId}
    (hmem : runId ∉ (charged log).map Prod.fst) (agentId : AgentId) {limits : Limits}
    (hchildren : (charged log).length < maxChildren.toNat)
    (hroom : ∀ resource, spent resource spec log + givenTo resource (charged log) + (limits.of resource).toNat ≤
      (spec.limits.of resource).toNat) :
    Within spec (log ++ [.childStarted runId agentId limits]) := by
  have hcount := count_of_not_mem (mt (h.started runId).mp hmem) agentId limits
  have hcharged : charged (log ++ [.childStarted runId agentId limits]) = charged log ++ [(runId, limits)] := by
    simp only [charged_snoc, charge, hmem, ↓reduceIte]
  refine ⟨fun resource => ?_, fun resource => ?_, ?_, fun other => ?_, fun resource => ?_, ?_⟩
  · rw [foldAll_snoc, spent_child, ← h.used]
    change (((foldAll spec log).count _).used resource).toNat = _
    rw [hcount]
    cases resource <;> rfl
  · rw [foldAll_snoc, hcharged, givenTo_snoc, ← h.given]
    change (((foldAll spec log).count _).given resource).toNat = _
    rw [hcount]
    have hle := hroom resource
    rw [← h.given] at hle
    have hlimit := (spec.limits.of resource).toNat_lt
    have hsum := saturatingAdd_toNat ((foldAll spec log).given resource) (limits.of resource)
    have hexact : (saturatingAdd ((foldAll spec log).given resource) (limits.of resource)).toNat =
        ((foldAll spec log).given resource).toNat + (limits.of resource).toNat := by omega
    cases resource <;> exact hexact
  · rw [foldAll_snoc, hcharged]
    change ((foldAll spec log).count _).children.toNat = _ ∧ _
    rw [hcount]
    have hlimit := maxChildren.toNat_lt
    have hone := h.children.1
    simp only [UInt32.toNat_add, UInt32.toNat_one, List.length_append, List.length_singleton]
    omega
  · rw [foldAll_snoc, hcharged, List.map_append, List.mem_append, ← h.started]
    change other ∈ ((foldAll spec log).count _).started ↔ _
    rw [hcount]
    simp [or_comm]
  · rw [spent_child, hcharged, givenTo_snoc, ← Nat.add_assoc]
    exact hroom resource
  · intro before prompt heq
    simp at heq

/-- Every prefix of the log is within the run's limits. -/
def Budgeted (spec : RunSpec) (log : List EventPayload) : Prop := ∀ cut, cut <+: log → Within spec cut

theorem budgeted_nil (spec : RunSpec) : Budgeted spec [] := by
  intro cut hcut
  rw [List.prefix_nil.mp hcut]
  exact within_nil spec

theorem Budgeted.within {spec : RunSpec} {log : List EventPayload} (h : Budgeted spec log) : Within spec log :=
  h log (List.prefix_refl log)

theorem Budgeted.snoc {spec : RunSpec} {log : List EventPayload} {payload : EventPayload} (h : Budgeted spec log)
    (hlast : Within spec (log ++ [payload])) : Budgeted spec (log ++ [payload]) := by
  intro cut hcut
  rcases List.prefix_concat_iff.mp hcut with rfl | hbefore
  · exact hlast
  · exact h cut hbefore

/-- Payloads that cost nothing and start no child. -/
def isFree : EventPayload → Bool
  | .effectDecided _ | .effectAuthorized (.modelCall _) | .childStarted _ _ _ => false
  | _ => true

theorem not_child_of_isFree {payload : EventPayload} (h : isFree payload = true) : isChildStarted payload = false := by
  cases payload <;> simp_all [isFree, isChildStarted]

theorem not_costs_of_isFree {payload : EventPayload} (h : isFree payload = true) (resource : Resource)
    (state : HarnessState) : costs resource state payload = false := by
  cases payload with
  | effectDecided effect => simp [isFree] at h
  | effectAuthorized effect => cases effect <;> cases resource <;> simp_all [isFree, costs]
  | _ => cases resource <;> rfl

theorem Budgeted.free {spec : RunSpec} {log : List EventPayload} (h : Budgeted spec log)
    (added : List EventPayload) (hfree : added.all isFree = true) :
    Budgeted spec (log ++ added) ∧ charged (log ++ added) = charged log := by
  induction added generalizing log with
  | nil => simpa using h
  | cons payload added ih =>
      simp only [List.all_cons, Bool.and_eq_true] at hfree
      have hlast : Within spec (log ++ [payload]) := by
        refine h.within.snoc (not_child_of_isFree hfree.1) (fun resource hcosts => ?_) (fun prompt heq => ?_)
        · simp [not_costs_of_isFree hfree.1] at hcosts
        · simp [heq, isFree] at hfree
      obtain ⟨hbudgeted, hcharged⟩ := ih (h.snoc hlast) hfree.2
      rw [List.append_cons]
      refine ⟨hbudgeted, hcharged.trans ?_⟩
      rw [charged_snoc, charge_of_not_child _ (not_child_of_isFree hfree.1)]

/-! ### The spawner and the deliverer -/

/-- A run id asked for again gets the limits first stored for it; a new one, the limits asked for. No run of
`taken` is a new one. -/
def Stores (taken : List RunId) (stored : Children) (child : StartedChild) (asked : Limits) (later : Children) :
    Prop :=
  ((child.runId, child.limits) ∈ stored ∧ later = stored) ∨
  (child.runId ∉ stored.map Prod.fst ∧ child.runId ∉ taken ∧ child.limits = asked ∧
    later = stored ++ [(child.runId, asked)])

/-- What a call does to the children stored for a run. -/
def Spawning (taken : List RunId) (stored : Children) (c : HarnessCall) (answer : c.Answer) (later : Children) :
    Prop :=
  match c, answer with
  | .spawn _ request, .ok child => Stores taken stored child request.limits later
  | .send _ request, .ok sent =>
      match sent.task with
      | none => later = stored
      | some task => ∃ asked, request.limits = some asked ∧ Stores taken stored task asked later
  | _, _ => later = stored

namespace Driver

variable {taken : List RunId} {stored later : Children}

theorem left_toNat (max used given : UInt32) : (left max used given).toNat =
    max.toNat - min (used.toNat + given.toNat) (2 ^ 32 - 1) := by
  rw [left, saturatingSub_toNat, saturatingAdd_toNat]

/-- What is carved leaves the run within its limits, and another child. -/
theorem carve_room {d : Driver} {limits : Limits} (h : d.carve = .ok limits) (hwithin : Within d.spec d.log) :
    (charged d.log).length < maxChildren.toNat ∧
    ∀ resource, spent resource d.spec d.log + givenTo resource (charged d.log) + (limits.of resource).toNat ≤
      (d.spec.limits.of resource).toNat := by
  have hhalf : ∀ resource, (left (d.spec.limits.of resource) ((foldAll d.spec d.log).used resource)
      ((foldAll d.spec d.log).given resource)).toNat / 2 + (spent resource d.spec d.log +
        givenTo resource (charged d.log)) ≤ (d.spec.limits.of resource).toNat := by
    intro resource
    have hle := hwithin.le resource
    have hlimit := (d.spec.limits.of resource).toNat_lt
    rw [left_toNat, hwithin.used, hwithin.given]
    omega
  unfold carve at h
  dsimp only at h
  split at h
  · contradiction
  · split at h
    · contradiction
    · next hchildren =>
        split at h
        · contradiction
        · cases h
          have hlt : d.state.children.toNat < maxChildren.toNat := by
            rw [UInt32.le_iff_toNat_le] at hchildren
            omega
          refine ⟨hwithin.children.1 ▸ hlt, fun resource => ?_⟩
          have := hhalf resource
          cases resource <;> simp only [Limits.of, UInt32.toNat_div] <;> rw [Nat.add_comm] <;> exact this

/-- A child that was answered is recorded: the log stays in step with what is stored. -/
theorem budgeted_child {d : Driver} (hbudgeted : Budgeted d.spec d.log) (hstored : charged d.log = stored)
    {child : StartedChild} {asked : Limits} (hcarve : d.carve = .ok asked)
    (h : Stores taken stored child asked later) (agentId : AgentId) :
    Budgeted d.spec (d.log ++ [.childStarted child.runId agentId child.limits]) ∧
      charged (d.log ++ [.childStarted child.runId agentId child.limits]) = later := by
  subst hstored
  rw [charged_snoc]
  rcases h with ⟨hmem, rfl⟩ | ⟨hnew, -, hlimits, rfl⟩
  · have hold : child.runId ∈ (charged d.log).map Prod.fst := List.mem_map_of_mem hmem
    exact ⟨hbudgeted.snoc (hbudgeted.within.oldChild hold agentId _), by simp only [charge, hold, ↓reduceIte]⟩
  · obtain ⟨hchildren, hroom⟩ := carve_room hcarve hbudgeted.within
    rw [hlimits]
    exact ⟨hbudgeted.snoc (hbudgeted.within.newChild hnew agentId hchildren hroom),
      by simp only [charge, hnew, ↓reduceIte]⟩

/-- What a call of an outcome did to the stored children. -/
def Called (taken : List RunId) (stored : Children) : Option (Sigma HarnessCall.Answer) → Children → Prop
  | none, later => later = stored
  | some ⟨c, answer⟩, later => Spawning taken stored c answer later

/-- Carrying out an effect keeps the log in step with what is stored. -/
theorem Outcome.budgeted {d : Driver} {effect : Effect} {call : Option (Sigma HarnessCall.Answer)}
    {added : List EventPayload} (h : d.Outcome effect call added) (hbudgeted : Budgeted d.spec d.log)
    (hstored : charged d.log = stored) (hcalled : Called taken stored call later) :
    Budgeted d.spec (d.log ++ added) ∧ charged (d.log ++ added) = later := by
  have hfree : later = stored → added.all isFree = true →
      Budgeted d.spec (d.log ++ added) ∧ charged (d.log ++ added) = later := by
    rintro rfl hall
    exact ⟨(hbudgeted.free added hall).1, (hbudgeted.free added hall).2.trans hstored⟩
  cases h with
  | childStarted agentId input request child hparent hcarve =>
      exact budgeted_child hbudgeted hstored hcarve hcalled agentId
  | messageSent toAgent body expectsReply replyTo timeoutSecs request sent hfrom hrunning hcarve =>
      cases htask : sent.task with
      | none =>
          simp only [Called, Spawning, htask] at hcalled
          rw [htask] at hfree
          exact hfree hcalled rfl
      | some task =>
          simp only [Called, Spawning, htask] at hcalled
          obtain ⟨asked, hasked, hstores⟩ := hcalled
          obtain ⟨hchild, hcharged⟩ := budgeted_child hbudgeted hstored (hcarve asked hasked) hstores toAgent
          have hmessage := hchild.free [.messageSent sent.messageId toAgent expectsReply] rfl
          simp only [Option.toList_some, List.map_cons, List.map_nil, List.cons_append, List.nil_append]
          rw [List.append_cons]
          exact ⟨hmessage.1, hmessage.2.trans hcharged⟩
  | delegateRefused agentId input call reason hcall =>
      rcases hcall with rfl | ⟨request, rfl⟩ <;> exact hfree hcalled rfl
  | messageRefused toAgent body expectsReply replyTo timeoutSecs call reason hcall =>
      rcases hcall with rfl | ⟨request, rfl⟩ <;> exact hfree hcalled rfl
  | readFailed scope key call cls message hcall => rcases hcall with rfl | ⟨owner, rfl⟩ <;> exact hfree hcalled rfl
  | writeFailed scope key value call cls message hcall =>
      rcases hcall with rfl | ⟨owner, rfl⟩ <;> exact hfree hcalled rfl
  | _ => exact hfree hcalled rfl

/-! ### The loop stays within the limits -/

theorem modelCalls_lt_of_not_overBudget {d : Driver} {prompt : String} (hwithin : Within d.spec d.log)
    (h : d.overBudget (.modelCall prompt) = false) :
    spent .modelCalls d.spec d.log + givenTo .modelCalls (charged d.log) < d.spec.limits.maxModelCalls.toNat := by
  simp only [overBudget, Bool.or_eq_false_iff] at h
  have hlt : ¬ d.spec.limits.maxModelCalls ≤ saturatingAdd d.state.modelCalls d.state.givenModelCalls := by
    simpa [modelCallsSpent] using h.2
  have hused : d.state.modelCalls.toNat = _ := hwithin.used .modelCalls
  have hgiven : d.state.givenModelCalls.toNat = _ := hwithin.given .modelCalls
  have hmax := d.spec.limits.maxModelCalls.toNat_lt
  rw [UInt32.le_iff_toNat_le, saturatingAdd_toNat, hused, hgiven] at hlt
  omega

/-- A decision within the budget has room for what it costs. -/
theorem budgeted_decided {d : Driver} {effect : Effect} (hbudgeted : Budgeted d.spec d.log)
    (h : d.overBudget effect = false) :
    Budgeted d.spec (d.log ++ [.effectDecided effect]) ∧
      charged (d.log ++ [.effectDecided effect]) = charged d.log := by
  refine ⟨hbudgeted.snoc (hbudgeted.within.snoc rfl (fun resource hcosts => ?_) fun prompt heq => ?_),
    charged_snoc _ _⟩
  · cases resource with
    | modelCalls => simp [costs] at hcosts
    | steps =>
        have hcomplete : ∀ outcome, effect = .complete outcome → d.state.harness.isRunning = false := by
          rintro outcome rfl
          simpa [costs, harness_eq] using hcosts
        have hlt := lt_of_not_overBudget h hcomplete
        have hused : d.state.steps.toNat = _ := hbudgeted.within.used .steps
        have hgiven : d.state.givenSteps.toNat = _ := hbudgeted.within.given .steps
        rwa [hused, hgiven] at hlt
  · cases heq
    exact modelCalls_lt_of_not_overBudget hbudgeted.within h

/-- Authorizing the effect a log just decided. -/
theorem budgeted_authorized {spec : RunSpec} {before : List EventPayload} {effect : Effect}
    (hbudgeted : Budgeted spec (before ++ [.effectDecided effect])) :
    Budgeted spec (before ++ [.effectDecided effect] ++ [.effectAuthorized effect]) ∧
      charged (before ++ [.effectDecided effect] ++ [.effectAuthorized effect]) =
        charged (before ++ [.effectDecided effect]) := by
  refine ⟨hbudgeted.snoc (hbudgeted.within.snoc rfl (fun resource hcosts => ?_) fun prompt heq => ?_),
    charged_snoc _ _⟩
  · cases resource with
    | steps => simp [costs] at hcosts
    | modelCalls =>
        cases effect with
        | modelCall prompt => exact hbudgeted.within.room before prompt rfl
        | _ => simp [costs] at hcosts
  · cases heq

theorem advance_free (d : Driver) : d.advance.all isFree = true := by
  unfold advance
  split
  · split <;> rfl
  · rfl

/-- The driver of `spec` is within its limits, and its log records exactly the stored children. -/
structure InStep (spec : RunSpec) (stored : Children) (d : Driver) : Prop where
  spec_eq : d.spec = spec
  budgeted : Budgeted d.spec d.log
  charged_eq : charged d.log = stored

theorem InStep.free {spec : RunSpec} {d d' : Driver} {added : List EventPayload} (h : InStep spec stored d)
    (hfree : added.all isFree = true) (hext : d.Extends d' added) : InStep spec stored d' := by
  obtain ⟨hbudgeted, hcharged⟩ := h.budgeted.free added hfree
  refine ⟨hext.spec_eq.trans h.spec_eq, ?_, ?_⟩
  · rw [hext.spec_eq, hext.log_eq]
    exact hbudgeted
  · rw [hext.log_eq, hcharged, h.charged_eq]

/-- An effect authorized within the budget, carried out, and the step it may advance. -/
theorem Outcome.inStep {spec : RunSpec} {mid d' : Driver} (last : Driver) {effect : Effect}
    {call : Option (Sigma HarnessCall.Answer)} {added : List EventPayload} (h : mid.Outcome effect call added)
    (hmid : InStep spec stored mid) (hcalled : Called taken stored call later) (hspec : d'.spec = mid.spec)
    (hlog : d'.log = mid.log ++ (added ++ last.advance)) : InStep spec later d' := by
  obtain ⟨hbudgeted, hcharged⟩ := h.budgeted hmid.budgeted hmid.charged_eq hcalled
  obtain ⟨hfinal, hsame⟩ := hbudgeted.free last.advance last.advance_free
  refine ⟨hspec.trans hmid.spec_eq, ?_, ?_⟩
  · rw [hspec, hlog, ← List.append_assoc]
    exact hfinal
  · rw [hlog, ← List.append_assoc, hsame, hcharged]

theorem Batch.inStep {spec : RunSpec} {d d' : Driver} {call : Option (Sigma HarnessCall.Answer)}
    {added : List EventPayload} (h : d.Batch call added) (hstep : InStep spec stored d)
    (hcalled : Called taken stored call later) (hext : d.Extends d' added) : InStep spec later d' := by
  cases h with
  | overBudget effect hover =>
      rw [show later = stored from hcalled]
      exact hstep.free rfl hext
  | denied effect reason hbudget hcomplete =>
      rw [show later = stored from hcalled]
      obtain ⟨hdecided, hcharged⟩ := budgeted_decided hstep.budgeted hbudget
      obtain ⟨hfinal, hsame⟩ := hdecided.free [.effectDenied effect reason] rfl
      rw [List.append_assoc] at hfinal hsame
      refine ⟨hext.spec_eq.trans hstep.spec_eq, ?_, ?_⟩
      · rw [hext.spec_eq, hext.log_eq]
        exact hfinal
      · rw [hext.log_eq, ← hstep.charged_eq, ← hcharged, ← hsame]
        rfl
  | completed outcome hrunning =>
      rw [show later = stored from hcalled]
      obtain ⟨hdecided, hcharged⟩ := budgeted_decided hstep.budgeted
        (show d.overBudget (.complete outcome) = false by simp [Driver.overBudget, hrunning])
      obtain ⟨hfinal, hsame⟩ := hdecided.free [.effectAuthorized (.complete outcome), .runCompleted outcome] rfl
      rw [List.append_assoc] at hfinal hsame
      refine ⟨hext.spec_eq.trans hstep.spec_eq, ?_, ?_⟩
      · rw [hext.spec_eq, hext.log_eq]
        exact hfinal
      · rw [hext.log_eq, ← hstep.charged_eq, ← hcharged, ← hsame]
        rfl
  | performed effect call mid last more hbudget happlicable heffect hmid houtcome hlast =>
      obtain ⟨hdecided, hcharged⟩ := budgeted_decided hstep.budgeted hbudget
      obtain ⟨hauthorized, hsame⟩ := budgeted_authorized hdecided
      have hlog : mid.log = d.log ++ [.effectDecided effect] ++ [.effectAuthorized effect] := by
        rw [hmid.log_eq, List.append_assoc]
        rfl
      have hmidStep : InStep spec stored mid := by
        refine ⟨hmid.spec_eq.trans hstep.spec_eq, ?_, ?_⟩
        · rw [hmid.spec_eq, hlog]
          exact hauthorized
        · rw [hlog, hsame, hcharged, hstep.charged_eq]
      refine houtcome.inStep last hmidStep hcalled (hext.spec_eq.trans hmid.spec_eq.symm) ?_
      rw [hext.log_eq, hmid.log_eq, List.append_assoc, List.append_assoc]

/-! ### Resumed logs stay within the limits -/

theorem Starts.inStep {spec : RunSpec} {events : List Event} {d : Driver} {more : List EventPayload}
    {resumed : Bool} (h : d.Starts spec events more resumed) (hbudgeted : Budgeted spec (payloads events))
    (hstored : charged (payloads events) = stored) (hfree : more.all isFree = true) : InStep spec stored d := by
  obtain ⟨hfinal, hsame⟩ := hbudgeted.free more hfree
  refine ⟨h.spec_eq, ?_, ?_⟩
  · rw [h.log_eq, h.spec_eq]
    exact hfinal
  · rw [h.log_eq, hsame, hstored]

/-- What `resume` adds to a log costs nothing. -/
theorem Resumed.inStep {spec : RunSpec} {events : List Event} {d : Driver} (h : Resumed spec events d)
    (hbudgeted : Budgeted spec (payloads events)) (hstored : charged (payloads events) = stored) :
    InStep spec stored d := by
  cases h with
  | ended _ hstarts | started _ _ hstarts | completed _ _ _ _ hstarts | terminal _ _ _ _ hstarts
  | undecided _ _ _ _ _ _ hstarts | pending _ _ _ _ hstarts => exact hstarts.inStep hbudgeted hstored rfl

/-- A decision that waits to be authorized is the last event of its log. -/
theorem Resumed.last_of_undecided {spec : RunSpec} {events : List Event} {d : Driver} (h : Resumed spec events d)
    {harness : HarnessState} {effect : Effect} (hundecided : d.undecided = some (harness, effect)) :
    ∃ before, d.log = before ++ [.effectDecided effect] := by
  cases h with
  | undecided _ _ _ before decided hlast hstarts _ hsome =>
      rw [hsome, Option.some.injEq, Prod.mk.injEq] at hundecided
      exact ⟨before, by rw [hstarts.log_eq, List.append_nil, hlast, hundecided.2]⟩
  | _ =>
      rw [‹d.undecided = none›] at hundecided
      contradiction

/-- What `runUntil` finishes of a resumed log keeps it within the limits. -/
theorem Finished.inStep {spec : RunSpec} {d d' : Driver} {call : Option (Sigma HarnessCall.Answer)}
    {added : List EventPayload} (h : d.Finished call added) (hstep : InStep spec stored d)
    (hlast : ∀ harness effect, d.undecided = some (harness, effect) →
      ∃ before, d.log = before ++ [.effectDecided effect])
    (hcalled : Called taken stored call later) (hext : d.settled.Extends d' added) : InStep spec later d' := by
  have hsettled : InStep spec stored d.settled := ⟨hstep.spec_eq, hstep.budgeted, hstep.charged_eq⟩
  cases h with
  | untouched =>
      rw [show later = stored from hcalled]
      exact hsettled.free rfl hext
  | advanced =>
      rw [show later = stored from hcalled]
      exact hsettled.free d.settled.advance_free hext
  | performed effect call last more hpending hundecided houtcome =>
      exact houtcome.inStep last hsettled hcalled hext.spec_eq hext.log_eq
  | denied harness effect reason last =>
      rw [show later = stored from hcalled]
      refine hsettled.free ?_ hext
      rw [List.all_append, last.advance_free]
      rfl
  | completed harness outcome last =>
      rw [show later = stored from hcalled]
      refine hsettled.free ?_ hext
      rw [List.all_append, last.advance_free]
      rfl
  | authorized harness effect call mid last more hundecided happlicable heffect hmid houtcome =>
      obtain ⟨before, hbefore⟩ := hlast harness effect hundecided
      have hbudgeted := hstep.budgeted
      rw [hbefore] at hbudgeted
      obtain ⟨hauthorized, hsame⟩ := budgeted_authorized hbudgeted
      rw [← hbefore] at hauthorized hsame
      have hlog : mid.log = d.log ++ [.effectAuthorized effect] := hmid.log_eq
      have hspec : mid.spec = d.spec := hmid.spec_eq
      have hmidStep : InStep spec stored mid := by
        refine ⟨hspec.trans hstep.spec_eq, ?_, ?_⟩
        · rw [hspec, hlog]
          exact hauthorized
        · rw [hlog, hsame, hstep.charged_eq]
      refine houtcome.inStep last hmidStep hcalled (hext.spec_eq.trans hmid.spec_eq.symm) ?_
      rw [hext.log_eq, hmid.log_eq, List.append_assoc, List.append_assoc]

theorem inStep_loopRule (spec : RunSpec) (taken : List RunId) (tools : List ToolDescriptor) :
    LoopRule (Spawning taken) (fun _ _ => True) tools (InStep spec) (fun stored result => InStep spec stored result.1)
    where
  boundary _ _ hstep _ := ⟨trivial, fun _ later hlater => (show later = _ from hlater) ▸ hstep⟩
  decide _ _ hstep _ := ⟨trivial, fun _ later hlater => (show later = _ from hlater) ▸ hstep⟩
  work _ _ _ _ _ _ _ _ _ _ := trivial
  batch _ _ _ _ hstep _ hbatch hext := hbatch.inStep hstep (show Called taken _ none _ from rfl) hext
  batchCall _ _ _ _ _ _ _ hstep _ hspawning hbatch hext _ := hbatch.inStep hstep hspawning hext
  ended _ _ hstep _ := hstep
  cancelled _ d later hstep _ hlater := by
    rw [show later = _ from hlater]
    exact hstep.free rfl (d.extends_push .runCancelled .system)
  paused _ _ later hstep _ hlater := (show later = _ from hlater) ▸ hstep
  waiting _ _ later _ _ _ hstep _ hlater _ := (show later = _ from hlater) ▸ hstep
  failed _ _ _ later hstep _ hlater := (show later = _ from hlater) ▸ hstep

/-- A resumed log that is within its limits and records what is stored stays so. -/
theorem Resumed.runUntil_inStep {spec : RunSpec} {events : List Event} {d : Driver} (h : Resumed spec events d)
    (taken : List RunId) (hbudgeted : Budgeted spec (payloads events)) (hstored : charged (payloads events) = stored)
    (tools : List ToolDescriptor) :
    (World Children (Spawning taken) (fun _ _ => True)).Safe (fun stored result => InStep spec stored result.1)
      (runUntil tools d) stored := by
  have hstep := h.inStep hbudgeted hstored
  have hlast : ∀ harness effect, d.undecided = some (harness, effect) →
      ∃ before, d.log = before ++ [.effectDecided effect] := fun _ _ => h.last_of_undecided
  refine runUntil_safe (inStep_loopRule spec taken tools) h.resumable _ (fun _ _ _ _ _ _ _ => trivial) ?_ ?_
  · exact fun added d' hfinished hext => hfinished.inStep hstep hlast (show Called taken _ none _ from rfl) hext
  · exact fun c answer later added d' hspawning hfinished hext _ => hfinished.inStep hstep hlast hspawning hext

end Driver
end Gol
