import Mathlib.Algebra.Order.Ring.Nat
import Gol.HarnessBudget

/-! What a run pays for. Whatever the spawner answers, each decision and each model call of a log had one left when it
was made, and a child is given less than what was left. Between two boundaries a run decides once. -/

namespace Gol
open Library

/-- Payloads that are paid for when they are recorded. -/
def isPriced : EventPayload → Bool
  | .effectDecided _ | .effectAuthorized (.modelCall _) => true
  | _ => false

theorem isPriced_of_isFree {payload : EventPayload} (h : isFree payload = true) : isPriced payload = false := by
  cases payload with
  | effectDecided effect => cases h
  | effectAuthorized effect =>
      cases effect with
      | modelCall prompt => cases h
      | _ => rfl
  | _ => rfl

theorem not_costs_of_unpriced {payload : EventPayload} (h : isPriced payload = false) (resource : Resource)
    (state : HarnessState) : costs resource state payload = false := by
  cases payload with
  | effectDecided effect => cases h
  | effectAuthorized effect =>
      cases effect with
      | modelCall prompt => cases h
      | _ => cases resource <;> rfl
  | _ => cases resource <;> rfl

theorem spent_append_unpriced (resource : Resource) (spec : RunSpec) (log : List EventPayload)
    {added : List EventPayload} (h : ∀ payload ∈ added, isPriced payload = false) :
    spent resource spec (log ++ added) = spent resource spec log := by
  induction added using List.reverseRecOn with
  | nil => rw [List.append_nil]
  | append_singleton added payload ih =>
      rw [← List.append_assoc, spent_snoc, not_costs_of_unpriced (h payload (by simp)),
        ih fun other hother => h other (List.mem_append_left _ hother)]
      rfl

theorem spent_mono (resource : Resource) (spec : RunSpec) {cut log : List EventPayload} (h : cut <+: log) :
    spent resource spec cut ≤ spent resource spec log := by
  obtain ⟨more, rfl⟩ := h
  rw [spent, spent, spentFrom_append]
  exact Nat.le_add_right _ _

/-- A decision and its authorization cost one of each resource at most. -/
theorem spent_decided_le (resource : Resource) (spec : RunSpec) (log : List EventPayload) (effect : Effect) :
    spent resource spec (log ++ [.effectDecided effect, .effectAuthorized effect]) ≤ spent resource spec log + 1 := by
  rw [List.append_cons, spent_snoc, spent_snoc]
  cases resource with
  | steps =>
      have hlast : ∀ state, costs .steps state (.effectAuthorized effect) = false := fun _ => rfl
      rw [hlast]
      split <;> simp
  | modelCalls =>
      have hfirst : ∀ state, costs .modelCalls state (.effectDecided effect) = false := fun _ => rfl
      rw [hfirst]
      simp only [Bool.false_eq_true, ↓reduceIte, Nat.add_zero]
      split <;> omega

/-! ### What was charged -/

/-- What is charged was charged before or was recorded since. -/
theorem mem_charged_append {log added : List EventPayload} {child : RunId × Limits}
    (h : child ∈ charged (log ++ added)) :
    child ∈ charged log ∨ ∃ agentId, .childStarted child.1 agentId child.2 ∈ added := by
  induction added using List.reverseRecOn with
  | nil => exact .inl (by simpa using h)
  | append_singleton added payload ih =>
      have hbefore : child ∈ charged (log ++ added) →
          child ∈ charged log ∨ ∃ agentId, .childStarted child.1 agentId child.2 ∈ added ++ [payload] := fun hmem =>
        (ih hmem).imp_right fun ⟨agentId, hagent⟩ => ⟨agentId, List.mem_append_left _ hagent⟩
      rw [← List.append_assoc, charged_snoc] at h
      cases payload with
      | childStarted runId agentId limits =>
          simp only [charge] at h
          split at h
          · exact hbefore h
          · rcases List.mem_append.mp h with hmem | hmem
            · exact hbefore hmem
            · obtain rfl := List.mem_singleton.mp hmem
              exact .inr ⟨agentId, by simp⟩
      | _ => exact hbefore h

theorem charged_append_of_none (log : List EventPayload) {added : List EventPayload}
    (h : ∀ payload ∈ added, isChildStarted payload = false) : charged (log ++ added) = charged log := by
  induction added using List.reverseRecOn with
  | nil => rw [List.append_nil]
  | append_singleton added payload ih =>
      rw [← List.append_assoc, charged_snoc, charge_of_not_child _ (h payload (by simp)),
        ih fun other hother => h other (List.mem_append_left _ hother)]

/-- The fold has started the children that its log charges. -/
theorem mem_started_iff (spec : RunSpec) (log : List EventPayload) (runId : RunId) :
    runId ∈ (foldAll spec log).started ↔ runId ∈ (charged log).map Prod.fst := by
  induction log using List.reverseRecOn generalizing runId with
  | nil => simp [FoldState.init]
  | append_singleton log payload ih =>
      rw [foldAll_snoc, charged_snoc]
      change runId ∈ ((foldAll spec log).count payload).started ↔ _
      cases hchild : isChildStarted payload with
      | false => rw [(count_of_not_child _ hchild).2.1, charge_of_not_child _ hchild, ih]
      | true =>
          cases payload with
          | childStarted child agentId limits =>
              by_cases hmem : child ∈ (charged log).map Prod.fst
              · rw [count_of_mem (ih child |>.mpr hmem), ih]
                simp only [charge, hmem, ↓reduceIte]
              · rw [count_of_not_mem (mt (ih child).mp hmem)]
                simp only [charge, hmem, ↓reduceIte, List.mem_cons, List.map_append, List.mem_append, ih, List.map_cons,
                  List.map_nil, List.not_mem_nil, or_false]
                exact or_comm
          | _ => cases hchild

/-- The fold's counter of what was given counts all of it, up to its bound. -/
theorem given_toNat (spec : RunSpec) (log : List EventPayload) (resource : Resource) :
    ((foldAll spec log).given resource).toNat = min (givenTo resource (charged log)) (2 ^ 32 - 1) := by
  induction log using List.reverseRecOn with
  | nil => cases resource <;> rfl
  | append_singleton log payload ih =>
      rw [foldAll_snoc, charged_snoc]
      change (((foldAll spec log).count payload).given resource).toNat = _
      cases hchild : isChildStarted payload with
      | false => rw [(count_of_not_child _ hchild).2.2, charge_of_not_child _ hchild, ih]
      | true =>
          cases payload with
          | childStarted child agentId limits =>
              by_cases hmem : child ∈ (charged log).map Prod.fst
              · rw [count_of_mem ((mem_started_iff spec log child).mpr hmem)]
                simp only [charge, hmem, ↓reduceIte, ih]
              · rw [count_of_not_mem (mt (mem_started_iff spec log child).mp hmem)]
                simp only [charge, hmem, ↓reduceIte, givenTo_snoc]
                have hsum := saturatingAdd_toNat ((foldAll spec log).given resource) (limits.of resource)
                rw [ih] at hsum
                have hexact : (saturatingAdd ((foldAll spec log).given resource) (limits.of resource)).toNat =
                    min (givenTo resource (charged log) + (limits.of resource).toNat) (2 ^ 32 - 1) := by omega
                cases resource <;> exact hexact
          | _ => cases hchild

/-! ### Paid decisions -/

/-- Each decision and each model call was paid for when it was made: one was left. A model call decided has one left
to be authorized with. -/
structure Paid (spec : RunSpec) (log : List EventPayload) : Prop where
  room : ∀ resource before payload, before ++ [payload] <+: log →
    costs resource (harnessOf spec before) payload = true →
    spent resource spec before + givenTo resource (charged before) < (spec.limits.of resource).toNat
  decided : ∀ before prompt, before ++ [.effectDecided (.modelCall prompt)] <+: log →
    spent .modelCalls spec before + givenTo .modelCalls (charged before) < spec.limits.maxModelCalls.toNat

namespace Paid

variable {spec : RunSpec} {log : List EventPayload} {payload : EventPayload}

theorem nil (spec : RunSpec) : Paid spec [] where
  room _ _ _ hcut := by simp at hcut
  decided _ _ hcut := by simp at hcut

theorem cut {part : List EventPayload} (h : Paid spec log) (hpart : part <+: log) : Paid spec part where
  room resource before payload hcut := h.room resource before payload (hcut.trans hpart)
  decided before prompt hcut := h.decided before prompt (hcut.trans hpart)

theorem snoc (h : Paid spec log)
    (hroom : ∀ resource, costs resource (harnessOf spec log) payload = true →
      spent resource spec log + givenTo resource (charged log) < (spec.limits.of resource).toNat)
    (hdecided : ∀ prompt, payload = .effectDecided (.modelCall prompt) →
      spent .modelCalls spec log + givenTo .modelCalls (charged log) < spec.limits.maxModelCalls.toNat) :
    Paid spec (log ++ [payload]) where
  room resource before last hcut hcosts := by
    rcases List.prefix_concat_iff.mp hcut with heq | hbefore
    · obtain ⟨rfl, hlast⟩ := List.append_inj' heq rfl
      obtain rfl := List.singleton_inj.mp hlast
      exact hroom resource hcosts
    · exact h.room resource before last hbefore hcosts
  decided before prompt hcut := by
    rcases List.prefix_concat_iff.mp hcut with heq | hbefore
    · obtain ⟨rfl, hlast⟩ := List.append_inj' heq rfl
      exact hdecided prompt (List.singleton_inj.mp hlast).symm
    · exact h.decided before prompt hbefore

theorem append (h : Paid spec log) {added : List EventPayload} (hadded : ∀ payload ∈ added, isPriced payload = false) :
    Paid spec (log ++ added) := by
  induction added using List.reverseRecOn with
  | nil => rwa [List.append_nil]
  | append_singleton added payload ih =>
      have hlast : isPriced payload = false := hadded payload (by simp)
      rw [← List.append_assoc]
      refine (ih fun other hother => hadded other (List.mem_append_left _ hother)).snoc (fun resource hcosts => ?_) ?_
      · rw [not_costs_of_unpriced hlast] at hcosts
        cases hcosts
      · rintro prompt rfl
        cases hlast

/-- What is paid for is within the limits, so the fold counts it exactly. -/
theorem spent_le (h : Paid spec log) (resource : Resource) :
    spent resource spec log ≤ (spec.limits.of resource).toNat := by
  induction log using List.reverseRecOn with
  | nil => simp [spent, spentFrom]
  | append_singleton log payload ih =>
      have hbefore := ih (h.cut (List.prefix_append _ _))
      rw [spent_snoc]
      cases hcosts : costs resource (harnessOf spec log) payload with
      | false => simpa using hbefore
      | true =>
          have hroom := h.room resource log payload (List.prefix_refl _) hcosts
          simp only [↓reduceIte]
          omega

theorem used_toNat (h : Paid spec log) (resource : Resource) :
    ((foldAll spec log).used resource).toNat = spent resource spec log := by
  induction log using List.reverseRecOn with
  | nil => cases resource <;> rfl
  | append_singleton log payload ih =>
      have hlimit := (spec.limits.of resource).toNat_lt
      have hspent := h.spent_le resource
      have hbefore := ih (h.cut (List.prefix_append _ _))
      rw [spent_snoc] at hspent ⊢
      rw [foldAll_snoc, foldStep_used, UInt32.toNat_add, hbefore]
      cases hcosts : costs resource (harnessOf spec log) payload with
      | false =>
          simp only [Bool.false_eq_true, ↓reduceIte, UInt32.toNat_zero]
          rw [hcosts] at hspent
          simp only [Bool.false_eq_true, ↓reduceIte] at hspent
          omega
      | true =>
          simp only [↓reduceIte, UInt32.toNat_one]
          rw [hcosts] at hspent
          simp only [↓reduceIte] at hspent
          omega

end Paid

namespace Driver

variable {d : Driver} {effect : Effect} {call : Option (Sigma HarnessCall.Answer)} {added : List EventPayload}

/-! ### Room -/

theorem lt_of_limit_lt {max used given total : Nat} (hmax : max < 2 ^ 32) (hgiven : given = min total (2 ^ 32 - 1))
    (h : min (used + given) (2 ^ 32 - 1) < max) : used + total < max := by omega

/-- A decision within the budget has one left for what it costs. -/
theorem decision_room (hpaid : Paid d.spec d.log) (h : d.overBudget effect = false) {resource : Resource}
    (hcosts : costs resource d.state.harness (.effectDecided effect) = true) :
    spent resource d.spec d.log + givenTo resource (charged d.log) < (d.spec.limits.of resource).toNat := by
  cases resource with
  | modelCalls => cases hcosts
  | steps =>
      have hcomplete : ∀ outcome, effect = .complete outcome → d.state.harness.isRunning = false := by
        rintro outcome rfl
        simpa [costs] using hcosts
      have hlt := lt_of_not_overBudget h hcomplete
      rw [← hpaid.used_toNat .steps]
      refine lt_of_limit_lt (d.spec.limits.of .steps).toNat_lt (given_toNat d.spec d.log .steps) ?_
      exact lt_of_le_of_lt (min_le_left _ _) hlt

/-- A model call decided within the budget has one left to be authorized with. -/
theorem modelCall_room {prompt : String} (hpaid : Paid d.spec d.log) (h : d.overBudget (.modelCall prompt) = false) :
    spent .modelCalls d.spec d.log + givenTo .modelCalls (charged d.log) < d.spec.limits.maxModelCalls.toNat := by
  simp only [overBudget, Bool.or_eq_false_iff] at h
  have hlt : ¬ d.spec.limits.maxModelCalls ≤ saturatingAdd d.state.modelCalls d.state.givenModelCalls := by
    simpa [modelCallsSpent] using h.2
  rw [UInt32.le_iff_toNat_le, saturatingAdd_toNat, not_le] at hlt
  rw [← hpaid.used_toNat .modelCalls]
  exact lt_of_limit_lt (d.spec.limits.of .modelCalls).toNat_lt (given_toNat d.spec d.log .modelCalls) hlt

/-- A child is given less than what is left. -/
theorem carve_lt {limits : Limits} (hpaid : Paid d.spec d.log) (h : d.carve = .ok limits) (resource : Resource) :
    spent resource d.spec d.log + givenTo resource (charged d.log) + (limits.of resource).toNat <
      (d.spec.limits.of resource).toNat := by
  have hhalf : ∀ resource, 2 ≤ (left (d.spec.limits.of resource) ((foldAll d.spec d.log).used resource)
      ((foldAll d.spec d.log).given resource)).toNat →
      spent resource d.spec d.log + givenTo resource (charged d.log) +
        (left (d.spec.limits.of resource) ((foldAll d.spec d.log).used resource)
          ((foldAll d.spec d.log).given resource)).toNat / 2 < (d.spec.limits.of resource).toNat := by
    intro resource htwo
    have hlimit := (d.spec.limits.of resource).toNat_lt
    rw [left_toNat, hpaid.used_toNat, given_toNat] at htwo ⊢
    omega
  unfold carve at h
  dsimp only at h
  split at h
  · contradiction
  · split at h
    · contradiction
    · split at h
      · contradiction
      · next hleft =>
          cases h
          simp only [Bool.or_eq_true, decide_eq_true_eq, not_or, UInt32.not_lt, UInt32.le_iff_toNat_le] at hleft
          cases resource with
          | steps =>
              simp only [Limits.of, UInt32.toNat_div]
              exact hhalf .steps hleft.1
          | modelCalls =>
              simp only [Limits.of, UInt32.toNat_div]
              exact hhalf .modelCalls hleft.2

/-! ### What a batch costs -/

theorem advance_unpriced (d : Driver) : ∀ payload ∈ d.advance, isPriced payload = false := by
  unfold advance
  split
  · split <;> simp [isPriced]
  · simp

theorem Outcome.unpriced (h : d.Outcome effect call added) : ∀ payload ∈ added, isPriced payload = false := by
  cases h with
  | messageSent toAgent body expectsReply replyTo timeoutSecs request sent =>
      intro payload hpayload
      simp only [List.mem_append, List.mem_map, List.mem_singleton] at hpayload
      rcases hpayload with ⟨task, -, rfl⟩ | rfl <;> rfl
  | _ => simp [isPriced]

/-- What carries out an effect and advances its step is unpriced. -/
theorem Outcome.unpriced_advance {mid : Driver} (h : mid.Outcome effect call added) (last : Driver) :
    ∀ payload ∈ added ++ last.advance, isPriced payload = false := by
  intro payload hpayload
  rcases List.mem_append.mp hpayload with hadded | hadvance
  · exact h.unpriced payload hadded
  · exact last.advance_unpriced payload hadvance

theorem paid_decided (hpaid : Paid d.spec d.log) (h : d.overBudget effect = false) :
    Paid d.spec (d.log ++ [.effectDecided effect]) := by
  refine hpaid.snoc (fun resource hcosts => decision_room hpaid h hcosts) ?_
  rintro prompt heq
  cases heq
  exact modelCall_room hpaid h

/-- A call that was decided last may be authorized. -/
theorem paid_authorized {spec : RunSpec} {before : List EventPayload}
    (h : Paid spec (before ++ [.effectDecided effect])) :
    Paid spec (before ++ [.effectDecided effect, .effectAuthorized effect]) := by
  rw [List.append_cons]
  refine h.snoc (fun resource hcosts => ?_) (fun prompt heq => by cases heq)
  cases resource with
  | steps => cases hcosts
  | modelCalls =>
      cases effect with
      | modelCall prompt =>
          have hroom := h.decided before prompt (List.prefix_refl _)
          rw [spent_snoc, charged_snoc]
          exact hroom
      | _ => cases hcosts

theorem paid_performed (hpaid : Paid d.spec d.log) (h : d.overBudget effect = false) :
    Paid d.spec (d.log ++ [.effectDecided effect, .effectAuthorized effect]) := paid_authorized (paid_decided hpaid h)

/-- A batch is paid for, and costs one of each resource at most. -/
theorem Batch.paid (h : d.Batch call added) (hpaid : Paid d.spec d.log) :
    Paid d.spec (d.log ++ added) ∧
      ∀ resource, spent resource d.spec (d.log ++ added) ≤ spent resource d.spec d.log + 1 := by
  have hone : ∀ (more : List EventPayload) (effect : Effect), d.overBudget effect = false →
      (∀ payload ∈ more, isPriced payload = false) →
      Paid d.spec (d.log ++ [.effectDecided effect] ++ more) ∧
        ∀ resource, spent resource d.spec (d.log ++ [.effectDecided effect] ++ more) ≤
          spent resource d.spec d.log + 1 := by
    intro more effect hbudget hmore
    refine ⟨(paid_decided hpaid hbudget).append hmore, fun resource => ?_⟩
    rw [spent_append_unpriced _ _ _ hmore]
    have hcut : d.log ++ [.effectDecided effect] <+: d.log ++ [.effectDecided effect, .effectAuthorized effect] :=
      ⟨[.effectAuthorized effect], by simp⟩
    exact (spent_mono resource d.spec hcut).trans (spent_decided_le resource d.spec d.log effect)
  have htwo : ∀ (more : List EventPayload) (effect : Effect), d.overBudget effect = false →
      (∀ payload ∈ more, isPriced payload = false) →
      Paid d.spec (d.log ++ ([.effectDecided effect, .effectAuthorized effect] ++ more)) ∧
        ∀ resource, spent resource d.spec (d.log ++ ([.effectDecided effect, .effectAuthorized effect] ++ more)) ≤
          spent resource d.spec d.log + 1 := by
    intro more effect hbudget hmore
    rw [← List.append_assoc]
    refine ⟨(paid_performed hpaid hbudget).append hmore, fun resource => ?_⟩
    rw [spent_append_unpriced _ _ _ hmore]
    exact spent_decided_le resource d.spec d.log effect
  cases h with
  | overBudget effect hover =>
      have hquiet : ∀ payload ∈ [EventPayload.runFailed .budget "limit hit"], isPriced payload = false := by
        simp [isPriced]
      refine ⟨hpaid.append hquiet, fun resource => ?_⟩
      rw [spent_append_unpriced _ _ _ hquiet]
      exact Nat.le_succ _
  | denied effect reason hbudget hcomplete =>
      have hdenied := hone [.effectDenied effect reason] effect hbudget (by simp [isPriced])
      rwa [List.append_assoc] at hdenied
  | completed outcome hrunning =>
      have hbudget : d.overBudget (.complete outcome) = false := by simp [Driver.overBudget, hrunning]
      exact htwo [.runCompleted outcome] _ hbudget (by simp [isPriced])
  | performed effect call mid last more hbudget happlicable heffect hmid houtcome hlast =>
      rw [List.append_assoc [EventPayload.effectDecided effect, EventPayload.effectAuthorized effect]]
      exact htwo (more ++ last.advance) effect hbudget (houtcome.unpriced_advance last)

/-- What finishes a resumed log is paid for, and costs one of each resource at most. -/
theorem Finished.paid (h : d.Finished call added) (hpaid : Paid d.spec d.log)
    (hlast : ∀ harness effect, d.undecided = some (harness, effect) →
      ∃ before, d.log = before ++ [.effectDecided effect]) :
    Paid d.spec (d.log ++ added) ∧
      ∀ resource, spent resource d.spec (d.log ++ added) ≤ spent resource d.spec d.log + 1 := by
  have hquiet : (∀ payload ∈ added, isPriced payload = false) → Paid d.spec (d.log ++ added) ∧
      ∀ resource, spent resource d.spec (d.log ++ added) ≤ spent resource d.spec d.log + 1 := by
    intro hunpriced
    refine ⟨hpaid.append hunpriced, fun resource => ?_⟩
    rw [spent_append_unpriced _ _ _ hunpriced]
    exact Nat.le_succ _
  have hadvanced : ∀ (first : List EventPayload) (last : Driver), (∀ payload ∈ first, isPriced payload = false) →
      ∀ payload ∈ first ++ last.advance, isPriced payload = false := by
    intro first last hfirst payload hpayload
    exact (List.mem_append.mp hpayload).elim (hfirst payload) (last.advance_unpriced payload)
  cases h with
  | untouched => exact hquiet (by simp)
  | advanced => exact hquiet d.settled.advance_unpriced
  | performed effect call last more hpending hundecided houtcome => exact hquiet (houtcome.unpriced_advance last)
  | denied harness effect reason last =>
      exact hquiet (hadvanced [.effectDenied effect reason] last (by simp [isPriced]))
  | completed harness outcome last =>
      exact hquiet (hadvanced [.effectAuthorized (.complete outcome), .runCompleted outcome] last (by simp [isPriced]))
  | authorized harness effect call mid last more hundecided happlicable heffect hmid houtcome =>
      obtain ⟨before, hbefore⟩ := hlast harness effect hundecided
      have hmore := houtcome.unpriced_advance last
      have hall : d.log ++ ([.effectAuthorized effect] ++ more ++ last.advance) =
          before ++ [.effectDecided effect, .effectAuthorized effect] ++ (more ++ last.advance) := by simp [hbefore]
      rw [hall]
      refine ⟨(paid_authorized (hbefore ▸ hpaid)).append hmore, fun resource => ?_⟩
      rw [spent_append_unpriced _ _ _ hmore, List.append_cons, ← hbefore, spent_snoc]
      split <;> omega

/-! ### Children told of -/

/-- The child a call's answer tells of, with its limits. -/
def toldBy : Sigma HarnessCall.Answer → Children
  | ⟨.spawn _ _, .ok child⟩ => [(child.runId, child.limits)]
  | ⟨.send _ _, .ok sent⟩ => sent.task.toList.map fun task => (task.runId, task.limits)
  | _ => []

/-- What is recorded as started was told of by the call just made. -/
theorem Outcome.told (h : d.Outcome effect call added) {runId : RunId} {agentId : AgentId} {limits : Limits}
    (hmem : .childStarted runId agentId limits ∈ added) : ∃ made, call = some made ∧ (runId, limits) ∈ toldBy made := by
  cases h with
  | childStarted agentId' input request child hparent hcarve =>
      simp only [List.mem_singleton, EventPayload.childStarted.injEq] at hmem
      obtain ⟨rfl, -, rfl⟩ := hmem
      exact ⟨_, rfl, List.mem_singleton_self _⟩
  | messageSent toAgent body expectsReply replyTo timeoutSecs request sent =>
      simp only [List.mem_append, List.mem_map, List.mem_singleton, reduceCtorEq, or_false,
        EventPayload.childStarted.injEq] at hmem
      obtain ⟨task, htask, rfl, -, rfl⟩ := hmem
      exact ⟨_, rfl, List.mem_map_of_mem htask⟩
  | _ => simp at hmem

theorem not_child_of_advance (last : Driver) {runId : RunId} {agentId : AgentId} {limits : Limits} :
    .childStarted runId agentId limits ∉ last.advance := by
  unfold advance
  split
  · split <;> simp
  · simp

theorem Batch.told (h : d.Batch call added) {runId : RunId} {agentId : AgentId} {limits : Limits}
    (hmem : .childStarted runId agentId limits ∈ added) : ∃ made, call = some made ∧ (runId, limits) ∈ toldBy made := by
  cases h with
  | performed effect call mid last more hbudget happlicable heffect hmid houtcome hlast =>
      simp only [List.mem_append, List.mem_cons, reduceCtorEq, List.not_mem_nil, or_false, false_or] at hmem
      exact houtcome.told (hmem.resolve_right last.not_child_of_advance)
  | _ => simp at hmem

theorem Finished.told (h : d.Finished call added) {runId : RunId} {agentId : AgentId} {limits : Limits}
    (hmem : .childStarted runId agentId limits ∈ added) : ∃ made, call = some made ∧ (runId, limits) ∈ toldBy made := by
  cases h with
  | untouched => simp at hmem
  | advanced => exact absurd hmem d.settled.not_child_of_advance
  | performed effect call last more hpending hundecided houtcome =>
      exact houtcome.told ((List.mem_append.mp hmem).resolve_right last.not_child_of_advance)
  | denied harness effect reason last | completed harness outcome last =>
      rcases List.mem_append.mp hmem with hfirst | hadvance
      · simp at hfirst
      · exact absurd hadvance last.not_child_of_advance
  | authorized harness effect call mid last more hundecided happlicable heffect hmid houtcome =>
      simp only [List.mem_append, List.mem_cons, reduceCtorEq, List.not_mem_nil, or_false, false_or] at hmem
      exact houtcome.told (hmem.resolve_right last.not_child_of_advance)

/-! ### The accounts of a run -/

/-- What a driven run has stored of its log, and the children it was told of. -/
structure Told where
  stored : List Event
  children : Children

/-- A step's events are stored at its boundary. -/
def Told.after (told : Told) (made : Sigma HarnessCall.Answer) : Told where
  stored := match made with
    | ⟨.boundary d, .continue⟩ => d.events
    | _ => told.stored
  children := told.children ++ toldBy made

/-- The log goes on from what is stored, at the cost of one of each resource at most, and charges only children told
of. -/
structure Accounts (spec : RunSpec) (told : Told) (events : List Event) : Prop where
  grows : told.stored <+: events
  paid : Paid spec (payloads events)
  charges : ∀ child ∈ charged (payloads events), child ∈ told.children
  spent_le : ∀ resource, spent resource spec (payloads events) ≤ spent resource spec (payloads told.stored) + 1

/-- A child is asked for in the run's name, at a log that charges only children told of, and gets less than what is
left. -/
def AsksFor (spec : RunSpec) (told : Told) (log : List Event) (parent : RunSpec) (limits : Limits) : Prop :=
  parent = spec ∧ (∀ child ∈ charged (payloads log), child ∈ told.children) ∧
    ∀ resource, spent resource spec (payloads log) + givenTo resource (charged (payloads log)) +
      (limits.of resource).toNat <
      (spec.limits.of resource).toNat

/-- What a driven run owes at its calls. -/
def Accountable (spec : RunSpec) (told : Told) : HarnessCall → Prop
  | .boundary d => Accounts spec told d.events
  | .spawn log request => AsksFor spec told log request.parent request.limits
  | .send log request => ∀ limits, request.limits = some limits → AsksFor spec told log request.from limits
  | _ => True

/-- A driver's accounts. -/
structure InOrder (spec : RunSpec) (told : Told) (d : Driver) : Prop where
  spec_eq : d.spec = spec
  accounts : Accounts spec told d.events

variable {spec : RunSpec} {told : Told} {d' mid : Driver}

/-- A call made in the log of a driver in order, with unpriced events or one decision added, is accounted for. -/
theorem InOrder.accountable (hspec : mid.spec = spec) (hpaid : Paid spec mid.log)
    (hcharges : ∀ child ∈ charged mid.log, child ∈ told.children) {c : HarnessCall} (hwork : mid.IsWork c) :
    Accountable spec told c := by
  obtain ⟨hlog, hwork⟩ := hwork
  have hroom : ∀ {limits : Limits}, mid.carve = .ok limits → ∀ resource, spent resource spec mid.log +
      givenTo resource (charged mid.log) + (limits.of resource).toNat < (spec.limits.of resource).toNat := by
    subst hspec
    exact fun hcarve => carve_lt hpaid hcarve
  have hasks : ∀ {log : List Event} {parent : RunSpec} {limits : Limits}, log = mid.events → parent = mid.spec →
      mid.carve = .ok limits → AsksFor spec told log parent limits := by
    rintro log parent limits rfl rfl hcarve
    exact ⟨hspec, hcharges, hroom hcarve⟩
  cases c with
  | spawn log request => exact hasks hlog hwork.1 hwork.2
  | send log request => exact fun limits hlimits => hasks hlog hwork.1 (hwork.2 limits hlimits)
  | boundary driver => exact hwork.elim
  | _ => trivial

/-- A call that carries out an effect stores nothing of the log. -/
theorem Outcome.stores {made : Sigma HarnessCall.Answer} (h : d.Outcome effect (some made) added) (told : Told) :
    (told.after made).stored = told.stored := by
  generalize hcall : some made = call at h
  cases h with
  | toolFailed | toolResult | modelResponded | modelFailed | memoryRead | memoryWritten | childStarted | messageSent =>
      cases hcall
      rfl
  | readFailed scope key call cls message h =>
      rcases h with rfl | ⟨owner, rfl⟩
      · cases hcall
      · cases hcall
        rfl
  | writeFailed scope key value call cls message h =>
      rcases h with rfl | ⟨owner, rfl⟩
      · cases hcall
      · cases hcall
        rfl
  | delegateRefused agentId input call reason h =>
      rcases h with rfl | ⟨request, rfl⟩
      · cases hcall
      · cases hcall
        rfl
  | messageRefused toAgent body expectsReply replyTo timeoutSecs call reason h =>
      rcases h with rfl | ⟨request, rfl⟩
      · cases hcall
      · cases hcall
        rfl
  | _ => cases hcall

theorem Batch.stores {made : Sigma HarnessCall.Answer} (h : d.Batch (some made) added) (told : Told) :
    (told.after made).stored = told.stored := by
  cases h with
  | performed effect call mid last more hbudget happlicable heffect hmid houtcome hlast => exact houtcome.stores told

theorem Finished.stores {made : Sigma HarnessCall.Answer} (h : d.Finished (some made) added) (told : Told) :
    (told.after made).stored = told.stored := by
  cases h with
  | performed effect call last more hpending hundecided houtcome => exact houtcome.stores told
  | authorized harness effect call mid last more hundecided happlicable heffect hmid houtcome =>
      exact houtcome.stores told

/-- What a driver in order records, at the cost of one of each resource at most, leaves it in order. -/
theorem InOrder.extends {later : Told} (h : InOrder spec told d) (hext : d.Extends d' added)
    (hpaid : Paid d.spec (d.log ++ added) ∧
      ∀ resource, spent resource d.spec (d.log ++ added) ≤ spent resource d.spec (payloads told.stored) + 1)
    (hstored : later.stored = told.stored) (hkept : ∀ child ∈ told.children, child ∈ later.children)
    (htold : ∀ runId agentId limits, .childStarted runId agentId limits ∈ added → (runId, limits) ∈ later.children) :
    InOrder spec later d' := by
  obtain ⟨rfl, haccounts⟩ := h
  have hlog : payloads d'.events = d.log ++ added := hext.log_eq
  refine ⟨hext.spec_eq, hstored ▸ haccounts.grows.trans hext.grows, hlog ▸ hpaid.1, fun child hmem => ?_, ?_⟩
  · rw [hlog] at hmem
    rcases mem_charged_append hmem with hbefore | ⟨agentId, hagent⟩
    · exact hkept child (haccounts.charges child hbefore)
    · exact htold _ _ _ hagent
  · rw [hlog, hstored]
    exact hpaid.2

/-- What a call told of is kept. -/
theorem told_kept (told : Told) (made : Sigma HarnessCall.Answer) :
    (∀ child ∈ told.children, child ∈ (told.after made).children) ∧
      ∀ child ∈ toldBy made, child ∈ (told.after made).children :=
  ⟨fun _ hmem => List.mem_append_left _ hmem, fun _ hmem => List.mem_append_right _ hmem⟩

/-- A driver in order whose log is stored is in order, whatever it was told since. -/
theorem InOrder.after (h : InOrder spec told d) {made : Sigma HarnessCall.Answer}
    (hstored : (told.after made).stored = told.stored) : InOrder spec (told.after made) d where
  spec_eq := h.spec_eq
  accounts := {
    grows := hstored ▸ h.accounts.grows
    paid := h.accounts.paid
    charges := fun child hmem => (told_kept told made).1 child (h.accounts.charges child hmem)
    spent_le := hstored ▸ h.accounts.spent_le }

theorem accounts_phaseRule (spec : RunSpec) (tools : List ToolDescriptor) :
    PhaseRule (fun told c answer later => later = told.after ⟨c, answer⟩) (Accountable spec) tools (InOrder spec)
      (fun told d => InOrder spec told d ∧ told.stored = d.events) (fun told result => InOrder spec told result.1) where
  boundary told d h _ := by
    refine ⟨h.accounts, ?_⟩
    rintro later rfl
    refine ⟨⟨h.spec_eq, List.prefix_refl _, h.accounts.paid, ?_, fun _ => Nat.le_succ _⟩, rfl⟩
    exact fun child hmem => (told_kept told _).1 child (h.accounts.charges child hmem)
  decide told d h _ := by
    refine ⟨trivial, ?_⟩
    rintro effect later rfl
    exact ⟨h.1.after rfl, h.2⟩
  work told d mid effect c h _ hbudget hext hwork := by
    obtain ⟨⟨rfl, haccounts⟩, -⟩ := h
    refine InOrder.accountable hext.spec_eq ?_ ?_ hwork
    · rw [hext.log_eq]
      exact paid_performed haccounts.paid hbudget
    · rw [hext.log_eq, charged_append_of_none _ (by simp [isChildStarted])]
      exact haccounts.charges
  batch told d added d' h _ hbatch hext := by
    obtain ⟨horder, hstored⟩ := h
    have hpaid : Paid d.spec d.log := horder.spec_eq ▸ horder.accounts.paid
    refine horder.extends hext (hstored ▸ hbatch.paid hpaid) rfl (fun _ => id) fun runId agentId limits hmem => ?_
    obtain ⟨made, hmade, -⟩ := hbatch.told hmem
    cases hmade
  batchCall told d c answer later added d' h _ hstep hbatch hext _ := by
    subst hstep
    obtain ⟨horder, hstored⟩ := h
    have hpaid : Paid d.spec d.log := horder.spec_eq ▸ horder.accounts.paid
    refine horder.extends hext (hstored ▸ hbatch.paid hpaid) (hbatch.stores told) (told_kept told _).1
      fun runId agentId limits hmem => ?_
    obtain ⟨made, hmade, htold⟩ := hbatch.told hmem
    cases hmade
    exact (told_kept told _).2 _ htold
  ended _ _ h _ := h
  cancelled told d later h _ hstep := by
    subst hstep
    have hquiet : ∀ payload ∈ [EventPayload.runCancelled], isPriced payload = false := by simp [isPriced]
    obtain ⟨rfl, haccounts⟩ := h
    suffices hlater : InOrder _ (told.after ⟨.boundary d, .cancel⟩) (d.push .runCancelled .system) from hlater
    refine InOrder.extends ⟨rfl, haccounts⟩ (d.extends_push .runCancelled .system)
      ⟨haccounts.paid.append hquiet, fun resource => ?_⟩ rfl (told_kept told _).1 (by simp)
    rw [spent_append_unpriced _ _ _ hquiet]
    exact haccounts.spent_le resource
  paused told d later h _ hstep := by
    subst hstep
    exact h.after rfl
  waiting told d later _ _ _ h _ hstep _ := by
    subst hstep
    refine ⟨h.spec_eq, List.prefix_refl _, h.accounts.paid, ?_, fun _ => Nat.le_succ _⟩
    exact fun child hmem => (told_kept told _).1 child (h.accounts.charges child hmem)
  failed told d error later h _ hstep := by
    subst hstep
    exact h.1.after rfl

/-- What `resume` adds to a log is unpriced, and starts no child. -/
theorem Resumed.adds {events : List Event} (h : Resumed spec events d) : ∃ more, d.log = payloads events ++ more ∧
    (∀ payload ∈ more, isPriced payload = false) ∧ ∀ payload ∈ more, isChildStarted payload = false := by
  cases h with
  | ended _ hstarts | started _ _ hstarts | completed _ _ _ _ hstarts | terminal _ _ _ _ hstarts
  | undecided _ _ _ _ _ _ hstarts | pending _ _ _ _ hstarts =>
      exact ⟨_, hstarts.log_eq, by simp [isPriced], by simp [isChildStarted]⟩

/-- A run resumed from a paid log, of children it was told of, keeps its accounts. -/
theorem Resumed.runUntil_accounts {events : List Event} (h : Resumed spec events d)
    (hpaid : Paid spec (payloads events)) (tools : List ToolDescriptor) :
    (World Told (fun told c answer later => later = told.after ⟨c, answer⟩) (Accountable spec)).Safe
      (fun told result => InOrder spec told result.1) (runUntil tools d) ⟨events, charged (payloads events)⟩ := by
  obtain ⟨more, hlog, hquiet, hnone⟩ := h.adds
  have hdpaid : Paid d.spec d.log := by
    rw [h.spec_eq, hlog]
    exact hpaid.append hquiet
  have hcharged : charged d.log = charged (payloads events) := by rw [hlog, charged_append_of_none _ hnone]
  have hspent : ∀ resource, spent resource d.spec d.log = spent resource d.spec (payloads events) := fun resource => by
    rw [hlog, spent_append_unpriced _ _ _ hquiet]
  have hlast : ∀ harness effect, d.undecided = some (harness, effect) →
      ∃ before, d.log = before ++ [.effectDecided effect] := fun _ _ => h.last_of_undecided
  have hstart : InOrder spec ⟨events, charged (payloads events)⟩ d.settled := by
    refine ⟨h.spec_eq, h.grows, h.spec_eq ▸ hdpaid, fun child hmem => ?_, fun resource => ?_⟩
    · exact hcharged ▸ hmem
    · rw [← h.spec_eq]
      exact (hspent resource).le.trans (Nat.le_succ _)
  have hfinished : ∀ {call added}, d.Finished call added → Paid d.spec (d.log ++ added) ∧
      ∀ resource, spent resource d.spec (d.log ++ added) ≤ spent resource d.spec (payloads events) + 1 := by
    intro call added hfinished
    obtain ⟨hpaid, hspends⟩ := hfinished.paid hdpaid hlast
    exact ⟨hpaid, fun resource => hspent resource ▸ hspends resource⟩
  refine runUntil_phases (accounts_phaseRule spec tools) h.resumable _ ?_ ?_ ?_
  · intro mid added c hpicks hext hwork
    refine InOrder.accountable (hext.spec_eq.trans h.spec_eq) ?_ ?_ hwork
    · rw [hext.log_eq, ← h.spec_eq]
      rcases hpicks with ⟨-, rfl⟩ | ⟨harness, effect, hundecided, rfl⟩
      · exact (List.append_nil d.log).symm ▸ hdpaid
      · obtain ⟨before, hbefore⟩ := hlast harness effect hundecided
        have hauthorized := paid_authorized (hbefore ▸ hdpaid)
        rw [List.append_cons, ← hbefore] at hauthorized
        exact hauthorized
    · have hnone : ∀ payload ∈ added, isChildStarted payload = false := by
        rcases hpicks with ⟨-, rfl⟩ | ⟨harness, effect, hundecided, rfl⟩ <;> simp [isChildStarted]
      rw [hext.log_eq, charged_append_of_none _ hnone]
      exact hstart.accounts.charges
  · intro added d' hfin hext
    refine hstart.extends hext (hfinished hfin) rfl (fun _ => id) fun runId agentId limits hmem => ?_
    obtain ⟨made, hmade, -⟩ := hfin.told hmem
    cases hmade
  · rintro c answer later added d' rfl hfin hext -
    refine hstart.extends hext (hfinished hfin) (hfin.stores _) (told_kept _ _).1 fun runId agentId limits hmem => ?_
    obtain ⟨made, hmade, htold⟩ := hfin.told hmem
    cases hmade
    exact (told_kept _ _).2 _ htold

end Driver

end Gol
