import Gol.HarnessEnds
import Gol.HarnessOutcomes

/-! The decisions of a driven run. Whatever its decider answers, a run asks it once for each step it has left and once
more, and then it has ended or waits for a message. Each decision is authorized or denied next, and nothing is carried
out but what was authorized just before. -/

namespace Gol
open Library

/-! ### The steps left -/

/-- The steps that a log leaves of its budget. -/
def stepsLeft (spec : RunSpec) (log : List EventPayload) : Nat :=
  spec.limits.maxSteps.toNat - ((foldAll spec log).steps.toNat + (foldAll spec log).givenSteps.toNat)

theorem foldStep_given_le (spec : RunSpec) (s : FoldState) (payload : EventPayload) :
    s.givenSteps.toNat ≤ (foldStep spec s payload).givenSteps.toNat := by
  cases payload with
  | childStarted runId agentId limits =>
      simp only [foldStep, FoldState.count]
      split
      · exact Nat.le_refl _
      · show s.givenSteps.toNat ≤ (saturatingAdd s.givenSteps limits.maxSteps).toNat
        rw [saturatingAdd_toNat]
        have hlt := s.givenSteps.toNat_lt
        omega
  | effectAuthorized effect => cases effect <;> exact Nat.le_refl _
  | effectDecided effect =>
      cases effect with
      | complete outcome =>
          simp only [foldStep, FoldState.count]
          split <;> exact Nat.le_refl _
      | _ => exact Nat.le_refl _
  | _ => exact Nat.le_refl _

theorem foldl_given_le (spec : RunSpec) (s : FoldState) (more : List EventPayload) :
    s.givenSteps.toNat ≤ (more.foldl (foldStep spec) s).givenSteps.toNat := by
  induction more generalizing s with
  | nil => exact Nat.le_refl _
  | cons payload more ih => exact Nat.le_trans (foldStep_given_le spec s payload) (ih _)

/-- What is not a decision costs no step. -/
theorem stepsLeft_append_le {spec : RunSpec} {log added : List EventPayload}
    (h : ∀ payload ∈ added, isDecided payload = false) :
    stepsLeft spec (log ++ added) ≤ stepsLeft spec log := by
  have hsteps := foldl_steps spec (foldAll spec log) h
  have hgiven := foldl_given_le spec (foldAll spec log) added
  rw [stepsLeft, stepsLeft, foldAll_append, hsteps]
  omega

namespace Driver

/-- A batch that does not end the run costs a step that was left. -/
theorem Batch.stepsLeft {d d' : Driver} {call : Option (Sigma HarnessCall.Answer)} {added : List EventPayload}
    (h : d.Batch call added) (hext : d.Extends d' added) :
    ¬ d'.Going ∨ Gol.stepsLeft d'.spec d'.log + 1 ≤ Gol.stepsLeft d.spec d.log := by
  rcases h.spends with hended | ⟨effect, rest, rfl, hbudget, hcomplete, hrest⟩
  · exact .inl (hext.not_going hended)
  · have hlt : (foldAll d.spec d.log).steps.toNat + (foldAll d.spec d.log).givenSteps.toNat <
        d.spec.limits.maxSteps.toNat :=
      lt_of_not_overBudget hbudget hcomplete
    have hmax := d.spec.limits.maxSteps.toNat_lt
    have hsteps : (foldStep d.spec (foldAll d.spec d.log) (.effectDecided effect)).steps.toNat =
        (foldAll d.spec d.log).steps.toNat + 1 := by
      rw [foldStep_steps_decided d.spec (foldAll d.spec d.log) hcomplete, UInt32.toNat_add, UInt32.toNat_one]
      omega
    have hgiven := foldStep_given_le d.spec (foldAll d.spec d.log) (.effectDecided effect)
    have hmore : Gol.stepsLeft d.spec ((d.log ++ [.effectDecided effect]) ++ rest) ≤
        Gol.stepsLeft d.spec (d.log ++ [.effectDecided effect]) := stepsLeft_append_le hrest
    have hone : Gol.stepsLeft d.spec (d.log ++ [.effectDecided effect]) + 1 ≤ Gol.stepsLeft d.spec d.log := by
      rw [Gol.stepsLeft, Gol.stepsLeft, foldAll_snoc, hsteps]
      omega
    rw [hext.spec_eq, hext.log_eq, List.append_cons]
    exact .inr (Nat.le_trans (Nat.add_le_add_right hmore 1) hone)

/-! ### A decider that always decides -/

/-- The calls a run made, each with its answer. -/
abbrev Calls := List (Sigma HarnessCall.Answer)

/-- A boundary that goes on, and a decider that always returns an effect. -/
def Willing : (c : HarnessCall) → c.Answer → Prop
  | .boundary _, answer => answer = .continue
  | .decide _, answer => ∃ effect, answer = .ok effect
  | _, _ => True

/-- Keeps the calls made, where the boundary and the decider are willing. -/
def Calls.Step (calls : Calls) (c : HarnessCall) (answer : c.Answer) (later : Calls) : Prop :=
  later = calls ++ [⟨c, answer⟩] ∧ Willing c answer

def isDecide : HarnessCall → Bool
  | .decide _ => true
  | _ => false

/-- How often the decider was asked. -/
def Calls.asked (calls : Calls) : Nat := calls.countP fun call => isDecide call.1

theorem Calls.asked_snoc (calls : Calls) (c : HarnessCall) (answer : c.Answer) :
    Calls.asked (calls ++ [⟨c, answer⟩]) = calls.asked + if isDecide c then 1 else 0 := by
  rw [asked, List.countP_append, List.countP_singleton]
  rfl

theorem Outcome.not_decide {d : Driver} {effect : Effect} {c : HarnessCall} {answer : c.Answer}
    {added : List EventPayload} (h : d.Outcome effect (some ⟨c, answer⟩) added) : isDecide c = false := by
  generalize hcall : some (⟨c, answer⟩ : Sigma HarnessCall.Answer) = call at h
  cases h with
  | readFailed _ _ _ _ _ hcalled | writeFailed _ _ _ _ _ _ hcalled | delegateRefused _ _ _ _ hcalled
  | messageRefused _ _ _ _ _ _ _ hcalled =>
      rcases hcalled with hnone | ⟨_, hsome⟩
      · rw [hnone] at hcall
        cases hcall
      · rw [hsome] at hcall
        cases hcall
        rfl
  | _ =>
      cases hcall
      try rfl

theorem Batch.not_decide {d : Driver} {c : HarnessCall} {answer : c.Answer} {added : List EventPayload}
    (h : d.Batch (some ⟨c, answer⟩) added) : isDecide c = false := by
  cases h with
  | performed effect call mid last more hbudget happlicable heffect hmid houtcome hlast => exact houtcome.not_decide

/-- How a run with a willing decider returns: it ended, or waits for a message. -/
def Rests (result : Driver × Finish) : Prop :=
  result.2 = .ok ∧ (¬ result.1.Going ∨ ∃ step attempt ask, result.1.state.harness = .waitingForMessage step attempt ask)

/-- The loop asks its decider at most once for each step left and once more, and not at all of a run that has ended. -/
theorem runLoop_asks (tools : List ToolDescriptor) (fuel : Nat) {d : Driver} (hfuel : d.Fueled fuel) (calls : Calls) :
    (World Calls Calls.Step fun _ _ => True).Safe
      (fun later result => (¬ d.Going → later = calls) ∧ later.asked ≤ calls.asked + stepsLeft d.spec d.log + 1 ∧
        Rests result) (runLoop tools fuel d) calls := by
  induction fuel generalizing d calls with
  | zero => rcases hfuel with ⟨-, hfuel⟩ | hfuel <;> omega
  | succ fuel ih =>
      rw [runLoop]
      split
      · next hended =>
          have hnot : ¬ d.Going := fun hgoing => by simp [hgoing.1, hgoing.2] at hended
          exact World.safe_alone_ret.mpr ⟨fun _ => rfl, by omega, rfl, .inl hnot⟩
      · next hopen =>
          have hgoing : d.Going := by simpa [Going] using hopen
          refine World.safe_alone_call.mpr ⟨trivial, ?_⟩
          rintro answer later ⟨rfl, rfl⟩
          have hboundary : Calls.asked (calls ++ [⟨.boundary d, .continue⟩]) = calls.asked := calls.asked_snoc _ _
          dsimp only
          split
          · next step attempt ask hwaiting =>
              exact World.safe_alone_ret.mpr ⟨absurd hgoing, by omega, rfl, .inr ⟨step, attempt, ask, hwaiting⟩⟩
          · have hdecide : ∀ effect,
              Calls.asked (calls ++ [⟨.boundary d, .continue⟩] ++ [⟨.decide (d.decisionView tools), .ok effect⟩]) =
                calls.asked + 1 := fun effect =>
              (Calls.asked_snoc _ (.decide (d.decisionView tools)) (.ok effect)).trans (congrArg (· + 1) hboundary)
            have hgoes : ∀ {later : Calls} {call added d'}, later.asked = calls.asked + 1 → d.Batch call added →
              d.Extends d' added →
                (World Calls Calls.Step fun _ _ => True).Safe
                  (fun later result => (¬ d.Going → later = calls) ∧
                    later.asked ≤ calls.asked + stepsLeft d.spec d.log + 1 ∧ Rests result)
                      (runLoop tools fuel d') later := by
              intro later call added d' hlater hbatch hext
              refine (ih (hbatch.fueled hgoing hext hfuel) later).mono fun after result hresult => ?_
              obtain ⟨hended, hasked, hrests⟩ := hresult
              refine ⟨absurd hgoing, ?_, hrests⟩
              rcases hbatch.stepsLeft hext with hnot | hspent
              · rw [hended hnot]
                omega
              · omega
            refine decide_batch_safe hgoing trivial ?_ ?_ ?_ ?_ ?_
            · exact fun _ _ _ _ _ _ _ _ => trivial
            · rintro error later ⟨rfl, effect, heffect⟩
              cases heffect
            · rintro effect later added d' ⟨rfl, -⟩ hbatch hext hnot
              have hasked := hdecide effect
              exact ⟨absurd hgoing, by omega, rfl, .inl hnot⟩
            · rintro effect later added d' ⟨rfl, -⟩ hbatch hext
              exact hgoes (hdecide effect) hbatch hext
            · rintro effect later c answer last added d' ⟨rfl, -⟩ ⟨rfl, -⟩ hbatch hext -
              refine hgoes ?_ hbatch hext
              rw [Calls.asked_snoc, hbatch.not_decide]
              exact hdecide effect

/-- A run's log ends with it, and a harness that ended has its end in the log. -/
theorem closed_logRule : LogRule Closed where
  batch _ _ _ _ hclosed hgoing hbatch hext := hclosed.extends hgoing.2 hbatch.proper hext
  cancelled d hclosed hgoing := hclosed.extends hgoing.2 ⟨endsOnce_snoc [] _ rfl, by simp⟩ (d.extends_push _ _)

theorem Finished.not_decided {d : Driver} {call : Option (Sigma HarnessCall.Answer)} {added : List EventPayload}
    (h : d.Finished call added) : ∀ payload ∈ added, isDecided payload = false := by
  cases h with
  | untouched => exact nofun
  | advanced => exact d.settled.advance_not_decided
  | performed effect call last more hpending hundecided houtcome hlast =>
      intro payload hpayload
      rcases List.mem_append.mp hpayload with hmore | hadvance
      · exact houtcome.not_decided payload hmore
      · exact last.advance_not_decided payload hadvance
  | denied harness effect reason last =>
      intro payload hpayload
      rcases List.mem_append.mp hpayload with hdenied | hadvance
      · rw [List.mem_singleton.mp hdenied]
        rfl
      · exact last.advance_not_decided payload hadvance
  | completed harness outcome last =>
      intro payload hpayload
      rcases List.mem_append.mp hpayload with hcompleted | hadvance
      · simp only [List.mem_cons, List.not_mem_nil, or_false] at hcompleted
        rcases hcompleted with rfl | rfl <;> rfl
      · exact last.advance_not_decided payload hadvance
  | authorized harness effect call mid last more hundecided happlicable heffect hmid houtcome hlast =>
      intro payload hpayload
      simp only [List.mem_append, List.mem_singleton] at hpayload
      rcases hpayload with (rfl | hmore) | hadvance
      · rfl
      · exact houtcome.not_decided payload hmore
      · exact last.advance_not_decided payload hadvance

theorem Finished.not_decide {d : Driver} {c : HarnessCall} {answer : c.Answer} {added : List EventPayload}
    (h : d.Finished (some ⟨c, answer⟩) added) : isDecide c = false := by
  cases h with
  | performed effect call last more hpending hundecided houtcome => exact houtcome.not_decide
  | authorized harness effect call mid last more hundecided happlicable heffect hmid houtcome =>
      exact houtcome.not_decide

theorem Resumed.stepsLeft_le {spec : RunSpec} {events : List Event} {d : Driver} (h : Resumed spec events d) :
    stepsLeft d.spec d.log ≤ stepsLeft spec (payloads events) := by
  have hadded : ∀ {added resumed}, d.Starts spec events added resumed → (∀ payload ∈ added, isDecided payload = false) →
      stepsLeft d.spec d.log ≤ stepsLeft spec (payloads events) := by
    intro added resumed hstarts hnot
    rw [hstarts.spec_eq, hstarts.log_eq]
    exact stepsLeft_append_le hnot
  cases h with
  | started _ _ hstarts | completed _ _ _ _ hstarts => exact hadded hstarts (by simp [isDecided])
  | ended _ hstarts | terminal _ _ _ _ hstarts | undecided _ _ _ _ _ _ hstarts | pending _ _ _ _ hstarts =>
      exact hadded hstarts (List.forall_mem_nil _)

/-- A resumed run asks its decider at most once for each step its log left and once more. -/
theorem Resumed.runUntil_asks {spec : RunSpec} {events : List Event} {d : Driver} (h : Resumed spec events d)
    (tools : List ToolDescriptor) :
    (World Calls Calls.Step fun _ _ => True).Safe
      (fun later result => later.asked ≤ stepsLeft spec (payloads events) + 1 ∧ Rests result)
        (runUntil tools d) [] := by
  have hloop : ∀ (calls : Calls) call added d', calls.asked = 0 → d.Finished call added → d.settled.Extends d' added →
      (World Calls Calls.Step fun _ _ => True).Safe
        (fun later result => later.asked ≤ stepsLeft spec (payloads events) + 1 ∧ Rests result)
          (runLoop tools d'.fuel d') calls := by
    intro calls call added d' hnone hfinished hext
    have hstart := h.stepsLeft_le
    have hle : stepsLeft d'.spec d'.log ≤ stepsLeft d.spec d.log := by
      rw [hext.spec_eq, hext.log_eq]
      exact stepsLeft_append_le hfinished.not_decided
    refine (runLoop_asks tools d'.fuel (.inr (by unfold fuel; omega)) calls).mono fun later result hresult => ?_
    obtain ⟨-, hasked, hrests⟩ := hresult
    exact ⟨by omega, hrests⟩
  apply World.Safe.bind
  refine prologue_safe tools h.resumable [] (fun _ _ _ _ _ _ => trivial) ?_ ?_
  · exact fun added d' hfinished hext => hloop [] none added d' rfl hfinished hext
  · rintro c answer later added d' ⟨rfl, -⟩ hfinished hext -
    refine hloop _ _ added d' ?_ hfinished hext
    rw [Calls.asked_snoc [] c answer, hfinished.not_decide]
    rfl

/-! ### What a decision costs -/

/-- A Complete decided while the harness runs ends the run, and costs nothing. -/
theorem onDecision_complete (d : Driver) (tools : List ToolDescriptor) (outcome : String)
    (hrunning : d.state.harness.isRunning = true) :
    (d.onDecision tools (.complete outcome)).2 = [] ∧ (d.onDecision tools (.complete outcome)).1.log =
      d.log ++ [.effectDecided (.complete outcome), .effectAuthorized (.complete outcome), .runCompleted outcome] := by
  have hcases := d.onDecision_cases tools (.complete outcome)
  generalize d.onDecision tools (.complete outcome) = result at hcases ⊢
  cases hcases with
  | overBudget d' hover hext => simp [overBudget, hrunning] at hover
  | decided mid result hbudget hmid hharness hresult =>
      cases hresult with
      | denied d' reason hcomplete hext =>
          have hnot := hcomplete outcome rfl
          rw [hharness, hrunning] at hnot
          cases hnot
      | completed d' other heffect hrunning' hext =>
          cases heffect
          exact ⟨rfl, (hmid.trans hext).log_eq⟩
      | authorized mid' happlicable heffect hext => exact absurd rfl (heffect outcome)

/-- Any other decision is recorded and counted as a step, or ends the run over its budget. -/
theorem onDecision_counted (d : Driver) (tools : List ToolDescriptor) {effect : Effect}
    (hcomplete : ∀ outcome, effect = .complete outcome → d.state.harness.isRunning = false) :
    (d.onDecision tools effect).1.log = d.log ++ [.runFailed .budget "limit hit"] ∨
    (∃ rest, (d.onDecision tools effect).1.log = d.log ++ .effectDecided effect :: rest) ∧
      (d.onDecision tools effect).1.state.steps.toNat = d.state.steps.toNat + 1 := by
  have hcases := d.onDecision_cases tools effect
  generalize d.onDecision tools effect = result at hcases ⊢
  cases hcases with
  | overBudget d' hover hext => exact .inl hext.log_eq
  | decided mid result hbudget hmid hharness hresult =>
      have hlt := lt_of_not_overBudget hbudget hcomplete
      have hmax := d.spec.limits.maxSteps.toNat_lt
      have hcounted : ∀ {last : Driver} {rest}, mid.Extends last rest → (∀ payload ∈ rest, isDecided payload = false) →
          (∃ rest, last.log = d.log ++ .effectDecided effect :: rest) ∧
            last.state.steps.toNat = d.state.steps.toNat + 1 := by
        intro last rest hext hrest
        have hboth := hmid.trans hext
        refine ⟨⟨rest, hboth.log_eq⟩, ?_⟩
        have hsteps : last.state.steps = d.state.steps + 1 := by
          show (foldAll last.spec last.log).steps = (foldAll d.spec d.log).steps + 1
          rw [hboth.spec_eq, hboth.log_eq, foldAll_append, List.foldl_append, List.foldl_cons, List.foldl_nil,
            foldl_steps _ _ hrest]
          exact foldStep_steps_decided d.spec (foldAll d.spec d.log) hcomplete
        rw [hsteps, UInt32.toNat_add, UInt32.toNat_one]
        omega
      cases hresult with
      | denied d' reason hnot hext => exact .inr (hcounted hext (by simp [isDecided]))
      | completed d' outcome heffect hrunning hext => exact .inr (hcounted hext (by simp [isDecided]))
      | authorized mid' happlicable heffect hext => exact .inr (hcounted hext (by simp [isDecided]))

/-- A run whose decider always decides asks it at most once for each step its log left and once more, and returns with
its end in the log or waiting for a message. A Complete decided while the harness runs ends it, and any other decision
is counted as a step, or ends it over its budget. -/
theorem runUntil_ends (spec : RunSpec) (events : List Event) (stamp : Nat → Stamp) (setup : Setup)
    (tools : List ToolDescriptor) {d : Driver} (hopen : hasEnded events = false)
    (hresume : resume spec events stamp = .ok d) {calls : Calls} {result : Driver × Finish}
    (hrun : (World Calls Calls.Step fun _ _ => True).Run (runUntil tools (d.setUp setup)) [] result calls) :
    (result.2 = .ok ∧ (result.1.logEnded = true ∨
      ∃ step attempt ask, result.1.state.harness = .waitingForMessage step attempt ask) ∧
      calls.asked ≤ spec.limits.maxSteps.toNat - ((fold spec events).steps.toNat +
        (fold spec events).givenSteps.toNat) + 1) ∧
    (∀ (d : Driver) outcome, d.state.harness.isRunning = true →
      (d.onDecision tools (.complete outcome)).2 = [] ∧ (d.onDecision tools (.complete outcome)).1.log =
        d.log ++ [.effectDecided (.complete outcome), .effectAuthorized (.complete outcome), .runCompleted outcome]) ∧
    ∀ (d : Driver) effect, (∀ outcome, effect = .complete outcome → d.state.harness.isRunning = false) →
      (d.onDecision tools effect).1.log = d.log ++ [.runFailed .budget "limit hit"] ∨
      (∃ rest, (d.onDecision tools effect).1.log = d.log ++ .effectDecided effect :: rest) ∧
        (d.onDecision tools effect).1.state.steps.toNat = d.state.steps.toNat + 1 := by
  refine ⟨?_, fun d outcome => d.onDecision_complete tools outcome, fun d effect => d.onDecision_counted tools⟩
  have hresumed := (resume_cases hresume).setUp setup
  obtain ⟨hasked, hok, hrests⟩ := (hresumed.runUntil_asks tools).run (fun _ _ _ _ _ => trivial) trivial hrun
  have hends : EndsOnce isTerminal (payloads events) := endsOnce_of_none (by rwa [hasEnded_eq] at hopen)
  obtain ⟨hclosed, -⟩ := closed_logRule.yields hresumed.resumable
    (fun _ _ _ hfinished hext => hresumed.closed hends hfinished hext) hrun.yields
  refine ⟨hok, hrests.imp_left fun hnot => ?_, hasked⟩
  by_contra hlog
  rw [Bool.not_eq_true] at hlog
  refine hnot ⟨Bool.eq_false_iff.mpr fun hterminal => ?_, hlog⟩
  rw [hclosed.ended hterminal] at hlog
  cases hlog

/-- A decider that only ever wants to wait, which is denied. -/
def stubborn : (c : HarnessCall) → c.Answer
  | .decide _ => .ok (.wait "never")
  | .tool _ _ _ | .model _ _ | .spawn _ _ | .send _ _ => .error "unavailable"
  | .memoryRead _ _ _ | .memoryWrite _ _ _ _ => .error ()
  | .boundary _ => .continue

/-- Of two steps, three decisions. -/
theorem runUntil_ends_stubborn :
    ∃ (calls : Calls) (result : Driver × Finish), calls.asked = 3 ∧ calls.asked ≤ 2 - (0 + 0) + 1 ∧
      (result.1.logEnded = true ∨
        ∃ step attempt ask, result.1.state.harness = .waitingForMessage step attempt ask) := by
  let spec := RunSpec.plain 1 ⟨2, 2⟩
  let env : Calls → (c : HarnessCall) → c.Answer × Calls := fun calls c => (stubborn c, calls ++ [⟨c, stubborn c⟩])
  have hrun := World.run_exec (World Calls Calls.Step fun _ _ => True) env (fun _ => True) (fun calls c _ => by
    refine ⟨⟨rfl, ?_⟩, trivial⟩
    cases c <;> first | exact ⟨_, rfl⟩ | trivial)
    (runUntil [] ((boot spec Stamp.plain).setUp ⟨[], false, false, false, []⟩)) (s := []) trivial
  obtain ⟨⟨-, hends, hasked⟩, -⟩ := runUntil_ends spec [] Stamp.plain ⟨[], false, false, false, []⟩ [] rfl rfl hrun
  exact ⟨_, _, by decide +kernel, hasked, hends⟩

end Driver
end Gol
