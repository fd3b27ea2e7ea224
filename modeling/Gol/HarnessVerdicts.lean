import Gol.HarnessEnds
import Gol.HarnessOutcomes

/-! The verdict of each decision. However a log was built, by runs that were booted, cut anywhere and resumed, each
decision is followed by the one event that authorizes or denies it, each authorized effect is one the harness acts on,
and nothing is carried out but the effect authorized just before. -/

namespace Gol
open Library

/-- The effect that `payload` authorizes or denies. -/
def verdictOf : EventPayload → Option Effect
  | .effectAuthorized effect | .effectDenied effect _ => some effect
  | _ => none

/-- Whether `payload` records what came of an effect. -/
def isPerformed : EventPayload → Bool
  | .toolResult _ _ _ _ _ | .modelResponded _ _ | .memoryRead _ _ _ | .memoryWritten _ _ _ | .childStarted _ _ _
  | .delegateRefused _ _ | .messageSent _ _ _ | .messageRefused _ _ | .userAsked _ _ | .userAskRefused _ => true
  | _ => false

/-- Whether `payload` records the task that the message `effect` starts. -/
def Effect.isTask (effect : Effect) (payload : EventPayload) : Bool :=
  match effect, payload with
  | .sendMessage toAgent _ _ _ _, .childStarted _ agentId _ => toAgent = agentId
  | _, _ => false

/-- `payload` records what came of the effect that the log just authorized: its outcome, the task it started, or its
outcome after that task. -/
def Performed (before : List EventPayload) (payload : EventPayload) : Prop :=
  ∃ earlier effect,
    before = earlier ++ [.effectAuthorized effect] ∧ (effect.isOutcome payload = true ∨ effect.isTask payload = true) ∨
    ∃ task, before = earlier ++ [.effectAuthorized effect, task] ∧ effect.isTask task = true ∧
      effect.isOutcome payload = true

/-- What may be recorded after `before`. -/
structure Follows (spec : RunSpec) (before : List EventPayload) (payload : EventPayload) : Prop where
  /-- A decision is followed by its verdict. -/
  verdict : ∀ earlier effect, before = earlier ++ [.effectDecided effect] → verdictOf payload = some effect
  /-- A verdict follows its decision. -/
  decided : ∀ effect, verdictOf payload = some effect → ∃ earlier, before = earlier ++ [.effectDecided effect]
  /-- The harness acts on what is authorized. -/
  applies : ∀ effect, payload = .effectAuthorized effect → applicable (harnessOf spec before) effect spec = true
  performed : isPerformed payload = true → Performed before payload
  /-- Decisions are of a run that has started and not ended. -/
  going : isDecided payload = true → .runStarted ∈ before ∧ before.any isTerminal = false ∧
    (harnessOf spec before).isTerminal = false

/-- Each event of the log may follow those before it. -/
def Ruled (spec : RunSpec) (log : List EventPayload) : Prop :=
  ∀ before payload, before ++ [payload] <+: log → Follows spec before payload

/-- The log does not end in a decision. -/
def Whole (log : List EventPayload) : Prop := ∀ earlier effect, log ≠ earlier ++ [.effectDecided effect]

theorem Whole.snoc (log : List EventPayload) {payload : EventPayload} (h : isDecided payload = false) :
    Whole (log ++ [payload]) := by
  intro earlier effect heq
  obtain ⟨-, hlast⟩ := List.append_inj' heq rfl
  rw [List.singleton_inj] at hlast
  rw [hlast] at h
  cases h

namespace Ruled

variable {spec : RunSpec} {log : List EventPayload}

theorem nil : Ruled spec [] := by
  intro before payload hcut
  simp at hcut

theorem cut {cut : List EventPayload} (h : Ruled spec log) (hcut : cut <+: log) : Ruled spec cut :=
  fun before payload hbefore => h before payload (hbefore.trans hcut)

theorem snoc {payload : EventPayload} (h : Ruled spec log) (hpayload : Follows spec log payload) :
    Ruled spec (log ++ [payload]) := by
  intro before last hcut
  rcases List.prefix_concat_iff.mp hcut with heq | hbefore
  · obtain ⟨rfl, hlast⟩ := List.append_inj' heq rfl
    rw [List.singleton_inj] at hlast
    rwa [hlast]
  · exact h before last hbefore

/-- What says nothing of effects may follow any log but one that ends in a decision. -/
theorem plain (payload : EventPayload) (h : Ruled spec log) (hwhole : Whole log) (hverdict : verdictOf payload = none)
    (hperformed : isPerformed payload = false) (hdecided : isDecided payload = false) :
    Ruled spec (log ++ [payload]) ∧ Whole (log ++ [payload]) := by
  refine ⟨h.snoc ⟨?_, ?_, ?_, ?_, ?_⟩, .snoc log hdecided⟩
  · exact fun earlier effect heq => absurd heq (hwhole earlier effect)
  · intro effect heffect
    rw [hverdict] at heffect
    cases heffect
  · rintro effect rfl
    cases hverdict
  · rw [hperformed]
    exact nofun
  · rw [hdecided]
    exact nofun

theorem decide (h : Ruled spec log) (hwhole : Whole log) (effect : Effect) (hstarted : .runStarted ∈ log)
    (hopen : log.any isTerminal = false) (hharness : (harnessOf spec log).isTerminal = false) :
    Ruled spec (log ++ [.effectDecided effect]) := by
  refine h.snoc ⟨?_, nofun, nofun, nofun, fun _ => ⟨hstarted, hopen, hharness⟩⟩
  exact fun earlier other heq => absurd heq (hwhole earlier other)

theorem verdict {effect : Effect} (payload : EventPayload) (h : Ruled spec (log ++ [.effectDecided effect]))
    (hverdict : verdictOf payload = some effect)
    (happlies : payload = .effectAuthorized effect → applicable (harnessOf spec log) effect spec = true) :
    Ruled spec (log ++ [.effectDecided effect] ++ [payload]) ∧ Whole (log ++ [.effectDecided effect] ++ [payload]) := by
  have hkind : isPerformed payload = false ∧ isDecided payload = false := by
    cases payload <;> first | exact ⟨rfl, rfl⟩ | cases hverdict
  refine ⟨h.snoc ⟨?_, ?_, ?_, ?_, ?_⟩, .snoc _ hkind.2⟩
  · intro earlier other heq
    obtain ⟨-, hlast⟩ := List.append_inj' heq rfl
    cases hlast
    exact hverdict
  · intro other hother
    rw [hverdict, Option.some.injEq] at hother
    exact ⟨log, by rw [hother]⟩
  · rintro other rfl
    cases hverdict
    rw [Driver.harnessOf_decided]
    exact happlies rfl
  · rw [hkind.1]
    exact nofun
  · rw [hkind.2]
    exact nofun

theorem performs {payload : EventPayload} (h : Ruled spec log) (hwhole : Whole log)
    (hpayload : isPerformed payload = true) (hperformed : Performed log payload) :
    Ruled spec (log ++ [payload]) ∧ Whole (log ++ [payload]) := by
  have hkind : verdictOf payload = none ∧ isDecided payload = false := by
    cases payload <;> first | exact ⟨rfl, rfl⟩ | cases hpayload
  refine ⟨h.snoc ⟨?_, ?_, ?_, fun _ => hperformed, ?_⟩, .snoc log hkind.2⟩
  · exact fun earlier effect heq => absurd heq (hwhole earlier effect)
  · intro effect heffect
    rw [hkind.1] at heffect
    cases heffect
  · rintro effect rfl
    cases hpayload
  · rw [hkind.2]
    exact nofun

/-- A log that ends in a decision is one that has started and not ended. -/
theorem going {before : List EventPayload} {effect : Effect} (h : Ruled spec (before ++ [.effectDecided effect])) :
    .runStarted ∈ before ∧ before.any isTerminal = false ∧ (harnessOf spec before).isTerminal = false :=
  (h before _ List.prefix_rfl).going rfl

end Ruled

namespace Driver

/-! ### What the loop records -/

theorem Outcome.ruled {d : Driver} {effect : Effect} {call : Option (Sigma HarnessCall.Answer)}
    {before added : List EventPayload}
    (h : d.Outcome effect call added) (hlog : d.log = before ++ [.effectAuthorized effect])
    (hruled : Ruled d.spec d.log) :
    Ruled d.spec (d.log ++ added) ∧ Whole (d.log ++ added) := by
  have hwhole : Whole d.log := hlog ▸ .snoc before rfl
  have hone : ∀ {payload}, effect.isOutcome payload = true → isPerformed payload = true →
      Ruled d.spec (d.log ++ [payload]) ∧ Whole (d.log ++ [payload]) := fun houtcome hpayload =>
    hruled.performs hwhole hpayload ⟨before, effect, .inl ⟨hlog, .inl houtcome⟩⟩
  cases h with
  | toolSkipped | nothing => rw [List.append_nil]; exact ⟨hruled, hwhole⟩
  | unknownTool | toolFailed | modelFailed | readFailed | writeFailed => exact hruled.plain _ hwhole rfl rfl rfl
  | messageSent toAgent body expectsReply replyTo timeoutSecs request sent =>
      cases sent.task with
      | none => exact hone (by simp [Effect.isOutcome]) rfl
      | some task =>
          have htask : Ruled d.spec (d.log ++ [.childStarted task.runId toAgent task.limits]) ∧
              Whole (d.log ++ [.childStarted task.runId toAgent task.limits]) :=
            hruled.performs hwhole rfl ⟨before, _, .inl ⟨hlog, .inr (by simp [Effect.isTask])⟩⟩
          have hsent : Performed (d.log ++ [.childStarted task.runId toAgent task.limits])
              (.messageSent sent.messageId toAgent expectsReply) := by
            refine ⟨before, .sendMessage toAgent body expectsReply replyTo timeoutSecs, .inr ?_⟩
            refine ⟨.childStarted task.runId toAgent task.limits, ?_, by simp [Effect.isTask], by
              simp [Effect.isOutcome]⟩
            rw [hlog, List.append_assoc]
            rfl
          have hboth := htask.1.performs htask.2 rfl hsent
          rwa [List.append_assoc] at hboth
  | _ => exact hone (by simp [Effect.isOutcome]) rfl

theorem ruled_advance {spec : RunSpec} {log : List EventPayload} (h : Ruled spec log ∧ Whole log) (last : Driver) :
    Ruled spec (log ++ last.advance) ∧ Whole (log ++ last.advance) := by
  unfold advance
  split
  · split
    · rwa [List.append_nil]
    · exact h.1.plain _ h.2 rfl rfl rfl
  · rwa [List.append_nil]

/-- A decided effect that is authorized where it applies, carried out, and the step it may advance. -/
theorem Outcome.ruled_authorized {mid last : Driver} {effect : Effect} {call : Option (Sigma HarnessCall.Answer)}
    {log added : List EventPayload} (h : mid.Outcome effect call added)
    (hlog : mid.log = log ++ [.effectDecided effect] ++ [.effectAuthorized effect])
    (hruled : Ruled mid.spec (log ++ [.effectDecided effect]))
    (happlies : applicable (harnessOf mid.spec log) effect mid.spec = true) :
    Ruled mid.spec (mid.log ++ added ++ last.advance) ∧ Whole (mid.log ++ added ++ last.advance) := by
  have hauthorized := hruled.verdict (.effectAuthorized effect) rfl fun _ => happlies
  rw [← hlog] at hauthorized
  exact ruled_advance (h.ruled hlog hauthorized.1) last

/-- A ruled log that does not end in a decision, of a run that has started or ended. -/
structure Governed (d : Driver) : Prop where
  ruled : Ruled d.spec d.log
  whole : Whole d.log
  started : .runStarted ∈ d.log ∨ d.logEnded = true

theorem Batch.ruled {d : Driver} {call : Option (Sigma HarnessCall.Answer)} {added : List EventPayload}
    (h : d.Batch call added) (hd : d.Governed) (hgoing : d.Going) :
    Ruled d.spec (d.log ++ added) ∧ Whole (d.log ++ added) := by
  have hopen : d.log.any isTerminal = false := by rw [← logEnded_eq, hgoing.2]
  have hstarted : .runStarted ∈ d.log := hd.started.resolve_right (by rw [hgoing.2]; exact nofun)
  have hdecide : ∀ effect, Ruled d.spec (d.log ++ [.effectDecided effect]) := fun effect =>
    hd.ruled.decide hd.whole effect hstarted hopen hgoing.1
  cases h with
  | overBudget effect hover => exact hd.ruled.plain _ hd.whole rfl rfl rfl
  | denied effect reason hbudget hcomplete =>
      rw [List.append_cons]
      exact (hdecide effect).verdict _ rfl nofun
  | completed outcome hrunning =>
      rw [List.append_cons, List.append_cons]
      have hauthorized := (hdecide (.complete outcome)).verdict (.effectAuthorized (.complete outcome)) rfl fun _ => by
        by_contra hnot
        have := not_running_of_not_applicable_complete (Bool.eq_false_iff.mpr hnot)
        rw [← harness_eq, hrunning] at this
        cases this
      exact hauthorized.1.plain _ hauthorized.2 rfl rfl rfl
  | performed effect call mid last more hbudget happlicable heffect hmid houtcome hlast =>
      have hlog : mid.log = d.log ++ [.effectDecided effect] ++ [.effectAuthorized effect] := by
        rw [hmid.log_eq, List.append_assoc]
        rfl
      have hmore : d.log ++ ([.effectDecided effect, .effectAuthorized effect] ++ more ++ last.advance) =
          mid.log ++ more ++ last.advance := by
        rw [hmid.log_eq]
        simp
      rw [hmore, ← hmid.spec_eq]
      refine houtcome.ruled_authorized hlog ?_ ?_
      · rw [hmid.spec_eq]
        exact hdecide effect
      · rw [hmid.spec_eq]
        exact happlicable

theorem governed_logRule : LogRule Governed where
  batch d call added d' hd hgoing hbatch hext := by
    obtain ⟨hruled, hwhole⟩ := hbatch.ruled hd hgoing
    refine ⟨by rwa [hext.spec_eq, hext.log_eq], by rwa [hext.log_eq], .inl ?_⟩
    rw [hext.log_eq]
    exact List.mem_append_left _ (hd.started.resolve_right (by rw [hgoing.2]; exact nofun))
  cancelled d hd hgoing := by
    have hext : d.Extends d.cancel [.runCancelled] := d.extends_push _ _
    obtain ⟨hruled, hwhole⟩ := hd.ruled.plain .runCancelled hd.whole rfl rfl rfl
    refine ⟨by rwa [hext.spec_eq, hext.log_eq], by rwa [hext.log_eq], .inr ?_⟩
    rw [logEnded_eq, hext.log_eq, List.any_append]
    exact Bool.or_true _

/-! ### What a resumed log is finished with -/

theorem Finished.ruled_of_idle {d : Driver} {call : Option (Sigma HarnessCall.Answer)} {added : List EventPayload}
    (h : d.Finished call added) (hpending : d.pending = []) (hundecided : d.undecided = none)
    (hruled : Ruled d.spec d.log) (hwhole : Whole d.log) : Ruled d.spec (d.log ++ added) ∧ Whole (d.log ++ added) := by
  rcases h.of_idle hpending hundecided with rfl | ⟨-, rfl⟩
  · rw [List.append_nil]
    exact ⟨hruled, hwhole⟩
  · exact ruled_advance ⟨hruled, hwhole⟩ d.settled

/-- A decision that was cut off from its verdict gets it. -/
theorem Finished.ruled_of_undecided {d : Driver} {call : Option (Sigma HarnessCall.Answer)}
    {added before : List EventPayload}
    {harness : HarnessState} {effect : Effect} (h : d.Finished call added)
    (hundecided : d.undecided = some (harness, effect)) (hresumed : d.resumed = true)
    (hlog : d.log = before ++ [.effectDecided effect]) (hruled : Ruled d.spec d.log) :
    Ruled d.spec (d.log ++ added) ∧ Whole (d.log ++ added) := by
  have hharness : d.state.harness = harnessOf d.spec before := by
    rw [harness_eq, hlog, harnessOf_decided]
  rw [hlog] at hruled
  cases h with
  | untouched hnot => simp [hresumed] at hnot
  | advanced _ _ hnone => simp [hundecided] at hnone
  | performed _ _ _ _ _ hnone => simp [hundecided] at hnone
  | denied _ other reason last hsome hlast =>
      obtain ⟨rfl, rfl⟩ : harness = _ ∧ effect = other := by simpa [hundecided] using hsome
      rw [← List.append_assoc, hlog]
      exact ruled_advance (hruled.verdict (.effectDenied effect reason) rfl nofun) last
  | completed _ outcome last hsome hrunning hlast =>
      obtain ⟨rfl, rfl⟩ : harness = _ ∧ effect = .complete outcome := by simpa [hundecided] using hsome
      rw [← List.append_assoc, List.append_cons, hlog]
      have hauthorized := hruled.verdict (.effectAuthorized (.complete outcome)) rfl fun _ => by
        by_contra hnot
        have := not_running_of_not_applicable_complete (Bool.eq_false_iff.mpr hnot)
        rw [← hharness, hrunning] at this
        cases this
      exact ruled_advance (hauthorized.1.plain _ hauthorized.2 rfl rfl rfl) last
  | authorized _ other call mid last more hsome happlicable heffect hmid houtcome hlast =>
      obtain ⟨rfl, rfl⟩ : harness = _ ∧ effect = other := by simpa [hundecided] using hsome
      have hmidLog : mid.log = d.log ++ [.effectAuthorized effect] := hmid.log_eq
      have hmidSpec : mid.spec = d.spec := hmid.spec_eq
      rw [← List.append_assoc, ← List.append_assoc, ← hmidLog, ← hmidSpec]
      rw [hlog] at hmidLog
      refine houtcome.ruled_authorized hmidLog ?_ ?_
      · rwa [hmidSpec]
      · rwa [hmidSpec, ← hharness]

theorem Finished.ruled_of_pending {d : Driver} {call : Option (Sigma HarnessCall.Answer)}
    {added before : List EventPayload} {effect : Effect} (h : d.Finished call added) (hpending : d.pending = [effect])
    (hundecided : d.undecided = none) (hresumed : d.resumed = true)
    (hlog : d.log = before ++ [.effectAuthorized effect]) (hruled : Ruled d.spec d.log) :
    Ruled d.spec (d.log ++ added) ∧ Whole (d.log ++ added) := by
  cases h with
  | performed other call last more hother _ houtcome hlast =>
      obtain rfl : effect = other := by simpa [hpending] using hother
      rw [← List.append_assoc]
      exact ruled_advance (houtcome.ruled hlog hruled) last
  | untouched hnot => simp [hresumed] at hnot
  | advanced _ hnone => simp [hpending] at hnone
  | denied _ _ _ _ hsome => simp [hundecided] at hsome
  | completed _ _ _ hsome => simp [hundecided] at hsome
  | authorized _ _ _ _ _ _ hsome => simp [hundecided] at hsome

/-- Whatever a ruled log is resumed as, the driver enters its loop with a log that is ruled and has no decision left
open. -/
theorem Resumed.governed {spec : RunSpec} {events : List Event} {d d' : Driver}
    {call : Option (Sigma HarnessCall.Answer)} {added : List EventPayload} (h : Resumed spec events d)
    (hruled : Ruled spec (payloads events)) (hfinished : d.Finished call added) (hext : d.settled.Extends d' added) :
    d'.Governed := by
  have hlog : d'.log = d.log ++ added := hext.log_eq
  have hspec : d'.spec = d.spec := hext.spec_eq
  have hdecided : ∀ {before effect}, payloads events = before ++ [.effectDecided effect] →
      .runStarted ∈ payloads events ∧ (payloads events).any isTerminal = false ∧
        (harnessOf spec (payloads events)).isTerminal = false := by
    intro before effect heq
    rw [heq] at hruled ⊢
    obtain ⟨hstarted, hopen, hharness⟩ := hruled.going
    refine ⟨List.mem_append_left _ hstarted, ?_, by rwa [harnessOf_decided]⟩
    rw [List.any_append, hopen]
    rfl
  have hgoverned : ∀ {more resumed}, d.Starts spec events more resumed →
      Ruled d.spec (d.log ++ added) ∧ Whole (d.log ++ added) →
      (.runStarted ∈ payloads events ++ more ∨ (payloads events ++ more).any isTerminal = true) → d'.Governed := by
    intro more resumed hstarts hboth hbegun
    refine ⟨by rw [hspec, hlog]; exact hboth.1, by rw [hlog]; exact hboth.2, ?_⟩
    rw [logEnded_eq, hlog, hstarts.log_eq, List.any_append, Bool.or_eq_true]
    exact hbegun.imp (List.mem_append_left _) .inl
  have hself : ∀ {resumed}, d.Starts spec events [] resumed → Ruled d.spec d.log := by
    intro resumed hstarts
    rw [hstarts.spec_eq, hstarts.log_eq, List.append_nil]
    exact hruled
  cases h with
  | ended hended hstarts hpending hundecided =>
      rw [hasEnded_eq] at hended
      refine hgoverned hstarts (hfinished.ruled_of_idle hpending hundecided (hself hstarts) ?_)
        (.inr (by simpa using hended))
      intro before effect heq
      rw [hstarts.log_eq, List.append_nil] at heq
      rw [(hdecided heq).2.1] at hended
      cases hended
  | started hopen hnot hstarts hpending hundecided =>
      have hwhole : Whole (payloads events) := fun before effect heq => hnot (hdecided heq).1
      have hboth := hruled.plain .runStarted hwhole rfl rfl rfl
      rw [← hstarts.log_eq, ← hstarts.spec_eq] at hboth
      exact hgoverned hstarts (hfinished.ruled_of_idle hpending hundecided hboth.1 hboth.2) (.inl (by simp))
  | completed hopen hstarted outcome hharness hstarts hpending hundecided =>
      have hwhole : Whole (payloads events) := by
        intro before effect heq
        have hgoing := (hdecided heq).2.2
        rw [hharness] at hgoing
        cases hgoing
      have hboth := hruled.plain (.runCompleted outcome) hwhole rfl rfl rfl
      rw [← hstarts.log_eq, ← hstarts.spec_eq] at hboth
      exact hgoverned hstarts (hfinished.ruled_of_idle hpending hundecided hboth.1 hboth.2)
        (.inl (List.mem_append_left _ hstarted))
  | terminal hopen hstarted hharness hnot hstarts hpending hundecided =>
      refine hgoverned hstarts (hfinished.ruled_of_idle hpending hundecided (hself hstarts) ?_)
        (.inl (List.mem_append_left _ hstarted))
      intro before effect heq
      rw [hstarts.log_eq, List.append_nil] at heq
      rw [(hdecided heq).2.2] at hharness
      cases hharness
  | undecided hopen hstarted hharness before effect hlast hstarts hpending hundecided =>
      have hends : d.log = before ++ [.effectDecided effect] := by rw [hstarts.log_eq, List.append_nil, hlast]
      exact hgoverned hstarts (hfinished.ruled_of_undecided hundecided hstarts.resumed_eq hends (hself hstarts))
        (.inl (List.mem_append_left _ hstarted))
  | pending hopen hstarted hharness hlast hstarts hpending hundecided =>
      refine hgoverned hstarts ?_ (.inl (List.mem_append_left _ hstarted))
      rcases effectsOfLast_cases spec events with hnil | ⟨before, effect, hends, heffects, -⟩
      · rw [hnil] at hpending
        refine hfinished.ruled_of_idle hpending hundecided (hself hstarts) ?_
        rw [hstarts.log_eq, List.append_nil]
        exact hlast
      · rw [heffects] at hpending
        rw [← List.append_nil (payloads events), ← hstarts.log_eq] at hends
        exact hfinished.ruled_of_pending hpending hundecided hstarts.resumed_eq hends (hself hstarts)

/-! ### Logs that runs build -/

/-- What others than its driver add to a run's log: nothing that decides, authorizes or carries out an effect. -/
def isBeside (payload : EventPayload) : Bool :=
  !isDecided payload && (verdictOf payload).isNone && !isPerformed payload

/-- The logs of a run that is booted, cut anywhere, and resumed with what was added to it meanwhile, any number of
times. -/
inductive Builds (spec : RunSpec) : List Event → Prop
  | nil : Builds spec []
  | boot {stamp : Nat → Stamp} {setup : Setup} {tools : List ToolDescriptor} {result : Driver × Finish}
      (hrun : (runUntil tools ((boot spec stamp).setUp setup)).Yields result) : Builds spec result.1.events
  | resume {events : List Event} {stamp : Nat → Stamp} {d : Driver} {setup : Setup} {tools : List ToolDescriptor}
      {result : Driver × Finish} (hbuilt : Builds spec events) (hresume : Driver.resume spec events stamp = .ok d)
      (hrun : (runUntil tools (d.setUp setup)).Yields result) : Builds spec result.1.events
  | cut {events part : List Event} (hbuilt : Builds spec events) (hcut : part <+: events) : Builds spec part
  | beside {events : List Event} {event : Event} (hbuilt : Builds spec events) (hwhole : Whole (payloads events))
      (hbeside : isBeside event.payload = true) : Builds spec (events ++ [event])

theorem Resumed.runUntil_ruled {spec : RunSpec} {events : List Event} {d : Driver} (h : Resumed spec events d)
    (hruled : Ruled spec (payloads events)) {tools : List ToolDescriptor} {result : Driver × Finish}
    (hrun : (runUntil tools d).Yields result) :
    Ruled spec (payloads result.1.events) ∧ Whole (payloads result.1.events) := by
  obtain ⟨hgoverned, -⟩ := governed_logRule.yields h.resumable (fun _ _ _ => h.governed hruled) hrun
  obtain ⟨⟨hspec, -⟩, -⟩ := runUntil_extends h.resumable hrun
  have hlog := hgoverned.ruled
  rw [hspec, h.spec_eq] at hlog
  exact ⟨hlog, hgoverned.whole⟩

theorem Builds.ruled {spec : RunSpec} {events : List Event} (h : Builds spec events) :
    Ruled spec (payloads events) := by
  induction h with
  | nil => exact .nil
  | boot hrun => exact ((resume_cases (resume_nil spec _)).setUp _).runUntil_ruled .nil hrun |>.1
  | resume _ hresume hrun ih => exact ((resume_cases hresume).setUp _).runUntil_ruled ih hrun |>.1
  | cut _ hcut ih => exact ih.cut (hcut.map Event.payload)
  | @beside events event _ hwhole hbeside ih =>
      simp only [isBeside, Bool.and_eq_true, Bool.not_eq_true', Option.isNone_iff_eq_none] at hbeside
      obtain ⟨⟨hdecided, hverdict⟩, hperformed⟩ := hbeside
      rw [payloads_append]
      exact (ih.plain event.payload hwhole hverdict hperformed hdecided).1

/-! ### Calls -/

/-- `c` is the call that carries out `effect`. -/
def Carries : Effect → HarnessCall → Prop
  | .toolCall name input _, .tool _ name' input' => name' = name ∧ input' = input
  | .modelCall prompt, .model _ request => request.prompt = prompt
  | .memoryRead scope key, .memoryRead _ owner key' => owner.scope = scope ∧ key' = key
  | .memoryWrite scope key value, .memoryWrite _ owner key' value' => owner.scope = scope ∧ key' = key ∧ value' = value
  | .delegate agentId input, .spawn _ request => request.agentId = agentId ∧ request.input = input
  | .sendMessage toAgent body expectsReply replyTo timeoutSecs, .send _ request =>
      request.toAgent = toAgent ∧ request.body = body ∧ request.expectsReply = expectsReply ∧
        request.replyTo = replyTo ∧ request.timeoutSecs = timeoutSecs
  | _, _ => False

/-- A call of the decider or of the caller's boundary, or one that carries out the effect the log just authorized. -/
def Backed (c : HarnessCall) : Prop :=
  match c with
  | .decide _ | .boundary _ => True
  | c => ∃ before effect, payloads c.log = before ++ [.effectAuthorized effect] ∧ Carries effect c

theorem performOne_only {d : Driver} {effect : Effect} {before : List EventPayload}
    (hlog : d.log = before ++ [.effectAuthorized effect]) (tools : List ToolDescriptor) :
    (d.performOne tools effect).Only Backed := by
  cases effect with
  | toolCall name input invocation =>
      simp only [performOne]
      split
      · split
        · trivial
        · split
          · trivial
          · refine ⟨⟨before, _, hlog, rfl, rfl⟩, fun answer => ?_⟩
            cases answer <;> trivial
      · trivial
  | modelCall prompt =>
      refine ⟨⟨before, _, hlog, rfl⟩, fun answer => ?_⟩
      cases answer <;> trivial
  | memoryRead scope key =>
      simp only [performOne, memoryKey]
      cases memoryOwnerId d.spec scope _ with
      | none => trivial
      | some ownerId =>
          refine ⟨⟨before, _, hlog, rfl, rfl⟩, fun answer => ?_⟩
          cases answer <;> trivial
  | memoryWrite scope key value =>
      simp only [performOne, memoryKey]
      cases memoryOwnerId d.spec scope _ with
      | none => trivial
      | some ownerId =>
          refine ⟨⟨before, _, hlog, rfl, rfl, rfl⟩, fun answer => ?_⟩
          cases answer <;> trivial
  | delegate agentId input =>
      refine Prog.Only.bind ?_ fun _ => trivial
      simp only [delegate]
      split
      · trivial
      · split
        · trivial
        · refine ⟨⟨before, _, hlog, rfl, rfl⟩, fun answer => ?_⟩
          cases answer <;> trivial
  | sendMessage toAgent body expectsReply replyTo timeoutSecs =>
      refine Prog.Only.bind ?_ fun _ => trivial
      simp only [sendMessage]
      split
      · trivial
      · refine ⟨⟨before, _, hlog, rfl, rfl, rfl, rfl, rfl⟩, fun answer => ?_⟩
        cases answer <;> trivial
  | _ => trivial

/-- The effects to perform are none, or the one that the log just authorized. -/
def Just (d : Driver) (effects : List Effect) : Prop :=
  effects = [] ∨ ∃ before effect, effects = [effect] ∧ d.log = before ++ [.effectAuthorized effect]

/-- `P` holds of each call that carries out the effect the log just authorized, and of every other call. -/
structure CallRule (P : HarnessCall → Prop) : Prop where
  decide : ∀ view, P (.decide view)
  boundary : ∀ d, P (.boundary d)
  perform : ∀ {d : Driver} {effect : Effect} {before : List EventPayload},
    d.log = before ++ [.effectAuthorized effect] → ∀ tools, (d.performOne tools effect).Only P

theorem backed_callRule : CallRule Backed := ⟨fun _ => trivial, fun _ => trivial, performOne_only⟩

theorem afterDecision_only {P : HarnessCall → Prop} (hrule : CallRule P) {d : Driver}
    {effects : List Effect} (h : d.Just effects) (tools : List ToolDescriptor) :
    (d.afterDecision tools effects).Only P := by
  refine Prog.Only.bind ?_ fun _ => trivial
  rcases h with rfl | ⟨before, effect, rfl, hlog⟩
  · trivial
  · refine Prog.Only.bind (hrule.perform hlog tools) ?_
    rintro ⟨d', go⟩
    cases go <;> trivial

theorem Authorized.just {d : Driver} {effect : Effect} {result : Driver × List Effect}
    (h : d.Authorized effect result) :
    result.1.Just result.2 := by
  cases h with
  | denied | completed => exact .inl rfl
  | authorized d' _ _ hext => exact .inr ⟨d.log, effect, rfl, hext.log_eq⟩

theorem Decided.just {d : Driver} {effect : Effect} {result : Driver × List Effect} (h : d.Decided effect result) :
    result.1.Just result.2 := by
  cases h with
  | overBudget => exact .inl rfl
  | decided mid result _ _ _ hresult => exact hresult.just

theorem runLoop_only {P : HarnessCall → Prop} (hrule : CallRule P) (tools : List ToolDescriptor)
    (fuel : Nat) (d : Driver) :
    (runLoop tools fuel d).Only P := by
  induction fuel generalizing d with
  | zero => trivial
  | succ fuel ih =>
      rw [runLoop]
      split
      · trivial
      · next hopen =>
          have hharness : ¬ d.state.harness.isTerminal = true := fun hterminal => by simp [hterminal] at hopen
          refine ⟨hrule.boundary d, fun answer => ?_⟩
          cases answer with
          | cancel | pause => trivial
          | «continue» =>
              dsimp only
              split
              · trivial
              · unfold Driver.decide
                rw [if_neg hharness]
                refine ⟨hrule.decide _, fun answer => ?_⟩
                cases answer with
                | error error => trivial
                | ok effect =>
                    have hjust := (d.onDecision_cases tools effect).just
                    dsimp only
                    generalize d.onDecision tools effect = result at hjust ⊢
                    obtain ⟨d', effects⟩ := result
                    rcases hjust with hnone | ⟨before, effect, hsome, hlog⟩
                    · obtain rfl : effects = [] := hnone
                      dsimp only [Prog.ret_bind]
                      split
                      · trivial
                      · exact ih d'
                    · obtain rfl : effects = [effect] := hsome
                      exact (afterDecision_only hrule (.inr ⟨before, effect, rfl, hlog⟩) tools).bind ih

theorem Resumed.runUntil_only {P : HarnessCall → Prop} (hrule : CallRule P) {spec : RunSpec}
    {events : List Event} {d : Driver} (h : Resumed spec events d) (tools : List ToolDescriptor) :
    (runUntil tools d).Only P := by
  refine Prog.Only.bind ?_ fun d' => runLoop_only hrule tools d'.fuel d'
  cases hundecided : d.undecided with
  | none =>
      simp only [prologue, hundecided]
      split
      · refine afterDecision_only hrule ?_ tools
        rcases h.resumable.pending with hpending | ⟨effect, hpending⟩
        · exact .inl hpending
        · obtain ⟨hopen, hstarts⟩ := h.open_of_unfinished (.inl (by simp [hpending]))
          refine .inr ?_
          cases h with
          | pending _ _ _ _ _ hsome _ =>
              rcases effectsOfLast_cases spec events with hnil | ⟨before, other, hends, heffects, -⟩
              · rw [hsome, hnil] at hpending
                cases hpending
              · refine ⟨before, other, hsome.trans heffects, ?_⟩
                show d.log = _
                rw [hstarts.log_eq, List.append_nil, hends]
          | _ => simp_all
      · trivial
  | some decision =>
      obtain ⟨harness, effect⟩ := decision
      obtain ⟨rfl, -⟩ := h.resumable.undecided harness effect hundecided
      have hjust := ({ d with pending := [], undecided := none } : Driver).authorizeDecided_cases effect tools |>.just
      simp only [prologue, hundecided]
      split
      · refine afterDecision_only hrule ?_ tools
        exact hjust
      · trivial

/-- Nothing authorized is dropped. The harness acts on an authorized effect exactly where it applies. In every log
that runs build, each decision is followed by its one verdict, each authorized effect applies, and what is carried out
was authorized just before; only a cut leaves a log that ends in a decision. Each call a resumed run makes, whatever
its decider and its tools answer, carries out the effect that its log just authorized, and `reduce` asks for no other.
-/
theorem nothing_dropped :
    (∀ state effect spec, applicable state effect spec = true ↔
      (reduce state (.effectAuthorized effect) spec).1 ≠ state ∨
        (reduce state (.effectAuthorized effect) spec).2 = [effect]) ∧
    (∀ spec events, Builds spec events → Ruled spec (payloads events)) ∧
    (∀ spec events stamp setup tools d result, Builds spec events → Driver.resume spec events stamp = .ok d →
      (runUntil tools (d.setUp setup)).Yields result → Whole (payloads result.1.events)) ∧
    (∀ state payload spec effect, effect ∈ (reduce state payload spec).2 → payload = .effectAuthorized effect) ∧
    ∀ spec events stamp setup tools d, Driver.resume spec events stamp = .ok d →
      (runUntil tools (d.setUp setup)).Only Backed := by
  refine ⟨fun state effect spec => ?_, fun _ _ => Builds.ruled, fun _ _ _ setup _ _ _ hbuilt hresume hrun =>
    (((resume_cases hresume).setUp setup).runUntil_ruled hbuilt.ruled hrun).2, fun state payload spec effect hmem => ?_,
    fun _ _ _ setup tools _ hresume => ((resume_cases hresume).setUp setup).runUntil_only backed_callRule tools⟩
  · constructor
    · intro happlies
      by_cases hcomplete : ∃ outcome, effect = .complete outcome
      · obtain ⟨outcome, rfl⟩ := hcomplete
        have hrunning := isRunning_of_applicable happlies
        rw [reduce_authorized_complete hrunning]
        refine .inl fun heq => ?_
        rw [← heq] at hrunning
        cases hrunning
      · exact .inr (reduce_authorized happlies fun outcome heq => hcomplete ⟨outcome, heq⟩)
    · intro hacts
      by_contra hnot
      have hdropped : reduce state (.effectAuthorized effect) spec = (state, []) := by
        rw [reduce]
        split
        · rfl
        · show onAuthorized state effect spec = _
          simp [onAuthorized, hnot]
      rw [hdropped] at hacts
      exact hacts.elim (fun hne => hne rfl) (fun hmem => by cases hmem)
  · rcases reduce_effects state payload spec with hnil | ⟨other, rfl, -, heffects, -⟩
    · rw [hnil] at hmem
      cases hmem
    · rw [heffects, List.mem_singleton] at hmem
      rw [hmem]

end Driver
end Gol
