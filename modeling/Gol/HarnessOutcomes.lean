import Mathlib.Data.List.Induction
import Gol.HarnessSteps

/-! The outcome of an authorized effect. `resume` looks at the last event of a log only, while a message that
starts a task records two. Whatever a log is cut after, its continuation gives each authorized effect one
outcome, except for the message whose task was started and whose `MessageSent` was cut off: that is lost. -/

namespace Gol
open Library

/-- The effects whose carrying out is recorded. -/
def Effect.hasOutcome : Effect → Bool
  | .toolCall _ _ _ | .modelCall _ | .memoryRead _ _ | .memoryWrite _ _ _ | .delegate _ _ | .sendMessage _ _ _ _ _
  | .askUser _ => true
  | _ => false

/-- Whether `payload` records how `effect` came out. -/
def Effect.isOutcome (effect : Effect) (payload : EventPayload) : Bool :=
  match effect, payload with
  | .toolCall name _ invocation, .toolResult name' invocation' _ _ _ => name = name' && invocation = invocation'
  | .modelCall _, .modelResponded _ _ => true
  | .memoryRead scope key, .memoryRead scope' key' _ => scope = scope' && key = key'
  | .memoryWrite scope key value, .memoryWritten scope' key' value' => scope = scope' && key = key' && value = value'
  | .delegate agentId _, .childStarted _ agentId' _ => agentId = agentId'
  | .delegate agentId _, .delegateRefused agentId' _ => agentId = agentId'
  | .sendMessage toAgent _ expectsReply _ _, .messageSent _ toAgent' expectsReply' =>
      toAgent = toAgent' && expectsReply = expectsReply'
  | .sendMessage toAgent _ _ _ _, .messageRefused toAgent' _ => toAgent = toAgent'
  | .askUser prompt, .userAsked _ prompt' => prompt = prompt'
  | .askUser _, .userAskRefused _ => true
  | _, _ => false

def Effect.isMessage : Effect → Bool
  | .sendMessage _ _ _ _ _ => true
  | _ => false

def isFailed : EventPayload → Bool
  | .runFailed _ _ => true
  | _ => false

/-- What a log records up to its next decision. -/
def untilDecision (log : List EventPayload) : List EventPayload := log.takeWhile fun payload => !isDecided payload

/-- Each effect that the log authorizes has one outcome before the next decision, or the run fails at it. -/
def Answered (log : List EventPayload) : Prop :=
  ∀ before effect after, log = before ++ .effectAuthorized effect :: after → effect.hasOutcome = true →
    (untilDecision after).countP effect.isOutcome = 1 ∨ (untilDecision after).head?.any isFailed = true

/-! ### Watching a log -/

/-- Where a log stands with the effect it last authorized. -/
inductive Watch where
  | idle
  | asked (effect : Effect)
  | halfway (effect : Effect)
  | settled (effect : Effect)
  | dropped
  deriving DecidableEq

def Watch.next : Watch → EventPayload → Watch
  | .idle, .effectAuthorized effect => if effect.hasOutcome then .asked effect else .idle
  | .idle, _ => .idle
  | .asked effect, payload =>
      if effect.isOutcome payload then .settled effect
      else if isFailed payload then .idle
      else if effect.isMessage && isChildStarted payload then .halfway effect
      else .dropped
  | .halfway effect, payload => if effect.isOutcome payload then .settled effect else .dropped
  | .settled _, .effectDecided _ => .idle
  | .settled _, .effectAuthorized _ => .dropped
  | .settled effect, payload => if effect.isOutcome payload then .dropped else .settled effect
  | .dropped, _ => .dropped

def Watch.run (watch : Watch) (log : List EventPayload) : Watch := log.foldl Watch.next watch

/-- No effect is left without its outcome. -/
def Watch.isDone : Watch → Bool
  | .idle | .settled _ => true
  | _ => false

namespace Watch

@[simp] theorem run_nil (watch : Watch) : watch.run [] = watch := rfl

@[simp] theorem run_cons (watch : Watch) (payload : EventPayload) (log : List EventPayload) :
    watch.run (payload :: log) = (watch.next payload).run log := rfl

@[simp] theorem run_append (watch : Watch) (log more : List EventPayload) :
    watch.run (log ++ more) = (watch.run log).run more := List.foldl_append

@[simp] theorem run_dropped (log : List EventPayload) : Watch.dropped.run log = .dropped := by
  induction log with
  | nil => rfl
  | cons payload log ih => exact ih

end Watch

theorem isOutcome_decided (effect decided : Effect) : effect.isOutcome (.effectDecided decided) = false := by
  cases effect <;> rfl

theorem isOutcome_authorized (effect authorized : Effect) :
    effect.isOutcome (.effectAuthorized authorized) = false := by
  cases effect <;> rfl

theorem untilDecision_cons {payload : EventPayload} (h : isDecided payload = false) (log : List EventPayload) :
    untilDecision (payload :: log) = payload :: untilDecision log := by
  simp [untilDecision, h]

/-- After its outcome, an effect has no other one. -/
theorem count_of_settled {effect : Effect} {log : List EventPayload}
    (h : ((Watch.settled effect).run log).isDone = true) : (untilDecision log).countP effect.isOutcome = 0 := by
  induction log with
  | nil => rfl
  | cons payload log ih =>
      cases hdecided : isDecided payload with
      | true => simp [untilDecision, hdecided]
      | false =>
          rw [untilDecision_cons hdecided, List.countP_cons]
          rw [Watch.run_cons] at h
          cases houtcome : effect.isOutcome payload with
          | true =>
              have hnext : (Watch.settled effect).next payload = .dropped := by
                cases payload <;> simp_all [Watch.next, isDecided]
              simp [hnext, Watch.isDone] at h
          | false =>
              have hnext : (Watch.settled effect).next payload = .settled effect ∨
                  (Watch.settled effect).next payload = .dropped := by
                cases payload <;> simp_all [Watch.next, isDecided]
              rcases hnext with hnext | hnext
              · rw [hnext] at h
                simp [ih h]
              · simp [hnext, Watch.isDone] at h

theorem count_of_outcome {effect : Effect} {payload : EventPayload} {log : List EventPayload}
    (houtcome : effect.isOutcome payload = true) (h : ((Watch.settled effect).run log).isDone = true) :
    (untilDecision (payload :: log)).countP effect.isOutcome = 1 := by
  have hdecided : isDecided payload = false := by
    cases payload with
    | effectDecided decided => simp [isOutcome_decided] at houtcome
    | _ => rfl
  rw [untilDecision_cons hdecided, List.countP_cons, count_of_settled h]
  simp [houtcome]

theorem count_of_halfway {effect : Effect} {log : List EventPayload}
    (h : ((Watch.halfway effect).run log).isDone = true) : (untilDecision log).countP effect.isOutcome = 1 := by
  cases log with
  | nil => simp [Watch.isDone] at h
  | cons payload log =>
      cases houtcome : effect.isOutcome payload with
      | true =>
          simp only [Watch.run_cons, Watch.next, houtcome, ↓reduceIte] at h
          exact count_of_outcome houtcome h
      | false => simp [Watch.next, houtcome, Watch.isDone] at h

theorem count_of_asked {effect : Effect} {log : List EventPayload}
    (h : ((Watch.asked effect).run log).isDone = true) :
    (untilDecision log).countP effect.isOutcome = 1 ∨ (untilDecision log).head?.any isFailed = true := by
  cases log with
  | nil => simp [Watch.isDone] at h
  | cons payload log =>
      cases houtcome : effect.isOutcome payload with
      | true =>
          simp only [Watch.run_cons, Watch.next, houtcome, ↓reduceIte] at h
          exact .inl (count_of_outcome houtcome h)
      | false =>
          cases hfailed : isFailed payload with
          | true =>
              have hdecided : isDecided payload = false := by cases payload <;> simp_all [isFailed, isDecided]
              exact .inr (by simp [untilDecision_cons hdecided, hfailed])
          | false =>
              cases hhalf : effect.isMessage && isChildStarted payload with
              | true =>
                  have hdecided : isDecided payload = false := by
                    cases payload <;> simp_all [isChildStarted, isDecided]
                  simp only [Watch.run_cons, Watch.next, houtcome, hfailed, hhalf, ↓reduceIte, Bool.false_eq_true] at h
                  left
                  rw [untilDecision_cons hdecided, List.countP_cons, count_of_halfway h]
                  simp [houtcome]
              | false => simp [Watch.next, houtcome, hfailed, hhalf, Watch.isDone] at h

/-- A log that is watched to the end with nothing left has its effects answered. -/
theorem answered_of_isDone {log : List EventPayload} (h : (Watch.idle.run log).isDone = true) : Answered log := by
  rintro before effect after rfl heffect
  rw [Watch.run_append, Watch.run_cons] at h
  have hnext : (Watch.idle.run before).next (.effectAuthorized effect) = .asked effect ∨
      (Watch.idle.run before).next (.effectAuthorized effect) = .dropped := by
    cases Watch.idle.run before <;>
      simp [Watch.next, heffect, isOutcome_authorized, isFailed, isChildStarted]
  rcases hnext with hnext | hnext
  · rw [hnext] at h
    exact count_of_asked h
  · simp [hnext, Watch.isDone] at h

/-! ### What a driver records is watched to the end -/

/-- Every effect is authorized where the harness acts on it. -/
def Applies (spec : RunSpec) (log : List EventPayload) : Prop :=
  ∀ before effect, before ++ [.effectAuthorized effect] <+: log →
    applicable (harnessOf spec before) effect spec = true

theorem Applies.snoc {spec : RunSpec} {log : List EventPayload} {payload : EventPayload} (h : Applies spec log)
    (hpayload : ∀ effect, payload = .effectAuthorized effect → applicable (harnessOf spec log) effect spec = true) :
    Applies spec (log ++ [payload]) := by
  intro before effect hcutOff
  rcases List.prefix_concat_iff.mp hcutOff with heq | hbefore
  · obtain ⟨rfl, hlast⟩ := List.append_inj' heq rfl
    exact hpayload effect (by simpa using hlast.symm)
  · exact h before effect hbefore

def isAuthorized : EventPayload → Bool
  | .effectAuthorized _ => true
  | _ => false

theorem Applies.append {spec : RunSpec} {log added : List EventPayload} (h : Applies spec log)
    (hadded : added.all (fun payload => !isAuthorized payload) = true) : Applies spec (log ++ added) := by
  induction added generalizing log with
  | nil => simpa using h
  | cons payload added ih =>
      simp only [List.all_cons, Bool.and_eq_true] at hadded
      rw [List.append_cons]
      refine ih (h.snoc fun effect heq => ?_) hadded.2
      simp [heq, isAuthorized] at hadded

theorem hasOutcome_of_applicable {state : HarnessState} {effect : Effect} {spec : RunSpec}
    (h : applicable state effect spec = true) (hnot : ∀ outcome, effect ≠ .complete outcome) :
    effect.hasOutcome = true := by
  cases state with
  | running step attempt answered =>
      cases effect with
      | complete outcome => exact absurd rfl (hnot outcome)
      | _ => first | rfl | simp [applicable] at h
  | _ => simp [applicable] at h

/-- A log with nothing left, and each effect authorized where it applies. -/
structure Tracked (spec : RunSpec) (log : List EventPayload) : Prop where
  done : (Watch.idle.run log).isDone = true
  applies : Applies spec log

/-- Events that say nothing of effects, once each effect has its outcome. -/
def isQuiet : EventPayload → Bool
  | .stepAdvanced | .runCompleted _ | .runFailed _ _ | .runCancelled => true
  | _ => false

theorem isOutcome_of_isQuiet {payload : EventPayload} (h : isQuiet payload = true) (effect : Effect) :
    effect.isOutcome payload = false := by
  cases payload with
  | stepAdvanced | runCompleted _ | runFailed _ _ | runCancelled => cases effect <;> rfl
  | _ => simp [isQuiet] at h

theorem Watch.next_quiet {watch : Watch} (h : watch.isDone = true) {payload : EventPayload}
    (hquiet : isQuiet payload = true) : watch.next payload = watch := by
  have hnot := isOutcome_of_isQuiet hquiet
  cases watch with
  | idle => cases payload <;> first | rfl | simp [isQuiet] at hquiet
  | settled effect => cases payload <;> first | simp [Watch.next, hnot]; done | simp [isQuiet] at hquiet
  | _ => simp [Watch.isDone] at h

theorem Watch.run_quiet {watch : Watch} (h : watch.isDone = true) {log : List EventPayload}
    (hquiet : log.all isQuiet = true) : watch.run log = watch := by
  induction log with
  | nil => rfl
  | cons payload log ih =>
      simp only [List.all_cons, Bool.and_eq_true] at hquiet
      rw [Watch.run_cons, Watch.next_quiet h hquiet.1]
      exact ih hquiet.2

theorem Tracked.quiet {spec : RunSpec} {log added : List EventPayload} (h : Tracked spec log)
    (hquiet : added.all isQuiet = true) : Tracked spec (log ++ added) where
  done := by
    rw [Watch.run_append, Watch.run_quiet h.done hquiet]
    exact h.done
  applies := by
    refine h.applies.append (List.all_eq_true.mpr fun payload hmem => ?_)
    have := List.all_eq_true.mp hquiet payload hmem
    cases payload <;> simp_all [isQuiet, isAuthorized]

theorem Watch.next_decided {watch : Watch} (h : watch.isDone = true) (effect : Effect) :
    watch.next (.effectDecided effect) = .idle := by
  cases watch with
  | idle | settled _ => rfl
  | _ => simp [Watch.isDone] at h

theorem Tracked.decided {spec : RunSpec} {log : List EventPayload} (h : Tracked spec log) (effect : Effect) :
    Tracked spec (log ++ [.effectDecided effect]) ∧
      Watch.idle.run (log ++ [.effectDecided effect]) = .idle := by
  have hidle : Watch.idle.run (log ++ [.effectDecided effect]) = .idle := by
    rw [Watch.run_append]
    exact Watch.next_decided h.done effect
  exact ⟨⟨by rw [hidle]; rfl, h.applies.append (by simp [isAuthorized])⟩, hidle⟩

namespace Driver

theorem advance_quiet (d : Driver) : d.advance.all isQuiet = true := by
  unfold advance
  split
  · split <;> rfl
  · rfl

/-- An authorized tool call makes the harness wait for it. -/
theorem reduce_authorized_tool {state : HarnessState} {name input : String} {invocation : InvocationId}
    {spec : RunSpec} (h : applicable state (.toolCall name input invocation) spec = true) :
    ∃ step attempt, (reduce state (.effectAuthorized (.toolCall name input invocation)) spec).1 =
      .waitingForTool step attempt name invocation := by
  cases state with
  | running step attempt answered => exact ⟨step, attempt, by simp [reduce, HarnessState.isTerminal, onAuthorized, h]⟩
  | _ => simp [applicable] at h

/-- Carrying out the effect a log just authorized leaves it with its outcome. -/
theorem Outcome.watch {d : Driver} {effect : Effect} {call : Option (Sigma HarnessCall.Answer)}
    {before added : List EventPayload} (h : d.Outcome effect call added)
    (hlog : d.log = before ++ [.effectAuthorized effect])
    (happlicable : applicable (harnessOf d.spec before) effect d.spec = true)
    (hnot : ∀ outcome, effect ≠ .complete outcome) : ((Watch.asked effect).run added).isDone = true := by
  cases h with
  | toolSkipped name input invocation hskipped =>
      obtain ⟨step, attempt, hwaiting⟩ := reduce_authorized_tool happlicable
      refine absurd ?_ (hskipped step attempt)
      rw [harness_eq, hlog, harnessOf_snoc, hwaiting]
  | messageSent toAgent body expectsReply replyTo timeoutSecs request sent =>
      cases sent.task <;>
        simp [Watch.next, Effect.isOutcome, isFailed, Effect.isMessage, isChildStarted, Watch.isDone]
  | nothing effect hnothing =>
      rcases hnothing with ⟨outcome, rfl⟩ | hnever
      · exact absurd rfl (hnot outcome)
      · simp [hnever] at happlicable
  | _ => simp [Watch.next, Effect.isOutcome, isFailed, Watch.isDone]

theorem Outcome.not_authorized {d : Driver} {effect : Effect} {call : Option (Sigma HarnessCall.Answer)}
    {added : List EventPayload} (h : d.Outcome effect call added) :
    added.all (fun payload => !isAuthorized payload) = true := by
  cases h with
  | messageSent toAgent body expectsReply replyTo timeoutSecs request sent =>
      cases sent.task <;> simp [isAuthorized]
  | _ => simp [isAuthorized]

/-- An effect authorized where it applies, carried out, and the step it may advance. -/
theorem Outcome.tracked {mid last : Driver} {effect : Effect} {call : Option (Sigma HarnessCall.Answer)}
    {before added : List EventPayload} (h : mid.Outcome effect call added)
    (hlog : mid.log = before ++ [.effectAuthorized effect])
    (hasked : Watch.idle.run mid.log = .asked effect) (happlies : Applies mid.spec mid.log)
    (hnot : ∀ outcome, effect ≠ .complete outcome) : Tracked mid.spec (mid.log ++ (added ++ last.advance)) := by
  have happlicable := happlies before effect (by simp [hlog])
  have htracked : Tracked mid.spec (mid.log ++ added) := by
    refine ⟨?_, happlies.append h.not_authorized⟩
    rw [Watch.run_append, hasked]
    exact h.watch hlog happlicable hnot
  rw [← List.append_assoc]
  exact htracked.quiet last.advance_quiet

/-- Authorizing an effect after a decision that left nothing. -/
theorem asked_of_authorized {spec : RunSpec} {log : List EventPayload} {effect : Effect}
    (hidle : Watch.idle.run log = .idle) (happlies : Applies spec log)
    (happlicable : applicable (harnessOf spec log) effect spec = true)
    (hnot : ∀ outcome, effect ≠ .complete outcome) :
    Watch.idle.run (log ++ [.effectAuthorized effect]) = .asked effect ∧
      Applies spec (log ++ [.effectAuthorized effect]) := by
  refine ⟨?_, happlies.snoc fun other heq => ?_⟩
  · rw [Watch.run_append, hidle]
    simp [Watch.next, hasOutcome_of_applicable happlicable hnot]
  · cases heq
    exact happlicable

/-- Completing a running harness after a decision that left nothing. -/
theorem tracked_of_completed {spec : RunSpec} {log : List EventPayload} {outcome : String}
    (hidle : Watch.idle.run log = .idle) (happlies : Applies spec log)
    (hrunning : (harnessOf spec log).isRunning = true) :
    Tracked spec (log ++ [.effectAuthorized (.complete outcome), .runCompleted outcome]) := by
  have hauthorized : Tracked spec (log ++ [.effectAuthorized (.complete outcome)]) := by
    refine ⟨by rw [Watch.run_append, hidle]; rfl, happlies.snoc fun other heq => ?_⟩
    cases heq
    by_contra hnot
    have := not_running_of_not_applicable_complete (Bool.eq_false_iff.mpr hnot)
    rw [hrunning] at this
    contradiction
  rw [List.append_cons]
  exact hauthorized.quiet (by rfl)

theorem harnessOf_decided (spec : RunSpec) (log : List EventPayload) (effect : Effect) :
    harnessOf spec (log ++ [.effectDecided effect]) = harnessOf spec log := by
  rw [harnessOf_snoc, reduce_decided]

theorem Batch.tracked {d d' : Driver} {call : Option (Sigma HarnessCall.Answer)} {added : List EventPayload}
    (h : d.Batch call added) (htracked : Tracked d.spec d.log) (hext : d.Extends d' added) :
    Tracked d'.spec d'.log := by
  rw [hext.spec_eq, hext.log_eq]
  cases h with
  | overBudget effect hover => exact htracked.quiet rfl
  | denied effect reason hbudget hcomplete =>
      obtain ⟨hdecided, hidle⟩ := htracked.decided effect
      rw [List.append_cons]
      refine ⟨?_, hdecided.applies.append (by simp [isAuthorized])⟩
      rw [Watch.run_append, hidle]
      rfl
  | completed outcome hrunning =>
      obtain ⟨hdecided, hidle⟩ := htracked.decided (.complete outcome)
      rw [List.append_cons]
      refine tracked_of_completed hidle hdecided.applies ?_
      rw [harnessOf_decided]
      exact hrunning
  | performed effect call mid last more hbudget happlicable heffect hmid houtcome hlast =>
      obtain ⟨hdecided, hidle⟩ := htracked.decided effect
      have happlicable' : applicable (harnessOf d.spec (d.log ++ [.effectDecided effect])) effect d.spec = true := by
        rw [harnessOf_decided]
        exact happlicable
      obtain ⟨hasked, happlies⟩ := asked_of_authorized hidle hdecided.applies happlicable' heffect
      have hlog : mid.log = d.log ++ [.effectDecided effect] ++ [.effectAuthorized effect] := by
        rw [hmid.log_eq, List.append_assoc]
        rfl
      rw [← hlog] at hasked happlies
      rw [List.append_assoc, ← List.append_assoc d.log, ← hmid.log_eq, ← hmid.spec_eq]
      rw [← hmid.spec_eq] at happlies
      exact houtcome.tracked hlog hasked happlies heffect

theorem tracked_logRule : LogRule fun d => Tracked d.spec d.log where
  batch _ _ _ _ htracked _ hbatch hext := hbatch.tracked htracked hext
  cancelled d htracked _ := by
    have hext : d.Extends d.cancel [.runCancelled] := d.extends_push _ _
    rw [hext.spec_eq, hext.log_eq]
    exact htracked.quiet rfl

/-! ### A log that was cut -/

/-- What is known of any prefix of a tracked log. -/
structure Cut (spec : RunSpec) (log : List EventPayload) : Prop where
  live : Watch.idle.run log ≠ .dropped
  applies : Applies spec log

theorem Tracked.cut {spec : RunSpec} {log cut : List EventPayload} (h : Tracked spec log) (hcut : cut <+: log) :
    Cut spec cut where
  live hdropped := by
    obtain ⟨more, rfl⟩ := hcut
    have hdone := h.done
    rw [Watch.run_append, hdropped, Watch.run_dropped] at hdone
    contradiction
  applies before effect hbefore := h.applies before effect (hbefore.trans hcut)

theorem next_asked {watch : Watch} {payload : EventPayload} {effect : Effect}
    (h : watch.next payload = .asked effect) :
    watch = .idle ∧ payload = .effectAuthorized effect ∧ effect.hasOutcome = true := by
  revert h
  fun_cases Watch.next watch payload <;> intro h <;> simp_all

theorem next_halfway {watch : Watch} {payload : EventPayload} {effect : Effect}
    (h : watch.next payload = .halfway effect) :
    watch = .asked effect ∧ effect.isMessage = true ∧ isChildStarted payload = true := by
  revert h
  fun_cases Watch.next watch payload <;> intro h <;> simp_all

/-- A log whose last effect has no outcome yet was cut right after authorizing it. -/
theorem last_of_asked {log : List EventPayload} {effect : Effect} (h : Watch.idle.run log = .asked effect) :
    ∃ before, log = before ++ [.effectAuthorized effect] ∧ ∀ outcome, effect ≠ .complete outcome := by
  rcases List.eq_nil_or_concat' log with rfl | ⟨before, payload, rfl⟩
  · simp at h
  · rw [Watch.run_append] at h
    obtain ⟨-, rfl, houtcome⟩ := next_asked h
    refine ⟨before, rfl, fun outcome heq => ?_⟩
    simp [heq, Effect.hasOutcome] at houtcome

/-- A log whose last effect is half recorded was cut between the task a message started and the message. -/
theorem last_of_halfway {log : List EventPayload} {effect : Effect} (h : Watch.idle.run log = .halfway effect) :
    ∃ before task, log = before ++ [.effectAuthorized effect, task] ∧ effect.isMessage = true ∧
      isChildStarted task = true := by
  rcases List.eq_nil_or_concat' log with rfl | ⟨before, payload, rfl⟩
  · simp at h
  · rw [Watch.run_append] at h
    obtain ⟨hasked, hmessage, hchild⟩ := next_halfway h
    obtain ⟨before', rfl, -⟩ := last_of_asked hasked
    exact ⟨before', payload, by simp, hmessage, hchild⟩

/-- A log with an effect that has no outcome yet has not ended its harness. -/
theorem Cut.not_terminal {spec : RunSpec} {log : List EventPayload} {effect : Effect} (h : Cut spec log)
    (hasked : Watch.idle.run log = .asked effect) : (harnessOf spec log).isTerminal = false := by
  obtain ⟨before, rfl, hnot⟩ := last_of_asked hasked
  have hrunning := isRunning_of_applicable (h.applies before effect (List.prefix_refl _))
  rw [harnessOf_snoc]
  cases hharness : harnessOf spec before with
  | running step attempt answered =>
      simp only [reduce, HarnessState.isTerminal, Bool.false_eq_true, ↓reduceIte]
      exact onAuthorized_isTerminal _ spec hnot
  | _ => simp [hharness, HarnessState.isRunning] at hrunning

theorem Cut.tracked {spec : RunSpec} {log : List EventPayload} (h : Cut spec log)
    (hasked : ∀ effect, Watch.idle.run log ≠ .asked effect)
    (hhalf : ∀ effect, Watch.idle.run log ≠ .halfway effect) : Tracked spec log := by
  refine ⟨?_, h.applies⟩
  cases hwatch : Watch.idle.run log with
  | idle | settled _ => rfl
  | asked effect => exact absurd hwatch (hasked effect)
  | halfway effect => exact absurd hwatch (hhalf effect)
  | dropped => exact absurd hwatch h.live

theorem Cut.idle_of_decided {spec : RunSpec} {before : List EventPayload} {effect : Effect}
    (h : Cut spec (before ++ [.effectDecided effect])) :
    Watch.idle.run (before ++ [.effectDecided effect]) = .idle := by
  have hlive := h.live
  rw [Watch.run_append] at hlive ⊢
  revert hlive
  cases Watch.idle.run before <;> simp [Watch.next, isOutcome_decided, isFailed, isChildStarted]

theorem Cut.asked_of_authorized {spec : RunSpec} {before : List EventPayload} {effect : Effect}
    (h : Cut spec (before ++ [.effectAuthorized effect])) (houtcome : effect.hasOutcome = true) :
    Watch.idle.run (before ++ [.effectAuthorized effect]) = .asked effect := by
  have hlive := h.live
  rw [Watch.run_append] at hlive ⊢
  revert hlive
  cases Watch.idle.run before <;> simp [Watch.next, isOutcome_authorized, isFailed, isChildStarted, houtcome]

theorem effectsOfLast_authorized {spec : RunSpec} {events : List Event} {before : List EventPayload}
    {effect : Effect} (hlast : payloads events = before ++ [.effectAuthorized effect])
    (happlicable : applicable (harnessOf spec before) effect spec = true)
    (hnot : ∀ outcome, effect ≠ .complete outcome) : effectsOfLast spec events = [effect] := by
  rcases List.eq_nil_or_concat' events with rfl | ⟨earlier, last, rfl⟩
  · simp at hlast
  · rw [payloads_append] at hlast
    obtain ⟨rfl, hpayload⟩ := List.append_inj' hlast rfl
    have hpayload : last.payload = .effectAuthorized effect := by simpa [payloads] using hpayload
    simp only [effectsOfLast, List.getLast?_concat, List.dropLast_concat, hpayload]
    exact reduce_authorized happlicable hnot

/-- Where nothing is left to finish, what `runUntil` adds before its loop is quiet. -/
theorem Finished.quiet_of_idle {d : Driver} {call : Option (Sigma HarnessCall.Answer)} {added : List EventPayload}
    (h : d.Finished call added) (hpending : d.pending = []) (hundecided : d.undecided = none) :
    added.all isQuiet = true := by
  cases h with
  | untouched => rfl
  | advanced => exact d.settled.advance_quiet
  | performed effect call last more hpending' => simp [hpending] at hpending'
  | denied harness effect reason last hundecided' => simp [hundecided] at hundecided'
  | completed harness outcome last hundecided' => simp [hundecided] at hundecided'
  | authorized harness effect call mid last more hundecided' => simp [hundecided] at hundecided'

/-- A decision that was cut off from its authorization. -/
theorem Finished.tracked_of_undecided {d d' : Driver} {call : Option (Sigma HarnessCall.Answer)}
    {added : List EventPayload} {harness : HarnessState} {effect : Effect} (h : d.Finished call added)
    (hidle : Watch.idle.run d.log = .idle) (happlies : Applies d.spec d.log)
    (hundecided : d.undecided = some (harness, effect)) (hresumed : d.resumed = true)
    (hext : d.settled.Extends d' added) : Tracked d'.spec d'.log := by
  have hlog : d'.log = d.log ++ added := hext.log_eq
  have hspec : d'.spec = d.spec := hext.spec_eq
  rw [hlog, hspec]
  cases h with
  | untouched hresumed' => simp [hresumed] at hresumed'
  | advanced _ _ hundecided' => simp [hundecided] at hundecided'
  | performed _ _ _ _ _ hundecided' => simp [hundecided] at hundecided'
  | denied harness effect reason last hundecided' hlast =>
      rw [← List.append_assoc]
      refine Tracked.quiet ⟨?_, happlies.append (by simp [isAuthorized])⟩ last.advance_quiet
      rw [Watch.run_append, hidle]
      rfl
  | completed harness outcome last hundecided' hrunning hlast =>
      rw [← List.append_assoc]
      exact (tracked_of_completed hidle happlies hrunning).quiet last.advance_quiet
  | authorized harness effect call mid last more hundecided' happlicable heffect hmid houtcome hlast =>
      obtain ⟨hasked, happlies⟩ := Driver.asked_of_authorized hidle happlies happlicable heffect
      have hmidLog : mid.log = d.log ++ [.effectAuthorized effect] := hmid.log_eq
      have hmidSpec : mid.spec = d.spec := hmid.spec_eq
      rw [← hmidLog] at hasked happlies
      rw [← hmidSpec] at happlies
      rw [List.append_assoc, ← List.append_assoc d.log, ← hmidLog, ← hmidSpec]
      exact houtcome.tracked hmidLog hasked happlies heffect

/-- A log that was cut anywhere but inside a message is finished with every effect answered. -/
theorem Resumed.tracked {spec : RunSpec} {events : List Event} {d d' : Driver}
    {call : Option (Sigma HarnessCall.Answer)} {added : List EventPayload} (h : Resumed spec events d)
    (hcut : Cut spec (payloads events)) (hhalf : ∀ effect, Watch.idle.run (payloads events) ≠ .halfway effect)
    (hopen : hasEnded events = false) (hstarted : .runStarted ∈ payloads events)
    (hfinished : d.Finished call added) (hext : d.settled.Extends d' added) : Tracked d'.spec d'.log := by
  have hspec : d'.spec = spec := hext.spec_eq.trans h.spec_eq
  have hlog : d'.log = d.log ++ added := hext.log_eq
  cases h with
  | ended hended => simp [hopen] at hended
  | started _ hnot => exact absurd hstarted hnot
  | completed _ _ outcome hharness hstarts hpending hundecided =>
      have hasked : ∀ effect, Watch.idle.run (payloads events) ≠ .asked effect := by
        intro effect hasked
        have := hcut.not_terminal hasked
        rw [hharness] at this
        contradiction
      rw [hspec, hlog, hstarts.log_eq]
      exact ((hcut.tracked hasked hhalf).quiet (by rfl)).quiet (hfinished.quiet_of_idle hpending hundecided)
  | terminal _ _ hharness hnot =>
      have hended := ended_of_failed hharness hnot
      rw [← hasEnded_eq, hopen] at hended
      contradiction
  | undecided _ _ _ before effect hlast hstarts hpending hundecided =>
      have hdlog : d.log = payloads events := by rw [hstarts.log_eq, List.append_nil]
      rw [hlast] at hcut
      have hidle := hcut.idle_of_decided
      rw [← hlast, ← hdlog] at hidle
      have happlies := hcut.applies
      rw [← hlast, ← hdlog, ← hstarts.spec_eq] at happlies
      exact hfinished.tracked_of_undecided hidle happlies hundecided hstarts.resumed_eq hext
  | pending _ _ _ _ hstarts hpending hundecided =>
      have hdlog : d.log = payloads events := by rw [hstarts.log_eq, List.append_nil]
      rcases effectsOfLast_cases spec events with hnil | ⟨before, effect, hlast, heffects, happlicable, heffect⟩
      · have hasked : ∀ effect, Watch.idle.run (payloads events) ≠ .asked effect := by
          intro effect hasked
          obtain ⟨before, hlast, heffect⟩ := last_of_asked hasked
          have happlicable := hcut.applies before effect (by simp [hlast])
          rw [effectsOfLast_authorized hlast happlicable heffect] at hnil
          contradiction
        rw [hspec, hlog, hdlog]
        exact (hcut.tracked hasked hhalf).quiet (hfinished.quiet_of_idle (by rw [hpending, hnil]) hundecided)
      · rw [heffects] at hpending
        have hasked : Watch.idle.run d.log = .asked effect := by
          rw [hdlog, hlast]
          rw [hlast] at hcut
          exact hcut.asked_of_authorized (hasOutcome_of_applicable happlicable heffect)
        have happlies := hcut.applies
        rw [← hdlog, ← hstarts.spec_eq] at happlies
        rw [hspec, hlog, ← hstarts.spec_eq]
        cases hfinished with
        | performed performed call last more hpending' _ houtcome hlastExt =>
            obtain rfl : effect = performed := by simpa [hpending] using hpending'
            exact houtcome.tracked (hdlog.trans hlast) hasked happlies heffect
        | untouched hresumed => simp [hstarts.resumed_eq] at hresumed
        | advanced _ hpending' => simp [hpending] at hpending'
        | denied _ _ _ _ hundecided' => simp [hundecided] at hundecided'
        | completed _ _ _ hundecided' => simp [hundecided] at hundecided'
        | authorized _ _ _ _ _ _ hundecided' => simp [hundecided] at hundecided'

/-! ### A message that was cut off -/

/-- The log was cut between the task that a message started and the message. -/
def CutInMessage (log : List EventPayload) : Prop :=
  ∃ before effect task, effect.isMessage = true ∧ isChildStarted task = true ∧
    log = before ++ [.effectAuthorized effect, task]

/-- The log goes on after `cut` with its next decision. -/
def GoesOn (cut log : List EventPayload) : Prop :=
  ∃ rest, log = cut ++ rest ∧ ∀ payload ∈ untilDecision rest, isQuiet payload = true

theorem mem_untilDecision_append {log more : List EventPayload} {payload : EventPayload}
    (h : payload ∈ untilDecision (log ++ more)) : payload ∈ untilDecision log ∨ payload ∈ untilDecision more := by
  induction log with
  | nil => exact .inr h
  | cons head log ih =>
      cases hdecided : isDecided head with
      | true => simp [untilDecision, hdecided] at h
      | false =>
          rw [List.cons_append, untilDecision_cons hdecided, List.mem_cons] at h
          rw [untilDecision_cons hdecided, List.mem_cons]
          rcases h with rfl | hmem
          · exact .inl (.inl rfl)
          · exact (ih hmem).imp_left .inr

theorem GoesOn.append {cut log added : List EventPayload} (h : GoesOn cut log)
    (hadded : ∀ payload ∈ untilDecision added, isQuiet payload = true) : GoesOn cut (log ++ added) := by
  obtain ⟨rest, rfl, hrest⟩ := h
  refine ⟨rest ++ added, by simp, fun payload hmem => ?_⟩
  exact (mem_untilDecision_append hmem).elim (hrest payload) (hadded payload)

theorem GoesOn.quiet {cut log added : List EventPayload} (h : GoesOn cut log)
    (hquiet : added.all isQuiet = true) : GoesOn cut (log ++ added) :=
  h.append fun payload hmem => List.all_eq_true.mp hquiet payload (List.takeWhile_subset _ hmem)

/-- A batch starts with a decision, or ends the run. -/
theorem Batch.untilDecision_quiet {d : Driver} {call : Option (Sigma HarnessCall.Answer)}
    {added : List EventPayload} (h : d.Batch call added) :
    ∀ payload ∈ untilDecision added, isQuiet payload = true := by
  cases h with
  | overBudget => simp [untilDecision, isDecided, isQuiet]
  | _ => simp [untilDecision, isDecided]

theorem goesOn_logRule (cut : List EventPayload) : LogRule fun d => GoesOn cut d.log where
  batch _ _ _ _ hgoes _ hbatch hext := by
    rw [hext.log_eq]
    exact hgoes.append hbatch.untilDecision_quiet
  cancelled d hgoes _ := by
    have hext : d.Extends d.cancel [.runCancelled] := d.extends_push _ _
    rw [hext.log_eq]
    exact hgoes.quiet rfl

/-- Nothing is left to finish of a log whose last event neither decides nor authorizes an effect. -/
theorem Resumed.idle_of_last {spec : RunSpec} {events : List Event} {d : Driver} (h : Resumed spec events d)
    (before : List EventPayload) (last : EventPayload) (hlast : payloads events = before ++ [last])
    (hdecided : isDecided last = false) (hauthorized : isAuthorized last = false) :
    d.pending = [] ∧ d.undecided = none := by
  cases h with
  | undecided _ _ _ before' effect hlast' =>
      obtain ⟨-, heq⟩ := List.append_inj' (hlast.symm.trans hlast') rfl
      simp only [List.cons.injEq, and_true] at heq
      simp [heq, isDecided] at hdecided
  | pending _ _ _ _ _ hpending hundecided =>
      refine ⟨?_, hundecided⟩
      rcases effectsOfLast_cases spec events with hnil | ⟨before', effect, hlast', -⟩
      · rw [hpending, hnil]
      · obtain ⟨-, heq⟩ := List.append_inj' (hlast.symm.trans hlast') rfl
        simp only [List.cons.injEq, and_true] at heq
        simp [heq, isAuthorized] at hauthorized
  | _ => exact ⟨‹d.pending = []›, ‹d.undecided = none›⟩

/-- What `resume` itself adds to a log that has started and not ended is quiet. -/
theorem Resumed.goesOn {spec : RunSpec} {events : List Event} {d : Driver} (h : Resumed spec events d)
    (hopen : hasEnded events = false) (hstarted : .runStarted ∈ payloads events) :
    GoesOn (payloads events) d.log := by
  have hself : GoesOn (payloads events) (payloads events) := ⟨[], by simp, by simp [untilDecision]⟩
  cases h with
  | ended hended => simp [hopen] at hended
  | started _ hnot => exact absurd hstarted hnot
  | completed _ _ outcome _ hstarts =>
      rw [hstarts.log_eq]
      exact hself.quiet rfl
  | terminal _ _ _ _ hstarts | undecided _ _ _ _ _ _ hstarts | pending _ _ _ _ hstarts =>
      rw [hstarts.log_eq]
      exact hself.quiet rfl

theorem not_answered_of_goesOn {cut log : List EventPayload} (hcut : CutInMessage cut) (h : GoesOn cut log) :
    ¬ Answered log := by
  obtain ⟨before, effect, task, hmessage, hchild, rfl⟩ := hcut
  obtain ⟨rest, rfl, hrest⟩ := h
  intro hanswered
  have htask : isDecided task = false ∧ isFailed task = false ∧ effect.isOutcome task = false := by
    cases task <;> simp_all [isChildStarted, isDecided, isFailed]
    cases effect <;> simp_all [Effect.isMessage, Effect.isOutcome]
  have houtcome : effect.hasOutcome = true := by cases effect <;> simp_all [Effect.isMessage, Effect.hasOutcome]
  have hzero : (untilDecision rest).countP effect.isOutcome = 0 := by
    rw [List.countP_eq_zero]
    intro payload hmem
    simp [isOutcome_of_isQuiet (hrest payload hmem)]
  rcases hanswered before effect (task :: rest) (by simp) houtcome with hone | hfailed
  · rw [untilDecision_cons htask.1, List.countP_cons, hzero] at hone
    simp [htask.2.2] at hone
  · rw [untilDecision_cons htask.1] at hfailed
    simp [htask.2.1] at hfailed

/-- The log of a booted run is tracked, and starts with its start. -/
theorem boot_tracked {spec : RunSpec} {stamp : Nat → Stamp} {setup : Setup} {tools : List ToolDescriptor}
    {result : Driver × Finish} (h : (runUntil tools ((boot spec stamp).setUp setup)).Yields result) :
    Tracked spec result.1.log ∧ ((boot spec stamp).events) <+: result.1.events := by
  have hresumed := (resume_cases (resume_nil spec stamp)).setUp setup
  obtain ⟨⟨hspec, hcutOff⟩, -⟩ := runUntil_extends hresumed.resumable h
  have htracked := tracked_logRule.yields hresumed.resumable (fun call added d' hfinished hext => ?_) h
  · have hspec' : result.1.spec = spec := hspec
    rw [hspec'] at htracked
    exact ⟨htracked.1, hcutOff⟩
  · have hquiet := hfinished.quiet_of_idle rfl rfl
    have hempty : Applies spec [] := by
      intro before effect hnil
      simp at hnil
    have hstart : Tracked spec ([] ++ [.runStarted]) := ⟨rfl, hempty.append rfl⟩
    rw [hext.spec_eq, hext.log_eq]
    exact hstart.quiet hquiet

theorem resume_ok_of_started (spec : RunSpec) {events : List Event} (stamp : Nat → Stamp)
    (hstarted : .runStarted ∈ payloads events) : ∃ d, resume spec events stamp = .ok d := by
  have hany := (mem_runStarted_iff events).mpr hstarted
  simp only [resume, hany, Bool.not_true, Bool.false_eq_true, ↓reduceIte]
  split
  · exact ⟨_, rfl⟩
  · split
    · exact ⟨_, rfl⟩
    · split
      · exact ⟨_, rfl⟩
      · split <;> exact ⟨_, rfl⟩

/-- Whichever event a log was cut after, its continuation gives every authorized effect one outcome, unless it
was cut between the task that a message started and the message: that message is never recorded. -/
theorem resume_answers_iff (spec : RunSpec) (stamp stamp' : Nat → Stamp) (setup setup' : Setup)
    (tools tools' : List ToolDescriptor) (whole : Driver × Finish) (cut : List Event)
    (hwhole : (runUntil tools ((boot spec stamp).setUp setup)).Yields whole) (hcut : cut <+: whole.1.events)
    (hne : cut ≠ []) (hopen : hasEnded cut = false) :
    ∃ start, resume spec cut stamp' = .ok start ∧
      ∀ result, (runUntil tools' (start.setUp setup')).Yields result → result.2 ≠ .outOfFuel ∧
        (Answered (payloads result.1.events) ↔ ¬ CutInMessage (payloads cut)) := by
  obtain ⟨htracked, hboot⟩ := boot_tracked hwhole
  have hstarted : .runStarted ∈ payloads cut := by
    obtain ⟨first, rest, rfl⟩ := List.exists_cons_of_ne_nil hne
    obtain ⟨more, hmore⟩ := hcut
    obtain ⟨later, hlater⟩ := hboot
    rw [← hmore] at hlater
    have hfirst : (boot spec stamp).events.head? = some first := by
      simpa [boot, push, bare] using congrArg List.head? hlater
    obtain rfl : Event.record spec .system (stamp 0) .runStarted = first := by
      simpa [boot, push, bare] using hfirst
    simp [payloads]
  obtain ⟨start, hstart⟩ := resume_ok_of_started spec stamp' hstarted
  refine ⟨start, hstart, fun result hyields => ?_⟩
  have hresumed := (resume_cases hstart).setUp setup'
  have hcutOff : payloads cut <+: whole.1.log := hcut.map _
  refine ⟨(runUntil_extends hresumed.resumable hyields).2, fun hanswered hmessage => ?_, fun hmessage => ?_⟩
  · refine not_answered_of_goesOn hmessage ?_ hanswered
    obtain ⟨before, effect, task, -, hchild, hlast⟩ := hmessage
    have hidle := hresumed.idle_of_last (before ++ [.effectAuthorized effect]) task
      (by simp [hlast]) (by cases task <;> simp_all [isChildStarted, isDecided])
      (by cases task <;> simp_all [isChildStarted, isAuthorized])
    refine ((goesOn_logRule (payloads cut)).yields hresumed.resumable (fun call added d' hfinished hext => ?_)
      hyields).1
    rw [hext.log_eq]
    exact (hresumed.goesOn hopen hstarted).quiet (hfinished.quiet_of_idle hidle.1 hidle.2)
  · have hhalf : ∀ effect, Watch.idle.run (payloads cut) ≠ .halfway effect := by
      intro effect hhalfway
      obtain ⟨before, task, hlast, heffect, hchild⟩ := last_of_halfway hhalfway
      exact hmessage ⟨before, effect, task, heffect, hchild, hlast⟩
    have hfinal := tracked_logRule.yields hresumed.resumable
      (fun call added d' hfinished hext =>
        hresumed.tracked (Tracked.cut htracked hcutOff) hhalf hopen hstarted hfinished hext) hyields
    exact answered_of_isDone hfinal.1.done

/-! ### A tell, cut after each of its events -/

def messenger : RunSpec := { RunSpec.plain 1 ⟨8, 8⟩ with capabilities := [⟨"agent.message"⟩] }

def messaging : Setup := ⟨[], false, true, false, []⟩

def tell : Effect := .sendMessage ⟨2⟩ "hi" false none none

/-- The decider tells another agent something, then completes; the deliverer starts a task for the message. -/
def tellOnce : (c : HarnessCall) → c.Answer
  | .decide view => if view.events.length = 1 then .ok tell else .ok (.complete "done")
  | .tool _ _ _ | .model _ _ | .spawn _ _ => .error "none"
  | .memoryRead _ _ _ | .memoryWrite _ _ _ _ => .error ()
  | .send _ request => .ok ⟨⟨7⟩, request.limits.map fun limits => ⟨⟨9⟩, limits⟩⟩
  | .boundary _ => .continue

def told : Driver × Finish := (runUntil [] ((boot messenger Stamp.plain).setUp messaging)).eval tellOnce

/-- Cut right after the message was authorized, the run sends it. -/
theorem resume_answers_tell :
    ∃ start, resume messenger (told.1.events.take 3) Stamp.plain = .ok start ∧
      ∀ result, (runUntil [] (start.setUp messaging)).Yields result → Answered (payloads result.1.events) := by
  obtain ⟨start, hstart, hresults⟩ := resume_answers_iff messenger Stamp.plain Stamp.plain messaging messaging [] []
    told (told.1.events.take 3) (Prog.yields_eval _ _) ⟨_, List.take_append_drop _ _⟩
      (by decide +kernel) (by decide +kernel)
  refine ⟨start, hstart, fun result hresult => (hresults result hresult).2.mpr ?_⟩
  rintro ⟨before, effect, task, -, hchild, hlog⟩
  have hlast := congrArg List.getLast? hlog
  have htask : some (.effectAuthorized tell) = some task := by
    simpa using (show (payloads (told.1.events.take 3)).getLast? = some (.effectAuthorized tell) by
      decide +kernel).symm.trans hlast
  cases htask
  simp [isChildStarted] at hchild

/-- Cut after the message's task was started, the run completes and the message is never recorded. -/
theorem cut_message_is_lost :
    (runUntil [] ((boot messenger Stamp.plain).setUp messaging)).Yields told ∧
    told.1.events.take 4 <+: told.1.events ∧ told.1.events.take 4 ≠ [] ∧ hasEnded (told.1.events.take 4) = false ∧
    ∃ start, resume messenger (told.1.events.take 4) Stamp.plain = .ok start ∧
      ∃ result, (runUntil [] (start.setUp messaging)).Yields result ∧ ¬ Answered (payloads result.1.events) := by
  refine ⟨Prog.yields_eval _ _, ⟨_, List.take_append_drop _ _⟩, by decide +kernel, by decide +kernel, _, rfl, _,
    Prog.yields_eval tellOnce _, fun hanswered => ?_⟩
  have hone := hanswered [.runStarted, .effectDecided tell] tell
    [.childStarted ⟨9⟩ ⟨2⟩ ⟨3, 4⟩, .effectDecided (.complete "done"), .effectAuthorized (.complete "done"),
      .runCompleted "done"] (by decide +kernel) rfl
  revert hone
  decide

end Driver
end Gol
