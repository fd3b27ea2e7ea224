import Gol.HarnessDriver

/-! What each part of the driver's loop can record. Every part extends the log, so it is described by the
payloads it adds: `Outcome` for one performed effect, `Batch` for one iteration of the loop, `Finished` for what
`runUntil` does to a resumed log before its loop. The rules `afterDecision_safe`, `runLoop_safe` and
`prologue_safe` turn an invariant that these payloads keep into one of every run. -/

namespace Gol
open Library

namespace Driver

/-! ### Extending the log -/

/-- The payloads of the driver's log. -/
def log (d : Driver) : List EventPayload := payloads d.events

/-- `d'` is `d` with `added` recorded. -/
def Extends (d d' : Driver) (added : List EventPayload) : Prop :=
  ∃ more, d' = { d with events := d.events ++ more } ∧ payloads more = added

variable {d d' d'' : Driver} {added added' : List EventPayload}

theorem Extends.refl (d : Driver) : d.Extends d [] := ⟨[], by simp, rfl⟩

theorem Extends.trans (h : d.Extends d' added) (h' : d'.Extends d'' added') :
    d.Extends d'' (added ++ added') := by
  obtain ⟨more, rfl, rfl⟩ := h
  obtain ⟨more', rfl, rfl⟩ := h'
  exact ⟨more ++ more', by simp, by simp⟩

theorem extends_push (d : Driver) (payload : EventPayload) (actor : Actor) :
    d.Extends (d.push payload actor) [payload] := ⟨_, rfl, rfl⟩

theorem Extends.push (h : d.Extends d' added) (payload : EventPayload) (actor : Actor) :
    d.Extends (d'.push payload actor) (added ++ [payload]) := h.trans (d'.extends_push payload actor)

theorem Extends.log_eq (h : d.Extends d' added) : d'.log = d.log ++ added := by
  obtain ⟨more, rfl, rfl⟩ := h
  simp [log]

theorem Extends.spec_eq (h : d.Extends d' added) : d'.spec = d.spec := by
  obtain ⟨more, rfl, -⟩ := h
  rfl

theorem Extends.grows (h : d.Extends d' added) : d.events <+: d'.events := by
  obtain ⟨more, rfl, -⟩ := h
  exact List.prefix_append _ _

theorem harness_eq (d : Driver) : d.state.harness = harnessOf d.spec d.log := rfl

theorem Extends.harness_eq (h : d.Extends d' added) :
    d'.state.harness = harnessOf d.spec (d.log ++ added) := by
  rw [Driver.harness_eq, h.spec_eq, h.log_eq]

theorem hasEnded_eq (events : List Event) : hasEnded events = (payloads events).any isTerminal := by
  simp [hasEnded, payloads, Function.comp_def]

theorem logEnded_eq (d : Driver) : d.logEnded = d.log.any isTerminal := hasEnded_eq d.events

/-! ### One performed effect -/

/-- What carrying out `effect` can record in the driver `d`, with the call it made and the answer it got. -/
inductive Outcome (d : Driver) : Effect → Option (Sigma HarnessCall.Answer) → List EventPayload → Prop
  | toolSkipped (name : String) (input : String) (invocation : InvocationId)
      (h : ∀ step attempt, d.state.harness ≠ .waitingForTool step attempt name invocation) :
      Outcome d (.toolCall name input invocation) none []
  | unknownTool (name : String) (input : String) (invocation : InvocationId) :
      Outcome d (.toolCall name input invocation) none [.runFailed .tool ("unknown tool: " ++ name)]
  | toolFailed (name : String) (input : String) (invocation : InvocationId) (message : String) :
      Outcome d (.toolCall name input invocation) (some ⟨.tool d.events name input, .error message⟩)
        [.runFailed .tool message]
  | toolResult (name : String) (input : String) (invocation : InvocationId) (step attempt : UInt32)
      (output : String) (h : d.state.harness = .waitingForTool step attempt name invocation) :
      Outcome d (.toolCall name input invocation) (some ⟨.tool d.events name input, .ok output⟩)
        [.toolResult name invocation step attempt output]
  | modelResponded (prompt : String) (request : ModelRequest) (message : ModelMessage) (usage : Option Usage) :
      Outcome d (.modelCall prompt) (some ⟨.model d.events request, .ok (message, usage)⟩)
        [.modelResponded message usage]
  | modelFailed (prompt : String) (request : ModelRequest) (message : String) :
      Outcome d (.modelCall prompt) (some ⟨.model d.events request, .error message⟩)
        [.runFailed .dependency message]
  | readFailed (scope : MemoryScope) (key : String) (call : Option (Sigma HarnessCall.Answer))
      (cls : FailureClass) (message : String)
      (h : call = none ∨ ∃ owner, call = some ⟨.memoryRead d.events owner key, .error ()⟩) :
      Outcome d (.memoryRead scope key) call [.runFailed cls message]
  | memoryRead (scope : MemoryScope) (key : String) (owner : MemoryKey) (value : Option String) :
      Outcome d (.memoryRead scope key) (some ⟨.memoryRead d.events owner key, .ok value⟩)
        [.memoryRead scope key value]
  | writeFailed (scope : MemoryScope) (key : String) (value : String)
      (call : Option (Sigma HarnessCall.Answer)) (cls : FailureClass) (message : String)
      (h : call = none ∨ ∃ owner, call = some ⟨.memoryWrite d.events owner key value, .error ()⟩) :
      Outcome d (.memoryWrite scope key value) call [.runFailed cls message]
  | memoryWritten (scope : MemoryScope) (key : String) (value : String) (owner : MemoryKey) :
      Outcome d (.memoryWrite scope key value) (some ⟨.memoryWrite d.events owner key value, .ok ()⟩)
        [.memoryWritten scope key value]
  | delegateRefused (agentId : AgentId) (input : String) (call : Option (Sigma HarnessCall.Answer))
      (reason : String) (h : call = none ∨ ∃ request, call = some ⟨.spawn d.events request, .error reason⟩) :
      Outcome d (.delegate agentId input) call [.delegateRefused agentId reason]
  | childStarted (agentId : AgentId) (input : String) (request : ChildRequest) (child : StartedChild)
      (hparent : request.parent = d.spec) (h : d.carve = .ok request.limits) :
      Outcome d (.delegate agentId input) (some ⟨.spawn d.events request, .ok child⟩)
        [.childStarted child.runId agentId child.limits]
  | messageRefused (toAgent : AgentId) (body : String) (expectsReply : Bool) (replyTo : Option MessageId)
      (timeoutSecs : Option UInt32) (call : Option (Sigma HarnessCall.Answer)) (reason : String)
      (h : call = none ∨ ∃ request, call = some ⟨.send d.events request, .error reason⟩) :
      Outcome d (.sendMessage toAgent body expectsReply replyTo timeoutSecs) call
        [.messageRefused toAgent reason]
  | messageSent (toAgent : AgentId) (body : String) (expectsReply : Bool) (replyTo : Option MessageId)
      (timeoutSecs : Option UInt32) (request : MessageRequest) (sent : SentMessage)
      (hfrom : request.from = d.spec) (hrunning : d.state.harness.isRunning = true)
      (h : ∀ limits, request.limits = some limits → d.carve = .ok limits)
      (hdecision : request.decision = d.state.steps)
      (hexpects : (request.limits.isSome && request.expectsReply) = expectsReply) :
      Outcome d (.sendMessage toAgent body expectsReply replyTo timeoutSecs)
        (some ⟨.send d.events request, .ok sent⟩)
        (sent.task.toList.map (fun task => .childStarted task.runId toAgent task.limits) ++
          [.messageSent sent.messageId toAgent expectsReply])
  | userAsked (prompt : String) (messageId : MessageId) :
      Outcome d (.askUser prompt) none [.userAsked messageId prompt]
  | userAskRefused (prompt : String) (reason : String) :
      Outcome d (.askUser prompt) none [.userAskRefused reason]
  | nothing (effect : Effect)
      (h : (∃ outcome, effect = .complete outcome) ∨ ∀ state spec, applicable state effect spec = false) :
      Outcome d effect none []

/-- A call that carries out an effect is made at the driver's log, and one that asks for a child asks for the
limits carved there. -/
def IsWork (d : Driver) (c : HarnessCall) : Prop :=
  c.log = d.events ∧
  match c with
  | .decide _ | .boundary _ => False
  | .spawn _ request => request.parent = d.spec ∧ d.carve = .ok request.limits
  | .send _ request => request.from = d.spec ∧ ∀ limits, request.limits = some limits → d.carve = .ok limits
  | _ => True

/-- Carrying out an effect returns at once or after one call, with one of its outcomes recorded. -/
def Performs (d : Driver) (effect : Effect) : Prog HarnessSig (Driver × Bool) → Prop
  | .ret (d', _) => ∃ added, d.Outcome effect none added ∧ d.Extends d' added
  | .call c next =>
      d.IsWork c ∧ ∀ answer, ∃ d' go added, next answer = .ret (d', go) ∧
        d.Outcome effect (some ⟨c, answer⟩) added ∧ d.Extends d' added

theorem performs_toolCall (d : Driver) (tools : List ToolDescriptor) (name input : String)
    (invocation : InvocationId) :
    d.Performs (.toolCall name input invocation) (d.performOne tools (.toolCall name input invocation)) := by
  simp only [performOne]
  split
  · next step attempt waitingName waitingInvocation hwaiting =>
      split
      · next hother =>
          refine ⟨_, .toolSkipped _ _ _ fun step' attempt' hsame => ?_, .refl d⟩
          rw [hwaiting] at hsame
          cases hsame
          simp at hother
      · next hsame =>
          obtain ⟨rfl, rfl⟩ : waitingName = name ∧ waitingInvocation = invocation := by
            simpa [not_or] using hsame
          split
          · exact ⟨_, .unknownTool _ _ _, d.extends_push _ _⟩
          · refine ⟨by simp [IsWork, HarnessCall.log], fun answer => ?_⟩
            cases answer with
            | ok output =>
                refine ⟨_, _, _, rfl, .toolResult _ _ _ step attempt output hwaiting, ?_⟩
                simp only [deliverToolResult, hwaiting, ne_eq, not_true_eq_false, or_self, ↓reduceIte]
                exact d.extends_push _ _
            | error message => exact ⟨_, _, _, rfl, .toolFailed _ _ _ message, d.extends_push _ _⟩
  · next hnot =>
      exact ⟨_, .toolSkipped _ _ _ fun step attempt hsame => hnot _ _ _ _ hsame, .refl d⟩

theorem performs_modelCall (d : Driver) (tools : List ToolDescriptor) (prompt : String) :
    d.Performs (.modelCall prompt) (d.performOne tools (.modelCall prompt)) := by
  refine ⟨by simp [IsWork, HarnessCall.log], fun answer => ?_⟩
  cases answer with
  | ok response => exact ⟨_, _, _, rfl, .modelResponded _ _ response.1 response.2, d.extends_push _ _⟩
  | error message => exact ⟨_, _, _, rfl, .modelFailed _ _ message, d.extends_push _ _⟩

theorem performs_memoryRead (d : Driver) (tools : List ToolDescriptor) (scope : MemoryScope) (key : String) :
    d.Performs (.memoryRead scope key) (d.performOne tools (.memoryRead scope key)) := by
  simp only [performOne]
  split
  · exact ⟨_, .readFailed _ _ _ _ _ (.inl rfl), d.extends_push _ _⟩
  · refine ⟨by simp [IsWork, HarnessCall.log], fun answer => ?_⟩
    cases answer with
    | ok value => exact ⟨_, _, _, rfl, .memoryRead _ _ _ value, d.extends_push _ _⟩
    | error _ => exact ⟨_, _, _, rfl, .readFailed _ _ _ _ _ (.inr ⟨_, rfl⟩), d.extends_push _ _⟩

theorem performs_memoryWrite (d : Driver) (tools : List ToolDescriptor) (scope : MemoryScope) (key value : String) :
    d.Performs (.memoryWrite scope key value) (d.performOne tools (.memoryWrite scope key value)) := by
  simp only [performOne]
  split
  · exact ⟨_, .writeFailed _ _ _ _ _ _ (.inl rfl), d.extends_push _ _⟩
  · refine ⟨by simp [IsWork, HarnessCall.log], fun answer => ?_⟩
    cases answer with
    | ok _ => exact ⟨_, _, _, rfl, .memoryWritten _ _ _ _, d.extends_push _ _⟩
    | error _ => exact ⟨_, _, _, rfl, .writeFailed _ _ _ _ _ _ (.inr ⟨_, rfl⟩), d.extends_push _ _⟩

theorem performs_delegate (d : Driver) (tools : List ToolDescriptor) (agentId : AgentId) (input : String) :
    d.Performs (.delegate agentId input) (d.performOne tools (.delegate agentId input)) := by
  simp only [performOne, delegate]
  split
  · exact ⟨_, .delegateRefused _ _ _ _ (.inl rfl), d.extends_push _ _⟩
  · next given hgiven =>
      split
      · exact ⟨_, .delegateRefused _ _ _ _ (.inl rfl), d.extends_push _ _⟩
      · refine ⟨⟨rfl, rfl, hgiven⟩, fun answer => ?_⟩
        cases answer with
        | ok child => exact ⟨_, _, _, rfl, .childStarted _ _ _ child rfl hgiven, d.extends_push _ _⟩
        | error reason => exact ⟨_, _, _, rfl, .delegateRefused _ _ _ _ (.inr ⟨_, rfl⟩), d.extends_push _ _⟩

theorem extends_messageSent (d : Driver) (toAgent : AgentId) (expectsReply : Bool) (sent : SentMessage) :
    d.Extends (d.messageSent toAgent expectsReply sent)
      (sent.task.toList.map (fun task => .childStarted task.runId toAgent task.limits) ++
        [.messageSent sent.messageId toAgent expectsReply]) := by
  unfold messageSent
  cases sent.task with
  | none => exact d.extends_push _ _
  | some task => exact (d.extends_push _ _).push _ _

theorem carve_of_limits {d : Driver} {startsTask : Bool} {limits : Option Limits}
    (h : (if !d.state.harness.isRunning then .error "the run is not running"
      else if !d.deliverer then .error "no message deliverer is configured"
      else if startsTask then d.carve.map some
      else .ok none : Except String (Option Limits)) = .ok limits) :
    d.state.harness.isRunning = true ∧ (∀ given, limits = some given → d.carve = .ok given) ∧
      limits.isSome = startsTask := by
  split at h
  · contradiction
  · next hrunning =>
      refine ⟨by simpa using hrunning, ?_⟩
      split at h
      · contradiction
      · split at h
        · next hstarts =>
            cases hcarve : d.carve with
            | ok carved =>
                rw [hcarve] at h
                cases h
                exact ⟨fun given hgiven => congrArg Except.ok (Option.some.inj hgiven), hstarts.symm⟩
            | error reason =>
                rw [hcarve] at h
                cases h
        · next hstarts =>
            cases h
            exact ⟨nofun, (eq_false_of_ne_true hstarts).symm⟩

theorem performs_sendMessage (d : Driver) (tools : List ToolDescriptor) (toAgent : AgentId) (body : String)
    (expectsReply : Bool) (replyTo : Option MessageId) (timeoutSecs : Option UInt32) :
    d.Performs (.sendMessage toAgent body expectsReply replyTo timeoutSecs)
      (d.performOne tools (.sendMessage toAgent body expectsReply replyTo timeoutSecs)) := by
  simp only [performOne, sendMessage]
  split
  · exact ⟨_, .messageRefused _ _ _ _ _ _ _ (.inl rfl), d.extends_push _ _⟩
  · next limits hlimits =>
      obtain ⟨hrunning, hcarve, hstarts⟩ := carve_of_limits hlimits
      have hexpects : (limits.isSome && expectsReply) = expectsReply := by
        cases expectsReply with
        | true => rw [hstarts, Bool.or_true, Bool.and_true]
        | false => exact Bool.and_false _
      refine ⟨⟨rfl, rfl, hcarve⟩, fun answer => ?_⟩
      cases answer with
      | ok sent =>
          exact ⟨_, _, _, rfl, .messageSent _ _ _ _ _ _ sent rfl hrunning hcarve rfl hexpects,
            d.extends_messageSent _ _ _⟩
      | error reason => exact ⟨_, _, _, rfl, .messageRefused _ _ _ _ _ _ _ (.inr ⟨_, rfl⟩), d.extends_push _ _⟩

theorem performs (d : Driver) (tools : List ToolDescriptor) (effect : Effect) :
    d.Performs effect (d.performOne tools effect) := by
  cases effect with
  | toolCall name input invocation => exact d.performs_toolCall tools name input invocation
  | modelCall prompt => exact d.performs_modelCall tools prompt
  | memoryRead scope key => exact d.performs_memoryRead tools scope key
  | memoryWrite scope key value => exact d.performs_memoryWrite tools scope key value
  | delegate agentId input => exact d.performs_delegate tools agentId input
  | sendMessage toAgent body expectsReply replyTo timeoutSecs =>
      exact d.performs_sendMessage tools toAgent body expectsReply replyTo timeoutSecs
  | askUser prompt =>
      simp only [performOne, askUser]
      split
      · exact ⟨_, .userAsked _ _, d.extends_push _ _⟩
      · exact ⟨_, .userAskRefused _ _, d.extends_push _ _⟩
  | complete outcome => exact ⟨_, .nothing _ (.inl ⟨outcome, rfl⟩), .refl d⟩
  | execute _ | requestApproval _ _ | wait _ | publishArtifact _ _ _ =>
      exact ⟨_, .nothing _ (.inr fun state spec => by cases state <;> rfl), .refl d⟩

/-! ### Authorizing and deciding -/

/-- With some tools, `spec` may carry out `effect`. -/
def Allows (spec : RunSpec) (effect : Effect) : Prop := ∃ tools, authorize spec effect tools = .allow

/-- What `authorizeDecided` can do with an effect decided in the harness state `harness`. -/
inductive Authorized (d : Driver) (effect : Effect) : Driver × List Effect → Prop
  | denied (d' : Driver) (reason : String)
      (hcomplete : ∀ outcome, effect = .complete outcome → d.state.harness.isRunning = false)
      (hext : d.Extends d' [.effectDenied effect reason]) : Authorized d effect (d', [])
  | completed (d' : Driver) (outcome : String) (heffect : effect = .complete outcome)
      (hrunning : d.state.harness.isRunning = true)
      (hext : d.Extends d' [.effectAuthorized effect, .runCompleted outcome]) (hallows : Allows d.spec effect) :
      Authorized d effect (d', [])
  | authorized (d' : Driver) (happlicable : applicable d.state.harness effect d.spec = true)
      (heffect : ∀ outcome, effect ≠ .complete outcome) (hext : d.Extends d' [.effectAuthorized effect])
      (hallows : Allows d.spec effect) : Authorized d effect (d', [effect])

theorem isRunning_of_applicable {state : HarnessState} {effect : Effect} {spec : RunSpec}
    (h : applicable state effect spec = true) : state.isRunning = true := by
  cases state <;> simp_all [applicable, HarnessState.isRunning]

theorem not_running_of_not_applicable_complete {state : HarnessState} {outcome : String} {spec : RunSpec}
    (h : applicable state (.complete outcome) spec = false) : state.isRunning = false := by
  cases state <;> simp_all [applicable, HarnessState.isRunning]

theorem effectsOfLast_push (d : Driver) (payload : EventPayload) (actor : Actor) :
    effectsOfLast d.spec (d.push payload actor).events = (reduce d.state.harness payload d.spec).2 := by
  simp [effectsOfLast, push, state]

theorem reduce_authorized {state : HarnessState} {effect : Effect} {spec : RunSpec}
    (happlicable : applicable state effect spec = true) (heffect : ∀ outcome, effect ≠ .complete outcome) :
    (reduce state (.effectAuthorized effect) spec).2 = [effect] := by
  cases state with
  | running step attempt answered =>
      cases effect with
      | complete outcome => exact absurd rfl (heffect outcome)
      | _ =>
          simp only [reduce, HarnessState.isTerminal, onAuthorized, happlicable]
          rfl
  | _ => simp [applicable] at happlicable

theorem reduce_authorized_complete {state : HarnessState} (hrunning : state.isRunning = true) (outcome : String)
    (spec : RunSpec) : reduce state (.effectAuthorized (.complete outcome)) spec = (.completed outcome, []) := by
  cases state with
  | running step attempt answered => rfl
  | _ => simp [HarnessState.isRunning] at hrunning

theorem push_harness (d : Driver) (payload : EventPayload) (actor : Actor) :
    (d.push payload actor).state.harness = (reduce d.state.harness payload d.spec).1 := by
  rw [(d.extends_push payload actor).harness_eq, harnessOf_snoc]
  rfl

theorem authorizeDecided_cases (d : Driver) (effect : Effect) (tools : List ToolDescriptor) :
    d.Authorized effect (d.authorizeDecided d.state.harness effect tools) := by
  unfold authorizeDecided
  split
  · next hallow =>
    split
    · next happ =>
        refine .denied _ _ (fun outcome heffect => ?_) (d.extends_push _ _)
        subst heffect
        exact not_running_of_not_applicable_complete (by simpa using happ)
    · next happ =>
        have happlicable : applicable d.state.harness effect d.spec = true := by simpa using happ
        by_cases hcomplete : ∃ outcome, effect = .complete outcome
        · obtain ⟨outcome, rfl⟩ := hcomplete
          have hrunning := isRunning_of_applicable happlicable
          have hcompleted := d.push_harness (.effectAuthorized (.complete outcome)) .policy
          rw [reduce_authorized_complete hrunning] at hcompleted
          simp only [hcompleted]
          have hnone := (d.push (.effectAuthorized (.complete outcome)) .policy).effectsOfLast_push
            (.runCompleted outcome) .system
          rw [hcompleted] at hnone
          change d.Authorized (.complete outcome)
            (_, effectsOfLast (d.push (.effectAuthorized (.complete outcome)) .policy).spec _)
          rw [hnone]
          exact .completed _ outcome rfl hrunning ((d.extends_push _ _).push _ _) ⟨tools, hallow⟩
        · have heffect : ∀ outcome, effect ≠ .complete outcome := fun outcome h => hcomplete ⟨outcome, h⟩
          have hself := d.effectsOfLast_push (.effectAuthorized effect) .policy
          rw [reduce_authorized happlicable heffect] at hself
          have hext := d.extends_push (.effectAuthorized effect) .policy
          cases effect with
          | complete outcome => exact absurd rfl (heffect outcome)
          | _ =>
              change d.Authorized _ (_, effectsOfLast d.spec _)
              rw [hself]
              exact .authorized _ happlicable heffect hext ⟨tools, hallow⟩
  · next reason hdeny =>
      refine .denied _ _ (fun outcome heffect => ?_) (d.extends_push _ _)
      simp [heffect, authorize] at hdeny
  · next hallow hdeny =>
      refine .denied _ _ (fun outcome heffect => ?_) (d.extends_push _ _)
      simp [heffect, authorize] at hallow

theorem reduce_decided (state : HarnessState) (effect : Effect) (spec : RunSpec) :
    reduce state (.effectDecided effect) spec = (state, []) := by
  cases state <;> rfl

/-- What a decision can do: end the run over its budget, or be recorded and authorized. -/
inductive Decided (d : Driver) (effect : Effect) : Driver × List Effect → Prop
  | overBudget (d' : Driver) (h : d.overBudget effect = true)
      (hext : d.Extends d' [.runFailed .budget "limit hit"]) : Decided d effect (d', [])
  | decided (mid : Driver) (result : Driver × List Effect) (h : d.overBudget effect = false)
      (hext : d.Extends mid [.effectDecided effect]) (hharness : mid.state.harness = d.state.harness)
      (hresult : mid.Authorized effect result) : Decided d effect result

theorem onDecision_cases (d : Driver) (tools : List ToolDescriptor) (effect : Effect) :
    d.Decided effect (d.onDecision tools effect) := by
  unfold onDecision
  split
  · next hover => exact .overBudget _ hover (d.extends_push _ _)
  · next hover =>
      have hharness : (d.push (.effectDecided effect) .agent).state.harness = d.state.harness := by
        rw [push_harness, reduce_decided]
      have hresult := (d.push (.effectDecided effect) .agent).authorizeDecided_cases effect tools
      rw [hharness] at hresult
      exact .decided _ _ (by simpa using hover) (d.extends_push _ _) hharness hresult

/-! ### Advancing an answered step -/

/-- What `advanceAnsweredStep` records. -/
def advance (d : Driver) : List EventPayload :=
  match d.state.harness with
  | .running step _ true => if d.spec.limits.maxSteps ≤ step then [] else [.stepAdvanced]
  | _ => []

theorem extends_advanceAnsweredStep (d : Driver) : d.Extends d.advanceAnsweredStep d.advance := by
  unfold advanceAnsweredStep advance
  cases d.state.harness with
  | running step attempt answered =>
      cases answered with
      | true =>
          dsimp only
          split
          · exact .refl d
          · exact d.extends_push _ _
      | false => exact .refl d
  | _ => exact .refl d

theorem advance_eq_nil_of_not_running {d : Driver} (h : d.state.harness.isRunning = false) : d.advance = [] := by
  unfold advance
  split
  · next hrunning => simp [hrunning, HarnessState.isRunning] at h
  · rfl

/-! ### One iteration -/

/-- What one iteration of the loop can record after its boundary, with the call that carried out its effect. -/
inductive Batch (d : Driver) : Option (Sigma HarnessCall.Answer) → List EventPayload → Prop
  | overBudget (effect : Effect) (h : d.overBudget effect = true) : Batch d none [.runFailed .budget "limit hit"]
  | denied (effect : Effect) (reason : String) (h : d.overBudget effect = false)
      (hcomplete : ∀ outcome, effect = .complete outcome → d.state.harness.isRunning = false) :
      Batch d none [.effectDecided effect, .effectDenied effect reason]
  | completed (outcome : String) (hrunning : d.state.harness.isRunning = true)
      (hallows : Allows d.spec (.complete outcome)) :
      Batch d none [.effectDecided (.complete outcome), .effectAuthorized (.complete outcome), .runCompleted outcome]
  | performed (effect : Effect) (call : Option (Sigma HarnessCall.Answer)) (mid last : Driver)
      (added : List EventPayload) (h : d.overBudget effect = false)
      (happlicable : applicable d.state.harness effect d.spec = true)
      (heffect : ∀ outcome, effect ≠ .complete outcome)
      (hmid : d.Extends mid [.effectDecided effect, .effectAuthorized effect])
      (houtcome : mid.Outcome effect call added) (hlast : mid.Extends last added) (hallows : Allows d.spec effect) :
      Batch d call ([.effectDecided effect, .effectAuthorized effect] ++ added ++ last.advance)

/-- The run has not ended. -/
def Going (d : Driver) : Prop := d.state.harness.isTerminal = false ∧ d.logEnded = false

/-- `fuel` is enough for the loop from `d`: one check if the run ended, else the steps it has left and two more. -/
def Fueled (d : Driver) (fuel : Nat) : Prop :=
  (¬ d.Going ∧ 1 ≤ fuel) ∨ d.spec.limits.maxSteps.toNat - d.state.steps.toNat + 2 ≤ fuel

theorem Extends.not_going {d d' : Driver} {added : List EventPayload} (h : d.Extends d' added)
    (hended : added.any isTerminal = true) : ¬ d'.Going := by
  rintro ⟨-, hopen⟩
  rw [logEnded_eq, h.log_eq, List.any_append, hended] at hopen
  simp at hopen

/-- A decision that is within the budget and not a finishing Complete has a step left for it. -/
theorem lt_of_not_overBudget {d : Driver} {effect : Effect} (h : d.overBudget effect = false)
    (hcomplete : ∀ outcome, effect = .complete outcome → d.state.harness.isRunning = false) :
    d.state.steps.toNat + d.state.givenSteps.toNat < d.spec.limits.maxSteps.toNat := by
  have hspent : d.stepsSpent = false := by
    cases effect with
    | complete outcome => simpa [overBudget, hcomplete outcome rfl] using h
    | modelCall prompt =>
        simp only [overBudget, Bool.or_eq_false_iff] at h
        exact h.1
    | _ => exact h
  have hlt : ¬ d.spec.limits.maxSteps ≤ saturatingAdd d.state.steps d.state.givenSteps := by
    simpa [stepsSpent] using hspent
  have hmax := d.spec.limits.maxSteps.toNat_lt
  rw [UInt32.le_iff_toNat_le, saturatingAdd_toNat] at hlt
  omega

theorem Outcome.not_decided {d : Driver} {effect : Effect} {call : Option (Sigma HarnessCall.Answer)}
    {added : List EventPayload} (h : d.Outcome effect call added) :
    ∀ payload ∈ added, isDecided payload = false := by
  cases h with
  | messageSent toAgent body expectsReply replyTo timeoutSecs request sent =>
      intro payload hpayload
      simp only [List.mem_append, List.mem_map, List.mem_singleton] at hpayload
      rcases hpayload with ⟨task, -, rfl⟩ | rfl <;> rfl
  | _ => simp [isDecided]

theorem advance_not_decided (d : Driver) : ∀ payload ∈ d.advance, isDecided payload = false := by
  unfold advance
  split
  · split <;> simp [isDecided]
  · simp

/-- A batch ends the run, or records one decision that costs a step. -/
theorem Batch.spends {d : Driver} {call : Option (Sigma HarnessCall.Answer)} {added : List EventPayload}
    (h : d.Batch call added) :
    added.any isTerminal = true ∨ ∃ effect rest, added = .effectDecided effect :: rest ∧ d.overBudget effect = false ∧
      (∀ outcome, effect = .complete outcome → d.state.harness.isRunning = false) ∧
      ∀ payload ∈ rest, isDecided payload = false := by
  cases h with
  | overBudget effect hover => exact .inl rfl
  | completed outcome hrunning => exact .inl (by simp [isTerminal])
  | denied effect reason hbudget hcomplete => exact .inr ⟨effect, _, rfl, hbudget, hcomplete, by simp [isDecided]⟩
  | performed effect call mid last more hbudget happlicable heffect hmid houtcome hlast =>
      refine .inr ⟨effect, .effectAuthorized effect :: (more ++ last.advance), by simp, hbudget,
        fun outcome h => absurd h (heffect outcome), ?_⟩
      intro payload hpayload
      simp only [List.mem_cons, List.mem_append] at hpayload
      rcases hpayload with rfl | hmore | hadvance
      · rfl
      · exact houtcome.not_decided payload hmore
      · exact last.advance_not_decided payload hadvance

/-- An iteration that goes on spends a step. -/
theorem Batch.fueled {d d' : Driver} {call : Option (Sigma HarnessCall.Answer)} {added : List EventPayload}
    {fuel : Nat} (hgoing : d.Going) (h : d.Batch call added) (hext : d.Extends d' added)
    (hfuel : d.Fueled (fuel + 1)) : d'.Fueled fuel := by
  have hfuel : d.spec.limits.maxSteps.toNat - d.state.steps.toNat + 2 ≤ fuel + 1 := by
    rcases hfuel with ⟨hended, -⟩ | hfuel
    · exact absurd hgoing hended
    · exact hfuel
  rcases h.spends with hended | ⟨effect, rest, rfl, hbudget, hcomplete, hrest⟩
  · exact .inl ⟨hext.not_going hended, by omega⟩
  · have hlt := lt_of_not_overBudget hbudget hcomplete
    have hmax := d.spec.limits.maxSteps.toNat_lt
    have hsteps : d'.state.steps = d.state.steps + 1 := by
      change (foldAll d'.spec d'.log).steps = (foldAll d.spec d.log).steps + 1
      rw [hext.spec_eq, hext.log_eq, foldAll_append, List.foldl_cons, foldl_steps _ _ hrest]
      exact foldStep_steps_decided _ _ hcomplete
    right
    rw [hsteps, hext.spec_eq, UInt32.toNat_add, UInt32.toNat_one]
    omega

section Performing

variable {State : Type} {Step : State → (c : HarnessCall) → c.Answer → State → Prop}
  {Owes : State → HarnessCall → Prop}

/-- The world of a driver that runs alone. -/
abbrev World (State : Type) (Step : State → (c : HarnessCall) → c.Answer → State → Prop)
    (Owes : State → HarnessCall → Prop) : Library.World HarnessSig := Library.World.alone State Step Owes

/-- Performing one effect and advancing the step records an outcome of it. -/
theorem afterDecision_one_safe {post : State → Driver → Prop} (tools : List ToolDescriptor) (effect : Effect)
    (d : Driver) (s : State) (howes : ∀ c, d.IsWork c → Owes s c)
    (hnone : ∀ added last d', d.Outcome effect none added → d.Extends last added →
      d.Extends d' (added ++ last.advance) → post s d')
    (hsome : ∀ c answer u added last d', Step s c answer u → d.Outcome effect (some ⟨c, answer⟩) added →
      d.Extends last added → d.Extends d' (added ++ last.advance) → c.log <+: d'.events → post u d') :
    (World State Step Owes).Safe post (d.afterDecision tools [effect]) s := by
  have hperforms := d.performs tools effect
  simp only [afterDecision, perform]
  cases hp : d.performOne tools effect with
  | ret result =>
      obtain ⟨d', go⟩ := result
      rw [hp] at hperforms
      obtain ⟨added, houtcome, hext⟩ := hperforms
      cases go <;>
        exact World.safe_alone_ret.mpr (hnone added d' _ houtcome hext (hext.trans d'.extends_advanceAnsweredStep))
  | call c next =>
      rw [hp] at hperforms
      obtain ⟨hwork, hanswers⟩ := hperforms
      refine World.safe_alone_call.mpr ⟨howes c hwork, fun answer u hstep => ?_⟩
      obtain ⟨d', go, added, hnext, houtcome, hext⟩ := hanswers answer
      simp only [hnext, Prog.ret_bind]
      have hfinal := hext.trans d'.extends_advanceAnsweredStep
      have hlog : c.log <+: d'.advanceAnsweredStep.events := by
        rw [hwork.1]
        exact hfinal.grows
      cases go <;> exact World.safe_alone_ret.mpr (hsome c answer u added d' _ hstep houtcome hext hfinal hlog)

theorem afterDecision_nil_safe {post : State → Driver → Prop} (tools : List ToolDescriptor) (d : Driver)
    (s : State) (h : ∀ d', d.Extends d' d.advance → post s d') :
    (World State Step Owes).Safe post (d.afterDecision tools []) s :=
  World.safe_alone_ret.mpr (h _ d.extends_advanceAnsweredStep)

/-- An invariant of the loop: what it owes at its calls, that each batch keeps it, and what it gives when the
loop returns. -/
structure LoopRule (Step : State → (c : HarnessCall) → c.Answer → State → Prop)
    (Owes : State → HarnessCall → Prop) (tools : List ToolDescriptor) (I : State → Driver → Prop)
    (post : State → Driver × Finish → Prop) : Prop where
  boundary : ∀ s d, I s d → d.Going →
    Owes s (.boundary d) ∧ ∀ answer u, Step s (.boundary d) answer u → I u d
  decide : ∀ s d, I s d → d.Going → Owes s (.decide (d.decisionView tools)) ∧
    ∀ answer u, Step s (.decide (d.decisionView tools)) answer u → I u d
  work : ∀ s d mid added c, I s d → d.Going → d.Extends mid added → added.any isTerminal = false →
    mid.IsWork c → Owes s c
  batch : ∀ s d added d', I s d → d.Going → d.Batch none added → d.Extends d' added → I s d'
  batchCall : ∀ s d c answer u added d', I s d → d.Going → Step s c answer u →
    d.Batch (some ⟨c, answer⟩) added → d.Extends d' added → c.log <+: d'.events → I u d'
  ended : ∀ s d, I s d → ¬ d.Going → post s (d, .ok)
  cancelled : ∀ s d u, I s d → d.Going → Step s (.boundary d) .cancel u → post u (d.cancel, .ok)
  paused : ∀ s d u, I s d → d.Going → Step s (.boundary d) .pause u → post u (d, .ok)
  waiting : ∀ s d u step attempt messageId, I s d → d.Going → Step s (.boundary d) .continue u →
    d.state.harness = .waitingForMessage step attempt messageId → post u (d, .ok)
  failed : ∀ s d error u, I s d → d.Going → Step s (.decide (d.decisionView tools)) (.error error) u →
    post u (d, .failed error)

/-- One decision and the batch it leads to, from which the loop goes on. -/
theorem decide_batch_safe {tools : List ToolDescriptor} {post : State → Driver × Finish → Prop} {s : State} {d : Driver}
    (hgoing : d.Going) {fuel : Nat} (howes : Owes s (.decide (d.decisionView tools)))
    (hwork : ∀ effect u mid c, Step s (.decide (d.decisionView tools)) (.ok effect) u → d.overBudget effect = false →
      d.Extends mid [.effectDecided effect, .effectAuthorized effect] → mid.IsWork c → Owes u c)
    (hfailed : ∀ error u, Step s (.decide (d.decisionView tools)) (.error error) u → post u (d, .failed error))
    (hended : ∀ effect u added d', Step s (.decide (d.decisionView tools)) (.ok effect) u → d.Batch none added →
      d.Extends d' added → ¬ d'.Going → post u (d', .ok))
    (hnone : ∀ effect u added d', Step s (.decide (d.decisionView tools)) (.ok effect) u → d.Batch none added →
      d.Extends d' added → (World State Step Owes).Safe post (runLoop tools fuel d') u)
    (hsome : ∀ effect u c answer v added d', Step s (.decide (d.decisionView tools)) (.ok effect) u →
      Step u c answer v → d.Batch (some ⟨c, answer⟩) added → d.Extends d' added → c.log <+: d'.events →
      (World State Step Owes).Safe post (runLoop tools fuel d') v) :
    (World State Step Owes).Safe post
      ((d.decide tools).bind fun
        | (d, .error error) => .ret (d, .failed error)
        | (d, .ok []) => if d.state.harness.isTerminal then .ret (d, .ok) else runLoop tools fuel d
        | (d, .ok effects) => (d.afterDecision tools effects).bind (runLoop tools fuel)) s := by
  unfold Driver.decide
  rw [if_neg (by simp [hgoing.1])]
  refine World.safe_alone_call.mpr ⟨howes, fun answer u hstep => ?_⟩
  cases answer with
  | error error => exact World.safe_alone_ret.mpr (hfailed error u hstep)
  | ok effect =>
      have hdecided := d.onDecision_cases tools effect
      have hstop : ∀ d' added, d.Batch none added → d.Extends d' added → (World State Step Owes).Safe post
          (if d'.state.harness.isTerminal then .ret (d', .ok) else runLoop tools fuel d') u := by
        intro d' added hbatch hext
        split
        · next hterminal =>
            exact World.safe_alone_ret.mpr
              (hended effect u added d' hstep hbatch hext fun hgoing' => by simp [hgoing'.1] at hterminal)
        · exact hnone effect u added d' hstep hbatch hext
      dsimp only
      generalize d.onDecision tools effect = result at hdecided ⊢
      cases hdecided with
      | overBudget d' hover hext => exact hstop d' _ (.overBudget effect hover) hext
      | decided mid result hbudget hmid hharness hresult =>
          cases hresult with
          | denied d' reason hcomplete hext =>
              rw [hharness] at hcomplete
              exact hstop d' _ (.denied effect reason hbudget hcomplete) (hmid.trans hext)
          | completed d' outcome heffect hrunning hext hallows =>
              subst heffect
              rw [hharness] at hrunning
              rw [hmid.spec_eq] at hallows
              exact hstop d' _ (.completed outcome hrunning hallows) (hmid.trans hext)
          | authorized mid' happlicable heffect hext hallows =>
              rw [hharness, hmid.spec_eq] at happlicable
              rw [hmid.spec_eq] at hallows
              have hboth := hmid.trans hext
              change (World State Step Owes).Safe post ((mid'.afterDecision tools [effect]).bind (runLoop tools fuel)) u
              apply World.Safe.bind
              apply afterDecision_one_safe
              · exact fun c => hwork effect u mid' c hstep hbudget hboth
              · intro added last d' houtcome hlast hext'
                have hbatch := Batch.performed effect none mid' last added hbudget happlicable heffect hboth
                  houtcome hlast hallows
                have hfinal := hboth.trans hext'
                rw [← List.append_assoc] at hfinal
                exact hnone effect u _ d' hstep hbatch hfinal
              · intro c answer v added last d' hstep' houtcome hlast hext' hlog
                have hbatch := Batch.performed effect _ mid' last added hbudget happlicable heffect hboth
                  houtcome hlast hallows
                have hfinal := hboth.trans hext'
                rw [← List.append_assoc] at hfinal
                exact hsome effect u c answer v _ d' hstep hstep' hbatch hfinal hlog

/-- An invariant of the loop in two phases, before a step's boundary and after it: what the loop owes at its calls,
that each batch leads from the second phase back to the first, and what the loop gives when it returns. -/
structure PhaseRule (Step : State → (c : HarnessCall) → c.Answer → State → Prop)
    (Owes : State → HarnessCall → Prop) (tools : List ToolDescriptor) (before after : State → Driver → Prop)
    (post : State → Driver × Finish → Prop) : Prop where
  boundary : ∀ s d, before s d → d.Going →
    Owes s (.boundary d) ∧ ∀ u, Step s (.boundary d) .continue u → after u d
  decide : ∀ s d, after s d → d.Going → Owes s (.decide (d.decisionView tools)) ∧
    ∀ effect u, Step s (.decide (d.decisionView tools)) (.ok effect) u → after u d
  work : ∀ s d mid effect c, after s d → d.Going → d.overBudget effect = false →
    d.Extends mid [.effectDecided effect, .effectAuthorized effect] → mid.IsWork c → Owes s c
  batch : ∀ s d added d', after s d → d.Going → d.Batch none added → d.Extends d' added → before s d'
  batchCall : ∀ s d c answer u added d', after s d → d.Going → Step s c answer u →
    d.Batch (some ⟨c, answer⟩) added → d.Extends d' added → c.log <+: d'.events → before u d'
  ended : ∀ s d, before s d → ¬ d.Going → post s (d, .ok)
  cancelled : ∀ s d u, before s d → d.Going → Step s (.boundary d) .cancel u → post u (d.cancel, .ok)
  paused : ∀ s d u, before s d → d.Going → Step s (.boundary d) .pause u → post u (d, .ok)
  waiting : ∀ s d u step attempt messageId, before s d → d.Going → Step s (.boundary d) .continue u →
    d.state.harness = .waitingForMessage step attempt messageId → post u (d, .ok)
  failed : ∀ s d error u, after s d → d.Going → Step s (.decide (d.decisionView tools)) (.error error) u →
    post u (d, .failed error)

theorem LoopRule.phases {tools : List ToolDescriptor} {I : State → Driver → Prop}
    {post : State → Driver × Finish → Prop} (h : LoopRule Step Owes tools I post) :
    PhaseRule Step Owes tools I I post where
  boundary s d hI hgoing := (h.boundary s d hI hgoing).imp_right fun hnext => hnext .continue
  decide s d hI hgoing := (h.decide s d hI hgoing).imp_right fun hnext effect => hnext (.ok effect)
  work s d mid _ c hI hgoing _ hext hwork := h.work s d mid _ c hI hgoing hext rfl hwork
  batch := h.batch
  batchCall := h.batchCall
  ended := h.ended
  cancelled := h.cancelled
  paused := h.paused
  waiting := h.waiting
  failed := h.failed

section Phases

variable {tools : List ToolDescriptor} {before after : State → Driver → Prop} {post : State → Driver × Finish → Prop}

theorem decide_safe (hrule : PhaseRule Step Owes tools before after post) {s : State} {d : Driver}
    (hafter : after s d) (hgoing : d.Going) {fuel : Nat} (hfuel : d.Fueled (fuel + 1))
    (hnext : ∀ u d', before u d' → d'.Fueled fuel → (World State Step Owes).Safe post (runLoop tools fuel d') u) :
    (World State Step Owes).Safe post
      ((d.decide tools).bind fun
        | (d, .error error) => .ret (d, .failed error)
        | (d, .ok []) => if d.state.harness.isTerminal then .ret (d, .ok) else runLoop tools fuel d
        | (d, .ok effects) => (d.afterDecision tools effects).bind (runLoop tools fuel)) s := by
  obtain ⟨howes, hdecide⟩ := hrule.decide s d hafter hgoing
  refine decide_batch_safe hgoing howes ?_ ?_ ?_ ?_ ?_
  · exact fun effect u mid c hstep hbudget hext hwork =>
      hrule.work u d mid effect c (hdecide effect u hstep) hgoing hbudget hext hwork
  · exact fun error u hstep => hrule.failed s d error u hafter hgoing hstep
  · exact fun effect u added d' hstep hbatch hext hnot =>
      hrule.ended u d' (hrule.batch u d added d' (hdecide effect u hstep) hgoing hbatch hext) hnot
  · exact fun effect u added d' hstep hbatch hext =>
      hnext u d' (hrule.batch u d added d' (hdecide effect u hstep) hgoing hbatch hext)
        (hbatch.fueled hgoing hext hfuel)
  · exact fun effect u c answer v added d' hstep hstep' hbatch hext hlog =>
      hnext v d' (hrule.batchCall u d c answer v added d' (hdecide effect u hstep) hgoing hstep' hbatch hext hlog)
        (hbatch.fueled hgoing hext hfuel)

/-- An invariant of the loop holds throughout it, and the loop never runs out of its fuel. -/
theorem runLoop_phases (hrule : PhaseRule Step Owes tools before after post) (fuel : Nat) {s : State} {d : Driver}
    (hbefore : before s d) (hfuel : d.Fueled fuel) :
    (World State Step Owes).Safe post (runLoop tools fuel d) s := by
  induction fuel generalizing s d with
  | zero => rcases hfuel with ⟨-, hfuel⟩ | hfuel <;> omega
  | succ fuel ih =>
      rw [runLoop]
      split
      · next hended =>
          refine World.safe_alone_ret.mpr (hrule.ended s d hbefore fun hgoing => ?_)
          simp [hgoing.1, hgoing.2] at hended
      · next hopen =>
          have hgoing : d.Going := by simpa [Going] using hopen
          obtain ⟨howes, hboundary⟩ := hrule.boundary s d hbefore hgoing
          refine World.safe_alone_call.mpr ⟨howes, fun answer u hstep => ?_⟩
          cases answer with
          | cancel => exact World.safe_alone_ret.mpr (hrule.cancelled s d u hbefore hgoing hstep)
          | pause => exact World.safe_alone_ret.mpr (hrule.paused s d u hbefore hgoing hstep)
          | «continue» =>
              dsimp only
              split
              · next step attempt messageId hwaiting =>
                  exact World.safe_alone_ret.mpr
                    (hrule.waiting s d u step attempt messageId hbefore hgoing hstep hwaiting)
              · exact decide_safe hrule (hboundary u hstep) hgoing hfuel fun v d' => ih

end Phases

/-- A loop invariant holds throughout the loop, which never runs out of its fuel. -/
theorem runLoop_safe {tools : List ToolDescriptor} {I : State → Driver → Prop}
    {post : State → Driver × Finish → Prop} (hrule : LoopRule Step Owes tools I post) (fuel : Nat) {s : State}
    {d : Driver} (hI : I s d) (hfuel : d.Fueled fuel) :
    (World State Step Owes).Safe post (runLoop tools fuel d) s := runLoop_phases hrule.phases fuel hI hfuel

end Performing

/-! ### Before the loop -/

/-- The driver with nothing of a resumed log left to finish. -/
def settled (d : Driver) : Driver := { d with pending := [], undecided := none, resumed := false }

/-- A resumed log was cut between a decision and what it came to. -/
def Unfinished (d : Driver) : Prop := d.pending ≠ [] ∨ d.undecided ≠ none

/-- What a resumed log can leave to finish: one pending effect, or a decision to authorize in the harness state
it was made in, which recording it did not move. -/
structure Resumable (d : Driver) : Prop where
  pending : d.pending = [] ∨ ∃ effect, d.pending = [effect]
  undecided : ∀ harness effect, d.undecided = some (harness, effect) →
    harness = d.state.harness ∧ d.resumed = true

/-- What `runUntil` can record before its loop. -/
inductive Finished (d : Driver) : Option (Sigma HarnessCall.Answer) → List EventPayload → Prop
  | untouched (hresumed : d.resumed = false) : Finished d none []
  | advanced (hresumed : d.resumed = true) (hpending : d.pending = []) (hundecided : d.undecided = none) :
      Finished d none d.settled.advance
  | performed (effect : Effect) (call : Option (Sigma HarnessCall.Answer)) (last : Driver)
      (added : List EventPayload) (hpending : d.pending = [effect]) (hundecided : d.undecided = none)
      (houtcome : d.settled.Outcome effect call added) (hlast : d.settled.Extends last added) :
      Finished d call (added ++ last.advance)
  | denied (harness : HarnessState) (effect : Effect) (reason : String) (last : Driver)
      (hundecided : d.undecided = some (harness, effect))
      (hlast : d.settled.Extends last [.effectDenied effect reason]) :
      Finished d none ([.effectDenied effect reason] ++ last.advance)
  | completed (harness : HarnessState) (outcome : String) (last : Driver)
      (hundecided : d.undecided = some (harness, .complete outcome))
      (hrunning : d.state.harness.isRunning = true)
      (hlast : d.settled.Extends last [.effectAuthorized (.complete outcome), .runCompleted outcome])
      (hallows : Allows d.spec (.complete outcome)) :
      Finished d none ([.effectAuthorized (.complete outcome), .runCompleted outcome] ++ last.advance)
  | authorized (harness : HarnessState) (effect : Effect) (call : Option (Sigma HarnessCall.Answer))
      (mid last : Driver) (added : List EventPayload) (hundecided : d.undecided = some (harness, effect))
      (happlicable : applicable d.state.harness effect d.spec = true)
      (heffect : ∀ outcome, effect ≠ .complete outcome)
      (hmid : d.settled.Extends mid [.effectAuthorized effect])
      (houtcome : mid.Outcome effect call added) (hlast : mid.Extends last added) (hallows : Allows d.spec effect) :
      Finished d call ([.effectAuthorized effect] ++ added ++ last.advance)

/-- What is recorded before the loop ahead of the call that carries out what a resumed log left. -/
def PicksUp (d : Driver) (added : List EventPayload) : Prop :=
  (d.pending ≠ [] ∧ added = []) ∨
    ∃ harness effect, d.undecided = some (harness, effect) ∧ added = [.effectAuthorized effect]

theorem PicksUp.unfinished {d : Driver} {added : List EventPayload} (h : d.PicksUp added) :
    d.Unfinished ∧ added.any isTerminal = false := by
  rcases h with ⟨hpending, rfl⟩ | ⟨harness, effect, hundecided, rfl⟩
  · exact ⟨.inl hpending, rfl⟩
  · exact ⟨.inr (by simp [hundecided]), rfl⟩

theorem Extends.unresume {d d' : Driver} {added : List EventPayload} (h : d.Extends d' added) :
    { d with resumed := false }.Extends { d' with resumed := false } added := by
  obtain ⟨more, rfl, rfl⟩ := h
  exact ⟨more, rfl, rfl⟩

theorem prologue_safe {State : Type} {Step : State → (c : HarnessCall) → c.Answer → State → Prop}
    {Owes : State → HarnessCall → Prop} {post : State → Driver → Prop} (tools : List ToolDescriptor)
    {d : Driver} (hd : d.Resumable) (s : State)
    (howes : ∀ mid added c, d.PicksUp added → d.settled.Extends mid added → mid.IsWork c → Owes s c)
    (hnone : ∀ added d', d.Finished none added → d.settled.Extends d' added → post s d')
    (hsome : ∀ c answer u added d', Step s c answer u → d.Finished (some ⟨c, answer⟩) added →
      d.settled.Extends d' added → c.log <+: d'.events → post u d') :
    (World State Step Owes).Safe post (prologue tools d) s := by
  cases hundecided : d.undecided with
  | none =>
      simp only [prologue, hundecided]
      split
      · next hresumed =>
          change (World State Step Owes).Safe post (d.settled.afterDecision tools d.pending) s
          rcases hd.pending with hpending | ⟨effect, hpending⟩
          · rw [hpending]
            apply afterDecision_nil_safe
            exact fun d' hext => hnone _ d' (.advanced hresumed hpending hundecided) hext
          · rw [hpending]
            apply afterDecision_one_safe
            · exact fun c hwork => howes d.settled [] c (.inl ⟨by simp [hpending], rfl⟩) (.refl _) hwork
            · exact fun added last d' houtcome hlast hext =>
                hnone _ d' (.performed effect none last added hpending hundecided houtcome hlast) hext
            · exact fun c answer u added last d' hstep houtcome hlast hext hlog =>
                hsome c answer u _ d' hstep
                  (.performed effect _ last added hpending hundecided houtcome hlast) hext hlog
      · next hresumed =>
          have hresumed : d.resumed = false := by simpa using hresumed
          refine World.safe_alone_ret.mpr (hnone [] _ (.untouched hresumed) ⟨[], ?_, rfl⟩)
          simp [settled, hresumed]
  | some decision =>
      obtain ⟨harness, effect⟩ := decision
      obtain ⟨rfl, hresumed⟩ := hd.undecided harness effect hundecided
      let base : Driver := { d with pending := [], undecided := none }
      have hcases : base.Authorized effect (base.authorizeDecided d.state.harness effect tools) :=
        base.authorizeDecided_cases effect tools
      have hprologue : prologue tools d =
          (if (base.authorizeDecided d.state.harness effect tools).1.resumed then
            { (base.authorizeDecided d.state.harness effect tools).1 with resumed := false }.afterDecision tools
              (base.authorizeDecided d.state.harness effect tools).2
          else .ret (base.authorizeDecided d.state.harness effect tools).1) := by
        simp only [prologue, hundecided]
        rfl
      rw [hprologue]
      generalize base.authorizeDecided d.state.harness effect tools = result at hcases ⊢
      have hgo : ∀ d' added, base.Extends d' added → d'.resumed = true := by
        rintro d' added ⟨more, rfl, -⟩
        exact hresumed
      cases hcases with
      | denied d' reason hcomplete hext =>
          rw [if_pos (hgo d' _ hext)]
          apply afterDecision_nil_safe
          exact fun d'' hext' =>
            hnone _ d'' (.denied _ effect reason _ hundecided hext.unresume) (hext.unresume.trans hext')
      | completed d' outcome heffect hrunning hext hallows =>
          subst heffect
          rw [if_pos (hgo d' _ hext)]
          apply afterDecision_nil_safe
          exact fun d'' hext' =>
            hnone _ d'' (.completed _ outcome _ hundecided hrunning hext.unresume hallows) (hext.unresume.trans hext')
      | authorized d' happlicable heffect hext hallows =>
          rw [if_pos (hgo d' _ hext)]
          apply afterDecision_one_safe
          · exact fun c hwork => howes _ _ c (.inr ⟨_, _, hundecided, rfl⟩) hext.unresume hwork
          · intro added last d'' houtcome hlast hext'
            refine hnone _ d'' (.authorized _ effect none _ last added hundecided happlicable heffect hext.unresume
              houtcome hlast hallows) ?_
            rw [List.append_assoc]
            exact hext.unresume.trans hext'
          · intro c answer u added last d'' hstep houtcome hlast hext' hlog
            refine hsome c answer u _ d'' hstep (.authorized _ effect _ _ last added hundecided happlicable heffect
              hext.unresume houtcome hlast hallows) ?_ hlog
            rw [List.append_assoc]
            exact hext.unresume.trans hext'

/-- An invariant that the start of a driver gives holds throughout `runUntil`. -/
theorem runUntil_phases {State : Type} {Step : State → (c : HarnessCall) → c.Answer → State → Prop}
    {Owes : State → HarnessCall → Prop} {tools : List ToolDescriptor} {before after : State → Driver → Prop}
    {post : State → Driver × Finish → Prop} (hrule : PhaseRule Step Owes tools before after post) {d : Driver}
    (hd : d.Resumable) (s : State)
    (howes : ∀ mid added c, d.PicksUp added → d.settled.Extends mid added → mid.IsWork c → Owes s c)
    (hnone : ∀ added d', d.Finished none added → d.settled.Extends d' added → before s d')
    (hsome : ∀ c answer u added d', Step s c answer u → d.Finished (some ⟨c, answer⟩) added →
      d.settled.Extends d' added → c.log <+: d'.events → before u d') :
    (World State Step Owes).Safe post (runUntil tools d) s := by
  have hloop : ∀ u d', before u d' → (World State Step Owes).Safe post (runLoop tools d'.fuel d') u :=
    fun u d' hbefore => runLoop_phases hrule d'.fuel hbefore (.inr (by unfold fuel; omega))
  apply World.Safe.bind
  exact prologue_safe tools hd s howes (fun added d' hfinished hext => hloop s d' (hnone added d' hfinished hext))
    fun c answer u added d' hstep hfinished hext hlog =>
      hloop u d' (hsome c answer u added d' hstep hfinished hext hlog)

theorem runUntil_safe {State : Type} {Step : State → (c : HarnessCall) → c.Answer → State → Prop}
    {Owes : State → HarnessCall → Prop} {tools : List ToolDescriptor} {I : State → Driver → Prop}
    {post : State → Driver × Finish → Prop} (hrule : LoopRule Step Owes tools I post) {d : Driver}
    (hd : d.Resumable) (s : State)
    (howes : d.Unfinished → ∀ mid added c, d.settled.Extends mid added → added.any isTerminal = false →
      mid.IsWork c → Owes s c)
    (hnone : ∀ added d', d.Finished none added → d.settled.Extends d' added → I s d')
    (hsome : ∀ c answer u added d', Step s c answer u → d.Finished (some ⟨c, answer⟩) added →
      d.settled.Extends d' added → c.log <+: d'.events → I u d') :
    (World State Step Owes).Safe post (runUntil tools d) s := by
  refine runUntil_phases hrule.phases hd s (fun mid added c hpicks hext hwork => ?_) hnone hsome
  obtain ⟨hunfinished, hopen⟩ := hpicks.unfinished
  exact howes hunfinished mid added c hext hopen hwork

/-- An invariant of the log: every batch keeps it, and so does a cancel at a boundary. -/
structure LogRule (I : Driver → Prop) : Prop where
  batch : ∀ d call added d', I d → d.Going → d.Batch call added → d.Extends d' added → I d'
  cancelled : ∀ d, I d → d.Going → I d.cancel

theorem LogRule.loopRule {I : Driver → Prop} (h : LogRule I) {State : Type}
    (Step : State → (c : HarnessCall) → c.Answer → State → Prop) (tools : List ToolDescriptor) :
    LoopRule Step (fun _ _ => True) tools (fun _ => I) (fun _ result => I result.1 ∧ result.2 ≠ .outOfFuel) where
  boundary _ _ hI _ := ⟨trivial, fun _ _ _ => hI⟩
  decide _ _ hI _ := ⟨trivial, fun _ _ _ => hI⟩
  work _ _ _ _ _ _ _ _ _ _ := trivial
  batch _ d added d' := h.batch d none added d'
  batchCall _ d _ _ _ added d' hI hgoing _ hbatch hext _ := h.batch d _ added d' hI hgoing hbatch hext
  ended _ _ hI _ := ⟨hI, by simp⟩
  cancelled _ d _ hI hgoing _ := ⟨h.cancelled d hI hgoing, by simp⟩
  paused _ _ _ hI _ _ := ⟨hI, by simp⟩
  waiting _ _ _ _ _ _ hI _ _ _ := ⟨hI, by simp⟩
  failed _ _ _ _ hI _ _ := ⟨hI, by simp⟩

/-- An invariant of the log beside one of the loop: each boundary shows it. -/
theorem LoopRule.with {State : Type} {Step : State → (c : HarnessCall) → c.Answer → State → Prop}
    {Owes : State → HarnessCall → Prop} {tools : List ToolDescriptor} {I : State → Driver → Prop} {J : Driver → Prop}
    {post : State → Driver × Finish → Prop} (h : LoopRule Step Owes tools I post) (hJ : LogRule J) :
    LoopRule Step (fun s c => Owes s c ∧ ∀ d, c = .boundary d → J d) tools (fun s d => I s d ∧ J d)
      (fun s result => post s result ∧ J result.1) where
  boundary s d hd hgoing := by
    obtain ⟨howes, hnext⟩ := h.boundary s d hd.1 hgoing
    refine ⟨⟨howes, ?_⟩, fun answer u hstep => ⟨hnext answer u hstep, hd.2⟩⟩
    rintro driver heq
    cases heq
    exact hd.2
  decide s d hd hgoing := by
    obtain ⟨howes, hnext⟩ := h.decide s d hd.1 hgoing
    exact ⟨⟨howes, by simp⟩, fun answer u hstep => ⟨hnext answer u hstep, hd.2⟩⟩
  work s d mid added c hd hgoing hext hadded hwork := by
    refine ⟨h.work s d mid added c hd.1 hgoing hext hadded hwork, ?_⟩
    rintro driver rfl
    exact hwork.2.elim
  batch s d added d' hd hgoing hbatch hext :=
    ⟨h.batch s d added d' hd.1 hgoing hbatch hext, hJ.batch d none added d' hd.2 hgoing hbatch hext⟩
  batchCall s d c answer u added d' hd hgoing hstep hbatch hext hlog :=
    ⟨h.batchCall s d c answer u added d' hd.1 hgoing hstep hbatch hext hlog,
      hJ.batch d _ added d' hd.2 hgoing hbatch hext⟩
  ended s d hd hended := ⟨h.ended s d hd.1 hended, hd.2⟩
  cancelled s d u hd hgoing hstep := ⟨h.cancelled s d u hd.1 hgoing hstep, hJ.cancelled d hd.2 hgoing⟩
  paused s d u hd hgoing hstep := ⟨h.paused s d u hd.1 hgoing hstep, hd.2⟩
  waiting s d u step attempt messageId hd hgoing hstep hwaiting :=
    ⟨h.waiting s d u step attempt messageId hd.1 hgoing hstep hwaiting, hd.2⟩
  failed s d error u hd hgoing hstep := ⟨h.failed s d error u hd.1 hgoing hstep, hd.2⟩

/-- An invariant of the log holds of whatever `runUntil` returns, and it returns. -/
theorem LogRule.yields {I : Driver → Prop} (h : LogRule I) {d : Driver} (hd : d.Resumable)
    (hfinished : ∀ call added d', d.Finished call added → d.settled.Extends d' added → I d')
    {tools : List ToolDescriptor} {result : Driver × Finish} (hyields : (runUntil tools d).Yields result) :
    I result.1 ∧ result.2 ≠ .outOfFuel := by
  have hsafe := runUntil_safe (h.loopRule (fun (_ : Unit) _ _ _ => True) tools) hd () ?_ ?_ ?_
  · exact hsafe.run (fun _ _ _ _ _ => trivial) trivial hyields
  · exact fun _ _ _ _ _ _ _ => trivial
  · exact fun added d' hfin hext => hfinished none added d' hfin hext
  · exact fun c answer _ added d' _ hfin hext _ => hfinished _ added d' hfin hext

/-- The loop only extends the log. -/
theorem extends_logRule (d : Driver) : LogRule fun d' => ∃ added, d.Extends d' added where
  batch _ _ added' _ hextends _ _ hext := by
    obtain ⟨added, hadded⟩ := hextends
    exact ⟨added ++ added', hadded.trans hext⟩
  cancelled d' hextends _ := by
    obtain ⟨added, hadded⟩ := hextends
    exact ⟨_, hadded.push .runCancelled .system⟩

theorem eval_runLoop_extends (env : (c : HarnessCall) → c.Answer) (tools : List ToolDescriptor) {d : Driver}
    {fuel : Nat} (hfuel : d.Fueled fuel) : ∃ added, d.Extends ((runLoop tools fuel d).eval env).1 added := by
  have hrule := (extends_logRule d).loopRule (fun (_ : Unit) c answer _ => answer = env c) tools
  exact (runLoop_safe hrule fuel ⟨[], .refl d⟩ hfuel).eval.1

/-- `runUntil` only extends the log. -/
theorem runUntil_extends {d : Driver} (hd : d.Resumable) {tools : List ToolDescriptor} {result : Driver × Finish}
    (hyields : (runUntil tools d).Yields result) :
    (result.1.spec = d.spec ∧ d.events <+: result.1.events) ∧ result.2 ≠ .outOfFuel := by
  obtain ⟨⟨added, hext⟩, hfuel⟩ := (extends_logRule d.settled).yields hd
    (fun _ added _ _ hext => ⟨added, hext⟩) hyields
  exact ⟨⟨hext.spec_eq, hext.grows⟩, hfuel⟩

/-! ### Resuming -/

/-- The driver starts with `events` and `added`, and nothing of the log left to finish. -/
structure Starts (d : Driver) (spec : RunSpec) (events : List Event) (added : List EventPayload) (resumed : Bool) :
    Prop where
  spec_eq : d.spec = spec
  events_eq : ∃ more, d.events = events ++ more ∧ payloads more = added
  resumed_eq : d.resumed = resumed

/-- What `resume` makes of a log, and what it leaves for `runUntil` to finish. -/
inductive Resumed (spec : RunSpec) (events : List Event) (d : Driver) : Prop
  | ended (hended : hasEnded events = true) (hstarts : d.Starts spec events [] false) (hpending : d.pending = [])
      (hundecided : d.undecided = none)
  | started (hopen : hasEnded events = false) (hnot : .runStarted ∉ payloads events)
      (hstarts : d.Starts spec events [.runStarted] false) (hpending : d.pending = [])
      (hundecided : d.undecided = none)
  | completed (hopen : hasEnded events = false) (hstarted : .runStarted ∈ payloads events) (outcome : String)
      (hharness : harnessOf spec (payloads events) = .completed outcome)
      (hstarts : d.Starts spec events [.runCompleted outcome] true) (hpending : d.pending = [])
      (hundecided : d.undecided = none)
  | terminal (hopen : hasEnded events = false) (hstarted : .runStarted ∈ payloads events)
      (hharness : (harnessOf spec (payloads events)).isTerminal = true)
      (hnot : ∀ outcome, harnessOf spec (payloads events) ≠ .completed outcome)
      (hstarts : d.Starts spec events [] true) (hpending : d.pending = []) (hundecided : d.undecided = none)
  | undecided (hopen : hasEnded events = false) (hstarted : .runStarted ∈ payloads events)
      (hharness : (harnessOf spec (payloads events)).isTerminal = false) (before : List EventPayload)
      (effect : Effect) (hlast : payloads events = before ++ [.effectDecided effect])
      (hstarts : d.Starts spec events [] true) (hpending : d.pending = [])
      (hundecided : d.undecided = some (harnessOf spec before, effect))
  | pending (hopen : hasEnded events = false) (hstarted : .runStarted ∈ payloads events)
      (hharness : (harnessOf spec (payloads events)).isTerminal = false)
      (hlast : ∀ before effect, payloads events ≠ before ++ [.effectDecided effect])
      (hstarts : d.Starts spec events [] true) (hpending : d.pending = effectsOfLast spec events)
      (hundecided : d.undecided = none)

theorem mem_runStarted_iff (events : List Event) :
    (events.any fun event => event.payload = .runStarted) = true ↔ .runStarted ∈ payloads events := by
  simp [payloads]

theorem resume_started {spec : RunSpec} {events : List Event} {stamp : Nat → Stamp} {d : Driver}
    (hopen : hasEnded events = false) (hstarted : .runStarted ∈ payloads events)
    (h : resume spec events stamp = .ok d) : Resumed spec events d := by
  have hany := (mem_runStarted_iff events).mpr hstarted
  simp only [resume, hopen, Bool.false_eq_true, ↓reduceIte, hany, Bool.not_true] at h
  split at h
  · next outcome hharness =>
      cases h
      exact .completed hopen hstarted outcome hharness ⟨rfl, ⟨_, rfl, rfl⟩, rfl⟩ rfl rfl
  · next hnot =>
    split at h
    · next hterminal =>
        cases h
        exact .terminal hopen hstarted hterminal (fun outcome heq => hnot outcome heq)
          ⟨rfl, ⟨[], (List.append_nil _).symm, rfl⟩, rfl⟩ rfl rfl
    · next hterminal =>
        have hharness : (harnessOf spec (payloads events)).isTerminal = false := Bool.eq_false_iff.mpr hterminal
        split at h
        · next envelope effect hlast =>
            cases h
            obtain ⟨before, rfl⟩ := List.getLast?_eq_some_iff.mp hlast
            refine .undecided hopen hstarted hharness (payloads before) effect (by simp [payloads])
              ⟨rfl, ⟨[], (List.append_nil _).symm, rfl⟩, rfl⟩ rfl ?_
            simp [fold_harness]
        · next hnot =>
            cases h
            refine .pending hopen hstarted hharness (fun before effect hlast => ?_)
              ⟨rfl, ⟨[], (List.append_nil _).symm, rfl⟩, rfl⟩ rfl rfl
            have hpayload : (events.getLast?).map Event.payload = some (.effectDecided effect) := by
              rw [← List.getLast?_map]
              change (payloads events).getLast? = _
              rw [hlast, List.getLast?_concat]
            obtain ⟨event, hevent, heffect⟩ := Option.map_eq_some_iff.mp hpayload
            obtain ⟨envelope, payload⟩ := event
            cases heffect
            exact hnot envelope effect hevent

theorem resume_cases {spec : RunSpec} {events : List Event} {stamp : Nat → Stamp} {d : Driver}
    (h : resume spec events stamp = .ok d) : Resumed spec events d := by
  cases hopen : hasEnded events with
  | true =>
      simp only [resume, hopen, ↓reduceIte, Except.ok.injEq] at h
      subst h
      exact .ended hopen ⟨rfl, ⟨[], (List.append_nil _).symm, rfl⟩, rfl⟩ rfl rfl
  | false =>
      by_cases hstarted : .runStarted ∈ payloads events
      · exact resume_started hopen hstarted h
      · have hany : (events.any fun event => event.payload = .runStarted) = false := by
          rw [Bool.eq_false_iff]
          exact fun hany => hstarted ((mem_runStarted_iff events).mp hany)
        simp only [resume, hopen, Bool.false_eq_true, ↓reduceIte, hany, Bool.not_false] at h
        split at h
        · cases h
          exact .started hopen hstarted ⟨rfl, ⟨_, rfl, rfl⟩, rfl⟩ rfl rfl
        · cases h
          exact .started hopen hstarted ⟨rfl, ⟨_, rfl, rfl⟩, rfl⟩ rfl rfl
        · cases h

theorem effectsOfLast_cases (spec : RunSpec) (events : List Event) :
    effectsOfLast spec events = [] ∨
    ∃ before effect, payloads events = before ++ [.effectAuthorized effect] ∧
      effectsOfLast spec events = [effect] ∧ applicable (harnessOf spec before) effect spec = true ∧
      ∀ outcome, effect ≠ .complete outcome := by
  unfold effectsOfLast
  split
  · exact .inl rfl
  · next last hlast =>
      obtain ⟨before, rfl⟩ := List.getLast?_eq_some_iff.mp hlast
      rw [List.dropLast_concat, fold_harness]
      rcases reduce_effects (harnessOf spec (payloads before)) last.payload spec with
        hnil | ⟨effect, hpayload, happlicable, heffects, hnot⟩
      · exact .inl hnil
      · exact .inr ⟨payloads before, effect, by simp [payloads, hpayload], heffects, happlicable, hnot⟩

theorem Starts.log_eq {d : Driver} {spec : RunSpec} {events : List Event} {added : List EventPayload}
    {resumed : Bool} (h : d.Starts spec events added resumed) : d.log = payloads events ++ added := by
  obtain ⟨more, hevents, rfl⟩ := h.events_eq
  simp [log, hevents]

theorem Resumed.starts {spec : RunSpec} {events : List Event} {d : Driver} (h : Resumed spec events d) :
    ∃ added resumed, d.Starts spec events added resumed := by
  cases h <;> exact ⟨_, _, ‹d.Starts spec events _ _›⟩

theorem Resumed.spec_eq {spec : RunSpec} {events : List Event} {d : Driver} (h : Resumed spec events d) :
    d.spec = spec := by
  obtain ⟨_, _, hstarts⟩ := h.starts
  exact hstarts.spec_eq

theorem Resumed.grows {spec : RunSpec} {events : List Event} {d : Driver} (h : Resumed spec events d) :
    events <+: d.events := by
  obtain ⟨_, _, hstarts⟩ := h.starts
  obtain ⟨more, hevents, -⟩ := hstarts.events_eq
  exact ⟨more, hevents.symm⟩

/-- Only a log that goes on is left to finish, and `resume` adds nothing to it. -/
theorem Resumed.open_of_unfinished {spec : RunSpec} {events : List Event} {d : Driver}
    (h : Resumed spec events d) (hunfinished : d.Unfinished) :
    hasEnded events = false ∧ d.Starts spec events [] true := by
  have hidle : d.pending = [] → d.undecided = none → False := fun hpending hundecided =>
    hunfinished.elim (absurd hpending) (absurd hundecided)
  cases h with
  | ended _ _ hpending hundecided | started _ _ _ hpending hundecided
  | completed _ _ _ _ _ hpending hundecided | terminal _ _ _ _ _ hpending hundecided =>
      exact (hidle hpending hundecided).elim
  | undecided hopen _ _ _ _ _ hstarts | pending hopen _ _ _ hstarts => exact ⟨hopen, hstarts⟩

theorem Resumed.resumable {spec : RunSpec} {events : List Event} {d : Driver} (h : Resumed spec events d) :
    d.Resumable where
  pending := by
    cases h with
    | pending _ _ _ _ _ hpending _ =>
        rw [hpending]
        rcases effectsOfLast_cases spec events with hnil | ⟨_, effect, _, heffects, _⟩
        · exact .inl hnil
        · exact .inr ⟨effect, heffects⟩
    | _ => exact .inl ‹d.pending = []›
  undecided harness effect hsome := by
    cases h with
    | undecided _ _ _ before decided hlast hstarts _ hundecided =>
        rw [hundecided, Option.some.injEq, Prod.mk.injEq] at hsome
        refine ⟨?_, hstarts.resumed_eq⟩
        rw [harness_eq, hstarts.spec_eq, hstarts.log_eq, List.append_nil, hlast, harnessOf_snoc, reduce_decided,
          hsome.1]
    | _ =>
        rw [‹d.undecided = none›] at hsome
        contradiction

/-- What a caller sets on a booted or resumed driver. -/
structure Setup where
  skills : List Skill
  spawner : Bool
  deliverer : Bool
  userQuestions : Bool
  targets : List DelegateTarget

def setUp (d : Driver) (setup : Setup) : Driver :=
  { d with
    skills := setup.skills
    spawner := setup.spawner
    deliverer := setup.deliverer
    userQuestions := setup.userQuestions
    targets := setup.targets }

theorem Resumed.setUp {spec : RunSpec} {events : List Event} {d : Driver} (h : Resumed spec events d)
    (setup : Setup) : Resumed spec events (d.setUp setup) := by
  have hstarts : ∀ {added resumed}, d.Starts spec events added resumed →
      (d.setUp setup).Starts spec events added resumed := fun h => ⟨h.spec_eq, h.events_eq, h.resumed_eq⟩
  cases h with
  | ended hended hs hp hu => exact .ended hended (hstarts hs) hp hu
  | started hopen hnot hs hp hu => exact .started hopen hnot (hstarts hs) hp hu
  | completed hopen hst outcome hh hs hp hu => exact .completed hopen hst outcome hh (hstarts hs) hp hu
  | terminal hopen hst hh hn hs hp hu => exact .terminal hopen hst hh hn (hstarts hs) hp hu
  | undecided hopen hst hh before effect hl hs hp hu =>
      exact .undecided hopen hst hh before effect hl (hstarts hs) hp hu
  | pending hopen hst hh hl hs hp hu => exact .pending hopen hst hh hl (hstarts hs) hp hu

/-- A booted driver is a resumed one of the empty log. -/
theorem resume_nil (spec : RunSpec) (stamp : Nat → Stamp) : resume spec [] stamp = .ok (boot spec stamp) := rfl

end Driver
end Gol
