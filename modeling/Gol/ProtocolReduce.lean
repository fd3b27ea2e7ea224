import Mathlib.Data.List.Induction
import Gol.ProtocolTypes

/-! The reducers of a run's log and its fold (`crates/protocol/src/reduce.rs`, `fold.rs`). `reduce`
moves the harness and names the effects to perform, `reduceDispatch` moves the dispatch phase, and
`fold` runs both over a log while it counts what the run spent and what it gave its children. -/

namespace Gol

def reduceDispatch (state : DispatchPhase) (payload : EventPayload) : DispatchPhase :=
  if state.isTerminal then state else
  match state, payload with
  | .created, .runQueued => .queued
  | .queued, .runScheduled => .scheduled
  | .scheduled, .runProvisioning => .provisioning
  | .provisioning, .runStarting => .starting
  | .starting, .runStarted => .running
  | .created, .runStarted => .running
  | .running, .runWaiting reason => .waiting reason
  | .running, .runAwaitingApproval approvalId => .awaitingApproval approvalId
  | .running, .runPaused => .paused
  | .running, .runRecovering => .recovering
  | .waiting _, .runResumed => .running
  | .awaitingApproval _, .runResumed => .running
  | .paused, .runResumed => .running
  | .recovering, .runResumed => .running
  | .running, .runCompleted outcome => .completed outcome
  | .waiting _, .runCompleted outcome => .completed outcome
  | .awaitingApproval _, .runCompleted outcome => .completed outcome
  | .paused, .runCompleted outcome => .completed outcome
  | .recovering, .runCompleted outcome => .completed outcome
  | _, .runFailed cls message => .failed cls message
  | _, .runCancelled => .cancelled
  | _, .runExpired => .expired
  | state, _ => state

/-- Whether the harness acts on `effect` when it is authorized in `state`. -/
def applicable (state : HarnessState) (effect : Effect) (spec : RunSpec) : Bool :=
  match state with
  | .running step _ answered =>
      match effect with
      | .toolCall _ _ _ => !answered && (1 ≤ step && step ≤ spec.limits.maxSteps)
      | .complete _ | .modelCall _ | .memoryRead _ _ | .memoryWrite _ _ _ | .delegate _ _ => true
      -- A tell passes through any running step; an ask needs a step the reply can answer.
      | .sendMessage _ _ expectsReply _ _ => !(expectsReply && answered)
      | .askUser _ => !answered
      | .execute _ | .requestApproval _ _ | .wait _ | .publishArtifact _ _ _ => false
  | _ => false

/-- The reply to, or the timeout of, the ask `messageId` answers the step that waits on it. -/
def answerAsk (state : HarnessState) (messageId : MessageId) : HarnessState × List Effect :=
  match state with
  | .waitingForMessage step attempt waiting =>
      if waiting = messageId then (.running step attempt true, []) else (state, [])
  | other => (other, [])

def onAuthorized (state : HarnessState) (effect : Effect) (spec : RunSpec) :
    HarnessState × List Effect :=
  if !applicable state effect spec then (state, []) else
  match state with
  | .running step attempt _ =>
      match effect with
      | .toolCall name _ invocation => (.waitingForTool step attempt name invocation, [effect])
      | .complete outcome => (.completed outcome, [])
      | _ => (state, [effect])
  | _ => (state, [])

/-- A question or an ask put from an unanswered running step makes that step wait for its answer. -/
def onAsked (state : HarnessState) (messageId : MessageId) : HarnessState × List Effect :=
  match state with
  | .running step attempt false => (.waitingForMessage step attempt messageId, [])
  | other => (other, [])

/-- A running or waiting harness ends in `ended`; any other stays. -/
def onEnd (state ended : HarnessState) : HarnessState × List Effect :=
  match state with
  | .running _ _ _ | .waitingForTool _ _ _ _ | .waitingForMessage _ _ _ => (ended, [])
  | other => (other, [])

def reduce (state : HarnessState) (payload : EventPayload) (spec : RunSpec) : HarnessState × List Effect :=
  if state.isTerminal then (state, []) else
  match payload with
  | .runStarted =>
      match state with
      | .idle => (.running 1 0 false, [])
      | other => (other, [])
  | .effectAuthorized effect => onAuthorized state effect spec
  | .toolResult name invocation step attempt _ =>
      match state with
      | .waitingForTool waitingStep waitingAttempt waitingName waitingInvocation =>
          if step = waitingStep ∧ attempt = waitingAttempt ∧ name = waitingName
              ∧ invocation = waitingInvocation then
            (.running waitingStep waitingAttempt true, [])
          else (state, [])
      | other => (other, [])
  | .messageSent messageId _ true => onAsked state messageId
  | .userAsked messageId _ => onAsked state messageId
  | .messageReceived _ _ _ _ (some replyTo) => answerAsk state replyTo
  | .askTimedOut messageId => answerAsk state messageId
  | .userAnswered messageId _ => answerAsk state messageId
  | .stepRetried =>
      match state with
      | .running step attempt true =>
          if attempt < maxRetries then (.running step (attempt + 1) false, []) else (state, [])
      | other => (other, [])
  | .stepAdvanced =>
      match state with
      | .running step _ true =>
          if step < spec.limits.maxSteps then (.running (step + 1) 0 false, []) else (state, [])
      | other => (other, [])
  | .runCompleted outcome =>
      match state with
      | .running _ _ _ => (.completed outcome, [])
      | other => (other, [])
  | .runFailed cls message => onEnd state (.failed cls message)
  | .runCancelled => onEnd state .cancelled
  | .runExpired => onEnd state (.failed .timeout "run expired")
  | _ => (state, [])

/-! ### The fold -/

structure RunState where
  runId : RunId
  harness : HarnessState
  dispatch : DispatchPhase
  steps : UInt32
  modelCalls : UInt32
  children : UInt32
  givenSteps : UInt32
  givenModelCalls : UInt32
  deriving DecidableEq

/-- The variables of `fold`'s loop: the state it returns, and the children it has counted. -/
structure FoldState where
  harness : HarnessState
  dispatch : DispatchPhase
  steps : UInt32
  modelCalls : UInt32
  children : UInt32
  givenSteps : UInt32
  givenModelCalls : UInt32
  started : List RunId
  deriving DecidableEq

def FoldState.init : FoldState := ⟨.idle, .created, 0, 0, 0, 0, 0, []⟩

/-- What one event adds to the counters, in the harness state before it. -/
def FoldState.count (s : FoldState) (payload : EventPayload) : FoldState :=
  match payload with
  | .effectDecided (.complete _) =>
      -- A Complete that finishes the run is not a step of the budget.
      if s.harness.isRunning then s else { s with steps := s.steps + 1 }
  | .effectDecided _ => { s with steps := s.steps + 1 }
  | .effectAuthorized (.modelCall _) => { s with modelCalls := s.modelCalls + 1 }
  | .childStarted runId _ limits =>
      if runId ∈ s.started then s else
      { s with
        children := s.children + 1
        givenSteps := saturatingAdd s.givenSteps limits.maxSteps
        givenModelCalls := saturatingAdd s.givenModelCalls limits.maxModelCalls
        started := runId :: s.started }
  | _ => s

def foldStep (spec : RunSpec) (s : FoldState) (payload : EventPayload) : FoldState :=
  { s.count payload with
    dispatch := reduceDispatch s.dispatch payload
    harness := (reduce s.harness payload spec).1 }

def foldAll (spec : RunSpec) (payloads : List EventPayload) : FoldState :=
  payloads.foldl (foldStep spec) .init

/-- The payloads of a log: all that the reducers read of it. -/
def payloads (events : List Event) : List EventPayload := events.map Event.payload

def FoldState.toRunState (s : FoldState) (runId : RunId) : RunState where
  runId := runId
  harness := s.harness
  dispatch := s.dispatch
  steps := s.steps
  modelCalls := s.modelCalls
  children := s.children
  givenSteps := s.givenSteps
  givenModelCalls := s.givenModelCalls

def fold (spec : RunSpec) (events : List Event) : RunState :=
  (foldAll spec (payloads events)).toRunState spec.runId

@[simp] theorem payloads_append (log more : List Event) : payloads (log ++ more) = payloads log ++ payloads more :=
  List.map_append

@[simp] theorem payloads_nil : payloads [] = [] := rfl

@[simp] theorem foldAll_nil (spec : RunSpec) : foldAll spec [] = .init := rfl

@[simp] theorem foldAll_snoc (spec : RunSpec) (log : List EventPayload) (payload : EventPayload) :
    foldAll spec (log ++ [payload]) = foldStep spec (foldAll spec log) payload := by
  simp [foldAll]

/-- The harness after the payloads of a log. -/
abbrev harnessOf (spec : RunSpec) (log : List EventPayload) : HarnessState := (foldAll spec log).harness

theorem fold_harness (spec : RunSpec) (events : List Event) :
    (fold spec events).harness = harnessOf spec (payloads events) := rfl

theorem harnessOf_snoc (spec : RunSpec) (log : List EventPayload) (payload : EventPayload) :
    harnessOf spec (log ++ [payload]) = (reduce (harnessOf spec log) payload spec).1 := by
  simp [harnessOf, foldStep]

/-! ### What the harness reducer can do -/

@[simp] theorem answerAsk_effects (state : HarnessState) (messageId : MessageId) :
    (answerAsk state messageId).2 = [] := by
  unfold answerAsk
  split
  · split <;> rfl
  · rfl

@[simp] theorem onAsked_effects (state : HarnessState) (messageId : MessageId) :
    (onAsked state messageId).2 = [] := by
  unfold onAsked
  split <;> rfl

@[simp] theorem onEnd_effects (state ended : HarnessState) : (onEnd state ended).2 = [] := by
  unfold onEnd
  split <;> rfl

/-- Only an authorized effect that applies asks to be performed, and it alone; a Complete asks nothing. -/
theorem reduce_effects (state : HarnessState) (payload : EventPayload) (spec : RunSpec) :
    (reduce state payload spec).2 = [] ∨
    ∃ effect, payload = .effectAuthorized effect ∧ applicable state effect spec = true ∧
      (reduce state payload spec).2 = [effect] ∧ ∀ outcome, effect ≠ .complete outcome := by
  by_cases hterminal : state.isTerminal = true
  · exact .inl (by simp [reduce, hterminal])
  cases payload with
  | effectAuthorized effect =>
      cases happ : applicable state effect spec with
      | false => exact .inl (by simp [reduce, hterminal, onAuthorized, happ])
      | true =>
          cases state with
          | running step attempt answered => cases effect <;> simp [reduce, hterminal, onAuthorized, happ]
          | _ => simp [applicable] at happ
  | messageSent messageId toAgent expectsReply => cases expectsReply <;> simp [reduce, hterminal]
  | messageReceived messageId fromAgent fromRun body replyTo => cases replyTo <;> simp [reduce, hterminal]
  | _ =>
      left
      simp only [reduce, hterminal, Bool.false_eq_true, ↓reduceIte, answerAsk_effects, onAsked_effects,
        onEnd_effects] <;>
        (repeat' split) <;> rfl

/-- No harness runs right after a terminal event. -/
theorem reduce_terminal_not_running (state : HarnessState) {payload : EventPayload}
    (h : isTerminal payload = true) (spec : RunSpec) : (reduce state payload spec).1.isRunning = false := by
  cases payload <;> simp only [isTerminal, Bool.false_eq_true] at h <;> cases state <;> rfl

@[simp] theorem answerAsk_isTerminal (state : HarnessState) (messageId : MessageId) :
    (answerAsk state messageId).1.isTerminal = state.isTerminal := by
  unfold answerAsk
  split
  · split <;> rfl
  · rfl

@[simp] theorem onAsked_isTerminal (state : HarnessState) (messageId : MessageId) :
    (onAsked state messageId).1.isTerminal = state.isTerminal := by
  unfold onAsked
  split <;> rfl

theorem onAuthorized_isTerminal (state : HarnessState) {effect : Effect} (spec : RunSpec)
    (h : ∀ outcome, effect ≠ .complete outcome) :
    (onAuthorized state effect spec).1.isTerminal = state.isTerminal := by
  unfold onAuthorized
  split
  · rfl
  · split
    · split
      · rfl
      · exact absurd rfl (h _)
      · rfl
    · rfl

/-- A harness ends only on a terminal event or on an authorized Complete. -/
theorem reduce_isTerminal {state : HarnessState} {payload : EventPayload} {spec : RunSpec}
    (h : (reduce state payload spec).1.isTerminal = true) :
    state.isTerminal = true ∨ isTerminal payload = true ∨
      ∃ outcome, payload = .effectAuthorized (.complete outcome) := by
  by_cases hterminal : state.isTerminal = true
  · exact .inl hterminal
  have hopen : state.isTerminal = false := by simpa using hterminal
  cases payload with
  | runCompleted _ | runFailed _ _ | runCancelled | runExpired => exact .inr (.inl rfl)
  | effectAuthorized effect =>
      by_cases hcomplete : ∃ outcome, effect = .complete outcome
      · obtain ⟨outcome, rfl⟩ := hcomplete
        exact .inr (.inr ⟨outcome, rfl⟩)
      · have hsame := onAuthorized_isTerminal state spec fun outcome heq => hcomplete ⟨outcome, heq⟩
        simp only [reduce, hopen, Bool.false_eq_true, ↓reduceIte, hsame] at h
  | messageSent messageId toAgent expectsReply => cases expectsReply <;> simp [reduce, hopen] at h
  | messageReceived messageId fromAgent fromRun body replyTo => cases replyTo <;> simp [reduce, hopen] at h
  | runStarted | toolResult _ _ _ _ _ | stepRetried | stepAdvanced =>
      simp only [reduce, hopen, Bool.false_eq_true, ↓reduceIte] at h
      revert h
      (repeat' split) <;> intro h <;> exact absurd h hterminal
  | _ => simp [reduce, hopen] at h

/-- A harness whose log does not start it stays idle. -/
theorem harnessOf_of_not_started {spec : RunSpec} {log : List EventPayload} (h : .runStarted ∉ log) :
    harnessOf spec log = .idle := by
  induction log using List.reverseRecOn with
  | nil => rfl
  | append_singleton log payload ih =>
      rw [harnessOf_snoc, ih fun hmem => h (by simp [hmem])]
      have hpayload : payload ≠ .runStarted := fun heq => h (by simp [heq])
      cases payload with
      | runStarted => exact absurd rfl hpayload
      | messageSent messageId toAgent expectsReply => cases expectsReply <;> rfl
      | messageReceived messageId fromAgent fromRun body replyTo => cases replyTo <;> rfl
      | _ => rfl

/-- A harness fails or is cancelled only on a terminal event. -/
theorem reduce_failed {state : HarnessState} {payload : EventPayload} {spec : RunSpec}
    (h : (reduce state payload spec).1.isTerminal = true)
    (hnot : ∀ outcome, (reduce state payload spec).1 ≠ .completed outcome) :
    (state.isTerminal = true ∧ ∀ outcome, state ≠ .completed outcome) ∨ isTerminal payload = true := by
  by_cases hterminal : state.isTerminal = true
  · have hsame : (reduce state payload spec).1 = state := by simp [reduce, hterminal]
    rw [hsame] at hnot
    exact .inl ⟨hterminal, hnot⟩
  · rcases reduce_isTerminal h with hstate | hpayload | ⟨outcome, rfl⟩
    · exact absurd hstate hterminal
    · exact .inr hpayload
    · exfalso
      cases state with
      | running step attempt answered => exact hnot outcome rfl
      | _ => simp_all [reduce, onAuthorized, applicable, HarnessState.isTerminal]

theorem ended_of_failed {spec : RunSpec} {log : List EventPayload}
    (h : (harnessOf spec log).isTerminal = true) (hnot : ∀ outcome, harnessOf spec log ≠ .completed outcome) :
    log.any isTerminal = true := by
  induction log using List.reverseRecOn with
  | nil => simp [harnessOf, FoldState.init, HarnessState.isTerminal] at h
  | append_singleton log payload ih =>
      rw [harnessOf_snoc] at h hnot
      rcases reduce_failed h hnot with ⟨hstate, hstate'⟩ | hpayload
      · simp [ih hstate hstate']
      · simp [hpayload]

/-! ### Counting decisions -/

/-- The payloads that `fold` counts as decisions. -/
def isDecided : EventPayload → Bool
  | .effectDecided _ => true
  | _ => false

/-- The payloads that may start a child. -/
def isChildStarted : EventPayload → Bool
  | .childStarted _ _ _ => true
  | _ => false

theorem foldAll_append (spec : RunSpec) (log more : List EventPayload) :
    foldAll spec (log ++ more) = more.foldl (foldStep spec) (foldAll spec log) := by
  simp [foldAll]

theorem foldStep_steps (spec : RunSpec) (s : FoldState) {payload : EventPayload} (h : isDecided payload = false) :
    (foldStep spec s payload).steps = s.steps := by
  cases payload with
  | effectDecided effect => simp [isDecided] at h
  | effectAuthorized effect => cases effect <;> rfl
  | childStarted runId agentId limits =>
      simp only [foldStep, FoldState.count]
      split <;> rfl
  | _ => rfl

/-- A decision costs a step, unless it completes a running harness. -/
theorem foldStep_steps_decided (spec : RunSpec) (s : FoldState) {effect : Effect}
    (h : ∀ outcome, effect = .complete outcome → s.harness.isRunning = false) :
    (foldStep spec s (.effectDecided effect)).steps = s.steps + 1 := by
  cases effect with
  | complete outcome => simp [foldStep, FoldState.count, h outcome rfl]
  | _ => rfl

theorem foldl_steps (spec : RunSpec) (s : FoldState) {more : List EventPayload}
    (h : ∀ payload ∈ more, isDecided payload = false) : (more.foldl (foldStep spec) s).steps = s.steps := by
  induction more generalizing s with
  | nil => rfl
  | cons payload more ih =>
      rw [List.foldl_cons, ih _ fun later hlater => h later (by simp [hlater]),
        foldStep_steps spec s (h payload (by simp))]

end Gol
