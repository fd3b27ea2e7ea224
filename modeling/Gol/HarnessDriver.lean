import Gol.LibraryProgram
import Gol.ProtocolAuthorize

/-! The harness driver (`crates/harness/src/driver.rs`): `boot` and `resume` build a driver from a spec or a
stored log, and `runUntil` drives it step by step until the run ends, pauses or waits. What the driver calls
(the decider, tools, models, memory, the spawner, the deliverer and the caller's boundary) is a call of its
program. A call carries the log it is made at, so an environment may answer by it. What each recorded event
draws from outside is the driver's `stamp` at the event's position. -/

namespace Gol
open Library

structure Skill where
  name : String
  body : String
  deriving DecidableEq

structure DelegateTarget where
  agentId : AgentId
  name : String
  description : String
  deriving DecidableEq

structure Driver where
  spec : RunSpec
  events : List Event
  skills : List Skill
  /-- A spawner is set: without one delegations are refused. -/
  spawner : Bool
  /-- A deliverer is set: without one messages are refused. -/
  deliverer : Bool
  userQuestions : Bool
  targets : List DelegateTarget
  pending : List Effect
  undecided : Option (HarnessState × Effect)
  resumed : Bool
  stamp : Nat → Stamp

/-! ### What the driver calls -/

structure DecisionView where
  spec : RunSpec
  state : RunState
  events : List Event
  tools : List ToolDescriptor
  skills : List Skill
  agents : List DelegateTarget
  messaging : Bool
  asking : Bool
  stepsExhausted : Bool
  modelCallsExhausted : Bool
  deriving DecidableEq

structure DeciderError where
  message : String
  deriving DecidableEq

structure ModelRequest where
  provider : ModelProvider
  modelName : String
  prompt : String
  deriving DecidableEq

structure MemoryKey where
  scope : MemoryScope
  ownerId : String
  deriving DecidableEq

structure ChildRequest where
  parent : RunSpec
  step : UInt32
  agentId : AgentId
  input : String
  limits : Limits
  deriving DecidableEq

structure StartedChild where
  runId : RunId
  limits : Limits
  deriving DecidableEq

structure MessageRequest where
  «from» : RunSpec
  decision : UInt32
  toAgent : AgentId
  body : String
  expectsReply : Bool
  replyTo : Option MessageId
  timeoutSecs : Option UInt32
  limits : Option Limits
  deriving DecidableEq

structure SentMessage where
  messageId : MessageId
  task : Option StartedChild
  deriving DecidableEq

/-- What the caller of `runUntil` asks at a step boundary. -/
inductive Boundary where
  | continue
  | cancel
  | pause
  deriving DecidableEq

inductive HarnessCall where
  | decide (view : DecisionView)
  | tool (log : List Event) (name : String) (input : String)
  | model (log : List Event) (request : ModelRequest)
  | memoryRead (log : List Event) (owner : MemoryKey) (key : String)
  | memoryWrite (log : List Event) (owner : MemoryKey) (key : String) (value : String)
  | spawn (log : List Event) (request : ChildRequest)
  | send (log : List Event) (request : MessageRequest)
  | boundary (driver : Driver)

/-- The log a call is made at. -/
def HarnessCall.log : HarnessCall → List Event
  | .decide view => view.events
  | .tool log _ _ | .model log _ | .memoryRead log _ _ | .memoryWrite log _ _ _ | .spawn log _ | .send log _ => log
  | .boundary driver => driver.events

/-- The store's detail of a memory error goes to stderr only. -/
def HarnessCall.Answer : HarnessCall → Type
  | .decide _ => Except DeciderError Effect
  | .tool _ _ _ => Except String String
  | .model _ _ => Except String (ModelMessage × Option Usage)
  | .memoryRead _ _ _ => Except Unit (Option String)
  | .memoryWrite _ _ _ _ => Except Unit Unit
  | .spawn _ _ => Except String StartedChild
  | .send _ _ => Except String SentMessage
  | .boundary _ => Boundary

abbrev HarnessSig : Sig := ⟨HarnessCall, HarnessCall.Answer⟩

namespace Driver

/-! ### The log -/

def state (d : Driver) : RunState := fold d.spec d.events

def push (d : Driver) (payload : EventPayload) (actor : Actor) : Driver :=
  { d with events := d.events ++ [Event.record d.spec actor (d.stamp d.events.length) payload] }

/-- Whether the log holds a terminal event. -/
def logEnded (d : Driver) : Bool := hasEnded d.events

def cancel (d : Driver) : Driver := d.push .runCancelled .system

/-- The harness state in words. -/
def describe : HarnessState → String
  | .idle => "idle"
  | .running _ _ true => "running, answered"
  | .running _ _ _ => "running"
  | .waitingForTool _ _ _ _ => "waiting for a tool"
  | .waitingForMessage _ _ _ => "waiting for a reply"
  | .completed _ | .failed _ _ | .cancelled => "finished"

/-- What the last event asks to be performed, in the state before it. -/
def effectsOfLast (spec : RunSpec) (events : List Event) : List Effect :=
  match events.getLast? with
  | none => []
  | some last => (reduce (fold spec events.dropLast).harness last.payload spec).2

/-! ### Boot and resume -/

/-- A driver with nothing set beyond its spec and log. -/
def bare (spec : RunSpec) (events : List Event) (stamp : Nat → Stamp) : Driver where
  spec := spec
  events := events
  skills := []
  spawner := false
  deliverer := false
  userQuestions := false
  targets := []
  pending := []
  undecided := none
  resumed := false
  stamp := stamp

/-- Every placement is supported, so booting does not fail. -/
def boot (spec : RunSpec) (stamp : Nat → Stamp) : Driver := (bare spec [] stamp).push .runStarted .system

/-- `ResumeError::NotStartable`: the dispatch is not one that `RunStarted` starts. -/
structure NotStartable where
  dispatch : DispatchPhase
  deriving DecidableEq

def resume (spec : RunSpec) (events : List Event) (stamp : Nat → Stamp) : Except NotStartable Driver :=
  let started := events.any fun event => event.payload = .runStarted
  let driver := bare spec events stamp
  if hasEnded events then .ok driver else
  let state := driver.state
  if !started then
    match state.dispatch with
    | .created | .starting => .ok (driver.push .runStarted .system)
    | other => .error ⟨other⟩
  else
    let driver := { driver with resumed := true }
    match state.harness with
    | .completed outcome => .ok (driver.push (.runCompleted outcome) .system)
    | harness =>
        if harness.isTerminal then .ok driver else
        match events.getLast? with
        | some ⟨_, .effectDecided effect⟩ =>
            let prior := (fold spec events.dropLast).harness
            .ok { driver with undecided := some (prior, effect) }
        | _ => .ok { driver with pending := effectsOfLast spec events }

def withSpawner (d : Driver) (targets : List DelegateTarget) : Driver :=
  { d with spawner := true, targets := targets }

def withDeliverer (d : Driver) : Driver := { d with deliverer := true }

def withUserQuestions (d : Driver) : Driver := { d with userQuestions := true }

/-! ### Deciding -/

/-- Authorizes the effect the log just recorded as decided, from the harness state before that decision. -/
def authorizeDecided (d : Driver) (harness : HarnessState) (effect : Effect) (tools : List ToolDescriptor) :
    Driver × List Effect :=
  match authorize d.spec effect tools with
  | .allow =>
      if !applicable harness effect d.spec then
        (d.push (.effectDenied effect ("not applicable while " ++ describe harness)) .system, [])
      else
        let d := d.push (.effectAuthorized effect) .policy
        let d :=
          match effect with
          | .complete outcome =>
              match d.state.harness with
              | .completed _ => d.push (.runCompleted outcome) .system
              | _ => d
          | _ => d
        (d, effectsOfLast d.spec d.events)
  | .deny reason => (d.push (.effectDenied effect reason) .policy, [])
  | _ => (d.push (.effectDenied effect "effect is not implemented in this slice") .policy, [])

def stepsSpent (d : Driver) : Bool :=
  d.spec.limits.maxSteps ≤ saturatingAdd d.state.steps d.state.givenSteps

def modelCallsSpent (d : Driver) : Bool :=
  d.spec.limits.maxModelCalls ≤ saturatingAdd d.state.modelCalls d.state.givenModelCalls

/-- Whether deciding `effect` now is over the budget. A Complete that finishes the run costs nothing. -/
def overBudget (d : Driver) (effect : Effect) : Bool :=
  match effect with
  | .complete _ => if d.state.harness.isRunning then false else d.stepsSpent
  | .modelCall _ => d.stepsSpent || d.modelCallsSpent
  | _ => d.stepsSpent

/-- What `decide_with_skills` does with the decider's effect. -/
def onDecision (d : Driver) (tools : List ToolDescriptor) (effect : Effect) : Driver × List Effect :=
  if d.overBudget effect then (d.push (.runFailed .budget "limit hit") .system, []) else
  (d.push (.effectDecided effect) .agent).authorizeDecided d.state.harness effect tools

def decisionView (d : Driver) (tools : List ToolDescriptor) : DecisionView where
  spec := d.spec
  state := d.state
  events := d.events
  tools := tools
  skills := d.skills
  agents := d.targets
  messaging := d.deliverer
  asking := d.userQuestions
  stepsExhausted := d.stepsSpent
  modelCallsExhausted := d.modelCallsSpent

def decide (d : Driver) (tools : List ToolDescriptor) :
    Prog HarnessSig (Driver × Except DeciderError (List Effect)) :=
  if d.state.harness.isTerminal then .ret (d, .ok []) else
  .call (.decide (d.decisionView tools)) fun
    | .error error => .ret (d, .error error)
    | .ok effect =>
        let (d, effects) := d.onDecision tools effect
        .ret (d, .ok effects)

/-! ### Performing -/

/-- Whose memory `scope` is for this run at its current harness step. -/
def memoryKey (d : Driver) (scope : MemoryScope) : Option MemoryKey :=
  let step := match d.state.harness with
    | .running step _ _ => step
    | .waitingForTool step _ _ _ => step
    | _ => 0
  (memoryOwnerId d.spec scope step).map fun ownerId => ⟨scope, ownerId⟩

/-- A scope as `{:?}` prints it. -/
def scopeName : MemoryScope → String
  | .step => "Step"
  | .run => "Run"
  | .session => "Session"
  | .agent => "Agent"
  | .workspace => "Workspace"
  | .user => "User"
  | .organization => "Organization"
  | .global => "Global"

def failUnowned (d : Driver) (scope : MemoryScope) : Driver :=
  d.push (.runFailed .policy ("memory " ++ scopeName scope ++ ": the run names no owner for it")) .system

def failMemory (d : Driver) (operation : String) : Driver :=
  d.push (.runFailed .infrastructure ("memory " ++ operation ++ ": store unavailable")) .system

/-- What is left of `max` after `used` and `given`. -/
def left (max used given : UInt32) : UInt32 := saturatingSub max (saturatingAdd used given)

/-- The budget to give a child: half of the steps and model calls this run has left. -/
def carve (d : Driver) : Except String Limits :=
  let state := d.state
  let stepsLeft := left d.spec.limits.maxSteps state.steps state.givenSteps
  let modelCallsLeft := left d.spec.limits.maxModelCalls state.modelCalls state.givenModelCalls
  if !state.harness.isRunning then .error "the run is not running"
  else if maxChildren ≤ state.children then .error s!"already started {maxChildren} children"
  else if stepsLeft < 2 || modelCallsLeft < 2 then .error "not enough budget left to give a child"
  else .ok ⟨stepsLeft / 2, modelCallsLeft / 2⟩

/-- Starts a child through the spawner, with half of what this run has left. The run goes on either way. -/
def delegate (d : Driver) (agentId : AgentId) (input : String) : Prog HarnessSig Driver :=
  let step := match d.state.harness with
    | .running step _ _ => step
    | _ => 0
  let refused (reason : String) := d.push (.delegateRefused agentId reason) .system
  match d.carve with
  | .error reason => .ret (refused reason)
  | .ok given =>
      if !d.spawner then .ret (refused "no agent spawner is configured") else
      .call (.spawn d.events ⟨d.spec, step, agentId, input, given⟩) fun
        | .ok child => .ret (d.push (.childStarted child.runId agentId child.limits) .system)
        | .error reason => .ret (refused reason)

def askUser (d : Driver) (prompt : String) : Driver :=
  if d.userQuestions then d.push (.userAsked (d.stamp d.events.length).messageId prompt) .system
  else d.push (.userAskRefused "the run cannot wait for an answer") .system

/-- A message the deliverer accepted: the task it started, if any, then the message. -/
def messageSent (d : Driver) (toAgent : AgentId) (expectsReply : Bool) (sent : SentMessage) : Driver :=
  let d := match sent.task with
    | some task => d.push (.childStarted task.runId toAgent task.limits) .system
    | none => d
  d.push (.messageSent sent.messageId toAgent expectsReply) .system

/-- Hands a message to the deliverer. A tell or a new ask starts a task, whose budget is carved as for a
delegation; a reply starts none. -/
def sendMessage (d : Driver) (toAgent : AgentId) (body : String) (expectsReply : Bool)
    (replyTo : Option MessageId) (timeoutSecs : Option UInt32) : Prog HarnessSig Driver :=
  let state := d.state
  let startsTask := replyTo.isNone || expectsReply
  let refused (reason : String) := d.push (.messageRefused toAgent reason) .system
  let limits : Except String (Option Limits) :=
    if !state.harness.isRunning then .error "the run is not running"
    else if !d.deliverer then .error "no message deliverer is configured"
    else if startsTask then d.carve.map some
    else .ok none
  match limits with
  | .error reason => .ret (refused reason)
  | .ok limits =>
      .call (.send d.events ⟨d.spec, state.steps, toAgent, body, expectsReply, replyTo, timeoutSecs, limits⟩) fun
        | .ok sent => .ret (d.messageSent toAgent expectsReply sent)
        | .error reason => .ret (refused reason)

/-- The result of a tool the harness waits for. -/
def deliverToolResult (d : Driver) (name : String) (invocation : InvocationId) (output : String) : Driver :=
  match d.state.harness with
  | .waitingForTool step attempt expectedName expectedInvocation =>
      if name ≠ expectedName ∨ invocation ≠ expectedInvocation then d
      else d.push (.toolResult name invocation step attempt output) .tool
  | _ => d

/-- Performs one effect, and says whether `perform` goes on to the next. -/
def performOne (d : Driver) (tools : List ToolDescriptor) (effect : Effect) : Prog HarnessSig (Driver × Bool) :=
  match effect with
  | .toolCall name input invocation =>
      match d.state.harness with
      | .waitingForTool _ _ waitingName waitingInvocation =>
          if waitingName ≠ name ∨ waitingInvocation ≠ invocation then .ret (d, true) else
          match tools.find? fun tool => tool.name = name with
          | none => .ret (d.push (.runFailed .tool ("unknown tool: " ++ name)) .system, false)
          | some _ =>
              .call (.tool d.events name input) fun
                | .ok output => .ret (d.deliverToolResult name invocation output, true)
                | .error message => .ret (d.push (.runFailed .tool message) .system, false)
      | _ => .ret (d, true)
  | .modelCall prompt =>
      .call (.model d.events ⟨d.spec.workModel.provider, d.spec.workModel.modelName, prompt⟩) fun
        | .ok (message, usage) => .ret (d.push (.modelResponded message usage) .gateway, true)
        | .error message => .ret (d.push (.runFailed .dependency message) .gateway, true)
  | .memoryRead scope key =>
      match d.memoryKey scope with
      | none => .ret (d.failUnowned scope, false)
      | some owner =>
          .call (.memoryRead d.events owner key) fun
            | .ok value => .ret (d.push (.memoryRead scope key value) .system, true)
            | .error _ => .ret (d.failMemory "read", false)
  | .memoryWrite scope key value =>
      match d.memoryKey scope with
      | none => .ret (d.failUnowned scope, false)
      | some owner =>
          .call (.memoryWrite d.events owner key value) fun
            | .ok _ => .ret (d.push (.memoryWritten scope key value) .system, true)
            | .error _ => .ret (d.failMemory "write", false)
  | .delegate agentId input => (d.delegate agentId input).bind fun d => .ret (d, true)
  | .sendMessage toAgent body expectsReply replyTo timeoutSecs =>
      (d.sendMessage toAgent body expectsReply replyTo timeoutSecs).bind fun d => .ret (d, true)
  | .askUser prompt => .ret (d.askUser prompt, true)
  | .complete _ | .execute _ | .requestApproval _ _ | .wait _ | .publishArtifact _ _ _ => .ret (d, true)

def perform (tools : List ToolDescriptor) : List Effect → Driver → Prog HarnessSig Driver
  | [], d => .ret d
  | effect :: effects, d =>
      (d.performOne tools effect).bind fun
        | (d, true) => perform tools effects d
        | (d, false) => .ret d

def advanceAnsweredStep (d : Driver) : Driver :=
  match d.state.harness with
  | .running step _ true => if d.spec.limits.maxSteps ≤ step then d else d.push .stepAdvanced .system
  | _ => d

/-! ### The loop -/

/-- How `run_until` returns; `outOfFuel` is the model's own and is never reached. -/
inductive Finish where
  | ok
  | failed (error : DeciderError)
  | outOfFuel
  deriving DecidableEq

/-- The tail of an iteration, for the effects it decided. -/
def afterDecision (d : Driver) (tools : List ToolDescriptor) (effects : List Effect) : Prog HarnessSig Driver :=
  (perform tools effects d).bind fun d => .ret d.advanceAnsweredStep

/-- The loop of `run_until`, at most `fuel` decisions of it. -/
def runLoop (tools : List ToolDescriptor) : Nat → Driver → Prog HarnessSig (Driver × Finish)
  | 0, d => .ret (d, .outOfFuel)
  | fuel + 1, d =>
      -- A log another writer ended stays ended, whatever the harness fold says.
      if d.state.harness.isTerminal || d.logEnded then .ret (d, .ok) else
      .call (.boundary d) fun
        | .cancel => .ret (d.cancel, .ok)
        | .pause => .ret (d, .ok)
        | .continue =>
            match d.state.harness with
            | .waitingForMessage _ _ _ => .ret (d, .ok)
            | _ =>
                (d.decide tools).bind fun
                  | (d, .error error) => .ret (d, .failed error)
                  | (d, .ok []) =>
                      if d.state.harness.isTerminal then .ret (d, .ok) else runLoop tools fuel d
                  | (d, .ok effects) => (d.afterDecision tools effects).bind (runLoop tools fuel)

/-- What `run_until` does before its loop: it finishes the step a resumed log was cut in. -/
def prologue (tools : List ToolDescriptor) (d : Driver) : Prog HarnessSig Driver :=
  let pending := d.pending
  let d := { d with pending := [] }
  let (d, pending) :=
    match d.undecided with
    | some (harness, effect) => { d with undecided := none }.authorizeDecided harness effect tools
    | none => (d, pending)
  if d.resumed then { d with resumed := false }.afterDecision tools pending else .ret d

/-- Decisions that no run can outlast: each iteration spends a step or is the last. -/
def fuel (d : Driver) : Nat := d.spec.limits.maxSteps.toNat + 2

def runUntil (tools : List ToolDescriptor) (d : Driver) : Prog HarnessSig (Driver × Finish) :=
  (prologue tools d).bind fun d => runLoop tools d.fuel d

end Driver
end Gol
