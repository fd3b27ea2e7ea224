import Mathlib.Algebra.Group.Int.Defs
import Mathlib.Algebra.GroupWithZero.Nat
import Mathlib.Data.List.Basic

/-! The protocol's data: ids, run specs, effects, harness and dispatch states, and the events of a
run's log (`crates/protocol`). An event carries its envelope, since the store dates a run by its first
event. The constant fields of an envelope (`event_type`, a text computed from the payload, and
`step_id` and `caused_by`, which nothing sets) are left out. -/

namespace Gol

abbrev Uuid := BitVec 128

structure RunId where
  uuid : Uuid
  deriving DecidableEq

structure AgentId where
  uuid : Uuid
  deriving DecidableEq

structure EventId where
  uuid : Uuid
  deriving DecidableEq

structure ArtifactId where
  uuid : Uuid
  deriving DecidableEq

structure ApprovalId where
  uuid : Uuid
  deriving DecidableEq

structure InvocationId where
  uuid : Uuid
  deriving DecidableEq

structure MessageId where
  uuid : Uuid
  deriving DecidableEq

/-- Unix milliseconds, as `i64` keeps them. -/
abbrev Timestamp := Int

/-- Addition of two `u32`s that stops at `u32::MAX`. -/
def saturatingAdd (a b : UInt32) : UInt32 :=
  if a.toNat + b.toNat < 2 ^ 32 then a + b else UInt32.ofNat (2 ^ 32 - 1)

/-- Subtraction of two `u32`s that stops at 0. -/
def saturatingSub (a b : UInt32) : UInt32 :=
  if b ≤ a then a - b else 0

theorem saturatingAdd_toNat (a b : UInt32) :
    (saturatingAdd a b).toNat = min (a.toNat + b.toNat) (2 ^ 32 - 1) := by
  have ha := a.toNat_lt
  have hb := b.toNat_lt
  unfold saturatingAdd
  split
  · rw [UInt32.toNat_add]
    omega
  · rw [UInt32.toNat_ofNat']
    omega

theorem saturatingSub_toNat (a b : UInt32) : (saturatingSub a b).toNat = a.toNat - b.toNat := by
  have ha := a.toNat_lt
  have hb := b.toNat_lt
  unfold saturatingSub
  split
  · next h => rw [UInt32.toNat_sub_of_le _ _ h]
  · next h =>
      rw [UInt32.le_iff_toNat_le] at h
      simp only [UInt32.toNat_zero]
      omega

/-! ### Run specs -/

structure Capability where
  name : String
  deriving DecidableEq

inductive ExecutionPlacement where
  | local
  | reverse
  | box
  deriving DecidableEq

inductive CredentialSource where
  | bringYourOwn (secretRef : String)
  | platformGateway
  deriving DecidableEq

inductive ModelProvider where
  | openAI
  | anthropic
  | gemini
  | systemOne
  deriving DecidableEq

structure WorkModel where
  provider : ModelProvider
  modelName : String
  credential : CredentialSource
  deriving DecidableEq

/-- The principal a run belongs to, and the tenant it was created in. -/
structure Owner where
  issuer : String
  subject : String
  tenant : String
  deriving DecidableEq

/-- The same principal: the tenant does not change who the caller is. -/
def Owner.is (self other : Owner) : Bool :=
  self.issuer == other.issuer && self.subject == other.subject

structure Limits where
  maxSteps : UInt32
  maxModelCalls : UInt32
  deriving DecidableEq

structure Lineage where
  parent : Option RunId
  root : Option RunId
  hop : UInt32
  deriving DecidableEq

def Lineage.default : Lineage := ⟨none, none, 0⟩

structure RunSpec where
  runId : RunId
  owner : Owner
  agentId : AgentId
  agentVersion : String
  input : String
  placement : ExecutionPlacement
  workModel : WorkModel
  capabilities : List Capability
  limits : Limits
  /-- A `BTreeMap`: its pairs, looked up by key. -/
  metadata : List (String × String)
  lineage : Lineage
  deriving DecidableEq

/-- The value the metadata holds for `key`. -/
def RunSpec.metadataGet (spec : RunSpec) (key : String) : Option String := spec.metadata.lookup key

/-- A local run with no parent, for concrete runs. -/
def RunSpec.plain (id : Uuid) (limits : Limits) : RunSpec where
  runId := ⟨id⟩
  owner := ⟨"https://issuer.test", "user-1", "tenant-1"⟩
  agentId := ⟨1⟩
  agentVersion := "1"
  input := "hello"
  placement := .local
  workModel := ⟨.openAI, "gpt-4o", .platformGateway⟩
  capabilities := []
  limits := limits
  metadata := []
  lineage := .default

/-- The first run of this run's chain: its own id for a top-level run. -/
def RunSpec.root (spec : RunSpec) : RunId := spec.lineage.root.getD spec.runId

/-! ### Effects -/

inductive MemoryScope where
  | step
  | run
  | session
  | agent
  | workspace
  | user
  | organization
  | global
  deriving DecidableEq

inductive Effect where
  | modelCall (prompt : String)
  | toolCall (name : String) (input : String) (invocation : InvocationId)
  | memoryRead (scope : MemoryScope) (key : String)
  | memoryWrite (scope : MemoryScope) (key : String) (value : String)
  | execute (command : String)
  | delegate (agentId : AgentId) (input : String)
  | sendMessage (toAgent : AgentId) (body : String) (expectsReply : Bool) (replyTo : Option MessageId)
      (timeoutSecs : Option UInt32)
  | askUser (prompt : String)
  | requestApproval (approvalId : ApprovalId) (reason : String)
  | wait (reason : String)
  | publishArtifact (artifactId : ArtifactId) (name : String) (body : String)
  | complete (outcome : String)
  deriving DecidableEq

/-! ### Harness and dispatch states -/

def maxRetries : UInt32 := 2

/-- A run this many hops from its root may not start another. -/
def maxDelegationHops : UInt32 := 8

/-- How many child runs one run may start. -/
def maxChildren : UInt32 := 10

/-- The largest message body, in bytes. -/
def maxMessageBytes : Nat := 32 * 1024

/-- The longest an ask may wait for its reply, in seconds. -/
def maxAskTimeoutSecs : UInt32 := 24 * 60 * 60

inductive FailureClass where
  | agent
  | model
  | tool
  | policy
  | environment
  | infrastructure
  | timeout
  | budget
  | dependency
  | userCancellation
  deriving DecidableEq

inductive HarnessState where
  | idle
  | running (step : UInt32) (attempt : UInt32) (answered : Bool)
  | waitingForTool (step : UInt32) (attempt : UInt32) (name : String) (invocation : InvocationId)
  | waitingForMessage (step : UInt32) (attempt : UInt32) (messageId : MessageId)
  | completed (outcome : String)
  | failed (cls : FailureClass) (message : String)
  | cancelled
  deriving DecidableEq

def HarnessState.isTerminal : HarnessState → Bool
  | .completed _ | .failed _ _ | .cancelled => true
  | _ => false

def HarnessState.isRunning : HarnessState → Bool
  | .running _ _ _ => true
  | _ => false

inductive DispatchPhase where
  | created
  | queued
  | scheduled
  | provisioning
  | starting
  | running
  | waiting (reason : String)
  | awaitingApproval (approvalId : ApprovalId)
  | paused
  | recovering
  | completed (outcome : String)
  | failed (cls : FailureClass) (message : String)
  | cancelled
  | expired
  deriving DecidableEq

def DispatchPhase.isTerminal : DispatchPhase → Bool
  | .completed _ | .failed _ _ | .cancelled | .expired => true
  | _ => false

/-! ### Events -/

inductive MessageRole where
  | system
  | user
  | assistant
  deriving DecidableEq

structure ModelMessage where
  role : MessageRole
  text : String
  deriving DecidableEq

structure Usage where
  inputTokens : UInt64
  outputTokens : UInt64
  deriving DecidableEq

inductive EventPayload where
  | runCreated
  | runQueued
  | runScheduled
  | runProvisioning
  | runStarting
  | runStarted
  | runWaiting (reason : String)
  | runAwaitingApproval (approvalId : ApprovalId)
  | runPaused
  | runRecovering
  | runResumed
  | runCompleted (outcome : String)
  | runFailed (cls : FailureClass) (message : String)
  | runCancelled
  | runExpired
  | userMessage (text : String)
  | stepRetried
  | stepAdvanced
  | effectDecided (effect : Effect)
  | effectAuthorized (effect : Effect)
  | effectDenied (effect : Effect) (reason : String)
  | toolResult (name : String) (invocation : InvocationId) (step : UInt32) (attempt : UInt32)
      (output : String)
  | modelResponded (message : ModelMessage) (usage : Option Usage)
  | memoryRead (scope : MemoryScope) (key : String) (value : Option String)
  | memoryWritten (scope : MemoryScope) (key : String) (value : String)
  | childStarted (runId : RunId) (agentId : AgentId) (limits : Limits)
  | delegateRefused (agentId : AgentId) (reason : String)
  | messageSent (messageId : MessageId) (toAgent : AgentId) (expectsReply : Bool)
  | messageRefused (toAgent : AgentId) (reason : String)
  | messageReceived (messageId : MessageId) (fromAgent : AgentId) (fromRun : RunId) (body : String)
      (replyTo : Option MessageId)
  | askTimedOut (messageId : MessageId)
  | userAsked (messageId : MessageId) (prompt : String)
  | userAskRefused (reason : String)
  | userAnswered (messageId : MessageId) (text : String)
  deriving DecidableEq

inductive Actor where
  | system
  | agent
  | policy
  | tool
  | gateway
  deriving DecidableEq

structure EventEnvelope where
  eventId : EventId
  runId : RunId
  parentRunId : Option RunId
  agentId : AgentId
  agentVersion : String
  at_ : Timestamp
  actor : Actor
  deriving DecidableEq

structure Event where
  envelope : EventEnvelope
  payload : EventPayload
  deriving DecidableEq

/-- What one recorded event draws from outside the program: its id, the clock, and the id of the
message it may name. -/
structure Stamp where
  eventId : EventId
  now : Timestamp
  messageId : MessageId
  deriving DecidableEq

/-- Ids and times by the event's position, for concrete runs. -/
def Stamp.plain (position : Nat) : Stamp := ⟨⟨.ofNat _ position⟩, position, ⟨.ofNat _ position⟩⟩

/-- `Event::record` over `EventSource::for_spec`: an event of `spec`'s run, naming its parent. -/
def Event.record (spec : RunSpec) (actor : Actor) (stamp : Stamp) (payload : EventPayload) : Event where
  envelope :=
    { eventId := stamp.eventId, runId := spec.runId, parentRunId := spec.lineage.parent,
      agentId := spec.agentId, agentVersion := spec.agentVersion, at_ := stamp.now, actor := actor }
  payload := payload

@[simp] theorem Event.record_payload (spec : RunSpec) (actor : Actor) (stamp : Stamp)
    (payload : EventPayload) : (Event.record spec actor stamp payload).payload = payload := rfl

/-- The payloads that end a run (`is_terminal` in the store, `is_run_end` in the driver). -/
def isTerminal : EventPayload → Bool
  | .runCompleted _ | .runFailed _ _ | .runCancelled | .runExpired => true
  | _ => false

/-- Whether a log holds a terminal event. -/
def hasEnded (events : List Event) : Bool := events.any fun event => isTerminal event.payload

@[simp] theorem hasEnded_nil : hasEnded [] = false := rfl

@[simp] theorem hasEnded_append (log more : List Event) :
    hasEnded (log ++ more) = (hasEnded log || hasEnded more) := List.any_append

@[simp] theorem hasEnded_singleton (event : Event) : hasEnded [event] = isTerminal event.payload := by
  simp [hasEnded]

end Gol
