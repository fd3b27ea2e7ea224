import Gol.HarnessDriver
import Gol.StoreControls
import Gol.ServerQueue

/-! What the server's programs call: the run queue, the run store, its stops and triggers, the sandbox host and
everything else. A call of the first four is one step of what it calls; it can fail before it takes effect, or take
effect and lose its answer. What the programs call beyond these (the harness's externals, the gateway, agents and the
messages store) answers anything. The server keeps a trace of the calls made. -/

namespace Gol
open Library

/-! ### Calls -/

/-- A sandbox's name: `gol-box-<run>` of a quick turn, `gol-box-<run>-<attempt>` of a background one's attempt, or
one gol did not make. -/
inductive SandboxName where
  | container (run : RunId)
  | attempt (run : RunId) (number : Nat)
  | other (name : String)
  deriving DecidableEq

/-- The run a Box sandbox belongs to. -/
def boxRunOf : SandboxName → Option RunId
  | .container run => some run
  | .attempt run _ => some run
  | .other _ => none

/-- The gate of a trigger's fire: the trigger, and the generation the fire read it at. -/
structure FireGate where
  owner : Owner
  trigger : TriggerId
  generation : Nat
  deriving DecidableEq

/-- The scripts. A `pushOnce` carries the gate its caller passed, an `unpend` the log its caller read, none when the
run was not stored, and a `start` the claim it is made for: Redis sees none of them. -/
inductive QueueCall where
  | pend (id : RunId)
  | push (id : RunId)
  | pushOnce (id : RunId) (gate : Option FireGate)
  | pendingFor (age : Nat)
  | queuedOrClaimed (id : RunId)
  | unpend (id : RunId) (read : Option (List Event))
  | claim (token : Token)
  | start (id : RunId) (token : Token)
  | release (id : RunId) (token : Token)
  | park (id : RunId) (token : Token) (ask : MessageId)
  | wake (id : RunId) (ask : MessageId)
  | renew (id : RunId) (token : Token)
  | ack (id : RunId) (token : Token)
  | reap
  | parked

def QueueCall.Value : QueueCall → Type
  | .pend _ | .push _ | .unpend _ _ | .release _ _ | .ack _ _ => Unit
  | .pushOnce _ _ | .queuedOrClaimed _ | .park _ _ _ | .wake _ _ | .renew _ _ => Bool
  | .pendingFor _ | .reap => List RunId
  | .claim _ => Option RunId
  | .start _ _ => Nat
  | .parked => List (RunId × MessageId)

def RunQueue.exec (q : RunQueue) (now : Nat) : (c : QueueCall) → c.Value × RunQueue
  | .pend id => ((), q.pend now id)
  | .push id => ((), q.push id)
  | .pushOnce id _ => q.pushOnce id
  | .pendingFor age => (q.pendingFor now age, q)
  | .queuedOrClaimed id => (q.queuedOrClaimed id, q)
  | .unpend id _ => ((), q.unpend id)
  | .claim token => q.claim token
  | .start id _ => q.start id
  | .release id token => ((), q.release id token)
  | .park id token ask => q.park id token ask
  | .wake id ask => q.wake id ask
  | .renew id token => (q.renew id token, q)
  | .ack id token => ((), q.ack id token)
  | .reap => q.reap
  | .parked => (q.parked, q)

/-- Who appends to a log or asks for a sandbox: a producer that ends its run, the settle of a fire, a delivery of an
answer, the user's answer, a stop, the request of a turn, the sandbox sweep, or a worker under its claim. -/
inductive Party where
  | producer
  | settle
  | delivery
  | user
  | stop
  | request
  | sweep
  | worker (token : Token)
  deriving DecidableEq

/-- Where a new run comes from: a request, which gives it a random id, a trigger's fire, or its parent, whose log it
was asked for at. -/
inductive Origin where
  | request
  | fire
  | child (asked : List Event)
  deriving DecidableEq

/-- The store's calls. A put carries where the run comes from, and an append who makes it: the store sees neither. -/
inductive StoreCall where
  | run (id : RunId)
  | putRun (run : StoredRun) (origin : Origin)
  | appendEvents (id : RunId) (events : List Event) (party : Party)
  | appendEventsAfter (id : RunId) (seen : Nat) (events : List Event) (party : Party)

def StoreCall.Value : StoreCall → Type
  | .run _ => Option StoredRun
  | .putRun _ _ => PutRun
  | .appendEvents _ _ _ | .appendEventsAfter _ _ _ _ => Append

def StoreAnswer.toPut : StoreAnswer → Except StoreError PutRun
  | .put done => .ok done
  | .failed error => .error error
  | _ => .error ⟨"not a put"⟩

def StoreAnswer.toAppend : StoreAnswer → Except StoreError Append
  | .append done => .ok done
  | .failed error => .error error
  | _ => .error ⟨"not an append"⟩

def LogStore.call (s : LogStore) (now : Timestamp) : (c : StoreCall) → Except StoreError c.Value × LogStore
  | .run id => (.ok (s.runs id), s)
  | .putRun run _ => ((s.exec now (.putRun run)).2.toPut, (s.exec now (.putRun run)).1)
  | .appendEvents id events _ =>
      ((s.exec now (.appendEvents id events)).2.toAppend, (s.exec now (.appendEvents id events)).1)
  | .appendEventsAfter id seen events _ =>
      ((s.exec now (.appendEventsAfter id seen events)).2.toAppend, (s.exec now (.appendEventsAfter id seen events)).1)

/-- The host's calls. They carry who makes them, which the host does not see. -/
inductive HostCall where
  | provision (name : SandboxName) (party : Party)
  | destroy (name : SandboxName) (party : Party)
  | absent (name : SandboxName) (party : Party)
  | list

def HostCall.Value : HostCall → Type
  | .provision _ _ | .destroy _ _ => Unit
  | .absent _ _ => Bool
  | .list => List SandboxName

/-- The running sandboxes. -/
def HostCall.exec (sandboxes : List SandboxName) : (c : HostCall) → c.Value × List SandboxName
  | .provision name _ => ((), name :: sandboxes)
  | .destroy name _ => ((), sandboxes.filter (· ≠ name))
  | .absent name _ => (decide (name ∉ sandboxes), sandboxes)
  | .list => (sandboxes, sandboxes)

structure AgentManifest where
  id : AgentId
  version : String
  name : String
  description : String
  requiredCapabilities : List Capability
  tools : List String
  deriving DecidableEq

structure StoredAgent where
  manifest : AgentManifest
  owner : Owner
  deriving DecidableEq

structure StoredMessage where
  id : MessageId
  owner : Owner
  fromRun : RunId
  fromAgent : AgentId
  decision : UInt32
  toAgent : AgentId
  body : String
  expectsReply : Bool
  replyTo : Option MessageId
  taskRun : Option RunId
  deadline : Option Timestamp
  timeoutSecs : Option UInt32
  hop : UInt32
  deriving DecidableEq

inductive PutMessage where
  | stored
  | existed (message : StoredMessage)
  deriving DecidableEq

structure GatewayCall where
  runId : RunId
  input : String
  modelName : String
  placement : ExecutionPlacement
  deriving DecidableEq

/-- The calls that leave the queue, the store, its controls and the sandboxes as they are. -/
inductive OutsideCall where
  /-- A call of the harness that the worker passes on: the decider, a tool, a model, or memory. -/
  | harness (c : HarnessCall)
  /-- The ids and times of the events recorded next. -/
  | stamps
  /-- `RedisRunQueue::now_ms`, the time every server shares. -/
  | redisNow
  /-- `Timestamp::now`, in milliseconds. -/
  | timestampNow
  | agent (id : AgentId)
  | agentsOf (owner : Owner)
  | loadTools (named : List String)
  | putMessage (message : StoredMessage)
  | message (id : MessageId)
  | askOfTask (task : RunId)
  | answer (ask : MessageId)
  | openAsksDue
  | listVolumes
  | removeVolume (run : RunId)

def OutsideCall.Answer : OutsideCall → Type
  | .harness c => c.Answer
  | .stamps => Nat → Stamp
  | .redisNow => Except String Int64
  | .timestampNow => Int64
  | .agent _ => Except StoreError (Option StoredAgent)
  | .agentsOf _ => Except StoreError (List StoredAgent)
  | .loadTools _ => Except String (List ToolDescriptor)
  | .putMessage _ => Except StoreError PutMessage
  | .message _ | .askOfTask _ => Except StoreError (Option StoredMessage)
  | .answer _ => Except StoreError Bool
  | .openAsksDue => Except StoreError (List StoredMessage)
  | .listVolumes => Except String (List RunId)
  | .removeVolume _ => Except String Unit

inductive ServerCall where
  | queue (c : QueueCall)
  | store (c : StoreCall)
  /-- A call of the store's stops or triggers, which a store may not keep. -/
  | control (c : ControlCall)
  | host (c : HostCall)
  /-- A turn's gateway call, with who makes it. -/
  | gateway (call : GatewayCall) (party : Party)
  | outside (c : OutsideCall)

def ServerCall.Answer : ServerCall → Type
  | .queue c => Except String c.Value
  | .store c => Except StoreError c.Value
  | .control c => Option (Except StoreError c.Value)
  | .host c => Except String c.Value
  | .gateway _ _ => Except String String
  | .outside c => c.Answer

abbrev ServerSig : Sig := ⟨ServerCall, ServerCall.Answer⟩

/-! ### The server -/

/-- A call that was made, its answer, and whether it took effect. -/
structure Happened where
  call : ServerCall
  answer : call.Answer
  took : Bool

structure Server where
  queue : RunQueue
  /-- The Redis clock, in milliseconds. -/
  now : Nat
  store : LogStore
  controls : Controls
  sandboxes : List SandboxName
  /-- The calls made, newest first. -/
  trace : List Happened

namespace Server

def empty : Server := ⟨.empty, 0, .empty, .empty, [], []⟩

/-- A run stored now takes the next number of the store's order. -/
def numbered (s : Server) (now : Timestamp) : StoreCall → Controls
  | .putRun run _ =>
      if (s.store.exec now (.putRun run)).2 = .put .stored then
        { s.controls with stops := s.controls.stops.putRun run.spec.runId }
      else s.controls
  | _ => s.controls

/-- What a call does when it takes effect. -/
def after (s : Server) (now : Timestamp) : ServerCall → Server
  | .queue c => { s with queue := (s.queue.exec s.now c).2 }
  | .store c => { s with store := (s.store.call now c).2, controls := s.numbered now c }
  | .control c => { s with controls := (s.controls.exec s.store.runs c).2 }
  | .host c => { s with sandboxes := (c.exec s.sandboxes).2 }
  | .gateway _ _ => s
  | .outside _ => s

/-- The answers of a call that takes effect. -/
inductive Answers (s : Server) (now : Timestamp) : (c : ServerCall) → c.Answer → Prop
  | queue (c : QueueCall) : Answers s now (.queue c) (.ok (s.queue.exec s.now c).1)
  | store (c : StoreCall) : Answers s now (.store c) (s.store.call now c).1
  | control (c : ControlCall) : Answers s now (.control c) (some (.ok (s.controls.exec s.store.runs c).1))
  | host (c : HostCall) : Answers s now (.host c) (.ok (c.exec s.sandboxes).1)
  | gateway (call : GatewayCall) (party : Party) (answer : Except String String) :
      Answers s now (.gateway call party) answer
  | outside (c : OutsideCall) (answer : c.Answer) : Answers s now (.outside c) answer

/-- The answers of a call that failed, or whose answer was lost. -/
inductive Fails : (c : ServerCall) → c.Answer → Prop
  | queue (c : QueueCall) (error : String) : Fails (.queue c) (.error error)
  | store (c : StoreCall) (error : StoreError) : Fails (.store c) (.error error)
  | control (c : ControlCall) (error : StoreError) : Fails (.control c) (some (.error error))
  | noControls (c : ControlCall) : Fails (.control c) none
  | host (c : HostCall) (error : String) : Fails (.host c) (.error error)

/-- What a call names that may be a random UUID. -/
inductive Named where
  | token (token : Token)
  | run (id : RunId)
  | trigger (id : TriggerId)
  deriving DecidableEq

def names : ServerCall → List Named
  | .queue (.claim token) => [.token token]
  | .store (.putRun run _) => [.run run.spec.runId]
  | .control (.putTrigger trigger _) => [.trigger trigger.id]
  | _ => []

/-- Whether a call draws its name at random. -/
def draws : ServerCall → Bool
  | .queue (.claim _) | .store (.putRun _ .request) | .control (.putTrigger _ _) => true
  | _ => false

/-- The token of a claim, the id of a request's run and a new trigger's id are ones that no call named before. -/
def Fresh (s : Server) (c : ServerCall) : Prop :=
  draws c = true → ∀ name ∈ names c, ∀ happened ∈ s.trace, name ∉ names happened.call

instance (s : Server) (c : ServerCall) : Decidable (s.Fresh c) := inferInstanceAs (Decidable (_ → _))

def record (s : Server) (happened : Happened) : Server := { s with trace := happened :: s.trace }

/-- One call of a program: it takes effect and is answered, takes effect and loses its answer, or fails. -/
inductive Step (s : Server) (c : ServerCall) (answer : c.Answer) : Server → Prop
  | done (now : Timestamp) (hfresh : s.Fresh c) (h : s.Answers now c answer) :
      Step s c answer ((s.after now c).record ⟨c, answer, true⟩)
  | lost (now : Timestamp) (hfresh : s.Fresh c) (h : Fails c answer) :
      Step s c answer ((s.after now c).record ⟨c, answer, true⟩)
  | failed (h : Fails c answer) : Step s c answer (s.record ⟨c, answer, false⟩)

end Server

/-! ### Events the server records -/

def systemEvent (spec : RunSpec) (stamp : Stamp) (payload : EventPayload) : Event :=
  Event.record spec .system stamp payload

/-- What a producer stores before it pushes a run: created, queued, and the user's message. -/
def queuedEvents (spec : RunSpec) (stamps : Nat → Stamp) : List Event :=
  [systemEvent spec (stamps 0) .runCreated, systemEvent spec (stamps 1) .runQueued,
    systemEvent spec (stamps 2) (.userMessage spec.input)]

/-- What a worker records ahead of the harness's events. -/
def dispatchEvents (spec : RunSpec) (stamps : Nat → Stamp) : List Event :=
  [systemEvent spec (stamps 0) .runScheduled, systemEvent spec (stamps 1) .runProvisioning,
    systemEvent spec (stamps 2) .runStarting]

def runCancelledEvent (spec : RunSpec) (stamps : Nat → Stamp) : Event := systemEvent spec (stamps 0) .runCancelled

def runFailedEvent (spec : RunSpec) (stamps : Nat → Stamp) (cls : FailureClass) (message : String) : Event :=
  systemEvent spec (stamps 0) (.runFailed cls message)

/-- The events that store a turn's completion, the last one terminal. -/
def completionEvents (spec : RunSpec) (stamps : Nat → Stamp) (text : String) : List Event :=
  [Event.record spec .gateway (stamps 0) (.modelResponded ⟨.assistant, text⟩ none),
    systemEvent spec (stamps 1) (.runCompleted text)]

/-- The server marks a background coworker turn with this key. -/
def turnKey : String := "gol.turn"

def isTurn (spec : RunSpec) : Bool := (spec.metadataGet turnKey).isSome

/-- A background coworker turn in a Box. -/
def isBoxTurn (spec : RunSpec) : Bool := isTurn spec && spec.placement == .box

/-- Whether a run's log is still as its producer stored it: created, queued and its message (`waiting` and
`still_waiting`). -/
def stillWaiting (events : List Event) : Bool :=
  events.all fun event => match event.payload with
    | .runCreated | .runQueued | .userMessage _ => true
    | _ => false

def gatewayCall (spec : RunSpec) : GatewayCall := ⟨spec.runId, spec.input, spec.workModel.modelName, spec.placement⟩

end Gol
