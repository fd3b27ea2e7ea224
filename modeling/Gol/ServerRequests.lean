import Gol.ServerMailbox
import Gol.ServerReadings
import Gol.ServerSurface
import Gol.ServerThreads
import Gol.ServerTurns

/-! The requests of a principal (`http.rs`), on a server with a run queue. Each names runs, threads, triggers and
agents by ids that its caller chose, and answers for those of the caller's principal only. A request's body has been
read, and its bearer token checked. -/

namespace Gol
open Library

/-! ### Calls -/

/-- The reads of the store's threads. -/
inductive ThreadCall where
  | root (owner : Owner) (thread : String)
  | runs (owner : Owner) (thread : String) (limit : Nat)
  | list (owner : Owner) (after limit : Nat)

def ThreadCall.Value : ThreadCall → Type
  | .root _ _ => Option RunSpec
  | .runs _ _ _ => List StoredRun
  | .list _ _ _ => List ThreadSummary

def ThreadCall.exec (s : StopStore) : (c : ThreadCall) → c.Value
  | .root owner thread => s.threadRoot owner thread
  | .runs owner thread limit => s.runsOfThread owner thread limit
  | .list owner after limit => s.threadsOf owner after limit

namespace Triggers

/-- By creation time, then by id. -/
def createdKey (trigger : StoredTrigger) : Int ×ₗ Nat := toLex (trigger.createdMs.toInt, trigger.id.uuid.toNat)

def triggersOf (s : Triggers) (owner : Owner) : List StoredTrigger :=
  sortByKey createdKey (s.filter fun trigger => trigger.owner.is owner)

/-- A webhook's next rotation, unless its last is spent. -/
def rotated (trigger : StoredTrigger) : Option StoredTrigger :=
  match trigger.kind with
  | .webhook rotation =>
      if rotation.toNat + 1 < UInt32.size then some { trigger with kind := .webhook (rotation + 1) } else none
  | .schedule _ _ => none

def rotateWebhook (s : Triggers) (owner : Owner) (id : TriggerId) : Option StoredTrigger × Triggers :=
  ((s.trigger owner id).bind rotated, s.alter (isOf owner id) fun trigger => (rotated trigger).getD trigger)

end Triggers

/-- What a request calls: what any program of the server does, a page of a run's log, the threads, a principal's
triggers, and a free place among the streams it may open. -/
inductive RequestCall where
  | server (c : ServerCall)
  | runPage (id : RunId) (after limit : Nat)
  | threads (c : ThreadCall)
  | triggersOf (owner : Owner)
  | rotateWebhook (owner : Owner) (id : TriggerId)
  | putAgent (agent : StoredAgent)
  | takeStream (owner : Owner)

inductive PutAgent where
  | stored
  | ownedByOther
  deriving DecidableEq

def RequestCall.Answer : RequestCall → Type
  | .server c => c.Answer
  | .runPage _ _ _ => Except StoreError (Option StoredRun)
  | .threads c => Option (Except StoreError c.Value)
  | .triggersOf _ => Option (Except StoreError (List StoredTrigger))
  | .rotateWebhook _ _ => Option (Except StoreError (Option StoredTrigger))
  | .putAgent _ => Except StoreError PutAgent
  | .takeStream _ => Bool

abbrev RequestSig : Sig := ⟨RequestCall, RequestCall.Answer⟩

/-- A program of the server, run by a request. -/
def onServer {α : Type} : Prog ServerSig α → Prog RequestSig α
  | .ret value => .ret value
  | .call c next => .call (.server c) fun answer => onServer (next answer)

/-! ### The site -/

/-- A server, and the agents and the messages that its stores keep. -/
structure Site where
  server : Server
  agents : AgentId → Option StoredAgent
  box : Mailbox

/-- The calls that the agents and the messages answer. What a sweep asks of the messages is not among them. -/
def OutsideCall.isKept : OutsideCall → Bool
  | .agent _ | .agentsOf _ | .putMessage _ | .askOfTask _ | .answer _ => true
  | _ => false

namespace Site

def empty : Site := ⟨.empty, fun _ => none, ⟨[], []⟩⟩

def threads (s : Site) : StopStore := ⟨s.server.store, s.server.controls.stops⟩

def triggers (s : Site) : Triggers := s.server.controls.triggers

/-- Stored as a new agent, or in place of one of the same principal's. -/
def putAgent (s : Site) (agent : StoredAgent) : PutAgent × Site :=
  if (s.agents agent.manifest.id).any fun stored => !stored.owner.is agent.owner then (.ownedByOther, s)
  else (.stored, { s with agents := Function.update s.agents agent.manifest.id (some agent) })

def setTriggers (s : Site) (triggers : Triggers) : Site :=
  { s with server := { s.server with controls := { s.server.controls with triggers := triggers } } }

/-- What a call does when it takes effect. -/
def after (s : Site) (now : Timestamp) : RequestCall → Site
  | .server c => { s with server := s.server.after now c, box := s.box.after c }
  | .rotateWebhook owner id => s.setTriggers (s.triggers.rotateWebhook owner id).2
  | .putAgent agent => (s.putAgent agent).2
  | .runPage _ _ _ | .threads _ | .triggersOf _ | .takeStream _ => s

/-- What the agents and the messages answer. Of a task's open asks any may be found. -/
inductive Keeps (s : Site) : (c : OutsideCall) → c.Answer → Prop
  | agent (id : AgentId) : Keeps s (.agent id) (.ok (s.agents id))
  | agentsOf (owner : Owner) (found : List StoredAgent)
      (h : ∀ agent, agent ∈ found ↔ s.agents agent.manifest.id = some agent ∧ agent.owner.is owner = true) :
      Keeps s (.agentsOf owner) (.ok found)
  | putMessage (message : StoredMessage) : Keeps s (.putMessage message) (.ok (s.box.messages.putMessage message).1)
  | noAsk (task : RunId) (h : ∀ ask, ¬ s.box.IsOpen task ask) : Keeps s (.askOfTask task) (.ok none)
  | askOfTask (task : RunId) (ask : StoredMessage) (h : s.box.IsOpen task ask) :
      Keeps s (.askOfTask task) (.ok (some ask))
  | answer (ask : MessageId) : Keeps s (.answer ask) (.ok (s.box.answer ask).1)

/-- The answers of a call that takes effect. -/
inductive Answers (s : Site) (now : Timestamp) : (c : RequestCall) → c.Answer → Prop
  | server {c : ServerCall} {answer : c.Answer} (helse : ∀ outside, c = .outside outside → outside.isKept = false)
      (h : s.server.Answers now c answer) : Answers s now (.server c) answer
  | kept {c : OutsideCall} {answer : c.Answer} (h : s.Keeps c answer) : Answers s now (.server (.outside c)) answer
  | runPage (id : RunId) (after limit : Nat) :
      Answers s now (.runPage id after limit) (.ok (s.server.store.runPage id after limit))
  | threads (c : ThreadCall) : Answers s now (.threads c) (some (.ok (c.exec s.threads)))
  | triggersOf (owner : Owner) : Answers s now (.triggersOf owner) (some (.ok (s.triggers.triggersOf owner)))
  | rotateWebhook (owner : Owner) (id : TriggerId) :
      Answers s now (.rotateWebhook owner id) (some (.ok (s.triggers.rotateWebhook owner id).1))
  | putAgent (agent : StoredAgent) : Answers s now (.putAgent agent) (.ok (s.putAgent agent).1)
  | takeStream (owner : Owner) (free : Bool) : Answers s now (.takeStream owner) free

/-- The answers of a call that failed, or whose answer was lost. -/
inductive Fails : (c : RequestCall) → c.Answer → Prop
  | server {c : ServerCall} {answer : c.Answer} (h : Server.Fails c answer) : Fails (.server c) answer
  | agent (id : AgentId) (error : StoreError) : Fails (.server (.outside (.agent id))) (.error error)
  | agentsOf (owner : Owner) (error : StoreError) : Fails (.server (.outside (.agentsOf owner))) (.error error)
  | putMessage (message : StoredMessage) (error : StoreError) :
      Fails (.server (.outside (.putMessage message))) (.error error)
  | askOfTask (task : RunId) (error : StoreError) : Fails (.server (.outside (.askOfTask task))) (.error error)
  | answer (ask : MessageId) (error : StoreError) : Fails (.server (.outside (.answer ask))) (.error error)
  | runPage (id : RunId) (after limit : Nat) (error : StoreError) : Fails (.runPage id after limit) (.error error)
  | threads (c : ThreadCall) (error : StoreError) : Fails (.threads c) (some (.error error))
  | noThreads (c : ThreadCall) : Fails (.threads c) none
  | triggersOf (owner : Owner) (error : StoreError) : Fails (.triggersOf owner) (some (.error error))
  | rotateWebhook (owner : Owner) (id : TriggerId) (error : StoreError) :
      Fails (.rotateWebhook owner id) (some (.error error))
  | noTriggers (owner : Owner) : Fails (.triggersOf owner) none
  | noWebhooks (owner : Owner) (id : TriggerId) : Fails (.rotateWebhook owner id) none
  | putAgent (agent : StoredAgent) (error : StoreError) : Fails (.putAgent agent) (.error error)

/-- One call of a request: it takes effect and is answered, takes effect and loses its answer, or fails. -/
inductive Step (s : Site) (c : RequestCall) (answer : c.Answer) : Site → Prop
  | done (now : Timestamp) (h : s.Answers now c answer) : Step s c answer (s.after now c)
  | lost (now : Timestamp) (h : Fails c answer) : Step s c answer (s.after now c)
  | failed (h : Fails c answer) : Step s c answer s

end Site

/-! ### Answers -/

inductive HttpError where
  | api (error : ApiError)
  | turn (error : TurnError)
  | decider (message : String)
  | unavailable (reason : String)
  | threadNotFound
  | noThreads
  | noStreams
  | tooManyStreams
  | whichTask (waiting : List WaitingTask)
  deriving DecidableEq

/-- The status of a refused request. -/
def ApiError.status : ApiError → Nat
  | .badRequest _ => 400
  | .tooLarge _ => 413
  | .notFound | .agentNotFound | .triggerNotFound | .noStops | .noTriggers => 404
  | .conflict _ => 409
  | .store _ => 503

/-- The text of a refusal. What the store said goes to stderr only. -/
def ApiError.text : ApiError → String
  | .badRequest reason | .tooLarge reason | .conflict reason => reason
  | .notFound => "run not found"
  | .agentNotFound => "agent not found"
  | .triggerNotFound => "trigger not found"
  | .noStops => "stops are not available"
  | .noTriggers => "triggers are not available"
  | .store _ => "store unavailable"

/-- `From<TurnError>`: what a turn's error is as a request's. -/
def TurnError.status : TurnError → Nat
  | .proxy _ | .sandbox _ => 502
  | .store _ => 503
  | .notFound => 404
  | .conflict _ => 409
  | .badRequest _ => 400

def TurnError.text : TurnError → String
  | .proxy message | .sandbox message | .conflict message | .badRequest message => message
  | .store _ => "store unavailable"
  | .notFound => "run not found"

def HttpError.status : HttpError → Nat
  | .api error => error.status
  | .turn error => error.status
  | .decider _ => 502
  | .unavailable _ => 503
  | .threadNotFound | .noThreads | .noStreams => 404
  | .tooManyStreams => 429
  | .whichTask _ => 409

def HttpError.text : HttpError → String
  | .api error => error.text
  | .turn error => error.text
  | .decider message => message
  | .unavailable reason => reason
  | .threadNotFound => "thread not found"
  | .noThreads => "threads are not available"
  | .noStreams => "streams are not available"
  | .tooManyStreams => "too many open streams"
  | .whichTask _ => "which task?"

/-- A trigger as the API shows it. Its secret is shown by its create and its rotation only. -/
structure TriggerView where
  id : TriggerId
  agentId : AgentId
  kind : TriggerKind
  input : String
  placement : ExecutionPlacement
  workModel : WorkModel
  limits : Option Limits
  missed : Missed
  enabled : Bool
  nextFireAt : Option Int64
  createdAt : Int64
  secret : Option String
  deriving DecidableEq

def triggerView (trigger : StoredTrigger) : TriggerView where
  id := trigger.id
  agentId := trigger.agentId
  kind := trigger.kind
  input := trigger.input
  placement := trigger.placement
  workModel := trigger.workModel
  limits := trigger.limits
  missed := trigger.missed
  enabled := trigger.enabled
  nextFireAt := trigger.nextFireMs
  createdAt := trigger.createdMs
  secret := none

/-- The card of a thread's `label`-th run. -/
structure Card where
  label : Nat
  question : Option (MessageId × String)
  runId : RunId
  agentId : AgentId
  parent : Option RunId
  children : List RunId
  state : CardState
  outcome : Option String
  steps : UInt32
  modelCalls : UInt32
  createdAt : Option Timestamp
  startedAt : Option Timestamp
  endedAt : Option Timestamp
  deriving DecidableEq

/-- The runs that a log starts, once each and in the order started: a resumed run may log one twice. -/
def startedChildren (events : List Event) : List RunId :=
  events.foldl (fun children event => match event.payload with
    | .childStarted run _ _ => if run ∈ children then children else children ++ [run]
    | _ => children) []

def card (label : Nat) (run : StoredRun) : Card :=
  let state := fold run.spec run.events
  let at_ (wanted : EventPayload → Bool) : Option Timestamp :=
    (run.events.find? fun event => wanted event.payload).map fun event => event.envelope.at_
  { label := label
    question := openQuestionPrompt run.spec run.events
    runId := run.spec.runId
    agentId := run.spec.agentId
    parent := run.spec.lineage.parent
    children := startedChildren run.events
    state := .of state
    outcome := match state.dispatch with
      | .completed outcome => some outcome
      | _ => none
    steps := state.steps
    modelCalls := state.modelCalls
    createdAt := run.events.head?.map fun event => event.envelope.at_
    startedAt := at_ fun payload => payload = .runStarted
    endedAt := at_ isTerminal }

/-- The name of a run's Box, and of the volume it works in. -/
def boxContainerName (run : RunId) : String := "gol-box-" ++ run.uuid.toText

def boxWorkspaceVolume (run : RunId) : String := "gol-workspace-" ++ run.uuid.toText

def workspaceMount (run : RunId) : String := boxWorkspaceVolume run ++ ":/workspace"

/-- The container that a turn's tools run in: its image, who starts it, and how. -/
structure ComputerPlan where
  image : String
  startedBy : String
  command : String
  started : Bool
  name : String
  deriving DecidableEq

def boxCommand (name : String) (run : RunId) : String :=
  "docker create --name " ++ name ++ " -v " ++ workspaceMount run ++
    " --entrypoint /bin/sh gol-agent:production -c true && docker start -a " ++ name ++ " && docker rm -f " ++ name

def computerFor (placement : ExecutionPlacement) (run : RunId) (started : Bool) : ComputerPlan :=
  match placement with
  | .box =>
      { image := "gol-agent:production"
        startedBy := "server"
        command := boxCommand (boxContainerName run) run
        started := started
        name := boxContainerName run }
  | .«local» | .reverse =>
      { image := "gol-agent:local"
        startedBy := "desktop"
        command := "docker run --rm -d --name gol-agent-local -v " ++ workspaceMount run ++ " gol-agent:local"
        started := false
        name := "gol-agent-local" }

structure TurnBody where
  runId : RunId
  placement : ExecutionPlacement
  credentialMode : String
  userMessage : String
  completion : Option String
  computer : ComputerPlan
  deriving DecidableEq

/-- `TurnBody::from_outcome`. A Box's computer was started where its turn was provisioned on a host that launches
Docker. -/
def turnBody (launchesDocker : Bool) (outcome : TurnOutcome) : TurnBody where
  runId := outcome.spec.runId
  placement := outcome.spec.placement
  credentialMode := outcome.credentialMode
  userMessage := (outcome.events.findSome? fun event => match event.payload with
    | .userMessage text => some text
    | _ => none).getD outcome.spec.input
  completion := outcome.completion
  computer := computerFor outcome.spec.placement outcome.spec.runId (outcome.provisioned && launchesDocker)

/-- The body of a response. -/
inductive Body where
  | agent (manifest : AgentManifest)
  | run (state : RunState)
  | thread (id : String) (run : RunState)
  | answered (thread : String) (label : Nat) (run : RunId)
  | events (events : List Event)
  | agUi (items : List AgUi)
  | ui (input outcome : String)
  /-- 204, at a cursor on the run's terminal event. -/
  | streamEnded
  | stream (run : RunId) (after : Nat)
  /-- The caller's outbox, from where it resumes. -/
  | outbox (resume : Option Nat)
  | threads (threads : List ThreadSummary)
  | board (cards : List Card) (truncated : Bool)
  | replied (run : RunId)
  | cancelled (runs : List RunId)
  | stoppedAll (runs : List RunId) (pausedTriggers : Nat)
  | trigger (view : TriggerView)
  | triggers (views : List TriggerView)
  | deleted
  | queuedTurn (run : RunId) (placement : ExecutionPlacement)
  | turn (turn : TurnBody)
  | refused (text : String)
  | whichTask (waiting : List WaitingTask)
  deriving DecidableEq

structure Response where
  status : Nat
  body : Body
  deriving DecidableEq

/-- What a refused request is answered. -/
def HttpError.intoResponse : HttpError → Response
  | .whichTask waiting => ⟨409, .whichTask waiting⟩
  | error => ⟨error.status, .refused error.text⟩

/-! ### Steps -/

abbrev Handled := Prog RequestSig (Except HttpError Response)

/-- What comes after a step that can refuse. -/
def andThen {α β : Type} (p : Prog RequestSig (Except HttpError α)) (f : α → Prog RequestSig (Except HttpError β)) :
    Prog RequestSig (Except HttpError β) :=
  p.bind fun
    | .ok value => f value
    | .error error => .ret (.error error)

def refuse {α : Type} (error : ApiError) : Prog RequestSig (Except HttpError α) := .ret (.error (.api error))

def respondWith (status : Nat) (body : Body) : Handled := .ret (.ok ⟨status, body⟩)

abbrev respond (body : Body) : Handled := respondWith 200 body

def ofApi {α : Type} (p : Prog ServerSig (Except ApiError α)) : Prog RequestSig (Except HttpError α) :=
  (onServer p).bind fun result => .ret (result.mapError .api)

def ofTurn {α : Type} (p : Prog ServerSig (Except TurnError α)) : Prog RequestSig (Except HttpError α) :=
  (onServer p).bind fun result => .ret (result.mapError .turn)

namespace Http

/-! ### Runs -/

/-- The run read, if the caller owns it. A run another principal owns is reported exactly like a missing one. -/
def owned (owner : Owner) (read : Prog RequestSig (Except StoreError (Option StoredRun))) :
    Prog RequestSig (Except HttpError StoredRun) :=
  read.bind fun
    | .error error => refuse (.store error.message)
    | .ok found =>
        match found.filter fun run => run.spec.owner.is owner with
        | some run => .ret (.ok run)
        | none => refuse .notFound

def ownedRun (owner : Owner) (id : RunId) : Prog RequestSig (Except HttpError StoredRun) :=
  owned owner (.call (.server (.store (.run id))) .ret)

/-- Only its events after the first `after`, at most `limit`. -/
def ownedRunPage (owner : Owner) (id : RunId) (after limit : Nat) : Prog RequestSig (Except HttpError StoredRun) :=
  owned owner (.call (.runPage id after limit) .ret)

def getRun (owner : Owner) (id : RunId) : Handled :=
  andThen (ownedRun owner id) fun stored => respond (.run (fold stored.spec stored.events))

/-- The most events one page holds, and the page's size when the caller names none. -/
def eventsPageMax : Nat := 500

def getEvents (owner : Owner) (id : RunId) (after : Nat) (limit : Option Nat) : Handled :=
  let limit := limit.getD eventsPageMax
  if limit = 0 ∨ eventsPageMax < limit then refuse (.badRequest "limit must be between 1 and 500")
  else andThen (ownedRunPage owner id after limit) fun stored => respond (.events stored.events)

def getAgUi (owner : Owner) (id : RunId) : Handled :=
  andThen (ownedRun owner id) fun stored => respond (.agUi (agUiEvents stored.spec.runId stored.events))

/-- How a run came out. One that ended before its harness started is read from its dispatch. -/
def uiOutcome (state : RunState) : String :=
  match state.harness, state.dispatch with
  | .completed outcome, _ => outcome
  | _, .completed outcome => outcome
  | .failed _ message, _ => message
  | _, .failed _ message => message
  | .cancelled, _ => "cancelled"
  | _, .cancelled => "cancelled"
  | _, .expired => "expired"
  | _, _ => "running"

def getUi (owner : Owner) (id : RunId) : Handled :=
  andThen (ownedRun owner id) fun stored =>
  respond (.ui stored.spec.input (uiOutcome (fold stored.spec stored.events)))

/-- Opens a stream of one run's log, read at the cursor first. -/
def getRunStream (owner : Owner) (id : RunId) (resume : Option Nat) : Handled :=
  let resume := resume.getD 0
  andThen (ownedRunPage owner id (resume - 1) 1) fun page =>
  let opened : Handled := .call (.takeStream owner) fun (free : Bool) =>
    if free then respond (.stream id resume) else .ret (.error .tooManyStreams)
  if resume = 0 then opened else
  match page.events.head? with
  | some event => if isTerminal event.payload then respondWith 204 .streamEnded else opened
  | none => refuse (.badRequest "the cursor is past the run's log")

/-- Opens a stream of the caller's outbox, if the store keeps one. -/
def getStream (outbox : Bool) (owner : Owner) (resume : Option Nat) : Handled :=
  if !outbox then .ret (.error .noStreams) else
  .call (.takeStream owner) fun (free : Bool) =>
  if free then respond (.outbox resume) else .ret (.error .tooManyStreams)

def replyRun (owner : Owner) (id : RunId) (text : String) (question : Option MessageId) : Handled :=
  andThen (ownedRunPage owner id 0 1) fun _ =>
  andThen (ofApi (answerQuestion id text question)) fun _ => respond (.replied id)

def stopRun (owner : Owner) (id : RunId) : Handled :=
  andThen (ownedRunPage owner id 0 1) fun _ =>
  andThen (ofApi (Gol.stop owner (.run id))) fun cancelled => respond (.cancelled cancelled)

/-! ### New runs -/

/-- What a run and a coworker turn share. -/
structure SpecCore where
  agentId : AgentId
  agentVersion : String
  input : String
  placement : ExecutionPlacement
  workModel : WorkModel
  limits : Option Limits
  metadata : List (String × String)

/-- Every `gol.` key is the server's to set. -/
def ofServer (key : String) : Bool := key.startsWith "gol."

def buildSpec (owner : Owner) (id : RunId) (core : SpecCore) (capabilities : List Capability) :
    Except ApiError RunSpec :=
  let limits := core.limits.getD ⟨8, 4⟩
  let bounded (limit : UInt32) : Bool := 1 ≤ limit && limit ≤ maxLimit
  let keys := core.metadata.map Prod.fst
  if !bounded limits.maxSteps || !bounded limits.maxModelCalls then
    .error (.badRequest "limits must be between 1 and 64")
  else if turnKey ∈ keys then .error (.badRequest "gol.turn is set by the server")
  else if triggerKey ∈ keys then .error (.badRequest "gol.trigger is set by the server")
  else if keys.any ofServer then .error (.badRequest "gol. metadata is set by the server")
  else .ok
    { runId := id
      owner := owner
      agentId := core.agentId
      agentVersion := core.agentVersion
      input := core.input
      placement := core.placement
      workModel := core.workModel
      capabilities := capabilities
      limits := limits
      metadata := core.metadata
      lineage := .default }

/-- The caller's agent, if it is the caller's. -/
def ownedAgent (owner : Owner) (id : AgentId) : Prog RequestSig (Except HttpError StoredAgent) :=
  .call (.server (.outside (.agent id))) fun
    | .error error => refuse (.store error.message)
    | .ok found =>
        match found.filter fun agent => agent.owner.is owner with
        | some agent => .ret (.ok agent)
        | none => refuse .agentNotFound

def EnqueueError.asHttp : EnqueueError → HttpError
  | .queue error => .decider ("queue unavailable: " ++ error)
  | .store error => .api (.store error.message)
  | .push error | .held error => .decider error

def queueRun (spec : RunSpec) : Prog RequestSig (Except HttpError PutRun) :=
  (onServer (enqueue spec .request .endRun)).bind fun result => .ret (result.mapError EnqueueError.asHttp)

/-- Queues a run of one of the caller's agents under the new id `id`. -/
def startRun (owner : Owner) (id : RunId) (body : SpecCore) : Prog RequestSig (Except HttpError RunState) :=
  andThen (ownedAgent owner body.agentId) fun agent =>
  if agent.manifest.version ≠ body.agentVersion then
    refuse (.conflict "agent_version does not match the stored manifest")
  else
  match buildSpec owner id body agent.manifest.requiredCapabilities with
  | .error error => refuse error
  | .ok spec =>
      .call (.server (.outside .stamps)) fun stamps =>
      andThen (queueRun spec) fun _ => .ret (.ok (fold spec (queuedEvents spec stamps)))

def createRun (owner : Owner) (id : RunId) (body : SpecCore) : Handled :=
  andThen (startRun owner id body) fun state => respond (.run state)

/-- A background coworker turn: queued, and marked as a turn. -/
def backgroundTurn (owner : Owner) (id : RunId) (body : SpecCore) (capabilities : List Capability) : Handled :=
  if body.workModel.credential ≠ .platformGateway then
    refuse (.badRequest "a subscription turn cannot run in the background")
  else
  match buildSpec owner id body capabilities with
  | .error error => refuse error
  | .ok spec =>
      let marked := { spec with metadata := (turnKey, "1") :: spec.metadata }
      andThen (queueRun marked) fun _ => respondWith 202 (.queuedTurn id spec.placement)

/-- A quick coworker turn. -/
def createCoworkerTurn (launchesDocker : Bool) (owner : Owner) (id : RunId) (body : SpecCore)
    (capabilities : List Capability) :
    Handled :=
  match buildSpec owner id body capabilities with
  | .error error => refuse error
  | .ok spec => andThen (ofTurn (openTurn spec)) fun outcome => respond (.turn (turnBody launchesDocker outcome))

def completeCoworkerTurn (launchesDocker : Bool) (owner : Owner) (id : RunId) (text : String) : Handled :=
  andThen (ownedRun owner id) fun _ =>
  andThen (ofTurn (acceptSubscriptionCompletion id text)) fun outcome =>
    respond (.turn (turnBody launchesDocker outcome))

def failCoworkerTurn (launchesDocker : Bool) (owner : Owner) (id : RunId) (message : String) : Handled :=
  andThen (ownedRun owner id) fun _ =>
  andThen (ofTurn (failTurn id message)) fun outcome => respond (.turn (turnBody launchesDocker outcome))

def createAgent (owner : Owner) (manifest : AgentManifest) : Handled :=
  .call (.putAgent ⟨manifest, owner⟩) fun
    | .error error => refuse (.store error.message)
    | .ok .stored => respond (.agent manifest)
    | .ok .ownedByOther => refuse (.conflict "agent belongs to another principal")

/-! ### Threads -/

/-- A read of the store's threads, which a store may not keep. -/
def readThreads (c : ThreadCall) : Prog RequestSig (Except HttpError c.Value) :=
  .call (.threads c) fun
    | none => .ret (.error .noThreads)
    | some (.error error) => refuse (.store error.message)
    | some (.ok value) => .ret (.ok value)

/-- Starts a thread: a coordinator run in the new session `thread`. -/
def createThread (owner : Owner) (id : RunId) (thread : String) (body : SpecCore) : Handled :=
  if sessionId ∈ body.metadata.map Prod.fst then refuse (.badRequest "a thread's session is the server's to choose")
  else
  andThen (startRun owner id { body with metadata := (sessionId, thread) :: body.metadata }) fun state =>
  respond (.thread thread state)

/-- The most runs a board reads for one thread. -/
def boardRuns : Nat := 1000

/-- The most threads, or cards, in a page. -/
def pageMax : Nat := 50

def pageBounds (after limit : Option Nat) : Except ApiError (Nat × Nat) :=
  let limit := limit.getD pageMax
  if limit = 0 ∨ pageMax < limit then .error (.badRequest "limit must be between 1 and 50")
  else .ok (after.getD 0, limit)

/-- The next coordinator run of a thread, like its first but for the markers that are the server's to set. -/
def followUpBody (root : RunSpec) (version input : String) (limits : Option Limits) : SpecCore where
  agentId := root.agentId
  agentVersion := version
  input := input
  placement := root.placement
  workModel := root.workModel
  limits := some (limits.getD root.limits)
  metadata := root.metadata.filter fun entry => !ofServer entry.1

/-- A message to a thread: the answer to a task of it that waits on the user, else its next coordinator run. -/
def followUp (owner : Owner) (id : RunId) (thread input : String) (limits : Option Limits) : Handled :=
  andThen (readThreads (.root owner thread)) fun (root : Option RunSpec) =>
  match root with
  | none => .ret (.error .threadNotFound)
  | some root =>
      .call (.server (.outside (.agent root.agentId))) fun
        | .error error => refuse (.store error.message)
        | .ok (agent : Option StoredAgent) =>
            andThen (readThreads (.runs owner thread boardRuns)) fun (runs : List StoredRun) =>
            if waitingOnUser runs = [] then
              match agent.filter fun agent => agent.owner.is owner with
              | none => refuse .agentNotFound
              | some agent =>
                  andThen (startRun owner id (followUpBody root agent.manifest.version input limits)) fun state =>
                  respond (.thread thread state)
            else
            match whichTask (waitingOnUser runs) input with
            | .error waiting => .ret (.error (.whichTask waiting))
            | .ok (task, text) =>
                if limits.isSome then refuse (.badRequest "an answer takes no limits: they are for a follow-up")
                else
                andThen (ofApi (answerQuestion task.runId text (some task.questionId))) fun _ =>
                respond (.answered thread task.label task.runId)

def listThreads (owner : Owner) (after limit : Option Nat) : Handled :=
  match pageBounds after limit with
  | .error error => refuse error
  | .ok (after, limit) =>
      andThen (readThreads (.list owner after limit)) fun (threads : List ThreadSummary) => respond (.threads threads)

/-- A page of a thread's cards, oldest first, of one state if one is wanted. -/
def boardCards (runs : List StoredRun) (wanted : Option CardState) (after limit : Nat) : List Card :=
  let cards := runs.zipIdx.map fun (run, at_) => card (at_ + 1) run
  match wanted with
  | none => (cards.drop after).take limit
  | some wanted => ((cards.filter fun card => card.state = wanted).drop after).take limit

def getBoard (owner : Owner) (thread : String) (after limit : Option Nat) (wanted : Option CardState) : Handled :=
  match pageBounds after limit with
  | .error error => refuse error
  | .ok (after, limit) =>
      andThen (readThreads (.runs owner thread (boardRuns + 1))) fun (runs : List StoredRun) =>
      if runs = [] then .ret (.error .threadNotFound)
      else respond (.board (boardCards (runs.take boardRuns) wanted after limit) (boardRuns < runs.length))

/-- Stops a thread that is the caller's: one with a root, or with open runs that a stop of it reads through their
spec. -/
def stopThread (owner : Owner) (thread : String) : Handled :=
  andThen (readThreads (.root owner thread)) fun (root : Option RunSpec) =>
  let stopped : Handled :=
    andThen (ofApi (Gol.stop owner (.thread thread))) fun cancelled => respond (.cancelled cancelled)
  if root.isSome then stopped else
  .call (.server (.control (.openRunsUnder owner (.thread thread)))) fun
    | some (.ok (runs : List StoredRun)) => if runs = [] then .ret (.error .threadNotFound) else stopped
    | some (.error error) => refuse (.store error.message)
    | none => .ret (.error .threadNotFound)

def stopOwner (owner : Owner) : Handled :=
  andThen (ofApi (Gol.stopOwner owner)) fun (stopped : List RunId × Nat) => respond (.stoppedAll stopped.1 stopped.2)

/-! ### Triggers -/

/-- The server's clock arithmetic, and the secrets its webhook key gives. -/
structure TriggerConfig where
  nextTick : NextTick
  /-- None without a webhook key. -/
  secretOf : Option (TriggerId → UInt32 → String)

/-- The secret of a webhook trigger. -/
def TriggerConfig.secret (config : TriggerConfig) (trigger : StoredTrigger) : Option String :=
  match trigger.kind with
  | .webhook rotation => config.secretOf.map fun secretOf => secretOf trigger.id rotation
  | .schedule _ _ => none

def TriggerConfig.withSecret (config : TriggerConfig) (trigger : StoredTrigger) : TriggerView :=
  { triggerView trigger with secret := config.secret trigger }

def createTrigger (config : TriggerConfig) (new : StoredTrigger) : Handled :=
  match new.kind, config.secretOf with
  | .webhook _, none => .ret (.error (.unavailable "webhooks are not available"))
  | _, _ => andThen (ofApi (Gol.createTrigger config.nextTick new)) fun trigger =>
      respondWith 201 (.trigger (config.withSecret trigger))

def listTriggers (owner : Owner) : Handled :=
  .call (.triggersOf owner) fun
    | none => refuse .noTriggers
    | some (.error error) => refuse (.store error.message)
    | some (.ok triggers) => respond (.triggers (triggers.map triggerView))

def pauseTrigger (owner : Owner) (id : TriggerId) : Handled :=
  andThen (ofApi (Gol.pauseTrigger owner id)) fun trigger => respond (.trigger (triggerView trigger))

def resumeTrigger (config : TriggerConfig) (owner : Owner) (id : TriggerId) : Handled :=
  andThen (ofApi (Gol.resumeTrigger config.nextTick owner id)) fun trigger => respond (.trigger (triggerView trigger))

/-- A webhook trigger's new secret; the old one no longer checks. -/
def rotateTrigger (config : TriggerConfig) (owner : Owner) (id : TriggerId) : Handled :=
  if config.secretOf.isNone then .ret (.error (.unavailable "webhooks are not available")) else
  .call (.server (.control (.trigger owner id))) fun
    | none => refuse .noTriggers
    | some (.error error) => refuse (.store error.message)
    | some (.ok none) => refuse .triggerNotFound
    | some (.ok (some trigger)) =>
        match trigger.kind with
        | .schedule _ _ => refuse (.conflict "only a webhook trigger has a secret")
        | .webhook _ =>
            .call (.rotateWebhook owner id) fun
              | none => refuse .noTriggers
              | some (.error error) => refuse (.store error.message)
              | some (.ok none) => refuse (.conflict "the secret cannot be rotated again")
              | some (.ok (some rotated)) => respond (.trigger (config.withSecret rotated))

def deleteTrigger (owner : Owner) (id : TriggerId) : Handled :=
  andThen (ofApi (removeTrigger owner id)) fun gone =>
    if gone then respondWith 204 .deleted else refuse .triggerNotFound

/-- The kind of a new trigger: a webhook starts at its first secret. -/
def newKind : TriggerKind → TriggerKind
  | .webhook _ => .webhook 0
  | kind => kind

/-! ### Requests -/

/-- A request, with the ids drawn for it. A turn names its own capabilities. -/
inductive Request where
  | createAgent (manifest : AgentManifest)
  | createRun (id : RunId) (body : SpecCore)
  | createThread (id : RunId) (thread : String) (body : SpecCore)
  | followUp (id : RunId) (thread input : String) (limits : Option Limits)
  | backgroundTurn (id : RunId) (body : SpecCore) (capabilities : List Capability)
  | quickTurn (id : RunId) (body : SpecCore) (capabilities : List Capability)
  | completeTurn (id : RunId) (text : String)
  | failTurn (id : RunId) (message : String)
  | getRun (id : RunId)
  | getEvents (id : RunId) (after : Nat) (limit : Option Nat)
  | getAgUi (id : RunId)
  | getUi (id : RunId)
  | getRunStream (id : RunId) (resume : Option Nat)
  | getStream (resume : Option Nat)
  | replyRun (id : RunId) (text : String) (question : Option MessageId)
  | stopRun (id : RunId)
  | stopThread (thread : String)
  | stopOwner
  | listThreads (after limit : Option Nat)
  | getBoard (thread : String) (after limit : Option Nat) (wanted : Option CardState)
  | createTrigger (new : StoredTrigger)
  | listTriggers
  | pauseTrigger (id : TriggerId)
  | resumeTrigger (id : TriggerId)
  | rotateTrigger (id : TriggerId)
  | deleteTrigger (id : TriggerId)

/-- What the server was started with. -/
structure HttpConfig where
  triggers : TriggerConfig
  /-- The store keeps an outbox. -/
  outbox : Bool
  /-- The sandbox host launches Docker. -/
  launchesDocker : Bool

/-- What the router runs for a request of `owner`. A new trigger is its caller's. -/
def handler (config : HttpConfig) (owner : Owner) : Request → Handled
  | .createAgent manifest => createAgent owner manifest
  | .createRun id body => createRun owner id body
  | .createThread id thread body => createThread owner id thread body
  | .followUp id thread input limits => followUp owner id thread input limits
  | .backgroundTurn id body capabilities => backgroundTurn owner id body capabilities
  | .quickTurn id body capabilities => createCoworkerTurn config.launchesDocker owner id body capabilities
  | .completeTurn id text => completeCoworkerTurn config.launchesDocker owner id text
  | .failTurn id message => failCoworkerTurn config.launchesDocker owner id message
  | .getRun id => getRun owner id
  | .getEvents id after limit => getEvents owner id after limit
  | .getAgUi id => getAgUi owner id
  | .getUi id => getUi owner id
  | .getRunStream id resume => getRunStream owner id resume
  | .getStream resume => getStream config.outbox owner resume
  | .replyRun id text question => replyRun owner id text question
  | .stopRun id => stopRun owner id
  | .stopThread thread => stopThread owner thread
  | .stopOwner => stopOwner owner
  | .listThreads after limit => listThreads owner after limit
  | .getBoard thread after limit wanted => getBoard owner thread after limit wanted
  | .createTrigger new => createTrigger config.triggers { new with owner := owner, kind := newKind new.kind }
  | .listTriggers => listTriggers owner
  | .pauseTrigger id => pauseTrigger owner id
  | .resumeTrigger id => resumeTrigger config.triggers owner id
  | .rotateTrigger id => rotateTrigger config.triggers owner id
  | .deleteTrigger id => deleteTrigger owner id

/-- A request's response, a refusal's too. -/
def serve (config : HttpConfig) (owner : Owner) (request : Request) : Prog RequestSig Response :=
  (handler config owner request).bind fun
    | .ok response => .ret response
    | .error error => .ret error.intoResponse

end Http

end Gol
