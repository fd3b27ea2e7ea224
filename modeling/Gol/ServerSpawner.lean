import Gol.LibraryText
import Gol.ProtocolAuthorize
import Gol.ServerCalls

/-! Starting runs on the queue and answering asks (`spawner.rs`, `deliverer.rs`): `enqueue` pends a run, stores it
and pushes it; `settleFire` settles a trigger's run; `enqueueChild` carries out a delegation or a message's task;
`deliver` appends an answer to the run that asked and wakes it. -/

namespace Gol
open Library

/-! ### Producers -/

inductive EnqueueError where
  | queue (error : String)
  | store (error : StoreError)
  | push (error : String)
  | held (reason : String)
  deriving DecidableEq

inductive OnPushFailure where
  | endRun
  | leaveToSweep
  deriving DecidableEq

/-- `end`: a failed append goes to stderr. -/
def endRun (spec : RunSpec) (message : String) : Prog ServerSig Unit :=
  .call (.outside .stamps) fun stamps =>
  .call (.store (.appendEvents spec.runId [runFailedEvent spec stamps .infrastructure message] .producer)) fun _ =>
    .ret ()

/-- Queues `spec` as a new run, pending before it is stored. Its events' ids and times are drawn first. -/
def enqueue (spec : RunSpec) (origin : Origin) (onPushFailure : OnPushFailure) :
    Prog ServerSig (Except EnqueueError PutRun) :=
  .call (.outside .stamps) fun stamps =>
  .call (.queue (.pend spec.runId)) fun
    | .error error => .ret (.error (.queue error))
    | .ok _ =>
        .call (.store (.putRun ⟨spec, queuedEvents spec stamps⟩ origin)) fun
          -- The put may have committed before it failed: the run is ended in case it did.
          | .error error => (endRun spec "store unavailable").bind fun _ => .ret (.error (.store error))
          | .ok .existed => .ret (.ok .existed)
          | .ok .stored =>
              .call (.queue (.push spec.runId)) fun
                | .ok _ => .ret (.ok .stored)
                | .error error =>
                    match onPushFailure with
                    | .endRun =>
                        (endRun spec ("queue push failed: " ++ error)).bind fun _ => .ret (.error (.push error))
                    | .leaveToSweep => .ret (.ok .stored)

/-- What a fire did: queued a run, or nothing. -/
inductive Fired where
  | run (id : RunId)
  | paused
  | notFound
  | agentNotFound
  | moved
  deriving DecidableEq

/-- What a fire's gate says of its stored, waiting run, just before the push. A shut gate says why, which the source
keeps in a cell beside it. -/
inductive Gate where
  | open
  | shut (why : Option Fired)
  | unknown (reason : String)
  deriving DecidableEq

inductive Fire where
  | pushed
  | held (why : Option Fired)
  | found
  deriving DecidableEq

/-- Settles a trigger's stored run: one past waiting is left, off pending; a waiting one is gated just before its
push. -/
def settleFire (spec : RunSpec) (key : Option FireGate) (gate : Prog ServerSig Gate) :
    Prog ServerSig (Except EnqueueError Fire) :=
  .call (.store (.run spec.runId)) fun
    | .error error => .ret (.error (.store error))
    | .ok loaded =>
        let events := (loaded.map StoredRun.events).getD []
        if !stillWaiting events then
          .call (.queue (.unpend spec.runId (loaded.map StoredRun.events))) fun
            | .error error => .ret (.error (.queue error))
            | .ok _ => .ret (.ok .found)
        else
        gate.bind fun
          | .open =>
              .call (.queue (.pushOnce spec.runId key)) fun
                | .error error => .ret (.error (.push error))
                | .ok true => .ret (.ok .pushed)
                | .ok false => .ret (.ok .found)
          | .shut why =>
              .call (.outside .stamps) fun stamps =>
              .call (.store (.appendEvents spec.runId [runCancelledEvent spec stamps] .settle)) fun
                | .ok .appended | .ok .terminal =>
                    .call (.queue (.unpend spec.runId (some events))) fun _ => .ret (.ok (.held why))
                | .ok .missing | .ok .moved => .ret (.error (.held "a held run was not stored to cancel"))
                | .error error => .ret (.error (.held error.message))
          | .unknown reason => .ret (.error (.held reason))

/-- Stores a trigger's fire, pending first, then settles it. A failed store ends nothing. -/
def enqueueFire (spec : RunSpec) (key : Option FireGate) (gate : Prog ServerSig Gate) :
    Prog ServerSig (Except EnqueueError Fire) :=
  .call (.outside .stamps) fun stamps =>
  .call (.queue (.pend spec.runId)) fun
    | .error error => .ret (.error (.queue error))
    | .ok _ =>
        .call (.store (.putRun ⟨spec, queuedEvents spec stamps⟩ .fire)) fun
          | .error error => .ret (.error (.store error))
          | .ok _ => settleFire spec key gate

/-! ### Children -/

/-- What a child's id is derived from. -/
structure ChildName where
  root : RunId
  parent : RunId
  step : UInt32
  agentId : AgentId
  input : String
  deriving DecidableEq

/-- The child of `parent` that `request` asks for, a run of `agent`; `v5` derives its id. -/
def childOf (v5 : ChildName → Uuid) (request : ChildRequest) (agent : AgentManifest) : RunSpec where
  runId := ⟨v5 ⟨request.parent.root, request.parent.runId, request.step, agent.id, request.input⟩⟩
  owner := request.parent.owner
  agentId := agent.id
  agentVersion := agent.version
  input := request.input
  placement := request.parent.placement
  workModel := request.parent.workModel
  capabilities := agent.requiredCapabilities.filter fun capability => capability ∈ request.parent.capabilities
  limits := request.limits
  metadata := (request.parent.metadataGet sessionId).toList.map fun session => (sessionId, session)
  lineage := ⟨some request.parent.runId, some request.parent.root, saturatingAdd request.parent.lineage.hop 1⟩

/-- The agent must be one the parent's owner holds. -/
def childOfAgent (v5 : ChildName → Uuid) (request : ChildRequest) : Prog ServerSig (Except String RunSpec) :=
  .call (.outside (.agent request.agentId)) fun
    | .ok none => .ret (.error "no such agent")
    | .error _ => .ret (.error "store unavailable")
    | .ok (some agent) =>
        if !agent.owner.is request.parent.owner then .ret (.error "agent belongs to another owner")
        else .ret (.ok (childOf v5 request agent.manifest))

/-- No new work under a stopped run. -/
def childSpec (v5 : ChildName → Uuid) (request : ChildRequest) : Prog ServerSig (Except String RunSpec) :=
  .call (.control (.stopped request.parent.runId)) fun
    | some (.ok true) => .ret (.error "the chain is stopped")
    | some (.error _) => .ret (.error "store unavailable")
    | _ => childOfAgent v5 request

/-- Whether a stored log ended before a worker ever scheduled it. -/
def neverRan (events : List Event) : Bool :=
  hasEnded events && !events.any fun event => event.payload = .runScheduled

/-- After a put found the run stored and pended it again: off pending if it is queued, claimed or past waiting. A
queue that cannot say leaves it. -/
def settleExisting (id : RunId) (events : List Event) : Prog ServerSig Unit :=
  if !stillWaiting events then .call (.queue (.unpend id (some events))) fun _ => .ret ()
  else
    .call (.queue (.queuedOrClaimed id)) fun
      | .ok true => .call (.queue (.unpend id (some events))) fun _ => .ret ()
      | _ => .ret ()

def EnqueueError.reason : EnqueueError → String
  | .queue _ => "queue unavailable"
  | .store _ => "store unavailable"
  | .push _ => "queue push failed"
  | .held _ => "held"

/-- Stores and queues `spec`, a child asked for at its parent's log `asked`, once. -/
def enqueueChild (spec : RunSpec) (asked : List Event) : Prog ServerSig (Except String StartedChild) :=
  (enqueue spec (.child asked) .leaveToSweep).bind fun
    | .ok .stored => .ret (.ok ⟨spec.runId, spec.limits⟩)
    -- Asked for before: the same child, with the limits it was stored with.
    | .ok .existed =>
        .call (.store (.run spec.runId)) fun
          | .ok (some child) =>
              if neverRan child.events then
                .call (.queue (.unpend spec.runId (some child.events))) fun _ =>
                .ret (.error "the child could not be started")
              else
                (settleExisting spec.runId child.events).bind fun _ => .ret (.ok ⟨spec.runId, child.spec.limits⟩)
          | .ok none => .ret (.error "store unavailable")
          | .error _ => .ret (.error "store unavailable")
    | .error error => .ret (.error error.reason)

/-- `OwnedSpawner::start`. -/
def startChild (v5 : ChildName → Uuid) (request : ChildRequest) (asked : List Event) :
    Prog ServerSig (Except String StartedChild) :=
  (childSpec v5 request).bind fun
    | .error reason => .ret (.error reason)
    | .ok spec => enqueueChild spec asked

/-! ### Asks -/

/-- Where an ask stands in its asker's log. -/
inductive AskState where
  | unsent
  | open
  | answered
  deriving DecidableEq

def askStep (ask : MessageId) (state : AskState) (event : Event) : AskState :=
  match event.payload with
  | .messageSent messageId _ _ => if messageId = ask then .open else state
  | .userAsked messageId _ => if messageId = ask then .open else state
  | .messageReceived _ _ _ _ (some replyTo) => if replyTo = ask ∧ state = .open then .answered else state
  | .askTimedOut messageId => if messageId = ask ∧ state = .open then .answered else state
  | .userAnswered messageId _ => if messageId = ask ∧ state = .open then .answered else state
  | _ => state

/-- Where `ask` stands in `events`: an answer before the ask does not count. -/
def askState (events : List Event) (ask : MessageId) : AskState := events.foldl (askStep ask) .unsent

/-- The question to the user the run waits on, if its log has not ended. -/
def openQuestion (spec : RunSpec) (events : List Event) : Option MessageId :=
  if hasEnded events then none else
  match (fold spec events).harness with
  | .waitingForMessage _ _ messageId =>
      if events.any fun event => match event.payload with
        | .userAsked asked _ => asked = messageId
        | _ => false
      then some messageId else none
  | _ => none

def isUserQuestion (events : List Event) (ask : MessageId) : Bool :=
  events.any fun event => match event.payload with
    | .userAsked messageId _ => messageId = ask
    | _ => false

inductive IfUnsent where
  | leave
  | close
  deriving DecidableEq

/-- Marks the ask answered, then wakes the asker if it is parked on it. A failure is left to the sweep. -/
def settleAsk (asker : RunId) (ask : MessageId) : Prog ServerSig (Except String Bool) :=
  .call (.outside (.answer ask)) fun _ => .call (.queue (.wake asker ask)) fun _ => .ret (.ok true)

/-- Delivers `answer` to the run that asked: appended to its log while the ask is open there, then the ask settled. -/
def deliver (asker : RunId) (ask : MessageId) (answer : EventPayload) (ifUnsent : IfUnsent) :
    Prog ServerSig (Except String Bool) :=
  .call (.store (.run asker)) fun
    | .error error => .ret (.error error.message)
    | .ok none => settleAsk asker ask
    | .ok (some run) =>
        if hasEnded run.events then settleAsk asker ask else
        match askState run.events ask with
        | .unsent => if ifUnsent = .leave then .ret (.ok false) else settleAsk asker ask
        | .answered => settleAsk asker ask
        | .open =>
            .call (.outside .stamps) fun stamps =>
            .call (.store (.appendEvents asker [systemEvent run.spec (stamps 0) answer] .delivery)) fun
              | .ok .appended | .ok .terminal | .ok .missing => settleAsk asker ask
              | .ok .moved => .ret (.error "Moved")
              | .error error => .ret (.error error.message)

/-- `body` cut to at most `maxMessageBytes`, at a character boundary. -/
def capped (body : String) : String := String.ofList (cappedChars maxMessageBytes body.toList)

/-- The last non-blank assistant response of a log. -/
def responded (events : List Event) : Option String :=
  events.reverse.findSome? fun event => match event.payload with
    | .modelResponded message _ =>
        if message.role = .assistant ∧ !message.text.toList.all isWhiteSpace then some message.text else none
    | _ => none

/-- The reply a task gives its ask when it ends, under the id `messageId`; none while it runs. -/
def taskAnswer (task : RunId) (agent : AgentId) (ask messageId : MessageId) (events : List Event) :
    Option EventPayload :=
  let body := events.reverse.findSome? fun event => match event.payload with
    | .runCompleted outcome => some ((responded events).getD outcome)
    | .runFailed _ message => some ("the task failed: " ++ message)
    | .runCancelled => some "the task was cancelled"
    | .runExpired => some "the task expired"
    | _ => none
  body.map fun body => .messageReceived messageId agent task (capped body) (some ask)

/-! ### Messages -/

/-- The step a message's task is derived from: the decision with the high bit set. -/
def taskStep (decision : UInt32) : UInt32 := decision ||| ((1 : UInt32) <<< 31)

/-- `OwnedDeliverer::put`: stores a message once for its run and decision. -/
def putMessage (message : StoredMessage) : Prog ServerSig (Except String MessageId) :=
  .call (.outside (.putMessage message)) fun
    | .ok .stored => .ret (.ok message.id)
    | .ok (.existed stored) =>
        if stored.toAgent = message.toAgent ∧ stored.body = message.body ∧
            stored.expectsReply = message.expectsReply ∧ stored.replyTo = message.replyTo ∧
            stored.taskRun = message.taskRun ∧ stored.timeoutSecs = message.timeoutSecs then
          .ret (.ok stored.id)
        else .ret (.error "another message was sent at this decision")
    | .error _ => .ret (.error "store unavailable")

/-- A reply to the open ask whose task is the sending run. -/
def reply (request : MessageRequest) : Prog ServerSig (Except String SentMessage) :=
  .call (.outside (.askOfTask request.from.runId)) fun
    | .error _ => .ret (.error "store unavailable")
    | .ok none => .ret (.error "not a reply to an ask this run was sent")
    | .ok (some ask) =>
        if some ask.id ≠ request.replyTo ∨ ask.fromAgent ≠ request.toAgent then
          .ret (.error "not a reply to an ask this run was sent")
        else
        .call (.outside .stamps) fun stamps =>
        (putMessage ⟨(stamps 0).messageId, request.from.owner, request.from.runId, request.from.agentId,
          request.decision, ask.fromAgent, request.body, false, some ask.id, none, none, none,
          request.from.lineage.hop⟩).bind fun
          | .error reason => .ret (.error reason)
          | .ok messageId =>
              (deliver ask.fromRun ask.id
                (.messageReceived messageId request.from.agentId request.from.runId request.body (some ask.id))
                .leave).bind fun
                | .ok true => .ret (.ok ⟨messageId, none⟩)
                | .ok false => .ret (.error "the asker has not logged the ask yet")
                | .error _ => .ret (.error "store unavailable")

/-- `OwnedDeliverer::send`: a tell or a new ask is stored, then its task is started; a reply answers its ask. -/
def send (v5 : ChildName → Uuid) (request : MessageRequest) (asked : List Event) :
    Prog ServerSig (Except String SentMessage) :=
  match request.limits with
  | none => reply request
  | some limits =>
      if maxDelegationHops ≤ request.from.lineage.hop then
        .ret (.error s!"messaging is already {maxDelegationHops} hops deep")
      else
      (childSpec v5 ⟨request.from, taskStep request.decision, request.toAgent, request.body, limits⟩).bind fun
        | .error reason => .ret (.error reason)
        | .ok task =>
            .call (.outside .stamps) fun stamps =>
            let deadline := request.timeoutSecs.map fun seconds =>
              min ((stamps 0).now + (seconds.toNat : Int) * 1000) (2 ^ 63 - 1)
            (putMessage ⟨(stamps 0).messageId, request.from.owner, request.from.runId, request.from.agentId,
              request.decision, request.toAgent, request.body, request.expectsReply, request.replyTo,
              some task.runId, deadline, request.timeoutSecs, request.from.lineage.hop⟩).bind fun
              | .error reason => .ret (.error reason)
              | .ok messageId =>
                  (enqueueChild task asked).bind fun
                    | .error reason => .ret (.error reason)
                    | .ok child => .ret (.ok ⟨messageId, some child⟩)

/-! ### What these programs call -/

/-- The calls that start a child or deliver an answer: they put a run as its producer stores it, and append one event
to the log of another run. -/
def IsAside : ServerCall → Prop
  | .store (.putRun run _) => ∃ stamps, run.events = queuedEvents run.spec stamps
  | .store (.appendEvents _ batch party) => (∃ event, batch = [event]) ∧ (party = .producer ∨ party = .delivery)
  | .store (.appendEventsAfter _ _ _ _) => False
  | .queue (.claim _) | .queue (.start _ _) | .queue (.release _ _) | .queue (.park _ _ _) | .queue (.renew _ _)
  | .queue (.ack _ _) => False
  | .host _ | .gateway _ _ | .outside (.harness _) => False
  | _ => True

/-- Such a call that stores no run. -/
def StoresNone : ServerCall → Prop
  | .store (.putRun _ _) => False
  | c => IsAside c

theorem StoresNone.isAside {c : ServerCall} (h : StoresNone c) : IsAside c := by
  cases c with
  | store c =>
      cases c with
      | putRun run origin => exact h.elim
      | _ => exact h
  | _ => exact h

theorem Library.Prog.Only.isAside {α : Type} {p : Prog ServerSig α} (h : p.Only StoresNone) : p.Only IsAside :=
  h.mono fun _ => StoresNone.isAside

theorem only_endRun (spec : RunSpec) (message : String) : (endRun spec message).Only StoresNone :=
  ⟨trivial, fun _ => ⟨⟨⟨_, rfl⟩, .inl rfl⟩, fun _ => trivial⟩⟩

theorem only_enqueue (spec : RunSpec) (origin : Origin) (onPushFailure : OnPushFailure) :
    (enqueue spec origin onPushFailure).Only IsAside := by
  refine ⟨trivial, fun stamps => ⟨trivial, fun pended => ?_⟩⟩
  cases pended with
  | error error => trivial
  | ok _ =>
      refine ⟨⟨stamps, rfl⟩, fun put => ?_⟩
      rcases put with error | (_ | _)
      · exact (only_endRun _ _).isAside.bind fun _ => trivial
      · refine ⟨trivial, fun pushed => ?_⟩
        cases pushed with
        | ok _ => trivial
        | error error =>
            cases onPushFailure with
            | endRun => exact (only_endRun _ _).isAside.bind fun _ => trivial
            | leaveToSweep => trivial
      · trivial

theorem only_childOfAgent (v5 : ChildName → Uuid) (request : ChildRequest) :
    (childOfAgent v5 request).Only StoresNone := by
  refine ⟨trivial, fun found => ?_⟩
  rcases found with _ | (_ | agent)
  · trivial
  · trivial
  · dsimp only
    split <;> trivial

theorem only_childSpec (v5 : ChildName → Uuid) (request : ChildRequest) :
    (childSpec v5 request).Only StoresNone := by
  refine ⟨trivial, fun stops => ?_⟩
  rcases stops with _ | (_ | (_ | _))
  · exact only_childOfAgent v5 request
  · trivial
  · exact only_childOfAgent v5 request
  · trivial

theorem only_settleExisting (id : RunId) (events : List Event) :
    (settleExisting id events).Only StoresNone := by
  unfold settleExisting
  split
  · exact ⟨trivial, fun _ => trivial⟩
  · refine ⟨trivial, fun found => ?_⟩
    rcases found with _ | (_ | _)
    · trivial
    · trivial
    · exact ⟨trivial, fun _ => trivial⟩

theorem only_enqueueChild (spec : RunSpec) (asked : List Event) : (enqueueChild spec asked).Only IsAside := by
  refine (only_enqueue spec _ _).bind fun result => ?_
  rcases result with error | (_ | _)
  · trivial
  · trivial
  · refine ⟨trivial, fun loaded => ?_⟩
    rcases loaded with _ | (_ | child)
    · trivial
    · trivial
    · dsimp only
      split
      · exact ⟨trivial, fun _ => trivial⟩
      · exact (only_settleExisting _ _).isAside.bind fun _ => trivial

theorem only_startChild (v5 : ChildName → Uuid) (request : ChildRequest) (asked : List Event) :
    (startChild v5 request asked).Only IsAside := by
  refine (only_childSpec v5 request).isAside.bind fun found => ?_
  cases found with
  | error reason => trivial
  | ok spec => exact only_enqueueChild spec asked

theorem only_settleAsk (asker : RunId) (ask : MessageId) : (settleAsk asker ask).Only StoresNone :=
  ⟨trivial, fun _ => ⟨trivial, fun _ => trivial⟩⟩

theorem only_deliver (asker : RunId) (ask : MessageId) (answer : EventPayload) (ifUnsent : IfUnsent) :
    (deliver asker ask answer ifUnsent).Only StoresNone := by
  have hsettle := only_settleAsk asker ask
  refine ⟨trivial, fun loaded => ?_⟩
  rcases loaded with _ | (_ | run)
  · trivial
  · exact hsettle
  · dsimp only
    split
    · exact hsettle
    · split
      · split
        · trivial
        · exact hsettle
      · exact hsettle
      · refine ⟨trivial, fun stamps => ⟨⟨⟨_, rfl⟩, .inr rfl⟩, fun done => ?_⟩⟩
        rcases done with _ | (_ | _ | _ | _)
        · trivial
        · exact hsettle
        · exact hsettle
        · exact hsettle
        · trivial

theorem only_putMessage (message : StoredMessage) : (putMessage message).Only StoresNone := by
  refine ⟨trivial, fun put => ?_⟩
  rcases put with _ | (_ | stored)
  · trivial
  · trivial
  · dsimp only
    split <;> trivial

theorem only_reply (request : MessageRequest) : (reply request).Only StoresNone := by
  refine ⟨trivial, fun found => ?_⟩
  rcases found with _ | (_ | ask)
  · trivial
  · trivial
  · dsimp only
    split
    · trivial
    · refine ⟨trivial, fun stamps => (only_putMessage _).bind fun put => ?_⟩
      cases put with
      | error reason => trivial
      | ok messageId =>
          refine (only_deliver _ _ _ _).bind fun delivered => ?_
          rcases delivered with _ | (_ | _) <;> trivial

theorem only_send (v5 : ChildName → Uuid) (request : MessageRequest) (asked : List Event) :
    (send v5 request asked).Only IsAside := by
  unfold send
  split
  · exact (only_reply request).isAside
  · split
    · trivial
    · refine (only_childSpec _ _).isAside.bind fun found => ?_
      cases found with
      | error reason => trivial
      | ok task =>
          refine ⟨trivial, fun stamps => (only_putMessage _).isAside.bind fun put => ?_⟩
          cases put with
          | error reason => trivial
          | ok messageId =>
              refine (only_enqueueChild _ _).bind fun started => ?_
              cases started <;> trivial

end Gol
