import Gol.ServerSpawner

/-! The queue worker (`worker.rs`, and `finish_turn` of `inference.rs`). `workOne` claims a run, prepares it, runs
it from its stored log and stores it as it goes, records what that came to, and acknowledges, parks or releases it.
A worker's heartbeat renews its lease, which answers and changes nothing here, so it is left out; so are the run ids
in the texts that only go to stderr. -/

namespace Gol
open Library

structure Worker where
  maxDeliveries : Nat
  /-- A messages store is set: without one its runs send no messages. -/
  messages : Bool
  /-- A tool catalog is set. -/
  catalog : Bool
  /-- Whether a client for the worker's Jev URL builds. -/
  jevClient : Except String Unit
  v5 : ChildName → Uuid

/-- A worker with nothing but a decider. -/
def Worker.plain : Worker := ⟨5, false, false, .ok (), fun _ => 0⟩

/-- Why `runFrom` stopped. -/
inductive Stopped where
  | store (append : Append)
  | lostLease
  | waiting (ask : MessageId)
  deriving DecidableEq

/-- Whether a stop covers the run. A store that cannot say is taken as no stop. -/
def stopped (run : RunId) : Prog ServerSig Bool :=
  .call (.control (.stopped run)) fun
    | some (.ok covered) => .ret covered
    | _ => .ret false

/-- Whether the claim still holds the run's lease. A Redis error is taken as yes. -/
def holds (run : RunId) (token : Token) : Prog ServerSig Bool :=
  .call (.queue (.renew run token)) fun
    | .ok false => .ret false
    | _ => .ret true

/-- Every write first checks the lease. -/
def append (run : RunId) (token : Token) (seen : Nat) (new : List Event) : Prog ServerSig (Except String Stopped) :=
  (holds run token).bind fun held =>
  if !held then .ret (.ok .lostLease) else
  .call (.store (.appendEventsAfter run seen new (.worker token))) fun
    | .ok done => .ret (.ok (.store done))
    | .error error => .ret (.error error.message)

/-! ### Background turns -/

/-- Removes one attempt's sandbox, confirmed gone. -/
def removeAttempt (run : RunId) (token : Token) (attempt : Nat) : Prog ServerSig (Except String Unit) :=
  .call (.host (.absent (.attempt run attempt) (.worker token))) fun
    | .ok true => .ret (.ok ())
    | _ =>
        .call (.host (.destroy (.attempt run attempt) (.worker token))) fun
          | .error message => .ret (.error ("the sandbox was not removed: " ++ message))
          | .ok _ =>
              .call (.host (.absent (.attempt run attempt) (.worker token))) fun
                | .ok true => .ret (.ok ())
                | _ => .ret (.error "the sandbox is not confirmed gone")

def removeAttempts (run : RunId) (token : Token) : List Nat → Prog ServerSig (Except String Unit)
  | [] => .ret (.ok ())
  | attempt :: rest =>
      (removeAttempt run token attempt).bind fun
        | .error error => .ret (.error error)
        | .ok _ => removeAttempts run token rest

/-- Removes the sandboxes of attempts 1 to `attempts`, each confirmed gone. -/
def cleanBox (run : RunId) (token : Token) (attempts : Nat) : Prog ServerSig (Except String Unit) :=
  removeAttempts run token (List.range' 1 attempts)

/-- A worker that lost its lease removes its own sandbox. -/
def dropOwn (name : SandboxName) (token : Token) : Prog ServerSig Unit :=
  .call (.host (.destroy name (.worker token))) fun _ => .ret ()

/-- Ends a Box turn once the sandboxes of its attempts are gone, checking the lease just before the append. -/
def endBox (spec : RunSpec) (token : Token) (attempt : Nat) (ending : List Event) :
    Prog ServerSig (Except String Stopped) :=
  (cleanBox spec.runId token attempt).bind fun
    | .error error => .ret (.error (error ++ "; it is retried once its lease expires"))
    | .ok _ =>
        (holds spec.runId token).bind fun held =>
        if !held then .ret (.ok .lostLease) else
        .call (.store (.appendEvents spec.runId ending (.worker token))) fun
          | .ok done => .ret (.ok (.store done))
          | .error error => .ret (.error error.message)

/-- Runs a Box turn as delivery `attempt`, in a sandbox of its own. -/
def runBoxTurn (spec : RunSpec) (token : Token) (attempt : Nat) : Prog ServerSig (Except String Stopped) :=
  let name := .attempt spec.runId attempt
  (holds spec.runId token).bind fun held =>
  if !held then .ret (.ok .lostLease) else
  .call (.host (.provision name (.worker token))) fun provisioned =>
  match provisioned with
  | .error message =>
      .call (.outside .stamps) fun stamps =>
      endBox spec token attempt [runFailedEvent spec stamps .environment ("provision: " ++ message)]
  | .ok _ =>
      (holds spec.runId token).bind fun held =>
      if !held then (dropOwn name token).bind fun _ => .ret (.ok .lostLease) else
      (stopped spec.runId).bind fun covered =>
      if covered then
        .call (.outside .stamps) fun stamps => endBox spec token attempt [runCancelledEvent spec stamps]
      else
      .call (.gateway (gatewayCall spec) (.worker token)) fun answer =>
      (holds spec.runId token).bind fun held =>
      if !held then (dropOwn name token).bind fun _ => .ret (.ok .lostLease) else
      .call (.outside .stamps) fun stamps =>
      match answer with
      | .ok text => endBox spec token attempt (completionEvents spec stamps text)
      | .error message => endBox spec token attempt [runFailedEvent spec stamps .dependency ("proxy: " ++ message)]

inductive TurnError where
  | proxy (message : String)
  | sandbox (message : String)
  | store (message : String)
  | notFound
  | conflict (message : String)
  | badRequest (message : String)
  deriving DecidableEq

/-- Ends a turn that failed, as far as the store takes it. -/
def endFailed (spec : RunSpec) (party : Party) (cls : FailureClass) (message : String) : Prog ServerSig Unit :=
  .call (.outside .stamps) fun stamps =>
  .call (.store (.appendEvents spec.runId [runFailedEvent spec stamps cls message] party)) fun _ => .ret ()

def recordCompletion (run : RunId) (party : Party) (events : List Event) : Prog ServerSig (Except TurnError Unit) :=
  .call (.store (.appendEvents run events party)) fun
    | .ok .appended => .ret (.ok ())
    | .ok .terminal => .ret (.error (.conflict "turn already completed"))
    | .ok .missing => .ret (.error .notFound)
    | .ok .moved => .ret (.error (.store "the run log moved"))
    | .error error => .ret (.error (.store error.message))

/-- What a turn comes to: its log then, and what answered it. -/
structure TurnOutcome where
  spec : RunSpec
  events : List Event
  completion : Option String
  credentialMode : String
  /-- The turn provisioned its Box: on a host that launches Docker, its computer was started. -/
  provisioned : Bool
  deriving DecidableEq

/-- Records what ends a turn, which then comes to `outcome`. -/
def recordTurn (run : RunId) (party : Party) (events : List Event) (outcome : TurnOutcome) :
    Prog ServerSig (Except TurnError TurnOutcome) :=
  (recordCompletion run party events).bind fun recorded => .ret (recorded.map fun _ => outcome)

/-- The gateway's completion of a turn, its sandbox removed, then the completion stored; or the turn failed. `events`
is its log so far. -/
def completeTurn (spec : RunSpec) (events : List Event) (party : Party) :
    Prog ServerSig (Except TurnError TurnOutcome) :=
  let boxTurn : Bool := spec.placement = .box
  let destroy : Prog ServerSig (Except String Unit) :=
    if boxTurn then .call (.host (.destroy (.container spec.runId) party)) .ret else .ret (.ok ())
  match spec.workModel.credential with
  | .bringYourOwn _ => .ret (.ok ⟨spec, events, none, "subscription", boxTurn⟩)
  | .platformGateway =>
      .call (.gateway (gatewayCall spec) party) fun
        | .error message =>
            destroy.bind fun
              | .ok _ =>
                  (endFailed spec party .dependency ("proxy: " ++ message)).bind fun _ => .ret (.error (.proxy message))
              | .error _ => .ret (.error (.proxy message))
        | .ok text =>
            destroy.bind fun
              | .error message => .ret (.error (.sandbox message))
              | .ok _ =>
                  .call (.outside .stamps) fun stamps =>
                  let completion := completionEvents spec stamps text
                  recordTurn spec.runId party completion ⟨spec, events ++ completion, some text, "gateway", boxTurn⟩

/-- The rest of a turn once its user message is stored. -/
def finishTurn (spec : RunSpec) (events : List Event) (party : Party) : Prog ServerSig (Except TurnError TurnOutcome) :=
  if spec.placement = .box then
    .call (.host (.provision (.container spec.runId) party)) fun
      | .ok _ => completeTurn spec events party
      | .error message =>
          .call (.host (.absent (.container spec.runId) party)) fun
            | .ok true =>
                (endFailed spec party .environment ("provision: " ++ message)).bind fun _ =>
                .ret (.error (.sandbox message))
            | _ => .ret (.error (.sandbox message))
  else completeTurn spec events party

/-- A turn that did not finish is read again: a gateway failure ended it failed, anything else left it open. -/
def unfinishedTurn (spec : RunSpec) : Prog ServerSig (Except String Stopped) :=
  .call (.store (.run spec.runId)) fun
    | .ok (some run) =>
        if hasEnded run.events then .ret (.ok (.store .appended)) else .ret (.error "turn left open")
    | _ => .ret (.error "turn left open")

def finishedTurn (spec : RunSpec) : Except TurnError TurnOutcome → Prog ServerSig (Except String Stopped)
  | .ok _ => .ret (.ok (.store .appended))
  | .error (.conflict _) => .ret (.ok (.store .terminal))
  | .error .notFound => .ret (.ok (.store .missing))
  | .error _ => unfinishedTurn spec

/-- A started turn: cancelled if a stop covers it, else read again and run. -/
def runStartedTurn (spec : RunSpec) (events : List Event) (token : Token) (attempt : Nat) :
    Prog ServerSig (Except String Stopped) :=
  (stopped spec.runId).bind fun covered =>
  if covered then
    .call (.outside .stamps) fun stamps =>
    if isBoxTurn spec then endBox spec token attempt [runCancelledEvent spec stamps]
    else append spec.runId token events.length [runCancelledEvent spec stamps]
  else
  (holds spec.runId token).bind fun held =>
  if !held then .ret (.ok .lostLease) else
  .call (.store (.run spec.runId)) fun
    | .error error => .ret (.error error.message)
    | .ok none => .ret (.ok (.store .missing))
    | .ok (some run) =>
        if hasEnded run.events then .ret (.ok (.store .terminal))
        else if isBoxTurn spec then runBoxTurn spec token attempt
        else (finishTurn spec events (.worker token)).bind (finishedTurn spec)

/-- Runs a background coworker turn from its log, all of it stored. Only a gateway turn runs in the background. -/
def runTurn (spec : RunSpec) (events : List Event) (token : Token) (attempt : Nat) :
    Prog ServerSig (Except String Stopped) :=
  if spec.workModel.credential ≠ .platformGateway then
    .call (.outside .stamps) fun stamps =>
    let failed := runFailedEvent spec stamps .infrastructure "only a gateway turn runs in the background"
    if isBoxTurn spec then endBox spec token attempt [failed]
    else append spec.runId token events.length [failed]
  else if events.any fun event => event.payload = .runStarted then runStartedTurn spec events token attempt
  else
    .call (.outside .stamps) fun stamps =>
    let begun := [systemEvent spec (stamps 0) .runStarted]
    (append spec.runId token events.length begun).bind fun
      | .ok (.store .appended) => runStartedTurn spec (events ++ begun) token attempt
      | refused => .ret refused

/-! ### Harness runs -/

/-- What the worker keeps while the harness runs: how much of the log is stored, and the append that was refused. -/
structure Carried where
  seen : Nat
  refused : Option (Except String Stopped)

/-- A step boundary: a stop cancels the run, and the step's events are stored. -/
def atBoundary (spec : RunSpec) (token : Token) (kept : Carried) (driver : Driver) :
    Prog ServerSig (Boundary × Carried) :=
  (stopped spec.runId).bind fun covered =>
  if covered then .ret (.cancel, kept) else
  let new := driver.events.drop kept.seen
  if new.isEmpty then .ret (.continue, kept) else
  (append spec.runId token kept.seen new).bind fun
    | .ok (.store .appended) => .ret (.continue, { kept with seen := driver.events.length })
    | other => .ret (.pause, { kept with refused := some other })

/-- How the worker carries out a call of the harness. -/
def Worker.carry (w : Worker) (spec : RunSpec) (token : Token) (kept : Carried) :
    (c : HarnessCall) → Prog ServerSig (c.Answer × Carried)
  | .spawn log request => (startChild w.v5 request log).bind fun started => .ret (started, kept)
  | .send log request => (send w.v5 request log).bind fun sent => .ret (sent, kept)
  | .boundary driver => atBoundary spec token kept driver
  | .decide view => .call (.outside (.harness (.decide view))) fun answer => .ret (answer, kept)
  | .tool log name input => .call (.outside (.harness (.tool log name input))) fun answer => .ret (answer, kept)
  | .model log request => .call (.outside (.harness (.model log request))) fun answer => .ret (answer, kept)
  | .memoryRead log owner key =>
      .call (.outside (.harness (.memoryRead log owner key))) fun answer => .ret (answer, kept)
  | .memoryWrite log owner key value =>
      .call (.outside (.harness (.memoryWrite log owner key value))) fun answer => .ret (answer, kept)

/-- What is left to store once the harness stopped, with the `RunFailed` of a decider that failed. -/
def tailOf (spec : RunSpec) (stamps : Nat → Stamp) (seen : Nat) (driver : Driver) (finish : Driver.Finish) :
    List Event :=
  driver.events.drop seen ++
    match finish with
    | .failed error => [runFailedEvent spec stamps .dependency ("decider: " ++ error.message)]
    | _ => []

/-- A run stored up to the ask it waits on is to be parked. -/
def stoppedAt (driver : Driver) : Except String Stopped → Except String Stopped
  | .ok (.store .appended) =>
      match driver.state.harness with
      | .waitingForMessage _ _ ask => .ok (.waiting ask)
      | _ => .ok (.store .appended)
  | other => other

/-- Stores the tail. An empty one is taken as stored. -/
def storeTail (spec : RunSpec) (token : Token) (seen : Nat) (driver : Driver) (tail : List Event) :
    Prog ServerSig (Except String Stopped) :=
  if tail.isEmpty then .ret (stoppedAt driver (.ok (.store .appended))) else
  (append spec.runId token seen tail).bind fun result => .ret (stoppedAt driver result)

/-- Drives the harness, storing each step at its boundary and the tail at its end. -/
def Worker.drive (w : Worker) (spec : RunSpec) (token : Token) (tools : List ToolDescriptor) (driver : Driver)
    (seen : Nat) : Prog ServerSig (Except String Stopped) :=
  ((Driver.runUntil tools driver).handle (w.carry spec token) ⟨seen, none⟩).bind fun
    | ((driver, finish), kept) =>
        match kept.refused with
        | some refused => .ret refused
        | none =>
            .call (.outside .stamps) fun stamps =>
            storeTail spec token kept.seen driver (tailOf spec stamps kept.seen driver finish)

/-- Its owner's agents, for a run that may reach them. A store that cannot list them offers none. -/
def delegation (spec : RunSpec) : Prog ServerSig (List DelegateTarget) :=
  if ⟨"agent.delegate"⟩ ∉ spec.capabilities ∧ ⟨"agent.message"⟩ ∉ spec.capabilities then .ret [] else
  .call (.outside (.agentsOf spec.owner)) fun
    | .ok agents =>
        .ret (agents.map fun agent => ⟨agent.manifest.id, agent.manifest.name, agent.manifest.description⟩)
    | .error _ => .ret []

/-- Its tools: with a catalog, those its owner's manifest names. -/
def Worker.toolsOf (w : Worker) (spec : RunSpec) : Prog ServerSig (Except String (List ToolDescriptor)) :=
  if !w.catalog then .call (.outside (.loadTools [])) .ret else
  .call (.outside (.agent spec.agentId)) fun
    | .error error => .ret (.error ("its agent: " ++ error.message))
    | .ok none => .ret (.error "its agent is unavailable; it is retried once its lease expires")
    | .ok (some agent) =>
        if !agent.owner.is spec.owner then
          .ret (.error "its agent is unavailable; it is retried once its lease expires")
        else .call (.outside (.loadTools agent.manifest.tools)) .ret

/-- What a worker sets on a driver. -/
def Worker.setUp (w : Worker) (driver : Driver) (targets : List DelegateTarget) : Driver :=
  let driver := (driver.withSpawner targets).withUserQuestions
  if w.messages then driver.withDeliverer else driver

/-- A phase as `{:?}` prints it, without the fields of one that no unstarted open log is in. -/
def phaseName : DispatchPhase → String
  | .created => "Created"
  | .queued => "Queued"
  | .scheduled => "Scheduled"
  | .provisioning => "Provisioning"
  | .starting => "Starting"
  | .running => "Running"
  | .waiting _ => "Waiting"
  | .awaitingApproval _ => "AwaitingApproval"
  | .paused => "Paused"
  | .recovering => "Recovering"
  | .completed _ => "Completed"
  | .failed _ _ => "Failed"
  | .cancelled => "Cancelled"
  | .expired => "Expired"

/-- A harness run from its log, all of it stored: the driver is resumed, set up and driven. -/
def Worker.runHarness (w : Worker) (spec : RunSpec) (events : List Event) (token : Token) :
    Prog ServerSig (Except String Stopped) :=
  .call (.outside .stamps) fun stamps =>
  match Driver.resume spec events stamps with
  | .error error =>
      append spec.runId token events.length
        [runFailedEvent spec stamps .infrastructure
          ("cannot resume: NotStartable(" ++ phaseName error.dispatch ++ ")")]
  | .ok driver =>
      (holds spec.runId token).bind fun held =>
      if !held then .ret (.ok .lostLease) else
      (delegation spec).bind fun targets =>
      match w.jevClient with
      | .error message =>
          .call (.outside .stamps) fun stamps =>
          append spec.runId token events.length
            ((w.setUp driver targets).events.drop events.length ++
              [runFailedEvent spec stamps .dependency ("decider: " ++ message)])
      | .ok _ =>
          (w.toolsOf spec).bind fun
            | .error error => .ret (.error error)
            | .ok tools => w.drive spec token tools (w.setUp driver targets) events.length

/-- A scheduled run: a turn runs as a quick turn does, any other through the harness. -/
def Worker.runScheduled (w : Worker) (spec : RunSpec) (events : List Event) (token : Token) (attempt : Nat) :
    Prog ServerSig (Except String Stopped) :=
  if isTurn spec then runTurn spec events token attempt else w.runHarness spec events token

/-- Runs a run from its stored log, appending as it goes, and stops at the first append the store refuses or once
the claim no longer holds the lease. A stopped run ends cancelled; a queued one is scheduled first. -/
def Worker.runFrom (w : Worker) (spec : RunSpec) (events : List Event) (token : Token) (attempt : Nat) :
    Prog ServerSig (Except String Stopped) :=
  if hasEnded events then .ret (.ok (.store .terminal)) else
  (stopped spec.runId).bind fun covered =>
  if covered then
    .call (.outside .stamps) fun stamps =>
    if isBoxTurn spec then endBox spec token attempt [runCancelledEvent spec stamps]
    else append spec.runId token events.length [runCancelledEvent spec stamps]
  else if (fold spec events).dispatch = .queued then
    .call (.outside .stamps) fun stamps =>
    let ladder := dispatchEvents spec stamps
    (append spec.runId token events.length ladder).bind fun
      | .ok (.store .appended) => w.runScheduled spec (events ++ ladder) token attempt
      | refused => .ret refused
  else w.runScheduled spec events token attempt

/-! ### One claim -/

structure Claim where
  runId : RunId
  token : Token

inductive Worker.Outcome where
  | stored (append : Append)
  | waiting (ask : MessageId)

/-- How many times a worker reloads a run whose log another writer moved. -/
def reloads : Nat := 3

/-- Runs a run from its log, and again from a reloaded log each time another writer moved it. -/
def Worker.storeAsItGoes (w : Worker) (spec : RunSpec) (token : Token) (attempt : Nat) :
    Nat → List Event → Prog ServerSig (Except String Worker.Outcome)
  | left, events =>
      (w.runFrom spec events token attempt).bind fun
        | .error error => .ret (.error error)
        | .ok (.store .moved) =>
            match left with
            | 0 => .ret (.ok (.stored .moved))
            | left + 1 =>
                .call (.store (.run spec.runId)) fun
                  | .error error => .ret (.error error.message)
                  | .ok none => .ret (.ok (.stored .missing))
                  | .ok (some run) => w.storeAsItGoes spec token attempt left run.events
        | .ok (.store other) => .ret (.ok (.stored other))
        | .ok .lostLease => .ret (.ok (.stored .moved))
        | .ok (.waiting ask) => .ret (.ok (.waiting ask))

/-- Delivers the end of a task that was asked to the run that asked it. A failed delivery is left to the sweep. -/
def Worker.answerAsk (w : Worker) (spec : RunSpec) : Prog ServerSig Unit :=
  if !w.messages then .ret () else
  .call (.outside (.askOfTask spec.runId)) fun
    | .ok (some ask) =>
        .call (.store (.run spec.runId)) fun
          | .ok (some task) =>
              .call (.outside .stamps) fun stamps =>
              match taskAnswer spec.runId spec.agentId ask.id (stamps 0).messageId task.events with
              | some answer => (deliver ask.fromRun ask.id answer .leave).bind fun _ => .ret ()
              | none => .ret ()
          | _ => .ret ()
    | _ => .ret ()

/-- `Open::execute` and `Executed::record` of a run that was executed. -/
def Worker.execute (w : Worker) (spec : RunSpec) (events : List Event) (token : Token) (attempt : Nat) :
    Prog ServerSig (Except String Worker.Outcome) :=
  (w.storeAsItGoes spec token attempt reloads events).bind fun
    | .ok (.stored .appended) => (w.answerAsk spec).bind fun _ => .ret (.ok (.stored .appended))
    | other => .ret other

structure Done where
  claim : Claim
  recorded : Option Append
  waiting : Option MessageId

inductive Prepared where
  | open (stored : StoredRun) (attempt : Nat)
  | done (done : Done)

/-- The message that a run was started too often. -/
def startedText (before : Nat) : String :=
  let plural := if before = 1 then "" else "s"
  s!"started {before} time{plural} without ending"

/-- Fails a run that was started too often (`Executed::record`). -/
def recordFailed (claim : Claim) (spec : RunSpec) (starts : Nat) : Prog ServerSig (Except String Prepared) :=
  .call (.outside .stamps) fun stamps =>
  .call (.store (.appendEvents claim.runId
      [runFailedEvent spec stamps .infrastructure (startedText (starts - 1))] (.worker claim.token))) fun
    | .error error => .ret (.error error.message)
    | .ok done => .ret (.ok (.done ⟨claim, some done, none⟩))

/-- A Box turn is failed only once every attempt's sandbox is gone, and while the claim holds the lease. -/
def failStarted (w : Worker) (claim : Claim) (spec : RunSpec) (starts : Nat) :
    Prog ServerSig (Except String Prepared) :=
  if isBoxTurn spec then
    (cleanBox claim.runId claim.token (min starts w.maxDeliveries)).bind fun
      | .error error => .ret (.error (error ++ "; it is retried once its lease expires"))
      | .ok _ =>
          (holds claim.runId claim.token).bind fun held =>
          if !held then .ret (.ok (.done ⟨claim, some .moved, none⟩)) else recordFailed claim spec starts
  else recordFailed claim spec starts

/-- A claim that could not load or start its run is handed back. -/
def handBack (claim : Claim) (error : String) : Prog ServerSig (Except String Prepared) :=
  .call (.queue (.release claim.runId claim.token)) fun _ => .ret (.error error)

/-- Loads the run. An open run counts a start; one started too often is failed instead of run again. -/
def Worker.prepare (w : Worker) (claim : Claim) : Prog ServerSig (Except String Prepared) :=
  .call (.store (.run claim.runId)) fun
    | .error error => handBack claim ("load run: " ++ error.message)
    | .ok none => .ret (.ok (.done ⟨claim, none, none⟩))
    | .ok (some stored) =>
        if hasEnded stored.events then .ret (.ok (.done ⟨claim, none, none⟩)) else
        .call (.queue (.start claim.runId claim.token)) fun
          | .error error => handBack claim ("start run: " ++ error)
          | .ok (starts : Nat) =>
              if w.maxDeliveries < starts then failStarted w claim stored.spec starts
              else .ret (.ok (.open stored starts))

/-- Parks a run that waits on an ask, and wakes it at once if the answer or a stop came before the park. -/
def parkRun (claim : Claim) (ask : MessageId) : Prog ServerSig (Except String Unit) :=
  .call (.queue (.park claim.runId claim.token ask)) fun
    | .error error => .ret (.error error)
    | .ok false => .ret (.ok ())
    | .ok true =>
        .call (.store (.run claim.runId)) fun
          | .error error => .ret (.error error.message)
          | .ok loaded =>
              let wake : Prog ServerSig (Except String Unit) :=
                .call (.queue (.wake claim.runId ask)) fun
                  | .error error => .ret (.error error)
                  | .ok _ => .ret (.ok ())
              if askState ((loaded.map StoredRun.events).getD []) ask ≠ .open then wake else
              (stopped claim.runId).bind fun covered => if covered then wake else .ret (.ok ())

/-- Acknowledges the run, unless it waits or its log kept moving. -/
def Done.ack (done : Done) : Prog ServerSig (Except String Unit) :=
  match done.waiting with
  | some ask => parkRun done.claim ask
  | none =>
      if done.recorded = some .moved then
        .call (.queue (.release done.claim.runId done.claim.token)) .ret
      else .call (.queue (.ack done.claim.runId done.claim.token)) .ret

/-- Takes a claimed run to its end. An error before the acknowledgement leaves the lease to expire. -/
def Worker.takeOn (w : Worker) (token : Token) (id : RunId) : Prog ServerSig (Except String (Option RunId)) :=
  let claim : Claim := ⟨id, token⟩
  let ack (done : Done) : Prog ServerSig (Except String (Option RunId)) :=
    done.ack.bind fun
      | .error error => .ret (.error error)
      | .ok _ => .ret (.ok (some id))
  (w.prepare claim).bind fun
    | .error error => .ret (.error error)
    | .ok (.done done) => ack done
    | .ok (.open stored attempt) =>
        (w.execute stored.spec stored.events token attempt).bind fun
          | .error error => .ret (.error error)
          | .ok (.stored append) => ack ⟨claim, some append, none⟩
          | .ok (.waiting ask) => ack ⟨claim, none, some ask⟩

/-- Claims one run and takes it on. -/
def Worker.workOne (w : Worker) (token : Token) : Prog ServerSig (Except String (Option RunId)) :=
  .call (.queue (.claim token)) fun
    | .error error => .ret (.error error)
    | .ok none => .ret (.ok none)
    | .ok (some id) => w.takeOn token id

end Gol
