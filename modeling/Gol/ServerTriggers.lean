import Gol.ServerSpawner

/-! Firing triggers (`triggers.rs` and the scheduler's pass, `scheduler.rs`): a fire reads its trigger, stores the run
of its tick or event, reads the trigger again as its gate, and pushes the run once or holds it. The queue sweep
settles a fired run by the generation it recorded. -/

namespace Gol
open Library

/-- The `uuid` crate, as far as the server uses it: a hash of a namespace and a name, and an id's text. -/
structure Uuids where
  v5 : Uuid → List UInt8 → Uuid
  text : Uuid → String
  parse : String → Option Uuid
  parse_text : ∀ id, parse (text id) = some id

/-! ### Names -/

/-- `as_bytes`: 16 bytes, the highest first. -/
def uuidBytes (id : Uuid) : List UInt8 := (List.range 16).map fun i => UInt8.ofNat (id.toNat / 256 ^ (15 - i))

/-- `i64::to_le_bytes`. -/
def leBytes (n : Int64) : List UInt8 := (List.range 8).map fun i => UInt8.ofNat (n.toUInt64.toNat / 256 ^ i)

def tickRunNamespace : Uuid := 0x2c1e7a905b3d4f618e2a6d0c9b4713f5

def eventRunNamespace : Uuid := 0x7d3a19c4e2b84a569f013c6e8b24d5a7

def tickName (id : TriggerId) (tick : Int64) : List UInt8 := uuidBytes id.uuid ++ leBytes tick

def eventName (id : TriggerId) (event : String) : List UInt8 := uuidBytes id.uuid ++ event.toUTF8.data.toList

/-- The id of the run of a trigger's tick. -/
def Uuids.tickRun (u : Uuids) (id : TriggerId) (tick : Int64) : RunId := ⟨u.v5 tickRunNamespace (tickName id tick)⟩

/-- The id of the run of a webhook's event. -/
def Uuids.eventRun (u : Uuids) (id : TriggerId) (event : String) : RunId :=
  ⟨u.v5 eventRunNamespace (eventName id event)⟩

/-- `u64::from_str` on a text of digits, without its bound: a generation counts resumes. -/
def parseDecimal (text : String) : Option Nat :=
  let digits := match text.toList with
    | '+' :: rest => rest
    | all => all
  if digits.isEmpty || !digits.all Char.isDigit then none else some (Nat.ofDigitChars 10 digits 0)

theorem parseDecimal_repr (n : Nat) : parseDecimal n.repr = some n := by
  have hdigits : ∀ c ∈ Nat.toDigits 10 n, c.isDigit = true :=
    fun c hc => Nat.isDigit_of_mem_toDigits (by decide) (by decide) hc
  have hne : Nat.toDigits 10 n ≠ [] := Nat.toDigits_ne_nil
  rw [parseDecimal, Nat.toList_repr]
  split
  · next rest heq => exact absurd (hdigits '+' (heq ▸ List.mem_cons_self ..)) (by decide)
  · rw [if_neg (by simpa [hne] using hdigits), Nat.ofDigitChars_ten_toDigits]

def triggerKey : String := "gol.trigger"

def generationKey : String := "gol.generation"

def tickKey : String := "gol.tick"

def eventKey : String := "gol.event"

/-! ### Fires -/

/-- What keys a fire's run, when something does: a tick, or an event with its body. -/
inductive FireKey where
  | tick (run : RunId) (tick : Int64)
  | event (run : RunId) (event body : String)
  deriving DecidableEq

inductive FireError where
  | notStored (message : String)
  | maybeStored (run : RunId) (error : EnqueueError)
  deriving DecidableEq

/-- The run a fire of `trigger` starts, under `id`. -/
def runOf (u : Uuids) (trigger : StoredTrigger) (agent : AgentManifest) (id : RunId) : RunSpec where
  runId := id
  owner := trigger.owner
  agentId := trigger.agentId
  agentVersion := agent.version
  input := trigger.input
  placement := trigger.placement
  workModel := trigger.workModel
  capabilities := agent.requiredCapabilities
  limits := trigger.limits.getD ⟨8, 4⟩
  metadata := [(generationKey, trigger.generation.repr), (triggerKey, u.text trigger.id.uuid),
    (sessionId, "trigger-" ++ u.text trigger.id.uuid)]
  lineage := ⟨none, none, 0⟩

/-- A fire's run under its key: the id, what it was fired for and, of an event, the body after the input. -/
def keyed (spec : RunSpec) : Option FireKey → RunSpec
  | none => spec
  | some (.tick run tick) => { spec with runId := run, metadata := (tickKey, tick.toInt.repr) :: spec.metadata }
  | some (.event run event body) =>
      { spec with
        runId := run
        input := spec.input ++ "\n\n" ++ body
        metadata := (eventKey, event) :: spec.metadata }

/-- Open while the trigger runs at the generation that was read. -/
def gateOf (gate : FireGate) : Prog ServerSig Gate :=
  .call (.control (.trigger gate.owner gate.trigger)) fun
    | some (.ok (some trigger)) =>
        if trigger.enabled ∧ trigger.generation = gate.generation then .ret .open
        else .ret (.shut (some (if trigger.enabled then .moved else .paused)))
    | some (.ok none) => .ret (.shut (some .notFound))
    | some (.error error) =>
        .ret (.unknown ("the trigger could not be read again, so the run was not pushed: " ++ error.message))
    | none => .ret (.unknown "the store keeps no triggers")

/-- A tick that is no longer the trigger's next. -/
def movedOn (trigger : StoredTrigger) : Option FireKey → Bool
  | some (.tick _ tick) => trigger.nextFireMs ≠ some tick
  | _ => false

/-- What a fire answers once its run is stored and settled: a held one why, any other whether this fire pushed it. -/
def firedAs (run : RunId) : Except EnqueueError Fire → Except FireError (Fired × Bool)
  | .ok (.held (some why)) => .ok (why, false)
  | .ok fire => .ok (.run run, fire = .pushed)
  | .error (.queue message) => .error (.notStored message)
  | .error error => .error (.maybeStored run error)

/-- Fires `owner`'s trigger `id`. The second part says whether this fire pushed the run. -/
def fire (u : Uuids) (owner : Owner) (id : TriggerId) (key : Option FireKey) :
    Prog ServerSig (Except FireError (Fired × Bool)) :=
  .call (.control (.trigger owner id)) fun
    | none => .ret (.error (.notStored "the store keeps no triggers"))
    | some (.error error) => .ret (.error (.notStored error.message))
    | some (.ok none) => .ret (.ok (.notFound, false))
    | some (.ok (some trigger)) =>
        if !trigger.enabled then .ret (.ok (.paused, false))
        else if movedOn trigger key then .ret (.ok (.moved, false))
        else
        .call (.outside (.agent trigger.agentId)) fun
          | .error error => .ret (.error (.notStored error.message))
          | .ok found =>
              match found.filter fun agent => agent.owner.is trigger.owner with
              | none => .ret (.ok (.agentNotFound, false))
              | some agent =>
                  .call (.outside .stamps) fun stamps =>
                  let spec := keyed (runOf u trigger agent.manifest ⟨(stamps 0).messageId.uuid⟩) key
                  let gate : FireGate := ⟨owner, id, trigger.generation⟩
                  (enqueueFire spec (some gate) (gateOf gate)).bind fun settled => .ret (firedAs spec.runId settled)

/-- A fire that nothing keys: each is a run of its own. -/
def fireTrigger (u : Uuids) (owner : Owner) (id : TriggerId) : Prog ServerSig (Except FireError (Fired × Bool)) :=
  fire u owner id none

/-- The fire of a trigger's tick. -/
def fireTriggerAt (u : Uuids) (owner : Owner) (id : TriggerId) (tick : Int64) :
    Prog ServerSig (Except FireError (Fired × Bool)) :=
  fire u owner id (some (.tick (u.tickRun id tick) tick))

/-- The gate a fired run recorded: its trigger and the generation it was fired at. -/
def recordedGate (u : Uuids) (spec : RunSpec) : Option FireGate :=
  match (spec.metadataGet triggerKey).bind u.parse, (spec.metadataGet generationKey).bind parseDecimal with
  | some id, some generation => some ⟨spec.owner, ⟨id⟩, generation⟩
  | _, _ => none

/-- Settles a trigger's stored run by the gate it recorded. A run that records none is held. -/
def settleFiredRun (u : Uuids) (spec : RunSpec) : Prog ServerSig (Except EnqueueError Fire) :=
  match recordedGate u spec with
  | some gate => settleFire spec (some gate) (gateOf gate)
  | none => settleFire spec none (.ret (.shut none))

/-! ### Webhooks -/

/-- What a webhook request did. -/
inductive Hooked where
  | started (run : RunId)
  | duplicate (run : RunId)
  | refused
  | agentNotFound
  | notFound
  deriving DecidableEq

/-- How an event's stored run answers another delivery of the event. -/
inductive Replay where
  | waiting
  | refused
  | duplicate
  deriving DecidableEq

def replayOf (events : List Event) : Replay :=
  if stillWaiting events then .waiting
  else if (events.any fun event => event.payload = .runCancelled) &&
      !(events.any fun event => event.payload = .runScheduled) then .refused
  else .duplicate

/-- `replayOf` the run's log as it is now. -/
def replayNow (run : RunId) : Prog ServerSig (Except FireError Replay) :=
  .call (.store (.run run)) fun
    | .error error => .ret (.error (.maybeStored run (.store error)))
    | .ok stored => .ret (.ok (replayOf ((stored.map StoredRun.events).getD [])))

/-- A replay of an event whose run is stored. -/
def replayStored (u : Uuids) (stored : StoredRun) (run : RunId) : Prog ServerSig (Except FireError Hooked) :=
  match replayOf stored.events with
  | .refused => .ret (.ok .refused)
  | .duplicate => .ret (.ok (.duplicate run))
  | .waiting =>
      (settleFiredRun u stored.spec).bind fun
        | .ok .pushed => .ret (.ok (.started run))
        | .ok .found =>
            (replayNow run).bind fun
              | .error error => .ret (.error error)
              | .ok .refused => .ret (.ok .refused)
              | .ok _ => .ret (.ok (.duplicate run))
        | .ok (.held _) => .ret (.ok .refused)
        | .error error => .ret (.error (.maybeStored run error))

/-- Fires webhook `trigger` for the sender's event. A replay is answered from the event's stored run. -/
def fireWebhook (u : Uuids) (trigger : StoredTrigger) (event body : String) :
    Prog ServerSig (Except FireError Hooked) :=
  let run := u.eventRun trigger.id event
  .call (.store (.run run)) fun
    | .error error => .ret (.error (.notStored error.message))
    | .ok (some stored) => replayStored u stored run
    | .ok none =>
        (fire u trigger.owner trigger.id (some (.event run event body))).bind fun
          | .error error => .ret (.error error)
          | .ok (.run run, true) => .ret (.ok (.started run))
          | .ok (.run run, false) =>
              (replayNow run).bind fun
                | .error error => .ret (.error error)
                | .ok .waiting => .ret (.ok (.started run))
                | .ok .refused => .ret (.ok .refused)
                | .ok .duplicate => .ret (.ok (.duplicate run))
          | .ok (.paused, _) | .ok (.moved, _) => .ret (.ok .refused)
          | .ok (.agentNotFound, _) => .ret (.ok .agentNotFound)
          | .ok (.notFound, _) => .ret (.ok .notFound)

/-! ### The scheduler -/

/-- How late a tick may be fired and still count as on time. -/
def missedAfterMs : Int64 := 60000

def passLimit : Nat := 100

/-- The first tick of a schedule after a time. -/
abbrev NextTick := String → String → Int64 → Except String Int64

/-- Moves a trigger to the first tick after `nowMs`, if its tick is still the one read. -/
def advance (nextTick : NextTick) (trigger : StoredTrigger) (cron timeZone : String) (due : Int64) (nowMs : Int64)
    (run : Option RunId) : Prog ServerSig (Except String (Option RunId)) :=
  .call (.control (.advanceTrigger trigger.id (some due) (nextTick cron timeZone nowMs).toOption)) fun
    | none => .ret (.error "the store keeps no triggers")
    | some (.error error) => .ret (.error error.message)
    | some (.ok _) => .ret (.ok run)

/-- Fires due `trigger` for its tick, unless it was missed and skips missed ticks, then moves it on. -/
def fireDueTrigger (u : Uuids) (nextTick : NextTick) (trigger : StoredTrigger) (nowMs : Int64) :
    Prog ServerSig (Except String (Option RunId)) :=
  match trigger.kind, trigger.nextFireMs with
  | .schedule cron timeZone, some due =>
      if missedAfterMs < nowMs - due ∧ trigger.missed = .skip then advance nextTick trigger cron timeZone due nowMs none
      else
      (fireTriggerAt u trigger.owner trigger.id due).bind fun
        | .error _ => .ret (.error "the fire failed")
        | .ok (.run run, _) => advance nextTick trigger cron timeZone due nowMs (some run)
        | .ok _ => advance nextTick trigger cron timeZone due nowMs none
  | _, _ => .ret (.ok none)

/-- A schedule with no tick yet gets its first; one that has none is paused. -/
def scheduleFirst (nextTick : NextTick) (nowMs : Int64) : List StoredTrigger → Prog ServerSig (Except String Unit)
  | [] => .ret (.ok ())
  | trigger :: rest =>
      match trigger.kind with
      | .webhook _ => scheduleFirst nextTick nowMs rest
      | .schedule cron timeZone =>
          match nextTick cron timeZone nowMs with
          | .ok first =>
              .call (.control (.advanceTrigger trigger.id none (some first))) fun
                | some (.ok _) => scheduleFirst nextTick nowMs rest
                | some (.error error) => .ret (.error error.message)
                | none => .ret (.error "the store keeps no triggers")
          | .error _ =>
              .call (.control (.setEnabled trigger.owner trigger.id false)) fun
                | some (.ok _) => scheduleFirst nextTick nowMs rest
                | some (.error error) => .ret (.error error.message)
                | none => .ret (.error "the store keeps no triggers")

/-- Fires each due trigger. One that fails keeps its tick. -/
def fireDue (u : Uuids) (nextTick : NextTick) (nowMs : Int64) : List StoredTrigger → Prog ServerSig (List RunId)
  | [] => .ret []
  | trigger :: rest =>
      (fireDueTrigger u nextTick trigger nowMs).bind fun fired =>
      (fireDue u nextTick nowMs rest).bind fun more =>
      .ret (match fired with
        | .ok (some run) => run :: more
        | _ => more)

/-- One scheduler pass: the runs it fired, and whether it read as many due triggers as it may. -/
def pass (u : Uuids) (nextTick : NextTick) (nowMs : Int64) : Prog ServerSig (Except String (List RunId × Bool)) :=
  .call (.control (.unscheduledTriggers passLimit)) fun
    | none => .ret (.error "the store keeps no triggers")
    | some (.error error) => .ret (.error error.message)
    | some (.ok unscheduled) =>
        (scheduleFirst nextTick nowMs unscheduled).bind fun
          | .error error => .ret (.error error)
          | .ok _ =>
              .call (.control (.dueTriggers nowMs passLimit)) fun
                | none => .ret (.error "the store keeps no triggers")
                | some (.error error) => .ret (.error error.message)
                | some (.ok (due : List StoredTrigger)) =>
                    (fireDue u nextTick nowMs due).bind fun fired => .ret (.ok (fired, due.length == passLimit))

/-- A pass at Redis's time, as `schedule_forever` makes one after another. -/
def passNow (u : Uuids) (nextTick : NextTick) : Prog ServerSig (Except String (List RunId × Bool)) :=
  .call (.outside .redisNow) fun
    | .error error => .ret (.error error)
    | .ok nowMs => pass u nextTick nowMs

end Gol
