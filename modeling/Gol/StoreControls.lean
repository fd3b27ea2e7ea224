import Gol.ProtocolAuthorize
import Gol.StoreLog

/-! The stops and the triggers a store keeps (`trait StopStore` and `TriggerStore`, `store.rs`). Each call is one atomic
step; every stop and every stored run takes the next number of one order. -/

namespace Gol

/-! ### Stops -/

/-- What a stop covers: a run and every run under it, a thread, or everything its principal owns. -/
inductive StopScope where
  | run (id : RunId)
  | thread (id : String)
  | owner
  deriving DecidableEq

structure StopEntry where
  principal : Principal
  scope : StopScope
  /-- Its number in the store's order. -/
  number : Nat
  deriving DecidableEq

structure Stops where
  /-- The last number taken. -/
  order : Nat
  entries : List StopEntry
  /-- Each stored run with its number. -/
  stored : List (RunId × Nat)

def threadOf (spec : RunSpec) : Option String := (spec.metadataGet sessionId).filter fun session => !session.isEmpty

/-- Whether a stop of `scope`, numbered `stop`, covers the run `spec` itself, numbered `stored`. -/
def stopNames (scope : StopScope) (stop : Nat) (spec : RunSpec) (stored : Nat) : Bool :=
  match scope with
  | .run id => id = spec.runId
  | .thread thread => stored < stop ∧ threadOf spec = some thread
  | .owner => stored < stop

namespace Stops

def empty : Stops := ⟨0, [], []⟩

def numberOf (s : Stops) (id : RunId) : Nat := (s.stored.lookup id).getD 0

/-- A put stored the run. -/
def putRun (s : Stops) (id : RunId) : Stops :=
  { s with order := s.order + 1, stored := s.stored ++ [(id, s.order + 1)] }

def putStop (s : Stops) (owner : Owner) (scope : StopScope) : Stops :=
  { s with
    order := s.order + 1
    entries := (s.entries.filter fun entry => ¬ (entry.principal = principal owner ∧ entry.scope = scope)) ++
      [⟨principal owner, scope, s.order + 1⟩] }

/-- Whether a stop names the run `spec` itself. -/
def names (s : Stops) (spec : RunSpec) : Bool :=
  s.entries.any fun entry =>
    entry.principal = principal spec.owner && stopNames entry.scope entry.number spec (s.numberOf spec.runId)

/-- The run, then each run above it, as far as `fuel` runs up its lineage. -/
def stoppedWithin (s : Stops) (runs : RunId → Option StoredRun) : Nat → RunId → Bool
  | 0, _ => false
  | fuel + 1, id =>
      match runs id with
      | none => false
      | some member =>
          s.names member.spec || match member.spec.lineage.parent with
            | none => false
            | some parent => s.stoppedWithin runs fuel parent

/-- Whether a stop covers the stored run `id`. A walk that meets no run twice ends within the runs stored. -/
def stopped (s : Stops) (runs : RunId → Option StoredRun) (id : RunId) : Bool := s.stoppedWithin runs (s.order + 1) id

/-- Whether `id` is `under` or a run below it. -/
def within (runs : RunId → Option StoredRun) (under : RunId) : Nat → RunId → Bool
  | 0, _ => false
  | fuel + 1, id =>
      id = under || match (runs id).bind fun run => run.spec.lineage.parent with
        | none => false
        | some parent => within runs under fuel parent

/-- The runs of `owner`'s principal that `scope` covers and that have not ended. -/
def openRunsUnder (s : Stops) (runs : RunId → Option StoredRun) (owner : Owner) (scope : StopScope) : List StoredRun :=
  (s.stored.filterMap fun entry => runs entry.1).filter fun run =>
    run.spec.owner.is owner && !hasEnded run.events && match scope with
      | .run under => within runs under (s.order + 1) run.spec.runId
      | .thread thread => threadOf run.spec = some thread
      | .owner => true

end Stops

/-! ### Triggers -/

structure TriggerId where
  uuid : Uuid
  deriving DecidableEq

inductive TriggerKind where
  | schedule (cron timeZone : String)
  | webhook (rotation : UInt32)
  deriving DecidableEq

inductive Missed where
  | runOnceLate
  | skip
  deriving DecidableEq

structure StoredTrigger where
  id : TriggerId
  owner : Owner
  agentId : AgentId
  kind : TriggerKind
  input : String
  placement : ExecutionPlacement
  workModel : WorkModel
  limits : Option Limits
  missed : Missed
  enabled : Bool
  /-- When the scheduler fires it next, in milliseconds. -/
  nextFireMs : Option Int64
  createdMs : Int64
  /-- Bumped by each resume. -/
  generation : Nat
  deriving DecidableEq

abbrev Triggers := List StoredTrigger

namespace Triggers

def putTrigger (s : Triggers) (trigger : StoredTrigger) (most : Nat) : Bool × Triggers :=
  if most ≤ (s.filter fun kept => kept.owner.is trigger.owner).length then (false, s) else (true, s ++ [trigger])

def isOf (owner : Owner) (id : TriggerId) (trigger : StoredTrigger) : Bool :=
  trigger.id = id && trigger.owner.is owner

def trigger (s : Triggers) (owner : Owner) (id : TriggerId) : Option StoredTrigger := s.find? (isOf owner id)

/-- The first trigger that meets `p`, changed by `f`. -/
def alter (s : Triggers) (p : StoredTrigger → Bool) (f : StoredTrigger → StoredTrigger) : Triggers :=
  match s with
  | [] => []
  | trigger :: rest => if p trigger then f trigger :: rest else trigger :: alter rest p f

def setEnabled (s : Triggers) (owner : Owner) (id : TriggerId) (enabled : Bool) : Option StoredTrigger × Triggers :=
  let set trigger := { trigger with enabled := enabled }
  ((s.trigger owner id).map set, s.alter (isOf owner id) set)

def deleteTrigger (s : Triggers) (owner : Owner) (id : TriggerId) : Bool × Triggers :=
  (s.any (isOf owner id), s.filter fun trigger => !isOf owner id trigger)

/-- A paused trigger runs again, with its next tick, at a new generation; a running one is left. -/
def resumed (nextFireMs : Option Int64) (trigger : StoredTrigger) : StoredTrigger :=
  if trigger.enabled then trigger
  else { trigger with enabled := true, nextFireMs := nextFireMs, generation := trigger.generation + 1 }

def resumeTrigger (s : Triggers) (owner : Owner) (id : TriggerId) (nextFireMs : Option Int64) :
    Option StoredTrigger × Triggers :=
  ((s.trigger owner id).map (resumed nextFireMs), s.alter (isOf owner id) (resumed nextFireMs))

def pauseTriggers (s : Triggers) (owner : Owner) : Nat × Triggers :=
  ((s.filter fun trigger => trigger.owner.is owner && trigger.enabled).length,
    s.map fun trigger => if trigger.owner.is owner then { trigger with enabled := false } else trigger)

/-- The running triggers whose next tick has come, soonest first. -/
def dueTriggers (s : Triggers) (nowMs : Int64) (limit : Nat) : List StoredTrigger :=
  let due := s.filter fun trigger => trigger.enabled && trigger.nextFireMs.any fun next => decide (next ≤ nowMs)
  let sooner (a b : StoredTrigger) : Bool :=
    a.nextFireMs.getD 0 < b.nextFireMs.getD 0 ∨
      a.nextFireMs.getD 0 = b.nextFireMs.getD 0 ∧ a.id.uuid.toNat ≤ b.id.uuid.toNat
  (due.mergeSort sooner).take limit

def advanceTrigger (s : Triggers) (id : TriggerId) (dueMs nextMs : Option Int64) : Bool × Triggers :=
  let due (trigger : StoredTrigger) : Bool := trigger.id = id && trigger.nextFireMs = dueMs
  (s.any due, s.alter due fun trigger => { trigger with nextFireMs := nextMs })

def webhookTrigger (s : Triggers) (id : TriggerId) : Option StoredTrigger :=
  s.find? fun trigger => trigger.id = id && match trigger.kind with
    | .webhook _ => true
    | .schedule _ _ => false

def unscheduledTriggers (s : Triggers) (limit : Nat) : List StoredTrigger :=
  (s.filter fun trigger => trigger.enabled && trigger.nextFireMs.isNone && match trigger.kind with
    | .schedule _ _ => true
    | .webhook _ => false).take limit

end Triggers

/-! ### The calls -/

inductive ControlCall where
  | stopped (run : RunId)
  | putStop (owner : Owner) (scope : StopScope)
  | openRunsUnder (owner : Owner) (scope : StopScope)
  | trigger (owner : Owner) (id : TriggerId)
  | putTrigger (trigger : StoredTrigger) (most : Nat)
  | setEnabled (owner : Owner) (id : TriggerId) (enabled : Bool)
  | deleteTrigger (owner : Owner) (id : TriggerId)
  | resumeTrigger (owner : Owner) (id : TriggerId) (nextFireMs : Option Int64)
  | pauseTriggers (owner : Owner)
  | dueTriggers (nowMs : Int64) (limit : Nat)
  | advanceTrigger (id : TriggerId) (dueMs nextMs : Option Int64)
  | webhookTrigger (id : TriggerId)
  | unscheduledTriggers (limit : Nat)

def ControlCall.Value : ControlCall → Type
  | .stopped _ | .putTrigger _ _ | .deleteTrigger _ _ | .advanceTrigger _ _ _ => Bool
  | .putStop _ _ => Unit
  | .openRunsUnder _ _ => List StoredRun
  | .trigger _ _ | .setEnabled _ _ _ | .resumeTrigger _ _ _ | .webhookTrigger _ => Option StoredTrigger
  | .pauseTriggers _ => Nat
  | .dueTriggers _ _ | .unscheduledTriggers _ => List StoredTrigger

structure Controls where
  stops : Stops
  triggers : Triggers

namespace Controls

def empty : Controls := ⟨.empty, []⟩

def exec (s : Controls) (runs : RunId → Option StoredRun) : (c : ControlCall) → c.Value × Controls
  | .stopped run => (s.stops.stopped runs run, s)
  | .putStop owner scope => ((), { s with stops := s.stops.putStop owner scope })
  | .openRunsUnder owner scope => (s.stops.openRunsUnder runs owner scope, s)
  | .trigger owner id => (s.triggers.trigger owner id, s)
  | .putTrigger trigger most =>
      ((s.triggers.putTrigger trigger most).1, { s with triggers := (s.triggers.putTrigger trigger most).2 })
  | .setEnabled owner id enabled =>
      ((s.triggers.setEnabled owner id enabled).1, { s with triggers := (s.triggers.setEnabled owner id enabled).2 })
  | .deleteTrigger owner id =>
      ((s.triggers.deleteTrigger owner id).1, { s with triggers := (s.triggers.deleteTrigger owner id).2 })
  | .resumeTrigger owner id next =>
      ((s.triggers.resumeTrigger owner id next).1, { s with triggers := (s.triggers.resumeTrigger owner id next).2 })
  | .pauseTriggers owner =>
      ((s.triggers.pauseTriggers owner).1, { s with triggers := (s.triggers.pauseTriggers owner).2 })
  | .dueTriggers nowMs limit => (s.triggers.dueTriggers nowMs limit, s)
  | .advanceTrigger id due next =>
      ((s.triggers.advanceTrigger id due next).1, { s with triggers := (s.triggers.advanceTrigger id due next).2 })
  | .webhookTrigger id => (s.triggers.webhookTrigger id, s)
  | .unscheduledTriggers limit => (s.triggers.unscheduledTriggers limit, s)

end Controls

end Gol
