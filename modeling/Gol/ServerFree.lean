import Gol.HarnessVerdicts
import Gol.ServerAsks
import Gol.ServerDrives

/-! The programs that stand by: producers of top-level runs, fires, sweeps, turns and requests store no child, and
what they append to a log as they read it is beside what its driver decides and does. -/

namespace Gol
open Library

/-- A call that puts no child, and adds nothing that a driver decides or does to a log that was read. -/
def Bystands : ServerCall → Prop
  | .store (.putRun _ (.child _)) => False
  | .store (.appendEventsAfter _ _ batch _) => ∀ payload ∈ payloads batch, Driver.isBeside payload = true
  | _ => True

/-- A batch of one event beside what a driver does. -/
theorem beside_single {event : Event} (h : Driver.isBeside event.payload = true) :
    ∀ payload ∈ payloads [event], Driver.isBeside payload = true := by
  intro payload hmem
  obtain rfl := List.mem_singleton.mp hmem
  exact h

theorem StoresNone.bystands {c : ServerCall} (h : StoresNone c) : Bystands c := by
  cases c with
  | store c =>
      cases c with
      | putRun run origin => exact h.elim
      | appendEventsAfter id seen batch party => exact h.elim
      | _ => trivial
  | _ => trivial

theorem EndsLog.bystands {c : ServerCall} (h : EndsLog c) : Bystands c := by
  cases c with
  | store c =>
      cases c with
      | putRun run origin => exact h.elim
      | appendEventsAfter id seen batch party => exact h.elim
      | _ => trivial
  | _ => trivial

section Only

variable {α : Type} {p : Prog ServerSig α}

theorem StoresNone.only (h : p.Only StoresNone) : p.Only Bystands := h.mono fun _ => StoresNone.bystands

theorem EndsLog.only (h : p.Only EndsLog) : p.Only Bystands := h.mono fun _ => EndsLog.bystands

end Only

/-! ### Producers and fires -/

theorem free_enqueue (spec : RunSpec) (onPushFailure : OnPushFailure) :
    (enqueue spec .request onPushFailure).Only Bystands := by
  refine ⟨trivial, fun stamps => ⟨trivial, fun pended => ?_⟩⟩
  cases pended with
  | error error => trivial
  | ok _ =>
      refine ⟨trivial, fun put => ?_⟩
      rcases put with error | (_ | _)
      · exact (StoresNone.only (only_endRun _ _)).bind fun _ => trivial
      · refine ⟨trivial, fun pushed => ?_⟩
        cases pushed with
        | ok _ => trivial
        | error error =>
            cases onPushFailure with
            | endRun => exact (StoresNone.only (only_endRun _ _)).bind fun _ => trivial
            | leaveToSweep => trivial
      · trivial

theorem free_gateOf (gate : FireGate) : (gateOf gate).Only Bystands := by
  refine ⟨trivial, fun answer => ?_⟩
  rcases answer with _ | (_ | (_ | trigger))
  · trivial
  · trivial
  · trivial
  · dsimp only
    split <;> trivial

theorem free_settleFire (spec : RunSpec) (key : Option FireGate) {gate : Prog ServerSig Gate}
    (hgate : gate.Only Bystands) :
    (settleFire spec key gate).Only Bystands := by
  refine ⟨trivial, fun loaded => ?_⟩
  cases loaded with
  | error error => trivial
  | ok loaded =>
      dsimp only
      split
      · refine ⟨trivial, fun unpended => ?_⟩
        cases unpended <;> trivial
      · refine hgate.bind fun decided => ?_
        cases decided with
        | «open» =>
            refine ⟨trivial, fun pushed => ?_⟩
            rcases pushed with _ | (_ | _) <;> trivial
        | shut why =>
            refine ⟨trivial, fun stamps => ⟨trivial, fun done => ?_⟩⟩
            rcases done with _ | (_ | _ | _ | _)
            · trivial
            · exact ⟨trivial, fun _ => trivial⟩
            · exact ⟨trivial, fun _ => trivial⟩
            · trivial
            · trivial
        | unknown reason => trivial

theorem free_enqueueFire (spec : RunSpec) (key : Option FireGate) {gate : Prog ServerSig Gate}
    (hgate : gate.Only Bystands) :
    (enqueueFire spec key gate).Only Bystands := by
  refine ⟨trivial, fun stamps => ⟨trivial, fun pended => ?_⟩⟩
  cases pended with
  | error error => trivial
  | ok _ =>
      refine ⟨trivial, fun put => ?_⟩
      cases put with
      | error error => trivial
      | ok _ => exact free_settleFire spec key hgate

theorem free_fire (u : Uuids) (owner : Owner) (id : TriggerId) (key : Option FireKey) :
    (fire u owner id key).Only Bystands := by
  refine ⟨trivial, fun answer => ?_⟩
  rcases answer with _ | (_ | (_ | trigger))
  · trivial
  · trivial
  · trivial
  · dsimp only
    split
    · trivial
    · split
      · trivial
      · refine ⟨trivial, fun found => ?_⟩
        cases found with
        | error error => trivial
        | ok found =>
            dsimp only
            split
            · trivial
            · exact ⟨trivial, fun stamps => (free_enqueueFire _ _ (free_gateOf _)).bind fun _ => trivial⟩

theorem free_settleFiredRun (u : Uuids) (spec : RunSpec) : (settleFiredRun u spec).Only Bystands := by
  unfold settleFiredRun
  split
  · exact free_settleFire spec _ (free_gateOf _)
  · exact free_settleFire spec none trivial

theorem free_replayNow (run : RunId) : (replayNow run).Only Bystands := by
  refine ⟨trivial, fun answer => ?_⟩
  cases answer <;> trivial

theorem free_replayStored (u : Uuids) (stored : StoredRun) (run : RunId) :
    (replayStored u stored run).Only Bystands := by
  unfold replayStored
  split
  · trivial
  · trivial
  · refine (free_settleFiredRun u _).bind fun settled => ?_
    rcases settled with _ | (_ | _ | _)
    · trivial
    · trivial
    · trivial
    · refine (free_replayNow run).bind fun replay => ?_
      rcases replay with _ | (_ | _ | _) <;> trivial

theorem free_fireWebhook (u : Uuids) (trigger : StoredTrigger) (event body : String) :
    (fireWebhook u trigger event body).Only Bystands := by
  refine ⟨trivial, fun loaded => ?_⟩
  rcases loaded with _ | (_ | stored)
  · trivial
  · refine (free_fire u _ _ _).bind fun fired => ?_
    rcases fired with _ | ⟨_ | _ | _ | _ | _, _ | _⟩
    on_goal 2 =>
      refine (free_replayNow _).bind fun replay => ?_
      rcases replay with _ | (_ | _ | _) <;> trivial
    all_goals trivial
  · exact free_replayStored u stored _

/-! ### The scheduler -/

theorem free_advance (nextTick : NextTick) (trigger : StoredTrigger) (cron timeZone : String) (due nowMs : Int64)
    (run : Option RunId) : (advance nextTick trigger cron timeZone due nowMs run).Only Bystands := by
  refine ⟨trivial, fun answer => ?_⟩
  rcases answer with _ | (_ | _) <;> trivial

theorem free_fireDueTrigger (u : Uuids) (nextTick : NextTick) (trigger : StoredTrigger) (nowMs : Int64) :
    (fireDueTrigger u nextTick trigger nowMs).Only Bystands := by
  unfold fireDueTrigger
  split
  · split
    · exact free_advance nextTick trigger _ _ _ nowMs none
    · refine (free_fire u _ _ _).bind fun fired => ?_
      rcases fired with _ | ⟨_ | _ | _ | _ | _, _⟩
      · trivial
      all_goals exact free_advance nextTick trigger _ _ _ nowMs _
  · trivial

theorem free_scheduleFirst (nextTick : NextTick) (nowMs : Int64) (triggers : List StoredTrigger) :
    (scheduleFirst nextTick nowMs triggers).Only Bystands := by
  induction triggers with
  | nil => trivial
  | cons trigger rest ih =>
      unfold scheduleFirst
      split
      · exact ih
      · split
        · refine ⟨trivial, fun answer => ?_⟩
          rcases answer with _ | (_ | _)
          · trivial
          · trivial
          · exact ih
        · refine ⟨trivial, fun answer => ?_⟩
          rcases answer with _ | (_ | _)
          · trivial
          · trivial
          · exact ih

theorem free_fireDue (u : Uuids) (nextTick : NextTick) (nowMs : Int64) (due : List StoredTrigger) :
    (fireDue u nextTick nowMs due).Only Bystands := by
  induction due with
  | nil => trivial
  | cons trigger rest ih => exact (free_fireDueTrigger u nextTick trigger nowMs).bind fun _ => ih.bind fun _ => trivial

theorem free_passNow (u : Uuids) (nextTick : NextTick) : (passNow u nextTick).Only Bystands := by
  refine ⟨trivial, fun now => ?_⟩
  cases now with
  | error error => trivial
  | ok nowMs =>
      refine ⟨trivial, fun answer => ?_⟩
      rcases answer with _ | (_ | unscheduled)
      · trivial
      · trivial
      · refine (free_scheduleFirst nextTick nowMs unscheduled).bind fun scheduled => ?_
        cases scheduled with
        | error error => trivial
        | ok _ =>
            refine ⟨trivial, fun answer => ?_⟩
            rcases answer with _ | (_ | due)
            · trivial
            · trivial
            · exact (free_fireDue u nextTick nowMs due).bind fun _ => trivial

/-! ### Sweeps -/

theorem free_reapRuns : reapRuns.Only Bystands := ⟨trivial, fun _ => trivial⟩

theorem free_sweepRun (u : Uuids) (forgotten : List RunId) (id : RunId) : (sweepRun u forgotten id).Only Bystands := by
  refine ⟨trivial, fun loaded => ?_⟩
  rcases loaded with _ | (_ | run)
  · trivial
  · dsimp only
    split
    · exact ⟨trivial, fun _ => trivial⟩
    · trivial
  · dsimp only
    split
    · exact ⟨trivial, fun _ => trivial⟩
    · split
      · refine (free_settleFiredRun u _).bind fun settled => ?_
        rcases settled with _ | (_ | _ | _) <;> trivial
      · refine ⟨trivial, fun pushed => ?_⟩
        cases pushed <;> trivial

theorem free_sweepRuns (u : Uuids) (forgotten listed : List RunId) : (sweepRuns u forgotten listed).Only Bystands := by
  induction listed with
  | nil => trivial
  | cons id rest ih => exact (free_sweepRun u forgotten id).bind fun _ => ih.bind fun _ => trivial

theorem free_sweep (u : Uuids) (after forgetAfter : Nat) : (sweep u after forgetAfter).Only Bystands := by
  refine ⟨trivial, fun forgotten => ?_⟩
  cases forgotten with
  | error error => trivial
  | ok forgotten =>
      refine ⟨trivial, fun listed => ?_⟩
      cases listed with
      | error error => trivial
      | ok listed => exact (free_sweepRuns u forgotten listed).bind fun _ => trivial

theorem free_taskEnd (ask : StoredMessage) : (taskEnd ask).Only Bystands := by
  unfold taskEnd
  split
  · trivial
  · refine ⟨trivial, fun loaded => ?_⟩
    rcases loaded with _ | (_ | run)
    · trivial
    · trivial
    · exact ⟨trivial, fun _ => trivial⟩

theorem free_stillOpen (ask : StoredMessage) : (stillOpen ask).Only Bystands := by
  unfold stillOpen
  split
  · trivial
  · refine ⟨trivial, fun found => ?_⟩
    cases found <;> trivial

theorem free_parkedAnswer (ask : MessageId) : (parkedAnswer ask).Only Bystands := by
  refine ⟨trivial, fun found => ?_⟩
  rcases found with _ | (_ | row)
  · trivial
  · trivial
  · refine (free_taskEnd row).bind fun ended => ?_
    rcases ended with _ | (_ | answer)
    · trivial
    · refine (free_stillOpen row).bind fun isOpen => ?_
      rcases isOpen with _ | (_ | _) <;> trivial
    · trivial

theorem free_sweepParked (run : RunId) (ask : MessageId) : (sweepParked run ask).Only Bystands := by
  refine ⟨trivial, fun loaded => ?_⟩
  cases loaded with
  | error error => trivial
  | ok loaded =>
      dsimp only
      split
      · refine ⟨trivial, fun woken => ?_⟩
        cases woken <;> trivial
      · refine ⟨trivial, fun covered => ?_⟩
        rcases covered with _ | (_ | (_ | _))
        · trivial
        · trivial
        · trivial
        · refine ⟨trivial, fun woken => ?_⟩
          cases woken <;> trivial
      · refine (free_parkedAnswer ask).bind fun answer => ?_
        cases answer with
        | none => trivial
        | some answer => exact StoresNone.only (only_deliver run ask answer .close)

theorem free_sweepParkedRuns (parked : List (RunId × MessageId)) : (sweepParkedRuns parked).Only Bystands := by
  induction parked with
  | nil => trivial
  | cons row rest ih => exact (free_sweepParked row.1 row.2).bind fun _ => ih.bind fun _ => trivial

theorem free_sweepDue (ask : StoredMessage) : (sweepDue ask).Only Bystands := by
  refine (free_taskEnd ask).bind fun ended => ?_
  cases ended with
  | error error => trivial
  | ok answer => exact StoresNone.only (only_deliver _ _ _ _)

theorem free_sweepDueAsks (due : List StoredMessage) : (sweepDueAsks due).Only Bystands := by
  induction due with
  | nil => trivial
  | cons ask rest ih => exact (free_sweepDue ask).bind fun _ => ih.bind fun _ => trivial

theorem free_sweepAsks : sweepAsks.Only Bystands := by
  refine ⟨trivial, fun parked => ?_⟩
  cases parked with
  | error error => trivial
  | ok parked =>
      refine (free_sweepParkedRuns parked).bind fun swept => ⟨trivial, fun due => ?_⟩
      cases due with
      | error error => trivial
      | ok due => exact (free_sweepDueAsks due).bind fun _ => trivial

theorem free_storedEnded (run : RunId) : (storedEnded run).Only Bystands := by
  refine ⟨trivial, fun loaded => ?_⟩
  rcases loaded with _ | (_ | _) <;> trivial

theorem free_sweepListed (listed : List SandboxName) : (sweepListed listed).Only Bystands := by
  induction listed with
  | nil => trivial
  | cons name rest ih =>
      unfold sweepListed
      split
      · exact ih
      · refine (free_storedEnded _).bind fun stored => ?_
        cases stored with
        | none => exact ih.bind fun _ => trivial
        | some stored => exact ⟨trivial, fun removed => ih.bind fun _ => trivial⟩

theorem free_sweepVolumes (left volumes : List RunId) : (sweepVolumes left volumes).Only Bystands := by
  induction volumes with
  | nil => trivial
  | cons run rest ih =>
      unfold sweepVolumes
      split
      · exact ih
      · refine (free_storedEnded _).bind fun stored => ?_
        dsimp only
        split
        · exact ih
        · exact ⟨trivial, fun removed => ih.bind fun _ => trivial⟩

theorem free_sweepSandboxes : sweepSandboxes.Only Bystands := by
  refine ⟨trivial, fun listed => ?_⟩
  cases listed with
  | error error => trivial
  | ok listed =>
      refine (free_sweepListed listed).bind fun swept => ⟨trivial, fun volumes => ?_⟩
      cases volumes with
      | error error => trivial
      | ok volumes => exact (free_sweepVolumes swept.2 volumes).bind fun _ => trivial

/-! ### Requests -/

theorem isBeside_of_answerTo {payload : EventPayload} {ask : MessageId} (h : answerTo payload = some ask) :
    Driver.isBeside payload = true := by
  cases payload with
  | effectDecided effect | effectAuthorized effect | effectDenied effect reason => cases h
  | toolResult | modelResponded | memoryRead | memoryWritten | childStarted | delegateRefused | messageSent
  | messageRefused | userAsked | userAskRefused => cases h
  | _ => rfl

theorem AppendsAnswers.bystands {c : ServerCall} (h : AppendsAnswers c) : Bystands c := by
  cases c with
  | store c =>
      cases c with
      | putRun run origin => exact h.elim
      | appendEventsAfter id seen batch party =>
          obtain ⟨event, ask, rfl, hanswers⟩ := h
          exact beside_single (isBeside_of_answerTo hanswers)
      | _ => trivial
  | _ => trivial

theorem free_stopRun (parked : List (RunId × MessageId)) (run : StoredRun) : (stopRun parked run).Only Bystands := by
  unfold stopRun
  dsimp only
  split
  · trivial
  · refine ⟨trivial, fun covered => ?_⟩
    rcases covered with _ | (_ | (_ | _))
    · trivial
    · trivial
    · trivial
    · refine ⟨trivial, fun stamps => ⟨beside_single rfl, fun done => ?_⟩⟩
      rcases done with _ | (_ | _ | _ | _)
      · trivial
      · dsimp only
        split
        · trivial
        · refine ⟨trivial, fun woken => ?_⟩
          cases woken <;> trivial
      · trivial
      · trivial
      · trivial

theorem free_stopRuns (parked : List (RunId × MessageId)) (runs : List StoredRun) :
    (stopRuns parked runs).Only Bystands := by
  induction runs with
  | nil => trivial
  | cons run rest ih => exact (free_stopRun parked run).bind fun _ => ih.bind fun _ => trivial

theorem free_stop (owner : Owner) (scope : StopScope) : (stop owner scope).Only Bystands := by
  refine ⟨trivial, fun put => ?_⟩
  rcases put with _ | (_ | _)
  · trivial
  · trivial
  · refine ⟨trivial, fun parked => ⟨trivial, fun runs => ?_⟩⟩
    rcases runs with _ | (_ | runs)
    · trivial
    · trivial
    · exact (free_stopRuns _ runs).bind fun _ => trivial

theorem free_stopOwner (owner : Owner) : (stopOwner owner).Only Bystands := by
  refine ⟨trivial, fun paused => (free_stop owner .owner).bind fun stopped => ?_⟩
  cases stopped <;> trivial

theorem free_openTurn (spec : RunSpec) : (openTurn spec).Only Bystands := by
  refine ⟨trivial, fun stamps => ⟨trivial, fun put => ?_⟩⟩
  cases put with
  | error error => trivial
  | ok _ => exact EndsLog.only (only_finishTurn _ _ _)

theorem free_subscriptionTurn (run : RunId) (refusal : String) : (subscriptionTurn run refusal).Only Bystands := by
  refine ⟨trivial, fun loaded => ?_⟩
  rcases loaded with _ | (_ | stored)
  · trivial
  · trivial
  · dsimp only
    split <;> trivial

theorem free_firstTick (nextTick : NextTick) (kind : TriggerKind) : (firstTick nextTick kind).Only Bystands := by
  cases kind with
  | schedule cron timeZone => exact ⟨trivial, fun _ => trivial⟩
  | webhook rotation => trivial

theorem free_createTrigger (nextTick : NextTick) (new : StoredTrigger) :
    (createTrigger nextTick new).Only Bystands := by
  unfold createTrigger
  split
  · trivial
  · refine (free_firstTick nextTick _).bind fun first => ?_
    cases first with
    | error error => trivial
    | ok first =>
        refine ⟨trivial, fun created => ⟨trivial, fun found => ?_⟩⟩
        cases found with
        | error error => trivial
        | ok found =>
            dsimp only
            split
            · trivial
            · refine ⟨trivial, fun put => ?_⟩
              rcases put with _ | (_ | (_ | _)) <;> trivial

theorem free_pauseTrigger (owner : Owner) (id : TriggerId) : (pauseTrigger owner id).Only Bystands := by
  refine ⟨trivial, fun answer => ?_⟩
  rcases answer with _ | (_ | (_ | _)) <;> trivial

theorem free_resumeTrigger (nextTick : NextTick) (owner : Owner) (id : TriggerId) :
    (resumeTrigger nextTick owner id).Only Bystands := by
  refine ⟨trivial, fun answer => ?_⟩
  rcases answer with _ | (_ | (_ | trigger))
  · trivial
  · trivial
  · trivial
  · dsimp only
    split
    · trivial
    · refine (free_firstTick nextTick _).bind fun next => ?_
      cases next with
      | error error => trivial
      | ok next =>
          refine ⟨trivial, fun resumed => ?_⟩
          rcases resumed with _ | (_ | (_ | _)) <;> trivial

theorem free_removeTrigger (owner : Owner) (id : TriggerId) : (removeTrigger owner id).Only Bystands := by
  refine ⟨trivial, fun answer => ?_⟩
  rcases answer with _ | (_ | _) <;> trivial

/-! ### Turns -/

theorem free_append (run : RunId) (token : Token) (seen : Nat) {batch : List Event}
    (h : ∀ payload ∈ payloads batch, Driver.isBeside payload = true) : (append run token seen batch).Only Bystands := by
  refine (EndsLog.only (only_holds run token)).bind fun held => ?_
  dsimp only
  split
  · trivial
  · refine ⟨h, fun done => ?_⟩
    cases done <;> trivial

/-- A turn that ends at once. -/
theorem free_endTurn (spec : RunSpec) (token : Token) (attempt seen : Nat) {event : Event}
    (h : Driver.isBeside event.payload = true) :
    (if isBoxTurn spec then endBox spec token attempt [event] else append spec.runId token seen [event]).Only
      Bystands := by
  split
  · exact EndsLog.only (only_endBox _ _ _ (endsAtTerminal_single event))
  · exact free_append _ _ _ (beside_single h)

theorem free_runStartedTurn (spec : RunSpec) (events : List Event) (token : Token) (attempt : Nat) :
    (runStartedTurn spec events token attempt).Only Bystands := by
  refine (EndsLog.only (only_stopped _)).bind fun covered => ?_
  split
  · exact ⟨trivial, fun stamps => free_endTurn spec token attempt _ rfl⟩
  · refine (EndsLog.only (only_holds _ _)).bind fun held => ?_
    split
    · trivial
    · refine ⟨trivial, fun loaded => ?_⟩
      rcases loaded with _ | (_ | stored)
      · trivial
      · trivial
      · dsimp only
        split
        · trivial
        · split
          · exact EndsLog.only (only_runBoxTurn _ _ _)
          · exact EndsLog.only ((only_finishTurn _ _ _).bind (only_finishedTurn _))

theorem free_runTurn (spec : RunSpec) (events : List Event) (token : Token) (attempt : Nat) :
    (runTurn spec events token attempt).Only Bystands := by
  unfold runTurn
  split
  · exact ⟨trivial, fun stamps => free_endTurn spec token attempt _ rfl⟩
  · split
    · exact free_runStartedTurn spec events token attempt
    · refine ⟨trivial, fun stamps => ?_⟩
      refine (free_append _ _ _ (beside_single rfl)).bind fun result => ?_
      split
      · exact free_runStartedTurn spec _ token attempt
      · trivial

/-! ### Acknowledgements -/

theorem free_answerAsk (w : Worker) (spec : RunSpec) : (w.answerAsk spec).Only Bystands := by
  unfold Worker.answerAsk
  split
  · trivial
  · refine ⟨trivial, fun found => ?_⟩
    rcases found with _ | (_ | ask)
    · trivial
    · trivial
    · refine ⟨trivial, fun loaded => ?_⟩
      rcases loaded with _ | (_ | task)
      · trivial
      · trivial
      · refine ⟨trivial, fun stamps => ?_⟩
        dsimp only
        split
        · exact (StoresNone.only (only_deliver _ _ _ _)).bind fun _ => trivial
        · trivial

theorem free_parkRun (claim : Claim) (ask : MessageId) : (parkRun claim ask).Only Bystands := by
  refine ⟨trivial, fun parked => ?_⟩
  rcases parked with _ | (_ | _)
  · trivial
  · trivial
  · refine ⟨trivial, fun loaded => ?_⟩
    cases loaded with
    | error error => trivial
    | ok loaded =>
        dsimp only
        split
        · refine ⟨trivial, fun woken => ?_⟩
          cases woken <;> trivial
        · refine (EndsLog.only (only_stopped _)).bind fun covered => ?_
          split
          · refine ⟨trivial, fun woken => ?_⟩
            cases woken <;> trivial
          · trivial

theorem free_ack (done : Done) : done.ack.Only Bystands := by
  unfold Done.ack
  split
  · exact free_parkRun _ _
  · split
    · exact ⟨trivial, fun _ => trivial⟩
    · exact ⟨trivial, fun _ => trivial⟩

end Gol
