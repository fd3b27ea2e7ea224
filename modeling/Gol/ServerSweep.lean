import Gol.ServerTriggers

/-! The server's programs beside its producers and workers: the sweeps of pending runs, of asks and of sandboxes
(`worker.rs`), and the requests that answer a question, stop runs and turn triggers on and off (`http.rs`). -/

namespace Gol
open Library

/-! ### The sweep of pending runs -/

/-- One run found pending. The answer says whether it was pushed. -/
def sweepRun (u : Uuids) (forgotten : List RunId) (id : RunId) : Prog ServerSig Bool :=
  .call (.store (.run id)) fun
    | .error _ => .ret false
    | .ok none =>
        -- Its put may still be in flight, until it has been pending for long.
        if id ∈ forgotten then .call (.queue (.unpend id none)) fun _ => .ret false else .ret false
    | .ok (some run) =>
        if !stillWaiting run.events then .call (.queue (.unpend id (some run.events))) fun _ => .ret false
        else if (run.spec.metadataGet triggerKey).isSome then
          (settleFiredRun u run.spec).bind fun
            | .ok .pushed => .ret true
            | _ => .ret false
        else
          .call (.queue (.push id)) fun
            | .ok _ => .ret true
            | .error _ => .ret false

def sweepRuns (u : Uuids) (forgotten : List RunId) : List RunId → Prog ServerSig (List RunId)
  | [] => .ret []
  | id :: rest =>
      (sweepRun u forgotten id).bind fun pushed =>
      (sweepRuns u forgotten rest).bind fun more => .ret (if pushed then id :: more else more)

/-- Pushes each run pending for at least `after` that was stored and never pushed, and forgets one that was not stored
within `forgetAfter`. -/
def sweep (u : Uuids) (after forgetAfter : Nat) : Prog ServerSig (Except String (List RunId)) :=
  .call (.queue (.pendingFor forgetAfter)) fun
    | .error error => .ret (.error error)
    | .ok (forgotten : List RunId) =>
        .call (.queue (.pendingFor after)) fun
          | .error error => .ret (.error error)
          | .ok (listed : List RunId) => (sweepRuns u forgotten listed).bind fun pushed => .ret (.ok pushed)

/-- Hands back the runs whose lease ran out. -/
def reapRuns : Prog ServerSig (Except String (List RunId)) := .call (.queue .reap) .ret

/-! ### The sweep of asks -/

/-- The answer `ask`'s task gives now that it has ended, if it has. -/
def taskEnd (ask : StoredMessage) : Prog ServerSig (Except String (Option EventPayload)) :=
  match ask.taskRun with
  | none => .ret (.ok none)
  | some task =>
      .call (.store (.run task)) fun
        | .error error => .ret (.error error.message)
        | .ok none => .ret (.ok none)
        | .ok (some run) =>
            .call (.outside .stamps) fun stamps =>
            .ret (.ok (taskAnswer run.spec.runId run.spec.agentId ask.id (stamps 0).messageId run.events))

/-- Whether `ask` is still open in the messages store. -/
def stillOpen (ask : StoredMessage) : Prog ServerSig (Except String Bool) :=
  match ask.taskRun with
  | none => .ret (.ok false)
  | some task =>
      .call (.outside (.askOfTask task)) fun
        | .error error => .ret (.error error.message)
        | .ok found => .ret (.ok (found.any fun (row : StoredMessage) => row.id = ask.id))

/-- What the sweep delivers to a parked run whose log still waits on `ask`, if anything. -/
def parkedAnswer (ask : MessageId) : Prog ServerSig (Option EventPayload) :=
  .call (.outside (.message ask)) fun
    | .error _ => .ret none
    | .ok none => .ret (some (.askTimedOut ask))
    | .ok (some row) =>
        (taskEnd row).bind fun
          | .error _ => .ret none
          | .ok (some answer) => .ret (some answer)
          | .ok none =>
              -- Closed while the log still waits: at its deadline, before the asker logged it.
              (stillOpen row).bind fun
                | .ok false => .ret (some (.askTimedOut ask))
                | _ => .ret none

/-- Whether a loaded run's log waits on `ask`, and whether the ask is a question to the user. -/
def waitsOn (loaded : Option StoredRun) (ask : MessageId) : Bool × Bool :=
  match loaded with
  | some run => (askState run.events ask = .open ∧ !hasEnded run.events, isUserQuestion run.events ask)
  | none => (false, false)

/-- One parked run: woken if its log no longer waits on its ask, or a stop covers its question; else given its answer.
-/
def sweepParked (run : RunId) (ask : MessageId) : Prog ServerSig (Except String Bool) :=
  let wake : Prog ServerSig (Except String Bool) :=
    .call (.queue (.wake run ask)) fun
      | .error error => .ret (.error error)
      | .ok _ => .ret (.ok true)
  .call (.store (.run run)) fun
    | .error _ => .ret (.ok false)
    | .ok loaded =>
        match waitsOn loaded ask with
        | (false, _) => wake
        | (true, true) =>
            .call (.control (.stopped run)) fun
              | some (.ok true) => wake
              | _ => .ret (.ok false)
        | (true, false) =>
            (parkedAnswer ask).bind fun
              | some answer => deliver run ask answer .close
              | none => .ret (.ok false)

def sweepParkedRuns : List (RunId × MessageId) → Prog ServerSig (List RunId)
  | [] => .ret []
  | (run, ask) :: rest =>
      (sweepParked run ask).bind fun swept =>
      (sweepParkedRuns rest).bind fun more => .ret (if swept = .ok true then run :: more else more)

/-- One ask past its deadline: answered with its task's end, or timed out. -/
def sweepDue (ask : StoredMessage) : Prog ServerSig (Except String Bool) :=
  (taskEnd ask).bind fun
    | .error _ => .ret (.ok false)
    | .ok answer => deliver ask.fromRun ask.id (answer.getD (.askTimedOut ask.id)) .close

def sweepDueAsks : List StoredMessage → Prog ServerSig (List RunId)
  | [] => .ret []
  | ask :: rest =>
      (sweepDue ask).bind fun swept =>
      (sweepDueAsks rest).bind fun more => .ret (if swept = .ok true then ask.fromRun :: more else more)

/-- Finishes what a crash can leave undone around an ask, and answers the asks past their deadline. -/
def sweepAsks : Prog ServerSig (Except String (List RunId)) :=
  .call (.queue .parked) fun
    | .error error => .ret (.error error)
    | .ok (parked : List (RunId × MessageId)) =>
        (sweepParkedRuns parked).bind fun swept =>
        .call (.outside .openAsksDue) fun
          | .error error => .ret (.error error.message)
          | .ok due => (sweepDueAsks due).bind fun more => .ret (.ok (swept ++ more))

/-! ### The sweep of sandboxes -/

/-- Run `run`, if it is stored and its log has ended. -/
def storedEnded (run : RunId) : Prog ServerSig (Option StoredRun) :=
  .call (.store (.run run)) fun
    | .ok (some stored) => .ret (if hasEnded stored.events then some stored else none)
    | _ => .ret none

/-- Removes the listed sandboxes of ended runs: the names removed, and the runs whose sandbox was left. -/
def sweepListed : List SandboxName → Prog ServerSig (List SandboxName × List RunId)
  | [] => .ret ([], [])
  | name :: rest =>
      match boxRunOf name with
      | none => sweepListed rest
      | some run =>
          (storedEnded run).bind fun
            | none => (sweepListed rest).bind fun more => .ret (more.1, run :: more.2)
            | some _ =>
                .call (.host (.destroy name .sweep)) fun removed =>
                (sweepListed rest).bind fun more =>
                .ret (match removed with
                  | .ok _ => (name :: more.1, more.2)
                  | .error _ => (more.1, run :: more.2))

/-- Removes the workspace volumes of ended Box runs whose sandboxes are all gone. -/
def sweepVolumes (left : List RunId) : List RunId → Prog ServerSig (List RunId)
  | [] => .ret []
  | run :: rest =>
      if run ∈ left then sweepVolumes left rest else
      (storedEnded run).bind fun stored =>
      if (stored.map fun run => run.spec.placement) ≠ some .box then sweepVolumes left rest else
      .call (.outside (.removeVolume run)) fun removed =>
      (sweepVolumes left rest).bind fun more =>
      .ret (match removed with
        | .ok _ => run :: more
        | .error _ => more)

/-- Removes every Box sandbox of an ended turn, then the volume of each ended Box run with no sandbox left. -/
def sweepSandboxes : Prog ServerSig (Except String (List SandboxName × List RunId)) :=
  .call (.host .list) fun
    | .error message => .ret (.error message)
    | .ok (listed : List SandboxName) =>
        (sweepListed listed).bind fun swept =>
        .call (.outside .listVolumes) fun
          | .error _ => .ret (.ok (swept.1, []))
          | .ok volumes => (sweepVolumes swept.2 volumes).bind fun removed => .ret (.ok (swept.1, removed))

/-! ### Requests -/

inductive ApiError where
  | badRequest (reason : String)
  | tooLarge (reason : String)
  | notFound
  | agentNotFound
  | conflict (reason : String)
  | triggerNotFound
  | noStops
  | noTriggers
  | store (message : String)
  deriving DecidableEq

def trim (text : String) : String :=
  String.ofList (((text.toList.dropWhile isWhiteSpace).reverse.dropWhile isWhiteSpace).reverse)

/-- One try of `answerQuestion` after another: a log that moved is read again. -/
def answerTries (run : RunId) (text : String) : Nat → Option MessageId → Prog ServerSig (Except ApiError Unit)
  | 0, _ => .ret (.error (.store "the task kept changing while it was answered"))
  | tries + 1, asked =>
      .call (.store (.run run)) fun
        | .error error => .ret (.error (.store error.message))
        | .ok none => .ret (.error .notFound)
        | .ok (some stored) =>
            match openQuestion stored.spec stored.events with
            | none => .ret (.error (.conflict "the task is not waiting for you"))
            | some question =>
                if asked.getD question ≠ question then
                  .ret (.error (.conflict "the task is waiting on another question"))
                else
                .call (.outside .stamps) fun stamps =>
                .call (.store (.appendEventsAfter run stored.events.length
                    [systemEvent stored.spec (stamps 0) (.userAnswered question text)] .user)) fun
                  | .error error => .ret (.error (.store error.message))
                  | .ok .appended => .call (.queue (.wake run question)) fun _ => .ret (.ok ())
                  | .ok .moved => answerTries run text tries (some question)
                  | .ok .missing => .ret (.error .notFound)
                  | .ok .terminal => .ret (.error (.conflict "the task is not waiting for you"))

/-- Appends the user's `text` as the answer to the question the run waits on, and wakes the run. -/
def answerQuestion (run : RunId) (text : String) (asked : Option MessageId) : Prog ServerSig (Except ApiError Unit) :=
  let text := trim text
  if text.isEmpty then .ret (.error (.badRequest "the answer is empty"))
  else if maxMessageBytes < text.utf8ByteSize then .ret (.error (.tooLarge "the answer is too long"))
  else answerTries run text 3 asked

/-- What a stop did to one run: whether it cancelled it, and whether something failed. -/
structure StoppedRun where
  cancelled : Bool
  failed : Bool
  deriving DecidableEq

/-- Cancels a covered run that no worker holds, on the log it read, and wakes a parked one. -/
def stopRun (parked : List (RunId × MessageId)) (run : StoredRun) : Prog ServerSig StoppedRun :=
  let id := run.spec.runId
  let ask := parked.lookup id
  let dispatch := (fold run.spec run.events).dispatch
  if ¬ (dispatch = .created ∨ dispatch = .queued) ∧ ask = none then .ret ⟨false, false⟩ else
  .call (.control (.stopped id)) fun
    | some (.ok true) =>
        .call (.outside .stamps) fun stamps =>
        .call (.store (.appendEventsAfter id run.events.length [runCancelledEvent run.spec stamps] .stop)) fun
          | .error _ => .ret ⟨false, true⟩
          | .ok .appended =>
              match ask with
              | none => .ret ⟨true, false⟩
              | some ask =>
                  .call (.queue (.wake id ask)) fun
                    | .ok _ => .ret ⟨true, false⟩
                    | .error _ => .ret ⟨true, true⟩
          | .ok _ => .ret ⟨false, false⟩
    | some (.ok false) => .ret ⟨false, false⟩
    | _ => .ret ⟨false, true⟩

/-- The runs cancelled, and whether something failed. -/
def stopRuns (parked : List (RunId × MessageId)) : List StoredRun → Prog ServerSig (List RunId × Bool)
  | [] => .ret ([], false)
  | run :: rest =>
      (stopRun parked run).bind fun done =>
      (stopRuns parked rest).bind fun more =>
      .ret (if done.cancelled then run.spec.runId :: more.1 else more.1, done.failed || more.2)

/-- Records `owner`'s stop of `scope` and cancels the covered runs no worker holds. -/
def stop (owner : Owner) (scope : StopScope) : Prog ServerSig (Except ApiError (List RunId)) :=
  .call (.control (.putStop owner scope)) fun
    | none => .ret (.error .noStops)
    | some (.error error) => .ret (.error (.store error.message))
    | some (.ok _) =>
        .call (.queue .parked) fun parked =>
        .call (.control (.openRunsUnder owner scope)) fun
          | some (.ok (runs : List StoredRun)) =>
              (stopRuns (match parked with
                | .ok (parked : List (RunId × MessageId)) => parked
                | .error _ => []) runs).bind fun done =>
              .ret (if done.2 || parked.toOption.isNone then .error (.store "a stop could not cancel every run")
                else .ok done.1)
          | some (.error error) => .ret (.error (.store error.message))
          | none => .ret (.error .noStops)

/-- Stops everything the caller's principal owns, its triggers paused first. -/
def stopOwner (owner : Owner) : Prog ServerSig (Except ApiError (List RunId × Nat)) :=
  .call (.control (.pauseTriggers owner)) fun paused =>
  (stop owner .owner).bind fun
    | .error error => .ret (.error error)
    | .ok cancelled =>
        .ret (match paused with
          | some (.ok count) => .ok (cancelled, count)
          | some (.error error) => .error (.store error.message)
          | none => .ok (cancelled, 0))

/-- The most triggers one principal keeps. -/
def maxTriggers : Nat := 100

def maxLimit : UInt32 := 64

/-- A text that is not blank, of at most `most` bytes and without NUL. -/
def shaped (text : String) (most : Nat) : Bool :=
  !(trim text).isEmpty && text.utf8ByteSize ≤ most && !text.toList.contains '\x00'

/-- Why a request for a trigger is refused before anything is read, if it is. -/
def triggerProblem (nextTick : NextTick) (new : StoredTrigger) : Option ApiError :=
  let unscheduled : Bool := match new.kind with
    | .schedule cron timeZone => !shaped cron 256 || !shaped timeZone 64 || (nextTick cron timeZone 0).toOption.isNone
    | .webhook _ => false
  let bounded (limit : UInt32) : Bool := 1 ≤ limit && limit ≤ maxLimit
  if unscheduled then some (.badRequest "a schedule needs a cron expression and a known time zone")
  else if new.limits.any fun limits => !bounded limits.maxSteps || !bounded limits.maxModelCalls then
    some (.badRequest "limits must be between 1 and 64")
  else if new.input.toList.contains '\x00' then some (.badRequest "the input holds a NUL character")
  else if maxMessageBytes < new.input.utf8ByteSize then some (.tooLarge "the input is over 32 KiB")
  else none

/-- A trigger's first tick after now: none for a webhook. -/
def firstTick (nextTick : NextTick) : TriggerKind → Prog ServerSig (Except ApiError (Option Int64))
  | .schedule cron timeZone =>
      .call (.outside .timestampNow) fun nowMs =>
      .ret (match nextTick cron timeZone nowMs with
        | .ok next => .ok (some next)
        | .error _ => .error (.badRequest "the schedule has no next tick"))
  | .webhook _ => .ret (.ok none)

/-- Stores a trigger of the caller's agent. A new trigger runs, at generation 0, from its first tick on. -/
def createTrigger (nextTick : NextTick) (new : StoredTrigger) : Prog ServerSig (Except ApiError StoredTrigger) :=
  match triggerProblem nextTick new with
  | some problem => .ret (.error problem)
  | none =>
  (firstTick nextTick new.kind).bind fun
    | .error error => .ret (.error error)
    | .ok first =>
        .call (.outside .timestampNow) fun created =>
        let trigger := { new with enabled := true, nextFireMs := first, generation := 0, createdMs := created }
        .call (.outside (.agent trigger.agentId)) fun
          | .error error => .ret (.error (.store error.message))
          | .ok found =>
              if !found.any fun agent => agent.owner.is trigger.owner then .ret (.error .agentNotFound) else
              .call (.control (.putTrigger trigger maxTriggers)) fun
                | some (.ok true) => .ret (.ok trigger)
                | some (.ok false) => .ret (.error (.conflict "a principal keeps at most 100 triggers"))
                | some (.error error) => .ret (.error (.store error.message))
                | none => .ret (.error .noTriggers)

def pauseTrigger (owner : Owner) (id : TriggerId) : Prog ServerSig (Except ApiError StoredTrigger) :=
  .call (.control (.setEnabled owner id false)) fun
    | some (.ok (some trigger)) => .ret (.ok trigger)
    | some (.ok none) => .ret (.error .triggerNotFound)
    | some (.error error) => .ret (.error (.store error.message))
    | none => .ret (.error .noTriggers)

/-- Resumes a paused trigger from its first tick after now. A running one keeps its tick. -/
def resumeTrigger (nextTick : NextTick) (owner : Owner) (id : TriggerId) :
    Prog ServerSig (Except ApiError StoredTrigger) :=
  .call (.control (.trigger owner id)) fun
    | none => .ret (.error .noTriggers)
    | some (.error error) => .ret (.error (.store error.message))
    | some (.ok none) => .ret (.error .triggerNotFound)
    | some (.ok (some trigger)) =>
        if trigger.enabled then .ret (.ok trigger) else
        (firstTick nextTick trigger.kind).bind fun
          | .error error => .ret (.error error)
          | .ok next =>
              .call (.control (.resumeTrigger owner id next)) fun
                | some (.ok (some trigger)) => .ret (.ok trigger)
                | some (.ok none) => .ret (.error .triggerNotFound)
                | some (.error error) => .ret (.error (.store error.message))
                | none => .ret (.error .noTriggers)

def removeTrigger (owner : Owner) (id : TriggerId) : Prog ServerSig (Except ApiError Bool) :=
  .call (.control (.deleteTrigger owner id)) fun
    | some (.ok gone) => .ret (.ok gone)
    | some (.error error) => .ret (.error (.store error.message))
    | none => .ret (.error .noTriggers)

end Gol
