import Gol.ServerWorker
import Gol.ServerSweep

/-! Quick turns (`inference.rs`): a turn that its request stores and runs at once, and the requests with which the
desktop completes or fails a turn on its own subscription. -/

namespace Gol
open Library

/-- What a quick turn stores first. -/
def openEvents (spec : RunSpec) (stamps : Nat → Stamp) : List Event :=
  [systemEvent spec (stamps 0) .runCreated, systemEvent spec (stamps 1) .runStarted,
    systemEvent spec (stamps 2) (.userMessage spec.input)]

/-- Records the user's message, then finishes the turn. -/
def openTurn (spec : RunSpec) : Prog ServerSig (Except TurnError TurnOutcome) :=
  .call (.outside .stamps) fun stamps =>
  .call (.store (.putRun ⟨spec, openEvents spec stamps⟩ .request)) fun
    | .error error => .ret (.error (.store error.message))
    | .ok _ => finishTurn spec (openEvents spec stamps) .request

/-- A subscription turn is open when nothing has ended it and its harness runs unanswered, its message recorded. -/
def checkOpenTurn (run : StoredRun) : Except TurnError Unit :=
  if hasEnded run.events then .error (.conflict "turn already completed") else
  match (fold run.spec run.events).harness with
  | .running _ _ false =>
      if run.events.any fun event => match event.payload with
        | .userMessage _ => true
        | _ => false
      then .ok () else .error (.conflict "user message is not recorded")
  | _ => .error (.conflict "turn is not open")

/-- The stored turn that a request may end: a subscription turn that is open. -/
def subscriptionTurn (run : RunId) (refusal : String) : Prog ServerSig (Except TurnError StoredRun) :=
  .call (.store (.run run)) fun
    | .error error => .ret (.error (.store error.message))
    | .ok none => .ret (.error .notFound)
    | .ok (some stored) =>
        if stored.spec.workModel.credential = .platformGateway then .ret (.error (.conflict refusal))
        else .ret ((checkOpenTurn stored).map fun _ => stored)

/-- The desktop's completion of its turn: the sandbox is removed, then the completion stored. -/
def acceptSubscriptionCompletion (run : RunId) (text : String) : Prog ServerSig (Except TurnError TurnOutcome) :=
  let text := trim text
  if text.isEmpty then .ret (.error (.badRequest "completion text is empty")) else
  (subscriptionTurn run "gateway completions come from the server").bind fun
    | .error error => .ret (.error error)
    | .ok stored =>
        let record : Prog ServerSig (Except TurnError TurnOutcome) :=
          .call (.outside .stamps) fun stamps =>
          let completion := completionEvents stored.spec stamps text
          recordTurn stored.spec.runId .request completion
            ⟨stored.spec, stored.events ++ completion, some text, "subscription", false⟩
        if stored.spec.placement = .box then
          .call (.host (.absent (.container stored.spec.runId) .request)) fun
            | .error message => .ret (.error (.sandbox message))
            | .ok true => .ret (.error (.sandbox "box sandbox is gone before the turn completed"))
            | .ok false =>
                .call (.host (.destroy (.container stored.spec.runId) .request)) fun
                  | .error message => .ret (.error (.sandbox message))
                  | .ok _ => record
        else record

/-- The desktop's report that its turn failed: the sandbox is removed if it is there, then the failure stored. -/
def failTurn (run : RunId) (message : String) : Prog ServerSig (Except TurnError TurnOutcome) :=
  let message := trim message
  if message.isEmpty then .ret (.error (.badRequest "failure message is empty")) else
  (subscriptionTurn run "gateway turns end on the server").bind fun
    | .error error => .ret (.error error)
    | .ok stored =>
        let record : Prog ServerSig (Except TurnError TurnOutcome) :=
          .call (.outside .stamps) fun stamps =>
          let failed := runFailedEvent stored.spec stamps .dependency message
          recordTurn run .request [failed] ⟨stored.spec, stored.events ++ [failed], none, "subscription", false⟩
        if stored.spec.placement = .box then
          .call (.host (.absent (.container stored.spec.runId) .request)) fun
            | .error message => .ret (.error (.sandbox message))
            | .ok true => record
            | .ok false =>
                .call (.host (.destroy (.container stored.spec.runId) .request)) fun
                  | .error message => .ret (.error (.sandbox message))
                  | .ok _ => record
        else record

end Gol
