import Gol.ServerBoxes

/-! The callers of one quick turn: the request that opens it, and any number of the desktop's reports that it
completed or failed. They race on its log and its sandbox, a call at a time in any order, while others store the turn
again and add late messages. The host's calls can fail before they take effect or lose their answers, and a sandbox
can be gone at any time. -/

namespace Gol
open Library World

inductive TurnCall where
  | openTurn
  | complete (text : String)
  | fail (message : String)
  deriving DecidableEq

namespace TurnCall

def program (spec : RunSpec) : TurnCall → Prog ServerSig (Except TurnError TurnOutcome)
  | openTurn => Gol.openTurn spec
  | complete text => acceptSubscriptionCompletion spec.runId text
  | fail message => failTurn spec.runId message

/-- Whether the call, when it succeeds, ends the turn: to open one ends it on the gateway only. -/
def ends (spec : RunSpec) : TurnCall → Prop
  | openTurn => spec.workModel.credential = .platformGateway
  | complete _ | fail _ => True

end TurnCall

/-! ### What a caller was answered -/

/-- A call that was made, and its answer. -/
abbrev MadeCall := (c : ServerCall) × c.Answer

namespace MadeCall

/-- The batch that the call added to a log, if it was told so. -/
def added : MadeCall → Option (List Event)
  | ⟨.store (.appendEvents _ batch _), .ok .appended⟩ => some batch
  | _ => none

def foundAbsent (name : SandboxName) : MadeCall → Bool
  | ⟨.host (.absent other _), .ok true⟩ => other = name
  | _ => false

def foundUp (name : SandboxName) : MadeCall → Bool
  | ⟨.host (.absent other _), .ok false⟩ => other = name
  | _ => false

def removed (name : SandboxName) : MadeCall → Bool
  | ⟨.host (.destroy other _), .ok _⟩ => other = name
  | _ => false

/-- The host confirmed the sandbox removed or absent. -/
def confirms (name : SandboxName) (done : MadeCall) : Bool := done.foundAbsent name || done.removed name

def provisions (name : SandboxName) : MadeCall → Bool
  | ⟨.host (.provision other _), _⟩ => other = name
  | _ => false

variable {name : SandboxName} {done : MadeCall}

theorem foundUp_eq (h : done.foundUp name = true) : ∃ party, done = ⟨.host (.absent name party), .ok false⟩ := by
  unfold foundUp at h
  split at h
  · next other party => exact ⟨party, of_decide_eq_true h ▸ rfl⟩
  · cases h

theorem foundAbsent_eq (h : done.foundAbsent name = true) : ∃ party, done = ⟨.host (.absent name party), .ok true⟩ := by
  unfold foundAbsent at h
  split at h
  · next other party => exact ⟨party, of_decide_eq_true h ▸ rfl⟩
  · cases h

theorem removed_eq (h : done.removed name = true) : ∃ party, done = ⟨.host (.destroy name party), .ok ()⟩ := by
  unfold removed at h
  split at h
  · next other party _ => exact ⟨party, of_decide_eq_true h ▸ rfl⟩
  · cases h

theorem provisions_eq (h : done.provisions name = true) :
    ∃ party answer, done = ⟨.host (.provision name party), answer⟩ := by
  unfold provisions at h
  split at h
  · next other party answer =>
      obtain rfl := of_decide_eq_true h
      exact ⟨party, answer, rfl⟩
  · cases h

end MadeCall

structure TurnCaller where
  call : TurnCall
  left : Prog ServerSig (Except TurnError TurnOutcome)
  /-- The calls it made, newest first. -/
  made : List MadeCall

namespace TurnCaller

def start (spec : RunSpec) (call : TurnCall) : TurnCaller := ⟨call, call.program spec, []⟩

def Returned (caller : TurnCaller) : Prop := ∃ value, caller.left = .ret value

/-- What it added to the turn's log. -/
def added (caller : TurnCaller) : Option (List Event) := caller.made.findSome? MadeCall.added

end TurnCaller

/-! ### The pool -/

structure TurnPool where
  server : Server
  callers : List TurnCaller

/-- A call of the store is carried out and answered so, or fails before it takes effect. -/
def Server.StoreAnswers (s : Server) (c : ServerCall) (answer : c.Answer) (t : Server) : Prop :=
  ∀ op, c = .store op → (∃ now, s.Answers now c answer ∧ t = (s.after now c).record ⟨c, answer, true⟩) ∨
    Server.Fails c answer ∧ t = s.record ⟨c, answer, false⟩

/-- One step around the turn of `spec`, where each call of its callers meets `ok`. -/
inductive TurnPool.Step (spec : RunSpec) (ok : TurnPool → ServerCall → Prop) : TurnPool → TurnPool → Prop
  | report (s : Server) (callers : List TurnCaller) (call : TurnCall) (h : call ≠ .openTurn) :
      Step spec ok ⟨s, callers⟩ ⟨s, callers ++ [.start spec call]⟩
  | call (s t : Server) (before after : List TurnCaller) (call : TurnCall) (c : ServerCall)
      (next : c.Answer → Prog ServerSig (Except TurnError TurnOutcome)) (made : List MadeCall) (answer : c.Answer)
      (hok : ok ⟨s, before ++ ⟨call, .call c next, made⟩ :: after⟩ c) (h : s.Step c answer t)
      (hstore : s.StoreAnswers c answer t) :
      Step spec ok ⟨s, before ++ ⟨call, .call c next, made⟩ :: after⟩
        ⟨t, before ++ ⟨call, next answer, ⟨c, answer⟩ :: made⟩ :: after⟩
  /-- The turn is stored once more. -/
  | redelivered (s : Server) (callers : List TurnCaller) (now : Timestamp) (run : StoredRun) (origin : Origin)
      (hid : run.spec.runId = spec.runId) (hstored : (s.store.runs spec.runId).isSome) :
      Step spec ok ⟨s, callers⟩ ⟨s.after now (.store (.putRun run origin)), callers⟩
  /-- A late message. -/
  | message (s : Server) (callers : List TurnCaller) (now : Timestamp) (event : Event) (text : String) (party : Party)
      (htext : event.payload = .userMessage text) :
      Step spec ok ⟨s, callers⟩ ⟨s.after now (.store (.appendEvents spec.runId [event] party)), callers⟩
  /-- The turn's sandbox is gone, whatever removed it. -/
  | gone (s : Server) (callers : List TurnCaller) :
      Step spec ok ⟨s, callers⟩ ⟨{ s with sandboxes := s.sandboxes.filter (· ≠ .container spec.runId) }, callers⟩
  /-- Anything that leaves the turn's log and its sandbox as they are. -/
  | elsewhere (s t : Server) (callers : List TurnCaller) (hlog : t.store.runs spec.runId = s.store.runs spec.runId)
      (hbox : .container spec.runId ∈ t.sandboxes ↔ .container spec.runId ∈ s.sandboxes) :
      Step spec ok ⟨s, callers⟩ ⟨t, callers⟩

/-- The pools reached from where the turn is about to be opened. -/
inductive TurnPool.Reach (spec : RunSpec) (ok : TurnPool → ServerCall → Prop) : TurnPool → Prop
  | start (s : Server) (hlog : s.store.runs spec.runId = none) (hbox : .container spec.runId ∉ s.sandboxes) :
      Reach spec ok ⟨s, [.start spec .openTurn]⟩
  | step {pool pool' : TurnPool} (before : Reach spec ok pool) (h : TurnPool.Step spec ok pool pool') :
      Reach spec ok pool'

namespace TurnPool

/-- Any call at all. -/
def any (_ : TurnPool) (_ : ServerCall) : Prop := True

/-- The turn's sandbox is not started while a call that found it absent has yet to return. -/
def Clear (spec : RunSpec) (pool : TurnPool) (c : ServerCall) : Prop :=
  (∃ party, c = .host (.provision (.container spec.runId) party)) →
    ∀ caller ∈ pool.callers, caller.made.any (MadeCall.foundAbsent (.container spec.runId)) = true → caller.Returned

/-- The turn's log has ended. -/
def ended (spec : RunSpec) (pool : TurnPool) : Bool :=
  (pool.server.store.runs spec.runId).any fun run => hasEnded run.events

/-- The caller's batch ends the log; before it, the host confirmed the sandbox of a Box turn gone. -/
structure Ends (spec : RunSpec) (s : Server) (caller : TurnCaller) (batch : List Event) : Prop where
  ended : hasEnded batch = true
  log : ∃ run events, s.store.runs spec.runId = some run ∧ run.events = events ++ batch
  made : ∃ party older, caller.made = ⟨.store (.appendEvents spec.runId batch party), .ok .appended⟩ :: older ∧
    (spec.placement = .box → older.any (MadeCall.confirms (.container spec.runId)) = true)

/-- What is so of the turn in every run. -/
structure Settled (spec : RunSpec) (pool : TurnPool) : Prop where
  /-- At most one terminal event, the last one. -/
  log : ∀ run, pool.server.store.runs spec.runId = some run → EndsAtTerminal run.events
  /-- One caller ended an ended log; none added to an open one. -/
  one : (pool.callers.countP fun caller => caller.added.isSome) = if pool.ended spec then 1 else 0
  added : ∀ caller ∈ pool.callers, ∀ batch, caller.added = some batch → Ends spec pool.server caller batch
  /-- Who returned `Ok` ended the turn, unless it only opened it. -/
  ok : ∀ caller ∈ pool.callers, (∃ outcome, caller.left = .ret (.ok outcome)) → caller.call.ends spec →
    caller.added.isSome = true
  /-- Who ended it returns `Ok`; only the opener's `RunFailed` is reported as an error. -/
  reported : ∀ caller ∈ pool.callers, ∀ batch, caller.added = some batch →
    (∃ outcome, caller.left = .ret (.ok outcome)) ∨
      caller.call = .openTurn ∧
        ∃ cls message error, payloads batch = [.runFailed cls message] ∧ caller.left = .ret (.error error)

end TurnPool

/-! ### What a caller does -/

section Caller

variable (spec : RunSpec) (call : TurnCall)

/-- What a caller owes at a call, having made the calls `made`. -/
def TurnOwes (made : List MadeCall) (c : ServerCall) : Prop :=
  made.findSome? MadeCall.added = none ∧
    match c with
    | .store (.putRun run _) => call = .openTurn ∧ run.spec = spec ∧ hasEnded run.events = false
    | .store (.appendEvents id batch _) =>
        id = spec.runId ∧ EndsAtTerminal batch ∧ hasEnded batch = true ∧
          (spec.placement = .box → made.any (MadeCall.confirms (.container spec.runId)) = true)
    | .store (.appendEventsAfter _ _ _ _) => False
    | .host (.provision name _) =>
        name = .container spec.runId ∧ call = .openTurn ∧ made.any (MadeCall.provisions name) = false ∧
          made.any (MadeCall.confirms name) = false
    | .host (.destroy name _) =>
        name = .container spec.runId ∧
          (made.any (MadeCall.provisions name) = true ∨ made.any (MadeCall.foundUp name) = true)
    | _ => True

/-- The turn is stored with its spec. -/
def TurnTold (done : MadeCall) : Prop :=
  ∀ stored, done = ⟨.store (.run spec.runId), .ok (some stored)⟩ → stored.spec = spec

abbrev turnWorld : World ServerSig :=
  alone (List MadeCall) (fun made c answer later => later = ⟨c, answer⟩ :: made ∧ TurnTold spec ⟨c, answer⟩)
    (TurnOwes spec call)

/-- What a caller that returned did. -/
def TurnReturns (made : List MadeCall) (value : Except TurnError TurnOutcome) : Prop :=
  ((∃ outcome, value = .ok outcome) → call.ends spec → (made.findSome? MadeCall.added).isSome = true) ∧
    ∀ batch, made.findSome? MadeCall.added = some batch →
      (∃ outcome, value = .ok outcome) ∨
        call = .openTurn ∧ ∃ cls message error, payloads batch = [.runFailed cls message] ∧ value = .error error

end Caller

section Programs

variable {spec : RunSpec} {call : TurnCall} {made : List MadeCall}

theorem any_confirms_removed {name : SandboxName} {party : Party} {done : Unit} :
    List.any (⟨.host (.destroy name party), .ok done⟩ :: made) (MadeCall.confirms name) = true := by
  have hremoved : MadeCall.removed name ⟨.host (.destroy name party), .ok done⟩ = true := decide_eq_true rfl
  rw [List.any_cons, MadeCall.confirms, hremoved, Bool.or_true, Bool.true_or]

theorem any_confirms_absent {name : SandboxName} {party : Party} :
    List.any (⟨.host (.absent name party), .ok true⟩ :: made) (MadeCall.confirms name) = true := by
  have habsent : MadeCall.foundAbsent name ⟨.host (.absent name party), .ok true⟩ = true := decide_eq_true rfl
  rw [List.any_cons, MadeCall.confirms, habsent, Bool.true_or, Bool.true_or]

theorem any_provisions {name : SandboxName} {party : Party} {answer : Except String Unit} :
    List.any (⟨.host (.provision name party), answer⟩ :: made) (MadeCall.provisions name) = true := by
  have hprovisions : MadeCall.provisions name ⟨.host (.provision name party), answer⟩ = true := decide_eq_true rfl
  rw [List.any_cons, hprovisions, Bool.true_or]

theorem any_foundUp {name : SandboxName} {party : Party} :
    List.any (⟨.host (.absent name party), .ok false⟩ :: made) (MadeCall.foundUp name) = true := by
  have hup : MadeCall.foundUp name ⟨.host (.absent name party), .ok false⟩ = true := decide_eq_true rfl
  rw [List.any_cons, hup, Bool.true_or]

/-- A call that adds nothing. -/
theorem safe_ask {c : ServerCall} {next : c.Answer → Prog ServerSig (Except TurnError TurnOutcome)}
    (howes : TurnOwes spec call made c) (hnext : ∀ answer, TurnTold spec ⟨c, answer⟩ →
      (turnWorld spec call).Safe (TurnReturns spec call) (next answer) (⟨c, answer⟩ :: made)) :
    (turnWorld spec call).Safe (TurnReturns spec call) (.call c next) made := by
  refine safe_alone_call.mpr ⟨howes, ?_⟩
  rintro answer _ ⟨rfl, htold⟩
  exact hnext answer htold

/-- A caller that added nothing returns an error. -/
theorem safe_error (hnone : made.findSome? MadeCall.added = none) (error : TurnError) :
    (turnWorld spec call).Safe (TurnReturns spec call) (.ret (.error error)) made :=
  ⟨fun ⟨_, heq⟩ => (by cases heq), fun batch hbatch => by rw [hnone] at hbatch; cases hbatch⟩

theorem safe_recordTurn (hnone : made.findSome? MadeCall.added = none) (party : Party) {batch : List Event}
    {outcome : TurnOutcome}
    (hends : EndsAtTerminal batch) (hended : hasEnded batch = true)
    (hbox : spec.placement = .box → made.any (MadeCall.confirms (.container spec.runId)) = true) :
    (turnWorld spec call).Safe (TurnReturns spec call) (recordTurn spec.runId party batch outcome) made := by
  refine safe_ask ⟨hnone, rfl, hends, hended, hbox⟩ fun answer _ => ?_
  cases answer with
  | error error => exact safe_error hnone _
  | ok done =>
      cases done with
      | appended => exact ⟨fun _ _ => rfl, fun _ _ => .inl ⟨outcome, rfl⟩⟩
      | terminal | missing | moved => exact safe_error hnone _

/-- The opener's failure, which it reports as an error. -/
theorem safe_endFailed (hnone : made.findSome? MadeCall.added = none) (party : Party)
    (cls : FailureClass) (message : String) (error : TurnError)
    (hbox : spec.placement = .box → made.any (MadeCall.confirms (.container spec.runId)) = true) :
    (turnWorld spec .openTurn).Safe (TurnReturns spec .openTurn)
      ((endFailed spec party cls message).bind fun _ => .ret (.error error)) made := by
  refine safe_ask ⟨hnone, trivial⟩ fun stamps _ => ?_
  refine safe_ask ⟨hnone, rfl, endsAtTerminal_single _, rfl, hbox⟩ fun answer _ => ?_
  refine ⟨fun ⟨_, heq⟩ => (by cases heq), fun batch hbatch => .inr ⟨rfl, ?_⟩⟩
  cases answer with
  | error error => cases hnone.symm.trans hbatch
  | ok done =>
      cases done with
      | appended =>
          cases hbatch
          exact ⟨cls, message, error, rfl, rfl⟩
      | terminal | missing | moved =>
          cases hnone.symm.trans hbatch

theorem safe_completeTurn (hnone : made.findSome? MadeCall.added = none) (events : List Event) (party : Party)
    (hbox : spec.placement = .box → made.any (MadeCall.provisions (.container spec.runId)) = true) :
    (turnWorld spec .openTurn).Safe (TurnReturns spec .openTurn) (completeTurn spec events party) made := by
  rw [completeTurn]
  cases hcredential : spec.workModel.credential with
  | bringYourOwn provider =>
      refine ⟨fun _ hends => absurd (hcredential.symm.trans hends) nofun, fun batch hbatch => ?_⟩
      exact absurd (hnone.symm.trans hbatch) nofun
  | platformGateway =>
      refine safe_ask ⟨hnone, trivial⟩ fun answer _ => ?_
      by_cases hplace : spec.placement = .box
      · simp only [hplace, decide_true, if_true]
        cases answer with
        | error message =>
            refine safe_ask ⟨hnone, rfl, .inl (hbox hplace)⟩ fun removed _ => ?_
            cases removed with
            | error error => exact safe_error hnone _
            | ok _ =>
                apply safe_endFailed
                · exact hnone
                · exact fun _ => any_confirms_removed
        | ok text =>
            refine safe_ask ⟨hnone, rfl, .inl (hbox hplace)⟩ fun removed _ => ?_
            cases removed with
            | error error => exact safe_error hnone _
            | ok _ =>
                refine safe_ask ⟨hnone, trivial⟩ fun stamps _ => ?_
                apply safe_recordTurn
                · exact hnone
                · exact endsAtTerminal_completion spec stamps text
                · rfl
                · exact fun _ => any_confirms_removed
      · simp only [hplace, decide_false, Bool.false_eq_true, if_false, Prog.ret_bind]
        cases answer with
        | error message =>
            apply safe_endFailed
            · exact hnone
            · exact fun h => absurd h hplace
        | ok text =>
            refine safe_ask ⟨hnone, trivial⟩ fun stamps _ => ?_
            apply safe_recordTurn
            · exact hnone
            · exact endsAtTerminal_completion spec stamps text
            · rfl
            · exact fun h => absurd h hplace

theorem safe_finishTurn (hnone : made.findSome? MadeCall.added = none) (events : List Event) (party : Party)
    (hfirst : made.any (MadeCall.provisions (.container spec.runId)) = false)
    (hunsure : made.any (MadeCall.confirms (.container spec.runId)) = false) :
    (turnWorld spec .openTurn).Safe (TurnReturns spec .openTurn) (finishTurn spec events party) made := by
  rw [finishTurn]
  split
  · refine safe_ask ⟨hnone, rfl, rfl, hfirst, hunsure⟩ fun answer _ => ?_
    cases answer with
    | ok _ =>
        apply safe_completeTurn
        · exact hnone
        · exact fun _ => any_provisions
    | error message =>
        refine safe_ask ⟨hnone, trivial⟩ fun absent _ => ?_
        match absent with
        | .ok true =>
            apply safe_endFailed
            · exact hnone
            · exact fun _ => any_confirms_absent
        | .ok false => exact safe_error hnone _
        | .error error => exact safe_error hnone _
  · next hplace => exact safe_completeTurn hnone events party fun h => absurd h hplace

theorem safe_openTurn : (turnWorld spec .openTurn).Safe (TurnReturns spec .openTurn) (openTurn spec) [] := by
  refine safe_ask ⟨rfl, trivial⟩ fun stamps _ => ?_
  refine safe_ask ⟨rfl, rfl, rfl, rfl⟩ fun answer _ => ?_
  cases answer with
  | error error => exact safe_error rfl _
  | ok _ => exact safe_finishTurn rfl _ .request rfl rfl

/-- The turn is read before it is ended. -/
theorem safe_subscriptionTurn {refusal : String}
    {next : Except TurnError StoredRun → Prog ServerSig (Except TurnError TurnOutcome)}
    (hrefused : ∀ error made, made.findSome? MadeCall.added = none →
      (turnWorld spec call).Safe (TurnReturns spec call) (next (.error error)) made)
    (hread : ∀ stored made, stored.spec = spec → made.findSome? MadeCall.added = none →
      (turnWorld spec call).Safe (TurnReturns spec call) (next (.ok stored)) made) :
    (turnWorld spec call).Safe (TurnReturns spec call) ((subscriptionTurn spec.runId refusal).bind next) [] := by
  refine safe_ask ⟨rfl, trivial⟩ fun answer htold => ?_
  match answer with
  | .error error => exact hrefused _ _ rfl
  | .ok none => exact hrefused _ _ rfl
  | .ok (some stored) =>
      dsimp only
      split
      · exact hrefused _ _ rfl
      · cases hopen : checkOpenTurn stored with
        | error error => exact hrefused _ _ rfl
        | ok _ => exact hread stored _ (htold stored rfl) rfl

/-- A report asks whether the sandbox is there, and removes it if it is. -/
theorem safe_absent {next : Except String Bool → Prog ServerSig (Except TurnError TurnOutcome)}
    {removed : Except String Unit → Prog ServerSig (Except TurnError TurnOutcome)}
    (hnone : made.findSome? MadeCall.added = none) {error : String → TurnError}
    (hfailed : ∀ message, next (.error message) = .ret (.error (error message)))
    (hup : next (.ok false) = .call (.host (.destroy (.container spec.runId) .request)) removed)
    (hleft : ∀ message, removed (.error message) = .ret (.error (error message)))
    (hgone : ∀ made : List MadeCall, made.findSome? MadeCall.added = none →
      made.any (MadeCall.confirms (.container spec.runId)) = true →
      (turnWorld spec call).Safe (TurnReturns spec call) (next (.ok true)) made ∧
        (turnWorld spec call).Safe (TurnReturns spec call) (removed (.ok ())) made) :
    (turnWorld spec call).Safe (TurnReturns spec call)
      (.call (.host (.absent (.container spec.runId) .request)) next) made := by
  refine safe_ask ⟨hnone, trivial⟩ fun answer _ => ?_
  match answer with
  | .error message => exact hfailed message ▸ safe_error hnone _
  | .ok true =>
      refine (hgone _ ?_ ?_).1
      · exact hnone
      · exact any_confirms_absent
  | .ok false =>
      change (turnWorld spec call).Safe (TurnReturns spec call) (next (.ok false)) _
      rw [hup]
      refine safe_ask ⟨hnone, rfl, .inr any_foundUp⟩ fun answer _ => ?_
      match answer with
      | .error message => exact hleft message ▸ safe_error hnone _
      | .ok () =>
          refine (hgone _ ?_ ?_).2
          · exact hnone
          · exact any_confirms_removed

theorem safe_program (call : TurnCall) : (turnWorld spec call).Safe (TurnReturns spec call) (call.program spec) [] := by
  cases call with
  | openTurn =>
      rw [TurnCall.program]
      exact safe_openTurn
  | complete text =>
      rw [TurnCall.program, acceptSubscriptionCompletion]
      generalize TurnCall.complete text = call
      dsimp only
      generalize trim text = text
      split
      · exact safe_error rfl _
      · refine safe_subscriptionTurn (fun error made hnone => safe_error hnone _) fun stored made hspec hnone => ?_
        dsimp only
        rw [hspec]
        have hrecord : ∀ (outcome : (Nat → Stamp) → TurnOutcome) made, made.findSome? MadeCall.added = none →
            (spec.placement = .box → made.any (MadeCall.confirms (.container spec.runId)) = true) →
            (turnWorld spec call).Safe (TurnReturns spec call)
              (.call (.outside .stamps) fun stamps =>
                recordTurn spec.runId .request (completionEvents spec stamps text) (outcome stamps)) made := by
          intro outcome made hnone hbox
          refine safe_ask ⟨hnone, trivial⟩ fun stamps _ => ?_
          apply safe_recordTurn
          · exact hnone
          · exact endsAtTerminal_completion spec stamps text
          · rfl
          · exact hbox
        split
        · refine safe_absent hnone (fun _ => rfl) rfl (fun _ => rfl) fun made hnone hconfirms =>
            ⟨safe_error hnone _, ?_⟩
          exact hrecord _ made hnone fun _ => hconfirms
        · next hplace => exact hrecord _ made hnone fun h => absurd h hplace
  | fail message =>
      rw [TurnCall.program, failTurn]
      generalize TurnCall.fail message = call
      dsimp only
      generalize trim message = message
      split
      · exact safe_error rfl _
      · refine safe_subscriptionTurn (fun error made hnone => safe_error hnone _) fun stored made hspec hnone => ?_
        dsimp only
        rw [hspec]
        have hrecord : ∀ (outcome : (Nat → Stamp) → TurnOutcome) made, made.findSome? MadeCall.added = none →
            (spec.placement = .box → made.any (MadeCall.confirms (.container spec.runId)) = true) →
            (turnWorld spec call).Safe (TurnReturns spec call)
              (.call (.outside .stamps) fun stamps => recordTurn spec.runId .request
                [runFailedEvent spec stamps .dependency message] (outcome stamps)) made := by
          intro outcome made hnone hbox
          refine safe_ask ⟨hnone, trivial⟩ fun stamps _ => ?_
          apply safe_recordTurn
          · exact hnone
          · exact endsAtTerminal_single _
          · rfl
          · exact hbox
        split
        · refine safe_absent hnone (fun _ => rfl) rfl (fun _ => rfl) fun made hnone hconfirms => ?_
          exact ⟨hrecord _ made hnone fun _ => hconfirms, hrecord _ made hnone fun _ => hconfirms⟩
        · next hplace => exact hrecord _ made hnone fun h => absurd h hplace

end Programs

/-! ### What a step does to the turn -/

section Steps

variable {spec : RunSpec} {s t : Server} {c : ServerCall} {answer : c.Answer} {call : TurnCall} {made : List MadeCall}

/-- What a call makes of the turn's log: it leaves it, stores it, or adds a batch to it while it is open. -/
inductive TurnLog (spec : RunSpec) (s t : Server) (done : MadeCall) : Prop
  | kept (hlog : t.store.runs spec.runId = s.store.runs spec.runId) (hnone : done.added = none)
  | put (run : StoredRun) (hlog : s.store.runs spec.runId = none) (hrun : t.store.runs spec.runId = some run)
      (hspec : run.spec = spec) (hopen : hasEnded run.events = false) (hnone : done.added = none)
  | added (stored : StoredRun) (batch : List Event) (party : Party)
      (hanswered : done = ⟨.store (.appendEvents spec.runId batch party), .ok .appended⟩)
      (hstored : s.store.runs spec.runId = some stored) (hopen : hasEnded stored.events = false)
      (hrun : t.store.runs spec.runId = some { stored with events := stored.events ++ batch })

/-- An append as the store answers it. -/
theorem appendEvents_cases (s : LogStore) (now : Timestamp) (id : RunId) (batch : List Event) (party : Party) :
    ((s.call now (.appendEvents id batch party)).2 = s ∧
      (s.call now (.appendEvents id batch party)).1 ≠ .ok .appended) ∨
    ∃ stored, s.runs id = some stored ∧ hasEnded stored.events = false ∧
      (s.call now (.appendEvents id batch party)).2.runs id = some { stored with events := stored.events ++ batch } ∧
        (s.call now (.appendEvents id batch party)).1 = .ok .appended := by
  change ((s.appendChecked now id none batch).1 = s ∧ (s.appendChecked now id none batch).2.toAppend ≠ .ok .appended) ∨
    ∃ stored, s.runs id = some stored ∧ hasEnded stored.events = false ∧
      (s.appendChecked now id none batch).1.runs id = some { stored with events := stored.events ++ batch } ∧
        (s.appendChecked now id none batch).2.toAppend = .ok .appended
  rcases s.appendChecked_cases now id none batch with ⟨hkeep, hrefused⟩ | ⟨stored, hstored, hopen, -, -, heq⟩
  · refine .inl ⟨hkeep, fun hdone => ?_⟩
    cases hanswer : (s.appendChecked now id none batch).2 with
    | append done =>
        rw [hanswer] at hdone hrefused
        cases Except.ok.inj hdone
        cases hrefused
    | _ => simp [hanswer, StoreAnswer.toAppend] at hdone
  · rw [heq]
    exact .inr ⟨stored, hstored, hopen, LogStore.extend_runs_self .., rfl⟩

theorem turnLog_of_step (h : s.Step c answer t) (hstore : s.StoreAnswers c answer t)
    (howes : TurnOwes spec call made c) :
    TurnLog spec s t ⟨c, answer⟩ := by
  cases c with
  | store op =>
      rcases hstore op rfl with ⟨now, hanswers, rfl⟩ | ⟨hfails, rfl⟩
      · have hanswer : answer = (s.store.call now op).1 := hanswers.store_eq
        cases op with
        | run id => exact .kept rfl rfl
        | putRun run origin =>
            obtain ⟨-, -, hspec, hopen⟩ := howes
            rcases s.store.putRun_cases now run with ⟨hkeep, -⟩ | ⟨hnone, -, heq⟩
            · exact .kept (congrArg (fun store => store.runs spec.runId) hkeep) rfl
            · refine .put run (hspec ▸ hnone) ?_ hspec hopen rfl
              change (s.store.putRun now run).1.runs spec.runId = some run
              rw [heq, ← hspec]
              exact LogStore.extend_runs_self ..
        | appendEvents id batch party =>
            obtain ⟨-, rfl, -⟩ := howes
            subst hanswer
            rcases appendEvents_cases s.store now spec.runId batch party with
              ⟨hkeep, hrefused⟩ | ⟨stored, hstored, hopen, hrun, hdone⟩
            · refine .kept (congrArg (fun store => store.runs spec.runId) hkeep) ?_
              generalize (s.store.call now (.appendEvents spec.runId batch party)).1 = answer at hrefused ⊢
              match answer with
              | .ok .appended => exact absurd rfl hrefused
              | .ok .terminal | .ok .missing | .ok .moved | .error _ => rfl
            · refine .added stored batch party ?_ hstored hopen hrun
              rw [hdone]
        | appendEventsAfter id seen batch party => exact howes.2.elim
      · refine .kept rfl ?_
        cases hfails
        cases op <;> rfl
  | queue | control | host | gateway | outside =>
      refine .kept ?_ rfl
      cases h <;> rfl

/-- Only a provision brings the sandbox up. -/
theorem provision_of_up (h : s.Step c answer t) {name : SandboxName} (hup : name ∈ t.sandboxes) :
    name ∈ s.sandboxes ∨ ∃ party, c = .host (.provision name party) := by
  refine (h.sandboxes hup).imp_right ?_
  rintro ⟨party, answer', htrace⟩
  obtain ⟨took, hcons⟩ := h.trace_eq
  obtain ⟨hhead, -⟩ := List.cons.inj (hcons.symm.trans htrace)
  cases hhead
  exact ⟨party, rfl⟩

theorem up_of_foundUp (h : s.Step c answer t) {name : SandboxName} (hup : MadeCall.foundUp name ⟨c, answer⟩ = true) :
    name ∈ s.sandboxes := by
  obtain ⟨party, heq⟩ := MadeCall.foundUp_eq hup
  cases heq
  obtain ⟨now, -, hanswers, -⟩ := h.answers (by rintro ⟨⟩)
  have hdone : (.ok false : Except String Bool) = .ok (decide (name ∉ s.sandboxes)) := hanswers.host_eq
  simpa using (Except.ok.inj hdone).symm

/-- A confirmed sandbox is not up. -/
theorem down_of_confirms (h : s.Step c answer t) {name : SandboxName}
    (hconfirms : MadeCall.confirms name ⟨c, answer⟩ = true) : name ∉ t.sandboxes := by
  rcases Bool.or_eq_true_iff.mp hconfirms with habsent | hremoved
  · obtain ⟨party, heq⟩ := MadeCall.foundAbsent_eq habsent
    cases heq
    exact h.absent
  · obtain ⟨party, heq⟩ := MadeCall.removed_eq hremoved
    cases heq
    obtain ⟨now, -, -, rfl⟩ := h.answers (by rintro ⟨⟩)
    intro hmem
    exact of_decide_eq_true (List.mem_filter.mp hmem).2 rfl

end Steps

namespace TurnPool

/-- Some caller asked for the turn's sandbox. -/
def Provisioned (spec : RunSpec) (callers : List TurnCaller) : Prop :=
  ∃ caller ∈ callers, caller.made.any (MadeCall.provisions (.container spec.runId)) = true

structure Inv (spec : RunSpec) (pool : TurnPool) : Prop where
  opener : (pool.callers.countP fun caller => caller.call = .openTurn) ≤ 1
  safe : ∀ caller ∈ pool.callers,
    (turnWorld spec caller.call).Safe (TurnReturns spec caller.call) caller.left caller.made
  log : ∀ run, pool.server.store.runs spec.runId = some run → run.spec = spec ∧ EndsAtTerminal run.events
  one : (pool.callers.countP fun caller => caller.added.isSome) = if pool.ended spec then 1 else 0
  added : ∀ caller ∈ pool.callers, ∀ batch, caller.added = some batch → Ends spec pool.server caller batch
  provisions : ∀ caller ∈ pool.callers, caller.made.any (MadeCall.provisions (.container spec.runId)) = true →
    caller.call = .openTurn
  up : .container spec.runId ∈ pool.server.sandboxes → Provisioned spec pool.callers
  seen : ∀ caller ∈ pool.callers, (caller.made.any (MadeCall.foundUp (.container spec.runId)) = true ∨
    caller.made.any (MadeCall.removed (.container spec.runId)) = true) → Provisioned spec pool.callers

variable {spec : RunSpec} {ok : TurnPool → ServerCall → Prop} {s t : Server} {callers before after : List TurnCaller}

theorem ended_of_log {run : StoredRun} (h : s.store.runs spec.runId = some run) :
    ended spec ⟨s, callers⟩ = hasEnded run.events := by
  rw [ended, h, Option.any_some]

theorem ended_congr {callers' : List TurnCaller} (h : t.store.runs spec.runId = s.store.runs spec.runId) :
    ended spec ⟨t, callers'⟩ = ended spec ⟨s, callers⟩ := by
  rw [ended, ended, h]

/-- Nobody added to an open log. -/
theorem Inv.added_none (h : Inv spec ⟨s, callers⟩) (hopen : ended spec ⟨s, callers⟩ = false) :
    ∀ caller ∈ callers, caller.added = none := by
  intro caller hmem
  have hcount := h.one
  rw [hopen, if_neg Bool.false_ne_true, List.countP_eq_zero] at hcount
  simpa using hcount caller hmem

theorem Inv.ends_of_open (h : Inv spec ⟨s, callers⟩) (hopen : ended spec ⟨s, callers⟩ = false) :
    ∀ caller ∈ callers, ∀ batch, caller.added = some batch → Ends spec t caller batch := by
  intro caller hmem batch hbatch
  rw [h.added_none hopen caller hmem] at hbatch
  cases hbatch

/-! #### What is not a call of a caller -/

theorem Inv.start (hlog : s.store.runs spec.runId = none) (hbox : .container spec.runId ∉ s.sandboxes) :
    Inv spec ⟨s, [.start spec .openTurn]⟩ where
  opener := le_of_eq rfl
  safe := by
    intro caller hmem
    rw [List.mem_singleton.mp hmem]
    exact safe_program .openTurn
  log run hrun := by rw [hlog] at hrun; cases hrun
  one := by rw [ended, hlog]; rfl
  added caller hmem batch hbatch := by rw [List.mem_singleton.mp hmem] at hbatch; cases hbatch
  provisions caller hmem _ := by rw [List.mem_singleton.mp hmem]; rfl
  up hup := absurd hup hbox
  seen caller hmem hseen := by
    rw [List.mem_singleton.mp hmem] at hseen
    rcases hseen with hseen | hseen <;> cases hseen

theorem Inv.report (h : Inv spec ⟨s, callers⟩) {call : TurnCall} (hcall : call ≠ .openTurn) :
    Inv spec ⟨s, callers ++ [.start spec call]⟩ := by
  have hprovisioned : Provisioned spec callers → Provisioned spec (callers ++ [.start spec call]) := by
    rintro ⟨caller, hmem, hprovisions⟩
    exact ⟨caller, List.mem_append_left _ hmem, hprovisions⟩
  have hsplit : ∀ {p : TurnCaller → Prop}, (∀ caller ∈ callers, p caller) → p (.start spec call) →
      ∀ caller ∈ callers ++ [.start spec call], p caller := by
    intro p hall hnew caller hmem
    rcases List.mem_append.mp hmem with hold | hnew'
    · exact hall caller hold
    · exact List.mem_singleton.mp hnew' ▸ hnew
  refine ⟨?_, hsplit h.safe (safe_program call), h.log, ?_, hsplit h.added nofun, hsplit h.provisions nofun,
    fun hup => hprovisioned (h.up hup), hsplit (fun caller hmem hseen => hprovisioned (h.seen caller hmem hseen)) ?_⟩
  · rw [List.countP_append, List.countP_singleton]
    simpa [TurnCaller.start, hcall] using h.opener
  · rw [List.countP_append, List.countP_singleton]
    exact h.one
  · rintro (hseen | hseen) <;> cases hseen

/-- Others may add to an open log what does not end it, and take the sandbox down. -/
theorem Inv.others (h : Inv spec ⟨s, callers⟩)
    (hlog : t.store.runs spec.runId = s.store.runs spec.runId ∨
      ∃ stored event, s.store.runs spec.runId = some stored ∧ hasEnded stored.events = false ∧
        isTerminal event.payload = false ∧
          t.store.runs spec.runId = some { stored with events := stored.events ++ [event] })
    (hbox : .container spec.runId ∈ t.sandboxes → .container spec.runId ∈ s.sandboxes) : Inv spec ⟨t, callers⟩ := by
  rcases hlog with hlog | ⟨stored, event, hstored, hopen, hevent, hrun⟩
  · refine ⟨h.opener, h.safe, fun run hrun => h.log run (hlog ▸ hrun), ?_, fun caller hmem batch hbatch => ?_,
      h.provisions, fun hup => h.up (hbox hup), h.seen⟩
    · rw [ended_congr hlog]
      exact h.one
    · obtain ⟨hended, ⟨run, events, hrun, hevents⟩, hmade⟩ := h.added caller hmem batch hbatch
      exact ⟨hended, ⟨run, events, hlog.trans hrun, hevents⟩, hmade⟩
  · have hsame : hasEnded (stored.events ++ [event]) = false := by
      rw [hasEnded, List.any_append, Bool.or_eq_false_iff]
      exact ⟨hopen, by rw [List.any_cons, hevent]; rfl⟩
    refine ⟨h.opener, h.safe, fun run hrun' => ?_, ?_, h.ends_of_open ((ended_of_log hstored).trans hopen),
      h.provisions, fun hup => h.up (hbox hup), h.seen⟩
    · rw [hrun, Option.some.injEq] at hrun'
      subst hrun'
      exact ⟨(h.log stored hstored).1, endsAtTerminal_of_open hsame⟩
    · rw [ended_of_log hrun, hsame]
      have hone := h.one
      rwa [ended_of_log hstored, hopen] at hone

/-! #### A call of a caller -/

section Call

variable {call : TurnCall} {c : ServerCall} {next : c.Answer → Prog ServerSig (Except TurnError TurnOutcome)}
  {made : List MadeCall}
  {answer : c.Answer}

/-- What is so of the caller that made its call, and of the others, is so of all. -/
theorem forall_called {p : TurnCaller → Prop} {caller later : TurnCaller}
    (h : ∀ other ∈ before ++ caller :: after, p other) (hlater : p later) :
    ∀ other ∈ before ++ later :: after, p other := by
  intro other hmem
  rcases List.mem_append.mp hmem with hbefore | hrest
  · exact h other (List.mem_append_left _ hbefore)
  · rcases List.mem_cons.mp hrest with rfl | hafter
    · exact hlater
    · exact h other (List.mem_append_right _ (List.mem_cons_of_mem _ hafter))

theorem Provisioned.called (h : Provisioned spec (before ++ ⟨call, .call c next, made⟩ :: after)) :
    Provisioned spec (before ++ ⟨call, next answer, ⟨c, answer⟩ :: made⟩ :: after) := by
  obtain ⟨caller, hmem, hprovisions⟩ := h
  rcases List.mem_append.mp hmem with hbefore | hrest
  · exact ⟨caller, List.mem_append_left _ hbefore, hprovisions⟩
  · rcases List.mem_cons.mp hrest with rfl | hafter
    · refine ⟨_, List.mem_append_right _ (List.mem_cons_self ..), ?_⟩
      rw [List.any_cons, hprovisions, Bool.or_true]
    · exact ⟨caller, List.mem_append_right _ (List.mem_cons_of_mem _ hafter), hprovisions⟩

theorem Inv.told (h : Inv spec ⟨s, callers⟩) (hstep : s.Step c answer t) : TurnTold spec ⟨c, answer⟩ := by
  intro stored heq
  cases heq
  obtain ⟨now, -, hanswers, -⟩ := hstep.answers (by rintro ⟨⟩)
  have hread : (.ok (some stored) : Except StoreError (Option StoredRun)) = .ok (s.store.runs spec.runId) :=
    hanswers.store_eq
  exact (h.log stored (Except.ok.inj hread).symm).1

variable (h : Inv spec ⟨s, before ++ ⟨call, .call c next, made⟩ :: after⟩) (hstep : s.Step c answer t)

include h in
theorem Inv.owes : TurnOwes spec call made c :=
  (safe_alone_call.mp (h.safe _ (List.mem_append_right _ (List.mem_cons_self ..)))).1

include h hstep in
theorem Inv.safe_call :
    ∀ caller ∈ before ++ ⟨call, next answer, ⟨c, answer⟩ :: made⟩ :: after,
      (turnWorld spec caller.call).Safe (TurnReturns spec caller.call) caller.left caller.made := by
  have hcaller := safe_alone_call.mp (h.safe _ (List.mem_append_right _ (List.mem_cons_self ..)))
  exact forall_called h.safe (hcaller.2 answer _ ⟨rfl, h.told hstep⟩)

include h in
theorem Inv.opener_call :
    ((before ++ ⟨call, next answer, ⟨c, answer⟩ :: made⟩ :: after).countP
      fun caller => caller.call = .openTurn) ≤ 1 := by
  have hopener := h.opener
  rw [List.countP_append, List.countP_cons] at hopener ⊢
  exact hopener

include h in
/-- The opener is the only one. -/
theorem Inv.opener_eq (hcall : call = .openTurn) {caller : TurnCaller} (hmem : caller ∈ before ++ after)
    (hopens : caller.call = .openTurn) : False := by
  have hopener := h.opener
  have hothers : 0 < (before ++ after).countP fun caller => caller.call = .openTurn :=
    List.countP_pos_iff.mpr ⟨caller, hmem, decide_eq_true hopens⟩
  rw [List.countP_append] at hothers
  rw [List.countP_append, List.countP_cons, if_pos (decide_eq_true hcall)] at hopener
  omega

include h in
theorem Inv.provisions_call :
    ∀ caller ∈ before ++ ⟨call, next answer, ⟨c, answer⟩ :: made⟩ :: after,
      caller.made.any (MadeCall.provisions (.container spec.runId)) = true → caller.call = .openTurn := by
  refine forall_called h.provisions fun hprovisions => ?_
  rw [List.any_cons, Bool.or_eq_true] at hprovisions
  rcases hprovisions with hnow | hold
  · obtain ⟨party, answer', heq⟩ := MadeCall.provisions_eq hnow
    cases heq
    exact h.owes.2.2.1
  · exact h.provisions ⟨call, .call c next, made⟩ (List.mem_append_right _ (List.mem_cons_self ..)) hold

include h hstep in
theorem Inv.up_call (hup : .container spec.runId ∈ t.sandboxes) :
    Provisioned spec (before ++ ⟨call, next answer, ⟨c, answer⟩ :: made⟩ :: after) := by
  rcases provision_of_up hstep hup with hup | ⟨party, rfl⟩
  · exact (h.up hup).called
  · exact ⟨_, List.mem_append_right _ (List.mem_cons_self ..), any_provisions⟩

include h hstep in
theorem Inv.seen_call :
    ∀ caller ∈ before ++ ⟨call, next answer, ⟨c, answer⟩ :: made⟩ :: after,
      (caller.made.any (MadeCall.foundUp (.container spec.runId)) = true ∨
        caller.made.any (MadeCall.removed (.container spec.runId)) = true) →
          Provisioned spec (before ++ ⟨call, next answer, ⟨c, answer⟩ :: made⟩ :: after) := by
  have hmem : ⟨call, .call c next, made⟩ ∈ before ++ ⟨call, .call c next, made⟩ :: after :=
    List.mem_append_right _ (List.mem_cons_self ..)
  refine forall_called (fun caller hmem hseen => (h.seen caller hmem hseen).called) fun hseen => ?_
  rw [List.any_cons, List.any_cons, Bool.or_eq_true, Bool.or_eq_true] at hseen
  rcases hseen with (hnow | hold) | (hnow | hold)
  · exact (h.up (up_of_foundUp hstep hnow)).called
  · exact (h.seen _ hmem (.inl hold)).called
  · -- It removes a sandbox that it asked for or found up.
    obtain ⟨party, heq⟩ := MadeCall.removed_eq hnow
    cases heq
    rcases h.owes.2.2 with hprovisions | hup
    · refine ⟨_, List.mem_append_right _ (List.mem_cons_self ..), ?_⟩
      rw [List.any_cons, hprovisions, Bool.or_true]
    · exact (h.seen _ hmem (.inl hup)).called
  · exact (h.seen _ hmem (.inr hold)).called

include h in
/-- A caller that is to make a call added nothing yet. -/
theorem Inv.added_later : TurnCaller.added ⟨call, next answer, ⟨c, answer⟩ :: made⟩ = MadeCall.added ⟨c, answer⟩ := by
  rw [TurnCaller.added, List.findSome?_cons, h.owes.1]
  cases MadeCall.added ⟨c, answer⟩ <;> rfl

include h in
theorem Inv.countP_added :
    ((before ++ ⟨call, next answer, ⟨c, answer⟩ :: made⟩ :: after).countP fun caller => caller.added.isSome) =
      ((before ++ ⟨call, .call c next, made⟩ :: after).countP fun caller => caller.added.isSome) +
        if (MadeCall.added ⟨c, answer⟩).isSome then 1 else 0 := by
  have hbefore : (TurnCaller.added ⟨call, .call c next, made⟩).isSome = false := by
    rw [TurnCaller.added, h.owes.1, Option.isSome_none]
  simp only [List.countP_append, List.countP_cons, h.added_later, hbefore, Bool.false_eq_true, if_false]
  omega

include h hstep in
/-- What the call does to the turn's log keeps what is so of it. -/
theorem Inv.log_call (hstore : s.StoreAnswers c answer t) :
    (∀ run, t.store.runs spec.runId = some run → run.spec = spec ∧ EndsAtTerminal run.events) ∧
    ((before ++ ⟨call, next answer, ⟨c, answer⟩ :: made⟩ :: after).countP fun caller => caller.added.isSome) =
      (if ended spec ⟨t, before ++ ⟨call, next answer, ⟨c, answer⟩ :: made⟩ :: after⟩ then 1 else 0) ∧
    ∀ caller ∈ before ++ ⟨call, next answer, ⟨c, answer⟩ :: made⟩ :: after, ∀ batch, caller.added = some batch →
      Ends spec t caller batch := by
  rw [h.countP_added, h.one]
  rcases turnLog_of_step hstep hstore h.owes with ⟨hlog, hnone⟩ | ⟨run, hlog, hrun, hspec, hopen, hnone⟩ |
    ⟨stored, batch, party, hmade, hstored, hopen, hrun⟩
  · have hothers : ∀ caller ∈ before ++ ⟨call, .call c next, made⟩ :: after, ∀ batch, caller.added = some batch →
        Ends spec t caller batch := by
      intro caller hmem batch hbatch
      obtain ⟨hended, ⟨run, events, hrun, hevents⟩, hmade⟩ := h.added caller hmem batch hbatch
      exact ⟨hended, ⟨run, events, hlog.trans hrun, hevents⟩, hmade⟩
    refine ⟨fun run hrun => h.log run (hlog ▸ hrun), ?_, forall_called hothers fun batch hbatch => ?_⟩
    · rw [hnone, ended_congr hlog]
      rfl
    · rw [h.added_later, hnone] at hbatch
      cases hbatch
  · have hbefore : ended spec ⟨s, before ++ ⟨call, .call c next, made⟩ :: after⟩ = false := by rw [ended, hlog]; rfl
    refine ⟨fun run' hrun' => ?_, ?_, forall_called (h.ends_of_open hbefore) fun batch hbatch => ?_⟩
    · rw [hrun, Option.some.injEq] at hrun'
      exact hrun' ▸ ⟨hspec, endsAtTerminal_of_open hopen⟩
    · rw [hnone, hbefore, ended_of_log hrun, hopen]
      rfl
    · rw [h.added_later, hnone] at hbatch
      cases hbatch
  · cases hmade
    obtain ⟨-, -, hends, hended, hbox⟩ := h.owes
    have hbefore : ∀ callers, ended spec ⟨s, callers⟩ = false := fun _ => (ended_of_log hstored).trans hopen
    have hafter : hasEnded (stored.events ++ batch) = true := by
      rw [hasEnded, List.any_append, Bool.or_eq_true]
      exact .inr hended
    refine ⟨fun run' hrun' => ?_, ?_, forall_called (h.ends_of_open (hbefore _)) fun batch' hbatch => ?_⟩
    · rw [hrun, Option.some.injEq] at hrun'
      subst hrun'
      exact ⟨(h.log stored hstored).1, EndsOnce.append hopen hends⟩
    · rw [hbefore, ended_of_log hrun, hafter]
      rfl
    · obtain rfl : batch = batch' := Option.some.inj (h.added_later.symm.trans hbatch)
      exact ⟨hended, ⟨_, stored.events, hrun, rfl⟩, party, made, rfl, hbox⟩

include h hstep in
theorem Inv.called (hstore : s.StoreAnswers c answer t) :
    Inv spec ⟨t, before ++ ⟨call, next answer, ⟨c, answer⟩ :: made⟩ :: after⟩ := by
  obtain ⟨hlog, hone, hadded⟩ := h.log_call hstep hstore
  exact ⟨h.opener_call, h.safe_call hstep, hlog, hone, hadded, h.provisions_call, h.up_call hstep, h.seen_call hstep⟩

end Call

/-! #### A run -/

theorem Inv.step {pool pool' : TurnPool} (h : Inv spec pool) (hstep : TurnPool.Step spec ok pool pool') :
    Inv spec pool' := by
  cases hstep with
  | report s callers call hcall => exact h.report hcall
  | call s t before after call c next made answer _ hstep hstore => exact h.called hstep hstore
  | redelivered s callers now run origin hid hstored =>
      refine h.others (.inl ?_) id
      rcases s.store.putRun_cases now run with ⟨hkeep, -⟩ | ⟨hnone, -⟩
      · exact congrArg (fun store => store.runs spec.runId) hkeep
      · rw [← hid, hnone] at hstored
        cases hstored
  | message s callers now event text party htext =>
      refine h.others ?_ id
      rcases appendEvents_cases s.store now spec.runId [event] party with ⟨hkeep, -⟩ | ⟨stored, hstored, hopen, hrun, -⟩
      · exact .inl (congrArg (fun store => store.runs spec.runId) hkeep)
      · exact .inr ⟨stored, event, hstored, hopen, by rw [htext]; rfl, hrun⟩
  | gone s callers => exact h.others (.inl rfl) List.mem_of_mem_filter
  | elsewhere s t callers hlog hbox => exact h.others (.inl hlog) hbox.mp

theorem Reach.inv {pool : TurnPool} (h : pool.Reach spec ok) : Inv spec pool := by
  induction h with
  | start s hlog hbox => exact Inv.start hlog hbox
  | step _ hstep ih => exact ih.step hstep

theorem Inv.settled {pool : TurnPool} (h : Inv spec pool) : Settled spec pool where
  log run hrun := (h.log run hrun).2
  one := h.one
  added := h.added
  ok caller hmem hreturned hends := by
    obtain ⟨outcome, hleft⟩ := hreturned
    have hsafe := h.safe caller hmem
    rw [hleft] at hsafe
    exact hsafe.1 ⟨outcome, rfl⟩ hends
  reported caller hmem batch hbatch := by
    have hsafe := h.safe caller hmem
    cases hleft : caller.left with
    | ret value =>
        rw [hleft] at hsafe
        rcases hsafe.2 batch hbatch with ⟨outcome, rfl⟩ | ⟨hcall, cls, message, error, hpayloads, rfl⟩
        · exact .inl ⟨outcome, rfl⟩
        · exact .inr ⟨hcall, cls, message, error, hpayloads, rfl⟩
    | call c next =>
        -- A caller makes no call once it added its batch.
        rw [hleft] at hsafe
        have hnone := (safe_alone_call.mp hsafe).1.1
        exact absurd (hbatch.symm.trans hnone) nofun

/-- Nobody but a caller ends the turn. -/
theorem Inv.ended_eq (h : Inv spec ⟨s, callers⟩) (h' : Inv spec ⟨t, callers⟩) :
    ended spec ⟨s, callers⟩ = ended spec ⟨t, callers⟩ := by
  have hcount := h.one.symm.trans h'.one
  cases hs : ended spec ⟨s, callers⟩ <;> cases ht : ended spec ⟨t, callers⟩
  all_goals first | rfl | (rw [hs, ht] at hcount; cases hcount)

/-! #### The sandbox -/

/-- A caller that was told the sandbox is gone has it gone until it returns. -/
def Down (spec : RunSpec) (pool : TurnPool) : Prop :=
  ∀ caller ∈ pool.callers, caller.made.any (MadeCall.confirms (.container spec.runId)) = true → ¬ caller.Returned →
    .container spec.runId ∉ pool.server.sandboxes

theorem any_confirms {name : SandboxName} {made : List MadeCall} (h : made.any (MadeCall.confirms name) = true) :
    made.any (MadeCall.foundAbsent name) = true ∨ made.any (MadeCall.removed name) = true := by
  obtain ⟨done, hmem, hconfirms⟩ := List.any_eq_true.mp h
  rcases Bool.or_eq_true_iff.mp hconfirms with habsent | hremoved
  · exact .inl (List.any_eq_true.mpr ⟨done, hmem, habsent⟩)
  · exact .inr (List.any_eq_true.mpr ⟨done, hmem, hremoved⟩)

section Call

variable {call : TurnCall} {c : ServerCall} {next : c.Answer → Prog ServerSig (Except TurnError TurnOutcome)}
  {made : List MadeCall}
  {answer : c.Answer}

theorem not_returned : ¬ TurnCaller.Returned ⟨call, .call c next, made⟩ := fun ⟨_, h⟩ => nomatch h

/-- While a caller waits that was told the sandbox is gone, nobody starts it. -/
theorem Inv.not_provision (h : Inv spec ⟨s, before ++ ⟨call, .call c next, made⟩ :: after⟩)
    (hclear : Clear spec ⟨s, before ++ ⟨call, .call c next, made⟩ :: after⟩ c) {caller : TurnCaller}
    (hmem : caller ∈ before ++ ⟨call, .call c next, made⟩ :: after)
    (hconfirms : caller.made.any (MadeCall.confirms (.container spec.runId)) = true) (hwaits : ¬ caller.Returned)
    {party : Party} : c ≠ .host (.provision (.container spec.runId) party) := by
  rintro rfl
  obtain ⟨-, -, hcall, hfirst, -⟩ := h.owes
  rcases any_confirms hconfirms with habsent | hremoved
  · exact hwaits (hclear ⟨party, rfl⟩ caller hmem habsent)
  · -- What was removed had been asked for, and only the opener asks, once.
    obtain ⟨opener, hmem, hprovisions⟩ := h.seen caller hmem (.inr hremoved)
    have hopens := h.provisions opener hmem hprovisions
    rcases List.mem_append.mp hmem with hbefore | hrest
    · exact h.opener_eq hcall (List.mem_append_left _ hbefore) hopens
    · rcases List.mem_cons.mp hrest with rfl | hafter
      · exact absurd (hfirst.symm.trans hprovisions) nofun
      · exact h.opener_eq hcall (List.mem_append_right _ hafter) hopens

theorem Down.called (hdown : Down spec ⟨s, before ++ ⟨call, .call c next, made⟩ :: after⟩)
    (h : Inv spec ⟨s, before ++ ⟨call, .call c next, made⟩ :: after⟩)
    (hclear : Clear spec ⟨s, before ++ ⟨call, .call c next, made⟩ :: after⟩ c) (hstep : s.Step c answer t) :
    Down spec ⟨t, before ++ ⟨call, next answer, ⟨c, answer⟩ :: made⟩ :: after⟩ := by
  have hkept : ∀ caller ∈ before ++ ⟨call, .call c next, made⟩ :: after,
      caller.made.any (MadeCall.confirms (.container spec.runId)) = true → ¬ caller.Returned →
        .container spec.runId ∉ t.sandboxes := by
    intro caller hmem hconfirms hwaits hup
    rcases provision_of_up hstep hup with hup | ⟨party, hc⟩
    · exact hdown caller hmem hconfirms hwaits hup
    · exact h.not_provision hclear hmem hconfirms hwaits hc
  refine forall_called hkept fun hconfirms _ => ?_
  rw [List.any_cons, Bool.or_eq_true] at hconfirms
  rcases hconfirms with hnow | hold
  · exact down_of_confirms hstep hnow
  · exact hkept _ (List.mem_append_right _ (List.mem_cons_self ..)) hold not_returned

end Call

theorem Down.step {pool pool' : TurnPool} (hdown : Down spec pool) (h : Inv spec pool)
    (hstep : TurnPool.Step spec (Clear spec) pool pool') : Down spec pool' := by
  cases hstep with
  | report s callers call hcall =>
      intro caller hmem hconfirms hwaits
      rcases List.mem_append.mp hmem with hold | hnew
      · exact hdown caller hold hconfirms hwaits
      · rw [List.mem_singleton.mp hnew] at hconfirms
        cases hconfirms
  | call s t before after call c next made answer hclear hstep _ => exact hdown.called h hclear hstep
  | redelivered | message => exact hdown
  | gone s callers =>
      exact fun caller hmem hconfirms hwaits hup => hdown caller hmem hconfirms hwaits (List.mem_of_mem_filter hup)
  | elsewhere s t callers hlog hbox =>
      exact fun caller hmem hconfirms hwaits hup => hdown caller hmem hconfirms hwaits (hbox.mp hup)

theorem Reach.down {pool : TurnPool} (h : pool.Reach spec (Clear spec)) : Down spec pool := by
  induction h with
  | start s hlog hbox => exact fun _ _ _ _ => hbox
  | step before hstep ih => exact ih.step before.inv hstep

/-- The turn's log gains its end while no sandbox of the turn is up. -/
theorem Reach.down_of_ending {pool pool' : TurnPool} (h : pool.Reach spec (Clear spec))
    (hstep : TurnPool.Step spec (Clear spec) pool pool') (hopen : pool.ended spec = false)
    (hended : pool'.ended spec = true) (hbox : spec.placement = .box) :
    .container spec.runId ∉ pool'.server.sandboxes := by
  have hdown := h.down
  have hlater := (h.step hstep).inv
  cases hstep with
  | report s callers call hcall => exact absurd (hopen.symm.trans hended) nofun
  | call s t before after call c next made answer hclear hstep hstore =>
      rcases turnLog_of_step hstep hstore h.inv.owes with
        ⟨hlog, -⟩ | ⟨run, -, hrun, -, hstarted, -⟩ | ⟨stored, batch, party, hmade, -⟩
      · rw [ended_congr hlog] at hended
        exact absurd (hopen.symm.trans hended) nofun
      · rw [ended_of_log hrun, hstarted] at hended
        cases hended
      · cases hmade
        have hconfirms := h.inv.owes.2.2.2.2 hbox
        intro hup
        rcases provision_of_up hstep hup with hup | ⟨party, hc⟩
        · exact hdown _ (List.mem_append_right _ (List.mem_cons_self ..)) hconfirms not_returned hup
        · cases hc
  | redelivered | message | gone | elsewhere =>
      rw [hlater.ended_eq h.inv, hopen] at hended
      cases hended

/-- In every run at most one terminal event ends the turn's log: one caller added it, the sandbox confirmed gone, and
it alone returns `Ok`; who returns an error added nothing, the opener's own `RunFailed` apart. And the sandbox of a
Box turn is down when its log ends, in runs where it is not started while a call that found it absent has yet to
return. -/
theorem quick_turn (spec : RunSpec) :
    (∀ pool : TurnPool, pool.Reach spec any → pool.Settled spec) ∧
    ∀ pool pool' : TurnPool, pool.Reach spec (Clear spec) → TurnPool.Step spec (Clear spec) pool pool' →
      pool.ended spec = false → pool'.ended spec = true → spec.placement = .box →
        .container spec.runId ∉ pool'.server.sandboxes :=
  ⟨fun _ h => h.inv.settled, fun _ _ => Reach.down_of_ending⟩

/-! ### Schedules -/

/-- One step of a schedule: a report starts, or a caller makes its next call, which takes effect. -/
inductive Turn where
  | report (call : TurnCall)
  | call (caller : Nat)

/-- The pool after a step, if it can be made and its call meets `check`. -/
def turn (spec : RunSpec) (check : TurnPool → ServerCall → Bool) (pool : TurnPool) : Turn → Option TurnPool
  | .report call => if call = .openTurn then none else some ⟨pool.server, pool.callers ++ [.start spec call]⟩
  | .call i =>
      match pool.callers.drop i with
      | ⟨call, .call c next, made⟩ :: after =>
          if check pool c = true ∧ pool.server.Fresh c then
            let answer := Pool.reply pool.server (quiet (.complete "")) (.ok "done") c
            some ⟨(pool.server.after 0 c).record ⟨c, answer, true⟩,
              pool.callers.take i ++ ⟨call, next answer, ⟨c, answer⟩ :: made⟩ :: after⟩
          else none
      | _ => none

theorem turn_step {check : TurnPool → ServerCall → Bool} (hcheck : ∀ pool c, check pool c = true → ok pool c)
    {pool pool' : TurnPool} {step : Turn} (h : turn spec check pool step = some pool') :
    TurnPool.Step spec ok pool pool' := by
  obtain ⟨s, callers⟩ := pool
  cases step with
  | report call =>
      rw [turn] at h
      split at h
      · cases h
      · next hcall =>
          cases h
          exact .report s callers call hcall
  | call i =>
      simp only [turn] at h
      split at h
      · next call c next made after hdrop =>
          split at h
          · next hfits =>
              cases h
              have hsplit : callers = callers.take i ++ ⟨call, .call c next, made⟩ :: after := by
                rw [← hdrop, List.take_append_drop]
              have hanswers := Pool.answers_reply s (quiet (.complete "")) (.ok "done") c
              have hok := hcheck _ _ hfits.1
              rw [hsplit] at hok
              conv => lhs; rw [hsplit]
              exact .call s _ _ after call c next made _ hok (.done 0 hfits.2 hanswers) fun _ _ =>
                .inl ⟨0, hanswers, rfl⟩
          · cases h
      · cases h

def play (spec : RunSpec) (check : TurnPool → ServerCall → Bool) (steps : List Turn) (pool : TurnPool) :
    Option TurnPool :=
  steps.foldlM (turn spec check) pool

theorem play_reach {check : TurnPool → ServerCall → Bool} (hcheck : ∀ pool c, check pool c = true → ok pool c)
    {steps : List Turn} {pool pool' : TurnPool} (h : play spec check steps pool = some pool')
    (hreach : pool.Reach spec ok) :
    pool'.Reach spec ok := by
  induction steps generalizing pool with
  | nil => exact Option.some.inj h ▸ hreach
  | cons step rest ih =>
      rw [play, List.foldlM_cons] at h
      obtain ⟨mid, hmid, hrest⟩ := Option.bind_eq_some_iff.mp h
      exact ih hrest (hreach.step (turn_step hcheck hmid))

/-- The pool where the turn is about to be opened, nothing stored before. -/
def opening (spec : RunSpec) : TurnPool := ⟨.empty, [.start spec .openTurn]⟩

theorem reach_opening : (opening spec).Reach spec ok := .start .empty rfl nofun

/-- A Box turn on the user's own subscription. -/
def boxTurn : RunSpec :=
  { RunSpec.plain 1 ⟨8, 4⟩ with placement := .box, workModel := ⟨.openAI, "gpt-4o", .bringYourOwn "key"⟩ }

/-- A stored turn is reported failed before its sandbox is started: the host says that none is there, the opener
starts it, and the failure is stored while it runs. -/
def failedBeforeProvision : List Turn :=
  [.call 0, .call 0, .report (.fail "no answer"), .call 1, .call 1, .call 0, .call 1]

/-- The sandbox of a Box turn can be up as its log ends. -/
theorem up_at_end :
    ∃ pool pool' : TurnPool, pool.Reach boxTurn any ∧ TurnPool.Step boxTurn any pool pool' ∧
      pool.ended boxTurn = false ∧
      pool'.ended boxTurn = true ∧ boxTurn.placement = .box ∧ .container boxTurn.runId ∈ pool'.server.sandboxes := by
  have hshows : ((play boxTurn (fun _ _ => true) failedBeforeProvision (opening boxTurn)).bind fun pool =>
      (turn boxTurn (fun _ _ => true) pool (.call 1)).map fun pool' =>
        !pool.ended boxTurn && pool'.ended boxTurn && decide (.container boxTurn.runId ∈ pool'.server.sandboxes)) =
          some true := by
    decide +kernel
  obtain ⟨pool, hplay, hlast⟩ := Option.bind_eq_some_iff.mp hshows
  obtain ⟨pool', hturn, hshown⟩ := Option.map_eq_some_iff.mp hlast
  obtain ⟨⟨hopen, hended⟩, hup⟩ := (Bool.and_eq_true_iff.mp hshown).imp_left Bool.and_eq_true_iff.mp
  exact ⟨pool, pool', play_reach (fun _ _ _ => trivial) hplay reach_opening, turn_step (fun _ _ _ => trivial) hturn,
    by simpa using hopen, hended, rfl, of_decide_eq_true hup⟩

/-- Whether the sandbox may be started: no caller found it absent. -/
def clear (spec : RunSpec) (pool : TurnPool) : ServerCall → Bool
  | .host (.provision _ _) =>
      pool.callers.all fun caller => !caller.made.any (MadeCall.foundAbsent (.container spec.runId))
  | _ => true

theorem clear_of_check (pool : TurnPool) (c : ServerCall) (h : clear spec pool c = true) : Clear spec pool c := by
  rintro ⟨party, rfl⟩ caller hmem habsent
  have hnone := List.all_eq_true.mp h caller hmem
  rw [habsent] at hnone
  cases hnone

/-- A turn that its opener leaves to the desktop, and the desktop's completion, up to its append. -/
def openedAndCompleted : List Turn :=
  [.call 0, .call 0, .call 0, .report (.complete "done"), .call 1, .call 1, .call 1, .call 1]

theorem quick_turn_completed :
    ∃ pool pool' : TurnPool, pool'.Settled boxTurn ∧ pool.ended boxTurn = false ∧ pool'.ended boxTurn = true ∧
      .container boxTurn.runId ∉ pool'.server.sandboxes := by
  have hshows : ((play boxTurn (clear boxTurn) openedAndCompleted (opening boxTurn)).bind fun pool =>
      (turn boxTurn (clear boxTurn) pool (.call 1)).map fun pool' => !pool.ended boxTurn && pool'.ended boxTurn) =
        some true := by
    decide +kernel
  obtain ⟨pool, hplay, hlast⟩ := Option.bind_eq_some_iff.mp hshows
  obtain ⟨pool', hturn, hshown⟩ := Option.map_eq_some_iff.mp hlast
  obtain ⟨hopen, hended⟩ := Bool.and_eq_true_iff.mp hshown
  rw [Bool.not_eq_true'] at hopen
  have hreach : pool'.Reach boxTurn any :=
    (play_reach (fun _ _ _ => trivial) hplay reach_opening).step (turn_step (fun _ _ _ => trivial) hturn)
  have hdown := (quick_turn boxTurn).2 pool pool' (play_reach clear_of_check hplay reach_opening)
    (turn_step clear_of_check hturn)
    hopen hended rfl
  exact ⟨pool, pool', (quick_turn boxTurn).1 pool' hreach, hopen, hended, hdown⟩

end TurnPool

end Gol
