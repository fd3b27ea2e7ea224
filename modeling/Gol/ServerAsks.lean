import Gol.HarnessResume
import Gol.ProtocolAnswers
import Gol.ServerLogs
import Gol.ServerThreads

/-! Asks in a run's log. The server parks, wakes, times out and answers from `ask_state`, a scan of the log; the
driver follows `reduce`. The two agree on the logs that drivers, resumed at boundaries, and deliveries of answers
build together, where ids that are drawn at random are never drawn twice. -/

namespace Gol
open Library Driver

/-! ### The log and the messages -/

/-- The ids of the messages a log says were sent. -/
def sentIds (log : List EventPayload) : List MessageId :=
  log.filterMap fun
    | .messageSent id _ _ => some id
    | _ => none

/-- The questions to the user in a log, with their prompts. -/
def questions (log : List EventPayload) : List (MessageId × String) :=
  log.filterMap fun
    | .userAsked id prompt => some (id, prompt)
    | _ => none

/-- The messages stored. -/
abbrev MessageStore := List StoredMessage

/-- `put_message`: stores `message` unless its run and decision already sent one. -/
def MessageStore.putMessage (messages : MessageStore) (message : StoredMessage) : PutMessage × MessageStore :=
  match messages.find? fun stored => stored.fromRun = message.fromRun ∧ stored.decision = message.decision with
  | some stored => (.existed stored, messages)
  | none => (.stored, messages ++ [message])

/-- No id was drawn twice: those of the questions a log puts and of the messages stored all differ. -/
def DrawnOnce (messages : MessageStore) (log : List EventPayload) : Prop :=
  ((questions log).map Prod.fst ++ messages.map StoredMessage.id).Nodup

/-- A message is stored under `id`, for a decision. -/
def MessageStore.Holds (messages : MessageStore) (id : MessageId) (decision : UInt32) (expectsReply : Bool) : Prop :=
  ∃ stored ∈ messages, stored.id = id ∧ stored.decision = decision ∧ stored.expectsReply = expectsReply

/-- What a deliverer may answer a send, with the messages stored by then. -/
def Delivers (messages : MessageStore) (request : MessageRequest) : Except String SentMessage → Prop
  | .error _ => True
  | .ok sent => messages.Holds sent.messageId request.decision (request.limits.isSome && request.expectsReply)

/-- What a driver's calls may be answered, with the messages stored by then. -/
def MayAnswer (messages : MessageStore) : (c : HarnessCall) → c.Answer → Prop
  | .send _ request, answer => Delivers messages request answer
  | _, _ => True

/-- The drivers a program shows its caller: at a boundary, or when it returns. -/
inductive Shows (messages : MessageStore) : Prog HarnessSig (Driver × Finish) → Driver → Prop
  | boundary {driver : Driver} (next : Boundary → Prog HarnessSig (Driver × Finish)) :
      Shows messages (.call (.boundary driver) next) driver
  | returned (driver : Driver) (finish : Finish) : Shows messages (.ret (driver, finish)) driver
  | call {driver : Driver} {c : HarnessCall} {next : c.Answer → Prog HarnessSig (Driver × Finish)} {answer : c.Answer}
      (h : MayAnswer messages c answer) (rest : Shows messages (next answer) driver) :
      Shows messages (.call c next) driver

/-- The logs of a run's open life, with the messages stored meanwhile. A worker stores what its driver has reached
after the log it resumed and stored itself, so each log it stores is one its driver reaches from one stored before. A
delivery, the user's answer and the sweep append an answer to a log they read before, of which others may have
answered the ask by now. -/
inductive AskLog (spec : RunSpec) : List Event → MessageStore → Prop
  | empty : AskLog spec [] []
  | message {log : List Event} {messages : MessageStore} (stored : AskLog spec log messages) (message : StoredMessage)
      (hdrawn : DrawnOnce (messages.putMessage message).2 (payloads log)) :
      AskLog spec log (messages.putMessage message).2
  | drove {log : List Event} {messages : MessageStore} (stored : AskLog spec log messages)
      (hopen : hasEnded log = false)
      {stamp : Nat → Stamp} {start : Driver} (hresume : resume spec log stamp = .ok start) (setup : Setup)
      (tools : List ToolDescriptor) {driver : Driver}
      (hshows : Shows messages (runUntil tools (start.setUp setup)) driver) (hdrawn : DrawnOnce messages driver.log) :
      AskLog spec driver.events messages
  | answered {log : List Event} {messages : MessageStore} (stored : AskLog spec log messages)
      (hopen : hasEnded log = false)
      (event : Event) {ask : MessageId} (hanswer : answerTo event.payload = some ask) :
      AskLog spec (log ++ [event]) messages
  | recorded {log : List Event} {messages : MessageStore} (stored : AskLog spec log messages)
      (hopen : hasEnded log = false)
      (event : Event) (hother : isDriven event.payload = false ∨ isTerminal event.payload = true) :
      AskLog spec (log ++ [event]) messages

/-! ### The two readings -/

theorem askStep_put {event : Event} {id : MessageId} {expectsReply : Bool}
    (h : askPut event.payload = some (id, expectsReply)) (ask : MessageId) (state : AskState) :
    askStep ask state event = if id = ask then .open else state := by
  cases hpayload : event.payload with
  | messageSent | userAsked =>
      rw [hpayload, askPut, Option.some.injEq, Prod.mk.injEq] at h
      rw [askStep, hpayload, ← h.1]
  | _ => simp [hpayload, askPut] at h

theorem askStep_answer {event : Event} {id : MessageId} (h : answerTo event.payload = some id) (ask : MessageId)
    (state : AskState) : askStep ask state event = if id = ask ∧ state = .open then .answered else state := by
  cases hpayload : event.payload with
  | messageReceived messageId fromAgent fromRun body replyTo =>
      rw [hpayload, answerTo] at h
      simp only [askStep, hpayload, h]
  | askTimedOut | userAnswered =>
      rw [hpayload, answerTo, Option.some.injEq] at h
      simp only [askStep, hpayload, h]
  | _ => simp [hpayload, answerTo] at h

theorem askStep_other {event : Event} (hput : askPut event.payload = none) (hanswer : answerTo event.payload = none)
    (ask : MessageId) (state : AskState) : askStep ask state event = state := by
  cases hpayload : event.payload with
  | messageReceived messageId fromAgent fromRun body replyTo =>
      rw [hpayload, answerTo] at hanswer
      simp only [askStep, hpayload, hanswer]
  | messageSent | userAsked => simp [hpayload, askPut] at hput
  | askTimedOut | userAnswered => simp [hpayload, answerTo] at hanswer
  | _ => simp only [askStep, hpayload]

theorem reduce_put {payload : EventPayload} {id : MessageId} (h : askPut payload = some (id, true))
    (step attempt : UInt32) (spec : RunSpec) :
    (reduce (.running step attempt false) payload spec).1 = .waitingForMessage step attempt id := by
  cases payload with
  | messageSent =>
      rw [askPut, Option.some.injEq, Prod.mk.injEq] at h
      obtain ⟨rfl, rfl⟩ := h
      rfl
  | userAsked =>
      rw [askPut, Option.some.injEq, Prod.mk.injEq] at h
      obtain ⟨rfl, -⟩ := h
      rfl
  | _ => simp [askPut] at h

theorem reduce_tell {payload : EventPayload} {id : MessageId} (h : askPut payload = some (id, false))
    (state : HarnessState) (spec : RunSpec) : (reduce state payload spec).1 = state := by
  cases payload with
  | messageSent =>
      rw [askPut, Option.some.injEq, Prod.mk.injEq] at h
      obtain ⟨rfl, rfl⟩ := h
      cases state <;> rfl
  | _ => simp [askPut] at h

/-- A harness waits on an ask until its answer, or the run's end. -/
theorem reduce_keeps_waiting {payload : EventPayload} (hput : askPut payload = none) (hanswer : answerTo payload = none)
    (hopen : isTerminal payload = false) (step attempt : UInt32) (ask : MessageId) (spec : RunSpec) :
    (reduce (.waitingForMessage step attempt ask) payload spec).1 = .waitingForMessage step attempt ask := by
  cases payload with
  | messageReceived messageId fromAgent fromRun body replyTo =>
      rw [answerTo] at hanswer
      subst hanswer
      rfl
  | messageSent | userAsked => simp [askPut] at hput
  | askTimedOut | userAnswered => simp [answerTo] at hanswer
  | runFailed | runCancelled | runExpired | runCompleted => simp [isTerminal] at hopen
  | _ => rfl

/-- Asks are put from a step that runs unanswered. -/
def Placed (spec : RunSpec) (log : List EventPayload) : Prop :=
  ∀ before payload after ask, log = before ++ payload :: after → askPut payload = some (ask, true) →
    ∃ step attempt, harnessOf spec before = .running step attempt false

theorem Placed.of_append {spec : RunSpec} {log more : List EventPayload} (h : Placed spec (log ++ more)) :
    Placed spec log :=
  fun before payload after ask heq => h before payload (after ++ more) ask
    (by rw [heq, List.append_assoc, List.cons_append])

theorem Placed.snoc {spec : RunSpec} {log : List EventPayload} {payload : EventPayload} (h : Placed spec log)
    (hput : ∀ ask, askPut payload = some (ask, true) →
      ∃ step attempt, harnessOf spec log = .running step attempt false) :
    Placed spec (log ++ [payload]) := by
  intro before other after ask heq hother
  rcases List.eq_nil_or_concat after with rfl | ⟨rest, last, rfl⟩
  · obtain ⟨rfl, hlast⟩ := List.append_inj' heq rfl
    obtain rfl : payload = other := (List.cons.inj hlast).1
    exact hput ask hother
  · rw [List.concat_eq_append, ← List.cons_append, ← List.append_assoc] at heq
    exact h before other rest ask (List.append_inj' heq rfl).1 hother

/-- Where asks are put from unanswered steps and no tell has the ask's id, the scan of an open log says that an ask is
open exactly while the harness waits on it. -/
theorem askState_iff {spec : RunSpec} {events : List Event} (hplaced : Placed spec (payloads events))
    (hopen : hasEnded events = false) {ask : MessageId}
    (hask : ∀ payload ∈ payloads events, askPut payload ≠ some (ask, false)) :
    askState events ask = .open ↔
      ∃ step attempt, harnessOf spec (payloads events) = .waitingForMessage step attempt ask := by
  induction events using List.reverseRecOn with
  | nil => simp [askState, payloads, harnessOf, FoldState.init]
  | append_singleton events event ih =>
      rw [hasEnded_append, hasEnded_singleton, Bool.or_eq_false_iff] at hopen
      rw [payloads_append] at hplaced hask ⊢
      have hlast : askPut event.payload ≠ some (ask, false) :=
        hask _ (List.mem_append_right _ (List.mem_singleton_self _))
      have ih := ih hplaced.of_append hopen.1 fun payload hmem => hask payload (List.mem_append_left _ hmem)
      rw [askState_snoc, show payloads [event] = [event.payload] from rfl, harnessOf_snoc]
      cases hput : askPut event.payload with
      | some put =>
          obtain ⟨id, expectsReply⟩ := put
          rw [askStep_put hput]
          cases expectsReply with
          | false =>
              have hne : id ≠ ask := fun heq => hlast (by rw [hput, heq])
              rw [if_neg hne, reduce_tell hput, ih]
          | true =>
              obtain ⟨step, attempt, hrunning⟩ := hplaced _ _ [] id rfl hput
              rw [hrunning, reduce_put hput]
              by_cases heq : id = ask
              · rw [if_pos heq, heq]
                exact ⟨fun _ => ⟨step, attempt, rfl⟩, fun _ => rfl⟩
              · rw [if_neg heq, ih, hrunning]
                simp [heq]
      | none =>
          cases hanswer : answerTo event.payload with
          | some id =>
              rw [askStep_answer hanswer, reduce_answer hanswer]
              by_cases hwaits : ∃ step attempt, harnessOf spec (payloads events) = .waitingForMessage step attempt ask
              · obtain ⟨step, attempt, hharness⟩ := hwaits
                have hstate := ih.mpr ⟨step, attempt, hharness⟩
                rw [hharness, hstate]
                by_cases heq : id = ask
                · simp [heq, answerAsk]
                · simp [heq, answerAsk, Ne.symm heq]
              · have hstate : askState events ask ≠ .open := fun hstate => hwaits (ih.mp hstate)
                rw [if_neg fun h => hstate h.2]
                refine ⟨fun h => absurd h hstate, ?_⟩
                rintro ⟨step, attempt, hafter⟩
                refine absurd ?_ hwaits
                unfold answerAsk at hafter
                split at hafter
                · split at hafter
                  · simp at hafter
                  · exact ⟨step, attempt, hafter⟩
                · exact ⟨step, attempt, hafter⟩
          | none =>
              rw [askStep_other hput hanswer, ih]
              constructor
              · rintro ⟨step, attempt, hharness⟩
                rw [hharness]
                exact ⟨step, attempt, reduce_keeps_waiting hput hanswer hopen.2 step attempt ask spec⟩
              · rintro ⟨step, attempt, hafter⟩
                rcases reduce_waits hafter with ⟨toAgent, heq⟩ | ⟨prompt, heq⟩ | ⟨hbefore, -⟩
                · simp [heq, askPut] at hput
                · simp [heq, askPut] at hput
                · exact ⟨step, attempt, hbefore⟩

/-! ### What the deliverer answers -/

/-- What a call of the server does to the messages stored: a put may fail, or lose its answer. -/
def Messaged (messages : MessageStore) : (c : ServerCall) → c.Answer → MessageStore → Prop
  | .outside (.putMessage message), answer, later =>
      (answer = .ok (messages.putMessage message).1 ∧ later = (messages.putMessage message).2) ∨
      ((∃ error, answer = .error error) ∧ (later = messages ∨ later = (messages.putMessage message).2))
  | _, _, later => later = messages

/-- The messages stored, to which others only add. -/
abbrev Messages : World ServerSig where
  State := MessageStore
  Inv _ := True
  Step := Messaged
  Owes _ _ := True
  Others _ messages later := messages <+: later
  others_refl _ _ := List.prefix_refl _
  others_trans h h' := h.trans h'

theorem MessageStore.grows_putMessage (messages : MessageStore) (message : StoredMessage) :
    messages <+: (messages.putMessage message).2 := by
  unfold MessageStore.putMessage
  split
  · exact List.prefix_refl _
  · exact List.prefix_append _ _

theorem Messaged.grows {messages later : MessageStore} {c : ServerCall} {answer : c.Answer}
    (h : Messaged messages c answer later) : messages <+: later := by
  unfold Messaged at h
  split at h
  · rcases h with ⟨-, rfl⟩ | ⟨-, rfl | rfl⟩
    · exact messages.grows_putMessage _
    · exact List.prefix_refl _
    · exact messages.grows_putMessage _
  · exact h ▸ List.prefix_refl _

/-- What is stored stays stored, whatever a program calls. -/
theorem Messages.safe {α : Type} {J : MessageStore → Prop}
    (hgrows : ∀ messages later, J messages → messages <+: later → J later)
    (p : Prog ServerSig α) {messages : MessageStore} (hJ : J messages) :
    Messages.Safe (fun later _ => J later) p messages := by
  have honly : p.Only fun _ => True := by
    induction p with
    | ret value => trivial
    | call c next ih => exact ⟨trivial, ih⟩
  refine World.safe_of_only (fun _ messages later hJ hothers _ => hgrows messages later hJ hothers) ?_ honly hJ
  exact fun messages _ hJ _ _ => ⟨trivial, fun _ later hstep _ => hgrows messages later hJ (Messaged.grows hstep)⟩

theorem MessageStore.Holds.later {messages later : MessageStore} {id : MessageId} {decision : UInt32}
    {expectsReply : Bool}
    (h : messages.Holds id decision expectsReply) (hgrows : messages <+: later) :
    later.Holds id decision expectsReply := by
  obtain ⟨stored, hmem, hstored⟩ := h
  exact ⟨stored, hgrows.subset hmem, hstored⟩

/-- A message that `put` accepts is stored, for its decision and as it is. -/
theorem putMessage_stores (message : StoredMessage) (messages : MessageStore) :
    Messages.Safe (fun (later : MessageStore) result => ∀ id, result = .ok id →
      later.Holds id message.decision message.expectsReply) (putMessage message) messages := by
  intro held _ _
  refine ⟨trivial, fun answer later hstep _ => ?_⟩
  have hstep : (answer = .ok (held.putMessage message).1 ∧ later = (held.putMessage message).2) ∨
      ((∃ error, answer = .error error) ∧ (later = held ∨ later = (held.putMessage message).2)) := hstep
  rcases hstep with ⟨rfl, rfl⟩ | ⟨⟨error, rfl⟩, -⟩
  · unfold MessageStore.putMessage
    cases hfind : held.find? fun stored => stored.fromRun = message.fromRun ∧ stored.decision = message.decision with
    | none =>
        rintro id ⟨⟩
        exact ⟨message, List.mem_append_right _ (List.mem_singleton_self _), rfl, rfl, rfl⟩
    | some stored =>
        have hsame := List.find?_some hfind
        rw [decide_eq_true_eq] at hsame
        dsimp only
        split
        · next hequal =>
            rintro id ⟨⟩
            exact ⟨stored, List.mem_of_find?_eq_some hfind, rfl, hsame.2, hequal.2.2.1⟩
        · exact nofun
  · exact nofun

theorem reply_delivers (request : MessageRequest) (hlimits : request.limits = none) (messages : MessageStore) :
    Messages.Safe (fun (later : MessageStore) answer => Delivers later request answer) (reply request) messages := by
  intro held _ _
  refine ⟨trivial, fun found later _ _ => ?_⟩
  rcases found with error | (_ | ask)
  · trivial
  · trivial
  · dsimp only
    split
    · trivial
    · refine fun held' _ _ => ⟨trivial, fun stamps later' _ _ => ?_⟩
      refine World.Safe.bind ((putMessage_stores _ later').mono fun stored result hresult => ?_)
      cases result with
      | error reason => trivial
      | ok messageId =>
          have hholds := hresult messageId rfl
          refine World.Safe.bind ((Messages.safe (J := fun messages => messages.Holds messageId request.decision false)
            (fun _ _ h => h.later) (deliver ask.fromRun ask.id _ .leave) hholds).mono fun final delivered hfinal => ?_)
          rcases delivered with error | (_ | _)
          · trivial
          · trivial
          · show final.Holds messageId request.decision (request.limits.isSome && request.expectsReply)
            rw [hlimits]
            exact hfinal

/-- Whatever its other calls are answered, `send` answers what the messages stored allow. -/
theorem send_delivers (v5 : ChildName → Uuid) (request : MessageRequest) (asked : List Event)
    (messages : MessageStore) :
    Messages.Safe (fun (later : MessageStore) answer => Delivers later request answer)
      (send v5 request asked) messages := by
  unfold send
  split
  · next hlimits => exact reply_delivers request hlimits messages
  · next limits hlimits =>
      split
      · trivial
      · refine World.Safe.bind ((Messages.safe (J := fun _ => True) (fun _ _ _ _ => trivial) _ trivial).mono
          fun later found _ => ?_)
        cases found with
        | error reason => trivial
        | ok task =>
            refine fun held _ _ => ⟨trivial, fun stamps later' _ _ => ?_⟩
            refine World.Safe.bind ((putMessage_stores _ later').mono fun stored result hresult => ?_)
            cases result with
            | error reason => trivial
            | ok messageId =>
                have hholds := hresult messageId rfl
                refine World.Safe.bind ((Messages.safe
                  (J := fun messages => messages.Holds messageId request.decision request.expectsReply)
                  (fun _ _ h => h.later) (enqueueChild task asked) hholds).mono fun final started hfinal => ?_)
                cases started with
                | error reason => trivial
                | ok child =>
                    show final.Holds messageId request.decision (request.limits.isSome && request.expectsReply)
                    rw [hlimits]
                    exact hfinal

/-! ### What the others append -/

/-- The calls that add nothing to a log but one answer to an ask. -/
def AppendsAnswers : ServerCall → Prop
  | .store (.appendEvents _ batch _) | .store (.appendEventsAfter _ _ batch _) =>
      ∃ event ask, batch = [event] ∧ answerTo event.payload = some ask
  | .store (.putRun _ _) => False
  | _ => True

/-- Programs that only answer asks, whatever their calls are answered. -/
abbrev Answering : World ServerSig := World.alone Unit (fun _ _ _ _ => True) fun _ => AppendsAnswers

theorem Answering.only {α : Type} {p : Prog ServerSig α} (h : p.Only AppendsAnswers) :
    Answering.Safe (fun _ _ => True) p () :=
  World.safe_of_only (J := fun _ => True) (fun _ _ _ _ _ _ => trivial)
    (fun _ _ _ _ hc => ⟨hc, fun _ _ _ _ => trivial⟩) h trivial

theorem deliver_answers (asker : RunId) (ask : MessageId) {answer : EventPayload} {id : MessageId}
    (h : answerTo answer = some id) (ifUnsent : IfUnsent) :
    (deliver asker ask answer ifUnsent).Only AppendsAnswers := by
  have hsettle : (settleAsk asker ask).Only AppendsAnswers := ⟨trivial, fun _ => ⟨trivial, fun _ => trivial⟩⟩
  refine ⟨trivial, fun loaded => ?_⟩
  rcases loaded with _ | (_ | run)
  · trivial
  · exact hsettle
  · dsimp only
    split
    · exact hsettle
    · split
      · split
        · trivial
        · exact hsettle
      · exact hsettle
      · refine ⟨trivial, fun stamps => ⟨⟨_, id, rfl, h⟩, fun done => ?_⟩⟩
        rcases done with _ | (_ | _ | _ | _)
        · trivial
        · exact hsettle
        · exact hsettle
        · exact hsettle
        · trivial

theorem answerTries_answers (run : RunId) (text : String) (tries : Nat) (asked : Option MessageId) :
    (answerTries run text tries asked).Only AppendsAnswers := by
  induction tries generalizing asked with
  | zero => trivial
  | succ tries ih =>
      refine ⟨trivial, fun loaded => ?_⟩
      rcases loaded with _ | (_ | stored)
      · trivial
      · trivial
      · dsimp only
        split
        · trivial
        · next question _ =>
            split
            · trivial
            · refine ⟨trivial, fun stamps => ⟨⟨_, question, rfl, rfl⟩, fun done => ?_⟩⟩
              rcases done with _ | (_ | _ | _ | _)
              · trivial
              · exact ⟨trivial, fun _ => trivial⟩
              · trivial
              · trivial
              · exact ih (some question)

/-- `answer_question` appends answers only. -/
theorem answerQuestion_answers (run : RunId) (text : String) (asked : Option MessageId) :
    (answerQuestion run text asked).Only AppendsAnswers := by
  unfold answerQuestion
  dsimp only
  split
  · trivial
  · split
    · trivial
    · exact answerTries_answers run _ 3 asked

/-- A task's end, as its ask is answered with it. -/
theorem taskEnd_answers (ask : StoredMessage) :
    Answering.Safe (fun _ result => ∀ answer, result = .ok (some answer) → ∃ id, answerTo answer = some id)
      (taskEnd ask) () := by
  unfold taskEnd
  split
  · exact World.safe_alone_ret.mpr (by simp)
  · refine World.safe_alone_call.mpr ⟨trivial, fun loaded _ _ => ?_⟩
    rcases loaded with _ | (_ | run)
    · exact World.safe_alone_ret.mpr (by simp)
    · exact World.safe_alone_ret.mpr (by simp)
    · refine World.safe_alone_call.mpr ⟨trivial, fun stamps _ _ => World.safe_alone_ret.mpr fun answer hanswer => ?_⟩
      obtain ⟨body, -, rfl⟩ := Option.map_eq_some_iff.mp (Except.ok.inj hanswer)
      exact ⟨ask.id, rfl⟩

theorem parkedAnswer_answers (ask : MessageId) :
    Answering.Safe (fun _ result => ∀ answer, result = some answer → ∃ id, answerTo answer = some id)
      (parkedAnswer ask) () := by
  have htimedOut : ∀ answer, some (.askTimedOut ask) = some answer → ∃ id, answerTo answer = some id := by
    rintro answer ⟨⟩
    exact ⟨ask, rfl⟩
  refine World.safe_alone_call.mpr ⟨trivial, fun found _ _ => ?_⟩
  rcases found with _ | (_ | row)
  · exact World.safe_alone_ret.mpr nofun
  · exact World.safe_alone_ret.mpr htimedOut
  · refine World.Safe.bind ((taskEnd_answers row).mono fun _ ended hended => ?_)
    rcases ended with _ | (_ | answer)
    · exact World.safe_alone_ret.mpr nofun
    · have hopen : (stillOpen row).Only AppendsAnswers := by
        unfold stillOpen
        split
        · trivial
        · refine ⟨trivial, fun found => ?_⟩
          cases found <;> trivial
      refine World.Safe.bind ((Answering.only hopen).mono fun _ still _ => ?_)
      rcases still with _ | (_ | _)
      · exact World.safe_alone_ret.mpr nofun
      · exact World.safe_alone_ret.mpr htimedOut
      · exact World.safe_alone_ret.mpr nofun
    · refine World.safe_alone_ret.mpr ?_
      rintro other ⟨⟩
      exact hended answer rfl

theorem sweepParked_answers (run : RunId) (ask : MessageId) :
    Answering.Safe (fun _ _ => True) (sweepParked run ask) () := by
  refine World.safe_alone_call.mpr ⟨trivial, fun loaded _ _ => ?_⟩
  cases loaded with
  | error error => trivial
  | ok loaded =>
      dsimp only
      split
      · exact Answering.only ⟨trivial, fun woken => by cases woken <;> trivial⟩
      · refine World.safe_alone_call.mpr ⟨trivial, fun stopped _ _ => ?_⟩
        rcases stopped with _ | (_ | (_ | _))
        · trivial
        · trivial
        · trivial
        · exact Answering.only ⟨trivial, fun woken => by cases woken <;> trivial⟩
      · refine World.Safe.bind ((parkedAnswer_answers ask).mono fun _ answer hanswer => ?_)
        cases answer with
        | none => trivial
        | some answer =>
            obtain ⟨id, hid⟩ := hanswer answer rfl
            exact Answering.only (deliver_answers run ask hid .close)

theorem sweepDue_answers (ask : StoredMessage) : Answering.Safe (fun _ _ => True) (sweepDue ask) () := by
  refine World.Safe.bind ((taskEnd_answers ask).mono fun _ ended hended => ?_)
  rcases ended with _ | (_ | answer)
  · trivial
  · exact Answering.only (deliver_answers ask.fromRun ask.id rfl .close)
  · obtain ⟨id, hid⟩ := hended answer rfl
    exact Answering.only (deliver_answers ask.fromRun ask.id hid .close)

/-- `sweep_asks` appends answers only. -/
theorem sweepAsks_answers : Answering.Safe (fun _ _ => True) sweepAsks () := by
  have hparked : ∀ parked, Answering.Safe (fun _ _ => True) (sweepParkedRuns parked) () := by
    intro parked
    induction parked with
    | nil => trivial
    | cons entry rest ih =>
        exact World.Safe.bind ((sweepParked_answers entry.1 entry.2).mono fun _ _ _ =>
          World.Safe.bind (ih.mono fun _ _ _ => trivial))
  have hdue : ∀ due, Answering.Safe (fun _ _ => True) (sweepDueAsks due) () := by
    intro due
    induction due with
    | nil => trivial
    | cons ask rest ih =>
        exact World.Safe.bind ((sweepDue_answers ask).mono fun _ _ _ => World.Safe.bind (ih.mono fun _ _ _ => trivial))
  refine World.safe_alone_call.mpr ⟨trivial, fun listed _ _ => ?_⟩
  cases listed with
  | error error => trivial
  | ok parked =>
      refine World.Safe.bind ((hparked parked).mono fun _ swept _ => World.safe_alone_call.mpr
        ⟨trivial, fun due _ _ => ?_⟩)
      cases due with
      | error error => trivial
      | ok due => exact World.Safe.bind ((hdue due).mono fun _ _ _ => trivial)

end Gol
