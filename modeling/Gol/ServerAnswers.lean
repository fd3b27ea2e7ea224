import Gol.ServerAsks
import Gol.ServerReach

/-! One answer for each ask. A delivery reads the asker's log and appends its answer to whatever the log is by then;
the user's answer is appended only to the log that was read. So an ask is answered once where no delivery appends to a
log in which another has answered it since. -/

namespace Gol
open Library World Driver

variable {fleet : Fleet} {ok : Pool → Move → Prop} {s t : Server} {c : ServerCall} {answer : c.Answer}

/-! ### Answers in a log -/

def Event.puts (ask : MessageId) (event : Event) : Bool := (askPut event.payload).any fun put => put.1 = ask

def Event.answers (ask : MessageId) (event : Event) : Bool := answerTo event.payload = some ask

/-- After the event that puts an ask, the log answers it at most once. -/
def OneAnswer (log : List Event) : Prop :=
  ∀ ask before put after, log = before ++ put :: after → put.puts ask = true →
    (∀ event ∈ after, event.puts ask = false) → after.countP (Event.answers ask) ≤ 1

theorem askStep_of_puts {event : Event} {ask : MessageId} (h : event.puts ask = true) (state : AskState) :
    askStep ask state event = .open := by
  obtain ⟨⟨id, expectsReply⟩, hput, hid⟩ := (Option.any_eq_true ..).mp h
  rw [askStep_put hput, if_pos (of_decide_eq_true hid)]

theorem askStep_of_not_puts {event : Event} {ask : MessageId} (h : event.puts ask = false) (state : AskState) :
    askStep ask state event = if event.answers ask = true ∧ state = .open then .answered else state := by
  cases hput : askPut event.payload with
  | some put =>
      have hid : put.1 ≠ ask := by simpa [Event.puts, hput] using h
      have hanswer : event.answers ask = false := by
        cases hpayload : event.payload <;> simp [hpayload, askPut] at hput <;> simp [Event.answers, hpayload, answerTo]
      rw [askStep_put hput, if_neg hid, if_neg (by simp [hanswer])]
  | none =>
      cases hanswer : answerTo event.payload with
      | none => rw [askStep_other hput hanswer, if_neg (by simp [Event.answers, hanswer])]
      | some id => simp [askStep_answer hanswer, Event.answers, hanswer]

/-- Once put, an ask is open until it is answered. -/
theorem askState_since {ask : MessageId} {before after : List Event} {put : Event} (hput : put.puts ask = true)
    (hafter : ∀ event ∈ after, event.puts ask = false) :
    askState (before ++ put :: after) ask = if after.any (Event.answers ask) then .answered else .open := by
  induction after using List.reverseRecOn with
  | nil => simpa [askState_snoc] using askStep_of_puts hput _
  | append_singleton after event ih =>
      have hstate := ih fun other hother => hafter other (List.mem_append_left _ hother)
      rw [show before ++ put :: (after ++ [event]) = before ++ put :: after ++ [event] by simp, askState_snoc, hstate,
        askStep_of_not_puts (hafter event (by simp))]
      by_cases hanswers : event.answers ask = true
      · by_cases hany : after.any (Event.answers ask) = true <;> simp [hanswers, hany]
      · simp [hanswers]

namespace OneAnswer

theorem nil : OneAnswer [] := by
  intro ask before put after heq
  simp at heq

/-- An answer is added only to a log in which its ask is not answered. -/
theorem snoc {log : List Event} (h : OneAnswer log) {event : Event}
    (hevent : ∀ ask, event.answers ask = true → askState log ask ≠ .answered) : OneAnswer (log ++ [event]) := by
  intro ask before put after heq hput hafter
  rcases List.eq_nil_or_concat after with rfl | ⟨after, last, rfl⟩
  · simp
  · have hsplit : log = before ++ put :: after ∧ event = last := by
      have heq' : log ++ [event] = (before ++ put :: after) ++ [last] := by simpa using heq
      obtain ⟨hlog, hlast⟩ := List.append_inj' heq' rfl
      exact ⟨hlog, List.singleton_inj.mp hlast⟩
    obtain ⟨rfl, rfl⟩ := hsplit
    have hbefore : ∀ other ∈ after, other.puts ask = false := fun other hother => hafter other (by simp [hother])
    have hone := h ask before put after rfl hput hbefore
    rw [List.concat_eq_append, List.countP_append, List.countP_singleton]
    split
    · next hanswers =>
        have hnot := hevent ask hanswers
        rw [askState_since hput hbefore] at hnot
        have hzero : after.countP (Event.answers ask) = 0 := by
          rw [List.countP_eq_zero]
          intro other hother hother'
          exact hnot (if_pos (List.any_eq_true.mpr ⟨other, hother, hother'⟩))
        omega
    · omega

/-- A batch without answers. -/
theorem append {log batch : List Event} (h : OneAnswer log)
    (hbatch : ∀ payload ∈ payloads batch, answerTo payload = none) :
    OneAnswer (log ++ batch) := by
  induction batch using List.reverseRecOn with
  | nil => simpa using h
  | append_singleton batch event ih =>
      rw [payloads_append] at hbatch
      rw [← List.append_assoc]
      refine (ih fun payload hmem => hbatch payload (List.mem_append_left _ hmem)).snoc fun ask hanswers => ?_
      have hnone := hbatch event.payload (List.mem_append_right _ (List.mem_singleton_self _))
      simp [Event.answers, hnone] at hanswers

end OneAnswer

/-! ### Who answers -/

theorem answerTo_of_driven {payload : EventPayload} (h : isDriven payload = true) : answerTo payload = none := by
  cases payload <;> first | rfl | simp [isDriven] at h

/-- A batch of the workers holds no answer. -/
theorem WorkerWrites.answerTo {spec : RunSpec} {events batch : List Event} {after : Bool}
    (h : WorkerWrites spec events batch after) : ∀ payload ∈ payloads batch, Gol.answerTo payload = none := by
  intro payload hmem
  cases h with
  | ended ended hended hbatch =>
      rw [hbatch, List.mem_singleton] at hmem
      rcases hended with rfl | ⟨cls, message, rfl⟩ <;> rw [hmem] <;> rfl
  | scheduled hafter hqueued hbatch =>
      rw [hbatch] at hmem
      simp only [List.mem_cons, List.not_mem_nil, or_false] at hmem
      rcases hmem with rfl | rfl | rfl <;> rfl
  | begun hafter hturn hgateway hstarting hbatch =>
      rw [hbatch, List.mem_singleton] at hmem
      rw [hmem]
      rfl
  | completed hturn hstarted message usage text hbatch =>
      rw [hbatch] at hmem
      simp only [List.mem_cons, List.not_mem_nil, or_false] at hmem
      rcases hmem with rfl | rfl <;> rfl
  | drove hafter hturn hends hagrees hdriven => exact answerTo_of_driven (hdriven payload hmem)

/-- The question a log waits on is open in it. -/
theorem askState_of_openQuestion {spec : RunSpec} {events : List Event} {question : MessageId}
    (h : openQuestion spec events = some question) : askState events question = .open := by
  unfold openQuestion at h
  split at h
  · cases h
  · split at h
    · next step attempt asked hwaiting =>
        split at h
        · obtain rfl := Option.some.inj h
          rw [fold_harness] at hwaiting
          exact askState_of_waiting hwaiting
        · cases h
    · cases h

/-- What an owed append adds to the log it finds: no answer, a delivery's, or the user's to a question open there. -/
theorem Owes.answers {pends : Bool} (howes : Owes fleet pends s c) {id : RunId} {seen : Option Nat} {batch : List Event}
    {party : Party} (hc : c.appends = some (id, seen, batch, party)) {run : StoredRun}
    (hrun : s.store.runs id = some run) (hseen : ∀ length, seen = some length → length = run.events.length) :
    (∀ payload ∈ payloads batch, answerTo payload = none) ∨ (party = .delivery ∧ ∃ event, batch = [event]) ∨
      ∃ event ask, batch = [event] ∧ answerTo event.payload = some ask ∧ askState run.events ask = .open := by
  have hwrites := howes.writes hc
  have hsingle : ∀ {payload}, payloads batch = [payload] → ∃ event, batch = [event] ∧ event.payload = payload := by
    intro payload hbatch
    obtain ⟨event, heq, hpayload⟩ := List.map_eq_singleton_iff.mp hbatch
    exact ⟨event, heq, hpayload⟩
  have hnone : ∀ {payload}, payloads batch = [payload] → answerTo payload = none →
      ∀ other ∈ payloads batch, answerTo other = none := by
    intro payload hbatch hnone other hmem
    rw [hbatch, List.mem_singleton] at hmem
    rwa [hmem]
  cases party with
  | producer =>
      obtain ⟨-, cls, message, hbatch⟩ := hwrites
      exact .inl (hnone hbatch rfl)
  | settle => exact .inl (hnone hwrites.2 rfl)
  | delivery =>
      obtain ⟨-, spec, events, ask, answer, -, -, -, -, hbatch⟩ := hwrites
      obtain ⟨event, heq, -⟩ := hsingle hbatch
      exact .inr (.inl ⟨rfl, event, heq⟩)
  | user =>
      obtain ⟨spec, events, question, text, hsaw, rfl, hopen, hbatch⟩ := hwrites
      obtain ⟨event, heq, hpayload⟩ := hsingle hbatch
      have hwhole := hsaw.whole hrun (hseen _ rfl)
      refine .inr (.inr ⟨event, question, heq, by rw [hpayload]; rfl, ?_⟩)
      rw [hwhole]
      exact askState_of_openQuestion hopen
  | stop =>
      obtain ⟨spec, events, -, -, -, hbatch⟩ := hwrites
      exact .inl (hnone hbatch rfl)
  | request =>
      rcases hwrites with ⟨-, ⟨cls, message, hbatch⟩ | ⟨spec, events, message, usage, text, -, -, hbatch⟩⟩
      · exact .inl (hnone hbatch rfl)
      · left
        intro payload hmem
        rw [hbatch] at hmem
        simp only [List.mem_cons, List.not_mem_nil, or_false] at hmem
        rcases hmem with rfl | rfl <;> rfl
  | sweep => exact hwrites.elim
  | worker token =>
      obtain ⟨spec, events, number, -, -, -, -, -, -, hwrites⟩ := hwrites
      exact .inl hwrites.answerTo

/-- A run is stored without answers. -/
theorem oneAnswer_put {run : StoredRun} {origin : Origin} (h : Puts fleet s run origin) : OneAnswer run.events := by
  have hevents : (∃ stamps, run.events = queuedEvents run.spec stamps) ∨
      ∃ stamps, run.events = openEvents run.spec stamps := by
    cases origin with
    | request => exact h.2.imp_right And.right
    | fire => exact .inl h.1
    | child asked => exact .inl h.2.2
  have hnone : ∀ payload ∈ payloads run.events, answerTo payload = none := by
    intro payload hmem
    rcases hevents with ⟨stamps, heq⟩ | ⟨stamps, heq⟩
    · rw [heq] at hmem
      simp only [queuedEvents, payloads, List.map_cons, List.map_nil, List.mem_cons, List.not_mem_nil, or_false] at hmem
      rcases hmem with rfl | rfl | rfl <;> rfl
    · rw [heq] at hmem
      simp only [openEvents, payloads, List.map_cons, List.map_nil, List.mem_cons, List.not_mem_nil, or_false] at hmem
      rcases hmem with rfl | rfl | rfl <;> rfl
  simpa using OneAnswer.nil.append hnone

/-! ### One answer -/

/-- A delivery's append finds its ask unanswered in the open log it is made to. -/
def FindsUnanswered (pool : Pool) : Move → Prop
  | .call (.store (.appendEvents id batch .delivery)) _ =>
      ∀ run, pool.server.store.runs id = some run → hasEnded run.events = false → ∀ event ∈ batch, ∀ ask,
        answerTo event.payload = some ask → askState run.events ask ≠ .answered
  | _ => True

theorem FindsUnanswered.delivery {pool : Pool} (h : FindsUnanswered pool (.call c answer))
    {id : RunId} {seen : Option Nat} {batch : List Event} (hc : c.appends = some (id, seen, batch, .delivery))
    (hseen : seen = none) {run : StoredRun} (hrun : pool.server.store.runs id = some run)
    (hopen : hasEnded run.events = false) {event : Event} (hmem : event ∈ batch) {ask : MessageId}
    (hanswer : answerTo event.payload = some ask) :
    askState run.events ask ≠ .answered := by
  subst hseen
  cases c with
  | store c =>
      cases c with
      | appendEvents other batch party =>
          cases hc
          exact h run hrun hopen event hmem ask hanswer
      | _ => cases hc
  | _ => cases hc

/-- Where each delivery finds its ask unanswered, no log answers an ask twice. -/
theorem one_answer {pool : Pool} (h : pool.Reach (Serves fleet) FindsUnanswered) (id : RunId) (run : StoredRun)
    (hrun : pool.server.store.runs id = some run) : OneAnswer run.events := by
  refine h.reached_invariant (P := fun s => ∀ id run, s.store.runs id = some run → OneAnswer run.events)
    (fun _ _ hrun => by cases hrun) (fun _ _ h => h) (fun _ _ h => h) ?_ id run hrun
  intro pool c answer t hreach hok howes hbefore hstep id run hrun
  have hafter : ∀ now, (pool.server.after now c).store.runs id = some run → OneAnswer run.events := by
    intro now hrun
    rcases Server.stored_after hrun with hsame | ⟨origin, rfl, -, -⟩ |
      ⟨before, seen, batch, party, hc, hstored, hopen, hseen, rfl⟩
    · exact hbefore id run hsame
    · exact oneAnswer_put howes.1
    · have hone := hbefore id before hstored
      rcases howes.answers hc hstored hseen with hnone | ⟨rfl, event, rfl⟩ | ⟨event, ask, rfl, hanswer, hask⟩
      · exact hone.append hnone
      · obtain ⟨hnone, -⟩ := howes.writes hc
        refine hone.snoc fun ask hanswers => ?_
        exact hok.delivery hc hnone hstored hopen (List.mem_singleton_self _) (of_decide_eq_true hanswers)
      · refine hone.snoc fun other hanswers => ?_
        have heq : some ask = some other := hanswer.symm.trans (of_decide_eq_true hanswers)
        rw [← Option.some.inj heq, hask]
        nofun
  cases hstep with
  | done now _ _ | lost now _ _ => exact hafter now hrun
  | failed _ => exact hbefore id run hrun

/-! ### An ask timed out -/

def writer : StoredAgent := ⟨⟨⟨2⟩, "1", "writer", "", [], []⟩, (RunSpec.plain 1 ⟨8, 4⟩).owner⟩

/-- A run that asks the writer, and gives it a minute. -/
def researcher : RunSpec := { RunSpec.plain 1 ⟨8, 4⟩ with capabilities := [⟨"agent.message"⟩] }

/-- Its ask, as the messages store keeps it. -/
def planAsk : StoredMessage :=
  ⟨⟨0⟩, researcher.owner, researcher.runId, researcher.agentId, 1, ⟨2⟩, "what is the plan?", true, none, some ⟨0⟩,
    some 60000, some 60, 0⟩

def withWriter : (c : OutsideCall) → c.Answer
  | .agent _ => .ok (some writer)
  | .message _ => .ok (some planAsk)
  | .askOfTask _ => .ok (some planAsk)
  | .openAsksDue => .ok [planAsk]
  | c => quiet (.sendMessage ⟨2⟩ "what is the plan?" true none (some 60)) c

def Pool.callsWriter (i n : Nat) : List Pool.Turn := List.replicate n (.call i withWriter (.ok "done"))

def Worker.messaging : Worker := { Worker.plain with messages := true }

/-- The run asks and is parked, and a minute passes. -/
def askedWriter : List Pool.Turn :=
  .spawn (forget (enqueue researcher .request .endRun)) :: Pool.callsWriter 0 4 ++
  .spawn (forget (Worker.messaging.workOne 7)) :: Pool.callsWriter 0 30 ++ [.tick 60000]

/-- A sweep times the ask out. -/
def timedOut : List Pool.Turn := askedWriter ++ .spawn (forget sweepAsks) :: Pool.callsWriter 0 12

/-- Two sweeps read the ask open before either times it out. -/
def timedOutTwice : List Pool.Turn :=
  askedWriter ++ .spawn (forget sweepAsks) :: Pool.callsWriter 0 11 ++
  .spawn (forget sweepAsks) :: Pool.callsWriter 0 12 ++ Pool.callsWriter 1 1

theorem serves_timedOut : ∀ p ∈ Pool.started timedOut, Serves .plain p := by
  intro p hp
  rcases hp with _ | ⟨_, _ | ⟨_, _ | ⟨_, hp⟩⟩⟩
  · exact .enqueue _ _ rfl
  · exact .work _ _ rfl
  · exact .sweepAsks
  · cases hp

theorem serves_timedOutTwice : ∀ p ∈ Pool.started timedOutTwice, Serves .plain p := by
  intro p hp
  rcases hp with _ | ⟨_, _ | ⟨_, _ | ⟨_, _ | ⟨_, hp⟩⟩⟩⟩
  · exact .enqueue _ _ rfl
  · exact .work _ _ rfl
  · exact .sweepAsks
  · exact .sweepAsks
  · cases hp

def findsUnansweredCheck (pool : Pool) : Move → Bool
  | .call (.store (.appendEvents id batch .delivery)) _ =>
      (pool.server.store.runs id).all fun run => batch.all fun event =>
        (answerTo event.payload).all fun ask => askState run.events ask ≠ .answered
  | _ => true

theorem findsUnanswered_of_check (pool : Pool) (move : Move) (h : findsUnansweredCheck pool move = true) :
    FindsUnanswered pool move := by
  unfold FindsUnanswered
  split
  · intro run hrun _ event hmem ask hanswer
    simp only [findsUnansweredCheck, hrun, Option.all_some, List.all_eq_true] at h
    simpa [hanswer] using h event hmem
  · trivial

theorem one_answer_timed_out :
    ∃ (pool : Pool) (run : StoredRun), pool.Reach (Serves .plain) FindsUnanswered ∧
      pool.server.store.runs ⟨1⟩ = some run ∧ askState run.events ⟨0⟩ = .answered ∧ OneAnswer run.events := by
  obtain ⟨pool, hreach, hshows⟩ := Pool.reached_of_play findsUnansweredCheck findsUnanswered_of_check timedOut
    (fun pool => (pool.server.store.runs ⟨1⟩).any fun run => askState run.events ⟨0⟩ = .answered) (by decide +kernel)
    serves_timedOut
  obtain ⟨run, hrun, hanswered⟩ := (Option.any_eq_true ..).mp hshows
  exact ⟨pool, run, hreach, hrun, of_decide_eq_true hanswered, one_answer hreach ⟨1⟩ run hrun⟩

/-- Both sweeps append a timeout to the asker's log. -/
theorem timed_out_twice :
    ∃ (pool : Pool) (run : StoredRun), pool.Reach (Serves .plain) anyMove ∧
      pool.server.store.runs ⟨1⟩ = some run ∧
      payloads (run.events.drop 10) = [.messageSent ⟨0⟩ ⟨2⟩ true, .askTimedOut ⟨0⟩, .askTimedOut ⟨0⟩] ∧
      ¬ OneAnswer run.events := by
  obtain ⟨pool, hreach, hshows⟩ := Pool.reached_of_any timedOutTwice
    (fun pool => (pool.server.store.runs ⟨1⟩).any fun run =>
      payloads (run.events.drop 10) = [.messageSent ⟨0⟩ ⟨2⟩ true, .askTimedOut ⟨0⟩, .askTimedOut ⟨0⟩])
    (by decide +kernel) serves_timedOutTwice
  obtain ⟨run, hrun, hshown⟩ := (Option.any_eq_true ..).mp hshows
  have hpayloads := of_decide_eq_true hshown
  refine ⟨pool, run, hreach, hrun, hpayloads, fun hone => ?_⟩
  obtain ⟨sent, after, hsplit, hsent, hafter⟩ := List.map_eq_cons_iff.mp hpayloads
  obtain ⟨first, rest, rfl, hfirst, hrest⟩ := List.map_eq_cons_iff.mp hafter
  obtain ⟨second, rfl, hsecond⟩ := List.map_eq_singleton_iff.mp hrest
  have hlog : run.events = run.events.take 10 ++ sent :: [first, second] := by
    rw [← hsplit, List.take_append_drop]
  have htwo := hone ⟨0⟩ _ sent [first, second] hlog (by simp [Event.puts, hsent, askPut])
    (by simp [Event.puts, hfirst, hsecond, askPut])
  simp [Event.answers, hfirst, hsecond, answerTo] at htwo

end Gol
