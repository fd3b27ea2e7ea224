import Gol.HarnessDecisions
import Gol.ServerEnders
import Gol.ServerReadings

/-! What a turn ender finds. A stored log is one that a producer queued or one that a quick turn opened; only a queued
one reaches a worker. The guard of a turn's completion and its failure reads the harness and the user's message, which
a queued run on the user's own credential has too while its harness runs unanswered. -/

namespace Gol
open Library World

variable {fleet : Fleet} {ok : Pool → Move → Prop}

/-! ### How a log began -/

/-- A quick turn opened the log. -/
def StoredRun.WasOpened (run : StoredRun) : Prop :=
  isTurn run.spec = false ∧ ∃ stamps more, run.events = openEvents run.spec stamps ++ more

/-- A producer queued the run. -/
def StoredRun.WasQueued (run : StoredRun) : Prop := ∃ stamps more, run.events = queuedEvents run.spec stamps ++ more

theorem StoredRun.WasOpened.payloads {run : StoredRun} (h : run.WasOpened) :
    ∃ rest, payloads run.events = .runCreated :: .runStarted :: rest := by
  obtain ⟨-, stamps, more, hevents⟩ := h
  exact ⟨.userMessage run.spec.input :: Gol.payloads more, by rw [hevents]; rfl⟩

theorem StoredRun.WasQueued.payloads {run : StoredRun} (h : run.WasQueued) :
    ∃ rest, payloads run.events = .runCreated :: .runQueued :: rest := by
  obtain ⟨stamps, more, hevents⟩ := h
  exact ⟨.userMessage run.spec.input :: Gol.payloads more, by rw [hevents]; rfl⟩

theorem StoredRun.WasOpened.not_wasQueued {run : StoredRun} (h : run.WasOpened) : ¬ run.WasQueued := by
  intro hqueued
  obtain ⟨rest, hopened⟩ := h.payloads
  obtain ⟨rest', hqueued⟩ := hqueued.payloads
  cases hopened.symm.trans hqueued

/-- A sane log is past its first event, if that created it. -/
theorem Sane.second {spec : RunSpec} {events more : List Event} (h : Sane spec events) {second : EventPayload}
    {rest : List EventPayload} (hlog : payloads (events ++ more) = .runCreated :: second :: rest) :
    second ∈ payloads events := by
  have hrest := h.rest
  rw [payloads_append] at hlog
  match hevents : payloads events with
  | [] =>
      rw [hevents] at hrest
      cases hrest
  | [first] =>
      rw [hevents, List.singleton_append] at hlog
      obtain ⟨rfl, -⟩ := List.cons.inj hlog
      rw [hevents] at hrest
      cases hrest
  | first :: second' :: rest' =>
      rw [hevents, List.cons_append, List.cons_append] at hlog
      obtain ⟨-, hlog⟩ := List.cons.inj hlog
      obtain ⟨rfl, -⟩ := List.cons.inj hlog
      exact List.mem_cons_of_mem _ (List.mem_cons_self ..)

/-- A run seen waiting was queued: a turn is stored as started. -/
theorem Server.Saw.wasQueued {s : Server} {id : RunId} {spec : RunSpec} {events : List Event} (h : s.Saw id spec events)
    (hwaits : stillWaiting events = true) {run : StoredRun} (hrun : s.store.runs id = some run)
    (hbegan : run.WasQueued ∨ run.WasOpened) : run.WasQueued := by
  refine hbegan.resolve_right fun hopened => ?_
  obtain ⟨more, hstored⟩ := h.stored
  rw [hrun, Option.some.injEq] at hstored
  subst hstored
  obtain ⟨rest, hlog⟩ := hopened.payloads
  obtain ⟨event, hmem, hpayload⟩ := List.mem_map.mp (h.sane.second hlog)
  have hwaits := List.all_eq_true.mp hwaits event hmem
  rw [hpayload] at hwaits
  cases hwaits

/-! ### What the writers add -/

/-- A `RunStarted` that is added starts no background turn but a gateway one. -/
def Server.Starts (s : Server) (id : RunId) : Prop :=
  ∃ spec events, s.Saw id spec events ∧ (isTurn spec = true → spec.workModel.credential = .platformGateway)

/-- No writer adds a `RunQueued`, and only a worker a `RunStarted`. -/
theorem Writes.adds {s : Server} {id : RunId} {seen : Option Nat} {batch : List Event} {party : Party}
    (h : Writes fleet s id seen batch party) {payload : EventPayload} (hmem : payload ∈ payloads batch) :
    payload ≠ .runQueued ∧ (payload = .runStarted → s.Starts id) := by
  have hplain : ∀ {other : EventPayload}, payload = other → other ≠ .runQueued → other ≠ .runStarted →
      payload ≠ .runQueued ∧ (payload = .runStarted → s.Starts id) := by
    rintro other rfl hqueued hstarted
    exact ⟨hqueued, fun heq => absurd heq hstarted⟩
  have hone : ∀ {other : EventPayload}, payloads batch = [other] → other ≠ .runQueued → other ≠ .runStarted →
      payload ≠ .runQueued ∧ (payload = .runStarted → s.Starts id) := by
    intro other hbatch
    rw [hbatch, List.mem_singleton] at hmem
    exact hplain hmem
  have htwo : ∀ {message : ModelMessage} {usage : Option Usage} {text : String},
      payloads batch = [.modelResponded message usage, .runCompleted text] →
        payload ≠ .runQueued ∧ (payload = .runStarted → s.Starts id) := by
    intro message usage text hbatch
    rw [hbatch, List.mem_cons, List.mem_singleton] at hmem
    rcases hmem with heq | heq
    · exact hplain heq nofun nofun
    · exact hplain heq nofun nofun
  cases party with
  | producer =>
      obtain ⟨-, cls, message, hbatch⟩ := h
      exact hone hbatch nofun nofun
  | settle => exact hone h.2 nofun nofun
  | delivery =>
      obtain ⟨-, spec, events, ask, answer, -, -, -, hreply, hbatch⟩ := h
      refine hone hbatch ?_ ?_ <;> rintro rfl <;> cases hreply
  | user =>
      obtain ⟨spec, events, question, text, -, -, -, hbatch⟩ := h
      exact hone hbatch nofun nofun
  | stop =>
      obtain ⟨spec, events, -, -, -, hbatch⟩ := h
      exact hone hbatch nofun nofun
  | request =>
      rcases h with ⟨-, ⟨cls, message, hbatch⟩ | ⟨spec, events, message, usage, text, -, -, hbatch⟩⟩
      · exact hone hbatch nofun nofun
      · exact htwo hbatch
  | sweep => exact h.elim
  | worker token =>
      obtain ⟨spec, events, number, -, -, hsaw, -, -, -, hwrites⟩ := h
      cases hwrites with
      | ended ended hended hbatch =>
          rcases hended with rfl | ⟨cls, message, rfl⟩
          · exact hone hbatch nofun nofun
          · exact hone hbatch nofun nofun
      | scheduled hafter hqueued hbatch =>
          rw [hbatch, List.mem_cons, List.mem_cons, List.mem_singleton] at hmem
          rcases hmem with heq | heq | heq
          · exact hplain heq nofun nofun
          · exact hplain heq nofun nofun
          · exact hplain heq nofun nofun
      | begun hafter hturn hgateway hstarting hbatch =>
          rw [hbatch, List.mem_singleton] at hmem
          exact ⟨hmem ▸ nofun, fun _ => ⟨spec, events, hsaw, fun _ => hgateway⟩⟩
      | completed hturn hstarted message usage text hbatch => exact htwo hbatch
      | drove hafter hturn hends hagrees hdriven =>
          have hdrove := hdriven payload hmem
          refine ⟨?_, fun _ => ⟨spec, events, hsaw, fun hturn' => absurd (hturn.symm.trans hturn') nofun⟩⟩
          rintro rfl
          cases hdrove

/-! ### What the servers keep -/

/-- How the stored logs began, and which of them reach the queue and the workers. -/
structure Server.Began (s : Server) : Prop where
  began : ∀ id run, s.store.runs id = some run → run.WasQueued ∨ run.WasOpened ∧ .runQueued ∉ payloads run.events
  /-- A background turn runs on the gateway only. -/
  unstarted : ∀ id run, s.store.runs id = some run → isTurn run.spec = true →
    run.spec.workModel.credential ≠ .platformGateway → .runStarted ∉ payloads run.events
  known : ∀ id, s.queue.Knows id → ∃ run, s.store.runs id = some run ∧ run.WasQueued
  claimed : ∀ id token, s.Claimed id token → ∃ run, s.store.runs id = some run ∧ run.WasQueued

namespace Server.Began

variable {s t : Server} {c : ServerCall} {answer : c.Answer}

theorem empty : Server.Began .empty where
  began _ _ hrun := by cases hrun
  unstarted _ _ hrun := by cases hrun
  known id hknows := by simp [Server.empty, RunQueue.empty, RunQueue.Knows, RunQueue.Carries] at hknows
  claimed _ _ hclaimed := by
    obtain ⟨_, hmem⟩ := hclaimed
    cases hmem

/-- A queued run stays queued. -/
theorem later_queued (hlater : s.Later t) {id : RunId} (h : ∃ run, s.store.runs id = some run ∧ run.WasQueued) :
    ∃ run, t.store.runs id = some run ∧ run.WasQueued := by
  obtain ⟨run, hrun, stamps, more, hevents⟩ := h
  obtain ⟨added, hadded⟩ := hlater.store id run hrun
  exact ⟨_, hadded, stamps, more ++ added, by rw [hevents, List.append_assoc]⟩

theorem began_put {run : StoredRun} {origin : Origin} (h : Puts fleet s run origin) :
    (run.WasQueued ∨ run.WasOpened ∧ .runQueued ∉ payloads run.events) ∧
      (isTurn run.spec = true → .runStarted ∉ payloads run.events) := by
  have hqueued : (∃ stamps, run.events = queuedEvents run.spec stamps) →
      (run.WasQueued ∨ run.WasOpened ∧ .runQueued ∉ payloads run.events) ∧
        (isTurn run.spec = true → .runStarted ∉ payloads run.events) := by
    rintro ⟨stamps, hevents⟩
    refine ⟨.inl ⟨stamps, [], by rw [hevents, List.append_nil]⟩, fun _ hmem => ?_⟩
    simp [hevents, queuedEvents, systemEvent, Gol.payloads] at hmem
  cases origin with
  | request =>
      rcases h.2 with hevents | ⟨hturn, stamps, hevents⟩
      · exact hqueued hevents
      · refine ⟨.inr ⟨⟨hturn, stamps, [], by rw [hevents, List.append_nil]⟩, fun hmem => ?_⟩, fun hturn' => ?_⟩
        · simp [hevents, openEvents, systemEvent, Gol.payloads] at hmem
        · exact absurd (hturn.symm.trans hturn') Bool.false_ne_true
  | fire => exact hqueued h.1
  | child asked => exact hqueued h.2.2

theorem began_after (h : Began s) (howes : Owes fleet false s c) (hstep : s.Step c answer t)
    {id : RunId} {run : StoredRun} (hrun : t.store.runs id = some run) :
    (run.WasQueued ∨ run.WasOpened ∧ .runQueued ∉ payloads run.events) ∧
      (isTurn run.spec = true → run.spec.workModel.credential ≠ .platformGateway →
        .runStarted ∉ payloads run.events) := by
  rcases hstep.stored hrun with hsame | ⟨origin, rfl, -, -⟩ | ⟨before, seen, batch, party, hc, hbefore, -, -, rfl⟩
  · exact ⟨h.began id run hsame, h.unstarted id run hsame⟩
  · obtain ⟨hbegan, hstarted⟩ := began_put howes.1
    exact ⟨hbegan, fun hturn _ => hstarted hturn⟩
  · have hwrites := howes.writes hc
    refine ⟨?_, fun hturn hown hmem => ?_⟩
    · rcases h.began id before hbefore with ⟨stamps, more, hevents⟩ | ⟨⟨hturn, stamps, more, hevents⟩, hnot⟩
      · exact .inl ⟨stamps, more ++ batch, by rw [hevents, List.append_assoc]⟩
      · refine .inr ⟨⟨hturn, stamps, more ++ batch, by rw [hevents, List.append_assoc]⟩, fun hmem => ?_⟩
        rw [payloads_append, List.mem_append] at hmem
        exact hmem.elim hnot fun hmem => (hwrites.adds hmem).1 rfl
    · rw [payloads_append, List.mem_append] at hmem
      rcases hmem with hmem | hmem
      · exact h.unstarted id before hbefore hturn hown hmem
      · obtain ⟨spec, events, hsaw, hgateway⟩ := (hwrites.adds hmem).2 rfl
        obtain ⟨more, hstored⟩ := hsaw.stored
        rw [hbefore, Option.some.injEq] at hstored
        subst hstored
        exact hown (hgateway hturn)

theorem known_after (h : Began s) (howes : Owes fleet false s c) (hstep : s.Step c answer t) {id : RunId}
    (hknows : t.queue.Knows id) : ∃ run, t.store.runs id = some run ∧ run.WasQueued := by
  have hwaits : s.Waits id → ∃ run, s.store.runs id = some run ∧ run.WasQueued := by
    rintro ⟨spec, events, hsaw, hwaits⟩
    obtain ⟨more, hrun⟩ := hsaw.stored
    exact ⟨_, hrun, hsaw.wasQueued hwaits hrun ((h.began id _ hrun).imp_right And.left)⟩
  refine later_queued hstep.later ?_
  rcases hstep.queue with hsame | ⟨script, rfl, hqueue⟩
  · exact h.known id (hsame ▸ hknows)
  · rw [hqueue] at hknows
    rcases RunQueue.knows_exec hknows with hknows | rfl | ⟨gate, rfl⟩
    · exact h.known id hknows
    · exact hwaits howes.1
    · exact hwaits howes.1

theorem step (h : Began s) (howes : Owes fleet false s c) (hstep : s.Step c answer t) : Began t where
  began _ _ hrun := (h.began_after howes hstep hrun).1
  unstarted _ _ hrun := (h.began_after howes hstep hrun).2
  known _ hknows := h.known_after howes hstep hknows
  claimed id token hclaimed := by
    obtain ⟨took, hmem⟩ := hclaimed
    obtain ⟨took', htrace⟩ := hstep.trace_eq
    rw [htrace] at hmem
    rcases List.mem_cons.mp hmem with hhead | hmem
    · -- A claim gives out what the queue carries.
      cases hhead
      obtain ⟨now, -, hanswers, rfl⟩ := hstep.answers (by rintro ⟨⟩)
      have hclaim : (.ok (some id) : Except String (Option RunId)) = .ok (s.queue.claim token).1 := hanswers.queue_eq
      exact h.known_after howes hstep (.inl (RunQueue.carries_claim (Except.ok.inj hclaim).symm))
    · exact later_queued hstep.later (h.claimed id token ⟨took, hmem⟩)

end Server.Began

theorem Pool.Reach.began {pool : Pool} (h : pool.Reach (Serves fleet) ok) : pool.server.Began := by
  refine h.reached_invariant Server.Began.empty
    (fun s ms h => ⟨h.began, h.unstarted, h.known, h.claimed⟩) (fun s run h => ?_)
    fun pool c answer t _ _ howes hbegan hstep => hbegan.step howes hstep
  refine ⟨h.began, h.unstarted, fun id hknows => h.known id ?_, h.claimed⟩
  refine hknows.imp_right fun hlease => ?_
  by_cases heq : id = run
  · subst heq
    simp [RunQueue.expire] at hlease
  · simpa [RunQueue.expire, Function.update_of_ne heq] using hlease

/-! ### Inline runs -/

/-- The harness is one that a turn ender's guard lets pass. -/
def HarnessState.isUnanswered : HarnessState → Bool
  | .running _ _ false => true
  | _ => false

theorem unanswered_of_checkOpenTurn {run : StoredRun} (h : checkOpenTurn run = .ok ()) :
    hasEnded run.events = false ∧ (fold run.spec run.events).harness.isUnanswered = true := by
  unfold checkOpenTurn at h
  split at h
  · cases h
  · next hopen =>
      refine ⟨by simpa using hopen, ?_⟩
      split at h
      · next step attempt hharness =>
          rw [hharness]
          rfl
      · cases h

/-- An inline run comes back with its log ended, or waiting for a message. -/
theorem runToCompletion_rests {spec : RunSpec} {driver : Driver} (h : Driver.Resumed spec [] driver)
    (tools : List ToolDescriptor) :
    (Anyhow HarnessSig).Safe (fun _ result => ∃ seen, Driver.Returns spec seen result ∧ seen.paused = false)
      (runToCompletion tools driver) () := by
  have hsafe : (Anyhow HarnessSig).Safe
    (fun _ result => ∃ seen, Driver.Returns spec seen result.1 ∧ seen.paused = false)
      ((Driver.runUntil tools driver).handle goesOn ()) () := by
    apply Safe.handle (fun seen _ _ => seen.paused = false) ?_ (h.runUntil_returns (endsOnce_of_none rfl) tools)
    · rfl
    · trivial
    · intro seen kept s c _ _ _
      cases c with
      | boundary d => exact ⟨_, rfl, rfl⟩
      | _ => exact safe_alone_call.mpr ⟨trivial, fun answer _ _ => ⟨_, rfl, rfl⟩⟩
  exact Safe.bind (hsafe.mono fun _ _ hresult => hresult)

/-- The events of an inline run end its log, or leave its harness waiting. -/
theorem harnessEvents_rests (jevClient : Except String Unit) (spec : RunSpec) (stamps failed : Nat → Stamp)
    (delegation : Option (List DelegateTarget)) (tools : List ToolDescriptor) {events : List Event}
    (h : (harnessEvents jevClient spec stamps failed delegation tools).Yields events) :
    hasEnded events = true ∨ (harnessOf spec (payloads events)).isUnanswered = false := by
  have hsafe : (Anyhow HarnessSig).Safe
      (fun _ events => hasEnded events = true ∨ (harnessOf spec (payloads events)).isUnanswered = false)
      (harnessEvents jevClient spec stamps failed delegation tools) () := by
    unfold harnessEvents runWithJev
    cases jevClient with
    | error message => exact .inl rfl
    | ok _ =>
        refine Safe.bind (Safe.bind ((runToCompletion_rests (resumed_boot _ _ _) tools).mono ?_))
        rintro _ ⟨driver, finish⟩ ⟨seen, hreturns, hgoes⟩
        change hasEnded (driver.events ++ _) = true ∨
          (harnessOf spec (payloads (driver.events ++ _))).isUnanswered = false
        cases finish with
        | outOfFuel => exact absurd rfl hreturns.fueled
        | failed error =>
            left
            rw [Driver.hasEnded_eq, payloads_append, List.any_append]
            exact Bool.or_eq_true_iff.mpr (.inr rfl)
        | ok =>
            rw [List.append_nil]
            rcases hreturns.ok rfl with hended | ⟨-, hpaused | ⟨step, attempt, messageId, hwaits⟩⟩
            · exact .inl hended
            · rw [hgoes] at hpaused
              cases hpaused
            · right
              have hspec : harnessOf spec (payloads driver.events) = driver.state.harness := by
                rw [← hreturns.spec_eq]
                rfl
              rw [hspec, hwaits]
              rfl
  exact hsafe.run (fun _ _ _ _ _ => trivial) trivial h

/-- A note never leaves a harness unanswered that was not. -/
theorem isUnanswered_note {state : HarnessState} {payload : EventPayload} (spec : RunSpec) (h : isNote payload = true)
    (hstate : state.isUnanswered = false) : (reduce state payload spec).1.isUnanswered = false := by
  have hend : ∀ ended : HarnessState, ended.isUnanswered = false → (onEnd state ended).1.isUnanswered = false := by
    intro ended hended
    unfold onEnd
    split
    · exact hended
    · exact hended
    · exact hended
    · exact hstate
  have hanswer : ∀ messageId, (answerAsk state messageId).1.isUnanswered = false := by
    intro messageId
    unfold answerAsk
    split
    · split
      · rfl
      · exact hstate
    · exact hstate
  unfold reduce
  by_cases hterminal : state.isTerminal = true
  · rw [if_pos hterminal]
    exact hstate
  · rw [if_neg hterminal]
    cases payload with
    | runFailed cls message => exact hend _ rfl
    | runCancelled => exact hend _ rfl
    | messageReceived messageId fromAgent fromRun body replyTo =>
        cases replyTo with
        | none => exact hstate
        | some asked => exact hanswer asked
    | askTimedOut messageId => exact hanswer messageId
    | userAnswered messageId text => exact hanswer messageId
    | _ => cases h

/-- No turn ender ends an inline run: its log is never open to one. -/
theorem InlineLog.refused {jevClient : Except String Unit} {spec : RunSpec} {log : List Event}
    (h : InlineLog jevClient spec log) : checkOpenTurn ⟨spec, log⟩ ≠ .ok () := by
  have hrests : hasEnded log = true ∨ (harnessOf spec (payloads log)).isUnanswered = false := by
    induction h with
    | opened stamps => exact .inr rfl
    | ran stamps booted failed delegation tools inlined hyields =>
        refine (harnessEvents_rests _ _ _ _ _ _ hyields).imp (fun hended => ?_) id
        rw [← List.singleton_append, Driver.hasEnded_eq, payloads_append, List.any_append]
        exact Bool.or_eq_true_iff.mpr (.inr (by rwa [Driver.hasEnded_eq] at hended))
    | noted hlog hopen event hnote _ ih =>
        have hbefore := ih.resolve_left (by simp [hopen])
        right
        rw [payloads_append]
        change (harnessOf spec (payloads _ ++ [event.payload])).isUnanswered = false
        rw [harnessOf_snoc]
        exact isUnanswered_note spec hnote hbefore
  intro hpasses
  obtain ⟨hopen, hunanswered⟩ := unanswered_of_checkOpenTurn hpasses
  rcases hrests with hended | hanswered
  · exact absurd (hopen.symm.trans hended) nofun
  · exact absurd (hanswered.symm.trans hunanswered) nofun

/-! ### The enders among the servers -/

/-- What the desktop reports of a turn. -/
inductive EnderCall where
  | complete (run : RunId) (text : String)
  | fail (run : RunId) (message : String)
  deriving DecidableEq

namespace EnderCall

def run : EnderCall → RunId
  | complete run _ | fail run _ => run

def program : EnderCall → Prog ServerSig (Except TurnError TurnOutcome)
  | complete run text => acceptSubscriptionCompletion run text
  | fail run message => failTurn run message

theorem serves (call : EnderCall) : Serves fleet (forget call.program) := by
  cases call with
  | complete run text => exact .complete run text
  | fail run message => exact .fail run message

end EnderCall

/-- A turn ender, with the calls it made, newest first. -/
structure Ender where
  call : EnderCall
  left : Prog ServerSig (Except TurnError TurnOutcome)
  made : List MadeCall

def Ender.start (call : EnderCall) : Ender := ⟨call, call.program, []⟩

/-- The servers' programs, and the turn enders among them that are followed. -/
structure Desk where
  server : Server
  processes : List (Prog ServerSig Unit ⊕ Ender)

/-- One step of the servers, where each call of an ender meets `ok`. -/
inductive Desk.Step (fleet : Fleet) (ok : Server → ServerCall → Prop) : Desk → Desk → Prop
  | spawn (s : Server) (processes : List (Prog ServerSig Unit ⊕ Ender)) (p : Prog ServerSig Unit) (h : Serves fleet p) :
      Step fleet ok ⟨s, processes⟩ ⟨s, .inl p :: processes⟩
  | report (s : Server) (processes : List (Prog ServerSig Unit ⊕ Ender)) (call : EnderCall) :
      Step fleet ok ⟨s, processes⟩ ⟨s, .inr (.start call) :: processes⟩
  | call (s t : Server) (before after : List (Prog ServerSig Unit ⊕ Ender)) (c : ServerCall)
      (next : c.Answer → Prog ServerSig Unit) (answer : c.Answer) (h : s.Step c answer t) :
      Step fleet ok ⟨s, before ++ .inl (.call c next) :: after⟩ ⟨t, before ++ .inl (next answer) :: after⟩
  | ender (s t : Server) (before after : List (Prog ServerSig Unit ⊕ Ender)) (call : EnderCall) (c : ServerCall)
      (next : c.Answer → Prog ServerSig (Except TurnError TurnOutcome)) (made : List MadeCall)
      (answer : c.Answer) (hok : ok s c) (h : s.Step c answer t) :
      Step fleet ok ⟨s, before ++ .inr ⟨call, .call c next, made⟩ :: after⟩
        ⟨t, before ++ .inr ⟨call, next answer, ⟨c, answer⟩ :: made⟩ :: after⟩
  | crash (s : Server) (before after : List (Prog ServerSig Unit ⊕ Ender)) (p : Prog ServerSig Unit ⊕ Ender) :
      Step fleet ok ⟨s, before ++ p :: after⟩ ⟨s, before ++ after⟩
  | tick (s : Server) (processes : List (Prog ServerSig Unit ⊕ Ender)) (ms : Nat) :
      Step fleet ok ⟨s, processes⟩ ⟨{ s with now := s.now + ms }, processes⟩
  | expire (s : Server) (processes : List (Prog ServerSig Unit ⊕ Ender)) (run : RunId) :
      Step fleet ok ⟨s, processes⟩ ⟨{ s with queue := s.queue.expire run }, processes⟩

/-- What the servers reach from nothing. -/
inductive Desk.Reach (fleet : Fleet) (ok : Server → ServerCall → Prop) : Desk → Prop
  | start : Reach fleet ok ⟨.empty, []⟩
  | step {desk desk' : Desk} (before : Reach fleet ok desk) (h : Desk.Step fleet ok desk desk') : Reach fleet ok desk'

/-- A queued run, no background turn, on the user's own credential, whose harness runs unanswered: the guard of the
turn enders takes it for an open turn. -/
def StoredRun.exposed (run : StoredRun) : Bool :=
  decide (.runQueued ∈ payloads run.events) && !isTurn run.spec &&
    decide (run.spec.workModel.credential ≠ .platformGateway) &&
    !hasEnded run.events && (fold run.spec run.events).harness.isUnanswered

/-- The run that the call reads is none that the guard mistakes. -/
def Server.Spares (s : Server) (c : ServerCall) : Prop :=
  ∀ id run, c = .store (.run id) → s.store.runs id = some run → run.exposed = false

/-- An `open_turn` stored the run as a subscription turn; it was never queued, and no worker was ever given it. -/
structure Server.QuickTurn (s : Server) (id : RunId) : Prop where
  opened : ∃ run, s.store.runs id = some run ∧ run.WasOpened ∧ run.spec.workModel.credential ≠ .platformGateway ∧
    .runQueued ∉ payloads run.events
  unclaimed : ∀ token, ¬ s.Claimed id token

namespace Desk

variable {spares : Server → ServerCall → Prop}

/-- The enders as programs like the others. -/
def pool (desk : Desk) : Pool :=
  ⟨desk.server, desk.processes.map (Sum.elim id fun ender => forget ender.left)⟩

theorem Step.pool {desk desk' : Desk} (h : Desk.Step fleet spares desk desk') :
    ∃ move, Pool.Step (Serves fleet) desk.pool move desk'.pool := by
  cases h with
  | spawn s processes p h => exact ⟨_, .spawn s _ p h⟩
  | report s processes call => exact ⟨_, .spawn s _ _ call.serves⟩
  | call s t before after c next answer h =>
      simp only [Desk.pool, List.map_append, List.map_cons]
      exact ⟨_, .call s t _ _ c next answer h⟩
  | ender s t before after call c next made answer hok h =>
      simp only [Desk.pool, List.map_append, List.map_cons]
      exact ⟨_, .call s t _ _ c (fun answer => forget (next answer)) answer h⟩
  | crash s before after p =>
      simp only [Desk.pool, List.map_append, List.map_cons]
      exact ⟨_, .crash s _ _ _⟩
  | tick s processes ms => exact ⟨_, .tick s _ ms⟩
  | expire s processes run => exact ⟨_, .expire s _ run⟩

theorem Reach.pool {desk : Desk} (h : desk.Reach fleet spares) : desk.pool.Reach (Serves fleet) anyMove := by
  induction h with
  | start => exact .start
  | step _ hstep ih =>
      obtain ⟨move, hmove⟩ := hstep.pool
      exact ih.step trivial hmove

end Desk

/-! ### What an ender does -/

/-- The call read its turn, on the user's own credential, and found it open. -/
def EnderCall.FoundOpen (call : EnderCall) (made : List MadeCall) (stored : StoredRun) : Prop :=
  (⟨.store (.run call.run), .ok (some stored)⟩ : MadeCall) ∈ made ∧
    stored.spec.workModel.credential ≠ .platformGateway ∧ checkOpenTurn stored = .ok ()

/-- An ender adds only to a turn that it found open. -/
def EnderOwes (call : EnderCall) (made : List MadeCall) (c : ServerCall) : Prop :=
  ∀ id seen batch party, c.appends = some (id, seen, batch, party) →
    ∃ stored, call.FoundOpen made stored ∧ (id = call.run ∨ id = stored.spec.runId)

abbrev enderWorld (call : EnderCall) : World ServerSig :=
  alone (List MadeCall) (fun made c answer later => later = ⟨c, answer⟩ :: made) (EnderOwes call)

section Programs

variable {call : EnderCall} {made : List MadeCall} {stored : StoredRun}

theorem EnderCall.FoundOpen.cons (h : call.FoundOpen made stored) (done : MadeCall) :
    call.FoundOpen (done :: made) stored :=
  ⟨List.mem_cons_of_mem _ h.1, h.2⟩

/-- What the enders' programs keep: they owe no more than the world asks. -/
abbrev EnderSafe (call : EnderCall) (p : Prog ServerSig (Except TurnError TurnOutcome)) (made : List MadeCall) : Prop :=
  (enderWorld call).Safe (fun _ _ => True) p made

theorem enderSafe_quiet {c : ServerCall} {next : c.Answer → Prog ServerSig (Except TurnError TurnOutcome)}
    (hquiet : c.appends = none) (hnext : ∀ answer, EnderSafe call (next answer) (⟨c, answer⟩ :: made)) :
    EnderSafe call (.call c next) made := by
  refine safe_alone_call.mpr ⟨fun id seen batch party happends => ?_, ?_⟩
  · rw [hquiet] at happends
    cases happends
  · rintro answer _ rfl
    exact hnext answer

theorem enderSafe_record (hfound : call.FoundOpen made stored) {id : RunId}
    (hid : id = call.run ∨ id = stored.spec.runId) (events : List Event) (outcome : TurnOutcome) :
    EnderSafe call (recordTurn id .request events outcome) made := by
  refine safe_alone_call.mpr ⟨fun other seen batch party happends => ?_, fun answer later _ => ?_⟩
  · cases happends
    exact ⟨stored, hfound, hid⟩
  · rcases answer with _ | (_ | _ | _ | _) <;> trivial

theorem enderSafe_subscriptionTurn {refusal : String}
    {next : Except TurnError StoredRun → Prog ServerSig (Except TurnError TurnOutcome)}
    (hrefused : ∀ error made, EnderSafe call (next (.error error)) made)
    (hread : ∀ stored made, call.FoundOpen made stored → EnderSafe call (next (.ok stored)) made) :
    EnderSafe call ((subscriptionTurn call.run refusal).bind next) made := by
  refine enderSafe_quiet rfl fun answer => ?_
  match answer with
  | .error error => exact hrefused _ _
  | .ok none => exact hrefused _ _
  | .ok (some stored) =>
      dsimp only
      split
      · exact hrefused _ _
      · next hown =>
          cases hopen : checkOpenTurn stored with
          | error error => exact hrefused _ _
          | ok _ => exact hread stored _ ⟨List.mem_cons_self .., hown, hopen⟩

theorem enderSafe_program (call : EnderCall) : EnderSafe call call.program [] := by
  cases call with
  | complete run text =>
      have hrun : run = (EnderCall.complete run text).run := rfl
      rw [EnderCall.program, acceptSubscriptionCompletion]
      generalize EnderCall.complete run text = call at hrun
      subst hrun
      dsimp only
      generalize trim text = text
      split
      · trivial
      · refine enderSafe_subscriptionTurn (fun _ _ => trivial) fun stored made hfound => ?_
        have hrecord : ∀ (outcome : (Nat → Stamp) → TurnOutcome) made, call.FoundOpen made stored →
            EnderSafe call (.call (.outside .stamps) fun stamps => recordTurn stored.spec.runId .request
              (completionEvents stored.spec stamps text) (outcome stamps)) made :=
          fun _ made hfound => enderSafe_quiet rfl fun stamps => enderSafe_record (hfound.cons _) (.inr rfl) _ _
        dsimp only
        split
        · refine enderSafe_quiet rfl fun gone => ?_
          rcases gone with _ | (_ | _)
          · trivial
          · refine enderSafe_quiet rfl fun removed => ?_
            rcases removed with _ | _
            · trivial
            · exact hrecord _ _ ((hfound.cons _).cons _)
          · trivial
        · exact hrecord _ _ hfound
  | fail run message =>
      have hrun : run = (EnderCall.fail run message).run := rfl
      rw [EnderCall.program, failTurn]
      generalize EnderCall.fail run message = call at hrun
      subst hrun
      dsimp only
      generalize trim message = message
      split
      · trivial
      · refine enderSafe_subscriptionTurn (fun _ _ => trivial) fun stored made hfound => ?_
        have hrecord : ∀ (outcome : (Nat → Stamp) → TurnOutcome) made, call.FoundOpen made stored →
            EnderSafe call (.call (.outside .stamps) fun stamps => recordTurn call.run .request
              [runFailedEvent stored.spec stamps .dependency message] (outcome stamps)) made :=
          fun _ made hfound => enderSafe_quiet rfl fun stamps => enderSafe_record (hfound.cons _) (.inl rfl) _ _
        dsimp only
        split
        · refine enderSafe_quiet rfl fun gone => ?_
          rcases gone with _ | (_ | _)
          · trivial
          · refine enderSafe_quiet rfl fun removed => ?_
            rcases removed with _ | _
            · trivial
            · exact hrecord _ _ ((hfound.cons _).cons _)
          · exact hrecord _ _ (hfound.cons _)
        · exact hrecord _ _ hfound

end Programs

/-! ### What the enders keep -/

/-- An `open_turn` stored the run, on the user's own credential. -/
def Server.HoldsTurn (s : Server) (id : RunId) : Prop :=
  ∃ run, s.store.runs id = some run ∧ run.WasOpened ∧ run.spec.workModel.credential ≠ .platformGateway

theorem Server.HoldsTurn.later {s t : Server} {id : RunId} (h : s.HoldsTurn id) (hlater : s.Later t) :
    t.HoldsTurn id := by
  obtain ⟨run, hrun, ⟨hturn, stamps, more, hevents⟩, hown⟩ := h
  obtain ⟨added, hadded⟩ := hlater.store id run hrun
  exact ⟨_, hadded, ⟨hturn, stamps, more ++ added, by rw [hevents, List.append_assoc]⟩, hown⟩

/-- Nothing queued an opened turn, and no worker was given it. -/
theorem Server.HoldsTurn.quickTurn {s : Server} {id : RunId} (h : s.HoldsTurn id) (hbegan : s.Began) :
    s.QuickTurn id := by
  obtain ⟨run, hrun, hopened, hown⟩ := h
  have hnot := hopened.not_wasQueued
  have hopen := (hbegan.began id run hrun).elim (fun hqueued => absurd hqueued hnot) And.right
  refine ⟨⟨run, hrun, hopened, hown, hopen⟩, ?_⟩
  intro token hclaimed
  obtain ⟨claimed, hclaimed, hqueued⟩ := hbegan.claimed id token hclaimed
  rw [hrun, Option.some.injEq] at hclaimed
  exact hnot (hclaimed ▸ hqueued)

/-- A run that the guard lets pass is an open turn, or one that the guard mistakes for one. -/
theorem Server.Began.holdsTurn {s : Server} (h : s.Began) {id : RunId} {run : StoredRun}
    (hrun : s.store.runs id = some run) (hown : run.spec.workModel.credential ≠ .platformGateway)
    (hpasses : checkOpenTurn run = .ok ()) (hspared : run.exposed = false) : s.HoldsTurn id := by
  rcases h.began id run hrun with hqueued | ⟨hopened, -⟩
  · exfalso
    obtain ⟨hopen, hunanswered⟩ := unanswered_of_checkOpenTurn hpasses
    obtain ⟨rest, hlog⟩ := hqueued.payloads
    by_cases hturn : isTurn run.spec = true
    · -- A background turn on the user's own credential never starts.
      exact h.unstarted id run hrun hturn hown (started_of_checkOpenTurn hpasses)
    · have hexposed : run.exposed = true := by
        simp [StoredRun.exposed, hlog, hturn, hown, hopen, hunanswered]
      exact absurd (hspared.symm.trans hexposed) nofun
  · exact ⟨run, hrun, hopened, hown⟩

/-- What is so of an ender. -/
structure Ender.Kept (s : Server) (ender : Ender) : Prop where
  safe : EnderSafe ender.call ender.left ender.made
  found : ∀ stored, ender.call.FoundOpen ender.made stored → s.HoldsTurn ender.call.run ∧
    stored.spec.runId = ender.call.run
  added : ∀ done ∈ ender.made, ∀ id seen batch party, done.1.appends = some (id, seen, batch, party) → s.HoldsTurn id

namespace Ender.Kept

variable {s t : Server}

theorem start (s : Server) (call : EnderCall) : Kept s (.start call) where
  safe := enderSafe_program call
  found _ hfound := absurd hfound.1 List.not_mem_nil
  added _ hdone := absurd hdone List.not_mem_nil

theorem later {ender : Ender} (h : Kept s ender) (hlater : s.Later t) : Kept t ender where
  safe := h.safe
  found stored hfound := (h.found stored hfound).imp_left fun hopened => hopened.later hlater
  added done hdone id seen batch party happends := (h.added done hdone id seen batch party happends).later hlater

/-- A call of an ender: its read finds an opened turn or is refused, and what it adds goes to the turn it read. -/
theorem called {call : EnderCall} {c : ServerCall} {next : c.Answer → Prog ServerSig (Except TurnError TurnOutcome)}
    {made : List MadeCall} {answer : c.Answer} (h : Kept s ⟨call, .call c next, made⟩)
    (hsound : Sound s) (hbegan : s.Began) (hspares : s.Spares c) (hstep : s.Step c answer t) :
    Kept t ⟨call, next answer, ⟨c, answer⟩ :: made⟩ := by
  obtain ⟨howes, hsafe⟩ := safe_alone_call.mp h.safe
  have hbefore := h.later hstep.later
  refine ⟨hsafe answer _ rfl, fun stored hfound => ?_, fun done hdone id seen batch party happends => ?_⟩
  · obtain ⟨hmem, hown, hpasses⟩ := hfound
    rcases List.mem_cons.mp hmem with hread | hmem
    · change (⟨.store (.run call.run), .ok (some stored)⟩ : MadeCall) = ⟨c, answer⟩ at hread
      cases hread
      obtain ⟨now, -, hanswers, -⟩ := hstep.answers (by rintro ⟨⟩)
      have hrun : (.ok (some stored) : Except StoreError (Option StoredRun)) = .ok (s.store.runs call.run) :=
        hanswers.store_eq
      have hrun := (Except.ok.inj hrun).symm
      exact ⟨(hbegan.holdsTurn hrun hown hpasses (hspares _ _ rfl hrun)).later hstep.later, (hsound.logs _ _ hrun).1⟩
    · exact hbefore.found stored ⟨hmem, hown, hpasses⟩
  · rcases List.mem_cons.mp hdone with rfl | hdone
    · obtain ⟨stored, hfound, hid⟩ := howes id seen batch party happends
      obtain ⟨hopened, hnamed⟩ := hbefore.found stored hfound
      have hid : id = call.run := hid.elim (fun heq => heq) fun heq => heq.trans hnamed
      exact hid ▸ hopened
    · exact hbefore.added done hdone id seen batch party happends

end Ender.Kept

namespace Desk

theorem Reach.kept {desk : Desk} (h : desk.Reach fleet Server.Spares) :
    ∀ ender, .inr ender ∈ desk.processes → ender.Kept desk.server := by
  induction h with
  | start => exact fun _ hmem => absurd hmem List.not_mem_nil
  | step hreach hstep ih =>
      intro ender hmem
      cases hstep with
      | spawn s processes p hserves =>
          rcases List.mem_cons.mp hmem with hnew | hold
          · cases hnew
          · exact ih ender hold
      | report s processes call =>
          rcases List.mem_cons.mp hmem with hnew | hold
          · cases hnew
            exact .start s call
          · exact ih ender hold
      | call s t before after c next answer hstep =>
          refine (ih ender ?_).later hstep.later
          rcases List.mem_append.mp hmem with hbefore | hafter
          · exact List.mem_append_left _ hbefore
          · rcases List.mem_cons.mp hafter with hself | hafter
            · cases hself
            · exact List.mem_append_right _ (List.mem_cons_of_mem _ hafter)
      | ender s t before after call c next made answer hspares hstep =>
          rcases List.mem_append.mp hmem with hbefore | hafter
          · exact (ih ender (List.mem_append_left _ hbefore)).later hstep.later
          · rcases List.mem_cons.mp hafter with hself | hafter
            · cases hself
              have hkept := ih _ (List.mem_append_right _ (List.mem_cons_self ..))
              exact hkept.called hreach.pool.sound hreach.pool.began hspares hstep
            · exact (ih ender (List.mem_append_right _ (List.mem_cons_of_mem _ hafter))).later hstep.later
      | crash s before after p =>
          refine ih ender ?_
          rcases List.mem_append.mp hmem with hbefore | hafter
          · exact List.mem_append_left _ hbefore
          · exact List.mem_append_right _ (List.mem_cons_of_mem _ hafter)
      | tick s processes ms => exact (ih ender hmem).later ⟨.refl _, List.suffix_refl _⟩
      | expire s processes run => exact (ih ender hmem).later ⟨.refl _, List.suffix_refl _⟩

/-- Whatever the servers' programs do, the turn enders add to the logs of quick turns on the user's own credential
only, while none of them reads a queued run that its guard mistakes for a turn. An inline run's log is never open to
them. -/
theorem enders_end_turns (fleet : Fleet) :
    (∀ desk : Desk, desk.Reach fleet Server.Spares → ∀ ender, .inr ender ∈ desk.processes → ∀ done ∈ ender.made,
      ∀ id seen batch party, done.1.appends = some (id, seen, batch, party) → desk.server.QuickTurn id) ∧
    ∀ jevClient spec log, InlineLog jevClient spec log → checkOpenTurn ⟨spec, log⟩ ≠ .ok () := by
  refine ⟨fun desk hreach ender hmem done hdone id seen batch party happends => ?_, fun _ _ _ hlog => hlog.refused⟩
  exact ((hreach.kept ender hmem).added done hdone id seen batch party happends).quickTurn hreach.pool.began

/-! ### Schedules -/

/-- One step of a schedule: a program or a report starts, or a process makes its next call, which takes effect. -/
inductive Turn where
  | spawn (p : Prog ServerSig Unit)
  | report (call : EnderCall)
  | call (process : Nat)

/-- The servers after a step, if it can be made and an ender's call meets `check`. -/
def turn (check : Server → ServerCall → Bool) (desk : Desk) : Turn → Option Desk
  | .spawn p => some ⟨desk.server, .inl p :: desk.processes⟩
  | .report call => some ⟨desk.server, .inr (.start call) :: desk.processes⟩
  | .call i =>
      match desk.processes.drop i with
      | .inl (.call c next) :: after =>
          if desk.server.Fresh c then
            let answer := Pool.reply desk.server (quiet (.complete "done")) (.ok "done") c
            some ⟨(desk.server.after 0 c).record ⟨c, answer, true⟩,
              desk.processes.take i ++ .inl (next answer) :: after⟩
          else none
      | .inr ⟨call, .call c next, made⟩ :: after =>
          if check desk.server c = true ∧ desk.server.Fresh c then
            let answer := Pool.reply desk.server (quiet (.complete "done")) (.ok "done") c
            some ⟨(desk.server.after 0 c).record ⟨c, answer, true⟩,
              desk.processes.take i ++ .inr ⟨call, next answer, ⟨c, answer⟩ :: made⟩ :: after⟩
          else none
      | _ => none

section Schedules

variable {ok : Server → ServerCall → Prop} {check : Server → ServerCall → Bool}

theorem turn_step (hcheck : ∀ s c, check s c = true → ok s c) {desk desk' : Desk} {step : Turn}
    (h : turn check desk step = some desk') (hserves : ∀ p, step = .spawn p → Serves fleet p) :
    Desk.Step fleet ok desk desk' := by
  obtain ⟨s, processes⟩ := desk
  cases step with
  | spawn p =>
      cases h
      exact .spawn s processes p (hserves p rfl)
  | report call =>
      cases h
      exact .report s processes call
  | call i =>
      simp only [turn] at h
      split at h
      · next c next after hdrop =>
          split at h
          · next hfresh =>
              cases h
              have hsplit : processes = processes.take i ++ .inl (.call c next) :: after := by
                rw [← hdrop, List.take_append_drop]
              conv => lhs; rw [hsplit]
              exact .call s _ _ after c next _
                (.done 0 hfresh (Pool.answers_reply s (quiet (.complete "done")) (.ok "done") c))
          · cases h
      · next call c next made after hdrop =>
          split at h
          · next hfits =>
              cases h
              have hsplit : processes = processes.take i ++ .inr ⟨call, .call c next, made⟩ :: after := by
                rw [← hdrop, List.take_append_drop]
              conv => lhs; rw [hsplit]
              exact .ender s _ _ after call c next made _ (hcheck s c hfits.1)
                (.done 0 hfits.2 (Pool.answers_reply s (quiet (.complete "done")) (.ok "done") c))
          · cases h
      · cases h

def play (check : Server → ServerCall → Bool) (steps : List Turn) (desk : Desk) : Option Desk :=
  steps.foldlM (turn check) desk

theorem play_reach (hcheck : ∀ s c, check s c = true → ok s c) {steps : List Turn} {desk desk' : Desk}
    (h : play check steps desk = some desk') (hserves : ∀ p, .spawn p ∈ steps → Serves fleet p)
    (hreach : desk.Reach fleet ok) :
    desk'.Reach fleet ok := by
  induction steps generalizing desk with
  | nil => exact Option.some.inj h ▸ hreach
  | cons step rest ih =>
      rw [play, List.foldlM_cons] at h
      obtain ⟨mid, hmid, hrest⟩ := Option.bind_eq_some_iff.mp h
      have hstep := turn_step hcheck hmid fun p heq => hserves p (heq ▸ List.mem_cons_self ..)
      exact ih hrest (fun p hp => hserves p (List.mem_cons_of_mem _ hp)) (hreach.step hstep)

end Schedules

/-- The batch that the first process, an ender, has just added, and the log it was added to. -/
def lastAdded (desk : Desk) : Option (RunId × List Event) :=
  match desk.processes with
  | .inr ⟨_, _, ⟨.store (.appendEvents id batch _), .ok .appended⟩ :: _⟩ :: _ => some (id, batch)
  | _ => none

theorem lastAdded_eq {desk : Desk} {id : RunId} {batch : List Event} (h : desk.lastAdded = some (id, batch)) :
    ∃ ender, .inr ender ∈ desk.processes ∧
      ∃ done ∈ ender.made, ∃ seen party, done.1.appends = some (id, seen, batch, party) := by
  unfold lastAdded at h
  split at h
  · next call left id batch party older others hprocesses =>
      cases h
      exact ⟨_, hprocesses ▸ List.mem_cons_self .., _, List.mem_cons_self .., none, party, rfl⟩
  · cases h

/-- A run on the user's own credential, on no sandbox. -/
def ownRun : RunSpec := { RunSpec.plain 1 ⟨8, 4⟩ with workModel := ⟨.openAI, "gpt-4o", .bringYourOwn "key"⟩ }

/-- A quick turn that the desktop completes. -/
def openedAndCompleted : List Turn :=
  .spawn (forget (openTurn ownRun)) :: List.replicate 2 (.call 0) ++ .report (.complete ⟨1⟩ "done") ::
    List.replicate 3 (.call 0)

/-- A read of a log that answers with an unexposed run. -/
def readsUnexposed (s : Server) : ServerCall → Bool
  | .store (.run id) => (s.store.runs id).all fun run => !run.exposed
  | _ => true

theorem enders_end_turns_completed :
    ∃ desk : Desk, desk.Reach .plain Server.Spares ∧ desk.server.QuickTurn ⟨1⟩ ∧
      ∃ run, desk.server.store.runs ⟨1⟩ = some run ∧ hasEnded run.events = true := by
  have hshows : ((play readsUnexposed openedAndCompleted ⟨.empty, []⟩).map fun desk =>
        (desk.lastAdded.any fun added => decide (added.1 = ⟨1⟩)) &&
          (desk.server.store.runs ⟨1⟩).any fun run => hasEnded run.events) = some true := by
    decide +kernel
  obtain ⟨desk, hplay, hshown⟩ := Option.map_eq_some_iff.mp hshows
  obtain ⟨hlast, hended⟩ := Bool.and_eq_true_iff.mp hshown
  obtain ⟨⟨id, batch⟩, hadded, hid⟩ := (Option.any_eq_true ..).mp hlast
  obtain ⟨run, hrun, hended⟩ := (Option.any_eq_true ..).mp hended
  obtain rfl : id = ⟨1⟩ := of_decide_eq_true hid
  have hreach : desk.Reach .plain Server.Spares := by
    refine play_reach ?_ hplay ?_ .start
    · rintro s c hcheck id run rfl hrun
      simpa [readsUnexposed, hrun] using hcheck
    · rintro p hmem
      simp [openedAndCompleted] at hmem
      exact hmem ▸ .openTurn ownRun rfl rfl
  obtain ⟨ender, hmem, done, hdone, seen, party, happends⟩ := lastAdded_eq hadded
  exact ⟨desk, hreach, (enders_end_turns .plain).1 desk hreach ender hmem done hdone _ _ _ _ happends, run,
    hrun, hended⟩

/-- A worker takes up a queued run and stores that it started; before its harness has decided anything, a report says
that the turn failed. -/
def queuedAndFailed : List Turn :=
  .spawn (forget (enqueue ownRun .request .endRun)) :: List.replicate 4 (.call 0) ++
    .spawn (forget (Worker.plain.workOne 7)) :: List.replicate 13 (.call 0) ++
    .report (.fail ⟨1⟩ "no answer") :: List.replicate 3 (.call 0)

/-- A turn ender can end a queued run that a worker is executing. -/
theorem queued_run_ended :
    ∃ desk : Desk, desk.Reach .plain (fun _ _ => True) ∧ ∃ ender, .inr ender ∈ desk.processes ∧ ∃ done ∈ ender.made,
      ∃ id seen batch party, done.1.appends = some (id, seen, batch, party) ∧ hasEnded batch = true ∧
        (∃ run, desk.server.store.runs id = some run ∧ batch <:+ run.events ∧ .runQueued ∈ payloads run.events) ∧
        ¬ desk.server.QuickTurn id := by
  have hshows : ((play (fun _ _ => true) queuedAndFailed ⟨.empty, []⟩).map fun desk =>
      desk.lastAdded.any fun added => hasEnded added.2 && (desk.server.store.runs added.1).any fun run =>
        decide (added.2 <:+ run.events) && decide (.runQueued ∈ payloads run.events)) = some true := by
    decide +kernel
  obtain ⟨desk, hplay, hshown⟩ := Option.map_eq_some_iff.mp hshows
  obtain ⟨⟨id, batch⟩, hadded, hshown⟩ := (Option.any_eq_true ..).mp hshown
  obtain ⟨hended, hlog⟩ := Bool.and_eq_true_iff.mp hshown
  obtain ⟨run, hrun, hlog⟩ := (Option.any_eq_true ..).mp hlog
  obtain ⟨hsuffix, hqueued⟩ := Bool.and_eq_true_iff.mp hlog
  obtain ⟨ender, hmem, done, hdone, seen, party, happends⟩ := lastAdded_eq hadded
  have hreach : desk.Reach .plain (fun _ _ => True) := by
    refine play_reach (fun _ _ _ => trivial) hplay ?_ .start
    rintro p hmem
    simp [queuedAndFailed] at hmem
    rcases hmem with rfl | rfl
    · exact .enqueue _ _ rfl
    · exact .work _ _ rfl
  refine ⟨desk, hreach, ender, hmem, done, hdone, id, seen, batch, party, happends, hended,
    ⟨run, hrun, of_decide_eq_true hsuffix, of_decide_eq_true hqueued⟩, fun hturn => ?_⟩
  obtain ⟨run', hrun', -, -, hnot⟩ := hturn.opened
  rw [hrun, Option.some.injEq] at hrun'
  exact hnot (hrun' ▸ of_decide_eq_true hqueued)

end Desk

end Gol
