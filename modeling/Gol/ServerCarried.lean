import Gol.ServerAnswers
import Gol.ServerAskLogs
import Gol.ServerGuards

/-! No run is lost between the store and the queue. A queued run that is open is pending, on a list of the queue, or
parked: what takes it off pending puts it on a list or has seen it there, and only an acknowledgement takes it off the
lists. -/

namespace Gol
open Library World

namespace RunQueue

variable {q q' : RunQueue} {added gone dropped added' gone' dropped' : RunId → Prop}

theorem Shift.mono (h : q.Shift q' added gone dropped) (hadded : ∀ id, added id → added' id)
    (hgone : ∀ id, gone id → gone' id) (hdropped : ∀ id, dropped id → dropped' id) :
    q.Shift q' added' gone' dropped' where
  knows id hknows := (h.knows id hknows).imp_right (hadded id)
  keeps id hleash hgone' := h.keeps id hleash fun hid => hgone' (hgone id hid)
  leashed id hleash hgone' := h.leashed id hleash fun hid => hgone' (hgone id hid)
  pending id hpending := (h.pending id hpending).imp_right fun hid => hid.imp_right (hdropped id)

/-- Only an acknowledgement takes a run off the lists, and only an `unpend` takes one off pending without queueing it.
-/
theorem shift_exec (q : RunQueue) (now : Nat) (c : QueueCall) :
    q.Shift (q.exec now c).2 (fun id => c = .push id ∨ ∃ gate, c = .pushOnce id gate)
      (fun id => ∃ token, c = .ack id token)
      fun id => ∃ read, c = .unpend id read := by
  have hnobody : q.Shift (q.exec now c).2 nobody nobody nobody → q.Shift (q.exec now c).2
      (fun id => c = .push id ∨ ∃ gate, c = .pushOnce id gate) (fun id => ∃ token, c = .ack id token)
      fun id => ∃ read, c = .unpend id read :=
    fun h => h.mono (fun _ => False.elim) (fun _ => False.elim) fun _ => False.elim
  cases c with
  | pend id => exact hnobody (q.shift_pend now id)
  | push id => exact (q.shift_push id).mono (fun _ h => .inl (h ▸ rfl)) (fun _ => False.elim) fun _ => False.elim
  | pushOnce id gate =>
      exact (q.shift_pushOnce id).mono (fun _ h => .inr ⟨gate, h ▸ rfl⟩) (fun _ => False.elim) fun _ => False.elim
  | unpend id read =>
      exact (q.shift_unpend id).mono (fun _ => False.elim) (fun _ => False.elim) fun _ h => ⟨read, h ▸ rfl⟩
  | claim token => exact hnobody (q.shift_claim token)
  | start id token => exact hnobody (shift_of_same rfl rfl rfl rfl fun _ h => .inl h)
  | release id token => exact hnobody (q.shift_release id token)
  | park id token ask => exact hnobody (q.shift_park id token ask)
  | wake id ask => exact hnobody (q.shift_wake id ask)
  | ack id token =>
      exact (q.shift_ack id token).mono (fun _ => False.elim) (fun _ h => ⟨token, h ▸ rfl⟩) fun _ => False.elim
  | reap => exact hnobody q.shift_reap
  | pendingFor | queuedOrClaimed | renew | parked => exact hnobody (.refl q)

theorem shift_expire (q : RunQueue) (id : RunId) : q.Shift (q.expire id) nobody nobody nobody where
  knows other h := by
    left
    refine h.imp_right fun hlease => ?_
    by_cases hid : other = id
    · subst hid
      simp [expire] at hlease
    · simpa [expire, Function.update_of_ne hid] using hlease
  keeps _ _ _ h := h
  leashed other hleash _ hlease := by
    by_cases hid : other = id
    · subst hid
      simp [expire] at hlease
    · exact hleash (by simpa [expire, Function.update_of_ne hid] using hlease)
  pending _ h := .inl h

end RunQueue

/-! ### Runs on the queue's lists -/

/-- The queue has the run on a list or parked, or it has ended. -/
def Server.Held (s : Server) (id : RunId) : Prop := s.queue.Carries id ∨ s.Ended id

/-- What was seen on the queue's lists, or past waiting, is carried until it ends. -/
structure Server.Carrying (s : Server) : Prop where
  leashed : ∀ id, s.queue.Leashed id ∨ s.Ended id
  claimed : ∀ id token, s.Claimed id token → s.Held id
  found : ∀ id, s.Asked (.queue (.queuedOrClaimed id)) (.ok true) → s.Held id
  begun : ∀ id run, s.store.runs id = some run → run.WasQueued → stillWaiting run.events = false → s.Held id
  secured : ∀ id run, s.store.runs id = some run → run.WasQueued → s.Secured id

/-- A log that asks something is past waiting. -/
theorem stillWaiting_of_put {events : List Event} {payload : EventPayload}
    (hmem : payload ∈ payloads events) {ask : MessageId} {expectsReply : Bool}
    (hput : askPut payload = some (ask, expectsReply)) : stillWaiting events = false := by
  obtain ⟨event, hevent, rfl⟩ := List.mem_map.mp hmem
  rw [stillWaiting, List.all_eq_false]
  refine ⟨event, hevent, ?_⟩
  cases hpayload : event.payload with
  | runCreated | runQueued | userMessage =>
      rw [hpayload] at hput
      cases hput
  | _ => simp

theorem stillWaiting_of_asked {events : List Event} {ask : MessageId} (h : askState events ask = .open) :
    stillWaiting events = false := by
  have hsent : askState events ask ≠ .unsent := by
    rw [h]
    exact nofun
  obtain ⟨payload, hmem, expectsReply, hput⟩ := put_of_askState hsent
  exact stillWaiting_of_put hmem hput

theorem stillWaiting_append_of_left {events : List Event} (more : List Event) (h : stillWaiting events = false) :
    stillWaiting (events ++ more) = false := by
  rw [stillWaiting, List.all_append] at *
  rw [h, Bool.false_and]

namespace Server.Carrying

variable {fleet : Fleet} {pends : Bool} {s t : Server} {c : ServerCall} {answer : c.Answer}

/-- A run that is carried stays so until it ends. -/
theorem held_step (h : s.Carrying) (howes : Owes fleet pends s c) (hstep : s.Step c answer t) {id : RunId}
    (hheld : s.Held id) :
    t.Held id := by
  rcases hheld with hcarries | hended
  · rcases hstep.queue with hsame | ⟨script, rfl, hqueue⟩
    · exact .inl (hsame ▸ hcarries)
    · rcases h.leashed id with hleash | hended
      · have hshift := s.queue.shift_exec s.now script
        by_cases hacks : ∃ token, script = .ack id token
        · obtain ⟨token, rfl⟩ := hacks
          exact .inr (howes.2.later hstep.later)
        · exact .inl (hqueue ▸ hshift.keeps id hleash hacks hcarries)
      · exact .inr (hended.later hstep.later)
  · exact .inr (hended.later hstep.later)

theorem leashed_step (h : s.Carrying) (howes : Owes fleet pends s c) (hstep : s.Step c answer t) (id : RunId) :
    t.queue.Leashed id ∨ t.Ended id := by
  rcases h.leashed id with hleash | hended
  · rcases hstep.queue with hsame | ⟨script, rfl, hqueue⟩
    · exact .inl (hsame ▸ hleash)
    · by_cases hacks : ∃ token, script = .ack id token
      · obtain ⟨token, rfl⟩ := hacks
        exact .inr (howes.2.later hstep.later)
      · exact .inl (hqueue ▸ (s.queue.shift_exec s.now script).leashed id hleash hacks)
  · exact .inr (hended.later hstep.later)

theorem claimed_step (h : s.Carrying) (howes : Owes fleet pends s c) (hstep : s.Step c answer t)
    {id : RunId} {token : Token} (hclaimed : t.Claimed id token) : t.Held id := by
  obtain ⟨took, hmem⟩ := hclaimed
  obtain ⟨took', htrace⟩ := hstep.trace_eq
  rw [htrace] at hmem
  rcases List.mem_cons.mp hmem with hhead | hmem
  · cases hhead
    obtain ⟨now, -, hanswers, rfl⟩ := hstep.answers (by rintro ⟨⟩)
    have hclaim : (.ok (some id) : Except String (Option RunId)) = .ok (s.queue.claim token).1 := hanswers.queue_eq
    exact .inl (RunQueue.carries_claim (Except.ok.inj hclaim).symm)
  · exact h.held_step howes hstep (h.claimed id token ⟨took, hmem⟩)

theorem found_step (h : s.Carrying) (howes : Owes fleet pends s c) (hstep : s.Step c answer t) {id : RunId}
    (hfound : t.Asked (.queue (.queuedOrClaimed id)) (.ok true)) : t.Held id := by
  obtain ⟨took, hmem⟩ := hfound
  obtain ⟨took', htrace⟩ := hstep.trace_eq
  rw [htrace] at hmem
  rcases List.mem_cons.mp hmem with hhead | hmem
  · cases hhead
    obtain ⟨now, -, hanswers, rfl⟩ := hstep.answers (by rintro ⟨⟩)
    have hfound : (.ok true : Except String Bool) = .ok (s.queue.queuedOrClaimed id) := hanswers.queue_eq
    exact .inl (RunQueue.carries_of_queuedOrClaimed (Except.ok.inj hfound).symm)
  · exact h.held_step howes hstep (h.found id ⟨took, hmem⟩)

/-- What takes a log past waiting ends it, or was made by a claim of it. -/
theorem held_of_writes (h : s.Carrying) {id : RunId} {seen : Option Nat} {batch : List Event} {party : Party}
    (hwrites : Writes fleet s id seen batch party) {before : StoredRun} (hbefore : s.store.runs id = some before)
    (hwaits : stillWaiting before.events = true) : s.Held id ∨ hasEnded batch = true := by
  have hends : ∀ {payload}, payloads batch = [payload] → isTerminal payload = true → hasEnded batch = true := by
    intro payload hbatch hterminal
    obtain ⟨event, rfl, rfl⟩ := List.map_eq_singleton_iff.mp hbatch
    simp [hasEnded, hterminal]
  have hasks : ∀ {spec events ask}, s.Saw id spec events → askState events ask ≠ .open := by
    intro spec events ask hsaw hopen
    obtain ⟨more, hstored⟩ := hsaw.stored
    rw [hbefore, Option.some.injEq] at hstored
    rw [hstored, stillWaiting_append_of_left more (stillWaiting_of_asked hopen)] at hwaits
    cases hwaits
  cases party with
  | producer =>
      obtain ⟨-, cls, message, hbatch⟩ := hwrites
      exact .inr (hends hbatch rfl)
  | settle => exact .inr (hends hwrites.2 rfl)
  | delivery =>
      obtain ⟨-, spec, events, ask, answer, hsaw, -, hopen, -⟩ := hwrites
      exact absurd hopen (hasks hsaw)
  | user =>
      obtain ⟨spec, events, question, text, hsaw, -, hquestion, -⟩ := hwrites
      exact absurd (askState_of_openQuestion hquestion) (hasks hsaw)
  | stop =>
      obtain ⟨spec, events, -, -, -, hbatch⟩ := hwrites
      exact .inr (hends hbatch rfl)
  | request =>
      rcases hwrites with ⟨-, ⟨cls, message, hbatch⟩ | ⟨spec, events, message, usage, text, -, -, hbatch⟩⟩
      · exact .inr (hends hbatch rfl)
      · refine .inr ?_
        obtain ⟨first, last, rfl, -, hlast⟩ := List.map_eq_cons_iff.mp hbatch
        obtain ⟨event, rfl, hevent⟩ := List.map_eq_singleton_iff.mp hlast
        simp [hasEnded, hevent, isTerminal]
  | sweep => exact hwrites.elim
  | worker token =>
      obtain ⟨spec, events, number, hclaimed, -⟩ := hwrites
      exact .inl (h.claimed id token hclaimed)

theorem begun_step (h : s.Carrying) (hbegan : s.Began) (howes : Owes fleet pends s c)
    (hstep : s.Step c answer t) {id : RunId}
    {run : StoredRun} (hrun : t.store.runs id = some run) (hqueued : run.WasQueued)
    (hpast : stillWaiting run.events = false) :
    t.Held id := by
  rcases hstep.stored hrun with hsame | ⟨origin, rfl, -, -⟩ | ⟨before, seen, batch, party, hc, hbefore, -, hseen, rfl⟩
  · exact h.held_step howes hstep (h.begun id run hsame hqueued hpast)
  · -- What a queued run is stored with is what it waits with.
    obtain ⟨stamps, more, hevents⟩ := hqueued
    have hwaits : ∀ {stamps}, run.events = queuedEvents run.spec stamps → t.Held id := by
      intro stamps hevents
      rw [hevents] at hpast
      cases hpast
    have hputs := howes.1
    cases origin with
    | request =>
        rcases hputs.2 with ⟨stamps', heq⟩ | ⟨-, stamps', heq⟩
        · exact hwaits heq
        · rw [heq] at hevents
          cases congrArg (fun log : List Event => log[1]?.map Event.payload) hevents
    | fire => exact hputs.1.elim fun _ => hwaits
    | child asked => exact hputs.2.2.elim fun _ => hwaits
  · have hbegun : before.WasQueued := by
      refine (hbegan.began id before hbefore).resolve_right fun hopened => ?_
      obtain ⟨⟨hturn, stamps, more, hevents⟩, -⟩ := hopened
      have hstill : StoredRun.WasOpened { before with events := before.events ++ batch } :=
        ⟨hturn, stamps, more ++ batch, by rw [hevents, List.append_assoc]⟩
      exact hstill.not_wasQueued hqueued
    cases hwaits : stillWaiting before.events with
    | false => exact h.held_step howes hstep (h.begun id before hbefore hbegun hwaits)
    | true =>
        rcases h.held_of_writes (howes.writes hc) hbefore hwaits with hheld | hended
        · exact h.held_step howes hstep hheld
        · exact .inr ⟨_, hrun, by simp [hended]⟩

/-- What is secured stays so, unless it is forgotten. -/
theorem secured_step (h : s.Carrying) (howes : Owes fleet pends s c) (hstep : s.Step c answer t) {id : RunId}
    (hqueued : ∀ run, s.store.runs id = some run → run.WasQueued) (hkept : c ≠ .queue (.unpend id none))
    (hs : s.Secured id) :
    t.Secured id := by
  have hheld : s.Held id → t.Secured id := fun hheld => .inr (h.held_step howes hstep hheld)
  rcases hs with hpending | hheld'
  · rcases hstep.queue with hsame | ⟨script, rfl, hqueue⟩
    · exact .inl (hsame ▸ hpending)
    · rcases (s.queue.shift_exec s.now script).pending id hpending with hpending | hcarries | ⟨read, rfl⟩
      · exact .inl (hqueue ▸ hpending)
      · exact .inr (.inl (hqueue ▸ hcarries))
      · cases read with
        | none => exact absurd rfl hkept
        | some events =>
            -- Its log was past waiting, or it was found on the lists.
            rcases howes with hended | ⟨spec, hsaw, hpast⟩ | hfound
            · exact hheld (.inr hended)
            · obtain ⟨more, hstored⟩ := hsaw.stored
              exact hheld (h.begun id _ hstored (hqueued _ hstored) (stillWaiting_append_of_left more hpast))
            · exact hheld (h.found id hfound)
  · exact hheld hheld'

theorem empty : Server.Carrying .empty where
  leashed _ := .inl fun h => absurd rfl h
  claimed _ _ h := by
    obtain ⟨_, hmem⟩ := h
    cases hmem
  found _ h := by
    obtain ⟨_, hmem⟩ := h
    cases hmem
  begun _ _ h := by cases h
  secured _ _ h := by cases h

theorem step (h : s.Carrying) (hbegan : s.Began) (howes : Owes fleet true s c) (hstep : s.Step c answer t)
    (hkept : ∀ id, c = .queue (.unpend id none) → s.store.runs id = none) : t.Carrying where
  leashed := h.leashed_step howes hstep
  claimed _ _ := h.claimed_step howes hstep
  found _ := h.found_step howes hstep
  begun _ _ := h.begun_step hbegan howes hstep
  secured id run hrun hqueued := by
    have hstored : ∀ before, s.store.runs id = some before → t.Secured id := by
      intro before hbefore
      have hwas : before.WasQueued := by
        refine (hbegan.began id before hbefore).resolve_right fun hopened => ?_
        obtain ⟨⟨hturn, stamps, more, hevents⟩, -⟩ := hopened
        obtain ⟨added, hadded⟩ := hstep.later.store id before hbefore
        rw [hrun, Option.some.injEq] at hadded
        subst hadded
        have hstill : StoredRun.WasOpened { before with events := before.events ++ added } :=
          ⟨hturn, stamps, more ++ added, by rw [hevents, List.append_assoc]⟩
        exact hstill.not_wasQueued hqueued
      refine h.secured_step howes hstep (fun run hrun => ?_) ?_ (h.secured id before hbefore hwas)
      · rw [hbefore, Option.some.injEq] at hrun
        exact hrun ▸ hwas
      · rintro rfl
        rw [hkept id rfl] at hbefore
        cases hbefore
    rcases hstep.stored hrun with hsame | ⟨origin, rfl, rfl, hnone⟩ | ⟨before, -, -, -, -, hbefore, -⟩
    · exact hstored run hsame
    · -- A queued run is put only while it is secured.
      have hwas : run.wasQueued = true := by
        obtain ⟨stamps, more, hevents⟩ := hqueued
        rw [StoredRun.wasQueued, hevents]
        rfl
      refine h.secured_step howes hstep (fun before hbefore => ?_) nofun (howes.2 rfl hwas)
      rw [hnone] at hbefore
      cases hbefore
    · exact hstored before hbefore

theorem tick (h : s.Carrying) (now : Nat) : Server.Carrying { s with now := now } :=
  ⟨h.leashed, h.claimed, h.found, h.begun, h.secured⟩

theorem expire (h : s.Carrying) (run : RunId) : Server.Carrying { s with queue := s.queue.expire run } where
  leashed id := (h.leashed id).imp_left fun hleash => (s.queue.shift_expire run).leashed id hleash not_false
  claimed := h.claimed
  found := h.found
  begun := h.begun
  secured := h.secured

end Server.Carrying

/-! ### The pool -/

/-- The sweep forgets no run that is stored or about to be stored, and a put finds only queued runs under its id. -/
structure Orderly (pool : Pool) (move : Move) : Prop where
  forgets : ∀ id answer, move = .call (.queue (.unpend id none)) answer → pool.server.store.runs id = none ∧
    ∀ p ∈ pool.processes, ∀ run origin, p.Waits (.store (.putRun run origin)) → run.spec.runId ≠ id
  finds : ∀ p ∈ pool.processes, ∀ run origin, p.Waits (.store (.putRun run origin)) →
    ∀ stored, pool.server.store.runs run.spec.runId = some stored → stored.WasQueued

theorem Pool.Reach.carrying {fleet : Fleet} {pool : Pool} (h : pool.Reach (Serves fleet) Orderly) :
    Owed fleet true pool ∧ pool.server.Carrying := by
  induction h with
  | start => exact ⟨⟨.empty, fun p hp => by simp at hp⟩, .empty⟩
  | @step pool pool' move before hok hstep ih =>
      obtain ⟨howed, hcarrying⟩ := ih
      have hbegan := before.began
      cases hstep with
      | spawn s processes p hserves =>
          exact ⟨howed.step (.spawn s processes p hserves) fun _ _ _ _ => ⟨.refl s, fun _ _ _ _ h => h⟩, hcarrying⟩
      | call s t front back c next answer hcall =>
          have howes := howed.owes (p := .call c next) (by simp) ⟨next, rfl⟩
          have hsound : Sound t := howed.sound.step howes hcall
          have hnext := hcarrying.step hbegan howes hcall fun id heq => by
            subst heq
            exact (hok.forgets id answer rfl).1
          refine ⟨⟨hsound, ?_⟩, hnext⟩
          refine howed.safe.step howed.sound hcall hsound fun p hp c' hwaits => ⟨hcall.later, fun _ => ?_⟩
          rintro run origin rfl hs
          have hmem : p ∈ front ++ .call c next :: back := by
            rcases List.mem_append.mp hp with hfront | hback
            · exact List.mem_append_left _ hfront
            · exact List.mem_append_right _ (List.mem_cons_of_mem _ hback)
          refine hcarrying.secured_step howes hcall (hok.finds p hmem run origin hwaits) ?_ hs
          rintro rfl
          exact (hok.forgets _ answer rfl).2 p hmem run origin hwaits rfl
      | crash s front back p =>
          exact ⟨howed.step (.crash s front back p) fun _ _ _ _ => ⟨.refl s, fun _ _ _ _ h => h⟩, hcarrying⟩
      | tick s processes ms =>
          have hlater : s.Later { s with now := s.now + ms } := ⟨.refl _, List.suffix_refl _⟩
          exact ⟨howed.step (.tick s processes ms) fun _ _ _ _ => ⟨hlater, fun _ _ _ _ h => h⟩, hcarrying.tick _⟩
      | expire s processes run =>
          have hlater : s.Later { s with queue := s.queue.expire run } := ⟨.refl _, List.suffix_refl _⟩
          exact ⟨howed.step (.expire s processes run) fun _ _ _ _ => ⟨hlater, fun _ _ _ _ h => h⟩, hcarrying.expire run⟩

/-- No run is orphaned: whatever programs run, crash, lose their leases or their answers, a queued run whose stored
log is open is pending, on a list of the queue, or parked. -/
theorem no_run_orphaned (fleet : Fleet) {pool : Pool} (h : pool.Reach (Serves fleet) Orderly)
    (id : RunId) (run : StoredRun) (hrun : pool.server.store.runs id = some run) (hqueued : run.WasQueued)
    (hopen : hasEnded run.events = false) :
    pool.server.queue.IsPending id ∨ pool.server.queue.Carries id := by
  rcases h.carrying.2.secured id run hrun hqueued with hpending | hcarries | ⟨stored, hstored, hended⟩
  · exact .inl hpending
  · exact .inr hcarries
  · rw [hrun, Option.some.injEq] at hstored
    rw [hstored, hended] at hopen
    cases hopen

/-- A producer dies between its store and its push; the sweep pushes its run a minute later, and the worker that
claims it dies too, its lease run out. -/
def producerAndWorkerDied : List Pool.Turn :=
  .spawn (forget (enqueue (RunSpec.plain 1 ⟨8, 4⟩) .request .endRun)) :: Pool.calls 0 3 (.complete "done") ++
  [.crash 0, .tick 60000, .spawn (forget (sweep .plain 60000 86400000))] ++ Pool.calls 0 4 (.complete "done") ++
  .spawn (forget (Worker.plain.workOne 7)) :: Pool.calls 0 1 (.complete "done") ++ [.crash 0, .expire ⟨1⟩]

theorem serves_producerAndWorkerDied : ∀ p ∈ Pool.started producerAndWorkerDied, Serves .plain p := by
  intro p hp
  rcases hp with _ | ⟨_, _ | ⟨_, _ | ⟨_, hp⟩⟩⟩
  · exact .enqueue _ _ rfl
  · exact .sweep _ _
  · exact .work _ _ rfl
  · cases hp

/-- The process waits at a put of a run that is stored. -/
def findsStored (s : Server) : Prog ServerSig Unit → Bool
  | .call (.store (.putRun run _)) _ => (s.store.runs run.spec.runId).isSome
  | _ => false

/-- The moves' check for concrete runs: nothing is forgotten, and no put finds its run stored. -/
def orderlyCheck (pool : Pool) (move : Move) : Bool :=
  pool.processes.all (fun p => !findsStored pool.server p) &&
    match move with
    | .call (.queue (.unpend _ none)) _ => false
    | _ => true

theorem orderly_of_check (pool : Pool) (move : Move) (h : orderlyCheck pool move = true) : Orderly pool move := by
  obtain ⟨hfinds, hforgets⟩ := Bool.and_eq_true_iff.mp h
  refine ⟨fun id answer heq => ?_, fun p hp run origin hwaits stored hstored => ?_⟩
  · subst heq
    cases hforgets
  · obtain ⟨next, rfl⟩ := hwaits
    have hnone := List.all_eq_true.mp hfinds _ hp
    simp [findsStored, hstored] at hnone

theorem no_run_orphaned_after_deaths :
    ∃ pool : Pool, pool.Reach (Serves .plain) Orderly ∧ ∃ run, pool.server.store.runs ⟨1⟩ = some run ∧ run.WasQueued ∧
      hasEnded run.events = false ∧ (pool.server.queue.IsPending ⟨1⟩ ∨ pool.server.queue.Carries ⟨1⟩) := by
  obtain ⟨pool, hreach, hshows⟩ := Pool.reached_of_play orderlyCheck orderly_of_check producerAndWorkerDied
    (fun pool => decide (⟨1⟩ ∈ pool.server.queue.processing) &&
      (pool.server.store.runs ⟨1⟩).all fun run => !hasEnded run.events) (by decide +kernel) serves_producerAndWorkerDied
  obtain ⟨hclaimed, hopen⟩ := Bool.and_eq_true_iff.mp hshows
  obtain ⟨run, hrun, hqueued⟩ := hreach.began.known ⟨1⟩ (.inl (.inr (.inl (of_decide_eq_true hclaimed))))
  rw [hrun] at hopen
  have hopen' : hasEnded run.events = false := by simpa using hopen
  exact ⟨pool, hreach, run, hrun, hqueued, hopen', no_run_orphaned .plain hreach ⟨1⟩ run hrun hqueued hopen'⟩

end Gol
