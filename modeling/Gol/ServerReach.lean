import Gol.ServerDrives
import Gol.ServerSchedules

/-! The server running keeps what its programs owe: in every reachable pool the server is sound, and each process that
waits at a call owes what is required there. So a run is acknowledged only once it has ended. -/

namespace Gol
open Library World

variable {fleet : Fleet} {pends : Bool} {allowed : Prog ServerSig Unit → Prop} {ok : Pool → Move → Prop}

theorem Minds.forget {α : Type} {p : Prog ServerSig α} (h : Minds fleet pends p) : Minds fleet pends (forget p) :=
  Minds.bind h fun _ => does_done

/-- The keys of the fires that the server starts are derived. -/
theorem derived_none (u : Uuids) (id : TriggerId) : FireKey.Derived u id none := ⟨nofun, nofun⟩

/-- Every program the servers run meets what it owes. -/
theorem serves_minds {p : Prog ServerSig Unit} (h : Serves fleet p) : Minds fleet pends p := by
  cases h with
  | enqueue spec onPushFailure hkey =>
      have henqueue : Minds fleet pends (Gol.enqueue spec .request onPushFailure) :=
        minds_enqueue onPushFailure hkey fun s stamps => ⟨hkey, .inl ⟨stamps, rfl⟩⟩
      exact Minds.forget henqueue
  | fire owner id => exact Minds.forget (minds_fire owner id (derived_none _ _))
  | webhook trigger event body => exact Minds.forget (minds_fireWebhook trigger event body)
  | pass => exact Minds.forget minds_passNow
  | work w token hw => exact Minds.forget (minds_workOne hw token)
  | reap => exact Minds.forget minds_reapRuns
  | sweep after forgetAfter => exact Minds.forget (minds_sweep fleet.uuids after forgetAfter)
  | sweepAsks => exact Minds.forget minds_sweepAsks
  | sweepSandboxes => exact Minds.forget minds_sweepSandboxes
  | answer run text asked =>
      -- Generalized, so that the unifier does not evaluate the trimmed text.
      have hanswer := @minds_answerQuestion fleet pends run text asked
      generalize answerQuestion run text asked = p at hanswer ⊢
      exact Minds.forget hanswer
  | stop owner scope => exact Minds.forget (minds_stop owner scope)
  | stopOwner owner => exact Minds.forget (minds_stopOwner owner)
  | openTurn spec hkey hturn => exact Minds.forget (minds_openTurn hkey hturn)
  | complete run text =>
      have hcomplete := @minds_acceptSubscriptionCompletion fleet pends run text
      generalize acceptSubscriptionCompletion run text = p at hcomplete ⊢
      exact Minds.forget hcomplete
  | fail run message =>
      have hfail := @minds_failTurn fleet pends run message
      generalize failTurn run message = p at hfail ⊢
      exact Minds.forget hfail
  | create trigger => exact Minds.forget (minds_createTrigger trigger)
  | pause owner id => exact Minds.forget (minds_pauseTrigger owner id)
  | resume owner id => exact Minds.forget (minds_resumeTrigger owner id)
  | remove owner id => exact Minds.forget (minds_removeTrigger owner id)

/-- A program that minds what it owes is safe in a sound server. -/
theorem Minds.safe {p : Prog ServerSig Unit} (h : Minds fleet pends p) {s : Server} (hs : Sound s) :
    (Service fleet pends).Safe (fun _ _ => True) p s :=
  (h s hs trivial).mono fun _ _ _ => trivial

theorem Sound.tick {s : Server} (h : Sound s) (now : Nat) : Sound { s with now := now } :=
  h.of_queue now (fun _ hknows => hknows) rfl

theorem Sound.expire {s : Server} (h : Sound s) (run : RunId) : Sound { s with queue := s.queue.expire run } := by
  refine h.of_queue s.now (fun id hknows => ?_) rfl
  refine hknows.imp_right fun hlease => ?_
  by_cases heq : id = run
  · subst heq
    simp [RunQueue.expire] at hlease
  · simpa [RunQueue.expire, Function.update_of_ne heq] using hlease

namespace Pool

/-- What the programs of a reachable pool keep. -/
structure Owed (fleet : Fleet) (pends : Bool) (pool : Pool) : Prop where
  sound : Sound pool.server
  safe : (Service fleet pends).AllSafe pool.processes pool.server

theorem Owed.owes {pool : Pool} (h : Owed fleet pends pool) {p : Prog ServerSig Unit} (hp : p ∈ pool.processes)
    {c : ServerCall} (hwaits : p.Waits c) : Owes fleet pends pool.server c :=
  (h.safe p hp).owes hwaits h.sound

theorem Owed.step {pool pool' : Pool} {move : Move} (h : Owed fleet pends pool)
    (hstep : pool.Step (Serves fleet) move pool')
    (hothers : ∀ p ∈ pool'.processes, ∀ c, p.Waits c → (Service fleet pends).Others c pool.server pool'.server) :
    Owed fleet pends pool' := by
  cases hstep with
  | spawn s processes p hserves =>
      refine ⟨h.sound, fun q hq => ?_⟩
      rcases List.mem_cons.mp hq with rfl | hq
      · exact (serves_minds hserves).safe h.sound
      · exact h.safe q hq
  | call s t before after c next answer hcall =>
      have hsound : Sound t := h.sound.step (h.owes (by simp) ⟨next, rfl⟩) hcall
      refine ⟨hsound, h.safe.step h.sound hcall hsound fun p hp => hothers p ?_⟩
      rcases List.mem_append.mp hp with hbefore | hafter
      · exact List.mem_append_left _ hbefore
      · exact List.mem_append_right _ (List.mem_cons_of_mem _ hafter)
  | crash s before after p =>
      refine ⟨h.sound, fun q hq => h.safe q ?_⟩
      rcases List.mem_append.mp hq with hbefore | hafter
      · exact List.mem_append_left _ hbefore
      · exact List.mem_append_right _ (List.mem_cons_of_mem _ hafter)
  | tick s processes ms => exact ⟨h.sound.tick _, h.safe.others hothers⟩
  | expire s processes run => exact ⟨h.sound.expire run, h.safe.others hothers⟩

/-- A step of the pool leads its server to a later one. -/
theorem Step.later {pool pool' : Pool} {move : Move} (h : pool.Step allowed move pool') :
    pool.server.Later pool'.server := by
  cases h with
  | call s t before after c next answer hcall => exact hcall.later
  | spawn | crash => exact .refl _
  | tick | expire => exact ⟨.refl _, List.suffix_refl _⟩

theorem Reach.owed {pool : Pool} (h : pool.Reach (Serves fleet) ok) : Owed fleet false pool := by
  refine h.invariant ⟨.empty, fun p hp => by simp at hp⟩ fun pool move pool' howed _ hstep => ?_
  exact howed.step hstep fun _ _ _ _ => ⟨hstep.later, nofun⟩

theorem Reach.sound {pool : Pool} (h : pool.Reach (Serves fleet) ok) : Sound pool.server := h.owed.sound

theorem Reach.owes {pool : Pool} (h : pool.Reach (Serves fleet) ok) {p : Prog ServerSig Unit} (hp : p ∈ pool.processes)
    {c : ServerCall} (hwaits : p.Waits c) : Owes fleet false pool.server c := h.owed.owes hp hwaits

/-- The induction rule of the servers of runs: what each owed call of a reachable pool keeps holds in every state. -/
theorem Reach.reached_invariant {P : Server → Prop} (hstart : P .empty)
    (hclock : ∀ s (ms : Nat), P s → P { s with now := s.now + ms })
    (hexpire : ∀ s run, P s → P { s with queue := s.queue.expire run })
    (hcall : ∀ pool c answer t, pool.Reach (Serves fleet) ok → ok pool (.call c answer) →
      Owes fleet false pool.server c → P pool.server → pool.server.Step c answer t → P t)
    {pool : Pool} (h : pool.Reach (Serves fleet) ok) : P pool.server := by
  induction h with
  | start => exact hstart
  | @step pool pool' move before hok hstep ih =>
      cases hstep with
      | spawn | crash => exact ih
      | tick s processes ms => exact hclock s _ ih
      | expire s processes run => exact hexpire s run ih
      | call s t before' after c next answer hcall' =>
          exact hcall _ c answer t before hok (before.owes (p := .call c next) (by simp) ⟨next, rfl⟩) ih hcall'

theorem Reach.server_invariant {P : Server → Prop} (hstart : P .empty)
    (hclock : ∀ s (ms : Nat), P s → P { s with now := s.now + ms })
    (hexpire : ∀ s run, P s → P { s with queue := s.queue.expire run })
    (hcall : ∀ pool c answer t, ok pool (.call c answer) → Sound pool.server → Owes fleet false pool.server c →
      P pool.server → pool.server.Step c answer t → Sound t → P t)
    {pool : Pool} (h : pool.Reach (Serves fleet) ok) : P pool.server :=
  h.reached_invariant hstart hclock hexpire fun pool c answer t hreach hok howes hP hstep =>
    hcall pool c answer t hok hreach.sound howes hP hstep (hreach.sound.step howes hstep)

/-- Each call of the trace was made by a step of a reachable pool, whose trace was the rest. -/
theorem Reach.made {pool : Pool} (h : pool.Reach (Serves fleet) ok) {newer older : List Happened} {happened : Happened}
    (htrace : pool.server.trace = newer ++ happened :: older) :
    ∃ (before : Pool) (t : Server), before.Reach (Serves fleet) ok ∧ ok before (.call happened.call happened.answer) ∧
      Owes fleet false before.server happened.call ∧ before.server.Step happened.call happened.answer t ∧
      before.server.trace = older ∧ t.trace = happened :: older ∧ t.Later pool.server := by
  induction h generalizing newer with
  | start => simp [Server.empty] at htrace
  | @step pool pool' move hreach hok hstep ih =>
      have hsame : pool'.server.trace = pool.server.trace →
        ∃ (before : Pool) (t : Server), before.Reach (Serves fleet) ok ∧
          ok before (.call happened.call happened.answer) ∧ Owes fleet false before.server happened.call ∧
          before.server.Step happened.call happened.answer t ∧ before.server.trace = older ∧
            t.trace = happened :: older ∧ t.Later pool'.server := by
        intro heq
        rw [heq] at htrace
        obtain ⟨before, t, hbefore, hok', howes, hcall, holder, hnewer, hlater⟩ := ih htrace
        exact ⟨before, t, hbefore, hok', howes, hcall, holder, hnewer, hlater.trans hstep.later⟩
      have hlater := hstep.later
      cases hstep with
      | spawn | crash | tick | expire => exact hsame rfl
      | call s t front back c next answer hcall =>
          obtain ⟨took, heq⟩ := hcall.trace_eq
          cases newer with
          | nil =>
              have hcons : ⟨c, answer, took⟩ :: s.trace = happened :: older := heq.symm.trans htrace
              obtain ⟨rfl, rfl⟩ := List.cons.inj hcons
              have howes := hreach.owes (p := .call c next) (by simp) ⟨next, rfl⟩
              exact ⟨_, t, hreach, hok, howes, hcall, rfl, heq, .refl t⟩
          | cons newest newer =>
              have hcons : ⟨c, answer, took⟩ :: s.trace = newest :: (newer ++ happened :: older) :=
                heq.symm.trans htrace
              obtain ⟨before, u, hbefore, hok', howes, hcall', holder, hnewer, hlater'⟩ := ih (List.cons.inj hcons).2
              exact ⟨before, u, hbefore, hok', howes, hcall', holder, hnewer, hlater'.trans hlater⟩

/-- What every call of a sound server is answered holds of the calls made. -/
theorem Reach.trace_invariant {P : (c : ServerCall) → c.Answer → Prop}
    (hfails : ∀ c answer, Server.Fails c answer → P c answer)
    (hanswers : ∀ s now c answer, Sound s → Server.Answers s now c answer → P c answer)
    {pool : Pool} (h : pool.Reach (Serves fleet) ok) :
    ∀ happened ∈ pool.server.trace, P happened.call happened.answer := by
  refine h.server_invariant (P := fun s => ∀ happened ∈ s.trace, P happened.call happened.answer)
    (fun _ hmem => by cases hmem) (fun _ _ h => h) (fun _ _ h => h) ?_
  intro pool c answer t _ hsound _ htrace hstep _ happened hmem
  obtain ⟨took, heq⟩ := hstep.trace_eq
  rw [heq] at hmem
  rcases List.mem_cons.mp hmem with rfl | hmem
  · cases hstep with
    | done now _ h => exact hanswers _ now c answer hsound h
    | lost _ _ h | failed h => exact hfails c answer h
  · exact htrace happened hmem

end Pool

namespace Server

variable {s t : Server} {c : ServerCall} {answer : c.Answer}

/-- A log after a step: as it was, one just put, or one that was open with a batch added. -/
theorem Step.stored (h : s.Step c answer t) {id : RunId} {run : StoredRun} (hrun : t.store.runs id = some run) :
    s.store.runs id = some run ∨
    (∃ origin, c = .store (.putRun run origin) ∧ run.spec.runId = id ∧ s.store.runs id = none) ∨
    ∃ before seen batch party, c.appends = some (id, seen, batch, party) ∧ s.store.runs id = some before ∧
      hasEnded before.events = false ∧ (∀ length, seen = some length → length = before.events.length) ∧
        run = { before with events := before.events ++ batch } := by
  cases h with
  | done now _ _ | lost now _ _ => exact stored_after hrun
  | failed _ => exact .inl hrun

/-- Only a script changes the queue. -/
theorem Step.queue (h : s.Step c answer t) :
    t.queue = s.queue ∨ ∃ script, c = .queue script ∧ t.queue = (s.queue.exec s.now script).2 := by
  cases h with
  | done now _ _ | lost now _ _ =>
      cases c with
      | queue script => exact .inr ⟨script, rfl, rfl⟩
      | _ => exact .inl rfl
  | failed _ => exact .inl rfl

end Server

/-! ### Acknowledgements -/

/-- A run is acknowledged only once its stored log has ended: so it is at every acknowledgement that a process waits
at. From any state of a run, a worker that runs a claim from a log it read returns `appended` or `terminal` only once
the log has ended, whatever it is answered and whoever else writes to the log. -/
theorem acknowledged_ended (fleet : Fleet) {pool : Pool} (h : pool.Reach (Serves fleet) anyMove) :
    (∀ p ∈ pool.processes, ∀ run token, p.Waits (.queue (.ack run token)) →
      ∃ stored, pool.server.store.runs run = some stored ∧ hasEnded stored.events = true) ∧
    ∀ (w : Worker) (spec : RunSpec) (events : List Event) (token : Token) (number : Nat), number ≤ fleet.maxDeliveries →
      (Known.attempts spec token number events).holds pool.server →
        (Service fleet false).Safe (fun t result =>
          result = .ok (.store .appended) ∨ result = .ok (.store .terminal) → t.Ended spec.runId)
          (w.runFrom spec events token number) pool.server := by
  refine ⟨fun p hp run token hwaits => ?_, fun w spec events token number hnumber hattempts => ?_⟩
  · exact (h.owes hp hwaits).2
  · exact (does_runFrom w hnumber _ h.sound hattempts).mono fun t result hhalts => hhalts.1

/-- The process is about to acknowledge this run. -/
def acknowledges (run : RunId) : Prog ServerSig Unit → Bool
  | .call (.queue (.ack id _)) _ => id = run
  | _ => false

theorem waits_of_acknowledges {run : RunId} {p : Prog ServerSig Unit} (h : acknowledges run p = true) :
    ∃ token, p.Waits (.queue (.ack run token)) := by
  unfold acknowledges at h
  split at h
  · next id token next =>
      obtain rfl : id = run := by simpa using h
      exact ⟨token, next, rfl⟩
  · cases h

/-- A producer queues a run, and a worker takes it to its end. -/
def queuedAndWorked : List Pool.Turn :=
  .spawn (forget (enqueue (RunSpec.plain 1 ⟨8, 4⟩) .request .endRun)) :: Pool.calls 0 4 (.complete "done") ++
  .spawn (forget (Worker.plain.workOne 7)) :: Pool.calls 0 17 (.complete "done")

theorem serves_queuedAndWorked : ∀ p ∈ Pool.started queuedAndWorked, Serves .plain p := by
  intro p hp
  rcases hp with _ | ⟨_, _ | ⟨_, hp⟩⟩
  · exact .enqueue _ _ rfl
  · exact .work _ _ rfl
  · cases hp

theorem acknowledged_ended_worked :
    ∃ pool : Pool, pool.Reach (Serves .plain) anyMove ∧
      (∃ p ∈ pool.processes, ∃ token, p.Waits (.queue (.ack ⟨1⟩ token))) ∧
        ∃ stored, pool.server.store.runs ⟨1⟩ = some stored ∧ hasEnded stored.events = true := by
  obtain ⟨pool, hreach, hshows⟩ := Pool.reached_of_any queuedAndWorked
    (fun pool => pool.processes.any (acknowledges ⟨1⟩)) (by decide +kernel) serves_queuedAndWorked
  obtain ⟨p, hp, hacks⟩ := List.any_eq_true.mp hshows
  obtain ⟨token, hwaits⟩ := waits_of_acknowledges hacks
  exact ⟨pool, hreach, ⟨p, hp, token, hwaits⟩, (acknowledged_ended .plain hreach).1 p hp ⟨1⟩ token hwaits⟩

end Gol
