import Gol.ServerFires

/-! Held fires. A settle that finds its gate shut cancels the run with an append that asks nothing of the log, so a
run that another settle pushed meanwhile can be cancelled after a worker scheduled it. While no worker has read the
open log under a claim, a held run is never scheduled. -/

namespace Gol
open Library World

variable {fleet : Fleet} {ok : Pool → Move → Prop}

/-- A settle cancels a run only while no worker has read its open log under a claim. -/
def heldUnopened (pool : Pool) : Move → Prop
  | .call (.store (.appendEvents id _ .settle)) _ => ∀ token, ¬ pool.server.Opened id token
  | _ => True

/-! ### What workers do only after they read the log -/

theorem started_opened {pool : Pool} (h : pool.Reach (Serves fleet) ok) {id : RunId} {token : Token}
    {answer : Except String Nat} {took : Bool} (hmem : ⟨.queue (.start id token), answer, took⟩ ∈ pool.server.trace) :
    pool.server.Opened id token := by
  obtain ⟨newer, older, htrace⟩ := List.append_of_mem hmem
  obtain ⟨before, t, -, -, howes, hstep, -, -, hlater⟩ := h.made htrace
  have hopened : before.server.Opened id token := howes
  exact hopened.later (hstep.later.trans hlater)

/-- Only a worker that started the run schedules it. -/
theorem writes_scheduled {s : Server} {id : RunId} {seen : Option Nat} {batch : List Event} {party : Party}
    (hwrites : Writes fleet s id seen batch party) (hscheduled : .runScheduled ∈ payloads batch) :
    ∃ token number, s.Started id token number := by
  cases party with
  | worker token =>
      obtain ⟨spec, events, number, -, hstarted, -⟩ := hwrites
      exact ⟨token, number, hstarted⟩
  | producer =>
      obtain ⟨-, cls, message, hbatch⟩ := hwrites
      simp [hbatch] at hscheduled
  | settle =>
      obtain ⟨-, hbatch⟩ := hwrites
      simp [hbatch] at hscheduled
  | delivery =>
      obtain ⟨-, spec, events, ask, answer, -, -, -, hreply, hbatch⟩ := hwrites
      rw [hbatch, List.mem_singleton] at hscheduled
      subst hscheduled
      simp [answersAsk] at hreply
  | user =>
      obtain ⟨spec, events, question, text, -, -, -, hbatch⟩ := hwrites
      simp [hbatch] at hscheduled
  | stop =>
      obtain ⟨spec, events, -, -, -, hbatch⟩ := hwrites
      simp [hbatch] at hscheduled
  | request =>
      rcases hwrites with ⟨-, ⟨cls, message, hbatch⟩ | ⟨spec, events, message, usage, text, -, -, hbatch⟩⟩
      · simp [hbatch] at hscheduled
      · simp [hbatch] at hscheduled
  | sweep => exact hwrites.elim

theorem scheduled_opened {pool : Pool} (h : pool.Reach (Serves fleet) ok) :
    ∀ id run, pool.server.store.runs id = some run → .runScheduled ∈ payloads run.events →
      ∃ token, pool.server.Opened id token := by
  refine h.reached_invariant (P := fun s => ∀ id run, s.store.runs id = some run → .runScheduled ∈ payloads run.events →
    ∃ token, s.Opened id token) (fun _ _ hrun => by cases hrun) (fun _ _ h => h) (fun _ _ h => h) ?_
  intro pool c answer t hreach _ howes hscheduled hstep id run hrun hmem
  have hold : ∀ run, pool.server.store.runs id = some run → .runScheduled ∈ payloads run.events →
      ∃ token, t.Opened id token := by
    intro run hrun hmem
    obtain ⟨token, hopened⟩ := hscheduled id run hrun hmem
    exact ⟨token, hopened.later hstep.later⟩
  rcases hstep.stored hrun with hsame | ⟨origin, rfl, -, -⟩ | ⟨before, seen, batch, party, hc, hbefore, -, -, rfl⟩
  · exact hold run hsame hmem
  · have hputs := howes.1
    cases origin with
    | request =>
        rcases hputs.2 with ⟨stamps, hevents⟩ | ⟨-, stamps, hevents⟩
        · simp [hevents, queuedEvents, systemEvent, payloads] at hmem
        · simp [hevents, openEvents, systemEvent, payloads] at hmem
    | fire =>
        obtain ⟨stamps, hevents⟩ := hputs.1
        simp [hevents, queuedEvents, systemEvent, payloads] at hmem
    | child asked =>
        obtain ⟨stamps, hevents⟩ := hputs.2.2
        simp [hevents, queuedEvents, systemEvent, payloads] at hmem
  · rw [payloads_append, List.mem_append] at hmem
    rcases hmem with hmem | hmem
    · exact hold before hbefore hmem
    · obtain ⟨token, number, took, hstarted⟩ := writes_scheduled (howes.writes hc) hmem
      exact ⟨token, (started_opened hreach hstarted).later hstep.later⟩

/-! ### Held runs -/

/-- No worker reads the open log of a held run under a claim. -/
theorem held_not_opened {pool : Pool} (h : pool.Reach (Serves fleet) heldUnopened) {id : RunId}
    (hheld : pool.server.HeldFire id) (token : Token) : ¬ pool.server.Opened id token := by
  rintro ⟨newer, older, run, took, took', htrace, hopen, hclaim⟩
  obtain ⟨batch, done, hbatch, hdone, took'', hmem⟩ := hheld
  rw [htrace] at hmem
  rcases List.mem_append.mp hmem with hnewer | holder
  · obtain ⟨newest, between, hsplit⟩ := List.append_of_mem hnewer
    rw [hsplit, List.append_assoc, List.cons_append] at htrace
    obtain ⟨before, t, -, hok, -, -, hbefore, -, -⟩ := h.made htrace
    exact hok token ⟨between, older, run, took, took', hbefore, hopen, hclaim⟩
  · rcases List.mem_cons.mp holder with hread | holder
    · cases hread
    · obtain ⟨before, t, hreach, -, -, hstep, hbefore, -, -⟩ := h.made htrace
      -- The log had ended when the worker read it.
      have hended : before.server.Ended id :=
        hreach.sound.held ⟨batch, done, hbatch, hdone, took'', by rw [hbefore]; exact holder⟩
      obtain ⟨now, -, hanswers, -⟩ := hstep.answers (by rintro ⟨⟩)
      have heq : (.ok (some run) : Except StoreError (Option StoredRun)) = .ok (before.server.store.runs id) :=
        hanswers.store_eq
      obtain ⟨stored, hstored, hends⟩ := hended
      rw [hstored, Except.ok.injEq, Option.some.injEq] at heq
      simp [heq, hends] at hopen

/-- A held fire never ran, where a settle cancels a run only while no worker has read its open log under a claim: the
held run's log records no scheduling, and no worker starts it. A settle answers that it held a run only if it did. -/
theorem held_never_ran (fleet : Fleet) {pool : Pool} (h : pool.Reach (Serves fleet) heldUnopened) :
    (∀ id, pool.server.HeldFire id →
      (∀ run, pool.server.store.runs id = some run → .runScheduled ∉ payloads run.events) ∧
      (∀ token answer took, ⟨.queue (.start id token), answer, took⟩ ∉ pool.server.trace) ∧
      ∀ p ∈ pool.processes, ∀ token, ¬ p.Waits (.queue (.start id token))) ∧
    ∀ spec : RunSpec, Server.Shown pool.server.trace spec.runId →
      (Service fleet false).Safe (fun t fire => ∀ why, fire = .ok (.held why) → t.HeldFire spec.runId)
        (settleFiredRun fleet.uuids spec) pool.server ∧
      ∀ gate : FireGate, (Service fleet false).Safe
        (fun t fire => ∀ why, fire = .ok (.held why) → t.HeldFire spec.runId)
        (settleFire spec (some gate) (gateOf gate)) pool.server := by
  refine ⟨fun id hheld => ⟨fun run hrun hmem => ?_, fun token answer took hmem => ?_, fun p hp token hwaits => ?_⟩,
    fun spec hshown => ⟨?_, fun gate => ?_⟩⟩
  · obtain ⟨token, hopened⟩ := scheduled_opened h id run hrun hmem
    exact held_not_opened h hheld token hopened
  · exact held_not_opened h hheld token (started_opened h hmem)
  · exact held_not_opened h hheld token (h.owes hp hwaits)
  · exact does_settleFiredRun fleet.uuids spec pool.server h.sound hshown
  · exact does_settleFire (does_gateOf spec.runId gate) pool.server h.sound hshown

/-- A delivery of an event stores its run; the webhook is paused, and the delivery holds the run. -/
def heldFire : List Pool.Turn :=
  .spawn (forget (createTrigger Fleet.plain.nextTick hook)) :: Pool.callsThere 0 3 ++
  .spawn (forget (fireWebhook .plain hook "a" "body")) :: Pool.callsThere 0 8 ++
  .spawn (forget (pauseTrigger hook.owner hook.id)) :: Pool.callsThere 0 1 ++
  Pool.callsThere 1 3

theorem serves_heldFire : ∀ p ∈ Pool.started heldFire, Serves .plain p := by
  intro p hp
  rcases hp with _ | ⟨_, _ | ⟨_, _ | ⟨_, hp⟩⟩⟩
  · exact .create _
  · exact .webhook _ _ _
  · exact .pause _ _
  · cases hp

/-- A settle held this run. -/
def heldOf (run : RunId) : (c : ServerCall) → c.Answer → Bool
  | .store (.appendEvents id batch .settle), .ok .appended => id = run && payloads batch = [.runCancelled]
  | _, _ => false

theorem heldFire_of_heldOf {s : Server} {run : RunId}
    (h : (s.trace.any fun happened => heldOf run happened.call happened.answer) = true) : s.HeldFire run := by
  obtain ⟨⟨c, answer, took⟩, hmem, hheld⟩ := List.any_eq_true.mp h
  change heldOf run c answer = true at hheld
  unfold heldOf at hheld
  split at hheld
  · next id batch =>
      simp only [Bool.and_eq_true, decide_eq_true_eq] at hheld
      obtain ⟨rfl, hbatch⟩ := hheld
      exact ⟨batch, .appended, hbatch, .inl rfl, took, hmem⟩
  · cases hheld

/-- No worker has claimed a run. -/
def unclaimed : (c : ServerCall) → c.Answer → Bool
  | .queue (.claim _), .ok (some _) => false
  | _, _ => true

def heldUnopenedCheck (pool : Pool) : Move → Bool
  | .call (.store (.appendEvents _ _ .settle)) _ =>
      pool.server.trace.all fun happened => unclaimed happened.call happened.answer
  | _ => true

theorem heldUnopened_of_check (pool : Pool) (move : Move) (h : heldUnopenedCheck pool move = true) :
    heldUnopened pool move := by
  unfold heldUnopened
  split
  · rintro token ⟨newer, older, run, took, took', htrace, -, hclaim⟩
    have hall : (pool.server.trace.all fun happened => unclaimed happened.call happened.answer) = true := h
    have hunclaimed := List.all_eq_true.mp hall _ (htrace ▸ List.mem_append_right newer (List.mem_cons_of_mem _ hclaim))
    cases hunclaimed
  · trivial

theorem held_never_ran_paused :
    ∃ pool : Pool, pool.Reach (Serves .plain) heldUnopened ∧ pool.server.HeldFire ⟨17⟩ ∧
      ∀ run, pool.server.store.runs ⟨17⟩ = some run → .runScheduled ∉ payloads run.events := by
  obtain ⟨pool, hreach, hshows⟩ := Pool.reached_of_play heldUnopenedCheck heldUnopened_of_check heldFire
    (fun pool => pool.server.trace.any fun happened => heldOf ⟨17⟩ happened.call happened.answer) (by decide +kernel)
    serves_heldFire
  have hheld := heldFire_of_heldOf hshows
  exact ⟨pool, hreach, hheld, ((held_never_ran .plain hreach).1 ⟨17⟩ hheld).1⟩

/-- A delivery of an event stores its run, and a second delivery finds it waiting and pushes it. A worker schedules
it; then the webhook is paused, and the first delivery holds the run. -/
def heldLate : List Pool.Turn :=
  .spawn (forget (createTrigger Fleet.plain.nextTick hook)) :: Pool.callsThere 0 3 ++
  .spawn (forget (fireWebhook .plain hook "a" "body")) :: Pool.callsThere 0 8 ++
  .spawn (forget (fireWebhook .plain hook "a" "body")) :: Pool.callsThere 0 4 ++
  .spawn (forget (Worker.plain.workOne 7)) :: Pool.callsThere 0 7 ++
  .spawn (forget (pauseTrigger hook.owner hook.id)) :: Pool.callsThere 0 1 ++
  Pool.callsThere 3 3

theorem serves_heldLate : ∀ p ∈ Pool.started heldLate, Serves .plain p := by
  intro p hp
  rcases hp with _ | ⟨_, _ | ⟨_, _ | ⟨_, _ | ⟨_, _ | ⟨_, hp⟩⟩⟩⟩⟩
  · exact .create _
  · exact .webhook _ _ _
  · exact .webhook _ _ _
  · exact .work _ _ rfl
  · exact .pause _ _
  · cases hp

/-- A run that a settle held was scheduled. -/
theorem held_run_scheduled :
    ∃ pool : Pool, pool.Reach (Serves .plain) anyMove ∧ pool.server.HeldFire ⟨17⟩ ∧
      ∃ run, pool.server.store.runs ⟨17⟩ = some run ∧ .runScheduled ∈ payloads run.events := by
  obtain ⟨pool, hreach, hshows⟩ := Pool.reached_of_any heldLate
    (fun pool => (pool.server.trace.any fun happened => heldOf ⟨17⟩ happened.call happened.answer) &&
      (pool.server.store.runs ⟨17⟩).any fun run => decide (.runScheduled ∈ payloads run.events))
    (by decide +kernel) serves_heldLate
  rw [Bool.and_eq_true] at hshows
  obtain ⟨hheld, hrun⟩ := hshows
  obtain ⟨run, hstored, hscheduled⟩ := (Option.any_eq_true ..).mp hrun
  exact ⟨pool, hreach, heldFire_of_heldOf hheld, run, hstored, of_decide_eq_true hscheduled⟩

end Gol
