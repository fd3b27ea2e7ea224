import Gol.ServerPool

/-! Parked runs are idle: on neither list and under no lease. The scripts keep this except a park that leaves another
copy of its run on a list, and a push of a run that is parked; both can happen, when a run was queued twice. -/

namespace Gol
open Library

namespace RunQueue

/-- A parked run is on no list and holds no lease. -/
def ParkedIdle (q : RunQueue) : Prop :=
  ∀ id ∈ q.parked.map Prod.fst, id ∉ q.runs ∧ id ∉ q.processing ∧ q.leases id = none

/-- A park finds no other copy of its run on the lists, and a script that queues a run finds it not parked. -/
def QueuesIdle (q : RunQueue) : QueueCall → Prop
  | .push id => id ∉ q.parked.map Prod.fst
  | .pushOnce id _ => q.queuedOrClaimed id = true ∨ id ∉ q.parked.map Prod.fst
  | .park id token _ => q.leases id = some token → id ∉ q.runs ∧ q.processing.count id ≤ 1
  | _ => True

variable {q : RunQueue}

/-- A script that parks no run keeps this when the lists and leases of the parked runs only shrink. -/
theorem ParkedIdle.of_subset {q' : RunQueue} (h : q.ParkedIdle)
    (hparked : ∀ id ∈ q'.parked.map Prod.fst, id ∈ q.parked.map Prod.fst ∧
      (id ∈ q'.runs → id ∈ q.runs ∨ id ∈ q.processing) ∧ (id ∈ q'.processing → id ∈ q.processing ∨ id ∈ q.runs) ∧
      (q.leases id = none → id ∉ q.runs → q'.leases id = none)) : q'.ParkedIdle := by
  intro id hid
  obtain ⟨hold, hruns, hprocessing, hlease⟩ := hparked id hid
  obtain ⟨hnot, hnot', hnone⟩ := h id hold
  refine ⟨fun hin => ?_, fun hin => ?_, hlease hnone hnot⟩
  · exact (hruns hin).elim hnot hnot'
  · exact (hprocessing hin).elim hnot' hnot

theorem ParkedIdle.push (h : q.ParkedIdle) {id : RunId} (hid : id ∉ q.parked.map Prod.fst) :
    (q.push id).ParkedIdle := by
  intro other hother
  obtain ⟨hruns, hprocessing, hlease⟩ := h other hother
  refine ⟨fun hin => ?_, hprocessing, hlease⟩
  rcases List.mem_cons.mp hin with rfl | hin
  · exact hid hother
  · exact hruns hin

theorem ParkedIdle.pushOnce (h : q.ParkedIdle) {id : RunId}
    (hid : q.queuedOrClaimed id = true ∨ id ∉ q.parked.map Prod.fst) : (q.pushOnce id).2.ParkedIdle := by
  unfold RunQueue.pushOnce
  split
  · exact h
  · next hnot => exact h.push (hid.resolve_left hnot)

theorem ParkedIdle.claim (h : q.ParkedIdle) (token : Token) : (q.claim token).2.ParkedIdle := by
  unfold RunQueue.claim
  split
  · exact h
  · next id hlast =>
      have hmem := mem_runs_of_last hlast
      dsimp only
      split
      · rw [List.erase_cons_head]
        exact h.of_subset fun other hother =>
          ⟨hother, fun hin => .inl ((hmem other).mpr (.inl hin)), .inl, fun hl _ => hl⟩
      · refine h.of_subset fun other hother =>
          ⟨hother, fun hin => .inl ((hmem other).mpr (.inl hin)), fun hin => ?_, ?_⟩
        · rcases List.mem_cons.mp hin with rfl | hin
          · exact .inr ((hmem _).mpr (.inr rfl))
          · exact .inl hin
        · intro hlease hruns
          have hne : other ≠ id := fun heq => hruns ((hmem other).mpr (.inr heq))
          exact (Function.update_of_ne hne ..).trans hlease

theorem ParkedIdle.release (h : q.ParkedIdle) (id : RunId) (token : Token) : (q.release id token).ParkedIdle := by
  unfold RunQueue.release
  split
  · next hlease =>
      intro other hother
      obtain ⟨hruns, hprocessing, hnone⟩ := h other hother
      have hne : other ≠ id := by
        rintro rfl
        simp [hnone] at hlease
      refine ⟨fun hin => ?_, fun hin => hprocessing (List.mem_of_mem_erase hin), ?_⟩
      · exact (List.mem_cons.mp hin).elim hne hruns
      · exact (Function.update_of_ne hne ..).trans hnone
  · exact h

theorem ParkedIdle.park (h : q.ParkedIdle) {id : RunId} {token : Token} (ask : MessageId)
    (hid : q.leases id = some token → id ∉ q.runs ∧ q.processing.count id ≤ 1) :
    (q.park id token ask).2.ParkedIdle := by
  unfold RunQueue.park
  split
  · next hlease =>
      obtain ⟨hqueued, hcount⟩ := hid hlease
      intro other hother
      by_cases hne : other = id
      · subst hne
        refine ⟨hqueued, ?_, Function.update_self ..⟩
        rw [← List.count_eq_zero, List.count_erase_self]
        omega
      · have hold : other ∈ q.parked.map Prod.fst := by
          rcases List.mem_cons.mp hother with heq | hother
          · exact absurd heq hne
          · exact mem_of_mem_filter hother
        obtain ⟨hruns, hprocessing, hnone⟩ := h other hold
        exact ⟨hruns, fun hin => hprocessing (List.mem_of_mem_erase hin), (Function.update_of_ne hne ..).trans hnone⟩
  · exact h

theorem ParkedIdle.wake (h : q.ParkedIdle) (id : RunId) (ask : MessageId) : (q.wake id ask).2.ParkedIdle := by
  unfold RunQueue.wake
  split
  · intro other hother
    obtain ⟨hruns, hprocessing, hlease⟩ := h other (mem_of_mem_filter hother)
    refine ⟨fun hin => ?_, hprocessing, hlease⟩
    rcases List.mem_cons.mp hin with rfl | hin
    · simp at hother
    · exact hruns hin
  · exact h

theorem ParkedIdle.ack (h : q.ParkedIdle) (id : RunId) (token : Token) : (q.ack id token).ParkedIdle := by
  refine h.of_subset fun other hother => ⟨hother, .inl, fun hin => .inl (List.mem_of_mem_erase hin), fun hnone _ => ?_⟩
  simp only [RunQueue.ack]
  split
  · by_cases hne : other = id
    · simp [hne]
    · rwa [Function.update_of_ne hne]
  · exact hnone

theorem ParkedIdle.expire (h : q.ParkedIdle) (id : RunId) : (q.expire id).ParkedIdle := by
  refine h.of_subset fun other hother => ⟨hother, .inl, .inl, fun hnone _ => ?_⟩
  by_cases hne : other = id
  · simp [RunQueue.expire, hne]
  · simpa [RunQueue.expire, Function.update_of_ne hne] using hnone

theorem parkedIdle_reapOne {reaped : List RunId × RunQueue} {id : RunId} (h : reaped.2.ParkedIdle)
    (hin : id ∈ reaped.2.processing) : (reapOne reaped id).2.ParkedIdle := by
  unfold reapOne
  split
  · refine h.of_subset fun other hother =>
      ⟨hother, fun hruns => ?_, fun hp => .inl (List.mem_of_mem_erase hp), fun hl _ => hl⟩
    rcases List.mem_append.mp hruns with hruns | hsame
    · exact .inl hruns
    · exact .inr (List.mem_singleton.mp hsame ▸ hin)
  · exact h

theorem ParkedIdle.reap (h : q.ParkedIdle) : q.reap.2.ParkedIdle := by
  have hfold : ∀ (rest : List RunId) (reaped : List RunId × RunQueue), rest.Subperm reaped.2.processing →
      reaped.2.ParkedIdle → (rest.foldl reapOne reaped).2.ParkedIdle := by
    intro rest
    induction rest with
    | nil => exact fun _ _ h => h
    | cons id rest ih =>
        intro reaped hsub h
        exact ih _ (subperm_reapOne hsub) (parkedIdle_reapOne h (hsub.subset (List.mem_cons_self ..)))
  exact hfold q.processing ([], q) (List.Subperm.refl _) h

theorem ParkedIdle.exec (h : q.ParkedIdle) (now : Nat) {c : QueueCall} (hc : q.QueuesIdle c) :
    (q.exec now c).2.ParkedIdle := by
  cases c with
  | pend id =>
      simp only [RunQueue.exec, RunQueue.pend]
      split <;> exact h
  | push id => exact h.push hc
  | pushOnce id gate => exact h.pushOnce hc
  | claim token => exact h.claim token
  | release id token => exact h.release id token
  | park id token ask => exact h.park ask hc
  | wake id ask => exact h.wake id ask
  | ack id token => exact h.ack id token
  | reap => exact h.reap
  | _ => exact h

end RunQueue

instance RunQueue.decidableQueuesIdle (q : RunQueue) : (c : QueueCall) → Decidable (q.QueuesIdle c)
  | .push _ => inferInstanceAs (Decidable (_ ∉ _))
  | .pushOnce _ _ => inferInstanceAs (Decidable (_ ∨ _))
  | .park _ _ _ => inferInstanceAs (Decidable (_ → _))
  | .pend _ | .pendingFor _ | .queuedOrClaimed _ | .unpend _ _ | .claim _ | .start _ _ | .release _ _ | .wake _ _
  | .renew _ _ | .ack _ _ | .reap | .parked => isTrue trivial

/-- The moves that keep parked runs idle. -/
def queuesIdle (pool : Pool) : Move → Prop
  | .call (.queue c) _ => pool.server.queue.QueuesIdle c
  | _ => True

/-- Whatever programs run, a parked run is on neither list and under no lease, as long as each park finds no other copy
of its run and each push finds its run not parked. -/
theorem parked_idle {allowed : Prog ServerSig Unit → Prop} {pool : Pool} (h : pool.Reach allowed queuesIdle) :
    pool.server.queue.ParkedIdle := by
  refine h.invariant (P := fun pool => pool.server.queue.ParkedIdle)
    (fun id hid => absurd hid (by simp [Server.empty, RunQueue.empty])) ?_
  intro pool move pool' hidle hok hstep
  cases hstep with
  | spawn | crash | tick => exact hidle
  | expire s processes run => exact RunQueue.ParkedIdle.expire hidle run
  | call s t before after c next answer hcall =>
      cases c with
      | queue c =>
          cases hcall with
          | done now _ _ | lost now _ _ => exact RunQueue.ParkedIdle.exec hidle s.now hok
          | failed _ => exact hidle
      | _ => cases hcall <;> exact hidle

/-- A run that asks its user a question. -/
def askingSpec : RunSpec := { RunSpec.plain 1 ⟨8, 4⟩ with capabilities := [⟨"user.ask"⟩] }

/-- A producer stores a run and stalls before its push; a minute later the sweep pushes the run, and a worker takes it
up to its question and parks it. -/
def parkedBehindProducer : List Pool.Turn :=
  .spawn (forget (enqueue askingSpec .request .endRun)) :: Pool.calls 0 3 (.askUser "which?") ++
  .tick 60000 :: .spawn (forget (sweep .plain 60000 86400000)) :: Pool.calls 0 4 (.askUser "which?") ++
  .spawn (forget (Worker.plain.workOne 7)) :: Pool.calls 0 21 (.askUser "which?")

theorem serves_parkedBehindProducer (more : List Pool.Turn) (h : Pool.started more = []) :
    ∀ p ∈ Pool.started (parkedBehindProducer ++ more), Serves .plain p := by
  intro p hp
  have hstarted : Pool.started (parkedBehindProducer ++ more) = [forget (enqueue askingSpec .request .endRun),
      forget (sweep .plain 60000 86400000), forget (Worker.plain.workOne 7)] ++ Pool.started more :=
    List.filterMap_append
  rw [hstarted, h] at hp
  rcases hp with _ | ⟨_, _ | ⟨_, _ | ⟨_, hp⟩⟩⟩
  · exact .enqueue _ _ rfl
  · exact .sweep _ _
  · exact .work _ _ rfl
  · cases hp

/-- The moves' check for concrete runs. -/
def queuesIdleCheck (pool : Pool) : Move → Bool
  | .call (.queue c) _ => decide (pool.server.queue.QueuesIdle c)
  | _ => true

theorem queuesIdle_of_check (pool : Pool) (move : Move) (h : queuesIdleCheck pool move = true) :
    queuesIdle pool move := by
  unfold queuesIdle
  split
  · exact of_decide_eq_true h
  · trivial

theorem parked_idle_before_push :
    ∃ pool : Pool, pool.Reach (Serves .plain) queuesIdle ∧ pool.server.queue.parked = [(⟨1⟩, ⟨9⟩)] ∧
      pool.server.queue.ParkedIdle := by
  obtain ⟨pool, hreach, hshows⟩ := Pool.reached_of_play queuesIdleCheck queuesIdle_of_check
    (parkedBehindProducer ++ []) (fun pool => pool.server.queue.parked = [(⟨1⟩, ⟨9⟩)]) (by decide +kernel)
    (serves_parkedBehindProducer [] rfl)
  exact ⟨pool, hreach, by simpa using hshows, parked_idle hreach⟩

/-- The producer's push puts the parked run on the runs list. -/
theorem parked_run_queued :
    ∃ pool : Pool, pool.Reach (Serves .plain) anyMove ∧ ¬ pool.server.queue.ParkedIdle := by
  obtain ⟨pool, hreach, hshows⟩ := Pool.reached_of_any
    (parkedBehindProducer ++ Pool.calls 2 1 (.askUser "which?"))
    (fun pool => pool.server.queue.parked = [(⟨1⟩, ⟨9⟩)] ∧ pool.server.queue.runs = [⟨1⟩])
    (by decide +kernel) (serves_parkedBehindProducer _ rfl)
  obtain ⟨hparked, hruns⟩ : pool.server.queue.parked = [(⟨1⟩, ⟨9⟩)] ∧ pool.server.queue.runs = [⟨1⟩] := by
    simpa using hshows
  refine ⟨pool, hreach, fun hidle => ?_⟩
  exact (hidle ⟨1⟩ (by simp [hparked])).1 (by simp [hruns])

end Gol
