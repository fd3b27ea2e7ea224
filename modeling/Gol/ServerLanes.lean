import Gol.ServerCalls

/-! Queues that are alike in some of their runs: those stand on the same lists in the same order, with the same leases
and counts. A script for one of these runs answers alike queues the same and leaves them alike, and one for any other
run leaves the queue alike to itself. So do leases that run out, and `reap`. A claim takes the last run of the whole
queue, so one of these runs is claimed once the others behind it are. -/

namespace Gol

/-- The run that a script is for. A claim takes any, and a reap and the reads are for all. -/
def QueueCall.run? : QueueCall → Option RunId
  | .pend id | .push id | .pushOnce id _ | .queuedOrClaimed id | .unpend id _ | .start id _ | .release id _
  | .park id _ _ | .wake id _ | .renew id _ | .ack id _ => some id
  | .pendingFor _ | .claim _ | .reap | .parked => none

namespace RunQueue

/-- The queues are the same in the runs of `own`, but for what is pending: only the sweep reads that. -/
structure Alike (own : RunId → Bool) (q q' : RunQueue) : Prop where
  runs : q.runs.filter own = q'.runs.filter own
  processing : q.processing.filter own = q'.processing.filter own
  parked : ∀ id, own id = true → q.parked.lookup id = q'.parked.lookup id
  deliveries : ∀ id, own id = true → q.deliveries id = q'.deliveries id
  leases : ∀ id, own id = true → q.leases id = q'.leases id

variable {own : RunId → Bool} {q q' r r' : RunQueue} {id other : RunId}

namespace Alike

theorem refl (own : RunId → Bool) (q : RunQueue) : Alike own q q :=
  ⟨rfl, rfl, fun _ _ => rfl, fun _ _ => rfl, fun _ _ => rfl⟩

theorem symm (h : Alike own q q') : Alike own q' q :=
  ⟨h.runs.symm, h.processing.symm, fun id hid => (h.parked id hid).symm, fun id hid => (h.deliveries id hid).symm,
    fun id hid => (h.leases id hid).symm⟩

theorem trans (h : Alike own q q') (h' : Alike own q' r) : Alike own q r :=
  ⟨h.runs.trans h'.runs, h.processing.trans h'.processing, fun id hid => (h.parked id hid).trans (h'.parked id hid),
    fun id hid => (h.deliveries id hid).trans (h'.deliveries id hid),
    fun id hid => (h.leases id hid).trans (h'.leases id hid)⟩

end Alike

/-! ### Lists and maps -/

theorem ne_of_own (hother : own other = true) (hid : own id = false) : other ≠ id := by
  rintro rfl
  rw [hid] at hother
  cases hother

theorem filter_cons_other (hid : own id = false) (l : List RunId) : (id :: l).filter own = l.filter own :=
  List.filter_cons_of_neg (by rw [hid]; exact Bool.false_ne_true)

theorem filter_erase_other (hid : own id = false) (l : List RunId) : (l.erase id).filter own = l.filter own := by
  rw [← List.erase_filter, List.erase_of_not_mem]
  simp [hid]

theorem filter_cons_eq {l l' : List RunId} (h : l.filter own = l'.filter own) (id : RunId) :
    (id :: l).filter own = (id :: l').filter own := by
  rw [List.filter_cons, List.filter_cons, h]

theorem filter_erase_eq {l l' : List RunId} (h : l.filter own = l'.filter own) (id : RunId) :
    (l.erase id).filter own = (l'.erase id).filter own := by
  rw [← List.erase_filter, ← List.erase_filter, h]

theorem lookup_filter_ne {β : Type} (l : List (RunId × β)) (id other : RunId) :
    (l.filter fun entry => entry.1 ≠ id).lookup other = if other = id then none else l.lookup other := by
  induction l with
  | nil => simp
  | cons entry rest ih =>
      rw [List.filter_cons, List.lookup_cons]
      by_cases hid : entry.1 = id
      · simp only [hid, ne_eq, not_true_eq_false, decide_false, Bool.false_eq_true, if_false]
        rw [ih]
        by_cases hother : other = id
        · simp [hother]
        · simp [hother, beq_false_of_ne hother]
      · simp only [hid, ne_eq, not_false_eq_true, decide_true, if_true]
        rw [List.lookup_cons, ih]
        by_cases hother : other = id
        · simp [hother, beq_false_of_ne (Ne.symm hid)]
        · simp [hother]

theorem update_eq {β : Type} {f g : RunId → β} (h : ∀ other, own other = true → f other = g other)
    (id : RunId) (value : β) :
    ∀ other, own other = true → Function.update f id value other = Function.update g id value other := by
  intro other hother
  simp only [Function.update_apply, h other hother]

theorem update_other {β : Type} (hid : own id = false) (f : RunId → β) (value : β) :
    ∀ other, own other = true → f other = Function.update f id value other :=
  fun _ hother => (Function.update_of_ne (ne_of_own hother hid) _ _).symm

/-! ### Scripts for one run -/

theorem alike_unpend (own : RunId → Bool) (q : RunQueue) (id : RunId) : Alike own q (q.unpend id) :=
  ⟨rfl, rfl, fun _ _ => rfl, fun _ _ => rfl, fun _ _ => rfl⟩

theorem alike_pend (own : RunId → Bool) (q : RunQueue) (now : Nat) (id : RunId) : Alike own q (q.pend now id) := by
  unfold pend
  split
  · exact .refl own q
  · exact ⟨rfl, rfl, fun _ _ => rfl, fun _ _ => rfl, fun _ _ => rfl⟩

namespace Alike

theorem push (h : Alike own q q') (id : RunId) : Alike own (q.push id) (q'.push id) :=
  ⟨filter_cons_eq h.runs id, h.processing, h.parked, h.deliveries, h.leases⟩

theorem queuedOrClaimed (h : Alike own q q') (hid : own id = true) : q.queuedOrClaimed id = q'.queuedOrClaimed id := by
  have hmem : ∀ {l l' : List RunId}, l.filter own = l'.filter own → (id ∈ l ↔ id ∈ l') := by
    intro l l' heq
    have hiff : id ∈ l.filter own ↔ id ∈ l'.filter own := heq ▸ Iff.rfl
    simpa [hid] using hiff
  simp only [RunQueue.queuedOrClaimed, hmem h.runs, hmem h.processing]

/-- Where a run was leased before, and is queued or processed no more. -/
theorem freed (h : Alike own q q') (id : RunId) : Alike own
    { q with processing := q.processing.erase id, leases := Function.update q.leases id none }
    { q' with processing := q'.processing.erase id, leases := Function.update q'.leases id none } :=
  ⟨h.runs, filter_erase_eq h.processing id, h.parked, h.deliveries, update_eq h.leases id none⟩

theorem release (h : Alike own q q') (hid : own id = true) (token : Token) :
    Alike own (q.release id token) (q'.release id token) := by
  unfold RunQueue.release
  rw [h.leases id hid]
  split
  · exact ⟨filter_cons_eq h.runs id, (h.freed id).processing, h.parked, h.deliveries, (h.freed id).leases⟩
  · exact h

theorem park (h : Alike own q q') (hid : own id = true) (token : Token) (ask : MessageId) :
    (q.park id token ask).1 = (q'.park id token ask).1 ∧
      Alike own (q.park id token ask).2 (q'.park id token ask).2 := by
  unfold RunQueue.park
  rw [h.leases id hid]
  split
  · refine ⟨rfl, h.runs, (h.freed id).processing, fun other hother => ?_, update_eq h.deliveries id 0,
      (h.freed id).leases⟩
    simp only [List.lookup_cons, lookup_filter_ne, h.parked other hother]
  · exact ⟨rfl, h⟩

theorem wake (h : Alike own q q') (hid : own id = true) (ask : MessageId) :
    (q.wake id ask).1 = (q'.wake id ask).1 ∧ Alike own (q.wake id ask).2 (q'.wake id ask).2 := by
  unfold RunQueue.wake
  rw [h.parked id hid]
  split
  · refine ⟨rfl, filter_cons_eq h.runs id, h.processing, fun other hother => ?_, h.deliveries, h.leases⟩
    simp only [lookup_filter_ne, h.parked other hother]
  · exact ⟨rfl, h⟩

theorem ack (h : Alike own q q') (hid : own id = true) (token : Token) :
    Alike own (q.ack id token) (q'.ack id token) := by
  refine ⟨h.runs, (h.freed id).processing, h.parked, update_eq h.deliveries id 0, ?_⟩
  simp only [RunQueue.ack, h.leases id hid]
  split
  · exact (h.freed id).leases
  · exact h.leases

/-- A script for one of the runs answers alike queues the same, and leaves them alike. -/
theorem exec (h : Alike own q q') {c : QueueCall} (hc : c.run? = some id) (hid : own id = true) (now now' : Nat) :
    (q.exec now c).1 = (q'.exec now' c).1 ∧ Alike own (q.exec now c).2 (q'.exec now' c).2 := by
  cases c with
  | pend => exact ⟨rfl, ((alike_pend own q now _).symm.trans h).trans (alike_pend own q' now' _)⟩
  | unpend => exact ⟨rfl, ((alike_unpend own q _).symm.trans h).trans (alike_unpend own q' _)⟩
  | push run => exact ⟨rfl, h.push run⟩
  | pushOnce run gate =>
      cases hc
      simp only [RunQueue.exec, RunQueue.pushOnce, h.queuedOrClaimed hid]
      split
      · exact ⟨rfl, ((alike_unpend own q _).symm.trans h).trans (alike_unpend own q' _)⟩
      · exact ⟨rfl, h.push _⟩
  | queuedOrClaimed run =>
      cases hc
      exact ⟨h.queuedOrClaimed hid, h⟩
  | start run token =>
      cases hc
      simp only [RunQueue.exec, RunQueue.start, h.deliveries _ hid]
      exact ⟨rfl, h.runs, h.processing, h.parked, update_eq h.deliveries _ _, h.leases⟩
  | release run token =>
      cases hc
      exact ⟨rfl, h.release hid token⟩
  | park run token ask =>
      cases hc
      exact h.park hid token ask
  | wake run ask =>
      cases hc
      exact h.wake hid ask
  | renew run token =>
      cases hc
      refine ⟨?_, h⟩
      show q.renew _ token = q'.renew _ token
      simp only [RunQueue.renew, h.leases _ hid]
  | ack run token =>
      cases hc
      exact ⟨rfl, h.ack hid token⟩
  | pendingFor | claim | reap | parked => cases hc

end Alike

/-- A script for any other run leaves the queue alike to itself. -/
theorem alike_exec {c : QueueCall} (hc : c.run? = some id) (hid : own id = false) (q : RunQueue) (now : Nat) :
    Alike own q (q.exec now c).2 := by
  have hparked : ∀ (l : List (RunId × MessageId)) other, own other = true →
      l.lookup other = (l.filter fun entry => entry.1 ≠ id).lookup other := by
    intro l other hother
    rw [lookup_filter_ne, if_neg (ne_of_own hother hid)]
  have hpush : ∀ q : RunQueue, Alike own q (q.push id) := fun q =>
    ⟨(filter_cons_other hid _).symm, rfl, fun _ _ => rfl, fun _ _ => rfl, fun _ _ => rfl⟩
  have hfreed : q.processing.filter own = (q.processing.erase id).filter own := (filter_erase_other hid _).symm
  cases c with
  | pend => exact alike_pend own q now _
  | unpend => exact alike_unpend own q _
  | push run =>
      cases hc
      exact hpush q
  | pushOnce run gate =>
      cases hc
      simp only [RunQueue.exec, pushOnce]
      split
      · exact alike_unpend own q _
      · exact hpush q
  | queuedOrClaimed | renew => exact .refl own q
  | start run token =>
      cases hc
      exact ⟨rfl, rfl, fun _ _ => rfl, update_other hid _ _, fun _ _ => rfl⟩
  | release run token =>
      cases hc
      simp only [RunQueue.exec, release]
      split
      · exact ⟨(filter_cons_other hid _).symm, hfreed, fun _ _ => rfl, fun _ _ => rfl, update_other hid _ _⟩
      · exact .refl own q
  | park run token ask =>
      cases hc
      simp only [RunQueue.exec, park]
      split
      · refine ⟨rfl, hfreed, fun other hother => ?_, update_other hid _ _, update_other hid _ _⟩
        rw [List.lookup_cons, beq_false_of_ne (ne_of_own hother hid)]
        exact hparked _ other hother
      · exact .refl own q
  | wake run ask =>
      cases hc
      simp only [RunQueue.exec, wake]
      split
      · exact ⟨(filter_cons_other hid _).symm, rfl, hparked _, fun _ _ => rfl, fun _ _ => rfl⟩
      · exact .refl own q
  | ack run token =>
      cases hc
      refine ⟨rfl, hfreed, fun _ _ => rfl, update_other hid _ _, ?_⟩
      simp only [RunQueue.exec, ack]
      split
      · exact update_other hid _ _
      · exact fun _ _ => rfl
  | pendingFor | claim | reap | parked => cases hc

/-! ### Leases that run out -/

theorem Alike.expire (h : Alike own q q') (id : RunId) : Alike own (q.expire id) (q'.expire id) :=
  ⟨h.runs, h.processing, h.parked, h.deliveries, update_eq h.leases id none⟩

/-- One of the runs is reaped from both queues, or from neither. -/
theorem Alike.reapOne (h : Alike own q q') (hid : own id = true) (reaped reaped' : List RunId) :
    Alike own (RunQueue.reapOne (reaped, q) id).2 (RunQueue.reapOne (reaped', q') id).2 := by
  simp only [RunQueue.reapOne, h.leases id hid]
  split
  · refine ⟨?_, (h.freed id).processing, h.parked, h.deliveries, h.leases⟩
    rw [List.filter_append, List.filter_append, h.runs]
  · exact h

theorem alike_reapOne (hid : own id = false) (reaped : List RunId) (q : RunQueue) :
    Alike own q (reapOne (reaped, q) id).2 := by
  simp only [reapOne]
  split
  · refine ⟨?_, (filter_erase_other hid _).symm, fun _ _ => rfl, fun _ _ => rfl, fun _ _ => rfl⟩
    simp [hid]
  · exact .refl own q

/-- Going through a list, only the runs of `own` in it matter. -/
theorem Alike.reaps (h : Alike own q q') (l : List RunId) (reaped reaped' : List RunId) :
    Alike own (l.foldl RunQueue.reapOne (reaped, q)).2 ((l.filter own).foldl RunQueue.reapOne (reaped', q')).2 := by
  induction l generalizing q q' reaped reaped' with
  | nil => exact h
  | cons id rest ih =>
      rw [List.foldl_cons, List.filter_cons]
      cases hid : own id with
      | true => exact ih (h.reapOne hid reaped reaped') _ _
      | false => exact ih ((alike_reapOne hid reaped q).symm.trans h) _ _

theorem Alike.reap (h : Alike own q q') : Alike own q.reap.2 q'.reap.2 := by
  have hwhole := h.reaps q.processing [] []
  rw [h.processing] at hwhole
  exact hwhole.trans ((Alike.refl own q').reaps q'.processing [] []).symm

/-! ### Claims -/

theorem alike_claim (hid : own id = false) (hlast : q.runs.getLast? = some id) (token : Token) :
    Alike own q (q.claim token).2 := by
  obtain ⟨rest, hrest⟩ := List.getLast?_eq_some_iff.mp hlast
  have hruns : q.runs.filter own = q.runs.dropLast.filter own := by simp [hrest, hid]
  simp only [claim, hlast]
  split
  · refine ⟨hruns, ?_, fun _ _ => rfl, fun _ _ => rfl, fun _ _ => rfl⟩
    rw [List.erase_cons_head]
  · exact ⟨hruns, (filter_cons_other hid _).symm, fun _ _ => rfl, fun _ _ => rfl, update_other hid _ _⟩

/-- Claims of one of the runs where it is the last in both queues. -/
theorem Alike.claim (h : Alike own q q') (hid : own id = true) (hlast : q.runs.getLast? = some id)
    (hlast' : q'.runs.getLast? = some id) (token : Token) :
    (q.claim token).1 = (q'.claim token).1 ∧ Alike own (q.claim token).2 (q'.claim token).2 := by
  obtain ⟨rest, hrest⟩ := List.getLast?_eq_some_iff.mp hlast
  obtain ⟨rest', hrest'⟩ := List.getLast?_eq_some_iff.mp hlast'
  have hruns : q.runs.dropLast.filter own = q'.runs.dropLast.filter own := by
    have heq := h.runs
    rw [hrest, hrest', List.filter_append, List.filter_append] at heq
    rw [hrest, hrest', List.dropLast_concat, List.dropLast_concat]
    exact List.append_cancel_right heq
  simp only [RunQueue.claim, hlast, hlast', h.leases id hid]
  split
  · refine ⟨rfl, hruns, ?_, h.parked, h.deliveries, h.leases⟩
    rw [List.erase_cons_head, List.erase_cons_head]
    exact h.processing
  · exact ⟨rfl, hruns, filter_cons_eq h.processing id, h.parked, h.deliveries, update_eq h.leases id _⟩

/-- Claims of runs that are not of `own`, one after another. -/
inductive Claims (own : RunId → Bool) : RunQueue → RunQueue → Prop
  | refl (q : RunQueue) : Claims own q q
  | step {q r : RunQueue} {id : RunId} (hlast : q.runs.getLast? = some id) (hid : own id = false) (token : Token)
      (rest : Claims own (q.claim token).2 r) : Claims own q r

theorem Claims.alike (h : Claims own q r) : Alike own q r := by
  induction h with
  | refl q => exact .refl own q
  | step hlast hid token _ ih => exact (alike_claim hid hlast token).trans ih

theorem runs_claim (hlast : q.runs.getLast? = some id) (token : Token) : (q.claim token).2.runs = q.runs.dropLast := by
  simp only [claim, hlast]
  split <;> rfl

/-- Once the others behind it are claimed, the last of the runs of `own` is the next. -/
theorem claims_to (hlast : (q.runs.filter own).getLast? = some id) (token : Token) :
    ∃ r, Claims own q r ∧ r.runs.getLast? = some id := by
  generalize hlength : q.runs.length = n
  induction n generalizing q with
  | zero =>
      rw [List.length_eq_zero_iff.mp hlength] at hlast
      cases hlast
  | succ n ih =>
      obtain ⟨rest, last, hrest⟩ : ∃ rest last, q.runs = rest ++ [last] :=
        ⟨_, _, (List.dropLast_append_getLast (List.ne_nil_of_length_eq_add_one hlength)).symm⟩
      have hback : q.runs.getLast? = some last := List.getLast?_eq_some_iff.mpr ⟨rest, hrest⟩
      rw [hrest, List.filter_append] at hlast
      cases hown : own last with
      | true =>
          have heq : id = last := by simpa [hown, eq_comm] using hlast
          exact ⟨q, .refl q, heq ▸ hback⟩
      | false =>
          have hruns := runs_claim hback token
          rw [hrest, List.dropLast_concat] at hruns
          obtain ⟨r, hclaims, hr⟩ := ih (q := (q.claim token).2) (by simpa [hruns, hown] using hlast)
            (by simpa [hruns, hrest] using hlength)
          exact ⟨r, .step hback hown token hclaims, hr⟩

end RunQueue
end Gol
