import Gol.HarnessReadings
import Gol.ServerTurns
import Gol.ServerTail

/-! The logs the server's writers build. A log read between two accepted appends ends at its terminal event, its
readings agree, and its dispatch is at rest: past `Created` and on no rung of the scheduling ladder but its last. -/

namespace Gol
open Library Driver

/-- The phases a stored log is read in. -/
def DispatchPhase.atRest : DispatchPhase → Bool
  | .created | .scheduled | .provisioning => false
  | _ => true

structure Sane (spec : RunSpec) (events : List Event) : Prop where
  ends : EndsAtTerminal events
  agrees : Agrees spec (payloads events)
  rest : (dispatchOf spec (payloads events)).atRest = true

/-- What ends a run whatever its log is, or answers an ask. -/
def isNote : EventPayload → Bool
  | .runFailed _ _ | .runCancelled | .messageReceived _ _ _ _ _ | .askTimedOut _ | .userAnswered _ _ => true
  | _ => false

/-- What the server's writers may add to a log. -/
inductive Written (spec : RunSpec) (log batch : List Event) : Prop
  | note (payload : EventPayload) (hnote : isNote payload = true) (hbatch : payloads batch = [payload])
  | scheduled (hqueued : (fold spec log).dispatch = .queued)
      (hbatch : payloads batch = [.runScheduled, .runProvisioning, .runStarting])
  | begun (hstarting : (fold spec log).dispatch = .starting) (hbatch : payloads batch = [.runStarted])
  | completed (hstarted : .runStarted ∈ payloads log) (message : ModelMessage) (usage : Option Usage) (text : String)
      (hbatch : payloads batch = [.modelResponded message usage, .runCompleted text])
  | driven (hends : EndsAtTerminal (log ++ batch)) (hagrees : Agrees spec (payloads (log ++ batch)))
      (hdriven : ∀ payload ∈ payloads batch, isDriven payload = true)

/-! ### The dispatch at rest -/

theorem reduceDispatch_atRest {phase : DispatchPhase} {payload : EventPayload} (h : phase.atRest = true)
    (hpayload : payload ≠ .runScheduled) : (reduceDispatch phase payload).atRest = true := by
  cases phase with
  | created | scheduled | provisioning => simp [DispatchPhase.atRest] at h
  | queued =>
      cases payload with
      | runScheduled => exact absurd rfl hpayload
      | _ => rfl
  | _ => cases payload <;> rfl

theorem dispatchOf_atRest {spec : RunSpec} {log : List EventPayload} (h : (dispatchOf spec log).atRest = true)
    {batch : List EventPayload} (hbatch : .runScheduled ∉ batch) : (dispatchOf spec (log ++ batch)).atRest = true := by
  induction batch using List.reverseRecOn with
  | nil => simpa using h
  | append_singleton batch payload ih =>
      simp only [List.mem_append, List.mem_singleton, not_or] at hbatch
      rw [← List.append_assoc, dispatchOf_snoc]
      exact reduceDispatch_atRest (ih hbatch.1) (Ne.symm hbatch.2)

/-- A dispatch is started only by a `RunStarted`. -/
theorem reduceDispatch_starts {phase : DispatchPhase} {payload : EventPayload}
    (h : (reduceDispatch phase payload).isStarted = true) : phase.isStarted = true ∨ payload = .runStarted := by
  cases phase with
  | running | waiting | awaitingApproval | paused | recovering => exact .inl rfl
  | completed | failed | cancelled | expired =>
      simp [reduceDispatch, DispatchPhase.isTerminal, DispatchPhase.isStarted] at h
  | _ =>
      cases payload with
      | runStarted => exact .inr rfl
      | _ => simp [reduceDispatch, DispatchPhase.isTerminal, DispatchPhase.isStarted] at h

theorem mem_runStarted_of_isStarted {spec : RunSpec} {log : List EventPayload}
    (h : (dispatchOf spec log).isStarted = true) : .runStarted ∈ log := by
  induction log using List.reverseRecOn with
  | nil => simp [dispatchOf, FoldState.init, DispatchPhase.isStarted] at h
  | append_singleton log payload ih =>
      rw [dispatchOf_snoc] at h
      rcases reduceDispatch_starts h with hbefore | rfl
      · exact List.mem_append_left _ (ih hbefore)
      · simp

namespace Sane

variable {spec : RunSpec} {log batch : List Event}

/-- An open log that has not started is queued, or waits at the end of the ladder. -/
theorem unstarted (h : Sane spec log) (hopen : hasEnded log = false) (hnot : .runStarted ∉ payloads log) :
    (fold spec log).dispatch = .queued ∨ (fold spec log).dispatch = .starting := by
  have hrest := h.rest
  have hopen' := h.agrees.dispatch_open (by rwa [hasEnded_eq] at hopen)
  have hstarted : (dispatchOf spec (payloads log)).isStarted = false := by
    rw [Bool.eq_false_iff]
    exact fun hstarted => hnot (mem_runStarted_of_isStarted hstarted)
  rw [fold_dispatch]
  cases hphase : dispatchOf spec (payloads log) with
  | queued => exact .inl rfl
  | starting => exact .inr rfl
  | created | scheduled | provisioning => simp [hphase, DispatchPhase.atRest] at hrest
  | running | waiting | awaitingApproval | paused | recovering => simp [hphase, DispatchPhase.isStarted] at hstarted
  | completed | failed | cancelled | expired => simp [hphase, DispatchPhase.isTerminal] at hopen'

/-- A batch that fits, one event of it after another. -/
theorem fits (h : Sane spec log) (hopen : hasEnded log = false) (hends : EndsAtTerminal (log ++ batch))
    (hfits : Fits spec (payloads log) (payloads batch)) (hrest : .runScheduled ∉ payloads batch) :
    Sane spec (log ++ batch) where
  ends := hends
  agrees := by
    rw [payloads_append]
    exact h.agrees.append (by rwa [hasEnded_eq] at hopen) hfits
  rest := by
    rw [payloads_append]
    exact dispatchOf_atRest h.rest hrest

theorem note (h : Sane spec log) (hopen : hasEnded log = false) {event : Event} (hnote : isNote event.payload = true) :
    Sane spec (log ++ [event]) := by
  have hplain : Plain event.payload := by
    refine ⟨fun heq => ?_, fun outcome heq => ?_, fun outcome heq => ?_⟩ <;> simp [heq, isNote] at hnote
  refine h.fits hopen (endsOnce_snoc _ _ hopen) (.plain hplain (fun _ => rfl) (.done _)) ?_
  intro hmem
  have heq : event.payload = .runScheduled := by simpa [payloads, eq_comm] using hmem
  simp [heq, isNote] at hnote

/-- The ladder takes a queued log to its last rung. -/
theorem scheduled (h : Sane spec log) (hopen : hasEnded log = false) (hqueued : (fold spec log).dispatch = .queued)
    (hbatch : payloads batch = [.runScheduled, .runProvisioning, .runStarting]) :
    Sane spec (log ++ batch) ∧ (fold spec (log ++ batch)).dispatch = .starting := by
  rw [fold_dispatch] at hqueued ⊢
  have hdispatch : dispatchOf spec (payloads log ++ [.runScheduled, .runProvisioning, .runStarting]) = .starting := by
    rw [List.append_cons, List.append_cons, dispatchOf_snoc, dispatchOf_snoc, dispatchOf_snoc, hqueued]
    rfl
  have hended : hasEnded (log ++ batch) = false := by
    rw [hasEnded_append, hopen, hasEnded_eq, hbatch]
    rfl
  have hfits : Fits spec (payloads log) (payloads batch) := by
    rw [hbatch]
    exact fits_of_plain _ _ (by simp [Plain]) (endsOnce_of_none rfl)
  rw [payloads_append, hbatch]
  refine ⟨⟨endsAtTerminal_of_open hended, ?_, ?_⟩, hdispatch⟩
  · rw [payloads_append]
    exact h.agrees.append (by rwa [hasEnded_eq] at hopen) hfits
  · rw [payloads_append, hbatch, hdispatch]
    rfl

end Sane

/-- What a writer may add keeps a log sane. -/
theorem Written.sane {spec : RunSpec} {log batch : List Event} (hwritten : Written spec log batch) (h : Sane spec log)
    (hopen : hasEnded log = false) : Sane spec (log ++ batch) := by
  cases hwritten with
  | note payload hnote hbatch =>
      obtain ⟨event, rfl, rfl⟩ := List.map_eq_singleton_iff.mp hbatch
      exact h.note hopen hnote
  | scheduled hqueued hbatch => exact (h.scheduled hopen hqueued hbatch).1
  | begun hstarting hbatch =>
      obtain ⟨event, rfl, hevent⟩ := List.map_eq_singleton_iff.mp hbatch
      refine h.fits hopen (endsOnce_snoc _ _ hopen) ?_ (by simp [hbatch])
      rw [hbatch]
      exact .next (by simp) (fun _ => .inr (.inr hstarting)) (by simp) (by simp [isTerminal]) (.done _)
  | completed hstarted message usage text hbatch =>
      obtain ⟨responded, rest, rfl, hresponded, hrest⟩ := List.map_eq_cons_iff.mp hbatch
      obtain ⟨completed, rfl, hcompleted⟩ := List.map_eq_singleton_iff.mp hrest
      have hopen' : hasEnded (log ++ [responded]) = false := by simp [hopen, hresponded, isTerminal]
      have hends : EndsAtTerminal (log ++ [responded, completed]) := by
        rw [List.append_cons]
        exact endsOnce_snoc _ _ hopen'
      refine h.fits hopen hends ?_ (by simp [hbatch])
      rw [hbatch]
      refine .plain (by simp [Plain]) (by simp [isTerminal]) (.next (by simp) (by simp) ?_ (fun _ => rfl) (.done _))
      exact fun _ _ => List.mem_append_left _ hstarted
  | driven hends hagrees hdriven =>
      refine ⟨hends, hagrees, ?_⟩
      rw [payloads_append]
      exact dispatchOf_atRest h.rest fun hmem => by simpa [isDriven] using hdriven _ hmem

/-! ### Asks -/

theorem askState_snoc (events : List Event) (event : Event) (ask : MessageId) :
    askState (events ++ [event]) ask = askStep ask (askState events ask) event := by
  simp [askState, List.foldl_append]

/-- What leaves a harness waiting on an ask: the ask put, or anything but its answer. -/
theorem reduce_waits {state : HarnessState} {payload : EventPayload} {spec : RunSpec} {step attempt : UInt32}
    {ask : MessageId} (h : (reduce state payload spec).1 = .waitingForMessage step attempt ask) :
    (∃ toAgent, payload = .messageSent ask toAgent true) ∨ (∃ prompt, payload = .userAsked ask prompt) ∨
      (state = .waitingForMessage step attempt ask ∧
        (∀ id agent run body, payload ≠ .messageReceived id agent run body (some ask)) ∧
        payload ≠ .askTimedOut ask ∧ ∀ text, payload ≠ .userAnswered ask text) := by
  rcases reduce_moves state payload spec with hsame | hmoves
  · rw [h] at hsame
    subst hsame
    refine .inr (.inr ⟨rfl, fun id agent run body heq => ?_, fun heq => ?_, fun text heq => ?_⟩)
    · simp [heq, reduce, answerAsk, HarnessState.isTerminal] at h
    · simp [heq, reduce, answerAsk, HarnessState.isTerminal] at h
    · simp [heq, reduce, answerAsk, HarnessState.isTerminal] at h
  · rw [h] at hmoves
    cases hmoves with
    | ask =>
        cases payload with
        | messageSent messageId toAgent expectsReply =>
            cases expectsReply with
            | true =>
                obtain rfl : messageId = ask := by simpa [reduce, onAsked, HarnessState.isTerminal] using h
                exact .inl ⟨toAgent, rfl⟩
            | false => simp [reduce, HarnessState.isTerminal] at h
        | userAsked messageId prompt =>
            obtain rfl : messageId = ask := by simpa [reduce, onAsked, HarnessState.isTerminal] using h
            exact .inr (.inl ⟨prompt, rfl⟩)
        | messageReceived id agent run body replyTo =>
            cases replyTo <;> simp [reduce, answerAsk, HarnessState.isTerminal] at h
        | effectAuthorized effect =>
            simp only [reduce, HarnessState.isTerminal, onAuthorized, Bool.false_eq_true, ↓reduceIte] at h
            split at h
            · simp at h
            · cases effect <;> simp at h
        | _ => simp [reduce, answerAsk, onEnd, HarnessState.isTerminal] at h
    | finish _ hended => simp [HarnessState.isTerminal] at hended

/-- The ask a harness waits on is open in its log. -/
theorem askState_of_waiting {spec : RunSpec} {events : List Event} {step attempt : UInt32} {ask : MessageId}
    (h : harnessOf spec (payloads events) = .waitingForMessage step attempt ask) : askState events ask = .open := by
  induction events using List.reverseRecOn with
  | nil => simp [payloads, harnessOf, FoldState.init] at h
  | append_singleton events event ih =>
      rw [payloads_append, payloads, payloads, List.map_singleton, harnessOf_snoc] at h
      rw [askState_snoc, askStep]
      rcases reduce_waits h with ⟨toAgent, heq⟩ | ⟨prompt, heq⟩ | ⟨hstate, hreceived, htimedOut, hanswered⟩
      · simp [heq]
      · simp [heq]
      · have hopen := ih hstate
        split
        · split <;> simp [hopen]
        · split <;> simp [hopen]
        · next id agent run body replyTo heq =>
            have hne : replyTo ≠ ask := fun hreply => hreceived id agent run body (hreply ▸ heq)
            simp [hne, hopen]
        · next messageId heq =>
            have hne : messageId ≠ ask := fun hreply => htimedOut (hreply ▸ heq)
            simp [hne, hopen]
        · next messageId text heq =>
            have hne : messageId ≠ ask := fun hreply => hanswered text (hreply ▸ heq)
            simp [hne, hopen]
        · exact hopen

/-- What a producer stores. -/
theorem sane_queued (spec : RunSpec) (stamps : Nat → Stamp) : Sane spec (queuedEvents spec stamps) where
  ends := endsAtTerminal_queued spec stamps
  agrees := (agrees_nil spec).append rfl
    (fits_of_plain spec [] (by simp [systemEvent, Plain]) (endsOnce_of_none rfl))
  rest := rfl

/-- What a quick turn stores first. -/
theorem sane_open (spec : RunSpec) (stamps : Nat → Stamp) : Sane spec (openEvents spec stamps) := by
  have hcreated : Agrees spec [.runCreated] :=
    (agrees_nil spec).append rfl (fits_of_plain spec [] (by simp [Plain]) (endsOnce_of_none rfl))
  have hstarted : Agrees spec [.runCreated, .runStarted] :=
    hcreated.snoc rfl (by simp) (fun _ => .inr (.inl rfl)) (by simp)
  exact ⟨endsAtTerminal_of_open rfl,
    hstarted.snoc rfl (fun _ h => by cases h) (fun h => by cases h) (fun _ h => by cases h), rfl⟩

end Gol
