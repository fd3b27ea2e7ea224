import Gol.ProtocolRank

/-! The readings of a log's end. `isTerminal`, the dispatch phase and the harness read the same log by different rules.
They agree on a log that is built from events that fit it: a `RunStarted` where the dispatch takes it, a `RunCompleted`
only once the harness has started, and an authorized Complete together with its `RunCompleted`. -/

namespace Gol

/-- A run that started and has not ended. -/
def DispatchPhase.isStarted : DispatchPhase → Bool
  | .running | .waiting _ | .awaitingApproval _ | .paused | .recovering => true
  | _ => false

abbrev dispatchOf (spec : RunSpec) (log : List EventPayload) : DispatchPhase := (foldAll spec log).dispatch

theorem dispatchOf_snoc (spec : RunSpec) (log : List EventPayload) (payload : EventPayload) :
    dispatchOf spec (log ++ [payload]) = reduceDispatch (dispatchOf spec log) payload := by
  simp [dispatchOf, foldStep]

theorem fold_dispatch (spec : RunSpec) (events : List Event) :
    (fold spec events).dispatch = dispatchOf spec (payloads events) := rfl

/-! ### The dispatch phase -/

theorem reduceDispatch_isTerminal {phase : DispatchPhase} {payload : EventPayload} (h : phase.isTerminal = false)
    (hpayload : isTerminal payload = false) : (reduceDispatch phase payload).isTerminal = false := by
  cases payload with
  | runCompleted | runFailed | runCancelled | runExpired => simp [isTerminal] at hpayload
  | _ =>
      cases phase with
      | completed | failed | cancelled | expired => simp [DispatchPhase.isTerminal] at h
      | _ => rfl

theorem reduceDispatch_isStarted {phase : DispatchPhase} {payload : EventPayload} (h : phase.isStarted = true)
    (hpayload : isTerminal payload = false) : (reduceDispatch phase payload).isStarted = true := by
  cases payload with
  | runCompleted | runFailed | runCancelled | runExpired => simp [isTerminal] at hpayload
  | _ =>
      cases phase with
      | running | waiting | awaitingApproval | paused | recovering => rfl
      | _ => simp [DispatchPhase.isStarted] at h

theorem reduceDispatch_ended {phase : DispatchPhase} {payload : EventPayload} (h : phase.isTerminal = false)
    (hpayload : isTerminal payload = true)
    (hstarted : ∀ outcome, payload = .runCompleted outcome → phase.isStarted = true) :
    (reduceDispatch phase payload).isTerminal = true := by
  cases payload with
  | runCompleted outcome =>
      have hphase := hstarted outcome rfl
      cases phase with
      | running | waiting | awaitingApproval | paused | recovering => rfl
      | _ => simp [DispatchPhase.isStarted] at hphase
  | runFailed | runCancelled | runExpired =>
      cases phase with
      | completed | failed | cancelled | expired => simp [DispatchPhase.isTerminal] at h
      | _ => rfl
  | _ => simp [isTerminal] at hpayload

theorem reduceDispatch_completed_iff {phase : DispatchPhase} {payload : EventPayload} (h : phase.isTerminal = false)
    (hstarted : ∀ outcome, payload = .runCompleted outcome → phase.isStarted = true) (outcome : String) :
    reduceDispatch phase payload = .completed outcome ↔ payload = .runCompleted outcome := by
  cases payload with
  | runCompleted outcome' =>
      have hphase := hstarted outcome' rfl
      cases phase with
      | running | waiting | awaitingApproval | paused | recovering => simp [reduceDispatch, DispatchPhase.isTerminal]
      | _ => simp [DispatchPhase.isStarted] at hphase
  | _ =>
      cases phase with
      | completed | failed | cancelled | expired => simp [DispatchPhase.isTerminal] at h
      | _ => simp [reduceDispatch, DispatchPhase.isTerminal]

/-! ### The harness -/

/-- The dispatch phases that go with a harness that ended. -/
def HarnessState.EndsAs : HarnessState → DispatchPhase → Prop
  | .completed _, phase => ∃ outcome, phase = .completed outcome
  | .failed _ _, phase => (∃ cls message, phase = .failed cls message) ∨ phase = .expired
  | .cancelled, phase => phase = .cancelled
  | _, _ => True

theorem HarnessState.EndsAs.terminal {state : HarnessState} {phase : DispatchPhase} (h : state.EndsAs phase)
    (hstate : state.isTerminal = true) : phase.isTerminal = true := by
  cases state with
  | completed outcome =>
      obtain ⟨_, rfl⟩ := h
      rfl
  | failed cls message =>
      rcases h with ⟨_, _, rfl⟩ | rfl <;> rfl
  | cancelled =>
      obtain rfl := h
      rfl
  | _ => simp [isTerminal] at hstate

theorem HarnessState.endsAs_of_open {state : HarnessState} (phase : DispatchPhase) (h : state.isTerminal = false) :
    state.EndsAs phase := by
  cases state with
  | completed | failed | cancelled => simp [isTerminal] at h
  | _ => trivial

/-- A harness that started does not go back. -/
theorem reduce_idle {state : HarnessState} {payload : EventPayload} {spec : RunSpec}
    (h : (reduce state payload spec).1 = .idle) : state = .idle ∧ payload ≠ .runStarted := by
  have hstate : state = .idle := by
    rcases reduce_moves state payload spec with hsame | hmoves
    · exact hsame.symm.trans h
    · rw [h] at hmoves
      cases hmoves with
      | finish _ hended => simp [HarnessState.isTerminal] at hended
  refine ⟨hstate, ?_⟩
  rintro rfl
  simp [hstate, reduce, HarnessState.isTerminal] at h

/-- The harness is idle just as long as its log has not started it. -/
theorem harnessOf_idle_iff (spec : RunSpec) (log : List EventPayload) :
    harnessOf spec log = .idle ↔ .runStarted ∉ log := by
  refine ⟨fun h => ?_, harnessOf_of_not_started⟩
  induction log using List.reverseRecOn with
  | nil => simp
  | append_singleton log payload ih =>
      rw [harnessOf_snoc] at h
      obtain ⟨hidle, hpayload⟩ := reduce_idle h
      simp [ih hidle, Ne.symm hpayload]

/-- What ends a harness ends the dispatch in the same way. -/
theorem reduce_endsAs {state : HarnessState} {phase : DispatchPhase} {payload : EventPayload} {spec : RunSpec}
    (hstate : state.isTerminal = false) (hphase : phase.isTerminal = false)
    (hstarted : ∀ outcome, payload = .runCompleted outcome → phase.isStarted = true)
    (hcomplete : ∀ outcome, payload ≠ .effectAuthorized (.complete outcome)) :
    (reduce state payload spec).1.EndsAs (reduceDispatch phase payload) := by
  by_cases hended : (reduce state payload spec).1.isTerminal = true
  · rcases reduce_isTerminal hended with hbefore | hpayload | ⟨outcome, rfl⟩
    · simp [hstate] at hbefore
    · cases payload with
      | runCompleted outcome =>
          have hcompleted := (reduceDispatch_completed_iff hphase hstarted outcome).mpr rfl
          cases state with
          | running => exact ⟨outcome, hcompleted⟩
          | completed | failed | cancelled => simp [HarnessState.isTerminal] at hstate
          | _ => trivial
      | runFailed cls message =>
          have hfailed : reduceDispatch phase (.runFailed cls message) = .failed cls message := by
            cases phase with
            | completed | failed | cancelled | expired => simp [DispatchPhase.isTerminal] at hphase
            | _ => rfl
          rw [hfailed]
          cases state with
          | running | waitingForTool | waitingForMessage => exact .inl ⟨cls, message, rfl⟩
          | completed | failed | cancelled => simp [HarnessState.isTerminal] at hstate
          | idle => trivial
      | runCancelled =>
          have hcancelled : reduceDispatch phase .runCancelled = .cancelled := by
            cases phase with
            | completed | failed | cancelled | expired => simp [DispatchPhase.isTerminal] at hphase
            | _ => rfl
          rw [hcancelled]
          cases state with
          | running | waitingForTool | waitingForMessage => rfl
          | completed | failed | cancelled => simp [HarnessState.isTerminal] at hstate
          | idle => trivial
      | runExpired =>
          have hexpired : reduceDispatch phase .runExpired = .expired := by
            cases phase with
            | completed | failed | cancelled | expired => simp [DispatchPhase.isTerminal] at hphase
            | _ => rfl
          rw [hexpired]
          cases state with
          | running | waitingForTool | waitingForMessage => exact .inr rfl
          | completed | failed | cancelled => simp [HarnessState.isTerminal] at hstate
          | idle => trivial
      | _ => simp [isTerminal] at hpayload
    · exact absurd rfl (hcomplete outcome)
  · exact HarnessState.endsAs_of_open _ (by simpa using hended)

/-! ### Logs whose readings agree -/

/-- The three readings of a log agree on its end. -/
structure Agrees (spec : RunSpec) (log : List EventPayload) : Prop where
  ended : log.any isTerminal = (dispatchOf spec log).isTerminal
  completed : ∀ outcome, dispatchOf spec log = .completed outcome ↔ log.getLast? = some (.runCompleted outcome)
  harness : (harnessOf spec log).EndsAs (dispatchOf spec log)
  started : harnessOf spec log ≠ .idle → (dispatchOf spec log).isStarted = true ∨
    (dispatchOf spec log).isTerminal = true

/-- Payloads that a writer may add to a log, in this order. -/
inductive Fits (spec : RunSpec) : List EventPayload → List EventPayload → Prop
  | done (log : List EventPayload) : Fits spec log []
  | completes {log : List EventPayload} (outcome : String) (hstarted : .runStarted ∈ log) :
      Fits spec log [.effectAuthorized (.complete outcome), .runCompleted outcome]
  | next {log rest : List EventPayload} {payload : EventPayload}
      (hcomplete : ∀ outcome, payload ≠ .effectAuthorized (.complete outcome))
      (hstart : payload = .runStarted →
        .runStarted ∈ log ∨ dispatchOf spec log = .created ∨ dispatchOf spec log = .starting)
      (hcompleted : ∀ outcome, payload = .runCompleted outcome → .runStarted ∈ log)
      (hlast : isTerminal payload = true → rest = []) (hrest : Fits spec (log ++ [payload]) rest) :
      Fits spec log (payload :: rest)

theorem agrees_nil (spec : RunSpec) : Agrees spec [] where
  ended := rfl
  completed outcome := by simp [dispatchOf, FoldState.init]
  harness := trivial
  started h := absurd rfl h

namespace Agrees

variable {spec : RunSpec} {log : List EventPayload}

theorem dispatch_open (h : Agrees spec log) (hopen : log.any isTerminal = false) :
    (dispatchOf spec log).isTerminal = false := h.ended ▸ hopen

theorem harness_open (h : Agrees spec log) (hopen : log.any isTerminal = false) :
    (harnessOf spec log).isTerminal = false := by
  by_contra hended
  have hterminal := h.harness.terminal (by simpa using hended)
  simp [h.dispatch_open hopen] at hterminal

theorem isStarted (h : Agrees spec log) (hopen : log.any isTerminal = false) (hstarted : .runStarted ∈ log) :
    (dispatchOf spec log).isStarted = true := by
  have hharness : harnessOf spec log ≠ .idle := fun hidle => (harnessOf_idle_iff spec log).mp hidle hstarted
  exact (h.started hharness).resolve_right (by simp [h.dispatch_open hopen])

/-- A run whose dispatch has neither started nor ended records no start. -/
theorem unstarted (h : Agrees spec log) (hphase : (dispatchOf spec log).isStarted = false)
    (hopen : (dispatchOf spec log).isTerminal = false) : .runStarted ∉ log := by
  intro hstarted
  have hrunning := h.isStarted (h.ended.trans hopen) hstarted
  simp [hphase] at hrunning

/-- One event that fits keeps the readings in agreement. -/
theorem snoc (h : Agrees spec log) (hopen : log.any isTerminal = false) {payload : EventPayload}
    (hcomplete : ∀ outcome, payload ≠ .effectAuthorized (.complete outcome))
    (hstart : payload = .runStarted →
      .runStarted ∈ log ∨ dispatchOf spec log = .created ∨ dispatchOf spec log = .starting)
    (hcompleted : ∀ outcome, payload = .runCompleted outcome → .runStarted ∈ log) : Agrees spec (log ++ [payload]) := by
  have hphase := h.dispatch_open hopen
  have hstarted : ∀ outcome, payload = .runCompleted outcome → (dispatchOf spec log).isStarted = true :=
    fun outcome heq => h.isStarted hopen (hcompleted outcome heq)
  refine ⟨?_, fun outcome => ?_, ?_, ?_⟩
  · rw [dispatchOf_snoc, List.any_append, hopen]
    by_cases hend : isTerminal payload = true
    · simp [hend, reduceDispatch_ended hphase hend hstarted]
    · have hend : isTerminal payload = false := by simpa using hend
      simp [hend, reduceDispatch_isTerminal hphase hend]
  · rw [dispatchOf_snoc, reduceDispatch_completed_iff hphase hstarted, List.getLast?_concat, Option.some.injEq]
  · rw [dispatchOf_snoc, harnessOf_snoc]
    exact reduce_endsAs (h.harness_open hopen) hphase hstarted hcomplete
  · rw [Ne, harnessOf_idle_iff, not_not, dispatchOf_snoc]
    intro hmem
    by_cases hend : isTerminal payload = true
    · exact .inr (reduceDispatch_ended hphase hend hstarted)
    · have hend : isTerminal payload = false := by simpa using hend
      left
      by_cases hbefore : .runStarted ∈ log
      · exact reduceDispatch_isStarted (h.isStarted hopen hbefore) hend
      · obtain rfl : payload = .runStarted := by simpa [hbefore, eq_comm] using hmem
        rcases (hstart rfl).resolve_left hbefore with hcreated | hstarting
        · rw [hcreated]
          rfl
        · rw [hstarting]
          rfl

/-- Payloads that fit keep the readings in agreement. -/
theorem append (h : Agrees spec log) (hopen : log.any isTerminal = false) {batch : List EventPayload}
    (hfits : Fits spec log batch) : Agrees spec (log ++ batch) := by
  induction hfits with
  | done log => simpa using h
  | @completes log outcome hstarted =>
      have hphase := h.dispatch_open hopen
      have hrunning := h.isStarted hopen hstarted
      have hauthorized : dispatchOf spec (log ++ [.effectAuthorized (.complete outcome)]) = dispatchOf spec log := by
        rw [dispatchOf_snoc]
        cases dispatchOf spec log <;> rfl
      have hdispatch : dispatchOf spec (log ++ [.effectAuthorized (.complete outcome), .runCompleted outcome]) =
          .completed outcome := by
        rw [List.append_cons, dispatchOf_snoc, hauthorized]
        exact (reduceDispatch_completed_iff hphase (fun _ _ => hrunning) outcome).mpr rfl
      refine ⟨?_, fun outcome' => ?_, ?_, fun _ => .inr ?_⟩
      · simp [hdispatch, isTerminal, DispatchPhase.isTerminal]
      · rw [hdispatch, List.append_cons, List.getLast?_concat]
        simp
      · rw [hdispatch, List.append_cons, harnessOf_snoc, harnessOf_snoc]
        have hharness := h.harness_open hopen
        cases hlog : harnessOf spec log with
        | running step attempt answered => exact ⟨outcome, rfl⟩
        | completed | failed | cancelled => simp [hlog, HarnessState.isTerminal] at hharness
        | _ => trivial
      · rw [hdispatch]
        rfl
  | @next log rest payload hcomplete hstart hcompleted hlast hrest ih =>
      have hsnoc := h.snoc hopen hcomplete hstart hcompleted
      rw [List.append_cons]
      by_cases hend : isTerminal payload = true
      · rw [hlast hend, List.append_nil]
        exact hsnoc
      · exact ih hsnoc (by simp [hopen, hend])

end Agrees

end Gol
