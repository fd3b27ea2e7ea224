import Gol.HarnessBudget
import Gol.HarnessDecisions
import Gol.HarnessResume
import Gol.HarnessVerdicts
import Gol.ProtocolRank

/-! The pace of a run's log. Each counted decision had a step left, so the decisions stay within the run's steps; and
a step is answered only by a decision made in it, so the harness is never at a later step than the run has decided.
Whatever a decider is asked, it is asked at such a log, and an answered step that was not advanced is the run's last.
-/

namespace Gol
open Library

/-! ### The decisions counted -/

/-- Each decision that cost a step had one left. -/
def Afforded (spec : RunSpec) (log : List EventPayload) : Prop :=
  ∀ before effect, before ++ [.effectDecided effect] <+: log →
    (∀ outcome, effect = .complete outcome → (harnessOf spec before).isRunning = false) →
      (foldAll spec before).steps < spec.limits.maxSteps

theorem foldStep_steps_cases (spec : RunSpec) (s : FoldState) (payload : EventPayload) :
    (foldStep spec s payload).steps = s.steps ∨
    ∃ effect, payload = .effectDecided effect ∧ (∀ outcome, effect = .complete outcome → s.harness.isRunning = false) ∧
      (foldStep spec s payload).steps = s.steps + 1 := by
  by_cases hdecided : isDecided payload = true
  · cases payload with
    | effectDecided effect =>
        by_cases hcounted : ∀ outcome, effect = .complete outcome → s.harness.isRunning = false
        · exact .inr ⟨effect, rfl, hcounted, foldStep_steps_decided spec s hcounted⟩
        · refine .inl ?_
          push Not at hcounted
          obtain ⟨outcome, rfl, hrunning⟩ := hcounted
          simp [foldStep, FoldState.count, hrunning]
    | _ => cases hdecided
  · exact .inl (foldStep_steps spec s (Bool.eq_false_iff.mpr hdecided))

namespace Afforded

variable {spec : RunSpec} {log : List EventPayload} {payload : EventPayload}

theorem nil : Afforded spec [] := by
  intro before effect hcut
  simp at hcut

theorem cut {part : List EventPayload} (h : Afforded spec log) (hcut : part <+: log) : Afforded spec part :=
  fun before effect hbefore => h before effect (hbefore.trans hcut)

theorem snoc (h : Afforded spec log)
    (hroom : ∀ effect, payload = .effectDecided effect →
      (∀ outcome, effect = .complete outcome → (harnessOf spec log).isRunning = false) →
        (foldAll spec log).steps < spec.limits.maxSteps) : Afforded spec (log ++ [payload]) := by
  intro before effect hcut hcounted
  rcases List.prefix_concat_iff.mp hcut with heq | hbefore
  · obtain ⟨rfl, hlast⟩ := List.append_inj' heq rfl
    exact hroom effect (List.singleton_inj.mp hlast).symm hcounted
  · exact h before effect hbefore hcounted

theorem append (h : Afforded spec log) {added : List EventPayload}
    (hadded : ∀ payload ∈ added, isDecided payload = false) :
    Afforded spec (log ++ added) := by
  induction added using List.reverseRecOn with
  | nil => rwa [List.append_nil]
  | append_singleton added payload ih =>
      rw [← List.append_assoc]
      apply (ih fun other hother => hadded other (List.mem_append_left _ hother)).snoc
      rintro effect rfl
      exact absurd (hadded (.effectDecided effect) (by simp)) nofun

/-- A decision that costs a step has one, so the count of decisions neither passes the run's steps nor wraps. -/
theorem steps_le (h : Afforded spec log) : (foldAll spec log).steps ≤ spec.limits.maxSteps := by
  induction log using List.reverseRecOn with
  | nil => exact UInt32.zero_le
  | append_singleton log payload ih =>
      have hbefore := ih (h.cut (List.prefix_append _ _))
      rw [foldAll_snoc]
      rcases foldStep_steps_cases spec (foldAll spec log) payload with hsame | ⟨effect, rfl, hcounted, hsteps⟩
      · rwa [hsame]
      · have hlt := h log effect (List.prefix_refl _) hcounted
        rw [hsteps, UInt32.le_iff_toNat_le, toNat_succ_of_lt hlt]
        exact hlt

theorem steps_snoc (h : Afforded spec (log ++ [payload])) :
    (foldAll spec log).steps.toNat ≤ (foldAll spec (log ++ [payload])).steps.toNat := by
  rw [foldAll_snoc]
  rcases foldStep_steps_cases spec (foldAll spec log) payload with hsame | ⟨effect, rfl, hcounted, hsteps⟩
  · exact le_of_eq (congrArg UInt32.toNat hsame).symm
  · rw [hsteps, toNat_succ_of_lt (h log effect (List.prefix_refl _) hcounted)]
    exact Nat.le_succ _

end Afforded

/-! ### The steps decided -/

namespace HarnessState

/-- The harness's step, 0 while it is at none. -/
def step : HarnessState → Nat
  | .running step _ _ | .waitingForTool step _ _ _ | .waitingForMessage step _ _ => step.toNat
  | _ => 0

/-- The decisions that the harness state has taken, at the least: one for each step before its own, and one for its
own once an effect of that step is carried out. -/
def taken : HarnessState → Nat
  | .running step _ false => step.toNat - 1
  | state => state.step

variable {maxSteps : UInt32} {state next : HarnessState}

theorem taken_le_step (state : HarnessState) : state.taken ≤ state.step := by
  unfold taken
  split
  · exact Nat.sub_le _ _
  · exact le_refl _

theorem step_le_taken (state : HarnessState) : state.step ≤ state.taken + 1 := by
  unfold taken
  split
  · simp only [step]
    omega
  · exact Nat.le_succ _

theorem Moves.taken_le_step (h : Moves maxSteps state next) : next.taken ≤ state.step := by
  cases h with
  | start => exact Nat.zero_le _
  | advance hlt => simp [taken, step, toNat_succ_of_lt hlt]
  | retry hlt => exact Nat.sub_le _ _
  | finish hactive hended => cases next <;> first | exact Nat.zero_le _ | cases hended
  | call _ _ _ _ | ask _ | result | answer => exact le_refl _

/-- Only a call or an ask takes a decision. -/
theorem Moves.taken_cases (h : Moves maxSteps state next) : next.taken ≤ state.taken ∨
    ∃ step attempt, state = .running step attempt false ∧
      ((∃ name invocation, next = .waitingForTool step attempt name invocation) ∨
        ∃ ask, next = .waitingForMessage step attempt ask) := by
  cases h with
  | start => exact .inl (Nat.le_refl _)
  | advance hlt => exact .inl (by simp [taken, step, toNat_succ_of_lt hlt])
  | retry hlt => exact .inl (Nat.sub_le _ _)
  | finish hactive hended => exact .inl (by cases next <;> first | exact Nat.zero_le _ | cases hended)
  | result | answer => exact .inl (le_refl _)
  | call name invocation _ _ => exact .inr ⟨_, _, rfl, .inl ⟨name, invocation, rfl⟩⟩
  | ask messageId => exact .inr ⟨_, _, rfl, .inr ⟨messageId, rfl⟩⟩

end HarnessState

theorem reduce_taken_le_step (state : HarnessState) (payload : EventPayload) (spec : RunSpec) :
    (reduce state payload spec).1.taken ≤ state.step := by
  rcases reduce_moves state payload spec with hsame | hmoves
  · rw [hsame]
    exact state.taken_le_step
  · exact hmoves.taken_le_step

theorem reduce_not_waiting {payload : EventPayload} (hverdict : verdictOf payload = none)
    (hperformed : isPerformed payload = false) (step attempt : UInt32) (spec : RunSpec) :
    (reduce (.running step attempt false) payload spec).1.isRunning = true ∨
      (reduce (.running step attempt false) payload spec).1.isTerminal = true := by
  cases payload with
  | messageReceived messageId fromAgent fromRun body replyTo => cases replyTo <;> exact .inl rfl
  | runCompleted _ | runFailed _ _ | runCancelled | runExpired => exact .inr rfl
  | effectAuthorized _ | effectDenied _ _ => cases hverdict
  | toolResult _ _ _ _ _ | modelResponded _ _ | memoryRead _ _ _ | memoryWritten _ _ _ | childStarted _ _ _
  | delegateRefused _ _ | messageSent _ _ _ | messageRefused _ _ | userAsked _ _ | userAskRefused _ => cases hperformed
  | _ => exact .inl rfl

/-- An event that neither authorizes nor carries out an effect takes no decision. -/
theorem reduce_taken {payload : EventPayload} (hverdict : verdictOf payload = none)
    (hperformed : isPerformed payload = false) (state : HarnessState) (spec : RunSpec) :
    (reduce state payload spec).1.taken ≤ state.taken := by
  rcases reduce_moves state payload spec with hsame | hmoves
  · rw [hsame]
  · rcases hmoves.taken_cases with hle | ⟨step, attempt, rfl, hwaits⟩
    · exact hle
    · have hrunning := reduce_not_waiting hverdict hperformed step attempt spec
      rcases hwaits with ⟨name, invocation, heq⟩ | ⟨ask, heq⟩
      · rw [heq] at hrunning
        exact absurd hrunning (by simp [HarnessState.isRunning, HarnessState.isTerminal])
      · rw [heq] at hrunning
        exact absurd hrunning (by simp [HarnessState.isRunning, HarnessState.isTerminal])

/-- The log ends in an effect that is being carried out: decided, authorized, or its task started. -/
inductive UnderWay : List EventPayload → Prop
  | decided (earlier : List EventPayload) {effect : Effect} (heffect : ∀ outcome, effect ≠ .complete outcome) :
      UnderWay (earlier ++ [.effectDecided effect])
  | authorized (earlier : List EventPayload) {effect : Effect} (heffect : ∀ outcome, effect ≠ .complete outcome) :
      UnderWay (earlier ++ [.effectAuthorized effect])
  | started (earlier : List EventPayload) {effect : Effect} {task : EventPayload} (htask : effect.isTask task = true) :
      UnderWay (earlier ++ [.effectAuthorized effect, task])

theorem Performed.underWay {before : List EventPayload} {payload : EventPayload} (h : Performed before payload) :
    UnderWay before := by
  obtain ⟨earlier, effect, ⟨rfl, houtcome⟩ | ⟨task, rfl, htask, -⟩⟩ := h
  · refine .authorized earlier ?_
    rintro outcome rfl
    simp [Effect.isOutcome, Effect.isTask] at houtcome
  · exact .started earlier htask

theorem UnderWay.last {log : List EventPayload} {payload : EventPayload} (h : UnderWay (log ++ [payload])) :
    (∃ effect, payload = .effectDecided effect ∧ ∀ outcome, effect ≠ .complete outcome) ∨
    (∃ effect, payload = .effectAuthorized effect ∧ ∀ outcome, effect ≠ .complete outcome) ∨
    ∃ runId agentId limits, payload = .childStarted runId agentId limits := by
  generalize hends : log ++ [payload] = ends at h
  cases h with
  | decided earlier heffect =>
      obtain ⟨-, hlast⟩ := List.append_inj' hends rfl
      exact .inl ⟨_, List.singleton_inj.mp hlast, heffect⟩
  | authorized earlier heffect =>
      obtain ⟨-, hlast⟩ := List.append_inj' hends rfl
      exact .inr (.inl ⟨_, List.singleton_inj.mp hlast, heffect⟩)
  | @started earlier effect task htask =>
      have hends : log ++ [payload] = (earlier ++ [.effectAuthorized effect]) ++ [task] := by simpa using hends
      obtain ⟨-, hlast⟩ := List.append_inj' hends rfl
      obtain rfl := List.singleton_inj.mp hlast
      unfold Effect.isTask at htask
      split at htask
      · exact .inr (.inr ⟨_, _, _, rfl⟩)
      · cases htask

theorem reduce_authorized_step (state : HarnessState) (effect : Effect) (spec : RunSpec) :
    (reduce state (.effectAuthorized effect) spec).1.step ≤ state.step := by
  by_cases happlies : applicable state effect spec = true
  · cases state with
    | running step attempt answered =>
        cases effect <;> simp [reduce, onAuthorized, happlies, HarnessState.isTerminal, HarnessState.step]
    | _ => cases happlies
  · have hsame : (reduce state (.effectAuthorized effect) spec).1 = state := by
      rw [reduce]
      split
      · rfl
      · simp [onAuthorized, happlies]
    rw [hsame]

/-- A log's harness is not ahead of its decisions, and a step under way is among them. -/
structure Paced (spec : RunSpec) (log : List EventPayload) : Prop where
  taken : (harnessOf spec log).taken ≤ (foldAll spec log).steps.toNat
  underWay : UnderWay log → (harnessOf spec log).step ≤ (foldAll spec log).steps.toNat

namespace Paced

variable {spec : RunSpec} {log : List EventPayload} {payload : EventPayload} {effect : Effect}

theorem decided (h : Paced spec log) (hafforded : Afforded spec (log ++ [.effectDecided effect])) :
    Paced spec (log ++ [.effectDecided effect]) := by
  refine ⟨?_, fun hends => ?_⟩
  · rw [Driver.harnessOf_decided]
    exact h.taken.trans hafforded.steps_snoc
  · rcases hends.last with ⟨other, heq, heffect⟩ | ⟨other, heq, -⟩ | ⟨runId, agentId, limits, heq⟩
    · cases heq
      have hcounted : ∀ outcome, effect = .complete outcome → (harnessOf spec log).isRunning = false :=
        fun outcome heq => absurd heq (heffect outcome)
      have hlt := hafforded log effect List.prefix_rfl hcounted
      rw [Driver.harnessOf_decided, foldAll_snoc, foldStep_steps_decided spec _ hcounted, toNat_succ_of_lt hlt]
      exact (harnessOf spec log).step_le_taken.trans (Nat.succ_le_succ h.taken)
    · cases heq
    · cases heq

theorem performed (h : Paced spec log) (hafforded : Afforded spec (log ++ [payload]))
    (hpayload : isPerformed payload = true) (hperformed : Performed log payload) : Paced spec (log ++ [payload]) := by
  have hstep := (h.underWay hperformed.underWay).trans hafforded.steps_snoc
  refine ⟨?_, fun hends => ?_⟩
  · rw [harnessOf_snoc]
    exact (reduce_taken_le_step _ payload spec).trans hstep
  · rcases hends.last with ⟨other, rfl, -⟩ | ⟨other, rfl, -⟩ | ⟨runId, agentId, limits, rfl⟩
    · cases hpayload
    · cases hpayload
    · have hsame : (reduce (harnessOf spec log) (.childStarted runId agentId limits) spec).1 = harnessOf spec log := by
        unfold reduce
        split <;> rfl
      rw [harnessOf_snoc, hsame]
      exact hstep

theorem verdict (h : Paced spec (log ++ [.effectDecided effect]))
    (hafforded : Afforded spec (log ++ [.effectDecided effect] ++ [payload]))
    (hverdict : verdictOf payload = some effect) (hfollows : Follows spec (log ++ [.effectDecided effect]) payload) :
    Paced spec (log ++ [.effectDecided effect] ++ [payload]) := by
  have hsteps := hafforded.steps_snoc
  cases payload with
  | effectDenied other reason =>
      have hsame : (reduce (harnessOf spec (log ++ [.effectDecided effect])) (.effectDenied other reason) spec).1 =
          harnessOf spec (log ++ [.effectDecided effect]) := by
        unfold reduce
        split <;> rfl
      refine ⟨?_, fun hends => ?_⟩
      · rw [harnessOf_snoc, hsame]
        exact h.taken.trans hsteps
      · rcases hends.last with ⟨_, heq, -⟩ | ⟨_, heq, -⟩ | ⟨_, _, _, heq⟩ <;> cases heq
  | effectAuthorized other =>
      obtain rfl : other = effect := Option.some.inj hverdict
      by_cases hcomplete : ∃ outcome, other = .complete outcome
      · obtain ⟨outcome, rfl⟩ := hcomplete
        have hrunning := Driver.isRunning_of_applicable (hfollows.applies _ rfl)
        refine ⟨?_, fun hends => ?_⟩
        · rw [harnessOf_snoc, Driver.reduce_authorized_complete hrunning]
          exact Nat.zero_le _
        · rcases hends.last with ⟨_, heq, -⟩ | ⟨effect, heq, heffect⟩ | ⟨_, _, _, heq⟩
          · cases heq
          · cases heq
            exact absurd rfl (heffect outcome)
          · cases heq
      · have hstep := (h.underWay (.decided log fun outcome heq => hcomplete ⟨outcome, heq⟩)).trans hsteps
        refine ⟨?_, fun _ => ?_⟩
        · rw [harnessOf_snoc]
          exact (reduce_taken_le_step _ _ spec).trans hstep
        · rw [harnessOf_snoc]
          exact (reduce_authorized_step _ other spec).trans hstep
  | _ => cases hverdict

end Paced

theorem Ruled.paced {spec : RunSpec} {log : List EventPayload} (hruled : Ruled spec log)
    (hafforded : Afforded spec log) :
    Paced spec log := by
  induction log using List.reverseRecOn with
  | nil => exact ⟨Nat.zero_le _, fun _ => Nat.zero_le _⟩
  | append_singleton log payload ih =>
      have hcut : log <+: log ++ [payload] := List.prefix_append _ _
      have hpaced := ih (hruled.cut hcut) (hafforded.cut hcut)
      have hfollows := hruled log payload List.prefix_rfl
      cases hverdict : verdictOf payload with
      | some effect =>
          obtain ⟨earlier, rfl⟩ := hfollows.decided effect hverdict
          exact hpaced.verdict hafforded hverdict hfollows
      | none =>
          by_cases hperformed : isPerformed payload = true
          · exact hpaced.performed hafforded hperformed (hfollows.performed hperformed)
          by_cases hdecided : isDecided payload = true
          · cases payload with
            | effectDecided effect => exact hpaced.decided hafforded
            | _ => cases hdecided
          refine ⟨?_, fun hends => ?_⟩
          · rw [harnessOf_snoc]
            have hle := reduce_taken hverdict (Bool.eq_false_iff.mpr hperformed) (harnessOf spec log) spec
            exact (hle.trans hpaced.taken).trans hafforded.steps_snoc
          · rcases hends.last with ⟨other, rfl, -⟩ | ⟨other, rfl, -⟩ | ⟨runId, agentId, limits, rfl⟩
            · exact absurd rfl hdecided
            · cases hverdict
            · exact absurd rfl hperformed

/-! ### The driver in its loop -/

namespace Driver

theorem Batch.afforded {d : Driver} {call : Option (Sigma HarnessCall.Answer)} {added : List EventPayload}
    (h : d.Batch call added) (hd : Afforded d.spec d.log) : Afforded d.spec (d.log ++ added) := by
  have hdecide : ∀ effect, d.overBudget effect = false → Afforded d.spec (d.log ++ [.effectDecided effect]) := by
    intro effect hbudget
    apply hd.snoc
    rintro other heq hcounted
    cases heq
    exact UInt32.lt_iff_toNat_lt.mpr (lt_of_le_of_lt (Nat.le_add_right _ _) (lt_of_not_overBudget hbudget hcounted))
  cases h with
  | overBudget effect hover => exact hd.append (by simp [isDecided])
  | denied effect reason hbudget hcomplete =>
      rw [List.append_cons]
      exact (hdecide effect hbudget).append (by simp [isDecided])
  | completed outcome hrunning =>
      rw [List.append_cons]
      have hfree : d.overBudget (.complete outcome) = false := by simp [Driver.overBudget, hrunning]
      exact (hdecide _ hfree).append (by simp [isDecided])
  | performed effect call mid last more hbudget happlicable heffect hmid houtcome hlast =>
      have hmore : d.log ++ ([.effectDecided effect, .effectAuthorized effect] ++ more ++ last.advance) =
          d.log ++ [.effectDecided effect] ++ (.effectAuthorized effect :: (more ++ last.advance)) := by
        simp
      rw [hmore]
      apply (hdecide effect hbudget).append
      intro payload hpayload
      rcases List.mem_cons.mp hpayload with rfl | hrest
      · rfl
      rcases List.mem_append.mp hrest with hadded | hadvance
      · exact houtcome.not_decided payload hadded
      · exact last.advance_not_decided payload hadvance

/-- A driver in its loop: its log is ruled, its decisions had their steps, and an answered step that could be advanced
was. -/
structure Ready (spec : RunSpec) (setup : Setup) (d : Driver) : Prop where
  spec_eq : d.spec = spec
  setup_eq : d.setup = setup
  governed : d.Governed
  afforded : Afforded d.spec d.log
  advanced : d.Going → d.advance = []

theorem ready_logRule (spec : RunSpec) (setup : Setup) : LogRule (Ready spec setup) where
  batch d call added d' hd hgoing hbatch hext := by
    refine ⟨hext.spec_eq.trans hd.spec_eq, hext.setup_eq.trans hd.setup_eq, ?_, ?_, fun _ => ?_⟩
    · exact governed_logRule.batch d call added d' hd.governed hgoing hbatch hext
    · rw [hext.spec_eq, hext.log_eq]
      exact hbatch.afforded hd.afforded
    · exact hbatch.advanced (hd.advanced hgoing) hext
  cancelled d hd hgoing := by
    have hext : d.Extends d.cancel [.runCancelled] := d.extends_push _ _
    refine ⟨hext.spec_eq.trans hd.spec_eq, hext.setup_eq.trans hd.setup_eq, ?_, ?_, fun hgo => ?_⟩
    · exact governed_logRule.cancelled d hd.governed hgoing
    · rw [hext.spec_eq, hext.log_eq]
      exact hd.afforded.append (by simp [isDecided])
    · exact absurd hgo (hext.not_going rfl)

/-- What is finished of a resumed log ends in the step it advances, if it can. -/
theorem Resumed.advanced {spec : RunSpec} {events : List Event} {d d' : Driver}
    {call : Option (Sigma HarnessCall.Answer)} {added : List EventPayload} (h : Resumed spec events d)
    (hfinished : d.Finished call added) (hext : d.settled.Extends d' added) (hgoing : d'.Going) : d'.advance = [] := by
  have hadvance : ∀ {last : Driver} {more : List EventPayload}, d.settled.Extends last more →
    added = more ++ last.advance →
      d'.advance = [] := by
    rintro last more hlast rfl
    have hspec : d'.spec = last.advanceAnsweredStep.spec := by
      rw [hext.spec_eq, last.extends_advanceAnsweredStep.spec_eq, hlast.spec_eq]
    have hlog : d'.log = last.advanceAnsweredStep.log := by
      rw [hext.log_eq, advanceAnsweredStep_log, hlast.log_eq, List.append_assoc]
    rw [advance_congr hspec hlog, advance_advanceAnsweredStep]
  cases hfinished with
  | untouched hresumed =>
      have hlog : d'.log = d.log := by
        rw [hext.log_eq, List.append_nil]
        rfl
      cases h with
      | ended hended hstarts =>
          have hopen := hgoing.2
          rw [logEnded_eq, hlog, hstarts.log_eq, List.append_nil, ← hasEnded_eq, hended] at hopen
          cases hopen
      | started hopen hnot hstarts =>
          have hharness : d'.state.harness = .running 1 0 false := by
            have hspec : d'.spec = spec := hext.spec_eq.trans hstarts.spec_eq
            rw [harness_eq, hspec, hlog, hstarts.log_eq, harnessOf_snoc, harnessOf_of_not_started hnot]
            rfl
          rw [advance, hharness]
      | _ =>
          rw [‹d.Starts spec events _ true›.resumed_eq] at hresumed
          cases hresumed
  | advanced => exact hadvance (.refl _) (List.nil_append _).symm
  | performed effect call last more hpending hundecided houtcome hlast => exact hadvance hlast rfl
  | denied harness effect reason last hundecided hlast => exact hadvance hlast rfl
  | completed harness outcome last hundecided hrunning hlast => exact hadvance hlast rfl
  | authorized harness effect call mid last more hundecided happlicable heffect hmid houtcome hlast =>
      exact hadvance (hmid.trans hlast) rfl

theorem Resumed.afforded {spec : RunSpec} {events : List Event} {d : Driver} (h : Resumed spec events d)
    (hafforded : Afforded spec (payloads events)) : Afforded d.spec d.log := by
  have hstarted : ∀ {added resumed}, d.Starts spec events added resumed →
    (∀ payload ∈ added, isDecided payload = false) →
      Afforded d.spec d.log := by
    intro added resumed hstarts hadded
    rw [hstarts.spec_eq, hstarts.log_eq]
    exact hafforded.append hadded
  cases h with
  | started _ _ hstarts | completed _ _ _ _ hstarts => exact hstarted hstarts (by simp [isDecided])
  | ended _ hstarts | terminal _ _ _ _ hstarts | undecided _ _ _ _ _ _ hstarts | pending _ _ _ _ hstarts =>
      exact hstarted hstarts (List.forall_mem_nil _)

/-- A resumed run enters its loop ready. -/
theorem Resumed.ready {spec : RunSpec} {events : List Event} {d d' : Driver} {call : Option (Sigma HarnessCall.Answer)}
    {added : List EventPayload} (h : Resumed spec events d) (hruled : Ruled spec (payloads events))
    (hafforded : Afforded spec (payloads events)) (hfinished : d.Finished call added)
    (hext : d.settled.Extends d' added) :
    Ready spec d.setup d' where
  spec_eq := hext.spec_eq.trans h.spec_eq
  setup_eq := hext.setup_eq
  governed := h.governed hruled hfinished hext
  afforded := by
    rw [hext.spec_eq, hext.log_eq]
    exact (h.afforded hafforded).append hfinished.not_decided
  advanced := h.advanced hfinished hext

theorem Resumed.runUntil_ready {spec : RunSpec} {events : List Event} {d : Driver} (h : Resumed spec events d)
    (hruled : Ruled spec (payloads events)) (hafforded : Afforded spec (payloads events)) {tools : List ToolDescriptor}
    {result : Driver × Finish} (hrun : (runUntil tools d).Yields result) : Ready spec d.setup result.1 :=
  ((ready_logRule spec d.setup).yields h.resumable (fun _ _ _ => h.ready hruled hafforded) hrun).1

theorem Builds.afforded {spec : RunSpec} {events : List Event} (h : Builds spec events) :
    Afforded spec (payloads events) := by
  have hlast : ∀ {setup : Setup} {d : Driver}, Ready spec setup d → Afforded spec (payloads d.events) := by
    intro setup d hready
    have hlog := hready.afforded
    rwa [hready.spec_eq] at hlog
  induction h with
  | nil => exact .nil
  | boot hrun => exact hlast (((resume_cases (resume_nil spec _)).setUp _).runUntil_ready .nil .nil hrun)
  | resume hbuilt hresume hrun ih => exact hlast (((resume_cases hresume).setUp _).runUntil_ready hbuilt.ruled ih hrun)
  | cut _ hcut ih => exact ih.cut (hcut.map Event.payload)
  | @beside events event _ hwhole hbeside ih =>
      rw [payloads_append]
      apply ih.append
      intro payload hpayload
      obtain rfl : payload = event.payload := by simpa [payloads] using hpayload
      simp only [isBeside, Bool.and_eq_true, Bool.not_eq_true'] at hbeside
      exact hbeside.1.1

/-! ### What a decider is asked -/

/-- What the decider is asked, if the call asks it, meets `P`. -/
def Consults (P : DecisionView → Prop) : HarnessCall → Prop
  | .decide view => P view
  | _ => True

/-- The decider is asked at a driver that `I` holds of. -/
def Sees (I : Driver → Prop) (tools : List ToolDescriptor) : HarnessCall → Prop :=
  Consults fun view => ∃ d, I d ∧ d.Going ∧ view = d.decisionView tools

theorem IsWork.sees {I : Driver → Prop} {tools : List ToolDescriptor} {d : Driver} {c : HarnessCall} (h : d.IsWork c) :
    Sees I tools c := by
  cases c with
  | decide view => exact h.2.elim
  | _ => trivial

theorem LogRule.sees {I : Driver → Prop} (h : LogRule I) (tools : List ToolDescriptor) :
    LoopRule (fun (_ : Unit) _ _ _ => True) (fun _ => Sees I tools) tools (fun _ => I) (fun _ _ => True) where
  boundary _ _ hI _ := ⟨trivial, fun _ _ _ => hI⟩
  decide _ d hI hgoing := ⟨⟨d, hI, hgoing, rfl⟩, fun _ _ _ => hI⟩
  work _ _ _ _ _ _ _ _ _ hwork := hwork.sees
  batch _ d added d' := h.batch d none added d'
  batchCall _ d _ _ _ added d' hI hgoing _ hbatch hext _ := h.batch d _ added d' hI hgoing hbatch hext
  ended _ _ _ _ := trivial
  cancelled _ _ _ _ _ _ := trivial
  paused _ _ _ _ _ _ := trivial
  waiting _ _ _ _ _ _ _ _ _ _ := trivial
  failed _ _ _ _ _ _ _ := trivial

/-- Whatever its calls are answered, a run that goes on from a log that runs built asks its decider only when it is
ready. -/
theorem Builds.decides {spec : RunSpec} {events : List Event} (hbuilt : Builds spec events)
    {stamp : Nat → Stamp} {d : Driver} (hresume : Driver.resume spec events stamp = .ok d) (setup : Setup)
    (tools : List ToolDescriptor) :
    (runUntil tools (d.setUp setup)).Only (Sees (Ready spec setup) tools) := by
  have h := (resume_cases hresume).setUp setup
  have hsafe := runUntil_safe ((ready_logRule spec setup).sees tools) h.resumable ()
    (fun _ _ _ _ _ _ hwork => hwork.sees)
    (fun added d' hfinished hext => h.ready hbuilt.ruled hbuilt.afforded hfinished hext)
    (fun c answer _ added d' _ hfinished hext _ => h.ready hbuilt.ruled hbuilt.afforded hfinished hext)
  refine World.only_of_safe ?_ ?_ hsafe
  · exact fun _ _ _ => ⟨(), trivial⟩
  · exact fun _ _ howes => howes

/-- An answered step is left unadvanced only once its run has decided all its steps. -/
theorem Ready.spent_of_answered {spec : RunSpec} {setup : Setup} {d : Driver}
    (h : Ready spec setup d) (hgoing : d.Going) {step attempt : UInt32}
    (hanswered : d.state.harness = .running step attempt true) :
    d.spec.limits.maxSteps ≤ d.state.steps := by
  have hadvance := h.advanced hgoing
  have hpaced := h.governed.ruled.paced h.afforded
  have hstep : d.spec.limits.maxSteps ≤ step := by
    rw [advance, hanswered] at hadvance
    dsimp only at hadvance
    split at hadvance
    · assumption
    · cases hadvance
  have htaken : step.toNat ≤ d.state.steps.toNat := by
    have hle := hpaced.taken
    rw [← harness_eq, hanswered] at hle
    exact hle
  exact UInt32.le_iff_toNat_le.mpr (le_trans (UInt32.le_iff_toNat_le.mp hstep) htaken)

end Driver

end Gol
