import Mathlib.Data.List.Induction
import Gol.LibraryLedger
import Gol.HarnessSteps

/-! One end for a driven run. Terminal events are recorded from ten places of the driver; none of them follows
another, so a driver's log ends at its terminal event. The contract of `runUntil` with its caller follows: what
each call it makes is given, and how it returns. -/

namespace Gol
open Library

namespace Driver

/-- The log ends at its terminal event, and a harness that ended has one in its log. -/
structure Closed (d : Driver) : Prop where
  ends : EndsOnce isTerminal d.log
  ended : d.state.harness.isTerminal = true → d.logEnded = true

/-- Payloads that end at their terminal event, and hold one if they complete the harness. -/
structure Proper (added : List EventPayload) : Prop where
  ends : EndsOnce isTerminal added
  completed : ∀ outcome, .effectAuthorized (.complete outcome) ∈ added → added.any isTerminal = true

theorem harnessOf_isTerminal {spec : RunSpec} {log more : List EventPayload}
    (h : (harnessOf spec (log ++ more)).isTerminal = true) :
    (harnessOf spec log).isTerminal = true ∨ more.any isTerminal = true ∨
      ∃ outcome, .effectAuthorized (.complete outcome) ∈ more := by
  induction more using List.reverseRecOn with
  | nil => exact .inl (by simpa using h)
  | append_singleton more payload ih =>
      rw [← List.append_assoc, harnessOf_snoc] at h
      rcases reduce_isTerminal h with hbefore | hpayload | ⟨outcome, rfl⟩
      · rcases ih hbefore with hstart | hmore | ⟨outcome, hmore⟩
        · exact .inl hstart
        · exact .inr (.inl (by simp [hmore]))
        · exact .inr (.inr ⟨outcome, by simp [hmore]⟩)
      · exact .inr (.inl (by simp [hpayload]))
      · exact .inr (.inr ⟨outcome, by simp⟩)

/-- Proper payloads keep a log that has not ended closed. -/
theorem Closed.extends {d d' : Driver} {added : List EventPayload} (h : d.Closed) (hopen : d.logEnded = false)
    (hadded : Proper added) (hext : d.Extends d' added) : d'.Closed where
  ends := by
    rw [hext.log_eq]
    rw [logEnded_eq] at hopen
    exact EndsOnce.append hopen hadded.ends
  ended hterminal := by
    rw [hext.harness_eq] at hterminal
    rw [logEnded_eq, hext.log_eq, List.any_append]
    rcases harnessOf_isTerminal hterminal with hbefore | hmore | ⟨outcome, hmore⟩
    · have := h.ended hbefore
      rw [hopen] at this
      contradiction
    · simp [hmore]
    · simp [hadded.completed outcome hmore]

/-! ### What the loop records is proper -/

/-- An outcome fails the run, or holds no terminal event. -/
theorem Outcome.fails_or_open {d : Driver} {effect : Effect} {call : Option (Sigma HarnessCall.Answer)}
    {added : List EventPayload} (h : d.Outcome effect call added) :
    (∃ cls message, added = [.runFailed cls message]) ∨
      (added.any isTerminal = false ∧ ∀ outcome, .effectAuthorized (.complete outcome) ∉ added) := by
  cases h with
  | unknownTool | toolFailed | modelFailed | readFailed | writeFailed => exact .inl ⟨_, _, rfl⟩
  | messageSent toAgent body expectsReply replyTo timeoutSecs request sent =>
      right
      cases sent.task <;> simp [isTerminal]
  | _ => exact .inr (by simp [isTerminal])

theorem advance_cases (d : Driver) : d.advance = [] ∨ d.advance = [.stepAdvanced] := by
  unfold advance
  split
  · split
    · exact .inl rfl
    · exact .inr rfl
  · exact .inl rfl

/-- After a terminal event no step advances. -/
theorem advance_after_end {d last : Driver} (log : List EventPayload) {payload : EventPayload}
    (hext : d.Extends last (log ++ [payload])) (hend : isTerminal payload = true) : last.advance = [] := by
  apply advance_eq_nil_of_not_running
  rw [hext.harness_eq, ← List.append_assoc, harnessOf_snoc]
  exact reduce_terminal_not_running _ hend _

theorem proper_of_open {added : List EventPayload} (hopen : added.any isTerminal = false)
    (hcomplete : ∀ outcome, .effectAuthorized (.complete outcome) ∉ added) : Proper added :=
  ⟨endsOnce_of_none hopen, fun outcome hmem => absurd hmem (hcomplete outcome)⟩

/-- What precedes an outcome, the outcome, and the step it may advance. -/
theorem Outcome.proper {d last : Driver} {effect : Effect} {call : Option (Sigma HarnessCall.Answer)}
    {added : List EventPayload} (h : d.Outcome effect call added) (hlast : d.Extends last added)
    (before : List EventPayload) (hbefore : before.any isTerminal = false)
    (hcomplete : ∀ outcome, .effectAuthorized (.complete outcome) ∉ before) :
    Proper (before ++ added ++ last.advance) := by
  rcases h.fails_or_open with ⟨cls, message, rfl⟩ | ⟨hopen, hnot⟩
  · rw [advance_after_end [] hlast rfl, List.append_nil]
    exact ⟨endsOnce_snoc before _ hbefore, fun outcome _ => by simp [isTerminal]⟩
  · apply proper_of_open
    · rcases last.advance_cases with hadvance | hadvance <;> simp [hadvance, hbefore, hopen, isTerminal]
    · intro outcome hmem
      rcases last.advance_cases with hadvance | hadvance <;>
        simp [hadvance, hcomplete outcome, hnot outcome] at hmem

theorem Batch.proper {d : Driver} {call : Option (Sigma HarnessCall.Answer)} {added : List EventPayload}
    (h : d.Batch call added) : Proper added := by
  cases h with
  | overBudget effect hover => exact ⟨endsOnce_snoc [] _ rfl, by simp⟩
  | denied effect reason hbudget hcomplete => exact proper_of_open rfl (by simp)
  | completed outcome hrunning =>
      exact ⟨endsOnce_snoc [_, _] _ rfl, fun _ _ => rfl⟩
  | performed effect call mid last more hbudget happlicable heffect hmid houtcome hlast =>
      refine houtcome.proper hlast _ rfl fun outcome hmem => ?_
      simp only [List.mem_cons, List.not_mem_nil, reduceCtorEq, EventPayload.effectAuthorized.injEq, false_or,
        or_false] at hmem
      exact heffect outcome hmem.symm

theorem Finished.proper {d : Driver} {call : Option (Sigma HarnessCall.Answer)} {added : List EventPayload}
    (h : d.Finished call added) : Proper added := by
  cases h with
  | untouched hresumed => exact proper_of_open rfl (by simp)
  | advanced hresumed hpending hundecided =>
      rcases d.settled.advance_cases with hadvance | hadvance <;> rw [hadvance] <;>
        exact proper_of_open rfl (by simp)
  | performed effect call last more hpending hundecided houtcome hlast =>
      exact houtcome.proper hlast [] rfl (by simp)
  | denied harness effect reason last hundecided hlast =>
      rcases last.advance_cases with hadvance | hadvance <;> rw [hadvance] <;>
        exact proper_of_open rfl (by simp)
  | completed harness outcome last hundecided hrunning hlast =>
      rw [advance_after_end [.effectAuthorized (.complete outcome)] hlast rfl]
      exact ⟨endsOnce_snoc [_] _ rfl, fun _ _ => rfl⟩
  | authorized harness effect call mid last more hundecided happlicable heffect hmid houtcome hlast =>
      refine houtcome.proper hlast _ rfl fun outcome hmem => ?_
      simp only [List.mem_singleton, EventPayload.effectAuthorized.injEq] at hmem
      exact heffect outcome hmem.symm

/-! ### Resumed logs -/

/-- Where nothing is pending, only a step can advance. -/
theorem Finished.of_idle {d : Driver} {call : Option (Sigma HarnessCall.Answer)} {added : List EventPayload}
    (h : d.Finished call added) (hpending : d.pending = []) (hundecided : d.undecided = none) :
    added = [] ∨ (d.resumed = true ∧ added = d.settled.advance) := by
  cases h with
  | untouched => exact .inl rfl
  | advanced hresumed => exact .inr ⟨hresumed, rfl⟩
  | performed effect call last more hpending' => simp [hpending] at hpending'
  | denied harness effect reason last hundecided' => simp [hundecided] at hundecided'
  | completed harness outcome last hundecided' => simp [hundecided] at hundecided'
  | authorized harness effect call mid last more hundecided' => simp [hundecided] at hundecided'

/-- An open log whose harness has not ended stays closed. -/
theorem Starts.closed_of_open {spec : RunSpec} {events : List Event} {d d' : Driver}
    {call : Option (Sigma HarnessCall.Answer)} {more added : List EventPayload} {resumed : Bool}
    (hstarts : d.Starts spec events more resumed) (hopen : hasEnded events = false)
    (hmore : more.any isTerminal = false) (hharness : (harnessOf spec (payloads events ++ more)).isTerminal = false)
    (hfinished : d.Finished call added) (hext : d.settled.Extends d' added) : d'.Closed := by
  have hlog : d.settled.log = payloads events ++ more := hstarts.log_eq
  have hnot : d.settled.logEnded = false := by
    rw [logEnded_eq, hlog, List.any_append, hmore, ← hasEnded_eq, hopen]
    rfl
  have hclosed : d.settled.Closed := by
    refine ⟨?_, fun hterminal => ?_⟩
    · rw [logEnded_eq] at hnot
      exact endsOnce_of_none hnot
    · change (harnessOf d.spec d.settled.log).isTerminal = true at hterminal
      rw [hlog, hstarts.spec_eq, hharness] at hterminal
      contradiction
  exact hclosed.extends hnot hfinished.proper hext

/-- A log that ended is left as it is. -/
theorem Starts.closed_of_ended {spec : RunSpec} {events : List Event} {d d' : Driver} {more : List EventPayload}
    {resumed : Bool} (hstarts : d.Starts spec events more resumed)
    (hended : (payloads events ++ more).any isTerminal = true)
    (hends : EndsOnce isTerminal (payloads events ++ more)) (hext : d.settled.Extends d' []) : d'.Closed := by
  have hlog : d'.log = payloads events ++ more := by
    rw [hext.log_eq, List.append_nil]
    exact hstarts.log_eq
  refine ⟨by rwa [hlog], fun _ => ?_⟩
  rwa [logEnded_eq, hlog]

/-- Whatever `runUntil` finishes of a resumed log, the log it enters its loop with is closed. -/
theorem Resumed.closed {spec : RunSpec} {events : List Event} {d d' : Driver}
    {call : Option (Sigma HarnessCall.Answer)} {added : List EventPayload} (h : Resumed spec events d)
    (hends : EndsOnce isTerminal (payloads events)) (hfinished : d.Finished call added)
    (hext : d.settled.Extends d' added) : d'.Closed := by
  cases h with
  | ended hended hstarts hpending hundecided =>
      rcases hfinished.of_idle hpending hundecided with rfl | ⟨hresumed, -⟩
      · rw [hasEnded_eq] at hended
        exact hstarts.closed_of_ended (by simpa using hended) (by simpa using hends) hext
      · simp [hstarts.resumed_eq] at hresumed
  | started hopen hnot hstarts hpending hundecided =>
      refine hstarts.closed_of_open hopen rfl ?_ hfinished hext
      rw [harnessOf_snoc, harnessOf_of_not_started hnot]
      rfl
  | completed hopen hstarted outcome hharness hstarts hpending hundecided =>
      have hadded : added = [] := by
        rcases hfinished.of_idle hpending hundecided with rfl | ⟨-, rfl⟩
        · rfl
        · apply advance_eq_nil_of_not_running
          change (harnessOf d.spec d.log).isRunning = false
          rw [hstarts.log_eq, hstarts.spec_eq, harnessOf_snoc]
          exact reduce_terminal_not_running _ rfl _
      subst hadded
      rw [hasEnded_eq] at hopen
      exact hstarts.closed_of_ended (by simp [isTerminal]) (endsOnce_snoc _ _ hopen) hext
  | terminal hopen hstarted hharness hnot hstarts hpending hundecided =>
      have hended := ended_of_failed hharness hnot
      rw [← hasEnded_eq, hopen] at hended
      contradiction
  | undecided hopen hstarted hharness before effect hlast hstarts hpending hundecided =>
      exact hstarts.closed_of_open hopen rfl (by simpa using hharness) hfinished hext
  | pending hopen hstarted hharness hlast hstarts hpending hundecided =>
      exact hstarts.closed_of_open hopen rfl (by simpa using hharness) hfinished hext

/-- Resuming ends an open log only when its harness had completed. -/
theorem Resumed.logEnded_of_open {spec : RunSpec} {events : List Event} {d : Driver} (h : Resumed spec events d)
    (hopen : hasEnded events = false) (hnot : ∀ outcome, harnessOf spec (payloads events) ≠ .completed outcome) :
    d.logEnded = false := by
  have hlog : ∀ more resumed, d.Starts spec events more resumed → more.any isTerminal = false →
      d.logEnded = false := by
    intro more resumed hstarts hmore
    rw [logEnded_eq, hstarts.log_eq, List.any_append, ← hasEnded_eq, hopen, hmore]
    rfl
  cases h with
  | ended hended => simp [hopen] at hended
  | completed _ _ outcome hharness => exact absurd hharness (hnot outcome)
  | started _ _ hstarts | terminal _ _ _ _ hstarts | undecided _ _ _ _ _ _ hstarts | pending _ _ _ _ hstarts =>
      exact hlog _ _ hstarts rfl

/-! ### The contract of `runUntil` with its caller -/

/-- What a caller has seen of a run: the log at the last call, and whether it answered that call with a pause. -/
structure Seen where
  log : List Event
  paused : Bool

def pauses : (c : HarnessCall) → c.Answer → Bool
  | .boundary _, .pause => true
  | _, _ => false

def Seen.Step (_ : Seen) (c : HarnessCall) (answer : c.Answer) (later : Seen) : Prop :=
  later = ⟨c.log, pauses c answer⟩

/-- `limits` are what a driver of `spec` with the log `events` carves. -/
def Carves (spec : RunSpec) (events : List Event) (limits : Limits) : Prop :=
  ∃ d : Driver, d.spec = spec ∧ d.events = events ∧ d.carve = .ok limits

/-- A call is made at an open log that extends the last one seen; a boundary is one of a run that has not ended;
a child is asked for with the limits carved at that log. -/
structure Seen.Owes (spec : RunSpec) (seen : Seen) (c : HarnessCall) : Prop where
  grows : seen.log <+: c.log
  open_ : hasEnded c.log = false
  boundary : ∀ d, c = .boundary d → d.spec = spec ∧ d.Going
  spawn : ∀ log request, c = .spawn log request → request.parent = spec ∧ Carves spec log request.limits
  send : ∀ log request, c = .send log request → request.from = spec ∧
    ∀ limits, request.limits = some limits → Carves spec log limits

/-- How `runUntil` returns. -/
structure Returns (spec : RunSpec) (seen : Seen) (result : Driver × Finish) : Prop where
  spec_eq : result.1.spec = spec
  grows : seen.log <+: result.1.events
  ends : EndsOnce isTerminal result.1.log
  fueled : result.2 ≠ .outOfFuel
  /-- A decider that failed leaves the log open, for its caller to end. -/
  failed : ∀ error, result.2 = .failed error → result.1.logEnded = false ∧ seen.log = result.1.events
  /-- An open log is one paused, or waiting for a message, with nothing recorded since the last boundary. -/
  ok : result.2 = .ok → result.1.logEnded = true ∨ (seen.log = result.1.events ∧
    (seen.paused = true ∨ ∃ step attempt messageId,
      result.1.state.harness = .waitingForMessage step attempt messageId))

/-- What the loop keeps: a closed log that extends what the caller has seen. -/
structure Kept (spec : RunSpec) (seen : Seen) (d : Driver) : Prop where
  spec_eq : d.spec = spec
  grows : seen.log <+: d.events
  closed : d.Closed

theorem IsWork.owes {spec : RunSpec} {seen : Seen} {d : Driver} {c : HarnessCall} (hwork : d.IsWork c)
    (hspec : d.spec = spec) (hgrows : seen.log <+: d.events) (hopen : d.logEnded = false) : seen.Owes spec c where
  grows := by rwa [hwork.1]
  open_ := by rwa [hwork.1]
  boundary driver heq := by
    subst heq
    exact hwork.2.elim
  spawn log request heq := by
    subst heq
    obtain ⟨hlog, hparent, hcarve⟩ := hwork
    exact ⟨hparent.trans hspec, d, hspec, hlog.symm, hcarve⟩
  send log request heq := by
    subst heq
    obtain ⟨hlog, hfrom, hcarve⟩ := hwork
    exact ⟨hfrom.trans hspec, fun limits hlimits => ⟨d, hspec, hlog.symm, hcarve limits hlimits⟩⟩

theorem Kept.extends {spec : RunSpec} {seen later : Seen} {d d' : Driver} {added : List EventPayload}
    (h : Kept spec seen d) (hgoing : d.Going) (hadded : Proper added) (hext : d.Extends d' added)
    (hlater : later.log <+: d'.events) : Kept spec later d' :=
  ⟨hext.spec_eq.trans h.spec_eq, hlater, h.closed.extends hgoing.2 hadded hext⟩

theorem Extends.logEnded_of_open {d d' : Driver} {added : List EventPayload} (h : d.Extends d' added)
    (hopen : d.logEnded = false) (hadded : added.any isTerminal = false) : d'.logEnded = false := by
  rw [logEnded_eq] at hopen ⊢
  rw [h.log_eq, List.any_append, hopen, hadded]
  rfl

/-- What the loop keeps is an invariant of it. -/
theorem kept_loopRule (spec : RunSpec) (tools : List ToolDescriptor) :
    LoopRule Seen.Step (Seen.Owes spec) tools (Kept spec) (Returns spec) where
  boundary seen d hkept hgoing := by
    refine ⟨⟨hkept.grows, hgoing.2, ?_, by simp, by simp⟩, ?_⟩
    · rintro driver heq
      cases heq
      exact ⟨hkept.spec_eq, hgoing⟩
    · rintro answer later rfl
      exact ⟨hkept.spec_eq, List.prefix_refl _, hkept.closed⟩
  decide seen d hkept hgoing := by
    refine ⟨⟨hkept.grows, hgoing.2, by simp, by simp, by simp⟩, ?_⟩
    rintro answer later rfl
    exact ⟨hkept.spec_eq, List.prefix_refl _, hkept.closed⟩
  work seen d mid added c hkept hgoing hext hadded hwork :=
    hwork.owes (hext.spec_eq.trans hkept.spec_eq) (hkept.grows.trans hext.grows)
      (hext.logEnded_of_open hgoing.2 hadded)
  batch seen d added d' hkept hgoing hbatch hext :=
    hkept.extends hgoing hbatch.proper hext (hkept.grows.trans hext.grows)
  batchCall seen d c answer later added d' hkept hgoing hstep hbatch hext hlog := by
    subst hstep
    exact hkept.extends hgoing hbatch.proper hext hlog
  ended seen d hkept hended := by
    have hlogEnded : d.logEnded = true := by
      by_contra hopen
      have hharness : ¬ d.state.harness.isTerminal = true := fun hterminal => hopen (hkept.closed.ended hterminal)
      exact hended ⟨Bool.eq_false_iff.mpr hharness, Bool.eq_false_iff.mpr hopen⟩
    exact ⟨hkept.spec_eq, hkept.grows, hkept.closed.ends, by simp, by simp, fun _ => .inl hlogEnded⟩
  cancelled seen d later hkept hgoing hstep := by
    subst hstep
    have hext : d.Extends d.cancel [.runCancelled] := d.extends_push _ _
    have hclosed : d.cancel.Closed := hkept.closed.extends hgoing.2 ⟨endsOnce_snoc [] _ rfl, by simp⟩ hext
    refine ⟨hkept.spec_eq, hext.grows, hclosed.ends, by simp, by simp, fun _ => .inl ?_⟩
    simp [logEnded_eq, hext.log_eq, isTerminal]
  paused seen d later hkept hgoing hstep := by
    subst hstep
    exact ⟨hkept.spec_eq, List.prefix_refl _, hkept.closed.ends, by simp, by simp, fun _ => .inr ⟨rfl, .inl rfl⟩⟩
  waiting seen d later step attempt messageId hkept hgoing hstep hwaiting := by
    subst hstep
    exact ⟨hkept.spec_eq, List.prefix_refl _, hkept.closed.ends, by simp, by simp,
      fun _ => .inr ⟨rfl, .inr ⟨step, attempt, messageId, hwaiting⟩⟩⟩
  failed seen d error later hkept hgoing hstep := by
    subst hstep
    exact ⟨hkept.spec_eq, List.prefix_refl _, hkept.closed.ends, by simp, fun _ _ => ⟨hgoing.2, rfl⟩, by simp⟩

/-- The contract of `runUntil` on a resumed log that ends at its terminal event, with an invariant of the log beside
it. -/
theorem Resumed.runUntil_returns_with {spec : RunSpec} {events : List Event} {d : Driver} (h : Resumed spec events d)
    (hends : EndsOnce isTerminal (payloads events)) (tools : List ToolDescriptor) {J : Driver → Prop} (hJ : LogRule J)
    (hstart : ∀ call added d', d.Finished call added → d.settled.Extends d' added → J d') :
    (World Seen Seen.Step fun seen c => seen.Owes spec c ∧ ∀ driver, c = .boundary driver → J driver).Safe
      (fun seen result => Returns spec seen result ∧ J result.1) (runUntil tools d) ⟨events, false⟩ := by
  have hspec : d.spec = spec := h.spec_eq
  have hcutOff : events <+: d.events := h.grows
  have hkept : ∀ {call added d'} (seen : Seen), d.Finished call added → d.settled.Extends d' added →
      seen.log <+: d'.events → Kept spec seen d' ∧ J d' :=
    fun seen hfinished hext hlog =>
      ⟨⟨hext.spec_eq.trans hspec, hlog, h.closed hends hfinished hext⟩, hstart _ _ _ hfinished hext⟩
  refine runUntil_safe ((kept_loopRule spec tools).with hJ) h.resumable _ ?_ ?_ ?_
  · intro hunfinished mid added c hext hadded hwork
    obtain ⟨hopen, hstarts⟩ := h.open_of_unfinished hunfinished
    have hopen' : d.settled.logEnded = false := by
      change d.logEnded = false
      rw [logEnded_eq, hstarts.log_eq, List.append_nil, ← hasEnded_eq, hopen]
    refine ⟨hwork.owes (hext.spec_eq.trans hspec) (hcutOff.trans hext.grows) (hext.logEnded_of_open hopen' hadded), ?_⟩
    rintro driver rfl
    exact hwork.2.elim
  · intro added d' hfinished hext
    exact hkept _ hfinished hext (hcutOff.trans hext.grows)
  · rintro c answer later added d' rfl hfinished hext hlog
    exact hkept _ hfinished hext hlog

/-- The contract of `runUntil` on a resumed log that ends at its terminal event. -/
theorem Resumed.runUntil_returns {spec : RunSpec} {events : List Event} {d : Driver} (h : Resumed spec events d)
    (hends : EndsOnce isTerminal (payloads events)) (tools : List ToolDescriptor) :
    (World Seen Seen.Step (Seen.Owes spec)).Safe (Returns spec) (runUntil tools d) ⟨events, false⟩ :=
  World.safe_alone_owes (fun _ _ howes => howes.1)
    ((h.runUntil_returns_with hends tools (J := fun _ => True) ⟨fun _ _ _ _ _ _ _ _ => trivial, fun _ _ _ => trivial⟩
      fun _ _ _ _ _ => trivial).mono fun _ _ hreturns => hreturns.1)

end Driver
end Gol
