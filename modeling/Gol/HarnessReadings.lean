import Gol.HarnessEnds
import Gol.ProtocolReadings

/-! A driver's log is one whose readings agree. A log that a driver is resumed from keeps its readings in agreement
through every batch of the loop, and all that the driver adds are events of its own: no answer to an ask, and nothing of
the dispatch before the run starts. -/

namespace Gol
open Library

/-- The payloads a driver records. -/
def isDriven : EventPayload → Bool
  | .runStarted | .effectDecided _ | .effectAuthorized _ | .effectDenied _ _ | .toolResult _ _ _ _ _
  | .modelResponded _ _ | .memoryRead _ _ _ | .memoryWritten _ _ _ | .childStarted _ _ _ | .delegateRefused _ _
  | .messageSent _ _ _ | .messageRefused _ _ | .userAsked _ _ | .userAskRefused _ | .stepAdvanced | .runCompleted _
  | .runFailed _ _ | .runCancelled => true
  | _ => false

/-- A payload that fits any log: it neither starts nor completes the run. -/
def Plain (payload : EventPayload) : Prop :=
  payload ≠ .runStarted ∧ (∀ outcome, payload ≠ .runCompleted outcome) ∧
    ∀ outcome, payload ≠ .effectAuthorized (.complete outcome)

theorem Fits.plain {spec : RunSpec} {log rest : List EventPayload} {payload : EventPayload} (h : Plain payload)
    (hlast : isTerminal payload = true → rest = []) (hrest : Fits spec (log ++ [payload]) rest) :
    Fits spec log (payload :: rest) :=
  .next h.2.2 (fun heq => absurd heq h.1) (fun outcome heq => absurd heq (h.2.1 outcome)) hlast hrest

/-- Plain payloads that end at their terminal event fit. -/
theorem fits_of_plain (spec : RunSpec) (log : List EventPayload) {batch : List EventPayload}
    (hplain : ∀ payload ∈ batch, Plain payload) (hends : EndsOnce isTerminal batch) : Fits spec log batch := by
  induction batch generalizing log with
  | nil => exact .done log
  | cons payload rest ih =>
      refine .plain (hplain payload (by simp)) (fun hend => ?_) (ih _ (fun p hp => hplain p (by simp [hp])) ?_)
      · have hlast := hends 0 payload rfl hend
        exact List.length_eq_zero_iff.mp (by simpa using hlast)
      · intro i other hi hend
        have hlast := hends (i + 1) other (by simpa using hi) hend
        simpa using hlast

namespace Driver

/-! ### What a batch adds -/

theorem Outcome.plain {d : Driver} {effect : Effect} {call : Option (Sigma HarnessCall.Answer)}
    {added : List EventPayload} (h : d.Outcome effect call added) :
    ∀ payload ∈ added, Plain payload ∧ isDriven payload = true := by
  cases h with
  | messageSent toAgent body expectsReply replyTo timeoutSecs request sent =>
      cases sent.task <;> simp [Plain, isDriven]
  | _ => simp [Plain, isDriven]

theorem advance_plain (d : Driver) : ∀ payload ∈ d.advance, Plain payload ∧ isDriven payload = true := by
  rcases d.advance_cases with hadvance | hadvance <;> simp [hadvance, Plain, isDriven]

theorem plain_decided (effect : Effect) : Plain (.effectDecided effect) := by simp [Plain]

theorem plain_authorized {effect : Effect} (h : ∀ outcome, effect ≠ .complete outcome) :
    Plain (.effectAuthorized effect) := by simpa [Plain] using h

theorem Batch.fits {d : Driver} {call : Option (Sigma HarnessCall.Answer)} {added : List EventPayload}
    (h : d.Batch call added) (hstarted : .runStarted ∈ d.log) : Fits d.spec d.log added := by
  have hproper := h.proper
  cases h with
  | overBudget effect hover => exact fits_of_plain _ _ (by simp [Plain]) hproper.ends
  | denied effect reason hbudget hcomplete => exact fits_of_plain _ _ (by simp [Plain]) hproper.ends
  | completed outcome hrunning =>
      exact .plain (plain_decided _) (by simp [isTerminal]) (.completes outcome (by simp [hstarted]))
  | performed effect call mid last more hbudget happlicable heffect hmid houtcome hlast =>
      refine fits_of_plain _ _ (fun payload hpayload => ?_) hproper.ends
      simp only [List.cons_append, List.nil_append, List.mem_cons, List.mem_append] at hpayload
      rcases hpayload with rfl | rfl | hmore | hadvance
      · exact plain_decided effect
      · exact plain_authorized heffect
      · exact (houtcome.plain payload hmore).1
      · exact (last.advance_plain payload hadvance).1

theorem Batch.driven {d : Driver} {call : Option (Sigma HarnessCall.Answer)} {added : List EventPayload}
    (h : d.Batch call added) : ∀ payload ∈ added, isDriven payload = true := by
  cases h with
  | overBudget | denied | completed => simp [isDriven]
  | performed effect call mid last more hbudget happlicable heffect hmid houtcome hlast =>
      intro payload hpayload
      simp only [List.cons_append, List.nil_append, List.mem_cons, List.mem_append] at hpayload
      rcases hpayload with rfl | rfl | hmore | hadvance
      · rfl
      · rfl
      · exact (houtcome.plain payload hmore).2
      · exact (last.advance_plain payload hadvance).2

theorem Finished.fits {d : Driver} {call : Option (Sigma HarnessCall.Answer)} {added : List EventPayload}
    (h : d.Finished call added) (hstarted : .runStarted ∈ d.log) : Fits d.spec d.log added := by
  have hproper := h.proper
  cases h with
  | untouched hresumed => exact .done _
  | advanced hresumed hpending hundecided =>
      exact fits_of_plain _ _ (fun payload hpayload => (advance_plain _ payload hpayload).1) hproper.ends
  | performed effect call last more hpending hundecided houtcome hlast =>
      refine fits_of_plain _ _ (fun payload hpayload => ?_) hproper.ends
      rcases List.mem_append.mp hpayload with hmore | hadvance
      · exact (houtcome.plain payload hmore).1
      · exact (last.advance_plain payload hadvance).1
  | denied harness effect reason last hundecided hlast =>
      refine fits_of_plain _ _ (fun payload hpayload => ?_) hproper.ends
      rcases List.mem_append.mp hpayload with hmore | hadvance
      · obtain rfl := List.mem_singleton.mp hmore
        simp [Plain]
      · exact (last.advance_plain payload hadvance).1
  | completed harness outcome last hundecided hrunning hlast =>
      rw [advance_after_end [.effectAuthorized (.complete outcome)] hlast rfl]
      exact .completes outcome hstarted
  | authorized harness effect call mid last more hundecided happlicable heffect hmid houtcome hlast =>
      refine fits_of_plain _ _ (fun payload hpayload => ?_) hproper.ends
      simp only [List.cons_append, List.nil_append, List.mem_cons, List.mem_append] at hpayload
      rcases hpayload with rfl | hmore | hadvance
      · exact plain_authorized heffect
      · exact (houtcome.plain payload hmore).1
      · exact (last.advance_plain payload hadvance).1

theorem Finished.driven {d : Driver} {call : Option (Sigma HarnessCall.Answer)} {added : List EventPayload}
    (h : d.Finished call added) : ∀ payload ∈ added, isDriven payload = true := by
  cases h with
  | untouched hresumed => simp
  | advanced hresumed hpending hundecided => exact fun payload hpayload => (advance_plain _ payload hpayload).2
  | performed effect call last more hpending hundecided houtcome hlast =>
      intro payload hpayload
      rcases List.mem_append.mp hpayload with hmore | hadvance
      · exact (houtcome.plain payload hmore).2
      · exact (last.advance_plain payload hadvance).2
  | denied harness effect reason last hundecided hlast =>
      intro payload hpayload
      rcases List.mem_append.mp hpayload with hmore | hadvance
      · obtain rfl := List.mem_singleton.mp hmore
        rfl
      · exact (last.advance_plain payload hadvance).2
  | completed harness outcome last hundecided hrunning hlast =>
      intro payload hpayload
      simp only [List.cons_append, List.nil_append, List.mem_cons] at hpayload
      rcases hpayload with rfl | rfl | hadvance
      · rfl
      · rfl
      · exact (last.advance_plain payload hadvance).2
  | authorized harness effect call mid last more hundecided happlicable heffect hmid houtcome hlast =>
      intro payload hpayload
      simp only [List.cons_append, List.nil_append, List.mem_cons, List.mem_append] at hpayload
      rcases hpayload with rfl | hmore | hadvance
      · rfl
      · exact (houtcome.plain payload hmore).2
      · exact (last.advance_plain payload hadvance).2

/-! ### The log of a resumed driver -/

/-- A driver that has run on from the log `events`: its log's readings agree, it has started, and all it added are
events of its own. -/
structure Driven (spec : RunSpec) (events : List Event) (d : Driver) : Prop where
  spec_eq : d.spec = spec
  agrees : Agrees spec d.log
  started : .runStarted ∈ d.log
  added : ∃ more, d.events = events ++ more ∧ ∀ payload ∈ payloads more, isDriven payload = true

variable {spec : RunSpec} {events : List Event}

theorem Driven.extends {d d' : Driver} {added : List EventPayload} (h : Driven spec events d)
    (hopen : d.logEnded = false) (hfits : Fits d.spec d.log added)
    (hdriven : ∀ payload ∈ added, isDriven payload = true) (hext : d.Extends d' added) : Driven spec events d' := by
  obtain ⟨more, hevents, hmore⟩ := h.added
  obtain ⟨new, rfl, hnew⟩ := hext
  refine ⟨h.spec_eq, ?_, ?_, more ++ new, by simp [hevents], ?_⟩
  · rw [logEnded_eq] at hopen
    have hagrees := h.agrees.append hopen (h.spec_eq ▸ hfits)
    simpa [log, hnew] using hagrees
  · simp [log, List.mem_append, show .runStarted ∈ payloads d.events from h.started]
  · intro payload hpayload
    rw [payloads_append] at hpayload
    rcases List.mem_append.mp hpayload with hold | hadded
    · exact hmore payload hold
    · exact hdriven payload (hnew ▸ hadded)

theorem driven_logRule (spec : RunSpec) (events : List Event) : LogRule (Driven spec events) where
  batch d call added d' h hgoing hbatch hext := h.extends hgoing.2 (hbatch.fits h.started) hbatch.driven hext
  cancelled d h hgoing :=
    have hplain : ∀ payload ∈ [EventPayload.runCancelled], Plain payload := by simp [Plain]
    h.extends hgoing.2 (fits_of_plain _ _ hplain (endsOnce_snoc [] _ rfl)) (by simp [isDriven])
      (d.extends_push .runCancelled .system)

/-- `resume` starts a run only where the dispatch takes it. -/
theorem resume_startable {stamp : Nat → Stamp} {d : Driver} (h : resume spec events stamp = .ok d)
    (hopen : hasEnded events = false) (hnot : .runStarted ∉ payloads events) :
    dispatchOf spec (payloads events) = .created ∨ dispatchOf spec (payloads events) = .starting := by
  have hany : (events.any fun event => event.payload = .runStarted) = false := by
    rw [Bool.eq_false_iff]
    exact fun hany => hnot ((mem_runStarted_iff events).mp hany)
  simp only [resume, hopen, Bool.false_eq_true, ↓reduceIte, hany, Bool.not_false] at h
  split at h
  · next hcreated => exact .inl hcreated
  · next hstarting => exact .inr hstarting
  · cases h

/-- A driver resumed from an open log whose readings agree. -/
theorem resume_driven {stamp : Nat → Stamp} {d : Driver} (h : resume spec events stamp = .ok d)
    (hopen : hasEnded events = false) (hagrees : Agrees spec (payloads events)) : Driven spec events d := by
  have hopen' : (payloads events).any isTerminal = false := by rwa [hasEnded_eq] at hopen
  have hharness := hagrees.harness_open hopen'
  have hsame : ∀ {resumed}, d.Starts spec events [] resumed → .runStarted ∈ payloads events → Driven spec events d := by
    intro resumed hstarts hstarted
    have hlog : d.log = payloads events := by simpa using hstarts.log_eq
    obtain ⟨more, hevents, hmore⟩ := hstarts.events_eq
    exact ⟨hstarts.spec_eq, hlog ▸ hagrees, hlog ▸ hstarted, more, hevents, by simp [hmore]⟩
  cases resume_cases h with
  | ended hended => simp [hopen] at hended
  | started _ hnot hstarts hpending hundecided =>
      have hlog : d.log = payloads events ++ [.runStarted] := hstarts.log_eq
      obtain ⟨more, hevents, hmore⟩ := hstarts.events_eq
      refine ⟨hstarts.spec_eq, ?_, by simp [hlog], more, hevents, by simp [hmore, isDriven]⟩
      rw [hlog]
      exact hagrees.snoc hopen' (by simp) (fun _ => .inr (resume_startable h hopen hnot)) (by simp)
  | completed _ hstarted outcome heq => simp [heq, HarnessState.isTerminal] at hharness
  | terminal _ hstarted hterminal => simp [hterminal] at hharness
  | undecided _ hstarted _ before effect hlast hstarts => exact hsame hstarts hstarted
  | pending _ hstarted _ hlast hstarts => exact hsame hstarts hstarted

theorem Driven.setUp {d : Driver} (h : Driven spec events d) (setup : Setup) : Driven spec events (d.setUp setup) :=
  ⟨h.spec_eq, h.agrees, h.started, h.added⟩

/-! ### The contract with the caller -/

/-- The contract of `runUntil` on a resumed log, with what it has driven shown at each boundary and when it returns. -/
theorem Resumed.runUntil_drives {d : Driver} (h : Resumed spec events d) (hopen : hasEnded events = false)
    (hagrees : Agrees spec (payloads events)) (hdriven : Driven spec events d) (tools : List ToolDescriptor) :
    (World Seen Seen.Step fun seen c => seen.Owes spec c ∧ ∀ driver, c = .boundary driver →
      Driven spec events driver).Safe
      (fun seen result => Returns spec seen result ∧ Driven spec events result.1) (runUntil tools d)
        ⟨events, false⟩ := by
  have hopen' : (payloads events).any isTerminal = false := by rwa [hasEnded_eq] at hopen
  have hsettled : Driven spec events d.settled := ⟨hdriven.spec_eq, hdriven.agrees, hdriven.started, hdriven.added⟩
  have hlogEnded : d.settled.logEnded = false := by
    refine h.logEnded_of_open hopen fun outcome heq => ?_
    have hharness := hagrees.harness_open hopen'
    simp [heq, HarnessState.isTerminal] at hharness
  refine h.runUntil_returns_with (endsOnce_of_none hopen') tools (driven_logRule spec events)
    fun call added d' hfinished hext => ?_
  exact hsettled.extends hlogEnded (hfinished.fits hdriven.started) hfinished.driven hext

end Driver
end Gol
