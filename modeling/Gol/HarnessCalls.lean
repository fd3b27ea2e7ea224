import Gol.HarnessPace

/-! The calls of a run. Each is made at a log that runs build, so what holds of such logs holds where a call is made:
what was authorized there was allowed, and a call for a child carries the numbers that the log's fold gives. -/

namespace Gol.Driver
open Library

/-! ### What was authorized was allowed -/

/-- Each effect the log authorized is one that its run may carry out. -/
def Granted (spec : RunSpec) (log : List EventPayload) : Prop :=
  ∀ effect, .effectAuthorized effect ∈ log → Allows spec effect

namespace Granted

variable {spec : RunSpec} {log added : List EventPayload}

theorem cut {part : List EventPayload} (h : Granted spec log) (hcut : part <+: log) : Granted spec part :=
  fun effect hmem => h effect (hcut.subset hmem)

theorem append (h : Granted spec log) (hadded : Granted spec added) : Granted spec (log ++ added) := by
  intro effect hmem
  rcases List.mem_append.mp hmem with hbefore | hafter
  · exact h effect hbefore
  · exact hadded effect hafter

theorem of_none (hadded : ∀ effect, .effectAuthorized effect ∉ added) : Granted spec added :=
  fun effect hmem => absurd hmem (hadded effect)

/-- What carries out an authorized effect authorizes nothing. -/
theorem outcome {mid last : Driver} {effect : Effect} {call : Option (Sigma HarnessCall.Answer)}
    (houtcome : mid.Outcome effect call added) : Granted spec (added ++ last.advance) := by
  apply append
  · apply of_none
    intro effect hmem
    have hquiet := List.all_eq_true.mp houtcome.not_authorized _ hmem
    cases hquiet
  · apply of_none
    rcases last.advance_cases with hnone | hone
    · simp [hnone]
    · simp [hone]

end Granted

theorem Batch.granted {d : Driver} {call : Option (Sigma HarnessCall.Answer)} {added : List EventPayload}
    (h : d.Batch call added) : Granted d.spec added := by
  cases h with
  | overBudget effect hover => exact .of_none (by simp)
  | denied effect reason hbudget hcomplete => exact .of_none (by simp)
  | completed outcome hrunning hallows =>
      intro effect hmem
      obtain rfl : effect = .complete outcome := by simpa using hmem
      exact hallows
  | performed effect call mid last more hbudget happlicable heffect hmid houtcome hlast hallows =>
      rw [List.append_assoc]
      apply Granted.append
      · intro other hmem
        obtain rfl : other = effect := by simpa using hmem
        exact hallows
      · exact .outcome houtcome

theorem Finished.granted {d : Driver} {call : Option (Sigma HarnessCall.Answer)} {added : List EventPayload}
    (h : d.Finished call added) : Granted d.spec added := by
  have hadvance : ∀ last : Driver, Granted d.spec last.advance := by
    intro last
    apply Granted.of_none
    rcases last.advance_cases with hnone | hone
    · simp [hnone]
    · simp [hone]
  cases h with
  | untouched => exact .of_none (by simp)
  | advanced => exact hadvance _
  | performed effect call last more hpending hundecided houtcome hlast => exact .outcome houtcome
  | denied harness effect reason last hundecided hlast => exact .append (.of_none (by simp)) (hadvance last)
  | completed harness outcome last hundecided hrunning hlast hallows =>
      apply Granted.append _ (hadvance last)
      intro effect hmem
      obtain rfl : effect = .complete outcome := by simpa using hmem
      exact hallows
  | authorized harness effect call mid last more hundecided happlicable heffect hmid houtcome hlast hallows =>
      rw [List.append_assoc]
      apply Granted.append
      · intro other hmem
        obtain rfl : other = effect := by simpa using hmem
        exact hallows
      · exact .outcome houtcome

theorem granted_logRule : LogRule fun d => Granted d.spec d.log where
  batch d call added d' hd _ hbatch hext := by
    rw [hext.spec_eq, hext.log_eq]
    exact hd.append hbatch.granted
  cancelled d hd _ := by
    have hext : d.Extends d.cancel [.runCancelled] := d.extends_push _ _
    rw [hext.spec_eq, hext.log_eq]
    exact hd.append (.of_none (by simp))

theorem Resumed.granted {spec : RunSpec} {events : List Event} {d : Driver} (h : Resumed spec events d)
    (hgranted : Granted spec (payloads events)) : Granted d.spec d.log := by
  have hstarted : ∀ {added resumed}, d.Starts spec events added resumed → (∀ effect, .effectAuthorized effect ∉ added) →
      Granted d.spec d.log := by
    intro added resumed hstarts hadded
    rw [hstarts.spec_eq, hstarts.log_eq]
    exact hgranted.append (.of_none hadded)
  cases h with
  | started _ _ hstarts | completed _ _ _ _ hstarts => exact hstarted hstarts (by simp)
  | ended _ hstarts | terminal _ _ _ _ hstarts | undecided _ _ _ _ _ _ hstarts | pending _ _ _ _ hstarts =>
      exact hstarted hstarts (by simp)

theorem Resumed.runUntil_granted {spec : RunSpec} {events : List Event} {d : Driver} (h : Resumed spec events d)
    (hgranted : Granted spec (payloads events)) {tools : List ToolDescriptor} {result : Driver × Finish}
    (hrun : (runUntil tools d).Yields result) : Granted spec (payloads result.1.events) := by
  obtain ⟨hlog, -⟩ := granted_logRule.yields h.resumable
    (fun call added d' hfinished hext => by
      rw [hext.spec_eq, hext.log_eq]
      exact (h.granted hgranted).append hfinished.granted) hrun
  obtain ⟨⟨hspec, -⟩, -⟩ := runUntil_extends h.resumable hrun
  rwa [hspec, h.spec_eq] at hlog

theorem Builds.granted {spec : RunSpec} {events : List Event} (h : Builds spec events) :
    Granted spec (payloads events) := by
  induction h with
  | nil => exact .of_none (by simp)
  | boot hrun => exact ((resume_cases (resume_nil spec _)).setUp _).runUntil_granted (.of_none (by simp)) hrun
  | resume _ hresume hrun ih => exact ((resume_cases hresume).setUp _).runUntil_granted ih hrun
  | cut _ hcut ih => exact ih.cut (hcut.map Event.payload)
  | @beside events event _ hwhole hbeside ih =>
      rw [payloads_append]
      apply ih.append
      intro effect hmem
      have hpayload : event.payload = .effectAuthorized effect := (List.mem_singleton.mp hmem).symm
      rw [hpayload] at hbeside
      cases hbeside

/-! ### Where calls are made -/

theorem answer_nonempty (c : HarnessCall) : Nonempty c.Answer := by
  cases c with
  | decide view => exact ⟨.error ⟨""⟩⟩
  | tool log name input => exact ⟨.error ""⟩
  | model log request => exact ⟨.error ""⟩
  | memoryRead log owner key => exact ⟨.error ()⟩
  | memoryWrite log owner key value => exact ⟨.error ()⟩
  | spawn log request => exact ⟨.error ""⟩
  | send log request => exact ⟨.error ""⟩
  | boundary driver => exact ⟨.pause⟩

/-- The logs that calls were made at stay in the driver's. -/
theorem calls_loopRule (tools : List ToolDescriptor) :
    LoopRule (fun (made : List (List Event)) c _ later => later = c.log :: made) (fun _ _ => True) tools
      (fun made d => ∀ log ∈ made, log <+: d.events) (fun made result => ∀ log ∈ made, log <+: result.1.events) where
  boundary made d hI _ := by
    refine ⟨trivial, ?_⟩
    rintro answer later rfl
    exact List.forall_mem_cons.mpr ⟨List.prefix_rfl, hI⟩
  decide made d hI _ := by
    refine ⟨trivial, ?_⟩
    rintro answer later rfl
    exact List.forall_mem_cons.mpr ⟨List.prefix_rfl, hI⟩
  work _ _ _ _ _ _ _ _ _ _ := trivial
  batch made d added d' hI _ _ hext log hmade := (hI log hmade).trans hext.grows
  batchCall made d c answer later added d' hI _ hstep _ hext hlog := by
    subst hstep
    exact List.forall_mem_cons.mpr ⟨hlog, fun log hmade => (hI log hmade).trans hext.grows⟩
  ended _ _ hI _ := hI
  cancelled made d later hI _ hstep := by
    subst hstep
    have hgrows : d.events <+: d.cancel.events := (d.extends_push .runCancelled .system).grows
    exact List.forall_mem_cons.mpr ⟨hgrows, fun log hmade => (hI log hmade).trans hgrows⟩
  paused made d later hI _ hstep := by
    subst hstep
    exact List.forall_mem_cons.mpr ⟨List.prefix_rfl, hI⟩
  waiting made d later _ _ _ hI _ hstep _ := by
    subst hstep
    exact List.forall_mem_cons.mpr ⟨List.prefix_rfl, hI⟩
  failed made d error later hI _ hstep := by
    subst hstep
    exact List.forall_mem_cons.mpr ⟨List.prefix_rfl, hI⟩

/-- The calls of the runs of `spec`, whatever they go on from, are decided and are answered. -/
def MadeBy (spec : RunSpec) (c : HarnessCall) : Prop :=
  ∃ events stamp d setup tools, Builds spec events ∧ Driver.resume spec events stamp = .ok d ∧
    (runUntil tools (d.setUp setup)).Makes c

namespace MadeBy

variable {spec : RunSpec} {c : HarnessCall}

/-- A call is made at a log that runs build. -/
theorem builds (h : MadeBy spec c) : Builds spec c.log := by
  obtain ⟨events, stamp, d, setup, tools, hbuilt, hresume, hmakes⟩ := h
  have hresumed := (resume_cases hresume).setUp setup
  have hsafe := runUntil_safe (calls_loopRule tools) hresumed.resumable ([] : List (List Event))
    (fun _ _ _ _ _ _ _ => trivial) (fun _ _ _ _ => nofun) (fun c answer later added d' hstep _ _ hlog => by
      subst hstep
      intro log hmem
      obtain rfl := List.mem_singleton.mp hmem
      exact hlog)
  have honly : (runUntil tools (d.setUp setup)).Only fun (c : HarnessCall) =>
      ∃ (result : Driver × Finish) (made : List (List Event)),
        (runUntil tools (d.setUp setup)).Yields result ∧ (∀ log ∈ made, log <+: result.1.events) ∧ c.log ∈ made := by
    let seen (c : HarnessCall) (made : List (List Event)) : Prop := c.log ∈ made
    have htotal : ∀ (made : List (List Event)) (c : HarnessCall) (_ : c.Answer), ∃ later, later = c.log :: made :=
      fun _ _ _ => ⟨_, rfl⟩
    refine Prog.only_of_recorded seen answer_nonempty htotal ?_ ?_ hsafe
    · rintro made c _ later rfl
      exact List.mem_cons_self
    · rintro made c _ later other rfl hmem
      exact List.mem_cons_of_mem _ hmem
  obtain ⟨result, made, hyields, hpost, hmem⟩ := honly.of_makes hmakes
  exact .cut (.resume hbuilt hresume hyields) (hpost c.log hmem)

/-- A call holds what every call of a program holds that carries out an effect its log just authorized. -/
theorem rule {P : HarnessCall → Prop} (h : MadeBy spec c) (hrule : CallRule P) : P c := by
  obtain ⟨events, stamp, d, setup, tools, -, hresume, hmakes⟩ := h
  exact (((resume_cases hresume).setUp setup).runUntil_only hrule tools).of_makes hmakes

end MadeBy

end Gol.Driver
