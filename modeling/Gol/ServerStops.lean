import Mathlib.Data.List.Nodup
import Gol.ServerFires
import Gol.StoreStops

/-! Stopping everything against the triggers. A stop of everything a principal owns pauses its triggers first; a fire
pushes its run only once it has read its trigger again, running at the generation it was fired at, and a resume makes
a new generation. So what a fire from before the pause pushes was stored before the stop, and the stop covers it. -/

namespace Gol
open Library World

variable {fleet : Fleet} {ok : Pool → Move → Prop} {s t : Server} {c : ServerCall} {answer : c.Answer}

/-! ### What becomes of a trigger -/

namespace StoredTrigger

/-- The trigger later: its own still, and either at its generation and running only if it ran, or resumed. -/
structure Follows (later trigger : StoredTrigger) : Prop where
  id : later.id = trigger.id
  owner : later.owner = trigger.owner
  generation : later.generation = trigger.generation ∧ (later.enabled = true → trigger.enabled = true) ∨
    trigger.enabled = false ∧ later.generation = trigger.generation + 1

theorem Follows.refl (trigger : StoredTrigger) : trigger.Follows trigger := ⟨rfl, rfl, .inl ⟨rfl, fun h => h⟩⟩

end StoredTrigger

namespace Triggers

theorem mem_alter {triggers : Triggers} {p : StoredTrigger → Bool} {f : StoredTrigger → StoredTrigger}
    {later : StoredTrigger} (h : later ∈ triggers.alter p f) :
    later ∈ triggers ∨ ∃ trigger ∈ triggers, p trigger = true ∧ later = f trigger := by
  induction triggers with
  | nil => cases h
  | cons trigger rest ih =>
      rw [alter] at h
      split at h
      · next hp =>
          rcases List.mem_cons.mp h with rfl | h
          · exact .inr ⟨trigger, List.mem_cons_self .., hp, rfl⟩
          · exact .inl (List.mem_cons_of_mem _ h)
      · rcases List.mem_cons.mp h with rfl | h
        · exact .inl (List.mem_cons_self ..)
        · rcases ih h with h | ⟨other, hother, hp, rfl⟩
          · exact .inl (List.mem_cons_of_mem _ h)
          · exact .inr ⟨other, List.mem_cons_of_mem _ hother, hp, rfl⟩

theorem alter_ids {triggers : Triggers} {p : StoredTrigger → Bool} {f : StoredTrigger → StoredTrigger}
    (hf : ∀ trigger, (f trigger).id = trigger.id) :
    ((triggers.alter p f).map StoredTrigger.id).Sublist (triggers.map StoredTrigger.id) := by
  induction triggers with
  | nil => exact .refl _
  | cons trigger rest ih =>
      rw [alter]
      split
      · simp [hf]
      · exact ih.cons_cons _

theorem resumed_follows (next : Option Int64) (trigger : StoredTrigger) : (resumed next trigger).Follows trigger := by
  unfold resumed
  split
  · exact .refl trigger
  · next hpaused => exact ⟨rfl, rfl, .inr ⟨by simpa using hpaused, rfl⟩⟩

end Triggers

/-- What a call does to the triggers. Only a put makes one. -/
theorem Controls.exec_triggers {controls : Controls} {runs : RunId → Option StoredRun} {control : ControlCall}
    (hpauses : ∀ owner id enabled, control = .setEnabled owner id enabled → enabled = false) {later : StoredTrigger}
    (h : later ∈ (controls.exec runs control).2.triggers) :
    (∃ trigger ∈ controls.triggers, later.Follows trigger) ∨ ∃ most, control = .putTrigger later most := by
  have hsame : later ∈ controls.triggers → ∃ trigger ∈ controls.triggers, later.Follows trigger :=
    fun h => ⟨later, h, .refl later⟩
  cases control with
  | putTrigger trigger most =>
      simp only [exec, Triggers.putTrigger] at h
      split at h
      · exact .inl (hsame h)
      · rcases List.mem_append.mp h with h | h
        · exact .inl (hsame h)
        · exact .inr ⟨most, by rw [List.mem_singleton.mp h]⟩
  | setEnabled owner id enabled =>
      obtain rfl := hpauses owner id enabled rfl
      rcases Triggers.mem_alter h with h | ⟨trigger, hmem, -, rfl⟩
      · exact .inl (hsame h)
      · exact .inl ⟨trigger, hmem, rfl, rfl, .inl ⟨rfl, nofun⟩⟩
  | deleteTrigger owner id => exact .inl (hsame (List.mem_of_mem_filter h))
  | resumeTrigger owner id next =>
      rcases Triggers.mem_alter h with h | ⟨trigger, hmem, -, rfl⟩
      · exact .inl (hsame h)
      · exact .inl ⟨trigger, hmem, Triggers.resumed_follows next trigger⟩
  | pauseTriggers owner =>
      obtain ⟨trigger, hmem, rfl⟩ := List.mem_map.mp h
      split
      · exact .inl ⟨trigger, hmem, rfl, rfl, .inl ⟨rfl, nofun⟩⟩
      · exact .inl ⟨trigger, hmem, .refl trigger⟩
  | advanceTrigger id due next =>
      rcases Triggers.mem_alter h with h | ⟨trigger, hmem, -, rfl⟩
      · exact .inl (hsame h)
      · exact .inl ⟨trigger, hmem, rfl, rfl, .inl ⟨rfl, fun h => h⟩⟩
  | stopped | putStop | openRunsUnder | trigger | dueTriggers | webhookTrigger
  | unscheduledTriggers => exact .inl (hsame h)

theorem Controls.exec_ids (controls : Controls) (runs : RunId → Option StoredRun) (control : ControlCall) :
    ((controls.exec runs control).2.triggers.map StoredTrigger.id).Sublist (controls.triggers.map StoredTrigger.id) ∨
      ∃ trigger most, control = .putTrigger trigger most ∧
        (controls.exec runs control).2.triggers.map StoredTrigger.id =
          controls.triggers.map StoredTrigger.id ++ [trigger.id] := by
  cases control with
  | putTrigger trigger most =>
      simp only [exec, Triggers.putTrigger]
      split
      · exact .inl (List.Sublist.refl _)
      · exact .inr ⟨trigger, most, rfl, by simp⟩
  | setEnabled owner id enabled => exact .inl (Triggers.alter_ids fun _ => rfl)
  | resumeTrigger owner id next =>
      exact .inl (Triggers.alter_ids fun trigger => (Triggers.resumed_follows next trigger).id)
  | advanceTrigger id due next => exact .inl (Triggers.alter_ids fun _ => rfl)
  | deleteTrigger owner id => exact .inl (List.filter_sublist.map _)
  | pauseTriggers owner =>
      left
      have hids : ((controls.triggers.pauseTriggers owner).2).map StoredTrigger.id =
          controls.triggers.map StoredTrigger.id := by
        simp only [Triggers.pauseTriggers, List.map_map]
        refine List.map_congr_left fun trigger _ => ?_
        simp only [Function.comp_apply]
        split <;> rfl
      exact hids ▸ List.Sublist.refl _
  | stopped | putStop | openRunsUnder | trigger | dueTriggers | webhookTrigger | unscheduledTriggers =>
      exact .inl (List.Sublist.refl _)

namespace Server

theorem Step.triggers (h : s.Step c answer t) :
    t.controls.triggers = s.controls.triggers ∨
      ∃ control, c = .control control ∧ s.Fresh c ∧
        t.controls.triggers = (s.controls.exec s.store.runs control).2.triggers := by
  have hafter : ∀ now, (s.after now c).controls.triggers = s.controls.triggers ∨
      ∃ control, c = .control control ∧
        (s.after now c).controls.triggers = (s.controls.exec s.store.runs control).2.triggers := by
    intro now
    cases c with
    | control control => exact .inr ⟨control, rfl, rfl⟩
    | store c =>
        left
        cases c with
        | putRun run origin =>
            simp only [after, numbered]
            split <;> rfl
        | _ => rfl
    | _ => exact .inl rfl
  cases h with
  | done now hfresh _ | lost now hfresh _ =>
      exact (hafter now).imp_right fun ⟨control, hc, heq⟩ => ⟨control, hc, hfresh, heq⟩
  | failed _ => exact .inl rfl

/-- A call that took effect did. -/
theorem Step.took (h : s.Step c answer t) (htook : t.trace = ⟨c, answer, true⟩ :: s.trace) :
    ∃ now, t = (s.after now c).record ⟨c, answer, true⟩ := by
  cases h with
  | done now _ _ | lost now _ _ => exact ⟨now, rfl⟩
  | failed _ => simp [record] at htook

/-- A put of this trigger was made. -/
def NamedTrigger (s : Server) (id : TriggerId) : Prop := ∃ happened ∈ s.trace, .trigger id ∈ names happened.call

theorem NamedTrigger.later {id : TriggerId} (h : s.NamedTrigger id) (hlater : s.Later t) : t.NamedTrigger id := by
  obtain ⟨happened, hmem, hname⟩ := h
  exact ⟨happened, hlater.trace.subset hmem, hname⟩

/-- The triggers kept have ids of their own, drawn when they were put. -/
structure OwnIds (s : Server) : Prop where
  nodup : (s.controls.triggers.map StoredTrigger.id).Nodup
  named : ∀ trigger ∈ s.controls.triggers, s.NamedTrigger trigger.id

theorem OwnIds.eq_of_id (h : s.OwnIds) {trigger trigger' : StoredTrigger} (hmem : trigger ∈ s.controls.triggers)
    (hmem' : trigger' ∈ s.controls.triggers) (hid : trigger.id = trigger'.id) : trigger = trigger' :=
  List.inj_on_of_nodup_map h.nodup hmem hmem' hid

/-- What a step makes of the triggers. -/
theorem Step.follows {pends : Bool} (h : s.Step c answer t) (howes : Owes fleet pends s c) {later : StoredTrigger}
    (hmem : later ∈ t.controls.triggers) :
    (∃ trigger ∈ s.controls.triggers, later.Follows trigger) ∨ ¬ s.NamedTrigger later.id ∧ t.NamedTrigger later.id := by
  rcases h.triggers with heq | ⟨control, rfl, hfresh, heq⟩
  · exact .inl ⟨later, heq ▸ hmem, .refl later⟩
  · rw [heq] at hmem
    refine (Controls.exec_triggers (fun owner id enabled hc => ?_) hmem).imp_right ?_
    · subst hc
      exact howes
    · rintro ⟨most, rfl⟩
      refine ⟨fun ⟨happened, hhappened, hname⟩ => ?_, ?_⟩
      · exact hfresh rfl (.trigger later.id) (List.mem_singleton_self _) happened hhappened hname
      · obtain ⟨took, htrace⟩ := h.trace_eq
        exact ⟨_, htrace ▸ List.mem_cons_self .., List.mem_singleton_self _⟩

end Server

theorem ownIds {pool : Pool} (h : pool.Reach (Serves fleet) ok) : pool.server.OwnIds := by
  refine h.server_invariant (P := Server.OwnIds) ⟨List.nodup_nil, fun _ hmem => by cases hmem⟩
    (fun _ _ h => ⟨h.nodup, h.named⟩) (fun _ _ h => ⟨h.nodup, h.named⟩) ?_
  intro pool c answer t _ _ howes hown hstep _
  refine ⟨?_, fun later hmem => ?_⟩
  · rcases hstep.triggers with heq | ⟨control, rfl, hfresh, heq⟩
    · rw [heq]
      exact hown.nodup
    · rw [heq]
      rcases pool.server.controls.exec_ids pool.server.store.runs control with hsub | ⟨trigger, most, rfl, hids⟩
      · exact hown.nodup.sublist hsub
      · rw [hids]
        refine hown.nodup.append (List.nodup_singleton _) ?_
        rw [List.disjoint_singleton]
        intro hmem
        obtain ⟨kept, hkept, hid⟩ := List.mem_map.mp hmem
        obtain ⟨happened, hhappened, hname⟩ := hown.named kept hkept
        exact hfresh rfl (.trigger trigger.id) (List.mem_singleton_self _) happened hhappened (hid ▸ hname)
  · rcases hstep.follows howes hmem with ⟨trigger, htrigger, hfollows⟩ | ⟨-, hnamed⟩
    · rw [hfollows.id]
      exact (hown.named trigger htrigger).later hstep.later
    · exact hnamed

/-! ### A trigger that was read -/

/-- The trigger is kept as its own or gone, at no lower generation. -/
structure Server.Continues (s : Server) (trigger : StoredTrigger) : Prop where
  named : s.NamedTrigger trigger.id
  kept : ∀ kept ∈ s.controls.triggers, kept.id = trigger.id →
    kept.owner = trigger.owner ∧ trigger.generation ≤ kept.generation

theorem Server.Continues.step {pends : Bool} {trigger : StoredTrigger} (h : s.Continues trigger)
    (hstep : s.Step c answer t) (howes : Owes fleet pends s c) : t.Continues trigger := by
  refine ⟨h.named.later hstep.later, fun kept hkept hid => ?_⟩
  rcases hstep.follows howes hkept with ⟨before, hbefore, hfollows⟩ | ⟨hnew, -⟩
  · obtain ⟨howner, hgeneration⟩ := h.kept before hbefore (hfollows.id ▸ hid)
    refine ⟨hfollows.owner.trans howner, ?_⟩
    rcases hfollows.generation with ⟨heq, -⟩ | ⟨-, heq⟩ <;> omega
  · exact absurd (hid ▸ h.named) hnew

/-- A read of a trigger answers one that is kept. -/
theorem Server.Step.read {owner : Owner} {id : TriggerId} {trigger : StoredTrigger}
    (h : s.Step (.control (.trigger owner id)) (some (.ok (some trigger))) t) :
    trigger ∈ s.controls.triggers ∧ Triggers.isOf owner id trigger = true := by
  obtain ⟨now, -, hanswers, -⟩ := h.answers (by rintro ⟨⟩)
  have heq : (some (.ok (some trigger)) : Option (Except StoreError (Option StoredTrigger))) =
      some (.ok (s.controls.triggers.trigger owner id)) := hanswers.control_eq
  have hfound := (Except.ok.inj (Option.some.inj heq)).symm
  exact ⟨List.mem_of_find?_eq_some hfound, List.find?_some hfound⟩

theorem Server.OwnIds.continues (h : s.OwnIds) {trigger : StoredTrigger} (hmem : trigger ∈ s.controls.triggers) :
    s.Continues trigger := by
  refine ⟨h.named trigger hmem, fun kept hkept hid => ?_⟩
  rw [h.eq_of_id hkept hmem hid]
  exact ⟨rfl, le_rfl⟩

theorem read_continues {pool : Pool} (h : pool.Reach (Serves fleet) ok) {owner : Owner} {id : TriggerId}
    {trigger : StoredTrigger} (hread : pool.server.Asked (.control (.trigger owner id)) (some (.ok (some trigger)))) :
    pool.server.Continues trigger := by
  revert hread
  refine h.reached_invariant (P := fun s => s.Asked (.control (.trigger owner id)) (some (.ok (some trigger))) →
    s.Continues trigger) (fun ⟨_, hmem⟩ => by cases hmem)
    (fun _ _ h hread => ⟨(h hread).named, (h hread).kept⟩) (fun _ _ h hread => ⟨(h hread).named, (h hread).kept⟩) ?_
  rintro pool c answer t hreach - howes hcontinues hstep ⟨took, hmem⟩
  obtain ⟨took', htrace⟩ := hstep.trace_eq
  rw [htrace] at hmem
  rcases List.mem_cons.mp hmem with hhead | hmem
  · cases hhead
    exact ((ownIds hreach).continues hstep.read.1).step hstep howes
  · exact (hcontinues ⟨took, hmem⟩).step hstep howes

/-- The owner's triggers were paused after this one was read. -/
def PausedAfter (trace : List Happened) (owner : Owner) (trigger : StoredTrigger) : Prop :=
  ∃ newer older answer reader took,
    trace = newer ++ ⟨.control (.pauseTriggers owner), answer, true⟩ :: older ∧
      ⟨.control (.trigger reader trigger.id), some (.ok (some trigger)), took⟩ ∈ older

/-- A trigger that was read, then paused, is kept paused or at a later generation. -/
theorem paused_since {pool : Pool} (h : pool.Reach (Serves fleet) ok) {owner : Owner} {trigger : StoredTrigger}
    (howner : trigger.owner.is owner = true) (hpaused : PausedAfter pool.server.trace owner trigger) :
    ∀ kept ∈ pool.server.controls.triggers, kept.id = trigger.id →
      kept.enabled = false ∨ trigger.generation < kept.generation := by
  revert hpaused
  refine h.reached_invariant (P := fun s => PausedAfter s.trace owner trigger →
    ∀ kept ∈ s.controls.triggers, kept.id = trigger.id → kept.enabled = false ∨ trigger.generation < kept.generation)
    (fun _ _ hmem => by cases hmem) (fun _ _ h => h) (fun _ _ h => h) ?_
  rintro pool c answer t hreach - howes hkept hstep ⟨newer, older, paused, reader, took, htrace, hread⟩ kept hmem hid
  obtain ⟨took', hcons⟩ := hstep.trace_eq
  rw [hcons] at htrace
  cases newer with
  | nil =>
      obtain ⟨hhead, rfl⟩ := List.cons.inj htrace
      cases hhead
      obtain ⟨now, rfl⟩ := hstep.took hcons
      obtain ⟨before, hbefore, rfl⟩ := List.mem_map.mp hmem
      have hcontinues := read_continues hreach ⟨took, hread⟩
      left
      split at hid
      · next hof => rw [if_pos hof]
      · next hof =>
          rw [(hcontinues.kept before hbefore hid).1] at hof
          exact absurd howner hof
  | cons newest newer =>
      obtain ⟨rfl, hrest⟩ := List.cons.inj htrace
      have hmem' : ⟨.control (.trigger reader trigger.id), some (.ok (some trigger)), took⟩ ∈ pool.server.trace := by
        rw [hrest]
        exact List.mem_append_right _ (List.mem_cons_of_mem _ hread)
      have hcontinues := read_continues hreach ⟨took, hmem'⟩
      rcases hstep.follows howes hmem with ⟨before, hbefore, hfollows⟩ | ⟨hnew, -⟩
      · have hid' := hfollows.id ▸ hid
        have hgeneration := (hcontinues.kept before hbefore hid').2
        have hbefore' := hkept ⟨newer, older, paused, reader, took, hrest, hread⟩ before hbefore hid'
        rcases hfollows.generation with ⟨heq, hruns⟩ | ⟨-, heq⟩
        · refine hbefore'.imp (fun hpaused => ?_) fun hlater => by omega
          cases henabled : kept.enabled with
          | false => rfl
          | true => exact absurd (hruns henabled) (by simp [hpaused])
        · exact .inr (by omega)
      · exact absurd (hid ▸ hcontinues.named) hnew

/-- A gate at a generation that was read before the pause was read open before it too. -/
theorem gated_before_pause {pool : Pool} (h : pool.Reach (Serves fleet) ok) {owner reader : Owner}
    {trigger : StoredTrigger} (howner : trigger.owner.is owner = true) {newer older : List Happened}
    {paused : Option (Except StoreError Nat)} {took : Bool}
    (htrace : pool.server.trace = newer ++ ⟨.control (.pauseTriggers owner), paused, true⟩ :: older)
    (hread : ⟨.control (.trigger reader trigger.id), some (.ok (some trigger)), took⟩ ∈ older) {run : RunId}
    {gate : FireGate} (hgated : pool.server.Gated run gate) (hid : gate.trigger = trigger.id)
    (hgeneration : gate.generation = trigger.generation) : Server.Shown older run := by
  obtain ⟨newer', older', again, took', htrace', henabled, hagain, hshown⟩ := hgated
  rcases List.append_eq_append_iff.mp (htrace.symm.trans htrace') with ⟨between, -, hrest⟩ | ⟨between, -, hrest⟩
  · cases between with
    | nil => cases (List.cons.inj hrest).1
    | cons first between =>
        have hsuffix : older = between ++ _ :: older' := (List.cons.inj hrest).2
        refine hshown.mono fun happened hmem => ?_
        rw [hsuffix]
        exact List.mem_append_right _ (List.mem_cons_of_mem _ hmem)
  · cases between with
    | nil => cases (List.cons.inj hrest).1
    | cons first between =>
        have hsuffix : older' = between ++ _ :: older := (List.cons.inj hrest).2
        obtain ⟨before, t, hbefore, -, -, hstep, hbefore', -, -⟩ := h.made htrace'
        have hpaused : PausedAfter before.server.trace owner trigger :=
          ⟨between, older, paused, reader, took, hbefore'.trans hsuffix, hread⟩
        obtain ⟨hmem, hof⟩ := Server.Step.read hstep
        simp only [Triggers.isOf, Bool.and_eq_true, decide_eq_true_eq] at hof
        rcases paused_since hbefore howner hpaused again hmem (hof.1.trans hid) with hoff | hlater
        · simp [henabled] at hoff
        · omega

/-! ### The stop -/

namespace Server

/-- The store with its stops. -/
def stopStore (s : Server) : StopStore := ⟨s.store, s.controls.stops⟩

/-- What a step makes of the store and its stops is nothing, a write or a stop. -/
theorem Step.stopStore (h : s.Step c answer t) :
    t.stopStore = s.stopStore ∨ ∃ op, t.stopStore = s.stopStore.apply op := by
  have hafter : ∀ now, (s.after now c).stopStore = s.stopStore ∨
      ∃ op, (s.after now c).stopStore = s.stopStore.apply op := by
    intro now
    cases c with
    | control control =>
        cases control with
        | putStop owner scope => exact .inr ⟨.stop owner scope, rfl⟩
        | _ => exact .inl rfl
    | store c =>
        cases c with
        | run id => exact .inl rfl
        | putRun run origin =>
            refine .inr ⟨.write now (.putRun run), ?_⟩
            have hstops : (s.numbered now (.putRun run origin)).stops =
                s.stopStore.numbered (.putRun run) (s.store.exec now (.putRun run)).2 := by
              rw [numbered]
              split
              · next hstored => rw [hstored]; rfl
              · next hnot =>
                  generalize (s.store.exec now (.putRun run)).2 = answer at hnot
                  cases answer with
                  | put done => cases done <;> first | rfl | exact absurd rfl hnot
                  | _ => rfl
            exact congrArg (StopStore.mk _) hstops
        | appendEvents id events party => exact .inr ⟨.write now (.appendEvents id events), rfl⟩
        | appendEventsAfter id seen events party => exact .inr ⟨.write now (.appendEventsAfter id seen events), rfl⟩
    | _ => exact .inl rfl
  cases h with
  | done now _ _ | lost now _ _ => exact hafter now
  | failed _ => exact .inl rfl

/-- What a step makes of the stops: a stop that was put, or a run that was stored, takes the next number. -/
theorem Step.stops (h : s.Step c answer t) :
    t.controls.stops = s.controls.stops ∨
    (∃ owner scope, t.controls.stops = s.controls.stops.putStop owner scope) ∨
    ∃ run, s.store.runs run = none ∧ t.controls.stops = s.controls.stops.putRun run := by
  rcases h.stopStore with heq | ⟨op, heq⟩
  · exact .inl (congrArg StopStore.stops heq)
  · have hstops : t.controls.stops = (s.stopStore.apply op).stops := congrArg StopStore.stops heq
    cases op with
    | stop owner scope => exact .inr (.inl ⟨owner, scope, hstops⟩)
    | write now op =>
        rcases s.stopStore.stops_write now op with hsame | ⟨run, hnone, -, hput⟩
        · exact .inl (hstops.trans hsame)
        · exact .inr (.inr ⟨run.spec.runId, hnone, hstops.trans hput⟩)

/-- A stop of everything the principal owns covers the run. -/
def Covers (s : Server) (owner : Owner) (run : RunId) : Prop :=
  ∃ entry ∈ s.controls.stops.entries, entry.principal = principal owner ∧ entry.scope = .owner ∧
    s.controls.stops.numberOf run < entry.number

theorem Covers.stopped {owner : Owner} {run : RunId} (h : s.Covers owner run) {stored : StoredRun}
    (hrun : s.store.runs run = some stored) (hid : stored.spec.runId = run)
    (howner : stored.spec.owner.is owner = true) :
    s.controls.stops.stopped s.store.runs run = true := by
  obtain ⟨entry, hmem, hprincipal, hscope, hnumber⟩ := h
  have hnames : s.controls.stops.names stored.spec = true := by
    refine List.any_eq_true.mpr ⟨entry, hmem, ?_⟩
    simp only [Bool.and_eq_true, decide_eq_true_eq]
    refine ⟨?_, ?_⟩
    · simp only [Owner.is, Bool.and_eq_true, beq_iff_eq] at howner
      rw [hprincipal, principal, principal, howner.1, howner.2]
    · simpa [stopNames, hscope, hid] using hnumber
  simp [Stops.stopped, Stops.stoppedWithin, hrun, hnames]

/-- A stop that covers a stored run is replaced only by later ones. -/
theorem Covers.step {owner : Owner} {run : RunId} (h : s.Covers owner run) (hstep : s.Step c answer t)
    (horder : s.controls.stops.numberOf run ≤ s.controls.stops.order) (hstored : s.store.runs run ≠ none) :
    t.Covers owner run := by
  obtain ⟨entry, hmem, hprincipal, hscope, hnumber⟩ := h
  rcases hstep.stops with heq | ⟨owner', scope, heq⟩ | ⟨new, hnone, heq⟩
  · exact ⟨entry, heq ▸ hmem, hprincipal, hscope, heq ▸ hnumber⟩
  · by_cases hsame : entry.principal = principal owner' ∧ entry.scope = scope
    · refine ⟨⟨principal owner', scope, s.controls.stops.order + 1⟩, ?_, hsame.1.symm.trans hprincipal,
        hsame.2.symm.trans hscope, ?_⟩
      · rw [heq]
        exact List.mem_append_right _ (List.mem_singleton_self _)
      · rw [heq]
        exact Nat.lt_succ_of_le horder
    · refine ⟨entry, ?_, hprincipal, hscope, heq ▸ hnumber⟩
      rw [heq]
      exact List.mem_append_left _ (List.mem_filter.mpr ⟨hmem, decide_eq_true hsame⟩)
  · refine ⟨entry, heq ▸ hmem, hprincipal, hscope, ?_⟩
    rw [heq]
    rcases s.controls.stops.numberOf_putRun new run with hsame | ⟨rfl, -⟩
    · rwa [hsame]
    · exact absurd hnone hstored

end Server

/-- The store a pool reaches is one that writes and stops make. -/
theorem stopStore_history {pool : Pool} (h : pool.Reach (Serves fleet) ok) :
    ∃ ops, pool.server.stopStore = StopStore.empty.applyAll ops := by
  refine h.server_invariant (P := fun s => ∃ ops, s.stopStore = StopStore.empty.applyAll ops) ⟨[], rfl⟩
    (fun _ _ h => h) (fun _ _ h => h) ?_
  rintro pool c answer t _ _ _ ⟨ops, hops⟩ hstep _
  rcases hstep.stopStore with heq | ⟨op, heq⟩
  · exact ⟨ops, heq.trans hops⟩
  · refine ⟨ops ++ [op], ?_⟩
    rw [heq, hops, StopStore.applyAll_append]
    rfl

theorem numberOf_le_order {pool : Pool} (h : pool.Reach (Serves fleet) ok) (run : RunId) :
    pool.server.controls.stops.numberOf run ≤ pool.server.controls.stops.order := by
  refine h.server_invariant (P := fun s => s.controls.stops.numberOf run ≤ s.controls.stops.order)
    (Nat.le_refl 0) (fun _ _ h => h) (fun _ _ h => h) ?_
  intro pool c answer t _ _ _ horder hstep _
  rcases hstep.stops with heq | ⟨owner, scope, heq⟩ | ⟨new, -, heq⟩
  · rwa [heq]
  · rw [heq]
    exact Nat.le_succ_of_le horder
  · rw [heq]
    rcases pool.server.controls.stops.numberOf_putRun new run with hsame | ⟨-, hnew⟩
    · rw [hsame]
      exact Nat.le_succ_of_le horder
    · exact hnew.le

/-- A run that was stored before its principal's stop is covered ever after. -/
theorem covered_since {pool : Pool} (h : pool.Reach (Serves fleet) ok) {owner : Owner} {run : RunId}
    {newer older : List Happened} {stopped : Option (Except StoreError Unit)}
    (htrace : pool.server.trace = newer ++ ⟨.control (.putStop owner .owner), stopped, true⟩ :: older)
    (hshown : Server.Shown older run) : pool.server.Covers owner run := by
  revert newer htrace
  suffices hcovers : ∀ newer, pool.server.trace = newer ++ ⟨.control (.putStop owner .owner), stopped, true⟩ :: older →
      pool.server.Covers owner run from fun {newer} => hcovers newer
  refine h.reached_invariant (P := fun s => ∀ newer,
    s.trace = newer ++ ⟨.control (.putStop owner .owner), stopped, true⟩ :: older → s.Covers owner run)
    (fun newer htrace => by cases newer <;> cases htrace) (fun _ _ h => h) (fun _ _ h => h) ?_
  intro pool c answer t hreach _ howes hcovers hstep newer htrace
  have horder := numberOf_le_order hreach run
  obtain ⟨took, hcons⟩ := hstep.trace_eq
  rw [hcons] at htrace
  cases newer with
  | nil =>
      obtain ⟨hhead, rfl⟩ := List.cons.inj htrace
      cases hhead
      obtain ⟨now, rfl⟩ := hstep.took hcons
      exact ⟨⟨principal owner, .owner, pool.server.controls.stops.order + 1⟩,
        List.mem_append_right _ (List.mem_singleton_self _), rfl, rfl, Nat.lt_succ_of_le horder⟩
  | cons newest newer =>
      obtain ⟨rfl, hrest⟩ := List.cons.inj htrace
      have hshown' : Server.Shown pool.server.trace run := by
        refine hshown.mono fun happened hmem => ?_
        rw [hrest]
        exact List.mem_append_right _ (List.mem_cons_of_mem _ hmem)
      obtain ⟨spec, events, hsaw⟩ := hreach.sound.shown hshown'
      obtain ⟨more, hstored⟩ := hsaw.stored
      exact (hcovers newer hrest).step hstep horder (by simp [hstored])

/-- A fired run records the gate of its fire, by which a sweep settles it. -/
theorem recordedGate_keyed (u : Uuids) (trigger : StoredTrigger) (agent : AgentManifest) (drawn : RunId)
    (key : Option FireKey) :
    recordedGate u (keyed (runOf u trigger agent drawn) key) =
      some ⟨trigger.owner, trigger.id, trigger.generation⟩ := by
  have hgeneration : (keyed (runOf u trigger agent drawn) key).metadataGet generationKey =
      some trigger.generation.repr := by
    rcases key with _ | (_ | _) <;> rfl
  have howner : (keyed (runOf u trigger agent drawn) key).owner = trigger.owner := by
    rcases key with _ | (_ | _) <;> rfl
  simp [recordedGate, keyed_trigger, hgeneration, howner, u.parse_text, parseDecimal_repr]

/-- Stopping everything beats the triggers. A fire that read its trigger before its principal's triggers were paused,
and a sweep that settles a run of that generation, push a run only if it was stored before the stop that followed the
pause; then the stop covers the run in every later state, whatever was resumed in between. Neither pushes a fired run
but through such a gate. -/
theorem stopped_fires (fleet : Fleet) {pool : Pool} (h : pool.Reach (Serves fleet) anyMove) (owner reader : Owner)
    (trigger : StoredTrigger) (howner : trigger.owner.is owner = true) (newer between older : List Happened)
    (stopped : Option (Except StoreError Unit)) (paused : Option (Except StoreError Nat)) (took : Bool)
    (htrace : pool.server.trace = newer ++ ⟨.control (.putStop owner .owner), stopped, true⟩ ::
      (between ++ ⟨.control (.pauseTriggers owner), paused, true⟩ :: older))
    (hread : ⟨.control (.trigger reader trigger.id), some (.ok (some trigger)), took⟩ ∈ older) (run : RunId) :
    (∀ gate : FireGate, gate.trigger = trigger.id → gate.generation = trigger.generation →
      (∃ p ∈ pool.processes, p.Waits (.queue (.pushOnce run (some gate)))) ∨
        (∃ answer took, ⟨.queue (.pushOnce run (some gate)), answer, took⟩ ∈ pool.server.trace) →
      Server.Shown older run ∧ ∀ stored, pool.server.store.runs run = some stored → stored.spec.owner.is owner = true →
        pool.server.controls.stops.stopped pool.server.store.runs run = true) ∧
    ∀ stored, pool.server.store.runs run = some stored → stored.spec.metadataGet triggerKey ≠ none →
      ∀ p ∈ pool.processes, ¬ p.Waits (.queue (.push run)) := by
  refine ⟨fun gate hid hgeneration hpush => ?_, fun stored hrun hkey p hp => ?_⟩
  · have hgated : pool.server.Gated run gate := by
      rcases hpush with ⟨p, hp, hwaits⟩ | ⟨answer, took', hmem⟩
      · obtain ⟨-, _, ⟨⟩, hgated⟩ := h.owes hp hwaits
        exact hgated
      · obtain ⟨newer', older', hsplit⟩ := List.append_of_mem hmem
        obtain ⟨before, t, -, -, ⟨-, _, ⟨⟩, hgated⟩, hstep, -, -, hlater⟩ := h.made hsplit
        exact hgated.later (hstep.later.trans hlater)
    have hpaused : pool.server.trace = (newer ++ ⟨.control (.putStop owner .owner), stopped, true⟩ :: between) ++
        ⟨.control (.pauseTriggers owner), paused, true⟩ :: older := by simpa using htrace
    have hshown := gated_before_pause h howner hpaused hread hgated hid hgeneration
    refine ⟨hshown, fun stored hrun hof => ?_⟩
    have hbefore : Server.Shown (between ++ ⟨.control (.pauseTriggers owner), paused, true⟩ :: older) run :=
      hshown.mono fun happened hmem => List.mem_append_right _ (List.mem_cons_of_mem _ hmem)
    exact (covered_since h htrace hbefore).stopped hrun (h.sound.logs run stored hrun).1 hof
  · have hmarked : pool.server.Marked run := fun stored' hrun' => by
      rw [hrun, Option.some.injEq] at hrun'
      exact hrun' ▸ hkey
    exact hmarked.not_pushed h hp

/-! ### A webhook stopped -/

/-- What a call did that concerns a trigger and a run of its. -/
inductive FireMark where
  | read (running : Bool) (generation : Nat)
  | paused
  | stopped
  | resumed (generation : Nat)
  | stored (recorded : Option Nat)
  | pushed (gate : Option Nat)
  deriving DecidableEq

def markOf (u : Uuids) (id : TriggerId) (run : RunId) : (c : ServerCall) → c.Answer → Option FireMark
  | .control (.trigger _ other), some (.ok (some trigger)) =>
      if other = id then some (.read trigger.enabled trigger.generation) else none
  | .control (.pauseTriggers _), some (.ok _) => some .paused
  | .control (.putStop _ .owner), some (.ok _) => some .stopped
  | .control (.resumeTrigger _ other _), some (.ok (some trigger)) =>
      if other = id then some (.resumed trigger.generation) else none
  | .store (.putRun put _), .ok .stored =>
      if put.spec.runId = run then some (.stored ((recordedGate u put.spec).map FireGate.generation)) else none
  | .queue (.pushOnce other gate), .ok (true : Bool) =>
      if other = run then some (.pushed (gate.map FireGate.generation)) else none
  | _, _ => none

def Server.marks (s : Server) (u : Uuids) (id : TriggerId) (run : RunId) : List FireMark :=
  s.trace.filterMap fun happened => markOf u id run happened.call happened.answer

/-- An event is delivered twice. The first delivery reads the webhook, everything is stopped, the first delivery
stores the event's run, the webhook is resumed, and the second delivery fires it. -/
def stoppedThenResumed : List Pool.Turn :=
  .spawn (forget (createTrigger Fleet.plain.nextTick hook)) :: Pool.callsThere 0 3 ++
  .spawn (forget (fireWebhook .plain hook "a" "body")) :: Pool.callsThere 0 2 ++
  .spawn (forget (stopOwner hook.owner)) :: Pool.callsThere 0 4 ++
  .spawn (forget (fireWebhook .plain hook "a" "body")) :: Pool.callsThere 0 1 ++
  Pool.callsThere 2 5 ++
  .spawn (forget (resumeTrigger Fleet.plain.nextTick hook.owner hook.id)) :: Pool.callsThere 0 2 ++
  Pool.callsThere 1 9

theorem serves_stoppedThenResumed : ∀ p ∈ Pool.started stoppedThenResumed, Serves .plain p := by
  intro p hp
  rcases hp with _ | ⟨_, _ | ⟨_, _ | ⟨_, _ | ⟨_, _ | ⟨_, hp⟩⟩⟩⟩⟩
  · exact .create _
  · exact .webhook _ _ _
  · exact .stopOwner _
  · exact .webhook _ _ _
  · exact .resume _ _
  · cases hp

/-- The run that the first delivery stored after the stop is pushed after the resume, and no stop covers it. -/
theorem resumed_fire_pushed :
    ∃ pool : Pool, pool.Reach (Serves .plain) anyMove ∧
      pool.server.marks .plain hook.id ⟨17⟩ =
        [.pushed (some 1), .read true 1, .read true 1, .resumed 1, .read false 0, .stored (some 0), .stopped, .paused,
          .read true 0] ∧
      pool.server.controls.stops.stopped pool.server.store.runs ⟨17⟩ = false := by
  obtain ⟨pool, hreach, hshows⟩ := Pool.reached_of_any stoppedThenResumed
    (fun pool => pool.server.marks .plain hook.id ⟨17⟩ =
        [.pushed (some 1), .read true 1, .read true 1, .resumed 1, .read false 0, .stored (some 0), .stopped, .paused,
          .read true 0] ∧ pool.server.controls.stops.stopped pool.server.store.runs ⟨17⟩ = false)
    (by decide +kernel) serves_stoppedThenResumed
  exact ⟨pool, hreach, of_decide_eq_true hshows⟩

/-- A delivery of an event is about to push its run when everything is stopped. -/
def stoppedBeforePush : List Pool.Turn :=
  .spawn (forget (createTrigger Fleet.plain.nextTick hook)) :: Pool.callsThere 0 3 ++
  .spawn (forget (fireWebhook .plain hook "a" "body")) :: Pool.callsThere 0 9 ++
  .spawn (forget (stopOwner hook.owner)) :: Pool.callsThere 0 2 ++
  Pool.callsThere 1 1

theorem serves_stoppedBeforePush : ∀ p ∈ Pool.started stoppedBeforePush, Serves .plain p := by
  intro p hp
  rcases hp with _ | ⟨_, _ | ⟨_, _ | ⟨_, hp⟩⟩⟩
  · exact .create _
  · exact .webhook _ _ _
  · exact .stopOwner _
  · cases hp

def readsHook : Happened → Bool
  | ⟨.control (.trigger _ id), some (.ok (some trigger)), _⟩ => id = hook.id && trigger = hook
  | _ => false

/-- The newest calls are a push of the run, the stop and the pause before it, and the webhook was read before. -/
def pushedAfterStop : List Happened → Bool
  | ⟨.queue (.pushOnce run gate), _, _⟩ :: ⟨.control (.putStop owner .owner), _, true⟩ ::
      ⟨.control (.pauseTriggers owner'), _, true⟩ :: older =>
      run = ⟨17⟩ && gate = some ⟨hook.owner, hook.id, 0⟩ && owner = hook.owner && owner' = hook.owner &&
        older.any readsHook
  | _ => false

theorem reads_of_readsHook {older : List Happened} (h : older.any readsHook = true) :
    ∃ reader took, ⟨.control (.trigger reader hook.id), some (.ok (some hook)), took⟩ ∈ older := by
  obtain ⟨happened, hmem, hreads⟩ := List.any_eq_true.mp h
  unfold readsHook at hreads
  split at hreads
  · next reader id trigger took =>
      simp only [Bool.and_eq_true, decide_eq_true_eq] at hreads
      obtain ⟨rfl, rfl⟩ := hreads
      exact ⟨reader, took, hmem⟩
  · cases hreads

theorem stopped_fires_hooked :
    ∃ pool : Pool, pool.Reach (Serves .plain) anyMove ∧
      ∃ older, Server.Shown older ⟨17⟩ ∧ ∀ stored, pool.server.store.runs ⟨17⟩ = some stored →
        stored.spec.owner.is hook.owner = true →
          pool.server.controls.stops.stopped pool.server.store.runs ⟨17⟩ = true := by
  obtain ⟨pool, hreach, hshows⟩ := Pool.reached_of_any stoppedBeforePush
    (fun pool => pushedAfterStop pool.server.trace) (by decide +kernel) serves_stoppedBeforePush
  unfold pushedAfterStop at hshows
  split at hshows
  · next run gate pushed took owner stopped owner' paused older htrace =>
      simp only [Bool.and_eq_true, decide_eq_true_eq] at hshows
      obtain ⟨⟨⟨⟨rfl, rfl⟩, rfl⟩, rfl⟩, hreads⟩ := hshows
      obtain ⟨reader, took', hread⟩ := reads_of_readsHook hreads
      have hpush : ⟨.queue (.pushOnce ⟨17⟩ (some ⟨hook.owner, hook.id, 0⟩)), pushed, took⟩ ∈ pool.server.trace := by
        rw [htrace]
        exact List.mem_cons_self ..
      exact ⟨pool, hreach, older,
        (stopped_fires .plain hreach hook.owner reader hook (by decide +kernel) [_]
          [] older stopped paused took' htrace hread
          ⟨17⟩).1 ⟨hook.owner, hook.id, 0⟩ rfl rfl (.inr ⟨pushed, took, hpush⟩)⟩
  · cases hshows

end Gol
