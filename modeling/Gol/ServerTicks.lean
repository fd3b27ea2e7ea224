import Gol.ServerStops

/-! The ticks of a trigger. A scheduler moves a due trigger to its first tick after the pass's time, which its old
tick does not come after; a resume sets a paused trigger's tick to the first one after a time it read earlier. So a
trigger's tick only advances while each resume writes a tick that is still to come. -/

namespace Gol
open Library World

variable {fleet : Fleet} {ok : Pool → Move → Prop} {s t : Server} {c : ServerCall} {answer : c.Answer}

/-! ### First ticks -/

/-- What `nextTick` finds is the first tick after a time. -/
def NextTick.FindsFirst (nextTick : NextTick) : Prop :=
  ∃ ticks : String → String → Set Int64, ∀ cron timeZone after tick, nextTick cron timeZone after = .ok tick →
    tick ∈ ticks cron timeZone ∧ after < tick ∧ ∀ other ∈ ticks cron timeZone, after < other → tick ≤ other

namespace TriggerKind

variable {nextTick : NextTick} {kind : TriggerKind} {after after' tick tick' : Int64}

theorem tickAfter_eq (h : kind.tickAfter nextTick after = some tick) :
    ∃ cron timeZone, kind = .schedule cron timeZone ∧ nextTick cron timeZone after = .ok tick := by
  cases kind with
  | webhook rotation => cases h
  | schedule cron timeZone =>
      refine ⟨cron, timeZone, rfl, ?_⟩
      change (nextTick cron timeZone after).toOption = some tick at h
      cases hnext : nextTick cron timeZone after with
      | error error =>
          rw [hnext] at h
          cases h
      | ok next =>
          rw [hnext] at h
          rw [Option.some.inj h]

theorem lt_tickAfter (hfirst : nextTick.FindsFirst) (h : kind.tickAfter nextTick after = some tick) : after < tick := by
  obtain ⟨ticks, hticks⟩ := hfirst
  obtain ⟨cron, timeZone, rfl, hnext⟩ := tickAfter_eq h
  exact (hticks cron timeZone after tick hnext).2.1

/-- No tick lies between a time and the first tick after it. -/
theorem tickAfter_le (hfirst : nextTick.FindsFirst) (h : kind.tickAfter nextTick after = some tick)
    (h' : kind.tickAfter nextTick after' = some tick') (hlt : after < tick') : tick ≤ tick' := by
  obtain ⟨ticks, hticks⟩ := hfirst
  obtain ⟨cron, timeZone, rfl, hnext⟩ := tickAfter_eq h
  obtain ⟨cron', timeZone', heq, hnext'⟩ := tickAfter_eq h'
  cases heq
  exact (hticks _ _ _ _ hnext).2.2 tick' (hticks _ _ _ _ hnext').1 hlt

end TriggerKind

theorem Server.Timed.kind_eq {kind : TriggerKind} {tick : Int64} (h : s.Timed fleet kind tick) (rotation : UInt32) :
    kind ≠ .webhook rotation := by
  rintro rfl
  obtain ⟨ms, -, htick⟩ := h
  cases htick

theorem Server.Step.now (h : s.Step c answer t) : t.now = s.now := by
  have hafter : ∀ now, (s.after now c).now = s.now := by
    intro now
    cases c <;> rfl
  cases h with
  | done now _ _ | lost now _ _ => exact hafter now
  | failed _ => rfl

/-! ### What a step does to a trigger's tick -/

/-- What a call makes of a trigger: its tick is kept, and it runs only if it ran; or it was paused and this call
resumes it; or this call moves it from the tick it has. -/
def StoredTrigger.Changes (c : ServerCall) (trigger later : StoredTrigger) : Prop :=
  (later.nextFireMs = trigger.nextFireMs ∧ (later.enabled = true → trigger.enabled = true)) ∨
    (∃ owner, c = .control (.resumeTrigger owner trigger.id later.nextFireMs) ∧
      Triggers.isOf owner trigger.id trigger = true ∧ trigger.enabled = false) ∨
    (c = .control (.advanceTrigger trigger.id trigger.nextFireMs later.nextFireMs) ∧ later.enabled = trigger.enabled)

/-- The trigger later, after this call. -/
structure StoredTrigger.After (c : ServerCall) (trigger later : StoredTrigger) : Prop where
  id : later.id = trigger.id
  kind : later.kind = trigger.kind
  changes : trigger.Changes c later

theorem StoredTrigger.After.same (c : ServerCall) (trigger : StoredTrigger) : trigger.After c trigger :=
  ⟨rfl, rfl, .inl ⟨rfl, fun h => h⟩⟩

theorem StoredTrigger.After.paused (c : ServerCall) (trigger : StoredTrigger) :
    trigger.After c { trigger with enabled := false } :=
  ⟨rfl, rfl, .inl ⟨rfl, nofun⟩⟩

theorem Controls.exec_after {controls : Controls} {runs : RunId → Option StoredRun} {control : ControlCall}
    (hpauses : ∀ owner id enabled, control = .setEnabled owner id enabled → enabled = false) {later : StoredTrigger}
    (h : later ∈ (controls.exec runs control).2.triggers) :
    (∃ trigger ∈ controls.triggers, trigger.After (.control control) later) ∨
      ∃ most, control = .putTrigger later most := by
  have hsame : later ∈ controls.triggers → ∃ trigger ∈ controls.triggers, trigger.After (.control control) later :=
    fun h => ⟨later, h, .same _ later⟩
  cases control with
  | putTrigger trigger most =>
      simp only [exec, Triggers.putTrigger] at h
      split at h
      · exact .inl (hsame h)
      · rcases List.mem_append.mp h with h | h
        · exact .inl (hsame h)
        · exact .inr ⟨most, by rw [List.mem_singleton.mp h]⟩
  | setEnabled owner id enabled =>
      obtain rfl := hpauses owner id enabled rfl
      rcases Triggers.mem_alter h with h | ⟨trigger, hmem, -, rfl⟩
      · exact .inl (hsame h)
      · exact .inl ⟨trigger, hmem, .paused _ trigger⟩
  | deleteTrigger owner id => exact .inl (hsame (List.mem_of_mem_filter h))
  | resumeTrigger owner id next =>
      rcases Triggers.mem_alter h with h | ⟨trigger, hmem, hof, rfl⟩
      · exact .inl (hsame h)
      · refine .inl ⟨trigger, hmem, ?_⟩
        unfold Triggers.resumed
        split
        · exact .same _ trigger
        · next hpaused =>
            obtain rfl : trigger.id = id := by
              simp only [Triggers.isOf, Bool.and_eq_true, decide_eq_true_eq] at hof
              exact hof.1
            exact ⟨rfl, rfl, .inr (.inl ⟨owner, rfl, hof, by simpa using hpaused⟩)⟩
  | pauseTriggers owner =>
      obtain ⟨trigger, hmem, rfl⟩ := List.mem_map.mp h
      split
      · exact .inl ⟨trigger, hmem, .paused _ trigger⟩
      · exact .inl ⟨trigger, hmem, .same _ trigger⟩
  | advanceTrigger id due next =>
      rcases Triggers.mem_alter h with h | ⟨trigger, hmem, hdue, rfl⟩
      · exact .inl (hsame h)
      · simp only [Bool.and_eq_true, decide_eq_true_eq] at hdue
        obtain ⟨rfl, rfl⟩ := hdue
        exact .inl ⟨trigger, hmem, rfl, rfl, .inr (.inr ⟨rfl, rfl⟩)⟩
  | stopped | putStop | openRunsUnder | trigger | dueTriggers | webhookTrigger
  | unscheduledTriggers => exact .inl (hsame h)

/-- What a step makes of the triggers. A new one has a new id, and a tick that was timed. -/
theorem Server.Step.after_trigger (h : s.Step c answer t) (howes : Owes fleet false s c) {later : StoredTrigger}
    (hmem : later ∈ t.controls.triggers) :
    (∃ trigger ∈ s.controls.triggers, trigger.After c later) ∨
      ¬ s.NamedTrigger later.id ∧ ∀ tick, later.nextFireMs = some tick → s.Timed fleet later.kind tick := by
  rcases h.triggers with heq | ⟨control, rfl, hfresh, heq⟩
  · exact .inl ⟨later, heq ▸ hmem, .same c later⟩
  · rw [heq] at hmem
    refine (Controls.exec_after (fun owner id enabled hc => ?_) hmem).imp_right ?_
    · subst hc
      exact howes
    · rintro ⟨most, rfl⟩
      refine ⟨fun ⟨happened, hhappened, hname⟩ => ?_, howes.2.2⟩
      exact hfresh rfl (.trigger later.id) (List.mem_singleton_self _) happened hhappened hname

/-! ### What was read of a trigger -/

/-- A trigger that is newly read is one that is stored. -/
theorem Server.Step.readTrigger (h : s.Step c answer t) {trigger : StoredTrigger} (hread : t.ReadTrigger trigger) :
    s.ReadTrigger trigger ∨ trigger ∈ s.controls.triggers := by
  obtain ⟨took, htrace⟩ := h.trace_eq
  have hnew : ∀ {c' : ServerCall} {answer' : c'.Answer}, t.Asked c' answer' →
      s.Asked c' answer' ∨ ∃ heq : c = c', heq ▸ answer = answer' := by
    rintro c' answer' ⟨took', hmem⟩
    rw [htrace] at hmem
    rcases List.mem_cons.mp hmem with heq | hmem
    · cases heq
      exact .inr ⟨rfl, rfl⟩
    · exact .inl ⟨took', hmem⟩
  rcases hread with ⟨owner, id, hasked⟩ | ⟨nowMs, limit, due, hasked, hmem⟩ | ⟨limit, unscheduled, hasked, hmem⟩
  · rcases hnew hasked with hasked | ⟨rfl, rfl⟩
    · exact .inl (.inl ⟨owner, id, hasked⟩)
    · obtain ⟨now, -, hanswers, -⟩ := h.answers (by rintro ⟨⟩)
      have heq : (some (.ok (some trigger)) : Option (Except StoreError (Option StoredTrigger))) =
          some (.ok (s.controls.triggers.trigger owner id)) := hanswers.control_eq
      have hfound : s.controls.triggers.trigger owner id = some trigger := by simpa using heq.symm
      exact .inr (List.mem_of_find?_eq_some hfound)
  · rcases hnew hasked with hasked | ⟨rfl, rfl⟩
    · exact .inl (.inr (.inl ⟨nowMs, limit, due, hasked, hmem⟩))
    · obtain ⟨now, -, hanswers, -⟩ := h.answers (by rintro ⟨⟩)
      have heq : (some (.ok due) : Option (Except StoreError (List StoredTrigger))) =
          some (.ok (s.controls.triggers.dueTriggers nowMs limit)) := hanswers.control_eq
      obtain rfl : due = s.controls.triggers.dueTriggers nowMs limit := by simpa using heq
      exact .inr (List.mem_of_mem_filter (List.mem_mergeSort.mp (List.mem_of_mem_take hmem)))
  · rcases hnew hasked with hasked | ⟨rfl, rfl⟩
    · exact .inl (.inr (.inr ⟨limit, unscheduled, hasked, hmem⟩))
    · obtain ⟨now, -, hanswers, -⟩ := h.answers (by rintro ⟨⟩)
      have heq : (some (.ok unscheduled) : Option (Except StoreError (List StoredTrigger))) =
          some (.ok (s.controls.triggers.unscheduledTriggers limit)) := hanswers.control_eq
      obtain rfl : unscheduled = s.controls.triggers.unscheduledTriggers limit := by simpa using heq
      exact .inr (List.mem_of_mem_filter (List.mem_of_mem_take hmem))

/-- Triggers are what they were read as, and their ticks were timed. -/
structure Server.Scheduled (fleet : Fleet) (s : Server) : Prop where
  named : ∀ read, s.ReadTrigger read → s.NamedTrigger read.id
  kind : ∀ read, s.ReadTrigger read → ∀ trigger ∈ s.controls.triggers, trigger.id = read.id → trigger.kind = read.kind
  timed : ∀ trigger ∈ s.controls.triggers, ∀ tick, trigger.nextFireMs = some tick → s.Timed fleet trigger.kind tick

namespace Server.Scheduled

theorem step (h : s.Scheduled fleet) (hown : s.OwnIds) (howes : Owes fleet false s c) (hstep : s.Step c answer t) :
    t.Scheduled fleet := by
  have hread : ∀ read, t.ReadTrigger read → s.NamedTrigger read.id ∧
      ∀ trigger ∈ s.controls.triggers, trigger.id = read.id → trigger.kind = read.kind := by
    intro read hread
    rcases hstep.readTrigger hread with hread | hmem
    · exact ⟨h.named read hread, h.kind read hread⟩
    · exact ⟨hown.named read hmem, fun trigger htrigger hid => by rw [hown.eq_of_id htrigger hmem hid]⟩
  refine ⟨fun read hr => (hread read hr).1.later hstep.later, fun read hr later hmem hid => ?_,
    fun later hmem tick htick => ?_⟩
  · rcases hstep.after_trigger howes hmem with ⟨trigger, htrigger, hafter⟩ | ⟨hnew, -⟩
    · rw [hafter.kind]
      exact (hread read hr).2 trigger htrigger (hafter.id ▸ hid)
    · exact absurd (hid ▸ (hread read hr).1) hnew
  · rcases hstep.after_trigger howes hmem with ⟨trigger, htrigger, hafter⟩ | ⟨-, htimed⟩
    · rw [hafter.kind]
      rcases hafter.changes with ⟨hnext, -⟩ | ⟨owner, rfl, -, -⟩ | ⟨rfl, -⟩
      · exact (h.timed trigger htrigger tick (hnext ▸ htick)).later hstep.later
      · obtain ⟨read, hr, hid, htimed⟩ := howes
        rw [htick] at htimed
        rw [h.kind read hr trigger htrigger hid.symm]
        exact htimed.later hstep.later
      · obtain ⟨read, ms, hr, hid, htime, -, hfirst⟩ := howes
        rw [h.kind read hr trigger htrigger hid.symm]
        exact ⟨ms, htime.later hstep.later, hfirst tick htick⟩
    · exact (htimed tick htick).later hstep.later

end Server.Scheduled

theorem scheduled {pool : Pool} (h : pool.Reach (Serves fleet) ok) : pool.server.Scheduled fleet := by
  refine h.reached_invariant (P := Server.Scheduled fleet) ⟨?_, ?_, fun _ hmem => by cases hmem⟩
    (fun _ _ h => ⟨h.named, h.kind, h.timed⟩) (fun _ _ h => ⟨h.named, h.kind, h.timed⟩)
    fun pool c answer t hreach _ howes hscheduled hstep => hscheduled.step (ownIds hreach) howes hstep
  · rintro read (⟨_, _, _, hmem⟩ | ⟨_, _, _, ⟨_, hmem⟩, _⟩ | ⟨_, _, ⟨_, hmem⟩, _⟩) <;> cases hmem
  · exact fun _ _ _ hmem => by cases hmem

/-! ### One clock -/

/-- The times that programs read are the clock's. -/
def SharedClock (pool : Pool) : Move → Prop
  | .call (.outside .redisNow) (.ok ms) => Int64.toInt ms = pool.server.now
  | .call (.outside .timestampNow) ms => Int64.toInt ms = pool.server.now
  | _ => True

/-- A scheduler has moved the trigger from a tick it had. -/
def Server.HadTick (s : Server) (id : TriggerId) : Prop :=
  ∃ due next answer, s.Asked (.control (.advanceTrigger id (some due) next)) answer

/-- The tick that a resume gives a paused trigger is still to come, and so is the one that a scheduler gives a trigger
which had ticks and ran out of them. -/
def OnTime (pool : Pool) : Move → Prop
  | .call (.control (.resumeTrigger owner id (some tick))) _ =>
      ∀ trigger ∈ pool.server.controls.triggers, Triggers.isOf owner id trigger = true → trigger.enabled = false →
        (pool.server.now : Int) < tick.toInt
  | .call (.control (.advanceTrigger id none (some tick))) _ =>
      ∀ trigger ∈ pool.server.controls.triggers, trigger.id = id → trigger.nextFireMs = none → pool.server.HadTick id →
        (pool.server.now : Int) < tick.toInt
  | _ => True

theorem readTime_le (hclock : ∀ pool move, ok pool move → SharedClock pool move) {pool : Pool}
    (h : pool.Reach (Serves fleet) ok) {ms : Int64} (hread : pool.server.ReadTime ms) : ms.toInt ≤ pool.server.now := by
  refine h.reached_invariant (P := fun s => ∀ ms, s.ReadTime ms → ms.toInt ≤ s.now) ?_ (fun s ms h read hread => ?_)
    (fun _ _ h => h) (fun pool c answer t _ hok _ hbefore hstep read hread => ?_) ms hread
  · rintro ms (⟨_, hmem⟩ | ⟨_, hmem⟩) <;> cases hmem
  · have hle := h read hread
    change read.toInt ≤ ((s.now + ms : Nat) : Int)
    omega
  · rw [hstep.now]
    obtain ⟨took, htrace⟩ := hstep.trace_eq
    have hshared := hclock pool (.call c answer) hok
    rcases hread with ⟨took', hmem⟩ | ⟨took', hmem⟩
    · rw [htrace] at hmem
      rcases List.mem_cons.mp hmem with heq | hmem
      · cases heq
        exact le_of_eq hshared
      · exact hbefore read (.inl ⟨took', hmem⟩)
    · rw [htrace] at hmem
      rcases List.mem_cons.mp hmem with heq | hmem
      · cases heq
        exact le_of_eq hshared
      · exact hbefore read (.inr ⟨took', hmem⟩)

/-! ### Ticks only advance -/

/-- A trigger that had `tick` has a tick that does not come before it; or it ran out of ticks, and `tick` has come. -/
def Server.PastTick (s : Server) (id : TriggerId) (tick : Int64) : Option Int64 → Prop
  | some next => tick ≤ next
  | none => tick.toInt ≤ s.now ∧ s.HadTick id

structure Server.OnceAt (s : Server) (id : TriggerId) (tick : Int64) : Prop where
  named : s.NamedTrigger id
  past : ∀ trigger ∈ s.controls.triggers, trigger.id = id → s.PastTick id tick trigger.nextFireMs

theorem Server.HadTick.later {id : TriggerId} (h : s.HadTick id) (hlater : s.Later t) : t.HadTick id := by
  obtain ⟨due, next, answer, hasked⟩ := h
  exact ⟨due, next, answer, hasked.later hlater⟩

theorem Server.HadTick.of_asked {id : TriggerId} {due : Int64} {next : Option Int64} (h : t.Asked c answer)
    (hc : c = .control (.advanceTrigger id (some due) next)) : t.HadTick id := by
  subst hc
  exact ⟨due, next, answer, h⟩

theorem Server.PastTick.later {id : TriggerId} {tick : Int64} {next : Option Int64} (h : s.PastTick id tick next)
    (hlater : s.Later t) (hnow : s.now ≤ t.now) : t.PastTick id tick next := by
  cases next with
  | some next => exact h
  | none =>
      refine ⟨?_, h.2.later hlater⟩
      have hle := h.1
      omega

theorem OnTime.resume {pool : Pool} {owner : Owner} {id : TriggerId} {tick : Int64} (h : OnTime pool (.call c answer))
    (hc : c = .control (.resumeTrigger owner id (some tick))) {trigger : StoredTrigger}
    (hmem : trigger ∈ pool.server.controls.triggers) (hof : Triggers.isOf owner id trigger = true)
    (hpaused : trigger.enabled = false) : (pool.server.now : Int) < tick.toInt := by
  subst hc
  exact h trigger hmem hof hpaused

theorem OnTime.first {pool : Pool} {id : TriggerId} {tick : Int64} (h : OnTime pool (.call c answer))
    (hc : c = .control (.advanceTrigger id none (some tick))) {trigger : StoredTrigger}
    (hmem : trigger ∈ pool.server.controls.triggers) (hid : trigger.id = id) (hnone : trigger.nextFireMs = none)
    (hhad : pool.server.HadTick id) : (pool.server.now : Int) < tick.toInt := by
  subst hc
  exact h trigger hmem hid hnone hhad

/-- Runs on one clock whose resumes and first ticks are on time. -/
def Timely (pool : Pool) (move : Move) : Prop := SharedClock pool move ∧ OnTime pool move

theorem Server.OnceAt.call (hfirst : fleet.nextTick.FindsFirst) {pool : Pool}
    (hreach : pool.Reach (Serves fleet) Timely) (hontime : OnTime pool (.call c answer))
    (howes : Owes fleet false pool.server c) (hstep : pool.server.Step c answer t) {id : TriggerId} {tick : Int64}
    (h : pool.server.OnceAt id tick) :
    t.OnceAt id tick := by
  have hread : ∀ {ms}, pool.server.ReadTime ms → ms.toInt ≤ pool.server.now :=
    fun hread => readTime_le (fun _ _ hok => hok.1) hreach hread
  have hscheduled := scheduled hreach
  refine ⟨h.named.later hstep.later, fun later hmem hid => ?_⟩
  rcases hstep.after_trigger howes hmem with ⟨trigger, htrigger, hafter⟩ | ⟨hnew, -⟩
  · obtain rfl : trigger.id = id := hafter.id.symm.trans hid
    have hbefore := h.past trigger htrigger rfl
    have hkept : ∀ {next}, pool.server.PastTick trigger.id tick next → t.PastTick trigger.id tick next :=
      fun h => h.later hstep.later (le_of_eq hstep.now.symm)
    rcases hafter.changes with ⟨hnext, -⟩ | ⟨owner, hc, hof, hpaused⟩ | ⟨hc, -⟩
    · exact hnext ▸ hkept hbefore
    · rw [hc] at howes
      obtain ⟨read, hr, hrid, htimed⟩ := howes
      rw [← hscheduled.kind read hr trigger htrigger hrid.symm] at htimed
      cases hlater : later.nextFireMs with
      | some next =>
          have hnow := hontime.resume (hc.trans (by rw [hlater])) htrigger hof hpaused
          rw [hlater] at htimed
          change tick ≤ next
          cases hold : trigger.nextFireMs with
          | some old =>
              -- The old tick is the first after a time read, and the new one lies after the clock.
              obtain ⟨ms, hms, htick⟩ := hscheduled.timed trigger htrigger old hold
              obtain ⟨_, _, htick'⟩ := htimed
              rw [hold] at hbefore
              have hlt : ms < next := Int64.lt_iff_toInt_lt.mpr (lt_of_le_of_lt (hread hms) hnow)
              exact Int64.le_trans hbefore (TriggerKind.tickAfter_le hfirst htick htick' hlt)
          | none =>
              rw [hold] at hbefore
              exact Int64.le_iff_toInt_le.mpr (le_of_lt (lt_of_le_of_lt hbefore.1 hnow))
      | none =>
          rw [hlater] at htimed
          obtain ⟨rotation, hkind⟩ := htimed
          cases hold : trigger.nextFireMs with
          | some old => exact absurd hkind ((hscheduled.timed trigger htrigger old hold).kind_eq rotation)
          | none =>
              rw [hold] at hbefore
              exact hkept hbefore
    · rw [hc] at howes
      obtain ⟨read, ms, -, -, htime, hdue, hnext⟩ := howes
      have hms := hread htime
      cases hold : trigger.nextFireMs with
      | some due =>
          rw [hold] at hbefore
          have hle : tick ≤ ms := Int64.le_trans hbefore (hdue due hold)
          cases hlater : later.nextFireMs with
          | some next =>
              have hlt := TriggerKind.lt_tickAfter hfirst (hnext next hlater)
              exact Int64.le_of_lt (Int64.lt_of_le_of_lt hle hlt)
          | none =>
              refine ⟨?_, .of_asked hstep.asked (hc.trans (by rw [hold]))⟩
              rw [hstep.now]
              exact le_trans (Int64.le_iff_toInt_le.mp hle) hms
      | none =>
          rw [hold] at hbefore
          cases hlater : later.nextFireMs with
          | some next =>
              have hnow := hontime.first (hc.trans (by rw [hold, hlater])) htrigger rfl hold hbefore.2
              exact Int64.le_iff_toInt_le.mpr (le_of_lt (lt_of_le_of_lt hbefore.1 hnow))
          | none => exact hkept hbefore
  · exact absurd (hid ▸ h.named) hnew

theorem Pool.Leads.later {pool pool' : Pool} (h : pool.Leads (Serves fleet) ok pool') :
    pool.server.Later pool'.server := by
  induction h with
  | refl => exact .refl _
  | step _ _ hstep ih => exact ih.trans hstep.later

theorem Server.OnceAt.leads (hfirst : fleet.nextTick.FindsFirst) {pool pool' : Pool}
    (hreach : pool.Reach (Serves fleet) Timely) (hleads : pool.Leads (Serves fleet) Timely pool') {id : TriggerId}
    {tick : Int64} (h : pool.server.OnceAt id tick) : pool'.server.OnceAt id tick := by
  induction hleads with
  | refl => exact h
  | @step mid pool' move before hok hstep ih =>
      cases hstep with
      | spawn | crash => exact ih
      | tick s processes ms => exact ⟨ih.named, fun trigger hmem hid => (ih.past trigger hmem hid).later
          ⟨.refl _, List.suffix_refl _⟩ (Nat.le_add_right _ _)⟩
      | expire s processes run => exact ⟨ih.named, fun trigger hmem hid => (ih.past trigger hmem hid).later
          ⟨.refl _, List.suffix_refl _⟩ (le_refl _)⟩
      | call s t front back c next answer hcall =>
          have hmid := hreach.leads before
          exact ih.call hfirst hmid hok.2 (hmid.owes (p := .call c next) (by simp) ⟨next, rfl⟩) hcall

theorem Server.onceAt {pool : Pool} (hreach : pool.Reach (Serves fleet) ok) {trigger : StoredTrigger}
    (hmem : trigger ∈ pool.server.controls.triggers) {tick : Int64} (htick : trigger.nextFireMs = some tick) :
    pool.server.OnceAt trigger.id tick := by
  refine ⟨(ownIds hreach).named trigger hmem, fun other hother hid => ?_⟩
  rw [(ownIds hreach).eq_of_id hother hmem hid, htick]
  exact Int64.le_refl tick

/-- In such runs a trigger's tick is never followed by an earlier one, and once a paused trigger runs again, its ticks
all come after the step that resumed it. -/
structure TicksAdvance (fleet : Fleet) (ok : Pool → Move → Prop) : Prop where
  advances : ∀ {pool pool' : Pool}, pool.Reach (Serves fleet) ok → pool.Leads (Serves fleet) ok pool' →
    ∀ trigger ∈ pool.server.controls.triggers, ∀ later ∈ pool'.server.controls.triggers, later.id = trigger.id →
      ∀ tick tick', trigger.nextFireMs = some tick → later.nextFireMs = some tick' → tick ≤ tick'
  resumes : ∀ {pool resumed pool' : Pool} {move : Move}, pool.Reach (Serves fleet) ok → ok pool move →
    pool.Step (Serves fleet) move resumed → resumed.Leads (Serves fleet) ok pool' →
    ∀ paused ∈ pool.server.controls.triggers, ∀ running ∈ resumed.server.controls.triggers,
    ∀ later ∈ pool'.server.controls.triggers, running.id = paused.id → later.id = paused.id →
      paused.enabled = false → running.enabled = true →
        ∀ tick, later.nextFireMs = some tick → (pool.server.now : Int) < tick.toInt

/-- The step that sets a paused trigger running is a resume's, and sets the tick the trigger then has. -/
theorem resumed_by {pool resumed : Pool} {move : Move} (hreach : pool.Reach (Serves fleet) ok)
    (hstep : pool.Step (Serves fleet) move resumed) {paused running : StoredTrigger}
    (hpaused : paused ∈ pool.server.controls.triggers) (hrunning : running ∈ resumed.server.controls.triggers)
    (hid : running.id = paused.id) (hbefore : paused.enabled = false) (hafter : running.enabled = true) :
    ∃ owner c answer, move = .call c answer ∧ c = .control (.resumeTrigger owner paused.id running.nextFireMs) ∧
      Triggers.isOf owner paused.id paused = true ∧ Owes fleet false pool.server c := by
  have hown := ownIds hreach
  have hsame : running ∉ pool.server.controls.triggers := by
    intro hmem
    rw [hown.eq_of_id hmem hpaused hid, hbefore] at hafter
    cases hafter
  cases hstep with
  | spawn | crash | tick | expire => exact absurd hrunning hsame
  | call s t front back c next answer hcall =>
      have howes := hreach.owes (p := .call c next) (by simp) ⟨next, rfl⟩
      rcases hcall.after_trigger howes hrunning with ⟨trigger, htrigger, hchanged⟩ | ⟨hnew, -⟩
      · obtain rfl := hown.eq_of_id htrigger hpaused (hchanged.id.symm.trans hid)
        rcases hchanged.changes with ⟨-, hkept⟩ | ⟨owner, hc, hof, -⟩ | ⟨-, hkept⟩
        · rw [hbefore] at hkept
          cases hkept hafter
        · exact ⟨owner, c, answer, rfl, hc, hof, howes⟩
        · rw [hafter, hbefore] at hkept
          cases hkept
      · exact absurd (hid ▸ hown.named paused hpaused) hnew

/-- Ticks only advance where each resume of a paused trigger writes a tick that is still to come. -/
theorem ticks_advance (hfirst : fleet.nextTick.FindsFirst) : TicksAdvance fleet Timely where
  advances hreach hleads trigger hmem later hlater hid tick tick' htick htick' := by
    have hpast := ((Server.onceAt hreach hmem htick).leads hfirst hreach hleads).past later hlater hid
    rw [htick'] at hpast
    exact hpast
  resumes hreach hok hstep hleads paused hpaused running hrunning later hlater hid hid' hbefore hafter tick htick := by
    obtain ⟨owner, c, answer, rfl, hc, hof, howes⟩ := resumed_by hreach hstep hpaused hrunning hid hbefore hafter
    have hresumed := hreach.step hok hstep
    cases hnext : running.nextFireMs with
    | some next =>
        have hnow := hok.2.resume (hc.trans (by rw [hnext])) hpaused hof hbefore
        have honce := (Server.onceAt hresumed hrunning hnext).leads hfirst hresumed hleads
        have hpast := honce.past later hlater (hid'.trans hid.symm)
        rw [htick] at hpast
        exact lt_of_lt_of_le hnow (Int64.le_iff_toInt_le.mp hpast)
    | none =>
        -- Only a webhook is resumed without a tick, and a webhook never has one.
        rw [hc, hnext] at howes
        obtain ⟨read, hread, hrid, rotation, hkind⟩ := howes
        have hscheduled := scheduled (hresumed.leads hleads)
        have hread' := hread.later (hstep.later.trans hleads.later)
        have hsame := hscheduled.kind read hread' later hlater (hid'.trans hrid.symm)
        exact absurd (hsame.trans hkind) ((hscheduled.timed later hlater tick htick).kind_eq rotation)

/-! ### A resume that is late -/

/-- Schedules that tick at 10 and at 20. -/
def Fleet.twoTicks : Fleet where
  uuids := .plain
  nextTick _ _ after := if after < 10 then .ok 10 else if after < 20 then .ok 20 else .error "no tick"
  maxDeliveries := 5

theorem twoTicks_findsFirst : Fleet.twoTicks.nextTick.FindsFirst := by
  refine ⟨fun _ _ => {10, 20}, fun cron timeZone after tick h => ?_⟩
  simp only [Fleet.twoTicks] at h
  split at h
  · next hlt =>
      cases h
      refine ⟨.inl rfl, hlt, ?_⟩
      rintro other (rfl | rfl) _ <;> decide
  · next hge =>
      split at h
      · next hlt =>
          cases h
          refine ⟨.inr rfl, hlt, ?_⟩
          rintro other (rfl | rfl) hother
          · exact absurd hother hge
          · decide
      · cases h

def daily : StoredTrigger := { hook with kind := .schedule "0 0 * * *" "UTC" }

/-- Answers at a time of the clock. -/
def clockAt (ms : Int64) : (c : OutsideCall) → c.Answer
  | .redisNow => .ok ms
  | .timestampNow => ms
  | c => agentThere c

def Pool.callsAt (ms : Int64) (i n : Nat) : List Pool.Turn := List.replicate n (.call i (clockAt ms) (.ok "done"))

def sharedClockCheck (pool : Pool) : Move → Bool
  | .call (.outside .redisNow) (.ok ms) => Int64.toInt ms = pool.server.now
  | .call (.outside .timestampNow) ms => Int64.toInt ms = pool.server.now
  | _ => true

theorem sharedClock_of_check (pool : Pool) (move : Move) (h : sharedClockCheck pool move = true) :
    SharedClock pool move := by
  unfold sharedClockCheck at h
  unfold SharedClock
  split at h
  · exact of_decide_eq_true h
  · exact of_decide_eq_true h
  · trivial

/-- The schedule is made and paused, and a resume has read it and the clock, when the clock passes the tick it found.
Another resume sets it running from its second tick, and it is paused again. -/
def resumedMeanwhile : List Pool.Turn :=
  .spawn (forget (createTrigger Fleet.twoTicks.nextTick daily)) :: Pool.callsAt 0 0 4 ++
  .spawn (forget (pauseTrigger daily.owner daily.id)) :: Pool.callsAt 0 0 1 ++
  .spawn (forget (resumeTrigger Fleet.twoTicks.nextTick daily.owner daily.id)) :: Pool.callsAt 0 0 2 ++
  .tick 15 ::
  .spawn (forget (resumeTrigger Fleet.twoTicks.nextTick daily.owner daily.id)) :: Pool.callsAt 15 0 3

/-- It is paused again, with the first resume about to write. -/
def pausedMeanwhile : List Pool.Turn :=
  .spawn (forget (pauseTrigger daily.owner daily.id)) :: Pool.callsAt 15 0 1

def writtenLate : Pool.Turn := .call 2 (clockAt 15) (.ok "done")

def ticking (enabled : Bool) (next : Int64) (generation : Nat) : List StoredTrigger :=
  [{ daily with enabled := enabled, nextFireMs := some next, generation := generation }]

theorem serves_resumedMeanwhile : ∀ p ∈ Pool.started resumedMeanwhile, Serves .twoTicks p := by
  intro p hp
  rcases hp with _ | ⟨_, _ | ⟨_, _ | ⟨_, _ | ⟨_, hp⟩⟩⟩⟩
  · exact .create _
  · exact .pause _ _
  · exact .resume _ _
  · exact .resume _ _
  · cases hp

theorem serves_pausedMeanwhile : ∀ p ∈ Pool.started pausedMeanwhile, Serves .twoTicks p := by
  intro p hp
  rcases hp with _ | ⟨_, hp⟩
  · exact .pause _ _
  · cases hp

/-- At 15 the late resume sets the schedule running from 10, where 20 was its tick before. -/
theorem resumed_late :
    Fleet.twoTicks.nextTick.FindsFirst ∧ ∃ (running paused resumed : Pool) (move : Move),
      running.Reach (Serves .twoTicks) SharedClock ∧ running.Leads (Serves .twoTicks) SharedClock paused ∧
      SharedClock paused move ∧ paused.Step (Serves .twoTicks) move resumed ∧ paused.server.now = 15 ∧
      running.server.controls.triggers = ticking true 20 1 ∧ paused.server.controls.triggers = ticking false 20 1 ∧
      resumed.server.controls.triggers = ticking true 10 2 ∧ ¬ TicksAdvance .twoTicks SharedClock := by
  have hplay : ((Pool.play sharedClockCheck resumedMeanwhile ⟨.empty, []⟩).bind fun running =>
      (Pool.play sharedClockCheck pausedMeanwhile running).bind fun paused =>
      (paused.turn writtenLate).map fun (move, resumed) =>
        sharedClockCheck paused move ∧ paused.server.now = 15 ∧ running.server.controls.triggers = ticking true 20 1 ∧
          paused.server.controls.triggers = ticking false 20 1 ∧ resumed.server.controls.triggers = ticking true 10 2 :
            Option Bool) =
      some true := by decide +kernel
  simp only [Option.bind_eq_some_iff, Option.map_eq_some_iff, decide_eq_true_eq] at hplay
  obtain ⟨running, hrunning, paused, hpaused, ⟨move, resumed⟩, hturn, hshared, hnow, hfirst, hsecond, hthird⟩ := hplay
  have hreach := Pool.play_reach sharedClock_of_check hrunning serves_resumedMeanwhile .start
  have hleads := Pool.play_leads sharedClock_of_check hpaused serves_pausedMeanwhile
  have hok := sharedClock_of_check paused move hshared
  have hstep : paused.Step (Serves .twoTicks) move resumed := Pool.turn_step hturn nofun
  refine ⟨twoTicks_findsFirst, running, paused, resumed, move, hreach, hleads, hok, hstep, hnow, hfirst,
    hsecond, hthird, ?_⟩
  intro hadvance
  have hbefore : { daily with nextFireMs := some 20, generation := 1 } ∈ running.server.controls.triggers := by
    rw [hfirst]
    exact List.mem_singleton_self _
  have hafter : { daily with nextFireMs := some 10, generation := 2 } ∈ resumed.server.controls.triggers := by
    rw [hthird]
    exact List.mem_singleton_self _
  have hle := hadvance.advances hreach (.step hleads hok hstep) _ hbefore _ hafter rfl 20 10 rfl rfl
  exact absurd hle (by decide)

/-! ### Resumes on time -/

def timelyCheck (pool : Pool) : Move → Bool
  | .call (.control (.resumeTrigger _ _ (some tick))) _ => (pool.server.now : Int) < tick.toInt
  | .call (.control (.advanceTrigger _ none (some _))) _ => false
  | move => sharedClockCheck pool move

theorem timely_of_check (pool : Pool) (move : Move) (h : timelyCheck pool move = true) : Timely pool move := by
  unfold timelyCheck at h
  split at h
  · exact ⟨trivial, fun _ _ _ _ => of_decide_eq_true h⟩
  · cases h
  · next hresume hadvance =>
      refine ⟨sharedClock_of_check pool _ h, ?_⟩
      unfold OnTime
      split
      · next owner id tick answer => exact absurd rfl (hresume owner id tick answer)
      · next id tick answer => exact absurd rfl (hadvance id tick answer)
      · trivial

/-- The schedule is made and paused, and resumed at 12. -/
def resumedOnTime : List Pool.Turn :=
  .spawn (forget (createTrigger Fleet.twoTicks.nextTick daily)) :: Pool.callsAt 0 0 4 ++
  .spawn (forget (pauseTrigger daily.owner daily.id)) :: Pool.callsAt 0 0 1 ++
  .tick 12 ::
  .spawn (forget (resumeTrigger Fleet.twoTicks.nextTick daily.owner daily.id)) :: Pool.callsAt 12 0 3

theorem serves_resumedOnTime : ∀ p ∈ Pool.started resumedOnTime, Serves .twoTicks p := by
  intro p hp
  rcases hp with _ | ⟨_, _ | ⟨_, _ | ⟨_, hp⟩⟩⟩
  · exact .create _
  · exact .pause _ _
  · exact .resume _ _
  · cases hp

theorem twoTicks_advance :
    TicksAdvance .twoTicks Timely ∧
      ∃ pool : Pool, pool.Reach (Serves .twoTicks) Timely ∧ pool.server.controls.triggers = ticking true 20 1 := by
  obtain ⟨pool, hreach, hshows⟩ := Pool.reached_of_play timelyCheck timely_of_check resumedOnTime
    (fun pool => pool.server.controls.triggers = ticking true 20 1) (by decide +kernel) serves_resumedOnTime
  exact ⟨ticks_advance twoTicks_findsFirst, pool, hreach, of_decide_eq_true hshows⟩

end Gol
