import Gol.ServerSafe

/-! The programs that schedule triggers meet what they owe. A trigger's tick is always set from a time that was read
and from the trigger as it was read: the scheduler moves a due trigger to its first tick after a time its old one has
come by, and a resume gives a paused one its first tick after the resume's time. -/

namespace Gol
open Library World

variable {fleet : Fleet} {pends : Bool} {α : Type} {K : Known} {Q : α → Known}

namespace Known

def readTime (ms : Int64) : Known := ⟨fun s => s.ReadTime ms, fun h hs => hs.later h⟩

def readTriggers (triggers : List StoredTrigger) : Known :=
  ⟨fun s => ∀ trigger ∈ triggers, s.ReadTrigger trigger, fun h hs trigger hmem => (hs trigger hmem).later h⟩

/-- A pass at `nowMs` has read these triggers. -/
def scheduling (nowMs : Int64) (triggers : List StoredTrigger) : Known := (readTime nowMs).and (readTriggers triggers)

/-- What the answer to a request for a first tick tells. -/
def firstTicked (fleet : Fleet) (kind : TriggerKind) (answer : Except ApiError (Option Int64)) : Known :=
  ⟨fun s => (∀ tick, answer = .ok (some tick) → s.Timed fleet kind tick) ∧
      (answer = .ok none → ∃ rotation, kind = .webhook rotation),
    fun h hs => ⟨fun tick heq => (hs.1 tick heq).later h, hs.2⟩⟩

theorem scheduling_head {nowMs : Int64} {trigger : StoredTrigger} {rest : List StoredTrigger} {s : Server}
    (h : (scheduling nowMs (trigger :: rest)).holds s) : s.ReadTime nowMs ∧ s.ReadTrigger trigger :=
  ⟨h.1, h.2 trigger (List.mem_cons_self ..)⟩

theorem scheduling_tail {nowMs : Int64} {trigger : StoredTrigger} {rest : List StoredTrigger} {s : Server}
    (h : (scheduling nowMs (trigger :: rest)).holds s) : (scheduling nowMs rest).holds s :=
  ⟨h.1, fun other hother => h.2 other (List.mem_cons_of_mem _ hother)⟩

end Known

/-! ### The scheduler -/

/-- The ticks of the due triggers have come. -/
theorem Triggers.dueTriggers_due {triggers : Triggers} {nowMs : Int64} {limit : Nat} {trigger : StoredTrigger}
    (h : trigger ∈ triggers.dueTriggers nowMs limit) {tick : Int64} (htick : trigger.nextFireMs = some tick) :
    tick ≤ nowMs := by
  have hmem := List.mem_mergeSort.mp (List.mem_of_mem_take h)
  have hdue := (List.mem_filter.mp hmem).2
  simp only [htick, Option.any_some, Bool.and_eq_true, decide_eq_true_eq] at hdue
  exact hdue.2

theorem does_advance {trigger : StoredTrigger} {cron timeZone : String} {due nowMs : Int64} {rest : List StoredTrigger}
    (hkind : trigger.kind = .schedule cron timeZone) (hdue : due ≤ nowMs) (run : Option RunId) :
    (Service fleet pends).Does (Known.scheduling nowMs (trigger :: rest))
      (advance fleet.nextTick trigger cron timeZone due nowMs run) fun _ => .none := by
  refine does_call (fun s _ hs => ?_) fun answer => ?_
  · obtain ⟨htime, hread⟩ := Known.scheduling_head hs
    refine ⟨trigger, nowMs, hread, rfl, htime, fun tick heq => ?_, fun tick heq => ?_⟩
    · rwa [← Option.some.inj heq]
    · rw [hkind]
      exact heq
  · rcases answer with _ | (_ | _) <;> exact does_done

theorem does_fireDueTrigger {trigger : StoredTrigger} {nowMs : Int64} {rest : List StoredTrigger}
    (hdue : ∀ tick, trigger.nextFireMs = some tick → tick ≤ nowMs) :
    (Service fleet pends).Does (Known.scheduling nowMs (trigger :: rest))
      (fireDueTrigger fleet.uuids fleet.nextTick trigger nowMs) fun _ => .none := by
  unfold fireDueTrigger
  split
  · next cron timeZone due hkind hnext =>
      have hadvance := fun run =>
        @does_advance fleet pends trigger cron timeZone due nowMs rest hkind (hdue due hnext) run
      split
      · exact hadvance none
      · have hkey : FireKey.Derived fleet.uuids trigger.id (some (.tick (fleet.uuids.tickRun trigger.id due) due)) := by
          refine ⟨fun run tick heq => ?_, by simp⟩
          cases heq
          rfl
        refine (minds_fire trigger.owner trigger.id hkey).bind fun fired => ?_
        rcases fired with error | ⟨(run | _ | _ | _ | _), pushed⟩
        · exact does_done
        all_goals exact hadvance _
  · exact does_done

theorem does_fireDue {nowMs : Int64} {triggers : List StoredTrigger}
    (hdue : ∀ trigger ∈ triggers, ∀ tick, trigger.nextFireMs = some tick → tick ≤ nowMs) :
    (Service fleet pends).Does (Known.scheduling nowMs triggers) (fireDue fleet.uuids fleet.nextTick nowMs triggers)
      fun _ => .none := by
  induction triggers with
  | nil => exact does_done
  | cons trigger rest ih =>
      refine Does.bind (does_fireDueTrigger (hdue trigger (List.mem_cons_self ..))) fun fired => ?_
      refine Does.bind ((ih fun other hother => hdue other (List.mem_cons_of_mem _ hother)).pre ?_) fun _ => does_done
      exact fun _ _ hs => Known.scheduling_tail hs.1

theorem does_scheduleFirst (nowMs : Int64) (triggers : List StoredTrigger) :
    (Service fleet pends).Does (Known.scheduling nowMs triggers) (scheduleFirst fleet.nextTick nowMs triggers)
      fun _ => .none := by
  induction triggers with
  | nil => exact does_done
  | cons trigger rest ih =>
      have hrest : (Service fleet pends).Does (Known.scheduling nowMs (trigger :: rest))
          (scheduleFirst fleet.nextTick nowMs rest) fun _ => .none := ih.pre fun _ _ hs => Known.scheduling_tail hs
      unfold scheduleFirst
      split
      · exact hrest
      · next cron timeZone hkind =>
          split
          · next first hfirst =>
              refine does_call (fun s _ hs => ?_) fun answer => ?_
              · obtain ⟨htime, hread⟩ := Known.scheduling_head hs
                refine ⟨trigger, nowMs, hread, rfl, htime, nofun, fun tick heq => ?_⟩
                simp only [hkind, TriggerKind.tickAfter, hfirst, ← Option.some.inj heq]
                rfl
              · rcases answer with _ | (_ | _)
                · exact does_done
                · exact does_done
                · exact hrest
          · refine does_call (fun _ _ _ => rfl) fun answer => ?_
            rcases answer with _ | (_ | _)
            · exact does_done
            · exact does_done
            · exact hrest

theorem does_pass (nowMs : Int64) :
    (Service fleet pends).Does (Known.readTime nowMs) (pass fleet.uuids fleet.nextTick nowMs) fun _ => .none := by
  refine does_ask (fun _ _ _ => trivial) fun answer => ?_
  rcases answer with _ | (_ | unscheduled)
  · exact does_done
  · exact does_done
  · refine Does.bind ((does_scheduleFirst nowMs unscheduled).pre fun s _ hs => ?_) fun scheduled => ?_
    · exact ⟨hs.1, fun trigger hmem => .inr (.inr ⟨passLimit, unscheduled, hs.2, hmem⟩)⟩
    · cases scheduled with
      | error error => exact does_done
      | ok _ =>
          refine does_call_step (fun _ _ _ => trivial)
            (fun answer => ((Known.readTime nowMs).and
              (Known.asked (.control (.dueTriggers nowMs passLimit)) answer)).and
              (.pure (∀ due : List StoredTrigger, answer = some (.ok due) → ∀ trigger ∈ due, ∀ tick,
                trigger.nextFireMs = some tick → tick ≤ nowMs)))
            (fun answer s t _ hs hstep _ => ⟨⟨hs.1.1.later hstep.later, hstep.asked⟩, ?_⟩)
            fun answer => does_pure fun hdue => ?_
          · rintro due rfl trigger hmem tick htick
            obtain ⟨now, -, hanswers, -⟩ := hstep.answers (by rintro ⟨⟩)
            have heq : (some (.ok due) : Option (Except StoreError (List StoredTrigger))) =
                some (.ok (s.controls.triggers.dueTriggers nowMs passLimit)) := hanswers.control_eq
            obtain rfl : due = s.controls.triggers.dueTriggers nowMs passLimit := by simpa using heq
            exact Triggers.dueTriggers_due hmem htick
          · rcases answer with _ | (_ | due)
            · exact does_done
            · exact does_done
            · refine Does.bind ((does_fireDue (hdue due rfl)).pre fun s _ hs => ?_) fun _ => does_done
              exact ⟨hs.1, fun trigger hmem => .inr (.inl ⟨nowMs, passLimit, due, hs.2, hmem⟩)⟩

theorem minds_passNow : Minds fleet pends (passNow fleet.uuids fleet.nextTick) := by
  refine does_ask (fun _ _ _ => trivial) fun answer => ?_
  cases answer with
  | error error => exact does_done
  | ok nowMs => exact (does_pass nowMs).pre fun _ _ hs => .inl hs.2

/-! ### Requests -/

theorem does_firstTick (kind : TriggerKind) :
    (Service fleet pends).Does (.none : Known) (firstTick fleet.nextTick kind) (Known.firstTicked fleet kind) := by
  cases kind with
  | webhook rotation => exact does_ret fun _ _ _ => ⟨nofun, fun _ => ⟨rotation, rfl⟩⟩
  | schedule cron timeZone =>
      refine does_ask (fun _ _ _ => trivial) fun nowMs => does_ret fun s _ hs =>
        ⟨fun tick heq => ⟨nowMs, .inr hs.2, ?_⟩, ?_⟩
      · split at heq
        · next next hnext =>
            obtain rfl : next = tick := by simpa using heq
            simp only [TriggerKind.tickAfter, hnext]
            rfl
        · cases heq
      · split <;> nofun

theorem minds_createTrigger (new : StoredTrigger) : Minds fleet pends (createTrigger fleet.nextTick new) := by
  unfold createTrigger
  split
  · exact does_done
  · refine Does.bind (does_firstTick new.kind) fun first => ?_
    cases first with
    | error error => exact does_done
    | ok first =>
        refine does_quiet (fun _ => trivial) fun created => does_quiet (fun _ => trivial) fun agent => ?_
        cases agent with
        | error error => exact does_done
        | ok found =>
            dsimp only
            split
            · exact does_done
            · refine does_call (fun s _ hs => ⟨rfl, rfl, fun tick heq => hs.2.1 tick (congrArg Except.ok heq)⟩)
                fun answer => ?_
              rcases answer with _ | (_ | (_ | _)) <;> exact does_done

theorem minds_pauseTrigger (owner : Owner) (id : TriggerId) : Minds fleet pends (pauseTrigger owner id) := by
  refine does_quiet (fun _ => rfl) fun answer => ?_
  rcases answer with _ | (_ | (_ | _)) <;> exact does_done

theorem minds_resumeTrigger (owner : Owner) (id : TriggerId) :
    Minds fleet pends (resumeTrigger fleet.nextTick owner id) := by
  refine does_call_step (fun _ _ _ => trivial)
    (fun answer => (Known.asked (.control (.trigger owner id)) answer).and
      (.pure (∀ trigger, answer = some (.ok (some trigger)) → trigger.id = id)))
    (fun answer s t _ _ hstep _ => ⟨hstep.asked, ?_⟩) fun answer => does_pure fun hid => ?_
  · rintro trigger rfl
    obtain ⟨now, -, hanswers, -⟩ := hstep.answers (by rintro ⟨⟩)
    have heq : (some (.ok (some trigger)) : Option (Except StoreError (Option StoredTrigger))) =
        some (.ok (s.controls.triggers.trigger owner id)) := hanswers.control_eq
    have hfound : s.controls.triggers.trigger owner id = some trigger := by simpa using heq.symm
    have hof := List.find?_some hfound
    simp only [Triggers.isOf, Bool.and_eq_true, decide_eq_true_eq] at hof
    exact hof.1
  · rcases answer with _ | (_ | (_ | trigger))
    · exact does_done
    · exact does_done
    · exact does_done
    · dsimp only
      split
      · exact does_done
      · refine Does.bind ((does_firstTick trigger.kind).pre fun _ _ _ => trivial) fun next => ?_
        cases next with
        | error error => exact does_done
        | ok next =>
            refine does_call (fun s _ hs => ⟨trigger, .inl ⟨owner, id, hs.1⟩, hid trigger rfl, ?_⟩) fun resumed => ?_
            · cases next with
              | some tick => exact hs.2.1 tick rfl
              | none => exact hs.2.2 rfl
            · rcases resumed with _ | (_ | (_ | _)) <;> exact does_done

theorem minds_removeTrigger (owner : Owner) (id : TriggerId) : Minds fleet pends (removeTrigger owner id) := by
  refine does_quiet (fun _ => trivial) fun answer => ?_
  rcases answer with _ | (_ | _) <;> exact does_done

end Gol
