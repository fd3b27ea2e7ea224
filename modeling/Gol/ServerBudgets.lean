import Mathlib.Algebra.Order.BigOperators.Group.List
import Gol.ServerPurses

/-! The budget of a family of stored runs. A stored log never charges a child other limits than the child is stored
with. While every child is recorded by the delivery that stored it, a run's decisions and the limits of its stored
children are together within its limits, over any crashes and redeliveries. -/

namespace Gol
open Library World

/-- What a run's state counts as used. -/
def RunState.used (state : RunState) : Resource → UInt32
  | .steps => state.steps
  | .modelCalls => state.modelCalls

theorem Paid.fold_used {spec : RunSpec} {events : List Event} (h : Paid spec (payloads events)) (resource : Resource) :
    ((fold spec events).used resource).toNat = spent resource spec (payloads events) := by
  rw [← h.used_toNat resource]
  cases resource <;> rfl

/-! ### What is given -/

theorem givenTo_mono {children more : Children} (h : List.Subperm children more) (resource : Resource) :
    givenTo resource children ≤ givenTo resource more := by
  obtain ⟨part, hperm, hsub⟩ := h
  calc
    givenTo resource children = givenTo resource part := ((hperm.map _).sum_eq).symm
    _ ≤ givenTo resource more := (hsub.map _).sum_le_sum fun _ _ => Nat.zero_le _

theorem charged_of_part {log more : List EventPayload} (h : log <+: more) : charged log <+: charged more := by
  obtain ⟨added, rfl⟩ := h
  induction added using List.reverseRecOn with
  | nil => simp
  | append_singleton added payload ih =>
      rw [← List.append_assoc, charged_snoc]
      refine ih.trans ?_
      cases payload with
      | childStarted runId agentId limits =>
          simp only [charge]
          split
          · exact List.prefix_refl _
          · exact List.prefix_append _ _
      | _ => exact List.prefix_refl _

/-- A log that costs more than its beginning has an event between that cost something. -/
theorem exists_costing {resource : Resource} {spec : RunSpec} {log added : List EventPayload}
    (h : spent resource spec log < spent resource spec (log ++ added)) :
    ∃ part payload, log ++ part ++ [payload] <+: log ++ added ∧
      costs resource (harnessOf spec (log ++ part)) payload = true := by
  induction added using List.reverseRecOn with
  | nil => simp at h
  | append_singleton added payload ih =>
      cases hcosts : costs resource (harnessOf spec (log ++ added)) payload with
      | true => exact ⟨added, payload, List.append_assoc .. ▸ List.prefix_refl _, hcosts⟩
      | false =>
          rw [← List.append_assoc, spent_snoc, hcosts] at h
          obtain ⟨part, other, hpart, hother⟩ := ih (by simpa using h)
          exact ⟨part, other, hpart.trans ⟨[payload], by rw [List.append_assoc]⟩, hother⟩

/-! ### Stored children -/

namespace Server

/-- Distinct stored runs whose parent is `id`, with their limits. -/
structure Parents (s : Server) (id : RunId) (children : Children) : Prop where
  nodup : (children.map Prod.fst).Nodup
  stored : ∀ child ∈ children, ∃ run, s.store.runs child.1 = some run ∧ run.spec.limits = child.2 ∧
    run.spec.lineage.parent = some id

/-- The log charges every stored child of `id`. -/
def Records (s : Server) (id : RunId) (log : List Event) : Prop :=
  ∀ child run, s.store.runs child = some run → run.spec.lineage.parent = some id →
    child ∈ (charged (payloads log)).map Prod.fst

variable {s t : Server} {id : RunId} {run : StoredRun} {log more : List Event} {children : Children}

theorem Records.mono (h : s.Records id log) (hmore : log <+: more) : s.Records id more := by
  intro child run hrun hparent
  have hprefix : payloads log <+: payloads more := List.IsPrefix.map _ hmore
  exact ((charged_of_part hprefix).map Prod.fst).subset (h child run hrun hparent)

/-- Recorded children were given at least what they are stored with. -/
theorem Parents.givenTo_le (h : s.Parents id children) (hbears : s.Bears log) (hrecords : s.Records id log)
    (resource : Resource) :
    givenTo resource children ≤ givenTo resource (charged (payloads log)) := by
  refine givenTo_mono (List.Nodup.subperm (.of_map _ h.nodup) fun child hmem => ?_) resource
  obtain ⟨run, hrun, hlimits, hparent⟩ := h.stored child hmem
  obtain ⟨recorded, hrecorded, hid⟩ := List.mem_map.mp (hrecords child.1 run hrun hparent)
  obtain ⟨run', hrun', hlimits'⟩ := hbears recorded hrecorded
  rw [hid, hrun, Option.some.injEq] at hrun'
  have heq : recorded = child := Prod.ext hid (by rw [← hlimits', ← hrun', hlimits])
  exact heq ▸ hrecorded

/-- What a run has spent and its stored children hold is within its limits, with one to spare while a child is not
recorded. -/
structure Affords (s : Server) (run : StoredRun) : Prop where
  within : ∀ children, s.Parents run.spec.runId children → ∀ resource,
    spent resource run.spec (payloads run.events) + givenTo resource children ≤ (run.spec.limits.of resource).toNat
  spare : ¬ s.Records run.spec.runId run.events → ∀ children, s.Parents run.spec.runId children → ∀ resource,
    spent resource run.spec (payloads run.events) + givenTo resource children < (run.spec.limits.of resource).toNat

structure Balanced (s : Server) : Prop where
  parented : ∀ id run, s.store.runs id = some run → ∀ parent, run.spec.lineage.parent = some parent →
    ∃ stored, s.store.runs parent = some stored
  affords : ∀ id run, s.store.runs id = some run → s.Affords run

/-- No more runs are children of `id`. -/
def SameFamily (s t : Server) (id : RunId) : Prop :=
  ∀ child run, t.store.runs child = some run → run.spec.lineage.parent = some id →
    ∃ before, s.store.runs child = some before ∧ before.spec = run.spec

theorem SameFamily.parents (h : s.SameFamily t id) (hparents : t.Parents id children) : s.Parents id children where
  nodup := hparents.nodup
  stored child hmem := by
    obtain ⟨run, hrun, hlimits, hparent⟩ := hparents.stored child hmem
    obtain ⟨before, hbefore, hspec⟩ := h child.1 run hrun hparent
    exact ⟨before, hbefore, hspec ▸ hlimits, hspec ▸ hparent⟩

theorem SameFamily.records (h : s.SameFamily t id) (hrecords : s.Records id log) : t.Records id log := by
  intro child run hrun hparent
  obtain ⟨before, hbefore, hspec⟩ := h child run hrun hparent
  exact hrecords child before hbefore (hspec ▸ hparent)

theorem SameFamily.affords (h : s.SameFamily t run.spec.runId) (haffords : s.Affords run) : t.Affords run where
  within children hparents := haffords.within children (h.parents hparents)
  spare hrecords children hparents :=
    haffords.spare (fun hrecords' => hrecords (h.records hrecords')) children (h.parents hparents)

theorem Balanced.empty : Server.Balanced .empty where
  parented _ _ hrun := by cases hrun
  affords _ _ hrun := by cases hrun

theorem Balanced.of_store (h : s.Balanced) (hstore : t.store = s.store) : t.Balanced where
  parented := by
    rw [hstore]
    exact h.parented
  affords id run hrun := by
    have hfamily : s.SameFamily t run.spec.runId := fun child stored hchild _ => ⟨stored, hstore ▸ hchild, rfl⟩
    exact hfamily.affords (h.affords id run (hstore ▸ hrun))

/-! ### Steps -/

variable {fleet : Fleet} {c : ServerCall} {answer : c.Answer}

/-- Where a child is asked for, its parent's log is as stored and its other children are recorded. -/
structure Asks (s : Server) (new : StoredRun) (asked : List Event) (id : RunId) (run : StoredRun) : Prop where
  fresh : s.store.runs new.spec.runId = none
  current : run.events <+: asked
  records : s.Records id run.events
  bears : s.Bears asked
  room : ∀ resource, spent resource run.spec (payloads asked) + givenTo resource (charged (payloads asked)) +
    (new.spec.limits.of resource).toNat < (run.spec.limits.of resource).toNat

/-- A child that is asked for so leaves one to spare. -/
theorem Asks.room_of {new : StoredRun} {asked : List Event} (h : s.Asks new asked id run)
    (hfamily : ∀ child stored, t.store.runs child = some stored → stored.spec.lineage.parent = some id →
      (∃ before, s.store.runs child = some before ∧ before.spec = stored.spec) ∨ stored = new ∧ child = new.spec.runId)
    (hparents : t.Parents id children) (resource : Resource) :
    spent resource run.spec (payloads run.events) + givenTo resource children <
      (run.spec.limits.of resource).toNat := by
  have hspent : spent resource run.spec (payloads run.events) ≤ spent resource run.spec (payloads asked) :=
    spent_mono resource run.spec (h.current.map Event.payload)
  have hgiven : ∀ {others : Children}, s.Parents id others →
      givenTo resource others ≤ givenTo resource (charged (payloads asked)) :=
    fun hothers => hothers.givenTo_le h.bears (h.records.mono h.current) resource
  have hroom := h.room resource
  have hchild : ∀ child ∈ children, child = (new.spec.runId, new.spec.limits) ∨
    ∃ before, s.store.runs child.1 = some before ∧
      before.spec.limits = child.2 ∧ before.spec.lineage.parent = some id := by
    intro child hmem
    obtain ⟨stored, hstored, hlimits, hparent⟩ := hparents.stored child hmem
    rcases hfamily child.1 stored hstored hparent with ⟨before, hbefore, hspec⟩ | ⟨rfl, hid⟩
    · exact .inr ⟨before, hbefore, hspec ▸ hlimits, hspec ▸ hparent⟩
    · exact .inl (Prod.ext hid hlimits.symm)
  have hothers : s.Parents id (children.erase (new.spec.runId, new.spec.limits)) := by
    refine ⟨hparents.nodup.sublist ((List.erase_sublist ..).map _), fun child hmem => ?_⟩
    have hnodup : children.Nodup := .of_map _ hparents.nodup
    obtain ⟨hne, hmem⟩ := hnodup.mem_erase_iff.mp hmem
    exact (hchild child hmem).resolve_left hne
  by_cases hmem : (new.spec.runId, new.spec.limits) ∈ children
  · have hsum : givenTo resource children = (new.spec.limits.of resource).toNat +
        givenTo resource (children.erase (new.spec.runId, new.spec.limits)) :=
      ((List.perm_cons_erase hmem).map _).sum_eq.trans List.sum_cons
    have := hgiven hothers
    omega
  · rw [List.erase_of_not_mem hmem] at hothers
    have := hgiven hothers
    omega

/-- A batch that records every stored child leaves the run within its limits. -/
theorem Affords.append {batch : List Event} (h : s.Affords run) (hbears : s.Bears run.events)
    (hgoes : GoesOn run.spec run.events batch)
    (hrecords : Unpriced batch ∨ s.Records run.spec.runId (run.events ++ batch)) :
    s.Affords { run with events := run.events ++ batch } := by
  have hprefix : run.events <+: run.events ++ batch := List.prefix_append _ _
  rcases hrecords with hunpriced | hrecords
  · have hspent : ∀ resource, spent resource run.spec (payloads (run.events ++ batch)) =
        spent resource run.spec (payloads run.events) := by
      intro resource
      rw [payloads_append]
      exact spent_append_unpriced resource run.spec _ fun payload hmem =>
        isPriced_of_isFree (List.all_eq_true.mp hunpriced payload hmem)
    refine ⟨fun children hparents resource => ?_, fun hnot children hparents resource => ?_⟩
    · rw [hspent]
      exact h.within children hparents resource
    · rw [hspent]
      exact h.spare (fun hrecords => hnot (hrecords.mono hprefix)) children hparents resource
  · refine ⟨fun children hparents resource => ?_, fun hnot => absurd hrecords hnot⟩
    change spent resource run.spec (payloads (run.events ++ batch)) + givenTo resource children ≤
      (run.spec.limits.of resource).toNat
    have hone := hgoes.spent_le resource
    by_cases hbefore : s.Records run.spec.runId run.events
    · by_cases hcosts : spent resource run.spec (payloads run.events) < spent resource run.spec
        (payloads (run.events ++ batch))
      · -- Every child was recorded before the event that costs, so its room counts them all.
        rw [payloads_append] at hcosts
        obtain ⟨part, payload, hcut, hpayload⟩ := exists_costing hcosts
        have hroom := hgoes.paid.room resource _ payload (payloads_append .. ▸ hcut) hpayload
        have hgiven := hparents.givenTo_le hbears hbefore resource
        have hcharged := givenTo_mono
          (charged_of_part (List.prefix_append (payloads run.events) part)).sublist.subperm resource
        have hspent := spent_mono resource run.spec (List.prefix_append (payloads run.events) part)
        omega
      · have := h.within children hparents resource
        omega
    · have := h.spare hbefore children hparents resource
      omega

/-- A request's run has no parent. A child is asked for where its parent's log is as stored and records every child
before it, and a step is stored with every child stored so far recorded. -/
structure Informs (s : Server) (c : ServerCall) : Prop where
  rooted : ∀ run, c = .store (.putRun run .request) → run.spec.lineage.parent = none
  asks : ∀ new asked id run, c = .store (.putRun new (.child asked)) → s.store.runs new.spec.runId = none →
    new.spec.lineage.parent = some id → s.store.runs id = some run → run.events <+: asked ∧ s.Records id run.events
  steps : ∀ id seen batch party run, c = .store (.appendEventsAfter id seen batch party) → s.store.runs id = some run →
    Unpriced batch ∨ s.Records id (run.events ++ batch)

/-- What a put run is a child of is stored already. -/
theorem parent_of_put (hpays : Pays s c) (howes : Owes fleet false s c) (hinforms : s.Informs c) {new : StoredRun}
    {origin : Origin} (hc : c = .store (.putRun new origin)) (hparent : new.spec.lineage.parent = some id) :
    ∃ asked run, origin = .child asked ∧ s.store.runs id = some run ∧ s.Bears asked ∧
      ∀ resource, spent resource run.spec (payloads asked) + givenTo resource (charged (payloads asked)) +
        (new.spec.limits.of resource).toNat < (run.spec.limits.of resource).toNat := by
  subst hc
  cases origin with
  | request =>
      rw [hinforms.rooted new rfl] at hparent
      cases hparent
  | fire =>
      obtain ⟨-, owner, trigger, stored, agent, drawn, key, -, -, hspec, -⟩ := howes.1
      have hnone : new.spec.lineage.parent = none := by
        rw [hspec]
        rcases key with _ | (⟨run, tick⟩ | ⟨run, event, body⟩) <;> rfl
      rw [hnone] at hparent
      cases hparent
  | child asked =>
      obtain ⟨parent, events, hsaw, hlineage, hbears, hroom⟩ := hpays
      rw [hparent, Option.some.injEq] at hlineage
      obtain ⟨more, hstored⟩ := hsaw.stored
      exact ⟨asked, _, rfl, hlineage ▸ hstored, hbears, hroom⟩

/-- A run after a step was stored before with the same spec, or was just put. -/
theorem stored_before (hstep : s.Step c answer t) {child : RunId} (hchild : t.store.runs child = some run) :
    (∃ before, s.store.runs child = some before ∧ before.spec = run.spec) ∨
      ∃ origin, c = .store (.putRun run origin) ∧ run.spec.runId = child ∧ s.store.runs child = none := by
  rcases hstep.stored hchild with hsame | hput | ⟨before, seen, batch, party, -, hbefore, -, -, rfl⟩
  · exact .inl ⟨run, hsame, rfl⟩
  · exact .inr hput
  · exact .inl ⟨before, hbefore, rfl⟩

theorem Balanced.parented_step (h : s.Balanced) (hpays : Pays s c) (howes : Owes fleet false s c)
    (hinforms : s.Informs c) (hstep : s.Step c answer t) (hrun : t.store.runs id = some run) {parent : RunId}
    (hparent : run.spec.lineage.parent = some parent) : ∃ stored, t.store.runs parent = some stored := by
  have hlater : ∀ {stored}, s.store.runs parent = some stored → ∃ stored, t.store.runs parent = some stored := by
    intro stored hstored
    obtain ⟨more, hmore⟩ := hstep.later.store parent stored hstored
    exact ⟨_, hmore⟩
  rcases stored_before hstep hrun with ⟨before, hbefore, hspec⟩ | ⟨origin, hc, -, -⟩
  · obtain ⟨stored, hstored⟩ := h.parented id before hbefore parent (hspec ▸ hparent)
    exact hlater hstored
  · obtain ⟨asked, stored, -, hstored, -⟩ := parent_of_put hpays howes hinforms hc hparent
    exact hlater hstored

/-- A run just put has no children. -/
theorem Balanced.childless (h : s.Balanced) (hpays : Pays s c) (howes : Owes fleet false s c) (hinforms : s.Informs c)
    (hstep : s.Step c answer t) (hnone : s.store.runs id = none) {child : RunId}
    (hchild : t.store.runs child = some run) :
    run.spec.lineage.parent ≠ some id := by
  intro hparent
  have hstored : ¬ ∃ stored, s.store.runs id = some stored := by simp [hnone]
  rcases stored_before hstep hchild with ⟨before, hbefore, hspec⟩ | ⟨origin, hc, -, -⟩
  · exact hstored (h.parented child before hbefore id (hspec ▸ hparent))
  · obtain ⟨asked, stored, -, hparent', -⟩ := parent_of_put hpays howes hinforms hc hparent
    exact hstored ⟨stored, hparent'⟩

/-- A run whose log a step leaves as it is stays covered, as the step stores a child of it with room for it. -/
theorem Balanced.affords_same (h : s.Balanced) (hpays : Pays s c) (howes : Owes fleet false s c)
    (hinforms : s.Informs c) (hstep : s.Step c answer t) (hrun : s.store.runs id = some run)
    (hid : run.spec.runId = id) : t.Affords run := by
  subst hid
  by_cases hput : ∃ new asked, c = .store (.putRun new (.child asked)) ∧ s.store.runs new.spec.runId = none ∧
      new.spec.lineage.parent = some run.spec.runId
  · obtain ⟨new, asked, rfl, hfresh, hparent⟩ := hput
    obtain ⟨asked', run', horigin, hstored, hbears, hroom⟩ := parent_of_put hpays howes hinforms rfl hparent
    cases horigin
    rw [hrun, Option.some.injEq] at hstored
    subst hstored
    obtain ⟨hcurrent, hrecords⟩ := hinforms.asks new asked _ run rfl hfresh hparent hrun
    have hasks : s.Asks new asked run.spec.runId run := ⟨hfresh, hcurrent, hrecords, hbears, hroom⟩
    have hlt : ∀ children, t.Parents run.spec.runId children →
      ∀ resource, spent resource run.spec (payloads run.events) +
        givenTo resource children < (run.spec.limits.of resource).toNat := by
      intro children hparents resource
      refine hasks.room_of (fun child stored hchild _ => ?_) hparents resource
      rcases stored_before hstep hchild with hbefore | ⟨origin, hc, hid, -⟩
      · exact .inl hbefore
      · cases hc
        exact .inr ⟨rfl, hid.symm⟩
    exact ⟨fun children hparents resource => (hlt children hparents resource).le, fun _ => hlt⟩
  · have hfamily : s.SameFamily t run.spec.runId := by
      intro child stored hchild hparent
      refine (stored_before hstep hchild).resolve_right fun ⟨origin, hc, hid, hnone⟩ => hput ?_
      obtain ⟨asked, -, rfl, -⟩ := parent_of_put hpays howes hinforms hc hparent
      exact ⟨stored, asked, hc, hid ▸ hnone, hparent⟩
    exact hfamily.affords (h.affords _ run hrun)

theorem Balanced.step (h : s.Balanced) (hsound : Sound s) (hfunded : s.Funded) (hpays : Pays s c)
    (howes : Owes fleet false s c) (hinforms : s.Informs c) (hstep : s.Step c answer t) : t.Balanced where
  parented _ _ hrun _ hparent := h.parented_step hpays howes hinforms hstep hrun hparent
  affords id run hrun := by
    rcases hstep.stored hrun with hsame | ⟨origin, hc, rfl, hnone⟩ |
      ⟨before, seen, batch, party, hadds, hbefore, -, hlength, rfl⟩
    · exact h.affords_same hpays howes hinforms hstep hsame (hsound.logs id run hsame).1
    · -- It has spent nothing, and no run has it as a parent.
      subst hc
      have hfree : Unpriced run.events := Puts.unpriced howes.1
      have hspent : ∀ resource, spent resource run.spec (payloads run.events) = 0 := fun resource =>
        (spent_append_unpriced resource run.spec [] fun payload hmem =>
          isPriced_of_isFree (List.all_eq_true.mp hfree payload hmem)).trans rfl
      have hchildless : ∀ child stored, t.store.runs child = some stored →
          stored.spec.lineage.parent ≠ some run.spec.runId :=
        fun _ _ hchild => h.childless hpays howes hinforms hstep hnone hchild
      refine ⟨fun children hparents resource => ?_, fun hnot => absurd (fun child stored hchild hparent => ?_) hnot⟩
      · have hempty : children = [] := List.eq_nil_iff_forall_not_mem.mpr fun child hmem => by
          obtain ⟨stored, hstored, -, hparent⟩ := hparents.stored child hmem
          exact hchildless _ stored hstored hparent
        subst hempty
        rw [hspent]
        exact Nat.zero_le _
      · exact absurd hparent (hchildless child stored hchild)
    · obtain ⟨hgoes, -⟩ := hfunded.goesOn hpays howes hadds hbefore hlength
      have hid := (hsound.logs id before hbefore).1
      subst hid
      have hrecords : Unpriced batch ∨ s.Records before.spec.runId (before.events ++ batch) := by
        cases c with
        | store c =>
            cases c with
            | appendEvents other batch' party' =>
                cases hadds
                exact .inl (Writes.unpriced howes)
            | appendEventsAfter other seen' batch' party' =>
                cases hadds
                exact hinforms.steps _ seen' batch party before rfl hbefore
            | _ => cases hadds
        | _ => cases hadds
      have haffords : s.Affords { before with events := before.events ++ batch } :=
        (h.affords _ before hbefore).append (hfunded.bears _ before hbefore) hgoes hrecords
      have hfamily : s.SameFamily t before.spec.runId := by
        intro child stored hchild hparent
        refine (stored_before hstep hchild).resolve_right fun ⟨origin, hc, _⟩ => ?_
        subst hc
        cases hadds
      refine SameFamily.affords ?_ haffords
      exact hfamily

end Server

/-! ### The pool -/

/-- Each call that takes effect is informed of the children stored so far. -/
def Informed (pool : Pool) : Move → Prop
  | .call c _ => pool.server.Informs c
  | _ => True

theorem Pool.Reach.balanced {fleet : Fleet} {pool : Pool} (h : pool.Reach (Serves fleet) Informed) :
    pool.server.Balanced := by
  induction h with
  | start => exact .empty
  | @step pool pool' move before hok hstep ih =>
      have hfunds := before.funds
      have hsound := before.sound
      cases hstep with
      | spawn | crash => exact ih
      | tick | expire => exact ih.of_store rfl
      | call s t front back c next answer hcall =>
          have hwaits : (Prog.call c next : Prog ServerSig Unit).Waits c := ⟨next, rfl⟩
          exact ih.step hsound hfunds.kept (hfunds.owes hsound (by simp) hwaits)
            (before.owes (p := .call c next) (by simp) hwaits)
            hok hcall

/-- Every stored log was paid for: the fold counts its decisions and its model calls exactly, within the limits; each
one was recorded while what was spent and given before it left one; and each child it charges is stored with the
limits charged. -/
theorem stored_budgets (fleet : Fleet) {ok : Pool → Move → Prop} {pool : Pool}
    (h : pool.Reach (Serves fleet) ok) (id : RunId) (run : StoredRun) (hrun : pool.server.store.runs id = some run)
    (resource : Resource) :
    (((fold run.spec run.events).used resource).toNat = spent resource run.spec (payloads run.events) ∧
      (fold run.spec run.events).used resource ≤ run.spec.limits.of resource) ∧
    (∀ before payload, before ++ [payload] <+: payloads run.events →
      costs resource (harnessOf run.spec before) payload = true →
      spent resource run.spec before + givenTo resource (charged before) < (run.spec.limits.of resource).toNat) ∧
    ∀ child ∈ charged (payloads run.events), ∃ stored, pool.server.store.runs child.1 = some stored ∧
      stored.spec.limits = child.2 := by
  have hfunded := h.funds.kept
  have hpaid := hfunded.paid id run hrun
  have hused := hpaid.fold_used resource
  refine ⟨⟨hused, ?_⟩, fun before payload hcut => hpaid.room resource before payload hcut, hfunded.bears id run hrun⟩
  rw [UInt32.le_iff_toNat_le]
  exact hused.le.trans (hpaid.spent_le resource)

def headRun : RunSpec := { RunSpec.plain 1 ⟨8, 4⟩ with capabilities := [⟨"agent.delegate"⟩] }

def helper : StoredAgent := ⟨⟨⟨2⟩, "1", "helper", "", [], []⟩, headRun.owner⟩

def withHelper : (c : OutsideCall) → c.Answer
  | .agent _ => .ok (some helper)
  | c => quiet (.delegate ⟨2⟩ "look it up") c

/-- A worker takes the run past its first step, which starts a child. -/
def headDelegates : List Pool.Turn :=
  .spawn (forget (enqueue headRun .request .endRun)) :: Pool.calls 0 4 (.complete "done") ++
  .spawn (forget (Worker.plain.workOne 7)) :: List.replicate 24 (.call 0 withHelper (.ok "done"))

theorem serves_delegated : ∀ p ∈ Pool.started headDelegates, Serves .plain p := by
  intro p hp
  rcases hp with _ | ⟨_, _ | ⟨_, hp⟩⟩
  · exact .enqueue _ _ rfl
  · exact .work _ _ rfl
  · cases hp

/-- Every run that a call put, as it is stored, is recorded in the log if it is a child of `id`. -/
def recordsPut (s : Server) (id : RunId) (log : List Event) : Bool :=
  s.trace.all fun happened => (Server.names happened.call).all fun
    | .run child => (s.store.runs child).all fun run =>
        run.spec.lineage.parent ≠ some id ∨ child ∈ (charged (payloads log)).map Prod.fst
    | _ => true

theorem records_of_put {s : Server} (h : Sound s) {id : RunId} {log : List Event}
    (hrecords : recordsPut s id log = true) :
    s.Records id log := by
  intro child run hrun hparent
  obtain ⟨happened, hmem, hname⟩ := h.put child run hrun
  have hchild := List.all_eq_true.mp (List.all_eq_true.mp hrecords happened hmem) _ hname
  simp only [hrun, Option.all_some] at hchild
  exact (by simpa using hchild : run.spec.lineage.parent ≠ some id ∨ _).resolve_left fun hne => hne hparent

/-- The moves' check for concrete runs. -/
def informedCheck (pool : Pool) : Move → Bool
  | .call (.store (.putRun run .request)) _ => run.spec.lineage.parent = none
  | .call (.store (.putRun new (.child asked))) _ =>
      new.spec.lineage.parent.all fun id => (pool.server.store.runs id).all fun run =>
        run.events.isPrefixOf asked && recordsPut pool.server id run.events
  | .call (.store (.appendEventsAfter id _ batch _)) _ =>
      (pool.server.store.runs id).all fun run =>
        (payloads batch).all isFree || recordsPut pool.server id (run.events ++ batch)
  | _ => true

theorem informed_of_check {pool : Pool} (hsound : Sound pool.server) {move : Move}
    (h : informedCheck pool move = true) :
    Informed pool move := by
  cases move with
  | call c answer =>
      refine ⟨fun run hc => ?_, fun new asked id run hc _ hparent hrun => ?_, fun id seen batch party run hc hrun => ?_⟩
      · subst hc
        exact of_decide_eq_true h
      · subst hc
        simp only [informedCheck, hparent, Option.all_some, hrun, Bool.and_eq_true, List.isPrefixOf_iff_prefix] at h
        exact ⟨h.1, records_of_put hsound h.2⟩
      · subst hc
        simp only [informedCheck, hrun, Option.all_some, Bool.or_eq_true] at h
        exact h.imp_right (records_of_put hsound)
  | _ => trivial

/-- A schedule whose moves are checked in sound pools is a run. -/
theorem Pool.Reach.play {fleet : Fleet} {ok : Pool → Move → Prop} {check : Pool → Move → Bool}
    (hcheck : ∀ pool move, Sound pool.server → check pool move = true → ok pool move)
    {turns : List Pool.Turn} {pool pool' : Pool} (hreach : pool.Reach (Serves fleet) ok)
    (h : Pool.play check turns pool = some pool') (hallowed : ∀ p ∈ Pool.started turns, Serves fleet p) :
    pool'.Reach (Serves fleet) ok := by
  induction turns generalizing pool with
  | nil =>
      cases h
      exact hreach
  | cons t rest ih =>
      rw [Pool.play] at h
      split at h
      · cases h
      · next move next hturn =>
          split at h
          · next hok =>
              have hstarted : ∀ p, t = .spawn p → Serves fleet p :=
                fun p heq => hallowed p (by simp [Pool.started, heq])
              refine ih (.step hreach (hcheck _ _ hreach.sound hok) (Pool.turn_step hturn hstarted)) h
                fun p hp => hallowed p ?_
              simp only [Pool.started, List.mem_filterMap] at hp ⊢
              obtain ⟨t', ht', hp⟩ := hp
              exact ⟨t', List.mem_cons_of_mem _ ht', hp⟩
          · cases h

theorem delegated_reached :
    ∃ (pool : Pool) (run : StoredRun), pool.Reach (Serves .plain) Informed ∧ pool.server.store.runs ⟨1⟩ = some run ∧
      pool.server.Parents ⟨1⟩ [(⟨0⟩, ⟨3, 2⟩)] ∧ charged (payloads run.events) = [(⟨0⟩, ⟨3, 2⟩)] := by
  have hplay : ((Pool.play informedCheck headDelegates ⟨.empty, []⟩).map fun pool =>
      (pool.server.store.runs ⟨1⟩).any (fun run => decide (charged (payloads run.events) = [(⟨0⟩, ⟨3, 2⟩)])) &&
        (pool.server.store.runs ⟨0⟩).any fun run =>
          decide (run.spec.limits = ⟨3, 2⟩ ∧ run.spec.lineage.parent = some ⟨1⟩)) = some true := by
    decide +kernel
  obtain ⟨pool, hpool, hshows⟩ := Option.map_eq_some_iff.mp hplay
  have hreach : pool.Reach (Serves .plain) Informed :=
    Pool.Reach.play (fun _ _ hsound hcheck => informed_of_check hsound hcheck) .start hpool serves_delegated
  obtain ⟨hparent, hchild⟩ := Bool.and_eq_true_iff.mp hshows
  obtain ⟨run, hrun, hcharged⟩ := (Option.any_eq_true ..).mp hparent
  obtain ⟨child, hstored, hchild⟩ := (Option.any_eq_true ..).mp hchild
  obtain ⟨hlimits, hlineage⟩ := of_decide_eq_true hchild
  refine ⟨pool, run, hreach, hrun, ⟨List.nodup_singleton _, fun member hmem => ?_⟩, of_decide_eq_true hcharged⟩
  obtain rfl := List.mem_singleton.mp hmem
  exact ⟨child, hstored, hlimits, hlineage⟩

/-- The run has spent a step on the child it charges, which is stored with three of its steps. -/
theorem stored_budgets_delegated :
    ∃ (pool : Pool) (run : StoredRun), pool.Reach (Serves .plain) Informed ∧ pool.server.store.runs ⟨1⟩ = some run ∧
      charged (payloads run.events) = [(⟨0⟩, ⟨3, 2⟩)] ∧
      ((fold run.spec run.events).used .steps).toNat = spent .steps run.spec (payloads run.events) ∧
      ∃ stored, pool.server.store.runs ⟨0⟩ = some stored ∧ stored.spec.limits = ⟨3, 2⟩ := by
  obtain ⟨pool, run, hreach, hrun, -, hcharged⟩ := delegated_reached
  obtain ⟨⟨hused, -⟩, -, hstored⟩ := stored_budgets .plain hreach ⟨1⟩ run hrun .steps
  exact ⟨pool, run, hreach, hrun, hcharged, hused, hstored (⟨0⟩, ⟨3, 2⟩) (hcharged ▸ List.mem_singleton_self _)⟩

end Gol
