import Gol.ServerWarrants

/-! What delegation passes on. A child runs for its parent's owner, at its parent's root and in its session, with some
of its parent's capabilities; so what a stored run was authorized to do is allowed to every run above it. -/

namespace Gol
open Library World

/-! ### Runs within their parents -/

/-- `child` may do no more than `parent` may. -/
structure RunSpec.Within (child parent : RunSpec) : Prop where
  owner : child.owner = parent.owner
  root : child.root = parent.root
  placement : child.placement = parent.placement
  workModel : child.workModel = parent.workModel
  session : child.metadataGet sessionId = parent.metadataGet sessionId
  workspace : child.metadataGet workspaceId = none ∨ child.metadataGet workspaceId = parent.metadataGet workspaceId
  capabilities : child.capabilities ⊆ parent.capabilities
  hop : parent.lineage.hop ≤ child.lineage.hop

namespace RunSpec.Within

variable {spec child parent above : RunSpec}

theorem refl (spec : RunSpec) : spec.Within spec :=
  ⟨rfl, rfl, rfl, rfl, rfl, .inr rfl, List.Subset.refl _, UInt32.le_refl _⟩

theorem trans (h : child.Within parent) (h' : parent.Within above) : child.Within above where
  owner := h.owner.trans h'.owner
  root := h.root.trans h'.root
  placement := h.placement.trans h'.placement
  workModel := h.workModel.trans h'.workModel
  session := h.session.trans h'.session
  workspace := h.workspace.elim .inl fun heq => h'.workspace.imp heq.trans heq.trans
  capabilities := List.Subset.trans h.capabilities h'.capabilities
  hop := UInt32.le_trans h'.hop h.hop

theorem allowCapability (h : child.Within parent) {name : String} (hallow : Gol.allowCapability child name = .allow) :
    Gol.allowCapability parent name = .allow := by
  simp only [Gol.allowCapability, List.any_eq_true] at hallow ⊢
  split at hallow
  · next hheld =>
      obtain ⟨capability, hmem, heq⟩ := hheld
      rw [if_pos ⟨capability, h.capabilities hmem, heq⟩]
  · cases hallow

/-- Memory that the child may name, its parent may. -/
theorem allowMemory (h : child.Within parent) {name : String} {scope : MemoryScope}
    (hallow : Gol.allowMemory child name scope = .allow) : Gol.allowMemory parent name scope = .allow := by
  have hcapability : Gol.allowCapability child name = .allow := by
    by_contra hnot
    simp only [Gol.allowMemory, if_pos hnot] at hallow
    exact hnot hallow
  have hsome := memoryOwnerId_isSome_of_allow hallow 0
  have hparent : scope ≠ .global → (memoryOwnerId parent scope 0).isSome = true := by
    intro _
    cases scope with
    | session =>
        simp only [memoryOwnerId, Option.isSome_map] at hsome ⊢
        rwa [← h.session]
    | workspace =>
        simp only [memoryOwnerId, Option.isSome_map] at hsome ⊢
        rcases h.workspace with hnone | heq
        · simp [hnone] at hsome
        · rwa [← heq]
    | global => contradiction
    | _ => rfl
  have hglobal : scope ≠ .global := by
    rintro rfl
    simp [memoryOwnerId] at hsome
  have hallowed := h.allowCapability hcapability
  simp [Gol.allowMemory, hallowed, hglobal, hparent hglobal]

theorem checkMessage (h : child.Within parent) {effect : Effect} (hallow : Gol.checkMessage child effect = .allow) :
    Gol.checkMessage parent effect = .allow := by
  cases effect with
  | sendMessage toAgent body expectsReply replyTo timeoutSecs =>
      simp only [Gol.checkMessage] at hallow ⊢
      split at hallow
      · cases hallow
      · next hhop =>
          rw [if_neg]
          · exact hallow
          · simp only [Bool.and_eq_true, decide_eq_true_eq] at hhop ⊢
            exact fun hdeep => hhop ⟨hdeep.1, UInt32.le_trans hdeep.2 h.hop⟩
  | _ => rfl

/-- With the same tools, what the child is allowed its parent is. -/
theorem authorize (h : child.Within parent) {effect : Effect} {tools : List ToolDescriptor}
    (hallow : Gol.authorize child effect tools = .allow) : Gol.authorize parent effect tools = .allow := by
  cases effect with
  | complete outcome => rfl
  | modelCall request => exact h.allowCapability hallow
  | memoryRead scope key | memoryWrite scope key value => exact h.allowMemory hallow
  | toolCall name input step =>
      simp only [Gol.authorize] at hallow ⊢
      split at hallow
      · exact h.allowCapability hallow
      · cases hallow
  | delegate agentId input =>
      simp only [Gol.authorize] at hallow ⊢
      split at hallow
      · next hcapability =>
          rw [h.allowCapability hcapability]
          split at hallow
          · cases hallow
          · next hhop => exact if_neg fun hdeep => hhop (UInt32.le_trans hdeep h.hop)
      · next hnot => exact absurd hallow hnot
  | sendMessage toAgent body expectsReply replyTo timeoutSecs =>
      simp only [Gol.authorize] at hallow ⊢
      split at hallow
      · next hcapability =>
          rw [h.allowCapability hcapability]
          exact h.checkMessage hallow
      · next hnot => exact absurd hallow hnot
  | askUser prompt =>
      simp only [Gol.authorize] at hallow ⊢
      split at hallow
      · next hcapability =>
          rw [h.allowCapability hcapability]
          exact hallow
      · next hnot => exact absurd hallow hnot
  | _ => cases hallow

end RunSpec.Within

/-! ### Children -/

/-- The child is one that the parent's driver asked for, with a hop left. -/
structure Entrusts (parent child : RunSpec) : Prop where
  within : child.Within parent
  lineage : child.lineage.parent = some parent.runId
  hop : child.lineage.hop.toNat = parent.lineage.hop.toNat + 1
  shallow : child.lineage.hop ≤ maxDelegationHops

theorem childOf_within (v5 : ChildName → Uuid) {request : ChildRequest} (agent : AgentManifest)
    (h : request.parent.lineage.hop < maxDelegationHops) : (childOf v5 request agent).Within request.parent where
  owner := rfl
  root := rfl
  placement := rfl
  workModel := rfl
  session := by
    simp only [RunSpec.metadataGet, childOf]
    cases request.parent.metadata.lookup sessionId <;> simp
  workspace := by
    left
    simp only [RunSpec.metadataGet, childOf]
    cases request.parent.metadata.lookup sessionId with
    | none => rfl
    | some session => simp [show (workspaceId == sessionId) = false by decide]
  capabilities capability hmem := by
    obtain ⟨-, hheld⟩ := List.mem_filter.mp hmem
    exact of_decide_eq_true hheld
  hop := by
    rw [UInt32.le_iff_toNat_le, childOf_hop v5 agent h]
    exact Nat.le_succ _

theorem AskedFor.entrusts {parent spec : RunSpec} {asked : List Event} (h : AskedFor parent asked spec) :
    Entrusts parent spec := by
  obtain ⟨c, request, v5, agent, hmade, -, hchild, rfl⟩ := h
  obtain ⟨rfl, hshallow⟩ := hmade.shallow hchild
  have hhop := childOf_hop v5 agent hshallow
  refine ⟨childOf_within v5 agent hshallow, rfl, hhop, ?_⟩
  rw [UInt32.le_iff_toNat_le, hhop]
  exact UInt32.lt_iff_toNat_lt.mp hshallow

namespace Server

variable {fleet : Fleet} {s t : Server} {c : ServerCall} {answer : c.Answer}

/-- Each stored run has no parent, or is entrusted by a stored one. -/
def Chained (s : Server) : Prop :=
  ∀ id run, s.store.runs id = some run → run.spec.lineage = .default ∨
    ∃ parent, s.store.runs parent.spec.runId = some parent ∧ Entrusts parent.spec run.spec

/-- A request's run has no parent. -/
def Roots (c : ServerCall) : Prop := ∀ run, c = .store (.putRun run .request) → run.spec.lineage = .default

theorem Chained.step (h : s.Chained) (hwarrants : Warrants s c) (howes : Owes fleet false s c) (hroots : Roots c)
    (hstep : s.Step c answer t) : t.Chained := by
  have hlater : ∀ {spec}, (spec.lineage = .default ∨ ∃ parent, s.store.runs parent.spec.runId = some parent ∧
      Entrusts parent.spec spec) → spec.lineage = .default ∨
        ∃ parent, t.store.runs parent.spec.runId = some parent ∧ Entrusts parent.spec spec := by
    rintro spec (htop | ⟨parent, hstored, hentrusts⟩)
    · exact .inl htop
    · obtain ⟨more, hmore⟩ := hstep.later.store _ parent hstored
      exact .inr ⟨⟨parent.spec, parent.events ++ more⟩, hmore, hentrusts⟩
  intro id run hrun
  rcases hstep.stored hrun with hsame | ⟨origin, rfl, -, -⟩ | ⟨before, seen, batch, party, -, hbefore, -, -, rfl⟩
  · exact hlater (h id run hsame)
  · cases origin with
    | request => exact .inl (hroots run rfl)
    | fire =>
        obtain ⟨-, owner, trigger, stored, agent, drawn, key, -, -, hspec, -⟩ := howes.1
        left
        rw [hspec]
        rcases key with _ | (⟨run, tick⟩ | ⟨run, event, body⟩) <;> rfl
    | child asked =>
        obtain ⟨parent, events, hsaw, hasked⟩ := hwarrants
        obtain ⟨more, hstored⟩ := hsaw.stored
        exact hlater (.inr ⟨⟨parent, events ++ more⟩, hstored, hasked.entrusts⟩)
  · exact hlater (h id before hbefore)

/-- `above` is `n` parents above `spec`, through stored runs. -/
inductive Above (s : Server) : Nat → RunSpec → RunSpec → Prop
  | self (spec : RunSpec) : Above s 0 spec spec
  | parent {n : Nat} {spec above : RunSpec} {parent : StoredRun}
      (hstored : s.store.runs parent.spec.runId = some parent)
      (hparent : spec.lineage.parent = some parent.spec.runId) (h : Above s n parent.spec above) :
      Above s (n + 1) spec above

/-- A run's parent is the one that entrusted it. -/
theorem Chained.entrusts (h : s.Chained) {id : RunId} {run parent : StoredRun} (hrun : s.store.runs id = some run)
    (hstored : s.store.runs parent.spec.runId = some parent)
    (hparent : run.spec.lineage.parent = some parent.spec.runId) :
    Entrusts parent.spec run.spec := by
  rcases h id run hrun with htop | ⟨other, hother, hentrusts⟩
  · rw [htop] at hparent
    cases hparent
  · rw [hentrusts.lineage, Option.some.injEq] at hparent
    rw [hparent, hstored, Option.some.injEq] at hother
    exact hother ▸ hentrusts

theorem Chained.above (h : s.Chained) {n : Nat} {spec above : RunSpec} (habove : s.Above n spec above) {id : RunId}
    {events : List Event} (hrun : s.store.runs id = some ⟨spec, events⟩) :
    spec.Within above ∧ spec.lineage.hop.toNat = above.lineage.hop.toNat + n := by
  induction habove generalizing id events with
  | self spec => exact ⟨.refl spec, rfl⟩
  | @parent n spec above parent hstored hparent _ ih =>
      have hentrusts := h.entrusts hrun hstored hparent
      obtain ⟨hwithin, hhop⟩ := ih hstored
      refine ⟨hentrusts.within.trans hwithin, ?_⟩
      rw [hentrusts.hop, hhop, Nat.add_assoc]

/-- As many parents above a run as it has hops is the run without a parent that its chain started with. -/
theorem Chained.top (h : s.Chained) (n : Nat) {id : RunId} {run : StoredRun} (hrun : s.store.runs id = some run)
    (hhop : run.spec.lineage.hop.toNat = n) : ∃ top, s.Above n run.spec top ∧ top.lineage = .default := by
  induction n generalizing id run with
  | zero =>
      rcases h id run hrun with htop | ⟨parent, -, hentrusts⟩
      · exact ⟨run.spec, .self _, htop⟩
      · have := hentrusts.hop
        omega
  | succ n ih =>
      rcases h id run hrun with htop | ⟨parent, hstored, hentrusts⟩
      · rw [htop] at hhop
        cases hhop
      · have hparent := hentrusts.hop
        obtain ⟨top, habove, htop⟩ := ih hstored (by omega)
        exact ⟨top, .parent hstored hentrusts.lineage habove, htop⟩

theorem Chained.hop_le (h : s.Chained) {id : RunId} {run : StoredRun} (hrun : s.store.runs id = some run) :
    run.spec.lineage.hop ≤ maxDelegationHops := by
  rcases h id run hrun with htop | ⟨parent, -, hentrusts⟩
  · rw [htop]
    decide
  · exact hentrusts.shallow

end Server

/-! ### The pool -/

/-- A request stores a run without a lineage. -/
def Rooted (_ : Pool) : Move → Prop
  | .call c _ => Server.Roots c
  | _ => True

theorem Pool.Reach.chained {fleet : Fleet} {pool : Pool} (h : pool.Reach (Serves fleet) Rooted) :
    pool.server.Chained := by
  induction h with
  | start => exact fun id run hrun => by cases hrun
  | @step pool pool' move before hok hstep ih =>
      cases hstep with
      | spawn | crash | tick | expire => exact ih
      | call s t front back c next answer hcall =>
          have hwaits : (Prog.call c next : Prog ServerSig Unit).Waits c := ⟨next, rfl⟩
          exact ih.step (before.warranted.owes before.sound (by simp) hwaits)
            (before.owes (p := .call c next) (by simp) hwaits)
            hok hcall

/-- A stored run is at most eight hops below the run that its chain started with, and runs for the same owner at the
same root, in the same session and placement. Each run above it holds its capabilities, one hop less for each parent
between, and is allowed whatever the run is, with any tools; and each effect authorized in its log is one it is
allowed with some tools. -/
theorem delegated_authority (fleet : Fleet) {pool : Pool} (h : pool.Reach (Serves fleet) Rooted)
    (id : RunId) (run : StoredRun) (hrun : pool.server.store.runs id = some run) :
    run.spec.lineage.hop ≤ maxDelegationHops ∧
    (∃ top, pool.server.Above run.spec.lineage.hop.toNat run.spec top ∧ top.lineage = .default ∧
      top.runId = run.spec.root) ∧ (∀ n above, pool.server.Above n run.spec above → (run.spec.Within above ∧
      run.spec.lineage.hop.toNat = above.lineage.hop.toNat + n) ∧
      ∀ effect tools, authorize run.spec effect tools = .allow → authorize above effect tools = .allow) ∧
    ∀ effect, .effectAuthorized effect ∈ payloads run.events → ∃ tools, authorize run.spec effect tools = .allow := by
  have hchained := h.chained
  refine ⟨hchained.hop_le hrun, ?_, fun n above habove => ?_, fun effect hmem => ?_⟩
  · obtain ⟨top, habove, htop⟩ := hchained.top _ hrun rfl
    refine ⟨top, habove, htop, ?_⟩
    rw [(hchained.above habove hrun).1.root, RunSpec.root, htop]
    rfl
  · have hbelow := hchained.above habove hrun
    exact ⟨hbelow, fun effect tools hallow => hbelow.1.authorize hallow⟩
  · obtain ⟨built, tail, hevents, hbuilt, htail⟩ := h.warranted.kept id run hrun
    have hbefore : .effectAuthorized effect ∈ payloads built := by
      rw [hevents, payloads_append] at hmem
      refine (List.mem_append.mp hmem).resolve_right fun hafter => ?_
      rcases htail with rfl | ⟨message, usage, text, heq⟩
      · cases hafter
      · simp [heq] at hafter
    exact hbuilt.builds.granted effect hbefore

/-- The moves' check for concrete runs. -/
def rootedCheck (_ : Pool) : Move → Bool
  | .call (.store (.putRun run .request)) _ => run.spec.lineage = .default
  | _ => true

theorem rooted_of_check {pool : Pool} {move : Move} (h : rootedCheck pool move = true) : Rooted pool move := by
  cases move with
  | call c answer =>
      rintro run rfl
      exact of_decide_eq_true h
  | _ => trivial

/-- The run that a helper is started for is one above it. -/
theorem delegated_authority_delegated :
    ∃ (pool : Pool) (run head : StoredRun), pool.Reach (Serves .plain) Rooted ∧ pool.server.store.runs ⟨0⟩ = some run ∧
      pool.server.store.runs ⟨1⟩ = some head ∧ run.spec.lineage.hop = 1 ∧ pool.server.Above 1 run.spec head.spec ∧
        run.spec.Within head.spec ∧ run.spec.lineage.hop.toNat = head.spec.lineage.hop.toNat + 1 := by
  have hplay : ((Pool.play rootedCheck headDelegates ⟨.empty, []⟩).map fun pool =>
      (pool.server.store.runs ⟨1⟩).any (fun run => decide (run.spec.runId = ⟨1⟩)) &&
        (pool.server.store.runs ⟨0⟩).any fun run =>
          decide (run.spec.lineage.hop = 1 ∧ run.spec.lineage.parent = some ⟨1⟩)) = some true := by
    decide +kernel
  obtain ⟨pool, hpool, hshows⟩ := Option.map_eq_some_iff.mp hplay
  have hreach : pool.Reach (Serves .plain) Rooted :=
    Pool.Reach.play (fun _ _ _ hcheck => rooted_of_check hcheck) .start hpool serves_delegated
  obtain ⟨hhead, hchild⟩ := Bool.and_eq_true_iff.mp hshows
  obtain ⟨head, hstored, hid⟩ := (Option.any_eq_true ..).mp hhead
  obtain ⟨run, hrun, hchild⟩ := (Option.any_eq_true ..).mp hchild
  obtain ⟨hhop, hparent⟩ := of_decide_eq_true hchild
  have hid : head.spec.runId = ⟨1⟩ := of_decide_eq_true hid
  have habove : pool.server.Above 1 run.spec head.spec := .parent (hid ▸ hstored) (hid ▸ hparent) (.self _)
  obtain ⟨-, -, hwithin, -⟩ := delegated_authority .plain hreach ⟨0⟩ run hrun
  exact ⟨pool, run, head, hreach, hrun, hstored, hhop, habove, (hwithin 1 head.spec habove).1⟩

end Gol
