import Gol.ServerWatch

/-! The server's programs meet what they owe: producers, fires, deliveries, sweeps and requests. -/

namespace Gol
open Library World

/-- What a program has learned of the server. -/
abbrev Known := Fact Server.Later

namespace Known

def asked (c : ServerCall) (answer : c.Answer) : Known := ⟨fun s => s.Asked c answer, fun h hs => hs.later h⟩

def saw (id : RunId) (spec : RunSpec) (events : List Event) : Known :=
  ⟨fun s => s.Saw id spec events, fun h hs => hs.later h⟩

def ended (id : RunId) : Known := ⟨fun s => s.Ended id, fun h hs => hs.later h⟩

def shown (id : RunId) : Known := ⟨fun s => Server.Shown s.trace id, fun h hs => hs.mono h.trace.subset⟩

/-- What the answer to an append of `batch` tells of `id`'s end. -/
def closes (id : RunId) (batch : List Event) (answer : Except StoreError Append) : Known :=
  .imp (answer = .ok .terminal ∨ answer = .ok .appended ∧ hasEnded batch = true) (ended id)

/-- The run is stored. -/
def kept (id : RunId) : Known :=
  ⟨fun s => ∃ spec events, s.Saw id spec events, fun h ⟨spec, events, hs⟩ => ⟨spec, events, hs.later h⟩⟩

/-- What a read of `id` tells. -/
def read (id : RunId) (run : StoredRun) : Known := (saw id run.spec run.events).and (shown id)

def loaded (id : RunId) (found : Option StoredRun) : Known :=
  ⟨fun s => ∀ run, found = some run → (read id run).holds s, fun h hs run hrun => (read id run).later h (hs run hrun)⟩

/-- The gate `key` was read open. -/
def gated (id : RunId) (key : Option FireGate) : Known :=
  ⟨fun s => ∃ gate, key = some gate ∧ s.Gated id gate, fun h ⟨gate, hkey, hs⟩ => ⟨gate, hkey, hs.later h⟩⟩

/-- A settle that was answered `fire` held `id` only if it did. -/
def settled (id : RunId) (fire : Except EnqueueError Fire) : Known :=
  ⟨fun s => ∀ why, fire = .ok (.held why) → s.HeldFire id, fun h hs why heq => (hs why heq).later h⟩

end Known

variable {fleet : Fleet} {pends : Bool} {α β : Type} {K : Known} {Q : α → Known}

/-- The program needs to know nothing. -/
def Minds (fleet : Fleet) (pends : Bool) (p : Prog ServerSig α) : Prop :=
  (Service fleet pends).Does (.none : Known) p fun _ => .none

/-- A call that owes nothing. -/
def Quiet (fleet : Fleet) (pends : Bool) (c : ServerCall) : Prop := ∀ s, Owes fleet pends s c

theorem Minds.does {p : Prog ServerSig α} (h : Minds fleet pends p) (hQ : ∀ value s, (Q value).holds s) :
    (Service fleet pends).Does K p Q :=
  (h.pre fun _ _ _ => trivial).post fun value s _ _ => hQ value s

/-- What follows a program that needs to know nothing knows as much as before it. -/
theorem Minds.bind {p : Prog ServerSig β} {f : β → Prog ServerSig α} (h : Minds fleet pends p)
    (hf : ∀ value, (Service fleet pends).Does K (f value) Q) : (Service fleet pends).Does K (p.bind f) Q :=
  Does.bind (h.does (fun _ _ => trivial) : (Service fleet pends).Does K p fun _ => .none)
    fun value => (hf value).pre fun _ _ hs => hs.1

theorem minds_only {p : Prog ServerSig α} (h : p.Only (Quiet fleet pends)) : Minds fleet pends p :=
  does_only (fun s _ _ hc => hc s) h

theorem does_done {value : α} : (Service fleet pends).Does K (.ret value) fun _ => .none :=
  does_ret fun _ _ _ => trivial

/-! ### Rules for the calls a program learns from -/

/-- A call and what its answer tells. -/
theorem does_ask {c : ServerCall} {next : c.Answer → Prog ServerSig α}
    (howes : ∀ s, Sound s → K.holds s → Owes fleet pends s c)
    (hnext : ∀ answer, (Service fleet pends).Does (K.and (Known.asked c answer)) (next answer) Q) :
    (Service fleet pends).Does K (.call c next) Q :=
  does_call_step howes (fun answer => K.and (Known.asked c answer))
    (fun _ _ _ _ hs hstep _ => ⟨K.later hstep.later hs, hstep.asked⟩) hnext

theorem does_quiet {c : ServerCall} {next : c.Answer → Prog ServerSig α} (hc : Quiet fleet pends c)
    (hnext : ∀ answer, (Service fleet pends).Does K (next answer) Q) : (Service fleet pends).Does K (.call c next) Q :=
  does_call (fun s _ _ => hc s) hnext

theorem does_stamps {next : (Nat → Stamp) → Prog ServerSig α}
    (hnext : ∀ stamps, (Service fleet pends).Does K (next stamps) Q) :
    (Service fleet pends).Does K (.call (.outside .stamps) next) Q :=
  does_quiet (fun _ => trivial) hnext

theorem does_load {id : RunId} {next : Except StoreError (Option StoredRun) → Prog ServerSig α}
    (herror : ∀ error, (Service fleet pends).Does K (next (.error error)) Q)
    (hok : ∀ found, (Service fleet pends).Does (K.and (Known.loaded id found)) (next (.ok found)) Q) :
    (Service fleet pends).Does K (.call (.store (.run id)) next) Q := by
  refine does_ask (fun _ _ _ => trivial) fun answer => ?_
  cases answer with
  | error error => exact (herror error).pre fun _ _ hs => hs.1
  | ok found =>
      refine (hok found).pre fun _ hsound hs => ⟨hs.1, ?_⟩
      rintro run rfl
      obtain ⟨took, hmem⟩ := hs.2
      exact ⟨hsound.told _ hmem, .inr ⟨run, took, hmem⟩⟩

theorem does_read {id : RunId} {next : Except StoreError (Option StoredRun) → Prog ServerSig α}
    (herror : ∀ error, (Service fleet pends).Does K (next (.error error)) Q)
    (hnone : (Service fleet pends).Does K (next (.ok none)) Q)
    (hsome : ∀ run, (Service fleet pends).Does (K.and (Known.read id run)) (next (.ok (some run))) Q) :
    (Service fleet pends).Does K (.call (.store (.run id)) next) Q := by
  refine does_load herror fun found => ?_
  cases found with
  | none => exact hnone.pre fun _ _ hs => hs.1
  | some run => exact (hsome run).pre fun _ _ hs => ⟨hs.1, hs.2 run rfl⟩

/-- An append to any log. -/
theorem does_append {id : RunId} {batch : List Event} {party : Party}
    {next : Except StoreError Append → Prog ServerSig α}
    (howes : ∀ s, Sound s → K.holds s → Writes fleet s id none batch party)
    (hnext : ∀ answer, (Service fleet pends).Does (K.and (Known.closes id batch answer)) (next answer) Q) :
    (Service fleet pends).Does K (.call (.store (.appendEvents id batch party)) next) Q := by
  refine does_ask howes fun answer => (hnext answer).pre fun s hsound hs => ⟨hs.1, ?_⟩
  rintro (rfl | ⟨rfl, hbatch⟩)
  · exact hsound.tells hs.2
  · obtain ⟨spec, events, hsaw⟩ := hsound.tells hs.2
    exact hsaw.ended (by simp [hbatch])

/-- What is known of no state. -/
theorem does_pure {p : Prop} {prog : Prog ServerSig α} (h : p → (Service fleet pends).Does K prog Q) :
    (Service fleet pends).Does (K.and (.pure p)) prog Q :=
  fun s hinv hs => h hs.2 s hinv hs.1

/-- The run is stored. -/
def Known.Stores (K : Known) (id : RunId) : Prop := ∀ s, K.holds s → ∃ run, s.store.runs id = some run

theorem does_readStored {id : RunId} {next : Except StoreError (Option StoredRun) → Prog ServerSig α}
    (hstored : Known.Stores K id) (herror : ∀ error, (Service fleet pends).Does K (next (.error error)) Q)
    (hsome : ∀ run, (Service fleet pends).Does (K.and (Known.read id run)) (next (.ok (some run))) Q) :
    (Service fleet pends).Does K (.call (.store (.run id)) next) Q := by
  refine does_call_step (fun _ _ _ => trivial)
    (fun answer => (K.and (Known.asked (.store (.run id)) answer)).and (.pure (answer ≠ .ok none)))
    (fun answer s t _ hs hstep _ => ⟨⟨K.later hstep.later hs, hstep.asked⟩, ?_⟩) fun answer =>
      does_pure fun hanswer => ?_
  · rintro rfl
    obtain ⟨now, -, hanswers, -⟩ := hstep.answers (by rintro ⟨⟩)
    obtain ⟨run, hrun⟩ := hstored s hs
    have heq : (.ok none : Except StoreError (Option StoredRun)) = .ok (s.store.runs id) := hanswers.store_eq
    simp [hrun] at heq
  · rcases answer with error | (_ | run)
    · exact (herror error).pre fun _ _ hs => hs.1
    · exact absurd rfl hanswer
    · refine (hsome run).pre fun _ hsound hs => ⟨hs.1, ?_⟩
      obtain ⟨took, hmem⟩ := hs.2
      exact ⟨hsound.told _ hmem, .inr ⟨run, took, hmem⟩⟩

/-- An append to a log that is stored. -/
theorem does_appendTo {id : RunId} {batch : List Event} {party : Party}
    {next : Except StoreError Append → Prog ServerSig α} (hstored : Known.Stores K id)
    (howes : ∀ s, Sound s → K.holds s → Writes fleet s id none batch party)
    (hnext : ∀ answer, answer ≠ .ok .missing →
      (Service fleet pends).Does (K.and (Known.closes id batch answer)) (next answer) Q) :
    (Service fleet pends).Does K (.call (.store (.appendEvents id batch party)) next) Q := by
  refine does_call_step howes (fun answer => (K.and (Known.closes id batch answer)).and (.pure (answer ≠ .ok .missing)))
    (fun answer s t hsound hs hstep hsound' => ⟨⟨K.later hstep.later hs, ?_⟩, ?_⟩) fun answer =>
      does_pure (hnext answer)
  · rintro (rfl | ⟨rfl, hbatch⟩)
    · exact hsound'.tells hstep.asked
    · obtain ⟨spec, events, hsaw⟩ := hsound'.tells hstep.asked
      exact hsaw.ended (by simp [hbatch])
  · rintro rfl
    obtain ⟨now, -, hanswers, -⟩ := hstep.answers (by rintro ⟨⟩)
    exact Sound.append_stored (hstored s hs) hanswers.store_eq.symm rfl

/-- A run is put right after it was pended: others leave it secured until then. -/
theorem does_pendPut (run : StoredRun) (origin : Origin) {next : Except String Unit → Prog ServerSig α}
    {next' : Except StoreError PutRun → Prog ServerSig α}
    (hput : next (.ok ()) = .call (.store (.putRun run origin)) next')
    (howes : ∀ s, Sound s → K.holds s → Puts fleet s run origin)
    (hfailed : ∀ error, (Service fleet pends).Does K (next (.error error)) Q)
    (hnext : ∀ answer, (Service fleet pends).Does
      (K.and (Known.asked (.store (.putRun run origin)) answer)) (next' answer) Q) :
    (Service fleet pends).Does K (.call (.queue (.pend run.spec.runId)) next) Q := by
  intro s _ hK t ht _
  refine ⟨trivial, fun answer u hstep hu => ?_⟩
  have hK' := K.later hstep.later (K.later ht.1 hK)
  cases answer with
  | error error => exact hfailed error u hu hK'
  | ok done =>
      obtain ⟨now, -, -, hafter⟩ := hstep.answers (by rintro ⟨⟩)
      have hsecured : u.Secured run.spec.runId := .inl (hafter ▸ t.queue.isPending_pend t.now run.spec.runId)
      change (Service fleet pends).Safe _ (next (.ok ())) u
      rw [hput]
      intro v hv hsound
      have hK' := K.later hv.1 hK'
      refine ⟨⟨howes v hsound hK', fun hpends _ => hv.2 hpends run origin rfl hsecured⟩, fun answer w hstep' hw => ?_⟩
      exact hnext answer w hw ⟨K.later hstep'.later hK', hstep'.asked⟩

/-! ### Producers -/

theorem minds_endRun (spec : RunSpec) (message : String) : Minds fleet pends (endRun spec message) :=
  does_stamps fun _ => does_append (fun _ _ _ => ⟨rfl, _, _, rfl⟩) fun _ => does_done

/-- A run whose put was answered `stored` is pushed. -/
theorem minds_enqueue {spec : RunSpec} {origin : Origin} (onPushFailure : OnPushFailure)
    (hkey : spec.metadataGet triggerKey = none)
    (hputs : ∀ s stamps, Puts fleet s ⟨spec, queuedEvents spec stamps⟩ origin) :
    Minds fleet pends (enqueue spec origin onPushFailure) := by
  refine does_stamps fun stamps => does_pendPut ⟨spec, queuedEvents spec stamps⟩ origin rfl
    (fun s _ _ => hputs s stamps)
    (fun error => does_done) fun answer => ?_
  rcases answer with error | (_ | _)
  · exact (minds_endRun _ _).bind fun _ => does_done
  · refine does_call (fun s hsound hs => ⟨⟨spec, _, hsound.tells hs.2, rfl⟩, spec, _, hsound.tells hs.2, hkey⟩)
      fun pushed => ?_
    cases pushed with
    | ok _ => exact does_done
    | error error =>
        cases onPushFailure with
        | endRun => exact (minds_endRun _ _).bind fun _ => does_done
        | leaveToSweep => exact does_done
  · exact does_done

/-! ### Fires -/

theorem does_settleFire {spec : RunSpec} {key : Option FireGate} {gate : Prog ServerSig Gate}
    (hgate : (Service fleet pends).Does (Known.shown spec.runId) gate
      fun value => .imp (value = .open) (Known.gated spec.runId key)) :
    (Service fleet pends).Does (Known.shown spec.runId) (settleFire spec key gate) (Known.settled spec.runId) := by
  have hother : ∀ {K : Known} {fire : Except EnqueueError Fire}, (∀ why, fire ≠ .ok (.held why)) →
      (Service fleet pends).Does K (.ret fire) (Known.settled spec.runId) :=
    fun hfire => does_ret fun _ _ _ why heq => absurd heq (hfire why)
  -- The fire's put was answered, so the read finds the run.
  have hstored : Known.Stores ((Known.shown spec.runId).and (Known.kept spec.runId)) spec.runId :=
    fun _ hs => hs.2.elim fun _ ⟨_, hsaw⟩ => hsaw.stored.elim fun _ hrun => ⟨_, hrun⟩
  suffices hread : (Service fleet pends).Does ((Known.shown spec.runId).and (Known.kept spec.runId))
    (settleFire spec key gate)
      (Known.settled spec.runId) from hread.pre fun _ hsound hs => ⟨hs, hsound.shown hs⟩
  refine does_readStored hstored (fun error => hother nofun) fun run => ?_
  dsimp only [Option.map_some, Option.getD_some]
  split
  · next hwaiting =>
      refine does_call (fun s _ hs => .inr (.inl ⟨run.spec, hs.2.1, by simpa using hwaiting⟩)) fun answer => ?_
      cases answer <;> exact hother nofun
  · next hwaiting =>
    have hwaits : stillWaiting run.events = true := by simpa using hwaiting
    refine Does.bind (hgate.pre fun _ _ hs => hs.1.1) fun value => ?_
    cases value with
    | «open» =>
        refine does_call (fun s _ hs => ⟨⟨run.spec, run.events, hs.1.2.1, hwaits⟩, hs.2 rfl⟩) fun answer => ?_
        rcases answer with _ | (_ | _) <;> exact hother nofun
    | shut why =>
        refine does_stamps fun stamps => does_ask (fun _ _ _ => ⟨rfl, rfl⟩) fun answer => ?_
        have hheld : ∀ done, answer = .ok done → done = .appended ∨ done = .terminal →
          ∀ {K : Known}, (Service fleet pends).Does
            (K.and (Known.asked (.store (.appendEvents spec.runId [runCancelledEvent spec stamps] .settle)) answer))
            (.call (.queue (.unpend spec.runId (some run.events))) fun _ => .ret (.ok (.held why)))
            (Known.settled spec.runId) := by
          rintro done rfl hdone K
          refine does_call (fun s hsound hs => .inl ?_) fun _ => does_ret fun s _ hs _ _ => ?_
          · exact hsound.held ⟨_, done, rfl, hdone, hs.2⟩
          · exact ⟨_, done, rfl, hdone, hs.2⟩
        rcases answer with _ | (_ | _ | _ | _)
        · exact hother nofun
        · exact hheld .appended rfl (.inl rfl)
        · exact hheld .terminal rfl (.inr rfl)
        · exact hother nofun
        · exact hother nofun
    | unknown reason => exact hother nofun

/-- A gate found open was read after the run was shown stored. -/
theorem does_gateOf (id : RunId) (gate : FireGate) :
    (Service fleet pends).Does (Known.shown id) (gateOf gate)
      fun value => .imp (value = .open) (Known.gated id (some gate)) := by
  have hret : ∀ {value : Gate}, value ≠ .open → ∀ {K : Known}, (Service fleet pends).Does K (.ret value)
      fun value => .imp (value = .open) (Known.gated id (some gate)) :=
    fun hne => does_ret fun _ _ _ heq => absurd heq hne
  refine does_call_step (fun _ _ _ => trivial)
    (fun answer => ⟨fun s => ∃ newer older took, Server.Shown older id ∧
      s.trace = newer ++ ⟨.control (.trigger gate.owner gate.trigger), answer, took⟩ :: older, ?_⟩) ?_ fun answer => ?_
  · rintro s t hlater ⟨newer, older, took, hshown, htrace⟩
    obtain ⟨newest, hnewest⟩ := hlater.trace
    exact ⟨newest ++ newer, older, took, hshown, by rw [← hnewest, htrace, List.append_assoc]⟩
  · intro answer s t _ hshown hstep _
    obtain ⟨took, htrace⟩ := hstep.trace_eq
    exact ⟨[], s.trace, took, hshown, htrace⟩
  · rcases answer with _ | (error | (_ | trigger))
    · exact hret (by simp)
    · exact hret (by simp)
    · exact hret (by simp)
    · dsimp only
      split
      · next hopen =>
          refine does_ret fun s _ hs _ => ?_
          obtain ⟨newer, older, took, hshown, htrace⟩ := hs
          exact ⟨gate, rfl, newer, older, trigger, took, htrace, hopen.1, hopen.2, hshown⟩
      · exact hret (by simp)

theorem FiredAs.later {u : Uuids} {s t : Server} {spec : RunSpec} (h : FiredAs u s spec) (hlater : s.Later t) :
    FiredAs u t spec := by
  obtain ⟨owner, id, trigger, agent, drawn, key, hasked, hrest⟩ := h
  exact ⟨owner, id, trigger, agent, drawn, key, hasked.later hlater, hrest⟩

def Known.fired (u : Uuids) (spec : RunSpec) : Known := ⟨fun s => FiredAs u s spec, fun h hs => hs.later h⟩

theorem does_enqueueFire (spec : RunSpec) (gate : FireGate) :
    (Service fleet pends).Does (Known.fired fleet.uuids spec)
      (enqueueFire spec (some gate) (gateOf gate)) fun _ => .none := by
  refine does_stamps fun stamps => does_pendPut ⟨spec, queuedEvents spec stamps⟩ .fire rfl
    (fun s _ hs => ⟨⟨stamps, rfl⟩, hs⟩)
    (fun error => does_done) fun answer => ?_
  cases answer with
  | error error => exact does_done
  | ok done =>
      refine ((does_settleFire (does_gateOf _ gate)).pre fun s _ hs => ?_).post fun _ _ _ _ => trivial
      obtain ⟨took, hmem⟩ := hs.2
      exact .inl ⟨_, _, done, took, hmem, rfl⟩

/-- What keys a fire is derived from its trigger. -/
def FireKey.Derived (u : Uuids) (id : TriggerId) (key : Option FireKey) : Prop :=
  (∀ run tick, key = some (.tick run tick) → run = u.tickRun id tick) ∧
    ∀ run event body, key = some (.event run event body) → run = u.eventRun id event

theorem minds_fire (owner : Owner) (id : TriggerId) {key : Option FireKey} (hkey : FireKey.Derived fleet.uuids id key) :
    Minds fleet pends (fire fleet.uuids owner id key) := by
  refine does_ask (fun _ _ _ => trivial) fun answer => ?_
  rcases answer with _ | (error | (_ | trigger))
  · exact does_done
  · exact does_done
  · exact does_done
  · dsimp only
    split
    · exact does_done
    · next henabled =>
        split
        · exact does_done
        · refine does_quiet (fun _ => trivial) fun found => ?_
          cases found with
          | error error => exact does_done
          | ok found =>
              dsimp only
              split
              · exact does_done
              · refine does_stamps fun stamps => Does.bind
                  ((does_enqueueFire _ _).pre fun s _ hs => ?_) fun _ => does_done
                exact ⟨owner, id, trigger, _, _, key, hs.2, by simpa using henabled, rfl, hkey⟩

theorem does_settleFiredRun (u : Uuids) (spec : RunSpec) :
    (Service fleet pends).Does (Known.shown spec.runId) (settleFiredRun u spec) (Known.settled spec.runId) := by
  unfold settleFiredRun
  split
  · exact does_settleFire (does_gateOf _ _)
  · exact does_settleFire (does_ret fun _ _ _ heq => by cases heq)

/-- A stored run read just before is settled. -/
theorem Known.shown_of_read {id : RunId} {run : StoredRun} {s : Server} (h : (Known.read id run).holds s) :
    (Known.shown run.spec.runId).holds s := by
  rw [h.1.named]
  exact h.2

theorem minds_replayNow (run : RunId) : Minds fleet pends (replayNow run) := by
  refine minds_only ⟨fun _ => trivial, fun loaded => ?_⟩
  cases loaded <;> trivial

theorem does_replayStored (u : Uuids) (id run : RunId) (stored : StoredRun) :
    (Service fleet pends).Does (Known.read id stored) (replayStored u stored run) fun _ => .none := by
  unfold replayStored
  split
  · exact does_done
  · exact does_done
  · refine Does.bind ((does_settleFiredRun u stored.spec).pre fun _ _ hs => Known.shown_of_read hs) fun settled => ?_
    rcases settled with _ | (_ | _ | _)
    · exact does_done
    · exact does_done
    · exact does_done
    · refine (minds_replayNow run).bind fun replay => ?_
      rcases replay with _ | (_ | _ | _) <;> exact does_done

theorem minds_fireWebhook (trigger : StoredTrigger) (event body : String) :
    Minds fleet pends (fireWebhook fleet.uuids trigger event body) := by
  refine does_read (fun error => does_done) ?_ fun stored => ?_
  · have hkey : FireKey.Derived fleet.uuids trigger.id
        (some (.event (fleet.uuids.eventRun trigger.id event) event body)) := by
      refine ⟨by simp, fun run event' body' heq => ?_⟩
      cases heq
      rfl
    refine (minds_fire trigger.owner trigger.id hkey).bind fun fired => ?_
    rcases fired with error | ⟨(run | _ | _ | _ | _), (_ | _)⟩
    on_goal 2 =>
      refine (minds_replayNow run).bind fun replay => ?_
      rcases replay with _ | (_ | _ | _) <;> exact does_done
    all_goals exact does_done
  · exact (does_replayStored _ _ _ stored).pre fun _ _ hs => hs.2

/-! ### Children -/

/-- Neither a trigger's run nor a background turn. -/
def Unmarked (spec : RunSpec) : Prop := spec.metadataGet triggerKey = none ∧ isTurn spec = false

theorem childOf_unmarked (v5 : ChildName → Uuid) (request : ChildRequest) (agent : AgentManifest) :
    Unmarked (childOf v5 request agent) := by
  have hnone : ∀ key, key ≠ sessionId → (childOf v5 request agent).metadataGet key = none := by
    intro key hkey
    rw [RunSpec.metadataGet, List.lookup_eq_none_iff]
    intro entry hentry
    obtain ⟨session, -, rfl⟩ := List.mem_map.mp hentry
    simpa using hkey
  exact ⟨hnone triggerKey (by decide), by simp [isTurn, hnone turnKey (by decide)]⟩

theorem does_childOfAgent (v5 : ChildName → Uuid) (request : ChildRequest) :
    (Service fleet pends).Does K (childOfAgent v5 request) fun value => .pure
      (∀ spec, value = .ok spec → Unmarked spec) := by
  have herror : ∀ {K : Known} {reason : String}, (Service fleet pends).Does K (.ret (.error reason))
      fun value : Except String RunSpec => .pure (∀ spec, value = .ok spec → Unmarked spec) :=
    does_ret fun _ _ _ spec heq => by cases heq
  refine does_quiet (fun _ => trivial) fun found => ?_
  rcases found with _ | (_ | agent)
  · exact herror
  · exact herror
  · dsimp only
    split
    · exact herror
    · refine does_ret fun _ _ _ spec heq => ?_
      cases heq
      exact childOf_unmarked v5 request agent.manifest

theorem does_childSpec (v5 : ChildName → Uuid) (request : ChildRequest) :
    (Service fleet pends).Does K (childSpec v5 request) fun value => .pure
      (∀ spec, value = .ok spec → Unmarked spec) := by
  refine does_quiet (fun _ => trivial) fun stops => ?_
  rcases stops with _ | (_ | (_ | _))
  · exact does_childOfAgent v5 request
  · exact does_ret fun _ _ _ spec heq => by cases heq
  · exact does_childOfAgent v5 request
  · exact does_ret fun _ _ _ spec heq => by cases heq

theorem does_settleExisting (id : RunId) (spec : RunSpec) (events : List Event) :
    (Service fleet pends).Does (Known.saw id spec events) (settleExisting id events) fun _ => .none := by
  unfold settleExisting
  split
  · next hwaiting =>
      exact does_call (fun s _ hs => .inr (.inl ⟨spec, hs, by simpa using hwaiting⟩)) fun _ => does_done
  · refine does_ask (fun _ _ _ => trivial) fun found => ?_
    rcases found with _ | (_ | _)
    · exact does_done
    · exact does_done
    · exact does_call (fun s _ hs => .inr (.inr hs.2)) fun _ => does_done

theorem minds_enqueueChild {spec : RunSpec} (asked : List Event) (h : Unmarked spec) :
    Minds fleet pends (enqueueChild spec asked) := by
  have henqueue : Minds fleet pends (enqueue spec (.child asked) .leaveToSweep) :=
    minds_enqueue .leaveToSweep h.1 fun _ stamps => ⟨h.1, h.2, stamps, rfl⟩
  refine henqueue.bind fun result => ?_
  rcases result with error | (_ | _)
  · exact does_done
  · exact does_done
  · refine does_read (fun error => does_done) does_done fun child => ?_
    dsimp only
    split
    · next hnever =>
        refine does_call (fun s _ hs => .inl (hs.2.1.ended ?_)) fun _ => does_done
        simp only [neverRan, Bool.and_eq_true] at hnever
        exact hnever.1
    · exact Does.bind ((does_settleExisting _ child.spec _).pre fun _ _ hs => hs.2.1) fun _ => does_done

theorem minds_startChild (v5 : ChildName → Uuid) (request : ChildRequest) (asked : List Event) :
    Minds fleet pends (startChild v5 request asked) := by
  refine Does.bind (does_childSpec v5 request) fun found => does_pure fun hunmarked => ?_
  cases found with
  | error reason => exact does_done
  | ok spec => exact minds_enqueueChild asked (hunmarked spec rfl)

/-! ### Asks -/

theorem minds_settleAsk (asker : RunId) (ask : MessageId) : Minds fleet pends (settleAsk asker ask) :=
  minds_only ⟨fun _ => trivial, fun _ => ⟨fun _ => trivial, fun _ => trivial⟩⟩

theorem minds_deliver (asker : RunId) (ask : MessageId) {answer : EventPayload} (ifUnsent : IfUnsent)
    (hreply : answersAsk answer = true) : Minds fleet pends (deliver asker ask answer ifUnsent) := by
  have hsettle : ∀ {K : Known}, (Service fleet pends).Does K (settleAsk asker ask) fun _ => .none :=
    (minds_settleAsk asker ask).does fun _ _ => trivial
  refine does_read (fun error => does_done) hsettle fun run => ?_
  dsimp only
  split
  · exact hsettle
  · next hopen =>
      split
      · split
        · exact does_done
        · exact hsettle
      · exact hsettle
      · next hstate =>
          refine does_stamps fun stamps => does_append (fun s _ hs => ?_) fun done => ?_
          · exact ⟨rfl, run.spec, run.events, ask, answer, hs.2.1, by simpa using hopen, hstate, hreply, rfl⟩
          · rcases done with _ | (_ | _ | _ | _)
            · exact does_done
            · exact hsettle
            · exact hsettle
            · exact hsettle
            · exact does_done

theorem minds_putMessage (message : StoredMessage) : Minds fleet pends (putMessage message) := by
  refine does_quiet (fun _ => trivial) fun put => ?_
  rcases put with _ | (_ | stored)
  · exact does_done
  · exact does_done
  · dsimp only
    split <;> exact does_done

theorem minds_reply (request : MessageRequest) : Minds fleet pends (reply request) := by
  refine does_quiet (fun _ => trivial) fun found => ?_
  rcases found with _ | (_ | ask)
  · exact does_done
  · exact does_done
  · dsimp only
    split
    · exact does_done
    · refine does_stamps fun stamps => (minds_putMessage _).bind fun put => ?_
      cases put with
      | error reason => exact does_done
      | ok messageId =>
          refine (minds_deliver _ _ .leave rfl).bind fun delivered => ?_
          rcases delivered with _ | (_ | _) <;> exact does_done

theorem minds_send (v5 : ChildName → Uuid) (request : MessageRequest) (asked : List Event) :
    Minds fleet pends (send v5 request asked) := by
  unfold send
  split
  · exact minds_reply request
  · split
    · exact does_done
    · refine Does.bind (does_childSpec _ _) fun found => does_pure fun hunmarked => ?_
      cases found with
      | error reason => exact does_done
      | ok task =>
          refine does_stamps fun stamps => (minds_putMessage _).bind fun put => ?_
          cases put with
          | error reason => exact does_done
          | ok messageId =>
              refine (minds_enqueueChild asked (hunmarked task rfl)).bind fun started => ?_
              cases started <;> exact does_done

/-- The answer a task gives is a reply. -/
theorem answersAsk_taskAnswer {task : RunId} {agent : AgentId} {ask messageId : MessageId} {events : List Event}
    {answer : EventPayload} (h : taskAnswer task agent ask messageId events = some answer) :
    answersAsk answer = true := by
  simp only [taskAnswer, Option.map_eq_some_iff] at h
  obtain ⟨body, -, rfl⟩ := h
  rfl

/-! ### Sweeps -/

theorem minds_sweepRun (u : Uuids) (forgotten : List RunId) (id : RunId) :
    Minds fleet pends (sweepRun u forgotten id) := by
  refine does_read (fun error => does_done) ?_ fun run => ?_
  · dsimp only
    split
    · exact does_quiet (fun _ => trivial) fun _ => does_done
    · exact does_done
  · dsimp only
    split
    · next hwaiting =>
        exact does_call (fun s _ hs => .inr (.inl ⟨run.spec, hs.2.1, by simpa using hwaiting⟩)) fun _ => does_done
    · next hwaiting =>
      split
      · refine Does.bind ((does_settleFiredRun u run.spec).pre fun _ _ hs => Known.shown_of_read hs.2) fun settled => ?_
        rcases settled with _ | (_ | _ | _) <;> exact does_done
      · next hkey =>
          have hwaits : stillWaiting run.events = true := by simpa using hwaiting
          refine does_call (fun s _ hs =>
            ⟨⟨run.spec, run.events, hs.2.1, hwaits⟩, run.spec, run.events, hs.2.1, by simpa using hkey⟩)
            fun pushed => ?_
          cases pushed <;> exact does_done

theorem minds_sweepRuns (u : Uuids) (forgotten listed : List RunId) :
    Minds fleet pends (sweepRuns u forgotten listed) := by
  induction listed with
  | nil => exact does_done
  | cons id rest ih => exact (minds_sweepRun u forgotten id).bind fun _ => ih.bind fun _ => does_done

theorem minds_sweep (u : Uuids) (after forgetAfter : Nat) : Minds fleet pends (sweep u after forgetAfter) := by
  refine does_quiet (fun _ => trivial) fun forgotten => ?_
  cases forgotten with
  | error error => exact does_done
  | ok forgotten =>
      refine does_quiet (fun _ => trivial) fun listed => ?_
      cases listed with
      | error error => exact does_done
      | ok listed => exact (minds_sweepRuns u forgotten listed).bind fun _ => does_done

theorem minds_reapRuns : Minds fleet pends reapRuns := minds_only ⟨fun _ => trivial, fun _ => trivial⟩

/-- Whatever answer it gives is a reply. -/
theorem does_taskEnd (ask : StoredMessage) :
    (Service fleet pends).Does K (taskEnd ask) fun value => .pure
      (∀ answer, value = .ok (some answer) → answersAsk answer = true) := by
  unfold taskEnd
  split
  · exact does_ret fun _ _ _ answer heq => by cases heq
  · refine does_read (fun error => ?_) ?_ fun run => ?_
    · exact does_ret fun _ _ _ answer heq => by cases heq
    · exact does_ret fun _ _ _ answer heq => by cases heq
    · refine does_stamps fun stamps => does_ret fun _ _ _ answer heq => ?_
      rw [Except.ok.injEq] at heq
      exact answersAsk_taskAnswer heq

theorem minds_stillOpen (ask : StoredMessage) : Minds fleet pends (stillOpen ask) := by
  unfold stillOpen
  split
  · exact does_done
  · refine does_quiet (fun _ => trivial) fun found => ?_
    cases found <;> exact does_done

theorem does_parkedAnswer (ask : MessageId) :
    (Service fleet pends).Does K (parkedAnswer ask) fun value => .pure
      (∀ answer, value = some answer → answersAsk answer = true) := by
  have hnone : ∀ {K : Known}, (Service fleet pends).Does K (.ret none)
      fun value : Option EventPayload => .pure (∀ answer, value = some answer → answersAsk answer = true) :=
    does_ret fun _ _ _ answer heq => by cases heq
  have hsome : ∀ {K : Known} {answer : EventPayload}, answersAsk answer = true →
    (Service fleet pends).Does K (.ret (some answer))
      fun value => .pure (∀ answer, value = some answer → answersAsk answer = true) := by
    intro K answer hreply
    refine does_ret fun _ _ _ answer' heq => ?_
    cases heq
    exact hreply
  refine does_quiet (fun _ => trivial) fun found => ?_
  rcases found with _ | (_ | row)
  · exact hnone
  · exact hsome rfl
  · refine Does.bind (does_taskEnd row) fun ended => does_pure fun hreply => ?_
    rcases ended with _ | (_ | answer)
    · exact hnone
    · refine (minds_stillOpen row).bind fun stillOpen => ?_
      rcases stillOpen with _ | (_ | _)
      · exact hnone
      · exact hsome rfl
      · exact hnone
    · exact hsome (hreply answer rfl)

theorem minds_sweepParked (run : RunId) (ask : MessageId) : Minds fleet pends (sweepParked run ask) := by
  unfold sweepParked
  refine does_quiet (fun _ => trivial) fun loaded => ?_
  cases loaded with
  | error error => exact does_done
  | ok loaded =>
      dsimp only
      split
      · refine does_quiet (fun _ => trivial) fun woken => ?_
        cases woken <;> exact does_done
      · refine does_quiet (fun _ => trivial) fun stops => ?_
        rcases stops with _ | (_ | (_ | _))
        · exact does_done
        · exact does_done
        · exact does_done
        · refine does_quiet (fun _ => trivial) fun woken => ?_
          cases woken <;> exact does_done
      · refine Does.bind (does_parkedAnswer ask) fun found => does_pure fun hreply => ?_
        cases found with
        | none => exact does_done
        | some answer => exact minds_deliver run ask .close (hreply answer rfl)

theorem minds_sweepParkedRuns (parked : List (RunId × MessageId)) : Minds fleet pends (sweepParkedRuns parked) := by
  induction parked with
  | nil => exact does_done
  | cons entry rest ih => exact (minds_sweepParked entry.1 entry.2).bind fun _ => ih.bind fun _ => does_done

theorem minds_sweepDue (ask : StoredMessage) : Minds fleet pends (sweepDue ask) := by
  refine Does.bind (does_taskEnd ask) fun ended => does_pure fun hreply => ?_
  rcases ended with _ | (_ | answer)
  · exact does_done
  · exact minds_deliver _ _ .close rfl
  · exact minds_deliver _ _ .close (hreply answer rfl)

theorem minds_sweepDueAsks (due : List StoredMessage) : Minds fleet pends (sweepDueAsks due) := by
  induction due with
  | nil => exact does_done
  | cons ask rest ih => exact (minds_sweepDue ask).bind fun _ => ih.bind fun _ => does_done

theorem minds_sweepAsks : Minds fleet pends sweepAsks := by
  refine does_quiet (fun _ => trivial) fun parked => ?_
  cases parked with
  | error error => exact does_done
  | ok parked =>
      refine (minds_sweepParkedRuns parked).bind fun swept => does_quiet (fun _ => trivial) fun due => ?_
      cases due with
      | error error => exact does_done
      | ok due => exact (minds_sweepDueAsks due).bind fun _ => does_done

theorem does_storedEnded (run : RunId) :
    (Service fleet pends).Does K (storedEnded run) fun value => .imp (value ≠ none) (Known.ended run) := by
  refine does_read (fun error => ?_) ?_ fun stored => ?_
  · exact does_ret fun _ _ _ hne => absurd rfl hne
  · exact does_ret fun _ _ _ hne => absurd rfl hne
  · refine does_ret fun s _ hs hne => hs.2.1.ended ?_
    by_contra hopen
    simp [hopen] at hne

theorem minds_sweepListed (listed : List SandboxName) : Minds fleet pends (sweepListed listed) := by
  induction listed with
  | nil => exact does_done
  | cons name rest ih =>
      unfold sweepListed
      split
      · exact ih
      · next run hrun =>
          refine Does.bind (does_storedEnded run) fun stored => ?_
          cases stored with
          | none => exact ih.bind fun _ => does_done
          | some stored =>
              refine does_call (fun s _ hs => ⟨run, hrun, hs.2 (by simp)⟩) fun removed => ih.bind fun more => ?_
              cases removed <;> exact does_done

theorem minds_sweepVolumes (left volumes : List RunId) : Minds fleet pends (sweepVolumes left volumes) := by
  induction volumes with
  | nil => exact does_done
  | cons run rest ih =>
      unfold sweepVolumes
      split
      · exact ih
      · refine Does.bind (does_storedEnded run) fun stored => ?_
        split
        · exact ih.does fun _ _ => trivial
        · next hbox =>
            refine does_call (fun s _ hs => hs.2 ?_) fun removed => ih.bind fun more => does_done
            rintro rfl
            simp at hbox

theorem minds_sweepSandboxes : Minds fleet pends sweepSandboxes := by
  refine does_quiet (fun _ => trivial) fun listed => ?_
  cases listed with
  | error error => exact does_done
  | ok listed =>
      refine (minds_sweepListed listed).bind fun swept => does_quiet (fun _ => trivial) fun volumes => ?_
      cases volumes with
      | error error => exact does_done
      | ok volumes => exact (minds_sweepVolumes _ volumes).bind fun _ => does_done

/-! ### Requests -/

theorem minds_answerTries (run : RunId) (text : String) (tries : Nat) (asked : Option MessageId) :
    Minds fleet pends (answerTries run text tries asked) := by
  induction tries generalizing asked with
  | zero => exact does_done
  | succ tries ih =>
      refine does_read (fun error => does_done) does_done fun stored => ?_
      dsimp only
      split
      · exact does_done
      · next question hquestion =>
          split
          · exact does_done
          · refine does_stamps fun stamps => does_call (fun s _ hs => ?_) fun done => ?_
            · exact ⟨stored.spec, stored.events, question, text, hs.2.1, rfl, hquestion, rfl⟩
            · rcases done with _ | (_ | _ | _ | _)
              · exact does_done
              · exact does_quiet (fun _ => trivial) fun _ => does_done
              · exact does_done
              · exact does_done
              · exact (ih _).does fun _ _ => trivial

theorem minds_answerQuestion (run : RunId) (text : String) (asked : Option MessageId) :
    Minds fleet pends (answerQuestion run text asked) := by
  unfold answerQuestion
  dsimp only
  split
  · exact does_done
  · split
    · exact does_done
    · exact minds_answerTries run _ 3 asked

/-- The runs parked, as the queue answered. -/
def Known.parks (parked : List (RunId × MessageId)) : Known :=
  .imp (parked ≠ []) (Known.asked (.queue .parked) (.ok parked))

theorem does_stopRun (parked : List (RunId × MessageId)) (run : StoredRun) :
    (Service fleet pends).Does ((Known.parks parked).and (Known.saw run.spec.runId run.spec run.events))
      (stopRun parked run)
      fun _ => .none := by
  unfold stopRun
  dsimp only
  split
  · exact does_done
  · next hheld =>
      refine does_quiet (fun _ => trivial) fun stops => ?_
      rcases stops with _ | (_ | (_ | _))
      · exact does_done
      · exact does_done
      · exact does_done
      · refine does_stamps fun stamps => does_call (fun s _ hs => ?_) fun done => ?_
        · refine ⟨run.spec, run.events, hs.2, rfl, ?_, rfl⟩
          rw [not_and_or, not_not] at hheld
          rcases hheld with (hcreated | hqueued) | hparked
          · exact .inl hcreated
          · exact .inr (.inl hqueued)
          · have hmem : run.spec.runId ∈ parked.map Prod.fst := by
              by_contra hnot
              refine hparked (List.lookup_eq_none_iff.mpr fun entry hentry => ?_)
              simp only [bne_iff_ne, ne_eq]
              rintro heq
              exact hnot (heq ▸ List.mem_map_of_mem hentry)
            refine .inr (.inr ⟨parked, hs.1 ?_, hmem⟩)
            rintro rfl
            simp at hmem
        · rcases done with _ | (_ | _ | _ | _)
          · exact does_done
          · dsimp only
            split
            · exact does_done
            · refine does_quiet (fun _ => trivial) fun woken => ?_
              cases woken <;> exact does_done
          · exact does_done
          · exact does_done
          · exact does_done

theorem does_stopRuns (parked : List (RunId × MessageId)) (runs : List StoredRun) :
    (Service fleet pends).Does ((Known.parks parked).and
      ⟨fun s => ∀ run ∈ runs, s.Saw run.spec.runId run.spec run.events, fun h hs run hrun => (hs run hrun).later h⟩)
      (stopRuns parked runs) fun _ => .none := by
  induction runs with
  | nil => exact does_done
  | cons run rest ih =>
      refine Does.bind ((does_stopRun parked run).pre fun s _ hs => ⟨hs.1, hs.2 run (List.mem_cons_self ..)⟩)
        fun done => ?_
      refine Does.bind (ih.pre fun s _ hs => ⟨hs.1.1, fun other hother => ?_⟩) fun _ => does_done
      exact hs.1.2 other (List.mem_cons_of_mem _ hother)

theorem minds_stop (owner : Owner) (scope : StopScope) : Minds fleet pends (stop owner scope) := by
  refine does_quiet (fun _ => trivial) fun put => ?_
  rcases put with _ | (_ | _)
  · exact does_done
  · exact does_done
  · refine does_ask (fun _ _ _ => trivial) fun parked => does_ask (fun _ _ _ => trivial) fun found => ?_
    rcases found with _ | (_ | runs)
    · exact does_done
    · exact does_done
    · refine Does.bind ((does_stopRuns _ runs).pre fun s hsound hs => ⟨?_, hsound.tells hs.2⟩) fun _ => does_done
      cases parked with
      | error error => exact fun hne => absurd rfl hne
      | ok parked => exact fun _ => hs.1.2

theorem minds_stopOwner (owner : Owner) : Minds fleet pends (stopOwner owner) := by
  refine does_quiet (fun _ => trivial) fun paused => (minds_stop owner .owner).bind fun stopped => ?_
  cases stopped <;> exact does_done

/-! ### Turns -/

/-- What `party` knows may end the turn in either way. -/
structure Finishes (fleet : Fleet) (K : Known) (spec : RunSpec) (party : Party) : Prop where
  stored : Known.Stores K spec.runId
  fails : ∀ s, K.holds s → ∀ stamps cls message,
    Writes fleet s spec.runId none [runFailedEvent spec stamps cls message] party
  completes : ∀ s, K.holds s → ∀ stamps text, Writes fleet s spec.runId none (completionEvents spec stamps text) party
  /-- A worker's Box turn is not finished here. -/
  boxed : spec.placement = .box → party = .request ∧ isTurn spec = false ∧
    ∀ s, K.holds s → ∃ events, s.Saw spec.runId spec events

/-- What the result of a turn tells: one finished at the gateway, or found completed, has ended. -/
def Known.turned (spec : RunSpec) (result : Except TurnError TurnOutcome) : Known :=
  .and (.imp ((∃ outcome, result = .ok outcome) ∧ spec.workModel.credential = .platformGateway ∨
    ∃ message, result = .error (.conflict message)) (Known.ended spec.runId)) (.pure (result ≠ .error .notFound))

/-- A result that tells nothing. -/
theorem does_unturned {spec : RunSpec} {error : TurnError} (hconflict : ∀ message, error ≠ .conflict message)
    (hfound : error ≠ .notFound) : (Service fleet pends).Does K (.ret (.error error)) (Known.turned spec) := by
  refine does_ret fun _ _ _ => ⟨?_, fun heq => hfound (by cases heq; rfl)⟩
  rintro (⟨⟨_, heq⟩, -⟩ | ⟨message, heq⟩)
  · cases heq
  · cases heq
    exact absurd rfl (hconflict message)

theorem does_endFailed {spec : RunSpec} {party : Party} (h : Finishes fleet K spec party) (cls : FailureClass)
    (message : String) : (Service fleet pends).Does K (endFailed spec party cls message) fun _ => .none :=
  does_stamps fun stamps => does_append (fun s _ hs => h.fails s hs stamps cls message) fun _ => does_done

theorem does_recordTurn {spec : RunSpec} {party : Party} {events : List Event} {outcome : TurnOutcome}
    (hstored : Known.Stores K spec.runId) (hwrites : ∀ s, K.holds s → Writes fleet s spec.runId none events party)
    (hended : hasEnded events = true) :
    (Service fleet pends).Does K (recordTurn spec.runId party events outcome) (Known.turned spec) := by
  refine does_appendTo hstored (fun s _ hs => hwrites s hs) fun answer hanswer => ?_
  rcases answer with error | (_ | _ | _ | _)
  · exact does_unturned (by simp) (by simp)
  · exact does_ret fun s _ hs => ⟨fun _ => hs.2 (.inr ⟨rfl, hended⟩), nofun⟩
  · exact does_ret fun s _ hs => ⟨fun _ => hs.2 (.inl rfl), nofun⟩
  · exact absurd rfl hanswer
  · exact does_unturned (by simp) (by simp)

theorem does_completeTurn {spec : RunSpec} {events : List Event} {party : Party} (h : Finishes fleet K spec party) :
    (Service fleet pends).Does K (completeTurn spec events party) (Known.turned spec) := by
  have hdestroy : Minds fleet pends (if decide (spec.placement = .box) = true then
      .call (.host (.destroy (.container spec.runId) party)) .ret else .ret (.ok ()) :
        Prog ServerSig (Except String Unit)) := by
    split
    · next hbox =>
        obtain ⟨rfl, -⟩ := h.boxed (of_decide_eq_true hbox)
        exact does_quiet (fun _ => ⟨_, rfl⟩) fun _ => does_done
    · exact does_done
  unfold completeTurn
  dsimp only
  split
  · next hcredential =>
      refine does_ret fun _ _ _ => ⟨?_, nofun⟩
      rintro (⟨-, hgateway⟩ | ⟨message, heq⟩)
      · simp [hcredential] at hgateway
      · cases heq
  · refine does_quiet (fun _ => trivial) fun answer => ?_
    cases answer with
    | error message =>
        refine hdestroy.bind fun removed => ?_
        cases removed with
        | error _ => exact does_unturned (by simp) (by simp)
        | ok _ => exact Does.bind (does_endFailed h _ _) fun _ => does_unturned (by simp) (by simp)
    | ok text =>
        refine hdestroy.bind fun removed => ?_
        cases removed with
        | error message => exact does_unturned (by simp) (by simp)
        | ok _ =>
            exact does_stamps fun stamps => does_recordTurn h.stored (fun s hs => h.completes s hs stamps text) rfl

theorem does_finishTurn {spec : RunSpec} {events : List Event} {party : Party} (h : Finishes fleet K spec party) :
    (Service fleet pends).Does K (finishTurn spec events party) (Known.turned spec) := by
  unfold finishTurn
  split
  · next hbox =>
      obtain ⟨rfl, hturn, hsaw⟩ := h.boxed hbox
      refine does_call (fun s _ hs => (hsaw s hs).elim fun events hsaw => ⟨_, spec, events, rfl, hsaw, hturn⟩)
        fun provisioned => ?_
      cases provisioned with
      | ok _ => exact does_completeTurn h
      | error message =>
          refine does_quiet (fun _ => trivial) fun gone => ?_
          rcases gone with _ | (_ | _)
          · exact does_unturned (by simp) (by simp)
          · exact does_unturned (by simp) (by simp)
          · exact Does.bind (does_endFailed h _ _) fun _ => does_unturned (by simp) (by simp)
  · exact does_completeTurn h

/-- A request ends the turn it knows to have started. -/
theorem finishes_request {spec : RunSpec} {events : List Event} (hturn : isTurn spec = false)
    (hstarted : .runStarted ∈ payloads events) (hK : ∀ s, K.holds s → s.Saw spec.runId spec events) :
    Finishes fleet K spec .request where
  stored s hs := (hK s hs).stored.elim fun _ hstored => ⟨_, hstored⟩
  fails _ _ _ cls message := ⟨rfl, .inl ⟨cls, message, rfl⟩⟩
  completes s hs _ text := ⟨rfl, .inr ⟨spec, events, _, _, text, hK s hs, hstarted, rfl⟩⟩
  boxed _ := ⟨rfl, hturn, fun s hs => ⟨events, hK s hs⟩⟩

theorem minds_openTurn {spec : RunSpec} (hkey : spec.metadataGet triggerKey = none) (hturn : isTurn spec = false) :
    Minds fleet pends (openTurn spec) := by
  refine does_stamps fun stamps => does_call_step
    (fun _ _ _ => ⟨⟨hkey, .inr ⟨hturn, stamps, rfl⟩⟩, fun _ hqueued => ?_⟩)
    (fun answer => .imp (∃ done, answer = .ok done) (Known.saw spec.runId spec (openEvents spec stamps))) ?_
      fun answer => ?_
  · cases hqueued
  · rintro answer s t hsound - hstep hsound' ⟨done, rfl⟩
    obtain rfl := hsound.put_request hstep
    exact hsound'.tells hstep.asked
  · cases answer with
    | error error => exact does_done
    | ok done =>
        have hK : ∀ s, (Fact.imp (∃ done', (.ok done : Except StoreError PutRun) = .ok done')
            (Known.saw spec.runId spec (openEvents spec stamps))).holds s →
              s.Saw spec.runId spec (openEvents spec stamps) :=
          fun s hs => hs ⟨done, rfl⟩
        exact (does_finishTurn (finishes_request hturn
          (by simp [openEvents, payloads, systemEvent, Event.record]) hK)).post
          fun _ _ _ _ => trivial

/-- An open turn has started. -/
theorem started_of_checkOpenTurn {run : StoredRun} (h : checkOpenTurn run = .ok ()) :
    .runStarted ∈ payloads run.events := by
  by_contra hnot
  have hidle := (harnessOf_idle_iff run.spec (payloads run.events)).mpr hnot
  unfold checkOpenTurn at h
  split at h
  · cases h
  · rw [fold_harness, hidle] at h
    cases h

theorem does_subscriptionTurn (run : RunId) (refusal : String) :
    (Service fleet pends).Does K (subscriptionTurn run refusal) fun value =>
      ⟨fun s => ∀ stored, value = .ok stored → s.Saw run stored.spec stored.events ∧
        .runStarted ∈ payloads stored.events,
        fun hlater hs stored heq => ⟨(hs stored heq).1.later hlater, (hs stored heq).2⟩⟩ := by
  refine does_read (fun error => ?_) ?_ fun stored => ?_
  · exact does_ret fun _ _ _ stored heq => by cases heq
  · exact does_ret fun _ _ _ stored heq => by cases heq
  · dsimp only
    split
    · exact does_ret fun _ _ _ stored heq => by cases heq
    · refine does_ret fun s _ hs stored' heq => ?_
      cases hcheck : checkOpenTurn stored with
      | error error => simp [hcheck, Except.map] at heq
      | ok _ =>
          simp only [hcheck, Except.map, Except.ok.injEq] at heq
          subst heq
          exact ⟨hs.2.1, started_of_checkOpenTurn hcheck⟩

theorem does_record {run : RunId} {events : List Event} {outcome : TurnOutcome}
    (hwrites : ∀ s, Sound s → K.holds s → Writes fleet s run none events .request) :
    (Service fleet pends).Does K (recordTurn run .request events outcome) fun _ => .none := by
  refine does_append hwrites fun answer => ?_
  rcases answer with _ | (_ | _ | _ | _) <;> exact does_done

theorem minds_acceptSubscriptionCompletion (run : RunId) (text : String) :
    Minds fleet pends (acceptSubscriptionCompletion run text) := by
  unfold acceptSubscriptionCompletion
  dsimp only
  split
  · exact does_done
  · refine Does.bind (does_subscriptionTurn run _) fun found => ?_
    cases found with
    | error error => exact does_done
    | ok stored =>
        have hwrites : ∀ {s : Server} (stamps : Nat → Stamp),
            (∀ stored', (.ok stored : Except TurnError StoredRun) = .ok stored' →
              s.Saw run stored'.spec stored'.events ∧ .runStarted ∈ payloads stored'.events) →
            Writes fleet s stored.spec.runId none (completionEvents stored.spec stamps (trim text)) .request := by
          intro s stamps hs
          obtain ⟨hsaw, hstarted⟩ := hs stored rfl
          rw [hsaw.named]
          exact ⟨rfl, .inr ⟨stored.spec, stored.events, _, _, _, hsaw, hstarted, rfl⟩⟩
        dsimp only
        split
        · refine does_quiet (fun _ => trivial) fun gone => ?_
          rcases gone with _ | (_ | _)
          · exact does_done
          · refine does_quiet (fun _ => ⟨_, rfl⟩) fun removed => ?_
            cases removed with
            | error message => exact does_done
            | ok _ => exact does_stamps fun stamps => does_record fun s _ hs => hwrites stamps hs.2
          · exact does_done
        · exact does_stamps fun stamps => does_record fun s _ hs => hwrites stamps hs.2

theorem minds_failTurn (run : RunId) (message : String) : Minds fleet pends (failTurn run message) := by
  unfold failTurn
  dsimp only
  split
  · exact does_done
  · refine Does.bind (does_subscriptionTurn run _) fun found => ?_
    cases found with
    | error error => exact does_done
    | ok stored =>
        have hrecord : ∀ {K : Known}, (Service fleet pends).Does K (.call (.outside .stamps) fun stamps =>
            let failed := runFailedEvent stored.spec stamps .dependency (trim message)
            recordTurn run .request [failed] ⟨stored.spec, stored.events ++ [failed], none, "subscription", false⟩)
            fun _ => .none :=
          does_stamps fun stamps => does_record fun _ _ _ => ⟨rfl, .inl ⟨_, _, rfl⟩⟩
        dsimp only
        split
        · refine does_quiet (fun _ => trivial) fun gone => ?_
          rcases gone with _ | (_ | _)
          · exact does_done
          · refine does_quiet (fun _ => ⟨_, rfl⟩) fun removed => ?_
            cases removed with
            | error message => exact does_done
            | ok _ => exact hrecord
          · exact hrecord
        · exact hrecord

end Gol
