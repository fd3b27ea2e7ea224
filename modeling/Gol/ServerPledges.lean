import Gol.ServerFree
import Gol.ServerLineage
import Gol.ServerReach

/-! What the servers' programs promise of the children they store and of what they append to the logs they read. A
worker that keeps a promise while it drives a run keeps it in everything it does, and every other program stands by.
-/

namespace Gol
open Library World

namespace Server

variable {s t : Server}

/-- The run is stored, with these limits. -/
def Gave (s : Server) (child : RunId × Limits) : Prop :=
  ∃ run, s.store.runs child.1 = some run ∧ run.spec.limits = child.2

theorem Gave.later {child : RunId × Limits} (h : s.Gave child) (hlater : s.Later t) : t.Gave child := by
  obtain ⟨run, hstored, hlimits⟩ := h
  obtain ⟨more, hmore⟩ := hlater.store _ run hstored
  exact ⟨_, hmore, hlimits⟩

/-- What was stored under an id gave it its limits. -/
theorem Saw.gave {id : RunId} {spec : RunSpec} {events : List Event} (h : s.Saw id spec events) :
    s.Gave (id, spec.limits) := by
  obtain ⟨more, hstored⟩ := h.stored
  exact ⟨_, hstored, rfl⟩

end Server

/-- What `resume` adds to a log is beside what a driver decides and does, and so is what is added after it. -/
theorem Driver.Resumed.drop_beside {spec : RunSpec} {events : List Event} {d : Driver}
    (h : Driver.Resumed spec events d) {last : Event} (hlast : Driver.isBeside last.payload = true) :
    ∀ payload ∈ payloads (d.events.drop events.length ++ [last]), Driver.isBeside payload = true := by
  have hstarts : ∀ {added resumed}, d.Starts spec events added resumed →
    (∀ payload ∈ added, Driver.isBeside payload = true) →
      ∀ payload ∈ payloads (d.events.drop events.length ++ [last]), Driver.isBeside payload = true := by
    intro added resumed hstarts hadded payload hmem
    obtain ⟨more, hevents, rfl⟩ := hstarts.events_eq
    rw [hevents, List.drop_left, payloads_append] at hmem
    rcases List.mem_append.mp hmem with hmore | hsingle
    · exact hadded payload hmore
    · exact beside_single hlast payload hsingle
  cases h with
  | started _ _ h | completed _ _ _ _ h =>
      refine hstarts h fun payload hmem => ?_
      obtain rfl := List.mem_singleton.mp hmem
      rfl
  | ended _ h | terminal _ _ _ _ h | undecided _ _ _ _ _ _ h | pending _ _ _ _ h => exact hstarts h (by simp)

/-- A promise: what is owed at a call, what the server keeps by it, and what it tells of a log that was read. -/
structure Pledge where
  Owes : Server → ServerCall → Prop
  Kept : Server → Prop
  told : RunSpec → List Event → Known
  bystands : ∀ {s c}, Bystands c → Owes s c
  reads : ∀ {s id run}, Kept s → s.store.runs id = some run → (told run.spec run.events).holds s
  grows : ∀ {s spec events batch}, (told spec events).holds s →
    (∀ payload ∈ payloads batch, Driver.isBeside payload = true) → (told spec (events ++ batch)).holds s

namespace Pledge

/-- The world of programs that keep the promise. -/
abbrev world (P : Pledge) : World ServerSig where
  State := Server
  Inv s := Sound s ∧ P.Kept s
  Step := Server.Step
  Owes := P.Owes
  Others _ s t := s.Later t
  others_refl _ s := .refl s
  others_trans h h' := h.trans h'

instance (P : Pledge) : P.world.GrowsBy Server.Later where
  refl := Server.Later.refl
  trans := Server.Later.trans
  others h := h
  step h := h.later

/-- The run is stored with this log, and what the promise tells of it. -/
def log (P : Pledge) (spec : RunSpec) (events : List Event) : Known :=
  (Known.saw spec.runId spec events).and (P.told spec events)

variable {P : Pledge} {α β : Type} {K : Known} {Q : α → Known} {spec : RunSpec} {token : Token} {events : List Event}

theorem does_only {p : Prog ServerSig α} (h : p.Only Bystands) : P.world.Does K p fun _ => .none := by
  have hnone : P.world.Does (.none : Known) p fun _ => (.none : Known) :=
    World.does_only (fun _ _ _ hc => P.bystands hc) h
  exact hnone.pre fun _ _ _ => trivial

/-- What follows a program that stands by knows as much as before it. -/
theorem bind_only {p : Prog ServerSig β} {f : β → Prog ServerSig α} (h : p.Only Bystands)
    (hf : ∀ value, P.world.Does K (f value) Q) : P.world.Does K (p.bind f) Q :=
  Does.bind (does_only h) fun value => (hf value).pre fun _ _ hs => hs.1

theorem does_aside {c : ServerCall} {next : c.Answer → Prog ServerSig α} (hc : Bystands c)
    (hnext : ∀ answer, P.world.Does K (next answer) Q) : P.world.Does K (.call c next) Q :=
  does_call (fun _ _ _ => P.bystands hc) hnext

theorem does_stamps {next : (Nat → Stamp) → Prog ServerSig α} (hnext : ∀ stamps, P.world.Does K (next stamps) Q) :
    P.world.Does K (.call (.outside .stamps) next) Q := does_aside trivial hnext

theorem does_done {value : α} : P.world.Does K (.ret value) fun _ => .none := does_ret fun _ _ _ => trivial

/-- A call and what its answer tells. -/
theorem does_ask {c : ServerCall} {next : c.Answer → Prog ServerSig α} (howes : ∀ s, K.holds s → P.Owes s c)
    (hnext : ∀ answer, P.world.Does (K.and (Known.asked c answer)) (next answer) Q) : P.world.Does K (.call c next) Q :=
  does_call_step (fun s _ hs => howes s hs) (fun answer => K.and (Known.asked c answer))
    (fun _ _ _ _ hs hstep _ => ⟨K.later hstep.later hs, hstep.asked⟩) hnext

/-- What a read of `id` tells. -/
def found (P : Pledge) (id : RunId) (run : StoredRun) : Known :=
  .and (.pure (run.spec.runId = id)) (P.log run.spec run.events)

theorem does_read {id : RunId} {next : Except StoreError (Option StoredRun) → Prog ServerSig α}
    (herror : ∀ error, P.world.Does K (next (.error error)) Q) (hnone : P.world.Does K (next (.ok none)) Q)
    (hsome : ∀ run, P.world.Does (K.and (P.found id run)) (next (.ok (some run))) Q) :
    P.world.Does K (.call (.store (.run id)) next) Q := by
  refine does_call_step (fun _ _ _ => P.bystands trivial)
    (fun answer => K.and ⟨fun s => ∀ run, answer = .ok (some run) →
      (P.found id run).holds s, fun h hs run hrun => (P.found id run).later h (hs run hrun)⟩)
    (fun answer s t hinv hs hstep hinv' => ⟨K.later hstep.later hs, ?_⟩) fun answer => ?_
  · rintro run rfl
    have hsaw : t.Saw id run.spec run.events := hinv'.1.tells hstep.asked
    obtain ⟨now, -, hanswers, -⟩ := hstep.answers (by rintro ⟨⟩)
    have hstored : (.ok (some run) : Except StoreError (Option StoredRun)) = .ok (s.store.runs id) := hanswers.store_eq
    refine ⟨hsaw.named, hsaw.named.symm ▸ hsaw, (P.told _ _).later hstep.later ?_⟩
    exact P.reads hinv.2 (Except.ok.inj hstored).symm
  · rcases answer with error | (_ | run)
    · exact (herror error).pre fun _ _ hs => hs.1
    · exact hnone.pre fun _ _ hs => hs.1
    · exact (hsome run).pre fun _ _ hs => ⟨hs.1, hs.2 run rfl⟩

/-- An append to a log that was read. -/
theorem does_append {batch : List Event} (hsaw : ∀ s, K.holds s → s.Saw spec.runId spec events)
    (howes : ∀ s, K.holds s → P.Owes s (.store (.appendEventsAfter spec.runId events.length batch (.worker token)))) :
    P.world.Does K (append spec.runId token events.length batch)
      fun result => .imp (result = .ok (.store .appended)) (Known.saw spec.runId spec (events ++ batch)) := by
  refine bind_only (EndsLog.only (only_holds _ _)) fun held => ?_
  dsimp only
  split
  · exact does_ret fun _ _ _ heq => by cases heq
  · refine does_ask howes fun answer => ?_
    cases answer with
    | error error => exact does_ret fun _ _ _ heq => by cases heq
    | ok done =>
        refine does_ret fun s hinv hs heq => ?_
        cases heq
        obtain ⟨spec', events', hlength, hbefore, hnow⟩ := hinv.1.tells hs.2
        obtain ⟨rfl, rfl⟩ := (hsaw s hs.1).eq_of_length hbefore hlength.symm
        exact hnow

/-! ### Children -/

/-- The child that was answered is stored. -/
def answered (result : Except String StartedChild) : Known :=
  ⟨fun s => ∀ child, result = .ok child → s.Gave (child.runId, child.limits),
    fun h hs child heq => (hs child heq).later h⟩

theorem does_childOfAgent (v5 : ChildName → Uuid) (request : ChildRequest) :
    P.world.Does K (childOfAgent v5 request) fun value => .pure (∀ spec, value = .ok spec →
      ∃ agent, spec = childOf v5 request agent) := by
  refine does_aside trivial fun found => ?_
  rcases found with _ | (_ | agent)
  · exact does_ret fun _ _ _ spec heq => by cases heq
  · exact does_ret fun _ _ _ spec heq => by cases heq
  · dsimp only
    split
    · exact does_ret fun _ _ _ spec heq => by cases heq
    · refine does_ret fun _ _ _ spec heq => ?_
      cases heq
      exact ⟨_, rfl⟩

/-- A child is the run of some agent that the request asks for. -/
theorem does_childSpec (v5 : ChildName → Uuid) (request : ChildRequest) :
    P.world.Does K (childSpec v5 request) fun value => .pure (∀ spec, value = .ok spec →
      ∃ agent, spec = childOf v5 request agent) := by
  refine does_aside trivial fun stops => ?_
  rcases stops with _ | (_ | (_ | _))
  · exact does_childOfAgent v5 request
  · exact does_ret fun _ _ _ spec heq => by cases heq
  · exact does_childOfAgent v5 request
  · exact does_ret fun _ _ _ spec heq => by cases heq

variable {asked : List Event} {limits : Limits}

/-- A child is owed wherever it is put. -/
def Owed (P : Pledge) (K : Known) (asked : List Event) (spec : RunSpec) : Prop :=
  ∀ s stamps, K.holds s → P.Owes s (.store (.putRun ⟨spec, queuedEvents spec stamps⟩ (.child asked)))

theorem does_enqueue (howed : P.Owed K asked spec) :
    P.world.Does K (enqueue spec (.child asked) .leaveToSweep) fun result =>
      ⟨fun s => result = .ok .stored → s.Gave (spec.runId, spec.limits), fun h hs heq => (hs heq).later h⟩ := by
  refine does_stamps fun stamps => does_aside trivial fun pended => ?_
  cases pended with
  | error error => exact does_ret fun _ _ _ heq => by cases heq
  | ok _ =>
      refine does_ask (fun s hs => howed s stamps hs) fun put => ?_
      rcases put with error | (_ | _)
      · exact bind_only (StoresNone.only (only_endRun _ _)) fun _ => does_ret fun _ _ _ heq => by cases heq
      · refine does_aside trivial fun pushed => ?_
        have hstored : ∀ s, P.world.Inv s → s.Asked (.store (.putRun ⟨spec, queuedEvents spec stamps⟩ (.child asked)))
            (.ok .stored) → s.Gave (spec.runId, spec.limits) := by
          intro s hinv hanswer
          have hsaw : s.Saw spec.runId spec (queuedEvents spec stamps) := hinv.1.tells hanswer
          exact hsaw.gave
        cases pushed with
        | ok _ => exact does_ret fun s hinv hs _ => hstored s hinv hs.2
        | error error => exact does_ret fun s hinv hs _ => hstored s hinv hs.2
      · exact does_ret fun _ _ _ heq => by cases heq

theorem does_enqueueChild (howed : P.Owed K asked spec) : P.world.Does K (enqueueChild spec asked) answered := by
  refine Does.bind (does_enqueue howed) fun result => ?_
  rcases result with error | (_ | _)
  · exact does_ret fun _ _ _ child heq => by cases heq
  · refine does_ret fun s _ hs child heq => ?_
    cases heq
    exact hs.2 rfl
  · refine does_read (fun error => does_ret fun _ _ _ child heq => by cases heq)
      (does_ret fun _ _ _ child heq => by cases heq) fun child => ?_
    dsimp only
    split
    · exact does_aside trivial fun _ => does_ret fun _ _ _ child heq => by cases heq
    · refine bind_only (StoresNone.only (only_settleExisting _ _)) fun _ => does_ret fun s _ hs started heq => ?_
      cases heq
      obtain ⟨hid, hsaw, -⟩ := hs.2
      exact hid ▸ hsaw.gave

/-- Whichever agent's run it is, the child that was asked for is owed. -/
theorem does_startChild (v5 : ChildName → Uuid) {request : ChildRequest}
    (howed : ∀ agent, P.Owed K asked (childOf v5 request agent)) :
    P.world.Does K (startChild v5 request asked) answered := by
  refine Does.bind (does_childSpec v5 request) fun found => ?_
  cases found with
  | error reason => exact does_ret fun _ _ _ child heq => by cases heq
  | ok spec =>
      intro s hinv hs
      obtain ⟨agent, rfl⟩ := hs.2 spec rfl
      exact does_enqueueChild (howed agent) s hinv hs.1

/-! ### Messages -/

/-- The children that a sent message's answer tells of are stored. -/
def sent (result : Except String SentMessage) : Known :=
  ⟨fun s => ∀ sent task, result = .ok sent → sent.task = some task → s.Gave (task.runId, task.limits),
    fun h hs sent task heq htask => (hs sent task heq htask).later h⟩

theorem does_untasked {result : Except String SentMessage} (h : ∀ sent, result = .ok sent → sent.task = none) :
    P.world.Does K (.ret result) sent :=
  does_ret fun _ _ _ sent task heq htask => by simp [h sent heq] at htask

theorem does_reply (request : MessageRequest) : P.world.Does K (reply request) sent := by
  refine does_aside trivial fun found => ?_
  rcases found with _ | (_ | ask)
  · exact does_untasked (by simp)
  · exact does_untasked (by simp)
  · dsimp only
    split
    · exact does_untasked (by simp)
    · refine does_stamps fun stamps => bind_only (StoresNone.only (only_putMessage _)) fun put => ?_
      cases put with
      | error reason => exact does_untasked (by simp)
      | ok messageId =>
          refine bind_only (StoresNone.only (only_deliver _ _ _ _)) fun delivered => ?_
          rcases delivered with _ | (_ | _)
          · exact does_untasked (by simp)
          · exact does_untasked (by simp)
          · refine does_untasked fun sent heq => ?_
            cases heq
            rfl

theorem does_send (v5 : ChildName → Uuid) {request : MessageRequest}
    (howed : ∀ limits agent, request.limits = some limits → P.Owed K asked (childOf v5 (request.task limits) agent)) :
    P.world.Does K (send v5 request asked) sent := by
  unfold send
  split
  · exact does_reply request
  · next limits hlimits =>
      split
      · exact does_untasked (by simp)
      · refine Does.bind (does_childSpec _ _) fun found => ?_
        cases found with
        | error reason => exact does_untasked (by simp)
        | ok task =>
            refine does_stamps fun stamps => bind_only (StoresNone.only (only_putMessage _)) fun put => ?_
            cases put with
            | error reason => exact does_untasked (by simp)
            | ok messageId =>
                intro s hinv hs
                obtain ⟨agent, rfl⟩ := hs.2 task rfl
                refine (Does.bind (does_enqueueChild (howed limits agent hlimits)) fun started => ?_ :
                  P.world.Does K _ sent) s hinv hs.1
                cases started with
                | error reason => exact does_untasked (by simp)
                | ok child =>
                    refine does_ret fun t _ ht sent other heq hother => ?_
                    cases heq
                    cases hother
                    exact ht.2 child rfl

/-! ### Harness runs -/

/-- How much of its driver's log a worker has stored at a boundary. -/
def bounded (spec : RunSpec) (stored : List Event) (driver : Driver) (result : Boundary × Carried) : Known :=
  ⟨fun s => (result.1 = .continue → result.2.seen = driver.events.length ∧ s.Saw spec.runId spec driver.events) ∧
      (result.1 ≠ .continue → result.2.seen = stored.length),
    fun h hs => ⟨fun heq => ⟨(hs.1 heq).1, (hs.1 heq).2.later h⟩, hs.2⟩⟩

/-- A step is stored at its boundary. -/
theorem does_atBoundary {stored : List Event} {driver : Driver} {refused : Option (Except String Stopped)}
    (hsaw : ∀ s, K.holds s → s.Saw spec.runId spec stored) (hgrows : stored <+: driver.events)
    (howes : ∀ s, K.holds s → P.Owes s (.store (.appendEventsAfter spec.runId stored.length
      (driver.events.drop stored.length) (.worker token)))) :
    P.world.Does K (atBoundary spec token ⟨stored.length, refused⟩ driver) (bounded spec stored driver) := by
  have hall : stored ++ driver.events.drop stored.length = driver.events := append_drop_known hgrows
  refine bind_only (EndsLog.only (only_stopped _)) fun covered => ?_
  split
  · exact does_ret fun s _ hs => ⟨by simp, fun _ => rfl⟩
  · dsimp only
    split
    · next hempty =>
        have hsame : stored = driver.events := by
          rw [List.isEmpty_iff.mp hempty, List.append_nil] at hall
          exact hall
        refine does_ret fun s _ hs => ⟨fun _ => ⟨congrArg List.length hsame, hsame ▸ hsaw s hs⟩, absurd rfl⟩
    · refine Does.bind (does_append hsaw howes) fun result => ?_
      rw [hall]
      split
      · exact does_ret fun s _ hs => ⟨fun _ => ⟨rfl, hs.2 rfl⟩, absurd rfl⟩
      · exact does_ret fun s _ hs => ⟨by simp, fun _ => rfl⟩

theorem does_storeTail {stored tail : List Event} (driver : Driver)
    (hsaw : ∀ s, K.holds s → s.Saw spec.runId spec stored)
    (howes : ∀ s, K.holds s → P.Owes s (.store (.appendEventsAfter spec.runId stored.length tail (.worker token)))) :
    P.world.Does K (storeTail spec token stored.length driver tail) fun _ => .none := by
  unfold storeTail
  split
  · exact does_done
  · exact Does.bind (does_append hsaw howes) fun _ => does_done

/-- A worker keeps the promise while it drives a run from an open log that it read. -/
def Drives (P : Pledge) : Prop :=
  ∀ (w : Worker) (spec : RunSpec) (token : Token) (events : List Event) (tools : List ToolDescriptor)
    (stamps : Nat → Stamp)
    (driver : Driver) (setup : Driver.Setup), hasEnded events = false → Driver.resume spec events stamps = .ok driver →
    P.world.Does (P.log spec events) (w.drive spec token tools (driver.setUp setup) events.length) fun _ => .none

theorem does_runHarness (hdrives : P.Drives) (hopen : hasEnded events = false) (w : Worker) :
    P.world.Does (P.log spec events) (w.runHarness spec events token) fun _ => .none := by
  refine does_stamps fun stamps => ?_
  split
  · exact does_only (free_append _ _ _ (beside_single rfl))
  · next driver hresume =>
      refine bind_only (EndsLog.only (only_holds _ _)) fun held => ?_
      split
      · exact does_done
      · refine bind_only (EndsLog.only (only_delegation spec)) fun targets => ?_
        rw [Worker.setUp_eq]
        split
        · next message _ =>
            refine does_stamps fun stamps => does_only (free_append _ _ _ ?_)
            exact ((Driver.resume_cases hresume).setUp _).drop_beside rfl
        · refine bind_only (EndsLog.only (only_toolsOf w spec)) fun found => ?_
          cases found with
          | error error => exact does_done
          | ok tools => exact hdrives w spec token events tools _ driver _ hopen hresume

theorem does_runScheduled (hdrives : P.Drives) (hopen : hasEnded events = false) (w : Worker) (attempt : Nat) :
    P.world.Does (P.log spec events) (w.runScheduled spec events token attempt) fun _ => .none := by
  unfold Worker.runScheduled
  split
  · exact does_only (free_runTurn spec events token attempt)
  · exact does_runHarness hdrives hopen w

theorem does_runFrom (hdrives : P.Drives) (w : Worker) (attempt : Nat) :
    P.world.Does (P.log spec events) (w.runFrom spec events token attempt) fun _ => .none := by
  unfold Worker.runFrom
  split
  · exact does_done
  · next hnot =>
      have hopen : hasEnded events = false := by simpa using hnot
      refine bind_only (EndsLog.only (only_stopped _)) fun covered => ?_
      split
      · exact does_stamps fun stamps => does_only (free_endTurn spec token attempt _ rfl)
      · split
        · refine does_stamps fun stamps => ?_
          have hladder : ∀ payload ∈ payloads (dispatchEvents spec stamps), Driver.isBeside payload = true :=
            List.all_eq_true.mp rfl
          have hopen' : hasEnded (events ++ dispatchEvents spec stamps) = false := by
            rw [hasEnded_append, hopen]
            rfl
          refine Does.bind (does_append (fun s hs => hs.1) fun s hs => P.bystands hladder) fun result => ?_
          split
          · exact (does_runScheduled hdrives hopen' w attempt).pre fun s _ hs => ⟨hs.2 rfl, P.grows hs.1.2 hladder⟩
          · exact does_done
        · exact does_runScheduled hdrives hopen w attempt

/-! ### One claim -/

theorem does_storeAsItGoes (hdrives : P.Drives) (w : Worker) (attempt left : Nat) :
    P.world.Does (P.log spec events) (w.storeAsItGoes spec token attempt left events) fun _ => .none := by
  induction left generalizing events with
  | zero =>
      rw [Worker.storeAsItGoes.eq_def]
      refine Does.bind (does_runFrom hdrives w attempt) fun result => ?_
      rcases result with _ | ((_ | _ | _ | _) | _ | _) <;> exact does_done
  | succ left ih =>
      rw [Worker.storeAsItGoes.eq_def]
      refine Does.bind (does_runFrom hdrives w attempt) fun result => ?_
      rcases result with _ | ((_ | _ | _ | _) | _ | _)
      on_goal 5 =>
        refine does_read (fun error => does_done) does_done fun run => (@ih run.events).pre fun s _ hs => ?_
        obtain ⟨⟨⟨hsaw, -⟩, -⟩, hid, hread, htold⟩ := hs
        rw [hid] at hread
        obtain rfl := hsaw.spec_eq hread
        exact ⟨hread, htold⟩
      all_goals exact does_done

theorem does_execute (hdrives : P.Drives) (w : Worker) (attempt : Nat) :
    P.world.Does (P.log spec events) (w.execute spec events token attempt) fun _ => .none := by
  refine Does.bind (does_storeAsItGoes hdrives w attempt reloads) fun result => ?_
  split
  · exact bind_only (free_answerAsk w spec) fun _ => does_done
  · exact does_done

/-- What a claim that is to be run read of its run. -/
def opens (P : Pledge) (result : Except String Prepared) : Known :=
  ⟨fun s => ∀ stored attempt, result = .ok (.open stored attempt) → (P.log stored.spec stored.events).holds s,
    fun h hs stored attempt heq => (P.log stored.spec stored.events).later h (hs stored attempt heq)⟩

theorem does_recordFailed (claim : Claim) (spec : RunSpec) (starts : Nat) :
    P.world.Does K (recordFailed claim spec starts) P.opens := by
  refine does_stamps fun stamps => does_aside trivial fun done => ?_
  cases done <;> exact does_ret fun _ _ _ _ _ heq => by cases heq

theorem does_failStarted (w : Worker) (claim : Claim) (spec : RunSpec) (starts : Nat) :
    P.world.Does K (failStarted w claim spec starts) P.opens := by
  unfold failStarted
  split
  · refine bind_only (EndsLog.only (only_cleanBox _ _ _)) fun cleaned => ?_
    cases cleaned with
    | error error => exact does_ret fun _ _ _ _ _ heq => by cases heq
    | ok _ =>
        refine bind_only (EndsLog.only (only_holds _ _)) fun held => ?_
        split
        · exact does_ret fun _ _ _ _ _ heq => by cases heq
        · exact does_recordFailed claim spec starts
  · exact does_recordFailed claim spec starts

theorem does_prepare (w : Worker) (claim : Claim) : P.world.Does K (w.prepare claim) P.opens := by
  have hback : ∀ {K : Known} (error : String), P.world.Does K (handBack claim error) P.opens :=
    fun error => does_aside trivial fun _ => does_ret fun _ _ _ _ _ heq => by cases heq
  refine does_read (fun error => hback _) (does_ret fun _ _ _ _ _ heq => by cases heq) fun stored => ?_
  dsimp only
  split
  · exact does_ret fun _ _ _ _ _ heq => by cases heq
  · refine does_aside trivial fun starts => ?_
    cases starts with
    | error error => exact hback _
    | ok starts =>
        dsimp only
        split
        · exact does_failStarted w claim _ _
        · refine does_ret fun s _ hs other attempt heq => ?_
          cases heq
          exact hs.2.2

/-- A worker keeps the promise from a claim to its end. -/
theorem does_workOne (hdrives : P.Drives) (w : Worker) (token : Token) :
    P.world.Does K (w.workOne token) fun _ => .none := by
  refine does_aside trivial fun claimed => ?_
  rcases claimed with error | (_ | id)
  · exact does_done
  · exact does_done
  · refine Does.bind (does_prepare w ⟨id, token⟩) fun prepared => ?_
    rcases prepared with error | (⟨stored, attempt⟩ | done)
    · exact does_done
    · suffices hopen : P.world.Does (P.log stored.spec stored.events) _ _ from
        hopen.pre fun s _ hs => hs.2 stored attempt rfl
      refine Does.bind (does_execute hdrives w attempt) fun result => ?_
      rcases result with error | append | ask
      · exact does_done
      · refine bind_only (free_ack _) fun acked => ?_
        cases acked <;> exact does_done
      · refine bind_only (free_ack _) fun acked => ?_
        cases acked <;> exact does_done
    · refine bind_only (free_ack done) fun acked => ?_
      cases acked <;> exact does_done

/-! ### Every program -/

/-! The next three are stated with `Does`: to see that `Prog.Only` holds of one, a program is evaluated as far as the
trimmed text. -/

theorem does_answerQuestion (run : RunId) (text : String) (asked : Option MessageId) :
    P.world.Does K (answerQuestion run text asked) fun _ => .none := by
  unfold answerQuestion
  dsimp only
  split
  · exact does_done
  · split
    · exact does_done
    · exact does_only ((answerTries_answers run _ 3 asked).mono fun _ => AppendsAnswers.bystands)

theorem does_acceptSubscriptionCompletion (run : RunId) (text : String) :
    P.world.Does K (acceptSubscriptionCompletion run text) fun _ => .none := by
  unfold acceptSubscriptionCompletion
  dsimp only
  split
  · exact does_done
  · refine bind_only (free_subscriptionTurn run _) fun found => ?_
    cases found with
    | error error => exact does_done
    | ok stored =>
        have hrecord : ∀ {K : Known} {outcome : (Nat → Stamp) → TurnOutcome} stamps,
          P.world.Does K (recordTurn stored.spec.runId .request
            (completionEvents stored.spec stamps (trim text)) (outcome stamps)) fun _ => .none :=
          fun stamps => does_only (EndsLog.only (only_recordTurn _ _ _ (endsAtTerminal_completion _ _ _)))
        dsimp only
        split
        · refine does_aside trivial fun absent => ?_
          rcases absent with _ | (_ | _)
          · exact does_done
          · refine does_aside trivial fun removed => ?_
            cases removed with
            | error message => exact does_done
            | ok _ => exact does_stamps hrecord
          · exact does_done
        · exact does_stamps hrecord

theorem does_failTurn (run : RunId) (message : String) : P.world.Does K (failTurn run message) fun _ => .none := by
  unfold failTurn
  dsimp only
  split
  · exact does_done
  · refine bind_only (free_subscriptionTurn run _) fun found => ?_
    cases found with
    | error error => exact does_done
    | ok stored =>
        have hrecord : ∀ {K : Known} {outcome : (Nat → Stamp) → TurnOutcome} stamps,
          P.world.Does K (recordTurn run .request
            [runFailedEvent stored.spec stamps .dependency (trim message)] (outcome stamps)) fun _ => .none :=
          fun stamps => does_only (EndsLog.only (only_recordTurn _ _ _ (endsAtTerminal_single _)))
        dsimp only
        split
        · refine does_aside trivial fun absent => ?_
          rcases absent with _ | (_ | _)
          · exact does_done
          · refine does_aside trivial fun removed => ?_
            cases removed with
            | error message => exact does_done
            | ok _ => exact does_stamps hrecord
          · exact does_stamps hrecord
        · exact does_stamps hrecord

theorem does_forget {p : Prog ServerSig α} (h : P.world.Does K p fun _ => .none) :
    P.world.Does K (forget p) fun _ => .none :=
  Does.bind h fun _ => does_done

theorem does_free {p : Prog ServerSig α} (h : p.Only Bystands) : P.world.Does K (forget p) fun _ => .none :=
  does_forget (does_only h)

/-- Where its workers keep a promise while they drive, every program the servers run keeps it. -/
theorem serves_keeps (hdrives : P.Drives) {fleet : Fleet} {p : Prog ServerSig Unit} (h : Serves fleet p) :
    P.world.Does K p fun _ => .none := by
  cases h with
  | enqueue spec onPushFailure hkey => exact does_free (free_enqueue spec onPushFailure)
  | fire owner id => exact does_free (free_fire _ owner id none)
  | webhook trigger event body => exact does_free (free_fireWebhook _ trigger event body)
  | pass => exact does_free (free_passNow _ _)
  | work w token hw => exact does_forget (does_workOne hdrives w token)
  | reap => exact does_free free_reapRuns
  | sweep after forgetAfter => exact does_free (free_sweep _ after forgetAfter)
  | sweepAsks => exact does_free free_sweepAsks
  | sweepSandboxes => exact does_free free_sweepSandboxes
  | answer run text asked =>
      -- Generalized, so that the unifier does not evaluate the trimmed text.
      have hanswer := @does_answerQuestion P K run text asked
      generalize answerQuestion run text asked = p at hanswer ⊢
      exact does_forget hanswer
  | stop owner scope => exact does_free (free_stop owner scope)
  | stopOwner owner => exact does_free (free_stopOwner owner)
  | openTurn spec hkey hturn => exact does_free (free_openTurn spec)
  | complete run text =>
      have hcomplete := @does_acceptSubscriptionCompletion P K run text
      generalize acceptSubscriptionCompletion run text = p at hcomplete ⊢
      exact does_forget hcomplete
  | fail run message =>
      have hfail := @does_failTurn P K run message
      generalize failTurn run message = p at hfail ⊢
      exact does_forget hfail
  | create trigger => exact does_free (free_createTrigger _ trigger)
  | pause owner id => exact does_free (free_pauseTrigger owner id)
  | resume owner id => exact does_free (free_resumeTrigger _ owner id)
  | remove owner id => exact does_free (free_removeTrigger owner id)

/-! ### Pools -/

variable {fleet : Fleet} {ok : Pool → Move → Prop} {pool : Pool}

/-- What the programs of a pool keep. -/
structure Held (P : Pledge) (pool : Pool) : Prop where
  kept : P.Kept pool.server
  safe : P.world.AllSafe pool.processes pool.server

theorem Held.owes (h : P.Held pool) (hsound : Sound pool.server) {p : Prog ServerSig Unit} (hp : p ∈ pool.processes)
    {c : ServerCall} (hwaits : p.Waits c) : P.Owes pool.server c := (h.safe p hp).owes hwaits ⟨hsound, h.kept⟩

/-- What is kept by the steps that owe it is kept in every pool reached. -/
theorem held (hdrives : P.Drives) (hempty : P.Kept .empty)
    (hstore : ∀ s t : Server, s.store = t.store → P.Kept s → P.Kept t)
    (hstep : ∀ {s t : Server} {c : ServerCall} {answer : c.Answer}, P.Kept s → P.Owes s c → Gol.Owes fleet false s c →
      s.Step c answer t → P.Kept t) (h : pool.Reach (Serves fleet) ok) : P.Held pool := by
  induction h with
  | start => exact ⟨hempty, fun p hp => by simp at hp⟩
  | step before hok hmove ih =>
      have hsound := before.sound
      have hlater : ∀ c, P.world.Others c _ _ := fun _ => hmove.later
      cases hmove with
      | spawn s processes p hserves =>
          refine ⟨ih.kept, fun q hq => ?_⟩
          rcases List.mem_cons.mp hq with rfl | hq
          · exact (serves_keeps (K := .none) hdrives hserves s ⟨hsound, ih.kept⟩ trivial).mono fun _ _ _ => trivial
          · exact ih.safe q hq
      | call s t front back c next answer hcall =>
          have hwaits : (Prog.call c next : Prog ServerSig Unit).Waits c := ⟨next, rfl⟩
          have howes := before.owes (p := .call c next) (by simp) hwaits
          have hkept : P.Kept t := hstep ih.kept (ih.owes hsound (by simp) hwaits) howes hcall
          exact ⟨hkept, ih.safe.step ⟨hsound, ih.kept⟩ hcall ⟨hsound.step howes hcall, hkept⟩ fun _ _ c _ => hlater c⟩
      | crash s front back p =>
          refine ⟨ih.kept, fun q hq => ih.safe q ?_⟩
          rcases List.mem_append.mp hq with hfront | hback
          · exact List.mem_append_left _ hfront
          · exact List.mem_append_right _ (List.mem_cons_of_mem _ hback)
      | tick s processes ms => exact ⟨hstore s _ rfl ih.kept, ih.safe.others fun _ _ c _ => hlater c⟩
      | expire s processes run => exact ⟨hstore s _ rfl ih.kept, ih.safe.others fun _ _ c _ => hlater c⟩

end Pledge

end Gol
