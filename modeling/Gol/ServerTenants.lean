import Gol.LibraryTenants
import Gol.ServerLanes
import Gol.ServerRequests
import Gol.StoreTenants

/-! Principals that share a server. What is done for a principal, a request or the work on its runs, changes nothing
that another is shown, and is answered from what it is shown only. Of the others it can find no more than that an
agent's id is taken. Ids are held by principals: each draws the ids of its runs and messages and chooses those of its
agents, and no two take the same one. -/

namespace Gol
open Library

/-- Whose each id is. -/
structure Holders where
  run : RunId → Principal
  agent : AgentId → Principal
  message : MessageId → Principal

/-- A run of the principal's. -/
def Holders.owns (holders : Holders) (k : Principal) (id : RunId) : Bool := holders.run id = k

namespace Site

variable {holders : Holders} {k other : Principal} {s t u : Site} {now : Timestamp}

/-- What is stored under an id is of the principal that holds it. -/
structure Held (holders : Holders) (s : Site) : Prop where
  runs : s.threads.Housed holders.run
  agents : ∀ id agent, s.agents id = some agent → principal agent.owner = holders.agent id
  box : s.box.Housed holders.run holders.message

/-- The two sites show the principal the same. Of the others' agents it is shown which ids are taken. -/
structure Shows (holders : Holders) (k : Principal) (s t : Site) : Prop where
  runs : StopStore.ShowsRuns holders.run k s.threads t.threads
  triggers : s.triggers.filter (fun trigger => principal trigger.owner = k) =
    t.triggers.filter fun trigger => principal trigger.owner = k
  agents : ∀ id, holders.agent id = k → s.agents id = t.agents id
  taken : ∀ id, (s.agents id).isSome = (t.agents id).isSome
  queue : RunQueue.Alike (holders.owns k) s.server.queue t.server.queue
  sandboxes : ∀ name run, boxRunOf name = some run → holders.run run = k →
    (name ∈ s.server.sandboxes ↔ name ∈ t.server.sandboxes)
  box : Mailbox.ShowsMail holders.run holders.message k s.box t.box

theorem Shows.refl (holders : Holders) (k : Principal) (s : Site) : Shows holders k s s :=
  ⟨.refl holders.run k s.threads, rfl, fun _ _ => rfl, fun _ => rfl, .refl _ _, fun _ _ _ _ => Iff.rfl,
    .refl _ _ k s.box⟩

theorem Shows.symm (h : Shows holders k s t) : Shows holders k t s :=
  ⟨h.runs.symm, h.triggers.symm, fun id hid => (h.agents id hid).symm, fun id => (h.taken id).symm, h.queue.symm,
    fun name run hname hrun => (h.sandboxes name run hname hrun).symm, h.box.symm⟩

theorem Shows.trans (h : Shows holders k s t) (h' : Shows holders k t u) : Shows holders k s u :=
  ⟨h.runs.trans h'.runs, h.triggers.trans h'.triggers, fun id hid => (h.agents id hid).trans (h'.agents id hid),
    fun id => (h.taken id).trans (h'.taken id), h.queue.trans h'.queue,
    fun name run hname hrun => (h.sandboxes name run hname hrun).trans
      (h'.sandboxes name run hname hrun), h.box.trans h'.box⟩

/-! ### Own calls -/

/-- A script for one of the principal's runs, or the read of all that are parked. -/
def OwnQueue (holders : Holders) (k : Principal) (c : QueueCall) : Prop :=
  match c with
  | .parked => True
  | c => match c.run? with
    | some id => holders.run id = k
    | none => False

def OwnStore (holders : Holders) (k : Principal) : StoreCall → Prop
  | .run _ => True
  | .putRun run _ => holders.run run.spec.runId = k ∧ principal run.spec.owner = k ∧
      ∀ parent, run.spec.lineage.parent = some parent → holders.run parent = k
  | .appendEvents id _ _ | .appendEventsAfter id _ _ _ => holders.run id = k

def OwnControl (holders : Holders) (k : Principal) : ControlCall → Prop
  | .stopped id => holders.run id = k
  | .putStop owner _ | .openRunsUnder owner _ | .trigger owner _ | .setEnabled owner _ _ | .deleteTrigger owner _
  | .resumeTrigger owner _ _ | .pauseTriggers owner => principal owner = k
  | .putTrigger trigger _ => principal trigger.owner = k
  | _ => False

def OwnHost (holders : Holders) (k : Principal) : HostCall → Prop
  | .provision name _ | .destroy name _ | .absent name _ => match boxRunOf name with
    | some run => holders.run run = k
    | none => False
  | .list => False

def OwnOutside (holders : Holders) (k : Principal) : OutsideCall → Prop
  | .agent _ | .stamps | .timestampNow | .harness _ | .loadTools _ => True
  | .agentsOf owner => principal owner = k
  | .putMessage message => holders.run message.fromRun = k ∧ Mailbox.Sorted holders.run holders.message message
  | .askOfTask task => holders.run task = k
  | .answer ask => holders.message ask = k
  | _ => False

/-- A call that reads, or writes what is the principal's. A read may find what is another's. -/
def Own (holders : Holders) (k : Principal) : RequestCall → Prop
  | .server (.queue c) => OwnQueue holders k c
  | .server (.store c) => OwnStore holders k c
  | .server (.control c) => OwnControl holders k c
  | .server (.host c) => OwnHost holders k c
  | .server (.gateway call _) => holders.run call.runId = k
  | .server (.outside c) => OwnOutside holders k c
  | .runPage _ _ _ => True
  | .threads (.root owner _) | .threads (.runs owner _ _) | .threads (.list owner _ _) => principal owner = k
  | .triggersOf owner | .rotateWebhook owner _ | .takeStream owner => principal owner = k
  | .putAgent agent => principal agent.owner = k ∧ holders.agent agent.manifest.id = k

/-- An own call that finds nothing of another's. -/
def Inner (holders : Holders) (k : Principal) (c : RequestCall) : Prop :=
  Own holders k c ∧ match c with
    | .server (.queue .parked) => False
    | .server (.store (.run id)) => holders.run id = k
    | .server (.outside (.agent id)) => holders.agent id = k
    | .runPage id _ _ => holders.run id = k
    | _ => True

theorem OwnQueue.run {c : QueueCall} (h : OwnQueue holders k c) (hparked : c ≠ .parked) :
    ∃ id, c.run? = some id ∧ holders.run id = k := by
  cases c with
  | parked => exact absurd rfl hparked
  | pendingFor | claim | reap => exact h.elim
  | _ => exact ⟨_, rfl, h⟩

theorem owns_eq_true {id : RunId} (h : holders.run id = k) : holders.owns k id = true := decide_eq_true h

theorem owns_eq_false {id : RunId} (h : holders.run id = other) (hne : k ≠ other) : holders.owns k id = false :=
  decide_eq_false fun heq => hne (heq.symm.trans h)

/-- A principal's script does the same for its runs in queues that show it the same. -/
theorem alike_queue {q q' : RunQueue} (h : RunQueue.Alike (holders.owns k) q q') {c : QueueCall}
    (hown : OwnQueue holders k c) (time time' : Nat) :
    RunQueue.Alike (holders.owns k) (q.exec time c).2 (q'.exec time' c).2 := by
  by_cases hparked : c = .parked
  · subst hparked
    exact h
  · obtain ⟨id, hrun, hid⟩ := hown.run hparked
    exact (h.exec hrun (owns_eq_true hid) time time').2

/-- And nothing to another's. -/
theorem alike_queue_other {c : QueueCall} (hown : OwnQueue holders other c) (hne : k ≠ other)
    (q : RunQueue) (time : Nat) :
    RunQueue.Alike (holders.owns k) q (q.exec time c).2 := by
  by_cases hparked : c = .parked
  · subst hparked
    exact .refl _ q
  · obtain ⟨id, hrun, hid⟩ := hown.run hparked
    exact RunQueue.alike_exec hrun (owns_eq_false hid hne) q time

/-! ### The triggers -/

/-- A trigger of the principal's. -/
def ownTrigger (k : Principal) (trigger : StoredTrigger) : Bool := principal trigger.owner = k

theorem ownTrigger_of_isOf {owner : Owner} {id : TriggerId} {trigger : StoredTrigger}
    (h : Triggers.isOf owner id trigger = true) :
    principal trigger.owner = principal owner := by
  simp only [Triggers.isOf, Bool.and_eq_true] at h
  exact Owner.is_iff.mp h.2

section Alter

variable {l : Triggers} {p q : StoredTrigger → Bool} {f : StoredTrigger → StoredTrigger}

/-- A change to one of those kept. -/
theorem filter_alter (hkept : ∀ trigger, p trigger = true → q trigger = true)
    (hf : ∀ trigger, q (f trigger) = q trigger) :
    (l.alter p f).filter q = Triggers.alter (l.filter q) p f := by
  induction l with
  | nil => rfl
  | cons trigger rest ih =>
      rw [Triggers.alter]
      cases hp : p trigger with
      | true => simp [hkept trigger hp, hf, Triggers.alter, hp]
      | false =>
          cases hq : q trigger with
          | true => simp [hq, Triggers.alter, hp, ih]
          | false => simp [hq, ih]

/-- A change to one of those left out. -/
theorem filter_alter_other (hother : ∀ trigger, p trigger = true → q trigger = false)
    (hf : ∀ trigger, q (f trigger) = q trigger) :
    (l.alter p f).filter q = l.filter q := by
  induction l with
  | nil => rfl
  | cons trigger rest ih =>
      rw [Triggers.alter]
      cases hp : p trigger with
      | true => simp [hf, hother trigger hp]
      | false =>
          cases hq : q trigger with
          | true => simp [hq, ih]
          | false => simp [hq, ih]

/-- A change to all of those left out. -/
theorem filter_map_other (hother : ∀ trigger, p trigger = true → q trigger = false)
    (hf : ∀ trigger, q (f trigger) = q trigger) :
    (l.map fun trigger => if p trigger then f trigger else trigger).filter q = l.filter q := by
  induction l with
  | nil => rfl
  | cons trigger rest ih =>
      rw [List.map_cons, List.filter_cons, List.filter_cons, ih]
      cases hp : p trigger with
      | true => simp [hf, hother trigger hp]
      | false => simp

theorem find?_filter_of_imp {α : Type} {p q : α → Bool} (l : List α) (h : ∀ a, p a = true → q a = true) :
    (l.filter q).find? p = l.find? p := by
  rw [List.find?_filter]
  congr 1
  funext a
  cases hp : p a with
  | true => simp [h a hp]
  | false => simp

end Alter

/-- A call of the triggers. -/
def execTriggers (s : Triggers) : (c : ControlCall) → Triggers
  | .putTrigger trigger most => (s.putTrigger trigger most).2
  | .setEnabled owner id enabled => (s.setEnabled owner id enabled).2
  | .deleteTrigger owner id => (s.deleteTrigger owner id).2
  | .resumeTrigger owner id next => (s.resumeTrigger owner id next).2
  | .pauseTriggers owner => (s.pauseTriggers owner).2
  | .advanceTrigger id due next => (s.advanceTrigger id due next).2
  | _ => s

theorem ownTrigger_resumed (k : Principal) (next : Option Int64) (trigger : StoredTrigger) :
    ownTrigger k (Triggers.resumed next trigger) = ownTrigger k trigger := by
  unfold Triggers.resumed
  split <;> rfl

theorem ownTrigger_rotated (k : Principal) (trigger : StoredTrigger) :
    ownTrigger k ((Triggers.rotated trigger).getD trigger) = ownTrigger k trigger := by
  unfold Triggers.rotated
  cases trigger.kind with
  | schedule _ _ => rfl
  | webhook rotation =>
      simp only
      split <;> rfl

section Own

variable {l l' : Triggers}

theorem isOf_ownTrigger {owner : Owner} (howner : principal owner = k) (id : TriggerId) (trigger : StoredTrigger)
    (h : Triggers.isOf owner id trigger = true) : ownTrigger k trigger = true :=
  decide_eq_true ((ownTrigger_of_isOf h).trans howner)

theorem isOf_not_ownTrigger {owner : Owner} (howner : principal owner ≠ k) (id : TriggerId) (trigger : StoredTrigger)
    (h : Triggers.isOf owner id trigger = true) : ownTrigger k trigger = false :=
  decide_eq_false fun heq => howner ((ownTrigger_of_isOf h).symm.trans heq)

/-- What a principal's triggers are is read alike where they are the same. -/
theorem trigger_eq {owner : Owner}
    (h : l.filter (ownTrigger (principal owner)) = l'.filter (ownTrigger (principal owner))) (id : TriggerId) :
    l.trigger owner id = l'.trigger owner id := by
  have hfind : ∀ m : Triggers, m.trigger owner id = Triggers.trigger
      (m.filter (ownTrigger (principal owner))) owner id :=
    fun m => (find?_filter_of_imp m fun trigger => isOf_ownTrigger rfl id trigger).symm
  rw [hfind l, hfind l', h]

theorem filter_is (m : Triggers) (owner : Owner) :
    (m.filter fun trigger => trigger.owner.is owner) = m.filter (ownTrigger (principal owner)) := by
  refine List.filter_congr fun trigger _ => ?_
  rw [Bool.eq_iff_iff, Owner.is_iff, ownTrigger, decide_eq_true_eq]

theorem any_isOf_eq {owner : Owner}
    (h : l.filter (ownTrigger (principal owner)) = l'.filter (ownTrigger (principal owner))) (id : TriggerId) :
    l.any (Triggers.isOf owner id) = l'.any (Triggers.isOf owner id) := by
  have hany : ∀ m : Triggers, m.any (Triggers.isOf owner id) =
      (m.filter (ownTrigger (principal owner))).any (Triggers.isOf owner id) := by
    intro m
    rw [List.any_filter]
    congr 1
    funext trigger
    cases hof : Triggers.isOf owner id trigger with
    | true => simp [isOf_ownTrigger rfl id trigger hof]
    | false => simp
  rw [hany l, hany l', h]

theorem running_eq {owner : Owner}
    (h : l.filter (ownTrigger (principal owner)) = l'.filter (ownTrigger (principal owner))) :
    (l.filter fun trigger => trigger.owner.is owner && trigger.enabled).length =
      (l'.filter fun trigger => trigger.owner.is owner && trigger.enabled).length := by
  have hsplit : ∀ m : Triggers, (m.filter fun trigger => trigger.owner.is owner && trigger.enabled) =
      (m.filter fun trigger => trigger.owner.is owner).filter fun trigger => trigger.enabled := by
    intro m
    rw [List.filter_filter]
    exact List.filter_congr fun trigger _ => Bool.and_comm ..
  rw [hsplit l, hsplit l', filter_is, filter_is, h]

/-- An own call of the triggers does the same to the principal's. -/
theorem execTriggers_own (h : l.filter (ownTrigger k) = l'.filter (ownTrigger k)) {c : ControlCall}
    (hown : OwnControl holders k c) :
    (execTriggers l c).filter (ownTrigger k) = (execTriggers l' c).filter (ownTrigger k) := by
  cases c with
  | putTrigger trigger most =>
      have hcount : (l.filter fun kept => kept.owner.is trigger.owner) = l'.filter fun kept =>
          kept.owner.is trigger.owner := by
        obtain rfl : principal trigger.owner = k := hown
        rw [filter_is, filter_is, h]
      simp only [execTriggers, Triggers.putTrigger, hcount]
      split
      · exact h
      · rw [List.filter_append, List.filter_append, h]
  | setEnabled owner id enabled =>
      have hisOf := isOf_ownTrigger (k := k) hown id
      have hset : ∀ trigger, ownTrigger k { trigger with enabled := enabled } = ownTrigger k trigger := fun _ => rfl
      simp only [execTriggers, Triggers.setEnabled]
      rw [filter_alter hisOf hset, filter_alter hisOf hset, h]
  | deleteTrigger owner id =>
      simp only [execTriggers, Triggers.deleteTrigger, List.filter_filter, Bool.and_comm (ownTrigger k _)]
      rw [← List.filter_filter, ← List.filter_filter, h]
  | resumeTrigger owner id next =>
      have hisOf := isOf_ownTrigger (k := k) hown id
      simp only [execTriggers, Triggers.resumeTrigger]
      rw [filter_alter hisOf (ownTrigger_resumed k next), filter_alter hisOf (ownTrigger_resumed k next), h]
  | pauseTriggers owner =>
      simp only [execTriggers, Triggers.pauseTriggers, List.filter_map]
      have hsame : (ownTrigger k ∘ fun trigger : StoredTrigger =>
          if trigger.owner.is owner then { trigger with enabled := false } else trigger) = ownTrigger k := by
        funext trigger
        simp only [Function.comp_apply]
        split <;> rfl
      rw [hsame, h]
  | stopped | putStop | openRunsUnder | trigger => exact h
  | _ => exact hown.elim

/-- And nothing to another's. -/
theorem execTriggers_other {c : ControlCall} (hown : OwnControl holders other c) (hne : k ≠ other) :
    (execTriggers l c).filter (ownTrigger k) = l.filter (ownTrigger k) := by
  have hother : ∀ {owner}, principal owner = other → principal owner ≠ k := fun howner heq =>
    hne (heq.symm.trans howner)
  cases c with
  | putTrigger trigger most =>
      have hfalse : ownTrigger k trigger = false := decide_eq_false (hother hown)
      simp only [execTriggers, Triggers.putTrigger]
      split
      · rfl
      · simp [hfalse]
  | setEnabled owner id enabled => exact filter_alter_other (isOf_not_ownTrigger (hother hown) id) fun _ => rfl
  | deleteTrigger owner id =>
      have hisOf := isOf_not_ownTrigger (hother hown) id
      simp only [execTriggers, Triggers.deleteTrigger, List.filter_filter]
      refine List.filter_congr fun trigger _ => ?_
      cases hof : Triggers.isOf owner id trigger with
      | true => simp [hisOf trigger hof]
      | false => simp
  | resumeTrigger owner id next =>
      exact filter_alter_other (isOf_not_ownTrigger (hother hown) id) (ownTrigger_resumed k next)
  | pauseTriggers owner =>
      have his : ∀ trigger : StoredTrigger, trigger.owner.is owner = true → ownTrigger k trigger = false :=
        fun trigger his => decide_eq_false fun heq => hother hown ((Owner.is_iff.mp his).symm.trans heq)
      exact filter_map_other his fun _ => rfl
  | stopped | putStop | openRunsUnder | trigger => rfl
  | _ => exact hown.elim

end Own

/-! ### Steps -/

theorem Shows.triggers_own (h : Shows holders k s t) :
    s.triggers.filter (ownTrigger k) = t.triggers.filter (ownTrigger k) :=
  h.triggers

/-- The write of a store's call. -/
def writeOf (now : Timestamp) : StoreCall → Option StopOp
  | .run _ => none
  | .putRun run _ => some (.write now (.putRun run))
  | .appendEvents id events _ => some (.write now (.appendEvents id events))
  | .appendEventsAfter id seen events _ => some (.write now (.appendEventsAfter id seen events))

theorem threads_after_store (s : Site) (now : Timestamp) {c : StoreCall} {op : StopOp} (hop : writeOf now c = some op) :
    (s.after now (.server (.store c))).threads = s.threads.apply op := by
  cases c with
  | run id => cases hop
  | putRun run origin =>
      cases hop
      simp only [threads, after, Server.after, Server.numbered, LogStore.call, StopStore.apply, StopStore.numbered]
      cases (s.server.store.exec now (.putRun run)).2 with
      | put done => cases done <;> rfl
      | _ => rfl
  | appendEvents id events party | appendEventsAfter id seen events party =>
      cases hop
      rfl

theorem ownWrite_of_store {c : StoreCall} {op : StopOp} (hop : writeOf now c = some op) (hown : OwnStore holders k c) :
    StopStore.OwnWrite holders.run k op := by
  cases c with
  | run id => cases hop
  | putRun run origin =>
      cases hop
      exact hown
  | appendEvents id events party | appendEventsAfter id seen events party =>
      cases hop
      exact hown

/-- What a call of the store answers depends on the write's answer. -/
theorem call_eq {s t : LogStore} (now : Timestamp) {c : StoreCall} (h : ∀ op, writeOf now c = some (.write now op) →
    (s.exec now op).2 = (t.exec now op).2) (hread : ∀ id, c = .run id → s.runs id = t.runs id) :
    (s.call now c).1 = (t.call now c).1 := by
  cases c with
  | run id => simp only [LogStore.call, hread id rfl]
  | putRun run origin => exact congrArg StoreAnswer.toPut (h (.putRun run) rfl)
  | appendEvents id events party => exact congrArg StoreAnswer.toAppend (h (.appendEvents id events) rfl)
  | appendEventsAfter id seen events party =>
      exact congrArg StoreAnswer.toAppend (h (.appendEventsAfter id seen events) rfl)

/-- The stop of a call of the stops and triggers. -/
def stopOf : ControlCall → Option StopOp
  | .putStop owner scope => some (.stop owner scope)
  | _ => none

theorem threads_after_control (s : Site) (now : Timestamp) (c : ControlCall) :
    (s.after now (.server (.control c))).threads = (stopOf c).elim s.threads s.threads.apply := by
  cases c <;> rfl

theorem triggers_after_control (s : Site) (now : Timestamp) (c : ControlCall) :
    (s.after now (.server (.control c))).triggers = execTriggers s.triggers c := by
  cases c <;> rfl

theorem ownWrite_of_control {c : ControlCall} {op : StopOp} (hop : stopOf c = some op) (hown : OwnControl holders k c) :
    StopStore.OwnWrite holders.run k op := by
  cases c <;> cases hop
  exact hown

/-- What a principal's call of the stops or triggers answers. -/
theorem Shows.control_eq (hs : s.Held holders) (ht : t.Held holders) (h : Shows holders k s t) {c : ControlCall}
    (hown : OwnControl holders k c) :
    (s.server.controls.exec s.server.store.runs c).1 = (t.server.controls.exec t.server.store.runs c).1 := by
  have hmine := h.triggers_own
  cases c with
  | stopped id => exact h.runs.stopped hs.runs ht.runs hown
  | openRunsUnder owner scope =>
      obtain rfl : principal owner = k := hown
      exact h.runs.openRunsUnder hs.runs ht.runs scope
  | putStop owner scope => rfl
  | trigger owner id =>
      obtain rfl : principal owner = k := hown
      exact trigger_eq hmine id
  | setEnabled owner id enabled =>
      obtain rfl : principal owner = k := hown
      exact congrArg (Option.map _) (trigger_eq hmine id)
  | resumeTrigger owner id next =>
      obtain rfl : principal owner = k := hown
      exact congrArg (Option.map _) (trigger_eq hmine id)
  | deleteTrigger owner id =>
      obtain rfl : principal owner = k := hown
      exact any_isOf_eq hmine id
  | pauseTriggers owner =>
      obtain rfl : principal owner = k := hown
      exact running_eq hmine
  | putTrigger trigger most =>
      obtain rfl : principal trigger.owner = k := hown
      simp only [Controls.exec, Triggers.putTrigger]
      have hcount : (s.server.controls.triggers.filter fun kept => kept.owner.is trigger.owner) =
          t.server.controls.triggers.filter fun kept => kept.owner.is trigger.owner := by
        rw [filter_is, filter_is]
        exact hmine
      rw [hcount]
      split <;> rfl
  | _ => exact hown.elim

theorem OwnHost.held {c : HostCall} (hown : OwnHost holders k c) {name : SandboxName} {party : Party}
    (hc : c = .provision name party ∨ c = .destroy name party ∨ c = .absent name party) :
    ∃ run, boxRunOf name = some run ∧ holders.run run = k := by
  rcases hc with rfl | rfl | rfl <;>
    · simp only [OwnHost] at hown
      split at hown
      · next run hname => exact ⟨run, hname, hown⟩
      · exact hown.elim

theorem mem_exec (sandboxes : List SandboxName) (c : HostCall) (hlist : c ≠ .list) (name : SandboxName) :
    name ∈ (c.exec sandboxes).2 ↔
      (name ∈ sandboxes ∧ ∀ party, c ≠ .destroy name party) ∨ ∃ party, c = .provision name party := by
  cases c with
  | provision given party =>
      have hname : given = name ↔ ∃ party', HostCall.provision given party = .provision name party' := by
        constructor
        · rintro rfl
          exact ⟨party, rfl⟩
        · rintro ⟨_, heq⟩
          exact (HostCall.provision.inj heq).1
      rw [← hname]
      simp only [HostCall.exec, List.mem_cons, ne_eq, reduceCtorEq, not_false_eq_true, implies_true, and_true]
      exact or_comm.trans (or_congr_right eq_comm)
  | destroy given party =>
      have hname : (∀ party', HostCall.destroy given party ≠ .destroy name party') ↔ name ≠ given :=
        ⟨fun hne heq => hne party (by rw [heq]), fun hne party' heq => hne (HostCall.destroy.inj heq).1.symm⟩
      rw [hname]
      simp [HostCall.exec]
  | absent given party => simp [HostCall.exec]
  | list => exact absurd rfl hlist

theorem OwnHost.ne_list {c : HostCall} (hown : OwnHost holders k c) : c ≠ .list := by
  rintro rfl
  exact hown

/-- An id's holder is never refused it. -/
theorem Held.putAgent_eq (h : s.Held holders) {agent : StoredAgent}
    (howner : principal agent.owner = holders.agent agent.manifest.id) :
    (s.putAgent agent).2 = { s with agents := Function.update s.agents agent.manifest.id (some agent) } := by
  have hfree : ((s.agents agent.manifest.id).any fun stored => !stored.owner.is agent.owner) = false := by
    cases hstored : s.agents agent.manifest.id with
    | none => rfl
    | some stored =>
        have his : stored.owner.is agent.owner = true :=
          Owner.is_iff.mpr ((h.agents _ stored hstored).trans howner.symm)
        simp [his]
  simp [putAgent, hfree]

theorem Held.putAgent (h : s.Held holders) {agent : StoredAgent}
    (howner : principal agent.owner = holders.agent agent.manifest.id) : (s.putAgent agent).2.Held holders := by
  rw [h.putAgent_eq howner]
  refine ⟨h.runs, fun id stored hstored => ?_, h.box⟩
  have hstored : Function.update s.agents agent.manifest.id (some agent) id = some stored := hstored
  by_cases hid : id = agent.manifest.id
  · subst hid
    rw [Function.update_self, Option.some.injEq] at hstored
    rw [← hstored, howner]
  · rw [Function.update_of_ne hid] at hstored
    exact h.agents id stored hstored

/-- Put in two sites that show the principal the same. -/
theorem Shows.putAgent (hs : s.Held holders) (ht : t.Held holders) (h : Shows holders k s t) {agent : StoredAgent}
    (howner : principal agent.owner = holders.agent agent.manifest.id) :
    Shows holders k (s.putAgent agent).2 (t.putAgent agent).2 := by
  rw [hs.putAgent_eq howner, ht.putAgent_eq howner]
  refine ⟨h.runs, h.triggers, fun id hid => ?_, fun id => ?_, h.queue, h.sandboxes, h.box⟩
  · change Function.update s.agents _ _ id = Function.update t.agents _ _ id
    rw [Function.update_apply, Function.update_apply, h.agents id hid]
  · change (Function.update s.agents _ _ id).isSome = (Function.update t.agents _ _ id).isSome
    rw [Function.update_apply, Function.update_apply]
    split
    · rfl
    · exact h.taken id

/-- An own call keeps what is stored under its holders. -/
theorem Held.after (h : s.Held holders) {c : RequestCall} (hown : Own holders k c) : (s.after now c).Held holders := by
  cases c with
  | server c =>
      cases c with
      | store c =>
          cases hop : writeOf now c with
          | none =>
              cases c with
              | run id => exact h
              | _ => cases hop
          | some op =>
              refine ⟨?_, h.agents, h.box⟩
              rw [threads_after_store s now hop]
              exact h.runs.apply (ownWrite_of_store hop hown)
      | control c =>
          refine ⟨?_, h.agents, h.box⟩
          rw [threads_after_control]
          cases hop : stopOf c with
          | none => exact h.runs
          | some op => exact h.runs.apply (ownWrite_of_control hop hown)
      | outside c =>
          refine ⟨h.runs, h.agents, ?_⟩
          cases c with
          | putMessage message => exact h.box.putMessage hown.2
          | answer ask => exact h.box.answer ask
          | _ => exact h.box
      | queue | host | gateway => exact ⟨h.runs, h.agents, h.box⟩
  | putAgent agent => exact h.putAgent (hown.1.trans hown.2.symm)
  | runPage | threads | triggersOf | rotateWebhook | takeStream => exact ⟨h.runs, h.agents, h.box⟩

/-- A principal's own call, unless it puts an agent, shows another nothing. -/
theorem Held.shows_other (h : s.Held holders) {c : RequestCall} (hown : Own holders other c) (hne : k ≠ other)
    (hagent : ∀ agent, c ≠ .putAgent agent) : Shows holders k s (s.after now c) := by
  have hsame := Shows.refl holders k s
  cases c with
  | server c =>
      cases c with
      | queue c =>
          exact ⟨hsame.runs, hsame.triggers, hsame.agents, hsame.taken, alike_queue_other hown hne _ _,
            hsame.sandboxes, hsame.box⟩
      | store c =>
          cases hop : writeOf now c with
          | none =>
              cases c with
              | run id => exact hsame
              | _ => cases hop
          | some op =>
              have hruns := h.runs.showsRuns_other (ownWrite_of_store hop hown) hne
              rw [← threads_after_store s now hop] at hruns
              refine ⟨hruns, ?_, hsame.agents, hsame.taken, hsame.queue, hsame.sandboxes, hsame.box⟩
              cases c with
              | putRun run origin =>
                  simp only [triggers, Site.after, Server.after, Server.numbered]
                  split <;> rfl
              | _ => rfl
      | control c =>
          refine ⟨?_, ?_, hsame.agents, hsame.taken, hsame.queue, hsame.sandboxes, hsame.box⟩
          · rw [threads_after_control]
            cases hop : stopOf c with
            | none => exact hsame.runs
            | some op => exact h.runs.showsRuns_other (ownWrite_of_control hop hown) hne
          · rw [triggers_after_control]
            exact (execTriggers_other hown hne).symm
      | host c =>
          refine ⟨hsame.runs, hsame.triggers, hsame.agents, hsame.taken, hsame.queue,
            fun name run hname hrun => ?_, hsame.box⟩
          have hnot : ∀ party, ¬ (c = .provision name party ∨ c = .destroy name party ∨ c = .absent name party) := by
            intro party hc
            obtain ⟨run', hname', hrun'⟩ := OwnHost.held hown hc
            rw [hname, Option.some.injEq] at hname'
            rw [← hname', hrun] at hrun'
            exact hne hrun'
          have hmem : name ∈ (c.exec s.server.sandboxes).2 ↔ name ∈ s.server.sandboxes := by
            rw [mem_exec _ c (OwnHost.ne_list hown) name]
            constructor
            · rintro (⟨hmem, -⟩ | ⟨party, heq⟩)
              · exact hmem
              · exact absurd (.inl heq) (hnot party)
            · exact fun hmem => .inl ⟨hmem, fun party heq => hnot party (.inr (.inl heq))⟩
          exact hmem.symm
      | outside c =>
          refine ⟨hsame.runs, hsame.triggers, hsame.agents, hsame.taken, hsame.queue, hsame.sandboxes, ?_⟩
          cases c with
          | putMessage message => exact Mailbox.showsMail_putMessage (fun heq => hne (heq.symm.trans hown.1)) s.box
          | answer ask => exact Mailbox.showsMail_answer (fun heq => hne (heq.symm.trans hown)) s.box
          | _ => exact hsame.box
      | gateway => exact hsame
  | rotateWebhook owner id =>
      refine ⟨hsame.runs, ?_, hsame.agents, hsame.taken, hsame.queue, hsame.sandboxes, hsame.box⟩
      exact (filter_alter_other (isOf_not_ownTrigger (fun heq => hne (heq.symm.trans hown)) id)
        (ownTrigger_rotated k)).symm
  | putAgent agent => exact absurd rfl (hagent agent)
  | runPage | threads | triggersOf | takeStream => exact hsame

/-- A principal's own call does the same in sites that show it the same. -/
theorem Shows.after (hs : s.Held holders) (ht : t.Held holders) (h : Shows holders k s t) {c : RequestCall}
    (hown : Own holders k c) :
    Shows holders k (s.after now c) (t.after now c) := by
  cases c with
  | server c =>
      cases c with
      | queue c => exact ⟨h.runs, h.triggers, h.agents, h.taken, alike_queue h.queue hown _ _, h.sandboxes, h.box⟩
      | store c =>
          cases hop : writeOf now c with
          | none =>
              cases c with
              | run id => exact h
              | _ => cases hop
          | some op =>
              have hruns := (h.runs.apply hs.runs ht.runs (ownWrite_of_store hop hown)).2
              rw [← threads_after_store s now hop, ← threads_after_store t now hop] at hruns
              refine ⟨hruns, ?_, h.agents, h.taken, h.queue, h.sandboxes, h.box⟩
              cases c with
              | putRun run origin =>
                  have htriggers := h.triggers
                  simp only [Site.after, Server.after, Server.numbered] at htriggers ⊢
                  split <;> split <;> exact htriggers
              | _ => exact h.triggers
      | control c =>
          refine ⟨?_, ?_, h.agents, h.taken, h.queue, h.sandboxes, h.box⟩
          · rw [threads_after_control, threads_after_control]
            cases hop : stopOf c with
            | none => exact h.runs
            | some op => exact (h.runs.apply hs.runs ht.runs (ownWrite_of_control hop hown)).2
          · rw [triggers_after_control, triggers_after_control]
            exact execTriggers_own h.triggers_own hown
      | host c =>
          refine ⟨h.runs, h.triggers, h.agents, h.taken, h.queue, fun name run hname hrun => ?_, h.box⟩
          have hlist := OwnHost.ne_list hown
          change name ∈ (c.exec s.server.sandboxes).2 ↔ name ∈ (c.exec t.server.sandboxes).2
          rw [mem_exec _ c hlist name, mem_exec _ c hlist name, h.sandboxes name run hname hrun]
      | outside c =>
          refine ⟨h.runs, h.triggers, h.agents, h.taken, h.queue, h.sandboxes, ?_⟩
          cases c with
          | putMessage message => exact (h.box.putMessage hown.1).2
          | answer ask => exact (h.box.answer hs.box ht.box hown).2
          | _ => exact h.box
      | gateway => exact h
  | rotateWebhook owner id =>
      refine ⟨h.runs, ?_, h.agents, h.taken, h.queue, h.sandboxes, h.box⟩
      have hisOf := isOf_ownTrigger (k := k) hown id
      have hfilter : ∀ m : Triggers, (m.rotateWebhook owner id).2.filter (ownTrigger k) =
          Triggers.alter (m.filter (ownTrigger k)) (Triggers.isOf owner id)
            fun trigger => (Triggers.rotated trigger).getD trigger :=
        fun m => filter_alter hisOf (ownTrigger_rotated k)
      calc
        _ = Triggers.alter (s.triggers.filter (ownTrigger k)) _ _ := hfilter s.triggers
        _ = Triggers.alter (t.triggers.filter (ownTrigger k)) _ _ := by rw [h.triggers_own]
        _ = _ := (hfilter t.triggers).symm
  | putAgent agent => exact h.putAgent hs ht (hown.1.trans hown.2.symm)
  | runPage | threads | triggersOf | takeStream => exact h

/-- What the agents and the messages answer of the principal's. -/
theorem Shows.keeps (hs : s.Held holders) (ht : t.Held holders) (h : Shows holders k s t) {c : OutsideCall}
    (hinner : Inner holders k (.server (.outside c))) {answer : c.Answer} (hanswer : s.Keeps c answer) :
    t.Keeps c answer := by
  cases hanswer with
  | agent id =>
      rw [h.agents id hinner.2]
      exact .agent id
  | agentsOf owner found hfound =>
      obtain rfl : principal owner = k := hinner.1
      refine .agentsOf owner found fun agent => (hfound agent).trans (and_congr_left fun his => ?_)
      have howner : principal agent.owner = principal owner := Owner.is_iff.mp his
      constructor
      · intro hagent
        rw [← h.agents _ ((hs.agents _ agent hagent).symm.trans howner)]
        exact hagent
      · intro hagent
        rw [h.agents _ ((ht.agents _ agent hagent).symm.trans howner)]
        exact hagent
  | putMessage message =>
      rw [(h.box.putMessage hinner.1.1).1]
      exact .putMessage message
  | noAsk task hnone =>
      exact .noAsk task fun ask hopen => hnone ask ((h.box.isOpen_iff hs.box ht.box hinner.1 ask).mpr hopen)
  | askOfTask task ask hopen => exact .askOfTask task ask ((h.box.isOpen_iff hs.box ht.box hinner.1 ask).mp hopen)
  | answer ask =>
      rw [(h.box.answer hs.box ht.box hinner.1).1]
      exact .answer ask

/-- What the sandbox host answers of the principal's sandboxes. -/
theorem Shows.host_eq (h : Shows holders k s t) {c : HostCall} (hown : OwnHost holders k c) :
    (c.exec s.server.sandboxes).1 = (c.exec t.server.sandboxes).1 := by
  cases c with
  | provision name party | destroy name party => rfl
  | absent name party =>
      obtain ⟨run, hname, hrun⟩ := hown.held (.inr (.inr rfl))
      exact decide_eq_decide.mpr (not_congr (h.sandboxes name run hname hrun))
  | list => exact hown.elim

/-- And what its threads are. -/
theorem Shows.threads_eq (hs : s.Held holders) (ht : t.Held holders) (h : Shows holders k s t) {c : ThreadCall}
    (hown : Own holders k (.threads c)) : c.exec s.threads = c.exec t.threads := by
  cases c with
  | root owner thread =>
      obtain rfl : principal owner = k := hown
      exact h.runs.threadRoot hs.runs ht.runs thread
  | runs owner thread limit =>
      obtain rfl : principal owner = k := hown
      exact h.runs.runsOfThread hs.runs ht.runs thread limit
  | list owner after limit =>
      obtain rfl : principal owner = k := hown
      exact h.runs.threadsOf hs.runs ht.runs after limit

/-- What a call that finds nothing of another's is answered. -/
theorem Shows.answers (hs : s.Held holders) (ht : t.Held holders) (h : Shows holders k s t) {c : RequestCall}
    (hinner : Inner holders k c) {answer : c.Answer} (hanswer : s.Answers now c answer) : t.Answers now c answer := by
  cases hanswer with
  | kept hkept => exact .kept (h.keeps hs ht hinner hkept)
  | @server c answer helse hanswer =>
      refine .server helse ?_
      cases hanswer with
      | queue c =>
          have hparked : c ≠ .parked := by
            rintro rfl
            exact hinner.2
          obtain ⟨id, hrun, hid⟩ := OwnQueue.run hinner.1 hparked
          rw [(h.queue.exec hrun (owns_eq_true hid) s.server.now t.server.now).1]
          exact .queue c
      | store c =>
          have heq : (s.server.store.call now c).1 = (t.server.store.call now c).1 := by
            refine call_eq now (fun op hop => ?_) fun id heq => ?_
            · exact (h.runs.apply hs.runs ht.runs (ownWrite_of_store hop hinner.1)).1
            · subst heq
              exact h.runs.runs id hinner.2
          rw [heq]
          exact .store c
      | control c =>
          rw [h.control_eq hs ht hinner.1]
          exact .control c
      | host c =>
          rw [h.host_eq hinner.1]
          exact .host c
      | gateway call party answer => exact .gateway call party answer
      | outside c answer => exact .outside c answer
  | runPage id after limit =>
      have hrun : s.server.store.runs id = t.server.store.runs id := h.runs.runs id hinner.2
      have heq : s.server.store.runPage id after limit = t.server.store.runPage id after limit := by
        rw [LogStore.runPage, LogStore.runPage, hrun]
      rw [heq]
      exact .runPage id after limit
  | threads c =>
      rw [h.threads_eq hs ht hinner.1]
      exact .threads c
  | triggersOf owner =>
      obtain rfl : principal owner = k := hinner.1
      have heq : s.triggers.triggersOf owner = t.triggers.triggersOf owner := by
        rw [Triggers.triggersOf, Triggers.triggersOf, filter_is, filter_is, h.triggers_own]
      rw [heq]
      exact .triggersOf owner
  | rotateWebhook owner id =>
      obtain rfl : principal owner = k := hinner.1
      have heq : (s.triggers.rotateWebhook owner id).1 = (t.triggers.rotateWebhook owner id).1 :=
        congrArg (Option.bind · _) (trigger_eq h.triggers_own id)
      rw [heq]
      exact .rotateWebhook owner id
  | putAgent agent =>
      have heq : (s.putAgent agent).1 = (t.putAgent agent).1 := by
        simp only [Site.putAgent, h.agents _ hinner.1.2]
        split <;> rfl
      rw [heq]
      exact .putAgent agent
  | takeStream owner free => exact .takeStream owner free

/-! ### What others do -/

def withQueue (s : Site) (queue : RunQueue) : Site := { s with server := { s.server with queue := queue } }

/-- What happens at nobody's call: the Redis clock moves, a lease runs out, the leases that ran out are reaped, or a
worker claims a run and is gone. -/
inductive Moves (s : Site) : Site → Prop
  | tick (ms : Nat) : Moves s { s with server := { s.server with now := s.server.now + ms } }
  | expire (run : RunId) : Moves s (s.withQueue (s.server.queue.expire run))
  | reap : Moves s (s.withQueue s.server.queue.reap.2)
  | lost (token : Token) : Moves s (s.withQueue (s.server.queue.claim token).2)

/-- What a principal may see of others: such moves, and that an agent's id is taken by the principal that holds it. -/
inductive Stirs (holders : Holders) (k : Principal) (s : Site) : Site → Prop
  | move {t : Site} (h : Moves s t) : Stirs holders k s t
  | taken (agent : StoredAgent) (howner : principal agent.owner = holders.agent agent.manifest.id)
      (hother : principal agent.owner ≠ k) : Stirs holders k s (s.putAgent agent).2

theorem Held.withQueue (h : s.Held holders) (queue : RunQueue) : (s.withQueue queue).Held holders :=
  ⟨h.runs, h.agents, h.box⟩

theorem Shows.withQueue (h : Shows holders k s t) {queue queue' : RunQueue}
    (hqueue : RunQueue.Alike (holders.owns k) queue queue') :
    Shows holders k (s.withQueue queue) (t.withQueue queue') :=
  ⟨h.runs, h.triggers, h.agents, h.taken, hqueue, h.sandboxes, h.box⟩

theorem Held.stirs (h : s.Held holders) (hstirs : Stirs holders k s t) : t.Held holders := by
  cases hstirs with
  | move hmove =>
      cases hmove with
      | tick ms => exact ⟨h.runs, h.agents, h.box⟩
      | expire | reap | lost => exact h.withQueue _
  | taken agent howner hother => exact h.putAgent howner

/-- Claims of runs that are not the principal's, each by a worker that is gone. -/
theorem stirs_of_claims {r : RunQueue} {own : RunId → Bool} (t : Site) {q : RunQueue} (h : RunQueue.Claims own q r) :
    Relation.ReflTransGen (Stirs holders k) (t.withQueue q) (t.withQueue r) := by
  induction h with
  | refl q => exact .refl
  | @step q r id hlast hid token rest ih => exact .head (.move (.lost (s := t.withQueue q) token)) ih

/-- Claims that the principal's next run is the last in: in a queue that shows it the same, the runs of others behind
it are claimed first. -/
theorem Shows.claimed (h : Shows holders k s t) {id : RunId} (hid : holders.run id = k)
    (hlast : s.server.queue.runs.getLast? = some id) (token : Token) :
    ∃ r, Relation.ReflTransGen (Stirs holders k) t (t.withQueue r) ∧
      (s.server.queue.claim token).1 = (r.claim token).1 ∧
      RunQueue.Alike (holders.owns k) (s.server.queue.claim token).2 (r.claim token).2 := by
  have hown := owns_eq_true hid
  obtain ⟨rest, hrest⟩ := List.getLast?_eq_some_iff.mp hlast
  have hshown : (t.server.queue.runs.filter (holders.owns k)).getLast? = some id := by
    rw [← h.queue.runs, hrest, List.filter_append]
    simp [hown]
  obtain ⟨r, hclaims, hr⟩ := RunQueue.claims_to hshown token
  obtain ⟨hanswer, halike⟩ := (h.queue.trans hclaims.alike).claim hown hlast hr token
  exact ⟨r, stirs_of_claims t hclaims, hanswer, halike⟩

/-- What moves one site can move each that shows the principal the same. -/
theorem Shows.moves (h : Shows holders k s t) (hmove : Moves s u) :
    ∃ v, Relation.ReflTransGen (Stirs holders k) t v ∧ Shows holders k u v := by
  cases hmove with
  | tick ms => exact ⟨t, .refl, h.runs, h.triggers, h.agents, h.taken, h.queue, h.sandboxes, h.box⟩
  | expire run => exact ⟨_, .single (.move (.expire run)), h.withQueue (h.queue.expire run)⟩
  | reap => exact ⟨_, .single (.move .reap), h.withQueue h.queue.reap⟩
  | lost token =>
      cases hlast : s.server.queue.runs.getLast? with
      | none =>
          have hclaim : (s.server.queue.claim token).2 = s.server.queue := by simp [RunQueue.claim, hlast]
          rw [hclaim]
          exact ⟨t, .refl, h⟩
      | some id =>
          by_cases hid : holders.run id = k
          · obtain ⟨r, hstirs, -, halike⟩ := h.claimed hid hlast token
            exact ⟨_, hstirs.tail (.move (.lost (s := t.withQueue r) token)), h.withQueue halike⟩
          · have hclaim := RunQueue.alike_claim (owns_eq_false rfl (Ne.symm hid)) hlast token
            exact ⟨t, .refl, h.withQueue (hclaim.symm.trans h.queue)⟩

theorem Shows.stirs (hs : s.Held holders) (ht : t.Held holders) (h : Shows holders k s t)
    (hstirs : Stirs holders k s u) :
    ∃ v, Relation.ReflTransGen (Stirs holders k) t v ∧ Shows holders k u v := by
  cases hstirs with
  | move hmove => exact h.moves hmove
  | taken agent howner hother => exact ⟨_, .single (.taken agent howner hother), h.putAgent hs ht howner⟩

/-! ### The principals as tenants -/

/-- The ids of messages that a principal draws are its own. -/
def Draws (holders : Holders) (k : Principal) : (c : RequestCall) → c.Answer → Prop
  | .server (.outside .stamps), stamps => ∀ n, holders.message ((show Nat → Stamp from stamps) n).messageId = k
  | _, _ => True

/-- A principal's own call shows another no more than that an agent's id is taken. -/
theorem Held.step_stirs (h : s.Held holders) {c : RequestCall} {answer : c.Answer} (hown : Own holders other c)
    (hstep : s.Step c answer t) (hne : k ≠ other) :
    ∃ u, Relation.ReflTransGen (Stirs holders k) s u ∧ Shows holders k u t := by
  have hafter : ∀ now, ∃ u, Relation.ReflTransGen (Stirs holders k) s u ∧ Shows holders k u (s.after now c) := by
    intro now
    by_cases hagent : ∃ agent, c = .putAgent agent
    · obtain ⟨agent, rfl⟩ := hagent
      have hother : principal agent.owner ≠ k := fun heq => hne (heq.symm.trans hown.1)
      exact ⟨_, .single (.taken agent (hown.1.trans hown.2.symm) hother), .refl holders k _⟩
    · exact ⟨s, .refl, h.shows_other hown hne fun agent heq => hagent ⟨agent, heq⟩⟩
  cases hstep with
  | done now | lost now => exact hafter now
  | failed => exact ⟨s, .refl, .refl holders k s⟩

/-- The principals as tenants of the site. -/
def tenancy (holders : Holders) : Tenancy RequestSig Principal where
  State := Site
  Inv := Held holders
  Step k s c answer t := s.Step c answer t ∧ Draws holders k c answer
  Moves := Moves
  Stirs := Stirs holders
  Shows := Shows holders
  Own := Own holders
  shows_symm := Shows.symm
  shows_trans := Shows.trans
  step_inv h hown hstep := by
    cases hstep.1 with
    | done | lost => exact h.after hown
    | failed => exact h
  stirs_inv := Held.stirs
  moves_stirs := .move
  step_stirs h hown hstep hne := h.step_stirs hown hstep.1 hne
  stirs_shows hs ht hshows hstirs := hshows.stirs hs ht hstirs

theorem even_of_inner {c : RequestCall} (hinner : Inner holders k c) : (tenancy holders).Even k c := by
  intro s t hs ht hshows answer u hstep
  obtain ⟨hstep, hdraws⟩ := hstep
  cases hstep with
  | done now h =>
      exact ⟨t.after now c, ⟨.done now (hshows.answers hs ht hinner h), hdraws⟩, hshows.after hs ht hinner.1⟩
  | lost now h => exact ⟨t.after now c, ⟨.lost now h, hdraws⟩, hshows.after hs ht hinner.1⟩
  | failed h => exact ⟨t, ⟨.failed h, hdraws⟩, hshows⟩

end Site

end Gol
