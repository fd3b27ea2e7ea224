import Gol.ServerReach

/-! The sandboxes of Box background turns. Each attempt has a name of its own, counted by the start of its claim; a
worker ends a turn once the attempts up to its own are gone, a stop ends only a turn that never had one, and the sweep
removes only what belongs to runs that have ended. -/

namespace Gol
open Library World

variable {fleet : Fleet} {ok : Pool → Move → Prop} {s t : Server} {c : ServerCall} {answer : c.Answer}

/-! ### What is up -/

/-- A provision of this name took effect. -/
def Provisioned (trace : List Happened) (name : SandboxName) : Prop :=
  ∃ party answer, ⟨.host (.provision name party), answer, true⟩ ∈ trace

theorem Provisioned.mono {trace trace' : List Happened} {name : SandboxName} (h : Provisioned trace name)
    (hsub : trace ⊆ trace') : Provisioned trace' name := by
  obtain ⟨party, answer, hmem⟩ := h
  exact ⟨party, answer, hsub hmem⟩

/-- Only a provision brings a sandbox up. -/
theorem Server.Step.sandboxes (h : s.Step c answer t) {name : SandboxName} (hup : name ∈ t.sandboxes) :
    name ∈ s.sandboxes ∨ ∃ party answer', t.trace = ⟨.host (.provision name party), answer', true⟩ :: s.trace := by
  have hafter : ∀ now, name ∈ (s.after now c).sandboxes → name ∈ s.sandboxes ∨
      ∃ party, c = .host (.provision name party) := by
    intro now hup
    cases c with
    | host c =>
        cases c with
        | provision other party =>
            rcases List.mem_cons.mp hup with rfl | hup
            · exact .inr ⟨party, rfl⟩
            · exact .inl hup
        | destroy other party => exact .inl (List.mem_of_mem_filter hup)
        | absent | list => exact .inl hup
    | _ => exact .inl hup
  cases h with
  | done now _ _ | lost now _ _ =>
      refine (hafter now hup).imp_right ?_
      rintro ⟨party, rfl⟩
      exact ⟨party, answer, by rw [record, after_trace]⟩
  | failed _ => exact .inl hup

/-- A sandbox confirmed absent is not up. -/
theorem Server.Step.absent {name : SandboxName} {party : Party}
    (h : s.Step (.host (.absent name party)) (.ok true) t) : name ∉ t.sandboxes := by
  obtain ⟨now, -, hanswers, rfl⟩ := h.answers (by rintro ⟨⟩)
  have heq : (.ok true : Except String Bool) = .ok (decide (name ∉ s.sandboxes)) := hanswers.host_eq
  exact of_decide_eq_true (Except.ok.inj heq).symm

theorem up_provisioned {pool : Pool} (h : pool.Reach (Serves fleet) ok) {name : SandboxName}
    (hup : name ∈ pool.server.sandboxes) : Provisioned pool.server.trace name := by
  revert hup
  refine h.server_invariant (P := fun s => name ∈ s.sandboxes → Provisioned s.trace name)
    (fun hup => by cases hup) (fun _ _ h => h) (fun _ _ h => h) ?_
  intro pool c answer t _ _ _ hprovisioned hstep _ hup
  rcases hstep.sandboxes hup with hup | ⟨party, answer', htrace⟩
  · exact (hprovisioned hup).mono hstep.later.trace.subset
  · exact ⟨party, answer', by simp [htrace]⟩

/-- A sandbox that is up was provisioned after it was last found gone. -/
theorem up_since {pool : Pool} (h : pool.Reach (Serves fleet) ok) {name : SandboxName}
    (hup : name ∈ pool.server.sandboxes) {newer older : List Happened} {party : Party} {took : Bool}
    (htrace : pool.server.trace = newer ++ ⟨.host (.absent name party), .ok true, took⟩ :: older) :
    Provisioned newer name := by
  revert hup newer
  suffices hsince : ∀ newer, name ∈ pool.server.sandboxes →
      pool.server.trace = newer ++ ⟨.host (.absent name party), .ok true, took⟩ :: older → Provisioned newer name from
    fun hup newer => hsince newer hup
  refine h.server_invariant (P := fun s => ∀ newer, name ∈ s.sandboxes →
    s.trace = newer ++ ⟨.host (.absent name party), .ok true, took⟩ :: older → Provisioned newer name)
    (fun _ hup => by cases hup) (fun _ _ h => h) (fun _ _ h => h) ?_
  intro pool c answer t _ _ _ hprovisioned hstep _ newer hup htrace
  obtain ⟨took', hcons⟩ := hstep.trace_eq
  rw [hcons] at htrace
  cases newer with
  | nil =>
      obtain ⟨hhead, -⟩ := List.cons.inj htrace
      cases hhead
      exact absurd hup hstep.absent
  | cons newest newer =>
      obtain ⟨rfl, hrest⟩ := List.cons.inj htrace
      rcases hstep.sandboxes hup with hup | ⟨party', answer', htrace'⟩
      · exact (hprovisioned newer hup hrest).mono (List.subset_cons_self ..)
      · obtain ⟨hhead, -⟩ := List.cons.inj (hcons.symm.trans htrace')
        exact ⟨party', answer', by rw [hhead]; exact List.mem_cons_self ..⟩

/-! ### Who provisions -/

/-- What a provision of a run's attempt shows. -/
theorem provisioned_attempt {pool : Pool} (h : pool.Reach (Serves fleet) ok) {id : RunId} {number : Nat} {party : Party}
    {happened : Happened} (hmem : happened ∈ pool.server.trace)
    (hcall : happened.call = .host (.provision (.attempt id number) party)) :
    ∃ token spec events, party = .worker token ∧ pool.server.Started id token number ∧ number ≤ fleet.maxDeliveries ∧
      pool.server.Saw id spec events ∧ isBoxTurn spec = true ∧ .runStarted ∈ payloads events := by
  obtain ⟨newer, older, htrace⟩ := List.append_of_mem hmem
  obtain ⟨before, t, -, -, howes, hstep, -, -, hlater⟩ := h.made htrace
  have hlater := hstep.later.trans hlater
  rw [hcall] at howes
  cases party with
  | worker token =>
      obtain ⟨id', number', spec, events, hname, hstarted, hmost, hsaw, hbox, hrun⟩ := howes
      cases hname
      exact ⟨token, spec, events, rfl, hstarted.later hlater, hmost, hsaw.later hlater, hbox, hrun⟩
  | _ =>
      obtain ⟨_, _, _, hname, -⟩ := howes
      cases hname

/-- A quick turn's sandbox is no background turn's. -/
theorem provisioned_container {pool : Pool} (h : pool.Reach (Serves fleet) ok) {id : RunId} {party : Party}
    {happened : Happened} (hmem : happened ∈ pool.server.trace)
    (hcall : happened.call = .host (.provision (.container id) party)) {spec : RunSpec} {events : List Event}
    (hsaw : pool.server.Saw id spec events) : isTurn spec = false := by
  obtain ⟨newer, older, htrace⟩ := List.append_of_mem hmem
  obtain ⟨before, t, -, -, howes, hstep, -, -, hlater⟩ := h.made htrace
  have hlater := hstep.later.trans hlater
  rw [hcall] at howes
  cases party with
  | worker token =>
      obtain ⟨_, _, _, _, hname, -⟩ := howes
      cases hname
  | _ =>
      obtain ⟨_, spec', events', hname, hsaw', hturn⟩ := howes
      cases hname
      rwa [hsaw.spec_eq (hsaw'.later hlater)]

/-! ### Starts -/

/-- Only a start, an acknowledgement and a park change how often a run was started. -/
theorem RunQueue.deliveries_exec (q : RunQueue) (now : Nat) (c : QueueCall) (id : RunId) :
    (q.exec now c).2.deliveries id = q.deliveries id ∨ (∃ token, c = .start id token) ∨ (∃ token, c = .ack id token) ∨
      ∃ token ask, c = .park id token ask := by
  cases c with
  | pend other =>
      left
      simp only [exec, pend]
      split <;> rfl
  | pushOnce other gate =>
      left
      simp only [exec, pushOnce]
      split <;> rfl
  | claim token =>
      left
      simp only [exec, claim]
      split
      · rfl
      · split <;> rfl
  | release other token =>
      left
      simp only [exec, release]
      split <;> rfl
  | wake other ask =>
      left
      simp only [exec, wake]
      split <;> rfl
  | reap => exact .inl (congrFun q.reap_keeps.2.1 id)
  | start other token =>
      by_cases hid : id = other
      · exact .inr (.inl ⟨token, by rw [hid]⟩)
      · exact .inl (Function.update_of_ne hid _ _)
  | ack other token =>
      by_cases hid : id = other
      · exact .inr (.inr (.inl ⟨token, by rw [hid]⟩))
      · exact .inl (Function.update_of_ne hid _ _)
  | park other token ask =>
      by_cases hid : id = other
      · exact .inr (.inr (.inr ⟨token, ask, by rw [hid]⟩))
      · left
        simp only [exec, park]
        split
        · exact Function.update_of_ne hid _ _
        · rfl
  | push | pendingFor | queuedOrClaimed | unpend | renew | parked => exact .inl rfl

/-- A start answered with its number took it. -/
theorem Server.Step.started {id : RunId} {token : Token} {number : Nat}
    (h : s.Step (.queue (.start id token)) (.ok number) t) :
    number = s.queue.deliveries id + 1 ∧ t.queue.deliveries id = number := by
  obtain ⟨now, -, hanswers, rfl⟩ := h.answers (by rintro ⟨⟩)
  have heq : (.ok number : Except String Nat) = .ok (s.queue.deliveries id + 1) := hanswers.queue_eq
  obtain rfl := Except.ok.inj heq
  exact ⟨rfl, Function.update_self ..⟩

/-- A start that the calls show was counted before, or takes the next number now. -/
theorem Server.Step.newStart (h : s.Step c answer t) {id : RunId} {token : Token} {number : Nat}
    (hstarted : t.Started id token number) :
    s.Started id token number ∨
      c = .queue (.start id token) ∧ number = s.queue.deliveries id + 1 ∧ t.queue.deliveries id = number := by
  obtain ⟨took, hmem⟩ := hstarted
  obtain ⟨took', htrace⟩ := h.trace_eq
  rw [htrace] at hmem
  rcases List.mem_cons.mp hmem with heq | hmem
  · cases heq
    exact .inr ⟨rfl, h.started⟩
  · exact .inl ⟨took, hmem⟩

/-- The run is a background turn that has not ended, if it is stored. -/
def Server.OpenTurn (s : Server) (id : RunId) : Prop :=
  ∀ run, s.store.runs id = some run → isTurn run.spec = true ∧ hasEnded run.events = false

theorem Server.OpenTurn.before {id : RunId} (h : t.OpenTurn id) (hlater : s.Later t) : s.OpenTurn id := by
  intro run hrun
  obtain ⟨more, hmore⟩ := hlater.store id run hrun
  obtain ⟨hturn, hopen⟩ := h _ hmore
  refine ⟨hturn, ?_⟩
  simp only [hasEnded_append, Bool.or_eq_false_iff] at hopen
  exact hopen.1

theorem Server.OpenTurn.not_ended {id : RunId} (h : s.OpenTurn id) : ¬ s.Ended id := by
  rintro ⟨run, hrun, hended⟩
  simp [(h run hrun).2] at hended

/-- While a turn is open its starts are numbered upwards, each with a number of its own. -/
structure Server.Numbers (s : Server) (id : RunId) : Prop where
  counted : ∀ token number, s.Started id token number → 1 ≤ number ∧ number ≤ s.queue.deliveries id
  unique : ∀ token token' number, s.Started id token number → s.Started id token' number → token = token'

/-- The starts of an open turn are never forgotten: it is not acknowledged, and a turn is not parked. -/
theorem Server.Step.deliveries_le {pends : Bool} {id : RunId} (h : s.Step c answer t) (howes : Owes fleet pends s c)
    (hopen : s.OpenTurn id) : s.queue.deliveries id ≤ t.queue.deliveries id := by
  rcases h.queue with hsame | ⟨script, rfl, hexec⟩
  · rw [hsame]
  · rw [hexec]
    rcases s.queue.deliveries_exec s.now script id with hsame | ⟨token, rfl⟩ | ⟨token, rfl⟩ | ⟨token, ask, rfl⟩
    · exact hsame.ge
    · simp [RunQueue.exec, RunQueue.start]
    · exact absurd howes.2 hopen.not_ended
    · obtain ⟨-, spec, events, hsaw, hturn, -⟩ := howes
      obtain ⟨more, hstored⟩ := hsaw.stored
      have hturn' : isTurn spec = true := (hopen _ hstored).1
      simp [hturn] at hturn'

theorem openTurn_numbers {pool : Pool} (h : pool.Reach (Serves fleet) ok) (id : RunId)
    (hopen : pool.server.OpenTurn id) :
    pool.server.Numbers id := by
  revert hopen
  refine h.server_invariant (P := fun s => s.OpenTurn id → s.Numbers id) (fun _ => ?_)
    (fun _ _ h => ?_) (fun _ _ h => ?_) ?_
  · exact ⟨fun _ _ ⟨_, hmem⟩ => (List.not_mem_nil hmem).elim, fun _ _ _ ⟨_, hmem⟩ => (List.not_mem_nil hmem).elim⟩
  · exact fun hopen => ⟨(h hopen).counted, (h hopen).unique⟩
  · exact fun hopen => ⟨(h hopen).counted, (h hopen).unique⟩
  · intro pool c answer t _ _ howes hnumbers hstep _ hopen
    have hbefore := hnumbers (hopen.before hstep.later)
    have hle := hstep.deliveries_le howes (hopen.before hstep.later)
    -- A new start takes the number after all those before it.
    constructor
    · intro token number hstarted
      rcases hstep.newStart hstarted with hold | ⟨-, hnumber, hcount⟩
      · have hcounted := hbefore.counted token number hold
        omega
      · omega
    · intro token token' number hstarted hstarted'
      rcases hstep.newStart hstarted with hold | ⟨hc, hnumber, -⟩ <;>
        rcases hstep.newStart hstarted' with hold' | ⟨hc', hnumber', -⟩
      · exact hbefore.unique token token' number hold hold'
      · have hcounted := hbefore.counted token number hold
        omega
      · have hcounted := hbefore.counted token' number hold'
        omega
      · rw [hc] at hc'
        cases hc'
        rfl

/-- A start counts from one. -/
theorem started_pos {pool : Pool} (h : pool.Reach (Serves fleet) ok) {id : RunId} {token : Token} {number : Nat}
    (hstarted : pool.server.Started id token number) : 1 ≤ number := by
  obtain ⟨took, hmem⟩ := hstarted
  obtain ⟨newer, older, htrace⟩ := List.append_of_mem hmem
  obtain ⟨before, t, -, -, -, hstep, -, -, -⟩ := h.made htrace
  have hnumber := hstep.started.1
  omega

/-! ### How background turns end -/

/-- A run's log ends with a batch that `party` appended, to a log as long as it had read. -/
def Server.EndedBy (s : Server) (id : RunId) (party : Party) : Prop :=
  ∃ spec before seen batch happened, s.store.runs id = some ⟨spec, before ++ batch⟩ ∧ happened ∈ s.trace ∧
    happened.call.appends = some (id, seen, batch, party) ∧ (∀ length, seen = some length → length = before.length) ∧
      hasEnded batch = true

/-- A sandbox provisioned after the claim found it gone. -/
def Server.Since (s : Server) (name : SandboxName) (token : Token) : Prop :=
  ∃ newer older took, s.trace = newer ++ ⟨.host (.absent name (.worker token)), .ok true, took⟩ :: older ∧
    Provisioned newer name

/-- A process waits to provision this name for a claim, or did. -/
def Pool.Provisions (pool : Pool) (name : SandboxName) (token : Token) : Prop :=
  (∃ p ∈ pool.processes, p.Waits (.host (.provision name (.worker token)))) ∨
    ∃ answer took, ⟨.host (.provision name (.worker token)), answer, took⟩ ∈ pool.server.trace

/-- A claim whose attempts up to its own are gone leaves up only what came later. -/
theorem cleaned_up {pool : Pool} (h : pool.Reach (Serves fleet) ok) {id : RunId} {spec : RunSpec} {events : List Event}
    {token : Token} {number : Nat} (hsaw : pool.server.Saw id spec events) (hturn : isTurn spec = true)
    (hcleaned : pool.server.Cleaned id token (min number fleet.maxDeliveries)) {name : SandboxName}
    (hname : boxRunOf name = some id) (hup : name ∈ pool.server.sandboxes) :
    pool.server.Since name token ∨ ∃ attempt, name = .attempt id attempt ∧ number < attempt := by
  obtain ⟨party, answer, hmem⟩ := up_provisioned h hup
  cases name with
  | other => cases hname
  | container run =>
      cases hname
      simp [provisioned_container h hmem rfl hsaw] at hturn
  | attempt run attempt =>
      cases hname
      obtain ⟨other, _, _, -, hstarted, hmost, -⟩ := provisioned_attempt h hmem rfl
      by_cases hlater : number < attempt
      · exact .inr ⟨attempt, rfl, hlater⟩
      · obtain ⟨took, habsent⟩ := hcleaned attempt (started_pos h hstarted) (by omega)
        obtain ⟨newer, older, htrace⟩ := List.append_of_mem habsent
        exact .inl ⟨newer, older, took, htrace, up_since h hup htrace⟩

/-- A stop ends a background turn only while no worker has started it. -/
theorem stopped_unstarted {pool : Pool} (h : pool.Reach (Serves fleet) ok) {id : RunId} {run : StoredRun}
    (hended : pool.server.EndedBy id .stop) (hrun : pool.server.store.runs id = some run)
    (hturn : isTurn run.spec = true) :
    .runStarted ∉ payloads run.events := by
  obtain ⟨spec, before, seen, batch, happened, hstored, hmem, happends, hseen, -⟩ := hended
  obtain rfl : run = ⟨spec, before ++ batch⟩ := Option.some.inj (hrun.symm.trans hstored)
  obtain ⟨newer, older, htrace⟩ := List.append_of_mem hmem
  obtain ⟨asked, t, hasked, -, howes, hstep, -, -, hlater⟩ := h.made htrace
  obtain ⟨spec', events, hsaw, rfl, hdispatch, hbatch⟩ := howes.writes happends
  have hlater := hstep.later.trans hlater
  obtain ⟨more, hmore⟩ := (hsaw.later hlater).stored
  rw [hrun, Option.some.injEq, StoredRun.mk.injEq] at hmore
  obtain ⟨rfl, hevents⟩ := hmore
  obtain rfl : before = events := List.append_inj_left hevents (hseen _ rfl).symm
  have hunstarted : .runStarted ∉ payloads before → .runStarted ∉ payloads (before ++ batch) := by
    intro hbefore
    simp [payloads_append, hbatch, hbefore]
  rcases hdispatch with hcreated | hqueued | ⟨parked, hparked, hid⟩
  · have hphase : dispatchOf spec (payloads before) = .created := hcreated
    exact hunstarted (hsaw.sane.agrees.unstarted (by rw [hphase]; rfl) (by rw [hphase]; rfl))
  · have hphase : dispatchOf spec (payloads before) = .queued := hqueued
    exact hunstarted (hsaw.sane.agrees.unstarted (by rw [hphase]; rfl) (by rw [hphase]; rfl))
  · obtain ⟨took, hmem'⟩ := hparked
    obtain ⟨spec', events', hsaw', hturn'⟩ := hasked.sound.told _ hmem' id hid
    rw [hsaw.spec_eq hsaw'] at hturn
    simp [hturn'] at hturn

/-- A background turn in a Box ends clean. Whenever a worker is about to append its terminal event, each of its
sandboxes that is up was provisioned after the worker's own cleanup found that name gone, or is of an attempt numbered
above the worker's. A turn that a stop ended never had a sandbox. While the log is open no two claims provision one
attempt. The sandbox sweep removes sandboxes and volumes only of runs that have ended. -/
theorem boxTurns_end_clean (fleet : Fleet) {pool : Pool} (h : pool.Reach (Serves fleet) anyMove) :
    (∀ p ∈ pool.processes, ∀ c, p.Waits c → ∀ id seen batch token, c.appends = some (id, seen, batch, .worker token) →
      hasEnded batch = true → ∀ run, pool.server.store.runs id = some run → isBoxTurn run.spec = true →
        ∃ number, pool.server.Started id token number ∧ ∀ name ∈ pool.server.sandboxes, boxRunOf name = some id →
          pool.server.Since name token ∨ ∃ attempt, name = .attempt id attempt ∧ number < attempt) ∧
    (∀ id run, pool.server.store.runs id = some run → isBoxTurn run.spec = true → pool.server.EndedBy id .stop →
      ∀ name, boxRunOf name = some id →
        ∀ happened ∈ pool.server.trace, ∀ party, happened.call ≠ .host (.provision name party)) ∧
    (∀ id run, pool.server.store.runs id = some run → isBoxTurn run.spec = true → hasEnded run.events = false →
      ∀ attempt token token', pool.Provisions (.attempt id attempt) token →
        pool.Provisions (.attempt id attempt) token' → token = token') ∧
    ∀ p ∈ pool.processes,
      (∀ name, p.Waits (.host (.destroy name .sweep)) → ∃ id, boxRunOf name = some id ∧ pool.server.Ended id) ∧
      ∀ id, p.Waits (.outside (.removeVolume id)) → pool.server.Ended id := by
  have hturns : ∀ {spec : RunSpec}, isBoxTurn spec = true → isTurn spec = true := fun hbox => by
    simp only [isBoxTurn, Bool.and_eq_true] at hbox
    exact hbox.1
  refine ⟨?_, ?_, ?_, fun p hp => ⟨fun name hwaits => h.owes hp hwaits, fun id hwaits => h.owes hp hwaits⟩⟩
  · intro p hp c hwaits id seen batch token hc hends run hrun hbox
    obtain ⟨spec, events, number, -, hstarted, hsaw, -, -, hcleaned, -⟩ := (h.owes hp hwaits).writes hc
    obtain ⟨rfl, -⟩ := hsaw.at hrun
    exact ⟨number, hstarted, fun name hup hname => cleaned_up h hsaw (hturns hbox) (hcleaned hends hbox) hname hup⟩
  · intro id run hrun hbox hended name hname happened hmem party hcall
    have hunstarted := stopped_unstarted h hended hrun (hturns hbox)
    obtain ⟨hnamed, hsane⟩ := h.sound.logs id run hrun
    have hsaw : pool.server.Saw id run.spec run.events := ⟨⟨[], by simp [hrun]⟩, hnamed, hsane⟩
    cases name with
    | other => cases hname
    | container =>
        cases hname
        have hturn := hturns hbox
        simp [provisioned_container h hmem hcall hsaw] at hturn
    | attempt =>
        cases hname
        obtain ⟨_, _, events, -, -, -, hsaw', -, hstarted⟩ := provisioned_attempt h hmem hcall
        obtain ⟨-, more, hmore⟩ := hsaw'.at hrun
        exact hunstarted (by rw [← hmore, payloads_append]; exact List.mem_append_left _ hstarted)
  · intro id run hrun hbox hopen attempt token token' hprovisions hprovisions'
    have hstarted : ∀ token, pool.Provisions (.attempt id attempt) token → pool.server.Started id token attempt := by
      rintro token (⟨p, hp, hwaits⟩ | ⟨answer, took, hmem⟩)
      · obtain ⟨id', number, _, _, hname, hstarted, -⟩ := h.owes hp hwaits
        cases hname
        exact hstarted
      · obtain ⟨_, _, _, hparty, hstarted, -⟩ := provisioned_attempt h hmem rfl
        cases hparty
        exact hstarted
    have hturn : pool.server.OpenTurn id := fun run' hrun' => by
      obtain rfl : run = run' := Option.some.inj (hrun.symm.trans hrun')
      exact ⟨hturns hbox, hopen⟩
    exact (openTurn_numbers h id hturn).unique token token' attempt (hstarted token hprovisions)
      (hstarted token' hprovisions')

/-- A background turn in a Box. -/
def boxTurn : RunSpec := { RunSpec.plain 1 ⟨8, 4⟩ with placement := .box, metadata := [(turnKey, "1")] }

/-- A background turn is queued, and a worker has provisioned its sandbox, run it and removed the sandbox again. -/
def workedBox : List Pool.Turn :=
  .spawn (forget (enqueue boxTurn .request .endRun)) :: Pool.calls 0 4 (.complete "done") ++
  .spawn (forget (Worker.plain.workOne 7)) :: Pool.calls 0 24 (.complete "done")

theorem serves_workedBox : ∀ p ∈ Pool.started workedBox, Serves .plain p := by
  intro p hp
  rcases hp with _ | ⟨_, _ | ⟨_, hp⟩⟩
  · exact .enqueue _ _ rfl
  · exact .work _ _ rfl
  · cases hp

/-- The process is about to append the end of this run. -/
def endsRun (run : RunId) : Prog ServerSig Unit → Bool
  | .call (.store (.appendEvents id batch (.worker _))) _ => id = run && hasEnded batch
  | _ => false

theorem waits_of_endsRun {run : RunId} {p : Prog ServerSig Unit} (h : endsRun run p = true) :
    ∃ c, p.Waits c ∧ ∃ seen batch token, c.appends = some (run, seen, batch, .worker token) ∧
      hasEnded batch = true := by
  unfold endsRun at h
  split at h
  · next id batch token next =>
      simp only [Bool.and_eq_true, decide_eq_true_eq] at h
      obtain ⟨rfl, hended⟩ := h
      exact ⟨_, ⟨next, rfl⟩, none, batch, token, rfl, hended⟩
  · cases h

theorem boxTurns_end_clean_worked :
    ∃ pool : Pool, pool.Reach (Serves .plain) anyMove ∧
      (∃ happened ∈ pool.server.trace, ∃ party, happened.call = .host (.provision (.attempt ⟨1⟩ 1) party)) ∧
      ∃ number token, pool.server.Started ⟨1⟩ token number ∧ ∀ name ∈ pool.server.sandboxes, boxRunOf name = some ⟨1⟩ →
        pool.server.Since name token ∨ ∃ attempt, name = .attempt ⟨1⟩ attempt ∧ number < attempt := by
  obtain ⟨pool, hreach, hshows⟩ := Pool.reached_of_any workedBox
    (fun pool => pool.processes.any (endsRun ⟨1⟩) &&
      (pool.server.trace.any fun happened => match happened.call with
        | .host (.provision name _) => name = .attempt ⟨1⟩ 1
        | _ => false) &&
      (pool.server.store.runs ⟨1⟩).any fun run => isBoxTurn run.spec) (by decide +kernel) serves_workedBox
  simp only [Bool.and_eq_true, List.any_eq_true, Option.any_eq_true] at hshows
  obtain ⟨⟨⟨p, hp, hends⟩, happened, hmem, hprovision⟩, run, hrun, hbox⟩ := hshows
  obtain ⟨c, hwaits, seen, batch, token, hc, hended⟩ := waits_of_endsRun hends
  obtain ⟨number, hstarted, hclean⟩ :=
    (boxTurns_end_clean .plain hreach).1 p hp c hwaits ⟨1⟩ seen batch token hc hended run hrun hbox
  refine ⟨pool, hreach, ⟨happened, hmem, ?_⟩, number, token, hstarted, hclean⟩
  split at hprovision
  · next name party hcall =>
      obtain rfl : name = .attempt ⟨1⟩ 1 := by simpa using hprovision
      exact ⟨party, hcall⟩
  · cases hprovision

end Gol
