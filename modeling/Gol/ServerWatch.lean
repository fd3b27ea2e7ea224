import Gol.LibraryFacts
import Gol.ServerLogs
import Gol.ServerPool

/-! What the server's programs owe. A program learns of the server by its calls: the trace keeps what it was answered,
and a log it read stays the beginning of the stored one. `Owes` says what must be known at each call: a push is of a
stored run, an acknowledgement of one that has ended, an append one of its writer's. `Sound` is what such calls keep:
every stored log is sane, the queue carries only stored runs, and what was answered stays true. -/

namespace Gol
open Library

namespace Server

/-- The call was made and answered so. -/
def Asked (s : Server) (c : ServerCall) (answer : c.Answer) : Prop := ∃ took, ⟨c, answer, took⟩ ∈ s.trace

/-- The store has kept this log for `id`, and may have added to it since. -/
structure Saw (s : Server) (id : RunId) (spec : RunSpec) (events : List Event) : Prop where
  stored : ∃ more, s.store.runs id = some ⟨spec, events ++ more⟩
  named : spec.runId = id
  sane : Sane spec events

/-- The run was seen waiting, as its producer stored it. -/
def Waits (s : Server) (id : RunId) : Prop := ∃ spec events, s.Saw id spec events ∧ stillWaiting events = true

def Ended (s : Server) (id : RunId) : Prop := ∃ run, s.store.runs id = some run ∧ hasEnded run.events = true

/-- The claim `token` is one of `id`. -/
def Claimed (s : Server) (id : RunId) (token : Token) : Prop := s.Asked (.queue (.claim token)) (.ok (some id))

/-- The claim's start of `id` was counted as the `number`-th. -/
def Started (s : Server) (id : RunId) (token : Token) (number : Nat) : Prop :=
  s.Asked (.queue (.start id token)) (.ok number)

/-- Since its claim, the worker has read an open log of `id`. -/
def Opened (s : Server) (id : RunId) (token : Token) : Prop :=
  ∃ newer older run took took', s.trace = newer ++ ⟨.store (.run id), .ok (some run), took⟩ :: older ∧
    hasEnded run.events = false ∧ ⟨.queue (.claim token), .ok (some id), took'⟩ ∈ older

/-- The calls show that `id` was stored: a put of it was answered, or a read of it found it. -/
def Shown (trace : List Happened) (id : RunId) : Prop :=
  (∃ run origin done took, ⟨.store (.putRun run origin), .ok done, took⟩ ∈ trace ∧ run.spec.runId = id) ∨
    ∃ run took, ⟨.store (.run id), .ok (some run), took⟩ ∈ trace

/-- The gate was read open, and the run was stored before. -/
def Gated (s : Server) (id : RunId) (gate : FireGate) : Prop :=
  ∃ newer older trigger took,
    s.trace = newer ++ ⟨.control (.trigger gate.owner gate.trigger), some (.ok (some trigger)), took⟩ :: older ∧
      trigger.enabled = true ∧ trigger.generation = gate.generation ∧ Shown older id

/-- The claim has found the sandboxes of the run's first `count` attempts gone. -/
def Cleaned (s : Server) (id : RunId) (token : Token) (count : Nat) : Prop :=
  ∀ attempt, 1 ≤ attempt → attempt ≤ count →
    s.Asked (.host (.absent (.attempt id attempt) (.worker token))) (.ok true)

/-- A settle held the run: its cancel was stored, or the run had ended. -/
def HeldFire (s : Server) (id : RunId) : Prop :=
  ∃ batch done, payloads batch = [.runCancelled] ∧ (done = .appended ∨ done = .terminal) ∧
    s.Asked (.store (.appendEvents id batch .settle)) (.ok done)

/-- A program read this trigger: by its id, among the due ones, or among those without a tick. -/
def ReadTrigger (s : Server) (trigger : StoredTrigger) : Prop :=
  (∃ owner id, s.Asked (.control (.trigger owner id)) (some (.ok (some trigger)))) ∨
    (∃ nowMs limit, ∃ due : List StoredTrigger,
      s.Asked (.control (.dueTriggers nowMs limit)) (some (.ok due)) ∧ trigger ∈ due) ∨
    ∃ limit, ∃ unscheduled : List StoredTrigger,
      s.Asked (.control (.unscheduledTriggers limit)) (some (.ok unscheduled)) ∧ trigger ∈ unscheduled

/-- A program read this time. -/
def ReadTime (s : Server) (ms : Int64) : Prop :=
  s.Asked (.outside .redisNow) (.ok ms) ∨ s.Asked (.outside .timestampNow) ms

/-! ### Later states -/

/-- The store's logs and the trace have only grown. -/
structure Later (s t : Server) : Prop where
  store : s.store.Grows t.store
  trace : s.trace <:+ t.trace

theorem Later.refl (s : Server) : s.Later s := ⟨.refl _, List.suffix_refl _⟩

theorem Later.trans {s t u : Server} (h : s.Later t) (h' : t.Later u) : s.Later u :=
  ⟨h.store.trans h'.store, h.trace.trans h'.trace⟩

variable {s t : Server}

theorem Asked.later {c : ServerCall} {answer : c.Answer} (h : s.Asked c answer) (hlater : s.Later t) :
    t.Asked c answer := by
  obtain ⟨took, hmem⟩ := h
  exact ⟨took, hlater.trace.subset hmem⟩

theorem ReadTrigger.later {trigger : StoredTrigger} (h : s.ReadTrigger trigger) (hlater : s.Later t) :
    t.ReadTrigger trigger := by
  rcases h with ⟨owner, id, h⟩ | ⟨nowMs, limit, due, h, hmem⟩ | ⟨limit, unscheduled, h, hmem⟩
  · exact .inl ⟨owner, id, h.later hlater⟩
  · exact .inr (.inl ⟨nowMs, limit, due, h.later hlater, hmem⟩)
  · exact .inr (.inr ⟨limit, unscheduled, h.later hlater, hmem⟩)

theorem ReadTime.later {ms : Int64} (h : s.ReadTime ms) (hlater : s.Later t) : t.ReadTime ms :=
  h.imp (·.later hlater) (·.later hlater)

theorem Saw.later {id : RunId} {spec : RunSpec} {events : List Event} (h : s.Saw id spec events) (hlater : s.Later t) :
    t.Saw id spec events := by
  obtain ⟨⟨more, hstored⟩, hnamed, hsane⟩ := h
  obtain ⟨rest, hrest⟩ := hlater.store id _ hstored
  exact ⟨⟨more ++ rest, by simpa using hrest⟩, hnamed, hsane⟩

theorem Ended.later {id : RunId} (h : s.Ended id) (hlater : s.Later t) : t.Ended id := by
  obtain ⟨run, hstored, hended⟩ := h
  obtain ⟨more, hmore⟩ := hlater.store id run hstored
  exact ⟨_, hmore, by simp [hended]⟩

theorem Opened.later {id : RunId} {token : Token} (h : s.Opened id token) (hlater : s.Later t) : t.Opened id token := by
  obtain ⟨newer, older, run, took, took', htrace, hopen, hclaim⟩ := h
  obtain ⟨newest, hnewest⟩ := hlater.trace
  exact ⟨newest ++ newer, older, run, took, took', by rw [← hnewest, htrace, List.append_assoc], hopen, hclaim⟩

theorem Shown.mono {trace trace' : List Happened} {id : RunId} (h : Shown trace id) (hsub : trace ⊆ trace') :
    Shown trace' id := by
  rcases h with ⟨run, origin, done, took, hmem, hid⟩ | ⟨run, took, hmem⟩
  · exact .inl ⟨run, origin, done, took, hsub hmem, hid⟩
  · exact .inr ⟨run, took, hsub hmem⟩

theorem Gated.later {id : RunId} {gate : FireGate} (h : s.Gated id gate) (hlater : s.Later t) : t.Gated id gate := by
  obtain ⟨newer, older, trigger, took, htrace, hopen⟩ := h
  obtain ⟨newest, hnewest⟩ := hlater.trace
  exact ⟨newest ++ newer, older, trigger, took, by rw [← hnewest, htrace, List.append_assoc], hopen⟩

theorem Cleaned.later {id : RunId} {token : Token} {count : Nat} (h : s.Cleaned id token count) (hlater : s.Later t) :
    t.Cleaned id token count :=
  fun attempt hfirst hlast => (h attempt hfirst hlast).later hlater

theorem HeldFire.later {id : RunId} (h : s.HeldFire id) (hlater : s.Later t) : t.HeldFire id := by
  obtain ⟨batch, done, hbatch, hdone, hasked⟩ := h
  exact ⟨batch, done, hbatch, hdone, hasked.later hlater⟩

theorem Saw.ended {id : RunId} {spec : RunSpec} {events : List Event} (h : s.Saw id spec events)
    (hended : hasEnded events = true) : s.Ended id := by
  obtain ⟨more, hstored⟩ := h.stored
  exact ⟨_, hstored, by simp [hended]⟩

/-- Two logs kept for one run begin alike. -/
theorem Saw.eq_of_length {id : RunId} {spec spec' : RunSpec} {events events' : List Event} (h : s.Saw id spec events)
    (h' : s.Saw id spec' events') (hlength : events.length = events'.length) : spec = spec' ∧ events = events' := by
  obtain ⟨more, hstored⟩ := h.stored
  obtain ⟨more', hstored'⟩ := h'.stored
  rw [hstored, Option.some.injEq, StoredRun.mk.injEq] at hstored'
  exact ⟨hstored'.1, List.append_inj_left hstored'.2 hlength⟩

theorem Saw.spec_eq {id : RunId} {spec spec' : RunSpec} {events events' : List Event} (h : s.Saw id spec events)
    (h' : s.Saw id spec' events') : spec = spec' := by
  obtain ⟨more, hstored⟩ := h.stored
  obtain ⟨more', hstored'⟩ := h'.stored
  rw [hstored, Option.some.injEq, StoredRun.mk.injEq] at hstored'
  exact hstored'.1

end Server

/-! ### What a writer owes -/

/-- What a worker adds to the log `events` it knows, by an append that finds the log so (`after`) or any. -/
inductive WorkerWrites (spec : RunSpec) (events batch : List Event) (after : Bool) : Prop
  | ended (payload : EventPayload)
      (hpayload : payload = .runCancelled ∨ ∃ cls message, payload = .runFailed cls message)
      (hbatch : payloads batch = [payload])
  | scheduled (hafter : after = true) (hqueued : (fold spec events).dispatch = .queued)
      (hbatch : payloads batch = [.runScheduled, .runProvisioning, .runStarting])
  | begun (hafter : after = true) (hturn : isTurn spec = true) (hgateway : spec.workModel.credential = .platformGateway)
      (hstarting : (fold spec events).dispatch = .starting) (hbatch : payloads batch = [.runStarted])
  | completed (hturn : isTurn spec = true) (hstarted : .runStarted ∈ payloads events) (message : ModelMessage)
      (usage : Option Usage) (text : String)
      (hbatch : payloads batch = [.modelResponded message usage, .runCompleted text])
  | drove (hafter : after = true) (hturn : isTurn spec = false) (hends : EndsAtTerminal (events ++ batch))
      (hagrees : Agrees spec (payloads (events ++ batch)))
      (hdriven : ∀ payload ∈ payloads batch, isDriven payload = true)

/-- The replies to an ask, and its timeout. -/
def answersAsk : EventPayload → Bool
  | .messageReceived _ _ _ _ (some _) | .askTimedOut _ => true
  | _ => false

/-- What `party` may append to `id`'s log, to one as long as `seen` or to any. -/
def Writes (fleet : Fleet) (s : Server) (id : RunId) (seen : Option Nat) (batch : List Event) : Party → Prop
  | .producer => seen = none ∧ ∃ cls message, payloads batch = [.runFailed cls message]
  | .settle => seen = none ∧ payloads batch = [.runCancelled]
  | .delivery =>
      seen = none ∧ ∃ spec events ask answer, s.Saw id spec events ∧ hasEnded events = false ∧
        askState events ask = .open ∧ answersAsk answer = true ∧ payloads batch = [answer]
  | .user =>
      ∃ spec events question text, s.Saw id spec events ∧ seen = some events.length ∧
        openQuestion spec events = some question ∧ payloads batch = [.userAnswered question text]
  | .stop =>
      ∃ spec events, s.Saw id spec events ∧ seen = some events.length ∧
        ((fold spec events).dispatch = .created ∨ (fold spec events).dispatch = .queued ∨
          ∃ parked, s.Asked (.queue .parked) (.ok parked) ∧ id ∈ parked.map Prod.fst) ∧
        payloads batch = [.runCancelled]
  | .request =>
      seen = none ∧ ((∃ cls message, payloads batch = [.runFailed cls message]) ∨
        ∃ spec events message usage text, s.Saw id spec events ∧ .runStarted ∈ payloads events ∧
          payloads batch = [.modelResponded message usage, .runCompleted text])
  | .sweep => False
  | .worker token =>
      ∃ spec events number, s.Claimed id token ∧ s.Started id token number ∧ s.Saw id spec events ∧
        hasEnded events = false ∧ (∀ length, seen = some length → length = events.length) ∧
        (hasEnded batch = true → isBoxTurn spec = true → s.Cleaned id token (min number fleet.maxDeliveries)) ∧
        WorkerWrites spec events batch seen.isSome

/-- The run a fire stores: one of a trigger that it read running, under the id its key derives. -/
def FiredAs (u : Uuids) (s : Server) (spec : RunSpec) : Prop :=
  ∃ owner id trigger agent drawn key, s.Asked (.control (.trigger owner id)) (some (.ok (some trigger))) ∧
    trigger.enabled = true ∧ spec = keyed (runOf u trigger agent drawn) key ∧
      (∀ run tick, key = some (.tick run tick) → run = u.tickRun id tick) ∧
      ∀ run event body, key = some (.event run event body) → run = u.eventRun id event

/-- What a program may store. Only a fire marks its run with a trigger. -/
def Puts (fleet : Fleet) (s : Server) (run : StoredRun) : Origin → Prop
  | .request =>
      run.spec.metadataGet triggerKey = none ∧
        ((∃ stamps, run.events = queuedEvents run.spec stamps) ∨
          isTurn run.spec = false ∧ ∃ stamps, run.events = openEvents run.spec stamps)
  | .fire => (∃ stamps, run.events = queuedEvents run.spec stamps) ∧ FiredAs fleet.uuids s run.spec
  | .child _ =>
      run.spec.metadataGet triggerKey = none ∧ isTurn run.spec = false ∧
        ∃ stamps, run.events = queuedEvents run.spec stamps

/-! ### What a call owes -/

/-- The run is pending, or the queue carries it, or it has ended. -/
def Server.Secured (s : Server) (id : RunId) : Prop := s.queue.IsPending id ∨ s.queue.Carries id ∨ s.Ended id

/-- The first tick of a trigger after a time. -/
def TriggerKind.tickAfter (nextTick : NextTick) (ms : Int64) : TriggerKind → Option Int64
  | .schedule cron timeZone => (nextTick cron timeZone ms).toOption
  | .webhook _ => none

/-- A trigger's first tick after a time that was read. -/
def Server.Timed (s : Server) (fleet : Fleet) (kind : TriggerKind) (tick : Int64) : Prop :=
  ∃ ms, s.ReadTime ms ∧ kind.tickAfter fleet.nextTick ms = some tick

theorem Server.Timed.later {s t : Server} {fleet : Fleet} {kind : TriggerKind} {tick : Int64}
    (h : s.Timed fleet kind tick) (hlater : s.Later t) : t.Timed fleet kind tick := by
  obtain ⟨ms, hread, htick⟩ := h
  exact ⟨ms, hread.later hlater, htick⟩

/-- A run stored as queued. -/
def StoredRun.wasQueued (run : StoredRun) : Bool := run.events[1]?.any fun event => event.payload = .runQueued

/-- What a program of the server owes at a call; with `pends`, a queued run is stored only while it is secured. -/
def Owes (fleet : Fleet) (pends : Bool) (s : Server) : ServerCall → Prop
  | .queue (.push id) => s.Waits id ∧ ∃ spec events, s.Saw id spec events ∧ spec.metadataGet triggerKey = none
  | .queue (.pushOnce id gate) => s.Waits id ∧ ∃ key, gate = some key ∧ s.Gated id key
  | .queue (.unpend id (some events)) =>
      s.Ended id ∨ (∃ spec, s.Saw id spec events ∧ stillWaiting events = false) ∨
        s.Asked (.queue (.queuedOrClaimed id)) (.ok true)
  | .queue (.start id token) => s.Opened id token
  | .queue (.release id token) => s.Claimed id token
  | .queue (.park id token ask) =>
      s.Claimed id token ∧ ∃ spec events, s.Saw id spec events ∧ isTurn spec = false ∧ askState events ask = .open
  | .queue (.ack id token) => s.Claimed id token ∧ s.Ended id
  | .store (.putRun run origin) =>
      Puts fleet s run origin ∧ (pends = true → run.wasQueued = true → s.Secured run.spec.runId)
  | .store (.appendEvents id batch party) => Writes fleet s id none batch party
  | .store (.appendEventsAfter id seen batch party) => Writes fleet s id (some seen) batch party
  | .control (.putTrigger trigger _) =>
      trigger.enabled = true ∧ trigger.generation = 0 ∧
        ∀ tick, trigger.nextFireMs = some tick → s.Timed fleet trigger.kind tick
  | .control (.setEnabled _ _ enabled) => enabled = false
  | .control (.resumeTrigger _ id next) =>
      ∃ trigger, s.ReadTrigger trigger ∧ trigger.id = id ∧ match next with
        | some tick => s.Timed fleet trigger.kind tick
        | none => ∃ rotation, trigger.kind = .webhook rotation
  | .control (.advanceTrigger id due next) =>
      ∃ trigger ms, s.ReadTrigger trigger ∧ trigger.id = id ∧ s.ReadTime ms ∧ (∀ tick, due = some tick → tick ≤ ms) ∧
        ∀ tick, next = some tick → trigger.kind.tickAfter fleet.nextTick ms = some tick
  | .host (.provision name party) =>
      match party with
      | .worker token =>
          ∃ id number spec events, name = .attempt id number ∧ s.Started id token number ∧
            number ≤ fleet.maxDeliveries ∧ s.Saw id spec events ∧ isBoxTurn spec = true ∧ .runStarted ∈ payloads events
      | _ => ∃ id spec events, name = .container id ∧ s.Saw id spec events ∧ isTurn spec = false
  | .host (.destroy name party) =>
      match party with
      | .worker token => ∃ id attempt number, name = .attempt id attempt ∧ attempt ≤ number ∧ s.Started id token number
      | .sweep => ∃ id, boxRunOf name = some id ∧ s.Ended id
      | _ => ∃ id, name = .container id
  | .outside (.removeVolume run) => s.Ended run
  | _ => True

/-- The run an append is to, the length it was read at if the append is conditional, what it adds, and who makes it. -/
def ServerCall.appends : ServerCall → Option (RunId × Option Nat × List Event × Party)
  | .store (.appendEvents id batch party) => some (id, none, batch, party)
  | .store (.appendEventsAfter id seen batch party) => some (id, some seen, batch, party)
  | _ => none

/-- What an answer tells. -/
def Tells (s : Server) : (c : ServerCall) → c.Answer → Prop
  | .store (.run id), .ok (some run) => s.Saw id run.spec run.events
  | .store (.putRun run _), .ok .stored => s.Saw run.spec.runId run.spec run.events
  | .store (.putRun run _), .ok .existed => ∃ spec events, s.Saw run.spec.runId spec events
  | .store (.appendEvents id batch _), .ok .appended => ∃ spec events, s.Saw id spec (events ++ batch)
  | .store (.appendEvents id _ _), .ok .terminal => s.Ended id
  | .store (.appendEventsAfter id seen batch _), .ok .appended =>
      ∃ spec events, events.length = seen ∧ s.Saw id spec events ∧ s.Saw id spec (events ++ batch)
  | .store (.appendEventsAfter id _ _ _), .ok .terminal => s.Ended id
  | .queue (.claim _), .ok (some id) => ∃ spec events, s.Saw id spec events
  | .queue .parked, .ok (parked : List (RunId × MessageId)) =>
      ∀ id ∈ parked.map Prod.fst, ∃ spec events, s.Saw id spec events ∧ isTurn spec = false
  | .control (.openRunsUnder _ _), some (.ok (runs : List StoredRun)) =>
      ∀ run ∈ runs, s.Saw run.spec.runId run.spec run.events
  | _, _ => True

/-- What the server's programs keep. -/
structure Sound (s : Server) : Prop where
  logs : ∀ id run, s.store.runs id = some run → run.spec.runId = id ∧ Sane run.spec run.events
  known : ∀ id, s.queue.Knows id → ∃ run, s.store.runs id = some run
  parked : ∀ id ∈ s.queue.parked.map Prod.fst, ∀ run, s.store.runs id = some run → isTurn run.spec = false
  put : ∀ id run, s.store.runs id = some run → ∃ happened ∈ s.trace, .run id ∈ Server.names happened.call
  told : ∀ happened ∈ s.trace, Tells s happened.call happened.answer

/-! ### What a call does -/

namespace RunQueue

/-- Only a push takes up a run. -/
theorem knows_exec {q : RunQueue} {now : Nat} {c : QueueCall} {id : RunId} (h : (q.exec now c).2.Knows id) :
    q.Knows id ∨ c = .push id ∨ ∃ gate, c = .pushOnce id gate := by
  have hnobody : q.Shift (q.exec now c).2 nobody nobody nobody → q.Knows id :=
    fun hshift => (hshift.knows id h).resolve_right not_false
  cases c with
  | pend other => exact .inl (hnobody (q.shift_pend now other))
  | push other =>
      rcases (q.shift_push other).knows id h with h | rfl
      · exact .inl h
      · exact .inr (.inl rfl)
  | pushOnce other gate =>
      rcases (q.shift_pushOnce other).knows id h with h | rfl
      · exact .inl h
      · exact .inr (.inr ⟨gate, rfl⟩)
  | unpend other read => exact .inl (((q.shift_unpend other).knows id h).resolve_right not_false)
  | claim token => exact .inl (hnobody (q.shift_claim token))
  | release other token => exact .inl (hnobody (q.shift_release other token))
  | park other token ask => exact .inl (hnobody (q.shift_park other token ask))
  | wake other ask => exact .inl (hnobody (q.shift_wake other ask))
  | ack other token => exact .inl (((q.shift_ack other token).knows id h).resolve_right not_false)
  | reap => exact .inl (hnobody q.shift_reap)
  | pendingFor | queuedOrClaimed | start | renew | parked => exact .inl h

/-- Only a park parks a run. -/
theorem parked_exec {q : RunQueue} {now : Nat} {c : QueueCall} {id : RunId}
    (h : id ∈ (q.exec now c).2.parked.map Prod.fst) :
    id ∈ q.parked.map Prod.fst ∨ ∃ token ask, c = .park id token ask := by
  cases c with
  | pend other =>
      simp only [exec, pend] at h
      split at h <;> exact .inl h
  | pushOnce other gate =>
      simp only [exec, pushOnce] at h
      split at h <;> exact .inl h
  | claim token =>
      simp only [exec, claim] at h
      split at h
      · exact .inl h
      · split at h <;> exact .inl h
  | release other token =>
      simp only [exec, release] at h
      split at h <;> exact .inl h
  | park other token ask =>
      simp only [exec, park] at h
      split at h
      · rcases List.mem_cons.mp h with rfl | h
        · exact .inr ⟨token, ask, rfl⟩
        · exact .inl (mem_of_mem_filter h)
      · exact .inl h
  | wake other ask =>
      simp only [exec, wake] at h
      split at h
      · exact .inl (mem_of_mem_filter h)
      · exact .inl h
  | reap => exact .inl (q.reap_keeps.1 ▸ h)
  | push | pendingFor | queuedOrClaimed | unpend | start | renew | ack | parked => exact .inl h

end RunQueue

namespace Server

variable {s t : Server} {c : ServerCall} {answer : c.Answer}

theorem store_grows (s : LogStore) (now : Timestamp) (c : StoreCall) : s.Grows (s.call now c).2 := by
  cases c with
  | run id => exact .refl s
  | putRun run origin => exact (s.exec_change now _).grows
  | appendEvents id events party => exact (s.exec_change now _).grows
  | appendEventsAfter id seen events party => exact (s.exec_change now _).grows

theorem after_grows (s : Server) (now : Timestamp) (c : ServerCall) : s.store.Grows (s.after now c).store := by
  cases c with
  | store c => exact store_grows s.store now c
  | _ => exact .refl _

theorem after_trace (s : Server) (now : Timestamp) (c : ServerCall) : (s.after now c).trace = s.trace := by
  cases c <;> rfl

theorem Step.later (h : s.Step c answer t) : s.Later t := by
  cases h with
  | done now _ _ | lost now _ _ =>
      exact ⟨s.after_grows now c, [_], by rw [record, after_trace]; rfl⟩
  | failed _ => exact ⟨.refl _, ⟨[_], rfl⟩⟩

/-- The step is recorded, whatever came of it. -/
theorem Step.trace_eq (h : s.Step c answer t) : ∃ took, t.trace = ⟨c, answer, took⟩ :: s.trace := by
  cases h with
  | done now _ _ | lost now _ _ => exact ⟨true, by rw [record, after_trace]⟩
  | failed _ => exact ⟨false, rfl⟩

theorem Step.asked (h : s.Step c answer t) : t.Asked c answer := by
  obtain ⟨took, htrace⟩ := h.trace_eq
  exact ⟨took, by simp [htrace]⟩

/-- An answer that is no failure is what the call did. -/
theorem Step.answers (h : s.Step c answer t) (hok : ¬ Fails c answer) :
    ∃ now, s.Fresh c ∧ s.Answers now c answer ∧ t = (s.after now c).record ⟨c, answer, true⟩ := by
  cases h with
  | done now hfresh h => exact ⟨now, hfresh, h, rfl⟩
  | lost now _ h => exact absurd h hok
  | failed h => exact absurd h hok

theorem Answers.queue_eq {now : Timestamp} {c : QueueCall} {answer : Except String c.Value}
    (h : s.Answers now (.queue c) answer) : answer = .ok (s.queue.exec s.now c).1 := by
  cases h
  rfl

theorem Answers.store_eq {now : Timestamp} {c : StoreCall} {answer : Except StoreError c.Value}
    (h : s.Answers now (.store c) answer) : answer = (s.store.call now c).1 := by
  cases h
  rfl

theorem Answers.control_eq {now : Timestamp} {c : ControlCall} {answer : Option (Except StoreError c.Value)}
    (h : s.Answers now (.control c) answer) : answer = some (.ok (s.controls.exec s.store.runs c).1) := by
  cases h
  rfl

theorem Answers.host_eq {now : Timestamp} {c : HostCall} {answer : Except String c.Value}
    (h : s.Answers now (.host c) answer) : answer = .ok (c.exec s.sandboxes).1 := by
  cases h
  rfl

/-- A log after a call: as it was, one just put, or one that was open with a batch added. -/
theorem stored_after {now : Timestamp} {id : RunId} {run : StoredRun} (h : (s.after now c).store.runs id = some run) :
    s.store.runs id = some run ∨
    (∃ origin, c = .store (.putRun run origin) ∧ run.spec.runId = id ∧ s.store.runs id = none) ∨
    ∃ before seen batch party, c.appends = some (id, seen, batch, party) ∧ s.store.runs id = some before ∧
      hasEnded before.events = false ∧ (∀ length, seen = some length → length = before.events.length) ∧
        run = { before with events := before.events ++ batch } := by
  have happend : ∀ other seen batch party, c.appends = some (other, seen, batch, party) →
      (s.store.appendChecked now other seen batch).1.runs id = some run → s.store.runs id = some run ∨
        ∃ before seen batch party, c.appends = some (id, seen, batch, party) ∧ s.store.runs id = some before ∧
          hasEnded before.events = false ∧ (∀ length, seen = some length → length = before.events.length) ∧
            run = { before with events := before.events ++ batch } := by
    intro other seen batch party hc h
    rcases s.store.appendChecked_cases now other seen batch with ⟨hkeep, -⟩ | ⟨before, hstored, hopen, -, hseen, heq⟩
    · exact .inl (hkeep ▸ h)
    · rw [heq] at h
      by_cases hid : id = other
      · subst hid
        rw [LogStore.extend_runs_self, Option.some.injEq] at h
        exact .inr ⟨before, seen, batch, party, hc, hstored, hopen, hseen, h.symm⟩
      · exact .inl (LogStore.extend_runs_of_ne _ _ hid _ _ ▸ h)
  cases c with
  | store c =>
      cases c with
      | run other => exact .inl h
      | putRun new origin =>
          rcases s.store.putRun_cases now new with ⟨hkeep, -⟩ | ⟨hnone, -, heq⟩
          · exact .inl (hkeep ▸ h)
          · have h : (s.store.putRun now new).1.runs id = some run := h
            rw [heq] at h
            by_cases hid : id = new.spec.runId
            · subst hid
              rw [LogStore.extend_runs_self, Option.some.injEq] at h
              exact .inr (.inl ⟨origin, by rw [← h]; rfl, by rw [← h], hnone⟩)
            · exact .inl (LogStore.extend_runs_of_ne _ _ hid _ _ ▸ h)
      | appendEvents other batch party => exact (happend other none batch party rfl h).imp_right .inr
      | appendEventsAfter other seen batch party => exact (happend other (some seen) batch party rfl h).imp_right .inr
  | _ => exact .inl h

theorem Saw.at {id : RunId} {spec : RunSpec} {events : List Event} {run : StoredRun} (h : s.Saw id spec events)
    (hrun : s.store.runs id = some run) : run.spec = spec ∧ events <+: run.events := by
  obtain ⟨more, hstored⟩ := h.stored
  rw [hrun, Option.some.injEq] at hstored
  rw [hstored]
  exact ⟨rfl, List.prefix_append _ _⟩

/-- A log read as long as the stored one is the stored one. -/
theorem Saw.whole {id : RunId} {spec : RunSpec} {events : List Event} {run : StoredRun} (h : s.Saw id spec events)
    (hrun : s.store.runs id = some run) (hlength : events.length = run.events.length) : run = ⟨spec, events⟩ := by
  obtain ⟨hspec, hbegins⟩ := h.at hrun
  obtain rfl := hbegins.eq_of_length hlength
  rw [← hspec]

end Server

/-! ### What sound calls keep -/

theorem Tells.later {s t : Server} {c : ServerCall} {answer : c.Answer} (h : Tells s c answer) (hlater : s.Later t) :
    Tells t c answer := by
  unfold Tells at h ⊢
  split
  · exact Server.Saw.later h hlater
  · exact Server.Saw.later h hlater
  · obtain ⟨spec, events, hsaw⟩ := h
    exact ⟨spec, events, hsaw.later hlater⟩
  · obtain ⟨spec, events, hsaw⟩ := h
    exact ⟨spec, events, hsaw.later hlater⟩
  · exact Server.Ended.later h hlater
  · obtain ⟨spec, events, hlength, hbefore, hsaw⟩ := h
    exact ⟨spec, events, hlength, hbefore.later hlater, hsaw.later hlater⟩
  · exact Server.Ended.later h hlater
  · obtain ⟨spec, events, hsaw⟩ := h
    exact ⟨spec, events, hsaw.later hlater⟩
  · intro id hid
    obtain ⟨spec, events, hsaw, hturn⟩ := h id hid
    exact ⟨spec, events, hsaw.later hlater, hturn⟩
  · exact fun run hrun => (h run hrun).later hlater
  · trivial

/-- What a failed call is answered tells nothing. -/
theorem tells_of_fails {s : Server} {c : ServerCall} {answer : c.Answer} (h : Server.Fails c answer) :
    Tells s c answer := by
  cases h with
  | queue c error => cases c <;> trivial
  | store c error => cases c <;> trivial
  | control c error => cases c <;> trivial
  | noControls c => cases c <;> trivial
  | host c error => trivial

theorem Owes.writes {fleet : Fleet} {pends : Bool} {s : Server} {c : ServerCall} (howes : Owes fleet pends s c)
    {id : RunId} {seen : Option Nat} {batch : List Event} {party : Party}
    (hc : c.appends = some (id, seen, batch, party)) : Writes fleet s id seen batch party := by
  cases c with
  | store c =>
      cases c with
      | appendEvents | appendEventsAfter =>
          cases hc
          exact howes
      | _ => cases hc
  | _ => cases hc

/-- What an owed append may add to the open log it finds. -/
theorem Owes.written {fleet : Fleet} {pends : Bool} {s : Server} {c : ServerCall} (howes : Owes fleet pends s c)
    {id : RunId} {seen : Option Nat} {batch : List Event} {party : Party}
    (hc : c.appends = some (id, seen, batch, party)) {run : StoredRun} (hrun : s.store.runs id = some run)
    (hseen : ∀ length, seen = some length → length = run.events.length) : Written run.spec run.events batch := by
  have hwrites := howes.writes hc
  cases party with
  | producer =>
      obtain ⟨-, cls, message, hbatch⟩ := hwrites
      exact .note _ rfl hbatch
  | settle => exact .note _ rfl hwrites.2
  | delivery =>
      obtain ⟨-, spec, events, ask, answer, -, -, -, hreply, hbatch⟩ := hwrites
      refine .note answer ?_ hbatch
      cases answer with
      | messageReceived | askTimedOut => rfl
      | _ => simp [answersAsk] at hreply
  | user =>
      obtain ⟨spec, events, question, text, -, -, -, hbatch⟩ := hwrites
      exact .note _ rfl hbatch
  | stop =>
      obtain ⟨spec, events, -, -, -, hbatch⟩ := hwrites
      exact .note _ rfl hbatch
  | request =>
      rcases hwrites with ⟨-, ⟨cls, message, hbatch⟩ | ⟨spec, events, message, usage, text, hsaw, hstarted, hbatch⟩⟩
      · exact .note _ rfl hbatch
      · obtain ⟨-, more, hmore⟩ := hsaw.at hrun
        refine .completed ?_ message usage text hbatch
        simp [← hmore, hstarted]
  | sweep => exact hwrites.elim
  | worker token =>
      obtain ⟨spec, events, number, -, -, hsaw, -, hlength, -, hwrites⟩ := hwrites
      have hwhole : seen.isSome = true → run = ⟨spec, events⟩ := by
        intro hsome
        obtain ⟨length, rfl⟩ := Option.isSome_iff_exists.mp hsome
        exact hsaw.whole hrun ((hlength length rfl).symm.trans (hseen length rfl))
      cases hwrites with
      | ended payload hpayload hbatch =>
          refine .note payload ?_ hbatch
          rcases hpayload with rfl | ⟨cls, message, rfl⟩ <;> rfl
      | scheduled hafter hqueued hbatch =>
          rw [hwhole hafter]
          exact .scheduled hqueued hbatch
      | begun hafter hturn hgateway hstarting hbatch =>
          rw [hwhole hafter]
          exact .begun hstarting hbatch
      | completed hturn hstarted message usage text hbatch =>
          obtain ⟨-, more, hmore⟩ := hsaw.at hrun
          refine .completed ?_ message usage text hbatch
          simp [← hmore, hstarted]
      | drove hafter hturn hends hagrees hdriven =>
          rw [hwhole hafter]
          exact .driven hends hagrees hdriven

namespace Sound

variable {fleet : Fleet} {pends : Bool} {s t : Server} {c : ServerCall} {answer : c.Answer}

theorem saw (h : Sound s) {id : RunId} {run : StoredRun} (hrun : s.store.runs id = some run) :
    s.Saw id run.spec run.events :=
  ⟨⟨[], by simpa using hrun⟩, (h.logs id run hrun).1, (h.logs id run hrun).2⟩

theorem tells (h : Sound s) (hasked : s.Asked c answer) : Tells s c answer := by
  obtain ⟨took, hmem⟩ := hasked
  exact h.told _ hmem

/-- A held run has ended. -/
theorem held (h : Sound s) {id : RunId} (hheld : s.HeldFire id) : s.Ended id := by
  obtain ⟨batch, done, hbatch, rfl | rfl, hasked⟩ := hheld
  · obtain ⟨spec, events, hsaw⟩ := h.tells hasked
    have hends : hasEnded batch = true := by rw [Driver.hasEnded_eq, hbatch]; rfl
    exact hsaw.ended (by simp [hends])
  · exact h.tells hasked

/-- A run stored after an owed call is sane. -/
theorem logs_after (h : Sound s) (howes : Owes fleet pends s c) (now : Timestamp) :
    ∀ id run, (s.after now c).store.runs id = some run → run.spec.runId = id ∧ Sane run.spec run.events := by
  intro id run hrun
  rcases Server.stored_after hrun with hsame | ⟨origin, rfl, hid, -⟩ |
    ⟨before, seen, batch, party, hc, hbefore, hopen, hseen, rfl⟩
  · exact h.logs id run hsame
  · refine ⟨hid, ?_⟩
    have hevents : (∃ stamps, run.events = queuedEvents run.spec stamps) ∨
        ∃ stamps, run.events = openEvents run.spec stamps := by
      have hputs := howes.1
      cases origin with
      | request => exact hputs.2.imp_right And.right
      | fire => exact .inl hputs.1
      | child asked => exact .inl hputs.2.2
    rcases hevents with ⟨stamps, hevents⟩ | ⟨stamps, hevents⟩
    · exact hevents ▸ sane_queued run.spec stamps
    · exact hevents ▸ sane_open run.spec stamps
  · obtain ⟨hid, hsane⟩ := h.logs id before hbefore
    exact ⟨hid, (howes.written hc hbefore hseen).sane hsane hopen⟩

/-- A run shown to be stored is stored. -/
theorem shown (h : Sound s) {id : RunId} (hshown : Server.Shown s.trace id) : ∃ spec events, s.Saw id spec events := by
  rcases hshown with ⟨run, origin, done, took, hmem, rfl⟩ | ⟨run, took, hmem⟩
  · have htells := h.told _ hmem
    cases done with
    | stored => exact ⟨_, _, htells⟩
    | existed => exact htells
  · exact ⟨_, _, h.told _ hmem⟩

theorem known_after (h : Sound s) (howes : Owes fleet pends s c) (now : Timestamp) :
    ∀ id, (s.after now c).queue.Knows id → ∃ run, (s.after now c).store.runs id = some run := by
  have hgrows : ∀ id, (∃ run, s.store.runs id = some run) → ∃ run, (s.after now c).store.runs id = some run := by
    rintro id ⟨run, hrun⟩
    obtain ⟨more, hmore⟩ := s.after_grows now c id run hrun
    exact ⟨_, hmore⟩
  have hsaw : ∀ {id spec events}, s.Saw id spec events → ∃ run, s.store.runs id = some run :=
    fun hsaw => hsaw.stored.elim fun _ hstored => ⟨_, hstored⟩
  intro id hknows
  apply hgrows
  cases c with
  | queue c =>
      rcases RunQueue.knows_exec hknows with hknows | rfl | ⟨gate, rfl⟩
      · exact h.known id hknows
      · obtain ⟨⟨spec, events, hsaw', -⟩, -⟩ := howes
        exact hsaw hsaw'
      · obtain ⟨⟨spec, events, hsaw', -⟩, -⟩ := howes
        exact hsaw hsaw'
  | _ => exact h.known id hknows

theorem parked_after (h : Sound s) (howes : Owes fleet pends s c) (now : Timestamp) :
    ∀ id ∈ (s.after now c).queue.parked.map Prod.fst, ∀ run, (s.after now c).store.runs id = some run →
      isTurn run.spec = false := by
  intro id hid run hrun
  have hparked : id ∈ s.queue.parked.map Prod.fst ∨
      ∃ spec events, s.Saw id spec events ∧ isTurn spec = false := by
    cases c with
    | queue c =>
        rcases RunQueue.parked_exec hid with hid | ⟨token, ask, rfl⟩
        · exact .inl hid
        · obtain ⟨-, spec, events, hsaw, hturn, -⟩ := howes
          exact .inr ⟨spec, events, hsaw, hturn⟩
    | _ => exact .inl hid
  have hgrows := s.after_grows now c id
  rcases hparked with hparked | ⟨spec, events, hsaw, hturn⟩
  · obtain ⟨before, hbefore⟩ := h.known id (.inl (.inr (.inr hparked)))
    obtain ⟨more, hmore⟩ := hgrows before hbefore
    rw [hmore, Option.some.injEq] at hrun
    rw [← hrun]
    exact h.parked id hparked before hbefore
  · obtain ⟨before, hstored⟩ := hsaw.stored
    obtain ⟨more, hmore⟩ := hgrows _ hstored
    rw [hmore, Option.some.injEq] at hrun
    rw [← hrun]
    exact hturn

theorem put_after (h : Sound s) (now : Timestamp) (answer : c.Answer) (took : Bool) :
    ∀ id run, (s.after now c).store.runs id = some run →
      ∃ happened ∈ (⟨c, answer, took⟩ :: s.trace : List Happened), .run id ∈ Server.names happened.call := by
  intro id run hrun
  have hkeep : (∃ happened ∈ s.trace, .run id ∈ Server.names happened.call) →
      ∃ happened ∈ (⟨c, answer, took⟩ :: s.trace : List Happened), .run id ∈ Server.names happened.call :=
    fun ⟨happened, hmem, hid⟩ => ⟨happened, List.mem_cons_of_mem _ hmem, hid⟩
  rcases Server.stored_after hrun with hsame | ⟨origin, rfl, rfl, -⟩ | ⟨before, seen, batch, party, -, hbefore, -⟩
  · exact hkeep (h.put id run hsame)
  · exact ⟨_, List.mem_cons_self .., by simp [Server.names]⟩
  · exact hkeep (h.put id before hbefore)

/-- What an append that took effect is answered. -/
theorem tells_append (hsaw : ∀ {id run}, t.store.runs id = some run → t.Saw id run.spec run.events) {now : Timestamp}
    {id : RunId} (seen : Option Nat) {batch : List Event}
    (hstore : t.store = (s.store.appendChecked now id seen batch).1) :
    ((s.store.appendChecked now id seen batch).2 = .append .appended → ∃ spec events,
      (∀ length, seen = some length → length = events.length) ∧ s.store.runs id = some ⟨spec, events⟩ ∧
        t.Saw id spec (events ++ batch)) ∧
    ((s.store.appendChecked now id seen batch).2 = .append .terminal → t.Ended id) := by
  constructor
  · intro hanswer
    rcases s.store.appendChecked_cases now id seen batch with ⟨-, hrefused⟩ | ⟨run, hrun, -, -, hseen, heq⟩
    · simp [hanswer, StoreAnswer.isRefusal] at hrefused
    · have hstored : t.store.runs id = some ⟨run.spec, run.events ++ batch⟩ := by
        rw [hstore, heq]
        exact LogStore.extend_runs_self ..
      exact ⟨run.spec, run.events, hseen, hrun, hsaw hstored⟩
  · intro hanswer
    have hkeep : (s.store.appendChecked now id seen batch).1 = s.store := by
      rcases s.store.appendChecked_cases now id seen batch with ⟨hkeep, -⟩ | ⟨run, -, -, -, -, heq⟩
      · exact hkeep
      · simp [heq] at hanswer
    unfold LogStore.appendChecked at hanswer
    split at hanswer
    · cases hanswer
    · split at hanswer
      · cases hanswer
      · next run hrun =>
          split at hanswer
          · next hended => exact ⟨run, by rw [hstore, hkeep, hrun], hended⟩
          · split at hanswer <;> cases hanswer

/-- What a call that took effect is answered tells. -/
theorem tells_after (h : Sound s) {now : Timestamp} (hanswers : s.Answers now c answer) (hlater : s.Later t)
    (hstore : t.store = (s.after now c).store)
    (hlogs : ∀ id run, t.store.runs id = some run → run.spec.runId = id ∧ Sane run.spec run.events) :
    Tells t c answer := by
  have hsaw : ∀ {id run}, t.store.runs id = some run → t.Saw id run.spec run.events :=
    fun {id run} hrun => ⟨⟨[], by simpa using hrun⟩, (hlogs id run hrun).1, (hlogs id run hrun).2⟩
  have hknown : ∀ {id}, s.queue.Knows id → ∃ run, s.store.runs id = some run ∧ t.Saw id run.spec run.events := by
    intro id hknows
    obtain ⟨run, hrun⟩ := h.known id hknows
    exact ⟨run, hrun, (h.saw hrun).later hlater⟩
  cases hanswers with
  | queue c =>
      cases c with
      | claim token =>
          cases hclaim : (s.queue.claim token).1 with
          | none => simp [RunQueue.exec, hclaim, Tells]
          | some id =>
              have hknows : (s.queue.exec s.now (.claim token)).2.Knows id := .inl (RunQueue.carries_claim hclaim)
              obtain ⟨run, -, hsaw⟩ := hknown ((RunQueue.knows_exec hknows).resolve_right (by simp))
              simp only [RunQueue.exec, hclaim, Tells]
              exact ⟨_, _, hsaw⟩
      | parked =>
          intro id hid
          obtain ⟨run, hrun, hsaw⟩ := hknown (.inl (.inr (.inr hid)))
          exact ⟨_, _, hsaw, h.parked id hid run hrun⟩
      | _ => trivial
  | store c =>
      cases c with
      | run id =>
          cases hrun : s.store.runs id with
          | none => simp [LogStore.call, hrun, Tells]
          | some run =>
              simp only [LogStore.call, hrun, Tells]
              exact (h.saw hrun).later hlater
      | putRun run origin =>
          have hput : t.store = (s.store.putRun now run).1 := hstore
          change Tells t (.store (.putRun run origin)) (s.store.putRun now run).2.toPut
          cases hcheck : checkOneTerminal run.events with
          | error error => simp [LogStore.putRun, hcheck, StoreAnswer.toPut, Tells]
          | ok _ =>
              cases hrun : s.store.runs run.spec.runId with
              | some stored =>
                  simp only [LogStore.putRun, hcheck, hrun, StoreAnswer.toPut, Tells]
                  exact ⟨_, _, (h.saw hrun).later hlater⟩
              | none =>
                  have hstored : t.store.runs run.spec.runId = some run := by
                    simp only [hput, LogStore.putRun, hcheck, hrun]
                    exact LogStore.extend_runs_self ..
                  simp only [LogStore.putRun, hcheck, hrun, StoreAnswer.toPut, Tells]
                  exact hsaw hstored
      | appendEvents id batch party =>
          obtain ⟨happended, hterminal⟩ := tells_append hsaw none hstore
          change Tells t (.store (.appendEvents id batch party)) (s.store.appendChecked now id none batch).2.toAppend
          cases hdone : (s.store.appendChecked now id none batch).2 with
          | append done =>
              cases done with
              | appended =>
                  obtain ⟨spec, events, -, -, hsaw⟩ := happended hdone
                  exact ⟨spec, events, hsaw⟩
              | terminal => exact hterminal hdone
              | missing | moved => trivial
          | _ => trivial
      | appendEventsAfter id seen batch party =>
          obtain ⟨happended, hterminal⟩ := tells_append hsaw (some seen) hstore
          change Tells t (.store (.appendEventsAfter id seen batch party))
            (s.store.appendChecked now id (some seen) batch).2.toAppend
          cases hdone : (s.store.appendChecked now id (some seen) batch).2 with
          | append done =>
              cases done with
              | appended =>
                  obtain ⟨spec, events, hlength, hrun, hsaw⟩ := happended hdone
                  exact ⟨spec, events, (hlength seen rfl).symm, (h.saw hrun).later hlater, hsaw⟩
              | terminal => exact hterminal hdone
              | missing | moved => trivial
          | _ => trivial
  | control c =>
      cases c with
      | openRunsUnder owner scope =>
          intro run hrun
          obtain ⟨entry, -, hentry⟩ := List.mem_filterMap.mp (List.mem_filter.mp hrun).1
          have hsaw := (h.saw hentry).later hlater
          exact hsaw.named ▸ hsaw
      | _ => trivial
  | host c => trivial
  | gateway call party answer => trivial
  | outside c answer => trivial

/-- An owed call keeps the server sound. -/
theorem step (h : Sound s) (howes : Owes fleet pends s c) (hstep : s.Step c answer t) : Sound t := by
  have hlater := hstep.later
  have htold : ∀ {took}, t.trace = ⟨c, answer, took⟩ :: s.trace → Tells t c answer →
      ∀ happened ∈ t.trace, Tells t happened.call happened.answer := by
    intro took htrace htells happened hmem
    rw [htrace] at hmem
    rcases List.mem_cons.mp hmem with rfl | hmem
    · exact htells
    · exact (h.told happened hmem).later hlater
  cases hstep with
  | done now hfresh hanswers =>
      have hlogs := h.logs_after howes now
      refine ⟨hlogs, h.known_after howes now, h.parked_after howes now, ?_, ?_⟩
      · rw [Server.record, Server.after_trace]
        exact h.put_after now answer true
      · refine htold (by rw [Server.record, Server.after_trace]) ?_
        exact h.tells_after hanswers hlater rfl hlogs
  | lost now hfresh hfails =>
      refine ⟨h.logs_after howes now, h.known_after howes now, h.parked_after howes now, ?_, ?_⟩
      · rw [Server.record, Server.after_trace]
        exact h.put_after now answer true
      · exact htold (by rw [Server.record, Server.after_trace]) (tells_of_fails hfails)
  | failed hfails =>
      refine ⟨h.logs, h.known, h.parked, fun id run hrun => ?_, htold rfl (tells_of_fails hfails)⟩
      obtain ⟨happened, hmem, hid⟩ := h.put id run hrun
      exact ⟨happened, List.mem_cons_of_mem _ hmem, hid⟩

theorem empty : Sound .empty where
  logs _ _ h := by cases h
  known id h := by simp [Server.empty, RunQueue.empty, RunQueue.Knows, RunQueue.Carries] at h
  parked _ h := by simp [Server.empty, RunQueue.empty] at h
  put _ _ h := by cases h
  told _ h := by simp [Server.empty] at h

/-- The Redis clock moves, or a lease runs out. -/
theorem of_queue (h : Sound s) {q : RunQueue} (now : Nat) (hknows : ∀ id, q.Knows id → s.queue.Knows id)
    (hparked : q.parked = s.queue.parked) : Sound { s with queue := q, now := now } where
  logs := h.logs
  known id hid := h.known id (hknows id hid)
  parked := hparked ▸ h.parked
  put := h.put
  told happened hmem := (h.told happened hmem).later ⟨.refl _, List.suffix_refl _⟩

/-- A request's id is one no run is stored under. -/
theorem put_request (h : Sound s) {run : StoredRun} {done : PutRun}
    (hstep : s.Step (.store (.putRun run .request)) (.ok done) t) : done = .stored := by
  obtain ⟨now, hfresh, hanswers, -⟩ := hstep.answers (by rintro ⟨⟩)
  have hnone : s.store.runs run.spec.runId = none := by
    rw [Option.eq_none_iff_forall_ne_some]
    intro stored hstored
    obtain ⟨happened, hmem, hid⟩ := h.put _ _ hstored
    exact hfresh rfl _ (by simp [Server.names]) happened hmem hid
  have hanswer : .ok done = (s.store.putRun now run).2.toPut := hanswers.store_eq
  unfold LogStore.putRun at hanswer
  cases hcheck : checkOneTerminal run.events with
  | error error => simp [hcheck, StoreAnswer.toPut] at hanswer
  | ok _ => simpa [hcheck, hnone, StoreAnswer.toPut] using hanswer

/-- An append to a stored run does not find it missing. -/
theorem append_stored {id : RunId} (hstored : ∃ run, s.store.runs id = some run)
    {seen : Option Nat} {batch : List Event} {now : Timestamp} {done : Append}
    (h : (s.store.appendChecked now id seen batch).2.toAppend = .ok done) :
    done ≠ .missing := by
  rintro rfl
  obtain ⟨run, hrun⟩ := hstored
  unfold LogStore.appendChecked at h
  cases hcheck : checkOneTerminal batch with
  | error error => simp [hcheck, StoreAnswer.toAppend] at h
  | ok _ =>
      simp only [hcheck, hrun] at h
      split at h
      · cases h
      · split at h <;> cases h

end Sound

/-! ### The world of the server's programs -/

/-- While a put waits, others leave its run secured. -/
def StaysSecured (c : ServerCall) (s t : Server) : Prop :=
  ∀ run origin, c = .store (.putRun run origin) → s.Secured run.spec.runId → t.Secured run.spec.runId

abbrev Service (fleet : Fleet) (pends : Bool) : World ServerSig where
  State := Server
  Inv := Sound
  Step := Server.Step
  Owes := Owes fleet pends
  Others c s t := s.Later t ∧ (pends = true → StaysSecured c s t)
  others_refl _ s := ⟨.refl s, fun _ _ _ _ h => h⟩
  others_trans h h' :=
    ⟨h.1.trans h'.1, fun hpends run origin hc hs => h'.2 hpends run origin hc (h.2 hpends run origin hc hs)⟩

instance (fleet : Fleet) (pends : Bool) : (Service fleet pends).GrowsBy Server.Later where
  refl := Server.Later.refl
  trans := Server.Later.trans
  others h := h.1
  step h := h.later

end Gol
