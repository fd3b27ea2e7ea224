import Gol.ServerSafe

/-! What a worker knows of the run it claimed, and its turns. The worker knows the log it read or wrote last; each
append is to that log or a later one, and a Box turn ends only once its sandboxes are gone. -/

namespace Gol
open Library World

variable {fleet : Fleet} {pends : Bool} {α : Type} {K : Known} {spec : RunSpec} {token : Token} {events : List Event}
  {number : Nat}

/-! ### What a worker knows -/

/-- The claim of a run whose open log was read, and whose start was counted as the `number`-th. -/
structure Server.Works (s : Server) (spec : RunSpec) (token : Token) (number : Nat) (events : List Event) : Prop where
  claimed : s.Claimed spec.runId token
  started : s.Started spec.runId token number
  saw : s.Saw spec.runId spec events
  open_ : hasEnded events = false

def Known.works (spec : RunSpec) (token : Token) (number : Nat) (events : List Event) : Known :=
  ⟨fun s => s.Works spec token number events,
    fun h hs => ⟨hs.claimed.later h, hs.started.later h, hs.saw.later h, hs.open_⟩⟩

theorem works_stores : Known.Stores (Known.works spec token number events) spec.runId :=
  fun _ hs => hs.saw.stored.elim fun _ hstored => ⟨_, hstored⟩

/-- What came of an append of `new` to the log `events`. -/
def Known.stored (spec : RunSpec) (events new : List Event) (result : Except String Stopped) : Known :=
  .and (.imp (result = .ok (.store .appended)) (Known.saw spec.runId spec (events ++ new)))
    (.and (.imp (result = .ok (.store .terminal)) (Known.ended spec.runId))
      (.pure (result ≠ .ok (.store .missing) ∧ ∀ ask, result ≠ .ok (.waiting ask))))

/-- The run waits on `ask`. -/
def Known.waits (spec : RunSpec) (ask : MessageId) : Known :=
  ⟨fun s => isTurn spec = false ∧ ∃ events, s.Saw spec.runId spec events ∧ askState events ask = .open,
    fun h ⟨hturn, events, hsaw, hrest⟩ => ⟨hturn, events, hsaw.later h, hrest⟩⟩

/-- Why a run stopped: a log taken as stored has ended, and one that waits is stored up to its ask. -/
def Known.halts (spec : RunSpec) (result : Except String Stopped) : Known :=
  .and (.imp (result = .ok (.store .appended) ∨ result = .ok (.store .terminal)) (Known.ended spec.runId))
    (.and (.pure (result ≠ .ok (.store .missing)))
      ⟨fun s => ∀ ask, result = .ok (.waiting ask) → (Known.waits spec ask).holds s,
        fun h hs ask heq => (Known.waits spec ask).later h (hs ask heq)⟩)

/-- A run that stopped without a word on its log. -/
theorem does_lost {result : Except String Stopped} (hstore : ∀ append, result ≠ .ok (.store append))
    (hwaiting : ∀ ask, result ≠ .ok (.waiting ask)) :
    (Service fleet pends).Does K (.ret result) (Known.halts spec) := by
  refine does_ret fun _ _ _ => ⟨?_, hstore _, fun ask heq => absurd heq (hwaiting ask)⟩
  rintro (heq | heq) <;> exact absurd heq (hstore _)

theorem minds_stopped (run : RunId) : Minds fleet pends (stopped run) := by
  refine minds_only ⟨fun _ => trivial, fun stops => ?_⟩
  rcases stops with _ | (_ | _) <;> trivial

theorem minds_holds (run : RunId) (token : Token) : Minds fleet pends (holds run token) := by
  refine minds_only ⟨fun _ => trivial, fun held => ?_⟩
  rcases held with _ | (_ | _) <;> trivial

/-! ### Appends -/

/-- An append to the log the worker knows. -/
theorem does_appendAfter {new : List Event} (hsaw : ∀ s, K.holds s → s.Saw spec.runId spec events)
    (hwrites : ∀ s, Sound s → K.holds s → Writes fleet s spec.runId (some events.length) new (.worker token)) :
    (Service fleet pends).Does K (append spec.runId token events.length new) (Known.stored spec events new) := by
  refine (minds_holds _ _).bind fun held => ?_
  dsimp only
  split
  · exact does_ret fun _ _ _ => ⟨nofun, nofun, nofun, nofun⟩
  · refine does_call_step hwrites (fun answer => match answer with
      | .ok done => Known.stored spec events new (.ok (.store done))
      | .error _ => .none) (fun answer s t hsound hs hstep hsound' => ?_) fun answer => ?_
    · cases answer with
      | error error => trivial
      | ok done =>
          refine ⟨fun heq => ?_, fun heq => ?_, fun heq => ?_, nofun⟩
          · cases heq
            obtain ⟨spec', events', hlength, hbefore, hsaw'⟩ := hsound'.tells hstep.asked
            obtain ⟨rfl, rfl⟩ := ((hsaw s hs).later hstep.later).eq_of_length hbefore hlength.symm
            exact hsaw'
          · cases heq
            exact hsound'.tells hstep.asked
          · cases heq
            obtain ⟨now, -, hanswers, -⟩ := hstep.answers (by rintro ⟨⟩)
            obtain ⟨more, hstored⟩ := (hsaw s hs).stored
            exact Sound.append_stored ⟨_, hstored⟩ hanswers.store_eq.symm rfl
    · cases answer with
      | error error => exact does_ret fun _ _ _ => ⟨nofun, nofun, nofun, nofun⟩
      | ok done => exact does_ret fun _ _ hs => hs

/-- An append that ends the log the worker knows. -/
theorem does_appendEnd {new : List Event} (hended : hasEnded new = true)
    (hsaw : ∀ s, K.holds s → s.Saw spec.runId spec events)
    (hwrites : ∀ s, Sound s → K.holds s → Writes fleet s spec.runId (some events.length) new (.worker token)) :
    (Service fleet pends).Does K (append spec.runId token events.length new) (Known.halts spec) := by
  refine (does_appendAfter hsaw hwrites).post fun result s _ hs =>
    ⟨?_, hs.2.2.1, fun ask heq => absurd heq (hs.2.2.2 ask)⟩
  rintro (heq | heq)
  · exact (hs.1 heq).ended (by simp [hended])
  · exact hs.2.1 heq

/-- What a worker appends to a log it knows. -/
theorem Server.Works.writes {s : Server} {seen : Option Nat} {batch : List Event} (h : s.Works spec token number events)
    (hseen : ∀ length, seen = some length → length = events.length)
    (hclean : hasEnded batch = true → isBoxTurn spec = true →
      s.Cleaned spec.runId token (min number fleet.maxDeliveries))
    (hwrites : WorkerWrites spec events batch seen.isSome) : Writes fleet s spec.runId seen batch (.worker token) :=
  ⟨spec, events, number, h.claimed, h.started, h.saw, h.open_, hseen, hclean, hwrites⟩

/-- The payloads with which a worker ends a run at once. -/
def EndsAtOnce (payload : EventPayload) : Prop :=
  payload = .runCancelled ∨ ∃ cls message, payload = .runFailed cls message

theorem EndsAtOnce.terminal {payload : EventPayload} (h : EndsAtOnce payload) : isTerminal payload = true := by
  rcases h with rfl | ⟨cls, message, rfl⟩ <;> rfl

theorem does_appendEnded {event : Event} (hends : EndsAtOnce event.payload) (hbox : isBoxTurn spec = false) :
    (Service fleet pends).Does (Known.works spec token number events) (append spec.runId token events.length [event])
      (Known.halts spec) :=
  does_appendEnd (by simp [hends.terminal]) (fun s hs => hs.saw) fun s _ hs =>
    hs.writes (by simp) (by simp [hbox]) (.ended _ hends rfl)

/-! ### Sandboxes -/

def Known.cleaned (run : RunId) (token : Token) (count : Nat) : Known :=
  ⟨fun s => s.Cleaned run token count, fun h hs => hs.later h⟩

/-- The attempt is one the claim has counted. -/
def Known.Counts (K : Known) (run : RunId) (token : Token) (attempt : Nat) : Prop :=
  ∀ s, K.holds s → ∃ number, attempt ≤ number ∧ s.Started run token number

theorem does_removeAttempt {run : RunId} {attempt : Nat} (hcounts : Known.Counts K run token attempt) :
    (Service fleet pends).Does K (removeAttempt run token attempt)
      fun value => .imp (value = .ok ())
        (Known.asked (.host (.absent (.attempt run attempt) (.worker token))) (.ok true)) := by
  have herror : ∀ {K : Known} {reason : String},
      (Service fleet pends).Does K (.ret (.error reason)) fun value : Except String Unit =>
      .imp (value = .ok ()) (Known.asked (.host (.absent (.attempt run attempt) (.worker token))) (.ok true)) :=
    does_ret fun _ _ _ heq => by cases heq
  refine does_ask (fun _ _ _ => trivial) fun gone => ?_
  rcases gone with _ | (_ | _)
  on_goal 3 => exact does_ret fun _ _ hs _ => hs.2
  all_goals
    refine does_call (fun s _ hs => ?_) fun removed => ?_
    · obtain ⟨number, hle, hstarted⟩ := hcounts s hs.1
      exact ⟨run, attempt, number, rfl, hle, hstarted⟩
    · cases removed with
      | error message => exact herror
      | ok _ =>
          refine does_ask (fun _ _ _ => trivial) fun gone => ?_
          rcases gone with _ | (_ | _)
          · exact herror
          · exact herror
          · exact does_ret fun _ _ hs _ => hs.2

theorem does_removeAttempts {run : RunId} (attempts : List Nat)
    (hcounts : ∀ attempt ∈ attempts, Known.Counts K run token attempt) :
    (Service fleet pends).Does K (removeAttempts run token attempts) fun value => .imp (value = .ok ())
      ⟨fun s => ∀ attempt ∈ attempts, s.Asked (.host (.absent (.attempt run attempt) (.worker token))) (.ok true),
        fun h hs attempt hmem => (hs attempt hmem).later h⟩ := by
  induction attempts generalizing K with
  | nil => exact does_ret fun _ _ _ _ attempt hmem => by cases hmem
  | cons attempt rest ih =>
      refine Does.bind (does_removeAttempt (hcounts attempt (List.mem_cons_self ..))) fun removed => ?_
      cases removed with
      | error error => exact does_ret fun _ _ _ heq => by cases heq
      | ok _ =>
          refine Does.post (Does.frame (ih ?_)) fun value s _ hs heq other hother => ?_
          · exact fun other hother s hs => hcounts other (List.mem_cons_of_mem _ hother) s hs.1
          · rcases List.mem_cons.mp hother with rfl | hother
            · exact hs.1.2 rfl
            · exact hs.2 heq other hother

theorem does_cleanBox {run : RunId} {count : Nat} (hcounts : Known.Counts K run token count) :
    (Service fleet pends).Does K (cleanBox run token count) fun value => .imp (value = .ok ())
      (Known.cleaned run token count) := by
  refine (does_removeAttempts _ fun attempt hattempt s hs => ?_).post fun value s _ hs heq attempt hfirst hlast => ?_
  · obtain ⟨number, hle, hstarted⟩ := hcounts s hs
    rw [List.mem_range'_1] at hattempt
    exact ⟨number, by omega, hstarted⟩
  · exact hs heq attempt (List.mem_range'_1.mpr ⟨hfirst, by omega⟩)

/-- A Box turn ends once its sandboxes are gone. -/
theorem does_endBox {ending : List Event} (hnumber : number ≤ fleet.maxDeliveries) (hended : hasEnded ending = true)
    (hwrites : WorkerWrites spec events ending false) :
    (Service fleet pends).Does (Known.works spec token number events) (endBox spec token number ending)
      (Known.halts spec) := by
  refine Does.bind (does_cleanBox fun s hs => ⟨number, le_rfl, hs.started⟩) fun cleaned => ?_
  cases cleaned with
  | error error => exact does_lost (by simp) (by simp)
  | ok _ =>
      refine (minds_holds _ _).bind fun held => ?_
      dsimp only
      split
      · exact does_lost (by simp) (by simp)
      · refine does_appendTo (fun s hs => hs.1.saw.stored.elim fun _ hstored => ⟨_, hstored⟩) (fun s _ hs => ?_)
          fun answer hanswer => ?_
        · refine hs.1.writes (by simp) (fun _ _ => ?_) hwrites
          rw [min_eq_left hnumber]
          exact hs.2 rfl
        · cases answer with
          | error error => exact does_lost (by simp) (by simp)
          | ok done =>
              refine does_ret fun s _ hs => ⟨?_, fun heq => hanswer (by cases heq; rfl), nofun⟩
              rintro (heq | heq)
              · cases heq
                exact hs.2 (.inr ⟨rfl, hended⟩)
              · cases heq
                exact hs.2 (.inl rfl)

/-! ### Turns -/

theorem does_dropOwn (hcounts : Known.Counts K spec.runId token number) :
    (Service fleet pends).Does K ((dropOwn (.attempt spec.runId number) token).bind fun _ => .ret (.ok .lostLease))
      (Known.halts spec) := by
  refine does_call (fun s _ hs => ?_) fun _ => does_lost (by simp) (by simp)
  obtain ⟨counted, hle, hstarted⟩ := hcounts s hs
  exact ⟨spec.runId, number, counted, rfl, hle, hstarted⟩

theorem does_runBoxTurn (hbox : isBoxTurn spec = true) (hnumber : number ≤ fleet.maxDeliveries)
    (hstarted : .runStarted ∈ payloads events) :
    (Service fleet pends).Does (Known.works spec token number events) (runBoxTurn spec token number)
      (Known.halts spec) := by
  have hend : ∀ {event : Event}, EndsAtOnce event.payload →
      (Service fleet pends).Does (Known.works spec token number events) (endBox spec token number [event])
        (Known.halts spec) :=
    fun hends => does_endBox hnumber (by simp [hends.terminal]) (.ended _ hends rfl)
  have hdrop : (Service fleet pends).Does (Known.works spec token number events)
      ((dropOwn (.attempt spec.runId number) token).bind fun _ => .ret (.ok .lostLease)) (Known.halts spec) :=
    does_dropOwn fun s hs => ⟨number, le_rfl, hs.started⟩
  refine (minds_holds _ _).bind fun held => ?_
  dsimp only
  split
  · exact does_lost (by simp) (by simp)
  · refine does_call (fun s _ hs => ?_) fun provisioned => ?_
    · exact ⟨spec.runId, number, spec, events, rfl, hs.started, hnumber, hs.saw, hbox, hstarted⟩
    · cases provisioned with
      | error message => exact does_stamps fun stamps => hend (.inr ⟨_, _, rfl⟩)
      | ok _ =>
          refine (minds_holds _ _).bind fun held => ?_
          split
          · exact hdrop
          · refine (minds_stopped _).bind fun covered => ?_
            split
            · exact does_stamps fun stamps => hend (.inl rfl)
            · refine does_quiet (fun _ => trivial) fun answer => (minds_holds _ _).bind fun held => ?_
              split
              · exact hdrop
              · refine does_stamps fun stamps => ?_
                cases answer with
                | error message => exact hend (.inr ⟨_, _, rfl⟩)
                | ok text =>
                    refine does_endBox hnumber rfl (.completed ?_ hstarted _ _ text rfl)
                    simp only [isBoxTurn, Bool.and_eq_true] at hbox
                    exact hbox.1

/-- A worker ends the turn it knows to have started, outside a Box. -/
theorem finishes_worker (hturn : isTurn spec = true) (hbox : isBoxTurn spec = false)
    (hstarted : .runStarted ∈ payloads events) :
    Finishes fleet (Known.works spec token number events) spec (.worker token) where
  stored := works_stores
  fails s hs _ cls message := hs.writes (by simp) (by simp [hbox]) (.ended _ (.inr ⟨cls, message, rfl⟩) rfl)
  completes s hs _ text := hs.writes (by simp) (by simp [hbox]) (.completed hturn hstarted _ _ text rfl)
  boxed heq := by simp [isBoxTurn, hturn, heq] at hbox

theorem does_unfinishedTurn : (Service fleet pends).Does K (unfinishedTurn spec) (Known.halts spec) := by
  refine does_read (fun error => does_lost (by simp) (by simp)) (does_lost (by simp) (by simp)) fun run => ?_
  dsimp only
  split
  · next hended => exact does_ret fun s _ hs => ⟨fun _ => hs.2.1.ended hended, nofun, nofun⟩
  · exact does_lost (by simp) (by simp)

theorem does_finishedTurn (hgateway : spec.workModel.credential = .platformGateway)
    (result : Except TurnError TurnOutcome) :
    (Service fleet pends).Does (K.and (Known.turned spec result)) (finishedTurn spec result) (Known.halts spec) := by
  rcases result with (_ | _ | _ | _ | _ | _) | _
  · exact does_unfinishedTurn
  · exact does_unfinishedTurn
  · exact does_unfinishedTurn
  · exact fun s _ hs => absurd rfl hs.2.2
  · exact does_ret fun s _ hs => ⟨fun _ => hs.2.1 (.inr ⟨_, rfl⟩), nofun, nofun⟩
  · exact does_unfinishedTurn
  · exact does_ret fun s _ hs => ⟨fun _ => hs.2.1 (.inl ⟨⟨_, rfl⟩, hgateway⟩), nofun, nofun⟩

/-- A turn that ends at once. -/
theorem does_endTurn {event : Event} (hnumber : number ≤ fleet.maxDeliveries) (hends : EndsAtOnce event.payload) :
    (Service fleet pends).Does (Known.works spec token number events)
      (if isBoxTurn spec then endBox spec token number [event]
      else append spec.runId token events.length [event]) (Known.halts spec) := by
  split
  · exact does_endBox hnumber (by simp [hends.terminal]) (.ended _ hends rfl)
  · next hbox => exact does_appendEnded hends (by simpa using hbox)

theorem does_runStartedTurn (hturn : isTurn spec = true) (hgateway : spec.workModel.credential = .platformGateway)
    (hnumber : number ≤ fleet.maxDeliveries) (hstarted : .runStarted ∈ payloads events) :
    (Service fleet pends).Does (Known.works spec token number events) (runStartedTurn spec events token number)
      (Known.halts spec) := by
  refine (minds_stopped _).bind fun covered => ?_
  split
  · exact does_stamps fun stamps => does_endTurn hnumber (.inl rfl)
  · refine (minds_holds _ _).bind fun held => ?_
    split
    · exact does_lost (by simp) (by simp)
    · refine does_readStored works_stores (fun error => does_lost (by simp) (by simp)) fun run => ?_
      dsimp only
      split
      · next hended => exact does_ret fun s _ hs => ⟨fun _ => hs.2.1.ended hended, nofun, nofun⟩
      · split
        · next hbox => exact (does_runBoxTurn hbox hnumber hstarted).pre fun _ _ hs => hs.1
        · next hbox =>
            refine Does.pre (Does.bind (does_finishTurn (finishes_worker hturn (by simpa using hbox) hstarted)) ?_)
              fun _ _ hs => hs.1
            exact fun result => does_finishedTurn hgateway result

/-- A turn that was scheduled. -/
theorem does_runTurn (hturn : isTurn spec = true) (hnumber : number ≤ fleet.maxDeliveries)
    (hqueued : (fold spec events).dispatch ≠ .queued) :
    (Service fleet pends).Does (Known.works spec token number events) (runTurn spec events token number)
      (Known.halts spec) := by
  unfold runTurn
  split
  · exact does_stamps fun stamps => does_endTurn hnumber (.inr ⟨_, _, rfl⟩)
  · next hgateway =>
      have hgateway := not_not.mp hgateway
      split
      · next hstarted =>
          exact does_runStartedTurn hturn hgateway hnumber ((Driver.mem_runStarted_iff events).mp hstarted)
      · next hnot =>
          have hnot : .runStarted ∉ payloads events := fun hmem => hnot ((Driver.mem_runStarted_iff events).mpr hmem)
          refine does_stamps fun stamps => ?_
          have hopen : ∀ {s : Server}, s.Works spec token number events →
              hasEnded (events ++ [systemEvent spec (stamps 0) .runStarted]) = false := by
            intro s hs
            simp [hs.open_, systemEvent, isTerminal]
          refine Does.bind (does_appendAfter (fun s hs => hs.saw) fun s _ hs => ?_) fun result => ?_
          · refine hs.writes (by simp) ?_ (.begun rfl hturn hgateway ?_ rfl)
            · simp [systemEvent, isTerminal]
            · exact (hs.saw.sane.unstarted hs.open_ hnot).resolve_left hqueued
          · split
            · refine (does_runStartedTurn hturn hgateway hnumber ?_).pre fun s _ hs => ?_
              · simp [payloads, systemEvent]
              · exact ⟨hs.1.claimed, hs.1.started, hs.2.1 rfl, hopen hs.1⟩
            · next hrefused =>
                refine does_ret fun s _ hs => ⟨?_, hs.2.2.2.1, fun ask heq => absurd heq (hs.2.2.2.2 ask)⟩
                rintro (heq | heq)
                · exact absurd heq hrefused
                · exact hs.2.2.1 heq

end Gol
