import Gol.HarnessEnds
import Gol.ServerWorker

/-! One end for each run a worker drives or a request runs inline. What a worker hands to the store extends the log
it knows, and that log ends at its terminal event; a client for the decider that does not build is the exception,
when `resume` has already completed the run. -/

namespace Gol
open Library

/-! ### Batches that end once -/

theorem endsAtTerminal_iff (events : List Event) :
    EndsAtTerminal events ↔ EndsOnce isTerminal (payloads events) := by
  constructor
  · intro h i payload hi hend
    obtain ⟨event, hevent, rfl⟩ := List.getElem?_map .. ▸ hi |> Option.map_eq_some_iff.mp
    simpa [payloads] using h i event hevent hend
  · intro h i event hi hend
    simpa [payloads] using h i event.payload (by simp [payloads, hi]) hend

theorem endsAtTerminal_of_open {events : List Event} (h : hasEnded events = false) : EndsAtTerminal events :=
  endsOnce_of_none h

theorem endsAtTerminal_single (event : Event) : EndsAtTerminal [event] := endsOnce_snoc [] event rfl

theorem endsAtTerminal_queued (spec : RunSpec) (stamps : Nat → Stamp) : EndsAtTerminal (queuedEvents spec stamps) :=
  endsAtTerminal_of_open rfl

theorem endsAtTerminal_completion (spec : RunSpec) (stamps : Nat → Stamp) (text : String) :
    EndsAtTerminal (completionEvents spec stamps text) :=
  endsOnce_snoc [_] _ rfl

theorem EndsAtTerminal.accepted {events : List Event} (h : EndsAtTerminal events) :
    checkOneTerminal events = .ok () := (checkOneTerminal_ok_iff events).mpr h

theorem EndsAtTerminal.batch {log batch : List Event} (h : EndsAtTerminal (log ++ batch)) : EndsAtTerminal batch := by
  intro i event hi hend
  have hlast := h (log.length + i) event (by rw [List.getElem?_append_right (by omega)]; simpa using hi) hend
  rw [List.length_append] at hlast
  omega

/-- A call that hands the store a batch it accepts, whatever the log. -/
def EndsItsBatch : ServerCall → Prop
  | .store (.putRun run _) => checkOneTerminal run.events = .ok ()
  | .store (.appendEvents _ batch _) => checkOneTerminal batch = .ok ()
  | .store (.appendEventsAfter _ _ _ _) => False
  | _ => True

/-- Such a call that stores no run. -/
def EndsLog : ServerCall → Prop
  | .store (.putRun _ _) => False
  | c => EndsItsBatch c

section Only

variable {α : Type}

theorem EndsLog.endsItsBatch {c : ServerCall} (h : EndsLog c) : EndsItsBatch c := by
  cases c with
  | store c =>
      cases c with
      | putRun run origin => exact h.elim
      | _ => exact h
  | _ => exact h

theorem Library.Prog.Only.endsItsBatch {p : Prog ServerSig α} (h : p.Only EndsLog) : p.Only EndsItsBatch :=
  h.mono fun _ => EndsLog.endsItsBatch

theorem IsAside.endsItsBatch {c : ServerCall} (h : IsAside c) : EndsItsBatch c := by
  cases c with
  | store c =>
      cases c with
      | run id => trivial
      | putRun run origin =>
          obtain ⟨stamps, hevents⟩ := h
          change checkOneTerminal run.events = .ok ()
          rw [hevents]
          exact (endsAtTerminal_queued run.spec stamps).accepted
      | appendEvents id batch party =>
          obtain ⟨⟨event, rfl⟩, -⟩ := h
          exact (endsAtTerminal_single event).accepted
      | appendEventsAfter id seen batch party => exact h.elim
  | _ => trivial

theorem only_stopped (run : RunId) : (stopped run).Only EndsLog := by
  refine ⟨trivial, fun stops => ?_⟩
  rcases stops with _ | (_ | _) <;> trivial

theorem only_holds (run : RunId) (token : Token) : (holds run token).Only EndsLog := by
  refine ⟨trivial, fun held => ?_⟩
  rcases held with _ | (_ | _) <;> trivial

theorem only_removeAttempt (run : RunId) (token : Token) (attempt : Nat) :
    (removeAttempt run token attempt).Only EndsLog := by
  refine ⟨trivial, fun gone => ?_⟩
  rcases gone with _ | (_ | _)
  on_goal 3 => trivial
  all_goals
    refine ⟨trivial, fun removed => ?_⟩
    cases removed with
    | error message => trivial
    | ok _ =>
        refine ⟨trivial, fun gone => ?_⟩
        rcases gone with _ | (_ | _) <;> trivial

theorem only_cleanBox (run : RunId) (token : Token) (attempts : Nat) :
    (cleanBox run token attempts).Only EndsLog := by
  unfold cleanBox
  generalize List.range' 1 attempts = numbers
  induction numbers with
  | nil => trivial
  | cons attempt rest ih =>
      refine (only_removeAttempt run token attempt).bind fun removed => ?_
      cases removed with
      | error error => trivial
      | ok _ => exact ih

theorem only_endBox (spec : RunSpec) (token : Token) (attempt : Nat) {ending : List Event}
    (h : EndsAtTerminal ending) : (endBox spec token attempt ending).Only EndsLog := by
  refine (only_cleanBox _ _ _).bind fun cleaned => ?_
  cases cleaned with
  | error error => trivial
  | ok _ =>
      refine (only_holds _ _).bind fun held => ?_
      dsimp only
      split
      · trivial
      · refine ⟨h.accepted, fun done => ?_⟩
        cases done <;> trivial

theorem only_dropOwn (name : SandboxName) (token : Token) : (dropOwn name token).Only EndsLog :=
  ⟨trivial, fun _ => trivial⟩

theorem only_runBoxTurn (spec : RunSpec) (token : Token) (attempt : Nat) :
    (runBoxTurn spec token attempt).Only EndsLog := by
  have hlost : ∀ name, ((dropOwn name token).bind fun _ => .ret (.ok .lostLease) :
      Prog ServerSig (Except String Stopped)).Only EndsLog :=
    fun name => (only_dropOwn name token).bind fun _ => trivial
  refine (only_holds _ _).bind fun held => ?_
  dsimp only
  split
  · trivial
  · refine ⟨trivial, fun provisioned => ?_⟩
    cases provisioned with
    | error message => exact ⟨trivial, fun stamps => only_endBox _ _ _ (endsAtTerminal_single _)⟩
    | ok _ =>
        refine (only_holds _ _).bind fun held => ?_
        split
        · exact hlost _
        · refine (only_stopped _).bind fun covered => ?_
          split
          · exact ⟨trivial, fun stamps => only_endBox _ _ _ (endsAtTerminal_single _)⟩
          · refine ⟨trivial, fun answer => (only_holds _ _).bind fun held => ?_⟩
            split
            · exact hlost _
            · refine ⟨trivial, fun stamps => ?_⟩
              cases answer with
              | ok text => exact only_endBox _ _ _ (endsAtTerminal_completion _ _ _)
              | error message => exact only_endBox _ _ _ (endsAtTerminal_single _)

theorem only_endFailed (spec : RunSpec) (party : Party) (cls : FailureClass) (message : String) :
    (endFailed spec party cls message).Only EndsLog :=
  ⟨trivial, fun _ => ⟨(endsAtTerminal_single _).accepted, fun _ => trivial⟩⟩

theorem only_recordTurn (run : RunId) (party : Party) {events : List Event} (outcome : TurnOutcome)
    (h : EndsAtTerminal events) :
    (recordTurn run party events outcome).Only EndsLog := by
  refine ⟨h.accepted, fun done => ?_⟩
  rcases done with _ | (_ | _ | _ | _) <;> trivial

theorem only_completeTurn (spec : RunSpec) (events : List Event) (party : Party) :
    (completeTurn spec events party).Only EndsLog := by
  have hdestroy : ∀ boxed : Bool, (if boxed then .call (.host (.destroy (.container spec.runId) party)) .ret
      else .ret (.ok ()) : Prog ServerSig (Except String Unit)).Only EndsLog := by
    intro boxed
    cases boxed with
    | true => exact ⟨trivial, fun _ => trivial⟩
    | false => trivial
  unfold completeTurn
  dsimp only
  split
  · trivial
  · refine ⟨trivial, fun answer => ?_⟩
    cases answer with
    | error message =>
        refine (hdestroy _).bind fun removed => ?_
        cases removed with
        | ok _ => exact (only_endFailed _ _ _ _).bind fun _ => trivial
        | error _ => trivial
    | ok text =>
        refine (hdestroy _).bind fun removed => ?_
        cases removed with
        | error message => trivial
        | ok _ => exact ⟨trivial, fun stamps => only_recordTurn _ _ _ (endsAtTerminal_completion _ _ _)⟩

theorem only_finishTurn (spec : RunSpec) (events : List Event) (party : Party) :
    (finishTurn spec events party).Only EndsLog := by
  unfold finishTurn
  split
  · refine ⟨trivial, fun provisioned => ?_⟩
    cases provisioned with
    | ok _ => exact only_completeTurn spec events party
    | error message =>
        refine ⟨trivial, fun gone => ?_⟩
        rcases gone with _ | (_ | _)
        · trivial
        · trivial
        · exact (only_endFailed _ _ _ _).bind fun _ => trivial
  · exact only_completeTurn spec events party

theorem only_unfinishedTurn (spec : RunSpec) : (unfinishedTurn spec).Only EndsLog := by
  refine ⟨trivial, fun loaded => ?_⟩
  rcases loaded with _ | (_ | run)
  · trivial
  · trivial
  · dsimp only
    split <;> trivial

theorem only_finishedTurn (spec : RunSpec) (result : Except TurnError TurnOutcome) :
    (finishedTurn spec result).Only EndsLog := by
  have hunfinished := only_unfinishedTurn spec
  rcases result with (_ | _ | _ | _ | _ | _) | _
  · exact hunfinished
  · exact hunfinished
  · exact hunfinished
  · trivial
  · trivial
  · exact hunfinished
  · trivial

end Only

/-! ### What a delivery hands to the store -/

/-- The log a delivery of `run` knows once `answer` came to `c`. -/
def grown (run : RunId) (log : List Event) : (c : ServerCall) → c.Answer → List Event
  | .store (.appendEventsAfter id _ batch _), .ok .appended => if id = run then log ++ batch else log
  | _, _ => log

/-- What is handed to the store is accepted by its check; an append to the run's own log extends the log its
delivery knows, which then ends at its terminal event. -/
def HandsOver (run : RunId) (log : List Event) : ServerCall → Prop
  | .store (.appendEventsAfter id seen batch _) =>
      checkOneTerminal batch = .ok () ∧ id = run ∧ seen = log.length ∧ EndsAtTerminal (log ++ batch)
  | c => EndsItsBatch c

/-- A delivery of `run` alone, as far as the log it knows goes. -/
abbrev Delivery (run : RunId) : World ServerSig :=
  World.alone (List Event) (fun log c answer later => later = grown run log c answer) (HandsOver run)

/-- Whatever it is answered, a delivery of `run` from `log` hands over only what the store's check accepts, and the
log it leaves holds at most one terminal event, its last. -/
def EndsOnceFrom {α : Type} (run : RunId) (log : List Event) (p : Prog ServerSig α) : Prop :=
  (Delivery run).Safe (fun later _ => EndsAtTerminal later) p log

section Delivery

variable {α : Type} {run : RunId} {log : List Event}

theorem EndsItsBatch.handsOver {c : ServerCall} (h : EndsItsBatch c) : HandsOver run log c := by
  cases c with
  | store c =>
      cases c with
      | appendEventsAfter id seen batch party => exact h.elim
      | _ => exact h
  | _ => exact h

theorem EndsItsBatch.grown_eq {c : ServerCall} (h : EndsItsBatch c) (answer : c.Answer) :
    grown run log c answer = log := by
  cases c with
  | store c =>
      cases c with
      | appendEventsAfter id seen batch party => exact h.elim
      | _ => rfl
  | _ => rfl

theorem safe_delivery {p : Prog ServerSig α} (h : p.Only EndsItsBatch) :
    (Delivery run).Safe (fun later _ => later = log) p log := by
  refine World.safe_of_only (fun c s t hs ht _ => ht ▸ hs) (fun s c hs _ hc => ⟨hc.handsOver, ?_⟩) h rfl
  rintro answer later hstep -
  exact hstep.trans ((hc.grown_eq answer).trans hs)

/-- Programs that leave the known log as it is, and what follows them. -/
theorem endsOnceFrom_bind {β : Type} {p : Prog ServerSig α} {f : α → Prog ServerSig β} (h : p.Only EndsItsBatch)
    (hf : ∀ value, EndsOnceFrom run log (f value)) : EndsOnceFrom run log (p.bind f) := by
  refine World.Safe.bind ((safe_delivery h).mono ?_)
  rintro later value rfl
  exact hf value

theorem endsOnceFrom_call {c : ServerCall} {next : c.Answer → Prog ServerSig α} (hc : EndsItsBatch c)
    (h : ∀ answer, EndsOnceFrom run log (next answer)) : EndsOnceFrom run log (.call c next) := by
  refine World.safe_alone_call.mpr ⟨hc.handsOver, ?_⟩
  rintro answer (later : List Event) hstep
  rw [hstep.trans (hc.grown_eq answer)]
  exact h answer

theorem endsOnceFrom_only {p : Prog ServerSig α} (h : p.Only EndsItsBatch) (hlog : EndsAtTerminal log) :
    EndsOnceFrom run log p :=
  (safe_delivery h).mono fun _ _ heq => heq ▸ hlog

theorem endsOnceFrom_ret {value : α} (hlog : EndsAtTerminal log) : EndsOnceFrom run log (.ret value) := hlog

/-- An append of what the delivery knows beyond the stored log. -/
theorem append_safe (token : Token) {new : List Event} (h : EndsAtTerminal (log ++ new)) :
    (Delivery run).Safe (fun later result => later = if result = .ok (.store .appended) then log ++ new else log)
      (append run token log.length new) log := by
  refine World.Safe.bind ((safe_delivery (only_holds run token).endsItsBatch).mono ?_)
  rintro (later : List Event) held rfl
  dsimp only
  split
  · rfl
  · refine World.safe_alone_call.mpr ⟨⟨h.batch.accepted, rfl, rfl, h⟩, ?_⟩
    rintro done later rfl
    rcases done with _ | (_ | _ | _ | _)
    · rfl
    · exact if_pos rfl
    · rfl
    · rfl
    · rfl

theorem endsOnceFrom_append {β : Type} (token : Token) {new : List Event} {f : Except String Stopped → Prog ServerSig β}
    (h : EndsAtTerminal (log ++ new))
    (happended : EndsOnceFrom run (log ++ new) (f (.ok (.store .appended))))
    (hrefused : ∀ result, result ≠ .ok (.store .appended) → EndsOnceFrom run log (f result)) :
    EndsOnceFrom run log ((append run token log.length new).bind f) := by
  refine World.Safe.bind ((append_safe token h).mono ?_)
  rintro later result rfl
  split
  · next hresult => exact hresult ▸ happended
  · next hresult => exact hrefused result hresult

theorem endsOnceFrom_appendLast (token : Token) {new : List Event} (h : EndsAtTerminal (log ++ new))
    (hlog : EndsAtTerminal log) : EndsOnceFrom run log (append run token log.length new) := by
  refine (append_safe token h).mono ?_
  rintro later result rfl
  split
  · exact h
  · exact hlog

/-! ### Turns -/

/-- A turn that ends at once: cancelled or failed before it ran. -/
theorem endsOnceFrom_endTurn (spec : RunSpec) (token : Token) (attempt : Nat) (event : Event)
    (hopen : hasEnded log = false) :
    EndsOnceFrom spec.runId log (if isBoxTurn spec then endBox spec token attempt [event]
      else append spec.runId token log.length [event]) := by
  have hlog := endsAtTerminal_of_open hopen
  split
  · exact endsOnceFrom_only (only_endBox _ _ _ (endsAtTerminal_single _)).endsItsBatch hlog
  · exact endsOnceFrom_appendLast token (endsOnce_snoc _ _ hopen) hlog

theorem endsOnceFrom_runStartedTurn (spec : RunSpec) (token : Token) (attempt : Nat) (hopen : hasEnded log = false) :
    EndsOnceFrom spec.runId log (runStartedTurn spec log token attempt) := by
  have hlog := endsAtTerminal_of_open hopen
  refine endsOnceFrom_bind (only_stopped _).endsItsBatch fun covered => ?_
  split
  · exact endsOnceFrom_call trivial fun stamps => endsOnceFrom_endTurn spec token attempt _ hopen
  · refine endsOnceFrom_bind (only_holds _ _).endsItsBatch fun held => ?_
    split
    · exact endsOnceFrom_ret hlog
    · refine endsOnceFrom_call trivial fun loaded => ?_
      rcases loaded with _ | (_ | stored)
      · exact endsOnceFrom_ret hlog
      · exact endsOnceFrom_ret hlog
      · dsimp only
        split
        · exact endsOnceFrom_ret hlog
        · split
          · exact endsOnceFrom_only (only_runBoxTurn _ _ _).endsItsBatch hlog
          · exact endsOnceFrom_only ((only_finishTurn _ _ _).bind (only_finishedTurn _)).endsItsBatch hlog

theorem endsOnceFrom_runTurn (spec : RunSpec) (token : Token) (attempt : Nat) (hopen : hasEnded log = false) :
    EndsOnceFrom spec.runId log (runTurn spec log token attempt) := by
  have hlog := endsAtTerminal_of_open hopen
  unfold runTurn
  split
  · exact endsOnceFrom_call trivial fun stamps => endsOnceFrom_endTurn spec token attempt _ hopen
  · split
    · exact endsOnceFrom_runStartedTurn spec token attempt hopen
    · refine endsOnceFrom_call trivial fun stamps => ?_
      have hbegun : hasEnded (log ++ [systemEvent spec (stamps 0) .runStarted]) = false := by
        simp [hopen, systemEvent, isTerminal]
      refine endsOnceFrom_append token (endsAtTerminal_of_open hbegun) ?_ ?_
      · exact endsOnceFrom_runStartedTurn spec token attempt hbegun
      · intro result hrefused
        split
        · exact absurd rfl hrefused
        · exact endsOnceFrom_ret hlog

/-! ### Harness runs -/

theorem append_drop_known {log events : List Event} (h : log <+: events) : log ++ events.drop log.length = events := by
  obtain ⟨rest, rfl⟩ := h
  rw [List.drop_left]

/-- What a delivery knows of the log its driver runs on: an open part of it, as far as it is stored. -/
structure Carried.Tracks (kept : Carried) (seen : Driver.Seen) (log : List Event) : Prop where
  grows : log <+: seen.log
  open_ : hasEnded log = false
  seen_eq : kept.seen = log.length

theorem Carried.Tracks.step {kept : Carried} {seen later : Driver.Seen} {c : HarnessCall} {answer : c.Answer}
    (h : kept.Tracks seen log) (hgrows : seen.log <+: c.log) (hstep : seen.Step c answer later) :
    kept.Tracks later log := by
  subst hstep
  exact ⟨h.grows.trans hgrows, h.open_, h.seen_eq⟩

/-- Carrying out a call keeps track of the log. -/
theorem carry_safe (w : Worker) (spec : RunSpec) (token : Token) {kept : Carried} {seen : Driver.Seen}
    {c : HarnessCall} (h : kept.Tracks seen log) (howes : seen.Owes spec c) :
    (Delivery spec.runId).Safe
      (fun later result => ∃ next, seen.Step c result.1 next ∧ result.2.Tracks next later)
      (w.carry spec token kept c) log := by
  have hquiet : ∀ {p : Prog ServerSig c.Answer}, p.Only EndsItsBatch → (Delivery spec.runId).Safe
      (fun later result => ∃ next, seen.Step c result.1 next ∧ result.2.Tracks next later)
      (p.bind fun answer => .ret (answer, kept)) log := by
    intro p hp
    refine World.Safe.bind ((safe_delivery hp).mono ?_)
    rintro (later : List Event) answer rfl
    exact ⟨_, rfl, h.step howes.grows rfl⟩
  have hask : ∀ call : OutsideCall, (Prog.ask (S := ServerSig) (.outside call)).Only EndsItsBatch :=
    fun call => ⟨trivial, fun _ => trivial⟩
  cases c with
  | decide view => exact hquiet (hask (.harness (.decide view)))
  | tool events name input => exact hquiet (hask (.harness (.tool events name input)))
  | model events request => exact hquiet (hask (.harness (.model events request)))
  | memoryRead events owner key => exact hquiet (hask (.harness (.memoryRead events owner key)))
  | memoryWrite events owner key value => exact hquiet (hask (.harness (.memoryWrite events owner key value)))
  | spawn events request => exact hquiet ((only_startChild w.v5 request events).mono fun _ => IsAside.endsItsBatch)
  | send events request => exact hquiet ((only_send w.v5 request events).mono fun _ => IsAside.endsItsBatch)
  | boundary driver =>
      have hgrows : log <+: driver.events := h.grows.trans howes.grows
      have hall : log ++ driver.events.drop kept.seen = driver.events := by
        rw [h.seen_eq]
        exact append_drop_known hgrows
      have hopen : hasEnded driver.events = false := howes.open_
      refine World.Safe.bind ((safe_delivery (only_stopped _).endsItsBatch).mono ?_)
      rintro (later : List Event) covered rfl
      dsimp only
      split
      · exact ⟨_, rfl, h.step howes.grows rfl⟩
      · split
        · exact ⟨_, rfl, h.step howes.grows rfl⟩
        · rw [h.seen_eq]
          refine World.Safe.bind ((append_safe token ?_).mono ?_)
          · rw [← h.seen_eq, hall]
            exact endsAtTerminal_of_open hopen
          · rintro (later' : List Event) result rfl
            rw [← h.seen_eq, hall]
            split
            · exact ⟨_, rfl, List.prefix_refl _, by simpa using hopen, by simp⟩
            · next hrefused =>
                rw [if_neg fun h => hrefused h]
                exact ⟨_, rfl, (h.step howes.grows rfl).grows, h.open_, h.seen_eq⟩

theorem endsOnceFrom_storeTail (spec : RunSpec) (token : Token) (driver : Driver) {tail : List Event}
    (h : EndsAtTerminal (log ++ tail)) (hlog : EndsAtTerminal log) :
    EndsOnceFrom spec.runId log (storeTail spec token log.length driver tail) := by
  unfold storeTail
  split
  · exact endsOnceFrom_ret hlog
  · exact endsOnceFrom_append token h (endsOnceFrom_ret h) fun result _ => endsOnceFrom_ret hlog

theorem endsOnceFrom_drive (w : Worker) {spec : RunSpec} (token : Token) (tools : List ToolDescriptor)
    {driver : Driver} (hresumed : Driver.Resumed spec log driver) (hopen : hasEnded log = false) :
    EndsOnceFrom spec.runId log (w.drive spec token tools driver log.length) := by
  have hends : EndsOnce isTerminal (payloads log) := (endsAtTerminal_iff log).mp (endsAtTerminal_of_open hopen)
  have hstart : Carried.Tracks ⟨log.length, none⟩ ⟨log, false⟩ log := ⟨List.prefix_refl _, hopen, rfl⟩
  have hsafe : (Delivery spec.runId).Safe _ ((Driver.runUntil tools driver).handle (w.carry spec token) _) log :=
    World.Safe.handle (fun seen (kept : Carried) (later : List Event) => kept.Tracks seen later)
      (fun seen kept later c htracks _ howes => carry_safe w spec token htracks howes)
      (hresumed.runUntil_returns hends tools) hstart trivial
  refine World.Safe.bind (hsafe.mono ?_)
  rintro (later : List Event) ⟨⟨driver, finish⟩, kept⟩ ⟨seen, hreturns, htracks⟩
  have hlater := endsAtTerminal_of_open htracks.open_
  dsimp only
  split
  · exact endsOnceFrom_ret hlater
  · refine endsOnceFrom_call trivial fun stamps => ?_
    have hall := append_drop_known (htracks.grows.trans hreturns.grows)
    rw [htracks.seen_eq]
    refine endsOnceFrom_storeTail spec token driver ?_ hlater
    unfold tailOf
    rw [← List.append_assoc, hall]
    split
    · next _ error => exact endsOnce_snoc _ _ (hreturns.failed error rfl).1
    · rw [List.append_nil]
      exact (endsAtTerminal_iff _).mpr hreturns.ends

/-- What a worker sets leaves the log as it was resumed. -/
theorem Worker.setUp_eq (w : Worker) (driver : Driver) (targets : List DelegateTarget) :
    w.setUp driver targets =
      driver.setUp ⟨driver.skills, true, w.messages || driver.deliverer, true, targets⟩ := by
  unfold Worker.setUp
  cases hmessages : w.messages with
  | true => rfl
  | false => rfl

theorem only_delegation (spec : RunSpec) : (delegation spec).Only EndsLog := by
  unfold delegation
  split
  · trivial
  · refine ⟨trivial, fun agents => ?_⟩
    cases agents <;> trivial

theorem only_toolsOf (w : Worker) (spec : RunSpec) : (w.toolsOf spec).Only EndsLog := by
  unfold Worker.toolsOf
  split
  · exact ⟨trivial, fun _ => trivial⟩
  · refine ⟨trivial, fun found => ?_⟩
    rcases found with _ | (_ | agent)
    · trivial
    · trivial
    · dsimp only
      split
      · trivial
      · exact ⟨trivial, fun _ => trivial⟩

/-- The decider's client builds, or `resume` has not completed the run. -/
def ClientBuilds (w : Worker) (spec : RunSpec) (events : List Event) : Prop :=
  w.jevClient = .ok () ∨ isTurn spec = true ∨ ∀ outcome, (fold spec events).harness ≠ .completed outcome

theorem endsOnceFrom_runHarness (w : Worker) (spec : RunSpec) (token : Token) (hopen : hasEnded log = false)
    (hclient : w.jevClient = .ok () ∨ ∀ outcome, (fold spec log).harness ≠ .completed outcome) :
    EndsOnceFrom spec.runId log (w.runHarness spec log token) := by
  have hlog := endsAtTerminal_of_open hopen
  refine endsOnceFrom_call trivial fun stamps => ?_
  split
  · exact endsOnceFrom_appendLast token (endsOnce_snoc _ _ hopen) hlog
  · next driver hresume =>
      have hresumed := Driver.resume_cases hresume
      refine endsOnceFrom_bind (only_holds _ _).endsItsBatch fun held => ?_
      split
      · exact endsOnceFrom_ret hlog
      · refine endsOnceFrom_bind (only_delegation _).endsItsBatch fun targets => ?_
        have hset : Driver.Resumed spec log (w.setUp driver targets) := by
          rw [Worker.setUp_eq]
          exact hresumed.setUp _
        split
        · next message herror =>
            have hnot := hclient.resolve_left (by simp [herror])
            refine endsOnceFrom_call trivial fun stamps => endsOnceFrom_appendLast token ?_ hlog
            rw [← List.append_assoc, append_drop_known hset.grows]
            exact endsOnce_snoc _ _ (hset.logEnded_of_open hopen hnot)
        · refine endsOnceFrom_bind (only_toolsOf w spec).endsItsBatch fun found => ?_
          cases found with
          | error error => exact endsOnceFrom_ret hlog
          | ok tools => exact endsOnceFrom_drive w token tools hset hopen

/-- Scheduling a run leaves its harness as it is. -/
theorem harness_scheduled (spec : RunSpec) (events : List Event) (stamps : Nat → Stamp) :
    (fold spec (events ++ dispatchEvents spec stamps)).harness = (fold spec events).harness := by
  have hsame : ∀ state payload, payload = .runScheduled ∨ payload = .runProvisioning ∨ payload = .runStarting →
      (reduce state payload spec).1 = state := by
    rintro state payload (rfl | rfl | rfl) <;> cases state <;> rfl
  rw [fold_harness, fold_harness, payloads_append]
  change harnessOf spec (payloads events ++ ([.runScheduled] ++ [.runProvisioning] ++ [.runStarting])) = _
  rw [← List.append_assoc, ← List.append_assoc, harnessOf_snoc, harnessOf_snoc, harnessOf_snoc,
    hsame _ .runScheduled (by simp), hsame _ .runProvisioning (by simp), hsame _ .runStarting (by simp)]

theorem hasEnded_scheduled (spec : RunSpec) {events : List Event} (stamps : Nat → Stamp)
    (h : hasEnded events = false) : hasEnded (events ++ dispatchEvents spec stamps) = false := by
  rw [hasEnded_append, h]
  rfl

theorem endsOnceFrom_runFrom (w : Worker) (spec : RunSpec) (token : Token) (attempt : Nat)
    (hopen : hasEnded log = false) (hclient : ClientBuilds w spec log) :
    EndsOnceFrom spec.runId log (w.runFrom spec log token attempt) := by
  have hlog := endsAtTerminal_of_open hopen
  have hscheduled : ∀ events, hasEnded events = false → (fold spec events).harness = (fold spec log).harness →
      EndsOnceFrom spec.runId events (w.runScheduled spec events token attempt) := by
    intro events hevents hharness
    unfold Worker.runScheduled
    split
    · exact endsOnceFrom_runTurn spec token attempt hevents
    · next hturn =>
        refine endsOnceFrom_runHarness w spec token hevents ?_
        rw [hharness]
        exact hclient.imp_right fun h => h.resolve_left hturn
  unfold Worker.runFrom
  rw [if_neg (by simp [hopen])]
  refine endsOnceFrom_bind (only_stopped _).endsItsBatch fun covered => ?_
  split
  · exact endsOnceFrom_call trivial fun stamps => endsOnceFrom_endTurn spec token attempt _ hopen
  · split
    · refine endsOnceFrom_call trivial fun stamps => ?_
      have hladder := hasEnded_scheduled spec stamps hopen
      refine endsOnceFrom_append token (endsAtTerminal_of_open hladder) ?_ ?_
      · exact hscheduled _ hladder (harness_scheduled spec log stamps)
      · intro result hrefused
        split
        · exact absurd rfl hrefused
        · exact endsOnceFrom_ret hlog
    · exact hscheduled log hopen rfl

end Delivery

section
variable {α : Type} {run : RunId} {log : List Event}

/-- One answer of a delivery. -/
theorem EndsOnceFrom.answered {c : ServerCall} {next : c.Answer → Prog ServerSig α}
    (h : EndsOnceFrom run log (.call c next)) (answer : c.Answer) :
    HandsOver run log c ∧ EndsOnceFrom run (grown run log c answer) (next answer) :=
  ⟨(World.safe_alone_call.mp h).1, (World.safe_alone_call.mp h).2 answer _ rfl⟩

theorem grown_appended (run : RunId) (log batch : List Event) (seen : Nat) (party : Party) :
    grown run log (.store (.appendEventsAfter run seen batch party)) (.ok .appended) = log ++ batch := if_pos rfl

theorem EndsOnceFrom.delegation {spec : RunSpec} {f : List DelegateTarget → Prog ServerSig α}
    (h : EndsOnceFrom run log ((delegation spec).bind f)) : EndsOnceFrom run log (f []) := by
  unfold Gol.delegation at h
  split at h
  · exact h
  · exact (h.answered (.error ⟨""⟩)).2

/-- Resuming a completed harness that has not ended ends it. -/
theorem resume_completed {spec : RunSpec} {outcome : String} (stamp : Nat → Stamp) (hopen : hasEnded log = false)
    (hcompleted : (fold spec log).harness = .completed outcome) :
    ∃ driver event, Driver.resume spec log stamp = .ok driver ∧ driver.events = log ++ [event] ∧
      event.payload = .runCompleted outcome := by
  have hstarted : .runStarted ∈ payloads log := by
    by_contra hnot
    rw [fold_harness, harnessOf_of_not_started hnot] at hcompleted
    contradiction
  have hany := (Driver.mem_runStarted_iff log).mpr hstarted
  have hstate : (Driver.bare spec log stamp).state.harness = .completed outcome := hcompleted
  refine ⟨({ Driver.bare spec log stamp with resumed := true }).push (.runCompleted outcome) .system,
    Event.record spec .system (stamp log.length) (.runCompleted outcome), ?_, rfl, rfl⟩
  simp only [Driver.resume, hopen, Bool.false_eq_true, ↓reduceIte, hany, Bool.not_true, hstate]

theorem not_endsOnceFrom_runHarness (w : Worker) (spec : RunSpec) (token : Token) (hopen : hasEnded log = false)
    {message outcome : String} (herror : w.jevClient = .error message)
    (hcompleted : (fold spec log).harness = .completed outcome) :
    ¬ EndsOnceFrom spec.runId log (w.runHarness spec log token) := by
  intro h
  obtain ⟨driver, event, hresume, hevents, hend⟩ := resume_completed Stamp.plain hopen hcompleted
  have h1 := (h.answered Stamp.plain).2
  simp only [hresume] at h1
  have h2 := EndsOnceFrom.delegation (h1.answered (.ok true)).2
  simp only [herror] at h2
  obtain ⟨⟨-, -, -, hends⟩, -⟩ := ((h2.answered Stamp.plain).2.answered (.ok true)).2.answered (.ok .appended)
  have hsame : (w.setUp driver []).events = log ++ [event] := by rw [Worker.setUp_eq]; exact hevents
  rw [hsame, List.drop_left] at hends
  have hlast := hends.batch 0 event rfl (by simp [hend, isTerminal])
  simp at hlast

theorem not_endsOnceFrom_runFrom (w : Worker) (spec : RunSpec) (token : Token) (attempt : Nat)
    (hopen : hasEnded log = false) (hclient : ¬ ClientBuilds w spec log) :
    ¬ EndsOnceFrom spec.runId log (w.runFrom spec log token attempt) := by
  simp only [ClientBuilds, not_or, not_forall, not_not] at hclient
  obtain ⟨hjev, hturn, outcome, hcompleted⟩ := hclient
  obtain ⟨message, herror⟩ : ∃ message, w.jevClient = .error message := by
    cases hclient : w.jevClient with
    | error message => exact ⟨message, rfl⟩
    | ok _ => exact absurd hclient hjev
  intro h
  unfold Worker.runFrom at h
  rw [if_neg (by simp [hopen])] at h
  have h1 := (h.answered none).2
  change EndsOnceFrom spec.runId log (if (fold spec log).dispatch = .queued then _ else _) at h1
  split at h1
  · have h2 := (((h1.answered Stamp.plain).2.answered (.ok true)).2.answered (.ok .appended)).2
    change EndsOnceFrom spec.runId (grown spec.runId log (.store (.appendEventsAfter spec.runId log.length _ _))
      (.ok .appended)) (w.runScheduled spec (log ++ dispatchEvents spec Stamp.plain) token attempt) at h2
    rw [grown_appended, Worker.runScheduled, if_neg hturn] at h2
    have hladder := harness_scheduled spec log Stamp.plain
    rw [hcompleted] at hladder
    exact not_endsOnceFrom_runHarness w spec token (hasEnded_scheduled spec _ hopen) herror hladder h2
  · change EndsOnceFrom spec.runId log (w.runScheduled spec log token attempt) at h1
    rw [Worker.runScheduled, if_neg hturn] at h1
    exact not_endsOnceFrom_runHarness w spec token hopen herror hcompleted h1
end

/-! ### Inline runs -/

/-- Every boundary goes on; any other call is made as it is. -/
def goesOn (_ : Unit) : (c : HarnessCall) → Prog HarnessSig (c.Answer × Unit)
  | .boundary _ => .ret (.continue, ())
  | c => .call c fun answer => .ret (answer, ())

def runToCompletion (tools : List ToolDescriptor) (driver : Driver) : Prog HarnessSig (Driver × Driver.Finish) :=
  ((Driver.runUntil tools driver).handle goesOn ()).bind fun result => .ret result.1

/-- Runs the harness inline and returns every event it recorded, with how the run ended. -/
def runWithJev (jevClient : Except String Unit) (spec : RunSpec) (stamps : Nat → Stamp)
    (delegation : Option (List DelegateTarget)) (tools : List ToolDescriptor) :
    Prog HarnessSig (List Event × Except String Unit) :=
  let driver := Driver.boot spec stamps
  let driver := match delegation with
    | some targets => driver.withSpawner targets
    | none => driver
  match jevClient with
  | .error message => .ret ([], .error message)
  | .ok _ =>
      (runToCompletion tools driver).bind fun result =>
      .ret (result.1.events, match result.2 with
        | .failed error => .error error.message
        | _ => .ok ())

/-- The events an inline run records: what the harness did, and the `RunFailed` that ends it when it could not
finish. -/
def harnessEvents (jevClient : Except String Unit) (spec : RunSpec) (stamps failed : Nat → Stamp)
    (delegation : Option (List DelegateTarget)) (tools : List ToolDescriptor) : Prog HarnessSig (List Event) :=
  (runWithJev jevClient spec stamps delegation tools).bind fun result =>
  .ret (result.1 ++ match result.2 with
    | .error message => [runFailedEvent spec failed .dependency ("decider: " ++ message)]
    | .ok _ => [])

/-- The driver an inline run boots. -/
theorem resumed_boot (spec : RunSpec) (stamps : Nat → Stamp) (delegation : Option (List DelegateTarget)) :
    Driver.Resumed spec [] (match delegation with
      | some targets => (Driver.boot spec stamps).withSpawner targets
      | none => Driver.boot spec stamps) := by
  have hboot : Driver.Resumed spec [] (Driver.boot spec stamps) := Driver.resume_cases (Driver.resume_nil spec stamps)
  cases delegation with
  | none => exact hboot
  | some targets => exact hboot.setUp ⟨[], true, false, false, targets⟩

/-- Any answers. -/
abbrev Anyhow (S : Sig) : World S := World.alone Unit (fun _ _ _ _ => True) (fun _ _ => True)

theorem runToCompletion_returns {spec : RunSpec} {driver : Driver} (h : Driver.Resumed spec [] driver)
    (tools : List ToolDescriptor) :
    (Anyhow HarnessSig).Safe (fun _ result => ∃ seen, Driver.Returns spec seen result)
      (runToCompletion tools driver) () := by
  have hsafe : (Anyhow HarnessSig).Safe (fun _ result => ∃ seen, Driver.Returns spec seen result.1 ∧ True)
      ((Driver.runUntil tools driver).handle goesOn ()) () := by
    refine World.Safe.handle (fun _ _ _ => True) ?_
      (h.runUntil_returns (endsOnce_of_none rfl) tools) trivial trivial
    intro seen kept s c _ _ _
    cases c with
    | boundary d => exact ⟨_, rfl, trivial⟩
    | _ => exact World.safe_alone_call.mpr ⟨trivial, fun answer _ _ => ⟨_, rfl, trivial⟩⟩
  refine World.Safe.bind (hsafe.mono ?_)
  rintro _ ⟨result, _⟩ ⟨seen, hreturns, -⟩
  exact ⟨seen, hreturns⟩

/-- The events of an inline run end once, whatever its calls are answered. -/
theorem harnessEvents_endsOnce (jevClient : Except String Unit) (spec : RunSpec) (stamps failed : Nat → Stamp)
    (delegation : Option (List DelegateTarget)) (tools : List ToolDescriptor) {events : List Event}
    (h : (harnessEvents jevClient spec stamps failed delegation tools).Yields events) : EndsAtTerminal events := by
  have hsafe : (Anyhow HarnessSig).Safe (fun _ events => EndsAtTerminal events)
      (harnessEvents jevClient spec stamps failed delegation tools) () := by
    unfold harnessEvents runWithJev
    cases jevClient with
    | error message => exact endsAtTerminal_single _
    | ok _ =>
        refine World.Safe.bind (World.Safe.bind ((runToCompletion_returns (resumed_boot _ _ _) tools).mono ?_))
        rintro _ ⟨driver, finish⟩ ⟨seen, hreturns⟩
        change EndsAtTerminal (driver.events ++ _)
        cases finish with
        | failed error => exact endsOnce_snoc _ _ (hreturns.failed error rfl).1
        | ok | outOfFuel =>
            rw [List.append_nil]
            exact (endsAtTerminal_iff _).mpr hreturns.ends
  exact hsafe.run (fun _ _ _ _ _ => trivial) trivial h

/-- The log of a driver resumed from an open log ends once, with the `RunFailed` of a decider that failed, whatever
its calls and its boundaries are answered. -/
theorem runUntil_endsOnce {spec : RunSpec} {events : List Event} (hopen : hasEnded events = false) {driver : Driver}
    (hresumed : Driver.Resumed spec events driver) (failed : Nat → Stamp) {tools : List ToolDescriptor}
    {result : Driver × Driver.Finish} (h : (Driver.runUntil tools driver).Yields result) :
    EndsAtTerminal (tailOf spec failed 0 result.1 result.2) := by
  have hends : EndsOnce isTerminal (payloads events) := (endsAtTerminal_iff _).mp (endsAtTerminal_of_open hopen)
  have htotal : ∀ (s : Driver.Seen) c answer, ∃ t, Driver.Seen.Step s c answer t := fun _ _ _ => ⟨_, rfl⟩
  obtain ⟨seen, hrun⟩ := h.run htotal ⟨events, false⟩
  have hreturns := (hresumed.runUntil_returns hends tools).run (fun _ _ _ _ _ => trivial) trivial hrun
  unfold tailOf
  rw [List.drop_zero]
  split
  · next _ error heq => exact endsOnce_snoc _ _ (hreturns.failed error heq).1
  · rw [List.append_nil]
    exact (endsAtTerminal_iff _).mpr hreturns.ends

/-- The log of a driver resumed from an open log ends once, and so do an inline run's; a delivery of an open log hands
over only what the store accepts, and leaves a log that ends once, exactly when the decider's client builds or the
log's harness has not completed. -/
theorem one_end_iff_client_builds (w : Worker) (spec : RunSpec) (events : List Event) (token : Token) (attempt : Nat)
    (hopen : hasEnded events = false) :
    (EndsOnceFrom spec.runId events (w.runFrom spec events token attempt) ↔ ClientBuilds w spec events) ∧
    (∀ stamps setup failed tools driver result, Driver.resume spec events stamps = .ok driver →
      (Driver.runUntil tools (driver.setUp setup)).Yields result →
        EndsAtTerminal (tailOf spec failed 0 result.1 result.2)) ∧
    ∀ stamps failed delegation tools inlined,
      (harnessEvents w.jevClient spec stamps failed delegation tools).Yields inlined →
        checkOneTerminal inlined = .ok () ∧ EndsAtTerminal inlined := by
  refine ⟨⟨fun h => ?_, endsOnceFrom_runFrom w spec token attempt hopen⟩, ?_, ?_⟩
  · by_contra hclient
    exact not_endsOnceFrom_runFrom w spec token attempt hopen hclient h
  · intro stamps setup failed tools driver result hresume hyields
    exact runUntil_endsOnce hopen ((Driver.resume_cases hresume).setUp setup) failed hyields
  · intro stamps failed delegation tools inlined hyields
    have hends := harnessEvents_endsOnce _ _ _ _ _ _ hyields
    exact ⟨hends.accepted, hends⟩

/-- A log cut between an authorized Complete and its `RunCompleted`. -/
def cutAtCompletion : List Event :=
  let spec := RunSpec.plain 1 ⟨8, 4⟩
  [systemEvent spec (.plain 0) .runStarted, systemEvent spec (.plain 1) (.effectDecided (.complete "done")),
    systemEvent spec (.plain 2) (.effectAuthorized (.complete "done"))]

def workerWith (jevClient : Except String Unit) : Worker := ⟨5, false, false, jevClient, fun _ => 0⟩

theorem one_end_at_cut :
    hasEnded cutAtCompletion = false ∧
      EndsOnceFrom ⟨1⟩ cutAtCompletion ((workerWith (.ok ())).runFrom (.plain 1 ⟨8, 4⟩) cutAtCompletion 7 1) :=
  ⟨by decide, (one_end_iff_client_builds _ (.plain 1 ⟨8, 4⟩) _ 7 1 (by decide)).1.mpr (.inl rfl)⟩

/-- Without a client the worker hands over a `RunCompleted` followed by a `RunFailed`, which the store refuses. -/
theorem lost_client_ends_twice :
    hasEnded cutAtCompletion = false ∧
      ¬ EndsOnceFrom ⟨1⟩ cutAtCompletion
        ((workerWith (.error "no client")).runFrom (.plain 1 ⟨8, 4⟩) cutAtCompletion 7 1) := by
  refine ⟨by decide, not_endsOnceFrom_runFrom _ (.plain 1 ⟨8, 4⟩) 7 1 (by decide) ?_⟩
  rintro (hok | hturn | hnot)
  · cases hok
  · revert hturn
    decide
  · exact hnot "done" (by decide +kernel)

end Gol
