import Gol.ServerReach

/-! The readings of a stored log. Whatever the server's programs write, in any order they allow, the log's terminal
event, its dispatch, its harness and its card agree on whether and how the run ended. -/

namespace Gol
open Library World

/-! ### Cards -/

/-- A card's state, from the fold of its run's log. -/
inductive CardState where
  | queued
  | running
  | waiting
  | completed
  | failed
  | cancelled
  | expired
  deriving DecidableEq

def CardState.of (state : RunState) : CardState :=
  match state.dispatch with
  | .created | .queued => .queued
  | .completed _ => .completed
  | .failed _ _ => .failed
  | .cancelled => .cancelled
  | .expired => .expired
  | .waiting _ | .awaitingApproval _ | .paused => .waiting
  | _ =>
      match state.harness with
      | .waitingForMessage _ _ _ => .waiting
      | _ => .running

/-- A queued, running or waiting card. -/
def CardState.isOpen : CardState → Bool
  | .queued | .running | .waiting => true
  | _ => false

theorem CardState.isOpen_of (state : RunState) : (CardState.of state).isOpen = !state.dispatch.isTerminal := by
  unfold CardState.of
  cases state.dispatch with
  | scheduled | provisioning | starting | running | recovering => cases state.harness <;> rfl
  | _ => rfl

/-! ### Readings -/

/-- The readings of a log agree on its end: its terminal event, the dispatch, how the dispatch completed, and the end of
the harness; and a store that holds the log takes a batch exactly while its card is open. -/
structure ReadsAlike (spec : RunSpec) (events : List Event) : Prop where
  ended : hasEnded events = true ↔ (fold spec events).dispatch.isTerminal = true
  completed : ∀ outcome, (fold spec events).dispatch = .completed outcome ↔
    (events.map Event.payload).getLast? = some (.runCompleted outcome)
  harness : (fold spec events).harness.EndsAs (fold spec events).dispatch
  card : ∀ (store : LogStore) (now : Timestamp) (id : RunId) (batch : List Event), store.runs id = some ⟨spec, events⟩ →
    checkOneTerminal batch = .ok () →
      ((CardState.of (fold spec events)).isOpen = true ↔ (store.appendChecked now id none batch).2 = .append .appended)

theorem appendChecked_appended_iff {store : LogStore} {now : Timestamp} {id : RunId} {run : StoredRun}
    {batch : List Event} (hrun : store.runs id = some run) (hbatch : checkOneTerminal batch = .ok ()) :
    (store.appendChecked now id none batch).2 = .append .appended ↔ hasEnded run.events = false := by
  simp only [LogStore.appendChecked, hbatch, hrun]
  cases hended : hasEnded run.events <;> simp

theorem Agrees.readsAlike {spec : RunSpec} {events : List Event} (h : Agrees spec (payloads events)) :
    ReadsAlike spec events := by
  have hended : hasEnded events = (fold spec events).dispatch.isTerminal := by
    rw [fold_dispatch, Driver.hasEnded_eq]
    exact h.ended
  refine ⟨by rw [hended], h.completed, h.harness, fun store now id batch hrun hbatch => ?_⟩
  rw [CardState.isOpen_of, ← hended, appendChecked_appended_iff hrun hbatch]
  simp

/-! ### Inline runs -/

def userMessageEvent (spec : RunSpec) (stamps : Nat → Stamp) : Event :=
  systemEvent spec (stamps 0) (.userMessage spec.input)

/-- The log of an inline run: its user message, what its harness recorded, and what others add to it. Before the harness
has run, that is its end by a stop or a failure. -/
inductive InlineLog (jevClient : Except String Unit) (spec : RunSpec) : List Event → Prop
  | opened (stamps : Nat → Stamp) : InlineLog jevClient spec [userMessageEvent spec stamps]
  | ran (stamps booted failed : Nat → Stamp) (delegation : Option (List DelegateTarget)) (tools : List ToolDescriptor)
      (inlined : List Event) (h : (harnessEvents jevClient spec booted failed delegation tools).Yields inlined) :
      InlineLog jevClient spec (userMessageEvent spec stamps :: inlined)
  | noted {log : List Event} (h : InlineLog jevClient spec log) (hopen : hasEnded log = false) (event : Event)
      (hnote : isNote event.payload = true) (hstarted : isTerminal event.payload = true ∨ .runStarted ∈ payloads log) :
      InlineLog jevClient spec (log ++ [event])

/-- The user's message tells the readings nothing. -/
theorem foldAll_userMessage (spec : RunSpec) (text : String) (log : List EventPayload) :
    foldAll spec (.userMessage text :: log) = foldAll spec log := rfl

theorem Agrees.userMessage {spec : RunSpec} {log : List EventPayload} (h : Agrees spec log) (text : String) :
    Agrees spec (.userMessage text :: log) where
  ended := by
    rw [List.any_cons, dispatchOf, foldAll_userMessage]
    exact h.ended
  completed outcome := by
    rw [dispatchOf, foldAll_userMessage, List.getLast?_cons]
    cases hlast : log.getLast? with
    | none =>
        obtain rfl := List.getLast?_eq_none_iff.mp hlast
        simp [FoldState.init]
    | some payload => simpa [hlast] using h.completed outcome
  harness := by
    rw [harnessOf, dispatchOf, foldAll_userMessage]
    exact h.harness
  started := by
    rw [harnessOf, dispatchOf, foldAll_userMessage]
    exact h.started

/-- The driver an inline run boots has driven the empty log. -/
theorem driven_boot (spec : RunSpec) (stamps : Nat → Stamp) (delegation : Option (List DelegateTarget)) :
    Driver.Driven spec [] (match delegation with
      | some targets => (Driver.boot spec stamps).withSpawner targets
      | none => Driver.boot spec stamps) := by
  have hboot := Driver.resume_driven (Driver.resume_nil spec stamps) rfl (agrees_nil spec)
  cases delegation with
  | none => exact hboot
  | some targets => exact hboot.setUp ⟨[], true, false, false, targets⟩

theorem runToCompletion_drives {spec : RunSpec} {driver : Driver} (h : Driver.Resumed spec [] driver)
    (hdriven : Driver.Driven spec [] driver) (tools : List ToolDescriptor) :
    (Anyhow HarnessSig).Safe (fun _ result => (∃ seen, Driver.Returns spec seen result) ∧
      Driver.Driven spec [] result.1)
      (runToCompletion tools driver) () := by
  have hsafe : (Anyhow HarnessSig).Safe
      (fun _ result => ∃ seen, (Driver.Returns spec seen result.1 ∧ Driver.Driven spec [] result.1.1) ∧ True)
      ((Driver.runUntil tools driver).handle goesOn ()) () := by
    refine Safe.handle (fun _ _ _ => True) ?_ (h.runUntil_drives rfl (agrees_nil spec) hdriven tools) trivial trivial
    intro seen kept s c _ _ _
    cases c with
    | boundary d => exact ⟨_, rfl, trivial⟩
    | _ => exact safe_alone_call.mpr ⟨trivial, fun answer _ _ => ⟨_, rfl, trivial⟩⟩
  refine Safe.bind (hsafe.mono ?_)
  rintro _ ⟨result, _⟩ ⟨seen, ⟨hreturns, hdriven⟩, -⟩
  exact ⟨⟨seen, hreturns⟩, hdriven⟩

/-- The readings of an inline run's events agree, whatever its calls are answered. -/
theorem harnessEvents_agrees (jevClient : Except String Unit) (spec : RunSpec) (stamps failed : Nat → Stamp)
    (delegation : Option (List DelegateTarget)) (tools : List ToolDescriptor) {events : List Event}
    (h : (harnessEvents jevClient spec stamps failed delegation tools).Yields events) :
    Agrees spec (payloads events) := by
  have hsafe : (Anyhow HarnessSig).Safe (fun _ events => Agrees spec (payloads events))
      (harnessEvents jevClient spec stamps failed delegation tools) () := by
    unfold harnessEvents runWithJev
    cases jevClient with
    | error message => exact (agrees_nil spec).snoc rfl nofun nofun nofun
    | ok _ =>
        refine Safe.bind (Safe.bind ((runToCompletion_drives (resumed_boot _ _ _) (driven_boot _ _ _) tools).mono ?_))
        rintro _ ⟨driver, finish⟩ ⟨⟨seen, hreturns⟩, hdriven⟩
        change Agrees spec (payloads (driver.events ++ _))
        cases finish with
        | failed error =>
            have hopen := (hreturns.failed error rfl).1
            rw [payloads_append]
            exact hdriven.agrees.snoc (by rwa [← Driver.logEnded_eq]) nofun nofun nofun
        | ok | outOfFuel =>
            rw [List.append_nil]
            exact hdriven.agrees
  exact hsafe.run (fun _ _ _ _ _ => trivial) trivial h

theorem isNote_plain {payload : EventPayload} (h : isNote payload = true) : Plain payload := by
  refine ⟨fun heq => ?_, fun outcome heq => ?_, fun outcome heq => ?_⟩ <;> simp [heq, isNote] at h

theorem InlineLog.agrees {jevClient : Except String Unit} {spec : RunSpec} {log : List Event}
    (h : InlineLog jevClient spec log) : Agrees spec (payloads log) := by
  induction h with
  | opened stamps => exact (agrees_nil spec).userMessage spec.input
  | ran stamps booted failed delegation tools inlined hyields =>
      exact (harnessEvents_agrees _ _ _ _ _ _ hyields).userMessage spec.input
  | noted _ hopen event hnote _ ih =>
      obtain ⟨hstart, hcompleted, hcomplete⟩ := isNote_plain hnote
      rw [payloads_append]
      refine ih.snoc ?_ hcomplete (fun heq => absurd heq hstart) fun outcome heq => absurd heq (hcompleted outcome)
      rwa [← Driver.hasEnded_eq]

/-! ### Every stored log -/

/-- Whatever the servers' programs have written to a run's log, in any order, and whatever an inline run's log holds,
the readings agree on its end. -/
theorem stored_readsAlike (fleet : Fleet) {pool : Pool} (h : pool.Reach (Serves fleet) anyMove) :
    (∀ id run, pool.server.store.runs id = some run → ReadsAlike run.spec run.events) ∧
      ∀ jevClient spec log, InlineLog jevClient spec log → ReadsAlike spec log :=
  ⟨fun id run hrun => (h.sound.logs id run hrun).2.agrees.readsAlike, fun _ _ _ hlog => hlog.agrees.readsAlike⟩

/-- The log of a run that a worker took to its end. -/
theorem stored_readsAlike_worked :
    ∃ pool : Pool, pool.Reach (Serves .plain) anyMove ∧ ∃ run, pool.server.store.runs ⟨1⟩ = some run ∧
      (fold run.spec run.events).dispatch = .completed "done" ∧ ReadsAlike run.spec run.events := by
  obtain ⟨pool, hreach, hshows⟩ := Pool.reached_of_any queuedAndWorked
    (fun pool => (pool.server.store.runs ⟨1⟩).any fun run => (fold run.spec run.events).dispatch = .completed "done")
    (by decide +kernel) serves_queuedAndWorked
  obtain ⟨run, hrun, hcompleted⟩ := (Option.any_eq_true ..).mp hshows
  exact ⟨pool, hreach, run, hrun, by simpa using hcompleted, (stored_readsAlike .plain hreach).1 ⟨1⟩ run hrun⟩

end Gol
