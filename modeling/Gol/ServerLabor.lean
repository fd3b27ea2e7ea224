import Gol.ServerIsolation
import Gol.ServerLineage
import Gol.ServerTail

/-! The work on a run tends to the principal that holds the run. Whatever its decider, tools, models and memory
answer, what a worker calls for it (its log, its children, its messages, its sandboxes and its place in the queue) is
the principal's own. -/

namespace Gol
open Library

/-- A child's id is held by its parent's holder. -/
def Holders.Derives (holders : Holders) (v5 : ChildName → Uuid) : Prop :=
  ∀ name, holders.run ⟨v5 name⟩ = holders.run name.parent

variable {holders : Holders} {k : Principal} {α β : Type}

namespace Site

/-- The program of the server makes the principal's calls only, and is answered from what the principal is shown. -/
abbrev WorksFor (holders : Holders) (k : Principal) (p : Prog ServerSig α) : Prop := Attends holders k (onServer p)

theorem worksFor_ret (value : α) : WorksFor holders k (.ret value) := Tenancy.tends_ret trivial

theorem worksFor_call {c : ServerCall} {next : c.Answer → Prog ServerSig α} (hinner : Inward holders k c)
    (h : ∀ answer, WorksFor holders k (next answer)) : WorksFor holders k (.call c next) :=
  tends_own hinner fun _ answer _ _ => h answer

theorem WorksFor.bind {p : Prog ServerSig α} {f : α → Prog ServerSig β} (h : WorksFor holders k p)
    (hf : ∀ value, WorksFor holders k (f value)) : WorksFor holders k (p.bind f) := by
  rw [WorksFor, onServer_bind]
  exact Tenancy.Tends.bind h fun value _ => hf value

/-- A program whose calls all are the principal's, and what follows. -/
theorem worksFor_bind {p : Prog ServerSig α} {f : α → Prog ServerSig β} (h : p.Only (Inward holders k))
    (hf : ∀ value, WorksFor holders k (f value)) : WorksFor holders k (p.bind f) :=
  WorksFor.bind (tends_onServer h) hf

/-- A program with its calls carried out by programs that work for the principal. -/
theorem worksFor_handle {S : Sig} {τ : Type}
    {h : τ → (c : S.Call) → Prog ServerSig (S.Answer c × τ)} {P : S.Call → Prop}
    (hcall : ∀ kept c, P c → WorksFor holders k (h kept c)) {p : Prog S α} (hp : p.Only P) (kept : τ) :
    WorksFor holders k (p.handle h kept) := by
  induction p generalizing kept with
  | ret value => exact worksFor_ret _
  | call c next ih => exact (hcall kept c hp.1).bind fun answered => ih answered.1 (hp.2 answered.1) answered.2

/-- A run of the principal's, under none or another of its own. -/
structure Kin (holders : Holders) (k : Principal) (spec : RunSpec) : Prop where
  run : holders.run spec.runId = k
  owner : principal spec.owner = k
  parent : ∀ parent, spec.lineage.parent = some parent → holders.run parent = k

theorem Held.kin {s : Site} (h : s.Held holders) {id : RunId} {stored : StoredRun}
    (hstored : s.server.store.runs id = some stored) (hid : holders.run id = k) : Kin holders k stored.spec where
  run := by rw [(held_run h hstored).2, hid]
  owner := (held_run h hstored).1.trans hid
  parent parent hparent := (h.runs.family id stored parent hstored hparent).trans hid

/-! ### The lease, the log and the sandboxes -/

section Runs

variable {run : RunId} {token : Token}

theorem only_stopped (hrun : holders.run run = k) : (stopped run).Only (Inward holders k) := by
  refine ⟨⟨hrun, trivial⟩, fun answer => ?_⟩
  rcases answer with _ | error | covered <;> trivial

theorem only_holds (hrun : holders.run run = k) (token : Token) : (holds run token).Only (Inward holders k) := by
  refine ⟨⟨hrun, trivial⟩, fun answer => ?_⟩
  rcases answer with error | (_ | _) <;> trivial

theorem only_append (hrun : holders.run run = k) (token : Token) (seen : Nat) (new : List Event) :
    (append run token seen new).Only (Inward holders k) := by
  refine (only_holds hrun token).bind fun held => ?_
  split
  · trivial
  · refine ⟨⟨hrun, trivial⟩, fun done => ?_⟩
    cases done <;> trivial

theorem only_removeAttempt (hrun : holders.run run = k) (token : Token) (attempt : Nat) :
    (removeAttempt run token attempt).Only (Inward holders k) := by
  refine ⟨⟨hrun, trivial⟩, fun gone => ?_⟩
  rcases gone with error | (_ | _)
  on_goal 3 => trivial
  all_goals
    -- What is not known to be gone is destroyed, and asked for again.
    refine ⟨⟨hrun, trivial⟩, fun removed => ?_⟩
    cases removed with
    | error message => trivial
    | ok _ =>
        refine ⟨⟨hrun, trivial⟩, fun gone => ?_⟩
        rcases gone with error | (_ | _) <;> trivial

theorem only_cleanBox (hrun : holders.run run = k) (token : Token) (attempts : Nat) :
    (cleanBox run token attempts).Only (Inward holders k) := by
  unfold cleanBox
  generalize List.range' 1 attempts = numbers
  induction numbers with
  | nil => trivial
  | cons attempt rest ih =>
      refine (only_removeAttempt hrun token attempt).bind fun removed => ?_
      cases removed with
      | error error => trivial
      | ok _ => exact ih

end Runs

section Turns

variable {spec : RunSpec} (hrun : holders.run spec.runId = k) (token : Token)
include hrun

theorem only_endBox (attempt : Nat) (ending : List Event) :
    (endBox spec token attempt ending).Only (Inward holders k) := by
  refine (only_cleanBox hrun token attempt).bind fun cleaned => ?_
  cases cleaned with
  | error error => trivial
  | ok _ =>
      refine (only_holds hrun token).bind fun held => ?_
      split
      · trivial
      · refine ⟨⟨hrun, trivial⟩, fun done => ?_⟩
        cases done <;> trivial

/-- A turn that ends at once. -/
theorem only_endTurn (attempt seen : Nat) (ending : List Event) :
    (if isBoxTurn spec then endBox spec token attempt ending
      else append spec.runId token seen ending).Only (Inward holders k) := by
  split
  · exact only_endBox hrun token attempt ending
  · exact only_append hrun token seen ending

theorem only_runBoxTurn (attempt : Nat) : (runBoxTurn spec token attempt).Only (Inward holders k) := by
  have hdrop : ((dropOwn (.attempt spec.runId attempt) token).bind fun _ => .ret (.ok .lostLease) :
      Prog ServerSig (Except String Stopped)).Only (Inward holders k) := ⟨⟨hrun, trivial⟩, fun _ => trivial⟩
  refine (only_holds hrun token).bind fun held => ?_
  split
  · trivial
  · refine ⟨⟨hrun, trivial⟩, fun provisioned => ?_⟩
    cases provisioned with
    | error message => exact ⟨⟨trivial, trivial⟩, fun stamps => only_endBox hrun token attempt _⟩
    | ok _ =>
        refine (only_holds hrun token).bind fun held => ?_
        split
        · exact hdrop
        · refine (only_stopped hrun).bind fun covered => ?_
          split
          · exact ⟨⟨trivial, trivial⟩, fun stamps => only_endBox hrun token attempt _⟩
          · refine ⟨⟨hrun, trivial⟩, fun answer => (only_holds hrun token).bind fun held => ?_⟩
            split
            · exact hdrop
            · refine ⟨⟨trivial, trivial⟩, fun stamps => ?_⟩
              cases answer <;> exact only_endBox hrun token attempt _

theorem only_finishedTurn (result : Except TurnError TurnOutcome) :
    (finishedTurn spec result).Only (Inward holders k) := by
  have hunfinished : (unfinishedTurn spec).Only (Inward holders k) := by
    refine ⟨⟨trivial, hrun⟩, fun loaded => ?_⟩
    rcases loaded with _ | (_ | run)
    · trivial
    · trivial
    · simp only
      split <;> trivial
  rcases result with error | outcome
  · cases error with
    | conflict | notFound => trivial
    | proxy | sandbox | store | badRequest => exact hunfinished
  · trivial

theorem only_runStartedTurn (events : List Event) (attempt : Nat) :
    (runStartedTurn spec events token attempt).Only (Inward holders k) := by
  refine (only_stopped hrun).bind fun covered => ?_
  split
  · exact ⟨⟨trivial, trivial⟩, fun stamps => only_endTurn hrun token attempt _ _⟩
  · refine (only_holds hrun token).bind fun held => ?_
    split
    · trivial
    · refine ⟨⟨trivial, hrun⟩, fun loaded => ?_⟩
      rcases loaded with _ | (_ | run)
      · trivial
      · trivial
      · simp only
        split
        · trivial
        · split
          · exact only_runBoxTurn hrun token attempt
          · exact (only_finishTurn hrun events _).bind fun result => only_finishedTurn hrun result

theorem only_runTurn (events : List Event) (attempt : Nat) :
    (runTurn spec events token attempt).Only (Inward holders k) := by
  unfold runTurn
  split
  · exact ⟨⟨trivial, trivial⟩, fun stamps => only_endTurn hrun token attempt _ _⟩
  · split
    · exact only_runStartedTurn hrun token events attempt
    · refine ⟨⟨trivial, trivial⟩, fun stamps => (only_append hrun token _ _).bind fun result => ?_⟩
      split
      · exact only_runStartedTurn hrun token _ attempt
      · trivial

/-! ### The harness -/

theorem only_atBoundary (kept : Carried) (driver : Driver) :
    (atBoundary spec token kept driver).Only (Inward holders k) := by
  refine (only_stopped hrun).bind fun covered => ?_
  split
  · trivial
  · simp only
    split
    · trivial
    · refine (only_append hrun token _ _).bind fun result => ?_
      split <;> trivial

theorem only_storeTail (seen : Nat) (driver : Driver) (tail : List Event) :
    (storeTail spec token seen driver tail).Only (Inward holders k) := by
  unfold storeTail
  split
  · trivial
  · exact (only_append hrun token _ _).bind fun result => trivial

end Turns

theorem only_delegation {spec : RunSpec} (howner : principal spec.owner = k) :
    (delegation spec).Only (Inward holders k) := by
  unfold delegation
  split
  · trivial
  · refine ⟨⟨howner, trivial⟩, fun agents => ?_⟩
    cases agents <;> trivial

/-! ### Children -/

section Children

variable {v5 : ChildName → Uuid} {request : ChildRequest} {spec : RunSpec}

theorem Kin.child (h : Kin holders k request.parent) (hderives : holders.Derives v5) (agent : AgentManifest) :
    Kin holders k (childOf v5 request agent) where
  run := (hderives _).trans h.run
  owner := h.owner
  parent parent hparent := by
    obtain rfl : request.parent.runId = parent := Option.some.inj hparent
    exact h.run

/-- The child that is asked for is the principal's. An agent of another principal's makes none. -/
theorem tends_childOfAgent (h : Kin holders k request.parent) (hderives : holders.Derives v5) :
    (tenancy holders).Tends k (fun result => ∀ spec, result = .ok spec → Kin holders k spec)
      (onServer (childOfAgent v5 request)) := by
  obtain rfl := h.owner
  refine tends_agent_of_foreign (fun agent agent' his his' => ?_) fun found => ?_
  · simp only [his, his']
    rfl
  · rcases found with error | (_ | agent)
    · exact Tenancy.tends_ret fun spec heq => by cases heq
    · exact Tenancy.tends_ret fun spec heq => by cases heq
    · simp only
      split
      · exact Tenancy.tends_ret fun spec heq => by cases heq
      · refine Tenancy.tends_ret fun spec heq => ?_
        rw [← Except.ok.inj heq]
        exact h.child hderives agent.manifest

theorem tends_childSpec (h : Kin holders k request.parent) (hderives : holders.Derives v5) :
    (tenancy holders).Tends k (fun result => ∀ spec, result = .ok spec → Kin holders k spec)
      (onServer (childSpec v5 request)) := by
  refine tends_own ⟨h.run, trivial⟩ fun s stops _ _ => ?_
  rcases stops with _ | error | (_ | _)
  · exact tends_childOfAgent h hderives
  · exact Tenancy.tends_ret fun spec heq => by cases heq
  · exact tends_childOfAgent h hderives
  · exact Tenancy.tends_ret fun spec heq => by cases heq

theorem only_settleExisting {id : RunId} (hid : holders.run id = k) (events : List Event) :
    (settleExisting id events).Only (Inward holders k) := by
  unfold settleExisting
  split
  · exact ⟨⟨hid, trivial⟩, fun _ => trivial⟩
  · refine ⟨⟨hid, trivial⟩, fun found => ?_⟩
    rcases found with error | (_ | _)
    · trivial
    · trivial
    · exact ⟨⟨hid, trivial⟩, fun _ => trivial⟩

theorem only_enqueueChild (h : Kin holders k spec) (asked : List Event) :
    (enqueueChild spec asked).Only (Inward holders k) := by
  refine (only_enqueue h.run h.owner h.parent _ _).bind fun result => ?_
  rcases result with error | (_ | _)
  · trivial
  · trivial
  · refine ⟨⟨trivial, h.run⟩, fun loaded => ?_⟩
    rcases loaded with _ | (_ | child)
    · trivial
    · trivial
    · simp only
      split
      · exact ⟨⟨h.run, trivial⟩, fun _ => trivial⟩
      · exact (only_settleExisting h.run _).bind fun _ => trivial

theorem worksFor_startChild (h : Kin holders k request.parent) (hderives : holders.Derives v5) (asked : List Event) :
    WorksFor holders k (startChild v5 request asked) := by
  rw [WorksFor, startChild, onServer_bind]
  refine (tends_childSpec h hderives).bind fun found hfound => ?_
  cases found with
  | error reason => exact worksFor_ret _
  | ok spec => exact tends_onServer (only_enqueueChild (hfound spec rfl) asked)

end Children

/-! ### Messages -/

section Messages

variable {v5 : ChildName → Uuid} {request : MessageRequest}

theorem Given.askOfTask {s : Site} {task : RunId} {ask : StoredMessage}
    (h : s.Given (.server (.outside (.askOfTask task))) (.ok (some ask))) : s.box.IsOpen task ask := by
  rcases h with ⟨now, h⟩ | h
  · cases h with
    | server helse _ => exact absurd (helse _ rfl) Bool.true_eq_false.mp
    | kept h =>
        cases h with
        | askOfTask task ask hopen => exact hopen
  · cases h with
    | server h => cases h

/-- An ask of the principal's task is the principal's. -/
theorem Held.asks {s : Site} (h : s.Held holders) {task : RunId} {ask : StoredMessage} (hopen : s.box.IsOpen task ask)
    (htask : holders.run task = k) : holders.run ask.fromRun = k ∧ holders.message ask.id = k := by
  have hsorted := h.box ask hopen.stored
  have hrun : holders.run ask.fromRun = k := (hsorted.task task hopen.task).symm.trans htask
  exact ⟨hrun, hsorted.id.trans hrun⟩

theorem only_deliver {asker : RunId} {ask : MessageId} (hasker : holders.run asker = k) (hask : holders.message ask = k)
    (answer : EventPayload) (ifUnsent : IfUnsent) : (deliver asker ask answer ifUnsent).Only (Inward holders k) := by
  have hsettle : (settleAsk asker ask).Only (Inward holders k) :=
    ⟨⟨hask, trivial⟩, fun _ => ⟨⟨hasker, trivial⟩, fun _ => trivial⟩⟩
  refine ⟨⟨trivial, hasker⟩, fun loaded => ?_⟩
  rcases loaded with _ | (_ | run)
  · trivial
  · exact hsettle
  · simp only
    split
    · exact hsettle
    · split
      · split
        · trivial
        · exact hsettle
      · exact hsettle
      · refine ⟨⟨trivial, trivial⟩, fun stamps => ⟨⟨hasker, trivial⟩, fun done => ?_⟩⟩
        rcases done with _ | (_ | _ | _ | _)
        · trivial
        · exact hsettle
        · exact hsettle
        · exact hsettle
        · trivial

theorem only_putMessage {message : StoredMessage} (hrun : holders.run message.fromRun = k)
    (hsorted : Mailbox.Sorted holders.run holders.message message) : (putMessage message).Only (Inward holders k) := by
  refine ⟨⟨⟨hrun, hsorted⟩, trivial⟩, fun put => ?_⟩
  rcases put with _ | (_ | stored)
  · trivial
  · trivial
  · simp only
    split <;> trivial

theorem worksFor_reply (hrun : holders.run request.from.runId = k) : WorksFor holders k (reply request) := by
  refine tends_own ⟨hrun, trivial⟩ fun s found hs h => ?_
  rcases found with error | (_ | ask)
  · exact worksFor_ret _
  · exact worksFor_ret _
  · obtain ⟨hasker, hask⟩ := hs.asks (Given.askOfTask h) hrun
    simp only
    split
    · exact worksFor_ret _
    · refine tends_stamps fun stamps hdrawn => worksFor_bind (only_putMessage hrun ⟨?_, ?_⟩) fun put => ?_
      · exact (hdrawn 0).trans hrun.symm
      · exact fun _ htask => by cases htask
      · cases put with
        | error reason => exact worksFor_ret _
        | ok messageId =>
            refine worksFor_bind (only_deliver hasker hask _ _) fun delivered => ?_
            rcases delivered with error | (_ | _) <;> exact worksFor_ret _

theorem worksFor_send (h : Kin holders k request.from) (hderives : holders.Derives v5) (asked : List Event) :
    WorksFor holders k (send v5 request asked) := by
  unfold send
  split
  · exact worksFor_reply h.run
  · next limits _ =>
      split
      · exact worksFor_ret _
      · rw [WorksFor, onServer_bind]
        refine Tenancy.Tends.bind (tends_childSpec h hderives) fun found hfound => ?_
        cases found with
        | error reason => exact worksFor_ret _
        | ok task =>
            have hkin := hfound task rfl
            refine tends_stamps fun stamps hdrawn => worksFor_bind
              (only_putMessage h.run ⟨?_, fun run htask => ?_⟩) fun put => ?_
            · exact (hdrawn 0).trans h.run.symm
            · obtain rfl : task.runId = run := Option.some.inj htask
              exact hkin.run.trans h.run.symm
            · cases put with
              | error reason => exact worksFor_ret _
              | ok messageId =>
                  refine worksFor_bind (only_enqueueChild hkin asked) fun started => ?_
                  cases started <;> exact worksFor_ret _

end Messages

/-! ### One run -/

section Run

variable {spec : RunSpec} (w : Worker) (h : Kin holders k spec) (hderives : holders.Derives w.v5) (token : Token)
include h hderives

theorem worksFor_carry (kept : Carried) {c : HarnessCall} (hasked : AskedBy spec c) :
    WorksFor holders k (w.carry spec token kept c) := by
  have hask : ∀ call : HarnessCall, Inward holders k (.outside (.harness call)) := fun call => ⟨trivial, trivial⟩
  cases c with
  | spawn log request =>
      obtain rfl : request.parent = spec := hasked
      exact (worksFor_startChild h hderives log).bind fun _ => worksFor_ret _
  | send log request =>
      obtain rfl : request.from = spec := hasked
      exact (worksFor_send h hderives log).bind fun _ => worksFor_ret _
  | boundary driver => exact tends_onServer (only_atBoundary h.run token kept driver)
  | decide | tool | model | memoryRead | memoryWrite => exact worksFor_call (hask _) fun _ => worksFor_ret _

theorem worksFor_drive (tools : List ToolDescriptor) {driver : Driver}
    (honly : (Driver.runUntil tools driver).Only (AskedBy spec)) (seen : Nat) :
    WorksFor holders k (w.drive spec token tools driver seen) := by
  refine (worksFor_handle (fun kept c => worksFor_carry w h hderives token kept) honly _).bind fun result => ?_
  obtain ⟨⟨driver, finish⟩, kept⟩ := result
  simp only
  split
  · exact worksFor_ret _
  · exact worksFor_call ⟨trivial, trivial⟩ fun stamps => tends_onServer (only_storeTail h.run token _ _ _)

omit hderives in
theorem worksFor_toolsOf : WorksFor holders k (w.toolsOf spec) := by
  have hload : ∀ named, WorksFor holders k (.call (.outside (.loadTools named)) .ret) :=
    fun named => worksFor_call ⟨trivial, trivial⟩ fun _ => worksFor_ret _
  unfold Worker.toolsOf
  split
  · exact hload []
  · obtain rfl := h.owner
    refine tends_agent_of_foreign (fun agent agent' his his' => ?_) fun found => ?_
    · simp only [his, his']
      rfl
    · rcases found with error | (_ | agent)
      · exact worksFor_ret _
      · exact worksFor_ret _
      · simp only
        split
        · exact worksFor_ret _
        · exact hload _

theorem worksFor_runHarness (events : List Event) : WorksFor holders k (w.runHarness spec events token) := by
  refine worksFor_call ⟨trivial, trivial⟩ fun stamps => ?_
  split
  · exact tends_onServer (only_append h.run token _ _)
  · next driver hresume =>
      refine worksFor_bind (only_holds h.run token) fun held => ?_
      split
      · exact worksFor_ret _
      · refine worksFor_bind (only_delegation h.owner) fun targets => ?_
        split
        · exact worksFor_call ⟨trivial, trivial⟩ fun stamps => tends_onServer (only_append h.run token _ _)
        · refine (worksFor_toolsOf w h).bind fun found => ?_
          cases found with
          | error error => exact worksFor_ret _
          | ok tools =>
              have hresumed : Driver.Resumed spec events (w.setUp driver targets) := by
                rw [Worker.setUp_eq]
                exact (Driver.resume_cases hresume).setUp _
              exact worksFor_drive w h hderives token tools (hresumed.only_askedBy tools) _

theorem worksFor_runFrom (events : List Event) (attempt : Nat) :
    WorksFor holders k (w.runFrom spec events token attempt) := by
  have hscheduled : ∀ events, WorksFor holders k (w.runScheduled spec events token attempt) := by
    intro events
    unfold Worker.runScheduled
    split
    · exact tends_onServer (only_runTurn h.run token events attempt)
    · exact worksFor_runHarness w h hderives token events
  unfold Worker.runFrom
  split
  · exact worksFor_ret _
  · refine worksFor_bind (only_stopped h.run) fun covered => ?_
    split
    · exact worksFor_call ⟨trivial, trivial⟩ fun stamps => tends_onServer (only_endTurn h.run token attempt _ _)
    · split
      · refine worksFor_call ⟨trivial, trivial⟩ fun stamps => worksFor_bind
          (only_append h.run token _ _) fun result => ?_
        split
        · exact hscheduled _
        · exact worksFor_ret _
      · exact hscheduled _

theorem worksFor_storeAsItGoes (attempt left : Nat) (events : List Event) :
    WorksFor holders k (w.storeAsItGoes spec token attempt left events) := by
  induction left generalizing events with
  | zero =>
      unfold Worker.storeAsItGoes
      refine (worksFor_runFrom w h hderives token events attempt).bind fun result => ?_
      rcases result with _ | ((_ | _ | _ | _) | _ | _) <;> exact worksFor_ret _
  | succ left ih =>
      unfold Worker.storeAsItGoes
      refine (worksFor_runFrom w h hderives token events attempt).bind fun result => ?_
      rcases result with _ | ((_ | _ | _ | _) | _ | _)
      on_goal 5 =>
        refine worksFor_call ⟨trivial, h.run⟩ fun loaded => ?_
        rcases loaded with _ | (_ | run)
        · exact worksFor_ret _
        · exact worksFor_ret _
        · exact ih run.events
      all_goals exact worksFor_ret _

omit hderives in
theorem worksFor_answerAsk : WorksFor holders k (w.answerAsk spec) := by
  unfold Worker.answerAsk
  split
  · exact worksFor_ret _
  · refine tends_own ⟨h.run, trivial⟩ fun s found hs hgiven => ?_
    rcases found with error | (_ | ask)
    · exact worksFor_ret _
    · exact worksFor_ret _
    · obtain ⟨hasker, hask⟩ := hs.asks (Given.askOfTask hgiven) h.run
      refine worksFor_call ⟨trivial, h.run⟩ fun loaded => ?_
      rcases loaded with _ | (_ | task)
      · exact worksFor_ret _
      · exact worksFor_ret _
      · refine worksFor_call ⟨trivial, trivial⟩ fun stamps => ?_
        split
        · exact worksFor_bind (only_deliver hasker hask _ _) fun _ => worksFor_ret _
        · exact worksFor_ret _

theorem worksFor_execute (events : List Event) (attempt : Nat) :
    WorksFor holders k (w.execute spec events token attempt) := by
  refine (worksFor_storeAsItGoes w h hderives token attempt reloads events).bind fun result => ?_
  split
  · exact (worksFor_answerAsk w h).bind fun _ => worksFor_ret _
  · exact worksFor_ret _

end Run

/-! ### One claim -/

section Claim

variable {claim : Claim} (hid : holders.run claim.runId = k)
include hid

theorem only_parkRun (ask : MessageId) : (parkRun claim ask).Only (Inward holders k) := by
  refine ⟨⟨hid, trivial⟩, fun parked => ?_⟩
  rcases parked with error | (_ | _)
  · trivial
  · trivial
  · refine ⟨⟨trivial, hid⟩, fun loaded => ?_⟩
    cases loaded with
    | error error => trivial
    | ok loaded =>
        simp only
        split
        · refine ⟨⟨hid, trivial⟩, fun woken => ?_⟩
          cases woken <;> trivial
        · refine (only_stopped hid).bind fun covered => ?_
          split
          · refine ⟨⟨hid, trivial⟩, fun woken => ?_⟩
            cases woken <;> trivial
          · trivial

theorem only_ack (recorded : Option Append) (waiting : Option MessageId) :
    (Done.ack ⟨claim, recorded, waiting⟩).Only (Inward holders k) := by
  cases waiting with
  | some ask => exact only_parkRun hid ask
  | none =>
      simp only [Done.ack]
      split <;> exact ⟨⟨hid, trivial⟩, fun _ => trivial⟩

/-- What follows once the run is loaded: it is open and the principal's, or the claim is done. -/
theorem worksFor_prepare {f : Except String Prepared → Prog ServerSig α} (w : Worker)
    (herror : ∀ error, WorksFor holders k (f (.error error)))
    (hdone : ∀ recorded waiting, WorksFor holders k (f (.ok (.done ⟨claim, recorded, waiting⟩))))
    (hopen : ∀ stored attempt, Kin holders k stored.spec → WorksFor holders k (f (.ok (.open stored attempt)))) :
    WorksFor holders k ((w.prepare claim).bind f) := by
  have hback : ∀ error, WorksFor holders k ((handBack claim error).bind f) := fun error =>
    worksFor_call ⟨hid, trivial⟩ fun _ => herror error
  have hrecorded : ∀ spec starts, WorksFor holders k ((recordFailed claim spec starts).bind f) := by
    refine fun spec starts => worksFor_call ⟨trivial, trivial⟩ fun stamps => worksFor_call ⟨hid, trivial⟩ fun done => ?_
    cases done with
    | error error => exact herror _
    | ok done => exact hdone (some done) none
  refine tends_own ⟨trivial, hid⟩ fun s loaded hs hgiven => ?_
  rcases loaded with error | (_ | stored)
  · exact hback _
  · exact hdone none none
  · have hkin : Kin holders k stored.spec := hs.kin (Given.run hgiven).symm hid
    simp only
    split
    · exact hdone none none
    · refine worksFor_call ⟨hid, trivial⟩ fun started => ?_
      rcases started with error | (starts : Nat)
      · exact hback _
      · simp only
        split
        · unfold failStarted
          split
          · rw [Prog.bind_assoc]
            refine worksFor_bind (only_cleanBox hid claim.token _) fun cleaned => ?_
            cases cleaned with
            | error error => exact herror _
            | ok _ =>
                simp only
                rw [Prog.bind_assoc]
                refine worksFor_bind (only_holds hid claim.token) fun held => ?_
                split
                · exact hdone (some .moved) none
                · exact hrecorded _ _
          · exact hrecorded _ _
        · exact hopen stored starts hkin

end Claim

/-- A worker works for the principal that holds the run it claimed. -/
theorem worksFor_takeOn (w : Worker) (hderives : holders.Derives w.v5) (token : Token) {id : RunId}
    (hid : holders.run id = k) :
    WorksFor holders k (w.takeOn token id) := by
  have hclaim : holders.run (Claim.mk id token).runId = k := hid
  refine worksFor_prepare hclaim w (fun error => worksFor_ret _) (fun recorded waiting => ?_)
    fun stored attempt hkin => ?_
  · refine worksFor_bind (only_ack hclaim recorded waiting) fun result => ?_
    cases result <;> exact worksFor_ret _
  · refine (worksFor_execute w hkin hderives token stored.events attempt).bind fun result => ?_
    rcases result with error | (append | ask)
    · exact worksFor_ret _
    all_goals
      refine worksFor_bind (only_ack hclaim _ _) fun result => ?_
      cases result <;> exact worksFor_ret _

end Site

end Gol
