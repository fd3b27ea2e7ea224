import Gol.ServerWorker

/-! Fenced writes. A claim's append to its run's log is fenced if the claim checked the lease since its last other
call. `runFrom`, `endBox` and the Box path of `prepare` check just before each append; `finishTurn` appends after its
gateway call, and a run started too often is failed without a check. -/

namespace Gol
open Library

/-- Whether the claim's last call was a check of its lease that did not answer that the lease is another's. Drawing an
event's id and time does not count as a call. -/
def checkedAfter (run : RunId) (token : Token) (checked : Bool) : (c : ServerCall) → c.Answer → Bool
  | .queue (.renew _ _), .ok false => false
  | .queue (.renew id by_), _ => id = run ∧ by_ = token
  | .outside .stamps, _ => checked
  | _, _ => false

/-- An append under a claim is to the claim's run, directly after a check of the lease. -/
def Fences (run : RunId) (token : Token) (checked : Bool) : ServerCall → Prop
  | .store (.appendEvents id _ (.worker by_)) => id = run ∧ by_ = token ∧ checked = true
  | .store (.appendEventsAfter id _ _ (.worker by_)) => id = run ∧ by_ = token ∧ checked = true
  | _ => True

/-- The answers of a claim of `spec`'s run whose start is the `starts`-th. -/
def AnswersClaim (spec : RunSpec) (starts : Nat) : (c : ServerCall) → c.Answer → Prop
  | .queue (.claim _), .ok (some id) => id = spec.runId
  | .queue (.start _ _), .ok count => count = starts
  | .store (.run id), .ok (some run) => id = spec.runId → run.spec = spec
  | _, _ => True

/-- One claim of `spec`'s run alone, as far as its lease checks go. -/
abbrev Fence (spec : RunSpec) (starts : Nat) (token : Token) : World ServerSig :=
  World.alone Bool
    (fun checked c answer later =>
      later = checkedAfter spec.runId token checked c answer ∧ AnswersClaim spec starts c answer)
    (Fences spec.runId token)

/-- Whatever it is answered, each append that `w` makes for a claim of `spec`'s run is fenced. -/
def FencedClaim (w : Worker) (token : Token) (spec : RunSpec) (starts : Nat) : Prop :=
  (Fence spec starts token).Safe (fun _ _ => True) (w.workOne token) false

section Fenced

variable {α β : Type} {spec : RunSpec} {starts : Nat} {token : Token}

/-- Fenced whatever was checked before. -/
def Fenced (spec : RunSpec) (starts : Nat) (token : Token) (p : Prog ServerSig α) : Prop :=
  ∀ checked, (Fence spec starts token).Safe (fun _ _ => True) p checked

/-- A call that appends nothing under a claim. -/
def Unclaimed (c : ServerCall) : Prop := ∀ run token checked, Fences run token checked c

theorem Fenced.at {p : Prog ServerSig α} (h : Fenced spec starts token p) (checked : Bool) :
    (Fence spec starts token).Safe (fun _ _ => True) p checked := h checked

theorem fenced_ret (value : α) : Fenced spec starts token (.ret value) := fun _ => trivial

theorem fenced_call {c : ServerCall} {next : c.Answer → Prog ServerSig α} (hc : Unclaimed c)
    (h : ∀ answer, AnswersClaim spec starts c answer → Fenced spec starts token (next answer)) :
    Fenced spec starts token (.call c next) :=
  fun _ => World.safe_alone_call.mpr ⟨hc _ _ _, fun answer later hstep => h answer hstep.2 later⟩

theorem Fenced.bind {p : Prog ServerSig α} {f : α → Prog ServerSig β} (h : Fenced spec starts token p)
    (hf : ∀ value, Fenced spec starts token (f value)) : Fenced spec starts token (p.bind f) :=
  fun checked => World.Safe.bind ((h checked).mono fun later value _ => hf value later)

theorem fenced_only {p : Prog ServerSig α} (h : p.Only Unclaimed) : Fenced spec starts token p := by
  induction p with
  | ret value => exact fenced_ret value
  | call c next ih => exact fenced_call h.1 fun answer _ => ih answer (h.2 answer)

theorem IsAside.unclaimed {c : ServerCall} (h : IsAside c) : Unclaimed c := by
  intro run token checked
  cases c with
  | store c =>
      cases c with
      | appendEvents id batch party =>
          obtain ⟨-, rfl | rfl⟩ := h
          · trivial
          · trivial
      | appendEventsAfter id seen batch party => exact h.elim
      | _ => trivial
  | _ => trivial

/-- A check of the lease, and what follows where it is held and where it is not. -/
theorem fenced_holds {f : Bool → Prog ServerSig α}
    (hheld : (Fence spec starts token).Safe (fun _ _ => True) (f true) true)
    (hlost : Fenced spec starts token (f false)) : Fenced spec starts token ((holds spec.runId token).bind f) := by
  refine fun checked => World.safe_alone_call.mpr ⟨trivial, ?_⟩
  have hchecked : decide (spec.runId = spec.runId ∧ token = token) = true := by simp
  rintro answer later ⟨rfl, -⟩
  rcases answer with error | (_ | _)
  · change (Fence spec starts token).Safe _ (f true) (decide (spec.runId = spec.runId ∧ token = token))
    rwa [hchecked]
  · exact hlost _
  · change (Fence spec starts token).Safe _ (f true) (decide (spec.runId = spec.runId ∧ token = token))
    rwa [hchecked]

theorem fenced_append (seen : Nat) (new : List Event) :
    Fenced spec starts token (append spec.runId token seen new) := by
  refine fenced_holds (World.safe_alone_call.mpr ⟨⟨rfl, rfl, rfl⟩, fun done later _ => ?_⟩) (fenced_ret _)
  cases done <;> trivial

/-! ### Turns -/

theorem fenced_stopped {f : Bool → Prog ServerSig α} (run : RunId)
    (h : ∀ covered, Fenced spec starts token (f covered)) :
    Fenced spec starts token ((stopped run).bind f) := by
  refine Fenced.bind (fenced_only ⟨fun _ _ _ => trivial, fun stops => ?_⟩) h
  rcases stops with _ | (_ | _) <;> trivial

theorem fenced_removeAttempt (run : RunId) (attempt : Nat) :
    Fenced spec starts token (removeAttempt run token attempt) := by
  refine fenced_only ⟨fun _ _ _ => trivial, fun gone => ?_⟩
  rcases gone with _ | (_ | _)
  on_goal 3 => trivial
  all_goals
    refine ⟨fun _ _ _ => trivial, fun removed => ?_⟩
    cases removed with
    | error message => trivial
    | ok _ =>
        refine ⟨fun _ _ _ => trivial, fun gone => ?_⟩
        rcases gone with _ | (_ | _) <;> trivial

theorem fenced_cleanBox (run : RunId) (attempts : Nat) : Fenced spec starts token (cleanBox run token attempts) := by
  unfold cleanBox
  generalize List.range' 1 attempts = numbers
  induction numbers with
  | nil => exact fenced_ret _
  | cons attempt rest ih =>
      refine (fenced_removeAttempt run attempt).bind fun removed => ?_
      cases removed with
      | error error => exact fenced_ret _
      | ok _ => exact ih

theorem fenced_endBox (attempt : Nat) (ending : List Event) :
    Fenced spec starts token (endBox spec token attempt ending) := by
  refine (fenced_cleanBox _ _).bind fun cleaned => ?_
  cases cleaned with
  | error error => exact fenced_ret _
  | ok _ =>
      refine fenced_holds (World.safe_alone_call.mpr ⟨⟨rfl, rfl, rfl⟩, fun done later _ => ?_⟩) (fenced_ret _)
      cases done <;> trivial

/-- A turn that ends at once. -/
theorem fenced_endTurn (attempt seen : Nat) (event : Event) :
    Fenced spec starts token (if isBoxTurn spec then endBox spec token attempt [event]
      else append spec.runId token seen [event]) := by
  split
  · exact fenced_endBox attempt _
  · exact fenced_append seen _

theorem fenced_dropOwn (name : SandboxName) :
    Fenced spec starts token ((dropOwn name token).bind fun _ => .ret (.ok .lostLease) :
      Prog ServerSig (Except String Stopped)) :=
  fenced_call (fun _ _ _ => trivial) fun _ _ => fenced_ret _

theorem fenced_runBoxTurn (attempt : Nat) : Fenced spec starts token (runBoxTurn spec token attempt) := by
  refine fenced_holds (Fenced.at ?_ true) (fenced_ret _)
  refine fenced_call (fun _ _ _ => trivial) fun provisioned _ => ?_
  cases provisioned with
  | error message => exact fenced_call (fun _ _ _ => trivial) fun stamps _ => fenced_endBox attempt _
  | ok _ =>
      refine fenced_holds (Fenced.at ?_ true) (fenced_dropOwn _)
      refine fenced_stopped _ fun covered => ?_
      dsimp only
      split
      · exact fenced_call (fun _ _ _ => trivial) fun stamps _ => fenced_endBox attempt _
      · refine fenced_call (fun _ _ _ => trivial) fun answer _ => fenced_holds (Fenced.at ?_ true) (fenced_dropOwn _)
        refine fenced_call (fun _ _ _ => trivial) fun stamps _ => ?_
        cases answer <;> exact fenced_endBox attempt _

/-- A gateway turn outside a Box runs through `finishTurn`, which checks nothing. -/
def RunsUnfenced (spec : RunSpec) : Prop :=
  isTurn spec = true ∧ spec.workModel.credential = .platformGateway ∧ isBoxTurn spec = false

theorem fenced_runStartedTurn (events : List Event) (attempt : Nat) (hbox : isBoxTurn spec = true) :
    Fenced spec starts token (runStartedTurn spec events token attempt) := by
  refine fenced_stopped _ fun covered => ?_
  split
  · exact fenced_call (fun _ _ _ => trivial) fun stamps _ => fenced_endBox attempt _
  · refine fenced_holds (Fenced.at ?_ true) (fenced_ret _)
    refine fenced_call (fun _ _ _ => trivial) fun loaded _ => ?_
    rcases loaded with _ | (_ | run)
    · exact fenced_ret _
    · exact fenced_ret _
    · dsimp only
      split
      · exact fenced_ret _
      · exact fenced_runBoxTurn attempt

theorem fenced_runTurn (events : List Event) (attempt : Nat) (hturn : isTurn spec = true)
    (h : ¬ RunsUnfenced spec) : Fenced spec starts token (runTurn spec events token attempt) := by
  unfold runTurn
  split
  · exact fenced_call (fun _ _ _ => trivial) fun stamps _ => fenced_endTurn attempt _ _
  · next hgateway =>
      have hbox : isBoxTurn spec = true := by
        by_contra hnot
        exact h ⟨hturn, not_not.mp hgateway, by simpa using hnot⟩
      split
      · exact fenced_runStartedTurn events attempt hbox
      · refine fenced_call (fun _ _ _ => trivial) fun stamps _ => (fenced_append _ _).bind fun result => ?_
        split
        · exact fenced_runStartedTurn _ attempt hbox
        · exact fenced_ret _

/-! ### Harness runs -/

/-- Carrying out a call of the harness appends only at a boundary. -/
theorem fenced_carry (w : Worker) (kept : Carried) (c : HarnessCall) :
    Fenced spec starts token (w.carry spec token kept c) := by
  have hask : ∀ call : OutsideCall, Unclaimed (.outside call) := fun call _ _ _ => trivial
  cases c with
  | decide view => exact fenced_call (hask _) fun _ _ => fenced_ret _
  | tool events name input => exact fenced_call (hask _) fun _ _ => fenced_ret _
  | model events request => exact fenced_call (hask _) fun _ _ => fenced_ret _
  | memoryRead events owner key => exact fenced_call (hask _) fun _ _ => fenced_ret _
  | memoryWrite events owner key value => exact fenced_call (hask _) fun _ _ => fenced_ret _
  | spawn events request =>
      exact (fenced_only ((only_startChild w.v5 request events).mono fun _ => IsAside.unclaimed)).bind
        fun _ => fenced_ret _
  | send events request =>
      exact (fenced_only ((only_send w.v5 request events).mono fun _ => IsAside.unclaimed)).bind fun _ => fenced_ret _
  | boundary driver =>
      refine fenced_stopped _ fun covered => ?_
      dsimp only
      split
      · exact fenced_ret _
      · split
        · exact fenced_ret _
        · refine (fenced_append _ _).bind fun result => ?_
          split <;> exact fenced_ret _

theorem fenced_handle {S : Sig} {τ : Type} {h : τ → (c : S.Call) → Prog ServerSig (S.Answer c × τ)}
    (hcall : ∀ kept c, Fenced spec starts token (h kept c)) (p : Prog S α) (kept : τ) :
    Fenced spec starts token (p.handle h kept) := by
  induction p generalizing kept with
  | ret value => exact fenced_ret _
  | call c next ih => exact (hcall kept c).bind fun answered => ih answered.1 answered.2

theorem fenced_drive (w : Worker) (tools : List ToolDescriptor) (driver : Driver) (seen : Nat) :
    Fenced spec starts token (w.drive spec token tools driver seen) := by
  refine (fenced_handle (fenced_carry w) _ _).bind fun result => ?_
  obtain ⟨⟨driver, finish⟩, kept⟩ := result
  dsimp only
  split
  · exact fenced_ret _
  · refine fenced_call (fun _ _ _ => trivial) fun stamps _ => ?_
    unfold storeTail
    split
    · exact fenced_ret _
    · exact (fenced_append _ _).bind fun result => fenced_ret _

theorem fenced_delegation {f : List DelegateTarget → Prog ServerSig α}
    (h : ∀ targets, Fenced spec starts token (f targets)) : Fenced spec starts token ((delegation spec).bind f) := by
  refine Fenced.bind ?_ h
  unfold delegation
  split
  · exact fenced_ret _
  · refine fenced_call (fun _ _ _ => trivial) fun agents _ => ?_
    cases agents <;> exact fenced_ret _

theorem fenced_toolsOf (w : Worker) : Fenced spec starts token (w.toolsOf spec) := by
  have hload : ∀ named, Fenced spec starts token (.call (.outside (.loadTools named)) .ret) :=
    fun named => fenced_call (fun _ _ _ => trivial) fun _ _ => fenced_ret _
  unfold Worker.toolsOf
  split
  · exact hload []
  · refine fenced_call (fun _ _ _ => trivial) fun found _ => ?_
    rcases found with _ | (_ | agent)
    · exact fenced_ret _
    · exact fenced_ret _
    · dsimp only
      split
      · exact fenced_ret _
      · exact hload _

theorem fenced_runHarness (w : Worker) (events : List Event) :
    Fenced spec starts token (w.runHarness spec events token) := by
  refine fenced_call (fun _ _ _ => trivial) fun stamps _ => ?_
  split
  · exact fenced_append _ _
  · next driver _ =>
      refine fenced_holds (Fenced.at (fenced_delegation fun targets => ?_) true) (fenced_ret _)
      split
      · exact fenced_call (fun _ _ _ => trivial) fun stamps _ => fenced_append _ _
      · refine (fenced_toolsOf w).bind fun found => ?_
        cases found with
        | error error => exact fenced_ret _
        | ok tools => exact fenced_drive w tools _ _

theorem fenced_runFrom (w : Worker) (events : List Event) (attempt : Nat) (h : ¬ RunsUnfenced spec) :
    Fenced spec starts token (w.runFrom spec events token attempt) := by
  have hscheduled : ∀ events, Fenced spec starts token (w.runScheduled spec events token attempt) := by
    intro events
    unfold Worker.runScheduled
    split
    · next hturn => exact fenced_runTurn events attempt hturn h
    · exact fenced_runHarness w events
  unfold Worker.runFrom
  split
  · exact fenced_ret _
  · refine fenced_stopped _ fun covered => ?_
    split
    · exact fenced_call (fun _ _ _ => trivial) fun stamps _ => fenced_endTurn attempt _ _
    · split
      · refine fenced_call (fun _ _ _ => trivial) fun stamps _ => (fenced_append _ _).bind fun result => ?_
        split
        · exact hscheduled _
        · exact fenced_ret _
      · exact hscheduled _

/-! ### One claim -/

theorem fenced_storeAsItGoes (w : Worker) (attempt left : Nat) (events : List Event) (h : ¬ RunsUnfenced spec) :
    Fenced spec starts token (w.storeAsItGoes spec token attempt left events) := by
  induction left generalizing events with
  | zero =>
      unfold Worker.storeAsItGoes
      refine (fenced_runFrom w events attempt h).bind fun result => ?_
      rcases result with _ | ((_ | _ | _ | _) | _ | _) <;> exact fenced_ret _
  | succ left ih =>
      unfold Worker.storeAsItGoes
      refine (fenced_runFrom w events attempt h).bind fun result => ?_
      rcases result with _ | ((_ | _ | _ | _) | _ | _)
      on_goal 5 =>
        refine fenced_call (fun _ _ _ => trivial) fun loaded _ => ?_
        rcases loaded with _ | (_ | run)
        · exact fenced_ret _
        · exact fenced_ret _
        · exact ih run.events
      all_goals exact fenced_ret _

theorem fenced_answerAsk (w : Worker) : Fenced spec starts token (w.answerAsk spec) := by
  unfold Worker.answerAsk
  split
  · exact fenced_ret _
  · refine fenced_call (fun _ _ _ => trivial) fun found _ => ?_
    rcases found with _ | (_ | ask)
    · exact fenced_ret _
    · exact fenced_ret _
    · refine fenced_call (fun _ _ _ => trivial) fun loaded _ => ?_
      rcases loaded with _ | (_ | task)
      · exact fenced_ret _
      · exact fenced_ret _
      · refine fenced_call (fun _ _ _ => trivial) fun stamps _ => ?_
        split
        · exact (fenced_only ((only_deliver _ _ _ _).isAside.mono fun _ => IsAside.unclaimed)).bind
            fun _ => fenced_ret _
        · exact fenced_ret _

theorem fenced_execute (w : Worker) (events : List Event) (attempt : Nat) (h : ¬ RunsUnfenced spec) :
    Fenced spec starts token (w.execute spec events token attempt) := by
  refine (fenced_storeAsItGoes w attempt _ events h).bind fun result => ?_
  split
  · exact (fenced_answerAsk w).bind fun _ => fenced_ret _
  · exact fenced_ret _

theorem fenced_ack (done : Done) : Fenced spec starts token done.ack := by
  unfold Done.ack
  split
  · refine fenced_call (fun _ _ _ => trivial) fun parked _ => ?_
    rcases parked with _ | (_ | _)
    · exact fenced_ret _
    · exact fenced_ret _
    · refine fenced_call (fun _ _ _ => trivial) fun loaded _ => ?_
      cases loaded with
      | error error => exact fenced_ret _
      | ok loaded =>
          dsimp only
          split
          · refine fenced_call (fun _ _ _ => trivial) fun woken _ => ?_
            cases woken <;> exact fenced_ret _
          · refine fenced_stopped _ fun covered => ?_
            split
            · refine fenced_call (fun _ _ _ => trivial) fun woken _ => ?_
              cases woken <;> exact fenced_ret _
            · exact fenced_ret _
  · split
    · exact fenced_call (fun _ _ _ => trivial) fun _ _ => fenced_ret _
    · exact fenced_call (fun _ _ _ => trivial) fun _ _ => fenced_ret _

/-- Started too often outside a Box, a run is failed at once. -/
def FailsUnfenced (w : Worker) (spec : RunSpec) (starts : Nat) : Prop :=
  w.maxDeliveries < starts ∧ isBoxTurn spec = false

section Prepare

variable {f : Except String Prepared → Prog ServerSig α}
  (hdone : ∀ done, Fenced spec starts token (f (.ok (.done done))))
  (herror : ∀ error, Fenced spec starts token (f (.error error)))

include hdone herror

/-- A Box turn started too often is failed after a check. -/
theorem fenced_failStarted (w : Worker) (hbox : isBoxTurn spec = true) :
    Fenced spec starts token ((failStarted w ⟨spec.runId, token⟩ spec starts).bind f) := by
  unfold failStarted
  rw [if_pos hbox, Prog.bind_assoc]
  refine (fenced_cleanBox _ _).bind fun cleaned => ?_
  cases cleaned with
  | error error => exact herror _
  | ok _ =>
      simp only [Prog.bind_assoc]
      refine fenced_holds (World.safe_alone_call.mpr ⟨trivial, ?_⟩) (hdone _)
      rintro stamps later ⟨rfl, -⟩
      refine World.safe_alone_call.mpr ⟨⟨rfl, rfl, rfl⟩, fun done later _ => ?_⟩
      cases done with
      | error error => exact herror _ _
      | ok done => exact hdone _ _

theorem fenced_prepare (w : Worker) (h : ¬ FailsUnfenced w spec starts)
    (hopen : ∀ events attempt, Fenced spec starts token (f (.ok (.open ⟨spec, events⟩ attempt)))) :
    Fenced spec starts token ((w.prepare ⟨spec.runId, token⟩).bind f) := by
  have hback : ∀ error, Fenced spec starts token ((handBack ⟨spec.runId, token⟩ error).bind f) :=
    fun error => fenced_call (fun _ _ _ => trivial) fun _ _ => herror _
  refine fenced_call (fun _ _ _ => trivial) fun loaded hloaded => ?_
  rcases loaded with _ | (_ | ⟨stored, events⟩)
  · exact hback _
  · exact hdone _
  · obtain rfl : stored = spec := hloaded rfl
    dsimp only
    split
    · exact hdone _
    · refine fenced_call (fun _ _ _ => trivial) fun count hcount => ?_
      cases count with
      | error error => exact hback _
      | ok count =>
          obtain rfl : count = starts := hcount
          dsimp only
          split
          · next hover =>
              have hbox : isBoxTurn stored = true := by
                by_contra hnot
                exact h ⟨hover, by simpa using hnot⟩
              exact fenced_failStarted hdone herror w hbox
          · exact hopen _ _

end Prepare

theorem fenced_workOne (w : Worker) (hfails : ¬ FailsUnfenced w spec starts) (hruns : ¬ RunsUnfenced spec) :
    Fenced spec starts token (w.workOne token) := by
  refine fenced_call (fun _ _ _ => trivial) fun claimed hclaimed => ?_
  rcases claimed with _ | (_ | id)
  · exact fenced_ret _
  · exact fenced_ret _
  · obtain rfl : id = spec.runId := hclaimed
    refine fenced_prepare ?_ ?_ w hfails ?_
    · intro done
      refine (fenced_ack done).bind fun result => ?_
      cases result <;> exact fenced_ret _
    · exact fun error => fenced_ret _
    · intro events attempt
      refine (fenced_execute w events attempt hruns).bind fun result => ?_
      rcases result with error | (append | ask)
      · exact fenced_ret _
      · refine (fenced_ack _).bind fun result => ?_
        cases result <;> exact fenced_ret _
      · refine (fenced_ack _).bind fun result => ?_
        cases result <;> exact fenced_ret _

/-! ### Where a write is not fenced -/

/-- One answer of a claim. -/
theorem answered {c : ServerCall} {next : c.Answer → Prog ServerSig α} {checked : Bool} {post : Bool → α → Prop}
    (h : (Fence spec starts token).Safe post (.call c next) checked) (answer : c.Answer)
    (hanswer : AnswersClaim spec starts c answer) :
    (Fence spec starts token).Safe post (next answer) (checkedAfter spec.runId token checked c answer) :=
  (World.safe_alone_call.mp h).2 answer _ ⟨rfl, hanswer⟩

theorem not_fenced_of_fails (w : Worker) (h : FailsUnfenced w spec starts) : ¬ FencedClaim w token spec starts := by
  obtain ⟨hover, hbox⟩ := h
  intro hfenced
  have hloaded := answered (answered hfenced (.ok (some spec.runId)) rfl) (.ok (some ⟨spec, []⟩)) fun _ => rfl
  have hstarted := answered hloaded (.ok starts) rfl
  dsimp only at hstarted
  rw [if_pos hover, failStarted, if_neg (by simp [hbox])] at hstarted
  have hstamped := answered hstarted Stamp.plain trivial
  have howes := (World.safe_alone_call.mp hstamped).1
  exact Bool.false_ne_true howes.2.2

/-- A log that a turn has started. -/
def startedLog (spec : RunSpec) : List Event := [systemEvent spec (.plain 0) .runStarted]

/-- A started turn appends its completion after its gateway call. -/
theorem not_fenced_runStartedTurn {events : List Event} (attempt : Nat) {checked : Bool} {post : Bool → _ → Prop}
    (hruns : RunsUnfenced spec) (hopen : hasEnded events = false) :
    ¬ (Fence spec starts token).Safe post (runStartedTurn spec events token attempt) checked := by
  obtain ⟨hturn, hgateway, hbox⟩ := hruns
  have hplacement : spec.placement ≠ .box := fun heq => by simp [isBoxTurn, hturn, heq] at hbox
  intro hfenced
  have hcovered := answered hfenced (some (.ok false)) trivial
  have hheld := answered hcovered (.ok true) trivial
  have hloaded := answered hheld (.ok (some ⟨spec, events⟩)) fun _ => rfl
  dsimp only at hloaded
  rw [if_neg (by simp [hopen]), if_neg (by simp [hbox]), finishTurn, if_neg hplacement] at hloaded
  have hcomplete := hloaded.of_bind
  simp only [completeTurn, hgateway] at hcomplete
  have hanswered := answered hcomplete (.ok "") trivial
  simp only [hplacement, decide_false, Bool.false_eq_true, ↓reduceIte] at hanswered
  have hstamped := answered hanswered Stamp.plain trivial
  exact Bool.false_ne_true (World.safe_alone_call.mp hstamped).1.2.2

theorem not_fenced_of_runs (w : Worker) (hruns : RunsUnfenced spec) (hstarts : starts ≤ w.maxDeliveries) :
    ¬ FencedClaim w token spec starts := by
  intro hfenced
  have hloaded := answered (answered hfenced (.ok (some spec.runId)) rfl)
    (.ok (some ⟨spec, startedLog spec⟩)) fun _ => rfl
  have hstarted := answered hloaded (.ok starts) rfl
  dsimp only at hstarted
  rw [if_neg (by omega)] at hstarted
  have hexecute : (Fence spec starts token).Safe _ (w.storeAsItGoes spec token starts reloads (startedLog spec)) _ :=
    hstarted.of_bind.of_bind.of_bind
  rw [Worker.storeAsItGoes.eq_def] at hexecute
  have hfrom := hexecute.of_bind
  rw [Worker.runFrom, if_neg (by simp [startedLog, hasEnded, systemEvent, isTerminal])] at hfrom
  have hdispatch : (fold spec (startedLog spec)).dispatch ≠ .queued := by
    simp [fold, startedLog, payloads, systemEvent, Event.record, foldAll, foldStep, FoldState.toRunState,
      FoldState.init, reduceDispatch, DispatchPhase.isTerminal]
  have hturn : w.runScheduled spec (startedLog spec) token starts =
      runStartedTurn spec (startedLog spec) token starts := by
    rw [Worker.runScheduled, if_pos hruns.1, runTurn, if_neg (by simp [hruns.2.1]),
      if_pos (by simp [startedLog, systemEvent])]
  simp only [if_neg hdispatch, hturn] at hfrom
  have hcovered : (Fence spec starts token).Safe _ (runStartedTurn spec (startedLog spec) token starts) _ :=
    answered hfrom (some (.ok false)) trivial
  exact not_fenced_runStartedTurn starts hruns rfl hcovered

/-- Each append that a worker makes for a claim is fenced exactly if the run is a Box turn, or it was not started too
often and is not a turn whose model call the platform's gateway makes. -/
theorem claim_fenced_iff (w : Worker) (token : Token) (spec : RunSpec) (starts : Nat) :
    FencedClaim w token spec starts ↔
      isBoxTurn spec = true ∨
        (starts ≤ w.maxDeliveries ∧ ¬ (isTurn spec = true ∧ spec.workModel.credential = .platformGateway)) := by
  constructor
  · intro h
    by_contra hnot
    obtain ⟨hbox, hrest⟩ := not_or.mp hnot
    have hbox : isBoxTurn spec = false := by simpa using hbox
    by_cases hstarts : starts ≤ w.maxDeliveries
    · have hturn := not_not.mp fun hturn => hrest ⟨hstarts, hturn⟩
      exact not_fenced_of_runs w ⟨hturn.1, hturn.2, hbox⟩ hstarts h
    · exact not_fenced_of_fails w ⟨by omega, hbox⟩ h
  · intro h
    refine (fenced_workOne w ?_ ?_).at false
    · rintro ⟨hover, hbox⟩
      rcases h with h | ⟨hstarts, -⟩
      · simp [hbox] at h
      · omega
    · rintro ⟨hturn, hgateway, hbox⟩
      rcases h with h | ⟨-, h⟩
      · simp [hbox] at h
      · exact h ⟨hturn, hgateway⟩

end Fenced

/-- A background turn whose model call the platform's gateway makes, outside a Box. -/
def gatewayTurn : RunSpec := { RunSpec.plain 1 ⟨8, 4⟩ with metadata := [(turnKey, "1")] }

/-- The completion of such a turn is appended after its gateway call, with no check in between. -/
theorem gateway_turn_unfenced : ¬ FencedClaim .plain 7 gatewayTurn 1 :=
  not_fenced_of_runs .plain ⟨by decide, by decide, by decide⟩ (by decide)

end Gol
