import Gol.RuntimeJournal
import Gol.ServerSpawner

/-! A workflow's host (`host.rs`): a replay reads the journal, evaluates the program and carries out its one command.
A spawn is journaled once its child is started, so a kill between the two asks again, with the request the journal's
length names. -/

namespace Gol
open Library

/-- The record a `counter` tool call leaves: its value in decimal. -/
def Record.counter (value : Int64) : Record := .tool "counter" (toString value.toInt)

/-- What a child's id is derived from. -/
def ChildRequest.name (request : ChildRequest) : ChildName :=
  ⟨request.parent.root, request.parent.runId, request.step, request.agentId, request.input⟩

namespace Host

/-- What the spawner did with a workflow's spawn. -/
abbrev Spawned := Except String StartedChild

inductive Moment where
  | beforeCall
  | afterCall
  deriving DecidableEq

/-- What comes from outside in one replay: what the spawner and the stand-in answer, where a kill ends it before its
commit, and how the commit's write ends. -/
structure Turn where
  answer : ChildRequest → Spawned
  counter : Int64
  kill : Option Moment
  write : Journal.Write

structure State where
  journal : Journal.State
  /-- The requests made of the spawner, each with the journal's length then, newest first. -/
  asked : List (Nat × ChildRequest)
  /-- Those it answered with a child. -/
  started : List (Nat × ChildRequest)

def State.empty : State := ⟨.empty, [], []⟩

section Program

variable (crc : Bytes → UInt32) (parse : String → Option AgentId) (program : WorkflowProgram) (parent : RunSpec)

/-- The request of the spawn at the journal's end. -/
def request (history : History) (agent : AgentSpec) : Except String ChildRequest :=
  match parse agent.agent with
  | none => .error "no such agent"
  | some agentId =>
      if history.length < 2 ^ 32 then .ok ⟨parent, history.length.toUInt32, agentId, agent.input, parent.limits⟩
      else .error "the workflow journal is too long"

/-- A kill ends the process. -/
def State.killed (s : State) : State := { s with journal := s.journal.step crc .kill }

/-- Commits a record, then answers. -/
def State.commit (s : State) (record : Record) (write : Journal.Write) (answer : WorkflowStep × Option Spawned) :
    Journal.Ended (WorkflowStep × Option Spawned) × State :=
  let later := { s with journal := s.journal.step crc (.commit record write) }
  match (Journal.commit crc s.journal.file record write).1 with
  | .returned (.ok _) => (.returned (.ok answer), later)
  | .returned (.error error) => (.returned (.error error), later)
  | .killed => (.killed, later)

/-- Evaluates the workflow over its journal and carries out a single command. -/
def State.replay (s : State) (turn : Turn) : Journal.Ended (WorkflowStep × Option Spawned) × State :=
  match Journal.history crc s.journal.file with
  | .error error => (.returned (.error error), s)
  | .ok history =>
      match evaluateProgram program history with
      -- A slice past the history would panic.
      | none => (.killed, s.killed crc)
      | some step =>
          match step.commands with
          | [.spawnAgent agent] =>
              match request parse parent history agent with
              | .error reason => (.returned (.ok (step, some (.error reason))), s)
              | .ok request =>
                  if turn.kill = some .beforeCall then (.killed, s.killed crc) else
                  let asked := { s with asked := (history.length, request) :: s.asked }
                  match turn.answer request with
                  | .error reason =>
                      if turn.kill = some .afterCall then (.killed, asked.killed crc)
                      else (.returned (.ok (step, some (.error reason))), asked)
                  | .ok child =>
                      let started := { asked with started := (history.length, request) :: s.started }
                      if turn.kill = some .afterCall then (.killed, started.killed crc)
                      else started.commit crc (.agentSpawned agent.agent) turn.write (step, some (.ok child))
          | [.executeTool tool] =>
              if tool.name = "counter" then
                if turn.kill.isSome then (.killed, s.killed crc)
                else s.commit crc (.counter turn.counter) turn.write (step, none)
              else (.returned (.ok (step, none)), s)
          | _ => (.returned (.ok (step, none)), s)

inductive Op where
  | open_ (how : Journal.Open)
  | replay (turn : Turn)
  | kill

/-- One call. A replay is made only on an open journal. -/
def State.step (s : State) : Op → State
  | .open_ how => { s with journal := s.journal.step crc (.open_ how) }
  | .replay turn => if s.journal.opened then (s.replay crc parse program parent turn).2 else s
  | .kill => s.killed crc

def State.run (ops : List Op) : State := ops.foldl (State.step crc parse program parent) .empty

/-- A replay that nothing interrupts, with a spawner that starts every child. -/
def smooth (start : ChildRequest → StartedChild) (counter : Int64) : Turn :=
  ⟨fun request => .ok (start request), counter, none, .done⟩

/-- The run that replays `turns` times on a new journal, with nothing interrupting it. -/
def uninterrupted (start : ChildRequest → StartedChild) (answers : Nat → Int64) (turns : Nat) : State :=
  State.run crc parse program parent
    (.open_ (.start .done) :: (List.range turns).map fun turn => .replay (smooth start (answers turn)))

end Program

section Replays

variable {crc : Bytes → UInt32} {parse : String → Option AgentId} {program : WorkflowProgram}
  {parent : RunSpec} {s : State}

/-- At this history the program spawns, and this is the request. -/
def Spawns (parse : String → Option AgentId) (program : WorkflowProgram) (parent : RunSpec) (history : History)
    (asked : ChildRequest) (agent : AgentSpec) : Prop :=
  evaluateProgram program history = some ⟨[.spawnAgent agent], .none⟩ ∧ request parse parent history agent = .ok asked

/-- What a replay does: nothing to the journal's records, with the spawn's request made or not; or the spawn's child
is started and its record lands; or the counter's does. -/
inductive Effect (parse : String → Option AgentId) (program : WorkflowProgram) (parent : RunSpec) (s : State) :
    State → Prop
  | kept {later : State} (hrecords : later.journal.records = s.journal.records) (hasked : later.asked = s.asked)
      (hstarted : later.started = s.started) : Effect parse program parent s later
  | asked {later : State} {request : ChildRequest} {agent : AgentSpec}
      (hspawns : Spawns parse program parent s.journal.records request agent)
      (hrecords : later.journal.records = s.journal.records)
      (hasked : later.asked = (s.journal.records.length, request) :: s.asked)
      (hstarted : later.started = s.started ∨ later.started = (s.journal.records.length, request) :: s.started) :
      Effect parse program parent s later
  | spawned {later : State} {request : ChildRequest} {agent : AgentSpec}
      (hspawns : Spawns parse program parent s.journal.records request agent)
      (hrecords : later.journal.records = s.journal.records ++ [.agentSpawned agent.agent])
      (hasked : later.asked = (s.journal.records.length, request) :: s.asked)
      (hstarted : later.started = (s.journal.records.length, request) :: s.started) :
      Effect parse program parent s later
  | counted {later : State} {tool : ToolSpec} {value : Int64}
      (hcommand : evaluateProgram program s.journal.records = some ⟨[.executeTool tool], .none⟩)
      (hname : tool.name = "counter") (hrecords : later.journal.records = s.journal.records ++ [.counter value])
      (hasked : later.asked = s.asked) (hstarted : later.started = s.started) : Effect parse program parent s later

theorem commit_journal (s : State) (record : Record) (write : Journal.Write) (answer : WorkflowStep × Option Spawned) :
    (s.commit crc record write answer).2 = { s with journal := s.journal.step crc (.commit record write) } := by
  rw [State.commit]
  split <;> rfl

/-- The evaluator's step is one command. -/
theorem evaluate_one {history : History} {step : WorkflowStep} (h : evaluateProgram program history = some step) :
    ∃ command, step = ⟨[command], .none⟩ := by
  rw [Workflow.evaluate_tour, Option.some.injEq] at h
  exact ⟨_, h.symm⟩

theorem replay_effect (hsound : s.journal.Sound crc) (hopened : s.journal.opened = true) (turn : Turn) :
    (s.replay crc parse program parent turn).2.journal.Sound crc ∧
      Effect parse program parent s (s.replay crc parse program parent turn).2 := by
  have hkilled : ∀ later : State, later.journal = s.journal → (later.killed crc).journal.Sound crc := by
    intro later hlater
    rw [State.killed, hlater]
    exact hsound.step .kill
  rw [State.replay, hsound.history hopened]
  cases hstep : evaluateProgram program s.journal.records with
  | none =>
      simp only [hstep]
      exact ⟨hkilled s rfl, .kept rfl rfl rfl⟩
  | some step =>
      obtain ⟨command, rfl⟩ := evaluate_one hstep
      simp only [hstep]
      cases command with
      | complete | fail => exact ⟨hsound, .kept rfl rfl rfl⟩
      | executeTool tool =>
          dsimp only
          split
          · next hname =>
              split
              · exact ⟨hkilled s rfl, .kept rfl rfl rfl⟩
              · rw [commit_journal]
                refine ⟨hsound.step _, ?_⟩
                rcases @Journal.State.records_commit crc s.journal (.counter turn.counter) turn.write with hsame | hmore
                · exact .kept hsame rfl rfl
                · exact .counted hstep hname hmore rfl rfl
          · exact ⟨hsound, .kept rfl rfl rfl⟩
      | spawnAgent agent =>
          dsimp only
          cases hrequest : request parse parent s.journal.records agent with
          | error reason =>
              simp only
              exact ⟨hsound, .kept rfl rfl rfl⟩
          | ok asked =>
              have hspawns : Spawns parse program parent s.journal.records asked agent := ⟨hstep, hrequest⟩
              dsimp only
              split
              · exact ⟨hkilled s rfl, .kept rfl rfl rfl⟩
              · cases turn.answer asked with
                | error reason =>
                    dsimp only
                    split
                    · exact ⟨hkilled _ rfl, .asked hspawns rfl rfl (.inl rfl)⟩
                    · exact ⟨hsound, .asked hspawns rfl rfl (.inl rfl)⟩
                | ok child =>
                    dsimp only
                    split
                    · exact ⟨hkilled _ rfl, .asked hspawns rfl rfl (.inr rfl)⟩
                    · rw [commit_journal]
                      refine ⟨hsound.step _, ?_⟩
                      rcases @Journal.State.records_commit crc s.journal
                        (.agentSpawned agent.agent) turn.write with hsame | hmore
                      · exact .asked hspawns hsame rfl (.inr rfl)
                      · exact .spawned hspawns hmore rfl rfl

/-! ### The uninterrupted run -/

/-- A journal that is open on its records, as an uninterrupted run leaves it. -/
def OpenOn (crc : Bytes → UInt32) (s : State) (records : List Record) : Prop :=
  s.journal.Sound crc ∧ s.journal.opened = true ∧ s.journal.records = records

theorem OpenOn.committed {s : State} {records : List Record} (h : OpenOn crc s records) {record : Record}
    (hframe : ∃ bytes, Journal.frameOf crc record = some bytes) (asked started : List (Nat × ChildRequest)) :
    OpenOn crc ⟨s.journal.step crc (.commit record .done), asked, started⟩ (records ++ [record]) := by
  obtain ⟨hsound, hopened, rfl⟩ := h
  obtain ⟨bytes, hbytes⟩ := hframe
  refine ⟨hsound.step _, ?_, ?_⟩
  · simp only [Journal.State.step_commit_done hopened hbytes]
  · simp only [Journal.State.step_commit_done hopened hbytes, Journal.State.records, List.map_append, List.map_cons,
      List.map_nil]

/-- Nothing interrupting it, a spawn is started and lands. -/
theorem smooth_spawned {s : State} {records : List Record} (h : OpenOn crc s records) {asked : ChildRequest}
    {agent : AgentSpec} (hspawns : Spawns parse program parent records asked agent)
    (hframe : ∃ bytes, Journal.frameOf crc (.agentSpawned agent.agent) = some bytes)
    (start : ChildRequest → StartedChild) (counter : Int64) :
    OpenOn crc (s.step crc parse program parent (.replay (smooth start counter)))
      (records ++ [.agentSpawned agent.agent]) := by
  have hread := h.1.history h.2.1
  rw [h.2.2] at hread
  rw [State.step, if_pos h.2.1, State.replay, hread]
  simp only [hspawns.1, hspawns.2, smooth, reduceCtorEq, if_false, commit_journal]
  exact h.committed hframe _ _

/-- Nothing interrupting it, a counter call lands. -/
theorem smooth_counted {s : State} {records : List Record} (h : OpenOn crc s records) {tool : ToolSpec}
    (hcommand : evaluateProgram program records = some ⟨[.executeTool tool], .none⟩) (hname : tool.name = "counter")
    {counter : Int64} (hframe : ∃ bytes, Journal.frameOf crc (.counter counter) = some bytes)
    (start : ChildRequest → StartedChild) :
    OpenOn crc (s.step crc parse program parent (.replay (smooth start counter))) (records ++ [.counter counter]) := by
  have hread := h.1.history h.2.1
  rw [h.2.2] at hread
  rw [State.step, if_pos h.2.1, State.replay, hread]
  simp only [hcommand, smooth, hname, if_true, Option.isSome_none, Bool.false_eq_true, if_false, commit_journal]
  exact h.committed hframe _ _

theorem uninterrupted_succ (start : ChildRequest → StartedChild) (answers : Nat → Int64) (turns : Nat) :
    uninterrupted crc parse program parent start answers (turns + 1) =
      (uninterrupted crc parse program parent start answers turns).step crc parse program parent
        (.replay (smooth start (answers turns))) := by
  rw [uninterrupted, uninterrupted, List.range_succ, List.map_append, List.map_cons, List.map_nil, State.run, State.run,
    ← List.cons_append, List.foldl_append, List.foldl_cons, List.foldl_nil]

/-! ### Crashed runs -/

/-- What holds of a host after any run: its journal's records are those of an uninterrupted run with the same
counters, each request was the spawn's at the journal's length it was made at, and each spawn recorded was started. -/
structure State.Sound (crc : Bytes → UInt32) (parse : String → Option AgentId)
    (program : WorkflowProgram) (parent : RunSpec) (s : State) : Prop where
  journal : s.journal.Sound crc
  smooth : ∀ start answers, (∀ at_ value, s.journal.records[at_]? = some (.counter value) → answers at_ = value) →
    OpenOn crc (uninterrupted crc parse program parent start answers s.journal.records.length) s.journal.records
  asked : ∀ at_ asked, (at_, asked) ∈ s.asked → at_ ≤ s.journal.records.length ∧
    ∃ agent, Spawns parse program parent (s.journal.records.take at_) asked agent
  started : ∀ at_ agent, s.journal.records[at_]? = some (.agentSpawned agent) →
    ∃ asked, (at_, asked) ∈ s.started ∧ parse agent = some asked.agentId

theorem request_ok {history : History} {agent : AgentSpec} {asked : ChildRequest}
    (h : request parse parent history agent = .ok asked) :
    parse agent.agent = some asked.agentId ∧ asked.step.toNat = history.length := by
  rw [request] at h
  cases hparse : parse agent.agent with
  | none => simp [hparse] at h
  | some agentId =>
      simp only [hparse] at h
      split at h
      · next hlt =>
          cases h
          exact ⟨rfl, Nat.mod_eq_of_lt hlt⟩
      · cases h

/-- A request stays the spawn's of its length when the journal grows. -/
theorem State.Sound.asked_append (h : s.Sound crc parse program parent) {later more : List Record}
    (hlater : later = s.journal.records ++ more) {at_ : Nat} {asked : ChildRequest} (hmem : (at_, asked) ∈ s.asked) :
    at_ ≤ later.length ∧ ∃ agent, Spawns parse program parent (later.take at_) asked agent := by
  obtain ⟨hle, hspawns⟩ := h.asked at_ asked hmem
  rw [hlater, List.take_append_of_le_length hle, List.length_append]
  exact ⟨by omega, hspawns⟩

/-- So does the one made now. -/
theorem asked_now {later more : List Record} (hlater : later = s.journal.records ++ more) {asked : ChildRequest}
    {agent : AgentSpec} (hspawns : Spawns parse program parent s.journal.records asked agent) :
    s.journal.records.length ≤ later.length ∧
      ∃ agent, Spawns parse program parent (later.take s.journal.records.length) asked agent := by
  rw [hlater, List.take_left, List.length_append]
  exact ⟨by omega, agent, hspawns⟩

/-- The uninterrupted run takes one more record. -/
theorem State.Sound.smooth_append (h : s.Sound crc parse program parent) {record : Record}
    (hgo : ∀ start counter, (∀ value, record = .counter value → counter = value) → ∀ {other : State},
      OpenOn crc other s.journal.records →
      OpenOn crc (other.step crc parse program parent (.replay (Host.smooth start counter)))
        (s.journal.records ++ [record]))
    (start : ChildRequest → StartedChild) (answers : Nat → Int64)
    (hanswers : ∀ at_ value, (s.journal.records ++ [record])[at_]? = some (.counter value) → answers at_ = value) :
    OpenOn crc (uninterrupted crc parse program parent start answers (s.journal.records ++ [record]).length)
      (s.journal.records ++ [record]) := by
  rw [List.length_append, List.length_singleton, uninterrupted_succ]
  refine hgo start _ (fun value hvalue => ?_) (h.smooth start answers fun at_ value hat => ?_)
  · exact hanswers _ _ (by rw [List.getElem?_concat_length, hvalue])
  · exact hanswers at_ value ((List.getElem?_append_left (List.getElem?_eq_some_iff.mp hat).1).trans hat)

/-- What holds stays whatever a replay does. -/
theorem State.Sound.effect (h : s.Sound crc parse program parent) {later : State} (hjournal : later.journal.Sound crc)
    (heffect : Effect parse program parent s later) : later.Sound crc parse program parent := by
  cases heffect with
  | kept hrecords hasked hstarted =>
      exact ⟨hjournal, hrecords ▸ h.smooth, hrecords ▸ hasked ▸ h.asked, hrecords ▸ hstarted ▸ h.started⟩
  | @asked request agent hspawns hrecords hasked hstarted =>
      refine ⟨hjournal, hrecords ▸ h.smooth, fun at_ made hmem => ?_, fun at_ spawned hat => ?_⟩
      · rw [hasked] at hmem
        rcases List.mem_cons.mp hmem with heq | hmem
        · cases heq
          exact asked_now (hrecords.trans (List.append_nil _).symm) hspawns
        · exact h.asked_append (hrecords.trans (List.append_nil _).symm) hmem
      · obtain ⟨made, hmade, hparse⟩ := h.started at_ spawned (hrecords ▸ hat)
        refine ⟨made, ?_, hparse⟩
        rcases hstarted with hsame | hmore
        · exact hsame ▸ hmade
        · exact hmore ▸ List.mem_cons_of_mem _ hmade
  | @spawned request agent hspawns hrecords hasked hstarted =>
      have hmore : Record.agentSpawned agent.agent ∈ later.journal.records := by simp [hrecords]
      have hframe := hjournal.framed hmore
      refine ⟨hjournal, ?_, fun at_ made hmem => ?_, fun at_ spawned hat => ?_⟩
      · rw [hrecords]
        exact h.smooth_append fun start counter _ _ hopen => smooth_spawned hopen hspawns hframe start counter
      · rw [hasked] at hmem
        rcases List.mem_cons.mp hmem with heq | hmem
        · cases heq
          exact asked_now hrecords hspawns
        · exact h.asked_append hrecords hmem
      · rw [hstarted]
        rw [hrecords, List.getElem?_append] at hat
        split at hat
        · obtain ⟨made, hmade, hparse⟩ := h.started at_ spawned hat
          exact ⟨made, List.mem_cons_of_mem _ hmade, hparse⟩
        · next hge =>
            obtain ⟨hzero, hrecord⟩ := List.getElem?_eq_some_iff.mp hat
            have hat : at_ = s.journal.records.length := by
              rw [List.length_singleton] at hzero
              omega
            subst hat
            simp only [Nat.sub_self, List.getElem_cons_zero, Record.agentSpawned.injEq] at hrecord
            exact ⟨request, List.mem_cons_self .., hrecord ▸ (request_ok hspawns.2).1⟩
  | @counted tool value hcommand hname hrecords hasked hstarted =>
      have hmore : Record.counter value ∈ later.journal.records := by simp [hrecords]
      have hframe := hjournal.framed hmore
      refine ⟨hjournal, ?_, fun at_ made hmem => ?_, fun at_ spawned hat => ?_⟩
      · rw [hrecords]
        refine h.smooth_append fun start counter hcounter _ hopen => ?_
        obtain rfl := hcounter value rfl
        exact smooth_counted hopen hcommand hname hframe start
      · rw [hasked] at hmem
        exact h.asked_append hrecords hmem
      · rw [hstarted]
        rw [hrecords, List.getElem?_append] at hat
        split at hat
        · exact h.started at_ spawned hat
        · next hge =>
            obtain ⟨hzero, hrecord⟩ := List.getElem?_eq_some_iff.mp hat
            rw [List.length_singleton] at hzero
            have hat : at_ - s.journal.records.length = 0 := by omega
            simp [hat, Record.counter] at hrecord

/-- An open, or a kill, leaves the records. -/
theorem State.Sound.reopened (h : s.Sound crc parse program parent) {journal : Journal.State}
    (hjournal : journal.Sound crc)
    (hrecords : journal.records = s.journal.records) :
    State.Sound crc parse program parent { s with journal := journal } :=
  h.effect hjournal (.kept hrecords rfl rfl)

theorem State.Sound.step (h : s.Sound crc parse program parent) (op : Op) :
    (s.step crc parse program parent op).Sound crc parse program parent := by
  cases op with
  | open_ how => exact h.reopened (h.journal.step _) (Journal.State.records_open _ how)
  | kill => exact h.reopened (h.journal.step .kill) rfl
  | replay turn =>
      rw [State.step]
      split
      · next hopened =>
          obtain ⟨hjournal, heffect⟩ := replay_effect h.journal hopened turn
          exact h.effect hjournal heffect
      · exact h

theorem sound_empty : State.empty.Sound crc parse program parent where
  journal := Journal.sound_run []
  smooth start answers _ := by
    have hopen := @Journal.open_start crc [] List.nil_prefix Journal.startFrame_pos (.start .done)
    have hstep : Journal.State.step crc .empty (.open_ (.start .done)) = ⟨[] ++ Journal.startFrame crc, true, []⟩ := by
      simp only [Journal.State.step, Journal.State.empty, hopen, Journal.append]
    have hrun : uninterrupted crc parse program parent start answers 0 =
        ⟨⟨[] ++ Journal.startFrame crc, true, []⟩, [], []⟩ :=
      congrArg (fun journal => State.mk journal [] []) hstep
    rw [Journal.State.records, State.empty, Journal.State.empty, List.map_nil, List.length_nil, hrun, ← hstep]
    refine ⟨Journal.sound_run [.open_ (.start .done)], ?_, ?_⟩
    · rw [hstep]
    · rw [hstep, Journal.State.records, List.map_nil]
  asked _ _ hmem := by cases hmem
  started _ _ hat := by cases hat

theorem sound_run (ops : List Op) : (State.run crc parse program parent ops).Sound crc parse program parent := by
  suffices hall : ∀ s : State, s.Sound crc parse program parent →
      (ops.foldl (State.step crc parse program parent) s).Sound crc parse program parent from hall .empty sound_empty
  induction ops with
  | nil => exact fun s h => h
  | cons op rest ih => exact fun s h => ih _ (h.step op)

/-- A refused spawn, or a tool other than the counter, leaves the journal's file. -/
theorem replay_file (hsound : s.journal.Sound crc) (hopened : s.journal.opened = true) (turn : Turn)
    (hidle : (∃ agent, evaluateProgram program s.journal.records = some ⟨[.spawnAgent agent], .none⟩ ∧
        ∀ asked, request parse parent s.journal.records agent = .ok asked →
          ∃ reason, turn.answer asked = .error reason) ∨
      ∃ tool, evaluateProgram program s.journal.records = some ⟨[.executeTool tool], .none⟩ ∧ tool.name ≠ "counter") :
    (s.replay crc parse program parent turn).2.journal.file = s.journal.file := by
  rw [State.replay, hsound.history hopened]
  rcases hidle with ⟨agent, hcommand, hrefused⟩ | ⟨tool, hcommand, hname⟩
  · simp only [hcommand]
    cases hrequest : request parse parent s.journal.records agent with
    | error reason => rfl
    | ok asked =>
        obtain ⟨reason, hreason⟩ := hrefused asked hrequest
        simp only [hreason]
        split
        · rfl
        · split <;> rfl
  · simp only [hcommand, if_neg hname]

theorem spawns_unique {history : History} {asked asked' : ChildRequest} {agent agent' : AgentSpec}
    (h : Spawns parse program parent history asked agent) (h' : Spawns parse program parent history asked' agent') :
    asked = asked' := by
  have hagent := Workflow.command_inj (h.1.symm.trans h'.1)
  rw [WorkflowCommand.spawnAgent.injEq] at hagent
  have hsame := h.2.symm.trans (hagent ▸ h'.2)
  exact Except.ok.inj hsame

/-- Whatever kills, failed writes and refusals a workflow's host goes through, its journal's records are those of a
run that nothing interrupts with the same counters; the requests of one journal position are one, and of two name
different children; a spawn is journaled once its child was started; and a refused spawn or another tool leaves the
journal. -/
theorem host_survives {ι : Type} (childId : ChildName → ι) (hinj : Function.Injective childId) (crc : Bytes → UInt32)
    (parse : String → Option AgentId) (program : WorkflowProgram) (parent : RunSpec) (ops : List Op) :
    (∀ start answers, (∀ at_ value,
      (State.run crc parse program parent ops).journal.records[at_]? = some (.counter value) →
        answers at_ = value) →
      (uninterrupted crc parse program parent start answers
        (State.run crc parse program parent ops).journal.records.length).journal.records =
          (State.run crc parse program parent ops).journal.records) ∧
    (∀ at_ asked asked', (at_, asked) ∈ (State.run crc parse program parent ops).asked →
      (at_, asked') ∈ (State.run crc parse program parent ops).asked → asked = asked') ∧
    (∀ at_ at' asked asked', (at_, asked) ∈ (State.run crc parse program parent ops).asked →
      (at', asked') ∈ (State.run crc parse program parent ops).asked → at_ ≠ at' →
      childId asked.name ≠ childId asked'.name) ∧
    (∀ at_ agent, (State.run crc parse program parent ops).journal.records[at_]? = some (.agentSpawned agent) →
      ∃ asked, (at_, asked) ∈ (State.run crc parse program parent ops).started ∧ parse agent = some asked.agentId) ∧
    ∀ turn, (State.run crc parse program parent ops).journal.opened = true →
      ((∃ agent, evaluateProgram program (State.run crc parse program parent ops).journal.records =
            some ⟨[.spawnAgent agent], .none⟩ ∧
          ∀ asked, request parse parent (State.run crc parse program parent ops).journal.records agent = .ok asked →
            ∃ reason, turn.answer asked = .error reason) ∨
        ∃ tool, evaluateProgram program (State.run crc parse program parent ops).journal.records =
          some ⟨[.executeTool tool], .none⟩ ∧ tool.name ≠ "counter") →
      ((State.run crc parse program parent ops).replay crc parse program parent turn).2.journal.file =
        (State.run crc parse program parent ops).journal.file := by
  have hsound := @sound_run crc parse program parent ops
  refine ⟨fun start answers hanswers => (hsound.smooth start answers hanswers).2.2,
    fun at_ asked asked' hasked hasked' => ?_, fun at_ at' asked asked' hasked hasked' hne hsame => ?_, hsound.started,
    fun turn hopened hidle => replay_file hsound.journal hopened turn hidle⟩
  · obtain ⟨-, agent, hspawns⟩ := hsound.asked at_ asked hasked
    obtain ⟨-, agent', hspawns'⟩ := hsound.asked at_ asked' hasked'
    exact spawns_unique hspawns hspawns'
  · obtain ⟨hle, agent, hspawns⟩ := hsound.asked at_ asked hasked
    obtain ⟨hle', agent', hspawns'⟩ := hsound.asked at' asked' hasked'
    have hstep : asked.step = asked'.step := congrArg ChildName.step (hinj hsame)
    have hat := (request_ok hspawns.2).2
    have hat' := (request_ok hspawns'.2).2
    rw [List.length_take_of_le hle] at hat
    rw [List.length_take_of_le hle', ← hstep, hat] at hat'
    exact hne hat'

end Replays

/-- A workflow that spawns one agent twice, with one input. -/
def twice : WorkflowProgram := ⟨.seq [.spawnAgent "a" "x", .spawnAgent "a" "x"]⟩

/-- Its first spawn is killed after its child was started, and asked again. -/
def killedSpawn : List Op :=
  let start : ChildRequest → Spawned := fun _ => .ok ⟨⟨1⟩, ⟨8, 4⟩⟩
  [.open_ (.start .done), .replay ⟨start, 0, some .afterCall, .done⟩, .open_ (.start .done),
    .replay ⟨start, 0, none, .done⟩, .replay ⟨start, 0, none, .done⟩]

theorem host_survives_twice :
    let last := State.run (fun _ => 0) (fun _ => some ⟨1⟩) twice (RunSpec.plain 1 ⟨8, 4⟩) killedSpawn
    last.asked.map Prod.fst = [1, 0, 0] ∧ ∀ asked asked', (0, asked) ∈ last.asked → (1, asked') ∈ last.asked →
      asked.name ≠ asked'.name :=
  ⟨by decide +kernel, fun asked asked' hasked hasked' =>
    (host_survives id Function.injective_id (fun _ => 0) (fun _ => some ⟨1⟩) twice
      (RunSpec.plain 1 ⟨8, 4⟩) killedSpawn).2.2.1
      0 1 asked asked' hasked hasked' (by decide)⟩

end Host
end Gol
