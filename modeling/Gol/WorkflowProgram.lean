import Mathlib.Algebra.GroupWithZero.Nat
import Mathlib.Data.List.Basic
import Mathlib.Data.List.Nodup

/-! Workflow programs (`workflow-core`): the evaluator walks the program over the records from the start at every
step. The meaning of a program is its direct execution, a tree of the calls it makes and what it does with each
record; the walk issues what the execution waits for, at every history the execution can build. -/

namespace Gol

/-! ### The evaluator -/

inductive Record where
  | tool (name output : String)
  | agentSpawned (agent : String)
  deriving DecidableEq

/-- What a workflow run has recorded so far, oldest first. -/
abbrev History := List Record

/-- The output of the last `counter` tool record. -/
def counterIn (records : List Record) : Option String :=
  records.reverse.findSome? fun
    | .tool name output => if name = "counter" then some output else none
    | .agentSpawned _ => none

structure ToolSpec where
  name : String
  input : String
  deriving DecidableEq

structure AgentSpec where
  agent : String
  input : String
  deriving DecidableEq

inductive WorkflowCommand where
  | executeTool (tool : ToolSpec)
  | complete
  | fail
  | spawnAgent (agent : AgentSpec)
  deriving DecidableEq

inductive WaitCondition where
  | none
  deriving DecidableEq

structure WorkflowStep where
  commands : List WorkflowCommand
  wait : WaitCondition
  deriving DecidableEq

inductive Decision where
  | tool (name input : String)
  | spawnAgent (agent input : String)
  | seq (decisions : List Decision)
  | complete
  | fail
  | onCounter (missing zero other : Decision)

structure WorkflowProgram where
  root : Decision

namespace Workflow

inductive Path where
  | unrecorded
  | zero
  | nonzero
  deriving DecidableEq

/-- Which arm a counter output selects: an output other than "0", even one that is not a number, is `nonzero`. -/
def path : Option String → Path
  | none => .unrecorded
  | some output => if output = "0" then .zero else .nonzero

inductive Walk where
  /-- The command this decision issues now. -/
  | next (command : WorkflowCommand)
  /-- Every record this decision needs is present; the cursor after them. -/
  | done (cursor : Nat)

/-- The arm the records before `cursor` select; a slice past the history panics. -/
def recorded (history : History) (cursor : Nat) : Option Path :=
  if cursor ≤ history.length then some (path (counterIn (history.take cursor))) else none

mutual

/-- Walks `decision` from `cursor`. `none` is a panic. -/
def walk (history : History) : Decision → Nat → Option Walk
  | .tool name input, cursor =>
      match history[cursor]? with
      | none => some (.next (.executeTool ⟨name, input⟩))
      | some (.tool recorded _) => if recorded = name then some (.done (cursor + 1)) else some (.next .fail)
      | some (.agentSpawned _) => some (.next .fail)
  | .spawnAgent agent input, cursor =>
      match history[cursor]? with
      | none => some (.next (.spawnAgent ⟨agent, input⟩))
      | some (.agentSpawned recorded) => if recorded = agent then some (.done (cursor + 1)) else some (.next .fail)
      | some (.tool _ _) => some (.next .fail)
  | .seq decisions, cursor => walkSeq history decisions cursor
  | .complete, _ => some (.next .complete)
  | .fail, _ => some (.next .fail)
  | .onCounter missing onZero other, cursor =>
      match recorded history cursor with
      | none => none
      | some .zero => walk history onZero cursor
      | some .nonzero => walk history other cursor
      | some .unrecorded =>
          match walk history missing cursor with
          | some (.done after) =>
              match recorded history after with
              | none => none
              | some .zero => walk history onZero after
              | some .nonzero => walk history other after
              | some .unrecorded => some (.done after)
          | next => next

def walkSeq (history : History) : List Decision → Nat → Option Walk
  | [], cursor => some (.done cursor)
  | decision :: rest, cursor =>
      match walk history decision cursor with
      | some (.done next) => walkSeq history rest next
      | next => next

end

end Workflow

/-- The next command for this history. -/
def evaluateProgram (program : WorkflowProgram) (history : History) : Option WorkflowStep :=
  (Workflow.walk history program.root 0).map fun
    | .next command => ⟨[command], .none⟩
    | .done _ => ⟨[.fail], .none⟩

def counterProgram : WorkflowProgram := ⟨.onCounter (.tool "counter" "") .complete .fail⟩

example : evaluateProgram counterProgram [] = some ⟨[.executeTool ⟨"counter", ""⟩], .none⟩ ∧
    evaluateProgram counterProgram [.tool "counter" "0"] = some ⟨[.complete], .none⟩ := by decide +kernel

namespace Workflow

/-- The record that matches a command. -/
def matchesCommand : WorkflowCommand → Record → Bool
  | .executeTool tool, .tool name _ => name = tool.name
  | .spawnAgent spec, .agentSpawned agent => agent = spec.agent
  | _, _ => false

/-- The histories that evaluating the program and appending the record of its command build. -/
inductive Built (program : WorkflowProgram) : History → Prop
  | empty : Built program []
  | append {history : History} {command : WorkflowCommand} {record : Record} (h : Built program history)
      (hcommand : evaluateProgram program history = some ⟨[command], .none⟩)
      (hrecord : matchesCommand command record = true) :
      Built program (history ++ [record])

/-! ### Direct execution -/

/-- An execution: the command it waits for with what it does with the record, or its end. -/
inductive Exec where
  | issue (command : WorkflowCommand) (resume : Record → Exec)
  | complete
  | fail

def Exec.command : Exec → WorkflowCommand
  | .issue command _ => command
  | .complete => .complete
  | .fail => .fail

mutual

/-- Executes `decision` after `records`, then goes on as `next` says. -/
def exec : Decision → List Record → (List Record → Exec) → Exec
  | .tool name input, records, next => .issue (.executeTool ⟨name, input⟩) fun record => next (records ++ [record])
  | .spawnAgent agent input, records, next =>
      .issue (.spawnAgent ⟨agent, input⟩) fun record => next (records ++ [record])
  | .seq decisions, records, next => execSeq decisions records next
  | .complete, _, _ => .complete
  | .fail, _, _ => .fail
  | .onCounter missing onZero other, records, next =>
      match path (counterIn records) with
      | .zero => exec onZero records next
      | .nonzero => exec other records next
      | .unrecorded => exec missing records fun after =>
          match path (counterIn after) with
          | .zero => exec onZero after next
          | .nonzero => exec other after next
          | .unrecorded => next after

def execSeq : List Decision → List Record → (List Record → Exec) → Exec
  | [], records, next => next records
  | decision :: rest, records, next => exec decision records fun after => execSeq rest after next

end

/-- A program that runs out without completing fails. -/
def start (program : WorkflowProgram) : Exec := exec program.root [] fun _ => .fail

/-- The execution once these records have come, each matching the command it was waiting for. -/
def Exec.follow : Exec → List Record → Option Exec
  | state, [] => some state
  | .issue command resume, record :: rest =>
      if matchesCommand command record then (resume record).follow rest else none
  | .complete, _ :: _ | .fail, _ :: _ => none

@[simp] theorem Exec.follow_nil (state : Exec) : state.follow [] = some state := by
  cases state <;> rfl

/-! ### The walk against the execution -/

section Agreement

variable {history : History}

/-- The walk ended where the execution goes on, or with the command the execution waits for. -/
def Agrees (history : History) (result : Option Walk) (next : List Record → Exec) (state : Exec) : Prop :=
  (∃ after, result = some (.done after) ∧ after ≤ history.length ∧
    (next (history.take after)).follow (history.drop after) = some state) ∨
  result = some (.next state.command)

theorem recorded_eq {cursor : Nat} (h : cursor ≤ history.length) :
    recorded history cursor = some (path (counterIn (history.take cursor))) := if_pos h

/-- One call of the execution: the record at the cursor matches it, or it waits. -/
theorem follow_issue {cursor : Nat} {command : WorkflowCommand} {resume : Record → Exec} {state : Exec}
    (h : cursor ≤ history.length) (hfollow : (Exec.issue command resume).follow (history.drop cursor) = some state) :
    (history[cursor]? = none ∧ state = .issue command resume) ∨
    ∃ record, history[cursor]? = some record ∧ matchesCommand command record = true ∧ cursor + 1 ≤ history.length ∧
      history.take (cursor + 1) = history.take cursor ++ [record] ∧
      (resume record).follow (history.drop (cursor + 1)) = some state := by
  rcases Nat.lt_or_eq_of_le h with hlt | heq
  · right
    rw [List.drop_eq_getElem_cons hlt, Exec.follow] at hfollow
    split at hfollow
    · next hmatches =>
        refine ⟨history[cursor], List.getElem?_eq_getElem hlt, hmatches, hlt, ?_, hfollow⟩
        rw [List.take_add_one, List.getElem?_eq_getElem hlt, Option.toList_some]
    · cases hfollow
  · left
    rw [heq, List.drop_length, Exec.follow_nil, Option.some.injEq] at hfollow
    exact ⟨List.getElem?_eq_none (Nat.le_of_eq heq.symm), hfollow.symm⟩

mutual

theorem walk_agrees : ∀ (decision : Decision) {cursor : Nat} {next : List Record → Exec} {state : Exec},
    cursor ≤ history.length → (exec decision (history.take cursor) next).follow (history.drop cursor) = some state →
    Agrees history (walk history decision cursor) next state
  | .tool name input, cursor, next, state => by
      intro hcursor hfollow
      rw [exec] at hfollow
      rcases follow_issue hcursor hfollow with ⟨hnone, rfl⟩ | ⟨record, hrecord, hmatches, hlt, htake, hrest⟩
      · exact .inr (by simp only [walk, hnone, Exec.command])
      · cases record with
        | agentSpawned agent => cases hmatches
        | tool recorded output =>
            have hname : recorded = name := of_decide_eq_true hmatches
            exact .inl ⟨cursor + 1, by simp only [walk, hrecord, hname, if_true], hlt, htake ▸ hrest⟩
  | .spawnAgent agent input, cursor, next, state => by
      intro hcursor hfollow
      rw [exec] at hfollow
      rcases follow_issue hcursor hfollow with ⟨hnone, rfl⟩ | ⟨record, hrecord, hmatches, hlt, htake, hrest⟩
      · exact .inr (by simp only [walk, hnone, Exec.command])
      · cases record with
        | tool recorded output => cases hmatches
        | agentSpawned recorded =>
            have hname : recorded = agent := of_decide_eq_true hmatches
            exact .inl ⟨cursor + 1, by simp only [walk, hrecord, hname, if_true], hlt, htake ▸ hrest⟩
  | .seq decisions, cursor, next, state => by
      intro hcursor hfollow
      rw [walk]
      rw [exec] at hfollow
      exact walkSeq_agrees decisions hcursor hfollow
  | .complete, cursor, next, state => by
      intro _ hfollow
      rw [exec] at hfollow
      cases hdrop : history.drop cursor with
      | nil =>
          rw [hdrop, Exec.follow_nil, Option.some.injEq] at hfollow
          exact .inr (by rw [walk, ← hfollow, Exec.command])
      | cons record rest => simp [hdrop, Exec.follow] at hfollow
  | .fail, cursor, next, state => by
      intro _ hfollow
      rw [exec] at hfollow
      cases hdrop : history.drop cursor with
      | nil =>
          rw [hdrop, Exec.follow_nil, Option.some.injEq] at hfollow
          exact .inr (by rw [walk, ← hfollow, Exec.command])
      | cons record rest => simp [hdrop, Exec.follow] at hfollow
  | .onCounter missing onZero other, cursor, next, state => by
      intro hcursor hfollow
      rw [exec] at hfollow
      rw [walk, recorded_eq hcursor]
      cases hpath : path (counterIn (history.take cursor)) with
      | zero =>
          simp only [hpath] at hfollow ⊢
          exact walk_agrees onZero hcursor hfollow
      | nonzero =>
          simp only [hpath] at hfollow ⊢
          exact walk_agrees other hcursor hfollow
      | unrecorded =>
          simp only [hpath] at hfollow ⊢
          rcases walk_agrees missing hcursor hfollow with ⟨after, hdone, hafter, hgo⟩ | hnext
          · simp only [hdone, recorded_eq hafter]
            cases harm : path (counterIn (history.take after)) with
            | zero =>
                simp only [harm] at hgo
                exact walk_agrees onZero hafter hgo
            | nonzero =>
                simp only [harm] at hgo
                exact walk_agrees other hafter hgo
            | unrecorded =>
                simp only [harm] at hgo
                exact .inl ⟨after, rfl, hafter, hgo⟩
          · exact .inr (by simp only [hnext])

theorem walkSeq_agrees : ∀ (decisions : List Decision) {cursor : Nat} {next : List Record → Exec} {state : Exec},
    cursor ≤ history.length → (execSeq decisions (history.take cursor) next).follow (history.drop cursor) = some state →
    Agrees history (walkSeq history decisions cursor) next state
  | [], cursor, next, state => by
      intro hcursor hfollow
      rw [execSeq] at hfollow
      exact .inl ⟨cursor, by rw [walkSeq], hcursor, hfollow⟩
  | decision :: rest, cursor, next, state => by
      intro hcursor hfollow
      rw [execSeq] at hfollow
      rw [walkSeq]
      rcases walk_agrees decision hcursor hfollow with ⟨after, hdone, hafter, hgo⟩ | hnext
      · simp only [hdone]
        exact walkSeq_agrees rest hafter hgo
      · exact .inr (by simp only [hnext])

end

end Agreement

/-- At a history the execution goes through, the evaluator issues what the execution waits for. -/
theorem evaluate_of_follow {program : WorkflowProgram} {history : History} {state : Exec}
    (hfollow : (start program).follow history = some state) :
    evaluateProgram program history = some ⟨[state.command], .none⟩ := by
  have hagrees := walk_agrees program.root (Nat.zero_le history.length) hfollow
  rcases hagrees with ⟨after, hdone, -, hgo⟩ | hnext
  · rw [evaluateProgram, hdone, Option.map_some]
    cases hdrop : history.drop after with
    | nil =>
        rw [hdrop, Exec.follow_nil, Option.some.injEq] at hgo
        rw [← hgo, Exec.command]
    | cons record rest => simp [hdrop, Exec.follow] at hgo
  · rw [evaluateProgram, hnext, Option.map_some]

theorem follow_append (state : Exec) (history more : List Record) :
    state.follow (history ++ more) = (state.follow history).bind fun later => later.follow more := by
  induction history generalizing state with
  | nil => rw [List.nil_append, Exec.follow_nil, Option.bind_some]
  | cons record rest ih =>
      cases state with
      | complete | fail => rfl
      | issue command resume =>
          rw [List.cons_append, Exec.follow, Exec.follow]
          split
          · exact ih _
          · rfl

/-- The execution goes through every history built. -/
theorem Built.follow {program : WorkflowProgram} {history : History} (h : Built program history) :
    ∃ state, (start program).follow history = some state := by
  induction h with
  | empty => exact ⟨start program, Exec.follow_nil _⟩
  | @append history command record h hcommand hrecord ih =>
      obtain ⟨state, hstate⟩ := ih
      rw [evaluate_of_follow hstate, Option.some.injEq, WorkflowStep.mk.injEq, List.cons.injEq] at hcommand
      obtain ⟨⟨rfl, -⟩, -⟩ := hcommand
      rw [follow_append]
      cases state with
      | complete | fail => cases hrecord
      | issue command resume =>
          refine ⟨resume record, ?_⟩
          have hmatches : matchesCommand command record = true := hrecord
          rw [hstate, Option.bind_some, Exec.follow, if_pos hmatches, Exec.follow_nil]

/-! ### What is passed -/

mutual

/-- The decisions of a program, numbered as they are written: `decision` is followed by those in it. -/
def size : Decision → Nat
  | .tool _ _ | .spawnAgent _ _ | .complete | .fail => 1
  | .seq decisions => 1 + sizeSeq decisions
  | .onCounter missing onZero other => 1 + size missing + size onZero + size other

def sizeSeq : List Decision → Nat
  | [] => 0
  | decision :: rest => size decision + sizeSeq rest

end

mutual

/-- The tool calls and spawns of a decision. -/
def leaves : Decision → Nat
  | .tool _ _ | .spawnAgent _ _ => 1
  | .complete | .fail => 0
  | .seq decisions => leavesSeq decisions
  | .onCounter missing onZero other => leaves missing + leaves onZero + leaves other

def leavesSeq : List Decision → Nat
  | [] => 0
  | decision :: rest => leaves decision + leavesSeq rest

end

/-- What a walk went through: a tool call or spawn with its record, or the arm a counter selected. -/
inductive Mark where
  | passed (number : Nat)
  | chose (number : Nat) (arm : Path)

def Mark.number : Mark → Nat
  | .passed number | .chose number _ => number

/-- How a walk ended, with the number of the decision that waits. -/
inductive Stop where
  | issue (number : Nat) (command : WorkflowCommand)
  | complete
  | fail
  | done (cursor : Nat)

def Stop.walk : Stop → Walk
  | .issue _ command => .next command
  | .complete => .next .complete
  | .fail => .next .fail
  | .done cursor => .done cursor

def Stop.waits : Stop → List Nat
  | .issue number _ => [number]
  | .complete | .fail | .done _ => []

/-- One call of the walk: its record is at the cursor, it waits, or another record is there. -/
def tourCall (history : History) (command : WorkflowCommand) (number cursor : Nat) : List Mark × Stop :=
  match history[cursor]? with
  | none => ([], .issue number command)
  | some record => if matchesCommand command record then ([.passed number], .done (cursor + 1)) else ([], .fail)

/-- A tour that goes on after these marks. -/
def extend (marks : List Mark) (result : List Mark × Stop) : List Mark × Stop := (marks ++ result.1, result.2)

mutual

/-- The walk of `decision`, numbered `number`, with what it goes through. -/
def tour (history : History) : Decision → Nat → Nat → List Mark × Stop
  | .tool name input, number, cursor => tourCall history (.executeTool ⟨name, input⟩) number cursor
  | .spawnAgent agent input, number, cursor => tourCall history (.spawnAgent ⟨agent, input⟩) number cursor
  | .seq decisions, number, cursor => tourSeq history decisions (number + 1) cursor
  | .complete, _, _ => ([], .complete)
  | .fail, _, _ => ([], .fail)
  | .onCounter missing onZero other, number, cursor =>
      match path (counterIn (history.take cursor)) with
      | .zero => extend [.chose number .zero] (tour history onZero (number + 1 + size missing) cursor)
      | .nonzero =>
          extend [.chose number .nonzero] (tour history other (number + 1 + size missing + size onZero) cursor)
      | .unrecorded =>
          match tour history missing (number + 1) cursor with
          | (marks, .done after) =>
              match path (counterIn (history.take after)) with
              | .zero => extend (marks ++ [.chose number .zero]) (tour history onZero (number + 1 + size missing) after)
              | .nonzero =>
                  extend (marks ++ [.chose number .nonzero])
                    (tour history other (number + 1 + size missing + size onZero) after)
              | .unrecorded => (marks, .done after)
          | (marks, stop) => (marks, stop)

def tourSeq (history : History) : List Decision → Nat → Nat → List Mark × Stop
  | [], _, cursor => ([], .done cursor)
  | decision :: rest, number, cursor =>
      match tour history decision number cursor with
      | (marks, .done after) => extend marks (tourSeq history rest (number + size decision) after)
      | (marks, stop) => (marks, stop)

end

/-- What a tour from `cursor` of decisions numbered from `number` keeps: the walk goes where it goes, the numbers are
its own and each comes once, and it reads a record for each call it passes. -/
structure Toured (history : History) (walked : Option Walk) (number size cursor leaves : Nat)
    (result : List Mark × Stop) : Prop where
  walk : walked = some result.2.walk
  range : ∀ at_ ∈ result.1.map Mark.number ++ result.2.waits, number ≤ at_ ∧ at_ < number + size
  nodup : (result.1.map Mark.number ++ result.2.waits).Nodup
  done : ∀ after, result.2 = .done after → cursor ≤ after ∧ after ≤ history.length ∧ after ≤ cursor + leaves
  issue : ∀ at_ command, result.2 = .issue at_ command → history.length < cursor + leaves ∧ command ≠ .complete ∧
    command ≠ .fail

section Tour

variable {history : History} {walked : Option Walk} {number cursor : Nat}

theorem toured_call {command : WorkflowCommand} (hcommand : command ≠ .complete ∧ command ≠ .fail)
    (hcursor : cursor ≤ history.length) (hwalk : walked = some (tourCall history command number cursor).2.walk) :
    Toured history walked number 1 cursor 1 (tourCall history command number cursor) := by
  rw [tourCall] at hwalk ⊢
  cases hrecord : history[cursor]? with
  | none =>
      have hend := List.getElem?_eq_none_iff.mp hrecord
      simp only [hrecord] at hwalk ⊢
      refine ⟨hwalk, by simp [Stop.waits], by simp [Stop.waits], nofun, ?_⟩
      rintro at_ issued hissue
      cases hissue
      exact ⟨by omega, hcommand⟩
  | some record =>
      have hlt := (List.getElem?_eq_some_iff.mp hrecord).1
      simp only [hrecord] at hwalk ⊢
      by_cases hmatches : matchesCommand command record = true
      · rw [if_pos hmatches] at hwalk ⊢
        refine ⟨hwalk, by simp [Stop.waits, Mark.number], by simp [Stop.waits], ?_, nofun⟩
        rintro after hafter
        cases hafter
        omega
      · rw [if_neg hmatches] at hwalk ⊢
        exact ⟨hwalk, by simp [Stop.waits], by simp [Stop.waits], nofun, nofun⟩

/-- A tour that goes on after the marks of decisions of other numbers. -/
theorem Toured.extend {number' size size' cursor' leaves leaves' : Nat} {marks : List Mark} {result : List Mark × Stop}
    (h : Toured history walked number' size' cursor' leaves' result)
    (hmarks : ∀ mark ∈ marks, (number ≤ mark.number ∧ mark.number < number + size) ∧
      (mark.number < number' ∨ number' + size' ≤ mark.number))
    (hnodup : (marks.map Mark.number).Nodup) (hnumber : number ≤ number') (hsize : number' + size' ≤ number + size)
    (hcursor : cursor ≤ cursor') (hleaves : cursor' + leaves' ≤ cursor + leaves) :
    Toured history walked number size cursor leaves (extend marks result) where
  walk := h.walk
  range at_ hat := by
    rw [Workflow.extend, List.map_append, List.append_assoc, List.mem_append] at hat
    rcases hat with hmark | hrest
    · obtain ⟨mark, hmem, rfl⟩ := List.mem_map.mp hmark
      exact (hmarks mark hmem).1
    · have hrange := h.range at_ hrest
      omega
  nodup := by
    rw [Workflow.extend, List.map_append, List.append_assoc]
    refine List.nodup_append.mpr ⟨hnodup, h.nodup, ?_⟩
    rintro at_ hmark other hrest rfl
    obtain ⟨mark, hmem, rfl⟩ := List.mem_map.mp hmark
    have hrange := h.range _ hrest
    have hout := (hmarks mark hmem).2
    omega
  done after hafter := by
    obtain ⟨hle, hend, hmost⟩ := h.done after hafter
    exact ⟨Nat.le_trans hcursor hle, hend, Nat.le_trans hmost hleaves⟩
  issue at_ command hissue := by
    obtain ⟨hlt, hcommand⟩ := h.issue at_ command hissue
    exact ⟨by omega, hcommand⟩

/-- An arm that a counter selects after these marks. -/
theorem Toured.arm {sizes leaves first size' leaves' cursor' : Nat} {arm : Path} {marks : List Mark}
    {result : List Mark × Stop} (h : Toured history walked first size' cursor' leaves' result)
    (hmarks : ∀ mark ∈ marks, number < mark.number ∧ mark.number < first) (hnodup : (marks.map Mark.number).Nodup)
    (hfirst : number < first) (hsize : first + size' ≤ number + sizes) (hcursor : cursor ≤ cursor')
    (hleaves : cursor' + leaves' ≤ cursor + leaves) :
    Toured history walked number sizes cursor leaves (Workflow.extend (marks ++ [.chose number arm]) result) := by
  refine h.extend ?_ ?_ (by omega) hsize hcursor hleaves
  · intro mark hmark
    rcases List.mem_append.mp hmark with hmark | hmark
    · have hrange := hmarks mark hmark
      omega
    · rw [List.mem_singleton.mp hmark, Mark.number]
      omega
  · rw [List.map_append]
    refine List.nodup_append.mpr ⟨hnodup, List.nodup_singleton _, ?_⟩
    rintro at_ hat other hother rfl
    obtain ⟨mark, hmark, hnumber⟩ := List.mem_map.mp hat
    have hrange := hmarks mark hmark
    rw [List.map_cons, List.map_nil, List.mem_singleton, Mark.number] at hother
    omega

/-- A part's tour as the whole's. -/
theorem Toured.within {number' size size' cursor' leaves leaves' : Nat} {result : List Mark × Stop}
    (h : Toured history walked number' size' cursor' leaves' result) (hnumber : number ≤ number')
    (hsize : number' + size' ≤ number + size) (hcursor : cursor ≤ cursor')
    (hleaves : cursor' + leaves' ≤ cursor + leaves) :
    Toured history walked number size cursor leaves result :=
  have hnone : ∀ mark ∈ ([] : List Mark), (number ≤ mark.number ∧ mark.number < number + size) ∧
      (mark.number < number' ∨ number' + size' ≤ mark.number) := nofun
  h.extend hnone List.nodup_nil hnumber hsize hcursor hleaves

/-- An arm chosen at once. -/
theorem Toured.firstArm {sizes leaves first size' leaves' cursor' : Nat} {arm : Path} {result : List Mark × Stop}
    (h : Toured history walked first size' cursor' leaves' result) (hfirst : number < first)
    (hsize : first + size' ≤ number + sizes) (hcursor : cursor ≤ cursor')
    (hleaves : cursor' + leaves' ≤ cursor + leaves) :
    Toured history walked number sizes cursor leaves (Workflow.extend [.chose number arm] result) :=
  have hnone : ∀ mark ∈ ([] : List Mark), number < mark.number ∧ mark.number < first := nofun
  h.arm hnone List.nodup_nil hfirst hsize hcursor hleaves

mutual

theorem tour_toured : ∀ (decision : Decision) (number : Nat) {cursor : Nat}, cursor ≤ history.length →
    Toured history (walk history decision cursor) number (size decision) cursor (leaves decision)
      (tour history decision number cursor)
  | .tool name input, number, cursor => by
      intro hcursor
      rw [tour, size, leaves]
      refine toured_call ⟨nofun, nofun⟩ hcursor ?_
      rw [walk, tourCall]
      cases history[cursor]? with
      | none => rfl
      | some record =>
          cases record with
          | agentSpawned agent => rfl
          | tool recorded output => by_cases hname : recorded = name <;> simp [hname, matchesCommand, Stop.walk]
  | .spawnAgent agent input, number, cursor => by
      intro hcursor
      rw [tour, size, leaves]
      refine toured_call ⟨nofun, nofun⟩ hcursor ?_
      rw [walk, tourCall]
      cases history[cursor]? with
      | none => rfl
      | some record =>
          cases record with
          | tool recorded output => rfl
          | agentSpawned recorded => by_cases hname : recorded = agent <;> simp [hname, matchesCommand, Stop.walk]
  | .complete, number, cursor => fun _ => by
      rw [tour, walk]
      exact ⟨rfl, by simp [Stop.waits], by simp [Stop.waits], nofun, nofun⟩
  | .fail, number, cursor => fun _ => by
      rw [tour, walk]
      exact ⟨rfl, by simp [Stop.waits], by simp [Stop.waits], nofun, nofun⟩
  | .seq decisions, number, cursor => by
      intro hcursor
      rw [tour, walk, size, leaves]
      have hrest := tourSeq_toured decisions (number + 1) hcursor
      exact ⟨hrest.walk, fun at_ hat => by
        have hrange := hrest.range at_ hat; omega, hrest.nodup, hrest.done, hrest.issue⟩
  | .onCounter missing onZero other, number, cursor => by
      intro hcursor
      rw [tour, walk, size, leaves, recorded_eq hcursor]
      cases hpath : path (counterIn (history.take cursor)) with
      | zero =>
          exact (tour_toured onZero _ hcursor).firstArm (by omega) (by omega) (Nat.le_refl _) (by omega)
      | nonzero =>
          exact (tour_toured other _ hcursor).firstArm (by omega) (by omega) (Nat.le_refl _) (by omega)
      | unrecorded =>
          have hmissing := tour_toured missing (number + 1) hcursor
          have hwalk := hmissing.walk
          generalize tour history missing (number + 1) cursor = result at hmissing hwalk
          obtain ⟨marks, stop⟩ := result
          rw [hwalk] at hmissing ⊢
          have hmarks : ∀ mark ∈ marks, number < mark.number ∧ mark.number < number + 1 + size missing := by
            intro mark hmark
            have hrange := hmissing.range mark.number (List.mem_append_left _ (List.mem_map_of_mem hmark))
            omega
          have hnodup : (marks.map Mark.number).Nodup := (List.nodup_append.mp hmissing.nodup).1
          cases stop with
          | issue | complete | fail =>
              exact hmissing.within (by omega) (by omega) (Nat.le_refl _) (by omega)
          | done after =>
              obtain ⟨hle, hend, hmost⟩ := hmissing.done after rfl
              simp only [Stop.walk, recorded_eq hend]
              cases hafter : path (counterIn (history.take after)) with
              | zero =>
                  exact (tour_toured onZero _ hend).arm hmarks hnodup (by omega) (by omega) hle (by omega)
              | nonzero =>
                  exact (tour_toured other _ hend).arm
                    (fun mark hmark => by have hrange := hmarks mark hmark; omega) hnodup
                    (by omega) (by omega) hle (by omega)
              | unrecorded =>
                  exact hmissing.within (by omega) (by omega) (Nat.le_refl _) (by omega)

theorem tourSeq_toured : ∀ (decisions : List Decision) (number : Nat) {cursor : Nat}, cursor ≤ history.length →
    Toured history (walkSeq history decisions cursor) number (sizeSeq decisions) cursor (leavesSeq decisions)
      (tourSeq history decisions number cursor)
  | [], number, cursor => fun hcursor => by
      rw [tourSeq, walkSeq]
      refine ⟨rfl, by simp [Stop.waits], by simp [Stop.waits], fun after hafter => ?_, nofun⟩
      cases hafter
      omega
  | decision :: rest, number, cursor => by
      intro hcursor
      rw [tourSeq, walkSeq, sizeSeq, leavesSeq]
      have hfirst := tour_toured decision number hcursor
      have hwalk := hfirst.walk
      generalize tour history decision number cursor = result at hfirst hwalk
      obtain ⟨marks, stop⟩ := result
      rw [hwalk] at hfirst ⊢
      cases stop with
      | issue | complete | fail =>
          exact hfirst.within (by omega) (by omega) (Nat.le_refl _) (by omega)
      | done after =>
          obtain ⟨hle, hend, hmost⟩ := hfirst.done after rfl
          simp only [Stop.walk]
          refine (tourSeq_toured rest _ hend).extend (fun mark hmark => ?_)
            (List.nodup_append.mp hfirst.nodup).1 (by omega)
            (by omega) hle (by omega)
          have hrange := hfirst.range mark.number (List.mem_append_left _ (List.mem_map_of_mem hmark))
          omega

end

end Tour

/-! ### More records -/

section Growth

variable {history more : History}

/-- What more records make of a tour: nothing, unless it waits and the next of them is the record it waits for. -/
def Grown (more : History) (result later : List Mark × Stop) : Prop :=
  ((∀ at_ command, result.2 ≠ .issue at_ command) → later = result) ∧
  ∀ at_ command record rest, result.2 = .issue at_ command → more = record :: rest →
    matchesCommand command record = true → result.1 ++ [.passed at_] <+: later.1

theorem Grown.extend {result later : List Mark × Stop} (h : Grown more result later) (marks : List Mark) :
    Grown more (extend marks result) (extend marks later) := by
  refine ⟨fun hstop => by rw [h.1 hstop], fun at_ command record rest hissue hmore hmatches => ?_⟩
  rw [Workflow.extend, Workflow.extend, List.append_assoc]
  exact (List.prefix_append_right_inj marks).mpr (h.2 at_ command record rest hissue hmore hmatches)

/-- A tour that waits stays grown, whatever follows what it waited for. -/
theorem Grown.issued {marks : List Mark} {at_ : Nat} {command : WorkflowCommand} {later final : List Mark × Stop}
    (h : Grown more (marks, .issue at_ command) later) (hfinal : later.1 <+: final.1) :
    Grown more (marks, .issue at_ command) final :=
  ⟨fun hstop => absurd rfl (hstop at_ command), fun at' command' record rest hissue hmore hmatches =>
    (h.2 at' command' record rest hissue hmore hmatches).trans hfinal⟩

theorem grown_call (command : WorkflowCommand) (number : Nat) {cursor : Nat} (hcursor : cursor ≤ history.length) :
    Grown more (tourCall history command number cursor) (tourCall (history ++ more) command number cursor) := by
  rcases Nat.lt_or_eq_of_le hcursor with hlt | rfl
  · have hsame : tourCall (history ++ more) command number cursor = tourCall history command number cursor := by
      rw [tourCall, tourCall, List.getElem?_append_left hlt]
    rw [hsame]
    refine ⟨fun _ => rfl, fun at_ issued record rest hissue _ _ => ?_⟩
    rw [tourCall, List.getElem?_eq_getElem hlt] at hissue
    by_cases hmatches : matchesCommand command history[cursor] = true <;> simp [hmatches] at hissue
  · have hwaits : tourCall history command number history.length = ([], .issue number command) := by
      rw [tourCall, List.getElem?_eq_none (Nat.le_refl _)]
    rw [hwaits]
    refine ⟨fun hstop => absurd rfl (hstop number command), ?_⟩
    rintro at_ issued record rest hissue rfl hmatches
    cases hissue
    rw [tourCall, List.getElem?_append_right (Nat.le_refl _), Nat.sub_self, List.getElem?_cons_zero]
    simp only [hmatches, if_true, List.nil_append, List.prefix_refl]

theorem take_grown {cursor : Nat} (hcursor : cursor ≤ history.length) :
    (history ++ more).take cursor = history.take cursor :=
  List.take_append_of_le_length hcursor

mutual

theorem tour_grown : ∀ (decision : Decision) (number : Nat) {cursor : Nat}, cursor ≤ history.length →
    Grown more (tour history decision number cursor) (tour (history ++ more) decision number cursor)
  | .tool name input, number, cursor => fun hcursor => by
      rw [tour, tour]
      exact grown_call _ number hcursor
  | .spawnAgent agent input, number, cursor => fun hcursor => by
      rw [tour, tour]
      exact grown_call _ number hcursor
  | .complete, number, cursor | .fail, number, cursor => fun _ => by
      rw [tour, tour]
      exact ⟨fun _ => rfl, nofun⟩
  | .seq decisions, number, cursor => fun hcursor => by
      rw [tour, tour]
      exact tourSeq_grown decisions (number + 1) hcursor
  | .onCounter missing onZero other, number, cursor => by
      intro hcursor
      rw [tour, tour, take_grown hcursor]
      cases hpath : path (counterIn (history.take cursor)) with
      | zero => exact (tour_grown onZero _ hcursor).extend _
      | nonzero => exact (tour_grown other _ hcursor).extend _
      | unrecorded =>
          have hmissing := tour_grown missing (number + 1) hcursor
          have htoured := tour_toured missing (number + 1) hcursor
          generalize tour history missing (number + 1) cursor = result at hmissing htoured
          generalize tour (history ++ more) missing (number + 1) cursor = later at hmissing
          obtain ⟨marks, stop⟩ := result
          cases stop with
          | issue at_ command =>
              refine hmissing.issued ?_
              obtain ⟨marks', stop'⟩ := later
              cases stop' with
              | issue | complete | fail => exact List.prefix_refl _
              | done after =>
                  simp only
                  cases path (counterIn ((history ++ more).take after)) with
                  | zero | nonzero => exact ⟨_, (List.append_assoc _ _ _).symm⟩
                  | unrecorded => exact List.prefix_refl _
          | complete | fail =>
              rw [hmissing.1 nofun]
              exact ⟨fun _ => rfl, nofun⟩
          | done after =>
              obtain ⟨-, hend, -⟩ := htoured.done after rfl
              rw [hmissing.1 nofun]
              simp only [take_grown hend]
              cases path (counterIn (history.take after)) with
              | zero => exact (tour_grown onZero _ hend).extend _
              | nonzero => exact (tour_grown other _ hend).extend _
              | unrecorded => exact ⟨fun _ => rfl, nofun⟩

theorem tourSeq_grown : ∀ (decisions : List Decision) (number : Nat) {cursor : Nat}, cursor ≤ history.length →
    Grown more (tourSeq history decisions number cursor) (tourSeq (history ++ more) decisions number cursor)
  | [], number, cursor => fun _ => by
      rw [tourSeq, tourSeq]
      exact ⟨fun _ => rfl, nofun⟩
  | decision :: rest, number, cursor => by
      intro hcursor
      rw [tourSeq, tourSeq]
      have hfirst := tour_grown decision number hcursor
      have htoured := tour_toured decision number hcursor
      generalize tour history decision number cursor = result at hfirst htoured
      generalize tour (history ++ more) decision number cursor = later at hfirst
      obtain ⟨marks, stop⟩ := result
      cases stop with
      | issue at_ command =>
          refine hfirst.issued ?_
          obtain ⟨marks', stop'⟩ := later
          cases stop' with
          | issue | complete | fail => exact List.prefix_refl _
          | done after => exact List.prefix_append _ _
      | complete | fail =>
          rw [hfirst.1 nofun]
          exact ⟨fun _ => rfl, nofun⟩
      | done after =>
          obtain ⟨-, hend, -⟩ := htoured.done after rfl
          rw [hfirst.1 nofun]
          exact (tourSeq_grown rest _ hend).extend _

end

end Growth

/-! ### Replaying -/

theorem Built.begins {program : WorkflowProgram} {history : History} (h : Built program history) {earlier : History}
    (hbegins : earlier <+: history) : Built program earlier := by
  induction h with
  | empty => exact List.prefix_nil.mp hbegins ▸ .empty
  | append h hcommand hrecord ih =>
      rcases List.prefix_concat_iff.mp hbegins with rfl | hbegins
      · exact .append h hcommand hrecord
      · exact ih hbegins

/-- The command a stop comes to. -/
def Stop.command : Stop → WorkflowCommand
  | .issue _ command => command
  | .complete => .complete
  | .fail | .done _ => .fail

theorem evaluate_tour (program : WorkflowProgram) (history : History) :
    evaluateProgram program history = some ⟨[(tour history program.root 0 0).2.command], .none⟩ := by
  rw [evaluateProgram, (tour_toured program.root 0 (Nat.zero_le history.length)).walk, Option.map_some]
  cases (tour history program.root 0 0).2 <;> rfl

theorem command_inj {a b : WorkflowCommand} (h : some (⟨[a], .none⟩ : WorkflowStep) = some ⟨[b], .none⟩) : a = b := by
  rw [Option.some.injEq, WorkflowStep.mk.injEq, List.cons.injEq] at h
  exact h.1.1

/-- What matches a stop's command matches the call it waits for. -/
theorem Stop.issue_of_matches {stop : Stop} {record : Record} (h : matchesCommand stop.command record = true) :
    ∃ number, stop = .issue number stop.command := by
  cases stop with
  | issue number command => exact ⟨number, rfl⟩
  | complete | fail | done => cases h

/-- A program waits for no more records than it has calls. -/
theorem Built.length_le {program : WorkflowProgram} {history : History} (h : Built program history) :
    history.length ≤ leaves program.root := by
  cases h with
  | empty => exact Nat.zero_le _
  | @append history command record h hcommand hrecord =>
      obtain rfl := command_inj ((evaluate_tour program history).symm.trans hcommand)
      obtain ⟨number, hissue⟩ := Stop.issue_of_matches hrecord
      have hlt := ((tour_toured program.root 0 (Nat.zero_le history.length)).issue number _ hissue).1
      rw [List.length_append, List.length_singleton]
      omega

/-- Replaying a program is sound at every history built: the evaluator issues what the execution waits for; what it
went through at an earlier one it went through here, and what it waited for then is passed; no decision comes twice,
so no arm changes; and it ends within as many records as the program has calls, and stays so. -/
theorem replay_sound (program : WorkflowProgram) (history : History) (hbuilt : Built program history) :
    (∃ state, (start program).follow history = some state ∧
      evaluateProgram program history = some ⟨[state.command], .none⟩ ∧
      history.length ≤ leaves program.root ∧
      (history.length = leaves program.root → state.command = .complete ∨ state.command = .fail) ∧
      (state.command = .complete ∨ state.command = .fail →
        ∀ more, evaluateProgram program (history ++ more) = some ⟨[state.command], .none⟩)) ∧
    ((tour history program.root 0 0).1.map Mark.number ++ (tour history program.root 0 0).2.waits).Nodup ∧
    ∀ earlier, earlier <+: history → earlier ≠ history → ∃ number command,
      (tour earlier program.root 0 0).2 = .issue number command ∧
      evaluateProgram program earlier = some ⟨[command], .none⟩ ∧
      (tour earlier program.root 0 0).1 ++ [.passed number] <+: (tour history program.root 0 0).1 := by
  have htoured := tour_toured program.root 0 (Nat.zero_le history.length)
  refine ⟨?_, htoured.nodup, ?_⟩
  · obtain ⟨state, hstate⟩ := hbuilt.follow
    have hcommand := command_inj ((evaluate_tour program history).symm.trans (evaluate_of_follow hstate))
    refine ⟨state, hstate, evaluate_of_follow hstate, hbuilt.length_le, fun hlength => ?_, fun hended more => ?_⟩
    · rw [← hcommand]
      cases hstop : (tour history program.root 0 0).2 with
      | issue number command =>
          have hlt := (htoured.issue number command hstop).1
          omega
      | complete => exact .inl rfl
      | fail | done => exact .inr rfl
    · have hgrown := @tour_grown history more program.root 0 0 (Nat.zero_le history.length)
      rw [evaluate_tour, hgrown.1, hcommand]
      intro number command hissue
      have hproper := (htoured.issue number command hissue).2
      rw [← hcommand, hissue] at hended
      exact hended.elim hproper.1 hproper.2
  · intro earlier hbegins hne
    obtain ⟨state, hstate⟩ := hbuilt.follow
    obtain ⟨before, hbefore⟩ := (hbuilt.begins hbegins).follow
    obtain ⟨more, rfl⟩ := hbegins
    have hcommand := command_inj ((evaluate_tour program earlier).symm.trans (evaluate_of_follow hbefore))
    rw [follow_append, hbefore, Option.bind_some] at hstate
    cases more with
    | nil => exact absurd (List.append_nil _).symm hne
    | cons record rest =>
        have hmatches : matchesCommand before.command record = true := by
          cases before with
          | complete | fail => cases hstate
          | issue command resume =>
              rw [Exec.follow] at hstate
              split at hstate
              · assumption
              · cases hstate
        rw [← hcommand] at hmatches
        obtain ⟨number, hissue⟩ := Stop.issue_of_matches hmatches
        refine ⟨number, _, hissue, evaluate_tour program earlier, ?_⟩
        exact (tour_grown program.root 0 (Nat.zero_le earlier.length)).2 number _ record rest hissue rfl hmatches

/-- A counter that answers one: its call is passed. -/
theorem replay_sound_counter :
    ∃ number command, evaluateProgram counterProgram [] = some ⟨[command], .none⟩ ∧
      Mark.passed number ∈ (tour [.tool "counter" "1"] counterProgram.root 0 0).1 := by
  have hbuilt : Built counterProgram ([] ++ [.tool "counter" "1"]) :=
    @Built.append counterProgram [] (.executeTool ⟨"counter", ""⟩) _ .empty (by decide +kernel) (by decide +kernel)
  obtain ⟨number, command, -, hcommand, hpassed⟩ :=
    (replay_sound counterProgram _ hbuilt).2.2 [] (List.nil_prefix) nofun
  exact ⟨number, command, hcommand, hpassed.subset (by simp)⟩

end Workflow
end Gol
