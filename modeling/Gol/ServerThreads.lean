import Gol.ServerSweep
import Gol.StoreThreads

/-! How a message to a thread answers one of its tasks (`follow_up`, `http.rs`): the tasks that wait on the user,
labelled by their place in the thread, and the task a message addresses. A label names the same task for as long as
the thread's order keeps its places. -/

namespace Gol
open Library StopStore

/-- The question to the user the run waits on, with its prompt (`open_question`). -/
def openQuestionPrompt (spec : RunSpec) (events : List Event) : Option (MessageId × String) :=
  if hasEnded events then none else
  match (fold spec events).harness with
  | .waitingForMessage _ _ messageId => events.findSome? fun event => match event.payload with
      | .userAsked asked prompt => if asked = messageId then some (messageId, prompt) else none
      | _ => none
  | _ => none

/-- `openQuestion` is its id. -/
theorem openQuestionPrompt_fst (spec : RunSpec) (events : List Event) :
    (openQuestionPrompt spec events).map Prod.fst = openQuestion spec events := by
  have hfind : ∀ question : MessageId, ((events.findSome? fun event => match event.payload with
      | .userAsked asked prompt => if asked = question then some (question, prompt) else none
      | _ => none).map Prod.fst) = if events.any fun event => match event.payload with
        | .userAsked asked _ => asked = question
        | _ => false
      then some question else none := by
    intro question
    induction events with
    | nil => rfl
    | cons event rest ih =>
        rw [List.findSome?_cons, List.any_cons]
        cases event.payload with
        | userAsked asked prompt =>
            by_cases hasked : asked = question
            · simp [hasked]
            · simp only [hasked, if_false, decide_false, Bool.false_or]
              exact ih
        | _ => exact ih
  unfold openQuestionPrompt openQuestion
  split
  · rfl
  · cases (fold spec events).harness with
    | waitingForMessage step attempt question => exact hfind question
    | _ => rfl

/-- A task of a thread that waits on its user. -/
structure WaitingTask where
  label : Nat
  runId : RunId
  questionId : MessageId
  question : String
  deriving DecidableEq

/-- The tasks among a thread's runs that wait on the user, labelled by their place. -/
def waitingOnUser (runs : List StoredRun) : List WaitingTask :=
  runs.zipIdx.filterMap fun (run, at_) => (openQuestionPrompt run.spec run.events).map fun (questionId, question) =>
    ⟨at_ + 1, run.spec.runId, questionId, question⟩

/-- The number the digits write. -/
def numberOfDigits (digits : List Char) : Nat :=
  digits.foldl (fun number digit => number * 10 + (digit.toNat - '0'.toNat)) 0

/-- A message addressed to a task, "T<n>: text": `T` or `t`, 1 to 9 digits naming a task from 1, a colon, and the
text. -/
def addressed (input : String) : Option (Nat × String) :=
  match input.toList.dropWhile isWhiteSpace with
  | head :: rest =>
      let digits := rest.takeWhile Char.isDigit
      if head ≠ 'T' ∧ head ≠ 't' ∨ digits.length = 0 ∨ 9 < digits.length then none else
      match rest.drop digits.length with
      | ':' :: text =>
          if 1 ≤ numberOfDigits digits then some (numberOfDigits digits, trim (String.ofList text)) else none
      | _ => none
  | [] => none

example : addressed "  t12:LAX  " = some (12, "LAX") := by decide +kernel

example : addressed "T0: x" = none ∧ addressed "T1234567890: x" = none ∧ addressed "T1 x" = none := by decide +kernel

/-- The task a message answers, with the answer: the one it addresses, or the only one that waits. -/
def whichTask (waiting : List WaitingTask) (input : String) : Except (List WaitingTask) (WaitingTask × String) :=
  match addressed input with
  | some (label, text) =>
      match waiting.find? fun task => task.label = label with
      | some task => .ok (task, text)
      | none => .error waiting
  | none =>
      match waiting with
      | [task] => .ok (task, input)
      | _ => .error waiting

theorem mem_waitingOnUser {runs : List StoredRun} {task : WaitingTask} :
    task ∈ waitingOnUser runs ↔ ∃ at_ run, runs[at_]? = some run ∧
      openQuestionPrompt run.spec run.events = some (task.questionId, task.question) ∧ task.label = at_ + 1 ∧
      task.runId = run.spec.runId := by
  simp only [waitingOnUser, List.mem_filterMap, Prod.exists, List.mk_mem_zipIdx_iff_getElem?, Option.map_eq_some_iff]
  constructor
  · rintro ⟨run, at_, hrun, question, prompt, hquestion, rfl⟩
    exact ⟨at_, run, hrun, hquestion, rfl, rfl⟩
  · rintro ⟨at_, run, hrun, hquestion, hlabel, hid⟩
    refine ⟨run, at_, hrun, task.questionId, task.question, hquestion, ?_⟩
    obtain ⟨label, id, question, prompt⟩ := task
    simp_all

/-- A label names one task. -/
theorem waitingOnUser_label {runs : List StoredRun} {task other : WaitingTask} (htask : task ∈ waitingOnUser runs)
    (hother : other ∈ waitingOnUser runs) (hlabel : other.label = task.label) : other = task := by
  obtain ⟨at_, run, hrun, hquestion, hat, hid⟩ := mem_waitingOnUser.mp htask
  obtain ⟨at', run', hrun', hquestion', hat', hid'⟩ := mem_waitingOnUser.mp hother
  have hsame : at' = at_ := by omega
  rw [hsame, hrun, Option.some.injEq] at hrun'
  subst hrun'
  rw [hquestion, Option.some.injEq, Prod.mk.injEq] at hquestion'
  obtain ⟨label, id, question, prompt⟩ := task
  obtain ⟨label', id', question', prompt'⟩ := other
  simp_all

/-- What a message addressed to a label answers. -/
theorem whichTask_ok {waiting : List WaitingTask} {input text answer : String} {label : Nat} {task : WaitingTask}
    (haddressed : addressed input = some (label, text)) (hok : whichTask waiting input = .ok (task, answer)) :
    task ∈ waiting ∧ task.label = label ∧ answer = text := by
  simp only [whichTask, haddressed] at hok
  cases hfind : waiting.find? fun task => task.label = label with
  | none => simp [hfind] at hok
  | some found =>
      simp only [hfind, Except.ok.injEq, Prod.mk.injEq] at hok
      obtain ⟨rfl, rfl⟩ := hok
      exact ⟨List.mem_of_find?_eq_some hfind, by simpa using List.find?_some hfind, rfl⟩

/-- The run at a place of the thread. -/
def placed (s : StopStore) (owner : Owner) (thread : String) (limit at_ : Nat) : Option RunId :=
  (s.runsOfThread owner thread limit)[at_]?.map fun run => run.spec.runId

/-- A thread's labels go on naming the tasks they named: every place is kept, a message addressed to a task shown
before never answers another one, and answers it while it waits on that question. -/
structure LabelsKept (s later : StopStore) (owner : Owner) (thread : String) : Prop where
  places : ∀ limit at_ id, placed s owner thread limit at_ = some id → placed later owner thread limit at_ = some id
  named : ∀ limit, ∀ task ∈ waitingOnUser (s.runsOfThread owner thread limit), ∀ input text,
    addressed input = some (task.label, text) → ∀ other answer,
    whichTask (waitingOnUser (later.runsOfThread owner thread limit)) input = .ok (other, answer) →
      other.runId = task.runId ∧ answer = text
  reached : ∀ limit, ∀ task ∈ waitingOnUser (s.runsOfThread owner thread limit), ∀ input text,
    addressed input = some (task.label, text) → ∀ run, later.logs.runs task.runId = some run →
    openQuestionPrompt run.spec run.events = some (task.questionId, task.question) →
      whichTask (waitingOnUser (later.runsOfThread owner thread limit)) input = .ok (task, text)

theorem placed_eq (s : StopStore) (owner : Owner) (thread : String) (limit at_ : Nat) :
    placed s owner thread limit at_ = ((s.threadIds owner thread).take limit)[at_]? := by
  rw [placed, ← List.getElem?_map, runsOfThread, List.map_take, threadIds]

variable {s later : StopStore} {owner : Owner} {thread : String}

theorem LabelsKept.begins (h : LabelsKept s later owner thread) :
    s.threadIds owner thread <+: later.threadIds owner thread := by
  refine List.prefix_iff_getElem?.mpr fun at_ hat => ?_
  have hplace := h.places ((s.threadIds owner thread).length + (later.threadIds owner thread).length) at_
    (s.threadIds owner thread)[at_]
  rw [placed_eq, placed_eq, List.take_of_length_le (Nat.le_add_right _ _), List.take_of_length_le (Nat.le_add_left _ _)]
    at hplace
  exact hplace (List.getElem?_eq_getElem hat)

theorem labelsKept_of_prefix (hlater : later.Numbered)
    (h : s.threadIds owner thread <+: later.threadIds owner thread) : LabelsKept s later owner thread := by
  have hplaces : ∀ limit at_ id, placed s owner thread limit at_ = some id →
      placed later owner thread limit at_ = some id := by
    intro limit at_ id hid
    rw [placed_eq, List.getElem?_take] at hid ⊢
    split at hid
    · next hlimit =>
        obtain ⟨rest, hrest⟩ := h
        rw [if_pos hlimit, ← hrest]
        rw [List.getElem?_append_left (List.getElem?_eq_some_iff.mp hid).1, hid]
    · cases hid
  have hplace : ∀ limit, ∀ task ∈ waitingOnUser (s.runsOfThread owner thread limit), ∃ at_ run,
      (later.runsOfThread owner thread limit)[at_]? = some run ∧ task.label = at_ + 1 ∧
        task.runId = run.spec.runId := by
    intro limit task htask
    obtain ⟨at_, run, hrun, -, hlabel, hid⟩ := mem_waitingOnUser.mp htask
    obtain ⟨run', hrun', hid'⟩ := Option.map_eq_some_iff.mp
      (hplaces limit at_ run.spec.runId (by rw [placed, hrun, Option.map_some]))
    exact ⟨at_, run', hrun', hlabel, hid.trans hid'.symm⟩
  refine ⟨hplaces, ?_, ?_⟩
  · intro limit task htask input text haddressed other answer hok
    obtain ⟨at_, run, hrun, hlabel, hid⟩ := hplace limit task htask
    obtain ⟨hother, hsame, htext⟩ := whichTask_ok haddressed hok
    obtain ⟨at', run', hrun', -, hlabel', hid'⟩ := mem_waitingOnUser.mp hother
    have hat : at' = at_ := by omega
    rw [hat, hrun, Option.some.injEq] at hrun'
    exact ⟨hid'.trans (hrun' ▸ hid.symm), htext⟩
  · intro limit task htask input text haddressed run hrun hquestion
    obtain ⟨at_, run', hrun', hlabel, hid⟩ := hplace limit task htask
    have hsame : run' = run := by
      have hmem : run' ∈ later.values :=
        threadRuns_subset (mem_sortByKey.mp (List.mem_of_mem_take (List.mem_of_getElem? hrun')))
      have hstored := hlater.mem_values.mp hmem
      rw [← hid, hrun, Option.some.injEq] at hstored
      exact hstored.symm
    subst hsame
    have hwaits : task ∈ waitingOnUser (later.runsOfThread owner thread limit) :=
      mem_waitingOnUser.mpr ⟨at_, run', hrun', hquestion, hlabel, hid⟩
    simp only [whichTask, haddressed]
    cases hfind : (waitingOnUser (later.runsOfThread owner thread limit)).find? fun other =>
      other.label = task.label with
    | none => simpa using List.find?_eq_none.mp hfind task hwaits
    | some found =>
        have hfound := waitingOnUser_label hwaits (List.mem_of_find?_eq_some hfind)
          (by simpa using List.find?_some hfind)
        simp only [hfound]

end Gol
