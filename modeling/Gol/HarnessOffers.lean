import Mathlib.Data.List.Nodup
import Gol.HarnessPace
import Gol.LibraryText

/-! What Jev is offered (`crates/harness/src/jev.rs`): the labels of its choices, computed from the state before its
decision, and the effect that a chosen label stands for. The client's answer is a parameter, the label it chose or its
error. -/

namespace Gol.Jev
open Library

def model : String := "model"

def complete : String := "complete"

def delegatePrefix : String := "delegate:"

def tellPrefix : String := "tell:"

def askPrefix : String := "ask:"

def askUser : String := "ask_user"

/-- How long an ask Jev chooses waits for its answer. -/
def jevAskTimeoutSecs : UInt32 := 3600

/-- A label begins with `start`. -/
def startsWith (label start : String) : Bool := start.toList.isPrefixOf label.toList

/-! ### Tasks in other agents -/

/-- Whether a decision could start a task in another agent now. -/
def startsTask (view : DecisionView) (capability : String) : Bool :=
  let stepsLeft := Driver.left view.spec.limits.maxSteps view.state.steps view.state.givenSteps
  let modelCallsLeft := Driver.left view.spec.limits.maxModelCalls view.state.modelCalls view.state.givenModelCalls
  view.state.harness.isRunning && view.spec.capabilities.contains ⟨capability⟩ &&
    view.spec.lineage.hop < maxDelegationHops && view.state.children < maxChildren &&
    2 < stepsLeft && 2 ≤ modelCallsLeft

/-- A target's name, or its id when it has none. -/
def nameOf (target : DelegateTarget) : String :=
  if target.name.isEmpty then target.agentId.uuid.toText else target.name

/-- One `start<name>` choice for each target but the run's own agent, as label, description and agent. A name several
targets share gets the first 8 characters of each id, and a label that still names more than one target is left out.
-/
def targetChoices (view : DecisionView) (start : String) (describe : String → String → String) :
    List (String × String × AgentId) :=
  let targets := view.agents.filter fun target => target.agentId ≠ view.spec.agentId
  let choices := targets.map fun target =>
    let named := nameOf target
    let shared := 1 < (targets.filter fun other => nameOf other = named).length
    let label :=
      if shared then start ++ named ++ "-" ++ String.ofList (target.agentId.uuid.toText.toList.take 8)
      else start ++ named
    (label, describe named target.description, target.agentId)
  choices.filter fun choice => (choices.filter fun other => other.1 = choice.1).length = 1

/-- The `delegate:<name>` choices. -/
def delegateChoices (view : DecisionView) : List (String × String × AgentId) :=
  if !startsTask view "agent.delegate" then []
  else targetChoices view delegatePrefix fun named description =>
    if description.isEmpty then "Hand the input to agent " ++ named ++ "." else description

/-- The `tell:<name>` then the `ask:<name>` choices, each with whether it asks. The body is the input. -/
def messageChoices (view : DecisionView) : List (String × String × AgentId × Bool) :=
  if !view.messaging || maxMessageBytes < view.spec.input.utf8ByteSize || !startsTask view "agent.message" then [] else
  let described (verb description : String) := if description.isEmpty then verb ++ "." else verb ++ ": " ++ description
  let tells := targetChoices view tellPrefix fun named description =>
    described ("Tell agent " ++ named ++ " the input, without waiting") description
  let asks := targetChoices view askPrefix fun named description =>
    described ("Ask agent " ++ named ++ " about the input, and wait for its answer") description
  tells.map (fun (label, description, agent) => (label, description, agent, false)) ++
    asks.map (fun (label, description, agent) => (label, description, agent, true))

/-! ### A question to the user -/

/-- Whether a question to the user could be put now, as far as the state says. -/
def asksUser (view : DecisionView) : Bool :=
  view.asking && view.spec.capabilities.contains ⟨"user.ask"⟩ &&
    match view.state.harness with
    | .running _ _ false => true
    | _ => false

/-- What `ask_user` asks: the run's last assistant text that is not blank, else its input, cut to `maxMessageBytes`. -/
def question (view : DecisionView) : String :=
  let said := view.events.reverse.findSome? fun event => match event.payload with
    | .modelResponded message _ =>
        if message.role = .assistant && !message.text.toList.all isWhiteSpace then some message.text else none
    | _ => none
  let text := said.getD view.spec.input
  String.ofList (cappedChars maxMessageBytes text.toList)

/-! ### The offer and the decision -/

/-- The choices Jev is offered, as label and description. -/
def jevChoices (view : DecisionView) : List (String × Option String) :=
  if view.stepsExhausted then [(complete, some "Finish the run.")] else
  let tools := view.tools.filter fun tool =>
    tool.name ≠ model && tool.name ≠ complete && tool.name ≠ askUser &&
      !([delegatePrefix, tellPrefix, askPrefix].any fun start => startsWith tool.name start)
  tools.map (fun tool => (tool.name, some tool.description)) ++
    (delegateChoices view).map (fun (label, description, _) => (label, some description)) ++
    (messageChoices view).map (fun (label, description, _, _) => (label, some description)) ++
    (if asksUser view then [(askUser, some "Ask the user a question, and wait for the answer.")] else []) ++
    (if !view.modelCallsExhausted then [(model, some "Ask the work model about the input.")] else []) ++
    [(complete, some "Finish the run.")]

/-- The effect that Jev decides. A tool's call gets the new id `invocation`. -/
def JevDecider.decide (view : DecisionView) (answer : Except DeciderError String) (invocation : InvocationId) :
    Except DeciderError Effect :=
  match answer with
  | .error error => .error error
  | .ok choice =>
      if !(jevChoices view).any fun offered => offered.1 = choice then .error ⟨"unknown effect choice: " ++ choice⟩ else
      match (delegateChoices view).find? fun offered => offered.1 = choice with
      | some (_, _, agentId) => .ok (.delegate agentId view.spec.input)
      | none =>
          match (messageChoices view).find? fun offered => offered.1 = choice with
          | some (_, _, toAgent, asks) =>
              .ok (.sendMessage toAgent view.spec.input asks none (if asks then some jevAskTimeoutSecs else none))
          | none =>
              if choice = askUser then .ok (.askUser (question view))
              else if choice = model then .ok (.modelCall view.spec.input)
              else if choice = complete then .ok (.complete "done")
              else .ok (.toolCall choice view.spec.input invocation)

/-! ### Labels -/

variable {view : DecisionView}

theorem startsWith_append (start rest : String) : startsWith (start ++ rest) start = true := by
  rw [startsWith, String.toList_append, List.isPrefixOf_iff_prefix]
  exact List.prefix_append _ _

/-- What is left of a list where each label is kept if it is the only one names each label once. -/
theorem single_nodup {α : Type} (choices : List (String × α)) :
    ((choices.filter fun choice => (choices.filter fun other => other.1 = choice.1).length = 1).map
      Prod.fst).Nodup := by
  rw [List.nodup_iff_count_le_one]
  intro label
  by_cases hmem : label ∈ (choices.filter fun choice =>
      (choices.filter fun other => other.1 = choice.1).length = 1).map Prod.fst
  · obtain ⟨choice, hchoice, rfl⟩ := List.mem_map.mp hmem
    have hone := (List.mem_filter.mp hchoice).2
    rw [decide_eq_true_eq] at hone
    calc _ ≤ (choices.map Prod.fst).count choice.1 := (List.filter_sublist.map Prod.fst).count_le _
      _ = (choices.filter fun other => other.1 = choice.1).length := by
        rw [List.count, List.countP_map, List.countP_eq_length_filter]
        congr 2
      _ ≤ 1 := le_of_eq hone
  · rw [List.count_eq_zero_of_not_mem hmem]
    exact Nat.zero_le 1

theorem targetChoices_nodup (view : DecisionView) (start : String) (describe : String → String → String) :
    ((targetChoices view start describe).map Prod.fst).Nodup :=
  single_nodup _

theorem targetChoices_startsWith {start : String} {describe : String → String → String}
    {choice : String × String × AgentId} (h : choice ∈ targetChoices view start describe) :
    startsWith choice.1 start = true := by
  obtain ⟨target, -, rfl⟩ := List.mem_map.mp (List.mem_of_mem_filter h)
  dsimp only
  split
  · rw [String.append_assoc, String.append_assoc]
    exact startsWith_append _ _
  · exact startsWith_append _ _

/-- The choice of a label is found by it. -/
theorem find_of_nodup {α : Type} {choices : List (String × α)} (hnodup : (choices.map Prod.fst).Nodup)
    {choice : String × α} (hmem : choice ∈ choices) :
    choices.find? (fun other => other.1 = choice.1) = some choice := by
  cases hfind : choices.find? fun other => other.1 = choice.1 with
  | none =>
      have hnot := List.find?_eq_none.mp hfind choice hmem
      simp at hnot
  | some found =>
      have hlabel : found.1 = choice.1 := by simpa using List.find?_some hfind
      rw [List.inj_on_of_nodup_map hnodup (List.mem_of_find?_eq_some hfind) hmem hlabel]

/-- A label of a task in another agent. -/
def isTask (label : String) : Bool := [delegatePrefix, tellPrefix, askPrefix].any fun start => startsWith label start

/-- Labels of two kinds of task differ. -/
theorem startsWith_apart {label start : String} (hstart : startsWith label start = true) (other : String)
    (happart : start.toList.isPrefixOf other.toList = false ∧ other.toList.isPrefixOf start.toList = false) :
    startsWith label other = false := by
  by_contra hother
  rw [Bool.not_eq_false, startsWith, List.isPrefixOf_iff_prefix] at hother
  rw [startsWith, List.isPrefixOf_iff_prefix] at hstart
  rcases List.prefix_or_prefix_of_prefix hstart hother with h | h
  · rw [List.isPrefixOf_iff_prefix.mpr h] at happart
    exact absurd happart.1 nofun
  · rw [List.isPrefixOf_iff_prefix.mpr h] at happart
    exact absurd happart.2 nofun

theorem delegateChoices_startsWith {choice : String × String × AgentId} (h : choice ∈ delegateChoices view) :
    startsWith choice.1 delegatePrefix = true := by
  unfold delegateChoices at h
  split at h
  · cases h
  · exact targetChoices_startsWith h

theorem delegateChoices_nodup (view : DecisionView) : ((delegateChoices view).map Prod.fst).Nodup := by
  unfold delegateChoices
  split
  · exact List.nodup_nil
  · exact targetChoices_nodup _ _ _

theorem messageChoices_startsWith {choice : String × String × AgentId × Bool} (h : choice ∈ messageChoices view) :
    startsWith choice.1 (if choice.2.2.2 then askPrefix else tellPrefix) = true := by
  unfold messageChoices at h
  split at h
  · cases h
  · rcases List.mem_append.mp h with htell | hask
    · obtain ⟨choice, hchoice, rfl⟩ := List.mem_map.mp htell
      exact targetChoices_startsWith hchoice
    · obtain ⟨choice, hchoice, rfl⟩ := List.mem_map.mp hask
      exact targetChoices_startsWith hchoice

theorem messageChoices_nodup (view : DecisionView) : ((messageChoices view).map Prod.fst).Nodup := by
  unfold messageChoices
  split
  · exact List.nodup_nil
  · rw [List.map_append, List.map_map, List.map_map]
    refine List.nodup_append.mpr ⟨targetChoices_nodup _ _ _, targetChoices_nodup _ _ _, ?_⟩
    intro tell htell ask hask
    obtain ⟨choice, hchoice, rfl⟩ := List.mem_map.mp htell
    obtain ⟨other, hother, rfl⟩ := List.mem_map.mp hask
    intro heq
    have hstart := startsWith_apart (targetChoices_startsWith hchoice) askPrefix (by decide)
    rw [show choice.1 = other.1 from heq, targetChoices_startsWith hother] at hstart
    cases hstart

theorem isTask_delegate {choice : String × String × AgentId} (h : choice ∈ delegateChoices view) :
    isTask choice.1 = true := by
  simp [isTask, delegateChoices_startsWith h]

theorem isTask_message {choice : String × String × AgentId × Bool} (h : choice ∈ messageChoices view) :
    isTask choice.1 = true := by
  have hstart := messageChoices_startsWith h
  cases hasks : choice.2.2.2 <;> rw [hasks] at hstart <;> simp_all [isTask]

/-- A tool that is offered under its own name. -/
def isPlain (tool : ToolDescriptor) : Bool :=
  tool.name ≠ model && tool.name ≠ complete && tool.name ≠ askUser && !isTask tool.name

/-- The labels that name neither a tool nor an agent. -/
def fixedLabels (view : DecisionView) : List String :=
  (if asksUser view then [askUser] else []) ++ (if !view.modelCallsExhausted then [model] else []) ++ [complete]

theorem fixedLabels_sublist (view : DecisionView) : (fixedLabels view).Sublist [askUser, model, complete] := by
  unfold fixedLabels
  cases asksUser view <;> cases view.modelCallsExhausted <;> decide

theorem labels_eq (hleft : view.stepsExhausted = false) : (jevChoices view).map Prod.fst =
    (view.tools.filter isPlain).map ToolDescriptor.name ++
      ((delegateChoices view).map Prod.fst ++ (messageChoices view).map Prod.fst) ++ fixedLabels view := by
  have hfixed : fixedLabels view =
      ((if asksUser view then [(askUser, some "Ask the user a question, and wait for the answer.")] else [] :
          List (String × Option String)) ++
        (if !view.modelCallsExhausted then [(model, some "Ask the work model about the input.")] else []) ++
          [(complete, some "Finish the run.")]).map Prod.fst := by
    unfold fixedLabels
    cases asksUser view <;> cases view.modelCallsExhausted <;> rfl
  rw [jevChoices, hleft, hfixed, if_neg nofun]
  simp only [List.map_append, List.map_map, List.append_assoc]
  rfl

/-- The labels of a decision's choices are pairwise distinct. -/
theorem labels_nodup (htools : (view.tools.map ToolDescriptor.name).Nodup) :
    ((jevChoices view).map Prod.fst).Nodup := by
  cases hleft : view.stepsExhausted with
  | true =>
      rw [jevChoices, hleft]
      exact List.nodup_singleton _
  | false =>
      rw [labels_eq hleft]
      have htask : ∀ label ∈ (delegateChoices view).map Prod.fst ++ (messageChoices view).map Prod.fst,
          isTask label = true := by
        intro label hlabel
        rcases List.mem_append.mp hlabel with hmem | hmem
        · obtain ⟨choice, hchoice, rfl⟩ := List.mem_map.mp hmem
          exact isTask_delegate hchoice
        · obtain ⟨choice, hchoice, rfl⟩ := List.mem_map.mp hmem
          exact isTask_message hchoice
      have hplain : ∀ label ∈ (view.tools.filter isPlain).map ToolDescriptor.name,
          isTask label = false ∧ label ∉ [askUser, model, complete] := by
        intro label hlabel
        obtain ⟨tool, htool, rfl⟩ := List.mem_map.mp hlabel
        have hname := (List.mem_filter.mp htool).2
        simp only [isPlain, Bool.and_eq_true, decide_eq_true_eq, Bool.not_eq_true'] at hname
        obtain ⟨⟨⟨hmodel, hcomplete⟩, hask⟩, htask⟩ := hname
        simp [htask, hmodel, hcomplete, hask]
      refine List.nodup_append.mpr ⟨List.nodup_append.mpr ⟨?_, List.nodup_append.mpr ⟨?_, ?_, ?_⟩, ?_⟩, ?_, ?_⟩
      · exact htools.sublist (List.filter_sublist.map _)
      · exact delegateChoices_nodup view
      · exact messageChoices_nodup view
      · intro label hdelegate other hmessage heq
        obtain ⟨choice, hchoice, rfl⟩ := List.mem_map.mp hdelegate
        obtain ⟨sent, hsent, rfl⟩ := List.mem_map.mp hmessage
        have hstart := startsWith_apart (delegateChoices_startsWith hchoice)
          (if sent.2.2.2 then askPrefix else tellPrefix) (by split <;> decide)
        rw [heq, messageChoices_startsWith hsent] at hstart
        cases hstart
      · intro label hlabel other hother heq
        have hnot := (hplain label hlabel).1
        rw [heq, htask other hother] at hnot
        cases hnot
      · exact (by decide : [askUser, model, complete].Nodup).sublist (fixedLabels_sublist view)
      · intro label hlabel other hother heq
        have hfixed := (fixedLabels_sublist view).subset hother
        rcases List.mem_append.mp hlabel with htool | hagent
        · exact (hplain label htool).2 (heq ▸ hfixed)
        · have hnot : ∀ fixed ∈ [askUser, model, complete], isTask fixed = false := by decide
          have htrue := htask label hagent
          rw [heq, hnot other hfixed] at htrue
          cases htrue

/-- The effect that a label is offered for. A tool's call waits for its id. -/
inductive Offered (view : DecisionView) : String → (InvocationId → Effect) → Prop
  | tool {tool : ToolDescriptor} (hleft : view.stepsExhausted = false) (htool : tool ∈ view.tools)
      (hplain : isPlain tool = true) :
      Offered view tool.name fun invocation => .toolCall tool.name view.spec.input invocation
  | delegate {label description : String} {agentId : AgentId} (hleft : view.stepsExhausted = false)
      (hchoice : (label, description, agentId) ∈ delegateChoices view) :
      Offered view label fun _ => .delegate agentId view.spec.input
  | message {label description : String} {toAgent : AgentId} {asks : Bool} (hleft : view.stepsExhausted = false)
      (hchoice : (label, description, toAgent, asks) ∈ messageChoices view) :
      Offered view label fun _ =>
        .sendMessage toAgent view.spec.input asks none (if asks then some jevAskTimeoutSecs else none)
  | askUser (hleft : view.stepsExhausted = false) (hasks : asksUser view = true) :
      Offered view askUser fun _ => .askUser (question view)
  | model (hleft : view.stepsExhausted = false) (hcalls : view.modelCallsExhausted = false) :
      Offered view model fun _ => .modelCall view.spec.input
  | complete : Offered view complete fun _ => .complete "done"

theorem find_task_none {α : Type} {choices : List (String × α)} (htask : ∀ choice ∈ choices, isTask choice.1 = true)
    {label : String} (hlabel : isTask label = false) : choices.find? (fun choice => choice.1 = label) = none := by
  rw [List.find?_eq_none]
  intro choice hchoice heq
  have htrue := htask choice hchoice
  rw [decide_eq_true_eq] at heq
  rw [heq, hlabel] at htrue
  cases htrue

theorem mem_labels {label : String} : label ∈ (jevChoices view).map Prod.fst ↔ ∃ effect, Offered view label effect := by
  cases hleft : view.stepsExhausted with
  | true =>
      have honly : (jevChoices view).map Prod.fst = [complete] := by
        rw [jevChoices, hleft]
        rfl
      rw [honly, List.mem_singleton]
      constructor
      · rintro rfl
        exact ⟨_, .complete⟩
      · rintro ⟨effect, hoffered⟩
        cases hoffered with
        | complete => rfl
        | tool hopen | delegate hopen | message hopen | askUser hopen | model hopen =>
            rw [hleft] at hopen
            cases hopen
  | false =>
      rw [labels_eq hleft]
      constructor
      · intro hmem
        rcases List.mem_append.mp hmem with hmem | hfixed
        · rcases List.mem_append.mp hmem with htool | hagent
          · obtain ⟨tool, hfilter, rfl⟩ := List.mem_map.mp htool
            obtain ⟨htool, hplain⟩ := List.mem_filter.mp hfilter
            exact ⟨_, .tool hleft htool hplain⟩
          · rcases List.mem_append.mp hagent with hdelegate | hmessage
            · obtain ⟨⟨label, description, agentId⟩, hchoice, rfl⟩ := List.mem_map.mp hdelegate
              exact ⟨_, .delegate hleft hchoice⟩
            · obtain ⟨⟨label, description, toAgent, asks⟩, hchoice, rfl⟩ := List.mem_map.mp hmessage
              exact ⟨_, .message hleft hchoice⟩
        · unfold fixedLabels at hfixed
          simp only [List.mem_append, List.mem_ite_nil_right, List.mem_singleton, Bool.not_eq_true'] at hfixed
          rcases hfixed with (⟨hasks, rfl⟩ | ⟨hcalls, rfl⟩) | rfl
          · exact ⟨_, .askUser hleft hasks⟩
          · exact ⟨_, .model hleft hcalls⟩
          · exact ⟨_, .complete⟩
      · rintro ⟨effect, hoffered⟩
        rw [List.mem_append, List.mem_append, List.mem_append]
        cases hoffered with
        | tool _ htool hplain => exact .inl (.inl (List.mem_map_of_mem (List.mem_filter.mpr ⟨htool, hplain⟩)))
        | delegate _ hchoice => exact .inl (.inr (.inl (List.mem_map.mpr ⟨_, hchoice, rfl⟩)))
        | message _ hchoice => exact .inl (.inr (.inr (List.mem_map.mpr ⟨_, hchoice, rfl⟩)))
        | askUser _ hasks => exact .inr (by simp [fixedLabels, hasks])
        | model _ hcalls => exact .inr (by simp [fixedLabels, hcalls])
        | complete => exact .inr (by simp [fixedLabels])

/-- A label decodes to the effect it is offered for. -/
theorem Offered.decides {label : String} {effect : InvocationId → Effect} (h : Offered view label effect)
    (invocation : InvocationId) : JevDecider.decide view (.ok label) invocation = .ok (effect invocation) := by
  have hany : ((jevChoices view).any fun offered => offered.1 = label) = true := by
    obtain ⟨choice, hchoice, hlabel⟩ := List.mem_map.mp (mem_labels.mpr ⟨effect, h⟩)
    exact List.any_eq_true.mpr ⟨choice, hchoice, decide_eq_true hlabel⟩
  have hagents : isTask label = false → (delegateChoices view).find? (fun choice => choice.1 = label) = none ∧
      (messageChoices view).find? (fun choice => choice.1 = label) = none := fun hnot =>
    ⟨find_task_none (fun _ => isTask_delegate) hnot, find_task_none (fun _ => isTask_message) hnot⟩
  unfold JevDecider.decide
  simp only [hany, Bool.not_true, Bool.false_eq_true, ↓reduceIte]
  cases h with
  | @tool tool hleft htool hplain =>
      simp only [isPlain, Bool.and_eq_true, decide_eq_true_eq, Bool.not_eq_true'] at hplain
      obtain ⟨⟨⟨hmodel, hcomplete⟩, hask⟩, htask⟩ := hplain
      obtain ⟨hdelegate, hmessage⟩ := hagents htask
      simp only [hdelegate, hmessage, hmodel, hcomplete, hask, ↓reduceIte]
  | delegate hleft hchoice =>
      have hfind := find_of_nodup (delegateChoices_nodup view) hchoice
      simp only [hfind]
  | @message label description toAgent asks hleft hchoice =>
      have hapart : ∀ choice ∈ delegateChoices view, choice.1 ≠ label := by
        intro choice hdelegate heq
        have hstart := startsWith_apart (delegateChoices_startsWith hdelegate) (if asks then askPrefix else tellPrefix)
          (by split <;> decide)
        rw [heq, messageChoices_startsWith hchoice] at hstart
        cases hstart
      have hdelegate : (delegateChoices view).find? (fun choice => choice.1 = label) = none :=
        List.find?_eq_none.mpr fun choice hmem heq => hapart choice hmem (by simpa using heq)
      have hmessage := find_of_nodup (messageChoices_nodup view) hchoice
      simp only [hdelegate, hmessage]
  | askUser hleft hasks =>
      obtain ⟨hdelegate, hmessage⟩ := hagents (by decide)
      simp only [hdelegate, hmessage, ↓reduceIte]
  | model hleft hcalls =>
      obtain ⟨hdelegate, hmessage⟩ := hagents (by decide)
      simp only [hdelegate, hmessage, (by decide : Jev.model ≠ Jev.askUser), ↓reduceIte]
  | complete =>
      obtain ⟨hdelegate, hmessage⟩ := hagents (by decide)
      simp only [hdelegate, hmessage, (by decide : Jev.complete ≠ Jev.askUser),
        (by decide : Jev.complete ≠ Jev.model), ↓reduceIte]

/-! ### What is offered can start -/

/-- `effect` is authorized, the harness acts on it, and once its decision is counted there is a budget to give its
child. -/
structure Startable (view : DecisionView) (effect : Effect) : Prop where
  authorized : authorize view.spec effect view.tools = .allow
  applies : applicable view.state.harness effect view.spec = true
  carved : ∀ (events : List Event) (stamp : Nat → Stamp),
    payloads events = payloads view.events ++ [.effectDecided effect, .effectAuthorized effect] →
      ∃ limits, (Driver.bare view.spec events stamp).carve = .ok limits

/-- An effect that starts a task in another agent. -/
def startsChild : Effect → Bool
  | .delegate _ _ | .sendMessage _ _ _ _ _ => true
  | _ => false

theorem left_toNat (max used given : UInt32) :
    (Driver.left max used given).toNat = max.toNat - (used.toNat + given.toNat) := by
  have hmax := max.toNat_lt
  rw [Driver.left, saturatingSub_toNat, saturatingAdd_toNat]
  omega

/-- Counting a decision to start a task, and authorizing it, takes one step and nothing else. -/
theorem foldAll_startsChild {spec : RunSpec} {log : List EventPayload} {effect : Effect}
    (hchild : startsChild effect = true) (happlies : applicable (harnessOf spec log) effect spec = true) :
    (foldAll spec (log ++ [.effectDecided effect, .effectAuthorized effect])).toRunState spec.runId =
      { (foldAll spec log).toRunState spec.runId with steps := (foldAll spec log).steps + 1 } := by
  have hharness : (reduce (harnessOf spec log) (.effectAuthorized effect) spec).1 = harnessOf spec log := by
    have hrunning := Driver.isRunning_of_applicable happlies
    cases hstate : harnessOf spec log with
    | running step attempt answered =>
        rw [hstate] at happlies
        cases effect <;> first | cases hchild; done | simp [reduce, HarnessState.isTerminal, onAuthorized, happlies]
    | _ =>
        rw [hstate] at hrunning
        cases hrunning
  have hdispatch : ∀ payload, (payload = .effectDecided effect ∨ payload = .effectAuthorized effect) →
      ∀ phase, reduceDispatch phase payload = phase := by
    rintro payload (rfl | rfl) phase <;> cases phase <;> rfl
  rw [List.append_cons, foldAll_snoc, foldAll_snoc]
  cases effect with
  | delegate agentId input =>
      simp only [foldStep, FoldState.count, FoldState.toRunState, Driver.reduce_decided, hharness,
        hdispatch _ (.inl rfl), hdispatch _ (.inr rfl)]
  | sendMessage toAgent body expectsReply replyTo timeoutSecs =>
      simp only [foldStep, FoldState.count, FoldState.toRunState, Driver.reduce_decided, hharness,
        hdispatch _ (.inl rfl), hdispatch _ (.inr rfl)]
  | _ => cases hchild

theorem startable {spec : RunSpec} {setup : Driver.Setup} {d : Driver} (h : d.Ready spec setup) (hgoing : d.Going)
    {tools : List ToolDescriptor} {capability : String} {effect : Effect} (hchild : startsChild effect = true)
    (hstarts : startsTask (d.decisionView tools) capability = true)
    (hauthorized : allowCapability d.spec capability = .allow → d.spec.lineage.hop < maxDelegationHops →
      authorize d.spec effect tools = .allow) : Startable (d.decisionView tools) effect := by
  simp only [startsTask, Bool.and_eq_true, decide_eq_true_eq] at hstarts
  obtain ⟨⟨⟨⟨⟨hrunning, hcapability⟩, hhop⟩, hchildren⟩, hsteps⟩, hcalls⟩ := hstarts
  have hrunning : d.state.harness.isRunning = true := hrunning
  have hsteps : 2 < (Driver.left d.spec.limits.maxSteps d.state.steps d.state.givenSteps).toNat := hsteps
  have hcalls : 2 ≤ (Driver.left d.spec.limits.maxModelCalls d.state.modelCalls d.state.givenModelCalls).toNat := hcalls
  rw [left_toNat] at hsteps hcalls
  -- An answered step is the run's last, and it has no steps left to give.
  have happlies : applicable d.state.harness effect d.spec = true := by
    cases hharness : d.state.harness with
    | running step attempt answered =>
        cases answered with
        | true =>
            have hspent := UInt32.le_iff_toNat_le.mp (h.spent_of_answered hgoing hharness)
            omega
        | false => cases effect <;> first | cases hchild; done | simp [applicable]
    | _ =>
        rw [hharness] at hrunning
        cases hrunning
  refine ⟨?_, happlies, fun events stamp hevents => ?_⟩
  · apply hauthorized
    · rw [allowCapability, if_pos]
      have hmem : Capability.mk capability ∈ d.spec.capabilities := List.contains_iff_mem.mp hcapability
      exact List.any_eq_true.mpr ⟨_, hmem, BEq.rfl⟩
    · exact hhop
  · have hstate : (Driver.bare d.spec events stamp).state = { d.state with steps := d.state.steps + 1 } := by
      have hfold := foldAll_startsChild hchild (Driver.harness_eq d ▸ happlies)
      have hlog : payloads events = d.log ++ [.effectDecided effect, .effectAuthorized effect] := hevents
      rw [← hlog] at hfold
      exact hfold
    have hspec : (Driver.bare d.spec events stamp).spec = d.spec := rfl
    have hmax := d.spec.limits.maxSteps.toNat_lt
    have hsucc : (d.state.steps + 1).toNat = d.state.steps.toNat + 1 := by
      rw [UInt32.toNat_add, UInt32.toNat_one, Nat.mod_eq_of_lt (by omega)]
    have hstepsLeft : 2 ≤ (Driver.left d.spec.limits.maxSteps (d.state.steps + 1) d.state.givenSteps).toNat := by
      rw [left_toNat, hsucc]
      omega
    have hcallsLeft : 2 ≤ (Driver.left d.spec.limits.maxModelCalls d.state.modelCalls
        d.state.givenModelCalls).toNat := by
      rw [left_toNat]
      exact hcalls
    change ∃ limits, (Driver.bare d.spec events stamp).carve = .ok limits
    unfold Driver.carve
    rw [hstate, hspec]
    dsimp only
    rw [if_neg (by simp [hrunning]), if_neg, if_neg]
    · exact ⟨_, rfl⟩
    · simp only [Bool.or_eq_true, decide_eq_true_eq, not_or, UInt32.not_lt, UInt32.le_iff_toNat_le]
      exact ⟨hstepsLeft, hcallsLeft⟩
    · exact UInt32.not_le.mpr hchildren

theorem startsTask_of_delegate {choice : String × String × AgentId} (h : choice ∈ delegateChoices view) :
    startsTask view "agent.delegate" = true := by
  unfold delegateChoices at h
  split at h
  · cases h
  · simp_all

theorem startsTask_of_message {choice : String × String × AgentId × Bool} (h : choice ∈ messageChoices view) :
    view.spec.input.utf8ByteSize ≤ maxMessageBytes ∧ startsTask view "agent.message" = true := by
  unfold messageChoices at h
  split at h
  · cases h
  · simp_all

theorem Offered.startable {spec : RunSpec} {setup : Driver.Setup} {d : Driver}
    (hready : d.Ready spec setup) (hgoing : d.Going) {tools : List ToolDescriptor} {label : String}
    {effect : InvocationId → Effect} (h : Offered (d.decisionView tools) label effect) (htask : isTask label = true)
    (invocation : InvocationId) :
    Startable (d.decisionView tools) (effect invocation) := by
  cases h with
  | delegate hleft hchoice =>
      apply Jev.startable hready hgoing rfl (startsTask_of_delegate hchoice)
      intro hallow hhop
      simp only [authorize, hallow]
      exact if_neg (UInt32.not_le.mpr hhop)
  | @message label description toAgent asks hleft hchoice =>
      obtain ⟨hbody, hstarts⟩ := startsTask_of_message hchoice
      apply Jev.startable hready hgoing rfl hstarts
      intro hallow hhop
      have hsize : ¬ maxMessageBytes < (d.decisionView tools).spec.input.utf8ByteSize := Nat.not_lt.mpr hbody
      have hdepth : ¬ maxDelegationHops ≤ d.spec.lineage.hop := UInt32.not_le.mpr hhop
      simp only [authorize, hallow, checkMessage, Option.isNone_none, Bool.true_or, Bool.true_and, decide_eq_true_eq,
        hdepth, ↓reduceIte, hsize]
      cases asks <;> rfl
  | tool hleft htool hplain =>
      simp only [isPlain, htask, Bool.not_true, Bool.and_false] at hplain
      cases hplain
  | askUser => exact absurd htask (by decide)
  | model => exact absurd htask (by decide)
  | complete => exact absurd htask (by decide)

/-- What Jev may rely on: its labels are distinct, each stands for the effect it was offered for, each task offered
can start, and a spent run is offered its end only. -/
structure Fair (view : DecisionView) : Prop where
  distinct : ((jevChoices view).map Prod.fst).Nodup
  decides : ∀ label ∈ (jevChoices view).map Prod.fst, ∃ effect, Offered view label effect ∧
    ∀ invocation, JevDecider.decide view (.ok label) invocation = .ok (effect invocation)
  starts : ∀ label effect, Offered view label effect → isTask label = true →
    ∀ invocation, Startable view (effect invocation)
  spent : view.spec.limits.maxSteps ≤ saturatingAdd view.state.steps view.state.givenSteps →
    (jevChoices view).map Prod.fst = [complete]

/-- However a run's log was built and whatever its calls are answered, each offer it makes Jev is fair. -/
theorem offers_fair {spec : RunSpec} {events : List Event} (hbuilt : Driver.Builds spec events) {stamp : Nat → Stamp}
    {d : Driver} (hresume : Driver.resume spec events stamp = .ok d) (setup : Driver.Setup)
    {tools : List ToolDescriptor} (htools : (tools.map ToolDescriptor.name).Nodup) :
    (Driver.runUntil tools (d.setUp setup)).Only (Driver.Consults Fair) := by
  apply (hbuilt.decides hresume setup tools).mono
  intro c hsees
  cases c with
  | decide view =>
      obtain ⟨d, hready, hgoing, rfl⟩ := hsees
      refine ⟨labels_nodup htools, fun label hlabel => ?_,
        fun label effect hoffered => hoffered.startable hready hgoing, fun hspent => ?_⟩
      · obtain ⟨effect, hoffered⟩ := mem_labels.mp hlabel
        exact ⟨effect, hoffered, hoffered.decides⟩
      · have hexhausted : (d.decisionView tools).stepsExhausted = true := decide_eq_true hspent
        rw [jevChoices, hexhausted]
        rfl
  | _ => trivial

/-- A run that may hand on tasks. -/
def handsOn : RunSpec := { RunSpec.plain 1 ⟨8, 8⟩ with capabilities := [⟨"agent.delegate"⟩, ⟨"agent.message"⟩] }

def helper : Driver.Setup := ⟨[], true, true, false, [⟨⟨2⟩, "helper", ""⟩]⟩

/-- A run with one other agent is offered its tasks. -/
theorem offers_fair_helper :
    (jevChoices (((Driver.boot handsOn Stamp.plain).setUp helper).decisionView [])).map Prod.fst =
        ["delegate:helper", "tell:helper", "ask:helper", model, complete] ∧
      (Driver.runUntil [] ((Driver.boot handsOn Stamp.plain).setUp helper)).Only (Driver.Consults Fair) :=
  ⟨by decide +kernel, offers_fair .nil (Driver.resume_nil handsOn Stamp.plain) helper List.nodup_nil⟩

/-! ### The question -/

/-- The assistant texts of a log that are not blank. -/
def said (events : List Event) : List String :=
  events.filterMap fun event => match event.payload with
    | .modelResponded message _ =>
        if message.role = .assistant && !message.text.toList.all isWhiteSpace then some message.text else none
    | _ => none

/-- What a run has to ask: the last it said, or its input if it said nothing. -/
def toAsk (view : DecisionView) : String := (said view.events).getLast?.getD view.spec.input

/-- A text has a character that is not white space within the bytes of one message. -/
def Shows (text : String) : Prop :=
  ∃ before c after, text.toList = before ++ c :: after ∧ isWhiteSpace c = false ∧
    ((before ++ [c]).map Char.utf8Size).sum ≤ maxMessageBytes

theorem cappedChars_size (room : Nat) (chars : List Char) :
    ((cappedChars room chars).map Char.utf8Size).sum ≤ room := by
  induction chars generalizing room with
  | nil => exact Nat.zero_le room
  | cons c rest ih =>
      rw [cappedChars]
      split
      · have hrest := ih (room - c.utf8Size)
        rw [List.map_cons, List.sum_cons]
        omega
      · exact Nat.zero_le room

/-- A character is kept where it and those before it have room. -/
theorem any_cappedChars (p : Char → Bool) (room : Nat) (chars : List Char) :
    (cappedChars room chars).any p = true ↔
      ∃ before c after, chars = before ++ c :: after ∧ p c = true ∧ ((before ++ [c]).map Char.utf8Size).sum ≤ room := by
  induction chars generalizing room with
  | nil => simp [cappedChars]
  | cons first rest ih =>
      rw [cappedChars]
      constructor
      · split
        · next hfits =>
            intro hany
            rw [List.any_cons, Bool.or_eq_true] at hany
            rcases hany with hfirst | hrest
            · exact ⟨[], first, rest, rfl, hfirst, by simpa using hfits⟩
            · obtain ⟨before, c, after, rfl, hc, hsum⟩ := (ih _).mp hrest
              refine ⟨first :: before, c, after, rfl, hc, ?_⟩
              rw [List.cons_append, List.map_cons, List.sum_cons]
              omega
        · exact nofun
      · rintro ⟨before, c, after, heq, hc, hsum⟩
        cases before with
        | nil =>
            obtain ⟨rfl, rfl⟩ := List.cons.inj heq
            rw [if_pos (by simpa using hsum), List.any_cons, hc]
            rfl
        | cons head before =>
            obtain ⟨rfl, rfl⟩ := List.cons.inj heq
            rw [List.cons_append, List.map_cons, List.sum_cons] at hsum
            rw [if_pos (by omega), List.any_cons, Bool.or_eq_true]
            exact .inr ((ih _).mpr ⟨before, c, after, rfl, hc, by omega⟩)

theorem question_eq (view : DecisionView) :
    question view = String.ofList (cappedChars maxMessageBytes (toAsk view).toList) := by
  rw [question, toAsk, said, List.getLast?_filterMap]

/-- An offered question is put exactly where the text it is cut from shows something. -/
theorem asks_iff (hasks : asksUser view = true) :
    (authorize view.spec (.askUser (question view)) view.tools = .allow ∧
      applicable view.state.harness (.askUser (question view)) view.spec = true) ↔ Shows (toAsk view) := by
  simp only [asksUser, Bool.and_eq_true] at hasks
  obtain ⟨⟨-, hcapability⟩, hharness⟩ := hasks
  have hallow : allowCapability view.spec "user.ask" = .allow := by
    rw [allowCapability, if_pos]
    exact List.any_eq_true.mpr ⟨_, List.contains_iff_mem.mp hcapability, BEq.rfl⟩
  have happlies : applicable view.state.harness (.askUser (question view)) view.spec = true := by
    split at hharness
    · next heq =>
        rw [heq]
        rfl
    · cases hharness
  have hshows : (question view).toList.all isWhiteSpace = false ↔ Shows (toAsk view) := by
    have hany := any_cappedChars (fun c => !isWhiteSpace c) maxMessageBytes (toAsk view).toList
    rw [← List.not_all_eq_any_not, Bool.not_eq_true'] at hany
    rw [question_eq, String.toList_ofList, hany, Shows]
    simp only [Bool.not_eq_true']
  have hsize : ¬ maxMessageBytes < (question view).utf8ByteSize := by
    rw [question_eq, utf8ByteSize_ofList]
    exact Nat.not_lt.mpr (cappedChars_size _ _)
  rw [← hshows]
  simp only [authorize, hallow, happlies, hsize, and_true, ↓reduceIte]
  cases (question view).toList.all isWhiteSpace <;> simp

/-- A question that is offered is put, if the text it is cut from shows something, and is denied otherwise. -/
def Puts (view : DecisionView) : Prop :=
  askUser ∈ (jevChoices view).map Prod.fst → ∃ prompt,
    (∀ invocation, JevDecider.decide view (.ok askUser) invocation = .ok (.askUser prompt)) ∧
      ((authorize view.spec (.askUser prompt) view.tools = .allow ∧
        applicable view.state.harness (.askUser prompt) view.spec = true) ↔ Shows (toAsk view))

theorem puts (view : DecisionView) : Puts view := by
  intro hmem
  obtain ⟨effect, hoffered⟩ := mem_labels.mp hmem
  have hprompt : asksUser view = true ∧ effect = fun _ => .askUser (question view) := by
    generalize hlabel : askUser = label at hoffered
    have hnot : isTask label = false := by
      rw [← hlabel]
      decide
    cases hoffered with
    | askUser hleft hasks => exact ⟨hasks, rfl⟩
    | tool hleft htool hplain => simp [isPlain, ← hlabel] at hplain
    | delegate hleft hchoice =>
        rw [isTask_delegate hchoice] at hnot
        cases hnot
    | message hleft hchoice =>
        rw [isTask_message hchoice] at hnot
        cases hnot
    | model => exact absurd hlabel (by decide)
    | complete => exact absurd hlabel (by decide)
  obtain ⟨hasks, rfl⟩ := hprompt
  exact ⟨question view, hoffered.decides, asks_iff hasks⟩

/-- Each question that a run offers Jev is put, if the text it is cut from shows something, and is denied otherwise. -/
theorem questions_put (tools : List ToolDescriptor) (d : Driver) :
    (Driver.runUntil tools d).Only (Driver.Consults Puts) := by
  apply Prog.only_all
  intro c
  cases c with
  | decide view => exact puts view
  | _ => trivial

/-- A run whose input is blank, and that may ask its user. -/
def quiet : RunSpec := { RunSpec.plain 1 ⟨8, 8⟩ with input := " ", capabilities := [⟨"user.ask"⟩] }

/-- Its first offer holds a question that is denied. -/
theorem blank_question_denied :
    ¬ (Driver.runUntil [] ((Driver.boot quiet Stamp.plain).setUp ⟨[], false, false, true, []⟩)).Only
    (Driver.Consults fun view => askUser ∈ (jevChoices view).map Prod.fst → ∀ invocation effect,
      JevDecider.decide view (.ok askUser) invocation = .ok effect →
        authorize view.spec effect view.tools = .allow ∧ applicable view.state.harness effect view.spec = true) := by
  intro h
  have hfirst := (h.2 .continue).1
  have hput := hfirst (by decide +kernel) ⟨0⟩ (.askUser " ") (by decide +kernel)
  exact absurd hput.1 (by decide +kernel)

end Gol.Jev
