import Gol.LibraryText
import Gol.WorkflowProgram

/-! The script frontends (`workflow-rhai`, `workflow-js`). A script makes decisions in a builder and holds handles to
them; a decision that another takes in moves out of its slot, so the program is built without copying a decision. -/

namespace Gol
open Library Workflow

namespace Frontend

def maxDecisions : Nat := 1024
def maxNameBytes : Nat := 128
def maxInputBytes : Nat := 64 * 1024

def toolName : String := "tool name must be 1 to 128 bytes"
def agentName : String := "agent name must be 1 to 128 bytes"
def inputSize : String := "input must be at most 65536 bytes"
def seqEmpty : String := "seq takes at least one decision"
def seqItems : String := "seq takes an array of decisions"
def tooMany : String := "too many decisions"
def usedTwice : String := "decision used twice"

inductive FrontendError where
  | script (message : String)
  | invalidProgram (message : String)
  deriving DecidableEq

/-- Every decision the script made: a slot is `none` once another decision consumed it. -/
structure Builder where
  nodes : List (Option Decision)
  fault : Option String

def Builder.empty : Builder := ⟨[], none⟩

/-- A builtin's call: it changes the builder, and answers or raises an error. -/
abbrev Call (α : Type) := ExceptT String (StateM Builder) α

/-- Records the first fault; a later one does not replace it. -/
def fault {α : Type} (message : String) : Call α := do
  modify fun builder => { builder with fault := some (builder.fault.getD message) }
  throw message

/-- The new decision's handle is its slot. -/
def make (decision : Decision) : Call Nat := do
  let builder ← get
  if maxDecisions ≤ builder.nodes.length then fault tooMany
  else
    set { builder with nodes := builder.nodes ++ [some decision] }
    return builder.nodes.length

/-- Moves the decision behind a handle out of the builder. Only the builder makes handles, so each has its slot. -/
def take (node : Nat) : Call Decision := do
  let builder ← get
  match builder.nodes[node]? with
  | some (some decision) =>
      set { builder with nodes := builder.nodes.set node none }
      return decision
  | _ => fault usedTwice

/-- What is in each slot of a sequence's array, a handle or not, moved out up to the first that cannot be. -/
def takeAll : List (Option Nat) → Call (List Decision)
  | [] => return []
  | none :: _ => fault seqItems
  | some node :: rest => do
      let decision ← take node
      let decisions ← takeAll rest
      return decision :: decisions

def validName (name : String) : Bool := !(bytesOf name).isEmpty && (bytesOf name).length ≤ maxNameBytes

/-- The program is the one decision no other decision consumed, unless the script faulted or failed. -/
def compiled (builder : Builder) (evaluated : Option String) : Except FrontendError WorkflowProgram :=
  match builder.fault with
  | some message => .error (.invalidProgram message)
  | none =>
      match evaluated with
      | some message => .error (.script message)
      | none =>
          match builder.nodes.filterMap id with
          | [root] => .ok ⟨root⟩
          | _ => .error (.invalidProgram "script must record one decision")

end Frontend

open Frontend

namespace Rhai

/-- A call of a builtin that an overload takes, or of one that none does. -/
inductive Builtin where
  | onCounter (missing onZero other : Nat)
  | tool (name : String) (input : Option String)
  | spawnAgent (agent input : String)
  | seq (items : List (Option Nat))
  | complete
  | fail
  | misuse (name : String)

def makeTool (name input : String) : Call Nat := do
  if !validName name then fault toolName else make (.tool name input)

def call : Builtin → Call Nat
  | .onCounter missing onZero other => do
      let missing ← take missing
      let onZero ← take onZero
      let other ← take other
      make (.onCounter missing onZero other)
  | .tool name input => makeTool name (input.getD "")
  | .spawnAgent agent input => do
      if !validName agent then fault agentName else make (.spawnAgent agent input)
  | .seq items => do
      if items.isEmpty then fault seqEmpty
      else
        let decisions ← takeAll items
        make (.seq decisions)
  | .complete => make .complete
  | .fail => make .fail
  | .misuse name => fault s!"{name} called with the wrong arguments"

/-- The builder after a script's calls, whatever it does with their answers. -/
def run (calls : List Builtin) : Builder := calls.foldl (fun builder builtin => (call builtin builder).2) .empty

/-- The program of a script that makes these calls, and that ends with this error if with any. -/
def compile (calls : List Builtin) (evaluated : Option String) : Except FrontendError WorkflowProgram :=
  compiled (run calls) evaluated

end Rhai

namespace Js

/-- A value a script passes: a string that is Unicode, an object the compiler handed out, an array, or none of these. -/
inductive Value where
  | string (text : String)
  | handle (node : Nat)
  | array (items : List Value)
  | foreign

def onCounterArity : String := "onCounter takes exactly three decisions"

/-- A script's call of a builtin with these arguments. Reading an array's elements may run calls of the script's,
before. -/
inductive Builtin where
  | onCounter (args : List Value)
  | tool (args : List Value)
  | spawnAgent (args : List Value)
  | seq (args : List Value)
  | complete (args : List Value)
  | fail (args : List Value)

def string : Value → Option String
  | .string text => some text
  | _ => none

/-- Moves the decision behind `value` out of the builder, or says why not. -/
def consume (value : Value) (notDecision : String) : Call (Except String Decision) := do
  let builder ← get
  match value with
  | .handle node =>
      match builder.nodes[node]? with
      | some (some decision) =>
          set { builder with nodes := builder.nodes.set node none }
          return .ok decision
      | some none => return .error usedTwice
      | none => return .error notDecision
  | _ => return .error notDecision

/-- Every item's decision, up to the first that is none. -/
def consumeAll : List Value → Call (Except String (List Decision))
  | [] => return .ok []
  | item :: rest => do
      match ← consume item seqItems with
      | .error message => return .error message
      | .ok decision =>
          match ← consumeAll rest with
          | .error message => return .error message
          | .ok decisions => return .ok (decision :: decisions)

def onCounter : List Value → Call Nat
  | [missing, onZero, other] => do
      -- All three are consumed, whatever comes of one.
      let missing ← consume missing onCounterArity
      let onZero ← consume onZero onCounterArity
      let other ← consume other onCounterArity
      match missing, onZero, other with
      | .ok missing, .ok onZero, .ok other => make (.onCounter missing onZero other)
      | .error message, _, _ | _, .error message, _ | _, _, .error message => fault message
  | _ => fault onCounterArity

/-- A tool call or a spawn whose strings were read. -/
def makeNamed (decision : Decision) (name input message : String) : Call Nat := do
  if !validName name then fault message
  else if maxInputBytes < (bytesOf input).length then fault inputSize
  else make decision

def tool : List Value → Call Nat
  | [name] =>
      match string name with
      | none => fault "tool name must be a string"
      | some name => makeNamed (.tool name "") name "" toolName
  | [name, input] =>
      match string name with
      | none => fault "tool name must be a string"
      | some name =>
          match string input with
          | none => fault "tool input must be a string"
          | some input => makeNamed (.tool name input) name input toolName
  | _ => fault "tool takes a name and an optional input"

def spawnAgent : List Value → Call Nat
  | [agent, input] =>
      match string agent, string input with
      | some agent, some input => makeNamed (.spawnAgent agent input) agent input agentName
      | _, _ => fault "spawnAgent takes two strings"
  | _ => fault "spawnAgent takes an agent and an input"

def seq : List Value → Call Nat
  | [.array items] => do
      if items.length = 0 then fault seqEmpty
      else if maxDecisions < items.length then fault tooMany
      else
        match ← consumeAll items with
        | .ok decisions => make (.seq decisions)
        | .error message => fault message
  | _ => fault seqItems

def call : Builtin → Call Nat
  | .onCounter args => onCounter args
  | .tool args => tool args
  | .spawnAgent args => spawnAgent args
  | .seq args => seq args
  | .complete args => if args.isEmpty then make .complete else fault "complete takes no arguments"
  | .fail args => if args.isEmpty then make .fail else fault "fail takes no arguments"

/-- The builder after a script's calls, whatever it does with their answers. -/
def run (calls : List Builtin) : Builder := calls.foldl (fun builder builtin => (call builtin builder).2) .empty

/-- The program of a script that makes these calls, and that ends with this error if with any. -/
def compile (calls : List Builtin) (evaluated : Option String) : Except FrontendError WorkflowProgram :=
  compiled (run calls) evaluated

end Js

/-! ### What a script can build -/

mutual

/-- No sequence in the decision is empty. -/
def Full : Decision → Prop
  | .tool _ _ | .spawnAgent _ _ | .complete | .fail => True
  | .seq decisions => decisions ≠ [] ∧ FullSeq decisions
  | .onCounter missing onZero other => Full missing ∧ Full onZero ∧ Full other

def FullSeq : List Decision → Prop
  | [] => True
  | decision :: rest => Full decision ∧ FullSeq rest

end

theorem fullSeq_iff {decisions : List Decision} : FullSeq decisions ↔ ∀ decision ∈ decisions, Full decision := by
  induction decisions with
  | nil => simp [FullSeq]
  | cons decision rest ih => simp [FullSeq, ih]

theorem sizeSeq_eq (decisions : List Decision) : sizeSeq decisions = (decisions.map size).sum := by
  induction decisions with
  | nil => rw [sizeSeq, List.map_nil, List.sum_nil]
  | cons decision rest ih => rw [sizeSeq, ih, List.map_cons, List.sum_cons]

namespace Frontend

/-- The decisions in a builder that none has consumed. -/
def Builder.live (builder : Builder) : List Decision := builder.nodes.filterMap id

/-- The decisions in the builder, and those a builtin has moved out, are made of no more decisions than there are
slots. -/
structure Builder.Bounded (builder : Builder) (held : List Decision) : Prop where
  size : ((builder.live ++ held).map size).sum ≤ builder.nodes.length
  slots : builder.nodes.length ≤ maxDecisions
  full : ∀ decision ∈ builder.live ++ held, Full decision

/-- A builtin that holds `held` leaves the builder bounded, and then holds what `after` says of its answer. -/
def Keeps {α : Type} (call : Call α) (held : List Decision) (after : α → List Decision) : Prop :=
  ∀ builder : Builder, builder.Bounded held →
    match call builder with
    | (.ok answer, later) => later.Bounded (after answer)
    | (.error _, later) => later.Bounded []

variable {α β : Type} {held : List Decision}

theorem Builder.Bounded.drop {builder : Builder} (h : builder.Bounded held) : builder.Bounded [] where
  size := by
    have hsize := h.size
    rw [List.map_append, List.sum_append] at hsize
    rw [List.append_nil]
    omega
  slots := h.slots
  full decision hmem := by
    rw [List.append_nil] at hmem
    exact h.full decision (List.mem_append_left _ hmem)

/-- A call that answered what its parts answered. -/
theorem bind_ok {call : Call α} {next : α → Call β} {builder last : Builder} {answer : β}
    (h : (call >>= next) builder = (.ok answer, last)) :
    ∃ middle later, call builder = (.ok middle, later) ∧ next middle later = (.ok answer, last) := by
  simp only [Bind.bind, ExceptT.bind, ExceptT.mk, ExceptT.bindCont, StateT.bind] at h
  generalize call builder = result at h
  obtain ⟨error | middle, later⟩ := result
  · cases h
  · exact ⟨middle, later, rfl, h⟩

/-- Where a call gives only answers that are `allowed`, the next keeps the builder after such an answer. -/
theorem Keeps.bindOf {call : Call α} {next : α → Call β} {middle : α → List Decision} {after : β → List Decision}
    {allowed : α → Prop} (hcall : Keeps call held middle)
    (hallowed : ∀ builder answer later, call builder = (.ok answer, later) → allowed answer)
    (hnext : ∀ answer, allowed answer → Keeps (next answer) (middle answer) after) :
    Keeps (call >>= next) held after := by
  intro builder hbuilder
  have hlater := hcall builder hbuilder
  have hanswer := hallowed builder
  simp only [Bind.bind, ExceptT.bind, ExceptT.mk, ExceptT.bindCont, StateT.bind]
  generalize call builder = result at hlater hanswer
  obtain ⟨error | answer, later⟩ := result
  · exact hlater
  · exact hnext _ (hanswer _ later rfl) later hlater

theorem Keeps.bind {call : Call α} {next : α → Call β} {middle : α → List Decision} {after : β → List Decision}
    (hcall : Keeps call held middle) (hnext : ∀ answer, Keeps (next answer) (middle answer) after) :
    Keeps (call >>= next) held after :=
  hcall.bindOf (fun _ _ _ _ => trivial) fun answer _ => hnext answer

theorem Keeps.ite {condition : Prop} [Decidable condition] {yes no : Call α} {after : α → List Decision}
    (hyes : condition → Keeps yes held after) (hno : ¬ condition → Keeps no held after) :
    Keeps (if condition then yes else no) held after := by
  by_cases h : condition
  · rw [if_pos h]
    exact hyes h
  · rw [if_neg h]
    exact hno h

/-- A fault leaves the slots. -/
theorem Builder.Bounded.faulted {builder : Builder} (h : builder.Bounded held) (message : String) :
    Builder.Bounded { builder with fault := some (builder.fault.getD message) } [] :=
  ⟨h.drop.size, h.drop.slots, h.drop.full⟩

theorem keeps_fault (message : String) {after : α → List Decision} : Keeps (fault message) held after :=
  fun _ h => h.faulted message

/-- What `builder` comes to by a call that answers, or raises an error. -/
theorem keeps_get {next : Builder → Call α} {after : α → List Decision}
    (h : ∀ builder : Builder, builder.Bounded held →
      match next builder builder with
      | (.ok answer, later) => later.Bounded (after answer)
      | (.error _, later) => later.Bounded []) : Keeps (get >>= next) held after := h

/-- A new decision is made of those held and itself. -/
theorem keeps_make {decision : Decision} (hsize : size decision ≤ 1 + (held.map size).sum)
    (hfull : (∀ part ∈ held, Full part) → Full decision) : Keeps (make decision) held fun _ => [] := by
  refine keeps_get fun builder h => ?_
  by_cases hslots : maxDecisions ≤ builder.nodes.length
  · rw [if_pos hslots]
    exact h.faulted tooMany
  · rw [if_neg hslots]
    have hlive : Builder.live { builder with nodes := builder.nodes ++ [some decision] } =
        builder.live ++ [decision] := by
      simp [Builder.live]
    refine ⟨?_, ?_, ?_⟩
    · have hbefore := h.size
      rw [List.map_append, List.sum_append] at hbefore
      simp only [hlive, List.append_nil, List.map_append, List.map_cons, List.map_nil, List.sum_append,
        List.sum_singleton, List.length_append, List.length_singleton]
      omega
    · simp only [List.length_append, List.length_singleton]
      omega
    · intro other hmem
      rw [hlive, List.append_nil, List.mem_append, List.mem_singleton] at hmem
      rcases hmem with hmem | rfl
      · exact h.full other (List.mem_append_left _ hmem)
      · exact hfull fun part hpart => h.full part (List.mem_append_right _ hpart)

/-- A decision moved out of its slot is one of those before, and the others stay. -/
theorem live_set {nodes : List (Option Decision)} {node : Nat} {decision : Decision}
    (h : nodes[node]? = some (some decision)) :
    (nodes.filterMap id).Perm (decision :: (nodes.set node none).filterMap id) := by
  induction nodes generalizing node with
  | nil => simp at h
  | cons first rest ih =>
      cases node with
      | zero =>
          obtain rfl : first = some decision := by simpa using h
          simp
      | succ node =>
          have hrest := ih (by simpa using h)
          cases first with
          | none => simpa using hrest
          | some first =>
              simp only [List.filterMap_cons, id_eq, List.set_cons_succ]
              exact (hrest.cons first).trans (List.Perm.swap ..)

theorem Builder.Bounded.perm {builder later : Builder} {held' : List Decision} (h : builder.Bounded held)
    (hlength : later.nodes.length = builder.nodes.length) (hperm : (builder.live ++ held).Perm (later.live ++ held')) :
    later.Bounded held' where
  size := by
    rw [← (hperm.map Workflow.size).sum_nat, hlength]
    exact h.size
  slots := hlength ▸ h.slots
  full decision hmem := h.full decision (hperm.mem_iff.mpr hmem)

/-- What a moved decision leaves. -/
theorem Builder.Bounded.taken {builder : Builder} (h : builder.Bounded held) {node : Nat} {decision : Decision}
    (hnode : builder.nodes[node]? = some (some decision)) :
    Builder.Bounded { builder with nodes := builder.nodes.set node none } (decision :: held) := by
  have hperm : (builder.live ++ held).Perm
      (Builder.live { builder with nodes := builder.nodes.set node none } ++ decision :: held) :=
    ((live_set hnode).append_right held).trans List.perm_middle.symm
  exact h.perm (List.length_set ..) hperm

theorem keeps_take (node : Nat) : Keeps (take node) held fun decision => decision :: held := by
  refine keeps_get fun builder h => ?_
  rcases hnode : builder.nodes[node]? with _ | _ | decision
  · exact h.faulted usedTwice
  · exact h.faulted usedTwice
  · exact h.taken hnode

theorem keeps_takeAll (items : List (Option Nat)) : Keeps (takeAll items) held fun decisions => decisions ++ held := by
  induction items generalizing held with
  | nil => exact fun _ h => h
  | cons item rest ih =>
      cases item with
      | none => exact keeps_fault seqItems
      | some node =>
          refine (keeps_take node).bind fun decision => ih.bind fun decisions => ?_
          intro builder h
          have hperm : (builder.live ++ (decisions ++ decision :: held)).Perm
              (builder.live ++ (decision :: decisions ++ held)) :=
            List.perm_middle.append_left builder.live
          exact h.perm rfl hperm

theorem takeAll_length {items : List (Option Nat)} {builder later : Builder} {decisions : List Decision}
    (h : takeAll items builder = (.ok decisions, later)) : decisions.length = items.length := by
  induction items generalizing builder decisions with
  | nil =>
      cases h
      rfl
  | cons item rest ih =>
      cases item with
      | none => cases h
      | some node =>
          obtain ⟨decision, middle, -, hrest⟩ := bind_ok h
          obtain ⟨decisions', after, htaken, hmade⟩ := bind_ok hrest
          cases hmade
          rw [List.length_cons, List.length_cons, ih htaken]

/-- A sequence of the decisions held. -/
theorem keeps_makeSeq {decisions : List Decision} (h : decisions ≠ []) :
    Keeps (make (.seq decisions)) decisions fun _ => [] := by
  refine keeps_make ?_ fun hfull => ?_
  · have hsize := sizeSeq_eq decisions
    simp only [size]
    omega
  · rw [Full, fullSeq_iff]
    exact ⟨h, hfull⟩

theorem keeps_makeOnCounter {missing onZero other : Decision} :
    Keeps (make (.onCounter missing onZero other)) [other, onZero, missing] fun _ => [] := by
  refine keeps_make ?_ fun hfull => ?_
  · simp only [size, List.map_cons, List.map_nil, List.sum_cons, List.sum_nil]
    omega
  · rw [Full]
    exact ⟨hfull missing (by simp), hfull onZero (by simp), hfull other (by simp)⟩

/-- A decision with no others in it. -/
theorem keeps_makeLeaf {decision : Decision} (hsize : size decision = 1) (hfull : Full decision) :
    Keeps (make decision) [] fun _ => [] := keeps_make (by rw [hsize]; simp) fun _ => hfull

/-- A script's builder is bounded after any calls, where each builtin keeps it so. -/
theorem bounded_run {κ : Type} {call : κ → Call Nat} (hcall : ∀ builtin, Keeps (call builtin) [] fun _ => [])
    (calls : List κ) : (calls.foldl (fun builder builtin => (call builtin builder).2) Builder.empty).Bounded [] := by
  suffices hall : ∀ builder : Builder, builder.Bounded [] →
      (calls.foldl (fun builder builtin => (call builtin builder).2) builder).Bounded [] from
    hall .empty ⟨Nat.le_refl 0, Nat.zero_le _, nofun⟩
  induction calls with
  | nil => exact fun _ h => h
  | cons builtin rest ih =>
      intro builder h
      have hlater := hcall builtin builder h
      rw [List.foldl_cons]
      generalize call builtin builder = result at hlater
      obtain ⟨error | answer, later⟩ := result
      · exact ih later hlater
      · exact ih later hlater

theorem bounded_compiled {builder : Builder} (h : builder.Bounded []) {evaluated : Option String}
    {program : WorkflowProgram} (hcompiled : compiled builder evaluated = .ok program) :
    size program.root ≤ maxDecisions ∧ Full program.root := by
  have hroot : builder.live = [program.root] := by
    unfold compiled at hcompiled
    split at hcompiled
    · cases hcompiled
    · split at hcompiled
      · cases hcompiled
      · split at hcompiled
        · next root hnodes =>
            cases hcompiled
            exact hnodes
        · cases hcompiled
  have hsize := h.size
  have hfull := h.full
  rw [hroot, List.append_nil] at hsize hfull
  rw [List.map_singleton, List.sum_singleton] at hsize
  exact ⟨Nat.le_trans hsize h.slots, hfull program.root (List.mem_singleton_self _)⟩

end Frontend

namespace Rhai

theorem keeps_call (builtin : Builtin) : Keeps (call builtin) [] fun _ => [] := by
  cases builtin with
  | onCounter missing onZero other =>
      exact (keeps_take missing).bind fun _ => (keeps_take onZero).bind fun _ => (keeps_take other).bind fun _ =>
        keeps_makeOnCounter
  | tool name input =>
      rw [call, makeTool]
      exact .ite (fun _ => keeps_fault toolName) fun _ => keeps_makeLeaf rfl trivial
  | spawnAgent agent input =>
      exact .ite (fun _ => keeps_fault agentName) fun _ => keeps_makeLeaf rfl trivial
  | seq items =>
      refine .ite (fun _ => keeps_fault seqEmpty) fun hitems =>
        (keeps_takeAll items).bindOf (fun _ _ _ => takeAll_length) fun decisions hlength => ?_
      rw [List.append_nil]
      refine keeps_makeSeq fun hnil => hitems ?_
      rw [hnil, List.length_nil] at hlength
      exact List.isEmpty_iff.mpr (List.eq_nil_of_length_eq_zero hlength.symm)
  | complete => exact keeps_makeLeaf rfl trivial
  | fail => exact keeps_makeLeaf rfl trivial
  | misuse name => exact keeps_fault _

theorem bounded (calls : List Builtin) : (run calls).Bounded [] := bounded_run keeps_call calls

end Rhai

namespace Js

variable {held : List Decision}

/-- What a consumed value leaves the builtin with. -/
def consumed : Except String Decision → List Decision
  | .ok decision => [decision]
  | .error _ => []

theorem keeps_consume (value : Value) (notDecision : String) :
    Keeps (consume value notDecision) held fun result => consumed result ++ held := by
  refine keeps_get fun builder h => ?_
  cases value with
  | handle node =>
      dsimp only
      rcases hnode : builder.nodes[node]? with _ | _ | decision
      · exact h
      · exact h
      · exact h.taken hnode
  | string | array | foreign => exact h

theorem keeps_consumeAll (items : List Value) :
    Keeps (consumeAll items) held fun
      | .ok decisions => decisions ++ held
      | .error _ => [] := by
  induction items generalizing held with
  | nil => exact fun _ h => h
  | cons item rest ih =>
      refine (keeps_consume item seqItems).bind fun result => ?_
      cases result with
      | error message => exact fun _ h => h.drop
      | ok decision =>
          refine ih.bind fun results => ?_
          cases results with
          | error message => exact fun _ h => h.drop
          | ok decisions => exact fun builder h => h.perm rfl (List.perm_middle.append_left builder.live)

theorem consumeAll_length {items : List Value} {builder later : Builder} {decisions : List Decision}
    (h : consumeAll items builder = (.ok (.ok decisions), later)) : decisions.length = items.length := by
  induction items generalizing builder decisions with
  | nil =>
      cases h
      rfl
  | cons item rest ih =>
      obtain ⟨result, middle, -, hrest⟩ := bind_ok h
      cases result with
      | error message => cases hrest
      | ok decision =>
          obtain ⟨results, after, htaken, hmade⟩ := bind_ok hrest
          cases results with
          | error message => cases hmade
          | ok decisions' =>
              cases hmade
              rw [List.length_cons, List.length_cons, ih htaken]

theorem keeps_onCounter (args : List Value) : Keeps (onCounter args) [] fun _ => [] := by
  unfold onCounter
  split
  · next missing onZero other =>
      refine (keeps_consume missing _).bind fun missing => (keeps_consume onZero _).bind fun onZero =>
        (keeps_consume other _).bind fun other => ?_
      split
      · exact keeps_makeOnCounter
      · exact keeps_fault _
      · exact keeps_fault _
      · exact keeps_fault _
  · exact keeps_fault onCounterArity

theorem keeps_makeNamed (decision : Decision) (name input message : String) (hsize : size decision = 1)
    (hfull : Full decision) :
    Keeps (makeNamed decision name input message) [] fun _ => [] :=
  .ite (fun _ => keeps_fault message) fun _ => .ite (fun _ => keeps_fault inputSize) fun _ => keeps_makeLeaf hsize hfull

theorem keeps_tool (args : List Value) : Keeps (tool args) [] fun _ => [] := by
  unfold tool
  split
  · split
    · exact keeps_fault _
    · next name _ => exact keeps_makeNamed (.tool name "") name "" toolName rfl trivial
  · split
    · exact keeps_fault _
    · split
      · exact keeps_fault _
      · next name _ _ input _ => exact keeps_makeNamed (.tool name input) name input toolName rfl trivial
  · exact keeps_fault _

theorem keeps_spawnAgent (args : List Value) : Keeps (spawnAgent args) [] fun _ => [] := by
  unfold spawnAgent
  split
  · split
    · next agent input _ _ => exact keeps_makeNamed (.spawnAgent agent input) agent input agentName rfl trivial
    · exact keeps_fault _
  · exact keeps_fault _

theorem keeps_seq (args : List Value) : Keeps (seq args) [] fun _ => [] := by
  unfold seq
  split
  · next items =>
      refine .ite (fun _ => keeps_fault seqEmpty) fun hitems => .ite (fun _ => keeps_fault tooMany) fun _ => ?_
      have hsome : ∀ builder result later, consumeAll items builder = (.ok result, later) →
          ∀ decisions, result = .ok decisions → decisions ≠ [] := by
        rintro builder result later hconsumed decisions rfl rfl
        exact hitems (consumeAll_length hconsumed).symm
      refine (keeps_consumeAll items).bindOf hsome fun result hresult => ?_
      cases result with
      | error message => exact keeps_fault message
      | ok decisions =>
          show Keeps (make (.seq decisions)) (decisions ++ []) _
          rw [List.append_nil]
          exact keeps_makeSeq (hresult decisions rfl)
  · exact keeps_fault seqItems

theorem keeps_call (builtin : Builtin) : Keeps (call builtin) [] fun _ => [] := by
  cases builtin with
  | onCounter args => exact keeps_onCounter args
  | tool args => exact keeps_tool args
  | spawnAgent args => exact keeps_spawnAgent args
  | seq args => exact keeps_seq args
  | complete args => exact .ite (fun _ => keeps_makeLeaf rfl trivial) fun _ => keeps_fault _
  | fail args => exact .ite (fun _ => keeps_makeLeaf rfl trivial) fun _ => keeps_fault _

theorem bounded (calls : List Builtin) : (run calls).Bounded [] := bounded_run keeps_call calls

end Js

end Gol
