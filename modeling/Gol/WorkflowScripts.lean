import Mathlib.Data.List.Perm.Basic
import Mathlib.Data.List.Range
import Gol.WorkflowFrontends

/-! Whole scripts of both frontends. A script is the builtins it calls, one after another, each with any values. What
a call asks of the builder is read off its values, and both builders do exactly that until a call faults. -/

namespace Gol
open Library Workflow Frontend

namespace Script

inductive Name where
  | onCounter
  | tool
  | spawnAgent
  | seq
  | complete
  | fail
  deriving DecidableEq

/-- A builtin's call with the values it is given. A call that the script itself breaks off before, in a getter of an
array, is none. -/
structure Invoked where
  name : Name
  args : List Js.Value

/-- The handle that a value is. -/
def handle? : Js.Value → Option Nat
  | .handle node => some node
  | _ => none

end Script

open Script

namespace Rhai

def builtinName : Name → String
  | .onCounter => "on_counter"
  | .tool => "tool"
  | .spawnAgent => "spawn_agent"
  | .seq => "seq"
  | .complete => "complete"
  | .fail => "fail"

/-- The overload that takes these values, if one does (`has_overload`). -/
def overload : Invoked → Builtin
  | ⟨.onCounter, [.handle missing, .handle onZero, .handle other]⟩ => .onCounter missing onZero other
  | ⟨.tool, [.string name]⟩ => .tool name none
  | ⟨.tool, [.string name, .string input]⟩ => .tool name (some input)
  | ⟨.spawnAgent, [.string agent, .string input]⟩ => .spawnAgent agent input
  | ⟨.seq, [.array items]⟩ => .seq (items.map handle?)
  | ⟨.complete, []⟩ => .complete
  | ⟨.fail, []⟩ => .fail
  | ⟨name, _⟩ => .misuse (builtinName name)

end Rhai

namespace Js

def builtin : Invoked → Builtin
  | ⟨.onCounter, args⟩ => .onCounter args
  | ⟨.tool, args⟩ => .tool args
  | ⟨.spawnAgent, args⟩ => .spawnAgent args
  | ⟨.seq, args⟩ => .seq args
  | ⟨.complete, args⟩ => .complete args
  | ⟨.fail, args⟩ => .fail args

end Js

namespace Script

inductive Language where
  | rhai
  | js

namespace Language

def call : Language → Invoked → Call Nat
  | rhai, invoked => Rhai.call (Rhai.overload invoked)
  | js, invoked => Js.call (Js.builtin invoked)

/-- The builder after a script's calls. -/
def run : Language → List Invoked → Builder
  | rhai, script => Rhai.run (script.map Rhai.overload)
  | js, script => Js.run (script.map Js.builtin)

def compile : Language → List Invoked → Option String → Except FrontendError WorkflowProgram
  | rhai, script, evaluated => Rhai.compile (script.map Rhai.overload) evaluated
  | js, script, evaluated => Js.compile (script.map Js.builtin) evaluated

end Language

/-! ### What a call asks for -/

/-- A decision without those it takes. -/
inductive Head where
  | tool (name input : String)
  | spawnAgent (agent input : String)
  | complete
  | fail
  | seq
  | onCounter

/-- The decision over those it takes, in their order. -/
def Head.over : Head → List Decision → Decision
  | tool name input, _ => .tool name input
  | spawnAgent agent input, _ => .spawnAgent agent input
  | complete, _ => .complete
  | fail, _ => .fail
  | seq, decisions => .seq decisions
  | onCounter, [missing, onZero, other] => .onCounter missing onZero other
  | onCounter, _ => .fail

/-- The decision that a call with these values makes, and the handles it takes. No call with other values makes one. -/
def asked : Invoked → Option (Head × List Nat)
  | ⟨.onCounter, [.handle missing, .handle onZero, .handle other]⟩ => some (.onCounter, [missing, onZero, other])
  | ⟨.tool, [.string name]⟩ => if validName name then some (.tool name "", []) else none
  | ⟨.tool, [.string name, .string input]⟩ => if validName name then some (.tool name input, []) else none
  | ⟨.spawnAgent, [.string agent, .string input]⟩ =>
      if validName agent then some (.spawnAgent agent input, []) else none
  | ⟨.seq, [.array items]⟩ => if items.isEmpty then none else (items.mapM handle?).map fun nodes => (.seq, nodes)
  | ⟨.complete, []⟩ => some (.complete, [])
  | ⟨.fail, []⟩ => some (.fail, [])
  | _ => none

def Invoked.handles (invoked : Invoked) : List Nat := ((asked invoked).map Prod.snd).getD []

/-- The decision behind a handle, and the slots without it. -/
def taken (slots : List (Option Decision)) (node : Nat) : Option (Decision × List (Option Decision)) :=
  slots[node]?.join.map fun decision => (decision, slots.set node none)

/-- The decisions behind handles, and the slots without them. -/
def moved : List (Option Decision) → List Nat → Option (List Decision × List (Option Decision))
  | slots, [] => some ([], slots)
  | slots, node :: rest =>
      (taken slots node).bind fun (decision, left) =>
        (moved left rest).map fun (decisions, left) => (decision :: decisions, left)

/-- The slots with a new decision, whose handle is its slot. -/
def made (slots : List (Option Decision)) (decision : Decision) : Option (Nat × List (Option Decision)) :=
  if maxDecisions ≤ slots.length then none else some (slots.length, slots ++ [some decision])

/-- The handle that a call answers with and the slots that it leaves, where it makes its decision. -/
def applied (slots : List (Option Decision)) (invoked : Invoked) : Option (Nat × List (Option Decision)) :=
  (asked invoked).bind fun (head, nodes) =>
  (moved slots nodes).bind fun (decisions, left) => made left (head.over decisions)

/-- A value keeps the caps on strings and arrays. -/
def capped : Js.Value → Bool
  | .string text => (bytesOf text).length ≤ maxInputBytes
  | .array items => items.length ≤ maxDecisions
  | _ => true

/-- What a call does in a language. Rhai's engine holds every value to the caps, and JS leaves that to the builtins. -/
def Language.applied (language : Language) (slots : List (Option Decision)) (invoked : Invoked) :
    Option (Nat × List (Option Decision)) :=
  match language with
  | rhai => Script.applied slots invoked
  | js => if invoked.args.all capped then Script.applied slots invoked else none

/-! ### Both builders do what a call asks -/

variable {α β : Type} {slots left : List (Option Decision)} {invoked : Invoked} {nodes : List Nat}
  {decisions : List Decision}
  {call : Call α} {next : α → Call β}

/-- On slots without a fault the call answers as `effect` says, or faults where it has nothing to say. -/
def Gives (call : Call α) (slots : List (Option Decision)) (effect : Option (α × List (Option Decision))) : Prop :=
  match effect with
  | some (answer, left) => call ⟨slots, none⟩ = (.ok answer, ⟨left, none⟩)
  | none => ∃ message left, call ⟨slots, none⟩ = (.error message, ⟨left, some message⟩)

theorem Gives.bind {effect : Option (α × List (Option Decision))}
    {later : α × List (Option Decision) → Option (β × List (Option Decision))} (h : Gives call slots effect)
    (hnext : ∀ answer left, Gives (next answer) left (later (answer, left))) :
    Gives (call >>= next) slots (effect.bind later) := by
  cases effect with
  | none =>
      obtain ⟨message, left, hcall⟩ := h
      refine ⟨message, left, ?_⟩
      simp only [Bind.bind, ExceptT.bind, ExceptT.mk, ExceptT.bindCont, StateT.bind, hcall]
      rfl
  | some answered =>
      obtain ⟨answer, left⟩ := answered
      have hcall : call ⟨slots, none⟩ = (.ok answer, ⟨left, none⟩) := h
      have hbind : (call >>= next) ⟨slots, none⟩ = next answer ⟨left, none⟩ := by
        simp only [Bind.bind, ExceptT.bind, ExceptT.mk, ExceptT.bindCont, StateT.bind, hcall]
      have hlater := hnext answer left
      rw [Option.bind_some]
      unfold Gives at hlater ⊢
      rw [hbind]
      exact hlater

theorem Gives.map {effect : Option (α × List (Option Decision))} {change : α → β} (h : Gives call slots effect) :
    Gives (call >>= fun answer => pure (change answer)) slots
      (effect.map fun (answer, left) => (change answer, left)) := by
  have heffect : (effect.map fun (answer, left) => (change answer, left)) =
      effect.bind fun (answer, left) => some (change answer, left) := by
    cases effect <;> rfl
  rw [heffect]
  exact h.bind fun answer left => rfl

theorem gives_fault (message : String) : Gives (fault message : Call α) slots none := ⟨message, slots, rfl⟩

theorem gives_make (decision : Decision) : Gives (make decision) slots (made slots decision) := by
  have hmake : make decision ⟨slots, none⟩ = if maxDecisions ≤
    slots.length then (fault tooMany : Call Nat) ⟨slots, none⟩
      else (.ok slots.length, ⟨slots ++ [some decision], none⟩) := by
    show (if maxDecisions ≤ slots.length then fault tooMany else _ : Call Nat) ⟨slots, none⟩ = _
    split
    · rfl
    · rfl
  rw [made]
  split
  · rename_i hcap
    rw [if_pos hcap] at hmake
    exact ⟨tooMany, slots, hmake⟩
  · rename_i hcap
    rw [if_neg hcap] at hmake
    exact hmake

theorem take_eq (node : Nat) (builder : Builder) : take node builder = (match builder.nodes[node]? with
    | some (some decision) =>
        (set { builder with nodes := builder.nodes.set node none } : Call Unit) >>= fun _ => pure decision
    | _ => fault usedTwice : Call Decision) builder := rfl

theorem consume_handle (node : Nat) (notDecision : String) (builder : Builder) :
    Js.consume (.handle node) notDecision builder = (match builder.nodes[node]? with
      | some (some decision) =>
          (set { builder with nodes := builder.nodes.set node none } : Call Unit) >>= fun _ => pure (.ok decision)
      | some none => pure (.error usedTwice)
      | none => pure (.error notDecision) : Call (Except String Decision)) builder := rfl

theorem seq_array (items : List Js.Value) : Js.seq [.array items] = if items.length = 0 then fault seqEmpty else
    if maxDecisions < items.length then fault tooMany else Js.consumeAll items >>= fun results => match results with
      | .ok decisions => make (.seq decisions)
      | .error message => fault message := rfl

theorem gives_take (node : Nat) : Gives (take node) slots (taken slots node) := by
  rw [taken]
  rcases hslot : slots[node]? with _ | _ | decision
  · refine ⟨usedTwice, slots, ?_⟩
    rw [take_eq, hslot]
    rfl
  · refine ⟨usedTwice, slots, ?_⟩
    rw [take_eq, hslot]
    rfl
  · show take node ⟨slots, none⟩ = _
    rw [take_eq, hslot]
    rfl

/-- The first of several values is moved out before the rest. -/
theorem movedBy_cons {γ : Type} (handleOf : γ → Option Nat) (item : γ) (rest : List γ) :
    ((item :: rest).mapM handleOf).bind (moved slots) = ((handleOf item).bind (taken slots)).bind
      fun (decision, left) =>
      ((rest.mapM handleOf).bind (moved left)).map fun (decisions, left) => (decision :: decisions, left) := by
  rw [List.mapM_cons]
  cases handleOf item with
  | none => rfl
  | some node =>
      cases rest.mapM handleOf with
      | none => cases htaken : taken slots node <;> simp [htaken]
      | some nodes => rfl

/-- What is moved out for a sequence in Rhai. -/
theorem gives_takeAll (items : List (Option Nat)) :
    Gives (takeAll items) slots ((items.mapM id).bind (moved slots)) := by
  induction items generalizing slots with
  | nil => rfl
  | cons item rest ih =>
      cases item with
      | none => exact gives_fault seqItems
      | some node =>
          rw [movedBy_cons]
          exact (gives_take node).bind fun decision left => ih.map

/-- A call that takes three handles. -/
theorem applied_onCounter (missing onZero other : Nat) :
    applied slots ⟨.onCounter, [.handle missing, .handle onZero, .handle other]⟩ =
      (taken slots missing).bind fun (missing, left) => (taken left onZero).bind fun (onZero, left) =>
        (taken left other).bind fun (other, left) => made left (.onCounter missing onZero other) := by
  simp only [applied, asked, moved, Option.bind_some]
  rcases taken slots missing with _ | ⟨missing, left⟩
  · rfl
  rcases hzero : taken left onZero with _ | ⟨onZero, left'⟩
  · simp [hzero]
  rcases hother : taken left' other with _ | ⟨other, left''⟩
  · simp [hzero, hother]
  simp [hzero, hother, Head.over]

/-- A call whose name has to be one. -/
theorem gives_named (name message : String) (head : Head) :
    Gives (if !validName name then fault message else make (head.over [])) slots
      ((if validName name then some (head, []) else none).bind fun (head, nodes) =>
        (moved slots nodes).bind fun (decisions, left) => made left (head.over decisions)) := by
  by_cases hname : validName name = true
  · rw [if_pos hname, hname]
    exact gives_make _
  · rw [if_neg hname, Bool.not_eq_true] at *
    rw [hname]
    exact gives_fault message

theorem gives_rhai (invoked : Invoked) : Gives (Language.call .rhai invoked) slots (applied slots invoked) := by
  show Gives (Rhai.call (Rhai.overload invoked)) slots (applied slots invoked)
  unfold Rhai.overload
  split
  · rename_i missing onZero other
    rw [applied_onCounter]
    exact (gives_take missing).bind fun missing left => (gives_take onZero).bind fun onZero left =>
      (gives_take other).bind fun other left => gives_make _
  · exact gives_named _ toolName (.tool _ "")
  · exact gives_named _ toolName (.tool _ _)
  · exact gives_named _ agentName (.spawnAgent _ _)
  · rename_i items
    have hnodes : (items.map handle?).mapM id = items.mapM handle? := by
      induction items with
      | nil => rfl
      | cons item rest ih => rw [List.map_cons, List.mapM_cons, List.mapM_cons, ih]; rfl
    have hcall : Rhai.call (.seq (items.map handle?)) = if items.isEmpty then fault seqEmpty else
        takeAll (items.map handle?) >>= fun decisions => make (.seq decisions) := by
      show (if (items.map handle?).isEmpty then _ else _ : Call Nat) = _
      rw [List.isEmpty_map]
    rw [hcall, applied, asked]
    split
    · exact gives_fault seqEmpty
    · have hseq : Gives (takeAll (items.map handle?) >>= fun decisions => make (.seq decisions)) slots
          ((((items.map handle?).mapM id).bind (moved slots)).bind fun (decisions, left) =>
            made left (.seq decisions)) :=
        (gives_takeAll _).bind fun decisions left => gives_make _
      rw [hnodes] at hseq
      cases hitems : items.mapM handle? with
      | none => rw [hitems] at hseq; exact hseq
      | some nodes => rw [hitems] at hseq; exact hseq
  · exact gives_make _
  · exact gives_make _
  · rename_i name args h1 h2 h3 h4 h5 h6 h7
    have hasked : asked ⟨name, args⟩ = none := by
      unfold asked
      split
      · rename_i heq; cases heq; exact (h1 _ _ _ rfl rfl).elim
      · rename_i heq; cases heq; exact (h2 _ rfl rfl).elim
      · rename_i heq; cases heq; exact (h3 _ _ rfl rfl).elim
      · rename_i heq; cases heq; exact (h4 _ _ rfl rfl).elim
      · rename_i heq; cases heq; exact (h5 _ rfl rfl).elim
      · rename_i heq; cases heq; exact (h6 rfl rfl).elim
      · rename_i heq; cases heq; exact (h7 rfl rfl).elim
      · rfl
    rw [applied, hasked]
    exact gives_fault _

/-! ### What JS reads off its values -/

/-- On slots without a fault the call answers as `effect` says, or says why it does not, and never faults. -/
def Tries (call : Call (Except String α)) (slots : List (Option Decision))
    (effect : Option (α × List (Option Decision))) :
    Prop :=
  match effect with
  | some (answer, left) => call ⟨slots, none⟩ = (.ok (.ok answer), ⟨left, none⟩)
  | none => ∃ reason left, call ⟨slots, none⟩ = (.ok (.error reason), ⟨left, none⟩)

theorem bind_of_ok {first : Call α} {answer : α} {builder later : Builder} (h : first builder = (.ok answer, later)) :
    (first >>= next) builder = next answer later := by
  simp only [Bind.bind, ExceptT.bind, ExceptT.mk, ExceptT.bindCont, StateT.bind, h]

section

variable {attempt : Call (Except String α)} {effect : Option (α × List (Option Decision))}

theorem Tries.bind {follow : Except String α → Call (Except String β)}
    {later : α × List (Option Decision) → Option (β × List (Option Decision))} (h : Tries attempt slots effect)
    (herror : ∀ reason, follow (.error reason) = pure (.error reason))
    (hok : ∀ answer left, Tries (follow (.ok answer)) left (later (answer, left))) :
    Tries (attempt >>= follow) slots (effect.bind later) := by
  cases effect with
  | none =>
      obtain ⟨reason, left, hattempt⟩ := h
      exact ⟨reason, left, by rw [bind_of_ok hattempt, herror]; rfl⟩
  | some answered =>
      have hlater := hok answered.1 answered.2
      rw [Option.bind_some]
      unfold Tries at hlater ⊢
      rw [bind_of_ok (show attempt ⟨slots, none⟩ = _ from h)]
      exact hlater

theorem Tries.map {follow : Except String α → Call (Except String β)} {change : α → β} (h : Tries attempt slots effect)
    (herror : ∀ reason, follow (.error reason) = pure (.error reason))
    (hok : ∀ answer, follow (.ok answer) = pure (.ok (change answer))) :
    Tries (attempt >>= follow) slots (effect.map fun (answer, left) => (change answer, left)) := by
  have heffect : (effect.map fun (answer, left) => (change answer, left)) =
      effect.bind fun (answer, left) => some (change answer, left) := by
    cases effect <;> rfl
  rw [heffect]
  exact h.bind herror fun answer left => by rw [hok]; rfl

theorem Tries.gives {follow : Except String α → Call β}
    {later : α × List (Option Decision) → Option (β × List (Option Decision))} (h : Tries attempt slots effect)
    (herror : ∀ reason left, Gives (follow (.error reason)) left none)
    (hok : ∀ answer left, Gives (follow (.ok answer)) left (later (answer, left))) :
    Gives (attempt >>= follow) slots (effect.bind later) := by
  cases effect with
  | none =>
      obtain ⟨reason, left, hattempt⟩ := h
      obtain ⟨message, after, hfault⟩ := herror reason left
      exact ⟨message, after, (bind_of_ok hattempt).trans hfault⟩
  | some answered =>
      have hlater := hok answered.1 answered.2
      rw [Option.bind_some]
      unfold Gives at hlater ⊢
      rw [bind_of_ok (show attempt ⟨slots, none⟩ = _ from h)]
      exact hlater

/-- What follows an attempt faults, whatever comes of it. -/
theorem Tries.faults {follow : Except String α → Call β} (h : Tries attempt slots effect)
    (hfault : ∀ result left, Gives (follow result) left none) : Gives (attempt >>= follow) slots none := by
  have hgives : Gives (attempt >>= follow) slots (effect.bind fun _ => none) :=
    h.gives (fun reason => hfault _) fun answer => hfault _
  cases effect <;> exact hgives

end

/-- What a value is moved out as. -/
def takenValue (slots : List (Option Decision)) (value : Js.Value) : Option (Decision × List (Option Decision)) :=
  (handle? value).bind (taken slots)

theorem tries_consume (value : Js.Value) (notDecision : String) :
    Tries (Js.consume value notDecision) slots (takenValue slots value) := by
  cases value with
  | handle node =>
      show Tries _ slots (taken slots node)
      rw [taken]
      unfold Tries
      rw [consume_handle]
      rcases slots[node]? with _ | _ | decision
      · exact ⟨notDecision, slots, rfl⟩
      · exact ⟨usedTwice, slots, rfl⟩
      · rfl
  | string | array | foreign => exact ⟨notDecision, slots, rfl⟩

theorem tries_consumeAll (items : List Js.Value) :
    Tries (Js.consumeAll items) slots ((items.mapM handle?).bind (moved slots)) := by
  induction items generalizing slots with
  | nil => rfl
  | cons item rest ih =>
      rw [movedBy_cons]
      refine (tries_consume item _).bind (fun _ => rfl) fun decision left => ?_
      exact ih.map (fun _ => rfl) fun decisions => rfl

theorem gives_onCounter (missing onZero other : Js.Value) :
    Gives (Js.onCounter [missing, onZero, other]) slots ((takenValue slots missing).bind fun (missing, left) =>
      (takenValue left onZero).bind fun (onZero, left) =>
        (takenValue left other).bind fun (other, left) => made left (.onCounter missing onZero other)) := by
  refine (tries_consume missing _).gives (fun reason left => ?_) fun missing left => ?_
  · exact (tries_consume onZero _).faults fun _ left => (tries_consume other _).faults fun _ left => gives_fault reason
  refine (tries_consume onZero _).gives (fun reason left => ?_) fun onZero left => ?_
  · exact (tries_consume other _).faults fun _ left => gives_fault reason
  refine (tries_consume other _).gives (fun reason left => gives_fault reason) fun other left => gives_make _

theorem gives_misuse (message : String) (h : asked invoked = none) :
    Gives (fault message : Call Nat) slots (Language.applied .js slots invoked) := by
  have heffect : Language.applied .js slots invoked = none := by
    show (if invoked.args.all capped then applied slots invoked else none) = none
    rw [applied, h]
    exact ite_self _
  rw [heffect]
  exact gives_fault message

/-- A call whose strings JS read. -/
theorem gives_makeNamed (head : Head) (name input message : String)
    (hasked : asked invoked = if validName name then some (head, []) else none)
    (hcapped : invoked.args.all capped = (capped (.string name) && capped (.string input))) :
    Gives (Js.makeNamed (head.over []) name input message) slots (Language.applied .js slots invoked) := by
  rw [Js.makeNamed]
  by_cases hname : validName name = true
  · have hshort : (bytesOf name).length ≤ maxNameBytes := by
      rw [validName, Bool.and_eq_true, decide_eq_true_eq] at hname
      exact hname.2
    have hcap : capped (.string name) = true := decide_eq_true (hshort.trans (by decide))
    have hnot : ¬ (!validName name) = true := by rw [hname]; decide
    rw [if_neg hnot]
    rw [hcap, Bool.true_and] at hcapped
    by_cases hinput : capped (.string input) = true
    · have heffect : Language.applied .js slots invoked = made slots (head.over []) := by
        show (if invoked.args.all capped then applied slots invoked else none) = _
        rw [hcapped, if_pos hinput, applied, hasked, if_pos hname]
        rfl
      rw [if_neg (Nat.not_lt.mpr (of_decide_eq_true hinput)), heffect]
      exact gives_make _
    · have heffect : Language.applied .js slots invoked = none := by
        show (if invoked.args.all capped then applied slots invoked else none) = _
        rw [hcapped, if_neg hinput]
      rw [if_pos (Nat.lt_of_not_le fun hle => hinput (decide_eq_true hle)), heffect]
      exact gives_fault inputSize
  · rw [if_pos (by simpa using hname)]
    rw [if_neg hname] at hasked
    exact gives_misuse message hasked

/-- A call of three values, which have to be handles. -/
theorem applied_js_onCounter (missing onZero other : Js.Value) :
    Language.applied .js slots ⟨.onCounter, [missing, onZero, other]⟩ = (takenValue slots missing).bind
      fun (missing, left) =>
      (takenValue left onZero).bind fun (onZero, left) =>
        (takenValue left other).bind fun (other, left) => made left (.onCounter missing onZero other) := by
  have hnone (h : asked ⟨.onCounter, [missing, onZero, other]⟩ = none) :
      Language.applied .js slots ⟨.onCounter, [missing, onZero, other]⟩ = none := by
    show (if _ then applied slots ⟨.onCounter, [missing, onZero, other]⟩ else none) = none
    rw [applied, h]
    exact ite_self _
  have hstop {γ δ : Type} (effect : Option γ) : (effect.bind fun _ => (none : Option δ)) = none := by
    cases effect <;> rfl
  cases missing with
  | string | array | foreign => exact hnone rfl
  | handle missing =>
      cases onZero with
      | string | array | foreign =>
          rw [hnone rfl]
          exact (hstop (taken slots missing)).symm
      | handle onZero =>
          cases other with
          | handle other => exact applied_onCounter missing onZero other
          | string | array | foreign =>
              rw [hnone rfl]
              show none = (taken slots missing).bind fun (missing, left) => (taken left onZero).bind fun _ => none
              simp only [hstop]

theorem gives_seq (items : List Js.Value) :
    Gives (Js.seq [.array items]) slots (Language.applied .js slots ⟨.seq, [.array items]⟩) := by
  have heffect : Language.applied .js slots ⟨.seq, [.array items]⟩ =
      if items.isEmpty then none else if maxDecisions < items.length then none else
        ((items.mapM handle?).bind (moved slots)).bind fun (decisions, left) => made left (.seq decisions) := by
    show (if [Js.Value.array items].all capped then applied slots ⟨.seq, [.array items]⟩ else none) = _
    have hcapped : capped (.array items) = decide (items.length ≤ maxDecisions) := rfl
    rw [applied, asked, List.all_cons, List.all_nil, Bool.and_true, hcapped]
    by_cases hempty : items.isEmpty = true
    · rw [if_pos hempty, if_pos hempty]
      exact ite_self _
    · rw [if_neg hempty, if_neg hempty]
      by_cases hcap : maxDecisions < items.length
      · rw [if_neg (fun hle => absurd (of_decide_eq_true hle) (Nat.not_le.mpr hcap)), if_pos hcap]
      · rw [if_pos (decide_eq_true (Nat.le_of_not_lt hcap)), if_neg hcap]
        cases items.mapM handle? <;> rfl
  rw [heffect, seq_array]
  by_cases hempty : items.length = 0
  · rw [if_pos hempty, if_pos (List.isEmpty_iff_length_eq_zero.mpr hempty)]
    exact gives_fault seqEmpty
  · rw [if_neg hempty, if_neg (fun h => hempty (List.isEmpty_iff_length_eq_zero.mp h))]
    by_cases hcap : maxDecisions < items.length
    · rw [if_pos hcap, if_pos hcap]
      exact gives_fault tooMany
    · rw [if_neg hcap, if_neg hcap]
      exact (tries_consumeAll items).gives (fun reason left => gives_fault reason) fun decisions left => gives_make _

theorem gives_js (invoked : Invoked) :
    Gives (Language.call .js invoked) slots (Language.applied .js slots invoked) := by
  obtain ⟨name, args⟩ := invoked
  cases name with
  | onCounter =>
      rcases args with _ | ⟨missing, _ | ⟨onZero, _ | ⟨other, _ | ⟨more, rest⟩⟩⟩⟩
      · exact gives_misuse _ rfl
      · exact gives_misuse _ (by cases missing <;> rfl)
      · exact gives_misuse _ (by cases missing <;> cases onZero <;> rfl)
      · rw [applied_js_onCounter]
        exact gives_onCounter missing onZero other
      · exact gives_misuse _ (by cases missing <;> cases onZero <;> cases other <;> rfl)
  | tool =>
      rcases args with _ | ⟨name, _ | ⟨input, _ | ⟨more, rest⟩⟩⟩
      · exact gives_misuse _ rfl
      · cases name with
        | string name =>
            exact gives_makeNamed (.tool name "") name "" toolName rfl (by rw [List.all_cons, List.all_nil]; rfl)
        | handle | array | foreign => exact gives_misuse _ rfl
      · cases name with
        | string name =>
            cases input with
            | string input =>
                exact gives_makeNamed (.tool name input) name input toolName rfl
                  (by simp only [List.all_cons, List.all_nil, Bool.and_true])
            | handle | array | foreign => exact gives_misuse _ rfl
        | handle | array | foreign => exact gives_misuse _ rfl
      · exact gives_misuse _ (by cases name <;> cases input <;> rfl)
  | spawnAgent =>
      rcases args with _ | ⟨agent, _ | ⟨input, _ | ⟨more, rest⟩⟩⟩
      · exact gives_misuse _ rfl
      · exact gives_misuse _ (by cases agent <;> rfl)
      · cases agent with
        | string agent =>
            cases input with
            | string input =>
                exact gives_makeNamed (.spawnAgent agent input) agent input agentName rfl
                  (by simp only [List.all_cons, List.all_nil, Bool.and_true])
            | handle | array | foreign => exact gives_misuse _ rfl
        | handle | array | foreign => exact gives_misuse _ rfl
      · exact gives_misuse _ (by cases agent <;> cases input <;> rfl)
  | seq =>
      rcases args with _ | ⟨items, _ | ⟨more, rest⟩⟩
      · exact gives_misuse _ rfl
      · cases items with
        | array items => exact gives_seq items
        | string | handle | foreign => exact gives_misuse _ rfl
      · cases items with
        | array | string | handle | foreign => exact gives_misuse _ rfl
  | complete =>
      cases args with
      | nil => exact gives_make _
      | cons => exact gives_misuse _ rfl
  | fail =>
      cases args with
      | nil => exact gives_make _
      | cons => exact gives_misuse _ rfl

theorem gives_call (language : Language) (slots : List (Option Decision)) (invoked : Invoked) :
    Gives (language.call invoked) slots (language.applied slots invoked) := by
  cases language with
  | rhai => exact gives_rhai invoked
  | js => exact gives_js invoked

/-! ### A fault stays -/

/-- The first fault is the one that is kept. -/
def Persists (call : Call α) : Prop :=
  ∀ builder message, builder.fault = some message → (call builder).2.fault = some message

theorem Persists.bind (h : Persists call) (hnext : ∀ answer, Persists (next answer)) : Persists (call >>= next) := by
  intro builder message hfault
  have hlater := h builder message hfault
  simp only [Bind.bind, ExceptT.bind, ExceptT.mk, ExceptT.bindCont, StateT.bind]
  generalize call builder = ended at hlater
  obtain ⟨error | answer, later⟩ := ended
  · exact hlater
  · exact hnext answer later message hlater

theorem Persists.ite {condition : Prop} [Decidable condition] {yes no : Call α} (hyes : Persists yes)
    (hno : Persists no) :
    Persists (if condition then yes else no) := by
  split
  · exact hyes
  · exact hno

theorem persists_pure (answer : α) : Persists (pure answer) := fun _ _ hfault => hfault

theorem persists_fault (message : String) : Persists (fault message : Call α) := by
  intro builder first hfault
  show some (builder.fault.getD message) = some first
  rw [hfault]
  rfl

theorem persists_make (decision : Decision) : Persists (make decision) := by
  intro builder message hfault
  show ((if maxDecisions ≤ builder.nodes.length then fault tooMany else _ : Call Nat) builder).2.fault = some message
  split
  · exact persists_fault tooMany builder message hfault
  · exact hfault

theorem persists_take (node : Nat) : Persists (take node) := by
  intro builder message hfault
  rw [take_eq]
  rcases builder.nodes[node]? with _ | _ | decision
  · exact persists_fault usedTwice builder message hfault
  · exact persists_fault usedTwice builder message hfault
  · exact hfault

theorem persists_takeAll (items : List (Option Nat)) : Persists (takeAll items) := by
  induction items with
  | nil => exact persists_pure []
  | cons item rest ih =>
      cases item with
      | none => exact persists_fault seqItems
      | some node => exact (persists_take node).bind fun decision => ih.bind fun decisions => persists_pure _

theorem persists_rhai (builtin : Rhai.Builtin) : Persists (Rhai.call builtin) := by
  cases builtin with
  | onCounter missing onZero other =>
      exact (persists_take missing).bind fun _ => (persists_take onZero).bind fun _ =>
          (persists_take other).bind fun _ =>
        persists_make _
  | tool name input => exact (persists_fault toolName).ite (persists_make _)
  | spawnAgent agent input => exact (persists_fault agentName).ite (persists_make _)
  | seq items => exact (persists_fault seqEmpty).ite ((persists_takeAll items).bind fun _ => persists_make _)
  | complete => exact persists_make _
  | fail => exact persists_make _
  | misuse name => exact persists_fault _

theorem persists_consume (value : Js.Value) (notDecision : String) : Persists (Js.consume value notDecision) := by
  intro builder message hfault
  cases value with
  | handle node =>
      rw [consume_handle]
      rcases builder.nodes[node]? with _ | _ | decision
      · exact hfault
      · exact hfault
      · exact hfault
  | string | array | foreign => exact hfault

theorem persists_consumeAll (items : List Js.Value) : Persists (Js.consumeAll items) := by
  induction items with
  | nil => exact persists_pure _
  | cons item rest ih =>
      refine (persists_consume item _).bind fun result => ?_
      cases result with
      | error message => exact persists_pure _
      | ok decision =>
          refine ih.bind fun results => ?_
          cases results with
          | error message => exact persists_pure _
          | ok decisions => exact persists_pure _

theorem persists_js (builtin : Js.Builtin) : Persists (Js.call builtin) := by
  have hnamed (decision : Decision) (name input message : String) :
      Persists (Js.makeNamed decision name input message) :=
    (persists_fault message).ite ((persists_fault inputSize).ite (persists_make decision))
  cases builtin with
  | onCounter args =>
      show Persists (Js.onCounter args)
      unfold Js.onCounter
      split
      · refine (persists_consume _ _).bind fun missing => (persists_consume _ _).bind fun onZero =>
          (persists_consume _ _).bind fun other => ?_
        split
        · exact persists_make _
        · exact persists_fault _
        · exact persists_fault _
        · exact persists_fault _
      · exact persists_fault _
  | tool args =>
      show Persists (Js.tool args)
      unfold Js.tool
      split
      · split
        · exact persists_fault _
        · exact hnamed _ _ _ _
      · split
        · exact persists_fault _
        · split
          · exact persists_fault _
          · exact hnamed _ _ _ _
      · exact persists_fault _
  | spawnAgent args =>
      show Persists (Js.spawnAgent args)
      unfold Js.spawnAgent
      split
      · split
        · exact hnamed _ _ _ _
        · exact persists_fault _
      · exact persists_fault _
  | seq args =>
      show Persists (Js.seq args)
      unfold Js.seq
      split
      · refine (persists_fault _).ite ((persists_fault _).ite ((persists_consumeAll _).bind fun results => ?_))
        cases results with
        | ok decisions => exact persists_make _
        | error message => exact persists_fault _
      · exact persists_fault _
  | complete args => exact (persists_make _).ite (persists_fault _)
  | fail args => exact (persists_make _).ite (persists_fault _)

theorem persists_call (language : Language) (invoked : Invoked) : Persists (language.call invoked) := by
  cases language with
  | rhai => exact persists_rhai _
  | js => exact persists_js _

/-! ### A whole script -/

/-- The slots after calls that all make their decisions. -/
def Language.replay (language : Language) (slots : List (Option Decision)) :
    List Invoked → Option (List (Option Decision))
  | [] => some slots
  | invoked :: rest => (language.applied slots invoked).bind fun (_, left) => language.replay left rest

theorem run_append (language : Language) (before after : List Invoked) :
    language.run (before ++ after) =
      after.foldl (fun builder invoked => (language.call invoked builder).2) (language.run before) := by
  cases language with
  | rhai =>
      show (List.map Rhai.overload (before ++ after)).foldl
        (fun builder builtin => (Rhai.call builtin builder).2) .empty = _
      rw [List.map_append, List.foldl_append, List.foldl_map]
      rfl
  | js =>
      show (List.map Js.builtin (before ++ after)).foldl (fun builder builtin => (Js.call builtin builder).2) .empty = _
      rw [List.map_append, List.foldl_append, List.foldl_map]
      rfl

theorem compile_eq (language : Language) (script : List Invoked) (evaluated : Option String) :
    language.compile script evaluated = compiled (language.run script) evaluated := by
  cases language <;> rfl

theorem replay_append {language : Language} {before after : List Invoked} :
    language.replay slots (before ++ after) = (language.replay slots before).bind fun left =>
      language.replay left after := by
  induction before generalizing slots with
  | nil => rfl
  | cons invoked rest ih =>
      rw [List.cons_append, Language.replay, Language.replay]
      cases language.applied slots invoked with
      | none => rfl
      | some made => exact ih

theorem replay_snoc {language : Language} {before : List Invoked} : language.replay slots (before ++ [invoked]) =
    (language.replay slots before).bind fun left => (language.applied left invoked).map Prod.snd := by
  rw [replay_append]
  cases language.replay slots before with
  | none => rfl
  | some left =>
      rw [Option.bind_some, Option.bind_some, Language.replay]
      cases language.applied left invoked <;> rfl

/-- The call `invoked` is the script's first to fault, with this message. -/
structure FaultsAt (language : Language) (script : List Invoked) (before : List Invoked)
    (invoked : Invoked) (message : String) :
    Prop where
  here : ∃ after, script = before ++ invoked :: after
  unfaulted : (language.run before).fault = none
  raised : ∃ later, language.call invoked (language.run before) = (.error message, later)

/-- A script's calls all make their decisions, or one is the first to fault and its message stays. -/
theorem run_replay (language : Language) (script : List Invoked) :
    match language.replay [] script with
    | some left => language.run script = ⟨left, none⟩ ∧ ∀ before invoked after, script = before ++ invoked :: after →
        ∃ node later, language.call invoked (language.run before) = (.ok node, later)
    | none => ∃ before invoked message, FaultsAt language script before invoked message ∧
        (language.run script).fault = some message := by
  induction script using List.reverseRecOn with
  | nil =>
      refine ⟨by cases language <;> rfl, fun before invoked after heq => ?_⟩
      cases before <;> cases heq
  | append_singleton script invoked ih =>
      have hrun : language.run (script ++ [invoked]) = (language.call invoked (language.run script)).2 :=
        run_append language script [invoked]
      rw [replay_snoc]
      cases hreplay : language.replay [] script with
      | none =>
          rw [hreplay] at ih
          obtain ⟨before, first, message, ⟨⟨after, rfl⟩, hunfaulted, hraised⟩, hfault⟩ := ih
          refine ⟨before, first, message, ⟨⟨after ++ [invoked], by simp⟩, hunfaulted, hraised⟩, ?_⟩
          rw [hrun]
          exact persists_call language invoked _ message hfault
      | some left =>
          rw [hreplay] at ih
          obtain ⟨hleft, hcalls⟩ := ih
          have hgives := gives_call language left invoked
          rw [Option.bind_some]
          cases happlied : language.applied left invoked with
          | none =>
              rw [happlied] at hgives
              obtain ⟨message, later, hcall⟩ := hgives
              rw [← hleft] at hcall
              refine ⟨script, invoked, message, ⟨⟨[], rfl⟩, by rw [hleft], _, hcall⟩, ?_⟩
              rw [hrun, hcall]
          | some made =>
              obtain ⟨node, after⟩ := made
              rw [happlied] at hgives
              have hcall : language.call invoked (language.run script) = (.ok node, ⟨after, none⟩) := by
                rw [hleft]; exact hgives
              refine ⟨by rw [hrun, hcall], fun before other rest heq => ?_⟩
              rcases List.eq_nil_or_concat rest with rfl | ⟨rest, last, rfl⟩
              · obtain ⟨rfl, hsame⟩ := List.append_inj' heq rfl
                cases hsame
                exact ⟨node, _, hcall⟩
              · rw [List.concat_eq_append, ← List.cons_append, ← List.append_assoc] at heq
                obtain ⟨rfl, -⟩ := List.append_inj' heq rfl
                exact hcalls before other rest rfl

/-- No call of a script that compiles faults. -/
theorem replay_of_compile {language : Language} {script : List Invoked} {evaluated : Option String}
    {program : WorkflowProgram} (h : language.compile script evaluated = .ok program) :
    ∃ left, language.replay [] script = some left ∧ left.filterMap id = [program.root] := by
  have hrun := run_replay language script
  rw [compile_eq] at h
  cases hreplay : language.replay [] script with
  | none =>
      rw [hreplay] at hrun
      obtain ⟨before, invoked, message, -, hfault⟩ := hrun
      unfold compiled at h
      rw [hfault] at h
      cases h
  | some left =>
      rw [hreplay] at hrun
      rw [hrun.1] at h
      refine ⟨left, rfl, ?_⟩
      cases evaluated with
      | some message => cases h
      | none =>
          unfold compiled at h
          dsimp only at h
          split at h
          · rename_i hroot
            cases h
            exact hroot
          · cases h

end Script

end Gol
