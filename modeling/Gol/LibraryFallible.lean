/-! Computations over a state that can fail. What a computation did to the state before it failed stays done. -/

namespace Gol.Library

abbrev Fallible (σ ε α : Type) : Type := ExceptT ε (StateM σ) α

namespace Fallible

variable {σ ε α β : Type} {computation : Fallible σ ε α} {state : σ} {post weaker : Except ε α → σ → Prop}

/-- Run from `state`, the computation ends with an outcome and a state that meet `post`. -/
def Ends (computation : Fallible σ ε α) (state : σ) (post : Except ε α → σ → Prop) : Prop :=
  post (computation.run.run state).1 (computation.run.run state).2

theorem Ends.mono (h : Ends computation state post)
    (hweaker : ∀ outcome next, post outcome next → weaker outcome next) :
    Ends computation state weaker :=
  hweaker _ _ h

@[simp]
theorem ends_pure {value : α} : Ends (pure value) state post ↔ post (.ok value) state := Iff.rfl

@[simp]
theorem ends_throw {error : ε} : Ends (throw error) state post ↔ post (.error error) state := Iff.rfl

@[simp]
theorem ends_get {post : Except ε σ → σ → Prop} : Ends get state post ↔ post (.ok state) state := Iff.rfl

@[simp]
theorem ends_set {next : σ} {post : Except ε PUnit → σ → Prop} :
    Ends (set next) state post ↔ post (.ok ⟨⟩) next := Iff.rfl

@[simp]
theorem ends_modify {change : σ → σ} {post : Except ε PUnit → σ → Prop} :
    Ends (modify change) state post ↔ post (.ok ⟨⟩) (change state) := Iff.rfl

@[simp]
theorem ends_bind {rest : α → Fallible σ ε β} {post : Except ε β → σ → Prop} :
    Ends (computation >>= rest) state post ↔ Ends computation state fun outcome next =>
      match outcome with
      | .ok value => Ends (rest value) next post
      | .error error => post (.error error) next := by
  show Ends (ExceptT.bind computation rest) state post ↔ _
  simp only [Ends, ExceptT.bind, ExceptT.mk, ExceptT.run, StateT.run, bind, StateT.bind, ExceptT.bindCont]
  generalize computation state = ended
  obtain ⟨outcome, next⟩ := ended
  cases outcome <;> rfl

@[simp]
theorem ends_tryCatch {handler : ε → Fallible σ ε α} :
    Ends (tryCatch computation handler) state post ↔ Ends computation state fun outcome next =>
      match outcome with
      | .ok value => post (.ok value) next
      | .error error => Ends (handler error) next post := by
  show Ends (ExceptT.tryCatch computation handler) state post ↔ _
  simp only [Ends, ExceptT.tryCatch, ExceptT.mk, ExceptT.run, StateT.run, bind, StateT.bind]
  generalize computation state = ended
  obtain ⟨outcome, next⟩ := ended
  cases outcome <;> rfl

/-! ### Steps -/

/-- However the computation ends, its state has moved by `relation`. -/
def Moves (relation : σ → σ → Prop) (computation : Fallible σ ε α) : Prop :=
  ∀ state, Ends computation state fun _ next => relation state next

variable {relation : σ → σ → Prop}

theorem Moves.bind {rest : α → Fallible σ ε β} (htrans : ∀ a b c, relation a b → relation b c → relation a c)
    (h : Moves relation computation) (hrest : ∀ value, Moves relation (rest value)) :
    Moves relation (computation >>= rest) := by
  intro state
  rw [ends_bind]
  refine (h state).mono fun outcome next hmoved => ?_
  cases outcome with
  | error error => exact hmoved
  | ok value => exact (hrest value next).mono fun _ _ hlater => htrans _ _ _ hmoved hlater

theorem Moves.tryCatch {handler : ε → Fallible σ ε α} (htrans : ∀ a b c, relation a b → relation b c → relation a c)
    (h : Moves relation computation) (hhandler : ∀ error, Moves relation (handler error)) :
    Moves relation (tryCatch computation handler) := by
  intro state
  rw [ends_tryCatch]
  refine (h state).mono fun outcome next hmoved => ?_
  cases outcome with
  | ok value => exact hmoved
  | error error => exact (hhandler error next).mono fun _ _ hlater => htrans _ _ _ hmoved hlater

end Fallible

end Gol.Library
