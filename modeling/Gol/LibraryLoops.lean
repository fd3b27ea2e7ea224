import Gol.LibraryFallible

/-! Loops that end because each turn makes something smaller. The loop of a computation that can fail has as many
turns as it is given, and stops with an error when they run out. -/

namespace Gol.Library

/-- How one turn of a loop ends. -/
inductive LoopTurn (σ ρ : Type) where
  | again (next : σ)
  | done (result : ρ)

section

variable {σ ρ : Type} {size : σ → Nat} {body : σ → LoopTurn σ (Option ρ)}

/-- The loop, for at most this many turns. -/
def spin (body : σ → LoopTurn σ (Option ρ)) : Nat → σ → Option ρ
  | 0, _ => none
  | turns + 1, start =>
      match body start with
      | .again next => spin body turns next
      | .done result => result

/-- The loop from `start`, where each turn makes `size` smaller. -/
def iterate (size : σ → Nat) (body : σ → LoopTurn σ (Option ρ)) (start : σ) : Option ρ :=
  spin body (size start + 1) start

theorem spin_eq (hsmaller : ∀ start next, body start = .again next → size next < size start) :
    ∀ {turns start}, size start < turns → spin body turns start = iterate size body start := by
  suffices hsame : ∀ turns other start, size start < turns → size start < other →
      spin body turns start = spin body other start by
    intro turns start h
    exact hsame _ _ _ h (Nat.lt_succ_self _)
  intro turns
  induction turns with
  | zero => exact fun other start h => absurd h (Nat.not_lt_zero _)
  | succ turns ih =>
      intro other start hturns hother
      cases other with
      | zero => exact absurd hother (Nat.not_lt_zero _)
      | succ other =>
          rw [spin, spin]
          cases hbody : body start with
          | done result => rfl
          | again next =>
              have hnext := hsmaller start next hbody
              exact ih other next (by omega) (by omega)

theorem iterate_eq (hsmaller : ∀ start next, body start = .again next → size next < size start) (start : σ) :
    iterate size body start = match body start with
      | .again next => iterate size body next
      | .done result => result := by
  rw [iterate, spin]
  cases hbody : body start with
  | done result => rfl
  | again next => exact spin_eq hsmaller (hsmaller start next hbody)

end

section

variable {σ ι : Type} {size : σ → Nat} {next : σ → Option (Option (ι × σ))}

/-- The items that `next` takes off `start` one after the other, for at most this many turns. It fails where `next`
does. -/
def gather (next : σ → Option (Option (ι × σ))) : Nat → σ → Option (List ι)
  | 0, _ => none
  | turns + 1, start =>
      (next start).bind fun
        | none => some []
        | some (item, rest) => (gather next turns rest).map fun items => item :: items

/-- All the items of `start`, where each one taken off makes `size` smaller. -/
def itemsOf (size : σ → Nat) (next : σ → Option (Option (ι × σ))) (start : σ) : Option (List ι) :=
  gather next (size start + 1) start

theorem gather_eq (hsmaller : ∀ start item rest, next start = some (some (item, rest)) → size rest < size start) :
    ∀ {turns start}, size start < turns → gather next turns start = itemsOf size next start := by
  suffices hsame : ∀ turns other start, size start < turns → size start < other →
      gather next turns start = gather next other start by
    intro turns start h
    exact hsame _ _ _ h (Nat.lt_succ_self _)
  intro turns
  induction turns with
  | zero => exact fun other start h => absurd h (Nat.not_lt_zero _)
  | succ turns ih =>
      intro other start hturns hother
      cases other with
      | zero => exact absurd hother (Nat.not_lt_zero _)
      | succ other =>
          rw [gather, gather]
          rcases hnext : next start with _ | (_ | ⟨item, rest⟩)
          · rfl
          · rfl
          · have hrest := hsmaller start item rest hnext
            show Option.map _ (gather next turns rest) = Option.map _ (gather next other rest)
            rw [ih other rest (by omega) (by omega)]

theorem itemsOf_eq (hsmaller : ∀ start item rest, next start = some (some (item, rest)) → size rest < size start)
    (start : σ) :
    itemsOf size next start = (next start).bind fun
      | none => some []
      | some (item, rest) => (itemsOf size next rest).map fun items => item :: items := by
  rw [itemsOf, gather]
  rcases hnext : next start with _ | (_ | ⟨item, rest⟩)
  · rfl
  · rfl
  · show Option.map _ (gather next (size start) rest) = _
    rw [gather_eq hsmaller (hsmaller start item rest hnext)]
    rfl

end

namespace Fallible

variable {σ ε τ ρ : Type}

/-- A loop of at most this many turns, which fails as `exhausted` where it needs more. -/
def loop (exhausted : ε) (body : τ → Fallible σ ε (LoopTurn τ ρ)) : Nat → τ → Fallible σ ε ρ
  | 0, _ => throw exhausted
  | turns + 1, start => do
      match ← body start with
      | .again next => loop exhausted body turns next
      | .done result => pure result

/-- A loop whose turns keep an invariant and make `size` smaller ends as its last turn says. -/
theorem ends_loop {exhausted : ε} {body : τ → Fallible σ ε (LoopTurn τ ρ)} (size : τ → σ → Nat)
    (invariant : τ → σ → Prop) (post : Except ε ρ → σ → Prop)
    (hbody : ∀ start state, invariant start state → Ends (body start) state fun outcome next => match outcome with
      | .ok (.again later) => invariant later next ∧ size later next < size start state
      | .ok (.done result) => post (.ok result) next
      | .error error => post (.error error) next) :
    ∀ {turns start state}, invariant start state → size start state < turns →
      Ends (loop exhausted body turns start) state post := by
  intro turns
  induction turns with
  | zero => exact fun _ h => absurd h (Nat.not_lt_zero _)
  | succ turns ih =>
      intro start state hinvariant hturns
      rw [loop, ends_bind]
      refine (hbody start state hinvariant).mono fun outcome next hturn => ?_
      rcases outcome with error | (later | result)
      · exact hturn
      · exact ih hturn.1 (by omega)
      · exact hturn

end Fallible

end Gol.Library
