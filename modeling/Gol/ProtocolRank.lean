import Mathlib.Data.Prod.Lex
import Gol.ProtocolReduce

/-! The harness's state machine over any events at all. `Moves` lists what `reduce` can change; each move keeps the
step and the attempt in bounds and lowers a lexicographic rank, so a log changes its harness only so often. -/

namespace Gol

namespace HarnessState

/-- The step and the attempt a state carries are ones the limits allow; a tool is called only at a step of them. -/
def Valid (maxSteps : UInt32) : HarnessState → Prop
  | .running step attempt _ | .waitingForMessage step attempt _ =>
      1 ≤ step.toNat ∧ step.toNat ≤ max 1 maxSteps.toNat ∧ attempt.toNat ≤ maxRetries.toNat
  | .waitingForTool step attempt _ _ =>
      1 ≤ step.toNat ∧ step.toNat ≤ maxSteps.toNat ∧ attempt.toNat ≤ maxRetries.toNat
  | _ => True

/-- The rank of a running or waiting state: the steps left, the retries left, and `phase`, 3 while unanswered, 2
while waiting and 1 once answered. -/
def activeRank (maxSteps step attempt : UInt32) (phase : Nat) : Nat ×ₗ Int ×ₗ Int ×ₗ Nat :=
  toLex (1, toLex ((maxSteps.toNat : Int) - step.toNat, toLex ((maxRetries.toNat : Int) - attempt.toNat, phase)))

def rank (maxSteps : UInt32) : HarnessState → Nat ×ₗ Int ×ₗ Int ×ₗ Nat
  | .completed _ | .failed _ _ | .cancelled => toLex (0, toLex (0, toLex (0, 0)))
  | .idle => toLex (2, toLex (0, toLex (0, 0)))
  | .running step attempt answered => activeRank maxSteps step attempt (if answered then 1 else 3)
  | .waitingForTool step attempt _ _ | .waitingForMessage step attempt _ => activeRank maxSteps step attempt 2

/-- The step and the attempt of a running or waiting state. -/
def position : HarnessState → Option (Nat × Nat)
  | .running step attempt _ | .waitingForTool step attempt _ _ | .waitingForMessage step attempt _ =>
      some (step.toNat, attempt.toNat)
  | _ => none

/-- The changes `reduce` can make. -/
inductive Moves (maxSteps : UInt32) : HarnessState → HarnessState → Prop
  | start : Moves maxSteps .idle (.running 1 0 false)
  | call {step attempt : UInt32} (name : String) (invocation : InvocationId) (hfirst : 1 ≤ step)
      (hlast : step ≤ maxSteps) :
      Moves maxSteps (.running step attempt false) (.waitingForTool step attempt name invocation)
  | ask {step attempt : UInt32} (messageId : MessageId) :
      Moves maxSteps (.running step attempt false) (.waitingForMessage step attempt messageId)
  | result {step attempt : UInt32} {name : String} {invocation : InvocationId} :
      Moves maxSteps (.waitingForTool step attempt name invocation) (.running step attempt true)
  | answer {step attempt : UInt32} {messageId : MessageId} :
      Moves maxSteps (.waitingForMessage step attempt messageId) (.running step attempt true)
  | retry {step attempt : UInt32} (h : attempt < maxRetries) :
      Moves maxSteps (.running step attempt true) (.running step (attempt + 1) false)
  | advance {step attempt : UInt32} (h : step < maxSteps) :
      Moves maxSteps (.running step attempt true) (.running (step + 1) 0 false)
  | finish {state ended : HarnessState} (hactive : state.position ≠ none) (hended : ended.isTerminal = true) :
      Moves maxSteps state ended

end HarnessState

open HarnessState

variable {spec : RunSpec} {state : HarnessState} {payload : EventPayload}

theorem answerAsk_moves (state : HarnessState) (messageId : MessageId) (maxSteps : UInt32) :
    (answerAsk state messageId).1 = state ∨ Moves maxSteps state (answerAsk state messageId).1 := by
  unfold answerAsk
  split
  · split
    · exact .inr .answer
    · exact .inl rfl
  · exact .inl rfl

theorem onAsked_moves (state : HarnessState) (messageId : MessageId) (maxSteps : UInt32) :
    (onAsked state messageId).1 = state ∨ Moves maxSteps state (onAsked state messageId).1 := by
  unfold onAsked
  split
  · exact .inr (.ask messageId)
  · exact .inl rfl

theorem onEnd_moves (state : HarnessState) {ended : HarnessState} (h : ended.isTerminal = true) (maxSteps : UInt32) :
    (onEnd state ended).1 = state ∨ Moves maxSteps state (onEnd state ended).1 := by
  cases state with
  | running _ _ _ | waitingForTool _ _ _ _ | waitingForMessage _ _ _ => exact .inr (.finish (by simp [position]) h)
  | _ => exact .inl rfl

theorem onAuthorized_moves (state : HarnessState) (effect : Effect) (spec : RunSpec) :
    (onAuthorized state effect spec).1 = state ∨
      Moves spec.limits.maxSteps state (onAuthorized state effect spec).1 := by
  unfold onAuthorized
  split
  · exact .inl rfl
  · next happ =>
      cases state with
      | running step attempt answered =>
          cases effect with
          | toolCall name input invocation =>
              simp only [applicable, Bool.not_eq_true', Bool.and_eq_false_imp] at happ
              cases answered with
              | true => simp at happ
              | false =>
                  simp only [decide_eq_true_eq, forall_const, decide_eq_false_iff_not, not_forall,
                    Decidable.not_not, exists_prop] at happ
                  exact .inr (.call name invocation happ.1 happ.2)
          | complete outcome => exact .inr (.finish (by simp [position]) rfl)
          | _ => exact .inl rfl
      | _ => exact .inl rfl

/-- Everything `reduce` can do to the harness. -/
theorem reduce_moves (state : HarnessState) (payload : EventPayload) (spec : RunSpec) :
    (reduce state payload spec).1 = state ∨ Moves spec.limits.maxSteps state (reduce state payload spec).1 := by
  by_cases hterminal : state.isTerminal = true
  · exact .inl (by simp [reduce, hterminal])
  simp only [reduce, hterminal, Bool.false_eq_true, ↓reduceIte]
  cases payload with
  | runStarted => cases state with
    | idle => exact .inr .start
    | _ => exact .inl rfl
  | effectAuthorized effect => exact onAuthorized_moves state effect spec
  | toolResult name invocation step attempt output =>
      cases state with
      | waitingForTool waitingStep waitingAttempt waitingName waitingInvocation =>
          dsimp only
          split
          · exact .inr .result
          · exact .inl rfl
      | _ => exact .inl rfl
  | messageSent messageId toAgent expectsReply =>
      cases expectsReply with
      | true => exact onAsked_moves state messageId _
      | false => exact .inl rfl
  | userAsked messageId prompt => exact onAsked_moves state messageId _
  | messageReceived messageId fromAgent fromRun body replyTo =>
      cases replyTo with
      | some replyTo => exact answerAsk_moves state replyTo _
      | none => exact .inl rfl
  | askTimedOut messageId => exact answerAsk_moves state messageId _
  | userAnswered messageId text => exact answerAsk_moves state messageId _
  | stepRetried =>
      dsimp only
      split
      · split
        · next h => exact .inr (.retry h)
        · exact .inl rfl
      · exact .inl rfl
  | stepAdvanced =>
      dsimp only
      split
      · split
        · next h => exact .inr (.advance h)
        · exact .inl rfl
      · exact .inl rfl
  | runCompleted outcome =>
      cases state with
      | running step attempt answered => exact .inr (.finish (by simp [position]) rfl)
      | _ => exact .inl rfl
  | runFailed cls message => exact onEnd_moves state rfl _
  | runCancelled => exact onEnd_moves state rfl _
  | runExpired => exact onEnd_moves state rfl _
  | _ => exact .inl rfl

/-! ### What a move keeps and lowers -/

theorem maxRetries_toNat : maxRetries.toNat = 2 := rfl

theorem toNat_succ_of_lt {a b : UInt32} (h : a < b) : (a + 1).toNat = a.toNat + 1 := by
  have hlt : a.toNat < b.toNat := h
  have hbound := b.toNat_lt
  rw [UInt32.toNat_add, UInt32.toNat_one, Nat.mod_eq_of_lt (by omega)]

namespace HarnessState

variable {maxSteps : UInt32} {next : HarnessState}

theorem Moves.valid (h : Moves maxSteps state next) (hvalid : state.Valid maxSteps) : next.Valid maxSteps := by
  cases h with
  | start => exact ⟨le_refl _, le_max_left _ _, Nat.zero_le _⟩
  | call name invocation hfirst hlast => exact ⟨hfirst, hlast, hvalid.2.2⟩
  | ask messageId => exact hvalid
  | result => exact ⟨hvalid.1, hvalid.2.1.trans (le_max_right _ _), hvalid.2.2⟩
  | answer => exact hvalid
  | retry h =>
      obtain ⟨hfirst, hlast, -⟩ := hvalid
      refine ⟨hfirst, hlast, ?_⟩
      rw [toNat_succ_of_lt h]
      exact h
  | @advance step attempt h =>
      have hlt : step.toNat < maxSteps.toNat := h
      have hstep : (step + 1).toNat = step.toNat + 1 := toNat_succ_of_lt h
      exact ⟨by omega, by omega, Nat.zero_le _⟩
  | finish hactive hended =>
      cases next with
      | completed _ | failed _ _ | cancelled => trivial
      | _ => cases hended

/-- `activeRank` drops with the steps left, then with the retries left, then with the phase. -/
theorem activeRank_lt {step attempt step' attempt' : UInt32} {phase phase' : Nat}
    (h : step.toNat < step'.toNat ∨ step.toNat = step'.toNat ∧
      (attempt.toNat < attempt'.toNat ∨ attempt.toNat = attempt'.toNat ∧ phase' < phase)) :
    activeRank maxSteps step' attempt' phase' < activeRank maxSteps step attempt phase := by
  simp only [activeRank, Prod.Lex.toLex_lt_toLex, lt_self_iff_false, true_and, false_or]
  omega

/-- Every change lowers the rank. -/
theorem Moves.rank_lt (h : Moves maxSteps state next) : next.rank maxSteps < state.rank maxSteps := by
  cases h with
  | start => exact Prod.Lex.toLex_lt_toLex.mpr (.inl Nat.one_lt_two)
  | call name invocation hfirst hlast => exact activeRank_lt (.inr ⟨rfl, .inr ⟨rfl, by decide⟩⟩)
  | ask messageId => exact activeRank_lt (.inr ⟨rfl, .inr ⟨rfl, by decide⟩⟩)
  | result => exact activeRank_lt (.inr ⟨rfl, .inr ⟨rfl, by decide⟩⟩)
  | answer => exact activeRank_lt (.inr ⟨rfl, .inr ⟨rfl, by decide⟩⟩)
  | retry h =>
      have hattempt := toNat_succ_of_lt h
      exact activeRank_lt (.inr ⟨rfl, .inl (by omega)⟩)
  | advance h =>
      have hstep := toNat_succ_of_lt h
      exact activeRank_lt (.inl (by omega))
  | finish hactive hended =>
      have hended : next.rank maxSteps = toLex (0, toLex (0, toLex (0, 0))) := by
        cases next with
        | completed _ | failed _ _ | cancelled => rfl
        | _ => cases hended
      rw [hended]
      cases state with
      | running _ _ _ | waitingForTool _ _ _ _ | waitingForMessage _ _ _ =>
          exact Prod.Lex.toLex_lt_toLex.mpr (.inl Nat.zero_lt_one)
      | _ => exact absurd rfl hactive

/-- How many changes a running or waiting state is still good for. -/
def activeLeft (maxSteps step attempt : UInt32) (phase : Nat) : Nat :=
  9 * (max 1 maxSteps.toNat - step.toNat) + 3 * (maxRetries.toNat - attempt.toNat) + phase

/-- How many changes a state is still good for. -/
def changesLeft (maxSteps : UInt32) : HarnessState → Nat
  | .completed _ | .failed _ _ | .cancelled => 0
  | .idle => 1 + 3 * (maxRetries.toNat + 1) * max 1 maxSteps.toNat
  | .running step attempt answered => activeLeft maxSteps step attempt (if answered then 1 else 3)
  | .waitingForTool step attempt _ _ | .waitingForMessage step attempt _ => activeLeft maxSteps step attempt 2

theorem Moves.changesLeft_lt (h : Moves maxSteps state next) (hvalid : state.Valid maxSteps) :
    next.changesLeft maxSteps < state.changesLeft maxSteps := by
  cases h with
  | start =>
      have hone : (1 : UInt32).toNat = 1 := rfl
      have hzero : (0 : UInt32).toNat = 0 := rfl
      simp only [changesLeft, activeLeft, maxRetries_toNat, hone, hzero, Bool.false_eq_true, ↓reduceIte]
      omega
  | call name invocation hfirst hlast => simp [changesLeft, activeLeft]
  | ask messageId => simp [changesLeft, activeLeft]
  | result => simp [changesLeft, activeLeft]
  | answer => simp [changesLeft, activeLeft]
  | @retry step attempt h =>
      have hattempt := toNat_succ_of_lt h
      have hlt : attempt.toNat < maxRetries.toNat := h
      simp only [changesLeft, activeLeft, hattempt, Bool.false_eq_true, ↓reduceIte]
      omega
  | @advance step attempt h =>
      have hstep := toNat_succ_of_lt h
      have hlt : step.toNat < maxSteps.toNat := h
      have hzero : (0 : UInt32).toNat = 0 := rfl
      simp only [changesLeft, activeLeft, hstep, hzero, maxRetries_toNat, Bool.false_eq_true, ↓reduceIte]
      omega
  | finish hactive hended =>
      have hended : next.changesLeft maxSteps = 0 := by
        cases next with
        | completed _ | failed _ _ | cancelled => rfl
        | _ => cases hended
      rw [hended]
      cases state with
      | running step attempt answered => cases answered <;> simp [changesLeft, activeLeft]
      | waitingForTool _ _ _ _ | waitingForMessage _ _ _ => simp [changesLeft, activeLeft]
      | _ => exact absurd rfl hactive

end HarnessState

/-! ### Whole logs -/

/-- How many of the payloads change the harness, from `state` on. -/
def changes (spec : RunSpec) : HarnessState → List EventPayload → Nat
  | _, [] => 0
  | state, payload :: rest =>
      (if (reduce state payload spec).1 = state then 0 else 1) + changes spec (reduce state payload spec).1 rest

theorem reduce_valid (h : state.Valid spec.limits.maxSteps) (payload : EventPayload) :
    (reduce state payload spec).1.Valid spec.limits.maxSteps := by
  rcases reduce_moves state payload spec with hsame | hmoves
  · rwa [hsame]
  · exact hmoves.valid h

theorem harnessOf_valid (spec : RunSpec) (log : List EventPayload) :
    (harnessOf spec log).Valid spec.limits.maxSteps := by
  induction log using List.reverseRecOn with
  | nil => trivial
  | append_singleton log payload ih => exact harnessOf_snoc spec log payload ▸ reduce_valid ih payload

theorem changes_le_changesLeft (spec : RunSpec) (log : List EventPayload) {state : HarnessState}
    (h : state.Valid spec.limits.maxSteps) : changes spec state log ≤ state.changesLeft spec.limits.maxSteps := by
  induction log generalizing state with
  | nil => exact Nat.zero_le _
  | cons payload rest ih =>
      have hrest := ih (reduce_valid h payload)
      rw [changes]
      split
      · next hsame =>
          rw [hsame] at hrest
          rw [hsame]
          omega
      · next hchanged =>
          have hlt := ((reduce_moves state payload spec).resolve_left hchanged).changesLeft_lt h
          omega

/-- What one event does to a harness: nothing to one that has ended, and to any other nothing, or a change that
lowers its rank; the number it counts up, if any, grows by one. -/
structure HarnessState.Lowers (spec : RunSpec) (state : HarnessState) (payload : EventPayload) : Prop where
  stuck : state.isTerminal = true → reduce state payload spec = (state, [])
  lowers : (reduce state payload spec).1 ≠ state →
    (reduce state payload spec).1.rank spec.limits.maxSteps < state.rank spec.limits.maxSteps
  retried : payload = .stepRetried → (reduce state payload spec).1 ≠ state →
    ∃ step attempt, state.position = some (step, attempt) ∧
      (reduce state payload spec).1.position = some (step, attempt + 1)
  advanced : payload = .stepAdvanced → (reduce state payload spec).1 ≠ state →
    ∃ step attempt, state.position = some (step, attempt) ∧
      (reduce state payload spec).1.position = some (step + 1, 0)

theorem reduce_retried (h : (reduce state .stepRetried spec).1 ≠ state) :
    ∃ step attempt, state.position = some (step, attempt) ∧
      (reduce state .stepRetried spec).1.position = some (step, attempt + 1) := by
  cases state with
  | running step attempt answered =>
      cases answered with
      | false => exact absurd rfl h
      | true =>
          by_cases hlt : attempt < maxRetries
          · refine ⟨step.toNat, attempt.toNat, rfl, ?_⟩
            simp [reduce, HarnessState.isTerminal, hlt, position, toNat_succ_of_lt hlt]
          · simp [reduce, HarnessState.isTerminal, hlt] at h
  | _ => exact absurd rfl h

theorem reduce_advanced (h : (reduce state .stepAdvanced spec).1 ≠ state) :
    ∃ step attempt, state.position = some (step, attempt) ∧
      (reduce state .stepAdvanced spec).1.position = some (step + 1, 0) := by
  cases state with
  | running step attempt answered =>
      cases answered with
      | false => exact absurd rfl h
      | true =>
          by_cases hlt : step < spec.limits.maxSteps
          · refine ⟨step.toNat, attempt.toNat, rfl, ?_⟩
            simp [reduce, HarnessState.isTerminal, hlt, position, toNat_succ_of_lt hlt]
          · simp [reduce, HarnessState.isTerminal, hlt] at h
  | _ => exact absurd rfl h

theorem reduce_lowers (state : HarnessState) (payload : EventPayload) (spec : RunSpec) : state.Lowers spec payload where
  stuck h := by simp [reduce, h]
  lowers h := ((reduce_moves state payload spec).resolve_left h).rank_lt
  retried := by
    rintro rfl h
    exact reduce_retried h
  advanced := by
    rintro rfl h
    exact reduce_advanced h

/-- Over any events, the harness keeps its step and its attempt in bounds, is left alone once it has ended, falls in
rank with every change, counts without wrapping, and changes only so often. -/
theorem harness_bounded (spec : RunSpec) (events : List Event) :
    (fold spec events).harness.Valid spec.limits.maxSteps ∧
    (∀ payload, (fold spec events).harness.Lowers spec payload) ∧
    changes spec .idle (payloads events) ≤ 1 + 3 * (maxRetries.toNat + 1) * max 1 spec.limits.maxSteps.toNat :=
  ⟨harnessOf_valid spec (payloads events), fun payload => reduce_lowers _ payload spec,
    changes_le_changesLeft spec (payloads events) trivial⟩

end Gol
