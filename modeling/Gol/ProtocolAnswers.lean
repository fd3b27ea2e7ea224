import Gol.ProtocolReduce

/-! Late answers. The first answer to an ask moves the harness off it, and nothing but the ask itself moves it back;
so further answers, and answers to asks that were never put, leave the fold of a log as it is, wherever they fall. -/

namespace Gol

/-- The id an event puts, and whether it waits for an answer: a message to another agent, or a question to the user. -/
def askPut : EventPayload → Option (MessageId × Bool)
  | .messageSent id _ expectsReply => some (id, expectsReply)
  | .userAsked id _ => some (id, true)
  | _ => none

/-- The ask an event answers. -/
def answerTo : EventPayload → Option MessageId
  | .messageReceived _ _ _ _ replyTo => replyTo
  | .askTimedOut ask | .userAnswered ask _ => some ask
  | _ => none

/-- The harness waits on `ask`. -/
def HarnessState.WaitsOn (state : HarnessState) (ask : MessageId) : Prop :=
  ∃ step attempt, state = .waitingForMessage step attempt ask

theorem answerAsk_of_not_waits {state : HarnessState} {ask : MessageId} (h : ¬ state.WaitsOn ask) :
    answerAsk state ask = (state, []) := by
  unfold answerAsk
  split
  · next step attempt waiting =>
      split
      · next heq => exact absurd ⟨step, attempt, by rw [heq]⟩ h
      · rfl
  · rfl

theorem answerAsk_of_waits {state : HarnessState} {ask : MessageId} (h : state.WaitsOn ask) :
    ¬ (answerAsk state ask).1.WaitsOn ask := by
  obtain ⟨step, attempt, rfl⟩ := h
  rintro ⟨step', attempt', hwaits⟩
  simp [answerAsk] at hwaits

/-- An answer answers the ask the harness waits on. -/
theorem reduce_answer {payload : EventPayload} {ask : MessageId} (h : answerTo payload = some ask)
    (state : HarnessState) (spec : RunSpec) : reduce state payload spec = answerAsk state ask := by
  cases payload with
  | messageReceived messageId fromAgent fromRun body replyTo =>
      obtain rfl : replyTo = some ask := h
      cases state <;> rfl
  | askTimedOut _ | userAnswered _ _ =>
      obtain rfl := Option.some.inj h
      cases state <;> rfl
  | _ => cases h

theorem foldStep_answer {payload : EventPayload} {ask : MessageId} (h : answerTo payload = some ask) (spec : RunSpec)
    {s : FoldState} (hwaits : ¬ s.harness.WaitsOn ask) : foldStep spec s payload = s := by
  have hharness : (reduce s.harness payload spec).1 = s.harness := by
    rw [reduce_answer h, answerAsk_of_not_waits hwaits]
  have hcount : s.count payload = s := by cases payload <;> first | rfl | cases h
  have hdispatch : reduceDispatch s.dispatch payload = s.dispatch := by
    generalize s.dispatch = phase
    cases payload with
    | messageReceived _ _ _ _ _ | askTimedOut _ | userAnswered _ _ => cases phase <;> rfl
    | _ => cases h
  rw [foldStep, hharness, hcount, hdispatch]

theorem not_waitsOn_of_running {step attempt : UInt32} {answered : Bool} (ask : MessageId) :
    ¬ (HarnessState.running step attempt answered).WaitsOn ask := nofun

theorem onAuthorized_waitsOn {state : HarnessState} {effect : Effect} {spec : RunSpec} {ask : MessageId}
    (h : (onAuthorized state effect spec).1.WaitsOn ask) : state.WaitsOn ask := by
  unfold onAuthorized at h
  split at h
  · exact h
  · cases state with
    | running step attempt answered => cases effect <;> exact absurd h (fun ⟨_, _, heq⟩ => nomatch heq)
    | _ => exact h

theorem onEnd_waitsOn {state ended : HarnessState} (hended : ended.isTerminal = true) {ask : MessageId}
    (h : (onEnd state ended).1.WaitsOn ask) : state.WaitsOn ask := by
  have hnot : ¬ ended.WaitsOn ask := fun ⟨_, _, heq⟩ => by simp [heq, HarnessState.isTerminal] at hended
  cases state with
  | running | waitingForTool | waitingForMessage => exact absurd h hnot
  | _ => exact h

theorem onAsked_waitsOn {state : HarnessState} {put ask : MessageId} (h : (onAsked state put).1.WaitsOn ask) :
    state.WaitsOn ask ∨ put = ask := by
  unfold onAsked at h
  split at h
  · obtain ⟨step, attempt, heq⟩ := h
    cases heq
    exact .inr rfl
  · exact .inl h

theorem answerAsk_waitsOn {state : HarnessState} {answered ask : MessageId}
    (h : (answerAsk state answered).1.WaitsOn ask) :
    state.WaitsOn ask := by
  unfold answerAsk at h
  split at h
  · split at h
    · exact absurd h (not_waitsOn_of_running ask)
    · exact h
  · exact h

/-- Only an event that puts an ask makes the harness wait on it. -/
theorem reduce_waitsOn {state : HarnessState} {payload : EventPayload} {spec : RunSpec} {ask : MessageId}
    (h : (reduce state payload spec).1.WaitsOn ask) : state.WaitsOn ask ∨ askPut payload = some (ask, true) := by
  unfold reduce at h
  split at h
  · exact .inl h
  · cases payload with
    | messageSent messageId toAgent expectsReply =>
        cases expectsReply with
        | true => exact (onAsked_waitsOn h).imp_right fun heq => by rw [← heq]; rfl
        | false => exact .inl h
    | userAsked messageId prompt => exact (onAsked_waitsOn h).imp_right fun heq => by rw [← heq]; rfl
    | messageReceived messageId fromAgent fromRun body replyTo =>
        cases replyTo with
        | none => exact .inl h
        | some replyTo => exact .inl (answerAsk_waitsOn h)
    | askTimedOut _ | userAnswered _ _ => exact .inl (answerAsk_waitsOn h)
    | effectAuthorized effect => exact .inl (onAuthorized_waitsOn h)
    | runFailed | runCancelled | runExpired => exact .inl (onEnd_waitsOn rfl h)
    | runStarted | toolResult | stepRetried | stepAdvanced | runCompleted =>
        left
        revert h
        dsimp only
        repeat' split
        all_goals first
          | exact id
          | exact fun h => absurd h (not_waitsOn_of_running ask)
          | exact fun ⟨_, _, heq⟩ => nomatch heq
    | _ => exact .inl h

/-- `more` is `rest` with further answers to `ask` in it, none of them after an event that puts it again. -/
inductive Reanswered (ask : MessageId) : List Event → List Event → Prop
  | done (rest : List Event) : Reanswered ask rest rest
  | keep {event : Event} {rest more : List Event} (hevent : askPut event.payload ≠ some (ask, true))
      (hrest : Reanswered ask rest more) : Reanswered ask (event :: rest) (event :: more)
  | extra {event : Event} {rest more : List Event} (hevent : answerTo event.payload = some ask)
      (hrest : Reanswered ask rest more) : Reanswered ask rest (event :: more)

namespace Reanswered

variable {spec : RunSpec} {ask : MessageId} {rest more : List Event}

/-- Where the harness does not wait on the ask, further answers to it do nothing. -/
theorem foldl (h : Reanswered ask rest more) {s : FoldState} (hwaits : ¬ s.harness.WaitsOn ask) :
    (payloads more).foldl (foldStep spec) s = (payloads rest).foldl (foldStep spec) s := by
  induction h generalizing s with
  | done rest => rfl
  | @keep event rest more hevent hrest ih =>
      refine ih fun hnext => ?_
      rcases reduce_waitsOn hnext with hbefore | hput
      · exact hwaits hbefore
      · exact hevent hput
  | @extra event rest more hevent hrest ih =>
      calc (payloads (event :: more)).foldl (foldStep spec) s
          = (payloads more).foldl (foldStep spec) (foldStep spec s event.payload) := rfl
        _ = (payloads more).foldl (foldStep spec) s := by rw [foldStep_answer hevent spec hwaits]
        _ = (payloads rest).foldl (foldStep spec) s := ih hwaits

/-- After the answer that the harness waited for. -/
theorem fold_answered (h : Reanswered ask rest more) {before : List Event} {answer : Event}
    (hwaits : (fold spec before).harness.WaitsOn ask) (hanswer : answerTo answer.payload = some ask) :
    fold spec (before ++ answer :: more) = fold spec (before ++ answer :: rest) := by
  have hmoved : ¬ (foldStep spec (foldAll spec (payloads before)) answer.payload).harness.WaitsOn ask := by
    show ¬ (reduce (foldAll spec (payloads before)).harness answer.payload spec).1.WaitsOn ask
    rw [reduce_answer hanswer]
    exact answerAsk_of_waits hwaits
  have hsplit : ∀ after : List Event, foldAll spec (payloads (before ++ answer :: after)) =
      (payloads after).foldl (foldStep spec) (foldStep spec (foldAll spec (payloads before)) answer.payload) :=
        fun after => by
    rw [payloads_append, foldAll_append]
    rfl
  rw [fold, fold, hsplit, hsplit, h.foldl hmoved]

/-- Before the log first puts the ask. -/
theorem fold_unasked (h : Reanswered ask rest more) : fold spec more = fold spec rest := by
  have hidle : ¬ FoldState.init.harness.WaitsOn ask := nofun
  rw [fold, fold]
  exact congrArg (FoldState.toRunState · spec.runId) (h.foldl hidle)

end Reanswered

/-- The first answer to an ask wins: further answers to it, up to an event that puts it again, leave the fold of the
log as it is. So do answers that come before the log first puts the ask, and so anywhere in a log that never does. -/
theorem first_answer_wins (spec : RunSpec) (ask : MessageId) :
    (∀ before answer rest more, (fold spec before).harness.WaitsOn ask → answerTo answer.payload = some ask →
      Reanswered ask rest more → fold spec (before ++ answer :: more) = fold spec (before ++ answer :: rest)) ∧
    ∀ log more, Reanswered ask log more → fold spec more = fold spec log :=
  ⟨fun _ _ _ _ hwaits hanswer h => h.fold_answered hwaits hanswer, fun _ _ h => h.fold_unasked⟩

end Gol
