import Gol.HarnessEnds
import Gol.HarnessOutcomes

/-! Resuming at step boundaries. A run that is paused at any of its boundaries, stored and resumed, any number of
times, records what one run that is never paused records, up to fresh ids and the values of run and step memory,
which live in the worker only. Both runs are told the same by a decider and an environment that do not look at
these. The two are related by `Like`: drivers whose logs show the same. -/

namespace Gol
open Library

/-! ### What of a log does not depend on where it was resumed -/

/-- Memory that lives only as long as the worker's call that drives the run. -/
def MemoryScope.isPrivate : MemoryScope → Bool
  | .run | .step => true
  | _ => false

/-- A payload without the values of private memory, without the fresh id of a question, and without the id that a
reply repeats from its ask. -/
def EventPayload.shown : EventPayload → EventPayload
  | .memoryRead scope key value => .memoryRead scope key (if scope.isPrivate then none else value)
  | .userAsked _ prompt => .userAsked ⟨0⟩ prompt
  | .userAnswered _ text => .userAnswered ⟨0⟩ text
  | .askTimedOut _ => .askTimedOut ⟨0⟩
  | .messageReceived messageId fromAgent fromRun body replyTo =>
      .messageReceived messageId fromAgent fromRun body (replyTo.map fun _ => ⟨0⟩)
  | payload => payload

def shownLog (events : List Event) : List EventPayload := (payloads events).map EventPayload.shown

def HarnessState.shown : HarnessState → HarnessState
  | .waitingForMessage step attempt _ => .waitingForMessage step attempt ⟨0⟩
  | state => state

def FoldState.shown (s : FoldState) : FoldState := { s with harness := s.harness.shown }

/-- The replies to an ask or a question. -/
inductive Reply where
  | received (messageId : MessageId) (fromAgent : AgentId) (fromRun : RunId) (body : String)
  | timedOut
  | answered (text : String)

/-- The event that answers the ask `ask`. -/
def Reply.payload : Reply → MessageId → EventPayload
  | .received messageId fromAgent fromRun body, ask => .messageReceived messageId fromAgent fromRun body (some ask)
  | .timedOut, ask => .askTimedOut ask
  | .answered text, ask => .userAnswered ask text

/-- Whether `payload` can answer an ask. -/
def isReply : EventPayload → Bool
  | .messageReceived _ _ _ _ _ | .askTimedOut _ | .userAnswered _ _ => true
  | _ => false

@[simp] theorem shownLog_append (log more : List Event) : shownLog (log ++ more) = shownLog log ++ shownLog more := by
  simp [shownLog]

theorem shown_waiting {state : HarnessState} {step attempt : UInt32} {ask : MessageId}
    (h : state.shown = .waitingForMessage step attempt ask) :
    ∃ other, state = .waitingForMessage step attempt other := by
  cases state with
  | waitingForMessage step' attempt' ask' =>
      simp only [HarnessState.shown, HarnessState.waitingForMessage.injEq] at h
      obtain ⟨rfl, rfl, -⟩ := h
      exact ⟨ask', rfl⟩
  | _ => simp [HarnessState.shown] at h

/-- States that show the same are the same, or wait on two asks. -/
theorem shown_cases {state other : HarnessState} (h : state.shown = other.shown) :
    state = other ∨ ∃ step attempt ask ask', state = .waitingForMessage step attempt ask ∧
      other = .waitingForMessage step attempt ask' := by
  cases hstate : state with
  | waitingForMessage step attempt ask =>
      rw [hstate] at h
      obtain ⟨ask', rfl⟩ := shown_waiting h.symm
      exact .inr ⟨step, attempt, ask, ask', rfl, rfl⟩
  | _ =>
      rw [hstate] at h
      cases other with
      | waitingForMessage step attempt ask => simp [HarnessState.shown] at h
      | _ => exact .inl h

theorem shown_isTerminal (state : HarnessState) : state.shown.isTerminal = state.isTerminal := by
  cases state <;> rfl

theorem shown_isRunning (state : HarnessState) : state.shown.isRunning = state.isRunning := by
  cases state <;> rfl

/-- The payloads of which something is left out. -/
def isMasked : EventPayload → Bool
  | .memoryRead _ _ _ | .userAsked _ _ | .messageReceived _ _ _ _ _ | .askTimedOut _ | .userAnswered _ _ => true
  | _ => false

theorem isMasked_shown (payload : EventPayload) : isMasked payload.shown = isMasked payload := by
  cases payload <;> rfl

theorem shown_of_not_masked {payload : EventPayload} (h : isMasked payload = false) : payload.shown = payload := by
  cases payload <;> first | rfl | simp [isMasked] at h

theorem shown_eq_of_not_masked {payload other : EventPayload} (h : payload.shown = other.shown)
    (hmasked : isMasked payload = false) : payload = other := by
  have hother : isMasked other = false := by rw [← isMasked_shown, ← h, isMasked_shown, hmasked]
  rwa [shown_of_not_masked hmasked, shown_of_not_masked hother] at h

/-- Payloads that show the same and answer nothing are the same, or read private memory, or ask the user. -/
theorem payload_shown_cases {payload other : EventPayload} (h : payload.shown = other.shown)
    (hreply : isReply payload = false) :
    payload = other ∨ (∃ scope key value value', payload = .memoryRead scope key value ∧
        other = .memoryRead scope key value') ∨
      ∃ ask ask' prompt, payload = .userAsked ask prompt ∧ other = .userAsked ask' prompt := by
  cases payload with
  | memoryRead scope key value =>
      cases other <;> simp only [EventPayload.shown, reduceCtorEq, EventPayload.memoryRead.injEq] at h
      obtain ⟨rfl, rfl, -⟩ := h
      exact .inr (.inl ⟨_, _, _, _, rfl, rfl⟩)
  | userAsked ask prompt =>
      cases other <;> simp only [EventPayload.shown, reduceCtorEq, EventPayload.userAsked.injEq] at h
      obtain ⟨-, rfl⟩ := h
      exact .inr (.inr ⟨_, _, _, rfl, rfl⟩)
  | messageReceived _ _ _ _ _ | askTimedOut _ | userAnswered _ _ => simp [isReply] at hreply
  | _ => exact .inl (shown_eq_of_not_masked h rfl)

/-- A payload that answers nothing does not look at the ask the harness waits on. -/
theorem reduce_waiting {payload : EventPayload} (hreply : isReply payload = false) (step attempt : UInt32)
    (ask ask' : MessageId) (spec : RunSpec) :
    (reduce (.waitingForMessage step attempt ask) payload spec).1.shown =
      (reduce (.waitingForMessage step attempt ask') payload spec).1.shown := by
  cases payload with
  | messageReceived _ _ _ _ _ | askTimedOut _ | userAnswered _ _ => simp [isReply] at hreply
  | messageSent messageId toAgent expectsReply => cases expectsReply <;> rfl
  | _ => rfl

theorem reduce_shown_same {state other : HarnessState} (h : state.shown = other.shown) {payload : EventPayload}
    (hreply : isReply payload = false) (spec : RunSpec) :
    (reduce state payload spec).1.shown = (reduce other payload spec).1.shown := by
  rcases shown_cases h with rfl | ⟨step, attempt, ask, ask', rfl, rfl⟩
  · rfl
  · exact reduce_waiting hreply step attempt ask ask' spec

theorem reduce_shown {state other : HarnessState} (h : state.shown = other.shown) {payload payload' : EventPayload}
    (hpayload : payload.shown = payload'.shown) (hreply : isReply payload = false) (spec : RunSpec) :
    (reduce state payload spec).1.shown = (reduce other payload' spec).1.shown := by
  rcases payload_shown_cases hpayload hreply with rfl | ⟨scope, key, value, value', rfl, rfl⟩ |
    ⟨ask, ask', prompt, rfl, rfl⟩
  · exact reduce_shown_same h hreply spec
  · rw [reduce_shown_same h hreply]
    cases other <;> rfl
  · rw [reduce_shown_same h hreply]
    cases other with
    | running step attempt answered => cases answered <;> rfl
    | _ => rfl

theorem reduceDispatch_shown (phase : DispatchPhase) {payload payload' : EventPayload}
    (hpayload : payload.shown = payload'.shown) (hreply : isReply payload = false) :
    reduceDispatch phase payload = reduceDispatch phase payload' := by
  rcases payload_shown_cases hpayload hreply with rfl | ⟨scope, key, value, value', rfl, rfl⟩ |
    ⟨ask, ask', prompt, rfl, rfl⟩
  · rfl
  · cases phase <;> rfl
  · cases phase <;> rfl

theorem count_harness (s : FoldState) {state : HarnessState} (h : state.isRunning = s.harness.isRunning)
    (payload : EventPayload) :
    ({ s with harness := state }).count payload = { s.count payload with harness := state } := by
  cases payload with
  | effectDecided effect =>
      cases effect with
      | complete outcome =>
          simp only [FoldState.count, h]
          split <;> rfl
      | _ => rfl
  | effectAuthorized effect => cases effect <;> rfl
  | childStarted runId agentId limits =>
      simp only [FoldState.count]
      split <;> rfl
  | _ => rfl

theorem count_shown (s : FoldState) {payload payload' : EventPayload} (hpayload : payload.shown = payload'.shown)
    (hreply : isReply payload = false) : s.count payload = s.count payload' := by
  rcases payload_shown_cases hpayload hreply with rfl | ⟨scope, key, value, value', rfl, rfl⟩ |
    ⟨ask, ask', prompt, rfl, rfl⟩ <;> rfl

theorem FoldState.shown_cases {s s' : FoldState} (h : s.shown = s'.shown) :
    s' = { s with harness := s'.harness } ∧ s.harness.shown = s'.harness.shown := by
  obtain ⟨harness, dispatch, steps, modelCalls, children, givenSteps, givenModelCalls, started⟩ := s
  obtain ⟨harness', dispatch', steps', modelCalls', children', givenSteps', givenModelCalls', started'⟩ := s'
  simp only [FoldState.shown, FoldState.mk.injEq] at h ⊢
  simp [h]

theorem isRunning_of_shown {state other : HarnessState} (h : state.shown = other.shown) :
    state.isRunning = other.isRunning := by
  rw [← shown_isRunning, h, shown_isRunning]

theorem foldStep_shown {s s' : FoldState} (h : s.shown = s'.shown) {payload payload' : EventPayload}
    (hpayload : payload.shown = payload'.shown) (hreply : isReply payload = false) (spec : RunSpec) :
    (foldStep spec s payload).shown = (foldStep spec s' payload').shown := by
  obtain ⟨hsame, hharness⟩ := FoldState.shown_cases h
  have hcount : s'.count payload' = { s.count payload with harness := s'.harness } := by
    rw [← count_shown s' hpayload hreply, hsame]
    exact count_harness s (isRunning_of_shown hharness).symm payload
  have hdispatch : s'.dispatch = s.dispatch := by rw [hsame]
  simp only [foldStep, FoldState.shown, hcount, hdispatch, reduceDispatch_shown s.dispatch hpayload hreply,
    reduce_shown hharness hpayload hreply spec]

/-! ### Drivers whose logs show the same -/

namespace Driver

/-- What a caller set on the driver. -/
def setup (d : Driver) : Setup := ⟨d.skills, d.spawner, d.deliverer, d.userQuestions, d.targets⟩

/-- The drivers of one run whose logs show the same. -/
structure Like (d e : Driver) : Prop where
  spec_eq : d.spec = e.spec
  setup_eq : d.setup = e.setup
  log_eq : shownLog d.events = shownLog e.events
  fold_eq : (foldAll d.spec d.log).shown = (foldAll e.spec e.log).shown

variable {d e : Driver}

theorem Like.state_eq (h : d.Like e) : e.state = { d.state with harness := e.state.harness } := by
  have hsame := (FoldState.shown_cases h.fold_eq).1
  have hid : e.spec.runId = d.spec.runId := by rw [h.spec_eq]
  change (foldAll e.spec e.log).toRunState e.spec.runId = _
  rw [hsame, hid]
  rfl

theorem Like.harness_shown (h : d.Like e) : d.state.harness.shown = e.state.harness.shown :=
  (FoldState.shown_cases h.fold_eq).2

theorem Like.harness_cases (h : d.Like e) : d.state.harness = e.state.harness ∨
    ∃ step attempt ask ask', d.state.harness = .waitingForMessage step attempt ask ∧
      e.state.harness = .waitingForMessage step attempt ask' := shown_cases h.harness_shown

theorem Like.isRunning_eq (h : d.Like e) : d.state.harness.isRunning = e.state.harness.isRunning :=
  isRunning_of_shown h.harness_shown

theorem Like.isTerminal_eq (h : d.Like e) : d.state.harness.isTerminal = e.state.harness.isTerminal := by
  rw [← shown_isTerminal, h.harness_shown, shown_isTerminal]

theorem isTerminal_shown (payload : EventPayload) : isTerminal payload.shown = isTerminal payload := by
  cases payload <;> rfl

theorem hasEnded_shown (events : List Event) : hasEnded events = (shownLog events).any isTerminal := by
  rw [hasEnded_eq, shownLog, List.any_map]
  congr 1
  funext payload
  exact (isTerminal_shown payload).symm

theorem Like.logEnded_eq (h : d.Like e) : d.logEnded = e.logEnded := by
  rw [logEnded, hasEnded_shown, h.log_eq, ← hasEnded_shown]
  rfl

theorem Like.going_iff (h : d.Like e) : d.Going ↔ e.Going := by
  rw [Going, Going, h.isTerminal_eq, h.logEnded_eq]

theorem Like.stepsSpent_eq (h : d.Like e) : d.stepsSpent = e.stepsSpent := by
  rw [stepsSpent, stepsSpent, h.state_eq, h.spec_eq]

theorem Like.overBudget_eq (h : d.Like e) (effect : Effect) : d.overBudget effect = e.overBudget effect := by
  have hmodel : d.modelCallsSpent = e.modelCallsSpent := by
    rw [modelCallsSpent, modelCallsSpent, h.state_eq, h.spec_eq]
  cases effect <;> simp only [overBudget, h.stepsSpent_eq, hmodel, h.isRunning_eq]

theorem Like.carve_eq (h : d.Like e) : d.carve = e.carve := by
  have hsteps : d.state.steps = e.state.steps := by rw [h.state_eq]
  have hgiven : d.state.givenSteps = e.state.givenSteps := by rw [h.state_eq]
  have hmodelCalls : d.state.modelCalls = e.state.modelCalls := by rw [h.state_eq]
  have hgivenCalls : d.state.givenModelCalls = e.state.givenModelCalls := by rw [h.state_eq]
  have hchildren : d.state.children = e.state.children := by rw [h.state_eq]
  simp only [carve, h.spec_eq, h.isRunning_eq, hsteps, hgiven, hmodelCalls, hgivenCalls, hchildren]

theorem Like.memoryKey_eq (h : d.Like e) (scope : MemoryScope) : d.memoryKey scope = e.memoryKey scope := by
  rcases h.harness_cases with heq | ⟨step, attempt, ask, ask', hd, he⟩
  · rw [memoryKey, memoryKey, heq, h.spec_eq]
  · rw [memoryKey, memoryKey, hd, he, h.spec_eq]

theorem push_log (d : Driver) (payload : EventPayload) (actor : Actor) :
    (d.push payload actor).log = d.log ++ [payload] := (d.extends_push payload actor).log_eq

theorem Like.push (h : d.Like e) {payload payload' : EventPayload} (hpayload : payload.shown = payload'.shown)
    (hreply : isReply payload = false) (actor : Actor) : (d.push payload actor).Like (e.push payload' actor) where
  spec_eq := h.spec_eq
  setup_eq := h.setup_eq
  log_eq := by
    change shownLog (d.events ++ [_]) = shownLog (e.events ++ [_])
    rw [shownLog_append, shownLog_append, h.log_eq]
    simp [shownLog, payloads, hpayload]
  fold_eq := by
    rw [push_log, push_log, foldAll_snoc, foldAll_snoc]
    have hspec : (e.push payload' actor).spec = (d.push payload actor).spec := h.spec_eq.symm
    rw [hspec]
    refine foldStep_shown ?_ hpayload hreply _
    have hfold := h.fold_eq
    rw [← h.spec_eq] at hfold
    exact hfold

/-! ### Deciding alike -/

theorem applicable_shown {state other : HarnessState} (h : state.shown = other.shown) (effect : Effect)
    (spec : RunSpec) : applicable state effect spec = applicable other effect spec := by
  rcases shown_cases h with rfl | ⟨step, attempt, ask, ask', rfl, rfl⟩ <;> rfl

theorem describe_shown {state other : HarnessState} (h : state.shown = other.shown) :
    describe state = describe other := by
  rcases shown_cases h with rfl | ⟨step, attempt, ask, ask', rfl, rfl⟩ <;> rfl

theorem reduce_effects_shown {state other : HarnessState} (h : state.shown = other.shown) (payload : EventPayload)
    (spec : RunSpec) : (reduce state payload spec).2 = (reduce other payload spec).2 := by
  rcases shown_cases h with rfl | ⟨step, attempt, ask, ask', rfl, rfl⟩
  · rfl
  · have hnone : ∀ ask, (reduce (.waitingForMessage step attempt ask) payload spec).2 = [] := by
      intro ask
      rcases reduce_effects (.waitingForMessage step attempt ask) payload spec with hnil | ⟨effect, -, happlicable, -⟩
      · exact hnil
      · simp [applicable] at happlicable
    rw [hnone, hnone]

theorem Like.effectsOfLast_push (h : d.Like e) (payload : EventPayload) (actor : Actor) :
    effectsOfLast d.spec (d.push payload actor).events = effectsOfLast e.spec (e.push payload actor).events := by
  rw [Driver.effectsOfLast_push, Driver.effectsOfLast_push, h.spec_eq]
  exact reduce_effects_shown h.harness_shown payload e.spec

theorem Like.authorizeDecided (h : d.Like e) {state other : HarnessState} (hshown : state.shown = other.shown)
    (effect : Effect) (tools : List ToolDescriptor) :
    (d.authorizeDecided state effect tools).1.Like (e.authorizeDecided other effect tools).1 ∧
      (d.authorizeDecided state effect tools).2 = (e.authorizeDecided other effect tools).2 := by
  simp only [Driver.authorizeDecided, h.spec_eq, applicable_shown hshown, describe_shown hshown]
  split
  · split
    · exact ⟨h.push rfl rfl _, rfl⟩
    · have hauthorized : (d.push (.effectAuthorized effect) .policy).Like (e.push (.effectAuthorized effect) .policy) :=
        h.push rfl rfl _
      cases effect with
      | complete outcome =>
          simp only
          rcases hauthorized.harness_cases with heq | ⟨step, attempt, ask, ask', hd, he⟩
          · rw [heq]
            split
            · exact ⟨hauthorized.push rfl rfl _, hauthorized.effectsOfLast_push _ _⟩
            · exact ⟨hauthorized, h.effectsOfLast_push _ _⟩
          · rw [hd, he]
            exact ⟨hauthorized, h.effectsOfLast_push _ _⟩
      | _ => exact ⟨hauthorized, h.effectsOfLast_push _ _⟩
  · exact ⟨h.push rfl rfl _, rfl⟩
  · exact ⟨h.push rfl rfl _, rfl⟩

theorem Like.onDecision (h : d.Like e) (tools : List ToolDescriptor) (effect : Effect) :
    (d.onDecision tools effect).1.Like (e.onDecision tools effect).1 ∧
      (d.onDecision tools effect).2 = (e.onDecision tools effect).2 := by
  unfold Driver.onDecision
  rw [h.overBudget_eq]
  split
  · exact ⟨h.push rfl rfl _, rfl⟩
  · exact (h.push rfl rfl _).authorizeDecided h.harness_shown effect tools

/-! ### Performing alike -/

/-- A decider and an environment, as functions of what a log shows. -/
structure Environment where
  decide : List EventPayload → Except DeciderError Effect
  tool : List EventPayload → String → String → Except String String
  model : List EventPayload → ModelRequest → Except String (ModelMessage × Option Usage)
  memoryRead : List EventPayload → MemoryKey → String → Except Unit (Option String)
  memoryWrite : List EventPayload → MemoryKey → String → String → Except Unit Unit
  spawn : List EventPayload → ChildRequest → Except String StartedChild
  send : List EventPayload → MessageRequest → Except String SentMessage

/-- The answers of one worker in `world`: private memory answers with whatever this worker holds. -/
structure Follows (world : Environment) (env : (c : HarnessCall) → c.Answer) : Prop where
  decide : ∀ view, env (.decide view) = world.decide (shownLog view.events)
  tool : ∀ log name input, env (.tool log name input) = world.tool (shownLog log) name input
  model : ∀ log request, env (.model log request) = world.model (shownLog log) request
  memoryRead : ∀ log owner key, owner.scope.isPrivate = false →
    env (.memoryRead log owner key) = world.memoryRead (shownLog log) owner key
  privateRead : ∀ log owner key, owner.scope.isPrivate = true → ∃ value, env (.memoryRead log owner key) = .ok value
  memoryWrite : ∀ log owner key value, owner.scope.isPrivate = false →
    env (.memoryWrite log owner key value) = world.memoryWrite (shownLog log) owner key value
  privateWrite : ∀ log owner key value, owner.scope.isPrivate = true →
    env (.memoryWrite log owner key value) = .ok ()
  spawn : ∀ log request, env (.spawn log request) = world.spawn (shownLog log) request
  send : ∀ log request, env (.send log request) = world.send (shownLog log) request
  boundary : ∀ d, env (.boundary d) ≠ .cancel

section Environment

variable {world : Environment} {env env' : (c : HarnessCall) → c.Answer}

/-- A driver and whether its `perform` goes on, as another's. -/
def LikeResult (r r' : Driver × Bool) : Prop := r.1.Like r'.1 ∧ r.2 = r'.2

theorem Like.performOne_toolCall (henv : Follows world env) (henv' : Follows world env') (h : d.Like e)
    (tools : List ToolDescriptor) (name input : String) (invocation : InvocationId) :
    LikeResult ((d.performOne tools (.toolCall name input invocation)).eval env)
      ((e.performOne tools (.toolCall name input invocation)).eval env') := by
  rcases h.harness_cases with heq | ⟨step, attempt, ask, ask', hd, he⟩
  · simp only [Driver.performOne, heq]
    cases hharness : e.state.harness with
    | waitingForTool step attempt waitingName waitingInvocation =>
        dsimp only
        split
        · exact ⟨h, rfl⟩
        · next hsame =>
            split
            · exact ⟨h.push rfl rfl _, rfl⟩
            · simp only [Prog.eval]
              rw [henv.tool, henv'.tool, h.log_eq]
              cases world.tool (shownLog e.events) name input with
              | error message => exact ⟨h.push rfl rfl _, rfl⟩
              | ok output =>
                  rw [hharness] at heq
                  simp only [Prog.eval, deliverToolResult, heq, hharness]
                  refine ⟨?_, rfl⟩
                  split
                  · exact h
                  · exact h.push rfl rfl _
    | _ => exact ⟨h, rfl⟩
  · simp only [Driver.performOne, hd, he]
    exact ⟨h, rfl⟩

theorem Like.performOne_memoryRead (henv : Follows world env) (henv' : Follows world env') (h : d.Like e)
    (tools : List ToolDescriptor) (scope : MemoryScope) (key : String) :
    LikeResult ((d.performOne tools (.memoryRead scope key)).eval env)
      ((e.performOne tools (.memoryRead scope key)).eval env') := by
  simp only [Driver.performOne, h.memoryKey_eq]
  cases hkey : e.memoryKey scope with
  | none => exact ⟨h.push rfl rfl _, rfl⟩
  | some owner =>
      have hscope : owner.scope = scope := by
        obtain ⟨ownerId, -, rfl⟩ := Option.map_eq_some_iff.mp hkey
        rfl
      simp only [Prog.eval]
      cases hprivate : owner.scope.isPrivate with
      | true =>
          obtain ⟨value, hvalue⟩ := henv.privateRead d.events owner key hprivate
          obtain ⟨value', hvalue'⟩ := henv'.privateRead e.events owner key hprivate
          rw [hvalue, hvalue']
          rw [hscope] at hprivate
          exact ⟨h.push (by simp [EventPayload.shown, hprivate]) rfl _, rfl⟩
      | false =>
          rw [henv.memoryRead _ _ _ hprivate, henv'.memoryRead _ _ _ hprivate, h.log_eq]
          cases world.memoryRead (shownLog e.events) owner key with
          | ok value => exact ⟨h.push rfl rfl _, rfl⟩
          | error _ => exact ⟨h.push rfl rfl _, rfl⟩

theorem Like.performOne_memoryWrite (henv : Follows world env) (henv' : Follows world env') (h : d.Like e)
    (tools : List ToolDescriptor) (scope : MemoryScope) (key value : String) :
    LikeResult ((d.performOne tools (.memoryWrite scope key value)).eval env)
      ((e.performOne tools (.memoryWrite scope key value)).eval env') := by
  simp only [Driver.performOne, h.memoryKey_eq]
  cases e.memoryKey scope with
  | none => exact ⟨h.push rfl rfl _, rfl⟩
  | some owner =>
      simp only [Prog.eval]
      cases hprivate : owner.scope.isPrivate with
      | true =>
          rw [henv.privateWrite _ _ _ _ hprivate, henv'.privateWrite _ _ _ _ hprivate]
          exact ⟨h.push rfl rfl _, rfl⟩
      | false =>
          rw [henv.memoryWrite _ _ _ _ hprivate, henv'.memoryWrite _ _ _ _ hprivate, h.log_eq]
          cases world.memoryWrite (shownLog e.events) owner key value with
          | ok _ => exact ⟨h.push rfl rfl _, rfl⟩
          | error _ => exact ⟨h.push rfl rfl _, rfl⟩

theorem Like.delegate (henv : Follows world env) (henv' : Follows world env') (h : d.Like e) (agentId : AgentId)
    (input : String) : ((d.delegate agentId input).eval env).Like ((e.delegate agentId input).eval env') := by
  have hspawner : d.spawner = e.spawner := congrArg Setup.spawner h.setup_eq
  simp only [Driver.delegate, h.carve_eq, hspawner]
  cases e.carve with
  | error reason => exact h.push rfl rfl _
  | ok given =>
      dsimp only
      split
      · exact h.push rfl rfl _
      · simp only [Prog.eval]
        rw [henv.spawn, henv'.spawn, h.log_eq, h.spec_eq]
        rcases h.harness_cases with heq | ⟨step, attempt, ask, ask', hd, he⟩
        · rw [heq]
          cases world.spawn _ _ <;> exact h.push rfl rfl _
        · rw [hd, he]
          cases world.spawn _ _ <;> exact h.push rfl rfl _

theorem Like.messageSent (h : d.Like e) (toAgent : AgentId) (expectsReply : Bool) (sent : SentMessage) :
    (d.messageSent toAgent expectsReply sent).Like (e.messageSent toAgent expectsReply sent) := by
  unfold Driver.messageSent
  cases sent.task with
  | none => exact h.push rfl rfl _
  | some task => exact (h.push rfl rfl _).push rfl rfl _

theorem Like.sendMessage (henv : Follows world env) (henv' : Follows world env') (h : d.Like e) (toAgent : AgentId)
    (body : String) (expectsReply : Bool) (replyTo : Option MessageId) (timeoutSecs : Option UInt32) :
    ((d.sendMessage toAgent body expectsReply replyTo timeoutSecs).eval env).Like
      ((e.sendMessage toAgent body expectsReply replyTo timeoutSecs).eval env') := by
  have hsteps : d.state.steps = e.state.steps := by rw [h.state_eq]
  have hdeliverer : d.deliverer = e.deliverer := congrArg Setup.deliverer h.setup_eq
  simp only [Driver.sendMessage, h.carve_eq, hdeliverer, h.isRunning_eq]
  split
  · exact h.push rfl rfl _
  · simp only [Prog.eval]
    rw [henv.send, henv'.send, h.log_eq, h.spec_eq, hsteps]
    cases world.send _ _ with
    | ok sent => exact h.messageSent _ _ _
    | error reason => exact h.push rfl rfl _

theorem Like.performOne (henv : Follows world env) (henv' : Follows world env') (h : d.Like e)
    (tools : List ToolDescriptor) (effect : Effect) :
    LikeResult ((d.performOne tools effect).eval env) ((e.performOne tools effect).eval env') := by
  cases effect with
  | toolCall name input invocation => exact h.performOne_toolCall henv henv' tools name input invocation
  | memoryRead scope key => exact h.performOne_memoryRead henv henv' tools scope key
  | memoryWrite scope key value => exact h.performOne_memoryWrite henv henv' tools scope key value
  | modelCall prompt =>
      simp only [Driver.performOne, Prog.eval]
      rw [henv.model, henv'.model, h.log_eq, h.spec_eq]
      cases world.model _ _ with
      | ok response => exact ⟨h.push rfl rfl _, rfl⟩
      | error message => exact ⟨h.push rfl rfl _, rfl⟩
  | delegate agentId input =>
      simp only [Driver.performOne, Prog.eval_bind, Prog.eval]
      exact ⟨h.delegate henv henv' agentId input, rfl⟩
  | sendMessage toAgent body expectsReply replyTo timeoutSecs =>
      simp only [Driver.performOne, Prog.eval_bind, Prog.eval]
      exact ⟨h.sendMessage henv henv' toAgent body expectsReply replyTo timeoutSecs, rfl⟩
  | askUser prompt =>
      have hasking : d.userQuestions = e.userQuestions := congrArg Setup.userQuestions h.setup_eq
      simp only [Driver.performOne, Driver.askUser, Prog.eval, hasking]
      refine ⟨?_, rfl⟩
      split
      · refine h.push ?_ ?_ _ <;> rfl
      · exact h.push rfl rfl _
  | complete _ | execute _ | requestApproval _ _ | wait _ | publishArtifact _ _ _ => exact ⟨h, rfl⟩

theorem Like.perform (henv : Follows world env) (henv' : Follows world env') (tools : List ToolDescriptor)
    (effects : List Effect) (h : d.Like e) :
    ((perform tools effects d).eval env).Like ((perform tools effects e).eval env') := by
  induction effects generalizing d e with
  | nil => exact h
  | cons effect effects ih =>
      simp only [Driver.perform, Prog.eval_bind]
      obtain ⟨hlike, hgo⟩ := h.performOne henv henv' tools effect
      revert hlike hgo
      generalize (d.performOne tools effect).eval env = r
      generalize (e.performOne tools effect).eval env' = r'
      obtain ⟨d', go⟩ := r
      obtain ⟨e', go'⟩ := r'
      rintro hlike rfl
      cases go with
      | true => exact ih hlike
      | false => exact hlike

theorem Like.advanceAnsweredStep (h : d.Like e) : d.advanceAnsweredStep.Like e.advanceAnsweredStep := by
  unfold Driver.advanceAnsweredStep
  rcases h.harness_cases with heq | ⟨step, attempt, ask, ask', hd, he⟩
  · rw [heq, h.spec_eq]
    split
    · split
      · exact h
      · exact h.push rfl rfl _
    · exact h
  · rw [hd, he]
    exact h

theorem Like.afterDecision (henv : Follows world env) (henv' : Follows world env') (h : d.Like e)
    (tools : List ToolDescriptor) (effects : List Effect) :
    ((d.afterDecision tools effects).eval env).Like ((e.afterDecision tools effects).eval env') := by
  simp only [Driver.afterDecision, Prog.eval_bind, Prog.eval]
  exact (h.perform henv henv' tools effects).advanceAnsweredStep

/-! ### One decision of the loop -/

/-- The driver after the decision `effect` and what it leads to. -/
def turn (env : (c : HarnessCall) → c.Answer) (tools : List ToolDescriptor) (d : Driver) (effect : Effect) : Driver :=
  match d.onDecision tools effect with
  | (d', []) => d'
  | (d', effects) => (d'.afterDecision tools effects).eval env

theorem Like.turn (henv : Follows world env) (henv' : Follows world env') (h : d.Like e)
    (tools : List ToolDescriptor) (effect : Effect) : (turn env tools d effect).Like (turn env' tools e effect) := by
  obtain ⟨hlike, heffects⟩ := h.onDecision tools effect
  unfold Driver.turn
  revert hlike heffects
  generalize d.onDecision tools effect = r
  generalize e.onDecision tools effect = r'
  obtain ⟨d', effects⟩ := r
  obtain ⟨e', effects'⟩ := r'
  rintro hlike rfl
  cases effects with
  | nil => exact hlike
  | cons effect effects => exact hlike.afterDecision henv henv' tools (effect :: effects)

theorem turn_batch (env : (c : HarnessCall) → c.Answer) (tools : List ToolDescriptor) (d : Driver)
    (effect : Effect) : ∃ call added, d.Batch call added ∧ d.Extends (turn env tools d effect) added := by
  have hdecided := d.onDecision_cases tools effect
  unfold Driver.turn
  generalize d.onDecision tools effect = result at hdecided ⊢
  cases hdecided with
  | overBudget d' hover hext => exact ⟨none, _, .overBudget effect hover, hext⟩
  | decided mid result hbudget hmid hharness hresult =>
      cases hresult with
      | denied d' reason hcomplete hext =>
          rw [hharness] at hcomplete
          exact ⟨none, _, .denied effect reason hbudget hcomplete, hmid.trans hext⟩
      | completed d' outcome heffect hrunning hext hallows =>
          subst heffect
          rw [hharness] at hrunning
          rw [hmid.spec_eq] at hallows
          exact ⟨none, _, .completed outcome hrunning hallows, hmid.trans hext⟩
      | authorized mid' happlicable heffect hext hallows =>
          rw [hharness, hmid.spec_eq] at happlicable
          rw [hmid.spec_eq] at hallows
          have hboth := hmid.trans hext
          have hsafe : (World Unit (fun _ c answer _ => answer = env c) (fun _ _ => True)).Safe
              (fun _ d' => ∃ call added, d.Batch call added ∧ d.Extends d' added)
              (mid'.afterDecision tools [effect]) () := by
            refine afterDecision_one_safe tools effect mid' () (fun _ _ => trivial) ?_ ?_
            · intro added last d' houtcome hlast hext'
              refine ⟨none, _, .performed effect none mid' last added hbudget happlicable heffect hboth
                houtcome hlast hallows, ?_⟩
              rw [List.append_assoc]
              exact hboth.trans hext'
            · intro c answer _ added last d' _ houtcome hlast hext' _
              refine ⟨_, _, .performed effect _ mid' last added hbudget happlicable heffect hboth
                houtcome hlast hallows, ?_⟩
              rw [List.append_assoc]
              exact hboth.trans hext'
          exact hsafe.eval

/-- The loop returns at once when the run has ended. -/
theorem eval_runLoop_ended {env : (c : HarnessCall) → c.Answer} {tools : List ToolDescriptor} {d : Driver}
    (h : ¬ d.Going) (fuel : Nat) : (runLoop tools (fuel + 1) d).eval env = (d, .ok) := by
  have hended : (d.state.harness.isTerminal || d.logEnded) = true := by
    by_contra hnot
    exact h (by simpa [Going] using hnot)
  simp only [runLoop, hended, ↓reduceIte, Prog.eval]

/-- The loop's test, for a run that has not ended. -/
theorem Going.not_ended (h : d.Going) : (d.state.harness.isTerminal || d.logEnded) = false := by simp [h.1, h.2]

theorem eval_runLoop_pause {tools : List ToolDescriptor} (h : d.Going) (hpause : env (.boundary d) = .pause)
    (fuel : Nat) : (runLoop tools (fuel + 1) d).eval env = (d, .ok) := by
  simp only [runLoop, h.not_ended, Bool.false_eq_true, ↓reduceIte, Prog.eval, hpause]

theorem eval_runLoop_waiting {tools : List ToolDescriptor} (h : d.Going) (hgo : env (.boundary d) = .continue)
    {step attempt : UInt32} {ask : MessageId} (hwaiting : d.state.harness = .waitingForMessage step attempt ask)
    (fuel : Nat) : (runLoop tools (fuel + 1) d).eval env = (d, .ok) := by
  simp only [runLoop, h.not_ended, Bool.false_eq_true, ↓reduceIte, Prog.eval, hgo]
  rw [hwaiting]
  rfl

/-- The harness waits on no message. -/
def Free (d : Driver) : Prop := ∀ step attempt ask, d.state.harness ≠ .waitingForMessage step attempt ask

theorem eval_runLoop_free {tools : List ToolDescriptor} (h : d.Going) (hgo : env (.boundary d) = .continue)
    (hfree : d.Free) (fuel : Nat) : (runLoop tools (fuel + 1) d).eval env =
      match env (.decide (d.decisionView tools)) with
      | .error error => (d, .failed error)
      | .ok effect =>
          match d.onDecision tools effect with
          | (d', []) => if d'.state.harness.isTerminal then (d', .ok) else (runLoop tools fuel d').eval env
          | (d', effects) => (runLoop tools fuel ((d'.afterDecision tools effects).eval env)).eval env := by
  simp only [runLoop, h.not_ended, Bool.false_eq_true, ↓reduceIte, Prog.eval, hgo]
  split
  · next step attempt ask hwaiting => exact absurd hwaiting (hfree step attempt ask)
  · simp only [Driver.decide, h.1, Bool.false_eq_true, ↓reduceIte, Prog.call_bind, Prog.eval]
    cases env (.decide (d.decisionView tools)) with
    | error error => rfl
    | ok effect =>
        dsimp only
        generalize d.onDecision tools effect = result
        obtain ⟨d', effects⟩ := result
        cases effects with
        | nil =>
            simp only [Prog.ret_bind]
            split <;> rfl
        | cons effect effects => simp only [Prog.ret_bind, Prog.eval_bind]

theorem eval_runLoop_failed {tools : List ToolDescriptor} (h : d.Going) (hgo : env (.boundary d) = .continue)
    (hfree : d.Free) {error : DeciderError} (hdecide : env (.decide (d.decisionView tools)) = .error error)
    (fuel : Nat) : (runLoop tools (fuel + 1) d).eval env = (d, .failed error) := by
  rw [eval_runLoop_free h hgo hfree, hdecide]

theorem eval_runLoop_turn {tools : List ToolDescriptor} (h : d.Going) (hgo : env (.boundary d) = .continue)
    (hfree : d.Free) {effect : Effect} (hdecide : env (.decide (d.decisionView tools)) = .ok effect) (fuel : Nat) :
    (runLoop tools (fuel + 2) d).eval env = (runLoop tools (fuel + 1) (turn env tools d effect)).eval env := by
  rw [eval_runLoop_free h hgo hfree, hdecide]
  simp only [turn]
  generalize d.onDecision tools effect = result
  obtain ⟨d', effects⟩ := result
  cases effects with
  | nil =>
      dsimp only
      split
      · next hterminal => rw [eval_runLoop_ended fun hgoing => by simp [hgoing.1] at hterminal]
      · rfl
  | cons effect effects => rfl

end Environment

/-! ### What holds at a boundary -/

/-- At a boundary nothing is left of the last step: every effect has its outcome, no decision waits to be
authorized, and an answered step was advanced if it could be. -/
structure Quiescent (d : Driver) : Prop where
  tracked : Tracked d.spec d.log
  closed : d.Closed
  last : d.log.getLast?.any isDecided = false
  advanced : d.advance = []

theorem advance_congr {d e : Driver} (hspec : d.spec = e.spec) (hlog : d.log = e.log) : d.advance = e.advance := by
  have hharness : d.state.harness = e.state.harness := by rw [harness_eq, harness_eq, hspec, hlog]
  rw [advance, advance, hharness, hspec]

theorem advance_advanceAnsweredStep (d : Driver) : d.advanceAnsweredStep.advance = [] := by
  cases hharness : d.state.harness with
  | running step attempt answered =>
      cases answered with
      | false =>
          have hsame : d.advanceAnsweredStep = d := by simp [advanceAnsweredStep, hharness]
          simp [hsame, advance, hharness]
      | true =>
          by_cases hmax : d.spec.limits.maxSteps ≤ step
          · have hsame : d.advanceAnsweredStep = d := by simp [advanceAnsweredStep, hharness, hmax]
            simp [hsame, advance, hharness, hmax]
          · have hpush : d.advanceAnsweredStep = d.push .stepAdvanced .system := by
              simp [advanceAnsweredStep, hharness, hmax]
            have hnext : (d.push .stepAdvanced .system).state.harness = .running (step + 1) 0 false := by
              rw [push_harness, hharness]
              simp [reduce, HarnessState.isTerminal, UInt32.not_le.mp hmax]
            simp [hpush, advance, hnext]
  | _ =>
      have hsame : d.advanceAnsweredStep = d := by simp [advanceAnsweredStep, hharness]
      simp [hsame, advance, hharness]

theorem advanceAnsweredStep_log (d : Driver) : d.advanceAnsweredStep.log = d.log ++ d.advance :=
  d.extends_advanceAnsweredStep.log_eq

/-- The last payload of a batch is not a decision. -/
theorem Batch.last {d : Driver} {call : Option (Sigma HarnessCall.Answer)} {added : List EventPayload}
    (h : d.Batch call added) : added ≠ [] ∧ added.getLast?.any isDecided = false := by
  cases h with
  | overBudget effect hover => simp [isDecided]
  | denied effect reason hbudget hcomplete => simp [isDecided]
  | completed outcome hrunning => simp [isDecided]
  | performed effect call mid last more hbudget happlicable heffect hmid houtcome hlast =>
      refine ⟨by simp, ?_⟩
      cases hfinal : ([EventPayload.effectDecided effect, .effectAuthorized effect] ++ more ++
          last.advance).getLast? with
      | none => rfl
      | some payload =>
          have hmem : payload ∈ .effectAuthorized effect :: (more ++ last.advance) := by
            simp only [List.cons_append, List.nil_append, List.getLast?_cons_cons] at hfinal
            exact List.mem_of_getLast? hfinal
          simp only [List.mem_cons, List.mem_append] at hmem
          rcases hmem with rfl | hmore | hadvance
          · rfl
          · exact houtcome.not_decided payload hmore
          · exact last.advance_not_decided payload hadvance

theorem Batch.advanced {d d' : Driver} {call : Option (Sigma HarnessCall.Answer)} {added : List EventPayload}
    (h : d.Batch call added) (hadvanced : d.advance = []) (hext : d.Extends d' added) : d'.advance = [] := by
  cases h with
  | overBudget effect hover => exact advance_after_end [] hext rfl
  | denied effect reason hbudget hcomplete =>
      have hharness : d'.state.harness = d.state.harness := by
        rw [hext.harness_eq, List.append_cons, harnessOf_snoc, harnessOf_decided]
        rw [harness_eq]
        cases harnessOf d.spec d.log <;> rfl
      rw [advance, hharness, hext.spec_eq]
      exact hadvanced
  | completed outcome hrunning => exact advance_after_end [_, _] hext rfl
  | performed effect call mid last more hbudget happlicable heffect hmid houtcome hlast =>
      have hspec : d'.spec = last.advanceAnsweredStep.spec := by
        rw [hext.spec_eq, last.extends_advanceAnsweredStep.spec_eq, hlast.spec_eq, hmid.spec_eq]
      have hlog : d'.log = last.advanceAnsweredStep.log := by
        rw [hext.log_eq, advanceAnsweredStep_log, hlast.log_eq, hmid.log_eq]
        simp
      rw [advance_congr hspec hlog, advance_advanceAnsweredStep]

theorem Quiescent.batch {d d' : Driver} {call : Option (Sigma HarnessCall.Answer)} {added : List EventPayload}
    (h : d.Quiescent) (hgoing : d.Going) (hbatch : d.Batch call added) (hext : d.Extends d' added) :
    d'.Quiescent where
  tracked := hbatch.tracked h.tracked hext
  closed := h.closed.extends hgoing.2 hbatch.proper hext
  last := by
    obtain ⟨hne, hlast⟩ := hbatch.last
    rw [hext.log_eq, List.getLast?_append_of_ne_nil _ hne]
    exact hlast
  advanced := hbatch.advanced h.advanced hext

/-! ### In lockstep -/

section Lockstep

variable {world : Environment} {env env' : (c : HarnessCall) → c.Answer} {tools : List ToolDescriptor}

theorem Fueled.pos {d : Driver} {fuel : Nat} (h : d.Fueled fuel) : ∃ less, fuel = less + 1 := by
  rcases h with ⟨-, hfuel⟩ | hfuel
  · exact ⟨fuel - 1, by omega⟩
  · exact ⟨fuel - 1, by omega⟩

theorem Fueled.two {d : Driver} {fuel : Nat} (h : d.Fueled (fuel + 1)) (hgoing : d.Going) :
    ∃ less, fuel = less + 1 := by
  rcases h with ⟨hended, -⟩ | hfuel
  · exact absurd hgoing hended
  · exact ⟨fuel - 1, by omega⟩

theorem Like.free_iff {d e : Driver} (h : d.Like e) : d.Free ↔ e.Free := by
  rcases h.harness_cases with heq | ⟨step, attempt, ask, ask', hd, he⟩
  · rw [Free, Free, heq]
  · exact ⟨fun hfree => absurd hd (hfree step attempt ask), fun hfree => absurd he (hfree step attempt ask')⟩

/-- How a loop that may pause ends, beside one that never does: it is paused where the other still has to pass,
or both return alike. -/
def Abreast (env' : (c : HarnessCall) → c.Answer) (tools : List ToolDescriptor) (result other : Driver × Finish) :
    Prop :=
  result.1.Quiescent ∧
  ((result.1.Going ∧ ∃ e fuel, result.1.Like e ∧ e.Fueled fuel ∧ (runLoop tools fuel e).eval env' = other) ∨
    (result.1.Like other.1 ∧ result.2 = other.2 ∧ other.2 ≠ .outOfFuel))

/-- Two loops over drivers that show the same, one of which may be paused. -/
theorem lockstep (henv : Follows world env) (henv' : Follows world env')
    (hgo : ∀ d, env' (.boundary d) = .continue) (fuel : Nat) {d e : Driver} {fuel' : Nat} (hquiet : d.Quiescent)
    (hlike : d.Like e) (hfuel : d.Fueled fuel) (hfuel' : e.Fueled fuel') :
    Abreast env' tools ((runLoop tools fuel d).eval env) ((runLoop tools fuel' e).eval env') ∧
      ((∀ d, env (.boundary d) = .continue) →
        ((runLoop tools fuel d).eval env).1.Like ((runLoop tools fuel' e).eval env').1 ∧
          ((runLoop tools fuel d).eval env).2 = ((runLoop tools fuel' e).eval env').2 ∧
          ((runLoop tools fuel' e).eval env').2 ≠ .outOfFuel) := by
  induction fuel generalizing d e fuel' with
  | zero => rcases hfuel with ⟨-, hfuel⟩ | hfuel <;> omega
  | succ fuel ih =>
      obtain ⟨less, rfl⟩ := hfuel'.pos
      by_cases hgoing : d.Going
      · have hgoing' := hlike.going_iff.mp hgoing
        cases hboundary : env (.boundary d) with
        | cancel => exact absurd hboundary (henv.boundary d)
        | pause =>
            rw [eval_runLoop_pause hgoing hboundary]
            exact ⟨⟨hquiet, .inl ⟨hgoing, e, less + 1, hlike, hfuel', rfl⟩⟩,
              fun hnever => by simp [hnever] at hboundary⟩
        | «continue» =>
            by_cases hfree : d.Free
            · have hfree' := hlike.free_iff.mp hfree
              have hdecide : env (.decide (d.decisionView tools)) = env' (.decide (e.decisionView tools)) := by
                rw [henv.decide, henv'.decide]
                exact congrArg world.decide hlike.log_eq
              cases hanswer : env (.decide (d.decisionView tools)) with
              | error error =>
                  rw [eval_runLoop_failed hgoing hboundary hfree hanswer,
                    eval_runLoop_failed hgoing' (hgo e) hfree' (hdecide.symm.trans hanswer)]
                  exact ⟨⟨hquiet, .inr ⟨hlike, rfl, by simp⟩⟩, fun _ => ⟨hlike, rfl, by simp⟩⟩
              | ok effect =>
                  obtain ⟨fuel, rfl⟩ := hfuel.two hgoing
                  obtain ⟨less, rfl⟩ := hfuel'.two hgoing'
                  rw [eval_runLoop_turn hgoing hboundary hfree hanswer,
                    eval_runLoop_turn hgoing' (hgo e) hfree' (hdecide.symm.trans hanswer)]
                  obtain ⟨call, added, hbatch, hext⟩ := turn_batch env tools d effect
                  obtain ⟨call', added', hbatch', hext'⟩ := turn_batch env' tools e effect
                  exact ih (hquiet.batch hgoing hbatch hext) (hlike.turn henv henv' tools effect)
                    (hbatch.fueled hgoing hext hfuel) (hbatch'.fueled hgoing' hext' hfuel')
            · obtain ⟨step, attempt, ask, hwaiting⟩ : ∃ step attempt ask,
                  d.state.harness = .waitingForMessage step attempt ask := by
                simpa [Free] using hfree
              obtain ⟨step', attempt', ask', hwaiting'⟩ : ∃ step attempt ask,
                  e.state.harness = .waitingForMessage step attempt ask := by
                simpa [Free] using mt hlike.free_iff.mpr hfree
              rw [eval_runLoop_waiting hgoing hboundary hwaiting, eval_runLoop_waiting hgoing' (hgo e) hwaiting']
              exact ⟨⟨hquiet, .inr ⟨hlike, rfl, by simp⟩⟩, fun _ => ⟨hlike, rfl, by simp⟩⟩
      · have hended' := mt hlike.going_iff.mpr hgoing
        rw [eval_runLoop_ended hgoing, eval_runLoop_ended hended']
        exact ⟨⟨hquiet, .inr ⟨hlike, rfl, by simp⟩⟩, fun _ => ⟨hlike, rfl, by simp⟩⟩

/-- A loop that was left by itself is left again where it stands. -/
theorem eval_runLoop_again (hgo : ∀ d, env (.boundary d) = .continue) (fuel : Nat) {d : Driver}
    (hfuel : d.Fueled fuel) (again : Nat) :
    (runLoop tools (again + 1) ((runLoop tools fuel d).eval env).1).eval env = (runLoop tools fuel d).eval env := by
  induction fuel generalizing d with
  | zero => rcases hfuel with ⟨-, hfuel⟩ | hfuel <;> omega
  | succ fuel ih =>
      by_cases hgoing : d.Going
      · by_cases hfree : d.Free
        · cases hanswer : env (.decide (d.decisionView tools)) with
          | error error =>
              rw [eval_runLoop_failed hgoing (hgo d) hfree hanswer]
              exact eval_runLoop_failed hgoing (hgo d) hfree hanswer again
          | ok effect =>
              obtain ⟨fuel, rfl⟩ := hfuel.two hgoing
              rw [eval_runLoop_turn hgoing (hgo d) hfree hanswer]
              obtain ⟨call, added, hbatch, hext⟩ := turn_batch env tools d effect
              exact ih (hbatch.fueled hgoing hext hfuel)
        · obtain ⟨step, attempt, ask, hwaiting⟩ : ∃ step attempt ask,
              d.state.harness = .waitingForMessage step attempt ask := by
            simpa [Free] using hfree
          rw [eval_runLoop_waiting hgoing (hgo d) hwaiting]
          exact eval_runLoop_waiting hgoing (hgo d) hwaiting again
      · rw [eval_runLoop_ended hgoing]
        exact eval_runLoop_ended hgoing again

end Lockstep

/-! ### Resuming a boundary -/

theorem Like.congr {d d' e : Driver} (h : d.Like e) (hspec : d'.spec = d.spec) (hsetup : d'.setup = d.setup)
    (hlog : d'.log = d.log) : d'.Like e where
  spec_eq := hspec.trans h.spec_eq
  setup_eq := hsetup.trans h.setup_eq
  log_eq := by
    rw [← h.log_eq]
    exact congrArg (List.map EventPayload.shown) hlog
  fold_eq := by
    rw [hspec, hlog]
    exact h.fold_eq

theorem Like.refl (d : Driver) : d.Like d := ⟨rfl, rfl, rfl, rfl⟩

theorem Quiescent.congr {d d' : Driver} (h : d.Quiescent) (hspec : d'.spec = d.spec) (hlog : d'.log = d.log) :
    d'.Quiescent where
  tracked := by
    rw [hspec, hlog]
    exact h.tracked
  closed := by
    refine ⟨by rw [hlog]; exact h.closed.ends, fun hterminal => ?_⟩
    rw [harness_eq, hspec, hlog] at hterminal
    rw [logEnded_eq, hlog, ← logEnded_eq]
    exact h.closed.ended hterminal
  last := by rw [hlog]; exact h.last
  advanced := by rw [advance_congr hspec hlog]; exact h.advanced

theorem prologue_finished (env : (c : HarnessCall) → c.Answer) (tools : List ToolDescriptor) {d : Driver}
    (hd : d.Resumable) :
    ∃ call added, d.Finished call added ∧ d.settled.Extends ((prologue tools d).eval env) added := by
  have hsafe : (World Unit (fun _ c answer _ => answer = env c) (fun _ _ => True)).Safe
      (fun _ d' => ∃ call added, d.Finished call added ∧ d.settled.Extends d' added) (prologue tools d) () :=
    prologue_safe tools hd () (fun _ _ _ _ _ _ => trivial) (fun added d' hfinished hext => ⟨_, _, hfinished, hext⟩)
      fun c answer _ added d' _ hfinished hext _ => ⟨_, _, hfinished, hext⟩
  exact hsafe.eval

theorem Extends.setup_eq {d d' : Driver} {added : List EventPayload} (h : d.Extends d' added) :
    d'.setup = d.setup := by
  obtain ⟨more, rfl, -⟩ := h
  rfl

/-- What is left of a quiescent log is to go on with it. -/
theorem Quiescent.resume {d : Driver} (h : d.Quiescent) (hstarted : .runStarted ∈ d.log) (stamp : Nat → Stamp)
    (setup : Setup) (tools : List ToolDescriptor) (env : (c : HarnessCall) → c.Answer) :
    ∃ start, resume d.spec d.events stamp = .ok start ∧
      ((prologue tools (start.setUp setup)).eval env).spec = d.spec ∧
      ((prologue tools (start.setUp setup)).eval env).setup = setup ∧
      ((prologue tools (start.setUp setup)).eval env).log = d.log := by
  obtain ⟨start, hstart⟩ := resume_ok_of_started d.spec stamp hstarted
  have hresumed := (resume_cases hstart).setUp setup
  obtain ⟨call, added, hfinished, hext⟩ := prologue_finished env tools hresumed.resumable
  refine ⟨start, hstart, hext.spec_eq.trans hresumed.spec_eq, hext.setup_eq, ?_⟩
  have hidle : ∀ {resumed}, (start.setUp setup).Starts d.spec d.events [] resumed →
      (start.setUp setup).pending = [] → (start.setUp setup).undecided = none →
      ((prologue tools (start.setUp setup)).eval env).log = d.log := by
    intro resumed hstarts hpending hundecided
    have hlog : (start.setUp setup).settled.log = d.log := hstarts.log_eq.trans (List.append_nil _)
    have hspec : (start.setUp setup).settled.spec = d.spec := hstarts.spec_eq
    have hadvance : (start.setUp setup).settled.advance = [] := by
      rw [advance_congr hspec hlog, h.advanced]
    have hadded : added = [] := by
      rcases hfinished.of_idle hpending hundecided with rfl | ⟨-, rfl⟩
      · rfl
      · exact hadvance
    rw [hext.log_eq, hadded, List.append_nil, hlog]
  have hopenHarness : hasEnded d.events = false → d.state.harness.isTerminal = false := by
    intro hopen
    by_contra hterminal
    have hended := h.closed.ended (by simpa using hterminal)
    rw [logEnded, hopen] at hended
    contradiction
  cases hresumed with
  | ended _ hstarts hpending hundecided => exact hidle hstarts hpending hundecided
  | started _ hnot => exact absurd hstarted hnot
  | completed hopen _ outcome hharness =>
      have := hopenHarness hopen
      rw [harness_eq, show d.log = payloads d.events from rfl, hharness] at this
      contradiction
  | terminal hopen _ hharness =>
      have := hopenHarness hopen
      rw [harness_eq, show d.log = payloads d.events from rfl, hharness] at this
      contradiction
  | undecided _ _ _ before effect hlast =>
      have := h.last
      rw [show d.log = payloads d.events from rfl, hlast] at this
      simp [isDecided] at this
  | pending _ _ _ _ hstarts hpending hundecided =>
      refine hidle hstarts ?_ hundecided
      rcases effectsOfLast_cases d.spec d.events with hnil | ⟨before, effect, hlast, heffects, happlicable, heffect⟩
      · rw [hpending, hnil]
      · have hdone := h.tracked.done
        have hcut := Tracked.cut h.tracked (List.prefix_refl _)
        rw [show d.log = before ++ [.effectAuthorized effect] from hlast] at hdone hcut
        rw [hcut.asked_of_authorized (hasOutcome_of_applicable happlicable heffect)] at hdone
        contradiction

/-! ### Replies -/

/-- The driver with `event` delivered to its log. -/
def deliver (d : Driver) (event : Event) : Driver := { d with events := d.events ++ [event] }

theorem deliver_log (d : Driver) (event : Event) : (d.deliver event).log = d.log ++ [event.payload] := by
  simp [deliver, log, payloads]

theorem Reply.isReply_payload (reply : Reply) (ask : MessageId) : isReply (reply.payload ask) = true := by
  cases reply <;> rfl

theorem reduce_reply (reply : Reply) (step attempt : UInt32) (ask : MessageId) (spec : RunSpec) :
    reduce (.waitingForMessage step attempt ask) (reply.payload ask) spec = (.running step attempt true, []) := by
  cases reply <;> simp [Reply.payload, reduce, HarnessState.isTerminal, answerAsk]

theorem count_reply (s : FoldState) (reply : Reply) (ask : MessageId) : s.count (reply.payload ask) = s := by
  cases reply <;> rfl

theorem reduceDispatch_reply (phase : DispatchPhase) (reply : Reply) (ask ask' : MessageId) :
    reduceDispatch phase (reply.payload ask) = reduceDispatch phase (reply.payload ask') := by
  cases reply <;> cases phase <;> rfl

/-- The same reply, delivered to two drivers that wait alike. -/
theorem Like.deliver {d e : Driver} (h : d.Like e) (reply : Reply) {step attempt step' attempt' : UInt32}
    {ask ask' : MessageId} {event event' : Event} (hwaiting : d.state.harness = .waitingForMessage step attempt ask)
    (hwaiting' : e.state.harness = .waitingForMessage step' attempt' ask')
    (hevent : event.payload = reply.payload ask) (hevent' : event'.payload = reply.payload ask') :
    (d.deliver event).Like (e.deliver event') where
  spec_eq := h.spec_eq
  setup_eq := h.setup_eq
  log_eq := by
    change shownLog (d.events ++ [event]) = shownLog (e.events ++ [event'])
    rw [shownLog_append, shownLog_append, h.log_eq]
    cases reply <;> simp [shownLog, payloads, hevent, hevent', Reply.payload, EventPayload.shown]
  fold_eq := by
    obtain ⟨hsame, hharness⟩ := FoldState.shown_cases h.fold_eq
    have hd : (foldAll d.spec d.log).harness = .waitingForMessage step attempt ask := hwaiting
    have he : (foldAll e.spec e.log).harness = .waitingForMessage step' attempt' ask' := hwaiting'
    have hsteps : step = step' ∧ attempt = attempt' := by
      rw [hd, he] at hharness
      simpa [HarnessState.shown] using hharness
    have hdispatch : (foldAll e.spec e.log).dispatch = (foldAll d.spec d.log).dispatch := by rw [hsame]
    rw [deliver_log, deliver_log]
    change (foldAll d.spec _).shown = (foldAll e.spec _).shown
    rw [foldAll_snoc, foldAll_snoc, hevent, hevent']
    simp only [foldStep, count_reply, hd, he, reduce_reply, hsteps.1, hsteps.2, hdispatch,
      reduceDispatch_reply _ reply ask ask']
    rw [hsame]

/-- A reply leaves its ask's effect with its outcome, and nothing else to do but to advance the answered step. -/
theorem Quiescent.deliver {d : Driver} (h : d.Quiescent) (hopen : d.logEnded = false) (reply : Reply)
    {step attempt : UInt32} {ask : MessageId} {event : Event}
    (hwaiting : d.state.harness = .waitingForMessage step attempt ask) (hevent : event.payload = reply.payload ask) :
    (d.deliver event).advanceAnsweredStep.Quiescent := by
  have hharness : (d.deliver event).state.harness = .running step attempt true := by
    rw [harness_eq, deliver_log, harnessOf_snoc, hevent, show harnessOf (d.deliver event).spec d.log = _ from hwaiting,
      reduce_reply]
  have hlog : (d.deliver event).advanceAnsweredStep.log = d.log ++ [reply.payload ask] ++
      (d.deliver event).advance := by
    rw [advanceAnsweredStep_log, deliver_log, hevent]
  have hspec : (d.deliver event).advanceAnsweredStep.spec = d.spec :=
    (d.deliver event).extends_advanceAnsweredStep.spec_eq
  have hnotTerminal : isTerminal (reply.payload ask) = false := by cases reply <;> rfl
  have hquiet := (d.deliver event).advance_quiet
  have hopen' : (d.deliver event).advanceAnsweredStep.logEnded = false := by
    rw [logEnded_eq] at hopen
    rw [logEnded_eq, hlog, List.any_append, List.any_append, hopen]
    have hstep : isTerminal .stepAdvanced = false := rfl
    rcases (d.deliver event).advance_cases with hadvance | hadvance <;> simp [hadvance, hnotTerminal, hstep]
  refine ⟨?_, ⟨?_, fun hterminal => ?_⟩, ?_, advance_advanceAnsweredStep _⟩
  · rw [hspec, hlog]
    refine Tracked.quiet ⟨?_, h.tracked.applies.append ?_⟩ hquiet
    · have hdone := h.tracked.done
      rw [Watch.run_append]
      revert hdone
      cases Watch.idle.run d.log with
      | settled effect =>
          cases reply <;> cases effect <;> simp [Reply.payload, Watch.next, Effect.isOutcome, Watch.isDone]
      | idle => cases reply <;> simp [Reply.payload, Watch.next, Watch.isDone]
      | _ => simp [Watch.isDone]
    · cases reply <;> rfl
  · rw [logEnded_eq] at hopen'
    exact endsOnce_of_none hopen'
  · exfalso
    have hext := (d.deliver event).extends_advanceAnsweredStep
    rw [hext.harness_eq] at hterminal
    rcases harnessOf_isTerminal hterminal with hbefore | hmore | ⟨outcome, hmore⟩
    · rw [← harness_eq, hharness] at hbefore
      contradiction
    · rcases (d.deliver event).advance_cases with hadvance | hadvance <;> simp [hadvance, isTerminal] at hmore
    · rcases (d.deliver event).advance_cases with hadvance | hadvance <;> simp [hadvance] at hmore
  · rw [hlog]
    rcases (d.deliver event).advance_cases with hadvance | hadvance <;> simp [hadvance, isDecided]
    cases reply <;> rfl

/-! ### Interrupted and uninterrupted runs -/

section Interrupted

variable (world : Environment) (spec : RunSpec) (tools : List ToolDescriptor) (setup : Setup)

/-- The logs that are stored for a run that is driven in segments, each of which may be paused at any boundary, and
that gets `replies` while it waits. -/
inductive Interrupted : List Reply → List Event → Prop
  | start : Interrupted [] []
  | segment {replies : List Reply} {log : List Event} {env : (c : HarnessCall) → c.Answer} {stamp : Nat → Stamp}
      {start : Driver} (stored : Interrupted replies log) (henv : Follows world env)
      (hresume : resume spec log stamp = .ok start) :
      Interrupted replies ((runUntil tools (start.setUp setup)).eval env).1.events
  | reply {replies : List Reply} {log : List Event} {step attempt : UInt32} {ask : MessageId} {event : Event}
      (reply : Reply) (stored : Interrupted replies log) (hopen : hasEnded log = false)
      (hwaiting : (fold spec log).harness = .waitingForMessage step attempt ask)
      (hevent : event.payload = reply.payload ask) : Interrupted (replies ++ [reply]) (log ++ [event])

/-- How a run returns that is never paused, and that goes on in place with each of `replies`. -/
inductive Uninterrupted : List Reply → Driver × Finish → Prop
  | start {env : (c : HarnessCall) → c.Answer} (stamp : Nat → Stamp) (henv : Follows world env)
      (hgo : ∀ d, env (.boundary d) = .continue) :
      Uninterrupted [] ((runUntil tools ((boot spec stamp).setUp setup)).eval env)
  | reply {replies : List Reply} {d : Driver} {env : (c : HarnessCall) → c.Answer} {step attempt : UInt32}
      {ask : MessageId} {event : Event} (reply : Reply) (driven : Uninterrupted replies (d, .ok))
      (hopen : d.logEnded = false) (hwaiting : d.state.harness = .waitingForMessage step attempt ask)
      (hevent : event.payload = reply.payload ask) (henv : Follows world env)
      (hgo : ∀ d, env (.boundary d) = .continue) :
      Uninterrupted (replies ++ [reply])
        ((runLoop tools d.fuel (d.deliver event).advanceAnsweredStep).eval env)

/-- A worker of `world` that never pauses, with empty private memory. -/
def Environment.answers (world : Environment) : (c : HarnessCall) → c.Answer
  | .decide view => world.decide (shownLog view.events)
  | .tool log name input => world.tool (shownLog log) name input
  | .model log request => world.model (shownLog log) request
  | .memoryRead log owner key =>
      if owner.scope.isPrivate then .ok none else world.memoryRead (shownLog log) owner key
  | .memoryWrite log owner key value =>
      if owner.scope.isPrivate then .ok () else world.memoryWrite (shownLog log) owner key value
  | .spawn log request => world.spawn (shownLog log) request
  | .send log request => world.send (shownLog log) request
  | .boundary _ => .continue

theorem Environment.follows (world : Environment) : Follows world world.answers where
  decide _ := rfl
  tool _ _ _ := rfl
  model _ _ := rfl
  memoryRead _ _ _ h := if_neg (by simp [h])
  privateRead _ _ _ h := ⟨none, if_pos h⟩
  memoryWrite _ _ _ _ h := if_neg (by simp [h])
  privateWrite _ _ _ _ h := if_pos h
  spawn _ _ := rfl
  send _ _ := rfl
  boundary _ := by
    change Boundary.continue ≠ .cancel
    decide

/-- What a stored log and the uninterrupted run have in common: resumed, it stands at a boundary that the other
passes too. -/
structure Beside (replies : List Reply) (log : List Event) (d : Driver) : Prop where
  quiet : d.Quiescent
  spec_eq : d.spec = spec
  setup_eq : d.setup = setup
  started : .runStarted ∈ d.log
  /-- A log that waits is resumed as it is. -/
  waiting : ∀ step attempt ask, (fold spec log).harness = .waitingForMessage step attempt ask → d.log = payloads log
  passes : ∀ whole, Uninterrupted world spec tools setup replies whole → ∃ env e fuel, Follows world env ∧
    (∀ d, env (.boundary d) = .continue) ∧ d.Like e ∧ e.Fueled fuel ∧ (runLoop tools fuel e).eval env = whole

theorem fueled_fuel (d e : Driver) (h : e.spec = d.spec) : e.Fueled d.fuel := by
  right
  rw [h, fuel]
  omega

theorem boot_quiescent (spec : RunSpec) (stamp : Nat → Stamp) : (boot spec stamp).Quiescent where
  tracked := by
    have hempty : Applies spec [] := by
      intro before effect hnil
      simp at hnil
    have hstarted : Applies spec ([] ++ [.runStarted]) := hempty.append rfl
    exact ⟨rfl, hstarted⟩
  closed := ⟨endsOnce_of_none rfl, fun hterminal => by simp [boot, push_harness] at hterminal; contradiction⟩
  last := rfl
  advanced := rfl

/-- Resumed by any worker, the stored log stands beside the uninterrupted run. -/
def Resumes (replies : List Reply) (log : List Event) : Prop :=
  ∀ stamp env, Follows world env → ∃ start, resume spec log stamp = .ok start ∧
    Beside world spec tools setup replies log ((prologue tools (start.setUp setup)).eval env)

variable {world spec tools setup}

theorem Uninterrupted.nil_cases {whole : Driver × Finish} (h : Uninterrupted world spec tools setup [] whole) :
    ∃ env stamp, Follows world env ∧ (∀ d, env (.boundary d) = .continue) ∧
      whole = (runUntil tools ((boot spec stamp).setUp setup)).eval env := by
  generalize hreplies : ([] : List Reply) = replies at h
  cases h with
  | @start env stamp henv hgo => exact ⟨env, stamp, henv, hgo, rfl⟩
  | reply => simp at hreplies

theorem Uninterrupted.snoc_cases {replies : List Reply} {reply : Reply} {whole : Driver × Finish}
    (h : Uninterrupted world spec tools setup (replies ++ [reply]) whole) :
    ∃ d env step attempt ask event, Uninterrupted world spec tools setup replies (d, .ok) ∧
      d.logEnded = false ∧ d.state.harness = .waitingForMessage step attempt ask ∧
      event.payload = reply.payload ask ∧ Follows world env ∧ (∀ d, env (.boundary d) = .continue) ∧
      whole = (runLoop tools d.fuel (d.deliver event).advanceAnsweredStep).eval env := by
  generalize hreplies : replies ++ [reply] = all at h
  cases h with
  | start => simp at hreplies
  | @reply replies' d env step attempt ask event reply' driven hopen hwaiting hevent henv hgo =>
      obtain ⟨rfl, hlast⟩ := List.append_inj' hreplies rfl
      obtain rfl : reply = reply' := by simpa using hlast
      exact ⟨d, env, step, attempt, ask, event, driven, hopen, hwaiting, hevent, henv, hgo, rfl⟩

theorem resumes_start : Resumes world spec tools setup [] [] := by
  intro stamp env henv
  refine ⟨boot spec stamp, resume_nil spec stamp, ?_⟩
  have hquiet := boot_quiescent spec stamp
  refine ⟨hquiet.congr rfl rfl, rfl, rfl, ?_, fun step attempt ask hwaiting => ?_, fun whole hwhole => ?_⟩
  · change .runStarted ∈ [EventPayload.runStarted]
    simp
  · simp [fold, FoldState.toRunState, FoldState.init] at hwaiting
  · obtain ⟨env', stamp', henv', hgo, rfl⟩ := hwhole.nil_cases
    exact ⟨env', (boot spec stamp').setUp setup, _, henv', hgo, ⟨rfl, rfl, rfl, rfl⟩, fueled_fuel _ _ rfl, rfl⟩

theorem eval_runUntil (env : (c : HarnessCall) → c.Answer) (tools : List ToolDescriptor) (d : Driver) :
    (runUntil tools d).eval env =
      (runLoop tools ((prologue tools d).eval env).fuel ((prologue tools d).eval env)).eval env := by
  rw [runUntil, Prog.eval_bind]

/-- A paused or finished segment is resumed where it stands. -/
theorem Resumes.segment {replies : List Reply} {log : List Event} {env : (c : HarnessCall) → c.Answer}
    {stamp : Nat → Stamp} {start : Driver} (h : Resumes world spec tools setup replies log)
    (henv : Follows world env) (hresume : resume spec log stamp = .ok start) :
    Resumes world spec tools setup replies ((runUntil tools (start.setUp setup)).eval env).1.events := by
  obtain ⟨start', hstart', hbeside⟩ := h stamp env henv
  obtain rfl : start' = start := by rw [hresume] at hstart'; cases hstart'; rfl
  rw [eval_runUntil]
  generalize (prologue tools (start'.setUp setup)).eval env = d at hbeside
  have hfuel := fueled_fuel d d rfl
  have hquiet : ((runLoop tools d.fuel d).eval env).1.Quiescent :=
    (lockstep henv world.follows (fun _ => rfl) d.fuel hbeside.quiet (.refl d) hfuel hfuel).1.1
  obtain ⟨added, hext⟩ := eval_runLoop_extends env tools hfuel
  have hstarted : .runStarted ∈ ((runLoop tools d.fuel d).eval env).1.log := by
    rw [hext.log_eq]
    exact List.mem_append_left _ hbeside.started
  have hspec := hext.spec_eq.trans hbeside.spec_eq
  intro stamp' env' henv'
  obtain ⟨next, hnext, hspec', hsetup', hlog'⟩ := hquiet.resume hstarted stamp' setup tools env'
  rw [hspec] at hnext
  refine ⟨next, hnext, hquiet.congr hspec' hlog', hspec'.trans hspec, hsetup', by rwa [hlog'], fun _ _ _ _ => hlog', ?_⟩
  intro whole hwhole
  obtain ⟨other, e, fuel, hother, hgo, hlike, hfuel', rfl⟩ := hbeside.passes whole hwhole
  have hsetup : ((prologue tools (next.setUp setup)).eval env').setup = ((runLoop tools d.fuel d).eval env).1.setup :=
    hsetup'.trans (hext.setup_eq.trans hbeside.setup_eq).symm
  rcases (lockstep henv hother hgo d.fuel hbeside.quiet hlike hfuel hfuel').1.2 with
    ⟨-, e', fuel', hlike', hfuel', hsame⟩ | ⟨hlike', -, -⟩
  · exact ⟨other, e', fuel', hother, hgo, hlike'.congr hspec' hsetup hlog', hfuel', hsame⟩
  · refine ⟨other, _, _, hother, hgo, hlike'.congr hspec' hsetup hlog', fueled_fuel _ _ rfl, ?_⟩
    exact eval_runLoop_again hgo fuel hfuel' _

/-- A log that just got the reply it waited for has only its answered step to advance. -/
theorem Resumed.prologue_reply {events : List Event} {start d : Driver} (h : Resumed spec events start)
    (hopen : hasEnded events = false) (hstarted : .runStarted ∈ payloads events) {step attempt : UInt32}
    (hspec : d.spec = spec) (hlog : d.log = payloads events) (hharness : d.state.harness = .running step attempt true)
    {before : List EventPayload} {last : EventPayload} (hlast : payloads events = before ++ [last])
    (hreply : isReply last = true) (tools : List ToolDescriptor) (env : (c : HarnessCall) → c.Answer) :
    ((prologue tools start).eval env).spec = spec ∧ ((prologue tools start).eval env).setup = start.setup ∧
      ((prologue tools start).eval env).log = d.advanceAnsweredStep.log := by
  obtain ⟨call, added, hfinished, hext⟩ := prologue_finished env tools h.resumable
  refine ⟨hext.spec_eq.trans h.spec_eq, hext.setup_eq, ?_⟩
  obtain ⟨hpending, hundecided⟩ := h.idle_of_last before last hlast
    (by cases last <;> simp_all [isReply, isDecided]) (by cases last <;> simp_all [isReply, isAuthorized])
  have hrunning : harnessOf spec (payloads events) = .running step attempt true := by
    rw [← hspec, ← hlog, ← harness_eq, hharness]
  have hstarts : start.Starts spec events [] true := by
    cases h with
    | ended hended => simp [hopen] at hended
    | started _ hnot => exact absurd hstarted hnot
    | completed _ _ outcome hcompleted => simp [hrunning] at hcompleted
    | terminal _ _ hterminal => simp [hrunning, HarnessState.isTerminal] at hterminal
    | undecided _ _ _ _ _ _ hstarts | pending _ _ _ _ hstarts => exact hstarts
  have hsettled : start.settled.log = d.log := by
    rw [hlog]
    exact hstarts.log_eq.trans (List.append_nil _)
  have hsettledSpec : start.settled.spec = d.spec := hstarts.spec_eq.trans hspec.symm
  rw [hext.log_eq, advanceAnsweredStep_log, hsettled]
  cases hfinished with
  | untouched hresumed => simp [hstarts.resumed_eq] at hresumed
  | advanced => rw [advance_congr hsettledSpec hsettled]
  | performed _ _ _ _ hpending' => simp [hpending] at hpending'
  | denied _ _ _ _ hundecided' => simp [hundecided] at hundecided'
  | completed _ _ _ hundecided' => simp [hundecided] at hundecided'
  | authorized _ _ _ _ _ _ hundecided' => simp [hundecided] at hundecided'

/-- A log that waits is resumed with the reply it got. -/
theorem Resumes.reply {replies : List Reply} {log : List Event} {step attempt : UInt32} {ask : MessageId}
    {event : Event} (reply : Reply) (h : Resumes world spec tools setup replies log) (hopen : hasEnded log = false)
    (hwaiting : (fold spec log).harness = .waitingForMessage step attempt ask)
    (hevent : event.payload = reply.payload ask) :
    Resumes world spec tools setup (replies ++ [reply]) (log ++ [event]) := by
  intro stamp env henv
  obtain ⟨start, -, hbeside⟩ := h stamp env henv
  generalize (prologue tools (start.setUp setup)).eval env = d at hbeside
  have hlog := hbeside.waiting step attempt ask hwaiting
  have hopen' : d.logEnded = false := by rw [logEnded_eq, hlog, ← hasEnded_eq, hopen]
  have hwaiting' : d.state.harness = .waitingForMessage step attempt ask := by
    rw [harness_eq, hbeside.spec_eq, hlog]
    exact hwaiting
  have hgoing : d.Going := ⟨by rw [hwaiting']; rfl, hopen'⟩
  have hquiet := hbeside.quiet.deliver hopen' reply hwaiting' hevent
  have hdelivered : (d.deliver event).log = payloads (log ++ [event]) := by
    rw [deliver_log, payloads_append, hlog]
    rfl
  have hharness : (d.deliver event).state.harness = .running step attempt true := by
    rw [harness_eq, deliver_log, harnessOf_snoc, hevent, show harnessOf (d.deliver event).spec d.log = _ from hwaiting',
      reduce_reply]
  have hstarted : .runStarted ∈ payloads (log ++ [event]) := by
    rw [payloads_append, ← hlog]
    exact List.mem_append_left _ hbeside.started
  have hnotEnded : hasEnded (log ++ [event]) = false := by
    rw [hasEnded_append, hopen, hasEnded_singleton, hevent]
    cases reply <;> rfl
  obtain ⟨next, hnext⟩ := resume_ok_of_started spec stamp hstarted
  obtain ⟨hspec', hsetup', hlog'⟩ := ((resume_cases hnext).setUp setup).prologue_reply hnotEnded hstarted
    (d := d.deliver event) hbeside.spec_eq hdelivered hharness (by rw [payloads_append]; rfl)
    (by rw [hevent, Reply.isReply_payload]) tools env
  have hext := (d.deliver event).extends_advanceAnsweredStep
  have hspec := hspec'.trans (hext.spec_eq.trans hbeside.spec_eq).symm
  have hsetup := hsetup'.trans (hext.setup_eq.trans hbeside.setup_eq).symm
  refine ⟨next, hnext, hquiet.congr hspec hlog', hspec', hsetup', ?_, ?_, ?_⟩
  · rw [hlog', hext.log_eq, hdelivered]
    exact List.mem_append_left _ hstarted
  · intro step' attempt' ask' hcontra
    rw [fold_harness, ← hdelivered, ← hbeside.spec_eq, show d.spec = (d.deliver event).spec from rfl, ← harness_eq,
      hharness] at hcontra
    contradiction
  · intro whole hwhole
    obtain ⟨e, env', step', attempt', ask', event', hdriven, -, hwaits, hevent', hfollows, hgo, rfl⟩ :=
      hwhole.snoc_cases
    obtain ⟨other, e', fuel, -, hgo', hlike, hfuel, hreturns⟩ := hbeside.passes (e, .ok) hdriven
    obtain ⟨less, rfl⟩ := hfuel.pos
    have hsame : e' = e := by
      obtain ⟨ask'', hwaits'⟩ : ∃ ask'', e'.state.harness = .waitingForMessage step attempt ask'' := by
        have hshown := hlike.harness_shown
        rw [hwaiting'] at hshown
        exact shown_waiting hshown.symm
      rw [eval_runLoop_waiting (hlike.going_iff.mp hgoing) (hgo' e') hwaits'] at hreturns
      exact congrArg Prod.fst hreturns
    subst hsame
    refine ⟨env', _, _, hfollows, hgo, ?_, fueled_fuel _ _ ?_, rfl⟩
    · exact (hlike.deliver reply hwaiting' hwaits hevent hevent').advanceAnsweredStep.congr hspec hsetup hlog'
    · exact (e'.deliver event').extends_advanceAnsweredStep.spec_eq

theorem Interrupted.resumes {replies : List Reply} {log : List Event}
    (h : Interrupted world spec tools setup replies log) : Resumes world spec tools setup replies log := by
  induction h with
  | start => exact resumes_start
  | segment _ henv hresume ih => exact ih.segment henv hresume
  | reply reply _ hopen hwaiting hevent ih => exact ih.reply reply hopen hwaiting hevent

/-- Every interrupted run has an uninterrupted one that gets the same replies. -/
theorem Interrupted.exists_uninterrupted {replies : List Reply} {log : List Event}
    (h : Interrupted world spec tools setup replies log) :
    ∃ whole, Uninterrupted world spec tools setup replies whole := by
  induction h with
  | start => exact ⟨_, .start Stamp.plain world.follows fun _ => rfl⟩
  | segment _ _ _ ih => exact ih
  | @reply replies log step attempt ask event reply stored hopen hwaiting hevent ih =>
      obtain ⟨whole, hwhole⟩ := ih
      obtain ⟨start, -, hbeside⟩ := stored.resumes Stamp.plain world.answers world.follows
      generalize (prologue tools (start.setUp setup)).eval world.answers = d at hbeside
      have hlog := hbeside.waiting step attempt ask hwaiting
      have hopen' : d.logEnded = false := by rw [logEnded_eq, hlog, ← hasEnded_eq, hopen]
      have hwaiting' : d.state.harness = .waitingForMessage step attempt ask := by
        rw [harness_eq, hbeside.spec_eq, hlog]
        exact hwaiting
      obtain ⟨env, e, fuel, henv, hgo, hlike, hfuel, rfl⟩ := hbeside.passes whole hwhole
      obtain ⟨less, rfl⟩ := hfuel.pos
      have hgoing : d.Going := ⟨by rw [hwaiting']; rfl, hopen'⟩
      obtain ⟨ask', hwaits⟩ : ∃ ask', e.state.harness = .waitingForMessage step attempt ask' := by
        have hshown := hlike.harness_shown
        rw [hwaiting'] at hshown
        exact shown_waiting hshown.symm
      rw [eval_runLoop_waiting (hlike.going_iff.mp hgoing) (hgo e) hwaits] at hwhole
      have hanswer : (⟨event.envelope, reply.payload ask'⟩ : Event).payload = reply.payload ask' := rfl
      exact ⟨_, .reply reply hwhole (hlike.logEnded_eq ▸ hopen') hwaits hanswer world.follows fun _ => rfl⟩

/-- However a run was paused, stored and resumed, driven to its end it shows the log of the run that was never
paused and got the same replies. -/
theorem resumed_shows_uninterrupted (world : Environment) (spec : RunSpec) (tools : List ToolDescriptor)
    (setup : Setup) (replies : List Reply) (log : List Event)
    (h : Interrupted world spec tools setup replies log) :
    (∃ whole, Uninterrupted world spec tools setup replies whole) ∧
    ∀ stamp env, Follows world env → (∀ d, env (.boundary d) = .continue) →
      ∃ start, resume spec log stamp = .ok start ∧
        ∀ whole, Uninterrupted world spec tools setup replies whole →
          shownLog ((runUntil tools (start.setUp setup)).eval env).1.events = shownLog whole.1.events ∧
          ((runUntil tools (start.setUp setup)).eval env).2 = whole.2 ∧ whole.2 ≠ .outOfFuel := by
  refine ⟨h.exists_uninterrupted, fun stamp env henv hgo => ?_⟩
  obtain ⟨start, hstart, hbeside⟩ := h.resumes stamp env henv
  refine ⟨start, hstart, fun whole hwhole => ?_⟩
  rw [eval_runUntil]
  generalize (prologue tools (start.setUp setup)).eval env = d at hbeside
  obtain ⟨other, e, fuel, hother, hgo', hlike, hfuel, rfl⟩ := hbeside.passes whole hwhole
  obtain ⟨hsame, hfinish, hreturns⟩ :=
    (lockstep henv hother hgo' d.fuel hbeside.quiet hlike (fueled_fuel d d rfl) hfuel).2 hgo
  exact ⟨hsame.log_eq, hfinish, hreturns⟩

end Interrupted

/-! ### A question, and a memory that is lost -/

def asker : RunSpec := { RunSpec.plain 1 ⟨8, 8⟩ with capabilities := [⟨"user.ask"⟩] }

def asking : Setup := ⟨[], false, false, true, []⟩

/-- The decider asks the user, then completes. -/
def asksOnce : Environment where
  decide log := if log.length ≤ 1 then .ok (.askUser "which?") else .ok (.complete "done")
  tool _ _ _ := .error "none"
  model _ _ := .error "none"
  memoryRead _ _ _ := .error ()
  memoryWrite _ _ _ _ := .error ()
  spawn _ _ := .error "none"
  send _ _ := .error "none"

/-- The worker that asked, up to where the run waits. -/
def asked : Driver × Finish := (runUntil [] ((boot asker Stamp.plain).setUp asking)).eval asksOnce.answers

def answer : Event := Event.record asker .system (Stamp.plain 9) (.userAnswered ⟨3⟩ "that one")

/-- The run that asked the user goes on with the answer as if it had never been stored. -/
theorem answered_question_shows_uninterrupted :
    ∃ start, resume asker (asked.1.events ++ [answer]) Stamp.plain = .ok start ∧
      ∀ whole, Uninterrupted asksOnce asker [] asking [.answered "that one"] whole →
        shownLog ((runUntil [] (start.setUp asking)).eval asksOnce.answers).1.events = shownLog whole.1.events ∧
        ((runUntil [] (start.setUp asking)).eval asksOnce.answers).2 = whole.2 ∧ whole.2 ≠ .outOfFuel := by
  have hasked : Interrupted asksOnce asker [] asking [] asked.1.events :=
    .segment .start asksOnce.follows (resume_nil asker Stamp.plain)
  have hwaiting : (fold asker asked.1.events).harness = .waitingForMessage 1 0 ⟨3⟩ := by decide +kernel
  have hstored : Interrupted asksOnce asker [] asking ([] ++ [.answered "that one"]) (asked.1.events ++ [answer]) :=
    .reply (.answered "that one") hasked (by decide +kernel) hwaiting rfl
  exact (resumed_shows_uninterrupted _ _ _ _ _ _ hstored).2 Stamp.plain asksOnce.answers asksOnce.follows fun _ => rfl

def rememberer : RunSpec :=
  { RunSpec.plain 1 ⟨8, 8⟩ with capabilities := [⟨"memory.read"⟩, ⟨"memory.write"⟩] }

def isWritten : EventPayload → Bool
  | .memoryWritten _ _ _ => true
  | _ => false

def isRead : EventPayload → Bool
  | .memoryRead _ _ _ => true
  | _ => false

/-- A decider that is a function of the log: it writes to run memory, reads it back, and completes with what the
log says it read. -/
def recalls (log : List EventPayload) : Effect :=
  if !log.any isWritten then .memoryWrite .run "key" "kept"
  else if !log.any isRead then .memoryRead .run "key"
  else .complete (if .memoryRead .run "key" (some "kept") ∈ log then "kept" else "lost")

/-- A worker that took the run over when its log had `since` events: its run memory holds what the run wrote since
then. With `pauses` it pauses once the run has written. -/
def worker (since : Nat) (pauses : Bool) : (c : HarnessCall) → c.Answer
  | .decide view => .ok (recalls (payloads view.events))
  | .memoryRead log _ _ => .ok (if (payloads (log.drop since)).any isWritten then some "kept" else none)
  | .memoryWrite _ _ _ _ => .ok ()
  | .boundary d => if pauses && d.log.any isWritten then .pause else .continue
  | .tool _ _ _ | .model _ _ | .spawn _ _ | .send _ _ => .error "none"

/-- The run as one worker paused it after its write. -/
def wrote : Driver × Finish := (runUntil [] ((boot rememberer Stamp.plain).setUp asking)).eval (worker 0 true)

/-- The worker that resumes the run does not hold what the first one wrote, and the decider, a function of the log
it is shown, completes otherwise than in the run that was never paused. -/
theorem lost_memory_changes_the_run :
    wrote.1.Going ∧ wrote.2 = .ok ∧
    ∃ start, resume rememberer wrote.1.events Stamp.plain = .ok start ∧
      shownLog ((runUntil [] (start.setUp asking)).eval (worker wrote.1.events.length false)).1.events ≠
        shownLog ((runUntil [] ((boot rememberer Stamp.plain).setUp asking)).eval (worker 0 false)).1.events := by
  refine ⟨⟨by decide +kernel, by decide +kernel⟩, by decide +kernel, _, rfl, by decide +kernel⟩

end Driver
end Gol
