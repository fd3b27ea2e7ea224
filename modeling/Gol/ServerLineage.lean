import Gol.HarnessCalls
import Gol.LibraryCodes
import Gol.RuntimeFormat
import Gol.RuntimeHost
import Gol.ServerFires

/-! The ids of child runs (`spec.rs`). A child's id is a hash of five things written one after another. A delegation
is numbered by the harness's step and a message's task by the decision that sent it, with the high bit set, so that
neither takes the other's id while the run's steps stay below that bit. Both numbers are read off the log, and so are
the same when it is resumed. -/

namespace Gol
open Library Driver

/-! ### What is hashed -/

/-- The bytes that `build` hashes. -/
def ChildName.bytes (name : ChildName) : Bytes :=
  uuidBytes name.root.uuid ++ uuidBytes name.parent.uuid ++ Journal.leBytes name.step.toNat ++
    uuidBytes name.agentId.uuid ++
    bytesOf name.input

theorem splits_uuid : Splits uuidBytes := Splits.of_length uuidBytes_length fun _ _ => uuidBytes_injective

theorem splits_step : Splits fun step : UInt32 => Journal.leBytes step.toNat := by
  apply Splits.of_length fun _ => Journal.leBytes_length _
  intro step step' h
  apply UInt32.toNat_inj.mp
  exact Journal.leBytes_injective step.toNat_lt step'.toNat_lt h

/-- The bytes of a name up to its input. -/
theorem splits_head : Splits fun head : RunId × RunId × UInt32 × AgentId =>
    uuidBytes head.1.uuid ++ (uuidBytes head.2.1.uuid ++
      (Journal.leBytes head.2.2.1.toNat ++ uuidBytes head.2.2.2.uuid)) := by
  have hrun : Splits fun id : RunId => uuidBytes id.uuid := by
    apply splits_uuid.comp
    rintro ⟨id⟩ ⟨id'⟩ rfl
    rfl
  have hagent : Splits fun id : AgentId => uuidBytes id.uuid := by
    apply splits_uuid.comp
    rintro ⟨id⟩ ⟨id'⟩ rfl
    rfl
  exact hrun.pair (hrun.pair (splits_step.pair hagent))

theorem ChildName.bytes_injective : Function.Injective ChildName.bytes := by
  rintro ⟨root, parent, step, agentId, input⟩ ⟨root', parent', step', agentId', input'⟩ h
  simp only [bytes, List.append_assoc] at h
  have hsplit := @splits_head (root, parent, step, agentId) (root', parent', step', agentId')
    (bytesOf input) (bytesOf input')
    (by simpa only [List.append_assoc] using h)
  obtain ⟨hhead, hinput⟩ := hsplit
  simp only [Prod.mk.injEq] at hhead
  obtain ⟨rfl, rfl, rfl, rfl⟩ := hhead
  rw [bytesOf_injective hinput]

theorem ChildName.bytes_inj (name name' : ChildName) : name.bytes = name'.bytes ↔
    name.root = name'.root ∧ name.parent = name'.parent ∧ name.step = name'.step ∧ name.agentId = name'.agentId ∧
      name.input = name'.input := by
  constructor
  · intro h
    obtain rfl := ChildName.bytes_injective h
    exact ⟨rfl, rfl, rfl, rfl, rfl⟩
  · obtain ⟨root, parent, step, agentId, input⟩ := name
    obtain ⟨root', parent', step', agentId', input'⟩ := name'
    rintro ⟨rfl, rfl, rfl, rfl, rfl⟩
    rfl

/-! ### The numbers of a run's calls -/

/-- The request that a message's task is started with. -/
def MessageRequest.task (request : MessageRequest) (limits : Limits) : ChildRequest :=
  ⟨request.from, taskStep request.decision, request.toAgent, request.body, limits⟩

/-- The child that a call asks for. -/
def HarnessCall.child : HarnessCall → Option ChildRequest
  | .spawn _ request => some request
  | .send _ request => request.limits.map request.task
  | _ => none

/-- A delegation is made in the harness's step, and a message by the decision counted last. -/
def NumberedCall : HarnessCall → Prop
  | .spawn log request =>
      ∃ attempt answered, harnessOf request.parent (payloads log) = .running request.step attempt answered
  | .send log request => request.decision = (foldAll request.from (payloads log)).steps ∧
      request.limits.isSome = (request.replyTo.isNone || request.expectsReply)
  | _ => True

theorem isRunning_of_carve {d : Driver} {limits : Limits} (h : d.carve = .ok limits) :
    d.state.harness.isRunning = true := by
  unfold carve at h
  dsimp only at h
  split at h
  · cases h
  · next hrunning => simpa using hrunning

theorem Driver.Performs.only {P : HarnessCall → Prop} {d : Driver} {effect : Effect}
    {p : Prog HarnessSig (Driver × Bool)} (h : d.Performs effect p)
    (hP : ∀ c answer added, d.Outcome effect (some ⟨c, answer⟩) added → P c) : p.Only P := by
  cases p with
  | ret value => trivial
  | call c next =>
      obtain ⟨-, hanswers⟩ := h
      obtain ⟨answer⟩ := answer_nonempty c
      obtain ⟨d', go, added, -, houtcome, -⟩ := hanswers answer
      refine ⟨hP c answer added houtcome, fun answer => ?_⟩
      obtain ⟨d', go, added, hret, -, -⟩ := hanswers answer
      rw [hret]
      trivial

theorem Driver.Outcome.numbered {d : Driver} {effect : Effect} {call : Option (Sigma HarnessCall.Answer)}
    {added : List EventPayload} (h : d.Outcome effect call added)
    (hdelegate : ∀ agentId input, effect ≠ .delegate agentId input)
    (hsend : ∀ toAgent body expectsReply replyTo timeoutSecs,
      effect ≠ .sendMessage toAgent body expectsReply replyTo timeoutSecs)
    (c : HarnessCall) (answer : c.Answer) (hcall : call = some ⟨c, answer⟩) : NumberedCall c := by
  cases h with
  | delegateRefused agentId input | childStarted agentId input => exact absurd rfl (hdelegate agentId input)
  | messageRefused toAgent body expectsReply replyTo timeoutSecs
  | messageSent toAgent body expectsReply replyTo timeoutSecs =>
      exact absurd rfl (hsend toAgent body expectsReply replyTo timeoutSecs)
  | readFailed _ _ _ _ _ hread =>
      rcases hread with rfl | ⟨owner, rfl⟩
      · cases hcall
      · cases hcall
        trivial
  | writeFailed _ _ _ _ _ _ hwrite =>
      rcases hwrite with rfl | ⟨owner, rfl⟩
      · cases hcall
      · cases hcall
        trivial
  | toolFailed | toolResult | modelResponded | modelFailed | memoryRead | memoryWritten =>
      cases hcall
      trivial
  | _ => cases hcall

theorem numbered_callRule : CallRule NumberedCall where
  decide _ := trivial
  boundary _ := trivial
  perform {d effect before} _ tools := by
    cases effect with
    | delegate agentId input =>
        refine Prog.Only.bind ?_ fun _ => trivial
        simp only [delegate]
        split
        · trivial
        · next given hcarve =>
            have hrunning := isRunning_of_carve hcarve
            cases hharness : d.state.harness with
            | running step attempt answered =>
                split
                · trivial
                · exact ⟨⟨attempt, answered, hharness⟩, fun answer => by cases answer <;> trivial⟩
            | _ =>
                rw [hharness] at hrunning
                cases hrunning
    | sendMessage toAgent body expectsReply replyTo timeoutSecs =>
        refine Prog.Only.bind ?_ fun _ => trivial
        simp only [sendMessage]
        split
        · trivial
        · next limits hlimits =>
            obtain ⟨-, -, hstarts⟩ := carve_of_limits hlimits
            exact ⟨⟨rfl, hstarts⟩, fun answer => by cases answer <;> trivial⟩
    | _ =>
        apply (d.performs tools _).only
        exact fun c answer added houtcome => houtcome.numbered (by simp) (by simp) c answer rfl

/-- What a run asks for is asked for in its own name. -/
def AskedBy (spec : RunSpec) : HarnessCall → Prop
  | .spawn _ request => request.parent = spec
  | .send _ request => request.from = spec
  | _ => True

theorem Driver.IsWork.askedBy {d : Driver} {c : HarnessCall} (h : d.IsWork c) : AskedBy d.spec c := by
  cases c with
  | spawn log request => exact h.2.1
  | send log request => exact h.2.1
  | _ => trivial

theorem askedBy_loopRule (spec : RunSpec) (tools : List ToolDescriptor) :
    LoopRule (fun (_ : Unit) _ _ _ => True) (fun _ => AskedBy spec) tools (fun _ d => d.spec = spec)
      (fun _ _ => True) where
  boundary _ _ hI _ := ⟨trivial, fun _ _ _ => hI⟩
  decide _ _ hI _ := ⟨trivial, fun _ _ _ => hI⟩
  work s d mid added c hI _ hext _ hwork := by
    rw [← hI, ← hext.spec_eq]
    exact hwork.askedBy
  batch _ d added d' hI _ _ hext := hext.spec_eq.trans hI
  batchCall _ d _ _ _ added d' hI _ _ _ hext _ := hext.spec_eq.trans hI
  ended _ _ _ _ := trivial
  cancelled _ _ _ _ _ _ := trivial
  paused _ _ _ _ _ _ := trivial
  waiting _ _ _ _ _ _ _ _ _ _ := trivial
  failed _ _ _ _ _ _ _ := trivial

/-- Whatever a run resumes from, what it asks for is asked for in its own name. -/
theorem Driver.Resumed.only_askedBy {spec : RunSpec} {events : List Event} {d : Driver}
    (hresumed : Resumed spec events d) (tools : List ToolDescriptor) : (runUntil tools d).Only (AskedBy spec) := by
  have hsafe := runUntil_safe (askedBy_loopRule spec tools) hresumed.resumable ()
    (fun _ mid added c hext _ hwork => by
      have hasked := hwork.askedBy
      rwa [hext.spec_eq, settled, hresumed.spec_eq] at hasked)
    (fun added d' _ hext => hext.spec_eq.trans hresumed.spec_eq)
    (fun c answer _ added d' _ _ hext _ => hext.spec_eq.trans hresumed.spec_eq)
  refine World.only_of_safe ?_ ?_ hsafe
  · exact fun _ _ _ => ⟨(), trivial⟩
  · exact fun _ _ howes => howes

namespace Driver.MadeBy

variable {spec : RunSpec} {c : HarnessCall} {log : List Event}

theorem askedBy (h : MadeBy spec c) : AskedBy spec c := by
  obtain ⟨events, stamp, d, setup, tools, -, hresume, hmakes⟩ := h
  exact (((resume_cases hresume).setUp setup).only_askedBy tools).of_makes hmakes

theorem afforded (h : MadeBy spec c) : Afforded spec (payloads c.log) := h.builds.afforded

theorem paced (h : MadeBy spec c) : Paced spec (payloads c.log) := h.builds.ruled.paced h.afforded

/-- A call for a delegation's child is made right after it was authorized, in the harness's step. -/
theorem spawn {request : ChildRequest} (h : MadeBy spec (.spawn log request)) :
    request.parent = spec ∧
      (∃ before, payloads log = before ++ [.effectAuthorized (.delegate request.agentId request.input)]) ∧
      ∃ attempt answered, harnessOf spec (payloads log) = .running request.step attempt answered := by
  obtain rfl : request.parent = spec := h.askedBy
  obtain ⟨before, effect, hlog, hcarries⟩ := h.rule backed_callRule
  refine ⟨rfl, ⟨before, ?_⟩, h.rule numbered_callRule⟩
  cases effect with
  | delegate agentId input =>
      obtain ⟨rfl, rfl⟩ := hcarries
      exact hlog
  | _ => exact hcarries.elim

/-- A message is sent right after it was authorized, by the decision counted last. -/
theorem send {request : MessageRequest} (h : MadeBy spec (.send log request)) :
    request.from = spec ∧
      (∃ before, payloads log = before ++
        [.effectAuthorized (.sendMessage request.toAgent request.body request.expectsReply
        request.replyTo request.timeoutSecs)]) ∧
      request.decision = (foldAll spec (payloads log)).steps ∧
      request.limits.isSome = (request.replyTo.isNone || request.expectsReply) := by
  obtain rfl : request.from = spec := h.askedBy
  obtain ⟨before, effect, hlog, hcarries⟩ := h.rule backed_callRule
  refine ⟨rfl, ⟨before, ?_⟩, h.rule numbered_callRule⟩
  cases effect with
  | sendMessage toAgent body expectsReply replyTo timeoutSecs =>
      obtain ⟨rfl, rfl, rfl, rfl, rfl⟩ := hcarries
      exact hlog
  | _ => exact hcarries.elim

/-! ### The two counters -/

theorem step_le {request : ChildRequest} (h : MadeBy spec (.spawn log request)) :
    request.step.toNat ≤ spec.limits.maxSteps.toNat := by
  obtain ⟨-, ⟨before, hlog⟩, attempt, answered, hharness⟩ := h.spawn
  have hunderWay : UnderWay (payloads log) := by
    rw [hlog]
    exact .authorized before nofun
  have hstep := h.paced.underWay hunderWay
  change (harnessOf spec (payloads log)).step ≤ (foldAll spec (payloads log)).steps.toNat at hstep
  rw [hharness] at hstep
  exact hstep.trans (UInt32.le_iff_toNat_le.mp h.afforded.steps_le)

theorem decision_le {request : MessageRequest} (h : MadeBy spec (.send log request)) :
    request.decision.toNat ≤ spec.limits.maxSteps.toNat := by
  obtain ⟨-, -, hdecision, -⟩ := h.send
  rw [hdecision]
  exact UInt32.le_iff_toNat_le.mp h.afforded.steps_le

end Driver.MadeBy

theorem Afforded.steps_mono {spec : RunSpec} {log part : List EventPayload} (h : Afforded spec log)
    (hpart : part <+: log) :
    (foldAll spec part).steps.toNat ≤ (foldAll spec log).steps.toNat := by
  obtain ⟨more, rfl⟩ := hpart
  induction more using List.reverseRecOn with
  | nil => rw [List.append_nil]
  | append_singleton more payload ih =>
      rw [← List.append_assoc] at h ⊢
      exact (ih (h.cut (List.prefix_append _ _))).trans h.steps_snoc

namespace Driver.MadeBy

variable {spec : RunSpec} {c : HarnessCall} {log : List Event}

/-- A later message is sent by a later decision. -/
theorem decision_lt {log' : List Event} {request request' : MessageRequest} (h : MadeBy spec (.send log request))
    (h' : MadeBy spec (.send log' request')) (hgrows : log <+: log') (hne : log ≠ log') :
    request.decision < request'.decision := by
  obtain ⟨-, ⟨before, hlog⟩, hdecision, -⟩ := h.send
  obtain ⟨-, ⟨before', hlog'⟩, hdecision', -⟩ := h'.send
  obtain ⟨effect, heffect, hlog'⟩ : ∃ effect, (∀ outcome, effect ≠ Effect.complete outcome) ∧
      payloads log' = before' ++ [.effectAuthorized effect] := by
    refine ⟨_, ?_, hlog'⟩
    intro outcome heq
    cases heq
  have hafforded : Afforded spec (payloads log') := h'.afforded
  have hruled : Ruled spec (payloads log') := h'.builds.ruled
  have hbefore : payloads log <+: before' := by
    have hpayloads : payloads log <+: payloads log' := hgrows.map Event.payload
    rw [hlog'] at hpayloads
    rcases List.prefix_concat_iff.mp hpayloads with heq | hbefore
    · rw [← hlog'] at heq
      have hlength := congrArg List.length heq
      simp only [payloads, List.length_map] at hlength
      exact absurd (hgrows.eq_of_length hlength) hne
    · exact hbefore
  rw [hlog'] at hruled
  obtain ⟨earlier, hearlier⟩ := (hruled before' _ List.prefix_rfl).decided _ rfl
  have hpart : payloads log <+: earlier := by
    rw [hearlier] at hbefore
    rcases List.prefix_concat_iff.mp hbefore with heq | hpart
    · rw [hlog] at heq
      obtain ⟨-, hlast⟩ := List.append_inj' heq rfl
      cases hlast
    · exact hpart
  rw [hlog', hearlier] at hafforded
  have hdecided : Afforded spec (earlier ++ [.effectDecided effect]) := hafforded.cut (List.prefix_append _ _)
  have hcounted : ∀ outcome, effect = .complete outcome → (harnessOf spec earlier).isRunning = false :=
    fun outcome heq => absurd heq (heffect outcome)
  have hlt := hdecided earlier effect List.prefix_rfl hcounted
  rw [UInt32.lt_iff_toNat_lt, hdecision, hdecision', hlog', hearlier]
  calc (foldAll spec (payloads log)).steps.toNat
      ≤ (foldAll spec earlier).steps.toNat := (hdecided.cut (List.prefix_append _ _)).steps_mono hpart
    _ < (foldAll spec (earlier ++ [.effectDecided effect])).steps.toNat := by
        rw [foldAll_snoc, foldStep_steps_decided spec _ hcounted, toNat_succ_of_lt hlt]
        exact Nat.lt_succ_self _
    _ ≤ _ := hafforded.steps_snoc

end Driver.MadeBy

/-- Below the high bit, a message's step is its decision with that bit added. -/
theorem taskStep_toNat {decision : UInt32} (h : decision.toNat < 2 ^ 31) :
    (taskStep decision).toNat = decision.toNat + 2 ^ 31 := by
  have hor := Nat.two_pow_add_eq_or_of_lt h 1
  rw [taskStep, UInt32.toNat_or, Nat.or_comm]
  have hbit : ((1 : UInt32) <<< 31).toNat = 2 ^ 31 * 1 := by decide
  rw [hbit, ← hor]
  omega

/-! ### Logs with the same decisions -/

/-- New ids for messages and tool calls, each its own. -/
structure Renaming where
  message : MessageId → MessageId
  invocation : InvocationId → InvocationId
  message_injective : Function.Injective message
  invocation_injective : Function.Injective invocation

namespace Renaming

variable (r : Renaming)

def effect : Effect → Effect
  | .toolCall name input invocation => .toolCall name input (r.invocation invocation)
  | .sendMessage toAgent body expectsReply replyTo timeoutSecs =>
      .sendMessage toAgent body expectsReply (replyTo.map r.message) timeoutSecs
  | effect => effect

/-- An event with its ids renamed and without what an answer carries: outputs, values, texts and the ids of other
runs. -/
def outline : EventPayload → EventPayload
  | .effectDecided effect => .effectDecided (r.effect effect)
  | .effectAuthorized effect => .effectAuthorized (r.effect effect)
  | .effectDenied effect _ => .effectDenied (r.effect effect) ""
  | .toolResult name invocation step attempt _ => .toolResult name (r.invocation invocation) step attempt ""
  | .modelResponded _ _ => .modelResponded ⟨.assistant, ""⟩ none
  | .memoryRead scope key _ => .memoryRead scope key none
  | .childStarted _ agentId _ => .childStarted ⟨0⟩ agentId ⟨0, 0⟩
  | .delegateRefused agentId _ => .delegateRefused agentId ""
  | .messageSent messageId toAgent expectsReply => .messageSent (r.message messageId) toAgent expectsReply
  | .messageRefused toAgent _ => .messageRefused toAgent ""
  | .messageReceived _ fromAgent _ _ replyTo => .messageReceived ⟨0⟩ fromAgent ⟨0⟩ "" (replyTo.map r.message)
  | .askTimedOut messageId => .askTimedOut (r.message messageId)
  | .userAsked messageId prompt => .userAsked (r.message messageId) prompt
  | .userAskRefused _ => .userAskRefused ""
  | .userAnswered messageId _ => .userAnswered (r.message messageId) ""
  | payload => payload

def harness : HarnessState → HarnessState
  | .waitingForTool step attempt name invocation => .waitingForTool step attempt name (r.invocation invocation)
  | .waitingForMessage step attempt messageId => .waitingForMessage step attempt (r.message messageId)
  | state => state

theorem isTerminal_harness (state : HarnessState) : (r.harness state).isTerminal = state.isTerminal := by
    cases state <;> rfl

theorem isRunning_harness (state : HarnessState) : (r.harness state).isRunning = state.isRunning := by
    cases state <;> rfl

theorem applicable_harness (state : HarnessState) (effect : Effect) (spec : RunSpec) :
    applicable (r.harness state) (r.effect effect) spec = applicable state effect spec := by
  cases state with
  | running step attempt answered => cases effect <;> rfl
  | _ => rfl

theorem answerAsk_harness (state : HarnessState) (messageId : MessageId) :
    (answerAsk (r.harness state) (r.message messageId)).1 = r.harness (answerAsk state messageId).1 := by
  cases state with
  | waitingForMessage step attempt waiting =>
      by_cases hsame : waiting = messageId
      · subst hsame
        simp [answerAsk, harness]
      · have hother : r.message waiting ≠ r.message messageId := fun h => hsame (r.message_injective h)
        simp [answerAsk, harness, hsame, hother]
  | _ => rfl

theorem onAsked_harness (state : HarnessState) (messageId : MessageId) :
    (onAsked (r.harness state) (r.message messageId)).1 = r.harness (onAsked state messageId).1 := by
  cases state with
  | running step attempt answered => cases answered <;> rfl
  | _ => rfl

theorem onAuthorized_harness (state : HarnessState) (effect : Effect) (spec : RunSpec) :
    (onAuthorized (r.harness state) (r.effect effect) spec).1 = r.harness (onAuthorized state effect spec).1 := by
  by_cases happlies : applicable state effect spec = true
  · have hsame := happlies
    rw [← r.applicable_harness] at hsame
    cases state with
    | running step attempt answered => cases effect <;> simp_all [onAuthorized, harness, Renaming.effect]
    | _ => cases happlies
  · have hsame := happlies
    rw [← r.applicable_harness] at hsame
    simp [onAuthorized, happlies, hsame]

theorem reduce_outline (state : HarnessState) (payload : EventPayload) (spec : RunSpec) :
    (reduce (r.harness state) (r.outline payload) spec).1 = r.harness (reduce state payload spec).1 := by
  by_cases hterminal : state.isTerminal = true
  · simp [reduce, isTerminal_harness, hterminal]
  cases payload with
  | effectAuthorized effect =>
      simp only [outline, reduce, isTerminal_harness, hterminal]
      exact r.onAuthorized_harness state effect spec
  | toolResult name invocation step attempt output =>
      cases state with
      | waitingForTool waitingStep waitingAttempt waitingName waitingInvocation =>
          by_cases hsame : step = waitingStep ∧ attempt = waitingAttempt ∧ name = waitingName ∧
            invocation = waitingInvocation
          · obtain ⟨rfl, rfl, rfl, rfl⟩ := hsame
            simp [outline, reduce, harness, HarnessState.isTerminal]
          · have hother : ¬ (step = waitingStep ∧ attempt = waitingAttempt ∧ name = waitingName ∧
                r.invocation invocation = r.invocation waitingInvocation) := by
              rintro ⟨hstep, hattempt, hname, hinvocation⟩
              exact hsame ⟨hstep, hattempt, hname, r.invocation_injective hinvocation⟩
            simp only [outline, reduce, harness, HarnessState.isTerminal, Bool.false_eq_true, ↓reduceIte, if_neg hsame,
              if_neg hother]
      | _ => rfl
  | messageSent messageId toAgent expectsReply =>
      cases expectsReply with
      | true =>
          simp only [outline, reduce, isTerminal_harness, hterminal]
          exact r.onAsked_harness state messageId
      | false => cases state <;> rfl
  | userAsked messageId prompt =>
      simp only [outline, reduce, isTerminal_harness, hterminal]
      exact r.onAsked_harness state messageId
  | messageReceived messageId fromAgent fromRun body replyTo =>
      cases replyTo with
      | none => cases state <;> rfl
      | some replyTo =>
          simp only [outline, Option.map_some, reduce, isTerminal_harness, hterminal]
          exact r.answerAsk_harness state replyTo
  | askTimedOut messageId | userAnswered messageId text =>
      simp only [outline, reduce, isTerminal_harness, hterminal]
      exact r.answerAsk_harness state messageId
  | stepRetried =>
      cases state with
      | running step attempt answered =>
          cases answered with
          | true =>
              by_cases hlt : attempt < maxRetries
              · simp [outline, reduce, harness, HarnessState.isTerminal, hlt]
              · simp [outline, reduce, harness, HarnessState.isTerminal, hlt]
          | false => rfl
      | _ => rfl
  | stepAdvanced =>
      cases state with
      | running step attempt answered =>
          cases answered with
          | true =>
              by_cases hlt : step < spec.limits.maxSteps
              · simp [outline, reduce, harness, HarnessState.isTerminal, hlt]
              · simp [outline, reduce, harness, HarnessState.isTerminal, hlt]
          | false => rfl
      | _ => rfl
  | _ => cases state <;> rfl

theorem steps_outline (s s' : FoldState) (hsteps : s'.steps = s.steps)
    (hrunning : s'.harness.isRunning = s.harness.isRunning) (payload : EventPayload) (spec : RunSpec) :
    (foldStep spec s' (r.outline payload)).steps = (foldStep spec s payload).steps := by
  cases payload with
  | effectDecided effect =>
      cases effect with
      | complete outcome =>
          simp only [foldStep, outline, Renaming.effect, FoldState.count, hrunning]
          split <;> simp only [hsteps]
      | _ => simp only [foldStep, outline, Renaming.effect, FoldState.count, hsteps]
  | effectAuthorized effect => cases effect <;> exact hsteps
  | childStarted runId agentId limits =>
      simp only [foldStep, outline, FoldState.count]
      split <;> split <;> exact hsteps
  | _ => exact hsteps

/-- The fold of a log's outline has the log's counters, in the harness state with its ids renamed. -/
theorem fold_outline (spec : RunSpec) (log : List EventPayload) :
    harnessOf spec (log.map r.outline) = r.harness (harnessOf spec log) ∧
      (foldAll spec (log.map r.outline)).steps = (foldAll spec log).steps := by
  induction log using List.reverseRecOn with
  | nil => exact ⟨rfl, rfl⟩
  | append_singleton log payload ih =>
      obtain ⟨hharness, hsteps⟩ := ih
      rw [List.map_append, List.map_singleton, harnessOf_snoc, harnessOf_snoc, hharness, foldAll_snoc, foldAll_snoc]
      refine ⟨r.reduce_outline _ payload spec, r.steps_outline _ _ hsteps ?_ payload spec⟩
      rw [← r.isRunning_harness (foldAll spec log).harness]
      exact congrArg HarnessState.isRunning hharness

end Renaming

/-- The two logs record the same events, but for the ids of their messages and tool calls and for what answers carry. -/
def SameDecisions (log log' : List Event) : Prop :=
  ∃ r r' : Renaming, (payloads log).map r.outline = (payloads log').map r'.outline

theorem last_of_outline {log log' before before' : List EventPayload} {effect effect' : Effect} {r r' : Renaming}
    (hlog : log = before ++ [.effectAuthorized effect]) (hlog' : log' = before' ++ [.effectAuthorized effect'])
    (h : log.map r.outline = log'.map r'.outline) : r.effect effect = r'.effect effect' := by
  rw [hlog, hlog', List.map_append, List.map_append] at h
  obtain ⟨-, hlast⟩ := List.append_inj' h rfl
  exact EventPayload.effectAuthorized.inj (List.singleton_inj.mp hlast)

namespace Driver.MadeBy

variable {spec : RunSpec} {log log' : List Event}

theorem spawn_same {request request' : ChildRequest} (h : MadeBy spec (.spawn log request))
    (h' : MadeBy spec (.spawn log' request')) (hsame : SameDecisions log log') : request.name = request'.name := by
  obtain ⟨r, r', houtline⟩ := hsame
  obtain ⟨hparent, ⟨before, hlog⟩, attempt, answered, hharness⟩ := h.spawn
  obtain ⟨hparent', ⟨before', hlog'⟩, attempt', answered', hharness'⟩ := h'.spawn
  have hlast := last_of_outline hlog hlog' houtline
  have hstates : r.harness (harnessOf spec (payloads log)) = r'.harness (harnessOf spec (payloads log')) := by
    rw [← (r.fold_outline spec (payloads log)).1, ← (r'.fold_outline spec (payloads log')).1, houtline]
  simp only [Renaming.effect, Effect.delegate.injEq] at hlast
  simp only [hharness, hharness', Renaming.harness, HarnessState.running.injEq] at hstates
  simp [ChildRequest.name, hparent, hparent', hlast, hstates]

theorem send_same {request request' : MessageRequest} (h : MadeBy spec (.send log request))
    (h' : MadeBy spec (.send log' request')) (hsame : SameDecisions log log') (limits limits' : Limits) :
    (request.task limits).name = (request'.task limits').name := by
  obtain ⟨r, r', houtline⟩ := hsame
  obtain ⟨hparent, ⟨before, hlog⟩, hdecision, -⟩ := h.send
  obtain ⟨hparent', ⟨before', hlog'⟩, hdecision', -⟩ := h'.send
  have hlast := last_of_outline hlog hlog' houtline
  have hsteps : (foldAll spec (payloads log)).steps = (foldAll spec (payloads log')).steps := by
    rw [← (r.fold_outline spec (payloads log)).2, ← (r'.fold_outline spec (payloads log')).2, houtline]
  simp only [Renaming.effect, Effect.sendMessage.injEq] at hlast
  simp [ChildRequest.name, MessageRequest.task, hparent, hparent', hlast, hdecision, hdecision', hsteps]

theorem spawn_not_send {request : ChildRequest} {request' : MessageRequest} (h : MadeBy spec (.spawn log request))
    (h' : MadeBy spec (.send log' request')) : ¬ SameDecisions log log' := by
  rintro ⟨r, r', houtline⟩
  obtain ⟨-, ⟨before, hlog⟩, -⟩ := h.spawn
  obtain ⟨-, ⟨before', hlog'⟩, -⟩ := h'.send
  have hlast := last_of_outline hlog hlog' houtline
  cases hlast

end Driver.MadeBy

theorem SameDecisions.symm {log log' : List Event} (h : SameDecisions log log') : SameDecisions log' log := by
  obtain ⟨r, r', houtline⟩ := h
  exact ⟨r', r, houtline.symm⟩

/-- Calls for children at logs with the same decisions name the same child. -/
theorem Driver.MadeBy.child_same {spec : RunSpec} {c c' : HarnessCall}
    {request request' : ChildRequest} (h : MadeBy spec c) (h' : MadeBy spec c') (hsame : SameDecisions c.log c'.log)
    (hchild : c.child = some request) (hchild' : c'.child = some request') : request.name = request'.name := by
  cases c with
  | spawn log asked =>
      obtain rfl := Option.some.inj hchild
      cases c' with
      | spawn log' asked' =>
          obtain rfl := Option.some.inj hchild'
          exact h.spawn_same h' hsame
      | send log' sent' => exact absurd hsame (h.spawn_not_send h')
      | _ => cases hchild'
  | send log sent =>
      obtain ⟨limits, -, rfl⟩ := Option.map_eq_some_iff.mp hchild
      cases c' with
      | spawn log' asked' => exact absurd hsame.symm (h'.spawn_not_send h)
      | send log' sent' =>
          obtain ⟨limits', -, rfl⟩ := Option.map_eq_some_iff.mp hchild'
          exact h.send_same h' hsame limits limits'
      | _ => cases hchild'
  | _ => cases hchild

/-! ### Lineages -/

theorem hop_of_delegate {spec : RunSpec} {agentId : AgentId} {input : String}
    (h : Allows spec (.delegate agentId input)) :
    spec.lineage.hop < maxDelegationHops := by
  obtain ⟨tools, hallow⟩ := h
  simp only [authorize] at hallow
  split at hallow
  · split at hallow
    · cases hallow
    · next hhop => exact UInt32.not_le.mp hhop
  · next hnot => exact absurd hallow hnot

theorem hop_of_message {spec : RunSpec} {toAgent : AgentId} {body : String} {expectsReply : Bool}
    {replyTo : Option MessageId} {timeoutSecs : Option UInt32}
    (h : Allows spec (.sendMessage toAgent body expectsReply replyTo timeoutSecs))
    (hstarts : (replyTo.isNone || expectsReply) = true) : spec.lineage.hop < maxDelegationHops := by
  obtain ⟨tools, hallow⟩ := h
  simp only [authorize] at hallow
  split at hallow
  · simp only [checkMessage, hstarts, Bool.true_and] at hallow
    split at hallow
    · cases hallow
    · next hhop => exact UInt32.not_le.mp (by simpa using hhop)
  · next hnot => exact absurd hallow hnot

/-- Only a run with a hop left asks for a child, and in its own name. -/
theorem Driver.MadeBy.shallow {spec : RunSpec} {c : HarnessCall} {request : ChildRequest} (h : MadeBy spec c)
    (hchild : c.child = some request) : request.parent = spec ∧ spec.lineage.hop < maxDelegationHops := by
  have hgranted := h.builds.granted
  cases c with
  | spawn log asked =>
      obtain rfl := Option.some.inj hchild
      obtain ⟨hparent, ⟨before, hlog⟩, -⟩ := h.spawn
      refine ⟨hparent, hop_of_delegate (hgranted (.delegate asked.agentId asked.input) ?_)⟩
      change _ ∈ payloads log
      simp [hlog]
  | send log sent =>
      obtain ⟨limits, hlimits, rfl⟩ := Option.map_eq_some_iff.mp hchild
      obtain ⟨hparent, ⟨before, hlog⟩, -, hstarts⟩ := h.send
      rw [hlimits] at hstarts
      refine ⟨hparent, hop_of_message (hgranted (.sendMessage sent.toAgent sent.body sent.expectsReply sent.replyTo
        sent.timeoutSecs) ?_) hstarts.symm⟩
      change _ ∈ payloads log
      simp [hlog]
  | _ => cases hchild

theorem childOfAgent_yields {v5 : ChildName → Uuid} {request : ChildRequest} {spec : RunSpec}
    (h : (childOfAgent v5 request).Yields (.ok spec)) : ∃ agent, spec = childOf v5 request agent := by
  obtain ⟨answer, hrest⟩ := Prog.Yields.of_call h
  rcases answer with error | (_ | agent)
  · cases Prog.Yields.of_ret hrest
  · cases Prog.Yields.of_ret hrest
  · dsimp only at hrest
    split at hrest
    · cases Prog.Yields.of_ret hrest
    · exact ⟨agent.manifest, Except.ok.inj (Prog.Yields.of_ret hrest)⟩

theorem childSpec_yields {v5 : ChildName → Uuid} {request : ChildRequest} {spec : RunSpec}
    (h : (childSpec v5 request).Yields (.ok spec)) : ∃ agent, spec = childOf v5 request agent := by
  obtain ⟨answer, hrest⟩ := Prog.Yields.of_call h
  rcases answer with _ | (error | (_ | _))
  · exact childOfAgent_yields hrest
  · cases Prog.Yields.of_ret hrest
  · exact childOfAgent_yields hrest
  · cases Prog.Yields.of_ret hrest

/-- The runs that are started: those without a parent, and the children that started runs ask for. -/
inductive StartedRun (v5 : Bytes → Uuid) : RunSpec → Prop
  | top {spec : RunSpec} (h : spec.lineage = .default) : StartedRun v5 spec
  | child {parent spec : RunSpec} {c : HarnessCall} {request : ChildRequest} (hparent : StartedRun v5 parent)
      (hmade : MadeBy parent c) (hchild : c.child = some request)
      (hspec : (childSpec (fun name => v5 name.bytes) request).Yields (.ok spec)) : StartedRun v5 spec

theorem childOf_hop (v5 : ChildName → Uuid) {request : ChildRequest} (agent : AgentManifest)
    (h : request.parent.lineage.hop < maxDelegationHops) :
    (childOf v5 request agent).lineage.hop.toNat = request.parent.lineage.hop.toNat + 1 := by
  show (saturatingAdd request.parent.lineage.hop 1).toNat = _
  have hlt : request.parent.lineage.hop.toNat < 8 := UInt32.lt_iff_toNat_lt.mp h
  rw [saturatingAdd_toNat, show (1 : UInt32).toNat = 1 from rfl]
  omega

/-- A child that a run asks for has its parent's root, and is one hop further. -/
theorem Driver.MadeBy.lineage {v5 : ChildName → Uuid} {parent spec : RunSpec} {c : HarnessCall} {request : ChildRequest}
    (h : MadeBy parent c) (hchild : c.child = some request) (hspec : (childSpec v5 request).Yields (.ok spec)) :
    spec.lineage.parent = some parent.runId ∧ spec.root = parent.root ∧
      spec.lineage.hop.toNat = parent.lineage.hop.toNat + 1 ∧ spec.lineage.hop ≤ maxDelegationHops := by
  obtain ⟨rfl, hshallow⟩ := h.shallow hchild
  obtain ⟨agent, rfl⟩ := childSpec_yields hspec
  have hhop := childOf_hop v5 agent hshallow
  refine ⟨rfl, rfl, hhop, ?_⟩
  rw [UInt32.le_iff_toNat_le, hhop]
  exact UInt32.lt_iff_toNat_lt.mp hshallow

theorem StartedRun.hop_le {v5 : Bytes → Uuid} {spec : RunSpec} (h : StartedRun v5 spec) :
    spec.lineage.hop ≤ maxDelegationHops := by
  cases h with
  | top htop =>
      rw [htop]
      decide
  | child _ hmade hchild hspec => exact (hmade.lineage hchild hspec).2.2.2

/-! ### The ids -/

/-- The ids of child runs, for a hash that takes no two texts to one id. The bytes hashed are the same exactly where
root, parent, step, agent and input are. A run whose steps stay below the high bit never gives a message's task the id
of a delegation's child, nor that of the task of a message sent at another decision, whatever its runs go on from; and
a later message is sent at a later decision. Calls for children at logs with the same decisions name the same child,
so a resumed run derives its ids again. A child has its parent's root, exactly one hop more, and no started run is
past the last hop. -/
theorem child_run_ids {ι : Type} (childId : Bytes → ι) (hinjective : Function.Injective childId) :
    (∀ name name' : ChildName, name.bytes = name'.bytes ↔
      name.root = name'.root ∧ name.parent = name'.parent ∧ name.step = name'.step ∧ name.agentId = name'.agentId ∧
        name.input = name'.input) ∧
    (∀ spec log request limits, spec.limits.maxSteps.toNat < 2 ^ 31 → MadeBy spec (.send log request) →
      request.limits = some limits →
      (∀ log' request' agentId agentId', MadeBy spec (.spawn log' request') →
        childId { (request.task limits).name with agentId := agentId }.bytes ≠
          childId { request'.name with agentId := agentId' }.bytes) ∧
      (∀ log' request' limits' agentId agentId', MadeBy spec (.send log' request') → request'.limits = some limits' →
        request'.decision ≠ request.decision →
        childId { (request.task limits).name with agentId := agentId }.bytes ≠
          childId { (request'.task limits').name with agentId := agentId' }.bytes) ∧
      ∀ log' request', MadeBy spec (.send log' request') → log <+: log' → log ≠ log' →
        request.decision < request'.decision) ∧
    (∀ spec c c' request request', MadeBy spec c → MadeBy spec c' → SameDecisions c.log c'.log →
      c.child = some request → c'.child = some request' → childId request.name.bytes = childId request'.name.bytes) ∧
    (∀ (v5 : Bytes → Uuid) parent c request spec, MadeBy parent c → c.child = some request →
      (childSpec (fun name => v5 name.bytes) request).Yields (.ok spec) →
      (∃ agentId, spec.runId = ⟨v5 { request.name with agentId := agentId }.bytes⟩) ∧
        spec.lineage.parent = some parent.runId ∧ spec.root = parent.root ∧
        spec.lineage.hop.toNat = parent.lineage.hop.toNat + 1) ∧
    ∀ (v5 : Bytes → Uuid) spec, StartedRun v5 spec → spec.lineage.hop ≤ maxDelegationHops := by
  have hstep : ∀ {name name' : ChildName}, name.step ≠ name'.step → childId name.bytes ≠ childId name'.bytes := by
    intro name name' hne heq
    exact hne (congrArg ChildName.step (ChildName.bytes_injective (hinjective heq)))
  refine ⟨ChildName.bytes_inj, fun spec log request limits hbound hmade hlimits => ⟨?_, ?_, ?_⟩, ?_, ?_,
    fun v5 spec => StartedRun.hop_le⟩
  · intro log' request' agentId agentId' hmade'
    apply hstep
    intro heq
    have htask := taskStep_toNat (lt_of_le_of_lt hmade.decision_le hbound)
    have hle := lt_of_le_of_lt hmade'.step_le hbound
    have hnat : (taskStep request.decision).toNat = request'.step.toNat := congrArg UInt32.toNat heq
    omega
  · intro log' request' limits' agentId agentId' hmade' hlimits' hne
    apply hstep
    intro heq
    have htask := taskStep_toNat (lt_of_le_of_lt hmade.decision_le hbound)
    have htask' := taskStep_toNat (lt_of_le_of_lt hmade'.decision_le hbound)
    have hnat : (taskStep request.decision).toNat = (taskStep request'.decision).toNat := congrArg UInt32.toNat heq
    apply hne
    apply UInt32.toNat_inj.mp
    omega
  · exact fun log' request' hmade' hgrows hne => hmade.decision_lt hmade' hgrows hne
  · exact fun spec c c' request request' hmade hmade' hsame hchild hchild' =>
      congrArg (fun name => childId name.bytes) (hmade.child_same hmade' hsame hchild hchild')
  · intro v5 parent c request spec hmade hchild hspec
    obtain ⟨agent, hagent⟩ := childSpec_yields hspec
    obtain ⟨hparent, hroot, hhop, -⟩ := hmade.lineage hchild hspec
    refine ⟨⟨agent.id, ?_⟩, hparent, hroot, hhop⟩
    rw [hagent]
    rfl

/-- A run that may send messages and delegate. -/
def outreach : RunSpec := { RunSpec.plain 1 ⟨8, 8⟩ with capabilities := [⟨"agent.message"⟩, ⟨"agent.delegate"⟩] }

def reaching : Setup := ⟨[], true, true, false, []⟩

theorem outreach_tells : ∃ log request limits, MadeBy outreach (.send log request) ∧ request.limits = some limits := by
  have hmakes : ∃ (log : List Event) (request : MessageRequest) (limits : Limits),
      (runUntil [] ((boot outreach Stamp.plain).setUp reaching)).Makes (HarnessCall.send log request) ∧
        request.limits = some limits :=
    ⟨_, _, _, @Prog.Makes.later HarnessSig _ _ (.boundary _) _ Boundary.continue
      (@Prog.Makes.later HarnessSig _ _ (.decide _) _
      (Except.ok (.sendMessage ⟨7⟩ "look at this" false none none)) (.now _)), rfl⟩
  obtain ⟨log, request, limits, hmakes, hlimits⟩ := hmakes
  exact ⟨log, request, limits, ⟨[], Stamp.plain, boot outreach Stamp.plain, reaching, [], .nil, rfl, hmakes⟩, hlimits⟩

theorem outreach_delegates : ∃ log request, MadeBy outreach (.spawn log request) := by
  have hmakes : ∃ (log : List Event) (request : ChildRequest),
      (runUntil [] ((boot outreach Stamp.plain).setUp reaching)).Makes (HarnessCall.spawn log request) :=
    ⟨_, _, @Prog.Makes.later HarnessSig _ _ (.boundary _) _ Boundary.continue
      (@Prog.Makes.later HarnessSig _ _ (.decide _) _
      (Except.ok (.delegate ⟨7⟩ "look at this")) (.now _))⟩
  obtain ⟨log, request, hmakes⟩ := hmakes
  exact ⟨log, request, [], Stamp.plain, boot outreach Stamp.plain, reaching, [], .nil, rfl, hmakes⟩

/-- The run tells an agent and delegates to it, with the same words. -/
theorem child_run_ids_outreach : ∃ log request limits log' request', MadeBy outreach (.send log request) ∧
    request.limits = some limits ∧ MadeBy outreach (.spawn log' request') ∧
      (request.task limits).name.bytes ≠ request'.name.bytes := by
  obtain ⟨log, request, limits, htells, hlimits⟩ := outreach_tells
  obtain ⟨log', request', hdelegates⟩ := outreach_delegates
  refine ⟨log, request, limits, log', request', htells, hlimits, hdelegates, ?_⟩
  have hids := (child_run_ids id Function.injective_id).2.1 outreach log request limits (by decide) htells hlimits
  exact hids.1 log' request' request.toAgent request'.agentId hdelegates

end Gol
