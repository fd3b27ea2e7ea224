import Gol.ServerAsks

/-! The logs that drivers and answers build: a driver puts an ask only from a step that runs unanswered, under the id
of the message stored for its decision, and what answers it may come late or twice. The scan and the harness agree on
each of these logs. -/

namespace Gol
open Library Driver

/-! ### What a driver adds -/

theorem sentIds_append (log more : List EventPayload) : sentIds (log ++ more) = sentIds log ++ sentIds more :=
  List.filterMap_append

theorem mem_sentIds {log : List EventPayload} {id : MessageId} :
    id ∈ sentIds log ↔ ∃ toAgent expectsReply, .messageSent id toAgent expectsReply ∈ log := by
  rw [sentIds, List.mem_filterMap]
  constructor
  · rintro ⟨payload, hmem, hid⟩
    cases payload with
    | messageSent sent toAgent expectsReply =>
        obtain rfl : sent = id := Option.some.inj hid
        exact ⟨toAgent, expectsReply, hmem⟩
    | _ => simp at hid
  · rintro ⟨toAgent, expectsReply, hmem⟩
    exact ⟨_, hmem, rfl⟩

theorem sentIds_eq_nil {log : List EventPayload} (h : ∀ payload ∈ log, askPut payload = none) : sentIds log = [] := by
  rw [List.eq_nil_iff_forall_not_mem]
  intro id hid
  obtain ⟨toAgent, expectsReply, hmem⟩ := mem_sentIds.mp hid
  exact absurd (h _ hmem) (by simp [askPut])

/-- Each message of a log is one stored under its id for a decision below `bound`, and no other message of the log is.
-/
structure Asks (spec : RunSpec) (log : List EventPayload) (messages : MessageStore) (bound : Nat) : Prop where
  placed : Placed spec log
  sent : ∀ id toAgent expectsReply, .messageSent id toAgent expectsReply ∈ log →
    ∃ decision, messages.Holds id decision expectsReply ∧ decision.toNat < bound
  once : (sentIds log).Nodup

namespace Asks

variable {spec : RunSpec} {log : List EventPayload} {messages : MessageStore} {bound : Nat}

theorem mono {bound' : Nat} (h : Asks spec log messages bound) (hle : bound ≤ bound') :
    Asks spec log messages bound' where
  placed := h.placed
  sent id toAgent expectsReply hmem := by
    obtain ⟨decision, hholds, hlt⟩ := h.sent id toAgent expectsReply hmem
    exact ⟨decision, hholds, hlt.trans_le hle⟩
  once := h.once

theorem later {more : MessageStore} (h : Asks spec log messages bound) (hgrows : messages <+: more) :
    Asks spec log more bound where
  placed := h.placed
  sent id toAgent expectsReply hmem := by
    obtain ⟨decision, hholds, hlt⟩ := h.sent id toAgent expectsReply hmem
    exact ⟨decision, hholds.later hgrows, hlt⟩
  once := h.once

/-- What puts no ask keeps the asks. -/
theorem quiet (h : Asks spec log messages bound) {more : List EventPayload}
    (hmore : ∀ payload ∈ more, askPut payload = none) :
    Asks spec (log ++ more) messages bound := by
  refine ⟨?_, fun id toAgent expectsReply hmem => ?_, ?_⟩
  · induction more using List.reverseRecOn with
    | nil =>
        rw [List.append_nil]
        exact h.placed
    | append_singleton more last ih =>
        rw [← List.append_assoc]
        refine (ih fun payload hpayload => hmore payload (List.mem_append_left _ hpayload)).snoc fun ask hput => ?_
        rw [hmore last (List.mem_append_right _ (List.mem_singleton_self _))] at hput
        exact absurd hput nofun
  · rcases List.mem_append.mp hmem with hold | hnew
    · exact h.sent id toAgent expectsReply hold
    · exact absurd (hmore _ hnew) (by simp [askPut])
  · rw [sentIds_append, sentIds_eq_nil hmore, List.append_nil]
    exact h.once

/-- A question from an unanswered step. -/
theorem question (h : Asks spec log messages bound) {step attempt : UInt32}
    (hrunning : harnessOf spec log = .running step attempt false) (id : MessageId) (prompt : String) :
    Asks spec (log ++ [.userAsked id prompt]) messages bound := by
  refine ⟨h.placed.snoc fun _ _ => ⟨step, attempt, hrunning⟩, fun sent toAgent expectsReply hmem => ?_, ?_⟩
  · exact h.sent sent toAgent expectsReply (by simpa using hmem)
  · rw [sentIds_append]
    exact (List.append_nil _).symm ▸ h.once

/-- A message of the decision that no message of the log was sent at. -/
theorem message (h : Asks spec log messages bound) (hids : (messages.map StoredMessage.id).Nodup) {id : MessageId}
    {expectsReply : Bool} {decision : UInt32} (hholds : messages.Holds id decision expectsReply)
    (hdecision : decision.toNat = bound)
    (hrunning : expectsReply = true → ∃ step attempt, harnessOf spec log = .running step attempt false)
    (toAgent : AgentId) :
    Asks spec (log ++ [.messageSent id toAgent expectsReply]) messages (bound + 1) := by
  refine ⟨h.placed.snoc fun ask hput => hrunning ?_, fun sent agent expects hmem => ?_, ?_⟩
  · rw [askPut, Option.some.injEq, Prod.mk.injEq] at hput
    exact hput.2
  · rcases List.mem_append.mp hmem with hold | hnew
    · obtain ⟨earlier, hstored, hlt⟩ := h.sent sent agent expects hold
      exact ⟨earlier, hstored, hlt.trans (Nat.lt_succ_self _)⟩
    · obtain ⟨rfl, rfl, rfl⟩ := EventPayload.messageSent.inj (List.mem_singleton.mp hnew)
      exact ⟨decision, hholds, hdecision ▸ Nat.lt_succ_self _⟩
  · rw [sentIds_append]
    refine List.nodup_append.mpr ⟨h.once, List.nodup_singleton id, fun sent hsent other hother heq => ?_⟩
    obtain rfl : sent = id := heq.trans (List.mem_singleton.mp hother)
    -- The message stored under the id was sent at an earlier decision.
    obtain ⟨agent, expects, hmem⟩ := mem_sentIds.mp hsent
    obtain ⟨earlier, ⟨stored, hstored, hid, hearlier, -⟩, hlt⟩ := h.sent sent agent expects hmem
    obtain ⟨stored', hstored', hid', hdecision', -⟩ := hholds
    obtain rfl : stored = stored' := List.inj_on_of_nodup_map hids hstored hstored' (hid.trans hid'.symm)
    rw [← hearlier, hdecision'] at hlt
    omega

end Asks

/-- The effects that put an ask. -/
def putsAsk : Effect → Bool
  | .sendMessage _ _ expectsReply _ _ => expectsReply
  | .askUser _ => true
  | _ => false

/-- What plans an effect: its decision, and its authorization. -/
def isPlanned : EventPayload → Bool
  | .effectDecided _ | .effectAuthorized _ => true
  | _ => false

/-- An ask is authorized at an unanswered step, which it leaves as it is. -/
theorem authorized_ask {spec : RunSpec} {log : List EventPayload} {effect : Effect}
    (happlicable : applicable (harnessOf spec log) effect spec = true) (hasks : putsAsk effect = true) :
    ∃ step attempt, harnessOf spec (log ++ [.effectDecided effect, .effectAuthorized effect]) =
      .running step attempt false := by
  rw [List.append_cons, harnessOf_snoc, harnessOf_snoc, reduce_decided]
  cases hharness : harnessOf spec log with
  | running step attempt answered =>
      rw [hharness] at happlicable
      cases effect with
      | askUser prompt =>
          obtain rfl : answered = false := by simpa [applicable] using happlicable
          exact ⟨step, attempt, rfl⟩
      | sendMessage toAgent body expectsReply replyTo timeoutSecs =>
          obtain rfl : expectsReply = true := hasks
          obtain rfl : answered = false := by simpa [applicable] using happlicable
          exact ⟨step, attempt, rfl⟩
      | _ => simp [putsAsk] at hasks
  | _ => simp [hharness, applicable] at happlicable

variable {messages : MessageStore}

/-- What carrying out an effect adds to the asks: a message, under the id it is stored for the decision, or a
question. -/
theorem Driver.Outcome.asks {d : Driver} {effect : Effect} {call : Option (Sigma HarnessCall.Answer)}
    {added : List EventPayload} (h : d.Outcome effect call added)
    (hasks : Asks d.spec d.log messages d.state.steps.toNat)
    (hids : (messages.map StoredMessage.id).Nodup)
    (hanswer : ∀ c answer, call = some ⟨c, answer⟩ → MayAnswer messages c answer)
    (hrunning : putsAsk effect = true → ∃ step attempt, harnessOf d.spec d.log = .running step attempt false) :
    Asks d.spec (d.log ++ added) messages (d.state.steps.toNat + 1) := by
  have hquiet : (∀ payload ∈ added, askPut payload = none) →
      Asks d.spec (d.log ++ added) messages (d.state.steps.toNat + 1) :=
    fun hadded => (hasks.quiet hadded).mono (Nat.le_succ _)
  cases h with
  | messageSent toAgent body expectsReply replyTo timeoutSecs request sent hfrom hruns hcarve hdecision hexpects =>
      have hholds : messages.Holds sent.messageId request.decision (request.limits.isSome && request.expectsReply) :=
        hanswer _ _ rfl
      rw [hexpects] at hholds
      have hstarted : ∀ payload ∈ sent.task.toList.map fun task =>
        EventPayload.childStarted task.runId toAgent task.limits,
          askPut payload = none := by
        intro payload hpayload
        obtain ⟨task, -, rfl⟩ := List.mem_map.mp hpayload
        rfl
      rw [← List.append_assoc]
      refine (hasks.quiet hstarted).message hids hholds (by rw [hdecision]) (fun hexpects => ?_) toAgent
      obtain ⟨step, attempt, hharness⟩ := hrunning hexpects
      refine ⟨step, attempt, ?_⟩
      cases sent.task with
      | none => simpa using hharness
      | some task => simp [harnessOf_snoc, hharness, reduce, HarnessState.isTerminal]
  | userAsked prompt messageId =>
      obtain ⟨step, attempt, hharness⟩ := hrunning rfl
      exact (hasks.question hharness messageId prompt).mono (Nat.le_succ _)
  | _ => exact hquiet (by simp [askPut])

/-- An outcome plans nothing. -/
theorem Driver.Outcome.not_planned {d : Driver} {effect : Effect} {call : Option (Sigma HarnessCall.Answer)}
    {added : List EventPayload} (h : d.Outcome effect call added) : ∀ payload ∈ added, isPlanned payload = false := by
  cases h with
  | messageSent toAgent body expectsReply replyTo timeoutSecs request sent => cases sent.task <;> simp [isPlanned]
  | _ => simp [isPlanned]

/-- An effect that was authorized where it applies leaves a trace. -/
theorem Driver.Outcome.ne_nil {d mid : Driver} {effect : Effect} {call : Option (Sigma HarnessCall.Answer)}
    {added : List EventPayload} (h : mid.Outcome effect call added)
    (happlicable : applicable d.state.harness effect d.spec = true) (heffect : ∀ outcome, effect ≠ .complete outcome)
    (hmid : d.Extends mid [.effectDecided effect, .effectAuthorized effect]) : added ≠ [] := by
  cases h with
  | toolSkipped name input invocation hskipped =>
      have hharness := hmid.harness_eq
      rw [List.append_cons, harnessOf_snoc, harnessOf_snoc, reduce_decided, ← harness_eq] at hharness
      cases hstate : d.state.harness with
      | running step attempt answered =>
          refine absurd ?_ (hskipped step attempt)
          rw [hstate] at happlicable
          rw [hharness, hstate]
          simp [reduce, HarnessState.isTerminal, onAuthorized, happlicable]
      | _ => simp [hstate, applicable] at happlicable
  | nothing effect hnothing =>
      rcases hnothing with ⟨outcome, heq⟩ | hnever
      · exact absurd heq (heffect outcome)
      · rw [hnever] at happlicable
        exact absurd happlicable Bool.false_ne_true
  | messageSent => simp
  | _ => exact List.cons_ne_nil _ _

theorem any_getLast?_eq_false {α : Type} {P : α → Bool} {list : List α} (h : ∀ value ∈ list, P value = false) :
    list.getLast?.any P = false := by
  cases hlast : list.getLast? with
  | none => rfl
  | some value => exact h value (List.mem_of_getLast? hlast)

/-- What a boundary shows of the asks: no message was sent past the last decision, and no effect is under way. -/
structure Settled (spec : RunSpec) (log : List EventPayload) (messages : MessageStore) : Prop where
  asks : Asks spec log messages ((foldAll spec log).steps.toNat + 1)
  last : log.getLast?.any isPlanned = false

theorem Settled.later {spec : RunSpec} {log : List EventPayload} {more : MessageStore} (h : Settled spec log messages)
    (hgrows : messages <+: more) : Settled spec log more := ⟨h.asks.later hgrows, h.last⟩

/-- Events that put no ask and plan nothing. -/
theorem Settled.quiet {spec : RunSpec} {log more : List EventPayload} (h : Settled spec log messages)
    (hmore : ∀ payload ∈ more, askPut payload = none ∧ isPlanned payload = false) :
    Settled spec (log ++ more) messages := by
  have hsteps : (foldAll spec (log ++ more)).steps = (foldAll spec log).steps := by
    rw [foldAll_append]
    refine foldl_steps spec _ fun payload hpayload => ?_
    have hplanned := (hmore payload hpayload).2
    cases payload <;> simp_all [isPlanned, isDecided]
  refine ⟨?_, ?_⟩
  · rw [hsteps]
    exact h.asks.quiet fun payload hpayload => (hmore payload hpayload).1
  · rcases List.eq_nil_or_concat more with rfl | ⟨rest, last, rfl⟩
    · rw [List.append_nil]
      exact h.last
    · rw [List.concat_eq_append, ← List.append_assoc, List.getLast?_concat]
      exact (hmore last (by simp)).2

theorem advance_settles (d : Driver) : ∀ payload ∈ d.advance, askPut payload = none ∧ isPlanned payload = false := by
  intro payload hpayload
  rcases d.advance_cases with hadvance | hadvance
  · simp [hadvance] at hpayload
  · obtain rfl : payload = .stepAdvanced := by simpa [hadvance] using hpayload
    exact ⟨rfl, rfl⟩

/-- A decision within the budget is counted. -/
theorem steps_decided {d : Driver} {effect : Effect} (hbudget : d.overBudget effect = false)
    (hcomplete : ∀ outcome, effect = .complete outcome → d.state.harness.isRunning = false) (rest : List EventPayload)
    (hrest : ∀ payload ∈ rest, isDecided payload = false) :
    (foldAll d.spec (d.log ++ .effectDecided effect :: rest)).steps.toNat = d.state.steps.toNat + 1 := by
  have hlt := lt_of_not_overBudget hbudget hcomplete
  have hmax := d.spec.limits.maxSteps.toNat_lt
  rw [foldAll_append, List.foldl_cons, foldl_steps _ _ hrest,
    foldStep_steps_decided d.spec (foldAll d.spec d.log) hcomplete]
  show ((foldAll d.spec d.log).steps + 1).toNat = (foldAll d.spec d.log).steps.toNat + 1
  have hlt : (foldAll d.spec d.log).steps.toNat + d.state.givenSteps.toNat < d.spec.limits.maxSteps.toNat := hlt
  rw [UInt32.toNat_add, UInt32.toNat_one]
  omega

/-- An iteration of the loop from a settled log ends at one. -/
theorem Driver.Batch.settled {d : Driver} {call : Option (Sigma HarnessCall.Answer)} {added : List EventPayload}
    (h : d.Batch call added) (hsettled : Settled d.spec d.log messages) (hids : (messages.map StoredMessage.id).Nodup)
    (hanswer : ∀ c answer, call = some ⟨c, answer⟩ → MayAnswer messages c answer) :
    Settled d.spec (d.log ++ added) messages := by
  cases h with
  | overBudget effect hover => exact hsettled.quiet (by simp [askPut, isPlanned])
  | denied effect reason hbudget hcomplete =>
      have hsteps := steps_decided hbudget hcomplete [.effectDenied effect reason] (by simp [isDecided])
      refine ⟨?_, by simp [isPlanned]⟩
      rw [hsteps]
      exact (hsettled.asks.quiet (by simp [askPut])).mono (Nat.le_succ _)
  | completed outcome hrunning =>
      have hsteps : (foldAll d.spec
        (d.log ++ [.effectDecided (.complete outcome), .effectAuthorized (.complete outcome),
          .runCompleted outcome])).steps = (foldAll d.spec d.log).steps := by
        have hrunning : (foldAll d.spec d.log).harness.isRunning = true := hrunning
        rw [foldAll_append]
        simp [foldStep, FoldState.count, hrunning]
      refine ⟨?_, by simp [isPlanned]⟩
      rw [hsteps]
      exact hsettled.asks.quiet (by simp [askPut])
  | performed effect call mid last more hbudget happlicable heffect hmid houtcome hlast =>
      have hrest : ∀ payload ∈ .effectAuthorized effect :: (more ++ last.advance), isDecided payload = false := by
        intro payload hpayload
        simp only [List.mem_cons, List.mem_append] at hpayload
        rcases hpayload with rfl | hmore | hadvance
        · rfl
        · exact houtcome.not_decided payload hmore
        · exact last.advance_not_decided payload hadvance
      have hcomplete : ∀ outcome, effect = .complete outcome → d.state.harness.isRunning = false :=
        fun outcome heq => absurd heq (heffect outcome)
      have hmidSteps : mid.state.steps.toNat = d.state.steps.toNat + 1 := by
        have hsteps := steps_decided hbudget hcomplete [.effectAuthorized effect] (by simp [isDecided])
        rw [← hmid.log_eq, ← hmid.spec_eq] at hsteps
        exact hsteps
      have hmidAsks : Asks mid.spec mid.log messages mid.state.steps.toNat := by
        rw [hmidSteps, hmid.spec_eq, hmid.log_eq]
        exact hsettled.asks.quiet (by simp [askPut])
      have hafter := houtcome.asks hmidAsks hids hanswer fun hasks => by
        rw [hmid.spec_eq, hmid.log_eq]
        exact authorized_ask happlicable hasks
      rw [hmidSteps, hmid.spec_eq, hmid.log_eq] at hafter
      refine ⟨?_, ?_⟩
      · have hsteps := steps_decided hbudget hcomplete _ hrest
        rw [show [.effectDecided effect, .effectAuthorized effect] ++ more ++ last.advance =
          .effectDecided effect :: .effectAuthorized effect :: (more ++ last.advance) by simp, hsteps]
        have hall := hafter.quiet fun payload hpayload => (advance_settles last payload hpayload).1
        simpa using hall
      · have hne : more ++ last.advance ≠ [] := by
          simp [houtcome.ne_nil happlicable heffect hmid]
        rw [List.append_assoc, ← List.append_assoc d.log, List.getLast?_append_of_ne_nil _ hne]
        refine any_getLast?_eq_false fun payload hpayload => ?_
        rcases List.mem_append.mp hpayload with hmore | hadvance
        · exact houtcome.not_planned payload hmore
        · exact (advance_settles last payload hadvance).2

/-! ### Every log -/

/-- What a safe program owes at a boundary and returns holds of each driver it shows. -/
theorem shows_of_safe {J : Driver → Prop} {p : Prog HarnessSig (Driver × Finish)}
    (h : (Driver.World Unit (fun _ c answer _ => MayAnswer messages c answer)
      (fun _ c => ∀ driver, c = .boundary driver → J driver)).Safe (fun _ result => J result.1) p ())
    {driver : Driver} (hshows : Shows messages p driver) : J driver := by
  induction hshows with
  | boundary next => exact (World.safe_alone_call.mp h).1 _ rfl
  | returned driver finish => exact h
  | call hanswer _ ih => exact ih ((World.safe_alone_call.mp h).2 _ () hanswer)

theorem settled_loopRule (spec : RunSpec) (hids : (messages.map StoredMessage.id).Nodup) (tools : List ToolDescriptor) :
    LoopRule (fun (_ : Unit) c answer _ => MayAnswer messages c answer)
      (fun _ c => ∀ d, c = .boundary d → d.spec = spec ∧ Settled spec d.log messages) tools
      (fun _ d => d.spec = spec ∧ Settled spec d.log messages)
      (fun _ result => result.1.spec = spec ∧ Settled spec result.1.log messages) where
  boundary _ d hd _ := ⟨fun driver heq => by cases heq; exact hd, fun _ _ _ => hd⟩
  decide _ _ hd _ := ⟨by simp, fun _ _ _ => hd⟩
  work _ _ _ _ _ _ _ _ _ hwork driver heq := by
    subst heq
    exact hwork.2.elim
  batch _ d added d' hd _ hbatch hext := by
    obtain ⟨rfl, hsettled⟩ := hd
    exact ⟨hext.spec_eq, hext.log_eq ▸ hbatch.settled hsettled hids (by simp)⟩
  batchCall _ d c answer _ added d' hd _ hanswer hbatch hext _ := by
    obtain ⟨rfl, hsettled⟩ := hd
    refine ⟨hext.spec_eq, hext.log_eq ▸ hbatch.settled hsettled hids fun c' answer' heq => ?_⟩
    cases heq
    exact hanswer
  ended _ _ hd _ := hd
  cancelled _ d _ hd _ _ := by
    have hext := d.extends_push .runCancelled .system
    refine ⟨hd.1, ?_⟩
    show Settled spec (d.push .runCancelled .system).log messages
    rw [hext.log_eq]
    exact hd.2.quiet (by simp [askPut, isPlanned])
  paused _ _ _ hd _ _ := hd
  waiting _ _ _ _ _ _ hd _ _ _ := hd
  failed _ _ _ _ hd _ _ := hd

/-- A driver resumed from a settled log has nothing to finish. -/
theorem resumed_settled {spec : RunSpec} {events : List Event} {d : Driver} (h : Resumed spec events d)
    (hopen : hasEnded events = false) (hsettled : Settled spec (payloads events) messages) :
    d.pending = [] ∧ d.undecided = none ∧ Settled spec d.log messages := by
  have hsame : ∀ {resumed}, d.Starts spec events [] resumed → Settled spec d.log messages := by
    intro resumed hstarts
    rw [hstarts.log_eq, List.append_nil]
    exact hsettled
  cases h with
  | ended hended => exact absurd hended (ne_true_of_eq_false hopen)
  | started _ _ hstarts hpending hundecided =>
      refine ⟨hpending, hundecided, ?_⟩
      rw [hstarts.log_eq]
      exact hsettled.quiet (by simp [askPut, isPlanned])
  | completed _ _ outcome _ hstarts hpending hundecided =>
      refine ⟨hpending, hundecided, ?_⟩
      rw [hstarts.log_eq]
      exact hsettled.quiet (by simp [askPut, isPlanned])
  | terminal _ _ _ _ hstarts hpending hundecided => exact ⟨hpending, hundecided, hsame hstarts⟩
  | undecided _ _ _ before effect hlast =>
      have hnone := hsettled.last
      rw [hlast, List.getLast?_concat] at hnone
      exact absurd hnone Bool.true_eq_false.mp
  | pending _ _ _ _ hstarts hpending hundecided =>
      refine ⟨?_, hundecided, hsame hstarts⟩
      rcases effectsOfLast_cases spec events with hnil | ⟨before, effect, hlast, -⟩
      · rw [hpending, hnil]
      · have hnone := hsettled.last
        rw [hlast, List.getLast?_concat] at hnone
        exact absurd hnone Bool.true_eq_false.mp

theorem grows_logRule (events : List Event) : LogRule fun d => events <+: d.events where
  batch _ _ _ _ hgrows _ _ hext := hgrows.trans hext.grows
  cancelled d hgrows _ := hgrows.trans (d.extends_push .runCancelled .system).grows

/-- A driver resumed from a settled log shows settled ones, which go on from it. -/
theorem shows_settled {spec : RunSpec} {events : List Event} {stamp : Nat → Stamp} {start driver : Driver}
    (hresume : resume spec events stamp = .ok start) (hopen : hasEnded events = false)
    (hsettled : Settled spec (payloads events) messages) (hids : (messages.map StoredMessage.id).Nodup) {setup : Setup}
    {tools : List ToolDescriptor} (hshows : Shows messages (runUntil tools (start.setUp setup)) driver) :
    (driver.spec = spec ∧ Settled spec driver.log messages) ∧ events <+: driver.events := by
  have hresumed := (resume_cases hresume).setUp setup
  obtain ⟨hpending, hundecided, hstart⟩ := resumed_settled hresumed hopen hsettled
  have hfinished : ∀ {call added d'}, (start.setUp setup).Finished call added →
    (start.setUp setup).settled.Extends d' added →
      (d'.spec = spec ∧ Settled spec d'.log messages) ∧ events <+: d'.events := by
    intro call added d' hfinished hext
    refine ⟨⟨hext.spec_eq.trans hresumed.spec_eq, ?_⟩, hresumed.grows.trans hext.grows⟩
    rw [hext.log_eq]
    refine Settled.quiet hstart fun payload hpayload => ?_
    rcases hfinished.of_idle hpending hundecided with rfl | ⟨-, rfl⟩
    · exact absurd hpayload List.not_mem_nil
    · exact advance_settles _ payload hpayload
  refine shows_of_safe (J := fun driver => (driver.spec = spec ∧ Settled spec driver.log messages) ∧
    events <+: driver.events)
    ?_ hshows
  refine World.safe_alone_owes (fun _ c howes driver heq => ⟨howes.1 driver heq, howes.2 driver heq⟩)
    (runUntil_safe ((settled_loopRule spec hids tools).with (grows_logRule events)) hresumed.resumable () ?_
      (fun added d' hfin hext => hfinished hfin hext) fun c answer _ added d' _ hfin hext _ => hfinished hfin hext)
  rintro - mid added c - - hwork
  constructor <;>
  · rintro driver rfl
    exact hwork.2.elim

theorem DrawnOnce.ids {log : List EventPayload} (h : DrawnOnce messages log) : (messages.map StoredMessage.id).Nodup :=
  h.of_append_right

/-- An event that puts no ask and plans nothing. -/
theorem Settled.recorded {spec : RunSpec} {log : List EventPayload} {event : Event} (h : Settled spec log messages)
    (hdrawn : DrawnOnce messages log) (hevent : askPut event.payload = none ∧ isPlanned event.payload = false) :
    Settled spec (log ++ payloads [event]) messages ∧ DrawnOnce messages (log ++ payloads [event]) := by
  refine ⟨h.quiet (by simpa [payloads] using hevent), ?_⟩
  have hnone : questions (payloads [event]) = [] := by
    have hput := hevent.1
    cases hpayload : event.payload <;> simp_all [questions, payloads, askPut]
  rw [DrawnOnce, questions, List.filterMap_append, ← questions, ← questions, hnone, List.append_nil]
  exact hdrawn

/-- Every log that is built so is settled, and no id in it was drawn twice. -/
theorem AskLog.settled {spec : RunSpec} {log : List Event} (h : AskLog spec log messages) :
    Settled spec (payloads log) messages ∧ DrawnOnce messages (payloads log) := by
  induction h with
  | empty =>
      refine ⟨⟨⟨fun before payload after ask heq => ?_, fun _ _ _ hmem => absurd hmem List.not_mem_nil, List.nodup_nil⟩,
        rfl⟩, List.nodup_nil⟩
      simp at heq
  | @message log messages _ message hdrawn ih => exact ⟨ih.1.later (messages.grows_putMessage message), hdrawn⟩
  | drove _ hopen hresume setup tools hshows hdrawn ih =>
      exact ⟨(shows_settled hresume hopen ih.1 ih.2.ids hshows).1.2, hdrawn⟩
  | @answered log messages _ _ event ask hanswer ih =>
      rw [payloads_append]
      have hpayload : askPut event.payload = none ∧ isPlanned event.payload = false := by
        cases hpayload : event.payload <;> simp_all [answerTo, askPut, isPlanned]
      exact ih.1.recorded ih.2 hpayload
  | @recorded log messages _ _ event hother ih =>
      rw [payloads_append]
      refine ih.1.recorded ih.2 ?_
      cases hpayload : event.payload <;> simp_all [isDriven, isTerminal, askPut, isPlanned]

/-! ### What is open -/

/-- An ask that expects a reply, or a question to the user: one that the log puts, or a message stored. -/
def IsAsk (messages : MessageStore) (log : List EventPayload) (ask : MessageId) : Prop :=
  (∃ payload ∈ log, askPut payload = some (ask, true)) ∨ ∃ decision, messages.Holds ask decision true

theorem mem_questions {log : List EventPayload} {id : MessageId} {prompt : String} :
    (id, prompt) ∈ questions log ↔ .userAsked id prompt ∈ log := by
  rw [questions, List.mem_filterMap]
  constructor
  · rintro ⟨payload, hmem, hquestion⟩
    cases payload with
    | userAsked asked text =>
        obtain ⟨rfl, rfl⟩ := Prod.mk.inj (Option.some.inj hquestion)
        exact hmem
    | _ => simp at hquestion
  · exact fun hmem => ⟨_, hmem, rfl⟩

theorem MessageStore.Holds.unique {id : MessageId} {decision decision' : UInt32} {expects expects' : Bool}
    (hids : (messages.map StoredMessage.id).Nodup) (h : messages.Holds id decision expects)
    (h' : messages.Holds id decision' expects') : expects = expects' := by
  obtain ⟨stored, hmem, hid, -, hexpects⟩ := h
  obtain ⟨stored', hmem', hid', -, hexpects'⟩ := h'
  obtain rfl : stored = stored' := List.inj_on_of_nodup_map hids hmem hmem' (hid.trans hid'.symm)
  rw [← hexpects, ← hexpects']

/-- A question's id is no message's. -/
theorem DrawnOnce.not_stored {log : List EventPayload} (h : DrawnOnce messages log) {id : MessageId} {prompt : String}
    (hasked : .userAsked id prompt ∈ log) {decision : UInt32} {expects : Bool} :
    ¬ messages.Holds id decision expects := by
  rintro ⟨stored, hmem, hid, -⟩
  have hleft : id ∈ (questions log).map Prod.fst := List.mem_map.mpr ⟨_, mem_questions.mpr hasked, rfl⟩
  exact (List.nodup_append.mp h).2.2 id hleft stored.id (List.mem_map_of_mem hmem) hid.symm

/-- No tell has an ask's id. -/
theorem Settled.no_tell {spec : RunSpec} {log : List EventPayload} (h : Settled spec log messages)
    (hdrawn : DrawnOnce messages log) {ask : MessageId} (hask : IsAsk messages log ask) :
    ∀ payload ∈ log, askPut payload ≠ some (ask, false) := by
  intro payload hmem htell
  cases payload with
  | messageSent id toAgent expectsReply =>
      obtain ⟨rfl, rfl⟩ := Prod.mk.inj (Option.some.inj htell)
      obtain ⟨_, hholds, -⟩ := h.asks.sent id toAgent false hmem
      rcases hask with ⟨put, hput, heq⟩ | ⟨_, hasked⟩
      · cases put with
        | messageSent id' toAgent' expectsReply' =>
            obtain ⟨rfl, rfl⟩ := Prod.mk.inj (Option.some.inj heq)
            obtain ⟨_, hasked, -⟩ := h.asks.sent _ toAgent' true hput
            exact absurd (hholds.unique hdrawn.ids hasked) Bool.false_ne_true
        | userAsked id' prompt =>
            obtain ⟨rfl, -⟩ := Prod.mk.inj (Option.some.inj heq)
            exact hdrawn.not_stored hput hholds
        | _ => simp [askPut] at heq
      · exact absurd (hholds.unique hdrawn.ids hasked) Bool.false_ne_true
  | userAsked id prompt => exact absurd (Prod.mk.inj (Option.some.inj htell)).2 Bool.true_eq_false.mp
  | _ => simp [askPut] at htell

/-- The scan and the harness agree on every ask of a log that is built so. -/
theorem AskLog.open_iff {spec : RunSpec} {log : List Event} (h : AskLog spec log messages)
    (hopen : hasEnded log = false) {ask : MessageId} (hask : IsAsk messages (payloads log) ask) :
    askState log ask = .open ↔ ∃ step attempt, (fold spec log).harness = .waitingForMessage step attempt ask :=
  askState_iff h.settled.1.asks.placed hopen (h.settled.1.no_tell h.settled.2 hask)

/-- The question a harness waits on, with the prompt it was put with. -/
theorem AskLog.question_iff {spec : RunSpec} {log : List Event} (h : AskLog spec log messages)
    (hopen : hasEnded log = false) (ask : MessageId) (prompt : String) :
    openQuestionPrompt spec log = some (ask, prompt) ↔ askState log ask = .open ∧
      .userAsked ask prompt ∈ payloads log := by
  have hprompt : ∀ {text}, .userAsked ask text ∈ payloads log → .userAsked ask prompt ∈ payloads log →
      text = prompt := by
    intro text htext hprompt
    have hnodup : ((questions (payloads log)).map Prod.fst).Nodup := h.settled.2.of_append_left
    exact (Prod.mk.inj (List.inj_on_of_nodup_map hnodup (mem_questions.mpr htext) (mem_questions.mpr hprompt) rfl)).2
  have hwaiting : .userAsked ask prompt ∈ payloads log → (askState log ask = .open ↔
      ∃ step attempt, (fold spec log).harness = .waitingForMessage step attempt ask) :=
    fun hmem => h.open_iff hopen (.inl ⟨_, hmem, rfl⟩)
  unfold openQuestionPrompt
  rw [if_neg (ne_true_of_eq_false hopen)]
  constructor
  · intro hfound
    cases hharness : (fold spec log).harness with
    | waitingForMessage step attempt waiting =>
        simp only [hharness] at hfound
        obtain ⟨event, hmem, hevent⟩ := List.exists_of_findSome?_eq_some hfound
        cases hpayload : event.payload with
        | userAsked asked text =>
            simp only [hpayload] at hevent
            split at hevent
            · next heq =>
                obtain ⟨rfl, rfl⟩ := Prod.mk.inj (Option.some.inj hevent)
                have hput : .userAsked waiting text ∈ payloads log := by
                  rw [← heq, ← hpayload]
                  exact List.mem_map_of_mem hmem
                exact ⟨(hwaiting hput).mpr ⟨step, attempt, hharness⟩, hput⟩
            · cases hevent
        | _ => simp [hpayload] at hevent
    | _ => simp [hharness] at hfound
  · rintro ⟨hstate, hput⟩
    obtain ⟨step, attempt, hharness⟩ := (hwaiting hput).mp hstate
    simp only [hharness]
    obtain ⟨event, hmem, hpayload⟩ := List.mem_map.mp hput
    generalize hfound : log.findSome? _ = found
    cases found with
    | none =>
        have hnone := List.findSome?_eq_none_iff.mp hfound event hmem
        simp [hpayload] at hnone
    | some found =>
        obtain ⟨other, hother, hvalue⟩ := List.exists_of_findSome?_eq_some hfound
        cases hasked : other.payload with
        | userAsked asked text =>
            simp only [hasked] at hvalue
            split at hvalue
            · next heq =>
                subst heq
                have htext : .userAsked asked text ∈ payloads log := by
                  rw [← hasked]
                  exact List.mem_map_of_mem hother
                rw [← hprompt htext hput]
                exact hvalue.symm
            · cases hvalue
        | _ => simp [hasked] at hvalue

/-! ### What was answered -/

/-- What was sent was put. -/
theorem put_of_askState {events : List Event} {ask : MessageId} (h : askState events ask ≠ .unsent) :
    ∃ payload ∈ payloads events, ∃ expectsReply, askPut payload = some (ask, expectsReply) := by
  induction events using List.reverseRecOn with
  | nil => exact absurd rfl h
  | append_singleton events event ih =>
      rw [payloads_append]
      by_cases hbefore : askState events ask = .unsent
      · refine ⟨event.payload, List.mem_append_right _ (List.mem_singleton_self _), ?_⟩
        rw [askState_snoc, hbefore] at h
        cases hput : askPut event.payload with
        | some put =>
            obtain ⟨id, expectsReply⟩ := put
            rw [askStep_put hput] at h
            by_cases heq : id = ask
            · exact ⟨expectsReply, by rw [heq]⟩
            · exact absurd (if_neg heq) h
        | none =>
            cases hanswer : answerTo event.payload with
            | some id =>
                rw [askStep_answer hanswer] at h
                exact absurd (if_neg (by simp)) h
            | none => exact absurd (askStep_other hput hanswer ask .unsent) h
      · obtain ⟨payload, hmem, hput⟩ := ih hbefore
        exact ⟨payload, List.mem_append_left _ hmem, hput⟩

/-- An answered ask stays answered in a log that does not put it again. -/
theorem askState_answered {events more : List Event} {ask : MessageId} (h : askState events ask = .answered)
    (hmore : ∀ payload ∈ payloads more, ∀ expectsReply, askPut payload ≠ some (ask, expectsReply)) :
    askState (events ++ more) ask = .answered := by
  induction more using List.reverseRecOn with
  | nil => rwa [List.append_nil]
  | append_singleton more event ih =>
      rw [payloads_append] at hmore
      have hlast := hmore event.payload (List.mem_append_right _ (List.mem_singleton_self _))
      rw [← List.append_assoc, askState_snoc, ih fun payload hmem => hmore payload (List.mem_append_left _ hmem)]
      cases hput : askPut event.payload with
      | some put =>
          obtain ⟨id, expectsReply⟩ := put
          rw [askStep_put hput]
          exact if_neg fun heq => hlast expectsReply (by rw [hput, heq])
      | none =>
          cases hanswer : answerTo event.payload with
          | some id => rw [askStep_answer hanswer, if_neg (by simp)]
          | none => exact askStep_other hput hanswer ask _

/-- A log puts no id twice. -/
theorem Settled.put_once {spec : RunSpec} {log more : List EventPayload} (h : Settled spec (log ++ more) messages)
    (hdrawn : DrawnOnce messages (log ++ more)) {ask : MessageId} {payload : EventPayload} {expects : Bool}
    (hmem : payload ∈ log)
    (hput : askPut payload = some (ask, expects)) :
    ∀ later ∈ more, ∀ expects', askPut later ≠ some (ask, expects') := by
  intro later hlater expects' hlaterPut
  have hsent : ∀ {id toAgent expects}, .messageSent id toAgent expects ∈ log ++ more →
      ∃ decision, messages.Holds id decision expects := by
    intro id toAgent expects hmem
    obtain ⟨decision, hholds, -⟩ := h.asks.sent id toAgent expects hmem
    exact ⟨decision, hholds⟩
  have hleft := List.mem_append_left more hmem
  have hright := List.mem_append_right log hlater
  cases payload with
  | messageSent id toAgent expectsReply =>
      obtain ⟨rfl, -⟩ := Prod.mk.inj (Option.some.inj hput)
      cases later with
      | messageSent id' toAgent' expectsReply' =>
          obtain ⟨rfl, -⟩ := Prod.mk.inj (Option.some.inj hlaterPut)
          have honce := h.asks.once
          rw [sentIds_append] at honce
          exact (List.nodup_append.mp honce).2.2 _ (mem_sentIds.mpr ⟨_, _, hmem⟩) _ (mem_sentIds.mpr ⟨_, _, hlater⟩) rfl
      | userAsked id' prompt =>
          obtain ⟨rfl, -⟩ := Prod.mk.inj (Option.some.inj hlaterPut)
          obtain ⟨_, hholds⟩ := hsent hleft
          exact hdrawn.not_stored hright hholds
      | _ => simp [askPut] at hlaterPut
  | userAsked id prompt =>
      obtain ⟨rfl, -⟩ := Prod.mk.inj (Option.some.inj hput)
      cases later with
      | messageSent id' toAgent' expectsReply' =>
          obtain ⟨rfl, -⟩ := Prod.mk.inj (Option.some.inj hlaterPut)
          obtain ⟨_, hholds⟩ := hsent hright
          exact hdrawn.not_stored hleft hholds
      | userAsked id' prompt' =>
          obtain ⟨rfl, -⟩ := Prod.mk.inj (Option.some.inj hlaterPut)
          have honce : ((questions (log ++ more)).map Prod.fst).Nodup := hdrawn.of_append_left
          rw [questions, List.filterMap_append, List.map_append] at honce
          have hfirst : id' ∈ (questions log).map Prod.fst := List.mem_map.mpr ⟨_, mem_questions.mpr hmem, rfl⟩
          have hsecond : id' ∈ (questions more).map Prod.fst := List.mem_map.mpr ⟨_, mem_questions.mpr hlater, rfl⟩
          exact (List.nodup_append.mp honce).2.2 _ hfirst _ hsecond rfl
      | _ => simp [askPut] at hlaterPut
  | _ => simp [askPut] at hput

/-- A driver resumed from a log in which an ask was answered does not wait on it again. -/
theorem AskLog.never_waits {spec : RunSpec} {log : List Event} (h : AskLog spec log messages)
    (hopen : hasEnded log = false) {stamp : Nat → Stamp} {start driver : Driver}
    (hresume : resume spec log stamp = .ok start) {setup : Setup} {tools : List ToolDescriptor}
    (hshows : Shows messages (runUntil tools (start.setUp setup)) driver)
    (hdrawn : DrawnOnce messages driver.log) {ask : MessageId} (hanswered : askState log ask = .answered)
    (step attempt : UInt32) :
    driver.state.harness ≠ .waitingForMessage step attempt ask := by
  intro hwaiting
  obtain ⟨⟨rfl, hsettled⟩, more, hmore⟩ := shows_settled hresume hopen h.settled.1 h.settled.2.ids hshows
  have hsent : askState log ask ≠ .unsent := by simp [hanswered]
  obtain ⟨payload, hmem, expects, hput⟩ := put_of_askState hsent
  have hlog : driver.log = payloads log ++ payloads more := by rw [Driver.log, ← hmore, payloads_append]
  rw [hlog] at hsettled hdrawn
  have hstays := askState_answered hanswered (hsettled.put_once hdrawn hmem hput)
  have hopenAsk : askState driver.events ask = .open := askState_of_waiting hwaiting
  rw [← hmore, hstays] at hopenAsk
  cases hopenAsk

/-- In every open log that drivers resumed at boundaries and answers in any order build together: an ask that expects
a reply, or a question to the user, is open exactly while the harness waits on it; at most one is; the open question
has the prompt it was put with; and a driver resumed once an ask was answered waits on it at no boundary, nor when it
returns. -/
theorem asks_agree {spec : RunSpec} {log : List Event} {messages : MessageStore} (h : AskLog spec log messages)
    (hopen : hasEnded log = false) :
    (∀ ask, IsAsk messages (payloads log) ask → (askState log ask = .open ↔
      ∃ step attempt, (fold spec log).harness = .waitingForMessage step attempt ask)) ∧
    (∀ ask other, IsAsk messages (payloads log) ask → IsAsk messages (payloads log) other →
      askState log ask = .open → askState log other = .open → ask = other) ∧
    (∀ ask prompt, openQuestionPrompt spec log = some (ask, prompt) ↔
      askState log ask = .open ∧ .userAsked ask prompt ∈ payloads log) ∧
    (∀ ask, askState log ask = .answered →
      (∀ step attempt, (fold spec log).harness ≠ .waitingForMessage step attempt ask) ∧
      ∀ stamp start setup tools driver, resume spec log stamp = .ok start →
        Shows messages (runUntil tools (start.setUp setup)) driver → DrawnOnce messages driver.log →
        ∀ step attempt, driver.state.harness ≠ .waitingForMessage step attempt ask) := by
  refine ⟨fun ask => h.open_iff hopen, fun ask other hask hother hstate hstate' => ?_, h.question_iff hopen,
    fun ask hanswered => ⟨fun step attempt hwaiting => ?_, ?_⟩⟩
  · obtain ⟨step, attempt, hwaiting⟩ := (h.open_iff hopen hask).mp hstate
    obtain ⟨step', attempt', hwaiting'⟩ := (h.open_iff hopen hother).mp hstate'
    rw [hwaiting] at hwaiting'
    exact (HarnessState.waitingForMessage.inj hwaiting').2.2
  · rw [askState_of_waiting hwaiting] at hanswered
    cases hanswered
  · exact fun stamp start setup tools driver hresume hshows hdrawn =>
      h.never_waits hopen hresume hshows hdrawn hanswered

/-- A program whose calls are all answered shows the driver it returns. -/
theorem shows_eval {env : (c : HarnessCall) → c.Answer} (henv : ∀ c, MayAnswer messages c (env c))
    (p : Prog HarnessSig (Driver × Finish)) : Shows messages p (p.eval env).1 := by
  induction p with
  | ret result => exact .returned result.1 result.2
  | call c next ih => exact .call (henv c) (ih (env c))

/-- A driver that asks the user stores its question, and waits on it. -/
theorem asked_agrees :
    (∃ step attempt, (fold asker asked.1.events).harness = .waitingForMessage step attempt ⟨3⟩) ∧
    openQuestionPrompt asker asked.1.events = some (⟨3⟩, "which?") := by
  have hanswers : ∀ c, MayAnswer [] c (asksOnce.answers c) := by
    intro c
    cases c <;> exact trivial
  have hbuilt : AskLog asker asked.1.events [] :=
    .drove .empty rfl (resume_nil asker Stamp.plain) asking [] (shows_eval hanswers _)
      (show DrawnOnce [] asked.1.log from by unfold DrawnOnce; decide +kernel)
  have hagree := asks_agree hbuilt (by decide +kernel)
  have hstate : askState asked.1.events ⟨3⟩ = .open := by decide +kernel
  have hput : .userAsked ⟨3⟩ "which?" ∈ payloads asked.1.events := by decide +kernel
  exact ⟨(hagree.1 ⟨3⟩ (.inl ⟨_, hput, rfl⟩)).mp hstate, (hagree.2.2.1 ⟨3⟩ "which?").mpr ⟨hstate, hput⟩⟩

end Gol
