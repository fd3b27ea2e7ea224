import Mathlib.Data.List.Nodup
import Gol.LibraryText
import Gol.ProtocolOwners

/-! AG-UI events for a run's log (`surface.rs`). The renderer goes through the log once, with the tool inputs of the
whole log and the reply it emitted last. What it emits is a row of blocks: messages, tool calls and the run's end; the
reply it remembers is that of the last block. So a block depends on the blocks before it and on inputs authorized
before it, and a longer log only adds blocks. -/

namespace Gol
open Library

/-! ### The renderer -/

/-- An AG-UI event. -/
inductive AgUi where
  | runStarted (threadId runId : String)
  | textMessageStart (messageId role : String)
  | textMessageContent (messageId delta : String)
  | textMessageEnd (messageId : String)
  | toolCallStart (toolCallId toolCallName : String)
  | toolCallArgs (toolCallId delta : String)
  | toolCallEnd (toolCallId : String)
  | toolCallResult (messageId toolCallId content : String)
  | runFinished (threadId runId : String)
  | runError (message : String)
  deriving DecidableEq

namespace Surface

/-- The authorized input for each tool invocation, in log order. -/
def toolInputs (events : List Event) : List (InvocationId × String) :=
  events.filterMap fun event => match event.payload with
    | .effectAuthorized (.toolCall _ input invocation) => some (invocation, input)
    | _ => none

/-- The input of an invocation: the map keeps the last one authorized. -/
def inputOf (inputs : List (InvocationId × String)) (invocation : InvocationId) : String :=
  (inputs.reverse.lookup invocation).getD ""

def roleName : MessageRole → String
  | .assistant => "assistant"
  | .user => "user"
  | .system => "system"

def textMessage (messageId role text : String) : List AgUi :=
  [.textMessageStart messageId role, .textMessageContent messageId text, .textMessageEnd messageId]

def toolCall (call name input messageId output : String) : List AgUi :=
  [.toolCallStart call name, .toolCallArgs call input, .toolCallEnd call, .toolCallResult messageId call output]

/-- What the loop carries: the events emitted, and the assistant reply while it is the last thing emitted. -/
structure Rendered where
  out : List AgUi
  lastReply : Option String

/-- What one event of the log emits, and the reply that it is. -/
def emit (run : String) (inputs : List (InvocationId × String)) (lastReply : Option String) (event : Event) :
    List AgUi × Option String :=
  let id := event.envelope.eventId.uuid.toText
  match event.payload with
  | .toolResult name invocation _ _ output =>
      (toolCall invocation.uuid.toText name (inputOf inputs invocation) ("result-" ++ id) output, none)
  | .userMessage text => if text ≠ "" then (textMessage id "user" text, none) else ([], none)
  | .modelResponded message _ =>
      if message.text ≠ "" then
        (textMessage id (roleName message.role) message.text,
          if message.role = .assistant then some message.text else none)
      else ([], none)
  | .runCompleted outcome =>
      ((if outcome ≠ "" ∧ lastReply ≠ some outcome then textMessage ("outcome-" ++ run) "assistant" outcome else []) ++
        [.runFinished run run], none)
  | .runFailed _ message => ([.runError message], none)
  | .runCancelled => ([.runError "cancelled"], none)
  | .runExpired => ([.runError "expired"], none)
  | _ => ([], none)

def step (run : String) (inputs : List (InvocationId × String)) (rendered : Rendered) (event : Event) : Rendered :=
  let emitted := emit run inputs rendered.lastReply event
  ⟨rendered.out ++ emitted.1, if emitted.1 = [] then rendered.lastReply else emitted.2⟩

end Surface

open Surface in
/-- Maps a run's events to AG-UI events. -/
def agUiEvents (runId : RunId) (events : List Event) : List AgUi :=
  let run := runId.uuid.toText
  (events.foldl (Surface.step run (toolInputs events)) ⟨[.runStarted run run], none⟩).out

namespace Surface

/-! ### Blocks -/

/-- What is shown as one: a message, a tool call, or the run's end. -/
inductive Block where
  | message (id role text : String)
  | tool (call name input messageId output : String)
  | finished (run : String)
  | failed (message : String)

namespace Block

def items : Block → List AgUi
  | .message id role text => textMessage id role text
  | .tool call name input messageId output => toolCall call name input messageId output
  | .finished run => [.runFinished run run]
  | .failed reason => [.runError reason]

/-- The id of the message that the block is or holds. -/
def messageId : Block → Option String
  | .message id _ _ => some id
  | .tool _ _ _ messageId _ => some messageId
  | _ => none

/-- The text of an assistant's message. -/
def reply : Block → Option String
  | .message _ role text => if role = "assistant" then some text else none
  | _ => none

end Block

/-- The reply shown last, if nothing was shown after it. -/
def lastReply (shown : List Block) : Option String := shown.getLast?.bind Block.reply

/-- The blocks that one event adds to those shown. -/
def blocksOf (run : String) (inputs : List (InvocationId × String)) (shown : List Block) (event : Event) : List Block :=
  let id := event.envelope.eventId.uuid.toText
  match event.payload with
  | .toolResult name invocation _ _ output =>
      [.tool invocation.uuid.toText name (inputOf inputs invocation) ("result-" ++ id) output]
  | .userMessage text => if text ≠ "" then [.message id "user" text] else []
  | .modelResponded message _ => if message.text ≠ "" then [.message id (roleName message.role) message.text] else []
  | .runCompleted outcome =>
      (if outcome ≠ "" ∧ lastReply shown ≠ some outcome then [.message ("outcome-" ++ run) "assistant" outcome]
        else []) ++
        [.finished run]
  | .runFailed _ message => [.failed message]
  | .runCancelled => [.failed "cancelled"]
  | .runExpired => [.failed "expired"]
  | _ => []

/-- The blocks of a log, with the tool inputs given. -/
def blocksWith (run : String) (inputs : List (InvocationId × String)) (events : List Event) : List Block :=
  events.foldl (fun shown event => shown ++ blocksOf run inputs shown event) []

def blocks (runId : RunId) (events : List Event) : List Block := blocksWith runId.uuid.toText (toolInputs events) events

section Blocks

variable {run : String} {inputs : List (InvocationId × String)} {shown : List Block} {event : Event}
  {events more : List Event}

theorem roleName_eq_assistant (role : MessageRole) : roleName role = "assistant" ↔ role = .assistant := by
  cases role <;> simp [roleName]

theorem items_ne_nil (block : Block) : block.items ≠ [] := by
  cases block <;> simp [Block.items, textMessage, toolCall]

/-- One event emits its blocks, and the reply that they end in. -/
theorem emit_eq : emit run inputs (lastReply shown) event =
    ((blocksOf run inputs shown event).flatMap Block.items, lastReply (blocksOf run inputs shown event)) := by
  unfold emit blocksOf
  cases event.payload with
  | userMessage text =>
      by_cases hempty : text = ""
      · simp [hempty, lastReply]
      · simp [hempty, lastReply, Block.items, Block.reply]
  | modelResponded message usage =>
      by_cases hempty : message.text = ""
      · simp [hempty, lastReply]
      · simp [hempty, lastReply, Block.items, Block.reply, roleName_eq_assistant]
  | runCompleted outcome =>
      by_cases hshown : outcome ≠ "" ∧ lastReply shown ≠ some outcome
      · simp only [if_pos hshown]
        rfl
      · simp only [if_neg hshown]
        rfl
  | _ => rfl

theorem lastReply_append (added : List Block) :
    lastReply (shown ++ added) = if added = [] then lastReply shown else lastReply added := by
  cases added with
  | nil => simp
  | cons first rest =>
      rw [if_neg (List.cons_ne_nil _ _), lastReply, lastReply, List.getLast?_append, List.getLast?_cons, Option.some_or]

theorem step_eq (start : List AgUi) :
    step run inputs ⟨start ++ shown.flatMap Block.items, lastReply shown⟩ event =
      ⟨start ++ (shown ++ blocksOf run inputs shown event).flatMap Block.items,
        lastReply (shown ++ blocksOf run inputs shown event)⟩ := by
  have hnil : ∀ added : List Block, added.flatMap Block.items = [] ↔ added = [] := by
    intro added
    cases added with
    | nil => simp
    | cons first rest => simp [items_ne_nil]
  simp only [step, emit_eq, lastReply_append, List.flatMap_append, List.append_assoc, hnil]

theorem blocksWith_append : blocksWith run inputs (events ++ more) =
    more.foldl (fun shown event => shown ++ blocksOf run inputs shown event) (blocksWith run inputs events) := by
  rw [blocksWith, List.foldl_append, blocksWith]

theorem blocksWith_snoc : blocksWith run inputs (events ++ [event]) =
    blocksWith run inputs events ++ blocksOf run inputs (blocksWith run inputs events) event := by
  rw [blocksWith_append]
  rfl

theorem blocksWith_prefix (part : List Event) (h : part <+: events) :
    blocksWith run inputs part <+: blocksWith run inputs events := by
  obtain ⟨more, rfl⟩ := h
  induction more using List.reverseRecOn with
  | nil => simp
  | append_singleton more event ih =>
      rw [← List.append_assoc, blocksWith_snoc]
      exact ih.trans (List.prefix_append _ _)

theorem foldl_step (start : List AgUi) (events : List Event) :
    events.foldl (step run inputs) ⟨start, none⟩ =
      ⟨start ++ (blocksWith run inputs events).flatMap Block.items, lastReply (blocksWith run inputs events)⟩ := by
  induction events using List.reverseRecOn with
  | nil => simp [blocksWith, lastReply]
  | append_singleton events event ih =>
      rw [List.foldl_append, ih, blocksWith_snoc, List.foldl_cons, List.foldl_nil, step_eq]

end Blocks

/-! ### Where blocks come from -/

/-- A run's log as the renderer is given it: each event has its own id, each tool invocation was authorized once, and
each tool result follows its authorization. -/
structure Traced (events : List Event) : Prop where
  ids : (events.map fun event => event.envelope.eventId).Nodup
  invocations : ((toolInputs events).map Prod.fst).Nodup
  follows : ∀ before event after name invocation step attempt output, events = before ++ event :: after →
    event.payload = .toolResult name invocation step attempt output → ∃ input, (invocation, input) ∈ toolInputs before

/-- The block shows an event of the log: a message, a tool's result with its authorized input, or an end. -/
def Block.Shows (runId : RunId) (events : List Event) : Block → Prop
  | .message id role text => text ≠ "" ∧ ∃ event ∈ events,
      (id = event.envelope.eventId.uuid.toText ∧
        (event.payload = .userMessage text ∧ role = "user" ∨
          ∃ author usage, event.payload = .modelResponded ⟨author, text⟩ usage ∧ role = roleName author)) ∨
      (id = "outcome-" ++ runId.uuid.toText ∧ event.payload = .runCompleted text ∧ role = "assistant")
  | .tool call name input messageId output => ∃ event ∈ events, ∃ invocation step attempt,
      event.payload = .toolResult name invocation step attempt output ∧ call = invocation.uuid.toText ∧
      messageId = "result-" ++ event.envelope.eventId.uuid.toText ∧
      ∃ authorized ∈ events, ∃ asked, authorized.payload = .effectAuthorized (.toolCall asked input invocation)
  | .finished run => run = runId.uuid.toText ∧ ∃ event ∈ events, ∃ outcome, event.payload = .runCompleted outcome
  | .failed reason => ∃ event ∈ events, (∃ cls, event.payload = .runFailed cls reason) ∨
      (event.payload = .runCancelled ∧ reason = "cancelled") ∨ (event.payload = .runExpired ∧ reason = "expired")

theorem mem_toolInputs {events : List Event} {invocation : InvocationId} {input : String} :
    (invocation, input) ∈ toolInputs events ↔
      ∃ event ∈ events, ∃ asked, event.payload = .effectAuthorized (.toolCall asked input invocation) := by
  rw [toolInputs, List.mem_filterMap]
  constructor
  · rintro ⟨event, hmem, heq⟩
    refine ⟨event, hmem, ?_⟩
    split at heq
    · next asked input' invocation' hpayload =>
        cases heq
        exact ⟨asked, hpayload⟩
    · cases heq
  · rintro ⟨event, hmem, asked, hpayload⟩
    exact ⟨event, hmem, by rw [hpayload]⟩

theorem toolInputs_append (events more : List Event) :
    toolInputs (events ++ more) = toolInputs events ++ toolInputs more :=
  List.filterMap_append

theorem lookup_of_mem {α β : Type} [DecidableEq α] {pairs : List (α × β)} (h : (pairs.map Prod.fst).Nodup)
    {key : α} {value : β} (hmem : (key, value) ∈ pairs) : pairs.lookup key = some value := by
  induction pairs with
  | nil => cases hmem
  | cons pair pairs ih =>
      obtain ⟨key', value'⟩ := pair
      rw [List.map_cons, List.nodup_cons] at h
      rcases List.mem_cons.mp hmem with heq | hrest
      · cases heq
        exact List.lookup_cons_self
      · have hne : key ≠ key' := by
          rintro rfl
          exact h.1 (List.mem_map.mpr ⟨_, hrest, rfl⟩)
        rw [List.lookup_cons, beq_false_of_ne hne]
        exact ih h.2 hrest

/-- An invocation authorized once has the input it was authorized with. -/
theorem inputOf_eq {inputs : List (InvocationId × String)} (h : (inputs.map Prod.fst).Nodup) {invocation : InvocationId}
    {input : String} (hmem : (invocation, input) ∈ inputs) : inputOf inputs invocation = input := by
  have hreverse : (inputs.reverse.map Prod.fst).Nodup := by
    rw [List.map_reverse]
    exact List.nodup_reverse.mpr h
  rw [inputOf, lookup_of_mem hreverse (List.mem_reverse.mpr hmem)]
  rfl

namespace Traced

variable {runId : RunId} {events part : List Event}

theorem cut (h : Traced events) (hpart : part <+: events) : Traced part := by
  obtain ⟨more, rfl⟩ := hpart
  refine ⟨?_, ?_, ?_⟩
  · have hids := h.ids
    rw [List.map_append] at hids
    exact hids.of_append_left
  · have hinvocations := h.invocations
    rw [toolInputs_append, List.map_append] at hinvocations
    exact hinvocations.of_append_left
  · intro before event after name invocation step attempt output hsplit hpayload
    refine h.follows before event (after ++ more) name invocation step attempt output ?_ hpayload
    rw [hsplit, List.append_assoc, List.cons_append]

/-- A longer log gives a result the input that its own part of the log gives. -/
theorem inputOf_cut (h : Traced events) (hpart : part <+: events) {event : Event} (hmem : event ∈ part)
    {name output : String} {invocation : InvocationId} {step attempt : UInt32}
    (hpayload : event.payload = .toolResult name invocation step attempt output) :
    ∃ input, (invocation, input) ∈ toolInputs part ∧ inputOf (toolInputs events) invocation = input := by
  have hcut := h.cut hpart
  obtain ⟨before, after, rfl⟩ := List.append_of_mem hmem
  obtain ⟨more, rfl⟩ := hpart
  obtain ⟨input, hinput⟩ := hcut.follows before event after name invocation step attempt output rfl hpayload
  have hbefore : (invocation, input) ∈ toolInputs (before ++ event :: after) := by
    rw [toolInputs_append]
    exact List.mem_append_left _ hinput
  refine ⟨input, hbefore, inputOf_eq h.invocations ?_⟩
  rw [toolInputs_append]
  exact List.mem_append_left _ hbefore

end Traced

theorem blocksOf_congr {run : String} {inputs inputs' : List (InvocationId × String)}
    {shown : List Block} {event : Event}
    (h : ∀ name invocation step attempt output, event.payload = .toolResult name invocation step attempt output →
      inputOf inputs invocation = inputOf inputs' invocation) :
    blocksOf run inputs shown event = blocksOf run inputs' shown event := by
  unfold blocksOf
  cases hpayload : event.payload with
  | toolResult name invocation step attempt output => simp only [h _ _ _ _ _ hpayload]
  | _ => rfl

theorem blocksWith_congr {run : String} {inputs inputs' : List (InvocationId × String)} {events : List Event}
    (h : ∀ event ∈ events, ∀ name invocation step attempt output,
      event.payload = .toolResult name invocation step attempt output →
      inputOf inputs invocation = inputOf inputs' invocation) : blocksWith run inputs events =
        blocksWith run inputs' events := by
  induction events using List.reverseRecOn with
  | nil => rfl
  | append_singleton events event ih =>
      rw [blocksWith_snoc, blocksWith_snoc, ih fun other hother => h other (List.mem_append_left _ hother),
        blocksOf_congr (h event (by simp))]

/-- The part of a log is shown alike by itself. -/
theorem Traced.blocksWith_cut {runId : RunId} {events part : List Event} (h : Traced events) (hpart : part <+: events) :
    blocksWith runId.uuid.toText (toolInputs events) part = blocks runId part := by
  apply blocksWith_congr
  intro event hmem name invocation step attempt output hpayload
  obtain ⟨input, hinput, hwhole⟩ := h.inputOf_cut hpart hmem hpayload
  rw [hwhole, inputOf_eq (h.cut hpart).invocations hinput]

/-- What a log shows is the beginning of what a longer log shows. -/
theorem Traced.blocks_prefix {runId : RunId} {events part : List Event} (h : Traced events) (hpart : part <+: events) :
    blocks runId part <+: blocks runId events := by
  rw [← h.blocksWith_cut hpart]
  exact blocksWith_prefix part hpart

theorem Traced.blocks_snoc {runId : RunId} {events : List Event} {event : Event} (h : Traced (events ++ [event])) :
    blocks runId (events ++ [event]) =
      blocks runId events ++ blocksOf runId.uuid.toText (toolInputs (events ++ [event]))
        (blocks runId events) event := by
  rw [← h.blocksWith_cut (List.prefix_append _ _), blocks, blocksWith_snoc]

theorem mem_blocksWith {run : String} {inputs : List (InvocationId × String)} {events : List Event} {block : Block}
    (h : block ∈ blocksWith run inputs events) :
    ∃ event ∈ events, ∃ shown, block ∈ blocksOf run inputs shown event := by
  induction events using List.reverseRecOn with
  | nil => cases h
  | append_singleton events event ih =>
      rw [blocksWith_snoc] at h
      rcases List.mem_append.mp h with hbefore | hlast
      · obtain ⟨other, hmem, shown, hother⟩ := ih hbefore
        exact ⟨other, List.mem_append_left _ hmem, shown, hother⟩
      · exact ⟨event, by simp, _, hlast⟩

/-- Each block shows an event of the log. -/
theorem Traced.shows {runId : RunId} {events : List Event} (h : Traced events) {block : Block}
    (hblock : block ∈ blocks runId events) : block.Shows runId events := by
  obtain ⟨event, hmem, shown, hblock⟩ := mem_blocksWith hblock
  unfold blocksOf at hblock
  cases hpayload : event.payload with
  | toolResult name invocation step attempt output =>
      simp only [hpayload, List.mem_singleton] at hblock
      subst hblock
      obtain ⟨input, hinput, hwhole⟩ := h.inputOf_cut List.prefix_rfl hmem hpayload
      rw [hwhole]
      exact ⟨event, hmem, invocation, step, attempt, hpayload, rfl, rfl, mem_toolInputs.mp hinput⟩
  | userMessage text =>
      simp only [hpayload] at hblock
      split at hblock
      · next htext =>
          obtain rfl := List.mem_singleton.mp hblock
          exact ⟨htext, event, hmem, .inl ⟨rfl, .inl ⟨hpayload, rfl⟩⟩⟩
      · cases hblock
  | modelResponded message usage =>
      simp only [hpayload] at hblock
      split at hblock
      · next htext =>
          obtain rfl := List.mem_singleton.mp hblock
          exact ⟨htext, event, hmem, .inl ⟨rfl, .inr ⟨message.role, usage, hpayload, rfl⟩⟩⟩
      · cases hblock
  | runCompleted outcome =>
      simp only [hpayload] at hblock
      rcases List.mem_append.mp hblock with hmessage | hfinished
      · split at hmessage
        · next hshown =>
            obtain rfl := List.mem_singleton.mp hmessage
            exact ⟨hshown.1, event, hmem, .inr ⟨rfl, hpayload, rfl⟩⟩
        · cases hmessage
      · obtain rfl := List.mem_singleton.mp hfinished
        exact ⟨rfl, event, hmem, outcome, hpayload⟩
  | runFailed cls reason =>
      simp only [hpayload, List.mem_singleton] at hblock
      subst hblock
      exact ⟨event, hmem, .inl ⟨cls, hpayload⟩⟩
  | runCancelled =>
      simp only [hpayload, List.mem_singleton] at hblock
      subst hblock
      exact ⟨event, hmem, .inr (.inl ⟨hpayload, rfl⟩)⟩
  | runExpired =>
      simp only [hpayload, List.mem_singleton] at hblock
      subst hblock
      exact ⟨event, hmem, .inr (.inr ⟨hpayload, rfl⟩)⟩
  | _ => simp [hpayload] at hblock

/-! ### Message ids -/

def messageIds (shown : List Block) : List String := shown.filterMap Block.messageId

def isCompleted (event : Event) : Bool := match event.payload with
  | .runCompleted _ => true
  | _ => false

/-- The ids that an event's messages can have. -/
def OwnId (event : Event) (id : String) : Prop :=
  id = event.envelope.eventId.uuid.toText ∨ id = "result-" ++ event.envelope.eventId.uuid.toText

theorem OwnId.event_eq {event event' : Event} {id : String} (h : OwnId event id) (h' : OwnId event' id) :
    event.envelope.eventId = event'.envelope.eventId := by
  have hlength : ∀ text text' : Uuid, text.toText ≠ "result-" ++ text'.toText := by
    intro text text' heq
    have hsize := congrArg String.length heq
    rw [String.length_append, Uuid.toText_length, Uuid.toText_length] at hsize
    exact absurd hsize (by decide)
  have hids : event.envelope.eventId.uuid = event'.envelope.eventId.uuid := by
    rcases h with rfl | rfl
    · rcases h' with heq | heq
      · exact Uuid.toText_injective heq
      · exact absurd heq (hlength _ _)
    · rcases h' with heq | heq
      · exact absurd heq.symm (hlength _ _)
      · exact Uuid.toText_injective (String.append_right_inj _ |>.mp heq)
  exact congrArg EventId.mk hids

theorem OwnId.ne_outcome {event : Event} {id : String} (h : OwnId event id) (run : Uuid) :
    id ≠ "outcome-" ++ run.toText := by
  intro heq
  have hsize := congrArg String.length heq
  rcases h with rfl | rfl
  · rw [String.length_append, Uuid.toText_length, Uuid.toText_length] at hsize
    exact absurd hsize (by decide)
  · rw [String.length_append, String.length_append, Uuid.toText_length, Uuid.toText_length] at hsize
    exact absurd hsize (by decide)

/-- An event adds one message at most, under an id of its own, or under the run's if it completes the run. -/
theorem messageIds_blocksOf (run : String) (inputs : List (InvocationId × String))
    (shown : List Block) (event : Event) :
    messageIds (blocksOf run inputs shown event) = [] ∨
    (∃ id, OwnId event id ∧ messageIds (blocksOf run inputs shown event) = [id]) ∨
    (isCompleted event = true ∧ messageIds (blocksOf run inputs shown event) = ["outcome-" ++ run]) := by
  unfold blocksOf isCompleted
  cases event.payload with
  | toolResult name invocation step attempt output => exact .inr (.inl ⟨_, .inr rfl, rfl⟩)
  | userMessage text =>
      dsimp only
      split
      · exact .inr (.inl ⟨_, .inl rfl, rfl⟩)
      · exact .inl rfl
  | modelResponded message usage =>
      dsimp only
      split
      · exact .inr (.inl ⟨_, .inl rfl, rfl⟩)
      · exact .inl rfl
  | runCompleted outcome =>
      dsimp only
      split
      · exact .inr (.inr ⟨rfl, rfl⟩)
      · exact .inl rfl
  | _ => exact .inl rfl

theorem mem_messageIds {run : String} {inputs : List (InvocationId × String)} {events : List Event} {id : String}
    (h : id ∈ messageIds (blocksWith run inputs events)) :
    (∃ event ∈ events, OwnId event id) ∨ id = "outcome-" ++ run := by
  obtain ⟨block, hblock, hid⟩ := List.mem_filterMap.mp h
  obtain ⟨event, hmem, shown, hblock⟩ := mem_blocksWith hblock
  have hids : id ∈ messageIds (blocksOf run inputs shown event) := List.mem_filterMap.mpr ⟨block, hblock, hid⟩
  rcases messageIds_blocksOf run inputs shown event with hnone | ⟨own, hown, hone⟩ | ⟨-, hone⟩
  · rw [hnone] at hids
    cases hids
  · rw [hone] at hids
    obtain rfl := List.mem_singleton.mp hids
    exact .inl ⟨event, hmem, hown⟩
  · rw [hone] at hids
    exact .inr (List.mem_singleton.mp hids)

/-- The messages of events with ids of their own have ids of their own; those of outcomes have the run's. -/
theorem count_messageIds (run : Uuid) (inputs : List (InvocationId × String)) {events : List Event}
    (h : (events.map fun event => event.envelope.eventId).Nodup) (id : String) :
    (messageIds (blocksWith run.toText inputs events)).count id ≤
      if id = "outcome-" ++ run.toText then events.countP isCompleted else 1 := by
  induction events using List.reverseRecOn with
  | nil => simp [messageIds, blocksWith]
  | append_singleton events event ih =>
      rw [List.map_append, List.map_singleton] at h
      have hbefore := ih (List.nodup_append.mp h).1
      have hfresh : event.envelope.eventId ∉ events.map fun event => event.envelope.eventId := by
        intro hmem
        exact (List.nodup_append.mp h).2.2 _ hmem _ (List.mem_singleton_self _) rfl
      rw [blocksWith_snoc, messageIds, List.filterMap_append, List.count_append, List.countP_append,
        List.countP_singleton]
      change (messageIds _).count id + (messageIds _).count id ≤ _
      rcases messageIds_blocksOf run.toText inputs (blocksWith run.toText inputs events) event with
        hnone | ⟨own, hown, hone⟩ | ⟨hcompleted, hone⟩
      · rw [hnone, List.count_nil]
        split
        · next heq =>
            rw [if_pos heq] at hbefore
            omega
        · next hne =>
            rw [if_neg hne] at hbefore
            omega
      · rw [hone, List.count_singleton]
        by_cases hid : own = id
        · subst hid
          have hnew : own ∉ messageIds (blocksWith run.toText inputs events) := by
            intro hmem
            rcases mem_messageIds hmem with ⟨other, hother, hown'⟩ | heq
            · exact hfresh (List.mem_map.mpr ⟨other, hother, (hown.event_eq hown').symm⟩)
            · exact hown.ne_outcome run heq
          rw [List.count_eq_zero.mpr hnew, if_neg (hown.ne_outcome run)]
          split <;> omega
        · rw [if_neg (by simpa using hid)]
          split
          · next heq =>
              rw [if_pos heq] at hbefore
              omega
          · next hne =>
              rw [if_neg hne] at hbefore
              omega
      · rw [hone, List.count_singleton, hcompleted]
        by_cases hid : id = "outcome-" ++ run.toText
        · rw [if_pos hid] at hbefore ⊢
          subst hid
          simpa using hbefore
        · rw [if_neg hid] at hbefore ⊢
          rw [if_neg (by simpa using fun heq => hid heq.symm)]
          omega

end Surface

open Surface

/-- The rendering is the start and the blocks. -/
theorem agUiEvents_eq (runId : RunId) (events : List Event) : agUiEvents runId events =
    .runStarted runId.uuid.toText runId.uuid.toText :: (blocks runId events).flatMap Block.items := by
  simp only [agUiEvents, foldl_step, blocks]
  rfl

/-! ### The run's end -/

namespace AgUi

def isEnd : AgUi → Bool
  | .runFinished _ _ | .runError _ => true
  | _ => false

/-- The text of a message. -/
def text : AgUi → Option String
  | .textMessageContent _ delta => some delta
  | _ => none

end AgUi

namespace Surface

variable {runId : RunId} {events : List Event} {event : Event}

/-- A terminal event adds one end, and adds it last; no other event adds one. -/
theorem countP_blocksOf (run : String) (inputs : List (InvocationId × String)) (shown : List Block) (event : Event) :
    ((blocksOf run inputs shown event).flatMap Block.items).countP AgUi.isEnd = if isTerminal event.payload then 1
      else 0 := by
  unfold blocksOf
  cases event.payload with
  | userMessage text | modelResponded message usage =>
      dsimp only
      split <;> rfl
  | runCompleted outcome =>
      dsimp only
      split <;> rfl
  | _ => rfl

theorem countP_blocksWith (run : String) (inputs : List (InvocationId × String)) (events : List Event) :
    ((blocksWith run inputs events).flatMap Block.items).countP AgUi.isEnd =
      events.countP fun event => isTerminal event.payload := by
  induction events using List.reverseRecOn with
  | nil => rfl
  | append_singleton events event ih =>
      rw [blocksWith_snoc, List.flatMap_append, List.countP_append, ih, countP_blocksOf, List.countP_append,
        List.countP_singleton]

theorem getLast_blocksOf (run : String) (inputs : List (InvocationId × String)) (shown : List Block) (event : Event)
    (h : isTerminal event.payload = true) :
    ∃ earlier item, (blocksOf run inputs shown event).flatMap Block.items = earlier ++ [item] ∧ item.isEnd = true := by
  unfold blocksOf
  cases hpayload : event.payload with
  | runCompleted outcome => exact ⟨_, _, List.flatMap_append, rfl⟩
  | runFailed cls reason => exact ⟨[], _, rfl, rfl⟩
  | runCancelled => exact ⟨[], _, rfl, rfl⟩
  | runExpired => exact ⟨[], _, rfl, rfl⟩
  | _ =>
      rw [hpayload] at h
      cases h

/-- A message's text is the last text shown right after it. -/
theorem getLast_text {shown : List Block} {outcome : String} (h : lastReply shown = some outcome) :
    ((shown.flatMap Block.items).filterMap AgUi.text).getLast? = some outcome := by
  obtain ⟨block, hlast, hreply⟩ := Option.bind_eq_some_iff.mp h
  obtain ⟨earlier, rfl⟩ := List.getLast?_eq_some_iff.mp hlast
  cases block with
  | message id role text =>
      simp only [Block.reply] at hreply
      split at hreply
      · obtain rfl := Option.some.inj hreply
        rw [List.flatMap_append, List.filterMap_append, List.getLast?_append]
        rfl
      · cases hreply
  | _ => cases hreply

end Surface

/-- The rendering of a run's log. It begins with its one `RUN_STARTED`; all that follows are messages, tool calls and
ends, each whole and each of an event of the log, a tool call with the input that was authorized and the output
recorded. No two messages have one id, but that outcomes have the run's where a log completes more than once. The
rendering of a log's part is the beginning of the log's. Where only the log's last event may be terminal, an end is
shown exactly if the log has ended, once and last; a non-empty outcome is then the last text shown, and is shown anew
exactly where the last thing shown was no assistant's message with that text. -/
theorem ag_ui_renders (runId : RunId) (log : List Event) (h : Traced log) :
    (agUiEvents runId log = .runStarted runId.uuid.toText runId.uuid.toText :: (blocks runId log).flatMap Block.items ∧
      (∀ thread run, .runStarted thread run ∉ (blocks runId log).flatMap Block.items) ∧
      (∀ block ∈ blocks runId log, block.Shows runId log) ∧
      ∀ id, ((blocks runId log).filterMap Block.messageId).count id ≤
        if id = "outcome-" ++ runId.uuid.toText then log.countP isCompleted else 1) ∧
    (∀ part, part <+: log → agUiEvents runId part <+: agUiEvents runId log) ∧
    ((∀ event ∈ log.dropLast, isTerminal event.payload = false) →
      (agUiEvents runId log).countP AgUi.isEnd = (if hasEnded log then 1 else 0) ∧
      (hasEnded log = true → ∃ earlier item, agUiEvents runId log = earlier ++ [item] ∧ item.isEnd = true) ∧
      ∀ before event outcome, log = before ++ [event] → event.payload = .runCompleted outcome → outcome ≠ "" →
        ((agUiEvents runId log).filterMap AgUi.text).getLast? = some outcome ∧
        agUiEvents runId log = agUiEvents runId before ++
          (if lastReply (blocks runId before) = some outcome then []
            else textMessage ("outcome-" ++ runId.uuid.toText) "assistant" outcome) ++
          [.runFinished runId.uuid.toText runId.uuid.toText]) := by
  refine ⟨⟨agUiEvents_eq runId log, ?_, fun block => h.shows, count_messageIds _ _ h.ids⟩, ?_,
    fun hlast => ⟨?_, ?_, ?_⟩⟩
  · intro thread run hmem
    obtain ⟨block, -, hitem⟩ := List.mem_flatMap.mp hmem
    cases block <;> simp [Block.items, textMessage, toolCall] at hitem
  · intro part hpart
    have hbegins : blocks runId part <+: blocks runId log := h.blocks_prefix hpart
    obtain ⟨more, hmore⟩ := hbegins
    rw [agUiEvents_eq, agUiEvents_eq, ← hmore, List.flatMap_append, ← List.cons_append]
    exact List.prefix_append _ _
  · rw [agUiEvents_eq, List.countP_cons_of_neg (by simp [AgUi.isEnd]), blocks, countP_blocksWith]
    induction log using List.reverseRecOn with
    | nil => rfl
    | append_singleton before event _ =>
        rw [List.dropLast_concat] at hlast
        have hbefore : before.countP (fun event => isTerminal event.payload) = 0 :=
          List.countP_eq_zero.mpr fun other hother => by simp [hlast other hother]
        have hnone : hasEnded before = false := List.any_eq_false.mpr fun other hother => by simp [hlast other hother]
        rw [List.countP_append, hbefore, List.countP_singleton, Nat.zero_add, hasEnded, List.any_append]
        change (if _ then 1 else 0) = if (hasEnded before || _) = true then 1 else 0
        simp [hnone]
  · intro hended
    induction log using List.reverseRecOn with
    | nil => cases hended
    | append_singleton before event _ =>
        rw [List.dropLast_concat] at hlast
        have hnone : hasEnded before = false := List.any_eq_false.mpr fun other hother => by simp [hlast other hother]
        have hterminal : isTerminal event.payload = true := by
          rw [hasEnded, List.any_append] at hended
          change (hasEnded before || _) = true at hended
          simpa [hnone] using hended
        obtain ⟨earlier, item, hitems, hend⟩ := getLast_blocksOf runId.uuid.toText (toolInputs (before ++ [event]))
          (blocks runId before) event hterminal
        refine ⟨.runStarted runId.uuid.toText runId.uuid.toText ::
          ((blocks runId before).flatMap Block.items ++ earlier), item, ?_, hend⟩
        rw [agUiEvents_eq, h.blocks_snoc, List.flatMap_append, hitems, List.cons_append, List.append_assoc]
  · rintro before event outcome rfl hpayload hne
    have hblocks : blocks runId (before ++ [event]) = blocks runId before ++
        blocksOf runId.uuid.toText (toolInputs (before ++ [event])) (blocks runId before) event := h.blocks_snoc
    by_cases hreply : lastReply (blocks runId before) = some outcome
    · have hone : blocksOf runId.uuid.toText (toolInputs (before ++ [event])) (blocks runId before) event =
          [.finished runId.uuid.toText] := by
        simp [blocksOf, hpayload, hreply]
      rw [agUiEvents_eq, agUiEvents_eq, hblocks, hone, if_pos hreply, List.flatMap_append, List.append_nil]
      refine ⟨?_, rfl⟩
      rw [← List.cons_append, List.filterMap_append]
      show ((((blocks runId before).flatMap Block.items).filterMap AgUi.text) ++ []).getLast? = some outcome
      rw [List.append_nil]
      exact getLast_text hreply
    · have hboth : blocksOf runId.uuid.toText (toolInputs (before ++ [event])) (blocks runId before) event =
          [.message ("outcome-" ++ runId.uuid.toText) "assistant" outcome, .finished runId.uuid.toText] := by
        simp [blocksOf, hpayload, hreply, hne]
      rw [agUiEvents_eq, agUiEvents_eq, hblocks, hboth, if_neg hreply, List.flatMap_append]
      refine ⟨?_, by simp [Block.items]⟩
      rw [← List.cons_append, List.filterMap_append, List.getLast?_append]
      rfl

/-- A log of these payloads, with event ids of their own. -/
def loggedAs (payloads : List EventPayload) : List Event :=
  payloads.mapIdx fun i payload => Event.record (.plain 1 ⟨8, 8⟩) .agent (Stamp.plain i) payload

/-- A tool call, a reply and an outcome that repeats it. -/
def pinged : List Event :=
  loggedAs [.effectAuthorized (.toolCall "ping" "hi" ⟨7⟩), .toolResult "ping" ⟨7⟩ 1 0 "pong:hi",
    .modelResponded ⟨.assistant, "done"⟩ none, .runCompleted "done"]

theorem traced_pinged : Traced pinged where
  ids := by decide +kernel
  invocations := by decide +kernel
  follows := by
    intro before event after name invocation step attempt output hsplit hpayload
    rcases before with _ | ⟨first, _ | ⟨second, _ | ⟨third, _ | ⟨fourth, before⟩⟩⟩⟩
    · cases hsplit
      cases hpayload
    · cases hsplit
      cases hpayload
      exact ⟨"hi", List.mem_singleton_self _⟩
    · cases hsplit
      cases hpayload
    · cases hsplit
      cases hpayload
    · simp [pinged, loggedAs] at hsplit

theorem ag_ui_renders_pinged : (agUiEvents ⟨1⟩ pinged).countP AgUi.isEnd = 1 ∧
    ((agUiEvents ⟨1⟩ pinged).filterMap AgUi.text).getLast? = some "done" := by
  obtain ⟨hends, -, houtcome⟩ := (ag_ui_renders ⟨1⟩ pinged traced_pinged).2.2 (by decide +kernel)
  refine ⟨hends.trans (by decide +kernel), ?_⟩
  exact (houtcome (pinged.take 3)
    (Event.record (.plain 1 ⟨8, 8⟩) .agent (Stamp.plain 3) (.runCompleted "done")) "done" rfl rfl
    (by decide)).1

/-- A log that completes twice, and one whose outcome is the user's own words. -/
def completedTwice : List Event := loggedAs [.runCompleted "one", .runCompleted "two"]

def echoed : List Event := loggedAs [.userMessage "same", .runCompleted "same"]

theorem traced_completedTwice : Traced completedTwice where
  ids := by decide +kernel
  invocations := by decide +kernel
  follows := by
    intro before event after name invocation step attempt output hsplit hpayload
    rcases before with _ | ⟨first, _ | ⟨second, before⟩⟩
    · cases hsplit
      cases hpayload
    · cases hsplit
      cases hpayload
    · simp [completedTwice, loggedAs] at hsplit

theorem traced_echoed : Traced echoed where
  ids := by decide +kernel
  invocations := by decide +kernel
  follows := by
    intro before event after name invocation step attempt output hsplit hpayload
    rcases before with _ | ⟨first, _ | ⟨second, before⟩⟩
    · cases hsplit
      cases hpayload
    · cases hsplit
      cases hpayload
    · simp [echoed, loggedAs] at hsplit

/-- Two outcomes are shown under one id, and an outcome is shown right after a user's message that says the same. -/
theorem outcome_shown_again :
    (Traced completedTwice ∧
      ((blocks ⟨1⟩ completedTwice).filterMap Block.messageId).count ("outcome-" ++ (1 : Uuid).toText) = 2) ∧
    Traced echoed ∧ (∀ event ∈ echoed.dropLast, isTerminal event.payload = false) ∧
      (agUiEvents ⟨1⟩ echoed).filterMap AgUi.text = ["same", "same"] :=
  ⟨⟨traced_completedTwice, by decide +kernel⟩, traced_echoed, by decide +kernel, by decide +kernel⟩

end Gol
