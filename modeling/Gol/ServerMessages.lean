import Gol.ServerAskLogs
import Gol.ServerMailbox
import Gol.ServerPool
import Gol.ServerWatch

/-! Messages sent again (`deliverer.rs`). A run sends with its decision; when it is resumed it may send again, or send
something else, and each send can stop between any two of its calls. The sends race with each other and with whatever
else the server does. -/

namespace Gol
open Library World

/-! ### What a send does -/

/-- The fields that `put` compares. -/
def StoredMessage.Same (stored message : StoredMessage) : Prop :=
  stored.toAgent = message.toAgent ∧ stored.body = message.body ∧ stored.expectsReply = message.expectsReply ∧
    stored.replyTo = message.replyTo ∧ stored.taskRun = message.taskRun ∧ stored.timeoutSecs = message.timeoutSecs

/-- The message is what `request` sends: a reply expects none and starts no task. -/
structure StoredMessage.Says (message : StoredMessage) (request : MessageRequest) : Prop where
  run : message.fromRun = request.from.runId
  decision : message.decision = request.decision
  agent : message.toAgent = request.toAgent
  body : message.body = request.body
  replyTo : message.replyTo = request.replyTo
  expects : message.expectsReply = (request.limits.isSome && request.expectsReply)
  timeout : message.timeoutSecs = if request.limits.isSome then request.timeoutSecs else none
  task : message.taskRun.isSome = request.limits.isSome

/-- A message stored at the same decision with the same fields is what is sent. -/
theorem StoredMessage.Says.same {stored message : StoredMessage} {request : MessageRequest} (h : message.Says request)
    (hrun : stored.fromRun = message.fromRun) (hdecision : stored.decision = message.decision)
    (hsame : stored.Same message) :
    stored.Says request := by
  obtain ⟨hagent, hbody, hexpects, hreplyTo, htask, htimeout⟩ := hsame
  exact ⟨hrun.trans h.run, hdecision.trans h.decision, hagent.trans h.agent, hbody.trans h.body,
    hreplyTo.trans h.replyTo, hexpects.trans h.expects, htimeout.trans h.timeout, by rw [htask, h.task]⟩

/-- The ask is the one that `request` names, put to the sending run by the agent that it goes to. -/
structure StoredMessage.Asks (ask : StoredMessage) (request : MessageRequest) : Prop where
  expects : ask.expectsReply = true
  task : ask.taskRun = some request.from.runId
  named : request.replyTo = some ask.id
  asker : request.toAgent = ask.fromAgent

/-- The run's log contains the ask. -/
def LogStore.Contains (store : LogStore) (id : RunId) (ask : MessageId) : Prop :=
  ∃ run, store.runs id = some run ∧
    ∃ payload ∈ payloads run.events, ∃ expectsReply, askPut payload = some (ask, expectsReply)

theorem LogStore.Contains.later {store grown : LogStore} {id : RunId} {ask : MessageId} (h : store.Contains id ask)
    (hgrows : store.Grows grown) : grown.Contains id ask := by
  obtain ⟨run, hrun, payload, hmem, hput⟩ := h
  obtain ⟨more, hmore⟩ := hgrows id run hrun
  exact ⟨_, hmore, payload, by rw [payloads_append]; exact List.mem_append_left _ hmem, hput⟩

/-- The batch is the reply `message`, for the log of the run that asked, which contains the ask. -/
structure MessageRequest.Replies (request : MessageRequest) (store : LogStore)
    (message ask : StoredMessage) (id : RunId) (events : List Event) : Prop where
  asks : ask.Asks request
  asker : id = ask.fromRun
  contained : store.Contains id ask.id
  batch : payloads events =
    [.messageReceived message.id request.from.agentId request.from.runId request.body (some ask.id)]

/-- What `request` owes at its calls. Before its message is stored it reads, and puts the message that it says. Then
it starts the task that the message names, or appends the reply that the message is. -/
def MessageRequest.Owes (request : MessageRequest) (store : LogStore) (box : Mailbox) : ServerCall → Prop
  | .outside (.putMessage message) => message.Says request
  | .store (.putRun run _) => ∃ message ∈ box.messages, message.Says request ∧ message.taskRun = some run.spec.runId
  | .store (.appendEvents id events _) => ∃ message ∈ box.messages, message.Says request ∧
      (message.taskRun = some id ∨ ∃ ask ∈ box.messages, request.Replies store message ask id events)
  | .queue _ | .outside (.answer _) => ∃ message ∈ box.messages, message.Says request
  | .store (.run _) | .control (.stopped _) | .outside (.agent _) | .outside (.askOfTask _) | .outside .stamps => True
  | _ => False

/-- The `number`-th send, of `request`. -/
structure Send where
  number : Nat
  request : MessageRequest
  deriving DecidableEq

/-- A call that a send made, with the logs and the messages as they were then. -/
structure Posting where
  send : Send
  call : ServerCall
  store : LogStore
  box : Mailbox

/-- The server, its messages, and the calls that sends made, newest first. -/
structure Mail where
  server : Server
  box : Mailbox
  postings : List Posting

namespace Mail

/-- A call of a send. -/
structure Call (own : Send) (mail : Mail) (c : ServerCall) (answer : c.Answer) (later : Mail) : Prop where
  server : mail.server.Step c answer later.server
  box : mail.box.Step c answer later.box
  postings : later.postings = ⟨own, c, mail.server.store, mail.box⟩ :: mail.postings

/-- Logs, messages and postings are only added to. -/
structure Later (mail later : Mail) : Prop where
  store : mail.server.store.Grows later.server.store
  messages : mail.box.messages <+: later.box.messages
  postings : mail.postings <:+ later.postings

theorem Later.refl (mail : Mail) : mail.Later mail := ⟨.refl _, List.prefix_refl _, List.suffix_refl _⟩

theorem Later.trans {mail mid later : Mail} (h : mail.Later mid) (h' : mid.Later later) : mail.Later later :=
  ⟨h.store.trans h'.store, h.messages.trans h'.messages, h.postings.trans h'.postings⟩

theorem Call.later {own : Send} {mail later : Mail} {c : ServerCall} {answer : c.Answer}
    (h : mail.Call own c answer later) : mail.Later later :=
  ⟨h.server.later.store, h.box.grows, by rw [h.postings]; exact List.suffix_cons _ _⟩

/-- The message that `request` sends is stored, and names the task. -/
def Stores (mail : Mail) (request : MessageRequest) (id : MessageId) (task : Option RunId) : Prop :=
  ∃ message ∈ mail.box.messages, message.id = id ∧ message.Says request ∧ message.taskRun = task

/-- The ask was open when the send looked for its run's. -/
def FoundOpen (mail : Mail) (own : Send) (ask : StoredMessage) : Prop :=
  ∃ posting ∈ mail.postings, posting.send = own ∧ posting.call = .outside (.askOfTask own.request.from.runId) ∧
    posting.box.IsOpen own.request.from.runId ask

/-- The send names an ask that it found open. -/
structure Asked (mail : Mail) (own : Send) (ask : StoredMessage) : Prop where
  stored : ask ∈ mail.box.messages
  asks : ask.Asks own.request
  found : mail.FoundOpen own ask

/-- At its decision another message is stored than the send put. -/
def Differs (mail : Mail) (own : Send) : Prop :=
  ∃ posting ∈ mail.postings, posting.send = own ∧ ∃ message, posting.call = .outside (.putMessage message) ∧
    ∃ stored ∈ mail.box.messages, stored.fromRun = message.fromRun ∧ stored.decision = message.decision ∧
      ¬ stored.Same message

/-- What a send may be told. An accepted message is stored under the id it is told and names the task it is told, and
a reply's ask was found open. A message is refused as another only where another is stored. -/
def Tells (mail : Mail) (own : Send) : Except String SentMessage → Prop
  | .ok sent => mail.Stores own.request sent.messageId (sent.task.map StartedChild.runId) ∧
      (own.request.limits = none → ∃ ask, mail.Asked own ask)
  | .error reason => reason = "another message was sent at this decision" → mail.Differs own

variable {mail after : Mail} {own : Send} {request : MessageRequest} {ask : StoredMessage} {id : MessageId}
  {task : Option RunId}

theorem Stores.later (h : mail.Stores request id task) (hlater : mail.Later after) : after.Stores request id task := by
  obtain ⟨message, hmem, hmessage⟩ := h
  exact ⟨message, hlater.messages.subset hmem, hmessage⟩

theorem FoundOpen.later (h : mail.FoundOpen own ask) (hlater : mail.Later after) : after.FoundOpen own ask := by
  obtain ⟨posting, hmem, hposting⟩ := h
  exact ⟨posting, hlater.postings.subset hmem, hposting⟩

theorem Asked.later (h : mail.Asked own ask) (hlater : mail.Later after) : after.Asked own ask :=
  ⟨hlater.messages.subset h.stored, h.asks, h.found.later hlater⟩

theorem Differs.later (h : mail.Differs own) (hlater : mail.Later after) : after.Differs own := by
  obtain ⟨posting, hposting, hrequest, message, hcall, stored, hstored, hdiffers⟩ := h
  exact ⟨posting, hlater.postings.subset hposting, hrequest, message, hcall, stored,
    hlater.messages.subset hstored, hdiffers⟩

theorem Tells.later {result : Except String SentMessage} (h : mail.Tells own result) (hlater : mail.Later after) :
    after.Tells own result := by
  cases result with
  | ok sent =>
      refine ⟨h.1.later hlater, fun hlimits => ?_⟩
      obtain ⟨ask, hask⟩ := h.2 hlimits
      exact ⟨ask, hask.later hlater⟩
  | error reason => exact fun heq => (h heq).later hlater

end Mail

/-- What a send sees: its own calls, and whatever else happens to the server and its messages. -/
abbrev Sending (own : Send) : World ServerSig where
  State := Mail
  Inv _ := True
  Step := Mail.Call own
  Owes mail := own.request.Owes mail.server.store mail.box
  Others _ := Mail.Later
  others_refl _ := Mail.Later.refl
  others_trans := Mail.Later.trans

/-- The calls that start a task. -/
def StartsTask (task : RunId) : ServerCall → Prop
  | .store (.putRun run _) => run.spec.runId = task
  | .store (.appendEvents id _ _) => id = task
  | .store (.run _) | .queue _ | .outside .stamps => True
  | _ => False

theorem only_endRun_starts (spec : RunSpec) (message : String) : (endRun spec message).Only (StartsTask spec.runId) :=
  ⟨trivial, fun _ => ⟨rfl, fun _ => trivial⟩⟩

theorem only_enqueue_starts (spec : RunSpec) (origin : Origin) :
    (enqueue spec origin .leaveToSweep).Only (StartsTask spec.runId) := by
  refine ⟨trivial, fun stamps => ⟨trivial, fun pended => ?_⟩⟩
  cases pended with
  | error error => trivial
  | ok _ =>
      refine ⟨rfl, fun put => ?_⟩
      rcases put with error | (_ | _)
      · exact (only_endRun_starts spec _).bind fun _ => trivial
      · refine ⟨trivial, fun pushed => ?_⟩
        cases pushed <;> trivial
      · trivial

theorem only_settleExisting_starts (id : RunId) (events : List Event) (task : RunId) :
    (settleExisting id events).Only (StartsTask task) := by
  unfold settleExisting
  split
  · exact ⟨trivial, fun _ => trivial⟩
  · refine ⟨trivial, fun claimed => ?_⟩
    rcases claimed with _ | (_ | _)
    · trivial
    · trivial
    · exact ⟨trivial, fun _ => trivial⟩

namespace Sending

variable {own : Send} {mail : Mail} {α : Type}

/-- What only grows is still there when a send goes on. -/
theorem frame {J : Mail → Prop} (hJ : ∀ mail later, J mail → mail.Later later → J later) {post : Mail → α → Prop}
    {p : Prog ServerSig α} (h : (Sending own).Safe post p mail) (hmail : J mail) :
    (Sending own).Safe (fun later value => post later value ∧ J later) p mail :=
  h.frame (fun _ mail later hmail hlater => hJ mail later hmail hlater)
    (fun mail c answer later hmail (hcall : Mail.Call own mail c answer later) => hJ mail later hmail hcall.later) hmail

/-- A call is owed whenever it is made, and what follows is safe after it. -/
theorem call {c : ServerCall} {next : c.Answer → Prog ServerSig α} {post : Mail → α → Prop}
    (h : ∀ mid, mail.Later mid → own.request.Owes mid.server.store mid.box c ∧
      ∀ answer later, mid.Call own c answer later → (Sending own).Safe post (next answer) later) :
    (Sending own).Safe post (.call c next) mail :=
  fun mid hmid _ => ⟨(h mid hmid).1, fun answer later hcall _ => (h mid hmid).2 answer later hcall⟩

/-- The calls that start the task that a stored message names are owed. -/
theorem starts {id : MessageId} {task : RunId} (hmail : mail.Stores own.request id (some task)) {p : Prog ServerSig α}
    (h : p.Only (StartsTask task)) :
    (Sending own).Safe (fun later _ => later.Stores own.request id (some task)) p mail := by
  refine World.safe_of_only (fun _ mail later hmail hlater _ => Mail.Stores.later hmail hlater)
    (fun mail c hmail _ hc => ?_) h hmail
  refine ⟨?_, fun answer later hcall _ => Mail.Stores.later hmail (Mail.Call.later hcall)⟩
  obtain ⟨message, hmem, -, hsaid, htask⟩ : mail.Stores own.request id (some task) := hmail
  unfold StartsTask at hc
  split at hc
  · subst hc
    exact ⟨message, hmem, hsaid, htask⟩
  · subst hc
    exact ⟨message, hmem, hsaid, .inl htask⟩
  · trivial
  · exact ⟨message, hmem, hsaid⟩
  · trivial
  · exact hc.elim

/-! ### What a send is told -/

theorem childSpec_tells (v5 : ChildName → Uuid) (child : ChildRequest) :
    (Sending own).Safe (fun _ result => result ≠ .error "another message was sent at this decision")
      (childSpec v5 child) mail := by
  have hagent : ∀ mid : Mail, (Sending own).Safe
    (fun _ result => result ≠ .error "another message was sent at this decision")
      (childOfAgent v5 child) mid := by
    intro mid
    refine call fun _ _ => ⟨trivial, fun found _ _ => ?_⟩
    rcases found with error | (_ | agent)
    · exact fun h => absurd (Except.error.inj h) (by decide)
    · exact fun h => absurd (Except.error.inj h) (by decide)
    · dsimp only
      split
      · exact fun h => absurd (Except.error.inj h) (by decide)
      · exact fun h => by cases h
  refine call fun _ _ => ⟨trivial, fun stopped later _ => ?_⟩
  rcases stopped with _ | (error | (_ | _))
  · exact hagent later
  · exact fun h => absurd (Except.error.inj h) (by decide)
  · exact hagent later
  · exact fun h => absurd (Except.error.inj h) (by decide)

/-- `put` gives the id under which the message is stored, or refuses it because another is. -/
theorem putMessage_tells {message : StoredMessage} (h : message.Says own.request) :
    (Sending own).Safe (fun later result => (∀ id, result = .ok id → later.Stores own.request id message.taskRun) ∧
      (result = .error "another message was sent at this decision" → later.Differs own)) (putMessage message) mail := by
  refine call fun mid _ => ⟨h, fun found later hcall => ?_⟩
  have hbox : mid.box.Step (.outside (.putMessage message)) found later.box := hcall.box
  obtain ⟨-, hput, -⟩ := hbox
  rcases hput with ⟨rfl, hlater⟩ | ⟨⟨error, rfl⟩, -⟩
  · unfold MessageStore.putMessage at hlater ⊢
    cases hfind : mid.box.messages.find? fun stored => stored.fromRun = message.fromRun ∧
      stored.decision = message.decision with
    | none =>
        rw [hfind] at hlater
        refine ⟨fun id hid => ?_, fun hrefused => by cases hrefused⟩
        cases hid
        exact ⟨message, hlater ▸ List.mem_append_right _ (List.mem_singleton_self _), rfl, h, rfl⟩
    | some stored =>
        rw [hfind] at hlater
        have hfound := List.find?_some hfind
        obtain ⟨hrun, hdecision⟩ := of_decide_eq_true hfound
        have hmem : stored ∈ later.box.messages := hlater ▸ List.mem_of_find?_eq_some hfind
        dsimp only
        split
        · next hsame =>
            refine ⟨fun id hid => ?_, fun hrefused => by cases hrefused⟩
            cases hid
            exact ⟨stored, hmem, rfl, h.same hrun hdecision hsame, hsame.2.2.2.2.1⟩
        · next hdiffers =>
            refine ⟨fun id hid => (by cases hid), fun _ => ?_⟩
            have hposting : _ ∈ later.postings := hcall.postings ▸ List.mem_cons_self
            exact ⟨_, hposting, rfl, message, rfl, stored, hmem, hrun, hdecision, hdiffers⟩
  · exact ⟨fun id hid => (by cases hid), fun hrefused => absurd (Except.error.inj hrefused) (by decide)⟩

theorem enqueueChild_tells {id : MessageId} {spec : RunSpec} (hmail : mail.Stores own.request id (some spec.runId))
    (asked : List Event) :
    (Sending own).Safe (fun _ result => result ≠ .error "another message was sent at this decision" ∧
      ∀ child, result = .ok child → child.runId = spec.runId) (enqueueChild spec asked) mail := by
  refine World.Safe.bind ((starts hmail (only_enqueue_starts spec _)).mono fun later put hlater => ?_)
  rcases put with error | (_ | _)
  · have hreason : error.reason ≠ "another message was sent at this decision" := by
      cases error <;> simp [EnqueueError.reason]
    exact ⟨fun h => hreason (Except.error.inj h), fun child h => by cases h⟩
  · exact ⟨fun h => (by cases h), fun child h => by cases h; rfl⟩
  · refine call fun _ hmid => ⟨trivial, fun loaded after hcall => ?_⟩
    have hafter := (Mail.Stores.later hlater hmid).later hcall.later
    rcases loaded with error | (_ | child)
    · exact ⟨fun h => absurd (Except.error.inj h) (by decide), fun child h => by cases h⟩
    · exact ⟨fun h => absurd (Except.error.inj h) (by decide), fun child h => by cases h⟩
    · dsimp only
      split
      · refine call fun last hlast => ⟨?_, fun _ _ _ => ?_⟩
        · obtain ⟨message, hmem, -, hsaid, -⟩ := hafter.later hlast
          exact ⟨message, hmem, hsaid⟩
        · exact ⟨fun h => absurd (Except.error.inj h) (by decide), fun child h => by cases h⟩
      · refine World.Safe.bind ((starts hafter (only_settleExisting_starts _ _ _)).mono fun _ _ _ => ?_)
        exact ⟨fun h => (by cases h), fun child h => by cases h; rfl⟩

/-- A reply is appended where the ask is open in the log that was read. -/
theorem deliver_safe {message : StoredMessage} (hsaid : message.Says own.request)
    (hstored : message ∈ mail.box.messages) (hasked : mail.Asked own ask) :
    (Sending own).Safe (fun _ _ => True) (deliver ask.fromRun ask.id
      (.messageReceived message.id own.request.from.agentId own.request.from.runId own.request.body (some ask.id))
        .leave) mail := by
  have hsettles : ∀ later, mail.Later later →
      (Sending own).Safe (fun _ _ => True) (settleAsk ask.fromRun ask.id) later := by
    intro later hlater
    refine call fun mid hmid => ⟨⟨message, (hlater.trans hmid).messages.subset hstored, hsaid⟩, fun _ after hcall => ?_⟩
    refine call fun last hlast => ⟨⟨message, ?_, hsaid⟩, fun _ _ _ => trivial⟩
    exact (((hlater.trans hmid).trans hcall.later).trans hlast).messages.subset hstored
  refine call fun mid hmid => ⟨trivial, fun loaded later hcall => ?_⟩
  have hlater := hmid.trans hcall.later
  rcases loaded with error | (_ | run)
  · trivial
  · exact hsettles later hlater
  · dsimp only
    split
    · exact hsettles later hlater
    cases hstate : askState run.events ask.id with
    | unsent => trivial
    | answered => exact hsettles later hlater
    | «open» =>
        have hrun : mid.server.store.runs ask.fromRun = some run := by
          obtain ⟨now, -, hanswers, -⟩ := hcall.server.answers (by rintro ⟨⟩)
          exact (Except.ok.inj hanswers.store_eq).symm
        have hcontains : mid.server.store.Contains ask.fromRun ask.id :=
          ⟨run, hrun, put_of_askState (by rw [hstate]; exact fun h => by cases h)⟩
        refine call fun drawn hdrawn => ⟨trivial, fun stamps drew hdrew => ?_⟩
        refine call fun last hlast => ⟨?_, fun appended after happend => ?_⟩
        · have hmore := (hcall.later.trans hdrawn).trans (hdrew.later.trans hlast)
          have hasked' := hasked.later (hmid.trans hmore)
          exact ⟨message, (hmid.trans hmore).messages.subset hstored, hsaid, .inr ⟨ask, hasked'.stored,
            ⟨hasked.asks, rfl, hcontains.later hmore.store, rfl⟩⟩⟩
        · have hafter := ((hlater.trans hdrawn).trans (hdrew.later.trans hlast)).trans happend.later
          rcases appended with error | (_ | _ | _ | _)
          · trivial
          · exact hsettles after hafter
          · exact hsettles after hafter
          · exact hsettles after hafter
          · trivial

theorem reply_tells (hlimits : own.request.limits = none) :
    (Sending own).Safe (fun later result => later.Tells own result) (reply own.request) mail := by
  refine call fun mid _ => ⟨trivial, fun found later hcall => ?_⟩
  rcases found with error | (_ | ask)
  · exact fun h => absurd h (by decide)
  · exact fun h => absurd h (by decide)
  · dsimp only
    split
    · exact fun h => absurd h (by decide)
    next hnamed =>
      obtain ⟨hnamed, hasker⟩ := not_or.mp hnamed
      have hbox : mid.box.Step (.outside (.askOfTask own.request.from.runId)) (.ok (some ask)) later.box := hcall.box
      obtain ⟨hsame, ⟨error, h⟩ | ⟨h, -⟩ | ⟨other, h, hopen⟩⟩ := hbox
      · cases h
      · cases h
      cases h
      have hasks : ask.Asks own.request :=
        ⟨hopen.expects, hopen.task, (not_not.mp hnamed).symm, (not_not.mp hasker).symm⟩
      have hposting : _ ∈ later.postings := hcall.postings ▸ List.mem_cons_self
      have hasked : later.Asked own ask := ⟨hsame ▸ hopen.stored, hasks, ⟨_, hposting, rfl, rfl, hopen⟩⟩
      refine call fun drawn hdrawn => ⟨trivial, fun stamps drew hdrew => ?_⟩
      have hdrew := hasked.later (hdrawn.trans hdrew.later)
      refine World.Safe.bind ((frame (J := fun mail => mail.Asked own ask) (fun _ _ => Mail.Asked.later)
        (putMessage_tells ?_) hdrew).mono fun put result hresult => ?_)
      · exact ⟨rfl, rfl, hasks.asker.symm, rfl, hasks.named.symm, by rw [hlimits]; rfl, by rw [hlimits]; rfl, by
          rw [hlimits]; rfl⟩
      obtain ⟨⟨hstored, hdiffers⟩, hput⟩ := hresult
      cases result with
      | error reason => exact fun h => hdiffers (by rw [h])
      | ok id =>
          obtain ⟨message, hmem, rfl, hsaid, htask⟩ := hstored id rfl
          refine World.Safe.bind ((frame (J := fun mail => mail.Stores own.request message.id none ∧ mail.Asked own ask)
            (fun _ _ h hlater => ⟨h.1.later hlater, h.2.later hlater⟩) (deliver_safe hsaid hmem hput)
            ⟨⟨message, hmem, rfl, hsaid, htask⟩, hput⟩).mono fun last delivered hlast => ?_)
          obtain ⟨-, hmessage, hask⟩ := hlast
          rcases delivered with error | (_ | _)
          · exact fun h => absurd h (by decide)
          · exact fun h => absurd h (by decide)
          · exact ⟨hmessage, fun _ => ⟨ask, hask⟩⟩

/-- What a send is told is so. -/
theorem send_tells (v5 : ChildName → Uuid) (own : Send) (asked : List Event) (mail : Mail) :
    (Sending own).Safe (fun later result => later.Tells own result) (send v5 own.request asked) mail := by
  unfold send
  cases hlimits : own.request.limits with
  | none => exact reply_tells hlimits
  | some limits =>
      dsimp only
      split
      · exact fun h => absurd h (by decide +kernel)
      refine World.Safe.bind ((childSpec_tells v5 _).mono fun later found hfound => ?_)
      cases found with
      | error reason => exact fun h => absurd (by rw [h]) hfound
      | ok task =>
          refine call fun mid _ => ⟨trivial, fun stamps drew _ => ?_⟩
          refine World.Safe.bind ((putMessage_tells ?_).mono fun put result hresult => ?_)
          · exact ⟨rfl, rfl, rfl, rfl, rfl, by rw [hlimits]; rfl, by rw [hlimits]; rfl, by rw [hlimits]; rfl⟩
          cases result with
          | error reason => exact fun h => hresult.2 (by rw [h])
          | ok id =>
              have hstored := hresult.1 id rfl
              refine World.Safe.bind ((frame (J := fun mail => mail.Stores own.request id (some task.runId))
                (fun _ _ => Mail.Stores.later) (enqueueChild_tells hstored asked) hstored).mono
                  fun last started hlast => ?_)
              obtain ⟨⟨hrefused, hchild⟩, hmessage⟩ := hlast
              cases started with
              | error reason => exact fun h => absurd (by rw [h]) hrefused
              | ok child =>
                  refine ⟨?_, fun hnone => absurd hnone (by rw [hlimits]; exact Option.some_ne_none _)⟩
                  rw [Option.map_some, hchild child rfl]
                  exact hmessage

end Sending

/-! ### Sends under way -/

/-- A send under way. -/
structure Sender where
  send : Send
  rest : Prog ServerSig (Except String SentMessage)

/-- The sends of runs and of their resumed deliveries: how many began, those under way, and what each that returned
was told. -/
structure Sends where
  mail : Mail
  begun : Nat
  senders : List Sender
  told : List (Send × Except String SentMessage)

namespace Sends

def empty : Sends := ⟨⟨.empty, ⟨[], []⟩, []⟩, 0, [], []⟩

/-- A send starts, makes a call, returns, or is gone with its worker. Meanwhile others make any call. -/
inductive Step (v5 : ChildName → Uuid) : Sends → Sends → Prop
  | send (sends : Sends) (request : MessageRequest) (asked : List Event) :
      Step v5 sends { sends with
        begun := sends.begun + 1
        senders := ⟨⟨sends.begun, request⟩, send v5 request asked⟩ :: sends.senders }
  | call {mail later : Mail} {own : Send} {c : ServerCall} {answer : c.Answer} (begun : Nat)
      (before after : List Sender)
      (next : c.Answer → Prog ServerSig (Except String SentMessage)) (told : List (Send × Except String SentMessage))
      (h : mail.Call own c answer later) :
      Step v5 ⟨mail, begun, before ++ ⟨own, .call c next⟩ :: after, told⟩
        ⟨later, begun, before ++ ⟨own, next answer⟩ :: after, told⟩
  | returned (mail : Mail) (begun : Nat) (before after : List Sender) (own : Send) (result : Except String SentMessage)
      (told : List (Send × Except String SentMessage)) :
      Step v5 ⟨mail, begun, before ++ ⟨own, .ret result⟩ :: after, told⟩
        ⟨mail, begun, before ++ after, (own, result) :: told⟩
  | crash (mail : Mail) (begun : Nat) (before after : List Sender) (sender : Sender)
      (told : List (Send × Except String SentMessage)) :
      Step v5 ⟨mail, begun, before ++ sender :: after, told⟩ ⟨mail, begun, before ++ after, told⟩
  | other {sends : Sends} {server : Server} {box : Mailbox} {c : ServerCall} {answer : c.Answer}
      (hserver : sends.mail.server.Step c answer server) (hbox : sends.mail.box.Step c answer box) :
      Step v5 sends { sends with mail := ⟨server, box, sends.mail.postings⟩ }
  | tick (sends : Sends) (ms : Nat) :
      Step v5 sends { sends with
        mail := ⟨{ sends.mail.server with now := sends.mail.server.now + ms }, sends.mail.box, sends.mail.postings⟩ }
  | expire (sends : Sends) (run : RunId) :
      Step v5 sends { sends with
        mail := ⟨{ sends.mail.server with queue := sends.mail.server.queue.expire run }, sends.mail.box,
          sends.mail.postings⟩ }

inductive Reach (v5 : ChildName → Uuid) : Sends → Prop
  | start : Reach v5 empty
  | step {sends later : Sends} (before : Reach v5 sends) (h : sends.Step v5 later) : Reach v5 later

/-- What every step keeps: messages are stored once, each call was owed, each send is safe, and what was told is so. -/
structure Sound (sends : Sends) : Prop where
  once : sends.mail.box.messages.Once
  owed : ∀ posting ∈ sends.mail.postings, posting.send.request.Owes posting.store posting.box posting.call
  past : ∀ posting ∈ sends.mail.postings, posting.box.messages <+: sends.mail.box.messages
  safe : ∀ sender ∈ sends.senders,
    (Sending sender.send).Safe (fun later result => later.Tells sender.send result) sender.rest sends.mail
  told : ∀ told ∈ sends.told, sends.mail.Tells told.1 told.2

variable {v5 : ChildName → Uuid} {sends : Sends}

theorem sound_empty : Sound empty :=
  ⟨fun _ h => (by cases h), fun _ h => (by cases h), fun _ h => (by cases h), fun _ h => (by cases h),
    fun _ h => (by cases h)⟩

/-- A call of the server keeps what was so, with the postings that it adds. -/
theorem Sound.later (h : Sound sends) {later : Mail} (hlater : sends.mail.Later later) (honce : later.box.messages.Once)
    (hposted : ∀ posting ∈ later.postings, posting ∈ sends.mail.postings ∨
      posting.send.request.Owes posting.store posting.box posting.call ∧ posting.box = sends.mail.box) :
    Sound { sends with mail := later } where
  once := honce
  owed posting hmem := (hposted posting hmem).elim (h.owed posting) And.left
  past posting hmem := by
    rcases hposted posting hmem with hold | ⟨-, hbox⟩
    · exact (h.past posting hold).trans hlater.messages
    · exact hbox ▸ hlater.messages
  safe sender hmem := (h.safe sender hmem).kept (fun _ => hlater) fun _ htells => Mail.Tells.later htells hlater
  told told hmem := (h.told told hmem).later hlater

theorem Sound.step {later : Sends} (h : Sound sends) (hstep : sends.Step v5 later) : Sound later := by
  cases hstep with
  | send _ request asked =>
      refine ⟨h.once, h.owed, h.past, fun sender hmem => ?_, h.told⟩
      rcases List.mem_cons.mp hmem with rfl | hmem
      · exact Sending.send_tells v5 ⟨sends.begun, request⟩ asked sends.mail
      · exact h.safe sender hmem
  | @call mail later own c answer begun before after next told hcall =>
      have hsafe := h.safe ⟨own, .call c next⟩ (List.mem_append_right _ List.mem_cons_self)
      obtain ⟨howes, hnext⟩ := hsafe mail (.refl mail) trivial
      have hsound := h.later hcall.later (hcall.box.once h.once) fun posting hmem => by
        rw [hcall.postings] at hmem
        rcases List.mem_cons.mp hmem with rfl | hmem
        · exact .inr ⟨howes, rfl⟩
        · exact .inl hmem
      refine ⟨hsound.once, hsound.owed, hsound.past, fun sender hmem => ?_, hsound.told⟩
      rcases List.mem_append.mp hmem with hbefore | hrest
      · exact hsound.safe sender (List.mem_append_left _ hbefore)
      · rcases List.mem_cons.mp hrest with rfl | hafter
        · exact hnext answer later hcall trivial
        · exact hsound.safe sender (List.mem_append_right _ (List.mem_cons_of_mem _ hafter))
  | returned mail begun before after own result told =>
      have hresult := h.safe ⟨own, .ret result⟩ (List.mem_append_right _ List.mem_cons_self)
      refine ⟨h.once, h.owed, h.past, fun sender hmem => h.safe sender ?_, fun told hmem => ?_⟩
      · rcases List.mem_append.mp hmem with hbefore | hafter
        · exact List.mem_append_left _ hbefore
        · exact List.mem_append_right _ (List.mem_cons_of_mem _ hafter)
      · rcases List.mem_cons.mp hmem with rfl | hmem
        · exact hresult
        · exact h.told told hmem
  | crash mail begun before after sender told =>
      refine ⟨h.once, h.owed, h.past, fun other hmem => h.safe other ?_, h.told⟩
      rcases List.mem_append.mp hmem with hbefore | hafter
      · exact List.mem_append_left _ hbefore
      · exact List.mem_append_right _ (List.mem_cons_of_mem _ hafter)
  | other hserver hbox =>
      exact h.later ⟨hserver.later.store, hbox.grows, List.suffix_refl _⟩ (hbox.once h.once)
        fun posting hmem => .inl hmem
  | tick ms => exact h.later ⟨.refl _, List.prefix_refl _, List.suffix_refl _⟩ h.once fun posting hmem => .inl hmem
  | expire run => exact h.later ⟨.refl _, List.prefix_refl _, List.suffix_refl _⟩ h.once fun posting hmem => .inl hmem

theorem Reach.sound (h : Reach v5 sends) : Sound sends := by
  induction h with
  | start => exact sound_empty
  | step _ hstep ih => exact ih.step hstep

/-- Two messages that say what is sent with one decision are one. -/
theorem Sound.unique (h : Sound sends) {request : MessageRequest} {message stored : StoredMessage}
    (hmessage : message ∈ sends.mail.box.messages) (hsaid : message.Says request)
    (hstored : stored ∈ sends.mail.box.messages) (hrun : stored.fromRun = request.from.runId)
    (hdecision : stored.decision = request.decision) : message = stored :=
  h.once message hmessage stored hstored (hsaid.run.trans hrun.symm) (hsaid.decision.trans hdecision.symm)

/-! ### Schedules -/

/-- One move of a schedule: of the newest send, or of others. -/
inductive Turn where
  | send (request : MessageRequest)
  | call
  | returned
  | crash
  | other (c : ServerCall)

/-- Whether a message's id is one that no stored message has. -/
def isNew (box : Mailbox) : ServerCall → Bool
  | .outside (.putMessage message) => box.messages.all fun stored => decide (stored.id ≠ message.id)
  | _ => true

/-- The answer of a call that takes effect, where one agent is stored and each draw gives new ids, and the messages
after it. -/
def answered (agent : StoredAgent) (mail : Mail) : (c : ServerCall) → c.Answer × Mailbox
  | .outside (.putMessage message) =>
      (.ok (mail.box.messages.putMessage message).1,
        { mail.box with messages := (mail.box.messages.putMessage message).2 })
  | .outside (.message id) => (.ok (mail.box.messages.find? fun stored => stored.id = id), mail.box)
  | .outside (.askOfTask task) =>
      (.ok (mail.box.messages.find? fun ask =>
        ask.id ∉ mail.box.answered ∧ ask.expectsReply = true ∧ ask.taskRun = some task), mail.box)
  | .outside (.answer ask) => (.ok (mail.box.answer ask).1, (mail.box.answer ask).2)
  | .outside (.agent _) => (.ok (some agent), mail.box)
  | .outside .stamps => (fun position => Stamp.plain (8 * mail.postings.length + position), mail.box)
  | c => (Pool.reply mail.server (quiet (.complete "done")) (.error "") c, mail.box)

theorem answered_step (agent : StoredAgent) (mail : Mail) {c : ServerCall} (hfresh : mail.server.Fresh c)
    (hnew : isNew mail.box c = true) :
    mail.server.Step c (answered agent mail c).1 ((mail.server.after 0 c).record ⟨c, (answered agent mail c).1, true⟩) ∧
      mail.box.Step c (answered agent mail c).1 (answered agent mail c).2 := by
  cases c with
  | outside c =>
      refine ⟨.done 0 hfresh (.outside c _), ?_⟩
      cases c with
      | putMessage message =>
          refine ⟨fun stored hmem => of_decide_eq_true (List.all_eq_true.mp hnew stored hmem), .inl ⟨rfl, rfl⟩, rfl⟩
      | message id => exact ⟨rfl, .inr rfl⟩
      | answer ask => exact .inl ⟨rfl, rfl⟩
      | askOfTask task =>
          refine ⟨rfl, .inr ?_⟩
          rw [answered]
          generalize hfind : mail.box.messages.find? _ = found
          cases found with
          | none =>
              refine .inl ⟨rfl, fun ask hopen => ?_⟩
              have hclosed := List.find?_eq_none.mp hfind ask hopen.stored
              exact hclosed (decide_eq_true ⟨hopen.unanswered, hopen.expects, hopen.task⟩)
          | some ask =>
              have hfound := List.find?_some hfind
              obtain ⟨hunanswered, hexpects, htask⟩ := of_decide_eq_true hfound
              exact .inr ⟨ask, rfl, List.mem_of_find?_eq_some hfind, hunanswered, hexpects, htask⟩
      | _ => rfl
  | _ => exact ⟨.done 0 hfresh (Pool.answers_reply mail.server (quiet (.complete "done")) (.error "") _), rfl⟩

def turn (v5 : ChildName → Uuid) (agent : StoredAgent) (sends : Sends) : Turn → Option Sends
  | .send request =>
      some { sends with
        begun := sends.begun + 1
        senders := ⟨⟨sends.begun, request⟩, Gol.send v5 request []⟩ :: sends.senders }
  | .call =>
      match sends.senders with
      | ⟨own, .call c next⟩ :: after =>
          if sends.mail.server.Fresh c ∧ isNew sends.mail.box c = true then
            let answer := answered agent sends.mail c
            some ⟨⟨(sends.mail.server.after 0 c).record ⟨c, answer.1, true⟩, answer.2,
              ⟨own, c, sends.mail.server.store, sends.mail.box⟩ :: sends.mail.postings⟩,
              sends.begun, ⟨own, next answer.1⟩ :: after, sends.told⟩
          else none
      | _ => none
  | .returned =>
      match sends.senders with
      | ⟨own, .ret result⟩ :: after => some ⟨sends.mail, sends.begun, after, (own, result) :: sends.told⟩
      | _ => none
  | .crash => some { sends with senders := sends.senders.tail }
  | .other c =>
      if sends.mail.server.Fresh c ∧ isNew sends.mail.box c = true then
        let answer := answered agent sends.mail c
        some { sends with
          mail := ⟨(sends.mail.server.after 0 c).record ⟨c, answer.1, true⟩, answer.2, sends.mail.postings⟩ }
      else none

/-- A schedule's moves are steps. -/
theorem turn_reach {v5 : ChildName → Uuid} {agent : StoredAgent} {sends later : Sends} {t : Turn} (h : sends.Reach v5)
    (hturn : sends.turn v5 agent t = some later) : later.Reach v5 := by
  obtain ⟨mail, begun, senders, told⟩ := sends
  cases t with
  | send request =>
      cases hturn
      exact h.step (.send _ request [])
  | call =>
      simp only [turn] at hturn
      split at hturn
      · split at hturn
        · next own c next after hok =>
            cases hturn
            obtain ⟨hserver, hbox⟩ := answered_step agent mail hok.1 hok.2
            exact h.step (.call begun [] after next told ⟨hserver, hbox, rfl⟩)
        · cases hturn
      · cases hturn
  | returned =>
      simp only [turn] at hturn
      split at hturn
      · next own result after =>
          cases hturn
          exact h.step (.returned mail begun [] after own result told)
      · cases hturn
  | crash =>
      cases hturn
      cases senders with
      | nil => exact h
      | cons sender after => exact h.step (.crash mail begun [] after sender told)
  | other c =>
      simp only [turn] at hturn
      split at hturn
      · next hok =>
          cases hturn
          obtain ⟨hserver, hbox⟩ := answered_step agent mail hok.1 hok.2
          exact h.step (.other hserver hbox)
      · cases hturn

theorem play_reach {v5 : ChildName → Uuid} {agent : StoredAgent} {turns : List Turn}
    {sends later : Sends} (h : sends.Reach v5) (hplay : turns.foldlM (turn v5 agent) sends = some later) :
    later.Reach v5 := by
  induction turns generalizing sends with
  | nil =>
      cases hplay
      exact h
  | cons t rest ih =>
      rw [List.foldlM_cons] at hplay
      obtain ⟨mid, hmid, hrest⟩ := Option.bind_eq_some_iff.mp hplay
      exact ih (turn_reach h hmid) hrest

end Sends

/-- A call that only reads, or puts a message: what a send does before its message is stored. -/
def IsPreparing : ServerCall → Prop
  | .store (.run _) | .control (.stopped _) | .outside (.agent _) | .outside (.askOfTask _) | .outside .stamps
  | .outside (.putMessage _) => True
  | _ => False

/-- A call that is owed once the message is stored, or before. -/
theorem MessageRequest.Owes.preparing {request : MessageRequest} {store : LogStore} {box : Mailbox} {c : ServerCall}
    (h : request.Owes store box c) : IsPreparing c ∨ ∃ message ∈ box.messages, message.Says request := by
  unfold MessageRequest.Owes at h
  split at h
  · exact .inl trivial
  · obtain ⟨message, hmem, hsaid, -⟩ := h
    exact .inr ⟨message, hmem, hsaid⟩
  · obtain ⟨message, hmem, hsaid, -⟩ := h
    exact .inr ⟨message, hmem, hsaid⟩
  · exact .inr h
  · exact .inr h
  · exact .inl trivial
  · exact .inl trivial
  · exact .inl trivial
  · exact .inl trivial
  · exact .inl trivial
  · exact h.elim

/-- Whatever runs send and resend, wherever they crash, and whatever else happens: one message is stored for a run's
decision; a send that is accepted is told the id and the task of that message, and one is refused as another only
where another is stored; a send of another message is refused, and starts and stores nothing; a task is stored after
the message that names it; and a reply is accepted only from the task of the open ask that it names, to the agent that
asked, and appended only to the asker's log, which contains the ask. -/
theorem messages_sent_once (v5 : ChildName → Uuid) {sends : Sends} (h : sends.Reach v5) :
    sends.mail.box.messages.Once ∧
    (∀ own sent, (own, .ok sent) ∈ sends.told → ∀ stored ∈ sends.mail.box.messages,
      stored.fromRun = own.request.from.runId → stored.decision = own.request.decision →
      sent.messageId = stored.id ∧ sent.task.map StartedChild.runId = stored.taskRun) ∧
    (∀ own sent, (own, .ok sent) ∈ sends.told → ∃ stored ∈ sends.mail.box.messages, stored.Says own.request) ∧
    (∀ own, (own, .error "another message was sent at this decision") ∈ sends.told → sends.mail.Differs own) ∧
    (∀ request, ∀ stored ∈ sends.mail.box.messages, stored.fromRun = request.from.runId →
      stored.decision = request.decision →
      ¬ stored.Says request → (∀ own sent, own.request = request → (own, .ok sent) ∉ sends.told) ∧
        (∀ message ∈ sends.mail.box.messages, ¬ message.Says request) ∧
        ∀ posting ∈ sends.mail.postings, posting.send.request = request → IsPreparing posting.call) ∧
    (∀ posting ∈ sends.mail.postings, ∀ run origin, posting.call = .store (.putRun run origin) →
      ∃ message ∈ posting.box.messages, message.Says posting.send.request ∧ message.taskRun = some run.spec.runId) ∧
    (∀ own sent, (own, .ok sent) ∈ sends.told → own.request.limits = none → ∃ ask, sends.mail.Asked own ask) ∧
    ∀ posting ∈ sends.mail.postings, posting.send.request.limits = none → ∀ id events party,
      posting.call = .store (.appendEvents id events party) →
      ∃ message ∈ posting.box.messages, message.Says posting.send.request ∧
        ∃ ask ∈ posting.box.messages, posting.send.request.Replies posting.store message ask id events := by
  have hsound := h.sound
  refine ⟨hsound.once, fun own sent hsent stored hstored hrun hdecision => ?_, fun own sent hsent => ?_,
    fun own hrefused => hsound.told _ hrefused rfl, fun request stored hstored hrun hdecision hother => ?_,
    fun posting hposting run origin hcall => ?_, fun own sent hsent hlimits => (hsound.told _ hsent).2 hlimits,
    fun posting hposting hlimits id events party hcall => ?_⟩
  · obtain ⟨message, hmem, hid, hsaid, htask⟩ := (hsound.told _ hsent).1
    obtain rfl := hsound.unique hmem hsaid hstored hrun hdecision
    exact ⟨hid.symm, htask.symm⟩
  · obtain ⟨message, hmem, -, hsaid, -⟩ := (hsound.told _ hsent).1
    exact ⟨message, hmem, hsaid⟩
  · have hnone : ∀ message ∈ sends.mail.box.messages, ¬ message.Says request := fun message hmem hsaid =>
      hother (hsound.unique hmem hsaid hstored hrun hdecision ▸ hsaid)
    refine ⟨fun own sent hown hsent => ?_, hnone, fun posting hposting hrequest => ?_⟩
    · obtain ⟨message, hmem, -, hsaid, -⟩ := (hsound.told _ hsent).1
      exact hnone message hmem (hown ▸ hsaid)
    · rcases (hsound.owed posting hposting).preparing with hpreparing | ⟨message, hmem, hsaid⟩
      · exact hpreparing
      · exact absurd (hrequest ▸ hsaid) (hnone message ((hsound.past posting hposting).subset hmem))
  · have howes := hsound.owed posting hposting
    rw [hcall] at howes
    exact howes
  · have howes := hsound.owed posting hposting
    rw [hcall] at howes
    obtain ⟨message, hmem, hsaid, htask | hreplies⟩ := howes
    · have hsome := hsaid.task
      rw [htask, hlimits] at hsome
      cases hsome
    · exact ⟨message, hmem, hsaid, hreplies⟩

/-- The agent that is asked. -/
def askedAgent : StoredAgent := ⟨⟨⟨2⟩, "1", "writer", "", [], []⟩, (RunSpec.plain 1 ⟨8, 8⟩).owner⟩

/-- The first run asks the writer. -/
def asking : MessageRequest := ⟨RunSpec.plain 1 ⟨8, 8⟩, 1, ⟨2⟩, "what is the plan?", true, none, some 60, some ⟨2, 2⟩⟩

/-- The task that it starts. -/
def askedTask : RunSpec :=
  childOf (fun _ => 7) ⟨asking.from, taskStep asking.decision, asking.toAgent, asking.body, ⟨2, 2⟩⟩ askedAgent.manifest

/-- The ask's id, by when it is drawn. -/
def askedId : MessageId := ⟨16⟩

/-- The task's reply. -/
def replying : MessageRequest := ⟨askedTask, 1, ⟨1⟩, "the plan", false, some askedId, none, none⟩

/-- The first run, once it has stored that it asked. -/
def askedRun : StoredRun :=
  ⟨asking.from, queuedEvents asking.from Stamp.plain ++
    [systemEvent asking.from (Stamp.plain 3) (.messageSent askedId ⟨2⟩ true)]⟩

/-- The ask is sent and logged; then the task replies, and replies again. -/
def repliedTwice : List Sends.Turn :=
  .send asking :: List.replicate 8 .call ++ .returned :: .other (.store (.putRun askedRun .request)) ::
    .send replying :: List.replicate 8 .call ++ .returned :: .send replying :: .call :: [.returned]

theorem repliedTwice_told : (repliedTwice.foldlM (Sends.turn (fun _ => 7) askedAgent) .empty).map Sends.told =
    some [(⟨2, replying⟩, .error "not a reply to an ask this run was sent"), (⟨1, replying⟩, .ok ⟨⟨72⟩, none⟩),
      (⟨0, asking⟩, .ok ⟨askedId, some ⟨askedTask.runId, ⟨2, 2⟩⟩⟩)] := by
  decide +kernel

/-- A reply that is sent again once it was delivered is refused. -/
theorem resent_reply_is_refused : ∃ sends : Sends, sends.Reach (fun _ => 7) ∧ ∃ sent earlier,
    sends.told =
      (⟨2, replying⟩, .error "not a reply to an ask this run was sent") :: (⟨1, replying⟩, .ok sent) :: earlier := by
  obtain ⟨sends, hplay, htold⟩ := Option.map_eq_some_iff.mp repliedTwice_told
  exact ⟨sends, Sends.play_reach .start hplay, _, _, htold⟩

theorem messages_sent_once_replied : ∃ sends : Sends, sends.Reach (fun _ => 7) ∧
    ∃ sent, (⟨1, replying⟩, .ok sent) ∈ sends.told ∧ ∃ ask, sends.mail.Asked ⟨1, replying⟩ ask := by
  obtain ⟨sends, hplay, htold⟩ := Option.map_eq_some_iff.mp repliedTwice_told
  have hreach := Sends.play_reach .start hplay
  have hsent : (⟨1, replying⟩, .ok ⟨⟨72⟩, none⟩) ∈ sends.told := by
    rw [htold]
    exact List.mem_cons_of_mem _ List.mem_cons_self
  obtain ⟨-, -, -, -, -, -, hreplies, -⟩ := messages_sent_once (fun _ => 7) hreach
  exact ⟨sends, hreach, _, hsent, hreplies ⟨1, replying⟩ _ hsent rfl⟩

end Gol
