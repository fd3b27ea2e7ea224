import Gol.ServerAsks

/-! The messages that the server keeps (`messages.rs`): each run stores one message for a decision, and an ask is
answered once. Messages are of the principal that holds their run: what a principal is shown of them answers its
calls, and no call of another's changes it. -/

namespace Gol
open Library

/-- The messages stored, and the asks among them that are answered. -/
structure Mailbox where
  messages : MessageStore
  answered : List MessageId

namespace Mailbox

/-- An ask that the task is to answer, and that is not answered. -/
structure IsOpen (box : Mailbox) (task : RunId) (ask : StoredMessage) : Prop where
  stored : ask ∈ box.messages
  unanswered : ask.id ∉ box.answered
  expects : ask.expectsReply = true
  task : ask.taskRun = some task

/-- `answer`: marks an ask answered, once. -/
def answer (box : Mailbox) (ask : MessageId) : Bool × Mailbox :=
  if (box.messages.any fun stored => stored.id = ask) ∧ ask ∉ box.answered then
    (true, { box with answered := ask :: box.answered })
  else (false, box)

/-- What a call of the server does to the messages and is answered. A new message has an id that none has; of a task's
open asks any may be found. A call may fail before it takes effect, or lose its answer. -/
def Step (box : Mailbox) : (c : ServerCall) → c.Answer → Mailbox → Prop
  | .outside (.putMessage message), found, later =>
      (∀ stored ∈ box.messages, stored.id ≠ message.id) ∧
        Messaged box.messages (.outside (.putMessage message)) found later.messages ∧ later.answered = box.answered
  | .outside (.message id), found, later =>
      later = box ∧ ((∃ error, found = .error error) ∨ found = .ok (box.messages.find? fun stored => stored.id = id))
  | .outside (.askOfTask task), found, later =>
      later = box ∧ ((∃ error, found = .error error) ∨ (found = .ok none ∧ ∀ ask, ¬ box.IsOpen task ask) ∨
        ∃ ask, found = .ok (some ask) ∧ box.IsOpen task ask)
  | .outside (.answer ask), found, later =>
      (found = .ok (box.answer ask).1 ∧ later = (box.answer ask).2) ∨
        ((∃ error, found = .error error) ∧ (later = box ∨ later = (box.answer ask).2))
  | _, _, later => later = box

theorem answer_messages (box : Mailbox) (ask : MessageId) : (box.answer ask).2.messages = box.messages := by
  rw [answer]
  split <;> rfl

/-- What is stored stays stored. -/
theorem Step.grows {box later : Mailbox} {c : ServerCall} {found : c.Answer} (h : box.Step c found later) :
    box.messages <+: later.messages := by
  unfold Step at h
  split at h
  · exact h.2.1.grows
  · exact h.1 ▸ List.prefix_refl _
  · exact h.1 ▸ List.prefix_refl _
  · rcases h with ⟨-, rfl⟩ | ⟨-, rfl | rfl⟩
    · exact (box.answer_messages _).symm ▸ List.prefix_refl _
    · exact List.prefix_refl _
    · exact (box.answer_messages _).symm ▸ List.prefix_refl _
  · exact h ▸ List.prefix_refl _

end Mailbox

/-- No run stored two messages with one decision. -/
def MessageStore.Once (messages : MessageStore) : Prop :=
  ∀ stored ∈ messages, ∀ other ∈ messages, stored.fromRun = other.fromRun → stored.decision = other.decision →
    stored = other

theorem MessageStore.Once.putMessage {messages : MessageStore} (h : messages.Once) (message : StoredMessage) :
    (messages.putMessage message).2.Once := by
  unfold MessageStore.putMessage
  split
  · exact h
  · rename_i hnone
    have hnew : ∀ stored ∈ messages, ¬ (stored.fromRun = message.fromRun ∧ stored.decision = message.decision) := by
      intro stored hstored hsame
      exact absurd (List.find?_eq_none.mp hnone stored hstored) (not_not.mpr (decide_eq_true hsame))
    intro stored hstored other hother hrun hdecision
    rcases List.mem_append.mp hstored with hold | hlast <;> rcases List.mem_append.mp hother with hold' | hlast'
    · exact h stored hold other hold' hrun hdecision
    · rw [List.mem_singleton.mp hlast'] at hrun hdecision
      exact absurd ⟨hrun, hdecision⟩ (hnew stored hold)
    · rw [List.mem_singleton.mp hlast] at hrun hdecision
      exact absurd ⟨hrun.symm, hdecision.symm⟩ (hnew other hold')
    · rw [List.mem_singleton.mp hlast, List.mem_singleton.mp hlast']

theorem Mailbox.Step.once {box later : Mailbox} {c : ServerCall} {found : c.Answer} (h : box.Step c found later)
    (honce : box.messages.Once) : later.messages.Once := by
  unfold Mailbox.Step at h
  split at h
  · obtain ⟨-, hput, -⟩ := h
    rcases hput with ⟨-, hlater⟩ | ⟨-, hlater | hlater⟩
    · exact hlater ▸ honce.putMessage _
    · exact hlater ▸ honce
    · exact hlater ▸ honce.putMessage _
  · exact h.1 ▸ honce
  · exact h.1 ▸ honce
  · rcases h with ⟨-, rfl⟩ | ⟨-, rfl | rfl⟩
    · exact (Mailbox.answer_messages _ _).symm ▸ honce
    · exact honce
    · exact (Mailbox.answer_messages _ _).symm ▸ honce
  · exact h ▸ honce

/-! ### What a principal is shown -/

namespace Mailbox

/-- What a call does to the messages when it takes effect. -/
def after (box : Mailbox) : ServerCall → Mailbox
  | .outside (.putMessage message) => { box with messages := (box.messages.putMessage message).2 }
  | .outside (.answer ask) => (box.answer ask).2
  | _ => box

variable {run : RunId → Principal} {id : MessageId → Principal} {k other : Principal} {box box' box'' : Mailbox}

/-- A message's id and its task are of the principal that holds its run. -/
structure Sorted (run : RunId → Principal) (id : MessageId → Principal) (message : StoredMessage) : Prop where
  id : id message.id = run message.fromRun
  task : ∀ task, message.taskRun = some task → run task = run message.fromRun

def Housed (run : RunId → Principal) (id : MessageId → Principal) (box : Mailbox) : Prop :=
  ∀ message ∈ box.messages, Sorted run id message

/-- The two show the principal the same messages, and the same of its asks answered. -/
structure ShowsMail (run : RunId → Principal) (id : MessageId → Principal) (k : Principal)
    (box box' : Mailbox) : Prop where
  messages : (box.messages.filter fun message => run message.fromRun = k) =
    box'.messages.filter fun message => run message.fromRun = k
  answered : ∀ ask, id ask = k → (ask ∈ box.answered ↔ ask ∈ box'.answered)

theorem ShowsMail.refl (run : RunId → Principal) (id : MessageId → Principal) (k : Principal) (box : Mailbox) :
    ShowsMail run id k box box :=
  ⟨rfl, fun _ _ => Iff.rfl⟩

theorem ShowsMail.symm (h : ShowsMail run id k box box') : ShowsMail run id k box' box :=
  ⟨h.messages.symm, fun ask hask => (h.answered ask hask).symm⟩

theorem ShowsMail.trans (h : ShowsMail run id k box box') (h' : ShowsMail run id k box' box'') :
    ShowsMail run id k box box'' :=
  ⟨h.messages.trans h'.messages, fun ask hask => (h.answered ask hask).trans (h'.answered ask hask)⟩

/-- A shown message is in both. -/
theorem ShowsMail.mem_iff (h : ShowsMail run id k box box') {message : StoredMessage} (hrun : run message.fromRun = k) :
    message ∈ box.messages ↔ message ∈ box'.messages := by
  have hmem : ∀ box : Mailbox, message ∈ box.messages ↔
      message ∈ box.messages.filter fun message => run message.fromRun = k :=
    fun box => by simp [hrun]
  rw [hmem box, hmem box', h.messages]

/-- The principal's own message is stored, or found stored, alike. -/
theorem ShowsMail.putMessage (h : ShowsMail run id k box box') {message : StoredMessage}
    (hrun : run message.fromRun = k) :
    (box.messages.putMessage message).1 = (box'.messages.putMessage message).1 ∧
      ShowsMail run id k (box.after (.outside (.putMessage message)))
        (box'.after (.outside (.putMessage message))) := by
  have hfind : ∀ messages : MessageStore, (messages.find? fun stored =>
        stored.fromRun = message.fromRun ∧ stored.decision = message.decision) =
      (messages.filter fun message => run message.fromRun = k).find? fun stored =>
        stored.fromRun = message.fromRun ∧ stored.decision = message.decision := by
    intro messages
    rw [List.find?_filter]
    congr 1
    funext stored
    by_cases hsame : stored.fromRun = message.fromRun
    · simp [hsame, hrun]
    · simp [hsame]
  have hsame := calc
    _ = (box.messages.filter fun message => run message.fromRun = k).find? _ := hfind box.messages
    _ = (box'.messages.filter fun message => run message.fromRun = k).find? _ := by rw [h.messages]
    _ = _ := (hfind box'.messages).symm
  simp only [after, MessageStore.putMessage, hsame]
  split
  · exact ⟨rfl, h⟩
  · refine ⟨rfl, ?_, h.answered⟩
    rw [List.filter_append, List.filter_append, h.messages]

/-- A message of another principal's shows nothing of it. -/
theorem showsMail_putMessage {message : StoredMessage} (hrun : run message.fromRun ≠ k) (box : Mailbox) :
    ShowsMail run id k box (box.after (.outside (.putMessage message))) := by
  simp only [after, MessageStore.putMessage]
  split
  · exact .refl run id k box
  · refine ⟨?_, fun _ _ => Iff.rfl⟩
    simp [hrun]

theorem Housed.putMessage (h : box.Housed run id) {message : StoredMessage} (hsorted : Sorted run id message) :
    (box.after (.outside (.putMessage message))).Housed run id := by
  simp only [after, MessageStore.putMessage]
  split
  · exact h
  · intro stored hmem
    rcases List.mem_append.mp hmem with hmem | hmem
    · exact h stored hmem
    · rw [List.mem_singleton.mp hmem]
      exact hsorted

/-- The principal's own ask is marked answered alike. -/
theorem ShowsMail.answer (hbox : box.Housed run id) (hbox' : box'.Housed run id)
    (h : ShowsMail run id k box box') {ask : MessageId}
    (hask : id ask = k) :
    (box.answer ask).1 = (box'.answer ask).1 ∧ ShowsMail run id k (box.answer ask).2 (box'.answer ask).2 := by
  have hstored : ∀ box : Mailbox, box.Housed run id → ((box.messages.any fun stored => stored.id = ask) =
      (box.messages.filter fun message => run message.fromRun = k).any fun stored => stored.id = ask) := by
    intro box hhoused
    rw [Bool.eq_iff_iff, List.any_eq_true, List.any_eq_true]
    constructor
    · rintro ⟨stored, hmem, hid⟩
      refine ⟨stored, List.mem_filter.mpr ⟨hmem, ?_⟩, hid⟩
      rw [← (hhoused stored hmem).id, of_decide_eq_true hid, hask, decide_eq_true rfl]
    · rintro ⟨stored, hmem, hid⟩
      exact ⟨stored, List.mem_of_mem_filter hmem, hid⟩
  simp only [Mailbox.answer, hstored box hbox, hstored box' hbox', h.messages, h.answered ask hask]
  split
  · refine ⟨rfl, h.messages, fun other hother => ?_⟩
    rw [List.mem_cons, List.mem_cons, h.answered other hother]
  · exact ⟨rfl, h⟩

theorem showsMail_answer {ask : MessageId} (hask : id ask ≠ k) (box : Mailbox) :
    ShowsMail run id k box (box.answer ask).2 := by
  unfold Mailbox.answer
  split
  · refine ⟨rfl, fun other hother => ?_⟩
    have hne : other ≠ ask := by
      rintro rfl
      exact hask hother
    simp [hne]
  · exact .refl run id k box

theorem Housed.answer (h : box.Housed run id) (ask : MessageId) : (box.answer ask).2.Housed run id := by
  intro stored hmem
  rw [box.answer_messages] at hmem
  exact h stored hmem

/-- The open asks of the principal's own task are the same. -/
theorem ShowsMail.isOpen_iff (hbox : box.Housed run id) (hbox' : box'.Housed run id)
    (h : ShowsMail run id k box box') {task : RunId} (htask : run task = k) (ask : StoredMessage) :
    box.IsOpen task ask ↔ box'.IsOpen task ask := by
  have hone : ∀ {box box' : Mailbox}, box.Housed run id → ShowsMail run id k box box' → box.IsOpen task ask →
      box'.IsOpen task ask := by
    intro box box' hhoused hshows hopen
    have hsorted := hhoused ask hopen.stored
    have hrun : run ask.fromRun = k := (hsorted.task task hopen.task).symm.trans htask
    exact ⟨(hshows.mem_iff hrun).mp hopen.stored,
      fun hmem => hopen.unanswered ((hshows.answered ask.id (hsorted.id.trans hrun)).mpr hmem),
        hopen.expects, hopen.task⟩
  exact ⟨hone hbox h, hone hbox' h.symm⟩

end Mailbox

end Gol
