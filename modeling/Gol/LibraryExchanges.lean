import Mathlib.Data.List.Induction
import Mathlib.Data.List.Nodup
import Mathlib.Order.Basic
import Mathlib.Order.Nat

/-! Requests and answers over sessions that a client opens one after another. A request waits for its answer, and
nothing else is sent until it has one or its session breaks, so an answer stands right after its own request, and
nothing of a broken session follows the break. -/

namespace Gol.Library

/-- What passes over the sessions, in order. An answer names the place it was read at. -/
inductive Traffic (Id Request Answer : Type) where
  | opened (session : Nat)
  | asked (session : Nat) (id : Id) (request : Request)
  | told (session : Nat) (notice : Request)
  | answered (session position : Nat) (id : Id) (answer : Answer)
  | broke (session : Nat)

namespace Traffic

variable {Id Request Answer : Type}

def session : Traffic Id Request Answer → Nat
  | opened session => session
  | asked session _ _ => session
  | told session _ => session
  | answered session _ _ _ => session
  | broke session => session

/-- The id of a request that a session was asked. -/
def askedIn (session : Nat) : Traffic Id Request Answer → Option Id
  | asked other id _ => if other = session then some id else none
  | _ => none

/-- Where an answer was read. -/
def place : Traffic Id Request Answer → Option (Nat × Nat)
  | answered session position _ _ => some (session, position)
  | _ => none

end Traffic

/-- What the client goes by: which line answers a request, which requests need no leave, and which ones an answer
gives leave to. -/
structure Terms (Id Request Answer : Type) where
  answers : Nat → Nat → Id → Answer → Prop
  free : Request → Prop
  opens : Request → Answer → Request → Prop

inductive Phase (Id Request : Type) where
  | closed
  | idle
  | waiting (id : Id) (request : Request)

/-- A client in its latest session, which is the one before `next`. -/
structure Client (Id Request : Type) where
  next : Nat
  phase : Phase Id Request
  last : Option Id
  read : Nat
  granted : Request → Prop

namespace Client

variable {Id Request Answer : Type} [Preorder Id]

/-- A client that has opened no session yet. -/
def new : Client Id Request := ⟨0, .closed, none, 0, fun _ => False⟩

inductive Step (terms : Terms Id Request Answer) :
    Client Id Request → Traffic Id Request Answer → Client Id Request → Prop where
  | opened {client session} : client.next ≤ session → (∀ id request, client.phase ≠ .waiting id request) →
      Step terms client (.opened session) ⟨session + 1, .idle, none, 0, terms.free⟩
  | asked {client session id request} : client.next = session + 1 → client.phase = .idle →
      (∀ last, client.last = some last → last < id) → client.granted request →
      Step terms client (.asked session id request) { client with phase := .waiting id request, last := some id }
  | told {client session notice} : client.next = session + 1 → client.phase = .idle →
      Step terms client (.told session notice) client
  | answered {client session position id request answer} :
      client.next = session + 1 → client.phase = .waiting id request →
      client.read ≤ position → terms.answers session position id answer →
      Step terms client (.answered session position id answer)
        { client with
          phase := .idle
          read := position + 1
          granted := fun other => client.granted other ∨ terms.opens request answer other }
  | broke {client session} : client.next = session + 1 → client.phase ≠ .closed →
      Step terms client (.broke session) { client with phase := .closed }

def Runs (terms : Terms Id Request Answer) :
    Client Id Request → List (Traffic Id Request Answer) → Client Id Request → Prop
  | client, [], last => client = last
  | client, event :: rest, last => ∃ middle, Step terms client event middle ∧ Runs terms middle rest last

variable {terms : Terms Id Request Answer} {client last : Client Id Request}
  {events before after : List (Traffic Id Request Answer)}
  {session position : Nat} {id : Id} {request : Request} {answer : Answer}

theorem runs_append : Runs terms client (before ++ after) last ↔
    ∃ middle, Runs terms client before middle ∧ Runs terms middle after last := by
  induction before generalizing client with
  | nil => simp [Runs]
  | cons event rest ih =>
      simp only [List.cons_append, Runs, ih]
      constructor
      · rintro ⟨next, hstep, middle, hrest, hafter⟩
        exact ⟨middle, ⟨next, hstep, hrest⟩, hafter⟩
      · rintro ⟨middle, ⟨next, hstep, hrest⟩, hafter⟩
        exact ⟨next, hstep, middle, hrest, hafter⟩

theorem runs_snoc {event : Traffic Id Request Answer} : Runs terms client (before ++ [event]) last ↔
    ∃ middle, Runs terms client before middle ∧ Step terms middle event last := by
  rw [runs_append]
  simp [Runs]

/-- A session never follows one with a greater number, nor the end of its own. -/
theorem Step.session_le {event : Traffic Id Request Answer} (h : Step terms client event last) :
    client.next ≤ event.session + 1 ∧ last.next = event.session + 1 ∧
      (client.phase = .closed → client.next ≤ event.session) := by
  cases h with
  | opened hnext => exact ⟨Nat.le_succ_of_le hnext, rfl, fun _ => hnext⟩
  | asked hnext hphase => exact ⟨hnext.le, hnext, fun hclosed => by simp [hclosed] at hphase⟩
  | told hnext hphase => exact ⟨hnext.le, hnext, fun hclosed => by simp [hclosed] at hphase⟩
  | answered hnext hphase => exact ⟨hnext.le, hnext, fun hclosed => by simp [hclosed] at hphase⟩
  | broke hnext hphase => exact ⟨hnext.le, hnext, fun hclosed => absurd hclosed hphase⟩

theorem Runs.session_le (h : Runs terms client events last) :
    ∀ event ∈ events, client.next ≤ event.session + 1 ∧ (client.phase = .closed → client.next ≤ event.session) := by
  induction events generalizing client with
  | nil => simp
  | cons first rest ih =>
      obtain ⟨middle, hstep, hrest⟩ := h
      obtain ⟨hle, hnext, hclosed⟩ := hstep.session_le
      intro event hevent
      rcases List.mem_cons.mp hevent with rfl | hevent
      · exact ⟨hle, hclosed⟩
      · have hlater : middle.next ≤ event.session + 1 := (ih hrest event hevent).1
        refine ⟨by omega, fun hshut => ?_⟩
        have hfirst : client.next ≤ first.session := hclosed hshut
        omega

/-- After a break all that passes belongs to later sessions. -/
theorem Runs.after_broke (h : Runs terms client (before ++ .broke session :: after) last) :
    ∀ event ∈ after, session < event.session := by
  obtain ⟨middle, -, shut, hbroke, hafter⟩ := runs_append.mp h
  cases hbroke with
  | broke hnext _ =>
      intro event hevent
      have hlater := (hafter.session_le event hevent).2 rfl
      have hshut : middle.next = session + 1 := hnext
      show session + 1 ≤ event.session
      rw [← hshut]
      exact hlater

/-! ### Requests -/

/-- The ids that come later in the client's own session are greater than its last. -/
theorem Runs.last_lt (h : Runs terms client events last) (hasked : .asked session id request ∈ events)
    (hsession : client.next = session + 1) : ∀ sent, client.last = some sent → sent < id := by
  induction events generalizing client with
  | nil => cases hasked
  | cons first rest ih =>
      obtain ⟨middle, hstep, hrest⟩ := h
      intro sent hsent
      by_cases hfirst : first = .asked session id request
      · subst hfirst
        cases hstep with
        | asked _ _ hlt _ => exact hlt sent hsent
      · have hin : .asked session id request ∈ rest := (List.mem_cons.mp hasked).resolve_left fun heq => hfirst heq.symm
        cases hstep with
        | opened hnext _ =>
            have hlater := (hrest.session_le _ hin).1
            simp only [Traffic.session] at hlater
            omega
        | asked _ _ hlt _ => exact lt_trans (hlt sent hsent) (ih hrest hin hsession _ rfl)
        | told _ _ => exact ih hrest hin hsession sent hsent
        | answered _ _ _ _ => exact ih hrest hin hsession sent hsent
        | broke _ _ => exact ih hrest hin hsession sent hsent

/-- The ids of a session's requests increase. -/
theorem Runs.ids_increase (h : Runs terms client events last) (session : Nat) :
    (events.filterMap (Traffic.askedIn session)).Pairwise (· < ·) := by
  induction events generalizing client with
  | nil => exact List.Pairwise.nil
  | cons first rest ih =>
      obtain ⟨middle, hstep, hrest⟩ := h
      cases hid : Traffic.askedIn session first with
      | none => rw [List.filterMap_cons_none hid]; exact ih hrest
      | some id =>
          rw [List.filterMap_cons_some hid]
          refine List.pairwise_cons.mpr ⟨fun later hlater => ?_, ih hrest⟩
          obtain ⟨event, hevent, hsame⟩ := List.mem_filterMap.mp hlater
          cases first <;> simp only [Traffic.askedIn, reduceCtorEq] at hid
          cases event <;> simp only [Traffic.askedIn, reduceCtorEq] at hsame
          simp only [Option.ite_none_right_eq_some, Option.some.injEq] at hid hsame
          obtain ⟨⟨rfl, rfl⟩, rfl, rfl⟩ := And.intro hid hsame
          cases hstep with
          | asked hnext _ _ _ => exact hrest.last_lt hevent hnext _ rfl

/-- A request is followed by its answer or by the end of its session, unless the client still waits. -/
theorem Runs.settles (h : Runs terms client (before ++ .asked session id request :: after) last)
    (hdone : ∀ id request, last.phase ≠ .waiting id request) :
    (∃ position answer rest, after = .answered session position id answer :: rest) ∨
      ∃ rest, after = .broke session :: rest := by
  obtain ⟨middle, -, waits, hasked, hafter⟩ := runs_append.mp h
  cases hasked with
  | asked hnext _ _ _ =>
      cases after with
      | nil => exact absurd (congrArg phase hafter.symm) (hdone id request)
      | cons event rest =>
          obtain ⟨settled, hstep, -⟩ := hafter
          cases hstep with
          | opened _ hidle => exact absurd rfl (hidle id request)
          | asked _ hphase => cases hphase
          | told _ hphase => cases hphase
          | @answered other position _ _ answer hother hphase _ _ =>
              obtain rfl : session = other := Nat.succ.inj (hnext.symm.trans hother)
              cases hphase
              exact .inl ⟨position, answer, rest, rfl⟩
          | @broke other hother _ =>
              obtain rfl : session = other := Nat.succ.inj (hnext.symm.trans hother)
              exact .inr ⟨rest, rfl⟩

/-! ### Answers -/

/-- A client that waits has just asked. -/
theorem Runs.waiting (h : Runs terms client events last) (hphase : last.phase = .waiting id request)
    (hidle : client.phase ≠ .waiting id request) :
    ∃ earlier session, events = earlier ++ [.asked session id request] ∧ last.next = session + 1 := by
  rcases List.eq_nil_or_concat events with rfl | ⟨earlier, event, rfl⟩
  · exact absurd (h ▸ hphase) hidle
  · rw [List.concat_eq_append] at h ⊢
    obtain ⟨middle, -, hstep⟩ := runs_snoc.mp h
    cases hstep with
    | opened => cases hphase
    | @asked session _ _ hnext _ _ _ => cases hphase; exact ⟨earlier, session, rfl, hnext⟩
    | told _ hquiet => rw [hquiet] at hphase; cases hphase
    | answered => cases hphase
    | broke => cases hphase

/-- An answer stands right after the request it answers. -/
theorem Runs.answer_follows (h : Runs terms new (before ++ .answered session position id answer :: after) last) :
    (∃ earlier request, before = earlier ++ [.asked session id request]) ∧
      terms.answers session position id answer := by
  obtain ⟨middle, hbefore, settled, hstep, -⟩ := runs_append.mp h
  cases hstep with
  | answered hnext hphase _ hanswers =>
      obtain ⟨earlier, other, hasked, hother⟩ := hbefore.waiting hphase nofun
      obtain rfl : session = other := Nat.succ.inj (hnext.symm.trans hother)
      exact ⟨⟨earlier, _, hasked⟩, hanswers⟩

/-- The places a client reads answers at later lie behind what it has read. -/
theorem Runs.read_le (h : Runs terms client events last) (hanswered : .answered session position id answer ∈ events)
    (hsession : client.next = session + 1) : client.read ≤ position := by
  induction events generalizing client with
  | nil => cases hanswered
  | cons first rest ih =>
      obtain ⟨middle, hstep, hrest⟩ := h
      by_cases hfirst : first = .answered session position id answer
      · subst hfirst
        cases hstep with
        | answered _ _ hread _ => exact hread
      · have hin : .answered session position id answer ∈ rest :=
          (List.mem_cons.mp hanswered).resolve_left fun heq => hfirst heq.symm
        cases hstep with
        | opened hnext _ =>
            have hlater := (hrest.session_le _ hin).1
            simp only [Traffic.session] at hlater
            omega
        | asked _ _ _ _ =>
            have hread := ih hrest hin hsession
            exact hread
        | told _ _ => exact ih hrest hin hsession
        | answered _ _ hread _ => exact le_trans hread (le_trans (Nat.le_succ _) (ih hrest hin hsession))
        | broke _ _ =>
            have hread := ih hrest hin hsession
            exact hread

/-- No place is read as two answers. -/
theorem Runs.places_nodup (h : Runs terms client events last) : (events.filterMap Traffic.place).Nodup := by
  induction events generalizing client with
  | nil => exact List.nodup_nil
  | cons first rest ih =>
      obtain ⟨middle, hstep, hrest⟩ := h
      cases hplace : Traffic.place first with
      | none => rw [List.filterMap_cons_none hplace]; exact ih hrest
      | some read =>
          rw [List.filterMap_cons_some hplace]
          refine List.nodup_cons.mpr ⟨fun hagain => ?_, ih hrest⟩
          obtain ⟨event, hevent, hsame⟩ := List.mem_filterMap.mp hagain
          cases first <;> simp only [Traffic.place, reduceCtorEq, Option.some.injEq] at hplace
          cases event <;> simp only [Traffic.place, reduceCtorEq, Option.some.injEq] at hsame
          subst hplace
          simp only [Prod.mk.injEq] at hsame
          obtain ⟨rfl, rfl⟩ := hsame
          cases hstep with
          | answered hnext _ _ _ => exact absurd (hrest.read_le hevent hnext) (Nat.not_succ_le_self _)

/-! ### Leave -/

/-- What a client may ask needs no leave, or an answer of its session gave it. -/
theorem Runs.granted (h : Runs terms new events last) (hgranted : last.granted request) : terms.free request ∨
    ∃ earlier session position id listing answer rest, last.next = session + 1 ∧
      events = earlier ++ .asked session id listing :: .answered session position id answer :: rest ∧
      terms.opens listing answer request := by
  induction events using List.reverseRecOn generalizing last with
  | nil => cases h; exact hgranted.elim
  | append_singleton before event ih =>
      obtain ⟨middle, hbefore, hstep⟩ := runs_snoc.mp h
      have hkept (hnext : last.next = middle.next) (held : middle.granted request) : terms.free request ∨
          ∃ earlier session position id listing answer rest, last.next = session + 1 ∧
            before ++ [event] = earlier ++ .asked session id listing :: .answered session position id answer :: rest ∧
            terms.opens listing answer request := by
        refine (ih hbefore held).imp_right ?_
        rintro ⟨earlier, session, position, id, listing, answer, rest, hsession, rfl, hopens⟩
        exact ⟨earlier, session, position, id, listing, answer, rest ++ [event], hnext.trans hsession, by simp, hopens⟩
      cases hstep with
      | opened => exact .inl hgranted
      | asked => exact hkept rfl hgranted
      | told => exact hkept rfl hgranted
      | broke => exact hkept rfl hgranted
      | @answered session position id listing answer hnext hphase _ _ =>
          rcases hgranted with held | hopens
          · exact hkept rfl held
          · obtain ⟨earlier, other, rfl, hother⟩ := hbefore.waiting hphase nofun
            obtain rfl : session = other := Nat.succ.inj (hnext.symm.trans hother)
            exact .inr ⟨earlier, session, position, id, listing, answer, [], hnext, by simp, hopens⟩

/-- A request needs no leave, or an earlier answer in its session gave it. -/
theorem Runs.asked_granted (h : Runs terms new (before ++ .asked session id request :: after) last) :
    terms.free request ∨ ∃ earlier position other listing answer rest,
      before = earlier ++ .asked session other listing :: .answered session position other answer :: rest ∧
      terms.opens listing answer request := by
  obtain ⟨middle, hbefore, waits, hasked, -⟩ := runs_append.mp h
  cases hasked with
  | asked hnext _ _ hgranted =>
      refine (hbefore.granted hgranted).imp_right ?_
      rintro ⟨earlier, number, position, other, listing, answer, rest, hnumber, heq, hopens⟩
      obtain rfl : session = number := Nat.succ.inj (hnext.symm.trans hnumber)
      exact ⟨earlier, position, other, listing, answer, rest, heq, hopens⟩

end Client

end Gol.Library
