import Gol.ServerPayments

/-! Who pays in a running server: the workers, for each child they store and for each decision they append. So each
stored log of a reachable pool was paid for. -/

namespace Gol
open Library

/-! ### Logs that were paid for -/

variable {fleet : Fleet} {ok : Pool → Move → Prop} {s t : Server} {c : ServerCall} {answer : c.Answer}

/-- What a program puts is unpriced. -/
theorem Puts.unpriced {run : StoredRun} {origin : Origin} (h : Puts fleet s run origin) : Unpriced run.events := by
  have hqueued : ∀ {stamps}, run.events = queuedEvents run.spec stamps → Unpriced run.events := by
    intro stamps heq
    rw [heq]
    rfl
  cases origin with
  | request =>
      rcases h.2 with ⟨stamps, heq⟩ | ⟨-, stamps, heq⟩
      · exact hqueued heq
      · rw [heq]
        rfl
  | fire => exact h.1.elim fun stamps heq => hqueued heq
  | child asked => exact h.2.2.elim fun stamps heq => hqueued heq

theorem Unpriced.of_payloads {batch : List Event} {added : List EventPayload} (h : payloads batch = added)
    (hfree : added.all isFree = true) : Unpriced batch := by rwa [Unpriced, h]

/-- What is appended to any log is unpriced. -/
theorem Writes.unpriced {id : RunId} {batch : List Event} {party : Party} (h : Writes fleet s id none batch party) :
    Unpriced batch := by
  cases party with
  | producer =>
      obtain ⟨-, cls, message, hbatch⟩ := h
      exact .of_payloads hbatch rfl
  | settle => exact .of_payloads h.2 rfl
  | delivery =>
      obtain ⟨-, spec, events, ask, answer, -, -, -, hanswers, hbatch⟩ := h
      refine .of_payloads hbatch ?_
      cases answer with
      | effectDecided effect | effectAuthorized effect | childStarted runId agentId limits => cases hanswers
      | _ => rfl
  | user =>
      obtain ⟨spec, events, question, text, -, hseen, -⟩ := h
      cases hseen
  | stop =>
      obtain ⟨spec, events, -, hseen, -⟩ := h
      cases hseen
  | request =>
      obtain ⟨-, ⟨cls, message, hbatch⟩ | ⟨spec, events, message, usage, text, -, -, hbatch⟩⟩ := h
      · exact .of_payloads hbatch rfl
      · exact .of_payloads hbatch rfl
  | sweep => exact h.elim
  | worker token =>
      obtain ⟨spec, events, number, -, -, -, -, -, -, hwrites⟩ := h
      cases hwrites with
      | ended payload hpayload hbatch =>
          refine .of_payloads hbatch ?_
          rcases hpayload with rfl | ⟨cls, message, rfl⟩ <;> rfl
      | completed hturn hstarted message usage text hbatch => exact .of_payloads hbatch rfl
      | scheduled hafter | begun hafter | drove hafter => cases hafter

namespace Server

/-- What is appended to a stored log goes on from it, and charges stored runs. -/
theorem Funded.goesOn (h : s.Funded) (hpays : Pays s c) (howes : Owes fleet false s c) {id : RunId} {seen : Option Nat}
    {batch : List Event} {party : Party} (hadds : c.appends = some (id, seen, batch, party)) {run : StoredRun}
    (hstored : s.store.runs id = some run) (hlength : ∀ length, seen = some length → length = run.events.length) :
    GoesOn run.spec run.events batch ∧ s.Bears (run.events ++ batch) := by
  have hfree : Unpriced batch → GoesOn run.spec run.events batch ∧ s.Bears (run.events ++ batch) :=
    fun hfree => ⟨hfree.goesOn (h.paid id run hstored), hfree.bears (h.bears id run hstored)⟩
  cases c with
  | store c =>
      cases c with
      | appendEvents other batch' party' =>
          cases hadds
          exact hfree (Writes.unpriced howes)
      | appendEventsAfter other seen' batch' party' =>
          cases hadds
          rcases hpays with hunpriced | ⟨spec, events, hsaw, hseen, hpaid, hbears, hspent⟩
          · exact hfree hunpriced
          · obtain ⟨more, hmore⟩ := hsaw.stored
            rw [hstored] at hmore
            cases hmore
            have hnone : more = [] := by
              have := hlength seen' rfl
              rw [List.length_append] at this
              exact List.length_eq_zero_iff.mp (by omega)
            subst hnone
            rw [List.append_nil] at *
            exact ⟨⟨hpaid, hspent⟩, hbears⟩
      | _ => cases hadds
  | _ => cases hadds

theorem Funded.empty : Server.Funded .empty where
  paid _ _ h := by cases h
  bears _ _ h := by cases h

theorem Funded.step (h : s.Funded) (hpays : Pays s c) (howes : Owes fleet false s c) (hstep : s.Step c answer t) :
    t.Funded := by
  have hlater := hstep.later
  suffices hall : ∀ id run, t.store.runs id = some run → Paid run.spec (payloads run.events) ∧ s.Bears run.events from
    ⟨fun id run hrun => (hall id run hrun).1, fun id run hrun => (hall id run hrun).2.later hlater⟩
  intro id run hrun
  rcases hstep.stored hrun with hsame | ⟨origin, rfl, -, -⟩ |
    ⟨before, seen, batch, party, hadds, hbefore, -, hlength, rfl⟩
  · exact ⟨h.paid id run hsame, h.bears id run hsame⟩
  · have hfree : Unpriced run.events := Puts.unpriced howes.1
    have hpaid : Paid run.spec (payloads ([] ++ run.events)) := hfree.paid (.nil run.spec)
    refine ⟨hpaid, fun child hmem => ?_⟩
    have hnone := hfree.charged_eq []
    rw [List.nil_append] at hnone
    rw [hnone] at hmem
    cases hmem
  · obtain ⟨hgoes, hbears⟩ := h.goesOn hpays howes hadds hbefore hlength
    exact ⟨hgoes.paid, hbears⟩

end Server

namespace Pool

theorem Reach.funds {pool : Pool} (h : pool.Reach (Serves fleet) ok) : purse.Held pool := by
  refine Pledge.held purse_drives .empty (fun s t hsame hfunded => ?_)
    (fun hfunded hpays howes hstep => hfunded.step hpays howes hstep) h
  have hgave : ∀ {child}, s.Gave child → t.Gave child := fun ⟨run, hrun, hlimits⟩ => ⟨run, hsame ▸ hrun, hlimits⟩
  exact ⟨fun id run hrun => hfunded.paid id run (hsame ▸ hrun), fun id run hrun child hmem =>
    hgave (hfunded.bears id run (hsame ▸ hrun) child hmem)⟩

end Pool

end Gol
