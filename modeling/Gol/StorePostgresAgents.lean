import Gol.LibraryTransactions
import Gol.ServerRequests
import Gol.StoreWorkLists

/-! `put_agent` in Postgres: one statement that takes the agent's row, and writes it where it is new or the same
principal's. The principal that first stores an agent keeps it, whoever else puts it at the same time. -/

namespace Gol
open Library

namespace AgentTable

abbrev Row : AgentId → Type := fun _ => Option StoredAgent

/-- An insert, or where the id is taken an update of the manifest and the tenant, if the row is the same principal's. -/
def putAgent (agent : StoredAgent) : Prog (RowSig Row) PutAgent :=
  .call (.lock agent.manifest.id) fun (stored : Option StoredAgent) =>
  match stored with
  | none => .call (.write agent.manifest.id (some agent)) fun _ => .ret .stored
  | some stored =>
      if stored.owner.is agent.owner then
        .call (.write agent.manifest.id
          (some ⟨agent.manifest, { stored.owner with tenant := agent.owner.tenant }⟩)) fun _ =>
        .ret .stored
      else .ret .ownedByOther

/-- The agent is another principal's. -/
def another (agent stored : StoredAgent) : Bool := !stored.owner.is agent.owner

/-- Alone, the statement does what the site's put does. -/
theorem run_putAgent (rows : Rows Row) (agent : StoredAgent) : rows.run (putAgent agent) =
    if (rows agent.manifest.id).any (another agent) then (.ownedByOther, rows)
    else (.stored, Function.update rows agent.manifest.id (some agent)) := by
  rw [putAgent, Rows.run_lock]
  cases rows agent.manifest.id with
  | none => rfl
  | some stored =>
      by_cases hsame : stored.owner.is agent.owner = true
      · have howner : { stored.owner with tenant := agent.owner.tenant } = agent.owner := by
          simp only [Owner.is, Bool.and_eq_true, beq_iff_eq] at hsame
          dsimp only
          rw [hsame.1, hsame.2]
        simp [another, hsame, howner]
      · simp [another, hsame]

theorem climbs_putAgent (agent : StoredAgent) : (putAgent agent).Climbs (fun _ => 0) [] := by
  refine ⟨by simp, fun stored => ?_⟩
  cases stored with
  | none => exact ⟨List.mem_singleton_self _, trivial⟩
  | some stored =>
      dsimp only
      split
      · exact ⟨List.mem_singleton_self _, trivial⟩
      · trivial

/-! ### Puts in the order they commit -/

/-- The agents that were stored under an id, in their order. -/
def storedUnder (id : AgentId) (done : List (StoredAgent × PutAgent)) : List StoredAgent :=
  (done.filter fun put => put.1.manifest.id = id ∧ put.2 = .stored).map Prod.fst

/-- What a put is answered after these: whether the agent that was first stored under its id is another principal's. -/
def answerAfter (done : List (StoredAgent × PutAgent)) (agent : StoredAgent) : PutAgent :=
  if (storedUnder agent.manifest.id done).head?.any (another agent) then .ownedByOther else .stored

/-- The site after these puts, one after another. -/
def siteAfter (done : List (StoredAgent × PutAgent)) : Site :=
  done.foldl (fun site put => (site.putAgent put.1).2) .empty

variable {done : List (StoredAgent × PutAgent)} {agent : StoredAgent} {id : AgentId} {rows : Rows Row}

theorem storedUnder_stored :
    storedUnder agent.manifest.id (done ++ [(agent, .stored)]) = storedUnder agent.manifest.id done ++
    [agent] := by
  simp [storedUnder]

theorem storedUnder_refused : storedUnder id (done ++ [(agent, .ownedByOther)]) = storedUnder id done := by
    simp [storedUnder]

theorem storedUnder_other (h : agent.manifest.id ≠ id) :
    storedUnder id (done ++ [(agent, .stored)]) = storedUnder id done := by
  simp [storedUnder, h]

theorem siteAfter_concat (answer : PutAgent) : (siteAfter (done ++ [(agent, answer)])).agents =
    if ((siteAfter done).agents agent.manifest.id).any (another agent) then (siteAfter done).agents
    else Function.update (siteAfter done).agents agent.manifest.id (some agent) := by
  rw [siteAfter, List.foldl_append]
  change ((siteAfter done).putAgent agent).2.agents = _
  by_cases hother : ((siteAfter done).agents agent.manifest.id).any (another agent) = true
  · rw [if_pos hother]
    exact congrArg (fun put : PutAgent × Site => put.2.agents) (if_pos hother)
  · rw [if_neg hother]
    exact congrArg (fun put : PutAgent × Site => put.2.agents) (if_neg hother)

/-- Agents of one principal are another's alike. -/
theorem another_congr {agents : List StoredAgent}
    (h : ∀ first ∈ agents, ∀ later ∈ agents, principal first.owner = principal later.owner) :
    agents.getLast?.any (another agent) = agents.head?.any (another agent) := by
  cases agents with
  | nil => rfl
  | cons first rest =>
      have hsame := h _ (List.getLast_mem (List.cons_ne_nil first rest)) first (List.mem_cons_self ..)
      rw [List.getLast?_eq_some_getLast (List.cons_ne_nil first rest), List.head?_cons, Option.any_some,
        Option.any_some]
      rw [another, another, Bool.eq_iff_iff, Bool.not_eq_true', Bool.not_eq_true', ← Bool.not_eq_true,
        ← Bool.not_eq_true, Owner.is_iff, Owner.is_iff, hsame]

/-- The table after these puts: under an id, the last that was stored there, and all that were are one principal's. -/
structure Kept (done : List (StoredAgent × PutAgent)) (rows : Rows Row) : Prop where
  row : ∀ id, rows id = (storedUnder id done).getLast?
  owner : ∀ id, ∀ first ∈ storedUnder id done, ∀ later ∈ storedUnder id done,
    principal first.owner = principal later.owner
  answered : ∀ i (hi : i < done.length), done[i].2 = answerAfter (done.take i) done[i].1
  site : rows = (siteAfter done).agents

theorem Kept.any_another (h : Kept done rows) (agent : StoredAgent) :
    (rows agent.manifest.id).any (another agent) = (storedUnder agent.manifest.id done).head?.any (another agent) := by
  rw [h.row, another_congr (h.owner _)]

theorem Kept.answered_concat (h : Kept done rows) {answer : PutAgent} (hanswer : answer = answerAfter done agent) :
    ∀ i (hi : i < (done ++ [(agent, answer)]).length), (done ++ [(agent, answer)])[i].2 =
      answerAfter ((done ++ [(agent, answer)]).take i) (done ++ [(agent, answer)])[i].1 := by
  intro i hi
  by_cases hbefore : i < done.length
  · rw [List.getElem_append_left hbefore, List.take_append_of_le_length hbefore.le]
    exact h.answered i hbefore
  · obtain rfl : i = done.length := by
      rw [List.length_append, List.length_singleton] at hi
      omega
    rw [List.getElem_concat_length rfl, List.take_left' rfl]
    exact hanswer

/-- A put that is refused leaves all as it is. -/
theorem Kept.refuse (h : Kept done rows) (hother : (rows agent.manifest.id).any (another agent) = true) :
    Kept (done ++ [(agent, .ownedByOther)]) rows where
  row id := by rw [storedUnder_refused, h.row]
  owner id := by
    rw [storedUnder_refused]
    exact h.owner id
  answered := h.answered_concat (by rw [answerAfter, ← h.any_another, if_pos hother])
  site := by rw [siteAfter_concat, ← h.site, if_pos hother]

/-- A put that is stored is of the principal that stored the first. -/
theorem Kept.store (h : Kept done rows) (hother : ¬(rows agent.manifest.id).any (another agent) = true) :
    Kept (done ++ [(agent, .stored)]) (Function.update rows agent.manifest.id (some agent)) where
  row id := by
    by_cases hid : agent.manifest.id = id
    · subst hid
      rw [Function.update_self, storedUnder_stored, List.getLast?_concat]
    · rw [Function.update_of_ne (Ne.symm hid), storedUnder_other hid, h.row]
  owner id := by
    by_cases hid : agent.manifest.id = id
    · subst hid
      have hsame : ∀ stored ∈ storedUnder agent.manifest.id done, principal stored.owner = principal agent.owner := by
        intro stored hmem
        rw [h.any_another] at hother
        cases hfirst : (storedUnder agent.manifest.id done).head? with
        | none =>
            rw [List.head?_eq_none_iff.mp hfirst] at hmem
            cases hmem
        | some first =>
            have his : first.owner.is agent.owner = true := by simpa [hfirst, another] using hother
            rw [h.owner _ stored hmem first (List.mem_of_head? hfirst)]
            exact Owner.is_iff.mp his
      rw [storedUnder_stored]
      intro first hfirst later hlater
      rcases List.mem_append.mp hfirst with hfirst | hfirst <;> rcases List.mem_append.mp hlater with hlater | hlater
      · exact h.owner _ first hfirst later hlater
      · obtain rfl := List.mem_singleton.mp hlater
        exact hsame first hfirst
      · obtain rfl := List.mem_singleton.mp hfirst
        exact (hsame later hlater).symm
      · rw [List.mem_singleton.mp hfirst, List.mem_singleton.mp hlater]
    · rw [storedUnder_other hid]
      exact h.owner id
  answered := h.answered_concat (by rw [answerAfter, ← h.any_another, if_neg hother])
  site := by rw [siteAfter_concat, ← h.site, if_neg hother]

theorem Kept.of_serial (h : Serial putAgent (fun _ => none) done rows) : Kept done rows := by
  induction h with
  | nil => exact ⟨fun _ => rfl, fun _ _ hmem => by simp [storedUnder] at hmem, fun _ hi => by simp at hi, rfl⟩
  | snoc _ agent ih =>
      rw [run_putAgent]
      split
      · next hother => exact ih.refuse hother
      · next hother => exact ih.store hother

/-- Principals that put agents side by side, on any number of servers and with any put given up at any moment, leave
under each id the agent that was stored there last, and each that was stored there is the first one's principal's. A
put is refused where that principal is another, and only there. The table is the site's after the same puts, and no
put waits for ever. -/
theorem first_owner_keeps {base : Base AgentId StoredAgent PutAgent Row}
    (h : Base.Reach putAgent (fun _ => none) base) :
    Kept base.done base.rows ∧ (base.sessions ≠ [] → ∃ later, base.Advance later) :=
  ⟨.of_serial h.sound.serial, h.advances climbs_putAgent⟩

/-- The agent's version, put by the plain spec's principal or by another. -/
def version (version : String) (subject : String) : StoredAgent :=
  ⟨⟨⟨1⟩, version, "agent", "", [], []⟩, { (RunSpec.plain 1 ⟨8, 4⟩).owner with subject := subject }⟩

/-- Two principals race to put an agent, and the first puts it again. -/
theorem first_owner_keeps_raced : ∃ base : Base AgentId StoredAgent PutAgent Row,
    base.done.map Prod.snd = [.stored, .ownedByOther, .stored] ∧ base.rows ⟨1⟩ = some (version "2" "user-1") ∧
      base.rows ⟨1⟩ = (storedUnder ⟨1⟩ base.done).getLast? := by
  have hplayed : (Base.play putAgent (fun _ => none) [version "1" "user-1", version "1" "user-2", version "2" "user-1"]
      [0, 0, 0, 0, 0, 0, 0, 0]).map (fun base => (base.done.map Prod.snd, base.rows ⟨1⟩)) =
        some ([.stored, .ownedByOther, .stored], some (version "2" "user-1")) := by
    decide +kernel
  obtain ⟨base, hbase, hends⟩ := Option.map_eq_some_iff.mp hplayed
  obtain ⟨hanswers, hrow⟩ := Prod.mk.injEq .. ▸ hends
  exact ⟨base, hanswers, hrow, (first_owner_keeps (Base.Reach.play hbase)).1.row ⟨1⟩⟩

end AgentTable

end Gol
