import Gol.ServerTenants

/-! Every request tends to its principal: it makes its principal's calls only, and what it is answered is what the
principal is shown. A run, an agent or a trigger of another principal's is read as one that is missing. -/

namespace Gol
open Library

variable {holders : Holders} {k : Principal} {owner : Owner}

namespace Site

/-! ### Programs of the server -/

/-- A call of the server that finds nothing of another's. -/
abbrev Inward (holders : Holders) (k : Principal) (c : ServerCall) : Prop := Inner holders k (.server c)

theorem only_onServer {α : Type} {p : Prog ServerSig α} (h : p.Only (Inward holders k)) :
    (onServer p).Only (Inner holders k) := by
  induction p with
  | ret value => trivial
  | call c next ih => exact ⟨h.1, fun answer => ih answer (h.2 answer)⟩

theorem onServer_bind {α β : Type} (p : Prog ServerSig α) (f : α → Prog ServerSig β) :
    onServer (p.bind f) = (onServer p).bind fun value => onServer (f value) := by
  induction p with
  | ret value => rfl
  | call c next ih =>
      simp only [Prog.call_bind, onServer]
      congr 1
      funext answer
      exact ih answer

/-- The program makes the principal's calls only, and is answered from what the principal is shown. -/
abbrev Attends {α : Type} (holders : Holders) (k : Principal) (p : Prog RequestSig α) : Prop :=
  (tenancy holders).Tends k (fun _ => True) p

theorem tends_inner {α : Type} {p : Prog RequestSig α} (h : p.Only (Inner holders k)) : Attends holders k p :=
  Tenancy.tends_of_only (fun _ hinner => ⟨hinner.1, even_of_inner hinner⟩) h

theorem tends_onServer {α : Type} {p : Prog ServerSig α} (h : p.Only (Inward holders k)) :
    Attends holders k (onServer p) :=
  tends_inner (only_onServer h)

section Calls

variable {run : RunId}

theorem only_answerTries (hrun : holders.run run = k) (text : String) (tries : Nat) (asked : Option MessageId) :
    (answerTries run text tries asked).Only (Inward holders k) := by
  induction tries generalizing asked with
  | zero => trivial
  | succ tries ih =>
      refine ⟨⟨trivial, hrun⟩, fun answer => ?_⟩
      rcases answer with error | _ | stored
      · trivial
      · trivial
      · simp only
        split
        · trivial
        · split
          · trivial
          · refine ⟨⟨trivial, trivial⟩, fun stamps => ⟨⟨hrun, trivial⟩, fun answer => ?_⟩⟩
            rcases answer with error | done
            · trivial
            · cases done with
              | appended => exact ⟨⟨hrun, trivial⟩, fun _ => trivial⟩
              | moved => exact ih _
              | missing | terminal => trivial

theorem only_answerQuestion (hrun : holders.run run = k) (text : String) (asked : Option MessageId) :
    (answerQuestion run text asked).Only (Inward holders k) := by
  unfold answerQuestion
  simp only
  split
  · trivial
  · split
    · trivial
    · exact only_answerTries hrun _ _ _

theorem only_stopRun (parked : List (RunId × MessageId)) {stored : StoredRun}
    (hrun : holders.run stored.spec.runId = k) :
    (Gol.stopRun parked stored).Only (Inward holders k) := by
  unfold Gol.stopRun
  simp only
  split
  · trivial
  · refine ⟨⟨hrun, trivial⟩, fun answer => ?_⟩
    rcases answer with _ | error | covered
    · trivial
    · trivial
    · cases covered with
      | false => trivial
      | true =>
          refine ⟨⟨trivial, trivial⟩, fun stamps => ⟨⟨hrun, trivial⟩, fun answer => ?_⟩⟩
          rcases answer with error | done
          · trivial
          · cases done with
            | appended =>
                simp only
                split
                · trivial
                · refine ⟨⟨hrun, trivial⟩, fun answer => ?_⟩
                  cases answer <;> trivial
            | moved | missing | terminal => trivial

theorem only_stopRuns (parked : List (RunId × MessageId)) {runs : List StoredRun}
    (hruns : ∀ stored ∈ runs, holders.run stored.spec.runId = k) : (stopRuns parked runs).Only (Inward holders k) := by
  induction runs with
  | nil => trivial
  | cons stored rest ih =>
      rw [List.forall_mem_cons] at hruns
      exact (only_stopRun parked hruns.1).bind fun _ => (ih hruns.2).bind fun _ => trivial

theorem only_enqueue {spec : RunSpec} (hrun : holders.run spec.runId = k) (howner : principal spec.owner = k)
    (hparent : ∀ parent, spec.lineage.parent = some parent → holders.run parent = k) (origin : Origin)
    (onPushFailure : OnPushFailure) : (enqueue spec origin onPushFailure).Only (Inward holders k) := by
  have hend : ∀ message, (endRun spec message).Only (Inward holders k) := fun message =>
    ⟨⟨trivial, trivial⟩, fun stamps => ⟨⟨hrun, trivial⟩, fun _ => trivial⟩⟩
  refine ⟨⟨trivial, trivial⟩, fun stamps => ⟨⟨hrun, trivial⟩, fun answer => ?_⟩⟩
  cases answer with
  | error error => trivial
  | ok pending =>
      refine ⟨⟨⟨hrun, howner, hparent⟩, trivial⟩, fun answer => ?_⟩
      cases answer with
      | error error => exact (hend _).bind fun _ => trivial
      | ok put =>
          cases put with
          | existed => trivial
          | stored =>
              refine ⟨⟨hrun, trivial⟩, fun answer => ?_⟩
              cases answer with
              | ok pushed => trivial
              | error error =>
                  cases onPushFailure with
                  | endRun => exact (hend _).bind fun _ => trivial
                  | leaveToSweep => trivial

/-! ### Turns -/

variable {spec : RunSpec} (hrun : holders.run spec.runId = k)
include hrun

theorem only_endFailed (party : Party) (cls : FailureClass) (message : String) :
    (endFailed spec party cls message).Only (Inward holders k) :=
  ⟨⟨trivial, trivial⟩, fun _ => ⟨⟨hrun, trivial⟩, fun _ => trivial⟩⟩

omit hrun in
theorem only_recordTurn (hrun : holders.run run = k) (party : Party) (events : List Event) (outcome : TurnOutcome) :
    (recordTurn run party events outcome).Only (Inward holders k) := by
  refine ⟨⟨hrun, trivial⟩, fun answer => ?_⟩
  rcases answer with error | done
  · trivial
  · cases done <;> trivial

theorem only_completeTurn (events : List Event) (party : Party) :
    (completeTurn spec events party).Only (Inward holders k) := by
  have hdestroy : (if decide (spec.placement = .box) = true
      then .call (.host (.destroy (.container spec.runId) party)) .ret
      else .ret (.ok ()) : Prog ServerSig (Except String Unit)).Only (Inward holders k) := by
    split
    · exact ⟨⟨hrun, trivial⟩, fun _ => trivial⟩
    · trivial
  unfold completeTurn
  cases spec.workModel.credential with
  | bringYourOwn provider => trivial
  | platformGateway =>
      refine ⟨⟨hrun, trivial⟩, fun answer => ?_⟩
      cases answer with
      | error message =>
          refine hdestroy.bind fun gone => ?_
          cases gone with
          | error _ => trivial
          | ok _ => exact (only_endFailed hrun party _ _).bind fun _ => trivial
      | ok text =>
          refine hdestroy.bind fun gone => ?_
          cases gone with
          | error message => trivial
          | ok _ => exact ⟨⟨trivial, trivial⟩, fun _ => only_recordTurn hrun party _ _⟩

theorem only_finishTurn (events : List Event) (party : Party) :
    (finishTurn spec events party).Only (Inward holders k) := by
  unfold finishTurn
  split
  · refine ⟨⟨hrun, trivial⟩, fun answer => ?_⟩
    cases answer with
    | ok _ => exact only_completeTurn hrun events party
    | error message =>
        refine ⟨⟨hrun, trivial⟩, fun answer => ?_⟩
        rcases answer with error | absent
        · trivial
        · cases absent with
          | true => exact (only_endFailed hrun party _ _).bind fun _ => trivial
          | false => trivial
  · exact only_completeTurn hrun events party

theorem only_openTurn (howner : principal spec.owner = k)
    (hparent : ∀ parent, spec.lineage.parent = some parent → holders.run parent = k) :
    (openTurn spec).Only (Inward holders k) := by
  refine ⟨⟨trivial, trivial⟩, fun stamps => ⟨⟨⟨hrun, howner, hparent⟩, trivial⟩, fun answer => ?_⟩⟩
  cases answer with
  | error error => trivial
  | ok put => exact only_finishTurn hrun _ .request

end Calls

/-! ### Reads that may find another's -/

theorem held_run {s : Site} (h : s.Held holders) {id : RunId} {stored : StoredRun}
    (hstored : s.server.store.runs id = some stored) :
    principal stored.spec.owner = holders.run id ∧ stored.spec.runId = id :=
  ⟨h.runs.held id stored hstored, h.runs.arranged.numbered.id id stored hstored⟩

/-- A read shows its caller the runs of the caller's principal only. -/
theorem mine_eq {s t : Site} (hs : s.Held holders) (ht : t.Held holders)
    (h : Shows holders (principal owner) s t) (id : RunId) :
    ((s.server.store.runs id).filter fun run => run.spec.owner.is owner) =
      (t.server.store.runs id).filter fun run => run.spec.owner.is owner := by
  by_cases hid : holders.run id = principal owner
  · exact congrArg (Option.filter _) (h.runs.runs id hid)
  · have hnone : ∀ u : Site, u.Held holders →
        ((u.server.store.runs id).filter fun run => run.spec.owner.is owner) = none := by
      intro u hu
      refine Option.filter_eq_none_iff.mpr fun run hrun his => hid ?_
      rw [← (held_run hu hrun).1]
      exact Owner.is_iff.mp his
    rw [hnone s hs, hnone t ht]

theorem minePage_eq {s t : Site} (hs : s.Held holders) (ht : t.Held holders) (h : Shows holders (principal owner) s t)
    (id : RunId)
    (after limit : Nat) :
    ((s.server.store.runPage id after limit).filter fun run => run.spec.owner.is owner) =
      (t.server.store.runPage id after limit).filter fun run => run.spec.owner.is owner := by
  simp only [LogStore.runPage, Option.filter_map]
  exact congrArg (Option.map _) (mine_eq hs ht h id)

/-- The run that an owned read finds is held by the caller's principal. -/
def FoundHeld (holders : Holders) (owner : Owner) (id : RunId) (result : Except HttpError StoredRun) : Prop :=
  ∀ run, result = .ok run → holders.run id = principal owner

/-- What an owned read does with its answer. -/
def ownedAnswer (owner : Owner) (answer : Except StoreError (Option StoredRun)) :
    Prog RequestSig (Except HttpError StoredRun) :=
  Http.owned owner (.ret answer)

theorem ownedAnswer_eq {found found' : Option StoredRun} (h : (found.filter fun run => run.spec.owner.is owner) =
    found'.filter fun run => run.spec.owner.is owner) : ownedAnswer owner (.ok found) =
      ownedAnswer owner (.ok found') := by
  simp only [ownedAnswer, Http.owned, Prog.ret_bind, h]

theorem tends_ownedAnswer {id : RunId} {answer : Except StoreError (Option StoredRun)}
    (h : ∀ run, answer = .ok (some run) → principal run.spec.owner = holders.run id) :
    (tenancy holders).Tends k (FoundHeld holders owner id) (ownedAnswer owner answer) := by
  have hrefused : ∀ error, FoundHeld holders owner id (.error error) := fun _ _ heq => by cases heq
  cases answer with
  | error error => exact Tenancy.tends_ret (hrefused _)
  | ok found =>
      simp only [ownedAnswer, Http.owned, Prog.ret_bind]
      split
      · next run hfound =>
          obtain ⟨hfound, his⟩ := Option.filter_eq_some_iff.mp hfound
          refine Tenancy.tends_ret fun _ _ => ?_
          rw [← h run (by rw [hfound])]
          exact Owner.is_iff.mp his
      · exact Tenancy.tends_ret (hrefused _)

/-- An answer that a program can be given. -/
def Given (s : Site) (c : RequestCall) (answer : c.Answer) : Prop := (∃ now, s.Answers now c answer) ∨ Fails c answer

theorem Step.given {s u : Site} {c : RequestCall} {answer : c.Answer} (h : s.Step c answer u) : s.Given c answer := by
  cases h with
  | done now h => exact .inl ⟨now, h⟩
  | lost now h | failed h => exact .inr h

/-- A call whose answers may differ between sites that show the principal the same, but not what is made of them. -/
theorem tends_read {α : Type} {post : α → Prop} {c : RequestCall} {next : c.Answer → Prog RequestSig α}
    (hown : Own holders k c) (hdraws : ∀ answer, Draws holders k c answer)
    (hmasked : ∀ s t now answer, Held holders s → Held holders t → Shows holders k s t → s.Answers now c answer →
      ∃ answer', t.Answers now c answer' ∧ next answer' = next answer)
    (hnext : ∀ s answer, Held holders s → s.Given c answer → (tenancy holders).Tends k post (next answer)) :
    (tenancy holders).Tends k post (.call c next) := by
  refine Tenancy.tends_masked hown ?_ ?_
  · rintro s t hs ht hshows answer u ⟨hstep, hdrawn⟩
    cases hstep with
    | done now h =>
        obtain ⟨answer', h', heq⟩ := hmasked s t now answer hs ht hshows h
        exact ⟨answer', _, ⟨.done now h', hdraws answer'⟩, hshows.after hs ht hown, heq⟩
    | lost now h => exact ⟨answer, _, ⟨.lost now h, hdrawn⟩, hshows.after hs ht hown, rfl⟩
    | failed h => exact ⟨answer, t, ⟨.failed h, hdrawn⟩, hshows, rfl⟩
  · exact fun s answer u hs hstep => hnext s answer hs hstep.1.given

theorem tends_own {α : Type} {post : α → Prop} {c : RequestCall} {next : c.Answer → Prog RequestSig α}
    (hinner : Inner holders k c)
    (hnext : ∀ s answer, Held holders s → s.Given c answer → (tenancy holders).Tends k post (next answer)) :
    (tenancy holders).Tends k post (.call c next) :=
  Tenancy.tends_even hinner.1 (even_of_inner hinner) fun s answer _ hs hstep => hnext s answer hs hstep.1.given

/-- The message ids that a program draws are its principal's. -/
theorem tends_stamps {α : Type} {post : α → Prop} {next : (Nat → Stamp) → Prog RequestSig α}
    (hnext : ∀ stamps : Nat → Stamp, (∀ n, holders.message (stamps n).messageId = k) →
      (tenancy holders).Tends k post (next stamps)) :
    (tenancy holders).Tends k post (.call (.server (.outside .stamps)) next) := by
  have hinner : Inner holders k (.server (.outside .stamps)) := ⟨trivial, trivial⟩
  exact Tenancy.tends_even hinner.1 (even_of_inner hinner) fun s stamps _ _ hstep => hnext stamps hstep.2

theorem Given.run {s : Site} {id : RunId} {found : Option StoredRun}
    (h : s.Given (.server (.store (.run id))) (.ok found)) :
    found = s.server.store.runs id := by
  rcases h with ⟨now, h⟩ | h
  · cases h with
    | server _ h =>
        cases h
        rfl
  · cases h with
    | server h => cases h

theorem Given.runPage {s : Site} {id : RunId} {after limit : Nat} {found : Option StoredRun}
    (h : s.Given (.runPage id after limit) (.ok found)) : found = s.server.store.runPage id after limit := by
  rcases h with ⟨now, h⟩ | h
  · cases h
    rfl
  · cases h

theorem Given.openRunsUnder {s : Site} {scope : StopScope} {runs : List StoredRun}
    (h : s.Given (.server (.control (.openRunsUnder owner scope))) (some (.ok runs))) :
    runs = s.threads.stops.openRunsUnder s.threads.logs.runs owner scope := by
  rcases h with ⟨now, h⟩ | h
  · cases h with
    | server _ h =>
        cases h
        rfl
  · cases h with
    | server h => cases h

theorem Given.runsOfThread {s : Site} {thread : String} {limit : Nat} {runs : List StoredRun}
    (h : s.Given (.threads (.runs owner thread limit)) (some (.ok runs))) :
    runs = s.threads.runsOfThread owner thread limit := by
  rcases h with ⟨now, h⟩ | h
  · cases h
    rfl
  · cases h

theorem tends_ownedRun (owner : Owner) (id : RunId) :
    (tenancy holders).Tends (principal owner) (FoundHeld holders owner id) (Http.ownedRun owner id) := by
  change (tenancy holders).Tends _ _ (.call (.server (.store (.run id))) (ownedAnswer owner))
  refine tends_read trivial (fun _ => trivial) ?_ ?_
  · intro s t now answer hs ht hshows h
    cases h with
    | server _ h =>
        cases h
        exact ⟨_, .server (fun _ heq => by cases heq) (.store (.run id)), ownedAnswer_eq (mine_eq hs ht hshows id).symm⟩
  · intro s answer hs h
    refine tends_ownedAnswer fun run heq => ?_
    subst heq
    exact (held_run hs h.run.symm).1

theorem tends_ownedRunPage (owner : Owner) (id : RunId) (after limit : Nat) :
    (tenancy holders).Tends (principal owner) (FoundHeld holders owner id)
      (Http.ownedRunPage owner id after limit) := by
  change (tenancy holders).Tends _ _ (.call (.runPage id after limit) (ownedAnswer owner))
  refine tends_read trivial (fun _ => trivial) ?_ ?_
  · intro s t now answer hs ht hshows h
    cases h
    exact ⟨_, .runPage id after limit, ownedAnswer_eq (minePage_eq hs ht hshows id after limit).symm⟩
  · intro s answer hs h
    refine tends_ownedAnswer fun run heq => ?_
    subst heq
    obtain ⟨stored, hstored, rfl⟩ := Option.map_eq_some_iff.mp h.runPage.symm
    exact (held_run hs hstored).1

/-- An agent of the caller's principal's is read alike, and no other is found. -/
theorem ownAgent_eq {s t : Site} (hs : s.Held holders) (ht : t.Held holders) (h : Shows holders (principal owner) s t)
    (id : AgentId) :
    ((s.agents id).filter fun agent => agent.owner.is owner) = (t.agents id).filter fun agent =>
      agent.owner.is owner := by
  by_cases hid : holders.agent id = principal owner
  · exact congrArg (Option.filter _) (h.agents id hid)
  · have hnone : ∀ u : Site, u.Held holders → ((u.agents id).filter fun agent => agent.owner.is owner) = none := by
      intro u hu
      refine Option.filter_eq_none_iff.mpr fun agent hagent his => hid ?_
      rw [← hu.agents id agent hagent]
      exact Owner.is_iff.mp his
    rw [hnone s hs, hnone t ht]

/-- A read of an agent of which its caller sees its own only, and of another's that it is there. -/
theorem tends_agent {α : Type} {post : α → Prop} {owner : Owner} {id : AgentId}
    {next : Except StoreError (Option StoredAgent) → Prog RequestSig α}
    (hmasked : ∀ found found' : Option StoredAgent, (found.filter fun agent => agent.owner.is owner) =
      (found'.filter fun agent => agent.owner.is owner) → found.isSome = found'.isSome →
        next (.ok found) = next (.ok found'))
    (hnext : ∀ answer, (tenancy holders).Tends (principal owner) post (next answer)) :
    (tenancy holders).Tends (principal owner) post (.call (.server (.outside (.agent id))) next) := by
  refine tends_read trivial (fun _ => trivial) ?_ fun _ answer _ _ => hnext answer
  intro s t now answer hs ht hshows h
  cases h with
  | server helse _ => exact absurd (helse _ rfl) Bool.true_eq_false.mp
  | kept h =>
      cases h
      exact ⟨_, .kept (.agent id), (hmasked _ _ (ownAgent_eq hs ht hshows id) (hshows.taken id)).symm⟩

/-- A read of an agent whose caller makes the same of all agents of others. -/
theorem tends_agent_of_foreign {α : Type} {post : α → Prop} {owner : Owner} {id : AgentId}
    {next : Except StoreError (Option StoredAgent) → Prog RequestSig α}
    (hforeign : ∀ agent agent' : StoredAgent, agent.owner.is owner = false → agent'.owner.is owner = false →
      next (.ok (some agent)) = next (.ok (some agent')))
    (hnext : ∀ answer, (tenancy holders).Tends (principal owner) post (next answer)) :
    (tenancy holders).Tends (principal owner) post (.call (.server (.outside (.agent id))) next) := by
  refine tends_agent (fun found found' heq hsome => ?_) hnext
  cases found with
  | none =>
      cases found' with
      | none => rfl
      | some agent' => cases hsome
  | some agent =>
      cases found' with
      | none => cases hsome
      | some agent' =>
          cases his : agent.owner.is owner with
          | true =>
              have hkept : (some agent').filter (fun agent => agent.owner.is owner) = some agent := by
                rw [← heq]
                exact Option.filter_some_pos his
              rw [(Option.filter_eq_some_iff.mp hkept).1]
          | false =>
              cases his' : agent'.owner.is owner with
              | true => simp [Option.filter, his, his'] at heq
              | false => exact hforeign agent agent' his his'

/-! ### Steps of a request -/

theorem tends_andThen {α β : Type} {post : Except HttpError α → Prop} {p : Prog RequestSig (Except HttpError α)}
    {f : α → Prog RequestSig (Except HttpError β)} (h : (tenancy holders).Tends k post p)
    (hf : ∀ value, post (.ok value) → Attends holders k (f value)) : Attends holders k (andThen p f) := by
  refine h.bind fun result hresult => ?_
  cases result with
  | ok value => exact hf value hresult
  | error error => exact Tenancy.tends_ret trivial

theorem tends_ofApi {α : Type} {p : Prog ServerSig (Except ApiError α)}
    (h : Attends holders k (onServer p)) : Attends holders k (ofApi p) :=
  h.bind fun _ _ => Tenancy.tends_ret trivial

theorem tends_ofTurn {α : Type} {p : Prog ServerSig (Except TurnError α)}
    (h : Attends holders k (onServer p)) : Attends holders k (ofTurn p) :=
  h.bind fun _ _ => Tenancy.tends_ret trivial

theorem tends_refuse {α : Type} (error : ApiError) : Attends holders k
    (refuse error : Prog RequestSig (Except HttpError α)) :=
  Tenancy.tends_ret trivial

theorem tends_respond (status : Nat) (body : Body) : Attends holders k (respondWith status body) :=
  Tenancy.tends_ret trivial

/-- A request that reads one of its caller's runs, and goes on from it. -/
theorem tends_onRun {id : RunId} {read : Prog RequestSig (Except HttpError StoredRun)} {f : StoredRun → Handled}
    (hread : (tenancy holders).Tends (principal owner) (FoundHeld holders owner id) read)
    (hf : ∀ run, holders.run id = principal owner → Attends holders (principal owner) (f run)) :
    Attends holders (principal owner) (andThen read f) :=
  tends_andThen hread fun run hrun => hf run (hrun run rfl)

end Site

open Site

namespace Http

/-! ### Runs -/

theorem tends_getRun (owner : Owner) (id : RunId) : Attends holders (principal owner) (getRun owner id) :=
  tends_onRun (tends_ownedRun owner id) fun _ _ => tends_respond _ _

theorem tends_getEvents (owner : Owner) (id : RunId) (after : Nat) (limit : Option Nat) :
    Attends holders (principal owner) (getEvents owner id after limit) := by
  unfold getEvents
  simp only
  split
  · exact tends_refuse _
  · exact tends_onRun (tends_ownedRunPage owner id after _) fun _ _ => tends_respond _ _

theorem tends_getAgUi (owner : Owner) (id : RunId) : Attends holders (principal owner)
    (getAgUi owner id) :=
  tends_onRun (tends_ownedRun owner id) fun _ _ => tends_respond _ _

theorem tends_getUi (owner : Owner) (id : RunId) : Attends holders (principal owner) (getUi owner id) :=
  tends_onRun (tends_ownedRun owner id) fun _ _ => tends_respond _ _

theorem tends_takeStream (owner : Owner) (opened : Body) : Attends holders (principal owner)
    (.call (.takeStream owner) fun (free : Bool) => if free then respond opened
      else .ret (.error .tooManyStreams) : Handled) := by
  refine tends_own ⟨rfl, trivial⟩ fun s free _ _ => ?_
  cases free with
  | true => exact tends_respond _ _
  | false => exact Tenancy.tends_ret trivial

theorem tends_getStream (outbox : Bool) (owner : Owner) (resume : Option Nat) :
    Attends holders (principal owner) (getStream outbox owner resume) := by
  unfold getStream
  split
  · exact Tenancy.tends_ret trivial
  · exact tends_takeStream owner _

theorem tends_getRunStream (owner : Owner) (id : RunId) (resume : Option Nat) :
    Attends holders (principal owner) (getRunStream owner id resume) := by
  refine tends_onRun (tends_ownedRunPage owner id _ 1) fun page _ => ?_
  have hopened : Attends holders (principal owner) _ := tends_takeStream owner (.stream id (resume.getD 0))
  simp only
  split
  · exact hopened
  · split
    · split
      · exact tends_respond _ _
      · exact hopened
    · exact tends_refuse _

theorem tends_replyRun (owner : Owner) (id : RunId) (text : String) (question : Option MessageId) :
    Attends holders (principal owner) (replyRun owner id text question) := by
  refine tends_onRun (tends_ownedRunPage owner id 0 1) fun _ hid => ?_
  exact tends_andThen (tends_ofApi (tends_onServer (only_answerQuestion hid text question)))
    fun _ _ => tends_respond _ _

/-- The turn that a request may end is the one it names. -/
theorem tends_subscriptionTurn {id : RunId} (hid : holders.run id = k) (refusal : String) :
    (tenancy holders).Tends k (fun result => ∀ stored, result = .ok stored → stored.spec.runId = id)
      (onServer (subscriptionTurn id refusal)) := by
  refine tends_own ⟨trivial, hid⟩ fun s answer hs h => ?_
  rcases answer with error | _ | stored
  · exact Tenancy.tends_ret fun _ heq => by cases heq
  · exact Tenancy.tends_ret fun _ heq => by cases heq
  · simp only
    split
    · exact Tenancy.tends_ret fun _ heq => by cases heq
    · refine Tenancy.tends_ret fun turn heq => ?_
      obtain rfl : stored = turn := by
        cases hcheck : checkOpenTurn stored with
        | error error =>
            rw [hcheck] at heq
            cases heq
        | ok _ =>
            rw [hcheck] at heq
            exact Except.ok.inj heq
      exact (held_run hs (Given.run h).symm).2

theorem tends_acceptSubscriptionCompletion {id : RunId} (hid : holders.run id = k) (text : String) :
    Attends holders k (onServer (acceptSubscriptionCompletion id text)) := by
  unfold acceptSubscriptionCompletion
  simp only
  split
  · exact Tenancy.tends_ret trivial
  · rw [onServer_bind]
    refine (tends_subscriptionTurn hid _).bind fun result hresult => tends_onServer ?_
    cases result with
    | error error => trivial
    | ok stored =>
        have hrun : holders.run stored.spec.runId = k := by rw [hresult stored rfl, hid]
        have hrecord : ∀ (text : String) (outcome : (Nat → Stamp) → TurnOutcome),
            (.call (.outside .stamps) fun stamps =>
            recordTurn stored.spec.runId .request (completionEvents stored.spec stamps text) (outcome stamps) :
              Prog ServerSig (Except TurnError TurnOutcome)).Only (Inward holders k) :=
          fun text outcome => ⟨⟨trivial, trivial⟩, fun _ => Site.only_recordTurn hrun _ _ _⟩
        simp only
        split
        · refine ⟨⟨hrun, trivial⟩, fun answer => ?_⟩
          rcases answer with message | gone
          · trivial
          · cases gone with
            | true => trivial
            | false =>
                refine ⟨⟨hrun, trivial⟩, fun answer => ?_⟩
                cases answer with
                | error message => trivial
                | ok _ => exact hrecord _ _
        · exact hrecord _ _

theorem tends_completeCoworkerTurn (launchesDocker : Bool) (owner : Owner) (id : RunId) (text : String) :
    Attends holders (principal owner) (completeCoworkerTurn launchesDocker owner id text) := by
  refine tends_onRun (tends_ownedRun owner id) fun _ hid => ?_
  exact tends_andThen (tends_ofTurn (tends_acceptSubscriptionCompletion hid text)) fun _ _ => tends_respond _ _

theorem tends_failTurn {id : RunId} (hid : holders.run id = k) (message : String) :
    Attends holders k (onServer (failTurn id message)) := by
  unfold failTurn
  simp only
  split
  · exact Tenancy.tends_ret trivial
  · rw [onServer_bind]
    refine (tends_subscriptionTurn hid _).bind fun result hresult => tends_onServer ?_
    cases result with
    | error error => trivial
    | ok stored =>
        have hrun : holders.run stored.spec.runId = k := by rw [hresult stored rfl, hid]
        have hrecord : ∀ (message : String) (outcome : (Nat → Stamp) → TurnOutcome),
            (.call (.outside .stamps) fun stamps =>
            recordTurn id .request [runFailedEvent stored.spec stamps .dependency message] (outcome stamps) :
              Prog ServerSig (Except TurnError TurnOutcome)).Only (Inward holders k) :=
          fun message outcome => ⟨⟨trivial, trivial⟩, fun _ => Site.only_recordTurn hid _ _ _⟩
        simp only
        split
        · refine ⟨⟨hrun, trivial⟩, fun answer => ?_⟩
          rcases answer with message | gone
          · trivial
          · cases gone with
            | true => exact hrecord _ _
            | false =>
                refine ⟨⟨hrun, trivial⟩, fun answer => ?_⟩
                cases answer with
                | error message => trivial
                | ok _ => exact hrecord _ _
        · exact hrecord _ _

theorem tends_failCoworkerTurn (launchesDocker : Bool) (owner : Owner) (id : RunId) (message : String) :
    Attends holders (principal owner) (failCoworkerTurn launchesDocker owner id message) := by
  refine tends_onRun (tends_ownedRun owner id) fun _ hid => ?_
  exact tends_andThen (tends_ofTurn (tends_failTurn hid message)) fun _ _ => tends_respond _ _

/-! ### New runs -/

/-- What a request's run is, where one is built. -/
theorem buildSpec_ok {id : RunId} {core : SpecCore} {capabilities : List Capability} {spec : RunSpec}
    (h : buildSpec owner id core capabilities = .ok spec) :
    spec.runId = id ∧ spec.owner = owner ∧ ∀ parent, spec.lineage.parent = some parent →
      holders.run parent = principal owner := by
  unfold buildSpec at h
  simp only at h
  split at h
  · cases h
  · split at h
    · cases h
    · split at h
      · cases h
      · split at h <;> cases h
        exact ⟨rfl, rfl, fun _ hparent => by cases hparent⟩

theorem tends_queueRun {spec : RunSpec} (hrun : holders.run spec.runId = k) (howner : principal spec.owner = k)
    (hparent : ∀ parent, spec.lineage.parent = some parent → holders.run parent = k) :
    Attends holders k (queueRun spec) :=
  (tends_onServer (Site.only_enqueue hrun howner hparent .request .endRun)).bind fun _ _ => Tenancy.tends_ret trivial

theorem tends_ownedAgent (owner : Owner) (id : AgentId) : Attends holders (principal owner) (ownedAgent owner id) := by
  refine tends_agent (fun found found' heq _ => ?_) fun answer => ?_
  · simp only [heq]
  · cases answer with
    | error error => exact tends_refuse _
    | ok found =>
        simp only
        split
        · exact Tenancy.tends_ret trivial
        · exact tends_refuse _

theorem tends_startRun {id : RunId} (hid : holders.run id = principal owner) (body : SpecCore) :
    Attends holders (principal owner) (startRun owner id body) := by
  refine tends_andThen (tends_ownedAgent owner body.agentId) fun agent _ => ?_
  split
  · exact tends_refuse _
  · split
    · exact tends_refuse _
    · next spec hspec =>
        obtain ⟨hrun, howner, hparent⟩ := buildSpec_ok hspec
        refine tends_own ⟨trivial, trivial⟩ fun s stamps _ _ => ?_
        refine tends_andThen (tends_queueRun (by rw [hrun, hid]) (by rw [howner]) hparent) fun _ _ => ?_
        exact Tenancy.tends_ret trivial

theorem tends_createRun {id : RunId} (hid : holders.run id = principal owner) (body : SpecCore) :
    Attends holders (principal owner) (createRun owner id body) :=
  tends_andThen (tends_startRun hid body) fun _ _ => tends_respond _ _

theorem tends_backgroundTurn {id : RunId} (hid : holders.run id = principal owner) (body : SpecCore)
    (capabilities : List Capability) :
    Attends holders (principal owner) (backgroundTurn owner id body capabilities) := by
  unfold backgroundTurn
  split
  · exact tends_refuse _
  · split
    · exact tends_refuse _
    · next spec hspec =>
        obtain ⟨hrun, howner, hparent⟩ := buildSpec_ok hspec
        have hqueued : Attends holders (principal owner)
            (queueRun { spec with metadata := (turnKey, "1") :: spec.metadata }) :=
          tends_queueRun (hrun ▸ hid) (howner ▸ rfl) hparent
        exact tends_andThen hqueued fun _ _ => tends_respond _ _

theorem tends_createCoworkerTurn (launchesDocker : Bool) {id : RunId}
    (hid : holders.run id = principal owner) (body : SpecCore)
    (capabilities : List Capability) :
    Attends holders (principal owner) (createCoworkerTurn launchesDocker owner id body capabilities) := by
  unfold createCoworkerTurn
  split
  · exact tends_refuse _
  · next spec hspec =>
      obtain ⟨hrun, howner, hparent⟩ := buildSpec_ok hspec
      have hopened : Attends holders (principal owner) (onServer (openTurn spec)) :=
        tends_onServer (only_openTurn (hrun ▸ hid) (howner ▸ rfl) hparent)
      exact tends_andThen (tends_ofTurn hopened) fun _ _ => tends_respond _ _

theorem tends_createAgent {manifest : AgentManifest} (hid : holders.agent manifest.id = principal owner) :
    Attends holders (principal owner) (createAgent owner manifest) := by
  refine tends_own ⟨⟨rfl, hid⟩, trivial⟩ fun s answer _ _ => ?_
  rcases answer with error | put
  · exact tends_refuse _
  · cases put with
    | stored => exact tends_respond _ _
    | ownedByOther => exact tends_refuse _

/-! ### Stops -/

/-- A stop once it is recorded, and the parked runs are read. -/
def cancelling (owner : Owner) (scope : StopScope) (parked : Except String (List (RunId × MessageId))) :
    Prog ServerSig (Except ApiError (List RunId)) :=
  .call (.control (.openRunsUnder owner scope)) fun
    | some (.ok (runs : List StoredRun)) =>
        (stopRuns (match parked with
          | .ok (parked : List (RunId × MessageId)) => parked
          | .error _ => []) runs).bind fun done =>
        .ret (if done.2 || parked.toOption.isNone then .error (.store "a stop could not cancel every run")
          else .ok done.1)
    | some (.error error) => .ret (.error (.store error.message))
    | none => .ret (.error .noStops)

theorem stopRuns_congr {parked parked' : List (RunId × MessageId)} {runs : List StoredRun}
    (h : ∀ run ∈ runs, parked.lookup run.spec.runId = parked'.lookup run.spec.runId) :
    stopRuns parked runs = stopRuns parked' runs := by
  induction runs with
  | nil => rfl
  | cons run rest ih =>
      rw [List.forall_mem_cons] at h
      have hrun : Gol.stopRun parked run = Gol.stopRun parked' run := by simp only [Gol.stopRun, h.1]
      rw [stopRuns, stopRuns, hrun, ih h.2]

theorem tends_cancelling (owner : Owner) (scope : StopScope) (parked : Except String (List (RunId × MessageId))) :
    Attends holders (principal owner) (onServer (cancelling owner scope parked)) := by
  refine tends_own ⟨rfl, trivial⟩ fun s answer hs h => ?_
  rcases answer with _ | error | runs
  · exact Tenancy.tends_ret trivial
  · exact Tenancy.tends_ret trivial
  · refine tends_onServer (Prog.Only.bind (only_stopRuns _ fun run hmem => ?_) fun _ => trivial)
    rw [h.openRunsUnder] at hmem
    exact hs.runs.openRunsUnder_held hmem

/-- Of the parked runs a stop uses those of its principal's only. -/
theorem follows_cancelling (owner : Owner) (scope : StopScope) {parked parked' : List (RunId × MessageId)}
    (h : ∀ id, holders.run id = principal owner → parked.lookup id = parked'.lookup id) :
    (tenancy holders).Follows (principal owner) (onServer (cancelling owner scope (.ok parked)))
      (onServer (cancelling owner scope (.ok parked'))) := by
  refine ⟨_, rfl, fun s t hs ht hshows answer u hstep => ?_⟩
  have hinner : Inner holders (principal owner) (.server (.control (.openRunsUnder owner scope))) := ⟨rfl, trivial⟩
  obtain ⟨v, hstep', hsame⟩ := even_of_inner hinner s t hs ht hshows answer u hstep
  refine ⟨answer, v, hstep', hsame, ?_⟩
  obtain _ | error | (runs : List StoredRun) := answer
  · rfl
  · rfl
  · have hheld : ∀ run ∈ runs, holders.run run.spec.runId = principal owner := by
      intro run hmem
      rw [hstep.1.given.openRunsUnder] at hmem
      exact hs.runs.openRunsUnder_held hmem
    have heq : stopRuns parked runs = stopRuns parked' runs := stopRuns_congr fun run hmem => h _ (hheld run hmem)
    change (tenancy holders).Follows _ (onServer ((stopRuns parked runs).bind fun done => .ret _))
      (onServer ((stopRuns parked' runs).bind fun done => .ret _))
    rw [heq]
    refine Tenancy.Tends.follows (tends_onServer (Prog.Only.bind (only_stopRuns _ hheld) fun _ => ?_))
    trivial

theorem tends_stop (owner : Owner) (scope : StopScope) :
    Attends holders (principal owner) (onServer (Gol.stop owner scope)) := by
  have hparked : Attends holders (principal owner)
      (.call (.server (.queue .parked)) fun parked => onServer (cancelling owner scope parked)) := by
    refine ⟨⟨trivial, fun s parked t _ _ => (tends_cancelling owner scope parked).keeps⟩, _, rfl, ?_⟩
    rintro s t hs ht hshows parked u ⟨hstep, -⟩
    cases hstep with
    | done now h =>
        cases h with
        | server helse h =>
            cases h
            exact ⟨_, _, ⟨.done now (.server helse (.queue .parked)), trivial⟩, hshows.after hs ht trivial,
              follows_cancelling owner scope fun id hid => hshows.queue.parked id (owns_eq_true hid)⟩
    | lost now h =>
        exact ⟨parked, _, ⟨.lost now h, trivial⟩, hshows.after hs ht trivial,
          (tends_cancelling owner scope parked).follows⟩
    | failed h => exact ⟨parked, t, ⟨.failed h, trivial⟩, hshows, (tends_cancelling owner scope parked).follows⟩
  refine tends_own (c := .server (.control (.putStop owner scope))) ⟨rfl, trivial⟩ fun s answer _ _ => ?_
  rcases answer with _ | error | _
  · exact Tenancy.tends_ret trivial
  · exact Tenancy.tends_ret trivial
  · exact hparked

theorem tends_stopRun (owner : Owner) (id : RunId) : Attends holders (principal owner) (stopRun owner id) :=
  tends_onRun (tends_ownedRunPage owner id 0 1) fun _ _ =>
    tends_andThen (tends_ofApi (tends_stop owner _)) fun _ _ => tends_respond _ _

theorem tends_stopOwner (owner : Owner) : Attends holders (principal owner) (stopOwner owner) := by
  refine tends_andThen (tends_ofApi ?_) fun _ _ => tends_respond _ _
  refine tends_own (c := .server (.control (.pauseTriggers owner))) ⟨rfl, trivial⟩ fun s paused _ _ => ?_
  rw [onServer_bind]
  refine (tends_stop owner .owner).bind fun result _ => ?_
  cases result with
  | error error => exact Tenancy.tends_ret trivial
  | ok cancelled => exact Tenancy.tends_ret trivial

/-! ### Threads -/

theorem tends_readThreads {c : ThreadCall} (hown : Own holders k (.threads c)) :
    (tenancy holders).Tends k (fun result => ∀ value, result = .ok value → ∃ s : Site, s.Held holders ∧
      s.Given (.threads c) (some (.ok value))) (readThreads c) := by
  refine tends_own ⟨hown, trivial⟩ fun s answer hs h => ?_
  rcases answer with _ | error | value
  · exact Tenancy.tends_ret fun _ heq => by cases heq
  · exact Tenancy.tends_ret fun _ heq => by cases heq
  · refine Tenancy.tends_ret fun read heq => ⟨s, hs, ?_⟩
    rw [← Except.ok.inj heq]
    exact h

theorem tends_createThread {id : RunId} (hid : holders.run id = principal owner) (thread : String) (body : SpecCore) :
    Attends holders (principal owner) (createThread owner id thread body) := by
  unfold createThread
  split
  · exact tends_refuse _
  · exact tends_andThen (tends_startRun hid _) fun _ _ => tends_respond _ _

theorem tends_listThreads (owner : Owner) (after limit : Option Nat) :
    Attends holders (principal owner) (listThreads owner after limit) := by
  unfold listThreads
  split
  · exact tends_refuse _
  · exact tends_andThen (tends_readThreads rfl) fun _ _ => tends_respond _ _

theorem tends_getBoard (owner : Owner) (thread : String) (after limit : Option Nat) (wanted : Option CardState) :
    Attends holders (principal owner) (getBoard owner thread after limit wanted) := by
  unfold getBoard
  split
  · exact tends_refuse _
  · refine tends_andThen (tends_readThreads rfl) fun runs _ => ?_
    split
    · exact Tenancy.tends_ret trivial
    · exact tends_respond _ _

theorem tends_stopThread (owner : Owner) (thread : String) :
    Attends holders (principal owner) (stopThread owner thread) := by
  have hstopped : Attends holders (principal owner)
      (andThen (ofApi (Gol.stop owner (.thread thread))) fun cancelled => respond (.cancelled cancelled)) :=
    tends_andThen (tends_ofApi (tends_stop owner _)) fun _ _ => tends_respond _ _
  refine tends_andThen (tends_readThreads rfl) fun root _ => ?_
  simp only
  split
  · exact hstopped
  · refine tends_own ⟨rfl, trivial⟩ fun s answer _ _ => ?_
    rcases answer with _ | error | runs
    · exact Tenancy.tends_ret trivial
    · exact tends_refuse _
    · simp only
      split
      · exact Tenancy.tends_ret trivial
      · exact hstopped

theorem whichTask_mem {waiting : List WaitingTask} {input text : String} {task : WaitingTask}
    (h : whichTask waiting input = .ok (task, text)) : task ∈ waiting := by
  unfold whichTask at h
  split at h
  · split at h
    · next task' hfind =>
        cases h
        exact List.mem_of_find?_eq_some hfind
    · cases h
  · split at h
    · cases h
      exact List.mem_singleton_self _
    · cases h

theorem tends_followUp {id : RunId} (hid : holders.run id = principal owner) (thread input : String)
    (limits : Option Limits) :
    Attends holders (principal owner) (followUp owner id thread input limits) := by
  refine tends_andThen (tends_readThreads rfl) fun root _ => ?_
  cases root with
  | none => exact Tenancy.tends_ret trivial
  | some root =>
      refine tends_agent (fun found found' heq _ => ?_) fun answer => ?_
      · simp only [heq]
      · cases answer with
        | error error => exact tends_refuse _
        | ok agent =>
            refine tends_andThen (tends_readThreads rfl) fun runs hruns => ?_
            split
            · split
              · exact tends_refuse _
              · exact tends_andThen (tends_startRun hid _) fun _ _ => tends_respond _ _
            · split
              · exact Tenancy.tends_ret trivial
              · next task text htask =>
                  split
                  · exact tends_refuse _
                  · have hheld : holders.run task.runId = principal owner := by
                      obtain ⟨s, hs, hgiven⟩ := hruns runs rfl
                      obtain ⟨at_, run, hrun, -, -, heq⟩ := mem_waitingOnUser.mp (whichTask_mem htask)
                      have hmem := List.mem_of_getElem? hrun
                      rw [hgiven.runsOfThread] at hmem
                      rw [heq]
                      exact hs.runs.runsOfThread_held hmem
                    exact tends_andThen (tends_ofApi (tends_onServer (only_answerQuestion hheld _ _)))
                      fun _ _ => tends_respond _ _

/-! ### Triggers -/

theorem only_firstTick (nextTick : NextTick) (kind : TriggerKind) :
    (firstTick nextTick kind).Only (Inward holders k) := by
  cases kind with
  | schedule cron timeZone => exact ⟨⟨trivial, trivial⟩, fun _ => trivial⟩
  | webhook rotation => trivial

theorem tends_createTrigger (config : TriggerConfig) (new : StoredTrigger) :
    Attends holders (principal new.owner) (createTrigger config new) := by
  have hcreated : Attends holders (principal new.owner) (onServer (Gol.createTrigger config.nextTick new)) := by
    unfold Gol.createTrigger
    split
    · exact Tenancy.tends_ret trivial
    · rw [onServer_bind]
      refine (tends_onServer (only_firstTick _ _)).bind fun first _ => ?_
      cases first with
      | error error => exact Tenancy.tends_ret trivial
      | ok first =>
          refine tends_own ⟨trivial, trivial⟩ fun s created _ _ => ?_
          refine tends_agent_of_foreign (fun agent agent' his his' => ?_) fun answer => ?_
          · simp only [Option.any_some, his, his']
          · cases answer with
            | error error => exact Tenancy.tends_ret trivial
            | ok found =>
                refine tends_onServer ?_
                simp only
                split
                · trivial
                · refine ⟨⟨rfl, trivial⟩, fun answer => ?_⟩
                  rcases answer with _ | error | stored
                  · trivial
                  · trivial
                  · cases stored <;> trivial
  unfold createTrigger
  split
  · exact Tenancy.tends_ret trivial
  · exact tends_andThen (tends_ofApi hcreated) fun _ _ => tends_respond _ _

theorem tends_listTriggers (owner : Owner) : Attends holders (principal owner) (listTriggers owner) := by
  refine tends_own ⟨rfl, trivial⟩ fun s answer _ _ => ?_
  rcases answer with _ | error | triggers
  · exact tends_refuse _
  · exact tends_refuse _
  · exact tends_respond _ _

theorem tends_pauseTrigger (owner : Owner) (id : TriggerId) :
    Attends holders (principal owner) (pauseTrigger owner id) := by
  refine tends_andThen (tends_ofApi (tends_onServer ⟨⟨rfl, trivial⟩, fun answer => ?_⟩)) fun _ _ => tends_respond _ _
  rcases answer with _ | error | _ | trigger <;> trivial

theorem tends_resumeTrigger (config : TriggerConfig) (owner : Owner) (id : TriggerId) :
    Attends holders (principal owner) (resumeTrigger config owner id) := by
  refine tends_andThen (tends_ofApi (tends_onServer ⟨⟨rfl, trivial⟩, fun answer => ?_⟩)) fun _ _ => tends_respond _ _
  rcases answer with _ | error | _ | trigger
  · trivial
  · trivial
  · trivial
  · simp only
    split
    · trivial
    · refine (only_firstTick _ _).bind fun next => ?_
      cases next with
      | error error => trivial
      | ok next =>
          refine ⟨⟨rfl, trivial⟩, fun answer => ?_⟩
          rcases answer with _ | error | _ | trigger <;> trivial

theorem tends_rotateTrigger (config : TriggerConfig) (owner : Owner) (id : TriggerId) :
    Attends holders (principal owner) (rotateTrigger config owner id) := by
  unfold rotateTrigger
  split
  · exact Tenancy.tends_ret trivial
  · refine tends_own ⟨rfl, trivial⟩ fun s answer _ _ => ?_
    rcases answer with _ | error | _ | trigger
    · exact tends_refuse _
    · exact tends_refuse _
    · exact tends_refuse _
    · simp only
      split
      · exact tends_refuse _
      · refine tends_own ⟨rfl, trivial⟩ fun s answer _ _ => ?_
        rcases answer with _ | error | _ | rotated
        · exact tends_refuse _
        · exact tends_refuse _
        · exact tends_refuse _
        · exact tends_respond _ _

theorem tends_deleteTrigger (owner : Owner) (id : TriggerId) :
    Attends holders (principal owner) (deleteTrigger owner id) := by
  refine tends_andThen (tends_ofApi (tends_onServer ⟨⟨rfl, trivial⟩, fun answer => ?_⟩)) fun gone _ => ?_
  · rcases answer with _ | error | gone <;> trivial
  · split
    · exact tends_respond _ _
    · exact tends_refuse _

/-! ### All requests -/

/-- The ids that a request draws or chooses are its principal's. -/
def Request.Draws (holders : Holders) (k : Principal) : Request → Prop
  | .createAgent manifest => holders.agent manifest.id = k
  | .createRun id _ | .createThread id _ _ | .followUp id _ _ _ | .backgroundTurn id _ _
  | .quickTurn id _ _ => holders.run id = k
  | _ => True

theorem tends_handler (config : HttpConfig) {owner : Owner} {request : Request}
    (h : request.Draws holders (principal owner)) :
    Attends holders (principal owner) (handler config owner request) := by
  cases request with
  | createAgent manifest => exact tends_createAgent h
  | createRun id body => exact tends_createRun h body
  | createThread id thread body => exact tends_createThread h thread body
  | followUp id thread input limits => exact tends_followUp h thread input limits
  | backgroundTurn id body capabilities => exact tends_backgroundTurn h body capabilities
  | quickTurn id body capabilities => exact tends_createCoworkerTurn config.launchesDocker h body capabilities
  | completeTurn id text => exact tends_completeCoworkerTurn config.launchesDocker owner id text
  | failTurn id message => exact tends_failCoworkerTurn config.launchesDocker owner id message
  | getRun id => exact tends_getRun owner id
  | getEvents id after limit => exact tends_getEvents owner id after limit
  | getAgUi id => exact tends_getAgUi owner id
  | getUi id => exact tends_getUi owner id
  | getRunStream id resume => exact tends_getRunStream owner id resume
  | getStream resume => exact tends_getStream config.outbox owner resume
  | replyRun id text question => exact tends_replyRun owner id text question
  | stopRun id => exact tends_stopRun owner id
  | stopThread thread => exact tends_stopThread owner thread
  | stopOwner => exact tends_stopOwner owner
  | listThreads after limit => exact tends_listThreads owner after limit
  | getBoard thread after limit wanted => exact tends_getBoard owner thread after limit wanted
  | createTrigger new => exact tends_createTrigger config.triggers { new with owner := owner, kind := newKind new.kind }
  | listTriggers => exact tends_listTriggers owner
  | pauseTrigger id => exact tends_pauseTrigger owner id
  | resumeTrigger id => exact tends_resumeTrigger config.triggers owner id
  | rotateTrigger id => exact tends_rotateTrigger config.triggers owner id
  | deleteTrigger id => exact tends_deleteTrigger owner id

theorem tends_serve (config : HttpConfig) {owner : Owner} {request : Request}
    (h : request.Draws holders (principal owner)) :
    Attends holders (principal owner) (serve config owner request) := by
  refine (tends_handler config h).bind fun result _ => ?_
  cases result <;> exact Tenancy.tends_ret trivial

end Http

end Gol
