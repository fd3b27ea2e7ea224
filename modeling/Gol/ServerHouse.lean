import Gol.ServerLabor

/-! The requests of all principals and the workers on all their runs, interleaved call by call in any way, with any
calls that fail or lose their answers and any programs that are dropped. What a principal's are answered is what they
can be answered where it is alone: from what others do nothing reaches it but that an agent's id is taken. Webhooks,
fires of triggers and the sweeps, which nobody asks for, are not part of it. -/

namespace Gol
open Library

theorem RunQueue.last_of_claim {q : RunQueue} {token : Token} {id : RunId} (h : (q.claim token).1 = some id) :
    q.runs.getLast? = some id := by
  unfold claim at h
  split at h
  · cases h
  · next last hlast =>
      simp only at h
      split at h
      · cases h
      · obtain rfl : last = id := Option.some.inj h
        exact hlast

namespace Http
open Site

/-- What a program returns: the response to a request, or what came of a worker's claim. -/
inductive Returned where
  | response (response : Response)
  | worked (result : Except String (Option RunId))
  deriving DecidableEq

/-- A request, to its response. -/
def request (config : HttpConfig) (owner : Owner) (r : Request) : Prog RequestSig Returned :=
  (serve config owner r).bind fun response => .ret (.response response)

/-- A worker's work on the run it claimed. -/
def work (w : Worker) (token : Token) (id : RunId) : Prog RequestSig Returned :=
  (onServer (w.takeOn token id)).bind fun result => .ret (.worked result)

/-- What is started for whom: a request for its caller, and a worker for the principal that holds the run it claims. -/
inductive Starts (config : HttpConfig) (v5 : ChildName → Uuid) (holders : Holders) (s : Site) :
    Principal → Prog RequestSig Returned → Site → Prop
  | request {owner : Owner} {r : Request} (h : r.Draws holders (principal owner)) :
      Starts config v5 holders s (principal owner) (request config owner r) s
  | claim {w : Worker} (hw : w.v5 = v5) (token : Token) {id : RunId} (h : (s.server.queue.claim token).1 = some id) :
      Starts config v5 holders s (holders.run id) (work w token id) (s.withQueue (s.server.queue.claim token).2)

section Starts

variable {config : HttpConfig} {v5 : ChildName → Uuid} {holders : Holders} {k other : Principal} {s t u : Site}
  {p : Prog RequestSig Returned}

theorem Starts.tends (hderives : holders.Derives v5) (h : Starts config v5 holders s k p t) : Attends holders k p := by
  cases h with
  | request h => exact (tends_serve config h).bind fun _ _ => Tenancy.tends_ret trivial
  | @claim w hw token id h =>
      have hworks : WorksFor holders (holders.run id) (w.takeOn token id) := worksFor_takeOn w (hw ▸ hderives) token rfl
      exact Tenancy.Tends.bind hworks fun _ _ => Tenancy.tends_ret trivial

theorem Starts.held (hs : s.Held holders) (h : Starts config v5 holders s k p t) : t.Held holders := by
  cases h with
  | request => exact hs
  | claim => exact hs.withQueue _

/-- A start for another shows the principal nothing. -/
theorem Starts.shows_other (h : Starts config v5 holders s k p t) (hne : other ≠ k) : Site.Shows holders other s t := by
  cases h with
  | request => exact .refl holders other s
  | claim hw token h =>
      have hclaim := RunQueue.alike_claim (owns_eq_false rfl hne) (RunQueue.last_of_claim h) token
      exact (Site.Shows.refl holders other s).withQueue hclaim

/-- What is started for the principal in one site is started in each that shows it the same, once the runs of others
are claimed that are before its own. -/
theorem Starts.shows (hshows : Site.Shows holders k s t) (h : Starts config v5 holders s k p u) :
    ∃ mid v, Relation.ReflTransGen (Stirs holders k) t mid ∧ Starts config v5 holders mid k p v ∧
      Site.Shows holders k u v := by
  cases h with
  | request h => exact ⟨t, t, .refl, .request h, hshows⟩
  | claim hw token h =>
      obtain ⟨r, hstirs, hanswer, halike⟩ := hshows.claimed rfl (RunQueue.last_of_claim h) token
      exact ⟨_, _, hstirs, .claim (s := t.withQueue r) hw token (hanswer ▸ h), hshows.withQueue halike⟩

end Starts

/-- The requests of all principals, and the workers on all their runs. -/
def service (config : HttpConfig) {v5 : ChildName → Uuid} {holders : Holders} (hderives : holders.Derives v5) :
    Tenancy.Service (tenancy holders) Returned where
  Starts := Starts config v5 holders
  tends _ h := h.tends hderives
  inv := Starts.held
  frame := Starts.shows_other
  shows _ _ := Starts.shows

/-- Among the requests of all principals and the work on all their runs, interleaved in any way, a principal is
answered as it can be where it is alone, on any site that shows it the same, and where beside its own no more happens
than that leases run out, workers are lost and agents' ids are taken; and in the end both sites show it the same. -/
theorem requests_purged (config : HttpConfig) {v5 : ChildName → Uuid} {holders : Holders}
    (hderives : holders.Derives v5) (k : Principal) {s t : Site} {house : Tenancy.House (tenancy holders) Returned}
    (hleads : Tenancy.House.Leads (Starts config v5 holders) Site.Moves ⟨s, []⟩ house) (hs : s.Held holders)
    (ht : t.Held holders) (hshows : Site.Shows holders k s t) :
    ∃ alone : Tenancy.House (tenancy holders) Returned,
      Tenancy.House.Leads (fun s other p u => other = k ∧ Starts config v5 holders s other p u)
        (Site.Stirs holders k) ⟨t, []⟩ alone ∧
        Site.Shows holders k house.state alone.state ∧ house.returned k = alone.returned k :=
  Tenancy.purge (service config hderives) k hleads hs ht hshows

def visitor : Owner := (RunSpec.plain 2 ⟨8, 4⟩).owner

def neighbor : Owner := { visitor with subject := "user-2" }

def visitorsRun : StoredRun := ⟨RunSpec.plain 2 ⟨8, 4⟩, []⟩

def neighborsRun : StoredRun := ⟨{ RunSpec.plain 1 ⟨8, 4⟩ with owner := neighbor }, []⟩

def neighborsAgent : AgentManifest := ⟨⟨1⟩, "1", "helper", "", [], []⟩

/-- The neighbor holds the odd ids, and the visitor the others. -/
def oddHolder (id : Uuid) : Principal := if id.toNat % 2 = 1 then principal neighbor else principal visitor

def twoHolders : Holders := ⟨fun id => oddHolder id.uuid, fun id => oddHolder id.uuid, fun _ => principal visitor⟩

def evenV5 (name : ChildName) : Uuid := name.parent.uuid + 2

theorem twoHolders_derives : twoHolders.Derives evenV5 := by
  intro name
  have heven : (name.parent.uuid + 2).toNat % 2 = name.parent.uuid.toNat % 2 := by
    rw [BitVec.toNat_add]
    have htwo : (2 : Uuid).toNat = 2 := rfl
    omega
  simp only [twoHolders, oddHolder, evenV5, heven]

def quietConfig : HttpConfig := ⟨⟨fun _ _ _ => .error "", none⟩, true, false⟩

/-- The visitor's run is stored. -/
def visitorsSite : Site := Site.empty.after default (.server (.store (.putRun visitorsRun .request)))

/-- The neighbor's run is stored too. -/
def neighborsSite : Site := visitorsSite.after default (.server (.store (.putRun neighborsRun .request)))

/-- And it is queued. -/
def sharedSite : Site := neighborsSite.after default (.server (.queue (.push ⟨1⟩)))

theorem held_empty (holders : Holders) : Site.empty.Held holders where
  runs := StopStore.housed_empty holders.run
  agents _ _ h := by cases h
  box _ hmem := by cases hmem

theorem visitorsSite_held : visitorsSite.Held twoHolders := by
  have hown : Site.Own twoHolders (principal visitor) (.server (.store (.putRun visitorsRun .request))) :=
    ⟨by decide, rfl, fun _ hparent => by cases hparent⟩
  exact (held_empty twoHolders).after hown

theorem sharedSite_held :
    sharedSite.Held twoHolders ∧ Site.Shows twoHolders (principal visitor) sharedSite visitorsSite := by
  have hne : principal visitor ≠ principal neighbor := by decide
  have hput : Site.Own twoHolders (principal neighbor) (.server (.store (.putRun neighborsRun .request))) :=
    ⟨by decide, rfl, fun _ hparent => by cases hparent⟩
  have hpush : Site.Own twoHolders (principal neighbor) (.server (.queue (.push ⟨1⟩))) := by
    show twoHolders.run ⟨1⟩ = principal neighbor
    decide
  have hstored : neighborsSite.Held twoHolders := visitorsSite_held.after hput
  have hfirst : Site.Shows twoHolders (principal visitor) visitorsSite neighborsSite :=
    visitorsSite_held.shows_other hput hne fun _ heq => by cases heq
  exact ⟨hstored.after hpush, (hfirst.trans (hstored.shows_other hpush hne fun _ heq => by cases heq)).symm⟩

/-- The visitor opens a stream of its run and reads the neighbor's, while the neighbor makes an agent and a worker takes
on the neighbor's run. -/
theorem interleaved : ∃ house : Tenancy.House (tenancy twoHolders) Returned,
    Tenancy.House.Leads (Starts quietConfig evenV5 twoHolders) Site.Moves ⟨sharedSite, []⟩ house ∧
      house.returned (principal visitor) =
        [some (.response ⟨404, .refused "run not found"⟩), some (.response ⟨200, .stream ⟨2⟩ 0⟩)] := by
  have hread : ∀ s : Site, s.server.store.runs ⟨1⟩ = some neighborsRun →
      s.Step (.server (.store (.run ⟨1⟩))) (.ok (some neighborsRun)) s := by
    intro s hs
    have hanswer : (.ok (some neighborsRun) : Except StoreError (Option StoredRun)) =
        (s.server.store.call default (.run ⟨1⟩)).1 := by
      simp only [LogStore.call, hs]
      rfl
    exact .done default (.server (fun _ heq => by cases heq) (hanswer ▸ .store (.run ⟨1⟩)))
  have hquiet : Tenancy.House.Leads (Starts quietConfig evenV5 twoHolders) Site.Moves
      (⟨sharedSite, []⟩ : Tenancy.House (tenancy twoHolders) Returned) ⟨sharedSite, []⟩ := .refl
  have hopened := Tenancy.House.Leads.started hquiet
    (@Starts.request quietConfig evenV5 twoHolders sharedSite visitor (.getRunStream ⟨2⟩ none) trivial)
  have hcreated := Tenancy.House.Leads.started hopened
    (@Starts.request quietConfig evenV5 twoHolders _ neighbor (.createAgent neighborsAgent) rfl)
  have hpage := Tenancy.House.Leads.answered [_] hcreated rfl ⟨.done default (.runPage ⟨2⟩ 0 1), trivial⟩
  have hclaimed := Tenancy.House.Leads.started hpage
    (@Starts.claim quietConfig evenV5 twoHolders _ ⟨5, false, false, .ok (), evenV5⟩ rfl 7 ⟨1⟩ rfl)
  have hagent := Tenancy.House.Leads.answered [_] hclaimed rfl
    ⟨.done default (.putAgent ⟨neighborsAgent, neighbor⟩), trivial⟩
  have hasked := Tenancy.House.Leads.started hagent
    (@Starts.request quietConfig evenV5 twoHolders _ visitor (.getRun ⟨1⟩) trivial)
  have hrefused := Tenancy.House.Leads.answered [] hasked rfl ⟨hread _ rfl, trivial⟩
  have hworked := Tenancy.House.Leads.answered [_] hrefused rfl ⟨hread _ rfl, trivial⟩
  have hstreamed := Tenancy.House.Leads.answered [_, _, _] hworked rfl
    ⟨.done default (.takeStream visitor true), trivial⟩
  exact ⟨_, hstreamed, rfl⟩

theorem requests_purged_interleaved : ∃ house : Tenancy.House (tenancy twoHolders) Returned,
    Tenancy.House.Leads (Starts quietConfig evenV5 twoHolders) Site.Moves ⟨sharedSite, []⟩ house ∧
    house.returned (principal visitor) =
      [some (.response ⟨404, .refused "run not found"⟩), some (.response ⟨200, .stream ⟨2⟩ 0⟩)] ∧
    ∃ alone : Tenancy.House (tenancy twoHolders) Returned,
      Tenancy.House.Leads (fun s other p u => other = principal visitor ∧
        Starts quietConfig evenV5 twoHolders s other p u)
          (Site.Stirs twoHolders (principal visitor)) ⟨visitorsSite, []⟩ alone ∧
        Site.Shows twoHolders (principal visitor) house.state alone.state ∧
        house.returned (principal visitor) = alone.returned (principal visitor) := by
  obtain ⟨house, hleads, hreturned⟩ := interleaved
  exact ⟨house, hleads, hreturned,
    requests_purged quietConfig twoHolders_derives (principal visitor) hleads sharedSite_held.1
    visitorsSite_held sharedSite_held.2⟩

end Http

end Gol
