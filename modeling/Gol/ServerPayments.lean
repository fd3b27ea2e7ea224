import Gol.HarnessPayments
import Gol.ServerPledges

/-! What the server's runs pay for. A stored log was paid for and charges runs that are stored; a worker that stores a
child asks for it at such a log of its parent, and what it appends costs one of each resource at most. -/

namespace Gol
open Library World

namespace Server

/-- The children that a log charges are stored. -/
def Bears (s : Server) (log : List Event) : Prop := ∀ child ∈ charged (payloads log), s.Gave child

variable {s t : Server}

theorem Bears.later {log : List Event} (h : s.Bears log) (hlater : s.Later t) : t.Bears log :=
  fun child hmem => (h child hmem).later hlater

/-- Each stored log was paid for, and charges runs that are stored. -/
structure Funded (s : Server) : Prop where
  paid : ∀ id run, s.store.runs id = some run → Paid run.spec (payloads run.events)
  bears : ∀ id run, s.store.runs id = some run → s.Bears run.events

end Server

/-- Events that cost nothing and start no child. -/
def Unpriced (batch : List Event) : Prop := (payloads batch).all isFree = true

/-- What is owed where a child is put, at a log of its parent that charges stored runs and that leaves more than the
child is given; and where priced events are appended to a log that was read, at the cost of one of each resource at
most. -/
def Pays (s : Server) : ServerCall → Prop
  | .store (.putRun run (.child asked)) => ∃ parent events, s.Saw parent.runId parent events ∧
      run.spec.lineage.parent = some parent.runId ∧ s.Bears asked ∧
        ∀ resource, spent resource parent (payloads asked) + givenTo resource (charged (payloads asked)) +
          (run.spec.limits.of resource).toNat < (parent.limits.of resource).toNat
  | .store (.appendEventsAfter id seen batch _) =>
      Unpriced batch ∨ ∃ spec events, s.Saw id spec events ∧ events.length = seen ∧
      Paid spec (payloads (events ++ batch)) ∧ s.Bears (events ++ batch) ∧
        ∀ resource, spent resource spec (payloads (events ++ batch)) ≤ spent resource spec (payloads events) + 1
  | _ => True

variable {α β : Type} {K : Known} {Q : α → Known} {spec : RunSpec} {token : Token} {events : List Event}

/-- A log that goes on from one that was paid for, at the cost of one of each resource at most. -/
structure GoesOn (spec : RunSpec) (events batch : List Event) : Prop where
  paid : Paid spec (payloads (events ++ batch))
  spent_le : ∀ resource, spent resource spec (payloads (events ++ batch)) ≤ spent resource spec (payloads events) + 1

theorem isFree_of_isBeside {payload : EventPayload} (h : Driver.isBeside payload = true) : isFree payload = true := by
  cases payload with
  | effectDecided effect | effectAuthorized effect | childStarted runId agentId limits => cases h
  | _ => rfl

namespace Unpriced

variable {batch : List Event}

theorem of_beside (h : ∀ payload ∈ payloads batch, Driver.isBeside payload = true) : Unpriced batch :=
  List.all_eq_true.mpr fun payload hmem => isFree_of_isBeside (h payload hmem)

theorem unpriced (h : Unpriced batch) : ∀ payload ∈ payloads batch, isPriced payload = false :=
  fun payload hmem => isPriced_of_isFree (List.all_eq_true.mp h payload hmem)

theorem charged_eq (h : Unpriced batch) (events : List Event) :
    charged (payloads (events ++ batch)) = charged (payloads events) := by
  rw [payloads_append, charged_append_of_none]
  exact fun payload hmem => not_child_of_isFree (List.all_eq_true.mp h payload hmem)

theorem spent_eq (h : Unpriced batch) (resource : Resource) (spec : RunSpec) (events : List Event) :
    spent resource spec (payloads (events ++ batch)) = spent resource spec (payloads events) := by
  rw [payloads_append, spent_append_unpriced _ _ _ h.unpriced]

theorem paid (h : Unpriced batch) (hpaid : Paid spec (payloads events)) : Paid spec (payloads (events ++ batch)) := by
  rw [payloads_append]
  exact hpaid.append h.unpriced

theorem goesOn (h : Unpriced batch) (hpaid : Paid spec (payloads events)) : GoesOn spec events batch where
  paid := h.paid hpaid
  spent_le resource := (h.spent_eq resource spec events).le.trans (Nat.le_succ _)

theorem bears (h : Unpriced batch) {s : Server} (hbears : s.Bears events) : s.Bears (events ++ batch) := by
  intro child hmem
  rw [h.charged_eq] at hmem
  exact hbears child hmem

end Unpriced

/-- The programs pay for what they store. -/
def purse : Pledge where
  Owes := Pays
  Kept := Server.Funded
  told spec events := ⟨fun s => Paid spec (payloads events) ∧ s.Bears events, fun h hs => ⟨hs.1, hs.2.later h⟩⟩
  bystands {s c} h := by
    cases c with
    | store c =>
        cases c with
        | putRun run origin =>
            cases origin with
            | child asked => exact h.elim
            | _ => trivial
        | appendEventsAfter id seen batch party => exact .inl (.of_beside h)
        | _ => trivial
    | _ => trivial
  reads h hstored := ⟨h.paid _ _ hstored, h.bears _ _ hstored⟩
  grows h hbeside := ⟨(Unpriced.of_beside hbeside).paid h.1, (Unpriced.of_beside hbeside).bears h.2⟩

/-! ### Harness runs -/

/-- What a driven run has stored was paid for, and the children it was told of are stored. -/
def Known.accounts (spec : RunSpec) (told : Driver.Told) (kept : Carried) : Known :=
  ⟨fun s => kept.seen = told.stored.length ∧ (purse.log spec told.stored).holds s ∧
      ∀ child ∈ told.children, s.Gave child,
    fun h ⟨hseen, hpays, hgave⟩ =>
      ⟨hseen, (purse.log spec told.stored).later h hpays, fun child hmem => (hgave child hmem).later h⟩⟩

variable {told : Driver.Told} {kept : Carried}

/-- A call that tells of stored children leaves the accounts as they are. -/
theorem Known.accounts_after {s : Server} (h : (Known.accounts spec told kept).holds s)
    {made : Sigma HarnessCall.Answer} (hstored : (told.after made).stored = told.stored)
    (htold : ∀ child ∈ Driver.toldBy made, s.Gave child) :
    (Known.accounts spec (told.after made) kept).holds s := by
  obtain ⟨hseen, hpays, hgave⟩ := h
  refine ⟨hstored ▸ hseen, hstored ▸ hpays, fun child hmem => ?_⟩
  exact (List.mem_append.mp hmem).elim (hgave child) (htold child)

/-- What the driver's accounts say of the log that is stored at a boundary. -/
theorem purse.does_atBoundary {driver : Driver} (haccounts : Driver.Accounts spec told driver.events) :
    purse.world.Does (Known.accounts spec told kept) (atBoundary spec token kept driver)
      fun result => Known.accounts spec (told.after ⟨.boundary driver, result.1⟩) result.2 := by
  intro s hinv hs
  obtain ⟨seen, refused⟩ := kept
  obtain rfl : seen = told.stored.length := hs.1
  have hall : told.stored ++ driver.events.drop told.stored.length = driver.events := append_drop_known haccounts.grows
  have hsaw : ∀ t, (Known.accounts spec told ⟨told.stored.length, refused⟩).holds t →
      t.Saw spec.runId spec told.stored :=
    fun t ht => ht.2.1.1
  have howes : ∀ t, (Known.accounts spec told ⟨told.stored.length, refused⟩).holds t → Pays t (.store
      (.appendEventsAfter spec.runId told.stored.length (driver.events.drop told.stored.length) (.worker token))) := by
    intro t ht
    refine .inr ⟨spec, told.stored, hsaw t ht, rfl, ?_⟩
    rw [hall]
    exact ⟨haccounts.paid, fun child hmem => ht.2.2 child (haccounts.charges child hmem), haccounts.spent_le⟩
  have hbounded : purse.world.Does _ (atBoundary spec token ⟨told.stored.length, refused⟩ driver) _ :=
    (Pledge.does_atBoundary (P := purse) hsaw haccounts.grows howes).frame
  refine (hbounded s hinv hs).mono fun t result ht => ?_
  obtain ⟨⟨-, hpays, hgave⟩, hcontinues, hstops⟩ := ht
  obtain ⟨boundary, later⟩ := result
  cases boundary with
  | «continue» =>
      obtain ⟨hseen, hnow⟩ := hcontinues rfl
      refine ⟨hseen, ⟨hnow, haccounts.paid, fun child hmem => hgave child (haccounts.charges child hmem)⟩,
        fun child hmem => ?_⟩
      exact hgave child (by simpa [Driver.Told.after, Driver.toldBy] using hmem)
  | cancel | pause =>
      refine ⟨hstops (by simp), hpays, fun child hmem => ?_⟩
      exact hgave child (by simpa [Driver.Told.after, Driver.toldBy] using hmem)

/-- Carrying out a call of the harness keeps the accounts. -/
theorem purse.does_carry (w : Worker) {c : HarnessCall} (howes : Driver.Accountable spec told c) :
    purse.world.Does (Known.accounts spec told kept) (w.carry spec token kept c)
      fun result => Known.accounts spec (told.after ⟨c, result.1⟩) result.2 := by
  have howed : ∀ {log : List Event} {request : ChildRequest},
    Driver.AsksFor spec told log request.parent request.limits →
      ∀ agent, purse.Owed (Known.accounts spec told kept) log (childOf w.v5 request agent) := by
    rintro log request ⟨rfl, hcharges, hroom⟩ agent s stamps ⟨-, hpays, hgave⟩
    exact ⟨request.parent, told.stored, hpays.1, rfl, fun child hmem => hgave child (hcharges child hmem), hroom⟩
  have hquiet : ∀ (c : HarnessCall), (∀ answer, Driver.toldBy ⟨c, answer⟩ = []) →
      (∀ answer, (told.after ⟨c, answer⟩).stored = told.stored) →
      purse.world.Does (Known.accounts spec told kept) (.call (.outside (.harness c)) fun answer => .ret (answer, kept))
        fun result : c.Answer × Carried => Known.accounts spec (told.after ⟨c, result.1⟩) result.2 := by
    intro c hnone hstored
    refine Pledge.does_aside trivial fun answer => does_ret fun s _ hs => ?_
    exact Known.accounts_after hs (hstored answer) (by simp [hnone answer])
  cases c with
  | decide view => exact hquiet (.decide view) (fun _ => rfl) fun _ => rfl
  | tool log name input => exact hquiet (.tool log name input) (fun _ => rfl) fun _ => rfl
  | model log request => exact hquiet (.model log request) (fun _ => rfl) fun _ => rfl
  | memoryRead log owner key => exact hquiet (.memoryRead log owner key) (fun _ => rfl) fun _ => rfl
  | memoryWrite log owner key value => exact hquiet (.memoryWrite log owner key value) (fun _ => rfl) fun _ => rfl
  | boundary driver => exact purse.does_atBoundary howes
  | spawn log request =>
      refine Does.bind (Pledge.does_startChild w.v5 (howed howes)) fun result => does_ret fun s _ hs => ?_
      refine Known.accounts_after hs.1 rfl fun child hmem => ?_
      cases result with
      | error reason => cases hmem
      | ok started =>
          obtain rfl := List.mem_singleton.mp hmem
          exact hs.2 started rfl
  | send log request =>
      have htasks : ∀ limits agent, request.limits = some limits →
          purse.Owed (Known.accounts spec told kept) log (childOf w.v5 (request.task limits) agent) :=
        fun limits agent hlimits => howed (howes limits hlimits) agent
      refine Does.bind (Pledge.does_send w.v5 htasks) fun result => does_ret fun s _ hs => ?_
      refine Known.accounts_after hs.1 rfl fun child hmem => ?_
      cases result with
      | error reason => cases hmem
      | ok sent =>
          obtain ⟨task, htask, rfl⟩ := List.mem_map.mp hmem
          exact hs.2 sent task rfl (Option.mem_toList.mp htask)

/-- What is left to store of a driver in order. -/
theorem GoesOn.tail {driver : Driver} (haccounts : Driver.Accounts spec told driver.events) (stamps : Nat → Stamp)
    (finish : Driver.Finish) : GoesOn spec told.stored (tailOf spec stamps told.stored.length driver finish) ∧
      ∀ child ∈ charged (payloads (told.stored ++ tailOf spec stamps told.stored.length driver finish)),
        child ∈ told.children := by
  have hall : told.stored ++ driver.events.drop told.stored.length = driver.events := append_drop_known haccounts.grows
  have hends : ∀ {extra : List Event}, Unpriced extra →
    GoesOn spec told.stored (driver.events.drop told.stored.length ++ extra) ∧
      ∀ child ∈ charged (payloads (told.stored ++ (driver.events.drop told.stored.length ++ extra))),
        child ∈ told.children := by
    intro extra hfree
    rw [← List.append_assoc, hall, hfree.charged_eq]
    refine ⟨⟨?_, fun resource => ?_⟩, haccounts.charges⟩
    · rw [← List.append_assoc, hall]
      exact hfree.paid haccounts.paid
    · rw [← List.append_assoc, hall, hfree.spent_eq]
      exact haccounts.spent_le resource
  cases finish with
  | failed error => exact hends rfl
  | ok | outOfFuel => exact hends rfl

/-- Workers pay for what they store while they drive a run. -/
theorem purse_drives : purse.Drives := by
  intro w spec token events tools stamps driver setup _ hresume s hinv hs
  have hresumed := (Driver.resume_cases hresume).setUp setup
  have hstart : (Known.accounts spec ⟨events, charged (payloads events)⟩ ⟨events.length, none⟩).holds s :=
    ⟨rfl, hs, hs.2.2⟩
  have hsafe : purse.world.Safe _ ((Driver.runUntil tools (driver.setUp setup)).handle (w.carry spec token) _) s :=
    Safe.handle (fun told kept t => (Known.accounts spec told kept).holds t)
      (fun told kept t c haccounts hinv howes => ((purse.does_carry w howes) t hinv haccounts).mono
          fun u result hresult =>
        ⟨_, rfl, hresult⟩)
      (hresumed.runUntil_accounts hs.2.1 tools) hstart hinv
  refine Safe.bind ((hsafe.inv hinv).mono ?_)
  rintro t ⟨⟨driver, finish⟩, kept⟩ ⟨⟨told, horder, haccounts⟩, hinv⟩
  dsimp only
  split
  · trivial
  · refine (Pledge.does_stamps (K := Known.accounts spec told kept) fun stamps => ?_) t hinv haccounts
    obtain ⟨hgoes, hcharges⟩ := GoesOn.tail horder.accounts stamps finish
    have hsaw : ∀ u, (Known.accounts spec told kept).holds u → u.Saw spec.runId spec told.stored := fun u hu => hu.2.1.1
    intro u hinv hu
    rw [hu.1]
    refine Pledge.does_storeTail (P := purse) driver hsaw (fun v hv => ?_) u hinv hu
    exact .inr ⟨spec, told.stored, hsaw v hv, rfl, hgoes.paid, fun child hmem => hv.2.2 child (hcharges child hmem),
      hgoes.spent_le⟩

end Gol
