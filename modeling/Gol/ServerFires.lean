import Gol.ServerReach

/-! One run for each tick and each event. The run of a fire is stored under an id derived from what it was fired for,
and fires and sweeps push it only where the queue neither holds it nor runs it. -/

namespace Gol
open Library World

variable {fleet : Fleet} {ok : Pool → Move → Prop}

/-! ### Names -/

/-- What a keyed fire is for. -/
inductive FiredFor where
  | tick (trigger : TriggerId) (tick : Int64)
  | event (trigger : TriggerId) (event : String)
  deriving DecidableEq

namespace FiredFor

/-- The namespace and the name its run's id is derived from. -/
def name : FiredFor → Uuid × List UInt8
  | .tick trigger due => (tickRunNamespace, tickName trigger due)
  | .event trigger sent => (eventRunNamespace, eventName trigger sent)

def run (u : Uuids) : FiredFor → RunId
  | .tick trigger due => u.tickRun trigger due
  | .event trigger sent => u.eventRun trigger sent

/-- The run's spec records that it was fired for this. -/
def Of (u : Uuids) (spec : RunSpec) : FiredFor → Prop
  | .tick trigger due =>
      spec.metadataGet triggerKey = some (u.text trigger.uuid) ∧ spec.metadataGet tickKey = some due.toInt.repr
  | .event trigger sent =>
      spec.metadataGet triggerKey = some (u.text trigger.uuid) ∧ spec.metadataGet eventKey = some sent

theorem run_eq (u : Uuids) (p : FiredFor) : p.run u = ⟨u.v5 p.name.1 p.name.2⟩ := by
  cases p <;> rfl

end FiredFor

theorem uuidBytes_length (id : Uuid) : (uuidBytes id).length = 16 := by simp [uuidBytes]

/-- A number below `256 ^ n` is told by its bytes. -/
theorem eq_of_bytes {n a b : Nat} (ha : a < 256 ^ n) (hb : b < 256 ^ n)
    (h : ∀ i < n, UInt8.ofNat (a / 256 ^ i) = UInt8.ofNat (b / 256 ^ i)) : a = b := by
  induction n generalizing a b with
  | zero => omega
  | succ n ih =>
      have hlow : a % 256 = b % 256 := by
        have h0 := congrArg UInt8.toNat (h 0 (by omega))
        simpa using h0
      have hhigh : a / 256 = b / 256 := by
        refine ih ?_ ?_ fun i hi => ?_
        · rw [Nat.div_lt_iff_lt_mul (by decide)]
          rwa [Nat.pow_succ] at ha
        · rw [Nat.div_lt_iff_lt_mul (by decide)]
          rwa [Nat.pow_succ] at hb
        · have hi := h (i + 1) (by omega)
          rwa [Nat.pow_succ', ← Nat.div_div_eq_div_mul, ← Nat.div_div_eq_div_mul] at hi
      omega

theorem uuidBytes_injective {id id' : Uuid} (h : uuidBytes id = uuidBytes id') : id = id' := by
  apply BitVec.eq_of_toNat_eq
  refine eq_of_bytes (n := 16) ?_ ?_ fun i hi => ?_
  · exact lt_of_lt_of_eq id.isLt (by decide)
  · exact lt_of_lt_of_eq id'.isLt (by decide)
  · have hat := congrArg (·[15 - i]?) h
    simpa [uuidBytes, show 15 - i < 16 by omega, show 15 - (15 - i) = i by omega] using hat

theorem leBytes_injective {n n' : Int64} (h : leBytes n = leBytes n') : n = n' := by
  have hnat : n.toUInt64.toNat = n'.toUInt64.toNat := by
    refine eq_of_bytes (n := 8) ?_ ?_ fun i hi => ?_
    · exact lt_of_lt_of_eq n.toUInt64.toNat_lt (by decide)
    · exact lt_of_lt_of_eq n'.toUInt64.toNat_lt (by decide)
    · have hat := congrArg (·[i]?) h
      simpa [leBytes, hi] using hat
  exact congrArg Int64.ofUInt64 (UInt64.toNat_inj.mp hnat)

theorem intRepr_injective {a b : Int} (h : a.repr = b.repr) : a = b := by
  have hsign : ∀ m n : Nat, m.repr ≠ "-" ++ n.repr := by
    intro m n heq
    have hdigit := Nat.isDigit_of_mem_toDigits (b := 10) (n := m) (c := '-') (by decide) (by decide)
    rw [← Nat.toList_repr, heq] at hdigit
    exact absurd (hdigit (by simp)) (by decide)
  have hnat : ∀ m n : Nat, m.repr = n.repr → m = n := by
    intro m n heq
    have hsome := congrArg parseDecimal heq
    rwa [parseDecimal_repr, parseDecimal_repr, Option.some.injEq] at hsome
  cases a with
  | ofNat m =>
      cases b with
      | ofNat n => rw [hnat m n h]
      | negSucc n => exact absurd h (hsign m _)
  | negSucc m =>
      cases b with
      | ofNat n => exact absurd h.symm (hsign n _)
      | negSucc n =>
          have heq : m + 1 = n + 1 := hnat _ _ (by simpa [Int.repr] using h)
          rw [Nat.succ.inj heq]

theorem FiredFor.name_injective {p p' : FiredFor} (h : p.name = p'.name) : p = p' := by
  cases p with
  | tick trigger due =>
      cases p' with
      | tick trigger' due' =>
          obtain ⟨hid, hdue⟩ := List.append_inj (Prod.mk.inj h).2 (by simp [uuidBytes_length])
          have hid : trigger = trigger' := congrArg TriggerId.mk (uuidBytes_injective hid)
          rw [hid, leBytes_injective hdue]
      | event trigger' sent => exact absurd (Prod.mk.inj h).1 (by decide)
  | event trigger sent =>
      cases p' with
      | tick trigger' due => exact absurd (Prod.mk.inj h).1 (by decide)
      | event trigger' sent' =>
          obtain ⟨hid, hsent⟩ := List.append_inj (Prod.mk.inj h).2 (by simp [uuidBytes_length])
          have hid : trigger = trigger' := congrArg TriggerId.mk (uuidBytes_injective hid)
          have hsent : sent = sent' := String.toByteArray_inj.mp (ByteArray.ext (Array.toList_inj.mp hsent))
          rw [hid, hsent]

/-! ### Fired runs -/

/-- A trigger that a call read is the one it asked for. -/
def ReadsTrigger : (c : ServerCall) → c.Answer → Prop
  | .control (.trigger owner id), some (.ok (some trigger)) => Triggers.isOf owner id trigger = true
  | _, _ => True

theorem readsTrigger {pool : Pool} (h : pool.Reach (Serves fleet) ok) :
    ∀ happened ∈ pool.server.trace, ReadsTrigger happened.call happened.answer := by
  refine h.trace_invariant (fun c answer hfails => ?_) fun s now c answer _ hanswers => ?_
  · cases hfails with
    | control c error => cases c <;> trivial
    | noControls c => cases c <;> trivial
    | _ => trivial
  · cases hanswers with
    | control c =>
        cases c with
        | trigger owner id =>
            change ReadsTrigger (.control (.trigger owner id)) (some (.ok (s.controls.triggers.trigger owner id)))
            cases hfound : s.controls.triggers.trigger owner id with
            | none => trivial
            | some trigger => exact List.find?_some hfound
        | _ => trivial
    | _ => trivial

/-- A fire's put of this was made. -/
def Server.PutFire (s : Server) (run : StoredRun) : Prop :=
  ∃ answer took, ⟨.store (.putRun run .fire), answer, took⟩ ∈ s.trace

theorem putFire_firedAs {pool : Pool} (h : pool.Reach (Serves fleet) ok) :
    ∀ run, pool.server.PutFire run → FiredAs fleet.uuids pool.server run.spec := by
  refine h.server_invariant (P := fun s => ∀ run, s.PutFire run → FiredAs fleet.uuids s run.spec)
    (fun _ hput => ?_) (fun _ _ hput => hput) (fun _ _ hput => hput) ?_
  · obtain ⟨_, _, hmem⟩ := hput
    cases hmem
  · rintro pool c answer t - hsound howes hput hstep - run ⟨answer', took', hmem⟩
    obtain ⟨took, heq⟩ := hstep.trace_eq
    rw [heq] at hmem
    rcases List.mem_cons.mp hmem with hsame | hmem
    · cases hsame
      exact howes.1.2.later hstep.later
    · exact (hput run ⟨answer', took', hmem⟩).later hstep.later

/-- A stored run marked with a trigger was put by a fire. -/
theorem stored_putFire {pool : Pool} (h : pool.Reach (Serves fleet) ok) :
    ∀ id run, pool.server.store.runs id = some run → run.spec.metadataGet triggerKey ≠ none →
      ∃ put, pool.server.PutFire put ∧ put.spec = run.spec := by
  refine h.server_invariant (P := fun s => ∀ id run, s.store.runs id = some run →
    run.spec.metadataGet triggerKey ≠ none →
    ∃ put, s.PutFire put ∧ put.spec = run.spec) (fun _ _ hrun => by cases hrun) (fun _ _ h => h) (fun _ _ h => h) ?_
  intro pool c answer t _ hsound howes hput hstep _ id run hrun hkey
  have hkeep : ∀ put, pool.server.PutFire put → t.PutFire put := by
    rintro put ⟨answer', took', hmem⟩
    exact ⟨answer', took', hstep.later.trace.subset hmem⟩
  rcases hstep.stored hrun with hsame | ⟨origin, rfl, -, -⟩ | ⟨before, _, _, _, _, hbefore, _, _, rfl⟩
  · obtain ⟨put, hput, hspec⟩ := hput id run hsame hkey
    exact ⟨put, hkeep put hput, hspec⟩
  · cases origin with
    | fire =>
        obtain ⟨took, htrace⟩ := hstep.trace_eq
        exact ⟨run, ⟨answer, took, by simp [htrace]⟩, rfl⟩
    | request | child => exact absurd howes.1.1 hkey
  · obtain ⟨put, hput, hspec⟩ := hput id before hbefore hkey
    exact ⟨put, hkeep put hput, hspec⟩

section Keyed
variable (u : Uuids) (trigger : StoredTrigger) (agent : AgentManifest) (drawn : RunId) (key : Option FireKey)

theorem keyed_trigger :
    (keyed (runOf u trigger agent drawn) key).metadataGet triggerKey = some (u.text trigger.id.uuid) := by
  rcases key with _ | (_ | _) <;> rfl

theorem keyed_tick {text : String} (h : (keyed (runOf u trigger agent drawn) key).metadataGet tickKey = some text) :
    ∃ run due, key = some (.tick run due) ∧ due.toInt.repr = text := by
  rcases key with _ | (⟨run, due⟩ | ⟨run, sent, body⟩)
  · cases h
  · exact ⟨run, due, rfl, Option.some.inj h⟩
  · cases h

theorem keyed_event {text : String} (h : (keyed (runOf u trigger agent drawn) key).metadataGet eventKey = some text) :
    ∃ run body, key = some (.event run text body) := by
  rcases key with _ | (⟨run, due⟩ | ⟨run, sent, body⟩)
  · cases h
  · cases h
  · exact ⟨run, body, by rw [← Option.some.inj h]⟩

end Keyed

/-- A fired run is stored under the id derived from what it records it was fired for. -/
theorem FiredAs.runId {u : Uuids} {s : Server} {spec : RunSpec} (h : FiredAs u s spec)
    (hreads : ∀ happened ∈ s.trace, ReadsTrigger happened.call happened.answer) {p : FiredFor} (hp : p.Of u spec) :
    spec.runId = p.run u := by
  obtain ⟨owner, id, trigger, agent, drawn, key, ⟨took, hmem⟩, -, rfl, htick, hevent⟩ := h
  have hid : trigger.id = id := by
    have hread : Triggers.isOf owner id trigger = true := hreads _ hmem
    simp only [Triggers.isOf, Bool.and_eq_true, decide_eq_true_eq] at hread
    exact hread.1
  have htrigger : ∀ {other : TriggerId}, (keyed (runOf u trigger agent drawn) key).metadataGet triggerKey =
      some (u.text other.uuid) → id = other := by
    intro other heq
    rw [keyed_trigger, Option.some.injEq] at heq
    have hparse := congrArg u.parse heq
    rw [u.parse_text, u.parse_text, Option.some.injEq] at hparse
    rw [← hid]
    exact congrArg TriggerId.mk hparse
  cases p with
  | tick other due =>
      obtain ⟨run, due', rfl, hdue⟩ := keyed_tick _ _ _ _ _ hp.2
      obtain rfl := htrigger hp.1
      obtain rfl : due' = due := Int64.toInt.inj (intRepr_injective hdue)
      exact htick run due' rfl
  | event other sent =>
      obtain ⟨run, body, rfl⟩ := keyed_event _ _ _ _ _ hp.2
      obtain rfl := htrigger hp.1
      exact hevent run sent body rfl

/-- The ids derived from these names differ. -/
def Uuids.InjectiveOn (u : Uuids) (names : Uuid × List UInt8 → Prop) : Prop :=
  ∀ name name', names name → names name' → u.v5 name.1 name.2 = u.v5 name'.1 name'.2 → name = name'

/-- A fire has put a run for this. -/
def Server.FiredRun (u : Uuids) (s : Server) (p : FiredFor) (id : RunId) : Prop :=
  ∃ run, s.PutFire run ∧ run.spec.runId = id ∧ p.Of u run.spec

theorem firedRun_run {pool : Pool} (h : pool.Reach (Serves fleet) ok) {p : FiredFor} {id : RunId}
    (hfired : pool.server.FiredRun fleet.uuids p id) : id = p.run fleet.uuids := by
  obtain ⟨run, hput, rfl, hof⟩ := hfired
  exact (putFire_firedAs h run hput).runId (readsTrigger h) hof

/-! ### Pushes -/

namespace RunQueue

/-- No worker has the run, and it is not parked. -/
structure Unclaimed (q : RunQueue) (id : RunId) : Prop where
  processing : id ∉ q.processing
  lease : q.leases id = none
  parked : id ∉ q.parked.map Prod.fst

variable {q : RunQueue} {id : RunId}

theorem Unclaimed.of_same {q' : RunQueue} (h : q.Unclaimed id) (hprocessing : q'.processing = q.processing)
    (hlease : q'.leases = q.leases) (hparked : q'.parked = q.parked) : q'.Unclaimed id :=
  ⟨hprocessing ▸ h.processing, hlease ▸ h.lease, hparked ▸ h.parked⟩

theorem reapOne_unclaimed {reaped : List RunId × RunQueue} {other : RunId} (h : reaped.2.Unclaimed id)
    (hother : other ≠ id) :
    (reapOne reaped other).2.Unclaimed id ∧ (reapOne reaped other).2.runs.count id = reaped.2.runs.count id := by
  unfold reapOne
  split
  · exact ⟨⟨fun hin => h.processing (List.mem_of_mem_erase hin), h.lease, h.parked⟩, by simp [hother]⟩
  · exact ⟨h, rfl⟩

theorem Unclaimed.reap (h : q.Unclaimed id) : q.reap.2.Unclaimed id ∧ q.reap.2.runs.count id = q.runs.count id := by
  have hfold : ∀ (rest : List RunId) (reaped : List RunId × RunQueue), id ∉ rest → reaped.2.Unclaimed id →
      (rest.foldl reapOne reaped).2.Unclaimed id ∧
        (rest.foldl reapOne reaped).2.runs.count id = reaped.2.runs.count id := by
    intro rest
    induction rest with
    | nil => exact fun _ _ h => ⟨h, rfl⟩
    | cons other rest ih =>
        intro reaped hrest h
        obtain ⟨hnot, hrest⟩ := not_or.mp (mt List.mem_cons.mpr hrest)
        obtain ⟨hone, hcount⟩ := reapOne_unclaimed h (Ne.symm hnot)
        obtain ⟨hall, hcount'⟩ := ih _ hrest hone
        exact ⟨hall, hcount'.trans hcount⟩
  exact hfold q.processing ([], q) h.processing h

theorem Unclaimed.claim (h : q.Unclaimed id) {token : Token} (hprocessing : id ∉ (q.claim token).2.processing) :
    (q.claim token).2.Unclaimed id ∧ (q.claim token).2.runs.count id = q.runs.count id := by
  unfold RunQueue.claim at hprocessing ⊢
  split
  · exact ⟨h, rfl⟩
  · next other hlast =>
      rw [hlast] at hprocessing
      have hruns : q.runs = q.runs.dropLast ++ [other] := (List.dropLast_append_getLast? _ hlast).symm
      dsimp only at hprocessing ⊢
      split
      · next hleased =>
          have hne : other ≠ id := by
            rintro rfl
            simp [h.lease] at hleased
          refine ⟨⟨by simpa using h.processing, h.lease, h.parked⟩, ?_⟩
          conv_rhs => rw [hruns]
          simp [hne]
      · next hleased =>
          rw [if_neg hleased] at hprocessing
          have hne : other ≠ id := by
            rintro rfl
            simp at hprocessing
          refine ⟨⟨hprocessing, by simp [Function.update_of_ne (Ne.symm hne), h.lease], h.parked⟩, ?_⟩
          conv_rhs => rw [hruns]
          simp [hne]

/-- While no worker has claimed the run, only a push puts it on the list, and `pushOnce` only once. -/
theorem Unclaimed.exec (h : q.Unclaimed id) {now : Nat} {c : QueueCall} (hprocessing : id ∉ (q.exec now c).2.processing)
    (hpush : c ≠ .push id) :
    (q.exec now c).2.Unclaimed id ∧
      ((q.exec now c).2.runs.count id = q.runs.count id ∨ q.runs.count id = 0 ∧
        (q.exec now c).2.runs.count id = 1) := by
  have hsame : ∀ {q' : RunQueue}, q'.processing = q.processing → q'.leases = q.leases → q'.parked = q.parked →
      q'.runs.count id = q.runs.count id → q'.Unclaimed id ∧
        (q'.runs.count id = q.runs.count id ∨ q.runs.count id = 0 ∧ q'.runs.count id = 1) :=
    fun hp hl hpk hr => ⟨h.of_same hp hl hpk, .inl hr⟩
  cases c with
  | pend other =>
      simp only [RunQueue.exec, RunQueue.pend]
      split <;> exact hsame rfl rfl rfl rfl
  | push other =>
      have hne : other ≠ id := fun heq => hpush (heq ▸ rfl)
      exact hsame rfl rfl rfl (by simp [RunQueue.exec, RunQueue.push, hne])
  | pushOnce other gate =>
      simp only [RunQueue.exec, RunQueue.pushOnce]
      split
      · exact hsame rfl rfl rfl rfl
      · next hnot =>
          refine ⟨h.of_same rfl rfl rfl, ?_⟩
          by_cases heq : other = id
          · subst heq
            have hcount : q.runs.count other = 0 := by
              rw [List.count_eq_zero]
              intro hin
              simp [RunQueue.queuedOrClaimed, hin] at hnot
            exact .inr ⟨hcount, by simp [RunQueue.push, RunQueue.unpend, hcount]⟩
          · exact .inl (by simp [RunQueue.push, RunQueue.unpend, heq])
  | claim token =>
      obtain ⟨hunclaimed, hcount⟩ := h.claim hprocessing
      exact ⟨hunclaimed, .inl hcount⟩
  | release other token =>
      simp only [RunQueue.exec, RunQueue.release]
      split
      · next hlease =>
          have hne : other ≠ id := by
            rintro rfl
            simp [h.lease] at hlease
          refine ⟨⟨fun hin => h.processing (List.mem_of_mem_erase hin), ?_, h.parked⟩, .inl (by simp [hne])⟩
          simp [Function.update_of_ne (Ne.symm hne), h.lease]
      · exact hsame rfl rfl rfl rfl
  | park other token ask =>
      simp only [RunQueue.exec, RunQueue.park]
      split
      · next hlease =>
          have hne : other ≠ id := by
            rintro rfl
            simp [h.lease] at hlease
          refine ⟨⟨fun hin => h.processing (List.mem_of_mem_erase hin), ?_, fun hin => ?_⟩, .inl rfl⟩
          · simp [Function.update_of_ne (Ne.symm hne), h.lease]
          · rcases List.mem_cons.mp hin with heq | hin
            · exact hne heq.symm
            · exact h.parked (mem_of_mem_filter hin)
      · exact hsame rfl rfl rfl rfl
  | wake other ask =>
      simp only [RunQueue.exec, RunQueue.wake]
      split
      · next hlookup =>
          have hne : other ≠ id := by
            rintro rfl
            exact h.parked (mem_parked_of_lookup hlookup)
          exact ⟨⟨h.processing, h.lease, fun hin => h.parked (mem_of_mem_filter hin)⟩, .inl (by simp [hne])⟩
      · exact hsame rfl rfl rfl rfl
  | ack other token =>
      refine ⟨⟨fun hin => h.processing (List.mem_of_mem_erase hin), ?_, h.parked⟩, .inl rfl⟩
      simp only [RunQueue.exec, RunQueue.ack]
      split
      · by_cases hne : id = other
        · simp [hne]
        · simp [Function.update_of_ne hne, h.lease]
      · exact h.lease
  | reap =>
      obtain ⟨hunclaimed, hcount⟩ := h.reap
      exact ⟨hunclaimed, .inl hcount⟩
  | pendingFor | queuedOrClaimed | unpend | start | renew | parked => exact hsame rfl rfl rfl rfl

theorem Unclaimed.expire (h : q.Unclaimed id) (other : RunId) : (q.expire other).Unclaimed id := by
  refine ⟨h.processing, ?_, h.parked⟩
  by_cases hne : id = other
  · simp [RunQueue.expire, hne]
  · simp [RunQueue.expire, Function.update_of_ne hne, h.lease]

end RunQueue

/-- The run has been put so many times on the list that workers claim from, and none has claimed it. -/
inductive Pool.Queued (fleet : Fleet) (id : RunId) : Pool → Nat → Prop
  | start : Queued fleet id ⟨.empty, []⟩ 0
  | step {pool pool' : Pool} {move : Move} {times : Nat} (before : Queued fleet id pool times)
      (h : pool.Step (Serves fleet) move pool') (hunclaimed : id ∉ pool'.server.queue.processing) :
      Queued fleet id pool' (times + (pool'.server.queue.runs.count id - pool.server.queue.runs.count id))

theorem Pool.Queued.reach {id : RunId} {pool : Pool} {times : Nat} (h : Pool.Queued fleet id pool times) :
    pool.Reach (Serves fleet) anyMove := by
  induction h with
  | start => exact .start
  | step before hstep _ ih => exact ih.step trivial hstep

/-- A stored run, if it is one, is marked with a trigger. -/
def Server.Marked (s : Server) (id : RunId) : Prop :=
  ∀ run, s.store.runs id = some run → run.spec.metadataGet triggerKey ≠ none

theorem Server.Marked.before {s t : Server} {id : RunId} (h : t.Marked id) (hlater : s.Later t) : s.Marked id := by
  intro run hrun
  obtain ⟨more, hmore⟩ := hlater.store id run hrun
  have hkey := h _ hmore
  exact hkey

/-- No process pushes such a run without a gate. -/
theorem Server.Marked.not_pushed {pool : Pool} {id : RunId} (hmarked : pool.server.Marked id)
    (h : pool.Reach (Serves fleet) ok) {p : Prog ServerSig Unit} (hp : p ∈ pool.processes) :
    ¬ p.Waits (.queue (.push id)) := by
  intro hwaits
  obtain ⟨-, spec, events, hsaw, hkey⟩ := h.owes hp hwaits
  obtain ⟨more, hstored⟩ := hsaw.stored
  exact hmarked _ hstored hkey

/-- Before a worker claims it, a fired run is put on the list at most once. -/
theorem Pool.Queued.once {id : RunId} {pool : Pool} {times : Nat} (h : Pool.Queued fleet id pool times)
    (hmarked : pool.server.Marked id) :
    pool.server.queue.Unclaimed id ∧ pool.server.queue.runs.count id = times ∧ times ≤ 1 := by
  induction h with
  | start =>
      exact ⟨⟨by simp [Server.empty, RunQueue.empty], rfl, by simp [Server.empty, RunQueue.empty]⟩, rfl, by omega⟩
  | @step pool pool' move times before hstep hunclaimed ih =>
      obtain ⟨hbefore, hcount, htimes⟩ := ih (hmarked.before hstep.later)
      have hsame : pool'.server.queue = pool.server.queue → pool'.server.queue.Unclaimed id ∧
          pool'.server.queue.runs.count id = times +
            (pool'.server.queue.runs.count id - pool.server.queue.runs.count id) ∧
            times + (pool'.server.queue.runs.count id - pool.server.queue.runs.count id) ≤ 1 := by
        intro heq
        rw [heq]
        exact ⟨hbefore, by omega, by omega⟩
      cases hstep with
      | spawn | crash | tick => exact hsame rfl
      | expire s processes run =>
          exact ⟨hbefore.expire run, by simp [RunQueue.expire, hcount], by simp [RunQueue.expire, htimes]⟩
      | call s t front back c next answer hcall =>
          rcases hcall.queue with heq | ⟨script, rfl, heq⟩
          · exact hsame heq
          · have hpush : script ≠ .push id := by
              rintro rfl
              exact (hmarked.before hcall.later).not_pushed before.reach (p := .call (.queue (.push id)) next) (by simp)
                ⟨next, rfl⟩
            dsimp only at hunclaimed hcount hbefore ⊢
            rw [heq] at hunclaimed ⊢
            obtain ⟨hafter, hruns⟩ := hbefore.exec hunclaimed hpush
            exact ⟨hafter, by omega, by omega⟩

/-- For each tick and each event of a trigger at most one run is stored; fires for different ones never put the same
run, as far as the ids derived from their names differ; and before a worker claims the run, it is put at most once on
the list that workers claim from. -/
theorem fires_run_once (fleet : Fleet) {pool : Pool} (h : pool.Reach (Serves fleet) anyMove) :
    (∀ p id id' run run', pool.server.store.runs id = some run → pool.server.store.runs id' = some run' →
      FiredFor.Of fleet.uuids run.spec p → FiredFor.Of fleet.uuids run'.spec p → id = id') ∧
    (fleet.uuids.InjectiveOn (fun name => ∃ p id, pool.server.FiredRun fleet.uuids p id ∧ name = p.name) →
      ∀ p p' id, pool.server.FiredRun fleet.uuids p id → pool.server.FiredRun fleet.uuids p' id → p = p') ∧
    ∀ p id run times, pool.server.store.runs id = some run → FiredFor.Of fleet.uuids run.spec p →
      Pool.Queued fleet id pool times → times ≤ 1 := by
  have hkey : ∀ {p : FiredFor} {spec : RunSpec}, p.Of fleet.uuids spec → spec.metadataGet triggerKey ≠ none := by
    intro p spec hof
    cases p with
    | tick trigger due => simp [hof.1]
    | event trigger sent => simp [hof.1]
  have hrunId : ∀ {p : FiredFor} {id : RunId} {run : StoredRun}, pool.server.store.runs id = some run →
      p.Of fleet.uuids run.spec → id = p.run fleet.uuids := by
    intro p id run hrun hof
    obtain ⟨put, hput, hspec⟩ := stored_putFire h id run hrun (hkey hof)
    refine firedRun_run h ⟨put, hput, ?_, hspec ▸ hof⟩
    rw [hspec]
    exact (h.sound.logs id run hrun).1
  refine ⟨fun p id id' run run' hrun hrun' hof hof' => ?_, fun hinjective p p' id hfired hfired' => ?_,
    fun p id run times hrun hof hqueued => ?_⟩
  · exact (hrunId hrun hof).trans (hrunId hrun' hof').symm
  · have hsame := (firedRun_run h hfired).symm.trans (firedRun_run h hfired')
    rw [FiredFor.run_eq, FiredFor.run_eq, RunId.mk.injEq] at hsame
    exact FiredFor.name_injective (hinjective _ _ ⟨p, id, hfired, rfl⟩ ⟨p', id, hfired', rfl⟩ hsame)
  · refine (hqueued.once fun stored hstored => ?_).2.2
    rw [hrun, Option.some.injEq] at hstored
    exact hstored ▸ hkey hof

/-! ### A webhook's events -/

def hookAgent : StoredAgent := ⟨⟨⟨1⟩, "1", "agent", "", [], []⟩, (RunSpec.plain 1 ⟨8, 4⟩).owner⟩

/-- A webhook of that agent. -/
def hook : StoredTrigger where
  id := ⟨5⟩
  owner := (RunSpec.plain 1 ⟨8, 4⟩).owner
  agentId := ⟨1⟩
  kind := .webhook 0
  input := "handle"
  placement := (RunSpec.plain 1 ⟨8, 4⟩).placement
  workModel := (RunSpec.plain 1 ⟨8, 4⟩).workModel
  limits := none
  missed := .skip
  enabled := true
  nextFireMs := none
  createdMs := 0
  generation := 0

/-- Answers where the agent is there. -/
def agentThere : (c : OutsideCall) → c.Answer
  | .agent _ => .ok (some hookAgent)
  | c => quiet (.complete "done") c

def Pool.callsThere (i n : Nat) : List Pool.Turn := List.replicate n (.call i agentThere (.ok "done"))

/-- The webhook is made, and fired for an event. -/
def hookFired : List Pool.Turn :=
  .spawn (forget (createTrigger Fleet.plain.nextTick hook)) :: Pool.callsThere 0 3 ++
  .spawn (forget (fireWebhook .plain hook "a" "body")) :: Pool.callsThere 0 10

theorem serves_hookFired : ∀ p ∈ Pool.started hookFired, Serves .plain p := by
  intro p hp
  rcases hp with _ | ⟨_, _ | ⟨_, hp⟩⟩
  · exact .create _
  · exact .webhook _ _ _
  · cases hp

theorem fires_run_once_hooked :
    ∃ pool : Pool, pool.Reach (Serves .plain) anyMove ∧
      (∃ run, pool.server.store.runs ⟨17⟩ = some run ∧ FiredFor.Of .plain run.spec (.event ⟨5⟩ "a")) ∧
      ∀ id run, pool.server.store.runs id = some run → FiredFor.Of .plain run.spec (.event ⟨5⟩ "a") → id = ⟨17⟩ := by
  obtain ⟨pool, hreach, hshows⟩ := Pool.reached_of_any hookFired
    (fun pool => (pool.server.store.runs ⟨17⟩).any fun run =>
      run.spec.metadataGet triggerKey = some (Uuids.plain.text 5) ∧ run.spec.metadataGet eventKey = some "a")
    (by decide +kernel) serves_hookFired
  obtain ⟨run, hrun, hshown⟩ := (Option.any_eq_true ..).mp hshows
  have hmetadata := of_decide_eq_true hshown
  have hof : FiredFor.Of .plain run.spec (.event ⟨5⟩ "a") := hmetadata
  refine ⟨pool, hreach, ⟨run, hrun, hof⟩, fun id run' hrun' hof' => ?_⟩
  exact (fires_run_once .plain hreach).1 _ id ⟨17⟩ run' run hrun' hrun hof' hof

end Gol
