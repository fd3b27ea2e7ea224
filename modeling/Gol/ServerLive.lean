import Gol.ServerBoxes
import Gol.ServerHolds

/-! The live sandbox of a background turn in a Box. A worker removes only the attempts up to its own, and attempts are
numbered by the starts. So while starts are counted in the order of the claims, no worker that lost its lease removes
the sandbox of the claim that holds it now. -/

namespace Gol
open Library World

variable {fleet : Fleet} {ok : Pool → Move → Prop} {s t : Server} {c : ServerCall} {answer : c.Answer}

/-! ### The order of claims -/

/-- `other` claimed the run after `token` did. -/
def Server.ClaimedAfter (s : Server) (id : RunId) (token other : Token) : Prop :=
  ∃ newer older took took', s.trace = newer ++ ⟨.queue (.claim other), .ok (some id), took⟩ :: older ∧
    ⟨.queue (.claim token), .ok (some id), took'⟩ ∈ older

theorem Server.ClaimedAfter.later {id : RunId} {token other : Token} (h : s.ClaimedAfter id token other)
    (hlater : s.Later t) : t.ClaimedAfter id token other := by
  obtain ⟨newer, older, took, took', htrace, hmem⟩ := h
  obtain ⟨newest, heq⟩ := hlater.trace
  exact ⟨newest ++ newer, older, took, took', by rw [← heq, htrace, List.append_assoc], hmem⟩

/-- A claim's token is its own. -/
theorem not_claimedAfter_self {pool : Pool} (h : pool.Reach (Serves fleet) ok) (id : RunId) (token : Token) :
    ¬ pool.server.ClaimedAfter id token token := by
  rintro ⟨newer, older, took, took', htrace, hmem⟩
  obtain ⟨before, t, -, -, -, hstep, holder, -, -⟩ := h.made htrace
  obtain ⟨now, hfresh, -, -⟩ := hstep.answers (by rintro ⟨⟩)
  exact hfresh rfl (.token token) (List.mem_singleton_self _) _ (holder ▸ hmem) (List.mem_singleton_self _)

/-- A claim that a call answers is the newest. -/
theorem Server.Step.claimedAfter (h : s.Step c answer t) {id : RunId} {token other : Token}
    (hafter : t.ClaimedAfter id token other) :
    s.ClaimedAfter id token other ∨ (∃ took, t.trace = ⟨.queue (.claim other), .ok (some id), took⟩ :: s.trace) ∧
      s.Claimed id token := by
  obtain ⟨newer, older, took, took', htrace, hmem⟩ := hafter
  obtain ⟨took'', hmade⟩ := h.trace_eq
  rw [hmade] at htrace
  cases newer with
  | nil =>
      obtain ⟨heq, rfl⟩ := List.cons.inj htrace
      rw [heq] at hmade
      exact .inr ⟨⟨took, hmade⟩, took', hmem⟩
  | cons newest newer => exact .inl ⟨newer, older, took, took', (List.cons.inj htrace).2, hmem⟩

theorem RunQueue.leases_exec {q : RunQueue} {now : Nat} {c : QueueCall} {id : RunId} {token : Token}
    (h : (q.exec now c).2.leases id = some token) : q.leases id = some token ∨ c = .claim token := by
  have hcleared : ∀ other, Function.update q.leases other none id = some token → q.leases id = some token := by
    intro other h
    by_cases hid : id = other
    · rw [hid, Function.update_self] at h
      cases h
    · rwa [Function.update_of_ne hid] at h
  cases c with
  | claim claimed =>
      simp only [exec, claim] at h
      split at h
      · exact .inl h
      · next taken hlast =>
          split at h
          · exact .inl h
          · change Function.update q.leases taken (some claimed) id = some token at h
            by_cases hid : id = taken
            · rw [hid, Function.update_self, Option.some.injEq] at h
              exact .inr (by rw [h])
            · rw [Function.update_of_ne hid] at h
              exact .inl h
  | pend other =>
      simp only [exec, pend] at h
      split at h <;> exact .inl h
  | pushOnce other gate =>
      simp only [exec, pushOnce] at h
      split at h <;> exact .inl h
  | release other claimed =>
      simp only [exec, release] at h
      split at h
      · exact .inl (hcleared other h)
      · exact .inl h
  | park other claimed ask =>
      simp only [exec, park] at h
      split at h
      · exact .inl (hcleared other h)
      · exact .inl h
  | wake other ask =>
      simp only [exec, wake] at h
      split at h <;> exact .inl h
  | ack other claimed =>
      simp only [exec, ack] at h
      split at h
      · exact .inl (hcleared other h)
      · exact .inl h
  | reap =>
      change q.reap.2.leases id = some token at h
      rw [q.reap_keeps.2.2] at h
      exact .inl h
  | push | pendingFor | queuedOrClaimed | unpend | start | renew | parked => exact .inl h

namespace Server.Step

/-- Only its own claim gives a token the lease. -/
theorem leases (h : s.Step c answer t) {id : RunId} {token : Token} (hlease : t.queue.leases id = some token) :
    s.queue.leases id = some token ∨ c = .queue (.claim token) ∧ s.Fresh c := by
  have hafter : ∀ now, (s.after now c).queue.leases id = some token →
      s.queue.leases id = some token ∨ c = .queue (.claim token) := by
    intro now hlease
    cases c with
    | queue c => exact (RunQueue.leases_exec hlease).imp_right fun hc => by rw [hc]
    | _ => exact .inl hlease
  cases h with
  | done now hfresh _ | lost now hfresh _ => exact (hafter now hlease).imp_right fun hc => ⟨hc, hfresh⟩
  | failed _ => exact .inl hlease

/-- A claim that is answered holds the lease. -/
theorem leased {id : RunId} {token : Token} (h : s.Step (.queue (.claim token)) (.ok (some id)) t) :
    t.queue.leases id = some token := by
  obtain ⟨now, -, hanswers, rfl⟩ := h.answers (by rintro ⟨⟩)
  have heq : (.ok (some id) : Except String (Option RunId)) = .ok (s.queue.claim token).1 := hanswers.queue_eq
  have hclaimed := Except.ok.inj heq
  show (s.queue.claim token).2.leases id = some token
  unfold RunQueue.claim at hclaimed ⊢
  split at hclaimed
  · cases hclaimed
  · next taken hlast =>
      split at hclaimed
      · cases hclaimed
      · next hfree =>
          obtain rfl := Option.some.inj hclaimed
          rw [if_neg hfree]
          exact Function.update_self ..

/-- A claim that the calls show was made now or before. -/
theorem claimed (h : s.Step c answer t) {id : RunId} {token : Token} (hclaimed : t.Claimed id token) :
    s.Claimed id token ∨ (∃ took, t.trace = ⟨.queue (.claim token), .ok (some id), took⟩ :: s.trace) ∧
      t.queue.leases id = some token := by
  obtain ⟨took, hmem⟩ := hclaimed
  obtain ⟨took', htrace⟩ := h.trace_eq
  rw [htrace] at hmem
  rcases List.mem_cons.mp hmem with heq | hmem
  · cases heq
    exact .inr ⟨⟨_, htrace⟩, h.leased⟩
  · exact .inl ⟨took, hmem⟩

end Server.Step

/-- The claim that holds the lease is the last one. -/
theorem holder_last {pool : Pool} (h : pool.Reach (Serves fleet) ok) {id : RunId} {token other : Token}
    (hlease : pool.server.queue.leases id = some token) (hclaimed : pool.server.Claimed id token)
    (hother : pool.server.Claimed id other) : other = token ∨ pool.server.ClaimedAfter id other token := by
  revert hlease hclaimed hother
  refine h.server_invariant (P := fun s => s.queue.leases id = some token → s.Claimed id token → s.Claimed id other →
    other = token ∨ s.ClaimedAfter id other token) (fun hlease => by cases hlease) (fun _ _ h => h)
      (fun s run h hlease => ?_) ?_
  · refine h ?_
    have hlease : Function.update s.queue.leases run none id = some token := hlease
    by_cases hid : id = run
    · rw [hid, Function.update_self] at hlease
      cases hlease
    · rwa [Function.update_of_ne hid] at hlease
  · intro pool c answer t _ _ _ hlast hstep _ hlease hclaimed hother
    rcases hstep.claimed hother with hother | ⟨-, hlease'⟩
    · rcases hstep.claimed hclaimed with hclaimed | ⟨⟨took, htrace⟩, -⟩
      · rcases hstep.leases hlease with hbefore | ⟨rfl, hfresh⟩
        · exact (hlast hbefore hclaimed hother).imp_right (·.later hstep.later)
        · obtain ⟨took, hmem⟩ := hclaimed
          exact absurd (List.mem_singleton_self _) (hfresh rfl (.token token) (List.mem_singleton_self _) _ hmem)
      · obtain ⟨took', hmem⟩ := hother
        exact .inr ⟨[], pool.server.trace, took, took', htrace, hmem⟩
    · rw [hlease, Option.some.injEq] at hlease'
      exact .inl hlease'.symm

/-! ### The order of starts -/

/-- The start of a claim is counted before those of the claims made after it, where the run is an open background turn
in a Box. -/
def StartsInOrder (pool : Pool) : Move → Prop
  | .call (.queue (.start id token)) _ =>
      ∀ run, pool.server.store.runs id = some run → isBoxTurn run.spec = true → hasEnded run.events = false →
        ∀ other number, pool.server.ClaimedAfter id token other → ¬ pool.server.Started id other number
  | _ => True

/-- The run is a background turn in a Box that has not ended, if it is stored. -/
def Server.OpenBox (s : Server) (id : RunId) : Prop :=
  ∀ run, s.store.runs id = some run → isBoxTurn run.spec = true ∧ hasEnded run.events = false

theorem Server.OpenBox.openTurn {id : RunId} (h : s.OpenBox id) : s.OpenTurn id := by
  intro run hrun
  obtain ⟨hbox, hopen⟩ := h run hrun
  simp only [isBoxTurn, Bool.and_eq_true] at hbox
  exact ⟨hbox.1, hopen⟩

theorem Server.OpenBox.before {id : RunId} (h : t.OpenBox id) (hlater : s.Later t) : s.OpenBox id := by
  intro run hrun
  obtain ⟨more, hmore⟩ := hlater.store id run hrun
  obtain ⟨hbox, hopen⟩ := h _ hmore
  simp only [hasEnded_append, Bool.or_eq_false_iff] at hopen
  exact ⟨hbox, hopen.1⟩

theorem claimed_of_started {pool : Pool} (h : pool.Reach (Serves fleet) ok) {id : RunId} {token : Token} {number : Nat}
    (hstarted : pool.server.Started id token number) : pool.server.Claimed id token := by
  obtain ⟨took, hmem⟩ := hstarted
  obtain ⟨newer, older, run, took', took'', htrace, -, hclaim⟩ := started_opened h hmem
  exact ⟨took'', htrace ▸ List.mem_append_right _ (List.mem_cons_of_mem _ hclaim)⟩

/-- What is read open is stored. -/
theorem stored_of_opened {pool : Pool} (h : pool.Reach (Serves fleet) ok) {id : RunId} {token : Token}
    (hopened : pool.server.Opened id token) : ∃ run, pool.server.store.runs id = some run := by
  obtain ⟨newer, older, run, took, took', htrace, -, -⟩ := hopened
  have hmem : ⟨.store (.run id), .ok (some run), took⟩ ∈ pool.server.trace :=
    htrace ▸ List.mem_append_right _ (List.mem_cons_self ..)
  have hsaw : pool.server.Saw id run.spec run.events := h.sound.told _ hmem
  obtain ⟨more, hstored⟩ := hsaw.stored
  exact ⟨_, hstored⟩

/-- The starts of an open turn are numbered in the order of their claims. -/
theorem starts_ordered {pool : Pool} (h : pool.Reach (Serves fleet) StartsInOrder) {id : RunId}
    (hbox : pool.server.OpenBox id) {token other : Token} {number number' : Nat}
    (hafter : pool.server.ClaimedAfter id token other) (hstarted : pool.server.Started id token number)
    (hstarted' : pool.server.Started id other number') : number < number' := by
  revert hbox token other number number'
  refine h.reached_invariant (P := fun s => s.OpenBox id → ∀ {token other : Token} {number number' : Nat},
    s.ClaimedAfter id token other → s.Started id token number → s.Started id other number' → number < number')
    (fun _ _ _ _ _ _ ⟨_, hmem⟩ => by cases hmem) (fun _ _ h => h) (fun _ _ h => h) ?_
  intro pool c answer t hreach hok howes hordered hstep hbox token other number number' hafter hstarted hstarted'
  have hbefore := hbox.before hstep.later
  have hnumbers := openTurn_numbers hreach id hbefore.openTurn
  rcases hstep.claimedAfter hafter with hold | ⟨⟨took, htrace⟩, -⟩
  · rcases hstep.newStart hstarted with hfirst | ⟨rfl, hnumber, -⟩
    · rcases hstep.newStart hstarted' with hsecond | ⟨-, hnumber', -⟩
      · exact hordered hbefore hold hfirst hsecond
      · have hcounted := (hnumbers.counted token number hfirst).2
        omega
    · rcases hstep.newStart hstarted' with hsecond | ⟨hc, -, -⟩
      · obtain ⟨run, hrun⟩ := stored_of_opened hreach howes
        obtain ⟨hturn, hopen⟩ := hbefore run hrun
        exact absurd hsecond (hok run hrun hturn hopen other number' hold)
      · cases hc
        exact absurd hold (not_claimedAfter_self hreach id token)
  · -- The claim is made by this very step, so it has no start yet.
    obtain ⟨took', hmade⟩ := hstep.trace_eq
    rw [hmade] at htrace
    cases (List.cons.inj htrace).1
    obtain ⟨now, hfresh, -, -⟩ := hstep.answers (by rintro ⟨⟩)
    rcases hstep.newStart hstarted' with hsecond | ⟨hc, -, -⟩
    · obtain ⟨took, hmem⟩ := claimed_of_started hreach hsecond
      exact absurd (List.mem_singleton_self _) (hfresh rfl (.token other) (List.mem_singleton_self _) _ hmem)
    · cases hc

/-! ### Who removes a sandbox -/

/-- Only a removal takes a sandbox down. -/
theorem Server.Step.removed (h : s.Step c answer t) {name : SandboxName} (hup : name ∈ s.sandboxes)
    (hdown : name ∉ t.sandboxes) : ∃ party, c = .host (.destroy name party) := by
  have hafter : ∀ now, name ∉ (s.after now c).sandboxes → ∃ party, c = .host (.destroy name party) := by
    intro now hdown
    cases c with
    | host c =>
        cases c with
        | provision other party => exact absurd (List.mem_cons_of_mem _ hup) hdown
        | destroy other party =>
            by_cases hname : name = other
            · exact ⟨party, by rw [hname]⟩
            · exact absurd (List.mem_filter.mpr ⟨hup, by simpa using hname⟩) hdown
        | absent | list => exact absurd hup hdown
    | _ => exact absurd hup hdown
  cases h with
  | done now _ _ | lost now _ _ => exact hafter now hdown
  | failed _ => exact absurd hup hdown

/-- While a background turn in a Box is open, no step takes down the sandbox that the holder of its lease provisioned,
other than the holder's own removal. -/
def LiveSandbox (fleet : Fleet) (ok : Pool → Move → Prop) : Prop :=
  ∀ (pool pool' : Pool) (move : Move), pool.Reach (Serves fleet) ok → ok pool move →
    pool.Step (Serves fleet) move pool' →
    ∀ id run token number, pool.server.store.runs id = some run → isBoxTurn run.spec = true →
      hasEnded run.events = false → pool.server.queue.leases id = some token →
      (∃ answer, ⟨.host (.provision (.attempt id number) (.worker token)), answer, true⟩ ∈ pool.server.trace) →
      .attempt id number ∈ pool.server.sandboxes → .attempt id number ∉ pool'.server.sandboxes →
        ∃ answer, move = .call (.host (.destroy (.attempt id number) (.worker token))) answer

/-- The live sandbox stays where starts are counted in the order of the claims. -/
theorem live_sandbox (fleet : Fleet) : LiveSandbox fleet StartsInOrder := by
  rintro pool pool' move hreach hok hstep id run token number hrun hbox hopen hlease ⟨answer, hprovision⟩ hup hdown
  have hturn : pool.server.OpenBox id := fun stored hstored => by
    rw [hrun, Option.some.injEq] at hstored
    exact hstored ▸ ⟨hbox, hopen⟩
  obtain ⟨holder, spec, events, hparty, hstarted, -⟩ := provisioned_attempt hreach hprovision rfl
  cases hparty
  cases hstep with
  | spawn | crash | tick | expire => exact absurd hup hdown
  | call s t front back c next answer hcall =>
      have howes := hreach.owes (p := .call c next) (by simp) ⟨next, rfl⟩
      obtain ⟨party, rfl⟩ := hcall.removed hup hdown
      cases party with
      | worker other =>
          obtain ⟨id', attempt, number', hname, hle, hstarted'⟩ := howes
          cases hname
          rcases holder_last hreach hlease (claimed_of_started hreach hstarted)
              (claimed_of_started hreach hstarted') with
            rfl | hafter
          · exact ⟨_, rfl⟩
          · -- The remover claimed before the holder, so its attempts come before the holder's.
            have hlt := starts_ordered hreach hturn hafter hstarted' hstarted
            omega
      | sweep =>
          obtain ⟨id', hname, hended⟩ := howes
          cases hname
          exact absurd hended hturn.openTurn.not_ended
      | _ =>
          obtain ⟨id', hname⟩ := howes
          cases hname

/-! ### A claim that starts late -/

/-- A worker claims the turn, counts its start and dies; its lease runs out, and the turn is queued again. -/
def diedStarted (token : Token) : List Pool.Turn :=
  .spawn (forget (Worker.plain.workOne token)) :: Pool.calls 0 3 (.complete "done") ++
  [.crash 0, .expire ⟨1⟩, .spawn (forget reapRuns)] ++ Pool.calls 0 1 (.complete "done")

/-- Four workers die. A fifth claims the turn and reads it, and loses its lease before it counts its start; a sixth
claims the turn, counts the fifth start and provisions its sandbox. -/
def claimedLate : List Pool.Turn :=
  .spawn (forget (enqueue boxTurn .request .endRun)) :: Pool.calls 0 4 (.complete "done") ++
  diedStarted 1 ++ diedStarted 2 ++ diedStarted 3 ++ diedStarted 4 ++
  .spawn (forget (Worker.plain.workOne 5)) :: Pool.calls 0 2 (.complete "done") ++
  [.expire ⟨1⟩, .spawn (forget reapRuns)] ++ Pool.calls 0 1 (.complete "done") ++
  .spawn (forget (Worker.plain.workOne 6)) :: Pool.calls 0 15 (.complete "done")

/-- The fifth worker counts the sixth start and, past the most deliveries, looks for every attempt's sandbox. -/
def startedLate : List Pool.Turn := Pool.calls 2 6 (.complete "done")

def removedLate : Pool.Turn := .call 2 (quiet (.complete "done")) (.ok "done")

theorem serves_claimedLate : ∀ p ∈ Pool.started (claimedLate ++ startedLate), Serves .plain p := by
  have hstarted : Pool.started (claimedLate ++ startedLate) =
      forget (enqueue boxTurn .request .endRun) :: ([1, 2, 3, 4].flatMap fun token =>
        [forget (Worker.plain.workOne token), forget reapRuns]) ++
        [forget (Worker.plain.workOne 5), forget reapRuns, forget (Worker.plain.workOne 6)] := rfl
  intro p hp
  rw [hstarted] at hp
  simp only [List.flatMap_cons, List.flatMap_nil, List.cons_append, List.nil_append, List.mem_cons, List.not_mem_nil,
    or_false] at hp
  rcases hp with rfl | rfl | rfl | rfl | rfl | rfl | rfl | rfl | rfl | rfl | rfl | rfl
  · exact .enqueue _ _ rfl
  all_goals first | exact .work _ _ rfl | exact .reap

/-- The worker `token` holds the lease of the open turn and has its sandbox up. -/
def holdsSandbox (pool : Pool) (token : Token) (number : Nat) : Bool :=
  pool.server.queue.leases ⟨1⟩ = some token && pool.server.sandboxes.contains (.attempt ⟨1⟩ number) &&
    (pool.server.store.runs ⟨1⟩).any (fun run => isBoxTurn run.spec && !hasEnded run.events) &&
    pool.server.trace.any fun made =>
      match made with
      | ⟨.host (.provision name party), _, true⟩ => name = .attempt ⟨1⟩ number && party = .worker token
      | _ => false

theorem holdsSandbox_iff {pool : Pool} {token : Token} {number : Nat} (h : holdsSandbox pool token number = true) :
    pool.server.queue.leases ⟨1⟩ = some token ∧ .attempt ⟨1⟩ number ∈ pool.server.sandboxes ∧
      (∃ run, pool.server.store.runs ⟨1⟩ = some run ∧ isBoxTurn run.spec = true ∧ hasEnded run.events = false) ∧
      ∃ answer, ⟨.host (.provision (.attempt ⟨1⟩ number) (.worker token)), answer, true⟩ ∈ pool.server.trace := by
  simp only [holdsSandbox, Bool.and_eq_true, decide_eq_true_eq, List.contains_iff_mem, List.any_eq_true] at h
  obtain ⟨⟨⟨hlease, hup⟩, hrun⟩, made, hmem, hmade⟩ := h
  obtain ⟨run, hrun, hshown⟩ := (Option.any_eq_true ..).mp hrun
  rw [Bool.and_eq_true, Bool.not_eq_true'] at hshown
  refine ⟨hlease, hup, ⟨run, hrun, hshown⟩, ?_⟩
  split at hmade
  · next name party answer =>
      simp only [Bool.and_eq_true, decide_eq_true_eq] at hmade
      obtain ⟨rfl, rfl⟩ := hmade
      exact ⟨answer, hmem⟩
  · cases hmade

/-- This worker's removal of a sandbox. -/
def removesAs (token : Token) : Move → Bool
  | .call (.host (.destroy _ party)) _ => party = .worker token
  | _ => false

/-- The late worker removes the sandbox that the lease's holder calls its gateway from. -/
theorem removed_late :
    ∃ (pool pool' : Pool) (move : Move), pool.Reach (Serves .plain) anyMove ∧
      pool.Step (Serves .plain) move pool' ∧ pool.server.queue.leases ⟨1⟩ = some 6 ∧
      .attempt ⟨1⟩ 5 ∈ pool.server.sandboxes ∧ .attempt ⟨1⟩ 5 ∉ pool'.server.sandboxes ∧
        ¬ LiveSandbox .plain anyMove := by
  have hplay : ((Pool.play (fun _ _ => true) (claimedLate ++ startedLate) ⟨.empty, []⟩).bind fun pool =>
      (pool.turn removedLate).map fun (move, pool') =>
        holdsSandbox pool 6 5 && !pool'.server.sandboxes.contains (.attempt ⟨1⟩ 5) && removesAs 5 move) =
          some true := by
    decide +kernel
  simp only [Option.bind_eq_some_iff, Option.map_eq_some_iff, Bool.and_eq_true, Bool.not_eq_true'] at hplay
  obtain ⟨pool, hpool, ⟨move, pool'⟩, hturn, ⟨hholds, hremoved⟩, hremoves⟩ := hplay
  obtain ⟨hlease, hup, ⟨run, hrun, hbox, hopen⟩, hprovision⟩ := holdsSandbox_iff hholds
  have hreach := Pool.play_reach (fun _ _ _ => trivial) hpool serves_claimedLate .start
  have hstep : pool.Step (Serves .plain) move pool' := Pool.turn_step hturn nofun
  have hdown : SandboxName.attempt ⟨1⟩ 5 ∉ pool'.server.sandboxes := by simpa using hremoved
  refine ⟨pool, pool', move, hreach, hstep, hlease, hup, hdown, fun hlive => ?_⟩
  obtain ⟨answer, rfl⟩ :=
    hlive pool pool' move hreach trivial hstep ⟨1⟩ run 6 5 hrun hbox hopen hlease hprovision hup hdown
  cases hremoves

/-! ### A claim that starts in time -/

/-- A worker claims the turn, counts its start and has its sandbox up. -/
def provisionedOnce : List Pool.Turn :=
  .spawn (forget (enqueue boxTurn .request .endRun)) :: Pool.calls 0 4 (.complete "done") ++
  .spawn (forget (Worker.plain.workOne 7)) :: Pool.calls 0 15 (.complete "done")

theorem serves_provisionedOnce : ∀ p ∈ Pool.started provisionedOnce, Serves .plain p := by
  intro p hp
  rcases hp with _ | ⟨_, _ | ⟨_, hp⟩⟩
  · exact .enqueue _ _ rfl
  · exact .work _ _ rfl
  · cases hp

/-- No start was counted yet. -/
def startsOnce (pool : Pool) : Move → Bool
  | .call (.queue (.start _ _)) _ => pool.server.trace.all fun made =>
      match made.call with
      | .queue (.start _ _) => false
      | _ => true
  | _ => true

theorem startsInOrder_of_once (pool : Pool) (move : Move) (h : startsOnce pool move = true) :
    StartsInOrder pool move := by
  unfold StartsInOrder
  split
  · rintro run - - - other number - ⟨took, hmem⟩
    have hnone := List.all_eq_true.mp h _ hmem
    cases hnone
  · trivial

theorem live_sandbox_worked :
    LiveSandbox .plain StartsInOrder ∧ ∃ pool : Pool, pool.Reach (Serves .plain) StartsInOrder ∧
      pool.server.queue.leases ⟨1⟩ = some 7 ∧ .attempt ⟨1⟩ 1 ∈ pool.server.sandboxes := by
  obtain ⟨pool, hreach, hshows⟩ := Pool.reached_of_play startsOnce startsInOrder_of_once provisionedOnce
    (fun pool => holdsSandbox pool 7 1) (by decide +kernel) serves_provisionedOnce
  obtain ⟨hlease, hup, -, -⟩ := holdsSandbox_iff hshows
  exact ⟨live_sandbox .plain, pool, hreach, hlease, hup⟩

end Gol
