import Gol.ServerClaims

/-! A worker's claim meets what it owes: the harness is driven from the log the worker knows, each step is stored
after it, and the run is acknowledged only once it has ended. -/

namespace Gol
open Library World

variable {fleet : Fleet} {pends : Bool} {K : Known} {spec : RunSpec} {token : Token}
  {events : List Event} {number : Nat}

/-! ### Harness runs -/

/-- The driver has added only events of its own to the log a worker knows. -/
theorem Driver.Driven.dropped {driver : Driver} {log : List Event} (h : Driver.Driven spec events driver)
    (hbase : events <+: log) (hgrows : log <+: driver.events) :
    ∀ payload ∈ payloads (driver.events.drop log.length), isDriven payload = true := by
  obtain ⟨more, hmore, hdriven⟩ := h.added
  obtain ⟨mid, rfl⟩ := hbase
  obtain ⟨rest, hrest⟩ := hgrows
  rw [← hrest, List.append_assoc] at hmore
  rw [← hrest, List.drop_left]
  intro payload hpayload
  apply hdriven
  rw [← List.append_cancel_left hmore, payloads_append]
  exact List.mem_append_right _ hpayload

/-- Why an append was refused, once one was. -/
def Known.refuses (spec : RunSpec) (kept : Carried) : Known :=
  ⟨fun s => ∀ refused, kept.refused = some refused → (Known.halts spec refused).holds s,
    fun h hs refused heq => (Known.halts spec refused).later h (hs refused heq)⟩

/-- What is known while the harness runs on from `events`: how much of its log is stored. -/
def Known.carries (spec : RunSpec) (token : Token) (number : Nat) (events : List Event) (seen : Driver.Seen)
    (kept : Carried) : Known :=
  .and ⟨fun s => ∃ log, events <+: log ∧ kept.Tracks seen log ∧ s.Works spec token number log,
      fun h ⟨log, hbase, htracks, hworks⟩ => ⟨log, hbase, htracks, (Known.works spec token number log).later h hworks⟩⟩
    (.and (.pure (seen.paused = true → kept.refused ≠ none)) (Known.refuses spec kept))

/-- A refused append stops the run. -/
theorem Known.stored_halts {new : List Event} {result : Except String Stopped} {s : Server}
    (h : (Known.stored spec events new result).holds s) (hrefused : result ≠ .ok (.store .appended)) :
    (Known.halts spec result).holds s := by
  refine ⟨?_, h.2.2.1, fun ask heq => absurd heq (h.2.2.2 ask)⟩
  rintro (heq | heq)
  · exact absurd heq hrefused
  · exact h.2.1 heq

/-- What a driven worker appends. -/
theorem Server.Works.drove {s : Server} {new : List Event} (h : s.Works spec token number events)
    (hturn : isTurn spec = false) (hends : EndsAtTerminal (events ++ new))
    (hagrees : Agrees spec (payloads (events ++ new))) (hdriven : ∀ payload ∈ payloads new, isDriven payload = true) :
    Writes fleet s spec.runId (some events.length) new (.worker token) :=
  h.writes (by simp) (fun _ hbox => by simp [isBoxTurn, hturn] at hbox) (.drove rfl hturn hends hagrees hdriven)

theorem does_atBoundary (hturn : isTurn spec = false) {seen : Driver.Seen} {kept : Carried} {driver : Driver}
    (hgrows : seen.log <+: driver.events) (hgoing : driver.Going) (hdriven : Driver.Driven spec events driver) :
    (Service fleet pends).Does (Known.carries spec token number events seen kept) (atBoundary spec token kept driver)
      fun result => Known.carries spec token number events ⟨driver.events, Driver.pauses (.boundary driver) result.1⟩
        result.2 := by
  rintro s hinv ⟨⟨log, hbase, htracks, hworks⟩, -, hrefuses⟩
  have hknown : log <+: driver.events := htracks.grows.trans hgrows
  obtain ⟨length, refused⟩ := kept
  obtain rfl : length = log.length := htracks.seen_eq
  have hall := append_drop_known hknown
  have hstill : ∀ (boundary : Boundary), boundary ≠ .pause → ∀ {t : Server},
      (Known.works spec token number log).holds t → (Known.refuses spec ⟨log.length, refused⟩).holds t →
        (Known.carries spec token number events ⟨driver.events, Driver.pauses (.boundary driver) boundary⟩
          ⟨log.length, refused⟩).holds t := by
    intro boundary hnot t hworks hrefuses
    refine ⟨⟨log, hbase, ⟨hknown, htracks.open_, rfl⟩, hworks⟩, fun hpaused => ?_, hrefuses⟩
    cases boundary with
    | pause => exact absurd rfl hnot
    | _ => simp [Driver.pauses] at hpaused
  refine (Minds.bind (K := (Known.works spec token number log).and (Known.refuses spec ⟨log.length, refused⟩))
    (minds_stopped _) fun covered => ?_)
    s hinv ⟨hworks, hrefuses⟩
  split
  · exact does_ret fun t _ hs => hstill .cancel nofun hs.1 hs.2
  · dsimp only
    split
    · exact does_ret fun t _ hs => hstill .continue nofun hs.1 hs.2
    · refine Does.bind (does_appendAfter (fun t hs => hs.1.saw) fun t _ hs => ?_) fun result => ?_
      · refine hs.1.drove hturn ?_ ?_ (hdriven.dropped hbase hknown)
        · rw [hall]
          exact endsAtTerminal_of_open hgoing.2
        · rw [hall]
          exact hdriven.agrees
      · split
        · refine does_ret fun t _ hs => ?_
          have hsaw : t.Saw spec.runId spec driver.events := hall ▸ hs.2.1 rfl
          refine ⟨⟨driver.events, hbase.trans hknown, ⟨List.prefix_refl _, hgoing.2, rfl⟩, ?_⟩, nofun, hs.1.2⟩
          exact ⟨hs.1.1.claimed, hs.1.1.started, hsaw, hgoing.2⟩
        · next hrefused =>
            refine does_ret fun t _ hs => ?_
            refine ⟨⟨log, hbase, ⟨hknown, htracks.open_, rfl⟩, hs.1.1⟩, nofun, ?_⟩
            rintro other heq
            cases heq
            exact Known.stored_halts hs.2 hrefused

/-- Carrying out a call of the harness keeps what is known of its log. -/
theorem does_carry (w : Worker) (hturn : isTurn spec = false) {seen : Driver.Seen} {kept : Carried} {c : HarnessCall}
    (howes : seen.Owes spec c) (hdrives : ∀ driver, c = .boundary driver → Driver.Driven spec events driver) :
    (Service fleet pends).Does (Known.carries spec token number events seen kept) (w.carry spec token kept c)
      fun result => Known.carries spec token number events ⟨c.log, Driver.pauses c result.1⟩ result.2 := by
  have hquiet : ∀ {p : Prog ServerSig c.Answer}, Minds fleet pends p → (∀ answer, Driver.pauses c answer = false) →
      (Service fleet pends).Does (Known.carries spec token number events seen kept)
        (p.bind fun answer => .ret (answer, kept))
        fun result => Known.carries spec token number events ⟨c.log, Driver.pauses c result.1⟩ result.2 := by
    intro p hp hpauses
    refine hp.bind fun answer => does_ret fun s _ hs => ?_
    obtain ⟨⟨log, hbase, htracks, hworks⟩, -, hrefuses⟩ := hs
    refine ⟨⟨log, hbase, htracks.step howes.grows rfl, hworks⟩, fun hpaused => ?_, hrefuses⟩
    simp [hpauses answer] at hpaused
  have hask : ∀ call : OutsideCall, (∀ run, call ≠ .removeVolume run) →
      Minds fleet pends (Prog.ask (S := ServerSig) (.outside call)) := by
    intro call hcall
    refine minds_only ⟨fun s => ?_, fun _ => trivial⟩
    cases call with
    | removeVolume run => exact absurd rfl (hcall run)
    | _ => trivial
  cases c with
  | decide view => exact hquiet (hask (.harness (.decide view)) nofun) fun _ => rfl
  | tool log name input => exact hquiet (hask (.harness (.tool log name input)) nofun) fun _ => rfl
  | model log request => exact hquiet (hask (.harness (.model log request)) nofun) fun _ => rfl
  | memoryRead log owner key => exact hquiet (hask (.harness (.memoryRead log owner key)) nofun) fun _ => rfl
  | memoryWrite log owner key value =>
      exact hquiet (hask (.harness (.memoryWrite log owner key value)) nofun) fun _ => rfl
  | spawn log request => exact hquiet (minds_startChild w.v5 request log) fun _ => rfl
  | send log request => exact hquiet (minds_send w.v5 request log) fun _ => rfl
  | boundary driver =>
      exact does_atBoundary hturn howes.grows (howes.boundary driver rfl).2 (hdrives driver rfl)

/-- Where a run stands that its worker has stored up to `final`. -/
theorem Known.stoppedAt_halts {result : Except String Stopped} {driver : Driver} {final : List Event} {s : Server}
    (hturn : isTurn spec = false) (hsaw : result = .ok (.store .appended) → s.Saw spec.runId spec final)
    (hrefused : result ≠ .ok (.store .appended) → (Known.halts spec result).holds s)
    (hasks : ∀ step attempt ask, driver.state.harness = .waitingForMessage step attempt ask →
      askState final ask = .open)
    (hends : (∀ step attempt ask, driver.state.harness ≠ .waitingForMessage step attempt ask) → hasEnded final = true) :
    (Known.halts spec (stoppedAt driver result)).holds s := by
  by_cases happended : result = .ok (.store .appended)
  · subst happended
    have hsaw := hsaw rfl
    unfold stoppedAt
    dsimp only
    split
    · next step attempt ask hwaiting =>
        refine ⟨fun heq => absurd heq (by simp), nofun, ?_⟩
        rintro ask' heq
        cases heq
        exact ⟨hturn, final, hsaw, hasks step attempt _ hwaiting⟩
    · next hnot =>
        exact ⟨fun _ => hsaw.ended (hends hnot), nofun, nofun⟩
  · have hsame : stoppedAt driver result = result := by
      unfold stoppedAt
      split
      · exact absurd rfl happended
      · rfl
    rw [hsame]
    exact hrefused happended

/-- The tail of a driver's log is stored. -/
theorem does_storeTail (hturn : isTurn spec = false) {driver : Driver} {tail : List Event}
    (hends : EndsAtTerminal (events ++ tail)) (hagrees : Agrees spec (payloads (events ++ tail)))
    (hdriven : ∀ payload ∈ payloads tail, isDriven payload = true)
    (hasks : ∀ step attempt ask, driver.state.harness = .waitingForMessage step attempt ask →
      askState (events ++ tail) ask = .open)
    (hended : (∀ step attempt ask, driver.state.harness ≠ .waitingForMessage step attempt ask) →
      hasEnded (events ++ tail) = true) :
    (Service fleet pends).Does (Known.works spec token number events)
      (storeTail spec token events.length driver tail) (Known.halts spec) := by
  unfold storeTail
  split
  · next hempty =>
      rw [List.isEmpty_iff.mp hempty, List.append_nil] at hasks hended
      exact does_ret fun s _ hs => Known.stoppedAt_halts hturn (fun _ => hs.saw) (absurd rfl) hasks hended
  · refine Does.bind (does_appendAfter (fun s hs => hs.saw) fun s _ hs => hs.drove hturn hends hagrees hdriven)
      fun result => does_ret fun s _ hs => ?_
    exact Known.stoppedAt_halts hturn hs.2.1 (Known.stored_halts hs.2) hasks hended

/-- A driver that stopped: what it left is stored, with the failure of its decider. -/
theorem does_finish (hturn : isTurn spec = false) {log : List Event} {seen : Driver.Seen} {driver : Driver}
    {finish : Driver.Finish} (stamps : Nat → Stamp) (hbase : events <+: log) (hknown : log <+: driver.events)
    (hreturns : Driver.Returns spec seen (driver, finish)) (hdriven : Driver.Driven spec events driver)
    (hpaused : seen.paused = false) :
    (Service fleet pends).Does (Known.works spec token number log)
      (storeTail spec token log.length driver (tailOf spec stamps log.length driver finish)) (Known.halts spec) := by
  have hall := append_drop_known hknown
  have hasks : ∀ step attempt ask, driver.state.harness = .waitingForMessage step attempt ask →
      askState driver.events ask = .open := by
    intro step attempt ask hwaiting
    have hfold : harnessOf spec (payloads driver.events) = .waitingForMessage step attempt ask := by
      rw [← hdriven.spec_eq]
      exact hwaiting
    exact askState_of_waiting hfold
  cases finish with
  | outOfFuel => exact absurd rfl hreturns.fueled
  | failed error =>
      have hopen := (hreturns.failed error rfl).1
      let failed := runFailedEvent spec stamps .dependency ("decider: " ++ error.message)
      have hfinal : log ++ tailOf spec stamps log.length driver (.failed error) = driver.events ++ [failed] := by
        rw [tailOf, ← List.append_assoc, hall]
      refine does_storeTail hturn ?_ ?_ ?_ ?_ ?_
      · exact hfinal ▸ endsOnce_snoc _ _ hopen
      · rw [hfinal, payloads_append]
        exact hdriven.agrees.snoc (by rwa [← Driver.logEnded_eq]) (fun _ h => by cases h) (fun h => by cases h)
          (fun _ h => by cases h)
      · intro payload hpayload
        rw [tailOf, payloads_append] at hpayload
        rcases List.mem_append.mp hpayload with hdropped | hfailed
        · exact hdriven.dropped hbase hknown payload hdropped
        · obtain rfl := List.mem_singleton.mp hfailed
          rfl
      · intro step attempt ask hwaiting
        rw [hfinal, askState_snoc]
        exact hasks step attempt ask hwaiting
      · intro _
        rw [hfinal, hasEnded_append, Bool.or_eq_true]
        exact .inr rfl
  | ok =>
      have hfinal : log ++ tailOf spec stamps log.length driver .ok = driver.events := by
        simp only [tailOf, List.append_nil, hall]
      refine does_storeTail hturn ?_ ?_ ?_ ?_ ?_
      · exact hfinal ▸ (endsAtTerminal_iff _).mpr hreturns.ends
      · exact hfinal ▸ hdriven.agrees
      · simp only [tailOf, List.append_nil]
        exact hdriven.dropped hbase hknown
      · exact hfinal ▸ hasks
      · intro hnot
        rw [hfinal]
        rcases hreturns.ok rfl with hended | ⟨-, hpause | ⟨step, attempt, ask, hwaiting⟩⟩
        · exact hended
        · simp [hpaused] at hpause
        · exact absurd hwaiting (hnot step attempt ask)

/-- A driver resumed from the log the worker knows. -/
theorem does_drive (w : Worker) (hturn : isTurn spec = false) (tools : List ToolDescriptor) {driver : Driver}
    (hresumed : Driver.Resumed spec events driver) (hdriven : Driver.Driven spec events driver) :
    (Service fleet pends).Does (Known.works spec token number events) (w.drive spec token tools driver events.length)
      (Known.halts spec) := by
  intro s hinv hs
  have hstart : (Known.carries spec token number events ⟨events, false⟩ ⟨events.length, none⟩).holds s :=
    ⟨⟨events, List.prefix_refl _, ⟨List.prefix_refl _, hs.open_, rfl⟩, hs⟩, nofun, nofun⟩
  have hsafe : (Service fleet pends).Safe _ ((Driver.runUntil tools driver).handle (w.carry spec token) _) s :=
    Safe.handle (fun seen kept t => (Known.carries spec token number events seen kept).holds t)
      (fun seen kept t c hcarries hinv howes => ((does_carry w hturn howes.1 howes.2) t hinv hcarries).mono
        fun u result hresult => ⟨_, rfl, hresult⟩)
      (hresumed.runUntil_drives hs.open_ hs.saw.sane.agrees hdriven tools) hstart hinv
  refine Safe.bind ((hsafe.inv hinv).mono ?_)
  rintro t ⟨⟨driver, finish⟩, kept⟩
    ⟨⟨seen, ⟨hreturns, hdriven⟩, ⟨log, hbase, htracks, hworks⟩, hpaused, hrefuses⟩, hinv⟩
  dsimp only
  split
  · next refused hrefused => exact hrefuses refused hrefused
  · next hnone =>
      refine does_stamps (K := Known.works spec token number log) (fun stamps => ?_) t hinv hworks
      rw [htracks.seen_eq]
      refine does_finish hturn stamps hbase (htracks.grows.trans hreturns.grows) hreturns hdriven ?_
      by_contra hpause
      exact hpaused (by simpa using hpause) hnone

theorem minds_delegation (spec : RunSpec) : Minds fleet pends (delegation spec) := by
  unfold delegation
  split
  · exact does_done
  · refine minds_only ⟨fun _ => trivial, fun agents => ?_⟩
    cases agents <;> trivial

theorem minds_toolsOf (w : Worker) (spec : RunSpec) : Minds fleet pends (w.toolsOf spec) := by
  unfold Worker.toolsOf
  split
  · exact minds_only ⟨fun _ => trivial, fun _ => trivial⟩
  · refine minds_only ⟨fun _ => trivial, fun found => ?_⟩
    rcases found with _ | (_ | agent)
    · trivial
    · trivial
    · dsimp only
      split
      · trivial
      · exact ⟨fun _ => trivial, fun _ => trivial⟩

/-- A resumed run whose client does not build ends failed. -/
theorem does_failedClient (hturn : isTurn spec = false) (stamps : Nat → Stamp) (message : String) {driver : Driver}
    (hresumed : Driver.Resumed spec events driver)
    (hdriven : ∀ {s : Server}, s.Works spec token number events → Driver.Driven spec events driver) :
    (Service fleet pends).Does (Known.works spec token number events)
      (append spec.runId token events.length (driver.events.drop events.length ++
        [runFailedEvent spec stamps .dependency ("decider: " ++ message)])) (Known.halts spec) := by
  have hall := append_drop_known hresumed.grows
  refine does_appendEnd ?_ (fun s hs => hs.saw) fun s _ hs => ?_
  · rw [hasEnded_append, Bool.or_eq_true]
    exact .inr rfl
  · have hdriven := hdriven hs
    have hopen : driver.logEnded = false := by
      refine hresumed.logEnded_of_open hs.open_ fun outcome heq => ?_
      have hharness := hs.saw.sane.agrees.harness_open (by rw [← Driver.hasEnded_eq]; exact hs.open_)
      simp [heq, HarnessState.isTerminal] at hharness
    refine hs.drove hturn ?_ ?_ ?_
    · rw [← List.append_assoc, hall]
      exact endsOnce_snoc _ _ hopen
    · rw [← List.append_assoc, hall, payloads_append]
      exact hdriven.agrees.snoc (by rwa [← Driver.logEnded_eq]) (fun _ h => by cases h) (fun h => by cases h)
        (fun _ h => by cases h)
    · intro payload hpayload
      rw [payloads_append] at hpayload
      rcases List.mem_append.mp hpayload with hdropped | hfailed
      · exact hdriven.dropped (List.prefix_refl _) hresumed.grows payload hdropped
      · obtain rfl := List.mem_singleton.mp hfailed
        rfl

/-- A harness run from the log the worker knows. A harness that has completed is not in an open log, so `resume` ends
none, and a client that does not build fails the run once. -/
theorem does_runHarness (w : Worker) (hturn : isTurn spec = false) :
    (Service fleet pends).Does (Known.works spec token number events) (w.runHarness spec events token)
      (Known.halts spec) := by
  refine does_stamps fun stamps => ?_
  split
  · exact does_appendEnded (.inr ⟨_, _, rfl⟩) (by simp [isBoxTurn, hturn])
  · next driver hresume =>
      refine (minds_holds _ _).bind fun held => ?_
      split
      · exact does_lost (by simp) (by simp)
      · refine (minds_delegation spec).bind fun targets => ?_
        have hresumed : Driver.Resumed spec events (w.setUp driver targets) := by
          rw [Worker.setUp_eq]
          exact (Driver.resume_cases hresume).setUp _
        have hdriven : ∀ {s : Server}, s.Works spec token number events →
            Driver.Driven spec events (w.setUp driver targets) := by
          intro s hs
          rw [Worker.setUp_eq]
          exact (Driver.resume_driven hresume hs.open_ hs.saw.sane.agrees).setUp _
        split
        · next message _ =>
            exact does_stamps fun stamps => does_failedClient hturn stamps message hresumed hdriven
        · refine (minds_toolsOf w spec).bind fun found => ?_
          cases found with
          | error error => exact does_lost (by simp) (by simp)
          | ok tools => exact fun s hinv hs => does_drive w hturn tools hresumed (hdriven hs) s hinv hs

theorem does_runScheduled (w : Worker) (hnumber : number ≤ fleet.maxDeliveries)
    (hqueued : (fold spec events).dispatch ≠ .queued) :
    (Service fleet pends).Does (Known.works spec token number events) (w.runScheduled spec events token number)
      (Known.halts spec) := by
  unfold Worker.runScheduled
  split
  · next hturn => exact does_runTurn hturn hnumber hqueued
  · next hturn => exact does_runHarness w (by simpa using hturn)

/-- The claim of a run, its start counted, and a log of it read. -/
def Known.attempts (spec : RunSpec) (token : Token) (number : Nat) (events : List Event) : Known :=
  ⟨fun s => s.Claimed spec.runId token ∧ s.Started spec.runId token number ∧ s.Saw spec.runId spec events,
    fun h ⟨hclaimed, hstarted, hsaw⟩ => ⟨hclaimed.later h, hstarted.later h, hsaw.later h⟩⟩

theorem does_runFrom (w : Worker) (hnumber : number ≤ fleet.maxDeliveries) :
    (Service fleet pends).Does (Known.attempts spec token number events) (w.runFrom spec events token number)
      (Known.halts spec) := by
  unfold Worker.runFrom
  split
  · next hended => exact does_ret fun s _ hs => ⟨fun _ => hs.2.2.ended hended, nofun, nofun⟩
  · next hopen =>
      have hopen : hasEnded events = false := by simpa using hopen
      suffices hworks : (Service fleet pends).Does (Known.works spec token number events) _ (Known.halts spec) from
        hworks.pre fun s _ hs => ⟨hs.1, hs.2.1, hs.2.2, hopen⟩
      refine (minds_stopped _).bind fun covered => ?_
      split
      · exact does_stamps fun stamps => does_endTurn hnumber (.inl rfl)
      · split
        · next hqueued =>
            refine does_stamps fun stamps => ?_
            refine Does.bind (does_appendAfter (fun s hs => hs.saw) fun s _ hs => ?_) fun result => ?_
            · exact hs.writes (by simp) (fun hended => by cases hended) (.scheduled rfl hqueued rfl)
            · split
              · intro s hinv hs
                have hbatch : payloads (dispatchEvents spec stamps) =
                  [.runScheduled, .runProvisioning, .runStarting] := rfl
                have hscheduled := (hs.1.saw.sane.scheduled hopen hqueued hbatch).2
                refine does_runScheduled w hnumber (by simp [hscheduled]) s hinv ?_
                exact ⟨hs.1.claimed, hs.1.started, hs.2.1 rfl, hasEnded_scheduled spec stamps hopen⟩
              · next hrefused => exact does_ret fun s _ hs => Known.stored_halts hs.2 hrefused
        · next hqueued => exact does_runScheduled w hnumber hqueued

/-! ### One claim -/

/-- What came of a run that was run from its log. -/
def Known.comes (spec : RunSpec) (result : Except String Worker.Outcome) : Known :=
  .and (.imp (result = .ok (.stored .appended) ∨ result = .ok (.stored .terminal)) (Known.ended spec.runId))
    (.and (.pure (result ≠ .ok (.stored .missing)))
      ⟨fun s => ∀ ask, result = .ok (.waiting ask) → (Known.waits spec ask).holds s,
        fun h hs ask heq => (Known.waits spec ask).later h (hs ask heq)⟩)

/-- A run left open without a word on what it waits for. -/
theorem does_leftOpen {result : Except String Worker.Outcome}
    (hstored : ∀ append, result = .ok (.stored append) → append = .moved)
    (hwaiting : ∀ ask, result ≠ .ok (.waiting ask)) :
    (Service fleet pends).Does K (.ret result) (Known.comes spec) := by
  have hnot : ∀ append, append ≠ .moved → result ≠ .ok (.stored append) :=
    fun append hne heq => hne (hstored append heq)
  refine does_ret fun s _ _ => ⟨?_, hnot .missing nofun, fun ask heq => absurd heq (hwaiting ask)⟩
  rintro (heq | heq)
  · exact absurd heq (hnot .appended nofun)
  · exact absurd heq (hnot .terminal nofun)

theorem does_waiting {ask : MessageId} (hwaits : ∀ s, K.holds s → (Known.waits spec ask).holds s) :
    (Service fleet pends).Does K (.ret (.ok (.waiting ask))) (Known.comes spec) := by
  refine does_ret fun s _ hs => ⟨?_, nofun, ?_⟩
  · rintro (heq | heq) <;> cases heq
  · rintro ask' heq
    cases heq
    exact hwaits s hs

theorem does_storeAsItGoes (w : Worker) (hnumber : number ≤ fleet.maxDeliveries) (left : Nat) :
    (Service fleet pends).Does (Known.attempts spec token number events) (w.storeAsItGoes spec token number left events)
      (Known.comes spec) := by
  have hmoved : ∀ append, (.ok (.stored .moved) : Except String Worker.Outcome) = .ok (.stored append) →
      append = .moved := by
    rintro append ⟨⟩
    rfl
  induction left generalizing events with
  | zero =>
      rw [Worker.storeAsItGoes.eq_def]
      refine Does.bind (does_runFrom w hnumber) fun result => ?_
      rcases result with error | (_ | _ | _ | _) | _ | ask
      · exact does_leftOpen nofun nofun
      · exact does_ret fun s _ hs => ⟨fun _ => hs.2.1 (.inl rfl), nofun, nofun⟩
      · exact does_ret fun s _ hs => ⟨fun _ => hs.2.1 (.inr rfl), nofun, nofun⟩
      · exact fun s _ hs => absurd rfl hs.2.2.1
      · exact does_leftOpen hmoved nofun
      · exact does_leftOpen hmoved nofun
      · exact does_waiting fun s hs => hs.2.2.2 ask rfl
  | succ left ih =>
      rw [Worker.storeAsItGoes.eq_def]
      refine Does.bind (does_runFrom w hnumber) fun result => ?_
      rcases result with error | (_ | _ | _ | _) | _ | ask
      · exact does_leftOpen nofun nofun
      · exact does_ret fun s _ hs => ⟨fun _ => hs.2.1 (.inl rfl), nofun, nofun⟩
      · exact does_ret fun s _ hs => ⟨fun _ => hs.2.1 (.inr rfl), nofun, nofun⟩
      · exact fun s _ hs => absurd rfl hs.2.2.1
      · refine does_readStored (fun s hs => hs.1.2.2.stored.elim fun _ hstored => ⟨_, hstored⟩)
          (fun error => does_leftOpen nofun nofun) fun run => ?_
        refine (@ih run.events).pre fun s _ hs => ⟨hs.1.1.1, hs.1.1.2.1, ?_⟩
        have hspec := hs.1.1.2.2.spec_eq hs.2.1
        rw [hspec] at hs ⊢
        exact hs.2.1
      · exact does_leftOpen hmoved nofun
      · exact does_waiting fun s hs => hs.2.2.2 ask rfl

theorem minds_answerAsk (w : Worker) (spec : RunSpec) : Minds fleet pends (w.answerAsk spec) := by
  unfold Worker.answerAsk
  split
  · exact does_done
  · refine does_quiet (fun _ => trivial) fun answer => ?_
    rcases answer with _ | (_ | ask)
    · exact does_done
    · exact does_done
    · refine does_quiet (fun _ => trivial) fun answer => ?_
      rcases answer with _ | (_ | task)
      · exact does_done
      · exact does_done
      · refine does_stamps fun stamps => ?_
        split
        · next answer hanswer =>
            exact (minds_deliver _ _ .leave (answersAsk_taskAnswer hanswer)).bind fun _ => does_done
        · exact does_done

theorem does_execute (w : Worker) (hnumber : number ≤ fleet.maxDeliveries) :
    (Service fleet pends).Does (Known.attempts spec token number events) (w.execute spec events token number)
      (Known.comes spec) := by
  refine Does.bind (does_storeAsItGoes w hnumber reloads) fun result => ?_
  split
  · refine (minds_answerAsk w spec).bind fun _ => does_ret fun s _ hs => hs.2
  · exact does_ret fun s _ hs => hs.2

/-- The claim took this run, which is stored. -/
def Known.claimed (id : RunId) (token : Token) : Known :=
  ⟨fun s => s.Claimed id token ∧ ∃ spec events, s.Saw id spec events,
    fun h ⟨hclaimed, spec, events, hsaw⟩ => ⟨hclaimed.later h, spec, events, hsaw.later h⟩⟩

/-- The claim read this of its run. -/
def Known.reads (id : RunId) (token : Token) (run : StoredRun) : Known :=
  ⟨fun s => s.Claimed id token ∧ s.Saw id run.spec run.events ∧ (hasEnded run.events = false → s.Opened id token),
    fun h ⟨hclaimed, hsaw, hopened⟩ => ⟨hclaimed.later h, hsaw.later h, fun hopen => (hopened hopen).later h⟩⟩

theorem does_readClaimed {α : Type} {Q : α → Known} {id : RunId}
    {next : Except StoreError (Option StoredRun) → Prog ServerSig α}
    (herror : ∀ error, (Service fleet pends).Does (Known.claimed id token) (next (.error error)) Q)
    (hsome : ∀ run, (Service fleet pends).Does (Known.reads id token run) (next (.ok (some run))) Q) :
    (Service fleet pends).Does (Known.claimed id token) (.call (.store (.run id)) next) Q := by
  refine does_call_step (fun _ _ _ => trivial)
    (fun answer => ((Known.claimed id token).and ⟨fun s => ∃ newer older took took',
      s.trace = newer ++ ⟨.store (.run id), answer, took⟩ :: older ∧
        ⟨.queue (.claim token), .ok (some id), took'⟩ ∈ older, ?_⟩).and (.pure (answer ≠ .ok none))) ?_
    fun answer => does_pure fun hanswer => ?_
  · rintro s t hlater ⟨newer, older, took, took', htrace, hclaim⟩
    obtain ⟨newest, hnewest⟩ := hlater.trace
    exact ⟨newest ++ newer, older, took, took', by rw [← hnewest, htrace, List.append_assoc], hclaim⟩
  · intro answer s t _ hs hstep _
    obtain ⟨took, htrace⟩ := hstep.trace_eq
    obtain ⟨⟨took', hclaim⟩, spec, events, hsaw⟩ := hs
    refine ⟨⟨(Known.claimed id token).later hstep.later ⟨⟨took', hclaim⟩, spec, events, hsaw⟩, ?_⟩, ?_⟩
    · exact ⟨[], s.trace, took, took', htrace, hclaim⟩
    · rintro rfl
      obtain ⟨now, -, hanswers, -⟩ := hstep.answers (by rintro ⟨⟩)
      obtain ⟨more, hstored⟩ := hsaw.stored
      have heq : (.ok none : Except StoreError (Option StoredRun)) = .ok (s.store.runs id) := hanswers.store_eq
      simp [hstored] at heq
  · rcases answer with error | (_ | run)
    · exact (herror error).pre fun _ _ hs => hs.1
    · exact absurd rfl hanswer
    · refine (hsome run).pre fun s hsound hs => ?_
      obtain ⟨⟨hclaimed, -⟩, newer, older, took, took', htrace, hclaim⟩ := hs
      have hasked : s.Asked (.store (.run id)) (.ok (some run)) := ⟨took, by simp [htrace]⟩
      exact ⟨hclaimed, hsound.tells hasked, fun hopen => ⟨newer, older, run, took, took', htrace, hopen, hclaim⟩⟩

theorem does_parkRun (claim : Claim) {ask : MessageId}
    (hclaimed : ∀ s, K.holds s → s.Claimed claim.runId claim.token)
    (hwaits : ∀ s, K.holds s → ∃ spec : RunSpec, spec.runId = claim.runId ∧ (Known.waits spec ask).holds s) :
    (Service fleet pends).Does K (parkRun claim ask) fun _ => .none := by
  refine does_call (fun s _ hs => ?_) fun parked => ?_
  · obtain ⟨spec, hid, hturn, events, hsaw, hopen⟩ := hwaits s hs
    exact ⟨hclaimed s hs, spec, events, hid ▸ hsaw, hturn, hopen⟩
  · rcases parked with _ | (_ | _)
    · exact does_done
    · exact does_done
    · refine does_quiet (fun _ => trivial) fun loaded => ?_
      cases loaded with
      | error error => exact does_done
      | ok loaded =>
          dsimp only
          split
          · exact does_quiet (fun _ => trivial) fun woken => by cases woken <;> exact does_done
          · refine (minds_stopped _).bind fun covered => ?_
            split
            · exact does_quiet (fun _ => trivial) fun woken => by cases woken <;> exact does_done
            · exact does_done

theorem does_ack (done : Done) (hclaimed : ∀ s, K.holds s → s.Claimed done.claim.runId done.claim.token)
    (hwaits : ∀ ask, done.waiting = some ask → ∀ s, K.holds s →
      ∃ spec : RunSpec, spec.runId = done.claim.runId ∧ (Known.waits spec ask).holds s)
    (hended : done.waiting = none → done.recorded ≠ some .moved → ∀ s, K.holds s → s.Ended done.claim.runId) :
    (Service fleet pends).Does K done.ack fun _ => .none := by
  unfold Done.ack
  split
  · next ask hwaiting => exact does_parkRun done.claim hclaimed (hwaits ask hwaiting)
  · next hwaiting =>
      split
      · exact does_call (fun s _ hs => hclaimed s hs) fun _ => does_done
      · next hmoved => exact does_call (fun s _ hs => ⟨hclaimed s hs, hended hwaiting hmoved s hs⟩) fun _ => does_done

/-- What a claim came to before its run is run. -/
def Known.prepared (w : Worker) (claim : Claim) : Except String Prepared → Known
  | .error _ => .none
  | .ok (.open stored attempt) =>
      .and (Known.attempts stored.spec claim.token attempt stored.events)
        (.pure (stored.spec.runId = claim.runId ∧ attempt ≤ w.maxDeliveries))
  | .ok (.done done) =>
      .and (.pure (done.claim = claim ∧ done.waiting = none))
        (.imp (done.recorded ≠ some .moved) (Known.ended claim.runId))

theorem does_handBack (w : Worker) (claim : Claim) (error : String)
    (hclaimed : ∀ s, K.holds s → s.Claimed claim.runId claim.token) :
    (Service fleet pends).Does K (handBack claim error) (Known.prepared w claim) :=
  does_call (fun s _ hs => hclaimed s hs) fun _ => does_ret fun _ _ _ => trivial

theorem does_recordFailed (w : Worker) (claim : Claim) (hid : spec.runId = claim.runId)
    (hopen : hasEnded events = false)
    (hattempts : ∀ s, K.holds s → (Known.attempts spec claim.token number events).holds s)
    (hclean : isBoxTurn spec = true → ∀ s, K.holds s →
      s.Cleaned spec.runId claim.token (min number fleet.maxDeliveries)) :
    (Service fleet pends).Does K (recordFailed claim spec number) (Known.prepared w claim) := by
  obtain ⟨id, token⟩ := claim
  obtain rfl : spec.runId = id := hid
  refine does_stamps fun stamps => does_appendTo ?_ (fun s _ hs => ?_) fun answer hanswer => ?_
  · exact fun s hs => (hattempts s hs).2.2.stored.elim fun _ hstored => ⟨_, hstored⟩
  · obtain ⟨hclaimed, hstarted, hsaw⟩ := hattempts s hs
    have hworks : s.Works spec token number events := ⟨hclaimed, hstarted, hsaw, hopen⟩
    exact hworks.writes nofun (fun _ hbox => hclean hbox s hs) (.ended _ (.inr ⟨_, _, rfl⟩) rfl)
  · cases answer with
    | error error => exact does_ret fun _ _ _ => trivial
    | ok done =>
        refine does_ret fun s _ hs => ⟨⟨rfl, rfl⟩, fun hmoved => ?_⟩
        cases done with
        | appended => exact hs.2 (.inr ⟨rfl, rfl⟩)
        | terminal => exact hs.2 (.inl rfl)
        | missing => exact absurd rfl hanswer
        | moved => exact absurd rfl hmoved

theorem does_failStarted {w : Worker} (hw : w.maxDeliveries = fleet.maxDeliveries) (claim : Claim)
    (hid : spec.runId = claim.runId) (hopen : hasEnded events = false) :
    (Service fleet pends).Does (Known.attempts spec claim.token number events) (failStarted w claim spec number)
      (Known.prepared w claim) := by
  unfold failStarted
  split
  · refine Does.bind (does_cleanBox fun s hs => ⟨number, min_le_left .., hid ▸ hs.2.1⟩) fun cleaned => ?_
    cases cleaned with
    | error error => exact does_ret fun _ _ _ => trivial
    | ok _ =>
        refine (minds_holds _ _).bind fun held => ?_
        dsimp only
        split
        · exact does_ret fun _ _ _ => ⟨⟨rfl, rfl⟩, absurd rfl⟩
        · refine does_recordFailed w claim hid hopen (fun s hs => hs.1) fun _ s hs => ?_
          rw [hid, ← hw]
          exact hs.2 rfl
  · next hbox => exact does_recordFailed w claim hid hopen (fun s hs => hs) fun h => absurd h hbox

theorem does_prepare {w : Worker} (hw : w.maxDeliveries = fleet.maxDeliveries) (claim : Claim) :
    (Service fleet pends).Does (Known.claimed claim.runId claim.token) (w.prepare claim) (Known.prepared w claim) := by
  obtain ⟨id, token⟩ := claim
  refine does_readClaimed (fun error => does_handBack w _ _ fun s hs => hs.1) fun stored => ?_
  dsimp only
  split
  · next hended =>
      exact does_ret fun s _ hs => ⟨⟨rfl, rfl⟩, fun _ => hs.2.1.ended hended⟩
  · next hopen =>
      have hopen : hasEnded stored.events = false := by simpa using hopen
      refine does_ask (fun s _ hs => hs.2.2 hopen) fun starts => ?_
      cases starts with
      | error error => exact does_handBack w _ _ fun s hs => hs.1.1
      | ok starts =>
          intro s hinv hs
          obtain rfl : stored.spec.runId = id := hs.1.2.1.named
          have hattempts : (Known.attempts stored.spec token starts stored.events).holds s := ⟨hs.1.1, hs.2, hs.1.2.1⟩
          dsimp only
          split
          · exact does_failStarted hw ⟨stored.spec.runId, token⟩ rfl hopen s hinv hattempts
          · next hfew => exact ⟨hattempts, rfl, by omega⟩

theorem minds_workOne {w : Worker} (hw : w.maxDeliveries = fleet.maxDeliveries) (token : Token) :
    Minds fleet pends (w.workOne token) := by
  refine does_ask (fun _ _ _ => trivial) fun claimed => ?_
  rcases claimed with error | (_ | id)
  · exact does_done
  · exact does_done
  · suffices hclaim : (Service fleet pends).Does (Known.claimed id token) _ _ from
      hclaim.pre fun s hsound hs => ⟨hs.2, hsound.tells hs.2⟩
    refine Does.bind (does_prepare hw ⟨id, token⟩) fun prepared => ?_
    rcases prepared with error | (⟨stored, attempt⟩ | done)
    · exact does_done
    · intro s hinv hs
      obtain ⟨hattempts, hid, hattempt⟩ := hs.2
      suffices hopen : (Service fleet pends).Does (Known.attempts stored.spec token attempt stored.events) _ _ from
        hopen s hinv hattempts
      obtain rfl : stored.spec.runId = id := hid
      refine Does.bind (does_execute w (hw ▸ hattempt)) fun result => ?_
      rcases result with error | append | ask
      · exact does_done
      · refine Does.bind (does_ack _ (fun s hs => hs.1.1) nofun fun _ hmoved s hs => ?_) fun acked => ?_
        · cases append with
          | appended => exact hs.2.1 (.inl rfl)
          | terminal => exact hs.2.1 (.inr rfl)
          | missing => exact absurd rfl hs.2.2.1
          | moved => exact absurd rfl hmoved
        · cases acked <;> exact does_done
      · refine Does.bind (does_ack _ (fun s hs => hs.1.1) ?_ nofun) fun acked => ?_
        · rintro _ ⟨⟩ s hs
          exact ⟨stored.spec, rfl, hs.2.2.2 ask rfl⟩
        · cases acked <;> exact does_done
    · refine Does.bind (does_ack done (fun s hs => ?_) (fun ask hask s hs => ?_) fun _ hmoved s hs => ?_)
        fun acked => ?_
      · rw [hs.2.1.1]
        exact hs.1.1
      · rw [hs.2.1.2] at hask
        cases hask
      · rw [hs.2.1.1]
        exact hs.2.2 hmoved
      · cases acked <;> exact does_done

end Gol
