import Gol.HarnessCalls
import Gol.ServerBudgets

/-! What stands behind the server's logs. Each stored log is one that its run's drivers built, with what others added
beside them; and a child is stored only where its parent's driver asked for it. -/

namespace Gol
open Library World

/-- A log that the drivers of `spec` built, and that leaves no decision without its verdict. -/
structure Built (spec : RunSpec) (events : List Event) : Prop where
  builds : Driver.Builds spec events
  whole : Whole (payloads events)

namespace Built

variable {spec : RunSpec} {events batch : List Event}

theorem beside (h : Built spec events) (hbatch : ∀ payload ∈ payloads batch, Driver.isBeside payload = true) :
    Built spec (events ++ batch) := by
  induction batch generalizing events with
  | nil => rwa [List.append_nil]
  | cons event batch ih =>
      have hevent : Driver.isBeside event.payload = true := hbatch _ (List.mem_cons_self ..)
      have hplain : isDecided event.payload = false := by
        cases hpayload : event.payload with
        | effectDecided effect => rw [hpayload] at hevent; cases hevent
        | _ => rfl
      have hnext : Built spec (events ++ [event]) :=
        ⟨.beside h.builds h.whole hevent, payloads_append events [event] ▸ Whole.snoc _ hplain⟩
      rw [List.append_cons]
      exact ih hnext fun payload hmem => hbatch payload (List.mem_cons_of_mem _ hmem)

theorem nil (spec : RunSpec) : Built spec [] := ⟨.nil, by simp [Whole]⟩

end Built

/-- What a turn records that a request completes. -/
def Completes (tail : List Event) : Prop :=
  ∃ message usage text, payloads tail = [.modelResponded message usage, .runCompleted text]

/-- A log that is built, or one that is with a turn's completion. -/
def Driven (spec : RunSpec) (events : List Event) : Prop :=
  ∃ built tail, events = built ++ tail ∧ Built spec built ∧ (tail = [] ∨ Completes tail)

/-- A log without a terminal event is built as it is. -/
theorem Driven.built {spec : RunSpec} {events : List Event} (h : Driven spec events) (hopen : hasEnded events = false) :
    Built spec events := by
  obtain ⟨built, tail, rfl, hbuilt, rfl | ⟨message, usage, text, htail⟩⟩ := h
  · rwa [List.append_nil]
  · rw [Driver.hasEnded_eq, payloads_append, htail, List.any_append] at hopen
    simp [isTerminal] at hopen

/-- The run is one that a call of its parent's driver asks for, at the log `asked`. -/
def AskedFor (parent : RunSpec) (asked : List Event) (spec : RunSpec) : Prop :=
  ∃ c request v5 agent, Driver.MadeBy parent c ∧ c.log = asked ∧ c.child = some request ∧
    spec = childOf v5 request agent

/-- What is owed where a child is put, a call of its parent's driver that asks for it; and where a log that was read
is appended to, a log that is built. -/
def Warrants (s : Server) : ServerCall → Prop
  | .store (.putRun run (.child asked)) =>
      ∃ parent events, s.Saw parent.runId parent events ∧ AskedFor parent asked run.spec
  | .store (.appendEventsAfter id seen batch _) => (∀ payload ∈ payloads batch, Driver.isBeside payload = true) ∨
      ∃ spec events, s.Saw id spec events ∧ events.length = seen ∧ Built spec (events ++ batch)
  | _ => True

/-- The programs build what they store. -/
def warrant : Pledge where
  Owes := Warrants
  Kept s := ∀ id run, s.store.runs id = some run → Driven run.spec run.events
  told spec events := .pure (hasEnded events = false → Built spec events)
  bystands {s c} h := by
    cases c with
    | store c =>
        cases c with
        | putRun run origin =>
            cases origin with
            | child asked => exact h.elim
            | _ => trivial
        | appendEventsAfter id seen batch party => exact .inl h
        | _ => trivial
    | _ => trivial
  reads h hstored hopen := (h _ _ hstored).built hopen
  grows h hbeside hopen := (h (by simp_all)).beside hbeside

/-! ### Harness runs -/

variable {spec : RunSpec} {token : Token} {seen : Driver.Seen} {kept : Carried}

/-- How much of a driven run's log is stored. -/
def Known.tracks (spec : RunSpec) (seen : Driver.Seen) (kept : Carried) : Known :=
  ⟨fun s => ∃ stored, kept.Tracks seen stored ∧ s.Saw spec.runId spec stored,
    fun h ⟨stored, htracks, hsaw⟩ => ⟨stored, htracks, hsaw.later h⟩⟩

/-- At a boundary a driver's log is built. -/
theorem warrant.does_atBoundary {driver : Driver} (hgrows : seen.log <+: driver.events)
    (hopen : hasEnded driver.events = false) (hbuilt : Built spec driver.events) :
    warrant.world.Does (Known.tracks spec seen kept) (atBoundary spec token kept driver)
      fun result => Known.tracks spec ⟨driver.events, Driver.pauses (.boundary driver) result.1⟩ result.2 := by
  rintro s hinv ⟨stored, htracks, hsaw⟩
  obtain ⟨length, refused⟩ := kept
  obtain rfl : length = stored.length := htracks.seen_eq
  have hknown : stored <+: driver.events := htracks.grows.trans hgrows
  have hall : stored ++ driver.events.drop stored.length = driver.events := append_drop_known hknown
  have hread : ∀ t, (Known.saw spec.runId spec stored).holds t → t.Saw spec.runId spec stored := fun _ ht => ht
  have howes : ∀ t, (Known.saw spec.runId spec stored).holds t → Warrants t (.store
      (.appendEventsAfter spec.runId stored.length (driver.events.drop stored.length) (.worker token))) :=
    fun t ht => .inr ⟨spec, stored, ht, rfl, hall.symm ▸ hbuilt⟩
  have hbounded : warrant.world.Does _ (atBoundary spec token ⟨stored.length, refused⟩ driver) _ :=
    (Pledge.does_atBoundary (P := warrant) hread hknown howes).frame
  refine (hbounded s hinv hsaw).mono fun t result ht => ?_
  obtain ⟨hsaw, hcontinues, hstops⟩ := ht
  obtain ⟨boundary, later⟩ := result
  cases boundary with
  | «continue» =>
      obtain ⟨hseen, hnow⟩ := hcontinues rfl
      exact ⟨driver.events, ⟨List.prefix_refl _, hopen, hseen⟩, hnow⟩
  | cancel | pause => exact ⟨stored, ⟨hknown, htracks.open_, hstops (by simp)⟩, hsaw⟩

/-- Carrying out a call that a driver makes keeps track of its log. -/
theorem warrant.does_carry (w : Worker) {c : HarnessCall} (howes : seen.Owes spec c)
    (hwhole : ∀ driver, c = .boundary driver → Whole driver.log) (hmade : Driver.MadeBy spec c) :
    warrant.world.Does (Known.tracks spec seen kept) (w.carry spec token kept c)
      fun result => Known.tracks spec ⟨c.log, Driver.pauses c result.1⟩ result.2 := by
  have hstays : ∀ {s paused}, (Known.tracks spec seen kept).holds s →
      (Known.tracks spec ⟨c.log, paused⟩ kept).holds s := by
    rintro s paused ⟨stored, htracks, hsaw⟩
    exact ⟨stored, ⟨htracks.grows.trans howes.grows, htracks.open_, htracks.seen_eq⟩, hsaw⟩
  have hquiet : ∀ {p : Prog ServerSig c.Answer}, warrant.world.Does (Known.tracks spec seen kept) p (fun _ => .none) →
      warrant.world.Does (Known.tracks spec seen kept) (p.bind fun answer => .ret (answer, kept))
        fun result => Known.tracks spec ⟨c.log, Driver.pauses c result.1⟩ result.2 :=
    fun hp => Does.bind hp fun answer => does_ret fun s _ hs => hstays hs.1
  have hask : ∀ call : OutsideCall,
    warrant.world.Does (Known.tracks spec seen kept) (Prog.ask (S := ServerSig) (.outside call))
      fun _ => .none := fun call => Pledge.does_only ⟨trivial, fun _ => trivial⟩
  have howed : ∀ {request}, c.child = some request → ∀ agent,
      warrant.Owed (Known.tracks spec seen kept) c.log (childOf w.v5 request agent) := by
    rintro request hchild agent s stamps ⟨stored, -, hsaw⟩
    exact ⟨spec, stored, hsaw, c, request, w.v5, agent, hmade, rfl, hchild, rfl⟩
  cases c with
  | decide view => exact hquiet (hask (.harness (.decide view)))
  | tool log name input => exact hquiet (hask (.harness (.tool log name input)))
  | model log request => exact hquiet (hask (.harness (.model log request)))
  | memoryRead log owner key => exact hquiet (hask (.harness (.memoryRead log owner key)))
  | memoryWrite log owner key value => exact hquiet (hask (.harness (.memoryWrite log owner key value)))
  | boundary driver => exact warrant.does_atBoundary howes.grows howes.open_ ⟨hmade.builds, hwhole driver rfl⟩
  | spawn log request => exact hquiet ((Pledge.does_startChild w.v5 (howed rfl)).post fun _ _ _ _ => trivial)
  | send log request =>
      have htasks : ∀ limits agent, request.limits = some limits →
          warrant.Owed (Known.tracks spec seen kept) log (childOf w.v5 (request.task limits) agent) :=
        fun limits agent hlimits => howed (congrArg (Option.map request.task) hlimits) agent
      exact hquiet ((Pledge.does_send w.v5 htasks).post fun _ _ _ _ => trivial)

/-- Workers build what they store while they drive a run. -/
theorem warrant_drives : warrant.Drives := by
  intro w spec token events tools stamps driver setup hopen hresume s hinv hs
  obtain ⟨hsaw, htold⟩ := hs
  have hbuilt : Built spec events := htold hopen
  have hresumed := (Driver.resume_cases hresume).setUp setup
  have hends : EndsOnce isTerminal (payloads events) := (endsAtTerminal_iff events).mp (endsAtTerminal_of_open hopen)
  have hgoverned := (hresumed.runUntil_returns_with hends tools Driver.governed_logRule
    fun _ _ _ => hresumed.governed hbuilt.builds.ruled).traced
  have hstart : (Known.tracks spec ⟨events, false⟩ ⟨events.length, none⟩).holds s :=
    ⟨events, ⟨List.prefix_refl _, hopen, rfl⟩, hsaw⟩
  have hsafe : warrant.world.Safe _ ((Driver.runUntil tools (driver.setUp setup)).handle (w.carry spec token) _) s :=
    Safe.handle (fun seen kept t => (Known.tracks spec seen kept).holds t)
      (fun seen kept t c htracks hinv ⟨⟨howes, hboundary⟩, hmakes⟩ =>
        (warrant.does_carry w howes (fun driver heq => (hboundary driver heq).whole)
          ⟨events, stamps, driver, setup, tools, hbuilt.builds, hresume, hmakes⟩ t hinv htracks).mono
            fun u result hresult => ⟨_, rfl, hresult⟩)
      hgoverned hstart hinv
  refine Safe.bind ((hsafe.inv hinv).mono ?_)
  rintro t ⟨⟨last, finish⟩, kept⟩ ⟨⟨seen, ⟨⟨hreturns, hlast⟩, hyields⟩, stored, htracks, hsaw⟩, hinv⟩
  dsimp only
  split
  · trivial
  · have hfinal : Built spec last.events := ⟨.resume hbuilt.builds hresume hyields, hlast.whole⟩
    have hall : stored ++ last.events.drop stored.length = last.events :=
      append_drop_known (htracks.grows.trans hreturns.grows)
    have hread : ∀ t, (Known.saw spec.runId spec stored).holds t → t.Saw spec.runId spec stored := fun _ ht => ht
    have htail : ∀ stamps, Built spec (stored ++ tailOf spec stamps stored.length last finish) := by
      intro stamps
      unfold tailOf
      rw [← List.append_assoc, hall]
      cases finish with
      | failed error => exact hfinal.beside (beside_single rfl)
      | ok | outOfFuel => exact hfinal.beside (by simp)
    refine (Pledge.does_stamps (P := warrant) (K := Known.saw spec.runId spec stored) fun stamps => ?_) t hinv hsaw
    rw [htracks.seen_eq]
    exact Pledge.does_storeTail (P := warrant) last hread fun u hu => .inr ⟨spec, stored, hu, rfl, htail stamps⟩

/-! ### Every step -/

variable {fleet : Fleet} {ok : Pool → Move → Prop} {s t : Server} {c : ServerCall} {answer : c.Answer}

/-- What is appended to any log is beside what its driver does, or completes a turn. -/
theorem Writes.beside_or_completes {id : RunId} {batch : List Event} {party : Party}
    (h : Writes fleet s id none batch party) :
    (∀ payload ∈ payloads batch, Driver.isBeside payload = true) ∨ Completes batch := by
  have hsingle : ∀ {payload}, payloads batch = [payload] → Driver.isBeside payload = true →
      (∀ payload ∈ payloads batch, Driver.isBeside payload = true) ∨ Completes batch := by
    intro payload hbatch hbeside
    refine .inl fun other hmem => ?_
    rw [hbatch] at hmem
    exact List.mem_singleton.mp hmem ▸ hbeside
  cases party with
  | producer =>
      obtain ⟨-, cls, message, hbatch⟩ := h
      exact hsingle hbatch rfl
  | settle => exact hsingle h.2 rfl
  | delivery =>
      obtain ⟨-, spec, events, ask, answer, -, -, -, hanswers, hbatch⟩ := h
      refine hsingle hbatch ?_
      cases answer with
      | messageReceived | askTimedOut => rfl
      | _ => cases hanswers
  | user =>
      obtain ⟨spec, events, question, text, -, hseen, -⟩ := h
      cases hseen
  | stop =>
      obtain ⟨spec, events, -, hseen, -⟩ := h
      cases hseen
  | request =>
      obtain ⟨-, ⟨cls, message, hbatch⟩ | ⟨spec, events, message, usage, text, -, -, hbatch⟩⟩ := h
      · exact hsingle hbatch rfl
      · exact .inr ⟨message, usage, text, hbatch⟩
  | sweep => exact h.elim
  | worker token =>
      obtain ⟨spec, events, number, -, -, -, -, -, -, hwrites⟩ := h
      cases hwrites with
      | ended payload hpayload hbatch =>
          refine hsingle hbatch ?_
          rcases hpayload with rfl | ⟨cls, message, rfl⟩ <;> rfl
      | completed hturn hstarted message usage text hbatch => exact .inr ⟨message, usage, text, hbatch⟩
      | scheduled hafter | begun hafter | drove hafter => cases hafter

/-- What a program puts is beside what a driver does. -/
theorem Puts.built {run : StoredRun} {origin : Origin} (h : Puts fleet s run origin) : Built run.spec run.events := by
  have hbeside : (payloads run.events).all Driver.isBeside = true := by
    cases origin with
    | request =>
        rcases h.2 with ⟨stamps, heq⟩ | ⟨-, stamps, heq⟩ <;>
          · rw [heq]
            rfl
    | fire =>
        obtain ⟨⟨stamps, heq⟩, -⟩ := h
        rw [heq]
        rfl
    | child asked =>
        obtain ⟨-, -, stamps, heq⟩ := h
        rw [heq]
        rfl
  exact (Built.nil run.spec).beside (List.all_eq_true.mp hbeside)

theorem Driven.append {run : StoredRun} {batch : List Event} (h : Built run.spec run.events)
    (hbatch : (∀ payload ∈ payloads batch, Driver.isBeside payload = true) ∨ Completes batch) :
    Driven run.spec (run.events ++ batch) := by
  rcases hbatch with hbeside | hcompletes
  · exact ⟨_, [], (List.append_nil _).symm, h.beside hbeside, .inl rfl⟩
  · exact ⟨_, batch, rfl, h, .inr hcompletes⟩

theorem warrant.step (h : warrant.Kept s) (hwarrants : Warrants s c) (howes : Owes fleet false s c)
    (hstep : s.Step c answer t) :
    warrant.Kept t := by
  intro id run hrun
  rcases hstep.stored hrun with hsame | ⟨origin, rfl, -, -⟩ |
    ⟨before, seen, batch, party, hadds, hbefore, hopen, hlength, rfl⟩
  · exact h id run hsame
  · exact ⟨_, [], (List.append_nil _).symm, Puts.built howes.1, .inl rfl⟩
  · have hbuilt : Built before.spec before.events := (h id before hbefore).built hopen
    cases c with
    | store c =>
        cases c with
        | appendEvents other batch' party' =>
            cases hadds
            exact .append hbuilt (Writes.beside_or_completes howes)
        | appendEventsAfter other seen' batch' party' =>
            cases hadds
            rcases hwarrants with hbeside | ⟨spec, events, hsaw, hseen, hafter⟩
            · exact .append hbuilt (.inl hbeside)
            · obtain ⟨more, hmore⟩ := hsaw.stored
              rw [hbefore] at hmore
              cases hmore
              have hnone : more = [] := by
                have := hlength seen' rfl
                rw [List.length_append] at this
                exact List.length_eq_zero_iff.mp (by omega)
              subst hnone
              rw [List.append_nil] at *
              exact ⟨_, [], (List.append_nil _).symm, hafter, .inl rfl⟩
        | _ => cases hadds
    | _ => cases hadds

theorem Pool.Reach.warranted {pool : Pool} (h : pool.Reach (Serves fleet) ok) : warrant.Held pool :=
  Pledge.held warrant_drives (fun _ _ hrun => by cases hrun)
    (fun s t hsame hkept id run hrun => hkept id run (hsame ▸ hrun))
    (fun hkept howes hservice hstep => warrant.step hkept howes hservice hstep) h

/-- Over any crashes and redeliveries, each stored log is one that its run's drivers build with what others added
beside them, up to the completion that ends a turn. So each decision in it is followed at once by its verdict, what
came of an effect by its authorization, and each effect authorized is one the run may carry out. A process puts a
child only for a call that its stored parent's driver makes. -/
theorem stored_logs_driven (fleet : Fleet) {ok : Pool → Move → Prop} {pool : Pool} (h : pool.Reach (Serves fleet) ok) :
    (∀ id run, pool.server.store.runs id = some run → ∃ built tail, run.events = built ++ tail ∧
      (tail = [] ∨ Completes tail) ∧ Driver.Builds run.spec built ∧ Whole (payloads built) ∧
        Ruled run.spec (payloads built) ∧ Driver.Granted run.spec (payloads built)) ∧
    ∀ p ∈ pool.processes, ∀ run asked, p.Waits (.store (.putRun run (.child asked))) →
      ∃ parent, pool.server.store.runs parent.spec.runId = some parent ∧ AskedFor parent.spec asked run.spec ∧
        Driver.Builds parent.spec asked := by
  refine ⟨fun id run hrun => ?_, fun p hp run asked hwaits => ?_⟩
  · obtain ⟨built, tail, hevents, hbuilt, htail⟩ := h.warranted.kept id run hrun
    exact ⟨built, tail, hevents, htail, hbuilt.builds, hbuilt.whole, hbuilt.builds.ruled, hbuilt.builds.granted⟩
  · obtain ⟨parent, events, hsaw, hasked⟩ := h.warranted.owes h.sound hp hwaits
    obtain ⟨more, hstored⟩ := hsaw.stored
    obtain ⟨c, request, v5, agent, hmade, hlog, -⟩ := id hasked
    exact ⟨⟨parent, events ++ more⟩, hstored, hasked, hlog ▸ hmade.builds⟩

/-- So it is of the run that has delegated to a helper. -/
theorem stored_logs_driven_delegated :
    ∃ (pool : Pool) (run : StoredRun), pool.Reach (Serves .plain) Informed ∧ pool.server.store.runs ⟨1⟩ = some run ∧
      charged (payloads run.events) = [(⟨0⟩, ⟨3, 2⟩)] ∧ ∃ built tail, run.events = built ++ tail ∧
        (tail = [] ∨ Completes tail) ∧ Driver.Builds run.spec built ∧ Whole (payloads built) ∧
          Ruled run.spec (payloads built) ∧ Driver.Granted run.spec (payloads built) := by
  obtain ⟨pool, run, hreach, hrun, -, hcharged⟩ := delegated_reached
  exact ⟨pool, run, hreach, hrun, hcharged, (stored_logs_driven .plain hreach).1 ⟨1⟩ run hrun⟩

end Gol
