import Gol.ServerTurns

/-! The server running: any number of its programs, started at any time, each making its calls one at a time in any
order, and any of them gone at any point (a crash). The Redis clock moves, and a lease can run out between any two
steps. `play` runs a schedule of such moves. -/

namespace Gol
open Library

structure Pool where
  server : Server
  processes : List (Prog ServerSig Unit)

/-- A program whose result nobody waits for. -/
def forget {α : Type} (p : Prog ServerSig α) : Prog ServerSig Unit := p.bind fun _ => .ret ()

inductive Move where
  | spawn (p : Prog ServerSig Unit)
  | call (c : ServerCall) (answer : c.Answer)
  | crash
  | tick
  | expire (run : RunId)

/-- One step of the pool, where only the `allowed` programs are started. -/
inductive Pool.Step (allowed : Prog ServerSig Unit → Prop) : Pool → Move → Pool → Prop
  | spawn (s : Server) (processes : List (Prog ServerSig Unit)) (p : Prog ServerSig Unit) (h : allowed p) :
      Step allowed ⟨s, processes⟩ (.spawn p) ⟨s, p :: processes⟩
  | call (s t : Server) (before after : List (Prog ServerSig Unit)) (c : ServerCall)
      (next : c.Answer → Prog ServerSig Unit) (answer : c.Answer) (h : s.Step c answer t) :
      Step allowed ⟨s, before ++ .call c next :: after⟩ (.call c answer) ⟨t, before ++ next answer :: after⟩
  | crash (s : Server) (before after : List (Prog ServerSig Unit)) (p : Prog ServerSig Unit) :
      Step allowed ⟨s, before ++ p :: after⟩ .crash ⟨s, before ++ after⟩
  | tick (s : Server) (processes : List (Prog ServerSig Unit)) (ms : Nat) :
      Step allowed ⟨s, processes⟩ .tick ⟨{ s with now := s.now + ms }, processes⟩
  | expire (s : Server) (processes : List (Prog ServerSig Unit)) (run : RunId) :
      Step allowed ⟨s, processes⟩ (.expire run) ⟨{ s with queue := s.queue.expire run }, processes⟩

/-- The pools reached from an empty server by steps that all meet `ok`. -/
inductive Pool.Reach (allowed : Prog ServerSig Unit → Prop) (ok : Pool → Move → Prop) : Pool → Prop
  | start : Reach allowed ok ⟨.empty, []⟩
  | step {pool pool' : Pool} {move : Move} (before : Reach allowed ok pool) (hok : ok pool move)
      (h : pool.Step allowed move pool') : Reach allowed ok pool'

/-- The pools that such steps lead to from one. -/
inductive Pool.Leads (allowed : Prog ServerSig Unit → Prop) (ok : Pool → Move → Prop) : Pool → Pool → Prop
  | refl (pool : Pool) : Leads allowed ok pool pool
  | step {pool mid pool' : Pool} {move : Move} (before : Leads allowed ok pool mid) (hok : ok mid move)
      (h : mid.Step allowed move pool') : Leads allowed ok pool pool'

/-- Any step at all. -/
def anyMove (_ : Pool) (_ : Move) : Prop := True

namespace Pool

variable {allowed : Prog ServerSig Unit → Prop} {ok : Pool → Move → Prop}

/-- The induction rule of runs. -/
theorem Reach.invariant {P : Pool → Prop} (hstart : P ⟨.empty, []⟩)
    (hstep : ∀ pool move pool', P pool → ok pool move → pool.Step allowed move pool' → P pool') {pool : Pool}
    (h : Reach allowed ok pool) : P pool := by
  induction h with
  | start => exact hstart
  | step _ hok hmove ih => exact hstep _ _ _ ih hok hmove

theorem Reach.leads {pool pool' : Pool} (h : Reach allowed ok pool) (hleads : Leads allowed ok pool pool') :
    Reach allowed ok pool' := by
  induction hleads with
  | refl => exact h
  | step _ hok hmove ih => exact .step ih hok hmove

theorem Leads.trans {pool mid pool' : Pool} (h : Leads allowed ok pool mid) (h' : Leads allowed ok mid pool') :
    Leads allowed ok pool pool' := by
  induction h' with
  | refl => exact h
  | step _ hok hmove ih => exact .step ih hok hmove

/-! ### Schedules -/

/-- One move of a schedule: a process makes its call, which takes effect, and `outside` and `gateway` answer what the
server does not. -/
inductive Turn where
  | spawn (p : Prog ServerSig Unit)
  | call (process : Nat) (outside : (c : OutsideCall) → c.Answer) (gateway : Except String String)
  | crash (process : Nat)
  | tick (ms : Nat)
  | expire (run : RunId)

/-- The answer of a call that takes effect. -/
def reply (s : Server) (outside : (c : OutsideCall) → c.Answer) (gateway : Except String String) :
    (c : ServerCall) → c.Answer
  | .queue c => .ok (s.queue.exec s.now c).1
  | .store c => (s.store.call 0 c).1
  | .control c => some (.ok (s.controls.exec s.store.runs c).1)
  | .host c => .ok (c.exec s.sandboxes).1
  | .gateway _ _ => gateway
  | .outside c => outside c

theorem answers_reply (s : Server) (outside : (c : OutsideCall) → c.Answer) (gateway : Except String String)
    (c : ServerCall) : s.Answers 0 c (reply s outside gateway c) := by
  cases c with
  | queue c => exact .queue c
  | store c => exact .store c
  | control c => exact .control c
  | host c => exact .host c
  | gateway call party => exact .gateway call party _
  | outside c => exact .outside c _

/-- The move a turn is, and the pool after it. -/
def turn (pool : Pool) : Turn → Option (Move × Pool)
  | .spawn p => some (.spawn p, ⟨pool.server, p :: pool.processes⟩)
  | .call i outside gateway =>
      match pool.processes.drop i with
      | .call c next :: after =>
          if pool.server.Fresh c then
            let answer := reply pool.server outside gateway c
            some (.call c answer,
              ⟨(pool.server.after 0 c).record ⟨c, answer, true⟩, pool.processes.take i ++ next answer :: after⟩)
          else none
      | _ => none
  | .crash i =>
      match pool.processes.drop i with
      | _ :: after => some (.crash, ⟨pool.server, pool.processes.take i ++ after⟩)
      | [] => none
  | .tick ms => some (.tick, ⟨{ pool.server with now := pool.server.now + ms }, pool.processes⟩)
  | .expire run => some (.expire run, ⟨{ pool.server with queue := pool.server.queue.expire run }, pool.processes⟩)

/-- The pool after a schedule, if every move of it can be made and meets `check`. -/
def play (check : Pool → Move → Bool) : List Turn → Pool → Option Pool
  | [], pool => some pool
  | t :: rest, pool =>
      match pool.turn t with
      | none => none
      | some (move, next) => if check pool move then play check rest next else none

/-- The programs a schedule starts. -/
def started (turns : List Turn) : List (Prog ServerSig Unit) :=
  turns.filterMap fun
    | .spawn p => some p
    | _ => none

theorem turn_step {pool pool' : Pool} {t : Turn} {move : Move} (h : pool.turn t = some (move, pool'))
    (hallowed : ∀ p, t = .spawn p → allowed p) : pool.Step allowed move pool' := by
  obtain ⟨s, processes⟩ := pool
  cases t with
  | spawn p =>
      cases h
      exact .spawn s processes p (hallowed p rfl)
  | call i outside gateway =>
      simp only [turn] at h
      split at h
      · next c next after hdrop =>
          split at h
          · next hfresh =>
              cases h
              have hsplit : (⟨s, processes⟩ : Pool) = ⟨s, processes.take i ++ .call c next :: after⟩ := by
                rw [← hdrop, List.take_append_drop]
              rw [hsplit]
              exact .call s _ _ after c next _
                (.done 0 hfresh (answers_reply s outside gateway c))
          · cases h
      · cases h
  | crash i =>
      simp only [turn] at h
      split at h
      · next p after hdrop =>
          cases h
          have hsplit : (⟨s, processes⟩ : Pool) = ⟨s, processes.take i ++ p :: after⟩ := by
            rw [← hdrop, List.take_append_drop]
          rw [hsplit]
          exact .crash s _ after p
      · cases h
  | tick ms =>
      cases h
      exact .tick s processes ms
  | expire run =>
      cases h
      exact .expire s processes run

/-- A schedule of allowed programs is a run. -/
theorem play_leads {check : Pool → Move → Bool} (hcheck : ∀ pool move, check pool move = true → ok pool move)
    {turns : List Turn} {pool pool' : Pool} (h : play check turns pool = some pool')
    (hallowed : ∀ p ∈ started turns, allowed p) : Leads allowed ok pool pool' := by
  induction turns generalizing pool with
  | nil =>
      cases h
      exact .refl _
  | cons t rest ih =>
      rw [play] at h
      split at h
      · cases h
      · next move next hturn =>
          split at h
          · next hok =>
              have hstarted : ∀ p, t = .spawn p → allowed p := fun p heq => hallowed p (by simp [started, heq])
              have hfirst : Leads allowed ok pool next :=
                .step (.refl pool) (hcheck _ _ hok) (turn_step hturn hstarted)
              refine hfirst.trans (ih h fun p hp => hallowed p ?_)
              simp only [started, List.mem_filterMap] at hp ⊢
              obtain ⟨t', ht', hp⟩ := hp
              exact ⟨t', List.mem_cons_of_mem _ ht', hp⟩
          · cases h

theorem play_reach {check : Pool → Move → Bool} (hcheck : ∀ pool move, check pool move = true → ok pool move)
    {turns : List Turn} {pool pool' : Pool} (h : play check turns pool = some pool')
    (hallowed : ∀ p ∈ started turns, allowed p) (hreach : Reach allowed ok pool) : Reach allowed ok pool' :=
  hreach.leads (play_leads hcheck h hallowed)

/-- What a schedule shows of the pool it ends in, the pool being reached. -/
theorem reached_of_play (check : Pool → Move → Bool) (hcheck : ∀ pool move, check pool move = true → ok pool move)
    (turns : List Turn) (shows : Pool → Bool) (h : ((play check turns ⟨.empty, []⟩).map shows) = some true)
    (hallowed : ∀ p ∈ started turns, allowed p) : ∃ pool, Reach allowed ok pool ∧ shows pool = true := by
  obtain ⟨pool, hplay, hshows⟩ := Option.map_eq_some_iff.mp h
  exact ⟨pool, play_reach hcheck hplay hallowed .start, hshows⟩

theorem reached_of_any (turns : List Turn) (shows : Pool → Bool)
    (h : ((play (fun _ _ => true) turns ⟨.empty, []⟩).map shows) = some true)
    (hallowed : ∀ p ∈ started turns, allowed p) : ∃ pool, Reach allowed anyMove pool ∧ shows pool = true :=
  reached_of_play _ (fun _ _ _ => trivial) turns shows h hallowed

end Pool

/-! ### Concrete runs -/

/-- Answers for concrete runs: the decider decides `effect`, and nothing else is there. -/
def quiet (effect : Effect) : (c : OutsideCall) → c.Answer
  | .harness (.decide _) => .ok effect
  | .harness (.tool _ _ _) => .error ""
  | .harness (.model _ _) => .error ""
  | .harness (.memoryRead _ _ _) => .error ()
  | .harness (.memoryWrite _ _ _ _) => .error ()
  | .harness (.spawn _ _) => .error ""
  | .harness (.send _ _) => .error ""
  | .harness (.boundary _) => .continue
  | .stamps => Stamp.plain
  | .redisNow => .ok (0 : Int64)
  | .timestampNow => (0 : Int64)
  | .agent _ => .ok none
  | .agentsOf _ => .ok []
  | .loadTools _ => .ok []
  | .putMessage _ => .ok .stored
  | .message _ => .ok none
  | .askOfTask _ => .ok none
  | .answer _ => .ok true
  | .openAsksDue => .ok []
  | .listVolumes => .ok []
  | .removeVolume _ => .ok ()

/-- `n` calls of the process at `i`, the decider deciding `effect`. -/
def Pool.calls (i n : Nat) (effect : Effect) : List Pool.Turn := List.replicate n (.call i (quiet effect) (.ok "done"))

/-- Ids written in unary. -/
def Uuids.plain : Uuids where
  v5 _ name := .ofNat _ name.length
  text id := String.ofList (List.replicate id.toNat 'x')
  parse text := some (.ofNat _ text.toList.length)
  parse_text id := by simp

/-! ### The server's programs -/

/-- What all the servers of a deployment share. -/
structure Fleet where
  uuids : Uuids
  nextTick : NextTick
  maxDeliveries : Nat

/-- The programs the servers run: their producers, their triggers' fires and scheduler, their workers, their sweeps and
their requests. Only a fire marks its run with a trigger, and only a background turn is marked as one. -/
inductive Serves (fleet : Fleet) : Prog ServerSig Unit → Prop
  | enqueue (spec : RunSpec) (onPushFailure : OnPushFailure) (h : spec.metadataGet triggerKey = none) :
      Serves fleet (forget (enqueue spec .request onPushFailure))
  | fire (owner : Owner) (id : TriggerId) : Serves fleet (forget (fireTrigger fleet.uuids owner id))
  | webhook (trigger : StoredTrigger) (event body : String) :
      Serves fleet (forget (fireWebhook fleet.uuids trigger event body))
  | pass : Serves fleet (forget (passNow fleet.uuids fleet.nextTick))
  | work (w : Worker) (token : Token) (h : w.maxDeliveries = fleet.maxDeliveries) :
      Serves fleet (forget (w.workOne token))
  | reap : Serves fleet (forget reapRuns)
  | sweep (after forgetAfter : Nat) : Serves fleet (forget (sweep fleet.uuids after forgetAfter))
  | sweepAsks : Serves fleet (forget sweepAsks)
  | sweepSandboxes : Serves fleet (forget sweepSandboxes)
  | answer (run : RunId) (text : String) (asked : Option MessageId) :
      Serves fleet (forget (answerQuestion run text asked))
  | stop (owner : Owner) (scope : StopScope) : Serves fleet (forget (stop owner scope))
  | stopOwner (owner : Owner) : Serves fleet (forget (stopOwner owner))
  | openTurn (spec : RunSpec) (h : spec.metadataGet triggerKey = none) (hturn : isTurn spec = false) :
      Serves fleet (forget (openTurn spec))
  | complete (run : RunId) (text : String) : Serves fleet (forget (acceptSubscriptionCompletion run text))
  | fail (run : RunId) (message : String) : Serves fleet (forget (failTurn run message))
  | create (new : StoredTrigger) : Serves fleet (forget (createTrigger fleet.nextTick new))
  | pause (owner : Owner) (id : TriggerId) : Serves fleet (forget (pauseTrigger owner id))
  | resume (owner : Owner) (id : TriggerId) : Serves fleet (forget (resumeTrigger fleet.nextTick owner id))
  | remove (owner : Owner) (id : TriggerId) : Serves fleet (forget (removeTrigger owner id))

/-- A deployment whose schedules know no ticks. -/
def Fleet.plain : Fleet := ⟨.plain, fun _ _ _ => .error "no tick", 5⟩

end Gol
