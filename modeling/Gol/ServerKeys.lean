import Gol.LibraryProgram

/-! The issuer's key set (`crates/server/src/auth.rs`). `key` looks a key id up in the set last fetched, and refetches
the set when it is stale or lacks the id. Any number of lookups run at once; a mutex lets one of them fetch at a time.
Times are those of one clock that does not go back. -/

namespace Gol
namespace Jwks
open Library

/-- A key of a set: its id, and what checks a signature. -/
structure Jwk where
  keyId : Option String
  material : String
  deriving DecidableEq

inductive AuthError where
  | unauthorized
  | unavailable (error : String)
  deriving DecidableEq

/-- Fetch bookkeeping, which the mutex guards. -/
structure Fetches where
  /-- When the last fetch was made, and why it failed, if it did. -/
  attempted : Option Nat
  error : Option String
  /-- When an unknown kid last refetched a loaded key set. -/
  refreshed : Option Nat
  deriving DecidableEq

inductive Source where
  | url
  | static (keys : List Jwk)

structure OidcVerifier where
  refreshInterval : Nat
  maxAge : Nat
  source : Source

def find (keys : List Jwk) (kid : String) : Option Jwk := keys.find? fun key => key.keyId = some kid

/-! ### The lookup -/

inductive KeyCall where
  /-- Reads when the set was loaded, and the key of `kid` in it. -/
  | lookup (kid : String)
  | elapsed (since : Nat)
  | now
  | tryLock
  | lock
  | unlock
  | fetches
  | write (fetches : Fetches)
  /-- Starts a fetch, for the lookup of `kid`. -/
  | send (kid : String)
  /-- What the fetch came to, and the instant read as it ends. -/
  | receive
  /-- Replaces the set, and the instant it was loaded at. -/
  | load (set : List Jwk)

def KeyCall.Answer : KeyCall → Type
  | .lookup _ => Option Nat × Option Jwk
  | .elapsed _ | .now => Nat
  | .tryLock => Bool
  | .fetches => Fetches
  | .receive => Except String (List Jwk) × Nat
  | .lock | .unlock | .write _ | .send _ | .load _ => Unit

abbrev KeySig : Sig := ⟨KeyCall, KeyCall.Answer⟩

/-- Whether less than `limit` has passed since an instant. -/
def within (limit : Nat) : Option Nat → Prog KeySig Bool
  | none => .ret false
  | some since => .call (.elapsed since) fun (elapsed : Nat) => .ret (decide (elapsed < limit))

def orUnauthorized : Option Jwk → Except AuthError Jwk
  | some key => .ok key
  | none => .error .unauthorized

namespace OidcVerifier

def fresh (v : OidcVerifier) : Option Nat → Prog KeySig Bool := within v.maxAge

def recent (v : OidcVerifier) : Option Nat → Prog KeySig Bool := within v.refreshInterval

/-- The last fetch failed, and the next waits. -/
def failing (v : OidcVerifier) (fetches : Fetches) : Prog KeySig Bool :=
  if fetches.error.isSome then v.recent fetches.attempted else .ret false

/-- Whether a fetch is due. The first load waits only after a failure. A stale set waits a refresh interval after any
fetch; an unknown kid waits one after the last unknown-kid refetch, and after a failure. -/
def due (v : OidcVerifier) (fetches : Fetches) (loadedAt : Option Nat) (found : Option Jwk) (failing : Bool) :
    Prog KeySig Bool :=
  match loadedAt, found with
  | none, _ => .ret (!failing)
  | some _, some _ => (v.recent fetches.attempted).bind fun recent => .ret (!recent)
  | some _, none => if failing then .ret false else (v.recent fetches.refreshed).bind fun recent => .ret (!recent)

/-- What is answered when no fetch is due. -/
def kept (fetches : Fetches) (found : Option Jwk) (failing : Bool) : Except AuthError Jwk :=
  match found, failing with
  | some key, _ => .ok key
  | none, true => .error (.unavailable (fetches.error.getD ""))
  | none, false => .error .unauthorized

/-- Notes the attempt, before the fetch. -/
def attempt (fetches : Fetches) (unknown : Bool) : Prog KeySig Fetches :=
  .call .now fun now =>
    let fetches := { fetches with attempted := some now }
    .call (.write fetches) fun _ =>
      if unknown then
        .call .now fun now =>
          let fetches := { fetches with refreshed := some now }
          .call (.write fetches) fun _ => .ret fetches
      else .ret fetches

/-- Fetches the set. -/
def refetch (kid : String) (fetches : Fetches) (unknown : Bool) (found : Option Jwk) :
    Prog KeySig (Except AuthError Jwk) :=
  (attempt fetches unknown).bind fun fetches =>
  .call (.send kid) fun _ =>
  .call .receive fun (fetched, ended) =>
    -- The interval runs from when the fetch ended.
    let fetches := { fetches with
      attempted := some ended
      refreshed := if unknown then some ended else fetches.refreshed }
    .call (.write fetches) fun _ =>
      match fetched with
      | .ok set =>
          .call (.write { fetches with error := none }) fun _ =>
          .call (.load set) fun _ => .ret (orUnauthorized (find set kid))
      | .error error =>
          .call (.write { fetches with error := some error }) fun _ =>
            match found with
            | some key => .ret (.ok key)
            | none => .ret (.error (.unavailable error))

/-- What a lookup does under the mutex. Another may have fetched while it waited. -/
def check (v : OidcVerifier) (kid : String) : Prog KeySig (Except AuthError Jwk) :=
  .call (.lookup kid) fun (loadedAt, found) =>
    (v.fresh loadedAt).bind fun isFresh =>
      match isFresh, found with
      | true, some key => .ret (.ok key)
      | _, found =>
          .call .fetches fun fetches =>
            (v.failing fetches).bind fun failing =>
              (v.due fetches loadedAt found failing).bind fun due =>
                if due then refetch kid fetches (loadedAt.isSome && found.isNone) found
                else .ret (kept fetches found failing)

/-- The mutex is given back as the lookup returns. -/
def guarded (v : OidcVerifier) (kid : String) : Prog KeySig (Except AuthError Jwk) :=
  (v.check kid).bind fun result => .call .unlock fun _ => .ret result

/-- A stale key is answered while another lookup holds the mutex; without one the lookup waits for it. -/
def gate (v : OidcVerifier) (kid : String) (staleKey : Option Jwk) : Prog KeySig (Except AuthError Jwk) :=
  .call .tryLock fun
    | true => v.guarded kid
    | false =>
        match staleKey with
        | some key => .ret (.ok key)
        | none => .call .lock fun _ => v.guarded kid

def key (v : OidcVerifier) (kid : String) : Prog KeySig (Except AuthError Jwk) :=
  match v.source with
  | .static _ => .call (.lookup kid) fun (_, found) => .ret (orUnauthorized found)
  | .url =>
      .call (.lookup kid) fun
        | (loadedAt, some key) =>
            (v.fresh loadedAt).bind fun isFresh => if isFresh then .ret (.ok key) else v.gate kid (some key)
        | (_, none) => v.gate kid none

end OidcVerifier

/-! ### The cache and what calls do to it -/

/-- A fetch: when it started, when it ended and whether it failed, and whether a kid that a loaded set lacked caused
it. -/
structure Fetch where
  start : Nat
  ended : Option (Nat × Bool)
  unknown : Bool
  deriving DecidableEq

/-- The cache, with a history that the code does not keep: the sets in the order they were loaded, the fetches newest
first, and how often the mutex was taken. -/
structure Cache where
  clock : Nat
  keys : List Jwk
  loadedAt : Option Nat
  fetches : Fetches
  locked : Bool
  sets : List (List Jwk)
  history : List Fetch
  entries : Nat

/-- What is known of one lookup: whether it holds the mutex, the cache when it took it, and whether it has fetched. -/
structure Own where
  held : Bool
  entered : Option Cache
  sent : Bool

/-- The cache as one lookup sees it. -/
structure View where
  cache : Cache
  own : Own

def OidcVerifier.build (v : OidcVerifier) : Cache :=
  let keys := match v.source with
    | .url => []
    | .static keys => keys
  ⟨0, keys, none, ⟨none, none, none⟩, false, [keys], [], 0⟩

def isError : Except String (List Jwk) → Bool
  | .ok _ => false
  | .error _ => true

/-- The last fetch ends. -/
def endLast (ended : Nat × Bool) : List Fetch → List Fetch
  | [] => []
  | fetch :: older => { fetch with ended := some ended } :: older

namespace View

def enter (s : View) : View :=
  ⟨{ s.cache with locked := true, entries := s.cache.entries + 1 },
    { s.own with held := true, entered := some s.cache }⟩

/-- What a call answers and does. -/
def Step (s : View) : (c : KeyCall) → c.Answer → View → Prop
  | .lookup kid, answer, t => answer = (s.cache.loadedAt, find s.cache.keys kid) ∧ t = s
  | .elapsed since, answer, t => answer = s.cache.clock - since ∧ t = s
  | .now, answer, t => answer = s.cache.clock ∧ t = s
  | .tryLock, answer, t => answer = !s.cache.locked ∧ t = if s.cache.locked then s else s.enter
  | .lock, _, t => s.cache.locked = false ∧ t = s.enter
  | .unlock, _, t => t = ⟨{ s.cache with locked := false }, { s.own with held := false }⟩
  | .fetches, answer, t => answer = s.cache.fetches ∧ t = s
  | .write fetches, _, t => t = ⟨{ s.cache with fetches := fetches }, s.own⟩
  | .send kid, _, t =>
      let unknown := s.cache.loadedAt.isSome && (find s.cache.keys kid).isNone
      t = ⟨{ s.cache with history := ⟨s.cache.clock, none, unknown⟩ :: s.cache.history }, { s.own with sent := true }⟩
  | .receive, answer, t =>
      answer.2 = s.cache.clock ∧
        t = ⟨{ s.cache with history := endLast (s.cache.clock, isError answer.1) s.cache.history }, s.own⟩
  | .load set, _, t =>
      t = ⟨{ s.cache with keys := set, loadedAt := some s.cache.clock, sets := s.cache.sets ++ [set] }, s.own⟩

end View

/-! ### Lookups at once -/

structure Lookup where
  kid : String
  /-- The cache when the lookup began. -/
  began : Cache
  program : Prog KeySig (Except AuthError Jwk)
  own : Own

/-- The states of a verifier's cache with the lookups made so far. Time passes, lookups begin, and each makes its
calls, in any order. -/
inductive Serves (v : OidcVerifier) : Cache → List Lookup → Prop
  | start : Serves v v.build []
  | pass {cache : Cache} {pool : List Lookup} (h : Serves v cache pool) (time : Nat) :
      Serves v { cache with clock := cache.clock + time } pool
  | begin {cache : Cache} {pool : List Lookup} (h : Serves v cache pool) (kid : String) :
      Serves v cache (pool ++ [⟨kid, cache, v.key kid, ⟨false, none, false⟩⟩])
  | call {cache cache' : Cache} {before after : List Lookup} {kid : String} {began : Cache} {c : KeyCall}
      {next : c.Answer → Prog KeySig (Except AuthError Jwk)} {own own' : Own} {answer : c.Answer}
      (h : Serves v cache (before ++ ⟨kid, began, .call c next, own⟩ :: after))
      (hstep : View.Step ⟨cache, own⟩ c answer ⟨cache', own'⟩) :
      Serves v cache' (before ++ ⟨kid, began, next answer, own'⟩ :: after)

/-! ### The spacing of fetches -/

/-- When a fetch may start after the `older` ones: the last has ended, an interval ago if it failed or no unknown kid
causes the fetch, and those that unknown kids caused ended an interval ago if one causes the fetch. -/
structure Allowed (interval : Nat) (older : List Fetch) (now : Nat) (unknown : Bool) : Prop where
  last : ∀ fetch rest, older = fetch :: rest → ∃ time failed, fetch.ended = some (time, failed) ∧ time ≤ now ∧
    (failed = true ∨ unknown = false → time + interval ≤ now)
  unknown : unknown = true → ∀ fetch ∈ older, fetch.unknown = true → ∃ time failed, fetch.ended = some (time, failed) ∧
    time + interval ≤ now

theorem Allowed.later {interval now later : Nat} {older : List Fetch} {unknown : Bool}
    (h : Allowed interval older now unknown) (hle : now ≤ later) : Allowed interval older later unknown where
  last fetch rest heq := by
    obtain ⟨time, failed, hended, htime, hwaits⟩ := h.last fetch rest heq
    exact ⟨time, failed, hended, Nat.le_trans htime hle, fun hwhen => Nat.le_trans (hwaits hwhen) hle⟩
  unknown hunknown fetch hfetch hcaused := by
    obtain ⟨time, failed, hended, htime⟩ := h.unknown hunknown fetch hfetch hcaused
    exact ⟨time, failed, hended, Nat.le_trans htime hle⟩

/-- Each fetch, newest first, started when it might and ended after it started. -/
def Spaced (interval : Nat) : List Fetch → Prop
  | [] => True
  | fetch :: older => Allowed interval older fetch.start fetch.unknown ∧
      (∀ time failed, fetch.ended = some (time, failed) → fetch.start ≤ time) ∧ Spaced interval older

namespace Spaced

variable {interval : Nat} {older : List Fetch} {fetch : Fetch}

/-- A fetch starts after those before it ended, an interval after if they failed. -/
theorem ended_le (h : Spaced interval (fetch :: older)) {earlier : Fetch} (hearlier : earlier ∈ older) :
    ∃ time failed, earlier.ended = some (time, failed) ∧ earlier.start ≤ time ∧ time ≤ fetch.start ∧
      (failed = true → time + interval ≤ fetch.start) := by
  induction older generalizing fetch with
  | nil => cases hearlier
  | cons last older ih =>
      obtain ⟨hallowed, -, hrest⟩ := h
      obtain ⟨time, failed, hended, htime, hwaits⟩ := hallowed.last last older rfl
      have hstart := hrest.2.1 time failed hended
      rcases List.mem_cons.mp hearlier with rfl | hearlier
      · exact ⟨time, failed, hended, hstart, htime, fun hfailed => hwaits (.inl hfailed)⟩
      · obtain ⟨time', failed', hended', hstart', htime', hwaits'⟩ := ih hrest hearlier
        refine ⟨time', failed', hended', hstart', by omega, fun hfailed => ?_⟩
        have := hwaits' hfailed
        omega

theorem start_le (h : Spaced interval (fetch :: older)) {earlier : Fetch} (hearlier : earlier ∈ older) :
    earlier.start ≤ fetch.start := by
  obtain ⟨time, failed, -, hstart, htime, -⟩ := h.ended_le hearlier
  exact Nat.le_trans hstart htime

/-- The fetch before the last started an interval ago. -/
theorem start_add_le {last : Fetch} (h : Spaced interval (fetch :: last :: older)) {earlier : Fetch}
    (hearlier : earlier ∈ older) :
    earlier.start + interval ≤ fetch.start := by
  obtain ⟨hallowed, -, hrest⟩ := h
  obtain ⟨time, failed, hended, htime, hwaits⟩ := hallowed.last last older rfl
  have hlast : last.start ≤ fetch.start := Nat.le_trans (hrest.2.1 time failed hended) htime
  obtain ⟨before, rest, rfl⟩ : ∃ before rest, older = before :: rest :=
    List.exists_cons_of_ne_nil (List.ne_nil_of_mem hearlier)
  obtain ⟨time', failed', hended', htime', hwaits'⟩ := hrest.1.last before rest rfl
  have hbefore : earlier.start ≤ before.start := by
    rcases List.mem_cons.mp hearlier with rfl | hearlier
    · exact Nat.le_refl _
    · exact hrest.2.2.start_le hearlier
  have hstarted := hrest.2.2.2.1 time' failed' hended'
  cases hlastUnknown : last.unknown with
  | false =>
      have hwaited := hwaits' (.inr hlastUnknown)
      omega
  | true =>
      have hlastStart := hrest.2.1 time failed hended
      cases hunknown : fetch.unknown with
      | false =>
          have hwaited := hwaits (.inr hunknown)
          omega
      | true =>
          obtain ⟨time'', failed'', hended'', hwaited⟩ := hallowed.unknown hunknown last List.mem_cons_self hlastUnknown
          rw [hended, Option.some.injEq, Prod.mk.injEq] at hended''
          omega

theorem failed_pairwise {history : List Fetch} (h : Spaced interval history) :
    history.Pairwise fun later earlier => ∀ time, earlier.ended = some (time, true) →
      time + interval ≤ later.start := by
  induction history with
  | nil => exact .nil
  | cons fetch older ih =>
      refine .cons (fun earlier hearlier time hended => ?_) (ih h.2.2)
      obtain ⟨time', failed, hended', -, -, hwaits⟩ := h.ended_le hearlier
      rw [hended, Option.some.injEq, Prod.mk.injEq] at hended'
      obtain ⟨rfl, rfl⟩ := hended'
      exact hwaits rfl

theorem unknown_pairwise {history : List Fetch} (h : Spaced interval history) :
    history.Pairwise fun later earlier => later.unknown = true → earlier.unknown = true →
      earlier.start + interval ≤ later.start := by
  induction history with
  | nil => exact .nil
  | cons fetch older ih =>
      refine .cons (fun earlier hearlier hlater hcaused => ?_) (ih h.2.2)
      obtain ⟨time, failed, hended, hstart, -, -⟩ := h.ended_le hearlier
      obtain ⟨time', failed', hended', hwaited⟩ := h.1.unknown hlater earlier hearlier hcaused
      rw [hended, Option.some.injEq, Prod.mk.injEq] at hended'
      omega

/-- Less than an interval holds at most two starts. -/
theorem count_le_two {history : List Fetch} (h : Spaced interval history) (since : Nat) :
    (history.countP fun fetch => decide (since ≤ fetch.start ∧ fetch.start < since + interval)) ≤ 2 := by
  induction history with
  | nil => exact Nat.zero_le _
  | cons fetch older ih =>
      rw [List.countP_cons]
      split
      · next hcounted =>
          rw [decide_eq_true_iff] at hcounted
          cases older with
          | nil => exact Nat.le_succ 1
          | cons last older =>
              have hnone : (older.countP fun fetch =>
                  decide (since ≤ fetch.start ∧ fetch.start < since + interval)) = 0 := by
                refine List.countP_eq_zero.mpr fun earlier hearlier => ?_
                have hwaited := h.start_add_le hearlier
                rw [decide_eq_true_iff]
                omega
              rw [List.countP_cons, hnone]
              split <;> omega
      · exact ih h.2.2

end Spaced

/-! ### What holds of the cache -/

/-- The bookkeeping of a cache that no lookup has the mutex of: it says of the fetches when the last ended, and
whether it failed. -/
structure Settled (cache : Cache) : Prop where
  ended : ∀ fetch ∈ cache.history, ∃ time failed, fetch.ended = some (time, failed) ∧
    (∃ attempted, cache.fetches.attempted = some attempted ∧ time ≤ attempted) ∧
    (fetch.unknown = true → ∃ refreshed, cache.fetches.refreshed = some refreshed ∧ time ≤ refreshed) ∧
    (cache.loadedAt = none → failed = true)
  error : ∀ fetch older time, cache.history = fetch :: older → fetch.ended = some (time, true) →
    cache.fetches.error.isSome = true
  attempted : ∀ time, cache.fetches.attempted = some time →
    ∃ fetch ∈ cache.history, ∃ failed, fetch.ended = some (time, failed)
  refreshed : ∀ time, cache.fetches.refreshed = some time →
    ∃ fetch ∈ cache.history, ∃ failed, fetch.ended = some (time, failed)

structure Kept (v : OidcVerifier) (cache : Cache) : Prop where
  sets : ∃ older, cache.sets = older ++ [cache.keys]
  spaced : Spaced v.refreshInterval cache.history
  started : ∀ fetch ∈ cache.history, fetch.start ≤ cache.clock
  ended : ∀ fetch ∈ cache.history, ∀ time failed, fetch.ended = some (time, failed) → time ≤ cache.clock
  settled : cache.locked = false → Settled cache

/-- The set is as old as `maxAge`, the mutex is free, and the last fetch ended an interval ago. -/
structure Owed (v : OidcVerifier) (cache : Cache) : Prop where
  url : v.source = .url
  stale : ∃ since, cache.loadedAt = some since ∧ since + v.maxAge ≤ cache.clock
  free : cache.locked = false
  rested : ∀ fetch ∈ cache.history, ∃ time failed, fetch.ended = some (time, failed) ∧
    time + v.refreshInterval ≤ cache.clock

/-- `later` comes after `cache`; if the mutex was free and not taken since, only time has passed. -/
structure Cache.Grows (cache later : Cache) : Prop where
  clock : cache.clock ≤ later.clock
  sets : cache.sets <+: later.sets
  entries : cache.entries ≤ later.entries
  same : cache.locked = false → cache.entries = later.entries → later = { cache with clock := later.clock }

theorem Cache.Grows.refl (cache : Cache) : cache.Grows cache :=
  ⟨Nat.le_refl _, List.prefix_rfl, Nat.le_refl _, fun _ _ => rfl⟩

theorem Cache.Grows.trans {cache mid later : Cache} (h : cache.Grows mid) (h' : mid.Grows later) :
    cache.Grows later where
  clock := Nat.le_trans h.clock h'.clock
  sets := h.sets.trans h'.sets
  entries := Nat.le_trans h.entries h'.entries
  same hfree hentries := by
    have hmid : cache.entries = mid.entries := Nat.le_antisymm h.entries (hentries ▸ h'.entries)
    have hsame := h.same hfree hmid
    have hfree' : mid.locked = false := by
      rw [hsame]
      exact hfree
    rw [h'.same hfree' (hmid.symm.trans hentries), hsame]

theorem Cache.Grows.pass (cache : Cache) (time : Nat) : cache.Grows { cache with clock := cache.clock + time } :=
  ⟨Nat.le_add_right _ _, List.prefix_rfl, Nat.le_refl _, fun _ _ => rfl⟩

theorem Owed.later {v : OidcVerifier} {cache : Cache} (h : Owed v cache) {now : Nat} (hle : cache.clock ≤ now) :
    Owed v { cache with clock := now } where
  url := h.url
  stale := by
    obtain ⟨since, hsince, hold⟩ := h.stale
    exact ⟨since, hsince, Nat.le_trans hold hle⟩
  free := h.free
  rested fetch hfetch := by
    obtain ⟨time, failed, hended, hrested⟩ := h.rested fetch hfetch
    exact ⟨time, failed, hended, Nat.le_trans hrested hle⟩

/-- The sets in force between two states of the cache. -/
def inForce (began cache : Cache) : List (List Jwk) := cache.sets.drop (began.sets.length - 1)

theorem inForce_grows {began cache later : Cache} (h : cache.Grows later) {set : List Jwk}
    (hset : set ∈ inForce began cache) :
    set ∈ inForce began later := by
  obtain ⟨more, hmore⟩ := h.sets
  rw [inForce, ← hmore, List.drop_append]
  exact List.mem_append_left _ hset

theorem keys_mem_inForce {v : OidcVerifier} {began cache : Cache} (hbegan : Kept v began) (hkept : Kept v cache)
    (h : began.Grows cache) : cache.keys ∈ inForce began cache := by
  obtain ⟨first, hfirst⟩ := hbegan.sets
  obtain ⟨older, holder⟩ := hkept.sets
  have hlength := h.sets.length_le
  rw [hfirst, holder, List.length_append, List.length_append, List.length_singleton, List.length_singleton] at hlength
  rw [inForce, holder, List.drop_append, hfirst]
  refine List.mem_append_right _ ?_
  rw [List.length_append, List.length_singleton, show first.length + 1 - 1 - older.length = 0 by omega]
  exact List.mem_singleton_self _

theorem Kept.pass {v : OidcVerifier} {cache : Cache} (h : Kept v cache) (time : Nat) :
    Kept v { cache with clock := cache.clock + time } where
  sets := h.sets
  spaced := h.spaced
  started fetch hfetch := Nat.le_trans (h.started fetch hfetch) (Nat.le_add_right _ _)
  ended fetch hfetch ended failed heq := Nat.le_trans (h.ended fetch hfetch ended failed heq) (Nat.le_add_right _ _)
  settled hfree := ⟨(h.settled hfree).ended, (h.settled hfree).error, (h.settled hfree).attempted,
    (h.settled hfree).refreshed⟩

/-! ### The world of one lookup -/

namespace View

/-- What holds of the cache and of a lookup that took the mutex: where a fetch was owed then, it has fetched once it
gives it back. -/
structure Inv (v : OidcVerifier) (s : View) : Prop where
  kept : Kept v s.cache
  locked : s.own.held = true → s.cache.locked = true
  fetched : ∀ cache, s.own.entered = some cache → Owed v cache → s.own.held = true ∨ s.own.sent = true

/-- What others may do while a lookup waits: under the mutex, only time passes. -/
structure Moves (s t : View) : Prop where
  own : t.own = s.own
  grows : s.cache.Grows t.cache
  held : s.own.held = true → t.cache = { s.cache with clock := t.cache.clock }

theorem Moves.refl (s : View) : s.Moves s := ⟨rfl, .refl _, fun _ => rfl⟩

theorem Moves.trans {s t u : View} (h : s.Moves t) (h' : t.Moves u) : s.Moves u where
  own := h'.own.trans h.own
  grows := h.grows.trans h'.grows
  held hheld := by
    rw [h'.held (by rwa [h.own]), h.held hheld]

/-- What a lookup must meet to make a call. -/
def Owes (v : OidcVerifier) (s : View) : KeyCall → Prop
  | .lookup _ | .elapsed _ | .now | .fetches => True
  | .tryLock | .lock => s.own.entered = none
  | .write _ | .load _ => s.own.held = true
  | .send kid => s.own.held = true ∧ Allowed v.refreshInterval s.cache.history s.cache.clock
      (s.cache.loadedAt.isSome && (find s.cache.keys kid).isNone)
  | .receive => s.own.held = true ∧ ∃ fetch older, s.cache.history = fetch :: older ∧ fetch.ended = none
  | .unlock => s.own.held = true ∧ Settled s.cache ∧
      ∀ cache, s.own.entered = some cache → Owed v cache → s.own.sent = true

end View

/-- The cache as the world of one lookup. -/
abbrev world (v : OidcVerifier) : World KeySig where
  State := View
  Inv := View.Inv v
  Step := View.Step
  Owes := View.Owes v
  Others _ := View.Moves
  others_refl _ := View.Moves.refl
  others_trans := View.Moves.trans

namespace View

/-- A call keeps the cache as it should be. -/
theorem Inv.step {v : OidcVerifier} {s t : View} {c : KeyCall} {answer : c.Answer} (h : Inv v s) (howes : s.Owes v c)
    (hstep : s.Step c answer t) : Inv v t := by
  have henter : s.cache.locked = false → Inv v s.enter := fun hfree =>
    ⟨⟨h.kept.sets, h.kept.spaced, h.kept.started, h.kept.ended, nofun⟩, fun _ => rfl, fun _ _ _ => .inl rfl⟩
  cases c with
  | lookup kid | elapsed since | now | fetches =>
      obtain ⟨-, rfl⟩ := hstep
      exact h
  | tryLock =>
      obtain ⟨-, rfl⟩ := hstep
      split
      · exact h
      · next hfree => exact henter (Bool.eq_false_iff.mpr hfree)
  | lock =>
      obtain ⟨hfree, rfl⟩ := hstep
      exact henter hfree
  | unlock =>
      obtain ⟨hheld, hsettled, hfetched⟩ := howes
      obtain rfl := hstep
      refine ⟨⟨h.kept.sets, h.kept.spaced, h.kept.started, h.kept.ended, fun _ => ?_⟩, nofun, fun cache hcache howed =>
        .inr (hfetched cache hcache howed)⟩
      exact ⟨hsettled.ended, hsettled.error, hsettled.attempted, hsettled.refreshed⟩
  | write fetches =>
      have hlocked := h.locked howes
      obtain rfl := hstep
      refine ⟨⟨h.kept.sets, h.kept.spaced, h.kept.started, h.kept.ended, fun hfree => ?_⟩, fun _ => hlocked, h.fetched⟩
      rw [hlocked] at hfree
      cases hfree
  | send kid =>
      obtain ⟨hheld, hallowed⟩ := howes
      have hlocked := h.locked hheld
      obtain rfl := hstep
      refine ⟨⟨h.kept.sets, ⟨hallowed, nofun, h.kept.spaced⟩, ?_, ?_, fun hfree => ?_⟩, fun _ => hlocked,
        fun _ _ _ => .inr rfl⟩
      · rintro fetch (_ | ⟨_, hfetch⟩)
        · exact Nat.le_refl _
        · exact h.kept.started fetch hfetch
      · rintro fetch (_ | ⟨_, hfetch⟩)
        · exact nofun
        · exact h.kept.ended fetch hfetch
      · rw [hlocked] at hfree
        cases hfree
  | receive =>
      obtain ⟨hheld, fetch, older, hhistory, -⟩ := howes
      have hlocked := h.locked hheld
      obtain ⟨-, rfl⟩ := hstep
      obtain ⟨hsets, hspaced, hstarted, hended, -⟩ := h.kept
      rw [hhistory] at hspaced hstarted hended
      refine ⟨⟨hsets, ?_, ?_, ?_, fun hfree => ?_⟩, fun _ => hlocked, h.fetched⟩
      · simp only [hhistory, endLast]
        refine ⟨hspaced.1, ?_, hspaced.2.2⟩
        rintro time failed heq
        cases heq
        exact hstarted fetch List.mem_cons_self
      · simp only [hhistory, endLast]
        rintro earlier (_ | ⟨_, hearlier⟩)
        · exact hstarted fetch List.mem_cons_self
        · exact hstarted earlier (List.mem_cons_of_mem _ hearlier)
      · simp only [hhistory, endLast]
        rintro earlier (_ | ⟨_, hearlier⟩)
        · rintro time failed heq
          cases heq
          exact Nat.le_refl _
        · exact hended earlier (List.mem_cons_of_mem _ hearlier)
      · rw [hlocked] at hfree
        cases hfree
  | load set =>
      have hlocked := h.locked howes
      obtain rfl := hstep
      refine ⟨⟨⟨s.cache.sets, rfl⟩, h.kept.spaced, h.kept.started, h.kept.ended, fun hfree => ?_⟩,
        fun _ => hlocked, h.fetched⟩
      rw [hlocked] at hfree
      cases hfree

/-- What a call does to the cache others see. -/
theorem Step.grows {v : OidcVerifier} {s t : View} {c : KeyCall} {answer : c.Answer} (h : Inv v s) (howes : s.Owes v c)
    (hstep : s.Step c answer t) : s.cache.Grows t.cache := by
  have henter : s.cache.Grows s.enter.cache :=
    ⟨Nat.le_refl _, List.prefix_rfl, Nat.le_succ _,
      fun _ hentries => absurd hentries (Nat.ne_of_lt (Nat.lt_succ_self _))⟩
  have hlocked : ∀ {cache : Cache}, s.own.held = true → s.cache.clock = cache.clock → s.cache.sets <+: cache.sets →
      s.cache.entries = cache.entries → s.cache.Grows cache := by
    intro cache hheld hclock hsets hentries
    refine ⟨Nat.le_of_eq hclock, hsets, Nat.le_of_eq hentries, fun hfree => ?_⟩
    rw [h.locked hheld] at hfree
    cases hfree
  cases c with
  | lookup kid | elapsed since | now | fetches =>
      obtain ⟨-, rfl⟩ := hstep
      exact .refl _
  | tryLock =>
      obtain ⟨-, rfl⟩ := hstep
      split
      · exact .refl _
      · exact henter
  | lock =>
      obtain ⟨-, rfl⟩ := hstep
      exact henter
  | unlock | send kid =>
      obtain ⟨hheld, -⟩ := howes
      obtain rfl := hstep
      exact hlocked hheld rfl List.prefix_rfl rfl
  | write fetches =>
      obtain rfl := hstep
      exact hlocked howes rfl List.prefix_rfl rfl
  | receive =>
      obtain ⟨hheld, -⟩ := howes
      obtain ⟨-, rfl⟩ := hstep
      exact hlocked hheld rfl List.prefix_rfl rfl
  | load set =>
      obtain rfl := hstep
      exact hlocked howes rfl (List.prefix_append _ _) rfl

/-- A lookup without the mutex changes nothing while another has it. -/
theorem Step.idle {v : OidcVerifier} {s t : View} {c : KeyCall} {answer : c.Answer} (howes : s.Owes v c)
    (hstep : s.Step c answer t) (hheld : s.own.held = false) (hlocked : s.cache.locked = true) :
    t.cache = s.cache ∧ t.own.held = false := by
  cases c with
  | lookup kid | elapsed since | now | fetches =>
      obtain ⟨-, rfl⟩ := hstep
      exact ⟨rfl, hheld⟩
  | tryLock =>
      obtain ⟨-, rfl⟩ := hstep
      rw [if_pos hlocked]
      exact ⟨rfl, hheld⟩
  | lock =>
      rw [hstep.1] at hlocked
      cases hlocked
  | unlock | send kid | receive =>
      rw [howes.1] at hheld
      cases hheld
  | write fetches | load set =>
      rw [howes] at hheld
      cases hheld

/-- A call takes the mutex, gives it back, or does neither. -/
theorem Step.gate {v : OidcVerifier} {s t : View} {c : KeyCall} {answer : c.Answer} (howes : s.Owes v c)
    (hstep : s.Step c answer t) :
    s.own.entered = none ∧ s.cache.locked = false ∧ t = s.enter ∨
    t.own.entered = s.own.entered ∧ t.cache.entries = s.cache.entries ∧
      (t.cache.locked = s.cache.locked ∧ t.own.held = s.own.held ∨
        s.own.held = true ∧ t.cache.locked = false ∧ t.own.held = false) := by
  cases c with
  | lookup kid | elapsed since | now | fetches =>
      obtain ⟨-, rfl⟩ := hstep
      exact .inr ⟨rfl, rfl, .inl ⟨rfl, rfl⟩⟩
  | tryLock =>
      obtain ⟨-, rfl⟩ := hstep
      split
      · exact .inr ⟨rfl, rfl, .inl ⟨rfl, rfl⟩⟩
      · next hfree => exact .inl ⟨howes, Bool.eq_false_iff.mpr hfree, rfl⟩
  | lock => exact .inl ⟨howes, hstep⟩
  | unlock =>
      obtain rfl := hstep
      exact .inr ⟨rfl, rfl, .inr ⟨howes.1, rfl, rfl⟩⟩
  | send kid | write fetches | load set =>
      obtain rfl := hstep
      exact .inr ⟨rfl, rfl, .inl ⟨rfl, rfl⟩⟩
  | receive =>
      obtain ⟨-, rfl⟩ := hstep
      exact .inr ⟨rfl, rfl, .inl ⟨rfl, rfl⟩⟩

end View

/-! ### A lookup under the mutex -/

/-- The lookup took the mutex at `entered`, and the cache has been `base` since, but for the time. -/
structure Holds (entered base : Cache) (sent : Bool) (s : View) : Prop where
  own : s.own = ⟨true, some entered, sent⟩
  cache : s.cache = { base with clock := s.cache.clock }
  clock : base.clock ≤ s.cache.clock

section Guarded

variable {v : OidcVerifier} {entered base : Cache} {sent : Bool} {s : View} {α : Type} {post : View → α → Prop}

theorem Holds.keys (h : Holds entered base sent s) : s.cache.keys = base.keys := by rw [h.cache]

theorem Holds.loadedAt (h : Holds entered base sent s) : s.cache.loadedAt = base.loadedAt := by rw [h.cache]

theorem Holds.sets (h : Holds entered base sent s) : s.cache.sets = base.sets := by rw [h.cache]

theorem Holds.fetches (h : Holds entered base sent s) : s.cache.fetches = base.fetches := by rw [h.cache]

theorem Holds.history (h : Holds entered base sent s) : s.cache.history = base.history := by rw [h.cache]

theorem Holds.entries (h : Holds entered base sent s) : s.cache.entries = base.entries := by rw [h.cache]

theorem Holds.moves (h : Holds entered base sent s) {t : View} (hmoves : s.Moves t) : Holds entered base sent t where
  own := hmoves.own.trans h.own
  cache := by rw [hmoves.held (by rw [h.own]), h.cache]
  clock := Nat.le_trans h.clock hmoves.grows.clock

theorem Holds.call (h : Holds entered base sent s) {c : KeyCall} {next : c.Answer → Prog KeySig α}
    (hcall : ∀ t, Holds entered base sent t → s.cache.clock ≤ t.cache.clock →
      t.Owes v c ∧ ∀ answer u, t.Step c answer u → (world v).Safe post (next answer) u) :
    (world v).Safe post (.call c next) s := by
  intro t hmoves _
  obtain ⟨howes, hnext⟩ := hcall t (h.moves hmoves) hmoves.grows.clock
  exact ⟨howes, fun answer u hstep _ => hnext answer u hstep⟩

theorem Holds.within (h : Holds entered base sent s) (limit : Nat) (since : Option Nat) {next : Bool → Prog KeySig α}
    (hnext : ∀ t recent, Holds entered base sent t → s.cache.clock ≤ t.cache.clock →
      (recent = true → ∃ time, since = some time ∧ t.cache.clock - time < limit) →
      (recent = false → ∀ time, since = some time → limit ≤ t.cache.clock - time) →
        (world v).Safe post (next recent) t) :
    (world v).Safe post ((within limit since).bind next) s := by
  cases since with
  | none => exact hnext s false h (Nat.le_refl _) nofun fun _ => nofun
  | some time =>
      refine h.call fun t ht hclock => ⟨trivial, ?_⟩
      rintro answer t ⟨rfl, rfl⟩
      refine hnext t _ ht hclock (fun hrecent => ⟨time, rfl, of_decide_eq_true hrecent⟩) ?_
      rintro hrecent _ ⟨⟩
      exact Nat.le_of_not_lt (of_decide_eq_false hrecent)

/-- The answer that a set in force gives. -/
def Answered (began cache : Cache) (kid : String) (result : Except AuthError Jwk) : Prop :=
  ∃ set ∈ inForce began cache, find set kid = result.toOption

/-- How a lookup leaves the mutex: with the bookkeeping settled, and having fetched where that was owed. -/
structure Checked (v : OidcVerifier) (kid : String) (began entered : Cache) (t : View)
    (result : Except AuthError Jwk) : Prop where
  own : ∃ sent, t.own = ⟨true, some entered, sent⟩ ∧ (Owed v entered → sent = true)
  settled : Settled t.cache
  answered : Answered began t.cache kid result
  entries : entered.entries < t.cache.entries

theorem Settled.clock {cache : Cache} (h : Settled cache) (now : Nat) : Settled { cache with clock := now } :=
  ⟨h.ended, h.error, h.attempted, h.refreshed⟩

/-- An instant of the bookkeeping that is not recent. -/
theorem Settled.rested {cache : Cache} (h : Settled cache) (hkept : Kept v cache) {now : Nat} (hle : cache.clock ≤ now)
    (hattempted : ∀ time, cache.fetches.attempted = some time → v.refreshInterval ≤ now - time) :
    ∀ fetch ∈ cache.history, ∃ time failed, fetch.ended = some (time, failed) ∧ time + v.refreshInterval ≤ now := by
  intro fetch hfetch
  obtain ⟨time, failed, hended, ⟨attempted, heq, htime⟩, -⟩ := h.ended fetch hfetch
  obtain ⟨last, hlast, failed', hlastEnded⟩ := h.attempted attempted heq
  have hbound := hkept.ended last hlast attempted failed' hlastEnded
  have hwaited := hattempted attempted heq
  exact ⟨time, failed, hended, by omega⟩

theorem Settled.refreshed_rested {cache : Cache} (h : Settled cache) (hkept : Kept v cache) {now : Nat}
    (hle : cache.clock ≤ now)
    (hrefreshed : ∀ time, cache.fetches.refreshed = some time → v.refreshInterval ≤ now - time) :
    ∀ fetch ∈ cache.history, fetch.unknown = true → ∃ time failed, fetch.ended = some (time, failed) ∧
      time + v.refreshInterval ≤ now := by
  intro fetch hfetch hunknown
  obtain ⟨time, failed, hended, -, hcaused, -⟩ := h.ended fetch hfetch
  obtain ⟨refreshed, heq, htime⟩ := hcaused hunknown
  obtain ⟨last, hlast, failed', hlastEnded⟩ := h.refreshed refreshed heq
  have hbound := hkept.ended last hlast refreshed failed' hlastEnded
  have hwaited := hrefreshed refreshed heq
  exact ⟨time, failed, hended, by omega⟩

/-- Where a fetch is owed, the last one and the last for an unknown kid are not recent. -/
theorem Owed.not_recent {cache : Cache} (howed : Owed v cache) {now time : Nat} (hle : cache.clock ≤ now)
    (hended : ∃ fetch ∈ cache.history, ∃ failed, fetch.ended = some (time, failed)) :
    ¬ now - time < v.refreshInterval := by
  obtain ⟨fetch, hfetch, failed, hended⟩ := hended
  obtain ⟨time', failed', hended', hrested⟩ := howed.rested fetch hfetch
  rw [hended, Option.some.injEq, Prod.mk.injEq] at hended'
  omega

/-- The bookkeeping after a fetch has ended. -/
theorem Settled.fetched {cache later : Cache} (h : Settled cache) (hkept : Kept v cache) {start time : Nat}
    {failed unknown : Bool} {error : Option String} (hle : cache.clock ≤ time)
    (hhistory : later.history = ⟨start, some (time, failed), unknown⟩ :: cache.history)
    (hfetches : later.fetches = ⟨some time, error, if unknown then some time else cache.fetches.refreshed⟩)
    (herror : failed = true → error.isSome = true)
    (hloaded : later.loadedAt = none → failed = true ∧ cache.loadedAt = none) :
    Settled later where
  ended fetch hfetch := by
    rw [hhistory] at hfetch
    rw [hfetches]
    rcases List.mem_cons.mp hfetch with rfl | hfetch
    · exact ⟨time, failed, rfl, ⟨time, rfl, Nat.le_refl _⟩, fun hunknown => ⟨time, if_pos hunknown, Nat.le_refl _⟩,
        fun hnone => (hloaded hnone).1⟩
    · obtain ⟨time', failed', hended, -, hcaused, hnone⟩ := h.ended fetch hfetch
      have hbefore : time' ≤ time := Nat.le_trans (hkept.ended fetch hfetch time' failed' hended) hle
      refine ⟨time', failed', hended, ⟨time, rfl, hbefore⟩, fun hunknown => ?_, fun hlater => hnone (hloaded hlater).2⟩
      cases unknown with
      | true => exact ⟨time, rfl, hbefore⟩
      | false => exact hcaused hunknown
  error fetch older time' heq hended := by
    rw [hhistory] at heq
    obtain ⟨rfl, -⟩ := List.cons.inj heq
    rw [Option.some.injEq, Prod.mk.injEq] at hended
    rw [hfetches]
    exact herror hended.2
  attempted time' heq := by
    rw [hfetches] at heq
    cases heq
    exact ⟨_, hhistory ▸ List.mem_cons_self, failed, rfl⟩
  refreshed time' heq := by
    rw [hfetches] at heq
    rw [hhistory]
    cases unknown with
    | true =>
        cases heq
        exact ⟨_, List.mem_cons_self, failed, rfl⟩
    | false =>
        obtain ⟨fetch, hfetch, hended⟩ := h.refreshed time' heq
        exact ⟨fetch, List.mem_cons_of_mem _ hfetch, hended⟩

/-- The cache as a lookup finds it once it has the mutex. -/
def taken (cache : Cache) : Cache := { cache with locked := true, entries := cache.entries + 1 }

theorem Holds.write (h : Holds entered base sent s) (fetches : Fetches) {next : Unit → Prog KeySig α}
    (hnext : ∀ t, Holds entered { base with fetches := fetches } sent t → s.cache.clock ≤ t.cache.clock →
      (world v).Safe post (next ()) t) : (world v).Safe post (.call (.write fetches) next) s := by
  refine h.call fun t ht hclock => ⟨by rw [View.Owes, ht.own], ?_⟩
  rintro answer u rfl
  exact hnext _ ⟨ht.own, by rw [ht.cache], ht.clock⟩ hclock

theorem Holds.now (h : Holds entered base sent s) {next : Nat → Prog KeySig α}
    (hnext : ∀ t now, Holds entered base sent t → s.cache.clock ≤ t.cache.clock → (world v).Safe post (next now) t) :
    (world v).Safe post (.call .now next) s := by
  refine h.call fun t ht hclock => ⟨trivial, ?_⟩
  rintro now t ⟨-, rfl⟩
  exact hnext t now ht hclock

theorem attempt_safe (h : Holds entered base sent s) {fetches : Fetches} {unknown : Bool}
    {next : Fetches → Prog KeySig α}
    (hnext : ∀ t later, Holds entered { base with fetches := later } sent t → s.cache.clock ≤ t.cache.clock →
      (unknown = false → later.refreshed = fetches.refreshed) → (world v).Safe post (next later) t) :
    (world v).Safe post ((OidcVerifier.attempt fetches unknown).bind next) s := by
  refine h.now fun t now ht hclock => ?_
  refine ht.write _ fun t' ht' hclock' => ?_
  cases unknown with
  | false => exact hnext t' _ ht' (Nat.le_trans hclock hclock') fun _ => rfl
  | true =>
      refine ht'.now fun t'' now' ht'' hclock'' => ?_
      refine ht''.write _ fun u hu hclockU => ?_
      exact hnext u _ hu (by omega) nofun

/-- The fetch that the holder of the mutex made has ended. -/
theorem Holds.fetched (h : Holds entered base true s) {kid : String} {began : Cache}
    {result : Except AuthError Jwk} {start time : Nat} {failed unknown : Bool} {error : Option String}
    (hentered : Kept v entered) (hsettled : Settled entered) (hle : entered.clock ≤ time)
    (hhistory : base.history = ⟨start, some (time, failed), unknown⟩ :: entered.history)
    (hfetches : base.fetches = ⟨some time, error, if unknown then some time else entered.fetches.refreshed⟩)
    (herror : failed = true → error.isSome = true)
    (hloaded : base.loadedAt = none → failed = true ∧ entered.loadedAt = none)
    (hentries : base.entries = entered.entries + 1) (hanswered : Answered began s.cache kid result) :
    Checked v kid began entered s result where
  own := ⟨true, h.own, fun _ => rfl⟩
  settled := hsettled.fetched hentered hle (h.history.trans hhistory) (h.fetches.trans hfetches) herror fun hnone =>
    hloaded (h.loadedAt.symm.trans hnone)
  answered := hanswered
  entries := by
    rw [h.entries, hentries]
    exact Nat.lt_succ_self _

/-- A fetch that may start is made, and a set in force answers. -/
theorem refetch_safe {began : Cache} {kid : String} {unknown : Bool} (hbegan : Kept v began) (hentered : Kept v entered)
    (hsettled : Settled entered) (hgrows : began.Grows entered) (h : Holds entered (taken entered) false s)
    (hunknown : unknown = (entered.loadedAt.isSome && (find entered.keys kid).isNone))
    (hallowed : Allowed v.refreshInterval entered.history s.cache.clock unknown) :
    (world v).Safe (Checked v kid began entered)
      (OidcVerifier.refetch kid entered.fetches unknown (find entered.keys kid)) s := by
  have hkeys := keys_mem_inForce hbegan hentered hgrows
  refine attempt_safe h fun t fetches ht hclock hrefreshed => ?_
  refine ht.call fun t' ht' hclock' => ⟨⟨by rw [ht'.own], ?_⟩, ?_⟩
  · rw [ht'.history, ht'.loadedAt, ht'.keys]
    exact hunknown ▸ hallowed.later (Nat.le_trans hclock hclock')
  rintro answer u rfl
  have hsent : Holds entered
      { taken entered with
        fetches := fetches
        history := ⟨t'.cache.clock, none, unknown⟩ :: entered.history }
      true
      ⟨{ t'.cache with
          history := ⟨t'.cache.clock, none, t'.cache.loadedAt.isSome && (find t'.cache.keys kid).isNone⟩ ::
            t'.cache.history },
        { t'.own with sent := true }⟩ := by
    refine ⟨by rw [ht'.own], ?_, ht'.clock⟩
    rw [ht'.history, ht'.loadedAt, ht'.keys, hunknown, ht'.cache]
    rfl
  refine hsent.call fun u hu hclockU => ⟨⟨by rw [hu.own], _, _, hu.history, rfl⟩, ?_⟩
  rintro ⟨fetched, ended⟩ w ⟨hended, rfl⟩
  obtain rfl : ended = u.cache.clock := hended
  have hle : entered.clock ≤ u.cache.clock := hu.clock
  have hreceived : Holds entered { taken entered with
      fetches := fetches
      history := ⟨t'.cache.clock, some (u.cache.clock, isError fetched), unknown⟩ :: entered.history } true
      ⟨{ u.cache with history := endLast (u.cache.clock, isError fetched) u.cache.history }, u.own⟩ := by
    refine ⟨hu.own, ?_, hu.clock⟩
    rw [hu.history, hu.cache]
    rfl
  have hlast : (if unknown then some u.cache.clock else fetches.refreshed) =
      if unknown then some u.cache.clock else entered.fetches.refreshed := by
    cases unknown with
    | true => rfl
    | false => exact hrefreshed rfl
  refine hreceived.write _ fun w hw _ => ?_
  cases fetched with
  | ok set =>
      refine hw.write _ fun w' hw' _ => ?_
      refine hw'.call fun x hx _ => ⟨by rw [View.Owes, hx.own], ?_⟩
      rintro answer y rfl
      have hloaded : Holds entered { taken entered with
          fetches := ⟨some u.cache.clock, none, if unknown then some u.cache.clock else entered.fetches.refreshed⟩
          history := ⟨t'.cache.clock, some (u.cache.clock, false), unknown⟩ :: entered.history
          keys := set
          loadedAt := some x.cache.clock
          sets := entered.sets ++ [set] } true
          ⟨{ x.cache with keys := set, loadedAt := some x.cache.clock, sets := x.cache.sets ++ [set] }, x.own⟩ := by
        refine ⟨hx.own, ?_, hx.clock⟩
        rw [hx.sets, hx.cache, ← hlast]
        rfl
      refine hloaded.fetched hentered hsettled hle rfl rfl nofun nofun rfl ⟨set, ?_, ?_⟩
      · have hlength := hgrows.sets.length_le
        rw [inForce, hloaded.sets, List.drop_append_of_le_length (by omega)]
        exact List.mem_append_right _ (List.mem_singleton_self _)
      · cases find set kid <;> rfl
  | error error =>
      refine hw.write _ fun w' hw' _ => ?_
      rw [hlast] at hw'
      have hanswered : ∀ result : Except AuthError Jwk, find entered.keys kid = result.toOption →
          Answered began w'.cache kid result := by
        intro result hresult
        refine ⟨entered.keys, ?_, hresult⟩
        rw [inForce, hw'.sets]
        exact hkeys
      cases hfound : find entered.keys kid with
      | some key =>
          exact hw'.fetched hentered hsettled hle rfl rfl (fun _ => rfl)
            (fun hnone => ⟨rfl, hnone⟩) rfl (hanswered _ hfound)
      | none =>
          exact hw'.fetched hentered hsettled hle rfl rfl (fun _ => rfl)
            (fun hnone => ⟨rfl, hnone⟩) rfl (hanswered _ hfound)

theorem Holds.failing (h : Holds entered base sent s) (fetches : Fetches) {next : Bool → Prog KeySig α}
    (hnext : ∀ t failing, Holds entered base sent t → s.cache.clock ≤ t.cache.clock →
      (failing = true → ∃ time, fetches.attempted = some time ∧ t.cache.clock - time < v.refreshInterval) →
      (failing = false → fetches.error.isSome = true → ∀ time, fetches.attempted = some time →
        v.refreshInterval ≤ t.cache.clock - time) → (world v).Safe post (next failing) t) :
    (world v).Safe post ((v.failing fetches).bind next) s := by
  unfold OidcVerifier.failing
  split
  · refine h.within v.refreshInterval fetches.attempted fun t recent ht hclock hrecent hrested => ?_
    exact hnext t recent ht hclock hrecent fun hnot _ => hrested hnot
  · next hnone => exact hnext s false h (Nat.le_refl _) nofun fun _ herror => absurd herror hnone

/-- A fetch is found due only when it may start, and is found due where it is owed. -/
theorem due_safe {kid : String} (hentered : Kept v entered) (hsettled : Settled entered)
    (h : Holds entered (taken entered) false s) {failing : Bool} {now : Nat} (hnow : now ≤ s.cache.clock)
    (hsince : entered.clock ≤ now)
    (hfailing : failing = true → ∃ time, entered.fetches.attempted = some time ∧ now - time < v.refreshInterval)
    (hrested : failing = false → entered.fetches.error.isSome = true → ∀ time, entered.fetches.attempted = some time →
      v.refreshInterval ≤ now - time) {next : Bool → Prog KeySig α}
    (hnext : ∀ t due, Holds entered (taken entered) false t →
      (due = true → Allowed v.refreshInterval entered.history t.cache.clock
        (entered.loadedAt.isSome && (find entered.keys kid).isNone)) →
      (due = false → ¬ Owed v entered) → (world v).Safe post (next due) t) :
    (world v).Safe post
      ((v.due entered.fetches entered.loadedAt (find entered.keys kid) failing).bind next) s := by
  -- The last fetch did not fail, or ended an interval ago.
  have hcalm : failing = false → ∀ fetch rest, entered.history = fetch :: rest →
    ∃ time failed, fetch.ended = some (time, failed) ∧
      time ≤ now ∧ (failed = true → time + v.refreshInterval ≤ now) := by
    intro hnot fetch rest heq
    have hfetch : fetch ∈ entered.history := heq ▸ List.mem_cons_self
    obtain ⟨time, failed, hended, -⟩ := hsettled.ended fetch hfetch
    refine ⟨time, failed, hended, Nat.le_trans (hentered.ended fetch hfetch time failed hended) hsince, ?_⟩
    rintro rfl
    have herror := hsettled.error fetch rest time heq hended
    obtain ⟨time', failed', hended', hwaited⟩ := hsettled.rested hentered hsince (hrested hnot herror) fetch hfetch
    rw [hended, Option.some.injEq, Prod.mk.injEq] at hended'
    omega
  have hnotOwed : failing = true → ¬ Owed v entered := by
    intro hfails howed
    obtain ⟨time, hattempted, hrecent⟩ := hfailing hfails
    exact howed.not_recent hsince (hsettled.attempted time hattempted) hrecent
  cases hloaded : entered.loadedAt with
  | none =>
      refine hnext s _ h (fun hdue => Allowed.later ?_ hnow) fun hnotDue howed => ?_
      · have hnot : failing = false := by simpa using hdue
        refine ⟨fun fetch rest heq => ?_, fun hcaused => by simp [hloaded] at hcaused⟩
        obtain ⟨time, failed, hended, htime, hwaits⟩ := hcalm hnot fetch rest heq
        obtain ⟨_, _, hended', -, -, hfailed⟩ := hsettled.ended fetch (heq ▸ List.mem_cons_self)
        rw [hended, Option.some.injEq, Prod.mk.injEq] at hended'
        exact ⟨time, failed, hended, htime, fun _ => hwaits (hended'.2.trans (hfailed hloaded))⟩
      · obtain ⟨since, hsome, -⟩ := howed.stale
        rw [hloaded] at hsome
        cases hsome
  | some since =>
      cases hfound : find entered.keys kid with
      | some key =>
          show (world v).Safe post
            (((v.recent entered.fetches.attempted).bind fun recent => .ret (!recent)).bind next) s
          rw [Prog.bind_assoc]
          refine h.within v.refreshInterval entered.fetches.attempted fun t recent ht hclock hrecent hnotRecent => ?_
          refine hnext t _ ht (fun hdue => ⟨fun fetch rest heq => ?_, fun hcaused => by simp [hfound] at hcaused⟩)
            fun hnotDue howed => ?_
          · obtain ⟨time, failed, hended, hwaited⟩ :=
              hsettled.rested hentered ht.clock (hnotRecent (by simpa using hdue)) fetch (heq ▸ List.mem_cons_self)
            exact ⟨time, failed, hended, by omega, fun _ => hwaited⟩
          · obtain ⟨time, hattempted, hlately⟩ := hrecent (by simpa using hnotDue)
            exact howed.not_recent ht.clock (hsettled.attempted time hattempted) hlately
      | none =>
          cases hfails : failing with
          | true => exact hnext s false h nofun fun _ => hnotOwed hfails
          | false =>
              show (world v).Safe post
                (((v.recent entered.fetches.refreshed).bind fun recent => .ret (!recent)).bind next) s
              rw [Prog.bind_assoc]
              refine h.within v.refreshInterval entered.fetches.refreshed
                fun t recent ht hclock hrecent hnotRecent => ?_
              refine hnext t _ ht (fun hdue => ⟨fun fetch rest heq => ?_, fun _ => ?_⟩) fun hnotDue howed => ?_
              · obtain ⟨time, failed, hended, htime, hwaits⟩ := hcalm hfails fetch rest heq
                refine ⟨time, failed, hended, by omega, ?_⟩
                rintro (hfailed | hknown)
                · have := hwaits hfailed
                  omega
                · simp [hloaded, hfound] at hknown
              · exact hsettled.refreshed_rested hentered ht.clock (hnotRecent (by simpa using hdue))
              · obtain ⟨time, hrefreshed, hlately⟩ := hrecent (by simpa using hnotDue)
                exact howed.not_recent ht.clock (hsettled.refreshed time hrefreshed) hlately

theorem toOption_kept (fetches : Fetches) (found : Option Jwk) (failing : Bool) :
    (OidcVerifier.kept fetches found failing).toOption = found := by
  cases found <;> cases failing <;> rfl

/-- Under the mutex, a set in force answers, and a fetch that is owed is made. -/
theorem check_safe {began : Cache} {kid : String} (hbegan : Kept v began) (hentered : Kept v entered)
    (hsettled : Settled entered) (hgrows : began.Grows entered) (h : Holds entered (taken entered) false s) :
    (world v).Safe (Checked v kid began entered) (v.check kid) s := by
  have hkeys := keys_mem_inForce hbegan hentered hgrows
  have hkept : ∀ t result, Holds entered (taken entered) false t → ¬ Owed v entered →
      find entered.keys kid = result.toOption → Checked v kid began entered t result := by
    intro t result ht hnot hresult
    refine ⟨⟨false, ht.own, fun howed => absurd howed hnot⟩, ?_, ⟨entered.keys, ?_, hresult⟩, ?_⟩
    · rw [ht.cache]
      exact ⟨hsettled.ended, hsettled.error, hsettled.attempted, hsettled.refreshed⟩
    · rw [inForce, ht.sets]
      exact hkeys
    · rw [ht.entries]
      exact Nat.lt_succ_self _
  refine h.call fun t ht _ => ⟨trivial, ?_⟩
  rintro ⟨loadedAt, found⟩ t ⟨hread, rfl⟩
  have hread : (loadedAt, found) = (entered.loadedAt, find entered.keys kid) := by
    rw [hread, ht.loadedAt, ht.keys]
    rfl
  obtain ⟨rfl, rfl⟩ := Prod.mk.inj hread
  refine ht.within v.maxAge entered.loadedAt fun t isFresh ht _ hfresh _ => ?_
  have hdecide : (world v).Safe (Checked v kid began entered)
      (.call .fetches fun fetches =>
        (v.failing fetches).bind fun failing =>
          (v.due fetches entered.loadedAt (find entered.keys kid) failing).bind fun due =>
            if due then
              OidcVerifier.refetch kid fetches (entered.loadedAt.isSome && (find entered.keys kid).isNone)
                (find entered.keys kid)
            else .ret (OidcVerifier.kept fetches (find entered.keys kid) failing)) t := by
    refine ht.call fun t ht _ => ⟨trivial, ?_⟩
    rintro fetches t ⟨hread, rfl⟩
    rw [ht.fetches] at hread
    obtain rfl : fetches = entered.fetches := hread
    refine ht.failing entered.fetches fun t failing ht _ hfailing hrested => ?_
    refine due_safe hentered hsettled ht (Nat.le_refl _) ht.clock hfailing hrested fun u due hu hallowed hnotOwed => ?_
    split
    · next hdue => exact refetch_safe hbegan hentered hsettled hgrows hu rfl (hallowed hdue)
    · next hnot => exact hkept u _ hu (hnotOwed (Bool.eq_false_iff.mpr hnot)) (toOption_kept _ _ _).symm
  cases hfound : find entered.keys kid with
  | none =>
      rw [hfound] at hdecide
      cases isFresh <;> exact hdecide
  | some key =>
      cases isFresh with
      | false =>
          rw [hfound] at hdecide
          exact hdecide
      | true =>
          refine hkept t (.ok key) ht (fun howed => ?_) hfound
          obtain ⟨since, hsince, hyoung⟩ := hfresh rfl
          obtain ⟨since', hsince', hold⟩ := howed.stale
          rw [hsince, Option.some.injEq] at hsince'
          have hclock := ht.clock
          have hold' : since + v.maxAge ≤ entered.clock := hsince' ▸ hold
          have hle : entered.clock ≤ t.cache.clock := hclock
          omega

/-- How a lookup returns: with the answer of a set in force, and without the mutex; where a fetch was owed as it
began, it or another has taken the mutex since. -/
structure Answers (v : OidcVerifier) (kid : String) (began : Cache) (t : View)
    (result : Except AuthError Jwk) : Prop where
  left : t.own.held = false
  answered : Answered began t.cache kid result
  entries : Owed v began → began.entries < t.cache.entries

theorem guarded_safe {began : Cache} {kid : String} (hbegan : Kept v began) (hentered : Kept v entered)
    (hsettled : Settled entered) (hgrows : began.Grows entered) (h : Holds entered (taken entered) false s) :
    (world v).Safe (Answers v kid began) (v.guarded kid) s := by
  apply World.Safe.bind
  refine (check_safe hbegan hentered hsettled hgrows h).mono fun t result hchecked => ?_
  obtain ⟨⟨sent, hown, hfetched⟩, hsettled, ⟨set, hset, hfind⟩, hentries⟩ := hchecked
  intro u hmoves _
  have hheld : t.own.held = true := by rw [hown]
  have hcache := hmoves.held hheld
  have hown' : u.own = ⟨true, some entered, sent⟩ := hmoves.own.trans hown
  refine ⟨⟨by rw [hown'], ?_, ?_⟩, ?_⟩
  · rw [hcache]
    exact hsettled.clock _
  · rw [hown']
    rintro cache ⟨⟩ howed
    exact hfetched howed
  · rintro answer w rfl -
    refine ⟨rfl, ⟨set, inForce_grows hmoves.grows hset, hfind⟩, fun howed => ?_⟩
    exact Nat.lt_of_le_of_lt hgrows.entries (Nat.lt_of_lt_of_le hentries hmoves.grows.entries)

end Guarded

/-! ### A lookup -/

section Lookups

variable {v : OidcVerifier} {began : Cache} {kid : String} {s : View}

/-- The lookup has not taken the mutex. -/
structure Free (began : Cache) (s : View) : Prop where
  own : s.own = ⟨false, none, false⟩
  grows : began.Grows s.cache

theorem Free.moves (h : Free began s) {t : View} (hmoves : s.Moves t) : Free began t :=
  ⟨hmoves.own.trans h.own, h.grows.trans hmoves.grows⟩

/-- A free mutex is taken. -/
theorem Free.enter_safe (h : Free began s) (hbegan : Kept v began) (hinv : s.Inv v) (hfree : s.cache.locked = false) :
    (world v).Safe (Answers v kid began) (v.guarded kid) s.enter :=
  guarded_safe hbegan hinv.kept (hinv.kept.settled hfree) h.grows ⟨by rw [View.enter, h.own], rfl, Nat.le_refl _⟩

/-- A mutex found taken was taken since a lookup began with a fetch owed. -/
theorem Free.entries_lt (h : Free began s) (hlocked : s.cache.locked = true) (howed : Owed v began) :
    began.entries < s.cache.entries := by
  refine Nat.lt_of_le_of_ne h.grows.entries fun heq => ?_
  rw [h.grows.same howed.free heq, howed.free] at hlocked
  cases hlocked

theorem gate_safe (hbegan : Kept v began) (h : Free began s) {staleKey : Option Jwk}
    (hstale : ∀ key, staleKey = some key → ∃ set ∈ inForce began s.cache, find set kid = some key) :
    (world v).Safe (Answers v kid began) (v.gate kid staleKey) s := by
  intro t hmoves hinv
  have ht := h.moves hmoves
  have hnone : t.own.entered = none := by rw [ht.own]
  refine ⟨hnone, ?_⟩
  rintro answer u ⟨rfl, rfl⟩ -
  cases hlocked : t.cache.locked with
  | false => exact ht.enter_safe hbegan hinv hlocked
  | true =>
      cases staleKey with
      | some key =>
          obtain ⟨set, hset, hfind⟩ := hstale key rfl
          refine ⟨?_, ⟨set, inForce_grows hmoves.grows hset, hfind⟩, ht.entries_lt hlocked⟩
          show t.own.held = false
          rw [ht.own]
      | none =>
          intro w hmoves' hinv'
          have hw := ht.moves hmoves'
          have hnone : w.own.entered = none := by rw [hw.own]
          refine ⟨hnone, ?_⟩
          rintro answer x ⟨hfree, rfl⟩ -
          exact hw.enter_safe hbegan hinv' hfree

/-- A key of a set that is still fresh is answered at once; any other lookup goes to the mutex. -/
theorem fresh_safe (hbegan : Kept v began) (h : Free began s) {key : Jwk} {loadedAt : Option Nat}
    (hfound : ∃ set ∈ inForce began s.cache, find set kid = some key)
    (hloaded : began.locked = false → began.entries = s.cache.entries → loadedAt = began.loadedAt) :
    (world v).Safe (Answers v kid began)
      ((v.fresh loadedAt).bind fun isFresh => if isFresh then .ret (.ok key) else v.gate kid (some key)) s := by
  obtain ⟨set, hset, hfind⟩ := hfound
  have hgate : ∀ t, Free began t → s.cache.Grows t.cache →
      (world v).Safe (Answers v kid began) (v.gate kid (some key)) t := by
    intro t ht hgrows
    refine gate_safe hbegan ht ?_
    rintro _ ⟨⟩
    exact ⟨set, inForce_grows hgrows hset, hfind⟩
  unfold OidcVerifier.fresh
  cases loadedAt with
  | none => exact hgate s h (.refl _)
  | some since =>
      intro t hmoves _
      refine ⟨trivial, ?_⟩
      rintro answer t ⟨rfl, rfl⟩ -
      have ht := h.moves hmoves
      show (world v).Safe _ (if decide _ then _ else _) t
      split
      · next hyoung =>
          refine ⟨by rw [ht.own], ⟨set, inForce_grows hmoves.grows hset, hfind⟩, fun howed => ?_⟩
          refine Nat.lt_of_le_of_ne ht.grows.entries fun hentries => ?_
          have hentries' : began.entries = s.cache.entries :=
            Nat.le_antisymm h.grows.entries (hentries ▸ hmoves.grows.entries)
          obtain ⟨since', hsince', hold⟩ := howed.stale
          rw [← hloaded howed.free hentries', Option.some.injEq] at hsince'
          have hlater := ht.grows.clock
          rw [decide_eq_true_iff] at hyoung
          omega
      · exact hgate t ht hmoves.grows

/-- However other lookups run beside it, a lookup meets what it owes and answers as a set in force does. -/
theorem key_safe (hbegan : Kept v began) :
    (world v).Safe (Answers v kid began) (v.key kid) ⟨began, ⟨false, none, false⟩⟩ := by
  have hstart : Free began ⟨began, ⟨false, none, false⟩⟩ := ⟨rfl, .refl _⟩
  unfold OidcVerifier.key
  split
  · next hstatic =>
      intro t hmoves hinv
      refine ⟨trivial, ?_⟩
      rintro ⟨loadedAt, found⟩ t ⟨hread, rfl⟩ -
      obtain ⟨rfl, rfl⟩ := Prod.mk.inj hread
      have ht := hstart.moves hmoves
      refine ⟨by rw [ht.own], ⟨t.cache.keys, keys_mem_inForce hbegan hinv.kept ht.grows, ?_⟩, fun howed => ?_⟩
      · cases find t.cache.keys kid <;> rfl
      · rw [howed.url] at hstatic
        cases hstatic
  · intro t hmoves hinv
    refine ⟨trivial, ?_⟩
    rintro ⟨loadedAt, found⟩ t ⟨hread, rfl⟩ -
    obtain ⟨rfl, rfl⟩ := Prod.mk.inj hread
    have ht := hstart.moves hmoves
    have hkeys := keys_mem_inForce hbegan hinv.kept ht.grows
    cases hfound : find t.cache.keys kid with
    | none => exact gate_safe hbegan ht nofun
    | some key =>
        refine fresh_safe hbegan ht ⟨t.cache.keys, hkeys, hfound⟩ fun hfree hentries => ?_
        rw [ht.grows.same hfree hentries]

end Lookups

/-! ### Lookups at once -/

theorem build_kept (v : OidcVerifier) : Kept v v.build where
  sets := ⟨[], rfl⟩
  spaced := trivial
  started := nofun
  ended := nofun
  settled _ := ⟨nofun, nofun, nofun, nofun⟩

/-- What holds of the cache and all lookups: each is safe, one at most has the mutex, and each that took it is known
by how often it had been taken before. -/
structure Sound (v : OidcVerifier) (cache : Cache) (pool : List Lookup) : Prop where
  kept : Kept v cache
  inv : ∀ l ∈ pool, View.Inv v ⟨cache, l.own⟩
  safe : ∀ l ∈ pool, (world v).Safe (Answers v l.kid l.began) l.program ⟨cache, l.own⟩
  gate : (pool.countP fun l => l.own.held) = if cache.locked then 1 else 0
  grown : ∀ l ∈ pool, l.began.Grows cache
  entered : ∀ count < cache.entries, ∃ l ∈ pool, ∃ entered, l.own.entered = some entered ∧ entered.entries = count
  order : ∀ l ∈ pool, ∀ other ∈ pool, ∀ entered, other.own.entered = some entered → entered.entries < cache.entries ∧
    (entered.entries < l.began.entries ∨ l.began.Grows entered)

theorem safe_moves {v : OidcVerifier} {kid : String} {began : Cache}
    {program : Prog KeySig (Except AuthError Jwk)} {s t : View}
    (h : (world v).Safe (Answers v kid began) program s) (hmoves : s.Moves t) :
    (world v).Safe (Answers v kid began) program t := by
  cases program with
  | ret result =>
      obtain ⟨hleft, ⟨set, hset, hfind⟩, hentries⟩ := h
      refine ⟨by rwa [hmoves.own], ⟨set, inForce_grows hmoves.grows hset, hfind⟩, fun howed => ?_⟩
      exact Nat.lt_of_lt_of_le (hentries howed) hmoves.grows.entries
  | call c next => exact fun u hu => h u (hmoves.trans hu)

namespace Sound

variable {v : OidcVerifier} {cache : Cache} {pool : List Lookup}

theorem start (v : OidcVerifier) : Sound v v.build [] where
  kept := build_kept v
  inv _ hl := absurd hl List.not_mem_nil
  safe _ hl := absurd hl List.not_mem_nil
  gate := rfl
  grown _ hl := absurd hl List.not_mem_nil
  entered count hcount := absurd hcount (Nat.not_lt_zero count)
  order _ hl := absurd hl List.not_mem_nil

theorem perm (h : Sound v cache pool) {pool' : List Lookup} (hperm : pool.Perm pool') : Sound v cache pool' where
  kept := h.kept
  inv l hl := h.inv l (hperm.mem_iff.mpr hl)
  safe l hl := h.safe l (hperm.mem_iff.mpr hl)
  gate := by rw [← hperm.countP_eq, h.gate]
  grown l hl := h.grown l (hperm.mem_iff.mpr hl)
  entered count hcount := by
    obtain ⟨l, hl, hentered⟩ := h.entered count hcount
    exact ⟨l, hperm.mem_iff.mp hl, hentered⟩
  order l hl other hother := h.order l (hperm.mem_iff.mpr hl) other (hperm.mem_iff.mpr hother)

theorem pass (h : Sound v cache pool) (time : Nat) : Sound v { cache with clock := cache.clock + time } pool where
  kept := h.kept.pass time
  inv l hl := ⟨h.kept.pass time, (h.inv l hl).locked, (h.inv l hl).fetched⟩
  safe l hl := safe_moves (h.safe l hl) ⟨rfl, .pass cache time, fun _ => rfl⟩
  gate := h.gate
  grown l hl := (h.grown l hl).trans (.pass cache time)
  entered := h.entered
  order := h.order

theorem begin (h : Sound v cache pool) (kid : String) :
    Sound v cache (⟨kid, cache, v.key kid, ⟨false, none, false⟩⟩ :: pool) where
  kept := h.kept
  inv := List.forall_mem_cons.mpr ⟨⟨h.kept, nofun, nofun⟩, h.inv⟩
  safe := List.forall_mem_cons.mpr ⟨key_safe h.kept, h.safe⟩
  gate := by
    rw [List.countP_cons, h.gate]
    rfl
  grown := List.forall_mem_cons.mpr ⟨.refl cache, h.grown⟩
  entered count hcount := by
    obtain ⟨l, hl, hentered⟩ := h.entered count hcount
    exact ⟨l, List.mem_cons_of_mem _ hl, hentered⟩
  order l hl other hother entered heq := by
    rcases List.mem_cons.mp hother with rfl | hother
    · cases heq
    · rcases List.mem_cons.mp hl with rfl | hl
      · obtain ⟨hentries, -⟩ := h.order other hother other hother entered heq
        exact ⟨hentries, .inl hentries⟩
      · exact h.order l hl other hother entered heq

/-- One lookup makes its call. -/
theorem call {cache' : Cache} {kid : String} {began : Cache} {c : KeyCall}
    {next : c.Answer → Prog KeySig (Except AuthError Jwk)} {own own' : Own} {answer : c.Answer}
    (h : Sound v cache (⟨kid, began, .call c next, own⟩ :: pool))
    (hstep : View.Step ⟨cache, own⟩ c answer ⟨cache', own'⟩) :
    Sound v cache' (⟨kid, began, next answer, own'⟩ :: pool) := by
  have hinv : View.Inv v ⟨cache, own⟩ := h.inv _ List.mem_cons_self
  obtain ⟨howes, hnext⟩ := h.safe _ List.mem_cons_self ⟨cache, own⟩ (.refl _) hinv
  have hinv' := hinv.step howes hstep
  have hgrows : cache.Grows cache' := View.Step.grows hinv howes hstep
  have hgate := h.gate
  rw [List.countP_cons] at hgate
  have hrest : ∀ l ∈ pool, l.own.held = true → cache' = cache := by
    intro l hl hheld
    have hlocked : cache.locked = true := (h.inv l (List.mem_cons_of_mem _ hl)).locked hheld
    have hpos : 0 < pool.countP fun l => l.own.held := List.countP_pos_iff.mpr ⟨l, hl, hheld⟩
    have hnot : own.held = false := by
      refine Bool.eq_false_iff.mpr fun hown => ?_
      rw [if_pos hlocked, if_pos hown] at hgate
      omega
    exact (View.Step.idle howes hstep hnot hlocked).1
  refine ⟨hinv'.kept, ?_, ?_, ?_, ?_, ?_, ?_⟩
  · refine List.forall_mem_cons.mpr ⟨hinv', fun l hl => ⟨hinv'.kept, fun hheld => ?_, ?_⟩⟩
    · show cache'.locked = true
      rw [hrest l hl hheld]
      exact (h.inv l (List.mem_cons_of_mem _ hl)).locked hheld
    · exact (h.inv l (List.mem_cons_of_mem _ hl)).fetched
  · refine List.forall_mem_cons.mpr ⟨hnext answer _ hstep hinv', fun l hl => ?_⟩
    refine safe_moves (h.safe l (List.mem_cons_of_mem _ hl)) ⟨rfl, hgrows, fun hheld => ?_⟩
    show cache' = _
    rw [hrest l hl hheld]
  · rw [List.countP_cons]
    show (pool.countP fun l => l.own.held) + (if own'.held = true then 1 else 0) = if cache'.locked = true then 1 else 0
    rcases View.Step.gate howes hstep with ⟨-, hfree, heq⟩ | ⟨-, -, ⟨hlocked, hheld⟩ | ⟨hheld, hlocked, hleft⟩⟩
    · obtain ⟨rfl, rfl⟩ := View.mk.inj heq
      have hfree : cache.locked = false := hfree
      rw [hfree, if_neg Bool.false_ne_true] at hgate
      rw [(Nat.add_eq_zero_iff.mp hgate).1]
      rfl
    · have hlocked : cache'.locked = cache.locked := hlocked
      have hheld : own'.held = own.held := hheld
      rw [hlocked, hheld]
      exact hgate
    · have hheld : own.held = true := hheld
      have hlocked : cache'.locked = false := hlocked
      have hleft : own'.held = false := hleft
      rw [if_pos hheld, if_pos (hinv.locked hheld)] at hgate
      rw [hlocked, hleft]
      simp only [Bool.false_eq_true, if_false]
      omega
  · refine List.forall_mem_cons.mpr ⟨(h.grown _ List.mem_cons_self).trans hgrows, fun l hl => ?_⟩
    exact (h.grown l (List.mem_cons_of_mem _ hl)).trans hgrows
  · intro count hcount
    rcases View.Step.gate howes hstep with ⟨hnone, -, heq⟩ | ⟨hentered, hentries, -⟩
    · obtain ⟨rfl, rfl⟩ := View.mk.inj heq
      rcases Nat.lt_succ_iff_lt_or_eq.mp hcount with hbefore | rfl
      · obtain ⟨l, hl, entered, hsome, hcounted⟩ := h.entered count hbefore
        rcases List.mem_cons.mp hl with rfl | hl
        · have hnone : own.entered = none := hnone
          have hsome : own.entered = some entered := hsome
          rw [hnone] at hsome
          cases hsome
        · exact ⟨l, List.mem_cons_of_mem _ hl, entered, hsome, hcounted⟩
      · exact ⟨_, List.mem_cons_self, cache, rfl, rfl⟩
    · have hentries : cache'.entries = cache.entries := hentries
      have hentered : own'.entered = own.entered := hentered
      obtain ⟨l, hl, entered, hsome, hcounted⟩ := h.entered count (hentries ▸ hcount)
      rcases List.mem_cons.mp hl with rfl | hl
      · exact ⟨_, List.mem_cons_self, entered, hentered.trans hsome, hcounted⟩
      · exact ⟨l, List.mem_cons_of_mem _ hl, entered, hsome, hcounted⟩
  · -- Each lookup of the pool was there before, under the same beginning.
    have hbegan : ∀ l ∈ ⟨kid, began, next answer, own'⟩ :: pool, ∃ before ∈ ⟨kid, began, .call c next, own⟩ :: pool,
        before.began = l.began := by
      intro l hl
      rcases List.mem_cons.mp hl with rfl | hl
      · exact ⟨_, List.mem_cons_self, rfl⟩
      · exact ⟨l, List.mem_cons_of_mem _ hl, rfl⟩
    intro l hl other hother entered heq
    obtain ⟨before, hbefore, hsame⟩ := hbegan l hl
    rw [← hsame]
    have hold : ∀ other ∈ ⟨kid, began, .call c next, own⟩ :: pool, other.own.entered = some entered →
        entered.entries < cache'.entries ∧ (entered.entries < before.began.entries ∨ before.began.Grows entered) := by
      intro other hother heq
      obtain ⟨hentries, horder⟩ := h.order before hbefore other hother entered heq
      exact ⟨Nat.lt_of_lt_of_le hentries hgrows.entries, horder⟩
    rcases List.mem_cons.mp hother with rfl | hother
    · rcases View.Step.gate howes hstep with ⟨-, -, heq'⟩ | ⟨hentered, -, -⟩
      · obtain ⟨rfl, rfl⟩ := View.mk.inj heq'
        cases heq
        exact ⟨Nat.lt_succ_self _, .inr (h.grown before hbefore)⟩
      · have hentered : own'.entered = own.entered := hentered
        exact hold _ List.mem_cons_self (hentered.symm.trans heq)
    · exact hold other (List.mem_cons_of_mem _ hother) heq

end Sound

theorem Serves.sound {v : OidcVerifier} {cache : Cache} {pool : List Lookup} (h : Serves v cache pool) :
    Sound v cache pool := by
  induction h with
  | start => exact .start v
  | pass _ time ih => exact ih.pass time
  | @begin cache pool _ kid ih => exact (ih.begin kid).perm (List.perm_append_singleton _ _).symm
  | call _ hstep ih => exact ((ih.perm List.perm_middle).call hstep).perm List.perm_middle.symm

/-- However lookups run at once, for any key ids, at any times, with any fetches. A lookup that returns answers as a
set in force between its beginning and its return does, so neither failed fetches nor unknown ids lock out a key that
these sets have. No fetch starts within an interval of the end of one that failed, two for unknown ids on a loaded set
are an interval apart, and less than an interval holds at most two starts. Where the set was as old as `maxAge` as a
lookup began, the mutex was free and no fetch had ended in the last interval, the first lookup that took the mutex
since, this one or another, fetches before it gives the mutex back. -/
theorem key_set_cache (v : OidcVerifier) {cache : Cache} {pool : List Lookup} (h : Serves v cache pool) :
    (∀ l ∈ pool, ∀ result, l.program = .ret result → ∃ set ∈ inForce l.began cache, find set l.kid = result.toOption) ∧
    (cache.history.Pairwise fun later earlier => ∀ time, earlier.ended = some (time, true) →
      time + v.refreshInterval ≤ later.start) ∧
    (cache.history.Pairwise fun later earlier => later.unknown = true → earlier.unknown = true →
      earlier.start + v.refreshInterval ≤ later.start) ∧
    (∀ since, (cache.history.countP fun fetch => decide
      (since ≤ fetch.start ∧ fetch.start < since + v.refreshInterval)) ≤ 2) ∧
    ∀ l ∈ pool, ∀ result, l.program = .ret result → Owed v l.began →
      ∃ first ∈ pool, ∃ entered, first.own.entered = some entered ∧ entered.entries = l.began.entries ∧
        (first.own.sent = true ∨ first.own.held = true ∧ ∀ result, first.program ≠ .ret result) := by
  have hsound := h.sound
  have hanswers : ∀ l ∈ pool, ∀ result, l.program = .ret result → Answers v l.kid l.began ⟨cache, l.own⟩ result := by
    intro l hl result hreturned
    have hsafe := hsound.safe l hl
    rwa [hreturned] at hsafe
  refine ⟨fun l hl result hreturned => (hanswers l hl result hreturned).answered, hsound.kept.spaced.failed_pairwise,
    hsound.kept.spaced.unknown_pairwise, hsound.kept.spaced.count_le_two, fun l hl result hreturned howed => ?_⟩
  obtain ⟨first, hfirst, entered, hentered, hcount⟩ :=
    hsound.entered l.began.entries ((hanswers l hl result hreturned).entries howed)
  refine ⟨first, hfirst, entered, hentered, hcount, ?_⟩
  obtain ⟨-, hbefore | hgrows⟩ := hsound.order l hl first hfirst entered hentered
  · omega
  · have hsame := hgrows.same howed.free hcount.symm
    have howed' : Owed v entered := by
      rw [hsame]
      exact howed.later hgrows.clock
    rcases (hsound.inv first hfirst).fetched entered hentered howed' with hheld | hsent
    · have hheld : first.own.held = true := hheld
      refine .inr ⟨hheld, fun result hreturned => ?_⟩
      have hleft : first.own.held = false := (hanswers first hfirst result hreturned).left
      rw [hheld] at hleft
      cases hleft
    · exact .inl hsent

/-! ### A rotated key -/

/-- What a lookup that runs alone is answered while its fetch comes to `fetched`. -/
def respond (fetched : Except String (List Jwk)) (s : View) : (c : KeyCall) → Option (c.Answer × View)
  | .lookup kid => some ((s.cache.loadedAt, find s.cache.keys kid), s)
  | .elapsed since => some (s.cache.clock - since, s)
  | .now => some (s.cache.clock, s)
  | .tryLock => some (!s.cache.locked, if s.cache.locked then s else s.enter)
  | .lock => none
  | .unlock => some ((), ⟨{ s.cache with locked := false }, { s.own with held := false }⟩)
  | .fetches => some (s.cache.fetches, s)
  | .write fetches => some ((), ⟨{ s.cache with fetches := fetches }, s.own⟩)
  | .send kid =>
      let unknown := s.cache.loadedAt.isSome && (find s.cache.keys kid).isNone
      some ((), ⟨{ s.cache with history := ⟨s.cache.clock, none, unknown⟩ :: s.cache.history },
        { s.own with sent := true }⟩)
  | .receive =>
      some ((fetched, s.cache.clock),
        ⟨{ s.cache with history := endLast (s.cache.clock, isError fetched) s.cache.history }, s.own⟩)
  | .load set =>
      some ((), ⟨{ s.cache with keys := set, loadedAt := some s.cache.clock, sets := s.cache.sets ++ [set] }, s.own⟩)

theorem respond_step {fetched : Except String (List Jwk)} {s t : View} {c : KeyCall} {answer : c.Answer}
    (h : respond fetched s c = some (answer, t)) : s.Step c answer t := by
  cases c with
  | lock => cases h
  | lookup kid | elapsed since | now | fetches | tryLock | receive =>
      cases h
      exact ⟨rfl, rfl⟩
  | unlock | write fetches | send kid | load set =>
      cases h
      rfl

def alone {α : Type} (fetched : Except String (List Jwk)) : Prog KeySig α → View → Option (α × View)
  | .ret value, s => some (value, s)
  | .call c next, s => (respond fetched s c).bind fun answered => alone fetched (next answered.1) answered.2

/-- The last lookup runs while the others wait. -/
theorem Serves.alone {v : OidcVerifier} {cache : Cache} {pool : List Lookup} {kid : String} {began : Cache}
    {program : Prog KeySig (Except AuthError Jwk)} {own : Own} {fetched : Except String (List Jwk)}
    {ran : Except AuthError Jwk × View} (h : Serves v cache (pool ++ [⟨kid, began, program, own⟩]))
    (halone : Jwks.alone fetched program ⟨cache, own⟩ = some ran) :
    Serves v ran.2.cache (pool ++ [⟨kid, began, .ret ran.1, ran.2.own⟩]) := by
  induction program generalizing cache own with
  | ret value =>
      cases halone
      exact h
  | call c next ih =>
      obtain ⟨⟨answer, mid⟩, hrespond, hrest⟩ := Option.bind_eq_some_iff.mp halone
      exact ih answer (h.call (respond_step hrespond)) hrest

def issuer : OidcVerifier := ⟨30, 600, .url⟩

def firstKey : Jwk := ⟨some "first", "1"⟩

def secondKey : Jwk := ⟨some "second", "2"⟩

def unstarted : Own := ⟨false, none, false⟩

/-- The first load. -/
def loaded : Except AuthError Jwk × View :=
  (alone (.ok [firstKey]) (issuer.key "first") ⟨issuer.build, unstarted⟩).get (by decide +kernel)

/-- A lookup of a key that was published since. -/
def rotated : Except AuthError Jwk × View :=
  (alone (.ok [firstKey, secondKey]) (issuer.key "second") ⟨loaded.2.cache, unstarted⟩).get (by decide +kernel)

def later : Cache := { rotated.2.cache with clock := rotated.2.cache.clock + 700 }

/-- A lookup of a set that is no longer fresh, whose fetch fails. -/
def stale : Except AuthError Jwk × View :=
  (alone (.error "timed out") (issuer.key "first") ⟨later, unstarted⟩).get (by decide +kernel)

def lookups : List Lookup :=
  [⟨"first", issuer.build, .ret loaded.1, loaded.2.own⟩, ⟨"second", loaded.2.cache, .ret rotated.1, rotated.2.own⟩]

theorem serves_rotated : Serves issuer rotated.2.cache lookups := by
  have hfirst : alone (.ok [firstKey]) (issuer.key "first") ⟨issuer.build, unstarted⟩ = some loaded :=
    (Option.some_get _).symm
  have hloaded : Serves issuer loaded.2.cache ([] ++ [⟨"first", issuer.build, .ret loaded.1, loaded.2.own⟩]) :=
    (Serves.start.begin "first").alone hfirst
  have hsecond : alone (.ok [firstKey, secondKey]) (issuer.key "second") ⟨loaded.2.cache, unstarted⟩ = some rotated :=
    (Option.some_get _).symm
  exact (hloaded.begin "second").alone hsecond

theorem serves_stale : Serves issuer stale.2.cache (lookups ++ [⟨"first", later, .ret stale.1, stale.2.own⟩]) := by
  have hstale : alone (.error "timed out") (issuer.key "first") ⟨later, unstarted⟩ = some stale :=
    (Option.some_get _).symm
  exact ((serves_rotated.pass 700).begin "first").alone hstale

/-- A lookup answers a key that the set last fetched before it began does not have: it fetched the set that has it. -/
theorem rotated_key_answered :
    ¬ ∀ (v : OidcVerifier) (cache : Cache) (pool : List Lookup), Serves v cache pool → ∀ l ∈ pool, ∀ key,
      l.program = .ret (.ok key) → l.began.loadedAt.isSome = true → key ∈ l.began.keys := by
  intro hclaim
  have hanswer : rotated.1 = .ok secondKey := by
    have hsome : rotated.1.toOption = some secondKey := by decide +kernel
    cases hresult : rotated.1 with
    | ok key =>
        rw [hresult] at hsome
        exact congrArg Except.ok (Option.some.inj hsome)
    | error error =>
        rw [hresult] at hsome
        cases hsome
  have hmem := hclaim issuer _ _ serves_rotated
    ⟨"second", loaded.2.cache, .ret rotated.1, rotated.2.own⟩ (by simp [lookups])
    secondKey (congrArg Prog.ret hanswer) (by decide +kernel)
  have hnot : secondKey ∉ loaded.2.cache.keys := by decide +kernel
  exact hnot hmem

theorem owed_later : Owed issuer later where
  url := rfl
  stale := ⟨0, by decide +kernel, by decide +kernel⟩
  free := by decide +kernel
  rested fetch hfetch := by
    have hhistory : later.history = [⟨0, some (0, false), true⟩, ⟨0, some (0, false), false⟩] := by decide +kernel
    have hclock : later.clock = 700 := by decide +kernel
    rw [hhistory] at hfetch
    rw [hclock]
    rcases List.mem_cons.mp hfetch with rfl | hfetch
    · exact ⟨0, false, rfl, by decide⟩
    · obtain rfl := List.mem_singleton.mp hfetch
      exact ⟨0, false, rfl, by decide⟩

/-- The key is still answered when the fetch fails, and the lookup that the set was stale for has fetched. -/
theorem key_set_cache_stale :
    (∃ set ∈ inForce later stale.2.cache, find set "first" = stale.1.toOption) ∧ stale.1.toOption = some firstKey ∧
      ∃ first ∈ lookups ++ [⟨"first", later, .ret stale.1, stale.2.own⟩], ∃ entered,
        first.own.entered = some entered ∧ entered.entries = later.entries ∧
          (first.own.sent = true ∨ first.own.held = true ∧ ∀ result, first.program ≠ .ret result) := by
  have hmem : (⟨"first", later, .ret stale.1, stale.2.own⟩ : Lookup) ∈
      lookups ++ [⟨"first", later, .ret stale.1, stale.2.own⟩] := List.mem_append_right _ (List.mem_singleton_self _)
  have hcache := key_set_cache issuer serves_stale
  exact ⟨hcache.1 _ hmem _ rfl, by decide +kernel, hcache.2.2.2.2 _ hmem _ rfl owed_later⟩

end Jwks
end Gol
