import Gol.HarnessResume
import Gol.ProtocolOwners

/-! The memory of runs (`memory.rs`, and the Postgres memory of `crates/memory`). A driver reads and writes a scope
under the owner its run names; run and step memory live as long as the call that drives the run, and every other scope
outlives it. A read finds what was written last by those who share its scope's owner. -/

namespace Gol

/-- A memory's values, each under its owner and its key. -/
abbrev Cells := MemoryKey × String → Option String

/-- What a read may answer: what the cell holds, or an error. -/
def Cells.Reads (cells : Cells) (owner : MemoryKey) (key : String) (answer : Except String (Option String)) : Prop :=
  ∀ found, answer = .ok found → found = cells (owner, key)

/-- A write that took effect, or failed without. One that took effect can lose its answer. -/
def Cells.Writes (cells : Cells) (owner : MemoryKey) (key value : String) (took : Bool) (answer : Except String Unit)
    (later : Cells) : Prop :=
  match took with
  | true => later = Function.update cells (owner, key) (some value)
  | false => later = cells ∧ answer ≠ .ok ()

/-! ### The memories -/

/-- Memory in a map, behind a lock. -/
structure InMemory where
  values : Cells
  poisoned : Bool

namespace InMemory

def default : InMemory := ⟨fun _ => none, false⟩

/-- A poisoned lock still answers reads. -/
def read (m : InMemory) (owner : MemoryKey) (key : String) : Except String (Option String) :=
  .ok (m.values (owner, key))

def write (m : InMemory) (owner : MemoryKey) (key value : String) : Except String Unit × InMemory :=
  if m.poisoned then (.error "memory lock poisoned", m)
  else (.ok (), { m with values := Function.update m.values (owner, key) (some value) })

theorem reads (m : InMemory) (owner : MemoryKey) (key : String) : m.values.Reads owner key (m.read owner key) := by
  rintro found ⟨⟩
  rfl

theorem writes (m : InMemory) (owner : MemoryKey) (key value : String) :
    m.values.Writes owner key value (!m.poisoned) (m.write owner key value).1 (m.write owner key value).2.values := by
  obtain ⟨values, poisoned⟩ := m
  cases poisoned with
  | false => rfl
  | true => exact ⟨rfl, nofun⟩

end InMemory

/-- A scope as its rows name it: its variant, as a JSON string. -/
def scopeText (scope : MemoryScope) : String := "\"" ++ Driver.scopeName scope ++ "\""

theorem scopeText_injective : Function.Injective scopeText := by
  intro scope other h
  revert h
  cases scope <;> cases other <;> decide

/-- Memory in Postgres: the rows of `memories`, by scope, owner and key. -/
structure PostgresMemory where
  memories : String × String × String → Option String

namespace PostgresMemory

def cells (m : PostgresMemory) : Cells := fun cell => m.memories (scopeText cell.1.scope, cell.1.ownerId, cell.2)

/-- The select, where it is answered. -/
def read (m : PostgresMemory) (owner : MemoryKey) (key : String) : Except String (Option String) :=
  .ok (m.memories (scopeText owner.scope, owner.ownerId, key))

/-- The insert, or update of the row in conflict. -/
def upsert (m : PostgresMemory) (owner : MemoryKey) (key value : String) : PostgresMemory :=
  ⟨Function.update m.memories (scopeText owner.scope, owner.ownerId, key) (some value)⟩

/-- How a write's call comes back: done, failed at the database, or with the answer of its commit lost. -/
inductive Outcome where
  | done
  | failed (error : String)
  | lost (error : String)

def write (m : PostgresMemory) (owner : MemoryKey) (key value : String) : Outcome → Except String Unit × PostgresMemory
  | .done => (.ok (), m.upsert owner key value)
  | .failed error => (.error error, m)
  | .lost error => (.error error, m.upsert owner key value)

theorem reads (m : PostgresMemory) (owner : MemoryKey) (key : String) : m.cells.Reads owner key (m.read owner key) := by
  rintro found ⟨⟩
  rfl

theorem cells_upsert (m : PostgresMemory) (owner : MemoryKey) (key value : String) :
    (m.upsert owner key value).cells = Function.update m.cells (owner, key) (some value) := by
  ext ⟨other, otherKey⟩
  have hcell : (scopeText other.scope, other.ownerId, otherKey) = (scopeText owner.scope, owner.ownerId, key) ↔
      (other, otherKey) = (owner, key) := by
    constructor
    · intro h
      simp only [Prod.mk.injEq] at h
      obtain ⟨hscope, hid, rfl⟩ := h
      obtain ⟨scope, id⟩ := other
      obtain rfl : scope = owner.scope := scopeText_injective hscope
      obtain rfl : id = owner.ownerId := hid
      rfl
    · rintro ⟨⟩
      rfl
  by_cases h : (other, otherKey) = (owner, key)
  · cases h
    simp [cells, upsert]
  · rw [Function.update_of_ne h]
    simp only [cells, upsert]
    rw [Function.update_of_ne fun heq => h (hcell.mp heq)]

theorem writes (m : PostgresMemory) (owner : MemoryKey) (key value : String) (outcome : Outcome) :
    m.cells.Writes owner key value (match outcome with
      | .failed _ => false
      | _ => true) (m.write owner key value outcome).1 (m.write owner key value outcome).2.cells := by
  cases outcome with
  | done => exact m.cells_upsert owner key value
  | failed error => exact ⟨rfl, nofun⟩
  | lost error => exact m.cells_upsert owner key value

end PostgresMemory

/-! ### Runs and their memories -/

/-- The shared memory, and the run and step memory of each call that drives a run (`RunMemory`). -/
structure Memories where
  shared : Cells
  own : Nat → Cells

namespace Memories

def empty : Memories := ⟨fun _ => none, fun _ _ => none⟩

/-- The memory that holds an owner's entries, for a call. -/
def holder (m : Memories) (call : Nat) (owner : MemoryKey) : Cells :=
  if owner.scope.isPrivate then m.own call else m.shared

def put (m : Memories) (call : Nat) (owner : MemoryKey) (later : Cells) : Memories :=
  if owner.scope.isPrivate then { m with own := Function.update m.own call later } else { m with shared := later }

theorem holder_put (m : Memories) (call other : Nat) (owner otherOwner : MemoryKey) (later : Cells) :
    (m.put call owner later).holder other otherOwner =
      if owner.scope.isPrivate = otherOwner.scope.isPrivate ∧ (owner.scope.isPrivate = true → call = other) then later
      else m.holder other otherOwner := by
  cases howner : owner.scope.isPrivate with
  | false => cases hother : otherOwner.scope.isPrivate <;> simp [holder, put, howner, hother]
  | true =>
      cases hother : otherOwner.scope.isPrivate with
      | false => simp [holder, put, howner, hother]
      | true =>
          by_cases hcall : call = other
          · subst hcall
            simp [holder, put, howner, hother]
          · simp [holder, put, howner, hother, hcall, Function.update_of_ne (Ne.symm hcall)]

end Memories

/-- What a driver's read was answered, or what its write did. -/
inductive MemoryAct where
  | read (answer : Except String (Option String))
  | write (value : String) (took : Bool) (answer : Except String Unit)

/-- One read or write of a driver, made in the `call`-th call that drives a run. -/
structure Access where
  call : Nat
  driver : Driver
  scope : MemoryScope
  key : String
  act : MemoryAct

/-- The memories before and after an access under the owner that its driver names. -/
inductive Memories.Step : Memories → Access → Memories → Prop
  | read (m : Memories) (call : Nat) (d : Driver) (scope : MemoryScope) (key : String) (owner : MemoryKey)
      (answer : Except String (Option String)) (howner : d.memoryKey scope = some owner)
      (h : (m.holder call owner).Reads owner key answer) : Step m ⟨call, d, scope, key, .read answer⟩ m
  | write (m : Memories) (call : Nat) (d : Driver) (scope : MemoryScope) (key : String)
      (owner : MemoryKey) (value : String)
      (took : Bool) (answer : Except String Unit) (later : Cells) (howner : d.memoryKey scope = some owner)
      (h : (m.holder call owner).Writes owner key value took answer later) :
      Step m ⟨call, d, scope, key, .write value took answer⟩ (m.put call owner later)

/-- Any accesses of any drivers, in any order, the newest first. -/
inductive Memories.Run : List Access → Memories → Prop
  | start : Run [] .empty
  | step {history : List Access} {m m' : Memories} {access : Access} (before : Run history m) (h : m.Step access m') :
      Run (access :: history) m'

/-- The step that a driver's step memory is kept under. -/
def Driver.memoryStep (d : Driver) : UInt32 :=
  match d.state.harness with
  | .running step _ _ => step
  | .waitingForTool step _ _ _ => step
  | _ => 0

theorem Driver.memoryKey_eq (d : Driver) (scope : MemoryScope) :
    d.memoryKey scope = (memoryOwnerId d.spec scope d.memoryStep).map fun ownerId => ⟨scope, ownerId⟩ := rfl

/-- The other access is to the same entry: of a run that shares the scope's owner, and of the same call if the scope's
memory lives no longer. -/
def Access.Reaches (access other : Access) : Prop :=
  access.scope = other.scope ∧ access.key = other.key ∧
    access.scope.Shares access.driver.spec access.driver.memoryStep other.driver.spec other.driver.memoryStep ∧
    (access.scope.isPrivate = true → access.call = other.call)

instance (access other : Access) : Decidable (access.Reaches other) := by
  unfold Access.Reaches
  infer_instance

/-- What an earlier access wrote to the entry of a later one. -/
def Access.wrote (earlier access : Access) : Option String :=
  match earlier.act with
  | .write value true _ => if earlier.Reaches access then some value else none
  | _ => none

/-- What was written last to the entry that `access` reads. -/
def lastWritten (history : List Access) (access : Access) : Option String :=
  history.findSome? fun earlier => earlier.wrote access

theorem lastWritten_cons (earlier : Access) (history : List Access) (access : Access) :
    lastWritten (earlier :: history) access = (earlier.wrote access).or (lastWritten history access) := by
  rw [lastWritten, List.findSome?_cons]
  cases earlier.wrote access <;> rfl

/-- Under its key, an owner is what the runs that name it share. -/
theorem Driver.memoryKey_eq_some {d other : Driver} {scope otherScope : MemoryScope} {owner : MemoryKey}
    (h : d.memoryKey scope = some owner) :
    other.memoryKey otherScope = some owner ↔
      otherScope = scope ∧ otherScope.Shares other.spec other.memoryStep d.spec d.memoryStep := by
  rw [memoryKey_eq] at h ⊢
  obtain ⟨id, hid, rfl⟩ := Option.map_eq_some_iff.mp h
  constructor
  · intro hother
    obtain ⟨id', hid', heq⟩ := Option.map_eq_some_iff.mp hother
    cases heq
    exact ⟨rfl, shares_of_memoryOwnerId hid' hid⟩
  · rintro ⟨rfl, hshares⟩
    rw [memoryOwnerId_of_shares hshares, hid]
    rfl

namespace Memories

/-- What a write leaves in an entry: its value where it took effect there. -/
theorem holder_of_writes {m : Memories} {call : Nat} {owner : MemoryKey} {key value : String} {took : Bool}
    {answer : Except String Unit} {later : Cells} (h : (m.holder call owner).Writes owner key value took answer later)
    (reader : Nat) (other : MemoryKey) (otherKey : String) :
    (m.put call owner later).holder reader other (other, otherKey) =
      if took = true ∧ owner = other ∧ key = otherKey ∧ (owner.scope.isPrivate = true → call = reader) then some value
      else m.holder reader other (other, otherKey) := by
  rw [holder_put]
  by_cases hheld : owner.scope.isPrivate = other.scope.isPrivate ∧ (owner.scope.isPrivate = true → call = reader)
  · obtain ⟨hscopes, hcall⟩ := hheld
    have hsame : m.holder reader other = m.holder call owner := by
      unfold holder
      rw [← hscopes]
      split
      · next hprivate => rw [hcall hprivate]
      · rfl
    rw [if_pos ⟨hscopes, hcall⟩, hsame]
    cases took with
    | false =>
        obtain ⟨rfl, -⟩ := h
        simp
    | true =>
        obtain rfl := h
        by_cases hcell : owner = other ∧ key = otherKey
        · obtain ⟨rfl, rfl⟩ := hcell
          rw [if_pos ⟨rfl, rfl, rfl, hcall⟩, Function.update_self]
        · have hne : (other, otherKey) ≠ (owner, key) := fun heq => hcell (by cases heq; exact ⟨rfl, rfl⟩)
          rw [Function.update_of_ne hne, if_neg fun hall => hcell ⟨hall.2.1, hall.2.2.1⟩]
  · rw [if_neg hheld, if_neg]
    rintro ⟨-, rfl, -, hcall⟩
    exact hheld ⟨rfl, hcall⟩

/-- An entry holds what was written last to it. -/
theorem Run.holder_eq {history : List Access} {m : Memories} (h : Run history m) {access : Access} {owner : MemoryKey}
    (howner : access.driver.memoryKey access.scope = some owner) :
    m.holder access.call owner (owner, access.key) = lastWritten history access := by
  have hscope : access.scope = owner.scope := by
    rw [Driver.memoryKey_eq] at howner
    obtain ⟨id, -, rfl⟩ := Option.map_eq_some_iff.mp howner
    rfl
  induction h with
  | start =>
      rw [holder]
      split <;> rfl
  | step before hstep ih =>
      cases hstep with
      | read call d scope key owner' answer howner' hreads => exact ih
      | write call d scope key owner' value took answer later howner' hwrites =>
          have hreaches : (⟨call, d, scope, key, .write value took answer⟩ : Access).Reaches access ↔
              owner' = owner ∧ key = access.key ∧ (owner'.scope.isPrivate = true → call = access.call) := by
            have hsame : owner' = owner ↔ scope = access.scope ∧
                scope.Shares d.spec d.memoryStep access.driver.spec access.driver.memoryStep := by
              rw [← Driver.memoryKey_eq_some howner, howner', Option.some.injEq]
            constructor
            · rintro ⟨hscopes, hkey, hshares, hcall⟩
              obtain rfl := hsame.mpr ⟨hscopes, hshares⟩
              refine ⟨rfl, hkey, ?_⟩
              rwa [← hscope, ← hscopes]
            · rintro ⟨rfl, hkey, hcall⟩
              obtain ⟨hscopes, hshares⟩ := hsame.mp rfl
              refine ⟨hscopes, hkey, hshares, ?_⟩
              rwa [← hscope, ← hscopes] at hcall
          rw [holder_of_writes hwrites, ih, lastWritten_cons]
          cases took with
          | false => simp [Access.wrote]
          | true =>
              simp only [Access.wrote, true_and, ← hreaches]
              split <;> rfl

end Memories

/-- Two runs name one owner for a scope exactly when they share what it is kept apart by; so whatever drivers read and
write, in any order and with any failures, a read finds what was written last by those who share the owner. -/
theorem memory_kept_apart :
    (∀ spec other scope step otherStep id, memoryOwnerId spec scope step = some id →
      memoryOwnerId other scope otherStep = some id → scope.Shares spec step other otherStep) ∧
    (∀ (spec other : RunSpec) (scope : MemoryScope) (step otherStep : UInt32), scope.Shares spec step other otherStep →
      memoryOwnerId spec scope step = memoryOwnerId other scope otherStep) ∧
    ∀ history memories access found, Memories.Run (access :: history) memories → access.act = .read (.ok found) →
      found = lastWritten history access := by
  refine ⟨fun _ _ _ _ _ _ h hother => shares_of_memoryOwnerId h hother,
    fun _ _ _ _ _ h => memoryOwnerId_of_shares h, ?_⟩
  intro history memories access found hrun hact
  cases hrun with
  | step before hstep =>
      cases hstep with
      | read call d scope key owner answer howner hreads =>
          cases hact
          rw [hreads found rfl]
          exact @Memories.Run.holder_eq _ _ before ⟨call, d, scope, key, .read (.ok found)⟩ owner howner
      | write call d scope key owner value took answer later howner hwrites => cases hact

/-- One run's write to its user's memory is what another run of the user finds there. -/
theorem memory_kept_apart_user :
    MemoryScope.user.Shares (RunSpec.plain 1 ⟨2, 2⟩) 0 (RunSpec.plain 2 ⟨2, 2⟩) 1 ∧
    ∃ history memories access, Memories.Run (access :: history) memories ∧ access.act = .read (.ok (some "v")) ∧
      some "v" = lastWritten history access := by
  let writer : Driver := Driver.boot (RunSpec.plain 1 ⟨2, 2⟩) Stamp.plain
  let reader : Driver := Driver.boot (RunSpec.plain 2 ⟨2, 2⟩) Stamp.plain
  let owner : MemoryKey := ⟨.user, joined ["https://issuer.test", "user-1"]⟩
  refine ⟨memory_kept_apart.1 _ _ .user 0 1 _ rfl rfl, ?_⟩
  let written := Memories.empty.put 0 owner (Function.update (Memories.empty.holder 0 owner) (owner, "k") (some "v"))
  have hwritten : Memories.Run [⟨0, writer, .user, "k", .write "v" true (.ok ())⟩] written :=
    .step .start (.write _ 0 writer .user "k" owner "v" true (.ok ()) _ rfl rfl)
  have hfinds : (written.holder 1 owner).Reads owner "k" (.ok (some "v")) := by
    rintro found ⟨⟩
    exact (Function.update_self (owner, "k") (some "v") (Memories.empty.holder 0 owner)).symm
  have hread := Memories.Run.step hwritten (.read _ 1 reader .user "k" owner (.ok (some "v")) rfl hfinds)
  exact ⟨_, _, _, hread, rfl, memory_kept_apart.2.2 _ _ _ _ hread rfl⟩

end Gol
