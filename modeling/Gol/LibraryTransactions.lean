import Mathlib.Data.List.MinMax
import Gol.LibraryProgram

/-! Transactions over rows with locks. A transaction takes a row's lock before it writes the row, writes a draft that
no other sees, and holds its locks to its end: it commits all that it wrote, or ends with none of it. Sessions that
run transactions side by side, a statement at a time, leave the rows as the committed transactions leave them one
after another. Where each takes its locks by rising rank, some session can always go on. -/

namespace Gol.Library

/-- What holds of all of a list with `x` in it. -/
theorem forall_mem_middle {β : Type} {P : β → Prop} {front back : List β} {x : β} :
    (∀ y ∈ front ++ x :: back, P y) ↔ P x ∧ ∀ y ∈ front ++ back, P y := by
  simp only [List.forall_mem_append, List.forall_mem_cons]
  exact and_left_comm

/-- The statements of a transaction: to lock a row and read it, and to write one that is locked. -/
inductive RowCall {κ : Type} (Row : κ → Type) : Type
  | lock (k : κ)
  | write (k : κ) (row : Row k)

@[reducible] def RowCall.Answer {κ : Type} {Row : κ → Type} : RowCall Row → Type
  | .lock k => Row k
  | .write _ _ => Unit

abbrev RowSig {κ : Type} (Row : κ → Type) : Sig := ⟨RowCall Row, RowCall.Answer⟩

abbrev Rows {κ : Type} (Row : κ → Type) : Type := (k : κ) → Row k

/-- What a transaction has written, where it has. -/
abbrev Draft {κ : Type} (Row : κ → Type) : Type := (k : κ) → Option (Row k)

/-- The transaction `name` under way in a session: it is at `rest`, with its locks and what it has written. -/
structure Transaction (κ τ α : Type) (Row : κ → Type) where
  name : τ
  rest : Prog (RowSig Row) α
  held : List κ
  draft : Draft Row

variable {κ τ α : Type} {Row : κ → Type}

/-- The two sessions hold no lock of the same row. -/
def Transaction.Apart (s t : Transaction κ τ α Row) : Prop := ∀ k, k ∈ s.held → k ∉ t.held

theorem Transaction.Apart.symm {s t : Transaction κ τ α Row} (h : s.Apart t) : t.Apart s := fun k ht hs => h k hs ht

theorem pairwise_apart_middle {front back : List (Transaction κ τ α Row)} {session : Transaction κ τ α Row} :
    (front ++ session :: back).Pairwise Transaction.Apart ↔
      (∀ other ∈ front ++ back, session.Apart other) ∧ (front ++ back).Pairwise Transaction.Apart := by
  rw [List.pairwise_middle fun h => h.symm, List.pairwise_cons]

/-- The rows with a draft over them. -/
def Draft.over (draft : Draft Row) (rows : Rows Row) : Rows Row := fun k => (draft k).getD (rows k)

variable [DecidableEq κ]

theorem Draft.over_update (draft : Draft Row) (rows : Rows Row) (k : κ) (row : Row k) :
    Draft.over (Function.update draft k (some row)) rows = Function.update (draft.over rows) k row := by
  funext other
  by_cases h : other = k
  · subst h
    simp [Draft.over]
  · simp [Draft.over, Function.update_of_ne h]

/-- The answer of one statement, and the rows after it. -/
def Rows.answer (rows : Rows Row) : (c : (RowSig Row).Call) → (RowSig Row).Answer c × Rows Row
  | .lock k => (rows k, rows)
  | .write k row => ((), Function.update rows k row)

/-- A transaction that runs alone. -/
def Rows.run (rows : Rows Row) (p : Prog (RowSig Row) α) : α × Rows Row := p.exec Rows.answer rows

@[simp] theorem Rows.run_ret (rows : Rows Row) (value : α) : rows.run (.ret value) = (value, rows) := rfl

@[simp] theorem Rows.run_lock (rows : Rows Row) (k : κ) (next : Row k → Prog (RowSig Row) α) :
    rows.run (.call (.lock k) next) = rows.run (next (rows k)) := rfl

@[simp] theorem Rows.run_write (rows : Rows Row) (k : κ) (row : Row k) (next : Unit → Prog (RowSig Row) α) :
    rows.run (.call (.write k row) next) = Rows.run (Function.update rows k row) (next ()) := rfl

/-! ### Sessions -/

/-- The committed rows, the sessions, and the transactions that have answered, in their order. -/
structure Base (κ τ α : Type) (Row : κ → Type) where
  rows : Rows Row
  sessions : List (Transaction κ τ α Row)
  done : List (τ × α)

namespace Base

variable (tx : τ → Prog (RowSig Row) α)

/-- One session goes on: it takes a lock that no other holds, writes a row whose lock it has, or commits. A
transaction whose first row already tells it what to answer does not wait for its lock. -/
inductive Advance : Base κ τ α Row → Base κ τ α Row → Prop
  | lock (rows : Rows Row) (front back : List (Transaction κ τ α Row)) (done : List (τ × α)) (name : τ) (k : κ)
      (next : Row k → Prog (RowSig Row) α) (held : List κ) (draft : Draft Row)
      (hfree : ∀ other ∈ front ++ back, k ∉ other.held) :
      Advance ⟨rows, front ++ ⟨name, .call (.lock k) next, held, draft⟩ :: back, done⟩
        ⟨rows, front ++ ⟨name, next (draft.over rows k), k :: held, draft⟩ :: back, done⟩
  | write (rows : Rows Row) (front back : List (Transaction κ τ α Row)) (done : List (τ × α)) (name : τ)
      (k : κ) (row : Row k)
      (next : Unit → Prog (RowSig Row) α) (held : List κ) (draft : Draft Row) (hheld : k ∈ held) :
      Advance ⟨rows, front ++ ⟨name, .call (.write k row) next, held, draft⟩ :: back, done⟩
        ⟨rows, front ++ ⟨name, next (), held, Function.update draft k (some row)⟩ :: back, done⟩
  | commit (rows : Rows Row) (front back : List (Transaction κ τ α Row)) (done : List (τ × α)) (name : τ)
      (value : α) (held : List κ)
      (draft : Draft Row) :
      Advance ⟨rows, front ++ ⟨name, .ret value, held, draft⟩ :: back, done⟩
        ⟨draft.over rows, front ++ back, done ++ [(name, value)]⟩
  | glance (rows : Rows Row) (front back : List (Transaction κ τ α Row)) (done : List (τ × α)) (name : τ) (k : κ)
      (next : Row k → Prog (RowSig Row) α) (draft : Draft Row) (value : α) (hnext : next (rows k) = .ret value) :
      Advance ⟨rows, front ++ ⟨name, .call (.lock k) next, [], draft⟩ :: back, done⟩
        ⟨rows, front ++ back, done ++ [(name, value)]⟩

/-- A transaction starts, a session goes on, or one ends and leaves nothing. -/
inductive Step : Base κ τ α Row → Base κ τ α Row → Prop
  | start (rows : Rows Row) (sessions : List (Transaction κ τ α Row)) (done : List (τ × α)) (name : τ) :
      Step ⟨rows, sessions, done⟩ ⟨rows, ⟨name, tx name, [], fun _ => none⟩ :: sessions, done⟩
  | advance {b b' : Base κ τ α Row} (h : b.Advance b') : Step b b'
  | abort (rows : Rows Row) (front back : List (Transaction κ τ α Row)) (done : List (τ × α))
      (session : Transaction κ τ α Row) :
      Step ⟨rows, front ++ session :: back, done⟩ ⟨rows, front ++ back, done⟩

/-- What sessions lead to from `rows`. -/
inductive Reach (rows : Rows Row) : Base κ τ α Row → Prop
  | start : Reach rows ⟨rows, [], []⟩
  | step {b b' : Base κ τ α Row} (h : Reach rows b) (hstep : Step tx b b') : Reach rows b'

end Base

/-! ### One after another -/

/-- The transactions, one after another, give these answers and lead to these rows. -/
inductive Serial (tx : τ → Prog (RowSig Row) α) (start : Rows Row) : List (τ × α) → Rows Row → Prop
  | nil : Serial tx start [] start
  | snoc {done : List (τ × α)} {rows : Rows Row} (h : Serial tx start done rows) (name : τ) :
      Serial tx start (done ++ [(name, (rows.run (tx name)).1)]) (rows.run (tx name)).2

variable {tx : τ → Prog (RowSig Row) α}

/-- Whatever becomes of the rows it has not locked, a session's transaction comes to where the session is, with its
draft. -/
structure Transaction.Sound (tx : τ → Prog (RowSig Row) α) (session : Transaction κ τ α Row)
    (rows : Rows Row) : Prop where
  drafted : ∀ k, k ∉ session.held → session.draft k = none
  replays : ∀ rows' : Rows Row, (∀ k ∈ session.held, rows' k = rows k) →
    rows'.run (tx session.name) = (session.draft.over rows').run session.rest

theorem Transaction.Sound.mono {session : Transaction κ τ α Row} {rows rows' : Rows Row} (h : session.Sound tx rows)
    (hsame : ∀ k ∈ session.held, rows' k = rows k) : session.Sound tx rows' :=
  ⟨h.drafted, fun other hother => h.replays other fun k hk => (hother k hk).trans (hsame k hk)⟩

namespace Base

structure Sound (tx : τ → Prog (RowSig Row) α) (start : Rows Row) (b : Base κ τ α Row) : Prop where
  serial : Serial tx start b.done b.rows
  sound : ∀ session ∈ b.sessions, session.Sound tx b.rows
  apart : b.sessions.Pairwise Transaction.Apart

variable {start : Rows Row} {b b' : Base κ τ α Row}

/-- What a session leaves when it ends. -/
theorem Sound.drop {rows : Rows Row} {front back : List (Transaction κ τ α Row)} {session : Transaction κ τ α Row}
    {done : List (τ × α)} (h : Sound tx start ⟨rows, front ++ session :: back, done⟩) :
    Sound tx start ⟨rows, front ++ back, done⟩ where
  serial := h.serial
  sound := (forall_mem_middle.mp h.sound).2
  apart := (pairwise_apart_middle.mp h.apart).2

/-- A session goes on where it stays sound and takes no lock of another. -/
theorem Sound.replace {rows : Rows Row} {front back : List (Transaction κ τ α Row)}
    {session later : Transaction κ τ α Row} {done : List (τ × α)}
    (h : Sound tx start ⟨rows, front ++ session :: back, done⟩) (hlater : later.Sound tx rows)
    (hapart : ∀ other ∈ front ++ back, later.Apart other) : Sound tx start ⟨rows, front ++ later :: back, done⟩ where
  serial := h.serial
  sound := forall_mem_middle.mpr ⟨hlater, (forall_mem_middle.mp h.sound).2⟩
  apart := pairwise_apart_middle.mpr ⟨hapart, (pairwise_apart_middle.mp h.apart).2⟩

theorem Sound.advance (h : Sound tx start b) (hstep : b.Advance b') : Sound tx start b' := by
  cases hstep with
  | lock rows front back done name k next held draft hfree =>
      have hsession := (forall_mem_middle.mp h.sound).1
      have hapart := (pairwise_apart_middle.mp h.apart).1
      refine h.replace ⟨fun other hother => ?_, fun rows' hsame => ?_⟩ fun other hmem key hkey => ?_
      · exact hsession.drafted other fun hheld => hother (List.mem_cons_of_mem _ hheld)
      · -- The row is what it was when it was locked.
        have hrow : draft.over rows' k = draft.over rows k := by
          rw [Draft.over, Draft.over, hsame k (List.mem_cons_self ..)]
        rw [hsession.replays rows' fun other hother => hsame other (List.mem_cons_of_mem _ hother)]
        simp only [Rows.run_lock]
        rw [hrow]
      · rcases List.mem_cons.mp hkey with rfl | hkey
        · exact hfree other hmem
        · exact hapart other hmem key hkey
  | write rows front back done name k row next held draft hheld =>
      have hsession := (forall_mem_middle.mp h.sound).1
      refine h.replace ⟨fun other hother => ?_, fun rows' hsame => ?_⟩ (pairwise_apart_middle.mp h.apart).1
      · have hne : other ≠ k := fun heq => hother (heq ▸ hheld)
        exact (Function.update_of_ne hne ..).trans (hsession.drafted other hother)
      · rw [hsession.replays rows' hsame, Draft.over_update]
        rfl
  | commit rows front back done name value held draft =>
      have hsession := (forall_mem_middle.mp h.sound).1
      have hruns : rows.run (tx name) = (value, draft.over rows) := hsession.replays rows fun _ _ => rfl
      refine ⟨?_, fun other hmem => ?_, h.drop.apart⟩
      · have hserial := h.serial.snoc name
        rwa [hruns] at hserial
      · -- What it wrote are rows that it has locked, and so no other.
        refine (h.drop.sound other hmem).mono fun k hk => ?_
        have hfree : k ∉ held := fun hheld => (pairwise_apart_middle.mp h.apart).1 other hmem k hheld hk
        have hnone : draft k = none := hsession.drafted k hfree
        simp [Draft.over, hnone]
  | glance rows front back done name k next draft value hnext =>
      have hsession := (forall_mem_middle.mp h.sound).1
      have hdraft : draft.over rows = rows := by
        funext other
        have hnone : draft other = none := hsession.drafted other (by simp)
        simp [Draft.over, hnone]
      have hruns : rows.run (tx name) = (value, rows) := by
        rw [hsession.replays rows fun _ _ => rfl, hdraft]
        rw [Rows.run_lock, hnext, Rows.run_ret]
      refine ⟨?_, h.drop.sound, h.drop.apart⟩
      have hserial := h.serial.snoc name
      rwa [hruns] at hserial

/-- Sessions side by side leave the rows as the transactions that have answered leave them, each answered so, one
after another. -/
theorem Reach.sound (h : Reach tx start b) : Sound tx start b := by
  induction h with
  | start => exact ⟨.nil, by simp, .nil⟩
  | step before hstep ih =>
      cases hstep with
      | start rows sessions done name =>
          have hfresh : Transaction.Sound tx ⟨name, tx name, [], fun _ => none⟩ rows := ⟨fun _ _ => rfl, fun _ _ => rfl⟩
          refine ⟨ih.serial, List.forall_mem_cons.mpr ⟨hfresh, ih.sound⟩, List.pairwise_cons.mpr ⟨?_, ih.apart⟩⟩
          exact fun _ _ _ hk => by simp at hk
      | advance hadvance => exact ih.advance hadvance
      | abort rows front back done session => exact ih.drop

end Base

/-! ### Locks in order -/

/-- The transaction takes each lock above those it holds, and writes only rows whose locks it has. -/
def Prog.Climbs (rank : κ → Nat) (held : List κ) : Prog (RowSig Row) α → Prop
  | .ret _ => True
  | .call (.lock k) next => (∀ other ∈ held, rank other < rank k) ∧ ∀ row, (next row).Climbs rank (k :: held)
  | .call (.write k _) next => k ∈ held ∧ (next ()).Climbs rank held

namespace Base

variable {rank : κ → Nat} {start : Rows Row} {b b' : Base κ τ α Row}

theorem climbs_advance (h : ∀ session ∈ b.sessions, session.rest.Climbs rank session.held) (hstep : b.Advance b') :
    ∀ session ∈ b'.sessions, session.rest.Climbs rank session.held := by
  cases hstep with
  | lock rows front back done name k next held draft hfree =>
      obtain ⟨hsession, hothers⟩ := forall_mem_middle.mp h
      exact forall_mem_middle.mpr ⟨hsession.2 _, hothers⟩
  | write rows front back done name k row next held draft hheld =>
      obtain ⟨hsession, hothers⟩ := forall_mem_middle.mp h
      exact forall_mem_middle.mpr ⟨hsession.2, hothers⟩
  | commit rows front back | glance rows front back => exact (forall_mem_middle.mp h).2

theorem Reach.climbs (htx : ∀ name, (tx name).Climbs rank []) (h : Reach tx start b) :
    ∀ session ∈ b.sessions, session.rest.Climbs rank session.held := by
  induction h with
  | start => simp
  | step before hstep ih =>
      cases hstep with
      | start rows sessions done name => exact List.forall_mem_cons.mpr ⟨htx name, ih⟩
      | advance hadvance => exact climbs_advance ih hadvance
      | abort rows front back done session => exact (forall_mem_middle.mp ih).2

/-- One above the highest lock of a session. -/
def top (rank : κ → Nat) (session : Transaction κ τ α Row) : Nat := (session.held.map fun k => rank k + 1).max?.getD 0

omit [DecidableEq κ] in
theorem rank_lt_top {session : Transaction κ τ α Row} {k : κ} (h : k ∈ session.held) : rank k < top rank session :=
  List.le_max?_getD_of_mem (List.mem_map_of_mem h)

omit [DecidableEq κ] in
theorem top_le {session : Transaction κ τ α Row} {bound : Nat} (h : ∀ k ∈ session.held, rank k < bound) :
    top rank session ≤ bound :=
    by
  rw [top]
  cases hmax : (session.held.map fun k => rank k + 1).max? with
  | none => exact Nat.zero_le bound
  | some highest =>
      obtain ⟨k, hheld, rfl⟩ := List.mem_map.mp (List.max?_mem hmax)
      exact h k hheld

/-- Where transactions lock by rising rank, a session can go on as long as there is one: the one with the highest
lock. -/
theorem Reach.advances (htx : ∀ name, (tx name).Climbs rank []) (h : Reach tx start b) (hsome : b.sessions ≠ []) :
    ∃ b', b.Advance b' := by
  obtain ⟨rows, sessions, done⟩ := b
  obtain ⟨session, hmax⟩ : ∃ session, session ∈ sessions.argmax (top rank) :=
    Option.ne_none_iff_exists'.mp fun hnone => hsome (List.argmax_eq_none.mp hnone)
  have hclimbs := h.climbs htx session (List.argmax_mem hmax)
  obtain ⟨front, back, rfl⟩ := List.append_of_mem (List.argmax_mem hmax)
  obtain ⟨name, rest, held, draft⟩ := session
  cases rest with
  | ret value => exact ⟨_, .commit rows front back done name value held draft⟩
  | call c next =>
      cases c with
      | lock k =>
          refine ⟨_, .lock rows front back done name k next held draft fun other hmem hother => ?_⟩
          have hlow : top rank ⟨name, .call (.lock k) next, held, draft⟩ ≤ rank k := top_le hclimbs.1
          have hhigh := (rank_lt_top hother).trans_le (List.le_of_mem_argmax (f := top rank) (by grind) hmax)
          omega
      | write k row => exact ⟨_, .write rows front back done name k row next held draft hclimbs.1⟩

/-! ### Runs -/

/-- The next statement of the session at `i`, where it can be taken. -/
def takeTurn (b : Base κ τ α Row) (i : Nat) : Option (Base κ τ α Row) :=
  match b.sessions[i]? with
  | none => none
  | some ⟨name, .ret value, _, draft⟩ => some ⟨draft.over b.rows, b.sessions.eraseIdx i, b.done ++ [(name, value)]⟩
  | some ⟨name, .call (.lock k) next, held, draft⟩ =>
      if ∀ other ∈ b.sessions.eraseIdx i, k ∉ other.held then
        some { b with sessions := b.sessions.set i ⟨name, next (draft.over b.rows k), k :: held, draft⟩ }
      else none
  | some ⟨name, .call (.write k row) next, held, draft⟩ =>
      if k ∈ held then
        some { b with sessions := b.sessions.set i ⟨name, next (), held, Function.update draft k (some row)⟩ }
      else none

theorem takeTurn_advance {i : Nat} (h : b.takeTurn i = some b') : b.Advance b' := by
  obtain ⟨rows, sessions, done⟩ := b
  have hsplit : ∀ session, sessions[i]? = some session → ∃ front back, sessions = front ++ session :: back ∧
      sessions.eraseIdx i = front ++ back ∧ ∀ later, sessions.set i later = front ++ later :: back := by
    intro session hsession
    obtain ⟨hlt, rfl⟩ := List.getElem?_eq_some_iff.mp hsession
    refine ⟨sessions.take i, sessions.drop (i + 1), ?_, List.eraseIdx_eq_take_drop_succ .., fun later => ?_⟩
    · rw [List.getElem_cons_drop, List.take_append_drop]
    · rw [List.set_eq_take_append_cons_drop, if_pos hlt]
  simp only [takeTurn] at h
  split at h
  · cases h
  · next name value held draft hsession =>
      obtain ⟨front, back, rfl, herase, -⟩ := hsplit _ hsession
      cases h
      rw [herase]
      exact .commit rows front back done name value held draft
  · next name k next held draft hsession =>
      obtain ⟨front, back, rfl, herase, hset⟩ := hsplit _ hsession
      split at h
      · next hfree =>
          cases h
          rw [hset]
          exact .lock rows front back done name k next held draft (herase ▸ hfree)
      · cases h
  · next name k row next held draft hsession =>
      obtain ⟨front, back, rfl, -, hset⟩ := hsplit _ hsession
      split at h
      · next hheld =>
          cases h
          rw [hset]
          exact .write rows front back done name k row next held draft hheld
      · cases h

/-- Transactions that are started at once, and then take turns. -/
def play (tx : τ → Prog (RowSig Row) α) (rows : Rows Row) (names : List τ) (turns : List Nat) :
    Option (Base κ τ α Row) :=
  turns.foldlM takeTurn ⟨rows, names.map fun name => ⟨name, tx name, [], fun _ => none⟩, []⟩

theorem Reach.play {names : List τ} {turns : List Nat} (h : Base.play tx start names turns = some b) :
    Reach tx start b := by
  have hstarts : ∀ names : List τ,
      Reach tx start ⟨start, names.map fun name => ⟨name, tx name, [], fun _ => none⟩, []⟩ := by
    intro names
    induction names with
    | nil => exact .start
    | cons name names ih => exact .step ih (.start start _ [] name)
  have hturns : ∀ {first : Base κ τ α Row}, Reach tx start first → turns.foldlM takeTurn first = some b →
      Reach tx start b := by
    intro first hfirst hfold
    clear h
    induction turns generalizing first with
    | nil =>
        cases hfold
        exact hfirst
    | cons i turns ih =>
        obtain ⟨next, hnext, hrest⟩ := Option.bind_eq_some_iff.mp hfold
        exact ih (.step hfirst (.advance (takeTurn_advance hnext))) hrest
  exact hturns (hstarts names) h

end Base

end Gol.Library
