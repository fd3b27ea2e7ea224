import Mathlib.Data.List.Basic
import Mathlib.Logic.Function.Basic

/-! Append-only logs that end once, and a ledger that numbers its entries for each key from 1 and drops a
leading part of them. The ledger is compared with the list of every row it ever issued. -/

namespace Gol.Library

/-! ### Logs -/

/-- An entry that satisfies `ends` is the last of the log, so there is at most one. -/
def EndsOnce {α : Type} (ends : α → Bool) (log : List α) : Prop :=
  ∀ i entry, log[i]? = some entry → ends entry = true → i + 1 = log.length

variable {α : Type} {ends : α → Bool}

theorem endsOnce_of_none {log : List α} (h : log.any ends = false) : EndsOnce ends log := by
  intro i entry hi hend
  have hmem : entry ∈ log := List.mem_of_getElem? hi
  have hnot : ends entry = false := by simpa using List.any_eq_false.mp h entry hmem
  rw [hnot] at hend
  contradiction

theorem EndsOnce.append {log more : List α} (hlog : log.any ends = false) (hmore : EndsOnce ends more) :
    EndsOnce ends (log ++ more) := by
  intro i entry hi hend
  rcases Nat.lt_or_ge i log.length with hlt | hge
  · rw [List.getElem?_append_left hlt] at hi
    have hnot : ends entry = false := by
      simpa using List.any_eq_false.mp hlog entry (List.mem_of_getElem? hi)
    rw [hnot] at hend
    contradiction
  · rw [List.getElem?_append_right hge] at hi
    have hlast := hmore _ entry hi hend
    rw [List.length_append]
    omega

theorem endsOnce_snoc (log : List α) (entry : α) (hlog : log.any ends = false) : EndsOnce ends (log ++ [entry]) := by
  apply EndsOnce.append hlog
  intro i last hi _
  cases i with
  | zero => rfl
  | succ i => simp at hi

/-- A log ends once exactly when nothing follows the first entry that ends it. -/
theorem endsOnce_iff_findIdx? (log : List α) :
    EndsOnce ends log ↔ ∀ i, log.findIdx? ends = some i → i + 1 = log.length := by
  constructor
  · intro h i hi
    obtain ⟨hlt, hend, -⟩ := List.findIdx?_eq_some_iff_getElem.mp hi
    exact h i log[i] (List.getElem?_eq_getElem hlt) hend
  · intro h i entry hi hend
    obtain ⟨hlt, rfl⟩ := List.getElem?_eq_some_iff.mp hi
    cases hfind : log.findIdx? ends with
    | none =>
        have := List.findIdx?_eq_none_iff.mp hfind log[i] (List.getElem_mem hlt)
        rw [this] at hend
        contradiction
    | some first =>
        obtain ⟨hfirst, -, hbefore⟩ := List.findIdx?_eq_some_iff_getElem.mp hfind
        have hlast := h first hfind
        rcases Nat.lt_trichotomy i first with hi | rfl | hi
        · exact absurd hend (by simpa using hbefore i hi)
        · exact hlast
        · omega

instance (log : List α) : Decidable (EndsOnce ends log) :=
  decidable_of_iff (∀ i, log.findIdx? ends = some i → i + 1 = log.length)
    (endsOnce_iff_findIdx? log).symm

/-- Entries numbered in order are found by their number at its position. -/
theorem find?_of_numbered (number : α → Nat) {entries : List α} {start : Nat}
    (h : entries.map number = List.range' start entries.length) (i : Nat) :
    entries.find? (fun entry => number entry = start + i) = entries[i]? := by
  induction entries generalizing start i with
  | nil => rfl
  | cons first rest ih =>
      simp only [List.map_cons, List.length_cons, List.range'_succ, List.cons.injEq] at h
      cases i with
      | zero => simp [h.1]
      | succ i =>
          have hne : ¬ number first = start + (i + 1) := by omega
          have hnext := ih h.2 i
          rw [Nat.add_assoc, Nat.add_comm 1 i] at hnext
          simpa [hne] using hnext

/-- Of entries numbered in order, those past a number are the ones from its position on. -/
theorem filter_of_numbered (number : α → Nat) {entries : List α} {start : Nat}
    (h : entries.map number = List.range' (start + 1) entries.length) (k : Nat) :
    entries.filter (fun entry => start + k < number entry) = entries.drop k := by
  induction entries generalizing start k with
  | nil => simp
  | cons first rest ih =>
      simp only [List.map_cons, List.length_cons, List.range'_succ, List.cons.injEq] at h
      cases k with
      | zero =>
          have hrest := ih h.2 0
          have hall : ∀ entry ∈ rest, start < number entry := by
            intro entry hmem
            have hnumber : number entry ∈ rest.map number := List.mem_map_of_mem hmem
            rw [h.2, List.mem_range'_1] at hnumber
            omega
          rw [List.drop_zero, List.filter_eq_self]
          intro entry hmem
          rcases List.mem_cons.mp hmem with rfl | hmem
          · simp [h.1]
          · simpa using hall entry hmem
      | succ k =>
          have hrest := ih h.2 k
          have hfirst : ¬ start + (k + 1) < number first := by omega
          rw [Nat.add_assoc, Nat.add_comm 1 k] at hrest
          simpa [List.filter_cons, hfirst] using hrest

/-! ### The ledger -/

structure Row (κ β : Type) where
  key : κ
  seq : Nat
  item : β
  at_ : Int
  deriving DecidableEq

/-- Each key's last number, the number its rows were dropped through, and the rows still kept. -/
@[ext] structure Ledger (κ β : Type) where
  counts : κ → Nat
  pruned : κ → Nat
  rows : List (Row κ β)

variable {κ β : Type}

def Ledger.empty : Ledger κ β := ⟨fun _ => 0, fun _ => 0, []⟩

/-- The rows that number `items` after `last`. -/
def rowsAfter (key : κ) (now : Int) : Nat → List β → List (Row κ β)
  | _, [] => []
  | last, item :: items => ⟨key, last + 1, item, now⟩ :: rowsAfter key now (last + 1) items

theorem key_of_mem_rowsAfter {key : κ} {now : Int} {row : Row κ β} {items : List β} {last : Nat}
    (h : row ∈ rowsAfter key now last items) : row.key = key := by
  induction items generalizing last with
  | nil => simp [rowsAfter] at h
  | cons item items ih =>
      rcases List.mem_cons.mp h with rfl | h
      · rfl
      · exact ih h

theorem seq_rowsAfter (key : κ) (now : Int) (last : Nat) (items : List β) :
    (rowsAfter key now last items).map Row.seq = List.range' (last + 1) items.length := by
  induction items generalizing last with
  | nil => rfl
  | cons item items ih => simp [rowsAfter, ih, List.range'_succ]

theorem item_rowsAfter (key : κ) (now : Int) (last : Nat) (items : List β) :
    (rowsAfter key now last items).map Row.item = items := by
  induction items generalizing last with
  | nil => rfl
  | cons item items ih => simp [rowsAfter, ih]

theorem lt_seq_of_mem_rowsAfter {key : κ} {now : Int} {row : Row κ β} {items : List β} {last : Nat}
    (h : row ∈ rowsAfter key now last items) : last < row.seq := by
  have hseq : row.seq ∈ (rowsAfter key now last items).map Row.seq := List.mem_map_of_mem h
  rw [seq_rowsAfter, List.mem_range'_1] at hseq
  omega

variable [DecidableEq κ]

theorem filter_rowsAfter_self (key : κ) (now : Int) (last : Nat) (items : List β) :
    (rowsAfter key now last items).filter (·.key = key) = rowsAfter key now last items := by
  rw [List.filter_eq_self]
  intro row hrow
  simpa using key_of_mem_rowsAfter hrow

theorem filter_rowsAfter_of_ne {key other : κ} (h : key ≠ other) (now : Int) (last : Nat)
    (items : List β) : (rowsAfter key now last items).filter (·.key = other) = [] := by
  rw [List.filter_eq_nil_iff]
  intro row hrow
  simpa [key_of_mem_rowsAfter hrow] using h

/-- Issue the next numbers of `key` to `items`. -/
def Ledger.number (ledger : Ledger κ β) (key : κ) (items : List β) (now : Int) : Ledger κ β :=
  { ledger with
    counts := Function.update ledger.counts key (ledger.counts key + items.length)
    rows := ledger.rows ++ rowsAfter key now (ledger.counts key) items }

@[simp] theorem Ledger.number_counts_self (ledger : Ledger κ β) (key : κ) (items : List β) (now : Int) :
    (ledger.number key items now).counts key = ledger.counts key + items.length := by
  simp [Ledger.number]

theorem Ledger.number_counts_of_ne (ledger : Ledger κ β) {key other : κ} (h : other ≠ key)
    (items : List β) (now : Int) : (ledger.number key items now).counts other = ledger.counts other := by
  simp [Ledger.number, h]

@[simp] theorem Ledger.number_pruned (ledger : Ledger κ β) (key : κ) (items : List β) (now : Int) :
    (ledger.number key items now).pruned = ledger.pruned := rfl

@[simp] theorem Ledger.number_rows (ledger : Ledger κ β) (key : κ) (items : List β) (now : Int) :
    (ledger.number key items now).rows = ledger.rows ++ rowsAfter key now (ledger.counts key) items := rfl

/-- The last number of `key` issued before `before` and still kept. -/
def Ledger.through (ledger : Ledger κ β) (before : Int) (key : κ) : Option Nat :=
  ((ledger.rows.filter fun row => row.key = key ∧ row.at_ < before).map Row.seq).max?

theorem max?_snoc (seqs : List Nat) (seq : Nat) :
    (seqs ++ [seq]).max? = some (max (seqs.max?.getD 0) seq) := by
  cases seqs with
  | nil => simp
  | cons first rest =>
      rw [List.cons_append, List.max?_cons', List.max?_cons', List.foldl_append]
      rfl

/-- One more row: only an old row of the same key moves `through`. -/
theorem Ledger.through_snoc (counts pruned : κ → Nat) (rows : List (Row κ β)) (row : Row κ β)
    (before : Int) (key : κ) :
    (Ledger.mk counts pruned (rows ++ [row])).through before key =
      if row.key = key ∧ row.at_ < before then
        some (max (((Ledger.mk counts pruned rows).through before key).getD 0) row.seq)
      else (Ledger.mk counts pruned rows).through before key := by
  simp only [Ledger.through, List.filter_append, List.filter_singleton, List.map_append]
  split
  · next h => simp [h, max?_snoc]
  · next h => simp [h]

/-- Drop each key's rows up to the last one issued before `before`. -/
def Ledger.prune (ledger : Ledger κ β) (before : Int) : Ledger κ β :=
  { ledger with
    pruned := fun key => max (ledger.pruned key) ((ledger.through before key).getD 0)
    rows := ledger.rows.filter fun row => (ledger.through before row.key).all (· < row.seq) }

/-- `issued` is every row the ledger ever issued: each key's are numbered from 1 with no gap, and those
past the pruned ones are the rows kept. -/
structure Ledger.Accounts (ledger : Ledger κ β) (issued : List (Row κ β)) : Prop where
  numbered : ∀ key, (issued.filter (·.key = key)).map Row.seq = List.range' 1 (ledger.counts key)
  retained : ledger.rows = issued.filter fun row => ledger.pruned row.key < row.seq
  bounded : ∀ key, ledger.pruned key ≤ ledger.counts key

theorem Ledger.accounts_empty : (Ledger.empty : Ledger κ β).Accounts [] where
  numbered _ := rfl
  retained := rfl
  bounded _ := Nat.le_refl 0

/-! ### What the ledger keeps -/

variable {ledger : Ledger κ β} {issued : List (Row κ β)}

theorem Ledger.Accounts.seq_mem (h : ledger.Accounts issued) {row : Row κ β} (hrow : row ∈ issued) :
    1 ≤ row.seq ∧ row.seq ≤ ledger.counts row.key := by
  have hmem : row.seq ∈ (issued.filter (·.key = row.key)).map Row.seq :=
    List.mem_map_of_mem (List.mem_filter.mpr ⟨hrow, by simp⟩)
  rw [h.numbered, List.mem_range'_1] at hmem
  omega

theorem Ledger.Accounts.mem_issued (h : ledger.Accounts issued) {row : Row κ β}
    (hrow : row ∈ ledger.rows) : row ∈ issued := by
  rw [h.retained] at hrow
  exact (List.mem_filter.mp hrow).1

/-- Rows of one key stand in the order of their numbers. -/
theorem Ledger.Accounts.ordered (h : ledger.Accounts issued) (key : κ) :
    (issued.filter (·.key = key)).Pairwise (·.seq < ·.seq) := by
  have hsorted : ((issued.filter (·.key = key)).map Row.seq).Pairwise (· < ·) := by
    rw [h.numbered]
    exact List.pairwise_lt_range'
  exact List.pairwise_map.mp hsorted

theorem Ledger.Accounts.rows_ordered (h : ledger.Accounts issued) (key : κ) :
    (ledger.rows.filter (·.key = key)).Pairwise (·.seq < ·.seq) := by
  have hsub : (ledger.rows.filter (·.key = key)).Sublist (issued.filter (·.key = key)) := by
    rw [h.retained]
    exact List.filter_sublist.filter _
  exact (h.ordered key).sublist hsub

/-- The numbers kept of a key are those past its pruned ones. -/
theorem Ledger.Accounts.retained_seqs (h : ledger.Accounts issued) (key : κ) :
    (ledger.rows.filter (·.key = key)).map Row.seq =
      List.range' (ledger.pruned key + 1) (ledger.counts key - ledger.pruned key) := by
  have hfilter : (ledger.rows.filter (·.key = key)).map Row.seq =
      ((issued.filter (·.key = key)).map Row.seq).filter (ledger.pruned key < ·) := by
    rw [h.retained, List.filter_filter, List.filter_map, List.filter_filter]
    congr 1
    apply List.filter_congr
    intro row _
    by_cases hk : row.key = key <;> simp [hk]
  rw [hfilter, h.numbered]
  have hsplit : List.range' 1 (ledger.counts key) = List.range' 1 (ledger.pruned key) ++
      List.range' (ledger.pruned key + 1) (ledger.counts key - ledger.pruned key) := by
    have hbound := h.bounded key
    rw [Nat.add_comm (ledger.pruned key) 1, List.range'_append_1]
    congr 1
    omega
  rw [hsplit, List.filter_append, List.filter_eq_nil_iff.mpr, List.nil_append, List.filter_eq_self]
  · intro seq hseq
    simp only [List.mem_range'_1] at hseq
    simp
    omega
  · intro seq hseq
    simp only [List.mem_range'_1] at hseq
    simp
    omega

theorem Ledger.Accounts.number (h : ledger.Accounts issued) (key : κ) (items : List β) (now : Int) :
    (ledger.number key items now).Accounts
      (issued ++ rowsAfter key now (ledger.counts key) items) where
  numbered other := by
    rw [List.filter_append, List.map_append, h.numbered]
    by_cases hk : other = key
    · subst hk
      rw [filter_rowsAfter_self, seq_rowsAfter, Ledger.number_counts_self, Nat.add_comm _ 1,
        List.range'_append_1]
    · rw [filter_rowsAfter_of_ne (Ne.symm hk), Ledger.number_counts_of_ne _ hk, List.map_nil,
        List.append_nil]
  retained := by
    rw [Ledger.number_rows, Ledger.number_pruned, List.filter_append, ← h.retained]
    congr 1
    symm
    rw [List.filter_eq_self]
    intro row hrow
    have hseq := lt_seq_of_mem_rowsAfter hrow
    have hkey := key_of_mem_rowsAfter hrow
    have hbound := h.bounded key
    simp only [hkey, decide_eq_true_eq]
    omega
  bounded other := by
    have hbound := h.bounded other
    rw [Ledger.number_pruned]
    by_cases hk : other = key
    · subst hk
      rw [Ledger.number_counts_self]
      omega
    · rw [Ledger.number_counts_of_ne _ hk]
      exact hbound

theorem Ledger.through_le (h : ledger.Accounts issued) (before : Int) (key : κ) :
    (ledger.through before key).getD 0 ≤ ledger.counts key := by
  cases hthrough : ledger.through before key with
  | none => simp
  | some last =>
      have hmem := List.max?_mem hthrough
      obtain ⟨row, hrow, rfl⟩ := List.mem_map.mp hmem
      obtain ⟨hrow, hkey⟩ := List.mem_filter.mp hrow
      simp only [decide_eq_true_eq] at hkey
      have hseq := h.seq_mem (h.mem_issued hrow)
      rw [hkey.1] at hseq
      exact hseq.2

theorem Ledger.Accounts.prune (h : ledger.Accounts issued) (before : Int) :
    (ledger.prune before).Accounts issued where
  numbered key := h.numbered key
  retained := by
    simp only [Ledger.prune, h.retained, List.filter_filter]
    apply List.filter_congr
    intro row _
    cases ledger.through before row.key with
    | none => simp
    | some last =>
        rw [Option.all_some, Option.getD_some, Bool.eq_iff_iff]
        simp only [Bool.and_eq_true, decide_eq_true_eq]
        omega
  bounded key := by
    have hbound := h.bounded key
    have hle := Ledger.through_le h before key
    simp only [Ledger.prune]
    omega

theorem Ledger.pruned_le_prune (ledger : Ledger κ β) (before : Int) (key : κ) :
    ledger.pruned key ≤ (ledger.prune before).pruned key := by
  simp only [Ledger.prune]
  omega

/-! ### The rows a step issues -/

variable [DecidableEq β]

/-- The rows of `later` that `earlier` did not hold. -/
def fresh (earlier later : List (Row κ β)) : List (Row κ β) := later.filter (· ∉ earlier)

theorem fresh_self (rows : List (Row κ β)) : fresh rows rows = [] := by
  simp [fresh, List.filter_eq_nil_iff]

theorem Ledger.fresh_number (h : ledger.Accounts issued) (key : κ) (items : List β) (now : Int) :
    fresh ledger.rows (ledger.number key items now).rows =
      rowsAfter key now (ledger.counts key) items := by
  rw [fresh, Ledger.number_rows, List.filter_append, List.filter_eq_nil_iff.mpr, List.nil_append,
    List.filter_eq_self]
  · intro row hrow
    have hseq := lt_seq_of_mem_rowsAfter hrow
    have hkey := key_of_mem_rowsAfter hrow
    simp only [decide_not, Bool.not_eq_true', decide_eq_false_iff_not]
    intro hold
    have hold' := h.seq_mem (h.mem_issued hold)
    rw [hkey] at hold'
    omega
  · intro row hrow
    simpa using hrow

theorem Ledger.fresh_prune (ledger : Ledger κ β) (before : Int) :
    fresh ledger.rows (ledger.prune before).rows = [] := by
  rw [fresh, Ledger.prune, List.filter_eq_nil_iff]
  intro row hrow
  simpa using (List.mem_filter.mp hrow).1

end Gol.Library
