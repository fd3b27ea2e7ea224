import Mathlib.Data.List.MinMax
import Mathlib.Data.List.Sort
import Mathlib.Data.Set.Function

/-! Lists sorted by a key. Elements with different keys have one sorted order, whatever order they come in; a new
element leaves every place as it was exactly when its key is the last, and a least element is least by two keys
exactly when one element is. -/

namespace Gol.Library

variable {α κ ν : Type*} [LinearOrder κ]

/-- `l` in the order of `key`, stably. -/
def sortByKey (key : α → κ) (l : List α) : List α := l.insertionSort fun a b => key a ≤ key b

variable {key : α → κ} {l l' : List α}

theorem sortByKey_perm (key : α → κ) (l : List α) : (sortByKey key l).Perm l := List.perm_insertionSort _ l

theorem mem_sortByKey {a : α} : a ∈ sortByKey key l ↔ a ∈ l := (sortByKey_perm key l).mem_iff

theorem sortByKey_pairwise (key : α → κ) (l : List α) : (sortByKey key l).Pairwise fun a b => key a ≤ key b :=
  haveI : Std.Total fun a b : α => key a ≤ key b := ⟨fun a b => le_total (key a) (key b)⟩
  haveI : IsTrans α fun a b => key a ≤ key b := ⟨fun _ _ _ => le_trans⟩
  List.pairwise_insertionSort _ l

/-- A sorted list of elements with different keys is the only one. -/
theorem sortByKey_eq (hinj : Set.InjOn key {a | a ∈ l}) (hperm : l'.Perm l)
    (hsorted : l'.Pairwise fun a b => key a ≤ key b) :
    sortByKey key l = l' := by
  refine ((sortByKey_perm key l).trans hperm.symm).eq_of_pairwise ?_ (sortByKey_pairwise key l) hsorted
  intro a b ha hb hle hge
  exact hinj (mem_sortByKey.mp ha) (hperm.mem_iff.mp hb) (le_antisymm hle hge)

theorem sortByKey_eq_of_perm (hinj : Set.InjOn key {a | a ∈ l}) (hperm : l'.Perm l) :
    sortByKey key l = sortByKey key l' :=
  sortByKey_eq hinj ((sortByKey_perm key l').trans hperm) (sortByKey_pairwise key l')

theorem filter_sortByKey (hinj : Set.InjOn key {a | a ∈ l}) (p : α → Bool) :
    (sortByKey key l).filter p = sortByKey key (l.filter p) := by
  refine (sortByKey_eq (hinj.mono fun a ha => List.mem_of_mem_filter ha) ((sortByKey_perm key l).filter p) ?_).symm
  exact (sortByKey_pairwise key l).filter p

theorem map_sortByKey {β : Type*} {key' : β → κ} {f : α → β} (hkey : ∀ a ∈ l, key' (f a) = key a) :
    (sortByKey key l).map f = sortByKey key' (l.map f) := by
  refine List.map_insertionSort _ _ f l fun a ha b hb => ?_
  rw [hkey a ha, hkey b hb]

theorem sortByKey_congr {key' : α → κ} (hkey : ∀ a ∈ l, key' a = key a) : sortByKey key l = sortByKey key' l := by
  have hmap := map_sortByKey (f := fun a : α => a) hkey
  rwa [List.map_id', List.map_id'] at hmap

/-- Keys that compare the elements alike sort them alike. -/
theorem sortByKey_congr_le {κ' : Type*} [LinearOrder κ'] {key' : α → κ'}
    (h : ∀ a ∈ l, ∀ b ∈ l, key a ≤ key b ↔ key' a ≤ key' b) :
    sortByKey key l = sortByKey key' l := by
  have hmap : (l.insertionSort fun a b => key a ≤ key b).map (fun a => a) =
      (l.map fun a => a).insertionSort fun a b => key' a ≤ key' b := List.map_insertionSort _ _ _ l h
  rwa [List.map_id', List.map_id'] at hmap

/-- The least of `l` by `key`, the first of those that tie. -/
def leastByKey (key : α → κ) (l : List α) : Option α := l.argmin key

@[simp] theorem leastByKey_nil : leastByKey key ([] : List α) = none := rfl

theorem leastByKey_concat (key : α → κ) (a : α) (l : List α) :
    leastByKey key (l ++ [a]) =
      (leastByKey key l).elim (some a) fun least => if key a < key least then some a else some least := by
  rw [leastByKey, leastByKey, List.argmin_concat]
  cases l.argmin key <;> rfl

theorem leastByKey_eq_none : leastByKey key l = none ↔ l = [] := List.argmin_eq_none

theorem mem_of_leastByKey {a : α} (h : leastByKey key l = some a) : a ∈ l := List.argmin_mem h

theorem le_of_mem_leastByKey {a b : α} (hb : b ∈ l) (h : leastByKey key l = some a) : key a ≤ key b :=
  List.le_of_mem_argmin hb h

theorem leastByKey_eq_some_iff (hinj : Set.InjOn key {a | a ∈ l}) {a : α} :
    leastByKey key l = some a ↔ a ∈ l ∧ ∀ b ∈ l, key a ≤ key b := by
  constructor
  · exact fun hmin => ⟨mem_of_leastByKey hmin, fun b hb => le_of_mem_leastByKey hb hmin⟩
  · rintro ⟨ha, hleast⟩
    cases hmin : leastByKey key l with
    | none =>
        rw [leastByKey_eq_none.mp hmin] at ha
        cases ha
    | some least =>
        have hmem : least ∈ l := mem_of_leastByKey hmin
        rw [hinj ha hmem (le_antisymm (hleast least hmem) (le_of_mem_leastByKey ha hmin))]

theorem leastByKey_map {β : Type*} {key' : β → κ} {f : α → β} (hkey : ∀ a ∈ l, key' (f a) = key a) :
    leastByKey key' (l.map f) = (leastByKey key l).map f := by
  induction l using List.reverseRecOn with
  | nil => rfl
  | append_singleton l a ih =>
      have hinit := ih fun b hb => hkey b (List.mem_append_left _ hb)
      rw [List.map_append, List.map_cons, List.map_nil, leastByKey_concat, hinit, leastByKey_concat]
      cases hleast : leastByKey key l with
      | none => rfl
      | some least =>
          simp only [Option.map_some, Option.elim_some, hkey a (by simp),
            hkey least (List.mem_append_left _ (mem_of_leastByKey hleast))]
          split <;> rfl

/-- The first of the sorted list is the least. -/
theorem head?_sortByKey (hinj : Set.InjOn key {a | a ∈ l}) : (sortByKey key l).head? = leastByKey key l := by
  cases hsort : sortByKey key l with
  | nil =>
      have hnil : l = [] := (hsort ▸ sortByKey_perm key l).symm.eq_nil
      rw [hnil, leastByKey_nil, List.head?_nil]
  | cons first rest =>
      have hpair := sortByKey_pairwise key l
      rw [hsort] at hpair
      refine ((leastByKey_eq_some_iff hinj).mpr ⟨mem_sortByKey.mp (hsort ▸ List.mem_cons_self ..), fun b hb => ?_⟩).symm
      rcases List.mem_cons.mp (hsort ▸ mem_sortByKey.mpr hb) with rfl | hmem
      · exact le_refl _
      · exact List.rel_of_pairwise_cons hpair hmem

/-- A new element leaves every element at its place exactly when its key is not below theirs. -/
theorem sortByKey_cons_prefix_iff {name : α → ν} {new : α} (hname : Set.InjOn name {a | a ∈ new :: l})
    (hinj : Set.InjOn key {a | a ∈ new :: l}) (hnew : new ∉ l) :
    (sortByKey key l).map name <+: (sortByKey key (new :: l)).map name ↔ ∀ a ∈ l, key a ≤ key new := by
  constructor
  · rintro ⟨rest, hrest⟩ a ha
    have hperm : ((sortByKey key l).map name ++ rest).Perm ((sortByKey key l).map name ++ [name new]) := by
      rw [hrest]
      refine ((sortByKey_perm key (new :: l)).map name).trans ?_
      rw [List.map_cons]
      exact (((sortByKey_perm key l).map name).symm.cons _).trans (List.perm_append_singleton _ _).symm
    have hrest' : rest = [name new] := List.perm_singleton.mp ((List.perm_append_left_iff _).mp hperm)
    obtain ⟨init, last, hsplit, -, hlast⟩ := List.map_eq_append_iff.mp (hrest' ▸ hrest).symm
    obtain ⟨final, rfl, hfinal⟩ : ∃ final, last = [final] ∧ name final = name new := by
      cases last with
      | nil => simp at hlast
      | cons final tail => exact ⟨final, by simpa [and_comm] using hlast⟩
    have hmem : ∀ b, b ∈ init ++ [final] ↔ b ∈ new :: l := fun b => hsplit ▸ mem_sortByKey
    have hfinal : final = new := hname ((hmem final).mp (by simp)) (List.mem_cons_self ..) hfinal
    subst hfinal
    have hinit : a ∈ init := by
      rcases List.mem_append.mp ((hmem a).mpr (List.mem_cons_of_mem _ ha)) with hinit | hlast
      · exact hinit
      · exact absurd (List.mem_singleton.mp hlast ▸ ha) hnew
    have hpair := sortByKey_pairwise key (final :: l)
    rw [hsplit] at hpair
    exact (List.pairwise_append.mp hpair).2.2 a hinit final (List.mem_singleton_self _)
  · intro hle
    have hsort : sortByKey key (new :: l) = sortByKey key l ++ [new] := by
      refine sortByKey_eq hinj ?_ ?_
      · exact (List.perm_append_singleton _ _).trans ((sortByKey_perm key l).cons _)
      · refine List.pairwise_append.mpr ⟨sortByKey_pairwise key l, List.pairwise_singleton .., ?_⟩
        rintro a ha b hb
        rw [List.mem_singleton.mp hb]
        exact hle a (mem_sortByKey.mp ha)
    rw [hsort, List.map_append]
    exact List.prefix_append _ _

/-- Two keys have the same least element exactly when one element is least by both. -/
theorem leastByKey_eq_iff {κ' : Type*} [LinearOrder κ'] {key' : α → κ'} (hinj : Set.InjOn key {a | a ∈ l})
    (hinj' : Set.InjOn key' {a | a ∈ l}) :
    leastByKey key l = leastByKey key' l ↔ l = [] ∨ ∃ a ∈ l, ∀ b ∈ l, key a ≤ key b ∧ key' a ≤ key' b := by
  constructor
  · intro heq
    cases hmin : leastByKey key l with
    | none => exact .inl (leastByKey_eq_none.mp hmin)
    | some least =>
        refine .inr ⟨least, mem_of_leastByKey hmin, fun b hb => ⟨le_of_mem_leastByKey hb hmin, ?_⟩⟩
        exact le_of_mem_leastByKey hb (heq ▸ hmin)
  · rintro (rfl | ⟨a, ha, hleast⟩)
    · rfl
    · rw [(leastByKey_eq_some_iff hinj).mpr ⟨ha, fun b hb => (hleast b hb).1⟩,
        (leastByKey_eq_some_iff hinj').mpr ⟨ha, fun b hb => (hleast b hb).2⟩]

end Gol.Library
