import Mathlib.Data.List.Nodup
import Mathlib.Data.List.Perm.Subperm
import Mathlib.Data.Nat.Find
import Mathlib.Logic.Relation

/-! Searches along a relation. `anyAbove` goes up a parent function, one element at a time; `rounds` goes along any
relation, all the elements of one round giving the next, as a recursive query does. Where a rank falls at each step, a
search given more rounds than the rank, or than there are elements to go on from, finds exactly what the relation
reaches; where each element comes from one other, it finds it once. -/

namespace Gol.Library

variable {ι α : Type*}

/-- Whether `id`, or one of the next above it, as far as `fuel` of them, meets `p`. -/
def anyAbove (parent : ι → Option ι) (p : ι → Bool) : Nat → ι → Bool
  | 0, _ => false
  | fuel + 1, id => p id || (parent id).any (anyAbove parent p fuel)

/-- `id` is `above`, or below it. -/
def Under (parent : ι → Option ι) : ι → ι → Prop := Relation.ReflTransGen fun id above => parent id = some above

theorem anyAbove_iff {parent : ι → Option ι} {rank : ι → Nat}
    (hrank : ∀ id above, parent id = some above → rank above < rank id) {p : ι → Bool} {fuel : Nat} {id : ι}
    (hfuel : rank id < fuel) :
    anyAbove parent p fuel id = true ↔ ∃ above, Under parent id above ∧ p above = true := by
  induction fuel generalizing id with
  | zero => exact absurd hfuel (Nat.not_lt_zero _)
  | succ fuel ih =>
      have hup : ∀ next, parent id = some next →
          (anyAbove parent p fuel next = true ↔ ∃ above, Under parent next above ∧ p above = true) :=
        fun next hnext => ih (Nat.lt_of_lt_of_le (hrank id next hnext) (Nat.le_of_lt_succ hfuel))
      rw [anyAbove, Bool.or_eq_true, Option.any_eq_true]
      constructor
      · rintro (hp | ⟨next, hnext, hany⟩)
        · exact ⟨id, .refl, hp⟩
        · obtain ⟨above, habove, hp⟩ := (hup next hnext).mp hany
          exact ⟨above, .head hnext habove, hp⟩
      · rintro ⟨above, habove, hp⟩
        rcases habove.cases_head with rfl | ⟨next, hnext, hrest⟩
        · exact .inl hp
        · exact .inr ⟨next, hnext, (hup next hnext).mpr ⟨above, hrest, hp⟩⟩

/-- The element that is `n` steps above `id`, if there is one. -/
def climb (parent : ι → Option ι) : Nat → ι → Option ι
  | 0, id => some id
  | n + 1, id => (parent id).bind (climb parent n)

theorem climb_add (parent : ι → Option ι) (m n : Nat) (id : ι) :
    climb parent (m + n) id = (climb parent m id).bind (climb parent n) := by
  induction m generalizing id with
  | zero => rw [Nat.zero_add, climb, Option.bind_some]
  | succ m ih =>
      rw [Nat.add_right_comm, climb, climb, Option.bind_assoc]
      exact Option.bind_congr fun above _ => ih above

theorem anyAbove_iff_climb {parent : ι → Option ι} {p : ι → Bool} {fuel : Nat} {id : ι} :
    anyAbove parent p fuel id = true ↔ ∃ n < fuel, ∃ above, climb parent n id = some above ∧ p above = true := by
  induction fuel generalizing id with
  | zero => simp [anyAbove]
  | succ fuel ih =>
      rw [anyAbove, Bool.or_eq_true, Option.any_eq_true]
      constructor
      · rintro (hp | ⟨next, hnext, hany⟩)
        · exact ⟨0, Nat.succ_pos _, id, rfl, hp⟩
        · obtain ⟨n, hn, above, habove, hp⟩ := ih.mp hany
          exact ⟨n + 1, Nat.succ_lt_succ hn, above, by rw [climb, hnext]; exact habove, hp⟩
      · rintro ⟨n, hn, above, habove, hp⟩
        cases n with
        | zero =>
            cases habove
            exact .inl hp
        | succ n =>
            obtain ⟨next, hnext, hrest⟩ := Option.bind_eq_some_iff.mp habove
            exact .inr ⟨next, hnext, ih.mpr ⟨n, Nat.lt_of_succ_lt_succ hn, above, hrest, hp⟩⟩

theorem under_iff_climb {parent : ι → Option ι} {id above : ι} :
    Under parent id above ↔ ∃ n, climb parent n id = some above := by
  constructor
  · intro h
    induction h using Relation.ReflTransGen.head_induction_on with
    | refl => exact ⟨0, rfl⟩
    | head hstep _ ih =>
        obtain ⟨n, hn⟩ := ih
        refine ⟨n + 1, ?_⟩
        rw [climb, hstep]
        exact hn
  · rintro ⟨n, hn⟩
    induction n generalizing id with
    | zero =>
        cases hn
        exact .refl
    | succ n ih =>
        obtain ⟨next, hnext, hrest⟩ := Option.bind_eq_some_iff.mp hn
        exact .head hnext (ih hrest)

/-- Where all that have one above them are among `keys`, the nearest that meets `p` is at most as many steps away as
there are keys: a longer way up would pass one of them twice. -/
theorem anyAbove_iff_of_keys {parent : ι → Option ι} {keys : List ι}
    (hkeys : ∀ id above, parent id = some above → id ∈ keys) {p : ι → Bool} {fuel : Nat}
    (hfuel : keys.length < fuel) {id : ι} :
    anyAbove parent p fuel id = true ↔ ∃ above, Under parent id above ∧ p above = true := by
  classical
  rw [anyAbove_iff_climb]
  constructor
  · rintro ⟨n, -, above, habove, hp⟩
    exact ⟨above, under_iff_climb.mpr ⟨n, habove⟩, hp⟩
  · rintro ⟨above, hunder, hp⟩
    have hsome : ∃ n, ∃ above, climb parent n id = some above ∧ p above = true := by
      obtain ⟨n, hn⟩ := under_iff_climb.mp hunder
      exact ⟨n, above, hn, hp⟩
    obtain ⟨above, habove, hp⟩ := Nat.find_spec hsome
    refine ⟨Nat.find hsome, Nat.lt_of_le_of_lt ?_ hfuel, above, habove, hp⟩
    -- Each of the steps below is from a key, and no two from the same one.
    have hfrom : ∀ n < Nat.find hsome, ∃ key ∈ keys, climb parent n id = some key := by
      intro n hn
      obtain ⟨more, hmore⟩ := Nat.exists_eq_add_of_lt hn
      rw [hmore, Nat.add_assoc, climb_add] at habove
      obtain ⟨key, hkey, hrest⟩ := Option.bind_eq_some_iff.mp habove
      obtain ⟨next, hnext, -⟩ := Option.bind_eq_some_iff.mp hrest
      exact ⟨key, hkeys key next hnext, hkey⟩
    have honce : ((List.range (Nat.find hsome)).map fun n => climb parent n id).Nodup := by
      have hlonger : ∀ m n, m < n → n < Nat.find hsome → climb parent m id ≠ climb parent n id := by
        intro m n hmn hn heq
        obtain ⟨more, hmore⟩ := Nat.exists_eq_add_of_lt hn
        refine Nat.find_min hsome (m := m + (more + 1)) (by omega) ⟨above, ?_, hp⟩
        rw [climb_add, heq, ← climb_add, ← Nat.add_assoc, ← hmore, habove]
      refine List.Nodup.map_on (fun m hm n hn heq => ?_) List.nodup_range
      rcases Nat.lt_trichotomy m n with hlt | rfl | hlt
      · exact absurd heq (hlonger m n hlt (List.mem_range.mp hn))
      · rfl
      · exact absurd heq.symm (hlonger n m hlt (List.mem_range.mp hm))
    have hsub : ((List.range (Nat.find hsome)).map fun n => climb parent n id) ⊆ keys.map some := by
      intro found hfound
      obtain ⟨n, hn, rfl⟩ := List.mem_map.mp hfound
      obtain ⟨key, hmem, hkey⟩ := hfrom n (List.mem_range.mp hn)
      exact hkey ▸ List.mem_map_of_mem hmem
    simpa using (honce.subperm hsub).length_le

/-- `rows`, then what `next` makes of them, as far as `fuel` rounds. -/
def rounds (next : α → List α) : Nat → List α → List α
  | 0, _ => []
  | fuel + 1, rows => rows ++ rounds next fuel (rows.flatMap next)

/-- `b` is made of `a` in some number of rounds. -/
def Makes (next : α → List α) : α → α → Prop := Relation.ReflTransGen fun a b => b ∈ next a

variable {next : α → List α} {rank : α → Nat} {fuel : Nat} {rows : List α} {x : α}

theorem makes_of_mem_rounds (h : x ∈ rounds next fuel rows) : ∃ a ∈ rows, Makes next a x := by
  induction fuel generalizing rows with
  | zero => cases h
  | succ fuel ih =>
      rcases List.mem_append.mp h with hmem | hmem
      · exact ⟨x, hmem, .refl⟩
      · obtain ⟨b, hb, hmakes⟩ := ih hmem
        obtain ⟨a, ha, hab⟩ := List.mem_flatMap.mp hb
        exact ⟨a, ha, .head hab hmakes⟩

theorem mem_rounds {P : α → Prop} (hP : ∀ a, P a → ∀ b ∈ next a, P b ∧ rank b < rank a)
    (hrows : ∀ a ∈ rows, P a ∧ rank a < fuel) :
    x ∈ rounds next fuel rows ↔ ∃ a ∈ rows, Makes next a x := by
  refine ⟨makes_of_mem_rounds, ?_⟩
  induction fuel generalizing rows with
  | zero =>
      rintro ⟨a, ha, -⟩
      exact absurd (hrows a ha).2 (Nat.not_lt_zero _)
  | succ fuel ih =>
      rintro ⟨a, ha, hmakes⟩
      rcases hmakes.cases_head with rfl | ⟨b, hb, hrest⟩
      · exact List.mem_append_left _ ha
      · refine List.mem_append_right _ (ih ?_ ⟨b, List.mem_flatMap_of_mem ha hb, hrest⟩)
        intro c hc
        obtain ⟨d, hd, hcd⟩ := List.mem_flatMap.mp hc
        obtain ⟨hPd, hless⟩ := hrows d hd
        obtain ⟨hPc, hfall⟩ := hP d hPd c hcd
        exact ⟨hPc, Nat.lt_of_lt_of_le hfall (Nat.le_of_lt_succ hless)⟩

/-- A search that comes to each element from one other, and starts from elements that make none of each other, meets
none twice. -/
theorem nodup_rounds (hnext : ∀ a, (next a).Nodup)
    (hone : ∀ {a a' b}, b ∈ next a → b ∈ next a' → a = a') (hrows : rows.Nodup)
    (hapart : ∀ a ∈ rows, ∀ b ∈ rows, ¬ Relation.TransGen (fun a b => b ∈ next a) a b) :
    (rounds next fuel rows).Nodup := by
  induction fuel generalizing rows with
  | zero => exact List.nodup_nil
  | succ fuel ih =>
      have hround : (rows.flatMap next).Nodup := by
        refine List.nodup_flatMap.mpr ⟨fun a _ => hnext a, hrows.imp fun {a b} hne => ?_⟩
        exact fun c hca hcb => hne (hone hca hcb)
      refine List.nodup_append.mpr ⟨hrows, ih hround ?_, ?_⟩
      · -- What made `b` would be made of what `a` is made of.
        intro a ha b hb hab
        obtain ⟨c, hc, hca⟩ := List.mem_flatMap.mp ha
        obtain ⟨d, hd, hdb⟩ := List.mem_flatMap.mp hb
        obtain ⟨e, hae, heb⟩ := Relation.TransGen.tail'_iff.mp hab
        have hed : e = d := hone heb hdb
        exact hapart c hc d hd (.head' hca (hed ▸ hae))
      · rintro a ha b hb rfl
        obtain ⟨c, hc, hmakes⟩ := makes_of_mem_rounds hb
        obtain ⟨d, hd, hdc⟩ := List.mem_flatMap.mp hc
        exact hapart d hd a ha (.head' hdc hmakes)

end Gol.Library
