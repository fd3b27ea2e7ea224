import Mathlib.Tactic.Linarith

/-! A bisection for the place where a predicate on the integers turns true. -/

namespace Gol.Library

/-- Halves `low` to `high`, where `p` is false at `low` and true at `high`, until they are within `gap`. -/
def bisect (p : Int → Bool) (gap : Int) : Nat → Int → Int → Int × Int
  | 0, low, high => (low, high)
  | fuel + 1, low, high =>
      if gap < high - low then
        let middle := low + (high - low) / 2
        if p middle then bisect p gap fuel low middle else bisect p gap fuel middle high
      else (low, high)

/-- With as many halvings as the interval is long, it ends around the place where `p` turns true. -/
theorem bisect_around {p : Int → Bool} {gap turn : Int} (hgap : 1 ≤ gap) {fuel : Nat} {low high : Int}
    (hp : ∀ u, low ≤ u → u ≤ high → (p u = true ↔ turn ≤ u)) (hlow : low < turn) (hhigh : turn ≤ high)
    (hfuel : high - low ≤ fuel) :
    (bisect p gap fuel low high).1 < turn ∧ turn ≤ (bisect p gap fuel low high).2 ∧
      (bisect p gap fuel low high).2 - (bisect p gap fuel low high).1 ≤ gap := by
  induction fuel generalizing low high with
  | zero => omega
  | succ fuel ih =>
      rw [bisect]
      split
      · next hwide =>
        have hmiddle : low < low + (high - low) / 2 ∧ low + (high - low) / 2 < high := by omega
        dsimp only
        split
        · next hturned =>
          refine ih (fun u hu hu' => hp u hu (by omega)) hlow ?_ (by omega)
          exact (hp _ (by omega) (by omega)).mp hturned
        · next hnot =>
          refine ih (fun u hu hu' => hp u (by omega) hu') ?_ hhigh (by omega)
          rw [hp _ (by omega) (by omega)] at hnot
          omega
      · exact ⟨hlow, hhigh, by omega⟩

end Gol.Library
