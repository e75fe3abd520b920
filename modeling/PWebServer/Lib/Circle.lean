import Mathlib.Order.Defs.LinearOrder
import Mathlib.Data.Set.Insert

/-!
# Lib.Circle

Points on a circle.  From a place one goes on to the first point that is not
before it and, when all are, begins again with the least one.

A point that is taken away is missed only where one had gone on to it: that is
`Successor.of_subset`.  In a sorted array the point is found at the first index
that is not before the place.
-/

namespace Circle

variable {α : Type*} [LinearOrder α] {points points' : Set α} {place c c' : α}

/-- From `place` one goes on to the point `c`. -/
inductive Successor (points : Set α) (place c : α) : Prop
  | ahead (hmem : c ∈ points) (hle : place ≤ c) (hleast : ∀ x ∈ points, place ≤ x → c ≤ x)
  | around (hmem : c ∈ points) (hbehind : ∀ x ∈ points, x < place) (hleast : ∀ x ∈ points, c ≤ x)

theorem Successor.mem (h : Successor points place c) : c ∈ points := by
  cases h with
  | ahead hmem => exact hmem
  | around hmem => exact hmem

theorem Successor.unique (h : Successor points place c) (h' : Successor points place c') : c = c' := by
  cases h with
  | ahead hmem hle hleast =>
      cases h' with
      | ahead hmem' hle' hleast' => exact le_antisymm (hleast c' hmem' hle') (hleast' c hmem hle)
      | around hmem' hbehind' => exact absurd hle (not_le.mpr (hbehind' c hmem))
  | around hmem hbehind hleast =>
      cases h' with
      | ahead hmem' hle' => exact absurd hle' (not_le.mpr (hbehind c' hmem'))
      | around hmem' hbehind' hleast' => exact le_antisymm (hleast c' hmem') (hleast' c hmem)

/-- As long as `c` stays, points may be taken away. -/
theorem Successor.of_subset (h : Successor points place c) (hsub : points' ⊆ points) (hmem : c ∈ points') :
    Successor points' place c := by
  cases h with
  | ahead _ hle hleast => exact .ahead hmem hle fun x hx => hleast x (hsub hx)
  | around _ hbehind hleast =>
      exact .around hmem (fun x hx => hbehind x (hsub hx)) fun x hx => hleast x (hsub hx)

/-! ## sorted arrays -/

section

variable {f : Nat → α} {n k : Nat}

/-- The points of an array. -/
def pointsOf (f : Nat → α) (n : Nat) : Set α := { x | ∃ k < n, f k = x }

theorem successor_of_first (hk : k < n) (hle : place ≤ f k) (hleast : ∀ j < n, place ≤ f j → f k ≤ f j) :
    Successor (pointsOf f n) place (f k) := by
  refine .ahead ⟨k, hk, rfl⟩ hle fun x hx => ?_
  obtain ⟨j, hj, rfl⟩ := hx
  exact hleast j hj

/-- The array is sorted, and its last point is before the place. -/
theorem successor_of_behind (hn : 0 < n) (hsorted : ∀ j k, j ≤ k → k < n → f j ≤ f k)
    (hbehind : ∀ k < n, f k < place) : Successor (pointsOf f n) place (f 0) := by
  refine .around ⟨0, hn, rfl⟩ (fun x hx => ?_) fun x hx => ?_
  · obtain ⟨k, hk, rfl⟩ := hx
    exact hbehind k hk
  · obtain ⟨k, hk, rfl⟩ := hx
    exact hsorted 0 k (Nat.zero_le k) hk

end

end Circle
