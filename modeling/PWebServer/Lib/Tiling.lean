import Mathlib

/-!
# Lib.Tiling

Blocks that lie one behind the other.  `Tiles size a xs e` says that the blocks
that start at `xs`, each `size` long, fill what is between `a` and `e`.
-/

namespace Tiling

variable {size size' : Nat → Nat} {a e x y : Nat} {xs ys : List Nat}

/-- The blocks at `xs` tile the interval from `a` to `e`. -/
def Tiles (size : Nat → Nat) : Nat → List Nat → Nat → Prop
  | a, [], e => a = e
  | a, x :: xs, e => x = a ∧ 0 < size x ∧ Tiles size (x + size x) xs e

@[simp] theorem tiles_nil : Tiles size a [] e ↔ a = e := Iff.rfl

@[simp] theorem tiles_cons :
    Tiles size a (x :: xs) e ↔ x = a ∧ 0 < size x ∧ Tiles size (x + size x) xs e := Iff.rfl

/-- The blocks before and after one of them. -/
theorem tiles_mid :
    Tiles size a (xs ++ y :: ys) e ↔ Tiles size a xs y ∧ 0 < size y ∧ Tiles size (y + size y) ys e := by
  induction xs generalizing a with
  | nil => rw [List.nil_append, tiles_cons, tiles_nil, eq_comm]
  | cons x xs ih => rw [List.cons_append, tiles_cons, tiles_cons, ih, and_assoc, and_assoc]

/-- Only the sizes of its blocks make a tiling. -/
theorem Tiles.congr (h : Tiles size a xs e) (hag : ∀ x ∈ xs, size' x = size x) : Tiles size' a xs e := by
  induction xs generalizing a with
  | nil => exact h
  | cons x xs ih =>
      obtain ⟨hx, hpos, hrest⟩ := h
      rw [tiles_cons, hag x List.mem_cons_self]
      exact ⟨hx, hpos, ih hrest fun y hy => hag y (List.mem_cons_of_mem x hy)⟩

/-- No block is empty. -/
theorem Tiles.length_le (h : Tiles size a xs e) : a + xs.length ≤ e := by
  induction xs generalizing a with
  | nil => exact Nat.le_of_eq h
  | cons x xs ih =>
      obtain ⟨hx, hpos, hrest⟩ := h
      have := ih hrest
      rw [List.length_cons]
      omega

theorem Tiles.sum (h : Tiles size a xs e) : a + (xs.map size).sum = e := by
  induction xs generalizing a with
  | nil => exact h
  | cons x xs ih =>
      obtain ⟨rfl, hpos, hrest⟩ := h
      rw [List.map_cons, List.sum_cons, ← ih hrest, Nat.add_assoc]

/-- A block lies in the interval. -/
theorem Tiles.bounds (h : Tiles size a xs e) (hx : x ∈ xs) : a ≤ x ∧ 0 < size x ∧ x + size x ≤ e := by
  obtain ⟨before, after, rfl⟩ := List.append_of_mem hx
  obtain ⟨hbefore, hpos, hafter⟩ := tiles_mid.mp h
  have := hbefore.length_le
  have := hafter.length_le
  omega

/-- Every point of the interval lies in a block. -/
theorem Tiles.exists_block (h : Tiles size a xs e) (hay : a ≤ y) (hye : y < e) :
    ∃ x ∈ xs, x ≤ y ∧ y < x + size x := by
  induction xs generalizing a with
  | nil =>
      rw [tiles_nil] at h
      omega
  | cons x xs ih =>
      obtain ⟨rfl, -, hrest⟩ := h
      by_cases hyx : y < x + size x
      · exact ⟨x, List.mem_cons_self, hay, hyx⟩
      · obtain ⟨z, hz, hzy⟩ := ih hrest (Nat.le_of_not_lt hyx)
        exact ⟨z, List.mem_cons_of_mem x hz, hzy⟩

/-- A block ends at the end of the interval or where the next one starts. -/
theorem Tiles.end_mem (h : Tiles size a xs e) (hx : x ∈ xs) : x + size x = e ∨ x + size x ∈ xs := by
  obtain ⟨before, after, rfl⟩ := List.append_of_mem hx
  have hafter := (tiles_mid.mp h).2.2
  cases after with
  | nil => exact .inl hafter
  | cons z after =>
      obtain ⟨rfl, -⟩ := hafter
      exact .inr (List.mem_append_right _ (List.mem_cons_of_mem x List.mem_cons_self))

/-- Blocks do not overlap, and come in order. -/
theorem Tiles.pairwise (h : Tiles size a xs e) : xs.Pairwise fun x y => x + size x ≤ y := by
  induction xs generalizing a with
  | nil => exact .nil
  | cons x xs ih => exact .cons (fun y hy => (h.2.2.bounds hy).1) (ih h.2.2)

theorem Tiles.lt (h : Tiles size a xs e) : xs.Pairwise (· < ·) :=
  h.pairwise.imp_of_mem fun hx _ hle => Nat.lt_of_lt_of_le (Nat.lt_add_of_pos_right (h.bounds hx).2.1) hle

theorem Tiles.nodup (h : Tiles size a xs e) : xs.Nodup := h.lt.imp Nat.ne_of_lt

/-- Two blocks do not overlap. -/
theorem Tiles.apart (h : Tiles size a xs e) (hx : x ∈ xs) (hy : y ∈ xs) (hne : x ≠ y) :
    x + size x ≤ y ∨ y + size y ≤ x := by
  obtain ⟨before, after, rfl⟩ := List.append_of_mem hx
  obtain ⟨hbefore, -, hafter⟩ := tiles_mid.mp h
  rcases List.mem_append.mp hy with hmem | hmem
  · exact .inr (hbefore.bounds hmem).2.2
  · exact .inl (hafter.bounds ((List.mem_cons.mp hmem).resolve_left hne.symm)).1

/-- No block starts inside another. -/
theorem Tiles.notMem_inside (h : Tiles size a xs e) (hx : x ∈ xs) (hxy : x < y) (hyx : y < x + size x) :
    y ∉ xs := by
  intro hy
  obtain ⟨before, after, rfl⟩ := List.append_of_mem hx
  obtain ⟨hbefore, -, hafter⟩ := tiles_mid.mp h
  rcases List.mem_append.mp hy with hmem | hmem
  · have := hbefore.bounds hmem
    omega
  · rcases List.mem_cons.mp hmem with heq | hmem
    · omega
    · have := hafter.bounds hmem
      omega

end Tiling
