import Mathlib.Logic.Function.Basic

/-!
# Lib.LinkedList

Singly linked lists in memory.  `next` is what is stored at the nodes, and
`Segment next p l q` says that whoever follows it from the pointer `p` visits
the nodes `l` and then holds `q`.  A list that ends is a segment up to the null
pointer, a circle is one that comes back to where it started.
-/

namespace LinkedList

variable {α : Type*} {next next' : α → Option α} {p q m : Option α} {x y : α} {l l' : List α}

/-- From `p`, `next` leads through `l` to `q`. -/
def Segment (next : α → Option α) (p : Option α) : List α → Option α → Prop
  | [], q => p = q
  | x :: l, q => p = some x ∧ Segment next (next x) l q

@[simp] theorem segment_nil : Segment next p [] q ↔ p = q := Iff.rfl

@[simp] theorem segment_cons : Segment next p (x :: l) q ↔ p = some x ∧ Segment next (next x) l q := Iff.rfl

/-- The second half starts where the first ends. -/
theorem segment_append : Segment next p (l ++ l') q ↔ ∃ m, Segment next p l m ∧ Segment next m l' q := by
  induction l generalizing p with
  | nil => simp
  | cons x l ih =>
      rw [List.cons_append, segment_cons, ih]
      constructor
      · rintro ⟨hp, m, hl, hl'⟩
        exact ⟨m, ⟨hp, hl⟩, hl'⟩
      · rintro ⟨m, ⟨hp, hl⟩, hl'⟩
        exact ⟨hp, m, hl, hl'⟩

/-- Two parts with a node between them. -/
theorem segment_mid :
    Segment next p (l ++ x :: l') q ↔ Segment next p l (some x) ∧ Segment next (next x) l' q := by
  rw [segment_append]
  constructor
  · rintro ⟨m, hl, rfl, hl'⟩
    exact ⟨hl, hl'⟩
  · rintro ⟨hl, hl'⟩
    exact ⟨some x, hl, rfl, hl'⟩

/-- Only what is stored at its nodes makes a segment. -/
theorem Segment.congr (h : Segment next p l q) (hag : ∀ x ∈ l, next' x = next x) :
    Segment next' p l q := by
  induction l generalizing p with
  | nil => exact h
  | cons x l ih =>
      refine ⟨h.1, ?_⟩
      rw [hag x List.mem_cons_self]
      exact ih h.2 fun y hy => hag y (List.mem_cons_of_mem x hy)

/-- A list that ends is determined by its pointer. -/
theorem Segment.unique (h : Segment next p l none) (h' : Segment next p l' none) : l = l' := by
  induction l generalizing p l' with
  | nil =>
      cases l' with
      | nil => rfl
      | cons y l' => cases h.symm.trans h'.1
  | cons x l ih =>
      cases l' with
      | nil => cases h.1.symm.trans h'
      | cons y l' =>
          cases h.1.symm.trans h'.1
          rw [ih h.2 h'.2]

/-- A list whose pointer is not null has a first node. -/
theorem Segment.exists_cons (h : Segment next (some x) l none) :
    ∃ l', l = x :: l' ∧ Segment next (next x) l' none := by
  cases l with
  | nil => cases h
  | cons y l =>
      obtain ⟨hy, hl⟩ := h
      cases hy
      exact ⟨l, rfl, hl⟩

section

variable [DecidableEq α]

/-- A store elsewhere. -/
theorem Segment.update (h : Segment next p l q) (hx : x ∉ l) (m : Option α) :
    Segment (Function.update next x m) p l q := by
  refine h.congr fun y hy => Function.update_of_ne ?_ _ _
  rintro rfl
  exact hx hy

/-- Putting a node in front. -/
theorem Segment.push (h : Segment next p l q) (hx : x ∉ l) :
    Segment (Function.update next x p) (some x) (x :: l) q := by
  refine ⟨rfl, ?_⟩
  rw [Function.update_self]
  exact h.update hx p

end

end LinkedList
