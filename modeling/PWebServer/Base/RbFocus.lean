import PWebServer.Base.RbLinks

/-!
# Base.RbFocus

What the code reads around a focus, and what it may do there: `Reshaped` says
that a tree has been painted and rotated only, so that its nodes, their order
and everything else in memory are still what they were.
-/

namespace PWebServer

open Program RedBlack

variable {ν : Type}

/-! ## reading -/

section Reading

variable {t : RbTree ν} {f g : Frame ν} {z : Path ν} {T : BinTree ν} {n : ν}

theorem Holds.parent (h : Holds t (fill (f :: z) T)) (hn : ptr T = .node n) :
    (t.heap (.node n)).parent = .node f.node := by
  obtain ⟨-, -, -, -, hparent, -⟩ := links_fill.mp h.links
  rw [← hn]
  refine hparent ?_
  rintro rfl
  cases hn

theorem Holds.child (h : Holds t (fill (f :: z) T)) :
    (t.heap (.node f.node)).child f.dir = ptr T :=
  (links_fill.mp h.links).2.2.1

theorem Holds.sibling (h : Holds t (fill (f :: z) T)) :
    (t.heap (.node f.node)).child f.dir.flip = ptr f.sib :=
  (links_fill.mp h.links).2.2.2.1

theorem Holds.frameColor (h : Holds t (fill (f :: z) T)) :
    (t.heap (.node f.node)).color = f.color :=
  (links_fill.mp h.links).2.1

theorem Holds.color (h : Holds t (fill z T)) (hs : (t.heap .sentinel).color = .black) :
    (t.heap (ptr T)).color = T.color := by
  have hlinks := (links_fill.mp h.links).1
  cases T with
  | leaf => exact hs
  | node c l n r => exact hlinks.1

theorem Holds.root_ne (h : Holds t (fill (f :: z) T)) (hn : ptr T = .node n) : t.root ≠ .node n := by
  cases T with
  | leaf => cases hn
  | node c l m r =>
      cases hn
      exact (h.hangsAt (d := .left)).1

theorem Holds.grandParent (h : Holds t (fill (f :: g :: z) T)) :
    (t.heap (.node f.node)).parent = .node g.node := by
  rw [fill_cons] at h
  exact h.parent (ptr_fork ..)

theorem Holds.uncle (h : Holds t (fill (f :: g :: z) T)) :
    (t.heap (.node g.node)).child g.dir.flip = ptr g.sib := by
  rw [fill_cons] at h
  exact h.sibling

/-- On which side of its parent a node is. -/
theorem Holds.child_eq_iff (h : Holds t (fill (f :: z) T)) (hn : ptr T = .node n) (d : Dir) :
    .node n = (t.heap (.node f.node)).child d ↔ d = f.dir := by
  constructor
  · intro hchild
    by_contra hne
    obtain rfl := Dir.eq_flip_of_ne hne
    cases T with
    | leaf => cases hn
    | node c l m r =>
        cases hn
        exact (h.hangsAt (d := .left)).2.2.2 hchild.symm
  · rintro rfl
    rw [h.child, hn]

/-- The children of the node at the focus. -/
theorem Holds.children {d : Dir} {c : Color} {a b : BinTree ν} (h : Holds t (fill z (.fork d c n a b))) :
    (t.heap (.node n)).child d = ptr a ∧ (t.heap (.node n)).child d.flip = ptr b := by
  obtain ⟨-, ha, hb, -⟩ := links_fork.mp (links_fill.mp h.links).1
  exact ⟨ha, hb⟩

end Reading

/-! ## painting and rotating -/

/-- `t` holds `T`, which has the nodes `ns` in that order, and all but their
links and colors is as in `t₀`. -/
structure Reshaped (t₀ : RbTree ν) (ns : List ν) (t : RbTree ν) (T : BinTree ν) : Prop where
  holds : Holds t T
  nodes : T.toList = ns
  kept : Kept ns t₀ t

theorem Holds.reshaped {t : RbTree ν} {T : BinTree ν} (h : Holds t T) : Reshaped t T.toList t T :=
  ⟨h, rfl, .refl _ t⟩

variable {t₀ t : RbTree ν} {ns : List ν} {z : Path ν} {d : Dir} {c c' : Color} {n m : ν}
  {a b e T : BinTree ν}

theorem Reshaped.sentinel (h : Reshaped t₀ ns t T) : t.heap .sentinel = t₀.heap .sentinel :=
  h.kept.heap _ (by simp)

variable [DecidableEq ν]

theorem Reshaped.paint (h : Reshaped t₀ ns t (fill z (.fork d c n a b))) (c' : Color) :
    Runs (paint (.node n) c') t fun _ t' => Reshaped t₀ ns t' (fill z (.fork d c' n a b)) :=
  (paint_holds h.holds c').imp fun _ _ ⟨hholds, hkept⟩ =>
    ⟨hholds, by rw [← h.nodes, toList_fill, toList_fill, BinTree.toList_fork_color d c c'],
      h.kept.trans (h.nodes ▸ hkept)⟩

theorem Reshaped.rotate (h : Reshaped t₀ ns t (fill z (.fork d c n a (.fork d c' m b e)))) :
    Runs (rotate d (.node n)) t fun _ t' =>
      Reshaped t₀ ns t' (fill z (.fork d c' m (.fork d c n a b) e)) :=
  (rotate_holds h.holds).imp fun _ _ ⟨hholds, hkept⟩ =>
    ⟨hholds, by rw [← h.nodes, toList_fill, toList_fill, BinTree.toList_rotate],
      h.kept.trans (h.nodes ▸ hkept)⟩

/-- Painting the node above the focus. -/
theorem Reshaped.paintTop {f : Frame ν} (h : Reshaped t₀ ns t (fill (f :: z) T)) (c' : Color) :
    Runs (PWebServer.paint (.node f.node) c') t fun _ t' =>
      Reshaped t₀ ns t' (fill (⟨f.dir, c', f.node, f.sib⟩ :: z) T) :=
  Reshaped.paint (d := f.dir) h c'

/-- Painting the root of the sibling. -/
theorem Reshaped.paintSibling {f : Frame ν} (h : Reshaped t₀ ns t (fill (f :: z) T))
    (hsib : f.sib = .fork d c n a b) (c' : Color) :
    Runs (PWebServer.paint (.node n) c') t fun _ t' =>
      Reshaped t₀ ns t' (fill (⟨f.dir, f.color, f.node, .fork d c' n a b⟩ :: z) T) := by
  rw [← fill_swap, hsib] at h
  refine (h.paint c').imp fun _ _ h => ?_
  rwa [← fill_swap]

end PWebServer
