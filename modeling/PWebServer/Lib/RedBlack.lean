import Mathlib.Data.List.Nodup
import Mathlib.Data.List.Perm.Basic

/-!
# Lib.RedBlack

Red-black trees over any type of nodes, with a focus: a tree is the subtree at
the focus filled into the path above it.  Everything that has a mirror image is
stated once, with a direction: `BinTree.fork d` puts its first subtree on side `d`.

`Balanced` is the red-black property of a tree, `Accepts` what a path demands
of the subtree that is filled into it.
-/

namespace RedBlack

/-- The color of a node. -/
inductive Color where
  | red | black
  deriving DecidableEq, Repr

/-- A side. -/
inductive Dir where
  | left | right
  deriving DecidableEq, Repr

/-- The other side. -/
def Dir.flip : Dir → Dir
  | .left => .right
  | .right => .left

@[simp] theorem Dir.flip_flip (d : Dir) : d.flip.flip = d := by cases d <;> rfl

@[simp] theorem Dir.flip_ne (d : Dir) : d.flip ≠ d := by cases d <;> decide

theorem Dir.eq_flip_of_ne {d e : Dir} (h : d ≠ e) : d = e.flip := by
  cases d <;> cases e <;> first | rfl | exact absurd rfl h

/-- A tree of nodes, each with a color. -/
inductive BinTree (ν : Type) where
  | leaf
  | node (c : Color) (l : BinTree ν) (n : ν) (r : BinTree ν)

variable {ν : Type}

namespace BinTree

/-- The nodes in their order. -/
def toList : BinTree ν → List ν
  | leaf => []
  | node _ l n r => l.toList ++ n :: r.toList

/-- The color of the root; a leaf is black. -/
def color : BinTree ν → Color
  | leaf => .black
  | node c _ _ _ => c

/-- The same tree with a black root. -/
def blacken : BinTree ν → BinTree ν
  | leaf => leaf
  | node _ l n r => node .black l n r

/-- A node with `a` on side `d` and `b` on the other one. -/
def fork (d : Dir) (c : Color) (n : ν) (a b : BinTree ν) : BinTree ν :=
  match d with
  | .left => node c a n b
  | .right => node c b n a

theorem node_eq_fork (c : Color) (l : BinTree ν) (n : ν) (r : BinTree ν) : node c l n r = fork .left c n l r :=
  rfl

theorem fork_flip (d : Dir) (c : Color) (n : ν) (a b : BinTree ν) : fork d.flip c n a b = fork d c n b a := by
  cases d <;> rfl

/-- Every tree but a leaf is a node with something on both sides. -/
theorem eq_fork (d : Dir) (t : BinTree ν) (h : t ≠ leaf) : ∃ c n a b, t = fork d c n a b := by
  cases t with
  | leaf => exact absurd rfl h
  | node c l n r => cases d <;> exact ⟨c, n, _, _, rfl⟩

theorem node_eq_fork_of (d : Dir) (c : Color) (l : BinTree ν) (n : ν) (r : BinTree ν) :
    ∃ a b, node c l n r = fork d c n a b := by
  cases d <;> exact ⟨_, _, rfl⟩

@[simp] theorem color_fork (d : Dir) (c : Color) (n : ν) (a b : BinTree ν) : (fork d c n a b).color = c := by
  cases d <;> rfl

@[simp] theorem fork_ne_leaf (d : Dir) (c : Color) (n : ν) (a b : BinTree ν) : fork d c n a b ≠ leaf := by
  cases d <;> simp [fork]

@[simp] theorem blacken_fork (d : Dir) (c : Color) (n : ν) (a b : BinTree ν) :
    (fork d c n a b).blacken = fork d .black n a b := by
  cases d <;> rfl

theorem blacken_of_black {t : BinTree ν} (h : t.color = .black) : t.blacken = t := by
  cases t with
  | leaf => rfl
  | node c l n r =>
      obtain rfl : c = .black := h
      rfl

theorem toList_blacken (t : BinTree ν) : t.blacken.toList = t.toList := by cases t <;> rfl

theorem color_ne_red {t : BinTree ν} (h : t.color = .red) : t ≠ leaf := by
  rintro rfl
  cases h

theorem toList_fork_perm (d : Dir) (c : Color) (n : ν) (a b : BinTree ν) :
    (fork d c n a b).toList.Perm (n :: (a.toList ++ b.toList)) := by
  cases d with
  | left => exact List.perm_middle
  | right => exact List.perm_middle.trans (.cons n List.perm_append_comm)

@[simp] theorem mem_fork {d : Dir} {c : Color} {n m : ν} {a b : BinTree ν} :
    m ∈ (fork d c n a b).toList ↔ m = n ∨ m ∈ a.toList ∨ m ∈ b.toList := by
  rw [(toList_fork_perm d c n a b).mem_iff, List.mem_cons, List.mem_append]

/-- A rotation keeps the order of the nodes. -/
theorem toList_rotate (d : Dir) (c c' : Color) (n m : ν) (a b e : BinTree ν) :
    (fork d c' m (fork d c n a b) e).toList = (fork d c n a (fork d c' m b e)).toList := by
  cases d <;> simp [fork, toList]

theorem toList_fork_color (d : Dir) (c c' : Color) (n : ν) (a b : BinTree ν) :
    (fork d c' n a b).toList = (fork d c n a b).toList := by
  cases d <;> rfl

end BinTree

open BinTree

/-! ## paths -/

/-- A node above the focus: the side the focus is on, and what is on the
other one. -/
structure Frame (ν : Type) where
  dir : Dir
  color : Color
  node : ν
  sib : BinTree ν

/-- The nodes above the focus, the nearest one first. -/
abbrev Path (ν : Type) := List (Frame ν)

/-- The node with the subtree at the focus. -/
def Frame.fill (f : Frame ν) (t : BinTree ν) : BinTree ν := fork f.dir f.color f.node t f.sib

/-- The frame above its own sibling when `t` is at the focus. -/
def Frame.swap (f : Frame ν) (t : BinTree ν) : Frame ν := ⟨f.dir.flip, f.color, f.node, t⟩

/-- The whole tree. -/
def fill : Path ν → BinTree ν → BinTree ν
  | [], t => t
  | f :: z, t => fill z (f.fill t)

@[simp] theorem fill_nil (t : BinTree ν) : fill [] t = t := rfl

theorem fill_cons (f : Frame ν) (z : Path ν) (t : BinTree ν) : fill (f :: z) t = fill z (f.fill t) := rfl

theorem fill_append (z z' : Path ν) (t : BinTree ν) : fill (z ++ z') t = fill z' (fill z t) := by
  induction z generalizing t with
  | nil => rfl
  | cons f z ih => exact ih (f.fill t)

theorem fill_ne_leaf {z : Path ν} {t : BinTree ν} (h : t ≠ leaf) : fill z t ≠ leaf := by
  induction z generalizing t with
  | nil => exact h
  | cons f z ih => exact ih (fork_ne_leaf f.dir f.color f.node t f.sib)

/-- The focus moved to the sibling. -/
theorem fill_swap (f : Frame ν) (z : Path ν) (t : BinTree ν) :
    fill (f.swap t :: z) f.sib = fill (f :: z) t := by
  rw [fill_cons, fill_cons, Frame.fill, Frame.swap, fork_flip]
  rfl

/-- The focus at a node. -/
theorem exists_fill {t : BinTree ν} {n : ν} (h : n ∈ t.toList) :
    ∃ z c l r, t = fill z (node c l n r) := by
  induction t with
  | leaf => cases h
  | node c l m r ihl ihr =>
      simp only [toList, List.mem_append, List.mem_cons] at h
      rcases h with h | rfl | h
      · obtain ⟨z, c', l', r', rfl⟩ := ihl h
        exact ⟨z ++ [⟨.left, c, m, r⟩], c', l', r', by rw [fill_append]; rfl⟩
      · exact ⟨[], c, l, r, rfl⟩
      · obtain ⟨z, c', l', r', rfl⟩ := ihr h
        exact ⟨z ++ [⟨.right, c, m, l⟩], c', l', r', by rw [fill_append]; rfl⟩

/-- The nodes to the left of the focus. -/
def before : Path ν → List ν
  | [] => []
  | f :: z =>
      match f.dir with
      | .left => before z
      | .right => before z ++ (f.sib.toList ++ [f.node])

/-- The nodes to the right of the focus. -/
def after : Path ν → List ν
  | [] => []
  | f :: z =>
      match f.dir with
      | .left => f.node :: (f.sib.toList ++ after z)
      | .right => after z

theorem toList_fill (z : Path ν) (t : BinTree ν) :
    (fill z t).toList = before z ++ (t.toList ++ after z) := by
  induction z generalizing t with
  | nil => simp [before, after]
  | cons f z ih =>
      rw [fill_cons, ih]
      obtain ⟨_ | _, c, n, sib⟩ := f <;> simp [Frame.fill, fork, toList, before, after]

/-- Without a node that has one child at most, the others are in their order. -/
theorem toList_splice (z : Path ν) (d : Dir) (c : Color) (n : ν) (a : BinTree ν) :
    ∃ l r, (fill z (fork d c n a leaf)).toList = l ++ n :: r ∧ (fill z a).toList = l ++ r := by
  cases d with
  | left => exact ⟨before z ++ a.toList, after z, by simp [toList_fill, fork, toList]⟩
  | right => exact ⟨before z, a.toList ++ after z, by simp [toList_fill, fork, toList]⟩

/-- The nodes off the focus. -/
def outside : Path ν → List ν
  | [] => []
  | f :: z => f.node :: (f.sib.toList ++ outside z)

theorem outside_append (y z : Path ν) : outside (y ++ z) = outside y ++ outside z := by
  induction y with
  | nil => rfl
  | cons f y ih => simp [outside, ih]

theorem outside_perm (z : Path ν) : (before z ++ after z).Perm (outside z) := by
  induction z with
  | nil => exact .refl _
  | cons f z ih =>
      obtain ⟨_ | _, c, n, sib⟩ := f
      · refine List.perm_middle.trans (.cons n ?_)
        refine (List.perm_append_comm_assoc _ _ _).trans ?_
        exact ih.append_left sib.toList
      · simp only [before, after, outside, List.append_assoc, List.singleton_append]
        refine (List.perm_append_comm_assoc _ _ _).trans ?_
        refine (List.Perm.append_left sib.toList List.perm_middle).trans ?_
        refine List.perm_middle.trans (.cons n ?_)
        exact ih.append_left sib.toList

theorem toList_fill_perm (z : Path ν) (t : BinTree ν) :
    (fill z t).toList.Perm (t.toList ++ outside z) := by
  rw [toList_fill]
  refine (List.perm_append_comm_assoc _ _ _).trans ?_
  exact (outside_perm z).append_left t.toList

/-- Every node of a path is one of the tree. -/
theorem length_le_toList (z : Path ν) (t : BinTree ν) : z.length ≤ (fill z t).toList.length := by
  rw [(toList_fill_perm z t).length_eq, List.length_append]
  induction z with
  | nil => exact Nat.zero_le _
  | cons f z ih =>
      simp only [outside, List.length_cons, List.length_append]
      omega

/-! ## balance -/

/-- The red-black property: a red node has black children, and every way down
passes `k` black nodes. -/
inductive Balanced : BinTree ν → Nat → Prop where
  | leaf : Balanced .leaf 0
  | red (hl : Balanced l k) (hr : Balanced r k) (hcl : l.color = .black) (hcr : r.color = .black) :
      Balanced (.node .red l n r) k
  | black (hl : Balanced l k) (hr : Balanced r k) : Balanced (.node .black l n r) (k + 1)

theorem balanced_fork_red {d : Dir} {n : ν} {a b : BinTree ν} :
    Balanced (fork d .red n a b) k ↔
      Balanced a k ∧ Balanced b k ∧ a.color = .black ∧ b.color = .black := by
  constructor
  · intro h
    cases d <;> cases h <;> simp_all
  · rintro ⟨ha, hb, hca, hcb⟩
    cases d
    · exact .red ha hb hca hcb
    · exact .red hb ha hcb hca

theorem balanced_fork_black {d : Dir} {n : ν} {a b : BinTree ν} :
    Balanced (fork d .black n a b) (k + 1) ↔ Balanced a k ∧ Balanced b k := by
  constructor
  · intro h
    cases d <;> cases h <;> simp_all
  · rintro ⟨ha, hb⟩
    cases d
    · exact .black ha hb
    · exact .black hb ha

/-- A black tree of some height is a node. -/
theorem Balanced.eq_fork_black {t : BinTree ν} (h : Balanced t (k + 1)) (hc : t.color = .black) (d : Dir) :
    ∃ n a b, t = fork d .black n a b ∧ Balanced a k ∧ Balanced b k := by
  cases h with
  | red => cases hc
  | black hl hr => cases d <;> exact ⟨_, _, _, rfl, ‹_›, ‹_›⟩

/-- A red tree is a node with black children. -/
theorem Balanced.eq_fork_red {t : BinTree ν} (h : Balanced t k) (hc : t.color = .red) (d : Dir) :
    ∃ n a b, t = fork d .red n a b ∧ Balanced a k ∧ Balanced b k ∧ a.color = .black ∧
      b.color = .black := by
  cases h with
  | leaf => cases hc
  | red hl hr hcl hcr => cases d <;> exact ⟨_, _, _, rfl, ‹_›, ‹_›, ‹_›, ‹_›⟩
  | black => cases hc

/-- The color above the focus; above the root stands no black node, which is
why the root must be black. -/
def above : Path ν → Color
  | [] => .red
  | f :: _ => f.color

/-- The path makes a balanced tree of every subtree of black height `k` that
may stand below its first node. -/
def Accepts : Path ν → Nat → Prop
  | [], _ => True
  | f :: z, k =>
      Balanced f.sib k ∧
        match f.color with
        | .red => f.sib.color = .black ∧ above z = .black ∧ Accepts z k
        | .black => Accepts z (k + 1)

/-- A whole tree: balanced, with a black root. -/
def Sound (t : BinTree ν) : Prop := t.color = .black ∧ ∃ k, Balanced t k

theorem sound_fill {t : BinTree ν} {z : Path ν} (ht : Balanced t k) (hz : Accepts z k)
    (hc : above z = .red → t.color = .black) : Sound (fill z t) := by
  induction z generalizing t k with
  | nil => exact ⟨hc rfl, k, ht⟩
  | cons f z ih =>
      obtain ⟨d, _ | _, n, sib⟩ := f
      · obtain ⟨hsib, hcs, habove, hz⟩ := hz
        refine ih (balanced_fork_red.mpr ⟨ht, hsib, hc rfl, hcs⟩) hz fun h => ?_
        rw [habove] at h
        cases h
      · obtain ⟨hsib, hz⟩ := hz
        exact ih (balanced_fork_black.mpr ⟨ht, hsib⟩) hz fun _ => color_fork ..

/-- The parts of a sound tree. -/
theorem Sound.parts {t : BinTree ν} {z : Path ν} (h : Sound (fill z t)) :
    ∃ k, Balanced t k ∧ Accepts z k ∧ (above z = .red → t.color = .black) := by
  induction z generalizing t with
  | nil =>
      obtain ⟨hc, k, ht⟩ := h
      exact ⟨k, ht, trivial, fun _ => hc⟩
  | cons f z ih =>
      obtain ⟨k, ht, hz, hc⟩ := ih (t := f.fill t) h
      obtain ⟨d, _ | _, n, sib⟩ := f
      · obtain ⟨ha, hb, hca, hcb⟩ := balanced_fork_red.mp ht
        refine ⟨k, ha, ⟨hb, hcb, ?_, hz⟩, fun _ => hca⟩
        cases habove : above z with
        | black => rfl
        | red => exact absurd (hc habove) (by simp [Frame.fill])
      · cases k with
        | zero => cases d <;> cases ht
        | succ k =>
            obtain ⟨ha, hb⟩ := balanced_fork_black.mp ht
            exact ⟨k, ha, ⟨hb, hz⟩, fun h => nomatch h⟩

/-! ## a tree that lacks a black node -/

/-- A subtree that may stand where a path asks for one black node more: a black
root is missing the node, a red one is to become it. -/
def Short (t : BinTree ν) (k : Nat) : Prop :=
  match t.color with
  | .black => Balanced t k
  | .red => Balanced t.blacken (k + 1)

theorem Short.balanced {t : BinTree ν} (h : Short t k) (hc : t.color = .black) : Balanced t k := by
  rwa [Short, hc] at h

theorem Balanced.short {t : BinTree ν} (h : Balanced t k) : Short t k := by
  unfold Short
  cases h with
  | leaf => exact .leaf
  | red hl hr => exact .black hl hr
  | black hl hr => exact .black hl hr

/-- A red root, and the root of the whole tree, need no more than to be
painted black. -/
theorem Short.sound {t : BinTree ν} {z : Path ν} (h : Short t k) (hz : Accepts z (k + 1))
    (hend : t.color = .red ∨ z = []) : Sound (fill z t.blacken) := by
  cases hc : t.color with
  | red =>
      rw [Short, hc] at h
      refine sound_fill h hz fun _ => ?_
      cases t with
      | leaf => rfl
      | node c l n r => rfl
  | black =>
      obtain rfl : z = [] := by simpa [hc] using hend
      rw [blacken_of_black hc]
      exact ⟨hc, k, h.balanced hc⟩

/-- Below a red sibling the black sibling is one of its children. -/
theorem Accepts.redSibling {d : Dir} {c : Color} {p m : ν} {a b : BinTree ν} {z : Path ν}
    (h : Accepts (⟨d, c, p, .fork d .red m a b⟩ :: z) k) :
    a.color = .black ∧ Accepts (⟨d, .red, p, a⟩ :: ⟨d, .black, m, b⟩ :: z) k := by
  obtain ⟨hsib, hz⟩ := h
  obtain ⟨ha, hb, hca, -⟩ := balanced_fork_red.mp hsib
  cases c with
  | red => exact absurd hz.1 (by simp)
  | black => exact ⟨hca, ha, hca, rfl, hb, hz⟩

/-- With black nephews the sibling gives up its black, and the lack goes up. -/
theorem Accepts.blackNephews {d : Dir} {c : Color} {p m : ν} {a b t : BinTree ν} {z : Path ν}
    (h : Accepts (⟨d, c, p, .fork d .black m a b⟩ :: z) (k + 1)) (ht : Balanced t k)
    (ha : a.color = .black) (hb : b.color = .black) :
    ∃ k', Short (.fork d c p t (.fork d .red m a b)) k' ∧ Accepts z (k' + 1) := by
  obtain ⟨hsib, hz⟩ := h
  obtain ⟨hka, hkb⟩ := balanced_fork_black.mp hsib
  have hred : Balanced (fork d .red m a b) k := balanced_fork_red.mpr ⟨hka, hkb, ha, hb⟩
  cases c with
  | red =>
      refine ⟨k, ?_, hz.2.2⟩
      rw [Short, color_fork, blacken_fork]
      exact balanced_fork_black.mpr ⟨ht, hred⟩
  | black => exact ⟨k + 1, (balanced_fork_black.mpr ⟨ht, hred⟩).short, hz⟩

/-- With a red nephew on the inner side only, a rotation of the sibling brings
it to the outer side. -/
theorem Accepts.innerNephew {d : Dir} {c : Color} {p m x : ν} {a b e : BinTree ν} {z : Path ν}
    (h : Accepts (⟨d, c, p, .fork d .black m (.fork d .red x a b) e⟩ :: z) k)
    (he : e.color = .black) : Accepts (⟨d, c, p, .fork d .black x a (.fork d .red m b e)⟩ :: z) k := by
  obtain ⟨hsib, hz⟩ := h
  cases k with
  | zero => cases d <;> cases hsib
  | succ k =>
      obtain ⟨hin, hout⟩ := balanced_fork_black.mp hsib
      obtain ⟨ha, hb, -, hcb⟩ := balanced_fork_red.mp hin
      refine ⟨balanced_fork_black.mpr ⟨ha, balanced_fork_red.mpr ⟨hb, hout, hcb, he⟩⟩, ?_⟩
      cases c with
      | red => exact ⟨color_fork .., hz.2⟩
      | black => exact hz

/-- With a red nephew on the outer side a rotation of the parent makes up for
the lack. -/
theorem Accepts.outerNephew {d : Dir} {c : Color} {p m : ν} {a b t : BinTree ν} {z : Path ν}
    (h : Accepts (⟨d, c, p, .fork d .black m a b⟩ :: z) (k + 1)) (ht : Balanced t k)
    (hb : b.color = .red) : Sound (fill z (.fork d c m (.fork d .black p t a) b.blacken)) := by
  obtain ⟨hsib, hz⟩ := h
  obtain ⟨hka, hkb⟩ := balanced_fork_black.mp hsib
  obtain ⟨x, l, r, rfl, hl, hr, -, -⟩ := hkb.eq_fork_red hb d
  have hin : Balanced (fork d .black p t a) (k + 1) := balanced_fork_black.mpr ⟨ht, hka⟩
  have hout : Balanced (fork d .black x l r) (k + 1) := balanced_fork_black.mpr ⟨hl, hr⟩
  rw [blacken_fork]
  cases c with
  | red =>
      refine sound_fill (balanced_fork_red.mpr ⟨hin, hout, color_fork .., color_fork ..⟩) hz.2.2 ?_
      rw [hz.2.1]
      exact nofun
  | black => exact sound_fill (balanced_fork_black.mpr ⟨hin, hout⟩) hz fun _ => color_fork ..

/-- Without the only child that may be a leaf, and the node itself. -/
theorem Sound.splice {d : Dir} {c : Color} {n : ν} {a : BinTree ν} {z : Path ν}
    (h : Sound (fill z (fork d c n a leaf))) :
    (c = .red → Sound (fill z a)) ∧ (c = .black → ∃ k, Short a k ∧ Accepts z (k + 1)) := by
  obtain ⟨k, ht, hz, -⟩ := h.parts
  constructor
  · rintro rfl
    obtain ⟨ha, -, hca, -⟩ := balanced_fork_red.mp ht
    exact sound_fill ha hz fun _ => hca
  · rintro rfl
    cases k with
    | zero => cases d <;> cases ht
    | succ k => exact ⟨k, (balanced_fork_black.mp ht).1.short, hz⟩

/-- Balance does not ask which node it is. -/
theorem Sound.rename {d : Dir} {c : Color} {n m : ν} {a b : BinTree ν} {z : Path ν}
    (h : Sound (fill z (fork d c n a b))) : Sound (fill z (fork d c m a b)) := by
  obtain ⟨k, ht, hz, hc⟩ := h.parts
  have hm : Balanced (fork d c m a b) k := by
    cases c with
    | red => exact balanced_fork_red.mpr (balanced_fork_red.mp ht)
    | black =>
        cases k with
        | zero => cases d <;> cases ht
        | succ k => exact balanced_fork_black.mpr (balanced_fork_black.mp ht)
  exact sound_fill hm hz (by simpa using hc)

end RedBlack
