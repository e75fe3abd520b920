import PWebServer.Base.RbGap
import PWebServer.Base.RbInsert

/-!
# Base.RbDelete

`rbtree_delete` keeps the tree well formed: the deleted node or its successor
leaves a gap in the tree, where a black node may be missing, and the loop makes
up for it.
-/

namespace PWebServer

open Program RedBlack

variable {ν : Type} [DecidableEq ν]

/-! ## the whole deletion -/

/-- The nodes that take part in the deletion of `node`: the one that leaves its
place and the child that comes up. -/
def selectSubst (fuel : Nat) (node : Ptr ν) : RbM ν (Ptr ν × Ptr ν) := do
  if (← getChild .left node) = .sentinel then
    return (node, ← getChild .right node)
  else if (← getChild .right node) = .sentinel then
    return (node, ← getChild .left node)
  else
    let subst ← rbtreeMin fuel (← getChild .right node)
    if (← getChild .left subst) ≠ .sentinel then
      return (subst, ← getChild .left subst)
    else
      return (subst, ← getChild .right subst)

/-- The rest of `rbtree_delete`. -/
def detach (fuel : Nat) (node subst temp : Ptr ν) : RbM ν Unit := do
  if subst = (← getRoot) then
    setRoot temp
    paint temp .black
    clearNode node
  else
    let red ← isRed subst
    unlink subst temp
    if subst = node then
      setParent temp (← getParent subst)
    else
      replaceBySubst node subst temp
    closeGap fuel red node temp

theorem rbtreeDelete_eq (fuel : Nat) (node : Ptr ν) : rbtreeDelete fuel node = (do
    let (subst, temp) ← selectSubst fuel node
    detach fuel node subst temp) := by
  simp only [rbtreeDelete, selectSubst, detach, unlink, closeGap, bind_assoc, ite_bind]

/-- `t'` is `t` without the node `n`: the others are in their order, with their
keys. -/
structure Deleted (t : RbTree ν) (T : BinTree ν) (n : ν) (t' : RbTree ν) (T' : BinTree ν) : Prop where
  wellFormed : WellFormed t' T'
  nodes : ∃ l r, T.toList = l ++ n :: r ∧ T'.toList = l ++ r
  without : Without T.toList n t t'
  cleared : Cleared t' n

section Deletion

variable {t t' : RbTree ν} {z : Path ν} {d : Dir} {c : Color} {n : ν} {a T : BinTree ν} {fuel : Nat}

omit [DecidableEq ν] in
theorem Without.sorted {l r : List ν} (h : Without ns n t t') (hsorted : Sorted t (l ++ n :: r))
    (hn : n ∉ l ++ r) : Sorted t' (l ++ r) := by
  have hrest : Sorted t (l ++ r) := hsorted.sublist ((List.sublist_cons_self n r).append_left l)
  refine hrest.imp_of_mem fun hm hm' hle => ?_
  rwa [h.key _ (by rintro ⟨⟩; exact hn hm), h.key _ (by rintro ⟨⟩; exact hn hm')]

/-- From the gap on. -/
theorem closeGap_runs {t₁ : RbTree ν} {q : BinTree ν} {l r : List ν} {red : Bool} (h : WellFormed t T)
    (hT : T.toList = l ++ n :: r) (h₁ : Holds t₁ (fill z q)) (hq : (fill z q).toList = l ++ r)
    (hwithout : Without T.toList n t t₁) (hred : red = true → Sound (fill z q))
    (hblack : red = false → ∃ k, Short q k ∧ Accepts z (k + 1))
    (hung : red = false → q = .leaf → ∃ f ∈ z.head?, (t₁.heap .sentinel).parent = .node f.node)
    (hfuel : T.toList.length < fuel) :
    Runs (closeGap fuel red (.node n) (ptr q)) t₁ fun _ t' => ∃ T', Deleted t T n t' T' := by
  have hnodup := h.holds.nodup
  rw [hT, List.nodup_middle, List.nodup_cons] at hnodup
  have hlen := length_le_toList z q
  have hsub : (fill z q).toList ⊆ T.toList := by
    rw [hq, hT]
    exact ((List.sublist_cons_self n r).append_left l).subset
  refine (repair_runs h₁ (hq ▸ hnodup.1) (by simp [hT]) hsub
    (hwithout.nilColor.trans h.nilColor) hred hblack hung (by rw [hq] at hlen; simp_all; omega)).imp ?_
  rintro _ t' ⟨R, hholds, hsound, hlist, hafter, hcleared⟩
  have hall := hwithout.trans hafter
  refine ⟨R, ⟨hholds, hsound, ?_, hall.nilColor.trans h.nilColor, fun d => (hall.nilChild d).trans
    (h.nilChild d)⟩, ⟨l, r, hT, hlist.trans hq⟩, hall, hcleared⟩
  rw [hlist, hq]
  exact hall.sorted (hT ▸ h.sorted) hnodup.1

/-- The root goes, and its only child comes up. -/
theorem detach_root_runs (h : WellFormed t (.fork d c n a .leaf))
    (hfuel : (BinTree.fork d c n a .leaf).toList.length < fuel) :
    Runs (detach fuel (.node n) (.node n) (ptr a)) t fun _ t' =>
      ∃ T', Deleted t (.fork d c n a .leaf) n t' T' := by
  have hroot : t.root = .node n := h.holds.root.trans (ptr_fork ..)
  obtain ⟨l, r, hold, hnew⟩ := toList_splice [] d c n a
  obtain rfl : c = .black := by simpa using h.sound.1
  obtain ⟨k, hshort, -⟩ := Sound.splice (z := []) h.sound |>.2 rfl
  have hapart := apart_of_nodup (z := []) h.holds.nodup
  obtain ⟨-, -, -, -, -, ha, -⟩ := links_fork.mp h.holds.links
  simp only [detach, runs_bind, runs_getRoot, runs_ite, hroot, if_true, runs_setRoot]
  have hpainted : Runs (paint (ptr a) .black) { t with root := ptr a } fun _ t₁ =>
      Holds t₁ a.blacken ∧ Without (BinTree.fork d .black n a .leaf).toList n t t₁ := by
    cases a with
    | leaf =>
        rw [paint, runs_storeNode]
        refine ⟨ptr_ne_null _, ⟨rfl, trivial, List.nodup_nil⟩, ?_, fun x hx _ => Function.update_of_ne hx _ _, ?_, ?_⟩
        · intro x _
          by_cases hx : x = .sentinel <;> simp [hx, ptr]
        · simp [ptr, h.nilColor]
        · simp [ptr]
    | node c' l' m r' =>
        have h₁ : Holds { t with root := .node m } (.fork .left c' m l' r') := ⟨rfl, ha, hapart.leftNodup⟩
        refine (paint_holds (z := []) h₁ .black).imp fun _ t₁ hblack => ?_
        obtain ⟨h₂, hkept⟩ := hblack
        refine ⟨h₂, ?_⟩
        refine Kept.without (t := t) ⟨hkept.heap, hkept.key⟩ fun x hx => ?_
        exact BinTree.mem_fork.mpr (.inr (.inl hx))
  refine hpainted.imp fun _ t₁ hblack => ?_
  obtain ⟨h₁, hwithout⟩ := hblack
  have hclose : Runs (closeGap fuel true (.node n) (ptr a.blacken)) t₁ fun _ t' =>
      ∃ T', Deleted t (.fork d .black n a .leaf) n t' T' :=
    closeGap_runs (z := []) h hold h₁ ((BinTree.toList_blacken a).trans hnew) hwithout
      (fun _ => hshort.sound (z := []) trivial (.inr rfl)) (fun h => Bool.noConfusion h) (fun h => Bool.noConfusion h) hfuel
  simpa [closeGap] using hclose

/-- A node with one child at most goes, and that child comes up. -/
theorem detach_self_runs {f : Frame ν} (h : WellFormed t (fill (f :: z) (.fork d c n a .leaf)))
    (hfuel : (fill (f :: z) (.fork d c n a .leaf)).toList.length < fuel) :
    Runs (detach fuel (.node n) (.node n) (ptr a)) t fun _ t' =>
      ∃ T', Deleted t (fill (f :: z) (.fork d c n a .leaf)) n t' T' := by
  obtain ⟨l, r, hold, hnew⟩ := toList_splice (f :: z) d c n a
  obtain ⟨hred, hblack⟩ := h.sound.splice
  have hroot := h.holds.root_ne (ptr_fork d c n a .leaf)
  have hapart := apart_of_nodup h.holds.nodup
  have hcolor := (links_fork.mp (links_fill.mp h.holds.links).1).1
  have hparent := h.holds.parent (ptr_fork d c n a .leaf)
  have hnf : n ≠ f.node := fun heq => hapart.above (by simp [outside, heq])
  have hfa : ptr a ≠ .node f.node := ptr_ne_node fun hf => hapart.leftAbove _ hf (by simp [outside])
  have hparent₁ : ((relinked t (ptr a) (f :: z)).heap (.node n)).parent = .node f.node := by
    simpa [relinked, update_node hnf] using hparent
  have hmem : ∀ m ∈ f.node :: a.toList, m ∈ (fill (f :: z) (.fork d c n a .leaf)).toList := by
    intro m hm
    rw [(toList_fill_perm _ _).mem_iff]
    simp only [List.mem_append, BinTree.mem_fork, outside, List.mem_cons] at hm ⊢
    tauto
  simp only [detach, runs_bind, runs_getRoot, runs_ite, hroot.symm, if_false, runs_isRed, hcolor,
    unlink_runs h.holds (ptr_fork d c n a .leaf), if_true, runs_getParent, hparent₁]
  refine ⟨Ptr.node_ne_null, Ptr.node_ne_null, (spliced_runs hfa).imp fun _ t₁ hspl => ?_⟩
  refine closeGap_runs h hold (hspl.holds h.holds) hnew (hspl.without (hmem _ (by simp)) fun m hm =>
    hmem m (.tail _ hm)) (fun hc => hred (by simpa using hc)) (fun hc => hblack ?_) ?_ hfuel
  · cases c with
    | red => simp at hc
    | black => rfl
  · rintro - rfl
    refine ⟨f, rfl, ?_⟩
    have hchild := hspl.child
    simp only [ptr] at hchild
    rw [hchild]
    rfl

/-- The leftmost node of a subtree. -/
theorem rbtreeMin_runs {r : BinTree ν} (h : Holds t (fill z r)) (hr : r ≠ .leaf)
    (hfuel : r.toList.length < fuel) :
    Runs (rbtreeMin fuel (ptr r)) t fun p t' => t' = t ∧ ∃ y c s q,
      r = fill y (.node c .leaf s q) ∧ before y = [] ∧ p = .node s := by
  refine loop_runs (fun k p t' => t' = t ∧ ∃ y S, p = ptr S ∧ S ≠ .leaf ∧ fill y S = r ∧ before y = [] ∧
    k = S.toList.length) ?_ fuel ⟨rfl, [], r, rfl, hr, rfl, rfl, rfl⟩ hfuel
  rintro k p t' ⟨rfl, y, S, rfl, hS, rfl, hy, rfl⟩
  cases S with
  | leaf => exact absurd rfl hS
  | node c a m b =>
      rw [← fill_append] at h
      have hleft : (t'.heap (ptr (.node c a m b))).child .left = ptr a := (h.children (d := .left)).1
      simp only [runs_bind, runs_getChild, hleft, runs_ite, runs_pure, true_and]
      refine ⟨Ptr.node_ne_null, ?_⟩
      cases a with
      | leaf => exact ⟨y, c, m, b, rfl, hy, rfl⟩
      | node c' a' m' b' =>
          refine ⟨_, ?_, ⟨.left, c, m, b⟩ :: y, .node c' a' m' b', rfl, by simp, rfl, hy, rfl⟩
          simp [BinTree.toList]

omit [DecidableEq ν] in
/-- The path below the node on the side of its successor. -/
theorem fill_below (z y : Path ν) (c : Color) (l : BinTree ν) (n : ν) (T : BinTree ν) :
    fill z (.node c l n (fill y T)) = fill (y ++ ⟨.right, c, n, l⟩ :: z) T := by
  rw [fill_append]
  rfl

/-- With the successor out of its place the node is still there; the child
that came up knows the node above, which is the successor when it was a child
of the node. -/
theorem Spliced.below {y rest : Path ν} {g : Frame ν} {l q : BinTree ν} {cs : Color} {s : ν} {t₁ : RbTree ν}
    (h : Holds t (fill (g :: rest) (.fork .right cs s q .leaf)))
    (hpath : y ++ ⟨.right, c, n, l⟩ :: z = g :: rest)
    (hspl : Spliced t g q (.node (if g.node = n then s else g.node)) t₁) :
    Loose t₁ z c l n (fill y q) ∧
      (q = .leaf → ∃ f ∈ (y ++ ⟨.right, c, s, l⟩ :: z).head?, (t₁.heap .sentinel).parent = .node f.node) := by
  have hsentinel : ∀ m, q = .leaf → m = (if g.node = n then s else g.node) →
      (t₁.heap .sentinel).parent = .node m := by
    rintro m rfl rfl
    have hchild := hspl.child
    simp only [ptr] at hchild
    rw [hchild]
    rfl
  cases y with
  | nil =>
      cases hpath
      exact ⟨hspl.loose h, fun hq => ⟨_, rfl, hsentinel s hq (by simp)⟩⟩
  | cons g' y =>
      cases hpath
      have hgn : g.node ≠ n := by
        have habove := (apart_of_nodup h.nodup).aboveNodup
        rintro rfl
        simp [outside, outside_append] at habove
      rw [if_neg hgn] at hspl
      have hholds := hspl.holds h
      refine ⟨?_, fun hq => ⟨g, rfl, hsentinel _ hq (by simp [hgn])⟩⟩
      refine Holds.loose ?_
      rwa [fill_below]

/-- The successor leaves its own place and takes that of the node. -/
theorem detach_subst_runs {y : Path ν} {l q : BinTree ν} {cs : Color} {s : ν}
    (h : WellFormed t (fill z (.node c l n (fill y (.node cs .leaf s q))))) (hy : before y = [])
    (hfuel : (fill z (.node c l n (fill y (.node cs .leaf s q)))).toList.length < fuel) :
    Runs (detach fuel (.node n) (.node s) (ptr q)) t fun _ t' =>
      ∃ T', Deleted t (fill z (.node c l n (fill y (.node cs .leaf s q)))) n t' T' := by
  have hns : n ≠ s := by
    have hright := (apart_of_nodup (d := .left) h.holds.nodup).right
    rintro rfl
    exact hright (mem_fill_fork (d := .right) (a := q) (b := .leaf))
  have hsound := h.sound.rename (d := .left) (m := s)
  rw [← BinTree.node_eq_fork, fill_below] at hsound
  obtain ⟨hred, hblack⟩ := hsound.splice (d := .right)
  have hold : (fill z (.node c l n (fill y (.node cs .leaf s q)))).toList =
      (before z ++ l.toList) ++ n :: (s :: (q.toList ++ (after y ++ after z))) := by
    simp [toList_fill, BinTree.toList, hy]
  have hnew : (fill (y ++ ⟨.right, c, s, l⟩ :: z) q).toList =
      (before z ++ l.toList) ++ s :: (q.toList ++ (after y ++ after z)) := by
    simp [← fill_below, toList_fill, BinTree.toList, hy]
  obtain ⟨g, rest, hpath⟩ : ∃ g rest, y ++ ⟨.right, c, n, l⟩ :: z = g :: rest :=
    List.exists_cons_of_ne_nil (by simp)
  have htree : fill z (.node c l n (fill y (.node cs .leaf s q))) =
      fill (g :: rest) (.fork .right cs s q .leaf) := by
    rw [fill_below, hpath]
    rfl
  have hholds := htree ▸ h.holds
  have hroot := hholds.root_ne (ptr_fork ..)
  have hapart := apart_of_nodup hholds.nodup
  have hcolor := (links_fork.mp (links_fill.mp hholds.links).1).1
  have hparent := hholds.parent (ptr_fork ..)
  have hsg : s ≠ g.node := fun heq => hapart.above (by simp [outside, heq])
  have hgq : ptr q ≠ .node g.node := ptr_ne_node fun hg => hapart.leftAbove _ hg (by simp [outside])
  have hparent₁ : ((relinked t (ptr q) (g :: rest)).heap (.node s)).parent = .node g.node := by
    simpa [relinked, update_node hsg] using hparent
  -- the rest of the program, once the successor is out of its place
  have hrest : ∀ t₁, Spliced t g q (.node (if g.node = n then s else g.node)) t₁ →
      Runs (transplant (.node n) (.node s)) t₁ fun _ t₂ =>
        Runs (closeGap fuel (decide (cs = .red)) (.node n) (ptr q)) t₂ fun _ t' =>
          ∃ T', Deleted t (fill z (.node c l n (fill y (.node cs .leaf s q)))) n t' T' := by
    intro t₁ hspl
    obtain ⟨hloose, hung⟩ := hspl.below hholds hpath
    have hs : s ∉ (fill z (.node c l n (fill y q))).toList := by
      rw [fill_below, hpath, (toList_fill_perm _ _).mem_iff, List.mem_append, not_or]
      exact ⟨hapart.left, hapart.above⟩
    refine (hloose.transplant_runs hs).imp fun _ t₂ hmoved => ?_
    obtain ⟨hholds₂, hkept⟩ := hmoved
    rw [fill_below] at hholds₂
    have hwithout : Without (fill z (.node c l n (fill y (.node cs .leaf s q)))).toList n t t₂ := by
      have hmem : ∀ m, m ∈ q.toList ∨ m ∈ outside (g :: rest) →
          m ∈ (fill z (.node c l n (fill y (.node cs .leaf s q)))).toList := by
        intro m hm
        rw [htree, (toList_fill_perm _ _).mem_iff, List.mem_append, BinTree.mem_fork]
        exact hm.imp_left fun hm => .inr (.inl hm)
      refine (hspl.without (hmem _ (.inr (by simp [outside]))) fun m hm => hmem m (.inl hm)).trans
        (hkept.without fun m hm => ?_)
      rcases List.mem_cons.mp hm with rfl | hm
      · rw [hold]
        simp
      · rw [fill_below, hpath, (toList_fill_perm _ _).mem_iff, List.mem_append] at hm
        exact hmem m hm
    refine closeGap_runs h hold hholds₂ hnew hwithout (fun hc => hred (by simpa using hc))
      (fun hc => hblack ?_) (fun _ hq => ?_) hfuel
    · cases cs with
      | red => simp at hc
      | black => rfl
    · rw [hkept.heap .sentinel (by simp)]
      exact hung hq
  simp only [detach, runs_bind, runs_getRoot, runs_ite, hroot.symm, if_false, runs_isRed, hcolor,
    unlink_runs hholds (ptr_fork ..), Ptr.node.injEq, hns.symm, replaceBySubst_eq,
    runs_getParent, hparent₁]
  refine ⟨Ptr.node_ne_null, Ptr.node_ne_null, ?_⟩
  split
  next hgn =>
    refine (spliced_runs hgq).imp fun _ t₁ hspl => hrest t₁ ?_
    rwa [if_pos hgn]
  next hgn =>
    refine ⟨Ptr.node_ne_null, (spliced_runs hgq).imp fun _ t₁ hspl => hrest t₁ ?_⟩
    rwa [if_neg hgn]

theorem rbtreeDelete_runs (h : WellFormed t T) (hn : n ∈ T.toList) (hfuel : T.toList.length < fuel) :
    Runs (rbtreeDelete fuel (.node n)) t fun _ t' => ∃ T', Deleted t T n t' T' := by
  obtain ⟨z, c, l, r, rfl⟩ := exists_fill hn
  obtain ⟨-, hl, hr, -⟩ := (links_fill.mp h.holds.links).1
  have hleft : (t.heap (.node n)).child .left = ptr l := hl
  have hright : (t.heap (.node n)).child .right = ptr r := hr
  have hself : ∀ d a, BinTree.node c l n r = .fork d c n a .leaf →
      Runs (detach fuel (.node n) (.node n) (ptr a)) t fun _ t' =>
        ∃ T', Deleted t (fill z (.node c l n r)) n t' T' := by
    intro d a heq
    rw [heq] at h hfuel ⊢
    cases z with
    | nil => exact detach_root_runs h hfuel
    | cons f z => exact detach_self_runs h hfuel
  simp only [rbtreeDelete_eq, selectSubst, runs_bind, runs_getChild, hleft, hright, runs_ite, runs_pure]
  refine ⟨Ptr.node_ne_null, ?_⟩
  split
  next hleaf =>
    obtain rfl := ptr_eq_sentinel.mp hleaf
    exact ⟨Ptr.node_ne_null, hself .right r rfl⟩
  next hlnode =>
    refine ⟨Ptr.node_ne_null, ?_⟩
    split
    next hleaf =>
      obtain rfl := ptr_eq_sentinel.mp hleaf
      exact ⟨Ptr.node_ne_null, hself .left l rfl⟩
    next hrnode =>
      have hholds : Holds t (fill (⟨.right, c, n, l⟩ :: z) r) := h.holds
      have hlen : r.toList.length < fuel := by
        simp only [toList_fill, BinTree.toList, List.length_append, List.length_cons] at hfuel
        omega
      refine ⟨Ptr.node_ne_null, (rbtreeMin_runs hholds (mt ptr_eq_sentinel.mpr hrnode) hlen).imp ?_⟩
      rintro p t' ⟨rfl, y, cs, s, q, rfl, hy, rfl⟩
      rw [← fill_append] at hholds
      obtain ⟨-, hsl, hsr, -⟩ := (links_fill.mp hholds.links).1
      have hsleft : (t'.heap (.node s)).child .left = .sentinel := hsl
      have hsright : (t'.heap (.node s)).child .right = ptr q := hsr
      simp only [hsleft, hsright, ne_eq, not_true_eq_false, if_false]
      exact ⟨Ptr.node_ne_null, Ptr.node_ne_null, detach_subst_runs h hy hfuel⟩

theorem rbtreeDelete_extends {fuel fuel' : Nat} (hle : fuel ≤ fuel') (node : Ptr ν) :
    Extends (rbtreeDelete fuel node) (rbtreeDelete fuel' node) := by
  rw [rbtreeDelete_eq, rbtreeDelete_eq]
  refine Extends.bind ?_ fun (subst, temp) => ?_
  · refine (Extends.refl _).bind fun left => .ite (.refl _) ?_
    refine (Extends.refl _).bind fun right => .ite (.refl _) ?_
    exact (Extends.refl _).bind fun _ => (loop_extends hle _).bind fun _ => .refl _
  · refine (Extends.refl _).bind fun root => .ite (.refl _) ?_
    refine (Extends.refl _).bind fun red => (Extends.refl _).bind fun _ => ?_
    have hclose : Extends (closeGap fuel red node temp) (closeGap fuel' red node temp) :=
      (Extends.refl _).bind fun _ => .ite ((loop_extends hle _).bind fun _ => .refl _) (.refl _)
    refine .ite ((Extends.refl _).bind fun _ => (Extends.refl _).bind fun _ => hclose) ?_
    exact (Extends.refl _).bind fun _ => hclose

/-- A node of a tree goes, and no other: with any bound on the loops the tree is as
it should be when `rbtree_delete` returns, and it returns if the bound is above the
number of nodes. -/
theorem rbtreeDelete_wellFormed (h : WellFormed t T) (hn : n ∈ T.toList) :
    (∀ fuel, Ensures (rbtreeDelete fuel (.node n)) t fun _ t' => ∃ T', Deleted t T n t' T') ∧
      ∀ fuel > T.toList.length, Runs (rbtreeDelete fuel (.node n)) t fun _ t' => ∃ T', Deleted t T n t' T' := by
  refine ⟨fun fuel => ?_, fun fuel hfuel => rbtreeDelete_runs h hn hfuel⟩
  have hmax : T.toList.length < max fuel (T.toList.length + 1) := by omega
  exact (rbtreeDelete_runs h hn hmax).ensures (rbtreeDelete_extends (Nat.le_max_left _ _) (.node n))

end Deletion

/-- Three black timers. -/
def threeTimers : RbTree Nat where
  root := .node 1
  heap
    | .null => {}
    | .sentinel => { left := .sentinel, right := .sentinel }
    | .node 0 => { key := 3, parent := .node 1, left := .sentinel, right := .sentinel }
    | .node 1 => { key := 5, left := .node 0, right := .node 2 }
    | .node _ => { key := 7, parent := .node 1, left := .sentinel, right := .sentinel }

theorem threeTimers_wellFormed : WellFormed threeTimers
    (.node .black (.node .black .leaf 0 .leaf) 1 (.node .black .leaf 2 .leaf)) where
  holds := ⟨rfl, by simp [Links, threeTimers, ptr], by decide⟩
  sound := ⟨rfl, 2, .black (.black .leaf .leaf) (.black .leaf .leaf)⟩
  sorted := by simp [Sorted, BinTree.toList, threeTimers]
  nilColor := rfl
  nilChild d := by cases d <;> rfl

/-- The root goes, its successor takes its place, and the lack of a black node
comes up to the root. -/
theorem rbtreeDelete_wellFormed_root :
    Runs (rbtreeDelete 4 (.node 1)) threeTimers fun _ t' => ∃ T', Deleted threeTimers
      (.node .black (.node .black .leaf 0 .leaf) 1 (.node .black .leaf 2 .leaf)) 1 t' T' :=
  (rbtreeDelete_wellFormed threeTimers_wellFormed (by decide)).2 4 (by decide)

end PWebServer
