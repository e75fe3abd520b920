import PWebServer.Base.RbDelete
import PWebServer.Lib.Machine

/-!
# Base.RbAgain

`rbtree_delete` of a node that has been deleted before.  The node is outside of
the tree and its pointers lead to the sentinel: the unlinking and the loop work on
the sentinel alone, which is painted red and black again.
-/

namespace PWebServer

open Program RedBlack

variable {ν : Type} [DecidableEq ν]

/-- Nothing has changed but the parent of the sentinel. -/
structure TreeUntouched (t t' : RbTree ν) : Prop where
  root : t'.root = t.root
  node : ∀ m, t'.heap (.node m) = t.heap (.node m)
  nilColor : (t'.heap .sentinel).color = (t.heap .sentinel).color
  nilChild : ∀ d, (t'.heap .sentinel).child d = (t.heap .sentinel).child d

section Again

variable {t t' : RbTree ν} {T : BinTree ν} {n : ν} {fuel : Nat}

omit [DecidableEq ν] in
theorem TreeUntouched.wellFormed (h : TreeUntouched t t') (hT : WellFormed t T) : WellFormed t' T :=
  hT.frame h.root (fun m _ => h.node m) h.nilColor h.nilChild

omit [DecidableEq ν] in
theorem TreeUntouched.cleared (h : TreeUntouched t t') (hn : Cleared t n) : Cleared t' n := by
  rwa [Cleared, h.node]

/-- The sentinel as its own parent, in a color. -/
def ownParent (t : RbTree ν) (c : Color) : RbTree ν :=
  { t with heap := Function.update t.heap .sentinel { t.heap .sentinel with parent := .sentinel, color := c } }

@[simp] theorem ownParent_root (t : RbTree ν) (c : Color) : (ownParent t c).root = t.root := rfl

@[simp] theorem ownParent_node (t : RbTree ν) (c : Color) (m : ν) :
    (ownParent t c).heap (.node m) = t.heap (.node m) := by
  simp [ownParent]

@[simp] theorem ownParent_parent (t : RbTree ν) (c : Color) : ((ownParent t c).heap .sentinel).parent = .sentinel := by
  simp [ownParent]

@[simp] theorem ownParent_color (t : RbTree ν) (c : Color) : ((ownParent t c).heap .sentinel).color = c := by
  simp [ownParent]

@[simp] theorem ownParent_child (t : RbTree ν) (c : Color) (d : Dir) :
    ((ownParent t c).heap .sentinel).child d = (t.heap .sentinel).child d := by
  cases d <;> simp [ownParent, RbNode.child]

theorem paint_ownParent_runs {c c' : Color} {Q : Unit → RbTree ν → Prop} :
    Runs (paint .sentinel c') (ownParent t c) Q ↔ Q () (ownParent t c') := by
  rw [paint, runs_storeNode]
  simp [ownParent, RbNode.setColor, Ptr.sentinel_ne_null]

theorem ownParent_untouched (t : RbTree ν) : TreeUntouched t (ownParent t (t.heap .sentinel).color) where
  root := rfl
  node := ownParent_node t _
  nilColor := by simp
  nilChild := ownParent_child t _

/-- A turn of the loop at the sentinel paints it red. -/
theorem deleteTurn_sentinel_runs {Q : Ptr ν → RbTree ν → Prop} (hchild : ∀ d, (t.heap .sentinel).child d = .sentinel) :
    Runs (deleteTurn .left .sentinel) (ownParent t .black) Q ↔ Q .sentinel (ownParent t .red) := by
  have hne : (Ptr.sentinel : Ptr ν) ≠ .null := Ptr.sentinel_ne_null
  have hbind : isBlack =<< getChild .right (.sentinel : Ptr ν) = getChild .right .sentinel >>= isBlack := rfl
  simp only [deleteTurn, runs_bind, runs_getParent, runs_getChild, runs_isRed, runs_isBlack, ownParent_child, hchild,
    ownParent_parent, ownParent_color, runs_ite, runs_pure, paint_ownParent_runs, ne_eq, hne, not_false_eq_true,
    true_and, hbind, reduceCtorEq, decide_false, decide_true, if_true, Bool.false_eq_true, if_false]

/-- The loop, started at the sentinel: after one turn the sentinel is red. -/
theorem deleteFix_sentinel_runs (hchild : ∀ d, (t.heap .sentinel).child d = .sentinel) (hfuel : 2 ≤ fuel) :
    Runs (do paint (← deleteFix fuel .sentinel) .black) (ownParent t .black) fun _ t' => t' = ownParent t .black := by
  obtain ⟨k, rfl⟩ : ∃ k, fuel = k + 2 := ⟨fuel - 2, by omega⟩
  have hne : (Ptr.sentinel : Ptr ν) ≠ .null := Ptr.sentinel_ne_null
  by_cases hroot : t.root = .sentinel
  · simp [deleteFix, loop, runs_ite, hroot, paint_ownParent_runs]
  · simp only [deleteFix, loop, runs_bind, runs_getRoot, runs_ite, ownParent_root, Ne.symm hroot, if_false, runs_isBlack,
      ownParent_color, decide_true, if_true, runs_getParent, ownParent_parent, runs_getChild, ownParent_child, hchild,
      deleteTurn_sentinel_runs hchild, runs_pure, ne_eq, hne, not_false_eq_true, true_and, reduceCtorEq, decide_false,
      Bool.false_eq_true, paint_ownParent_runs]

/-- A node that is cleared stays as it is. -/
theorem cleared_of_cleared (hc : Cleared t n) : cleared t n = t := by
  obtain ⟨hleft, hright, hparent, hkey⟩ := hc
  have hsame : (⟨0, .sentinel, .sentinel, .sentinel, (t.heap (.node n)).color⟩ : RbNode ν) = t.heap (.node n) := by
    cases hnode : t.heap (.node n) with
    | mk key parent left right color =>
        rw [hnode] at hleft hright hparent hkey
        simp_all
  rw [cleared, hsame, Function.update_eq_self]

/-- `rbtree_delete` of a node that is outside of the tree and as `rbtree_delete` has
left it. -/
theorem rbtreeDelete_cleared_runs (h : WellFormed t T) (hn : n ∉ T.toList) (hc : Cleared t n) (hfuel : 2 ≤ fuel) :
    Runs (rbtreeDelete fuel (.node n)) t fun _ t' => TreeUntouched t t' := by
  have hroot : .node n ≠ t.root := by
    rw [h.holds.root]
    cases T with
    | leaf => exact Ptr.node_ne_sentinel
    | node c l m r =>
        rintro ⟨⟩
        exact hn (by simp [BinTree.toList])
  have hchild : ∀ d, (t.heap (.node n)).child d = .sentinel := fun d => by
    cases d
    · exact hc.1
    · exact hc.2.1
  have hnil : ∀ d, (t.heap .sentinel).child d = .sentinel := h.nilChild
  have hown : TreeUntouched t (ownParent t .black) := h.nilColor ▸ ownParent_untouched t
  have hright : Function.update t.heap .sentinel ((t.heap .sentinel).setChild .right .sentinel) = t.heap := by
    have hsame : (t.heap .sentinel).setChild .right .sentinel = t.heap .sentinel := by
      have hnilRight : (t.heap .sentinel).right = .sentinel := hnil .right
      cases hsentinel : t.heap .sentinel with
      | mk key parent left right color =>
          rw [hsentinel] at hnilRight
          rw [RbNode.setChild, ← hnilRight]
    rw [hsame, Function.update_eq_self]
  have hparent : { t with heap := Function.update t.heap .sentinel ((t.heap .sentinel).setParent .sentinel) } =
      ownParent t .black := by
    rw [ownParent, ← h.nilColor]
    rfl
  rw [rbtreeDelete_eq]
  simp only [selectSubst, detach, runs_bind, runs_getChild, hchild, runs_ite, if_true, runs_pure, runs_getRoot,
    if_neg hroot, runs_isRed, unlink, runs_getParent, hc.2.2.1, hnil, if_neg Ptr.node_ne_sentinel, setChild, setParent,
    runs_storeNode, hright, hparent, closeGap, clearNode_runs, cleared_of_cleared (hown.cleared hc)]
  refine ⟨Ptr.node_ne_null, Ptr.node_ne_null, Ptr.node_ne_null, Ptr.node_ne_null, Ptr.sentinel_ne_null,
    Ptr.node_ne_null, Ptr.sentinel_ne_null, Ptr.node_ne_null, Ptr.sentinel_ne_null, ?_⟩
  cases (t.heap (.node n)).color with
  | red => simpa using hown
  | black =>
      simp only [reduceCtorEq, decide_false, Bool.not_false, if_true]
      exact runs_bind.mp ((deleteFix_sentinel_runs hnil hfuel).imp fun _ t' heq => heq ▸ hown)

end Again

/-! ## a node that has been removed -/

/-- What is done with a tree; the key of a node is set before it is inserted. -/
inductive TreeOp (ν : Type) where
  | insert (fuel : Nat) (m : ν) (key : BitVec 32)
  | delete (fuel : Nat) (m : ν)

/-- `ev->timer.key = key` and `rbtree_insert`, as `event_add_timer` has them. -/
def insertKey (fuel : Nat) (m : ν) (key : BitVec 32) : RbM ν Unit := do
  setKey (.node m) key
  rbtreeInsert fuel (.node m)

/-- One operation. -/
def treeStep (t : RbTree ν) : TreeOp ν → Option (RbTree ν)
  | .insert fuel m key => (insertKey fuel m key t).toOption.map (·.2)
  | .delete fuel m => (rbtreeDelete fuel (.node m) t).toOption.map (·.2)

/-- The node is one of the tree. -/
def RbTree.Has (t : RbTree ν) (m : ν) : Prop := ∃ T, Holds t T ∧ m ∈ T.toList

/-- Nodes outside of the tree are inserted, but for `n`; those of the tree, and those
that have been deleted, are deleted. -/
def treeAllows (n : ν) (t : RbTree ν) : TreeOp ν → Prop
  | .insert _ m _ => m ≠ n ∧ ¬t.Has m
  | .delete _ m => t.Has m ∨ Cleared t m

/-- `n` has been deleted from a well-formed tree. -/
def JustRemoved (n : ν) (t : RbTree ν) : Prop :=
  ∃ t₀ T₀ fuel, WellFormed t₀ T₀ ∧ n ∈ T₀.toList ∧ rbtreeDelete fuel (.node n) t₀ = .ok ((), t)

/-- The trees after the removal of `n`, which is not inserted again. -/
def treesWithout (n : ν) : Machine (RbTree ν) (TreeOp ν) where
  init := JustRemoved n
  allows := treeAllows n
  step := treeStep

section Removed

variable {t t' : RbTree ν} {T : BinTree ν} {n m : ν} {fuel : Nat}

/-- The node is outside of a well-formed tree, as it was left by its deletion. -/
structure Removed (n : ν) (t : RbTree ν) (T : BinTree ν) : Prop where
  wellFormed : WellFormed t T
  notMem : n ∉ T.toList
  cleared : Cleared t n

omit [DecidableEq ν] in
theorem has_iff (h : Holds t T) : t.Has m ↔ m ∈ T.toList :=
  ⟨fun ⟨_, hT, hm⟩ => hT.unique h ▸ hm, fun hm => ⟨T, h, hm⟩⟩

omit [DecidableEq ν] in
theorem Deleted.removed {T' : BinTree ν} (h : WellFormed t T) (hd : Deleted t T n t' T') : Removed n t' T' := by
  obtain ⟨l, r, hold, hnew⟩ := hd.nodes
  have hnodup := h.holds.nodup
  rw [hold, List.nodup_middle, List.nodup_cons] at hnodup
  exact ⟨hd.wellFormed, hnew ▸ hnodup.1, hd.cleared⟩

omit [DecidableEq ν] in
/-- Another node is deleted. -/
theorem Removed.delete {T' : BinTree ν} (h : Removed n t T) (hd : Deleted t T m t' T') : Removed n t' T' := by
  obtain ⟨l, r, hold, hnew⟩ := hd.nodes
  have hsub : T'.toList ⊆ T.toList := by
    rw [hold, hnew]
    exact ((List.sublist_cons_self m r).append_left l).subset
  have hsame : t'.heap (.node n) = t.heap (.node n) :=
    hd.without.heap _ Ptr.node_ne_sentinel fun k hk heq => h.notMem (by cases heq; exact hk)
  exact ⟨hd.wellFormed, fun hn => h.notMem (hsub hn), by rw [Cleared, hsame]; exact h.cleared⟩

/-- The key of a node outside of the tree is set and the node is inserted. -/
theorem insertKey_runs (h : WellFormed t T) (hm : m ∉ T.toList) (hfuel : T.toList.length < fuel) (key : BitVec 32) :
    Runs (insertKey fuel m key) t fun _ t' =>
      ∃ T', Inserted { t with heap := Function.update t.heap (.node m) ((t.heap (.node m)).setKey key) } T m t' T' := by
  simp only [insertKey, runs_bind, setKey, runs_storeNode]
  refine ⟨Ptr.node_ne_null, rbtreeInsert_runs ?_ hm hfuel⟩
  exact h.frame rfl (update_nodes hm) (by simp) (by simp)

theorem insertKey_extends {fuel fuel' : Nat} (hle : fuel ≤ fuel') (m : ν) (key : BitVec 32) :
    Extends (insertKey fuel m key) (insertKey fuel' m key) :=
  (Extends.refl _).bind fun _ => rbtreeInsert_extends hle _

/-- Another node is inserted. -/
theorem Removed.insert {T' : BinTree ν} {r : RbNode ν} (h : Removed n t T) (hmn : m ≠ n)
    (hi : Inserted { t with heap := Function.update t.heap (.node m) r } T m t' T') : Removed n t' T' := by
  obtain ⟨l, r', hold, hnew, -⟩ := hi.place
  have hnode : Ptr.node n ≠ .node m := fun heq => hmn (by cases heq; rfl)
  have hsame : t'.heap (.node n) = t.heap (.node n) := by
    rw [hi.kept.heap (.node n) fun k hk heq => ?_]
    · exact Function.update_of_ne hnode _ _
    · cases heq
      obtain rfl | hk := List.mem_cons.mp hk
      · exact hmn rfl
      · exact h.notMem hk
  refine ⟨hi.wellFormed, fun hn => h.notMem ?_, by rw [Cleared, hsame]; exact h.cleared⟩
  rw [hnew] at hn
  rw [hold]
  obtain hn | hn := List.mem_append.mp hn
  · exact List.mem_append_left r' hn
  · obtain rfl | hn := List.mem_cons.mp hn
    · exact absurd rfl hmn
    · exact List.mem_append_right l hn

theorem treesWithout_removed (h : (treesWithout n).Reaches t) : ∃ T, Removed n t T := by
  refine h.invariant (I := fun t => ∃ T, Removed n t T) ?_ ?_
  · rintro t ⟨t₀, T₀, fuel, hT₀, hn, hdelete⟩
    have hmax : T₀.toList.length < max fuel (T₀.toList.length + 1) := by omega
    have hrun : (rbtreeDelete fuel (.node n) t₀).toOption = some ((), t) := by rw [hdelete]; rfl
    obtain ⟨T, hdeleted⟩ := (rbtreeDelete_extends (Nat.le_max_left _ _) (.node n)).post
      (rbtreeDelete_runs hT₀ hn hmax) hrun
    exact ⟨T, hdeleted.removed hT₀⟩
  · rintro t op t' ⟨T, hremoved⟩ hallows hstep
    have hT := hremoved.wellFormed
    have hmax : ∀ fuel, T.toList.length < max fuel (T.toList.length + 2) := fun fuel => by omega
    cases op with
    | insert fuel m key =>
        obtain ⟨⟨a, t₁⟩, hrun, rfl⟩ := Option.map_eq_some_iff.mp hstep
        obtain ⟨T', hinserted⟩ := (insertKey_extends (Nat.le_max_left _ _) m key).post
          (insertKey_runs hT (mt (has_iff hT.holds).mpr hallows.2) (hmax fuel) key) hrun
        exact ⟨T', hremoved.insert hallows.1 hinserted⟩
    | delete fuel m =>
        obtain ⟨⟨a, t₁⟩, hrun, rfl⟩ := Option.map_eq_some_iff.mp hstep
        have hextends := rbtreeDelete_extends (Nat.le_max_left fuel (T.toList.length + 2)) (.node m)
        by_cases hm : m ∈ T.toList
        · obtain ⟨T', hdeleted⟩ := hextends.post (rbtreeDelete_runs hT hm (hmax fuel)) hrun
          exact ⟨T', hremoved.delete hdeleted⟩
        · have hcleared := hallows.resolve_left (mt (has_iff hT.holds).mp hm)
          have huntouched := hextends.post
            (rbtreeDelete_cleared_runs hT hm hcleared (by omega)) hrun
          exact ⟨T, huntouched.wellFormed hT, hremoved.notMem, huntouched.cleared hremoved.cleared⟩

/-- To delete a node that has been deleted changes nothing, whatever has been done
with the tree in between. -/
theorem rbtreeDelete_again (h : (treesWithout n).Reaches t) (hfuel : 2 ≤ fuel) :
    (∃ T, WellFormed t T ∧ n ∉ T.toList) ∧ Runs (rbtreeDelete fuel (.node n)) t fun _ t' => TreeUntouched t t' := by
  obtain ⟨T, hremoved⟩ := treesWithout_removed h
  exact ⟨⟨T, hremoved.wellFormed, hremoved.notMem⟩,
    rbtreeDelete_cleared_runs hremoved.wellFormed hremoved.notMem hremoved.cleared hfuel⟩

end Removed

/-- The root of three timers is deleted twice. -/
theorem rbtreeDelete_again_root : ∃ t, (treesWithout 1).Reaches t ∧
    (∃ T, WellFormed t T ∧ 1 ∉ T.toList) ∧ Runs (rbtreeDelete 2 (.node 1)) t fun _ t' => TreeUntouched t t' := by
  have hroot : (1 : Nat) ∈ (BinTree.node .black (.node .black .leaf 0 .leaf) 1 (.node .black .leaf 2 .leaf)).toList := by
    decide
  obtain ⟨a, t, hdelete, -⟩ := rbtreeDelete_runs threeTimers_wellFormed hroot (Nat.lt_succ_self 3)
  have ht : (treesWithout 1).Reaches t := .init ⟨_, _, 4, threeTimers_wellFormed, by decide, hdelete⟩
  exact ⟨t, ht, rbtreeDelete_again ht (Nat.le_refl 2)⟩

end PWebServer
