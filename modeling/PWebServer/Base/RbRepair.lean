import PWebServer.Base.RbFocus

/-!
# Base.RbRepair

The last loop of `rbtree_delete`.  Below the focus a black node is missing;
every turn moves the lack one node up or makes up for it, and all it does to
the tree is paint and rotate.
-/

namespace PWebServer

open Program RedBlack

variable {ν : Type} [DecidableEq ν]

/-! ## the parts of a turn -/

/-- The last case of a turn: the far child of the sibling is red. -/
def deleteOuter (d : Dir) (temp w : Ptr ν) : RbM ν (Ptr ν) := do
  copyColor w (← getParent temp)
  paint (← getParent temp) .black
  paint (← getChild d.flip w) .black
  rotate d (← getParent temp)
  getRoot

/-- A turn with a black sibling. -/
def deleteBlack (d : Dir) (temp w : Ptr ν) : RbM ν (Ptr ν) := do
  let blackLeft ← isBlack (← getChild .left w)
  if ← (if blackLeft then isBlack =<< getChild .right w else pure false) then
    paint w .red
    getParent temp
  else if ← isBlack (← getChild d.flip w) then
    paint (← getChild d w) .black
    paint w .red
    rotate d.flip w
    deleteOuter d temp (← getChild d.flip (← getParent temp))
  else
    deleteOuter d temp w

theorem deleteTurn_eq (d : Dir) (temp : Ptr ν) : deleteTurn d temp = (do
    let w ← getChild d.flip (← getParent temp)
    if ← isRed w then
      paint w .black
      paint (← getParent temp) .red
      rotate d (← getParent temp)
      deleteBlack d temp (← getChild d.flip (← getParent temp))
    else
      deleteBlack d temp w) := rfl


section Turns

variable {t₀ t : RbTree ν} {ns : List ν} {d : Dir} {c : Color} {p m : ν} {a b T : BinTree ν} {z : Path ν}
  {f : Frame ν}

omit [DecidableEq ν] in
/-- What is at the focus knows the node above, also the sentinel. -/
theorem Reshaped.parentOf (h : Reshaped t₀ ns t (fill (f :: z) T))
    (hung : T = .leaf → (t₀.heap .sentinel).parent = .node f.node) :
    (t.heap (ptr T)).parent = .node f.node := by
  cases T with
  | leaf => exact (congrArg RbNode.parent h.sentinel).trans (hung rfl)
  | node c l n r => exact h.holds.parent rfl

/-- The far child of a black sibling is red. -/
theorem deleteOuter_runs (h : Reshaped t₀ ns t (fill (⟨d, c, p, .fork d .black m a b⟩ :: z) T))
    (hung : T = .leaf → (t₀.heap .sentinel).parent = .node p) (hb : b ≠ .leaf) :
    Runs (deleteOuter d (ptr T) (.node m)) t fun next t' =>
      next = t'.root ∧ Reshaped t₀ ns t' (fill z (.fork d c m (.fork d .black p T a) b.blacken)) := by
  obtain ⟨cb, x, l, r, rfl⟩ := BinTree.eq_fork d b hb
  simp only [deleteOuter, copyColor, runs_bind, runs_getParent, runs_loadNode, runs_getChild, runs_getRoot,
    h.parentOf hung, h.holds.frameColor]
  refine ⟨ptr_ne_null T, Ptr.node_ne_null, (h.paintSibling rfl c).imp fun _ t₁ h₁ => ?_⟩
  rw [h₁.parentOf hung]
  refine ⟨ptr_ne_null T, (h₁.paintTop .black).imp fun _ t₂ h₂ => ?_⟩
  -- the sibling's far child at the focus
  have h₂' : Reshaped t₀ ns t₂
      (fill (⟨d.flip, c, m, a⟩ :: ⟨d.flip, .black, p, T⟩ :: z) (.fork d cb x l r)) := by
    simpa only [fill_cons, Frame.fill, BinTree.fork_flip] using h₂
  have hfar : (t₂.heap (.node m)).child d.flip = .node x := h₂'.holds.child.trans (ptr_fork ..)
  rw [hfar]
  refine ⟨Ptr.node_ne_null, (h₂'.paint .black).imp fun _ t₃ h₃ => ?_⟩
  have h₃' : Reshaped t₀ ns t₃ (fill (⟨d, .black, p, .fork d c m a (.fork d .black x l r)⟩ :: z) T) := by
    simpa only [fill_cons, Frame.fill, BinTree.fork_flip] using h₃
  rw [h₃'.parentOf hung]
  refine ⟨ptr_ne_null T, (Reshaped.rotate h₃').imp fun _ t₄ h₄ => ⟨trivial, ?_⟩⟩
  rwa [BinTree.blacken_fork]

/-- The lack of a black node at the focus. -/
structure Lacking (t₀ : RbTree ν) (ns : List ν) (t : RbTree ν) (z : Path ν) (T : BinTree ν) : Prop where
  reshaped : Reshaped t₀ ns t (fill z T)
  fits : ∃ k, Short T k ∧ Accepts z (k + 1)
  hung : T = .leaf → ∃ f ∈ z.head?, (t₀.heap .sentinel).parent = .node f.node

omit [DecidableEq ν] in
theorem Reshaped.whole (h : Reshaped t₀ ns t T) (hsound : Sound T) (hT : T ≠ .leaf) :
    Lacking t₀ ns t [] T :=
  have ⟨_, k, hk⟩ := hsound
  ⟨h, ⟨k, hk.short, trivial⟩, fun hleaf => absurd hleaf hT⟩

omit [DecidableEq ν] in
/-- The colors of both children of the node at the focus. -/
theorem Holds.childColors {n : ν} (h : Holds t (fill z (.fork d c n a b)))
    (hnil : (t.heap .sentinel).color = .black) :
    (t.heap (ptr a)).color = a.color ∧ (t.heap (ptr b)).color = b.color := by
  refine ⟨Holds.color (z := ⟨d, c, n, b⟩ :: z) h hnil, Holds.color (z := ⟨d.flip, c, n, a⟩ :: z) ?_ hnil⟩
  rwa [fill_cons, Frame.fill, BinTree.fork_flip]

/-- The test for two black children looks at the left one first. -/
theorem Holds.blackChildren {n : ν} {Q : Bool → RbTree ν → Prop} (h : Holds t (fill z (.fork d c n a b)))
    (hnil : (t.heap .sentinel).color = .black)
    (hQ : Q (decide (a.color = .black ∧ b.color = .black)) t) :
    Runs (do
        let blackLeft ← isBlack (← getChild .left (.node n))
        if blackLeft then isBlack =<< getChild .right (.node n) else pure false) t Q := by
  obtain ⟨ha, hb⟩ := h.children
  obtain ⟨hca, hcb⟩ := h.childColors hnil
  simp only [Bool.decide_and] at hQ
  cases d with
  | left =>
      simp only [Dir.flip] at hb
      simp only [Bind.bindLeft, runs_bind, runs_getChild, runs_isBlack, ha, hca, runs_ite, runs_pure]
      cases hc : a.color <;> simp_all
  | right =>
      simp only [Dir.flip] at hb
      simp only [Bind.bindLeft, runs_bind, runs_getChild, runs_isBlack, hb, hcb, runs_ite, runs_pure]
      cases hc : b.color <;> simp_all

theorem deleteBlack_runs {k : Nat}
    (h : Reshaped t₀ ns t (fill (⟨d, c, p, .fork d .black m a b⟩ :: z) T))
    (hung : T = .leaf → (t₀.heap .sentinel).parent = .node p) (hT : Balanced T k)
    (hz : Accepts (⟨d, c, p, .fork d .black m a b⟩ :: z) (k + 1))
    (hnil : (t₀.heap .sentinel).color = .black) :
    Runs (deleteBlack d (ptr T) (.node m)) t fun next t' => 
      ∃ z' T', next = ptr T' ∧ Lacking t₀ ns t' z' T' ∧ (z' = [] ∨ z' = z ∧ T'.color = c) := by
  have hsib : Reshaped t₀ ns t (fill (⟨d.flip, c, p, T⟩ :: z) (.fork d .black m a b)) := by
    simpa only [fill_cons, Frame.fill, BinTree.fork_flip] using h
  have hchildren := hsib.holds.children
  have hcolors := hsib.holds.childColors (by rw [h.sentinel, hnil])
  have hnil' : (t.heap .sentinel).color = .black := by rw [h.sentinel, hnil]
  simp only [deleteBlack, runs_bind]
  have htest := fun Q => hsib.holds.blackChildren (Q := Q) hnil'
  simp only [runs_bind] at htest
  refine htest _ ?_
  simp only [runs_ite, decide_eq_true_eq]
  split
  next hblack =>
    obtain ⟨k', hshort, hz'⟩ := hz.blackNephews hT hblack.1 hblack.2
    rw [runs_bind]
    refine (h.paintSibling rfl .red).imp fun _ t₁ h₁ => ?_
    rw [runs_getParent, h₁.parentOf hung]
    refine ⟨ptr_ne_null T, z, .fork d c p T (.fork d .red m a b), (ptr_fork ..).symm, ?_, .inr ⟨rfl, ?_⟩⟩
    · exact ⟨h₁, ⟨k', hshort, hz'⟩, fun hleaf => (BinTree.fork_ne_leaf _ _ _ _ _ hleaf).elim⟩
    · exact BinTree.color_fork ..
  next hblack =>
    simp only [runs_bind, runs_getChild, hchildren.2, runs_isBlack, runs_ite, hcolors.2, decide_eq_true_eq]
    refine ⟨Ptr.node_ne_null, ptr_ne_null b, ?_⟩
    split
    next hb =>
      -- the red nephew is on the inner side
      have hared : a.color = .red := by
        cases hc : a.color with
        | red => rfl
        | black => exact absurd ⟨hc, hb⟩ hblack
      obtain ⟨ca, x, l, r, rfl⟩ := BinTree.eq_fork d a (BinTree.color_ne_red hared)
      obtain rfl : ca = .red := by simpa using hared
      rw [hchildren.1, ptr_fork]
      refine ⟨Ptr.node_ne_null, ?_⟩
      have hx : Reshaped t₀ ns t
          (fill (⟨d, .black, m, b⟩ :: ⟨d.flip, c, p, T⟩ :: z) (.fork d .red x l r)) := hsib
      refine (hx.paint .black).imp fun _ t₁ h₁ => (h₁.paintTop .red).imp fun _ t₂ h₂ => ?_
      have h₂' : Reshaped t₀ ns t₂ (fill (⟨d.flip, c, p, T⟩ :: z)
          (.fork d.flip .red m b (.fork d.flip .black x r l))) := by
        simpa only [fill_cons, Frame.fill, BinTree.fork_flip] using h₂
      refine h₂'.rotate.imp fun _ t₃ h₃ => ?_
      have h₃' : Reshaped t₀ ns t₃
          (fill (⟨d, c, p, .fork d .black x l (.fork d .red m r b)⟩ :: z) T) := by
        simpa only [fill_cons, Frame.fill, BinTree.fork_flip] using h₃
      have hsibling : (t₃.heap (.node p)).child d.flip = .node x := h₃'.holds.sibling.trans (ptr_fork ..)
      rw [runs_getParent, h₃'.parentOf hung, hsibling]
      refine ⟨ptr_ne_null T, Ptr.node_ne_null, ?_⟩
      refine (deleteOuter_runs h₃' hung (by simp)).imp fun next t' houter => ?_
      obtain ⟨hnext, h₄⟩ := houter
      have hsound := (hz.innerNephew hb).outerNephew hT (BinTree.color_fork ..)
      exact ⟨[], _, hnext.trans h₄.holds.root, h₄.whole hsound (fill_ne_leaf (by simp)), .inl rfl⟩
    next hb =>
      have hbred : b.color = .red := by
        cases hc : b.color with
        | red => rfl
        | black => exact absurd hc hb
      refine (deleteOuter_runs h hung (BinTree.color_ne_red hbred)).imp fun next t' houter => ?_
      obtain ⟨hnext, h₁⟩ := houter
      have hsound := hz.outerNephew hT hbred
      exact ⟨[], _, hnext.trans h₁.holds.root, h₁.whole hsound (fill_ne_leaf (by simp)), .inl rfl⟩

/-- One turn below a node on side `d`: the lack has gone up, or there is none. -/
theorem deleteTurn_runs {w : BinTree ν} (h : Lacking t₀ ns t (⟨d, c, p, w⟩ :: z) T)
    (hT : T.color = .black) (hnil : (t₀.heap .sentinel).color = .black) :
    Runs (deleteTurn d (ptr T)) t fun next t' =>
      ∃ z' T', next = ptr T' ∧ Lacking t₀ ns t' z' T' ∧ (T'.color = .red ∨ z'.length ≤ z.length) := by
  obtain ⟨hr, ⟨k, hshort, hz⟩, hung⟩ := h
  simp only [List.head?_cons, Option.mem_def, Option.some.injEq, exists_eq_left'] at hung
  have hkT := hshort.balanced hT
  have hwcolor : (t.heap (ptr w)).color = w.color := by
    have hholds := hr.holds
    rw [← fill_swap] at hholds
    exact hholds.color (by rw [hr.sentinel, hnil])
  have hw : w ≠ .leaf := by
    rintro rfl
    cases hz.1
  obtain ⟨cw, m, a, b, rfl⟩ := BinTree.eq_fork d w hw
  have hsibling : (t.heap (.node p)).child d.flip = .node m := hr.holds.sibling.trans (ptr_fork ..)
  rw [ptr_fork, BinTree.color_fork] at hwcolor
  simp only [deleteTurn_eq, runs_bind, runs_getParent, runs_getChild, runs_isRed, runs_ite,
    hr.parentOf hung, hsibling, hwcolor, decide_eq_true_eq]
  refine ⟨ptr_ne_null T, Ptr.node_ne_null, Ptr.node_ne_null, ?_⟩
  cases cw with
  | red =>
      -- the red sibling goes up and leaves a black one
      obtain ⟨ha, hz'⟩ := hz.redSibling
      rw [if_pos rfl]
      refine (hr.paintSibling rfl .black).imp fun _ t₁ h₁ => ?_
      rw [h₁.parentOf hung]
      refine ⟨ptr_ne_null T, (h₁.paintTop .red).imp fun _ t₂ h₂ => ?_⟩
      rw [h₂.parentOf hung]
      refine ⟨ptr_ne_null T, (Reshaped.rotate h₂).imp fun _ t₃ h₃ => ?_⟩
      have h₃' : Reshaped t₀ ns t₃ (fill (⟨d, .red, p, a⟩ :: ⟨d, .black, m, b⟩ :: z) T) := h₃
      obtain ⟨x, l, r, rfl, -⟩ := hz'.1.eq_fork_black ha d
      have hsibling' : (t₃.heap (.node p)).child d.flip = .node x := h₃'.holds.sibling.trans (ptr_fork ..)
      rw [h₃'.parentOf hung, hsibling']
      refine ⟨ptr_ne_null T, Ptr.node_ne_null, ?_⟩
      refine (deleteBlack_runs h₃' hung hkT hz' hnil).imp fun next t' hnext => ?_
      obtain ⟨z', T', hT', hlacking, rfl | ⟨-, hred⟩⟩ := hnext
      · exact ⟨[], T', hT', hlacking, .inr (Nat.zero_le _)⟩
      · exact ⟨z', T', hT', hlacking, .inl hred⟩
  | black =>
      rw [if_neg (by simp)]
      refine (deleteBlack_runs hr hung hkT hz hnil).imp fun next t' hnext => ?_
      obtain ⟨z', T', hT', hlacking, rfl | ⟨rfl, -⟩⟩ := hnext
      · exact ⟨[], T', hT', hlacking, .inr (Nat.zero_le _)⟩
      · exact ⟨z', T', hT', hlacking, .inr (Nat.le_refl _)⟩

omit [DecidableEq ν] in
/-- On which side of its parent the focus is, also when it is the sentinel. -/
theorem Lacking.child_eq_iff (h : Lacking t₀ ns t (f :: z) T) (hT : T.color = .black) (e : Dir) :
    ptr T = (t.heap (.node f.node)).child e ↔ e = f.dir := by
  obtain ⟨k, hshort, hz⟩ := h.fits
  constructor
  · intro hchild
    by_contra hne
    obtain rfl := Dir.eq_flip_of_ne hne
    cases T with
    | leaf =>
        have hsib := hchild.trans h.reshaped.holds.sibling
        obtain hleaf := ptr_eq_sentinel.mp hsib.symm
        have hbalanced := hz.1
        rw [hleaf] at hbalanced
        cases hbalanced
    | node c l n r => exact Dir.flip_ne _ ((h.reshaped.holds.child_eq_iff rfl _).mp hchild)
  · rintro rfl
    exact h.reshaped.holds.child.symm

omit [DecidableEq ν] in
theorem Lacking.root_ne (h : Lacking t₀ ns t (f :: z) T) : ptr T ≠ t.root := by
  cases T with
  | leaf =>
      rw [h.reshaped.holds.root]
      exact fun hroot => fill_ne_leaf (z := z) (BinTree.fork_ne_leaf f.dir f.color f.node _ f.sib) (ptr_eq_sentinel.mp hroot.symm)
  | node c l n r => exact (h.reshaped.holds.root_ne rfl).symm

/-- The loop stops at a red node or at the root, which the code then paints
black. -/
theorem deleteFix_runs {fuel : Nat} (h : Lacking t₀ ns t z T) (hfuel : z.length < fuel)
    (hnil : (t₀.heap .sentinel).color = .black) :
    Runs (deleteFix fuel (ptr T)) t fun last t' => ∃ z' T', last = ptr T' ∧ T' ≠ .leaf ∧
      Reshaped t₀ ns t' (fill z' T') ∧ Sound (fill z' T'.blacken) := by
  refine loop_runs (fun len temp s => ∃ z T, temp = ptr T ∧ Lacking t₀ ns s z T ∧
      len = if T.color = .red then 0 else z.length) ?_ fuel ⟨z, T, rfl, h, rfl⟩ ?_
  case refine_2 => split <;> omega
  rintro len temp s ⟨z, T, rfl, h, rfl⟩
  obtain ⟨k, hshort, hz⟩ := h.fits
  simp only [runs_bind, runs_getRoot, runs_ite, runs_getParent, runs_isBlack, runs_getChild, runs_pure]
  cases z with
  | nil =>
      have hT : T ≠ .leaf := fun hleaf => by simpa using h.hung hleaf
      rw [if_pos (show ptr T = s.root from h.reshaped.holds.root.symm)]
      exact ⟨[], T, rfl, hT, h.reshaped, hshort.sound hz (.inr rfl)⟩
  | cons f z =>
      have hcolor := h.reshaped.holds.color (by rw [h.reshaped.sentinel, hnil])
      rw [if_neg h.root_ne, hcolor]
      refine ⟨ptr_ne_null T, ?_⟩
      cases hc : T.color with
      | red =>
          rw [if_neg (by simp)]
          exact ⟨f :: z, T, rfl, BinTree.color_ne_red hc, h.reshaped, hshort.sound hz (.inl hc)⟩
      | black =>
          have hparent : (s.heap (ptr T)).parent = .node f.node :=
            h.reshaped.parentOf fun hleaf => by simpa using h.hung hleaf
          have hmeasure : ∀ next s', (∃ z' T', next = ptr T' ∧ Lacking t₀ ns s' z' T' ∧
              (T'.color = .red ∨ z'.length ≤ z.length)) → ∃ k' < (f :: z).length, ∃ z' T',
                next = ptr T' ∧ Lacking t₀ ns s' z' T' ∧ k' = if T'.color = .red then 0 else z'.length := by
            rintro next s' ⟨z', T', hnext, hlacking, hlen⟩
            refine ⟨_, ?_, z', T', hnext, hlacking, rfl⟩
            simp only [List.length_cons]
            split
            next => omega
            next hc' => exact Nat.lt_succ_of_le (hlen.resolve_left hc')
          simp only [decide_true, if_true, hparent, h.child_eq_iff hc .left, reduceCtorEq, if_false]
          refine ⟨ptr_ne_null T, Ptr.node_ne_null, ?_⟩
          obtain ⟨_ | _, c, p, w⟩ := f
          · rw [if_pos rfl]
            exact (deleteTurn_runs h hc hnil).imp hmeasure
          · rw [if_neg (by simp)]
            exact (deleteTurn_runs h hc hnil).imp hmeasure

end Turns

end PWebServer
