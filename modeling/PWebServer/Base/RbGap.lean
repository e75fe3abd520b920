import PWebServer.Base.RbRepair

/-!
# Base.RbGap

What `rbtree_delete` does before that loop: a node with one child at most is
taken out (`Spliced`), and where it was the successor of the deleted node it
takes over the place of that node (`Transplanted`).
-/

namespace PWebServer

open Program RedBlack

variable {ν : Type} [DecidableEq ν]

/-! ## what is left of the old tree -/

/-- What `t'` still has of `t` when `n` has been taken out of a tree with the
nodes `ns`: the sentinel may have another parent. -/
structure Without (ns : List ν) (n : ν) (t t' : RbTree ν) : Prop where
  key : ∀ p, p ≠ .node n → (t'.heap p).key = (t.heap p).key
  heap : ∀ p, p ≠ .sentinel → (∀ m ∈ ns, p ≠ .node m) → t'.heap p = t.heap p
  nilColor : (t'.heap .sentinel).color = (t.heap .sentinel).color
  nilChild : ∀ d, (t'.heap .sentinel).child d = (t.heap .sentinel).child d

section Without

variable {t t' t'' : RbTree ν} {ns ms : List ν} {n : ν}

omit [DecidableEq ν] in
theorem Without.trans (h : Without ns n t t') (h' : Without ns n t' t'') : Without ns n t t'' where
  key p hp := (h'.key p hp).trans (h.key p hp)
  heap p hp hns := (h'.heap p hp hns).trans (h.heap p hp hns)
  nilColor := h'.nilColor.trans h.nilColor
  nilChild d := (h'.nilChild d).trans (h.nilChild d)

omit [DecidableEq ν] in
theorem Kept.without (h : Kept ms t t') (hsub : ms ⊆ ns) : Without ns n t t' where
  key p _ := h.key p
  heap p _ hns := h.heap p fun m hm => hns m (hsub hm)
  nilColor := by rw [h.heap .sentinel (by simp)]
  nilChild d := by rw [h.heap .sentinel (by simp)]

/-- The state with a cleared node. -/
def cleared (t : RbTree ν) (n : ν) : RbTree ν :=
  let r := t.heap (.node n)
  { t with heap := Function.update t.heap (.node n) ⟨0, .sentinel, .sentinel, .sentinel, r.color⟩ }

/-- `clearNode` writes to its node only. -/
theorem clearNode_runs {Q : Unit → RbTree ν → Prop} :
    Runs (clearNode (.node n)) t Q ↔ Q () (cleared t n) := by
  simp [cleared, clearNode, setChild, setParent, setKey, RbNode.setChild, RbNode.setParent, RbNode.setKey]

end Without

/-- The deleted node as the code leaves it. -/
def Cleared (t : RbTree ν) (n : ν) : Prop :=
  (t.heap (.node n)).left = .sentinel ∧ (t.heap (.node n)).right = .sentinel ∧
    (t.heap (.node n)).parent = .sentinel ∧ (t.heap (.node n)).key = 0

/-- The end of `rbtree_delete`. -/
def closeGap (fuel : Nat) (red : Bool) (node temp : Ptr ν) : RbM ν Unit := do
  clearNode node
  if !red then
    paint (← deleteFix fuel temp) .black

/-- The end of a deletion: the node is cleared and the loop repairs the tree. -/
theorem repair_runs {t : RbTree ν} {n : ν} {z : Path ν} {q : BinTree ν} {red : Bool} {fuel : Nat}
    {ns : List ν} (h : Holds t (fill z q)) (hn : n ∉ (fill z q).toList) (hnns : n ∈ ns)
    (hsub : (fill z q).toList ⊆ ns) (hnil : (t.heap .sentinel).color = .black)
    (hred : red = true → Sound (fill z q))
    (hblack : red = false → ∃ k, Short q k ∧ Accepts z (k + 1))
    (hung : red = false → q = .leaf → ∃ f ∈ z.head?, (t.heap .sentinel).parent = .node f.node)
    (hfuel : z.length < fuel) :
    Runs (closeGap fuel red (.node n) (ptr q)) t fun _ t' =>
      ∃ R, Holds t' R ∧ Sound R ∧ R.toList = (fill z q).toList ∧ Without ns n t t' ∧ Cleared t' n := by
  rw [closeGap, runs_bind, clearNode_runs]
  generalize ht₁ : cleared t n = t₁
  have hheap : t₁.heap = Function.update t.heap (.node n)
    ⟨0, .sentinel, .sentinel, .sentinel, (t.heap (.node n)).color⟩ := by rw [← ht₁, cleared]
  have hsame : ∀ m ∈ (fill z q).toList, t₁.heap (.node m) = t.heap (.node m) :=
    hheap ▸ update_nodes hn
  have h₁ : Holds t₁ (fill z q) := ⟨ht₁ ▸ h.root, h.links.frame hsame h.nodup, h.nodup⟩
  have hother : ∀ p, p ≠ .node n → t₁.heap p = t.heap p := fun p hp => by
    rw [hheap, Function.update_of_ne hp]
  have hsentinel : t₁.heap .sentinel = t.heap .sentinel := hother _ Ptr.sentinel_ne_node
  have hwithout : Without ns n t t₁ :=
    ⟨fun p hp => congrArg RbNode.key (hother p hp), fun p _ hns => hother p (hns n hnns),
      by rw [hsentinel], by simp [hsentinel]⟩
  have hcleared : Cleared t₁ n := by simp [Cleared, hheap]
  cases red with
  | true => exact runs_pure.mpr ⟨_, h₁, hred rfl, rfl, hwithout, hcleared⟩
  | false =>
      simp only [Bool.not_false, if_true, runs_bind]
      have hlacking : Lacking t₁ (fill z q).toList t₁ z q :=
        ⟨h₁.reshaped, hblack rfl, fun hleaf => by simpa [hsentinel] using hung rfl hleaf⟩
      refine (deleteFix_runs hlacking hfuel (by rw [hsentinel, hnil])).imp fun last t₂ hlast => ?_
      obtain ⟨z', T', rfl, hT', hr, hsound⟩ := hlast
      obtain ⟨c, m, a, b, rfl⟩ := BinTree.eq_fork .left T' hT'
      rw [ptr_fork]
      refine (hr.paint .black).imp fun _ t₃ h₃ => ?_
      rw [BinTree.blacken_fork] at hsound
      have hn₃ : t₃.heap (.node n) = t₁.heap (.node n) :=
        h₃.kept.heap _ fun m hm heq => hn (by cases heq; exact hm)
      refine ⟨_, h₃.holds, hsound, h₃.nodes, hwithout.trans (h₃.kept.without hsub), ?_⟩
      rwa [Cleared, hn₃]

/-! ## the gap -/

/-- `temp` takes the place of `subst` under its parent. -/
def unlink (subst temp : Ptr ν) : RbM ν Unit := do
  if subst = (← getChild .left (← getParent subst)) then
    setChild .left (← getParent subst) temp
  else
    setChild .right (← getParent subst) temp

/-- The subtree `a` takes the place of a node below `f`; its root is told the
parent `p`. -/
structure Spliced (t : RbTree ν) (f : Frame ν) (a : BinTree ν) (p : Ptr ν) (t' : RbTree ν) : Prop where
  root : t'.root = t.root
  holder : t'.heap (.node f.node) = (t.heap (.node f.node)).setChild f.dir (ptr a)
  child : t'.heap (ptr a) = (t.heap (ptr a)).setParent p
  rest : ∀ x, x ≠ .node f.node → x ≠ ptr a → t'.heap x = t.heap x

/-- A tree but for the parent pointers of the children of `n`. -/
structure Loose (t : RbTree ν) (z : Path ν) (c : Color) (l : BinTree ν) (n : ν) (r : BinTree ν) : Prop where
  root : t.root = ptr (fill z (.node c l n r))
  color : (t.heap (.node n)).color = c
  left : (t.heap (.node n)).left = ptr l
  right : (t.heap (.node n)).right = ptr r
  links : Links t.heap l ∧ Links t.heap r
  path : PathLinks t.heap z (.node c l n r)
  nodup : (fill z (.node c l n r)).toList.Nodup

section Gap

variable {t t' : RbTree ν} {f : Frame ν} {z : Path ν} {d : Dir} {c : Color} {n s : ν} {a l r T : BinTree ν}
  {q p : Ptr ν} {ns : List ν}

theorem unlink_runs (h : Holds t (fill (f :: z) T)) (hs : ptr T = .node s)
    {Q : Unit → RbTree ν → Prop} :
    Runs (unlink (.node s) q) t Q ↔ Q () (relinked t q (f :: z)) := by
  have hparent := h.parent hs
  simp only [unlink, runs_bind, runs_getParent, runs_getChild, runs_ite, setChild, runs_storeNode, hparent,
    h.child_eq_iff hs]
  obtain ⟨_ | _, c, m, w⟩ := f <;> simp [relinked]

/-- With the new parent the subtree is spliced in. -/
theorem spliced_runs (hfa : ptr a ≠ .node f.node) :
    Runs (setParent (ptr a) p) (relinked t (ptr a) (f :: z)) fun _ t' => Spliced t f a p t' := by
  rw [setParent, runs_storeNode]
  refine ⟨ptr_ne_null a, rfl, ?_, ?_, fun x hxf hxa => ?_⟩
  · simp [relinked, Function.update_of_ne hfa.symm]
  · simp [relinked, Function.update_of_ne hfa]
  · simp [relinked, Function.update_of_ne hxa, Function.update_of_ne hxf]

omit [DecidableEq ν] in
theorem Spliced.without (h : Spliced t f a p t') (hf : f.node ∈ ns) (ha : a.toList ⊆ ns) :
    Without ns n t t' := by
  have hall : ∀ x, (t'.heap x).key = (t.heap x).key ∧ (x = .sentinel →
      (t'.heap x).color = (t.heap x).color ∧ ∀ d, (t'.heap x).child d = (t.heap x).child d) := by
    intro x
    by_cases hxf : x = .node f.node
    · simp [hxf, h.holder]
    by_cases hxa : x = ptr a
    · simp [hxa, h.child]
    · simp [h.rest x hxf hxa]
  refine ⟨fun x _ => (hall x).1, fun x hx hns => h.rest x (hns _ hf) ?_, ((hall _).2 rfl).1,
    ((hall _).2 rfl).2⟩
  rintro rfl
  cases a with
  | leaf => exact hx rfl
  | node c l m r => exact hns m (ha (by simp [BinTree.toList])) rfl

omit [DecidableEq ν] in
theorem Apart.nodup_left (h : Apart z n a T) : (fill z a).toList.Nodup :=
  (toList_fill_perm _ _).nodup_iff.mpr <|
    List.nodup_append.mpr ⟨h.leftNodup, h.aboveNodup, fun x hx _ hy hxy => h.leftAbove x hx (hxy ▸ hy)⟩

omit [DecidableEq ν] in
/-- The subtree itself, but for the parent of its root. -/
theorem Spliced.links (h : Spliced t f a p t') (ha : Links t.heap a) (hnodup : a.toList.Nodup)
    (hf : f.node ∉ a.toList) : Links t'.heap a := by
  have hrest : ∀ m ∈ a.toList, ptr a ≠ .node m → t'.heap (.node m) = t.heap (.node m) :=
    fun m hm hma => h.rest _ (by rintro ⟨⟩; exact hf hm) hma.symm
  refine links_congr (fun m hm => ?_) (fun m hm hma => by rw [hrest m hm hma]) hnodup ha
  by_cases hma : ptr a = .node m
  · rw [← hma, h.child]
    simp [RbNode.setParent]
  · simp [hrest m hm hma]

omit [DecidableEq ν] in
theorem Spliced.holds (hspl : Spliced t f a (.node f.node) t')
    (h : Holds t (fill (f :: z) (.fork d c s a .leaf))) : Holds t' (fill (f :: z) a) := by
  have hapart := apart_of_nodup h.nodup
  obtain ⟨hlinks, hpath⟩ := links_fill.mp h.links
  obtain ⟨-, -, -, -, -, ha, -⟩ := links_fork.mp hlinks
  have hfa : f.node ∉ a.toList := fun hf => hapart.leftAbove _ hf (by simp [outside])
  refine ⟨(hspl.root.trans h.root).trans (ptr_fill_cons ..), links_fill.mpr ⟨?_, ?_⟩, ?_⟩
  · exact hspl.links ha hapart.leftNodup hfa
  · refine pathLinks_relink (fun g hg => ?_) (fun m hm hmf => ?_) (fun g hg hne => ?_) hapart.aboveNodup
      hpath
    · cases hg
      exact hspl.holder
    · refine hspl.rest _ (by simpa using hmf f rfl) (ptr_ne_node fun hma => ?_).symm
      exact hapart.leftAbove m hma hm
    · cases hg
      rw [hspl.child]
      rfl
  · exact hapart.nodup_left

omit [DecidableEq ν] in
theorem Holds.loose (h : Holds t (fill z (.node c l n r))) : Loose t z c l n r :=
  have ⟨⟨hc, hl, hr, _, _, hlinksl, hlinksr⟩, hpath⟩ := links_fill.mp h.links
  ⟨h.root, hc, hl, hr, ⟨hlinksl, hlinksr⟩, hpath, h.nodup⟩

omit [DecidableEq ν] in
/-- Right below the node whose place the successor is to take. -/
theorem Spliced.loose (hspl : Spliced t ⟨.right, c, n, l⟩ a p t')
    (h : Holds t (fill (⟨.right, c, n, l⟩ :: z) (.fork d c' s a .leaf))) : Loose t' z c l n a := by
  have hapart := apart_of_nodup h.nodup
  obtain ⟨hlinks, hc, -, hleft, -, -, hl, hpath⟩ := links_fill.mp h.links
  obtain ⟨-, -, -, -, -, ha, -⟩ := links_fork.mp hlinks
  have hout := hapart.leftAbove
  have habove := hapart.aboveNodup
  simp only [outside, List.mem_cons, List.mem_append, not_or, List.nodup_cons] at hout habove
  obtain ⟨⟨hnl, hnz⟩, hlz⟩ := habove
  obtain ⟨hldup, hzdup, -⟩ := List.nodup_append.mp hlz
  have hna : n ∉ a.toList := fun hn => (hout n hn).1 rfl
  have hsame : ∀ m, m ∈ l.toList ∨ m ∈ outside z → t'.heap (.node m) = t.heap (.node m) := by
    intro m hm
    refine hspl.rest _ ?_ (ptr_ne_node fun hma => ?_).symm
    · rintro ⟨⟩
      exact hm.elim hnl hnz
    · exact hm.elim (hout m hma).2.1 (hout m hma).2.2
  have hover := hspl.holder
  refine ⟨(hspl.root.trans h.root).trans (ptr_fill_cons ..), ?_, ?_, ?_, ⟨?_, ?_⟩, ?_, hapart.nodup_left⟩
  · simpa [hover] using hc
  · rw [hover]
    exact hleft
  · simp [hover, RbNode.setChild]
  · exact hl.frame (fun m hm => hsame m (.inl hm)) hldup
  · exact hspl.links ha hapart.leftNodup hna
  · refine pathLinks_congr (fun m hm => hsame m (.inr hm)) ?_ ?_ hzdup hpath
    · simp [Frame.fill, BinTree.node_eq_fork]
    · simp [Frame.fill, hover]

end Gap

/-! ## the successor in the place of the node -/

/-- The second half of `replaceBySubst`. -/
def transplant (node subst : Ptr ν) : RbM ν Unit := do
  setChild .left subst (← getChild .left node)
  setChild .right subst (← getChild .right node)
  setParent subst (← getParent node)
  copyColor subst node
  relink .left node subst
  adopt (← getChild .left subst) subst
  adopt (← getChild .right subst) subst

theorem replaceBySubst_eq (node subst temp : Ptr ν) : replaceBySubst node subst temp = (do
    if (← getParent subst) = node then
      setParent temp subst
    else
      setParent temp (← getParent subst)
    transplant node subst) := rfl

/-- What `transplant` does to the heap. -/
structure Transplanted (t : RbTree ν) (z : Path ν) (n s : ν) (l r : Ptr ν) (t' : RbTree ν) : Prop where
  root : t'.root = (relinked t (.node s) z).root
  subst : t'.heap (.node s) =
    ⟨(t.heap (.node s)).key, (t.heap (.node n)).parent, l, r, (t.heap (.node n)).color⟩
  left : l ≠ .sentinel → t'.heap l = (t.heap l).setParent (.node s)
  right : r ≠ .sentinel → t'.heap r = (t.heap r).setParent (.node s)
  above : ∀ f ∈ z.head?, t'.heap (.node f.node) = (t.heap (.node f.node)).setChild f.dir (.node s)
  rest : ∀ x, x ≠ .node s → (x = l → l = .sentinel) → (x = r → r = .sentinel) →
    (∀ f ∈ z.head?, x ≠ .node f.node) → t'.heap x = t.heap x

theorem HangsAt.store {t : RbTree ν} {z : Path ν} {n s : ν} (h : HangsAt t n z) (hns : n ≠ s)
    (hz : ∀ f ∈ z.head?, f.node ≠ s) (r : RbNode ν) :
    HangsAt { t with heap := Function.update t.heap (.node s) r } n z := by
  cases z with
  | nil => exact h
  | cons f z =>
      obtain ⟨hroot, hparent, hchild, hother⟩ := h
      have hfs := hz f rfl
      exact ⟨hroot, by simpa [update_node hns] using hparent, by simpa [update_node hfs] using hchild,
        by simpa [update_node hfs] using hother⟩

/-- Both children are told their new parent. -/
structure Adopted (t : RbTree ν) (s : ν) (l r : Ptr ν) (t' : RbTree ν) : Prop where
  root : t'.root = t.root
  left : l ≠ .sentinel → t'.heap l = (t.heap l).setParent (.node s)
  right : r ≠ .sentinel → t'.heap r = (t.heap r).setParent (.node s)
  rest : ∀ x, (x = l → l = .sentinel) → (x = r → r = .sentinel) → t'.heap x = t.heap x

theorem adoptBoth_runs {t : RbTree ν} {s : ν} {l r : Ptr ν} (hl : (t.heap (.node s)).left = l)
    (hr : (t.heap (.node s)).right = r) (hlnull : l ≠ .null) (hrnull : r ≠ .null)
    (hls : l ≠ .node s) (hlr : l = r → l = .sentinel) :
    Runs (do
        adopt (← getChild .left (.node s)) (.node s)
        adopt (← getChild .right (.node s)) (.node s)) t fun _ t' => Adopted t s l r t' := by
  have hchild : (t.heap (.node s)).child .left = l ∧ (t.heap (.node s)).child .right = r := ⟨hl, hr⟩
  simp only [runs_bind, runs_getChild, hchild.1, adopt_runs hlnull]
  by_cases hlsent : l = .sentinel
  · simp only [hlsent, if_true, hchild.2, adopt_runs hrnull]
    refine ⟨Ptr.node_ne_null, Ptr.node_ne_null, ?_⟩
    by_cases hrsent : r = .sentinel
    · simp only [hrsent, if_true]
      constructor <;> simp
    · simp only [hrsent, if_false]
      constructor <;> simp_all
  · simp only [hlsent, if_false, Function.update_of_ne hls.symm, hchild.2, adopt_runs hrnull]
    have hrl : r ≠ l := fun heq => hlsent (hlr heq.symm)
    refine ⟨Ptr.node_ne_null, Ptr.node_ne_null, ?_⟩
    by_cases hrsent : r = .sentinel
    · simp only [hrsent, if_true]
      constructor <;> simp_all
    · simp only [hrsent, if_false, Function.update_of_ne hrl]
      constructor <;> simp_all

theorem transplant_runs {t : RbTree ν} {z : Path ν} {n s : ν} {l r : Ptr ν}
    (hl : (t.heap (.node n)).left = l) (hr : (t.heap (.node n)).right = r) (hns : n ≠ s)
    (hlnull : l ≠ .null) (hrnull : r ≠ .null) (hls : l ≠ .node s) (hrs : r ≠ .node s)
    (hlr : l = r → l = .sentinel) (hz : HangsAt t n z)
    (hapart : ∀ f ∈ z.head?, f.node ≠ s ∧ l ≠ .node f.node ∧ r ≠ .node f.node) :
    Runs (transplant (.node n) (.node s)) t fun _ t' => Transplanted t z n s l r t' := by
  have hchild : (t.heap (.node n)).child .left = l ∧ (t.heap (.node n)).child .right = r := ⟨hl, hr⟩
  unfold transplant copyColor paint
  simp only [runs_bind, runs_getChild, runs_getParent, runs_loadNode, setChild, setParent, runs_storeNode,
    Function.update_idem, Function.update_self, update_node hns, hchild]
  refine ⟨Ptr.node_ne_null, Ptr.node_ne_null, Ptr.node_ne_null, Ptr.node_ne_null, Ptr.node_ne_null, Ptr.node_ne_null, Ptr.node_ne_null, Ptr.node_ne_null, ?_⟩
  have hwritten : (((((t.heap (.node s)).setChild .left l).setChild .right r).setParent
      (t.heap (.node n)).parent).setColor (t.heap (.node n)).color) =
      ⟨(t.heap (.node s)).key, (t.heap (.node n)).parent, l, r, (t.heap (.node n)).color⟩ := rfl
  rw [hwritten, relink_runs (hz.store hns (fun f hf => (hapart f hf).1) _)]
  generalize hnew : RbNode.mk (t.heap (.node s)).key (t.heap (.node n)).parent l r
    (t.heap (.node n)).color = new
  -- the successor's record in the state with the new link above
  generalize ht₁ : relinked { t with heap := Function.update t.heap (.node s) new } (.node s) z = t₁
  have hroot : t₁.root = (relinked t (.node s) z).root := by
    rw [← ht₁]
    cases z <;> rfl
  have hsubst : t₁.heap (.node s) = new := by
    rw [← ht₁]
    cases z with
    | nil => exact Function.update_self ..
    | cons f z => simp [relinked, update_node (hapart f rfl).1.symm]
  have habove : ∀ f ∈ z.head?, t₁.heap (.node f.node) = (t.heap (.node f.node)).setChild f.dir (.node s) := by
    rw [← ht₁]
    cases z with
    | nil => exact fun f hf => absurd hf (Option.not_mem_none f)
    | cons f z =>
        rintro g ⟨⟩
        simp [relinked, update_node (hapart f rfl).1]
  have hrest : ∀ x, x ≠ .node s → (∀ f ∈ z.head?, x ≠ .node f.node) → t₁.heap x = t.heap x := by
    intro x hx hz
    rw [← ht₁]
    cases z with
    | nil => exact Function.update_of_ne hx _ _
    | cons f z => simp [relinked, Function.update_of_ne (hz f rfl), Function.update_of_ne hx]
  have hadopt := adoptBoth_runs (by rw [hsubst, ← hnew] : (t₁.heap (.node s)).left = l)
    (by rw [hsubst, ← hnew] : (t₁.heap (.node s)).right = r) hlnull hrnull hls hlr
  simp only [runs_bind, runs_getChild] at hadopt
  obtain ⟨hs₁, hrun⟩ := hadopt
  refine ⟨hs₁, hrun.imp fun _ t₂ hmid => hmid.imp_right fun hend => hend.imp fun _ t' h => ?_⟩
  have hlz : ∀ f ∈ z.head?, l ≠ .node f.node := fun f hf => (hapart f hf).2.1
  have hrz : ∀ f ∈ z.head?, r ≠ .node f.node := fun f hf => (hapart f hf).2.2
  constructor
  · rw [h.root, hroot]
  · rw [h.rest _ (fun heq => absurd heq.symm hls) (fun heq => absurd heq.symm hrs), hsubst, hnew]
  · exact fun hsent => (h.left hsent).trans (by rw [hrest l hls hlz])
  · exact fun hsent => (h.right hsent).trans (by rw [hrest r hrs hrz])
  · intro f hf
    rw [h.rest _ (fun heq => absurd heq.symm (hlz f hf)) (fun heq => absurd heq.symm (hrz f hf)),
      habove f hf]
  · intro x hx hxl hxr hxz
    rw [h.rest x hxl hxr, hrest x hx hxz]

section Transplant

variable {t t' : RbTree ν} {z : Path ν} {c : Color} {n s : ν} {l r : BinTree ν}

omit [DecidableEq ν] in
theorem Loose.hangsAt (h : Loose t z c l n r) : HangsAt t n z := by
  have hapart := apart_of_nodup (d := .left) h.nodup
  have hpath := h.path
  cases z with
  | nil => exact h.root
  | cons f z =>
      obtain ⟨-, hchild, hother, hparent, -⟩ := hpath
      obtain ⟨m, hm, hroot⟩ := ptr_fill_outside f z (.node c l n r)
      refine ⟨?_, hparent (by simp), hchild, ?_⟩
      · rw [h.root, hroot]
        rintro ⟨⟩
        exact hapart.above hm
      · rw [hother]
        exact ptr_ne_node fun hn => hapart.above (by simp [outside, hn])

theorem Transplanted.kept (h : Transplanted t z n s (ptr l) (ptr r) t') :
    Kept (s :: (fill z (.node c l n r)).toList) t t' := by
  have hmem : ∀ m, m = n ∨ m ∈ l.toList ∨ m ∈ r.toList ∨ m ∈ outside z →
      m ∈ (fill z (.node c l n r)).toList := fun m hm =>
    (toList_fill_perm z _).mem_iff.mpr (by simp [BinTree.toList]; tauto)
  have hchild : ∀ a : BinTree ν, (∀ m ∈ a.toList, m ∈ l.toList ∨ m ∈ r.toList) → ∀ x,
      (∀ m ∈ s :: (fill z (.node c l n r)).toList, x ≠ .node m) → x = ptr a → ptr a = .sentinel := by
    rintro a hsub x hx rfl
    cases a with
    | leaf => rfl
    | node c' l' m r' => exact absurd rfl (hx m (.tail _ (hmem m (by have := hsub m (by simp [BinTree.toList]); tauto))))
  refine ⟨fun x hx => h.rest x (hx s (by simp)) ?_ ?_ ?_, fun x => ?_⟩
  · exact hchild l (fun _ hm => .inl hm) x hx
  · exact hchild r (fun _ hm => .inr hm) x hx
  · exact fun f hf => hx _ (.tail _ (hmem _ (.inr (.inr (.inr (head_mem_outside hf))))))
  · by_cases hs : x = .node s
    · simp [hs, h.subst]
    by_cases hl : x = ptr l ∧ ptr l ≠ .sentinel
    · simp [hl.1, h.left hl.2]
    by_cases hr : x = ptr r ∧ ptr r ≠ .sentinel
    · simp [hr.1, h.right hr.2]
    by_cases hz : ∃ f ∈ z.head?, x = .node f.node
    · obtain ⟨f, hf, rfl⟩ := hz
      simp [h.above f hf]
    · rw [h.rest x hs (by tauto) (by tauto) fun f hf heq => hz ⟨f, hf, heq⟩]

theorem Transplanted.holds (htrans : Transplanted t z n s (ptr l) (ptr r) t') (h : Loose t z c l n r)
    (hs : s ∉ (fill z (.node c l n r)).toList) : Holds t' (fill z (.node c l s r)) := by
  have hapart := apart_of_nodup (d := .left) h.nodup
  have hmem : ∀ m, m ∈ l.toList ∨ m ∈ r.toList ∨ m ∈ outside z → m ≠ s := by
    rintro m hm rfl
    refine hs ((toList_fill_perm z _).mem_iff.mpr ?_)
    simp only [BinTree.toList, List.mem_append, List.mem_cons]
    tauto
  -- the nodes of a subtree keep all but the parent of their root
  have hsub : ∀ a : BinTree ν, (∀ m ∈ a.toList, m ≠ s ∧ m ∉ outside z) →
      (∀ m ∈ a.toList, ptr a ≠ .node m → ptr l ≠ .node m ∧ ptr r ≠ .node m) →
      (ptr a ≠ .sentinel → t'.heap (ptr a) = (t.heap (ptr a)).setParent (.node s)) →
      a.toList.Nodup → Links t.heap a → Links t'.heap a := by
    intro a hout hroots hroot hnodup ha
    have hsame : ∀ m ∈ a.toList, ptr a ≠ .node m → t'.heap (.node m) = t.heap (.node m) := by
      intro m hm hma
      obtain ⟨hl, hr⟩ := hroots m hm hma
      exact htrans.rest _ (by simpa using (hout m hm).1) (fun heq => absurd heq.symm hl)
        (fun heq => absurd heq.symm hr) fun f hf heq => (hout m hm).2 (by
          cases heq
          exact head_mem_outside hf)
    refine links_congr (fun m hm => ?_) (fun m hm hma => by rw [hsame m hm hma]) hnodup ha
    by_cases hma : ptr a = .node m
    · have := hroot (by simp [hma])
      rw [hma] at this
      simp [this, RbNode.setParent]
    · simp [hsame m hm hma]
  refine ⟨?_, links_fill.mpr ⟨⟨?_, ?_, ?_, ?_, ?_, ?_, ?_⟩, ?_⟩, ?_⟩
  · rw [htrans.root]
    cases z with
    | nil => rfl
    | cons f z => exact h.root.trans (ptr_fill_cons ..)
  · simp [htrans.subst, h.color]
  · simp [htrans.subst]
  · simp [htrans.subst]
  · exact fun hne => by simp [htrans.left (mt ptr_eq_sentinel.mp hne)]
  · exact fun hne => by simp [htrans.right (mt ptr_eq_sentinel.mp hne)]
  · refine hsub l (fun m hm => ⟨hmem m (.inl hm), hapart.leftAbove m hm⟩) (fun m hm hma => ⟨hma, ?_⟩)
      htrans.left hapart.leftNodup h.links.1
    exact ptr_ne_node (hapart.sides m hm)
  · refine hsub r (fun m hm => ⟨hmem m (.inr (.inl hm)), hapart.rightAbove m hm⟩)
      (fun m hm hma => ⟨ptr_ne_node fun hml => hapart.sides m hml hm, hma⟩)
      htrans.right hapart.rightNodup h.links.2
  · refine pathLinks_relink (fun f hf => ?_) (fun m hm hmz => ?_) (fun f hf _ => ?_) hapart.aboveNodup h.path
    · exact htrans.above f hf
    · exact htrans.rest _ (by simpa using hmem m (.inr (.inr hm)))
        (fun heq => absurd heq.symm (ptr_ne_node fun hml => hapart.leftAbove m hml hm))
        (fun heq => absurd heq.symm (ptr_ne_node fun hmr => hapart.rightAbove m hmr hm))
        fun f hf => by simpa using hmz f hf
    · cases z with
      | nil => cases hf
      | cons g z =>
          cases hf
          simp [ptr, htrans.subst, h.hangsAt.2.1]
  · have hnodup := (toList_fill_perm z _).nodup_iff.mp h.nodup
    rw [(toList_fill_perm z _).mem_iff] at hs
    refine (toList_fill_perm z _).nodup_iff.mpr ?_
    have hold : (BinTree.node c l n r).toList ++ outside z = l.toList ++ n :: (r.toList ++ outside z) := by
      simp [BinTree.toList]
    have hnew : (BinTree.node c l s r).toList ++ outside z = l.toList ++ s :: (r.toList ++ outside z) := by
      simp [BinTree.toList]
    rw [hold] at hnodup hs
    rw [hnew]
    rw [List.nodup_middle] at hnodup ⊢
    refine List.nodup_cons.mpr ⟨fun hmem => hs ?_, (List.nodup_cons.mp hnodup).2⟩
    simp only [List.mem_append, List.mem_cons] at hmem ⊢
    tauto

/-- The successor takes over everything from the node. -/
theorem Loose.transplant_runs (h : Loose t z c l n r) (hs : s ∉ (fill z (.node c l n r)).toList) :
    Runs (transplant (.node n) (.node s)) t fun _ t' =>
      Holds t' (fill z (.node c l s r)) ∧ Kept (s :: (fill z (.node c l n r)).toList) t t' := by
  have hapart := apart_of_nodup (d := .left) h.nodup
  rw [(toList_fill_perm _ _).mem_iff] at hs
  simp only [BinTree.toList, List.mem_append, List.mem_cons, not_or] at hs
  obtain ⟨⟨hsl, hsn, hsr⟩, hsz⟩ := hs
  refine (PWebServer.transplant_runs h.left h.right (Ne.symm hsn) (ptr_ne_null l) (ptr_ne_null r)
    (ptr_ne_node hsl) (ptr_ne_node hsr) (fun heq => ?_) h.hangsAt fun f hf => ⟨?_, ?_, ?_⟩).imp
    fun _ t' htrans => ⟨htrans.holds h ?_, htrans.kept⟩
  · by_contra hsent
    exact ptr_ne_ptr hapart.sides (mt ptr_eq_sentinel.mpr hsent) heq
  · rintro rfl
    exact hsz (head_mem_outside hf)
  · exact ptr_ne_node fun hl => hapart.leftAbove _ hl (head_mem_outside hf)
  · exact ptr_ne_node fun hr => hapart.rightAbove _ hr (head_mem_outside hf)
  · rw [(toList_fill_perm _ _).mem_iff]
    simp only [BinTree.toList, List.mem_append, List.mem_cons, not_or]
    exact ⟨⟨hsl, hsn, hsr⟩, hsz⟩

end Transplant

end PWebServer
