import PWebServer.Base.RbFocus

/-!
# Base.RbInsert

`rbtree_insert` keeps the tree well formed: the new node stands among the
nodes of the tree in the order of the keys, and the red-black property holds
again when the loop that repairs it has come to its end.
-/

namespace PWebServer

open Program RedBlack

variable {ν : Type}

/-! ## well-formed trees -/

/-- The order of the nodes of a tree is the order of their keys. -/
def Sorted (t : RbTree ν) (ns : List ν) : Prop :=
  ns.Pairwise fun m n => (t.heap (.node m)).key ≤ (t.heap (.node n)).key

/-- The heap holds the red-black tree `T`, sorted by key; the sentinel is black
and its own child on both sides, its parent is anything. -/
structure WellFormed (t : RbTree ν) (T : BinTree ν) : Prop where
  holds : Holds t T
  sound : Sound T
  sorted : Sorted t T.toList
  nilColor : (t.heap .sentinel).color = .black
  nilChild : ∀ d, (t.heap .sentinel).child d = .sentinel

/-- What happens elsewhere in memory is no matter. -/
theorem WellFormed.frame {t t' : RbTree ν} {T : BinTree ν} (h : WellFormed t T) (hroot : t'.root = t.root)
    (hnodes : ∀ n ∈ T.toList, t'.heap (.node n) = t.heap (.node n))
    (hnil : (t'.heap .sentinel).color = (t.heap .sentinel).color)
    (hchild : ∀ d, (t'.heap .sentinel).child d = (t.heap .sentinel).child d) : WellFormed t' T where
  holds := ⟨hroot.trans h.holds.root, h.holds.links.frame hnodes h.holds.nodup, h.holds.nodup⟩
  sound := h.sound
  sorted := h.sorted.imp_of_mem fun hm hn hle => by rwa [hnodes _ hm, hnodes _ hn]
  nilColor := hnil.trans h.nilColor
  nilChild d := (hchild d).trans (h.nilChild d)

theorem Kept.sorted {t t' : RbTree ν} {ns ms : List ν} (h : Kept ms t t') (hs : Sorted t ns) :
    Sorted t' ns := by
  simpa only [Sorted, h.key] using hs

/-- A node between the ones that are not after it and the ones that are. -/
theorem Sorted.insert {t : RbTree ν} {l r : List ν} {n : ν} (h : Sorted t (l ++ r))
    (hl : ∀ m ∈ l, (t.heap (.node m)).key ≤ (t.heap (.node n)).key)
    (hr : ∀ m ∈ r, (t.heap (.node n)).key < (t.heap (.node m)).key) : Sorted t (l ++ n :: r) := by
  obtain ⟨hll, hrr, hlr⟩ := List.pairwise_append.mp h
  refine List.pairwise_append.mpr ⟨hll, List.pairwise_cons.mpr ⟨fun m hm => ?_, hrr⟩, ?_⟩
  · exact BitVec.le_of_lt (hr m hm)
  · rintro m hm m' (_ | ⟨_, hm'⟩)
    · exact hl m hm
    · exact hlr m hm m' hm'

/-! ## the place of the new node -/

/-- The place of a node below the path: what is before it has no greater key,
what is after it a greater one. -/
structure Place (t : RbTree ν) (n : ν) (z : Path ν) : Prop where
  before : ∀ m ∈ before z, (t.heap (.node m)).key ≤ (t.heap (.node n)).key
  after : ∀ m ∈ after z, (t.heap (.node n)).key < (t.heap (.node m)).key

/-- The side on which the walk goes on. -/
def sideOf (t : RbTree ν) (n m : ν) : Dir :=
  if (t.heap (.node n)).key < (t.heap (.node m)).key then .left else .right

theorem Place.step {t : RbTree ν} {n m : ν} {z : Path ν} {c : Color} {a b : BinTree ν} {d : Dir}
    (h : Place t n z) (hsorted : Sorted t (fill z (.fork d c m a b)).toList)
    (hd : d = sideOf t n m) : Place t n (⟨d, c, m, b⟩ :: z) := by
  rw [toList_fill] at hsorted
  have hT := (List.pairwise_append.mp (List.pairwise_append.mp hsorted).2.1).1
  unfold sideOf at hd
  split at hd
  next hlt =>
    subst hd
    have hcons := (List.pairwise_append.mp hT).2.1
    refine ⟨h.before, fun x hx => ?_⟩
    simp only [RedBlack.after, List.mem_cons, List.mem_append] at hx
    rcases hx with rfl | hx | hx
    · exact hlt
    · have hle := (List.pairwise_cons.mp hcons).1 x hx
      rw [BitVec.lt_def] at hlt ⊢
      rw [BitVec.le_def] at hle
      omega
    · exact h.after x hx
  next hlt =>
    subst hd
    have hle := BitVec.not_lt.mp hlt
    refine ⟨fun x hx => ?_, h.after⟩
    simp only [RedBlack.before, List.mem_append, List.mem_singleton] at hx
    rcases hx with hx | hx | rfl
    · exact h.before x hx
    · exact BitVec.le_trans ((List.pairwise_append.mp hT).2.2 x hx m (by simp)) hle
    · exact hle

variable [DecidableEq ν]

/-- What `hang` writes. -/
theorem hang_writes {t : RbTree ν} {d : Dir} {m n : ν} (hnm : n ≠ m) :
    Runs (hang d (.node m) (.node n)) t fun _ t' =>
      t'.root = t.root ∧ t'.heap (.node m) = (t.heap (.node m)).setChild d (.node n) ∧
        t'.heap (.node n) = ⟨(t.heap (.node n)).key, .node m, .sentinel, .sentinel, .red⟩ ∧
        ∀ p, p ≠ .node m → p ≠ .node n → t'.heap p = t.heap p := by
  simp only [hang, setChild, setParent, paint, runs_bind, runs_storeNode, Function.update_idem,
    Function.update_self, update_node hnm]
  refine ⟨by simp, by simp, by simp, by simp, by simp, trivial, ?_, rfl, fun p hm hn => ?_⟩
  · rw [update_node hnm.symm, Function.update_self]
  · rw [Function.update_of_ne hn, Function.update_of_ne hm]

/-- The new leaf at its place. -/
theorem hang_runs {t : RbTree ν} {f : Frame ν} {z : Path ν} {n : ν}
    (h : Holds t (fill (f :: z) .leaf)) (hn : n ∉ (fill (f :: z) .leaf).toList) :
    Runs (hang f.dir (.node f.node) (.node n)) t fun _ t' =>
      Holds t' (fill (f :: z) (.node .red .leaf n .leaf)) ∧
        Kept (n :: (fill (f :: z) .leaf).toList) t t' := by
  have hperm := toList_fill_perm (f :: z) (.node .red .leaf n .leaf)
  have hout := toList_fill_perm (f :: z) .leaf
  have hnodup := hout.nodup_iff.mp h.nodup
  simp only [BinTree.toList, List.nil_append] at hperm hout hnodup
  rw [hout.mem_iff] at hn
  have hfn : n ≠ f.node := by
    rintro rfl
    simp [outside] at hn
  refine (hang_writes hfn).imp fun _ t' hwrites => ?_
  obtain ⟨hroot, hover, hnew, hrest⟩ := hwrites
  refine ⟨⟨?_, ?_, ?_⟩, ?_, fun p => ?_⟩
  · exact hroot.trans (h.root.trans (ptr_fill_cons ..))
  · refine links_fill.mpr ⟨?_, ?_⟩
    · simp [Links, hnew, ptr]
    · refine pathLinks_relink (fun g hg => ?_) (fun m hm hmz => ?_) (fun g hg _ => ?_) hnodup
        (links_fill.mp h.links).2
      · cases hg
        exact hover
      · refine hrest _ (by simpa using hmz f rfl) ?_
        rintro ⟨⟩
        exact hn hm
      · cases hg
        simp [ptr, hnew]
  · exact hperm.nodup_iff.mpr (List.nodup_cons.mpr ⟨hn, hnodup⟩)
  · intro p hp
    refine hrest p (hp f.node ?_) (hp n (by simp))
    exact List.mem_cons_of_mem _ (hout.mem_iff.mpr (by simp [outside]))
  · by_cases hpm : p = .node f.node
    · simp [hpm, hover]
    by_cases hpn : p = .node n
    · simp [hpn, hnew]
    · rw [hrest p hpm hpn]

/-- `rbtree_insert_timer_value` finds the place and leaves the new node there. -/
theorem rbtreeInsertTimerValue_runs {t : RbTree ν} {T : BinTree ν} {n : ν} {fuel : Nat}
    (h : Holds t T) (hsorted : Sorted t T.toList) (hn : n ∉ T.toList) (hT : T ≠ .leaf)
    (hfuel : T.toList.length < fuel) :
    Runs (rbtreeInsertTimerValue fuel (ptr T) (.node n)) t fun _ t' =>
      ∃ f z, fill (f :: z) .leaf = T ∧ Place t n (f :: z) ∧
        Holds t' (fill (f :: z) (.node .red .leaf n .leaf)) ∧ Kept (n :: T.toList) t t' := by
  refine loop_runs (fun k temp s => s = t ∧ ∃ z S, temp = ptr S ∧ S ≠ .leaf ∧ fill z S = T ∧
    Place t n z ∧ k = S.toList.length) ?_ fuel
    ⟨rfl, [], T, rfl, hT, rfl, ⟨by simp [before], by simp [after]⟩, rfl⟩ hfuel
  rintro k temp s ⟨rfl, z, S, rfl, hS, rfl, hplace, rfl⟩
  cases S with
  | leaf => exact absurd rfl hS
  | node c l m r =>
    obtain ⟨a, b, heq⟩ := BinTree.node_eq_fork_of (sideOf s n m) c l m r
    rw [heq] at h hsorted hn ⊢
    have hstep := hplace.step hsorted rfl
    have hchild := h.children.1
    have hside : (if (s.heap (.node n)).key < (s.heap (.node m)).key then Dir.left else Dir.right) =
        sideOf s n m := rfl
    simp only [ptr_fork, runs_bind, runs_getKey, runs_getChild, hside, hchild, runs_ite]
    refine ⟨by simp, by simp, by simp, ?_⟩
    cases a with
    | leaf =>
        rw [if_pos (show ptr .leaf = .sentinel from rfl)]
        refine (hang_runs (f := ⟨_, c, m, b⟩) h hn).imp fun _ t' hhung => ?_
        obtain ⟨hholds, hkept⟩ := hhung
        exact runs_pure.mpr ⟨_, z, rfl, hstep, hholds, hkept⟩
    | node c' l' m' r' =>
        rw [if_neg (by simp [ptr] : ptr (.node c' l' m' r') ≠ .sentinel), runs_pure]
        refine ⟨_, ?_, rfl, _ :: z, .node c' l' m' r', rfl, by simp, rfl, hstep, rfl⟩
        rw [(BinTree.toList_fork_perm ..).length_eq, List.length_cons, List.length_append]
        omega

/-! ## the two kinds of turns -/

section Insertion

variable {t₀ t : RbTree ν} {ns : List ν} {d : Dir} {n : ν} {z : Path ν} {T : BinTree ν} {f g : Frame ν}

/-- Parent and uncle become black and the grandparent red. -/
theorem Reshaped.recolor {c : Color} {m : ν} {a b : BinTree ν} (h : Reshaped t₀ ns t (fill (f :: g :: z) T))
    (hn : ptr T = .node n) (huncle : g.sib = .fork d c m a b) :
    Runs (do
        PWebServer.paint (← getParent (.node n)) .black
        PWebServer.paint (.node m) .black
        PWebServer.paint (← grandFather (.node n)) .red
        grandFather (.node n)) t fun p t' =>
      p = .node g.node ∧
        Reshaped t₀ ns t' (fill (⟨f.dir, .black, f.node, f.sib⟩ :: ⟨g.dir, .red, g.node, .fork d .black m a b⟩ :: z) T) := by
  simp only [runs_bind, runs_getParent, runs_grandFather, h.holds.parent hn]
  refine ⟨Ptr.node_ne_null, (h.paintTop .black).imp fun _ t₁ h₁ => ?_⟩
  rw [fill_cons] at h₁
  refine (h₁.paintSibling huncle .black).imp fun _ t₂ h₂ => ?_
  rw [← fill_cons] at h₂
  simp only [h₂.holds.parent hn, h₂.holds.grandParent]
  refine ⟨Ptr.node_ne_null, Ptr.node_ne_null, ?_⟩
  rw [fill_cons] at h₂
  refine (h₂.paintTop .red).imp fun _ t₃ h₃ => ?_
  rw [← fill_cons] at h₃
  simp only [h₃.holds.parent hn, h₃.holds.grandParent]
  exact ⟨Ptr.node_ne_null, Ptr.node_ne_null, trivial, h₃⟩

/-- The parent comes up, black, and the grandparent goes down, red. -/
theorem Reshaped.raiseParent {c c' : Color} {p q : ν} {s u : BinTree ν}
    (h : Reshaped t₀ ns t (fill (⟨d, c, p, s⟩ :: ⟨d, c', q, u⟩ :: z) T)) (hn : ptr T = .node n) :
    Runs (do
        PWebServer.paint (← getParent (.node n)) .black
        PWebServer.paint (← grandFather (.node n)) .red
        PWebServer.rotate d.flip (← grandFather (.node n))) t fun _ t' =>
      Reshaped t₀ ns t' (fill (⟨d, .black, p, .fork d .red q s u⟩ :: z) T) := by
  simp only [runs_bind, runs_getParent, runs_grandFather, h.holds.parent hn]
  refine ⟨Ptr.node_ne_null, (h.paintTop .black).imp fun _ t₁ h₁ => ?_⟩
  simp only [h₁.holds.parent hn, h₁.holds.grandParent]
  refine ⟨Ptr.node_ne_null, Ptr.node_ne_null, ?_⟩
  rw [fill_cons] at h₁
  refine (h₁.paintTop .red).imp fun _ t₂ h₂ => ?_
  rw [← fill_cons] at h₂
  simp only [h₂.holds.parent hn, h₂.holds.grandParent]
  refine ⟨Ptr.node_ne_null, Ptr.node_ne_null, ?_⟩
  have hshape : fill (⟨d, .black, p, s⟩ :: ⟨d, .red, q, u⟩ :: z) T =
      fill z (.fork d.flip .red q u (.fork d.flip .black p s T)) := by
    simp only [fill_cons, Frame.fill, BinTree.fork_flip]
  have hraised : fill z (.fork d.flip .black p (.fork d.flip .red q u s) T) =
      fill (⟨d, .black, p, .fork d .red q s u⟩ :: z) T := by
    simp only [fill_cons, Frame.fill, BinTree.fork_flip]
  rw [hshape] at h₂
  rw [← hraised]
  exact h₂.rotate


/-! ## the loop -/

/-- The loop of `rbtree_insert` with the tree `T` below the path: `T` is
balanced in itself and fits, but for its root, which is red like maybe the node
above it. -/
structure Raised (t₀ : RbTree ν) (ns : List ν) (t : RbTree ν) (n : ν) (z : Path ν) (T : BinTree ν) :
    Prop where
  reshaped : Reshaped t₀ ns t (fill z T)
  node : ptr T = .node n
  red : T.color = .red
  fits : ∃ k, Balanced T k ∧ Accepts z k

/-- One turn, below a red parent. -/
theorem insertTurn_runs {e : Dir} {p q : ν} {s u : BinTree ν}
    (h : Raised t₀ ns t n (⟨e, .red, p, s⟩ :: ⟨d, .black, q, u⟩ :: z) T)
    (hnil : (t₀.heap .sentinel).color = .black) :
    Runs (insertTurn d (.node n)) t fun next t' =>
      ∃ m z' T', next = .node m ∧ Raised t₀ ns t' m z' T' ∧ z'.length < z.length + 2 := by
  obtain ⟨hr, hn, hred, k, hT, hz⟩ := h
  obtain ⟨hs, hsblack, -, hu, hz⟩ := hz
  have hparent := hr.holds.parent hn
  have hgrand := hr.holds.grandParent
  have hside := hr.holds.child_eq_iff hn d.flip
  have huncle := hr.holds.uncle
  have hucolor : (t.heap (ptr u)).color = u.color := by
    have hholds := hr.holds
    rw [fill_cons, ← fill_swap] at hholds
    exact hholds.color (hr.sentinel ▸ hnil)
  simp only [insertTurn, runs_bind, runs_grandFather, runs_getChild, runs_isRed, runs_ite,
    runs_getParent, hparent, hgrand, huncle, hucolor, hside, runs_pure, decide_eq_true_eq]
  refine ⟨Ptr.node_ne_null, Ptr.node_ne_null, Ptr.node_ne_null, ptr_ne_null u, ?_⟩
  split
  next hured =>
    -- the red uncle: the grandparent is the new focus
    obtain ⟨m, a, b, rfl, ha, hb, -, -⟩ := hu.eq_fork_red hured d
    rw [ptr_fork]
    have hrun := (hr.recolor hn rfl).imp fun next t' (hnext : next = .node q ∧ _) =>
      show ∃ m z' T', next = .node m ∧ Raised t₀ ns t' m z' T' ∧ z'.length < z.length + 2 from
        ⟨q, z, _, hnext.1, ⟨hnext.2, ptr_fork .., BinTree.color_fork .., k + 1,
          balanced_fork_red.mpr ⟨balanced_fork_black.mpr ⟨hT, hs⟩, balanced_fork_black.mpr ⟨ha, hb⟩,
            BinTree.color_fork .., BinTree.color_fork ..⟩, hz⟩, by omega⟩
    simpa only [runs_bind, runs_grandFather, runs_getParent, hparent] using hrun
  next hured =>
    have hublack : u.color = .black := by
      cases hc : u.color with
      | black => rfl
      | red => exact absurd hc hured
    refine ⟨Ptr.node_ne_null, Ptr.node_ne_null, ?_⟩
    split
    next he =>
      -- the node is on the inner side and changes places with its parent
      subst he
      obtain ⟨m, a, b, rfl, ha, hb, hablack, hbblack⟩ := hT.eq_fork_red hred d
      obtain rfl : m = n := by simpa using hn
      refine ⟨Ptr.node_ne_null, ?_⟩
      have hturned : fill (⟨d.flip, .red, p, s⟩ :: ⟨d, .black, q, u⟩ :: z) (.fork d .red m a b) =
          fill (⟨d, .black, q, u⟩ :: z) (.fork d .red p s (.fork d .red m a b)) := by
        rw [fill_cons, Frame.fill, BinTree.fork_flip]
      rw [hturned] at hr
      refine hr.rotate.imp fun _ t₁ h₁ => ?_
      have h₂ : Reshaped t₀ ns t₁
          (fill (⟨d, .red, m, b⟩ :: ⟨d, .black, q, u⟩ :: z) (.fork d .red p s a)) := h₁
      have hrun := (h₂.raiseParent (ptr_fork ..)).imp fun _ t' h₃ =>
        show ∃ m z' T', Ptr.node p = .node m ∧ Raised t₀ ns t' m z' T' ∧ z'.length < z.length + 2 from
          ⟨p, _, _, rfl, ⟨h₃, ptr_fork .., BinTree.color_fork .., k,
            balanced_fork_red.mpr ⟨hs, ha, hsblack, hablack⟩,
            balanced_fork_red.mpr ⟨hb, hu, hbblack, hublack⟩, hz⟩, by simp⟩
      simpa only [runs_bind, runs_grandFather, runs_getParent, runs_pure] using hrun
    next he =>
      obtain rfl : d = e := by
        by_contra hne
        exact he (by rw [Dir.eq_flip_of_ne hne, Dir.flip_flip])
      have hrun := (hr.raiseParent hn).imp fun _ t' h₃ =>
        show ∃ m z' T', Ptr.node n = .node m ∧ Raised t₀ ns t' m z' T' ∧ z'.length < z.length + 2 from
          ⟨n, _, _, rfl, ⟨h₃, hn, hred, k, hT, balanced_fork_red.mpr ⟨hs, hu, hsblack, hublack⟩, hz⟩,
            by simp⟩
      simpa only [runs_bind, runs_grandFather, runs_getParent, runs_pure, hparent, hgrand] using hrun

/-- The loop leaves a tree that only lacks a black root. -/
theorem insertFix_runs {fuel : Nat} (h : Raised t₀ ns t n z T)
    (hnil : (t₀.heap .sentinel).color = .black) (hfuel : z.length < fuel) :
    Runs (insertFix fuel (.node n)) t fun _ t' =>
      ∃ R, Reshaped t₀ ns t' R ∧ Sound R.blacken ∧ R ≠ .leaf := by
  refine loop_runs (fun len node s => ∃ n z T, node = .node n ∧ Raised t₀ ns s n z T ∧ len = z.length)
    ?_ fuel ⟨n, z, T, rfl, h, rfl⟩ hfuel
  rintro len node s ⟨n, z, T, rfl, h, rfl⟩
  obtain ⟨k, hT, hz⟩ := h.fits
  have hleaf := BinTree.color_ne_red h.red
  simp only [runs_bind, runs_getRoot, runs_ite, runs_getParent, runs_isRed, runs_getChild,
    runs_grandFather, runs_pure]
  cases z with
  | nil =>
      rw [if_pos (by rw [h.reshaped.holds.root, fill_nil, h.node])]
      obtain ⟨m, a, b, rfl, ha, hb, -, -⟩ := hT.eq_fork_red h.red .left
      refine ⟨_, h.reshaped, ?_, hleaf⟩
      rw [fill_nil, BinTree.blacken_fork]
      exact ⟨BinTree.color_fork .., k + 1, balanced_fork_black.mpr ⟨ha, hb⟩⟩
  | cons f z =>
      have hparent := h.reshaped.holds.parent h.node
      rw [if_neg (h.reshaped.holds.root_ne h.node).symm, hparent, h.reshaped.holds.frameColor]
      refine ⟨Ptr.node_ne_null, Ptr.node_ne_null, ?_⟩
      obtain ⟨e, _ | _, p, s'⟩ := f
      · -- a red node is not the root, and the one above it is black
        cases z with
        | nil => cases hz.2.2.1
        | cons g z =>
            obtain ⟨d, c, q, u⟩ := g
            obtain rfl : c = .black := hz.2.2.1
            have hgrand := h.reshaped.holds.grandParent
            have hholds := h.reshaped.holds
            rw [fill_cons] at hholds
            have hside := hholds.child_eq_iff (ptr_fork ..) .left
            simp only [hgrand, hside, decide_true, if_true]
            refine ⟨Ptr.node_ne_null, Ptr.node_ne_null, Ptr.node_ne_null, Ptr.node_ne_null, ?_⟩
            split
            next hd =>
              subst hd
              refine (insertTurn_runs h hnil).imp fun next t' hnext => ?_
              obtain ⟨m, z', T', rfl, hraised, hlen⟩ := hnext
              exact ⟨z'.length, hlen, m, z', T', rfl, hraised, rfl⟩
            next hd =>
              obtain rfl : d = .right := by cases d <;> simp_all
              refine (insertTurn_runs h hnil).imp fun next t' hnext => ?_
              obtain ⟨m, z', T', rfl, hraised, hlen⟩ := hnext
              exact ⟨z'.length, hlen, m, z', T', rfl, hraised, rfl⟩
      · rw [if_neg (by simp)]
        have hsound := sound_fill hT hz (fun hred => absurd hred Color.noConfusion)
        exact ⟨_, h.reshaped, (BinTree.blacken_of_black hsound.1).symm ▸ hsound, fill_ne_leaf hleaf⟩


/-! ## the whole insertion -/

/-- `t'` is `t` with the node `n` in its place: after every node of the tree
with no greater key and before the others; nothing else has changed but links
and colors. -/
structure Inserted (t : RbTree ν) (T : BinTree ν) (n : ν) (t' : RbTree ν) (T' : BinTree ν) : Prop where
  wellFormed : WellFormed t' T'
  place : ∃ l r, T.toList = l ++ r ∧ T'.toList = l ++ n :: r ∧
    (∀ m ∈ l, (t.heap (.node m)).key ≤ (t.heap (.node n)).key) ∧
    ∀ m ∈ r, (t.heap (.node n)).key < (t.heap (.node m)).key
  kept : Kept (n :: T.toList) t t'

/-- Into the empty tree. -/
theorem rbtreeInsert_empty {n : ν} {fuel : Nat} (h : WellFormed t .leaf) :
    Runs (rbtreeInsert fuel (.node n)) t fun _ t' =>
      Inserted t .leaf n t' (.node .black .leaf n .leaf) := by
  have hroot : t.root = .sentinel := h.holds.root
  simp only [rbtreeInsert, setParent, setChild, paint, runs_bind, runs_getRoot, runs_ite, hroot,
    if_true, runs_storeNode, runs_setRoot, Function.update_idem, Function.update_self]
  refine ⟨Ptr.node_ne_null, Ptr.node_ne_null, Ptr.node_ne_null, Ptr.node_ne_null, ⟨⟨⟨rfl, ?_, by simp [BinTree.toList]⟩, ?_, ?_, ?_, ?_⟩, ?_, ?_, ?_⟩⟩
  · simp [Links, RbNode.setChild, RbNode.setColor, RbNode.setParent, ptr]
  · exact ⟨rfl, 1, .black .leaf .leaf⟩
  · exact List.pairwise_singleton ..
  · simpa using h.nilColor
  · simpa using h.nilChild
  · exact ⟨[], [], rfl, rfl, by simp, by simp⟩
  · intro p hp
    simp [Function.update_of_ne (hp n (by simp))]
  · intro p
    by_cases hpn : p = .node n <;> simp [hpn]

omit [DecidableEq ν] in
/-- The new leaf stands at its place, and the loop only paints and rotates. -/
theorem Place.inserted {t t₁ t₂ : RbTree ν} {R : BinTree ν} (h : WellFormed t (fill z .leaf))
    (hplace : Place t n z) (hkept : Kept (n :: (fill z .leaf).toList) t t₁)
    (hr : Reshaped t₁ (fill z (.node .red .leaf n .leaf)).toList t₂ R) (hR : Sound R) :
    Inserted t (fill z .leaf) n t₂ R := by
  have hold : (fill z .leaf).toList = RedBlack.before z ++ RedBlack.after z := toList_fill z .leaf
  have hnew : R.toList = RedBlack.before z ++ n :: RedBlack.after z := hr.nodes.trans (toList_fill ..)
  have hall : Kept (n :: (fill z .leaf).toList) t t₂ := by
    refine hkept.trans (hr.kept.mono fun m hm => ?_)
    simpa [toList_fill, BinTree.toList, or_left_comm] using hm
  have hnil : t₂.heap .sentinel = t.heap .sentinel := hall.heap _ (by simp)
  have hsorted := h.sorted
  rw [hold] at hsorted
  refine ⟨⟨hr.holds, hR, ?_, hnil ▸ h.nilColor, hnil ▸ h.nilChild⟩, ?_, hall⟩
  · rw [hnew]
    exact hall.sorted (hsorted.insert hplace.before hplace.after)
  · exact ⟨_, _, hold, hnew, hplace.before, hplace.after⟩

theorem rbtreeInsert_runs {t : RbTree ν} {T : BinTree ν} {n : ν} {fuel : Nat}
    (h : WellFormed t T) (hn : n ∉ T.toList) (hfuel : T.toList.length < fuel) :
    Runs (rbtreeInsert fuel (.node n)) t fun _ t' => ∃ T', Inserted t T n t' T' := by
  cases hempty : T with
  | leaf => exact (rbtreeInsert_empty (hempty ▸ h)).imp fun _ _ hins => ⟨_, hins⟩
  | node c l m r =>
    have hT : T ≠ .leaf := by simp [hempty]
    rw [← hempty]
    simp only [rbtreeInsert, runs_bind, runs_getRoot, runs_ite, h.holds.root]
    rw [if_neg (mt ptr_eq_sentinel.mp hT)]
    refine (rbtreeInsertTimerValue_runs h.holds h.sorted hn hT hfuel).imp fun _ t₁ h₁ => ?_
    obtain ⟨f, z, rfl, hplace, hholds, hkept⟩ := h₁
    obtain ⟨k, hleaf, hz, -⟩ := h.sound.parts
    cases hleaf
    have hraised : Raised t₁ _ t₁ n (f :: z) (.node .red .leaf n .leaf) :=
      ⟨hholds.reshaped, rfl, rfl, 0, .red .leaf .leaf rfl rfl, hz⟩
    have hnil : t₁.heap .sentinel = t.heap .sentinel := hkept.heap _ (by simp)
    have hlen : (f :: z).length < fuel := Nat.lt_of_le_of_lt (length_le_toList ..) hfuel
    refine (insertFix_runs hraised (hnil ▸ h.nilColor) hlen).imp fun _ t₂ h₂ => ?_
    obtain ⟨R, hr, hsound, hR⟩ := h₂
    obtain ⟨c', m', a, b, rfl⟩ := BinTree.eq_fork .left R hR
    rw [hr.holds.root, ptr_fork]
    refine (Reshaped.paint (z := []) hr .black).imp fun _ t₃ h₃ => ?_
    rw [BinTree.blacken_fork] at hsound
    exact ⟨_, hplace.inserted h hkept h₃ hsound⟩

theorem rbtreeInsert_extends {fuel fuel' : Nat} (hle : fuel ≤ fuel') (node : Ptr ν) :
    Extends (rbtreeInsert fuel node) (rbtreeInsert fuel' node) :=
  (Extends.refl _).bind fun _ => .ite (.refl _) <| (Extends.refl _).bind fun _ =>
    (loop_extends hle _).bind fun _ => (loop_extends hle _).bind fun _ => .refl _

end Insertion

/-- Two timers, the later one red below the other, and a third one outside the
tree. -/
def twoTimers : RbTree Nat where
  root := .node 0
  heap
    | .null => {}
    | .sentinel => { left := .sentinel, right := .sentinel }
    | .node 0 => { key := 3, left := .sentinel, right := .node 1 }
    | .node 1 => { key := 5, parent := .node 0, left := .sentinel, right := .sentinel, color := .red }
    | .node _ => { key := 5 }

theorem twoTimers_wellFormed : WellFormed twoTimers (.node .black .leaf 0 (.node .red .leaf 1 .leaf)) where
  holds := ⟨rfl, by simp [Links, twoTimers, ptr], by decide⟩
  sound := ⟨rfl, 1, .black .leaf (.red .leaf .leaf rfl rfl)⟩
  sorted := by simp [Sorted, BinTree.toList, twoTimers]
  nilColor := rfl
  nilChild d := by cases d <;> rfl

/-- A node that is not in a tree gets its place there: with any bound on the loops
the tree is as it should be when `rbtree_insert` returns, and it returns if the bound
is above the number of nodes. -/
theorem rbtreeInsert_wellFormed {t : RbTree ν} {T : BinTree ν} {n : ν} (h : WellFormed t T) (hn : n ∉ T.toList) :
    (∀ fuel, Ensures (rbtreeInsert fuel (.node n)) t fun _ t' => ∃ T', Inserted t T n t' T') ∧
      ∀ fuel > T.toList.length, Runs (rbtreeInsert fuel (.node n)) t fun _ t' => ∃ T', Inserted t T n t' T' := by
  refine ⟨fun fuel => ?_, fun fuel hfuel => rbtreeInsert_runs h hn hfuel⟩
  have hmax : T.toList.length < max fuel (T.toList.length + 1) := by omega
  exact (rbtreeInsert_runs h hn hmax).ensures (rbtreeInsert_extends (Nat.le_max_left _ _) (.node n))

/-- The third timer goes behind the one with its own key. -/
theorem rbtreeInsert_wellFormed_third :
    Runs (rbtreeInsert 3 (.node 2)) twoTimers fun _ t' =>
      ∃ T', Inserted twoTimers (.node .black .leaf 0 (.node .red .leaf 1 .leaf)) 2 t' T' :=
  (rbtreeInsert_wellFormed twoTimers_wellFormed (by decide)).2 3 (by decide)

end PWebServer

