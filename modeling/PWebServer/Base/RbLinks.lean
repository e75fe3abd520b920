import PWebServer.Base.RbTree

/-!
# Base.RbLinks

When a heap holds a tree: `Holds t T` says that the pointers and the colors of
`t` are those of the tree `T`.  The root's own parent pointer is left open, the
code never follows it.

Each primitive of `rb_tree.c` has one lemma that says what it does to the tree
at a focus (`paint_holds`, `rotate_holds`), so that the loops are read on trees.
-/

namespace PWebServer

open Program RedBlack

variable {ν : Type}

/-! ## running the primitives -/

section Primitives

variable {p q : Ptr ν} {t : RbTree ν}

@[simp] theorem runs_getRoot {Q : Ptr ν → RbTree ν → Prop} : Runs getRoot t Q ↔ Q t.root t :=
  ⟨fun ⟨_, _, hm, hQ⟩ => by cases hm; exact hQ, fun hQ => ⟨_, _, rfl, hQ⟩⟩

@[simp] theorem runs_setRoot {Q : Unit → RbTree ν → Prop} :
    Runs (setRoot p) t Q ↔ Q () { t with root := p } :=
  ⟨fun ⟨_, _, hm, hQ⟩ => by cases hm; exact hQ, fun hQ => ⟨_, _, rfl, hQ⟩⟩

section Fields

variable (r : RbNode ν) (d : Dir) (c : Color) (k : BitVec 32)

@[simp] theorem child_setChild_same : (r.setChild d p).child d = p := by cases d <;> rfl

@[simp] theorem child_setChild_flip : (r.setChild d p).child d.flip = r.child d.flip := by
  cases d <;> rfl

@[simp] theorem child_flip_setChild : (r.setChild d.flip p).child d = r.child d := by
  cases d <;> rfl

@[simp] theorem parent_setChild : (r.setChild d p).parent = r.parent := by cases d <;> rfl

@[simp] theorem color_setChild : (r.setChild d p).color = r.color := by cases d <;> rfl

@[simp] theorem key_setChild : (r.setChild d p).key = r.key := by cases d <;> rfl

@[simp] theorem child_setParent : (r.setParent p).child d = r.child d := by cases d <;> rfl

@[simp] theorem parent_setParent : (r.setParent p).parent = p := rfl

@[simp] theorem color_setParent : (r.setParent p).color = r.color := rfl

@[simp] theorem key_setParent : (r.setParent p).key = r.key := rfl

@[simp] theorem child_setColor : (r.setColor c).child d = r.child d := by cases d <;> rfl

@[simp] theorem parent_setColor : (r.setColor c).parent = r.parent := rfl

@[simp] theorem color_setColor : (r.setColor c).color = c := rfl

@[simp] theorem key_setColor : (r.setColor c).key = r.key := rfl

@[simp] theorem child_setKey : (r.setKey k).child d = r.child d := by cases d <;> rfl

@[simp] theorem parent_setKey : (r.setKey k).parent = r.parent := rfl

@[simp] theorem color_setKey : (r.setKey k).color = r.color := rfl

@[simp] theorem key_setKey : (r.setKey k).key = k := rfl

@[simp] theorem setChild_setParent :
    (r.setParent p).setChild d q = (r.setChild d q).setParent p := by
  cases d <;> rfl

@[simp] theorem setParent_setParent : (r.setParent p).setParent q = r.setParent q := rfl

end Fields

variable [DecidableEq ν]

@[simp] theorem runs_loadNode {Q : RbNode ν → RbTree ν → Prop} :
    Runs (loadNode p) t Q ↔ p ≠ .null ∧ Q (t.heap p) t := by
  unfold loadNode Runs
  by_cases hp : p = .null <;> simp [hp]

@[simp] theorem runs_storeNode {f : RbNode ν → RbNode ν} {Q : Unit → RbTree ν → Prop} :
    Runs (storeNode p f) t Q ↔
      p ≠ .null ∧ Q () { t with heap := Function.update t.heap p (f (t.heap p)) } := by
  unfold storeNode Runs
  by_cases hp : p = .null
  · simp [hp]
  · simp only [hp, if_false, ne_eq, not_false_eq_true, true_and]
    exact ⟨fun ⟨_, _, hm, hQ⟩ => by cases hm; exact hQ, fun hQ => ⟨_, _, rfl, hQ⟩⟩

@[simp] theorem runs_getKey {Q : BitVec 32 → RbTree ν → Prop} :
    Runs (getKey p) t Q ↔ p ≠ .null ∧ Q (t.heap p).key t := by
  simp only [getKey, runs_bind, runs_loadNode, runs_pure]

@[simp] theorem runs_getParent {Q : Ptr ν → RbTree ν → Prop} :
    Runs (getParent p) t Q ↔ p ≠ .null ∧ Q (t.heap p).parent t := by
  simp only [getParent, runs_bind, runs_loadNode, runs_pure]

@[simp] theorem runs_getChild {d : Dir} {Q : Ptr ν → RbTree ν → Prop} :
    Runs (getChild d p) t Q ↔ p ≠ .null ∧ Q ((t.heap p).child d) t := by
  simp only [getChild, runs_bind, runs_loadNode, runs_pure]

@[simp] theorem runs_isRed {Q : Bool → RbTree ν → Prop} :
    Runs (isRed p) t Q ↔ p ≠ .null ∧ Q (decide ((t.heap p).color = .red)) t := by
  simp only [isRed, runs_bind, runs_loadNode, runs_pure]

@[simp] theorem runs_isBlack {Q : Bool → RbTree ν → Prop} :
    Runs (isBlack p) t Q ↔ p ≠ .null ∧ Q (decide ((t.heap p).color = .black)) t := by
  simp only [isBlack, runs_bind, runs_loadNode, runs_pure]

@[simp] theorem runs_grandFather {p : Ptr ν} {Q : Ptr ν → RbTree ν → Prop} :
    Runs (grandFather p) t Q ↔
      p ≠ .null ∧ (t.heap p).parent ≠ .null ∧ Q (t.heap (t.heap p).parent).parent t := by
  simp only [grandFather, runs_bind, runs_getParent]

end Primitives

/-! ## trees in the heap -/

/-- The pointer to a tree. -/
def ptr : BinTree ν → Ptr ν
  | .leaf => .sentinel
  | .node _ _ n _ => .node n

/-- The pointers and colors of `T`, apart from its root's parent. -/
def Links (h : Ptr ν → RbNode ν) : BinTree ν → Prop
  | .leaf => True
  | .node c l n r =>
      (h (.node n)).color = c ∧ (h (.node n)).left = ptr l ∧ (h (.node n)).right = ptr r ∧
        (l ≠ .leaf → (h (ptr l)).parent = .node n) ∧ (r ≠ .leaf → (h (ptr r)).parent = .node n) ∧
        Links h l ∧ Links h r

@[simp] theorem ptr_fork (d : Dir) (c : Color) (n : ν) (a b : BinTree ν) :
    ptr (.fork d c n a b) = .node n := by
  cases d <;> rfl

@[simp] theorem ptr_ne_null (T : BinTree ν) : ptr T ≠ .null := by cases T <;> simp [ptr]

theorem ptr_eq_sentinel {T : BinTree ν} : ptr T = .sentinel ↔ T = .leaf := by
  cases T <;> simp [ptr]

theorem links_fork {h : Ptr ν → RbNode ν} {d : Dir} {c : Color} {n : ν} {a b : BinTree ν} :
    Links h (.fork d c n a b) ↔
      (h (.node n)).color = c ∧ (h (.node n)).child d = ptr a ∧
        (h (.node n)).child d.flip = ptr b ∧ (a ≠ .leaf → (h (ptr a)).parent = .node n) ∧
        (b ≠ .leaf → (h (ptr b)).parent = .node n) ∧ Links h a ∧ Links h b := by
  cases d
  · rfl
  · simp only [BinTree.fork, Links, RbNode.child, Dir.flip]
    tauto

/-- The links of a tree depend on its own nodes only, and not on its root's
parent. -/
theorem links_congr {h h' : Ptr ν → RbNode ν} {T : BinTree ν}
    (hfields : ∀ n ∈ T.toList, (h' (.node n)).color = (h (.node n)).color ∧
      (h' (.node n)).left = (h (.node n)).left ∧ (h' (.node n)).right = (h (.node n)).right)
    (hparent : ∀ n ∈ T.toList, ptr T ≠ .node n → (h' (.node n)).parent = (h (.node n)).parent)
    (hnodup : T.toList.Nodup) (hT : Links h T) : Links h' T := by
  induction T with
  | leaf => trivial
  | node c l n r ihl ihr =>
      simp only [BinTree.toList, List.mem_append, List.mem_cons] at hfields hparent
      obtain ⟨hl, hr', hdisj⟩ := List.nodup_append.mp hnodup
      obtain ⟨hnr, hr⟩ := List.nodup_cons.mp hr'
      have hnl : n ∉ l.toList := fun hn => hdisj n hn n (List.mem_cons_self ..) rfl
      obtain ⟨hc, hleft, hright, hpl, hpr, hlinksl, hlinksr⟩ := hT
      obtain ⟨hc', hleft', hright'⟩ := hfields n (.inr (.inl rfl))
      have hchild : ∀ t : BinTree ν, (∀ m ∈ t.toList, m ∈ l.toList ∨ m ∈ r.toList) →
          (t ≠ .leaf → (h (ptr t)).parent = .node n) → t ≠ .leaf → (h' (ptr t)).parent = .node n := by
        intro t hsub hp hne
        cases t with
        | leaf => exact absurd rfl hne
        | node c' l' m r' =>
            have hm := hsub m (by simp [BinTree.toList])
            have hmn : n ≠ m := by
              rintro rfl
              rcases hm with hm | hm
              · exact hnl hm
              · exact hnr hm
            rw [← hp hne]
            exact hparent m (hm.imp_right .inr) (by simpa [ptr] using hmn)
      refine ⟨hc'.trans hc, hleft'.trans hleft, hright'.trans hright,
        hchild l (fun _ h => .inl h) hpl, hchild r (fun _ h => .inr h) hpr, ?_, ?_⟩
      · refine ihl (fun m hm => hfields m (.inl hm)) (fun m hm _ => hparent m (.inl hm) ?_) hl hlinksl
        rintro heq
        obtain rfl : n = m := by simpa [ptr] using heq
        exact hnl hm
      · refine ihr (fun m hm => hfields m (.inr (.inr hm)))
          (fun m hm _ => hparent m (.inr (.inr hm)) ?_) hr hlinksr
        rintro heq
        obtain rfl : n = m := by simpa [ptr] using heq
        exact hnr hm

/-- The links of the nodes above the focus, with `T` at the focus. -/
def PathLinks (h : Ptr ν → RbNode ν) : Path ν → BinTree ν → Prop
  | [], _ => True
  | f :: z, T =>
      (h (.node f.node)).color = f.color ∧ (h (.node f.node)).child f.dir = ptr T ∧
        (h (.node f.node)).child f.dir.flip = ptr f.sib ∧
        (T ≠ .leaf → (h (ptr T)).parent = .node f.node) ∧
        (f.sib ≠ .leaf → (h (ptr f.sib)).parent = .node f.node) ∧ Links h f.sib ∧
        PathLinks h z (f.fill T)

theorem links_fill {h : Ptr ν → RbNode ν} {z : Path ν} {T : BinTree ν} :
    Links h (fill z T) ↔ Links h T ∧ PathLinks h z T := by
  induction z generalizing T with
  | nil => simp [PathLinks]
  | cons f z ih =>
      rw [fill_cons, ih, Frame.fill, links_fork, PathLinks, Frame.fill]
      tauto

theorem ptr_fill_congr (z : Path ν) {T T' : BinTree ν} (h : ptr T = ptr T') :
    ptr (fill z T) = ptr (fill z T') := by
  induction z generalizing T T' with
  | nil => exact h
  | cons f z ih => exact ih (by simp [Frame.fill])

/-- Below the root, the root is another node. -/
theorem ptr_fill_outside (f : Frame ν) (z : Path ν) (T : BinTree ν) :
    ∃ m ∈ outside (f :: z), ptr (fill (f :: z) T) = .node m := by
  induction z generalizing f T with
  | nil => exact ⟨f.node, by simp [outside], by simp [fill, Frame.fill]⟩
  | cons g z ih =>
      obtain ⟨m, hm, hptr⟩ := ih g (f.fill T)
      exact ⟨m, by simp only [outside, List.mem_cons, List.mem_append] at hm ⊢; tauto, hptr⟩

/-- The links above the focus depend on the subtree by its pointer only. -/
theorem pathLinks_congr {h h' : Ptr ν → RbNode ν} {z : Path ν} {T T' : BinTree ν}
    (hout : ∀ n ∈ outside z, h' (.node n) = h (.node n)) (hptr : ptr T' = ptr T)
    (hparent : T ≠ .leaf → (h' (ptr T)).parent = (h (ptr T)).parent) (hnodup : (outside z).Nodup)
    (hz : PathLinks h z T) : PathLinks h' z T' := by
  induction z generalizing T T' with
  | nil => trivial
  | cons f z ih =>
      obtain ⟨hc, hd, hflip, hpT, hpsib, hsib, hrest⟩ := hz
      simp only [outside, List.mem_cons, List.mem_append] at hout
      have hf := hout f.node (.inl rfl)
      obtain ⟨hfnot, hrest'⟩ := List.nodup_cons.mp hnodup
      obtain ⟨hsibdup, hzdup, -⟩ := List.nodup_append.mp hrest'
      have hleaf : T' = .leaf ↔ T = .leaf := by rw [← ptr_eq_sentinel, hptr, ptr_eq_sentinel]
      refine ⟨by rw [hf, hc], by rw [hf, hd, hptr], by rw [hf, hflip], ?_, ?_, ?_, ?_⟩
      · intro hne
        rw [hptr, hparent (mt hleaf.mpr hne), hpT (mt hleaf.mpr hne)]
      · intro hne
        obtain ⟨c, n, a, b, heq⟩ := BinTree.eq_fork .left f.sib hne
        have hmem : n ∈ f.sib.toList := by rw [heq]; simp [BinTree.fork, BinTree.toList]
        rw [← hpsib hne, heq, ptr_fork, hout n (.inr (.inl hmem))]
      · exact links_congr (fun n hn => by rw [hout n (.inr (.inl hn))]; simp)
          (fun n hn _ => by rw [hout n (.inr (.inl hn))]) hsibdup hsib
      · refine ih (fun n hn => hout n (.inr (.inr hn))) (by simp [Frame.fill]) ?_ hzdup hrest
        intro _
        rw [Frame.fill, ptr_fork, hf]

/-- The heap of `t` holds the tree `T`. -/
structure Holds (t : RbTree ν) (T : BinTree ν) : Prop where
  root : t.root = ptr T
  links : Links t.heap T
  nodup : T.toList.Nodup

theorem Links.unique {h : Ptr ν → RbNode ν} {T T' : BinTree ν} (hT : Links h T) (hT' : Links h T')
    (hptr : ptr T = ptr T') : T = T' := by
  induction T generalizing T' with
  | leaf => exact (ptr_eq_sentinel.mp hptr.symm).symm
  | node c l n r ihl ihr =>
      cases T' with
      | leaf => cases hptr
      | node c' l' n' r' =>
          cases hptr
          obtain ⟨hc, hl, hr, -, -, hlinksl, hlinksr⟩ := hT
          obtain ⟨hc', hl', hr', -, -, hlinksl', hlinksr'⟩ := hT'
          rw [ihl hlinksl hlinksl' (hl.symm.trans hl'), ihr hlinksr hlinksr' (hr.symm.trans hr'),
            hc.symm.trans hc']

/-- A heap holds one tree at most. -/
theorem Holds.unique {t : RbTree ν} {T T' : BinTree ν} (h : Holds t T) (h' : Holds t T') : T = T' :=
  h.links.unique h'.links (h.root.symm.trans h'.root)

/-- Nothing but the nodes `ns` has changed, and no key. -/
structure Kept (ns : List ν) (t t' : RbTree ν) : Prop where
  heap : ∀ p, (∀ n ∈ ns, p ≠ .node n) → t'.heap p = t.heap p
  key : ∀ p, (t'.heap p).key = (t.heap p).key

theorem Kept.refl (ns : List ν) (t : RbTree ν) : Kept ns t t := ⟨fun _ _ => rfl, fun _ => rfl⟩

theorem Kept.trans {t t' t'' : RbTree ν} (h : Kept ns t t') (h' : Kept ns t' t'') : Kept ns t t'' :=
  ⟨fun p hp => (h'.heap p hp).trans (h.heap p hp), fun p => (h'.key p).trans (h.key p)⟩

theorem Kept.mono {ns ms : List ν} {t t' : RbTree ν} (h : Kept ms t t') (hsub : ms ⊆ ns) : Kept ns t t' :=
  ⟨fun p hp => h.heap p fun m hm => hp m (hsub hm), h.key⟩

/-- The nodes of a tree with a node at the focus. -/
theorem nodup_fill_fork {z : Path ν} {d : Dir} {c : Color} {n : ν} {a b : BinTree ν}
    (h : (fill z (.fork d c n a b)).toList.Nodup) :
    (n :: (a.toList ++ b.toList) ++ outside z).Nodup :=
  ((toList_fill_perm z _).trans ((BinTree.toList_fork_perm d c n a b).append_right _)).nodup_iff.mp h

theorem mem_fill_fork {z : Path ν} {d : Dir} {c : Color} {n : ν} {a b : BinTree ν} :
    n ∈ (fill z (.fork d c n a b)).toList :=
  ((toList_fill_perm z _).trans ((BinTree.toList_fork_perm d c n a b).append_right _)).mem_iff.mpr
    (by simp)

/-- The record of a tree's root is one of its nodes'. -/
theorem heap_ptr {h h' : Ptr ν → RbNode ν} {T : BinTree ν}
    (hT : ∀ n ∈ T.toList, h' (.node n) = h (.node n)) (hne : T ≠ .leaf) :
    h' (ptr T) = h (ptr T) := by
  cases T with
  | leaf => exact absurd rfl hne
  | node c l n r => exact hT n (by simp [BinTree.toList])

/-- A tree whose nodes have not changed. -/
theorem Links.frame {h h' : Ptr ν → RbNode ν} {T : BinTree ν}
    (hT : ∀ n ∈ T.toList, h' (.node n) = h (.node n)) (hnodup : T.toList.Nodup) (hlinks : Links h T) :
    Links h' T :=
  links_congr (fun n hn => by rw [hT n hn]; simp) (fun n hn _ => by rw [hT n hn]) hnodup hlinks

/-- What the nodes of a tree with a node at the focus have to do with each
other. -/
structure Apart (z : Path ν) (n : ν) (a b : BinTree ν) : Prop where
  left : n ∉ a.toList
  right : n ∉ b.toList
  above : n ∉ outside z
  leftNodup : a.toList.Nodup
  rightNodup : b.toList.Nodup
  aboveNodup : (outside z).Nodup
  sides : ∀ m ∈ a.toList, m ∉ b.toList
  leftAbove : ∀ m ∈ a.toList, m ∉ outside z
  rightAbove : ∀ m ∈ b.toList, m ∉ outside z

theorem apart_of_nodup {z : Path ν} {d : Dir} {c : Color} {n : ν} {a b : BinTree ν}
    (h : (fill z (.fork d c n a b)).toList.Nodup) : Apart z n a b := by
  have hnodup := nodup_fill_fork h
  simp only [List.cons_append, List.nodup_cons, List.nodup_append, List.mem_append, not_or,
    ne_eq] at hnodup
  obtain ⟨⟨⟨hl, hr⟩, ha⟩, ⟨hln, hrn, hs⟩, han, hab⟩ := hnodup
  exact ⟨hl, hr, ha, hln, hrn, han, fun m hm hm' => hs m hm m hm' rfl,
    fun m hm hm' => hab m (.inl hm) m hm' rfl, fun m hm hm' => hab m (.inr hm) m hm' rfl⟩

/-- The same of the child on the other side. -/
theorem apart_of_nodup_right {z : Path ν} {d : Dir} {c c' : Color} {n m : ν} {a b e : BinTree ν}
    (h : (fill z (.fork d c n a (.fork d c' m b e))).toList.Nodup) :
    Apart (⟨d.flip, c, n, a⟩ :: z) m b e := by
  rw [← BinTree.fork_flip] at h
  exact apart_of_nodup (z := ⟨d.flip, c, n, a⟩ :: z) h

theorem mem_of_ptr {T : BinTree ν} {n : ν} (h : ptr T = .node n) : n ∈ T.toList := by
  cases T with
  | leaf => cases h
  | node c l m r =>
      cases h
      simp [BinTree.toList]

theorem ptr_ne_node {T : BinTree ν} {n : ν} (h : n ∉ T.toList) : ptr T ≠ .node n := mt mem_of_ptr h

theorem ptr_ne_ptr {T T' : BinTree ν} (hdisj : ∀ n ∈ T.toList, n ∉ T'.toList) (hne : T ≠ .leaf) :
    ptr T ≠ ptr T' := by
  cases T with
  | leaf => exact absurd rfl hne
  | node c l n r => exact (ptr_ne_node (hdisj n (by simp [BinTree.toList]))).symm

theorem ptr_fill_cons (f : Frame ν) (z : Path ν) (T T' : BinTree ν) :
    ptr (fill (f :: z) T) = ptr (fill (f :: z) T') :=
  ptr_fill_congr z ((ptr_fork ..).trans (ptr_fork ..).symm)

theorem head_mem_outside {z : Path ν} {f : Frame ν} (h : f ∈ z.head?) : f.node ∈ outside z := by
  cases z with
  | nil => cases h
  | cons g z =>
      cases h
      simp [outside]

/-- Another subtree at the focus, linked to the node above. -/
theorem pathLinks_relink {h h' : Ptr ν → RbNode ν} {z : Path ν} {T T' : BinTree ν}
    (hover : ∀ f ∈ z.head?, h' (.node f.node) = (h (.node f.node)).setChild f.dir (ptr T'))
    (hrest : ∀ m ∈ outside z, (∀ f ∈ z.head?, m ≠ f.node) → h' (.node m) = h (.node m))
    (hparent : ∀ f ∈ z.head?, T' ≠ .leaf → (h' (ptr T')).parent = .node f.node)
    (hnodup : (outside z).Nodup) (hz : PathLinks h z T) : PathLinks h' z T' := by
  cases z with
  | nil => trivial
  | cons f z =>
      obtain ⟨hc, hd, hflip, -, hpsib, hsib, hz⟩ := hz
      simp only [List.head?_cons, Option.mem_def, Option.some.injEq, forall_eq'] at hover hparent hrest
      simp only [outside, List.nodup_cons, List.mem_append, not_or] at hnodup
      obtain ⟨⟨hfsib, hfz⟩, hnodup⟩ := hnodup
      obtain ⟨hsibdup, hzdup, -⟩ := List.nodup_append.mp hnodup
      have hsame : ∀ m ∈ f.sib.toList, h' (.node m) = h (.node m) := fun m hm =>
        hrest m (by simp [outside, hm]) (fun heq => hfsib (heq ▸ hm))
      refine ⟨by simpa [hover] using hc, by simp [hover], by simpa [hover] using hflip, hparent, ?_,
        hsib.frame hsame hsibdup, ?_⟩
      · exact fun hne => (congrArg RbNode.parent (heap_ptr hsame hne)).trans (hpsib hne)
      · refine pathLinks_congr ?_ (by simp [Frame.fill]) (by simp [Frame.fill, hover]) hzdup hz
        exact fun m hm => hrest m (by simp [outside, hm]) (fun heq => hfz (heq ▸ hm))

/-- `n` hangs below the path. -/
def HangsAt (t : RbTree ν) (n : ν) : Path ν → Prop
  | [] => t.root = .node n
  | f :: _ => t.root ≠ .node n ∧ (t.heap (.node n)).parent = .node f.node ∧
      (t.heap (.node f.node)).child f.dir = .node n ∧
      (t.heap (.node f.node)).child f.dir.flip ≠ .node n

/-- Where the focus of a tree hangs. -/
theorem Holds.hangsAt {t : RbTree ν} {z : Path ν} {d : Dir} {c : Color} {n : ν} {a b : BinTree ν}
    (h : Holds t (fill z (.fork d c n a b))) : HangsAt t n z := by
  have hapart := apart_of_nodup h.nodup
  obtain ⟨-, hpath⟩ := links_fill.mp h.links
  cases z with
  | nil => exact h.root.trans (ptr_fork ..)
  | cons f z =>
      obtain ⟨-, hchild, hother, hparent, -⟩ := hpath
      obtain ⟨m, hm, hroot⟩ := ptr_fill_outside f z (.fork d c n a b)
      refine ⟨?_, by simpa using hparent (by simp), by simpa using hchild, ?_⟩
      · rw [h.root, hroot]
        rintro ⟨⟩
        exact hapart.above hm
      · rw [hother]
        refine ptr_ne_node fun hn => hapart.above ?_
        simp [outside, hn]

variable [DecidableEq ν]

/-- A store to one node leaves the others. -/
theorem update_node {h : Ptr ν → RbNode ν} {n m : ν} {r : RbNode ν} (hne : m ≠ n) :
    Function.update h (.node n) r (.node m) = h (.node m) :=
  Function.update_of_ne (by simpa using hne) _ _

theorem update_nodes {h : Ptr ν → RbNode ν} {n : ν} {r : RbNode ν} {ns : List ν} (hn : n ∉ ns) :
    ∀ m ∈ ns, Function.update h (.node n) r (.node m) = h (.node m) := by
  intro m hm
  refine update_node ?_
  rintro rfl
  exact hn hm

/-- Painting the node at the focus. -/
theorem paint_holds {t : RbTree ν} {z : Path ν} {d : Dir} {c : Color} {n : ν} {a b : BinTree ν}
    (h : Holds t (fill z (.fork d c n a b))) (c' : Color) :
    Runs (paint (.node n) c') t fun _ t' =>
      Holds t' (fill z (.fork d c' n a b)) ∧ Kept (fill z (.fork d c n a b)).toList t t' := by
  have hapart := apart_of_nodup h.nodup
  obtain ⟨hlinks, hpath⟩ := links_fill.mp h.links
  obtain ⟨hc, hd, hflip, hpa, hpb, ha, hb⟩ := links_fork.mp hlinks
  have hlist : (fill z (.fork d c' n a b)).toList = (fill z (.fork d c n a b)).toList := by
    rw [toList_fill, toList_fill, BinTree.toList_fork_color d c c']
  have hroot : ptr (fill z (.fork d c' n a b)) = ptr (fill z (.fork d c n a b)) :=
    ptr_fill_congr z (by simp)
  rw [paint, runs_storeNode]
  refine ⟨by simp, ⟨h.root.trans hroot.symm, links_fill.mpr ⟨links_fork.mpr ?_, ?_⟩,
    hlist ▸ h.nodup⟩, ?_⟩
  · have hleft := update_nodes (h := t.heap) (r := (t.heap (.node n)).setColor c') hapart.left
    have hright := update_nodes (h := t.heap) (r := (t.heap (.node n)).setColor c') hapart.right
    refine ⟨by simp, by simpa using hd, by simpa using hflip, ?_, ?_, ha.frame hleft hapart.leftNodup,
      hb.frame hright hapart.rightNodup⟩
    · exact fun hne => (congrArg RbNode.parent (heap_ptr hleft hne)).trans (hpa hne)
    · exact fun hne => (congrArg RbNode.parent (heap_ptr hright hne)).trans (hpb hne)
  · refine pathLinks_congr (update_nodes hapart.above) (by simp) ?_ hapart.aboveNodup hpath
    simp
  · refine ⟨fun p hp => Function.update_of_ne (hp n mem_fill_fork) _ _, fun p => ?_⟩
    by_cases hp : p = .node n
    · subst hp
      simp
    · exact congrArg RbNode.key (Function.update_of_ne hp _ _)

/-! ## rotations -/

/-- `q` in the place of the focus. -/
def relinked (t : RbTree ν) (q : Ptr ν) : Path ν → RbTree ν
  | [] => { t with root := q }
  | f :: _ =>
      let r := t.heap (.node f.node)
      { t with heap := Function.update t.heap (.node f.node) (r.setChild f.dir q) }

theorem relink_runs {t : RbTree ν} {n : ν} {z : Path ν} (h : HangsAt t n z) (d : Dir) (q : Ptr ν)
    {Q : Unit → RbTree ν → Prop} :
    Runs (relink d (.node n) q) t Q ↔ Q () (relinked t q z) := by
  unfold relink
  cases z with
  | nil =>
      have hroot : .node n = t.root := h.symm
      simp [runs_ite, ← hroot, relinked]
  | cons f z =>
      obtain ⟨hroot, hparent, hchild, hother⟩ := h
      simp only [runs_bind, runs_getRoot, runs_ite, runs_getParent, runs_getChild, setChild,
        runs_storeNode, hparent, if_neg hroot.symm]
      by_cases hd : d = f.dir
      · subst hd
        simp [hchild, relinked]
      · obtain rfl := Dir.eq_flip_of_ne hd
        simp [hother.symm, relinked]

theorem adopt_runs {t : RbTree ν} {p q : Ptr ν} (hp : p ≠ .null) {Q : Unit → RbTree ν → Prop} :
    Runs (adopt p q) t Q ↔ Q () (if p = .sentinel then t else
      { t with heap := Function.update t.heap p ((t.heap p).setParent q) }) := by
  unfold adopt
  by_cases hsent : p = .sentinel <;> simp [hsent, setParent, hp]

/-- What a rotation does to the heap: `n` goes down, `m` comes up, and what
stood between them is at `p`. -/
structure Rotated (d : Dir) (n m : ν) (p : Ptr ν) (z : Path ν) (t t' : RbTree ν) : Prop where
  root : t'.root = (relinked t (.node m) z).root
  lower : t'.heap (.node n) = ((t.heap (.node n)).setChild d.flip p).setParent (.node m)
  upper : t'.heap (.node m) =
    ((t.heap (.node m)).setChild d (.node n)).setParent (t.heap (.node n)).parent
  middle : p ≠ .sentinel → t'.heap p = (t.heap p).setParent (.node n)
  above : ∀ f ∈ z.head?, t'.heap (.node f.node) = (t.heap (.node f.node)).setChild f.dir (.node m)
  rest : ∀ q, q ≠ .node n → q ≠ .node m → (q = p → p = .sentinel) →
    (∀ f ∈ z.head?, q ≠ .node f.node) → t'.heap q = t.heap q

theorem rotate_runs {t : RbTree ν} {d : Dir} {n m : ν} {p : Ptr ν} {z : Path ν}
    (hm : (t.heap (.node n)).child d.flip = .node m) (hp : (t.heap (.node m)).child d = p)
    (hmn : m ≠ n) (hnull : p ≠ .null) (hpn : p ≠ .node n) (hpm : p ≠ .node m) (hz : HangsAt t n z)
    (hapart : ∀ f ∈ z.head?, f.node ≠ n ∧ f.node ≠ m ∧ p ≠ .node f.node) :
    Runs (rotate d (.node n)) t fun _ t' => Rotated d n m p z t t' := by
  have hnm : n ≠ m := hmn.symm
  unfold rotate
  simp only [runs_bind, runs_getChild, runs_getParent, setChild, setParent, runs_storeNode, hm]
  have hread : (Function.update t.heap (.node n) ((t.heap (.node n)).setChild d.flip p)
      (.node m)).child d = p := by simpa [update_node hmn] using hp
  simp only [hp, hread, adopt_runs hnull, ne_eq, reduceCtorEq, not_false_eq_true, true_and]
  have hnp := hpn.symm
  have hmp := hpm.symm
  by_cases hsent : p = .sentinel <;> cases z with
  | nil =>
      rw [relink_runs (z := []) (by simpa [HangsAt, hsent] using hz)]
      constructor <;>
        simp_all [relinked, Function.update_apply]
  | cons f z =>
      obtain ⟨hfn, hfm, hpf⟩ := hapart f rfl
      have hnf := hfn.symm
      have hmf := hfm.symm
      have hfp := hpf.symm
      rw [relink_runs (z := f :: z)]
      · constructor <;>
          simp_all [relinked, Function.update_apply]
      · obtain ⟨hroot, hparent, hchild, hother⟩ := hz
        refine ⟨?_, ?_, ?_, ?_⟩ <;>
          simp_all
theorem Rotated.key {d : Dir} {n m : ν} {p : Ptr ν} {z : Path ν} {t t' : RbTree ν}
    (h : Rotated d n m p z t t') (q : Ptr ν) : (t'.heap q).key = (t.heap q).key := by
  by_cases hn : q = .node n
  · simp [hn, h.lower]
  by_cases hm : q = .node m
  · simp [hm, h.upper]
  by_cases hp : q = p ∧ p ≠ .sentinel
  · simp [hp.1, h.middle hp.2]
  by_cases hz : ∃ f ∈ z.head?, q = .node f.node
  · obtain ⟨f, hf, rfl⟩ := hz
    simp [h.above f hf]
  · rw [h.rest q hn hm (by tauto) (fun f hf heq => hz ⟨f, hf, heq⟩)]

theorem Rotated.holds {t t' : RbTree ν} {z : Path ν} {d : Dir} {c c' : Color} {n m : ν}
    {a b e : BinTree ν} (h : Holds t (fill z (.fork d c n a (.fork d c' m b e))))
    (hrot : Rotated d n m (ptr b) z t t') :
    Holds t' (fill z (.fork d c' m (.fork d c n a b) e)) ∧
      Kept (fill z (.fork d c n a (.fork d c' m b e))).toList t t' := by
  have hlist : (fill z (.fork d c' m (.fork d c n a b) e)).toList =
      (fill z (.fork d c n a (.fork d c' m b e))).toList := by
    rw [toList_fill, toList_fill, BinTree.toList_rotate]
  have hn := apart_of_nodup h.nodup
  have hm := apart_of_nodup_right h.nodup
  obtain ⟨hlinks, hpath⟩ := links_fill.mp h.links
  obtain ⟨hcn, hna, hnm, hpa, hpm, ha, hlinks⟩ := links_fork.mp hlinks
  obtain ⟨hcm, hmb, hme, hpb, hpe, hb, he⟩ := links_fork.mp hlinks
  obtain ⟨hmn, hma, hmz⟩ : m ≠ n ∧ m ∉ a.toList ∧ m ∉ outside z := by
    simpa [outside] using hm.above
  obtain ⟨-, hnb, hne⟩ : n ≠ m ∧ n ∉ b.toList ∧ n ∉ e.toList := by simpa using hn.right
  have hsub : ∀ x, x ∈ b.toList ∨ x ∈ e.toList → x ∉ outside z := fun x hx =>
    hn.rightAbove x (BinTree.mem_fork.mpr (.inr hx))
  -- the nodes that keep their records
  have hrest : ∀ x, x ≠ n → x ≠ m → ptr b ≠ .node x → (∀ f ∈ z.head?, x ≠ f.node) →
      t'.heap (.node x) = t.heap (.node x) := fun x hxn hxm hxb hxz =>
    hrot.rest _ (by simpa using hxn) (by simpa using hxm) (fun heq => absurd heq.symm hxb)
      fun f hf => by simpa using hxz f hf
  have hkept : ∀ x, x ≠ n → x ≠ m → x ∉ b.toList → x ∉ outside z →
      t'.heap (.node x) = t.heap (.node x) := fun x hxn hxm hxb hxz =>
    hrest x hxn hxm (ptr_ne_node hxb) fun f hf heq => hxz (heq ▸ head_mem_outside hf)
  have hsamea : ∀ x ∈ a.toList, t'.heap (.node x) = t.heap (.node x) := fun x hx =>
    hkept x (fun heq => hn.left (heq ▸ hx)) (fun heq => hma (heq ▸ hx))
      (fun hxb => hn.sides x hx (BinTree.mem_fork.mpr (.inr (.inl hxb)))) (hn.leftAbove x hx)
  have hsamee : ∀ x ∈ e.toList, t'.heap (.node x) = t.heap (.node x) := fun x hx =>
    hkept x (fun heq => hne (heq ▸ hx)) (fun heq => hm.right (heq ▸ hx))
      (fun hxb => hm.sides x hxb hx) (hsub x (.inr hx))
  have hsameb : ∀ x ∈ b.toList, ptr b ≠ .node x → t'.heap (.node x) = t.heap (.node x) :=
    fun x hx hxb => hrest x (fun heq => hnb (heq ▸ hx)) (fun heq => hm.left (heq ▸ hx)) hxb
      fun f hf heq => hsub x (.inl hx) (heq ▸ head_mem_outside hf)
  have hlinksb : Links t'.heap b := by
    refine links_congr (fun x hx => ?_) (fun x hx hxb => by rw [hsameb x hx hxb]) hm.leftNodup hb
    by_cases hxb : ptr b = .node x
    · have hroot := hrot.middle (by simp [hxb])
      rw [hxb] at hroot
      simp [hroot, RbNode.setParent]
    · simp [hsameb x hx hxb]
  refine ⟨⟨?_, links_fill.mpr ⟨links_fork.mpr ⟨?_, ?_, ?_, ?_, ?_, links_fork.mpr ⟨?_, ?_, ?_, ?_, ?_,
    ?_, ?_⟩, ?_⟩, ?_⟩, hlist ▸ h.nodup⟩, ?_, hrot.key⟩
  · rw [hrot.root]
    cases z with
    | nil => simp [relinked]
    | cons f z => exact h.root.trans (ptr_fill_cons ..)
  · simpa [hrot.upper] using hcm
  · simp [hrot.upper]
  · simpa [hrot.upper] using hme
  · simp [hrot.lower]
  · exact fun hleaf => (congrArg RbNode.parent (heap_ptr hsamee hleaf)).trans (hpe hleaf)
  · simpa [hrot.lower] using hcn
  · simpa [hrot.lower] using hna
  · simp [hrot.lower]
  · exact fun hleaf => (congrArg RbNode.parent (heap_ptr hsamea hleaf)).trans (hpa hleaf)
  · intro hleaf
    simp [hrot.middle (mt ptr_eq_sentinel.mp hleaf)]
  · exact ha.frame hsamea hn.leftNodup
  · exact hlinksb
  · exact he.frame hsamee hm.rightNodup
  · refine pathLinks_relink (fun f hf => ?_) (fun x hx hxz => ?_) (fun f hf _ => ?_) hn.aboveNodup hpath
    · simpa using hrot.above f hf
    · exact hrest x (fun heq => hn.above (heq ▸ hx)) (fun heq => hmz (heq ▸ hx))
        (ptr_ne_node fun hxb => hsub x (.inl hxb) hx) hxz
    · cases z with
      | nil => cases hf
      | cons g z =>
          cases hf
          simpa [hrot.upper] using h.hangsAt.2.1
  · intro q hq
    simp only [(toList_fill_perm _ _).mem_iff, List.mem_append, BinTree.mem_fork] at hq
    refine hrot.rest q (hq n (by simp)) (hq m (by simp)) (fun heq => ?_)
      fun f hf => hq f.node (.inr (head_mem_outside hf))
    cases b with
    | leaf => rfl
    | node c l x r => exact absurd heq (hq x (by simp [BinTree.toList]))

/-- A rotation at the focus. -/
theorem rotate_holds {t : RbTree ν} {z : Path ν} {d : Dir} {c c' : Color} {n m : ν} {a b e : BinTree ν}
    (h : Holds t (fill z (.fork d c n a (.fork d c' m b e)))) :
    Runs (rotate d (.node n)) t fun _ t' =>
      Holds t' (fill z (.fork d c' m (.fork d c n a b) e)) ∧
        Kept (fill z (.fork d c n a (.fork d c' m b e))).toList t t' := by
  have hn := apart_of_nodup h.nodup
  have hm := apart_of_nodup_right h.nodup
  obtain ⟨hlinks, -⟩ := links_fill.mp h.links
  obtain ⟨-, -, hnm, -, -, -, hlinks⟩ := links_fork.mp hlinks
  obtain ⟨-, hmb, -⟩ := links_fork.mp hlinks
  obtain ⟨hmn, -, hmz⟩ : m ≠ n ∧ m ∉ a.toList ∧ m ∉ outside z := by
    simpa [outside] using hm.above
  obtain ⟨-, hnb, -⟩ : n ≠ m ∧ n ∉ b.toList ∧ n ∉ e.toList := by simpa using hn.right
  have hhead : ∀ f ∈ z.head?, f.node ≠ n ∧ f.node ≠ m ∧ ptr b ≠ .node f.node := fun f hf =>
    have hmem := head_mem_outside hf
    ⟨fun heq => hn.above (heq ▸ hmem), fun heq => hmz (heq ▸ hmem),
      ptr_ne_node fun hb => hn.rightAbove _ (BinTree.mem_fork.mpr (.inr (.inl hb))) hmem⟩
  exact (rotate_runs (by simpa using hnm) hmb hmn (ptr_ne_null b) (ptr_ne_node hnb)
    (ptr_ne_node hm.left) h.hangsAt hhead).imp fun _ t' hrot => hrot.holds h

end PWebServer
