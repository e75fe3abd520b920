import PWebServer.Base.RbAgain
import PWebServer.Event.Timers

/-!
# Event.TimerRuns

The timers over runs in which they expire, too.  `event_expire_timers` takes the
timer of an event out of the tree and leaves `timer_set` as it was; the handler of
the event, which is called then, adds and deletes timers.  `TimersKept` is what
every such run keeps: an event whose flag is set without a timer in the tree has a
node that can be deleted again.
-/

namespace PWebServer

open Program RedBlack

variable {ν : Type} [DecidableEq ν]

/-! ## handlers -/

/-- What a handler does with timers. -/
inductive HandlerOp (ν : Type) where
  | add (ev : ν) (timer : BitVec 32)
  | del (ev : ν)

/-- What the handler of an event does, in the state in which it is called. -/
abbrev Handlers (ν : Type) := ν → Timers ν → List (HandlerOp ν)

/-- What a handler does, one after the other. -/
def runHandler (fuel : Nat) : List (HandlerOp ν) → TimerM ν Unit
  | [] => pure ()
  | .add ev timer :: ops => do
      eventAddTimer fuel ev timer
      runHandler fuel ops
  | .del ev :: ops => do
      eventDelTimer fuel ev
      runHandler fuel ops

/-- The first timer of the tree goes if it has expired, and the handler of its event
is called. -/
def expireFirst (fuel : Nat) : TimerM ν (Option ν) := do
  let root ← onTree getRoot
  if root = .sentinel then
    return none
  match ← onTree (rbtreeMin fuel root) with
  | .node ev =>
      let key ← onTree (getKey (.node ev))
      if isExpired key (← get).currentMsec then
        onTree (rbtreeDelete fuel (.node ev))
        modify (·.call ev)
        return some ev
      else
        return none
  | _ => throw .null

/-- `event_expire_timers` with handlers that add and delete timers. -/
def eventExpireTimersWith (handlers : Handlers ν) (fuel : Nat) : TimerM ν Unit :=
  loop Fault.fuel (fun _ => do
    match ← expireFirst fuel with
    | some ev =>
        runHandler fuel (handlers ev (← get))
        return .inl ()
    | none => return .inr ()) fuel ()

/-- `event_expire_timers`, begun in the state `s`, calls the handler of `ev` in the
state `s₁`. -/
inductive HandlerCalled (handlers : Handlers ν) (fuel : Nat) : Timers ν → ν → Timers ν → Prop where
  | first {s s₁ : Timers ν} {ev : ν} (h : expireFirst fuel s = .ok (some ev, s₁)) :
      HandlerCalled handlers fuel s ev s₁
  | later {s s₁ s₂ s₃ : Timers ν} {ev ev' : ν} (h : expireFirst fuel s = .ok (some ev, s₁))
      (hrun : runHandler fuel (handlers ev s₁) s₁ = .ok ((), s₂)) (hlater : HandlerCalled handlers fuel s₂ ev' s₃) :
      HandlerCalled handlers fuel s ev' s₃

/-- The calls `event_expire_timers` makes from `s` on until it returns in `s'`: the
events, and the states in which their handlers are called. -/
inductive HandlersCalled (handlers : Handlers ν) (fuel : Nat) : Timers ν → List (ν × Timers ν) → Timers ν → Prop where
  | done {s s' : Timers ν} (h : expireFirst fuel s = .ok (none, s')) : HandlersCalled handlers fuel s [] s'
  | call {s s₁ s₂ s' : Timers ν} {ev : ν} {calls : List (ν × Timers ν)} (h : expireFirst fuel s = .ok (some ev, s₁))
      (hrun : runHandler fuel (handlers ev s₁) s₁ = .ok ((), s₂)) (hlater : HandlersCalled handlers fuel s₂ calls s') :
      HandlersCalled handlers fuel s ((ev, s₁) :: calls) s'

/-- What is done with timers, expiry included. -/
inductive ExpiryOp (ν : Type) where
  | add (fuel : Nat) (ev : ν) (timer : BitVec 32)
  | del (fuel : Nat) (ev : ν)
  | expire (fuel : Nat) (handlers : Handlers ν)
  | timeUpdate (currentMsec : BitVec 32)

/-- One operation. -/
def expiryStep (s : Timers ν) : ExpiryOp ν → Option (Timers ν)
  | .add fuel ev timer => (eventAddTimer fuel ev timer s).toOption.map (·.2)
  | .del fuel ev => (eventDelTimer fuel ev s).toOption.map (·.2)
  | .expire fuel handlers => (eventExpireTimersWith handlers fuel s).toOption.map (·.2)
  | .timeUpdate now => some { s with currentMsec := now }

/-- No event has a timer, and the events are zeroed. -/
structure Timers.Fresh (s : Timers ν) : Prop where
  init : s.Init
  zeroed : ∀ ev, s.tree.heap (.node ev) = {}

/-- The timers in any order of the operations. -/
def timerRuns (ν : Type) [DecidableEq ν] : Machine (Timers ν) (ExpiryOp ν) where
  init := Timers.Fresh
  allows _ _ := True
  step := expiryStep

/-! ## the tree -/

section Tree

variable {t t' : RbTree ν} {T T' : BinTree ν} {n m : ν} {fuel : Nat}

/-- `rbtree_delete` has returned: `n` is outside of the tree. -/
structure Dropped (t : RbTree ν) (T : BinTree ν) (n : ν) (t' : RbTree ν) (T' : BinTree ν) : Prop where
  wellFormed : WellFormed t' T'
  nodes : ∀ m, m ∈ T'.toList ↔ m ∈ T.toList ∧ m ≠ n
  cleared : Cleared t' n
  key : ∀ m ≠ n, (t'.heap (.node m)).key = (t.heap (.node m)).key
  rest : ∀ m ≠ n, m ∉ T.toList → t'.heap (.node m) = t.heap (.node m)

/-- `n` was inserted with a key. -/
structure Listed (t : RbTree ν) (T : BinTree ν) (n : ν) (key : BitVec 32) (t' : RbTree ν) (T' : BinTree ν) : Prop where
  wellFormed : WellFormed t' T'
  nodes : ∀ m, m ∈ T'.toList ↔ m ∈ T.toList ∨ m = n
  self : (t'.heap (.node n)).key = key
  key : ∀ m ≠ n, (t'.heap (.node m)).key = (t.heap (.node m)).key
  rest : ∀ m ≠ n, m ∉ T.toList → t'.heap (.node m) = t.heap (.node m)

omit [DecidableEq ν] in
theorem Deleted.dropped (h : WellFormed t T) (hd : Deleted t T n t' T') : Dropped t T n t' T' := by
  obtain ⟨l, r, hold, hnew⟩ := hd.nodes
  have hnodup := h.holds.nodup
  rw [hold, List.nodup_middle, List.nodup_cons] at hnodup
  refine ⟨hd.wellFormed, fun m => ?_, hd.cleared, fun m hm => hd.without.key _ (by simpa using hm), fun m hm hT => ?_⟩
  · rw [hold, hnew]
    by_cases hm : m = n
    · subst hm
      simpa using hnodup.1
    · simp [hm]
  · exact hd.without.heap _ Ptr.node_ne_sentinel fun k hk heq => hT (by cases heq; exact hk)

omit [DecidableEq ν] in
theorem TreeUntouched.dropped (h : WellFormed t T) (hn : n ∉ T.toList) (hc : Cleared t n) (hu : TreeUntouched t t') :
    Dropped t T n t' T := by
  refine ⟨hu.wellFormed h, fun m => ⟨fun hm => ⟨hm, ?_⟩, And.left⟩, hu.cleared hc,
    fun m _ => congrArg RbNode.key (hu.node m), fun m _ _ => hu.node m⟩
  rintro rfl
  exact hn hm

theorem rbtreeDelete_dropped (h : WellFormed t T) (hn : n ∈ T.toList ∨ Cleared t n)
    (hfuel : T.toList.length + 1 < fuel) :
    Runs (rbtreeDelete fuel (.node n)) t fun _ t' => ∃ T', Dropped t T n t' T' := by
  by_cases hmem : n ∈ T.toList
  · refine (rbtreeDelete_runs h hmem (by omega)).imp fun _ t' hdeleted => ?_
    obtain ⟨T', hd⟩ := hdeleted
    exact ⟨T', hd.dropped h⟩
  · have hc := hn.resolve_left hmem
    exact (rbtreeDelete_cleared_runs h hmem hc (by omega)).imp fun _ t' hu => ⟨T, hu.dropped h hmem hc⟩

/-- A zeroed node is not deleted: `rbtree_min` reads its right child. -/
theorem rbtreeDelete_zeroed (hn : t.heap (.node n) = {}) (Q : Unit → RbTree ν → Prop) :
    Ensures (rbtreeDelete fuel (.node n)) t Q := by
  intro a t' hm
  have hmin : ¬Runs (rbtreeMin fuel (.null : Ptr ν)) t fun _ _ => True := by
    cases fuel with
    | zero =>
        rintro ⟨p, t₁, hloop, -⟩
        cases hloop
    | succ fuel => simp [rbtreeMin, loop]
  have hruns : Runs (rbtreeDelete fuel (.node n)) t fun _ _ => True := ⟨a, t', hm, trivial⟩
  have hchild : ∀ d, (t.heap (.node n)).child d = .null := fun d => by cases d <;> rw [hn] <;> rfl
  simp only [rbtreeDelete_eq, selectSubst, runs_bind, runs_getChild, hchild, runs_ite, reduceCtorEq, if_false] at hruns
  exact absurd (hruns.2.2.2.imp fun _ _ _ => trivial) hmin

theorem insertKey_listed (h : WellFormed t T) (hn : n ∉ T.toList) (hfuel : T.toList.length < fuel) (key : BitVec 32) :
    Runs (insertKey fuel n key) t fun _ t' => ∃ T', Listed t T n key t' T' := by
  refine (insertKey_runs h hn hfuel key).imp fun _ t' hinserted => ?_
  obtain ⟨T', hi⟩ := hinserted
  obtain ⟨l, r, hold, hnew, -⟩ := hi.place
  have hnode : ∀ m ≠ n, Ptr.node m ≠ .node n := fun m hm heq => hm (by cases heq; rfl)
  refine ⟨T', hi.wellFormed, fun m => ?_, ?_, fun m hm => ?_, fun m hm hT => ?_⟩
  · rw [hold, hnew]
    simp only [List.mem_append, List.mem_cons]
    tauto
  · rw [hi.kept.key]
    simp [RbNode.setKey]
  · rw [hi.kept.key]
    exact congrArg RbNode.key (Function.update_of_ne (hnode m hm) _ _)
  · rw [hi.kept.heap (.node m) fun k hk heq => ?_]
    · exact Function.update_of_ne (hnode m hm) _ _
    · cases heq
      exact (List.mem_cons.mp hk).elim hm hT

end Tree

/-! ## the timers -/

/-- The nodes of the tree are timers that are set; the others were deleted, or never
inserted. -/
structure TimersKept (s : Timers ν) (T : BinTree ν) : Prop where
  tree : WellFormed s.tree T
  set : ∀ ev ∈ T.toList, s.timerSet ev = true
  rest : ∀ ev ∉ T.toList, Cleared s.tree ev ∨ s.timerSet ev = false ∧ s.tree.heap (.node ev) = {}

/-- `event_del_timer` has returned. -/
structure Disarmed (s : Timers ν) (T : BinTree ν) (ev : ν) (s' : Timers ν) (T' : BinTree ν) : Prop where
  kept : TimersKept s' T'
  nodes : ∀ e, e ∈ T'.toList ↔ e ∈ T.toList ∧ e ≠ ev
  timerSet : s'.timerSet = Function.update s.timerSet ev false
  key : ∀ e ≠ ev, (s'.tree.heap (.node e)).key = (s.tree.heap (.node e)).key
  currentMsec : s'.currentMsec = s.currentMsec
  called : s'.called = s.called

/-- `event_add_timer` has set a timer. -/
structure Armed (s : Timers ν) (T : BinTree ν) (ev : ν) (key : BitVec 32) (s' : Timers ν) (T' : BinTree ν) : Prop where
  kept : TimersKept s' T'
  nodes : ∀ e, e ∈ T'.toList ↔ e ∈ T.toList ∨ e = ev
  timerSet : s'.timerSet = Function.update s.timerSet ev true
  self : (s'.tree.heap (.node ev)).key = key
  key : ∀ e ≠ ev, (s'.tree.heap (.node e)).key = (s.tree.heap (.node e)).key
  currentMsec : s'.currentMsec = s.currentMsec
  called : s'.called = s.called

/-- `event_add_timer` leaves a timer that is set as it is. -/
def Timers.Lazy (s : Timers ν) (ev : ν) (timer : BitVec 32) : Prop :=
  (s.currentMsec + timer - (s.tree.heap (.node ev)).key).abs.toInt < timerLazyDelay

section Timers

variable {s s' s'' : Timers ν} {T T' T'' : BinTree ν} {ev : ν} {fuel : Nat} {timer key : BitVec 32} {t' : RbTree ν}

omit [DecidableEq ν] in
theorem TimersKept.mem_or_cleared (h : TimersKept s T) (hev : s.timerSet ev = true) :
    ev ∈ T.toList ∨ Cleared s.tree ev := by
  by_cases hmem : ev ∈ T.toList
  · exact .inl hmem
  · refine .inr ((h.rest ev hmem).resolve_right fun hzeroed => ?_)
    rw [hev] at hzeroed
    exact Bool.noConfusion hzeroed.1

theorem Dropped.disarmed (h : TimersKept s T) (hd : Dropped s.tree T ev t' T') :
    Disarmed s T ev ({ s with tree := t' }.unset ev) T' := by
  refine ⟨⟨hd.wellFormed, fun e he => ?_, fun e he => ?_⟩, hd.nodes, rfl, hd.key, rfl, rfl⟩
  · obtain ⟨hmem, hne⟩ := (hd.nodes e).mp he
    simpa [Timers.unset, hne] using h.set e hmem
  · by_cases hne : e = ev
    · subst hne
      exact .inl hd.cleared
    · have hmem : e ∉ T.toList := fun hmem => he ((hd.nodes e).mpr ⟨hmem, hne⟩)
      have hsame := hd.rest e hne hmem
      refine (h.rest e hmem).imp (fun hc => ?_) fun hz => ?_
      · exact show Cleared t' e by rwa [Cleared, hsame]
      · simpa [Timers.unset, hne, hsame] using hz

theorem Listed.armed (h : TimersKept s T) (hl : Listed s.tree T ev key t' T') :
    Armed s T ev key ({ s with tree := t' }.set ev) T' := by
  refine ⟨⟨hl.wellFormed, fun e he => ?_, fun e he => ?_⟩, hl.nodes, rfl, hl.self, hl.key, rfl, rfl⟩
  · by_cases hne : e = ev
    · simp [Timers.set, hne]
    · simpa [Timers.set, hne] using h.set e (((hl.nodes e).mp he).resolve_right hne)
  · rw [hl.nodes, not_or] at he
    have hsame := hl.rest e he.2 he.1
    refine (h.rest e he.1).imp (fun hc => ?_) fun hz => ?_
    · exact show Cleared t' e by rwa [Cleared, hsame]
    · simpa [Timers.set, he.2, hsame] using hz

omit [DecidableEq ν] in
theorem Disarmed.armed [DecidableEq ν] (h : Disarmed s T ev s' T') (h' : Armed s' T' ev key s'' T'') : Armed s T ev key s'' T'' where
  kept := h'.kept
  nodes e := by
    rw [h'.nodes, h.nodes]
    tauto
  timerSet := by rw [h'.timerSet, h.timerSet, Function.update_idem]
  self := h'.self
  key e he := (h'.key e he).trans (h.key e he)
  currentMsec := h'.currentMsec.trans h.currentMsec
  called := h'.called.trans h.called

theorem eventDelTimer_disarmed (h : TimersKept s T) (hev : ev ∈ T.toList ∨ Cleared s.tree ev)
    (hfuel : T.toList.length + 1 < fuel) :
    Runs (eventDelTimer fuel ev) s fun _ s' => ∃ T', Disarmed s T ev s' T' := by
  simp only [eventDelTimer, runs_bind, runs_onTree, runs_modify]
  refine (rbtreeDelete_dropped h.tree hev hfuel).imp fun _ t' hdropped => ?_
  obtain ⟨T', hd⟩ := hdropped
  exact ⟨T', hd.disarmed h⟩

theorem insertTimer_armed (h : TimersKept s T) (hev : ev ∉ T.toList) (hfuel : T.toList.length < fuel) (key : BitVec 32) :
    Runs (do
        onTree (setKey (.node ev) key)
        onTree (rbtreeInsert fuel (.node ev))
        modify (·.set ev)) s fun _ s' => ∃ T', Armed s T ev key s' T' := by
  have hrun := insertKey_listed h.tree hev hfuel key
  simp only [insertKey, runs_bind] at hrun
  simp only [runs_bind, runs_onTree, runs_modify]
  refine hrun.imp fun _ t₁ hrest => hrest.imp fun _ t' hlisted => ?_
  obtain ⟨T', hl⟩ := hlisted
  exact ⟨T', hl.armed h⟩

/-- What `event_add_timer` does. -/
theorem eventAddTimer_armed (h : TimersKept s T) (hfuel : T.toList.length + 1 < fuel) (timer : BitVec 32) :
    Runs (eventAddTimer fuel ev timer) s fun _ s' =>
      (s.timerSet ev = true ∧ s.Lazy ev timer ∧ s' = s) ∨
        ¬(s.timerSet ev = true ∧ s.Lazy ev timer) ∧ ∃ T', Armed s T ev (s.currentMsec + timer) s' T' := by
  simp only [eventAddTimer, runs_bind, runs_get, runs_ite, runs_onTree, runs_getKey, runs_pure]
  split
  next hev =>
    refine ⟨Ptr.node_ne_null, ?_⟩
    split
    next hlazy => exact .inl ⟨hev, hlazy, trivial⟩
    next hlazy =>
      refine (eventDelTimer_disarmed h (h.mem_or_cleared hev) hfuel).imp fun _ s₁ hdisarmed => ?_
      obtain ⟨T₁, hd⟩ := hdisarmed
      have hnot : ev ∉ T₁.toList := fun hmem => ((hd.nodes ev).mp hmem).2 rfl
      have hlen : T₁.toList.length ≤ T.toList.length :=
        (List.subperm_of_subset hd.kept.tree.holds.nodup fun e he => ((hd.nodes e).mp he).1).length_le
      have hrun := insertTimer_armed hd.kept hnot (by omega : T₁.toList.length < fuel) (s.currentMsec + timer)
      simp only [runs_bind, runs_onTree] at hrun
      refine hrun.imp fun _ t₁ hrest => hrest.imp fun _ t₂ hrest => ?_
      rw [runs_modify] at hrest ⊢
      obtain ⟨T', ha⟩ := hrest
      exact .inr ⟨fun hboth => hlazy hboth.2, T', hd.armed ha⟩
  next hev =>
    have hnot : ev ∉ T.toList := fun hmem => hev (h.set ev hmem)
    have hrun := insertTimer_armed h hnot (by omega : T.toList.length < fuel) (s.currentMsec + timer)
    simp only [runs_bind, runs_onTree] at hrun
    refine hrun.imp fun _ t₁ hrest => hrest.imp fun _ t₂ hrest => ?_
    rw [runs_modify] at hrest ⊢
    exact .inr ⟨fun hboth => hev hboth.1, hrest⟩

/-! ## with any bound -/

omit [DecidableEq ν] in
theorem ensures_onTree {α : Type} {m : RbM ν α} {Q : α → Timers ν → Prop}
    (h : Ensures m s.tree fun a t => Q a { s with tree := t }) : Ensures (onTree m) s Q := by
  intro a s' hm
  cases hrun : m s.tree with
  | error err => simp [onTree, hrun, bind, Except.bind] at hm
  | ok r =>
      simp only [onTree, hrun, bind, Except.bind, pure, Except.pure, Except.ok.injEq, Prod.mk.injEq] at hm
      obtain ⟨rfl, rfl⟩ := hm
      exact h _ _ hrun

theorem eventDelTimer_ensures (h : TimersKept s T) :
    Ensures (eventDelTimer fuel ev) s fun _ s' => ∃ T', Disarmed s T ev s' T' := by
  have hmax : T.toList.length + 1 < max fuel (T.toList.length + 2) := by omega
  by_cases hev : ev ∈ T.toList ∨ Cleared s.tree ev
  · exact (eventDelTimer_disarmed h hev hmax).ensures (eventDelTimer_extends (Nat.le_max_left _ _) ev)
  · rw [not_or] at hev
    have hzeroed := (h.rest ev hev.1).resolve_left hev.2
    have hnever : Ensures (onTree (rbtreeDelete fuel (.node ev))) s fun _ _ => False :=
      ensures_onTree (rbtreeDelete_zeroed hzeroed.2 _)
    exact hnever.bind fun _ _ hfalse => hfalse.elim

theorem eventAddTimer_ensures (h : TimersKept s T) (timer : BitVec 32) :
    Ensures (eventAddTimer fuel ev timer) s fun _ s' =>
      (s.timerSet ev = true ∧ s.Lazy ev timer ∧ s' = s) ∨
        ¬(s.timerSet ev = true ∧ s.Lazy ev timer) ∧ ∃ T', Armed s T ev (s.currentMsec + timer) s' T' := by
  have hmax : T.toList.length + 1 < max fuel (T.toList.length + 2) := by omega
  exact (eventAddTimer_armed h hmax timer).ensures (eventAddTimer_extends (Nat.le_max_left _ _) ev timer)

/-! ## expiry -/

/-- The timer of an event is out of the tree, and the handler is called. -/
structure Fires (s : Timers ν) (T : BinTree ν) (ev : ν) (s' : Timers ν) (T' : BinTree ν) : Prop where
  kept : TimersKept s' T'
  due : s.due ev = true
  mem : ev ∈ T.toList
  nodes : ∀ e, e ∈ T'.toList ↔ e ∈ T.toList ∧ e ≠ ev
  timerSet : s'.timerSet = s.timerSet
  cleared : Cleared s'.tree ev
  key : ∀ e ≠ ev, (s'.tree.heap (.node e)).key = (s.tree.heap (.node e)).key
  currentMsec : s'.currentMsec = s.currentMsec
  called : s'.called = s.called ++ [ev]

omit [DecidableEq ν] in
theorem Dropped.fires [DecidableEq ν] (h : TimersKept s T) (hdue : s.due ev = true) (hmem : ev ∈ T.toList) (hd : Dropped s.tree T ev t' T') :
    Fires s T ev ({ s with tree := t' }.call ev) T' := by
  refine ⟨⟨hd.wellFormed, fun e he => h.set e ((hd.nodes e).mp he).1, fun e he => ?_⟩, hdue, hmem, hd.nodes, rfl,
    hd.cleared, hd.key, rfl, rfl⟩
  by_cases hne : e = ev
  · subst hne
    exact .inl hd.cleared
  · have hmem' : e ∉ T.toList := fun hmem' => he ((hd.nodes e).mpr ⟨hmem', hne⟩)
    have hsame := hd.rest e hne hmem'
    refine (h.rest e hmem').imp (fun hc => ?_) fun hz => ?_
    · exact show Cleared t' e by rwa [Cleared, hsame]
    · exact ⟨hz.1, hsame.trans hz.2⟩

theorem expireFirst_ensures (h : TimersKept s T) :
    Ensures (expireFirst fuel) s fun fired s' =>
      (fired = none ∧ s' = s) ∨ ∃ ev T', fired = some ev ∧ Fires s T ev s' T' := by
  obtain ⟨large, hle, hlarge⟩ : ∃ large, fuel ≤ large ∧ T.toList.length + 1 < large :=
    ⟨max fuel (T.toList.length + 2), by omega, by omega⟩
  refine Ensures.of_runs ?_
  simp only [runs_onTree, runs_getRoot]
  by_cases hempty : s.tree.root = .sentinel
  · rw [if_pos hempty]
    exact .pure (.inl ⟨rfl, rfl⟩)
  · rw [if_neg hempty]
    have hT : T ≠ .leaf := by
      rintro rfl
      exact hempty h.tree.holds.root
    refine Runs.ensures_bind ?_ (onTree_extends (loop_extends hle s.tree.root))
    refine runs_onTree.mpr ((rbtreeMin_root_runs h.tree hT (Nat.lt_of_succ_lt hlarge)).imp ?_)
    rintro _ _ ⟨rfl, ev, ns, rfl, hns⟩
    have hmem : ev ∈ T.toList := by simp [hns]
    refine Ensures.of_runs ?_
    simp only [runs_onTree, runs_getKey]
    refine ⟨Ptr.node_ne_null, ?_⟩
    refine Ensures.of_runs ?_
    rw [runs_get]
    by_cases hdue : s.due ev = true
    · rw [Timers.due] at hdue
      rw [if_pos hdue]
      refine Runs.ensures_bind ?_ (onTree_extends (rbtreeDelete_extends hle (.node ev)))
      refine runs_onTree.mpr ((rbtreeDelete_dropped h.tree (.inl hmem) hlarge).imp fun _ t' hdropped => ?_)
      obtain ⟨T', hd⟩ := hdropped
      refine Ensures.of_runs ?_
      rw [runs_modify]
      exact .pure (.inr ⟨ev, T', rfl, hd.fires h hdue hmem⟩)
    · rw [Timers.due] at hdue
      rw [if_neg hdue]
      exact .pure (.inl ⟨rfl, rfl⟩)

/-- The rule for expiry: an invariant that the handler restores after each timer. -/
theorem eventExpireTimersWith_ensures {handlers : Handlers ν} {I : Timers ν → BinTree ν → Prop}
    (hkept : ∀ s T, I s T → TimersKept s T)
    (hturn : ∀ s T ev s₁ T₁, I s T → expireFirst fuel s = .ok (some ev, s₁) → Fires s T ev s₁ T₁ →
      Ensures (runHandler fuel (handlers ev s₁)) s₁ fun _ s' => ∃ T', I s' T')
    (h : I s T) : Ensures (eventExpireTimersWith handlers fuel) s fun _ s' => ∃ T', I s' T' := by
  refine loop_ensures (fun _ s' => ∃ T', I s' T') ?_ fuel () s ⟨T, h⟩
  rintro _ s₀ ⟨T₀, h₀⟩
  have hfirst : Ensures (expireFirst fuel) s₀ fun fired s₁ => expireFirst fuel s₀ = .ok (fired, s₁) ∧
      ((fired = none ∧ s₁ = s₀) ∨ ∃ ev T₁, fired = some ev ∧ Fires s₀ T₀ ev s₁ T₁) :=
    fun fired s₁ hm => ⟨hm, expireFirst_ensures (hkept s₀ T₀ h₀) fired s₁ hm⟩
  refine hfirst.bind fun fired s₁ hfired => ?_
  obtain ⟨hm, ⟨rfl, rfl⟩ | ⟨ev, T₁, rfl, hfires⟩⟩ := hfired
  · exact .pure ⟨T₀, h₀⟩
  · refine Ensures.of_runs ?_
    rw [runs_get]
    exact (hturn s₀ T₀ ev s₁ T₁ h₀ hm hfires).bind fun _ s' hI => .pure hI

/-! ## every run -/

omit [DecidableEq ν] in
theorem Timers.Fresh.kept (h : s.Fresh) : TimersKept s .leaf where
  tree :=
    { holds := ⟨h.init.root, trivial, List.nodup_nil⟩
      sound := ⟨rfl, 0, .leaf⟩
      sorted := List.Pairwise.nil
      nilColor := by rw [h.init.sentinel]
      nilChild := fun d => by cases d <;> rw [h.init.sentinel] <;> rfl }
  set ev hev := absurd hev List.not_mem_nil
  rest ev _ := .inr ⟨h.init.timerSet ev, h.zeroed ev⟩

theorem runHandler_kept (h : TimersKept s T) (ops : List (HandlerOp ν)) :
    Ensures (runHandler fuel ops) s fun _ s' => ∃ T', TimersKept s' T' := by
  induction ops generalizing s T with
  | nil => exact .pure ⟨T, h⟩
  | cons op ops ih =>
      cases op with
      | add ev timer =>
          refine (eventAddTimer_ensures h timer).bind fun _ s₁ hadded => ?_
          obtain ⟨-, -, rfl⟩ | ⟨-, T₁, harmed⟩ := hadded
          · exact ih h
          · exact ih harmed.kept
      | del ev =>
          refine (eventDelTimer_ensures h).bind fun _ s₁ hdeleted => ?_
          obtain ⟨T₁, hdisarmed⟩ := hdeleted
          exact ih hdisarmed.kept

omit [DecidableEq ν] in
theorem ensures_of_step [DecidableEq ν] {m : TimerM ν Unit} {Q : Unit → Timers ν → Prop} (h : Ensures m s Q)
    (hstep : (m s).toOption.map (·.2) = some s') : Q () s' := by
  obtain ⟨⟨a, s₁⟩, hrun, rfl⟩ := Option.map_eq_some_iff.mp hstep
  refine h a s₁ ?_
  cases hm : m s with
  | error err => simp [hm, Except.toOption] at hrun
  | ok r =>
      rw [hm] at hrun
      cases hrun
      rfl

theorem timerRuns_kept (h : (timerRuns ν).Reaches s) : ∃ T, TimersKept s T := by
  refine h.invariant (I := fun s => ∃ T, TimersKept s T) (fun s hfresh => ⟨.leaf, hfresh.kept⟩) ?_
  rintro s op s' ⟨T, hkept⟩ - hstep
  cases op with
  | add fuel ev timer =>
      obtain ⟨-, -, rfl⟩ | ⟨-, T', harmed⟩ := ensures_of_step (eventAddTimer_ensures hkept timer) hstep
      · exact ⟨T, hkept⟩
      · exact ⟨T', harmed.kept⟩
  | del fuel ev =>
      obtain ⟨T', hdisarmed⟩ := ensures_of_step (eventDelTimer_ensures hkept) hstep
      exact ⟨T', hdisarmed.kept⟩
  | expire fuel handlers =>
      exact ensures_of_step (eventExpireTimersWith_ensures (fun s T h => h)
        (fun s T ev s₁ T₁ _ _ hfires => runHandler_kept hfires.kept _) hkept) hstep
  | timeUpdate now =>
      cases hstep
      exact ⟨T, hkept.tree, hkept.set, hkept.rest⟩

end Timers

end PWebServer
