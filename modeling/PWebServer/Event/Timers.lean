import PWebServer.Base.RbDelete
import PWebServer.Event.Events
import PWebServer.Lib.Machine

/-!
# Event.Timers

`timer_event.c`: the timers of the events are the nodes of one red-black tree.
The keys are milliseconds, counted with 32 bits, and the tree has them in the
order of unsigned numbers; whether a timer has expired is asked in the order in
which the counter passes them.
-/

namespace PWebServer

open Program RedBlack

/-- The timers of the events `ν`: `event_timer_rbtree`, the two flags of each
event, `current_msec`.  `called`: the events whose handlers were called, no part
of the program. -/
structure Timers (ν : Type) where
  tree : RbTree ν
  timerSet : ν → Bool
  timedout : ν → Bool
  currentMsec : BitVec 32
  called : List ν := []

/-- A function of `timer_event.c`. -/
abbrev TimerM (ν : Type) := StateT (Timers ν) (Except Fault)

/-- `is_expired` -/
def isExpired (key curMsec : BitVec 32) : Bool := (key - curMsec).toInt < 0

variable {ν : Type} [DecidableEq ν]

/-- A function of `rb_tree.c` on `event_timer_rbtree`. -/
def onTree {α : Type} (m : RbM ν α) : TimerM ν α := fun s => do
  let (a, t) ← m s.tree
  pure (a, { s with tree := t })

/-- The flags of an event as `event_del_timer` leaves them. -/
def Timers.unset (s : Timers ν) (ev : ν) : Timers ν :=
  { s with
    timerSet := Function.update s.timerSet ev false
    timedout := Function.update s.timedout ev false }

/-- `ev->timer_set = 1` -/
def Timers.set (s : Timers ν) (ev : ν) : Timers ν :=
  { s with timerSet := Function.update s.timerSet ev true }

/-- The handler of an event that has timed out is called. -/
def Timers.call (s : Timers ν) (ev : ν) : Timers ν :=
  { s with timedout := Function.update s.timedout ev true, called := s.called ++ [ev] }

/-- `event_del_timer` -/
def eventDelTimer (fuel : Nat) (ev : ν) : TimerM ν Unit := do
  onTree (rbtreeDelete fuel (.node ev))
  modify (·.unset ev)

/-- `event_add_timer` -/
def eventAddTimer (fuel : Nat) (ev : ν) (timer : BitVec 32) : TimerM ν Unit := do
  let s ← get
  let key := s.currentMsec + timer
  if s.timerSet ev then
    let diff := key - (← onTree (getKey (.node ev)))
    if diff.abs.toInt < timerLazyDelay then
      return
    eventDelTimer fuel ev
  onTree (setKey (.node ev) key)
  onTree (rbtreeInsert fuel (.node ev))
  modify (·.set ev)

/-- `event_find_timer`; the largest number is `TIMER_INFINITE`. -/
def eventFindTimer (fuel : Nat) : TimerM ν (BitVec 32) := do
  let root ← onTree getRoot
  if root = .sentinel then
    return 4294967295
  let node ← onTree (rbtreeMin fuel root)
  let timer := (← onTree (getKey node)) - (← get).currentMsec
  return if 0 < timer.toInt then timer else 0

/-- `event_expire_timers`; the node of the tree is the timer of an event. -/
def eventExpireTimers (fuel : Nat) : TimerM ν Unit :=
  loop Fault.fuel (fun _ => do
    let root ← onTree getRoot
    if root = .sentinel then
      return .inr ()
    match ← onTree (rbtreeMin fuel root) with
    | .node ev =>
        let key ← onTree (getKey (.node ev))
        if isExpired key (← get).currentMsec then
          onTree (rbtreeDelete fuel (.node ev))
          modify (·.call ev)
          return .inl ()
        else
          return .inr ()
    | _ => throw .null) fuel ()

/-! ## runs -/

/-- What is done with timers; `passed` is the time that has passed. -/
inductive TimerOp (ν : Type) where
  | add (fuel : Nat) (ev : ν) (timer : BitVec 32)
  | del (fuel : Nat) (ev : ν)
  | timeUpdate (currentMsec : BitVec 32)

/-- One operation. -/
def timerStep (s : Timers ν) : TimerOp ν → Option (Timers ν)
  | .add fuel ev timer => (eventAddTimer fuel ev timer s).toOption.map (·.2)
  | .del fuel ev => (eventDelTimer fuel ev s).toOption.map (·.2)
  | .timeUpdate now => some { s with currentMsec := now }

/-- `event_timer_init`, no event has a timer. -/
structure Timers.Init (s : Timers ν) : Prop where
  root : s.tree.root = .sentinel
  sentinel : s.tree.heap .sentinel = ⟨0, .sentinel, .sentinel, .sentinel, .black⟩
  timerSet : ∀ ev, s.timerSet ev = false
  called : s.called = []

/-- The callers of `event_del_timer` ask for `timer_set` first. -/
def timerAllows (s : Timers ν) : TimerOp ν → Prop
  | .del _ ev => s.timerSet ev = true
  | _ => True

/-- The timers under `event_add_timer` and `event_del_timer`, in any order. -/
def timers (ν : Type) [DecidableEq ν] : Machine (Timers ν) (TimerOp ν) where
  init := Timers.Init
  allows := timerAllows
  step := timerStep

/-! ## running -/

section Running

variable {α : Type} {s : Timers ν}

omit [DecidableEq ν] in
@[simp] theorem runs_onTree {m : RbM ν α} {Q : α → Timers ν → Prop} :
    Runs (onTree m) s Q ↔ Runs m s.tree fun a t => Q a { s with tree := t } := by
  constructor
  · rintro ⟨a, s', hm, hQ⟩
    cases h : m s.tree with
    | error err => simp [onTree, h, bind, Except.bind] at hm
    | ok r =>
        simp only [onTree, h, bind, Except.bind, pure, Except.pure, Except.ok.injEq, Prod.mk.injEq] at hm
        obtain ⟨rfl, rfl⟩ := hm
        exact ⟨_, _, h, hQ⟩
  · rintro ⟨a, t, hm, hQ⟩
    exact ⟨a, _, by simp [onTree, hm, bind, Except.bind, pure, Except.pure], hQ⟩

omit [DecidableEq ν] in
theorem onTree_extends {m m' : RbM ν α} (h : Extends m m') : Extends (onTree m) (onTree m') := by
  intro s a s' hm
  cases hrun : m s.tree with
  | error err => simp [onTree, hrun, bind, Except.bind] at hm
  | ok r => simpa [onTree, hrun, h _ _ _ hrun, bind, Except.bind] using hm

theorem eventDelTimer_extends {fuel fuel' : Nat} (hle : fuel ≤ fuel') (ev : ν) :
    Extends (eventDelTimer fuel ev) (eventDelTimer fuel' ev) :=
  (onTree_extends (rbtreeDelete_extends hle _)).bind fun _ => .refl _

theorem eventAddTimer_extends {fuel fuel' : Nat} (hle : fuel ≤ fuel') (ev : ν) (timer : BitVec 32) :
    Extends (eventAddTimer fuel ev timer) (eventAddTimer fuel' ev timer) := by
  have hinsert : Extends (onTree (rbtreeInsert fuel (.node ev))) (onTree (rbtreeInsert fuel' (.node ev))) :=
    onTree_extends (rbtreeInsert_extends hle _)
  have hend : ∀ key, Extends (do
        onTree (setKey (.node ev) key)
        onTree (rbtreeInsert fuel (.node ev))
        modify (·.set ev)) (do
        onTree (setKey (.node ev) key)
        onTree (rbtreeInsert fuel' (.node ev))
        modify (·.set ev)) := fun key =>
    (Extends.refl _).bind fun _ => hinsert.bind fun _ => .refl _
  refine (Extends.refl _).bind fun s => .ite ?_ (hend _)
  refine (Extends.refl _).bind fun key => .ite (.refl _) ?_
  exact (eventDelTimer_extends hle ev).bind fun _ => hend _

end Running

/-! ## the invariant -/

/-- The armed events are the nodes of a well-formed tree. -/
structure TimersInv (s : Timers ν) (T : BinTree ν) : Prop where
  tree : WellFormed s.tree T
  armed : ∀ ev, s.timerSet ev = true ↔ ev ∈ T.toList

section Invariant

variable {s : Timers ν} {T : BinTree ν} {ev : ν} {fuel : Nat}

theorem eventDelTimer_runs (h : TimersInv s T) (hev : s.timerSet ev = true)
    (hfuel : T.toList.length < fuel) :
    Runs (eventDelTimer fuel ev) s fun _ s' =>
      ∃ T', TimersInv s' T' ∧ s'.timerSet ev = false ∧ T'.toList.length < T.toList.length := by
  have hmem := (h.armed ev).mp hev
  simp only [eventDelTimer, runs_bind, runs_onTree, runs_modify]
  refine (rbtreeDelete_runs h.tree hmem hfuel).imp fun _ t' hdeleted => ?_
  obtain ⟨T', hdel⟩ := hdeleted
  obtain ⟨l, r, hold, hnew⟩ := hdel.nodes
  have hnodup := h.tree.holds.nodup
  rw [hold, List.nodup_middle, List.nodup_cons] at hnodup
  refine ⟨T', ⟨hdel.wellFormed, fun e => ?_⟩, by simp [Timers.unset], by simp [hold, hnew]⟩
  by_cases he : e = ev
  · subst he
    simpa [Timers.unset, hnew] using hnodup.1
  · have harmed := h.armed e
    simp only [hold, List.mem_append, List.mem_cons, he, false_or] at harmed
    simpa [Timers.unset, Function.update_of_ne he, hnew] using harmed

/-- The new key and the new node. -/
theorem eventAddTimer_insert_runs (h : TimersInv s T) (hev : s.timerSet ev = false)
    (hfuel : T.toList.length < fuel) (key : BitVec 32) :
    Runs (do
        onTree (setKey (.node ev) key)
        onTree (rbtreeInsert fuel (.node ev))
        modify (·.set ev)) s fun _ s' => ∃ T', TimersInv s' T' := by
  have hnot : ev ∉ T.toList := fun hmem => by simp [(h.armed ev).mpr hmem] at hev
  simp only [runs_bind, runs_onTree, runs_modify, setKey, runs_storeNode]
  refine ⟨Ptr.node_ne_null, ?_⟩
  have hkey : ∀ r, WellFormed { s.tree with heap := Function.update s.tree.heap (.node ev) r } T :=
    fun r => h.tree.frame rfl (update_nodes hnot) (by simp) (by simp)
  refine (rbtreeInsert_runs (hkey _) hnot hfuel).imp fun _ t' hinserted => ?_
  obtain ⟨T', hins⟩ := hinserted
  obtain ⟨l, r, hold, hnew, -⟩ := hins.place
  refine ⟨T', hins.wellFormed, fun e => ?_⟩
  by_cases he : e = ev
  · simp [Timers.set, he, hnew]
  · have harmed := h.armed e
    simp only [hold, List.mem_append] at harmed
    simpa [Timers.set, Function.update_of_ne he, hnew, he] using harmed

theorem eventAddTimer_runs (h : TimersInv s T) (hfuel : T.toList.length < fuel) (timer : BitVec 32) :
    Runs (eventAddTimer fuel ev timer) s fun _ s' => ∃ T', TimersInv s' T' := by
  simp only [eventAddTimer, runs_bind, runs_get, runs_ite, runs_onTree, runs_getKey, runs_pure]
  split
  next hev =>
    refine ⟨Ptr.node_ne_null, ?_⟩
    split
    · exact ⟨T, h⟩
    · refine (eventDelTimer_runs h hev hfuel).imp fun _ s₁ hdeleted => ?_
      obtain ⟨T₁, h₁, hunset, hlen⟩ := hdeleted
      have hrun := eventAddTimer_insert_runs h₁ hunset (Nat.lt_trans hlen hfuel) (s.currentMsec + timer)
      simpa only [runs_bind, runs_onTree] using hrun
  next hev =>
    have hrun := eventAddTimer_insert_runs h (by simpa using hev) hfuel (s.currentMsec + timer)
    simpa only [runs_bind, runs_onTree] using hrun

end Invariant

/-- The armed events are the nodes of a well-formed tree in every state that is
reached. -/
theorem timers_inv {s : Timers ν} (h : (timers ν).Reaches s) : ∃ T, TimersInv s T := by
  refine h.invariant (I := fun s => ∃ T, TimersInv s T) (fun s hinit => ?_) ?_
  · refine ⟨.leaf, ⟨⟨hinit.root, trivial, List.nodup_nil⟩, ⟨rfl, 0, .leaf⟩, List.Pairwise.nil, ?_, ?_⟩, ?_⟩
    · simp [hinit.sentinel]
    · intro d
      cases d <;> simp [hinit.sentinel, RbNode.child]
    · simp [hinit.timerSet, BinTree.toList]
  · rintro s op s' ⟨T, hinv⟩ hallows hstep
    have hmax : ∀ fuel, T.toList.length < max fuel (T.toList.length + 1) := fun fuel => by omega
    cases op with
    | add fuel ev timer =>
        obtain ⟨⟨a, s₁⟩, hrun, rfl⟩ := Option.map_eq_some_iff.mp hstep
        exact (eventAddTimer_extends (Nat.le_max_left _ _) ev timer).post
          (eventAddTimer_runs hinv (hmax fuel) timer) hrun
    | del fuel ev =>
        obtain ⟨⟨a, s₁⟩, hrun, rfl⟩ := Option.map_eq_some_iff.mp hstep
        obtain ⟨T', hinv', -⟩ := (eventDelTimer_extends (Nat.le_max_left _ _) ev).post
          (eventDelTimer_runs hinv hallows (hmax fuel)) hrun
        exact ⟨T', hinv'⟩
    | timeUpdate now =>
        cases hstep
        exact ⟨T, hinv.tree, hinv.armed⟩

/-! ## expiry -/

/-- The timer of an event has expired. -/
def Timers.due (s : Timers ν) (ev : ν) : Bool :=
  isExpired (s.tree.heap (.node ev)).key s.currentMsec

/-- The first timers of the tree have been taken out of it, and the handlers of
their events were called. -/
structure Fired (s : Timers ν) (T : BinTree ν) (fired : List ν) (s' : Timers ν) (T' : BinTree ν) : Prop where
  tree : WellFormed s'.tree T'
  nodes : T.toList = fired ++ T'.toList
  nodup : T.toList.Nodup
  called : s'.called = s.called ++ fired
  timerSet : s'.timerSet = s.timerSet
  currentMsec : s'.currentMsec = s.currentMsec
  key : ∀ ev ∉ fired, (s'.tree.heap (.node ev)).key = (s.tree.heap (.node ev)).key
  cleared : ∀ ev ∈ fired, Cleared s'.tree ev
  rest : ∀ ev ∉ T.toList, s'.tree.heap (.node ev) = s.tree.heap (.node ev)

section Expiry

variable {s s' : Timers ν} {T T' : BinTree ν} {ev : ν} {fired : List ν} {fuel : Nat}

omit [DecidableEq ν] in
theorem Fired.refl (h : WellFormed s.tree T) : Fired s T [] s T :=
  ⟨h, rfl, h.holds.nodup, by simp, rfl, rfl, fun _ _ => rfl, fun _ h => absurd h List.not_mem_nil, fun _ _ => rfl⟩

/-- The smallest key comes first. -/
theorem rbtreeMin_root_runs {t : RbTree ν} (h : WellFormed t T) (hT : T ≠ .leaf)
    (hfuel : T.toList.length < fuel) :
    Runs (rbtreeMin fuel t.root) t fun p t' => t' = t ∧ ∃ n ns, p = .node n ∧ T.toList = n :: ns := by
  rw [h.holds.root]
  refine (rbtreeMin_runs (z := []) h.holds hT hfuel).imp ?_
  rintro p t' ⟨ht, y, c, n, q, rfl, hy, rfl⟩
  exact ⟨ht, n, q.toList ++ after y, rfl, by simp [toList_fill, hy, BinTree.toList]⟩

omit [DecidableEq ν] in
theorem Fired.apart (h : Fired s T fired s' T') (hev : ev ∈ fired) : ev ∉ T'.toList := by
  have hnodup := h.nodup
  rw [h.nodes] at hnodup
  exact fun hmem => (List.nodup_append.mp hnodup).2.2 ev hev ev hmem rfl

/-- One more. -/
theorem Fired.step (h : Fired s T fired s' T') {ns : List ν} (hns : T'.toList = ev :: ns) {t' : RbTree ν}
    {T'' : BinTree ν} (hdel : Deleted s'.tree T' ev t' T'') :
    Fired s T (fired ++ [ev]) ({ s' with tree := t' }.call ev) T'' ∧ T''.toList = ns := by
  obtain ⟨l, r, hold, hnew⟩ := hdel.nodes
  have hnodup := h.tree.holds.nodup
  rw [hns] at hold
  have hl : l = [] := by
    cases l with
    | nil => rfl
    | cons m l =>
        obtain ⟨rfl, rfl⟩ := List.cons.inj hold
        simp [hns] at hnodup
  subst hl
  obtain rfl : ns = r := (List.cons.inj hold).2
  have hT := h.nodes
  rw [hns] at hT
  refine ⟨⟨hdel.wellFormed, by simp [hT, hnew], h.nodup, by simp [Timers.call, h.called], h.timerSet, h.currentMsec,
    fun e he => ?_, fun e he => ?_, fun e he => ?_⟩, hnew⟩
  · simp only [List.mem_append, List.mem_singleton, not_or] at he
    exact (hdel.without.key _ (by simpa using he.2)).trans (h.key e he.1)
  · rcases List.mem_append.mp he with he | he
    · have hnot := h.apart he
      have hsame : t'.heap (.node e) = s'.tree.heap (.node e) :=
        hdel.without.heap _ Ptr.node_ne_sentinel fun m hm heq => hnot (by cases heq; exact hm)
      have hcleared := h.cleared e he
      rwa [Cleared, Timers.call, hsame]
    · obtain rfl := List.mem_singleton.mp he
      exact hdel.cleared
  · have hnot : e ∉ T'.toList := fun hmem => he (by rw [h.nodes]; exact List.mem_append_right _ hmem)
    refine (hdel.without.heap (.node e) Ptr.node_ne_sentinel fun m hm heq => hnot ?_).trans (h.rest e he)
    cases heq
    exact hm

/-- The loop takes out timers until the first one of the tree has not expired. -/
theorem eventExpireTimers_runs (h : WellFormed s.tree T) (hfuel : T.toList.length < fuel) :
    Runs (eventExpireTimers fuel) s fun _ s' => ∃ fired T', Fired s T fired s' T' ∧
      (∀ ev ∈ fired, s.due ev = true) ∧ ∀ ev ∈ T'.toList.head?, s.due ev = false := by
  refine loop_runs (fun k _ s' => ∃ fired T', Fired s T fired s' T' ∧ (∀ ev ∈ fired, s.due ev = true) ∧
    k = T'.toList.length) ?_ fuel ⟨[], T, .refl h, fun _ h => absurd h List.not_mem_nil, rfl⟩ hfuel
  rintro k _ s' ⟨fired, T', hfired, hdue, rfl⟩
  have hlen : T'.toList.length < fuel := by
    rw [hfired.nodes, List.length_append] at hfuel
    omega
  simp only [runs_bind, runs_onTree, runs_getRoot, runs_ite, runs_pure]
  split
  next hempty =>
    obtain rfl : T' = .leaf := ptr_eq_sentinel.mp (hfired.tree.holds.root.symm.trans hempty)
    exact ⟨fired, .leaf, hfired, hdue, fun _ h => absurd h (Option.not_mem_none _)⟩
  next hempty =>
    have hT' : T' ≠ .leaf := by
      rintro rfl
      exact hempty hfired.tree.holds.root
    refine (rbtreeMin_root_runs hfired.tree hT' hlen).imp ?_
    rintro p t' ⟨rfl, ev, ns, rfl, hns⟩
    have hev : ev ∉ fired := fun hmem => hfired.apart hmem (by simp [hns])
    have hkey : isExpired (s'.tree.heap (.node ev)).key s'.currentMsec = s.due ev := by
      rw [hfired.key ev hev, hfired.currentMsec, Timers.due]
    simp only [runs_bind, runs_onTree, runs_getKey, runs_get, runs_ite, runs_pure, runs_modify, hkey]
    refine ⟨Ptr.node_ne_null, ?_⟩
    split
    next hev =>
      have hmem : ev ∈ T'.toList := by simp [hns]
      refine (rbtreeDelete_runs hfired.tree hmem hlen).imp fun _ t'' hdeleted => ?_
      obtain ⟨T'', hdel⟩ := hdeleted
      obtain ⟨hnext, hlist⟩ := hfired.step hns hdel
      refine ⟨_, ?_, fired ++ [ev], T'', hnext, ?_, rfl⟩
      · simp [hlist, hns]
      · simpa [or_imp, forall_and] using ⟨hdue, hev⟩
    next hev => exact ⟨fired, T', hfired, hdue, by simpa [hns] using hev⟩

/-- The timer of the event is in the tree. -/
def Timers.InTree (s : Timers ν) (ev : ν) : Prop := ∃ T, Holds s.tree T ∧ ev ∈ T.toList

/-- What expiry is to do: the handler of every armed event that is due is
called once, and its timer is out of the tree; the other armed events stay armed,
and no other handler is called. -/
structure Expires (s s' : Timers ν) : Prop where
  due : ∀ ev, s.timerSet ev = true → s.due ev = true →
    s'.called.count ev = s.called.count ev + 1 ∧ ¬s'.InTree ev
  pending : ∀ ev, s.timerSet ev = true → s.due ev = false →
    s'.called.count ev = s.called.count ev ∧ s'.timerSet ev = true ∧ s'.InTree ev ∧
      (s'.tree.heap (.node ev)).key = (s.tree.heap (.node ev)).key
  unarmed : ∀ ev, s.timerSet ev = false → s'.called.count ev = s.called.count ev

theorem Fired.expires_iff (h : TimersInv s T) (hfired : Fired s T fired s' T')
    (hdue : ∀ ev ∈ fired, s.due ev = true) (hhead : ∀ ev ∈ T'.toList.head?, s.due ev = false) :
    Expires s s' ↔ ∀ m n, s.timerSet m = true → s.timerSet n = true → s.due m = true → s.due n = false →
      (s.tree.heap (.node m)).key < (s.tree.heap (.node n)).key := by
  have harmed : ∀ ev, s.timerSet ev = true ↔ ev ∈ fired ∨ ev ∈ T'.toList := fun ev => by
    rw [h.armed, hfired.nodes, List.mem_append]
  have hin : ∀ ev, s'.InTree ev ↔ ev ∈ T'.toList := fun ev =>
    ⟨fun ⟨T'', hT'', hmem⟩ => hT''.unique hfired.tree.holds ▸ hmem, fun hmem => ⟨T', hfired.tree.holds, hmem⟩⟩
  have hsorted := h.tree.sorted
  have hnodup := hfired.nodup
  rw [hfired.nodes] at hsorted hnodup
  obtain ⟨-, hrest, hacross⟩ := List.pairwise_append.mp hsorted
  have hcount : ∀ ev, s'.called.count ev = s.called.count ev + fired.count ev := fun ev => by
    rw [hfired.called, List.count_append]
  constructor
  · intro hexp m n hm hn hduem hduen
    have hmf : m ∈ fired := ((harmed m).mp hm).resolve_right (mt (hin m).mpr (hexp.due m hm hduem).2)
    have hnT : n ∈ T'.toList := ((harmed n).mp hn).resolve_left fun hnf => by simp [hdue n hnf] at hduen
    have hle := hacross m hmf n hnT
    refine BitVec.lt_of_le_ne hle fun heq => ?_
    rw [Timers.due, ← heq, ← Timers.due, hduem] at hduen
    cases hduen
  · intro hcond
    -- a timer that is due behind the first one that is not would have the greater key
    have hpending : ∀ ev ∈ T'.toList, s.due ev = false := by
      intro ev hev
      cases hlist : T'.toList with
      | nil => simp [hlist] at hev
      | cons n ns =>
          have hn := hhead n (by simp [hlist])
          rw [hlist] at hev hrest
          rcases List.mem_cons.mp hev with rfl | hmem
          · exact hn
          · by_contra hne
            have hle := (List.pairwise_cons.mp hrest).1 ev hmem
            have hlt := hcond ev n ((harmed ev).mpr (.inr (hlist ▸ hev)))
              ((harmed n).mpr (.inr (by simp [hlist]))) (by simpa using hne) hn
            exact absurd hle (BitVec.not_le.mpr hlt)
    refine ⟨fun ev hev hd => ?_, fun ev hev hd => ?_, fun ev hev => ?_⟩
    · have hnot : ev ∉ T'.toList := fun hmem => by simp [hpending ev hmem] at hd
      have hmem := ((harmed ev).mp hev).resolve_right hnot
      rw [hcount, List.count_eq_one_of_mem (List.nodup_append.mp hnodup).1 hmem]
      exact ⟨rfl, mt (hin ev).mp hnot⟩
    · have hnot : ev ∉ fired := fun hmem => by simp [hdue ev hmem] at hd
      have hmem := ((harmed ev).mp hev).resolve_left hnot
      rw [hcount, List.count_eq_zero_of_not_mem hnot, hfired.timerSet]
      exact ⟨rfl, hev, (hin ev).mpr hmem, hfired.key ev hnot⟩
    · have hnot : ev ∉ fired := fun hmem => by simp [(harmed ev).mpr (.inl hmem)] at hev
      rw [hcount, List.count_eq_zero_of_not_mem hnot, Nat.add_zero]

/-- Expiry does what it should exactly when no timer that is due has a greater
key than one that is not. -/
theorem eventExpireTimers_runs_iff (h : TimersInv s T) (hfuel : T.toList.length < fuel) :
    Runs (eventExpireTimers fuel) s (fun _ s' => Expires s s') ↔
      ∀ m n, s.timerSet m = true → s.timerSet n = true → s.due m = true → s.due n = false →
        (s.tree.heap (.node m)).key < (s.tree.heap (.node n)).key := by
  obtain ⟨a, s', hrun, fired, T', hfired, hdue, hhead⟩ := eventExpireTimers_runs h.tree hfuel
  rw [← hfired.expires_iff h hdue hhead]
  constructor
  · rintro ⟨a', s'', hrun', hexp⟩
    cases hrun.symm.trans hrun'
    exact hexp
  · exact fun hexp => ⟨a, s', hrun, hexp⟩

end Expiry

/-- `event_expire_timers` calls the handlers of the timers that are due and of no
others exactly if every timer that is due stands in the tree before every one that
is not. -/
theorem eventExpireTimers_iff {s : Timers ν} (h : (timers ν).Reaches s) :
    ∃ fuel₀, ∀ fuel > fuel₀, Runs (eventExpireTimers fuel) s (fun _ s' => Expires s s') ↔
      ∀ m n, s.timerSet m = true → s.timerSet n = true → s.due m = true → s.due n = false →
        (s.tree.heap (.node m)).key < (s.tree.heap (.node n)).key := by
  obtain ⟨T, hinv⟩ := timers_inv h
  exact ⟨T.toList.length, fun fuel hfuel => eventExpireTimers_runs_iff hinv hfuel⟩

/-- No timer is set. -/
def noTimers : Timers Nat where
  tree :=
    { root := .sentinel
      heap := fun p => if p = .sentinel then ⟨0, .sentinel, .sentinel, .sentinel, .black⟩ else {} }
  timerSet _ := false
  timedout _ := false
  currentMsec := 0

theorem noTimers_reaches : (timers Nat).Reaches noTimers :=
  .init ⟨rfl, rfl, fun _ => rfl, rfl⟩

instance timersAllowsDecidable (s : Timers ν) (op : TimerOp ν) : Decidable ((timers ν).allows s op) :=
  match op with
  | .add _ _ _ => .isTrue trivial
  | .del _ ev => inferInstanceAs (Decidable (s.timerSet ev = true))
  | .timeUpdate _ => .isTrue trivial

/-- The first timer has expired and the second has not. -/
def firstDue (s : Timers Nat) : Bool := s.timerSet 0 && s.timerSet 1 && s.due 0 && !s.due 1

/-- One timer has expired and another one has not. -/
theorem eventExpireTimers_iff_two : ∃ s, (timers Nat).Reaches s ∧ firstDue s = true ∧
    ∃ fuel₀, ∀ fuel > fuel₀, Runs (eventExpireTimers fuel) s (fun _ s' => Expires s s') ↔
      ∀ m n, s.timerSet m = true → s.timerSet n = true → s.due m = true → s.due n = false →
        (s.tree.heap (.node m)).key < (s.tree.heap (.node n)).key := by
  obtain ⟨s, hs, htest⟩ := noTimers_reaches.exists_of_runTest firstDue
    [.timeUpdate 100, .add 3 0 20, .add 3 1 500, .timeUpdate 200] (by decide +kernel)
  exact ⟨s, hs, htest, eventExpireTimers_iff hs⟩

/-- The second timer was set over the wrap of the counter: its key is the
smallest, the loop stops there, and the first timer stays in the tree. -/
theorem eventExpireTimers_wrap : ¬∀ s, (timers Nat).Reaches s →
    ∃ fuel₀, ∀ fuel > fuel₀, Runs (eventExpireTimers fuel) s (fun _ s' => Expires s s') := by
  intro hall
  obtain ⟨s, hs, htest⟩ := noTimers_reaches.exists_of_runTest
    (fun s => firstDue s && decide ((s.tree.heap (.node 1)).key < (s.tree.heap (.node 0)).key))
    [.timeUpdate 0xFFFFFF00, .add 3 0 240, .add 3 1 512, .timeUpdate 0x10] (by decide +kernel)
  simp only [firstDue, Bool.and_eq_true, Bool.not_eq_true', decide_eq_true_eq] at htest
  obtain ⟨⟨⟨⟨h0, h1⟩, hdue0⟩, hdue1⟩, hlt⟩ := htest
  obtain ⟨T, hinv⟩ := timers_inv hs
  obtain ⟨fuel₀, hruns⟩ := hall s hs
  have hcond := (eventExpireTimers_runs_iff hinv (by omega)).mp
    (hruns (max fuel₀ T.toList.length + 1) (by omega))
  exact absurd (hcond 0 1 h0 h1 hdue0 hdue1) (BitVec.not_lt.mpr (BitVec.le_of_lt hlt))

/-! ## the time to the first timer -/

section Find

variable {s : Timers ν} {T : BinTree ν} {n : ν} {fuel : Nat}

/-- `event_find_timer` looks at the first timer of the tree. -/
theorem eventFindTimer_runs (h : WellFormed s.tree T) (hn : T.toList.head? = some n) (hfuel : T.toList.length < fuel) :
    Runs (eventFindTimer fuel) s fun timer s' => s' = s ∧
      (timer = 0 ↔ ((s.tree.heap (.node n)).key - s.currentMsec).toInt ≤ 0) := by
  have hT : T ≠ .leaf := by
    rintro rfl
    cases hn
  have hroot : s.tree.root ≠ .sentinel := mt (fun hroot => ptr_eq_sentinel.mp (h.holds.root.symm.trans hroot)) hT
  simp only [eventFindTimer, runs_bind, runs_onTree, runs_getRoot, runs_ite, if_neg hroot]
  refine (rbtreeMin_root_runs h hT hfuel).imp ?_
  rintro _ _ ⟨rfl, m, ns, rfl, hns⟩
  obtain rfl : m = n := by simpa [hns] using hn
  simp only [runs_getKey, runs_get, runs_pure]
  refine ⟨Ptr.node_ne_null, trivial, ?_⟩
  split
  next hlater =>
    refine iff_of_false (fun hzero => ?_) (by omega)
    rw [hzero] at hlater
    exact absurd hlater (by decide)
  next hlater => exact iff_of_true rfl (by omega)

/-- Expiry calls a handler if the first timer of the tree has expired. -/
theorem eventExpireTimers_fires (h : WellFormed s.tree T) (hn : T.toList.head? = some n)
    (hfuel : T.toList.length < fuel) :
    Runs (eventExpireTimers fuel) s fun _ s' => s'.called ≠ s.called ↔ s.due n = true := by
  refine (eventExpireTimers_runs h hfuel).imp fun _ s' hexpired => ?_
  obtain ⟨fired, T', hfired, hdue, hhead⟩ := hexpired
  rw [hfired.called, ne_eq, List.append_right_eq_self]
  cases fired with
  | nil =>
      have hnodes : T.toList = T'.toList := hfired.nodes
      rw [hnodes] at hn
      simp [hhead n hn]
  | cons m fired =>
      obtain rfl : m = n := by simpa [hfired.nodes] using hn
      simp [hdue m List.mem_cons_self]

/-- `event_find_timer` returns 0 when expiry calls a handler and only then, except
at the moment of the first timer. -/
theorem eventFindTimer_expires_iff (h : WellFormed s.tree T) (hn : T.toList.head? = some n)
    (hfuel : T.toList.length < fuel) :
    (Runs (eventFindTimer fuel) s (fun timer s' => s' = s ∧ timer = 0) ↔
        Runs (eventExpireTimers fuel) s fun _ s' => s'.called ≠ s.called) ↔
      (s.tree.heap (.node n)).key ≠ s.currentMsec := by
  have hfind : Runs (eventFindTimer fuel) s (fun timer s' => s' = s ∧ timer = 0) ↔
      ((s.tree.heap (.node n)).key - s.currentMsec).toInt ≤ 0 :=
    (eventFindTimer_runs h hn hfuel).iff_of fun timer s' hfound => by rw [hfound.2]; exact and_iff_right hfound.1
  have hexpire : Runs (eventExpireTimers fuel) s (fun _ s' => s'.called ≠ s.called) ↔ s.due n = true :=
    (eventExpireTimers_fires h hn hfuel).iff_of fun _ s' hfires => hfires
  rw [hfind, hexpire, Timers.due, isExpired, decide_eq_true_eq]
  by_cases hsame : (s.tree.heap (.node n)).key = s.currentMsec
  · rw [hsame, BitVec.sub_self]
    simp
  · have hne : ((s.tree.heap (.node n)).key - s.currentMsec).toInt ≠ 0 := fun hzero => by
      have hsub : (s.tree.heap (.node n)).key - s.currentMsec = 0#32 := BitVec.eq_of_toInt_eq hzero
      exact hsame (by rw [← BitVec.sub_add_cancel (s.tree.heap (.node n)).key s.currentMsec, hsub, BitVec.zero_add])
    exact iff_of_true (by omega) hsame

end Find

/-- The three timers, one millisecond before the first of them. -/
def threeTimersAt (now : BitVec 32) : Timers Nat where
  tree := threeTimers
  timerSet _ := true
  timedout _ := false
  currentMsec := now

/-- A millisecond before the first timer it is not yet due, and not asked for. -/
theorem eventFindTimer_expires_three :
    (Runs (eventFindTimer 4) (threeTimersAt 2) (fun timer s' => s' = threeTimersAt 2 ∧ timer = 0) ↔
        Runs (eventExpireTimers 4) (threeTimersAt 2) fun _ s' => s'.called ≠ (threeTimersAt 2).called) ↔
      ((threeTimersAt 2).tree.heap (.node 0)).key ≠ (threeTimersAt 2).currentMsec :=
  eventFindTimer_expires_iff threeTimers_wellFormed rfl (by decide)

/-- At the moment of the first timer `event_find_timer` returns 0 and nothing has
expired. -/
theorem eventFindTimer_spins : ¬∀ (s : Timers Nat) (T : BinTree Nat), WellFormed s.tree T → T ≠ .leaf →
    ∃ fuel₀, ∀ fuel > fuel₀, Runs (eventFindTimer fuel) s (fun timer s' => s' = s ∧ timer = 0) ↔
      Runs (eventExpireTimers fuel) s fun _ s' => s'.called ≠ s.called := by
  intro hall
  obtain ⟨fuel₀, hiff⟩ := hall (threeTimersAt 3) _ threeTimers_wellFormed (by simp)
  have hfuel : 3 < fuel₀ + 4 := by omega
  have hfind : Runs (eventFindTimer (fuel₀ + 4)) (threeTimersAt 3) fun timer s' => s' = threeTimersAt 3 ∧ timer = 0 :=
    (eventFindTimer_runs threeTimers_wellFormed rfl hfuel).imp fun timer s' hfound =>
      ⟨hfound.1, hfound.2.mpr (by decide)⟩
  have hfires := (hiff (fuel₀ + 4) (by omega)).mp hfind
  have hdue := ((eventExpireTimers_fires threeTimers_wellFormed rfl hfuel).iff_of fun _ s' hfires => hfires).mp hfires
  exact absurd hdue (by decide)

end PWebServer
