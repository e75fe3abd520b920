import PWebServer.Lib.Agenda
import PWebServer.Event.TimerFlags

/-!
# Event.TimerQueue

What the timers are: a queue of events in the order of their deadlines.  The
operations of the queue know nothing of trees; each operation of `timer_event.c`
does to the tree what its namesake does to the queue.
-/

namespace PWebServer

open Program RedBlack Agenda

variable {ν : Type} [DecidableEq ν]

/-! ## the queue -/

/-- The timers as a queue.  `expired`: the timer of the event has expired, and
was neither set nor deleted since. -/
structure TimerQueue (ν : Type) where
  agenda : Agenda Nat ν
  expired : ν → Bool
  currentMsec : BitVec 32
  called : List ν

namespace TimerQueue

variable (q : TimerQueue ν)

/-- The key `event_add_timer` compares with; a timer that has expired has lost
its own. -/
def key (ev : ν) : Option (BitVec 32) :=
  match q.agenda.key ev with
  | some k => some (BitVec.ofNat 32 k)
  | none => if q.expired ev then some 0 else none

/-- A timer gets a deadline. -/
def set (ev : ν) (key : BitVec 32) : TimerQueue ν :=
  { q with
    agenda := q.agenda.insert key.toNat ev
    expired := Function.update q.expired ev false }

/-- `event_add_timer` -/
def addTimer (ev : ν) (timer : BitVec 32) : TimerQueue ν :=
  let key := q.currentMsec + timer
  match q.key ev with
  | some old => if (key - old).abs.toInt < timerLazyDelay then q else q.set ev key
  | none => q.set ev key

/-- `event_del_timer` -/
def delTimer (ev : ν) : TimerQueue ν :=
  { q with
    agenda := q.agenda.erase ev
    expired := Function.update q.expired ev false }

/-- `event_find_timer` -/
def findTimer : BitVec 32 :=
  match q.agenda.entries.head? with
  | none => 4294967295
  | some e =>
      let timer := BitVec.ofNat 32 e.1 - q.currentMsec
      if 0 < timer.toInt then timer else 0

/-- One turn of `event_expire_timers`, up to the call of the handler. -/
def expireFirst : Option (ν × TimerQueue ν) :=
  match q.agenda.entries.head? with
  | none => none
  | some e =>
      if isExpired (BitVec.ofNat 32 e.1) q.currentMsec then
        some (e.2, { q with
          agenda := q.agenda.pop
          expired := Function.update q.expired e.2 true
          called := q.called ++ [e.2] })
      else none

/-- What a handler does. -/
def runHandler : List (HandlerOp ν) → TimerQueue ν → TimerQueue ν
  | [], q => q
  | .add ev timer :: ops, q => runHandler ops (q.addTimer ev timer)
  | .del ev :: ops, q => runHandler ops (q.delTimer ev)

/-- `event_expire_timers`, with what the handlers do that it calls, one after
the other. -/
def expireTimers : List (List (HandlerOp ν)) → TimerQueue ν → Option (TimerQueue ν)
  | [], q => if q.expireFirst.isNone then some q else none
  | ops :: rest, q => do
      let (_, q) ← q.expireFirst
      expireTimers rest (runHandler ops q)

end TimerQueue

/-- What is done with the queue. -/
inductive QueueOp (ν : Type) where
  | add (ev : ν) (timer : BitVec 32)
  | del (ev : ν)
  | expire (scripts : List (List (HandlerOp ν)))
  | timeUpdate (currentMsec : BitVec 32)

/-- One operation. -/
def TimerQueue.step (q : TimerQueue ν) : QueueOp ν → Option (TimerQueue ν)
  | .add ev timer => some (q.addTimer ev timer)
  | .del ev => some (q.delTimer ev)
  | .expire scripts => q.expireTimers scripts
  | .timeUpdate now => some { q with currentMsec := now }

/-- The runs of the queue. -/
def timerQueues (ν : Type) [DecidableEq ν] : Machine (TimerQueue ν) (QueueOp ν) where
  init q := q.agenda = .empty ∧ (∀ ev, q.expired ev = false) ∧ q.called = []
  allows _ _ := True
  step := TimerQueue.step

/-! ## the tree as a queue -/

/-- The entries of a tree. -/
def listing (t : RbTree ν) (T : BinTree ν) : List (Nat × ν) :=
  T.toList.map fun n => ((t.heap (.node n)).key.toNat, n)

/-- The tree `T` of the timers shows the queue `q`. -/
structure Shows (s : Timers ν) (T : BinTree ν) (q : TimerQueue ν) : Prop where
  kept : TimersKept s T
  entries : q.agenda.entries = listing s.tree T
  expired : ∀ ev, q.expired ev = true ↔ s.timerSet ev = true ∧ ev ∉ T.toList
  currentMsec : q.currentMsec = s.currentMsec
  called : q.called = s.called

section Listing

variable {t t' : RbTree ν} {T T' : BinTree ν} {n : ν} {fuel : Nat}

omit [DecidableEq ν] in
theorem listing_congr {ns : List ν} (h : ∀ n ∈ ns, (t'.heap (.node n)).key = (t.heap (.node n)).key) :
    (ns.map fun n => ((t'.heap (.node n)).key.toNat, n)) = ns.map fun n => ((t.heap (.node n)).key.toNat, n) :=
  List.map_congr_left fun n hn => by rw [h n hn]

omit [DecidableEq ν] in
/-- An entry that is deleted leaves its place. -/
theorem Deleted.nodes_eq [DecidableEq ν] (h : WellFormed t T) (hd : Deleted t T n t' T') :
    T'.toList = T.toList.filter fun m => m ≠ n := by
  obtain ⟨l, r, hold, hnew⟩ := hd.nodes
  have hnodup := h.holds.nodup
  rw [hold, List.nodup_middle, List.nodup_cons, List.mem_append, not_or] at hnodup
  have hl : l.filter (fun m => m ≠ n) = l :=
    List.filter_eq_self.mpr fun m hm => decide_eq_true fun heq => hnodup.1.1 (heq ▸ hm)
  have hr : r.filter (fun m => m ≠ n) = r :=
    List.filter_eq_self.mpr fun m hm => decide_eq_true fun heq => hnodup.1.2 (heq ▸ hm)
  rw [hold, hnew, List.filter_append, hl, List.filter_cons_of_neg (by simp), hr]

/-- `rbtree_delete` takes the entry out of the list. -/
theorem rbtreeDelete_nodes (h : WellFormed t T) (hn : n ∈ T.toList ∨ Cleared t n)
    (hfuel : T.toList.length + 1 < fuel) :
    Runs (rbtreeDelete fuel (.node n)) t fun _ t' =>
      ∃ T', Dropped t T n t' T' ∧ T'.toList = T.toList.filter fun m => m ≠ n := by
  by_cases hmem : n ∈ T.toList
  · refine (rbtreeDelete_runs h hmem (by omega)).imp fun _ t' hdeleted => ?_
    obtain ⟨T', hd⟩ := hdeleted
    exact ⟨T', hd.dropped h, hd.nodes_eq h⟩
  · have hc := hn.resolve_left hmem
    have hsame : T.toList.filter (fun m => m ≠ n) = T.toList :=
      List.filter_eq_self.mpr fun m hm => decide_eq_true fun heq => hmem (heq ▸ hm)
    refine (rbtreeDelete_cleared_runs h hmem hc (by omega)).imp fun _ t' hu => ?_
    exact ⟨T, hu.dropped h hmem hc, hsame.symm⟩

/-- An entry that is inserted is placed behind those with keys up to its own. -/
theorem insertKey_listing (h : WellFormed t T) (hn : n ∉ T.toList) (hfuel : T.toList.length < fuel) (key : BitVec 32) :
    Runs (insertKey fuel n key) t fun _ t' =>
      ∃ T', WellFormed t' T' ∧ listing t' T' = place key.toNat n (listing t T) := by
  refine (insertKey_runs h hn hfuel key).imp fun _ t' hinserted => ?_
  obtain ⟨T', hi⟩ := hinserted
  obtain ⟨l, r, hold, hnew, hl, hr⟩ := hi.place
  have hkey : ∀ m ∈ T.toList, (t'.heap (.node m)).key = (t.heap (.node m)).key := fun m hm => by
    have hne : m ≠ n := fun heq => hn (heq ▸ hm)
    rw [hi.kept.key]
    exact congrArg RbNode.key (Function.update_of_ne (fun heq => hne (by cases heq; rfl)) _ _)
  have hself : (t'.heap (.node n)).key = key := by
    rw [hi.kept.key]
    simp [RbNode.setKey]
  have hbefore : ∀ m ∈ l, (t.heap (.node m)).key ≤ key := fun m hm => by
    have hle := hl m hm
    have hmem : m ∈ T.toList := by simp [hold, hm]
    rwa [← hi.kept.key, hkey m hmem, ← hi.kept.key, hself] at hle
  have hafter : ∀ m ∈ r, key < (t.heap (.node m)).key := fun m hm => by
    have hlt := hr m hm
    have hmem : m ∈ T.toList := by simp [hold, hm]
    rwa [← hi.kept.key, hself, ← hi.kept.key, hkey m hmem] at hlt
  refine ⟨T', hi.wellFormed, ?_⟩
  have hkeyl := listing_congr fun m (hm : m ∈ l) => hkey m (by simp [hold, hm])
  have hkeyr := listing_congr fun m (hm : m ∈ r) => hkey m (by simp [hold, hm])
  rw [listing, listing, hold, hnew, List.map_append, List.map_cons, List.map_append, hkeyl, hkeyr, hself]
  refine (place_append (fun e he => ?_) (fun e he => ?_) n).symm
  · obtain ⟨m, hm, rfl⟩ := List.mem_map.mp he
    exact BitVec.le_def.mp (hbefore m hm)
  · obtain ⟨m, hm, rfl⟩ := List.mem_map.mp he
    exact BitVec.lt_def.mp (hafter m hm)

end Listing

/-! ## the operations -/

section Timers

variable {s s' : Timers ν} {T T' : BinTree ν} {q : TimerQueue ν} {ev : ν} {fuel : Nat}

omit [DecidableEq ν] in
theorem mem_listing {t : RbTree ν} {e : Nat × ν} :
    e ∈ listing t T ↔ e.2 ∈ T.toList ∧ e.1 = (t.heap (.node e.2)).key.toNat := by
  rw [listing, List.mem_map]
  constructor
  · rintro ⟨n, hn, rfl⟩
    exact ⟨hn, rfl⟩
  · rintro ⟨hn, he⟩
    exact ⟨e.2, hn, Prod.ext he.symm rfl⟩

/-- The flag of an event and the key of its node are the queue's. -/
theorem Shows.key_eq (h : Shows s T q) (ev : ν) :
    q.key ev = if s.timerSet ev then some (s.tree.heap (.node ev)).key else none := by
  by_cases hmem : ev ∈ T.toList
  · have hkey : q.agenda.key ev = some (s.tree.heap (.node ev)).key.toNat := by
      rw [key_eq_some, h.entries, mem_listing]
      exact ⟨hmem, rfl⟩
    rw [TimerQueue.key, hkey, h.kept.set ev hmem]
    simp
  · have hkey : q.agenda.key ev = none := by
      rw [key_eq_none, h.entries]
      rintro e he rfl
      exact hmem (mem_listing.mp he).1
    rw [TimerQueue.key, hkey]
    cases hset : s.timerSet ev with
    | true =>
        have hexpired : q.expired ev = true := (h.expired ev).mpr ⟨hset, hmem⟩
        have hcleared := (h.kept.mem_or_cleared hset).resolve_left hmem
        simp [hexpired, hcleared.2.2.2]
    | false =>
        have hexpired : ¬q.expired ev = true := fun hexp => by simp [((h.expired ev).mp hexp).1] at hset
        simp [hexpired]

theorem Disarmed.shows (h : Shows s T q) (hd : Disarmed s T ev s' T')
    (hnodes : T'.toList = T.toList.filter fun m => m ≠ ev) : Shows s' T' (q.delTimer ev) where
  kept := hd.kept
  entries := by
    have hkeys : ∀ m ∈ T'.toList, (s'.tree.heap (.node m)).key = (s.tree.heap (.node m)).key :=
      fun m hm => hd.key m ((hd.nodes m).mp hm).2
    change q.agenda.entries.filter _ = _
    rw [h.entries, listing, listing, listing_congr hkeys, hnodes, List.filter_map]
    rfl
  expired e := by
    change Function.update q.expired ev false e = true ↔ _
    rw [hd.timerSet, hd.nodes]
    by_cases he : e = ev
    · simp [he]
    · simp [he, h.expired e]
  currentMsec := h.currentMsec.trans hd.currentMsec.symm
  called := h.called.trans hd.called.symm

theorem Armed.shows {key : BitVec 32} (h : Shows s T q) (ha : Armed s T ev key s' T')
    (hnodes : listing s'.tree T' = place key.toNat ev ((listing s.tree T).filter fun e => e.2 ≠ ev)) :
    Shows s' T' (q.set ev key) where
  kept := ha.kept
  entries := by
    change place _ _ (q.agenda.entries.filter _) = _
    rw [h.entries, hnodes]
  expired e := by
    change Function.update q.expired ev false e = true ↔ _
    rw [ha.timerSet, ha.nodes]
    by_cases he : e = ev
    · simp [he]
    · simp [he, h.expired e]
  currentMsec := h.currentMsec.trans ha.currentMsec.symm
  called := h.called.trans ha.called.symm

/-- `event_del_timer` on the tree is `event_del_timer` on the queue. -/
theorem eventDelTimer_shows_runs (h : Shows s T q) (hev : ev ∈ T.toList ∨ Cleared s.tree ev)
    (hfuel : T.toList.length + 1 < fuel) :
    Runs (eventDelTimer fuel ev) s fun _ s' =>
      ∃ T', Disarmed s T ev s' T' ∧ Shows s' T' (q.delTimer ev) := by
  simp only [eventDelTimer, runs_bind, runs_onTree, runs_modify]
  refine (rbtreeDelete_nodes h.kept.tree hev hfuel).imp fun _ t' hdropped => ?_
  obtain ⟨T', hd, hnodes⟩ := hdropped
  exact ⟨T', hd.disarmed h.kept, (hd.disarmed h.kept).shows h hnodes⟩

theorem insertTimer_shows_runs (h : Shows s T q) (hev : ev ∉ T.toList) (hfuel : T.toList.length < fuel)
    (key : BitVec 32) :
    Runs (do
        onTree (setKey (.node ev) key)
        onTree (rbtreeInsert fuel (.node ev))
        modify (·.set ev)) s fun _ s' => ∃ T', Shows s' T' (q.set ev key) := by
  have harmed := insertTimer_armed h.kept hev hfuel key
  have hlisting := insertKey_listing h.kept.tree hev hfuel key
  simp only [insertKey, runs_bind] at hlisting
  have hrun : Runs (do
        onTree (setKey (.node ev) key)
        onTree (rbtreeInsert fuel (.node ev))
        modify (·.set ev)) s fun _ s' => ∃ T', WellFormed s'.tree T' ∧
          listing s'.tree T' = place key.toNat ev (listing s.tree T) := by
    simp only [runs_bind, runs_onTree, runs_modify]
    exact hlisting
  obtain ⟨a, s', hm, T', ha⟩ := harmed
  obtain ⟨a', s'', hm', T'', hwf, hl⟩ := hrun
  cases hm.symm.trans hm'
  obtain rfl : T'' = T' := hwf.holds.unique ha.kept.tree.holds
  have hsame : (listing s.tree T).filter (fun e => e.2 ≠ ev) = listing s.tree T :=
    List.filter_eq_self.mpr fun e he => decide_eq_true fun heq => hev (heq ▸ (mem_listing.mp he).1)
  exact ⟨a, s', hm, T'', ha.shows h (hsame.symm ▸ hl)⟩

/-- A timer that is deleted first is set as one that was not there. -/
theorem TimerQueue.set_delTimer (q : TimerQueue ν) (ev : ν) (key : BitVec 32) :
    (q.delTimer ev).set ev key = q.set ev key := by
  have hagenda : (q.agenda.erase ev).insert key.toNat ev = q.agenda.insert key.toNat ev := by
    refine Agenda.ext ?_
    change place _ _ ((q.agenda.entries.filter _).filter _) = place _ _ (q.agenda.entries.filter _)
    rw [List.filter_filter]
    simp
  rw [set, set, delTimer, hagenda, Function.update_idem]

theorem eventAddTimer_shows_runs (h : Shows s T q) (hfuel : T.toList.length + 1 < fuel) (timer : BitVec 32) :
    Runs (eventAddTimer fuel ev timer) s fun _ s' => ∃ T', Shows s' T' (q.addTimer ev timer) := by
  have hkey := h.key_eq ev
  simp only [eventAddTimer, runs_bind, runs_get, runs_ite, runs_onTree, runs_getKey, runs_pure]
  split
  next hev =>
    rw [hev, if_pos rfl] at hkey
    refine ⟨Ptr.node_ne_null, ?_⟩
    split
    next hlazy =>
      have hadd : q.addTimer ev timer = q := by
        rw [TimerQueue.addTimer, hkey, h.currentMsec]
        exact if_pos hlazy
      exact ⟨T, hadd.symm ▸ h⟩
    next hlazy =>
      have hadd : q.addTimer ev timer = (q.delTimer ev).set ev (s.currentMsec + timer) := by
        rw [TimerQueue.addTimer, hkey, h.currentMsec, TimerQueue.set_delTimer]
        exact if_neg hlazy
      refine (eventDelTimer_shows_runs h (h.kept.mem_or_cleared hev) hfuel).imp fun _ s₁ hdisarmed => ?_
      obtain ⟨T₁, hd, h₁⟩ := hdisarmed
      have hnot : ev ∉ T₁.toList := fun hmem => ((hd.nodes ev).mp hmem).2 rfl
      have hlen : T₁.toList.length ≤ T.toList.length :=
        (List.subperm_of_subset hd.kept.tree.holds.nodup fun e he => ((hd.nodes e).mp he).1).length_le
      rw [hadd]
      have hrun := insertTimer_shows_runs h₁ hnot (by omega : T₁.toList.length < fuel) (s.currentMsec + timer)
      simpa only [runs_bind, runs_onTree] using hrun
  next hev =>
    rw [if_neg hev] at hkey
    have hadd : q.addTimer ev timer = q.set ev (s.currentMsec + timer) := by
      rw [TimerQueue.addTimer, hkey, h.currentMsec]
    have hnot : ev ∉ T.toList := fun hmem => hev (h.kept.set ev hmem)
    rw [hadd]
    have hrun := insertTimer_shows_runs h hnot (by omega : T.toList.length < fuel) (s.currentMsec + timer)
    simpa only [runs_bind, runs_onTree] using hrun

theorem eventAddTimer_shows (h : Shows s T q) (timer : BitVec 32) :
    Ensures (eventAddTimer fuel ev timer) s fun _ s' => ∃ T', Shows s' T' (q.addTimer ev timer) :=
  (eventAddTimer_shows_runs h (by omega : T.toList.length + 1 < max fuel (T.toList.length + 2)) timer).ensures
    (eventAddTimer_extends (Nat.le_max_left _ _) ev timer)

/-- A timer that was never set is not deleted: `event_del_timer` does not
return. -/
theorem eventDelTimer_shows (h : Shows s T q) :
    Ensures (eventDelTimer fuel ev) s fun _ s' => ∃ T', Shows s' T' (q.delTimer ev) := by
  have hmax : T.toList.length + 1 < max fuel (T.toList.length + 2) := by omega
  by_cases hev : ev ∈ T.toList ∨ Cleared s.tree ev
  · refine ((eventDelTimer_shows_runs h hev hmax).imp fun _ s' hdeleted => ?_).ensures
      (eventDelTimer_extends (Nat.le_max_left _ _) ev)
    obtain ⟨T', -, h'⟩ := hdeleted
    exact ⟨T', h'⟩
  · rw [not_or] at hev
    have hzeroed := (h.kept.rest ev hev.1).resolve_left hev.2
    have hnever : Ensures (onTree (rbtreeDelete fuel (.node ev))) s fun _ _ => False :=
      ensures_onTree (rbtreeDelete_zeroed hzeroed.2 _)
    exact hnever.bind fun _ _ hfalse => hfalse.elim

theorem runHandler_shows (h : Shows s T q) (ops : List (HandlerOp ν)) :
    Ensures (runHandler fuel ops) s fun _ s' => ∃ T', Shows s' T' (TimerQueue.runHandler ops q) := by
  induction ops generalizing s T q with
  | nil => exact .pure ⟨T, h⟩
  | cons op ops ih =>
      cases op with
      | add ev timer =>
          refine (eventAddTimer_shows h timer).bind fun _ s₁ hadded => ?_
          obtain ⟨T₁, h₁⟩ := hadded
          exact ih h₁
      | del ev =>
          refine (eventDelTimer_shows h).bind fun _ s₁ hdeleted => ?_
          obtain ⟨T₁, h₁⟩ := hdeleted
          exact ih h₁

/-! ## the first timer -/

omit [DecidableEq ν] in
/-- The first entry is that of the first node. -/
theorem Shows.first (h : Shows s T q) {ns : List ν} (hns : T.toList = ev :: ns) :
    q.agenda.entries.head? = some ((s.tree.heap (.node ev)).key.toNat, ev) := by
  rw [h.entries, listing, hns]
  rfl

/-- `event_find_timer` on the tree is `event_find_timer` on the queue. -/
theorem eventFindTimer_shows (h : Shows s T q) (hfuel : T.toList.length < fuel) :
    Runs (eventFindTimer fuel) s fun timer s' => s' = s ∧ timer = q.findTimer := by
  simp only [eventFindTimer, runs_bind, runs_onTree, runs_getRoot, runs_ite, runs_pure]
  split
  next hempty =>
    obtain rfl : T = .leaf := ptr_eq_sentinel.mp (h.kept.tree.holds.root.symm.trans hempty)
    rw [TimerQueue.findTimer, h.entries]
    exact ⟨trivial, rfl⟩
  next hroot =>
    have hT : T ≠ .leaf := by
      rintro rfl
      exact hroot h.kept.tree.holds.root
    refine (rbtreeMin_root_runs h.kept.tree hT hfuel).imp ?_
    rintro _ _ ⟨rfl, n, ns, rfl, hns⟩
    have hq : q.findTimer =
        let timer := (s.tree.heap (.node n)).key - s.currentMsec
        if 0 < timer.toInt then timer else 0 := by
      rw [TimerQueue.findTimer, h.first hns]
      dsimp only
      rw [h.currentMsec, BitVec.ofNat_toNat, BitVec.setWidth_eq]
    simp only [runs_getKey, runs_get]
    exact ⟨Ptr.node_ne_null, trivial, hq.symm⟩

/-- One turn of `event_expire_timers`. -/
theorem expireFirst_shows_runs (h : Shows s T q) (hfuel : T.toList.length + 1 < fuel) :
    Runs (expireFirst fuel) s fun fired s' =>
      (fired = none ∧ s' = s ∧ q.expireFirst = none) ∨
        ∃ ev T' q', fired = some ev ∧ q.expireFirst = some (ev, q') ∧ Shows s' T' q' := by
  simp only [expireFirst, runs_bind, runs_onTree, runs_getRoot, runs_ite, runs_pure]
  split
  next hempty =>
    obtain rfl : T = .leaf := ptr_eq_sentinel.mp (h.kept.tree.holds.root.symm.trans hempty)
    refine .inl ⟨trivial, trivial, ?_⟩
    rw [TimerQueue.expireFirst, h.entries]
    rfl
  next hroot =>
    have hT : T ≠ .leaf := by
      rintro rfl
      exact hroot h.kept.tree.holds.root
    refine (rbtreeMin_root_runs h.kept.tree hT (by omega)).imp ?_
    rintro _ _ ⟨rfl, ev, ns, rfl, hns⟩
    have hmem : ev ∈ T.toList := by simp [hns]
    have hfirst := h.first hns
    simp only [runs_bind, runs_onTree, runs_getKey, runs_get, runs_ite, runs_pure, runs_modify]
    refine ⟨Ptr.node_ne_null, ?_⟩
    split
    next hdue =>
      have hq : q.expireFirst = some (ev, { q with
          agenda := q.agenda.erase ev
          expired := Function.update q.expired ev true
          called := q.called ++ [ev] }) := by
        rw [TimerQueue.expireFirst, hfirst]
        dsimp only
        rw [h.currentMsec, BitVec.ofNat_toNat, BitVec.setWidth_eq, if_pos hdue, ← erase_first hfirst]
      refine (rbtreeDelete_nodes h.kept.tree (.inl hmem) hfuel).imp fun _ t' hdropped => ?_
      obtain ⟨T', hd, hnodes⟩ := hdropped
      refine .inr ⟨ev, T', _, rfl, hq, (hd.fires h.kept hdue hmem).kept, ?_, fun e => ?_, h.currentMsec, ?_⟩
      · have hkeys : ∀ m ∈ T'.toList, (t'.heap (.node m)).key = (s.tree.heap (.node m)).key :=
          fun m hm => hd.key m ((hd.nodes m).mp hm).2
        change q.agenda.entries.filter _ = listing t' T'
        rw [h.entries, listing, listing, listing_congr hkeys, hnodes, List.filter_map]
        rfl
      · change Function.update q.expired ev true e = true ↔ s.timerSet e = true ∧ e ∉ T'.toList
        rw [hd.nodes]
        by_cases he : e = ev
        · simp [he, h.kept.set ev hmem]
        · simp [he, h.expired e]
      · exact congrArg (· ++ [ev]) h.called
    next hdue =>
      refine .inl ⟨trivial, trivial, ?_⟩
      rw [TimerQueue.expireFirst, hfirst]
      dsimp only
      rw [h.currentMsec, BitVec.ofNat_toNat, BitVec.setWidth_eq, if_neg hdue]

theorem expireFirst_extends {fuel fuel' : Nat} (hle : fuel ≤ fuel') :
    Extends (expireFirst (ν := ν) fuel) (expireFirst fuel') := by
  refine (Extends.refl _).bind fun root => .ite (.refl _) ?_
  refine (onTree_extends (loop_extends hle root)).bind fun p => ?_
  cases p with
  | node ev =>
      refine (Extends.refl _).bind fun key => (Extends.refl _).bind fun s => .ite ?_ (.refl _)
      exact (onTree_extends (rbtreeDelete_extends hle (.node ev))).bind fun _ => .refl _
  | null => exact .refl _
  | sentinel => exact .refl _

theorem expireFirst_shows (h : Shows s T q) :
    Ensures (expireFirst fuel) s fun fired s' =>
      (fired = none ∧ s' = s ∧ q.expireFirst = none) ∨
        ∃ ev T' q', fired = some ev ∧ q.expireFirst = some (ev, q') ∧ Shows s' T' q' :=
  (expireFirst_shows_runs h (by omega : T.toList.length + 1 < max fuel (T.toList.length + 2))).ensures
    (expireFirst_extends (Nat.le_max_left _ _))

/-- What the handlers of the calls do, call by call. -/
def scripts (handlers : Handlers ν) (calls : List (ν × Timers ν)) : List (List (HandlerOp ν)) :=
  calls.map fun c => handlers c.1 c.2

/-- The rule for expiry on the queue: what holds of the queue whenever a timer
is taken out and its handler has run holds at the end, and no timer is due. -/
theorem eventExpireTimersWith_shows {handlers : Handlers ν} {I : TimerQueue ν → Prop}
    (hturn : ∀ q ev q' ops, I q → q.expireFirst = some (ev, q') →
      (∃ s T, Shows s T q' ∧ ops = handlers ev s) → I (TimerQueue.runHandler ops q'))
    (h : Shows s T q) (hI : I q) :
    Ensures (eventExpireTimersWith handlers fuel) s fun _ s' =>
      ∃ T' q' calls, HandlersCalled handlers fuel s calls s' ∧ Shows s' T' q' ∧ I q' ∧
        q.expireTimers (scripts handlers calls) = some q' := by
  refine (loop_ensures (fun _ s' => ∃ T' q' calls, Shows s' T' q' ∧ I q' ∧
    (∀ more s'', HandlersCalled handlers fuel s' more s'' → HandlersCalled handlers fuel s (calls ++ more) s'') ∧
    ∀ more q'', q'.expireTimers more = some q'' → q.expireTimers (scripts handlers calls ++ more) = some q'')
    (Q := fun _ s' => ∃ T' q' calls, HandlersCalled handlers fuel s calls s' ∧ Shows s' T' q' ∧ I q' ∧
      q.expireTimers (scripts handlers calls) = some q') ?_ fuel () s
    ⟨T, q, [], h, hI, fun _ _ hmore => hmore, fun _ _ hmore => hmore⟩)
  rintro _ s₀ ⟨T₀, q₀, calls, h₀, hI₀, hcalls, hscripts⟩
  have hfirst₀ : Ensures (expireFirst fuel) s₀ fun fired s₁ => expireFirst fuel s₀ = .ok (fired, s₁) ∧
      ((fired = none ∧ s₁ = s₀ ∧ q₀.expireFirst = none) ∨
        ∃ ev T₁ q₁, fired = some ev ∧ q₀.expireFirst = some (ev, q₁) ∧ Shows s₁ T₁ q₁) :=
    fun fired s₁ hm => ⟨hm, expireFirst_shows h₀ fired s₁ hm⟩
  refine hfirst₀.bind fun fired s₁ hfired => ?_
  obtain ⟨hm, ⟨rfl, rfl, hnone⟩ | ⟨ev, T₁, q₁, rfl, hfirst, h₁⟩⟩ := hfired
  · have hend : q₀.expireTimers [] = some q₀ := by rw [TimerQueue.expireTimers, hnone]; rfl
    refine .pure ⟨T₀, q₀, calls, ?_, h₀, hI₀, ?_⟩
    · simpa using hcalls [] s₁ (.done hm)
    · simpa using hscripts [] q₀ hend
  · refine Ensures.of_runs ?_
    rw [runs_get]
    have hran₁ : Ensures (runHandler fuel (handlers ev s₁)) s₁ fun _ s₂ =>
        runHandler fuel (handlers ev s₁) s₁ = .ok ((), s₂) ∧ ∃ T₂, Shows s₂ T₂ (TimerQueue.runHandler (handlers ev s₁) q₁) :=
      fun _ s₂ hran => ⟨hran, runHandler_shows h₁ (handlers ev s₁) _ s₂ hran⟩
    refine hran₁.bind fun _ s₂ hran => ?_
    obtain ⟨hran, T₂, h₂⟩ := hran
    refine .pure ⟨T₂, _, calls ++ [(ev, s₁)], h₂, hturn q₀ ev q₁ _ hI₀ hfirst ⟨s₁, T₁, h₁, rfl⟩, ?_, ?_⟩
    · intro more s'' hmore
      rw [List.append_assoc]
      exact hcalls _ s'' (.call hm hran hmore)
    · intro more q'' hmore
      rw [scripts, List.map_append, List.append_assoc]
      refine hscripts _ q'' ?_
      change (q₀.expireFirst.bind fun a => TimerQueue.expireTimers more (TimerQueue.runHandler _ a.2)) = some q''
      rw [hfirst]
      exact hmore

/-! ## every run -/

omit [DecidableEq ν] in
theorem Timers.Fresh.shows (h : s.Fresh) :
    Shows s .leaf ⟨.empty, fun _ => false, s.currentMsec, []⟩ where
  kept := h.kept
  entries := rfl
  expired ev := by simp [h.init.timerSet ev]
  currentMsec := rfl
  called := h.init.called.symm

/-- What an operation on the tree is on the queue. -/
theorem expiryStep_shows {op : ExpiryOp ν} (h : Shows s T q) (hstep : expiryStep s op = some s') :
    ∃ T' q' op', q.step op' = some q' ∧ Shows s' T' q' := by
  cases op with
  | add fuel ev timer =>
      obtain ⟨T', h'⟩ := ensures_of_step (eventAddTimer_shows h timer) hstep
      exact ⟨T', _, .add ev timer, rfl, h'⟩
  | del fuel ev =>
      obtain ⟨T', h'⟩ := ensures_of_step (eventDelTimer_shows h) hstep
      exact ⟨T', _, .del ev, rfl, h'⟩
  | expire fuel handlers =>
      obtain ⟨T', q', calls, -, h', -, hq⟩ := ensures_of_step
        (eventExpireTimersWith_shows (I := fun _ => True) (fun _ _ _ _ _ _ _ => trivial) h trivial) hstep
      exact ⟨T', q', .expire (scripts handlers calls), hq, h'⟩
  | timeUpdate now =>
      cases hstep
      exact ⟨T, _, .timeUpdate now, rfl, ⟨h.kept.tree, h.kept.set, h.kept.rest⟩, h.entries, h.expired, rfl, h.called⟩

theorem timerRuns_shows (h : (timerRuns ν).Reaches s) :
    ∃ T q, (timerQueues ν).Reaches q ∧ Shows s T q := by
  refine h.invariant (I := fun s => ∃ T q, (timerQueues ν).Reaches q ∧ Shows s T q) (fun s hfresh => ?_) ?_
  · exact ⟨.leaf, _, .init ⟨rfl, fun _ => rfl, rfl⟩, hfresh.shows⟩
  · rintro s op s' ⟨T, q, hq, hshows⟩ - hstep
    obtain ⟨T', q', op', hq', h'⟩ := expiryStep_shows hshows hstep
    exact ⟨T', q', hq.step trivial hq', h'⟩

end Timers

/-! ## main result -/

/-- In every run, with handlers that set and delete any timers, the tree shows
the queue of a run of the queue, and every operation goes on as the queue does;
the queue's handlers do what the handlers returned when they were called. -/
theorem timerRuns_refine {s : Timers ν} (h : (timerRuns ν).Reaches s) :
    ∃ T q, (timerQueues ν).Reaches q ∧ Shows s T q ∧ ∃ fuel₀, ∀ fuel > fuel₀,
      Runs (eventFindTimer fuel) s (fun timer s' => s' = s ∧ timer = q.findTimer) ∧
      (∀ ev timer, Runs (eventAddTimer fuel ev timer) s fun _ s' => ∃ T', Shows s' T' (q.addTimer ev timer)) ∧
      (∀ ev, s.timerSet ev = true →
        Runs (eventDelTimer fuel ev) s fun _ s' => ∃ T', Shows s' T' (q.delTimer ev)) ∧
      ∀ handlers, Ensures (eventExpireTimersWith handlers fuel) s fun _ s' =>
        ∃ T' q' calls, HandlersCalled handlers fuel s calls s' ∧ Shows s' T' q' ∧
          q.expireTimers (scripts handlers calls) = some q' := by
  obtain ⟨T, q, hq, hshows⟩ := timerRuns_shows h
  refine ⟨T, q, hq, hshows, T.toList.length + 1, fun fuel hfuel => ⟨?_, fun ev timer => ?_, fun ev hev => ?_,
    fun handlers => ?_⟩⟩
  · exact eventFindTimer_shows hshows (Nat.lt_of_succ_lt hfuel)
  · exact eventAddTimer_shows_runs hshows hfuel timer
  · refine (eventDelTimer_shows_runs hshows (hshows.kept.mem_or_cleared hev) hfuel).imp fun _ s' hdeleted => ?_
    obtain ⟨T', -, h'⟩ := hdeleted
    exact ⟨T', h'⟩
  · refine (eventExpireTimersWith_shows (I := fun _ => True) (fun _ _ _ _ _ _ _ => trivial) hshows trivial).imp ?_
    rintro _ s' ⟨T', q', calls, hcalls, h', -, hq'⟩
    exact ⟨T', q', calls, hcalls, h', hq'⟩

/-- Three timers, two of them with the same deadline, the first of which has expired
and set itself anew. -/
theorem timerRuns_refine_three : ∃ s, (timerRuns Nat).Reaches s ∧ s.called = [2] ∧
    ∃ T q, (timerQueues Nat).Reaches q ∧ Shows s T q ∧ ∃ fuel₀, ∀ fuel > fuel₀,
      Runs (eventFindTimer fuel) s (fun timer s' => s' = s ∧ timer = q.findTimer) ∧
      (∀ ev timer, Runs (eventAddTimer fuel ev timer) s fun _ s' => ∃ T', Shows s' T' (q.addTimer ev timer)) ∧
      (∀ ev, s.timerSet ev = true →
        Runs (eventDelTimer fuel ev) s fun _ s' => ∃ T', Shows s' T' (q.delTimer ev)) ∧
      ∀ handlers, Ensures (eventExpireTimersWith handlers fuel) s fun _ s' =>
        ∃ T' q' calls, HandlersCalled handlers fuel s calls s' ∧ Shows s' T' q' ∧
          q.expireTimers (scripts handlers calls) = some q' := by
  obtain ⟨s, hs, htest⟩ := Machine.Reaches.exists_of_runTest (M := timerRuns Nat) (fun s => s.called == [2])
    [.add 9 0 5000, .add 9 1 5000, .add 9 2 1000, .timeUpdate 1500,
      .expire 9 fun ev _ => [.del ev, .add ev 4000]] (.init noTimers_fresh) (by decide +kernel)
  exact ⟨s, hs, beq_iff_eq.mp htest, timerRuns_refine hs⟩

end PWebServer
