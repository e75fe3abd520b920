import PWebServer.Event.TimerRuns

/-!
# Event.TimerFlags

`timer_set` against the tree.  Expiry leaves the flag set, so that an event whose
handler neither deletes its timer nor sets it again has the flag without a timer,
and `event_add_timer` trusts the flag: it compares the new key with that of a node
that `rbtree_delete` has zeroed.
-/

namespace PWebServer

open Program RedBlack

variable {ν : Type} [DecidableEq ν]

/-- A handler deletes the timer of `ev`, or adds one whose key is not taken for the
zeroed key. -/
def HandlerOp.Repairs (now : BitVec 32) (ev : ν) : HandlerOp ν → Prop
  | .add e timer => e = ev ∧ timerLazyDelay ≤ (now + timer).abs.toInt
  | .del e => e = ev

/-- What a handler does leaves `ev` with its flag unset or its timer in the tree. -/
def Repairs (now : BitVec 32) (ev : ν) (ops : List (HandlerOp ν)) : Prop := ∃ op ∈ ops, op.Repairs now ev

/-- Every handler that expiry calls looks after the timer of its event. -/
def HandlersRepair (s : Timers ν) : ExpiryOp ν → Prop
  | .expire fuel handlers => ∀ ev s₁, HandlerCalled handlers fuel s ev s₁ →
      Repairs s₁.currentMsec ev (handlers ev s₁)
  | _ => True

/-- Every event whose flag is set has its timer in the tree. -/
structure Agrees (s : Timers ν) (T : BinTree ν) : Prop where
  kept : TimersKept s T
  flag : ∀ ev, s.timerSet ev = true → ev ∈ T.toList

/-- The same, but for one event, whose key is zeroed. -/
structure AgreesBut (s : Timers ν) (T : BinTree ν) (ev : ν) : Prop where
  kept : TimersKept s T
  flag : ∀ e ≠ ev, s.timerSet e = true → e ∈ T.toList
  key : ev ∉ T.toList → (s.tree.heap (.node ev)).key = 0

section Flags

variable {s s' s₁ : Timers ν} {T T' T₁ : BinTree ν} {ev e : ν} {fuel : Nat} {timer key : BitVec 32}

omit [DecidableEq ν] in
theorem repairs_cons {now : BitVec 32} {op : HandlerOp ν} {ops : List (HandlerOp ν)} :
    Repairs now ev (op :: ops) ↔ op.Repairs now ev ∨ Repairs now ev ops := List.exists_mem_cons_iff _ _ _

omit [DecidableEq ν] in
theorem AgreesBut.agrees (h : AgreesBut s T ev) (hev : s.timerSet ev = true → ev ∈ T.toList) : Agrees s T := by
  refine ⟨h.kept, fun e he => ?_⟩
  by_cases hne : e = ev
  · subst hne
    exact hev he
  · exact h.flag e hne he

/-- The timer of an event is deleted, whatever its flag was. -/
theorem Disarmed.agrees (h : ∀ e ≠ ev, s.timerSet e = true → e ∈ T.toList) (hd : Disarmed s T ev s' T') : Agrees s' T' := by
  refine ⟨hd.kept, fun e he => ?_⟩
  rw [hd.timerSet] at he
  by_cases hne : e = ev
  · simp [hne] at he
  · rw [Function.update_of_ne hne] at he
    exact (hd.nodes e).mpr ⟨h e hne he, hne⟩

/-- The timer of an event is set, whatever its flag was. -/
theorem Armed.agrees (h : ∀ e ≠ ev, s.timerSet e = true → e ∈ T.toList) (ha : Armed s T ev key s' T') : Agrees s' T' := by
  refine ⟨ha.kept, fun e he => (ha.nodes e).mpr ?_⟩
  rw [ha.timerSet] at he
  by_cases hne : e = ev
  · exact .inr hne
  · rw [Function.update_of_ne hne] at he
    exact .inl (h e hne he)

/-- A handler that deletes the timer of another event. -/
theorem Disarmed.agreesBut (h : AgreesBut s T ev) (hne : e ≠ ev) (hd : Disarmed s T e s' T') : AgreesBut s' T' ev := by
  refine ⟨hd.kept, fun e' hne' he' => ?_, fun hev => ?_⟩
  · rw [hd.timerSet] at he'
    by_cases hsame : e' = e
    · simp [hsame] at he'
    · rw [Function.update_of_ne hsame] at he'
      exact (hd.nodes e').mpr ⟨h.flag e' hne' he', hsame⟩
  · rw [hd.key ev hne.symm]
    exact h.key fun hmem => hev ((hd.nodes ev).mpr ⟨hmem, hne.symm⟩)

/-- A handler that sets the timer of another event. -/
theorem Armed.agreesBut (h : AgreesBut s T ev) (hne : e ≠ ev) (ha : Armed s T e key s' T') : AgreesBut s' T' ev := by
  refine ⟨ha.kept, fun e' hne' he' => (ha.nodes e').mpr ?_, fun hev => ?_⟩
  · rw [ha.timerSet] at he'
    by_cases hsame : e' = e
    · exact .inr hsame
    · rw [Function.update_of_ne hsame] at he'
      exact .inl (h.flag e' hne' he')
  · rw [ha.key ev hne.symm]
    exact h.key fun hmem => hev ((ha.nodes ev).mpr (.inl hmem))

omit [DecidableEq ν] in
theorem Fires.agreesBut (h : Agrees s T) (hf : Fires s T ev s' T') : AgreesBut s' T' ev where
  kept := hf.kept
  flag e hne he := by
    rw [hf.timerSet] at he
    exact (hf.nodes e).mpr ⟨h.flag e he, hne⟩
  key _ := hf.cleared.2.2.2

/-- What a handler does when every flag agrees with the tree. -/
theorem runHandler_agrees (h : Agrees s T) (ops : List (HandlerOp ν)) :
    Ensures (runHandler fuel ops) s fun _ s' => ∃ T', Agrees s' T' := by
  induction ops generalizing s T with
  | nil => exact .pure ⟨T, h⟩
  | cons op ops ih =>
      cases op with
      | add e timer =>
          refine (eventAddTimer_ensures h.kept timer).bind fun _ s₁ hadded => ?_
          obtain ⟨-, -, rfl⟩ | ⟨-, T₁, harmed⟩ := hadded
          · exact ih h
          · exact ih (harmed.agrees fun e _ => h.flag e)
      | del e =>
          refine (eventDelTimer_ensures h.kept).bind fun _ s₁ hdeleted => ?_
          obtain ⟨T₁, hdisarmed⟩ := hdeleted
          exact ih (hdisarmed.agrees fun e _ => h.flag e)

/-- What a handler does that looks after the timer of its event. -/
theorem runHandler_repairs {now : BitVec 32} {ops : List (HandlerOp ν)} (h : AgreesBut s T ev)
    (hnow : s.currentMsec = now) (hops : Repairs now ev ops) :
    Ensures (runHandler fuel ops) s fun _ s' => ∃ T', Agrees s' T' := by
  induction ops generalizing s T with
  | nil =>
      obtain ⟨op, hop, -⟩ := hops
      exact absurd hop List.not_mem_nil
  | cons op ops ih =>
      by_cases hmem : ev ∈ T.toList
      · exact runHandler_agrees (h.agrees fun _ => hmem) (op :: ops)
      · have hkey := h.key hmem
        cases op with
        | add e timer =>
            refine (eventAddTimer_ensures h.kept timer).bind fun _ s₁ hadded => ?_
            obtain ⟨-, hlazy, rfl⟩ | ⟨-, T₁, harmed⟩ := hadded
            · refine ih h hnow ((repairs_cons.mp hops).resolve_left fun hrepairs => ?_)
              obtain ⟨rfl, hfar⟩ := hrepairs
              -- the key is zeroed, so that this is not the call that sets the timer
              have hzero : s₁.currentMsec + timer - 0 = s₁.currentMsec + timer := BitVec.sub_zero _
              rw [Timers.Lazy, hkey, hzero, hnow] at hlazy
              omega
            · by_cases hne : e = ev
              · subst hne
                exact runHandler_agrees (harmed.agrees h.flag) ops
              · have hrest := (repairs_cons.mp hops).resolve_left fun hrepairs => hne hrepairs.1
                exact ih (harmed.agreesBut h hne) (harmed.currentMsec.trans hnow) hrest
        | del e =>
            refine (eventDelTimer_ensures h.kept).bind fun _ s₁ hdeleted => ?_
            obtain ⟨T₁, hdisarmed⟩ := hdeleted
            by_cases hne : e = ev
            · subst hne
              exact runHandler_agrees (hdisarmed.agrees h.flag) ops
            · have hrest := (repairs_cons.mp hops).resolve_left fun hrepairs => hne hrepairs
              exact ih (hdisarmed.agreesBut h hne) (hdisarmed.currentMsec.trans hnow) hrest

/-- Expiry, when every handler that it calls looks after the timer of its event. -/
theorem eventExpireTimersWith_agrees {handlers : Handlers ν} (h : Agrees s T)
    (hrepair : HandlersRepair s (.expire fuel handlers)) :
    Ensures (eventExpireTimersWith handlers fuel) s fun _ s' => ∃ T', Agrees s' T' := by
  have hrun : Ensures (eventExpireTimersWith handlers fuel) s fun _ s' =>
      ∃ T', Agrees s' T' ∧ HandlersRepair s' (.expire fuel handlers) := by
    refine eventExpireTimersWith_ensures (fun s₀ T₀ hI => hI.1.kept) (fun s₀ T₀ ev s₁ T₁ hI hfirst hfires => ?_)
      ⟨h, hrepair⟩
    obtain ⟨hagrees, hcalled⟩ := hI
    intro _ s₂ hhandler
    obtain ⟨T₂, hT₂⟩ := runHandler_repairs (hfires.agreesBut hagrees) rfl (hcalled ev s₁ (.first hfirst)) _ s₂ hhandler
    exact ⟨T₂, hT₂, fun ev' s₃ hlater => hcalled ev' s₃ (.later hfirst hhandler hlater)⟩
  exact hrun.imp fun _ s' hI => hI.imp fun T' hI => hI.1

end Flags

/-- If every handler that expiry calls deletes the timer of its event or sets it to a
key other than one near 0, an event whose flag is set has its timer in the tree. -/
theorem timerSet_inTree {s : Timers ν} (h : ((timerRuns ν).restrict HandlersRepair).Reaches s) :
    ∀ ev, s.timerSet ev = true → s.InTree ev := by
  have hagrees : ∃ T, Agrees s T := by
    refine h.invariant (I := fun s => ∃ T, Agrees s T) (fun s hfresh => ?_) ?_
    · refine ⟨.leaf, hfresh.kept, fun ev hev => ?_⟩
      rw [hfresh.init.timerSet] at hev
      exact Bool.noConfusion hev
    · rintro s op s' ⟨T, hagrees⟩ ⟨-, hrepair⟩ hstep
      cases op with
      | add fuel ev timer =>
          obtain ⟨-, -, rfl⟩ | ⟨-, T', harmed⟩ := ensures_of_step (eventAddTimer_ensures hagrees.kept timer) hstep
          · exact ⟨T, hagrees⟩
          · exact ⟨T', harmed.agrees fun e _ => hagrees.flag e⟩
      | del fuel ev =>
          obtain ⟨T', hdisarmed⟩ := ensures_of_step (eventDelTimer_ensures hagrees.kept) hstep
          exact ⟨T', hdisarmed.agrees fun e _ => hagrees.flag e⟩
      | expire fuel handlers => exact ensures_of_step (eventExpireTimersWith_agrees hagrees hrepair) hstep
      | timeUpdate now =>
          cases hstep
          exact ⟨T, ⟨hagrees.kept.tree, hagrees.kept.set, hagrees.kept.rest⟩, hagrees.flag⟩
  obtain ⟨T, hT⟩ := hagrees
  exact fun ev hev => ⟨T, hT.kept.tree.holds, hT.flag ev hev⟩

instance timerRunsAllowsDecidable (s : Timers ν) (op : ExpiryOp ν) : Decidable ((timerRuns ν).allows s op) :=
  .isTrue trivial

theorem noTimers_fresh : noTimers.Fresh := ⟨⟨rfl, rfl, fun _ => rfl, rfl⟩, fun _ => rfl⟩

/-- Two timers, the first of which expires and is deleted by its handler. -/
theorem timerSet_inTree_second : ∃ s, ((timerRuns Nat).restrict HandlersRepair).Reaches s ∧ s.timerSet 1 = true ∧
    s.InTree 1 := by
  have hinit : ((timerRuns Nat).restrict HandlersRepair).Reaches noTimers := .init noTimers_fresh
  have hrepair : ∀ op ∈ [.timeUpdate 100, .add 3 0 20, .add 3 1 500, .timeUpdate 200, .expire 4 fun ev _ => [.del ev]],
      ∀ s : Timers Nat, HandlersRepair s op := by
    simp only [List.forall_mem_cons]
    refine ⟨fun _ => trivial, fun _ => trivial, fun _ => trivial, fun _ => trivial, fun _ ev s₁ _ => ?_,
      fun _ hop => absurd hop List.not_mem_nil⟩
    exact ⟨_, List.mem_singleton_self _, rfl⟩
  obtain ⟨s, hs, htest⟩ := hinit.restrict_exists_of_runTest (fun s => s.timerSet 1) _ hrepair (by decide +kernel)
  exact ⟨s, hs, htest, timerSet_inTree hs 1 htest⟩

/-- The flag of an event is set, and no timer is in the tree. -/
def staleFlag (s : Timers Nat) : Bool := s.timerSet 0 && decide (s.tree.root = .sentinel)

theorem not_inTree_of_staleFlag {s : Timers Nat} (h : staleFlag s = true) : s.timerSet 0 = true ∧ ¬s.InTree 0 := by
  simp only [staleFlag, Bool.and_eq_true, decide_eq_true_eq] at h
  refine ⟨h.1, ?_⟩
  rintro ⟨T, hT, hmem⟩
  obtain rfl : T = .leaf := ptr_eq_sentinel.mp (hT.root.symm.trans h.2)
  exact List.not_mem_nil hmem

/-- A timer expires, and its handler does nothing with timers. -/
theorem timerSet_stale : ¬∀ s, (timerRuns Nat).Reaches s → ∀ ev, s.timerSet ev = true → s.InTree ev := by
  intro hall
  have hinit : (timerRuns Nat).Reaches noTimers := .init noTimers_fresh
  obtain ⟨s, hs, htest⟩ := hinit.exists_of_runTest staleFlag
    [.timeUpdate 100, .add 3 0 20, .timeUpdate 200, .expire 3 fun _ _ => []] (by decide +kernel)
  obtain ⟨hset, hnot⟩ := not_inTree_of_staleFlag htest
  exact hnot (hall s hs 0 hset)

/-! ## the lazy timers -/

/-- The timer of `ev` is in the tree, with a key near to the one asked for. -/
def Timers.Near (s : Timers ν) (ev : ν) (key : BitVec 32) : Prop :=
  s.InTree ev ∧ (key - (s.tree.heap (.node ev)).key).toInt.natAbs < timerLazyDelay

theorem natAbs_lt_iff {diff : BitVec 32} (hlazy : diff.abs.toInt < timerLazyDelay) :
    diff.toInt.natAbs < timerLazyDelay ↔ diff ≠ BitVec.intMin 32 := by
  by_cases hmin : diff = BitVec.intMin 32
  · subst hmin
    decide
  · rw [BitVec.toInt_abs_eq_natAbs_of_ne_intMin hmin] at hlazy
    exact iff_of_true hlazy hmin

theorem eventAddTimer_near_runs {s : Timers ν} {T : BinTree ν} {ev : ν} {fuel : Nat} (h : TimersKept s T)
    (hfuel : T.toList.length + 1 < fuel) (timer : BitVec 32) :
    Runs (eventAddTimer fuel ev timer) s (fun _ s' => s'.Near ev (s.currentMsec + timer)) ↔
      (s.timerSet ev = true → s.Lazy ev timer →
        s.InTree ev ∧ s.currentMsec + timer - (s.tree.heap (.node ev)).key ≠ BitVec.intMin 32) := by
  refine (eventAddTimer_armed h hfuel timer).iff_of fun _ s' hadded => ?_
  obtain ⟨hev, hlazy, rfl⟩ | ⟨hnot, T', harmed⟩ := hadded
  · rw [Timers.Near, natAbs_lt_iff hlazy]
    exact ⟨fun hnear _ _ => hnear, fun hcond => hcond hev hlazy⟩
  · refine iff_of_true ⟨⟨T', harmed.kept.tree.holds, (harmed.nodes ev).mpr (.inr rfl)⟩, ?_⟩
      fun hev hlazy => absurd ⟨hev, hlazy⟩ hnot
    rw [harmed.self, BitVec.sub_self]
    decide

/-- `event_add_timer` has set a timer near to the one asked for, except that it took
the flag of an event without a timer for a timer that is near, or the difference has
no absolute value. -/
theorem eventAddTimer_near_iff {s : Timers ν} (h : (timerRuns ν).Reaches s) (ev : ν) (timer : BitVec 32) :
    ∃ fuel₀, ∀ fuel > fuel₀, Runs (eventAddTimer fuel ev timer) s (fun _ s' => s'.Near ev (s.currentMsec + timer)) ↔
      (s.timerSet ev = true → s.Lazy ev timer →
        s.InTree ev ∧ s.currentMsec + timer - (s.tree.heap (.node ev)).key ≠ BitVec.intMin 32) := by
  obtain ⟨T, hT⟩ := timerRuns_kept h
  exact ⟨T.toList.length + 1, fun fuel hfuel => eventAddTimer_near_runs hT hfuel timer⟩

/-- A timer that is set once more. -/
theorem eventAddTimer_near_again : ∃ s, (timerRuns Nat).Reaches s ∧ s.timerSet 0 = true ∧
    ∃ fuel₀, ∀ fuel > fuel₀, Runs (eventAddTimer fuel 0 30) s (fun _ s' => s'.Near 0 (s.currentMsec + 30)) ↔
      (s.timerSet 0 = true → s.Lazy 0 30 →
        s.InTree 0 ∧ s.currentMsec + 30 - (s.tree.heap (.node 0)).key ≠ BitVec.intMin 32) := by
  have hinit : (timerRuns Nat).Reaches noTimers := .init noTimers_fresh
  obtain ⟨s, hs, htest⟩ := hinit.exists_of_runTest (fun s => s.timerSet 0)
    [.timeUpdate 100, .add 3 0 20] (by decide +kernel)
  exact ⟨s, hs, htest, eventAddTimer_near_iff hs 0 30⟩

/-- The timer of an event has expired 121 milliseconds after the counter was 0, and
is to be set to 100 more: the key 221 is taken for one near to the zeroed key. -/
theorem eventAddTimer_not_near : ¬∀ s, (timerRuns Nat).Reaches s → ∀ ev timer, timer.toNat < 2147483648 →
    ∃ fuel₀, ∀ fuel > fuel₀,
      Runs (eventAddTimer fuel ev timer) s fun _ s' => s'.Near ev (s.currentMsec + timer) := by
  intro hall
  have hinit : (timerRuns Nat).Reaches noTimers := .init noTimers_fresh
  obtain ⟨s, hs, htest⟩ := hinit.exists_of_runTest
    (fun s => staleFlag s &&
      decide ((s.currentMsec + 100 - (s.tree.heap (.node 0)).key).abs.toInt < timerLazyDelay))
    [.timeUpdate 100, .add 3 0 20, .timeUpdate 121, .expire 3 fun _ _ => []] (by decide +kernel)
  rw [Bool.and_eq_true, decide_eq_true_eq] at htest
  obtain ⟨hset, hnot⟩ := not_inTree_of_staleFlag htest.1
  obtain ⟨T, hT⟩ := timerRuns_kept hs
  obtain ⟨fuel₀, hruns⟩ := hall s hs 0 100 (by decide)
  have hcond := (eventAddTimer_near_runs hT (by omega) 100).mp (hruns (max fuel₀ (T.toList.length + 1) + 1) (by omega))
  exact hnot (hcond hset htest.2).1

end PWebServer
