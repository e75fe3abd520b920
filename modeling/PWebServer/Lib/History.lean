import Mathlib.Data.List.Basic

/-!
# Lib.History

Histories that grow at their end.  A law says what an entry may be after what
came before it; a history is lawful if each of its entries is, so that of a
history that has grown only the new entries have to be looked at.
-/

namespace History

variable {α : Type*} {L L' : List α → α → Prop} {log xs ys : List α} {a : α}

/-- Every entry obeys `L` after what came before it. -/
def Lawful (L : List α → α → Prop) (log : List α) : Prop :=
  ∀ before a after, log = before ++ a :: after → L before a

theorem lawful_nil : Lawful L [] := by
  intro before a after h
  exact absurd h.symm (List.append_ne_nil_of_right_ne_nil before (List.cons_ne_nil a after))

/-- A longer history: what is new comes after what was there. -/
theorem lawful_append : Lawful L (xs ++ ys) ↔ Lawful L xs ∧ Lawful (fun p a => L (xs ++ p) a) ys := by
  constructor
  · intro h
    refine ⟨fun before a after hxs => ?_, fun before a after hys => ?_⟩
    · exact h before a (after ++ ys) (by rw [hxs, List.append_assoc, List.cons_append])
    · exact h (xs ++ before) a after (by rw [hys, List.append_assoc])
  · intro h before a after hlog
    rcases List.append_eq_append_iff.mp hlog with ⟨as, hbefore, hys⟩ | ⟨bs, hxs, hafter⟩
    · rw [hbefore]
      exact h.2 as a after hys
    · cases bs with
      | nil =>
          rw [List.append_nil] at hxs
          rw [← hxs, ← List.append_nil xs]
          exact h.2 [] a after hafter.symm
      | cons b bs =>
          obtain ⟨hb, -⟩ := List.cons.inj hafter
          rw [← hb] at hxs
          exact h.1 before a bs hxs

theorem lawful_singleton : Lawful L [a] ↔ L [] a := by
  constructor
  · exact fun h => h [] a [] rfl
  · intro h before b after hlog
    cases before with
    | nil =>
        obtain ⟨hb, -⟩ := List.cons.inj hlog
        rw [← hb]
        exact h
    | cons c before =>
        obtain ⟨-, hnil⟩ := List.cons.inj hlog
        exact absurd hnil.symm (List.append_ne_nil_of_right_ne_nil before (List.cons_ne_nil b after))

theorem lawful_concat : Lawful L (log ++ [a]) ↔ Lawful L log ∧ L log a := by
  rw [lawful_append, lawful_singleton, List.append_nil]

/-- New entries that are lawful wherever they come. -/
theorem Lawful.append (h : Lawful L xs) (hys : ∀ p, ∀ a ∈ ys, L (xs ++ p) a) : Lawful L (xs ++ ys) := by
  refine lawful_append.mpr ⟨h, fun before a after heq => hys before a ?_⟩
  rw [heq]
  exact List.mem_append_right _ List.mem_cons_self

theorem Lawful.imp (h : Lawful L log) (himp : ∀ p a, L p a → L' p a) : Lawful L' log :=
  fun before a after hlog => himp before a (h before a after hlog)

/-! ## the last part of a history -/

/-- The entries after the last one that meets `p`. -/
def since (p : α → Bool) (log : List α) : List α :=
  log.foldl (fun last a => if p a then [] else last ++ [a]) []

variable {p : α → Bool}

theorem since_concat (p : α → Bool) (log : List α) (a : α) :
    since p (log ++ [a]) = if p a then [] else since p log ++ [a] := List.foldl_concat ..

theorem since_append (h : ∀ a ∈ ys, p a = false) : since p (xs ++ ys) = since p xs ++ ys := by
  induction ys generalizing xs with
  | nil => rw [List.append_nil, List.append_nil]
  | cons y ys ih =>
      have hy : p y = false := h y List.mem_cons_self
      rw [← List.singleton_append, ← List.append_assoc, ih fun a ha => h a (List.mem_cons_of_mem y ha),
        since_concat, hy]
      simp

theorem mem_since_append (h : a ∈ since p (xs ++ ys)) : a ∈ since p xs ∨ a ∈ ys := by
  induction ys generalizing xs with
  | nil =>
      rw [List.append_nil] at h
      exact .inl h
  | cons y ys ih =>
      rw [← List.singleton_append, ← List.append_assoc] at h
      rcases ih h with hold | hnew
      · rw [since_concat] at hold
        split at hold
        · contradiction
        · cases List.mem_append.mp hold with
          | inl hxs => exact .inl hxs
          | inr hy =>
              rw [List.mem_singleton.mp hy]
              exact .inr List.mem_cons_self
      · exact .inr (List.mem_cons_of_mem y hnew)

end History
