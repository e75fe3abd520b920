import Mathlib.Data.List.Count
import Mathlib.Data.List.Nodup

/-!
# Lib.Custody

Things that are taken from a store and given back, each of them held by somebody
in between.  A holder has one key at a time, and keys that are not things say
that it holds nothing.

`Accounted` is the balance: what was taken was given back or is held, and nothing
is held twice.  The store hands out a thing only if it is in.
-/

namespace Custody

variable {α κ : Type*} [DecidableEq α] [DecidableEq κ] {thing : κ → Prop} {taken returned : List κ}
  {holders : List α} {key key' : α → κ} {a : α} {k v : κ}

/-- How many of the holders have `k`. -/
def held (holders : List α) (key : α → κ) (k : κ) : Nat := holders.countP fun a => decide (key a = k)

/-- What was taken from the store was given back, or one of the holders has it. -/
structure Accounted (thing : κ → Prop) (taken returned : List κ) (holders : List α) (key : α → κ) : Prop where
  count : ∀ k, thing k → taken.count k = returned.count k + held holders key k
  single : ∀ k, thing k → held holders key k ≤ 1

omit [DecidableEq α] in
theorem held_congr (h : ∀ a ∈ holders, key' a = key a) : held holders key' k = held holders key k :=
  List.countP_congr fun a ha => by rw [h a ha]

omit [DecidableEq α] in
theorem held_cons : held (a :: holders) key k = held holders key k + if key a = k then 1 else 0 := by
  rw [held, held, List.countP_cons]
  simp only [decide_eq_true_eq]

/-- One holder apart from the others. -/
theorem held_eq (ha : a ∈ holders) :
    held holders key k = held (holders.erase a) key k + if key a = k then 1 else 0 := by
  rw [← held_cons]
  exact (List.perm_cons_erase ha).countP_eq _

omit [DecidableEq α] in
theorem held_pos (ha : a ∈ holders) : 0 < held holders key (key a) :=
  List.countP_pos_iff.mpr ⟨a, ha, decide_eq_true rfl⟩

omit [DecidableEq α] in
/-- A key that is held once has one holder. -/
theorem eq_of_held {b : α} (h : held holders key (key a) ≤ 1) (ha : a ∈ holders)
    (hb : b ∈ holders) (heq : key b = key a) : b = a := by
  classical
  by_contra hne
  have hpos : 0 < held (holders.erase a) key (key b) := held_pos ((List.mem_erase_of_ne hne).mpr hb)
  rw [held_eq ha, if_pos rfl] at h
  rw [heq] at hpos
  omega

omit [DecidableEq α] [DecidableEq κ] in
theorem ne_of_not_thing (hnone : ¬ thing v) (hk : thing k) : v ≠ k := fun heq => hnone (heq ▸ hk)

namespace Accounted

omit [DecidableEq α] in
/-- The holders keep what they have. -/
theorem congr (h : Accounted thing taken returned holders key) (hkey : ∀ a ∈ holders, key' a = key a) :
    Accounted thing taken returned holders key' :=
  ⟨fun k hk => by rw [held_congr hkey]; exact h.count k hk,
    fun k hk => by rw [held_congr hkey]; exact h.single k hk⟩

omit [DecidableEq α] in
/-- A holder comes that has nothing yet. -/
theorem enter (h : Accounted thing taken returned holders key) (hnone : ¬ thing (key a)) :
    Accounted thing taken returned (a :: holders) key := by
  have hheld : ∀ k, thing k → held (a :: holders) key k = held holders key k := fun k hk => by
    rw [held_cons, if_neg (ne_of_not_thing hnone hk), Nat.add_zero]
  exact ⟨fun k hk => by rw [hheld k hk]; exact h.count k hk, fun k hk => by rw [hheld k hk]; exact h.single k hk⟩

/-- A holder that has nothing is given something that is in the store, or
another key that is nothing. -/
theorem take (h : Accounted thing taken returned holders key) (hnodup : holders.Nodup) (ha : a ∈ holders)
    (hnone : ¬ thing (key a)) (hin : thing (key' a) → taken.count (key' a) = returned.count (key' a))
    (hother : ∀ b ∈ holders, b ≠ a → key' b = key b) :
    Accounted thing (taken ++ [key' a]) returned holders key' := by
  have hrest : ∀ k, held (holders.erase a) key' k = held (holders.erase a) key k := fun k =>
    held_congr fun b hb => hother b (List.mem_of_mem_erase hb) fun heq => hnodup.not_mem_erase (heq ▸ hb)
  have hold : ∀ k, thing k → held holders key k = held (holders.erase a) key k := fun k hk => by
    rw [held_eq ha, if_neg (ne_of_not_thing hnone hk), Nat.add_zero]
  have hnew : ∀ k, thing k → held holders key' k = held holders key k + if key' a = k then 1 else 0 :=
    fun k hk => by rw [held_eq ha, hrest, hold k hk]
  refine ⟨fun k hk => ?_, fun k hk => ?_⟩
  · have := h.count k hk
    rw [hnew k hk, List.count_append, List.count_singleton']
    omega
  · rw [hnew k hk]
    split
    · next heq =>
        -- what is in the store is held by nobody
        have hcount := h.count k hk
        have hstore := hin (heq ▸ hk)
        rw [heq] at hstore
        omega
    · exact h.single k hk

/-- A holder leaves and gives back what it has. -/
theorem giveBack (h : Accounted thing taken returned holders key) (ha : a ∈ holders)
    (hkey : ∀ b ∈ holders.erase a, key' b = key b) :
    Accounted thing taken (returned ++ [key a]) (holders.erase a) key' := by
  refine ⟨fun k hk => ?_, fun k hk => ?_⟩
  · have hcount := h.count k hk
    rw [held_eq ha] at hcount
    rw [held_congr hkey, List.count_append, List.count_singleton']
    omega
  · have hsingle := h.single k hk
    rw [held_eq ha] at hsingle
    rw [held_congr hkey]
    omega

/-- A holder leaves that has nothing. -/
theorem leave (h : Accounted thing taken returned holders key) (ha : a ∈ holders) (hnone : ¬ thing (key a))
    (hkey : ∀ b ∈ holders.erase a, key' b = key b) :
    Accounted thing taken returned (holders.erase a) key' := by
  have hheld : ∀ k, thing k → held (holders.erase a) key' k = held holders key k := fun k hk => by
    rw [held_congr hkey, held_eq ha, if_neg (ne_of_not_thing hnone hk), Nat.add_zero]
  exact ⟨fun k hk => by rw [hheld k hk]; exact h.count k hk, fun k hk => by rw [hheld k hk]; exact h.single k hk⟩

omit [DecidableEq α] in
/-- Something is taken and given back at once. -/
theorem pass (h : Accounted thing taken returned holders key) (v : κ) :
    Accounted thing (taken ++ [v]) (returned ++ [v]) holders key := by
  refine ⟨fun k hk => ?_, h.single⟩
  have := h.count k hk
  rw [List.count_append, List.count_append]
  omega

omit [DecidableEq α] in
/-- A key that is not a thing is taken. -/
theorem of_not_thing (h : Accounted thing (taken ++ [v]) returned holders key) (hv : ¬ thing v) :
    Accounted thing taken returned holders key := by
  refine ⟨fun k hk => ?_, h.single⟩
  have := h.count k hk
  rw [List.count_append, List.count_singleton', if_neg (ne_of_not_thing hv hk)] at this
  exact this

omit [DecidableEq α] in
/-- Nothing is given back that was not taken. -/
theorem returned_le (h : Accounted thing taken returned holders key) (hk : thing k) :
    returned.count k ≤ taken.count k := by
  have := h.count k hk
  omega

end Accounted

end Custody
