import Mathlib.Algebra.Order.BigOperators.Group.Finset
import Mathlib.Algebra.BigOperators.Group.Finset.Piecewise
import Mathlib.Algebra.Order.Ring.Int
import Mathlib.Data.Int.Cast.Lemmas
import Mathlib.Algebra.BigOperators.Ring.Finset
import Mathlib.Tactic.Linarith
import Mathlib.Tactic.Ring

/-!
# Rotation

Smooth weighted rotation over a finite set: in every round each member is
credited its weight, one of the members with the most credit is picked, and
the picked one pays the total weight back.

* `Round.sum_eq` — a round moves credit around but creates none;
* `Round.lower` — no member ever owes a whole total;
* `Rounds.upper` — nor has one more than a total for each of the others;
* `Rounds.fair` — over as many rounds as the total weight, each member is
  picked exactly as often as its weight says and every credit is back at zero.
-/

namespace Rotation

open Finset

variable {ι : Type*} [DecidableEq ι] {s : Finset ι} {w : ι → ℤ}

/-- One round over the members `s` with weights `w`: from the credits `c` the
member `b` is picked, leaving the credits `c'`. -/
structure Round (s : Finset ι) (w c : ι → ℤ) (b : ι) (c' : ι → ℤ) : Prop where
  mem : b ∈ s
  most : ∀ i ∈ s, c i + w i ≤ c b + w b
  credit : ∀ i ∈ s, c' i = c i + w i - if i = b then ∑ j ∈ s, w j else 0

/-- A run of rounds, with the members picked in order. -/
inductive Rounds (s : Finset ι) (w : ι → ℤ) : (ι → ℤ) → List ι → (ι → ℤ) → Prop
  | nil : Rounds s w c [] c
  | cons : Round s w c b c₁ → Rounds s w c₁ bs c₂ → Rounds s w c (b :: bs) c₂

/-! ## one round -/

/-- A round keeps the sum of the credits. -/
theorem Round.sum_eq (h : Round s w c b c') : ∑ i ∈ s, c' i = ∑ i ∈ s, c i := by
  rw [sum_congr rfl h.credit, sum_sub_distrib, sum_add_distrib, sum_ite_eq' s b, if_pos h.mem]
  ring

/-- The picked member has credit left before it pays: were it not so, nobody
would have any, and the credits would not add up to the total weight. -/
theorem Round.picked_pos (h : Round s w c b c') (hsum : ∑ i ∈ s, c i = 0)
    (hW : 0 < ∑ i ∈ s, w i) : 0 < c b + w b := by
  by_contra hneg
  have hall : ∑ i ∈ s, (c i + w i) ≤ ∑ _i ∈ s, (0 : ℤ) :=
    sum_le_sum fun i hi => (h.most i hi).trans (not_lt.mp hneg)
  rw [sum_add_distrib, hsum, sum_const_zero] at hall
  omega

/-- If no member owes the total weight before a round, none does after it. -/
theorem Round.lower (h : Round s w c b c') (hw : ∀ i ∈ s, 0 ≤ w i)
    (hsum : ∑ i ∈ s, c i = 0) (hW : 0 < ∑ i ∈ s, w i)
    (hlow : ∀ i ∈ s, -(∑ j ∈ s, w j) < c i) : ∀ i ∈ s, -(∑ j ∈ s, w j) < c' i := by
  intro i hi
  have hpos := h.picked_pos hsum hW
  have hwi := hw i hi
  have hci := hlow i hi
  rw [h.credit i hi]
  by_cases hib : i = b
  · subst hib; rw [if_pos rfl]; omega
  · rw [if_neg hib]; omega

/-! ## runs -/

/-- A run keeps the sum of the credits. -/
theorem Rounds.sum_eq (h : Rounds s w c bs c') : ∑ i ∈ s, c' i = ∑ i ∈ s, c i := by
  induction h with
  | nil => rfl
  | cons hstep _ ih => rw [ih, hstep.sum_eq]

/-- No member owes the total weight after a run that started without debts. -/
theorem Rounds.lower (h : Rounds s w c bs c') (hw : ∀ i ∈ s, 0 ≤ w i)
    (hsum : ∑ i ∈ s, c i = 0) (hW : 0 < ∑ i ∈ s, w i)
    (hlow : ∀ i ∈ s, -(∑ j ∈ s, w j) < c i) : ∀ i ∈ s, -(∑ j ∈ s, w j) < c' i := by
  induction h with
  | nil => exact hlow
  | cons hstep _ ih =>
      exact ih (hstep.sum_eq.trans hsum) (hstep.lower hw hsum hW hlow)

/-- Nor does a member have more than the others together can owe. -/
theorem Rounds.upper (h : Rounds s w c bs c') (hw : ∀ i ∈ s, 0 ≤ w i)
    (hsum : ∑ i ∈ s, c i = 0) (hW : 0 < ∑ i ∈ s, w i)
    (hlow : ∀ i ∈ s, -(∑ j ∈ s, w j) < c i) (hi : i ∈ s) :
    c' i + ∑ j ∈ s, w j ≤ s.card * ∑ j ∈ s, w j := by
  have hlow' := h.lower hw hsum hW hlow
  have hall : ∑ k ∈ s, (c' k + ∑ j ∈ s, w j) = s.card * ∑ j ∈ s, w j := by
    rw [sum_add_distrib, h.sum_eq, hsum, sum_const, zero_add, nsmul_eq_mul]
  rw [← hall]
  exact single_le_sum (f := fun k => c' k + ∑ j ∈ s, w j) (fun k hk => by have := hlow' k hk; omega) hi

/-- Every pick of a run is a member. -/
theorem Rounds.mem (h : Rounds s w c bs c') : ∀ b ∈ bs, b ∈ s := by
  induction h with
  | nil => simp
  | cons hstep _ ih =>
      intro b hb
      rcases List.mem_cons.mp hb with rfl | hb
      · exact hstep.mem
      · exact ih b hb

/-- The balance of a member over a run: one weight in per round, one total out
per pick. -/
theorem Rounds.credit (h : Rounds s w c bs c') (hi : i ∈ s) :
    c' i = c i + bs.length * w i - bs.count i * ∑ j ∈ s, w j := by
  induction h with
  | nil => simp
  | @cons c b c₁ bs c₂ hstep _ ih =>
      rw [ih, hstep.credit i hi, List.length_cons, List.count_cons]
      by_cases hib : i = b
      · subst hib; simp; ring
      · have hbi : ¬ b = i := fun h => hib h.symm
        simp [hib, hbi]; ring

/-- Counting the picks of each member counts the rounds. -/
theorem sum_count_eq_length (bs : List ι) (hmem : ∀ b ∈ bs, b ∈ s) :
    ∑ i ∈ s, bs.count i = bs.length := by
  induction bs with
  | nil => simp
  | cons b bs ih =>
      have hb : b ∈ s := hmem b List.mem_cons_self
      have hbs := ih fun x hx => hmem x (List.mem_cons_of_mem b hx)
      simp only [List.count_cons, sum_add_distrib, hbs, List.length_cons]
      simp [hb]

/-- **Fairness over a period**: started without credits, a run of as many
rounds as the total weight picks each member as often as its weight says and
ends without credits. -/
theorem Rounds.fair (h : Rounds s w c bs c') (hc : ∀ i ∈ s, c i = 0)
    (hw : ∀ i ∈ s, 0 ≤ w i) (hW : 0 < ∑ i ∈ s, w i)
    (hlen : (bs.length : ℤ) = ∑ i ∈ s, w i) :
    ∀ i ∈ s, (bs.count i : ℤ) = w i ∧ c' i = 0 := by
  have hlow := h.lower hw (sum_eq_zero hc) hW fun i hi => by rw [hc i hi]; omega
  have hcredit : ∀ i ∈ s, c' i = (w i - bs.count i) * ∑ j ∈ s, w j := by
    intro i hi
    rw [h.credit hi, hlen, hc i hi]
    ring
  -- no debts: nobody was picked more often than its weight
  have hle : ∀ i ∈ s, (bs.count i : ℤ) ≤ w i := by
    intro i hi
    have hi' := hlow i hi
    rw [hcredit i hi] at hi'
    have hpos : 0 < (w i - bs.count i + 1) * ∑ j ∈ s, w j := by linarith
    have := pos_of_mul_pos_left hpos hW.le
    omega
  -- the picks add up to the weights, so nobody was picked less often either
  have hsum : ∑ i ∈ s, (bs.count i : ℤ) = ∑ i ∈ s, w i := by
    rw [← hlen, ← sum_count_eq_length bs h.mem]
    exact (Nat.cast_sum s _).symm
  have heq := (sum_eq_sum_iff_of_le hle).mp hsum
  intro i hi
  refine ⟨heq i hi, ?_⟩
  rw [hcredit i hi, heq i hi]
  ring

end Rotation
