import Mathlib.Algebra.Order.BigOperators.Group.List
import Mathlib.Algebra.BigOperators.Ring.List
import Mathlib.Tactic.Ring

/-!
# Lib.Shares

A pool is shared out in proportion to weights, every share rounded up.  The
shares are together more than the pool by their `excess`, which is less than
their number.
-/

namespace Shares

variable (pool : Int) (ws : List Int)

/-- `a / b`, rounded up. -/
def ceilDiv (a b : Int) : Int := -(-a / b)

/-- The shares of the pool. -/
def shares : List Int := ws.map fun w => ceilDiv (pool * w) ws.sum

/-- What the rounding adds, all in all. -/
def excess : Int := (ws.map fun w => -(pool * w) % ws.sum).sum / ws.sum

variable {ws}

theorem mul_ceilDiv (a b : Int) : b * ceilDiv a b = a + -a % b := by
  have hdiv := Int.mul_ediv_add_emod (-a) b
  rw [ceilDiv, Int.mul_neg]
  omega

/-- A share is at most `k` exactly if what is rounded up is. -/
theorem ceilDiv_le_iff {a b : Int} (hb : 0 < b) (k : Int) : ceilDiv a b ≤ k ↔ a ≤ k * b := by
  have hle := Int.le_ediv_iff_mul_le (a := -k) (b := -a) hb
  rw [Int.neg_mul] at hle
  rw [ceilDiv]
  omega

theorem ceilDiv_nonneg {a b : Int} (ha : 0 ≤ a) (hb : 0 < b) : 0 ≤ ceilDiv a b := by
  by_contra hneg
  have hle : a ≤ -1 * b := (ceilDiv_le_iff hb (-1)).mp (by omega)
  omega

/-- Division with remainder, summed over the weights. -/
theorem mul_sum_shares (W : Int) (ws : List Int) :
    W * (ws.map fun w => ceilDiv (pool * w) W).sum =
      pool * ws.sum + (ws.map fun w => -(pool * w) % W).sum := by
  induction ws with
  | nil => simp
  | cons w ws ih =>
      simp only [List.map_cons, List.sum_cons, Int.mul_add, ih, mul_ceilDiv]
      omega

/-- The shares are the pool and the excess. -/
theorem sum_shares (hpos : 0 < ws.sum) : (shares pool ws).sum = pool + excess pool ws := by
  have hsum := mul_sum_shares pool ws.sum ws
  have hdvd : (ws.map fun w => -(pool * w) % ws.sum).sum =
      ws.sum * ((shares pool ws).sum - pool) := by
    rw [shares, Int.mul_sub, hsum, Int.mul_comm ws.sum pool]
    omega
  rw [excess, hdvd, Int.mul_ediv_cancel_left _ (Int.ne_of_gt hpos)]
  omega

theorem excess_nonneg (hpos : 0 < ws.sum) : 0 ≤ excess pool ws := by
  refine Int.ediv_nonneg (List.sum_nonneg fun r hr => ?_) (Int.le_of_lt hpos)
  obtain ⟨w, -, rfl⟩ := List.mem_map.mp hr
  exact Int.emod_nonneg _ (Int.ne_of_gt hpos)

/-- The excess is less than the number of the shares. -/
theorem excess_lt (hpos : 0 < ws.sum) : excess pool ws < ws.length := by
  have hne : ws ≠ [] := by
    rintro rfl
    exact Int.lt_irrefl 0 hpos
  have hle : (ws.map fun w => -(pool * w) % ws.sum).sum ≤ ws.length * (ws.sum - 1) := by
    have hbound := List.sum_le_card_nsmul (ws.map fun w => -(pool * w) % ws.sum) (ws.sum - 1)
      fun r hr => by
        obtain ⟨w, -, rfl⟩ := List.mem_map.mp hr
        exact Int.le_sub_one_of_lt (Int.emod_lt_of_pos _ hpos)
    rw [List.length_map, nsmul_eq_mul] at hbound
    exact hbound
  have hlength : (0 : Int) < ws.length := Int.natCast_pos.mpr (List.length_pos_of_ne_nil hne)
  refine Int.ediv_lt_of_lt_mul hpos (Int.lt_of_le_of_lt hle ?_)
  exact Int.mul_lt_mul_of_pos_left (by omega) hlength

end Shares
