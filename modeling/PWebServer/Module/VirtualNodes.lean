import PWebServer.Lib.Shares
import PWebServer.Module.Ring

/-!
# Module.VirtualNodes

How many nodes a server has on the ring, and what their codes are made from.

The nodes are to be eight for each server that is up, shared out by the weights
and rounded up.
-/

namespace PWebServer

open Shares

/-- The weights of the servers that are up. -/
def ServerArr.weightsUp (now : BitVec 32) (d : ServerArr) : List Int :=
  (runningServers now d).map fun i => (d.upstreamServer i).weight

/-- `vnodes_of_server`, for server `i` -/
def vnodesOfServer (o : Outside) (d : ServerArr) (i : Nat) : Int :=
  o.pCeil (8 * (runningServers o.now d).length * (d.upstreamServer i).weight) (d.weightsUp o.now).sum

/-- `total_vnum` -/
def totalVnum (o : Outside) (d : ServerArr) : Int := ((runningServers o.now d).map (vnodesOfServer o d)).sum

/-- The `key` of node `j` of server `i`. -/
def vnodeKey (d : ServerArr) (i _j : Nat) : BitVec 32 :=
  hashKeyFunction (d.upstreamServer i).location.host + BitVec.ofNat 32 i

/-- The keys of the inner loop of `init_before_consistent_hash_get`, for server
`i`. -/
def vnodeKeys (o : Outside) (d : ServerArr) (i : Nat) : List (BitVec 32) :=
  (List.range (vnodesOfServer o d i).toNat).map (vnodeKey d i)

/-- The nodes that the loops of `init_before_consistent_hash_get` write. -/
def vnodesWritten (o : Outside) (d : ServerArr) : List Vnode :=
  ringNodes o d (8 * (runningServers o.now d).length) (d.weightsUp o.now).sum

section

variable {o : Outside} {d : ServerArr} {i : Nat}

theorem vnodeKeys_eq (o : Outside) (d : ServerArr) (i : Nat) :
    vnodeKeys o d i = List.replicate (vnodesOfServer o d i).toNat (vnodeKey d i 0) := by
  unfold vnodeKeys
  have hlength : (List.range (vnodesOfServer o d i).toNat).length = (vnodesOfServer o d i).toNat :=
    List.length_range
  conv_rhs => rw [← hlength]
  exact List.map_const' ..

/-- The nodes that are written come from these keys. -/
theorem vnodesWritten_eq (o : Outside) (d : ServerArr) :
    vnodesWritten o d = (runningServers o.now d).flatMap fun i =>
      (vnodeKeys o d i).map fun key => { hashcode := hashCodeOfIpInteger key, rnode := some i } := by
  simp only [vnodeKeys_eq, List.map_replicate]
  rfl

/-- So many nodes are written as are counted first. -/
theorem length_vnodesWritten (hpos : ∀ i ∈ runningServers o.now d, 0 ≤ vnodesOfServer o d i) :
    ((vnodesWritten o d).length : Int) = totalVnum o d := by
  have hlength : (vnodesWritten o d).length =
      ((runningServers o.now d).map fun i => (vnodesOfServer o d i).toNat).sum := by
    rw [vnodesWritten_eq, List.length_flatMap]
    simp only [vnodeKeys_eq, List.length_map, List.length_replicate]
  obtain ⟨hsum, hnonneg⟩ := sum_toNat hpos
  rw [hlength, ← hsum]
  exact Int.toNat_of_nonneg hnonneg

/-- Of the weights one is at least their average. -/
theorem exists_average_le {ws : List Int} (hne : ws ≠ []) : ∃ w ∈ ws, ws.sum ≤ ws.length * w := by
  by_contra hless
  push Not at hless
  have hsum : ∀ xs : List Int, (∀ x ∈ xs, ws.length * x < ws.sum) → xs ≠ [] →
      ws.length * xs.sum < xs.length * ws.sum := by
    intro xs hxs hne
    induction xs with
    | nil => exact absurd rfl hne
    | cons x xs ih =>
        have hx := hxs x List.mem_cons_self
        rw [List.sum_cons, List.length_cons, Int.mul_add, Int.natCast_succ, Int.add_mul]
        cases xs with
        | nil =>
            simp only [List.sum_nil, List.length_nil]
            omega
        | cons y ys =>
            have hrest := ih (fun z hz => hxs z (List.mem_cons_of_mem x hz)) (List.cons_ne_nil y ys)
            omega
  exact Int.lt_irrefl _ (hsum ws hless hne)

/-! ## the keys of one server -/

/-- The keys of a server differ exactly if it has not more than one node; and
where a server is up, there is one that has more, as the weights are positive and
`p_ceil` does not round down. -/
theorem vnodeKeys_nodup_iff :
    (∀ i ∈ runningServers o.now d, (vnodeKeys o d i).Nodup ↔
        o.pCeil (8 * (runningServers o.now d).length * (d.upstreamServer i).weight) (d.weightsUp o.now).sum ≤ 1) ∧
      ((∀ a b : Int, 0 < b → 2 * b ≤ a → 2 ≤ o.pCeil a b) →
        (∀ i ∈ runningServers o.now d, 0 < (d.upstreamServer i).weight) →
        ((∀ i ∈ runningServers o.now d, (vnodeKeys o d i).Nodup) ↔ runningServers o.now d = [])) := by
  have hone : ∀ i, (vnodeKeys o d i).Nodup ↔ vnodesOfServer o d i ≤ 1 := by
    intro i
    rw [vnodeKeys_eq, List.nodup_replicate]
    omega
  refine ⟨fun i _ => hone i, fun hceil hweights => ⟨fun hall => ?_, fun hnone i hi => ?_⟩⟩
  · by_contra hne
    have hws : d.weightsUp o.now ≠ [] := by
      unfold ServerArr.weightsUp
      exact fun hnil => hne (List.map_eq_nil_iff.mp hnil)
    obtain ⟨w, hw, hle⟩ := exists_average_le hws
    have hsum : 0 < (d.weightsUp o.now).sum := by
      refine List.sum_pos _ (fun w hw => ?_) hws
      obtain ⟨j, hj, rfl⟩ := List.mem_map.mp hw
      exact hweights j hj
    obtain ⟨i, hi, rfl⟩ := List.mem_map.mp hw
    have hlength : (d.weightsUp o.now).length = (runningServers o.now d).length := List.length_map _
    rw [hlength] at hle
    have htwo := hceil (8 * (runningServers o.now d).length * (d.upstreamServer i).weight) _ hsum
      (by rw [Int.mul_assoc]; omega)
    have hsmall := (hone i).mp (hall i hi)
    unfold vnodesOfServer at hsmall
    omega
  · rw [hnone] at hi
    exact absurd hi List.not_mem_nil

theorem sortingClient_two (a b : Int) (hb : 0 < b) (hle : 2 * b ≤ a) : 2 ≤ sortingClient.pCeil a b := by
  change 2 ≤ if b = 0 then 0 else (a + b - 1) / b
  rw [if_neg (by omega)]
  exact Int.le_ediv_of_mul_le hb (by omega)

/-- Two servers on one host, with weight 1: each has eight nodes. -/
theorem vnodeKeys_nodup_two :
    ¬ ∀ i ∈ runningServers sortingClient.now sameHost, (vnodeKeys sortingClient sameHost i).Nodup := by
  rw [vnodeKeys_nodup_iff.2 sortingClient_two fun i _ => Int.zero_lt_one]
  decide +kernel

/-- The eight keys of the first of them are the same. -/
theorem vnodeKeys_same :
    ∃ i ∈ runningServers sortingClient.now sameHost, (vnodeKeys sortingClient sameHost i).length = 8 ∧
      ¬ (vnodeKeys sortingClient sameHost i).Nodup := by
  refine ⟨0, ?_⟩
  decide +kernel

end

end PWebServer
