import PWebServer.Lib.Circle
import PWebServer.Module.ConsistentHash
import Mathlib.Data.List.GetD
import Mathlib.Data.List.Sort

/-!
# Module.Ring

What is on the ring, and whom a lookup finds there: from the code of the client
it goes on to the server whose code comes next.
-/

namespace PWebServer

open Circle

/-- What `p_ceil` makes of a positive quotient is positive. -/
def CeilsUp (pCeil : Int → Int → Int) : Prop := ∀ a b : Int, 0 < a → 0 < b → 0 < pCeil a b

/-- `qsort` brings the nodes into the order of their codes. -/
def Sorts (qsort : List Vnode → List Vnode) : Prop :=
  ∀ nodes, (qsort nodes).Perm nodes ∧ (qsort nodes).Pairwise fun v w => v.hashcode.toNat ≤ w.hashcode.toNat

/-- The code of the nodes of server `i`. -/
def ServerArr.code (d : ServerArr) (i : Nat) : BitVec 32 :=
  hashCodeOfIpInteger (hashKeyFunction (d.upstreamServer i).location.host + BitVec.ofNat 32 i)

/-- The nodes of server `i` are all the same. -/
def ServerArr.node (d : ServerArr) (i : Nat) : Vnode := { hashcode := d.code i, rnode := some i }

/-- The number of nodes of a ring. -/
def Ring.size (ring : Ring) : Nat := ring.vnodes.toNat

/-- The code of a node. -/
def Ring.code (ring : Ring) (k : Nat) : Nat := (ring.cycle k).hashcode.toNat

/-- The servers that own a node of the ring. -/
def Ring.owners (ring : Ring) : Set Nat := { i | ∃ k < ring.size, (ring.cycle k).rnode = some i }

/-- A ring with nodes of the servers in `up`. -/
structure Ring.BuiltFor (ring : Ring) (d : ServerArr) (up : List Nat) : Prop where
  sorted : ∀ j k, j ≤ k → k < ring.size → ring.code j ≤ ring.code k
  node : ∀ k < ring.size, ∃ i ∈ up, ring.cycle k = d.node i
  owned : ∀ i ∈ up, ∃ k < ring.size, ring.cycle k = d.node i

section

variable {o : Outside} {d : ServerArr} {up : List Nat} {ring : Ring} {hashcode : BitVec 32} {now : BitVec 32}

/-! ## how a ring is built -/

theorem mem_runningServers {i : Nat} :
    i ∈ runningServers now d ↔ i < d.nelts ∧ isServerDown now (d.upstreamServer i) = false := by
  rw [runningServers, List.mem_filter, List.mem_range, Bool.not_eq_true']

/-- A server that is up gets nodes. -/
theorem quotient_pos (hweights : ∀ i < d.nelts, 0 < (d.upstreamServer i).weight) {i : Nat}
    (hi : i ∈ runningServers now d) :
    0 < (8 * (runningServers now d).length : Int) * (d.upstreamServer i).weight ∧
      0 < ((runningServers now d).map fun i => (d.upstreamServer i).weight).sum := by
  have hweight : ∀ j ∈ runningServers now d, 0 < (d.upstreamServer j).weight := fun j hj =>
    hweights j (mem_runningServers.mp hj).1
  have hlength : 0 < (runningServers now d).length := List.length_pos_of_mem hi
  refine ⟨Int.mul_pos (by omega) (hweight i hi), List.sum_pos _ (fun w hw => ?_) ?_⟩
  · obtain ⟨j, hj, rfl⟩ := List.mem_map.mp hw
    exact hweight j hj
  · exact List.ne_nil_of_mem (List.mem_map_of_mem hi)

theorem overwrite_of_lt {xs : List Vnode} (old : Nat → Vnode) {k : Nat} (hk : k < xs.length) :
    overwrite xs old k = xs[k] := List.getD_eq_getElem xs (old k) hk

theorem map_overwrite (xs : List Vnode) (old : Nat → Vnode) :
    (List.range xs.length).map (overwrite xs old) = xs := by
  refine List.ext_getElem (by simp) fun k hk hk' => ?_
  rw [List.getElem_map, List.getElem_range]
  exact overwrite_of_lt old hk'

theorem sum_toNat {f : Nat → Int} (hf : ∀ i ∈ up, 0 ≤ f i) :
    (up.map f).sum.toNat = (up.map fun i => (f i).toNat).sum ∧ 0 ≤ (up.map f).sum := by
  induction up with
  | nil => exact ⟨rfl, le_refl 0⟩
  | cons i up ih =>
      obtain ⟨hsum, hpos⟩ := ih fun j hj => hf j (List.mem_cons_of_mem i hj)
      have hi := hf i List.mem_cons_self
      rw [List.map_cons, List.sum_cons, List.map_cons, List.sum_cons, Int.toNat_add hi hpos, hsum]
      exact ⟨rfl, Int.add_nonneg hi hpos⟩

/-- A ring has nodes of the servers that are up, and of no others. -/
theorem buildRing_builtFor (hceil : CeilsUp o.pCeil) (hsort : Sorts o.qsort)
    (hweights : ∀ i < d.nelts, 0 < (d.upstreamServer i).weight) (old : Nat → Vnode) :
    (buildRing o d old).BuiltFor d (runningServers o.now d) := by
  obtain ⟨up, hup⟩ : ∃ up, up = runningServers o.now d := ⟨_, rfl⟩
  obtain ⟨count, hcount⟩ : ∃ count : Nat → Int, count = fun i =>
      o.pCeil (8 * up.length * (d.upstreamServer i).weight) (up.map fun i => (d.upstreamServer i).weight).sum :=
    ⟨_, rfl⟩
  obtain ⟨nodes, hnodes⟩ : ∃ nodes, nodes = up.flatMap fun i => List.replicate (count i).toNat (d.node i) :=
    ⟨_, rfl⟩
  have hring : buildRing o d old =
      { cycle := overwrite (o.qsort ((List.range (up.map count).sum.toNat).map (overwrite nodes old)))
          (overwrite nodes old)
        vnodes := (up.map count).sum } := by
    subst hup hcount hnodes
    rfl
  have hpos : ∀ i ∈ up, 0 < count i := by
    intro i hi
    subst hup hcount
    exact hceil _ _ (quotient_pos hweights hi).1 (quotient_pos hweights hi).2
  have hlength : (up.map count).sum.toNat = nodes.length := by
    rw [hnodes, List.length_flatMap, (sum_toNat fun i hi => Int.le_of_lt (hpos i hi)).1]
    simp only [List.length_replicate]
  rw [← hup, hring, hlength, map_overwrite]
  obtain ⟨hperm, hsorted⟩ := hsort nodes
  have hsize : Ring.size { cycle := overwrite (o.qsort nodes) (overwrite nodes old)
                           vnodes := (up.map count).sum } = (o.qsort nodes).length := by
    rw [hperm.length_eq]
    exact hlength
  refine ⟨fun j k hjk hk => ?_, fun k hk => ?_, fun i hi => ?_⟩
  · rw [hsize] at hk
    unfold Ring.code
    dsimp only
    rw [overwrite_of_lt _ hk, overwrite_of_lt _ (Nat.lt_of_le_of_lt hjk hk)]
    cases Nat.lt_or_eq_of_le hjk with
    | inl hlt => exact List.pairwise_iff_getElem.mp hsorted j k _ hk hlt
    | inr heq => exact le_of_eq (by subst heq; rfl)
  · rw [hsize] at hk
    dsimp only
    rw [overwrite_of_lt _ hk]
    obtain ⟨v, hv⟩ : ∃ v, v = (o.qsort nodes)[k] := ⟨_, rfl⟩
    have hmem : v ∈ nodes := hperm.mem_iff.mp (hv ▸ List.getElem_mem hk)
    rw [← hv]
    rw [hnodes, List.mem_flatMap] at hmem
    obtain ⟨i, hi, hmem⟩ := hmem
    exact ⟨i, hi, (List.mem_replicate.mp hmem).2⟩
  · have hmem : d.node i ∈ o.qsort nodes := by
      rw [hperm.mem_iff, hnodes, List.mem_flatMap]
      refine ⟨i, hi, List.mem_replicate.mpr ⟨?_, rfl⟩⟩
      have := hpos i hi
      omega
    obtain ⟨k, hk, heq⟩ := List.mem_iff_getElem.mp hmem
    refine ⟨k, ?_, ?_⟩
    · rw [hsize]
      exact hk
    · dsimp only
      rw [overwrite_of_lt _ hk, heq]

/-! ## lookups -/

/-- The binary search: what is left of `left` is before the code, what is right
of `right` behind it, and the target is the node at `right`. -/
theorem hashSearch_cases {cycle : Nat → Vnode} {n left right : Nat} {target : Option Nat}
    (hsorted : ∀ j k, j ≤ k → k < n → (cycle j).hashcode.toNat ≤ (cycle k).hashcode.toNat)
    (hleft : left ≤ right) (hright : right ≤ n)
    (hbefore : ∀ k < left, (cycle k).hashcode.toNat < hashcode.toNat)
    (hbehind : ∀ k < n, right ≤ k → hashcode.toNat < (cycle k).hashcode.toNat)
    (htarget : right < n ∧ target = (cycle right).rnode ∨ right = n ∧ target = none) :
    (∃ k < n, hashSearch cycle hashcode left right target = (cycle k).rnode ∧
        hashcode.toNat ≤ (cycle k).hashcode.toNat ∧
        ∀ j < n, hashcode.toNat ≤ (cycle j).hashcode.toNat →
          (cycle k).hashcode.toNat ≤ (cycle j).hashcode.toNat) ∨
      hashSearch cycle hashcode left right target = none ∧
        ∀ k < n, (cycle k).hashcode.toNat < hashcode.toNat := by
  fun_induction hashSearch cycle hashcode left right target with
  | case1 left right target hlt mid ch hless ih =>
      have hmid : left ≤ mid ∧ mid < right := ⟨by omega, by omega⟩
      refine ih (by omega) hright (fun k hk => ?_) hbehind htarget
      exact Nat.lt_of_le_of_lt (hsorted k mid (by omega) (by omega)) (BitVec.lt_def.mp hless)
  | case2 left right target hlt mid ch hless hgreater ih =>
      have hmid : left ≤ mid ∧ mid < right := ⟨by omega, by omega⟩
      refine ih hmid.1 (by omega) hbefore (fun k hk hle => ?_) (.inl ⟨by omega, rfl⟩)
      exact Nat.lt_of_lt_of_le (BitVec.lt_def.mp hgreater) (hsorted mid k hle hk)
  | case3 left right target hlt mid ch hless hgreater =>
      rw [BitVec.lt_def] at hless hgreater
      refine .inl ⟨mid, by omega, rfl, not_lt.mp hless, fun j hj hle => ?_⟩
      exact Nat.le_trans (not_lt.mp hgreater) hle
  | case4 left right target hlt =>
      have hend : left = right := by omega
      subst hend
      obtain ⟨hlast, rfl⟩ | ⟨rfl, rfl⟩ := htarget
      · refine .inl ⟨left, hlast, rfl, Nat.le_of_lt (hbehind left hlast le_rfl), fun j hj hle => ?_⟩
        have hnot : ¬ j < left := fun hbefore' => absurd hle (Nat.not_le.mpr (hbefore j hbefore'))
        exact hsorted left j (not_lt.mp hnot) hj
      · exact .inr ⟨rfl, hbefore⟩

/-- The codes on the ring. -/
theorem Ring.BuiltFor.points (h : ring.BuiltFor d up) :
    pointsOf ring.code ring.size = { x | ∃ i ∈ up, (d.code i).toNat = x } := by
  ext x
  constructor
  · rintro ⟨k, hk, rfl⟩
    obtain ⟨i, hi, heq⟩ := h.node k hk
    exact ⟨i, hi, (congrArg (fun v => v.hashcode.toNat) heq).symm⟩
  · rintro ⟨i, hi, rfl⟩
    obtain ⟨k, hk, heq⟩ := h.owned i hi
    exact ⟨k, hk, congrArg (fun v => v.hashcode.toNat) heq⟩

/-- The node that is found, or else the first one, tells the server. -/
theorem getServerByConsistentHashOnce_eq {found : Option Nat} {i : Nat}
    (hsearch : hashSearch ring.cycle hashcode 0 ring.size none = found)
    (hfound : (if found = none then (ring.cycle 0).rnode else found) = some i) :
    getServerByConsistentHashOnce now d (some ring) hashcode =
      .ok (if isServerDown now (d.upstreamServer i) then none else some i) := by
  unfold Ring.size at hsearch
  unfold getServerByConsistentHashOnce
  simp only [deref_some, bind, Except.bind]
  rw [hsearch, hfound]
  rfl

/-- A lookup ends at the first node that is not before the code, or at the first
one of all. -/
theorem getServerByConsistentHashOnce_first {owner : Nat → Nat} (hsize : 0 < ring.size)
    (hsorted : ∀ j k, j ≤ k → k < ring.size → ring.code j ≤ ring.code k)
    (howner : ∀ k < ring.size, (ring.cycle k).rnode = some (owner k)) (now : BitVec 32) (d : ServerArr)
    (hashcode : BitVec 32) :
    ∃ k < ring.size,
      (hashcode.toNat ≤ ring.code k ∧
          (∀ j < ring.size, hashcode.toNat ≤ ring.code j → ring.code k ≤ ring.code j) ∨
        k = 0 ∧ ∀ j < ring.size, ring.code j < hashcode.toNat) ∧
      getServerByConsistentHashOnce now d (some ring) hashcode =
        .ok (if isServerDown now (d.upstreamServer (owner k)) then none else some (owner k)) := by
  have hsearch := @hashSearch_cases hashcode ring.cycle ring.size 0 ring.size none hsorted
    (Nat.zero_le ring.size) le_rfl (fun k hk => absurd hk (Nat.not_lt_zero k))
    (fun k hk hle => absurd hk (not_lt.mpr hle)) (.inr ⟨rfl, rfl⟩)
  cases hsearch with
  | inl hahead =>
      obtain ⟨k, hk, hfound, hle, hleast⟩ := hahead
      refine ⟨k, hk, .inl ⟨hle, hleast⟩, getServerByConsistentHashOnce_eq hfound ?_⟩
      rw [howner k hk]
      rfl
  | inr hbehind =>
      obtain ⟨hfound, hbehind⟩ := hbehind
      refine ⟨0, hsize, .inr ⟨rfl, hbehind⟩, getServerByConsistentHashOnce_eq hfound ?_⟩
      rw [if_pos rfl]
      exact howner 0 hsize

/-- Three nodes, two of which have one code. -/
def threeNodes : Ring where
  cycle := fun k => { hashcode := if k < 2 then 5 else 9, rnode := some k }
  vnodes := 3

/-- A lookup between the two codes. -/
theorem getServerByConsistentHashOnce_three :
    ∃ k < 3, 6 ≤ threeNodes.code k ∧ getServerByConsistentHashOnce 0 .zeros (some threeNodes) 6 = .ok (some k) := by
  have hsorted : ∀ k < 3, ∀ j ≤ k, threeNodes.code j ≤ threeNodes.code k := by decide
  obtain ⟨k, hk, hfirst, hlookup⟩ := @getServerByConsistentHashOnce_first threeNodes id (by decide)
    (fun j k hjk hk => hsorted k hk j hjk) (fun k _ => rfl) 0 .zeros 6
  cases hfirst with
  | inl hahead => exact ⟨k, hk, hahead.1, hlookup⟩
  | inr hbehind => exact absurd (hbehind.2 2 (by decide)) (by decide)

/-- A lookup finds the server whose code comes next on the circle. -/
theorem Ring.BuiltFor.lookup (h : ring.BuiltFor d up) (hup : up ≠ []) (d' : ServerArr)
    (hashcode now : BitVec 32) :
    ∃ i ∈ up, Successor { x | ∃ i ∈ up, (d.code i).toNat = x } hashcode.toNat (d.code i).toNat ∧
      getServerByConsistentHashOnce now d' (some ring) hashcode =
        .ok (if isServerDown now (d'.upstreamServer i) then none else some i) := by
  obtain ⟨i₀, hi₀⟩ := List.exists_mem_of_ne_nil up hup
  obtain ⟨k₀, hk₀, -⟩ := h.owned i₀ hi₀
  have hsize : 0 < ring.size := Nat.zero_lt_of_lt hk₀
  have hsearch := @hashSearch_cases hashcode ring.cycle ring.size 0 ring.size none h.sorted
    (Nat.zero_le ring.size) le_rfl (fun k hk => absurd hk (Nat.not_lt_zero k))
    (fun k hk hle => absurd hk (not_lt.mpr hle)) (.inr ⟨rfl, rfl⟩)
  rw [← h.points]
  cases hsearch with
  | inl hahead =>
      obtain ⟨k, hk, hfound, hle, hleast⟩ := hahead
      obtain ⟨i, hi, heq⟩ := h.node k hk
      refine ⟨i, hi, ?_, ?_⟩
      · have hnext : Successor (pointsOf ring.code ring.size) hashcode.toNat (ring.code k) :=
          successor_of_first hk hle hleast
        rw [Ring.code, heq] at hnext
        exact hnext
      · rw [heq] at hfound
        exact getServerByConsistentHashOnce_eq hfound rfl
  | inr hbehind =>
      obtain ⟨hfound, hbehind⟩ := hbehind
      obtain ⟨i, hi, heq⟩ := h.node 0 hsize
      refine ⟨i, hi, ?_, ?_⟩
      · have hnext : Successor (pointsOf ring.code ring.size) hashcode.toNat (ring.code 0) :=
          successor_of_behind hsize h.sorted hbehind
        rw [Ring.code, heq] at hnext
        exact hnext
      · refine getServerByConsistentHashOnce_eq hfound ?_
        rw [if_pos rfl, heq]
        rfl

/-! ## a server leaves -/

/-- The same servers, whatever has become of them. -/
structure ServerArr.SameServers (d d' : ServerArr) : Prop where
  nelts : d'.nelts = d.nelts
  weight : ∀ i < d.nelts, (d'.upstreamServer i).weight = (d.upstreamServer i).weight
  location : ∀ i < d.nelts, (d'.upstreamServer i).location = (d.upstreamServer i).location

theorem ServerArr.SameServers.code {d' : ServerArr} (h : d.SameServers d') {i : Nat} (hi : i < d.nelts) :
    d'.code i = d.code i := by
  unfold ServerArr.code
  rw [h.location i hi]

/-- A lookup on the ring of the servers that are up finds one of them. -/
theorem buildRing_lookup (hceil : CeilsUp o.pCeil) (hsort : Sorts o.qsort)
    (hweights : ∀ i < d.nelts, 0 < (d.upstreamServer i).weight) (hup : runningServers o.now d ≠ [])
    (old : Nat → Vnode) (hashcode : BitVec 32) :
    ∃ i ∈ runningServers o.now d,
      Successor { x | ∃ i ∈ runningServers o.now d, (d.code i).toNat = x } hashcode.toNat (d.code i).toNat ∧
        getServerByConsistentHashOnce o.now d (some (buildRing o d old)) hashcode = .ok (some i) := by
  obtain ⟨i, hi, hnext, hlookup⟩ :=
    (buildRing_builtFor hceil hsort hweights old).lookup hup d hashcode o.now
  refine ⟨i, hi, hnext, ?_⟩
  rw [hlookup, (mem_runningServers.mp hi).2]
  rfl

end

/-- **Minimal disruption**: of two rings of the same servers, the one built when
all that are in the other but `s` were up, a lookup that does not find `s` on the
larger one finds the same server on both. -/
theorem consistentHash_minimal {o o' : Outside} {d d' : ServerArr} {s : Nat} (old old' : Nat → Vnode)
    (hashcode : BitVec 32) (hceil : CeilsUp o.pCeil) (hceil' : CeilsUp o'.pCeil) (hsort : Sorts o.qsort) (hsort' : Sorts o'.qsort)
    (hweights : ∀ i < d.nelts, 0 < (d.upstreamServer i).weight) (hsame : d.SameServers d')
    (hdistinct : ∀ i ∈ runningServers o.now d, ∀ j ∈ runningServers o.now d, d.code i = d.code j → i = j)
    (hothers : ∃ i ∈ runningServers o.now d, i ≠ s)
    (hleaves : ∀ i, i ∈ runningServers o'.now d' ↔ i ∈ runningServers o.now d ∧ i ≠ s)
    (hother : getServerByConsistentHashOnce o.now d (some (buildRing o d old)) hashcode ≠ .ok (some s)) :
    getServerByConsistentHashOnce o'.now d' (some (buildRing o' d' old')) hashcode =
      getServerByConsistentHashOnce o.now d (some (buildRing o d old)) hashcode := by
  obtain ⟨i₀, hi₀, hne₀⟩ := hothers
  have hbound : ∀ i ∈ runningServers o.now d, i < d.nelts := fun i hi => (mem_runningServers.mp hi).1
  have hweights' : ∀ i < d'.nelts, 0 < (d'.upstreamServer i).weight := by
    intro i hi
    rw [hsame.nelts] at hi
    rw [hsame.weight i hi]
    exact hweights i hi
  obtain ⟨i, hi, hnext, hlookup⟩ :=
    buildRing_lookup hceil hsort hweights (List.ne_nil_of_mem hi₀) old hashcode
  obtain ⟨i', hi', hnext', hlookup'⟩ :=
    buildRing_lookup hceil' hsort' hweights' (List.ne_nil_of_mem ((hleaves i₀).mpr ⟨hi₀, hne₀⟩)) old' hashcode
  have hne : i ≠ s := by
    rintro rfl
    exact hother hlookup
  obtain ⟨hold, hne'⟩ := (hleaves i').mp hi'
  have hcode : ∀ j ∈ runningServers o'.now d', d'.code j = d.code j := fun j hj =>
    hsame.code (hbound j ((hleaves j).mp hj).1)
  have hstays : Successor { x | ∃ j ∈ runningServers o'.now d', (d'.code j).toNat = x } hashcode.toNat
      (d.code i).toNat := by
    refine hnext.of_subset ?_ ⟨i, (hleaves i).mpr ⟨hi, hne⟩, ?_⟩
    · rintro x ⟨j, hj, rfl⟩
      exact ⟨j, ((hleaves j).mp hj).1, by rw [hcode j hj]⟩
    · rw [hcode i ((hleaves i).mpr ⟨hi, hne⟩)]
  have hsameCode : d.code i' = d.code i := by
    rw [← hcode i' hi']
    exact BitVec.eq_of_toNat_eq (hnext'.unique hstays)
  rw [hlookup, hlookup', hdistinct i' hold i hi hsameCode]

/-- A server has just failed three times. -/
def ServerArr.without (d : ServerArr) (s : Nat) : ServerArr :=
  { d with upstreamServer := Function.update d.upstreamServer s { d.upstreamServer s with fails := 3 } }

theorem ServerArr.sameServers_without (d : ServerArr) (s : Nat) : d.SameServers (d.without s) := by
  refine ⟨rfl, fun i _ => ?_, fun i _ => ?_⟩
  · unfold ServerArr.without
    dsimp only
    by_cases hi : i = s
    · rw [hi, Function.update_self]
    · rw [Function.update_of_ne hi]
  · unfold ServerArr.without
    dsimp only
    by_cases hi : i = s
    · rw [hi, Function.update_self]
    · rw [Function.update_of_ne hi]

/-- A domain with two servers on one host. -/
def sameHost : ServerArr :=
  upstreamProcessInit .consistentHash [98] 2
    (fun _ => { host := [49, 50, 55, 46, 48, 46, 48, 46, 49], port := 8080 }) .zeros

/-- A client whose `qsort` does sort. -/
def sortingClient : Outside :=
  { localClient with qsort := List.insertionSort fun v w => v.hashcode.toNat ≤ w.hashcode.toNat }

theorem sortingClient_ceilsUp : CeilsUp sortingClient.pCeil := by
  intro a b ha hb
  change 0 < if b = 0 then 0 else (a + b - 1) / b
  rw [if_neg (by omega)]
  exact Int.le_ediv_of_mul_le hb (by omega)

theorem sortingClient_sorts : Sorts sortingClient.qsort := by
  intro nodes
  have : Std.Total fun v w : Vnode => v.hashcode.toNat ≤ w.hashcode.toNat := ⟨fun _ _ => Nat.le_total _ _⟩
  have : IsTrans Vnode fun v w => v.hashcode.toNat ≤ w.hashcode.toNat := ⟨fun _ _ _ => Nat.le_trans⟩
  exact ⟨List.perm_insertionSort _ nodes, List.pairwise_insertionSort _ nodes⟩

/-- What a client finds while the servers of `d` are as they are. -/
def sameHostLookup (d : ServerArr) : Except Fault (Option Nat) :=
  getServerByConsistentHashOnce sortingClient.now d (some (buildRing sortingClient d fun _ => {})) 0x0100007f

/-- One of the two servers is not the one that is found, and may leave. -/
theorem consistentHash_minimal_two :
    ∃ s < 2, sameHostLookup (sameHost.without s) = sameHostLookup sameHost := by
  have hrunning : runningServers sortingClient.now sameHost = [0, 1] := by decide +kernel
  have hleaves : ∀ s < 2, sameHostLookup sameHost ≠ .ok (some s) →
      sameHostLookup (sameHost.without s) = sameHostLookup sameHost := by
    intro s hs hother
    refine consistentHash_minimal _ _ _ sortingClient_ceilsUp sortingClient_ceilsUp sortingClient_sorts
      sortingClient_sorts (fun i _ => Int.zero_lt_one) (sameHost.sameServers_without s) (by decide +kernel) ?_ ?_
      hother
    · refine ⟨1 - s, ?_, by omega⟩
      rw [hrunning, List.mem_pair]
      omega
    · have hwithout : runningServers sortingClient.now (sameHost.without s) = [1 - s] := by
        have hcases : s = 0 ∨ s = 1 := by omega
        cases hcases with
        | inl hzero => subst hzero; decide +kernel
        | inr hone => subst hone; decide +kernel
      intro i
      rw [hwithout, hrunning, List.mem_pair, List.mem_singleton]
      omega
  by_cases hfirst : sameHostLookup sameHost = .ok (some 0)
  · exact ⟨1, by decide, hleaves 1 (by decide) (by rw [hfirst]; simp)⟩
  · exact ⟨0, by decide, hleaves 0 (by decide) hfirst⟩

end PWebServer
