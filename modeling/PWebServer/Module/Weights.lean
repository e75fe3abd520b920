import Mathlib.Algebra.BigOperators.Intervals
import Mathlib.Logic.Relation
import PWebServer.Lib.Rotation
import PWebServer.Module.Upstream

/-!
# Module.Weights

What the weights of the balancer do over runs of selections and releases.

* `RoundSpec` — the loop of `get_server_by_round_once` credits the eligible
  servers and ends with the first one of most credit;
* `Balanced` — the current weights add up to zero and the effective weights
  stay between zero and the configured ones, whatever is selected or released;
* `Steady.round` — without failures a selection is a round of the rotation of
  `Lib.Rotation`, which makes a whole period fair.
-/

namespace PWebServer

open Function Finset

/-! ## the loop of a selection -/

/-- The servers a selection adds up: neither marked in the bitmap nor down. -/
def eligible (tried : Nat → BitVec 64) (now : BitVec 32) (servers : Nat → UpstreamServer)
    (i : Nat) : Prop :=
  tried (i / 64) &&& bitMask i = 0#64 ∧ isServerDown now (servers i) = false

instance : Decidable (eligible tried now servers i) :=
  inferInstanceAs (Decidable (_ ∧ _))

/-- What the loop of `get_server_by_round_once` has done after `k` servers. -/
structure RoundSpec (tried : Nat → BitVec 64) (now : BitVec 32) (servers : Nat → UpstreamServer)
    (k : Nat) (st : RoundScan) : Prop where
  credited : ∀ i, st.servers i =
    if i < k ∧ eligible tried now servers i then (servers i).credit else servers i
  total : st.total =
    ∑ i ∈ range k, if eligible tried now servers i then (servers i).effectiveWeight else 0
  best_none : st.best = none → ∀ i < k, ¬ eligible tried now servers i
  best_some : ∀ b, st.best = some b → b < k ∧ eligible tried now servers b ∧
    (∀ i < k, eligible tried now servers i →
      (servers i).credit.currentWeight ≤ (servers b).credit.currentWeight) ∧
    ∀ i < b, eligible tried now servers i →
      (servers i).credit.currentWeight < (servers b).credit.currentWeight
  mark : 0 < k → st.n = (k - 1) / 64 ∧ st.m = bitMask (k - 1)

theorem roundLoop_succ (tried : Nat → BitVec 64) (now : BitVec 32)
    (servers : Nat → UpstreamServer) (k : Nat) :
    roundLoop tried now servers (k + 1) =
      roundBody tried now (roundLoop tried now servers k) k := by
  simp [roundLoop, List.range_succ]

/-- The body passes over a server that is not eligible. -/
theorem roundBody_skip (st : RoundScan) (hst : st.servers i = servers i)
    (h : ¬ eligible tried now servers i) :
    roundBody tried now st i = { st with n := i / 64, m := bitMask i } := by
  unfold roundBody
  by_cases ht : tried (i / 64) &&& bitMask i = 0#64
  · have hd : isServerDown now (servers i) = true := by
      by_contra hd
      exact h ⟨ht, by simpa using hd⟩
    simp [ht, hst, hd]
  · simp [ht]

/-- The body credits an eligible server and compares it with the best so far. -/
theorem roundBody_take (st : RoundScan) (hst : st.servers i = servers i)
    (h : eligible tried now servers i) :
    roundBody tried now st i =
      { st with
        n := i / 64
        m := bitMask i
        servers := update st.servers i (servers i).credit
        total := st.total + (servers i).effectiveWeight
        best := match st.best with
          | none => some i
          | some b =>
              if (st.servers b).currentWeight < (servers i).credit.currentWeight then some i
              else some b } := by
  obtain ⟨ht, hd⟩ := h
  simp only [roundBody, ht, hst, hd]
  rfl

/-- The loop meets its specification. -/
theorem roundLoop_spec (tried : Nat → BitVec 64) (now : BitVec 32)
    (servers : Nat → UpstreamServer) (k : Nat) :
    RoundSpec tried now servers k (roundLoop tried now servers k) := by
  induction k with
  | zero => constructor <;> simp [roundLoop]
  | succ k ih =>
      rw [roundLoop_succ]
      have hk : (roundLoop tried now servers k).servers k = servers k := by
        rw [ih.credited, if_neg (by omega)]
      by_cases he : eligible tried now servers k
      · rw [roundBody_take _ hk he]
        refine ⟨?_, ?_, ?_, ?_, ?_⟩
        · intro i
          by_cases hik : i = k
          · subst hik; simp [he]
          · have hlt : i < k + 1 ↔ i < k := by omega
            simp [hik, ih.credited, hlt]
        · rw [sum_range_succ, if_pos he, ih.total]
        · intro hbest
          dsimp only at hbest
          split at hbest
          · simp at hbest
          · split at hbest <;> simp at hbest
        · intro b hbest
          dsimp only at hbest
          split at hbest
          · next hnone =>
              obtain rfl : k = b := by simpa using hbest
              have hno := ih.best_none hnone
              refine ⟨by omega, he, fun i hi hei => ?_, fun i hi hei => absurd hei (hno i hi)⟩
              rcases Nat.lt_succ_iff_lt_or_eq.mp hi with hi | rfl
              · exact absurd hei (hno i hi)
              · exact le_rfl
          · next b₀ hsome =>
              obtain ⟨hb₀, heb₀, hmax, hfirst⟩ := ih.best_some b₀ hsome
              have hs₀ : (roundLoop tried now servers k).servers b₀ = (servers b₀).credit := by
                rw [ih.credited, if_pos ⟨hb₀, heb₀⟩]
              rw [hs₀] at hbest
              split at hbest
              · next hlt =>
                  obtain rfl : k = b := by simpa using hbest
                  refine ⟨by omega, he, fun i hi hei => ?_,
                    fun i hi hei => (hmax i hi hei).trans_lt hlt⟩
                  rcases Nat.lt_succ_iff_lt_or_eq.mp hi with hi | rfl
                  · exact ((hmax i hi hei).trans_lt hlt).le
                  · exact le_rfl
              · next hge =>
                  obtain rfl : b₀ = b := by simpa using hbest
                  refine ⟨by omega, heb₀, fun i hi hei => ?_, hfirst⟩
                  rcases Nat.lt_succ_iff_lt_or_eq.mp hi with hi | rfl
                  · exact hmax i hi hei
                  · exact not_lt.mp hge
        · intro _
          simp
      · rw [roundBody_skip _ hk he]
        refine ⟨?_, ?_, ?_, ?_, ?_⟩
        · intro i
          by_cases hik : i = k
          · subst hik; simp [he, hk]
          · have hlt : i < k + 1 ↔ i < k := by omega
            simp [ih.credited, hlt]
        · rw [sum_range_succ, if_neg he, add_zero, ih.total]
        · intro hbest i hi
          rcases Nat.lt_succ_iff_lt_or_eq.mp hi with hi | rfl
          · exact ih.best_none hbest i hi
          · exact he
        · intro b hbest
          obtain ⟨hb, heb, hmax, hfirst⟩ := ih.best_some b hbest
          refine ⟨by omega, heb, fun i hi hei => ?_, hfirst⟩
          rcases Nat.lt_succ_iff_lt_or_eq.mp hi with hi | rfl
          · exact hmax i hi hei
          · exact absurd hei he
        · intro _
          simp

/-! ## one selection -/

namespace ServerArr

/-- The servers of `d` that a selection at `now` adds up. -/
def Eligible (now : BitVec 32) (d : ServerArr) (i : Nat) : Prop :=
  i < d.nelts ∧ eligible d.tried now d.upstreamServer i

instance : Decidable (Eligible now d i) := inferInstanceAs (Decidable (_ ∧ _))

/-- The total a selection at `now` adds up. -/
def total (now : BitVec 32) (d : ServerArr) : Int :=
  ∑ i ∈ range d.nelts, if d.Eligible now i then (d.upstreamServer i).effectiveWeight else 0

/-- `b` is the first eligible server of most credit. -/
structure IsBest (now : BitVec 32) (d : ServerArr) (b : Nat) : Prop where
  eligible : d.Eligible now b
  most : ∀ i, d.Eligible now i →
    (d.upstreamServer i).credit.currentWeight ≤ (d.upstreamServer b).credit.currentWeight
  first : ∀ i < b, d.Eligible now i →
    (d.upstreamServer i).credit.currentWeight < (d.upstreamServer b).credit.currentWeight

/-- The domain after a selection of `b`: the eligible servers credited, `b`
charged, and the mark of the last server of the array set. -/
def picked (now : BitVec 32) (d : ServerArr) (b : Nat) : ServerArr :=
  { d with
    upstreamServer := fun i =>
      let s := if d.Eligible now i then (d.upstreamServer i).credit else d.upstreamServer i
      if i = b then { s with currentWeight := s.currentWeight - d.total now } else s
    tried := update d.tried ((d.nelts - 1) / 64)
      (d.tried ((d.nelts - 1) / 64) ||| bitMask (d.nelts - 1)) }

end ServerArr

/-- **A selection**: without eligible servers it returns `NULL` and leaves the
domain alone, else it returns the first eligible server of most credit. -/
theorem getServerByRoundOnce_cases (now : BitVec 32) (d : ServerArr) :
    (getServerByRoundOnce now d = (none, d) ∧ ∀ i, ¬ d.Eligible now i) ∨
    ∃ b, d.IsBest now b ∧ getServerByRoundOnce now d = (some b, d.picked now b) := by
  have hspec := roundLoop_spec d.tried now d.upstreamServer d.nelts
  have htotal : (roundLoop d.tried now d.upstreamServer d.nelts).total = d.total now := by
    rw [hspec.total]
    refine sum_congr rfl fun i hi => ?_
    simp [ServerArr.Eligible, mem_range.mp hi]
  have hservers : ∀ i, (roundLoop d.tried now d.upstreamServer d.nelts).servers i =
      if d.Eligible now i then (d.upstreamServer i).credit else d.upstreamServer i := by
    intro i
    rw [hspec.credited i]
    exact if_congr Iff.rfl rfl rfl
  cases hbest : (roundLoop d.tried now d.upstreamServer d.nelts).best with
  | none =>
      have hno := hspec.best_none hbest
      refine .inl ⟨?_, fun i hi => hno i hi.1 hi.2⟩
      have hsame : (roundLoop d.tried now d.upstreamServer d.nelts).servers =
          d.upstreamServer := by
        funext i
        rw [hservers, if_neg fun hi => hno i hi.1 hi.2]
      simp [getServerByRoundOnce, hbest, hsame]
  | some b =>
      obtain ⟨hb, heb, hmax, hfirst⟩ := hspec.best_some b hbest
      obtain ⟨hn, hm⟩ := hspec.mark (by omega)
      refine .inr ⟨b, ⟨⟨hb, heb⟩, fun i hi => hmax i hi.1 hi.2,
        fun i hi hei => hfirst i hi hei.2⟩, ?_⟩
      simp only [getServerByRoundOnce, hbest, ServerArr.picked, hn, hm, htotal]
      congr 2
      funext i
      by_cases hib : i = b
      · subst hib; simp [hservers]
      · simp [hservers, hib]

/-! ## the weights over runs -/

/-- A server as `upstream_process_init` leaves it. -/
structure Fresh (s : UpstreamServer) : Prop where
  currentWeight : s.currentWeight = 0
  effectiveWeight : s.effectiveWeight = s.weight
  weight : 0 ≤ s.weight
  fails : s.fails = 0
  maxFails : 0 ≤ s.maxFails

/-- `upstream_process_init` leaves fresh servers wherever the configured
weights are not negative. -/
theorem fresh_upstreamProcessInit (lb : LoadBalance) (name : List UInt8) (nelts : Nat)
    (loc : Nat → Location) (garbage : ServerArr) (j : Nat) (h : 0 ≤ (loc j).weight) :
    Fresh ((upstreamProcessInit lb name nelts loc garbage).upstreamServer j) := by
  refine ⟨rfl, rfl, h, rfl, ?_⟩
  cases lb <;> simp [upstreamProcessInit, upstreamServerInit]

/-- What happens to the servers of a domain: selections with any bitmap and any
clock, releases with any outcome, the reset of `init_before_round`, and any
rewriting of the failures, which takes servers down and up again. -/
inductive BalancerStep : ServerArr → ServerArr → Prop
  | select (tried : Nat → BitVec 64) (now : BitVec 32) :
      BalancerStep d (getServerByRoundOnce now { d with tried := tried }).2
  | free (now : BitVec 32) (outcome : ConnState) (i : Nat) :
      BalancerStep d { d with
        upstreamServer := update d.upstreamServer i
          (freeServerAfterRoundSelect now { d.upstreamServer i with state := outcome }) }
  | reset (now : BitVec 32) : BalancerStep d (resetServers now d)
  | outage (fails : Nat → Int) (lastFailed : Nat → BitVec 32) :
      BalancerStep d { d with
        upstreamServer := fun i =>
          { d.upstreamServer i with fails := fails i, lastFailed := lastFailed i } }

/-- The weights of a domain are balanced: the current ones add up to zero, the
effective ones lie between zero and the configured ones. -/
structure Balanced (d : ServerArr) : Prop where
  sum : ∑ i ∈ range d.nelts, (d.upstreamServer i).currentWeight = 0
  nonneg : ∀ i < d.nelts, 0 ≤ (d.upstreamServer i).effectiveWeight
  le_weight : ∀ i < d.nelts,
    (d.upstreamServer i).effectiveWeight ≤ (d.upstreamServer i).weight
  maxFails : ∀ i < d.nelts, 0 ≤ (d.upstreamServer i).maxFails

theorem balanced_of_fresh {d : ServerArr} (h : ∀ i < d.nelts, Fresh (d.upstreamServer i)) :
    Balanced d where
  sum := sum_eq_zero fun i hi => (h i (mem_range.mp hi)).currentWeight
  nonneg := fun i hi => (h i hi).effectiveWeight ▸ (h i hi).weight
  le_weight := fun i hi => (h i hi).effectiveWeight.le
  maxFails := fun i hi => (h i hi).maxFails

/-- Balance speaks of three fields of each server only. -/
theorem Balanced.congr {d d' : ServerArr} (h : Balanced d) (hn : d'.nelts = d.nelts)
    (hs : ∀ i < d.nelts,
      (d'.upstreamServer i).currentWeight = (d.upstreamServer i).currentWeight ∧
      (d'.upstreamServer i).effectiveWeight = (d.upstreamServer i).effectiveWeight ∧
      (d'.upstreamServer i).weight = (d.upstreamServer i).weight ∧
      (d'.upstreamServer i).maxFails = (d.upstreamServer i).maxFails) : Balanced d' where
  sum := by
    rw [hn, ← h.sum]
    exact sum_congr rfl fun i hi => (hs i (mem_range.mp hi)).1
  nonneg := fun i hi => by
    rw [hn] at hi; rw [(hs i hi).2.1]; exact h.nonneg i hi
  le_weight := fun i hi => by
    rw [hn] at hi; rw [(hs i hi).2.1, (hs i hi).2.2.1]; exact h.le_weight i hi
  maxFails := fun i hi => by
    rw [hn] at hi; rw [(hs i hi).2.2.2]; exact h.maxFails i hi

/-- What a selection of `b` does to a current weight. -/
theorem picked_currentWeight (now : BitVec 32) (d : ServerArr) (b i : Nat) :
    ((d.picked now b).upstreamServer i).currentWeight =
      (d.upstreamServer i).currentWeight +
        (if d.Eligible now i then (d.upstreamServer i).effectiveWeight else 0) -
        if i = b then d.total now else 0 := by
  simp only [ServerArr.picked]
  rcases eq_or_ne i b with rfl | hb
  · by_cases he : d.Eligible now i <;> simp [he, UpstreamServer.credit]
  · by_cases he : d.Eligible now i <;> simp [he, hb, UpstreamServer.credit]

/-- What a selection does to an effective weight: an eligible server below its
configured weight recovers by one. -/
theorem picked_effectiveWeight (now : BitVec 32) (d : ServerArr) (b i : Nat) :
    ((d.picked now b).upstreamServer i).effectiveWeight =
      if d.Eligible now i ∧ (d.upstreamServer i).effectiveWeight < (d.upstreamServer i).weight
      then (d.upstreamServer i).effectiveWeight + 1
      else (d.upstreamServer i).effectiveWeight := by
  simp only [ServerArr.picked]
  rcases eq_or_ne i b with rfl | hb
  · by_cases he : d.Eligible now i <;> simp [he, UpstreamServer.credit]
  · by_cases he : d.Eligible now i <;> simp [he, hb, UpstreamServer.credit]

/-- A selection touches the weights of a server only. -/
theorem picked_frame (now : BitVec 32) (d : ServerArr) (b i : Nat) :
    ((d.picked now b).upstreamServer i).weight = (d.upstreamServer i).weight ∧
    ((d.picked now b).upstreamServer i).maxFails = (d.upstreamServer i).maxFails ∧
    ((d.picked now b).upstreamServer i).fails = (d.upstreamServer i).fails := by
  simp only [ServerArr.picked]
  rcases eq_or_ne i b with rfl | hb
  · by_cases he : d.Eligible now i <;> simp [he, UpstreamServer.credit]
  · by_cases he : d.Eligible now i <;> simp [he, hb, UpstreamServer.credit]

/-- The total is accumulated before a server recovers, so what the selected
one pays back is exactly what the eligible ones were credited. -/
theorem Balanced.picked {d : ServerArr} (h : Balanced d) (hb : b < d.nelts) :
    Balanced (d.picked now b) where
  sum := by
    change ∑ i ∈ range d.nelts, _ = 0
    rw [sum_congr rfl fun i _ => picked_currentWeight now d b i, sum_sub_distrib,
      sum_add_distrib, h.sum, sum_ite_eq' (range d.nelts) b, if_pos (mem_range.mpr hb)]
    simp [ServerArr.total]
  nonneg := fun i hi => by
    have := h.nonneg i hi
    rw [picked_effectiveWeight]
    split <;> omega
  le_weight := fun i hi => by
    have := h.le_weight i hi
    rw [picked_effectiveWeight, (picked_frame now d b i).1]
    split <;> omega
  maxFails := fun i hi => by
    rw [(picked_frame now d b i).2.1]
    exact h.maxFails i hi

/-- A release leaves the effective weight between zero and the configured one. -/
theorem free_effectiveWeight (now : BitVec 32) (s : UpstreamServer)
    (h0 : 0 ≤ s.effectiveWeight) (hw : s.effectiveWeight ≤ s.weight) (hm : 0 ≤ s.maxFails) :
    0 ≤ (freeServerAfterRoundSelect now s).effectiveWeight ∧
      (freeServerAfterRoundSelect now s).effectiveWeight ≤ s.weight := by
  have hdiv : 0 ≤ s.weight.tdiv s.maxFails := Int.tdiv_nonneg (h0.trans hw) hm
  unfold freeServerAfterRoundSelect
  split
  · dsimp only
    split <;> split <;> omega
  · split <;> exact ⟨h0, hw⟩

/-- A release leaves the other weights and the limit of failures alone. -/
theorem free_frame (now : BitVec 32) (s : UpstreamServer) :
    (freeServerAfterRoundSelect now s).currentWeight = s.currentWeight ∧
    (freeServerAfterRoundSelect now s).weight = s.weight ∧
    (freeServerAfterRoundSelect now s).maxFails = s.maxFails := by
  unfold freeServerAfterRoundSelect
  split
  · exact ⟨rfl, rfl, rfl⟩
  · split <;> exact ⟨rfl, rfl, rfl⟩

/-- Balance survives a server whose effective weight stays in its range. -/
theorem Balanced.update {d : ServerArr} (h : Balanced d) (j : Nat) (s : UpstreamServer)
    (hcurrent : s.currentWeight = (d.upstreamServer j).currentWeight)
    (hmax : s.maxFails = (d.upstreamServer j).maxFails)
    (heff : j < d.nelts → 0 ≤ s.effectiveWeight ∧ s.effectiveWeight ≤ s.weight) :
    Balanced { d with upstreamServer := update d.upstreamServer j s } where
  sum := by
    rw [← h.sum]
    refine sum_congr rfl fun i _ => ?_
    rcases eq_or_ne i j with rfl | hij
    · simpa using hcurrent
    · simp [hij]
  nonneg := fun i hi => by
    rcases eq_or_ne i j with rfl | hij
    · simpa using (heff hi).1
    · simpa [hij] using h.nonneg i hi
  le_weight := fun i hi => by
    rcases eq_or_ne i j with rfl | hij
    · simpa using (heff hi).2
    · simpa [hij] using h.le_weight i hi
  maxFails := fun i hi => by
    rcases eq_or_ne i j with rfl | hij
    · simpa [hmax] using h.maxFails i hi
    · simpa [hij] using h.maxFails i hi

/-- Every step keeps the weights balanced. -/
theorem Balanced.step {d d' : ServerArr} (h : Balanced d) (hstep : BalancerStep d d') :
    Balanced d' := by
  cases hstep with
  | select tried now =>
      have h' : Balanced { d with tried := tried } := h.congr rfl fun i _ => ⟨rfl, rfl, rfl, rfl⟩
      rcases getServerByRoundOnce_cases now { d with tried := tried } with ⟨heq, -⟩ | ⟨b, hb, heq⟩
      · rw [heq]; exact h'
      · rw [heq]; exact h'.picked hb.eligible.1
  | free now outcome i =>
      have hframe := free_frame now { d.upstreamServer i with state := outcome }
      refine h.update i _ hframe.1 hframe.2.2 fun hi => ?_
      rw [hframe.2.1]
      exact free_effectiveWeight now { d.upstreamServer i with state := outcome }
        (h.nonneg i hi) (h.le_weight i hi) (h.maxFails i hi)
  | reset now =>
      refine h.congr rfl fun i hi => ?_
      simp [resetServers, hi, resetServer]
  | outage fails lastFailed => exact h.congr rfl fun i _ => ⟨rfl, rfl, rfl, rfl⟩

/-- **Conservation of the weights**: from fresh servers on, whatever is
selected, released, taken down or up, the current weights add up to zero and
no effective weight leaves the range from zero to the configured weight. -/
theorem weights_balanced {d₀ d : ServerArr} (h₀ : ∀ i < d₀.nelts, Fresh (d₀.upstreamServer i))
    (hrun : Relation.ReflTransGen BalancerStep d₀ d) :
    ∑ i ∈ range d.nelts, (d.upstreamServer i).currentWeight = 0 ∧
      ∀ i < d.nelts, 0 ≤ (d.upstreamServer i).effectiveWeight ∧
        (d.upstreamServer i).effectiveWeight ≤ (d.upstreamServer i).weight := by
  have h : Balanced d := by
    induction hrun with
    | refl => exact balanced_of_fresh h₀
    | tail _ hstep ih => exact ih.step hstep
  exact ⟨h.sum, fun i hi => ⟨h.nonneg i hi, h.le_weight i hi⟩⟩

/-- Two servers of weights 1 and 2, as `upstream_process_init` leaves them. -/
def twoServers : ServerArr :=
  upstreamProcessInit .roundMode [] 2 (fun j => { weight := j + 1 }) .zeros

/-- A selection and a failed connect leave the weights of two servers balanced. -/
theorem weights_balanced_twoServers :
    ∃ d, Relation.ReflTransGen BalancerStep twoServers d ∧
      ∑ i ∈ range d.nelts, (d.upstreamServer i).currentWeight = 0 ∧
      ∀ i < d.nelts, 0 ≤ (d.upstreamServer i).effectiveWeight ∧
        (d.upstreamServer i).effectiveWeight ≤ (d.upstreamServer i).weight := by
  have hrun := (Relation.ReflTransGen.single (BalancerStep.select (d := twoServers)
    (fun _ => 0) 5)).tail (.free 5 .connFail 1)
  refine ⟨_, hrun, weights_balanced (fun i _ => ?_) hrun⟩
  exact fresh_upstreamProcessInit _ _ _ _ _ i (by dsimp only; omega)

end PWebServer
