import PWebServer.Module.Weights

/-!
# Module.Fairness

Without failures the balancer is the rotation of `Lib.Rotation`: every
selection that starts from a cleared bitmap is one of its rounds, so over as
many selections as the total weight every server is selected as often as its
weight says, and the current weights are back where they started.
-/

namespace PWebServer

open Function Finset

/-- One selection as `get_server_by_round` begins it: the bitmap and the
servers reset as `init_before_round` does for up to 64 servers, then one call
of `get_server_by_round_once`. -/
def selection (now : BitVec 32) (d : ServerArr) : Option (Option Nat × ServerArr) :=
  (resetTried none d).map fun d => getServerByRoundOnce now (resetServers now d)

/-- Consecutive selections, one for each reading of the clock. -/
def selections : List (BitVec 32) → ServerArr → Option (List (Option Nat) × ServerArr)
  | [], d => some ([], d)
  | now :: nows, d => do
      let (r, d) ← selection now d
      let (rs, d) ← selections nows d
      some (r :: rs, d)

/-- The current weights of the servers of a domain. -/
def ServerArr.credits (d : ServerArr) (i : Nat) : Int := (d.upstreamServer i).currentWeight

/-- No server of the domain has failed or been slowed down: all of them work at
their configured weights `w`. -/
structure Steady (w : Nat → Int) (d : ServerArr) : Prop where
  weight : ∀ i < d.nelts, (d.upstreamServer i).weight = w i
  effectiveWeight : ∀ i < d.nelts, (d.upstreamServer i).effectiveWeight = w i
  fails : ∀ i < d.nelts, (d.upstreamServer i).fails = 0
  maxFails : ∀ i < d.nelts, 0 ≤ (d.upstreamServer i).maxFails

/-- A server without failures is not down. -/
theorem isServerDown_of_fails_zero (now : BitVec 32) (s : UpstreamServer) (h : s.fails = 0)
    (hm : 0 ≤ s.maxFails) : isServerDown now s = false := by
  by_contra hdown
  simp only [isServerDown, Bool.not_eq_false, Bool.and_eq_true, decide_eq_true_eq] at hdown
  omega

/-- The domain a selection starts from, for up to 64 servers. -/
def ServerArr.cleared (now : BitVec 32) (d : ServerArr) : ServerArr :=
  resetServers now { d with tried := fun _ => 0 }

theorem selection_eq {d : ServerArr} (hn : d.nelts ≤ 64) (now : BitVec 32) :
    selection now d = some (getServerByRoundOnce now (d.cleared now)) := by
  simp [selection, resetTried, hn, ServerArr.cleared]

/-- Clearing touches no weight. -/
theorem credits_cleared (now : BitVec 32) (d : ServerArr) : (d.cleared now).credits = d.credits := by
  funext i
  simp only [ServerArr.credits, ServerArr.cleared, resetServers]
  split <;> rfl

theorem Steady.cleared (h : Steady w d) (now : BitVec 32) : Steady w (d.cleared now) where
  weight := fun i (hi : i < d.nelts) => by
    simpa [ServerArr.cleared, resetServers, hi, resetServer] using h.weight i hi
  effectiveWeight := fun i (hi : i < d.nelts) => by
    simpa [ServerArr.cleared, resetServers, hi, resetServer] using h.effectiveWeight i hi
  fails := fun i (hi : i < d.nelts) => by
    simp [ServerArr.cleared, resetServers, hi, resetServer, h.fails i hi]
  maxFails := fun i (hi : i < d.nelts) => by
    simpa [ServerArr.cleared, resetServers, hi, resetServer] using h.maxFails i hi

/-- From a cleared bitmap every server of a steady domain is eligible. -/
theorem Steady.eligible_cleared (h : Steady w d) (now : BitVec 32) (i : Nat) :
    (d.cleared now).Eligible now i ↔ i < d.nelts := by
  refine ⟨fun hi => hi.1, fun hi => ⟨hi, by simp [ServerArr.cleared, resetServers], ?_⟩⟩
  exact isServerDown_of_fails_zero now _ ((h.cleared now).fails i hi) ((h.cleared now).maxFails i hi)

/-- The effective weights of a steady domain add up to the configured ones. -/
theorem Steady.total_cleared (h : Steady w d) (now : BitVec 32) :
    (d.cleared now).total now = ∑ i ∈ range d.nelts, w i := by
  refine sum_congr rfl fun i hi => ?_
  have hi' : i < d.nelts := mem_range.mp hi
  rw [if_pos ((h.eligible_cleared now i).mpr hi'), (h.cleared now).effectiveWeight i hi']

/-- A selection leaves a steady domain steady: no server is below its
configured weight, so none recovers. -/
theorem Steady.picked (h : Steady w d) (now : BitVec 32) (b : Nat) :
    Steady w (d.picked now b) where
  weight := fun i (hi : i < d.nelts) => by rw [(picked_frame now d b i).1, h.weight i hi]
  effectiveWeight := fun i (hi : i < d.nelts) => by
    rw [picked_effectiveWeight, h.effectiveWeight i hi, h.weight i hi]
    simp
  fails := fun i (hi : i < d.nelts) => by rw [(picked_frame now d b i).2.2, h.fails i hi]
  maxFails := fun i (hi : i < d.nelts) => by
    rw [(picked_frame now d b i).2.1]
    exact h.maxFails i hi

/-- **A selection is a round**: from a steady domain of up to 64 servers it
returns a server, and moves the current weights as the rotation does. -/
theorem Steady.round (h : Steady w d) (hpos : 0 < d.nelts) (hn : d.nelts ≤ 64)
    (now : BitVec 32) :
    ∃ b d', selection now d = some (some b, d') ∧ Steady w d' ∧ d'.nelts = d.nelts ∧
      Rotation.Round (range d.nelts) w d.credits b d'.credits := by
  have hcl := h.cleared now
  rcases getServerByRoundOnce_cases now (d.cleared now) with ⟨-, hno⟩ | ⟨b, hb, heq⟩
  · exact absurd ((h.eligible_cleared now 0).mpr hpos) (hno 0)
  · have hcredit : ∀ i < d.nelts,
        ((d.cleared now).upstreamServer i).credit.currentWeight = d.credits i + w i := by
      intro i hi
      rw [← credits_cleared now d, ← hcl.effectiveWeight i hi]
      rfl
    have hbn : b < d.nelts := hb.eligible.1
    refine ⟨b, (d.cleared now).picked now b, ?_, hcl.picked now b, rfl, ?_, ?_, ?_⟩
    · rw [selection_eq hn, heq]
    · exact mem_range.mpr hbn
    · intro i hi
      have hi' : i < d.nelts := mem_range.mp hi
      rw [← hcredit i hi', ← hcredit b hbn]
      exact hb.most i ((h.eligible_cleared now i).mpr hi')
    · intro i hi
      have hi' : i < d.nelts := mem_range.mp hi
      have hcredits := congrFun (credits_cleared now d) i
      change ((d.cleared now).picked now b |>.upstreamServer i).currentWeight = _
      rw [picked_currentWeight, if_pos ((h.eligible_cleared now i).mpr hi'),
        hcl.effectiveWeight i hi', h.total_cleared now, ← hcredits]
      rfl

/-- Consecutive selections from a steady domain are consecutive rounds. -/
theorem Steady.rounds (nows : List (BitVec 32)) :
    ∀ {d : ServerArr}, Steady w d → 0 < d.nelts → d.nelts ≤ 64 →
      ∃ bs d', selections nows d = some (bs.map some, d') ∧ bs.length = nows.length ∧
        d'.nelts = d.nelts ∧ Rotation.Rounds (range d.nelts) w d.credits bs d'.credits := by
  induction nows with
  | nil => exact fun {d} _ _ _ => ⟨[], d, rfl, rfl, rfl, .nil⟩
  | cons now nows ih =>
      intro d h hpos hn
      obtain ⟨b, d₁, hsel, hsteady, hnelts, hround⟩ := h.round hpos hn now
      obtain ⟨bs, d₂, hrest, hlen, hnelts', hrounds⟩ :=
        ih hsteady (by omega) (by omega)
      refine ⟨b :: bs, d₂, ?_, by simp [hlen], by omega, .cons hround ?_⟩
      · simp [selections, hsel, hrest]
      · rwa [hnelts] at hrounds

/-- Fresh servers are steady. -/
theorem steady_of_fresh {d : ServerArr} (h : ∀ i < d.nelts, Fresh (d.upstreamServer i)) :
    Steady (fun i => (d.upstreamServer i).weight) d where
  weight := fun _ _ => rfl
  effectiveWeight := fun i hi => (h i hi).effectiveWeight
  fails := fun i hi => (h i hi).fails
  maxFails := fun i hi => (h i hi).maxFails

theorem nelts_pos {w : Nat → Int} {d : ServerArr} (hW : 0 < ∑ i ∈ range d.nelts, w i) : 0 < d.nelts := by
  rcases Nat.eq_zero_or_pos d.nelts with h0 | hpos
  · rw [h0, range_zero, sum_empty] at hW
    exact absurd hW (lt_irrefl 0)
  · exact hpos

/-- The current weights of fresh servers stay within as many times the total
weight as there are servers, while none of them fails. -/
theorem selections_within {d : ServerArr} (hn : d.nelts ≤ 64)
    (hfresh : ∀ i < d.nelts, Fresh (d.upstreamServer i))
    (hW : 0 < ∑ i ∈ range d.nelts, (d.upstreamServer i).weight) (nows : List (BitVec 32)) :
    ∃ rs d', selections nows d = some (rs, d') ∧ ∀ i < d.nelts,
      -(∑ j ∈ range d.nelts, (d.upstreamServer j).weight) < d'.credits i ∧
      d'.credits i + ∑ j ∈ range d.nelts, (d.upstreamServer j).weight ≤
        d.nelts * ∑ j ∈ range d.nelts, (d.upstreamServer j).weight := by
  have hpos := nelts_pos hW
  obtain ⟨bs, d', hsel, -, -, hrounds⟩ := (steady_of_fresh hfresh).rounds nows hpos hn
  have hzero : ∀ i ∈ range d.nelts, d.credits i = 0 := fun i hi =>
    (hfresh i (mem_range.mp hi)).currentWeight
  have hw : ∀ i ∈ range d.nelts, 0 ≤ (d.upstreamServer i).weight := fun i hi =>
    (hfresh i (mem_range.mp hi)).weight
  have hlow : ∀ i ∈ range d.nelts, -(∑ j ∈ range d.nelts, (d.upstreamServer j).weight) < d.credits i :=
    fun i hi => by rw [hzero i hi]; omega
  refine ⟨bs.map some, d', hsel, fun i hi => ⟨?_, ?_⟩⟩
  · exact hrounds.lower hw (sum_eq_zero hzero) hW hlow i (mem_range.mpr hi)
  · have hupper := hrounds.upper hw (sum_eq_zero hzero) hW hlow (mem_range.mpr hi)
    rwa [card_range] at hupper

/-- **Fairness over a period**: of up to 64 fresh servers with a positive total
weight, as many selections as that total return each server exactly as often
as its weight says, and leave every current weight at zero. -/
theorem selections_fair {d : ServerArr} (hn : d.nelts ≤ 64)
    (hfresh : ∀ i < d.nelts, Fresh (d.upstreamServer i))
    (hW : 0 < ∑ i ∈ range d.nelts, (d.upstreamServer i).weight) (nows : List (BitVec 32))
    (hlen : (nows.length : Int) = ∑ i ∈ range d.nelts, (d.upstreamServer i).weight) :
    ∃ rs d', selections nows d = some (rs, d') ∧
      ∀ i < d.nelts, (rs.count (some i) : Int) = (d.upstreamServer i).weight ∧
        (d'.upstreamServer i).currentWeight = 0 := by
  have hpos := nelts_pos hW
  obtain ⟨bs, d', hsel, hbs, -, hrounds⟩ := (steady_of_fresh hfresh).rounds nows hpos hn
  refine ⟨bs.map some, d', hsel, fun i hi => ?_⟩
  have hzero : ∀ i ∈ range d.nelts, d.credits i = 0 := fun i hi =>
    (hfresh i (mem_range.mp hi)).currentWeight
  have hfair := hrounds.fair hzero (fun i hi => (hfresh i (mem_range.mp hi)).weight) hW
    (by rw [hbs, hlen]) i (mem_range.mpr hi)
  rwa [List.count_map_of_injective _ _ (Option.some_injective _)]

/-- Three selections among two servers of weights 1 and 2. -/
theorem selections_fair_twoServers :
    ∃ rs d', selections [7, 7, 8] twoServers = some (rs, d') ∧
      ∀ i < 2, (rs.count (some i) : Int) = (twoServers.upstreamServer i).weight ∧
        (d'.upstreamServer i).currentWeight = 0 :=
  selections_fair (d := twoServers) (by decide)
    (fun i _ => fresh_upstreamProcessInit _ _ _ _ _ i (by dsimp only; omega))
    (by decide) [7, 7, 8] (by decide)

end PWebServer
