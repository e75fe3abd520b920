import Mathlib.Logic.Basic

/-!
# Lib.Machine

State machines with inputs.  `allows` says which inputs the environment gives in
a state, `step` what the machine makes of them, `none` if that is not defined.
What holds at the start and is kept by every step holds in every state that is
reached.
-/

/-- A state machine. -/
structure Machine (σ ι : Type*) where
  init : σ → Prop
  allows : σ → ι → Prop
  step : σ → ι → Option σ

namespace Machine

variable {σ ι : Type*} {M : Machine σ ι} {s s' : σ} {i : ι}

/-- The states of the runs of `M`. -/
inductive Reaches (M : Machine σ ι) : σ → Prop
  | init {s : σ} (h : M.init s) : Reaches M s
  | step {s s' : σ} {i : ι} (h : Reaches M s) (hallows : M.allows s i) (hstep : M.step s i = some s') :
      Reaches M s'

/-- The rule for invariants. -/
theorem Reaches.invariant {I : σ → Prop} (h : M.Reaches s) (hinit : ∀ s, M.init s → I s)
    (hkept : ∀ s i s', I s → M.allows s i → M.step s i = some s' → I s') : I s := by
  induction h with
  | init h => exact hinit _ h
  | step _ hallows hstep ih => exact hkept _ _ _ ih hallows hstep

/-- The runs of `M` in which every input meets `P` in the state it is given in. -/
def restrict (M : Machine σ ι) (P : σ → ι → Prop) : Machine σ ι :=
  { M with allows := fun s i => M.allows s i ∧ P s i }

theorem Reaches.of_restrict {P : σ → ι → Prop} (h : (M.restrict P).Reaches s) : M.Reaches s := by
  induction h with
  | init h => exact .init h
  | step _ hallows hstep ih => exact ih.step hallows.1 hstep

section

variable [∀ s i, Decidable (M.allows s i)]

/-- Whether the machine can take the inputs one after the other, and `p` holds
at their end. -/
def runTest (M : Machine σ ι) [∀ s i, Decidable (M.allows s i)] (p : σ → Bool) : List ι → σ → Bool
  | [], s => p s
  | i :: is, s => decide (M.allows s i) && (M.step s i).any (runTest M p is)

theorem Reaches.exists_of_runTest (p : σ → Bool) (is : List ι) (h : M.Reaches s)
    (htest : M.runTest p is s = true) : ∃ s', M.Reaches s' ∧ p s' = true := by
  induction is generalizing s with
  | nil => exact ⟨s, h, htest⟩
  | cons i is ih =>
      rw [runTest, Bool.and_eq_true, Option.any_eq_true] at htest
      obtain ⟨hallows, s', hstep, hrest⟩ := htest
      exact ih (h.step (of_decide_eq_true hallows) hstep) hrest

/-- A run whose inputs meet `P` in every state. -/
theorem Reaches.restrict_exists_of_runTest {P : σ → ι → Prop} (p : σ → Bool) (is : List ι)
    (h : (M.restrict P).Reaches s) (hP : ∀ i ∈ is, ∀ s, P s i) (htest : M.runTest p is s = true) :
    ∃ s', (M.restrict P).Reaches s' ∧ p s' = true := by
  induction is generalizing s with
  | nil => exact ⟨s, h, htest⟩
  | cons i is ih =>
      rw [runTest, Bool.and_eq_true, Option.any_eq_true] at htest
      obtain ⟨hallows, s', hstep, hrest⟩ := htest
      exact ih (h.step ⟨of_decide_eq_true hallows, hP i List.mem_cons_self s⟩ hstep)
        (fun j hj => hP j (List.mem_cons_of_mem i hj)) hrest

end

end Machine
