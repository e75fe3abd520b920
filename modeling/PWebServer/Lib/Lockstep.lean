import Mathlib.Logic.Basic

/-!
# Lib.Lockstep

Two runs of a program side by side.  `Agree R` says that both fail, and for the
same reason, or both return and `R` relates what they return.  The rules follow
the program: a step after a step, a branch both runs take, turn after turn.
-/

namespace Lockstep

universe u v w

variable {ε : Type w} {α β : Type u} {α' β' : Type v} {R : α → α' → Prop} {S : β → β' → Prop} {x : Except ε α} {y : Except ε α'}
  {f : α → Except ε β} {g : α' → Except ε β'}

/-- Both runs fail in the same way, or both return. -/
inductive Agree (R : α → α' → Prop) : Except ε α → Except ε α' → Prop
  | ok {a : α} {a' : α'} (h : R a a') : Agree R (.ok a) (.ok a')
  | error (e : ε) : Agree R (.error e) (.error e)

theorem Agree.mono {R' : α → α' → Prop} (h : Agree R x y) (hR : ∀ a a', R a a' → R' a a') : Agree R' x y := by
  cases h with
  | ok h => exact .ok (hR _ _ h)
  | error e => exact .error e

/-- A run in between. -/
theorem Agree.trans {γ : Type*} {T : α' → γ → Prop} {z : Except ε γ} (h : Agree R x y) (h' : Agree T y z) :
    Agree (fun a c => ∃ b, R a b ∧ T b c) x z := by
  cases h with
  | ok h =>
      cases h' with
      | ok h' => exact .ok ⟨_, h, h'⟩
  | error e =>
      cases h'
      exact .error e

/-- The rule of composition. -/
theorem Agree.bind (h : Agree R x y) (hrest : ∀ a a', R a a' → Agree S (f a) (g a')) :
    Agree S (x >>= f) (y >>= g) := by
  cases h with
  | ok h => exact hrest _ _ h
  | error e => exact .error e

/-- The same step in both runs. -/
theorem Agree.bind_same {x : Except ε α} {f' : α → Except ε β} {S : β → β → Prop} (hrest : ∀ a, Agree S (f a) (f' a)) :
    Agree S (x >>= f) (x >>= f') := by
  cases x with
  | ok a => exact hrest a
  | error e => exact .error e

/-- A branch that both runs take. -/
theorem Agree.ite {c c' : Prop} [Decidable c] [Decidable c'] {x' : Except ε α} {y' : Except ε α'} (hc : c ↔ c')
    (hthen : c' → Agree R x y) (helse : ¬ c' → Agree R x' y') :
    Agree R (if c then x else x') (if c' then y else y') := by
  by_cases h : c'
  · rw [if_pos (hc.mpr h), if_pos h]
    exact hthen h
  · rw [if_neg fun h' => h (hc.mp h'), if_neg h]
    exact helse h

/-- What is known of each of the runs. -/
theorem Agree.and {P : α → Prop} {Q : α' → Prop} (h : Agree R x y) (hP : ∀ a, x = .ok a → P a)
    (hQ : ∀ a', y = .ok a' → Q a') : Agree (fun a a' => R a a' ∧ P a ∧ Q a') x y := by
  cases h with
  | ok h => exact .ok ⟨h, hP _ rfl, hQ _ rfl⟩
  | error e => exact .error e

end Lockstep
