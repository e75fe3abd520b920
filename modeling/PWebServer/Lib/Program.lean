import Mathlib.Logic.Function.Basic

/-!
# Lib.Program

Total correctness for programs that change a state and may fail:
`Runs m s Q` says that `m`, started in `s`, returns, and that what it returns
and leaves behind satisfies `Q`.  `loop` is a loop with a bound on its turns,
`loop_runs` its rule: an invariant with a measure that goes down every turn.

`Ensures m s Q` says the same of what `m` returns if it does, and nothing if it
does not; `loop_ensures` needs no measure.
-/

namespace Program

variable {σ ε α β : Type}

/-- `m` returns from the state `s`, with `Q`. -/
def Runs (m : StateT σ (Except ε) α) (s : σ) (Q : α → σ → Prop) : Prop :=
  ∃ a s', m s = .ok (a, s') ∧ Q a s'

variable {m : StateT σ (Except ε) α} {f : α → StateT σ (Except ε) β} {s : σ}

theorem Runs.imp {Q Q' : α → σ → Prop} (h : Runs m s Q) (himp : ∀ a s', Q a s' → Q' a s') :
    Runs m s Q' := by
  obtain ⟨a, s', hm, hQ⟩ := h
  exact ⟨a, s', hm, himp a s' hQ⟩

@[simp] theorem runs_pure {a : α} {Q : α → σ → Prop} :
    Runs (pure a : StateT σ (Except ε) α) s Q ↔ Q a s := by
  constructor
  · rintro ⟨a', s', hm, hQ⟩
    cases hm
    exact hQ
  · exact fun hQ => ⟨a, s, rfl, hQ⟩

@[simp] theorem runs_get {Q : σ → σ → Prop} : Runs (get : StateT σ (Except ε) σ) s Q ↔ Q s s :=
  ⟨fun ⟨_, _, hm, hQ⟩ => by cases hm; exact hQ, fun hQ => ⟨_, _, rfl, hQ⟩⟩

@[simp] theorem runs_modify {g : σ → σ} {Q : Unit → σ → Prop} :
    Runs (modify g : StateT σ (Except ε) Unit) s Q ↔ Q () (g s) :=
  ⟨fun ⟨_, _, hm, hQ⟩ => by cases hm; exact hQ, fun hQ => ⟨_, _, rfl, hQ⟩⟩

@[simp] theorem runs_bind {Q : β → σ → Prop} :
    Runs (m >>= f) s Q ↔ Runs m s fun a s' => Runs (f a) s' Q := by
  constructor
  · rintro ⟨b, s'', hm, hQ⟩
    rcases hfirst : m s with err | ⟨a, s'⟩
    · simp [bind, StateT.bind, Except.bind, hfirst] at hm
    · refine ⟨a, s', hfirst, b, s'', ?_, hQ⟩
      simpa [bind, StateT.bind, Except.bind, hfirst] using hm
  · rintro ⟨a, s', hfirst, b, s'', hrest, hQ⟩
    refine ⟨b, s'', ?_, hQ⟩
    simp [bind, StateT.bind, Except.bind, hfirst, hrest]

theorem runs_ite {c : Prop} [Decidable c] {m' : StateT σ (Except ε) α} {Q : α → σ → Prop} :
    Runs (if c then m else m') s Q ↔ if c then Runs m s Q else Runs m' s Q := by
  split <;> rfl

/-- What comes after a branch comes after both its sides. -/
theorem ite_bind {c : Prop} [Decidable c] {m' : StateT σ (Except ε) α} :
    (if c then m else m') >>= f = if c then m >>= f else m' >>= f := by
  split <;> rfl

/-- A run has one end. -/
theorem Runs.iff_of {P Q : α → σ → Prop} {C : Prop} (h : Runs m s P) (hiff : ∀ a s', P a s' → (Q a s' ↔ C)) :
    Runs m s Q ↔ C := by
  obtain ⟨a, s', hm, hP⟩ := h
  constructor
  · rintro ⟨a', s'', hm', hQ⟩
    cases hm.symm.trans hm'
    exact (hiff a s' hP).mp hQ
  · exact fun hC => ⟨a, s', hm, (hiff a s' hP).mpr hC⟩

/-- The rule of composition: the first part leaves `P`, the second goes on from
there. -/
theorem Runs.bind {P : α → σ → Prop} {Q : β → σ → Prop} (h : Runs m s P)
    (hrest : ∀ a s', P a s' → Runs (f a) s' Q) : Runs (m >>= f) s Q :=
  runs_bind.mpr (h.imp hrest)

/-! ## loops -/

/-- A loop whose body says whether to go on, with what, or what to return. -/
def loop (err : ε) (body : β → StateT σ (Except ε) (β ⊕ α)) : Nat → β → StateT σ (Except ε) α
  | 0, _ => throw err
  | fuel + 1, b => do
      match ← body b with
      | .inl b => loop err body fuel b
      | .inr a => pure a

/-- The rule for loops: the invariant comes with a measure that every turn
makes smaller. -/
theorem loop_runs {err : ε} {body : β → StateT σ (Except ε) (β ⊕ α)} {Q : α → σ → Prop}
    (I : Nat → β → σ → Prop)
    (hstep : ∀ {k b s}, I k b s → Runs (body b) s fun next s' =>
      match next with
      | .inl b' => ∃ k' < k, I k' b' s'
      | .inr a => Q a s')
    (fuel : Nat) :
    ∀ {k b s}, I k b s → k < fuel → Runs (loop err body fuel b) s Q := by
  induction fuel with
  | zero => exact fun _ hk => absurd hk (Nat.not_lt_zero _)
  | succ fuel ih =>
      intro k b s hI hk
      refine (hstep hI).bind fun next s' hnext => ?_
      cases next with
      | inl b' =>
          obtain ⟨k', hk', hI'⟩ := hnext
          exact ih hI' (by omega)
      | inr a => exact runs_pure.mpr hnext

/-! ## more turns -/

/-- Where `m` returns, `m'` does the same. -/
def Extends (m m' : StateT σ (Except ε) α) : Prop :=
  ∀ s a s', m s = .ok (a, s') → m' s = .ok (a, s')

theorem Extends.refl (m : StateT σ (Except ε) α) : Extends m m := fun _ _ _ h => h

theorem Extends.bind {m' : StateT σ (Except ε) α} {f' : α → StateT σ (Except ε) β} (hm : Extends m m')
    (hf : ∀ a, Extends (f a) (f' a)) : Extends (m >>= f) (m' >>= f') := by
  intro s b s'' h
  rcases hfirst : m s with err | ⟨a, s'⟩
  · simp [Bind.bind, StateT.bind, Except.bind, hfirst] at h
  · have hrest : f a s' = .ok (b, s'') := by
      simpa [Bind.bind, StateT.bind, Except.bind, hfirst] using h
    simp [Bind.bind, StateT.bind, Except.bind, hm _ _ _ hfirst, hf _ _ _ _ hrest]

theorem Extends.ite {c : Prop} [Decidable c] {m₁ m₁' m₂ m₂' : StateT σ (Except ε) α}
    (h₁ : Extends m₁ m₁') (h₂ : Extends m₂ m₂') :
    Extends (if c then m₁ else m₂) (if c then m₁' else m₂') := by
  split
  · exact h₁
  · exact h₂

/-- A loop that returns does so with more turns, too. -/
theorem loop_extends {err : ε} {body : β → StateT σ (Except ε) (β ⊕ α)} {fuel fuel' : Nat}
    (hle : fuel ≤ fuel') (b : β) : Extends (loop err body fuel b) (loop err body fuel' b) := by
  induction fuel generalizing fuel' b with
  | zero =>
      intro s a s' h
      cases h
  | succ fuel ih =>
      cases fuel' with
      | zero => omega
      | succ fuel' =>
          refine (Extends.refl (body b)).bind fun next => ?_
          cases next with
          | inl b' => exact ih (by omega) b'
          | inr a => exact .refl _

/-- What holds with enough turns holds of every run that returns. -/
theorem Extends.post {m' : StateT σ (Except ε) α} {Q : α → σ → Prop} {a : α} {s' : σ} (h : Extends m m')
    (hruns : Runs m' s Q) (hm : (m s).toOption = some (a, s')) : Q a s' := by
  obtain ⟨a', s'', hm', hQ⟩ := hruns
  cases hrun : m s with
  | error err => simp [hrun, Except.toOption] at hm
  | ok r =>
      obtain rfl : r = (a, s') := by simpa [hrun, Except.toOption] using hm
      cases (h _ _ _ hrun).symm.trans hm'
      exact hQ

/-! ## programs that may not return -/

/-- What `m` returns from the state `s`, if it does, meets `Q`. -/
def Ensures (m : StateT σ (Except ε) α) (s : σ) (Q : α → σ → Prop) : Prop :=
  ∀ a s', m s = .ok (a, s') → Q a s'

theorem Ensures.imp {Q Q' : α → σ → Prop} (h : Ensures m s Q) (himp : ∀ a s', Q a s' → Q' a s') :
    Ensures m s Q' := fun a s' hm => himp a s' (h a s' hm)

theorem Ensures.pure {a : α} {Q : α → σ → Prop} (h : Q a s) :
    Ensures (Pure.pure a : StateT σ (Except ε) α) s Q := by
  intro a' s' hm
  cases hm
  exact h

theorem Ensures.bind {P : α → σ → Prop} {Q : β → σ → Prop} (h : Ensures m s P)
    (hrest : ∀ a s', P a s' → Ensures (f a) s' Q) : Ensures (m >>= f) s Q := by
  intro b s'' hm
  rcases hfirst : m s with err | ⟨a, s'⟩
  · simp [Bind.bind, StateT.bind, Except.bind, hfirst] at hm
  · refine hrest a s' (h a s' hfirst) b s'' ?_
    simpa [Bind.bind, StateT.bind, Except.bind, hfirst] using hm

/-- A program that returns does what it does with more turns. -/
theorem Runs.ensures {m' : StateT σ (Except ε) α} {Q : α → σ → Prop} (hruns : Runs m' s Q) (h : Extends m m') :
    Ensures m s Q := by
  intro a s' hm
  exact h.post hruns (by rw [hm]; rfl)

/-- A first part that returns. -/
theorem Runs.ensures_bind {m' : StateT σ (Except ε) α} {Q : β → σ → Prop}
    (hruns : Runs m' s fun a s' => Ensures (f a) s' Q) (h : Extends m m') : Ensures (m >>= f) s Q :=
  (hruns.ensures h).bind fun _ _ hrest => hrest

theorem Ensures.of_runs {Q : β → σ → Prop} (hruns : Runs m s fun a s' => Ensures (f a) s' Q) :
    Ensures (m >>= f) s Q := hruns.ensures_bind (.refl m)

/-- The rule for loops that may not end. -/
theorem loop_ensures {err : ε} {body : β → StateT σ (Except ε) (β ⊕ α)} {Q : α → σ → Prop} (I : β → σ → Prop)
    (hstep : ∀ b s, I b s → Ensures (body b) s fun next s' =>
      match next with
      | .inl b' => I b' s'
      | .inr a => Q a s')
    (fuel : Nat) : ∀ b s, I b s → Ensures (loop err body fuel b) s Q := by
  induction fuel with
  | zero =>
      intro b s hI a s' hm
      cases hm
  | succ fuel ih =>
      intro b s hI
      refine (hstep b s hI).bind fun next s' hnext => ?_
      cases next with
      | inl b' => exact ih b' s' hnext
      | inr a => exact .pure hnext

end Program
