import Mathlib.Data.List.Basic

/-!
# Lib.Scan

A loop that walks a pointer over an array: its body looks at the element under
the pointer, may rewrite it, and goes on or leaves the loop.  The elements are
kept as those before the pointer and those from it on.

`scan_append` is why such a loop can be fed piecemeal, `scan_rule` is its
invariant rule, `Reaches` computes it over a known input.
-/

namespace Scan

variable {α σ ρ : Type}

/-- What the body does after it has looked at an element. -/
inductive Next (σ ρ : Type) where
  /-- go on with the next element -/
  | go (s : σ)
  /-- leave the loop -/
  | stop (res : ρ) (s : σ)

/-- Where a scan ends: the elements before the pointer and from it on, the
state, and the result the loop was left with, `none` at the end of the array. -/
structure Outcome (α σ ρ : Type) where
  before : List α
  after : List α
  state : σ
  res : Option ρ

/-- The same step on another representation of the state. -/
def Next.map {τ : Type} (f : σ → τ) : Next σ ρ → Next τ ρ
  | .go s => .go (f s)
  | .stop res s => .stop res (f s)

/-- The same end on another representation of the state. -/
def Outcome.map {τ : Type} (f : σ → τ) (out : Outcome α σ ρ) : Outcome α τ ρ :=
  ⟨out.before, out.after, f out.state, out.res⟩

/-- The loop. -/
def scan (body : σ → List α → α → α × Next σ ρ) : List α → List α → σ → Outcome α σ ρ
  | before, [], s => ⟨before, [], s, none⟩
  | before, a :: after, s =>
      match body s before a with
      | (a', .go s') => scan body (before ++ [a']) after s'
      | (a', .stop res s') => ⟨before, a' :: after, s', some res⟩

variable {body : σ → List α → α → α × Next σ ρ}

@[simp] theorem scan_nil (before : List α) (s : σ) :
    scan body before [] s = ⟨before, [], s, none⟩ := rfl

theorem scan_go (h : body s before a = (a', .go s')) (after : List α) :
    scan body before (a :: after) s = scan body (before ++ [a']) after s' := by
  simp [scan, h]

theorem scan_stop (h : body s before a = (a', .stop res s')) (after : List α) :
    scan body before (a :: after) s = ⟨before, a' :: after, s', some res⟩ := by
  simp [scan, h]

/-- At the end of the array nothing is left from the pointer on. -/
theorem after_eq_nil (xs : List α) :
    ∀ (before : List α) (s : σ), (scan body before xs s).res = none →
      (scan body before xs s).after = [] := by
  induction xs with
  | nil => exact fun _ _ _ => rfl
  | cons a xs ih =>
      intro before s
      rcases h : body s before a with ⟨a', s' | ⟨res, s'⟩⟩
      · rw [scan_go h]
        exact ih _ _
      · rw [scan_stop h]
        simp

/-- A scan that the array's end stopped is resumed where it stood when more
elements arrive; one that was left stays left. -/
theorem scan_append (xs ys : List α) :
    ∀ (before : List α) (s : σ),
      scan body before (xs ++ ys) s =
        if (scan body before xs s).res.isNone then
          scan body (scan body before xs s).before ys (scan body before xs s).state
        else { scan body before xs s with after := (scan body before xs s).after ++ ys } := by
  induction xs with
  | nil => simp
  | cons a xs ih =>
      intro before s
      rcases h : body s before a with ⟨a', s' | ⟨res, s'⟩⟩
      · rw [List.cons_append, scan_go h, scan_go h]
        exact ih _ _
      · rw [List.cons_append, scan_stop h, scan_stop h]
        simp

variable (body) in
/-- The loop moves the pointer and neither drops nor adds an element. -/
theorem scan_length (xs : List α) :
    ∀ (before : List α) (s : σ),
      (scan body before xs s).before.length + (scan body before xs s).after.length =
        before.length + xs.length := by
  induction xs with
  | nil => simp
  | cons a xs ih =>
      intro before s
      rcases h : body s before a with ⟨a', s' | ⟨res, s'⟩⟩
      · rw [scan_go h, ih, List.length_append, List.length_singleton, List.length_cons]
        omega
      · rw [scan_stop h]
        simp

variable (body) in
/-- A loop that was left stands on an element at or behind the one it was
entered on. -/
theorem scan_stop_lt (xs : List α) :
    ∀ (before : List α) (s : σ), (scan body before xs s).res ≠ none →
      before.length ≤ (scan body before xs s).before.length ∧
        (scan body before xs s).before.length < before.length + xs.length := by
  induction xs with
  | nil => exact fun _ _ h => absurd rfl h
  | cons a xs ih =>
      intro before s hres
      rcases h : body s before a with ⟨a', s' | ⟨res, s'⟩⟩
      · rw [scan_go h] at hres ⊢
        have := ih _ _ hres
        rw [List.length_append, List.length_singleton] at this
        rw [List.length_cons]
        omega
      · rw [scan_stop h]
        simp

variable (body) in
/-- A loop that rewrites nothing leaves the array as it is. -/
theorem scan_same (hsame : ∀ s before a, (body s before a).1 = a) (xs : List α) :
    ∀ (before : List α) (s : σ),
      (scan body before xs s).before ++ (scan body before xs s).after = before ++ xs := by
  induction xs with
  | nil => exact fun _ _ => rfl
  | cons a xs ih =>
      intro before s
      have ha := hsame s before a
      rcases h : body s before a with ⟨a', s' | ⟨res, s'⟩⟩
      · rw [h] at ha
        obtain rfl : a' = a := ha
        rw [scan_go h, ih, List.append_assoc, List.singleton_append]
      · rw [h] at ha
        obtain rfl : a' = a := ha
        rw [scan_stop h]

/-- A representation of the state that every step respects is respected by the
loop. -/
theorem scan_map {τ : Type} {body' : τ → List α → α → α × Next τ ρ} (f : σ → τ)
    (h : ∀ s before a, body' (f s) before a = ((body s before a).1, (body s before a).2.map f))
    (xs : List α) :
    ∀ (before : List α) (s : σ), scan body' before xs (f s) = (scan body before xs s).map f := by
  induction xs with
  | nil => exact fun _ _ => rfl
  | cons a xs ih =>
      intro before s
      have hstep := h s before a
      rcases hb : body s before a with ⟨a', s' | ⟨res, s'⟩⟩
      · rw [hb] at hstep
        rw [scan_go hb, scan_go hstep]
        exact ih _ _
      · rw [hb] at hstep
        rw [scan_stop hb, scan_stop hstep]
        rfl

variable (body) in
/-- The invariant rule.  `I` speaks of the elements read so far as they were,
of what stands before the pointer, and of the state. -/
theorem scan_rule (I : List α → List α → σ → Prop)
    (hstep : ∀ {raw before s a a' s'}, I raw before s → body s before a = (a', .go s') →
      I (raw ++ [a]) (before ++ [a']) s') (after : List α) :
    ∀ raw before s, I raw before s →
      ((scan body before after s).res = none →
        I (raw ++ after) (scan body before after s).before (scan body before after s).state) ∧
      ∀ res, (scan body before after s).res = some res →
        ∃ read s' a a' rest, after = read ++ a :: rest ∧
          I (raw ++ read) (scan body before after s).before s' ∧
          body s' (scan body before after s).before a =
            (a', .stop res (scan body before after s).state) ∧
          (scan body before after s).after = a' :: rest := by
  induction after with
  | nil =>
      intro raw before s h
      exact ⟨fun _ => by simpa using h, by simp⟩
  | cons a after ih =>
      intro raw before s h
      rcases hb : body s before a with ⟨a', s' | ⟨res, s'⟩⟩
      · rw [scan_go hb]
        obtain ⟨hend, hleft⟩ := ih _ _ _ (hstep h hb)
        refine ⟨fun hres => by simpa using hend hres, fun res hres => ?_⟩
        obtain ⟨read, s'', b, b', rest, rfl, hI, hbody, hafter⟩ := hleft res hres
        exact ⟨a :: read, s'', b, b', rest, rfl, by simpa using hI, hbody, hafter⟩
      · rw [scan_stop hb]
        refine ⟨by simp, fun res' hres => ?_⟩
        obtain rfl := Option.some.inj hres
        exact ⟨[], s, a, a', after, rfl, by simpa using h, hb, rfl⟩

/-- What holds of every result the body can stop with holds of the scan's. -/
theorem scan_res (P : ρ → Prop)
    (hbody : ∀ {s before a a' res s'}, body s before a = (a', .stop res s') → P res)
    {before : List α} {xs : List α} {s : σ} (hres : (scan body before xs s).res = some res) :
    P res := by
  obtain ⟨_, _, _, _, _, -, -, hstop, -⟩ := (scan_rule body (fun _ _ _ => True)
    (fun _ _ => trivial) xs before before s trivial).2 res hres
  exact hbody hstop

/-- The scan of `xs`, entered with `before` passed, ends in `s'` with
`before'` passed. -/
def Reaches (body : σ → List α → α → α × Next σ ρ) (before : List α) (s : σ) (xs : List α)
    (before' : List α) (s' : σ) : Prop :=
  scan body before xs s = ⟨before', [], s', none⟩

theorem Reaches.refl (before : List α) (s : σ) : Reaches body before s [] before s := rfl

theorem Reaches.scan (h : Reaches body before s xs before' s') (ys : List α) :
    scan body before (xs ++ ys) s = scan body before' ys s' := by
  rw [scan_append, h]
  rfl

theorem Reaches.append (h : Reaches body before s xs before' s')
    (h' : Reaches body before' s' ys before'' s'') :
    Reaches body before s (xs ++ ys) before'' s'' := by
  unfold Reaches
  rw [h.scan]
  exact h'

theorem Reaches.go (h : body s before a = (a', .go s')) :
    Reaches body before s [a] (before ++ [a']) s' := by
  simp [Reaches, Scan.scan, h]

theorem Reaches.cons_iff {a : α} :
    Reaches body before s (a :: xs) before' s' ↔
      ∃ a' s₁, body s before a = (a', .go s₁) ∧ Reaches body (before ++ [a']) s₁ xs before' s' := by
  constructor
  · intro h
    rcases hb : body s before a with ⟨a', s₁ | ⟨res, s₁⟩⟩
    · exact ⟨a', s₁, rfl, by rwa [Reaches, scan_go hb] at h⟩
    · rw [Reaches, scan_stop hb] at h
      simp at h
  · rintro ⟨a', s₁, hb, h⟩
    rwa [Reaches, scan_go hb]

/-- Elements that are rewritten and do not change the state are passed over. -/
theorem Reaches.loopMap (f : α → α) (xs : List α)
    (h : ∀ a ∈ xs, ∀ before, body s before a = (f a, .go s)) :
    ∀ before, Reaches body before s xs (before ++ xs.map f) s := by
  induction xs with
  | nil => simp [Reaches]
  | cons a xs ih =>
      intro before
      obtain ⟨ha, hxs⟩ := List.forall_mem_cons.mp h
      have hrest := ih hxs (before ++ [f a])
      rw [List.append_assoc] at hrest
      exact (Reaches.go (ha before)).append hrest

/-- Elements that change nothing are passed over. -/
theorem Reaches.loop (xs : List α) (h : ∀ a ∈ xs, ∀ before, body s before a = (a, .go s))
    (before : List α) : Reaches body before s xs (before ++ xs) s := by
  have hloop := Reaches.loopMap id xs h before
  rwa [List.map_id] at hloop

/-- A scan ends in one state only. -/
theorem Reaches.unique (h : Reaches body before s xs before₁ s₁)
    (h' : Reaches body before s xs before₂ s₂) : before₁ = before₂ ∧ s₁ = s₂ := by
  have heq := h.symm.trans h'
  simp only [Outcome.mk.injEq, and_true, true_and] at heq
  exact heq

/-- The scan of `w` from `s₀` rewrites nothing and ends in `s`. -/
def Reads (body : σ → List α → α → α × Next σ ρ) (s₀ : σ) (w : List α) (s : σ) : Prop :=
  Reaches body [] s₀ w w s

theorem Reads.nil (s₀ : σ) : Reads body s₀ [] s₀ := .refl _ _

theorem Reads.snoc {a : α} (h : Reads body s₀ w s) (ha : body s w a = (a, .go s')) :
    Reads body s₀ (w ++ [a]) s' :=
  Reaches.append h (.go ha)

theorem Reads.loop (h : Reads body s₀ w s)
    (hstay : ∀ a ∈ xs, ∀ before, body s before a = (a, .go s)) : Reads body s₀ (w ++ xs) s :=
  Reaches.append h (.loop xs hstay w)

/-- One element that changes the state, then elements that do not. -/
theorem Reads.word {a : α} (h : Reads body s₀ w s) (ha : body s w a = (a, .go s'))
    (hstay : ∀ b ∈ xs, ∀ before, body s' before b = (b, .go s')) :
    Reads body s₀ (w ++ a :: xs) s' := by
  have hloop := (h.snoc ha).loop hstay
  rwa [List.append_assoc, List.singleton_append] at hloop

/-- The invariant rule for a scan that rewrites nothing. -/
theorem Reads.rule (h : Reads body s₀ w s) (I : List α → σ → Prop) (h₀ : I [] s₀)
    (hstep : ∀ {w s a a' s'}, I w s → body s w a = (a', .go s') → a' = a ∧ I (w ++ [a]) s') :
    I w s := by
  have hrule := (scan_rule body (fun raw before s => raw = before ∧ I before s)
    (fun {raw before s a a' s'} hI hb => by
      obtain ⟨rfl, hI⟩ := hI
      obtain ⟨rfl, hI'⟩ := hstep hI hb
      exact ⟨rfl, hI'⟩) w _ _ _ ⟨rfl, h₀⟩).1
  unfold Reads Reaches at h
  rw [h] at hrule
  exact (hrule rfl).2

end Scan
