import PWebServer.Module.Weights

/-!
# Module.Retry

The retry loop of `get_server_by_round` over connects that fail at once.

A selection marks the mask of the *last* server of the array as tried and not
that of the server it returns.  `RetryCond` says when this goes unnoticed: no
server that is up shares the last server's mark unless it is the first choice,
and the others drop out by going down.  Then every server that is up is tried
exactly once (`retryLoop_covers`); without it some server is tried twice or
not at all (`unmarked_of_law`, `first_of_law`, `falls_of_law`).
-/

namespace PWebServer

open Function Finset

/-! ## marks -/

/-- Server `i` is marked in a bitmap. -/
def Marked (tried : Nat → BitVec 64) (i : Nat) : Prop := tried (i / 64) &&& bitMask i ≠ 0#64

/-- Marking server `j` marks server `i` too. -/
def SharesMark (j i : Nat) : Prop := i / 64 = j / 64 ∧ bitMask j &&& bitMask i ≠ 0#64

/-- After the mark of `j` is set, the marked servers are those marked before
and those that share it. -/
theorem marked_update (tried : Nat → BitVec 64) (j i : Nat) :
    Marked (update tried (j / 64) (tried (j / 64) ||| bitMask j)) i ↔
      Marked tried i ∨ SharesMark j i := by
  unfold Marked SharesMark
  by_cases hw : i / 64 = j / 64
  · simp only [hw, update_self, BitVec.and_or_distrib_right, ne_eq, BitVec.or_eq_zero_iff,
      true_and]
    tauto
  · simp [hw]

/-! ## failures -/

/-- Two servers agree on what makes a server down. -/
structure SameFailures (s t : UpstreamServer) : Prop where
  fails : s.fails = t.fails
  maxFails : s.maxFails = t.maxFails
  lastFailed : s.lastFailed = t.lastFailed
  failTimeout : s.failTimeout = t.failTimeout

theorem SameFailures.refl (s : UpstreamServer) : SameFailures s s := ⟨rfl, rfl, rfl, rfl⟩

theorem SameFailures.trans (h : SameFailures s t) (h' : SameFailures t u) : SameFailures s u :=
  ⟨h.fails.trans h'.fails, h.maxFails.trans h'.maxFails, h.lastFailed.trans h'.lastFailed,
    h.failTimeout.trans h'.failTimeout⟩

theorem SameFailures.isServerDown (h : SameFailures s t) (now : BitVec 32) :
    isServerDown now s = isServerDown now t := by
  simp [PWebServer.isServerDown, inFailTimeDuration, h.fails, h.maxFails, h.lastFailed,
    h.failTimeout]

/-- What a failed connect does to the failures of a server depends on these
only. -/
theorem SameFailures.failServer (h : SameFailures s t) (now : BitVec 32) :
    SameFailures (failServer now s) (failServer now t) := by
  refine ⟨?_, ?_, ?_, ?_⟩ <;>
    simp [PWebServer.failServer, freeServerAfterRoundSelect, h.fails, h.maxFails, h.failTimeout]

/-- A selection changes no server's failures. -/
theorem sameFailures_picked (now : BitVec 32) (d : ServerArr) (b i : Nat) :
    SameFailures ((d.picked now b).upstreamServer i) (d.upstreamServer i) := by
  constructor <;> simp only [ServerArr.picked] <;> rcases eq_or_ne i b with rfl | hb <;>
    by_cases he : d.Eligible now i <;> simp_all [UpstreamServer.credit]

/-! ## the condition -/

/-- Server `i` of a domain is up. -/
def Up (now : BitVec 32) (d : ServerArr) (i : Nat) : Prop :=
  i < d.nelts ∧ isServerDown now (d.upstreamServer i) = false

instance : Decidable (Up now d i) := inferInstanceAs (Decidable (_ ∧ _))

theorem eligible_iff_up (now : BitVec 32) (d : ServerArr) (i : Nat) :
    d.Eligible now i ↔ Up now d i ∧ ¬ Marked d.tried i := by
  simp only [ServerArr.Eligible, eligible, Up, Marked, ne_eq, not_not]
  tauto

/-- When the loop, begun on the domain `d`, tries every server that is up
exactly once however many connects fail: no server that is up is marked; one
that shares the mark of the last server is the first choice; any other one goes
down by a failure. -/
structure RetryCond (now : BitVec 32) (d : ServerArr) : Prop where
  unmarked : ∀ i, Up now d i → ¬ Marked d.tried i
  first : ∀ i, Up now d i → SharesMark (d.nelts - 1) i → d.IsBest now i
  falls : ∀ i, Up now d i → ¬ SharesMark (d.nelts - 1) i →
    isServerDown now (failServer now (d.upstreamServer i)) = true

theorem ServerArr.IsBest.unique {now : BitVec 32} {d : ServerArr} (h : d.IsBest now b)
    (h' : d.IsBest now b') : b = b' := by
  rcases Nat.lt_trichotomy b b' with hlt | heq | hlt
  · exact absurd (h.most b' h'.eligible) (not_le.mpr (h'.first b hlt h.eligible))
  · exact heq
  · exact absurd (h'.most b h.eligible) (not_le.mpr (h.first b' hlt h'.eligible))

/-! ## progress of the loop -/

/-- The domain after a selection of `b` and a failed connect to it. -/
def ServerArr.failed (now : BitVec 32) (d : ServerArr) (b : Nat) : ServerArr :=
  { d.picked now b with
    upstreamServer := update (d.picked now b).upstreamServer b
      (failServer now ((d.picked now b).upstreamServer b)) }

/-- Where the loop stands after failed connects to the servers `ps`, none of
them twice, begun on `d₀`. -/
structure Progress (now : BitVec 32) (d₀ : ServerArr) (ps : List Nat) (d : ServerArr) :
    Prop where
  nelts : d.nelts = d₀.nelts
  start : ps = [] → d = d₀
  untried : ∀ i ∉ ps, SameFailures (d.upstreamServer i) (d₀.upstreamServer i)
  tried : ∀ i ∈ ps, SameFailures (d.upstreamServer i) (failServer now (d₀.upstreamServer i))
  marks : ∀ i, Marked d.tried i ↔
    Marked d₀.tried i ∨ ps ≠ [] ∧ SharesMark (d₀.nelts - 1) i

theorem Progress.refl (now : BitVec 32) (d : ServerArr) : Progress now d [] d where
  nelts := rfl
  start := fun _ => rfl
  untried := fun _ _ => SameFailures.refl _
  tried := by simp
  marks := by simp

/-- One more failed connect, to a server not tried before. -/
theorem Progress.failed (h : Progress now d₀ ps d) (hb : b ∉ ps) :
    Progress now d₀ (b :: ps) (d.failed now b) where
  nelts := h.nelts
  start := by simp
  untried := by
    intro i hi
    obtain ⟨hib, hips⟩ : i ≠ b ∧ i ∉ ps := by simpa using hi
    simp only [ServerArr.failed, update_of_ne hib]
    exact (sameFailures_picked now d b i).trans (h.untried i hips)
  tried := by
    intro i hi
    rcases eq_or_ne i b with rfl | hib
    · simp only [ServerArr.failed, update_self]
      exact ((sameFailures_picked now d i i).trans (h.untried i hb)).failServer now
    · have hips : i ∈ ps := by simpa [hib] using hi
      simp only [ServerArr.failed, update_of_ne hib]
      exact (sameFailures_picked now d b i).trans (h.tried i hips)
  marks := by
    intro i
    have hmark : Marked (d.failed now b).tried i ↔
        Marked d.tried i ∨ SharesMark (d.nelts - 1) i := marked_update _ _ _
    rw [hmark, h.marks i, h.nelts]
    simp only [ne_eq, reduceCtorEq, not_false_eq_true, true_and]
    tauto

/-- A server not tried so far is up exactly if it was at the start. -/
theorem Progress.up_iff (h : Progress now d₀ ps d) (hi : i ∉ ps) :
    Up now d i ↔ Up now d₀ i := by
  rw [Up, Up, h.nelts, (h.untried i hi).isServerDown]

/-! ## the log of the loop -/

/-- The servers that were passed to `try_connect`, in order. -/
def passed (acts : List Act) : List ServerId :=
  acts.filterMap fun
    | .tryConnect us _ => some us
    | _ => none

@[simp] theorem passed_append (xs ys : List Act) : passed (xs ++ ys) = passed xs ++ passed ys := by
  simp [passed]

/-- A try that finds no server. -/
theorem retryLoop_none (h : ∀ i, ¬ d.Eligible now i) (conn : Nat → Ret) (domain k : Nat)
    (r : HttpRequest) :
    retryLoop now conn domain (k + 1) r d =
      retryLoop now conn domain k { r with upstreamTries := r.upstreamTries + 1 } d := by
  rcases getServerByRoundOnce_cases now d with ⟨heq, -⟩ | ⟨b, hb, -⟩
  · simp [retryLoop, heq]
  · exact absurd hb.eligible (h b)

/-- A try whose connect goes through or is in progress ends the loop. -/
theorem retryLoop_return (hb : d.IsBest now b) (conn : Nat → Ret) (domain k : Nat)
    (r : HttpRequest) (hret : conn (r.upstreamTries + 1) = .ok ∨ conn (r.upstreamTries + 1) = .again) :
    (retryLoop now conn domain (k + 1) r d).returned = true ∧
      passed (retryLoop now conn domain (k + 1) r d).acts = [(domain, b)] := by
  rcases getServerByRoundOnce_cases now d with ⟨-, hno⟩ | ⟨b', hb', heq⟩
  · exact absurd hb.eligible (hno b)
  · obtain rfl := hb.unique hb'
    rcases hret with hret | hret <;> simp [retryLoop, heq, hret, passed]

/-- A try whose connect fails. -/
theorem retryLoop_fail (hb : d.IsBest now b) (conn : Nat → Ret) (domain k : Nat)
    (r : HttpRequest) (hok : conn (r.upstreamTries + 1) ≠ .ok)
    (hagain : conn (r.upstreamTries + 1) ≠ .again) :
    retryLoop now conn domain (k + 1) r d =
      let run := retryLoop now conn domain k { r with upstreamTries := r.upstreamTries + 1 }
        (d.failed now b)
      { run with
        acts := .tryConnect (domain, b) (conn (r.upstreamTries + 1)) :: .free (domain, b) ::
          run.acts } := by
  rcases getServerByRoundOnce_cases now d with ⟨-, hno⟩ | ⟨b', hb', heq⟩
  · exact absurd hb.eligible (hno b)
  · obtain rfl := hb.unique hb'
    cases hret : conn (r.upstreamTries + 1) <;>
      first
      | exact absurd hret hok
      | exact absurd hret hagain
      | simp [retryLoop, heq, hret, ServerArr.failed]

/-- The first selection of the loop, or any later one, by whether it finds a
server and what the connect to it does. -/
theorem retryLoop_cases (now : BitVec 32) (conn : Nat → Ret) (r : HttpRequest) (d : ServerArr) :
    (∀ i, ¬ d.Eligible now i) ∨
      ∃ b, d.IsBest now b ∧
        ((conn (r.upstreamTries + 1) = .ok ∨ conn (r.upstreamTries + 1) = .again) ∨
          conn (r.upstreamTries + 1) ≠ .ok ∧ conn (r.upstreamTries + 1) ≠ .again) := by
  rcases getServerByRoundOnce_cases now d with ⟨-, hno⟩ | ⟨b, hb, -⟩
  · exact .inl hno
  · exact .inr ⟨b, hb, by tauto⟩

/-! ## the condition is enough -/

/-- The servers of a domain that are up. -/
def upServers (now : BitVec 32) (d : ServerArr) : Finset Nat :=
  (range d.nelts).filter fun i => isServerDown now (d.upstreamServer i) = false

@[simp] theorem mem_upServers : i ∈ upServers now d ↔ Up now d i := by
  simp [upServers, Up]

/-- The servers that share the last mark are tried first of all, if at all. -/
def LastTried (now : BitVec 32) (d₀ : ServerArr) (ps : List Nat) : Prop :=
  ps ≠ [] → ∀ i, Up now d₀ i → SharesMark (d₀.nelts - 1) i → i ∈ ps

/-- Under the condition, exactly the servers that are up and not yet tried are
eligible. -/
theorem RetryCond.eligible_iff (hc : RetryCond now d₀) (h : Progress now d₀ ps d)
    (hup : ∀ i ∈ ps, Up now d₀ i) (hlast : LastTried now d₀ ps) (i : Nat) :
    d.Eligible now i ↔ Up now d₀ i ∧ i ∉ ps := by
  rw [eligible_iff_up, h.marks i]
  constructor
  · rintro ⟨hi, hmark⟩
    have hips : i ∉ ps := by
      intro hips
      have hne : ps ≠ [] := List.ne_nil_of_mem hips
      -- a tried server is down by now, or it bears the mark
      have hshare : ¬ SharesMark (d₀.nelts - 1) i := fun hs => hmark (.inr ⟨hne, hs⟩)
      have hdown := hc.falls i (hup i hips) hshare
      rw [← (h.tried i hips).isServerDown, hi.2] at hdown
      exact absurd hdown (by decide)
    exact ⟨(h.up_iff hips).mp hi, hips⟩
  · rintro ⟨hi, hips⟩
    refine ⟨(h.up_iff hips).mpr hi, ?_⟩
    rintro (hmark | ⟨hne, hshare⟩)
    · exact hc.unmarked i hi hmark
    · exact hips (hlast hne i hi hshare)

/-- The next selection keeps the servers of the last mark among the first. -/
theorem RetryCond.lastTried_cons (hc : RetryCond now d₀) (h : Progress now d₀ ps d)
    (hlast : LastTried now d₀ ps) (hb : d.IsBest now b) : LastTried now d₀ (b :: ps) := by
  intro _ i hi hshare
  rcases eq_or_ne ps [] with hnil | hne
  · rw [h.start hnil] at hb
    rw [(hc.first i hi hshare).unique hb]
    exact List.mem_cons_self
  · exact List.mem_cons_of_mem b (hlast hne i hi hshare)

/-- **The loop under the condition**: from where it stands with tries enough
for the servers left, it tries servers not tried before, none twice, and all of
them unless a connect ends it. -/
theorem retryLoop_covers (hc : RetryCond now d₀) (conn : Nat → Ret) (domain : Nat) :
    ∀ (k : Nat) (r : HttpRequest) (ps : List Nat) (d : ServerArr), Progress now d₀ ps d →
      (∀ i ∈ ps, Up now d₀ i) → LastTried now d₀ ps →
      (upServers now d₀ \ ps.toFinset).card ≤ k →
      ∃ qs : List Nat,
        passed (retryLoop now conn domain k r d).acts = qs.map (domain, ·) ∧
        qs.Nodup ∧ (∀ i ∈ qs, i ∉ ps) ∧
        ((retryLoop now conn domain k r d).returned = false →
          ∀ i, Up now d₀ i → i ∈ qs ∨ i ∈ ps) := by
  intro k
  induction k with
  | zero =>
      intro r ps d _ _ _ hcard
      refine ⟨[], rfl, List.nodup_nil, by simp, fun _ i hi => .inr ?_⟩
      have hempty := card_eq_zero.mp (Nat.le_zero.mp hcard)
      by_contra hips
      have hmem : i ∈ upServers now d₀ \ ps.toFinset := by simp [hi, hips]
      rw [hempty] at hmem
      exact absurd hmem (notMem_empty i)
  | succ k ih =>
      intro r ps d h hup hlast hcard
      rcases retryLoop_cases now conn r d with hno | ⟨b, hb, hret | ⟨hok, hagain⟩⟩
      · rw [retryLoop_none hno]
        have hall : ∀ i, Up now d₀ i → i ∈ ps := by
          intro i hi
          by_contra hips
          exact hno i ((hc.eligible_iff h hup hlast i).mpr ⟨hi, hips⟩)
        refine ih _ ps d h hup hlast ?_
        have hempty : upServers now d₀ \ ps.toFinset = ∅ := by
          ext i; simpa using hall i
        simp [hempty]
      · obtain ⟨hreturned, hpassed⟩ := retryLoop_return hb conn domain k r hret
        have hbps := ((hc.eligible_iff h hup hlast b).mp hb.eligible).2
        refine ⟨[b], hpassed, List.nodup_singleton b, by simpa using hbps, fun hfalse => ?_⟩
        rw [hreturned] at hfalse
        exact absurd hfalse (by decide)
      · obtain ⟨hbup, hbps⟩ := (hc.eligible_iff h hup hlast b).mp hb.eligible
        have hcard' : (upServers now d₀ \ (b :: ps).toFinset).card ≤ k := by
          have hmem : b ∈ upServers now d₀ \ ps.toFinset := by simp [hbup, hbps]
          rw [List.toFinset_cons, sdiff_insert, card_erase_of_mem hmem]
          omega
        obtain ⟨qs, hqs, hnodup, hdisj, hall⟩ :=
          ih { r with upstreamTries := r.upstreamTries + 1 } (b :: ps) (d.failed now b)
            (h.failed hbps) (by simpa [hbup] using hup) (hc.lastTried_cons h hlast hb) hcard'
        rw [retryLoop_fail hb conn domain k r hok hagain]
        refine ⟨b :: qs, ?_, ?_, ?_, ?_⟩
        · simpa [passed] using hqs
        · exact List.nodup_cons.mpr ⟨fun hbq => hdisj b hbq List.mem_cons_self, hnodup⟩
        · intro i hi
          rcases List.mem_cons.mp hi with rfl | hi
          · exact hbps
          · exact fun hips => hdisj i hi (List.mem_cons_of_mem b hips)
        · intro hfalse i hi
          rcases hall hfalse i hi with hi | hi
          · exact .inl (List.mem_cons_of_mem b hi)
          · rcases List.mem_cons.mp hi with rfl | hi
            · exact .inl List.mem_cons_self
            · exact .inr hi

/-! ## the condition is needed -/

/-- Every connect fails at once. -/
def allFail : Nat → Ret := fun _ => .error

/-- The servers tried when every connect fails at once. -/
def failing (now : BitVec 32) : Nat → ServerArr → List Nat
  | 0, _ => []
  | k + 1, d =>
      match (getServerByRoundOnce now d).1 with
      | none => failing now k d
      | some b => b :: failing now k (d.failed now b)

/-- The loop uses up all its tries when every connect fails. -/
theorem retryLoop_allFail (now : BitVec 32) (domain k : Nat) :
    ∀ (r : HttpRequest) (d : ServerArr),
      passed (retryLoop now allFail domain k r d).acts = (failing now k d).map (domain, ·) ∧
      (retryLoop now allFail domain k r d).returned = false ∧
      (retryLoop now allFail domain k r d).r.upstreamTries = r.upstreamTries + k := by
  induction k with
  | zero => exact fun r d => ⟨rfl, rfl, rfl⟩
  | succ k ih =>
      intro r d
      rcases getServerByRoundOnce_cases now d with ⟨heq, hno⟩ | ⟨b, hb, heq⟩
      · obtain ⟨hp, hret, htries⟩ := ih { r with upstreamTries := r.upstreamTries + 1 } d
        rw [retryLoop_none hno]
        simp only [failing, heq]
        exact ⟨hp, hret, by rw [htries]; dsimp only; omega⟩
      · obtain ⟨hp, hret, htries⟩ :=
          ih { r with upstreamTries := r.upstreamTries + 1 } (d.failed now b)
        rw [retryLoop_fail hb allFail domain k r (by simp [allFail]) (by simp [allFail])]
        simp only [failing, heq]
        exact ⟨by simpa [passed] using hp, hret, by rw [htries]; dsimp only; omega⟩

/-- A marked server is never tried: marks are not taken back. -/
theorem notMem_failing_of_marked (now : BitVec 32) (k : Nat) :
    ∀ d : ServerArr, Marked d.tried i → i ∉ failing now k d := by
  induction k with
  | zero => simp [failing]
  | succ k ih =>
      intro d hmark
      rcases getServerByRoundOnce_cases now d with ⟨heq, -⟩ | ⟨b, hb, heq⟩
      · simpa only [failing, heq] using ih d hmark
      · simp only [failing, heq, List.mem_cons, not_or]
        refine ⟨?_, ih _ ((marked_update _ _ _).mpr (.inl hmark))⟩
        rintro rfl
        exact ((eligible_iff_up now d i).mp hb.eligible).2 hmark

/-- The servers tried, as long as none is tried twice, were up at the start. -/
theorem up_of_mem_failing (now : BitVec 32) (k : Nat) :
    ∀ (ps : List Nat) (d : ServerArr), Progress now d₀ ps d →
      (failing now k d ++ ps).Nodup → ∀ i ∈ failing now k d, Up now d₀ i := by
  induction k with
  | zero => simp [failing]
  | succ k ih =>
      intro ps d h hnodup
      rcases getServerByRoundOnce_cases now d with ⟨heq, -⟩ | ⟨b, hb, heq⟩
      · simp only [failing, heq] at hnodup ⊢
        exact ih ps d h hnodup
      · simp only [failing, heq, List.cons_append] at hnodup ⊢
        have hbps : b ∉ ps := fun hbps =>
          (List.nodup_cons.mp hnodup).1 (List.mem_append_right _ hbps)
        have hnodup' : (failing now k (d.failed now b) ++ b :: ps).Nodup :=
          List.nodup_middle.mpr hnodup
        intro i hi
        rcases List.mem_cons.mp hi with rfl | hi
        · exact (h.up_iff hbps).mp ((eligible_iff_up now d i).mp hb.eligible).1
        · exact ih (b :: ps) _ (h.failed hbps) hnodup' i hi

/-- A server that a failure does not take down, and that never bears the mark,
stays eligible, so every try finds a server. -/
theorem length_failing_of_stays (hi : Up now d₀ i) (hmark : ¬ Marked d₀.tried i)
    (hshare : ¬ SharesMark (d₀.nelts - 1) i)
    (hstay : isServerDown now (failServer now (d₀.upstreamServer i)) = false) (k : Nat) :
    ∀ (ps : List Nat) (d : ServerArr), Progress now d₀ ps d →
      (failing now k d ++ ps).Nodup → (failing now k d).length = k := by
  induction k with
  | zero => simp [failing]
  | succ k ih =>
      intro ps d h hnodup
      have helig : d.Eligible now i := by
        refine (eligible_iff_up now d i).mpr ⟨?_, ?_⟩
        · by_cases hips : i ∈ ps
          · exact ⟨h.nelts ▸ hi.1, by rw [(h.tried i hips).isServerDown, hstay]⟩
          · exact (h.up_iff hips).mpr hi
        · rw [h.marks i]
          tauto
      rcases getServerByRoundOnce_cases now d with ⟨-, hno⟩ | ⟨b, hb, heq⟩
      · exact absurd helig (hno i)
      · simp only [failing, heq, List.cons_append] at hnodup ⊢
        have hbps : b ∉ ps := fun hbps =>
          (List.nodup_cons.mp hnodup).1 (List.mem_append_right _ hbps)
        have hnodup' : (failing now k (d.failed now b) ++ b :: ps).Nodup :=
          List.nodup_middle.mpr hnodup
        rw [List.length_cons, ih (b :: ps) _ (h.failed hbps) hnodup']

/-- The tries of the loop do what they should when every connect fails: no
server twice, and every server that is up. -/
structure Covers (now : BitVec 32) (d : ServerArr) : Prop where
  nodup : (failing now d.nelts d).Nodup
  all : ∀ i, Up now d i → i ∈ failing now d.nelts d

/-- A server that is up and marked from the start is never tried. -/
theorem Covers.unmarked (h : Covers now d) : ∀ i, Up now d i → ¬ Marked d.tried i :=
  fun i hi hmark => notMem_failing_of_marked now d.nelts d hmark (h.all i hi)

/-- A server that is up and shares the last mark is never tried unless it is
the first choice: the first selection marks it. -/
theorem Covers.first (h : Covers now d) :
    ∀ i, Up now d i → SharesMark (d.nelts - 1) i → d.IsBest now i := by
  intro i hi hshare
  have helig := (eligible_iff_up now d i).mpr ⟨hi, h.unmarked i hi⟩
  obtain ⟨n, hn⟩ : ∃ n, d.nelts = n + 1 := ⟨d.nelts - 1, by have := hi.1; omega⟩
  rcases getServerByRoundOnce_cases now d with ⟨-, hno⟩ | ⟨b, hb, heq⟩
  · exact absurd helig (hno i)
  · have hmem := h.all i hi
    rw [hn] at hmem
    simp only [failing, heq] at hmem
    rcases List.mem_cons.mp hmem with rfl | hmem
    · exact hb
    · exact absurd hmem
        (notMem_failing_of_marked now n _ ((marked_update _ _ _).mpr (.inr hshare)))

/-- Where some server is down, a server that is up and does not share the last
mark must go down by a failure, else it is tried again. -/
theorem Covers.falls (h : Covers now d) (hdown : ∃ j < d.nelts, ¬ Up now d j) :
    ∀ i, Up now d i → ¬ SharesMark (d.nelts - 1) i →
      isServerDown now (failServer now (d.upstreamServer i)) = true := by
  intro i hi hshare
  by_contra hstay
  have hnodup : (failing now d.nelts d ++ []).Nodup := by simpa using h.nodup
  have hlen := length_failing_of_stays hi (h.unmarked i hi) hshare (by simpa using hstay)
    d.nelts [] d (Progress.refl now d) hnodup
  have hup := up_of_mem_failing now d.nelts [] d (Progress.refl now d) hnodup
  obtain ⟨j, hj, hjdown⟩ := hdown
  -- as many different servers as there are, all of them up, yet one is down
  have hsub : (failing now d.nelts d).toFinset ⊆ (range d.nelts).erase j := by
    intro x hx
    have hx' := hup x (List.mem_toFinset.mp hx)
    refine mem_erase.mpr ⟨?_, mem_range.mpr hx'.1⟩
    rintro rfl
    exact hjdown hx'
  have hcard := card_le_card hsub
  rw [List.toFinset_card_of_nodup h.nodup, hlen, card_erase_of_mem (mem_range.mpr hj),
    card_range] at hcard
  omega

/-! ## one call of `get_server_by_round` -/

/-- How `init_before_round` goes. -/
theorem initBeforeRound_cases (h : initBeforeRound now block servers r target = .ok (ret, r₁, servers₁)) :
    ∃ domain, (r.curServerDomain = none → r₁.curServerDomain = some domain ∧
        ∃ name, target = some name ∧ domain = findDomain servers name) ∧
      (r.curServerDomain ≠ none → r₁.curServerDomain = r.curServerDomain) ∧
      (ret = .error ∧ servers₁ = servers ∧ resetTried block (servers.serverIpArr domain) = none ∨
        ∃ d, ret = .ok ∧ resetTried block (servers.serverIpArr domain) = some d ∧
          servers₁ = { servers with serverIpArr := update servers.serverIpArr domain (resetServers now d) }) := by
  unfold initBeforeRound at h
  by_cases hd : r.curServerDomain = none
  · cases target with
    | none => simp [hd, bind, Except.bind] at h
    | some name =>
        simp only [hd, bind, Except.bind, deref_some, pure, Except.pure, if_true] at h
        refine ⟨findDomain servers name, ?_⟩
        split at h
        · contradiction
        · split at h
          · next htried =>
            cases h
            exact ⟨fun _ => ⟨rfl, name, rfl, rfl⟩, fun hsome => absurd hd hsome, .inl ⟨rfl, rfl, htried⟩⟩
          · next d htried =>
            cases h
            exact ⟨fun _ => ⟨rfl, name, rfl, rfl⟩, fun hsome => absurd hd hsome, .inr ⟨d, rfl, htried, rfl⟩⟩
  · simp only [hd, bind, Except.bind, pure, Except.pure, if_false] at h
    refine ⟨0, fun hnone => absurd hnone hd, ?_⟩
    split at h
    · contradiction
    · split at h
      · next htried =>
        cases h
        exact ⟨fun _ => rfl, .inl ⟨rfl, rfl, htried⟩⟩
      · next d htried =>
        cases h
        exact ⟨fun _ => rfl, .inr ⟨d, rfl, htried, rfl⟩⟩

/-- `init_before_round` sets the request's domain and leaves its tries alone. -/
theorem initBeforeRound_request
    (h : initBeforeRound now block servers r target = .ok (ret, r₁, servers₁)) :
    r₁.upstreamTries = r.upstreamTries ∧ ∃ domain, r₁.curServerDomain = some domain := by
  unfold initBeforeRound at h
  by_cases hd : r.curServerDomain = none
  · cases target with
    | none => simp [hd, bind, Except.bind] at h
    | some name =>
        simp only [hd, bind, Except.bind, deref_some, pure, Except.pure, if_true] at h
        split at h
        · cases h
        · split at h <;>
            · injection h with h
              obtain ⟨-, rfl, -⟩ := h
              exact ⟨rfl, _, rfl⟩
  · obtain ⟨domain, hdomain⟩ := Option.ne_none_iff_exists'.mp hd
    simp only [hd, bind, Except.bind, pure, Except.pure, if_false] at h
    split at h
    · cases h
    · split at h <;>
        · injection h with h
          obtain ⟨-, rfl, -⟩ := h
          exact ⟨rfl, domain, hdomain⟩

/-- A call whose `init_before_round` fails does nothing. -/
theorem getServerByRound_error (conn : Nat → Ret) (hret : ret ≠ .ok)
    (h : initBeforeRound now block servers r target = .ok (ret, r₁, servers₁)) :
    getServerByRound now conn block servers r target = .ok (r₁, servers₁, []) := by
  simp [getServerByRound, h, bind, Except.bind, hret, pure, Except.pure]

/-- A call whose `init_before_round` succeeds runs the loop, and constructs the
error page if that did not return. -/
theorem getServerByRound_ok (conn : Nat → Ret)
    (h : initBeforeRound now block servers r target = .ok (.ok, r₁, servers₁))
    (hdomain : r₁.curServerDomain = some domain) :
    ∃ r' servers', getServerByRound now conn block servers r target = .ok (r', servers',
      let d := servers₁.serverIpArr domain
      let run := retryLoop now conn domain (d.nelts - r₁.upstreamTries) r₁ d
      if run.returned = false ∧ d.nelts ≤ run.r.upstreamTries then
        run.acts ++ [.constructErr 502]
      else run.acts) := by
  simp only [getServerByRound, h, bind, Except.bind, hdomain, deref_some, pure, Except.pure,
    ne_eq, not_true_eq_false, if_false]
  split
  · next hret => simp [hret]
  · next hret =>
      split
      · next htries => simp [hret, htries]
      · next htries => simp [hret, htries]

/-- The loop itself constructs no error page. -/
theorem constructErr_notMem_retryLoop (now : BitVec 32) (conn : Nat → Ret) (domain status k : Nat) :
    ∀ (r : HttpRequest) (d : ServerArr),
      Act.constructErr status ∉ (retryLoop now conn domain k r d).acts := by
  induction k with
  | zero => simp [retryLoop]
  | succ k ih =>
      intro r d
      simp only [retryLoop]
      split
      · exact ih _ _
      · split
        · simp
        · simp
        · simpa using ih _ _

/-- What one call of `get_server_by_round` owes whatever the connects do: the
servers passed to `try_connect` are different, and the error page comes only
after all servers that were up when `init_before_round` returned. -/
def RetryLaw (now : BitVec 32) (block : Option (Nat → BitVec 64)) (servers : Servers)
    (r : HttpRequest) (target : Option (List UInt8)) : Prop :=
  ∀ conn r' servers' acts,
    getServerByRound now conn block servers r target = .ok (r', servers', acts) →
    (passed acts).Nodup ∧
      (.constructErr 502 ∈ acts → ∀ r₁ servers₁ domain,
        initBeforeRound now block servers r target = .ok (.ok, r₁, servers₁) →
        r₁.curServerDomain = some domain →
        ∀ i, Up now (servers₁.serverIpArr domain) i → (domain, i) ∈ passed acts)

/-- `P` holds of the request's domain when `init_before_round` has returned. -/
def AfterInit (P : ServerArr → Prop) (now : BitVec 32) (block : Option (Nat → BitVec 64))
    (servers : Servers) (r : HttpRequest) (target : Option (List UInt8)) : Prop :=
  ∀ r₁ servers₁ domain, initBeforeRound now block servers r target = .ok (.ok, r₁, servers₁) →
    r₁.curServerDomain = some domain → P (servers₁.serverIpArr domain)

/-- The condition is enough for the law. -/
theorem retryLaw_of_cond (h0 : r.upstreamTries = 0)
    (hc : AfterInit (RetryCond now) now block servers r target) :
    RetryLaw now block servers r target := by
  intro conn r' servers' acts hrun
  cases hinit : initBeforeRound now block servers r target with
  | error fault => simp [getServerByRound, hinit, bind, Except.bind] at hrun
  | ok res =>
      obtain ⟨ret, r₁, servers₁⟩ := res
      by_cases hret : ret = .ok
      · subst hret
        obtain ⟨htries, domain, hdomain⟩ := initBeforeRound_request hinit
        obtain ⟨_, _, hrun'⟩ := getServerByRound_ok conn hinit hdomain
        rw [hrun'] at hrun
        have hacts := congrArg (fun p => p.2.2) (Except.ok.inj hrun)
        dsimp only at hacts
        rw [htries, h0, Nat.sub_zero] at hacts
        have hcond := hc r₁ servers₁ domain hinit hdomain
        obtain ⟨qs, hqs, hnodup, -, hall⟩ :=
          retryLoop_covers hcond conn domain (servers₁.serverIpArr domain).nelts r₁ []
            (servers₁.serverIpArr domain) (Progress.refl _ _) (by simp)
            (fun hne => absurd rfl hne)
            ((card_le_card sdiff_subset).trans ((card_filter_le _ _).trans (card_range _).le))
        have hpassed : passed acts = qs.map (domain, ·) := by
          rw [← hacts]
          split
          · rw [passed_append, hqs]; simp [passed]
          · exact hqs
        refine ⟨?_, fun hmem r₂ servers₂ domain₂ hinit₂ hdomain₂ i hi => ?_⟩
        · rw [hpassed]
          exact hnodup.map (Prod.mk_right_injective domain)
        · injection hinit₂ with hinit₂
          obtain ⟨-, rfl, rfl⟩ := hinit₂
          obtain rfl : domain = domain₂ := Option.some.inj (hdomain.symm.trans hdomain₂)
          have hreturned : (retryLoop now conn domain (servers₁.serverIpArr domain).nelts r₁
              (servers₁.serverIpArr domain)).returned = false := by
            by_contra hreturned
            rw [if_neg fun h => hreturned h.1] at hacts
            rw [← hacts] at hmem
            exact constructErr_notMem_retryLoop _ _ _ _ _ _ _ hmem
          have := hall hreturned i hi
          rw [hpassed]
          simpa using this
      · rw [getServerByRound_error conn hret hinit] at hrun
        have hacts := congrArg (fun p => p.2.2) (Except.ok.inj hrun)
        dsimp only at hacts
        subst hacts
        simp [passed]

/-- The law makes the loop cover the servers when every connect fails. -/
theorem covers_of_retryLaw (h0 : r.upstreamTries = 0)
    (hlaw : RetryLaw now block servers r target) :
    AfterInit (Covers now) now block servers r target := by
  intro r₁ servers₁ domain hinit hdomain
  have htries := (initBeforeRound_request hinit).1
  obtain ⟨r', servers', hrun⟩ := getServerByRound_ok allFail hinit hdomain
  obtain ⟨hp, hret, hend⟩ := retryLoop_allFail now domain
    (servers₁.serverIpArr domain).nelts r₁ (servers₁.serverIpArr domain)
  dsimp only at hrun
  rw [htries, h0, Nat.sub_zero, if_pos ⟨hret, by rw [hend]; omega⟩] at hrun
  obtain ⟨hnodup, hall⟩ := hlaw _ _ _ _ hrun
  rw [passed_append, hp] at hnodup hall
  simp only [passed, List.filterMap_cons_none, List.filterMap_nil, List.append_nil] at hnodup hall
  refine ⟨List.Nodup.of_map _ hnodup, fun i hi => ?_⟩
  have hmem := hall (by simp) r₁ servers₁ domain hinit hdomain i hi
  simpa using hmem

/-- **The retry loop**: a call that begins without tries meets its law if the
condition holds when `init_before_round` returns.  Conversely the law needs
the condition, but for a domain with all servers up, where one that a failure
does not take down may go unnoticed. -/
theorem retryLaw_cond (h0 : r.upstreamTries = 0) :
    (AfterInit (RetryCond now) now block servers r target →
      RetryLaw now block servers r target) ∧
    (RetryLaw now block servers r target →
      AfterInit (fun d => RetryCond now d ∨
          (∀ i, Up now d i → ¬ Marked d.tried i) ∧
          (∀ i, Up now d i → SharesMark (d.nelts - 1) i → d.IsBest now i) ∧
          ∀ i < d.nelts, Up now d i)
        now block servers r target) := by
  refine ⟨retryLaw_of_cond h0, fun hlaw r₁ servers₁ domain hinit hdomain => ?_⟩
  have hcov := covers_of_retryLaw h0 hlaw r₁ servers₁ domain hinit hdomain
  by_cases hdown : ∃ j < (servers₁.serverIpArr domain).nelts,
      ¬ Up now (servers₁.serverIpArr domain) j
  · exact .inl ⟨hcov.unmarked, hcov.first, hcov.falls hdown⟩
  · push Not at hdown
    exact .inr ⟨hcov.unmarked, hcov.first, hdown⟩

/-- One domain of `n` equal servers, as `upstream_process_init` leaves it in
round mode. -/
def equalServers (n : Nat) : Servers where
  serverIpArr := fun _ => upstreamProcessInit .roundMode [98] n (fun _ => {}) .zeros
  nelts := 1

/-- Two fresh servers: when the connect to the first one fails, the second one
is never tried, though it is up. -/
theorem retryLaw_fails : ¬ RetryLaw 0 none (equalServers 2) {} (some [98]) := by
  intro hlaw
  have hmem := (hlaw allFail _ _ _ rfl).2 (by decide) _ _ 0 rfl rfl 1 (by decide)
  revert hmem
  decide

/-- One domain of two fresh servers, the second one with twice the weight. -/
def weightedServers : Servers where
  serverIpArr := fun _ => upstreamProcessInit .roundMode [98] 2 (fun j => { weight := j + 1 }) .zeros
  nelts := 1

/-- The last server is chosen first, and the other one goes down by a failure. -/
theorem retryLaw_weighted : RetryLaw 0 none weightedServers {} (some [98]) := by
  refine (retryLaw_cond rfl).1 fun r₁ servers₁ domain hinit hdomain => ?_
  injection hinit with hinit
  obtain ⟨-, rfl, rfl⟩ := hinit
  obtain rfl : 0 = domain := Option.some.inj hdomain
  have htwo : ∀ i < 2, i = 0 ∨ i = 1 := fun i hi => by omega
  refine ⟨fun i hi => ?_, fun i hi hshare => ?_, fun i hi hshare => ?_⟩
  · rcases htwo i hi.1 with rfl | rfl
    · exact not_not_intro (by decide)
    · exact not_not_intro (by decide)
  · rcases htwo i hi.1 with rfl | rfl
    · exact absurd hshare.2 (by decide)
    · refine ⟨by decide, fun j hj => ?_, fun j hj _ => ?_⟩
      · rcases htwo j hj.1 with rfl | rfl
        · decide
        · decide
      · obtain rfl : j = 0 := by omega
        decide
  · rcases htwo i hi.1 with rfl | rfl
    · decide
    · exact absurd ⟨rfl, by decide⟩ hshare

end PWebServer
