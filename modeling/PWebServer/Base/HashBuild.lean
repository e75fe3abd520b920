import PWebServer.Base.HashFind

/-!
# Base.HashBuild

`hashInit` over the memory pool: if the sizes that it passes to `pMalloc` fit
into a `uint`, the table is complete.
-/

namespace PWebServer

open ByteMemory HashInit

/-- The number of buckets that is tried first. -/
def firstTried (hinit : HashInitializer) (names : List HashKey) : Nat :=
  max 1 (names.length / ((hinit.bucketSize.toNat - 8) / 20))

/-- The least number of buckets that is enough. -/
structure LeastBuckets (hinit : HashInitializer) (names : List HashKey) (size : Nat) : Prop where
  first : firstTried hinit names ≤ size
  most : size ≤ hinit.maxSize.toNat
  enough : EnoughBuckets (hinit.bucketSize.toNat - 8) names size
  least : ∀ s, firstTried hinit names ≤ s → s < size → ¬ EnoughBuckets (hinit.bucketSize.toNat - 8) names s

/-- What `hashInit` asks the pool for fits into the `uint` that `pMalloc` takes. -/
structure SizesFit (hinit : HashInitializer) (names : List HashKey) : Prop where
  test : 2 * hinit.maxSize.toNat ≤ 4294967296 - headerSize
  buckets : ∀ size, LeastBuckets hinit names size → 8 * size ≤ 4294967296 - headerSize
  elts : ∀ size, LeastBuckets hinit names size → offset size names size + cachelineSize ≤ 4294967296 - headerSize

/-- The hash struct is outside of the arena, or in a block that is live. -/
def GivenHash (h : Heap) (live : List (Nat × Nat)) (hash : Nat) : Prop :=
  hash + 12 ≤ h.data ∨ h.data + h.size ≤ hash ∨
    ∃ b ∈ live, h.address b.1 ≤ hash ∧ hash + 12 ≤ h.address b.1 + b.2

section

variable {h h' : Heap} {memsize : BitVec 32} {live : List (Nat × Nat)} {hinit hinit' : HashInitializer}
  {names : List HashKey} {t : HashBlocks} {test elts hash : Nat} {b bt bb be : Nat × Nat} {m : Nat → UInt8} {r : Ret}

/-! ## the blocks are filled -/

/-- The blocks of a table among the live blocks of a heap. -/
structure Holding (h : Heap) (live : List (Nat × Nat)) (t : HashBlocks) (bt bb be : Nat × Nat) : Prop where
  testMem : bt ∈ live
  bucketsMem : bb ∈ live
  eltsMem : be ∈ live
  test : t.test = h.address bt.1 ∧ 2 * t.size ≤ bt.2
  buckets : t.buckets = h.address bb.1 ∧ 8 * t.size ≤ bb.2
  elts : h.address be.1 ≤ t.elts ∧ t.elts + t.total ≤ h.address be.1 + be.2

/-- Writes to the blocks of a table are writes to live blocks. -/
theorem Holding.write (hb : Holding h live t bt bb be) (hs : h.Sound memsize live) (hz : h.ZeroFilled live)
    (hwrites : t.Writes h.bytes m) :
    ({ h with bytes := m } : Heap).Sound memsize live ∧ ({ h with bytes := m } : Heap).ZeroFilled live := by
  refine hs.write hz hb.testMem fun x hx => hwrites x ?_ ?_ ?_
  · have := hx bt hb.testMem
    have := hb.test
    omega
  · have := hx bb hb.bucketsMem
    have := hb.buckets
    omega
  · have := hx be hb.eltsMem
    have := hb.elts
    omega

/-- `hashInit` from the last allocation on. -/
theorem hashFill_published (hb : Holding h live t bt bb be) (hs : h.Sound memsize live) (hz : h.ZeroFilled live)
    (ht : t.Sound) (hpos : 0 < t.size) (hsmall : t.size < 2147483648)
    (hsizes : ∀ i < t.size, loadAt h.bytes t.test 2 i = if t.needed i = 0 then 8 else partSize t.size t.names i)
    (hzero : ∀ i < t.size, loadAt h.bytes t.buckets 8 i = 0) (helts : t.elts = align elts cachelineSize)
    (hashBuckets : hinit.hash + 12 ≤ t.buckets ∨ t.buckets + 8 * t.size ≤ hinit.hash)
    (hashElts : hinit.hash + 12 ≤ t.elts ∨ t.elts + t.total ≤ hinit.hash)
    (hok : hashFill hinit t.names t.test t.size t.buckets elts h = .ok (r, hinit', h')) :
    Published t hinit.hash h'.bytes := by
  obtain ⟨m₁, hm₁⟩ : ∃ m₁, m₁ = (placeBuckets t.test t.buckets t.size t.elts h.bytes).1 := ⟨_, rfl⟩
  obtain ⟨m₂, hm₂⟩ : ∃ m₂, m₂ = fillTest t.test t.size 0 m₁ := ⟨_, rfl⟩
  obtain ⟨m₃, hm₃⟩ : ∃ m₃, m₃ = fillSlots t.test t.buckets t.size t.names m₂ := ⟨_, rfl⟩
  obtain ⟨m₄, hm₄⟩ : ∃ m₄, m₄ = endBuckets t.test t.buckets t.size m₃ := ⟨_, rfl⟩
  obtain ⟨hplaced, hframe₁⟩ : t.Placed m₁ ∧ Frame h.bytes m₁ t.buckets (t.buckets + 8 * t.size) :=
    hm₁ ▸ HashBlocks.placeBuckets_spec ht hsizes hzero
  obtain ⟨hframe₂, hcleared⟩ : Frame m₁ m₂ t.test (t.test + 2 * t.size) ∧ ∀ i < t.size, loadAt m₂ t.test 2 i = 0 :=
    hm₂ ▸ fillTest_spec (by decide)
  have hplaced₂ : t.Placed m₂ := fun i hi => by
    rw [hframe₂.loadAt hi ht.testBuckets.symm]
    exact hplaced i hi
  obtain ⟨hfilled, hwrites₃⟩ : t.Filled t.names m₃ ∧ t.Writes m₂ m₃ :=
    hm₃ ▸ HashBlocks.fillSlots_spec ht hpos hplaced₂ hcleared
  obtain ⟨hcomplete, hwrites₄⟩ : t.Complete m₄ ∧ t.Writes m₃ m₄ := hm₄ ▸ HashBlocks.endBuckets_spec ht hfilled
  have hwrites : t.Writes h.bytes m₄ :=
    (((HashBlocks.writes_buckets hframe₁).trans (HashBlocks.writes_test hframe₂)).trans hwrites₃).trans hwrites₄
  obtain ⟨hs₄, -⟩ := hb.write hs hz hwrites
  unfold hashFill at hok
  dsimp only at hok
  rw [← helts, ← hm₁, ← hm₂, ← hm₃, ← hm₄, hb.test.1] at hok
  obtain ⟨h₅, hfree, hok⟩ := bind_ok hok
  cases hok
  have hframe₅ := hs₄.pFree hb.testMem hfree
  -- the blocks of the buckets are not among the headers that `pFree` writes
  have hkept : ∀ c ∈ live, ∀ x, h.address c.1 ≤ x → x < h.address c.1 + c.2 → h₅.bytes x = m₄ x :=
    fun c hc x hx hx' => hframe₅ x ((hs₄.block hc).2.2 x hx hx')
  have hbuckets := hb.buckets
  have hbelts := hb.elts
  have hcomplete₅ : t.Complete h₅.bytes := by
    refine hcomplete.congr (fun x hx hx' => ?_) (fun x hx hx' => ?_) ht
    · exact hkept bb hb.bucketsMem x (by omega) (by omega)
    · exact hkept be hb.eltsMem x (by omega) (by omega)
  obtain ⟨m₆, hm₆⟩ : ∃ m₆, m₆ = store h₅.bytes hinit.hash 8 t.buckets := ⟨_, rfl⟩
  have hframe₆ : Frame h₅.bytes m₆ hinit.hash (hinit.hash + 8) := hm₆ ▸ store_frame
  have hframe₇ : Frame m₆ (store m₆ (hinit.hash + 8) 4 t.size) (hinit.hash + 8) (hinit.hash + 8 + 4) := store_frame
  change Published t hinit.hash (store (store h₅.bytes hinit.hash 8 t.buckets) (hinit.hash + 8) 4 t.size)
  rw [← hm₆]
  refine ⟨hcomplete₅.congr (fun x hx hx' => ?_) (fun x hx hx' => ?_) ht, ?_, ?_⟩
  · exact (hframe₇ x (by omega)).trans (hframe₆ x (by omega))
  · exact (hframe₇ x (by omega)).trans (hframe₆ x (by omega))
  · have hlt : t.buckets < 256 ^ 8 := by
      have := (hs.block hb.bucketsMem).2.1
      have := hs.space
      omega
    rw [hframe₇.load (by omega), hm₆, load_store, Nat.mod_eq_of_lt hlt]
  · rw [load_store, Nat.mod_eq_of_lt (by omega)]

/-! ## the sizes are found -/

/-- The sizes that are in `test` before the blocks are allocated. -/
theorem testSizes_spec {size : Nat} {m₁ : Nat → UInt8} (hbucket : 28 ≤ hinit.bucketSize.toNat)
    (hsmall : hinit.bucketSize.toNat ≤ 32767)
    (helt : ∀ name ∈ names, hashEltSize name ≤ hinit.bucketSize.toNat - 8)
    (hfind : findSize test (hinit.bucketSize.toNat - 8) names (hinit.maxSize.toNat + 1 - firstTried hinit names)
      (firstTried hinit names) m = .ok (size, m₁)) :
    LeastBuckets hinit names size ∧ 0 < size ∧
      ∃ m₂, alignSizes test size (sumSizes test size names (fillTest test size 8 m₁)) = (m₂, offset size names size) ∧
        Frame m m₂ test (test + 2 * hinit.maxSize.toNat) ∧
        ∀ i < size, loadAt m₂ test 2 i = if needs size i names = 0 then 8 else partSize size names i := by
  have hfirst : 0 < firstTried hinit names := Nat.lt_of_lt_of_le Nat.one_pos (Nat.le_max_left _ _)
  obtain ⟨hge, hlt, henough, hleast, hframe⟩ := findSize_spec hfirst (by omega) helt hfind
  have hpos : 0 < size := Nat.lt_of_lt_of_le hfirst hge
  have hmax : size ≤ hinit.maxSize.toNat := by omega
  have hneeds : ∀ i < size, needs size i names ≤ 32759 := fun i hi => Nat.le_trans (henough i hi) (by omega)
  obtain ⟨m₃, hm₃⟩ : ∃ m₃, m₃ = fillTest test size 8 m₁ := ⟨_, rfl⟩
  obtain ⟨m₄, hm₄⟩ : ∃ m₄, m₄ = sumSizes test size names m₃ := ⟨_, rfl⟩
  obtain ⟨hframe₃, hload₃⟩ : Frame m₁ m₃ test (test + 2 * size) ∧ ∀ i < size, loadAt m₃ test 2 i = 8 :=
    hm₃ ▸ fillTest_spec (by decide)
  obtain ⟨hframe₄, hload₄⟩ : Frame m₃ m₄ test (test + 2 * size) ∧
      ∀ i < size, loadAt m₄ test 2 i = 8 + needs size i names :=
    hm₄ ▸ sumSizes_spec hpos hload₃ fun i hi => by
      have := hneeds i hi
      omega
  obtain ⟨hframe₅, hlen, hload₅⟩ := alignSizes_spec hload₄ hneeds
  rw [← hm₃, ← hm₄]
  refine ⟨⟨hge, hmax, henough, hleast⟩, hpos, (alignSizes test size m₄).1, Prod.ext rfl hlen, ?_, hload₅⟩
  have hrest : Frame m₁ (alignSizes test size m₄).1 test (test + 2 * hinit.maxSize.toNat) :=
    ((hframe₃.trans hframe₄).trans hframe₅).mono (Nat.le_refl _) (by omega)
  exact (hframe.mono (Nat.le_refl _) (by omega)).trans hrest

/-! ## the table is built -/

/-- The destination is none of the blocks that `hashInit` allocates. -/
theorem GivenHash.apart {live' : List (Nat × Nat)} (hgiven : GivenHash h live hash)
    (hs : h'.Sound memsize (b :: live')) (hlive : ∀ c ∈ live, c ∈ live') (hdata : h'.data = h.data)
    (hsize : h'.size = h.size) : hash + 12 ≤ h.address b.1 ∨ h.address b.1 + b.2 ≤ hash := by
  have haddress : ∀ k, h'.address k = h.address k := fun k => by
    unfold Heap.address
    rw [hdata]
  obtain ⟨hlow, hhigh, -⟩ := hs.block List.mem_cons_self
  rw [haddress] at hlow hhigh
  rw [hdata] at hlow hhigh
  rw [hsize] at hhigh
  obtain hbefore | hafter | ⟨c, hc, hbegin, hend⟩ := hgiven
  · omega
  · omega
  · have hapart := hs.apart (hlive c hc)
    rw [haddress, haddress] at hapart
    omega

/-- What is left of a bucket without the terminating pointer. -/
theorem bucketRoom {bucketSize : BitVec 32} (h : 8 ≤ bucketSize.toNat) :
    (bucketSize - 8).toNat = bucketSize.toNat - 8 := by
  have hlt := bucketSize.isLt
  rw [BitVec.toNat_sub]
  change (2 ^ 32 - 8 + bucketSize.toNat) % 2 ^ 32 = _
  omega

/-- What `hashInit` does for a destination that is given. -/
theorem hashInit_ok (hnull : hinit.hash ≠ 0) (hbucket : 28 ≤ hinit.bucketSize.toNat)
    (hok : hashInit hinit names h = .ok (.ok, hinit', h')) :
    (∀ name ∈ names, hashEltSize name ≤ hinit.bucketSize.toNat - 8) ∧
      ∃ test h₁ size m₁ m₂ len buckets h₂ elts h₃,
        h.pMalloc (hinit.maxSize.toNat * 2) = .ok (some test, h₁) ∧
        findSize test (hinit.bucketSize.toNat - 8) names (hinit.maxSize.toNat + 1 - firstTried hinit names)
          (firstTried hinit names) h₁.bytes = .ok (size, m₁) ∧
        alignSizes test size (sumSizes test size names (fillTest test size 8 m₁)) = (m₂, len) ∧
        ({ h₁ with bytes := m₂ } : Heap).pMalloc (size * 8) = .ok (some buckets, h₂) ∧
        h₂.pMalloc (uint (uint len + cachelineSize)) = .ok (some elts, h₃) ∧
        hashFill hinit names test size buckets elts h₃ = .ok (.ok, hinit', h') := by
  have hstart : startSize (hinit.bucketSize.toNat - 8) names.length = .ok (firstTried hinit names) := by
    unfold startSize firstTried
    rw [if_neg (by omega)]
    generalize names.length / ((hinit.bucketSize.toNat - 8) / 20) = count
    split
    · next hzero => rw [hzero]; rfl
    · rw [Nat.max_eq_right (by omega)]
  unfold hashInit at hok
  dsimp only at hok
  rw [bucketRoom (by omega)] at hok
  by_cases hkeys : keysFit hinit names = true
  · rw [if_neg (not_not.mpr hkeys)] at hok
    refine ⟨fun name hname => ?_, ?_⟩
    · have hroom := of_decide_eq_true (List.all_eq_true.mp hkeys name hname)
      omega
    · obtain ⟨⟨test, h₁⟩, htest, hok⟩ := bind_ok hok
      cases test with
      | none => cases hok
      | some test =>
          obtain ⟨start, heq, hok⟩ := bind_ok hok
          obtain rfl := Except.ok.inj (hstart.symm.trans heq)
          obtain ⟨⟨size, m₁⟩, hfind, hok⟩ := bind_ok hok
          dsimp only at hok
          rw [if_neg hnull] at hok
          obtain ⟨⟨buckets, h₂⟩, hbuckets, hok⟩ := bind_ok hok
          cases buckets with
          | none =>
              obtain ⟨_, -, hok⟩ := bind_ok hok
              cases hok
          | some buckets =>
              obtain ⟨⟨elts, h₃⟩, helts, hok⟩ := bind_ok hok
              cases elts with
              | none =>
                  obtain ⟨_, -, hok⟩ := bind_ok hok
                  cases hok
              | some elts =>
                  exact ⟨test, h₁, size, m₁, _, _, buckets, h₂, elts, h₃, htest, hfind, rfl, hbuckets, helts, hok⟩
  · rw [if_pos hkeys] at hok
    cases hok

/-- Three blocks that are allocated one after the other have room for a table. -/
theorem holding_of_allocated {h₁ h₂ h₃ : Heap} {p₁ n₁ p₂ n₂ p₃ n₃ : Nat}
    (ha₂ : h₁.Allocated memsize h₂ ((p₁, n₁) :: live) n₂ p₂)
    (ha₃ : h₂.Allocated memsize h₃ ((p₂, n₂) :: (p₁, n₁) :: live) n₃ p₃)
    (htest : t.test = h₁.address p₁ ∧ 2 * t.size ≤ n₁) (hbuckets : t.buckets = h₁.address p₂ ∧ 8 * t.size ≤ n₂)
    (helts : t.elts = align (h₁.address p₃) cachelineSize ∧ t.total + cachelineSize ≤ n₃)
    (hneeded : ∀ i < t.size, t.needed i ≤ 32759)
    (hnames : ∀ name ∈ t.names, ∃ c, name.c = some c ∧ name.len ≤ c.length) :
    t.Sound ∧ Holding h₃ ((p₃, n₃) :: (p₂, n₂) :: (p₁, n₁) :: live) t (p₁, n₁) (p₂, n₂) (p₃, n₃) := by
  have haddress : ∀ k, h₃.address k = h₁.address k := fun k => (ha₃.address k).trans (ha₂.address k)
  have hapart₁₂ := ha₂.sound.apart List.mem_cons_self
  have hapart₁₃ := ha₃.sound.apart (List.mem_cons_of_mem _ List.mem_cons_self)
  have hapart₂₃ := ha₃.sound.apart List.mem_cons_self
  obtain ⟨hlow, hhigh, -⟩ := ha₃.sound.block List.mem_cons_self
  have hspace := ha₃.sound.space
  simp only [haddress, ha₂.address] at hapart₁₂ hapart₁₃ hapart₂₃ hlow hhigh
  have halign : h₁.address p₃ ≤ t.elts ∧ t.elts + t.total < h₁.address p₃ + n₃ ∧ t.elts % 8 = 0 := by
    obtain ⟨heq, hroom⟩ := helts
    unfold align cachelineSize at *
    omega
  refine ⟨⟨?_, halign.2.2, ?_, hneeded, ?_, ?_, ?_, hnames⟩,
    ⟨List.mem_cons_of_mem _ (List.mem_cons_of_mem _ List.mem_cons_self), List.mem_cons_of_mem _ List.mem_cons_self,
      List.mem_cons_self, ?_, ?_, ?_⟩⟩
  · omega
  · omega
  · omega
  · omega
  · omega
  · exact ⟨htest.1.trans (haddress p₁).symm, htest.2⟩
  · exact ⟨hbuckets.1.trans (haddress p₂).symm, hbuckets.2⟩
  · rw [haddress]
    exact ⟨halign.1, Nat.le_of_lt halign.2.1⟩

/-- `hashInit` builds a table. -/
theorem hashInit_published (hs : h.Sound memsize live) (hz : h.ZeroFilled live) (hpos : memsize ≠ 0)
    (hgiven : GivenHash h live hinit.hash) (hnull : hinit.hash ≠ 0) (hbucket : 28 ≤ hinit.bucketSize.toNat)
    (hsmall : hinit.bucketSize.toNat ≤ 32767)
    (hnames : ∀ name ∈ names, ∃ c, name.c = some c ∧ name.len ≤ c.length) (hfits : SizesFit hinit names)
    (hok : hashInit hinit names h = .ok (.ok, hinit', h')) :
    ∃ t : HashBlocks, t.Sound ∧ t.names = names ∧ LeastBuckets hinit names t.size ∧ 0 < t.size ∧ t.size < 2147483648 ∧
      Published t hinit.hash h'.bytes := by
  obtain ⟨helt, test, h₁, size, m₁, m₂, len, buckets, h₂, elts, h₃, htest, hfind, hlen, hbuckets, helts, hfill⟩ :=
    hashInit_ok hnull hbucket hok
  obtain ⟨hleast, hsize, m₂', hlen', hframe, hsizes⟩ := testSizes_spec hbucket hsmall helt hfind
  obtain ⟨rfl, rfl⟩ := Prod.mk.inj (hlen'.symm.trans hlen)
  have hfitTest := hfits.test
  have hfitBuckets := hfits.buckets size hleast
  have hfitElts := hfits.elts size hleast
  have hmost := hleast.most
  have hneeded : ∀ i < size, needs size i names ≤ 32759 := fun i hi => Nat.le_trans (hleast.enough i hi) (by omega)
  have huint : uint (uint (offset size names size) + cachelineSize) = offset size names size + cachelineSize := by
    unfold headerSize at hfitElts
    have hoffset : uint (offset size names size) = offset size names size := uint_of_lt (by omega)
    rw [hoffset]
    exact uint_of_lt (by omega)
  rw [huint] at helts
  -- the block of the sizes, with the sizes
  obtain ⟨p₁, rfl, ha₁⟩ := hs.pMalloc hz hpos (by omega) htest
  obtain ⟨hs₁, hz₁⟩ := ha₁.sound.write (m := m₂') ha₁.zeroFilled List.mem_cons_self fun x hx => hframe x (by
    have hout := hx _ List.mem_cons_self
    simp only [ha₁.address] at hout
    omega)
  obtain ⟨h₁', hh₁'⟩ : ∃ h₁' : Heap, h₁' = { h₁ with bytes := m₂' } := ⟨_, rfl⟩
  have hbytes : h₁'.bytes = m₂' := hh₁' ▸ rfl
  have hdata : h₁'.data = h.data ∧ h₁'.size = h.size := hh₁' ▸ ⟨ha₁.data, ha₁.size⟩
  have haddress : ∀ k, h₁'.address k = h.address k := fun k => hh₁' ▸ ha₁.address k
  rw [← hh₁'] at hs₁ hz₁ hbuckets
  -- the pointers and the buckets
  obtain ⟨p₂, rfl, ha₂⟩ := hs₁.pMalloc hz₁ hpos (by omega) hbuckets
  obtain ⟨p₃, rfl, ha₃⟩ := ha₂.sound.pMalloc ha₂.zeroFilled hpos hfitElts helts
  have hapart₂ := hgiven.apart ha₂.sound (fun c hc => List.mem_cons_of_mem _ hc) (ha₂.data.trans hdata.1)
    (ha₂.size.trans hdata.2)
  have hapart₃ := hgiven.apart ha₃.sound (fun c hc => List.mem_cons_of_mem _ (List.mem_cons_of_mem _ hc))
    (ha₃.data.trans (ha₂.data.trans hdata.1)) (ha₃.size.trans (ha₂.size.trans hdata.2))
  obtain ⟨t, ht⟩ : ∃ t : HashBlocks, t =
      ⟨h.address p₁, h.address p₂, align (h.address p₃) cachelineSize, size, names⟩ := ⟨_, rfl⟩
  obtain ⟨hsound, hholding⟩ := holding_of_allocated (t := t) ha₂ ha₃
    (by rw [ht, haddress]; exact ⟨rfl, by dsimp only; omega⟩) (by rw [ht, haddress]; exact ⟨rfl, by dsimp only; omega⟩)
    (by rw [ht, haddress]; exact ⟨rfl, Nat.le_refl _⟩) (by rw [ht]; exact hneeded) (by rw [ht]; exact hnames)
  have htestEq : t.test = h.address p₁ := ht ▸ rfl
  have hbucketsEq : t.buckets = h.address p₂ := ht ▸ rfl
  have heltsEq : t.elts = align (h.address p₃) cachelineSize := ht ▸ rfl
  have hsizeEq : t.size = size := ht ▸ rfl
  have hnamesEq : t.names = names := ht ▸ rfl
  have htotal : t.total = offset size names size := ht ▸ rfl
  rw [← hnamesEq, ← hsizeEq, haddress, ← htestEq, ← hbucketsEq, ha₂.address, haddress] at hfill
  refine ⟨t, hsound, hnamesEq, hsizeEq ▸ hleast, hsizeEq ▸ hsize, by omega, ?_⟩
  -- the sizes and the pointers are still there
  have hkept : ∀ i < t.size, loadAt h₃.bytes t.test 2 i = loadAt m₂' t.test 2 i := fun i hi => by
    unfold loadAt
    refine load_congr fun x hx hx' => ?_
    have hsmallTest : x < h.address p₁ + hinit.maxSize.toNat * 2 := by omega
    rw [ha₃.bytes (b := (p₁, hinit.maxSize.toNat * 2)) (List.mem_cons_of_mem _ List.mem_cons_self), ← hbytes]
    · refine ha₂.bytes (b := (p₁, hinit.maxSize.toNat * 2)) List.mem_cons_self ?_ ?_
      · rw [haddress]
        change h.address p₁ ≤ x
        omega
      · rw [haddress]
        exact hsmallTest
    · rw [ha₂.address, haddress]
      change h.address p₁ ≤ x
      omega
    · rw [ha₂.address, haddress]
      exact hsmallTest
  have hzero : ∀ i < t.size, loadAt h₃.bytes t.buckets 8 i = 0 := fun i hi => by
    unfold loadAt
    refine load_zero fun x hx hx' => ?_
    have hsmallBuckets : x < h.address p₂ + size * 8 := by omega
    rw [ha₃.bytes (b := (p₂, size * 8)) List.mem_cons_self]
    · refine ha₂.zero x ?_ ?_
      · rw [haddress]
        omega
      · rw [haddress]
        exact hsmallBuckets
    · rw [ha₂.address, haddress]
      change h.address p₂ ≤ x
      omega
    · rw [ha₂.address, haddress]
      exact hsmallBuckets
  have hpos' : 0 < t.size := hsizeEq ▸ hsize
  refine hashFill_published hholding ha₃.sound ha₃.zeroFilled hsound hpos' (by omega) (fun i hi => ?_) hzero heltsEq ?_ ?_
    hfill
  · rw [hkept i hi, HashBlocks.needed, htestEq, hsizeEq, hnamesEq]
    exact hsizes i (hsizeEq ▸ hi)
  · have hbucketsLen : t.size * 8 ≤ size * 8 := by omega
    dsimp only at hapart₂
    omega
  · have helts' := hholding.elts
    rw [ha₃.address, ha₂.address, haddress] at helts'
    dsimp only at hapart₃ helts'
    omega

/-! ## what is found -/

variable {entries : List (List UInt8 × BitVec 64)} {e : List UInt8 × BitVec 64} {key : List UInt8} {fuel : Nat}

/-- What `hashInit` is given: a destination, a size of the buckets and keys that are
distinct, with their values. -/
structure TableInput (h : Heap) (live : List (Nat × Nat)) (hinit : HashInitializer)
    (entries : List (List UInt8 × BitVec 64)) : Prop where
  hash : hinit.hash ≠ 0
  given : GivenHash h live hinit.hash
  bucketSize : 28 ≤ hinit.bucketSize.toNat ∧ hinit.bucketSize.toNat ≤ 32767
  plain : ∀ e ∈ entries, PlainKey e.1 ∧ e.2 ≠ 0
  distinct : (entries.map Prod.fst).Nodup

theorem TableInput.published (hin : TableInput h live hinit entries) (hs : h.Sound memsize live)
    (hz : h.ZeroFilled live) (hpos : memsize ≠ 0) (hfits : SizesFit hinit (entries.map hashKeyOf))
    (hok : hashInit hinit (entries.map hashKeyOf) h = .ok (.ok, hinit', h')) :
    ∃ t : HashBlocks, t.Sound ∧ t.names = entries.map hashKeyOf ∧ LeastBuckets hinit (entries.map hashKeyOf) t.size ∧
      0 < t.size ∧ t.size < 2147483648 ∧ Published t hinit.hash h'.bytes := by
  refine hashInit_published hs hz hpos hin.given hin.hash hin.bucketSize.1 hin.bucketSize.2 (fun name hname => ?_) hfits hok
  obtain ⟨e, -, rfl⟩ := List.mem_map.mp hname
  exact ⟨e.1, rfl, Nat.le_refl _⟩

/-- `hash_find` of a key that the table was built for returns the value stored with
it. -/
theorem hashInit_hashFind (hin : TableInput h live hinit entries) (hs : h.Sound memsize live)
    (hz : h.ZeroFilled live) (hpos : memsize ≠ 0) (hfits : SizesFit hinit (entries.map hashKeyOf))
    (hok : hashInit hinit (entries.map hashKeyOf) h = .ok (.ok, hinit', h')) (he : e ∈ entries)
    (hfuel : entries.length ≤ fuel) : hashFind h'.bytes hinit.hash e.1 fuel = .ok e.2.toNat := by
  obtain ⟨t, ht, hnames, -, hsize, hsmall, hpublished⟩ := hin.published hs hz hpos hfits hok
  exact hpublished.hashFind_mem ht hsize hsmall hnames hin.plain hin.distinct he hfuel

/-- `max_size` of this size is always small enough. -/
theorem sizesFit_of_maxSize (hmax : hinit.maxSize.toNat ≤ 131071) (hsmall : hinit.bucketSize.toNat ≤ 32767) :
    SizesFit hinit names := by
  have hoffset : ∀ size, LeastBuckets hinit names size → ∀ j ≤ size, offset size names j ≤ 32768 * j := by
    intro size hleast j hj
    induction j with
    | zero => exact Nat.le_refl _
    | succ j ih =>
        have hpart := (partSize_spec (Nat.le_trans (hleast.enough j hj) (by omega))).1
        have hprev := ih (Nat.le_of_lt hj)
        rw [offset]
        omega
  refine ⟨?_, fun size hleast => ?_, fun size hleast => ?_⟩
  · unfold headerSize
    omega
  · have hmost := hleast.most
    unfold headerSize
    omega
  · have hmost := hleast.most
    have hlen := hoffset size hleast size (Nat.le_refl _)
    unfold cachelineSize headerSize
    omega

/-- A pool that has just been created, and two keys for it. -/
def freshHeap : Heap where
  bytes := fun _ => 0
  data := 65536
  memptr := none
  memSize := 65536
  size := 1048592

def twoKeys : List (List UInt8 × BitVec 64) := [([97, 106], 4096), ([101, 102], 8192)]

/-- What `hash_find` returns after `hashInit` has built a table of the two keys. -/
def foundInTable (hinit : HashInitializer) (name : List UInt8) : Option (Except Fault Nat) :=
  match hashInit hinit (twoKeys.map hashKeyOf) freshHeap with
  | .ok (.ok, _, h) => some (hashFind h.bytes hinit.hash name 3)
  | _ => none

theorem foundInTable_some (hinit : HashInitializer) (key : List UInt8) (found : Except Fault Nat)
    (h : foundInTable hinit key = some found) :
    ∃ hinit' h', hashInit hinit (twoKeys.map hashKeyOf) freshHeap = .ok (.ok, hinit', h') ∧
      hashFind h'.bytes hinit.hash key 3 = found := by
  unfold foundInTable at h
  split at h
  · next hinit' h' hok => exact ⟨hinit', h', hok, Option.some.inj h⟩
  · cases h

theorem freshHeap_sound : freshHeap.Sound 1048576 [] ∧ freshHeap.ZeroFilled [] :=
  ⟨⟨⟨rfl, rfl, .inl ⟨rfl, rfl⟩⟩, by decide, by decide⟩, ⟨fun _ _ _ _ => rfl, fun h => absurd rfl h⟩⟩

theorem twoKeys_input {maxSize : BitVec 32} : TableInput freshHeap [] ⟨1024, maxSize, 28⟩ twoKeys := by
  refine ⟨(by decide : 1024 ≠ 0), .inl (by decide : 1024 + 12 ≤ 65536),
    (by decide : 28 ≤ (28 : BitVec 32).toNat ∧ (28 : BitVec 32).toNat ≤ 32767), fun e he => ?_, by decide⟩
  have hlist : e = ([97, 106], 4096) ∨ e = ([101, 102], 8192) := by simpa [twoKeys] using he
  obtain rfl | rfl := hlist
  · exact ⟨⟨by decide, by decide, List.forall_mem_cons.mpr ⟨by decide, List.forall_mem_singleton.mpr (by decide)⟩⟩,
      by decide⟩
  · exact ⟨⟨by decide, by decide, List.forall_mem_cons.mpr ⟨by decide, List.forall_mem_singleton.mpr (by decide)⟩⟩,
      by decide⟩

/-- A table of two keys, in which one of them is looked up. -/
theorem hashInit_hashFind_twoKeys :
    ∃ hinit' h', hashInit ⟨1024, 100, 28⟩ (twoKeys.map hashKeyOf) freshHeap = .ok (.ok, hinit', h') ∧
      hashFind h'.bytes 1024 [97, 106] 3 = .ok 4096 := by
  obtain ⟨hinit', h', hok, -⟩ := foundInTable_some ⟨1024, 100, 28⟩ [97, 106] (.ok 4096)
    (by decide +kernel)
  exact ⟨hinit', h', hok, hashInit_hashFind (e := ([97, 106], 4096)) twoKeys_input freshHeap_sound.1 freshHeap_sound.2
    (by decide) (sizesFit_of_maxSize (by decide) (by decide)) hok (by simp [twoKeys]) (by decide)⟩

/-- The size of `test` is a multiple of 2^32: `pMalloc` returns a block of no bytes,
the sizes are overwritten by the next header, and a key is not found. -/
theorem hashFind_loses_key :
    TableInput freshHeap [] ⟨1024, 2147483648, 28⟩ twoKeys ∧ freshHeap.Sound 1048576 [] ∧ freshHeap.ZeroFilled [] ∧
      ∃ hinit' h', hashInit ⟨1024, 2147483648, 28⟩ (twoKeys.map hashKeyOf) freshHeap = .ok (.ok, hinit', h') ∧
        ([97, 106], 4096) ∈ twoKeys ∧ hashFind h'.bytes 1024 [97, 106] 3 = .ok 0 :=
  ⟨twoKeys_input, freshHeap_sound.1, freshHeap_sound.2, by
    obtain ⟨hinit', h', hok, hfind⟩ := foundInTable_some ⟨1024, 2147483648, 28⟩ [97, 106] (.ok 0) (by decide +kernel)
    exact ⟨hinit', h', hok, by simp [twoKeys], hfind⟩⟩

theorem LeastBuckets.unique {size size' : Nat} (h : LeastBuckets hinit names size)
    (h' : LeastBuckets hinit names size') : size = size' := by
  obtain hlt | heq | hlt := Nat.lt_trichotomy size size'
  · exact absurd h.enough (h'.least size h.first hlt)
  · exact heq
  · exact absurd h'.enough (h.least size' h'.first hlt)

/-- A bucket has keys. -/
theorem needed_ne_zero_iff {t : HashBlocks} {i : Nat} (hnames : t.names = entries.map hashKeyOf) :
    t.needed i ≠ 0 ↔ ∃ e ∈ entries, (hashKeyFunction e.1).toNat % t.size = i := by
  have hsize : ∀ xs : List (List UInt8 × BitVec 64), slotsSize (xs.map hashKeyOf) ≠ 0 ↔ xs ≠ [] := by
    intro xs
    cases xs with
    | nil => simp [slotsSize]
    | cons x xs =>
        have hpos := hashEltSize_pos (hashKeyOf x)
        rw [List.map_cons, slotsSize]
        exact iff_of_true (by omega) (List.cons_ne_nil _ _)
  rw [HashBlocks.needed, hnames, needs_eq_slotsSize, inBucket_map, hsize, ne_eq, List.filter_eq_nil_iff]
  simp

/-- `hash_find` of a string that is no key: it returns `NULL` if the string selects a
bucket that has keys, and its length is a `uint`. -/
theorem hashInit_hashFind_absent_iff (hin : TableInput h live hinit entries) (hs : h.Sound memsize live)
    (hz : h.ZeroFilled live) (hpos : memsize ≠ 0) (hfits : SizesFit hinit (entries.map hashKeyOf))
    (hok : hashInit hinit (entries.map hashKeyOf) h = .ok (.ok, hinit', h')) (hnew : key ∉ entries.map Prod.fst) :
    (∃ fuel, hashFind h'.bytes hinit.hash key fuel = .ok 0) ↔
      key.length < 4294967296 ∧ ∃ size, LeastBuckets hinit (entries.map hashKeyOf) size ∧
        ∃ e ∈ entries, (hashKeyFunction e.1).toNat % size = (hashKeyFunction key).toNat % size := by
  obtain ⟨t, ht, hnames, hleast, hsize, hsmall, hpublished⟩ := hin.published hs hz hpos hfits hok
  have hcond : (∃ size, LeastBuckets hinit (entries.map hashKeyOf) size ∧
      ∃ e ∈ entries, (hashKeyFunction e.1).toNat % size = (hashKeyFunction key).toNat % size) ↔
      t.needed ((hashKeyFunction key).toNat % t.size) ≠ 0 := by
    rw [needed_ne_zero_iff hnames]
    constructor
    · rintro ⟨size, hsize', hfound⟩
      obtain rfl := hsize'.unique hleast
      exact hfound
    · exact fun hfound => ⟨t.size, hleast, hfound⟩
  rw [hcond]
  by_cases hlen : key.length < 4294967296
  · have hfind : ∀ fuel, entries.length < fuel → hashFind h'.bytes hinit.hash key fuel =
        if t.needed ((hashKeyFunction key).toNat % t.size) = 0 then .error .null else .ok 0 := fun fuel =>
      hpublished.hashFind_notMem ht hsize hsmall hnames hin.plain hlen hnew
    constructor
    · rintro ⟨fuel, hfound⟩
      refine ⟨hlen, fun hzero => ?_⟩
      rw [hpublished.hashFind_eq ht hsize hsmall hlen rfl, if_pos hzero] at hfound
      cases hfound
    · rintro ⟨-, hne⟩
      refine ⟨entries.length + 1, ?_⟩
      rw [hfind _ (Nat.lt_succ_self _), if_neg hne]
  · refine iff_of_false ?_ fun h => hlen h.1
    rintro ⟨fuel, hfound⟩
    rw [hashFind, if_pos (Nat.le_of_not_lt hlen)] at hfound
    cases hfound

/-- A name that is no key, in the bucket of one. -/
theorem hashInit_hashFind_absent_twoKeys :
    ∃ hinit' h', hashInit ⟨1024, 100, 28⟩ (twoKeys.map hashKeyOf) freshHeap = .ok (.ok, hinit', h') ∧
      hashFind h'.bytes 1024 [5] 3 = .ok 0 ∧ ∃ size, LeastBuckets ⟨1024, 100, 28⟩ (twoKeys.map hashKeyOf) size ∧
        ∃ e ∈ twoKeys, (hashKeyFunction e.1).toNat % size = (hashKeyFunction [5]).toNat % size := by
  obtain ⟨hinit', h', hok, hfind⟩ := foundInTable_some ⟨1024, 100, 28⟩ [5] (.ok 0)
    (by decide +kernel)
  have hnew : [5] ∉ twoKeys.map Prod.fst := by decide
  have hiff := hashInit_hashFind_absent_iff twoKeys_input freshHeap_sound.1 freshHeap_sound.2 (by decide)
    (sizesFit_of_maxSize (by decide) (by decide)) hok hnew
  exact ⟨hinit', h', hok, hfind, (hiff.mp ⟨3, hfind⟩).2⟩

/-- The empty name selects a bucket without keys, whose pointer is null. -/
theorem hashFind_empty_name :
    TableInput freshHeap [] ⟨1024, 100, 28⟩ twoKeys ∧ freshHeap.Sound 1048576 [] ∧ freshHeap.ZeroFilled [] ∧
      ∃ hinit' h', hashInit ⟨1024, 100, 28⟩ (twoKeys.map hashKeyOf) freshHeap = .ok (.ok, hinit', h') ∧
        [] ∉ twoKeys.map Prod.fst ∧ hashFind h'.bytes 1024 [] 3 = .error .null :=
  ⟨twoKeys_input, freshHeap_sound.1, freshHeap_sound.2, by
    obtain ⟨hinit', h', hok, hfind⟩ := foundInTable_some ⟨1024, 100, 28⟩ [] (.error .null) (by decide +kernel)
    exact ⟨hinit', h', hok, by decide, hfind⟩⟩

/-! ## the estimate -/

/-- The estimate of the number of buckets does not divide by zero if a bucket has
room for the estimated size of a key. -/
theorem startSize_ok_iff (hne : names ≠ []) (hfit : keysFit hinit names = true) :
    (∃ start, startSize (hinit.bucketSize - 8).toNat names.length = .ok start) ↔ 28 ≤ hinit.bucketSize.toNat := by
  obtain ⟨name, hname⟩ := List.exists_mem_of_ne_nil names hne
  have hroom := of_decide_eq_true (List.all_eq_true.mp hfit name hname)
  have helt : 16 ≤ hashEltSize name := by
    unfold hashEltSize align
    omega
  rw [bucketRoom (by omega)]
  unfold startSize
  by_cases hzero : (hinit.bucketSize.toNat - 8) / 20 = 0
  · rw [if_pos hzero]
    exact iff_of_false (fun h => h.elim fun _ heq => by cases heq) (by omega)
  · rw [if_neg hzero]
    exact iff_of_true ⟨_, rfl⟩ (by omega)

/-- A key of one byte in the smallest bucket that has room for two keys. -/
theorem startSize_ok_aj :
    ∃ start, startSize ((28 : BitVec 32) - 8).toNat [hashKeyOf ([97], 4096)].length = .ok start :=
  have hfit : keysFit ⟨1024, 100, 28⟩ [hashKeyOf ([97], 4096)] = true := by decide
  (startSize_ok_iff (by decide) hfit).mpr (by decide)

/-- A key of one byte in the smallest bucket that has room for it. -/
theorem hashInit_divides_by_zero :
    keysFit ⟨1024, 100, 24⟩ [hashKeyOf ([97], 4096)] = true ∧
      ¬ ∃ start, startSize ((24 : BitVec 32) - 8).toNat [hashKeyOf ([97], 4096)].length = .ok start :=
  ⟨by decide, fun h => h.elim fun _ heq => by cases heq⟩

end

end PWebServer
