import PWebServer.Base.HashBuild

/-!
# Base.HashRoom

When `hashInit` builds a table: the blocks are cut out one behind the other, so it
is enough that the block allocated last has free units behind it for all of them,
and that some number of buckets up to `max_size` is enough for the keys.
-/

namespace PWebServer

open ByteMemory HashInit

namespace Heap

variable {h h' : Heap} {memsize : BitVec 32} {live : List (Nat × Nat)} {m : Nat → UInt8} {b : Nat × Nat}
  {nbytes x k : Nat}

/-! ## the next block -/

/-- The free units behind the block at which `pMalloc` starts to search. -/
def room (h : Heap) : Nat := (h.entry.2.header h.entry.1).freesize

/-- No header is outside of the arena. -/
theorem Sound.not_inHeader (hs : h.Sound memsize (b :: live)) (hx : x < h.data ∨ h.data + h.size ≤ x) :
    ¬ h.InHeader (b :: live) x := by
  rintro ⟨hlow, hin⟩
  obtain ⟨m, all, -, -, hblocks⟩ := hs.blocks List.mem_cons_self
  rw [← mem_all hblocks] at hin
  obtain ⟨-, hpos, hbound⟩ := hblocks.holds.tiles.bounds hin
  have hmem := hs.memSize
  have hsize : (⟨h.pool, b :: live⟩ : MemoryRun).pool.memSize = h.memSize := rfl
  have hpool : h.pool.memSize = h.memSize := rfl
  have hused := hblocks.holds.used _ hin
  unfold MemoryPool.blockSize at hbound
  unfold unit headerSize at *
  omega

/-- `pMalloc` writes into the arena only. -/
theorem Allocated.frame_arena {ap : Nat} (ha : Allocated memsize h h' live nbytes ap) :
    Frame h.bytes h'.bytes h.data (h.data + h.size) := by
  intro x hx
  have hunit : h'.unit x = h.unit x := by
    unfold unit
    rw [ha.data]
  refine ha.frame x fun hin => ha.sound.not_inHeader (x := x) ?_ ⟨?_, ?_⟩
  · rw [ha.data, ha.size]
    exact hx
  · rw [ha.data]
    exact hin.1
  · rw [hunit]
    exact hin.2

/-- A block for which there is room is allocated, next to the one before it. -/
theorem Sound.pMalloc_of_room (hs : h.Sound memsize live) (hz : h.ZeroFilled live) (hpos : memsize ≠ 0)
    (hbytes : nbytes ≤ 4294967296 - headerSize) (hroom : MemoryPool.nunits nbytes ≤ h.room) :
    ∃ ap h', h.pMalloc nbytes = .ok (some (h.address ap), h') ∧ Allocated memsize h h' live nbytes ap ∧
      h'.room = h.room - MemoryPool.nunits nbytes := by
  obtain ⟨all, hmem, hs₁, hblocks, -⟩ := hs.entry hz hpos
  have huint : uint nbytes = nbytes := uint_of_lt (by unfold headerSize at hbytes; omega)
  obtain ⟨memptr, h₁, hentry⟩ : ∃ memptr h₁, h.entry = (memptr, h₁) := ⟨_, _, rfl⟩
  unfold room at hroom
  rw [hentry] at hmem hs₁ hblocks hroom
  dsimp only at hmem hs₁ hblocks hroom
  have hfind : h₁.pool.findFit memptr (MemoryPool.nunits nbytes) (h₁.memSize + 1) memptr = .ok memptr := by
    have hshort : ¬ (h₁.pool.mem memptr).freesize < MemoryPool.nunits nbytes := Nat.not_lt.mpr hroom
    rw [MemoryPool.findFit, if_neg fun hno => hshort hno.2]
  have hm : h.pMalloc nbytes =
      .ok (some (h₁.address (memptr + (h₁.header memptr).usedsize + 1)), h₁.carve memptr (MemoryPool.nunits nbytes)) := by
    unfold Heap.pMalloc
    rw [huint, hentry]
    simp only [hfind, bind, Except.bind, if_neg (Nat.not_lt.mpr hroom)]
    rfl
  obtain ⟨ap, hap, ha⟩ := hs.pMalloc hz hpos hbytes hm
  have hused : 0 < (h₁.header memptr).usedsize := hblocks.holds.used memptr hmem
  have hnew : h₁.address (memptr + (h₁.header memptr).usedsize) < 256 ^ 8 := by
    have hbound := (hblocks.holds.tiles.bounds hmem).2.2
    have hblock : (⟨h₁.pool, live⟩ : MemoryRun).pool.blockSize memptr =
      (h₁.header memptr).usedsize + (h₁.header memptr).freesize := rfl
    have hsize : (⟨h₁.pool, live⟩ : MemoryRun).pool.memSize = h₁.memSize := rfl
    have := hs₁.memSize
    have := hs₁.space
    have := (MemoryRun.Blocks.nunits_spec hbytes).1
    unfold address headerSize
    omega
  have hpool := carve_pool (n := MemoryPool.nunits nbytes) hs₁.data hnew (Nat.mod_lt _ (by decide))
  have hlt := (fits_header hs₁.data_lt memptr).freesize
  refine ⟨ap, _, hap ▸ hm, ha, ?_⟩
  unfold room
  rw [hentry]
  change ((h₁.carve memptr (MemoryPool.nunits nbytes)).pool.mem (memptr + (h₁.pool.mem memptr).usedsize)).freesize = _
  rw [hpool, MemoryPool.carve_mem_new hused]
  exact uint_of_lt (Nat.lt_of_le_of_lt (Nat.sub_le _ _) hlt)

/-- The headers are as they were when live blocks are written to. -/
theorem Sound.header_write (hs : h.Sound memsize live) (hk : IsHeader live k)
    (hframe : ∀ x, (∀ c ∈ live, x < h.address c.1 ∨ h.address c.1 + c.2 ≤ x) → m x = h.bytes x) :
    ({ h with bytes := m } : Heap).header k = h.header k := by
  refine header_congr rfl fun x hx hx' => hframe x fun c hc => ?_
  by_contra hin
  refine (hs.block hc).2.2 x (by omega) (by omega) ⟨?_, ?_⟩
  · unfold address at hx
    omega
  · have hunit : h.unit x = k := by
      unfold address unit headerSize at *
      omega
    rw [hunit]
    exact hk

/-- There is as much room as before when live blocks are written to. -/
theorem Sound.room_write (hs : h.Sound memsize live) (hb : b ∈ live)
    (hframe : ∀ x, (∀ c ∈ live, x < h.address c.1 ∨ h.address c.1 + c.2 ≤ x) → m x = h.bytes x) :
    ({ h with bytes := m } : Heap).room = h.room := by
  obtain ⟨memptr, all, hptr, hmem, hblocks⟩ := hs.blocks hb
  have hheader := hs.header_write ((mem_all hblocks).mp hmem) hframe
  unfold room Heap.entry
  dsimp only
  rw [hptr]
  exact congrArg Header.freesize hheader

/-- A live block is freed. -/
theorem Sound.pFree_ok (hs : h.Sound memsize live) (hb : b ∈ live) :
    ∃ h', h.pFree (h.address b.1) = .ok h' ∧ Frame h.bytes h'.bytes h.data (h.data + h.size) := by
  obtain ⟨m, all, hptr, hm, hblocks⟩ := hs.blocks hb
  obtain ⟨k, hk, heq, hne, -⟩ := exists_header hblocks hb
  obtain ⟨before, q, after, rfl, hfind⟩ := hblocks.holds.findPrev hm hk hne
  have hunit : h.unit (h.address b.1) - 1 = k := by rw [unit_address, heq, Nat.add_sub_cancel]
  have hok : h.pFree (h.address b.1) = .ok (h.join q k) := by
    have hfind' : h.pool.findPrev m k (h.memSize + 1) m (h.header m).next = .ok (q, some k) := hfind
    unfold Heap.pFree
    rw [hunit, hptr, deref_some]
    simp only [bind, Except.bind, hfind', ne_eq, not_true_eq_false, if_false, pure, Except.pure]
  refine ⟨_, hok, fun x hx => hs.pFree hb hok x ?_⟩
  obtain ⟨c, rest, rfl⟩ := List.exists_cons_of_ne_nil (List.ne_nil_of_mem hb)
  exact hs.not_inHeader hx

end Heap

section

variable {h h' : Heap} {memsize : BitVec 32} {live : List (Nat × Nat)} {hinit : HashInitializer}
  {names : List HashKey} {t : HashBlocks} {test elts size s : Nat} {b bt bb be : Nat × Nat} {m : Nat → UInt8}

/-! ## the number of buckets -/

/-- A number of buckets is found if there is one that is enough. -/
theorem findSize_ok {left start bucketSize : Nat} (hstart : 0 < start) (hsmall : 2 * bucketSize < 65536)
    (helt : ∀ name ∈ names, hashEltSize name ≤ bucketSize) (henough : EnoughBuckets bucketSize names s)
    (hle : start ≤ s) (hlt : s < start + left) : ∃ r, findSize test bucketSize names left start m = .ok r := by
  induction left generalizing start m with
  | zero => omega
  | succ left ih =>
      obtain ⟨-, htry⟩ := testNames_spec hstart hsmall helt (clearTest_spec (m := m)).2 fun _ _ => Nat.zero_le _
      simp only [Nat.zero_add] at htry
      rw [findSize]
      cases htested : testNames test start bucketSize (clearTest test start m) names with
      | mk m₁ fits =>
          cases fits with
          | true => exact ⟨_, rfl⟩
          | false =>
              rw [htested] at htry
              obtain rfl | hlater := Nat.eq_or_lt_of_le hle
              · cases htry.mpr henough
              · exact ih (by omega) hlater (by omega)

/-- The estimate does not divide by zero. -/
theorem startSize_eq (hbucket : 28 ≤ hinit.bucketSize.toNat) :
    startSize (hinit.bucketSize.toNat - 8) names.length = .ok (firstTried hinit names) := by
  unfold startSize firstTried
  rw [if_neg (by omega)]
  generalize names.length / ((hinit.bucketSize.toNat - 8) / 20) = count
  split
  · next hzero => rw [hzero]; rfl
  · rw [Nat.max_eq_right (by omega)]

/-! ## the blocks are allocated -/

/-- The blocks of a table are there, with the sizes of the buckets in one of them. -/
structure Laid (memsize : BitVec 32) (h : Heap) (live : List (Nat × Nat)) (t : HashBlocks) (elts : Nat)
    (bt bb be : Nat × Nat) : Prop where
  heap : h.Sound memsize live
  zeroFilled : h.ZeroFilled live
  holding : Holding h live t bt bb be
  table : t.Sound
  pos : 0 < t.size
  sizes : ∀ i < t.size, loadAt h.bytes t.test 2 i = if t.needed i = 0 then 8 else partSize t.size t.names i
  zero : ∀ i < t.size, loadAt h.bytes t.buckets 8 i = 0
  elts : t.elts = align elts cachelineSize

/-- The units that the blocks of a table take. -/
def tableUnits (hinit : HashInitializer) (names : List HashKey) (size : Nat) : Nat :=
  MemoryPool.nunits (hinit.maxSize.toNat * 2) + MemoryPool.nunits (size * 8) +
    MemoryPool.nunits (offset size names size + cachelineSize)

/-- What the table is to be built for: a hash struct in a live block, keys that
fit in so many buckets, and room for the blocks. -/
structure TableRoom (h : Heap) (live : List (Nat × Nat)) (hinit : HashInitializer) (names : List HashKey)
    (size : Nat) : Prop where
  hash : ∃ b ∈ live, h.address b.1 ≤ hinit.hash ∧ hinit.hash + 12 ≤ h.address b.1 + b.2
  bucketSize : 28 ≤ hinit.bucketSize.toNat ∧ hinit.bucketSize.toNat ≤ 32767
  elt : ∀ name ∈ names, hashEltSize name ≤ hinit.bucketSize.toNat - 8
  text : ∀ name ∈ names, ∃ c, name.c = some c ∧ name.len ≤ c.length
  fits : SizesFit hinit names
  least : LeastBuckets hinit names size
  room : tableUnits hinit names size ≤ h.room

/-- `hashInit` gets to the blocks, and writes to the arena only. -/
theorem hashInit_laid (hs : h.Sound memsize live) (hz : h.ZeroFilled live) (hpos : memsize ≠ 0)
    (hr : TableRoom h live hinit names size) : ∃ t elts h₃ bt bb be live',
      Laid memsize h₃ live' t elts bt bb be ∧ t.names = names ∧ t.size = size ∧
        (∀ c ∈ live, c ∈ live') ∧ h₃.data = h.data ∧ h₃.size = h.size ∧
        (hinit.hash + 12 ≤ t.buckets ∨ t.buckets + 8 * t.size ≤ hinit.hash) ∧
        (hinit.hash + 12 ≤ t.elts ∨ t.elts + t.total ≤ hinit.hash) ∧
        Frame h.bytes h₃.bytes h.data (h.data + h.size) ∧
        hashInit hinit names h = hashFill hinit t.names t.test t.size t.buckets elts h₃ := by
  obtain ⟨hbucket, hsmall⟩ := hr.bucketSize
  have hgiven : GivenHash h live hinit.hash := .inr (.inr hr.hash)
  have hfirst : 0 < firstTried hinit names := Nat.lt_of_lt_of_le Nat.one_pos (Nat.le_max_left _ _)
  have hfitTest := hr.fits.test
  have hfitBuckets := hr.fits.buckets size hr.least
  have hfitElts := hr.fits.elts size hr.least
  have hle := hr.least.first
  have hmost := hr.least.most
  have hroom := hr.room
  unfold tableUnits at hroom
  -- the block of the sizes, with the sizes
  obtain ⟨p₁, h₁, htest, ha₁, hroom₁⟩ := hs.pMalloc_of_room hz hpos
    (show hinit.maxSize.toNat * 2 ≤ 4294967296 - headerSize by omega) (by omega)
  obtain ⟨⟨size', m₁⟩, hfind⟩ : ∃ r, findSize (h.address p₁) (hinit.bucketSize.toNat - 8) names
      (hinit.maxSize.toNat + 1 - firstTried hinit names) (firstTried hinit names) h₁.bytes = .ok r :=
    findSize_ok hfirst (by omega) hr.elt hr.least.enough hle (by omega)
  obtain ⟨hleast, hsize, m₂, hlen, hframe, hsizes⟩ := testSizes_spec hbucket hsmall hr.elt hfind
  obtain rfl := hleast.unique hr.least
  have hneeded : ∀ i < size', needs size' i names ≤ 32759 := fun i hi => Nat.le_trans (hleast.enough i hi) (by omega)
  have hwrite : ∀ x, (∀ c ∈ (p₁, hinit.maxSize.toNat * 2) :: live, x < h₁.address c.1 ∨ h₁.address c.1 + c.2 ≤ x) →
      m₂ x = h₁.bytes x := fun x hx => hframe x (by
    have hout := hx _ List.mem_cons_self
    simp only [ha₁.address] at hout
    omega)
  obtain ⟨hs₁, hz₁⟩ := ha₁.sound.write ha₁.zeroFilled List.mem_cons_self hwrite
  have hroomWrite := ha₁.sound.room_write List.mem_cons_self hwrite
  obtain ⟨h₁', hh₁'⟩ : ∃ h₁' : Heap, h₁' = { h₁ with bytes := m₂ } := ⟨_, rfl⟩
  have hbytes : h₁'.bytes = m₂ := hh₁' ▸ rfl
  have hdata : h₁'.data = h.data ∧ h₁'.size = h.size := hh₁' ▸ ⟨ha₁.data, ha₁.size⟩
  have haddress : ∀ k, h₁'.address k = h.address k := fun k => hh₁' ▸ ha₁.address k
  rw [← hh₁'] at hs₁ hz₁ hroomWrite
  -- the pointers and the buckets
  obtain ⟨p₂, h₂, hbuckets, ha₂, hroom₂⟩ := hs₁.pMalloc_of_room hz₁ hpos
    (show size' * 8 ≤ 4294967296 - headerSize by omega) (by omega)
  obtain ⟨p₃, h₃, helts, ha₃, -⟩ := ha₂.sound.pMalloc_of_room ha₂.zeroFilled hpos hfitElts (by omega)
  have hdata₂ : h₂.data = h.data ∧ h₂.size = h.size := ⟨ha₂.data.trans hdata.1, ha₂.size.trans hdata.2⟩
  have hdata₃ : h₃.data = h.data ∧ h₃.size = h.size := ⟨ha₃.data.trans hdata₂.1, ha₃.size.trans hdata₂.2⟩
  have hapart₂ := hgiven.apart ha₂.sound (fun c hc => List.mem_cons_of_mem _ hc) hdata₂.1 hdata₂.2
  have hapart₃ := hgiven.apart ha₃.sound (fun c hc => List.mem_cons_of_mem _ (List.mem_cons_of_mem _ hc)) hdata₃.1 hdata₃.2
  obtain ⟨t, ht⟩ : ∃ t : HashBlocks, t =
      ⟨h.address p₁, h.address p₂, align (h.address p₃) cachelineSize, size', names⟩ := ⟨_, rfl⟩
  obtain ⟨hsound, hholding⟩ := holding_of_allocated (t := t) ha₂ ha₃
    (by rw [ht, haddress]; exact ⟨rfl, by dsimp only; omega⟩) (by rw [ht, haddress]; exact ⟨rfl, by dsimp only; omega⟩)
    (by rw [ht, haddress]; exact ⟨rfl, Nat.le_refl _⟩) (by rw [ht]; exact hneeded) (by rw [ht]; exact hr.text)
  -- the sizes and the pointers are still there
  have hkept : ∀ i < size', loadAt h₃.bytes (h.address p₁) 2 i = loadAt m₂ (h.address p₁) 2 i := fun i hi => by
    unfold loadAt
    refine load_congr fun x hx hx' => ?_
    have hin : h₁'.address p₁ ≤ x ∧ x < h₁'.address p₁ + hinit.maxSize.toNat * 2 := by
      rw [haddress]
      omega
    rw [ha₃.bytes (b := (p₁, hinit.maxSize.toNat * 2)) (List.mem_cons_of_mem _ List.mem_cons_self), ← hbytes]
    · exact ha₂.bytes (b := (p₁, hinit.maxSize.toNat * 2)) List.mem_cons_self hin.1 hin.2
    · rw [ha₂.address]
      exact hin.1
    · rw [ha₂.address]
      exact hin.2
  have hzero : ∀ i < size', loadAt h₃.bytes (h.address p₂) 8 i = 0 := fun i hi => by
    unfold loadAt
    refine load_zero fun x hx hx' => ?_
    have hin : h₁'.address p₂ ≤ x ∧ x < h₁'.address p₂ + size' * 8 := by
      rw [haddress]
      omega
    rw [ha₃.bytes (b := (p₂, size' * 8)) List.mem_cons_self]
    · exact ha₂.zero x hin.1 hin.2
    · rw [ha₂.address]
      exact hin.1
    · rw [ha₂.address]
      exact hin.2
  refine ⟨t, h.address p₃, h₃, _, _, _, _, ⟨ha₃.sound, ha₃.zeroFilled, hholding, hsound, by rw [ht]; exact hsize,
    by rw [ht]; exact fun i hi => (hkept i hi).trans (hsizes i hi), by rw [ht]; exact hzero, by rw [ht]⟩, by rw [ht],
    by rw [ht], fun c hc => List.mem_cons_of_mem _ (List.mem_cons_of_mem _ (List.mem_cons_of_mem _ hc)), hdata₃.1,
    hdata₃.2, ?_, ?_, ?_, ?_⟩
  · rw [ht]
    dsimp only at hapart₂ ⊢
    omega
  · have helts' := hholding.elts
    rw [ha₃.address, ha₂.address, haddress] at helts'
    dsimp only at hapart₃ helts'
    omega
  · obtain ⟨hlow, hhigh, -⟩ := ha₁.sound.block List.mem_cons_self
    rw [ha₁.address, ha₁.data] at hlow
    rw [ha₁.address, ha₁.data, ha₁.size] at hhigh
    have hframe₁ : Frame h₁.bytes h₁'.bytes h.data (h.data + h.size) := by
      rw [hbytes]
      exact hframe.mono (Nat.le_of_lt hlow) (by dsimp only at hhigh; omega)
    have hframe₂ := ha₂.frame_arena
    have hframe₃ := ha₃.frame_arena
    rw [hdata.1, hdata.2] at hframe₂
    rw [hdata₂.1, hdata₂.2] at hframe₃
    exact ((ha₁.frame_arena.trans hframe₁).trans hframe₂).trans hframe₃
  · have hkeys : keysFit hinit names = true := List.all_eq_true.mpr fun name hname => decide_eq_true (by
      have := hr.elt name hname
      omega)
    have huint : uint (uint (offset size' names size') + cachelineSize) = offset size' names size' + cachelineSize := by
      unfold headerSize at hfitElts
      have hoffset : uint (offset size' names size') = offset size' names size' := uint_of_lt (by omega)
      rw [hoffset]
      exact uint_of_lt (by omega)
    have hnull : hinit.hash ≠ 0 := by
      obtain ⟨b, hb, hbegin, -⟩ := hr.hash
      have hlow := (hs.block hb).1
      omega
    rw [haddress] at hbuckets
    rw [ha₂.address, haddress] at helts
    rw [ht]
    unfold hashInit
    simp only [hkeys, not_true_eq_false, if_false, htest, bind, Except.bind, pure, Except.pure, startSize_eq hbucket,
      bucketRoom (show 8 ≤ hinit.bucketSize.toNat by omega), hfind, hlen, hnull, ← hh₁', hbuckets, huint, helts]

/-! ## the table is built -/

/-- `hashInit` from the last allocation on: it writes to the arena, where the hash
struct is, too. -/
theorem Laid.hashFill_ok (hl : Laid memsize h live t elts bt bb be)
    (hhash : h.data ≤ hinit.hash ∧ hinit.hash + 12 ≤ h.data + h.size) :
    ∃ h', hashFill hinit t.names t.test t.size t.buckets elts h = .ok (.ok, hinit, h') ∧
      Frame h.bytes h'.bytes h.data (h.data + h.size) := by
  obtain ⟨m₁, hm₁⟩ : ∃ m₁, m₁ = (placeBuckets t.test t.buckets t.size t.elts h.bytes).1 := ⟨_, rfl⟩
  obtain ⟨m₂, hm₂⟩ : ∃ m₂, m₂ = fillTest t.test t.size 0 m₁ := ⟨_, rfl⟩
  obtain ⟨m₃, hm₃⟩ : ∃ m₃, m₃ = fillSlots t.test t.buckets t.size t.names m₂ := ⟨_, rfl⟩
  obtain ⟨m₄, hm₄⟩ : ∃ m₄, m₄ = endBuckets t.test t.buckets t.size m₃ := ⟨_, rfl⟩
  obtain ⟨hplaced, hframe₁⟩ : t.Placed m₁ ∧ Frame h.bytes m₁ t.buckets (t.buckets + 8 * t.size) :=
    hm₁ ▸ HashBlocks.placeBuckets_spec hl.table hl.sizes hl.zero
  obtain ⟨hframe₂, hcleared⟩ : Frame m₁ m₂ t.test (t.test + 2 * t.size) ∧ ∀ i < t.size, loadAt m₂ t.test 2 i = 0 :=
    hm₂ ▸ fillTest_spec (by decide)
  have hplaced₂ : t.Placed m₂ := fun i hi => by
    rw [hframe₂.loadAt hi hl.table.testBuckets.symm]
    exact hplaced i hi
  obtain ⟨hfilled, hwrites₃⟩ : t.Filled t.names m₃ ∧ t.Writes m₂ m₃ :=
    hm₃ ▸ HashBlocks.fillSlots_spec hl.table hl.pos hplaced₂ hcleared
  obtain ⟨-, hwrites₄⟩ : t.Complete m₄ ∧ t.Writes m₃ m₄ := hm₄ ▸ HashBlocks.endBuckets_spec hl.table hfilled
  have hwrites : t.Writes h.bytes m₄ :=
    (((HashBlocks.writes_buckets hframe₁).trans (HashBlocks.writes_test hframe₂)).trans hwrites₃).trans hwrites₄
  obtain ⟨hs₄, -⟩ := hl.holding.write hl.heap hl.zeroFilled hwrites
  obtain ⟨h₅, hfree, hframe₅⟩ : ∃ h₅, ({ h with bytes := m₄ } : Heap).pFree (h.address bt.1) = .ok h₅ ∧
      Frame m₄ h₅.bytes h.data (h.data + h.size) := hs₄.pFree_ok hl.holding.testMem
  have hframe₄ : Frame h.bytes m₄ h.data (h.data + h.size) := by
    have htest := hl.heap.block hl.holding.testMem
    have hbuckets := hl.heap.block hl.holding.bucketsMem
    have helts := hl.heap.block hl.holding.eltsMem
    have := hl.holding.test
    have := hl.holding.buckets
    have := hl.holding.elts
    exact fun x hx => hwrites x (by omega) (by omega) (by omega)
  obtain ⟨m₆, hm₆⟩ : ∃ m₆, m₆ = store h₅.bytes hinit.hash 8 t.buckets := ⟨_, rfl⟩
  have hframe₆ : Frame h₅.bytes m₆ hinit.hash (hinit.hash + 8) := hm₆ ▸ store_frame
  have hframe₇ : Frame m₆ (store m₆ (hinit.hash + 8) 4 t.size) (hinit.hash + 8) (hinit.hash + 8 + 4) := store_frame
  refine ⟨{ h₅ with bytes := store m₆ (hinit.hash + 8) 4 t.size }, ?_,
    ((hframe₄.trans hframe₅).trans (hframe₆.mono hhash.1 (by omega))).trans (hframe₇.mono (by omega) (by omega))⟩
  unfold hashFill
  dsimp only
  rw [← hl.elts, ← hm₁, ← hm₂, ← hm₃, ← hm₄, hl.holding.test.1]
  simp only [hfree, bind, Except.bind, pure, Except.pure, hm₆]

/-- What is read of a table lies in these bytes. -/
structure Within (t : HashBlocks) (hash a n : Nat) : Prop where
  hash : a ≤ hash ∧ hash + 12 ≤ a + n
  buckets : a ≤ t.buckets ∧ t.buckets + 8 * t.size ≤ a + n
  elts : a ≤ t.elts ∧ t.elts + t.total ≤ a + n

/-- `hashInit` builds a table if there is room for it, in the arena, and writes to
the arena only. -/
theorem hashInit_of_room (hs : h.Sound memsize live) (hz : h.ZeroFilled live) (hpos : memsize ≠ 0)
    (hr : TableRoom h live hinit names size) (hsmall : size < 2147483648) :
    ∃ t h', hashInit hinit names h = .ok (.ok, hinit, h') ∧ Frame h.bytes h'.bytes h.data (h.data + h.size) ∧
      t.Sound ∧ t.names = names ∧ t.size = size ∧ Within t hinit.hash h.data h.size ∧
      Published t hinit.hash h'.bytes := by
  obtain ⟨b, hb, hbegin, hend⟩ := hr.hash
  obtain ⟨hlow, hhigh, -⟩ := hs.block hb
  obtain ⟨t, elts, h₃, bt, bb, be, live', hl, hnames, hsize, -, hdata, hheap, hashBuckets, hashElts, hframe, heq⟩ :=
    hashInit_laid hs hz hpos hr
  obtain ⟨h', hok, hframe'⟩ := hl.hashFill_ok (by omega : h₃.data ≤ hinit.hash ∧ hinit.hash + 12 ≤ h₃.data + h₃.size)
  have hbuckets := hl.heap.block hl.holding.bucketsMem
  have helts := hl.heap.block hl.holding.eltsMem
  have := hl.holding.buckets
  have := hl.holding.elts
  rw [hdata, hheap] at hframe' hbuckets helts
  exact ⟨t, h', heq.trans hok, hframe.trans hframe', hl.table, hnames, hsize,
    ⟨by omega, by omega, by omega⟩, hashFill_published hl.holding hl.heap hl.zeroFilled hl.table hl.pos (hsize ▸ hsmall)
      hl.sizes hl.zero hl.elts hashBuckets hashElts hok⟩

/-- A table stays as it is while nobody writes to its bytes. -/
theorem Published.congr {m' : Nat → UInt8} {hash a n : Nat} (hp : Published t hash m) (ht : t.Sound)
    (hin : Within t hash a n) (hsame : ∀ x, a ≤ x → x < a + n → m' x = m x) : Published t hash m' := by
  obtain ⟨hhash, hbuckets, helts⟩ := hin
  refine ⟨hp.complete.congr (fun x hx hx' => hsame x (by omega) (by omega))
    (fun x hx hx' => hsame x (by omega) (by omega)) ht, ?_, ?_⟩
  · exact (load_congr fun x hx hx' => hsame x (by omega) (by omega)).trans hp.buckets
  · exact (load_congr fun x hx hx' => hsame x (by omega) (by omega)).trans hp.size

end

end PWebServer
