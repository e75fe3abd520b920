import PWebServer.Base.MemoryPool
import PWebServer.Lib.ByteMemory

/-!
# Base.Heap

The arena of a memory pool in the memory of the process, byte for byte: the
headers of the blocks lie between the blocks, and who writes past a block writes
into them.
-/

namespace PWebServer

open ByteMemory

/-- The memory of a process, with a pool.  `data` is an address, `memptr` a
number of units from there, as in `MemoryPool`; `bytes` has all the memory. -/
structure Heap where
  bytes : Nat → UInt8
  data : Nat
  memptr : Option Nat
  memSize : Nat
  size : Nat

namespace Heap

variable (h : Heap)

/-- The address of a unit of the arena. -/
def address (k : Nat) : Nat := h.data + headerSize * k

/-- The unit of the arena that an address is in. -/
def unit (x : Nat) : Nat := (x - h.data) / headerSize

/-- The header in a unit. -/
def header (k : Nat) : Header where
  next := if load h.bytes (h.address k) 8 = 0 then none else some (h.unit (load h.bytes (h.address k) 8))
  usedsize := load h.bytes (h.address k + 8) 4
  freesize := load h.bytes (h.address k + 12) 4

/-- The bytes of a header. -/
def headerBytes (header : Header) : List UInt8 :=
  toBytes 8 ((header.next.map h.address).getD 0) ++ toBytes 4 header.usedsize ++ toBytes 4 header.freesize

/-- The pool, as its functions see it. -/
def pool : MemoryPool where
  memptr := h.memptr
  memSize := h.memSize
  mem := h.header
  size := h.size

/-- A header is written. -/
def setHeader (k : Nat) (header : Header) : Heap :=
  { h with bytes := put h.bytes (h.address k) (h.headerBytes header) }

/-- Where `pMalloc` starts to search. -/
def entry : Nat × Heap :=
  match h.memptr with
  | some memptr => (memptr, h)
  | none => (0, h.setHeader 0 { next := some 0, usedsize := 1, freesize := uint (h.memSize - 1) })

/-- `pMalloc` puts a block into the free units behind the block `p`. -/
def carve (p n : Nat) : Heap :=
  let newp := p + (h.header p).usedsize
  let h := h.setHeader newp
    { next := (h.header p).next, usedsize := n, freesize := uint ((h.header p).freesize - n) }
  { h.setHeader p { h.header p with next := some newp, freesize := 0 } with memptr := some newp }

/-- `pMalloc`, which takes a 32-bit `uint`. -/
def pMalloc (nbytes : Nat) : Except Fault (Option Nat × Heap) := do
  let n := MemoryPool.nunits (uint nbytes)
  let (memptr, h) := h.entry
  let p ← h.pool.findFit memptr n (h.memSize + 1) memptr
  if (h.header p).freesize < n then pure (none, h)
  else pure (some (h.address (p + (h.header p).usedsize + 1)), h.carve p n)

/-- The block `p` is joined to the one before it. -/
def join (prev p : Nat) : Heap :=
  let header := h.header prev
  { h.setHeader prev
      { header with
        next := (h.header p).next
        freesize := uint (header.freesize + uint ((h.header p).usedsize + (h.header p).freesize)) } with
    memptr := some prev }

/-- `pFree` -/
def pFree (ap : Nat) : Except Fault Heap := do
  let memptr ← deref h.memptr
  let (prev, p) ← h.pool.findPrev memptr (h.unit ap - 1) (h.memSize + 1) memptr (h.header memptr).next
  if p ≠ some (h.unit ap - 1) then pure h
  else pure (h.join prev (h.unit ap - 1))

/-! ## headers -/

variable {h} {h' : Heap} {memsize : BitVec 32} {live : List (Nat × Nat)} {k j n p q x nbytes : Nat} {header : Header}

/-- A header whose fields have room in the bytes of one. -/
structure Fits (h : Heap) (header : Header) : Prop where
  next : ∀ q ∈ header.next, h.address q < 256 ^ 8
  usedsize : header.usedsize < 256 ^ 4
  freesize : header.freesize < 256 ^ 4

theorem unit_address (h : Heap) (k : Nat) : h.unit (h.address k) = k := by
  unfold unit address headerSize
  omega

theorem length_headerBytes (h : Heap) (header : Header) : (h.headerBytes header).length = headerSize := by
  simp only [headerBytes, List.length_append, length_toBytes]
  rfl

/-- A header that is in memory. -/
theorem fits_header (hdata : h.data < 256 ^ 8) (k : Nat) : h.Fits (h.header k) := by
  refine ⟨fun q hq => ?_, load_lt, load_lt⟩
  have hlt := load_lt (m := h.bytes) (a := h.address k) (n := 8)
  unfold header at hq
  generalize load h.bytes (h.address k) 8 = ptr at hlt hq
  by_cases hnull : ptr = 0
  · simp only [if_pos hnull] at hq
    exact absurd hq (Option.not_mem_none q)
  · simp only [if_neg hnull] at hq
    obtain rfl := Option.some.inj hq
    unfold address unit headerSize
    omega

theorem header_setHeader_self (hdata : 0 < h.data) (hfits : h.Fits header) :
    (h.setHeader k header).header k = header := by
  have hnext : (header.next.map h.address).getD 0 < 256 ^ 8 := by
    cases hq : header.next with
    | none => exact Nat.pow_pos (by decide)
    | some q => exact hfits.next q hq
  have hbytes : (h.setHeader k header).bytes = put h.bytes (h.address k) (h.headerBytes header) := rfl
  have hload₁ : load (h.setHeader k header).bytes (h.address k) 8 = (header.next.map h.address).getD 0 := by
    have hload := load_put_append (m := h.bytes) (a := h.address k) (u := []) (x := 0)
      (w := toBytes 4 header.usedsize ++ toBytes 4 header.freesize) hnext rfl
    rw [List.nil_append, Nat.add_zero, ← List.append_assoc] at hload
    rw [hbytes, headerBytes, hload]
  have hload₂ : load (h.setHeader k header).bytes (h.address k + 8) 4 = header.usedsize := by
    rw [hbytes, headerBytes, load_put_append hfits.usedsize length_toBytes]
  have hload₃ : load (h.setHeader k header).bytes (h.address k + 12) 4 = header.freesize := by
    have hload := load_put_append (m := h.bytes) (a := h.address k) (w := []) (x := 12)
      (u := toBytes 8 ((header.next.map h.address).getD 0) ++ toBytes 4 header.usedsize) hfits.freesize
      (by rw [List.length_append, length_toBytes, length_toBytes])
    rw [List.append_nil] at hload
    rw [hbytes, headerBytes, hload]
  have haddress : (h.setHeader k header).address k = h.address k := rfl
  unfold Heap.header
  rw [haddress, hload₁, hload₂, hload₃]
  cases header with
  | mk next usedsize freesize =>
      cases next with
      | none => rfl
      | some q =>
          have hpos : h.address q ≠ 0 := by
            unfold address
            omega
          have hunit : (h.setHeader k ⟨some q, usedsize, freesize⟩).unit (h.address q) = q := h.unit_address q
          simp only [Option.map_some, Option.getD_some, if_neg hpos, hunit]

theorem setHeader_frame (h : Heap) (k : Nat) (header : Header) :
    Frame h.bytes (h.setHeader k header).bytes (h.address k) (h.address (k + 1)) := by
  have hframe : Frame h.bytes (put h.bytes (h.address k) (h.headerBytes header)) (h.address k)
      (h.address k + (h.headerBytes header).length) := put_frame
  rw [length_headerBytes] at hframe
  exact hframe.mono (Nat.le_refl _) (by unfold address headerSize; omega)

/-- The headers elsewhere are as they were. -/
theorem header_congr (hdata : h'.data = h.data) (hsame : ∀ x, h.address k ≤ x → x < h.address (k + 1) →
    h'.bytes x = h.bytes x) : h'.header k = h.header k := by
  have hload : ∀ i n, i + n ≤ 16 → load h'.bytes (h.address k + i) n = load h.bytes (h.address k + i) n := by
    intro i n hin
    refine load_congr fun x hx hx' => hsame x (by omega) ?_
    unfold address headerSize at *
    omega
  have haddress : h'.address k = h.address k := by
    unfold address
    rw [hdata]
  have hunit : ∀ x, h'.unit x = h.unit x := fun x => by
    unfold unit
    rw [hdata]
  unfold header
  rw [haddress, hload 8 4 (by decide), hload 12 4 (by decide), ← Nat.add_zero (h.address k), hload 0 8 (by decide), hunit]

theorem header_setHeader_of_ne (hne : j ≠ k) : (h.setHeader k header).header j = h.header j := by
  refine header_congr rfl fun x hx hx' => h.setHeader_frame k header x ?_
  unfold address headerSize at *
  omega

/-- What the functions of the pool see of a header that is written. -/
theorem pool_setHeader (hdata : 0 < h.data) (hfits : h.Fits header) :
    (h.setHeader k header).pool = h.pool.onHeader k fun _ => header := by
  have hmem : (h.setHeader k header).header = Function.update h.header k header := by
    funext j
    by_cases hj : j = k
    · subst hj
      rw [Function.update_self, header_setHeader_self hdata hfits]
    · rw [Function.update_of_ne hj, header_setHeader_of_ne hj]
  unfold pool MemoryPool.onHeader
  rw [hmem]
  rfl

theorem setHeader_bytes (hx : x < h.data ∨ h.unit x ≠ k) : (h.setHeader k header).bytes x = h.bytes x := by
  refine h.setHeader_frame k header x ?_
  unfold address unit headerSize at *
  omega

/-! ## blocks -/

/-- The pool is as its functions leave it, with these blocks live, and the arena
is a part of the memory. -/
structure Sound (memsize : BitVec 32) (h : Heap) (live : List (Nat × Nat)) : Prop where
  kept : (⟨h.pool, live⟩ : MemoryRun).Kept memsize
  data : 0 < h.data
  space : h.data + h.size ≤ 256 ^ 8

/-- The units of the headers: the first one and those before the live blocks. -/
def IsHeader (live : List (Nat × Nat)) (k : Nat) : Prop := k = 0 ∨ ∃ b ∈ live, b.1 = k + 1

/-- The bytes of the headers. -/
def InHeader (h : Heap) (live : List (Nat × Nat)) (x : Nat) : Prop := h.data ≤ x ∧ IsHeader live (h.unit x)

/-- What is free in the arena is zero. -/
structure ZeroFilled (h : Heap) (live : List (Nat × Nat)) : Prop where
  fresh : h.memptr = none → ∀ x, h.data ≤ x → x < h.address h.memSize → h.bytes x = 0
  free : h.memptr ≠ none → ∀ k, IsHeader live k → ∀ x, h.address (k + (h.header k).usedsize) ≤ x →
    x < h.address (k + (h.header k).usedsize + (h.header k).freesize) → h.bytes x = 0

/-- What `pMalloc` has done when it returns `a`. -/
structure Allocated (memsize : BitVec 32) (h h' : Heap) (live : List (Nat × Nat)) (nbytes ap : Nat) : Prop where
  sound : h'.Sound memsize ((ap, nbytes) :: live)
  data : h'.data = h.data
  size : h'.size = h.size
  frame : ∀ x, ¬ h.InHeader ((ap, nbytes) :: live) x → h'.bytes x = h.bytes x
  zero : ∀ x, h.address ap ≤ x → x < h.address ap + nbytes → h'.bytes x = 0
  zeroFilled : h'.ZeroFilled ((ap, nbytes) :: live)

variable {all : List Nat} {b c : Nat × Nat}

theorem mem_all (hblocks : (⟨h.pool, live⟩ : MemoryRun).Blocks all) : k ∈ all ↔ IsHeader live k := by
  have hmap : k ∈ all ↔ k + 1 ∈ all.map (· + 1) := by simp
  rw [hmap, ← hblocks.perm.mem_iff, List.mem_cons, List.mem_map]
  refine or_congr ?_ Iff.rfl
  omega

theorem Sound.memSize (hs : h.Sound memsize live) : 16 * h.memSize ≤ h.size ∧ h.size < 256 ^ 8 := by
  have hmem : h.memSize = (memsize.toNat + headerSize - 1) / headerSize := hs.kept.memSize
  have hsize : h.size = memsize.toNat + headerSize := hs.kept.size
  have hlt := memsize.isLt
  unfold headerSize at hmem hsize
  omega

theorem Sound.data_lt (hs : h.Sound memsize live) : h.data < 256 ^ 8 := by
  have hsize : h.size = memsize.toNat + headerSize := hs.kept.size
  have := hs.space
  unfold headerSize at hsize
  omega

/-! ### what the functions do to the headers -/

theorem entry_pool (hs : h.Sound memsize live) : h.pool.entry = (h.entry.1, h.entry.2.pool) := by
  have hmem : h.pool.memptr = h.memptr := rfl
  unfold MemoryPool.entry Heap.entry
  rw [hmem]
  cases h.memptr with
  | some m => rfl
  | none =>
      refine Prod.ext rfl (Eq.symm ?_)
      refine pool_setHeader hs.data ⟨fun q hq => ?_, (by decide : 1 < 256 ^ 4), Nat.mod_lt _ (by decide)⟩
      cases hq
      exact hs.data_lt

theorem entry_bytes (hx : x < h.data ∨ h.unit x ≠ 0) : h.entry.2.bytes x = h.bytes x := by
  unfold entry
  cases h.memptr with
  | some m => rfl
  | none => exact setHeader_bytes hx

theorem entry_same : h.entry.2.data = h.data ∧ h.entry.2.size = h.size ∧ h.entry.2.memSize = h.memSize := by
  unfold entry
  cases h.memptr with
  | some m => exact ⟨rfl, rfl, rfl⟩
  | none => exact ⟨rfl, rfl, rfl⟩

theorem pool_onHeader {f : Header → Header} (hdata : 0 < h.data) (hfits : h.Fits (f (h.header k))) :
    (h.setHeader k (f (h.header k))).pool = h.pool.onHeader k f :=
  pool_setHeader hdata hfits

theorem carve_pool (hdata : 0 < h.data) (hnew : h.address (p + (h.header p).usedsize) < 256 ^ 8) (hn : n < 256 ^ 4) :
    (h.carve p n).pool = h.pool.carve p n := by
  have hlt : h.data < 256 ^ 8 := by
    unfold address headerSize at hnew
    omega
  obtain ⟨made, hmade⟩ : ∃ made : Header,
      made = { next := (h.header p).next, usedsize := n, freesize := uint ((h.header p).freesize - n) } := ⟨_, rfl⟩
  have hmadeFits : h.Fits made :=
    hmade ▸ ⟨(fits_header hlt p).next, hn, Nat.mod_lt _ (by decide)⟩
  have hnewp := pool_setHeader (k := p + (h.header p).usedsize) hdata hmadeFits
  rw [hmade] at hnewp
  obtain ⟨h₁, hh₁⟩ : ∃ h₁, h₁ = h.setHeader (p + (h.header p).usedsize)
    { next := (h.header p).next, usedsize := n, freesize := uint ((h.header p).freesize - n) } := ⟨_, rfl⟩
  have hdata₁ : h₁.data = h.data := hh₁ ▸ rfl
  have hset := pool_onHeader (h := h₁) (k := p)
    (f := fun header => { header with next := some (p + (h.header p).usedsize), freesize := 0 }) (hdata₁ ▸ hdata)
    ⟨fun q hq => by
      cases hq
      unfold address at hnew ⊢
      rw [hdata₁]
      exact hnew, (fits_header (h := h₁) (hdata₁ ▸ hlt) p).usedsize, (by decide : 0 < 256 ^ 4)⟩
  rw [← hh₁] at hnewp
  rw [hnewp] at hset
  unfold carve MemoryPool.carve
  dsimp only
  rw [← hh₁]
  exact congrArg (fun pool : MemoryPool => { pool with memptr := some (p + (h.header p).usedsize) }) hset

theorem carve_bytes (hp : x < h.data ∨ h.unit x ≠ p) (hnew : x < h.data ∨ h.unit x ≠ p + (h.header p).usedsize) :
    (h.carve p n).bytes x = h.bytes x := by
  unfold carve
  exact (setHeader_bytes (h := h.setHeader _ _) hp).trans (setHeader_bytes hnew)

/-- The heap that `pMalloc` searches. -/
theorem Sound.entry (hs : h.Sound memsize live) (hz : h.ZeroFilled live) (hpos : memsize ≠ 0) :
    ∃ all, h.entry.1 ∈ all ∧ h.entry.2.Sound memsize live ∧ (⟨h.entry.2.pool, live⟩ : MemoryRun).Blocks all ∧
      ∀ k ∈ all, ∀ x, h.address (k + (h.entry.2.header k).usedsize) ≤ x →
        x < h.address (k + (h.entry.2.header k).usedsize + (h.entry.2.header k).freesize) → h.bytes x = 0 := by
  obtain ⟨m, pool, all, hentry, hkept, hm, hblocks⟩ := hs.kept.entry hpos
  rw [entry_pool hs] at hentry
  obtain ⟨rfl, rfl⟩ := Prod.mk.inj hentry
  obtain ⟨hdata, hsize, -⟩ := h.entry_same
  refine ⟨all, hm, ⟨hkept, hdata ▸ hs.data, ?_⟩, hblocks, fun k hk x hx hx' => ?_⟩
  · rw [hdata, hsize]
    exact hs.space
  · cases hptr : h.memptr with
    | some m =>
        have hsame : h.entry.2 = h := by
          unfold Heap.entry
          rw [hptr]
        rw [hsame] at hx hx'
        exact hz.free (by simp [hptr]) k ((mem_all hblocks).mp hk) x hx hx'
    | none =>
        -- the first header is the only one
        refine hz.fresh hptr x ?_ (Nat.lt_of_lt_of_le hx' ?_)
        · unfold address at hx
          omega
        · have hle := (hblocks.holds.tiles.bounds hk).2.2
          have hmem : h.entry.2.pool.memSize = h.memSize := h.entry_same.2.2
          rw [hmem] at hle
          unfold MemoryPool.blockSize at hle
          have hheader : h.entry.2.pool.mem k = h.entry.2.header k := rfl
          rw [hheader] at hle
          unfold address headerSize
          omega

/-- What is inside a block, behind its header, is in no header. -/
theorem not_isHeader (hblocks : (⟨h.pool, live⟩ : MemoryRun).Blocks all) (hk : k ∈ all) (hkj : k < j)
    (hj : j < k + (h.header k).usedsize + (h.header k).freesize) : ¬ IsHeader live j := by
  rw [← mem_all hblocks]
  refine hblocks.holds.tiles.notMem_inside hk hkj ?_
  rw [Nat.add_assoc] at hj
  exact hj

/-- A block is cut out of zeros. -/
theorem Sound.carve (hs : h.Sound memsize live) (hblocks : (⟨h.pool, live⟩ : MemoryRun).Blocks all) (hp : p ∈ all)
    (hbytes : nbytes ≤ 4294967296 - headerSize) (hfit : MemoryPool.nunits nbytes ≤ (h.header p).freesize)
    (hzero : ∀ k ∈ all, ∀ x, h.address (k + (h.header k).usedsize) ≤ x →
      x < h.address (k + (h.header k).usedsize + (h.header k).freesize) → h.bytes x = 0) :
    Allocated memsize h (h.carve p (MemoryPool.nunits nbytes)) live nbytes (p + (h.header p).usedsize + 1) := by
  obtain ⟨hn, hroom⟩ := MemoryRun.Blocks.nunits_spec hbytes
  obtain ⟨n, hn'⟩ : ∃ n, n = MemoryPool.nunits nbytes := ⟨_, rfl⟩
  rw [← hn'] at hn hroom hfit ⊢
  have hused : 0 < (h.header p).usedsize := hblocks.holds.used p hp
  have hsmall : n < 256 ^ 4 := by
    rw [hn']
    exact Nat.mod_lt _ (by decide)
  have hbound : p + (h.header p).usedsize + (h.header p).freesize ≤ h.memSize := by
    rw [Nat.add_assoc]
    exact (hblocks.holds.tiles.bounds hp).2.2
  have hnew : h.address (p + (h.header p).usedsize) < 256 ^ 8 := by
    have := hs.memSize
    have := hs.space
    unfold address headerSize
    omega
  have hpool := carve_pool hs.data hnew hsmall
  obtain ⟨before, after, rfl⟩ := List.append_of_mem hp
  have hblocks' := hblocks.carve hbytes (p := p) (by rw [← hn']; exact hfit)
  rw [← hn'] at hblocks'
  have hcarved : (⟨(h.carve p n).pool, (p + (h.header p).usedsize + 1, nbytes) :: live⟩ : MemoryRun).Blocks
      (before ++ p :: (p + (h.header p).usedsize) :: after) := by
    rw [hpool]
    exact hblocks'
  have hheader : ∀ k, (h.carve p n).header k = (h.pool.carve p n).mem k := fun k =>
    congrFun (congrArg MemoryPool.mem hpool) k
  -- only the two headers are written
  have hframe : ∀ x, ¬ h.InHeader ((p + (h.header p).usedsize + 1, nbytes) :: live) x →
      (h.carve p n).bytes x = h.bytes x := by
    intro x hx
    by_cases hlow : x < h.data
    · exact carve_bytes (.inl hlow) (.inl hlow)
    · have hnot : ¬ IsHeader ((p + (h.header p).usedsize + 1, nbytes) :: live) (h.unit x) := fun hin =>
        hx ⟨Nat.le_of_not_lt hlow, hin⟩
      rw [← mem_all hcarved, List.mem_append, List.mem_cons, List.mem_cons, not_or, not_or, not_or] at hnot
      exact carve_bytes (.inr hnot.2.1) (.inr hnot.2.2.1)
  have hinside : ∀ k ∈ before ++ p :: (p + (h.header p).usedsize) :: after, ∀ x,
      h.address (k + 1) ≤ x →
      x < h.address (k + ((h.carve p n).header k).usedsize + ((h.carve p n).header k).freesize) →
      (h.carve p n).bytes x = h.bytes x := by
    intro k hk x hx hx'
    refine hframe x fun hin => not_isHeader hcarved hk ?_ ?_ hin.2
    · unfold address unit headerSize at *
      omega
    · unfold address unit headerSize at *
      omega
  have hself := MemoryPool.carve_mem_self (n := n) (show 0 < (h.pool.mem p).usedsize from hused)
  have hsub : uint ((h.header p).freesize - n) = (h.header p).freesize - n := uint_of_lt (by
    have := (fits_header hs.data_lt p).freesize
    omega)
  have hblock : (h.carve p n).header (p + (h.header p).usedsize) =
      ⟨(h.header p).next, n, (h.header p).freesize - n⟩ := by
    rw [hheader, ← hsub]
    exact MemoryPool.carve_mem_new hused
  refine ⟨⟨⟨hs.kept.memSize, hs.kept.size, .inr ⟨_, _, rfl, ?_, hcarved⟩⟩, hs.data, hs.space⟩, rfl, rfl, hframe,
    fun x hx hx' => ?_, ⟨fun hnone => (Option.some_ne_none _ hnone).elim, fun _ k hk x hx hx' => ?_⟩⟩
  · exact List.mem_append_right _ (List.mem_cons_of_mem _ List.mem_cons_self)
  · have hnewmem : p + (h.header p).usedsize ∈ before ++ p :: (p + (h.header p).usedsize) :: after :=
      List.mem_append_right _ (List.mem_cons_of_mem _ List.mem_cons_self)
    rw [hinside _ hnewmem x hx]
    · refine hzero p hp x ?_ ?_
      · unfold address headerSize at *
        omega
      · unfold address headerSize at *
        omega
    · rw [hblock]
      dsimp only
      unfold address headerSize at *
      omega
  · rw [← mem_all hcarved] at hk
    have hused' : 0 < ((h.carve p n).header k).usedsize := hcarved.holds.used k hk
    have hxk : h.address (k + 1) ≤ x := by
      refine Nat.le_trans ?_ hx
      change h.data + headerSize * (k + 1) ≤ h.data + headerSize * _
      exact Nat.add_le_add_left (Nat.mul_le_mul_left _ (Nat.add_le_add_left hused' k)) _
    rw [hinside k hk x hxk hx']
    change h.address _ ≤ x at hx
    change x < h.address _ at hx'
    by_cases hkp : k = p
    · subst hkp
      rw [hheader, hself] at hx hx'
      exact absurd hx' (Nat.not_lt.mpr hx)
    · by_cases hknew : k = p + (h.header p).usedsize
      · rw [hknew, hblock] at hx hx'
        dsimp only at hx hx'
        refine hzero p hp x ?_ ?_
        · unfold address headerSize at *
          omega
        · unfold address headerSize at *
          omega
      · have hold : (h.carve p n).header k = h.header k := by
          rw [hheader]
          exact MemoryPool.carve_mem_of_ne hkp hknew
        rw [hold] at hx hx'
        refine hzero k ?_ x hx hx'
        rw [List.mem_append, List.mem_cons] at hk ⊢
        refine hk.imp_right fun hk => hk.imp_right fun hk => (List.mem_cons.mp hk).resolve_left hknew

/-- `pMalloc` returns a block of zeros, and writes headers only. -/
theorem Sound.pMalloc {a : Nat} (hs : h.Sound memsize live) (hz : h.ZeroFilled live) (hpos : memsize ≠ 0)
    (hbytes : nbytes ≤ 4294967296 - headerSize) (hm : h.pMalloc nbytes = .ok (some a, h')) :
    ∃ ap, a = h.address ap ∧ Allocated memsize h h' live nbytes ap := by
  obtain ⟨all, hmem, hs₁, hblocks, hzero⟩ := hs.entry hz hpos
  obtain ⟨hdata₁, hsize₁, -⟩ := h.entry_same
  have huint : uint nbytes = nbytes := uint_of_lt (by unfold headerSize at hbytes; omega)
  obtain ⟨h₁, hh₁⟩ : ∃ h₁, h₁ = h.entry.2 := ⟨_, rfl⟩
  have hbytes₁ : ∀ x, x < h.data ∨ h.unit x ≠ 0 → h₁.bytes x = h.bytes x := fun x hx => by
    rw [hh₁]
    exact entry_bytes hx
  unfold Heap.pMalloc at hm
  dsimp only at hm
  rw [huint, ← hh₁] at hm
  rw [← hh₁] at hs₁ hblocks hzero hdata₁ hsize₁
  have haddress : ∀ k, h₁.address k = h.address k := fun k => by
    unfold address
    rw [hdata₁]
  obtain ⟨p, hp, hfind, -⟩ := hblocks.holds.findFit (n := MemoryPool.nunits nbytes) hmem
  obtain ⟨p', hfind', hm⟩ := bind_ok hm
  obtain rfl : p = p' := Except.ok.inj (hfind.symm.trans hfind')
  -- the free units behind a block are none of the first header
  have hzero₁ : ∀ k ∈ all, ∀ x, h₁.address (k + (h₁.header k).usedsize) ≤ x →
      x < h₁.address (k + (h₁.header k).usedsize + (h₁.header k).freesize) → h₁.bytes x = 0 := by
    intro k hk x hx hx'
    have hused : 0 < (h₁.header k).usedsize := hblocks.holds.used k hk
    rw [haddress] at hx hx'
    rw [hbytes₁ x (.inr ?_)]
    · exact hzero k hk x hx hx'
    · unfold address headerSize at hx
      unfold unit headerSize
      omega
  by_cases hfit : (h₁.header p).freesize < MemoryPool.nunits nbytes
  · rw [if_pos hfit] at hm
    cases hm
  · rw [if_neg hfit] at hm
    cases hm
    have hcarve := hs₁.carve hblocks hp hbytes (Nat.le_of_not_lt hfit) hzero₁
    refine ⟨p + (h₁.header p).usedsize + 1, haddress _, ⟨hcarve.sound, hcarve.data.trans hdata₁,
      hcarve.size.trans hsize₁, fun x hx => ?_, fun x hx hx' => ?_, hcarve.zeroFilled⟩⟩
    · have hunit : h₁.unit x = h.unit x := by
        unfold unit
        rw [hdata₁]
      rw [hcarve.frame x, hbytes₁ x]
      · by_cases hlow : x < h.data
        · exact .inl hlow
        · exact .inr fun hzero => hx ⟨Nat.le_of_not_lt hlow, .inl hzero⟩
      · rintro ⟨hlow, hin⟩
        rw [hdata₁] at hlow
        rw [hunit] at hin
        exact hx ⟨hlow, hin⟩
    · rw [← haddress] at hx hx'
      exact hcarve.zero x hx hx'

/-! ### whoever holds a block -/

theorem Sound.blocks (hs : h.Sound memsize live) (hb : b ∈ live) :
    ∃ m all, h.memptr = some m ∧ m ∈ all ∧ (⟨h.pool, live⟩ : MemoryRun).Blocks all := by
  obtain ⟨-, hlive⟩ | hblocks := hs.kept.blocks
  · change live = [] at hlive
    rw [hlive] at hb
    exact absurd hb List.not_mem_nil
  · exact hblocks

/-- A live block behind its header. -/
theorem exists_header (hblocks : (⟨h.pool, live⟩ : MemoryRun).Blocks all) (hb : b ∈ live) :
    ∃ k ∈ all, b.1 = k + 1 ∧ k ≠ 0 ∧ h.address b.1 + b.2 ≤ h.address (k + (h.header k).usedsize) := by
  obtain ⟨k, hk, heq, hne⟩ := hblocks.exists_header hb
  have hroom : b.2 ≤ headerSize * ((h.header (b.1 - 1)).usedsize - 1) := hblocks.room b hb
  have hused : 0 < (h.header k).usedsize := hblocks.holds.used k hk
  refine ⟨k, hk, heq, hne, ?_⟩
  rw [heq, Nat.add_sub_cancel] at hroom
  rw [heq]
  unfold address headerSize at *
  omega

/-- A live block lies in the arena, and in no header. -/
theorem Sound.block (hs : h.Sound memsize live) (hb : b ∈ live) :
    h.data < h.address b.1 ∧ h.address b.1 + b.2 ≤ h.data + h.size ∧
      ∀ x, h.address b.1 ≤ x → x < h.address b.1 + b.2 → ¬ h.InHeader live x := by
  obtain ⟨m, all, -, -, hblocks⟩ := hs.blocks hb
  obtain ⟨k, hk, heq, -, hend⟩ := exists_header hblocks hb
  have hbound : k + (h.header k).usedsize + (h.header k).freesize ≤ h.memSize := by
    rw [Nat.add_assoc]
    exact (hblocks.holds.tiles.bounds hk).2.2
  have hmem := hs.memSize
  refine ⟨?_, ?_, fun x hx hx' hin => not_isHeader hblocks hk ?_ ?_ hin.2⟩
  · unfold address headerSize at *
    omega
  · unfold address headerSize at *
    omega
  · unfold address unit headerSize at *
    omega
  · unfold address unit headerSize at *
    omega

/-- Two live blocks. -/
theorem Sound.apart (hs : h.Sound memsize (b :: live)) (hc : c ∈ live) :
    h.address b.1 + b.2 ≤ h.address c.1 ∨ h.address c.1 + c.2 ≤ h.address b.1 := by
  obtain ⟨m, all, -, -, hblocks⟩ := hs.blocks List.mem_cons_self
  have hlive := hblocks.live hs.kept
  have hb := hlive.room b List.mem_cons_self
  have hc' := hlive.room c (List.mem_cons_of_mem b hc)
  have hapart := (List.pairwise_cons.mp hlive.apart).1 c hc
  simp only [MemoryRun.payload] at hapart hb hc'
  unfold address
  omega

/-- Live blocks are written to. -/
theorem Sound.write {m : Nat → UInt8} (hs : h.Sound memsize live) (hz : h.ZeroFilled live) (hb : b ∈ live)
    (hframe : ∀ x, (∀ c ∈ live, x < h.address c.1 ∨ h.address c.1 + c.2 ≤ x) → m x = h.bytes x) :
    ({ h with bytes := m } : Heap).Sound memsize live ∧ ({ h with bytes := m } : Heap).ZeroFilled live := by
  obtain ⟨m₀, all, hptr, hm₀, hblocks⟩ := hs.blocks hb
  have hheader : ∀ k ∈ all, ({ h with bytes := m } : Heap).header k = h.header k := by
    intro k hk
    refine header_congr rfl fun x hx hx' => hframe x fun c hc => ?_
    by_contra hin
    refine (hs.block hc).2.2 x (by omega) (by omega) ⟨?_, ?_⟩
    · unfold address at hx
      omega
    · have hunit : h.unit x = k := by
        unfold address unit headerSize at *
        omega
      rw [hunit, ← mem_all hblocks]
      exact hk
  have hblocks' : (⟨({ h with bytes := m } : Heap).pool, live⟩ : MemoryRun).Blocks all :=
    ⟨hblocks.holds.congr rfl hheader, hblocks.perm,
      fun c hc => hblocks.room_congr hc fun k hk => congrArg Header.usedsize (hheader k hk)⟩
  refine ⟨⟨⟨hs.kept.memSize, hs.kept.size, .inr ⟨m₀, all, hptr, hm₀, hblocks'⟩⟩, hs.data, hs.space⟩,
    fun hnone => ?_, fun hsome k hk x hx hx' => ?_⟩
  · change h.memptr = none at hnone
    rw [hptr] at hnone
    contradiction
  · rw [← mem_all hblocks] at hk
    rw [hheader k hk] at hx hx'
    change h.address (k + (h.header k).usedsize) ≤ x at hx
    change x < h.address (k + (h.header k).usedsize + (h.header k).freesize) at hx'
    have hused : 0 < (h.header k).usedsize := hblocks.holds.used k hk
    refine (hframe x fun c hc => ?_).trans (hz.free hsome k ((mem_all hblocks).mp hk) x hx hx')
    obtain ⟨k', hk', heq, -, hend⟩ := exists_header hblocks hc
    by_cases hsame : k = k'
    · subst hsame
      exact .inr (Nat.le_trans hend hx)
    · have hapart := hblocks.holds.tiles.apart hk hk' hsame
      change k + ((h.header k).usedsize + (h.header k).freesize) ≤ k' ∨
        k' + ((h.header k').usedsize + (h.header k').freesize) ≤ k at hapart
      rw [heq] at hend ⊢
      unfold address headerSize at *
      omega

theorem Allocated.address {ap : Nat} (ha : Allocated memsize h h' live nbytes ap) (k : Nat) :
    h'.address k = h.address k := by
  unfold Heap.address
  rw [ha.data]

/-- What is in the live blocks stays there when another one is allocated. -/
theorem Allocated.bytes {ap : Nat} (ha : Allocated memsize h h' live nbytes ap) (hb : b ∈ live)
    (hx : h.address b.1 ≤ x) (hx' : x < h.address b.1 + b.2) : h'.bytes x = h.bytes x := by
  have haddress := ha.address b.1
  have hunit : h'.unit x = h.unit x := by
    unfold unit
    rw [ha.data]
  refine ha.frame x fun hin => (ha.sound.block (List.mem_cons_of_mem _ hb)).2.2 x ?_ ?_ ⟨?_, ?_⟩
  · rw [haddress]
    exact hx
  · rw [haddress]
    exact hx'
  · rw [ha.data]
    exact hin.1
  · rw [hunit]
    exact hin.2

/-- `pFree` writes headers only. -/
theorem Sound.pFree (hs : h.Sound memsize live) (hb : b ∈ live) (hf : h.pFree (h.address b.1) = .ok h') :
    ∀ x, ¬ h.InHeader live x → h'.bytes x = h.bytes x := by
  obtain ⟨m, all, hptr, hm, hblocks⟩ := hs.blocks hb
  obtain ⟨k, hk, heq, hne, -⟩ := exists_header hblocks hb
  obtain ⟨before, q, after, rfl, hfind⟩ := hblocks.holds.findPrev hm hk hne
  have hunit : h.unit (h.address b.1) - 1 = k := by rw [unit_address, heq, Nat.add_sub_cancel]
  unfold Heap.pFree at hf
  rw [hunit, hptr] at hf
  obtain ⟨m', hm', hf⟩ := bind_ok hf
  cases hm'
  obtain ⟨⟨q', p'⟩, hfind', hf⟩ := bind_ok hf
  obtain ⟨rfl, rfl⟩ := Prod.mk.inj (Except.ok.inj (hfind.symm.trans hfind'))
  dsimp only at hf
  rw [if_neg (not_not.mpr rfl)] at hf
  cases hf
  intro x hx
  refine setHeader_bytes ?_
  by_cases hlow : x < h.data
  · exact .inl hlow
  · refine .inr fun hq => hx ⟨Nat.le_of_not_lt hlow, ?_⟩
    rw [hq, ← mem_all hblocks]
    exact List.mem_append_right _ List.mem_cons_self

end Heap

end PWebServer
