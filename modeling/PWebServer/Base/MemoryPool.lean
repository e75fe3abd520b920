import PWebServer.Globals
import PWebServer.Lib.LinkedList
import PWebServer.Lib.Machine
import PWebServer.Lib.Tiling
import Mathlib.Data.List.Nodup

/-!
# Base.MemoryPool

`memory_pool.c`: memory is handed out of one arena, in units of the size of a
header.  Every block starts with its header, which tells how many units the
block uses and how many behind it are free; the headers are a circle.

Pointers to headers count units from `pool->data`.  Unsigned arithmetic is
modulo `2 ^ 32`.
-/

namespace PWebServer

open LinkedList Tiling

/-- The value of an `unsigned` expression. -/
def uint (x : Nat) : Nat := x % 4294967296

theorem uint_of_lt {x : Nat} (h : x < 4294967296) : uint x = x := Nat.mod_eq_of_lt h

/-- `header` -/
structure Header where
  next : Option Nat
  usedsize : Nat
  freesize : Nat
  deriving DecidableEq

/-- `sizeof(Header)` -/
def headerSize : Nat := 16

/-- `memory_pool`, with the arena.  `size` is what `malloc` was asked for. -/
structure MemoryPool where
  memptr : Option Nat
  memSize : Nat
  mem : Nat → Header
  size : Nat

/-- `pMemoryPoolInit`, on memory that holds anything. -/
def pMemoryPoolInit (memsize : BitVec 32) (mem : Nat → Header) : MemoryPool where
  memptr := none
  memSize := (memsize.toNat + headerSize - 1) / headerSize
  mem := mem
  size := memsize.toNat + headerSize

namespace MemoryPool

variable (pool : MemoryPool)

/-- One header is written. -/
def onHeader (i : Nat) (f : Header → Header) : MemoryPool :=
  { pool with mem := Function.update pool.mem i (f (pool.mem i)) }

/-- The loop of `pMalloc`. -/
def findFit (memptr nunits : Nat) : Nat → Nat → Except Fault Nat
  | 0, _ => .error .fuel
  | fuel + 1, p =>
      if (pool.mem p).next ≠ some memptr ∧ (pool.mem p).freesize < nunits then do
        let next ← deref (pool.mem p).next
        findFit memptr nunits fuel next
      else .ok p

/-- The number of units `pMalloc` takes for so many bytes. -/
def nunits (nbytes : Nat) : Nat := uint (uint (nbytes + headerSize - 1) / headerSize + 1)

/-- The header at `data`, as the first call of `pMalloc` writes it. -/
def start : MemoryPool :=
  pool.onHeader 0 fun _ => { next := some 0, usedsize := 1, freesize := uint (pool.memSize - 1) }

/-- Where `pMalloc` starts to search. -/
def entry : Nat × MemoryPool :=
  match pool.memptr with
  | some memptr => (memptr, pool)
  | none => (0, pool.start)

/-- `pMalloc` puts a block into the free units behind the block `p`. -/
def carve (p n : Nat) : MemoryPool :=
  let newp := p + (pool.mem p).usedsize
  let pool := pool.onHeader newp fun _ =>
    { next := (pool.mem p).next, usedsize := n, freesize := uint ((pool.mem p).freesize - n) }
  { pool.onHeader p fun header => { header with next := some newp, freesize := 0 } with memptr := some newp }

/-- `pMalloc` -/
def pMalloc (nbytes : Nat) : Except Fault (Option Nat × MemoryPool) := do
  let (memptr, pool) := pool.entry
  let p ← pool.findFit memptr (nunits nbytes) (pool.memSize + 1) memptr
  if (pool.mem p).freesize < nunits nbytes then pure (none, pool)
  else pure (some (p + (pool.mem p).usedsize + 1), pool.carve p (nunits nbytes))

/-- The loop of `pFree`: the header before `bp`, and `bp`; or the last one before
`memptr`, and `memptr`. -/
def findPrev (memptr bp : Nat) : Nat → Nat → Option Nat → Except Fault (Nat × Option Nat)
  | 0, _, _ => .error .fuel
  | fuel + 1, prev, p =>
      if p ≠ some bp ∧ p ≠ some memptr then do
        let here ← deref p
        findPrev memptr bp fuel here (pool.mem here).next
      else .ok (prev, p)

/-- The block `p` is joined to the one before it. -/
def join (prev p : Nat) : MemoryPool :=
  { pool.onHeader prev fun header =>
      { header with
        next := (pool.mem p).next
        freesize := uint (header.freesize + uint ((pool.mem p).usedsize + (pool.mem p).freesize)) } with
    memptr := some prev }

/-- `pFree` -/
def pFree (ap : Nat) : Except Fault MemoryPool := do
  let memptr ← deref pool.memptr
  let (prev, p) ← pool.findPrev memptr (ap - 1) (pool.memSize + 1) memptr (pool.mem memptr).next
  if p ≠ some (ap - 1) then pure pool
  else pure (pool.join prev (ap - 1))

end MemoryPool

/-! ## runs -/

/-- A pool, and the blocks that are live: where they are, and how many bytes were
asked for. -/
structure MemoryRun where
  pool : MemoryPool
  live : List (Nat × Nat)

/-- What is done with a pool.  Whoever holds a block may write anything into it. -/
inductive MemoryOp where
  | malloc (nbytes : Nat)
  | free (ap : Nat)
  | write (i : Nat) (header : Header)

namespace MemoryRun

/-- The units of the live block at `ap`. -/
def units (s : MemoryRun) (ap : Nat) : Nat := (s.pool.mem (ap - 1)).usedsize - 1

/-- The sizes that are asked for leave room for rounding up; only live blocks are
freed and written to. -/
def Allows (s : MemoryRun) : MemoryOp → Prop
  | .malloc nbytes => nbytes ≤ 4294967296 - headerSize
  | .free ap => ap ∈ s.live.map (·.1)
  | .write i _ => ∃ b ∈ s.live, b.1 ≤ i ∧ i < b.1 + s.units b.1

/-- One operation. -/
def step (s : MemoryRun) : MemoryOp → Except Fault MemoryRun
  | .malloc nbytes => do
      let (ap, pool) ← s.pool.pMalloc nbytes
      match ap with
      | some ap => pure ⟨pool, (ap, nbytes) :: s.live⟩
      | none => pure ⟨pool, s.live⟩
  | .free ap => do
      let pool ← s.pool.pFree ap
      pure ⟨pool, s.live.filter (·.1 != ap)⟩
  | .write i header => pure ⟨s.pool.onHeader i fun _ => header, s.live⟩

/-- The runs of a pool. -/
def machine (memsize : BitVec 32) : Machine MemoryRun MemoryOp where
  init s := ∃ mem, s = ⟨pMemoryPoolInit memsize mem, []⟩
  allows := Allows
  step s op := (s.step op).toOption

end MemoryRun

/-! ## the headers -/

namespace MemoryPool

variable {pool : MemoryPool} {all before after : List Nat} {memptr n p q bp : Nat}

/-- What a header points to. -/
def next (pool : MemoryPool) (i : Nat) : Option Nat := (pool.mem i).next

/-- The units of a block, with those that are free. -/
def blockSize (pool : MemoryPool) (i : Nat) : Nat := (pool.mem i).usedsize + (pool.mem i).freesize

/-- The headers are `all`: a circle from `data` on, whose blocks tile the arena. -/
structure Holds (pool : MemoryPool) (all : List Nat) : Prop where
  circle : Segment pool.next (some 0) all (some 0)
  tiles : Tiles pool.blockSize 0 all pool.memSize
  used : ∀ i ∈ all, 0 < (pool.mem i).usedsize
  first : 0 ∈ all → (pool.mem 0).usedsize = 1
  small : pool.memSize < 4294967296

/-- The circle from one of its headers. -/
theorem Holds.rotate (h : pool.Holds all) (hm : memptr ∈ all) :
    ∃ rest, Segment pool.next (pool.next memptr) rest (some memptr) ∧ memptr ∉ rest ∧
      rest.length ≤ pool.memSize ∧ ∀ i, i ∈ all ↔ i = memptr ∨ i ∈ rest := by
  obtain ⟨before, after, rfl⟩ := List.append_of_mem hm
  obtain ⟨hbefore, hafter⟩ := segment_mid.mp h.circle
  have hperm : (before ++ memptr :: after).Perm (memptr :: (after ++ before)) :=
    List.perm_middle.trans (List.perm_append_comm.cons memptr)
  have hnodup := hperm.nodup_iff.mp h.tiles.nodup
  refine ⟨after ++ before, segment_append.mpr ⟨some 0, hafter, hbefore⟩, (List.nodup_cons.mp hnodup).1, ?_,
    fun i => ?_⟩
  · have hlen := h.tiles.length_le
    rw [hperm.length_eq, List.length_cons] at hlen
    omega
  · rw [hperm.mem_iff, List.mem_cons]

/-- The search for free units ends at a header, the last one if none of them has
enough. -/
theorem findFit_ok {l : List Nat} {fuel : Nat} (hseg : Segment pool.next (pool.next p) l (some memptr))
    (hm : memptr ∉ l) (hfuel : l.length < fuel) :
    ∃ q, (q = p ∨ q ∈ l) ∧ pool.findFit memptr n fuel p = .ok q ∧
      ((pool.mem q).freesize < n → (pool.mem p).freesize < n ∧ ∀ x ∈ l, (pool.mem x).freesize < n) := by
  induction l generalizing p fuel with
  | nil =>
      obtain ⟨fuel, rfl⟩ := Nat.exists_eq_succ_of_ne_zero (Nat.ne_of_gt hfuel)
      exact ⟨p, .inl rfl, if_neg fun hcond => hcond.1 hseg, fun hlt => ⟨hlt, fun x hx => absurd hx List.not_mem_nil⟩⟩
  | cons x l ih =>
      obtain ⟨fuel, rfl⟩ := Nat.exists_eq_succ_of_ne_zero (Nat.ne_of_gt (Nat.zero_lt_of_lt hfuel))
      obtain ⟨hnext, hrest⟩ := hseg
      rw [List.mem_cons, not_or] at hm
      rw [findFit]
      split
      next hcond =>
        obtain ⟨q, hq, hfind, hshort⟩ := ih hrest hm.2 (Nat.lt_of_succ_lt_succ hfuel)
        refine ⟨q, .inr (List.mem_cons.mpr hq), ?_, fun hlt => ⟨hcond.2, List.forall_mem_cons.mpr (hshort hlt)⟩⟩
        rw [show (pool.mem p).next = some x from hnext]
        exact hfind
      next hcond =>
        have hne : (pool.mem p).next ≠ some memptr := fun heq =>
          hm.1 (Option.some.inj (heq.symm.trans (show (pool.mem p).next = some x from hnext)))
        exact ⟨p, .inl rfl, rfl, fun hlt => absurd ⟨hne, hlt⟩ hcond⟩

theorem Holds.findFit (h : pool.Holds all) (hm : memptr ∈ all) :
    ∃ q ∈ all, pool.findFit memptr n (pool.memSize + 1) memptr = .ok q ∧
      ((pool.mem q).freesize < n → ∀ p ∈ all, (pool.mem p).freesize < n) := by
  obtain ⟨rest, hseg, hnot, hlen, hmem⟩ := h.rotate hm
  obtain ⟨q, hq, hfind, hshort⟩ := findFit_ok hseg hnot (Nat.lt_succ_of_le hlen)
  refine ⟨q, (hmem q).mpr hq, hfind, fun hlt p hp => ?_⟩
  obtain ⟨hself, hrest⟩ := hshort hlt
  obtain rfl | hp := (hmem p).mp hp
  · exact hself
  · exact hrest p hp

/-- The search for a header ends at the header before it. -/
theorem findPrev_ok {l : List Nat} {fuel : Nat} {r : Option Nat} (hseg : Segment pool.next r l (some memptr))
    (hp : pool.next p = r) (hm : memptr ∉ l) (hbp : bp = memptr ∨ bp ∈ l) (hfuel : l.length < fuel) :
    ∃ q, (q = p ∨ q ∈ l) ∧ pool.next q = some bp ∧
      pool.findPrev memptr bp fuel p r = .ok (q, some bp) := by
  induction l generalizing p r fuel with
  | nil =>
      obtain ⟨fuel, rfl⟩ := Nat.exists_eq_succ_of_ne_zero (Nat.ne_of_gt hfuel)
      obtain rfl := hbp.resolve_right List.not_mem_nil
      cases hseg
      exact ⟨p, .inl rfl, hp, if_neg fun hcond => hcond.1 rfl⟩
  | cons x l ih =>
      obtain ⟨fuel, rfl⟩ := Nat.exists_eq_succ_of_ne_zero (Nat.ne_of_gt (Nat.zero_lt_of_lt hfuel))
      obtain ⟨rfl, hrest⟩ := hseg
      rw [List.mem_cons, not_or] at hm
      rw [findPrev]
      by_cases hx : x = bp
      · subst hx
        exact ⟨p, .inl rfl, hp, if_neg fun hcond => hcond.1 rfl⟩
      · have hbp' : bp = memptr ∨ bp ∈ l :=
          hbp.imp_right fun hmem => (List.mem_cons.mp hmem).resolve_left (Ne.symm hx)
        obtain ⟨q, hq, hnext, hfind⟩ := ih hrest rfl hm.2 hbp' (Nat.lt_of_succ_lt_succ hfuel)
        refine ⟨q, .inr (List.mem_cons.mpr hq), hnext, ?_⟩
        have hcond : some x ≠ some bp ∧ some x ≠ some memptr :=
          ⟨fun heq => hx (Option.some.inj heq), fun heq => hm.1 (Option.some.inj heq).symm⟩
        rw [if_pos hcond]
        exact hfind

/-- The header in memory before another one is the one whose `next` it is. -/
theorem Holds.findPrev (h : pool.Holds all) (hm : memptr ∈ all) (hbp : bp ∈ all) (h₀ : bp ≠ 0) :
    ∃ before q after, all = before ++ q :: bp :: after ∧
      pool.findPrev memptr bp (pool.memSize + 1) memptr (pool.next memptr) = .ok (q, some bp) := by
  obtain ⟨rest, hseg, hnot, hlen, hmem⟩ := h.rotate hm
  obtain ⟨q, hq, hnext, hfind⟩ := findPrev_ok hseg rfl hnot ((hmem bp).mp hbp) (Nat.lt_succ_of_le hlen)
  obtain ⟨before, after, rfl⟩ := List.append_of_mem ((hmem q).mpr hq)
  have hafter := (segment_mid.mp h.circle).2
  rw [hnext] at hafter
  cases after with
  | nil => exact absurd (Option.some.inj hafter) h₀
  | cons x after =>
      obtain rfl := Option.some.inj hafter.1
      exact ⟨before, q, after, rfl, hfind⟩

/-- `pMalloc`, once it has found a block. -/
theorem pMalloc_eq {pool' : MemoryPool} {nbytes : Nat} (hentry : pool.entry = (memptr, pool'))
    (hfind : pool'.findFit memptr (nunits nbytes) (pool'.memSize + 1) memptr = .ok p) :
    pool.pMalloc nbytes = .ok (if (pool'.mem p).freesize < nunits nbytes then (none, pool')
      else (some (p + (pool'.mem p).usedsize + 1), pool'.carve p (nunits nbytes))) := by
  unfold pMalloc
  rw [hentry]
  simp only [hfind, bind, Except.bind]
  split <;> rfl

/-- `pFree`, once it has found the block. -/
theorem pFree_eq {ap : Nat} (hm : pool.memptr = some memptr)
    (hfind : pool.findPrev memptr (ap - 1) (pool.memSize + 1) memptr (pool.next memptr) =
      .ok (q, some (ap - 1))) :
    pool.pFree ap = .ok (pool.join q (ap - 1)) := by
  unfold pFree
  rw [hm]
  rw [next] at hfind
  simp only [deref_some, hfind, bind, Except.bind]
  exact if_neg (not_not.mpr rfl)

/-! ### what the operations do to the headers -/

variable {i : Nat} {f : Header → Header}

theorem onHeader_self : (pool.onHeader i f).mem i = f (pool.mem i) := Function.update_self ..

theorem onHeader_of_ne {j : Nat} (h : j ≠ i) : (pool.onHeader i f).mem j = pool.mem j :=
  Function.update_of_ne h ..

/-- Headers that are as they were. -/
theorem Holds.congr {pool' : MemoryPool} (h : pool.Holds all) (hsize : pool'.memSize = pool.memSize)
    (hsame : ∀ j ∈ all, pool'.mem j = pool.mem j) : pool'.Holds all := by
  refine ⟨h.circle.congr fun j hj => congrArg Header.next (hsame j hj), ?_, fun j hj => ?_, ?_,
    hsize ▸ h.small⟩
  · rw [hsize]
    refine h.tiles.congr fun j hj => ?_
    rw [blockSize, hsame j hj, blockSize]
  · rw [hsame j hj]
    exact h.used j hj
  · intro hzero
    rw [hsame 0 hzero]
    exact h.first hzero

/-- The first header. -/
theorem start_holds (hpos : 0 < pool.memSize) (hsmall : pool.memSize < 4294967296) :
    pool.start.Holds [0] := by
  have hmem : pool.start.mem 0 = ⟨some 0, 1, uint (pool.memSize - 1)⟩ := onHeader_self
  have hsize : pool.start.blockSize 0 = pool.memSize := by
    rw [blockSize, hmem, uint_of_lt (by omega)]
    exact Nat.add_sub_cancel' hpos
  refine ⟨⟨rfl, congrArg Header.next hmem⟩, ⟨rfl, ?_, ?_⟩, fun i hi => ?_, fun _ => congrArg Header.usedsize hmem, hsmall⟩
  · rw [hsize]
    exact hpos
  · rw [hsize]
    exact Nat.zero_add _
  · rw [List.mem_singleton.mp hi, hmem]
    exact Nat.one_pos

theorem Holds.blockSize_le (h : pool.Holds all) (hp : p ∈ all) : pool.blockSize p ≤ pool.memSize := by
  have := (h.tiles.bounds hp).2.2
  omega

/-- What `carve` writes. -/
theorem carve_mem_self (hused : 0 < (pool.mem p).usedsize) :
    (pool.carve p n).mem p = { pool.mem p with next := some (p + (pool.mem p).usedsize), freesize := 0 } := by
  have hne : p ≠ p + (pool.mem p).usedsize := by omega
  unfold carve
  dsimp only
  rw [onHeader_self, onHeader_of_ne hne]

theorem carve_mem_new (hused : 0 < (pool.mem p).usedsize) :
    (pool.carve p n).mem (p + (pool.mem p).usedsize) =
      ⟨(pool.mem p).next, n, uint ((pool.mem p).freesize - n)⟩ := by
  have hne : p + (pool.mem p).usedsize ≠ p := by omega
  unfold carve
  dsimp only
  rw [onHeader_of_ne hne, onHeader_self]

theorem carve_mem_of_ne (hi : i ≠ p) (hnew : i ≠ p + (pool.mem p).usedsize) :
    (pool.carve p n).mem i = pool.mem i := by
  unfold carve
  dsimp only
  rw [onHeader_of_ne hi, onHeader_of_ne hnew]

/-- The header of a new block is none of the old ones. -/
theorem Holds.notMem_new (h : pool.Holds all) (hp : p ∈ all) (hfree : 0 < (pool.mem p).freesize) :
    p + (pool.mem p).usedsize ∉ all := by
  have := h.used p hp
  refine h.tiles.notMem_inside hp (by omega) ?_
  unfold blockSize
  omega

/-- A block is cut out of free units. -/
theorem Holds.carve (h : pool.Holds (before ++ p :: after)) (hn : 0 < n) (hfit : n ≤ (pool.mem p).freesize) :
    (pool.carve p n).Holds (before ++ p :: (p + (pool.mem p).usedsize) :: after) := by
  have hp : p ∈ before ++ p :: after := List.mem_append_right _ List.mem_cons_self
  have hused := h.used p hp
  have hnew := h.notMem_new hp (Nat.lt_of_lt_of_le hn hfit)
  have hself := carve_mem_self (n := n) hused
  have hblock := carve_mem_new (n := n) hused
  have hle := h.blockSize_le hp
  have hsmall := h.small
  unfold blockSize at hle
  rw [uint_of_lt (by omega)] at hblock
  obtain ⟨hpbefore, hpafter⟩ := not_or.mp fun hor =>
    (List.nodup_cons.mp (List.perm_middle.nodup_iff.mp h.tiles.nodup)).1 (List.mem_append.mpr hor)
  rw [List.mem_append, List.mem_cons, not_or, not_or] at hnew
  have hother : ∀ i, i ≠ p → i ≠ p + (pool.mem p).usedsize → (pool.carve p n).mem i = pool.mem i :=
    fun i => carve_mem_of_ne
  have hbefore : ∀ i ∈ before, (pool.carve p n).mem i = pool.mem i := fun i hi =>
    hother i (fun heq => hpbefore (heq ▸ hi)) (fun heq => hnew.1 (heq ▸ hi))
  have hafter : ∀ i ∈ after, (pool.carve p n).mem i = pool.mem i := fun i hi =>
    hother i (fun heq => hpafter (heq ▸ hi)) (fun heq => hnew.2.2 (heq ▸ hi))
  obtain ⟨hcircle, hcircle'⟩ := segment_mid.mp h.circle
  obtain ⟨htiles, -, htiles'⟩ := tiles_mid.mp h.tiles
  have hsize : (pool.carve p n).blockSize p = (pool.mem p).usedsize := by
    rw [blockSize, hself, Nat.add_zero]
  have hsize' : (pool.carve p n).blockSize (p + (pool.mem p).usedsize) = (pool.mem p).freesize := by
    rw [blockSize, hblock, Nat.add_sub_cancel' hfit]
  refine ⟨segment_mid.mpr ⟨?_, ?_, ?_⟩, tiles_mid.mpr ⟨?_, ?_, ?_, ?_, ?_⟩, fun i hi => ?_, fun hzero => ?_, hsmall⟩
  · exact hcircle.congr fun i hi => congrArg Header.next (hbefore i hi)
  · exact congrArg Header.next hself
  · rw [next, hblock]
    exact hcircle'.congr fun i hi => congrArg Header.next (hafter i hi)
  · exact htiles.congr fun i hi => by rw [blockSize, hbefore i hi, blockSize]
  · rw [hsize]
    exact hused
  · rw [hsize]
  · rw [hsize']
    omega
  · rw [hsize', Nat.add_assoc]
    exact htiles'.congr fun i hi => by rw [blockSize, hafter i hi, blockSize]
  · rcases List.mem_append.mp hi with hi | hi
    · rw [hbefore i hi]
      exact h.used i (List.mem_append_left _ hi)
    · rcases List.mem_cons.mp hi with rfl | hi
      · rw [hself]
        exact hused
      · rcases List.mem_cons.mp hi with rfl | hi
        · rw [hblock]
          exact hn
        · rw [hafter i hi]
          exact h.used i (List.mem_append_right _ (List.mem_cons_of_mem p hi))
  · have hne : 0 ≠ p + (pool.mem p).usedsize := by omega
    have hold : 0 ∈ before ++ p :: after := by
      rw [List.mem_append, List.mem_cons, List.mem_cons] at hzero
      rw [List.mem_append, List.mem_cons]
      exact hzero.imp_right fun hrest => hrest.imp_right fun hrest => hrest.resolve_left hne
    by_cases hp₀ : 0 = p
    · subst hp₀
      rw [hself]
      exact h.first hold
    · rw [hother 0 hp₀ hne]
      exact h.first hold

/-- What `join` writes. -/
theorem join_mem_self (hsum : (pool.mem q).freesize + pool.blockSize p < 4294967296) :
    (pool.join q p).mem q =
      ⟨pool.next p, (pool.mem q).usedsize, (pool.mem q).freesize + pool.blockSize p⟩ := by
  unfold join
  dsimp only
  rw [onHeader_self]
  unfold blockSize at *
  rw [uint_of_lt (x := (pool.mem p).usedsize + (pool.mem p).freesize) (by omega), uint_of_lt hsum]
  rfl

theorem join_usedsize : ((pool.join q p).mem q).usedsize = (pool.mem q).usedsize := by
  unfold join
  dsimp only
  rw [onHeader_self]

theorem join_mem_of_ne (hi : i ≠ q) : (pool.join q p).mem i = pool.mem i := by
  unfold join
  dsimp only
  rw [onHeader_of_ne hi]

/-- A block is joined to the one before it. -/
theorem Holds.join (h : pool.Holds (before ++ q :: p :: after)) :
    (pool.join q p).Holds (before ++ q :: after) := by
  obtain ⟨hcircle, hcircle'⟩ := segment_mid.mp h.circle
  obtain ⟨htiles, hpos, hp, hpos', htiles'⟩ := tiles_mid.mp h.tiles
  have hused := h.used q (List.mem_append_right _ List.mem_cons_self)
  have hle := htiles'.length_le
  have hsmall := h.small
  have hself : (pool.join q p).mem q = _ := join_mem_self (by
    unfold blockSize at *
    omega)
  have hperm : (before ++ q :: p :: after).Perm (q :: (before ++ p :: after)) := List.perm_middle
  have hnot := (List.nodup_cons.mp (hperm.nodup_iff.mp h.tiles.nodup)).1
  rw [List.mem_append, List.mem_cons, not_or, not_or] at hnot
  have hbefore : ∀ i ∈ before, (pool.join q p).mem i = pool.mem i := fun i hi =>
    join_mem_of_ne fun heq => hnot.1 (heq ▸ hi)
  have hafter : ∀ i ∈ after, (pool.join q p).mem i = pool.mem i := fun i hi =>
    join_mem_of_ne fun heq => hnot.2.2 (heq ▸ hi)
  have hsize : (pool.join q p).blockSize q = pool.blockSize q + pool.blockSize p := by
    rw [blockSize, hself, ← Nat.add_assoc]
    rfl
  refine ⟨segment_mid.mpr ⟨?_, ?_⟩, tiles_mid.mpr ⟨?_, ?_, ?_⟩, fun i hi => ?_, fun hzero => ?_, hsmall⟩
  · exact hcircle.congr fun i hi => congrArg Header.next (hbefore i hi)
  · rw [next, hself]
    exact hcircle'.2.congr fun i hi => congrArg Header.next (hafter i hi)
  · exact htiles.congr fun i hi => by rw [blockSize, hbefore i hi, blockSize]
  · omega
  · rw [hsize, ← Nat.add_assoc, ← hp]
    exact htiles'.congr fun i hi => by rw [blockSize, hafter i hi, blockSize]
  · rcases List.mem_append.mp hi with hi | hi
    · rw [hbefore i hi]
      exact h.used i (List.mem_append_left _ hi)
    · rcases List.mem_cons.mp hi with rfl | hi
      · rw [hself]
        exact hused
      · rw [hafter i hi]
        exact h.used i (List.mem_append_right _ (List.mem_cons_of_mem _ (List.mem_cons_of_mem _ hi)))
  · have hold : 0 ∈ before ++ q :: p :: after := by
      rw [List.mem_append, List.mem_cons] at hzero
      rw [List.mem_append, List.mem_cons, List.mem_cons]
      exact hzero.imp_right fun hrest => hrest.imp_right .inr
    by_cases hq : 0 = q
    · subst hq
      rw [join_usedsize]
      exact h.first hold
    · rw [join_mem_of_ne hq]
      exact h.first hold

end MemoryPool

/-! ## the blocks -/

namespace MemoryRun

variable {memsize : BitVec 32} {s s' : MemoryRun} {all before after : List Nat} {m p q ap nbytes : Nat}
  {b : Nat × Nat}

/-- The headers are `all`; the live blocks are those behind all headers but the
first, and each of them has room for what was asked for. -/
structure Blocks (s : MemoryRun) (all : List Nat) : Prop where
  holds : s.pool.Holds all
  perm : (1 :: s.live.map (·.1)).Perm (all.map (· + 1))
  room : ∀ b ∈ s.live, b.2 ≤ headerSize * s.units b.1

namespace Blocks

theorem nodup (h : s.Blocks all) : (1 :: s.live.map (·.1)).Nodup :=
  h.perm.nodup_iff.mpr (List.Nodup.map (fun _ _ => Nat.add_right_cancel) h.holds.tiles.nodup)

/-- The header of a live block. -/
theorem exists_header (h : s.Blocks all) (hb : b ∈ s.live) : ∃ p ∈ all, b.1 = p + 1 ∧ p ≠ 0 := by
  have hmem : b.1 ∈ s.live.map (·.1) := List.mem_map_of_mem hb
  obtain ⟨p, hp, heq⟩ := List.mem_map.mp (h.perm.mem_iff.mp (List.mem_cons_of_mem 1 hmem))
  refine ⟨p, hp, heq.symm, ?_⟩
  rintro rfl
  rw [← heq] at hmem
  exact (List.nodup_cons.mp h.nodup).1 hmem

/-- Other live blocks with the same headers. -/
theorem room_congr {t : MemoryRun} (h : s.Blocks all) (hb : b ∈ s.live)
    (hused : ∀ p ∈ all, (t.pool.mem p).usedsize = (s.pool.mem p).usedsize) :
    b.2 ≤ headerSize * t.units b.1 := by
  obtain ⟨p, hp, heq, -⟩ := h.exists_header hb
  have hroom := h.room b hb
  rw [units, heq, Nat.add_sub_cancel] at hroom ⊢
  rw [hused p hp]
  exact hroom

theorem nunits_spec (hbytes : nbytes ≤ 4294967296 - headerSize) :
    0 < MemoryPool.nunits nbytes ∧ nbytes ≤ headerSize * (MemoryPool.nunits nbytes - 1) := by
  unfold headerSize at *
  unfold MemoryPool.nunits headerSize
  rw [uint_of_lt (x := nbytes + 16 - 1) (by omega), uint_of_lt (by omega)]
  omega

/-- A new block. -/
theorem carve (h : s.Blocks (before ++ p :: after)) (hbytes : nbytes ≤ 4294967296 - headerSize)
    (hfit : MemoryPool.nunits nbytes ≤ (s.pool.mem p).freesize) :
    (⟨s.pool.carve p (MemoryPool.nunits nbytes),
      (p + (s.pool.mem p).usedsize + 1, nbytes) :: s.live⟩ : MemoryRun).Blocks
        (before ++ p :: (p + (s.pool.mem p).usedsize) :: after) := by
  obtain ⟨hn, hroom⟩ := nunits_spec hbytes
  have hp : p ∈ before ++ p :: after := List.mem_append_right _ List.mem_cons_self
  have hused := h.holds.used p hp
  have hnew := h.holds.notMem_new hp (Nat.lt_of_lt_of_le hn hfit)
  refine ⟨h.holds.carve hn hfit, ?_, fun b hb => ?_⟩
  · have hperm : (before ++ p :: (p + (s.pool.mem p).usedsize) :: after).Perm
        ((p + (s.pool.mem p).usedsize) :: (before ++ p :: after)) := by
      rw [List.append_cons, List.append_cons before p after]
      exact List.perm_middle
    refine List.Perm.trans ?_ (hperm.map _).symm
    exact (List.Perm.swap _ _ _).trans (h.perm.cons _)
  · rcases List.mem_cons.mp hb with rfl | hb
    · change nbytes ≤ headerSize * (((s.pool.carve p _).mem (p + (s.pool.mem p).usedsize)).usedsize - 1)
      rw [MemoryPool.carve_mem_new hused]
      exact hroom
    · refine h.room_congr hb fun j hj => ?_
      by_cases hjp : j = p
      · subst hjp
        change ((s.pool.carve j _).mem j).usedsize = _
        rw [MemoryPool.carve_mem_self hused]
      · have hjnew : j ≠ p + (s.pool.mem p).usedsize := fun heq => hnew (heq ▸ hj)
        exact congrArg Header.usedsize (MemoryPool.carve_mem_of_ne hjp hjnew)

/-- A block is freed. -/
theorem join (h : s.Blocks (before ++ q :: p :: after)) (hp : p ≠ 0) :
    (⟨s.pool.join q p, s.live.filter (·.1 != p + 1)⟩ : MemoryRun).Blocks (before ++ q :: after) := by
  refine ⟨h.holds.join, ?_, fun b hb => ?_⟩
  · have hperm : (before ++ q :: p :: after).Perm (p :: (before ++ q :: after)) := by
      rw [List.append_cons, List.append_cons before q after]
      exact List.perm_middle
    have hmem : p + 1 ∈ s.live.map (·.1) := by
      have hall := h.perm.mem_iff.mpr (List.mem_map_of_mem (f := (· + 1)) (hperm.mem_iff.mpr List.mem_cons_self))
      exact (List.mem_cons.mp hall).resolve_left fun heq => hp (Nat.add_right_cancel heq)
    have hfilter : (s.live.filter (·.1 != p + 1)).map (·.1) = (s.live.map (·.1)).erase (p + 1) := by
      rw [(List.nodup_cons.mp h.nodup).2.erase_eq_filter, List.filter_map]
      rfl
    have herase : (1 :: s.live.map (·.1)).Perm ((p + 1) :: 1 :: (s.live.map (·.1)).erase (p + 1)) :=
      ((List.perm_cons_erase hmem).cons 1).trans (List.Perm.swap _ _ _)
    change (1 :: (s.live.filter (·.1 != p + 1)).map (·.1)).Perm _
    rw [hfilter]
    refine List.Perm.cons_inv (herase.symm.trans ?_)
    exact h.perm.trans (hperm.map _)
  · refine h.room_congr (List.mem_of_mem_filter hb) fun j hj => ?_
    by_cases hjq : j = q
    · subst hjq
      exact MemoryPool.join_usedsize
    · exact congrArg Header.usedsize (MemoryPool.join_mem_of_ne hjq)

/-- A live block is written to. -/
theorem write (h : s.Blocks all) (hb : b ∈ s.live) {i : Nat} (hi : b.1 ≤ i ∧ i < b.1 + s.units b.1)
    (header : Header) : (⟨s.pool.onHeader i fun _ => header, s.live⟩ : MemoryRun).Blocks all := by
  obtain ⟨p, hp, heq, -⟩ := h.exists_header hb
  have hnot : i ∉ all := by
    rw [units, heq, Nat.add_sub_cancel] at hi
    refine h.holds.tiles.notMem_inside hp (by omega) ?_
    unfold MemoryPool.blockSize
    omega
  have hsame : ∀ j ∈ all, (s.pool.onHeader i fun _ => header).mem j = s.pool.mem j := fun j hj =>
    MemoryPool.onHeader_of_ne fun heq => hnot (heq ▸ hj)
  exact ⟨h.holds.congr rfl hsame, h.perm,
    fun b hb => h.room_congr hb fun j hj => congrArg Header.usedsize (hsame j hj)⟩

end Blocks

/-! ## runs -/

/-- What every operation keeps. -/
structure Kept (memsize : BitVec 32) (s : MemoryRun) : Prop where
  memSize : s.pool.memSize = (memsize.toNat + headerSize - 1) / headerSize
  size : s.pool.size = memsize.toNat + headerSize
  blocks : (s.pool.memptr = none ∧ s.live = []) ∨
    ∃ m all, s.pool.memptr = some m ∧ m ∈ all ∧ s.Blocks all

/-- `pMalloc` starts to search at a header, also the first time. -/
theorem Kept.entry (h : s.Kept memsize) (hpos : memsize ≠ 0) :
    ∃ m pool all, s.pool.entry = (m, pool) ∧ (⟨pool, s.live⟩ : MemoryRun).Kept memsize ∧ m ∈ all ∧
      (⟨pool, s.live⟩ : MemoryRun).Blocks all := by
  unfold MemoryPool.entry
  obtain ⟨hnone, hlive⟩ | ⟨m, all, hm, hmem, hblocks⟩ := h.blocks
  · have hne : memsize.toNat ≠ 0 := fun heq => hpos (BitVec.eq_of_toNat_eq heq)
    have hlt := memsize.isLt
    have hsize := h.memSize
    have hstart : s.pool.start.Holds [0] := by
      unfold headerSize at hsize
      exact MemoryPool.start_holds (by omega) (by omega)
    rw [hnone]
    refine ⟨0, s.pool.start, [0], rfl, ⟨h.memSize, h.size, .inl ⟨hnone, hlive⟩⟩, List.mem_singleton_self 0,
      hstart, ?_, fun b hb => ?_⟩
    · rw [hlive]
      exact .refl _
    · change b ∈ s.live at hb
      rw [hlive] at hb
      exact absurd hb List.not_mem_nil
  · rw [hm]
    exact ⟨m, s.pool, all, rfl, h, hmem, hblocks⟩

theorem Kept.malloc (h : s.Kept memsize) (hpos : memsize ≠ 0) (hbytes : nbytes ≤ 4294967296 - headerSize) :
    ∃ s', s.step (.malloc nbytes) = .ok s' ∧ s'.Kept memsize := by
  obtain ⟨m, pool, all, hentry, hkept, hm, hblocks⟩ := h.entry hpos
  obtain ⟨p, hp, hfind, -⟩ := hblocks.holds.findFit (n := MemoryPool.nunits nbytes) hm
  have halloc := MemoryPool.pMalloc_eq hentry hfind
  by_cases hfit : (pool.mem p).freesize < MemoryPool.nunits nbytes
  · rw [if_pos hfit] at halloc
    refine ⟨⟨pool, s.live⟩, ?_, hkept⟩
    rw [step, halloc]
    rfl
  · rw [if_neg hfit] at halloc
    obtain ⟨before, after, rfl⟩ := List.append_of_mem hp
    refine ⟨⟨pool.carve p (MemoryPool.nunits nbytes), (p + (pool.mem p).usedsize + 1, nbytes) :: s.live⟩, ?_,
      hkept.memSize, hkept.size, .inr ⟨_, _, rfl, ?_, hblocks.carve hbytes (Nat.le_of_not_lt hfit)⟩⟩
    · rw [step, halloc]
      rfl
    · exact List.mem_append_right _ (List.mem_cons_of_mem _ List.mem_cons_self)

theorem Kept.free (h : s.Kept memsize) (hap : ap ∈ s.live.map (·.1)) :
    ∃ s', s.step (.free ap) = .ok s' ∧ s'.Kept memsize := by
  obtain ⟨b, hb, rfl⟩ := List.mem_map.mp hap
  obtain ⟨-, hlive⟩ | ⟨m, all, hm, hmem, hblocks⟩ := h.blocks
  · rw [hlive] at hb
    exact absurd hb List.not_mem_nil
  · obtain ⟨p, hp, heq, h₀⟩ := hblocks.exists_header hb
    obtain ⟨before, q, after, rfl, hfind⟩ := hblocks.holds.findPrev hmem hp h₀
    have hap : b.1 - 1 = p := by rw [heq, Nat.add_sub_cancel]
    rw [← hap] at hfind
    have hfree := MemoryPool.pFree_eq hm hfind
    rw [hap] at hfree
    refine ⟨⟨s.pool.join q p, s.live.filter (·.1 != p + 1)⟩, ?_, h.memSize, h.size,
      .inr ⟨q, _, rfl, ?_, hblocks.join h₀⟩⟩
    · rw [step, hfree, ← heq]
      rfl
    · exact List.mem_append_right _ List.mem_cons_self

theorem Kept.write (h : s.Kept memsize) {i : Nat} {header : Header} (hallows : s.Allows (.write i header)) :
    ∃ s', s.step (.write i header) = .ok s' ∧ s'.Kept memsize := by
  obtain ⟨b, hb, hi⟩ := hallows
  refine ⟨_, rfl, h.memSize, h.size, ?_⟩
  obtain ⟨-, hlive⟩ | ⟨m, all, hm, hmem, hblocks⟩ := h.blocks
  · rw [hlive] at hb
    exact absurd hb List.not_mem_nil
  · exact .inr ⟨m, all, hm, hmem, hblocks.write hb hi header⟩

theorem Kept.step (h : s.Kept memsize) (hpos : memsize ≠ 0) {op : MemoryOp} (hallows : s.Allows op) :
    ∃ s', s.step op = .ok s' ∧ s'.Kept memsize := by
  cases op with
  | malloc nbytes => exact h.malloc hpos hallows
  | free ap => exact h.free hallows
  | write i header => exact h.write hallows

theorem kept_of_reaches (hpos : memsize ≠ 0) (h : (machine memsize).Reaches s) : s.Kept memsize := by
  refine h.invariant (fun s hinit => ?_) fun s op s' hkept hallows hstep => ?_
  · obtain ⟨mem, rfl⟩ := hinit
    exact ⟨rfl, rfl, .inl ⟨rfl, rfl⟩⟩
  · obtain ⟨t, ht, hkept'⟩ := hkept.step hpos hallows
    change (s.step op).toOption = some s' at hstep
    rw [ht] at hstep
    cases hstep
    exact hkept'

/-! ## what it is for -/

/-- The header list: a circle that visits `all` in the order of their addresses,
from `data` on, and has `memptr`; each block lies behind the one before it, and
their sizes sum to the size of the arena. -/
structure Circle (s : MemoryRun) (m : Nat) (all : List Nat) : Prop where
  circle : Segment s.pool.next (some 0) all (some 0)
  order : all.Pairwise (· < ·)
  memptr : m ∈ all
  tiles : Tiles s.pool.blockSize 0 all s.pool.memSize
  sum : (all.map s.pool.blockSize).sum = s.pool.memSize

/-- The bytes behind the header of a live block: where they are and how many. -/
def payload (s : MemoryRun) (b : Nat × Nat) : Nat × Nat := (headerSize * b.1, headerSize * s.units b.1)

/-- The memory of live blocks: it does not overlap, lies in what `malloc` returned
for the arena, and is as large as was asked for. -/
structure Live (s : MemoryRun) : Prop where
  apart : s.live.Pairwise fun b c =>
    (s.payload b).1 + (s.payload b).2 ≤ (s.payload c).1 ∨ (s.payload c).1 + (s.payload c).2 ≤ (s.payload b).1
  inside : ∀ b ∈ s.live, (s.payload b).1 + (s.payload b).2 ≤ s.pool.size
  room : ∀ b ∈ s.live, b.2 ≤ (s.payload b).2

theorem Blocks.circle (h : s.Blocks all) (hm : m ∈ all) : s.Circle m all :=
  ⟨h.holds.circle, h.holds.tiles.lt, hm, h.holds.tiles, by
    have := h.holds.tiles.sum
    omega⟩

theorem Blocks.live (h : s.Blocks all) (hkept : s.Kept memsize) : s.Live := by
  have hnodup := (List.nodup_cons.mp h.nodup).2
  -- a payload lies in its block
  have hend : ∀ p ∈ all, headerSize * (p + 1) + headerSize * ((s.pool.mem p).usedsize - 1) ≤
      headerSize * (p + s.pool.blockSize p) := fun p hp => by
    have := h.holds.used p hp
    unfold MemoryPool.blockSize headerSize
    omega
  refine ⟨hnodup.of_map.pairwise_of_forall_ne fun b hb c hc hne => ?_, fun b hb => ?_, h.room⟩
  · obtain ⟨p, hp, hbp, -⟩ := h.exists_header hb
    obtain ⟨q, hq, hcq, -⟩ := h.exists_header hc
    have hpq : p ≠ q := by
      rintro rfl
      exact hne (List.inj_on_of_nodup_map hnodup hb hc (hbp.trans hcq.symm))
    have := hend p hp
    have := hend q hq
    have hapart := h.holds.tiles.apart hp hq hpq
    simp only [payload, units, hbp, hcq, Nat.add_sub_cancel]
    unfold headerSize at *
    omega
  · obtain ⟨p, hp, hbp, -⟩ := h.exists_header hb
    have := hend p hp
    have := (h.holds.tiles.bounds hp).2.2
    have hmem := hkept.memSize
    simp only [payload, units, hbp, Nat.add_sub_cancel, hkept.size]
    unfold headerSize at *
    omega

end MemoryRun

/-- In every state of every run the headers are a circle in the order of their
addresses whose blocks tile the arena, and the live blocks do not overlap, lie in
the arena and have the room that was asked for.  Before the first block is handed
out there is no header.  No operation fails to return. -/
theorem memoryPool_sound {memsize : BitVec 32} {s : MemoryRun} (hpos : memsize ≠ 0)
    (h : (MemoryRun.machine memsize).Reaches s) :
    (∀ m, s.pool.memptr = some m → ∃ all, s.Circle m all) ∧ s.Live ∧
      (s.pool.memptr = none → s.live = []) ∧ ∀ op, s.Allows op → ∃ s', s.step op = .ok s' := by
  have hkept := MemoryRun.kept_of_reaches hpos h
  have hstep : ∀ op, s.Allows op → ∃ s', s.step op = .ok s' := fun op hallows =>
    (hkept.step hpos hallows).imp fun _ hs => hs.1
  obtain ⟨hnone, hlive⟩ | ⟨m, all, hm, hmem, hblocks⟩ := hkept.blocks
  · refine ⟨fun m hm => ?_, ⟨?_, ?_, ?_⟩, fun _ => hlive, hstep⟩
    · cases hnone.symm.trans hm
    all_goals simp [hlive]
  · refine ⟨fun m' hm' => ?_, hblocks.live hkept, fun hnone => ?_, hstep⟩
    · cases hm.symm.trans hm'
      exact ⟨all, hblocks.circle hmem⟩
    · cases hm.symm.trans hnone

instance MemoryRun.decidableAllows (s : MemoryRun) (op : MemoryOp) : Decidable (s.Allows op) :=
  match op with
  | .malloc _ => inferInstanceAs (Decidable (_ ≤ _))
  | .free _ => inferInstanceAs (Decidable (_ ∈ _))
  | .write _ _ => inferInstanceAs (Decidable (∃ _ ∈ _, _))

instance MemoryRun.decidableMachineAllows (memsize : BitVec 32) (s : MemoryRun) (op : MemoryOp) :
    Decidable ((MemoryRun.machine memsize).allows s op) := inferInstanceAs (Decidable (s.Allows op))

/-- Blocks of 100 and of 90 bytes in an arena of 2000, of which the first is given
back and its units are taken again. -/
theorem memoryPool_sound_two :
    ∃ s, (MemoryRun.machine 2000).Reaches s ∧ s.live = [(2, 20), (10, 90)] ∧ s.Live := by
  obtain ⟨s, h, hlive⟩ := Machine.Reaches.exists_of_runTest
    (fun s => s.live == [(2, 20), (10, 90)]) [.malloc 100, .malloc 90, .free 2, .malloc 20]
    (.init ⟨fun _ => ⟨none, 0, 0⟩, rfl⟩ : (MemoryRun.machine 2000).Reaches _) (by decide +kernel)
  exact ⟨s, h, beq_iff_eq.mp hlive, (memoryPool_sound (by decide) h).2.1⟩

end PWebServer
