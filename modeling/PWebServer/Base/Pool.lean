import PWebServer.Lib.LinkedList
import PWebServer.Lib.Machine
import Mathlib.Data.List.Nodup
import Mathlib.Data.List.Perm.Basic
import Mathlib.Tactic.Ring

/-!
# Base.Pool

`vector.c`, `chunk.c` and `pool.c`: units of one size, cut out of chunks.  Each
unit stands behind a pointer, and the pointers thread the units that nobody
holds into a free list.

Addresses are numbers and the null pointer is `none`.  Allocation does not fail:
what `malloc` returns is an argument.  The sizes are `int`s, and arithmetic that
leaves that type is undefined; an operation that does so returns `none`.
-/

namespace PWebServer

open LinkedList

/-- The largest `int`. -/
def intMax : Int := 2147483647

/-- The result of `int` arithmetic. -/
def int (x : Int) : Option Int := if -intMax - 1 ≤ x ∧ x ≤ intMax then some x else none

theorem int_of_le {x : Int} (h₀ : 0 ≤ x) (h : x ≤ intMax) : int x = some x := by
  refine if_pos ⟨?_, h⟩
  unfold intMax
  omega

theorem int_eq_some {x y : Int} (h : int x = some y) : x ≤ intMax ∧ y = x := by
  unfold int at h
  split at h
  · next hx => exact ⟨hx.2, (Option.some.inj h).symm⟩
  · cases h

/-! ## `vector.c` -/

/-- `vector`.  The entries behind the last one that was pushed are `none` until
they have been written. -/
structure Vector (α : Type) where
  capacity : Nat
  used : Nat
  unitSize : Nat
  data : List (Option α)

section

variable {α : Type}

/-- `vectorInit`.  The memory is zeroed: every entry is `zero`. -/
def vectorInit (capacity unitSize : Nat) (zero : α) : Vector α where
  capacity := capacity
  used := 0
  unitSize := unitSize
  data := List.replicate capacity (some zero)

/-- The capacity `vectorResize` asks for: half as much again, and no less than
it needs. -/
def Vector.grown (vec : Vector α) (newCapacity : Nat) : Nat := max (vec.capacity * 3 / 2) newCapacity

/-- `vectorResize`.  What `realloc` adds is not written. -/
def vectorResize (vec : Vector α) (newCapacity : Nat) : Option (Vector α) :=
  if newCapacity ≤ vec.capacity then some vec
  else do
    let _ ← int (vec.grown newCapacity * vec.unitSize)
    pure { vec with
      capacity := vec.grown newCapacity
      data := vec.data ++ List.replicate (vec.grown newCapacity - vec.capacity) none }

/-- `vectorAt`: the entry, `NULL` where there is none. -/
def vectorAt (vec : Vector α) (pos : Nat) : Option (Option α) :=
  if vec.capacity ≤ pos then none else vec.data[pos]?

/-- `vectorPush`: the position of the new entry. -/
def vectorPush (vec : Vector α) : Option (Nat × Vector α) := do
  let used ← int (vec.used + 1)
  let vec ← vectorResize { vec with used := used.toNat } used.toNat
  pure (vec.used - 1, vec)

/-- Writing the entry at `pos`. -/
def Vector.set (vec : Vector α) (pos : Nat) (a : α) : Vector α :=
  { vec with data := vec.data.set pos (some a) }

end

/-! ## `chunk.c` -/

/-- `sizeof(void*)`, which is also `sizeof(chunk_slot)`. -/
def ptrSize : Nat := 8

/-- The loop of `chunkInit`: the slots of a chunk, each linked to the next. -/
def linkSlots (size : Nat) : Nat → Nat → (Nat → Option Nat) → Nat → Option Nat
  | 0, slot, mem => Function.update mem slot none
  | n + 1, slot, mem => linkSlots size n (slot + size) (Function.update mem slot (some (slot + size)))

/-- `chunkInit` on the memory `data` that `malloc` has returned. -/
def chunkInit (data : Nat) (unitSize unitNum : Nat) (mem : Nat → Option Nat) :
    Option (Nat → Option Nat) :=
  if unitNum = 0 then none
  else do
    let size ← int (unitSize + ptrSize)
    let bytes ← int (size * unitNum)
    let zeroed := fun a => if data ≤ a ∧ a < data + bytes.toNat then none else mem a
    pure (linkSlots size.toNat (unitNum - 1) data zeroed)

/-! ## `pool.c` -/

/-- `pool`, with the pointers in memory. -/
structure Pool where
  unitSize : Nat
  unitNum : Nat
  used : Int
  free : Option Nat
  chunks : Vector Nat
  mem : Nat → Option Nat

/-- `sizeof(chunk)` -/
def chunkSize : Nat := 8

/-- The chunks `poolInit` starts with, of the memory that `malloc` returns. -/
def initChunks (p : Pool) (i : Nat) : List Nat → Option Pool
  | [] => some p
  | data :: datas => do
      let mem ← chunkInit data p.unitSize p.unitNum p.mem
      initChunks { p with chunks := p.chunks.set i data, mem := mem } (i + 1) datas

/-- `poolInit`; `chunk_num` is the number of the `datas`. -/
def poolInit (unitSize : Int) (unitNum : Nat) (datas : List Nat) : Option Pool :=
  let p : Pool :=
    { unitSize := (max unitSize ptrSize).toNat
      unitNum := unitNum
      used := 0
      free := none
      chunks := vectorInit datas.length chunkSize 0
      mem := fun _ => none }
  initChunks p 0 datas

/-- A chunk is added. -/
def Pool.addChunk (p : Pool) (data : Nat) : Option Pool := do
  let (pos, chunks) ← vectorPush p.chunks
  let mem ← chunkInit data p.unitSize p.unitNum p.mem
  pure { p with chunks := chunks.set pos data, mem := mem, free := some data }

/-- The first part of `poolAlloc`: there is a free slot. -/
def Pool.refill (p : Pool) (data : Nat) : Option Pool :=
  match p.free with
  | some _ => some p
  | none => p.addChunk data

/-- `poolAlloc`; `data` is what `malloc` returns if it is called. -/
def poolAlloc (p : Pool) (data : Nat) : Option (Nat × Pool) := do
  let used ← int (p.used + 1)
  let p ← { p with used := used }.refill data
  let ret ← p.free
  pure (ret + ptrSize, { p with free := p.mem ret })

/-- `poolFree` -/
def poolFree (p : Pool) (x : Option Nat) : Pool :=
  match x with
  | none => p
  | some x =>
      let slot := x - ptrSize
      { p with used := p.used - 1, mem := Function.update p.mem slot p.free, free := some slot }

/-- A byte at `a` is written by whoever holds a unit: a pointer that has this
byte becomes some `v`. -/
def Pool.write (p : Pool) (a : Nat) (v : Option Nat) : Pool :=
  { p with mem := fun slot => if slot ≤ a ∧ a < slot + ptrSize then v else p.mem slot }

/-! ## the slots of a chunk -/

/-- `n` slots, one behind the other. -/
def chunkSlots (size : Nat) : Nat → Nat → List Nat
  | 0, _ => []
  | n + 1, slot => slot :: chunkSlots size n (slot + size)

/-- The blocks of `n` bytes at `x` and at `y` do not overlap. -/
def Beside (n : Nat) (x y : Nat) : Prop := x + n ≤ y ∨ y + n ≤ x

instance (n x y : Nat) : Decidable (Beside n x y) := inferInstanceAs (Decidable (_ ∨ _))

theorem Beside.symm {n : Nat} {x y : Nat} (h : Beside n x y) : Beside n y x := Or.symm h

theorem Beside.ne {n : Nat} {x y : Nat} (h : Beside n x y) (hn : 0 < n) : x ≠ y := by
  unfold Beside at h
  omega

theorem Beside.mono {m n : Nat} {x y : Nat} (h : Beside n x y) (hm : m ≤ n) : Beside m x y := by
  unfold Beside at *
  omega

section Slots

variable {size n : Nat} {slot data x y : Nat} {mem : Nat → Option Nat}

theorem chunkSlots_eq_map : chunkSlots size n slot = (List.range n).map fun i => slot + i * size := by
  induction n generalizing slot with
  | zero => rfl
  | succ n ih =>
      rw [chunkSlots, ih, List.range_succ_eq_map, List.map_cons, List.map_map, Nat.zero_mul, Nat.add_zero]
      congr 1
      refine List.map_congr_left fun i _ => ?_
      change slot + size + i * size = slot + (i + 1) * size
      ring

theorem mem_chunkSlots : x ∈ chunkSlots size n slot ↔ ∃ i < n, x = slot + i * size := by
  simp only [chunkSlots_eq_map, List.mem_map, List.mem_range, eq_comm]

theorem le_of_mem_chunkSlots (h : x ∈ chunkSlots size n slot) : slot ≤ x := by
  obtain ⟨i, -, rfl⟩ := mem_chunkSlots.mp h
  exact Nat.le_add_right _ _

/-- A slot lies in its chunk. -/
theorem end_le_of_mem_chunkSlots (h : x ∈ chunkSlots size n slot) : x + size ≤ slot + size * n := by
  obtain ⟨i, hi, rfl⟩ := mem_chunkSlots.mp h
  have : (i + 1) * size ≤ n * size := Nat.mul_le_mul_right size hi
  rw [Nat.mul_comm size n]
  rw [Nat.succ_mul] at this
  omega

theorem pairwise_chunkSlots : (chunkSlots size n slot).Pairwise (Beside size) := by
  induction n generalizing slot with
  | zero => exact .nil
  | succ n ih => exact .cons (fun x hx => .inl (le_of_mem_chunkSlots hx)) ih

/-- Slots of chunks that do not overlap. -/
theorem beside_of_mem_chunkSlots {slot' : Nat} (h : Beside (size * n) slot slot')
    (hx : x ∈ chunkSlots size n slot) (hy : y ∈ chunkSlots size n slot') : Beside size x y := by
  have := le_of_mem_chunkSlots hx
  have := le_of_mem_chunkSlots hy
  have := end_le_of_mem_chunkSlots hx
  have := end_le_of_mem_chunkSlots hy
  unfold Beside at *
  omega

/-- The loop writes slots only. -/
theorem linkSlots_of_lt (h : x < slot) : linkSlots size n slot mem x = mem x := by
  induction n generalizing slot mem with
  | zero => exact Function.update_of_ne h.ne _ _
  | succ n ih =>
      rw [linkSlots, ih (Nat.lt_add_right size h)]
      exact Function.update_of_ne h.ne _ _

theorem linkSlots_of_notMem (h : x ∉ chunkSlots size (n + 1) slot) : linkSlots size n slot mem x = mem x := by
  induction n generalizing slot mem with
  | zero =>
      rw [chunkSlots, List.mem_cons, not_or] at h
      exact Function.update_of_ne h.1 _ _
  | succ n ih =>
      rw [chunkSlots, List.mem_cons, not_or] at h
      rw [linkSlots, ih h.2]
      exact Function.update_of_ne h.1 _ _

/-- The loop makes the slots a list that ends. -/
theorem segment_linkSlots (hsize : 0 < size) :
    Segment (linkSlots size n slot mem) (some slot) (chunkSlots size (n + 1) slot) none := by
  induction n generalizing slot mem with
  | zero =>
      refine ⟨rfl, ?_⟩
      rw [linkSlots, Function.update_self]
      exact rfl
  | succ n ih =>
      refine ⟨rfl, ?_⟩
      rw [linkSlots, linkSlots_of_lt (Nat.lt_add_of_pos_right hsize), Function.update_self]
      exact ih

/-- What `chunkInit` computes fits an `int`. -/
def ChunkFits (unitSize unitNum : Nat) : Prop := ((unitSize + ptrSize) * unitNum : Int) ≤ intMax

instance (unitSize unitNum : Nat) : Decidable (ChunkFits unitSize unitNum) :=
  inferInstanceAs (Decidable (_ ≤ _))

theorem chunkInit_eq {unitSize unitNum : Nat} (hnum : 0 < unitNum) (hfits : ChunkFits unitSize unitNum) :
    chunkInit data unitSize unitNum mem =
      some (linkSlots (unitSize + ptrSize) (unitNum - 1) data fun a =>
        if data ≤ a ∧ a < data + (unitSize + ptrSize) * unitNum then none else mem a) := by
  have hone : unitSize + ptrSize ≤ (unitSize + ptrSize) * unitNum := Nat.le_mul_of_pos_right _ hnum
  have hsize : int (unitSize + ptrSize) = some ((unitSize + ptrSize : Nat) : Int) :=
    int_of_le (Int.natCast_nonneg (unitSize + ptrSize)) (le_trans (by exact_mod_cast hone) hfits)
  have hbytes : int ((unitSize + ptrSize : Nat) * unitNum) =
      some (((unitSize + ptrSize) * unitNum : Nat) : Int) :=
    int_of_le (Int.natCast_nonneg ((unitSize + ptrSize) * unitNum)) hfits
  rw [chunkInit, if_neg hnum.ne', hsize, Option.bind_eq_bind, Option.bind_some, hbytes]
  rfl

/-- `chunkInit` links the slots of the chunk and writes nowhere else. -/
theorem chunkInit_eq_some {unitSize unitNum : Nat} {mem' : Nat → Option Nat}
    (h : chunkInit data unitSize unitNum mem = some mem') :
    ChunkFits unitSize unitNum ∧
      Segment mem' (some data) (chunkSlots (unitSize + ptrSize) unitNum data) none ∧
      ∀ x, Beside ((unitSize + ptrSize) * unitNum) data x → mem' x = mem x := by
  have hnum : 0 < unitNum := by
    refine Nat.pos_of_ne_zero fun h₀ => ?_
    rw [chunkInit, if_pos h₀] at h
    cases h
  have hfits : ChunkFits unitSize unitNum := by
    rw [chunkInit, if_neg hnum.ne'] at h
    obtain ⟨size, hsize, h⟩ := Option.bind_eq_some_iff.mp h
    obtain ⟨bytes, hbytes, -⟩ := Option.bind_eq_some_iff.mp h
    obtain ⟨-, rfl⟩ := int_eq_some hsize
    exact (int_eq_some hbytes).1
  rw [chunkInit_eq hnum hfits] at h
  obtain ⟨n, rfl⟩ : ∃ n, unitNum = n + 1 := ⟨unitNum - 1, by omega⟩
  cases h
  refine ⟨hfits, segment_linkSlots (Nat.add_pos_right unitSize (by decide)), fun x hx => ?_⟩
  rw [Nat.add_sub_cancel, linkSlots_of_notMem, if_neg]
  · unfold Beside at hx
    omega
  · intro hmem
    have := le_of_mem_chunkSlots hmem
    have := end_le_of_mem_chunkSlots hmem
    unfold Beside at hx
    unfold ptrSize at *
    omega

end Slots

/-! ## the vector -/

section

variable {α : Type} {vec vec' : Vector α} {xs : List α} {pos : Nat}

/-- The entries that were pushed are `xs`, and the rest of the memory is not
written. -/
structure Vector.Holds (vec : Vector α) (xs : List α) : Prop where
  used : vec.used = xs.length
  le : xs.length ≤ vec.capacity
  data : vec.data = xs.map some ++ List.replicate (vec.capacity - xs.length) none

/-- What `vectorPush` computes fits an `int`. -/
def Vector.PushFits (vec : Vector α) : Prop :=
  (vec.used + 1 : Int) ≤ intMax ∧
    (vec.capacity < vec.used + 1 → (vec.grown (vec.used + 1) * vec.unitSize : Int) ≤ intMax)

/-- The entries that have been written. -/
def Vector.written (vec : Vector α) : List α := vec.data.filterMap id

theorem Vector.Holds.written (h : vec.Holds xs) : vec.written = xs := by
  rw [Vector.written, h.data, List.filterMap_append, List.filterMap_map,
    List.filterMap_replicate_of_none rfl]
  simp

theorem vectorInit_holds (unitSize : Nat) (zero : α) : (vectorInit 0 unitSize zero).Holds [] :=
  ⟨rfl, le_rfl, rfl⟩

/-- The capacity after `vectorPush`. -/
def Vector.pushCapacity (vec : Vector α) : Nat :=
  if vec.used + 1 ≤ vec.capacity then vec.capacity else vec.grown (vec.used + 1)

theorem Vector.le_pushCapacity : vec.capacity ≤ vec.pushCapacity ∧ vec.used + 1 ≤ vec.pushCapacity := by
  unfold Vector.pushCapacity Vector.grown
  split <;> omega

theorem vectorPush_eq (h : vec.PushFits) :
    vectorPush vec = some (vec.used, { vec with
      used := vec.used + 1
      capacity := vec.pushCapacity
      data := vec.data ++ List.replicate (vec.pushCapacity - vec.capacity) none }) := by
  have hused : int (vec.used + 1) = some ((vec.used + 1 : Nat) : Int) :=
    int_of_le (Int.natCast_nonneg (vec.used + 1)) h.1
  rw [vectorPush, hused, Option.bind_eq_bind, Option.bind_some, Int.toNat_natCast, vectorResize,
    Vector.pushCapacity]
  split
  · simp
  · next hcap =>
      have hgrown : int (vec.grown (vec.used + 1) * vec.unitSize) = some _ :=
        int_of_le (Int.natCast_nonneg (vec.grown (vec.used + 1) * vec.unitSize)) (h.2 (not_le.mp hcap))
      simp only [Vector.grown] at hgrown ⊢
      rw [hgrown]
      rfl

theorem pushFits_of_eq_some {r : Nat × Vector α} (h : vectorPush vec = some r) : vec.PushFits := by
  unfold vectorPush at h
  obtain ⟨used, hused, h⟩ := Option.bind_eq_some_iff.mp h
  obtain ⟨hle, rfl⟩ := int_eq_some hused
  refine ⟨hle, fun hcap => ?_⟩
  rw [Int.toNat_natCast_add_one] at h
  obtain ⟨vec', hresize, -⟩ := Option.bind_eq_some_iff.mp h
  rw [vectorResize, if_neg (not_le.mpr hcap)] at hresize
  obtain ⟨bytes, hbytes, -⟩ := Option.bind_eq_some_iff.mp hresize
  exact (int_eq_some hbytes).1

theorem Vector.Holds.push (h : vec.Holds xs) (hpush : vectorPush vec = some (pos, vec')) (a : α) :
    (vec'.set pos a).Holds (xs ++ [a]) := by
  rw [vectorPush_eq (pushFits_of_eq_some hpush)] at hpush
  cases hpush
  have hcap := vec.le_pushCapacity
  rw [h.used] at hcap
  refine ⟨by simp [Vector.set, h.used], by simpa [Vector.set] using hcap.2, ?_⟩
  obtain ⟨k, hk⟩ : ∃ k, vec.pushCapacity - xs.length = k + 1 := ⟨vec.pushCapacity - xs.length - 1, by omega⟩
  have hrep : List.replicate (vec.capacity - xs.length) (none : Option α) ++
      List.replicate (vec.pushCapacity - vec.capacity) none = none :: List.replicate k none := by
    rw [List.replicate_append_replicate, ← List.replicate_succ, ← hk]
    congr 1
    have := h.le
    omega
  have hlen : vec.pushCapacity - (xs ++ [a]).length = k := by
    rw [List.length_append, List.length_singleton]
    omega
  simp only [Vector.set, h.used, h.data, List.append_assoc, hrep, hlen]
  rw [List.set_append_right _ _ (by simp)]
  simp

end

/-! ## the pool -/

section

variable {p p' : Pool} {bases free live : List Nat} {x slot data a : Nat}

/-- A slot: the pointer and the unit behind it. -/
def Pool.slotSize (p : Pool) : Nat := p.unitSize + ptrSize

/-- The slots of the chunks at `bases`. -/
def Pool.slots (p : Pool) (bases : List Nat) : List Nat := bases.flatMap (chunkSlots p.slotSize p.unitNum)

/-- The pool has the chunks `bases`; of their slots those in `free` are on the
free list, in that order, and the units `live` are held by somebody. -/
structure Pool.Holds (p : Pool) (bases free live : List Nat) : Prop where
  num : 0 < p.unitNum
  chunks : p.chunks.Holds bases
  apart : bases.Pairwise (Beside (p.slotSize * p.unitNum))
  list : Segment p.mem p.free free none
  perm : (free.map (· + ptrSize) ++ live).Perm ((p.slots bases).map (· + ptrSize))

theorem Pool.slotSize_pos : 0 < p.slotSize := Nat.add_pos_right p.unitSize (by decide)

theorem Pool.pairwise_slots (h : bases.Pairwise (Beside (p.slotSize * p.unitNum))) :
    (p.slots bases).Pairwise (Beside p.slotSize) :=
  List.pairwise_flatMap.mpr ⟨fun _ _ => pairwise_chunkSlots,
    h.imp fun hapart _ hx _ hy => beside_of_mem_chunkSlots hapart hx hy⟩

namespace Pool.Holds

theorem pairwise (h : p.Holds bases free live) :
    (free.map (· + ptrSize) ++ live).Pairwise (Beside p.slotSize) := by
  rw [h.perm.pairwise_iff fun h => h.symm, List.pairwise_map]
  exact (Pool.pairwise_slots h.apart).imp fun h => by unfold Beside at *; omega

theorem nodup (h : p.Holds bases free live) : (free.map (· + ptrSize) ++ live).Nodup :=
  h.pairwise.imp fun h => h.ne Pool.slotSize_pos

theorem nodup_free (h : p.Holds bases free live) : free.Nodup :=
  List.Nodup.of_map (· + ptrSize) (List.nodup_append.mp h.nodup).1

/-- The units that are held do not overlap. -/
theorem pairwise_live (h : p.Holds bases free live) : live.Pairwise (Beside p.unitSize) :=
  (List.pairwise_append.mp h.pairwise).2.1.imp fun h => h.mono (Nat.le_add_right _ _)

/-- The pointer of a slot on the free list is no part of a unit. -/
theorem apart_unit (h : p.Holds bases free live) (hslot : slot ∈ free) (hx : x ∈ live) :
    slot + ptrSize + p.unitSize ≤ x - ptrSize ∨ x + p.unitSize ≤ slot := by
  have hapart := (List.pairwise_append.mp h.pairwise).2.2 _ (List.mem_map_of_mem hslot) x hx
  unfold Beside Pool.slotSize at hapart
  omega

/-- A slot is on the free list or its unit is held. -/
theorem mem_free_iff (h : p.Holds bases free live) (hslot : slot ∈ p.slots bases) :
    slot ∈ free ↔ slot + ptrSize ∉ live := by
  have hmem : slot + ptrSize ∈ free.map (· + ptrSize) ++ live :=
    h.perm.mem_iff.mpr (List.mem_map_of_mem hslot)
  constructor
  · intro hfree hlive
    exact (List.nodup_append.mp h.nodup).2.2 _ (List.mem_map_of_mem hfree) _ hlive rfl
  · intro hlive
    cases List.mem_append.mp hmem with
    | inl hfree =>
        obtain ⟨slot', hslot', heq⟩ := List.mem_map.mp hfree
        rwa [← Nat.add_right_cancel heq]
    | inr hl => exact absurd hl hlive

theorem mem_slots_of_free (h : p.Holds bases free live) (hslot : slot ∈ free) : slot ∈ p.slots bases := by
  have hmem := h.perm.mem_iff.mp (List.mem_append_left _ (List.mem_map_of_mem hslot))
  obtain ⟨slot', hslot', heq⟩ := List.mem_map.mp hmem
  rwa [← Nat.add_right_cancel heq]

theorem exists_slot (h : p.Holds bases free live) (hx : x ∈ live) :
    ∃ slot ∈ p.slots bases, x = slot + ptrSize := by
  obtain ⟨slot, hslot, heq⟩ := List.mem_map.mp (h.perm.mem_iff.mp (List.mem_append_right _ hx))
  exact ⟨slot, hslot, heq.symm⟩

/-- The free list is empty exactly if all units are held. -/
theorem mem_live_of_nil (h : p.Holds bases [] live) (hslot : slot ∈ p.slots bases) :
    slot + ptrSize ∈ live := by
  by_contra hlive
  exact absurd ((h.mem_free_iff hslot).mpr hlive) List.not_mem_nil

theorem free_none_iff (h : p.Holds bases free live) : p.free = none ↔ free = [] := by
  constructor
  · intro hnone
    have hlist := h.list
    rw [hnone] at hlist
    exact hlist.unique rfl
  · rintro rfl
    exact h.list

/-! ### what the operations do -/

/-- The first unit of the free list is handed out. -/
theorem take (h : p.Holds bases (slot :: free) live) :
    { p with free := p.mem slot }.Holds bases free ((slot + ptrSize) :: live) where
  num := h.num
  chunks := h.chunks
  apart := h.apart
  list := h.list.2
  perm := List.perm_middle.trans h.perm

/-- A unit is given back. -/
theorem release (h : p.Holds bases free live) (hx : x ∈ live) :
    (poolFree p (some x)).Holds bases ((x - ptrSize) :: free) (live.erase x) := by
  obtain ⟨slot, hslot, rfl⟩ := h.exists_slot hx
  have hnew : slot ∉ free := fun hfree => (h.mem_free_iff hslot).mp hfree hx
  rw [Nat.add_sub_cancel]
  refine ⟨h.num, h.chunks, h.apart, ?_, ?_⟩
  · rw [poolFree, Nat.add_sub_cancel]
    exact h.list.push hnew
  · refine List.Perm.trans ?_ h.perm
    refine List.perm_middle.symm.trans (List.Perm.append_left _ ?_)
    exact (List.perm_cons_erase hx).symm

/-- With no unit left a chunk is added, and all its units are free. -/
theorem addChunk (h : p.Holds bases [] live) (hfresh : ∀ c ∈ bases, Beside (p.slotSize * p.unitNum) c data)
    (hadd : p.addChunk data = some p') :
    p'.Holds (bases ++ [data]) (chunkSlots p.slotSize p.unitNum data) live ∧
      p'.used = p.used ∧ p'.unitSize = p.unitSize ∧ p'.unitNum = p.unitNum := by
  unfold Pool.addChunk at hadd
  obtain ⟨⟨pos, chunks⟩, hpush, hadd⟩ := Option.bind_eq_some_iff.mp hadd
  obtain ⟨mem, hinit, hadd⟩ := Option.bind_eq_some_iff.mp hadd
  cases hadd
  obtain ⟨-, hlist, -⟩ := chunkInit_eq_some hinit
  refine ⟨⟨h.num, h.chunks.push hpush data, ?_, hlist, ?_⟩, rfl, rfl, rfl⟩
  · exact List.pairwise_append.mpr ⟨h.apart, List.pairwise_singleton _ _,
      fun c hc d hd => List.mem_singleton.mp hd ▸ hfresh c hc⟩
  · have hperm : live.Perm ((p.slots bases).map (· + ptrSize)) := h.perm
    simp only [Pool.slots, List.flatMap_append, List.flatMap_singleton, List.map_append]
    exact List.perm_append_comm.trans (hperm.append_right _)

/-- Whoever holds a unit may write to it. -/
theorem write (h : p.Holds bases free live) (hx : x ∈ live) (ha : x ≤ a ∧ a < x + p.unitSize)
    (v : Option Nat) : (p.write a v).Holds bases free live where
  num := h.num
  chunks := h.chunks
  apart := h.apart
  list := by
    refine h.list.congr fun slot hslot => if_neg ?_
    have := h.apart_unit hslot hx
    obtain ⟨slot', -, rfl⟩ := h.exists_slot hx
    omega
  perm := h.perm

end Pool.Holds

/-- What `poolAlloc` computes fits an `int`. -/
def Pool.AllocFits (p : Pool) : Prop :=
  p.used + 1 ≤ intMax ∧ (p.free = none → p.chunks.PushFits ∧ ChunkFits p.unitSize p.unitNum)

/-- There is a free slot if a chunk can be added when it has to be. -/
theorem Pool.refill_isSome (data : Nat) (hnum : 0 < p.unitNum) :
    (∃ q, p.refill data = some q ∧ ∃ slot, q.free = some slot) ↔
      (p.free = none → p.chunks.PushFits ∧ ChunkFits p.unitSize p.unitNum) := by
  unfold Pool.refill
  cases hfree : p.free with
  | some slot => simp [hfree]
  | none =>
      unfold Pool.addChunk
      constructor
      · rintro ⟨q, hadd, -⟩ -
        obtain ⟨r, hpush, hadd⟩ := Option.bind_eq_some_iff.mp hadd
        obtain ⟨mem, hinit, -⟩ := Option.bind_eq_some_iff.mp hadd
        exact ⟨pushFits_of_eq_some hpush, (chunkInit_eq_some hinit).1⟩
      · intro hgrow
        obtain ⟨hpush, hchunk⟩ := hgrow rfl
        rw [vectorPush_eq hpush, Option.bind_eq_bind, Option.bind_some, chunkInit_eq hnum hchunk]
        exact ⟨_, rfl, data, rfl⟩

/-- A free slot, of the old chunks or of a new one. -/
theorem Pool.Holds.refill (h : p.Holds bases free live)
    (hfresh : p.free = none → ∀ c ∈ bases, Beside (p.slotSize * p.unitNum) c data)
    (hrefill : p.refill data = some p') :
    ∃ bases' free', p'.Holds bases' free' live ∧ p'.used = p.used ∧ p'.unitSize = p.unitSize ∧
      p'.unitNum = p.unitNum ∧ (bases' = bases ∨ p.free = none ∧ bases' = bases ++ [data]) := by
  unfold Pool.refill at hrefill
  split at hrefill
  · cases hrefill
    exact ⟨bases, free, h, rfl, rfl, rfl, .inl rfl⟩
  · next hnone =>
      have hnil := h.free_none_iff.mp hnone
      subst hnil
      obtain ⟨hholds, hused, hsize, hnum⟩ := h.addChunk (hfresh hnone) hrefill
      exact ⟨_, _, hholds, hused, hsize, hnum, .inr ⟨hnone, rfl⟩⟩

/-- `poolAlloc` hands out a unit that nobody held, and adds a chunk only if it
has no free slot. -/
theorem Pool.Holds.alloc (h : p.Holds bases free live)
    (hfresh : p.free = none → ∀ c ∈ bases, Beside (p.slotSize * p.unitNum) c data)
    (halloc : poolAlloc p data = some (x, p')) :
    x ∉ live ∧ ∃ bases' free', p'.Holds bases' free' (x :: live) ∧ p'.used = p.used + 1 ∧
      p'.unitSize = p.unitSize ∧ p'.unitNum = p.unitNum ∧
        (bases' = bases ∨ p.free = none ∧ bases' = bases ++ [data]) := by
  unfold poolAlloc at halloc
  obtain ⟨used, hused, halloc⟩ := Option.bind_eq_some_iff.mp halloc
  obtain ⟨-, rfl⟩ := int_eq_some hused
  obtain ⟨q, hq, halloc⟩ := Option.bind_eq_some_iff.mp halloc
  obtain ⟨slot, hslot, halloc⟩ := Option.bind_eq_some_iff.mp halloc
  cases halloc
  have hcounted : { p with used := p.used + 1 }.Holds bases free live :=
    ⟨h.num, h.chunks, h.apart, h.list, h.perm⟩
  obtain ⟨bases', free', hholds, hused', hsize, hnum, hbases⟩ := hcounted.refill hfresh hq
  have hlist := hholds.list
  rw [hslot] at hlist
  obtain ⟨free', rfl, -⟩ := hlist.exists_cons
  refine ⟨?_, bases', free', hholds.take, hused', hsize, hnum, hbases⟩
  exact (hholds.mem_free_iff (hholds.mem_slots_of_free List.mem_cons_self)).mp List.mem_cons_self

/-- `poolAlloc` is defined exactly if what it computes fits an `int`. -/
theorem Pool.alloc_isSome (data : Nat) (hnum : 0 < p.unitNum) (hused : 0 ≤ p.used) :
    (∃ x p', poolAlloc p data = some (x, p')) ↔ p.AllocFits := by
  have hrefill := Pool.refill_isSome (p := { p with used := p.used + 1 }) data hnum
  unfold poolAlloc Pool.AllocFits
  constructor
  · rintro ⟨x, p', halloc⟩
    obtain ⟨used, hint, halloc⟩ := Option.bind_eq_some_iff.mp halloc
    obtain ⟨hle, rfl⟩ := int_eq_some hint
    obtain ⟨q, hq, halloc⟩ := Option.bind_eq_some_iff.mp halloc
    obtain ⟨slot, hslot, -⟩ := Option.bind_eq_some_iff.mp halloc
    exact ⟨hle, hrefill.mp ⟨q, hq, slot, hslot⟩⟩
  · rintro ⟨hle, hgrow⟩
    obtain ⟨q, hq, slot, hslot⟩ := hrefill.mpr hgrow
    rw [int_of_le (by omega) hle, Option.bind_eq_bind, Option.bind_some, hq, Option.bind_eq_bind,
      Option.bind_some, hslot]
    exact ⟨_, _, rfl⟩

end

/-! ## runs -/

/-- A pool, and the units that are held. -/
structure PoolRun where
  pool : Pool
  live : List Nat

/-- What is done with a pool.  `data` is what `malloc` returns if it is called,
`v` what a pointer becomes that shares the byte at `a`. -/
inductive PoolOp where
  | alloc (data : Nat)
  | free (x : Nat)
  | write (a : Nat) (v : Option Nat)

namespace PoolRun

variable {s s' : PoolRun} {op : PoolOp} {unitSize : Int} {unitNum data : Nat}

/-- `malloc` returns memory that is not in use, and only units that are held are
given back and written to. -/
def Allows (s : PoolRun) : PoolOp → Prop
  | .alloc data => s.pool.free = none →
      ∀ c ∈ s.pool.chunks.written, Beside (s.pool.slotSize * s.pool.unitNum) c data
  | .free x => x ∈ s.live
  | .write a _ => ∃ x ∈ s.live, x ≤ a ∧ a < x + s.pool.unitSize

/-- One operation. -/
def step (s : PoolRun) : PoolOp → Option PoolRun
  | .alloc data => do
      let (x, pool) ← poolAlloc s.pool data
      pure ⟨pool, x :: s.live⟩
  | .free x => some ⟨poolFree s.pool (some x), s.live.erase x⟩
  | .write a v => some ⟨s.pool.write a v, s.live⟩

/-- A pool that starts without chunks. -/
def machine (unitSize : Int) (unitNum : Nat) : Machine PoolRun PoolOp where
  init s := (poolInit unitSize unitNum []).map (⟨·, []⟩) = some s
  allows := Allows
  step := step

/-- The slots of all chunks. -/
def slots (s : PoolRun) : List Nat := s.pool.slots s.pool.chunks.written

/-- The units that are held do not overlap and are `used` many; the others are
on the free list, each of them once. -/
structure Sound (s : PoolRun) : Prop where
  apart : s.live.Pairwise (Beside s.pool.unitSize)
  used : s.pool.used = s.live.length
  free : ∃ free, Segment s.pool.mem s.pool.free free none ∧ free.Nodup ∧
    ∀ slot, slot ∈ free ↔ slot ∈ s.slots ∧ slot + ptrSize ∉ s.live

/-- `poolAlloc` returns a unit that is not held, and adds a chunk only if all
units are. -/
def AllocSound (s : PoolRun) (data : Nat) : Prop :=
  ∃ x p, poolAlloc s.pool data = some (x, p) ∧ x ∉ s.live ∧
    (p.chunks.used ≠ s.pool.chunks.used → ∀ slot ∈ s.slots, slot + ptrSize ∈ s.live)

/-- What every operation keeps. -/
def Kept (s : PoolRun) : Prop :=
  s.pool.used = s.live.length ∧ ∃ bases free, s.pool.Holds bases free s.live

theorem Kept.alloc (h : s.Kept) (hallows : s.Allows (.alloc data)) {x : Nat} {p : Pool}
    (halloc : poolAlloc s.pool data = some (x, p)) :
    (⟨p, x :: s.live⟩ : PoolRun).Kept ∧ x ∉ s.live ∧
      (p.chunks.used ≠ s.pool.chunks.used → s.pool.free = none) := by
  obtain ⟨hused, bases, free, hholds⟩ := h
  obtain ⟨hx, bases', free', hholds', hused', -, -, hbases⟩ :=
    hholds.alloc (hholds.chunks.written ▸ hallows) halloc
  refine ⟨⟨?_, bases', free', hholds'⟩, hx, fun hne => ?_⟩
  · rw [hused', hused]
    rfl
  · cases hbases with
    | inl hsame => exact absurd (by rw [hholds'.chunks.used, hholds.chunks.used, hsame]) hne
    | inr hnew => exact hnew.1

theorem Kept.step (h : s.Kept) (hallows : s.Allows op) (hstep : s.step op = some s') : s'.Kept := by
  cases op with
  | alloc data =>
      obtain ⟨⟨x, p⟩, halloc, hs⟩ := Option.bind_eq_some_iff.mp hstep
      cases hs
      exact (h.alloc hallows halloc).1
  | free x =>
      obtain ⟨hused, bases, free, hholds⟩ := h
      cases hstep
      have := List.length_pos_of_mem (a := x) hallows
      refine ⟨?_, bases, _, hholds.release hallows⟩
      change s.pool.used - 1 = _
      rw [List.length_erase_of_mem hallows, hused]
      omega
  | write a v =>
      obtain ⟨hused, bases, free, hholds⟩ := h
      obtain ⟨x, hx, ha⟩ := hallows
      cases hstep
      exact ⟨hused, bases, free, hholds.write hx ha v⟩

theorem kept_of_reaches (hnum : 0 < unitNum) (h : (machine unitSize unitNum).Reaches s) : s.Kept := by
  refine h.invariant (fun s hinit => ?_) fun _ _ _ hkept hallows hstep => hkept.step hallows hstep
  cases hinit
  exact ⟨rfl, [], [], hnum, vectorInit_holds chunkSize 0, .nil, rfl, .nil⟩

theorem Kept.sound (h : s.Kept) : s.Sound := by
  obtain ⟨hused, bases, free, hholds⟩ := h
  have hslots : s.slots = s.pool.slots bases := by rw [slots, hholds.chunks.written]
  refine ⟨hholds.pairwise_live, hused, free, hholds.list, hholds.nodup_free, fun slot => ?_⟩
  rw [hslots]
  constructor
  · intro hslot
    have hmem := hholds.mem_slots_of_free hslot
    exact ⟨hmem, (hholds.mem_free_iff hmem).mp hslot⟩
  · rintro ⟨hmem, hlive⟩
    exact (hholds.mem_free_iff hmem).mpr hlive

theorem Kept.allocSound_iff (h : s.Kept) (hallows : s.Allows (.alloc data)) :
    s.AllocSound data ↔ s.pool.AllocFits := by
  obtain ⟨hused, bases, free, hholds⟩ := id h
  rw [← Pool.alloc_isSome data hholds.num (by omega)]
  constructor
  · rintro ⟨x, p, halloc, -⟩
    exact ⟨x, p, halloc⟩
  · rintro ⟨x, p, halloc⟩
    obtain ⟨-, hx, hchunk⟩ := h.alloc hallows halloc
    refine ⟨x, p, halloc, hx, fun hne slot hslot => ?_⟩
    have hnil := hholds.free_none_iff.mp (hchunk hne)
    subst hnil
    rw [slots, hholds.chunks.written] at hslot
    exact hholds.mem_live_of_nil hslot

end PoolRun

/-- In every state of every run the units that are held do not overlap, `used`
is their number, and the others are on the free list once each; and `poolAlloc`
hands out a unit that is not held, with a new chunk only if there is no other,
exactly if the numbers it computes fit an `int`. -/
theorem pool_sound {unitSize : Int} {unitNum : Nat} {s : PoolRun} (hnum : 0 < unitNum)
    (h : (PoolRun.machine unitSize unitNum).Reaches s) :
    s.Sound ∧ ∀ data, s.Allows (.alloc data) → (s.AllocSound data ↔ s.pool.AllocFits) :=
  ⟨(PoolRun.kept_of_reaches hnum h).sound,
    fun _ hallows => (PoolRun.kept_of_reaches hnum h).allocSound_iff hallows⟩

instance (s : PoolRun) (op : PoolOp) : Decidable (s.Allows op) :=
  match op with
  | .alloc _ => inferInstanceAs (Decidable (_ → ∀ _ ∈ _, _))
  | .free _ => inferInstanceAs (Decidable (_ ∈ _))
  | .write _ _ => inferInstanceAs (Decidable (∃ _ ∈ _, _))

instance (unitSize : Int) (unitNum : Nat) (s : PoolRun) (op : PoolOp) :
    Decidable ((PoolRun.machine unitSize unitNum).allows s op) := inferInstanceAs (Decidable (s.Allows op))

/-- A pool with two units a chunk, of which three are held. -/
theorem pool_sound_threeUnits :
    ∃ s, (PoolRun.machine 4 2).Reaches s ∧ s.live = [1048, 1024, 1008] ∧
      s.Sound ∧ ∀ data, s.Allows (.alloc data) → (s.AllocSound data ↔ s.pool.AllocFits) := by
  obtain ⟨s, h, hlive⟩ := Machine.Reaches.exists_of_runTest
    (fun s => s.live == [1048, 1024, 1008]) [.alloc 1000, .alloc 1040, .alloc 1040]
    (.init rfl : (PoolRun.machine 4 2).Reaches _) (by decide +kernel)
  exact ⟨s, h, beq_iff_eq.mp hlive, pool_sound (by decide) h⟩

/-- The bytes of `2 ^ 28` slots of 16 bytes do not fit an `int`. -/
theorem pool_overflow :
    ∃ s, (PoolRun.machine 8 268435456).Reaches s ∧ s.Allows (.alloc 1000) ∧ ¬ s.AllocSound 1000 := by
  have h : (PoolRun.machine 8 268435456).Reaches _ := .init rfl
  refine ⟨_, h, fun _ _ => nofun, ?_⟩
  rw [(PoolRun.kept_of_reaches (by decide) h).allocSound_iff fun _ _ => nofun]
  rintro ⟨-, hgrow⟩
  exact absurd (hgrow rfl).2 (by decide)

end PWebServer
