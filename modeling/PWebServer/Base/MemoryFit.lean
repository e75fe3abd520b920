import PWebServer.Base.MemoryPool

/-!
# Base.MemoryFit

What `pMalloc` finds.  A unit of the arena is free if it is not the first one,
which is the header at `data`, and is no part of a live block; `pMalloc` returns
`NULL` only if no run of free units is as long as what it needs, and the last block
that is freed leaves one run.  The units are counted with 32 bits, which wrap for
the last sizes of all.
-/

namespace PWebServer

open LinkedList Tiling

namespace MemoryRun

variable {memsize : BitVec 32} {s s' : MemoryRun} {all : List Nat} {m p ap a n i k nbytes : Nat} {b : Nat × Nat}

/-- A unit of the arena that is in use by nobody. -/
structure Free (s : MemoryRun) (i : Nat) : Prop where
  inside : i < s.pool.memSize
  first : i ≠ 0
  live : ∀ b ∈ s.live, ¬(b.1 - 1 ≤ i ∧ i < b.1 + s.units b.1)

/-- The `n` units from `a` on are free, and those next to them are not. -/
structure MaximalRun (s : MemoryRun) (a n : Nat) : Prop where
  pos : 0 < n
  free : ∀ i, a ≤ i → i < a + n → s.Free i
  before : a ≠ 0 → ¬s.Free (a - 1)
  behind : ¬s.Free (a + n)

/-- The units that a block of so many bytes needs, with its header. -/
def needed (nbytes : Nat) : Nat := (nbytes + headerSize - 1) / headerSize + 1

/-- `pMalloc` starts to search at a single header, and everything behind it is
free. -/
def OneBlock (s : MemoryRun) : Prop :=
  ∃ pool, s.pool.entry = (0, pool) ∧ pool.mem 0 = ⟨some 0, 1, s.pool.memSize - 1⟩

theorem nunits_eq_needed (hbytes : nbytes ≤ 4294967296 - headerSize) : MemoryPool.nunits nbytes = needed nbytes := by
  unfold headerSize at hbytes
  unfold MemoryPool.nunits needed headerSize
  have hround : uint (nbytes + 16 - 1) = nbytes + 16 - 1 := uint_of_lt (by omega)
  rw [hround, uint_of_lt (by omega)]

/-- The blocks at `aps` are freed, one after the other. -/
def freeAll (aps : List Nat) (s : MemoryRun) : Except Fault MemoryRun := aps.foldlM (fun s ap => s.step (.free ap)) s

/-- The runs of a pool that is asked for any size. -/
def anySize (memsize : BitVec 32) : Machine MemoryRun MemoryOp :=
  { machine memsize with
    allows := fun s op =>
      match op with
      | .malloc nbytes => nbytes < 4294967296
      | op => s.Allows op }

/-! ## free units -/

namespace Blocks

theorem mem_iff (h : s.Blocks all) : p ∈ all ↔ p = 0 ∨ ∃ b ∈ s.live, b.1 = p + 1 := by
  have hmem : p ∈ all ↔ p + 1 ∈ 1 :: s.live.map (·.1) := by
    rw [h.perm.mem_iff, List.mem_map_of_injective fun _ _ => Nat.add_right_cancel]
  rw [hmem, List.mem_cons, List.mem_map]
  exact or_congr_left (by omega)

theorem zero_mem (h : s.Blocks all) : 0 ∈ all := h.mem_iff.mpr (.inl rfl)

/-- The free units are those of no block's own. -/
theorem free_iff_forall (h : s.Blocks all) :
    s.Free i ↔ i < s.pool.memSize ∧ ∀ p ∈ all, ¬(p ≤ i ∧ i < p + (s.pool.mem p).usedsize) := by
  have hfirst := h.holds.first h.zero_mem
  constructor
  · intro hfree
    refine ⟨hfree.inside, fun p hp hin => ?_⟩
    obtain rfl | ⟨b, hb, hbp⟩ := h.mem_iff.mp hp
    · have := hfree.first
      omega
    · have hlive := hfree.live b hb
      rw [units, hbp, Nat.add_sub_cancel] at hlive
      omega
  · rintro ⟨hinside, hall⟩
    refine ⟨hinside, fun hzero => hall 0 h.zero_mem (by omega), fun b hb hin => ?_⟩
    obtain ⟨p, hp, hbp, -⟩ := h.exists_header hb
    have hused := h.holds.used p hp
    rw [units, hbp, Nat.add_sub_cancel] at hin
    exact hall p hp (by omega)

/-- The free units are those behind what the blocks use. -/
theorem free_iff (h : s.Blocks all) :
    s.Free i ↔ ∃ p ∈ all, p + (s.pool.mem p).usedsize ≤ i ∧ i < p + s.pool.blockSize p := by
  rw [h.free_iff_forall]
  constructor
  · rintro ⟨hinside, hall⟩
    obtain ⟨p, hp, hle, hlt⟩ := h.holds.tiles.exists_block (Nat.zero_le i) hinside
    refine ⟨p, hp, ?_, hlt⟩
    have := hall p hp
    omega
  · rintro ⟨p, hp, hle, hlt⟩
    have hbounds := h.holds.tiles.bounds hp
    refine ⟨by omega, fun q hq hin => ?_⟩
    have hblock : s.pool.blockSize q = (s.pool.mem q).usedsize + (s.pool.mem q).freesize := rfl
    by_cases hpq : p = q
    · subst hpq
      omega
    · have hapart := h.holds.tiles.apart hp hq hpq
      omega

/-- The free units of a block are a maximal run. -/
theorem maximalRun (h : s.Blocks all) (hp : p ∈ all) (hfree : 0 < (s.pool.mem p).freesize) :
    s.MaximalRun (p + (s.pool.mem p).usedsize) (s.pool.mem p).freesize := by
  have hused := h.holds.used p hp
  have hblock : s.pool.blockSize p = (s.pool.mem p).usedsize + (s.pool.mem p).freesize := rfl
  refine ⟨hfree, fun i hi hi' => h.free_iff.mpr ⟨p, hp, hi, by omega⟩, fun _ hbefore => ?_, fun hbehind => ?_⟩
  · exact (h.free_iff_forall.mp hbefore).2 p hp (by omega)
  · rw [Nat.add_assoc, ← hblock] at hbehind
    obtain ⟨hinside, hall⟩ := h.free_iff_forall.mp hbehind
    obtain hend | hmem := h.holds.tiles.end_mem hp
    · omega
    · have := h.holds.used _ hmem
      exact hall _ hmem (by omega)

/-- A run of free units lies in the free units of one block. -/
theorem exists_run_le (h : s.Blocks all) (hpos : 0 < n) (hrun : ∀ i, a ≤ i → i < a + n → s.Free i) :
    ∃ p ∈ all, n ≤ (s.pool.mem p).freesize := by
  obtain ⟨p, hp, hle, hlt⟩ := h.free_iff.mp (hrun a (Nat.le_refl a) (by omega))
  have hblock : s.pool.blockSize p = (s.pool.mem p).usedsize + (s.pool.mem p).freesize := rfl
  refine ⟨p, hp, Nat.le_of_not_lt fun hshort => ?_⟩
  -- the unit behind the block would be free, too
  have hbehind := hrun (p + s.pool.blockSize p) (by omega) (by omega)
  obtain ⟨hinside, hall⟩ := h.free_iff_forall.mp hbehind
  obtain hend | hmem := h.holds.tiles.end_mem hp
  · omega
  · have := h.holds.used _ hmem
    exact hall _ hmem (by omega)

/-- No block has room. -/
theorem forall_freesize_lt_iff (h : s.Blocks all) (hk : 0 < k) :
    (∀ p ∈ all, (s.pool.mem p).freesize < k) ↔ ∀ a n, s.MaximalRun a n → n < k := by
  constructor
  · intro hall a n hrun
    obtain ⟨p, hp, hle⟩ := h.exists_run_le hrun.pos hrun.free
    exact Nat.lt_of_le_of_lt hle (hall p hp)
  · intro hruns p hp
    by_cases hfree : (s.pool.mem p).freesize = 0
    · omega
    · exact hruns _ _ (h.maximalRun hp (Nat.pos_of_ne_zero hfree))

/-- Without live blocks there is one block. -/
theorem oneBlock (h : s.Blocks all) (hm : m ∈ all) (hlive : s.live = []) :
    m = 0 ∧ s.pool.mem 0 = ⟨some 0, 1, s.pool.memSize - 1⟩ := by
  have hsingle : all = [0] := by
    have hperm := h.perm
    rw [hlive] at hperm
    cases hlist : all with
    | nil => simp [hlist] at hm
    | cons p rest =>
        have hlen := hperm.length_eq
        rw [hlist, List.length_map, List.length_cons, List.length_cons] at hlen
        obtain rfl := List.eq_nil_of_length_eq_zero (Nat.succ.inj hlen.symm)
        have hzero := h.zero_mem
        rw [hlist, List.mem_singleton] at hzero
        rw [hzero]
  subst hsingle
  obtain ⟨-, hnext⟩ := h.holds.circle
  obtain ⟨-, -, hsize⟩ := h.holds.tiles
  have hfirst := h.holds.first h.zero_mem
  rw [tiles_nil, MemoryPool.blockSize, hfirst] at hsize
  refine ⟨List.mem_singleton.mp hm, ?_⟩
  cases hheader : s.pool.mem 0 with
  | mk next usedsize freesize =>
      rw [segment_nil, MemoryPool.next, hheader] at hnext
      simp only [hheader] at hfirst hsize
      simp only [Header.mk.injEq]
      exact ⟨hnext, hfirst, by omega⟩

end Blocks

/-! ## what `pMalloc` finds -/

/-- The first header is no unit of a live block. -/
theorem Kept.free_entry (h : s.Kept memsize) {pool : MemoryPool} (hentry : s.pool.entry = (m, pool)) :
    (⟨pool, s.live⟩ : MemoryRun).Free i ↔ s.Free i := by
  obtain ⟨hnone, hlive⟩ | ⟨m', all, hm, -, -⟩ := h.blocks
  · unfold MemoryPool.entry at hentry
    rw [hnone] at hentry
    obtain ⟨-, rfl⟩ := Prod.mk.inj hentry
    have hno : ∀ t : MemoryRun, t.live = [] → (t.Free i ↔ i < t.pool.memSize ∧ i ≠ 0) := fun t ht =>
      ⟨fun hfree => ⟨hfree.inside, hfree.first⟩, fun hfree => ⟨hfree.1, hfree.2, by rw [ht]; simp⟩⟩
    exact (hno ⟨s.pool.start, s.live⟩ hlive).trans (hno s hlive).symm
  · unfold MemoryPool.entry at hentry
    rw [hm] at hentry
    obtain ⟨-, rfl⟩ := Prod.mk.inj hentry
    exact Iff.rfl

theorem maximalRun_congr {t : MemoryRun} (hfree : ∀ i, t.Free i ↔ s.Free i) : t.MaximalRun a n ↔ s.MaximalRun a n := by
  constructor
  · rintro ⟨hpos, hrun, hbefore, hbehind⟩
    simp only [hfree] at hrun hbefore hbehind
    exact ⟨hpos, hrun, hbefore, hbehind⟩
  · rintro ⟨hpos, hrun, hbefore, hbehind⟩
    simp only [← hfree] at hrun hbefore hbehind
    exact ⟨hpos, hrun, hbefore, hbehind⟩

/-- `pMalloc` returns `NULL` if no run is long enough. -/
theorem Kept.pMalloc_none_iff (h : s.Kept memsize) (hpos : memsize ≠ 0) (hn : 0 < MemoryPool.nunits nbytes) :
    (∃ pool, s.pool.pMalloc nbytes = .ok (none, pool)) ↔
      ∀ a n, s.MaximalRun a n → n < MemoryPool.nunits nbytes := by
  obtain ⟨m, pool, all, hentry, -, hm, hblocks⟩ := h.entry hpos
  obtain ⟨p, hp, hfind, hshort⟩ := hblocks.holds.findFit (n := MemoryPool.nunits nbytes) hm
  have hruns := hblocks.forall_freesize_lt_iff hn
  simp only [maximalRun_congr fun i => h.free_entry hentry] at hruns
  rw [← hruns, MemoryPool.pMalloc_eq hentry hfind]
  split
  next hlt => exact iff_of_true ⟨pool, rfl⟩ (hshort hlt)
  next hlt =>
    refine iff_of_false ?_ fun hall => hlt (hall p hp)
    rintro ⟨pool', heq⟩
    cases heq

theorem Kept.oneBlock (h : s.Kept memsize) (hpos : memsize ≠ 0) (hlive : s.live = []) : s.OneBlock := by
  obtain ⟨m, pool, all, hentry, hkept, hm, hblocks⟩ := h.entry hpos
  obtain ⟨rfl, hheader⟩ := hblocks.oneBlock hm hlive
  have hsize := hkept.memSize.trans h.memSize.symm
  exact ⟨pool, hentry, by rw [hheader, hsize]⟩

/-- With one block there is room for any block but the largest. -/
theorem Kept.pMalloc_some (h : s.Kept memsize) (hpos : memsize ≠ 0) (hlive : s.live = [])
    (hfit : MemoryPool.nunits nbytes ≤ s.pool.memSize - 1) : ∃ ap pool, s.pool.pMalloc nbytes = .ok (some ap, pool) := by
  obtain ⟨m, pool, all, hentry, hkept, hm, hblocks⟩ := h.entry hpos
  obtain ⟨p, hp, hfind, hshort⟩ := hblocks.holds.findFit (n := MemoryPool.nunits nbytes) hm
  obtain ⟨-, hheader⟩ := hblocks.oneBlock hm hlive
  have hsize : pool.memSize = s.pool.memSize := hkept.memSize.trans h.memSize.symm
  have hroom : ¬(pool.mem p).freesize < MemoryPool.nunits nbytes := fun hlt => by
    have hzero : (pool.mem 0).freesize < MemoryPool.nunits nbytes := hshort hlt 0 hblocks.zero_mem
    have hfree : (pool.mem 0).freesize = pool.memSize - 1 := congrArg Header.freesize hheader
    rw [hfree, hsize] at hzero
    omega
  rw [MemoryPool.pMalloc_eq hentry hfind, if_neg hroom]
  exact ⟨_, _, rfl⟩

/-! ## blocks that are freed -/

theorem step_free_iff : s.step (.free ap) = .ok s' ↔
    ∃ pool, s.pool.pFree ap = .ok pool ∧ s' = ⟨pool, s.live.filter (·.1 != ap)⟩ := by
  rw [step]
  cases s.pool.pFree ap with
  | error err => simp [bind, Except.bind]
  | ok pool => simp [bind, Except.bind, pure, Except.pure, eq_comm]

theorem step_malloc_iff : s.step (.malloc nbytes) = .ok s' ↔
    ∃ ap pool, s.pool.pMalloc nbytes = .ok (ap, pool) ∧ s' = ⟨pool, (ap.map (·, nbytes)).toList ++ s.live⟩ := by
  rw [step]
  rcases s.pool.pMalloc nbytes with err | ⟨_ | ap, pool⟩
  · simp [bind, Except.bind]
  · simp [bind, Except.bind, pure, Except.pure, eq_comm]
  · simp [bind, Except.bind, pure, Except.pure, eq_comm]

theorem Kept.nodup (h : s.Kept memsize) : (s.live.map (·.1)).Nodup := by
  obtain ⟨-, hlive⟩ | ⟨m, all, -, -, hblocks⟩ := h.blocks
  · rw [hlive]
    exact List.nodup_nil
  · exact (List.nodup_cons.mp hblocks.nodup).2

theorem freeAll_ok {aps : List Nat} (hpos : memsize ≠ 0) (h : (machine memsize).Reaches s)
    (haps : aps.Perm (s.live.map (·.1))) :
    ∃ s', freeAll aps s = .ok s' ∧ (machine memsize).Reaches s' ∧ s'.live = [] := by
  induction aps generalizing s with
  | nil => exact ⟨s, rfl, h, List.map_eq_nil_iff.mp haps.nil_eq.symm⟩
  | cons ap aps ih =>
      have hkept := kept_of_reaches hpos h
      obtain ⟨hap, hrest⟩ := List.cons_perm_iff_perm_erase.mp haps
      obtain ⟨s₁, hstep, -⟩ := hkept.free hap
      have hreaches : (machine memsize).Reaches s₁ :=
        .step (i := .free ap) h hap (show (s.step (.free ap)).toOption = some s₁ by rw [hstep]; rfl)
      have hlive : s₁.live.map (·.1) = (s.live.map (·.1)).erase ap := by
        obtain ⟨pool, -, rfl⟩ := step_free_iff.mp hstep
        rw [hkept.nodup.erase_eq_filter, List.filter_map]
        rfl
      obtain ⟨s', hfree, hs'⟩ := ih hreaches (hlive ▸ hrest)
      refine ⟨s', ?_, hs'⟩
      rw [freeAll, List.foldlM_cons, hstep]
      exact hfree

/-! ## any size -/

/-- A block whose size wraps is one of no bytes. -/
theorem pMalloc_wrap (hbytes : nbytes < 4294967296) (hwrap : 4294967296 - headerSize < nbytes) (pool : MemoryPool) :
    pool.pMalloc nbytes = pool.pMalloc 0 := by
  have hnunits : MemoryPool.nunits nbytes = MemoryPool.nunits 0 := by
    unfold headerSize at hwrap
    unfold MemoryPool.nunits uint headerSize
    omega
  unfold MemoryPool.pMalloc
  rw [hnunits]

/-- The same on blocks of other sizes. -/
theorem step_sizes {op : MemoryOp} {live : List (Nat × Nat)} (hlive : live.map (·.1) = s.live.map (·.1))
    (hallows : (anySize memsize).allows s op) (hstep : s.step op = .ok s') :
    ∃ op' live', live'.map (·.1) = s'.live.map (·.1) ∧ (⟨s.pool, live⟩ : MemoryRun).Allows op' ∧
      (⟨s.pool, live⟩ : MemoryRun).step op' = .ok ⟨s'.pool, live'⟩ := by
  cases op with
  | malloc nbytes =>
      obtain ⟨ap, pool, halloc, rfl⟩ := step_malloc_iff.mp hstep
      obtain ⟨size, hsize, hsame⟩ : ∃ size ≤ 4294967296 - headerSize, s.pool.pMalloc nbytes = s.pool.pMalloc size := by
        by_cases hwrap : nbytes ≤ 4294967296 - headerSize
        · exact ⟨nbytes, hwrap, rfl⟩
        · exact ⟨0, Nat.zero_le _, pMalloc_wrap hallows (Nat.lt_of_not_le hwrap) s.pool⟩
      refine ⟨.malloc size, (ap.map (·, size)).toList ++ live, ?_, hsize,
        step_malloc_iff.mpr ⟨ap, pool, hsame ▸ halloc, rfl⟩⟩
      rw [List.map_append, List.map_append, hlive]
      cases ap <;> rfl
  | free ap =>
      obtain ⟨pool, hfree, rfl⟩ := step_free_iff.mp hstep
      refine ⟨.free ap, live.filter (·.1 != ap), ?_, show ap ∈ live.map (·.1) from hlive ▸ hallows,
        step_free_iff.mpr ⟨pool, hfree, rfl⟩⟩
      have hfilter : ∀ xs : List (Nat × Nat), (xs.filter (·.1 != ap)).map (·.1) = (xs.map (·.1)).filter (· != ap) :=
        fun xs => by rw [List.filter_map]; rfl
      rw [hfilter, hfilter, hlive]
  | write i header =>
      cases hstep
      refine ⟨.write i header, live, hlive, ?_, rfl⟩
      obtain ⟨b, hb, hi⟩ := hallows
      have hmem : b.1 ∈ live.map (·.1) := hlive ▸ List.mem_map_of_mem hb
      obtain ⟨c, hc, hcb⟩ := List.mem_map.mp hmem
      exact ⟨c, hc, hcb ▸ hi⟩

/-- A pool that was asked for any sizes was asked for sizes that do not wrap. -/
theorem anySize_reaches (h : (anySize memsize).Reaches s) :
    ∃ live, live.map (·.1) = s.live.map (·.1) ∧ (machine memsize).Reaches ⟨s.pool, live⟩ := by
  refine h.invariant (I := fun s => ∃ live, live.map (·.1) = s.live.map (·.1) ∧
    (machine memsize).Reaches ⟨s.pool, live⟩) (fun s hinit => ?_) fun s op s' hI hallows hstep => ?_
  · obtain ⟨mem, rfl⟩ := hinit
    exact ⟨[], rfl, .init ⟨mem, rfl⟩⟩
  · obtain ⟨live, hlive, hreaches⟩ := hI
    have hok : s.step op = .ok s' := by
      change (s.step op).toOption = some s' at hstep
      cases hrun : s.step op with
      | error err => simp [hrun, Except.toOption] at hstep
      | ok t =>
          rw [hrun] at hstep
          cases hstep
          rfl
    obtain ⟨op', live', hlive', hallows', hstep'⟩ := step_sizes hlive hallows hok
    refine ⟨live', hlive', hreaches.step hallows' ?_⟩
    change ((⟨s.pool, live⟩ : MemoryRun).step op').toOption = _
    rw [hstep']
    rfl

theorem free_congr {live : List (Nat × Nat)} (hlive : live.map (·.1) = s.live.map (·.1)) :
    (⟨s.pool, live⟩ : MemoryRun).Free i ↔ s.Free i := by
  have hforall : ∀ P : Nat → Prop, (∀ b ∈ live, P b.1) ↔ ∀ b ∈ s.live, P b.1 := fun P => by
    rw [← List.forall_mem_map, hlive, List.forall_mem_map]
  have hiff := hforall fun ap => ¬(ap - 1 ≤ i ∧ i < ap + s.units ap)
  exact ⟨fun hfree => ⟨hfree.inside, hfree.first, hiff.mp hfree.live⟩,
    fun hfree => ⟨hfree.inside, hfree.first, hiff.mpr hfree.live⟩⟩

/-- The header of a block tells how many units were asked for. -/
theorem Kept.pMalloc_units (h : s.Kept memsize) (hpos : memsize ≠ 0) {pool : MemoryPool}
    (hn : s.pool.pMalloc nbytes = .ok (some ap, pool)) : (pool.mem (ap - 1)).usedsize = MemoryPool.nunits nbytes := by
  obtain ⟨m, pool₁, all, hentry, -, hm, hblocks⟩ := h.entry hpos
  obtain ⟨p, hp, hfind, -⟩ := hblocks.holds.findFit (n := MemoryPool.nunits nbytes) hm
  rw [MemoryPool.pMalloc_eq hentry hfind] at hn
  split at hn
  · cases hn
  · cases hn
    have hused : 0 < (pool₁.mem p).usedsize := hblocks.holds.used p hp
    rw [Nat.add_sub_cancel, MemoryPool.carve_mem_new hused]

/-- There is no run of free units where none is free. -/
theorem Kept.pMalloc_none_of_one (h : s.Kept memsize) (hpos : memsize ≠ 0) (hn : MemoryPool.nunits nbytes = 1) :
    (∃ pool, s.pool.pMalloc nbytes = .ok (none, pool)) ↔ ∀ i, ¬s.Free i := by
  rw [h.pMalloc_none_iff hpos (by omega), hn]
  constructor
  · intro hruns i hfree
    obtain ⟨m, pool, all, hentry, -, hm, hblocks⟩ := h.entry hpos
    obtain ⟨p, hp, hle, hlt⟩ := hblocks.free_iff.mp ((h.free_entry hentry).mpr hfree)
    unfold MemoryPool.blockSize at hlt
    have hrun := (maximalRun_congr fun i => h.free_entry hentry).mp (hblocks.maximalRun hp (by omega))
    have hpos := hrun.pos
    have hone := hruns _ _ hrun
    omega
  · exact fun hnone a n hrun => absurd (hrun.free a (Nat.le_refl a) (Nat.lt_add_of_pos_right hrun.pos)) (hnone a)

end MemoryRun

/-- `pMalloc` returns `NULL` when no maximal run of free units is as long as what it
needs and only then; and in whatever order the live blocks are freed, they leave one
block, of which any request can be served that fits. -/
theorem pMalloc_complete {memsize : BitVec 32} {s : MemoryRun} (hpos : memsize ≠ 0)
    (h : (MemoryRun.machine memsize).Reaches s) :
    (∀ nbytes ≤ 4294967296 - headerSize, (∃ pool, s.pool.pMalloc nbytes = .ok (none, pool)) ↔
      ∀ a n, s.MaximalRun a n → n < MemoryRun.needed nbytes) ∧
    ∀ aps : List Nat, aps.Perm (s.live.map (·.1)) → ∃ s', MemoryRun.freeAll aps s = .ok s' ∧
      s'.live = [] ∧ s'.OneBlock ∧ ∀ nbytes ≤ 4294967296 - headerSize,
        MemoryRun.needed nbytes ≤ s'.pool.memSize - 1 → ∃ ap pool, s'.pool.pMalloc nbytes = .ok (some ap, pool) := by
  have hkept := MemoryRun.kept_of_reaches hpos h
  refine ⟨fun nbytes hbytes => ?_, fun aps haps => ?_⟩
  · rw [← MemoryRun.nunits_eq_needed hbytes]
    exact hkept.pMalloc_none_iff hpos (MemoryRun.Blocks.nunits_spec hbytes).1
  · obtain ⟨s', hfree, hreaches, hlive⟩ := MemoryRun.freeAll_ok hpos h haps
    have hkept' := MemoryRun.kept_of_reaches hpos hreaches
    refine ⟨s', hfree, hlive, hkept'.oneBlock hpos hlive, fun nbytes hbytes hfit => ?_⟩
    rw [← MemoryRun.nunits_eq_needed hbytes] at hfit
    exact hkept'.pMalloc_some hpos hlive hfit

/-- Three blocks in an arena of 2000 bytes, freed from the first to the last. -/
theorem pMalloc_complete_three : ∃ s, (MemoryRun.machine 2000).Reaches s ∧
    s.live = [(17, 120), (10, 90), (2, 100)] ∧ ∃ s', MemoryRun.freeAll [2, 10, 17] s = .ok s' ∧ s'.OneBlock := by
  obtain ⟨s, h, hlive⟩ := Machine.Reaches.exists_of_runTest
    (fun s => s.live == [(17, 120), (10, 90), (2, 100)]) [.malloc 100, .malloc 90, .malloc 120]
    (.init ⟨fun _ => ⟨none, 0, 0⟩, rfl⟩ : (MemoryRun.machine 2000).Reaches _) (by decide +kernel)
  rw [beq_iff_eq] at hlive
  obtain ⟨s', hfree, -, hone, -⟩ := (pMalloc_complete (by decide) h).2 [2, 10, 17] (by rw [hlive]; decide)
  exact ⟨s, h, hlive, s', hfree, hone⟩

/-- A block that `pMalloc` hands out has room for what was asked for, and its units
are counted without wrapping, if the size leaves room for rounding up; for other
sizes it is handed out whenever a unit is free. -/
theorem pMalloc_room_iff {memsize : BitVec 32} {s : MemoryRun} {nbytes : Nat} (hpos : memsize ≠ 0)
    (h : (MemoryRun.anySize memsize).Reaches s) (hbytes : nbytes < 4294967296) :
    (∀ ap pool, s.pool.pMalloc nbytes = .ok (some ap, pool) →
        MemoryPool.nunits nbytes = MemoryRun.needed nbytes ∧
          nbytes ≤ headerSize * ((pool.mem (ap - 1)).usedsize - 1)) ↔
      nbytes ≤ 4294967296 - headerSize ∨ ∀ i, ¬s.Free i := by
  obtain ⟨live, hlive, hreaches⟩ := MemoryRun.anySize_reaches h
  have hkept := MemoryRun.kept_of_reaches hpos hreaches
  by_cases hwrap : nbytes ≤ 4294967296 - headerSize
  · refine iff_of_true (fun ap pool halloc => ?_) (.inl hwrap)
    rw [hkept.pMalloc_units hpos halloc]
    exact ⟨MemoryRun.nunits_eq_needed hwrap, (MemoryRun.Blocks.nunits_spec hwrap).2⟩
  · have hone : MemoryPool.nunits nbytes = 1 := by
      unfold headerSize at hwrap
      unfold MemoryPool.nunits uint headerSize
      omega
    have hnone := hkept.pMalloc_none_of_one hpos hone
    simp only [MemoryRun.free_congr hlive] at hnone
    rw [or_iff_right hwrap, ← hnone]
    constructor
    · intro hroom
      obtain ⟨ap, pool, halloc⟩ : ∃ ap pool, s.pool.pMalloc nbytes = .ok (ap, pool) := by
        obtain ⟨t, hstep, -⟩ := hkept.malloc hpos (Nat.zero_le (4294967296 - headerSize))
        obtain ⟨ap, pool, halloc, -⟩ := MemoryRun.step_malloc_iff.mp hstep
        exact ⟨ap, pool, (MemoryRun.pMalloc_wrap hbytes (Nat.lt_of_not_le hwrap) s.pool).trans halloc⟩
      cases ap with
      | none => exact ⟨pool, halloc⟩
      | some ap =>
          have hle := (hroom ap pool halloc).2
          rw [hkept.pMalloc_units hpos halloc, hone] at hle
          unfold headerSize at hwrap
          omega
    · rintro ⟨pool, halloc⟩ ap pool' halloc'
      cases halloc.symm.trans halloc'

/-- A hundred bytes in a pool that was just created. -/
theorem pMalloc_room_hundred :
    (∀ ap pool, (pMemoryPoolInit 2000 fun _ => ⟨none, 0, 0⟩).pMalloc 100 = .ok (some ap, pool) →
        MemoryPool.nunits 100 = MemoryRun.needed 100 ∧ 100 ≤ headerSize * ((pool.mem (ap - 1)).usedsize - 1)) ↔
      100 ≤ 4294967296 - headerSize ∨
        ∀ i, ¬(⟨pMemoryPoolInit 2000 fun _ => ⟨none, 0, 0⟩, []⟩ : MemoryRun).Free i :=
  have hinit : (MemoryRun.anySize 2000).Reaches ⟨pMemoryPoolInit 2000 fun _ => ⟨none, 0, 0⟩, []⟩ := .init ⟨_, rfl⟩
  pMalloc_room_iff (by decide) hinit (by decide)

/-- A block of 2^32 - 1 bytes is a header. -/
theorem pMalloc_no_room : ¬∀ s, (MemoryRun.anySize 2000).Reaches s → ∀ nbytes < 4294967296, ∀ ap pool,
    s.pool.pMalloc nbytes = .ok (some ap, pool) → nbytes ≤ headerSize * ((pool.mem (ap - 1)).usedsize - 1) := by
  intro hall
  have hroom := hall _ (.init ⟨fun _ => ⟨none, 0, 0⟩, rfl⟩) 4294967295 (by decide) 2 _ rfl
  revert hroom
  decide

end PWebServer
