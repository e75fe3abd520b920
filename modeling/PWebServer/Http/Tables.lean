import PWebServer.Base.HashRoom
import PWebServer.Http.ParseHeaders

/-!
# Http.Tables

`header_map_init` and `create_location_map`: the names of the headers and the paths
that are passed on are put into tables when a process starts, each in a pool of its
own, and from then on the tables are only read.

`headerFind` is a search through the array that one of them is built from.
`tables_agree` says that the table finds what the search finds.
-/

namespace PWebServer

open ByteMemory

/-! ## the tables -/

/-- `createPool`, with what `malloc` returns for the arena. -/
def createPool (bytes : BitVec 32) (data : Nat) (m : Nat → UInt8) : Except Fault Heap :=
  if data = 0 then .error .null
  else .ok { bytes := m, data := data, memptr := none, memSize := (bytes.toNat + headerSize - 1) / headerSize,
             size := bytes.toNat + headerSize }

/-- The bytes of a pool for `most` keys, as long as the first one, twice. -/
def poolBytes (most : Nat) (entries : List (List UInt8 × BitVec 64)) : BitVec 32 :=
  BitVec.ofNat 32 (2 * most * (entries.head?.map fun e => hashEltSize (hashKeyOf e)).getD 0)

/-- What `header_map_init` and `create_location_map` do with their names; `pMalloc`
is asked for `sizeof(hash)` bytes. -/
def createTable (most : Nat) (entries : List (List UInt8 × BitVec 64)) (data : Nat) (m : Nat → UInt8) :
    Except Fault (Nat × (Nat → UInt8)) := do
  let pool ← createPool (poolBytes most entries) data m
  let (hash, pool) ← pool.pMalloc 16
  let (ret, hinit, pool) ← hashInit { hash := hash.getD 0, maxSize := 1024, bucketSize := 128 }
    (entries.map hashKeyOf) pool
  if ret = .error then throw .abort
  pure (hinit.hash, pool.bytes)

/-- `&header_array[i].val`; an entry has 32 bytes, the first 16 of them for the
name. -/
def headerVal (array : BitVec 64) (i : Nat) : BitVec 64 := array + 32 * BitVec.ofNat 64 i + 16

/-- `header_ele_array` -/
def headerEleArray (array : BitVec 64) : List (List UInt8 × BitVec 64) :=
  headerArray.zipIdx.map fun kv => (kv.1.1, headerVal array kv.2)

/-- `header_map_init`: `header_map`, and the memory. -/
def headerMapInit (array : BitVec 64) (data : Nat) (m : Nat → UInt8) : Except Fault (Nat × (Nat → UInt8)) :=
  createTable 136 (headerEleArray array) data m

/-- `"backend"` -/
def backendText : List UInt8 := text ['b', 'a', 'c', 'k', 'e', 'n', 'd']

/-- `location_ele_array`; the value is the address of `locations_1`. -/
def locationEleArray (locations : BitVec 64) : List (List UInt8 × BitVec 64) := [(backendText, locations)]

/-- `create_location_map`: `server_cfg.locations`, and the memory. -/
def createLocationMap (locations : BitVec 64) (data : Nat) (m : Nat → UInt8) : Except Fault (Nat × (Nat → UInt8)) :=
  createTable 100 (locationEleArray locations) data m

/-! ## one table -/

section

variable {entries : List (List UInt8 × BitVec 64)} {most data hash fuel : Nat} {bytes : BitVec 32} {m m' : Nat → UInt8}
  {name : List UInt8} {h : Heap}

/-- A pool that has just been created is as the functions of pools leave it. -/
theorem createPool_ok (hdata : 0 < data) (hspace : data + (bytes.toNat + headerSize) ≤ 256 ^ 8)
    (hzero : ∀ x, data ≤ x → x < data + (bytes.toNat + headerSize) → m x = 0) :
    ∃ h, createPool bytes data m = .ok h ∧ h.Sound bytes [] ∧ h.ZeroFilled [] ∧ h.bytes = m ∧ h.data = data ∧
      h.size = bytes.toNat + headerSize ∧ h.room = (bytes.toNat + headerSize - 1) / headerSize - 1 := by
  obtain ⟨h, hh⟩ : ∃ h : Heap, h = ⟨m, data, none, (bytes.toNat + headerSize - 1) / headerSize,
    bytes.toNat + headerSize⟩ := ⟨_, rfl⟩
  have hmem : h.memptr = none ∧ h.data = data ∧ h.memSize = (bytes.toNat + headerSize - 1) / headerSize := by
    rw [hh]
    exact ⟨rfl, rfl, rfl⟩
  have hlt := bytes.isLt
  refine ⟨h, ?_, ⟨⟨by rw [hh]; rfl, by rw [hh]; rfl, .inl ⟨hmem.1, rfl⟩⟩, by omega, by rw [hh]; exact hspace⟩,
    ⟨fun _ x hx hx' => ?_, fun hne => absurd hmem.1 hne⟩, by rw [hh], by rw [hh], by rw [hh], ?_⟩
  · rw [createPool, if_neg (by omega), hh]
  · have hend : h.address h.memSize ≤ data + (bytes.toNat + headerSize) := by
      unfold Heap.address
      rw [hmem.2.1, hmem.2.2]
      unfold headerSize
      omega
    rw [hmem.2.1] at hx
    rw [hh]
    exact hzero x hx (Nat.lt_of_lt_of_le hx' hend)
  · have hfits : h.Fits { next := some 0, usedsize := 1, freesize := uint (h.memSize - 1) } := by
      refine ⟨fun q hq => ?_, (by decide : 1 < 256 ^ 4), Nat.mod_lt _ (by decide)⟩
      cases hq
      unfold Heap.address
      unfold headerSize at hspace
      omega
    have hheader := Heap.header_setHeader_self (k := 0) (by omega) hfits
    unfold Heap.room Heap.entry
    rw [hmem.1]
    dsimp only
    rw [hheader, hmem.2.2]
    unfold headerSize
    exact uint_of_lt (by omega)

/-- Keys that are distinct and fit in one bucket, with values that are not null. -/
structure FewKeys (entries : List (List UInt8 × BitVec 64)) : Prop where
  nonempty : entries ≠ []
  plain : ∀ e ∈ entries, PlainKey e.1 ∧ e.2 ≠ 0
  distinct : (entries.map Prod.fst).Nodup
  fits : slotsSize (entries.map hashKeyOf) ≤ 120

theorem needs_le_slotsSize {size i : Nat} {names : List HashKey} : needs size i names ≤ slotsSize names := by
  induction names with
  | nil => exact Nat.le_refl _
  | cons name names ih =>
      rw [needs, slotsSize]
      split
      · omega
      · omega

theorem length_le_slotsSize {names : List HashKey} : 16 * names.length ≤ slotsSize names := by
  induction names with
  | nil => exact Nat.le_refl _
  | cons name names ih =>
      have hle := le_hashEltSize name
      have hmod : hashEltSize name % 8 = 0 := by
        unfold hashEltSize align
        omega
      rw [slotsSize, List.length_cons]
      omega

theorem hashEltSize_le {name : HashKey} {names : List HashKey} (hname : name ∈ names) :
    hashEltSize name ≤ slotsSize names := by
  induction names with
  | nil => exact absurd hname List.not_mem_nil
  | cons first names ih =>
      rw [slotsSize]
      obtain rfl | hname := List.mem_cons.mp hname
      · exact Nat.le_add_right _ _
      · exact Nat.le_trans (ih hname) (Nat.le_add_left _ _)

/-- The units that the blocks of a table with one bucket take. -/
theorem tableUnits_one_le {names : List HashKey} (hfits : slotsSize names ≤ 120) :
    tableUnits { hash := hash, maxSize := 1024, bucketSize := 128 } names 1 ≤ 142 := by
  have hneeds : needs 1 0 names ≤ slotsSize names := needs_le_slotsSize
  have hpart : partSize 1 names 0 ≤ 128 := by
    unfold partSize align cachelineSize
    split
    · omega
    · omega
  have hoffset : offset 1 names 1 = partSize 1 names 0 := Nat.zero_add _
  have htest : MemoryPool.nunits ((1024 : BitVec 32).toNat * 2) = 129 := by decide
  have hbuckets : MemoryPool.nunits (1 * 8) = 2 := by decide
  unfold tableUnits
  rw [htest, hbuckets, hoffset]
  unfold MemoryPool.nunits uint headerSize cachelineSize
  omega

/-- One bucket is enough, and is tried first. -/
theorem FewKeys.least (hk : FewKeys entries) (hash : Nat) :
    LeastBuckets { hash := hash, maxSize := 1024, bucketSize := 128 } (entries.map hashKeyOf) 1 := by
  have hlen : 16 * (entries.map hashKeyOf).length ≤ slotsSize (entries.map hashKeyOf) := length_le_slotsSize
  have hfits := hk.fits
  have hroom : ((128 : BitVec 32).toNat - 8) / 20 = 6 := by decide
  refine ⟨?_, (by decide : 1 ≤ (1024 : BitVec 32).toNat), fun i _ => Nat.le_trans needs_le_slotsSize hfits, fun s hs hlt => ?_⟩
  · unfold firstTried
    rw [hroom]
    omega
  · have hfirst := Nat.le_trans (Nat.le_max_left 1 _) hs
    omega

/-- A table is built in its pool, and nothing else is written; as long as nobody
writes to the pool the table finds what is listed. -/
theorem createTable_ok (hk : FewKeys entries) (hbytes : 2305 ≤ (poolBytes most entries).toNat) (hdata : 0 < data)
    (hspace : data + ((poolBytes most entries).toNat + headerSize) ≤ 256 ^ 8)
    (hzero : ∀ x, data ≤ x → x < data + ((poolBytes most entries).toNat + headerSize) → m x = 0) :
    ∃ hash m', createTable most entries data m = .ok (hash, m') ∧
      Frame m m' data (data + ((poolBytes most entries).toNat + headerSize)) ∧
      ∀ m₁ : Nat → UInt8, (∀ x, data ≤ x → x < data + ((poolBytes most entries).toNat + headerSize) → m₁ x = m' x) →
        ∀ name fuel, name.length < 4294967296 → entries.length < fuel →
          hashFind m₁ hash name fuel = .ok ((entries.find? (·.1 = name)).elim 0 (·.2.toNat)) := by
  obtain ⟨h, hpool, hs, hz, rfl, hdata', hsize, hroom⟩ := createPool_ok hdata hspace hzero
  have hpos : poolBytes most entries ≠ 0 := fun heq => by
    rw [heq] at hbytes
    exact absurd hbytes (by decide)
  unfold headerSize at hroom
  obtain ⟨ap, h₁, hash, ha, hroom₁⟩ := hs.pMalloc_of_room hz hpos (by decide : 16 ≤ 4294967296 - headerSize)
    (by rw [hroom]; change 2 ≤ _; omega)
  have hhash : h₁.address ap = h.address ap := ha.address ap
  have hnames : ∀ name ∈ entries.map hashKeyOf, ∃ c, name.c = some c ∧ name.len ≤ c.length := fun name hname => by
    obtain ⟨e, -, rfl⟩ := List.mem_map.mp hname
    exact ⟨e.1, rfl, Nat.le_refl _⟩
  have hr : TableRoom h₁ [(ap, 16)] { hash := h.address ap, maxSize := 1024, bucketSize := 128 }
      (entries.map hashKeyOf) 1 := by
    refine ⟨⟨(ap, 16), List.mem_singleton_self _, by rw [hhash], by rw [hhash]; dsimp only; omega⟩,
      (by decide : 28 ≤ (128 : BitVec 32).toNat ∧ (128 : BitVec 32).toNat ≤ 32767), fun name hname => ?_, hnames,
      sizesFit_of_maxSize (by decide : (1024 : BitVec 32).toNat ≤ 131071) (by decide : (128 : BitVec 32).toNat ≤ 32767),
      hk.least _, ?_⟩
    · exact Nat.le_trans (hashEltSize_le hname) hk.fits
    · rw [hroom₁, hroom]
      exact Nat.le_trans (tableUnits_one_le hk.fits) (by change _ ≤ _ - 2; omega)
  obtain ⟨t, h₂, hok, hframe, ht, hnames, hsize', hin, hpub⟩ := hashInit_of_room ha.sound ha.zeroFilled hpos hr (by decide)
  refine ⟨h.address ap, h₂.bytes, ?_, ?_, fun m₁ hsame name fuel hlen hfuel => ?_⟩
  · unfold createTable
    simp only [hpool, bind, Except.bind, hash, Option.getD_some, hok, reduceCtorEq, if_false, pure, Except.pure]
  · rw [ha.data, ha.size, hdata', hsize] at hframe
    have hframe₁ := ha.frame_arena
    rw [hdata', hsize] at hframe₁
    exact hframe₁.trans hframe
  · rw [ha.data, ha.size, hdata', hsize] at hin
    have hpub₁ : Published t (h.address ap) m₁ := hpub.congr ht hin hsame
    have hpos₁ : 0 < t.size := by omega
    have hsmall : t.size < 2147483648 := by omega
    cases hfind : entries.find? (·.1 = name) with
    | some e =>
        have hname : e.1 = name := by simpa using List.find?_some hfind
        rw [← hname]
        exact hpub₁.hashFind_mem ht hpos₁ hsmall hnames hk.plain hk.distinct (List.mem_of_find?_eq_some hfind)
          (Nat.le_of_lt hfuel)
    | none =>
        have hnew : name ∉ entries.map Prod.fst := fun hmem => by
          obtain ⟨e, he, heq⟩ := List.mem_map.mp hmem
          exact List.find?_eq_none.mp hfind e he (decide_eq_true heq)
        obtain ⟨e, he⟩ := List.exists_mem_of_ne_nil entries hk.nonempty
        have hneeded : t.needed ((hashKeyFunction name).toNat % t.size) ≠ 0 :=
          (needed_ne_zero_iff hnames).mpr ⟨e, he, by rw [hsize', Nat.mod_one, Nat.mod_one]⟩
        rw [hpub₁.hashFind_notMem ht hpos₁ hsmall hnames hk.plain hlen hnew hfuel, if_neg hneeded]
        rfl

end

/-! ## main result -/

section

variable {array locations : BitVec 64}

theorem headerVal_toNat (harray : array.toNat + 128 ≤ 256 ^ 8) {i : Nat} (hi : i < 4) :
    (headerVal array i).toNat = array.toNat + 32 * i + 16 := by
  have hsize : (32 : BitVec 64).toNat = 32 ∧ (16 : BitVec 64).toNat = 16 := ⟨rfl, rfl⟩
  unfold headerVal
  rw [BitVec.toNat_add, BitVec.toNat_add, BitVec.toNat_mul, BitVec.toNat_ofNat, hsize.1, hsize.2]
  omega

/-- A key of a table, as a test. -/
def isPlain (key : List UInt8) : Bool :=
  !key.isEmpty && key.length ≤ 65535 && key.all fun c => c ≠ 0 && !(65 ≤ c && c ≤ 90)

theorem plainKey_of_isPlain {key : List UInt8} (h : isPlain key = true) : PlainKey key := by
  simp only [isPlain, Bool.and_eq_true, List.all_eq_true, decide_eq_true_eq, Bool.not_eq_true', Bool.and_eq_false_imp,
    decide_eq_false_iff_not, List.isEmpty_eq_false_iff] at h
  obtain ⟨⟨hne, hlen⟩, hchars⟩ := h
  exact ⟨hne, hlen, fun c hc => ⟨(hchars c hc).1, fun hin => (hchars c hc).2 hin.1 hin.2⟩⟩

/-- The names of the headers are keys of a table, with the addresses that are
stored. -/
theorem headerEleArray_few (harray : array.toNat + 128 ≤ 256 ^ 8) : FewKeys (headerEleArray array) := by
  have hne : ∀ i < 4, headerVal array i ≠ 0 := fun i hi heq => by
    have hval := headerVal_toNat harray hi
    have hzero : (headerVal array i).toNat = 0 := by rw [heq]; rfl
    omega
  have hkeys : (headerEleArray array).map Prod.fst = headerArray.map Prod.fst := rfl
  have hsize : slotsSize ((headerEleArray array).map hashKeyOf) = 72 := by
    simp [headerEleArray, headerArray, text, slotsSize, hashEltSize, hashKeyOf, align]
  have hplain : ∀ key ∈ headerArray.map Prod.fst, PlainKey key := fun key hkey =>
    plainKey_of_isPlain (List.all_eq_true.mp (by decide : (headerArray.map Prod.fst).all isPlain = true) key hkey)
  refine ⟨List.cons_ne_nil _ _, fun e he => ⟨hplain e.1 (hkeys ▸ List.mem_map_of_mem he), ?_⟩,
    hkeys ▸ (by decide : (headerArray.map Prod.fst).Nodup), by omega⟩
  obtain ⟨kv, hkv, rfl⟩ := List.mem_map.mp he
  exact hne kv.2 (List.snd_lt_of_mem_zipIdx hkv)

theorem locationEleArray_few (hlocations : locations ≠ 0) : FewKeys (locationEleArray locations) := by
  have hkeys : (locationEleArray locations).map Prod.fst = [backendText] := rfl
  have hsize : slotsSize ((locationEleArray locations).map hashKeyOf) = 24 := by
    simp [locationEleArray, backendText, text, slotsSize, hashEltSize, hashKeyOf, align]
  refine ⟨List.cons_ne_nil _ _, fun e he => ?_, hkeys ▸ List.nodup_singleton _, by omega⟩
  rw [List.mem_singleton.mp he]
  exact ⟨plainKey_of_isPlain (by decide : isPlain backendText = true), hlocations⟩

/-- The index of a header in `header_array`. -/
def HeaderOffset.index (offset : HeaderOffset) : Nat := headerArray.findIdx (·.2 = offset)

/-- The table lists what `headerFind` searches. -/
theorem find_headerEleArray (name : List UInt8) :
    ((headerEleArray array).find? (·.1 = name)).map Prod.snd =
      (headerFind name).map fun offset => headerVal array offset.index := by
  by_cases hname : name ∈ headerArray.map Prod.fst
  · simp only [headerArray, List.map_cons, List.map_nil, List.mem_cons, List.not_mem_nil, or_false] at hname
    obtain rfl | rfl | rfl | rfl := hname
    all_goals rfl
  · have hkeys : (headerEleArray array).map Prod.fst = headerArray.map Prod.fst := rfl
    have hnone : ∀ {α : Type} (l : List (List UInt8 × α)), l.map Prod.fst = headerArray.map Prod.fst →
        l.find? (·.1 = name) = none := fun l hl => List.find?_eq_none.mpr fun e he heq =>
      hname (hl ▸ of_decide_eq_true heq ▸ List.mem_map_of_mem he)
    rw [headerFind, hnone _ hkeys, hnone _ rfl]
    rfl

/-- The tables are built when the process starts, each in its own pool and with no
write outside, and as long as nobody writes to their pools a name is found by
`hash_find` with the entry of `header_array` that `headerFind` returns, and a path
is found if it is `backend`.  `hash_key_function` counts the bytes of a name with a
`uint`. -/
theorem tables_agree {data₁ data₂ : Nat} {m : Nat → UInt8} (harray : array.toNat + 128 ≤ 256 ^ 8)
    (hlocations : locations ≠ 0) (hdata₁ : 0 < data₁) (hspace₁ : data₁ + 4816 ≤ 256 ^ 8) (hdata₂ : 0 < data₂)
    (hspace₂ : data₂ + 4368 ≤ 256 ^ 8) (hapart : data₁ + 4816 ≤ data₂ ∨ data₂ + 4368 ≤ data₁)
    (hzero₁ : ∀ x, data₁ ≤ x → x < data₁ + 4816 → m x = 0) (hzero₂ : ∀ x, data₂ ≤ x → x < data₂ + 4368 → m x = 0) :
    ∃ paths m₁ headers m₂, createLocationMap locations data₁ m = .ok (paths, m₁) ∧
      headerMapInit array data₂ m₁ = .ok (headers, m₂) ∧
      Frame m m₁ data₁ (data₁ + 4816) ∧ Frame m₁ m₂ data₂ (data₂ + 4368) ∧
      ∀ m₃ : Nat → UInt8, (∀ x, data₁ ≤ x ∧ x < data₁ + 4816 ∨ data₂ ≤ x ∧ x < data₂ + 4368 → m₃ x = m₂ x) →
        ∀ name fuel, name.length < 4294967296 → 4 < fuel →
          hashFind m₃ headers name fuel =
            .ok ((headerFind name).elim 0 fun offset => (headerVal array offset.index).toNat) ∧
          hashFind m₃ paths name fuel = .ok (if name = backendText then locations.toNat else 0) := by
  have hbytes₁ : (poolBytes 100 (locationEleArray locations)).toNat = 4800 := by
    simp [poolBytes, locationEleArray, backendText, text, hashEltSize, hashKeyOf, align]
  have hbytes₂ : (poolBytes 136 (headerEleArray array)).toNat = 4352 := by
    simp [poolBytes, headerEleArray, headerArray, text, hashEltSize, hashKeyOf, align]
  have hsize₁ : (poolBytes 100 (locationEleArray locations)).toNat + headerSize = 4816 := by rw [hbytes₁]; rfl
  have hsize₂ : (poolBytes 136 (headerEleArray array)).toNat + headerSize = 4368 := by rw [hbytes₂]; rfl
  obtain ⟨paths, m₁, hpaths, hframe₁, hfind₁⟩ := createTable_ok (locationEleArray_few hlocations)
    (by omega : 2305 ≤ (poolBytes 100 (locationEleArray locations)).toNat) hdata₁ (by rw [hsize₁]; exact hspace₁)
    (by rw [hsize₁]; exact hzero₁)
  rw [hsize₁] at hframe₁ hfind₁
  obtain ⟨headers, m₂, hheaders, hframe₂, hfind₂⟩ := createTable_ok (m := m₁) (headerEleArray_few harray)
    (by omega : 2305 ≤ (poolBytes 136 (headerEleArray array)).toNat) hdata₂ (by rw [hsize₂]; exact hspace₂)
    (by rw [hsize₂]; exact fun x hx hx' => (hframe₁ x (by omega)).trans (hzero₂ x hx hx'))
  rw [hsize₂] at hframe₂ hfind₂
  refine ⟨paths, m₁, headers, m₂, hpaths, hheaders, hframe₁, hframe₂, fun m₃ hsame name fuel hlen hfuel => ⟨?_, ?_⟩⟩
  · rw [hfind₂ m₃ (fun x hx hx' => hsame x (.inr ⟨hx, hx'⟩)) name fuel hlen hfuel]
    have hlist : ((headerEleArray array).find? (·.1 = name)).map Prod.snd = _ := find_headerEleArray name
    have helim := congrArg (fun found => found.elim 0 BitVec.toNat) hlist
    simp only [Option.elim_map] at helim
    exact congrArg Except.ok helim
  · rw [hfind₁ m₃ (fun x hx hx' => (hsame x (.inl ⟨hx, hx'⟩)).trans (hframe₂ x (by omega))) name fuel hlen
      (by change 1 < fuel; omega)]
    by_cases hname : name = backendText
    · simp [locationEleArray, hname]
    · simp [locationEleArray, hname, Ne.symm hname]

/-- The tables in a memory of zeros. -/
theorem tables_agree_date :
    ∃ paths m₁ headers m₂, createLocationMap 8192 65536 (fun _ => 0) = .ok (paths, m₁) ∧
      headerMapInit 4096 131072 m₁ = .ok (headers, m₂) ∧ Frame (fun _ => 0) m₁ 65536 70352 ∧
      Frame m₁ m₂ 131072 135440 ∧ hashFind m₂ headers (text ['d', 'a', 't', 'e']) 5 = .ok 4176 ∧
      hashFind m₂ headers (text ['h', 'o', 's', 't']) 5 = .ok 0 ∧ hashFind m₂ paths backendText 5 = .ok 8192 := by
  obtain ⟨paths, m₁, headers, m₂, hpaths, hheaders, hframe₁, hframe₂, hfind⟩ := @tables_agree 4096 8192 65536 131072 (fun _ => 0)
    (by decide) (by decide) (by decide) (by decide) (by decide) (by decide) (.inl (by decide)) (fun _ _ _ => rfl)
    fun _ _ _ => rfl
  have hsame : ∀ x, 65536 ≤ x ∧ x < 65536 + 4816 ∨ 131072 ≤ x ∧ x < 131072 + 4368 → m₂ x = m₂ x := fun _ _ => rfl
  exact ⟨paths, m₁, headers, m₂, hpaths, hheaders, hframe₁, hframe₂, (hfind m₂ hsame _ 5 (by decide) (by decide)).1,
    (hfind m₂ hsame _ 5 (by decide) (by decide)).1, (hfind m₂ hsame _ 5 (by decide) (by decide)).2⟩

end

end PWebServer
