import PWebServer.Base.HashTest

/-!
# Base.HashFill

What `hashInit` writes into its blocks: each bucket that has keys gets a part of
one block, the slots of its keys fill the part from its beginning, and a null
pointer stands behind them.
-/

namespace PWebServer

open ByteMemory HashInit

/-- The keys of bucket `i`. -/
def inBucket (size i : Nat) (names : List HashKey) : List HashKey :=
  names.filter fun name => name.c ≠ none ∧ bucketOf size name = i

/-- The bytes of some slots. -/
def slotsSize : List HashKey → Nat
  | [] => 0
  | name :: names => hashEltSize name + slotsSize names

/-- The slot of a key. -/
structure KeySlot (m : Nat → UInt8) (a : Nat) (name : HashKey) : Prop where
  value : load m a 8 = name.value.toNat
  len : load m (a + 8) 2 = name.len
  name : ∀ c ∈ name.c, get m (a + 10) name.len = (c.take name.len).map tolower

/-- The slots of some keys, one after the other. -/
def Slots (m : Nat → UInt8) : Nat → List HashKey → Prop
  | _, [] => True
  | a, name :: names => KeySlot m a name ∧ Slots m (a + hashEltSize name) names

/-- The blocks of a table: the sizes, the pointers to the buckets and, from an
aligned address on, the buckets. -/
structure HashBlocks where
  test : Nat
  buckets : Nat
  elts : Nat
  size : Nat
  names : List HashKey

section

variable {m m' m'' : Nat → UInt8} {a i j size : Nat} {name : HashKey} {names done rest xs : List HashKey}
  {c : List UInt8}

/-! ## slots -/

theorem le_hashEltSize (name : HashKey) : 10 + name.len ≤ hashEltSize name := by
  unfold hashEltSize align
  omega

theorem needs_eq_slotsSize : needs size i names = slotsSize (inBucket size i names) := by
  induction names with
  | nil => rfl
  | cons name names ih =>
      rw [needs, inBucket, List.filter_cons, ih]
      by_cases h : name.c ≠ none ∧ bucketOf size name = i
      · rw [if_pos h, if_pos (decide_eq_true h), slotsSize]
        rfl
      · rw [if_neg h, if_neg (by simpa using h)]
        rfl

theorem KeySlot.congr (h : KeySlot m a name) (hsame : ∀ x, a ≤ x → x < a + hashEltSize name → m' x = m x) :
    KeySlot m' a name := by
  have hle := le_hashEltSize name
  refine ⟨?_, ?_, fun c hc => ?_⟩
  · rw [load_congr fun x hx hx' => hsame x hx (by omega)]
    exact h.value
  · rw [load_congr fun x hx hx' => hsame x (by omega) (by omega)]
    exact h.len
  · rw [get_congr fun x hx hx' => hsame x (by omega) (by omega)]
    exact h.name c hc

theorem Slots.congr (h : Slots m a names) (hsame : ∀ x, a ≤ x → x < a + slotsSize names → m' x = m x) :
    Slots m' a names := by
  induction names generalizing a with
  | nil => trivial
  | cons name names ih =>
      rw [slotsSize] at hsame
      exact ⟨h.1.congr fun x hx hx' => hsame x hx (by omega),
        ih h.2 fun x hx hx' => hsame x (by omega) (by omega)⟩

theorem slots_append (m : Nat → UInt8) (a : Nat) (xs : List HashKey) (name : HashKey) :
    Slots m a (xs ++ [name]) ↔ Slots m a xs ∧ KeySlot m (a + slotsSize xs) name := by
  induction xs generalizing a with
  | nil => simp [Slots, slotsSize]
  | cons x xs ih =>
      rw [List.cons_append, Slots, Slots, ih, slotsSize, Nat.add_assoc, and_assoc]

/-- A slot that is written. -/
theorem writeSlot_spec (hc : name.c = some c) (hlen : name.len ≤ c.length) (hsmall : name.len < 65536) :
    KeySlot (writeSlot a m name c) a name ∧ Frame m (writeSlot a m name c) a (a + hashEltSize name) := by
  have hle := le_hashEltSize name
  have hchars : ((c.take name.len).map tolower).length = name.len := by
    rw [List.length_map, List.length_take, Nat.min_eq_left hlen]
  obtain ⟨m₁, hm₁⟩ : ∃ m₁, m₁ = store m a 8 name.value.toNat := ⟨_, rfl⟩
  obtain ⟨m₂, hm₂⟩ : ∃ m₂, m₂ = store m₁ (a + 8) 2 (ushort name.len) := ⟨_, rfl⟩
  have hwritten : writeSlot a m name c = put m₂ (a + 10) ((c.take name.len).map tolower) := by
    rw [hm₂, hm₁]
    rfl
  have hframe₁ : Frame m m₁ a (a + 8) := hm₁ ▸ store_frame
  have hframe₂ : Frame m₁ m₂ (a + 8) (a + 8 + 2) := hm₂ ▸ store_frame
  have hframe₃ : Frame m₂ (writeSlot a m name c) (a + 10) (a + 10 + name.len) := by
    have hput : Frame m₂ (put m₂ (a + 10) ((c.take name.len).map tolower)) (a + 10)
        (a + 10 + ((c.take name.len).map tolower).length) := put_frame
    rw [hchars] at hput
    rw [hwritten]
    exact hput
  refine ⟨⟨?_, ?_, fun c' hc' => ?_⟩, ?_⟩
  · rw [hframe₃.load (by omega), hframe₂.load (by omega), hm₁, load_store]
    exact Nat.mod_eq_of_lt name.value.isLt
  · rw [hframe₃.load (by omega), hm₂, load_store, ushort, Nat.mod_eq_of_lt hsmall]
    exact Nat.mod_eq_of_lt hsmall
  · obtain rfl : c = c' := Option.some.inj (hc.symm.trans hc')
    have hget : get (put m₂ (a + 10) ((c.take name.len).map tolower)) (a + 10)
        ((c.take name.len).map tolower).length = (c.take name.len).map tolower := get_put
    rw [hchars] at hget
    rw [hwritten]
    exact hget
  · exact ((hframe₁.mono (Nat.le_refl _) (by omega)).trans (hframe₂.mono (by omega) (by omega))).trans
      (hframe₃.mono (by omega) (by omega))

/-! ## parts -/

theorem offset_add_le (hij : i < j) : offset size names i + partSize size names i ≤ offset size names j := by
  induction j with
  | zero => exact absurd hij (Nat.not_lt_zero i)
  | succ j ih =>
      rw [offset]
      obtain rfl | hlt := Nat.eq_or_lt_of_le (Nat.le_of_lt_succ hij)
      · exact Nat.le_refl _
      · exact Nat.le_trans (ih hlt) (Nat.le_add_right _ _)

theorem offset_mod (hle : ∀ i < size, needs size i names ≤ 32759) (hj : j ≤ size) : offset size names j % 32 = 0 := by
  induction j with
  | zero => rfl
  | succ j ih =>
      have hpart := (partSize_spec (hle j hj)).2.1
      have hoffset := ih (Nat.le_of_lt hj)
      rw [offset]
      omega

end

namespace HashBlocks

variable {t : HashBlocks} {m m' m'' : Nat → UInt8} {i j k : Nat} {name : HashKey} {done rest : List HashKey}

/-- The bytes that bucket `i` needs, and where it begins. -/
def needed (t : HashBlocks) (i : Nat) : Nat := needs t.size i t.names

def part (t : HashBlocks) (i : Nat) : Nat := t.elts + offset t.size t.names i

/-- The bytes of all buckets. -/
def total (t : HashBlocks) : Nat := offset t.size t.names t.size

/-- The blocks are apart and have room for the keys. -/
structure Sound (t : HashBlocks) : Prop where
  elts : 0 < t.elts
  aligned : t.elts % 8 = 0
  space : t.elts + t.total < 256 ^ 8
  needed : ∀ i < t.size, t.needed i ≤ 32759
  testBuckets : t.test + 2 * t.size ≤ t.buckets ∨ t.buckets + 8 * t.size ≤ t.test
  testElts : t.test + 2 * t.size ≤ t.elts ∨ t.elts + t.total ≤ t.test
  bucketsElts : t.buckets + 8 * t.size ≤ t.elts ∨ t.elts + t.total ≤ t.buckets
  names : ∀ name ∈ t.names, ∃ c, name.c = some c ∧ name.len ≤ c.length

/-- No byte has changed but in the blocks. -/
def Writes (t : HashBlocks) (m m' : Nat → UInt8) : Prop :=
  ∀ x, (x < t.test ∨ t.test + 2 * t.size ≤ x) → (x < t.buckets ∨ t.buckets + 8 * t.size ≤ x) →
    (x < t.elts ∨ t.elts + t.total ≤ x) → m' x = m x

/-- The pointers to the buckets. -/
def Placed (t : HashBlocks) (m : Nat → UInt8) : Prop :=
  ∀ i < t.size, loadAt m t.buckets 8 i = if t.needed i = 0 then 0 else t.part i

/-- The slots of some keys are written. -/
structure Filled (t : HashBlocks) (done : List HashKey) (m : Nat → UInt8) : Prop where
  placed : t.Placed m
  sizes : ∀ i < t.size, loadAt m t.test 2 i = needs t.size i done
  slots : ∀ i < t.size, Slots m (t.part i) (inBucket t.size i done)

theorem Writes.trans (h : t.Writes m m') (h' : t.Writes m' m'') : t.Writes m m'' :=
  fun x h₁ h₂ h₃ => (h' x h₁ h₂ h₃).trans (h x h₁ h₂ h₃)

theorem writes_test (h : Frame m m' t.test (t.test + 2 * t.size)) : t.Writes m m' := fun x hx _ _ => h x hx

theorem writes_buckets (h : Frame m m' t.buckets (t.buckets + 8 * t.size)) : t.Writes m m' := fun x _ hx _ => h x hx

theorem writes_elts (h : Frame m m' t.elts (t.elts + t.total)) : t.Writes m m' := fun x _ _ hx => h x hx

/-! ## parts of a table -/

theorem part_lt (hij : i < j) : t.part i + partSize t.size t.names i ≤ t.part j := by
  have hle : offset t.size t.names i + partSize t.size t.names i ≤ offset t.size t.names j := offset_add_le hij
  unfold part
  omega

theorem part_le (hi : i < t.size) : t.part i + partSize t.size t.names i ≤ t.elts + t.total := part_lt hi

theorem le_part (i : Nat) : t.elts ≤ t.part i := Nat.le_add_right _ _

theorem Sound.size_mod (h : t.Sound) (hi : i < t.size) : t.part i % 8 = 0 := by
  have hoffset := offset_mod h.needed (Nat.le_of_lt hi)
  have haligned := h.aligned
  unfold part
  omega

/-- The parts have room for the slots and the null pointer. -/
theorem Sound.room (h : t.Sound) (hi : i < t.size) (hne : t.needed i ≠ 0) :
    t.part i + t.needed i + 8 ≤ t.part i + partSize t.size t.names i := by
  have hpart := (partSize_spec (h.needed i hi)).2.2 hne
  have hneeded : t.needed i = needs t.size i t.names := rfl
  omega

/-- The slots of the first keys lie in their part. -/
theorem Sound.needs_le (h : t.Sound) (hnames : t.names = done ++ rest) (hi : i < t.size) :
    needs t.size i done ≤ t.needed i ∧ needs t.size i done ≤ partSize t.size t.names i := by
  have hsum : t.needed i = needs t.size i done + needs t.size i rest := by
    rw [← needs_append, ← hnames]
    rfl
  by_cases hzero : t.needed i = 0
  · omega
  · have := h.room hi hzero
    omega

/-- Parts do not overlap. -/
theorem part_apart (hij : i ≠ j) :
    t.part i + partSize t.size t.names i ≤ t.part j ∨ t.part j + partSize t.size t.names j ≤ t.part i :=
  (Nat.lt_or_gt_of_ne hij).imp part_lt part_lt

/-! ## the pointers to the buckets -/

theorem placeBuckets_spec (h : t.Sound)
    (hf : ∀ i < t.size, loadAt m t.test 2 i = if t.needed i = 0 then 8 else partSize t.size t.names i)
    (hzero : ∀ i < t.size, loadAt m t.buckets 8 i = 0) :
    t.Placed (placeBuckets t.test t.buckets t.size t.elts m).1 ∧
      Frame m (placeBuckets t.test t.buckets t.size t.elts m).1 t.buckets (t.buckets + 8 * t.size) := by
  have hloop : ∀ k ≤ t.size, ∃ m',
      (List.range k).foldl (placeBucket t.test t.buckets) (m, t.elts) = (m', t.part k) ∧
      Frame m m' t.buckets (t.buckets + 8 * t.size) ∧
      ∀ i < t.size, loadAt m' t.buckets 8 i = if i < k then if t.needed i = 0 then 0 else t.part i else 0 := by
    intro k hk
    induction k with
    | zero => exact ⟨m, rfl, .refl m _ _, fun i hi => (hzero i hi).trans (if_neg (Nat.not_lt_zero i)).symm⟩
    | succ k ih =>
        obtain ⟨m₁, heq, hframe, hloads⟩ := ih (Nat.le_of_lt hk)
        have hk' := hf k hk
        rw [← hframe.loadAt hk h.testBuckets] at hk'
        rw [List.range_succ, List.foldl_append, heq, List.foldl_cons, List.foldl_nil]
        unfold placeBucket
        dsimp only
        rw [hk']
        have hstep : ∀ i, i ≠ k → (i < k ↔ i < k + 1) := fun i hi => by omega
        by_cases hneeded : t.needed k = 0
        · have hpart : partSize t.size t.names k = 0 := if_pos hneeded
          refine ⟨m₁, ?_, hframe, fun i hi => ?_⟩
          · rw [if_pos hneeded, if_pos rfl, part, part, offset, hpart, Nat.add_zero]
          · rw [hloads i hi]
            by_cases hsame : i = k
            · subst hsame
              rw [if_neg (Nat.lt_irrefl i), if_pos (Nat.lt_succ_self i), if_pos hneeded]
            · simp only [hstep i hsame]
        · have hroom := (partSize_spec (h.needed k hk)).2.2 hneeded
          have hlt : t.part k < 256 ^ 8 := Nat.lt_of_le_of_lt
            (Nat.le_trans (Nat.le_add_right _ _) (part_le hk)) h.space
          rw [if_neg hneeded, if_neg (by unfold needed at hneeded; omega)]
          refine ⟨storeAt m₁ t.buckets 8 k (t.part k), ?_, hframe.trans (storeAt_frame hk), fun i hi => ?_⟩
          · rw [part, part, offset, Nat.add_assoc]
          · by_cases hsame : i = k
            · subst hsame
              rw [loadAt_storeAt_self, if_pos (Nat.lt_succ_self i), if_neg hneeded, Nat.mod_eq_of_lt hlt]
            · rw [loadAt_storeAt_of_ne hsame, hloads i hi]
              simp only [hstep i hsame]
  obtain ⟨m', heq, hframe, hloads⟩ := hloop t.size (Nat.le_refl _)
  unfold placeBuckets
  rw [heq]
  refine ⟨fun i hi => ?_, hframe⟩
  rw [hloads i hi, if_pos hi]

/-! ## the slots -/

theorem inBucket_append (size i : Nat) (done : List HashKey) (hc : name.c ≠ none) :
    inBucket size i (done ++ [name]) =
      if bucketOf size name = i then inBucket size i done ++ [name] else inBucket size i done := by
  unfold inBucket
  rw [List.filter_append]
  by_cases hsame : bucketOf size name = i
  · simp [hsame, hc]
  · simp [hsame]

/-- The next key is filled in behind those that its bucket has. -/
theorem Filled.fillSlot (h : t.Filled done m) (hs : t.Sound) (hsize : 0 < t.size)
    (hnames : t.names = done ++ name :: rest) :
    t.Filled (done ++ [name]) (fillSlot t.test t.buckets t.size m name) ∧
      t.Writes m (fillSlot t.test t.buckets t.size m name) := by
  obtain ⟨c, hc, hlen⟩ := hs.names name (by simp [hnames])
  obtain ⟨j, hj⟩ : ∃ j, j = bucketOf t.size name := ⟨_, rfl⟩
  have hjlt : j < t.size := hj ▸ bucketOf_lt hsize name
  have hsome : name.c ≠ none := by simp [hc]
  have hnames' : t.names = (done ++ [name]) ++ rest := by rw [hnames, List.append_assoc, List.singleton_append]
  have hnext : ∀ i, needs t.size i (done ++ [name]) =
      if bucketOf t.size name = i then needs t.size i done + hashEltSize name else needs t.size i done := by
    intro i
    have hcons := @needs_cons t.size name [] hsome (needs t.size i done) i
    rw [needs_append, hcons, needs, Nat.add_zero]
  have hneeds : needs t.size j done + hashEltSize name ≤ t.needed j := by
    have hle := (hs.needs_le hnames' hjlt).1
    rw [hnext, if_pos hj.symm] at hle
    exact hle
  have hpos := hashEltSize_pos name
  have hroom := hs.room hjlt (by omega)
  have hneeded := hs.needed j hjlt
  have hle := le_hashEltSize name
  have hpart : t.part j + partSize t.size t.names j ≤ t.elts + t.total := part_le hjlt
  have hbegin : t.elts ≤ t.part j := le_part j
  obtain ⟨elt, helt⟩ : ∃ elt, elt = loadAt m t.buckets 8 j + loadAt m t.test 2 j := ⟨_, rfl⟩
  have haddress : elt = t.part j + needs t.size j done := by
    rw [helt, h.placed j hjlt, if_neg (by omega), h.sizes j hjlt]
  obtain ⟨m₁, hm₁⟩ : ∃ m₁, m₁ = writeSlot elt m name c := ⟨_, rfl⟩
  obtain ⟨hslot, hframe⟩ : KeySlot m₁ elt name ∧ Frame m m₁ elt (elt + hashEltSize name) :=
    hm₁ ▸ writeSlot_spec hc hlen (by omega)
  have hfilled : HashInit.fillSlot t.test t.buckets t.size m name = addSize t.test t.size m₁ name := by
    unfold HashInit.fillSlot
    rw [hc]
    dsimp only
    rw [← hj, ← helt, ← hm₁]
  have hsizes₁ : ∀ i < t.size, loadAt m₁ t.test 2 i = needs t.size i done := fun i hi => by
    rw [hframe.loadAt hi (hs.testElts.imp (by omega) (by omega))]
    exact h.sizes i hi
  have hadd : Frame m₁ (addSize t.test t.size m₁ name) t.test (t.test + 2 * t.size) := addSize_frame hsize
  have hlt : needs t.size (bucketOf t.size name) done + hashEltSize name < 65536 := by
    rw [← hj]
    have := hs.needed j hjlt
    unfold HashBlocks.needed at hneeds this
    omega
  rw [hfilled]
  refine ⟨⟨fun i hi => ?_, fun i hi => ?_, fun i hi => ?_⟩, ?_⟩
  · rw [hadd.loadAt hi hs.testBuckets.symm, hframe.loadAt hi (hs.bucketsElts.imp (by omega) (by omega))]
    exact h.placed i hi
  · rw [addSize_loadAt hsizes₁ hlt i hi, hnext]
  · -- a slot is not in the block of sizes, and another bucket is elsewhere
    have hbounds : t.part i + partSize t.size t.names i ≤ t.elts + t.total := part_le hi
    have hold : Slots m₁ (t.part i) (inBucket t.size i done) := by
      refine (h.slots i hi).congr fun x hx hx' => hframe x ?_
      rw [← needs_eq_slotsSize] at hx'
      by_cases hsame : i = j
      · subst hsame
        exact .inl (by omega)
      · have hapart := part_apart (t := t) hsame
        have hdone := (hs.needs_le hnames hi).2
        omega
    have hnew : Slots m₁ (t.part i) (inBucket t.size i (done ++ [name])) := by
      rw [inBucket_append t.size i done hsome]
      by_cases hsame : bucketOf t.size name = i
      · obtain rfl : j = i := hj.trans hsame
        rw [if_pos hsame, slots_append, ← needs_eq_slotsSize, ← haddress]
        exact ⟨hold, hslot⟩
      · rw [if_neg hsame]
        exact hold
    refine hnew.congr fun x hx hx' => hadd x ?_
    rw [← needs_eq_slotsSize] at hx'
    have hdone := (hs.needs_le hnames' hi).2
    have helts : t.elts ≤ t.part i := le_part i
    have hapart := hs.testElts
    omega
  · exact Writes.trans (writes_elts (hframe.mono (by omega) (by omega))) (writes_test hadd)

theorem fillSlots_spec (hs : t.Sound) (hsize : 0 < t.size) (hplaced : t.Placed m)
    (hsizes : ∀ i < t.size, loadAt m t.test 2 i = 0) :
    t.Filled t.names (fillSlots t.test t.buckets t.size t.names m) ∧
      t.Writes m (fillSlots t.test t.buckets t.size t.names m) := by
  have hloop : ∀ done m₁, t.Filled done m₁ → ∀ rest, t.names = done ++ rest →
      t.Filled t.names (fillSlots t.test t.buckets t.size rest m₁) ∧
        t.Writes m₁ (fillSlots t.test t.buckets t.size rest m₁) := by
    intro done m₁ h rest hnames
    induction rest generalizing done m₁ with
    | nil =>
        rw [List.append_nil] at hnames
        exact ⟨hnames ▸ h, fun _ _ _ _ => rfl⟩
    | cons name rest ih =>
        obtain ⟨hnext, hwrites⟩ := h.fillSlot hs hsize hnames
        obtain ⟨hfilled, hwrites'⟩ := ih (done ++ [name]) _ hnext
          (by rw [hnames, List.append_assoc, List.singleton_append])
        exact ⟨hfilled, hwrites.trans hwrites'⟩
  exact hloop [] m ⟨hplaced, hsizes, fun _ _ => trivial⟩ t.names rfl

/-! ## the null pointers -/

/-- The table is complete: the slots of each bucket and the null pointer behind
them. -/
structure Complete (t : HashBlocks) (m : Nat → UInt8) : Prop where
  placed : t.Placed m
  slots : ∀ i < t.size, Slots m (t.part i) (inBucket t.size i t.names)
  null : ∀ i < t.size, t.needed i ≠ 0 → load m (t.part i + t.needed i) 8 = 0

theorem endBuckets_spec (hs : t.Sound) (h : t.Filled t.names m) :
    t.Complete (endBuckets t.test t.buckets t.size m) ∧
      t.Writes m (endBuckets t.test t.buckets t.size m) := by
  have hloop : ∀ k ≤ t.size, ∃ m', (List.range k).foldl (endBucket t.test t.buckets) m = m' ∧
      t.Filled t.names m' ∧ Frame m m' t.elts (t.elts + t.total) ∧
      ∀ i < k, t.needed i ≠ 0 → load m' (t.part i + t.needed i) 8 = 0 := by
    intro k hk
    induction k with
    | zero => exact ⟨m, rfl, h, .refl m _ _, fun i hi => absurd hi (Nat.not_lt_zero i)⟩
    | succ k ih =>
        obtain ⟨m₁, heq, hfilled, hframe, hnull⟩ := ih (Nat.le_of_lt hk)
        rw [List.range_succ, List.foldl_append, heq, List.foldl_cons, List.foldl_nil]
        unfold endBucket
        rw [hfilled.placed k hk, hfilled.sizes k hk]
        have hneeded : needs t.size k t.names = t.needed k := rfl
        have helts : t.elts ≤ t.part k := le_part k
        have hpos := hs.elts
        rw [hneeded]
        by_cases hzero : t.needed k = 0
        · rw [if_pos hzero, if_pos rfl]
          refine ⟨m₁, rfl, hfilled, hframe, fun i hi hne => ?_⟩
          obtain rfl | hlt := Nat.eq_or_lt_of_le (Nat.le_of_lt_succ hi)
          · exact absurd hzero hne
          · exact hnull i hlt hne
        · rw [if_neg hzero, if_neg (by omega)]
          have hroom := hs.room hk hzero
          have hbounds : t.part k + partSize t.size t.names k ≤ t.elts + t.total := part_le hk
          obtain ⟨m₂, hm₂⟩ : ∃ m₂, m₂ = store m₁ (t.part k + t.needed k) 8 0 := ⟨_, rfl⟩
          have hstore : Frame m₁ m₂ (t.part k + t.needed k) (t.part k + t.needed k + 8) := hm₂ ▸ store_frame
          rw [← hm₂]
          refine ⟨m₂, rfl, ⟨fun i hi => ?_, fun i hi => ?_, fun i hi => ?_⟩, hframe.trans (hstore.mono ?_ ?_),
            fun i hi hne => ?_⟩
          · rw [hstore.loadAt hi (hs.bucketsElts.imp (by omega) (by omega))]
            exact hfilled.placed i hi
          · rw [hstore.loadAt hi (hs.testElts.imp (by omega) (by omega))]
            exact hfilled.sizes i hi
          · refine (hfilled.slots i hi).congr fun x hx hx' => hstore x ?_
            rw [← needs_eq_slotsSize] at hx'
            by_cases hsame : i = k
            · subst hsame
              exact .inl hx'
            · have hapart := part_apart (t := t) hsame
              have hdone := (hs.needs_le (List.append_nil t.names).symm hi).2
              omega
          · omega
          · omega
          · obtain rfl | hlt := Nat.eq_or_lt_of_le (Nat.le_of_lt_succ hi)
            · rw [hm₂, load_store]
              rfl
            · have hapart : t.part i + partSize t.size t.names i ≤ t.part k := part_lt hlt
              have hroom' := hs.room (Nat.lt_trans hlt hk) hne
              rw [hstore.load (by omega)]
              exact hnull i hlt hne
  obtain ⟨m', heq, hfilled, hframe, hnull⟩ := hloop t.size (Nat.le_refl _)
  unfold endBuckets
  rw [heq]
  exact ⟨⟨hfilled.placed, hfilled.slots, hnull⟩, writes_elts hframe⟩

/-- What is read of a complete table. -/
theorem Complete.congr (h : t.Complete m)
    (hbuckets : ∀ x, t.buckets ≤ x → x < t.buckets + 8 * t.size → m' x = m x)
    (helts : ∀ x, t.elts ≤ x → x < t.elts + t.total → m' x = m x) (hs : t.Sound) : t.Complete m' := by
  refine ⟨fun i hi => ?_, fun i hi => ?_, fun i hi hne => ?_⟩
  · rw [← h.placed i hi]
    unfold loadAt
    exact load_congr fun x hx hx' => hbuckets x (by omega) (by omega)
  · have hbegin : t.elts ≤ t.part i := le_part i
    have hend : t.part i + partSize t.size t.names i ≤ t.elts + t.total := part_le hi
    have hdone := (hs.needs_le (List.append_nil t.names).symm hi).2
    refine (h.slots i hi).congr fun x hx hx' => helts x (by omega) ?_
    rw [← needs_eq_slotsSize] at hx'
    omega
  · have hbegin : t.elts ≤ t.part i := le_part i
    have hend : t.part i + partSize t.size t.names i ≤ t.elts + t.total := part_le hi
    have hroom := hs.room hi hne
    rw [load_congr fun x hx hx' => helts x (by omega) (by omega)]
    exact h.null i hi hne

end HashBlocks

end PWebServer
