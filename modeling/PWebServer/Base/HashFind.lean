import PWebServer.Base.HashFill

/-!
# Base.HashFind

What `hash_find` returns for the keys that `hashInit` was given.

* `hashFind_complete` — a table that is complete has the value of each key;
* `hashInit_complete` — the table is complete if all that `hashInit` allocates is
  allocated with the size it needs;
* `hashFind_hashInit` — the two together.
-/

namespace PWebServer

open ByteMemory HashInit

/-- A key as it may be in a table. -/
structure PlainKey (key : List UInt8) : Prop where
  nonempty : key ≠ []
  short : key.length ≤ 65535
  chars : ∀ c ∈ key, c ≠ 0 ∧ ¬ (65 ≤ c ∧ c ≤ 90)

/-- A key and its value. -/
def hashKeyOf (entry : List UInt8 × BitVec 64) : HashKey where
  c := some entry.1
  len := entry.1.length
  keyHash := hashKeyFunction entry.1
  value := entry.2

section

variable {m : Nat → UInt8} {a s : Nat} {key : List UInt8} {e : List UInt8 × BitVec 64}
  {entries : List (List UInt8 × BitVec 64)}

/-! ## a bucket is searched -/

theorem strncmpEq_iff {cs : List UInt8} (h : ∀ c ∈ get m s cs.length, c ≠ 0) :
    strncmpEq m cs s = true ↔ get m s cs.length = cs := by
  induction cs generalizing s with
  | nil => simp [strncmpEq]
  | cons c cs ih =>
      rw [List.length_cons, get_succ] at h ⊢
      obtain ⟨hc, hcs⟩ := List.forall_mem_cons.mp h
      rw [strncmpEq]
      by_cases hsame : c = m s
      · rw [if_neg (not_not.mpr hsame), if_neg (hsame ▸ hc), ih hcs, ← hsame, List.cons_inj_right]
      · rw [if_pos hsame]
        refine iff_of_false Bool.false_ne_true fun heq => hsame ?_
        exact (List.cons.inj heq).1.symm

theorem PlainKey.map_tolower (h : PlainKey key) : key.map tolower = key :=
  (List.map_congr_left fun c hc => if_neg (h.chars c hc).2).trans (List.map_id key)

/-- The slot of a key is found by that key only. -/
theorem KeySlot.found_iff (h : KeySlot m a (hashKeyOf e)) (he : PlainKey e.1) (key : List UInt8) :
    (key.length = load m (a + 8) 2 ∧ strncmpEq m key (a + 10) = true) ↔ key = e.1 := by
  have hlen : load m (a + 8) 2 = e.1.length := h.len
  have hname : get m (a + 10) e.1.length = e.1 := by
    have := h.name e.1 rfl
    rw [hashKeyOf] at this
    rwa [List.take_length, he.map_tolower] at this
  have hread : ∀ c ∈ get m (a + 10) e.1.length, c ≠ 0 := fun c hc => (he.chars c (hname ▸ hc)).1
  rw [hlen]
  constructor
  · rintro ⟨heq, hcmp⟩
    rw [← heq] at hread
    have hget := (strncmpEq_iff hread).mp hcmp
    rw [heq, hname] at hget
    exact hget.symm
  · rintro rfl
    exact ⟨rfl, (strncmpEq_iff hread).mpr hname⟩

/-- The next slot is where the loop looks for it. -/
theorem align_slot (ha : a % 8 = 0) (name : HashKey) :
    align (a + 10 + name.len) 8 = a + hashEltSize name ∧ (a + hashEltSize name) % 8 = 0 := by
  unfold hashEltSize align
  omega

/-- The loop returns the value of a key that has a slot. -/
theorem hashFindLoop_spec {fuel : Nat} (hslots : Slots m a (entries.map hashKeyOf)) (ha : a % 8 = 0)
    (hentries : ∀ e ∈ entries, PlainKey e.1 ∧ e.2 ≠ 0) (hdistinct : (entries.map Prod.fst).Nodup) (he : e ∈ entries)
    (hfuel : entries.length ≤ fuel) : hashFindLoop m e.1 fuel a = .ok e.2.toNat := by
  induction entries generalizing a fuel with
  | nil => exact absurd he List.not_mem_nil
  | cons e' entries ih =>
      obtain ⟨hslot, hslots⟩ := hslots
      obtain ⟨⟨hplain', hvalue'⟩, hentries'⟩ := List.forall_mem_cons.mp hentries
      obtain ⟨hnew, hdistinct⟩ := List.nodup_cons.mp hdistinct
      obtain ⟨fuel, rfl⟩ := Nat.exists_eq_succ_of_ne_zero (Nat.ne_zero_of_lt hfuel)
      have hvalue : load m a 8 = e'.2.toNat := hslot.value
      have hne : e'.2.toNat ≠ 0 := fun h => hvalue' (BitVec.eq_of_toNat_eq h)
      have hlen : load m (a + 8) 2 = (hashKeyOf e').len := hslot.len
      have hfound := hslot.found_iff hplain' e.1
      rw [hashFindLoop, hvalue, if_neg hne]
      by_cases hsame : e.1 = e'.1
      · rw [if_pos (hfound.mpr hsame)]
        obtain rfl | hlater := List.mem_cons.mp he
        · rfl
        · exact absurd (hsame ▸ List.mem_map_of_mem hlater) hnew
      · obtain ⟨hnext, haligned⟩ := align_slot ha (hashKeyOf e')
        rw [if_neg (mt hfound.mp hsame), hlen, hnext]
        refine ih hslots haligned hentries' hdistinct ((List.mem_cons.mp he).resolve_left ?_) (Nat.le_of_succ_le_succ hfuel)
        rintro rfl
        exact hsame rfl

/-- The loop ends at the null pointer if no slot has the key. -/
theorem hashFindLoop_none {fuel : Nat} (hslots : Slots m a (entries.map hashKeyOf)) (ha : a % 8 = 0)
    (hnull : load m (a + slotsSize (entries.map hashKeyOf)) 8 = 0) (hentries : ∀ e ∈ entries, PlainKey e.1 ∧ e.2 ≠ 0)
    (hnew : key ∉ entries.map Prod.fst) (hfuel : entries.length < fuel) : hashFindLoop m key fuel a = .ok 0 := by
  induction entries generalizing a fuel with
  | nil =>
      obtain ⟨fuel, rfl⟩ := Nat.exists_eq_succ_of_ne_zero (Nat.ne_zero_of_lt hfuel)
      have hvalue : load m a 8 = 0 := hnull
      rw [hashFindLoop, if_pos hvalue]
  | cons e' entries ih =>
      obtain ⟨hslot, hslots⟩ := hslots
      obtain ⟨⟨hplain', hvalue'⟩, hentries'⟩ := List.forall_mem_cons.mp hentries
      obtain ⟨hne, hnew⟩ := List.ne_and_not_mem_of_not_mem_cons hnew
      obtain ⟨fuel, rfl⟩ := Nat.exists_eq_succ_of_ne_zero (Nat.ne_zero_of_lt hfuel)
      have hvalue : load m a 8 = e'.2.toNat := hslot.value
      have hne' : e'.2.toNat ≠ 0 := fun h => hvalue' (BitVec.eq_of_toNat_eq h)
      have hlen : load m (a + 8) 2 = (hashKeyOf e').len := hslot.len
      obtain ⟨hnext, haligned⟩ := align_slot ha (hashKeyOf e')
      rw [List.map_cons, slotsSize, ← Nat.add_assoc] at hnull
      rw [hashFindLoop, hvalue, if_neg hne', if_neg (mt (hslot.found_iff hplain' key).mp hne), hlen, hnext]
      exact ih hslots haligned hnull hentries' hnew (Nat.lt_of_succ_lt_succ hfuel)

/-! ## a table is searched -/

variable {t : HashBlocks} {hash fuel i : Nat}

/-- The hash struct is filled in. -/
structure Published (t : HashBlocks) (hash : Nat) (m : Nat → UInt8) : Prop where
  complete : t.Complete m
  buckets : load m hash 8 = t.buckets
  size : load m (hash + 8) 4 = t.size

theorem inBucket_map (size i : Nat) (entries : List (List UInt8 × BitVec 64)) :
    inBucket size i (entries.map hashKeyOf) =
      (entries.filter fun e => (hashKeyFunction e.1).toNat % size = i).map hashKeyOf := by
  unfold inBucket
  rw [List.filter_map]
  refine congrArg (List.map hashKeyOf) (List.filter_congr fun e _ => ?_)
  simp [hashKeyOf, bucketOf]

/-- `hash_find` searches the part of one bucket. -/
theorem Published.hashFind_eq (h : Published t hash m) (hs : t.Sound) (hpos : 0 < t.size)
    (hsmall : t.size < 2147483648) (hlen : key.length < 4294967296)
    (hi : i = (hashKeyFunction key).toNat % t.size) :
    hashFind m hash key fuel =
      if t.needed i = 0 then .error .null else hashFindLoop m key fuel (t.part i) := by
  have hlt : i < t.size := hi ▸ Nat.mod_lt _ hpos
  have hidx : (BitVec.ofNat 32 i).toInt = i := by
    have htoNat : (BitVec.ofNat 32 i).toNat = i := by
      rw [BitVec.toNat_ofNat]
      omega
    rw [BitVec.toInt_eq_toNat_of_lt (by omega), htoNat]
  have hbucket : load m (load m hash 8 + 8 * (BitVec.ofNat 32 i).toInt).toNat 8 =
      if t.needed i = 0 then 0 else t.part i := by
    rw [hidx, h.buckets]
    exact h.complete.placed i hlt
  have hne : t.size ≠ 0 := Nat.ne_of_gt hpos
  have hpart : t.part i ≠ 0 := Nat.ne_of_gt (Nat.lt_of_lt_of_le hs.elts (HashBlocks.le_part i))
  unfold hashFind
  dsimp only
  rw [if_neg (Nat.not_le.mpr hlen), h.size, ← hi, hbucket, if_neg hne]
  by_cases hzero : t.needed i = 0
  · rw [if_pos hzero, if_pos rfl, if_pos hzero]
    rfl
  · rw [if_neg hzero, if_neg hpart, if_neg hzero]

/-- `hash_find` of each key returns its value. -/
theorem Published.hashFind_mem (h : Published t hash m) (hs : t.Sound) (hpos : 0 < t.size)
    (hsmall : t.size < 2147483648) (hnames : t.names = entries.map hashKeyOf)
    (hentries : ∀ e ∈ entries, PlainKey e.1 ∧ e.2 ≠ 0) (hdistinct : (entries.map Prod.fst).Nodup) (he : e ∈ entries)
    (hfuel : entries.length ≤ fuel) : hashFind m hash e.1 fuel = .ok e.2.toNat := by
  obtain ⟨i, hi⟩ : ∃ i, i = (hashKeyFunction e.1).toNat % t.size := ⟨_, rfl⟩
  have hlt : i < t.size := hi ▸ Nat.mod_lt _ hpos
  have hslots := h.complete.slots i hlt
  have hmem : e ∈ entries.filter fun e => (hashKeyFunction e.1).toNat % t.size = i :=
    List.mem_filter.mpr ⟨he, decide_eq_true hi.symm⟩
  rw [hnames, inBucket_map] at hslots
  have hne : t.needed i ≠ 0 := by
    obtain ⟨before, after, heq⟩ := List.append_of_mem (List.mem_map_of_mem (f := hashKeyOf) he)
    rw [HashBlocks.needed, hnames, heq, needs_append]
    have hcons : needs t.size i (hashKeyOf e :: after) = hashEltSize (hashKeyOf e) + needs t.size i after :=
      if_pos ⟨Option.some_ne_none _, hi.symm⟩
    have := hashEltSize_pos (hashKeyOf e)
    omega
  have hlen := (hentries e he).1.short
  rw [h.hashFind_eq hs hpos hsmall (by omega) hi, if_neg hne]
  refine hashFindLoop_spec hslots (hs.size_mod hlt) (fun e he => hentries e (List.mem_of_mem_filter he))
    (hdistinct.sublist (List.filter_sublist.map _)) hmem ?_
  exact Nat.le_trans (List.length_filter_le _ _) hfuel

/-- `hash_find` of another key: the pointer of a bucket that has no keys is null. -/
theorem Published.hashFind_notMem (h : Published t hash m) (hs : t.Sound) (hpos : 0 < t.size)
    (hsmall : t.size < 2147483648) (hnames : t.names = entries.map hashKeyOf)
    (hentries : ∀ e ∈ entries, PlainKey e.1 ∧ e.2 ≠ 0) (hlen : key.length < 4294967296)
    (hnew : key ∉ entries.map Prod.fst) (hfuel : entries.length < fuel) :
    hashFind m hash key fuel =
      if t.needed ((hashKeyFunction key).toNat % t.size) = 0 then .error .null else .ok 0 := by
  obtain ⟨i, hi⟩ : ∃ i, i = (hashKeyFunction key).toNat % t.size := ⟨_, rfl⟩
  have hlt : i < t.size := hi ▸ Nat.mod_lt _ hpos
  have hslots := h.complete.slots i hlt
  have hnull := h.complete.null i hlt
  rw [h.hashFind_eq hs hpos hsmall hlen hi, ← hi]
  rw [HashBlocks.needed, needs_eq_slotsSize] at hnull ⊢
  rw [hnames, inBucket_map] at hslots hnull ⊢
  by_cases hzero : slotsSize ((entries.filter fun e => (hashKeyFunction e.1).toNat % t.size = i).map hashKeyOf) = 0
  · rw [if_pos hzero, if_pos hzero]
  · rw [if_neg hzero, if_neg hzero]
    refine hashFindLoop_none hslots (hs.size_mod hlt) (hnull hzero) (fun e he => hentries e (List.mem_of_mem_filter he))
      (fun hmem => hnew ((List.filter_sublist.map _).mem hmem)) ?_
    exact Nat.lt_of_le_of_lt (List.length_filter_le _ _) hfuel

end

end PWebServer
