import PWebServer.Base.Hash

/-!
# Base.HashTest

The sizes that `hashInit` computes in `test`: what the keys of each bucket need,
the least number of buckets for which that is not too much, and the parts of the
block that the buckets get.
-/

namespace PWebServer

open ByteMemory HashInit

/-- The bytes that the keys of bucket `i` need. -/
def needs (size i : Nat) : List HashKey → Nat
  | [] => 0
  | name :: names =>
      if name.c ≠ none ∧ bucketOf size name = i then hashEltSize name + needs size i names
      else needs size i names

/-- The bytes that bucket `i` gets, with its end. -/
def partSize (size : Nat) (names : List HashKey) (i : Nat) : Nat :=
  if needs size i names = 0 then 0 else align (8 + needs size i names) cachelineSize

/-- Where the part of bucket `i` begins. -/
def offset (size : Nat) (names : List HashKey) : Nat → Nat
  | 0 => 0
  | i + 1 => offset size names i + partSize size names i

/-- `size` buckets are enough. -/
def EnoughBuckets (bucketSize : Nat) (names : List HashKey) (size : Nat) : Prop :=
  ∀ i < size, needs size i names ≤ bucketSize

section

variable {m m' : Nat → UInt8} {test size bucketSize x i j k : Nat} {name : HashKey} {names : List HashKey}
  {f : Nat → Nat}

theorem hashEltSize_pos (name : HashKey) : 0 < hashEltSize name := by
  unfold hashEltSize
  omega

theorem bucketOf_lt (hsize : 0 < size) (name : HashKey) : bucketOf size name < size := Nat.mod_lt _ hsize

theorem needs_append (xs ys : List HashKey) : needs size i (xs ++ ys) = needs size i xs + needs size i ys := by
  induction xs with
  | nil => rw [List.nil_append, needs, Nat.zero_add]
  | cons name xs ih =>
      rw [List.cons_append, needs, needs, ih]
      split
      · rw [Nat.add_assoc]
      · rfl

theorem needs_null (hnull : name.c = none) (i : Nat) : needs size i (name :: names) = needs size i names :=
  if_neg fun h => h.1 hnull

theorem needs_cons (hnull : name.c ≠ none) (x i : Nat) :
    x + needs size i (name :: names) =
      (if bucketOf size name = i then x + hashEltSize name else x) + needs size i names := by
  rw [needs]
  by_cases hsame : bucketOf size name = i
  · rw [if_pos ⟨hnull, hsame⟩, if_pos hsame, Nat.add_assoc]
  · rw [if_neg fun h => hsame h.2, if_neg hsame]

theorem loadAt_ushort (hx : x < 65536) : loadAt (storeAt m test 2 i (ushort x)) test 2 i = x := by
  have hmod : ushort x = x := Nat.mod_eq_of_lt hx
  rw [loadAt_storeAt_self, hmod]
  exact Nat.mod_eq_of_lt hx

/-! ## sums -/

theorem addSize_frame (hsize : 0 < size) : Frame m (addSize test size m name) test (test + 2 * size) :=
  storeAt_frame (bucketOf_lt hsize name)

theorem addSize_loadAt (hf : ∀ i < size, loadAt m test 2 i = f i)
    (hlt : f (bucketOf size name) + hashEltSize name < 65536) :
    ∀ i < size, loadAt (addSize test size m name) test 2 i =
      if bucketOf size name = i then f i + hashEltSize name else f i := by
  intro i hi
  unfold addSize
  dsimp only
  by_cases hsame : bucketOf size name = i
  · subst hsame
    rw [if_pos rfl, hf _ hi]
    exact loadAt_ushort hlt
  · rw [if_neg hsame, loadAt_storeAt_of_ne (Ne.symm hsame), hf i hi]

/-- Whether `size` buckets are enough for some more keys, in buckets that are
filled up to `f`. -/
theorem testNames_spec (hsize : 0 < size) (hsmall : 2 * bucketSize < 65536)
    (helt : ∀ name ∈ names, hashEltSize name ≤ bucketSize) (hf : ∀ i < size, loadAt m test 2 i = f i)
    (hle : ∀ i < size, f i ≤ bucketSize) :
    Frame m (testNames test size bucketSize m names).1 test (test + 2 * size) ∧
      ((testNames test size bucketSize m names).2 = true ↔ ∀ i < size, f i + needs size i names ≤ bucketSize) := by
  induction names generalizing m f with
  | nil => exact ⟨.refl m _ _, iff_of_true rfl hle⟩
  | cons name names ih =>
      have hrest : ∀ name ∈ names, hashEltSize name ≤ bucketSize := fun name hname =>
        helt name (List.mem_cons_of_mem _ hname)
      rw [testNames]
      by_cases hnull : name.c = none
      · simp only [if_pos hnull, needs_null hnull]
        exact ih hrest hf hle
      · have hj := bucketOf_lt hsize name
        have hjle := hle _ hj
        have hname := helt name List.mem_cons_self
        have hadd : ∀ i < size, loadAt (addSize test size m name) test 2 i = _ :=
          addSize_loadAt hf (by omega)
        have hushort : ushort bucketSize = bucketSize := Nat.mod_eq_of_lt (by omega)
        simp only [if_neg hnull, hushort]
        by_cases hfull : bucketSize < loadAt (addSize test size m name) test 2 (bucketOf size name)
        · rw [if_pos hfull]
          refine ⟨addSize_frame hsize, iff_of_false (by simp) fun hall => ?_⟩
          have hsum := hall _ hj
          rw [needs_cons hnull, if_pos rfl] at hsum
          rw [hadd _ hj, if_pos rfl] at hfull
          omega
        · rw [if_neg hfull]
          rw [hadd _ hj, if_pos rfl] at hfull
          obtain ⟨hframe, hiff⟩ := ih (f := fun i => if bucketOf size name = i then f i + hashEltSize name else f i)
            hrest hadd fun i hi => by
              split
              · next hsame =>
                subst hsame
                exact Nat.le_of_not_lt hfull
              · exact hle i hi
          refine ⟨(addSize_frame hsize).trans hframe, hiff.trans (forall₂_congr fun i _ => ?_)⟩
          rw [needs_cons hnull]

theorem sumSizes_spec (hsize : 0 < size) (hf : ∀ i < size, loadAt m test 2 i = f i)
    (hlt : ∀ i < size, f i + needs size i names < 65536) :
    Frame m (sumSizes test size names m) test (test + 2 * size) ∧
      ∀ i < size, loadAt (sumSizes test size names m) test 2 i = f i + needs size i names := by
  induction names generalizing m f with
  | nil => exact ⟨.refl m _ _, hf⟩
  | cons name names ih =>
      unfold sumSizes
      rw [List.foldl_cons]
      by_cases hnull : name.c = none
      · simp only [needs_null hnull] at hlt ⊢
        rw [if_pos hnull]
        exact ih hf hlt
      · have hjlt := hlt _ (bucketOf_lt hsize name)
        rw [needs_cons hnull, if_pos rfl] at hjlt
        have hadd : ∀ i < size, loadAt (addSize test size m name) test 2 i = _ :=
          addSize_loadAt hf (by omega)
        rw [if_neg hnull]
        obtain ⟨hframe, hloads⟩ := ih hadd fun i hi => (needs_cons hnull (f i) i).symm.trans_lt (hlt i hi)
        exact ⟨(addSize_frame hsize).trans hframe, fun i hi => (hloads i hi).trans (needs_cons hnull (f i) i).symm⟩

/-! ## the number of buckets -/

theorem clearTest_spec : Frame m (clearTest test size m) test (test + 2 * size) ∧
    ∀ i < size, loadAt (clearTest test size m) test 2 i = 0 := by
  constructor
  · have hframe : Frame m (clearTest test size m) test (test + (List.replicate (2 * size) (0 : UInt8)).length) :=
      put_frame
    rw [List.length_replicate] at hframe
    exact hframe
  · intro i hi
    refine load_zero fun x hx hx' => put_replicate (Nat.le_trans (Nat.le_add_right _ _) hx) ?_
    omega

/-- The least number of buckets that is enough is found. -/
theorem findSize_spec {left start size : Nat} (hstart : 0 < start) (hsmall : 2 * bucketSize < 65536)
    (helt : ∀ name ∈ names, hashEltSize name ≤ bucketSize)
    (h : findSize test bucketSize names left start m = .ok (size, m')) :
    start ≤ size ∧ size < start + left ∧ EnoughBuckets bucketSize names size ∧
      (∀ s, start ≤ s → s < size → ¬ EnoughBuckets bucketSize names s) ∧
      Frame m m' test (test + 2 * (start + left - 1)) := by
  induction left generalizing start m with
  | zero => contradiction
  | succ left ih =>
      obtain ⟨hclear, hzero⟩ : Frame m (clearTest test start m) test (test + 2 * start) ∧
          ∀ i < start, loadAt (clearTest test start m) test 2 i = 0 := clearTest_spec
      obtain ⟨hframe, hiff⟩ := testNames_spec hstart hsmall helt hzero fun i _ => Nat.zero_le bucketSize
      have hwide : Frame m (testNames test start bucketSize (clearTest test start m) names).1 test
          (test + 2 * (start + (left + 1) - 1)) := (hclear.trans hframe).mono (Nat.le_refl _) (by omega)
      have henough : (testNames test start bucketSize (clearTest test start m) names).2 = true ↔
          EnoughBuckets bucketSize names start := by
        rw [hiff]
        simp only [Nat.zero_add]
        exact Iff.rfl
      rw [findSize] at h
      cases hres : testNames test start bucketSize (clearTest test start m) names with
      | mk m₁ fits =>
          rw [hres] at h hwide henough
          cases fits with
          | true =>
              cases h
              exact ⟨Nat.le_refl _, by omega, henough.mp rfl, fun s hs hs' => by omega, hwide⟩
          | false =>
              obtain ⟨hle, hlt, hfits, hleast, hrest⟩ := ih (Nat.succ_pos start) h
              refine ⟨by omega, by omega, hfits, fun s hs hs' => ?_, hwide.trans (hrest.mono (Nat.le_refl _) (by omega))⟩
              obtain rfl | hlater := Nat.eq_or_lt_of_le hs
              · intro hall
                have := henough.mpr hall
                contradiction
              · exact hleast s hlater hs'

/-! ## loops over the buckets -/

theorem fillTest_spec (hx : x < 65536) : Frame m (fillTest test size x m) test (test + 2 * size) ∧
    ∀ i < size, loadAt (fillTest test size x m) test 2 i = x := by
  have hloop : ∀ k ≤ size, Frame m ((List.range k).foldl (fun m i => storeAt m test 2 i x) m) test (test + 2 * size) ∧
      ∀ i < k, loadAt ((List.range k).foldl (fun m i => storeAt m test 2 i x) m) test 2 i = x := by
    intro k hk
    induction k with
    | zero => exact ⟨.refl m _ _, fun i hi => absurd hi (Nat.not_lt_zero i)⟩
    | succ k ih =>
        obtain ⟨hframe, hloads⟩ := ih (Nat.le_of_lt hk)
        rw [List.range_succ, List.foldl_append, List.foldl_cons, List.foldl_nil]
        refine ⟨hframe.trans (storeAt_frame hk), fun i hi => ?_⟩
        by_cases hsame : i = k
        · subst hsame
          rw [loadAt_storeAt_self]
          exact Nat.mod_eq_of_lt hx
        · rw [loadAt_storeAt_of_ne hsame]
          exact hloads i (by omega)
  exact hloop size (Nat.le_refl size)

theorem partSize_spec (hle : needs size i names ≤ 32759) :
    partSize size names i ≤ 32768 ∧ partSize size names i % 32 = 0 ∧
      (needs size i names ≠ 0 → needs size i names + 8 ≤ partSize size names i) := by
  unfold partSize align cachelineSize
  split
  · next hzero => exact ⟨by omega, rfl, fun hne => absurd hzero hne⟩
  · exact ⟨by omega, by omega, fun _ => by omega⟩

/-- The loop that rounds up the sizes. -/
theorem alignSizes_spec (hf : ∀ i < size, loadAt m test 2 i = 8 + needs size i names)
    (hle : ∀ i < size, needs size i names ≤ 32759) :
    Frame m (alignSizes test size m).1 test (test + 2 * size) ∧
      (alignSizes test size m).2 = offset size names size ∧
      ∀ i < size, loadAt (alignSizes test size m).1 test 2 i =
        if needs size i names = 0 then 8 else partSize size names i := by
  have hloop : ∀ k ≤ size, ∃ m', (List.range k).foldl (alignSize test) (m, 0) = (m', offset size names k) ∧
      Frame m m' test (test + 2 * size) ∧
      ∀ i < size, loadAt m' test 2 i =
        if i < k then if needs size i names = 0 then 8 else partSize size names i
        else 8 + needs size i names := by
    intro k hk
    induction k with
    | zero => exact ⟨m, rfl, .refl m _ _, fun i hi => (hf i hi).trans (if_neg (Nat.not_lt_zero i)).symm⟩
    | succ k ih =>
        obtain ⟨m₁, heq, hframe, hloads⟩ := ih (Nat.le_of_lt hk)
        have hk' := hloads k hk
        rw [if_neg (Nat.lt_irrefl k)] at hk'
        rw [List.range_succ, List.foldl_append, heq, List.foldl_cons, List.foldl_nil]
        unfold alignSize
        dsimp only
        rw [hk']
        by_cases hzero : needs size k names = 0
        · have hpart : partSize size names k = 0 := if_pos hzero
          refine ⟨m₁, ?_, hframe, fun i hi => ?_⟩
          · rw [if_pos (by omega), offset, hpart, Nat.add_zero]
          · rw [hloads i hi]
            by_cases hsame : i = k
            · subst hsame
              rw [if_neg (Nat.lt_irrefl i), if_pos (Nat.lt_succ_self i), if_pos hzero, hzero]
            · have hiff : i < k ↔ i < k + 1 := by omega
              simp only [hiff]
        · have hpart : partSize size names k = align (8 + needs size k names) cachelineSize := if_neg hzero
          have hlt : partSize size names k < 65536 := by
            have := (partSize_spec (hle k hk)).1
            omega
          rw [← hpart]
          refine ⟨storeAt m₁ test 2 k (ushort (partSize size names k)), ?_, hframe.trans (storeAt_frame hk),
            fun i hi => ?_⟩
          · rw [if_neg (by omega), loadAt_ushort hlt, offset]
          · by_cases hsame : i = k
            · subst hsame
              rw [loadAt_ushort hlt, if_pos (Nat.lt_succ_self i), if_neg hzero]
            · have hiff : i < k ↔ i < k + 1 := by omega
              rw [loadAt_storeAt_of_ne hsame, hloads i hi]
              simp only [hiff]
  obtain ⟨m', heq, hframe, hloads⟩ := hloop size (Nat.le_refl size)
  unfold alignSizes
  rw [heq]
  refine ⟨hframe, rfl, fun i hi => ?_⟩
  rw [hloads i hi, if_pos hi]

end

end PWebServer
