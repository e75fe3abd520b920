import Mathlib.Data.Nat.Basic
import Mathlib.Tactic.Ring

/-!
# Lib.ByteMemory

Memory as a function from addresses to bytes, and numbers that are kept in it
with their least significant byte first.
-/

namespace ByteMemory

variable {m m' m'' : Nat → UInt8} {a b c d n x i j w v : Nat} {bs : List UInt8}

/-- The `n` bytes from `a` on. -/
def get (m : Nat → UInt8) (a n : Nat) : List UInt8 := (List.range n).map fun i => m (a + i)

/-- The bytes `bs` are written from `a` on. -/
def put (m : Nat → UInt8) (a : Nat) (bs : List UInt8) : Nat → UInt8 := fun x =>
  if a ≤ x ∧ x < a + bs.length then bs.getD (x - a) 0 else m x

/-- The number that some bytes stand for. -/
def ofBytes : List UInt8 → Nat
  | [] => 0
  | b :: bs => b.toNat + 256 * ofBytes bs

/-- The `n` low bytes of a number. -/
def toBytes : Nat → Nat → List UInt8
  | 0, _ => []
  | n + 1, v => UInt8.ofNat v :: toBytes n (v / 256)

/-- The number of `n` bytes at `a`. -/
def load (m : Nat → UInt8) (a n : Nat) : Nat := ofBytes (get m a n)

/-- A number of `n` bytes is stored at `a`. -/
def store (m : Nat → UInt8) (a n v : Nat) : Nat → UInt8 := put m a (toBytes n v)

/-- An element of an array of numbers of `w` bytes. -/
def loadAt (m : Nat → UInt8) (a w i : Nat) : Nat := load m (a + w * i) w

/-- An element of such an array is written. -/
def storeAt (m : Nat → UInt8) (a w i v : Nat) : Nat → UInt8 := store m (a + w * i) w v

/-- No byte has changed but those from `a` to `b`. -/
def Frame (m m' : Nat → UInt8) (a b : Nat) : Prop := ∀ x, x < a ∨ b ≤ x → m' x = m x

/-! ## numbers -/

@[simp] theorem length_toBytes : (toBytes n v).length = n := by
  induction n generalizing v with
  | zero => rfl
  | succ n ih => rw [toBytes, List.length_cons, ih]

theorem ofBytes_toBytes (n v : Nat) : ofBytes (toBytes n v) = v % 256 ^ n := by
  induction n generalizing v with
  | zero => rw [Nat.pow_zero, Nat.mod_one, toBytes, ofBytes]
  | succ n ih =>
      have hbyte : (UInt8.ofNat v).toNat = v % 256 := rfl
      rw [toBytes, ofBytes, ih, hbyte, Nat.pow_succ', Nat.mod_mul]

theorem ofBytes_lt (bs : List UInt8) : ofBytes bs < 256 ^ bs.length := by
  induction bs with
  | nil => exact Nat.one_pos
  | cons b bs ih =>
      have hb := b.toNat_lt
      rw [ofBytes, List.length_cons, Nat.pow_succ']
      omega

/-! ## reading and writing -/

@[simp] theorem length_get : (get m a n).length = n := by
  rw [get, List.length_map, List.length_range]

@[simp] theorem get_zero : get m a 0 = [] := rfl

theorem get_succ (m : Nat → UInt8) (a n : Nat) : get m a (n + 1) = m a :: get m (a + 1) n := by
  simp only [get, List.range_succ_eq_map, List.map_cons, List.map_map, Nat.add_zero]
  refine congrArg (m a :: ·) (List.map_congr_left fun i _ => ?_)
  exact congrArg m (by omega)

theorem get_congr (h : ∀ x, a ≤ x → x < a + n → m' x = m x) : get m' a n = get m a n := by
  refine List.map_congr_left fun i hi => h _ (Nat.le_add_right a i) ?_
  have := List.mem_range.mp hi
  omega

theorem load_congr (h : ∀ x, a ≤ x → x < a + n → m' x = m x) : load m' a n = load m a n :=
  congrArg ofBytes (get_congr h)

theorem put_frame : Frame m (put m a bs) a (a + bs.length) := by
  intro x hx
  refine if_neg fun hin => ?_
  omega

theorem get_put : get (put m a bs) a bs.length = bs := by
  refine List.ext_getElem length_get fun i hi hi' => ?_
  have hin : a ≤ a + i ∧ a + i < a + bs.length := by omega
  simp only [get, put, List.getElem_map, List.getElem_range, if_pos hin, Nat.add_sub_cancel_left,
    List.getD_eq_getElem?_getD, List.getElem?_eq_getElem hi', Option.getD_some]

/-- A part of what was written. -/
theorem get_put_append {xs ys zs : List UInt8} :
    get (put m a (xs ++ ys ++ zs)) (a + xs.length) ys.length = ys := by
  refine List.ext_getElem length_get fun i hi hi' => ?_
  have hin : a ≤ a + xs.length + i ∧ a + xs.length + i < a + (xs ++ ys ++ zs).length := by
    simp only [List.length_append]
    omega
  have hsub : a + xs.length + i - a = xs.length + i := by omega
  have hmid : (xs ++ ys ++ zs)[xs.length + i]? = some ys[i] := by
    rw [List.append_assoc, List.getElem?_append_right (Nat.le_add_right _ i), Nat.add_sub_cancel_left,
      List.getElem?_append_left hi', List.getElem?_eq_getElem hi']
  simp only [get, put, List.getElem_map, List.getElem_range, if_pos hin, hsub, List.getD_eq_getElem?_getD, hmid,
    Option.getD_some]

theorem store_frame : Frame m (store m a n v) a (a + n) := by
  have h : Frame m (put m a (toBytes n v)) a (a + (toBytes n v).length) := put_frame
  rw [length_toBytes] at h
  exact h

theorem load_lt : load m a n < 256 ^ n := by
  have h := ofBytes_lt (get m a n)
  rw [length_get] at h
  exact h

/-- What is read after a write there. -/
theorem load_store : load (store m a n v) a n = v % 256 ^ n := by
  have h : get (put m a (toBytes n v)) a (toBytes n v).length = toBytes n v := get_put
  rw [length_toBytes] at h
  rw [load, store, h, ofBytes_toBytes]

/-- A number among other bytes that were written. -/
theorem load_put_append {u w : List UInt8} (hv : v < 256 ^ n) (hx : u.length = x) :
    load (put m a (u ++ toBytes n v ++ w)) (a + x) n = v := by
  have h : get (put m a (u ++ toBytes n v ++ w)) (a + u.length) (toBytes n v).length = toBytes n v :=
    get_put_append
  rw [length_toBytes, hx] at h
  rw [load, h, ofBytes_toBytes, Nat.mod_eq_of_lt hv]

theorem ofBytes_replicate : ofBytes (List.replicate n 0) = 0 := by
  induction n with
  | zero => rfl
  | succ n ih => rw [List.replicate_succ, ofBytes, ih]; rfl

/-- Zeros stand for zero. -/
theorem load_zero (h : ∀ x, a ≤ x → x < a + n → m x = 0) : load m a n = 0 := by
  have hget : get m a n = List.replicate n 0 := by
    refine List.eq_replicate_iff.mpr ⟨length_get, fun b hb => ?_⟩
    obtain ⟨i, hi, rfl⟩ := List.mem_map.mp hb
    have := List.mem_range.mp hi
    exact h _ (Nat.le_add_right a i) (by omega)
  rw [load, hget, ofBytes_replicate]

theorem put_replicate (hx : a ≤ x) (hx' : x < a + n) : put m a (List.replicate n 0) x = 0 := by
  have hin : a ≤ x ∧ x < a + (List.replicate n (0 : UInt8)).length := by
    rw [List.length_replicate]
    exact ⟨hx, hx'⟩
  have hlt : x - a < n := by omega
  simp only [put, if_pos hin, List.getD_eq_getElem?_getD, List.getElem?_replicate, if_pos hlt, Option.getD_some]

/-! ## frames -/

theorem Frame.refl (m : Nat → UInt8) (a b : Nat) : Frame m m a b := fun _ _ => rfl

theorem Frame.trans (h : Frame m m' a b) (h' : Frame m' m'' a b) : Frame m m'' a b :=
  fun x hx => (h' x hx).trans (h x hx)

theorem Frame.mono (h : Frame m m' a b) (ha : c ≤ a) (hb : b ≤ d) : Frame m m' c d :=
  fun x hx => h x (by omega)

/-- What is read elsewhere. -/
theorem Frame.get (h : Frame m m' a b) (hc : c + n ≤ a ∨ b ≤ c) : ByteMemory.get m' c n = ByteMemory.get m c n :=
  get_congr fun x hx hx' => h x (by omega)

theorem Frame.load (h : Frame m m' a b) (hc : c + n ≤ a ∨ b ≤ c) : ByteMemory.load m' c n = ByteMemory.load m c n :=
  load_congr fun x hx hx' => h x (by omega)

/-! ## arrays -/

theorem storeAt_frame (hi : i < n) : Frame m (storeAt m a w i v) a (a + w * n) := by
  have hle : w * (i + 1) ≤ w * n := Nat.mul_le_mul_left w hi
  rw [Nat.mul_succ] at hle
  exact store_frame.mono (Nat.le_add_right a _) (by omega)

theorem loadAt_storeAt_self : loadAt (storeAt m a w i v) a w i = v % 256 ^ w := load_store

theorem loadAt_storeAt_of_ne (h : j ≠ i) : loadAt (storeAt m a w i v) a w j = loadAt m a w j := by
  refine store_frame.load ?_
  obtain hlt | hlt := Nat.lt_or_gt_of_ne h
  · have hle : w * (j + 1) ≤ w * i := Nat.mul_le_mul_left w hlt
    rw [Nat.mul_succ] at hle
    omega
  · have hle : w * (i + 1) ≤ w * j := Nat.mul_le_mul_left w hlt
    rw [Nat.mul_succ] at hle
    omega

theorem Frame.loadAt (h : Frame m m' a b) (hj : j < n) (hc : c + w * n ≤ a ∨ b ≤ c) :
    ByteMemory.loadAt m' c w j = ByteMemory.loadAt m c w j := by
  have hle : w * (j + 1) ≤ w * n := Nat.mul_le_mul_left w hj
  rw [Nat.mul_succ] at hle
  exact h.load (by omega)

-- from here on memory is known by these lemmas
attribute [irreducible] get put load

end ByteMemory
