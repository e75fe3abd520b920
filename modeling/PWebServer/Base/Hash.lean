import PWebServer.Base.Heap

/-!
# Base.Hash

`hash.c`: a table is built once, for keys that are known, and read from then on.
A bucket is a row of slots of different lengths, each at the next address that is
a multiple of eight, with a null pointer behind them.  All buckets are in one
block; how many there are is tried out.

`sizeof(void *)` is 8.  A `u_short` is a number modulo `2 ^ 16`.
-/

namespace PWebServer

open ByteMemory

/-! ## keys -/

/-- `hash_key_function`; a `char` is signed. -/
def hashKeyFunction (data : List UInt8) : BitVec 32 :=
  data.foldl (fun key c => key * 31 + c.toBitVec.signExtend 32) 0

/-- `random_salt` -/
def randomSalt : List (BitVec 32) :=
  [1451352145, 453454322, 3454325, 3542345, 1214225, 75243532, 45324515, 3445665, 1477235, 4532543,
    7855743, 4114345, 132145, 14533432, 958930665, 34455, 25484754]

/-- The loop of `hash_code_of_ip_integer`; `x` loses a bit in each turn. -/
def hashCodeLoop (hashcode : BitVec 32) : Nat → BitVec 32 → BitVec 32
  | 0, _ => hashcode
  | bits + 1, x =>
      if x = 0 then hashcode
      else hashCodeLoop (hashcode * 113 + randomSalt.getD (hashcode.toNat % 17) 0) bits (x >>> 1)

/-- `hash_code_of_ip_integer` -/
def hashCodeOfIpInteger (x : BitVec 32) : BitVec 32 := hashCodeLoop x 32 x

/-- `tolower` of `globals.h`. -/
def tolower (c : UInt8) : UInt8 := if 65 ≤ c ∧ c ≤ 90 then c ||| 0x20 else c

/-- `hash_key`.  `c` is what the pointer of the key points to. -/
structure HashKey where
  c : Option (List UInt8)
  len : Nat
  keyHash : BitVec 32
  value : BitVec 64

/-- `hash_initializer`: `hash` is an address, 0 for `NULL`. -/
structure HashInitializer where
  hash : Nat
  maxSize : BitVec 32
  bucketSize : BitVec 32

/-- `align` and `align_ptr`, for a power of two. -/
def align (d a : Nat) : Nat := (d + (a - 1)) / a * a

/-- `cacheline_size` -/
def cachelineSize : Nat := 32

/-- `HASH_ELT_SIZE` -/
def hashEltSize (name : HashKey) : Nat := 8 + align (name.len + 2) 8

/-- Each key, with a terminating pointer, fits a bucket: what `hashInit` checks. -/
def keysFit (hinit : HashInitializer) (names : List HashKey) : Bool :=
  names.all fun name => hashEltSize name + 8 ≤ hinit.bucketSize.toNat

/-- The number of buckets that is tried first; a division by zero ends the process. -/
def startSize (bucketSize nelts : Nat) : Except Fault Nat :=
  if bucketSize / 20 = 0 then .error .abort
  else .ok (if nelts / (bucketSize / 20) = 0 then 1 else nelts / (bucketSize / 20))

/-- A `u_short` is assigned. -/
def ushort (x : Nat) : Nat := x % 65536

/-! ## the table is built -/

namespace HashInit

/-- `names[n].key_hash % size` -/
def bucketOf (size : Nat) (name : HashKey) : Nat := name.keyHash.toNat % size

/-- `test[key]` grows by the size of a key. -/
def addSize (test size : Nat) (m : Nat → UInt8) (name : HashKey) : Nat → UInt8 :=
  let key := bucketOf size name
  storeAt m test 2 key (ushort (loadAt m test 2 key + hashEltSize name))

/-- The loop over the keys for a number of buckets that is tried, up to the first
bucket that is too small. -/
def testNames (test size bucketSize : Nat) (m : Nat → UInt8) : List HashKey → (Nat → UInt8) × Bool
  | [] => (m, true)
  | name :: names =>
      if name.c = none then testNames test size bucketSize m names
      else
        let m := addSize test size m name
        if ushort bucketSize < loadAt m test 2 (bucketOf size name) then (m, false)
        else testNames test size bucketSize m names

/-- `memzero(test, size * sizeof(u_short))` -/
def clearTest (test size : Nat) (m : Nat → UInt8) : Nat → UInt8 :=
  put m test (List.replicate (2 * size) 0)

/-- The loop for the number of buckets, for as many as are left; `assert` fires if
there are none. -/
def findSize (test bucketSize : Nat) (names : List HashKey) : Nat → Nat → (Nat → UInt8) →
    Except Fault (Nat × (Nat → UInt8))
  | 0, _, _ => .error .abort
  | left + 1, size, m =>
      match testNames test size bucketSize (clearTest test size m) names with
      | (m, true) => .ok (size, m)
      | (m, false) => findSize test bucketSize names left (size + 1) m

/-- All of `test` is set to `x`. -/
def fillTest (test size x : Nat) (m : Nat → UInt8) : Nat → UInt8 :=
  (List.range size).foldl (fun m i => storeAt m test 2 i x) m

/-- The sizes of the buckets, but for those that are rounded up. -/
def sumSizes (test size : Nat) (names : List HashKey) (m : Nat → UInt8) : Nat → UInt8 :=
  names.foldl (fun m name => if name.c = none then m else addSize test size m name) m

/-- A size is rounded up, and added to `len`. -/
def alignSize (test : Nat) : (Nat → UInt8) × Nat → Nat → (Nat → UInt8) × Nat
  | (m, len), i =>
      if loadAt m test 2 i = 8 then (m, len)
      else
        let m := storeAt m test 2 i (ushort (align (loadAt m test 2 i) cachelineSize))
        (m, len + loadAt m test 2 i)

/-- The sizes are rounded up, and summed up in `len`. -/
def alignSizes (test size : Nat) (m : Nat → UInt8) : (Nat → UInt8) × Nat :=
  (List.range size).foldl (alignSize test) (m, 0)

/-- A bucket that has keys gets its part of `elts`. -/
def placeBucket (test buckets : Nat) : (Nat → UInt8) × Nat → Nat → (Nat → UInt8) × Nat
  | (m, elts), i =>
      if loadAt m test 2 i = 8 then (m, elts)
      else (storeAt m buckets 8 i elts, elts + loadAt m test 2 i)

/-- The buckets that have keys get their part of `elts`. -/
def placeBuckets (test buckets size elts : Nat) (m : Nat → UInt8) : (Nat → UInt8) × Nat :=
  (List.range size).foldl (placeBucket test buckets) (m, elts)

/-- A slot is written: the value, the length of the key and the key. -/
def writeSlot (elt : Nat) (m : Nat → UInt8) (name : HashKey) (c : List UInt8) : Nat → UInt8 :=
  let m := store m elt 8 name.value.toNat
  let m := store m (elt + 8) 2 (ushort name.len)
  put m (elt + 10) ((c.take name.len).map tolower)

/-- The slot of a key is written behind those that its bucket has. -/
def fillSlot (test buckets size : Nat) (m : Nat → UInt8) (name : HashKey) : Nat → UInt8 :=
  match name.c with
  | none => m
  | some c =>
      let key := bucketOf size name
      addSize test size (writeSlot (loadAt m buckets 8 key + loadAt m test 2 key) m name c) name

/-- The slots are written one after the other, those of a bucket as long as
`test[key]` says. -/
def fillSlots (test buckets size : Nat) (names : List HashKey) (m : Nat → UInt8) : Nat → UInt8 :=
  names.foldl (fillSlot test buckets size) m

/-- The null pointer behind the slots of a bucket. -/
def endBucket (test buckets : Nat) (m : Nat → UInt8) (i : Nat) : Nat → UInt8 :=
  if loadAt m buckets 8 i = 0 then m
  else store m (loadAt m buckets 8 i + loadAt m test 2 i) 8 0

/-- The null pointers behind the slots. -/
def endBuckets (test buckets size : Nat) (m : Nat → UInt8) : Nat → UInt8 :=
  (List.range size).foldl (endBucket test buckets) m

end HashInit

open HashInit

/-- `hashInit` from the allocation of `test` on, with the number of buckets, the
bytes that they need and the blocks. -/
def hashFill (hinit : HashInitializer) (names : List HashKey) (test size buckets elts : Nat) (h : Heap) :
    Except Fault (Ret × HashInitializer × Heap) := do
  let (m, _) := placeBuckets test buckets size (align elts cachelineSize) h.bytes
  let m := fillTest test size 0 m
  let m := fillSlots test buckets size names m
  let m := endBuckets test buckets size m
  let h ← { h with bytes := m }.pFree test
  let m := store h.bytes hinit.hash 8 buckets
  let m := store m (hinit.hash + 8) 4 size
  pure (.ok, hinit, { h with bytes := m })

/-- `hashInit`; `assert` ends the process. -/
def hashInit (hinit : HashInitializer) (names : List HashKey) (h : Heap) :
    Except Fault (Ret × HashInitializer × Heap) := do
  if ¬ keysFit hinit names then throw .abort
  let (test, h) ← h.pMalloc (hinit.maxSize.toNat * 2)
  match test with
  | none => pure (.error, hinit, h)
  | some test => do
      let bucketSize := (hinit.bucketSize - 8).toNat
      let start ← startSize bucketSize names.length
      let (size, m) ← findSize test bucketSize names (hinit.maxSize.toNat + 1 - start) start h.bytes
      let m := sumSizes test size names (fillTest test size 8 m)
      let (m, len) := alignSizes test size m
      let h := { h with bytes := m }
      if hinit.hash = 0 then do
        let (hash, h) ← h.pMalloc (4 + size * 8)
        match hash with
        | none => do
            let h ← h.pFree test
            pure (.error, { hinit with hash := 0 }, h)
        | some hash => do
            let (elts, h) ← h.pMalloc (uint (uint len + cachelineSize))
            match elts with
            | none => do
                let h ← h.pFree test
                pure (.error, { hinit with hash := hash }, h)
            | some elts => hashFill { hinit with hash := hash } names test size hash elts h
      else do
        let (buckets, h) ← h.pMalloc (size * 8)
        match buckets with
        | none => do
            let h ← h.pFree test
            pure (.error, hinit, h)
        | some buckets => do
            let (elts, h) ← h.pMalloc (uint (uint len + cachelineSize))
            match elts with
            | none => do
                let h ← h.pFree test
                pure (.error, hinit, h)
            | some elts => hashFill hinit names test size buckets elts h

/-! ## the table is read -/

/-- `strncmp(name, s, n) == 0` for the `n` bytes of `name`. -/
def strncmpEq (m : Nat → UInt8) : List UInt8 → Nat → Bool
  | [], _ => true
  | c :: cs, s => if c ≠ m s then false else if c = 0 then true else strncmpEq m cs (s + 1)

/-- The loop of `hash_find`. -/
def hashFindLoop (m : Nat → UInt8) (name : List UInt8) : Nat → Nat → Except Fault Nat
  | 0, _ => .error .fuel
  | fuel + 1, bucket =>
      let value := load m bucket 8
      let len := load m (bucket + 8) 2
      if value = 0 then .ok 0
      else if name.length = len ∧ strncmpEq m name (bucket + 10) then .ok value
      else hashFindLoop m name fuel (align (bucket + 10 + len) 8)

/-- `hash_find`: the value, 0 for `NULL`.  The index is an `int`; the counter of
`hash_key_function` is a `uint`, which never gets to a length that is not one. -/
def hashFind (m : Nat → UInt8) (h : Nat) (name : List UInt8) (fuel : Nat) : Except Fault Nat := do
  if 4294967296 ≤ name.length then throw .fuel
  let key := hashKeyFunction name
  let size := load m (h + 8) 4
  if size = 0 then throw .abort
  let idx := (BitVec.ofNat 32 (key.toNat % size)).toInt
  let bucket := load m (load m h 8 + 8 * idx).toNat 8
  if bucket = 0 then throw .null
  hashFindLoop m name fuel bucket

end PWebServer
