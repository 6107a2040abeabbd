import Night.Core.Bytes
import Night.Lib.Memory

/-!
# `night_hash_init` and `night_hash_find`

The elements of all buckets lie packed in one block: the value, two bytes of length and
the lowered name, then padding to the next multiple of the pointer size.  A null value
ends a bucket.  Sums of sizes are computed in `ℕ`; a size that does not fit `size_t`,
a division by zero and an access outside the block have no result.
-/

namespace Night.Hash

open Night.Bytes
open Night.Memory

abbrev Pointer := UInt64

/-- `sizeof(void *)`. -/
def pointerSize : ℕ := 8

/-- The macro `night_align`: the mask takes `p + (a - 1)` down to a multiple of the
power of two `a`. -/
def nightAlign (p a : ℕ) : ℕ := (p + (a - 1)) / a * a

/-- The macro `NIGHT_HASH_ELT_SIZE`, by the length of the key. -/
def eltSize (len : ℕ) : ℕ := pointerSize + nightAlign (len + 2) pointerSize

/-- A conversion to `size_t` of a sum or product that is used as a size. -/
def sizeT (n : ℕ) : Option ℕ := if n < 2 ^ 64 then some n else none

/-- A conversion to `uint16_t`. -/
def uint16 (n : ℕ) : ℕ := n % 2 ^ 16

/-- A `night_hash_key_t`; `data` is the key or `NULL`. -/
structure HashKey where
  data : Option (List Byte)
  keyHash : UInt64
  value : Pointer
  deriving DecidableEq, Repr

/-- The fields of a `night_hash_init_t` that are read: `hash` says that the caller has
its own `night_hash_t`. -/
structure HashInit where
  hash : Bool
  maxSize : ℕ
  bucketSize : ℕ
  deriving DecidableEq, Repr

/-- A `night_hash_t` with the block its buckets point into. -/
structure NightHash where
  buckets : ℕ → Option ℕ
  size : ℕ
  elts : List Byte

/-- The process: the size of a page and which allocations succeed. -/
structure Process where
  pageSize : ℕ
  malloc : ℕ → Bool

/-- `night_hash_key_lc` with the macro `night_hash`: a `char` is extended by its sign. -/
def nightHashKeyLc (data : List Byte) : UInt64 :=
  data.foldl (fun key ch => key * 31 + UInt64.ofBitVec ((nightTolower ch).signExtend 64)) 0

/-! ## Building -/

/-- Both loops that add up the elements of each bucket in `test`; they end with
`goto next` or with an error when a bucket exceeds `limit`. -/
def addUp (limit size : ℕ) : List HashKey → (ℕ → ℕ) → Option (ℕ → ℕ)
  | [], test => some test
  | name :: names, test =>
      match name.data with
      | none => addUp limit size names test
      | some data =>
          let key := name.keyHash.toNat % size
          let len := test key + eltSize data.length
          if len > limit then none
          else addUp limit size names (Function.update test key (uint16 len))

/-- The loop that tries `size`, with `tries` sizes left up to `max_size`; `testBytes` is
the size of `test`. -/
def trySizes (testBytes maxSize bucketSize : ℕ) (names : List HashKey) :
    ℕ → ℕ → Option ℕ
  | 0, _ => if testBytes < maxSize * 2 then none else some maxSize
  | tries + 1, size =>
      if testBytes < size * 2 then none
      else if (addUp bucketSize size names fun _ => 0).isSome then some size
      else trySizes testBytes maxSize bucketSize names tries (size + 1)

/-- The loop that aligns the sizes of the buckets. -/
def alignBuckets (test : ℕ → ℕ) : ℕ → ℕ × (ℕ → ℕ)
  | 0 => (0, test)
  | i + 1 =>
      let before := alignBuckets test i
      if test i = pointerSize then before
      else
        let aligned := uint16 (nightAlign (test i) 8)
        (before.1 + aligned, Function.update before.2 i aligned)

/-- The loop that gives every bucket with elements its place in the block, and where the
next one goes. -/
def placeBuckets (test : ℕ → ℕ) : ℕ → (ℕ → Option ℕ) × ℕ
  | 0 => (fun _ => none, 0)
  | i + 1 =>
      let before := placeBuckets test i
      if test i = pointerSize then before
      else (Function.update before.1 i (some before.2), before.2 + test i)

/-- `elt->value`, `elt->len` and `night_strlow(elt->name, …)`. -/
def writeElt (elts : List Byte) (elt : ℕ) (value : Pointer) (data : List Byte) :
    Option (List Byte) := do
  let elts ← write elts elt (encode 8 value.toNat)
  let elts ← write elts (elt + 8) (encode 2 data.length)
  write elts (elt + 10) (data.map nightTolower)

/-- The loop that fills the buckets. -/
def fillBuckets (buckets : ℕ → Option ℕ) (size : ℕ) :
    List HashKey → (ℕ → ℕ) → List Byte → Option ((ℕ → ℕ) × List Byte)
  | [], test, elts => some (test, elts)
  | name :: names, test, elts =>
      match name.data with
      | none => fillBuckets buckets size names test elts
      | some data => do
          let key := name.keyHash.toNat % size
          let bucket ← buckets key
          let elts ← writeElt elts (bucket + test key) name.value data
          fillBuckets buckets size names
            (Function.update test key (uint16 (test key + eltSize data.length))) elts

/-- The loop that ends every bucket with a null value. -/
def endBuckets (buckets : ℕ → Option ℕ) (test : ℕ → ℕ) :
    ℕ → List Byte → Option (List Byte)
  | 0, elts => some elts
  | i + 1, elts => do
      let elts ← endBuckets buckets test i elts
      match buckets i with
      | none => some elts
      | some bucket => write elts (bucket + test i) (encode 8 0)

/-- A return of `NIGHT_ERROR`, or of `NIGHT_OK` with the hash that was built. -/
inductive Built where
  | error
  | ok (hash : NightHash)

/-- `sizeof(night_hash_wildcard_t)`. -/
def wildcardSize : ℕ := 24

/-- `night_hash_init` from the label `found` on. -/
def buildSize (process : Process) (hinit : HashInit) (names : List HashKey) (size : ℕ) :
    Option Built :=
  match addUp process.pageSize size names fun _ => pointerSize with
  | none => some .error
  | some test => do
      let aligned := alignBuckets test size
      let len ← sizeT aligned.1
      let test := aligned.2
      let bucketBytes ← sizeT ((if hinit.hash then 0 else wildcardSize) + size * pointerSize)
      if !process.malloc bucketBytes then some .error
      else if !process.malloc (nightAlign len 8) then some .error
      else do
        let buckets := (placeBuckets test size).1
        let elts := List.replicate (nightAlign len 8) 0
        let filled ← fillBuckets buckets size names (fun _ => 0) elts
        let elts ← endBuckets buckets filled.1 size filled.2
        some (.ok { buckets := buckets, size := size, elts := elts })

/-- `night_hash_init`. -/
def nightHashInit (process : Process) (hinit : HashInit) (names : List HashKey) :
    Option Built :=
  if hinit.maxSize = 0 then some .error
  else if hinit.bucketSize > process.pageSize then some .error
  else if ∃ name ∈ names, ∃ data ∈ name.data,
      hinit.bucketSize < eltSize data.length + pointerSize then some .error
  else
    let testBytes := hinit.maxSize * 2 % 2 ^ 64
    if !process.malloc testBytes then some .error
    else
      let bucketSize := (hinit.bucketSize + 2 ^ 64 - pointerSize) % 2 ^ 64
      let perBucket := bucketSize / (2 * pointerSize)
      if perBucket = 0 then none
      else do
        let start := names.length / perBucket
        let start := if start = 0 then 1 else start
        let size ← trySizes testBytes hinit.maxSize bucketSize names
          (hinit.maxSize + 1 - start) start
        buildSize process hinit names size

/-! ## Finding -/

/-- The walk through a bucket from the element at `elt`; a null pointer is zero. -/
def walkBucket (elts name : List Byte) : ℕ → ℕ → Option Pointer
  | 0, _ => none
  | fuel + 1, elt => do
      let value ← read elts elt 8
      if decode value = 0 then some 0
      else do
        let len ← read elts (elt + 8) 2
        let len := decode len
        let next := nightAlign (elt + 10 + len) pointerSize
        if name.length ≠ len then walkBucket elts name fuel next
        else do
          let eltName ← read elts (elt + 10) len
          if name ≠ eltName then walkBucket elts name fuel next
          else some (UInt64.ofNat (decode value))

/-- `night_hash_find`; the result is `none` when the walk leaves the block. -/
def nightHashFind (hash : NightHash) (key : UInt64) (name : List Byte) : Option Pointer :=
  match hash.buckets (key.toNat % hash.size) with
  | none => some 0
  | some bucket => walkBucket hash.elts name (hash.elts.length + 1) bucket

end Night.Hash
