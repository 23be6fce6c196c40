/-
  GogetaTools.Map.Defs

  The insertion-ordered hash map of `nvm_tools-J/helper/map.c`: an open
  addressing table (`buckets`, linear probing) whose occupied buckets are also
  threaded on a singly linked list (`first`, `last`, `next`).

  A `struct bucket *` is an index into the current bucket array, and `none` is
  the null pointer; for `m->last`, `none` is the address of `m->first`, which
  `hashmap_create` uses as an imaginary bucket.  A key is a non-null pointer of
  type `K`; the bytes it points to are read through `mem`.  A function answers
  `none` where the C code would dereference a null pointer, overflow an `int`
  or run past its loop bound.
-/

import GogetaTools.Words
import GogetaTools.Lib.LinearProbe
import GogetaTools.Lib.Binary32
import GogetaTools.Lib.LinkedChain

namespace GogetaTools.Map

open LinearProbe Binary32 LinkedChain

/-- The fields of `struct bucket` that `_hashmap_swap_bucket` exchanges. -/
structure Entry (K V : Type) where
  key : Option K
  ksize : Nat
  hash : BitVec 32
  value : V
deriving DecidableEq

/-- `struct bucket`. -/
structure Bucket (K V : Type) extends Entry K V where
  next : Option Nat
deriving DecidableEq

/-- `struct hashmap`. -/
structure Hashmap (K V : Type) where
  buckets : Nat → Bucket K V
  capacity : Nat
  count : Nat
  first : Option Nat
  last : Option Nat

/-- `compare`: it receives the raw key pointers of two buckets. -/
abbrev Compare (K : Type) := Option K → Option K → Int

variable {K V : Type}

namespace Hashmap

variable (m : Hashmap K V)

def next (i : Nat) : Option Nat := (m.buckets i).next

def entry (i : Nat) : Entry K V := (m.buckets i).toEntry

def key (i : Nat) : Option K := (m.entry i).key

def setNext (i : Nat) (p : Option Nat) : Hashmap K V :=
  { m with buckets := fun j => if j = i then { m.buckets i with next := p } else m.buckets j }

def setEntry (i : Nat) (e : Entry K V) : Hashmap K V :=
  { m with
    buckets := fun j => if j = i then { m.buckets i with toEntry := e } else m.buckets j }

/-- `m->last->next`, where `m->last` may be `&m->first`. -/
def lastNext : Option Nat :=
  match m.last with
  | none => m.first
  | some i => m.next i

def setLastNext (p : Option Nat) : Hashmap K V :=
  match m.last with
  | none => { m with first := p }
  | some i => m.setNext i p

/-! ### Reading a map after an update -/

section Updates

variable (i : Nat) (p : Option Nat) (e : Entry K V)

@[simp] theorem next_setNext : (m.setNext i p).next = setLink m.next i p := by
  funext j
  by_cases h : j = i <;> simp [next, setNext, setLink, h]

@[simp] theorem entry_setNext : (m.setNext i p).entry = m.entry := by
  funext j
  by_cases h : j = i <;> simp [entry, setNext, h]

@[simp] theorem next_setEntry : (m.setEntry i e).next = m.next := by
  funext j
  by_cases h : j = i <;> simp [next, setEntry, h]

@[simp] theorem entry_setEntry : (m.setEntry i e).entry = Function.update m.entry i e := by
  funext j
  by_cases h : j = i
  · subst h
    simp [entry, setEntry]
  · simp [entry, setEntry, h]

@[simp] theorem capacity_setNext : (m.setNext i p).capacity = m.capacity := rfl
@[simp] theorem count_setNext : (m.setNext i p).count = m.count := rfl
@[simp] theorem first_setNext : (m.setNext i p).first = m.first := rfl
@[simp] theorem last_setNext : (m.setNext i p).last = m.last := rfl
@[simp] theorem capacity_setEntry : (m.setEntry i e).capacity = m.capacity := rfl
@[simp] theorem count_setEntry : (m.setEntry i e).count = m.count := rfl
@[simp] theorem first_setEntry : (m.setEntry i e).first = m.first := rfl
@[simp] theorem last_setEntry : (m.setEntry i e).last = m.last := rfl

@[simp] theorem capacity_setLastNext : (m.setLastNext p).capacity = m.capacity := by
  rw [setLastNext]
  split <;> rfl

@[simp] theorem count_setLastNext : (m.setLastNext p).count = m.count := by
  rw [setLastNext]
  split <;> rfl

@[simp] theorem entry_setLastNext : (m.setLastNext p).entry = m.entry := by
  rw [setLastNext]
  split
  · rfl
  · exact entry_setNext ..

theorem setLastNext_none (h : m.last = none) : m.setLastNext p = { m with first := p } := by
  simp [setLastNext, h]

theorem setLastNext_some {a : Nat} (h : m.last = some a) : m.setLastNext p = m.setNext a p := by
  simp [setLastNext, h]

end Updates

end Hashmap

def HASHMAP_DEFAULT_CAPACITY : Nat := 20

def HASHMAP_RESIZE_FACTOR : Nat := 2

/-- A bucket as `calloc` leaves it. -/
def zeroBucket [Inhabited V] : Bucket K V :=
  { key := none, ksize := 0, hash := 0, value := default, next := none }

def hashmapCreate [Inhabited V] : Hashmap K V :=
  { buckets := fun _ => zeroBucket
    capacity := HASHMAP_DEFAULT_CAPACITY
    count := 0
    first := none
    last := none }

/-! ## `hash_data` -/

def HASHMAP_HASH_INIT : Word := 2166136261

/-- The multiplier of the loop over whole blocks. -/
def HASH_BLOCK_MUL : Word := 0xbf58476d1ce4e5b9

/-- The multiplier after the trailing bytes. -/
def HASH_TAIL_MUL : Word := 0xd6e8feb86659fd93

/-- The eight bytes at `data`, least significant first. -/
def readBlock (data : Nat → Byte) : Word :=
  (data 0).setWidth 64 <<< 0 ||| (data 1).setWidth 64 <<< 8 |||
  (data 2).setWidth 64 <<< 16 ||| (data 3).setWidth 64 <<< 24 |||
  (data 4).setWidth 64 <<< 32 ||| (data 5).setWidth 64 <<< 40 |||
  (data 6).setWidth 64 <<< 48 ||| (data 7).setWidth 64 <<< 56

/-- The loop over the `nblocks` whole blocks; it advances `data` as it goes. -/
def hashBlocks : Nat → (Nat → Byte) → Word → Word
  | 0, _, hash => hash
  | n + 1, data, hash =>
      hashBlocks n (fun i => data (i + 8)) (HASH_BLOCK_MUL * (hash ^^^ readBlock data))

/-- The bytes after the last whole block, as the fall-through `switch` ors them in. -/
def readTail (data : Nat → Byte) : Nat → Word → Word
  | 0, last => last
  | r + 1, last => readTail data r (last ||| (data r).setWidth 64 <<< (8 * (r + 1)))

def hashData (data : Nat → Byte) (size : Nat) : BitVec 32 :=
  let nblocks := size / 8
  let hash := hashBlocks nblocks data HASHMAP_HASH_INIT
  let tail := fun i => data (8 * nblocks + i)
  let hash :=
    if size % 8 = 0 then hash
    else HASH_TAIL_MUL * (hash ^^^ readTail tail (size % 8) (BitVec.ofNat 64 (size &&& 0xff)))
  (hash ^^^ (hash >>> 32)).setWidth 32

/-! ## Lookup and insertion -/

/-- `memcmp(a, b, n) == 0`. -/
def memcmpEq (a b : Nat → Byte) (n : Nat) : Bool :=
  (List.range n).all fun i => a i == b i

section Operations

variable (mem : K → Nat → Byte)

/-- The test of `find_entry`: an empty bucket, or one with the same key. -/
def entryMatches (key : K) (ksize : Nat) (hash : BitVec 32) (e : Entry K V) : Bool :=
  match e.key with
  | none => true
  | some k => e.ksize == ksize && e.hash == hash && memcmpEq (mem k) (mem key) ksize

def findEntry (m : Hashmap K V) (key : K) (ksize : Nat) (hash : BitVec 32) : Option Nat :=
  probeFrom (fun i => entryMatches mem key ksize hash (m.entry i)) m.capacity m.capacity
    (hash.toNat % m.capacity)

/-- `m->count + 1 > HASHMAP_MAX_LOAD * m->capacity`, in quarters: both `int`s
    are converted to `float` and the product by `0.75f` is rounded to `float`. -/
def overMaxLoad (m : Hashmap K V) : Bool :=
  4 * toFloat32 (m.count + 1) > toFloat32 (3 * toFloat32 m.capacity)

/-- Puts an old bucket, its `next` included, into a resized map. -/
def resizeEntry (m : Hashmap K V) (old : Bucket K V) : Option (Hashmap K V × Nat) := do
  let entry ← probeFrom (fun i => (m.key i).isNone) m.capacity m.capacity
    (old.hash.toNat % m.capacity)
  some ({ m with buckets := fun j => if j = entry then old else m.buckets j }, entry)

/-- The `do … while` loop of `hashmap_resize`.  After `resize_entry` the link
    `m->last->next` is still an address in the old bucket array. -/
def resizeLoop (oldBuckets : Nat → Bucket K V) : Nat → Hashmap K V → Option (Hashmap K V)
  | 0, _ => none
  | fuel + 1, m => do
      let old ← m.lastNext
      let (m, entry) ← resizeEntry m (oldBuckets old)
      let m := { m.setLastNext (some entry) with last := some entry }
      if m.lastNext = none then some m else resizeLoop oldBuckets fuel m

def hashmapResize [Inhabited V] (m : Hashmap K V) : Option (Hashmap K V) :=
  let capacity := m.capacity * HASHMAP_RESIZE_FACTOR
  if capacity < intLimit then
    resizeLoop m.buckets m.count
      { m with capacity := capacity, buckets := fun _ => zeroBucket, last := none }
  else none

/-- The statement `hashmap_set` begins with. -/
def resizeIfFull [Inhabited V] (m : Hashmap K V) : Option (Hashmap K V) :=
  if overMaxLoad m then hashmapResize m else some m

def hashmapSet [Inhabited V] (m : Hashmap K V) (key : K) (ksize : Nat) (val : V) :
    Option (Hashmap K V) := do
  let m ← resizeIfFull m
  let hash := hashData (mem key) ksize
  let entry ← findEntry mem m key ksize hash
  if (m.key entry).isNone then
    let m := { m.setLastNext (some entry) with last := some entry }
    let m := { m.setNext entry none with count := m.count + 1 }
    some (m.setEntry entry { key := some key, ksize := ksize, hash := hash, value := val })
  else
    some (m.setEntry entry { m.entry entry with value := val })

/-- The found flag, and what `*out_val` receives. -/
def hashmapGet (m : Hashmap K V) (key : K) (ksize : Nat) : Option (Bool × V) := do
  let hash := hashData (mem key) ksize
  let entry ← findEntry mem m key ksize hash
  some ((m.key entry).isSome, (m.entry entry).value)

end Operations

/-! ## `hashmap_sort` -/

/-- Exchanges everything but the `next` links of two buckets. -/
def hashmapSwapBucket (m : Hashmap K V) (a b : Nat) : Hashmap K V :=
  let tmp := m.entry a
  let m := m.setEntry a (m.entry b)
  m.setEntry b tmp

/-- The `while` loop of `_hashmap_merge`; it answers `astart` and `bstart`. -/
def mergeLoop (cmp : Compare K) (aend : Nat) (bendnext : Option Nat) :
    Nat → Hashmap K V → Nat → Option Nat → Option (Hashmap K V × Nat × Option Nat)
  | 0, _, _, _ => none
  | fuel + 1, m, astart, bstart =>
      if astart ≠ aend ∧ bstart ≠ bendnext then do
        let anext ← m.next astart
        let b ← bstart
        let (m, bstart) :=
          if cmp (m.key anext) (m.key b) > 0 then
            let temp := m.next b
            let m := m.setNext b (m.next astart)
            let m := m.setNext astart (some b)
            (m, temp)
          else (m, bstart)
        let astart ← m.next astart
        mergeLoop cmp aend bendnext fuel m astart bstart
      else some (m, astart, bstart)

/-- `_hashmap_merge`.  Of its four pointer arguments it only changes `*end2`,
    which is answered with the map. -/
def hashmapMerge (cmp : Compare K) (fuel : Nat) (m : Hashmap K V)
    (start1 end1 start2 end2 : Nat) : Option (Hashmap K V × Nat) := do
  let m :=
    if cmp (m.key start1) (m.key start2) > 0 then
      hashmapSwapBucket (hashmapSwapBucket m start1 start2) end1 end2
    else m
  let bendnext := m.next end2
  let (m, astart, bstart) ← mergeLoop cmp end1 bendnext fuel m start1 (some start2)
  if astart = end1 then some (m.setNext astart bstart, end2) else some (m, end1)

/-- `while (--counter && end->next) end = end->next;` with `counter = n + 1`. -/
def segmentEnd (m : Hashmap K V) : Nat → Nat → Nat
  | 0, e => e
  | n + 1, e =>
      match m.next e with
      | none => e
      | some e' => segmentEnd m n e'

/-- Update head for first iteration, else append after previous list. -/
def appendSegment (m : Hashmap K V) (isFirstIter : Bool) (prevend : Option Nat)
    (start1 : Nat) : Option (Hashmap K V) :=
  if isFirstIter then some { m with first := some start1 }
  else do
    let prevend ← prevend
    some (m.setNext prevend (some start1))

/-- The `while (start1)` loop of `_hashmap_msort` for one `gap`; it answers
    `prevend` and `start1` as the loop leaves them. -/
def msortPass (cmp : Compare K) (gap len : Nat) :
    Nat → Hashmap K V → Option Nat → Option Nat →
      Option (Hashmap K V × Option Nat × Option Nat)
  | 0, _, _, _ => none
  | _ + 1, m, prevend, none => some (m, prevend, none)
  | fuel + 1, m, prevend, some start1 =>
      let isFirstIter := m.first == some start1
      let end1 := segmentEnd m (gap - 1) start1
      match m.next end1 with
      | none => some (m, prevend, some start1)
      | some start2 => do
          let end2 := segmentEnd m (gap - 1) start2
          let temp := m.next end2
          let (m, end2) ← hashmapMerge cmp len m start1 end1 start2 end2
          let m ← appendSegment m isFirstIter prevend start1
          msortPass cmp gap len fuel m (some end2) temp

/-- The loop over `gap`, an `int` that doubles. -/
def msortLoop (cmp : Compare K) (len : Nat) :
    Nat → Nat → Hashmap K V → Option Nat → Option (Hashmap K V)
  | 0, _, _, _ => none
  | fuel + 1, gap, m, prevend =>
      if gap < len then do
        let (m, prevend, start1) ← msortPass cmp gap len (len + 1) m prevend m.first
        let prevend ← prevend
        let m := m.setNext prevend start1
        if gap * 2 < intLimit then msortLoop cmp len fuel (gap * 2) m (some prevend) else none
      else some m

def hashmapMsort (cmp : Compare K) (m : Hashmap K V) (len : Nat) : Option (Hashmap K V) :=
  if m.first = none then some m else msortLoop cmp len 32 1 m none

def hashmapSort (cmp : Compare K) (m : Hashmap K V) : Option (Hashmap K V) :=
  hashmapMsort cmp m m.count

/-- The buckets `foreach_hashmap_bucket` visits, `fuel` of them at most. -/
def foreachHashmapBucket (m : Hashmap K V) : Nat → Option Nat → Option (List Nat)
  | _, none => some []
  | 0, some _ => none
  | fuel + 1, some b => do
      let rest ← foreachHashmapBucket m fuel (m.next b)
      some (b :: rest)

end GogetaTools.Map
