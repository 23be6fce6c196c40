/-
  GogetaTools.Map.Removable

  The hash map as it is built with `__HASHMAP_REMOVABLE`: a removed entry stays
  where it is as a tombstone, a bucket with a null key and a non-zero value,
  until `hashmap_resize` drops it.

  A search passes over tombstones, so they count as occupied; they stay on the
  list and in `m->count`, and `hashmap_size` subtracts them.  `hashmapCall_erases`
  says that a caller sees none of this: every sequence of calls is answered as a
  dictionary answers it from which keys can be erased, and a key that is added
  again comes last.
-/

import GogetaTools.Map.Operations

namespace GogetaTools.Map.Removable

open LinearProbe LinkedChain PyDict Simulation

variable {K U : Type}

/-- `struct hashmap` with its last field. -/
structure RemovableMap (K : Type) extends Hashmap K Word where
  tombstoneCount : Nat

def hashmapCreate : RemovableMap K :=
  { toHashmap := Map.hashmapCreate, tombstoneCount := 0 }

section Operations

variable (mem : K → Nat → Byte)

/-- The test of `find_entry`: a bucket never used, or one with the same key. -/
def entryMatches (key : K) (ksize : Nat) (hash : BitVec 32) (e : Entry K Word) : Bool :=
  let nullKey := e.key.isNone
  let nullValue := e.value == 0
  (nullKey && nullValue) ||
    match e.key with
    | none => false
    | some k => e.ksize == ksize && e.hash == hash && memcmpEq (mem k) (mem key) ksize

def findEntry (m : Hashmap K Word) (key : K) (ksize : Nat) (hash : BitVec 32) : Option Nat :=
  probeFrom (fun i => entryMatches mem key ksize hash (m.entry i)) m.capacity m.capacity
    (hash.toNat % m.capacity)

/-- The body of the `do … while` loop of `hashmap_resize`: a tombstone is unlinked,
    and `continue` goes to the loop condition. -/
def resizeStep (oldBuckets : Nat → Bucket K Word) (m : Hashmap K Word) :
    Option (Hashmap K Word) := do
  let current ← m.lastNext
  if (oldBuckets current).key.isNone then
    some (m.setLastNext (oldBuckets current).next)
  else
    let (m, entry) ← resizeEntry m (oldBuckets current)
    some { m.setLastNext (some entry) with last := some entry }

def resizeLoop (oldBuckets : Nat → Bucket K Word) : Nat → Hashmap K Word → Option (Hashmap K Word)
  | 0, _ => none
  | fuel + 1, m => do
      let m ← resizeStep oldBuckets m
      if m.lastNext = none then some m else resizeLoop oldBuckets fuel m

def hashmapResize (m : RemovableMap K) : Option (RemovableMap K) := do
  let capacity := m.capacity * HASHMAP_RESIZE_FACTOR
  if capacity < intLimit then
    let resized ← resizeLoop m.buckets m.count
      { buckets := fun _ => zeroBucket
        capacity := capacity
        count := m.count - m.tombstoneCount
        first := m.first
        last := none }
    some { toHashmap := resized, tombstoneCount := 0 }
  else none

def resizeIfFull (m : RemovableMap K) : Option (RemovableMap K) :=
  if overMaxLoad m.toHashmap then hashmapResize m else some m

def hashmapSet (m : RemovableMap K) (key : K) (ksize : Nat) (val : Word) :
    Option (RemovableMap K) := do
  let m ← resizeIfFull m
  let hash := hashData (mem key) ksize
  let entry ← findEntry mem m.toHashmap key ksize hash
  if (m.key entry).isNone then
    let new := { key := some key, ksize := ksize, hash := hash, value := val }
    some { m with toHashmap := linkLast m.toHashmap entry new }
  else
    some { m with toHashmap := m.setEntry entry { m.entry entry with value := val } }

def hashmapGetSet (m : RemovableMap K) (key : K) (ksize : Nat) (outIn : Word) :
    Option (RemovableMap K × Bool × Word) := do
  let m ← resizeIfFull m
  let hash := hashData (mem key) ksize
  let entry ← findEntry mem m.toHashmap key ksize hash
  if (m.key entry).isNone then
    let new := { key := some key, ksize := ksize, hash := hash, value := outIn }
    some ({ m with toHashmap := linkLast m.toHashmap entry new }, false, outIn)
  else
    some (m, true, (m.entry entry).value)

def hashmapSetFree (m : RemovableMap K) (key : K) (ksize : Nat) (val : Word)
    (c : Callback K Word U) (usr : U) : Option (RemovableMap K × U) := do
  let m ← resizeIfFull m
  let hash := hashData (mem key) ksize
  let entry ← findEntry mem m.toHashmap key ksize hash
  if (m.key entry).isNone then
    let new := { key := some key, ksize := ksize, hash := hash, value := val }
    some ({ m with toHashmap := linkLast m.toHashmap entry new }, usr)
  else
    let usr := c (m.key entry) ksize (m.entry entry).value usr
    let m' := m.setEntry entry { m.entry entry with key := some key, value := val }
    some ({ m with toHashmap := m' }, usr)

def hashmapGet (m : RemovableMap K) (key : K) (ksize : Nat) : Option (Bool × Word) := do
  let hash := hashData (mem key) ksize
  let entry ← findEntry mem m.toHashmap key ksize hash
  some ((m.key entry).isSome, (m.entry entry).value)

/-- What marks a bucket as a tombstone beside its null key. -/
def tombstoneValue : Word := 0xDEAD

def bury (m : RemovableMap K) (entry : Nat) : RemovableMap K :=
  { m with
    toHashmap := m.setEntry entry { m.entry entry with key := none, value := tombstoneValue }
    tombstoneCount := m.tombstoneCount + 1 }

def hashmapRemove (m : RemovableMap K) (key : K) (ksize : Nat) : Option (RemovableMap K) := do
  let hash := hashData (mem key) ksize
  let entry ← findEntry mem m.toHashmap key ksize hash
  if (m.key entry).isSome then some (bury m entry) else some m

def hashmapRemoveFree (m : RemovableMap K) (key : K) (ksize : Nat) (c : Callback K Word U)
    (usr : U) : Option (RemovableMap K × U) := do
  let hash := hashData (mem key) ksize
  let entry ← findEntry mem m.toHashmap key ksize hash
  if (m.key entry).isSome then
    let e := m.entry entry
    some (bury m entry, c e.key e.ksize e.value usr)
  else some (m, usr)

end Operations

def hashmapSize (m : RemovableMap K) : Nat := m.count - m.tombstoneCount

/-- The loop of `hashmap_iterate`, with its tombstone check. -/
def iterateLoop (c : Callback K Word U) (m : Hashmap K Word) : Nat → Option Nat → U → Option U
  | _, none, usr => some usr
  | 0, some _, _ => none
  | fuel + 1, some current, usr =>
      let e := m.entry current
      let usr := if e.key.isSome then c e.key e.ksize e.value usr else usr
      iterateLoop c m fuel (m.next current) usr

def hashmapIterate (m : RemovableMap K) (c : Callback K Word U) (usr : U) : Option U :=
  iterateLoop c m.toHashmap m.count m.first usr

/-! ## Calls -/

inductive RemovableCall (K U : Type)
  | call (op : Call K Word U)
  | remove (key : K) (ksize : Nat)
  | removeFree (key : K) (ksize : Nat) (c : Callback K Word U) (usr : U)

/-- The calls that may add an entry. -/
def RemovableCall.adds : RemovableCall K U → Bool
  | .call (.set ..) => true
  | .call (.getSet ..) => true
  | .call (.setFree ..) => true
  | _ => false

section Calls

variable (mem : K → Nat → Byte)

def hashmapCall (m : RemovableMap K) :
    RemovableCall K U → Option (RemovableMap K × Answer Word U)
  | .call (.set key ksize val) => (hashmapSet mem m key ksize val).map fun m => (m, .done)
  | .call (.getSet key ksize outIn) =>
      (hashmapGetSet mem m key ksize outIn).map fun a => (a.1, .found a.2.1 a.2.2)
  | .call (.setFree key ksize val c usr) =>
      (hashmapSetFree mem m key ksize val c usr).map fun a => (a.1, .usr a.2)
  | .call (.get key ksize) => (hashmapGet mem m key ksize).map fun a => (m, .found a.1 a.2)
  | .call .size => some (m, .size (hashmapSize m))
  | .call (.iterate c usr) => (hashmapIterate m c usr).map fun usr => (m, .usr usr)
  | .remove key ksize => (hashmapRemove mem m key ksize).map fun m => (m, .done)
  | .removeFree key ksize c usr =>
      (hashmapRemoveFree mem m key ksize c usr).map fun a => (a.1, .usr a.2)

/-- What the call is for. -/
def eraseCall (d : KeyDict K Word) : RemovableCall K U → KeyDict K Word × Answer Word U
  | .call op => dictCall mem d op
  | .remove key ksize => (d.erase (keyBytes mem key ksize), .done)
  | .removeFree key ksize c usr =>
      (d.erase (keyBytes mem key ksize),
        .usr (match d.get? (keyBytes mem key ksize) with
          | none => usr
          | some (k, val) => c (some k) ksize val usr))

end Calls

/-! ## The invariant -/

/-- The bucket was never used: `find_entry` stops at it. -/
def Unused (e : Entry K Word) : Prop := e.key = none ∧ e.value = 0

/-- The entries that are not tombstones. -/
def live (es : List (Entry K Word)) : List (Entry K Word) := es.filter fun e => e.key.isSome

/-- The map is well formed, with the buckets `l` on its list, tombstones included. -/
structure WF (mem : K → Nat → Byte) (m : RemovableMap K) (l : List Nat) : Prop where
  slots : ProbeTable (fun i => ¬ Unused (m.entry i)) (fun i => (m.entry i).hash.toNat) m.capacity l
  last : m.last = l.getLast?
  contents : GoodContents mem (live (l.map m.entry))
  chain : Chain m.next m.first l none
  count : m.count = l.length
  tombstones : m.tombstoneCount + (live (l.map m.entry)).length = l.length
  capacity : ∃ k, m.capacity = HASHMAP_DEFAULT_CAPACITY * 2 ^ k
  capacity_lt : m.capacity < intLimit
  load : 5 * m.count ≤ 4 * m.capacity

/-- The live entries, in list order, are those of the dictionary. -/
def Represents (mem : K → Nat → Byte) (m : RemovableMap K) (d : KeyDict K Word) : Prop :=
  ∃ l, WF mem m l ∧ pairs mem (l.map m.entry) = d.pairs

variable {mem : K → Nat → Byte}

theorem live_append (es es' : List (Entry K Word)) : live (es ++ es') = live es ++ live es' :=
  List.filter_append ..

theorem live_cons_of_some {e : Entry K Word} {k : K} (h : e.key = some k)
    (es : List (Entry K Word)) : live (e :: es) = e :: live es :=
  List.filter_cons_of_pos (by rw [h]; rfl)

theorem live_cons_of_none {e : Entry K Word} (h : e.key = none) (es : List (Entry K Word)) :
    live (e :: es) = live es :=
  List.filter_cons_of_neg (by rw [h]; simp)

theorem live_eq_self {es : List (Entry K Word)} (h : ∀ e ∈ es, e.key ≠ none) : live es = es :=
  List.filter_eq_self.mpr fun e he => Option.isSome_iff_ne_none.mpr (h e he)

theorem pairs_live (es : List (Entry K Word)) : pairs mem (live es) = pairs mem es := by
  induction es with
  | nil => rfl
  | cons e es ih =>
      rcases hk : e.key with - | k
      · rw [live_cons_of_none hk, ih, pairs, pairs,
          List.filterMap_cons_none (by rw [pairOf, hk]; rfl)]
      · rw [live_cons_of_some hk, pairs_cons_of_key hk, pairs_cons_of_key hk, ih]

theorem key_ne_none_of_mem {es : List (Entry K Word)} (h : GoodContents mem es) {e : Entry K Word}
    (he : e ∈ es) : e.key ≠ none := by
  obtain ⟨k, hk, -⟩ := h.hashed e he
  rw [hk]
  exact Option.some_ne_none k

theorem not_unused_of_key {e : Entry K Word} (h : e.key ≠ none) : ¬ Unused e := fun hu => h hu.1

/-! ## `hashmap_resize` drops the tombstones -/

/-- A map without tombstones is one of the plain build. -/
theorem wf_of_table {m : Hashmap K Word} {l : List Nat} (h : Table mem m l) (hclean : Clean m.entry)
    (hch : Chain m.next m.first l none) (hcount : m.count = l.length)
    (hcap : ∃ k, m.capacity = HASHMAP_DEFAULT_CAPACITY * 2 ^ k) (hlt : m.capacity < intLimit)
    (hload : 5 * m.count ≤ 4 * m.capacity) :
    WF mem { toHashmap := m, tombstoneCount := 0 } l := by
  have hlive : live (l.map m.entry) = l.map m.entry :=
    live_eq_self fun e he => key_ne_none_of_mem h.contents he
  refine ⟨h.probeTable.congr (fun j => ?_) fun j _ => rfl, h.last, by rw [hlive]; exact h.contents,
    hch, hcount, by rw [hlive]; simp, hcap, hlt, hload⟩
  constructor
  · intro hused hnone
    exact hused ⟨hnone, hclean j hnone⟩
  · exact not_unused_of_key

theorem Table.congr {m m' : Hashmap K Word} {l : List Nat} (h : Table mem m l)
    (hent : m'.entry = m.entry) (hcap : m'.capacity = m.capacity) (hlast : m'.last = m.last) :
    Table mem m' l :=
  ⟨h.nodup, fun i => by rw [hcap, Hashmap.key, hent]; exact h.mem_iff i, hlast.trans h.last,
    by rw [hcap, hent]; exact h.reaches, by rw [hent]; exact h.contents⟩

/-- `m->last->next = p;` -/
theorem chain_setLastNext_end {m : Hashmap K Word} {l : List Nat} {q : Option Nat} (p : Option Nat)
    (hlast : m.last = l.getLast?) (hch : Chain m.next m.first l q) (hnd : l.Nodup) :
    Chain (m.setLastNext p).next (m.setLastNext p).first l p ∧ (m.setLastNext p).last = m.last := by
  rcases List.eq_nil_or_concat l with rfl | ⟨l', d, rfl⟩
  · rw [Hashmap.setLastNext_none m _ (by simpa using hlast)]
    exact ⟨rfl, rfl⟩
  · rw [List.concat_eq_append] at *
    have hd : (l' ++ [d]).getLast? = some d := by simp
    rw [Hashmap.setLastNext_some m _ (hlast.trans hd)]
    exact ⟨by rw [Hashmap.next_setNext]; exact hch.setLink_last hnd hd, rfl⟩

/-- One pass of the loop: the old bucket at the head of what is left moves behind
    the moved ones, unless it is a tombstone. -/
theorem resizeStep_spec (oldBuckets : Nat → Bucket K Word) {m : Hashmap K Word} {D R : List Nat}
    {old : Nat} (hold : Chain (fun i => (oldBuckets i).next) (some old) (old :: R) none)
    (htab : Table mem m D) (hclean : Clean m.entry) (hch : Chain m.next m.first D (some old))
    (hlt : D.length < m.capacity)
    (hgood : GoodContents mem (D.map m.entry ++ live [(oldBuckets old).toEntry])) :
    ∃ m' D', resizeStep oldBuckets m = some m' ∧ Table mem m' D' ∧ Clean m'.entry ∧
      Chain m'.next m'.first D' R.head? ∧ D'.length ≤ D.length + 1 ∧ m'.capacity = m.capacity ∧
      m'.count = m.count ∧
      D'.map m'.entry = D.map m.entry ++ live [(oldBuckets old).toEntry] := by
  have hnext : m.lastNext = some old := lastNext_eq htab.last hch
  have hrest : (oldBuckets old).next = R.head? := hold.2.eq_head?
  rcases hk : (oldBuckets old).key with - | k
  · -- a tombstone is unlinked
    obtain ⟨hch', hlast'⟩ := chain_setLastNext_end R.head? htab.last hch htab.nodup
    refine ⟨m.setLastNext R.head?, D, ?_, ?_, ?_, hch', by omega, by simp, by simp, ?_⟩
    · simp [resizeStep, hnext, hk, hrest]
    · exact Table.congr htab (by simp) (by simp) hlast'
    · rw [Hashmap.entry_setLastNext]
      exact hclean
    · rw [live_cons_of_none hk, Hashmap.entry_setLastNext]
      exact (List.append_nil _).symm
  · -- any other bucket is copied, link included
    rw [live_cons_of_some hk] at hgood ⊢
    obtain ⟨m₁, e, hentry, heD, hnext₁, hfirst₁, hlast₁, hcount₁, hcap₁, htab₁⟩ :=
      resizeEntry_spec htab hlt (oldBuckets old) hgood
    have hch₁ : Chain m₁.next m₁.first D (some old) := by
      rw [hnext₁, hfirst₁]
      exact hch.setLink_of_notMem heD
    obtain ⟨hch₂, hent₂⟩ := chain_setLastNext (hlast₁.trans htab.last) hch₁ htab.nodup heD
    let m₂ : Hashmap K Word := { m₁.setLastNext (some e) with last := some e }
    obtain ⟨htab₂, hmap₂⟩ := htab₁ m₂ hent₂ (Hashmap.capacity_setLastNext ..) rfl
    refine ⟨m₂, D ++ [e], ?_, htab₂, ?_, ?_, by simp, ?_, ?_, hmap₂⟩
    · simp [resizeStep, hnext, hk, hentry, m₂]
    · show Clean (m₁.setLastNext (some e)).entry
      rw [Hashmap.entry_setLastNext, entry_of_resizeEntry hentry]
      exact hclean.update e fun hnone => by rw [hk] at hnone; cases hnone
    · have : m₁.next e = R.head? := by rw [hnext₁, setLink_self, hrest]
      exact this ▸ hch₂
    · exact (Hashmap.capacity_setLastNext ..).trans hcap₁
    · exact (Hashmap.count_setLastNext ..).trans hcount₁

/-- The loop moves what is live of the remaining old buckets `R` behind the moved ones. -/
theorem resizeLoop_spec (oldBuckets : Nat → Bucket K Word) :
    ∀ (R : List Nat) (fuel : Nat) (D : List Nat) (m : Hashmap K Word), R ≠ [] → R.length ≤ fuel →
      Chain (fun i => (oldBuckets i).next) R.head? R none → Table mem m D → Clean m.entry →
      Chain m.next m.first D R.head? → D.length + R.length < m.capacity →
      GoodContents mem (D.map m.entry ++ live (R.map fun i => (oldBuckets i).toEntry)) →
      ∃ m' l, resizeLoop oldBuckets fuel m = some m' ∧ Table mem m' l ∧ Clean m'.entry ∧
        Chain m'.next m'.first l none ∧ m'.capacity = m.capacity ∧ m'.count = m.count ∧
        l.map m'.entry = D.map m.entry ++ live (R.map fun i => (oldBuckets i).toEntry) := by
  intro R
  -- Induction on what is left; the fuel is the length of the list at the start.
  induction R with
  | nil => intro fuel D m hne; exact absurd rfl hne
  | cons old R ih =>
      intro fuel D m _ hfuel hold htab hclean hch hlt hgood
      cases fuel with
      | zero => simp at hfuel
      | succ fuel =>
          simp only [List.map_cons, List.length_cons, List.head?_cons] at *
          have hsplit : live ((oldBuckets old).toEntry :: R.map fun i => (oldBuckets i).toEntry) =
              live [(oldBuckets old).toEntry] ++ live (R.map fun i => (oldBuckets i).toEntry) := by
            rw [← live_append, List.singleton_append]
          rw [hsplit, ← List.append_assoc] at hgood ⊢
          have hgood₁ : GoodContents mem (D.map m.entry ++ live [(oldBuckets old).toEntry]) :=
            ⟨fun e he => hgood.hashed e (List.mem_append_left _ he),
              hgood.distinct.sublist (List.sublist_append_left ..)⟩
          obtain ⟨m₁, D₁, hstep, htab₁, hclean₁, hch₁, hlen₁, hcap₁, hcount₁, hmap₁⟩ :=
            resizeStep_spec oldBuckets hold htab hclean hch (by omega) hgood₁
          have hlast₁ : m₁.lastNext = R.head? := lastNext_eq htab₁.last hch₁
          rw [← hmap₁] at hgood ⊢
          cases R with
          | nil =>
              refine ⟨m₁, D₁, ?_, htab₁, hclean₁, hch₁, hcap₁, hcount₁, (List.append_nil _).symm⟩
              rw [resizeLoop, hstep, Option.bind_eq_bind, Option.bind_some, hlast₁,
                if_pos List.head?_nil]
          | cons b R =>
              obtain ⟨m', l, hrun, htab', hclean', hch', hcap', hcount', hmap'⟩ :=
                ih fuel D₁ m₁ (by simp) (by simpa using hfuel) ⟨rfl, hold.2.2⟩ htab₁ hclean₁ hch₁
                  (by rw [hcap₁]; simp only [List.length_cons] at hlt ⊢; omega) hgood
              refine ⟨m', l, ?_, htab', hclean', hch', hcap'.trans hcap₁, hcount'.trans hcount₁,
                hmap'⟩
              rw [resizeLoop, hstep, Option.bind_eq_bind, Option.bind_some, hlast₁,
                if_neg (by simp), hrun]

theorem WF.length_lt {m : RemovableMap K} {l : List Nat} (h : WF mem m l) :
    l.length < m.capacity := by
  have hload := h.load
  have hcount := h.count
  obtain ⟨k, hk⟩ := h.capacity
  have hpos : 0 < m.capacity := by
    rw [hk]
    exact Nat.mul_pos (by decide) (Nat.two_pow_pos k)
  omega

/-- `hashmap_resize` moves every live entry, in list order, to a table twice as large. -/
theorem hashmapResize_spec {m : RemovableMap K} {l : List Nat} (h : WF mem m l) (hne : l ≠ [])
    (hcap : m.capacity * HASHMAP_RESIZE_FACTOR < intLimit) :
    ∃ m' l', hashmapResize m = some m' ∧ WF mem m' l' ∧
      l'.map m'.entry = live (l.map m.entry) ∧
      m'.capacity = m.capacity * HASHMAP_RESIZE_FACTOR ∧ m'.count ≤ m.count := by
  have hlt := h.length_lt
  have htomb := h.tombstones
  have hload := h.load
  have hcountl := h.count
  let m₀ : Hashmap K Word :=
    { buckets := fun _ => zeroBucket
      capacity := m.capacity * HASHMAP_RESIZE_FACTOR
      count := m.count - m.tombstoneCount
      first := m.first
      last := none }
  have htab₀ : Table mem m₀ [] := by
    refine ⟨List.nodup_nil, ?_, rfl, by simp, ⟨by simp, by simp⟩⟩
    intro i
    simp [m₀, Hashmap.key, Hashmap.entry, zeroBucket]
  have hhead : m.first = l.head? := h.chain.eq_head?
  obtain ⟨m', l', hrun, htab', hclean', hch', hcap', hcount', hmap'⟩ :=
    resizeLoop_spec m.buckets l m.count [] m₀ hne (by rw [h.count]) (hhead ▸ h.chain)
      htab₀ (fun _ _ => rfl) hhead (by simp [m₀, HASHMAP_RESIZE_FACTOR]; omega) h.contents
  have hlen : l'.length = (live (l.map m.entry)).length :=
    (List.length_map ..).symm.trans (congrArg List.length hmap')
  have hcount₀ : m'.count = m.count - m.tombstoneCount := hcount'
  have hcap₀ : m'.capacity = m.capacity * HASHMAP_RESIZE_FACTOR := hcap'
  refine ⟨_, l', ?_, wf_of_table htab' hclean' hch' (by omega) ?_ (by omega) ?_, hmap', hcap',
    show m'.count ≤ m.count by omega⟩
  · simp only [hashmapResize, if_pos hcap]
    rw [hrun]
    rfl
  · obtain ⟨k, hk⟩ := h.capacity
    exact ⟨k + 1, by rw [hcap₀, hk, HASHMAP_RESIZE_FACTOR, Nat.pow_succ, Nat.mul_assoc]⟩
  · rw [hcap₀, HASHMAP_RESIZE_FACTOR]
    omega

/-- The load test leaves the dictionary alone and makes room for one more entry. -/
theorem Represents.resizeIfFull {m : RemovableMap K} {d : KeyDict K Word}
    (h : Represents mem m d) (hcount : m.count < 2 ^ 29) :
    ∃ m', Removable.resizeIfFull m = some m' ∧ Represents mem m' d ∧
      5 * (m'.count + 1) ≤ 4 * m'.capacity ∧ m'.count ≤ m.count := by
  obtain ⟨l, hwf, hpairs⟩ := h
  obtain ⟨k, hk⟩ := hwf.capacity
  have hpos : 0 < 2 ^ k := Nat.two_pow_pos k
  have hload := hwf.load
  by_cases hover : overMaxLoad m.toHashmap = true
  · have hgt := (overMaxLoad_iff hk).mp hover
    have hle := Binary32.toFloat32_le (m.count + 1)
    have hne : l ≠ [] := by
      rintro rfl
      rw [hwf.count] at hgt hle
      simp at hgt hle
      omega
    have hroom : m.capacity * HASHMAP_RESIZE_FACTOR < intLimit := by
      simp only [hk, HASHMAP_DEFAULT_CAPACITY, HASHMAP_RESIZE_FACTOR, intLimit]
      omega
    obtain ⟨m', l', hrun, hwf', hmap, hcap', hcount'⟩ := hashmapResize_spec hwf hne hroom
    refine ⟨m', by simpa [Removable.resizeIfFull, hover] using hrun, ⟨l', hwf', ?_⟩, ?_, hcount'⟩
    · rw [hmap, pairs_live, hpairs]
    · rw [hcap', HASHMAP_RESIZE_FACTOR]
      simp only [hk, HASHMAP_DEFAULT_CAPACITY] at hload ⊢
      omega
  · refine ⟨m, by simp [Removable.resizeIfFull, hover], ⟨l, hwf, hpairs⟩, ?_, Nat.le_refl _⟩
    have hle : ¬ 15 * 2 ^ k < Binary32.toFloat32 (m.count + 1) :=
      fun hgt => hover ((overMaxLoad_iff hk).mpr hgt)
    have hround := Binary32.le_toFloat32 (m.count + 1)
    rw [hk, HASHMAP_DEFAULT_CAPACITY]
    omega

/-! ## `find_entry` -/

theorem entryMatches_of_none {e : Entry K Word} (h : e.key = none) (key : K) (ksize : Nat)
    (hash : BitVec 32) : entryMatches mem key ksize hash e = (e.value == 0) := by
  simp [entryMatches, h]

theorem entryMatches_of_some {e : Entry K Word} {k : K} (h : e.key = some k) (key : K)
    (ksize : Nat) (hash : BitVec 32) :
    entryMatches mem key ksize hash e = Map.entryMatches mem key ksize hash e := by
  simp [entryMatches, Map.entryMatches, h]

/-- The search stops at an unused bucket or at one that holds the key. -/
theorem unused_or_hasKey {e : Entry K Word} {key : K} {ksize : Nat} {hash : BitVec 32}
    (h : entryMatches mem key ksize hash e = true) : Unused e ∨ HasKey mem e key ksize := by
  rcases hk : e.key with - | k
  · rw [entryMatches_of_none hk, beq_iff_eq] at h
    exact Or.inl ⟨hk, h⟩
  · rw [entryMatches_of_some hk] at h
    rcases hasKey_of_entryMatches h with hnone | hkey
    · rw [hk] at hnone
      cases hnone
    · exact Or.inr hkey

theorem mem_live_of_hasKey {es : List (Entry K Word)} {e : Entry K Word} {key : K} {ksize : Nat}
    (he : e ∈ es) (hkey : HasKey mem e key ksize) : e ∈ live es := by
  obtain ⟨k, hk, -⟩ := hkey
  exact List.mem_filter.mpr ⟨he, by rw [hk]; rfl⟩

/-- No two buckets of the list hold the same key. -/
theorem WF.bucket_unique {m : RemovableMap K} {l : List Nat} (h : WF mem m l) {i j : Nat}
    (hi : i ∈ l) (hj : j ∈ l) {key : K} {ksize : Nat} (hki : HasKey mem (m.entry i) key ksize)
    (hkj : HasKey mem (m.entry j) key ksize) : i = j := by
  have hcontents := h.contents
  rw [live, List.filter_map] at hcontents
  have hlive : ∀ {t}, t ∈ l → HasKey mem (m.entry t) key ksize →
      t ∈ l.filter ((fun e : Entry K Word => e.key.isSome) ∘ m.entry) := by
    intro t ht hkt
    obtain ⟨k, hk, -⟩ := hkt
    exact List.mem_filter.mpr ⟨ht, by simp [hk]⟩
  obtain ⟨a, ha⟩ := List.mem_iff_getElem?.mp (hlive hi hki)
  obtain ⟨b, hb⟩ := List.mem_iff_getElem?.mp (hlive hj hkj)
  have hab : a = b := hcontents.index_unique (by simp [ha]) (by simp [hb]) hki hkj
  subst hab
  exact Option.some.inj (ha.symm.trans hb)

theorem findEntry_of_hasKey {m : RemovableMap K} {l : List Nat} (h : WF mem m l) {i : Nat}
    (hi : i ∈ l) {key : K} {ksize : Nat} (hkey : HasKey mem (m.entry i) key ksize) :
    findEntry mem m.toHashmap key ksize (hashData (mem key) ksize) = some i := by
  have hgood : WellHashed mem (m.entry i) :=
    h.contents.hashed _ (mem_live_of_hasKey (List.mem_map_of_mem hi) hkey)
  have hhash := hgood.hash_eq hkey
  rw [findEntry, ← hhash]
  refine h.slots.probe_mem hi ?_ ?_
  · obtain ⟨k, hk, -⟩ := id hkey
    rw [entryMatches_of_some hk, hhash]
    exact entryMatches_of_hasKey hgood hkey
  · intro j hj hji
    by_contra hmatch
    rcases unused_or_hasKey (by simpa using hmatch) with hunused | hkj
    · exact ((h.slots.mem_iff j).mp hj).2 hunused
    · exact hji (h.bucket_unique hj hi hkj hkey)

theorem findEntry_of_absent {m : RemovableMap K} {l : List Nat} (h : WF mem m l) {key : K}
    {ksize : Nat} (habs : ∀ e ∈ l.map m.entry, ¬ HasKey mem e key ksize) :
    ∃ e, findEntry mem m.toHashmap key ksize (hashData (mem key) ksize) = some e ∧
      e < m.capacity ∧ Unused (m.entry e) ∧
      Reaches (· ∈ l) m.capacity ((hashData (mem key) ksize).toNat % m.capacity) e := by
  obtain ⟨e, hprobe, he, hfree, hreach⟩ := h.slots.probe_free h.length_lt
    (fun i => entryMatches mem key ksize (hashData (mem key) ksize) (m.entry i))
    (fun i hi => by
      obtain ⟨hnone, hzero⟩ := not_not.mp hi
      rw [entryMatches_of_none hnone, hzero]
      rfl)
    (fun i hi => by
      by_contra hmatch
      rcases unused_or_hasKey (by simpa using hmatch) with hunused | hkey
      · exact ((h.slots.mem_iff i).mp hi).2 hunused
      · exact habs _ (List.mem_map_of_mem hi) hkey)
    (hashData (mem key) ksize).toNat
  exact ⟨e, hprobe, he, not_not.mp hfree, hreach⟩

/-! ## Writing a bucket -/

/-- A bucket of the list that stays in use or becomes a tombstone, with its hash. -/
theorem WF.setBucket {m : RemovableMap K} {a b : List Nat} {i : Nat} {e : Entry K Word} {n : Nat}
    (h : WF mem m (a ++ i :: b)) (hused : ¬ Unused e) (hhash : e.hash = (m.entry i).hash)
    (hgood : GoodContents mem (live (a.map m.entry ++ e :: b.map m.entry)))
    (hn : n + (live (a.map m.entry ++ e :: b.map m.entry)).length = (a ++ i :: b).length) :
    WF mem { m with toHashmap := m.setEntry i e, tombstoneCount := n } (a ++ i :: b) ∧
      (a ++ i :: b).map (m.setEntry i e).entry = a.map m.entry ++ e :: b.map m.entry := by
  have hnd := h.slots.nodup
  rw [List.nodup_append, List.nodup_cons] at hnd
  have hi : ¬ Unused (m.entry i) := ((h.slots.mem_iff i).mp (by simp)).2
  have hentry : ∀ j, (m.setEntry i e).entry j = if j = i then e else m.entry j := by
    intro j
    rw [Hashmap.entry_setEntry, Function.update_apply]
  have hother : ∀ c : List Nat, i ∉ c → c.map (m.setEntry i e).entry = c.map m.entry := by
    intro c hc
    refine List.map_congr_left fun j hj => ?_
    rw [hentry j, if_neg (fun hji : j = i => hc (hji ▸ hj))]
  have hmap : (a ++ i :: b).map (m.setEntry i e).entry = a.map m.entry ++ e :: b.map m.entry := by
    rw [List.map_append, List.map_cons, hother a (fun hia => hnd.2.2 i hia i (by simp) rfl),
      hother b hnd.2.1.1, hentry i, if_pos rfl]
  refine ⟨⟨h.slots.congr (fun j => ?_) (fun j _ => ?_), h.last, ?_, ?_, h.count, ?_, h.capacity,
    h.capacity_lt, h.load⟩, hmap⟩
  · rw [hentry j]
    split
    · rename_i hj
      rw [hj]
      exact ⟨fun _ => hi, fun _ => hused⟩
    · rfl
  · rw [hentry j]
    split
    · rename_i hj
      rw [hj, hhash]
    · rfl
  · rw [hmap]
    exact hgood
  · rw [Hashmap.next_setEntry]
    exact h.chain
  · rw [hmap]
    exact hn

/-- The unused bucket that was found is filled and linked behind the last one. -/
theorem WF.linkLast {m : RemovableMap K} {l : List Nat} (h : WF mem m l)
    (hload : 5 * (m.count + 1) ≤ 4 * m.capacity) {i : Nat} {e : Entry K Word}
    (hi : i < m.capacity) (hfree : Unused (m.entry i)) (hkey : e.key ≠ none)
    (hreach : Reaches (· ∈ l) m.capacity (e.hash.toNat % m.capacity) i)
    (hgood : GoodContents mem (live (l.map m.entry) ++ [e])) :
    WF mem { m with toHashmap := Map.linkLast m.toHashmap i e } (l ++ [i]) ∧
      (l ++ [i]).map (Map.linkLast m.toHashmap i e).entry = l.map m.entry ++ [e] := by
  have hil : i ∉ l := fun hmem => ((h.slots.mem_iff i).mp hmem).2 hfree
  have hent := entry_linkLast m.toHashmap i e
  have hcap : (Map.linkLast m.toHashmap i e).capacity = m.capacity :=
    Hashmap.capacity_setLastNext ..
  have hcount : (Map.linkLast m.toHashmap i e).count = m.count + 1 :=
    congrArg (· + 1) (Hashmap.count_setLastNext ..)
  have hentry : ∀ j, (Map.linkLast m.toHashmap i e).entry j = if j = i then e else m.entry j := by
    intro j
    rw [hent, Function.update_apply]
  have hmap : (l ++ [i]).map (Map.linkLast m.toHashmap i e).entry = l.map m.entry ++ [e] := by
    rw [List.map_append, List.map_singleton, hentry i, if_pos rfl]
    congr 1
    refine List.map_congr_left fun j hj => ?_
    rw [hentry j, if_neg (fun hji : j = i => hil (hji ▸ hj))]
  have hlive : live ((l ++ [i]).map (Map.linkLast m.toHashmap i e).entry) =
      live (l.map m.entry) ++ [e] := by
    obtain ⟨k, hk⟩ := Option.ne_none_iff_exists'.mp hkey
    rw [hmap, live_append, live_cons_of_some hk]
    rfl
  refine ⟨⟨?_, ?_, by rw [hlive]; exact hgood, ?_, ?_, ?_, ?_, ?_, ?_⟩, hmap⟩
  · show ProbeTable _ _ (Map.linkLast m.toHashmap i e).capacity _
    rw [hcap]
    refine h.slots.insert hi (not_not.mpr hfree) (fun j => ?_) (fun j hj => ?_) ?_
    · rw [hentry j]
      by_cases hj : j = i
      · rw [if_pos hj]
        exact ⟨fun _ => Or.inl hj, fun _ => not_unused_of_key hkey⟩
      · rw [if_neg hj, or_iff_right hj]
    · rw [hentry j, if_neg hj]
    · rw [hentry i, if_pos rfl]
      exact hreach
  · exact (List.getLast?_concat ..).symm
  · have hnext : (Map.linkLast m.toHashmap i e).next =
        setLink (m.toHashmap.setLastNext (some i)).next i none :=
      (Hashmap.next_setEntry _ i e).trans (Hashmap.next_setNext _ i none)
    obtain ⟨hch, -⟩ := chain_setLastNext h.last h.chain h.slots.nodup hil
    show Chain (Map.linkLast m.toHashmap i e).next _ _ none
    rw [hnext]
    refine hch.setLink_last (List.nodup_append.mpr ⟨h.slots.nodup, by simp, ?_⟩) (by simp)
    intro a ha b hb hab
    exact hil (by simp at hb; exact hb ▸ hab ▸ ha)
  · rw [List.length_append, List.length_singleton, ← h.count]
    exact hcount
  · rw [hlive, List.length_append, List.length_append, ← Nat.add_assoc]
    exact congrArg (· + 1) h.tombstones
  · obtain ⟨k, hk⟩ := h.capacity
    exact ⟨k, hcap.trans hk⟩
  · show (Map.linkLast m.toHashmap i e).capacity < intLimit
    rw [hcap]
    exact h.capacity_lt
  · show 5 * (Map.linkLast m.toHashmap i e).count ≤ 4 * (Map.linkLast m.toHashmap i e).capacity
    rw [hcap, hcount]
    exact hload

/-- The bucket of a key may get a new pointer to the same key and a new value. -/
theorem WF.replace {m : RemovableMap K} {a b : List Nat} {i : Nat} {e : Entry K Word}
    (h : WF mem m (a ++ i :: b)) (hsame : SameKey mem (m.entry i) e) :
    WF mem { m with toHashmap := m.setEntry i e } (a ++ i :: b) ∧
      (a ++ i :: b).map (m.setEntry i e).entry = a.map m.entry ++ e :: b.map m.entry := by
  obtain ⟨k, k', hk, hk', -⟩ := hsame.key
  have hgood := h.contents
  have htomb := h.tombstones
  rw [List.map_append, List.map_cons, live_append, live_cons_of_some hk] at hgood htomb
  have hlive : live (a.map m.entry ++ e :: b.map m.entry) =
      live (a.map m.entry) ++ e :: live (b.map m.entry) := by
    rw [live_append, live_cons_of_some hk']
  refine h.setBucket (not_unused_of_key (by simp [hk'])) hsame.hash ?_ ?_
  · rw [hlive]
    exact hgood.replace hsame
  · rw [hlive, ← htomb, List.length_append, List.length_append, List.length_cons, List.length_cons]

/-- The bucket of a key becomes a tombstone. -/
theorem WF.bury {m : RemovableMap K} {a b : List Nat} {i : Nat} {k : K}
    (h : WF mem m (a ++ i :: b)) (hk : m.key i = some k) :
    WF mem (bury m i) (a ++ i :: b) ∧
      live ((a ++ i :: b).map (Removable.bury m i).entry) =
        live (a.map m.entry) ++ live (b.map m.entry) := by
  let e : Entry K Word := { m.entry i with key := none, value := tombstoneValue }
  have hgood := h.contents
  have htomb := h.tombstones
  rw [List.map_append, List.map_cons, live_append, live_cons_of_some hk] at hgood htomb
  have hlive : live (a.map m.entry ++ e :: b.map m.entry) =
      live (a.map m.entry) ++ live (b.map m.entry) := by
    rw [live_append, live_cons_of_none (e := e) rfl]
  have hsub : (live (a.map m.entry) ++ live (b.map m.entry)).Sublist
      (live (a.map m.entry) ++ m.entry i :: live (b.map m.entry)) :=
    (List.Sublist.refl _).append (List.sublist_cons_self ..)
  have hused : ¬ Unused e := fun hu => (by decide : tombstoneValue ≠ 0) hu.2
  obtain ⟨hwf, hmap⟩ := @WF.setBucket K mem m a b i e (m.tombstoneCount + 1) h hused rfl
    (by rw [hlive]; exact ⟨fun x hx => hgood.hashed x (hsub.subset hx), hgood.distinct.sublist hsub⟩)
    (by
      rw [hlive, ← htomb, List.length_append, List.length_append, List.length_cons]
      omega)
  exact ⟨hwf, by rw [← hlive]; exact congrArg live hmap⟩

/-- `find_entry` in a map that represents a dictionary: the bucket of the key, which
    may be written or buried, or an unused one, which may be filled. -/
theorem Represents.find {m : RemovableMap K} {d : KeyDict K Word} (h : Represents mem m d)
    (key : K) (ksize : Nat) :
    ∃ i, findEntry mem m.toHashmap key ksize (hashData (mem key) ksize) = some i ∧
      ((∃ k, m.key i = some k ∧ (m.entry i).ksize = ksize ∧ (∀ t < ksize, mem k t = mem key t) ∧
          d.get? (keyBytes mem key ksize) = some (k, (m.entry i).value) ∧
          (∀ k' val, (∀ t < ksize, mem k' t = mem key t) →
            Represents mem
              { m with toHashmap := m.setEntry i { m.entry i with key := some k', value := val } }
              (d.upsert (fun _ => (k', val)) (keyBytes mem key ksize))) ∧
          Represents mem (bury m i) (d.erase (keyBytes mem key ksize))) ∨
        (m.key i = none ∧ (m.entry i).value = 0 ∧ d.get? (keyBytes mem key ksize) = none ∧
          d.erase (keyBytes mem key ksize) = d ∧
          ∀ val, 5 * (m.count + 1) ≤ 4 * m.capacity →
            Represents mem
              { m with
                toHashmap := Map.linkLast m.toHashmap i
                  { key := some key, ksize := ksize, hash := hashData (mem key) ksize,
                    value := val } }
              (d.upsert (fun _ => (key, val)) (keyBytes mem key ksize)))) := by
  obtain ⟨l, hwf, hpairs⟩ := h
  by_cases hex : ∃ e ∈ l.map m.entry, HasKey mem e key ksize
  · -- the key is there: split the list at its bucket
    obtain ⟨_, hmem, hkey⟩ := hex
    obtain ⟨i, hi, rfl⟩ := List.mem_map.mp hmem
    obtain ⟨a, b, rfl⟩ := List.append_of_mem hi
    obtain ⟨k, hk, hsize, hbytes⟩ := hkey
    have hkb : keyBytes mem k (m.entry i).ksize = keyBytes mem key ksize :=
      keyBytes_eq_iff.mpr ⟨hsize, fun t ht => hbytes t (hsize ▸ ht)⟩
    have hd : d.pairs = pairs mem (a.map m.entry) ++
        (keyBytes mem key ksize, k, (m.entry i).value) :: pairs mem (b.map m.entry) := by
      rw [← hpairs, List.map_append, List.map_cons, pairs_append, pairs_cons_of_key hk, hkb]
    have hnd := d.nodup
    rw [hd, List.map_append, List.map_cons, List.nodup_append, List.nodup_cons] at hnd
    have hfresh : keyBytes mem key ksize ∉ (pairs mem (a.map m.entry)).map Prod.fst :=
      fun hin => hnd.2.2 _ hin _ (by simp) rfl
    refine ⟨i, findEntry_of_hasKey hwf hi ⟨k, hk, hsize, hbytes⟩,
      Or.inl ⟨k, hk, hsize, hbytes, ?_, ?_, ?_⟩⟩
    · rw [Dict.get?, hd, getPairs_of_split hfresh]
    · intro k' val hk'
      have hsame : SameKey mem (m.entry i) { m.entry i with key := some k', value := val } :=
        ⟨rfl, rfl, k, k', hk, rfl, fun t ht =>
          (hk' t (hsize ▸ ht)).trans (hbytes t (hsize ▸ ht)).symm⟩
      obtain ⟨hwf', hmap⟩ := hwf.replace hsame
      refine ⟨_, hwf', ?_⟩
      rw [hmap, pairs_append, pairs_cons_of_key (k := k') rfl]
      show _ = upsertPairs _ _ d.pairs
      rw [hd, upsertPairs_of_split _ hfresh]
      congr 3
      exact keyBytes_eq_iff.mpr ⟨hsize, fun t ht => hk' t (hsize ▸ ht)⟩
    · obtain ⟨hwf', hlive⟩ := hwf.bury hk
      refine ⟨_, hwf', ?_⟩
      show _ = erasePairs _ d.pairs
      rw [← pairs_live, hlive, pairs_append, pairs_live, pairs_live, hd,
        erasePairs_of_split hfresh hnd.2.1.1]
  · -- the key is not there: an unused bucket is found
    have habs : ∀ e ∈ l.map m.entry, ¬ HasKey mem e key ksize := fun e he hk => hex ⟨e, he, hk⟩
    obtain ⟨i, hfind, hi, hfree, hreach⟩ := findEntry_of_absent hwf habs
    have hfresh : keyBytes mem key ksize ∉ d.pairs.map Prod.fst := by
      rw [← hpairs, keyBytes_mem_pairs_iff]
      exact hex
    refine ⟨i, hfind, Or.inr ⟨hfree.1, hfree.2, getPairs_of_notMem hfresh, ?_, ?_⟩⟩
    · exact Dict.erase_of_notMem hfresh
    · intro val hload
      have hgood := hwf.contents.concat key ksize val
        fun e he => habs e (List.mem_of_mem_filter he)
      obtain ⟨hwf', hmap⟩ := hwf.linkLast hload hi hfree (Option.some_ne_none key) hreach hgood
      refine ⟨_, hwf', ?_⟩
      rw [hmap, pairs_append, hpairs]
      show _ = upsertPairs _ _ d.pairs
      rw [upsertPairs_of_notMem _ hfresh]
      rfl

/-! ## One call -/

section OneCall

variable {m : RemovableMap K} {d : KeyDict K Word}

theorem count_linkLast (m : Hashmap K Word) (i : Nat) (e : Entry K Word) :
    (Map.linkLast m i e).count = m.count + 1 :=
  congrArg (· + 1) (Hashmap.count_setLastNext ..)

theorem Represents.set (h : Represents mem m d) (hcount : m.count < 2 ^ 29) (key : K)
    (ksize : Nat) (val : Word) :
    ∃ m', hashmapSet mem m key ksize val = some m' ∧ m'.count ≤ m.count + 1 ∧
      Represents mem m' (d.upsert (keepKey key val) (keyBytes mem key ksize)) := by
  obtain ⟨m₁, hres, h₁, hload, hle⟩ := h.resizeIfFull hcount
  obtain ⟨i, hfind, ⟨k, hk, -, hbytes, hget, hnext, -⟩ | ⟨hnone, -, hget, -, hnext⟩⟩ :=
    h₁.find key ksize
  · -- the old key pointer stays
    have hnew := hnext k val hbytes
    have hentry : ({ m₁.entry i with key := some k, value := val } : Entry K Word) =
        { m₁.entry i with value := val } := by
      rw [← hk]
      rfl
    rw [hentry, Dict.upsert_congr (g := keepKey key val) (by rw [hget]; rfl)] at hnew
    refine ⟨_, ?_, ?_, hnew⟩
    · simp [hashmapSet, hres, hfind, hk]
    · show m₁.count ≤ m.count + 1
      omega
  · have hnew := hnext val hload
    rw [Dict.upsert_congr (g := keepKey key val) (by rw [hget]; rfl)] at hnew
    refine ⟨_, ?_, ?_, hnew⟩
    · simp [hashmapSet, hres, hfind, hnone]
    · show (Map.linkLast m₁.toHashmap i _).count ≤ m.count + 1
      rw [count_linkLast]
      omega

theorem Represents.getSet (h : Represents mem m d) (hcount : m.count < 2 ^ 29) (key : K)
    (ksize : Nat) (outIn : Word) :
    ∃ m', (hashmapGetSet mem m key ksize outIn).map (fun a => (a.1, .found a.2.1 a.2.2)) =
        some (m', (dictCall mem d (Call.getSet key ksize outIn : Call K Word U)).2) ∧
      m'.count ≤ m.count + 1 ∧
      Represents mem m' (dictCall mem d (Call.getSet key ksize outIn : Call K Word U)).1 := by
  obtain ⟨m₁, hres, h₁, hload, hle⟩ := h.resizeIfFull hcount
  obtain ⟨i, hfind, ⟨k, hk, -, -, hget, -, -⟩ | ⟨hnone, -, hget, -, hnext⟩⟩ := h₁.find key ksize
  · refine ⟨m₁, ?_, by omega, by simpa [dictCall, hget] using h₁⟩
    simp [hashmapGetSet, hres, hfind, hk, dictCall, hget]
  · have hnew := hnext outIn hload
    refine ⟨_, ?_, ?_, by simpa [dictCall, hget] using hnew⟩
    · simp [hashmapGetSet, hres, hfind, hnone, dictCall, hget]
    · show (Map.linkLast m₁.toHashmap i _).count ≤ m.count + 1
      rw [count_linkLast]
      omega

theorem Represents.setFree (h : Represents mem m d) (hcount : m.count < 2 ^ 29) (key : K)
    (ksize : Nat) (val : Word) (c : Callback K Word U) (usr : U) :
    ∃ m', (hashmapSetFree mem m key ksize val c usr).map (fun a => (a.1, .usr a.2)) =
        some (m', (dictCall mem d (.setFree key ksize val c usr)).2) ∧
      m'.count ≤ m.count + 1 ∧
      Represents mem m' (dictCall mem d (.setFree key ksize val c usr)).1 := by
  obtain ⟨m₁, hres, h₁, hload, hle⟩ := h.resizeIfFull hcount
  obtain ⟨i, hfind, ⟨k, hk, -, -, hget, hnext, -⟩ | ⟨hnone, -, hget, -, hnext⟩⟩ :=
    h₁.find key ksize
  · refine ⟨_, ?_, ?_, hnext key val fun _ _ => rfl⟩
    · simp [hashmapSetFree, hres, hfind, hk, dictCall, hget]
    · show m₁.count ≤ m.count + 1
      omega
  · refine ⟨_, ?_, ?_, hnext val hload⟩
    · simp [hashmapSetFree, hres, hfind, hnone, dictCall, hget]
    · show (Map.linkLast m₁.toHashmap i _).count ≤ m.count + 1
      rw [count_linkLast]
      omega

theorem Represents.get (h : Represents mem m d) (key : K) (ksize : Nat) :
    (hashmapGet mem m key ksize).map (fun a => (m, .found a.1 a.2)) =
      some (m, (dictCall mem d (Call.get key ksize : Call K Word U)).2) := by
  obtain ⟨i, hfind, ⟨k, hk, -, -, hget, -⟩ | ⟨hnone, hzero, hget, -⟩⟩ := h.find key ksize
  · simp [hashmapGet, hfind, hk, dictCall, hget]
  · simp only [hashmapGet, hfind, Option.bind_eq_bind, Option.bind_some, hnone, hzero, dictCall,
      hget]
    rfl

theorem Represents.remove (h : Represents mem m d) (key : K) (ksize : Nat) :
    ∃ m', hashmapRemove mem m key ksize = some m' ∧ m'.count = m.count ∧
      Represents mem m' (d.erase (keyBytes mem key ksize)) := by
  obtain ⟨i, hfind, ⟨k, hk, -, -, -, -, hbury⟩ | ⟨hnone, -, -, herase, -⟩⟩ := h.find key ksize
  · exact ⟨bury m i, by simp [hashmapRemove, hfind, hk], rfl, hbury⟩
  · exact ⟨m, by simp [hashmapRemove, hfind, hnone], rfl, by rw [herase]; exact h⟩

theorem Represents.removeFree (h : Represents mem m d) (key : K) (ksize : Nat)
    (c : Callback K Word U) (usr : U) :
    ∃ m', (hashmapRemoveFree mem m key ksize c usr).map (fun a => (a.1, .usr a.2)) =
        some (m', (eraseCall mem d (.removeFree key ksize c usr)).2) ∧ m'.count = m.count ∧
      Represents mem m' (d.erase (keyBytes mem key ksize)) := by
  obtain ⟨i, hfind, ⟨k, hk, hsize, -, hget, -, hbury⟩ | ⟨hnone, -, hget, herase, -⟩⟩ :=
    h.find key ksize
  · have hentry : (m.entry i).key = some k := hk
    refine ⟨bury m i, ?_, rfl, hbury⟩
    simp [hashmapRemoveFree, hfind, hk, hentry, hsize, eraseCall, hget]
  · refine ⟨m, ?_, rfl, by rw [herase]; exact h⟩
    simp [hashmapRemoveFree, hfind, hnone, eraseCall, hget]

/-- The loop of `hashmap_iterate` visits what is live on the list. -/
theorem iterateLoop_eq (mem : K → Nat → Byte) (c : Callback K Word U) {m : Hashmap K Word} :
    ∀ (l : List Nat) (fuel : Nat) (p : Option Nat) (usr : U), l.length ≤ fuel →
      Chain m.next p l none →
      iterateLoop c m fuel p usr =
        some ((pairs mem (l.map m.entry)).foldl
          (fun usr e => c (some e.2.1) e.1.length e.2.2 usr) usr) := by
  intro l
  induction l with
  | nil =>
      intro fuel p usr _ hch
      have hp : p = none := hch
      subst hp
      cases fuel <;> rfl
  | cons i l ih =>
      intro fuel p usr hfuel hch
      cases fuel with
      | zero => simp at hfuel
      | succ fuel =>
          rw [hch.1, iterateLoop, ih fuel (m.next i) _ (by simpa using hfuel) hch.2, List.map_cons]
          rcases hk : (m.entry i).key with - | k
          · rw [pairs, pairs, List.filterMap_cons_none (by rw [pairOf, hk]; rfl)]
            rfl
          · rw [pairs_cons_of_key hk, List.foldl_cons, length_keyBytes]
            rfl

theorem Represents.iterate (h : Represents mem m d) (c : Callback K Word U) (usr : U) :
    (hashmapIterate m c usr).map (fun usr => (m, Answer.usr usr)) =
      some (m, (dictCall mem d (.iterate c usr)).2) := by
  obtain ⟨l, hwf, hpairs⟩ := h
  rw [hashmapIterate, iterateLoop_eq mem c l m.count m.first usr hwf.count.ge hwf.chain, hpairs]
  rfl

theorem Represents.size (h : Represents mem m d) : hashmapSize m = d.size := by
  obtain ⟨l, hwf, hpairs⟩ := h
  have htomb := hwf.tombstones
  have hlen : (pairs mem (live (l.map m.entry))).length = (live (l.map m.entry)).length := by
    rw [pairs, List.length_filterMap_eq_countP, List.countP_eq_length]
    intro e he
    obtain ⟨k, hk, -⟩ := hwf.contents.hashed e he
    rw [pairOf_of_key hk, Option.isSome_some]
  rw [pairs_live, hpairs] at hlen
  rw [hashmapSize, hwf.count, Dict.size, hlen]
  omega

/-- Every call answers as the dictionary does, and only an adding one lengthens the list. -/
theorem Represents.call (h : Represents mem m d) (hcount : m.count < 2 ^ 29)
    (op : RemovableCall K U) :
    ∃ m', hashmapCall mem m op = some (m', (eraseCall mem d op).2) ∧
      m'.count ≤ m.count + op.adds.toNat ∧ Represents mem m' (eraseCall mem d op).1 := by
  cases op with
  | remove key ksize =>
      obtain ⟨m', hrem, hle, h'⟩ := h.remove key ksize
      exact ⟨m', by rw [hashmapCall, hrem]; rfl, hle.le, h'⟩
  | removeFree key ksize c usr =>
      obtain ⟨m', hrem, hle, h'⟩ := h.removeFree key ksize c usr
      exact ⟨m', hrem, hle.le, h'⟩
  | call op =>
      cases op with
      | set key ksize val =>
          obtain ⟨m', hset, hle, h'⟩ := h.set hcount key ksize val
          exact ⟨m', by rw [hashmapCall, hset]; rfl, hle, h'⟩
      | getSet key ksize outIn => exact h.getSet hcount key ksize outIn
      | setFree key ksize val c usr => exact h.setFree hcount key ksize val c usr
      | get key ksize => exact ⟨m, h.get key ksize, Nat.le_refl _, h⟩
      | size => exact ⟨m, by rw [hashmapCall, h.size]; rfl, Nat.le_refl _, h⟩
      | iterate c usr => exact ⟨m, h.iterate c usr, Nat.le_refl _, h⟩

end OneCall

/-! ## Whole runs -/

theorem represents_create : Represents mem (hashmapCreate : RemovableMap K) Dict.empty := by
  have hwf : Map.WF mem (Map.hashmapCreate : Hashmap K Word) [] := hashmapCreate_wf
  exact ⟨[], wf_of_table hwf.toTable (fun _ _ => rfl) hwf.chain hwf.count hwf.capacity
    hwf.capacity_lt hwf.load, rfl⟩

/-- A new map answers any sequence of calls as a dictionary does from which keys
    can be erased; tombstones are never seen. -/
theorem hashmapCall_erases (mem : K → Nat → Byte) (calls : List (RemovableCall K U))
    (hadds : calls.countP RemovableCall.adds < 2 ^ 29) :
    ∃ m, run (hashmapCall mem) hashmapCreate calls =
        some (m, (answers (eraseCall mem) Dict.empty calls).2) ∧
      Represents mem m (answers (eraseCall mem) Dict.empty calls).1 := by
  obtain ⟨m, hrun, hrep, -⟩ := @run_refines _ _ _ _ (hashmapCall mem) (eraseCall mem)
    (fun m d ops => Represents mem m d ∧ m.count + ops.countP RemovableCall.adds ≤ 2 ^ 29 - 1)
    (fun m d op ops h => by
      obtain ⟨hrep, hroom⟩ := h
      rw [List.countP_cons] at hroom
      obtain ⟨m', hcall, hle, hrep'⟩ := hrep.call (by omega) op
      refine ⟨m', hcall, hrep', ?_⟩
      cases hop : op.adds
      · rw [hop] at hle hroom
        simp at hle hroom
        omega
      · rw [hop] at hle hroom
        simp at hle hroom
        omega)
    calls hashmapCreate Dict.empty ⟨represents_create, show 0 + _ ≤ _ by omega⟩
  exact ⟨m, hrun, hrep⟩

theorem hashmapCall_erases_addedAgain :
    ∃ m, run (hashmapCall fun (k : Bool) _ => if k then 1 else 0) hashmapCreate
        [.call (.set false 1 5), .call (.set true 1 6),
          .removeFree false 1 (fun _ _ old freed => freed ++ [old]) ([] : List Word),
          .call (.get false 1), .call (.set false 1 7), .remove true 2,
          .call (.iterate (fun _ _ val vals => vals ++ [val]) []), .call .size] =
      some (m, [.done, .done, .usr [5], .found false 0, .done, .done, .usr [6, 7], .size 2]) := by
  obtain ⟨m, hrun, -⟩ := hashmapCall_erases (fun (k : Bool) _ => if k then 1 else 0)
    [.call (.set false 1 5), .call (.set true 1 6),
      .removeFree false 1 (fun _ _ old freed => freed ++ [old]) ([] : List Word),
      .call (.get false 1), .call (.set false 1 7), .remove true 2,
      .call (.iterate (fun _ _ val vals => vals ++ [val]) []), .call .size] (by decide)
  exact ⟨m, hrun⟩

end GogetaTools.Map.Removable
