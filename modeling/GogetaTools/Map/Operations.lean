/-
  GogetaTools.Map.Operations

  The hash map as its callers see it: a dictionary that keeps the order in which
  keys were first added.

  A key of the dictionary is the bytes of a key of the map; what it has for them
  is the key pointer that the map stores and the value.  `hashmapCall_refines`
  runs any sequence of calls, `hashmap_get_set`, `hashmap_set_free` and
  `hashmap_iterate` included, and every answer is the dictionary's.  The calls
  differ in the key pointer that an entry keeps: `hashmap_set` leaves the old
  one, `hashmap_set_free` stores the new one.
-/

import GogetaTools.Map.Table
import GogetaTools.Lib.Dict
import GogetaTools.Lib.Simulation

namespace GogetaTools.Map

open LinearProbe LinkedChain PyDict Simulation

variable {K V U : Type}

/-! ## The other operations of `map.c` -/

/-- `hashmap_callback`: it receives raw key pointers. -/
abbrev Callback (K V U : Type) := Option K → Nat → V → U → U

section Operations

variable (mem : K → Nat → Byte) [Inhabited V]

/-- The flag it returns, and what it leaves in `*out_in`. -/
def hashmapGetSet (m : Hashmap K V) (key : K) (ksize : Nat) (outIn : V) :
    Option (Hashmap K V × Bool × V) := do
  let m ← resizeIfFull m
  let hash := hashData (mem key) ksize
  let entry ← findEntry mem m key ksize hash
  if (m.key entry).isNone then
    let m := linkLast m entry { key := some key, ksize := ksize, hash := hash, value := outIn }
    some (m, false, outIn)
  else
    some (m, true, (m.entry entry).value)

/-- `usr` is what the callback makes of the user's data. -/
def hashmapSetFree (m : Hashmap K V) (key : K) (ksize : Nat) (val : V) (c : Callback K V U)
    (usr : U) : Option (Hashmap K V × U) := do
  let m ← resizeIfFull m
  let hash := hashData (mem key) ksize
  let entry ← findEntry mem m key ksize hash
  if (m.key entry).isNone then
    let m := linkLast m entry { key := some key, ksize := ksize, hash := hash, value := val }
    some (m, usr)
  else
    let usr := c (m.key entry) ksize (m.entry entry).value usr
    some (m.setEntry entry { m.entry entry with key := some key, value := val }, usr)

end Operations

def hashmapSize (m : Hashmap K V) : Nat := m.count

/-- The loop of `hashmap_iterate`. -/
def iterateLoop (c : Callback K V U) (m : Hashmap K V) : Nat → Option Nat → U → Option U
  | _, none, usr => some usr
  | 0, some _, _ => none
  | fuel + 1, some current, usr =>
      let e := m.entry current
      iterateLoop c m fuel (m.next current) (c e.key e.ksize e.value usr)

def hashmapIterate (m : Hashmap K V) (c : Callback K V U) (usr : U) : Option U :=
  iterateLoop c m m.count m.first usr

/-! ## Calls -/

/-- A call that a program makes on its map. -/
inductive Call (K V U : Type)
  | set (key : K) (ksize : Nat) (val : V)
  | getSet (key : K) (ksize : Nat) (outIn : V)
  | setFree (key : K) (ksize : Nat) (val : V) (c : Callback K V U) (usr : U)
  | get (key : K) (ksize : Nat)
  | size
  | iterate (c : Callback K V U) (usr : U)

/-- What the call returns or leaves behind. -/
inductive Answer (V U : Type)
  | done
  | found (flag : Bool) (val : V)
  | usr (usr : U)
  | size (n : Nat)
deriving DecidableEq

section Calls

variable (mem : K → Nat → Byte) [Inhabited V]

def hashmapCall (m : Hashmap K V) : Call K V U → Option (Hashmap K V × Answer V U)
  | .set key ksize val => (hashmapSet mem m key ksize val).map fun m => (m, .done)
  | .getSet key ksize outIn =>
      (hashmapGetSet mem m key ksize outIn).map fun a => (a.1, .found a.2.1 a.2.2)
  | .setFree key ksize val c usr =>
      (hashmapSetFree mem m key ksize val c usr).map fun a => (a.1, .usr a.2)
  | .get key ksize => (hashmapGet mem m key ksize).map fun a => (m, .found a.1 a.2)
  | .size => some (m, .size (hashmapSize m))
  | .iterate c usr => (hashmapIterate m c usr).map fun usr => (m, .usr usr)

/-- The bytes of a key. -/
def keyBytes (key : K) (ksize : Nat) : List Byte := (List.range ksize).map (mem key)

/-- The dictionary that the map stands for. -/
abbrev KeyDict (K V : Type) := Dict (List Byte) (K × V)

/-- What `hashmap_set` stores for a key: the key pointer that is there stays. -/
def keepKey (key : K) (val : V) : Option (K × V) → K × V
  | none => (key, val)
  | some (k, _) => (k, val)

/-- What the call is for. -/
def dictCall (d : KeyDict K V) : Call K V U → KeyDict K V × Answer V U
  | .set key ksize val =>
      (d.upsert (keepKey key val) (keyBytes mem key ksize), .done)
  | .getSet key ksize outIn =>
      match d.get? (keyBytes mem key ksize) with
      | none => (d.upsert (fun _ => (key, outIn)) (keyBytes mem key ksize), .found false outIn)
      | some (_, val) => (d, .found true val)
  | .setFree key ksize val c usr =>
      (d.upsert (fun _ => (key, val)) (keyBytes mem key ksize),
        .usr (match d.get? (keyBytes mem key ksize) with
          | none => usr
          | some (k, old) => c (some k) ksize old usr))
  | .get key ksize =>
      (d, match d.get? (keyBytes mem key ksize) with
        | none => .found false default
        | some (_, val) => .found true val)
  | .size => (d, .size d.size)
  | .iterate c usr =>
      (d, .usr (d.pairs.foldl (fun usr e => c (some e.2.1) e.1.length e.2.2 usr) usr))

end Calls

/-! ## Entries as pairs of a dictionary -/

section Pairs

variable (mem : K → Nat → Byte)

def pairOf (e : Entry K V) : Option (List Byte × K × V) :=
  e.key.map fun k => (keyBytes mem k e.ksize, k, e.value)

/-- The pairs of the entries in use. -/
def pairs (es : List (Entry K V)) : List (List Byte × K × V) := es.filterMap (pairOf mem)

/-- A bucket that is not in use has the value `calloc` left. -/
def Clean [Inhabited V] (entry : Nat → Entry K V) : Prop :=
  ∀ i, (entry i).key = none → (entry i).value = default

/-- The map is well formed and its entries, in list order, are those of the dictionary. -/
def Represents [Inhabited V] (m : Hashmap K V) (d : KeyDict K V) : Prop :=
  ∃ l, WF mem m l ∧ Clean m.entry ∧ pairs mem (l.map m.entry) = d.pairs

variable {mem}

@[simp] theorem length_keyBytes (key : K) (ksize : Nat) :
    (keyBytes mem key ksize).length = ksize := by
  simp [keyBytes]

theorem keyBytes_eq_iff {a b : K} {n n' : Nat} :
    keyBytes mem a n = keyBytes mem b n' ↔ n = n' ∧ ∀ i < n, mem a i = mem b i := by
  constructor
  · intro h
    have hn : n = n' := by simpa using congrArg List.length h
    subst hn
    simpa [keyBytes] using h
  · rintro ⟨rfl, h⟩
    simpa [keyBytes] using h

theorem pairOf_of_key {e : Entry K V} {k : K} (h : e.key = some k) :
    pairOf mem e = some (keyBytes mem k e.ksize, k, e.value) := by
  rw [pairOf, h, Option.map_some]

theorem hasKey_iff_pairOf {e : Entry K V} {key : K} {ksize : Nat} :
    HasKey mem e key ksize ↔
      ∃ k, e.key = some k ∧ keyBytes mem k e.ksize = keyBytes mem key ksize := by
  simp only [HasKey, keyBytes_eq_iff]
  constructor
  · rintro ⟨k, hk, rfl, hb⟩
    exact ⟨k, hk, rfl, hb⟩
  · rintro ⟨k, hk, rfl, hb⟩
    exact ⟨k, hk, rfl, hb⟩

theorem pairs_append (es es' : List (Entry K V)) :
    pairs mem (es ++ es') = pairs mem es ++ pairs mem es' :=
  List.filterMap_append

theorem pairs_cons_of_key {e : Entry K V} {k : K} (h : e.key = some k) (es : List (Entry K V)) :
    pairs mem (e :: es) = (keyBytes mem k e.ksize, k, e.value) :: pairs mem es :=
  List.filterMap_cons_some (pairOf_of_key h)

theorem keyBytes_mem_pairs_iff {es : List (Entry K V)} {key : K} {ksize : Nat} :
    keyBytes mem key ksize ∈ (pairs mem es).map Prod.fst ↔ ∃ e ∈ es, HasKey mem e key ksize := by
  simp only [pairs, List.mem_map, List.mem_filterMap, hasKey_iff_pairOf]
  constructor
  · rintro ⟨p, ⟨e, he, hp⟩, hkey⟩
    obtain ⟨k, hk, rfl⟩ := Option.map_eq_some_iff.mp hp
    exact ⟨e, he, k, hk, hkey⟩
  · rintro ⟨e, he, k, hk, hkey⟩
    exact ⟨_, ⟨e, he, pairOf_of_key hk⟩, hkey⟩

end Pairs

/-! ## One call -/

section OneCall

variable {mem : K → Nat → Byte} [Inhabited V]

omit [Inhabited V] in
theorem entry_linkLast (m : Hashmap K V) (i : Nat) (e : Entry K V) :
    (linkLast m i e).entry = Function.update m.entry i e := by
  rw [linkLast, Hashmap.entry_setEntry]
  congr 1
  exact (Hashmap.entry_setNext ..).trans (Hashmap.entry_setLastNext ..)

theorem Clean.update {entry : Nat → Entry K V} (h : Clean entry) (i : Nat) {e : Entry K V}
    (he : e.key = none → e.value = default) : Clean (Function.update entry i e) := by
  intro j hj
  by_cases hji : j = i
  · subst hji
    rw [Function.update_self] at hj ⊢
    exact he hj
  · rw [Function.update_of_ne hji] at hj ⊢
    exact h j hj

omit [Inhabited V] in
theorem entry_of_resizeEntry {m m' : Hashmap K V} {old : Bucket K V} {e : Nat}
    (h : resizeEntry m old = some (m', e)) : m'.entry = Function.update m.entry e old.toEntry := by
  simp only [resizeEntry, Option.bind_eq_bind, Option.bind_eq_some_iff, Option.some.injEq,
    Prod.mk.injEq] at h
  obtain ⟨e', -, rfl, rfl⟩ := h
  funext j
  by_cases hj : j = e' <;> simp [Hashmap.entry, hj]

/-- `hashmap_resize` copies buckets of the old map into buckets of zeros. -/
theorem resizeLoop_clean {oldBuckets : Nat → Bucket K V}
    (hold : Clean fun i => (oldBuckets i).toEntry) :
    ∀ (fuel : Nat) (m m' : Hashmap K V), Clean m.entry →
      resizeLoop oldBuckets fuel m = some m' → Clean m'.entry := by
  intro fuel
  induction fuel with
  | zero => intro m m' _ h; cases h
  | succ fuel ih =>
      intro m m' hm h
      simp only [resizeLoop, Option.bind_eq_bind, Option.bind_eq_some_iff] at h
      obtain ⟨old, -, ⟨m₁, e⟩, hentry, hrest⟩ := h
      -- the loop body leaves the old bucket in place of an empty one
      have hbody : Clean (m₁.setLastNext (some e)).entry := by
        rw [Hashmap.entry_setLastNext, entry_of_resizeEntry hentry]
        exact hm.update e (hold old)
      split at hrest
      · rw [← Option.some.inj hrest]
        exact hbody
      · refine ih _ m' ?_ hrest
        exact hbody

theorem resizeIfFull_clean {m m' : Hashmap K V} (h : Clean m.entry)
    (hres : resizeIfFull m = some m') : Clean m'.entry := by
  rw [resizeIfFull] at hres
  split at hres
  · rw [hashmapResize] at hres
    split at hres
    · exact resizeLoop_clean h _ _ _ (fun i _ => rfl) hres
    · cases hres
  · rw [← Option.some.inj hres]
    exact h

omit [Inhabited V] in
theorem WF.length_pairs {m : Hashmap K V} {l : List Nat} (h : WF mem m l) :
    (pairs mem (l.map m.entry)).length = l.length := by
  rw [pairs, List.length_filterMap_eq_countP, List.countP_eq_length.mpr, List.length_map]
  intro e he
  obtain ⟨k, hk, -⟩ := h.contents.hashed e he
  rw [pairOf_of_key hk, Option.isSome_some]

/-- The load test leaves the dictionary alone and makes room for one more entry. -/
theorem Represents.resizeIfFull {m : Hashmap K V} {d : KeyDict K V} (h : Represents mem m d)
    (hsize : d.size < 2 ^ 29) :
    ∃ m', Map.resizeIfFull m = some m' ∧ Represents mem m' d ∧ 5 * (m'.count + 1) ≤ 4 * m'.capacity := by
  obtain ⟨l, hwf, hclean, hpairs⟩ := h
  have hcount : m.count < 2 ^ 29 := by
    rw [hwf.count, ← hwf.length_pairs, hpairs]
    exact hsize
  obtain ⟨m', l', hres, hwf', hmap, hload⟩ := resizeIfFull_spec hwf (hwf.room hcount)
  exact ⟨m', hres, ⟨l', hwf', resizeIfFull_clean hclean hres, by rw [hmap, hpairs]⟩, hload⟩

/-- `find_entry` in a map that represents a dictionary: the bucket of the key, which
    may get a new pointer to the same key and a new value, or an empty one, which
    may be filled. -/
theorem Represents.find {m : Hashmap K V} {d : KeyDict K V} (h : Represents mem m d) (key : K)
    (ksize : Nat) :
    ∃ i, findEntry mem m key ksize (hashData (mem key) ksize) = some i ∧
      ((∃ k, m.key i = some k ∧ (∀ t < ksize, mem k t = mem key t) ∧
          d.get? (keyBytes mem key ksize) = some (k, (m.entry i).value) ∧
          ∀ k' val, (∀ t < ksize, mem k' t = mem key t) →
            Represents mem (m.setEntry i { m.entry i with key := some k', value := val })
              (d.upsert (fun _ => (k', val)) (keyBytes mem key ksize))) ∨
        (m.key i = none ∧ (m.entry i).value = default ∧
          d.get? (keyBytes mem key ksize) = none ∧
          ∀ val, 5 * (m.count + 1) ≤ 4 * m.capacity →
            Represents mem
              (linkLast m i
                { key := some key, ksize := ksize, hash := hashData (mem key) ksize, value := val })
              (d.upsert (fun _ => (key, val)) (keyBytes mem key ksize)))) := by
  obtain ⟨l, hwf, hclean, hpairs⟩ := h
  by_cases hex : ∃ e ∈ l.map m.entry, HasKey mem e key ksize
  · -- the key is there: split the list at its bucket
    obtain ⟨_, hmem, hkey⟩ := hex
    obtain ⟨i, hi, rfl⟩ := List.mem_map.mp hmem
    obtain ⟨a, b, rfl⟩ := List.append_of_mem hi
    obtain ⟨k, hk, hsize, hbytes⟩ := hkey
    have hkb : keyBytes mem k (m.entry i).ksize = keyBytes mem key ksize :=
      keyBytes_eq_iff.mpr ⟨hsize, fun t ht => hbytes t (hsize ▸ ht)⟩
    have hd : d.pairs = pairs mem (a.map m.entry) ++
        (keyBytes mem key ksize, k, (m.entry i).value) :: pairs mem (b.map m.entry) := by
      rw [← hpairs, List.map_append, List.map_cons, pairs_append, pairs_cons_of_key hk, hkb]
    have hfresh : keyBytes mem key ksize ∉ (pairs mem (a.map m.entry)).map Prod.fst := by
      have hnd := d.nodup
      rw [hd, List.map_append, List.nodup_append] at hnd
      exact fun hin => hnd.2.2 _ hin _ (by simp) rfl
    refine ⟨i, findEntry_of_hasKey hwf.toTable hi ⟨k, hk, hsize, hbytes⟩,
      Or.inl ⟨k, hk, hbytes, ?_, ?_⟩⟩
    · rw [Dict.get?, hd, getPairs_of_split hfresh]
    · intro k' val hk'
      have hsame : SameKey mem (m.entry i) { m.entry i with key := some k', value := val } :=
        ⟨rfl, rfl, k, k', hk, rfl, fun t ht =>
          (hk' t (hsize ▸ ht)).trans (hbytes t (hsize ▸ ht)).symm⟩
      obtain ⟨hwf', hmap⟩ := hwf.replace hsame
      refine ⟨_, hwf', ?_, ?_⟩
      · rw [Hashmap.entry_setEntry]
        exact hclean.update i (fun hnone => by cases hnone)
      · rw [hmap, pairs_append, pairs_cons_of_key (k := k') rfl]
        show _ = upsertPairs _ _ d.pairs
        rw [hd, upsertPairs_of_split _ hfresh]
        congr 3
        exact keyBytes_eq_iff.mpr ⟨hsize, fun t ht => hk' t (hsize ▸ ht)⟩
  · -- the key is not there: an empty bucket is found
    have habs : ∀ e ∈ l.map m.entry, ¬ HasKey mem e key ksize := fun e he hk => hex ⟨e, he, hk⟩
    obtain ⟨i, hfind, hi, hnone, hreach⟩ := findEntry_of_absent hwf.toTable hwf.length_lt habs
    have hfresh : keyBytes mem key ksize ∉ d.pairs.map Prod.fst := by
      rw [← hpairs, keyBytes_mem_pairs_iff]
      exact hex
    refine ⟨i, hfind, Or.inr ⟨hnone, hclean i hnone, getPairs_of_notMem hfresh, ?_⟩⟩
    intro val hload
    obtain ⟨hwf', hmap⟩ :=
      hwf.linkLast hload hi hnone hreach (hwf.contents.concat key ksize val habs)
    refine ⟨_, hwf', ?_, ?_⟩
    · rw [entry_linkLast]
      exact hclean.update i (fun hnone => by cases hnone)
    · rw [hmap, pairs_append, hpairs]
      show _ = upsertPairs _ _ d.pairs
      rw [upsertPairs_of_notMem _ hfresh]
      rfl

variable {m : Hashmap K V} {d : KeyDict K V}

theorem Represents.set (h : Represents mem m d) (hsize : d.size < 2 ^ 29) (key : K) (ksize : Nat)
    (val : V) :
    ∃ m', hashmapSet mem m key ksize val = some m' ∧
      Represents mem m' (d.upsert (keepKey key val) (keyBytes mem key ksize)) := by
  obtain ⟨m₁, hres, h₁, hload⟩ := h.resizeIfFull hsize
  obtain ⟨i, hfind, ⟨k, hk, hbytes, hget, hnext⟩ | ⟨hnone, -, hget, hnext⟩⟩ := h₁.find key ksize
  · -- the old key pointer stays
    refine ⟨m₁.setEntry i { m₁.entry i with value := val }, ?_, ?_⟩
    · simp [hashmapSet, hres, hfind, hk]
    · have hnew := hnext k val hbytes
      have hentry : ({ m₁.entry i with key := some k, value := val } : Entry K V) =
          { m₁.entry i with value := val } := by
        rw [← hk]
        rfl
      rw [hentry] at hnew
      rwa [Dict.upsert_congr (g := fun _ => (k, val)) (by rw [hget]; rfl)]
  · have hnew := hnext val hload
    rw [Dict.upsert_congr (g := keepKey key val) (by rw [hget]; rfl)] at hnew
    refine ⟨_, ?_, hnew⟩
    simp only [hashmapSet, hres, Option.bind_eq_bind, Option.bind_some, hfind, hnone,
      Option.isNone_none, if_true]
    rfl

theorem Represents.getSet (h : Represents mem m d) (hsize : d.size < 2 ^ 29) (key : K)
    (ksize : Nat) (outIn : V) :
    ∃ m', (hashmapGetSet mem m key ksize outIn).map (fun a => (a.1, .found a.2.1 a.2.2)) =
        some (m', (dictCall mem d (Call.getSet key ksize outIn : Call K V U)).2) ∧
      Represents mem m' (dictCall mem d (Call.getSet key ksize outIn : Call K V U)).1 := by
  obtain ⟨m₁, hres, h₁, hload⟩ := h.resizeIfFull hsize
  obtain ⟨i, hfind, ⟨k, hk, hbytes, hget, -⟩ | ⟨hnone, -, hget, hnext⟩⟩ := h₁.find key ksize
  · refine ⟨m₁, ?_, ?_⟩
    · simp [hashmapGetSet, hres, hfind, hk, dictCall, hget]
    · simpa [dictCall, hget] using h₁
  · have hnew := hnext outIn hload
    refine ⟨_, ?_, by simpa [dictCall, hget] using hnew⟩
    simp [hashmapGetSet, hres, hfind, hnone, dictCall, hget]

theorem Represents.setFree (h : Represents mem m d) (hsize : d.size < 2 ^ 29) (key : K)
    (ksize : Nat) (val : V) (c : Callback K V U) (usr : U) :
    ∃ m', (hashmapSetFree mem m key ksize val c usr).map (fun a => (a.1, .usr a.2)) =
        some (m', (dictCall mem d (.setFree key ksize val c usr)).2) ∧
      Represents mem m' (dictCall mem d (.setFree key ksize val c usr)).1 := by
  obtain ⟨m₁, hres, h₁, hload⟩ := h.resizeIfFull hsize
  obtain ⟨i, hfind, ⟨k, hk, hbytes, hget, hnext⟩ | ⟨hnone, -, hget, hnext⟩⟩ := h₁.find key ksize
  · refine ⟨_, ?_, hnext key val fun _ _ => rfl⟩
    simp [hashmapSetFree, hres, hfind, hk, dictCall, hget]
  · refine ⟨_, ?_, hnext val hload⟩
    simp [hashmapSetFree, hres, hfind, hnone, dictCall, hget]

theorem Represents.get (h : Represents mem m d) (key : K) (ksize : Nat) :
    (hashmapGet mem m key ksize).map (fun a => (m, .found a.1 a.2)) =
      some (m, (dictCall mem d (Call.get key ksize : Call K V U)).2) := by
  obtain ⟨i, hfind, ⟨k, hk, -, hget, -⟩ | ⟨hnone, hzero, hget, -⟩⟩ := h.find key ksize
  · simp [hashmapGet, hfind, hk, dictCall, hget]
  · simp [hashmapGet, hfind, hnone, hzero, dictCall, hget]

omit [Inhabited V] in
/-- The loop of `hashmap_iterate` visits the list. -/
theorem iterateLoop_eq (c : Callback K V U) {m : Hashmap K V} :
    ∀ (l : List Nat) (fuel : Nat) (p : Option Nat) (usr : U), l.length ≤ fuel →
      Chain m.next p l none →
      iterateLoop c m fuel p usr =
        some ((l.map m.entry).foldl (fun usr e => c e.key e.ksize e.value usr) usr) := by
  intro l
  induction l with
  | nil =>
      intro fuel p usr _ hch
      have hp : p = none := hch
      subst hp
      cases fuel <;> rfl
  | cons i l ih =>
      intro fuel p usr hfuel hch
      cases fuel with
      | zero => simp at hfuel
      | succ fuel =>
          rw [hch.1, iterateLoop, ih fuel (m.next i) _ (by simpa using hfuel) hch.2]
          rfl

omit [Inhabited V] in
theorem foldl_pairs (mem : K → Nat → Byte) (c : Callback K V U) {es : List (Entry K V)} (h : ∀ e ∈ es, e.key ≠ none)
    (usr : U) :
    es.foldl (fun usr e => c e.key e.ksize e.value usr) usr =
      (pairs mem es).foldl (fun usr e => c (some e.2.1) e.1.length e.2.2 usr) usr := by
  induction es generalizing usr with
  | nil => rfl
  | cons e es ih =>
      obtain ⟨k, hk⟩ := Option.ne_none_iff_exists'.mp (h e (by simp))
      rw [pairs_cons_of_key hk, List.foldl_cons, List.foldl_cons,
        ih fun e' he' => h e' (List.mem_cons_of_mem _ he'), hk, length_keyBytes]

theorem Represents.iterate (h : Represents mem m d) (c : Callback K V U) (usr : U) :
    (hashmapIterate m c usr).map (fun usr => (m, Answer.usr usr)) =
      some (m, (dictCall mem d (.iterate c usr)).2) := by
  obtain ⟨l, hwf, -, hpairs⟩ := h
  have hkeys : ∀ e ∈ l.map m.entry, e.key ≠ none := by
    intro e he hnone
    obtain ⟨k, hk, -⟩ := hwf.contents.hashed e he
    rw [hnone] at hk
    cases hk
  rw [hashmapIterate, iterateLoop_eq c l m.count m.first usr hwf.count.ge hwf.chain,
    foldl_pairs mem c hkeys usr, hpairs]
  rfl

theorem Represents.size (h : Represents mem m d) : hashmapSize m = d.size := by
  obtain ⟨l, hwf, -, hpairs⟩ := h
  rw [hashmapSize, hwf.count, ← hwf.length_pairs, hpairs]
  rfl

/-- Every call answers as the dictionary does, and leaves a map that represents it. -/
theorem Represents.call (h : Represents mem m d) (hsize : d.size < 2 ^ 29) (op : Call K V U) :
    ∃ m', hashmapCall mem m op = some (m', (dictCall mem d op).2) ∧
      Represents mem m' (dictCall mem d op).1 := by
  cases op with
  | set key ksize val =>
      obtain ⟨m', hset, h'⟩ := h.set hsize key ksize val
      exact ⟨m', by rw [hashmapCall, hset]; rfl, h'⟩
  | getSet key ksize outIn => exact h.getSet hsize key ksize outIn
  | setFree key ksize val c usr => exact h.setFree hsize key ksize val c usr
  | get key ksize => exact ⟨m, h.get key ksize, h⟩
  | size => exact ⟨m, by rw [hashmapCall, h.size]; rfl, h⟩
  | iterate c usr => exact ⟨m, h.iterate c usr, h⟩

end OneCall

/-! ## Whole runs -/

section Runs

variable {mem : K → Nat → Byte} [Inhabited V]

theorem represents_create : Represents mem (hashmapCreate : Hashmap K V) Dict.empty :=
  ⟨[], hashmapCreate_wf, fun _ _ => rfl, rfl⟩

omit [Inhabited V] in
theorem size_le_dictCall [Inhabited V] (d : KeyDict K V) (op : Call K V U) :
    d.size ≤ (dictCall mem d op).1.size := by
  cases op with
  | set key ksize val => exact Dict.size_le_upsert ..
  | getSet key ksize outIn =>
      rw [dictCall]
      split
      · exact Dict.size_le_upsert ..
      · exact Nat.le_refl _
  | setFree key ksize val c usr => exact Dict.size_le_upsert ..
  | get key ksize => exact Nat.le_refl _
  | size => exact Nat.le_refl _
  | iterate c usr => exact Nat.le_refl _

/-- A new map answers any sequence of calls as a dictionary does that keeps the
    order in which keys were first added, and it lists the dictionary's pairs. -/
theorem hashmapCall_refines (mem : K → Nat → Byte) (calls : List (Call K V U))
    (hsize : (answers (dictCall mem) Dict.empty calls).1.size < 2 ^ 29) :
    ∃ m, run (hashmapCall mem) hashmapCreate calls =
        some (m, (answers (dictCall mem) Dict.empty calls).2) ∧
      Represents mem m (answers (dictCall mem) Dict.empty calls).1 := by
  obtain ⟨m, hrun, hrep, -⟩ := @run_refines _ _ _ _ (hashmapCall mem) (dictCall mem)
    (fun m d ops => Represents mem m d ∧ (answers (dictCall mem) d ops).1.size < 2 ^ 29)
    (fun m d op ops h => by
      obtain ⟨hrep, hlt⟩ := h
      have hnow : d.size < 2 ^ 29 := Nat.lt_of_le_of_lt (le_answers size_le_dictCall _ d) hlt
      obtain ⟨m', hcall, hrep'⟩ := hrep.call hnow op
      exact ⟨m', hcall, hrep', hlt⟩)
    calls hashmapCreate Dict.empty ⟨represents_create, hsize⟩
  exact ⟨m, hrun, hrep⟩

theorem hashmapCall_refines_overwrite :
    ∃ m, run (hashmapCall fun (k : Bool) _ => if k then 1 else 0) hashmapCreate
        [.set false 1 5, .getSet true 1 7, .set false 1 6,
          .setFree true 1 8 (fun _ _ old freed => freed ++ [old]) ([] : List Nat),
          .iterate (fun _ _ val vals => vals ++ [val]) [], .get false 0, .size] =
      some (m, [.done, .found false 7, .done, .usr [7], .usr [6, 8], .found false 0, .size 2]) := by
  obtain ⟨m, hrun, -⟩ := hashmapCall_refines (fun (k : Bool) _ => if k then 1 else 0)
    [.set false 1 5, .getSet true 1 7, .set false 1 6,
      .setFree true 1 8 (fun _ _ old freed => freed ++ [old]) ([] : List Nat),
      .iterate (fun _ _ val vals => vals ++ [val]) [], .get false 0, .size] (by decide)
  exact ⟨m, hrun⟩

end Runs

end GogetaTools.Map
