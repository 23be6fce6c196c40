/-
  GogetaTools.Map.Table

  The invariant of the hash map and what `hashmap_get` and `hashmap_set` do to
  the sequence of entries it stores.

  `Table` ties the bucket array to the list `l` of occupied buckets: every
  occupied bucket is on the list and can be reached from its home slot over
  occupied buckets.  `GoodContents` speaks about the stored entries alone, so
  it survives a move of the entries (`hashmap_resize`) unchanged.  `WF` adds
  the link structure, the count and the load bound.
-/

import GogetaTools.Map.Defs
import Mathlib.Data.List.Perm.Subperm
import Mathlib.Data.List.Pairwise

namespace GogetaTools.Map

open LinearProbe LinkedChain Binary32

variable {K V : Type} (mem : K → Nat → Byte)

/-! ## `hash_data` and key comparison only read the key's bytes -/

theorem readBlock_congr {d d' : Nat → Byte} (h : ∀ i < 8, d i = d' i) :
    readBlock d = readBlock d' := by
  simp only [readBlock, h 0 (by omega), h 1 (by omega), h 2 (by omega), h 3 (by omega),
    h 4 (by omega), h 5 (by omega), h 6 (by omega), h 7 (by omega)]

theorem hashBlocks_congr :
    ∀ (n : Nat) {d d' : Nat → Byte} (hash : Word), (∀ i < 8 * n, d i = d' i) →
      hashBlocks n d hash = hashBlocks n d' hash := by
  intro n
  induction n with
  | zero => intro d d' hash _; rfl
  | succ n ih =>
      intro d d' hash h
      rw [hashBlocks, hashBlocks, readBlock_congr (fun i hi => h i (by omega))]
      exact ih _ (fun i hi => h (i + 8) (by omega))

theorem readTail_congr :
    ∀ (r : Nat) {d d' : Nat → Byte} (last : Word), (∀ i < r, d i = d' i) →
      readTail d r last = readTail d' r last := by
  intro r
  induction r with
  | zero => intro d d' last _; rfl
  | succ r ih =>
      intro d d' last h
      rw [readTail, readTail, h r (Nat.lt_succ_self r)]
      exact ih _ (fun i hi => h i (Nat.lt_succ_of_lt hi))

theorem hashData_congr {d d' : Nat → Byte} {size : Nat} (h : ∀ i < size, d i = d' i) :
    hashData d size = hashData d' size := by
  have hblocks : hashBlocks (size / 8) d HASHMAP_HASH_INIT =
      hashBlocks (size / 8) d' HASHMAP_HASH_INIT :=
    hashBlocks_congr _ _ (fun i hi => h i (by omega))
  have htail : readTail (fun i => d (8 * (size / 8) + i)) (size % 8)
      (BitVec.ofNat 64 (size &&& 0xff)) =
      readTail (fun i => d' (8 * (size / 8) + i)) (size % 8)
        (BitVec.ofNat 64 (size &&& 0xff)) :=
    readTail_congr _ _ (fun i hi => h _ (by omega))
  simp only [hashData, hblocks, htail]

theorem memcmpEq_iff {a b : Nat → Byte} {n : Nat} :
    memcmpEq a b n = true ↔ ∀ i < n, a i = b i := by
  simp [memcmpEq]

/-! ## Entries and keys -/

/-- The entry holds the key of `ksize` bytes at `key`. -/
def HasKey (e : Entry K V) (key : K) (ksize : Nat) : Prop :=
  ∃ k, e.key = some k ∧ e.ksize = ksize ∧ ∀ i < ksize, mem k i = mem key i

/-- The entry is in use and its hash is the hash of its key. -/
def WellHashed (e : Entry K V) : Prop :=
  ∃ k, e.key = some k ∧ e.hash = hashData (mem k) e.ksize

/-- The stored entries are in use, well hashed, and have pairwise different keys. -/
structure GoodContents (es : List (Entry K V)) : Prop where
  hashed : ∀ e ∈ es, WellHashed mem e
  distinct : es.Pairwise fun e e' => ∀ k, e'.key = some k → ¬ HasKey mem e k e'.ksize

/-- The bucket array against the list `l` of occupied buckets. -/
structure Table (m : Hashmap K V) (l : List Nat) : Prop where
  nodup : l.Nodup
  mem_iff : ∀ i, i ∈ l ↔ i < m.capacity ∧ m.key i ≠ none
  last : m.last = l.getLast?
  reaches : ∀ i ∈ l,
    Reaches (· ∈ l) m.capacity ((m.entry i).hash.toNat % m.capacity) i
  contents : GoodContents mem (l.map m.entry)

/-- The map is well formed, with entry list `l`. -/
structure WF (m : Hashmap K V) (l : List Nat) : Prop extends Table mem m l where
  chain : Chain m.next m.first l none
  count : m.count = l.length
  capacity : ∃ k, m.capacity = HASHMAP_DEFAULT_CAPACITY * 2 ^ k
  capacity_lt : m.capacity < intLimit
  load : 5 * m.count ≤ 4 * m.capacity

variable {mem}

theorem WellHashed.hash_eq {e : Entry K V} {key : K} {ksize : Nat} (h : WellHashed mem e)
    (hkey : HasKey mem e key ksize) : e.hash = hashData (mem key) ksize := by
  obtain ⟨k, hk, hhash⟩ := h
  obtain ⟨k', hk', hsize, hbytes⟩ := hkey
  have hkk : k = k' := Option.some.inj (hk.symm.trans hk')
  subst hkk
  rw [hhash, hsize]
  exact hashData_congr hbytes

theorem entryMatches_of_hasKey {e : Entry K V} {key : K} {ksize : Nat} (h : WellHashed mem e)
    (hkey : HasKey mem e key ksize) :
    entryMatches mem key ksize (hashData (mem key) ksize) e = true := by
  have hhash := h.hash_eq hkey
  obtain ⟨k, hk, hsize, hbytes⟩ := hkey
  simp [entryMatches, hk, hsize, hhash, memcmpEq_iff.mpr hbytes]

/-- The search stops at an empty bucket or at one that holds the key. -/
theorem hasKey_of_entryMatches {e : Entry K V} {key : K} {ksize : Nat} {hash : BitVec 32}
    (h : entryMatches mem key ksize hash e = true) : e.key = none ∨ HasKey mem e key ksize := by
  unfold entryMatches at h
  split at h
  · exact Or.inl ‹_›
  · rename_i k hk
    simp only [Bool.and_eq_true, beq_iff_eq] at h
    exact Or.inr ⟨k, hk, h.1.1, memcmpEq_iff.mp h.2⟩

/-- Two entries of a good sequence with the same key are the same position. -/
theorem GoodContents.index_unique {es : List (Entry K V)} (h : GoodContents mem es)
    {i j : Nat} {e e' : Entry K V} (hi : es[i]? = some e) (hj : es[j]? = some e')
    {key : K} {ksize : Nat} (he : HasKey mem e key ksize) (he' : HasKey mem e' key ksize) :
    i = j := by
  have key_ne : ∀ {i j : Nat} {e e' : Entry K V}, es[i]? = some e → es[j]? = some e' →
      HasKey mem e key ksize → HasKey mem e' key ksize → ¬ i < j := by
    intro i j e e' hi hj he he' hlt
    obtain ⟨k, hk, hs, hb⟩ := he
    obtain ⟨k', hk', hs', hb'⟩ := he'
    obtain ⟨hi', rfl⟩ := List.getElem?_eq_some_iff.mp hi
    obtain ⟨hj', rfl⟩ := List.getElem?_eq_some_iff.mp hj
    have := List.pairwise_iff_getElem.mp h.distinct i j hi' hj' hlt k' hk'
    exact this ⟨k, hk, hs.trans hs'.symm, fun t ht => (hb t (hs' ▸ ht)).trans (hb' t (hs' ▸ ht)).symm⟩
  have h1 := key_ne hi hj he he'
  have h2 := key_ne hj hi he' he
  omega

theorem Table.bucket_unique {m : Hashmap K V} {l : List Nat} (h : Table mem m l) {i j : Nat}
    (hi : i ∈ l) (hj : j ∈ l) {key : K} {ksize : Nat} (hki : HasKey mem (m.entry i) key ksize)
    (hkj : HasKey mem (m.entry j) key ksize) : i = j := by
  obtain ⟨a, ha⟩ := List.mem_iff_getElem?.mp hi
  obtain ⟨b, hb⟩ := List.mem_iff_getElem?.mp hj
  have hab : a = b :=
    h.contents.index_unique (by simp [ha]) (by simp [hb]) hki hkj
  subst hab
  exact Option.some.inj (ha.symm.trans hb)

theorem Table.wellHashed {m : Hashmap K V} {l : List Nat} (h : Table mem m l) {i : Nat}
    (hi : i ∈ l) : WellHashed mem (m.entry i) :=
  h.contents.hashed _ (List.mem_map_of_mem hi)

/-! ## `find_entry` -/

theorem Table.probeTable {m : Hashmap K V} {l : List Nat} (h : Table mem m l) :
    ProbeTable (fun i => m.key i ≠ none) (fun i => (m.entry i).hash.toNat) m.capacity l :=
  ⟨h.nodup, h.mem_iff, h.reaches⟩

/-- A search that stops at every empty bucket and at no bucket of the list
    ends at an empty bucket. -/
theorem Table.probe_free {m : Hashmap K V} {l : List Nat} (h : Table mem m l)
    (hlt : l.length < m.capacity) (stop : Nat → Bool)
    (hempty : ∀ i, m.key i = none → stop i = true) (hfull : ∀ i ∈ l, stop i = false)
    (hash : BitVec 32) :
    ∃ e, probeFrom stop m.capacity m.capacity (hash.toNat % m.capacity) = some e ∧
      e < m.capacity ∧ m.key e = none ∧
      Reaches (· ∈ l) m.capacity (hash.toNat % m.capacity) e := by
  obtain ⟨e, hprobe, he, hfree, hreach⟩ :=
    h.probeTable.probe_free hlt stop (fun i hi => hempty i (not_not.mp hi)) hfull hash.toNat
  exact ⟨e, hprobe, he, not_not.mp hfree, hreach⟩

theorem findEntry_of_hasKey {m : Hashmap K V} {l : List Nat} (h : Table mem m l) {i : Nat}
    (hi : i ∈ l) {key : K} {ksize : Nat} (hkey : HasKey mem (m.entry i) key ksize) :
    findEntry mem m key ksize (hashData (mem key) ksize) = some i := by
  have hlt : i < m.capacity := ((h.mem_iff i).mp hi).1
  have hreach := h.reaches i hi
  rw [(h.wellHashed hi).hash_eq hkey] at hreach
  refine probeFrom_eq_of_reaches (Nat.mod_lt _ (by omega)) hreach
    (entryMatches_of_hasKey (h.wellHashed hi) hkey) ?_
  intro j hj hji
  by_contra hmatch
  rcases hasKey_of_entryMatches (by simpa using hmatch) with hnone | hkj
  · exact ((h.mem_iff j).mp hj).2 hnone
  · exact hji (h.bucket_unique hj hi hkj hkey)

theorem findEntry_of_absent {m : Hashmap K V} {l : List Nat} (h : Table mem m l)
    (hlt : l.length < m.capacity) {key : K} {ksize : Nat}
    (habs : ∀ e ∈ l.map m.entry, ¬ HasKey mem e key ksize) :
    ∃ e, findEntry mem m key ksize (hashData (mem key) ksize) = some e ∧
      e < m.capacity ∧ m.key e = none ∧
      Reaches (· ∈ l) m.capacity ((hashData (mem key) ksize).toNat % m.capacity) e := by
  refine h.probe_free hlt _ ?_ ?_ (hashData (mem key) ksize)
  · intro i hi
    have hkey : (m.entry i).key = none := hi
    simp [entryMatches, hkey]
  · intro i hi
    by_contra hmatch
    rcases hasKey_of_entryMatches (by simpa using hmatch) with hnone | hkey
    · exact ((h.mem_iff i).mp hi).2 hnone
    · exact habs _ (List.mem_map_of_mem hi) hkey

/-! ## `hashmap_get` -/

theorem WF.length_lt {m : Hashmap K V} {l : List Nat} (h : WF mem m l) :
    l.length < m.capacity := by
  have hload := h.load
  have hcount := h.count
  obtain ⟨k, hk⟩ := h.capacity
  have hpos : 0 < m.capacity := by
    rw [hk]
    exact Nat.mul_pos (by decide) (Nat.two_pow_pos k)
  omega

theorem hashmapGet_of_mem {m : Hashmap K V} {l : List Nat} (h : Table mem m l)
    {e : Entry K V} (he : e ∈ l.map m.entry) {key : K} {ksize : Nat}
    (hkey : HasKey mem e key ksize) : hashmapGet mem m key ksize = some (true, e.value) := by
  obtain ⟨i, hi, rfl⟩ := List.mem_map.mp he
  have hsome : (m.key i).isSome = true := Option.isSome_iff_ne_none.mpr ((h.mem_iff i).mp hi).2
  simp [hashmapGet, findEntry_of_hasKey h hi hkey, hsome]

theorem hashmapGet_of_absent {m : Hashmap K V} {l : List Nat} (h : Table mem m l)
    (hlt : l.length < m.capacity) {key : K} {ksize : Nat}
    (habs : ∀ e ∈ l.map m.entry, ¬ HasKey mem e key ksize) :
    ∃ v, hashmapGet mem m key ksize = some (false, v) := by
  obtain ⟨e, hfind, -, hnone, -⟩ := findEntry_of_absent h hlt habs
  exact ⟨(m.entry e).value, by simp [hashmapGet, hfind, hnone]⟩

/-! ## Filling an empty bucket -/

/-- A new entry in an empty bucket that its home slot reaches. -/
theorem Table.insert {m m' : Hashmap K V} {l : List Nat} (h : Table mem m l) {i : Nat}
    {e : Entry K V} (hi : i < m.capacity) (hnone : m.key i = none)
    (hreach : Reaches (· ∈ l) m.capacity (e.hash.toNat % m.capacity) i)
    (hgood : GoodContents mem (l.map m.entry ++ [e]))
    (hcap : m'.capacity = m.capacity) (hent : m'.entry = Function.update m.entry i e)
    (hlast : m'.last = some i) :
    Table mem m' (l ++ [i]) ∧ (l ++ [i]).map m'.entry = l.map m.entry ++ [e] := by
  have hil : i ∉ l := fun hmem => ((h.mem_iff i).mp hmem).2 hnone
  have hself : m'.entry i = e := by rw [hent, Function.update_self]
  have hother : ∀ j, j ≠ i → m'.entry j = m.entry j := by
    intro j hj
    rw [hent, Function.update_of_ne hj]
  have hmap : l.map m'.entry = l.map m.entry :=
    List.map_congr_left fun j hj => hother j fun hji => hil (hji ▸ hj)
  have hcontents : (l ++ [i]).map m'.entry = l.map m.entry ++ [e] := by
    rw [List.map_append, hmap, List.map_singleton, hself]
  obtain ⟨k, hk, -⟩ := hgood.hashed e (by simp)
  have hocc : ∀ j, m'.key j ≠ none ↔ j = i ∨ m.key j ≠ none := by
    intro j
    by_cases hj : j = i
    · subst hj
      simp [Hashmap.key, hself, hk]
    · simp [Hashmap.key, hother j hj, hj]
  have hslots : ProbeTable (fun j => m'.key j ≠ none) (fun j => (m'.entry j).hash.toNat)
      m.capacity (l ++ [i]) :=
    h.probeTable.insert hi (not_not.mpr hnone) hocc
      (fun j hj => congrArg (fun e => e.hash.toNat) (hother j hj)) (hself.symm ▸ hreach)
  rw [← hcap] at hslots
  exact ⟨⟨hslots.nodup, hslots.mem_iff, by simp [hlast], hslots.reaches,
    by rw [hcontents]; exact hgood⟩, hcontents⟩

theorem lastNext_eq {m : Hashmap K V} {l : List Nat} {q : Option Nat}
    (hlast : m.last = l.getLast?) (hch : Chain m.next m.first l q) : m.lastNext = q := by
  rcases List.eq_nil_or_concat l with rfl | ⟨l', d, rfl⟩
  · simpa [Hashmap.lastNext, hlast] using hch
  · rw [List.concat_eq_append] at hlast hch
    have hd : m.last = some d := by simpa using hlast
    simpa [Hashmap.lastNext, hd] using (chain_concat.mp hch).2

/-- `m->last->next = e; m->last = e;` appends the bucket `e`, whose own link stays. -/
theorem chain_setLastNext {m : Hashmap K V} {l : List Nat} {q : Option Nat} {e : Nat}
    (hlast : m.last = l.getLast?) (hch : Chain m.next m.first l q) (hnd : l.Nodup)
    (he : e ∉ l) :
    Chain (m.setLastNext (some e)).next (m.setLastNext (some e)).first (l ++ [e])
        (m.next e) ∧
      (m.setLastNext (some e)).entry = m.entry := by
  rcases List.eq_nil_or_concat l with rfl | ⟨l', d, rfl⟩
  · rw [Hashmap.setLastNext_none m _ (by simpa using hlast)]
    exact ⟨⟨rfl, rfl⟩, rfl⟩
  · rw [List.concat_eq_append] at *
    have hd : (l' ++ [d]).getLast? = some d := by simp
    rw [Hashmap.setLastNext_some m _ (hlast.trans hd)]
    refine ⟨?_, by simp⟩
    rw [Hashmap.next_setNext, chain_concat]
    refine ⟨hch.setLink_last hnd hd, setLink_of_ne ?_⟩
    rintro rfl
    exact he (by simp)

/-! ## `hashmap_resize` -/

/-- `resize_entry` copies the old bucket, link included, into an empty bucket. -/
theorem resizeEntry_spec {m : Hashmap K V} {l : List Nat} (h : Table mem m l)
    (hlt : l.length < m.capacity) (old : Bucket K V)
    (hgood : GoodContents mem (l.map m.entry ++ [old.toEntry])) :
    ∃ m' e, resizeEntry m old = some (m', e) ∧ e ∉ l ∧ m'.next = setLink m.next e old.next ∧
      m'.first = m.first ∧ m'.last = m.last ∧ m'.count = m.count ∧
      m'.capacity = m.capacity ∧ ∀ m'' : Hashmap K V, m''.entry = m'.entry →
        m''.capacity = m'.capacity → m''.last = some e →
        Table mem m'' (l ++ [e]) ∧ (l ++ [e]).map m''.entry = l.map m.entry ++ [old.toEntry] := by
  obtain ⟨e, hprobe, he, hnone, hreach⟩ :=
    h.probe_free hlt (fun i => (m.key i).isNone) (fun i hi => by simp [hi])
      (fun i hi => by simpa [Option.isSome_iff_ne_none] using ((h.mem_iff i).mp hi).2) old.hash
  let m' : Hashmap K V := { m with buckets := fun j => if j = e then old else m.buckets j }
  have hent : m'.entry = Function.update m.entry e old.toEntry := by
    funext j
    by_cases hj : j = e
    · subst hj
      simp [m', Hashmap.entry]
    · simp [m', Hashmap.entry, hj]
  have hnext : m'.next = setLink m.next e old.next := by
    funext j
    by_cases hj : j = e <;> simp [m', Hashmap.next, setLink, hj]
  have hel : e ∉ l := fun hmem => ((h.mem_iff e).mp hmem).2 hnone
  refine ⟨m', e, ?_, hel, hnext, rfl, rfl, rfl, rfl, ?_⟩
  · simp only [resizeEntry, hprobe]
    rfl
  · intro m'' hent'' hcap'' hlast''
    exact h.insert he hnone hreach hgood hcap'' (hent''.trans hent) hlast''

/-- The loop moves the remaining old buckets `R` behind the moved ones `D`. -/
theorem resizeLoop_spec (oldBuckets : Nat → Bucket K V) :
    ∀ (fuel : Nat) (D R : List Nat) (m : Hashmap K V), R ≠ [] → R.length ≤ fuel →
      Chain (fun i => (oldBuckets i).next) R.head? R none → Table mem m D →
      Chain m.next m.first D R.head? → D.length + R.length < m.capacity →
      GoodContents mem (D.map m.entry ++ R.map fun i => (oldBuckets i).toEntry) →
      ∃ m' l, resizeLoop oldBuckets fuel m = some m' ∧ Table mem m' l ∧
        Chain m'.next m'.first l none ∧ m'.capacity = m.capacity ∧ m'.count = m.count ∧
        l.map m'.entry = D.map m.entry ++ R.map fun i => (oldBuckets i).toEntry := by
  intro fuel
  -- Induction on the fuel: the entry at the head of `R` is moved behind those of `D`.
  induction fuel with
  | zero =>
      intro D R m hne hfuel
      exact absurd (List.length_eq_zero_iff.mp (by omega)) hne
  | succ fuel ih =>
      intro D R m hne hfuel hold htab hch hlt hgood
      cases R with
      | nil => exact absurd rfl hne
      | cons old R =>
          have hgood₁ : GoodContents mem (D.map m.entry ++ [(oldBuckets old).toEntry]) := by
            constructor
            · intro e he
              exact hgood.hashed e (by
                simp only [List.mem_append, List.map_cons, List.mem_cons] at he ⊢
                tauto)
            · refine hgood.distinct.sublist ?_
              exact (List.Sublist.refl _).append (by simp)
          obtain ⟨m₁, e, hentry, heD, hnext₁, hfirst₁, hlast₁, hcount₁, hcap₁, htab₁⟩ :=
            resizeEntry_spec htab (by omega) (oldBuckets old) hgood₁
          have hch₁ : Chain m₁.next m₁.first D (some old) := by
            rw [hnext₁, hfirst₁]
            exact hch.setLink_of_notMem heD
          obtain ⟨hch₂, hent₂⟩ :=
            chain_setLastNext (hlast₁.trans htab.last) hch₁ htab.nodup heD
          -- `m₂` is the map at the end of the loop body
          let m₂ : Hashmap K V := { m₁.setLastNext (some e) with last := some e }
          obtain ⟨htab₂, hmap₂⟩ := htab₁ m₂ hent₂ (Hashmap.capacity_setLastNext ..) rfl
          have hcap₂ : m₂.capacity = m.capacity := (Hashmap.capacity_setLastNext ..).trans hcap₁
          have hcount₂ : m₂.count = m.count := (Hashmap.count_setLastNext ..).trans hcount₁
          have hchR : Chain m₂.next m₂.first (D ++ [e]) R.head? := by
            have hrest : (oldBuckets old).next = R.head? := hold.2.eq_head?
            have : m₁.next e = R.head? := by rw [hnext₁, setLink_self, hrest]
            exact this ▸ hch₂
          have hlastNext₂ : m₂.lastNext = R.head? := lastNext_eq htab₂.last hchR
          have hstep : resizeLoop oldBuckets (fuel + 1) m =
              if R.head? = none then some m₂ else resizeLoop oldBuckets fuel m₂ := by
            rw [resizeLoop, lastNext_eq htab.last hch, ← hlastNext₂]
            simp only [List.head?_cons, Option.bind_eq_bind, Option.bind_some, hentry]
            rfl
          cases R with
          | nil =>
              refine ⟨m₂, D ++ [e], by simpa using hstep, htab₂, hchR, hcap₂, hcount₂, ?_⟩
              simpa using hmap₂
          | cons b R =>
              obtain ⟨m', l, hrun, htab', hch', hcap', hcount', hmap'⟩ :=
                ih (D ++ [e]) (b :: R) m₂ (by simp) (by simpa using hfuel)
                  ⟨rfl, hold.2.2⟩ htab₂ hchR
                  (by rw [hcap₂]; simp at hlt ⊢; omega)
                  (by rw [hmap₂]; simpa using hgood)
              refine ⟨m', l, by rw [hstep]; simpa using hrun, htab', hch', hcap'.trans hcap₂,
                hcount'.trans hcount₂, ?_⟩
              rw [hmap', hmap₂]
              simp

/-- `hashmap_resize` moves every entry, in list order, to a table twice as large. -/
theorem hashmapResize_spec [Inhabited V] {m : Hashmap K V} {l : List Nat} (h : WF mem m l) (hne : l ≠ [])
    (hcap : m.capacity * HASHMAP_RESIZE_FACTOR < intLimit) :
    ∃ m' l', hashmapResize m = some m' ∧ WF mem m' l' ∧
      l'.map m'.entry = l.map m.entry ∧ m'.capacity = m.capacity * HASHMAP_RESIZE_FACTOR ∧
      m'.count = m.count := by
  have hlt := h.length_lt
  -- the loop starts with empty buckets of the doubled table
  let m₀ : Hashmap K V :=
    { m with capacity := m.capacity * HASHMAP_RESIZE_FACTOR, buckets := fun _ => zeroBucket, last := none }
  have htab₀ : Table mem m₀ [] := by
    refine ⟨List.nodup_nil, ?_, rfl, by simp, ⟨by simp, by simp⟩⟩
    intro i
    simp [m₀, Hashmap.key, Hashmap.entry, zeroBucket]
  have hhead : m.first = l.head? := h.chain.eq_head?
  obtain ⟨m', l', hrun, htab', hch', hcap', hcount', hmap'⟩ :=
    resizeLoop_spec m.buckets m.count [] l m₀ hne (by rw [h.count])
      (hhead ▸ h.chain) htab₀ hhead
      (by simp [m₀, HASHMAP_RESIZE_FACTOR]; omega) h.contents
  refine ⟨m', l', ?_, ⟨htab', hch', ?_, ?_, ?_, ?_⟩, hmap', hcap', hcount'⟩
  · simp only [hashmapResize, if_pos hcap]
    exact hrun
  · have hlen : l'.length = l.length := by
      simpa using congrArg List.length hmap'
    rw [hcount', hlen]
    exact h.count
  · obtain ⟨k, hk⟩ := h.capacity
    exact ⟨k + 1, by rw [hcap']; simp only [m₀, hk, HASHMAP_RESIZE_FACTOR, Nat.pow_succ, Nat.mul_assoc]⟩
  · rw [hcap']
    exact hcap
  · have := h.load
    rw [hcap', hcount']
    simp only [m₀, HASHMAP_RESIZE_FACTOR]
    omega

/-! ## `hashmap_set` -/

/-- Both sides of the load test are exact up to the rounding of the count. -/
theorem overMaxLoad_iff {m : Hashmap K V} {k : Nat}
    (hk : m.capacity = HASHMAP_DEFAULT_CAPACITY * 2 ^ k) :
    overMaxLoad m = true ↔ 15 * 2 ^ k < toFloat32 (m.count + 1) := by
  have hcap : toFloat32 m.capacity = 20 * 2 ^ k := by
    rw [hk]
    exact toFloat32_mul_two_pow (by decide)
  have hprod : toFloat32 (3 * toFloat32 m.capacity) = 60 * 2 ^ k := by
    rw [hcap, ← Nat.mul_assoc]
    exact toFloat32_mul_two_pow (by decide)
  simp only [overMaxLoad, hprod, decide_eq_true_eq]
  omega

/-- A map with fewer than `2 ^ 29` entries can always grow. -/
theorem WF.room {m : Hashmap K V} {l : List Nat} (h : WF mem m l) (hcount : m.count < 2 ^ 29)
    (hover : overMaxLoad m = true) : m.capacity * HASHMAP_RESIZE_FACTOR < intLimit := by
  obtain ⟨k, hk⟩ := h.capacity
  have hgt := (overMaxLoad_iff hk).mp hover
  have hle := toFloat32_le (m.count + 1)
  simp only [hk, HASHMAP_DEFAULT_CAPACITY, HASHMAP_RESIZE_FACTOR, intLimit]
  omega

variable [Inhabited V]

/-- After the load test the entries are the same and one more of them fits. -/
theorem resizeIfFull_spec {m : Hashmap K V} {l : List Nat} (h : WF mem m l)
    (hroom : overMaxLoad m = true → m.capacity * HASHMAP_RESIZE_FACTOR < intLimit) :
    ∃ m' l', resizeIfFull m = some m' ∧ WF mem m' l' ∧
      l'.map m'.entry = l.map m.entry ∧ 5 * (m'.count + 1) ≤ 4 * m'.capacity := by
  obtain ⟨k, hk⟩ := h.capacity
  have hpos : 0 < 2 ^ k := Nat.two_pow_pos k
  by_cases hover : overMaxLoad m = true
  · have hgt := (overMaxLoad_iff hk).mp hover
    have hne : l ≠ [] := by
      rintro rfl
      have hle := toFloat32_le (m.count + 1)
      rw [h.count] at hgt hle
      simp at hgt hle
      omega
    obtain ⟨m', l', hrun, hwf, hmap, hcap', hcount'⟩ := hashmapResize_spec h hne (hroom hover)
    refine ⟨m', l', by simpa [resizeIfFull, hover] using hrun, hwf, hmap, ?_⟩
    have hload := h.load
    rw [hcap', hcount', hk, HASHMAP_RESIZE_FACTOR]
    simp only [hk, HASHMAP_DEFAULT_CAPACITY] at hload ⊢
    omega
  · refine ⟨m, l, by simp [resizeIfFull, hover], h, rfl, ?_⟩
    have hle : ¬ 15 * 2 ^ k < toFloat32 (m.count + 1) := fun hgt => hover ((overMaxLoad_iff hk).mpr hgt)
    have hround := le_toFloat32 (m.count + 1)
    rw [hk, HASHMAP_DEFAULT_CAPACITY]
    omega

/-- What `hashmap_set` does to the stored entries: it replaces the value of the
    entry with the key, or adds an entry behind the others. -/
def SetContents (mem : K → Nat → Byte) (key : K) (ksize : Nat) (val : V)
    (es es' : List (Entry K V)) : Prop :=
  (∃ es₁ e es₂, es = es₁ ++ e :: es₂ ∧ HasKey mem e key ksize ∧
    es' = es₁ ++ { e with value := val } :: es₂) ∨
  ((∀ e ∈ es, ¬ HasKey mem e key ksize) ∧
    es' = es ++ [{ key := some key, ksize := ksize, hash := hashData (mem key) ksize, value := val }])

/-- Two entries in use with the same key, size and hash. -/
structure SameKey (mem : K → Nat → Byte) (e e' : Entry K V) : Prop where
  ksize : e'.ksize = e.ksize
  hash : e'.hash = e.hash
  key : ∃ k k', e.key = some k ∧ e'.key = some k' ∧ ∀ i < e.ksize, mem k' i = mem k i

omit [Inhabited V] in
theorem SameKey.hasKey_iff {e e' : Entry K V} (h : SameKey mem e e') {key : K} {ksize : Nat} :
    HasKey mem e' key ksize ↔ HasKey mem e key ksize := by
  obtain ⟨k, k', hk, hk', hbytes⟩ := h.key
  simp only [HasKey, hk, hk', h.ksize, Option.some.injEq, exists_eq_left']
  constructor
  · rintro ⟨rfl, hkey⟩
    exact ⟨rfl, fun i hi => (hbytes i hi).symm.trans (hkey i hi)⟩
  · rintro ⟨rfl, hkey⟩
    exact ⟨rfl, fun i hi => (hbytes i hi).trans (hkey i hi)⟩

omit [Inhabited V] in
theorem SameKey.wellHashed {e e' : Entry K V} (h : SameKey mem e e') (he : WellHashed mem e) :
    WellHashed mem e' := by
  obtain ⟨k, k', hk, hk', hbytes⟩ := h.key
  obtain ⟨k₀, hk₀, hhash⟩ := he
  rw [hk, Option.some.injEq] at hk₀
  refine ⟨k', hk', ?_⟩
  rw [h.hash, hhash, h.ksize, ← hk₀]
  exact hashData_congr fun i hi => (hbytes i hi).symm

omit [Inhabited V] in
theorem GoodContents.replace {es₁ es₂ : List (Entry K V)} {e e' : Entry K V}
    (h : GoodContents mem (es₁ ++ e :: es₂)) (hsame : SameKey mem e e') :
    GoodContents mem (es₁ ++ e' :: es₂) := by
  obtain ⟨hhash, hdist⟩ := h
  obtain ⟨k, k', hk, hk', hbytes⟩ := hsame.key
  constructor
  · intro a ha
    rw [List.mem_append, List.mem_cons] at ha
    rcases ha with h | rfl | h
    · exact hhash a (by simp [h])
    · exact hsame.wellHashed (hhash e (by simp))
    · exact hhash a (by simp [h])
  · rw [List.pairwise_append, List.pairwise_cons] at hdist ⊢
    refine ⟨hdist.1, ⟨fun b hb k₀ hk₀ hhas => ?_, hdist.2.1.2⟩, ?_⟩
    · exact hdist.2.1.1 b hb k₀ hk₀ (hsame.hasKey_iff.mp hhas)
    · intro a ha b hb
      rcases List.mem_cons.mp hb with rfl | hb
      · -- an earlier entry with the new key pointer would have the old one as well
        rintro k₀ hk₀ ⟨ka, hka, hsize, hkab⟩
        rw [hk', Option.some.injEq] at hk₀
        refine hdist.2.2 a ha e (by simp) k hk ⟨ka, hka, hsize.trans hsame.ksize, fun i hi => ?_⟩
        rw [hkab i (hsame.ksize ▸ hi), ← hk₀]
        exact hbytes i hi
      · exact hdist.2.2 a ha b (by simp [hb])

omit [Inhabited V] in
theorem GoodContents.concat {es : List (Entry K V)} (h : GoodContents mem es) (key : K)
    (ksize : Nat) (val : V) (habs : ∀ e ∈ es, ¬ HasKey mem e key ksize) :
    GoodContents mem
      (es ++ [{ key := some key, ksize := ksize, hash := hashData (mem key) ksize, value := val }]) := by
  constructor
  · intro e he
    rcases List.mem_append.mp he with he | he
    · exact h.hashed e he
    · rw [List.mem_singleton.mp he]
      exact ⟨key, rfl, rfl⟩
  · rw [List.pairwise_append]
    refine ⟨h.distinct, List.pairwise_singleton .., ?_⟩
    intro e he e' he' k hk
    rw [List.mem_singleton.mp he'] at hk ⊢
    rw [← Option.some.inj hk]
    exact habs e he

omit [Inhabited V] in
/-- A present key: only its bucket changes, and it keeps the key. -/
theorem WF.replace {m : Hashmap K V} {a b : List Nat} {i : Nat} {e : Entry K V}
    (h : WF mem m (a ++ i :: b)) (hsame : SameKey mem (m.entry i) e) :
    WF mem (m.setEntry i e) (a ++ i :: b) ∧
      (a ++ i :: b).map (m.setEntry i e).entry = a.map m.entry ++ e :: b.map m.entry := by
  obtain ⟨k, k', hk, hk', -⟩ := hsame.key
  generalize hm' : m.setEntry i e = m'
  have hself : m'.entry i = e := by simp [← hm']
  have hother : ∀ j, j ≠ i → m'.entry j = m.entry j := by
    intro j hj
    simp [← hm', hj]
  have hkey : ∀ j, m'.key j ≠ none ↔ m.key j ≠ none := by
    intro j
    by_cases hj : j = i
    · simp [Hashmap.key, hj, hself, hk, hk']
    · simp [Hashmap.key, hother j hj]
  have hhash : ∀ j, (m'.entry j).hash = (m.entry j).hash := by
    intro j
    by_cases hj : j = i
    · rw [hj, hself, hsame.hash]
    · rw [hother j hj]
  -- no other bucket of the list is the bucket `i`
  have hcontents : (a ++ i :: b).map m'.entry = a.map m.entry ++ e :: b.map m.entry := by
    have hnd := h.nodup
    rw [List.nodup_append, List.nodup_cons] at hnd
    rw [List.map_append, List.map_cons, hself]
    congr 1
    · exact List.map_congr_left fun j hj => hother j fun hji => hnd.2.2 j hj i (by simp) hji
    · congr 1
      exact List.map_congr_left fun j hj => hother j fun hji => hnd.2.1.1 (hji ▸ hj)
  have hgood := h.contents
  rw [List.map_append, List.map_cons] at hgood
  refine ⟨⟨⟨h.nodup, fun j => ?_, ?_, fun j hj => ?_, ?_⟩, ?_, ?_, ?_, ?_, ?_⟩, hcontents⟩
  · rw [hkey j, ← hm']
    exact h.mem_iff j
  · rw [← hm']
    exact h.last
  · rw [hhash j, ← hm']
    exact h.reaches j hj
  · rw [hcontents]
    exact hgood.replace hsame
  · rw [← hm']
    simpa using h.chain
  · rw [← hm']
    exact h.count
  · rw [← hm']
    exact h.capacity
  · rw [← hm']
    exact h.capacity_lt
  · rw [← hm']
    exact h.load

omit [Inhabited V] in
/-- Only the value in the bucket changes. -/
theorem WF.setValue {m : Hashmap K V} {a b : List Nat} {i : Nat} (h : WF mem m (a ++ i :: b)) (val : V) :
    WF mem (m.setEntry i { m.entry i with value := val }) (a ++ i :: b) ∧
      (a ++ i :: b).map (m.setEntry i { m.entry i with value := val }).entry =
        a.map m.entry ++ { m.entry i with value := val } :: b.map m.entry := by
  obtain ⟨k, hk, -⟩ := h.wellHashed (by simp : i ∈ a ++ i :: b)
  exact h.replace ⟨rfl, rfl, k, k, hk, hk, fun _ _ => rfl⟩

/-- The map with the entry `e` in bucket `i`, which is linked behind the last one. -/
def linkLast (m : Hashmap K V) (i : Nat) (e : Entry K V) : Hashmap K V :=
  let m₂ := { m.setLastNext (some i) with last := some i }
  Hashmap.setEntry { m₂.setNext i none with count := m₂.count + 1 } i e

omit [Inhabited V] in
/-- An absent key: the empty bucket that was found is linked behind the last one. -/
theorem WF.linkLast {m : Hashmap K V} {l : List Nat} (h : WF mem m l)
    (hload : 5 * (m.count + 1) ≤ 4 * m.capacity) {i : Nat} {e : Entry K V} (hi : i < m.capacity)
    (hnone : m.key i = none) (hreach : Reaches (· ∈ l) m.capacity (e.hash.toNat % m.capacity) i)
    (hgood : GoodContents mem (l.map m.entry ++ [e])) :
    WF mem (linkLast m i e) (l ++ [i]) ∧ (l ++ [i]).map (linkLast m i e).entry = l.map m.entry ++ [e] := by
  -- the bucket is empty, so the list does not have it yet
  have hil : i ∉ l := fun hmem => ((h.mem_iff i).mp hmem).2 hnone
  obtain ⟨hch, hent⟩ := chain_setLastNext h.last h.chain h.nodup hil
  have hcap : (Map.linkLast m i e).capacity = m.capacity := Hashmap.capacity_setLastNext ..
  have hcount : (Map.linkLast m i e).count = m.count + 1 :=
    congrArg (· + 1) (Hashmap.count_setLastNext ..)
  have hent' : (Map.linkLast m i e).entry = Function.update m.entry i e := by
    rw [Map.linkLast, Hashmap.entry_setEntry]
    exact congrArg (Function.update · i e) ((Hashmap.entry_setNext ..).trans hent)
  have hnext : (Map.linkLast m i e).next = setLink (m.setLastNext (some i)).next i none :=
    (Hashmap.next_setEntry _ i e).trans (Hashmap.next_setNext _ i none)
  obtain ⟨htab, hcontents⟩ := h.toTable.insert hi hnone hreach hgood hcap hent' rfl
  refine ⟨⟨htab, ?_, ?_, ?_, ?_, ?_⟩, hcontents⟩
  · rw [hnext]
    refine hch.setLink_last (List.nodup_append.mpr ⟨h.nodup, by simp, ?_⟩) (by simp)
    intro a ha b hb hab
    exact hil (by simp at hb; exact hb ▸ hab ▸ ha)
  · rw [hcount, h.count, List.length_append, List.length_singleton]
  · obtain ⟨k, hk⟩ := h.capacity
    exact ⟨k, hcap.trans hk⟩
  · rw [hcap]
    exact h.capacity_lt
  · rw [hcap, hcount]
    exact hload

theorem hashmapSet_spec {m : Hashmap K V} {l : List Nat} (h : WF mem m l)
    (hroom : overMaxLoad m = true → m.capacity * HASHMAP_RESIZE_FACTOR < intLimit)
    (key : K) (ksize : Nat) (val : V) :
    ∃ m' l', hashmapSet mem m key ksize val = some m' ∧ WF mem m' l' ∧
      SetContents mem key ksize val (l.map m.entry) (l'.map m'.entry) := by
  obtain ⟨m₁, l₁, hres, hwf, hmap, hload⟩ := resizeIfFull_spec h hroom
  rw [← hmap]
  by_cases hex : ∃ e ∈ l₁.map m₁.entry, HasKey mem e key ksize
  · -- the key is present: its bucket is the one found, and only the value changes
    obtain ⟨_, hmem, hkey⟩ := hex
    obtain ⟨i, hi, rfl⟩ := List.mem_map.mp hmem
    have hsome : m₁.key i ≠ none := ((hwf.mem_iff i).mp hi).2
    have hfind := findEntry_of_hasKey hwf.toTable hi hkey
    obtain ⟨a, b, rfl⟩ := List.append_of_mem hi
    obtain ⟨hwf', hcontents⟩ := hwf.setValue val
    refine ⟨_, a ++ i :: b, ?_, hwf', Or.inl ⟨_, _, _, ?_, hkey, hcontents⟩⟩
    · simp [hashmapSet, hres, hfind, hsome]
    · rw [List.map_append, List.map_cons]
  · -- the key is absent: the empty bucket found is linked behind the last one
    have habs : ∀ e ∈ l₁.map m₁.entry, ¬ HasKey mem e key ksize :=
      fun e he hk => hex ⟨e, he, hk⟩
    obtain ⟨i, hfind, hi, hnone, hreach⟩ :=
      findEntry_of_absent hwf.toTable hwf.length_lt habs
    obtain ⟨hwf', hcontents⟩ := hwf.linkLast hload hi hnone hreach (hwf.contents.concat key ksize val habs)
    refine ⟨_, l₁ ++ [i], ?_, hwf', Or.inr ⟨habs, hcontents⟩⟩
    simp only [hashmapSet, hres, Option.bind_eq_bind, Option.bind_some, hfind, hnone,
      Option.isNone_none, if_true]
    rfl

theorem hashmapCreate_wf : WF mem (hashmapCreate : Hashmap K V) [] := by
  refine ⟨⟨List.nodup_nil, ?_, rfl, by simp, ⟨by simp, by simp⟩⟩, rfl, rfl, ⟨0, rfl⟩,
    show 20 < intLimit by decide, Nat.zero_le _⟩
  intro i
  simp [hashmapCreate, Hashmap.key, Hashmap.entry, zeroBucket]

/-- A call that returns found room for the table. -/
theorem room_of_hashmapSet {m m' : Hashmap K V} {key : K} {ksize : Nat} {val : V}
    (h : hashmapSet mem m key ksize val = some m') (hover : overMaxLoad m = true) :
    m.capacity * HASHMAP_RESIZE_FACTOR < intLimit := by
  by_contra hroom
  simp [hashmapSet, resizeIfFull, hover, hashmapResize, hroom] at h

theorem wf_of_hashmapSet {m m' : Hashmap K V} {l : List Nat} (h : WF mem m l) {key : K}
    {ksize : Nat} {val : V} (hset : hashmapSet mem m key ksize val = some m') :
    ∃ l', WF mem m' l' ∧ SetContents mem key ksize val (l.map m.entry) (l'.map m'.entry) := by
  obtain ⟨m₁, l₁, hrun, hwf, hcontents⟩ :=
    hashmapSet_spec h (fun hover => room_of_hashmapSet hset hover) key ksize val
  rw [hset] at hrun
  cases hrun
  exact ⟨l₁, hwf, hcontents⟩

omit [Inhabited V] in
theorem WF.length_le {m : Hashmap K V} {l : List Nat} (h : WF mem m l) : l.length ≤ 2 ^ 30 := by
  have hload := h.load
  have hcount := h.count
  obtain ⟨k, hk⟩ := h.capacity
  have hlt := h.capacity_lt
  have hk' : k < 27 := by
    by_contra hge
    have : 2 ^ 27 ≤ 2 ^ k := Nat.pow_le_pow_right (by omega) (by omega)
    simp only [hk, HASHMAP_DEFAULT_CAPACITY, intLimit] at hlt
    omega
  have hpow : 2 ^ k ≤ 2 ^ 26 := Nat.pow_le_pow_right (by omega) (by omega)
  simp only [HASHMAP_DEFAULT_CAPACITY] at hk
  omega

omit [Inhabited V] in
/-- The iteration visits the buckets of the list, in order. -/
theorem foreachHashmapBucket_eq {m : Hashmap K V} :
    ∀ (l : List Nat) (fuel : Nat) (p : Option Nat), l.length ≤ fuel → Chain m.next p l none →
      foreachHashmapBucket m fuel p = some l := by
  intro l
  induction l with
  | nil =>
      intro fuel p _ hch
      have hp : p = none := hch
      subst hp
      cases fuel <;> rfl
  | cons b l ih =>
      intro fuel p hfuel hch
      cases fuel with
      | zero => simp at hfuel
      | succ fuel =>
          rw [hch.1, foreachHashmapBucket, ih fuel (m.next b) (by simpa using hfuel) hch.2]
          rfl

end GogetaTools.Map
