/-
  GogetaTools.Replay.Build

  `build_trace_containers`: records of one LBA are gathered in one container,
  found through the hash map under the LBA's eight bytes.

  `BuildInv` is what the loop keeps: the entry of a key leads to a container of
  its own that holds, in trace order, the records with that LBA, and every
  record has an entry.  `buildStep_inv` is the step, `buildTraceContainers_spec`
  the run, and `Groups` what is left of both once the map is forgotten.
-/

import GogetaTools.Map.Table
import GogetaTools.Replay.Trace
import Mathlib.Data.List.Induction

namespace GogetaTools.Replay

open Map LinkedChain

variable {P : Type} (info : P → TraceInfo)

/-- The map, and the containers that were allocated; a container's address is a
    number, and `none` is memory that is not (or no longer) a container. -/
structure Containers (P : Type) where
  map : Hashmap P Nat
  heap : Nat → Option (TraceContainer P)
  fresh : Nat

/-- `hashmap_create()`, before any container is allocated. -/
def noContainers : Containers P := { map := hashmapCreate, heap := fun _ => none, fresh := 0 }

/-- The bytes at `&info->lba`. -/
def lbaBytes (p : P) : Nat → Byte := wordBytes (info p).lba

def SIZEOF_POINTER : Nat := 8

/-- The lookup of `build_trace_containers`, which creates a missing container. -/
def containerOf (s : Containers P) (p : P) : Option (Containers P × Nat) := do
  let (notNull, ptc) ← hashmapGet (lbaBytes info) s.map p SIZEOF_POINTER
  if notNull then some (s, ptc)
  else
    let map ← hashmapSet (lbaBytes info) s.map p SIZEOF_POINTER s.fresh
    let tc := traceContainerCreate DEFAULT_COLLECTIONS_CAPACITY
    some ({ map := map, heap := Function.update s.heap s.fresh (some tc), fresh := s.fresh + 1 },
      s.fresh)

/-- The loop body. -/
def buildStep (s : Containers P) (p : P) : Option (Containers P) := do
  let (s, ptc) ← containerOf info s p
  let tc ← s.heap ptc
  let tc ← traceContainerAdd tc p
  some { s with heap := Function.update s.heap ptc (some tc) }

def buildTraceContainers (s : Containers P) (infos : List P) : Option (Containers P) :=
  infos.foldlM (buildStep info) s

/-! ## The invariant -/

/-- The records with the LBA of `k`. -/
def sameLba (ps : List P) (k : P) : List P := ps.filter fun p => (info p).lba = (info k).lba

/-- The entry leads to a container with the records of its key's LBA. -/
def Holds (heap : Nat → Option (TraceContainer P)) (ps : List P) (e : Entry P Nat) : Prop :=
  ∃ k ∈ ps, e.key = some k ∧ e.ksize = SIZEOF_POINTER ∧
    ∃ tc, heap e.value = some tc ∧ tc.Fits ∧ tc.infosMap = sameLba info ps k

/-- What is known of the stored entries `es` when the records `ps` are in. -/
structure BuildInv (s : Containers P) (ps : List P) (es : List (Entry P Nat)) : Prop where
  holds : ∀ e ∈ es, Holds info s.heap ps e
  fresh : ∀ e ∈ es, e.value < s.fresh
  values : (es.map Entry.value).Nodup
  covers : ∀ p ∈ ps, ∃ e ∈ es, HasKey (lbaBytes info) e p SIZEOF_POINTER
  length_le : es.length ≤ ps.length

variable {info}

/-- Two records have the same key exactly if they have the same LBA. -/
theorem hasKey_iff {e : Entry P Nat} {k p : P} (hk : e.key = some k)
    (hsize : e.ksize = SIZEOF_POINTER) :
    HasKey (lbaBytes info) e p SIZEOF_POINTER ↔ (info k).lba = (info p).lba := by
  constructor
  · rintro ⟨k', hk', -, hbytes⟩
    have hkk : k = k' := Option.some.inj (hk.symm.trans hk')
    subst hkk
    exact wordBytes_inj hbytes
  · intro h
    exact ⟨k, hk, hsize, fun i _ => by rw [lbaBytes, lbaBytes, h]⟩

theorem sameLba_append_of_ne {ps : List P} {k p : P} (h : (info p).lba ≠ (info k).lba) :
    sameLba info (ps ++ [p]) k = sameLba info ps k := by
  simp [sameLba, h]

theorem sameLba_append_of_eq {ps : List P} {k p : P} (h : (info p).lba = (info k).lba) :
    sameLba info (ps ++ [p]) k = sameLba info ps k ++ [p] := by
  simp [sameLba, h]

/-- An entry of another LBA is as it was, unless its container was touched. -/
theorem Holds.frame {heap : Nat → Option (TraceContainer P)} {ps : List P} {e : Entry P Nat}
    (h : Holds info heap ps e) {p : P} {a : Nat} {c : Option (TraceContainer P)}
    (hp : ¬ HasKey (lbaBytes info) e p SIZEOF_POINTER) (ha : e.value ≠ a) :
    Holds info (Function.update heap a c) (ps ++ [p]) e := by
  obtain ⟨k, hkps, hk, hsize, tc, htc, hfits, hmap⟩ := h
  have hne : (info p).lba ≠ (info k).lba := fun heq => hp ((hasKey_iff hk hsize).mpr heq.symm)
  refine ⟨k, List.mem_append_left _ hkps, hk, hsize, tc, ?_, hfits, ?_⟩
  · rw [Function.update_of_ne ha, htc]
  · rw [sameLba_append_of_ne hne, hmap]

/-- A record whose LBA is known goes into the container of that LBA. -/
theorem buildStep_known {s : Containers P} {ps : List P} {l : List Nat}
    (hwf : WF (lbaBytes info) s.map l) (hinv : BuildInv info s ps (l.map s.map.entry))
    {e : Entry P Nat} (he : e ∈ l.map s.map.entry) {p : P}
    (hkey : HasKey (lbaBytes info) e p SIZEOF_POINTER) :
    ∃ tc, s.heap e.value = some tc ∧ tc.Fits ∧ tc.size ≤ ps.length ∧
      buildStep info s p = (traceContainerAdd tc p).map
        (fun tc => { s with heap := Function.update s.heap e.value (some tc) }) ∧
      ∀ tc', traceContainerAdd tc p = some tc' →
        BuildInv info { s with heap := Function.update s.heap e.value (some tc') } (ps ++ [p])
          (l.map s.map.entry) := by
  obtain ⟨k, hkps, hk, hsize, tc, htc, hfits, hmap⟩ := hinv.holds e he
  have hlba : (info k).lba = (info p).lba := (hasKey_iff hk hsize).mp hkey
  refine ⟨tc, htc, hfits, ?_, ?_, ?_⟩
  · rw [TraceContainer.size, hmap]
    exact List.length_filter_le _ _
  · have hget := hashmapGet_of_mem hwf.toTable he hkey
    simp only [buildStep, containerOf, hget, Option.bind_eq_bind, Option.bind_some, if_true, htc]
    cases traceContainerAdd tc p <;> rfl
  · intro tc' hadd
    obtain ⟨hmap', hfits'⟩ := traceContainerAdd_ok hfits hadd
    refine ⟨?_, hinv.fresh, hinv.values, ?_, ?_⟩
    · intro e' he'
      by_cases hkey' : HasKey (lbaBytes info) e' p SIZEOF_POINTER
      · -- it is the same entry
        have hee : e' = e := by
          obtain ⟨i, hi⟩ := List.mem_iff_getElem?.mp he
          obtain ⟨j, hj⟩ := List.mem_iff_getElem?.mp he'
          have hij := hwf.contents.index_unique hj hi hkey' hkey
          subst hij
          exact Option.some.inj (hj.symm.trans hi)
        subst hee
        refine ⟨k, List.mem_append_left _ hkps, hk, hsize, tc', ?_, hfits', ?_⟩
        · exact Function.update_self ..
        · rw [hmap', hmap, sameLba_append_of_eq hlba.symm]
      · refine (hinv.holds e' he').frame hkey' fun hval => hkey' ?_
        rw [List.inj_on_of_nodup_map hinv.values he' he hval]
        exact hkey
    · intro q hq
      rcases List.mem_append.mp hq with hq | hq
      · exact hinv.covers q hq
      · rw [List.mem_singleton.mp hq]
        exact ⟨e, he, hkey⟩
    · have := hinv.length_le
      rw [List.length_append]
      omega

/-- A record of a new LBA gets a container of its own. -/
theorem buildStep_new {s : Containers P} {ps : List P} {l : List Nat}
    (hwf : WF (lbaBytes info) s.map l) (hinv : BuildInv info s ps (l.map s.map.entry)) {p : P}
    (habs : ∀ e ∈ l.map s.map.entry, ¬ HasKey (lbaBytes info) e p SIZEOF_POINTER) :
    ∃ tc : TraceContainer P,
      buildStep info s p =
        (hashmapSet (lbaBytes info) s.map p SIZEOF_POINTER s.fresh).map
          (fun map => { map := map
                        heap := Function.update s.heap s.fresh (some tc)
                        fresh := s.fresh + 1 }) ∧
      ∀ (map : Hashmap P Nat) (l' : List Nat),
        SetContents (lbaBytes info) p SIZEOF_POINTER s.fresh (l.map s.map.entry)
          (l'.map map.entry) →
        BuildInv info
          { map := map, heap := Function.update s.heap s.fresh (some tc), fresh := s.fresh + 1 }
          (ps ++ [p]) (l'.map map.entry) := by
  obtain ⟨tc, hadd⟩ := traceContainerAdd_isSome
    (traceContainerCreate DEFAULT_COLLECTIONS_CAPACITY) (Nat.two_pow_pos 30) p
  obtain ⟨hmap, hfits⟩ := traceContainerAdd_ok fits_create hadd
  refine ⟨tc, ?_, ?_⟩
  · obtain ⟨v, hget⟩ := hashmapGet_of_absent hwf.toTable hwf.length_lt habs
    simp only [buildStep, containerOf, hget, Option.bind_eq_bind, Option.bind_some]
    cases hashmapSet (lbaBytes info) s.map p SIZEOF_POINTER s.fresh with
    | none => rfl
    | some map => simp [hadd]
  · intro map l' hset
    rcases hset with ⟨es₁, e, es₂, hes, hkey, -⟩ | ⟨-, hes⟩
    · exact absurd hkey (habs e (by rw [hes]; simp))
    rw [hes]
    refine ⟨?_, ?_, ?_, ?_, ?_⟩
    · intro e he
      rcases List.mem_append.mp he with he | he
      · exact (hinv.holds e he).frame (habs e he) (Nat.ne_of_lt (hinv.fresh e he))
      · rw [List.mem_singleton.mp he]
        refine ⟨p, by simp, rfl, rfl, tc, Function.update_self .., hfits, ?_⟩
        -- no record before it has this LBA
        have hnone : sameLba info ps p = [] := by
          rw [sameLba, List.filter_eq_nil_iff]
          intro q hq hlba
          obtain ⟨e', he', hkey'⟩ := hinv.covers q hq
          obtain ⟨k, -, hk, hsize, -⟩ := hinv.holds e' he'
          refine habs e' he' ((hasKey_iff hk hsize).mpr ?_)
          rw [(hasKey_iff hk hsize).mp hkey']
          exact of_decide_eq_true hlba
        rw [sameLba_append_of_eq rfl, hnone, hmap]
        rfl
    · intro e he
      rcases List.mem_append.mp he with he | he
      · exact Nat.lt_succ_of_lt (hinv.fresh e he)
      · rw [List.mem_singleton.mp he]
        exact Nat.lt_succ_self _
    · rw [List.map_append, List.nodup_append]
      refine ⟨hinv.values, List.nodup_singleton _, ?_⟩
      intro a ha b hb
      obtain ⟨e, he, rfl⟩ := List.mem_map.mp ha
      rw [List.map_singleton, List.mem_singleton] at hb
      rw [hb]
      exact Nat.ne_of_lt (hinv.fresh e he)
    · intro q hq
      rcases List.mem_append.mp hq with hq | hq
      · obtain ⟨e, he, hkey⟩ := hinv.covers q hq
        exact ⟨e, List.mem_append_left _ he, hkey⟩
      · rw [List.mem_singleton.mp hq]
        exact ⟨_, List.mem_append_right _ (List.mem_singleton_self _), p, rfl, rfl, fun _ _ => rfl⟩
    · have := hinv.length_le
      rw [List.length_append, List.length_append, List.length_singleton, List.length_singleton]
      omega

/-- The step, when it returns: the invariant holds with one more record. -/
theorem buildStep_inv {s s' : Containers P} {ps : List P} {l : List Nat}
    (hwf : WF (lbaBytes info) s.map l) (hinv : BuildInv info s ps (l.map s.map.entry)) {p : P}
    (h : buildStep info s p = some s') :
    ∃ l', WF (lbaBytes info) s'.map l' ∧ BuildInv info s' (ps ++ [p]) (l'.map s'.map.entry) := by
  by_cases hknown : ∃ e ∈ l.map s.map.entry, HasKey (lbaBytes info) e p SIZEOF_POINTER
  · obtain ⟨e, he, hkey⟩ := hknown
    obtain ⟨tc, -, -, -, hstep, hnext⟩ := buildStep_known hwf hinv he hkey
    rw [hstep] at h
    obtain ⟨tc', hadd, rfl⟩ := Option.map_eq_some_iff.mp h
    exact ⟨l, hwf, hnext tc' hadd⟩
  · obtain ⟨tc, hstep, hnext⟩ := buildStep_new hwf hinv fun e he hkey => hknown ⟨e, he, hkey⟩
    rw [hstep] at h
    obtain ⟨map, hset, rfl⟩ := Option.map_eq_some_iff.mp h
    obtain ⟨l', hwf', hcontents⟩ := wf_of_hashmapSet hwf hset
    exact ⟨l', hwf', hnext map l' hcontents⟩

/-- With fewer than `2 ^ 29` records in, neither the map nor a container is full. -/
theorem buildStep_isSome {s : Containers P} {ps : List P} {l : List Nat}
    (hwf : WF (lbaBytes info) s.map l) (hinv : BuildInv info s ps (l.map s.map.entry))
    (hlen : ps.length < 2 ^ 29) (p : P) : ∃ s', buildStep info s p = some s' := by
  by_cases hknown : ∃ e ∈ l.map s.map.entry, HasKey (lbaBytes info) e p SIZEOF_POINTER
  · obtain ⟨e, he, hkey⟩ := hknown
    obtain ⟨tc, -, -, hsize, hstep, -⟩ := buildStep_known hwf hinv he hkey
    obtain ⟨tc', hadd⟩ := traceContainerAdd_isSome tc (by omega) p
    exact ⟨_, by rw [hstep, hadd]; rfl⟩
  · obtain ⟨tc, hstep, -⟩ := buildStep_new hwf hinv fun e he hkey => hknown ⟨e, he, hkey⟩
    have hcount : s.map.count < 2 ^ 29 := by
      have := hinv.length_le
      rw [List.length_map] at this
      rw [hwf.count]
      omega
    obtain ⟨map, l', hset, -⟩ :=
      hashmapSet_spec hwf (hwf.room hcount) p SIZEOF_POINTER s.fresh
    exact ⟨_, by rw [hstep, hset]; rfl⟩

theorem buildInv_nil : BuildInv info (noContainers : Containers P) [] [] :=
  ⟨by simp, by simp, List.nodup_nil, by simp, Nat.le_refl 0⟩

theorem build_run {s s' : Containers P} {ps : List P} {l : List Nat}
    (hwf : WF (lbaBytes info) s.map l) (hinv : BuildInv info s ps (l.map s.map.entry)) :
    ∀ qs, buildTraceContainers info s qs = some s' →
      ∃ l', WF (lbaBytes info) s'.map l' ∧ BuildInv info s' (ps ++ qs) (l'.map s'.map.entry) := by
  intro qs
  induction qs generalizing s ps l with
  | nil =>
      intro h
      cases h
      rw [List.append_nil]
      exact ⟨l, hwf, hinv⟩
  | cons q qs ih =>
      intro h
      rw [buildTraceContainers, List.foldlM_cons] at h
      obtain ⟨s₁, hstep, hrest⟩ := Option.bind_eq_some_iff.mp h
      obtain ⟨l₁, hwf₁, hinv₁⟩ := buildStep_inv hwf hinv hstep
      rw [← List.singleton_append, ← List.append_assoc]
      exact ih hwf₁ hinv₁ hrest

/-- What `build_trace_containers` leaves when it returns. -/
theorem buildTraceContainers_inv {s : Containers P} {ps : List P}
    (h : buildTraceContainers info noContainers ps = some s) :
    ∃ l, WF (lbaBytes info) s.map l ∧ BuildInv info s ps (l.map s.map.entry) := by
  have hrun := build_run hashmapCreate_wf buildInv_nil ps h
  rwa [List.nil_append] at hrun

/-- It returns for every trace of fewer than `2 ^ 29` records. -/
theorem buildTraceContainers_isSome (info : P → TraceInfo) {ps : List P} (hlen : ps.length < 2 ^ 29) :
    ∃ s, buildTraceContainers info noContainers ps = some s := by
  induction ps using List.reverseRecOn with
  | nil => exact ⟨noContainers, rfl⟩
  | append_singleton ps p ih =>
      rw [List.length_append, List.length_singleton] at hlen
      obtain ⟨s, hrun⟩ := ih (by omega)
      obtain ⟨l, hwf, hinv⟩ := buildTraceContainers_inv hrun
      obtain ⟨s', hstep⟩ := buildStep_isSome hwf hinv (by omega) p
      refine ⟨s', ?_⟩
      rw [buildTraceContainers] at hrun ⊢
      rw [List.foldlM_append, hrun]
      simpa using hstep

/-! ## The groups, without the map -/

variable (info) in
/-- `gs` splits the records `ps` by LBA; a group is in the order of `ps`. -/
structure Groups (ps : List P) (gs : List (List P)) : Prop where
  group : ∀ g ∈ gs, ∃ k ∈ g, g = sameLba info ps k
  distinct : gs.Pairwise fun g g' => ∀ p ∈ g, ∀ q ∈ g', (info p).lba ≠ (info q).lba
  covers : ∀ p ∈ ps, ∃ g ∈ gs, p ∈ g

theorem mem_sameLba {ps : List P} {k p : P} :
    p ∈ sameLba info ps k ↔ p ∈ ps ∧ (info p).lba = (info k).lba := by
  simp [sameLba]

theorem Groups.mem_iff {ps : List P} {gs : List (List P)} (h : Groups info ps gs) (p : P) :
    p ∈ gs.flatten ↔ p ∈ ps := by
  rw [List.mem_flatten]
  constructor
  · rintro ⟨g, hg, hp⟩
    obtain ⟨k, -, hgk⟩ := h.group g hg
    rw [hgk] at hp
    exact (mem_sameLba.mp hp).1
  · exact h.covers p

/-- Nothing is lost and nothing duplicated. -/
theorem Groups.flatten_perm {ps : List P} {gs : List (List P)} (h : Groups info ps gs)
    (hnd : ps.Nodup) : gs.flatten.Perm ps := by
  have hflat : gs.flatten.Nodup := by
    rw [List.nodup_flatten]
    constructor
    · intro g hg
      obtain ⟨k, -, hgk⟩ := h.group g hg
      rw [hgk]
      exact hnd.filter _
    · refine h.distinct.imp ?_
      intro g g' hne p hp hp'
      exact hne p hp p hp' rfl
  exact (List.perm_ext_iff_of_nodup hflat hnd).mpr h.mem_iff

theorem Groups.of_perm {ps : List P} {gs gs' : List (List P)} (h : Groups info ps gs)
    (hp : gs'.Perm gs) : Groups info ps gs' := by
  refine ⟨fun g hg => h.group g (hp.subset hg), ?_, ?_⟩
  · refine hp.symm.pairwise h.distinct ?_
    intro g g' hne p hp q hq
    exact (hne q hq p hp).symm
  · intro p hps
    obtain ⟨g, hg, hpg⟩ := h.covers p hps
    exact ⟨g, hp.symm.subset hg, hpg⟩

/-- The records an entry's container holds. -/
def contentOf (heap : Nat → Option (TraceContainer P)) (e : Entry P Nat) : List P :=
  ((heap e.value).map TraceContainer.infosMap).getD []

theorem Holds.contentOf_eq {heap : Nat → Option (TraceContainer P)} {ps : List P}
    {e : Entry P Nat} (h : Holds info heap ps e) :
    ∃ tc, heap e.value = some tc ∧ tc.Fits ∧ tc.infosMap = contentOf heap e := by
  obtain ⟨k, -, -, -, tc, htc, hfits, -⟩ := h
  exact ⟨tc, htc, hfits, by simp [contentOf, htc]⟩

/-- The containers of the entries are the groups of the trace. -/
theorem BuildInv.groups {s : Containers P} {ps : List P} {es : List (Entry P Nat)}
    (h : BuildInv info s ps es) (hgood : GoodContents (lbaBytes info) es) :
    Groups info ps (es.map (contentOf s.heap)) := by
  have hcontent : ∀ e ∈ es, ∃ k ∈ ps, e.key = some k ∧ e.ksize = SIZEOF_POINTER ∧
      contentOf s.heap e = sameLba info ps k := by
    intro e he
    obtain ⟨k, hk, hkey, hsize, tc, htc, -, hmap⟩ := h.holds e he
    exact ⟨k, hk, hkey, hsize, by simp [contentOf, htc, hmap]⟩
  refine ⟨?_, ?_, ?_⟩
  · intro g hg
    obtain ⟨e, he, rfl⟩ := List.mem_map.mp hg
    obtain ⟨k, hk, -, -, hc⟩ := hcontent e he
    exact ⟨k, by rw [hc]; exact mem_sameLba.mpr ⟨hk, rfl⟩, hc⟩
  · -- two entries with records of one LBA would have one key
    rw [List.pairwise_map]
    refine List.Pairwise.imp_of_mem ?_ hgood.distinct
    intro e e' he he' hne p hp q hq hpq
    obtain ⟨k, -, hk, hsize, hc⟩ := hcontent e he
    obtain ⟨k', -, hk', hsize', hc'⟩ := hcontent e' he'
    rw [hc] at hp
    rw [hc'] at hq
    have hlba : (info k).lba = (info k').lba := by
      rw [← (mem_sameLba.mp hp).2, hpq, (mem_sameLba.mp hq).2]
    exact hne k' hk' (by rw [hsize']; exact (hasKey_iff hk hsize).mpr hlba)
  · intro p hp
    obtain ⟨e, he, hkey⟩ := h.covers p hp
    obtain ⟨k, -, hk, hsize, hc⟩ := hcontent e he
    refine ⟨_, List.mem_map_of_mem he, ?_⟩
    rw [hc]
    exact mem_sameLba.mpr ⟨hp, ((hasKey_iff hk hsize).mp hkey).symm⟩

end GogetaTools.Replay
