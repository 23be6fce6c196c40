/-
  GogetaTools.Replay.ReadBack

  What the reads of a read-write replay return.

  A trace has an order that no option of the replay enters: by timestamp, and
  by position among equal timestamps (`Precedes`).  A read returns the block of
  the latest write of its LBA in that order (`ReadsBack`).

  `store` is the reference: a block for every LBA.  `readZ_eq_store` ties the
  file to it, `filter_infosMap_lba` ties a worker's records of one LBA, whatever
  the distribution, to the trace sorted by timestamp.
-/

import GogetaTools.Replay.Coalescing
import GogetaTools.Replay.System

namespace GogetaTools.Replay

open Map ByteFile EveryRun StableSort

/-! ## The reference store -/

section Store

variable {P : Type} (info : P → TraceInfo) (block : P → List Byte)

/-- The writes of an LBA. -/
def writesOfLba (ps : List P) (x : Word) : List P :=
  ps.filter fun p => (info p).rw = charW ∧ (info p).lba = x

/-- The block that an LBA holds after the records `ps`: zeros before the first write. -/
def store (ps : List P) (x : Word) : List Byte :=
  ((writesOfLba info ps x).getLast?.map block).getD (List.replicate BLK_SIZE 0)

/-- Two LBAs whose blocks do not overlap. -/
def Apart (x y : Word) : Prop := x.toNat + 8 ≤ y.toNat ∨ y.toNat + 8 ≤ x.toNat

instance (x y : Word) : Decidable (Apart x y) := inferInstanceAs (Decidable (_ ∨ _))

variable {info block} (hblock : ∀ p, (block p).length = BLK_SIZE)
include hblock

/-- At an address that no write overlaps in part, the file holds the block of the last
    write there, or what it held before. -/
theorem readZ_execRecords {mode : ReplayMode} (hmode : mode ≠ .append) (d : File Byte × List Byte)
    (ps : List P) {x : Word}
    (hapart : ∀ p ∈ ps, Writes mode (info p) → (info p).lba = x ∨ Apart (info p).lba x) :
    (execRecords info mode block d ps).1.readZ (lbaOffset x) BLK_SIZE =
      ((ps.filter fun p => Writes mode (info p) ∧ (info p).lba = x).getLast?.map block).getD
        (d.1.readZ (lbaOffset x) BLK_SIZE) := by
  induction ps using List.reverseRecOn with
  | nil =>
      simp only [execRecords, List.foldl_nil, List.filter_nil, List.getLast?_nil, Option.map_none,
        Option.getD_none]
  | append_singleton ps p ih =>
      have hih := ih fun q hq => hapart q (List.mem_append_left _ hq)
      rw [execRecords_append]
      simp only [execRecords, List.foldl_cons, List.foldl_nil, execRecord] at hih ⊢
      by_cases hw : Writes mode (info p)
      · rw [if_pos hw, if_neg hmode]
        by_cases hx : (info p).lba = x
        · -- its own write
          rw [List.filter_append, List.filter_cons_of_pos (by simp [hw, hx]), List.filter_nil,
            List.getLast?_concat, Option.map_some, Option.getD_some, ← hx, ← hblock p,
            File.readZ_pwrite_self]
        · rw [List.filter_append, List.filter_cons_of_neg (by simp [hx]), List.filter_nil,
            List.append_nil, ← hih]
          apply File.readZ_pwrite_apart
          have hap := (hapart p (by simp) hw).resolve_left hx
          simp only [Apart] at hap
          simp only [lbaOffset, hblock, BLK_SIZE]
          omega
      · -- a read changes nothing
        rw [if_neg hw, List.filter_append, List.filter_cons_of_neg (by simp [hw]), List.filter_nil,
          List.append_nil, ← hih]

/-- The file holds what the store does. -/
theorem readZ_eq_store (dump : List Byte) (ps : List P) {x : Word}
    (hapart : ∀ p ∈ ps, (info p).lba = x ∨ Apart (info p).lba x) :
    (execRecords info .readwrite block (File.empty, dump) ps).1.readZ (lbaOffset x) BLK_SIZE =
      store info block ps x := by
  have hwrites : (ps.filter fun p => Writes .readwrite (info p) ∧ (info p).lba = x) =
      writesOfLba info ps x :=
    List.filter_congr fun p _ => by simp [Writes]
  rw [readZ_execRecords hblock (by decide) _ ps fun p hp _ => hapart p hp, hwrites, store,
    File.readZ_beyond (Nat.zero_le _)]

omit hblock in
/-- The dump is what the reads return, one after the other. -/
theorem execRecords_dump {mode : ReplayMode} {blk : P → List Byte} (d : File Byte × List Byte)
    {ps : List P} (h : ∀ pre p post, ps = pre ++ p :: post → ¬ Writes mode (info p) →
      (execRecords info mode block d pre).1.readZ (lbaOffset (info p).lba) BLK_SIZE = blk p) :
    (execRecords info mode block d ps).2 =
      d.2 ++ (ps.filter fun p => ¬ Writes mode (info p)).flatMap blk := by
  induction ps using List.reverseRecOn with
  | nil => simp [execRecords]
  | append_singleton ps p ih =>
      have hih := ih fun pre q post heq => h pre q (post ++ [p]) (by rw [heq]; simp)
      have hp := h ps p [] rfl
      rw [execRecords_append, List.filter_append, List.flatMap_append, ← List.append_assoc, ← hih]
      by_cases hw : Writes mode (info p)
      · simp only [execRecords, List.foldl_cons, List.foldl_nil, execRecord, if_pos hw]
        split <;> simp [hw]
      · have hread := hp hw
        simp only [execRecords] at hread ⊢
        simp only [List.foldl_cons, List.foldl_nil, execRecord, if_neg hw, hread]
        simp [hw]

end Store

/-! ## The order of the trace -/

section Trace

variable (infos : List TraceInfo)

/-- Record `q` comes before record `p`: by timestamp, then by position. -/
def Precedes (q p : Fin infos.length) : Prop :=
  (infos.get q).ts < (infos.get p).ts ∨ ((infos.get q).ts = (infos.get p).ts ∧ q < p)

instance (q p : Fin infos.length) : Decidable (Precedes infos q p) :=
  inferInstanceAs (Decidable (_ ∨ _))

/-- `q` is the latest of the writes of `p`'s LBA that come before `p`. -/
structure LatestWrite (p q : Fin infos.length) : Prop where
  rw : (infos.get q).rw = charW
  lba : (infos.get q).lba = (infos.get p).lba
  precedes : Precedes infos q p
  latest : ∀ r, (infos.get r).rw = charW → (infos.get r).lba = (infos.get p).lba →
    Precedes infos r p → r = q ∨ Precedes infos r q

/-- The block that the latest write made, or zeros if there was none. -/
def ReadsBack {Ctx : Type} (gener : Option (RandGener Ctx)) (p : Fin infos.length)
    (b : List Byte) : Prop :=
  (∃ q, LatestWrite infos p q ∧ MakesBlock gener (infos.get q).md5 b) ∨
    ((∀ q, (infos.get q).rw = charW → (infos.get q).lba = (infos.get p).lba →
      ¬ Precedes infos q p) ∧ b = List.replicate BLK_SIZE 0)

/-- The records before `p`, in order. -/
def recordsBefore (p : Fin infos.length) : List (Fin infos.length) :=
  (byTs infos.get (List.finRange infos.length)).filter fun q => Precedes infos q p

variable {infos}

theorem not_precedes_self (p : Fin infos.length) : ¬ Precedes infos p p := by
  rintro (h | ⟨-, h⟩)
  · exact BitVec.lt_irrefl _ h
  · exact lt_irrefl p h

theorem Precedes.asymm {p q : Fin infos.length} (h : Precedes infos p q) :
    ¬ Precedes infos q p := by
  simp only [Precedes, BitVec.lt_def] at h ⊢
  rcases h with h | ⟨heq, hlt⟩
  · rintro (h' | ⟨heq', -⟩)
    · omega
    · rw [heq'] at h
      omega
  · rintro (h' | ⟨-, hlt'⟩)
    · rw [heq] at h'
      omega
    · exact lt_asymm hlt hlt'

theorem pairwise_byTs : (byTs infos.get (List.finRange infos.length)).Pairwise (Precedes infos) := by
  refine (pairwise_stableSort _ (List.pairwise_lt_finRange infos.length)).imp ?_
  intro a b h
  simp only [tsKey] at h
  rcases h with h | ⟨heq, hlt⟩
  · exact Or.inl (BitVec.lt_def.mpr h)
  · exact Or.inr ⟨BitVec.eq_of_toNat_eq heq, hlt⟩

theorem mem_byTs (p : Fin infos.length) : p ∈ byTs infos.get (List.finRange infos.length) :=
  (stableSort_perm _ _).mem_iff.mpr (List.mem_finRange p)

/-- In a list in order the records before `p` are those in front of it. -/
theorem filter_precedes {l pre post : List (Fin infos.length)} {p : Fin infos.length}
    (hl : l.Pairwise (Precedes infos)) (hsplit : l = pre ++ p :: post) :
    l.filter (fun q => Precedes infos q p) = pre := by
  rw [hsplit, List.pairwise_append, List.pairwise_cons] at hl
  obtain ⟨-, ⟨hpost, -⟩, hpre⟩ := hl
  rw [hsplit, List.filter_append, List.filter_cons_of_neg (by simpa using not_precedes_self p)]
  have hnone : post.filter (fun q => Precedes infos q p) = [] := by
    rw [List.filter_eq_nil_iff]
    intro q hq hprec
    exact (hpost q hq).asymm (of_decide_eq_true hprec)
  have hall : pre.filter (fun q => Precedes infos q p) = pre := by
    rw [List.filter_eq_self]
    intro q hq
    exact decide_eq_true (hpre q hq p (List.mem_cons_self ..))
  rw [hnone, hall, List.append_nil]

theorem mem_recordsBefore {p q : Fin infos.length} :
    q ∈ recordsBefore infos p ↔ Precedes infos q p := by
  rw [recordsBefore, List.mem_filter, decide_eq_true_eq]
  exact ⟨fun h => h.2, fun h => ⟨mem_byTs q, h⟩⟩

theorem mem_writesOfLba {ps : List (Fin infos.length)} {x : Word} {q : Fin infos.length} :
    q ∈ writesOfLba infos.get ps x ↔ q ∈ ps ∧ (infos.get q).rw = charW ∧ (infos.get q).lba = x := by
  rw [writesOfLba, List.mem_filter, decide_eq_true_eq]

/-- The store before `p` holds what `p` is to read. -/
theorem readsBack_store {Ctx : Type} [Inhabited Ctx] {gener : Option (RandGener Ctx)}
    (hfills : ∀ p, (infos.get p).rw = charW → Fills gener (infos.get p).md5)
    (p : Fin infos.length) :
    ReadsBack infos gener p
      (store infos.get (recordBlock infos.get gener) (recordsBefore infos p)
        (infos.get p).lba) := by
  cases hlast : (writesOfLba infos.get (recordsBefore infos p) (infos.get p).lba).getLast? with
  | none =>
      -- nothing is written before `p` at its address
      right
      rw [List.getLast?_eq_none_iff] at hlast
      refine ⟨?_, ?_⟩
      · intro q hq hlba hprec
        have hmem := mem_writesOfLba.mpr ⟨mem_recordsBefore.mpr hprec, hq, hlba⟩
        rw [hlast] at hmem
        cases hmem
      · rw [store, hlast]
        rfl
  | some q =>
      -- `q` is the last write before `p` at its address
      left
      obtain ⟨front, hfront⟩ := List.getLast?_eq_some_iff.mp hlast
      obtain ⟨hbefore, hq, hlba⟩ := mem_writesOfLba.mp (List.mem_of_getLast? hlast)
      refine ⟨q, ⟨hq, hlba, mem_recordsBefore.mp hbefore, ?_⟩, ?_⟩
      · intro r hr hrlba hprec
        have hmem := mem_writesOfLba.mpr ⟨mem_recordsBefore.mpr hprec, hr, hrlba⟩
        have hsorted : (writesOfLba infos.get (recordsBefore infos p)
            (infos.get p).lba).Pairwise (Precedes infos) := (pairwise_byTs.filter _).filter _
        rw [hfront] at hmem hsorted
        rcases List.mem_append.mp hmem with hmem | hmem
        · exact Or.inr ((List.pairwise_append.mp hsorted).2.2 r hmem q (by simp))
        · exact Or.inl (List.mem_singleton.mp hmem)
      · rw [store, hlast, Option.map_some, Option.getD_some, recordBlock]
        exact makesBlock_blockOf gener (infos.get q).md5_le (hfills q hq)

/-! ## A worker's records -/

section Worker

variable {threads : Nat} {paths : ReplayPaths} {gs : List (List (Fin infos.length))}
  {assigned : List (Nat × List (Fin infos.length))}
  {params : List (ReplayParam (Fin infos.length))} {hints : List TraceReplayHint}

/-- Of an LBA that a worker has, it has all records, in the order of the trace. -/
theorem filter_infosMap_lba (h : SetupReady infos threads paths gs assigned params hints)
    (i : Fin params.length) {p : Fin infos.length} (hp : p ∈ (params.get i).infosMap) :
    (params.get i).infosMap.filter (fun q => (infos.get q).lba = (infos.get p).lba) =
      (byTs infos.get (List.finRange infos.length)).filter fun q =>
        (infos.get q).lba = (infos.get p).lba := by
  obtain ⟨runs, hready⟩ := h.ready i
  rw [hready.infosMap, byTs, byTs, stableSort_filter, stableSort_filter]
  rcases filter_shareOf h.groups h.assigned_snd i (infos.get p).lba with hnone | hall
  · -- but it has `p`
    exfalso
    rw [hready.infosMap] at hp
    have hmem : p ∈ (shareOf assigned i).filter fun q => (infos.get q).lba = (infos.get p).lba :=
      List.mem_filter.mpr ⟨(stableSort_perm _ _).mem_iff.mp hp, by simp⟩
    rw [hnone] at hmem
    cases hmem
  · rw [hall]

/-- The writes of its LBA that a worker performs before it reads record `p`. -/
theorem writesOfLba_worker (h : SetupReady infos threads paths gs assigned params hints)
    (i : Fin params.length) {pre post : List (Fin infos.length)} {p : Fin infos.length}
    (hsplit : (params.get i).infosMap = pre ++ p :: post) :
    writesOfLba infos.get pre (infos.get p).lba =
      writesOfLba infos.get (recordsBefore infos p) (infos.get p).lba := by
  have hlba := filter_infosMap_lba h i (p := p) (by rw [hsplit]; simp)
  have hsorted : ((byTs infos.get (List.finRange infos.length)).filter fun q =>
      (infos.get q).lba = (infos.get p).lba).Pairwise (Precedes infos) := pairwise_byTs.filter _
  rw [← hlba] at hsorted
  have hpre := filter_precedes hsorted
    (show _ = pre.filter (fun q => (infos.get q).lba = (infos.get p).lba) ++
        p :: post.filter (fun q => (infos.get q).lba = (infos.get p).lba) by
      rw [hsplit, List.filter_append, List.filter_cons_of_pos (by simp)])
  rw [hlba, List.filter_comm] at hpre
  -- restrict both to the writes
  have hwrites : ∀ ps : List (Fin infos.length), writesOfLba infos.get ps (infos.get p).lba =
      (ps.filter fun q => (infos.get q).lba = (infos.get p).lba).filter fun q =>
        (infos.get q).rw = charW := by
    intro ps
    rw [writesOfLba, List.filter_filter]
    apply List.filter_congr
    intro q _
    simp
  rw [hwrites, ← hpre, hwrites]
  rfl

/-- What a worker reads. -/
theorem read_worker {Ctx : Type} [Inhabited Ctx] {gener : Option (RandGener Ctx)}
    (h : SetupReady infos threads paths gs assigned params hints)
    (hapart : ∀ p q, (infos.get p).lba = (infos.get q).lba ∨ Apart (infos.get p).lba (infos.get q).lba)
    (i : Fin params.length) {pre post : List (Fin infos.length)} {p : Fin infos.length}
    (hsplit : (params.get i).infosMap = pre ++ p :: post) :
    (execRecords infos.get .readwrite (recordBlock infos.get gener) (File.empty, []) pre).1.readZ
        (lbaOffset (infos.get p).lba) BLK_SIZE =
      store infos.get (recordBlock infos.get gener) (recordsBefore infos p) (infos.get p).lba := by
  rw [readZ_eq_store length_recordBlock [] pre fun q _ => hapart q p, store, store,
    writesOfLba_worker h i hsplit]

end Worker

/-- In read-write mode what is not a `'W'` record is read. -/
theorem writes_readwrite_iff (i : TraceInfo) : Writes .readwrite i ↔ i.rw = charW :=
  ⟨fun h => h.resolve_left fun hne => hne rfl, Or.inr⟩

variable (infos)

/-- There are blocks, each made of the latest write before its record, such that:
    for all thread counts, `rand()` results and `max_continuous_4K_blks` that
    leave no worker without records, in every run of the workers from absent or
    empty files, each record is one worker's, and each worker dumps the blocks
    of the records it reads. -/
def ReplayReadsBack {Ctx : Type} (gener : Option (RandGener Ctx)) : Prop :=
  ∃ blk : Fin infos.length → List Byte,
    (∀ p, (infos.get p).rw ≠ charW → ReadsBack infos gener p (blk p)) ∧
    ∀ threads, 1 ≤ threads → threads ≤ MAX_THREADS →
    ∀ (rand : Nat → Nat) (maxContinuous4KBlks : Word) (paths : ReplayPaths),
    ∃ s a, buildTraceContainers infos.get noContainers (List.finRange infos.length) = some s ∧
      distribute infos.get threads infos.length rand s = some a ∧
      ((∀ tc ∈ a.params, tc.infosMap ≠ []) →
        ∃ params hints,
          setupReplay infos threads maxContinuous4KBlks rand paths = some (params, hints) ∧
          (params.flatMap ReplayParam.infosMap).Perm (List.finRange infos.length) ∧
          ∀ x : (Fin params.length → Worker Ctx) × FileSystem,
            (∀ i, (x.1 i).pc = .start) →
            (∀ i, x.2.files (params.get i).dstfilepath = none ∨
              x.2.files (params.get i).dstfilepath = some File.empty) →
            Inevitable (ReplaySystem infos.get gener .readwrite hints params)
              (fun y => ∀ i, (y.1 i).pc = .finished ∧
                y.2.dumps (params.get i).drfilepath =
                  ((params.get i).infosMap.filter fun p => (infos.get p).rw ≠ charW).flatMap blk)
              x)

/-- What a read-write replay reads depends on the trace alone. -/
theorem replay_readsBack {Ctx : Type} [Inhabited Ctx] (gener : Option (RandGener Ctx))
    (hlen : infos.length < 2 ^ 29) (haddr : ∀ i ∈ infos, Addressed i)
    (hmd5 : ∀ i ∈ infos, i.md5.length = 32 ∨ i.md5.length = 256)
    (hapart : ∀ i ∈ infos, ∀ j ∈ infos, i.lba = j.lba ∨ Apart i.lba j.lba) :
    ReplayReadsBack infos gener := by
  have hfills : ∀ p, (infos.get p).rw = charW → Fills gener (infos.get p).md5 := by
    intro p _
    rw [fills_iff gener (infos.get p).md5_le]
    rcases hmd5 _ (List.get_mem infos p) with h | h <;> rw [h] <;> split <;> decide
  -- the block of a record is what the records before it have stored
  refine ⟨fun p => store infos.get (recordBlock infos.get gener) (recordsBefore infos p)
    (infos.get p).lba, fun p _ => readsBack_store hfills p, ?_⟩
  intro threads hthreads _ rand maxBlks paths
  obtain ⟨s, hbuild⟩ := buildTraceContainers_isSome infos.get
    (show (List.finRange infos.length).length < 2 ^ 29 by rwa [List.length_finRange])
  obtain ⟨a, hdist⟩ := distribute_isSome infos.length rand hthreads (List.nodup_finRange _)
    (by rwa [List.length_finRange]) hbuild
  refine ⟨s, a, hbuild, hdist, fun hne => ?_⟩
  obtain ⟨params, hints, hsetup⟩ := setupReplay_isSome maxBlks paths hthreads hbuild hdist hne
  obtain ⟨gs, assigned, hready⟩ := setupReplay_ready hthreads hsetup
  refine ⟨params, hints, hsetup, hready.perm, ?_⟩
  intro x hstart hempty
  have hrec : ∀ i : Fin params.length,
      Replayable infos.get gener .readwrite (params.get i).infosMap := fun i =>
    ⟨fun p _ => haddr _ (List.get_mem infos p),
      fun p _ hw => hfills p ((writes_readwrite_iff _).mp hw)⟩
  -- every worker ends with the effect of its own records, read off its dump
  refine (replaySystem_inevitable (independent_workerParts hready.named) hready.cut hrec hstart).mono ?_
  intro y hy i
  obtain ⟨hpc, hdisk⟩ := hy i
  refine ⟨hpc, ?_⟩
  have hdump : y.2.dumps (params.get i).drfilepath =
      (execRecords infos.get .readwrite (recordBlock infos.get gener)
        ((x.2.files (params.get i).dstfilepath).getD File.empty, []) (params.get i).infosMap).2 :=
    congrArg Disk.dump hdisk
  have hfile : (x.2.files (params.get i).dstfilepath).getD File.empty = File.empty := by
    rcases hempty i with h | h <;> rw [h] <;> rfl
  rw [hdump, hfile, execRecords_dump _ fun pre p post hsplit _ =>
    read_worker hready (fun p q => hapart _ (List.get_mem infos p) _ (List.get_mem infos q)) i hsplit]
  simp only [List.nil_append, writes_readwrite_iff]

end Trace

/-- A block written, read and written again, and a second block. -/
theorem replay_readsBack_sample :
    ReplayReadsBack [sampleInfo 1 0 charW 0x61 32, sampleInfo 2 0 0x52 0x62 32,
      sampleInfo 2 0 charW 0x63 32, sampleInfo 3 8 charW 0x64 32] (randGener id .lcg) := by
  apply replay_readsBack <;> decide

end GogetaTools.Replay
