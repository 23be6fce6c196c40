/-
  GogetaTools.Replay.Outcome

  What a whole replay leaves in the `trace_i` files, for any number of workers and
  any other option, and in every run.

    * `replay_lastWrite`   — write-only and read-write mode: every address of the
                             trace holds the block of its last write, in the file
                             of one worker,
    * `replay_again`       — a second replay into these files changes nothing,
    * `append_conserves`   — append mode: every record adds its block once, and the
                             files keep what they held,
    * `append_duplication` — with the null generator each content is added as often
                             as its fingerprint occurs in the trace.
-/

import GogetaTools.Replay.NullGenerator
import GogetaTools.Replay.SingleWorker

namespace GogetaTools.Replay

open Map WriteLog ByteFile EveryRun StableSort

/-! ## Every replay of a trace -/

section Every

variable {infos : List TraceInfo} {Ctx : Type}

/-- The threads and the file system of a replay. -/
abbrev ReplayState (Ctx : Type) (params : List (ReplayParam (Fin infos.length))) : Type :=
  (Fin params.length → Worker Ctx) × FileSystem

/-- The file of worker `i`; an absent one is created. -/
def traceFile {params : List (ReplayParam (Fin infos.length))} (x : ReplayState Ctx params)
    (i : Fin params.length) : File Byte :=
  (x.2.files (params.get i).dstfilepath).getD File.empty

variable (infos) in
/-- For all thread counts, `rand()` results and `max_continuous_4K_blks` that leave no
    worker without records, the workers have every record once, and every run of them
    ends, with `Q` of the start and the end. -/
def InEveryReplay (gener : Option (RandGener Ctx)) (mode : ReplayMode)
    (Q : (params : List (ReplayParam (Fin infos.length))) → List TraceReplayHint →
      ReplayState Ctx params → ReplayState Ctx params → Prop) : Prop :=
  ∀ threads, 1 ≤ threads → threads ≤ MAX_THREADS →
  ∀ (rand : Nat → Nat) (maxContinuous4KBlks : Word) (paths : ReplayPaths),
  ∃ s a, buildTraceContainers infos.get noContainers (List.finRange infos.length) = some s ∧
    distribute infos.get threads infos.length rand s = some a ∧
    ((∀ tc ∈ a.params, tc.infosMap ≠ []) →
      ∃ params hints,
        setupReplay infos threads maxContinuous4KBlks rand paths = some (params, hints) ∧
        (params.flatMap ReplayParam.infosMap).Perm (List.finRange infos.length) ∧
        ∀ x : ReplayState Ctx params, (∀ i, (x.1 i).pc = .start) →
          Inevitable (ReplaySystem infos.get gener mode hints params) (Q params hints x) x)

variable [Inhabited Ctx] {gener : Option (RandGener Ctx)} {mode : ReplayMode}

/-- The files and dumps that the records of the workers leave. -/
def recordsOut (gener : Option (RandGener Ctx)) (mode : ReplayMode)
    {params : List (ReplayParam (Fin infos.length))} (x : ReplayState Ctx params)
    (i : Fin params.length) : File Byte × List Byte :=
  execRecords infos.get mode (recordBlock infos.get gener) (traceFile x i, []) (params.get i).infosMap

/-- A set-up whose workers all come to their ends. -/
structure Runs (infos : List TraceInfo) (gener : Option (RandGener Ctx)) (mode : ReplayMode)
    (params : List (ReplayParam (Fin infos.length))) (hints : List TraceReplayHint) : Prop where
  setup : ∃ threads paths gs assigned, SetupReady infos threads paths gs assigned params hints
  run : ∀ x : ReplayState Ctx params, (∀ i, (x.1 i).pc = .start) →
    Inevitable (ReplaySystem infos.get gener mode hints params)
      (AllReplayed params (recordsOut gener mode x)) x

theorem inEveryReplay (hlen : infos.length < 2 ^ 29) (haddr : ∀ i ∈ infos, Addressed i)
    (hfills : ∀ p, Writes mode (infos.get p) → Fills gener (infos.get p).md5)
    {Q : (params : List (ReplayParam (Fin infos.length))) → List TraceReplayHint →
      ReplayState Ctx params → ReplayState Ctx params → Prop}
    (h : ∀ params hints, Runs infos gener mode params hints → ∀ x y,
      AllReplayed params (recordsOut gener mode x) y → Q params hints x y) :
    InEveryReplay infos gener mode Q := by
  intro threads hthreads _ rand maxBlks paths
  have hlen' : (List.finRange infos.length).length < 2 ^ 29 := by rwa [List.length_finRange]
  obtain ⟨s, hbuild⟩ := buildTraceContainers_isSome infos.get hlen'
  obtain ⟨a, hdist⟩ := distribute_isSome infos.length rand hthreads (List.nodup_finRange _) hlen'
    hbuild
  refine ⟨s, a, hbuild, hdist, fun hne => ?_⟩
  obtain ⟨params, hints, hsetup⟩ := setupReplay_isSome maxBlks paths hthreads hbuild hdist hne
  obtain ⟨gs, assigned, hready⟩ := setupReplay_ready hthreads hsetup
  have hrec : ∀ i : Fin params.length,
      Replayable infos.get gener mode (params.get i).infosMap := fun i =>
    ⟨fun p _ => haddr _ (List.get_mem infos p), fun p _ hw => hfills p hw⟩
  have hruns : Runs infos gener mode params hints :=
    ⟨⟨_, _, _, _, hready⟩, fun _ hstart =>
      replaySystem_inevitable (independent_workerParts hready.named) hready.cut hrec hstart⟩
  exact ⟨params, hints, hsetup, hready.perm, fun x hstart =>
    (hruns.run x hstart).mono (h params hints hruns x)⟩

variable {params : List (ReplayParam (Fin infos.length))} {hints : List TraceReplayHint}

/-- The file that a finished worker has left. -/
theorem traceFile_of_replayed {x y : ReplayState Ctx params}
    (h : AllReplayed params (recordsOut gener mode x) y) (i : Fin params.length) :
    (y.1 i).pc = .finished ∧
      y.2.files (params.get i).dstfilepath = some (recordsOut gener mode x i).1 ∧
      traceFile y i = (recordsOut gener mode x i).1 := by
  have hfile : y.2.files (params.get i).dstfilepath = some (recordsOut gener mode x i).1 :=
    congrArg Disk.dst (h i).2
  exact ⟨(h i).1, hfile, by rw [traceFile, hfile, Option.getD_some]⟩

end Every

/-! ## The last write of an address -/

section LastWrite

variable {infos : List TraceInfo} {mode : ReplayMode}

/-- Record `q` is the last one written to its LBA. -/
structure LastWrite (infos : List TraceInfo) (mode : ReplayMode) (q : Fin infos.length) : Prop where
  writes : Writes mode (infos.get q)
  last : ∀ r, Writes mode (infos.get r) → (infos.get r).lba = (infos.get q).lba →
    r = q ∨ Precedes infos r q

variable {params : List (ReplayParam (Fin infos.length))} {hints : List TraceReplayHint}

/-- A record is in one worker's share. -/
theorem SetupReady.worker_unique {threads : Nat} {paths : ReplayPaths}
    {gs : List (List (Fin infos.length))} {assigned : List (Nat × List (Fin infos.length))}
    (h : SetupReady infos threads paths gs assigned params hints) {i j : Fin params.length}
    {p : Fin infos.length} (hi : p ∈ (params.get i).infosMap) (hj : p ∈ (params.get j).infosMap) :
    i = j := by
  have hnodup := h.perm.nodup_iff.mpr (List.nodup_finRange _)
  obtain ⟨-, hdisjoint⟩ := List.nodup_flatMap.mp hnodup
  have hpair := List.pairwise_iff_get.mp hdisjoint
  rcases lt_trichotomy i j with hlt | heq | hgt
  · exact absurd hj (hpair i j hlt hi)
  · exact heq
  · exact absurd hi (hpair j i hgt hj)

theorem SetupReady.exists_worker {threads : Nat} {paths : ReplayPaths}
    {gs : List (List (Fin infos.length))} {assigned : List (Nat × List (Fin infos.length))}
    (h : SetupReady infos threads paths gs assigned params hints) (p : Fin infos.length) :
    ∃ i : Fin params.length, p ∈ (params.get i).infosMap := by
  obtain ⟨w, hw, hp⟩ := List.mem_flatMap.mp (h.perm.mem_iff.mpr (List.mem_finRange p))
  obtain ⟨i, rfl⟩ := List.get_of_mem hw
  exact ⟨i, hp⟩

/-- Of the writes that a worker performs at an LBA it has, the last is the last of the trace. -/
theorem getLast?_writes {threads : Nat} {paths : ReplayPaths} {gs : List (List (Fin infos.length))}
    {assigned : List (Nat × List (Fin infos.length))}
    (h : SetupReady infos threads paths gs assigned params hints) (i : Fin params.length)
    {q : Fin infos.length} (hq : LastWrite infos mode q) (hmem : q ∈ (params.get i).infosMap) :
    ((params.get i).infosMap.filter fun p =>
      Writes mode (infos.get p) ∧ (infos.get p).lba = (infos.get q).lba).getLast? = some q := by
  have hwrites : ∀ ps : List (Fin infos.length),
      (ps.filter fun p => Writes mode (infos.get p) ∧ (infos.get p).lba = (infos.get q).lba) =
        (ps.filter fun p => (infos.get p).lba = (infos.get q).lba).filter fun p =>
          Writes mode (infos.get p) := by
    intro ps
    rw [List.filter_filter]
    exact List.filter_congr fun p _ => by simp
  rw [hwrites, filter_infosMap_lba h i hmem, ← hwrites]
  -- in the order of the trace nothing comes behind `q`
  generalize hl : ((byTs infos.get (List.finRange infos.length)).filter fun p =>
    Writes mode (infos.get p) ∧ (infos.get p).lba = (infos.get q).lba) = l
  have hmeml : ∀ r, r ∈ l ↔ Writes mode (infos.get r) ∧ (infos.get r).lba = (infos.get q).lba := by
    intro r
    rw [← hl, List.mem_filter, decide_eq_true_eq]
    exact ⟨fun h => h.2, fun h => ⟨mem_byTs r, h⟩⟩
  have hsorted : l.Pairwise (Precedes infos) := hl ▸ pairwise_byTs.filter _
  obtain ⟨front, back, rfl⟩ := List.append_of_mem ((hmeml q).mpr ⟨hq.writes, rfl⟩)
  have hback : back = [] := by
    rw [List.eq_nil_iff_forall_not_mem]
    intro r hr
    obtain ⟨hw, hlba⟩ := (hmeml r).mp (List.mem_append_right _ (List.mem_cons_of_mem _ hr))
    have hprec := (List.pairwise_cons.mp (List.pairwise_append.mp hsorted).2.1).1 r hr
    rcases hq.last r hw hlba with rfl | hprec'
    · exact not_precedes_self _ hprec
    · exact hprec.asymm hprec'
  rw [hback, List.getLast?_concat]

/-- Where a replay has put the last write of an LBA. -/
theorem readZ_lastWrite {Ctx : Type} [Inhabited Ctx] {gener : Option (RandGener Ctx)}
    {x y : ReplayState Ctx params} (hmode : mode ≠ .append) (hruns : Runs infos gener mode params hints)
    (hy : AllReplayed params (recordsOut gener mode x) y)
    (hapart : ∀ i ∈ infos, ∀ j ∈ infos, i.lba = j.lba ∨ Apart i.lba j.lba) {q : Fin infos.length}
    (hq : LastWrite infos mode q) :
    ∃ i : Fin params.length,
      (traceFile y i).readZ (lbaOffset (infos.get q).lba) BLK_SIZE = recordBlock infos.get gener q ∧
      ∀ j, j ≠ i → (traceFile y j).readZ (lbaOffset (infos.get q).lba) BLK_SIZE =
        (traceFile x j).readZ (lbaOffset (infos.get q).lba) BLK_SIZE := by
  obtain ⟨threads, paths, gs, assigned, hready⟩ := hruns.setup
  have hparts : ∀ p, (infos.get p).lba = (infos.get q).lba ∨
      Apart (infos.get p).lba (infos.get q).lba := fun p =>
    hapart _ (List.get_mem infos p) _ (List.get_mem infos q)
  obtain ⟨i, hi⟩ := hready.exists_worker q
  refine ⟨i, ?_, fun j hj => ?_⟩
  · rw [(traceFile_of_replayed hy i).2.2, recordsOut,
      readZ_execRecords length_recordBlock hmode _ _ fun p _ _ => hparts p,
      getLast?_writes hready i hq hi, Option.map_some, Option.getD_some]
  · -- another worker with the LBA would have `q` as well
    have hnone : ((params.get j).infosMap.filter fun p =>
        Writes mode (infos.get p) ∧ (infos.get p).lba = (infos.get q).lba) = [] := by
      rw [List.filter_eq_nil_iff]
      intro p hp hsel
      have hlba := (of_decide_eq_true hsel).2
      have hall := filter_infosMap_lba hready j hp
      have hqmem : q ∈ (byTs infos.get (List.finRange infos.length)).filter fun r =>
          (infos.get r).lba = (infos.get p).lba :=
        List.mem_filter.mpr ⟨mem_byTs q, decide_eq_true hlba.symm⟩
      rw [← hall] at hqmem
      exact hj (hready.worker_unique (List.mem_of_mem_filter hqmem) hi)
    rw [(traceFile_of_replayed hy j).2.2, recordsOut,
      readZ_execRecords length_recordBlock hmode _ _ fun p _ _ => hparts p, hnone,
      List.getLast?_nil, Option.map_none, Option.getD_none]

variable (infos mode)

end LastWrite

/-! ## Replaying again -/

section Again

variable {P : Type} {info : P → TraceInfo} {block : P → List Byte} {mode : ReplayMode}

/-- Reads aside, a replay that does not append is a sequence of block writes. -/
theorem execRecords_file (hmode : mode ≠ .append) (d : File Byte × List Byte) (ps : List P) :
    (execRecords info mode block d ps).1 =
      (execRecords info .writeonly block d (ps.filter fun p => Writes mode (info p))).1 := by
  induction ps using List.reverseRecOn with
  | nil => rfl
  | append_singleton ps p ih =>
      have hwo : Writes .writeonly (info p) := Or.inl (by decide)
      rw [execRecords_append, List.filter_append, execRecords_append]
      by_cases hw : Writes mode (info p)
      · rw [List.filter_cons_of_pos (by simpa using hw), List.filter_nil]
        simp only [execRecords, List.foldl_cons, List.foldl_nil, execRecord] at ih ⊢
        rw [if_pos hw, if_neg hmode, if_pos hwo, if_neg (by decide), ih]
      · rw [List.filter_cons_of_neg (by simpa using hw), List.filter_nil]
        simp only [execRecords, List.foldl_cons, List.foldl_nil, execRecord] at ih ⊢
        rw [if_neg hw, ih]

/-- The same block writes once more. -/
theorem execRecords_again (hblock : ∀ p, (block p).length = BLK_SIZE) (hmode : mode ≠ .append)
    (d : File Byte × List Byte) (dump : List Byte) (ps : List P) :
    (execRecords info mode block ((execRecords info mode block d ps).1, dump) ps).1 =
      (execRecords info mode block d ps).1 := by
  rw [execRecords_file hmode, execRecords_file hmode d]
  generalize ps.filter (fun p => Writes mode (info p)) = qs
  apply File.ext
  · -- the size was a maximum already
    have hmax : ∀ (qs : List P) (size : Nat),
        qs.foldl (fun size p => max size (lbaOffset (info p).lba + BLK_SIZE)) size =
          max size (qs.foldl (fun size p => max size (lbaOffset (info p).lba + BLK_SIZE)) 0) := by
      intro qs
      induction qs with
      | nil => exact fun size => (Nat.max_zero size).symm
      | cons q qs ih =>
          intro size
          rw [List.foldl_cons, List.foldl_cons, ih, ih (max 0 _)]
          omega
    rw [size_execRecords info hblock, size_execRecords info hblock, hmax, hmax qs d.1.size]
    omega
  · rw [data_execRecords, data_execRecords, writeAll_writeAll]

/-- A replay started on the files of the one before, with the same options and in any
    run, leaves them as they are. -/
def ReplaysAgain {Ctx : Type} (infos : List TraceInfo) (mode : ReplayMode)
    (gener : Option (RandGener Ctx)) : Prop :=
  InEveryReplay infos gener mode fun params hints _ y =>
    ∀ x' : ReplayState Ctx params, (∀ i, (x'.1 i).pc = .start) →
      (∀ i : Fin params.length, x'.2.files (params.get i).dstfilepath =
        y.2.files (params.get i).dstfilepath) →
      Inevitable (ReplaySystem infos.get gener mode hints params)
        (fun z => ∀ i : Fin params.length, (z.1 i).pc = .finished ∧
          z.2.files (params.get i).dstfilepath = y.2.files (params.get i).dstfilepath) x'

theorem replay_again {Ctx : Type} [Inhabited Ctx] (infos : List TraceInfo)
    (gener : Option (RandGener Ctx)) (hmode : mode ≠ .append) (hlen : infos.length < 2 ^ 29)
    (haddr : ∀ i ∈ infos, Addressed i)
    (hmd5 : ∀ i ∈ infos, Writes mode i →
      i.md5.length / 32 ∈ (if gener.isSome then [1, 2, 4, 5, 8] else [1, 2, 4, 8])) :
    ReplaysAgain infos mode gener := by
  refine inEveryReplay hlen haddr (fun p hw =>
    (fills_iff gener (infos.get p).md5_le).mpr (hmd5 _ (List.get_mem infos p) hw))
    fun params hints hruns x y hy x' hstart hfiles => ?_
  refine (hruns.run x' hstart).mono fun z hz i => ?_
  obtain ⟨hpc, hfile, -⟩ := traceFile_of_replayed hz i
  obtain ⟨-, hfile', hsame⟩ := traceFile_of_replayed hy i
  have hstartFile : traceFile x' i = (recordsOut gener mode x i).1 := by
    rw [← hsame, traceFile, hfiles, traceFile]
  refine ⟨hpc, ?_⟩
  rw [hfile, hfile', recordsOut, hstartFile, recordsOut, execRecords_again length_recordBlock hmode]

/-- Two overlapping writes. -/
theorem replay_again_sample :
    ReplaysAgain [sampleInfo 1 0 charW 0x61 32, sampleInfo 1 4 charW 0x62 32] .writeonly
      (randGener id .null) := by
  apply replay_again <;> decide

end Again

/-! ## Appending -/

section Appending

variable {infos : List TraceInfo}

/-- The file has grown by these blocks. -/
structure Appended (old f : File Byte) (blocks : List (List Byte)) : Prop where
  size : f.size = old.size + blocks.length * BLK_SIZE
  kept : f.readZ 0 old.size = old.readZ 0 old.size
  blocks : f.pieces old.size BLK_SIZE blocks.length = blocks

theorem appended_append (f : File Byte) {blocks : List (List Byte)}
    (hlen : ∀ b ∈ blocks, b.length = BLK_SIZE) : Appended f (f.append blocks.flatten) blocks where
  size := by
    rw [File.size_append, List.length_flatten, List.map_congr_left hlen, List.map_const',
      List.sum_replicate_nat]
  kept := File.readZ_pwrite_apart f (Or.inr (Nat.le_of_eq (Nat.zero_add _)))
  blocks := File.pieces_append f hlen

variable {Ctx : Type} [Inhabited Ctx] {gener : Option (RandGener Ctx)}
  {params : List (ReplayParam (Fin infos.length))}

/-- A worker that appends adds the blocks of its records in turn. -/
theorem appended_recordsOut (x : ReplayState Ctx params) (i : Fin params.length) :
    Appended (traceFile x i) (recordsOut gener .append x i).1
      ((params.get i).infosMap.map (recordBlock infos.get gener)) := by
  have hout : (recordsOut gener .append x i).1 = (traceFile x i).append
      ((params.get i).infosMap.map (recordBlock infos.get gener)).flatten := by
    rw [← List.flatMap_def, recordsOut]
    by_cases hne : (params.get i).infosMap = []
    · rw [hne, List.flatMap_nil, File.append_nil]
      rfl
    · rw [execRecords_appends .append _ rfl _ _ hne]
  rw [hout]
  refine appended_append _ fun b hb => ?_
  obtain ⟨p, -, rfl⟩ := List.mem_map.mp hb
  exact length_recordBlock p

theorem SetupReady.infosMap_sorted {threads : Nat} {paths : ReplayPaths}
    {gs : List (List (Fin infos.length))} {assigned : List (Nat × List (Fin infos.length))}
    {hints : List TraceReplayHint} (h : SetupReady infos threads paths gs assigned params hints)
    (i : Fin params.length) :
    (params.get i).infosMap.Pairwise fun p q => (infos.get p).ts ≤ (infos.get q).ts := by
  obtain ⟨runs, hready⟩ := h.ready i
  have hsorted : (byTs infos.get (shareOf assigned i)).Pairwise fun p q =>
      tsKey (fun p => (infos.get p).ts) p ≤ tsKey (fun p => (infos.get p).ts) q :=
    (isStableSort_stableSort _).sorted
  rw [hready.infosMap]
  exact hsorted.imp fun h => BitVec.le_def.mpr h

variable (infos gener)

/-- There are blocks, each made of its record, such that in append mode every file keeps
    what it held and grows by the blocks of the records of its worker, in the order of
    their timestamps. -/
def AppendConserves : Prop :=
  ∃ blk : Fin infos.length → List Byte,
    (∀ p, MakesBlock gener (infos.get p).md5 (blk p)) ∧
    InEveryReplay infos gener .append fun params _ x y => ∀ i, (y.1 i).pc = .finished ∧
      (params.get i).infosMap.Pairwise (fun p q => (infos.get p).ts ≤ (infos.get q).ts) ∧
      ∃ f, y.2.files (params.get i).dstfilepath = some f ∧
        Appended (traceFile x i) f ((params.get i).infosMap.map blk)

theorem append_conserves (hlen : infos.length < 2 ^ 29) (haddr : ∀ i ∈ infos, Addressed i)
    (hmd5 : ∀ i ∈ infos,
      i.md5.length / 32 ∈ (if gener.isSome then [1, 2, 4, 5, 8] else [1, 2, 4, 8])) :
    AppendConserves infos gener := by
  have hfills : ∀ p, Fills gener (infos.get p).md5 := fun p =>
    (fills_iff gener (infos.get p).md5_le).mpr (hmd5 _ (List.get_mem infos p))
  refine ⟨recordBlock infos.get gener, fun p =>
    makesBlock_blockOf gener (infos.get p).md5_le (hfills p),
    inEveryReplay hlen haddr (fun p _ => hfills p) fun params hints hruns x y hy i => ?_⟩
  obtain ⟨threads, paths, gs, assigned, hready⟩ := hruns.setup
  obtain ⟨hpc, hfile, -⟩ := traceFile_of_replayed hy i
  exact ⟨hpc, hready.infosMap_sorted i, _, hfile, appended_recordsOut x i⟩

/-- Three records, two of them with one LBA. -/
theorem append_conserves_sample :
    AppendConserves [sampleInfo 2 0 charW 0x61 32, sampleInfo 1 0 charW 0x62 64,
      sampleInfo 1 8 charW 0x63 32] (randGener id .lcg) := by
  apply append_conserves <;> decide

/-! ### Duplicates -/

/-- The blocks that the files have behind what they held before. -/
def addedBlocks {infos : List TraceInfo} {Ctx : Type}
    {params : List (ReplayParam (Fin infos.length))} (x y : ReplayState Ctx params) :
    List (List Byte) :=
  (List.finRange params.length).flatMap fun i =>
    (traceFile y i).pieces (traceFile x i).size BLK_SIZE
      (((traceFile y i).size - (traceFile x i).size) / BLK_SIZE)

/-- All files together have the blocks of the trace. -/
theorem addedBlocks_perm {gener : Option (RandGener Ctx)} {x y : ReplayState Ctx params}
    (hperm : (params.flatMap ReplayParam.infosMap).Perm (List.finRange infos.length))
    (hy : AllReplayed params (recordsOut gener .append x) y) :
    (addedBlocks x y).Perm (infos.map fun i => blockOf gener i.md5) := by
  have hpieces : ∀ i : Fin params.length, (traceFile y i).pieces (traceFile x i).size BLK_SIZE
      (((traceFile y i).size - (traceFile x i).size) / BLK_SIZE) =
        (params.get i).infosMap.map (recordBlock infos.get gener) := by
    intro i
    have happended := @appended_recordsOut infos Ctx _ gener params x i
    rw [(traceFile_of_replayed hy i).2.2, happended.size, Nat.add_sub_cancel_left,
      Nat.mul_div_cancel _ (by decide)]
    exact happended.blocks
  have hall : addedBlocks x y =
      (params.flatMap ReplayParam.infosMap).map (recordBlock infos.get gener) := by
    rw [addedBlocks, List.flatMap_congr fun i _ => hpieces i, List.map_flatMap]
    conv_rhs => rw [← List.map_get_finRange params, List.flatMap_map]
  have hinfos : (List.finRange infos.length).map (recordBlock infos.get gener) =
      infos.map fun i => blockOf gener i.md5 := by
    conv_rhs => rw [← List.map_get_finRange infos, List.map_map]
    refine List.map_congr_left fun p _ => ?_
    rw [recordBlock, Function.comp_apply]
  rw [hall, ← hinfos]
  exact hperm.map _

theorem MakesBlock.eq_blockOf {gener : Option (RandGener Ctx)} {md5 b : List Byte}
    (hle : md5.length ≤ 256) (h : MakesBlock gener md5 b) : b = blockOf gener md5 := by
  refine (filledBlock_iff hle (h.fills hle) b).mp ?_
  obtain ⟨ctx', hfill⟩ := h.2 (fun _ => 0) default
  have hbytes := bytesOf_writeAt (fun _ => (0 : Byte)) 0 b
  rw [Nat.zero_add, h.1, show bytesOf (fun _ => (0 : Byte)) 0 = [] from rfl, List.nil_append,
    bytesOf] at hbytes
  refine ⟨BLK_SIZE, 0, _, default, _, ctx', Nat.le_of_eq (Nat.zero_add _), hfill, ?_⟩
  simp only [Nat.zero_add]
  exact hbytes.symm

theorem count_map_of_inj {α β : Type} [BEq α] [LawfulBEq α] [BEq β] [LawfulBEq β] {f : α → β}
    {l : List α} {a : α} (hinj : ∀ b ∈ l, f b = f a → b = a) : (l.map f).count (f a) = l.count a := by
  rw [List.count, List.countP_map, List.count]
  refine List.countP_congr fun b hb => ?_
  simp only [Function.comp_apply, beq_iff_eq]
  exact ⟨hinj b hb, fun h => h ▸ rfl⟩

/-- Blocks of fingerprints of one length occur as often as the fingerprints. -/
theorem addedBlocks_count {randR : Word32 → Word32} {k : Nat} (hk : k ∈ [1, 2, 4, 8])
    (hmd5 : ∀ i ∈ infos, i.md5.length = 32 * k)
    {x y : ReplayState RandGenerType.null.Ctx params}
    (hperm : (params.flatMap ReplayParam.infosMap).Perm (List.finRange infos.length))
    (hy : AllReplayed params (recordsOut (randGener randR .null) .append x) y) :
    (addedBlocks x y).length = infos.length ∧
      ∀ i ∈ infos, ∀ b, MakesBlock (randGener randR .null) i.md5 b →
        (addedBlocks x y).count b = (infos.map TraceInfo.md5).count i.md5 := by
  have hblocks := addedBlocks_perm infos hperm hy
  refine ⟨by rw [hblocks.length_eq, List.length_map], fun i hi b hb => ?_⟩
  have hmap : (infos.map fun i => blockOf (randGener randR .null) i.md5) =
      (infos.map TraceInfo.md5).map (blockOf (randGener randR .null)) := by
    rw [List.map_map, Function.comp_def]
  have hinj : ∀ md5 ∈ infos.map TraceInfo.md5, blockOf (randGener randR .null) md5 =
      blockOf (randGener randR .null) i.md5 → md5 = i.md5 := by
    intro md5 hmem heq
    obtain ⟨j, hj, rfl⟩ := List.mem_map.mp hmem
    exact blockOf_null_inj hk (hmd5 j hj) (hmd5 i hi) heq
  rw [hblocks.count_eq, hb.eq_blockOf i.md5_le, hmap, count_map_of_inj hinj]

/-- Appended with the null generator, each content is added as often as its fingerprint
    occurs in the trace, and nothing else is added. -/
theorem append_duplication (randR : Word32 → Word32) {k : Nat} (hk : k ∈ [1, 2, 4, 8])
    (hlen : infos.length < 2 ^ 29) (haddr : ∀ i ∈ infos, Addressed i)
    (hmd5 : ∀ i ∈ infos, i.md5.length = 32 * k) :
    InEveryReplay infos (randGener randR .null) .append fun _ _ x y =>
      (∀ i, (y.1 i).pc = .finished) ∧
      (addedBlocks x y).length = infos.length ∧
      ∀ i ∈ infos, ∀ b, MakesBlock (randGener randR .null) i.md5 b →
        (addedBlocks x y).count b = (infos.map TraceInfo.md5).count i.md5 := by
  refine inEveryReplay hlen haddr (fun p _ => fills_null hk (hmd5 _ (List.get_mem infos p)))
    fun params hints hruns x y hy => ?_
  obtain ⟨threads, paths, gs, assigned, hready⟩ := hruns.setup
  exact ⟨fun i => (hy i).1, addedBlocks_count infos hk hmd5 hready.perm hy⟩

/-- Three records, two of them with one fingerprint. -/
theorem append_duplication_sample :
    let infos := [sampleInfo 1 0 charW 0x61 64, sampleInfo 2 8 charW 0x62 64,
      sampleInfo 3 16 charW 0x61 64]
    InEveryReplay infos (randGener id .null) .append fun _ _ x y =>
      (∀ i, (y.1 i).pc = .finished) ∧
      (addedBlocks x y).length = infos.length ∧
      ∀ i ∈ infos, ∀ b, MakesBlock (randGener id .null) i.md5 b →
        (addedBlocks x y).count b = (infos.map TraceInfo.md5).count i.md5 :=
  append_duplication _ id (show 2 ∈ [1, 2, 4, 8] by decide) (by decide) (by decide) (by decide)

end Appending

end GogetaTools.Replay
