/-
  GogetaTools.Replay.SingleWorker

  Write-only replay with one worker.

  The worker performs the block writes of the trace regrouped by LBA and sorted
  by timestamp.  The sort is stable, but what it sees is the regrouped trace:
  records with equal timestamps take effect group by group.  Where such records
  do not overlap this is the order of the trace.
-/

import GogetaTools.Replay.ReadBack

namespace GogetaTools.Replay

open Map WriteLog ByteFile EveryRun StableSort

/-! ## What a sequence of block writes leaves -/

section Writes

variable {P : Type} (info : P → TraceInfo) (block : P → List Byte)

def blockWrite (p : P) : Nat × List Byte := (lbaOffset (info p).lba, block p)

theorem data_execRecords (d : File Byte × List Byte) (ps : List P) :
    (execRecords info .writeonly block d ps).1.data =
      writeAll d.1.data (ps.map (blockWrite info block)) := by
  induction ps generalizing d with
  | nil => rfl
  | cons p ps ih =>
      rw [execRecords, List.foldl_cons, ← execRecords, ih, List.map_cons, writeAll_cons, execRecord,
        if_pos (show Writes .writeonly (info p) from Or.inl (by decide)), if_neg (by decide)]
      rfl

variable {block} (hblock : ∀ p, (block p).length = BLK_SIZE)
include hblock

/-- The size is the largest end of a write, if not that of the file before. -/
theorem size_execRecords (d : File Byte × List Byte) (ps : List P) :
    (execRecords info .writeonly block d ps).1.size =
      ps.foldl (fun size p => max size (lbaOffset (info p).lba + BLK_SIZE)) d.1.size := by
  induction ps generalizing d with
  | nil => rfl
  | cons p ps ih =>
      have hne : block p ≠ [] := by
        intro hnil
        have hlen := hblock p
        rw [hnil] at hlen
        cases hlen
      rw [execRecords, List.foldl_cons, ← execRecords, ih, List.foldl_cons, execRecord,
        if_pos (show Writes .writeonly (info p) from Or.inl (by decide)), if_neg (by decide),
        File.size_pwrite hne, hblock]

/-- Two orders by timestamp leave the same file if records with equal timestamps
    either have one LBA, and then one order, or do not overlap. -/
theorem execRecords_order {ps qs : List P} (hperm : ps.Perm qs)
    (hps : ps.Pairwise fun p q => tsKey (fun p => (info p).ts) p ≤ tsKey (fun p => (info p).ts) q)
    (hqs : qs.Pairwise fun p q => tsKey (fun p => (info p).ts) p ≤ tsKey (fun p => (info p).ts) q)
    (hlba : ∀ x, ps.filter (fun p => (info p).lba = x) = qs.filter fun p => (info p).lba = x)
    (hties : ∀ p ∈ ps, ∀ q ∈ ps, (info p).ts = (info q).ts →
      (info p).lba = (info q).lba ∨ Apart (info p).lba (info q).lba) (f : File Byte) :
    (execRecords info .writeonly block (f, []) ps).1 =
      (execRecords info .writeonly block (f, []) qs).1 := by
  apply File.ext
  · rw [size_execRecords info hblock, size_execRecords info hblock]
    apply hperm.foldl_eq'
    intro p _ q _ size
    omega
  · funext i
    rw [data_execRecords, data_execRecords, ← writeAll_filter_covers, List.filter_map,
      ← writeAll_filter_covers _ (qs.map _), List.filter_map]
    -- the records that cover the byte are the same, in the same order
    congr 2
    apply eq_of_sorted (hps.filter _) (hqs.filter _)
    intro t
    rw [List.filter_filter, List.filter_filter]
    generalize hsel : (fun q => decide (tsKey (fun p => (info p).ts) q = t) &&
      ((fun w => decide (WriteLog.Covers w i)) ∘ blockWrite info block) q) = sel
    have hsel_iff : ∀ q, sel q = true ↔
        tsKey (fun p => (info p).ts) q = t ∧ WriteLog.Covers (blockWrite info block q) i := by
      intro q
      rw [← hsel]
      simp
    by_cases hex : ∃ p ∈ ps, sel p = true
    · -- and they all have one LBA
      obtain ⟨p, hp, hpsel⟩ := hex
      obtain ⟨ht, hcov⟩ := (hsel_iff p).mp hpsel
      have hone : ∀ l : List P, l.Perm ps →
          l.filter sel = (l.filter fun q => (info q).lba = (info p).lba).filter sel := by
        intro l hl
        rw [List.filter_filter]
        apply List.filter_congr
        intro q hq
        by_cases hqsel : sel q = true
        · obtain ⟨htq, hcovq⟩ := (hsel_iff q).mp hqsel
          have hts : (info q).ts = (info p).ts := BitVec.eq_of_toNat_eq (htq.trans ht.symm)
          have hlbaq : (info q).lba = (info p).lba := by
            refine (hties q (hl.mem_iff.mp hq) p hp hts).resolve_right fun hap => ?_
            simp only [WriteLog.Covers, blockWrite, hblock, lbaOffset, Apart, BLK_SIZE] at hcov hcovq hap
            omega
          simp [hqsel, hlbaq]
        · simp [hqsel]
      rw [hone ps (List.Perm.refl ps), hone qs hperm.symm, hlba]
    · have hnone : ∀ l : List P, l.Perm ps → l.filter sel = [] := by
        intro l hl
        rw [List.filter_eq_nil_iff]
        intro q hq hqsel
        exact hex ⟨q, hl.mem_iff.mp hq, hqsel⟩
      rw [hnone ps (List.Perm.refl ps), hnone qs hperm.symm]

end Writes

/-! ## One worker -/

section Single

variable {infos : List TraceInfo} {paths : ReplayPaths} {gs : List (List (Fin infos.length))}
  {assigned : List (Nat × List (Fin infos.length))}
  {params : List (ReplayParam (Fin infos.length))} {hints : List TraceReplayHint}

/-- The only worker has all groups. -/
theorem SetupReady.infosMap_single (h : SetupReady infos 1 paths gs assigned params hints)
    (i : Fin params.length) : (params.get i).infosMap = byTs infos.get gs.flatten := by
  obtain ⟨runs, hready⟩ := h.ready i
  have hi : i.val = 0 := by
    have := h.length
    omega
  have hall : (assigned.filter fun x => x.1 = 0) = assigned := by
    rw [List.filter_eq_self]
    intro x hx
    exact decide_eq_true (Nat.lt_one_iff.mp (h.assigned_lt x hx))
  rw [hready.infosMap, hi, shareOf, hall, h.assigned_snd]

/-- Regrouped or not, the records of an LBA are the same. -/
theorem Groups.flatten_filter_lba (h : Groups infos.get (List.finRange infos.length) gs) (x : Word) :
    gs.flatten.filter (fun p => (infos.get p).lba = x) =
      (List.finRange infos.length).filter fun p => (infos.get p).lba = x := by
  rcases h.filter_flatten (List.Sublist.refl gs) x with hnone | hall
  · rw [hnone, eq_comm, List.filter_eq_nil_iff]
    intro p hp hlba
    have hmem : p ∈ gs.flatten.filter fun p => (infos.get p).lba = x :=
      List.mem_filter.mpr ⟨(h.mem_iff p).mpr hp, hlba⟩
    rw [hnone] at hmem
    cases hmem
  · exact hall

/-- With one worker the set-up completes for every trace that has a record. -/
theorem setupReplay_single (hne : infos ≠ []) (hlen : infos.length < 2 ^ 29) (maxBlks : Word)
    (rand : Nat → Nat) (paths : ReplayPaths) :
    ∃ params hints, setupReplay infos 1 maxBlks rand paths = some (params, hints) := by
  have hlen' : (List.finRange infos.length).length < 2 ^ 29 := by rwa [List.length_finRange]
  obtain ⟨s, hbuild⟩ := buildTraceContainers_isSome infos.get hlen'
  obtain ⟨a, hdist⟩ := distribute_isSome infos.length rand Nat.zero_lt_one
    (List.nodup_finRange _) hlen' hbuild
  obtain ⟨map, bs, workers, -, hgroups, hworkers, hinv⟩ :=
    distribute_inv Nat.zero_lt_one hbuild hdist
  refine setupReplay_isSome maxBlks paths Nat.zero_lt_one hbuild hdist fun tc htc hnil => ?_
  obtain ⟨tc', htc'⟩ := List.length_eq_one_iff.mp hinv.length
  rw [htc', List.mem_singleton] at htc
  have hcount : (a.params.flatMap TraceContainer.infosMap).length = infos.length := by
    rw [hinv.params_flatMap, (shares_perm hinv.assigned_lt).length_eq,
      map_snd_zip_workers hworkers, (hgroups.flatten_perm (List.nodup_finRange _)).length_eq,
      List.length_finRange]
  rw [htc', ← htc] at hcount
  simp only [List.flatMap_singleton, hnil, List.length_nil] at hcount
  exact hne (List.length_eq_zero_iff.mp hcount.symm)

variable (infos)

/-- The final file of a write-only replay with one worker: the block writes in
    the order `order` of the records, on the file that was there before. -/
def LeavesWrites {Ctx : Type} [Inhabited Ctx] (gener : Option (RandGener Ctx))
    (params : List (ReplayParam (Fin infos.length))) (hints : List TraceReplayHint)
    (paths : ReplayPaths) (order : List (Fin infos.length)) : Prop :=
  ∀ x : (Fin params.length → Worker Ctx) × FileSystem, (∀ i, (x.1 i).pc = .start) →
    Inevitable (ReplaySystem infos.get gener .writeonly hints params)
      (fun y => (∀ i, (y.1 i).pc = .finished) ∧
        y.2.files (paths.dst 0) = some (execRecords infos.get .writeonly
          (recordBlock infos.get gener) ((x.2.files (paths.dst 0)).getD File.empty, []) order).1) x

/-- The writes take effect in the order of a stable timestamp sort of the trace
    regrouped by LBA, which is that of the trace if records with equal timestamps
    have one LBA or do not overlap. -/
def SingleWorkerOrder {Ctx : Type} [Inhabited Ctx] (gener : Option (RandGener Ctx)) : Prop :=
  ∀ (maxContinuous4KBlks : Word) (rand : Nat → Nat) (paths : ReplayPaths),
    ∃ params hints gs,
      setupReplay infos 1 maxContinuous4KBlks rand paths = some (params, hints) ∧
      Groups infos.get (List.finRange infos.length) gs ∧
      LeavesWrites infos gener params hints paths (byTs infos.get gs.flatten) ∧
      ((∀ i ∈ infos, ∀ j ∈ infos, i.ts = j.ts → i.lba = j.lba ∨ Apart i.lba j.lba) →
        LeavesWrites infos gener params hints paths
          (byTs infos.get (List.finRange infos.length)))

variable {infos}

theorem leavesWrites_single {Ctx : Type} [Inhabited Ctx] {gener : Option (RandGener Ctx)}
    (hready : SetupReady infos 1 paths gs assigned params hints)
    (haddr : ∀ i ∈ infos, Addressed i)
    (hmd5 : ∀ i ∈ infos,
      i.md5.length / 32 ∈ (if gener.isSome then [1, 2, 4, 5, 8] else [1, 2, 4, 8])) :
    LeavesWrites infos gener params hints paths (byTs infos.get gs.flatten) := by
  intro x hstart
  have hrec : ∀ i : Fin params.length,
      Replayable infos.get gener .writeonly (params.get i).infosMap := fun i =>
    ⟨fun p _ => haddr _ (List.get_mem infos p),
      fun p _ _ => (fills_iff gener (infos.get p).md5_le).mpr (hmd5 _ (List.get_mem infos p))⟩
  refine (replaySystem_inevitable (independent_workerParts hready.named) hready.cut hrec hstart).mono ?_
  intro y hy
  refine ⟨fun i => (hy i).1, ?_⟩
  have hfirst : 0 < params.length := by rw [hready.length]; decide
  have hdisk := congrArg Disk.dst (hy ⟨0, hfirst⟩).2
  have hname := (hready.named ⟨0, hfirst⟩).1
  simp only [view, workerParts, hname, hready.infosMap_single] at hdisk
  exact hdisk

variable (infos)

theorem singleWorker_order {Ctx : Type} [Inhabited Ctx] (gener : Option (RandGener Ctx))
    (hne : infos ≠ []) (hlen : infos.length < 2 ^ 29) (haddr : ∀ i ∈ infos, Addressed i)
    (hmd5 : ∀ i ∈ infos,
      i.md5.length / 32 ∈ (if gener.isSome then [1, 2, 4, 5, 8] else [1, 2, 4, 8])) :
    SingleWorkerOrder infos gener := by
  intro maxBlks rand paths
  obtain ⟨params, hints, hsetup⟩ := setupReplay_single hne hlen maxBlks rand paths
  obtain ⟨gs, assigned, hready⟩ := setupReplay_ready Nat.zero_lt_one hsetup
  have hwrites := leavesWrites_single hready haddr hmd5
  refine ⟨params, hints, gs, hsetup, hready.groups, hwrites, fun hties x hstart => ?_⟩
  -- in trace order the writes leave the same file
  have hsame : ∀ f, (execRecords infos.get .writeonly (recordBlock infos.get gener) (f, [])
        (byTs infos.get gs.flatten)).1 =
      (execRecords infos.get .writeonly (recordBlock infos.get gener) (f, [])
        (byTs infos.get (List.finRange infos.length))).1 := by
    intro f
    apply execRecords_order infos.get length_recordBlock
    · exact (stableSort_perm _ _).trans
        ((hready.groups.flatten_perm (List.nodup_finRange _)).trans (stableSort_perm _ _).symm)
    · exact (isStableSort_stableSort _).sorted
    · exact (isStableSort_stableSort _).sorted
    · intro lba
      rw [byTs, byTs, stableSort_filter, stableSort_filter, hready.groups.flatten_filter_lba]
    · intro p _ q _ hts
      exact hties _ (List.get_mem infos p) _ (List.get_mem infos q) hts
  refine (hwrites x hstart).mono fun y hy => ?_
  rw [← hsame]
  exact hy

end Single

/-- Three writes, two of them with one timestamp and one LBA. -/
theorem singleWorker_order_sample :
    SingleWorkerOrder [sampleInfo 1 0 charW 0x61 32, sampleInfo 2 4 charW 0x62 32,
      sampleInfo 2 4 charW 0x63 32] (randGener id .null) := by
  apply singleWorker_order <;> decide

/-- LBAs 0, 4 and 0, the last two with one timestamp. -/
def overlapTrace : List TraceInfo :=
  [sampleInfo 1 0 charW 0x61 32, sampleInfo 2 4 charW 0x62 32, sampleInfo 2 0 charW 0x63 32]

/-- The write of LBA 4 is the last one, though it is not the last of the trace:
    byte 2048 is `'b'`, and not `'c'`. -/
theorem singleWorker_not_traceOrder :
    ∃ params hints,
      setupReplay overlapTrace 1 1 (fun _ => 0) ⟨[], []⟩ = some (params, hints) ∧
      ¬ LeavesWrites overlapTrace (randGener id .null) params hints ⟨[], []⟩
        (byTs overlapTrace.get (List.finRange overlapTrace.length)) := by
  obtain ⟨params, hints, hsetup⟩ := setupReplay_single
    (show overlapTrace ≠ [] by decide) (by decide) 1 (fun _ => 0) ⟨[], []⟩
  refine ⟨params, hints, hsetup, fun htrace => ?_⟩
  obtain ⟨gs, assigned, hready⟩ := setupReplay_ready Nat.zero_lt_one hsetup
  have hregrouped : LeavesWrites overlapTrace (randGener id .null) params hints ⟨[], []⟩ _ :=
    leavesWrites_single hready (by decide) (by decide)
  -- both orders, evaluated
  have hvals : (setupReplay overlapTrace 1 1 (fun _ => 0) ⟨[], []⟩).map
      (fun r => r.1.map fun w => w.infosMap.map Fin.val) = some [[0, 2, 1]] := rfl
  rw [hsetup, Option.map_some, Option.some.injEq] at hvals
  have horder : byTs overlapTrace.get gs.flatten =
      [⟨0, by decide⟩, ⟨2, by decide⟩, ⟨1, by decide⟩] := by
    obtain ⟨w, rfl⟩ := List.length_eq_one_iff.mp hready.length
    have hw := hready.infosMap_single ⟨0, Nat.zero_lt_one⟩
    rw [List.map_singleton, List.cons.injEq] at hvals
    rw [← hw]
    exact List.map_injective_iff.mpr Fin.val_injective hvals.1
  have htraceOrder : byTs overlapTrace.get (List.finRange overlapTrace.length) =
      [⟨0, by decide⟩, ⟨1, by decide⟩, ⟨2, by decide⟩] :=
    stableSort_eq (IsStableSort.of_sorted (by decide))
  have hcode : (execRecords overlapTrace.get .writeonly
      (recordBlock overlapTrace.get (randGener id .null)) (File.empty, [])
      [⟨0, by decide⟩, ⟨2, by decide⟩, ⟨1, by decide⟩]).1.data 2048 = 0x62 := by decide +kernel
  have hstable : (execRecords overlapTrace.get .writeonly
      (recordBlock overlapTrace.get (randGener id .null)) (File.empty, [])
      [⟨0, by decide⟩, ⟨1, by decide⟩, ⟨2, by decide⟩]).1.data 2048 = 0x63 := by decide +kernel
  -- a run would have to end with both files
  let x : (Fin params.length → Worker RandGenerType.null.Ctx) × FileSystem :=
    (fun _ => ⟨.start, fun _ => 0, ()⟩, ⟨fun _ => none, fun _ => []⟩)
  obtain ⟨y, ⟨-, hy⟩, -, hy'⟩ := (hregrouped x fun _ => rfl).common (htrace x fun _ => rfl)
    (fun t ht => not_step_of_finished ht.1) (fun t ht => not_step_of_finished ht.1)
  rw [hy, Option.some.injEq, horder, htraceOrder] at hy'
  have hbyte := congrArg (fun f => f.data 2048) hy'
  exact absurd (hcode.symm.trans (hbyte.trans hstable)) (by decide)

end GogetaTools.Replay
