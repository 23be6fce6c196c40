/-
  GogetaTools.Replay.FiuOutcome

  From the text of a trace in the FIU format to the blocks on disk.

  In write-only mode `parse_trace_info` drops the reads; in read-write mode the
  workers perform them.  Both ways the files end with the blocks of the last
  writes in the text (`fiu_lastWrites`): `writesAt` reads them off the text and
  knows no mode.
-/

import GogetaTools.Replay.Outcome
import GogetaTools.Replay.Parse

namespace GogetaTools.Replay

open EveryRun StableSort Stdio

/-! ## The writes in the text -/

def fiuWrites (items : List FiuLine) : List FiuRecord :=
  (items.filterMap FiuLine.record?).filter fun r => r.rw = charW

/-- The writes of an address in the order of their timestamps, those of one timestamp as they
    stand in the text. -/
def writesAt (items : List FiuLine) (lba : Word) : List FiuRecord :=
  (stableSort (fun r => r.ts.toNat) (fiuWrites items)).filter fun r => r.lba = lba

/-- In every mode the records that are stored and written are the writes. -/
theorem filter_keptRecords (mode : ReplayMode) (items : List FiuLine) :
    (keptRecords mode items).filter (fun i => Writes mode i) = (fiuWrites items).map FiuRecord.info := by
  rw [keptRecords, List.filter_map, List.filter_filter, fiuWrites]
  congr 1
  apply List.filter_congr
  intro r _
  have hrw : r.info.rw = r.rw := rfl
  cases mode <;> simp [keeps, Writes, hrw]

/-- The writes of an address among the records of the trace are those of the text. -/
theorem map_writesAt (mode : ReplayMode) (items : List FiuLine) (lba : Word) {infos : List TraceInfo}
    (hinfos : infos = keptRecords mode items) :
    ((byTs infos.get (List.finRange infos.length)).filter fun p =>
        Writes mode (infos.get p) ∧ (infos.get p).lba = lba).map infos.get =
      (writesAt items lba).map FiuRecord.info := by
  have hsorted : (byTs infos.get (List.finRange infos.length)).map infos.get =
      stableSort (tsKey TraceInfo.ts) infos := by
    rw [byTs]
    refine (map_stableSort (tsKey TraceInfo.ts) infos.get _).trans ?_
    rw [List.map_get_finRange]
  have hsplit : ∀ l : List TraceInfo, l.filter (fun i => Writes mode i ∧ i.lba = lba) =
      (l.filter fun i => Writes mode i).filter fun i => i.lba = lba := by
    intro l
    rw [List.filter_filter]
    exact List.filter_congr fun i _ => by simp [and_comm]
  calc ((byTs infos.get (List.finRange infos.length)).filter fun p =>
        Writes mode (infos.get p) ∧ (infos.get p).lba = lba).map infos.get
      = ((byTs infos.get (List.finRange infos.length)).map infos.get).filter fun i =>
          Writes mode i ∧ i.lba = lba := by
        rw [List.filter_map]
        rfl
    _ = (stableSort (tsKey TraceInfo.ts) (infos.filter fun i => Writes mode i)).filter fun i =>
          i.lba = lba := by rw [hsorted, hsplit, stableSort_filter]
    _ = ((stableSort (fun r => r.ts.toNat) (fiuWrites items)).map FiuRecord.info).filter fun i =>
          i.lba = lba := by
        rw [hinfos, filter_keptRecords, ← map_stableSort (tsKey TraceInfo.ts) FiuRecord.info]
        rfl
    _ = (writesAt items lba).map FiuRecord.info := List.filter_map

/-- The last write of an address in the text is the last one of the trace. -/
theorem exists_lastWrite {mode : ReplayMode} {items : List FiuLine} {lba : Word} {r : FiuRecord}
    (hr : (writesAt items lba).getLast? = some r) {infos : List TraceInfo}
    (hinfos : infos = keptRecords mode items) :
    ∃ q : Fin infos.length, LastWrite infos mode q ∧ infos.get q = r.info := by
  have hmap := map_writesAt mode items lba hinfos
  generalize hl : (byTs infos.get (List.finRange infos.length)).filter (fun p =>
    Writes mode (infos.get p) ∧ (infos.get p).lba = lba) = l at hmap
  have hlast : (l.map infos.get).getLast? = some r.info := by
    rw [hmap, List.getLast?_map, hr, Option.map_some]
  rw [List.getLast?_map, Option.map_eq_some_iff] at hlast
  obtain ⟨q, hq, hqr⟩ := hlast
  obtain ⟨front, rfl⟩ := List.getLast?_eq_some_iff.mp hq
  have hmem : ∀ p, p ∈ front ++ [q] ↔ Writes mode (infos.get p) ∧ (infos.get p).lba = lba := by
    intro p
    rw [← hl, List.mem_filter, decide_eq_true_eq]
    exact ⟨fun h => h.2, fun h => ⟨mem_byTs p, h⟩⟩
  have hsorted : (front ++ [q]).Pairwise (Precedes infos) := hl ▸ pairwise_byTs.filter _
  obtain ⟨hw, hlba⟩ := (hmem q).mp (List.mem_append_right _ (List.mem_singleton_self q))
  refine ⟨q, ⟨hw, fun p hwp hlbap => ?_⟩, hqr⟩
  rcases List.mem_append.mp ((hmem p).mpr ⟨hwp, hlbap.trans hlba⟩) with hp | hp
  · exact Or.inr ((List.pairwise_append.mp hsorted).2.2 p hp q (List.mem_singleton_self q))
  · exact Or.inl (List.mem_singleton.mp hp)

/-! ## The replay of a text -/

theorem FiuRecord.addressed {r : FiuRecord} (hlba : r.lba.toNat < 2 ^ 54) : Addressed r.info where
  ofs := (shiftLeft_nine r.lba).symm
  lba_lt := hlba

/-- What is parsed of a printed trace. -/
theorem parseTraceInfo_keeps (mode : ReplayMode) (uninit : Nat → TraceInfo) {items : List FiuLine}
    (hok : ∀ it ∈ items, it.Ok) (hlen : ∀ it ∈ items, it.text.length < LINE_SIZE - 1) :
    ∃ array validLines, parseTraceInfo .fiu mode uninit (printTrace items) =
        some (array, validLines) ∧ array.take validLines = keptRecords mode items := by
  have hlines : fgetsLines LINE_SIZE (printTrace items) =
      (items.map FiuLine.text).map (· ++ [newline]) := by
    apply fgetsLines_lines
    intro t ht
    obtain ⟨it, hit, rfl⟩ := List.mem_map.mp ht
    exact ⟨(hok it hit).newline_not_mem, Nat.add_lt_of_lt_sub (hlen it hit)⟩
  obtain ⟨st, hrun, hst⟩ := parseLines_items mode items _ [] hok
    (stored_init items.length uninit) (by simp)
  rw [List.nil_append] at hst
  refine ⟨st.infos, st.validLines, ?_, ?_⟩
  · simp only [parseTraceInfo, hlines, List.length_map]
    rw [hrun]
    rfl
  · rw [hst.validLines_eq]
    exact hst.take_eq

/-- One block for each write of the text, such that write-only and read-write mode, in every run
    and for any options that leave no worker idle, both end with these blocks: at each address
    that is written, one worker's file has the block of the last write, and the other files have
    there what they had. -/
def LeavesFiuWrites {Ctx : Type} (gener : Option (RandGener Ctx)) (items : List FiuLine) : Prop :=
  ∃ blk : FiuRecord → List Byte, (∀ r ∈ fiuWrites items, MakesBlock gener r.md5.text (blk r)) ∧
    ∀ (mode : ReplayMode) (uninit : Nat → TraceInfo), mode ≠ .append →
      ∃ array validLines, parseTraceInfo .fiu mode uninit (printTrace items) =
          some (array, validLines) ∧
        InEveryReplay (array.take validLines) gener mode fun params _ x y =>
          (∀ i, (y.1 i).pc = .finished) ∧
          ∀ lba r, (writesAt items lba).getLast? = some r →
            ∃ i : Fin params.length, (traceFile y i).readZ (lbaOffset lba) BLK_SIZE = blk r ∧
              ∀ j, j ≠ i → (traceFile y j).readZ (lbaOffset lba) BLK_SIZE =
                (traceFile x j).readZ (lbaOffset lba) BLK_SIZE

theorem fiu_lastWrites {Ctx : Type} [Inhabited Ctx] (gener : Option (RandGener Ctx))
    (items : List FiuLine) (hok : ∀ it ∈ items, it.Ok)
    (hlen : ∀ it ∈ items, it.text.length < LINE_SIZE - 1)
    (hcount : (items.filterMap FiuLine.record?).length < 2 ^ 29)
    (hlba : ∀ r ∈ items.filterMap FiuLine.record?, r.lba.toNat < 2 ^ 54)
    (hmd5 : ∀ r ∈ fiuWrites items,
      r.md5.text.length / 32 ∈ (if gener.isSome then [1, 2, 4, 5, 8] else [1, 2, 4, 8]))
    (hapart : ∀ r ∈ items.filterMap FiuLine.record?, ∀ r' ∈ items.filterMap FiuLine.record?,
      r.lba = r'.lba ∨ Apart r.lba r'.lba) :
    LeavesFiuWrites gener items := by
  have hfills : ∀ r ∈ fiuWrites items, Fills gener r.md5.text := fun r hr =>
    (fills_iff gener r.md5.length_le).mpr (hmd5 r hr)
  refine ⟨fun r => blockOf gener r.md5.text,
    fun r hr => makesBlock_blockOf gener r.md5.length_le (hfills r hr), fun mode uninit hmode => ?_⟩
  obtain ⟨array, validLines, hparse, htake⟩ := parseTraceInfo_keeps mode uninit hok hlen
  refine ⟨array, validLines, hparse, ?_⟩
  generalize array.take validLines = infos at htake
  have hrecords : ∀ i ∈ infos, ∃ r ∈ items.filterMap FiuLine.record?, r.info = i := by
    intro i hi
    rw [htake, keptRecords] at hi
    obtain ⟨r, hr, rfl⟩ := List.mem_map.mp hi
    exact ⟨r, List.mem_of_mem_filter hr, rfl⟩
  have hcount' : infos.length < 2 ^ 29 := by
    rw [htake, keptRecords, List.length_map]
    exact Nat.lt_of_le_of_lt (List.length_filter_le ..) hcount
  have haddr : ∀ i ∈ infos, Addressed i := by
    intro i hi
    obtain ⟨r, hr, rfl⟩ := hrecords i hi
    exact FiuRecord.addressed (hlba r hr)
  have hapart' : ∀ i ∈ infos, ∀ j ∈ infos, i.lba = j.lba ∨ Apart i.lba j.lba := by
    intro i hi j hj
    obtain ⟨r, hr, rfl⟩ := hrecords i hi
    obtain ⟨r', hr', rfl⟩ := hrecords j hj
    exact hapart r hr r' hr'
  have hfills' : ∀ p, Writes mode (infos.get p) → Fills gener (infos.get p).md5 := by
    intro p hw
    have hmem : infos.get p ∈ (keptRecords mode items).filter fun i => Writes mode i := by
      rw [← htake]
      exact List.mem_filter.mpr ⟨List.get_mem infos p, decide_eq_true hw⟩
    rw [filter_keptRecords] at hmem
    obtain ⟨r, hr, heq⟩ := List.mem_map.mp hmem
    rw [← heq]
    exact hfills r hr
  refine inEveryReplay hcount' haddr hfills' fun params hints hruns x y hy => ?_
  refine ⟨fun i => (hy i).1, fun lba r hr => ?_⟩
  obtain ⟨q, hq, hqr⟩ := exists_lastWrite hr htake
  have hplace := readZ_lastWrite hmode hruns hy hapart' hq
  have hlbaq : r.lba = lba := by
    have hmem := List.mem_of_getLast? hr
    exact of_decide_eq_true (List.mem_filter.mp hmem).2
  rw [recordBlock, hqr] at hplace
  rw [← hlbaq]
  exact hplace

/-- `ts 2 a lba 8 rw 6 0 dd…d`, with 32 letters. -/
def sampleFiu (ts lba : Word) (rw : Byte) (h : isGraph rw = true) : FiuRecord :=
  { sampleRecord lba rw h with
    ts := ts
    md5 := ⟨List.replicate 32 0x64, by decide, by decide, by decide⟩ }

/-- Two writes of an LBA, a read of it and a write of another. -/
theorem fiu_lastWrites_sample :
    LeavesFiuWrites (randGener id .lcg) [.record (sampleFiu 2 0 charW (by decide)),
      .record (sampleFiu 1 0 charW (by decide)), .record (sampleFiu 3 0 0x52 (by decide)),
      .record (sampleFiu 1 8 charW (by decide))] := by
  apply fiu_lastWrites
  · intro it hit
    simp only [List.mem_cons, List.not_mem_nil, or_false] at hit
    rcases hit with rfl | rfl | rfl | rfl <;> trivial
  · decide
  · decide
  · decide
  · decide
  · decide

end GogetaTools.Replay
