/-
  GogetaTools.Replay.Segments

  The hints of a worker as a segmentation of its records.

  `Segments` says, of the hints alone, that they cover the positions of the
  records one behind the other and that each describes a run that one system
  call may serve: blocks that lie one behind the other, one `rw`, and no more
  blocks than `max_continuous_4K_blks` (one at least).  The hints that the loop
  stores are such a segmentation, and there is none with fewer hints: no run of
  theirs could have been longer (`GreedyRuns`), which is what the general
  `Segmentation.Maximal.length_le` asks for.
-/

import GogetaTools.Replay.Setup

namespace GogetaTools.Replay

open Segmentation StableSort

section Segments

variable {P : Type} (info : P → TraceInfo)

/-- The records a hint describes. -/
def TraceReplayHint.records (h : TraceReplayHint) (infosMap : List P) : List P :=
  (infosMap.drop h.startTraceLine).take h.continuousBlks

/-- The hints cover the positions from `start` to `stop`, each beginning where the
    one before ends. -/
def Covers : Nat → List TraceReplayHint → Nat → Prop
  | start, [], stop => start = stop
  | start, h :: hs, stop => h.startTraceLine = start ∧ Covers (start + h.continuousBlks) hs stop

/-- The hints cut the records into runs that the replay may coalesce. -/
structure Segments (maxBlks : Word) (infosMap : List P) (hs : List TraceReplayHint) :
    Prop where
  covers : Covers 0 hs infosMap.length
  length : ∀ h ∈ hs, 1 ≤ h.continuousBlks ∧ h.continuousBlks ≤ max 1 maxBlks.toNat
  rw : ∀ h ∈ hs, ∀ p ∈ h.records infosMap, (info p).rw = h.rw
  lba : ∀ h ∈ hs, (h.records infosMap).IsChain fun pre cur => (info cur).lba = (info pre).lba + 8

variable {info}

/-! ## From runs to hints -/

theorem continuesRun_iff {cur pre : TraceInfo} :
    continuesRun cur pre = true ↔ cur.lba = pre.lba + 8 ∧ cur.rw = pre.rw := by
  have hlba : cur.lba - pre.lba = 8 ↔ cur.lba = pre.lba + 8 := by
    constructor
    · intro h
      rw [← h, BitVec.add_comm, BitVec.sub_add_cancel]
    · intro h
      rw [h, BitVec.add_comm, BitVec.add_sub_cancel]
  rw [continuesRun, decide_eq_true_iff, hlba]

/-- One `rw` runs through a chain of records that continue each other. -/
theorem rw_of_isChain {p : P} {run : List P}
    (h : (p :: run).IsChain fun pre cur => continuesRun (info cur) (info pre) = true) :
    ∀ q ∈ p :: run, (info q).rw = (info p).rw := by
  induction run generalizing p with
  | nil =>
      intro q hq
      rw [List.mem_singleton.mp hq]
  | cons r run ih =>
      obtain ⟨hpr, hrest⟩ := List.isChain_cons_cons.mp h
      have hr : (info r).rw = (info p).rw := (continuesRun_iff.mp hpr).2
      intro q hq
      rcases List.mem_cons.mp hq with rfl | hq
      · rfl
      · exact (ih hrest q hq).trans hr

theorem covers_hintsOf (start : Nat) (runs : List (List P)) :
    Covers start (hintsOf info start runs) (start + runs.flatten.length) := by
  induction runs generalizing start with
  | nil => rfl
  | cons run runs ih =>
      refine ⟨rfl, ?_⟩
      rw [List.flatten_cons, List.length_append, ← Nat.add_assoc]
      exact ih (start + run.length)

/-- Every hint of the runs describes one of them. -/
theorem exists_run_of_mem_hintsOf {runs : List (List P)} (pre : List P) {h : TraceReplayHint}
    (hmem : h ∈ hintsOf info pre.length runs) :
    ∃ run ∈ runs, h.records (pre ++ runs.flatten) = run ∧ h.continuousBlks = run.length ∧
      h.rw = (run.head?.map fun p => (info p).rw).getD 0 := by
  induction runs generalizing pre with
  | nil => cases hmem
  | cons run runs ih =>
      rw [hintsOf, List.mem_cons] at hmem
      rcases hmem with rfl | hmem
      · refine ⟨run, List.mem_cons_self .., ?_, rfl, rfl⟩
        rw [TraceReplayHint.records, List.drop_left, List.flatten_cons, List.take_left]
      · rw [← List.length_append] at hmem
        obtain ⟨r, hr, hrec, hrest⟩ := ih (pre ++ run) hmem
        refine ⟨r, List.mem_cons_of_mem _ hr, ?_, hrest⟩
        rw [List.flatten_cons, ← List.append_assoc]
        exact hrec

theorem segments_hintsOf {maxBlks : Word} {runs : List (List P)}
    (hne : ∀ run ∈ runs, run ≠ []) (h : ∀ run ∈ runs, HintRun info maxBlks run) :
    Segments info maxBlks runs.flatten (hintsOf info 0 runs) := by
  have hruns : ∀ hint ∈ hintsOf info 0 runs, ∃ run ∈ runs, hint.records runs.flatten = run ∧
      hint.continuousBlks = run.length ∧
      hint.rw = (run.head?.map fun p => (info p).rw).getD 0 :=
    fun hint hmem => exists_run_of_mem_hintsOf [] hmem
  refine ⟨?_, ?_, ?_, ?_⟩
  · have hcovers : Covers 0 (hintsOf info 0 runs) (0 + runs.flatten.length) :=
      covers_hintsOf 0 runs
    rwa [Nat.zero_add] at hcovers
  · intro hint hmem
    obtain ⟨run, hrun, -, hblks, -⟩ := hruns hint hmem
    rw [hblks]
    exact ⟨List.length_pos_iff.mpr (hne run hrun), (h run hrun).1⟩
  · intro hint hmem q hq
    obtain ⟨run, hrun, hrec, -, hrw⟩ := hruns hint hmem
    rw [hrec] at hq
    -- the hint has the `rw` of the first record of the run
    obtain ⟨p, run', rfl⟩ := List.exists_cons_of_ne_nil (hne run hrun)
    rw [rw_of_isChain (h _ hrun).2 q hq, hrw]
    rfl
  · intro hint hmem
    obtain ⟨run, hrun, hrec, -, -⟩ := hruns hint hmem
    rw [hrec]
    exact (h run hrun).2.imp fun pre cur hcont => (continuesRun_iff.mp hcont).1

/-! ## From hints to runs -/

/-- The runs of hints that cover the records are the records. -/
theorem flatten_records {infosMap : List P} {hs : List TraceReplayHint} {start : Nat}
    (h : Covers start hs infosMap.length) :
    (hs.map fun hint => hint.records infosMap).flatten = infosMap.drop start := by
  induction hs generalizing start with
  | nil =>
      have hstart : start = infosMap.length := h
      rw [hstart, List.drop_length]
      rfl
  | cons hint hs ih =>
      obtain ⟨hstart, hrest⟩ := h
      rw [List.map_cons, List.flatten_cons, ih hrest, TraceReplayHint.records, hstart,
        ← List.drop_drop, List.take_append_drop]

/-- The records of a hint of a segmentation are a run that the loop may store. -/
theorem Segments.hintRun {maxBlks : Word} {infosMap : List P} {hs : List TraceReplayHint}
    (h : Segments info maxBlks infosMap hs) {hint : TraceReplayHint} (hmem : hint ∈ hs) :
    HintRun info maxBlks (hint.records infosMap) := by
  refine ⟨?_, ?_⟩
  · rw [TraceReplayHint.records, List.length_take]
    exact Nat.le_trans (Nat.min_le_left _ _) (h.length hint hmem).2
  · refine List.IsChain.imp_of_mem_imp ?_ (h.lba hint hmem)
    intro pre cur hpre hcur hlba
    exact continuesRun_iff.mpr
      ⟨hlba, (h.rw hint hmem cur hcur).trans (h.rw hint hmem pre hpre).symm⟩

/-- A part of a run is a run. -/
theorem HintRun.part {maxBlks : Word} {s t : List P} (hst : s <:+: t)
    (ht : HintRun info maxBlks t) : HintRun info maxBlks s := by
  refine ⟨Nat.le_trans hst.length_le ht.1, ?_⟩
  obtain ⟨before, behind, rfl⟩ := hst
  exact ht.2.left_of_append.right_of_append

/-- Greedy runs are the fewest: any other segmentation has as many hints. -/
theorem GreedyRuns.length_le {maxBlks : Word} {runs : List (List P)}
    (h : GreedyRuns info maxBlks runs) (hne : ∀ run ∈ runs, run ≠ [])
    {hs : List TraceReplayHint} (hseg : Segments info maxBlks runs.flatten hs) :
    runs.length ≤ hs.length := by
  have hflat : (hs.map fun hint => hint.records runs.flatten).flatten = [] ++ runs.flatten :=
    flatten_records hseg.covers
  have hruns : ∀ run ∈ hs.map fun hint => hint.records runs.flatten,
      HintRun info maxBlks run := by
    intro run hrun
    obtain ⟨hint, hmem, rfl⟩ := List.mem_map.mp hrun
    exact hseg.hintRun hmem
  have hle := h.maximal.length_le HintRun.part hne hflat hruns
  rwa [List.length_map] at hle

/-! ## The hints of a worker -/

variable (info) in
/-- `hs` are the hints that the worker `w` got behind the hints `stored`: they
    segment its records, none is longer than its buffer, and no segmentation needs
    fewer of them. -/
structure FewestHints (maxBlks : Word) (stored : List TraceReplayHint) (w : ReplayParam P)
    (hs : List TraceReplayHint) : Prop where
  hintsStart : w.hintsStart = stored.length
  hintsEnd : w.hintsEnd = (stored ++ hs).length
  segments : Segments info maxBlks w.infosMap hs
  buffer : ∀ h ∈ hs, h.continuousBlks ≤ w.bufBlks
  fewest : ∀ hs', Segments info maxBlks w.infosMap hs' → hs.length ≤ hs'.length

variable (info) in
/-- The hint extraction of a worker with records is a valid segmentation with the
    fewest hints; it only fails when the array of hints has less room than there are
    records. -/
theorem setupWorker_fewestHints (validLines : Nat) (maxBlks : Word) (paths : ReplayPaths)
    (st : List (ReplayParam P) × List TraceReplayHint) (tc : TraceContainer P)
    (hne : 1 ≤ tc.size) (hint : tc.size < intLimit) :
    (st.2.length + tc.size ≤ validLines →
      ∃ st', setupWorker info validLines maxBlks paths st tc = some st') ∧
    ∀ st', setupWorker info validLines maxBlks paths st tc = some st' →
      ∃ w hs, st'.1 = st.1 ++ [w] ∧ st'.2 = st.2 ++ hs ∧ w.infosMap = byTs info tc.infosMap ∧
        FewestHints info maxBlks st.2 w hs := by
  have hsize : tc.size < 2 ^ 31 := hint
  have hrecords : tc.infosMap ≠ [] := List.length_pos_iff.mp hne
  have hlen : (byTs info tc.infosMap).length = tc.size := (stableSort_perm _ _).length_eq
  rw [setupWorker_eq info validLines maxBlks paths st hrecords (by omega)]
  rcases extractHints_greedy info validLines maxBlks (byTs_ne_nil info hrecords) st.2 with
    ⟨runs, ex, hrun, hflat, hruns, hgreedy, hhints, -⟩ | ⟨hrun, hfull⟩
  · have hnil : ∀ run ∈ runs, run ≠ [] := fun run hmem => (hruns.coalesced run hmem).1
    rw [hrun, Option.map_some]
    refine ⟨fun _ => ⟨_, rfl⟩, ?_⟩
    intro st' hst'
    cases hst'
    refine ⟨_, hintsOf info 0 runs, rfl, hhints, rfl, rfl, by rw [hhints], ?_, ?_, ?_⟩
    · -- the runs are what the hints segment
      show Segments info maxBlks (byTs info tc.infosMap) _
      rw [hflat]
      exact segments_hintsOf hnil hgreedy.hintRun
    · intro h hmem
      obtain ⟨run, hmem', hblks⟩ := continuousBlks_of_mem_hintsOf info 0 hmem
      rw [hblks]
      exact hruns.length_le run hmem'
    · -- no other segmentation has fewer runs than the greedy one
      intro hs' hseg
      rw [length_hintsOf]
      refine hgreedy.length_le hnil ?_
      rw [← hflat]
      exact hseg
  · -- the array of `validLines` hints is too short for them
    rw [hrun, Option.map_none]
    refine ⟨fun hroom => by omega, ?_⟩
    intro st' hst'
    cases hst'

/-- Three adjacent writes, hints of two blocks at most, behind no other worker. -/
theorem setupWorker_fewestHints_sample :
    let info : Word → TraceInfo := fun n => sampleInfo n (8 * n) charW 0x61 32
    let tc : TraceContainer Word := { infosMap := [1, 2, 3], capacity := 64 }
    let paths : ReplayPaths := { dstpath := [0x2f], dumpReadPath := [0x2f] }
    (0 + tc.size ≤ 3 → ∃ st', setupWorker info 3 2 paths ([], []) tc = some st') ∧
    ∀ st', setupWorker info 3 2 paths ([], []) tc = some st' →
      ∃ w hs, st'.1 = [] ++ [w] ∧ st'.2 = [] ++ hs ∧ w.infosMap = byTs info tc.infosMap ∧
        FewestHints info 2 [] w hs :=
  setupWorker_fewestHints _ 3 2 _ ([], []) _ (by decide) (by decide)

end Segments

end GogetaTools.Replay
