/-
  GogetaTools.Replay.Coalescing

  Replaying runs of records instead of records.

  `max_continuous_4K_blks` decides how far adjacent records are replayed by one
  system call.  It makes no difference, as long as `fill_blk` makes one and the
  same block of a fingerprint whatever its buffer held (`MakesBlock`); which
  fingerprints these are is decided by their length alone.
-/

import GogetaTools.Replay.Worker

namespace GogetaTools.Replay

open WriteLog ByteFile EveryRun

section Blocks

variable {Ctx : Type} (gener : Option (RandGener Ctx))

/-- In a buffer of one block `fill_blk` makes the block `b`, whatever was there. -/
def MakesBlock (md5 b : List Byte) : Prop :=
  b.length = BLK_SIZE ∧
    ∀ buf ctx, ∃ ctx', fillAt gener BLK_SIZE 0 md5 buf ctx = some (writeAt buf 0 b, ctx')

variable [Inhabited Ctx]

variable {gener} in
theorem MakesBlock.fills {md5 b : List Byte} (hle : md5.length ≤ 256)
    (h : MakesBlock gener md5 b) : Fills gener md5 := by
  by_contra hnot
  -- the last byte is `b`'s, and yet it is what the buffer held
  have hlast : ∀ buf : Nat → Byte, b[BLK_SIZE - 1]?.getD 0 = buf (BLK_SIZE - 1) := by
    intro buf
    obtain ⟨ctx', hfill⟩ := h.2 buf default
    rcases fillAt_of_not_fills gener hle hnot buf default with hnone | ⟨buf', ctx'', hsome, hsame⟩
    · rw [hfill] at hnone
      cases hnone
    · rw [hfill] at hsome
      cases hsome
      rw [← hsame, writeAt, if_pos (Nat.zero_le _), Nat.sub_zero,
        List.getElem?_eq_getElem (by rw [h.1]; decide)]
      rfl
  have hbytes := (hlast fun _ => 0).symm.trans (hlast fun _ => 1)
  exact absurd hbytes (by decide)

theorem makesBlock_blockOf {md5 : List Byte} (hle : md5.length ≤ 256) (h : Fills gener md5) :
    MakesBlock gener md5 (blockOf gener md5) :=
  ⟨length_blockOf gener md5,
    fun buf ctx => fillAt_of_fills gener hle h (Nat.le_of_eq (Nat.zero_add _)) buf ctx⟩

end Blocks

section Coalescing

variable {P Ctx : Type} (info : P → TraceInfo) (gener : Option (RandGener Ctx))
  (mode : ReplayMode)

/-- Every run of a worker that replays the hints `ex` of the records `infosMap`
    leaves in the end the destination and the dump of `out`. -/
def LeavesOut (infosMap : List P) (stored later : List TraceReplayHint) (ex : ExtractState)
    (out : File Byte → File Byte × List Byte) : Prop :=
  ∀ dstfilepath drfilepath buf ctx d,
    Inevitable
      (WorkerStep info gener mode (ex.hints ++ later)
        { infosMap := infosMap
          hintsStart := stored.length
          hintsEnd := ex.hints.length
          bufBlks := ex.maxContinuousBlks
          dstfilepath := dstfilepath
          drfilepath := drfilepath })
      (Replayed (out (d.dst.getD File.empty)))
      ({ pc := .start, buf := buf, ctx := ctx }, d)

/-- For every `max_continuous_4K_blks` the replay of the extracted hints leaves
    what the records leave that are executed one block at a time, each with the
    block that `fill_blk` makes of its fingerprint. -/
def CoalescingTransparent (infosMap : List P) : Prop :=
  ∃ block : P → List Byte,
    (∀ p ∈ infosMap, Writes mode (info p) → MakesBlock gener (info p).md5 (block p)) ∧
    ∀ (maxContinuous4KBlks : Word) (stored later : List TraceReplayHint) (validLines : Nat),
      stored.length + infosMap.length ≤ validLines →
      ∃ ex, extractHints info validLines maxContinuous4KBlks infosMap stored = some ex ∧
        LeavesOut info gener mode infosMap stored later ex
          fun f => execRecords info mode block (f, []) infosMap

variable {info gener mode} [Inhabited Ctx]

theorem leavesOut_of_replayable (maxBlks : Word) {infosMap : List P} (hne : infosMap ≠ [])
    (hrec : Replayable info gener mode infosMap) (stored later : List TraceReplayHint)
    {validLines : Nat} (hroom : stored.length + infosMap.length ≤ validLines) :
    ∃ ex, extractHints info validLines maxBlks infosMap stored = some ex ∧
      LeavesOut info gener mode infosMap stored later ex
        fun f => execRecords info mode (recordBlock info gener) (f, []) infosMap := by
  rcases extractHints_spec info validLines maxBlks hne stored with
    ⟨runs, ex, hrun, hflat, hruns, hhints, -⟩ | ⟨-, hfull⟩
  · refine ⟨ex, hrun, ?_⟩
    intro dstfilepath drfilepath buf ctx d
    have hcut : Cut info (ex.hints ++ later)
        { infosMap := infosMap
          hintsStart := stored.length
          hintsEnd := ex.hints.length
          bufBlks := ex.maxContinuousBlks
          dstfilepath := dstfilepath
          drfilepath := drfilepath } runs :=
      ⟨hflat, hruns, stored, later, by rw [hhints], rfl, by
        simp only [hhints, List.length_append, length_hintsOf]⟩
    exact replayWorker_inevitable hcut hrec buf ctx d
  · omega

variable (gener mode) in
/-- Coalescing is transparent exactly if every fingerprint that is written has a
    length `fill_blk` can make a block of. -/
theorem coalescingTransparent_iff {infosMap : List P} (hne : infosMap ≠ [])
    (haddr : ∀ p ∈ infosMap, Addressed (info p)) :
    CoalescingTransparent info gener mode infosMap ↔
      ∀ p ∈ infosMap, Writes mode (info p) →
        (info p).md5.length / 32 ∈ (if gener.isSome then [1, 2, 4, 5, 8] else [1, 2, 4, 8]) := by
  constructor
  · rintro ⟨block, hblock, -⟩ p hp hw
    exact (fills_iff gener (info p).md5_le).mp ((hblock p hp hw).fills (info p).md5_le)
  · intro hlen
    have hfills : ∀ p ∈ infosMap, Writes mode (info p) → Fills gener (info p).md5 :=
      fun p hp hw => (fills_iff gener (info p).md5_le).mpr (hlen p hp hw)
    refine ⟨recordBlock info gener, ?_, ?_⟩
    · intro p hp hw
      exact makesBlock_blockOf gener (info p).md5_le (hfills p hp hw)
    · intro maxBlks stored later validLines hroom
      exact leavesOut_of_replayable maxBlks hne ⟨haddr, hfills⟩ stored later hroom

omit [Inhabited Ctx] in
/-- A worker that comes to a fingerprint of fewer than 32 characters divides by
    zero, and never finishes. -/
theorem not_inevitable_of_short {hints : List TraceReplayHint} {w : ReplayParam P} {p : P}
    {rest : List P} {hint : TraceReplayHint} (hmap : w.infosMap = p :: rest)
    (hshort : (info p).md5.length < 32) (hw : Writes mode (info p))
    (hhint : hints[w.hintsStart]? = some hint) (hin : w.hintsStart < w.hintsEnd)
    (hstart : hint.startTraceLine = 0) (hblks : hint.continuousBlks ≠ 0)
    (hrw : hint.rw = (info p).rw) (out : File Byte × List Byte) (buf : Nat → Byte) (ctx : Ctx)
    (d : Disk) :
    ¬ Inevitable (WorkerStep info gener mode hints w) (Replayed out)
      ({ pc := .start, buf := buf, ctx := ctx }, d) := by
  intro h
  have hopen : WorkerStep info gener mode hints w ({ pc := .start, buf := buf, ctx := ctx }, d)
      ({ pc := .atHint w.hintsStart, buf := buf, ctx := ctx },
        { dst := some (d.dst.getD File.empty), dump := [] }) :=
    ⟨0, (by rintro i done ⟨⟩), rfl⟩
  refine not_inevitable_of_stuck ?_ ?_ (h.of_step ?_ hopen)
  · rintro ⟨hpc, -⟩
    cases hpc
  · rintro y ⟨ret, -, hstep⟩
    obtain ⟨n, hn⟩ := Nat.exists_eq_succ_of_ne_zero hblks
    -- the step is 0, so the first block cannot be filled
    have hfill : fillLoop info gener w hint.continuousBlks hint.startTraceLine 0 buf ctx = none := by
      rw [hn, hstart, fillLoop, hmap]
      simp [fillAt, fillBlk, hshort]
    simp only [replayStep, if_pos hin, hhint, Option.bind_eq_bind, Option.bind_some] at hstep
    rw [if_pos (show mode ≠ .readwrite ∨ hint.rw = charW by rw [hrw]; exact hw)] at hstep
    simp only [writeHint, hfill, Option.bind_eq_bind, Option.bind_none] at hstep
    cases hstep
  · rintro ⟨hpc, -⟩
    cases hpc

end Coalescing

/-- Two adjacent blocks are written and the next one is read, with a fingerprint that nothing
    looks at: 32 and 64 characters make blocks, 96 do not. -/
theorem coalescingTransparent_iff_sample :
    CoalescingTransparent id (randGener id .lcg) .readwrite
        [sampleInfo 1 8 charW 0x61 32, sampleInfo 2 16 charW 0x62 64, sampleInfo 3 24 0x52 0x63 5] ∧
      ¬ CoalescingTransparent id (randGener id .lcg) .readwrite
        [sampleInfo 1 8 charW 0x61 32, sampleInfo 2 16 charW 0x62 96, sampleInfo 3 24 0x52 0x63 5] := by
  constructor
  · exact (coalescingTransparent_iff (randGener id .lcg) .readwrite (List.cons_ne_nil _ _)
      (by decide)).mpr (by decide)
  · intro h
    have hlen := (coalescingTransparent_iff (randGener id .lcg) .readwrite (List.cons_ne_nil _ _)
      (by decide)).mp h
    exact absurd hlen (by decide)

/-- A fingerprint of five characters: the worker faults, so the replay leaves
    nothing that one could compare. -/
theorem coalescing_faults :
    let infosMap := [sampleInfo 1 0 charW 0x61 5]
    ∃ ex, extractHints id 1 1 infosMap [] = some ex ∧
      ∀ out, ¬ LeavesOut id (randGener id .null) .writeonly infosMap [] [] ex fun _ => out := by
  refine ⟨_, rfl, ?_⟩
  intro out hleaves
  refine not_inevitable_of_short rfl (by decide) (Or.inl (by decide)) rfl (by decide) rfl
    (by decide) rfl out (fun _ => 0) () ⟨none, []⟩ (hleaves [] [] _ _ _)

end GogetaTools.Replay
