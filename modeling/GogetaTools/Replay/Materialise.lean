/-
  GogetaTools.Replay.Materialise

  Filling the buffers for the records of a parsed trace.

  The buffer of a worker is as large as its longest hint, so the blocks of a hint
  fit; whether the writes of a block stay inside it depends on its fingerprint
  alone, and the parser takes any token of up to 256 characters for one.
  `trace_materialises_iff` says for which traces all is well.
-/

import GogetaTools.Replay.Parse
import GogetaTools.Replay.Worker

namespace GogetaTools.Replay

open Map WriteLog Stdio

/-- `main` up to the distribution: the parsed records, and the containers of the workers. -/
def distributeTrace (format : TraceFormat) (mode : ReplayMode) (uninit : Nat → TraceInfo)
    (threads : Nat) (rand : Nat → Nat) (file : Text) :
    Option (Σ infos : List TraceInfo, AssignState (Fin infos.length)) := do
  let (array, validLines) ← parseTraceInfo format mode uninit file
  let infos := array.take validLines
  let s ← buildTraceContainers infos.get noContainers (List.finRange infos.length)
  let a ← distribute infos.get threads validLines rand s
  some ⟨infos, a⟩

theorem distributeTrace_eq_some {format : TraceFormat} {mode : ReplayMode}
    {uninit : Nat → TraceInfo} {threads : Nat} {rand : Nat → Nat} {file : Text}
    {infos : List TraceInfo} {a : AssignState (Fin infos.length)}
    (h : distributeTrace format mode uninit threads rand file = some ⟨infos, a⟩) :
    ∃ s, buildTraceContainers infos.get noContainers (List.finRange infos.length) = some s ∧
      distribute infos.get threads infos.length rand s = some a := by
  obtain ⟨⟨array, validLines⟩, hparse, h⟩ := Option.bind_eq_some_iff.mp h
  obtain ⟨s, hbuild, h⟩ := Option.bind_eq_some_iff.mp h
  obtain ⟨a', hdist, heq⟩ := Option.bind_eq_some_iff.mp h
  have hcount : (array.take validLines).length = validLines := by
    rw [List.length_take]
    exact Nat.min_eq_left (parseTraceInfo_count_le hparse)
  cases heq
  refine ⟨s, hbuild, ?_⟩
  exact (congrArg (fun n => distribute _ threads n rand s = some a') hcount).mpr hdist

section Fills

variable {P Ctx : Type} (info : P → TraceInfo) (gener : Option (RandGener Ctx))

/-- Filling block `k` does not divide by zero, and writes to bytes of this block only. -/
def FillsInside (md5 : List Byte) (k : Nat) : Prop :=
  ∀ ctx, ∃ ws ctx', fillBlk gener md5 ctx = some (ws, ctx') ∧
    ∀ write ∈ shift (k * BLK_SIZE) ws, ∀ x, WriteLog.Covers write x →
      k * BLK_SIZE ≤ x ∧ x < (k + 1) * BLK_SIZE

/-- All records of a hint are there and fill their blocks, which the buffer has. -/
def HintFills (w : ReplayParam P) (hint : TraceReplayHint) : Prop :=
  ∀ k < hint.continuousBlks, ∃ p, w.infosMap[hint.startTraceLine + k]? = some p ∧
    FillsInside gener (info p).md5 k ∧ (k + 1) * BLK_SIZE ≤ w.bufSize

/-- The hints of worker `w` that are written can be filled. -/
def WorkerFills (mode : ReplayMode) (hints : List TraceReplayHint) (w : ReplayParam P) : Prop :=
  ∀ i, w.hintsStart ≤ i → i < w.hintsEnd →
    ∃ hint, hints[i]? = some hint ∧
      (mode ≠ .readwrite ∨ hint.rw = charW → HintFills info gener w hint)

/-- The loop body of `assign_params_per_worker` makes `w` of the container `tc`,
    whatever the workers before it have stored; those behind it store more hints.
    An empty container makes none. -/
def SetUpAs (validLines : Nat) (maxContinuous4KBlks : Word) (paths : ReplayPaths)
    (tc : TraceContainer P) (w : ReplayParam P) (hints : List TraceReplayHint) : Prop :=
  ∃ st st' more, setupWorker info validLines maxContinuous4KBlks paths st tc = some st' ∧
    st'.1 = st.1 ++ [w] ∧ hints = st'.2 ++ more

variable {info gener} [Inhabited Ctx]

/-- Which fingerprints fill a block is a matter of where their last write ends. -/
theorem fillsInside_iff {md5 : List Byte} (hle : md5.length ≤ 256) (k : Nat) :
    FillsInside gener md5 k ↔ StaysInside gener md5 := by
  by_cases hstep : md5.length / 32 = 0
  · constructor
    · intro h
      obtain ⟨ws, ctx', hfill, -⟩ := h default
      simp only [fillBlk, if_pos hstep] at hfill
      cases hfill
    · intro h
      exact absurd hstep h.1
  have hch := chunked_of_length hle hstep
  constructor
  · intro h
    obtain ⟨ws, ctx', hfill, hin⟩ := h default
    refine ⟨hstep, (fillBlk_within_iff gener hch hfill).mp ?_⟩
    intro w hw
    -- the last byte of the write lies in the block
    obtain ⟨hlen, -⟩ := (mem_fillBlk gener hch hfill).mp ⟨w, hw, rfl, rfl⟩
    have hpos := fillStride_pos gener
    have hshift : (k * BLK_SIZE + w.1, w.2) ∈ shift (k * BLK_SIZE) ws :=
      List.mem_map_of_mem hw
    have hlast := (hin _ hshift (k * BLK_SIZE + w.1 + w.2.length - 1)
      ⟨show k * BLK_SIZE + w.1 ≤ _ by omega, show _ < k * BLK_SIZE + w.1 + w.2.length by omega⟩).2
    rw [Nat.succ_mul] at hlast
    omega
  · intro h ctx
    refine ⟨_, _, fillBlk_chunked gener hch ctx, ?_⟩
    have hin := (fillBlk_within_iff gener hch (fillBlk_chunked gener hch ctx)).mpr h.2
    rintro write hwrite x ⟨hx, hx'⟩
    obtain ⟨w, hw, rfl⟩ := List.mem_map.mp hwrite
    have hend := hin w hw
    simp only at hx hx'
    rw [Nat.succ_mul]
    exact ⟨by omega, by omega⟩

theorem fillLoop_of_fills {w : ReplayParam P} :
    ∀ (n j k : Nat) (buf : Nat → Byte) (ctx : Ctx),
      (∀ l < n, ∃ p, w.infosMap[j + l]? = some p ∧ FillsInside gener (info p).md5 (k + l) ∧
        (k + l + 1) * BLK_SIZE ≤ w.bufSize) →
      ∃ buf' ctx', fillLoop info gener w n j (k * BLK_SIZE) buf ctx = some (buf', ctx') := by
  intro n
  induction n with
  | zero => exact fun j k buf ctx _ => ⟨buf, ctx, rfl⟩
  | succ n ih =>
      intro j k buf ctx h
      obtain ⟨p, hp, hinside, hroom⟩ := h 0 (Nat.succ_pos n)
      rw [Nat.add_zero] at hp hroom
      -- the first block is filled inside the buffer
      have hstays := (fillsInside_iff (info p).md5_le _).mp hinside
      have hch := chunked_of_length (info p).md5_le hstays.1
      have hfill := fillBlk_chunked gener hch ctx
      have hin := (fillBlk_within_iff gener hch hfill).mpr hstays.2
      have hshift := (@within_shift _ (k * BLK_SIZE) _ _).mpr hin
      rw [← Nat.succ_mul] at hshift
      obtain ⟨buf', ctx', hrest⟩ := ih (j + 1) (k + 1)
        (writeAll buf (shift (k * BLK_SIZE)
          (fillChunks gener (BLK_SIZE / ((info p).md5.length / 32)) _ 0 (info p).md5 ctx).1))
        (fillChunks gener _ _ 0 (info p).md5 ctx).2 (by
          intro l hl
          obtain ⟨q, hq, hrest⟩ := h (l + 1) (by omega)
          rw [show j + (l + 1) = j + 1 + l by omega] at hq
          rw [show k + (l + 1) = k + 1 + l by omega] at hrest
          exact ⟨q, hq, hrest⟩)
      refine ⟨buf', ctx', ?_⟩
      rw [Nat.succ_mul] at hrest
      simp only [fillLoop, hp, fillAt, hfill, Option.bind_eq_bind, Option.bind_some]
      rw [if_pos (hshift.mono hroom)]
      exact hrest

/-- A hint that fills takes `replay_worker` through its loop over `j`. -/
theorem HintFills.fillLoop {w : ReplayParam P} {hint : TraceReplayHint}
    (h : HintFills info gener w hint) (buf : Nat → Byte) (ctx : Ctx) :
    ∃ buf' ctx', fillLoop info gener w hint.continuousBlks hint.startTraceLine 0 buf ctx =
      some (buf', ctx') := by
  have hall := fillLoop_of_fills hint.continuousBlks hint.startTraceLine 0 buf ctx (by
    intro l hl
    rw [Nat.zero_add]
    exact h l hl)
  rwa [Nat.zero_mul] at hall

section Worker

variable {mode : ReplayMode} {hints : List TraceReplayHint} {w : ReplayParam P}
  {runs : List (List P)}

omit [Inhabited Ctx] in
/-- The hint of a run fills if the fingerprints of the run do. -/
theorem hintFills_iff (hcut : Cut info hints w runs) {before after : List (List P)} {p : P}
    {run : List P} (hruns : runs = before ++ (p :: run) :: after) :
    HintFills info gener w
        { continuousBlks := (p :: run).length
          startTraceLine := before.flatten.length
          rw := (info p).rw } ↔
      ∀ k q, (p :: run)[k]? = some q → FillsInside gener (info q).md5 k := by
  have hflat : w.infosMap = before.flatten ++ ((p :: run) ++ after.flatten) := by
    rw [hcut.flatten, hruns, List.flatten_append, List.flatten_cons]
  have hget : ∀ k < (p :: run).length,
      w.infosMap[before.flatten.length + k]? = (p :: run)[k]? := by
    intro k hk
    rw [hflat, List.getElem?_append_right (Nat.le_add_right _ _), Nat.add_sub_cancel_left,
      List.getElem?_append_left hk]
  have hblks : (p :: run).length ≤ w.bufBlks :=
    hcut.coalesced.length_le _ (by rw [hruns]; simp)
  constructor
  · intro h k q hq
    have hk := (List.getElem?_eq_some_iff.mp hq).1
    obtain ⟨q', hq', hfill, -⟩ := h k hk
    rw [hget k hk, hq] at hq'
    cases hq'
    exact hfill
  · intro h k hk
    obtain ⟨q, hq⟩ : ∃ q, (p :: run)[k]? = some q := ⟨_, List.getElem?_eq_getElem hk⟩
    refine ⟨q, (hget k hk).trans hq, h k q hq, ?_⟩
    exact Nat.mul_le_mul_right _ (Nat.le_trans hk hblks)

/-- A worker can fill its buffer exactly if the fingerprints it writes stay inside a block. -/
theorem workerFills_iff (hcut : Cut info hints w runs) :
    WorkerFills info gener mode hints w ↔
      ∀ p ∈ w.infosMap, Writes mode (info p) → StaysInside gener (info p).md5 := by
  obtain ⟨front, behind, -, hstart, hend⟩ := hcut.hints
  constructor
  · intro h q hq hw
    rw [hcut.flatten] at hq
    obtain ⟨run, hrun, hq⟩ := List.mem_flatten.mp hq
    obtain ⟨before, after, hruns⟩ := List.append_of_mem hrun
    obtain ⟨hne, hchain⟩ := hcut.coalesced.coalesced run hrun
    obtain ⟨p, run, rfl⟩ := List.exists_cons_of_ne_nil hne
    obtain ⟨hint, hhint, hfills⟩ := h (w.hintsStart + before.length) (Nat.le_add_right _ _)
      (by rw [hstart, hend, hruns, List.length_append, List.length_cons]; omega)
    rw [hcut.hint hruns] at hhint
    cases hhint
    obtain ⟨k, hk⟩ := List.mem_iff_getElem?.mp hq
    -- the records of a run have one `rw`
    have hfirst : Writes mode (info p) := (writes_iff_of_mem_run mode hchain q hq).mp hw
    exact (fillsInside_iff (info q).md5_le k).mp ((hintFills_iff hcut hruns).mp (hfills hfirst) k q hk)
  · intro h i hlo hhi
    have hi : i - w.hintsStart < runs.length := by omega
    have hruns : runs = runs.take (i - w.hintsStart) ++
        runs[i - w.hintsStart] :: runs.drop (i - w.hintsStart + 1) := by
      rw [List.getElem_cons_drop, List.take_append_drop]
    obtain ⟨hne, hchain⟩ := hcut.coalesced.coalesced _ (List.getElem_mem hi)
    obtain ⟨p, run, hrun⟩ := List.exists_cons_of_ne_nil hne
    rw [hrun] at hruns hchain
    have hlen : (runs.take (i - w.hintsStart)).length = i - w.hintsStart := by
      rw [List.length_take]
      omega
    have hhint := hcut.hint hruns
    rw [hlen, Nat.add_sub_cancel' hlo] at hhint
    refine ⟨_, hhint, ?_⟩
    intro hw
    rw [hintFills_iff hcut hruns]
    intro k q hq
    have hmem := List.mem_of_getElem? hq
    refine (fillsInside_iff (info q).md5_le k).mpr (h q ?_ (writes_of_mem_run mode hchain hw q hmem))
    rw [hcut.flatten, hruns]
    simp only [List.flatten_append, List.flatten_cons, List.mem_append]
    exact Or.inr (Or.inl hmem)

end Worker

end Fills

section Trace

variable {Ctx : Type} [Inhabited Ctx]

/-- Every container of a worker can be set up as if it came first. -/
theorem exists_setUpAs {format : TraceFormat} {mode : ReplayMode}
    {uninit : Nat → TraceInfo} {threads : Nat} {rand : Nat → Nat} {file : Text}
    {infos : List TraceInfo} {a : AssignState (Fin infos.length)} (maxBlks : Word)
    (paths : ReplayPaths) (hthreads : 0 < threads)
    (h : distributeTrace format mode uninit threads rand file = some ⟨infos, a⟩)
    (p : Fin infos.length) :
    ∃ tc ∈ a.params, ∃ w hints runs, SetUpAs infos.get infos.length maxBlks paths tc w hints ∧
      Cut infos.get hints w runs ∧ p ∈ w.infosMap := by
  obtain ⟨s, hbuild, hdist⟩ := distributeTrace_eq_some h
  have hperm := distribute_perm hthreads (List.nodup_finRange _) hbuild hdist
  obtain ⟨tc, htc, hp⟩ := List.mem_flatMap.mp (hperm.mem_iff.mpr (List.mem_finRange p))
  -- a worker has no more records than the trace, so its hints fit
  have hlines : tc.infosMap.length ≤ infos.length := by
    have hsub : tc.infosMap.Sublist (a.params.map TraceContainer.infosMap).flatten :=
      List.sublist_flatten_of_mem (List.mem_map_of_mem htc)
    rw [← List.flatMap_def] at hsub
    have := hsub.length_le
    rwa [hperm.length_eq, List.length_finRange] at this
  have hsize : tc.size < 2 ^ 63 :=
    Nat.lt_of_le_of_lt (distribute_size_le hthreads hbuild hdist tc htc) (by decide)
  refine ⟨tc, htc, ?_⟩
  rcases setupWorker_adds infos.get infos.length maxBlks paths ([], []) (List.ne_nil_of_mem hp)
    hsize with ⟨st', w, runs, hrun, hadds⟩ | ⟨-, hfull⟩
  · refine ⟨w, st'.2, runs, ⟨([], []), st', [], hrun, hadds.params, (List.append_nil _).symm⟩,
      hadds.ready.toCut, ?_⟩
    rw [hadds.ready.infosMap]
    exact (StableSort.stableSort_perm _ _).mem_iff.mpr hp
  · rw [List.length_nil, Nat.zero_add] at hfull
    exact absurd hlines (Nat.not_le_of_lt hfull)

/-- However a worker is set up, its hints cut its records. -/
theorem SetUpAs.cut {infos : List TraceInfo} {maxBlks : Word} {paths : ReplayPaths}
    {tc : TraceContainer (Fin infos.length)} {w : ReplayParam (Fin infos.length)}
    {hints : List TraceReplayHint} (hsize : tc.size < 2 ^ 63)
    (h : SetUpAs infos.get infos.length maxBlks paths tc w hints) :
    ∃ runs, Cut infos.get hints w runs := by
  obtain ⟨st, st', more, hrun, hparams, rfl⟩ := h
  by_cases hnil : tc.infosMap = []
  · rw [setupWorker_nil _ _ _ _ _ hnil] at hrun
    cases hrun
  rcases setupWorker_adds infos.get infos.length maxBlks paths st hnil hsize with
    ⟨st₁, w', runs, hrun', hadds⟩ | ⟨hnone, -⟩
  · rw [hrun] at hrun'
    cases hrun'
    have hw : w' = w := by
      have hlast := hparams.symm.trans hadds.params
      exact (List.singleton_inj.mp (List.append_cancel_left hlast)).symm
    subst hw
    exact ⟨runs, (hadds.ready.append more).toCut⟩
  · rw [hrun] at hnone
    cases hnone

/-- A trace of one write with a fingerprint of `n` characters `b`. -/
def sampleTrace (n : Nat) : Text :=
  [0x31, 0x20, 0x32, 0x20, 0x61, 0x20, 0x30, 0x20, 0x38, 0x20, 0x57, 0x20, 0x36, 0x20, 0x30, 0x20]
    ++ List.replicate n 0x62 ++ [newline]

/-- A fingerprint of one character is accepted, and the worker divides by zero. -/
theorem trace_faults :
    ∃ infos a,
      distributeTrace .fiu .writeonly (fun _ => sampleInfo 0 0 0 0 0) 1 (fun _ => 0)
        (sampleTrace 1) = some ⟨infos, a⟩ ∧
      ∃ tc ∈ a.params, ∃ w hints,
        SetUpAs infos.get infos.length 1 ⟨[], []⟩ tc w hints ∧
        ¬ WorkerFills infos.get (randGener id .null) .writeonly hints w := by
  obtain ⟨⟨infos, a⟩, hx⟩ : ∃ x, distributeTrace .fiu .writeonly
      (fun _ => sampleInfo 0 0 0 0 0) 1 (fun _ => 0) (sampleTrace 1) = some x :=
    Option.isSome_iff_exists.mp (by decide +kernel)
  have hmd5 : infos.map (fun i => i.md5.length) = [1] := by
    have hall : (distributeTrace .fiu .writeonly (fun _ => sampleInfo 0 0 0 0 0) 1 (fun _ => 0)
        (sampleTrace 1)).map (fun x => x.1.map fun i => i.md5.length) = some [1] := by
      decide +kernel
    rw [hx] at hall
    exact Option.some.inj hall
  obtain ⟨i, rfl⟩ : ∃ i, infos = [i] := by
    apply List.length_eq_one_iff.mp
    simpa using congrArg List.length hmd5
  refine ⟨[i], a, hx, ?_⟩
  obtain ⟨tc, htc, w, hints, runs, hset, hcut, hp⟩ :=
    exists_setUpAs 1 ⟨[], []⟩ (Nat.succ_pos 0) hx ⟨0, Nat.succ_pos 0⟩
  refine ⟨tc, htc, w, hints, hset, ?_⟩
  intro hfills
  -- the only record is a write with a fingerprint of one character
  have hstays := (workerFills_iff hcut).mp hfills _ hp (Or.inl (by decide))
  have hlen : i.md5.length = 1 := by simpa using hmd5
  apply hstays.1
  show i.md5.length / 32 = 0
  rw [hlen]

/-- Every hint of every worker with records can be filled, inside its blocks and
    inside the buffer, exactly if all fingerprints that the mode writes have a
    length that `fill_blk` can cut into chunks. -/
theorem trace_materialises_iff {format : TraceFormat} {mode : ReplayMode}
    {uninit : Nat → TraceInfo} {threads : Nat} {rand : Nat → Nat} {file : Text}
    {infos : List TraceInfo} {a : AssignState (Fin infos.length)}
    (gener : Option (RandGener Ctx)) (maxBlks : Word) (paths : ReplayPaths)
    (hthreads : 0 < threads)
    (h : distributeTrace format mode uninit threads rand file = some ⟨infos, a⟩) :
    (∀ tc ∈ a.params, ∀ w hints, SetUpAs infos.get infos.length maxBlks paths tc w hints →
      WorkerFills infos.get gener mode hints w) ↔
    ∀ i ∈ infos, Writes mode i →
      i.md5.length / 32 ∈ (if gener.isSome then [1, 2, 4, 5, 6, 8] else [1, 2, 4, 8]) := by
  constructor
  · intro hall i hi hw
    obtain ⟨p, rfl⟩ := List.get_of_mem hi
    obtain ⟨tc, htc, w, hints, runs, hset, hcut, hp⟩ := exists_setUpAs maxBlks paths hthreads h p
    have hfills := (workerFills_iff hcut).mp (hall tc htc w hints hset)
    exact (staysInside_iff gener (infos.get p).md5_le).mp (hfills p hp hw)
  · intro hlen tc htc w hints hset
    obtain ⟨s, hbuild, hdist⟩ := distributeTrace_eq_some h
    obtain ⟨runs, hcut⟩ := hset.cut
      (Nat.lt_of_le_of_lt (distribute_size_le hthreads hbuild hdist tc htc) (by decide))
    refine (workerFills_iff hcut).mpr ?_
    intro p _ hwrites
    exact (staysInside_iff gener (infos.get p).md5_le).mpr
      (hlen _ (List.get_mem infos p) hwrites)

/-- Two adjacent writes, with fingerprints of 32 and of 64 characters. -/
def adjacentTrace : Text :=
  sampleTrace 32 ++ [0x31, 0x20, 0x32, 0x20, 0x61, 0x20, 0x38, 0x20, 0x38, 0x20, 0x57, 0x20, 0x36, 0x20, 0x30, 0x20]
    ++ List.replicate 64 0x63 ++ [newline]

/-- They are one hint of two blocks, and the buffer of the worker has room for both. -/
theorem trace_materialises_iff_sample :
    ∃ infos a,
      distributeTrace .fiu .writeonly (fun _ => sampleInfo 0 0 0 0 0) 1 (fun _ => 0) adjacentTrace =
        some ⟨infos, a⟩ ∧
      (a.params.map fun tc => (extractHints infos.get infos.length 2 tc.infosMap []).map fun ex =>
        (ex.hints.map TraceReplayHint.continuousBlks, ex.maxContinuousBlks)) = [some ([2], 2)] ∧
      ∀ tc ∈ a.params, ∀ w hints, SetUpAs infos.get infos.length 2 ⟨[], []⟩ tc w hints →
        WorkerFills infos.get (randGener id .null) .writeonly hints w := by
  have hrun : (distributeTrace .fiu .writeonly (fun _ => sampleInfo 0 0 0 0 0) 1 (fun _ => 0)
      adjacentTrace).map (fun x => (x.1.map fun i => i.md5.length,
        x.2.params.map fun tc => (extractHints x.1.get x.1.length 2 tc.infosMap []).map fun ex =>
          (ex.hints.map TraceReplayHint.continuousBlks, ex.maxContinuousBlks))) =
      some ([32, 64], [some ([2], 2)]) := by
    decide +kernel
  obtain ⟨⟨infos, a⟩, hx, hboth⟩ := Option.map_eq_some_iff.mp hrun
  obtain ⟨hmd5, hhints⟩ := Prod.mk.inj hboth
  refine ⟨infos, a, hx, hhints, (trace_materialises_iff (randGener id .null) 2 ⟨[], []⟩ (Nat.succ_pos 0)
    hx).mpr fun i hi _ => ?_⟩
  have hmem : i.md5.length ∈ [32, 64] := hmd5 ▸ List.mem_map_of_mem hi
  rcases List.mem_pair.mp hmem with h | h <;> rw [h] <;> decide

end Trace

end GogetaTools.Replay
