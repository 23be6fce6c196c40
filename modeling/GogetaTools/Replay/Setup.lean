/-
  GogetaTools.Replay.Setup

  `assign_params_per_worker` as a whole: the distribution, then for every worker
  the timestamp sort, the hint extraction and the parameters of its thread.

  An access outside an array is `none`, so that the set-up returning means that
  every index was in range.  `assignParamsPerWorker_spec` says that it returns
  exactly if every worker has records, and what the workers get then.
-/

import GogetaTools.Lib.Decimal
import GogetaTools.Replay.Distribute
import GogetaTools.Replay.Hints
import GogetaTools.Replay.TimestampSort

namespace GogetaTools.Replay

open Map StableSort Decimal

section Setup

variable {P : Type} (info : P → TraceInfo)

/-- `replay_param_t`, without the arrays all workers share; `buf` is given by its
    size in blocks. -/
structure ReplayParam (P : Type) where
  infosMap : List P
  hintsStart : Nat
  hintsEnd : Nat
  bufBlks : Nat
  dstfilepath : List Byte
  drfilepath : List Byte

/-- The directories given with `-d` and `-r`. -/
structure ReplayPaths where
  dstpath : List Byte
  dumpReadPath : List Byte

/-- `sprintf(.., "trace_%d", i)` behind `dstpath`. -/
def ReplayPaths.dst (paths : ReplayPaths) (i : Nat) : List Byte :=
  paths.dstpath ++ [0x74, 0x72, 0x61, 0x63, 0x65, 0x5f] ++ decimal i

/-- `sprintf(.., "dump_read_%d", i)` behind `dump_read_path`. -/
def ReplayPaths.dumpRead (paths : ReplayPaths) (i : Nat) : List Byte :=
  paths.dumpReadPath ++ [0x64, 0x75, 0x6d, 0x70, 0x5f, 0x72, 0x65, 0x61, 0x64, 0x5f] ++ decimal i

theorem ReplayPaths.dst_inj {paths : ReplayPaths} {i j : Nat} (h : paths.dst i = paths.dst j) :
    i = j :=
  decimal_inj (List.append_cancel_left h)

theorem ReplayPaths.dumpRead_inj {paths : ReplayPaths} {i j : Nat}
    (h : paths.dumpRead i = paths.dumpRead j) : i = j :=
  decimal_inj (List.append_cancel_left h)

/-- The body of the second loop over the workers. -/
def setupWorker (validLines : Nat) (maxContinuous4KBlks : Word) (paths : ReplayPaths)
    (st : List (ReplayParam P) × List TraceReplayHint) (tc : TraceContainer P) :
    Option (List (ReplayParam P) × List TraceReplayHint) := do
  let infosMap ← sortInfomapByTs (fun p => (info p).ts) tc.infosMap
  let ex ← extractHints info validLines maxContinuous4KBlks infosMap st.2
  let param :=
    { infosMap := infosMap
      hintsStart := st.2.length
      hintsEnd := ex.hints.length
      bufBlks := ex.maxContinuousBlks
      dstfilepath := paths.dst st.1.length
      drfilepath := paths.dumpRead st.1.length }
  some (st.1 ++ [param], ex.hints)

def assignParamsPerWorker (threads validLines : Nat) (maxContinuous4KBlks : Word)
    (rand : Nat → Nat) (paths : ReplayPaths) (s : Containers P) :
    Option (List (ReplayParam P) × List TraceReplayHint) := do
  let a ← distribute info threads validLines rand s
  a.params.foldlM (setupWorker info validLines maxContinuous4KBlks paths) ([], [])

/-- The timestamp order of the workers. -/
def byTs (ps : List P) : List P := stableSort (tsKey fun p => (info p).ts) ps

/-- The hints of worker `w` cut its records into the coalesced `runs`. -/
structure Cut (hints : List TraceReplayHint) (w : ReplayParam P) (runs : List (List P)) :
    Prop where
  flatten : w.infosMap = runs.flatten
  coalesced : CoalescedRuns info runs w.bufBlks
  hints : ∃ before behind, hints = before ++ hintsOf info 0 runs ++ behind ∧
    w.hintsStart = before.length ∧ w.hintsEnd = before.length + runs.length

/-- A worker's parameters: the records `share` sorted by timestamp, and cut. -/
structure WorkerReady (hints : List TraceReplayHint) (share : List P) (w : ReplayParam P)
    (runs : List (List P)) : Prop extends Cut info hints w runs where
  share_ne : share ≠ []
  infosMap : w.infosMap = byTs info share

variable {info}

theorem WorkerReady.append {hints : List TraceReplayHint} {share : List P} {w : ReplayParam P}
    {runs : List (List P)} (h : WorkerReady info hints share w runs)
    (more : List TraceReplayHint) : WorkerReady info (hints ++ more) share w runs := by
  obtain ⟨before, behind, heq, hstart, hend⟩ := h.hints
  exact ⟨⟨h.flatten, h.coalesced, before, behind ++ more, by rw [heq, List.append_assoc], hstart,
    hend⟩, h.share_ne, h.infosMap⟩

/-- The state of the loop: the workers so far are ready and the hints in bounds. -/
structure SetupInv (info : P → TraceInfo) (validLines : Nat) (paths : ReplayPaths)
    (shares : List (List P)) (st : List (ReplayParam P) × List TraceReplayHint) : Prop where
  ready : List.Forall₂ (fun share w => ∃ runs, WorkerReady info st.2 share w runs) shares st.1
  named : ∀ i w, st.1[i]? = some w → 
    w.dstfilepath = paths.dst i ∧ w.drfilepath = paths.dumpRead i
  blks_pos : ∀ h ∈ st.2, 1 ≤ h.continuousBlks
  hints_le : st.2.length ≤ validLines
  hints_le_lines : st.2.length ≤ shares.flatten.length

/-- What the loop body adds: the worker `w` and the hints of its `runs`. -/
structure Adds (info : P → TraceInfo) (validLines : Nat) (paths : ReplayPaths) (share : List P)
    (st st' : List (ReplayParam P) × List TraceReplayHint) (w : ReplayParam P)
    (runs : List (List P)) : Prop where
  params : st'.1 = st.1 ++ [w]
  hints : st'.2 = st.2 ++ hintsOf info 0 runs
  ready : WorkerReady info st'.2 share w runs
  named : w.dstfilepath = paths.dst st.1.length ∧ w.drfilepath = paths.dumpRead st.1.length
  hints_le : st'.2.length ≤ validLines

/-- A worker with records takes them in timestamp order; the hints may fail. -/
theorem setupWorker_eq (info : P → TraceInfo) (validLines : Nat) (maxBlks : Word) (paths : ReplayPaths)
    (st : List (ReplayParam P) × List TraceReplayHint) {tc : TraceContainer P}
    (hne : tc.infosMap ≠ []) (hsize : tc.size < 2 ^ 63) :
    setupWorker info validLines maxBlks paths st tc =
      (extractHints info validLines maxBlks (byTs info tc.infosMap) st.2).map fun ex =>
        (st.1 ++ [{ infosMap := byTs info tc.infosMap
                    hintsStart := st.2.length
                    hintsEnd := ex.hints.length
                    bufBlks := ex.maxContinuousBlks
                    dstfilepath := paths.dst st.1.length
                    drfilepath := paths.dumpRead st.1.length }], ex.hints) := by
  rw [setupWorker, sortInfomapByTs_spec (fun p => (info p).ts) hne hsize, Option.map_eq_bind]
  rfl

theorem byTs_ne_nil (info : P → TraceInfo) {ps : List P} (hne : ps ≠ []) : byTs info ps ≠ [] := by
  intro hnil
  have hperm : (byTs info ps).Perm ps := stableSort_perm _ _
  rw [hnil] at hperm
  exact hne hperm.symm.eq_nil

/-- A worker with records gets its parameters, if the hints fit. -/
theorem setupWorker_adds (info : P → TraceInfo) (validLines : Nat) (maxBlks : Word) (paths : ReplayPaths)
    (st : List (ReplayParam P) × List TraceReplayHint) {tc : TraceContainer P}
    (hne : tc.infosMap ≠ []) (hsize : tc.size < 2 ^ 63) :
    (∃ st' w runs, setupWorker info validLines maxBlks paths st tc = some st' ∧
      Adds info validLines paths tc.infosMap st st' w runs) ∨
    (setupWorker info validLines maxBlks paths st tc = none ∧
      validLines < st.2.length + tc.infosMap.length) := by
  rw [setupWorker_eq info validLines maxBlks paths st hne hsize]
  rcases extractHints_spec info validLines maxBlks (byTs_ne_nil info hne) st.2 with
    ⟨runs, ex, hrun, hflat, hruns, hhints, hle⟩ | ⟨hrun, hfull⟩
  · left
    have hhlen : ex.hints.length = st.2.length + runs.length := by
      rw [hhints, List.length_append, length_hintsOf]
    rw [hrun, Option.map_some]
    refine ⟨_, _, runs, rfl, rfl, hhints, ?_, ⟨rfl, rfl⟩, hle⟩
    refine ⟨⟨hflat, hruns, st.2, [], ?_, rfl, hhlen⟩, hne, rfl⟩
    rw [List.append_nil]
    exact hhints
  · right
    refine ⟨by rw [hrun, Option.map_none], ?_⟩
    rwa [byTs, (stableSort_perm _ _).length_eq] at hfull

/-- Without records there is no first one to take a hint from. -/
theorem setupWorker_nil (info : P → TraceInfo) (validLines : Nat) (maxBlks : Word)
    (paths : ReplayPaths) (st : List (ReplayParam P) × List TraceReplayHint)
    {tc : TraceContainer P} (hnil : tc.infosMap = []) :
    setupWorker info validLines maxBlks paths st tc = none := by
  rw [setupWorker, hnil, sortInfomapByTs_nil]
  rfl

/-- One worker: the loop goes on exactly if it has records and the hints fit. -/
theorem setupWorker_spec {validLines : Nat} (maxBlks : Word) {paths : ReplayPaths}
    {shares : List (List P)} {st : List (ReplayParam P) × List TraceReplayHint}
    (hinv : SetupInv info validLines paths shares st) {tc : TraceContainer P}
    (hsize : tc.size < 2 ^ 63) :
    (∃ st', setupWorker info validLines maxBlks paths st tc = some st' ∧ tc.infosMap ≠ [] ∧
      SetupInv info validLines paths (shares ++ [tc.infosMap]) st') ∨
    (setupWorker info validLines maxBlks paths st tc = none ∧
      (tc.infosMap = [] ∨ validLines < shares.flatten.length + tc.infosMap.length)) := by
  by_cases hne : tc.infosMap = []
  · exact Or.inr ⟨setupWorker_nil info validLines maxBlks paths st hne, Or.inl hne⟩
  · rcases setupWorker_adds info validLines maxBlks paths st hne hsize with
      ⟨st', w, runs, hrun, hadds⟩ | ⟨hrun, hfull⟩
    · left
      have hruns_le := length_le_flatten fun run hmem => (hadds.ready.coalesced.coalesced run hmem).1
      rw [← hadds.ready.flatten, hadds.ready.infosMap, byTs,
        (stableSort_perm _ tc.infosMap).length_eq] at hruns_le
      refine ⟨st', hrun, hne, ?_, ?_, ?_, hadds.hints_le, ?_⟩
      · -- the hints of the workers before are still there
        rw [hadds.params]
        refine List.rel_append ?_ (List.Forall₂.cons ⟨runs, hadds.ready⟩ List.Forall₂.nil)
        refine hinv.ready.imp ?_
        rintro share w' ⟨runs', hready⟩
        refine ⟨runs', ?_⟩
        rw [hadds.hints]
        exact hready.append _
      · -- the files are named by the worker's position
        intro i w' hi
        rw [hadds.params] at hi
        by_cases hlt : i < st.1.length
        · rw [List.getElem?_append_left hlt] at hi
          exact hinv.named i w' hi
        · rw [List.getElem?_append_right (by omega), List.getElem?_singleton] at hi
          split at hi
          · rename_i hzero
            have heq : i = st.1.length := by omega
            cases hi
            rw [heq]
            exact hadds.named
          · cases hi
      · intro h hmem
        rw [hadds.hints, List.mem_append] at hmem
        rcases hmem with hmem | hmem
        · exact hinv.blks_pos h hmem
        · obtain ⟨run, hrmem, hblks⟩ := continuousBlks_of_mem_hintsOf info 0 hmem
          rw [hblks]
          exact List.length_pos_iff.mpr (hadds.ready.coalesced.coalesced run hrmem).1
      · have := hinv.hints_le_lines
        rw [hadds.hints, List.length_append, length_hintsOf, List.flatten_append,
          List.length_append, List.flatten_singleton]
        omega
    · right
      have := hinv.hints_le_lines
      exact ⟨hrun, Or.inr (by omega)⟩

/-- All workers: the set-up returns exactly if none of them is empty. -/
theorem setupWorkers_spec {validLines : Nat} (maxBlks : Word) {paths : ReplayPaths} :
    ∀ (tcs : List (TraceContainer P)) (shares : List (List P))
      (st : List (ReplayParam P) × List TraceReplayHint),
      SetupInv info validLines paths shares st → (∀ tc ∈ tcs, tc.size < 2 ^ 63) →
      shares.flatten.length + (tcs.flatMap TraceContainer.infosMap).length ≤ validLines →
      (∃ st', tcs.foldlM (setupWorker info validLines maxBlks paths) st = some st' ∧
        (∀ tc ∈ tcs, tc.infosMap ≠ []) ∧
        SetupInv info validLines paths (shares ++ tcs.map TraceContainer.infosMap) st') ∨
      (tcs.foldlM (setupWorker info validLines maxBlks paths) st = none ∧
        ∃ tc ∈ tcs, tc.infosMap = []) := by
  intro tcs
  -- Induction on the workers; one of them fails only if it has no record.
  induction tcs with
  | nil =>
      intro shares st hinv _ _
      exact Or.inl ⟨st, rfl, by simp, by simpa using hinv⟩
  | cons tc tcs ih =>
      intro shares st hinv hsize hlines
      rw [List.flatMap_cons, List.length_append] at hlines
      rw [List.foldlM_cons]
      rcases setupWorker_spec maxBlks hinv (hsize tc (List.mem_cons_self ..)) with
        ⟨st₁, hrun, hne, hinv₁⟩ | ⟨hrun, hempty⟩
      · rw [hrun, Option.bind_eq_bind, Option.bind_some]
        rcases ih (shares ++ [tc.infosMap]) st₁ hinv₁
          (fun tc' h => hsize tc' (List.mem_cons_of_mem _ h))
          (by simp only [List.flatten_append, List.flatten_singleton, List.length_append]; omega)
          with ⟨st', hrest, hall, hinv'⟩ | ⟨hrest, tc', hmem, hnil⟩
        · refine Or.inl ⟨st', hrest, ?_, ?_⟩
          · intro tc' hmem
            rcases List.mem_cons.mp hmem with rfl | hmem
            · exact hne
            · exact hall tc' hmem
          · rw [List.map_cons, ← List.singleton_append, ← List.append_assoc]
            exact hinv'
        · exact Or.inr ⟨hrest, tc', List.mem_cons_of_mem _ hmem, hnil⟩
      · rw [hrun]
        refine Or.inr ⟨rfl, tc, List.mem_cons_self .., ?_⟩
        rcases hempty with h | h
        · exact h
        · omega

theorem setupInv_nil (info : P → TraceInfo) (validLines : Nat) (paths : ReplayPaths) :
    SetupInv info validLines paths [] ([], []) :=
  ⟨List.Forall₂.nil, by simp, by simp, Nat.zero_le _, Nat.le_refl _⟩

/-- After the distribution the set-up returns exactly if every worker has records. -/
theorem assignParamsPerWorker_spec {threads validLines : Nat} {rand : Nat → Nat} {s : Containers P}
    {ps : List P} {a : AssignState P} (maxBlks : Word) (paths : ReplayPaths)
    (hthreads : 0 < threads) (hnd : ps.Nodup) (hvalid : ps.length = validLines)
    (hbuild : buildTraceContainers info noContainers ps = some s)
    (hrun : distribute info threads validLines rand s = some a) :
    (∃ st, assignParamsPerWorker info threads validLines maxBlks rand paths s = some st ∧
      (∀ tc ∈ a.params, tc.infosMap ≠ []) ∧
      SetupInv info validLines paths (a.params.map TraceContainer.infosMap) st) ∨
    (assignParamsPerWorker info threads validLines maxBlks rand paths s = none ∧
      ∃ tc ∈ a.params, tc.infosMap = []) := by
  have hsize : ∀ tc ∈ a.params, tc.size < 2 ^ 63 := fun tc htc =>
    Nat.lt_of_le_of_lt (distribute_size_le hthreads hbuild hrun tc htc) (by decide)
  have hlines : (a.params.flatMap TraceContainer.infosMap).length = validLines := by
    rw [(distribute_perm hthreads hnd hbuild hrun).length_eq, hvalid]
  have hall := setupWorkers_spec maxBlks a.params [] ([], [])
    (setupInv_nil info validLines paths) hsize (by rw [hlines]; simp)
  rw [assignParamsPerWorker, hrun, Option.bind_eq_bind, Option.bind_some]
  exact hall

end Setup

end GogetaTools.Replay
