/-
  GogetaTools.Replay.System

  The whole replay: `build_trace_containers`, `assign_params_per_worker`, and the
  workers, whose system calls come in any order.

  The workers share the trace, which they only read, and the file system, in
  which each has its own files.  So every run of all workers ends, and each
  leaves what it leaves alone: `replaySystem_inevitable`.
-/

import GogetaTools.Replay.Worker
import Mathlib.Data.List.FinRange

namespace GogetaTools.Replay

open Map ByteFile EveryRun

/-! ## Set-up -/

section Setup

variable (infos : List TraceInfo)

/-- `build_trace_containers` and `assign_params_per_worker` on a parsed trace. -/
def setupReplay (threads : Nat) (maxContinuous4KBlks : Word) (rand : Nat → Nat)
    (paths : ReplayPaths) :
    Option (List (ReplayParam (Fin infos.length)) × List TraceReplayHint) := do
  let s ← buildTraceContainers infos.get noContainers (List.finRange infos.length)
  assignParamsPerWorker infos.get threads infos.length maxContinuous4KBlks rand paths s

variable {infos}

/-- What the workers are set up with: the groups `gs` of the LBAs, assigned as
    `assigned` says. -/
structure SetupReady (infos : List TraceInfo) (threads : Nat) (paths : ReplayPaths)
    (gs : List (List (Fin infos.length))) (assigned : List (Nat × List (Fin infos.length)))
    (params : List (ReplayParam (Fin infos.length))) (hints : List TraceReplayHint) : Prop where
  groups : Groups infos.get (List.finRange infos.length) gs
  assigned_snd : assigned.map Prod.snd = gs
  assigned_lt : ∀ x ∈ assigned, x.1 < threads
  length : params.length = threads
  ready : ∀ (i : Fin params.length),
    ∃ runs, WorkerReady infos.get hints (shareOf assigned i) (params.get i) runs
  named : ∀ (i : Fin params.length), (params.get i).dstfilepath = paths.dst i ∧
    (params.get i).drfilepath = paths.dumpRead i

theorem SetupReady.cut {threads : Nat} {paths : ReplayPaths} {gs : List (List (Fin infos.length))}
    {assigned : List (Nat × List (Fin infos.length))}
    {params : List (ReplayParam (Fin infos.length))} {hints : List TraceReplayHint}
    (h : SetupReady infos threads paths gs assigned params hints) (i : Fin params.length) :
    ∃ runs, Cut infos.get hints (params.get i) runs := by
  obtain ⟨runs, hready⟩ := h.ready i
  exact ⟨runs, hready.toCut⟩

theorem setupReplay_ready {threads : Nat} {maxBlks : Word} {rand : Nat → Nat}
    {paths : ReplayPaths} {params : List (ReplayParam (Fin infos.length))}
    {hints : List TraceReplayHint} (hthreads : 0 < threads)
    (h : setupReplay infos threads maxBlks rand paths = some (params, hints)) :
    ∃ gs assigned, SetupReady infos threads paths gs assigned params hints := by
  obtain ⟨s, hbuild, hassign⟩ := Option.bind_eq_some_iff.mp h
  obtain ⟨a, hdist, -⟩ := Option.bind_eq_some_iff.mp hassign
  obtain ⟨map, bs, workers, -, hgroups, hworkers, hinv⟩ := distribute_inv hthreads hbuild hdist
  have hspec := assignParamsPerWorker_spec maxBlks paths hthreads (List.nodup_finRange _)
    List.length_finRange hbuild hdist
  rcases hspec with ⟨st, hrun, -, hsetup⟩ | ⟨hnone, -⟩
  · rw [hassign] at hrun
    cases hrun
    have hlen : params.length = threads := by
      have := hsetup.ready.length_eq
      rw [List.length_map, hinv.length] at this
      exact this.symm
    refine ⟨groupsOf s map bs, workers.zip (groupsOf s map bs), hgroups,
      map_snd_zip_workers hworkers, hinv.assigned_lt, hlen, ?_, ?_⟩
    · intro i
      -- the container of worker `i` has the share that it was assigned
      have hi : i.val < a.params.length := by
        rw [hinv.length, ← hlen]
        exact i.isLt
      have hready := hsetup.ready.get (by rw [List.length_map]; exact hi) i.isLt
      have htc : a.params[i.val]? = some a.params[i.val] := List.getElem?_eq_getElem hi
      rw [← (hinv.share i.val _ htc).2]
      simpa using hready
    · intro i
      exact hsetup.named i.val _ (List.getElem?_eq_getElem i.isLt)
  · rw [hassign] at hnone
    cases hnone

/-- The set-up completes when no worker is left without records. -/
theorem setupReplay_isSome {threads : Nat} (maxBlks : Word) {rand : Nat → Nat}
    (paths : ReplayPaths) (hthreads : 0 < threads) {s : Containers (Fin infos.length)}
    {a : AssignState (Fin infos.length)}
    (hbuild : buildTraceContainers infos.get noContainers (List.finRange infos.length) = some s)
    (hdist : distribute infos.get threads infos.length rand s = some a)
    (hne : ∀ tc ∈ a.params, tc.infosMap ≠ []) :
    ∃ params hints, setupReplay infos threads maxBlks rand paths = some (params, hints) := by
  have hspec := assignParamsPerWorker_spec maxBlks paths hthreads (List.nodup_finRange _)
    List.length_finRange hbuild hdist
  rcases hspec with ⟨⟨params, hints⟩, hrun, -⟩ | ⟨-, tc, htc, hnil⟩
  · exact ⟨params, hints, by
      rw [setupReplay, hbuild, Option.bind_eq_bind, Option.bind_some, hrun]⟩
  · exact absurd hnil (hne tc htc)

/-- The workers together have every record once. -/
theorem SetupReady.perm {threads : Nat} {paths : ReplayPaths}
    {gs : List (List (Fin infos.length))} {assigned : List (Nat × List (Fin infos.length))}
    {params : List (ReplayParam (Fin infos.length))} {hints : List TraceReplayHint}
    (h : SetupReady infos threads paths gs assigned params hints) :
    (params.flatMap ReplayParam.infosMap).Perm (List.finRange infos.length) := by
  have hshares : (params.flatMap ReplayParam.infosMap).Perm
      ((List.range threads).flatMap (shareOf assigned)) := by
    have hmap : params.map ReplayParam.infosMap =
        (List.range threads).map fun i => byTs infos.get (shareOf assigned i) := by
      apply List.ext_getElem (by simp [h.length])
      intro i hi _
      rw [List.getElem_map, List.getElem_map, List.getElem_range]
      rw [List.length_map] at hi
      obtain ⟨runs, hready⟩ := h.ready ⟨i, hi⟩
      exact hready.infosMap
    rw [List.flatMap_def, hmap, ← List.flatMap_def]
    apply List.Perm.flatMap_left
    intro i _
    exact StableSort.stableSort_perm _ _
  refine hshares.trans ((shares_perm h.assigned_lt).trans ?_)
  rw [h.assigned_snd]
  exact h.groups.flatten_perm (List.nodup_finRange _)

end Setup

/-! ## The workers together -/

/-- The destination files and the dumps, by path. -/
structure FileSystem where
  files : List Byte → Option (File Byte)
  dumps : List Byte → List Byte

section System

variable {P Ctx : Type}

/-- The files of worker `i`. -/
def workerParts (params : List (ReplayParam P)) : Parts (Fin params.length) FileSystem Disk where
  get i fs :=
    { dst := fs.files (params.get i).dstfilepath
      dump := fs.dumps (params.get i).drfilepath }
  put i d fs :=
    { files := Function.update fs.files (params.get i).dstfilepath d.dst
      dumps := Function.update fs.dumps (params.get i).drfilepath d.dump }

variable (info : P → TraceInfo) (gener : Option (RandGener Ctx)) (mode : ReplayMode)
  (hints : List TraceReplayHint) (params : List (ReplayParam P))

/-- One of the threads takes a step. -/
def ReplaySystem (x y : (Fin params.length → Worker Ctx) × FileSystem) : Prop :=
  SystemStep (workerParts params)
    (fun i => WorkerStep info gener mode hints (params.get i)) x y

/-- All workers are done, and each left the file and the dump of `out`. -/
def AllReplayed (out : Fin params.length → File Byte × List Byte)
    (x : (Fin params.length → Worker Ctx) × FileSystem) : Prop :=
  ∀ i, Replayed (out i) (view (workerParts params) x i)

variable {info gener mode hints params} [Inhabited Ctx]

theorem independent_workerParts {paths : ReplayPaths}
    (h : ∀ i : Fin params.length, (params.get i).dstfilepath = paths.dst i ∧
      (params.get i).drfilepath = paths.dumpRead i) :
    (workerParts params).Independent := by
  constructor
  · intro i d fs
    simp [workerParts]
  · intro i j d fs hji
    have hdst : (params.get j).dstfilepath ≠ (params.get i).dstfilepath := by
      rw [(h i).1, (h j).1]
      exact fun heq => hji (Fin.ext (ReplayPaths.dst_inj heq))
    have hdump : (params.get j).drfilepath ≠ (params.get i).drfilepath := by
      rw [(h i).2, (h j).2]
      exact fun heq => hji (Fin.ext (ReplayPaths.dumpRead_inj heq))
    simp only [workerParts, Function.update_of_ne hdst, Function.update_of_ne hdump]

omit [Inhabited Ctx] in
/-- Threads that are done take no step. -/
theorem not_step_of_finished {x : (Fin params.length → Worker Ctx) × FileSystem}
    (h : ∀ i, (x.1 i).pc = .finished) (y : (Fin params.length → Worker Ctx) × FileSystem) :
    ¬ ReplaySystem info gener mode hints params x y := by
  rintro ⟨i, l, d, ⟨ret, -, hstep⟩, -⟩
  simp only [replayStep, h i] at hstep
  cases hstep

/-- Every run of the workers ends, and each worker leaves what its records leave
    one after the other. -/
theorem replaySystem_inevitable (hparts : (workerParts params).Independent)
    (hcut : ∀ i : Fin params.length, ∃ runs, Cut info hints (params.get i) runs)
    (hrec : ∀ i : Fin params.length, Replayable info gener mode (params.get i).infosMap)
    {x : (Fin params.length → Worker Ctx) × FileSystem} (hstart : ∀ i, (x.1 i).pc = .start) :
    Inevitable (ReplaySystem info gener mode hints params)
      (AllReplayed params fun i => execRecords info mode (recordBlock info gener)
        ((x.2.files (params.get i).dstfilepath).getD File.empty, []) (params.get i).infosMap) x := by
  apply inevitable_system (fun i => WorkerStep info gener mode hints (params.get i)) hparts
  · intro i v hv v'
    exact not_step_of_replayed hv
  intro i
  obtain ⟨runs, hruns⟩ := hcut i
  have hview : view (workerParts params) x i =
      ({ pc := .start, buf := (x.1 i).buf, ctx := (x.1 i).ctx },
        (workerParts params).get i x.2) := by
    rw [view, ← hstart i]
  rw [hview]
  exact replayWorker_inevitable hruns (hrec i) (x.1 i).buf (x.1 i).ctx
    ((workerParts params).get i x.2)

end System

end GogetaTools.Replay
