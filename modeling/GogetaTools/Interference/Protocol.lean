/-
  GogetaTools.Interference.Protocol

  `run` of `nvm_tools-J/helper/rw_interference.cpp` as a protocol: main creates
  one thread per task, joins those that are measured, cancels the others and adds
  up the blocks of the measured ones.

  The threads run `make_file` one system call at a time, in any order between
  them.  Their `open`, `malloc` and `write` may fail, and a `write` may be short,
  which `make_file` does not look at: it counts a block then too.  `open`, `write`
  and `close` are cancellation points, and a cancelled `write` may have been carried
  out or not; a thread may act on the request wherever it is.

  `pthread_create` succeeds: main does not look at what it returns, and would go on
  to join a thread that there is not.  The moments are those up to `free(params)` at
  the end of main's `run`, so that a thread finds its task whenever it starts.

  `run_measures` says what comes out of all this: at every moment the threads have
  handed to `write` what `run` of the tasks module gives for some progress of theirs,
  and their files have got of each block a beginning; main gets to its end, and the
  number of blocks it reports is the number that the measured threads have handed over.
-/

import GogetaTools.Interference.Tasks
import GogetaTools.Lib.ForkJoin

namespace GogetaTools.Interference

open ForkJoin EveryRun

/-! ## The threads -/

/-- Where a thread is in `make_file`. -/
inductive Pc
  | opening
  | allocating
  | looping (block : Word) (buf : List Byte)
  | counting (block : Word) (buf : List Byte)
  | closing
  | returned (ret : Int)
  | cancelled
deriving DecidableEq

/-- The thread does not step any more. -/
def Pc.ended : Pc → Bool
  | .returned _ => true
  | .cancelled => true
  | _ => false

/-- A thread, its task's `progress`, and the buffers it has handed to the calls of `write`
    that did not fail, with the bytes that these have transferred. -/
structure Thread where
  pc : Pc
  progress : Word
  written : List (List Byte)
  transferred : List (List Byte)

/-- The steps of `make_file` for one task. -/
inductive ThreadStep (granularity : Nat) (task : RwInterfTask) (malloc : List Byte)
    (cancelled : Bool) (th : Thread) : Thread → Prop
  | openFails : th.pc = .opening →
      ThreadStep granularity task malloc cancelled th { th with pc := .returned (-1) }
  | opens : th.pc = .opening →
      ThreadStep granularity task malloc cancelled th { th with pc := .allocating }
  | mallocFails : th.pc = .allocating →
      ThreadStep granularity task malloc cancelled th { th with pc := .returned (-1) }
  | mallocs : th.pc = .allocating →
      ThreadStep granularity task malloc cancelled th { th with pc := .looping 0 malloc }
  | writeFails {block : Word} {buf : List Byte} :
      th.pc = .looping block buf → block < task.numBlocks →
      ThreadStep granularity task malloc cancelled th { th with pc := .returned (-1) }
  -- `ret` is some number up to `granularity`
  | writes {block : Word} {buf : List Byte} (ret : Nat) :
      th.pc = .looping block buf → block < task.numBlocks →
      ThreadStep granularity task malloc cancelled th
        { pc := .counting block (fillBuffer granularity (task.startMagic + block) buf)
          progress := th.progress
          written := th.written ++ [fillBuffer granularity (task.startMagic + block) buf]
          transferred :=
            th.transferred ++ [(fillBuffer granularity (task.startMagic + block) buf).take ret] }
  | counts {block : Word} {buf : List Byte} : th.pc = .counting block buf →
      ThreadStep granularity task malloc cancelled th
        { th with pc := .looping (block + 1) buf, progress := block + 1 }
  | leaves {block : Word} {buf : List Byte} :
      th.pc = .looping block buf → ¬ block < task.numBlocks →
      ThreadStep granularity task malloc cancelled th { th with pc := .closing }
  | returns : th.pc = .closing →
      ThreadStep granularity task malloc cancelled th { th with pc := .returned 0 }
  | cancels : cancelled = true → th.pc.ended = false →
      ThreadStep granularity task malloc cancelled th { th with pc := .cancelled }

/-- The task of thread `i`. -/
def taskAt (tasks : List RwInterfTask) (i : Nat) : RwInterfTask :=
  tasks[i]?.getD { startMagic := 0, numBlocks := 0, progress := 0, id := 0, dup := false }

/-- `dedup_or_write_task` for every task, with the buffers as `malloc` returned them. -/
def taskThreads (granularity : Nat) (malloc : Nat → List Byte) (tasks : List RwInterfTask) :
    Workers Thread where
  start i := { pc := .opening, progress := (taskAt tasks i).progress, written := [], transferred := [] }
  work i cancelled := ThreadStep granularity (taskAt tasks i) (malloc i) cancelled
  ended th := th.pc.ended = true

/-! ## Main -/

def MO_WRITE_LAT : Int := 2

def numReaders (tasks : List RwInterfTask) : Nat := (tasks.filter (·.dup)).length

/-- The threads that main waits for. -/
def targets (measurementObject : Int) (tasks : List RwInterfTask) : List Nat :=
  if measurementObject = MO_READ_LAT then List.range (numReaders tasks)
  else if measurementObject = MO_WRITE_LAT then
    List.range' (numReaders tasks) (tasks.length - numReaders tasks)
  else []

/-- The threads that main cancels. -/
def remains (measurementObject : Int) (tasks : List RwInterfTask) : List Nat :=
  if measurementObject = MO_READ_LAT then
    List.range' (numReaders tasks) (tasks.length - numReaders tasks)
  else if measurementObject = MO_WRITE_LAT then List.range (numReaders tasks)
  else []

/-- The calls of `run` to the threads library. -/
def runCalls (measurementObject : Int) (tasks : List RwInterfTask) : List Act :=
  (List.range tasks.length).map .create ++
    ((targets measurementObject tasks).map .join ++ (remains measurementObject tasks).map .cancel)

/-- `param->rw_task_param->progress`. -/
def progressOf (tasks : List RwInterfTask) (s : State Thread) (i : Nat) : Word :=
  ((s.worker i).map Thread.progress).getD (taskAt tasks i).progress

/-- `total_processed_blocks`. -/
def totalProcessedBlocks (measurementObject : Int) (tasks : List RwInterfTask)
    (s : State Thread) : Word :=
  (targets measurementObject tasks).foldl (fun total i => total + progressOf tasks s i) 0

/-- What thread `i` has handed to `write`. -/
def writtenOf (s : State Thread) (i : Nat) : List (List Byte) :=
  ((s.worker i).map Thread.written).getD []

/-- What has got into its file. -/
def transferredOf (s : State Thread) (i : Nat) : List (List Byte) :=
  ((s.worker i).map Thread.transferred).getD []

/-- What every task has handed to `write`. -/
def writtenBlocks (tasks : List RwInterfTask) (s : State Thread) :
    List (RwInterfTask × List (List Byte)) :=
  (List.range tasks.length).map fun i => (taskAt tasks i, writtenOf s i)

/-- The tasks whose time and blocks are reported. -/
def measured (measurementObject : Int) (task : RwInterfTask) : Bool :=
  if measurementObject = MO_READ_LAT then task.dup
  else if measurementObject = MO_WRITE_LAT then !task.dup
  else false

/-! ## What a thread does -/

section Threads

variable {granularity : Nat} {task : RwInterfTask} {malloc : List Byte}

theorem length_makeFileLoop (startMagic : Word) :
    ∀ (n : Nat) (block : Word) (buf : List Byte),
      (makeFileLoop granularity startMagic n block buf).length = n := by
  intro n
  induction n with
  | zero => intro block buf; rfl
  | succ n ih =>
      intro block buf
      rw [makeFileLoop, List.length_cons, ih]

theorem toNat_add_one {a b : Word} (h : a < b) : (a + 1).toNat = a.toNat + 1 := by
  have hlt : a.toNat < b.toNat := h
  have hmax := b.isLt
  rw [BitVec.toNat_add]
  exact Nat.mod_eq_of_lt (Nat.lt_of_le_of_lt hlt hmax)

/-- What the thread has written and what it goes on to write are the blocks of its
    task, and `progress` counts the former wherever it may be read. -/
def Fine (granularity : Nat) (task : RwInterfTask) (malloc : List Byte) (th : Thread) : Prop :=
  let blocks := dedupOrWriteTask granularity task malloc
  match th.pc with
  | .opening => th.written = [] ∧ th.progress = 0
  | .allocating => th.written = [] ∧ th.progress = 0
  | .looping block buf =>
      block ≤ task.numBlocks ∧ th.progress = block ∧ th.written.length = block.toNat ∧
        blocks = th.written ++ makeFileLoop granularity task.startMagic
          (task.numBlocks.toNat - block.toNat) block buf
  | .counting block buf =>
      block < task.numBlocks ∧ th.written.length = block.toNat + 1 ∧
        blocks = th.written ++ makeFileLoop granularity task.startMagic
          (task.numBlocks.toNat - (block.toNat + 1)) (block + 1) buf
  | .closing => th.written = blocks ∧ th.progress = task.numBlocks
  | .returned ret =>
      th.written <+: blocks ∧ th.progress = BitVec.ofNat 64 th.written.length ∧
        (ret = 0 → th.written = blocks)
  | .cancelled => th.written <+: blocks

/-- At every moment a thread has written the first blocks of its task. -/
theorem Fine.begins {th : Thread} (h : Fine granularity task malloc th) :
    th.written <+: dedupOrWriteTask granularity task malloc := by
  rw [Fine] at h
  cases hpc : th.pc with
  | opening =>
      rw [hpc] at h
      rw [h.1]
      exact List.nil_prefix
  | allocating =>
      rw [hpc] at h
      rw [h.1]
      exact List.nil_prefix
  | looping block buf =>
      rw [hpc] at h
      exact ⟨_, h.2.2.2.symm⟩
  | counting block buf =>
      rw [hpc] at h
      exact ⟨_, h.2.2.symm⟩
  | closing =>
      rw [hpc] at h
      rw [h.1]
  | returned ret =>
      rw [hpc] at h
      exact h.1
  | cancelled =>
      rw [hpc] at h
      exact h

/-- A thread that was not cancelled has counted its blocks when it ends. -/
theorem Fine.returned {th : Thread} (h : Fine granularity task malloc th)
    (hend : th.pc.ended = true) (hnot : th.pc ≠ .cancelled) :
    ∃ ret, th.pc = .returned ret ∧ th.progress = BitVec.ofNat 64 th.written.length ∧
      (ret = 0 → th.written = dedupOrWriteTask granularity task malloc) := by
  rw [Fine] at h
  cases hpc : th.pc with
  | returned ret =>
      rw [hpc] at h
      exact ⟨ret, rfl, h.2⟩
  | cancelled => exact absurd hpc hnot
  | _ =>
      rw [hpc] at hend
      cases hend

theorem fine_start (hprogress : task.progress = 0) :
    Fine granularity task malloc
      { pc := .opening, progress := task.progress, written := [], transferred := [] } :=
  ⟨rfl, hprogress⟩

theorem Fine.step {cancelled : Bool} {th th' : Thread} (h : Fine granularity task malloc th)
    (hstep : ThreadStep granularity task malloc cancelled th th') :
    Fine granularity task malloc th' := by
  have hbegun := h.begins
  rw [Fine] at h
  cases hstep with
  | openFails hpc =>
      -- nothing was written and nothing counted
      rw [hpc] at h
      refine ⟨hbegun, ?_, fun h0 => absurd h0 (by decide)⟩
      rw [h.1, h.2]
      rfl
  | opens hpc =>
      rw [hpc] at h
      exact h
  | mallocFails hpc =>
      rw [hpc] at h
      refine ⟨hbegun, ?_, fun h0 => absurd h0 (by decide)⟩
      rw [h.1, h.2]
      rfl
  | mallocs hpc =>
      rw [hpc] at h
      refine ⟨Nat.zero_le _, h.2, ?_, ?_⟩
      · rw [h.1]
        rfl
      · rw [h.1]
        rfl
  | @writeFails block buf hpc hlt =>
      rw [hpc] at h
      obtain ⟨-, hprogress, hlen, -⟩ := h
      refine ⟨hbegun, ?_, fun h0 => absurd h0 (by decide)⟩
      rw [hprogress, hlen, BitVec.ofNat_toNat, BitVec.setWidth_eq]
  | @writes block buf ret hpc hlt =>
      rw [hpc] at h
      obtain ⟨-, -, hlen, hblocks⟩ := h
      have hlt' : block.toNat < task.numBlocks.toNat := hlt
      -- `written` is one ahead of `progress` from here to `counts`
      refine ⟨hlt, by simp [hlen], ?_⟩
      rw [hblocks, show task.numBlocks.toNat - block.toNat =
        task.numBlocks.toNat - (block.toNat + 1) + 1 by omega, makeFileLoop, List.append_assoc]
      rfl
  | @counts block buf hpc =>
      rw [hpc] at h
      obtain ⟨hlt, hlen, hblocks⟩ := h
      have hlt' : block.toNat < task.numBlocks.toNat := hlt
      have hnext := toNat_add_one hlt
      refine ⟨?_, rfl, by rw [hnext]; exact hlen, by rw [hnext]; exact hblocks⟩
      rw [BitVec.le_def, hnext]
      exact hlt'
  | @leaves block buf hpc hge =>
      rw [hpc] at h
      obtain ⟨hle, hprogress, -, hblocks⟩ := h
      have heq : block = task.numBlocks := BitVec.le_antisymm hle (BitVec.not_lt.mp hge)
      refine ⟨?_, hprogress.trans heq⟩
      rw [hblocks, heq, Nat.sub_self, makeFileLoop, List.append_nil]
  | returns hpc =>
      rw [hpc] at h
      -- the loop was left at `num_blocks`, which is how many blocks were written
      refine ⟨hbegun, ?_, fun _ => h.1⟩
      show th.progress = BitVec.ofNat 64 th.written.length
      rw [h.1, h.2, dedupOrWriteTask, makeFile, length_makeFileLoop, BitVec.ofNat_toNat,
        BitVec.setWidth_eq]
  | cancels _ _ => exact hbegun

/-- Of each block that was handed to `write` the file has got a beginning. -/
def Begun (th : Thread) : Prop := List.Forall₂ (· <+: ·) th.transferred th.written

theorem Begun.step {cancelled : Bool} {th th' : Thread} (h : Begun th)
    (hstep : ThreadStep granularity task malloc cancelled th th') : Begun th' := by
  cases hstep with
  | writes ret _ _ =>
      -- however few of the bytes `write` takes
      exact List.rel_append h (List.Forall₂.cons (List.take_prefix ..) List.Forall₂.nil)
  | openFails | opens | mallocFails | mallocs | writeFails | counts | leaves | returns | cancels => exact h

/-- The steps that a thread has left at most. -/
def threadRank (task : RwInterfTask) (th : Thread) : Nat :=
  match th.pc with
  | .opening => 2 * task.numBlocks.toNat + 5
  | .allocating => 2 * task.numBlocks.toNat + 4
  | .looping block _ => 2 * (task.numBlocks.toNat - block.toNat) + 3
  | .counting block _ => 2 * (task.numBlocks.toNat - block.toNat) + 2
  | .closing => 1
  | .returned _ => 0
  | .cancelled => 0

theorem threadRank_pos {th : Thread} (h : th.pc.ended = false) : 0 < threadRank task th := by
  rw [threadRank]
  cases hpc : th.pc with
  | returned ret =>
      rw [hpc] at h
      cases h
  | cancelled =>
      rw [hpc] at h
      cases h
  | _ => exact Nat.succ_pos _

theorem Fine.threadRank_lt {cancelled : Bool} {th th' : Thread}
    (h : Fine granularity task malloc th)
    (hstep : ThreadStep granularity task malloc cancelled th th') :
    threadRank task th' < threadRank task th := by
  rw [Fine] at h
  cases hstep with
  | cancels _ hend => exact threadRank_pos hend
  | @writes block buf ret hpc hlt =>
      simp only [threadRank, hpc]
      omega
  | @counts block buf hpc =>
      rw [hpc] at h
      have hlt' : block.toNat < task.numBlocks.toNat := h.1
      have hnext := toNat_add_one h.1
      simp only [threadRank, hpc, hnext]
      omega
  | mallocs hpc =>
      simp only [threadRank, hpc]
      have hzero : (0 : Word).toNat = 0 := rfl
      omega
  | openFails hpc | opens hpc | mallocFails hpc | writeFails hpc _ | leaves hpc _ | returns hpc =>
      simp only [threadRank, hpc]
      omega

theorem exists_threadStep (cancelled : Bool) {th : Thread} (h : th.pc.ended = false) :
    ∃ th', ThreadStep granularity task malloc cancelled th th' := by
  cases hpc : th.pc with
  | opening => exact ⟨_, .opens hpc⟩
  | allocating => exact ⟨_, .mallocs hpc⟩
  | looping block buf =>
      by_cases hlt : block < task.numBlocks
      · exact ⟨_, .writes granularity hpc hlt⟩
      · exact ⟨_, .leaves hpc hlt⟩
  | counting block buf => exact ⟨_, .counts hpc⟩
  | closing => exact ⟨_, .returns hpc⟩
  | returned ret =>
      rw [hpc] at h
      cases h
  | cancelled =>
      rw [hpc] at h
      cases h

theorem not_threadStep_of_ended {cancelled : Bool} {th th' : Thread} (h : th.pc.ended = true) :
    ¬ ThreadStep granularity task malloc cancelled th th' := by
  intro hstep
  cases hstep with
  | cancels _ hend =>
      rw [h] at hend
      cases hend
  | openFails hpc | opens hpc | mallocFails hpc | mallocs hpc | counts hpc | returns hpc
  | writeFails hpc _ | writes _ hpc _ | leaves hpc _ =>
      rw [hpc] at h
      cases h

end Threads

/-- What holds of thread `i` at every moment: without a request it is not cancelled. -/
def FineThread (granularity : Nat) (malloc : Nat → List Byte) (tasks : List RwInterfTask) (i : Nat)
    (cancelled : Bool) (th : Thread) : Prop :=
  Fine granularity (taskAt tasks i) (malloc i) th ∧ Begun th ∧ (cancelled = false → th.pc ≠ .cancelled)

theorem proper_taskThreads {granularity : Nat} {malloc : Nat → List Byte}
    {tasks : List RwInterfTask} (hprogress : ∀ i, (taskAt tasks i).progress = 0) :
    Proper (taskThreads granularity malloc tasks) (FineThread granularity malloc tasks)
      (fun i => threadRank (taskAt tasks i)) where
  start i _ := ⟨fine_start (hprogress i), List.Forall₂.nil, fun _ h => by cases h⟩
  cancel _ _ h := ⟨h.1, h.2.1, fun hc => by cases hc⟩
  keeps i c th th' h hstep := by
    refine ⟨⟨h.1.step hstep, h.2.1.step hstep, fun hc => ?_⟩, h.1.threadRank_lt hstep⟩
    cases hstep with
    | cancels hc' _ =>
        rw [hc] at hc'
        cases hc'
    | _ => exact fun h => by cases h
  progress i c th _ := by
    cases hend : th.pc.ended with
    | true => exact Or.inl hend
    | false => exact Or.inr (exists_threadStep c hend)
  final _ _ _ hend _ := not_threadStep_of_ended hend

/-! ## What main does -/

section Main

variable {granularity : Nat} {malloc : Nat → List Byte}

/-- Main waits for some of the threads, each once, and cancels others. -/
theorem targets_remains (measurementObject : Int) (tasks : List RwInterfTask) :
    (targets measurementObject tasks).Nodup ∧
      (∀ i ∈ targets measurementObject tasks, i < tasks.length) ∧
      ∀ i ∈ remains measurementObject tasks, i < tasks.length ∧
        i ∉ targets measurementObject tasks := by
  have hle : numReaders tasks ≤ tasks.length := List.length_filter_le _ _
  rw [targets, remains]
  split
  · refine ⟨List.nodup_range, fun i hi => ?_, fun i hi => ?_⟩
    · have := List.mem_range.mp hi
      omega
    · have := List.mem_range'_1.mp hi
      rw [List.mem_range]
      omega
  · split
    · refine ⟨List.nodup_range', fun i hi => ?_, fun i hi => ?_⟩
      · have := List.mem_range'_1.mp hi
        omega
      · have := List.mem_range.mp hi
        rw [List.mem_range'_1]
        omega
    · simp

/-- The calls are defined where main makes them: no thread is joined twice, or
    cancelled after it was joined. -/
theorem orderly_runCalls (measurementObject : Int) (tasks : List RwInterfTask) :
    Orderly (fun _ => false) (fun _ => false) (runCalls measurementObject tasks) := by
  obtain ⟨hnodup, hlt, hrest⟩ := targets_remains measurementObject tasks
  refine orderly_creates _ List.nodup_range (fun _ _ => rfl) (orderly_joins _ hnodup ?_ ?_ ?_)
  · exact fun i hi => by simp [mark, hlt i hi]
  · exact fun _ _ => rfl
  · refine orderly_cancels _ (fun i hi => ?_) fun i hi => ?_
    · simp [mark, (hrest i hi).1]
    · simp [mark, (hrest i hi).2]

/-- A thread that main waits for is joined and not cancelled. -/
theorem mem_runCalls_of_target {measurementObject : Int} {tasks : List RwInterfTask} {i : Nat}
    (hi : i ∈ targets measurementObject tasks) :
    .join i ∈ runCalls measurementObject tasks ∧ .cancel i ∉ runCalls measurementObject tasks := by
  obtain ⟨-, -, hrest⟩ := targets_remains measurementObject tasks
  simp only [runCalls, List.mem_append, List.mem_map, Act.join.injEq, Act.cancel.injEq,
    reduceCtorEq, and_false, exists_false, exists_eq_right, false_or, or_false]
  exact ⟨hi, fun h => (hrest i h).2 hi⟩

/-- The readers come first, so the threads that main waits for are those whose tasks
    are measured. -/
theorem targets_eq (measurementObject : Int) {readers writers : List RwInterfTask}
    (hreaders : ∀ task ∈ readers, task.dup = true) (hwriters : ∀ task ∈ writers, task.dup = false) :
    targets measurementObject (readers ++ writers) =
      (List.range (readers ++ writers).length).filter fun i =>
        measured measurementObject (taskAt (readers ++ writers) i) := by
  have hnum : numReaders (readers ++ writers) = readers.length := by
    rw [numReaders, List.filter_append, List.filter_eq_self.mpr hreaders,
      List.filter_eq_nil_iff.mpr fun task h => by simp [hwriters task h], List.append_nil]
  have hreader : ∀ i < readers.length, (taskAt (readers ++ writers) i).dup = true := by
    intro i hi
    rw [taskAt, List.getElem?_append_left hi, List.getElem?_eq_getElem hi]
    exact hreaders _ (List.getElem_mem hi)
  have hwriter : ∀ i, readers.length ≤ i → (taskAt (readers ++ writers) i).dup = false := by
    intro i hi
    rw [taskAt, List.getElem?_append_right hi]
    cases hget : writers[i - readers.length]? with
    | none => rfl
    | some task => exact hwriters task (List.mem_of_getElem? hget)
  have hsplit : List.range (readers ++ writers).length =
      List.range readers.length ++ List.range' readers.length writers.length := by
    rw [List.length_append, List.range_eq_range', List.range_eq_range', ← List.range'_append_1,
      Nat.zero_add]
  rw [targets, hnum, hsplit, List.filter_append, List.length_append, Nat.add_sub_cancel_left]
  split
  next hread =>
    rw [List.filter_eq_self.mpr, List.filter_eq_nil_iff.mpr, List.append_nil]
    · intro i hi
      simp [measured, hread, hwriter i (List.mem_range'_1.mp hi).1]
    · intro i hi
      simp [measured, hread, hreader i (List.mem_range.mp hi)]
  next hread =>
    split
    next hwrite =>
      rw [List.filter_eq_nil_iff.mpr, List.filter_eq_self.mpr, List.nil_append]
      · intro i hi
        rw [measured, if_neg hread, if_pos hwrite, hwriter i (List.mem_range'_1.mp hi).1]
        rfl
      · intro i hi
        rw [measured, if_neg hread, if_pos hwrite, hreader i (List.mem_range.mp hi)]
        exact Bool.false_ne_true
    next hwrite =>
      rw [List.filter_eq_nil_iff.mpr, List.filter_eq_nil_iff.mpr, List.append_nil]
      · simp [measured, hread, hwrite]
      · simp [measured, hread, hwrite]

theorem runLoop_eq (progress : Nat → Nat) :
    ∀ (tasks : List RwInterfTask) (k : Nat), runLoop granularity malloc progress tasks k =
      (List.range tasks.length).map fun i => (taskAt tasks i,
        (dedupOrWriteTask granularity (taskAt tasks i) (malloc (k + i))).take (progress (k + i))) := by
  intro tasks
  induction tasks with
  | nil => intro k; rfl
  | cons task tasks ih =>
      intro k
      rw [runLoop, ih, List.length_cons, List.range_succ_eq_map, List.map_cons, List.map_map]
      refine congrArg _ (List.map_congr_left fun i _ => ?_)
      rw [Nat.add_assoc, Nat.add_comm 1]
      rfl

/-- The tasks of `make_tasks`, readers first, none of them begun. -/
theorem makeTasks_fresh (readerNum writerNum : Word32) (total : Word) (measurementObject : Int) :
    ∃ readers writers, listedTasks (makeTasks readerNum writerNum total measurementObject).2 =
        readers ++ writers ∧ (∀ task ∈ readers, task.dup = true) ∧
      (∀ task ∈ writers, task.dup = false) ∧
      ∀ task ∈ readers ++ writers, task.progress = 0 := by
  have hzero : ∀ (n : Nat) (numBlocks : Word) (dup : Bool) (firstId i : Word32) (start : Word),
      ∀ task ∈ assignTasks numBlocks dup firstId n i start, task.progress = 0 := by
    intro n numBlocks dup firstId
    induction n with
    | zero => exact fun i start task h => by cases h
    | succ n ih =>
        intro i start task h
        rcases List.mem_cons.mp h with rfl | h
        · rfl
        · exact ih _ _ task h
  rw [listedTasks, makeTasks]
  by_cases hnum : readerNum + writerNum = 0
  · refine ⟨[], [], ?_, by simp, by simp, by simp⟩
    simp only [if_pos hnum]
    rfl
  · simp only [if_neg hnum, List.take_append]
    refine ⟨_, _, rfl, fun task h => ?_, fun task h => ?_, fun task h => ?_⟩
    · exact dup_of_mem_assignTasks _ _ _ task (List.mem_of_mem_take h)
    · exact dup_of_mem_assignTasks _ _ _ task (List.mem_of_mem_take h)
    · rcases List.mem_append.mp h with h | h
      · exact hzero _ _ _ _ _ _ task (List.mem_of_mem_take h)
      · exact hzero _ _ _ _ _ _ task (List.mem_of_mem_take h)

/-- Threads whose progress counts their blocks add up to the number of their blocks. -/
theorem totalProcessedBlocks_eq {measurementObject : Int} {tasks : List RwInterfTask}
    {s : State Thread}
    (htargets : targets measurementObject tasks = (List.range tasks.length).filter fun i =>
      measured measurementObject (taskAt tasks i))
    (h : ∀ i ∈ targets measurementObject tasks,
      progressOf tasks s i = BitVec.ofNat 64 (writtenOf s i).length) :
    totalProcessedBlocks measurementObject tasks s = BitVec.ofNat 64
      ((((writtenBlocks tasks s).filter fun p => measured measurementObject p.1).map fun p =>
        p.2.length).sum) := by
  have hfold : ∀ (ids : List Nat) (total : Word),
      (∀ i ∈ ids, progressOf tasks s i = BitVec.ofNat 64 (writtenOf s i).length) →
      ids.foldl (fun total i => total + progressOf tasks s i) total =
        total + BitVec.ofNat 64 ((ids.map fun i => (writtenOf s i).length).sum) := by
    intro ids
    induction ids with
    | nil => exact fun total _ => (BitVec.add_zero total).symm
    | cons i ids ih =>
        intro total hids
        rw [List.foldl_cons, ih _ fun j hj => hids j (List.mem_cons_of_mem _ hj),
          hids i (by simp), List.map_cons, List.sum_cons, BitVec.ofNat_add, BitVec.add_assoc]
  rw [totalProcessedBlocks, hfold _ 0 h, writtenBlocks, List.filter_map, List.map_map, htargets]
  exact BitVec.zero_add _

section Runs

variable {measurementObject : Int} {tasks : List RwInterfTask} {s t : State Thread}

/-- What the threads have written at any moment, by their progress. -/
theorem writtenBlocks_eq
    (hs : Good (taskThreads granularity malloc tasks) (FineThread granularity malloc tasks)
      (runCalls measurementObject tasks) s) :
    writtenBlocks tasks s =
      runLoop granularity malloc (fun i => (writtenOf s i).length) tasks 0 := by
  rw [runLoop_eq, writtenBlocks]
  refine List.map_congr_left fun i _ => ?_
  simp only [Nat.zero_add]
  cases hth : s.worker i with
  | none => simp [writtenOf, hth]
  | some th =>
      -- what a thread has written is a beginning, so its length says it all
      have hbegun := (hs.inv i th hth).1.begins
      have hwritten : writtenOf s i = th.written := by simp [writtenOf, hth]
      rw [hwritten, ← List.prefix_iff_eq_take.mp hbegun]

theorem transferredOf_begun
    (hs : Good (taskThreads granularity malloc tasks) (FineThread granularity malloc tasks)
      (runCalls measurementObject tasks) s) (i : Nat) :
    List.Forall₂ (· <+: ·) (transferredOf s i) (writtenOf s i) := by
  rw [transferredOf, writtenOf]
  cases hth : s.worker i with
  | none => exact List.Forall₂.nil
  | some th => exact (hs.inv i th hth).2.1

/-- When main is through with its calls, the threads it waited for have returned. -/
theorem returned_of_target
    (ht : Good (taskThreads granularity malloc tasks) (FineThread granularity malloc tasks)
      (runCalls measurementObject tasks) t)
    (hdone : t.script = []) {i : Nat} (hi : i ∈ targets measurementObject tasks) :
    t.joined i = true ∧ ∃ th ret, t.worker i = some th ∧ th.pc = .returned ret ∧
      th.progress = BitVec.ofNat 64 th.written.length ∧
      (ret = 0 → th.written = dedupOrWriteTask granularity (taskAt tasks i) (malloc i)) := by
  obtain ⟨past, hpast, -, hjoined, hcancelled⟩ := ht.past
  rw [hdone, List.append_nil] at hpast
  obtain ⟨hjoin, hcancel⟩ := mem_runCalls_of_target hi
  rw [hpast] at hjoin hcancel
  -- main makes no `pthread_cancel` for a thread that it joins
  have hnot : t.cancelled i = false := by
    cases hc : t.cancelled i with
    | false => rfl
    | true => exact absurd ((hcancelled i).mp hc) hcancel
  obtain ⟨th, hth, hend⟩ := ht.ended i ((hjoined i).mpr hjoin)
  obtain ⟨hfine, -, hpc⟩ := ht.inv i th hth
  obtain ⟨ret, hret, hrest⟩ := hfine.returned hend (hpc hnot)
  exact ⟨(hjoined i).mpr hjoin, th, ret, hth, hret, hrest⟩

end Runs

/-- At any moment, in any order of the steps of main and of the threads, whatever calls of the
    threads fail or fall short: the tasks have handed to `write` what they do for some progress of
    theirs, and the files have got a beginning of each block.  Main gets to the end of its calls.
    There the threads of the measured tasks have returned, with all blocks handed over unless a
    call failed, and from then on the number of blocks that main adds up is the number that the
    measured tasks have handed over, the short ones with the others. -/
theorem run_measures (readerNum writerNum : Word32) (totalNumBlocks : Word)
    (measurementObject : Int) (granularity : Nat) (malloc : Nat → List Byte) (s : State Thread) :
    let taskList := (makeTasks readerNum writerNum totalNumBlocks measurementObject).2
    let tasks := listedTasks taskList
    let step := Step (taskThreads granularity malloc tasks)
    Relation.ReflTransGen step (init (runCalls measurementObject tasks)) s →
      (∃ progress, writtenBlocks tasks s = run granularity malloc progress taskList) ∧
      (∀ i, List.Forall₂ (· <+: ·) (transferredOf s i) (writtenOf s i)) ∧
      Inevitable step (fun t => t.script = [] ∧
        (∀ i < tasks.length, measured measurementObject (taskAt tasks i) = true →
          ∃ th ret, t.worker i = some th ∧ th.pc = .returned ret ∧
            (ret = 0 → th.written = dedupOrWriteTask granularity (taskAt tasks i) (malloc i))) ∧
        ∀ u, Relation.ReflTransGen step t u →
          totalProcessedBlocks measurementObject tasks u = BitVec.ofNat 64
            ((((writtenBlocks tasks u).filter fun p => measured measurementObject p.1).map fun p =>
              p.2.length).sum)) s := by
  intro taskList tasks step hrun
  obtain ⟨readers, writers, htasks, hreaders, hwriters, hzero⟩ :=
    makeTasks_fresh readerNum writerNum totalNumBlocks measurementObject
  have htasks' : tasks = readers ++ writers := htasks
  have htargets := targets_eq measurementObject hreaders hwriters
  rw [← htasks'] at htargets hzero
  have hprogress : ∀ i, (taskAt tasks i).progress = 0 := by
    intro i
    rw [taskAt]
    cases hget : tasks[i]? with
    | none => rfl
    | some task => exact hzero task (List.mem_of_getElem? hget)
  have hproper := @proper_taskThreads granularity malloc tasks hprogress
  have hgood := (good_init (orderly_runCalls measurementObject tasks)).run hproper hrun
  refine ⟨⟨_, writtenBlocks_eq hgood⟩, transferredOf_begun hgood, (hgood.finishes hproper).mono fun t ht => ?_⟩
  obtain ⟨hdone, ht⟩ := ht
  refine ⟨hdone, fun i hi hmeasured => ?_, fun u hu => ?_⟩
  · have hmem : i ∈ targets measurementObject tasks := by
      rw [htargets]
      exact List.mem_filter.mpr ⟨List.mem_range.mpr hi, hmeasured⟩
    obtain ⟨-, th, ret, hth, hret, -, hall⟩ := returned_of_target ht hdone hmem
    exact ⟨th, ret, hth, hret, hall⟩
  · -- a joined thread does not step any more, so its progress stays
    refine totalProcessedBlocks_eq htargets fun i hi => ?_
    obtain ⟨hjoin, th, ret, hth, -, hcount, -⟩ := returned_of_target ht hdone hi
    rw [progressOf, writtenOf, (ht.worker_of_joined hproper hu hjoin).1, hth]
    exact hcount

/-- One reader with one block and one writer with three, measured by the reader, of whose `write`
    only three bytes get through: main has joined the one and cancelled the other, and reports the
    block. -/
theorem run_measures_shortWrite :
    let taskList := (makeTasks 1 1 4 MO_READ_LAT).2
    let tasks := listedTasks taskList
    let malloc := fun _ => List.replicate 16 (0 : Byte)
    let step := Step (taskThreads 16 malloc tasks)
    ∃ s, s.script = [] ∧ (transferredOf s 0).map List.length = [3] ∧
      totalProcessedBlocks MO_READ_LAT tasks s = 1 ∧
      (∃ progress, writtenBlocks tasks s = run 16 malloc progress taskList) ∧
      (∀ i, List.Forall₂ (· <+: ·) (transferredOf s i) (writtenOf s i)) ∧
      Inevitable step (fun t => t.script = [] ∧
        (∀ i < tasks.length, measured MO_READ_LAT (taskAt tasks i) = true →
          ∃ th ret, t.worker i = some th ∧ th.pc = .returned ret ∧
            (ret = 0 → th.written = dedupOrWriteTask 16 (taskAt tasks i) (malloc i))) ∧
        ∀ u, Relation.ReflTransGen step t u →
          totalProcessedBlocks MO_READ_LAT tasks u = BitVec.ofNat 64
            ((((writtenBlocks tasks u).filter fun p => measured MO_READ_LAT p.1).map fun p =>
              p.2.length).sum)) s := by
  intro taskList tasks malloc step
  have hrun : ∃ s, s.script = [] ∧ (transferredOf s 0).map List.length = [3] ∧
      totalProcessedBlocks MO_READ_LAT tasks s = 1 ∧
      Relation.ReflTransGen step (init (runCalls MO_READ_LAT tasks)) s := by
    refine ⟨_, ?_, ?_, ?_, Relation.ReflTransGen.refl.tail (.create rfl rfl) |>.tail (.create rfl rfl)
      |>.tail (.work (i := 0) rfl (.opens rfl)) |>.tail (.work (i := 0) rfl (.mallocs rfl))
      |>.tail (.work (i := 0) rfl (.writes 3 rfl (by decide)))
      |>.tail (.work (i := 0) rfl (.counts rfl))
      |>.tail (.work (i := 0) rfl (.leaves rfl (by decide)))
      |>.tail (.work (i := 0) rfl (.returns rfl)) |>.tail (.join rfl rfl rfl rfl)
      |>.tail (.cancel rfl rfl rfl)⟩
    · rfl
    · decide
    · decide
  obtain ⟨s, hscript, hshort, htotal, hs⟩ := hrun
  exact ⟨s, hscript, hshort, htotal, run_measures 1 1 4 MO_READ_LAT 16 malloc s hs⟩

end Main

end GogetaTools.Interference
