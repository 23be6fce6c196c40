/-
  GogetaTools.Interference.Tasks

  `nvm_tools-J/helper/rw_interference.cpp`: the tasks of the readers and the
  writers, the files of stage 1 and the blocks the tasks write in stage 2.

  A block is the content of the buffer that is handed to `write`; every 8 bytes
  of it are the block's number ("magic").  The tasks lay out the numbers without
  a gap, the readers from 0 and the writers from `total_num_blocks` on (`Laid`),
  and stage 1 counts through them once more from 0.  So stage 1 writes the numbers
  below the sum of its tasks, which covers what the readers write and stays below
  what the writers write (`interference_blocks`).

  The threads of stage 2 share no buffer, hence what they have written at any
  moment is given by the progress of each.
-/

import GogetaTools.Words
import Mathlib.Data.List.Nodup
import Mathlib.Data.Nat.Log

namespace GogetaTools.Interference

/-! ## `make_tasks` -/

def MO_READ_LAT : Int := 1

/-- `rw_interf_task_t`. -/
structure RwInterfTask where
  startMagic : Word
  numBlocks : Word
  progress : Word
  id : Word32
  dup : Bool
deriving DecidableEq

/-- An `unsigned long` as a `double`: 53 significant bits, ties to even. -/
def toDouble (n : Nat) : Nat :=
  let ulp := 2 ^ (Nat.log2 n - 52)
  let q := n / ulp
  let r := n % ulp
  if 2 * r < ulp ∨ (2 * r = ulp ∧ q % 2 = 0) then q * ulp else (q + 1) * ulp

/-- `total_num_blocks * PREDEFINED_RATIO`, truncated to an `unsigned long`: the
    product with `1.0 / 4.0` is exact. -/
def predefinedShare (totalNumBlocks : Word) : Word :=
  BitVec.ofNat 64 (toDouble totalNumBlocks.toNat / 4)

/-- `total_reader_num_blocks` and `total_writer_num_blocks`. -/
def splitBlocks (readerNum writerNum : Word32) (totalNumBlocks : Word) (measurementObject : Int) :
    Word × Word :=
  if readerNum = 0 then (0, totalNumBlocks)
  else if writerNum = 0 then (totalNumBlocks, 0)
  else if measurementObject = MO_READ_LAT then
    (predefinedShare totalNumBlocks, totalNumBlocks - predefinedShare totalNumBlocks)
  else (totalNumBlocks - predefinedShare totalNumBlocks, predefinedShare totalNumBlocks)

/-- `reader_num_blocks` or `writer_num_blocks`. -/
def blocksPerTask (num : Word32) (totalNumBlocks : Word) : Word :=
  if num = 0 then 0 else totalNumBlocks / num.setWidth 64

/-- The loops that assign the tasks: `n` are left, `i` is the loop's index. -/
def assignTasks (numBlocks : Word) (dup : Bool) (firstId : Word32) :
    Nat → Word32 → Word → List RwInterfTask
  | 0, _, _ => []
  | n + 1, i, startMagic =>
      { startMagic := startMagic, numBlocks := numBlocks, progress := 0, id := i + firstId,
        dup := dup } :: assignTasks numBlocks dup firstId n (i + 1) (startMagic + numBlocks)

/-- The return value and `task_list`. -/
def makeTasks (readerNum writerNum : Word32) (totalNumBlocks : Word) (measurementObject : Int) :
    Int × List RwInterfTask :=
  let numTasks := readerNum + writerNum
  if numTasks = 0 then (-1, [])
  else
    let totals := splitBlocks readerNum writerNum totalNumBlocks measurementObject
    (0, assignTasks (blocksPerTask readerNum totals.1) true 0 readerNum.toNat 0 0 ++
      assignTasks (blocksPerTask writerNum totals.2) false readerNum writerNum.toNat 0
        totalNumBlocks)

/-! ## `make_file` and the two stages -/

/-- `buf[i] = w` for an array of `unsigned long`. -/
def storeWord (buf : List Byte) (i : Nat) (w : Word) : List Byte :=
  buf.take (8 * i) ++ (List.range 8).map (wordBytes w) ++ buf.drop (8 * i + 8)

/-- The loop that fills the buffer. -/
def fillBuffer (granularity : Nat) (magic : Word) (buf : List Byte) : List Byte :=
  (List.range (granularity / 8)).foldl (fun buf i => storeWord buf i magic) buf

/-- The loop over `block`; it answers the buffers handed to `write`. -/
def makeFileLoop (granularity : Nat) (startMagic : Word) :
    Nat → Word → List Byte → List (List Byte)
  | 0, _, _ => []
  | n + 1, block, buf =>
      let buf := fillBuffer granularity (startMagic + block) buf
      buf :: makeFileLoop granularity startMagic n (block + 1) buf

/-- `make_file`, with the buffer as `malloc` returned it. -/
def makeFile (numBlocks startMagic : Word) (granularity : Nat) (buf : List Byte) :
    List (List Byte) :=
  makeFileLoop granularity startMagic numBlocks.toNat 0 buf

/-- The first `num_tasks` tasks, `task_list.size()` being stored in an `unsigned int`. -/
def listedTasks (taskList : List RwInterfTask) : List RwInterfTask :=
  taskList.take (taskList.length % 2 ^ 32)

def prepareLoop (granularity : Nat) (malloc : Nat → List Byte) :
    List RwInterfTask → Nat → Word → List (List Byte)
  | [], _, _ => []
  | task :: tasks, i, startMagic =>
      makeFile task.numBlocks startMagic granularity (malloc i) ++
        prepareLoop granularity malloc tasks (i + 1) (startMagic + task.numBlocks)

/-- Stage 1: the blocks of all files. -/
def prepareWorkload (granularity : Nat) (malloc : Nat → List Byte)
    (taskList : List RwInterfTask) : List (List Byte) :=
  prepareLoop granularity malloc (listedTasks taskList) 0 0

def dedupOrWriteTask (granularity : Nat) (task : RwInterfTask) (buf : List Byte) :
    List (List Byte) :=
  makeFile task.numBlocks task.startMagic granularity buf

def runLoop (granularity : Nat) (malloc : Nat → List Byte) (progress : Nat → Nat) :
    List RwInterfTask → Nat → List (RwInterfTask × List (List Byte))
  | [], _ => []
  | task :: tasks, i =>
      (task, (dedupOrWriteTask granularity task (malloc i)).take (progress i)) ::
        runLoop granularity malloc progress tasks (i + 1)

/-- Stage 2 when the thread of task `i` has written `progress i` blocks (or all of
    its blocks): what every task has written. -/
def run (granularity : Nat) (malloc : Nat → List Byte) (progress : Nat → Nat)
    (taskList : List RwInterfTask) : List (RwInterfTask × List (List Byte)) :=
  runLoop granularity malloc progress (listedTasks taskList) 0

/-! ## What a block holds -/

/-- The block of a magic number. -/
def magicBlock (granularity : Nat) (magic : Word) : List Byte :=
  (List.replicate (granularity / 8) ((List.range 8).map (wordBytes magic))).flatten

section Blocks

variable {granularity : Nat}

theorem length_magicBlock (n : Nat) (magic : Word) :
    (List.replicate n ((List.range 8).map (wordBytes magic))).flatten.length = 8 * n := by
  rw [List.length_flatten, List.map_replicate, List.sum_replicate_nat, List.length_map,
    List.length_range, Nat.mul_comm]

/-- After `n` words the front of the buffer holds the magic number `n` times. -/
theorem fillBuffer_prefix (magic : Word) (buf : List Byte) :
    ∀ n, 8 * n ≤ buf.length →
      (List.range n).foldl (fun buf i => storeWord buf i magic) buf =
        (List.replicate n ((List.range 8).map (wordBytes magic))).flatten ++
          buf.drop (8 * n) := by
  intro n
  induction n with
  | zero => intro _; rfl
  | succ n ih =>
      intro hlen
      have hfront := length_magicBlock n magic
      rw [List.range_succ, List.foldl_append, ih (by omega), List.foldl_cons, List.foldl_nil,
        storeWord, ← hfront, List.take_left, ← List.drop_drop, List.drop_left, hfront,
        List.drop_drop, List.replicate_succ', List.flatten_append, List.flatten_singleton,
        Nat.mul_succ]

/-- The loop overwrites the whole buffer. -/
theorem fillBuffer_eq (hdvd : 8 ∣ granularity) (magic : Word) {buf : List Byte}
    (hbuf : buf.length = granularity) :
    fillBuffer granularity magic buf = magicBlock granularity magic := by
  have hwords : 8 * (granularity / 8) = granularity := Nat.mul_div_cancel' hdvd
  rw [fillBuffer, fillBuffer_prefix magic buf _ (by omega), hwords, ← hbuf, List.drop_length,
    List.append_nil, magicBlock]

theorem magicBlock_length (hdvd : 8 ∣ granularity) (magic : Word) :
    (magicBlock granularity magic).length = granularity := by
  rw [magicBlock, length_magicBlock, Nat.mul_div_cancel' hdvd]

/-- Blocks are told apart by their magic numbers. -/
theorem magicBlock_inj (hg : 8 ≤ granularity) {a b : Word}
    (h : magicBlock granularity a = magicBlock granularity b) : a = b := by
  obtain ⟨n, hn⟩ : ∃ n, granularity / 8 = n + 1 := ⟨granularity / 8 - 1, by omega⟩
  rw [magicBlock, magicBlock, hn, List.replicate_succ, List.replicate_succ, List.flatten_cons,
    List.flatten_cons] at h
  have hfirst := List.append_inj_left h (by simp)
  refine wordBytes_inj fun i hi => ?_
  have hi' := congrArg (fun l : List Byte => l[i]?) hfirst
  simpa [List.getElem?_map, List.getElem?_range hi] using hi'

theorem makeFileLoop_eq (hdvd : 8 ∣ granularity) (startMagic : Word) :
    ∀ (n k : Nat) (buf : List Byte), buf.length = granularity →
      makeFileLoop granularity startMagic n (BitVec.ofNat 64 k) buf =
        (List.range' k n).map fun b =>
          magicBlock granularity (startMagic + BitVec.ofNat 64 b) := by
  intro n
  induction n with
  | zero => intro k buf _; rfl
  | succ n ih =>
      intro k buf hbuf
      have hnext : BitVec.ofNat 64 k + 1 = BitVec.ofNat 64 (k + 1) := by
        rw [BitVec.ofNat_add]
        rfl
      rw [makeFileLoop, fillBuffer_eq hdvd _ hbuf, hnext, ih _ _ (magicBlock_length hdvd _),
        List.range'_succ, List.map_cons]

/-- Every file holds the blocks of consecutive magic numbers. -/
theorem makeFile_eq (hdvd : 8 ∣ granularity) (numBlocks startMagic : Word) {buf : List Byte}
    (hbuf : buf.length = granularity) :
    makeFile numBlocks startMagic granularity buf =
      (List.range' startMagic.toNat numBlocks.toNat).map fun magic =>
        magicBlock granularity (BitVec.ofNat 64 magic) := by
  have hloop : makeFileLoop granularity startMagic numBlocks.toNat 0 buf = _ :=
    makeFileLoop_eq hdvd startMagic numBlocks.toNat 0 buf hbuf
  rw [makeFile, hloop, List.range'_eq_map_range, List.range'_eq_map_range, List.map_map,
    List.map_map]
  refine List.map_congr_left fun b _ => ?_
  simp only [Function.comp_apply, Nat.zero_add]
  rw [BitVec.ofNat_add, BitVec.ofNat_toNat, BitVec.setWidth_eq]

end Blocks

/-! ## How the tasks share out the magic numbers -/

/-- The tasks start where the one before ends, the first at `start`. -/
def Laid : Nat → List RwInterfTask → Prop
  | _, [] => True
  | start, task :: tasks =>
      task.startMagic.toNat = start ∧ Laid (start + task.numBlocks.toNat) tasks

def blockSum (tasks : List RwInterfTask) : Nat := (tasks.map fun task => task.numBlocks.toNat).sum

@[simp] theorem blockSum_nil : blockSum [] = 0 := rfl

@[simp] theorem blockSum_cons (task : RwInterfTask) (tasks : List RwInterfTask) :
    blockSum (task :: tasks) = task.numBlocks.toNat + blockSum tasks := by
  simp [blockSum]

@[simp] theorem blockSum_append (tasks tasks' : List RwInterfTask) :
    blockSum (tasks ++ tasks') = blockSum tasks + blockSum tasks' := by
  simp [blockSum]

theorem blockSum_take_le (tasks : List RwInterfTask) (k : Nat) :
    blockSum (tasks.take k) ≤ blockSum tasks := by
  conv_rhs => rw [← List.take_append_drop k tasks, blockSum_append]
  exact Nat.le_add_right _ _

theorem Laid.take {start : Nat} {tasks : List RwInterfTask} (h : Laid start tasks) (k : Nat) :
    Laid start (tasks.take k) := by
  induction tasks generalizing start k with
  | nil => rw [List.take_nil]; exact h
  | cons task tasks ih =>
      cases k with
      | zero => exact trivial
      | succ k => exact ⟨h.1, ih h.2 k⟩

section Assign

variable {numBlocks : Word} {dup : Bool} {firstId : Word32}

theorem blockSum_assignTasks (n : Nat) (i : Word32) (start : Word) :
    blockSum (assignTasks numBlocks dup firstId n i start) = n * numBlocks.toNat := by
  induction n generalizing i start with
  | zero => simp [assignTasks]
  | succ n ih => rw [assignTasks, blockSum_cons, ih, Nat.succ_mul, Nat.add_comm]

theorem laid_assignTasks (n : Nat) (i : Word32) (start : Word)
    (hfit : start.toNat + n * numBlocks.toNat < 2 ^ 64) :
    Laid start.toNat (assignTasks numBlocks dup firstId n i start) := by
  induction n generalizing i start with
  | zero => exact trivial
  | succ n ih =>
      rw [Nat.succ_mul] at hfit
      have hnext : (start + numBlocks).toNat = start.toNat + numBlocks.toNat := by
        rw [BitVec.toNat_add, Nat.mod_eq_of_lt (by omega)]
      refine ⟨rfl, ?_⟩
      rw [← hnext]
      exact ih (i + 1) (start + numBlocks) (by rw [hnext]; omega)

theorem dup_of_mem_assignTasks (n : Nat) (i : Word32) (start : Word) :
    ∀ task ∈ assignTasks numBlocks dup firstId n i start, task.dup = dup := by
  induction n generalizing i start with
  | zero => intro task h; cases h
  | succ n ih =>
      intro task h
      rcases List.mem_cons.mp h with rfl | h
      · rfl
      · exact ih _ _ task h

end Assign

/-! ### The stages write consecutive numbers -/

section Stages

variable {granularity : Nat} {malloc : Nat → List Byte}

/-- The block of a number below `2 ^ 64`. -/
def numberBlock (granularity : Nat) (magic : Nat) : List Byte :=
  magicBlock granularity (BitVec.ofNat 64 magic)

theorem numberBlock_inj (hg : 8 ≤ granularity) {a b : Nat} (ha : a < 2 ^ 64) (hb : b < 2 ^ 64)
    (h : numberBlock granularity a = numberBlock granularity b) : a = b := by
  have hab := congrArg BitVec.toNat (magicBlock_inj hg h)
  rwa [BitVec.toNat_ofNat, BitVec.toNat_ofNat, Nat.mod_eq_of_lt ha, Nat.mod_eq_of_lt hb] at hab

/-- Stage 1 writes the numbers from `startMagic` on, one after the other. -/
theorem prepareLoop_eq (hdvd : 8 ∣ granularity) (hmalloc : ∀ i, (malloc i).length = granularity) :
    ∀ (tasks : List RwInterfTask) (i : Nat) (startMagic : Word),
      startMagic.toNat + blockSum tasks < 2 ^ 64 →
      prepareLoop granularity malloc tasks i startMagic =
        (List.range' startMagic.toNat (blockSum tasks)).map (numberBlock granularity) := by
  intro tasks
  induction tasks with
  | nil => intro i startMagic _; rfl
  | cons task tasks ih =>
      intro i startMagic hfit
      rw [blockSum_cons] at hfit
      have hnext : (startMagic + task.numBlocks).toNat =
          startMagic.toNat + task.numBlocks.toNat := by
        rw [BitVec.toNat_add, Nat.mod_eq_of_lt (by omega)]
      rw [prepareLoop, makeFile_eq hdvd _ _ (hmalloc i), ih _ _ (by rw [hnext]; omega), hnext,
        blockSum_cons, ← List.range'_append_1, List.map_append]
      rfl

/-- Stage 2 writes, in whatever progress, an increasing sequence of numbers. -/
theorem runLoop_numbers (hdvd : 8 ∣ granularity)
    (hmalloc : ∀ i, (malloc i).length = granularity) (progress : Nat → Nat) :
    ∀ (tasks : List RwInterfTask) (i start : Nat), Laid start tasks →
      ∃ numbers : List Nat, numbers.Pairwise (· < ·) ∧
        (∀ n ∈ numbers, start ≤ n ∧ n < start + blockSum tasks) ∧
        (runLoop granularity malloc progress tasks i).flatMap Prod.snd =
          numbers.map (numberBlock granularity) := by
  intro tasks
  induction tasks with
  | nil => intro i start _; exact ⟨[], List.Pairwise.nil, by simp, rfl⟩
  | cons task tasks ih =>
      intro i start hlaid
      obtain ⟨hstart, hrest⟩ := hlaid
      obtain ⟨numbers, hlt, hrange, heq⟩ := ih (i + 1) _ hrest
      -- the blocks that this task writes before it stops, numbered from `start`
      let own := (List.range' start task.numBlocks.toNat).take (progress i)
      have hown : ∀ n ∈ own, start ≤ n ∧ n < start + task.numBlocks.toNat := by
        intro n hn
        exact List.mem_range'_1.mp (List.mem_of_mem_take hn)
      refine ⟨own ++ numbers, ?_, ?_, ?_⟩
      · refine List.pairwise_append.mpr ⟨?_, hlt, ?_⟩
        · exact (List.pairwise_lt_range' (s := start)).sublist (List.take_sublist _ _)
        · -- those of the later tasks begin behind the whole range of this one
          intro a ha b hb
          have h1 := hown a ha
          have h2 := hrange b hb
          omega
      · intro n hn
        rw [blockSum_cons]
        rcases List.mem_append.mp hn with hn | hn
        · have h1 := hown n hn
          omega
        · have h2 := hrange n hn
          omega
      · rw [runLoop, List.flatMap_cons, heq, List.map_append, dedupOrWriteTask,
          makeFile_eq hdvd _ _ (hmalloc i), hstart, List.map_take]
        rfl

/-- The blocks of one task are among these. -/
theorem exists_number_of_mem_runLoop (hdvd : 8 ∣ granularity)
    (hmalloc : ∀ i, (malloc i).length = granularity) {progress : Nat → Nat}
    {tasks : List RwInterfTask} {i start : Nat} (hlaid : Laid start tasks)
    {p : RwInterfTask × List (List Byte)} (hp : p ∈ runLoop granularity malloc progress tasks i)
    {b : List Byte} (hb : b ∈ p.2) :
    ∃ n, start ≤ n ∧ n < start + blockSum tasks ∧ b = numberBlock granularity n := by
  obtain ⟨numbers, -, hrange, heq⟩ := runLoop_numbers hdvd hmalloc progress tasks i start hlaid
  have hmem : b ∈ numbers.map (numberBlock granularity) :=
    heq ▸ List.mem_flatMap.mpr ⟨p, hp, hb⟩
  obtain ⟨n, hn, rfl⟩ := List.mem_map.mp hmem
  exact ⟨n, (hrange n hn).1, (hrange n hn).2, rfl⟩

theorem runLoop_append (progress : Nat → Nat) (tasks tasks' : List RwInterfTask) (i : Nat) :
    runLoop granularity malloc progress (tasks ++ tasks') i =
      runLoop granularity malloc progress tasks i ++
        runLoop granularity malloc progress tasks' (i + tasks.length) := by
  induction tasks generalizing i with
  | nil => rfl
  | cons task tasks ih =>
      rw [List.cons_append, runLoop, runLoop, ih, List.cons_append, List.length_cons,
        Nat.add_assoc, Nat.add_comm 1]

theorem mem_of_mem_runLoop {progress : Nat → Nat} {tasks : List RwInterfTask} {i : Nat}
    {p : RwInterfTask × List (List Byte)}
    (h : p ∈ runLoop granularity malloc progress tasks i) : p.1 ∈ tasks := by
  induction tasks generalizing i with
  | nil => cases h
  | cons task tasks ih =>
      rcases List.mem_cons.mp h with rfl | h
      · exact List.mem_cons_self ..
      · exact List.mem_cons_of_mem _ (ih h)

end Stages

/-! ## The shares of readers and writers -/

/-- The `double` of a number of at most 53 bits is exact. -/
theorem toDouble_of_lt {n : Nat} (h : n < 2 ^ 53) : toDouble n = n := by
  have hlog : Nat.log2 n - 52 = 0 := by
    rcases Nat.eq_zero_or_pos n with rfl | hpos
    · rfl
    · have hlt := (Nat.log2_lt (Nat.pos_iff_ne_zero.mp hpos)).mpr h
      omega
  simp [toDouble, hlog, Nat.mod_one]

theorem toNat_predefinedShare {total : Word} (h : total.toNat < 2 ^ 53) :
    (predefinedShare total).toNat = total.toNat / 4 := by
  rw [predefinedShare, toDouble_of_lt h, BitVec.toNat_ofNat, Nat.mod_eq_of_lt (by omega)]

/-- Readers and writers share all blocks. -/
theorem splitBlocks_sum (readerNum writerNum : Word32) {total : Word}
    (h : total.toNat < 2 ^ 53) (measurementObject : Int) :
    (splitBlocks readerNum writerNum total measurementObject).1.toNat +
      (splitBlocks readerNum writerNum total measurementObject).2.toNat = total.toNat := by
  have hshare := toNat_predefinedShare h
  have hrest : (total - predefinedShare total).toNat = total.toNat - total.toNat / 4 := by
    rw [BitVec.toNat_sub_of_le (BitVec.le_def.mpr (by omega)), hshare]
  rw [splitBlocks]
  split
  · simp
  · split
    · simp
    · -- a quarter goes to the kind that is measured
      split
      · simp only [hshare, hrest]
        omega
      · simp only [hshare, hrest]
        omega

/-- The tasks of one kind do not get more blocks than there are for the kind. -/
theorem mul_blocksPerTask_le (num : Word32) (total : Word) :
    num.toNat * (blocksPerTask num total).toNat ≤ total.toNat := by
  rw [blocksPerTask]
  split
  · simp
  · rw [BitVec.toNat_udiv, BitVec.toNat_setWidth, Nat.mod_eq_of_lt (by omega)]
    exact Nat.mul_div_le _ _

/-- The task list: readers from 0, behind them writers from `total`, and together
    no more blocks than `total`. -/
theorem makeTasks_laid (readerNum writerNum : Word32) {total : Word}
    (h : total.toNat < 2 ^ 53) (measurementObject : Int) :
    ∃ readers writers, (makeTasks readerNum writerNum total measurementObject).2 =
        readers ++ writers ∧
      Laid 0 readers ∧ (∀ task ∈ readers, task.dup = true) ∧
      Laid total.toNat writers ∧ (∀ task ∈ writers, task.dup = false) ∧
      blockSum readers + blockSum writers ≤ total.toNat := by
  by_cases hnum : readerNum + writerNum = 0
  · refine ⟨[], [], ?_, trivial, by simp, trivial, by simp, Nat.zero_le _⟩
    simp only [makeTasks, if_pos hnum, List.append_nil]
  · have hsum := splitBlocks_sum readerNum writerNum h measurementObject
    generalize htotals : splitBlocks readerNum writerNum total measurementObject = totals at hsum
    have hr := mul_blocksPerTask_le readerNum totals.1
    have hw := mul_blocksPerTask_le writerNum totals.2
    have hzero : (0 : Word).toNat = 0 := rfl
    refine ⟨assignTasks (blocksPerTask readerNum totals.1) true 0 readerNum.toNat 0 0,
      assignTasks (blocksPerTask writerNum totals.2) false readerNum writerNum.toNat 0 total,
      ?_, ?_, dup_of_mem_assignTasks _ _ _, ?_, dup_of_mem_assignTasks _ _ _, ?_⟩
    · simp only [makeTasks, if_neg hnum, htotals]
    · exact laid_assignTasks readerNum.toNat 0 0 (by omega)
    · exact laid_assignTasks writerNum.toNat 0 total (by omega)
    · rw [blockSum_assignTasks, blockSum_assignTasks]
      omega

/-! ## The blocks of the two stages -/

/-- Both stages go through the same tasks: readers `rs`, whose blocks stage 1 prepares,
    and writers `ws`, whose ranges begin behind the blocks of stage 1. -/
theorem stages_laid (readerNum writerNum : Word32) {totalNumBlocks : Word}
    (htotal : totalNumBlocks.toNat < 2 ^ 53) (measurementObject : Int) {granularity : Nat}
    (hdvd : 8 ∣ granularity) {malloc₁ : Nat → List Byte}
    (h₁ : ∀ i, (malloc₁ i).length = granularity) (malloc₂ : Nat → List Byte)
    (progress : Nat → Nat) :
    let tasks := (makeTasks readerNum writerNum totalNumBlocks measurementObject).2
    ∃ rs ws : List RwInterfTask, ∃ base, Laid 0 rs ∧ (∀ task ∈ rs, task.dup = true) ∧
      Laid base ws ∧ (∀ task ∈ ws, task.dup = false) ∧ blockSum rs + blockSum ws ≤ base ∧
      base + blockSum ws < 2 ^ 64 ∧
      prepareWorkload granularity malloc₁ tasks =
        (List.range' 0 (blockSum rs + blockSum ws)).map (numberBlock granularity) ∧
      run granularity malloc₂ progress tasks = runLoop granularity malloc₂ progress rs 0 ++
        runLoop granularity malloc₂ progress ws (0 + rs.length) := by
  intro tasks
  obtain ⟨readers, writers, htasks, hreaders, hdup, hwriters, hnondup, hsum⟩ :=
    makeTasks_laid readerNum writerNum htotal measurementObject
  -- the number of tasks is taken modulo `2 ^ 32`, so a stage may leave some out
  let k := tasks.length % 2 ^ 32
  have hlisted : listedTasks tasks = readers.take k ++ writers.take (k - readers.length) := by
    show tasks.take k = _
    rw [show tasks = readers ++ writers from htasks, List.take_append]
  have hr := blockSum_take_le readers k
  have hw := blockSum_take_le writers (k - readers.length)
  refine ⟨readers.take k, writers.take (k - readers.length), totalNumBlocks.toNat,
    hreaders.take k, fun task h => hdup task (List.mem_of_mem_take h),
    hwriters.take (k - readers.length), fun task h => hnondup task (List.mem_of_mem_take h),
    by omega, by omega, ?_, ?_⟩
  · show prepareLoop granularity malloc₁ (listedTasks tasks) 0 0 = _
    have hzero : (0 : Word).toNat = 0 := rfl
    rw [hlisted, prepareLoop_eq hdvd h₁ _ 0 0 (by rw [blockSum_append]; omega), blockSum_append]
    rfl
  · show runLoop granularity malloc₂ progress (listedTasks tasks) 0 = _
    rw [hlisted, runLoop_append]

/-- Tasks with ranges apart write no two equal blocks. -/
theorem nodup_runLoop_append (hg : 8 ≤ granularity) (hdvd : 8 ∣ granularity)
    (hmalloc : ∀ i, (malloc i).length = granularity) (progress : Nat → Nat)
    {rs ws : List RwInterfTask} {base : Nat} (i j : Nat) (hrs : Laid 0 rs) (hws : Laid base ws)
    (hbase : blockSum rs ≤ base) (hmax : base + blockSum ws < 2 ^ 64) :
    ((runLoop granularity malloc progress rs i ++
      runLoop granularity malloc progress ws j).flatMap Prod.snd).Nodup := by
  obtain ⟨rn, hrlt, hrange, hreq⟩ := runLoop_numbers hdvd hmalloc progress rs i 0 hrs
  obtain ⟨wn, hwlt, hwange, hweq⟩ := runLoop_numbers hdvd hmalloc progress ws j base hws
  rw [List.flatMap_append, hreq, hweq, ← List.map_append]
  have hlt : (rn ++ wn).Pairwise (· < ·) := by
    refine List.pairwise_append.mpr ⟨hrlt, hwlt, ?_⟩
    intro a ha b hb
    have h1 := hrange a ha
    have h2 := hwange b hb
    omega
  have hsmall : ∀ n ∈ rn ++ wn, n < 2 ^ 64 := by
    intro n hn
    rcases List.mem_append.mp hn with hn | hn
    · have := hrange n hn
      omega
    · have := hwange n hn
      omega
  refine List.Nodup.map_on ?_ (hlt.imp fun h => Nat.ne_of_lt h)
  intro a ha b hb heq
  exact numberBlock_inj hg (hsmall a ha) (hsmall b hb) heq

/-- What stage 2 has written at any moment: the blocks of the readers are copies of
    blocks of stage 1, those of the writers are not, and no two of them are equal. -/
theorem interference_blocks (readerNum writerNum : Word32) (totalNumBlocks : Word)
    (htotal : totalNumBlocks.toNat < 2 ^ 53) (measurementObject : Int) (granularity : Nat)
    (hg : 8 ≤ granularity) (hdvd : 8 ∣ granularity) (malloc₁ malloc₂ : Nat → List Byte)
    (h₁ : ∀ i, (malloc₁ i).length = granularity) (h₂ : ∀ i, (malloc₂ i).length = granularity)
    (progress : Nat → Nat) :
    let tasks := (makeTasks readerNum writerNum totalNumBlocks measurementObject).2
    let stage1 := prepareWorkload granularity malloc₁ tasks
    let stage2 := run granularity malloc₂ progress tasks
    (∀ task blocks, (task, blocks) ∈ stage2 → task.dup = true → ∀ b ∈ blocks, b ∈ stage1) ∧
    (∀ task blocks, (task, blocks) ∈ stage2 → task.dup = false → ∀ b ∈ blocks, b ∉ stage1) ∧
    (stage2.flatMap Prod.snd).Nodup := by
  intro tasks stage1 stage2
  obtain ⟨rs, ws, base, hlaidR, hdup, hlaidW, hnondup, hsum, hmax, hstage1, hstage2⟩ :=
    stages_laid readerNum writerNum htotal measurementObject hdvd h₁ malloc₂ progress
  rw [show stage1 = _ from hstage1, show stage2 = _ from hstage2]
  refine ⟨?_, ?_, ?_⟩
  · intro task blocks hp hd b hb
    rcases List.mem_append.mp hp with hp | hp
    · -- a number below the sum of the readers
      obtain ⟨n, -, hlt, rfl⟩ := exists_number_of_mem_runLoop hdvd h₂ hlaidR hp hb
      exact List.mem_map_of_mem (List.mem_range'_1.mpr (by omega))
    · have hfalse := hnondup task (mem_of_mem_runLoop hp)
      rw [hd] at hfalse
      cases hfalse
  · intro task blocks hp hd b hb hmem
    rcases List.mem_append.mp hp with hp | hp
    · have htrue := hdup task (mem_of_mem_runLoop hp)
      rw [hd] at htrue
      cases htrue
    · -- a number from `base` on, which stage 1 does not reach
      obtain ⟨n, hge, hlt, rfl⟩ := exists_number_of_mem_runLoop hdvd h₂ hlaidW hp hb
      obtain ⟨j, hj, heq⟩ := List.mem_map.mp hmem
      have hj' := List.mem_range'_1.mp hj
      have hsame := numberBlock_inj hg (by omega) (by omega) heq
      omega
  · exact nodup_runLoop_append hg hdvd h₂ progress 0 (0 + rs.length) hlaidR hlaidW (by omega) hmax

/-- Two readers and one writer of 10 blocks, the readers interrupted. -/
theorem interference_blocks_sample :
    let tasks := (makeTasks 2 1 10 MO_READ_LAT).2
    let stage1 := prepareWorkload 16 (fun _ => List.replicate 16 0) tasks
    let stage2 := run 16 (fun _ => List.replicate 16 0xff) (fun i => i) tasks
    (∀ task blocks, (task, blocks) ∈ stage2 → task.dup = true → ∀ b ∈ blocks, b ∈ stage1) ∧
    (∀ task blocks, (task, blocks) ∈ stage2 → task.dup = false → ∀ b ∈ blocks, b ∉ stage1) ∧
    (stage2.flatMap Prod.snd).Nodup :=
  interference_blocks 2 1 10 (by decide) MO_READ_LAT 16 (by decide) (by decide) _ _
    (fun _ => rfl) (fun _ => rfl) _

end GogetaTools.Interference
