/-
  GogetaTools.Mcp.Copy

  `mcp/src/main.cpp`: `writen` and `cp_func`, the threads that copy the files.

  A thread is a state machine whose steps are its system calls.  How many bytes a
  `read` or a `write` transfers is not determined; a call on a closed descriptor, or
  one that leaves the buffer, is no step at all.

  `CopyInv` says how far a thread is with its current job, and that the jobs behind
  it are copied and those in front of it untouched.  The threads only meet in the
  table of descriptors, and theirs are distinct: `cpFunc_copies`.
-/

import GogetaTools.Lib.ByteFile
import GogetaTools.Lib.Inevitable
import GogetaTools.Words
import Mathlib.Algebra.BigOperators.Group.List.Basic
import Mathlib.Data.Fin.VecNotation
import Mathlib.Data.Fintype.Fin

namespace GogetaTools.Mcp

open ByteFile EveryRun

/-! ## System calls -/

abbrev Fd := Word32

/-- An open file: its bytes, and where the next call reads or writes. -/
structure Descriptor where
  file : File Byte
  offset : Nat
  isOpen : Bool

abbrev Descriptors := Fd → Descriptor

def openAt (file : File Byte) (offset : Nat) : Descriptor :=
  { file := file, offset := offset, isOpen := true }

def closedAt (file : File Byte) (offset : Nat) : Descriptor :=
  { file := file, offset := offset, isOpen := false }

@[simp] theorem openAt_file (file : File Byte) (offset : Nat) : (openAt file offset).file = file := rfl

@[simp] theorem openAt_offset (file : File Byte) (offset : Nat) :
    (openAt file offset).offset = offset := rfl

/-- `read` that returns `ret`. -/
def sysRead (fds : Descriptors) (fd : Fd) (ret : Nat) : Option (List Byte × Descriptors) :=
  let d := fds fd
  if d.isOpen then
    some (d.file.readZ d.offset ret, Function.update fds fd { d with offset := d.offset + ret })
  else none

/-- `write` that takes all of `bs`. -/
def sysWrite (fds : Descriptors) (fd : Fd) (bs : List Byte) : Option Descriptors :=
  let d := fds fd
  if d.isOpen then
    some (Function.update fds fd
      { d with file := d.file.pwrite d.offset bs, offset := d.offset + bs.length })
  else none

def sysClose (fds : Descriptors) (fd : Fd) : Option Descriptors :=
  let d := fds fd
  if d.isOpen then some (Function.update fds fd { d with isOpen := false }) else none

section Calls

variable {fds : Descriptors} {fd : Fd} {f : File Byte} {k : Nat}

theorem sysRead_openAt (h : fds fd = openAt f k) (ret : Nat) :
    sysRead fds fd ret = some (f.readZ k ret, Function.update fds fd (openAt f (k + ret))) := by
  simp only [sysRead, h, openAt, if_true]

theorem sysWrite_openAt (h : fds fd = openAt f k) (bs : List Byte) :
    sysWrite fds fd bs =
      some (Function.update fds fd (openAt (f.pwrite k bs) (k + bs.length))) := by
  simp only [sysWrite, h, openAt, if_true]

theorem sysClose_openAt (h : fds fd = openAt f k) :
    sysClose fds fd = some (Function.update fds fd (closedAt f k)) := by
  simp only [sysClose, h, openAt, closedAt, if_true]

end Calls

/-! ## The machine -/

/-- `pair<int, int>`: the source and the destination. -/
abbrev Job := Fd × Fd

/-- The next call of a thread, with the job at hand and those that follow; in `writen`
    the pointer is `pos` bytes into `buf`, with `n` bytes to go. -/
inductive CopyPoint
  | read (job : Job) (rest : List Job)
  | write (job : Job) (rest : List Job) (pos n : Nat)
  | closeSrc (job : Job) (rest : List Job)
  | closeDst (job : Job) (rest : List Job)
  | finished

/-- The head of the loop over the jobs. -/
def nextJob : List Job → CopyPoint
  | [] => .finished
  | job :: rest => .read job rest

/-- A thread: `buf` is the memory that `malloc` gave. -/
structure CopyThread where
  point : CopyPoint
  buf : List Byte

section Machine

variable (bufLen : Nat)

/-- The next call, which returns `ret` if it is a `read` or a `write`. -/
def cpStep (ret : Nat) (x : CopyThread × Descriptors) : Option (CopyThread × Descriptors) :=
  match x.1.point with
  | .read job rest => do
      let (bs, fds) ← sysRead x.2 job.1 ret
      if x.1.buf.length < ret then none
      else if ret = 0 then some ({ x.1 with point := .closeSrc job rest }, fds)
      else some ({ point := .write job rest 0 ret, buf := bs ++ x.1.buf.drop ret }, fds)
  | .write job rest pos n =>
      if x.1.buf.length < pos + n then none
      else do
        let fds ← sysWrite x.2 job.2 ((x.1.buf.drop pos).take ret)
        if n - ret = 0 then some ({ x.1 with point := .read job rest }, fds)
        else some ({ x.1 with point := .write job rest (pos + ret) (n - ret) }, fds)
  | .closeSrc job rest => do
      let fds ← sysClose x.2 job.1
      some ({ x.1 with point := .closeDst job rest }, fds)
  | .closeDst job rest => do
      let fds ← sysClose x.2 job.2
      some ({ x.1 with point := nextJob rest }, fds)
  | .finished => none

/-- `ret` is a result the call at hand may have. -/
def CopyReturns (ret : Nat) (x : CopyThread × Descriptors) : Prop :=
  match x.1.point with
  | .read job _ => (x.2 job.1).file.PreadReturns (x.2 job.1).offset bufLen ret
  | .write _ _ _ n => 0 < ret ∧ ret ≤ n
  | _ => True

def CopyStep (x y : CopyThread × Descriptors) : Prop :=
  ∃ ret, CopyReturns bufLen ret x ∧ cpStep ret x = some y

end Machine

/-- A thread that starts `cp_func` on its jobs. -/
def cpFunc (jobs : List Job) (buf : List Byte) : CopyThread := { point := nextJob jobs, buf := buf }

def jobFds (jobs : List Job) : List Fd := jobs.flatMap fun job => [job.1, job.2]

/-! ## How far a thread is -/

section Progress

variable (bufLen : Nat) (fds₀ : Descriptors)

/-- The size of the source of a job. -/
def srcSize (job : Job) : Nat := (fds₀ job.1).file.size

/-- So many bytes of the job have been read and written. -/
structure Copying (fds : Descriptors) (job : Job) (read written : Nat) : Prop where
  src : fds job.1 = openAt (fds₀ job.1).file read
  dst : fds job.2 = openAt ((fds₀ job.1).file.firstBytes written) written

/-- The job is done: its destination has the bytes of its source, and both are closed. -/
structure Copied (fds : Descriptors) (job : Job) : Prop where
  src : fds job.1 = closedAt (fds₀ job.1).file (srcSize fds₀ job)
  dst : fds job.2 = closedAt (fds₀ job.1).file (srcSize fds₀ job)

/-- The job has not begun: its source is at its start, its destination is empty. -/
structure Untouched (fds : Descriptors) (job : Job) : Prop where
  src : fds job.1 = openAt (fds₀ job.1).file 0
  dst : fds job.2 = openAt File.empty 0

/-- The jobs behind the one at hand. -/
def CopyPoint.rest : CopyPoint → List Job
  | .read _ rest | .write _ rest _ _ | .closeSrc _ rest | .closeDst _ rest => rest
  | .finished => []

/-- The jobs that are not done. -/
def CopyPoint.pending : CopyPoint → List Job
  | .read job rest | .write job rest _ _ | .closeSrc job rest | .closeDst job rest => job :: rest
  | .finished => []

/-- What holds of the job at hand. -/
def PointInv (x : CopyThread × Descriptors) : Prop :=
  match x.1.point with
  | .read job _ => ∃ k ≤ srcSize fds₀ job, Copying fds₀ x.2 job k k
  | .write job _ pos n => 0 < n ∧ pos + n ≤ bufLen ∧ ∃ k, k + n ≤ srcSize fds₀ job ∧
      Copying fds₀ x.2 job (k + n) k ∧ (x.1.buf.drop pos).take n = (fds₀ job.1).file.readZ k n
  | .closeSrc job _ => Copying fds₀ x.2 job (srcSize fds₀ job) (srcSize fds₀ job)
  | .closeDst job _ =>
      x.2 job.1 = closedAt (fds₀ job.1).file (srcSize fds₀ job) ∧
      x.2 job.2 = openAt (fds₀ job.1).file (srcSize fds₀ job)
  | .finished => True

/-- The invariant of a thread with its jobs. -/
structure CopyInv (jobs : List Job) (x : CopyThread × Descriptors) : Prop where
  buf_len : x.1.buf.length = bufLen
  done : ∃ done, jobs = done ++ x.1.point.pending ∧ ∀ job ∈ done, Copied fds₀ x.2 job
  rest : ∀ job ∈ x.1.point.rest, Untouched fds₀ x.2 job
  point : PointInv bufLen fds₀ x

/-- What is left to do for the job at hand: a byte that is not read counts twice. -/
def CopyPoint.rank (fds : Descriptors) : CopyPoint → Nat
  | .read job _ => 3 + 2 * ((fds job.1).file.size - (fds job.1).offset)
  | .write job _ _ n => 3 + 2 * ((fds job.1).file.size - (fds job.1).offset) + n
  | .closeSrc _ _ => 2
  | .closeDst _ _ => 1
  | .finished => 0

/-- The calls that are left to a thread, at most. -/
def copyRank (x : CopyThread × Descriptors) : Nat :=
  x.1.point.rank x.2 + (x.1.point.rest.map fun job => 3 + 2 * (x.2 job.1).file.size).sum

/-! ## One call -/

variable {bufLen fds₀} {jobs : List Job} {x y : CopyThread × Descriptors}

/-- The two descriptors of a job are the same in both tables. -/
structure SameJob (fds fds' : Descriptors) (job : Job) : Prop where
  src : fds' job.1 = fds job.1
  dst : fds' job.2 = fds job.2

section SameJob

variable {fds fds' : Descriptors} {job : Job}

theorem sameJob_update {fd : Fd} (h₁ : job.1 ≠ fd) (h₂ : job.2 ≠ fd) (d : Descriptor) :
    SameJob fds (Function.update fds fd d) job where
  src := Function.update_of_ne h₁ ..
  dst := Function.update_of_ne h₂ ..

theorem Copying.congr {read written : Nat} (h : Copying fds₀ fds job read written)
    (hsame : SameJob fds fds' job) : Copying fds₀ fds' job read written where
  src := hsame.src.trans h.src
  dst := hsame.dst.trans h.dst

theorem Copied.congr (h : Copied fds₀ fds job) (hsame : SameJob fds fds' job) : Copied fds₀ fds' job where
  src := hsame.src.trans h.src
  dst := hsame.dst.trans h.dst

theorem Untouched.congr (h : Untouched fds₀ fds job) (hsame : SameJob fds fds' job) :
    Untouched fds₀ fds' job where
  src := hsame.src.trans h.src
  dst := hsame.dst.trans h.dst

end SameJob

/-- With distinct descriptors a job shares none with the others. -/
theorem jobFds_apart {done rest : List Job} {job : Job}
    (h : (jobFds (done ++ job :: rest)).Nodup) :
    job.1 ≠ job.2 ∧ ∀ j, j ∈ done ∨ j ∈ rest →
      (j.1 ≠ job.1 ∧ j.2 ≠ job.1) ∧ (j.1 ≠ job.2 ∧ j.2 ≠ job.2) := by
  have hmem : ∀ (js : List Job) (j : Job), j ∈ js → j.1 ∈ jobFds js ∧ j.2 ∈ jobFds js := by
    intro js j hj
    exact ⟨List.mem_flatMap.mpr ⟨j, hj, by simp⟩, List.mem_flatMap.mpr ⟨j, hj, by simp⟩⟩
  have hsplit : jobFds (done ++ job :: rest) =
      jobFds done ++ job.1 :: job.2 :: jobFds rest := by
    simp [jobFds, List.flatMap_append]
  rw [hsplit, List.nodup_append] at h
  obtain ⟨-, hjob, hdone⟩ := h
  rw [List.nodup_cons, List.nodup_cons, List.mem_cons, not_or] at hjob
  obtain ⟨⟨hne, h₁⟩, h₂, -⟩ := hjob
  refine ⟨hne, ?_⟩
  rintro j (hj | hj)
  · obtain ⟨hm₁, hm₂⟩ := hmem done j hj
    exact ⟨⟨hdone _ hm₁ _ (by simp), hdone _ hm₂ _ (by simp)⟩,
      hdone _ hm₁ _ (by simp), hdone _ hm₂ _ (by simp)⟩
  · obtain ⟨hm₁, hm₂⟩ := hmem rest j hj
    exact ⟨⟨fun heq => h₁ (heq ▸ hm₁), fun heq => h₁ (heq ▸ hm₂)⟩,
      fun heq => h₂ (heq ▸ hm₁), fun heq => h₂ (heq ▸ hm₂)⟩

/-- The jobs that follow keep their share of the rank. -/
theorem rank_rest_update {fds : Descriptors} {rest : List Job} {fd : Fd}
    (h : ∀ j ∈ rest, j.1 ≠ fd) (d : Descriptor) :
    (rest.map fun j => 3 + 2 * (Function.update fds fd d j.1).file.size) =
      rest.map fun j => 3 + 2 * (fds j.1).file.size := by
  apply List.map_congr_left
  intro j hj
  rw [Function.update_of_ne (h j hj)]

/-- What a call does: the invariant is kept, less is left to do, and one descriptor of
    the jobs has changed. -/
structure CallEffect (bufLen : Nat) (fds₀ : Descriptors) (jobs : List Job)
    (x y : CopyThread × Descriptors) : Prop where
  inv : CopyInv bufLen fds₀ jobs y
  rank_lt : copyRank y < copyRank x
  fds : ∃ fd ∈ jobFds jobs, ∃ d, y.2 = Function.update x.2 fd d

theorem mem_jobFds {job : Job} (h : job ∈ jobs) {fd : Fd} (hfd : fd = job.1 ∨ fd = job.2) :
    fd ∈ jobFds jobs :=
  List.mem_flatMap.mpr ⟨job, h, by simpa using hfd⟩

/-- A call for the job at hand leaves the others alone. -/
theorem CopyInv.same_job (hinv : CopyInv bufLen fds₀ jobs x) (hnodup : (jobFds jobs).Nodup)
    {job : Job} {rest : List Job} (hx : x.1.point.pending = job :: rest)
    (hxr : x.1.point.rest = rest) (hy : y.1.point.pending = job :: rest)
    (hyr : y.1.point.rest = rest) (hbuf : y.1.buf.length = bufLen) {fd : Fd}
    (hfd : fd = job.1 ∨ fd = job.2) {d : Descriptor} (hfds : y.2 = Function.update x.2 fd d)
    (hpoint : PointInv bufLen fds₀ y) (hrank : y.1.point.rank y.2 < x.1.point.rank x.2) :
    CallEffect bufLen fds₀ jobs x y := by
  obtain ⟨done, hjobs, hdone⟩ := hinv.done
  rw [hx] at hjobs
  obtain ⟨-, hapart⟩ := jobFds_apart (hjobs ▸ hnodup)
  -- no other job has `fd`, so the ones done and those to do are as before
  have hother : ∀ j, j ∈ done ∨ j ∈ rest → j.1 ≠ fd ∧ j.2 ≠ fd := by
    intro j hj
    rcases hfd with rfl | rfl
    · exact (hapart j hj).1
    · exact (hapart j hj).2
  refine ⟨⟨hbuf, ⟨done, hjobs.trans (by rw [hy]), ?_⟩, ?_, hpoint⟩, ?_, fd, ?_, d, hfds⟩
  · intro j hj
    obtain ⟨h₁, h₂⟩ := hother j (Or.inl hj)
    rw [hfds]
    exact (hdone j hj).congr (sameJob_update h₁ h₂ d)
  · intro j hj
    rw [hyr] at hj
    obtain ⟨h₁, h₂⟩ := hother j (Or.inr hj)
    rw [hfds]
    exact (hinv.rest j (hxr ▸ hj)).congr (sameJob_update h₁ h₂ d)
  · have hsum := @rank_rest_update x.2 rest fd (fun j hj => (hother j (Or.inr hj)).1) d
    rw [copyRank, copyRank, hxr, hyr]
    rw [← hfds] at hsum
    rw [hsum]
    exact Nat.add_lt_add_right hrank _
  · exact mem_jobFds (hjobs ▸ by simp) hfd

theorem CopyInv.pending_apart (hinv : CopyInv bufLen fds₀ jobs x) (hnodup : (jobFds jobs).Nodup)
    {job : Job} {rest : List Job} (hx : x.1.point.pending = job :: rest) : job.1 ≠ job.2 := by
  obtain ⟨done, hjobs, -⟩ := hinv.done
  rw [hx] at hjobs
  exact (jobFds_apart (hjobs ▸ hnodup)).1

/-- `read`: at the end of the file the thread goes on to `close`, before it to `writen`
    with what it has read. -/
theorem read_effect (hbufLen : 1 ≤ bufLen) (hinv : CopyInv bufLen fds₀ jobs x)
    (hnodup : (jobFds jobs).Nodup) {job : Job} {rest : List Job}
    (hx : x.1.point = .read job rest) (hstep : CopyStep bufLen x y) :
    CallEffect bufLen fds₀ jobs x y := by
  have hpoint := hinv.point
  simp only [PointInv, hx] at hpoint
  obtain ⟨k, hk, hcopy⟩ := hpoint
  have hne : job.1 ≠ job.2 := hinv.pending_apart hnodup (by rw [hx]; rfl)
  obtain ⟨ret, hret, hy⟩ := hstep
  simp only [CopyReturns, hx, hcopy.src, openAt_file, openAt_offset] at hret
  have hle := hret.le
  simp only [cpStep, hx, sysRead_openAt hcopy.src, Option.bind_eq_bind, Option.bind_some,
    hinv.buf_len, if_neg (Nat.not_lt_of_le hle)] at hy
  have hread : Copying fds₀ (Function.update x.2 job.1 (openAt (fds₀ job.1).file (k + ret))) job
      (k + ret) k :=
    ⟨Function.update_self _ _ _, by rw [Function.update_of_ne hne.symm, hcopy.dst]⟩
  rw [File.PreadReturns] at hret
  rw [srcSize] at hk
  by_cases hzero : ret = 0
  · rw [if_pos hzero] at hy
    cases hy
    -- nothing is left to read
    have hend : k = (fds₀ job.1).file.size := by
      split at hret
      · omega
      · omega
    rw [hzero, Nat.add_zero, hend] at hread
    refine hinv.same_job hnodup (by rw [hx]; rfl) (by rw [hx]; rfl) rfl rfl hinv.buf_len
      (Or.inl rfl) rfl ?_ ?_
    · rw [hzero, Nat.add_zero, hend]
      exact hread
    · rw [hx]
      show 2 < 3 + _
      omega
  · rw [if_neg hzero] at hy
    cases hy
    obtain ⟨hpos, -, hsize⟩ : 0 < ret ∧ ret ≤ bufLen ∧ k + ret ≤ (fds₀ job.1).file.size := by
      split at hret
      · exact absurd hret hzero
      · exact hret
    have hlen : ((fds₀ job.1).file.readZ k ret ++ x.1.buf.drop ret).length = bufLen := by
      rw [List.length_append, File.length_readZ, List.length_drop, hinv.buf_len]
      omega
    refine hinv.same_job hnodup (by rw [hx]; rfl) (by rw [hx]; rfl) rfl rfl hlen
      (Or.inl rfl) rfl ⟨hpos, by omega, k, hsize, hread, ?_⟩ ?_
    · rw [List.drop_zero]
      exact List.take_left' (File.length_readZ _ k ret)
    · rw [hx]
      simp only [CopyPoint.rank, hread.src, hcopy.src, openAt_file, openAt_offset]
      omega

/-- `write`: the pointer and the count advance together, and the file gets what was
    read at this place. -/
theorem write_effect (hinv : CopyInv bufLen fds₀ jobs x)
    (hnodup : (jobFds jobs).Nodup) {job : Job} {rest : List Job} {pos n : Nat}
    (hx : x.1.point = .write job rest pos n) (hstep : CopyStep bufLen x y) :
    CallEffect bufLen fds₀ jobs x y := by
  have hpoint := hinv.point
  simp only [PointInv, hx] at hpoint
  obtain ⟨hn, hpos, k, hk, hcopy, hbuf⟩ := hpoint
  have hne : job.1 ≠ job.2 := hinv.pending_apart hnodup (by rw [hx]; rfl)
  obtain ⟨ret, hret, hy⟩ := hstep
  simp only [CopyReturns, hx] at hret
  obtain ⟨hretpos, hretle⟩ := hret
  -- the bytes that are written are the next ones of the source, those behind them follow
  have hsplit : (x.1.buf.drop pos).take n =
      (fds₀ job.1).file.readZ k ret ++ (fds₀ job.1).file.readZ (k + ret) (n - ret) := by
    rw [hbuf, ← File.readZ_add, Nat.add_sub_cancel' hretle]
  have hbytes : (x.1.buf.drop pos).take ret = (fds₀ job.1).file.readZ k ret := by
    have htake := congrArg (List.take ret) hsplit
    rwa [List.take_take, Nat.min_eq_left hretle,
      List.take_left' (File.length_readZ _ k ret)] at htake
  have hbehind : (x.1.buf.drop (pos + ret)).take (n - ret) =
      (fds₀ job.1).file.readZ (k + ret) (n - ret) := by
    have hdrop := congrArg (List.drop ret) hsplit
    rwa [List.drop_take, List.drop_drop, List.drop_left' (File.length_readZ _ k ret)] at hdrop
  simp only [cpStep, hx, hinv.buf_len, if_neg (Nat.not_lt_of_le hpos), hbytes,
    sysWrite_openAt hcopy.dst, File.firstBytes_pwrite, File.length_readZ, Option.bind_eq_bind,
    Option.bind_some] at hy
  have hwritten : Copying fds₀ (Function.update x.2 job.2
      (openAt ((fds₀ job.1).file.firstBytes (k + ret)) (k + ret))) job (k + n) (k + ret) :=
    ⟨by rw [Function.update_of_ne hne, hcopy.src], Function.update_self _ _ _⟩
  by_cases hzero : n - ret = 0
  · rw [if_pos hzero] at hy
    cases hy
    have hret : ret = n := by omega
    refine hinv.same_job hnodup (by rw [hx]; rfl) (by rw [hx]; rfl) rfl rfl hinv.buf_len
      (Or.inr rfl) rfl ⟨k + n, hk, hret ▸ hwritten⟩ ?_
    rw [hx]
    simp only [CopyPoint.rank, hwritten.src, hcopy.src, openAt_file, openAt_offset]
    omega
  · rw [if_neg hzero] at hy
    cases hy
    have hsum : k + ret + (n - ret) = k + n := by omega
    refine hinv.same_job hnodup (by rw [hx]; rfl) (by rw [hx]; rfl) rfl rfl hinv.buf_len
      (Or.inr rfl) rfl ⟨by omega, by omega, k + ret, by omega, hsum.symm ▸ hwritten, hbehind⟩ ?_
    rw [hx]
    simp only [CopyPoint.rank, hwritten.src, hcopy.src, openAt_file, openAt_offset]
    omega

theorem closeSrc_effect (hinv : CopyInv bufLen fds₀ jobs x) (hnodup : (jobFds jobs).Nodup)
    {job : Job} {rest : List Job} (hx : x.1.point = .closeSrc job rest)
    (hstep : CopyStep bufLen x y) : CallEffect bufLen fds₀ jobs x y := by
  have hcopy := hinv.point
  simp only [PointInv, hx] at hcopy
  have hne : job.1 ≠ job.2 := hinv.pending_apart hnodup (by rw [hx]; rfl)
  obtain ⟨ret, -, hy⟩ := hstep
  simp only [cpStep, hx, sysClose_openAt hcopy.src, Option.bind_eq_bind, Option.bind_some] at hy
  cases hy
  refine hinv.same_job hnodup (by rw [hx]; rfl) (by rw [hx]; rfl) rfl rfl hinv.buf_len
    (Or.inl rfl) rfl ⟨Function.update_self _ _ _, ?_⟩ ?_
  · show Function.update x.2 job.1 _ job.2 = _
    rw [Function.update_of_ne hne.symm, hcopy.dst, srcSize, File.firstBytes_size]
  · rw [hx]
    exact Nat.lt_succ_self 1

/-- The invariant at the head of the loop over the jobs. -/
theorem pointInv_nextJob {rest : List Job} {buf : List Byte} {fds : Descriptors}
    (h : ∀ job ∈ rest, Untouched fds₀ fds job) :
    PointInv bufLen fds₀ ({ point := nextJob rest, buf := buf }, fds) := by
  cases rest with
  | nil => trivial
  | cons job rest =>
      obtain ⟨hsrc, hdst⟩ := h job List.mem_cons_self
      refine ⟨0, Nat.zero_le _, hsrc, ?_⟩
      rw [File.firstBytes_zero]
      exact hdst

theorem nextJob_pending (rest : List Job) : (nextJob rest).pending = rest := by
  cases rest with
  | nil => rfl
  | cons job rest => rfl

theorem nextJob_rest_subset (rest : List Job) : (nextJob rest).rest ⊆ rest := by
  cases rest with
  | nil => exact List.Subset.refl _
  | cons job rest => exact List.subset_cons_self job rest

/-- The rank at the head of the loop is that of the jobs. -/
theorem copyRank_nextJob {rest : List Job} {buf : List Byte} {fds : Descriptors}
    (h : ∀ job ∈ rest, Untouched fds₀ fds job) :
    copyRank ({ point := nextJob rest, buf := buf }, fds) =
      (rest.map fun job => 3 + 2 * (fds job.1).file.size).sum := by
  cases rest with
  | nil => rfl
  | cons job rest =>
      have hsrc := (h job List.mem_cons_self).src
      rw [copyRank, List.map_cons, List.sum_cons]
      simp only [nextJob, CopyPoint.rank, CopyPoint.rest, hsrc, openAt_file, openAt_offset,
        Nat.sub_zero]

/-- The last `close` of a job: the job is done. -/
theorem closeDst_effect (hinv : CopyInv bufLen fds₀ jobs x) (hnodup : (jobFds jobs).Nodup)
    {job : Job} {rest : List Job} (hx : x.1.point = .closeDst job rest)
    (hstep : CopyStep bufLen x y) : CallEffect bufLen fds₀ jobs x y := by
  have hclosed := hinv.point
  simp only [PointInv, hx] at hclosed
  obtain ⟨done, hjobs, hdone⟩ := hinv.done
  have hrest := hinv.rest
  rw [hx] at hjobs hrest
  obtain ⟨hne, hapart⟩ := jobFds_apart (hjobs ▸ hnodup)
  obtain ⟨ret, -, hy⟩ := hstep
  simp only [cpStep, hx, sysClose_openAt hclosed.2, Option.bind_eq_bind, Option.bind_some] at hy
  cases hy
  -- no other job has one of the two descriptors
  have hrest' : ∀ j ∈ rest, Untouched fds₀ (Function.update x.2 job.2
      (closedAt (fds₀ job.1).file (srcSize fds₀ job))) j := by
    intro j hj
    obtain ⟨h₁, h₂⟩ := (hapart j (Or.inr hj)).2
    exact (hrest j hj).congr (sameJob_update h₁ h₂ _)
  refine ⟨⟨hinv.buf_len, ⟨done ++ [job], ?_, ?_⟩, ?_, pointInv_nextJob hrest'⟩, ?_, job.2,
    mem_jobFds (hjobs ▸ by simp [CopyPoint.pending]) (Or.inr rfl), _, rfl⟩
  · rw [nextJob_pending, List.append_assoc]
    exact hjobs
  · intro j hj
    rcases List.mem_append.mp hj with hj | hj
    · obtain ⟨h₁, h₂⟩ := (hapart j (Or.inl hj)).2
      exact (hdone j hj).congr (sameJob_update h₁ h₂ _)
    · rw [List.mem_singleton.mp hj]
      exact ⟨(Function.update_of_ne hne _ _).trans hclosed.1, Function.update_self _ _ _⟩
  · exact fun j hj => hrest' j (nextJob_rest_subset rest hj)
  · -- one step less is to go
    rw [copyRank_nextJob hrest', copyRank, hx]
    have hsum := @rank_rest_update x.2 rest job.2 (fun j hj => (hapart j (Or.inr hj)).2.1)
      (closedAt (fds₀ job.1).file (srcSize fds₀ job))
    rw [hsum]
    exact Nat.lt_add_of_pos_left Nat.one_pos

/-- What any call does. -/
theorem copyStep_effect (hbufLen : 1 ≤ bufLen) (hinv : CopyInv bufLen fds₀ jobs x)
    (hnodup : (jobFds jobs).Nodup) (hstep : CopyStep bufLen x y) :
    CallEffect bufLen fds₀ jobs x y := by
  cases hx : x.1.point with
  | read job rest => exact read_effect hbufLen hinv hnodup hx hstep
  | write job rest pos n => exact write_effect hinv hnodup hx hstep
  | closeSrc job rest => exact closeSrc_effect hinv hnodup hx hstep
  | closeDst job rest => exact closeDst_effect hinv hnodup hx hstep
  | finished =>
      obtain ⟨ret, -, hy⟩ := hstep
      simp only [cpStep, hx] at hy
      cases hy

theorem CopyReturns.step {ret : Nat} (hret : CopyReturns bufLen ret x)
    (hsome : (cpStep ret x).isSome = true) : ∃ y, CopyStep bufLen x y := by
  obtain ⟨y, hy⟩ := Option.isSome_iff_exists.mp hsome
  exact ⟨y, ret, hret, hy⟩

/-- A thread that is not finished has a next call. -/
theorem copyStep_progress (hinv : CopyInv bufLen fds₀ jobs x) :
    x.1.point = .finished ∨ ∃ y, CopyStep bufLen x y := by
  have hpoint := hinv.point
  cases hx : x.1.point with
  | read job rest =>
      simp only [PointInv, hx] at hpoint
      obtain ⟨k, -, hcopy⟩ := hpoint
      obtain ⟨ret, hret⟩ := File.exists_preadReturns (fds₀ job.1).file k bufLen
      have hlt : ¬ x.1.buf.length < ret := by
        rw [hinv.buf_len]
        exact Nat.not_lt_of_le hret.le
      have hreturns : CopyReturns bufLen ret x := by
        simp only [CopyReturns, hx, hcopy.src]
        exact hret
      refine Or.inr (hreturns.step ?_)
      simp only [cpStep, hx, sysRead_openAt hcopy.src, Option.bind_eq_bind, Option.bind_some,
        if_neg hlt]
      split
      · rfl
      · rfl
  | write job rest pos n =>
      simp only [PointInv, hx] at hpoint
      obtain ⟨hn, hpos, k, -, hcopy, -⟩ := hpoint
      have hlt : ¬ x.1.buf.length < pos + n := by
        rw [hinv.buf_len]
        exact Nat.not_lt_of_le hpos
      -- all that is asked for can be written
      have hreturns : CopyReturns bufLen n x := by
        simpa only [CopyReturns, hx] using ⟨hn, Nat.le_refl n⟩
      refine Or.inr (hreturns.step ?_)
      simp only [cpStep, hx, if_neg hlt, sysWrite_openAt hcopy.dst, Option.bind_eq_bind,
        Option.bind_some, Nat.sub_self, if_true, Option.isSome_some]
  | closeSrc job rest =>
      simp only [PointInv, hx] at hpoint
      have hreturns : CopyReturns bufLen 0 x := by simp only [CopyReturns, hx]
      refine Or.inr (hreturns.step ?_)
      simp only [cpStep, hx, sysClose_openAt hpoint.src, Option.bind_eq_bind, Option.bind_some,
        Option.isSome_some]
  | closeDst job rest =>
      simp only [PointInv, hx] at hpoint
      have hreturns : CopyReturns bufLen 0 x := by simp only [CopyReturns, hx]
      refine Or.inr (hreturns.step ?_)
      simp only [cpStep, hx, sysClose_openAt hpoint.2, Option.bind_eq_bind, Option.bind_some,
        Option.isSome_some]
  | finished => exact Or.inl rfl

/-! ## All threads -/

theorem CopyPoint.rest_subset_pending (point : CopyPoint) : point.rest ⊆ point.pending := by
  cases point with
  | finished => exact List.Subset.refl _
  | _ => exact List.subset_cons_self _ _

theorem PointInv.congr {l : CopyThread} {fds fds' : Descriptors} (h : PointInv bufLen fds₀ (l, fds))
    (hsame : ∀ job ∈ l.point.pending, SameJob fds fds' job) : PointInv bufLen fds₀ (l, fds') := by
  obtain ⟨point, buf⟩ := l
  cases point with
  | read job rest =>
      obtain ⟨k, hk, hcopy⟩ := h
      exact ⟨k, hk, hcopy.congr (hsame job List.mem_cons_self)⟩
  | write job rest pos n =>
      obtain ⟨hn, hpos, k, hk, hcopy, hbuf⟩ := h
      exact ⟨hn, hpos, k, hk, hcopy.congr (hsame job List.mem_cons_self), hbuf⟩
  | closeSrc job rest => exact Copying.congr h (hsame job List.mem_cons_self)
  | closeDst job rest =>
      have hjob := hsame job List.mem_cons_self
      exact ⟨hjob.src.trans h.1, hjob.dst.trans h.2⟩
  | finished => trivial

theorem copyRank_congr {l : CopyThread} {fds fds' : Descriptors}
    (hsame : ∀ job ∈ l.point.pending, SameJob fds fds' job) : copyRank (l, fds') = copyRank (l, fds) := by
  have hsum : (l.point.rest.map fun job => 3 + 2 * (fds' job.1).file.size) =
      l.point.rest.map fun job => 3 + 2 * (fds job.1).file.size := by
    apply List.map_congr_left
    intro job hjob
    rw [(hsame job (l.point.rest_subset_pending hjob)).src]
  rw [copyRank, copyRank, hsum]
  obtain ⟨point, buf⟩ := l
  -- Only the size and the offset of the source count.
  cases point with
  | read job rest => simp only [CopyPoint.rank, (hsame job List.mem_cons_self).src]
  | write job rest pos n => simp only [CopyPoint.rank, (hsame job List.mem_cons_self).src]
  | closeSrc job rest => rfl
  | closeDst job rest => rfl
  | finished => rfl

/-- The invariant of a thread looks at the descriptors of its own jobs only. -/
theorem CopyInv.agree {l : CopyThread} {fds fds' : Descriptors}
    (h : CopyInv bufLen fds₀ jobs (l, fds)) (hfds : ∀ fd ∈ jobFds jobs, fds' fd = fds fd) :
    CopyInv bufLen fds₀ jobs (l, fds') ∧ copyRank (l, fds') = copyRank (l, fds) := by
  obtain ⟨done, hjobs, hdone⟩ := h.done
  have hown : ∀ job ∈ jobs, SameJob fds fds' job := fun job hjob =>
    ⟨hfds _ (mem_jobFds hjob (Or.inl rfl)), hfds _ (mem_jobFds hjob (Or.inr rfl))⟩
  have hpending : ∀ job ∈ l.point.pending, SameJob fds fds' job :=
    fun job hjob => hown job (hjobs ▸ List.mem_append_right done hjob)
  refine ⟨⟨h.buf_len, ⟨done, hjobs, fun job hjob => ?_⟩, fun job hjob => ?_, h.point.congr hpending⟩,
    copyRank_congr hpending⟩
  · exact (hdone job hjob).congr (hown job (hjobs ▸ List.mem_append_left _ hjob))
  · exact (h.rest job hjob).congr (hpending job (l.point.rest_subset_pending hjob))

end Progress

/-- Whatever the calls transfer and in whatever order the threads make them: all threads
    end, every destination has the bytes of its source, and both are closed.  No other
    descriptor is touched. -/
theorem cpFunc_copies {threads bufLen : Nat} (hbufLen : 1 ≤ bufLen)
    (jobs : Fin threads → List Job)
    (hdistinct : ((List.finRange threads).flatMap fun i => jobFds (jobs i)).Nodup)
    (fds : Descriptors) (hopen : ∀ i, ∀ job ∈ jobs i, Untouched fds fds job)
    (buf : Fin threads → List Byte) (hbuf : ∀ i, (buf i).length = bufLen) :
    Inevitable (ThreadsStep fun _ => CopyStep bufLen)
      (fun y => (∀ i, (y.1 i).point = .finished ∧ ∀ job ∈ jobs i, Copied fds y.2 job) ∧
        ∀ fd, (∀ i, fd ∉ jobFds (jobs i)) → y.2 fd = fds fd)
      (fun i => cpFunc (jobs i) (buf i), fds) := by
  rcases Nat.eq_zero_or_pos threads with rfl | hthreads
  · -- without threads nothing happens
    exact Inevitable.now ⟨fun i => i.elim0, fun _ _ => rfl⟩
  obtain ⟨hnodup, hdisjoint⟩ := List.nodup_flatMap.mp hdistinct
  have hapart : ∀ i j, j ≠ i → ∀ fd ∈ jobFds (jobs j), fd ∉ jobFds (jobs i) := by
    intro i j hji fd hj hi
    have hsymm : Std.Symm (Function.onFun List.Disjoint fun i => jobFds (jobs i)) :=
      ⟨fun _ _ h => h.symm⟩
    exact hdisjoint.forall (List.mem_finRange j) (List.mem_finRange i) hji hj hi
  have hsystem : NonInterfering (fun _ : Fin threads => CopyStep bufLen)
      (fun i v => CopyInv bufLen fds (jobs i) v ∧
        ∀ fd, (∀ i, fd ∉ jobFds (jobs i)) → v.2 fd = fds fd)
      (fun _ v => copyRank v) (fun _ l => l.point = .finished) := {
    progress := fun i v hinv => copyStep_progress hinv.1
    keeps := by
      intro i v v' hinv hstep
      obtain ⟨hinv', hlt, fd, hfd, d, hfds⟩ :=
        copyStep_effect hbufLen hinv.1 (hnodup i (List.mem_finRange i)) hstep
      refine ⟨⟨hinv', ?_⟩, hlt⟩
      intro fd' hfd'
      have hne : fd' ≠ fd := fun heq => hfd' i (heq ▸ hfd)
      rw [hfds, Function.update_of_ne hne, hinv.2 fd' hfd']
    others := by
      intro i v v' hinv hstep j hj l hl
      obtain ⟨-, -, fd, hfd, d, hfds⟩ :=
        copyStep_effect hbufLen hinv.1 (hnodup i (List.mem_finRange i)) hstep
      obtain ⟨hinv', hrank⟩ := @CopyInv.agree bufLen fds (jobs j) l v.2 v'.2 hl.1 (by
        intro fd' hfd'
        have hne : fd' ≠ fd := fun heq => hapart i j hj fd' hfd' (heq ▸ hfd)
        rw [hfds, Function.update_of_ne hne])
      refine ⟨⟨hinv', ?_⟩, hrank⟩
      intro fd' hfd'
      have hne : fd' ≠ fd := fun heq => hfd' i (heq ▸ hfd)
      show v'.2 fd' = fds fd'
      rw [hfds, Function.update_of_ne hne]
      exact hl.2 fd' hfd' }
  have hstart : ∀ i, CopyInv bufLen fds (jobs i) (cpFunc (jobs i) (buf i), fds) ∧
      ∀ fd, (∀ i, fd ∉ jobFds (jobs i)) → fds fd = fds fd := by
    intro i
    refine ⟨⟨hbuf i, ⟨[], (nextJob_pending (jobs i)).symm, by simp⟩, ?_,
      pointInv_nextJob (hopen i)⟩, fun _ _ => rfl⟩
    exact fun job hjob => hopen i job (nextJob_rest_subset (jobs i) hjob)
  refine (inevitable_threads hsystem hstart).mono ?_
  intro y hy
  refine ⟨?_, ?_⟩
  · intro i
    obtain ⟨⟨hinv, -⟩, hfinished⟩ := hy i
    refine ⟨hfinished, ?_⟩
    -- no job is pending any more
    obtain ⟨done, hjobs, hdone⟩ := hinv.done
    rw [hfinished, CopyPoint.pending, List.append_nil] at hjobs
    exact hjobs ▸ hdone
  · exact (hy ⟨0, hthreads⟩).1.2

/-- Two threads with a buffer of one byte: the first one copies the two bytes of
    descriptor 3 to 4 and then an empty file, the second one the byte of 5 to 6. -/
theorem cpFunc_copies_sample :
    let jobs : Fin 2 → List Job := ![[(3, 4), (7, 8)], [(5, 6)]]
    let fds : Descriptors := fun fd =>
      if fd = 3 then openAt (File.empty.pwrite 0 [0x61, 0x62]) 0
      else if fd = 5 then openAt (File.empty.pwrite 0 [0x63]) 0
      else openAt File.empty 0
    Inevitable (ThreadsStep fun _ => CopyStep 1)
      (fun y => (∀ i, (y.1 i).point = .finished ∧ ∀ job ∈ jobs i, Copied fds y.2 job) ∧
        ∀ fd, (∀ i, fd ∉ jobFds (jobs i)) → y.2 fd = fds fd)
      (fun i => cpFunc (jobs i) [0x00], fds) := by
  refine cpFunc_copies (Nat.le_refl 1) _ (by decide) _ ?_ _ (fun _ => rfl)
  intro i job hjob
  match i with
  | 0 =>
      simp only [Matrix.cons_val_zero, List.mem_cons, List.not_mem_nil, or_false] at hjob
      rcases hjob with rfl | rfl
      · exact ⟨rfl, rfl⟩
      · exact ⟨rfl, rfl⟩
  | 1 =>
      simp only [Matrix.cons_val_one, Matrix.cons_val_fin_one, List.mem_singleton] at hjob
      rw [hjob]
      exact ⟨rfl, rfl⟩

end GogetaTools.Mcp
