/-
  GogetaTools.Mcp.Rerun

  `mcp/src/main.cpp`: a whole run of `main`, the opening of its two directories, the
  walk, the assignment and the threads, and what a second run makes of the copy that the
  first one left.

  A directory that is there already is entered, and a regular file is emptied and filled
  again.  A link is made as if there were none, which `symlinkat` refuses: the walk exits
  at the first one, with files behind it that are empty and will not be filled
  (`runEnds_over_copy_iff`).

  As for the walk alone, no call is refused for want of permission.
-/

import GogetaTools.Mcp.Assign
import GogetaTools.Mcp.Copy
import GogetaTools.Mcp.Walk

namespace GogetaTools.Mcp

open ByteFile EveryRun FileTree

/-! ## From the walk to the threads -/

/-- A descriptor as an `int`. -/
def fdWord : Option Nat → Fd
  | none => -1
  | some n => BitVec.ofNat 32 n

/-- The entry of `files`. -/
def OpenedWork.fileWork (work : OpenedWork) : FileWork :=
  { size := BitVec.ofNat 64 work.size, srcFd := fdWord work.srcFd, dstFd := fdWord work.dstFd }

/-- The open files as the threads find them, each one at its start. -/
def descriptors (sys : Fs) : Descriptors := fun fd =>
  match (sys.pathOf (some fd.toNat)).bind sys.node with
  | some (.reg _ file) => openAt file 0
  | _ => closedAt File.empty 0

/-- The threads keep the bytes of a file with its descriptor: this is the tree with those of
    one destination. -/
def writeBack (sys : Fs) (fds : Descriptors) (node : Path → Option FsNode) (work : OpenedWork) :
    Path → Option FsNode :=
  match sys.pathOf work.dstFd with
  | none => node
  | some p =>
      match node p with
      | some (.reg mode _) =>
          Function.update node p (some (.reg mode (fds (fdWord work.dstFd)).file))
      | _ => node

/-- The tree when the threads have ended. -/
def afterCopy (sys : Fs) (files : List OpenedWork) (fds : Descriptors) : Path → Option FsNode :=
  files.foldl (writeBack sys fds) sys.node

/-- `jobs[i]`. -/
def AssignState.jobsOf {m : Nat} (st : AssignState) (i : Fin m) : List Job := st.jobs[i.val]?.getD []

/-! ## A run -/

/-- `open` of a path with `O_DIRECTORY`. -/
def openDir (sys : Fs) (p : Path) : Option Nat × Fs :=
  match sys.node p with
  | some (.dir _) => (some sys.freeFd, sys.install p)
  | _ => (none, sys)

section Run

variable (grant : Mode → Mode) (readdir : Path → List Dirent) (linkText : Path → List Byte → List Byte)

/-- `mkdir` of a path. -/
def mkdirPath (sys : Fs) (p : Path) (mode : Mode) : Option Fs :=
  match p.getLast?, sys.node p.dropLast with
  | some name, some (.dir _) => (sys.mkdirat grant (some p.dropLast) name mode).toOption
  | _, _ => none

/-- `main` up to the `fchdir`: the directories of the source and of the destination.  `src`
    and `dst` are what `argv[1]` and `argv[2]` lead to, `name` is the `basename` of `argv[1]`. -/
def mainSetUp (src dst : Path) (name : Name) (sys : Fs) : Except Halt (Option Nat × Option Nat × Fs) := do
  let (srcFd, sys) := openDir sys src
  let _ ← exitOn "open" srcFd
  let dirStat ← exitOn "fstat" (sys.fstat srcFd)
  match openDir sys dst with
  | (none, sys) =>
      -- Only `ENOENT` is let pass.
      let _ ← exitOn "open" (if sys.node dst = none then some () else none)
      let sys ← exitOn "mkdir" (mkdirPath grant sys dst dirStat.mode)
      let (dstFd, sys) := openDir sys dst
      let _ ← exitOn "open" dstFd
      .ok (srcFd, dstFd, sys)
  | (some fd, sys) =>
      let sys ← makeDst grant sys (some fd) name dirStat.mode
      let (dstFd, sys) := sys.openName Node.isDir (sys.pathOf (some fd)) name
      let _ ← exitOn "open" dstFd
      .ok (srcFd, dstFd, sys)

/-- `main` from the `fchdir` to the closing of the directories. -/
def mainWalk (depth : Nat) (srcFd dstFd : Option Nat) (sys : Fs) : Except Halt Walk := do
  let sys ← exitOn "fchdir" (sys.fchdir srcFd)
  let src ← exitOn "opendir" (fdopendir readdir sys srcFd)
  let w ← cpDir grant readdir linkText depth src dstFd { files := [], sys := sys }
  let sys ← exitOn "closedir" (w.sys.close src.fd)
  let sys ← exitOn "close" (sys.close dstFd)
  .ok { w with sys := sys }

/-- The run takes no error exit: the walk returns, and whatever the order of the files, the
    contents of the buffers and the schedule, the threads end with a tree of which `P` holds. -/
def RunEnds (threads bufLen : Nat) (srcFd dstFd : Option Nat) (sys : Fs)
    (P : (Path → Option FsNode) → Prop) : Prop :=
  ∃ w, (∃ enough, ∀ depth, enough ≤ depth →
      mainWalk grant readdir linkText depth srcFd dstFd sys = .ok w) ∧
    ∀ works, StdSorted (w.files.map OpenedWork.fileWork) works →
      ∃ st, assignWorks threads works = some st ∧
        ∀ buf : Fin threads → List Byte, (∀ i, (buf i).length = bufLen) →
          Inevitable (ThreadsStep fun _ => CopyStep bufLen)
            (fun y => (∀ i, (y.1 i).point = .finished) ∧ P (afterCopy w.sys w.files y.2))
            (fun i => cpFunc (st.jobsOf i) (buf i), descriptors w.sys)

end Run

/-! ## The copy phase -/

/-- A descriptor is an `int`. -/
def FitsInt (work : OpenedWork) : Prop := ∀ n, some n ∈ work.fds → n < 2 ^ 31

theorem toNat_fdWord {n : Nat} (h : n < 2 ^ 31) : (fdWord (some n)).toNat = n := by
  rw [fdWord, BitVec.toNat_ofNat]
  omega

theorem jobFds_append (jobs jobs' : List Job) : jobFds (jobs ++ jobs') = jobFds jobs ++ jobFds jobs' :=
  List.flatMap_append

/-- The descriptors of the jobs of all threads. -/
theorem flatMap_jobFds {m : Nat} (jobs : Fin m → List Job) (is : List (Fin m)) :
    (is.flatMap fun i => jobFds (jobs i)) = jobFds (is.map jobs).flatten := by
  induction is with
  | nil => rfl
  | cons i is ih => rw [List.flatMap_cons, List.map_cons, List.flatten_cons, jobFds_append, ih]

theorem jobFds_fileWork (files : List OpenedWork) :
    jobFds ((files.map OpenedWork.fileWork).map FileWork.fds) =
      (files.flatMap OpenedWork.fds).map fdWord := by
  induction files with
  | nil => rfl
  | cons work files ih =>
      rw [List.flatMap_cons, List.map_append, ← ih]
      rfl

theorem AssignState.jobsOf_eq {m : Nat} {st : AssignState} {xs : List (FileWork × Fin m)}
    (h : Assigns m st xs) (i : Fin m) : st.jobsOf i = (ListSchedule.jobsOn xs i).map FileWork.fds := by
  rw [AssignState.jobsOf, h.jobs, List.getElem?_map, List.getElem?_eq_getElem (by simp)]
  simp

/-- The jobs of all threads, in some order, are the files. -/
theorem Assigns.jobsOf_perm {m : Nat} {st : AssignState} {xs : List (FileWork × Fin m)}
    (h : Assigns m st xs) :
    ((List.finRange m).map st.jobsOf).flatten.Perm ((xs.map Prod.fst).map FileWork.fds) := by
  have hjobs : (List.finRange m).map st.jobsOf = st.jobs := by
    rw [h.jobs]
    exact List.map_congr_left fun i _ => AssignState.jobsOf_eq h i
  rw [hjobs]
  exact h.jobs_perm

section Files

variable {s d : Path} {tree : Tree} {sys : Fs} {files : List OpenedWork}

/-- No two threads have a descriptor in common, as an `int` either. -/
theorem fdWord_distinct (hapart : ∀ q r, s ++ q ≠ d ++ r) (hone : OneEach s d tree sys files)
    (hfits : ∀ work ∈ files, FitsInt work) : ((files.flatMap OpenedWork.fds).map fdWord).Nodup := by
  have hsome : ∀ fd ∈ files.flatMap OpenedWork.fds, ∃ n, n < 2 ^ 31 ∧ fd = some n := by
    intro fd hfd
    obtain ⟨work, hwork, hfd⟩ := List.mem_flatMap.mp hfd
    obtain ⟨rels, -, -, hall⟩ := hone
    obtain ⟨q, -, hopened⟩ := exists_rel_of_mem hall hwork
    cases fd with
    | none => rcases hopened.path_of_mem hfd with h | h <;> simp at h
    | some n => exact ⟨n, hfits work hwork n hfd, rfl⟩
  refine List.Nodup.map_on ?_ (hone.distinct hapart)
  intro fd hfd fd' hfd' heq
  obtain ⟨n, hn, rfl⟩ := hsome fd hfd
  obtain ⟨n', hn', rfl⟩ := hsome fd' hfd'
  rw [← toNat_fdWord hn, ← toNat_fdWord hn', heq]

/-- The destinations of the regular files have been emptied. -/
structure Emptied (s d : Path) (tree : Tree) (sys : Fs) : Prop where
  source : ∀ q, sys.node (s ++ q) = tree q
  dst : ∀ q mode file, tree q = some (.reg mode file) →
    ∃ mode', sys.node (d ++ q) = some (.reg mode' File.empty)

/-- What a thread finds behind a descriptor of a regular file. -/
theorem descriptors_of_node {fd : Option Nat} {p : Path} {mode : Mode} {file : File Byte}
    (hfits : ∀ n, fd = some n → n < 2 ^ 31) (hpath : sys.pathOf fd = some p)
    (hnode : sys.node p = some (.reg mode file)) : descriptors sys (fdWord fd) = openAt file 0 := by
  cases fd with
  | none => simp at hpath
  | some n => simp only [descriptors, toNat_fdWord (hfits n rfl), hpath, Option.bind_some, hnode]

/-- A file as the threads get it: the source at its start, the destination empty. -/
theorem OpenedAt.descriptors_eq {q : Path} {work : OpenedWork} {mode : Mode} {file : File Byte}
    (h : OpenedAt s d tree sys q work) (hempty : Emptied s d tree sys) (hfits : FitsInt work)
    (hreg : tree q = some (.reg mode file)) :
    descriptors sys (fdWord work.srcFd) = openAt file 0 ∧
      descriptors sys (fdWord work.dstFd) = openAt File.empty 0 := by
  obtain ⟨mode', hdst⟩ := hempty.dst q mode file hreg
  have hsrc : sys.node (s ++ q) = some (.reg mode file) := by rw [hempty.source, hreg]
  refine ⟨descriptors_of_node (fun n hn => hfits n ?_) h.src hsrc,
    descriptors_of_node (fun n hn => hfits n ?_) h.dst hdst⟩
  · rw [← hn]
    exact List.mem_cons_self
  · rw [← hn]
    exact List.mem_cons_of_mem _ List.mem_cons_self

/-- What the threads have made of the tree: the regular files have the bytes of their
    sources, and the mode they had. -/
structure Filled (s d : Path) (tree : Tree) (sys : Fs) (node : Path → Option FsNode) : Prop where
  reg : ∀ q mode file mode', tree q = some (.reg mode file) →
    sys.node (d ++ q) = some (.reg mode' File.empty) → node (d ++ q) = some (.reg mode' file)
  frame : ∀ p, (∀ q mode file, tree q = some (.reg mode file) → p ≠ d ++ q) → node p = sys.node p

theorem writeBack_of_opened {q : Path} {work : OpenedWork} {mode : Mode} {old : File Byte}
    {fds : Descriptors} {node : Path → Option FsNode} (h : OpenedAt s d tree sys q work)
    (hnode : node (d ++ q) = some (.reg mode old)) :
    writeBack sys fds node work =
      Function.update node (d ++ q) (some (.reg mode (fds (fdWord work.dstFd)).file)) := by
  simp only [writeBack, h.dst, hnode]

/-- Every destination is written once: the others are at other paths. -/
theorem foldl_writeBack {fds : Descriptors} {rels : List Path}
    (hall : List.Forall₂ (OpenedAt s d tree sys) rels files) (hnodup : rels.Nodup)
    (hbytes : ∀ q, ∀ work ∈ files, ∀ mode file, OpenedAt s d tree sys q work →
      tree q = some (.reg mode file) → (fds (fdWord work.dstFd)).file = file) :
    ∀ node : Path → Option FsNode, (∀ q ∈ rels, ∃ mode old, node (d ++ q) = some (.reg mode old)) →
      (∀ q ∈ rels, ∀ mode file mode' old, tree q = some (.reg mode file) →
        node (d ++ q) = some (.reg mode' old) →
        files.foldl (writeBack sys fds) node (d ++ q) = some (.reg mode' file)) ∧
      ∀ p, (∀ q ∈ rels, p ≠ d ++ q) → files.foldl (writeBack sys fds) node p = node p := by
  -- Induction on the files that are left: the first one is not written again.
  induction hall with
  | nil => exact fun node _ => ⟨fun q hq => absurd hq List.not_mem_nil, fun p _ => rfl⟩
  | @cons q₀ work rels files hwork hall ih =>
    intro node hregs
    rw [List.nodup_cons] at hnodup
    obtain ⟨mode₀, old₀, hnode₀⟩ := hregs q₀ List.mem_cons_self
    rw [List.foldl_cons, writeBack_of_opened hwork hnode₀]
    set node₁ := Function.update node (d ++ q₀)
      (some (.reg mode₀ (fds (fdWord work.dstFd)).file)) with hnode₁
    have hother : ∀ q ∈ rels, node₁ (d ++ q) = node (d ++ q) := by
      intro q hq
      refine Function.update_of_ne (fun heq => hnodup.1 ?_) ..
      rwa [← List.append_cancel_left heq]
    obtain ⟨hwritten, hframe⟩ := ih hnodup.2
      (fun q work' hwork' => hbytes q work' (List.mem_cons_of_mem _ hwork')) node₁ (by
        intro q hq
        rw [hother q hq]
        exact hregs q (List.mem_cons_of_mem _ hq))
    refine ⟨fun q hq mode file mode' old hreg hold => ?_, fun p hp => ?_⟩
    · rcases List.mem_cons.mp hq with rfl | hq
      · rw [hframe (d ++ q) fun r hr heq => hnodup.1 (List.append_cancel_left heq ▸ hr)]
        rw [hnode₀] at hold
        cases hold
        rw [hnode₁, Function.update_self, hbytes q work List.mem_cons_self mode file hwork hreg]
      · exact hwritten q hq mode file mode' old hreg (by rw [hother q hq, hold])
    · rw [hframe p fun q hq => hp q (List.mem_cons_of_mem _ hq)]
      exact Function.update_of_ne (hp q₀ List.mem_cons_self) ..

/-- Threads with descriptors of their own: no step of one is noticed by another. -/
theorem copyThreads_nonInterfering {threads bufLen : Nat} (hbufLen : 1 ≤ bufLen)
    {jobs : Fin threads → List Job}
    (hdistinct : ((List.finRange threads).flatMap fun i => jobFds (jobs i)).Nodup) (fds : Descriptors) :
    NonInterfering (fun _ : Fin threads => CopyStep bufLen) (fun i v => CopyInv bufLen fds (jobs i) v)
      (fun _ v => copyRank v) (fun _ l => l.point = .finished) := by
  obtain ⟨hnodup, hdisjoint⟩ := List.nodup_flatMap.mp hdistinct
  refine ⟨fun i v hinv => copyStep_progress hinv, fun i v v' hinv hstep => ?_,
    fun i v v' hinv hstep j hj l hl => ?_⟩
  · obtain ⟨hinv', hlt, -⟩ := copyStep_effect hbufLen hinv (hnodup i (List.mem_finRange i)) hstep
    exact ⟨hinv', hlt⟩
  · obtain ⟨-, -, fd, hfd, d, hfds⟩ := copyStep_effect hbufLen hinv (hnodup i (List.mem_finRange i)) hstep
    refine hl.agree fun fd' hfd' => ?_
    have hne : fd' ≠ fd := by
      rintro rfl
      have hsymm : Std.Symm (Function.onFun List.Disjoint fun i => jobFds (jobs i)) :=
        ⟨fun _ _ h => h.symm⟩
      exact hdisjoint.forall (List.mem_finRange j) (List.mem_finRange i) hj hfd' hfd
    rw [hfds, Function.update_of_ne hne]

/-- All threads come to their end, with all jobs done. -/
theorem copyThreads_finish {threads bufLen : Nat} (hbufLen : 1 ≤ bufLen) {jobs : Fin threads → List Job}
    (hdistinct : ((List.finRange threads).flatMap fun i => jobFds (jobs i)).Nodup) {fds : Descriptors}
    (hopen : ∀ i, ∀ job ∈ jobs i, Untouched fds fds job) {buf : Fin threads → List Byte}
    (hbuf : ∀ i, (buf i).length = bufLen) :
    Inevitable (ThreadsStep fun _ => CopyStep bufLen)
      (fun y => ∀ i, (y.1 i).point = .finished ∧ ∀ job ∈ jobs i, Copied fds y.2 job)
      (fun i => cpFunc (jobs i) (buf i), fds) := by
  have hstart : ∀ i, CopyInv bufLen fds (jobs i) (cpFunc (jobs i) (buf i), fds) := fun i =>
    ⟨hbuf i, ⟨[], (nextJob_pending (jobs i)).symm, by simp⟩,
      fun job hjob => hopen i job (nextJob_rest_subset (jobs i) hjob), pointInv_nextJob (hopen i)⟩
  refine (inevitable_threads (copyThreads_nonInterfering hbufLen hdistinct fds) hstart).mono ?_
  intro y hy i
  obtain ⟨hinv, hfinished⟩ := hy i
  obtain ⟨done, hjobs, hdone⟩ := hinv.done
  rw [hfinished, CopyPoint.pending, List.append_nil] at hjobs
  exact ⟨hfinished, hjobs ▸ hdone⟩

/-- The assignment and the threads fill every file that the walk has opened. -/
theorem copyPhase_fills (hapart : ∀ q r, s ++ q ≠ d ++ r) (hone : OneEach s d tree sys files)
    (hempty : Emptied s d tree sys) (hfits : ∀ work ∈ files, FitsInt work) {threads bufLen : Nat}
    (hthreads : 1 ≤ threads) (hbufLen : 1 ≤ bufLen) {works : List FileWork}
    (hworks : StdSorted (files.map OpenedWork.fileWork) works) :
    ∃ st, assignWorks threads works = some st ∧
      ∀ buf : Fin threads → List Byte, (∀ i, (buf i).length = bufLen) →
        Inevitable (ThreadsStep fun _ => CopyStep bufLen)
          (fun y => (∀ i, (y.1 i).point = .finished) ∧ Filled s d tree sys (afterCopy sys files y.2))
          (fun i => cpFunc (st.jobsOf i) (buf i), descriptors sys) := by
  obtain ⟨st, xs, hrun, hxs, hst, -⟩ := assignWorks_assigns hthreads works
  refine ⟨st, hrun, fun buf hbuf => ?_⟩
  -- The jobs of all threads are the files that the walk has left.
  have hjobs : ((List.finRange threads).map st.jobsOf).flatten.Perm
      ((files.map OpenedWork.fileWork).map FileWork.fds) := by
    refine hst.jobsOf_perm.trans ?_
    rw [hxs]
    exact hworks.perm.map _
  have hdistinct : ((List.finRange threads).flatMap fun i => jobFds (st.jobsOf i)).Nodup := by
    rw [flatMap_jobFds, jobFds, (hjobs.flatMap_right _).nodup_iff]
    have h := fdWord_distinct hapart hone hfits
    rw [← jobFds_fileWork] at h
    exact h
  have hmem : ∀ i : Fin threads, ∀ job ∈ st.jobsOf i, ∃ work ∈ files, job = work.fileWork.fds := by
    intro i job hjob
    have h : job ∈ ((List.finRange threads).map st.jobsOf).flatten :=
      List.mem_flatten.mpr ⟨_, List.mem_map_of_mem (List.mem_finRange i), hjob⟩
    rw [hjobs.mem_iff, List.map_map] at h
    obtain ⟨work, hwork, rfl⟩ := List.mem_map.mp h
    exact ⟨work, hwork, rfl⟩
  obtain ⟨rels, hnodup, hrels, hall⟩ := hone
  have huntouched : ∀ i : Fin threads, ∀ job ∈ st.jobsOf i, Untouched (descriptors sys) (descriptors sys) job := by
    intro i job hjob
    obtain ⟨work, hwork, rfl⟩ := hmem i job hjob
    obtain ⟨q, -, hopened⟩ := exists_rel_of_mem hall hwork
    obtain ⟨mode, file, hreg, -⟩ := hopened.size
    obtain ⟨hsrc, hdst⟩ := hopened.descriptors_eq hempty (hfits work hwork) hreg
    refine ⟨?_, hdst⟩
    show descriptors sys (fdWord work.srcFd) = openAt (descriptors sys (fdWord work.srcFd)).file 0
    rw [hsrc, openAt_file]
  refine (copyThreads_finish hbufLen hdistinct huntouched hbuf).mono ?_
  intro y hdone
  refine ⟨fun i => (hdone i).1, ?_⟩
  have hbytes : ∀ q, ∀ work ∈ files, ∀ mode file, OpenedAt s d tree sys q work →
      tree q = some (.reg mode file) → (y.2 (fdWord work.dstFd)).file = file := by
    intro q work hwork mode file hopened hreg
    have h : work.fileWork.fds ∈ ((List.finRange threads).map st.jobsOf).flatten :=
      hjobs.mem_iff.mpr (List.mem_map_of_mem (List.mem_map_of_mem hwork))
    obtain ⟨jobs, hjobs', hjob⟩ := List.mem_flatten.mp h
    obtain ⟨i, -, rfl⟩ := List.mem_map.mp hjobs'
    have hcopied : y.2 (fdWord work.dstFd) = closedAt (descriptors sys (fdWord work.srcFd)).file _ :=
      ((hdone i).2 _ hjob).dst
    rw [hcopied, closedAt, (hopened.descriptors_eq hempty (hfits work hwork) hreg).1, openAt_file]
  obtain ⟨hwritten, hframe⟩ := foldl_writeBack hall hnodup hbytes sys.node fun q hq => by
    obtain ⟨mode, file, hreg⟩ := (hrels q).mp hq
    obtain ⟨mode', hdst⟩ := hempty.dst q mode file hreg
    exact ⟨mode', _, hdst⟩
  refine ⟨fun q mode file mode' hreg hdst => ?_, fun p hp => hframe p fun q hq => ?_⟩
  · exact hwritten q ((hrels q).mpr ⟨mode, file, hreg⟩) mode file mode' _ hreg hdst
  · obtain ⟨mode, file, hreg⟩ := (hrels q).mp hq
    exact hp q mode file hreg

end Files

/-! ## The walk over what admits it -/

section MainWalk

variable {grant : Mode → Mode} {readdir : Path → List Dirent} {linkText : Path → List Byte → List Byte}
variable {s d : Path} {tree : Tree} {sys : Fs} {srcFd dstFd : Option Nat}

/-- `main` has opened the two directories. -/
structure Started (readdir : Path → List Dirent) (s d : Path) (tree : Tree) (srcFd dstFd : Option Nat)
    (sys : Fs) : Prop where
  sourceTree : SourceTree (fun q => readdir (s ++ q)) tree
  source : ∀ q, sys.node (s ++ q) = tree q
  src : sys.pathOf srcFd = some s
  dst : sys.pathOf dstFd = some d

theorem Started.root (h : Started readdir s d tree srcFd dstFd sys) : ∃ mode, sys.node s = some (.dir mode) := by
  obtain ⟨mode, hroot⟩ := h.sourceTree.root
  refine ⟨mode, ?_⟩
  rw [← h.source, List.append_nil] at hroot
  exact hroot

theorem openDir_of_dir {p : Path} {mode : Mode} (h : sys.node p = some (.dir mode)) :
    openDir sys p = (some sys.freeFd, sys.install p) := by
  simp only [openDir, h]

/-- The directory that is already in the destination is taken as it is. -/
theorem mainSetUp_started {src dst : Path}
    (hsrc : SourceTree (fun q => readdir (src ++ q)) (fun q => sys.node (src ++ q)))
    {dstMode nameMode : Mode} {name : Name} (hdst : sys.node dst = some (.dir dstMode))
    (hname : sys.node (dst ++ [name]) = some (.dir nameMode)) :
    ∃ srcFd dstFd sys', mainSetUp grant src dst name sys = .ok (srcFd, dstFd, sys') ∧
      sys'.node = sys.node ∧
      Started readdir src (dst ++ [name]) (fun q => sys.node (src ++ q)) srcFd dstFd sys' := by
  obtain ⟨mode, hroot⟩ := hsrc.root
  rw [List.append_nil] at hroot
  -- Both arguments are opened.
  set sys₁ := sys.install src with hsys₁
  have hfd₁ : sys₁.pathOf (some sys.freeFd) = some src := pathOf_install_self
  have hstat : sys₁.fstat (some sys.freeFd) = some ⟨mode, 0⟩ := by
    rw [fstat_of_open hfd₁ hroot]
    rfl
  set sys₂ := sys₁.install dst with hsys₂
  have hopen₂ : openDir sys₁ dst = (some sys₁.freeFd, sys₂) := openDir_of_dir hdst
  have hfd₂ : sys₂.pathOf (some sys₁.freeFd) = some dst := pathOf_install_self
  -- `EEXIST`
  have hmake : makeDst grant sys₂ (some sys₁.freeFd) name mode = .ok sys₂ := by
    have hnode : sys₂.node (dst ++ [name]) = some (.dir nameMode) := hname
    simp only [makeDst, Sys.mkdirat, hfd₂, hnode]
  have hopen₃ : sys₂.openName Node.isDir (some dst) name = (some sys₂.freeFd, sys₂.install (dst ++ [name])) :=
    openName_of_node hname rfl
  refine ⟨some sys.freeFd, some sys₂.freeFd, sys₂.install (dst ++ [name]), ?_, rfl, ?_⟩
  · simp only [mainSetUp, openDir_of_dir hroot, ← hsys₁, hstat, hopen₂, hmake, hfd₂, hopen₃, exitOn, bind,
      Except.bind]
  · exact { sourceTree := hsrc
            source := fun q => rfl
            src := pathOf_install (pathOf_install hfd₁)
            dst := pathOf_install_self }

/-- The call of `cp_dir`: what is in front of it succeeds. -/
theorem Started.mainWalk_eq (h : Started readdir s d tree srcFd dstFd sys) (depth : Nat) :
    mainWalk grant readdir linkText depth srcFd dstFd sys =
      (do
        let w ← cpDir grant readdir linkText depth { fd := srcFd, entries := readdir (s ++ []) } dstFd
          { files := [], sys := { sys with cwd := s } }
        let sys ← exitOn "closedir" (w.sys.close srcFd)
        let sys ← exitOn "close" (sys.close dstFd)
        .ok { w with sys := sys }) := by
  obtain ⟨mode, hroot⟩ := h.root
  have hopen : fdopendir readdir { sys with cwd := s } srcFd = some ⟨srcFd, readdir (s ++ [])⟩ := by
    have hsrc : Sys.pathOf { sys with cwd := s } srcFd = some s := h.src
    rw [fdopendir, hsrc, Option.map_some, List.append_nil]
  simp only [mainWalk, fchdir_of_open h.src hroot, hopen, exitOn, bind, Except.bind]

theorem Started.standsAt (h : Started readdir s d tree srcFd dstFd sys) :
    At s d tree [] { sys with cwd := s } dstFd :=
  { source := h.source
    cwd := (List.append_nil s).symm
    dst := by rw [List.append_nil]; exact h.dst }

theorem OneEach.release {n : Nat} {p₀ : Path} {files : List OpenedWork} (h : OneEach s d tree sys files)
    (hn : sys.pathOf (some n) = some p₀)
    (hp₀ : ∀ q mode file, tree q = some (.reg mode file) → p₀ ≠ s ++ q ∧ p₀ ≠ d ++ q) :
    OneEach s d tree (sys.release n) files := by
  obtain ⟨rels, hnodup, hmem, hall⟩ := h
  exact ⟨rels, hnodup, hmem, hall.imp fun q work hwork => hwork.release hn (hp₀ q)⟩

/-- The walk of `main` returns, all below the source is copied, and the regular files are
    open. -/
theorem Started.walks (h : Started readdir s d tree srcFd dstFd sys) (hapart : ∀ q r, s ++ q ≠ d ++ r)
    (hready : Ready d tree (below []) sys) :
    ∃ w, (∃ enough, ∀ depth, enough ≤ depth →
        mainWalk grant readdir linkText depth srcFd dstFd sys = .ok w) ∧
      (∀ q ≠ [], w.sys.node (d ++ q) =
        copyOver grant (linkText (s ++ q)) (tree q) (sys.node (d ++ q))) ∧
      (∀ p, (∀ q ≠ [], p ≠ d ++ q) → w.sys.node p = sys.node p) ∧
      OneEach s d tree w.sys w.files := by
  obtain ⟨mode, hroot⟩ := h.sourceTree.root
  obtain ⟨height, hheight⟩ := h.sourceTree.height
  obtain ⟨sys', new, hrun, -, hwalked⟩ := @cpDir_walks grant linkText s d tree readdir h.sourceTree hapart height
    [] mode hroot hheight srcFd dstFd { sys with cwd := s } h.standsAt hready []
  rw [List.nil_append] at hrun
  -- Both directories are still open, under two descriptors.
  have hsrc : sys'.pathOf srcFd = some s := hwalked.keeps _ _ h.src
  have hdst : sys'.pathOf dstFd = some d := hwalked.keeps _ _ h.dst
  have hne : dstFd ≠ srcFd := by
    intro heq
    rw [heq, hsrc] at hdst
    refine hapart [] [] ?_
    rw [Option.some.inj hdst]
  obtain ⟨n, rfl⟩ : ∃ n, srcFd = some n := by
    cases srcFd with
    | none => exact absurd hsrc (by simp)
    | some n => exact ⟨n, rfl⟩
  obtain ⟨m, rfl⟩ : ∃ m, dstFd = some m := by
    cases dstFd with
    | none => exact absurd hdst (by simp)
    | some m => exact ⟨m, rfl⟩
  have hdst' : (sys'.release n).pathOf (some m) = some d := pathOf_release hdst hne
  -- Neither is the descriptor of a regular file.
  have hnotReg : ∀ q mode' file, tree q = some (.reg mode' file) → q ≠ [] := by
    rintro q mode' file hreg rfl
    rw [hroot] at hreg
    cases hreg
  refine ⟨{ files := new, sys := (sys'.release n).release m }, ⟨height, fun depth hle => ?_⟩, ?_, ?_, ?_⟩
  · rw [h.mainWalk_eq, cpDir_of_le hle hrun]
    simp only [close_of_open hsrc, close_of_open hdst', exitOn, bind, Except.bind]
  · exact fun q hq => hwalked.made q (mem_below_iff.mpr ⟨q, hq, rfl⟩)
  · exact fun p hp => hwalked.frame p fun q hq => hp q hq.2
  · refine ((hwalked.oneEach hroot).release hsrc fun q mode' file hreg => ?_).release hdst'
      fun q mode' file hreg => ?_
    · have hq := hnotReg q mode' file hreg
      refine ⟨by simpa using hq, ?_⟩
      have h := hapart [] q
      rwa [List.append_nil] at h
    · have hq := hnotReg q mode' file hreg
      refine ⟨?_, by simpa using hq⟩
      have h := (hapart q []).symm
      rwa [List.append_nil] at h

end MainWalk

/-! ## The walk over a copy with a link in it -/

section Exit

variable {grant : Mode → Mode} {readdir : Path → List Dirent} {linkText : Path → List Byte → List Byte}
variable {s d : Path} {tree : Tree} {sys sys₁ : Fs} {b : Path} {name : Name} {srcFd dstFd : Option Nat}
variable {A B : Set Path}

/-- What stands where the walk has been before: in the place of a link there is something. -/
def Stands (x old : Option FsNode) : Prop :=
  match x with
  | some (.link _) => old ≠ none
  | x => Admits x old

def Standing (d : Path) (tree : Tree) (A : Set Path) (sys : Fs) : Prop :=
  ∀ q ∈ A, Stands (tree q) (sys.node (d ++ q))

def HasLink (tree : Tree) (A : Set Path) : Prop := ∃ q ∈ A, ∃ target, tree q = some (.link target)

/-- Without a link it can be gone over. -/
theorem Standing.ready (h : Standing d tree A sys) (hno : ¬ HasLink tree A) : Ready d tree A sys := by
  intro q hq
  have hstands := h q hq
  cases hx : tree q with
  | none => exact trivial
  | some x =>
      rw [hx] at hstands
      cases x with
      | link target => exact absurd ⟨q, hq, target, hx⟩ hno
      | _ => exact hstands

theorem Standing.subset (h : Standing d tree B sys) (hAB : A ⊆ B) : Standing d tree A sys :=
  fun q hq => h q (hAB hq)

theorem Standing.walked {new : List OpenedWork} (hB : Standing d tree B sys) (hAB : Disjoint A B)
    (h : Walked grant linkText s d tree A sys sys₁ new) : Standing d tree B sys₁ := by
  intro q hq
  rw [h.node_of_disjoint hAB hq]
  exact hB q hq

/-- `f` takes the exit of `symlinkat`. -/
def ExitsAtLink (sys : Fs) (f : Walk → Except Halt Walk) : Prop :=
  ∀ files, f { files := files, sys := sys } = .error (.exitOn "symlink")

/-- What a call of `cp_dir` on the directory `b` does if there is a link below. -/
def WalkExits (readdir : Path → List Dirent) (s d : Path) (tree : Tree) (b : Path)
    (f : Dir → Option Nat → Walk → Except Halt Walk) : Prop :=
  ∀ fd dstFd sys, At s d tree b sys dstFd → Standing d tree (below b) sys → HasLink tree (below b) →
    ExitsAtLink sys (f { fd := fd, entries := readdir (s ++ b) } dstFd)

theorem handleSymbolicLink_exits {target : List Byte} (hat : At s d tree b sys dstFd)
    (hlink : tree (b ++ [name]) = some (.link target)) (hold : sys.node (d ++ (b ++ [name])) ≠ none) :
    ExitsAtLink sys (handleSymbolicLink linkText dstFd { name := name, type := .link }) := by
  intro files
  have hread : sys.readlink name = some target := by
    refine readlink_of_node ?_
    rw [hat.cwd, List.append_assoc, hat.source, hlink]
  obtain ⟨x, hx⟩ := Option.ne_none_iff_exists'.mp hold
  -- `EEXIST`
  have hexists : ∀ text, sys.symlinkat text (some (d ++ b)) name = none := by
    intro text
    simp only [Sys.symlinkat, List.append_assoc, hx]
  simp only [handleSymbolicLink, hread, hat.dst, hexists, exitOn, bind, Except.bind]

theorem cpSubdir_exits {mode : Mode} {cpDir : Dir → Option Nat → Walk → Except Halt Walk}
    (hapart : ∀ q r, s ++ q ≠ d ++ r) (hat : At s d tree b sys dstFd)
    (hstanding : Standing d tree (subtree (b ++ [name])) sys) (hdir : tree (b ++ [name]) = some (.dir mode))
    (hlink : HasLink tree (below (b ++ [name])))
    (hsub : WalkExits readdir s d tree (b ++ [name]) cpDir) :
    ExitsAtLink sys (cpSubdir grant readdir cpDir dstFd { name := name, type := .dir }) := by
  intro files
  have hadm : Admits (some (.dir mode)) (sys.node (d ++ (b ++ [name]))) := by
    have h := hstanding _ (List.prefix_refl _)
    rwa [hdir] at h
  obtain ⟨sys₃, srcFd2, dstFd2, hentered, hcwd₃, hrun⟩ :=
    @cpSubdir_enters grant (fun _ target => target) s d tree readdir sys b name dstFd mode hapart hat hadm hdir
  have hat₃ : At s d tree b sys₃ dstFd := hat.walked hapart hentered.head hcwd₃
  have hstanding₃ : Standing d tree (below (b ++ [name])) sys₃ :=
    (hstanding.subset fun q hq => hq.1).walked (disjoint_self_below _) hentered.head
  -- The exit is taken in the call.
  have hcall := hsub (some srcFd2) (some dstFd2) { sys₃ with cwd := s ++ (b ++ [name]) }
    ⟨hat₃.source, rfl, hentered.dst⟩ hstanding₃ hlink files
  rw [hrun]
  simp only [hcall, bind, Except.bind]

theorem cpEntry_exits {mode : Mode} {cpDir : Dir → Option Nat → Walk → Except Halt Walk} {de : Dirent}
    (hsrc : SourceTree (fun q => readdir (s ++ q)) tree) (hapart : ∀ q r, s ++ q ≠ d ++ r)
    (hat : At s d tree b sys dstFd) (hb : tree b = some (.dir mode)) (hde : de ∈ readdir (s ++ b))
    (hstanding : Standing d tree (subtree (b ++ [de.name])) sys)
    (hlink : HasLink tree (subtree (b ++ [de.name])))
    (hsub : ∀ name mode, tree (b ++ [name]) = some (.dir mode) →
      WalkExits readdir s d tree (b ++ [name]) cpDir) :
    ExitsAtLink sys (fun w => cpEntry grant readdir linkText cpDir dstFd w de) := by
  obtain ⟨q, hq, target, htarget⟩ := hlink
  obtain ⟨r, rfl⟩ := mem_subtree_iff.mp hq
  obtain ⟨name, type⟩ := de
  -- Below anything but a directory there is no link.
  have hhere : (∀ mode', tree (b ++ [name]) ≠ some (.dir mode')) →
      tree (b ++ [name]) = some (.link target) := by
    intro hno
    by_cases hr : r = []
    · rw [← htarget, hr, List.append_nil]
    · rw [hsrc.beneath hno r hr] at htarget
      cases htarget
  have hdots : name ∉ dots := by
    intro hdots
    have hnone := hsrc.noDots b name hdots
    have h := hhere fun mode' h => by rw [hnone] at h; cases h
    rw [hnone] at h
    cases h
  obtain ⟨x, hx, rfl⟩ := (hsrc.listed b mode hb ⟨name, type⟩ hdots).mp hde
  intro files
  simp only [cpEntry, hdots, if_false]
  cases x with
  | dir mode' =>
      refine cpSubdir_exits hapart hat hstanding hx ⟨b ++ [name] ++ r, ?_, target, htarget⟩
        (hsub name mode' hx) files
      refine mem_below_iff.mpr ⟨r, ?_, rfl⟩
      rintro rfl
      rw [List.append_nil, hx] at htarget
      cases htarget
  | link target' =>
      have hold := hstanding _ (List.prefix_refl _)
      simp only [hx, Stands] at hold
      exact handleSymbolicLink_exits hat hx hold files
  | reg mode' file =>
      have h := hhere fun mode' h => by rw [hx] at h; cases h
      rw [hx] at h
      cases h
  | other =>
      have h := hhere fun mode' h => by rw [hx] at h; cases h
      rw [hx] at h
      cases h

/-- The loop gets to the first entry with a link below it, whatever the order. -/
theorem cpEntries_exits {mode : Mode} {cpDir : Dir → Option Nat → Walk → Except Halt Walk}
    (hsrc : SourceTree (fun q => readdir (s ++ q)) tree) (hapart : ∀ q r, s ++ q ≠ d ++ r)
    (hb : tree b = some (.dir mode))
    (hwalks : ∀ name mode, tree (b ++ [name]) = some (.dir mode) →
      Walks grant readdir linkText s d tree (b ++ [name]) cpDir)
    (hsub : ∀ name mode, tree (b ++ [name]) = some (.dir mode) →
      WalkExits readdir s d tree (b ++ [name]) cpDir) (es : List Dirent) :
    ∀ sys, (es.map Dirent.name).Nodup → (∀ de ∈ es, de ∈ readdir (s ++ b)) →
      At s d tree b sys dstFd → Standing d tree (entriesRegion b es) sys → HasLink tree (entriesRegion b es) →
      ExitsAtLink sys (fun w => es.foldlM (cpEntry grant readdir linkText cpDir dstFd) w) := by
  -- Induction on the entries that are left: those in front of that one are copied over.
  induction es with
  | nil =>
    rintro sys _ _ _ _ ⟨q, ⟨de, hde, -⟩, -⟩
    exact absurd hde List.not_mem_nil
  | cons de es ih =>
    intro sys hnodup hmem hat hstanding hlink files
    rw [entriesRegion_cons] at hstanding
    rw [List.map_cons, List.nodup_cons] at hnodup
    have hde := hmem de List.mem_cons_self
    have hhead : Standing d tree (subtree (b ++ [de.name])) sys := hstanding.subset Set.subset_union_left
    show (de :: es).foldlM (cpEntry grant readdir linkText cpDir dstFd) { files := files, sys := sys } = _
    rw [List.foldlM_cons]
    by_cases hfirst : HasLink tree (subtree (b ++ [de.name]))
    · have hexit : cpEntry grant readdir linkText cpDir dstFd { files := files, sys := sys } de = _ :=
        cpEntry_exits hsrc hapart hat hb hde hhead hfirst hsub files
      rw [hexit]
      rfl
    · obtain ⟨sys₁, new₁, hrun₁, hcwd₁, hwalked₁⟩ :=
        cpEntry_copies hsrc hapart hat hb hde (hhead.ready hfirst) hwalks files
      have hrun₁ : cpEntry grant readdir linkText cpDir dstFd { files := files, sys := sys } de = _ := hrun₁
      rw [hrun₁]
      refine ih sys₁ hnodup.2 (fun x hx => hmem x (List.mem_cons_of_mem _ hx))
        (hat.walked hapart hwalked₁ hcwd₁) ?_ ?_ (files ++ new₁)
      · exact (hstanding.subset Set.subset_union_right).walked (disjoint_subtree_entries hnodup.1) hwalked₁
      · obtain ⟨q, hq, target, htarget⟩ := hlink
        rw [entriesRegion_cons] at hq
        rcases hq with hq | hq
        · exact absurd ⟨q, hq, target, htarget⟩ hfirst
        · exact ⟨q, hq, target, htarget⟩

theorem cpDir_exits (hsrc : SourceTree (fun q => readdir (s ++ q)) tree)
    (hapart : ∀ q r, s ++ q ≠ d ++ r) (depth : Nat) :
    ∀ b mode, tree b = some (.dir mode) → (∀ q, tree (b ++ q) ≠ none → q.length < depth) →
      WalkExits readdir s d tree b (cpDir grant readdir linkText depth) := by
  -- Induction on the depth, as for the walk that returns.
  induction depth with
  | zero =>
    intro b mode hb hheight
    refine absurd (hheight [] ?_) (Nat.not_lt_zero _)
    rw [List.append_nil, hb]
    exact Option.some_ne_none _
  | succ depth ih =>
    intro b mode hb hheight fd dstFd sys hat hstanding hlink
    have hlower : ∀ name, ∀ q, tree (b ++ [name] ++ q) ≠ none → q.length < depth := by
      intro name q hq
      have h := hheight (name :: q) (by rw [List.append_assoc] at hq; exact hq)
      rw [List.length_cons] at h
      omega
    refine cpEntries_exits hsrc hapart hb
      (fun name mode' hdir => cpDir_walks hsrc hapart depth _ mode' hdir (hlower name))
      (fun name mode' hdir => ih _ mode' hdir (hlower name)) (readdir (s ++ b)) sys
      (hsrc.distinct b mode hb) (fun _ h => h) hat (hstanding.subset (entriesRegion_subset b _)) ?_
    obtain ⟨q, hq, target, htarget⟩ := hlink
    exact ⟨q, below_listed hsrc hb hq (by rw [htarget]; exact Option.some_ne_none _), target, htarget⟩

/-- The run does not get to the threads. -/
theorem Started.exits (h : Started readdir s d tree srcFd dstFd sys) (hapart : ∀ q r, s ++ q ≠ d ++ r)
    (hstanding : Standing d tree (below []) sys) (hlink : HasLink tree (below [])) :
    ∃ enough, ∀ depth, enough ≤ depth →
      mainWalk grant readdir linkText depth srcFd dstFd sys = .error (.exitOn "symlink") := by
  obtain ⟨mode, hroot⟩ := h.sourceTree.root
  obtain ⟨height, hheight⟩ := h.sourceTree.height
  refine ⟨height, fun depth hle => ?_⟩
  have hexit := @cpDir_exits grant readdir linkText s d tree h.sourceTree hapart depth [] mode hroot
    (fun q hq => Nat.lt_of_lt_of_le (hheight q hq) hle) srcFd dstFd { sys with cwd := s } h.standsAt
    hstanding hlink []
  rw [h.mainWalk_eq, hexit]
  rfl

end Exit

/-! ## What a run leaves -/

/-- What a run leaves of `old` where the source has `x`. -/
def refill (grant : Mode → Mode) (text : List Byte → List Byte) (x old : Option FsNode) : Option FsNode :=
  match x, old with
  | some (.reg mode file), none => some (.reg (grant mode) file)
  | some (.reg _ file), some (.reg mode _) => some (.reg mode file)
  | x, old => copyOver grant text x old

/-- What a run leaves of `x` where there was nothing. -/
def copyNode (grant : Mode → Mode) (text : List Byte → List Byte) : FsNode → Option FsNode
  | .dir mode => some (.dir (grant mode))
  | .reg mode file => some (.reg (grant mode) file)
  | .link target => some (.link (text target))
  | .other => none

/-- The directory `d` has below it the complete result of a run for `tree`, and nothing else. -/
structure HoldsCopy (grant : Mode → Mode) (linkText : Path → List Byte → List Byte) (s d : Path) (tree : Tree)
    (node : Path → Option FsNode) : Prop where
  root : ∃ mode, node d = some (.dir mode)
  copy : ∀ q ≠ [], node (d ++ q) = (tree q).bind (copyNode grant (linkText (s ++ q)))

theorem refill_none (grant : Mode → Mode) (text : List Byte → List Byte) (x : Option FsNode) :
    refill grant text x none = x.bind (copyNode grant text) := by
  rcases x with _ | (_ | _ | _ | _) <;> rfl

/-- A copy of anything but a link stays what it is. -/
theorem refill_copyNode (grant grant₀ : Mode → Mode) (text text₀ : List Byte → List Byte) {x : Option FsNode}
    (hno : ∀ target, x ≠ some (.link target)) :
    refill grant text x (x.bind (copyNode grant₀ text₀)) = x.bind (copyNode grant₀ text₀) := by
  rcases x with _ | (mode | ⟨mode, file⟩ | target | _)
  · rfl
  · rfl
  · rfl
  · exact absurd rfl (hno target)
  · rfl

/-- A regular file is emptied by the walk and then filled. -/
theorem refill_of_reg (grant : Mode → Mode) (text : List Byte → List Byte) {mode : Mode} {file : File Byte}
    {old : Option FsNode} (h : Admits (some (.reg mode file)) old) :
    ∃ mode', copyOver grant text (some (.reg mode file)) old = some (.reg mode' File.empty) ∧
      refill grant text (some (.reg mode file)) old = some (.reg mode' file) := by
  rcases h with rfl | ⟨mode', file', rfl⟩
  · exact ⟨grant mode, rfl, rfl⟩
  · exact ⟨mode', rfl, rfl⟩

/-- All else is as the walk leaves it. -/
theorem refill_of_not_reg (grant : Mode → Mode) (text : List Byte → List Byte) {x : Option FsNode}
    (h : ∀ mode file, x ≠ some (.reg mode file)) (old : Option FsNode) :
    refill grant text x old = copyOver grant text x old := by
  rcases x with _ | (mode | ⟨mode, file⟩ | target | _)
  · rfl
  · rfl
  · exact absurd rfl (h mode file)
  · rfl
  · rfl

section Result

variable {grant : Mode → Mode} {readdir : Path → List Dirent} {linkText : Path → List Byte → List Byte}
variable {s d : Path} {tree : Tree} {sys : Fs} {srcFd dstFd : Option Nat} {threads bufLen : Nat}

theorem RunEnds.mono {P Q : (Path → Option FsNode) → Prop}
    (h : RunEnds grant readdir linkText threads bufLen srcFd dstFd sys P) (hpq : ∀ node, P node → Q node) :
    RunEnds grant readdir linkText threads bufLen srcFd dstFd sys Q := by
  obtain ⟨w, hwalk, hcopy⟩ := h
  refine ⟨w, hwalk, fun works hworks => ?_⟩
  obtain ⟨st, hst, hthreads⟩ := hcopy works hworks
  exact ⟨st, hst, fun buf hbuf => (hthreads buf hbuf).mono fun y hy => ⟨hy.1, hpq _ hy.2⟩⟩

/-- `open` has answered with an `int` each time. -/
def DescriptorsFit (grant : Mode → Mode) (readdir : Path → List Dirent) (linkText : Path → List Byte → List Byte)
    (srcFd dstFd : Option Nat) (sys : Fs) : Prop :=
  ∀ depth w, mainWalk grant readdir linkText depth srcFd dstFd sys = .ok w → ∀ work ∈ w.files, FitsInt work

/-- A run over what admits it. -/
theorem Started.runEnds (h : Started readdir s d tree srcFd dstFd sys) (hapart : ∀ q r, s ++ q ≠ d ++ r)
    (hready : Ready d tree (below []) sys) (hfits : DescriptorsFit grant readdir linkText srcFd dstFd sys)
    (hthreads : 1 ≤ threads) (hbufLen : 1 ≤ bufLen) :
    RunEnds grant readdir linkText threads bufLen srcFd dstFd sys fun node =>
      (∀ q ≠ [], node (d ++ q) = refill grant (linkText (s ++ q)) (tree q) (sys.node (d ++ q))) ∧
        ∀ p, (∀ q ≠ [], p ≠ d ++ q) → node p = sys.node p := by
  obtain ⟨w, ⟨enough, hwalk⟩, hmade, hframe, hone⟩ := @Started.walks grant readdir linkText s d tree sys
    srcFd dstFd h hapart hready
  obtain ⟨rootMode, hroot⟩ := h.sourceTree.root
  have hne : ∀ q mode file, tree q = some (.reg mode file) → q ≠ [] := by
    rintro q mode file hreg rfl
    rw [hroot] at hreg
    cases hreg
  have hadm : ∀ q ≠ [], Admits (tree q) (sys.node (d ++ q)) :=
    fun q hq => hready q (mem_below_iff.mpr ⟨q, hq, rfl⟩)
  -- the walk has truncated every file that the copy will fill
  have hempty : Emptied s d tree w.sys := by
    refine ⟨fun q => ?_, fun q mode file hreg => ?_⟩
    · rw [hframe _ fun r _ => hapart q r, h.source]
    · have hq := hne q mode file hreg
      have hadmq := hadm q hq
      rw [hreg] at hadmq
      obtain ⟨mode', hover, -⟩ := refill_of_reg grant (linkText (s ++ q)) hadmq
      exact ⟨mode', by rw [hmade q hq, hreg, hover]⟩
  refine ⟨w, ⟨enough, hwalk⟩, fun works hworks => ?_⟩
  obtain ⟨st, hst, hcopy⟩ := copyPhase_fills hapart hone hempty (hfits enough w (hwalk enough (Nat.le_refl _)))
    hthreads hbufLen hworks
  refine ⟨st, hst, fun buf hbuf => (hcopy buf hbuf).mono ?_⟩
  rintro y ⟨hfinished, hfilled⟩
  refine ⟨hfinished, fun q hq => ?_, fun p hp => ?_⟩
  · -- a regular file is filled by its job; any other node is as the walk left it
    by_cases hreg : ∃ mode file, tree q = some (.reg mode file)
    · obtain ⟨mode, file, hreg⟩ := hreg
      have hadmq := hadm q hq
      rw [hreg] at hadmq
      obtain ⟨mode', hover, hrefill⟩ := refill_of_reg grant (linkText (s ++ q)) hadmq
      rw [hreg, hrefill]
      exact hfilled.reg q mode file mode' hreg (by rw [hmade q hq, hreg, hover])
    · have hno : ∀ mode file, tree q ≠ some (.reg mode file) := fun mode file h => hreg ⟨mode, file, h⟩
      rw [refill_of_not_reg _ _ hno, ← hmade q hq]
      refine hfilled.frame _ fun r mode file hr heq => hno mode file ?_
      rw [List.append_cancel_left heq, hr]
  · rw [hfilled.frame p fun q mode file hreg => hp q (hne q mode file hreg), hframe p hp]

/-- A run with an empty destination leaves a copy: what a later one finds. -/
theorem Started.runEnds_empty (h : Started readdir s d tree srcFd dstFd sys) (hdst : EmptyDir sys d)
    (hout : ¬ s <+: d) (hfits : DescriptorsFit grant readdir linkText srcFd dstFd sys)
    (hthreads : 1 ≤ threads) (hbufLen : 1 ≤ bufLen) :
    RunEnds grant readdir linkText threads bufLen srcFd dstFd sys (HoldsCopy grant linkText s d tree) := by
  obtain ⟨mode, hroot⟩ := h.root
  have hready : Ready d tree (below []) sys := by
    intro q hq
    rw [hdst.empty q hq.2]
    exact admits_none _
  refine (h.runEnds (apart hroot hdst hout) hready hfits hthreads hbufLen).mono ?_
  rintro node ⟨hnode, hframe⟩
  obtain ⟨dirMode, hdir⟩ := hdst.dir
  refine ⟨⟨dirMode, ?_⟩, fun q hq => ?_⟩
  · rw [hframe d fun q hq => by simpa using hq, hdir]
  · rw [hnode q hq, hdst.empty q hq, refill_none]

/-! ## A run over a copy -/

theorem copyNode_eq_dir {text : List Byte → List Byte} {x : Option FsNode} {mode : Mode}
    (h : x.bind (copyNode grant text) = some (.dir mode)) : ∃ mode', x = some (.dir mode') := by
  rcases x with _ | (mode' | _ | _ | _)
  · cases h
  · exact ⟨mode', rfl⟩
  · cases h
  · cases h
  · cases h

/-- A finite tree does not go on along `r` for ever. -/
theorem SourceTree.not_periodic {readdir : Path → List Dirent} (h : SourceTree readdir tree) {r : Path}
    (hr : r ≠ []) : ¬ ∀ k, ∃ mode, tree (List.replicate k r).flatten = some (.dir mode) := by
  intro hdirs
  obtain ⟨height, hheight⟩ := h.height
  obtain ⟨mode, hdir⟩ := hdirs height
  have hlt := hheight _ (by rw [hdir]; exact Option.some_ne_none _)
  have hpos := List.length_pos_iff.mpr hr
  rw [List.length_flatten, List.map_replicate, List.sum_replicate, smul_eq_mul] at hlt
  exact absurd hlt (Nat.not_lt.mpr (Nat.le_mul_of_pos_right height hpos))

/-- A tree and its copy do not hold each other: they would hold copies of that one too. -/
theorem HoldsCopy.apart (h : HoldsCopy grant linkText s d tree sys.node)
    (hstart : Started readdir s d tree srcFd dstFd sys) (hne : d ≠ s) (q r : Path) : s ++ q ≠ d ++ r := by
  obtain ⟨rootMode, hroot⟩ := hstart.sourceTree.root
  refine append_ne_append ?_ ?_ q r
  · rintro ⟨r, rfl⟩
    have hr : r ≠ [] := fun hnil => hne (by rw [hnil, List.append_nil])
    refine hstart.sourceTree.not_periodic hr fun k => ?_
    -- The copy of what is at `r` times `k` is at `r` times `k + 1` of the tree itself.
    induction k with
    | zero => exact ⟨rootMode, hroot⟩
    | succ k ih =>
      obtain ⟨mode, hdir⟩ := ih
      rw [List.replicate_succ, List.flatten_cons, ← hstart.source, ← List.append_assoc]
      by_cases hk : (List.replicate k r).flatten = []
      · rw [hk, List.append_nil]
        exact h.root
      · rw [h.copy _ hk, hdir]
        exact ⟨grant mode, rfl⟩
  · rintro ⟨r, rfl⟩
    have hr : r ≠ [] := by
      rintro rfl
      exact hne (List.append_nil d).symm
    refine hstart.sourceTree.not_periodic hr fun k => ?_
    induction k with
    | zero => exact ⟨rootMode, hroot⟩
    | succ k ih =>
      obtain ⟨mode, hdir⟩ := ih
      rw [List.replicate_succ, List.flatten_cons]
      rw [← hstart.source, List.append_assoc, h.copy _ (by simp [hr])] at hdir
      exact copyNode_eq_dir hdir

theorem HoldsCopy.standing (h : HoldsCopy grant linkText s d tree sys.node) : Standing d tree (below []) sys := by
  intro q hq
  rw [h.copy q hq.2]
  rcases tree q with _ | (mode | ⟨mode, file⟩ | target | _)
  · exact trivial
  · exact Or.inr ⟨_, rfl⟩
  · exact Or.inr ⟨_, _, rfl⟩
  · exact Option.some_ne_none _
  · exact trivial

end Result

/-- Over the copy that an earlier run has left, under whatever `umask` and with whatever
    targets of its links, a run takes no error exit and leaves the source and its copy as
    they should be exactly if the source has no symbolic link. -/
theorem runEnds_over_copy_iff (grant : Mode → Mode) (readdir : Path → List Dirent)
    (linkText : Path → List Byte → List Byte) {grant₀ : Mode → Mode} {linkText₀ : Path → List Byte → List Byte}
    {s d : Path} {tree : Tree} {srcFd dstFd : Option Nat} {sys : Fs}
    (hstart : Started readdir s d tree srcFd dstFd sys)
    (hcopy : HoldsCopy grant₀ linkText₀ s d tree sys.node) (hne : d ≠ s)
    (hfits : DescriptorsFit grant readdir linkText srcFd dstFd sys) {threads bufLen : Nat}
    (hthreads : 1 ≤ threads) (hbufLen : 1 ≤ bufLen) :
    RunEnds grant readdir linkText threads bufLen srcFd dstFd sys (fun node =>
        (∀ q, node (s ++ q) = tree q) ∧ HoldsCopy grant₀ linkText₀ s d tree node) ↔
      ∀ q target, tree q ≠ some (.link target) := by
  have hapart := hcopy.apart hstart hne
  refine ⟨fun hends q target hlink => ?_, fun hno => ?_⟩
  · -- The walk has only one way to end.
    have hbelow : HasLink tree (below []) := by
      refine ⟨q, mem_below_iff.mpr ⟨q, ?_, rfl⟩, target, hlink⟩
      rintro rfl
      obtain ⟨mode, hroot⟩ := hstart.sourceTree.root
      rw [hroot] at hlink
      cases hlink
    obtain ⟨enough, hexit⟩ := @Started.exits grant readdir linkText s d tree sys srcFd dstFd hstart hapart
      hcopy.standing hbelow
    obtain ⟨w, ⟨enough', hwalk⟩, -⟩ := hends
    have h := hexit (max enough enough') (Nat.le_max_left _ _)
    rw [hwalk _ (Nat.le_max_right _ _)] at h
    cases h
  · have hready : Ready d tree (below []) sys :=
      hcopy.standing.ready fun ⟨q, _, target, hlink⟩ => hno q target hlink
    refine (hstart.runEnds hapart hready hfits hthreads hbufLen).mono ?_
    rintro node ⟨hnode, hframe⟩
    obtain ⟨dirMode, hdir⟩ := hcopy.root
    refine ⟨fun q => ?_, ⟨dirMode, ?_⟩, fun q hq => ?_⟩
    · rw [hframe _ fun r _ => hapart q r, hstart.source]
    · rw [hframe d fun q hq => by simpa using hq, hdir]
    · rw [hnode q hq, hcopy.copy q hq, refill_copyNode _ _ _ _ (hno q)]

/-! The tree `s` has a directory `a` with the one entry `f`, and `d` is a copy of it. -/

def fileEntry : FsNode := .reg 420 (File.empty.pwrite 0 [1, 2])

def linkEntry : FsNode := .link [97]

def nested (x : FsNode) : Tree := fun q =>
  if q = [] ∨ q = [[97]] then some (.dir 493) else if q = [[97], [102]] then some x else none

def nestedFs (x : FsNode) : Fs where
  node p := if p.head? = some [115] ∨ p.head? = some [100] then nested x p.tail else none
  cwd := []
  fds := [some [[115]], some [[100]]]

def nestedDir (type : Kind) : Path → List Dirent := fun p =>
  if p = [[115]] then [⟨[46], .dir⟩, ⟨[97], .dir⟩, ⟨[46, 46], .dir⟩]
  else if p = [[115], [97]] then [⟨[102], type⟩, ⟨[46], .dir⟩, ⟨[46, 46], .dir⟩]
  else []

theorem nested_child {x y : FsNode} {q : Path} {name : Name} (h : nested x (q ++ [name]) = some y) :
    (q = [] ∧ name = [97] ∧ y = .dir 493) ∨ (q = [[97]] ∧ name = [102] ∧ y = x) := by
  simp only [nested, List.append_eq_nil_iff, List.cons_ne_nil, and_false, false_or] at h
  split_ifs at h with hdir hentry
  · have hdir : q ++ [name] = [] ++ [[97]] := hdir
    obtain ⟨hq, hname⟩ := List.append_inj' hdir rfl
    exact Or.inl ⟨hq, List.singleton_inj.mp hname, (Option.some.inj h).symm⟩
  · have hentry : q ++ [name] = [[97]] ++ [[102]] := hentry
    obtain ⟨hq, hname⟩ := List.append_inj' hentry rfl
    exact Or.inr ⟨hq, List.singleton_inj.mp hname, (Option.some.inj h).symm⟩

theorem nested_dir {x : FsNode} (hdir : ∀ mode, x ≠ .dir mode) {q : Path} {mode : Mode}
    (h : nested x q = some (.dir mode)) : q = [] ∨ q = [[97]] := by
  simp only [nested] at h
  split_ifs at h with hq
  · exact hq
  · exact absurd (Option.some.inj h) (hdir mode)

theorem nested_started {x : FsNode} (hdir : ∀ mode, x ≠ .dir mode) :
    Started (nestedDir x.kind) [[115]] [[100]] (nested x) (some 0) (some 1) (nestedFs x) := by
  have hsource : SourceTree (fun q => nestedDir x.kind ([[115]] ++ q)) (nested x) := by
    refine { root := ⟨493, rfl⟩, parent := ?_, finite := ?_, noDots := ?_, distinct := ?_, listed := ?_ }
    · intro q name y h
      rcases nested_child h with ⟨rfl, -⟩ | ⟨rfl, -⟩ <;> exact ⟨493, rfl⟩
    · refine Set.Finite.subset (List.finite_toSet [[], [[97]], [[97], [102]]]) fun q hq => ?_
      have hsome : nested x q ≠ none := hq
      simp only [nested] at hsome
      split_ifs at hsome with h₁ h₂
      · rcases h₁ with rfl | rfl <;> simp
      · simp [h₂]
      · exact absurd rfl hsome
    · intro q name hname
      by_contra hsome
      obtain ⟨y, hy⟩ := Option.ne_none_iff_exists'.mp hsome
      rcases nested_child hy with ⟨-, rfl, -⟩ | ⟨-, rfl, -⟩ <;> exact absurd hname (by decide)
    · intro q mode h
      rcases nested_dir hdir h with rfl | rfl
      · show ([[46], [97], [46, 46]] : List Name).Nodup
        decide
      · show ([[102], [46], [46, 46]] : List Name).Nodup
        decide
    · intro q mode h de hdots
      refine ⟨fun hde => ?_, ?_⟩
      · rcases nested_dir hdir h with rfl | rfl
        · have hde : de ∈ [⟨[46], .dir⟩, ⟨[97], .dir⟩, ⟨[46, 46], .dir⟩] := hde
          simp only [List.mem_cons, List.not_mem_nil, or_false] at hde
          rcases hde with rfl | rfl | rfl
          · exact absurd (by decide) hdots
          · exact ⟨_, rfl, rfl⟩
          · exact absurd (by decide) hdots
        · have hde : de ∈ [⟨[102], x.kind⟩, ⟨[46], .dir⟩, ⟨[46, 46], .dir⟩] := hde
          simp only [List.mem_cons, List.not_mem_nil, or_false] at hde
          rcases hde with rfl | rfl | rfl
          · exact ⟨x, rfl, rfl⟩
          · exact absurd (by decide) hdots
          · exact absurd (by decide) hdots
      · rintro ⟨y, hy, hkind⟩
        obtain ⟨name, type⟩ := de
        subst hkind
        rcases nested_child hy with ⟨rfl, rfl, rfl⟩ | ⟨rfl, rfl, rfl⟩
        · exact List.mem_cons_of_mem _ List.mem_cons_self
        · exact List.mem_cons_self
  exact { sourceTree := hsource, source := fun q => rfl, src := rfl, dst := rfl }

theorem nested_holdsCopy {x : FsNode} (hother : x ≠ .other) :
    HoldsCopy id (fun _ target => target) [[115]] [[100]] (nested x) (nestedFs x).node := by
  refine ⟨⟨493, rfl⟩, fun q _ => ?_⟩
  show nested x q = _
  cases hx : nested x q with
  | none => rfl
  | some y => cases y with
    | other =>
        simp only [nested] at hx
        split_ifs at hx
        · cases hx
        · exact absurd (Option.some.inj hx) hother
    | _ => rfl

/-- Two threads with a buffer of one byte: over the copy of a directory with a file the run
    ends well, over that of a directory with a link it does not. -/
theorem runEnds_over_copy_iff_sample :
    RunEnds id (nestedDir .reg) (fun _ target => target) 2 1 (some 0) (some 1) (nestedFs fileEntry)
        (fun node => (∀ q, node ([[115]] ++ q) = nested fileEntry q) ∧
          HoldsCopy id (fun _ target => target) [[115]] [[100]] (nested fileEntry) node) ∧
      ¬ RunEnds id (nestedDir .link) (fun _ target => target) 2 1 (some 0) (some 1) (nestedFs linkEntry)
        (fun node => (∀ q, node ([[115]] ++ q) = nested linkEntry q) ∧
          HoldsCopy id (fun _ target => target) [[115]] [[100]] (nested linkEntry) node) := by
  have hfile : Started (nestedDir .reg) [[115]] [[100]] (nested fileEntry) (some 0) (some 1)
      (nestedFs fileEntry) := nested_started (x := fileEntry) fun mode h => by cases h
  have hlink : Started (nestedDir .link) [[115]] [[100]] (nested linkEntry) (some 0) (some 1)
      (nestedFs linkEntry) := nested_started (x := linkEntry) fun mode h => by cases h
  have hfileCopy := @nested_holdsCopy fileEntry fun h => by cases h
  have hlinkCopy := @nested_holdsCopy linkEntry fun h => by cases h
  constructor
  · refine (runEnds_over_copy_iff id (nestedDir .reg) (fun _ target => target) hfile hfileCopy
      (by decide) ?_ (by decide) (by decide)).mpr ?_
    · -- The two descriptors of the file are 4 and 5, behind those of the directories.
      intro depth w hrun work hwork n hn
      have hfiles : w.files = [⟨2, some 4, some 5⟩] := by
        cases depth with
        | zero => cases hrun
        | succ depth => cases depth with
          | zero => cases hrun
          | succ depth =>
              have h := congrArg (fun r => r.toOption.map Walk.files) hrun
              exact (Option.some.inj h).symm
      rw [hfiles, List.mem_singleton] at hwork
      subst hwork
      simp only [OpenedWork.fds, List.mem_cons, List.not_mem_nil, or_false, Option.some.injEq] at hn
      omega
    · intro q target hnode
      simp only [nested] at hnode
      split_ifs at hnode <;> cases hnode
  · intro h
    have hno := (runEnds_over_copy_iff id (nestedDir .link) (fun _ target => target) hlink hlinkCopy
      (by decide) ?_ (by decide) (by decide)).mp h
    · exact hno [[97], [102]] [97] rfl
    · -- the walk never returns
      intro depth w hrun
      cases depth with
      | zero => cases hrun
      | succ depth => cases depth with
        | zero => cases hrun
        | succ depth => cases hrun

/-- The entry is a link, which the copy has already: the walk exits with the error of
    `symlink`, whatever the number of threads and the buffer. -/
theorem runEnds_over_copy_fails :
    Started (nestedDir .link) [[115]] [[100]] (nested linkEntry) (some 0) (some 1) (nestedFs linkEntry) ∧
      HoldsCopy id (fun _ target => target) [[115]] [[100]] (nested linkEntry) (nestedFs linkEntry).node ∧
      (∀ depth, mainWalk id (nestedDir .link) (fun _ target => target) (depth + 2) (some 0) (some 1)
        (nestedFs linkEntry) = .error (.exitOn "symlink")) ∧
      ∀ threads bufLen P, ¬ RunEnds id (nestedDir .link) (fun _ target => target) threads bufLen
        (some 0) (some 1) (nestedFs linkEntry) P := by
  have hstart : Started (nestedDir .link) [[115]] [[100]] (nested linkEntry) (some 0) (some 1)
      (nestedFs linkEntry) := nested_started (x := linkEntry) fun mode h => by cases h
  have hcopy : HoldsCopy id (fun _ target => target) [[115]] [[100]] (nested linkEntry)
      (nestedFs linkEntry).node := nested_holdsCopy fun h => by cases h
  have hexit : ∀ depth, mainWalk id (nestedDir .link) (fun _ target => target) (depth + 2) (some 0)
      (some 1) (nestedFs linkEntry) = .error (.exitOn "symlink") := fun _ => rfl
  refine ⟨hstart, hcopy, hexit, ?_⟩
  rintro threads bufLen P ⟨w, ⟨enough, hwalk⟩, -⟩
  have h := hwalk (enough + 2) (Nat.le_add_right enough 2)
  rw [hexit] at h
  cases h

end GogetaTools.Mcp
