/-
  GogetaTools.Replay.Worker

  `replay_worker`: one worker, from opening its files to the end of its hints.

  The worker is a state machine whose steps are its system calls; what it
  computes in between belongs to the step.  A step that would go out of bounds,
  divide by zero or leave through `exit` is no step at all.  How many bytes a
  `pread` returns is not determined, the transferred writes are complete.
  Reads are dumped (`-r`).

  `execRecord` is what a single record does to the file and the dump.
  `replayWorker_inevitable` says that every run of the worker ends, and leaves
  what its records leave one after the other.
-/

import GogetaTools.Lib.ByteFile
import GogetaTools.Lib.Inevitable
import GogetaTools.Replay.FillBlk
import GogetaTools.Replay.Setup

namespace GogetaTools.Replay

open WriteLog ByteFile EveryRun

/-! ## The machine -/

/-- Where the worker is: before its files are open, at the head of the loop over
    the hints, in the `pread` loop of a hint, behind the loop. -/
inductive Pc
  | start
  | atHint (i : Nat)
  | inRead (i done : Nat)
  | finished
deriving DecidableEq

/-- The worker's own memory. -/
structure Worker (Ctx : Type) where
  pc : Pc
  buf : Nat → Byte
  ctx : Ctx

/-- The files it works on; the destination may be absent. -/
structure Disk where
  dst : Option (File Byte)
  dump : List Byte

/-- An offset as `off_t`; a call with a negative one fails, and the worker exits. -/
def offT (ofs : Word) : Option Nat := if ofs.toNat < 2 ^ 63 then some ofs.toNat else none

section Machine

variable {P Ctx : Type} (info : P → TraceInfo) (gener : Option (RandGener Ctx))
  (mode : ReplayMode) (hints : List TraceReplayHint) (w : ReplayParam P)

/-- The size of `buf`. -/
def ReplayParam.bufSize : Nat := w.bufBlks * BLK_SIZE

/-- The loop over `j` with `n` records to go, which fills the blocks from `p` on. -/
def fillLoop : Nat → Nat → Nat → (Nat → Byte) → Ctx → Option ((Nat → Byte) × Ctx)
  | 0, _, _, buf, ctx => some (buf, ctx)
  | n + 1, j, p, buf, ctx => do
      let record ← w.infosMap[j]?
      let (buf, ctx) ← fillAt gener w.bufSize p (info record).md5 buf ctx
      fillLoop n (j + 1) (p + BLK_SIZE) buf ctx

/-- `pwrite` at the offset of the hint's first record, or `write` at the end. -/
def writeBlks (hint : TraceReplayHint) (f : File Byte) (bs : List Byte) : Option (File Byte) :=
  match mode with
  | .append => some (f.append bs)
  | _ => do
      let first ← w.infosMap[hint.startTraceLine]?
      let off ← offT (info first).ofs
      some (f.pwrite off bs)

/-- A hint that is written. -/
def writeHint (i : Nat) (hint : TraceReplayHint) (x : Worker Ctx × Disk) :
    Option (Worker Ctx × Disk) := do
  let blkSize := hint.continuousBlks * BLK_SIZE
  let (buf, ctx) ← fillLoop info gener w hint.continuousBlks hint.startTraceLine 0 x.1.buf x.1.ctx
  if blkSize ≤ w.bufSize then do
    let f ← x.2.dst
    let f ← writeBlks info mode w hint f (bytesOf buf blkSize)
    some ({ pc := .atHint (i + 1), buf := buf, ctx := ctx }, { x.2 with dst := some f })
  else none

/-- The arguments of the next `pread`. -/
def preadRequest (i done : Nat) (d : Disk) : Option (File Byte × Nat × Nat) := do
  let hint ← hints[i]?
  let blkSize := hint.continuousBlks * BLK_SIZE
  let first ← w.infosMap[hint.startTraceLine]?
  let off ← offT (info first).ofs
  let f ← d.dst
  if blkSize ≤ w.bufSize then some (f, off + done, blkSize - done) else none

/-- One turn of the `pread` loop, which returned `ret`; a full buffer or the end
    of the file ends the loop, and the rest of the buffer is cleared. -/
def readTurn (i done ret : Nat) (x : Worker Ctx × Disk) : Option (Worker Ctx × Disk) := do
  let (f, off, n) ← preadRequest info hints w i done x.2
  if n ≠ 0 ∧ ret ≠ 0 then
    some ({ x.1 with pc := .inRead i (done + ret)
                     buf := writeAt x.1.buf done (f.readZ off ret) }, x.2)
  else
    let buf := writeAt x.1.buf done (List.replicate n 0)
    some ({ x.1 with pc := .atHint (i + 1), buf := buf },
      { x.2 with dump := x.2.dump ++ bytesOf buf (done + n) })

/-- The next step; `ret` is what a `pread` returns. -/
def replayStep (ret : Nat) (x : Worker Ctx × Disk) : Option (Worker Ctx × Disk) :=
  match x.1.pc with
  | .start =>
      some ({ x.1 with pc := .atHint w.hintsStart },
        { dst := some (x.2.dst.getD File.empty), dump := [] })
  | .atHint i =>
      if i < w.hintsEnd then do
        let hint ← hints[i]?
        if mode ≠ .readwrite ∨ hint.rw = charW then writeHint info gener mode w i hint x
        else some ({ x.1 with pc := .inRead i 0 }, x.2)
      else some ({ x.1 with pc := .finished }, x.2)
  | .inRead i done => readTurn info hints w i done ret x
  | .finished => none

/-- `ret` is a result the `pread` at hand may have. -/
def ReadReturns (ret : Nat) (x : Worker Ctx × Disk) : Prop :=
  ∀ i done, x.1.pc = .inRead i done → ∀ f off n,
    preadRequest info hints w i done x.2 = some (f, off, n) → f.PreadReturns off n ret

def WorkerStep (x y : Worker Ctx × Disk) : Prop :=
  ∃ ret, ReadReturns info hints w ret x ∧ replayStep info gener mode hints w ret x = some y

end Machine

/-! ## One record after the other -/

section Records

variable {P : Type} (info : P → TraceInfo) (mode : ReplayMode) (block : P → List Byte)

/-- The byte offset of a block address. -/
def lbaOffset (lba : Word) : Nat := lba.toNat * 512

/-- The record is written; in read-write mode all but `'W'` records are read. -/
def Writes (i : TraceInfo) : Prop := mode ≠ .readwrite ∨ i.rw = charW

instance (i : TraceInfo) : Decidable (Writes mode i) :=
  inferInstanceAs (Decidable (mode ≠ .readwrite ∨ i.rw = charW))

/-- The block of the record written, or its 4096 bytes read and dumped. -/
def execRecord (d : File Byte × List Byte) (p : P) : File Byte × List Byte :=
  if Writes mode (info p) then
    if mode = .append then (d.1.append (block p), d.2)
    else (d.1.pwrite (lbaOffset (info p).lba) (block p), d.2)
  else (d.1, d.2 ++ d.1.readZ (lbaOffset (info p).lba) BLK_SIZE)

def execRecords (d : File Byte × List Byte) (ps : List P) : File Byte × List Byte :=
  ps.foldl (execRecord info mode block) d

theorem execRecords_append (d : File Byte × List Byte) (ps qs : List P) :
    execRecords info mode block d (ps ++ qs) =
      execRecords info mode block (execRecords info mode block d ps) qs :=
  List.foldl_append ..

/-- What the parser sees to: the offset belongs to the LBA, which is not too large. -/
structure Addressed (i : TraceInfo) : Prop where
  ofs : i.ofs = i.lba <<< 9
  lba_lt : i.lba.toNat < 2 ^ 54

instance (i : TraceInfo) : Decidable (Addressed i) :=
  decidable_of_iff (i.ofs = i.lba <<< 9 ∧ i.lba.toNat < 2 ^ 54)
    ⟨fun h => ⟨h.1, h.2⟩, fun h => ⟨h.1, h.2⟩⟩

variable {info}

theorem Addressed.offT_eq {i : TraceInfo} (h : Addressed i) :
    offT i.ofs = some (lbaOffset i.lba) := by
  have hlt := h.lba_lt
  have hofs : i.ofs.toNat = lbaOffset i.lba := by
    rw [h.ofs, BitVec.toNat_shiftLeft, Nat.shiftLeft_eq, lbaOffset]
    exact Nat.mod_eq_of_lt (by omega)
  rw [offT, if_pos (by rw [hofs, lbaOffset]; omega), hofs]

/-- The next record of a run is one block further on. -/
theorem continuesRun.lbaOffset_eq {pre cur : TraceInfo} (h : continuesRun cur pre = true)
    (hlt : pre.lba.toNat < 2 ^ 54) : lbaOffset cur.lba = lbaOffset pre.lba + BLK_SIZE := by
  have hdiff : cur.lba - pre.lba = 8 := (of_decide_eq_true h).1
  have hsum : cur.lba = pre.lba + 8 := by rw [← hdiff, BitVec.add_comm, BitVec.sub_add_cancel]
  have hnat : cur.lba.toNat = pre.lba.toNat + 8 := by
    rw [hsum, BitVec.toNat_add, show (8 : Word).toNat = 8 from rfl]
    exact Nat.mod_eq_of_lt (by omega)
  simp only [lbaOffset, hnat, BLK_SIZE]
  omega

theorem continuesRun.writes_iff {pre cur : TraceInfo} (h : continuesRun cur pre = true) :
    Writes mode cur ↔ Writes mode pre := by
  rw [Writes, Writes, (of_decide_eq_true h).2]

/-- All records of a run are written, or none is. -/
theorem writes_iff_of_mem_run {p : P} {ps : List P}
    (hrun : (p :: ps).IsChain fun pre cur => continuesRun (info cur) (info pre) = true) :
    ∀ q ∈ p :: ps, (Writes mode (info q) ↔ Writes mode (info p)) := by
  induction ps generalizing p with
  | nil =>
      intro q hq
      rw [List.mem_singleton.mp hq]
  | cons r ps ih =>
      rw [List.isChain_cons_cons] at hrun
      intro q hq
      rcases List.mem_cons.mp hq with rfl | hq
      · exact Iff.rfl
      · exact (ih hrun.2 q hq).trans (continuesRun.writes_iff mode hrun.1)

theorem writes_of_mem_run {p : P} {ps : List P}
    (hrun : (p :: ps).IsChain fun pre cur => continuesRun (info cur) (info pre) = true)
    (hp : Writes mode (info p)) : ∀ q ∈ p :: ps, Writes mode (info q) :=
  fun q hq => (writes_iff_of_mem_run mode hrun q hq).mpr hp

/-- A run of reads is one read. -/
theorem execRecords_reads (d : File Byte × List Byte) (p : P) (ps : List P)
    (hrun : (p :: ps).IsChain fun pre cur => continuesRun (info cur) (info pre) = true)
    (haddr : ∀ q ∈ p :: ps, Addressed (info q)) (hp : ¬ Writes mode (info p)) :
    execRecords info mode block d (p :: ps) =
      (d.1, d.2 ++ d.1.readZ (lbaOffset (info p).lba) ((p :: ps).length * BLK_SIZE)) := by
  induction ps generalizing d p with
  | nil => simp [execRecords, execRecord, hp]
  | cons q ps ih =>
      rw [List.isChain_cons_cons] at hrun
      have hnext := continuesRun.lbaOffset_eq hrun.1 (haddr p (List.mem_cons_self ..)).lba_lt
      have hq : ¬ Writes mode (info q) := fun h =>
        hp ((continuesRun.writes_iff mode hrun.1).mp h)
      rw [execRecords, List.foldl_cons, ← execRecords,
        ih _ _ hrun.2 (fun r hr => haddr r (List.mem_cons_of_mem _ hr)) hq, execRecord, if_neg hp,
        List.length_cons (a := p), Nat.add_comm, Nat.add_mul, Nat.one_mul, File.readZ_add, hnext]
      simp only [List.append_assoc]

variable (hblock : ∀ p, (block p).length = BLK_SIZE)
include hblock

/-- A run of writes is one write. -/
theorem execRecords_writes (hmode : mode ≠ .append) (d : File Byte × List Byte) (p : P)
    (ps : List P)
    (hrun : (p :: ps).IsChain fun pre cur => continuesRun (info cur) (info pre) = true)
    (haddr : ∀ q ∈ p :: ps, Addressed (info q)) (hp : Writes mode (info p)) :
    execRecords info mode block d (p :: ps) =
      (d.1.pwrite (lbaOffset (info p).lba) ((p :: ps).flatMap block), d.2) := by
  induction ps generalizing d p with
  | nil => simp [execRecords, execRecord, hp, hmode]
  | cons q ps ih =>
      rw [List.isChain_cons_cons] at hrun
      have hnext := continuesRun.lbaOffset_eq hrun.1 (haddr p (List.mem_cons_self ..)).lba_lt
      have hq : Writes mode (info q) := (continuesRun.writes_iff mode hrun.1).mpr hp
      rw [execRecords, List.foldl_cons, ← execRecords,
        ih _ _ hrun.2 (fun r hr => haddr r (List.mem_cons_of_mem _ hr)) hq, execRecord, if_pos hp,
        if_neg hmode, hnext, ← hblock p, File.pwrite_pwrite, ← List.flatMap_cons]

omit hblock in
/-- Appended blocks are appended together. -/
theorem execRecords_appends (hmode : mode = .append) (d : File Byte × List Byte) (ps : List P)
    (hne : ps ≠ []) :
    execRecords info mode block d ps = (d.1.append (ps.flatMap block), d.2) := by
  induction ps generalizing d with
  | nil => exact absurd rfl hne
  | cons p ps ih =>
      have hp : Writes mode (info p) := Or.inl (by rw [hmode]; decide)
      rw [execRecords, List.foldl_cons, ← execRecords, execRecord, if_pos hp, if_pos hmode]
      by_cases hps : ps = []
      · subst hps
        simp [execRecords]
      · rw [ih _ hps, File.append_append, ← List.flatMap_cons]

end Records

/-! ## Every run of the worker -/

section Run

variable {P Ctx : Type} [Inhabited Ctx] {info : P → TraceInfo} {gener : Option (RandGener Ctx)}
  {mode : ReplayMode} {hints : List TraceReplayHint} {w : ReplayParam P}

/-- The block of a record. -/
def recordBlock (info : P → TraceInfo) (gener : Option (RandGener Ctx)) (p : P) : List Byte :=
  blockOf gener (info p).md5

theorem length_recordBlock (p : P) : (recordBlock info gener p).length = BLK_SIZE :=
  length_blockOf gener _

theorem length_flatMap_recordBlock (run : List P) :
    (run.flatMap (recordBlock info gener)).length = run.length * BLK_SIZE := by
  induction run with
  | nil => simp
  | cons p run ih =>
      rw [List.flatMap_cons, List.length_append, ih, length_recordBlock, List.length_cons,
        Nat.add_mul, Nat.one_mul, Nat.add_comm]

/-- Filling the buffer with the blocks of a run. -/
theorem fillLoop_spec {run post : List P} (hfills : ∀ p ∈ run, Fills gener (info p).md5) :
    ∀ (pre : List P) (q : Nat) (buf : Nat → Byte) (ctx : Ctx),
      w.infosMap = pre ++ run ++ post → q + run.length * BLK_SIZE ≤ w.bufSize →
      ∃ ctx', fillLoop info gener w run.length pre.length q buf ctx =
        some (writeAt buf q (run.flatMap (recordBlock info gener)), ctx') := by
  induction run with
  | nil =>
      intro pre q buf ctx _ _
      exact ⟨ctx, by rw [List.flatMap_nil, writeAt_nil]; rfl⟩
  | cons p run ih =>
      intro pre q buf ctx hmap hsize
      rw [List.length_cons, Nat.add_mul, Nat.one_mul] at hsize
      have hp : w.infosMap[pre.length]? = some p := by
        rw [hmap, List.append_assoc, List.getElem?_append_right (Nat.le_refl _), Nat.sub_self]
        rfl
      obtain ⟨ctx₁, hfill⟩ := fillAt_of_fills gener (info p).md5_le
        (hfills p (List.mem_cons_self ..)) (show q + BLK_SIZE ≤ w.bufSize by omega) buf ctx
      obtain ⟨ctx', hrest⟩ := ih (fun r hr => hfills r (List.mem_cons_of_mem _ hr)) (pre ++ [p])
        (q + BLK_SIZE) (writeAt buf q (blockOf gener (info p).md5)) ctx₁ (by rw [hmap]; simp)
        (by omega)
      rw [List.length_append, List.length_singleton] at hrest
      refine ⟨ctx', ?_⟩
      simp only [List.length_cons, fillLoop, hp, hfill, hrest, Option.bind_eq_bind, Option.bind_some]
      rw [List.flatMap_cons]
      -- the block of `p` and those behind it are one write
      have hlen : q + BLK_SIZE = q + (blockOf gener (info p).md5).length := by
        rw [length_blockOf]
      rw [hlen, writeAt_writeAt]
      rfl

/-- The worker is done, and left the file and the dump of `out`. -/
def Replayed (out : File Byte × List Byte) (x : Worker Ctx × Disk) : Prop :=
  x.1.pc = .finished ∧ x.2 = { dst := some out.1, dump := out.2 }

omit [Inhabited Ctx] in
theorem not_step_of_replayed {out : File Byte × List Byte} {x y : Worker Ctx × Disk}
    (h : Replayed out x) : ¬ WorkerStep info gener mode hints w x y := by
  rintro ⟨ret, -, hstep⟩
  rw [replayStep, h.1] at hstep
  cases hstep

omit [Inhabited Ctx] in
/-- Outside the `pread` loop the step is determined. -/
theorem inevitable_of_step {Q : Worker Ctx × Disk → Prop} {x y : Worker Ctx × Disk}
    (hpc : ∀ i done, x.1.pc ≠ .inRead i done)
    (hstep : ∀ ret, replayStep info gener mode hints w ret x = some y)
    (h : Inevitable (WorkerStep info gener mode hints w) Q y) :
    Inevitable (WorkerStep info gener mode hints w) Q x := by
  refine Inevitable.step ⟨0, fun i done hx => absurd hx (hpc i done), hstep 0⟩ ?_ h
  rintro y' ⟨ret, -, hstep'⟩
  exact Option.some.inj (hstep'.symm.trans (hstep ret))

section Hint

variable {before after : List (List P)} {p : P} {run : List P} {i : Nat} {f : File Byte}
  {dump : List Byte}

/-- The hint at hand is that of the run `p :: run`, which fits the buffer. -/
structure AtRun (info : P → TraceInfo) (hints : List TraceReplayHint) (w : ReplayParam P)
    (before : List (List P)) (p : P) (run : List P) (after : List (List P)) (i : Nat) : Prop where
  flatten : w.infosMap = before.flatten ++ (p :: run) ++ after.flatten
  hint : hints[i]? = some { continuousBlks := (p :: run).length
                            startTraceLine := before.flatten.length
                            rw := (info p).rw }
  inside : i < w.hintsEnd
  fits : (p :: run).length ≤ w.bufBlks
  chain : (p :: run).IsChain fun pre cur => continuesRun (info cur) (info pre) = true
  addressed : ∀ q ∈ p :: run, Addressed (info q)

theorem AtRun.bufSize (h : AtRun info hints w before p run after i) :
    (p :: run).length * BLK_SIZE ≤ w.bufSize :=
  Nat.mul_le_mul_right BLK_SIZE h.fits

theorem AtRun.first (h : AtRun info hints w before p run after i) :
    w.infosMap[before.flatten.length]? = some p := by
  rw [h.flatten, List.append_assoc, List.getElem?_append_right (Nat.le_refl _), Nat.sub_self]
  rfl

variable (gener f dump) in
/-- What the system call does is what the records of the run do. -/
theorem AtRun.writeBlks_eq (h : AtRun info hints w before p run after i)
    (hw : Writes mode (info p)) :
    writeBlks info mode w { continuousBlks := (p :: run).length
                            startTraceLine := before.flatten.length
                            rw := (info p).rw } f ((p :: run).flatMap (recordBlock info gener)) =
      some (execRecords info mode (recordBlock info gener) (f, dump) (p :: run)).1 ∧
      (execRecords info mode (recordBlock info gener) (f, dump) (p :: run)).2 = dump := by
  have hoff := (h.addressed p (List.mem_cons_self ..)).offT_eq
  by_cases hmode : mode = .append
  · rw [execRecords_appends mode _ hmode _ _ (List.cons_ne_nil p run), hmode]
    exact ⟨rfl, rfl⟩
  · rw [execRecords_writes mode _ length_recordBlock hmode _ _ _ h.chain h.addressed hw]
    refine ⟨?_, rfl⟩
    cases mode with
    | append => exact absurd rfl hmode
    | writeonly => simp only [writeBlks, h.first, hoff, Option.bind_eq_bind, Option.bind_some]
    | readwrite => simp only [writeBlks, h.first, hoff, Option.bind_eq_bind, Option.bind_some]

/-- A run that is written: one step, with the effect of its records. -/
theorem inevitable_write {Q : Worker Ctx × Disk → Prop}
    (h : AtRun info hints w before p run after i)
    (hfills : ∀ q ∈ p :: run, Fills gener (info q).md5) (hw : Writes mode (info p))
    {buf : Nat → Byte} {ctx : Ctx}
    (hnext : ∀ buf ctx, Inevitable (WorkerStep info gener mode hints w) Q
      ({ pc := .atHint (i + 1), buf := buf, ctx := ctx },
        { dst := some (execRecords info mode (recordBlock info gener) (f, dump) (p :: run)).1
          dump := (execRecords info mode (recordBlock info gener) (f, dump) (p :: run)).2 })) :
    Inevitable (WorkerStep info gener mode hints w) Q
      ({ pc := .atHint i, buf := buf, ctx := ctx }, { dst := some f, dump := dump }) := by
  have hsize := h.bufSize
  obtain ⟨ctx', hfill⟩ := fillLoop_spec hfills before.flatten 0 buf ctx h.flatten
    (by rw [Nat.zero_add]; exact hsize)
  have hbytes : bytesOf (writeAt buf 0 ((p :: run).flatMap (recordBlock info gener)))
      ((p :: run).length * BLK_SIZE) = (p :: run).flatMap (recordBlock info gener) := by
    have hall := bytesOf_writeAt buf 0 ((p :: run).flatMap (recordBlock info gener))
    rw [Nat.zero_add, length_flatMap_recordBlock, show bytesOf buf 0 = [] from rfl,
      List.nil_append] at hall
    exact hall
  have hcall := h.writeBlks_eq gener f dump hw
  refine inevitable_of_step (fun i' done' hpc => by cases hpc) (fun ret => ?_)
    (hnext (writeAt buf 0 ((p :: run).flatMap (recordBlock info gener))) ctx')
  simp only [replayStep, if_pos h.inside, h.hint, Option.bind_eq_bind, Option.bind_some]
  rw [if_pos (show mode ≠ .readwrite ∨ (info p).rw = charW from hw)]
  simp only [writeHint, hfill, Option.bind_eq_bind, Option.bind_some, if_pos hsize, hbytes,
    hcall.1, hcall.2]

variable (f dump) in
/-- In the `pread` loop the bytes of the run that are still missing are asked for. -/
theorem AtRun.preadRequest_eq (h : AtRun info hints w before p run after i) {done n : Nat}
    (hn : done + n = (p :: run).length * BLK_SIZE) :
    preadRequest info hints w i done { dst := some f, dump := dump } =
      some (f, lbaOffset (info p).lba + done, n) := by
  simp only [preadRequest, h.hint, h.first, (h.addressed p (List.mem_cons_self ..)).offT_eq,
    Option.bind_eq_bind, Option.bind_some, if_pos h.bufSize]
  rw [← hn, Nat.add_sub_cancel_left]

variable (f dump) in
omit [Inhabited Ctx] in
theorem AtRun.readReturns_iff (h : AtRun info hints w before p run after i) {done n : Nat}
    (hn : done + n = (p :: run).length * BLK_SIZE) (buf : Nat → Byte) (ctx : Ctx) (ret : Nat) :
    ReadReturns info hints w ret
        (({ pc := .inRead i done, buf := buf, ctx := ctx } : Worker Ctx),
          { dst := some f, dump := dump }) ↔
      f.PreadReturns (lbaOffset (info p).lba + done) n ret := by
  have hrequest := h.preadRequest_eq f dump hn
  constructor
  · intro hret
    exact hret i done rfl f _ n hrequest
  · rintro hret i' done' hpc f' off' n' hrequest'
    cases hpc
    rw [hrequest] at hrequest'
    cases hrequest'
    exact hret

omit [Inhabited Ctx] in
/-- The `pread` loop: however the bytes arrive, the buffer ends up with them. -/
theorem inevitable_pread {Q : Worker Ctx × Disk → Prop}
    (h : AtRun info hints w before p run after i) {ctx : Ctx}
    (hnext : ∀ buf, Inevitable (WorkerStep info gener mode hints w) Q
      ({ pc := .atHint (i + 1), buf := buf, ctx := ctx },
        { dst := some f
          dump := dump ++ f.readZ (lbaOffset (info p).lba) ((p :: run).length * BLK_SIZE) })) :
    ∀ (n done : Nat) (buf : Nat → Byte), done + n = (p :: run).length * BLK_SIZE →
      bytesOf buf done = f.readZ (lbaOffset (info p).lba) done →
      Inevitable (WorkerStep info gener mode hints w) Q
        ({ pc := .inRead i done, buf := buf, ctx := ctx }, { dst := some f, dump := dump }) := by
  intro n
  induction n using Nat.strong_induction_on with
  | _ n ih =>
      intro done buf hn hbuf
      have hrequest := h.preadRequest_eq f dump hn
      have hreturns := h.readReturns_iff f dump hn buf ctx
      -- the call can return, and whatever it returns leads on
      apply Inevitable.later
      · obtain ⟨ret, hret⟩ := f.exists_preadReturns (lbaOffset (info p).lba + done) n
        obtain ⟨y, hy⟩ : ∃ y, replayStep info gener mode hints w ret
            ({ pc := .inRead i done, buf := buf, ctx := ctx }, { dst := some f, dump := dump }) =
              some y := by
          simp only [replayStep, readTurn, hrequest, Option.bind_eq_bind, Option.bind_some]
          split <;> exact ⟨_, rfl⟩
        exact ⟨y, ret, (hreturns ret).mpr hret, hy⟩
      · rintro y ⟨ret, hret, hstep⟩
        have hret' := (hreturns ret).mp hret
        simp only [replayStep, readTurn, hrequest, Option.bind_eq_bind, Option.bind_some] at hstep
        by_cases hmore : n ≠ 0 ∧ ret ≠ 0
        · -- some more bytes
          rw [if_pos hmore] at hstep
          cases hstep
          have hle := hret'.le
          refine ih (n - ret) (by omega) (done + ret) _ (by omega) ?_
          have hread := bytesOf_writeAt buf done (f.readZ (lbaOffset (info p).lba + done) ret)
          rw [File.length_readZ] at hread
          rw [hread, hbuf, File.readZ_add]
        · -- all bytes, or the end of the file
          rw [if_neg hmore] at hstep
          cases hstep
          have hzero : List.replicate n 0 = f.readZ (lbaOffset (info p).lba + done) n := by
            by_cases hbeyond : f.size ≤ lbaOffset (info p).lba + done
            · rw [File.readZ_beyond hbeyond]
            · have hn0 : n = 0 := by
                rw [File.PreadReturns] at hret'
                split at hret' <;> omega
              rw [hn0]
              rfl
          have hread := bytesOf_writeAt buf done (List.replicate n 0)
          rw [List.length_replicate, hbuf, hzero, ← File.readZ_add, hn] at hread
          rw [hzero, hn, hread]
          exact hnext _

/-- Either way, a run has the effect of its records. -/
theorem inevitable_run {Q : Worker Ctx × Disk → Prop}
    (h : AtRun info hints w before p run after i)
    (hfills : ∀ q ∈ p :: run, Writes mode (info q) → Fills gener (info q).md5)
    {buf : Nat → Byte} {ctx : Ctx}
    (hnext : ∀ buf ctx, Inevitable (WorkerStep info gener mode hints w) Q
      ({ pc := .atHint (i + 1), buf := buf, ctx := ctx },
        { dst := some (execRecords info mode (recordBlock info gener) (f, dump) (p :: run)).1
          dump := (execRecords info mode (recordBlock info gener) (f, dump) (p :: run)).2 })) :
    Inevitable (WorkerStep info gener mode hints w) Q
      ({ pc := .atHint i, buf := buf, ctx := ctx }, { dst := some f, dump := dump }) := by
  by_cases hw : Writes mode (info p)
  · refine inevitable_write h ?_ hw hnext
    exact fun q hq => hfills q hq (writes_of_mem_run mode h.chain hw q hq)
  · rw [execRecords_reads mode _ _ _ _ h.chain h.addressed hw] at hnext
    have hmode : mode = .readwrite := by
      by_contra hne
      exact hw (Or.inl hne)
    refine inevitable_of_step (fun i' done' hpc => by cases hpc) (fun ret => ?_)
      (inevitable_pread h (fun buf => hnext buf ctx) _ 0 buf (Nat.zero_add _) rfl)
    simp only [replayStep, if_pos h.inside, h.hint, Option.bind_eq_bind, Option.bind_some]
    rw [if_neg]
    exact hw

end Hint

/-- What the records of the worker may be, for its run to come to an end. -/
structure Replayable (info : P → TraceInfo) (gener : Option (RandGener Ctx)) (mode : ReplayMode)
    (infosMap : List P) : Prop where
  addressed : ∀ p ∈ infosMap, Addressed (info p)
  fills : ∀ p ∈ infosMap, Writes mode (info p) → Fills gener (info p).md5

theorem Cut.hint {runs : List (List P)} (h : Cut info hints w runs) {before after : List (List P)}
    {p : P} {run : List P} (hruns : runs = before ++ (p :: run) :: after) :
    hints[w.hintsStart + before.length]? =
      some { continuousBlks := (p :: run).length
             startTraceLine := before.flatten.length
             rw := (info p).rw } := by
  obtain ⟨front, behind, hhints, hstart, -⟩ := h.hints
  rw [hhints, hstart, List.append_assoc, List.getElem?_append_right (Nat.le_add_right _ _),
    Nat.add_sub_cancel_left, hruns, hintsOf_append, List.append_assoc,
    List.getElem?_append_right (by rw [length_hintsOf]), length_hintsOf, Nat.sub_self, Nat.zero_add]
  rfl

/-- The hints one after the other, from the state its records so far have left. -/
theorem inevitable_hints {runs : List (List P)} (hcut : Cut info hints w runs)
    (hrec : Replayable info gener mode w.infosMap) :
    ∀ (after before : List (List P)) (d : File Byte × List Byte) (buf : Nat → Byte) (ctx : Ctx),
      runs = before ++ after →
      Inevitable (WorkerStep info gener mode hints w)
        (Replayed (execRecords info mode (recordBlock info gener) d after.flatten))
        ({ pc := .atHint (w.hintsStart + before.length), buf := buf, ctx := ctx },
          { dst := some d.1, dump := d.2 }) := by
  obtain ⟨front, behind, -, hstart, hend⟩ := hcut.hints
  intro after
  induction after with
  | nil =>
      intro before d buf ctx hruns
      rw [List.append_nil] at hruns
      -- behind the last hint the worker finishes
      have hlast : ∀ ret, replayStep info gener mode hints w ret
          ({ pc := .atHint (w.hintsStart + before.length), buf := buf, ctx := ctx },
            { dst := some d.1, dump := d.2 }) =
          some ({ pc := .finished, buf := buf, ctx := ctx }, { dst := some d.1, dump := d.2 }) := by
        intro ret
        simp only [replayStep]
        rw [if_neg (by rw [hend, hstart, hruns]; omega)]
      exact inevitable_of_step (fun i' done' hpc => by cases hpc) hlast (Inevitable.now ⟨rfl, rfl⟩)
  | cons run after ih =>
      intro before d buf ctx hruns
      have hmem : run ∈ runs := by rw [hruns]; simp
      obtain ⟨hne, hchain⟩ := hcut.coalesced.coalesced run hmem
      obtain ⟨p, run, rfl⟩ := List.exists_cons_of_ne_nil hne
      have hsub : ∀ q ∈ p :: run, q ∈ w.infosMap := by
        intro q hq
        rw [hcut.flatten]
        exact List.mem_flatten_of_mem hmem hq
      -- the hint at hand is that of the next run
      have hat : AtRun info hints w before p run after (w.hintsStart + before.length) := by
        refine ⟨?_, hcut.hint hruns, ?_, hcut.coalesced.length_le _ hmem, hchain,
          fun q hq => hrec.addressed q (hsub q hq)⟩
        · rw [hcut.flatten, hruns, List.flatten_append, List.flatten_cons, List.append_assoc]
        · rw [hend, hstart, hruns, List.length_append, List.length_cons]
          omega
      refine inevitable_run hat (fun q hq => hrec.fills q (hsub q hq)) fun buf' ctx' => ?_
      have hrest := ih (before ++ [p :: run])
        (execRecords info mode (recordBlock info gener) d (p :: run)) buf' ctx'
        (by rw [hruns]; simp)
      rw [← execRecords_append, ← List.flatten_cons] at hrest
      rw [List.length_append, List.length_singleton, ← Nat.add_assoc] at hrest
      exact hrest

/-- Every run of the worker ends, and leaves what its records leave one after the
    other, whatever the buffer and the generator held before. -/
theorem replayWorker_inevitable {runs : List (List P)} (hcut : Cut info hints w runs)
    (hrec : Replayable info gener mode w.infosMap) (buf : Nat → Byte) (ctx : Ctx) (d : Disk) :
    Inevitable (WorkerStep info gener mode hints w)
      (Replayed (execRecords info mode (recordBlock info gener) (d.dst.getD File.empty, [])
        w.infosMap))
      ({ pc := .start, buf := buf, ctx := ctx }, d) := by
  have hall := inevitable_hints hcut hrec runs [] (d.dst.getD File.empty, []) buf ctx rfl
  rw [← hcut.flatten] at hall
  exact inevitable_of_step (fun i' done' hpc => by cases hpc) (fun _ => rfl) hall

end Run

end GogetaTools.Replay
