/-
  GogetaTools.Aging.Files

  `nvm_tools-J/helper/aging_system.c`: what the phases make of `file1` and `file2`.

  `main` is the list of its system calls that take effect (`mainCalls`).  It depends on what
  the calls return: an `open` or a `write` that fails makes an end of it, a `write` may be
  short, and a page that `fallocate` does not punch is counted as punched.

  Whatever happens, in page `p` of a file only the beginning of the page of its number is ever
  written (`Keeps`).  So the pages stay apart over any sequence of runs, broken off wherever
  (`reachable_numbered`).
-/

import GogetaTools.Aging.Phases
import GogetaTools.Lib.SparseFile

namespace GogetaTools.Aging

open ByteFile SparseFile

/-! ## The directory -/

abbrev AgedFile := Sparse PAGE_SIZE Byte

inductive FileName
  | file1
  | file2
deriving DecidableEq

/-- The files of `-d`, as far as there are any. -/
abbrev Dir := FileName → Option AgedFile

/-- A system call that takes effect; of a `write` the bytes that it transfers. -/
inductive Call
  | create (name : FileName)
  | write (name : FileName) (off : Nat) (bytes : List Byte)
  | punch (name : FileName) (pos : Nat)

def Dir.apply (dir : Dir) : Call → Dir
  -- `O_CREAT` without `O_TRUNC`
  | .create name => Function.update dir name (some ((dir name).getD Sparse.empty))
  | .write name off bytes => Function.update dir name ((dir name).map (·.write off bytes))
  | .punch name pos => Function.update dir name ((dir name).map (·.punch pos))

/-- The directory after some calls. -/
def Dir.after (dir : Dir) (calls : List Call) : Dir := calls.foldl Dir.apply dir

/-- The pages in use. -/
def Dir.used (dir : Dir) (name : FileName) : Finset Nat := (dir name).elim ∅ Sparse.used

def Dir.room (dir : Dir) : Nat := (dir.used .file1).card + (dir.used .file2).card

/-! ## The calls -/

/-- The calls of a part of `main`, and whether `main` goes on behind them. -/
abbrev Part := List Call × Bool

def Part.andThen (first second : Part) : Part :=
  if first.2 then (first.1 ++ second.1, second.2) else first

/-- `write` returns -1 if it fails. -/
structure WriteReturns (block : Word) extends Writes block where
  result_ge : ∀ i, -1 ≤ result i

/-- What the calls of one run return, the draws of `genrand_int32` included: each run seeds it
    with `MAGIC_RAND + phase`. -/
structure Returns (block : Word) where
  open1 : Bool
  write1 : WriteReturns block
  open2 : Bool
  draws : List Word32
  fallocate : Nat → Bool
  open3 : Bool
  write3 : WriteReturns block

/-- A page in memory. -/
def pageBytes (page : List Word) : List Byte := page.flatMap fun w => (List.range 8).map (wordBytes w)

/-- The loop of phases 1 and 3 with `n` blocks to go, the file being written up to `off`. -/
def fillCalls {block : Word} (write : WriteReturns block) (name : FileName) :
    Nat → Nat → Nat → Word → Part
  | 0, _, _, _ => ([], true)
  | n + 1, i, off, v =>
      let (pages, v') := fillBuf block.toNat 0 v
      let ret : Word32 := BitVec.ofInt 32 (write.result i)
      let bytes := (pages.flatMap pageBytes).take (write.result i).toNat
      if ret.toInt < 0 ∨ ret.signExtend 64 ≠ block then ([.write name off bytes], false)
      else
        let rest := fillCalls write name n (i + 1) (off + bytes.length) v'
        (.write name off bytes :: rest.1, rest.2)

/-- The loop of phase 2 with `n` holes to go, on the draws that have been made so far. -/
def punchCalls (total : Word) (fallocate : Nat → Bool) : Nat → Nat → List Word32 → (Nat → Byte) → Part
  | 0, _, _, _ => ([], true)
  | _ + 1, _, [], _ => ([], false)
  | n + 1, i, draw :: draws, records =>
      if total = 0 then ([], false)
      else
        let pos := draw.toNat % total.toNat
        if records pos = 0 then
          let rest := punchCalls total fallocate n (i + 1) draws (Function.update records pos 1)
          -- of a failure `perror` tells, no more
          (if fallocate i then .punch .file1 pos :: rest.1 else rest.1, rest.2)
        else punchCalls total fallocate (n + 1) i draws records

section Main

variable (o : Options) (r r1 r2 r3 : Returns o.block)

def phase1Calls : Part :=
  if r.open1 then
    let fill := fillCalls r.write1 .file1 (o.bytes / o.block).toNat 0 0 (1 * o.total4KBlks)
    (.create .file1 :: fill.1, fill.2)
  else ([], false)

/-- Without `O_CREAT` there has to be a `file1`. -/
def phase2Calls (dir : Dir) : Part :=
  if r.open2 ∧ (dir .file1).isSome then
    punchCalls o.total4KBlks r.fallocate o.holeNum.toNat 0 r.draws fun _ => 0
  else ([], false)

def phase3Calls : Part :=
  if r.open3 then
    let fill := fillCalls r.write3 .file2 o.fillNum.toNat 0 0 (3 * o.total4KBlks)
    (.create .file2 :: fill.1, fill.2)
  else ([], false)

/-- `main` with `-p phase`. -/
def mainCalls (phase : Word32) (dir : Dir) : Part :=
  let first : Part := if phase = 1 ∨ phase = 4 then phase1Calls o r else ([], true)
  let second : Part :=
    if phase = 2 ∨ phase = 4 then phase2Calls o r (dir.after first.1) else ([], true)
  let third : Part := if phase = 3 ∨ phase = 4 then phase3Calls o r else ([], true)
  first.andThen (second.andThen third)

/-- `aging_amount.sh`: a run for each phase, with `set -e`.  Its holes are not those of
    `-p 4`, phase 2 being the first draws of another seed. -/
def scriptCalls (dir : Dir) : Part :=
  let first := mainCalls o r1 1 dir
  let dir1 := dir.after first.1
  let second := mainCalls o r2 2 dir1
  let third := mainCalls o r3 3 (dir1.after second.1)
  first.andThen (second.andThen third)

end Main

/-! ## The contents of a file -/

/-- The byte at `x` of a file whose pages are numbered from `base` on. -/
def content (base : Word) (x : Nat) : Byte :=
  wordBytes (base + BitVec.ofNat 64 (x / PAGE_SIZE)) (x % 8)

/-- The bytes of the file from `off` on. -/
def contentBytes (base : Word) (off n : Nat) : List Byte :=
  (List.range n).map fun j => content base (off + j)

theorem contentBytes_append (base : Word) (off m n : Nat) :
    contentBytes base off m ++ contentBytes base (off + m) n = contentBytes base off (m + n) := by
  simp only [contentBytes, List.range_add, List.map_append, List.map_map, Function.comp_def,
    Nat.add_assoc]

theorem take_contentBytes (base : Word) (off n k : Nat) :
    (contentBytes base off n).take k = contentBytes base off (min k n) := by
  rw [contentBytes, ← List.map_take, List.take_range, contentBytes]

@[simp] theorem length_contentBytes (base : Word) (off n : Nat) :
    (contentBytes base off n).length = n := by
  rw [contentBytes, List.length_map, List.length_range]

/-- A word over and over again. -/
theorem pageBytes_replicate (w : Word) (n : Nat) :
    pageBytes (List.replicate n w) = (List.range (n * 8)).map fun j => wordBytes w (j % 8) := by
  induction n with
  | zero => rfl
  | succ n ih =>
      rw [Nat.succ_mul, List.range_add, List.map_append, ← ih, List.replicate_succ', pageBytes,
        List.flatMap_append, List.map_map]
      refine congrArg _ ?_
      rw [List.flatMap_cons, List.flatMap_nil, List.append_nil]
      refine List.map_congr_left fun j hj => ?_
      have hlt := List.mem_range.mp hj
      rw [Function.comp_apply, Nat.mul_add_mod_self_right, Nat.mod_eq_of_lt hlt]

theorem pageBytes_fillPage (base : Word) (m : Nat) :
    pageBytes (fillPage (base + BitVec.ofNat 64 m)) = contentBytes base (m * PAGE_SIZE) PAGE_SIZE := by
  have hpage : PAGE_SIZE / 8 * 8 = PAGE_SIZE := by decide
  rw [fillPage, pageBytes_replicate, hpage, contentBytes]
  refine List.map_congr_left fun j hj => ?_
  have hlt := List.mem_range.mp hj
  have hdiv : (m * PAGE_SIZE + j) / PAGE_SIZE = m := by
    rw [Nat.mul_comm, Nat.mul_add_div PAGE_SIZE_pos, Nat.div_eq_of_lt hlt, Nat.add_zero]
  have hmod : (m * PAGE_SIZE + j) % 8 = j % 8 := by
    rw [← hpage, ← Nat.mul_assoc, Nat.mul_add_mod_self_right]
  rw [content, hdiv, hmod]

/-- The bytes of numbered pages. -/
theorem flatMap_pageBytes (base : Word) (m n : Nat) :
    (pagesFrom (base + BitVec.ofNat 64 m) n).flatMap pageBytes =
      contentBytes base (m * PAGE_SIZE) (n * PAGE_SIZE) := by
  induction n with
  | zero => rw [Nat.zero_mul]; rfl
  | succ n ih =>
      have hone : pagesFrom (base + BitVec.ofNat 64 (m + n)) 1 =
          [fillPage (base + BitVec.ofNat 64 (m + n))] := by
        simp [pagesFrom]
      rw [← pagesFrom_append, List.flatMap_append, ih, BitVec.add_assoc, ← BitVec.ofNat_add, hone,
        List.flatMap_cons, List.flatMap_nil, List.append_nil, pageBytes_fillPage, Nat.succ_mul,
        ← contentBytes_append, Nat.add_mul]

/-! ## What the calls are -/

/-- A call that puts into a file a piece of its contents, from the start of a page on and
    below `limit`, or changes no byte but to zero. -/
def Keeps (contents : FileName → Nat → Byte) (limit : Nat) : Call → Prop
  | .create _ | .punch _ _ => True
  | .write name off bytes =>
      PAGE_SIZE ∣ off ∧ off + bytes.length ≤ limit ∧
        bytes = (List.range bytes.length).map fun j => contents name (off + j)

theorem Keeps.mono {contents : FileName → Nat → Byte} {limit limit' : Nat} {c : Call}
    (h : Keeps contents limit c) (hle : limit ≤ limit') : Keeps contents limit' c := by
  cases c with
  | create name => trivial
  | write name off bytes => exact ⟨h.1, Nat.le_trans h.2.1 hle, h.2.2⟩
  | punch name pos => trivial

/-- What `-s` numbers the pages from. -/
def firstValue (total : Nat) : FileName → Nat
  | .file1 => total
  | .file2 => 3 * total

def contents (total : Nat) (name : FileName) : Nat → Byte :=
  content (BitVec.ofNat 64 (firstValue total name))

/-- `main` goes on only if `write` has transferred the block. -/
theorem result_of_passed {block : Word} (write : WriteReturns block) {i : Nat}
    (h : ¬ ((BitVec.ofInt 32 (write.result i)).toInt < 0 ∨
      (BitVec.ofInt 32 (write.result i)).signExtend 64 ≠ block)) :
    (write.result i).toNat = block.toNat := by
  rw [not_or, not_not] at h
  obtain ⟨hnonneg, hblock⟩ := h
  have hge := write.result_ge i
  have hle := write.result_le i
  generalize write.result i = x at hnonneg hblock hge hle
  by_cases hx : x < 0
  · have hx : x = -1 := by omega
    subst hx
    exact absurd (by decide) hnonneg
  · obtain ⟨n, rfl⟩ := Int.eq_ofNat_of_zero_le (Int.not_lt.mp hx)
    rw [BitVec.ofInt_natCast] at hnonneg hblock
    have hmsb : (BitVec.ofNat 32 n).msb = false := by
      rw [BitVec.msb_eq_toInt]
      exact decide_eq_false hnonneg
    rw [BitVec.signExtend_eq_setWidth_of_msb_false hmsb, ← BitVec.toNat_inj, BitVec.toNat_setWidth,
      BitVec.toNat_ofNat] at hblock
    rw [BitVec.msb_eq_false_iff_two_mul_lt, BitVec.toNat_ofNat] at hmsb
    rw [Int.toNat_natCast]
    omega

section Fill

variable {block : Word} (write : WriteReturns block) (name : FileName) {b : Nat}

/-- The first call of the loop, from page `m` on. -/
theorem fillCalls_succ (hb : block.toNat = b * PAGE_SIZE) (base : Word) (n i m : Nat) :
    fillCalls write name (n + 1) i (m * PAGE_SIZE) (base + BitVec.ofNat 64 m) =
      if (BitVec.ofInt 32 (write.result i)).toInt < 0 ∨
          (BitVec.ofInt 32 (write.result i)).signExtend 64 ≠ block then
        ([.write name (m * PAGE_SIZE)
          (contentBytes base (m * PAGE_SIZE) (write.result i).toNat)], false)
      else
        let rest := fillCalls write name n (i + 1) ((m + b) * PAGE_SIZE) (base + BitVec.ofNat 64 (m + b))
        (.write name (m * PAGE_SIZE) (contentBytes base (m * PAGE_SIZE) block.toNat) :: rest.1,
          rest.2) := by
  have hbuf := fillBuf_eq b (show block.toNat = 0 + b * PAGE_SIZE by rw [hb, Nat.zero_add])
    (base + BitVec.ofNat 64 m)
  have hresult : (write.result i).toNat ≤ b * PAGE_SIZE := by
    have hle := write.result_le i
    omega
  have hbytes : ((pagesFrom (base + BitVec.ofNat 64 m) b).flatMap pageBytes).take (write.result i).toNat =
      contentBytes base (m * PAGE_SIZE) (write.result i).toNat := by
    rw [flatMap_pageBytes, take_contentBytes, Nat.min_eq_left hresult]
  simp only [fillCalls, hbuf, hbytes, length_contentBytes, BitVec.add_assoc, ← BitVec.ofNat_add]
  split
  · rfl
  · rename_i hpassed
    rw [result_of_passed write hpassed, hb, ← Nat.add_mul]

/-- All that the loop writes are pieces of the contents. -/
theorem fillCalls_keeps (hb : block.toNat = b * PAGE_SIZE) {total : Nat} {limit : Nat} (n i m : Nat)
    (hlimit : (m + n * b) * PAGE_SIZE ≤ limit) :
    ∀ c ∈ (fillCalls write name n i (m * PAGE_SIZE)
        (BitVec.ofNat 64 (firstValue total name) + BitVec.ofNat 64 m)).1,
      Keeps (contents total) limit c := by
  induction n generalizing i m with
  | zero => exact fun c hc => absurd hc List.not_mem_nil
  | succ n ih =>
      have hpages : (m + (n + 1) * b) * PAGE_SIZE = m * PAGE_SIZE + block.toNat + n * b * PAGE_SIZE := by
        rw [hb, Nat.succ_mul, ← Nat.add_mul, ← Nat.add_mul]
        congr 1
        omega
      have hpiece : ∀ k ≤ block.toNat, Keeps (contents total) limit (.write name (m * PAGE_SIZE)
          (contentBytes (BitVec.ofNat 64 (firstValue total name)) (m * PAGE_SIZE) k)) := by
        intro k hk
        refine ⟨Nat.dvd_mul_left .., ?_, ?_⟩
        · rw [length_contentBytes]
          omega
        · rw [length_contentBytes]
          rfl
      intro c hc
      rw [fillCalls_succ write name hb] at hc
      split at hc
      · rw [List.mem_singleton.mp hc]
        have hle := write.result_le i
        exact hpiece _ (by omega)
      · rcases List.mem_cons.mp hc with rfl | hc
        · exact hpiece _ (Nat.le_refl _)
        · refine ih (i + 1) (m + b) ?_ c hc
          rw [hpages, hb, ← Nat.add_mul, ← Nat.add_mul] at hlimit
          exact hlimit

/-- The loop as the phases start it. -/
theorem fillCalls_keeps_start (hb : block.toNat = b * PAGE_SIZE) {total limit : Nat} (n : Nat)
    (hlimit : n * b * PAGE_SIZE ≤ limit) :
    ∀ c ∈ (fillCalls write name n 0 0 (BitVec.ofNat 64 (firstValue total name))).1,
      Keeps (contents total) limit c := by
  have hfill := @fillCalls_keeps block write name b hb total limit n 0 0 (by rwa [Nat.zero_add])
  rwa [Nat.zero_mul, BitVec.add_zero] at hfill

end Fill

theorem punchCalls_keeps (contents : FileName → Nat → Byte) (limit : Nat) {total : Word}
    {fallocate : Nat → Bool} (draws : List Word32) :
    ∀ n i records, ∀ c ∈ (punchCalls total fallocate n i draws records).1, Keeps contents limit c := by
  induction draws with
  | nil =>
      intro n i records c hc
      cases n <;> exact absurd hc List.not_mem_nil
  | cons draw draws ih =>
      intro n i records c hc
      cases n with
      | zero => exact absurd hc List.not_mem_nil
      | succ n =>
          rw [punchCalls] at hc
          split at hc
          · exact absurd hc List.not_mem_nil
          · dsimp only at hc
            split at hc
            · dsimp only at hc
              split at hc
              · rcases List.mem_cons.mp hc with rfl | hc
                · trivial
                · exact ih _ _ _ c hc
              · exact ih _ _ _ c hc
            · exact ih _ _ _ c hc

theorem mem_andThen {first second : Part} {c : Call} (h : c ∈ (first.andThen second).1) :
    c ∈ first.1 ∨ c ∈ second.1 := by
  rw [Part.andThen] at h
  split at h
  · exact List.mem_append.mp h
  · exact Or.inl h

/-- A phase that fills a file creates it first. -/
theorem mem_created {opened : Bool} {name : FileName} {fill : Part} {c : Call}
    (h : c ∈ (if opened then (Call.create name :: fill.1, fill.2) else (([], false) : Part)).1) :
    c = .create name ∨ c ∈ fill.1 := by
  split at h
  · exact List.mem_cons.mp h
  · exact absurd h List.not_mem_nil

section Phases

variable {o : Options} (r : Returns o.block)

theorem one_mul_total : 1 * o.total4KBlks = BitVec.ofNat 64 o.total4KBlks.toNat := by
  rw [BitVec.ofNat_toNat, BitVec.setWidth_eq]
  exact BitVec.one_mul _

theorem three_mul_total : 3 * o.total4KBlks = BitVec.ofNat 64 (3 * o.total4KBlks.toNat) := by
  rw [BitVec.ofNat_mul, BitVec.ofNat_toNat, BitVec.setWidth_eq]
  rfl

variable (hblock : PAGE_SIZE ∣ o.block.toNat)

include hblock

theorem phase1Calls_keeps {c : Call} (hc : c ∈ (phase1Calls o r).1) :
    Keeps (contents o.total4KBlks.toNat) (o.total4KBlks.toNat * PAGE_SIZE) c := by
  obtain ⟨b, hb, -⟩ := block_eq hblock
  rw [phase1Calls, one_mul_total] at hc
  rcases mem_created hc with rfl | hc
  · trivial
  · refine fillCalls_keeps_start r.write1 .file1 hb _ ?_ c hc
    rw [BitVec.toNat_udiv]
    exact Nat.mul_le_mul_right _ (blocks_pages_le hb)

theorem phase3Calls_keeps (hpercent : o.holePercent.toNat ≤ 100) {c : Call}
    (hc : c ∈ (phase3Calls o r).1) :
    Keeps (contents o.total4KBlks.toNat) (o.holeNum.toNat * PAGE_SIZE) c := by
  obtain ⟨b, hb, -⟩ := block_eq hblock
  rw [phase3Calls, three_mul_total] at hc
  rcases mem_created hc with rfl | hc
  · trivial
  · refine fillCalls_keeps_start r.write3 .file2 hb _ ?_ c hc
    exact Nat.mul_le_mul_right _ (fill_pages_le hpercent hb)

omit hblock in
theorem phase2Calls_keeps (contents : FileName → Nat → Byte) (limit : Nat) {dir : Dir} {c : Call}
    (hc : c ∈ (phase2Calls o r dir).1) : Keeps contents limit c := by
  rw [phase2Calls] at hc
  split at hc
  · exact punchCalls_keeps contents limit r.draws _ _ _ c hc
  · exact absurd hc List.not_mem_nil

/-- Of every call of `main`. -/
theorem mainCalls_keeps (hpercent : o.holePercent.toNat ≤ 100) {phase : Word32} {dir : Dir} {c : Call}
    (hc : c ∈ (mainCalls o r phase dir).1) :
    Keeps (contents o.total4KBlks.toNat) (o.total4KBlks.toNat * PAGE_SIZE) c := by
  rw [mainCalls] at hc
  rcases mem_andThen hc with hc | hc
  · split at hc
    · exact phase1Calls_keeps r hblock hc
    · exact absurd hc List.not_mem_nil
  rcases mem_andThen hc with hc | hc
  · split at hc
    · exact phase2Calls_keeps r _ _ hc
    · exact absurd hc List.not_mem_nil
  · split at hc
    · exact (phase3Calls_keeps r hblock hpercent hc).mono
        (Nat.mul_le_mul_right _ (holeNum_le hpercent))
    · exact absurd hc List.not_mem_nil

end Phases

/-! ## Any sequence of runs -/

/-- `total_4K_blks` for a size in GiB. -/
def pagesOf (size : Word) : Nat := (size * (1024 * 1024 * 1024)).toNat / PAGE_SIZE

/-- What some runs with one `-s` can make of a directory without files: each may have its own
    blocks, holes and phases, and be broken off behind any of its calls. -/
inductive Reachable (size : Word) : Dir → Prop
  | none : Reachable size fun _ => none
  | run {dir : Dir} {o : Options} {r : Returns o.block} {phase : Word32} {calls : List Call} :
      Reachable size dir → o.size = size → PAGE_SIZE ∣ o.block.toNat → o.holePercent.toNat ≤ 100 →
      calls <+: (mainCalls o r phase dir).1 → Reachable size (dir.after calls)

/-- Of page `p` the first `begun p` bytes have been written, with its number. -/
structure Numbered (total : Nat) (name : FileName) (begun : Nat → Nat) (f : AgedFile) : Prop where
  used : f.used ⊆ Finset.range total
  begun : Begun (contents total name) begun f

theorem numbered_empty (total : Nat) (name : FileName) :
    Numbered total name (fun _ => 0) (Sparse.empty : AgedFile) :=
  ⟨by rw [used_empty]; exact Finset.empty_subset _, begun_empty _⟩

section Numbered

variable {total : Nat} {name : FileName} {begun : Nat → Nat} {f : AgedFile}

theorem Numbered.write (h : Numbered total name begun f) {off : Nat} {bytes : List Byte}
    (hc : Keeps (contents total) (total * PAGE_SIZE) (.write name off bytes)) :
    ∃ begun', Numbered total name begun' (f.write off bytes) := by
  obtain ⟨⟨m, rfl⟩, hlimit, hbytes⟩ := hc
  rw [Nat.mul_comm PAGE_SIZE m] at hlimit hbytes ⊢
  have hbegun := h.begun.write PAGE_SIZE_pos m bytes.length
  rw [← hbytes] at hbegun
  exact ⟨_, Finset.union_subset h.used (touched_subset hlimit), hbegun⟩

theorem Numbered.punch (h : Numbered total name begun f) (pos : Nat) :
    Numbered total name (Function.update begun pos 0) (f.punch pos) :=
  ⟨(Finset.erase_subset ..).trans h.used, h.begun.punch pos⟩

/-- The first word of a page is the number of the page. -/
theorem Numbered.readZ (h : Numbered total name begun f) {p : Nat} (hp : 8 ≤ begun p) :
    f.file.readZ (p * PAGE_SIZE) 8 =
      (List.range 8).map (wordBytes (BitVec.ofNat 64 (firstValue total name + p))) := by
  refine List.map_congr_left fun j hj => ?_
  have hlt := List.mem_range.mp hj
  have hpage : 8 ≤ PAGE_SIZE := by decide
  have hdiv : (p * PAGE_SIZE + j) / PAGE_SIZE = p := by
    rw [Nat.mul_comm, Nat.mul_add_div PAGE_SIZE_pos, Nat.div_eq_of_lt (by omega), Nat.add_zero]
  have hmod : (p * PAGE_SIZE + j) % PAGE_SIZE = j := by
    rw [Nat.mul_comm, Nat.mul_add_mod, Nat.mod_eq_of_lt (by omega)]
  have hword : (p * PAGE_SIZE + j) % 8 = j := by
    rw [show PAGE_SIZE = 512 * 8 by rfl, ← Nat.mul_assoc, Nat.mul_add_mod_self_right,
      Nat.mod_eq_of_lt hlt]
  rw [h.begun, hdiv, hmod, if_pos (by omega), contents, content, hdiv, hword, BitVec.ofNat_add]

end Numbered

/-- The numbers of two pages. -/
theorem firstValue_apart {total : Nat} {name name' : FileName} {p q : Nat} (hp : p < total)
    (hq : q < total) (h : firstValue total name + p = firstValue total name' + q) :
    name = name' ∧ p = q := by
  cases name <;> cases name' <;> simp only [firstValue, true_and, reduceCtorEq, false_and] at h ⊢ <;>
    omega

/-- What the files hold, each for itself. -/
def NumberedDir (total : Nat) (dir : Dir) : Prop :=
  ∀ name f, dir name = some f → ∃ begun, Numbered total name begun f

section Runs

variable {total : Nat} {dir : Dir}

theorem NumberedDir.apply (h : NumberedDir total dir) {c : Call}
    (hc : Keeps (contents total) (total * PAGE_SIZE) c) : NumberedDir total (dir.apply c) := by
  intro name f hf
  cases c with
  | create changed =>
      simp only [Dir.apply, Function.update_apply] at hf
      split at hf
      · rename_i hname
        subst hname
        rw [Option.some.injEq] at hf
        subst hf
        cases hold : dir name with
        | none => exact ⟨_, numbered_empty total name⟩
        | some old => exact h name old hold
      · exact h name f hf
  | write changed off bytes =>
      simp only [Dir.apply, Function.update_apply] at hf
      split at hf
      · rename_i hname
        subst hname
        obtain ⟨old, hold, rfl⟩ := Option.map_eq_some_iff.mp hf
        obtain ⟨begun, hnumbered⟩ := h name old hold
        exact hnumbered.write hc
      · exact h name f hf
  | punch changed pos =>
      simp only [Dir.apply, Function.update_apply] at hf
      split at hf
      · rename_i hname
        subst hname
        obtain ⟨old, hold, rfl⟩ := Option.map_eq_some_iff.mp hf
        obtain ⟨begun, hnumbered⟩ := h name old hold
        exact ⟨_, hnumbered.punch pos⟩
      · exact h name f hf

theorem NumberedDir.after {calls : List Call} (h : NumberedDir total dir)
    (hcalls : ∀ c ∈ calls, Keeps (contents total) (total * PAGE_SIZE) c) :
    NumberedDir total (dir.after calls) := by
  induction calls generalizing dir with
  | nil => exact h
  | cons c calls ih =>
      rw [List.forall_mem_cons] at hcalls
      exact ih (h.apply hcalls.1) hcalls.2

end Runs

theorem Reachable.numberedDir {size : Word} {dir : Dir} (h : Reachable size dir) :
    NumberedDir (pagesOf size) dir := by
  induction h with
  | none =>
      intro name f hf
      cases hf
  | @run dir o r phase calls _ hsize hblock hpercent hcalls ih =>
      subst hsize
      refine ih.after fun c hc => ?_
      have htotal : o.total4KBlks.toNat = pagesOf o.size := total4KBlks_toNat o
      rw [← htotal]
      exact mainCalls_keeps r hblock hpercent (hcalls.subset hc)

theorem pagesOf_lt (size : Word) : pagesOf size < 2 ^ 52 := by
  have htotal : (Options.total4KBlks ⟨size, 0, 0⟩).toNat = pagesOf size := total4KBlks_toNat _
  rw [← htotal]
  exact total4KBlks_lt _

/-- After any runs with one `-s`, of whole pages to a block and at most 100 percent holes,
    wherever they stop and whatever fails: every page holds a beginning of the page of its number and zeros behind,
    no page from `total_4K_blks` on is in use, and the pages with a whole word are all different. -/
theorem reachable_numbered {size : Word} {dir : Dir} (h : Reachable size dir) :
    ∃ begun : FileName → Nat → Nat,
      (∀ name f, dir name = some f → Numbered (pagesOf size) name (begun name) f) ∧
      ∀ name f p name' f' q, dir name = some f → dir name' = some f' → p ∈ f.used → q ∈ f'.used →
        8 ≤ begun name p → 8 ≤ begun name' q → (name, p) ≠ (name', q) →
        f.file.readZ (p * PAGE_SIZE) 8 ≠ f'.file.readZ (q * PAGE_SIZE) 8 := by
  have hexists : ∀ name, ∃ begun, ∀ f, dir name = some f → Numbered (pagesOf size) name begun f := by
    intro name
    cases hf : dir name with
    | none => exact ⟨fun _ => 0, fun f hf => by cases hf⟩
    | some f =>
        obtain ⟨begun, hnumbered⟩ := h.numberedDir name f hf
        refine ⟨begun, fun f' hf' => ?_⟩
        cases hf'
        exact hnumbered
  choose begun hbegun using hexists
  refine ⟨begun, hbegun, fun name f p name' f' q hf hf' hp hq hwhole hwhole' hne heq => hne ?_⟩
  have hnumbered := hbegun name f hf
  have hnumbered' := hbegun name' f' hf'
  have hp := Finset.mem_range.mp (hnumbered.used hp)
  have hq := Finset.mem_range.mp (hnumbered'.used hq)
  have hlt := pagesOf_lt size
  rw [hnumbered.readZ hwhole, hnumbered'.readZ hwhole'] at heq
  have hword := wordBytes_inj fun i hi => by
    have hbyte := congrArg (·[i]?) heq
    simpa [hi] using hbyte
  have hbound : ∀ name p, p < pagesOf size → firstValue (pagesOf size) name + p < 2 ^ 64 := by
    intro name p hp
    cases name <;> simp only [firstValue] <;> omega
  rw [← BitVec.toNat_inj, BitVec.toNat_ofNat, BitVec.toNat_ofNat,
    Nat.mod_eq_of_lt (hbound name p hp), Nat.mod_eq_of_lt (hbound name' q hq)] at hword
  obtain ⟨rfl, rfl⟩ := firstValue_apart hp hq hword
  rfl

/-- The first page of `file2` for 1 GiB and of `file1` for 3 GiB: runs with another `-s` may
    write what is there. -/
example : firstValue (pagesOf 1) .file2 = firstValue (pagesOf 3) .file1 := by decide

/-- 1 GiB in blocks of 2 MiB, half of it punched. -/
def sampleOptions : Options := { size := 1, blockSize := 2097152, holePercent := 50 }

/-- On Linux, with room. -/
def linuxReturns (block : Word) : WriteReturns block where
  toWrites := linuxWrites block
  result_ge := fun _ => Int.le_trans (by decide) (Int.natCast_nonneg _)

/-- No call fails. -/
def sampleReturns (draws : List Word32) : Returns sampleOptions.block where
  open1 := true
  write1 := linuxReturns _
  open2 := true
  draws := draws
  fallocate := fun _ => true
  open3 := true
  write3 := linuxReturns _

/-- One run of all phases, on the draws of phase 2 up to now. -/
theorem reachable_numbered_sample :
    let dir := Dir.after (fun _ => none) (mainCalls sampleOptions (sampleReturns [5, 5, 7]) 4 fun _ => none).1
    ∃ begun : FileName → Nat → Nat,
      (∀ name f, dir name = some f → Numbered (pagesOf 1) name (begun name) f) ∧
      ∀ name f p name' f' q, dir name = some f → dir name' = some f' → p ∈ f.used → q ∈ f'.used →
        8 ≤ begun name p → 8 ≤ begun name' q → (name, p) ≠ (name', q) →
        f.file.readZ (p * PAGE_SIZE) 8 ≠ f'.file.readZ (q * PAGE_SIZE) 8 :=
  reachable_numbered (Reachable.run Reachable.none rfl (by decide) (by decide) (List.prefix_refl _))

end GogetaTools.Aging
