/-
  GogetaTools.Aging.Phases

  `nvm_tools-J/helper/aging_system.c`: phase 1 fills `file1` with numbered pages,
  phase 2 punches holes at random pages of it, and phase 3 fills `file2` with
  other numbers, to use the space of the holes.

    * `fillBlocks`  — the loop of phases 1 and 3.  What it fills is `pagesFrom`,
                      whatever the calls of `write` return (`fillBlocks_spec`);
                      `fillBlocks_linux` says how much of it the file gets.
    * `punchLoop`   — the loop of phase 2, on a stream of draws.  The positions
                      are different ones below `total_4K_blks` and `2 ^ 32`
                      (`punchLoop_spec`), and any such positions can come up
                      (`punchLoop_of_nodup`).
-/

import GogetaTools.Words
import Mathlib.Data.List.Range
import Mathlib.Logic.Function.Basic

namespace GogetaTools.Aging

/-! ## The options and the sizes -/

def PAGE_SIZE : Nat := 4096

theorem PAGE_SIZE_pos : 0 < PAGE_SIZE := by decide

/-- `-s` in GiB, `-b` in bytes and `-o` in percent. -/
structure Options where
  size : Word
  blockSize : Word
  holePercent : Word32

namespace Options

variable (o : Options)

/-- `block_size`, 2 MiB by default. -/
def block : Word := if o.blockSize = 0 then 2 * 1024 * 1024 else o.blockSize

/-- `size` in bytes. -/
def bytes : Word := o.size * (1024 * 1024 * 1024)

def total4KBlks : Word := o.bytes / BitVec.ofNat 64 PAGE_SIZE

def holeNum : Word := o.total4KBlks * o.holePercent.signExtend 64 / 100

def fillNum : Word := o.bytes / o.block * o.holePercent.signExtend 64 / 100

end Options

/-! ## Phases 1 and 3 -/

/-- A page of 512 words. -/
def fillPage (v : Word) : List Word := List.replicate (PAGE_SIZE / 8) v

/-- The inner loop: the pages of the buffer from byte `j` on, and the next value. -/
def fillBuf (block j : Nat) (v : Word) : List (List Word) × Word :=
  if j < block then
    let (pages, v') := fillBuf block (PAGE_SIZE + j) (v + 1)
    (fillPage v :: pages, v')
  else ([], v)
termination_by block - j
decreasing_by
  have hpage := PAGE_SIZE_pos
  omega

/-- What the calls of `write` return; never more than they are asked to write. -/
structure Writes (block : Word) where
  result : Nat → Int
  result_le : ∀ i, result i ≤ block.toNat

/-- The pages that were filled, and the bytes that reached the file. -/
structure Written where
  pages : List (List Word)
  bytes : Nat

/-- The outer loop, with `n` blocks to go; `ret` is an `int`. -/
def fillBlocks {block : Word} (write : Writes block) : Nat → Nat → Word → Written
  | 0, _, _ => { pages := [], bytes := 0 }
  | n + 1, i, v =>
      let (pages, v') := fillBuf block.toNat 0 v
      let ret : Word32 := BitVec.ofInt 32 (write.result i)
      if ret.toInt < 0 ∨ ret.signExtend 64 ≠ block then
        -- both checks leave `main`
        { pages := pages, bytes := (write.result i).toNat }
      else
        let rest := fillBlocks write n (i + 1) v'
        { pages := pages ++ rest.pages, bytes := block.toNat + rest.bytes }

section Phases

variable (o : Options) (write : Writes o.block)

def phase1 : Written := fillBlocks write (o.bytes / o.block).toNat 0 (1 * o.total4KBlks)

def phase3 : Written := fillBlocks write o.fillNum.toNat 0 (3 * o.total4KBlks)

end Phases

/-! ## Phase 2 -/

/-- The loop with `n` holes to go; none where the draws end too early.  A draw is
    what `genrand_int32` returns. -/
def punchLoop (total : Word) : Nat → List Word32 → (Nat → Byte) → Option (List Nat)
  | 0, _, _ => some []
  | _ + 1, [], _ => none
  | n + 1, draw :: draws, records =>
      if total = 0 then none
      else
        let pos := draw.toNat % total.toNat
        if records pos = 0 then do
          let punched ← punchLoop total n draws (Function.update records pos 1)
          some (pos :: punched)
        else punchLoop total (n + 1) draws records

/-- The punched positions, in pages. -/
def phase2 (o : Options) (draws : List Word32) : Option (List Nat) :=
  punchLoop o.total4KBlks o.holeNum.toNat draws fun _ => 0

/-! ## The sizes as numbers -/

section Sizes

variable (o : Options)

theorem total4KBlks_toNat : o.total4KBlks.toNat = o.bytes.toNat / PAGE_SIZE := by
  rw [Options.total4KBlks, BitVec.toNat_udiv]
  rfl

theorem total4KBlks_lt : o.total4KBlks.toNat < 2 ^ 52 := by
  have hlt := o.bytes.isLt
  rw [total4KBlks_toNat, PAGE_SIZE]
  omega

/-- The size is a number of GiB, also where the product wraps around. -/
theorem gib_dvd_bytes : 2 ^ 30 ∣ o.bytes.toNat := by
  rw [Options.bytes, BitVec.toNat_mul, show ((1024 * 1024 * 1024 : Word).toNat) = 2 ^ 30 from rfl]
  omega

variable {o}

theorem percent_toNat (h : o.holePercent.toNat ≤ 100) (w : Word) (hw : w.toNat < 2 ^ 52) :
    (w * o.holePercent.signExtend 64 / 100).toNat = w.toNat * o.holePercent.toNat / 100 := by
  have hmsb : o.holePercent.msb = false := by
    rw [BitVec.msb_eq_false_iff_two_mul_lt]
    omega
  have hmul : w.toNat * o.holePercent.toNat ≤ 2 ^ 52 * 100 :=
    Nat.mul_le_mul (Nat.le_of_lt hw) h
  rw [BitVec.toNat_udiv, BitVec.toNat_mul, BitVec.signExtend_eq_setWidth_of_msb_false hmsb,
    BitVec.toNat_setWidth, Nat.mod_eq_of_lt (a := o.holePercent.toNat) (by omega),
    Nat.mod_eq_of_lt (by omega)]
  rfl

theorem holeNum_toNat (h : o.holePercent.toNat ≤ 100) :
    o.holeNum.toNat = o.total4KBlks.toNat * o.holePercent.toNat / 100 :=
  percent_toNat h _ (total4KBlks_lt o)

theorem holeNum_le (h : o.holePercent.toNat ≤ 100) : o.holeNum.toNat ≤ o.total4KBlks.toNat := by
  rw [holeNum_toNat h]
  have := Nat.mul_le_mul_left o.total4KBlks.toNat h
  omega

/-- A block is one page or more. -/
theorem block_eq (h : PAGE_SIZE ∣ o.block.toNat) :
    ∃ b, o.block.toNat = b * PAGE_SIZE ∧ 0 < b := by
  obtain ⟨b, hb⟩ := h
  -- Zero is replaced by the default.
  refine ⟨b, by rw [hb, Nat.mul_comm], Nat.pos_of_ne_zero ?_⟩
  rintro rfl
  have hzero : o.block = 0 := BitVec.eq_of_toNat_eq hb
  rw [Options.block] at hzero
  split at hzero
  · exact absurd hzero (by decide)
  · exact absurd hzero (by assumption)

theorem fillNum_toNat (h : o.holePercent.toNat ≤ 100) (hblock : PAGE_SIZE ∣ o.block.toNat) :
    o.fillNum.toNat = o.bytes.toNat / o.block.toNat * o.holePercent.toNat / 100 := by
  obtain ⟨b, hb, hpos⟩ := block_eq hblock
  have hlt := total4KBlks_lt o
  rw [total4KBlks_toNat] at hlt
  have hle : o.bytes.toNat / o.block.toNat ≤ o.bytes.toNat / PAGE_SIZE := by
    rw [hb]
    exact Nat.div_le_div_left (Nat.le_mul_of_pos_left _ hpos) PAGE_SIZE_pos
  rw [Options.fillNum, percent_toNat h _ (by rw [BitVec.toNat_udiv]; omega), BitVec.toNat_udiv]

/-- The whole blocks have no more pages than the whole size. -/
theorem blocks_pages_le {b : Nat} (hb : o.block.toNat = b * PAGE_SIZE) :
    o.bytes.toNat / o.block.toNat * b ≤ o.total4KBlks.toNat := by
  rw [total4KBlks_toNat, hb, Nat.le_div_iff_mul_le PAGE_SIZE_pos, Nat.mul_assoc]
  exact Nat.div_mul_le_self ..

/-- Phase 3 has no more pages than phase 2 has holes. -/
theorem fill_pages_le (h : o.holePercent.toNat ≤ 100) {b : Nat}
    (hb : o.block.toNat = b * PAGE_SIZE) : o.fillNum.toNat * b ≤ o.holeNum.toNat := by
  rw [fillNum_toNat h ⟨b, by rw [hb, Nat.mul_comm]⟩, holeNum_toNat h,
    Nat.le_div_iff_mul_le (by decide : 0 < 100)]
  generalize hn : o.bytes.toNat / o.block.toNat = n
  have hpages : n * b ≤ o.total4KBlks.toNat := hn ▸ blocks_pages_le hb
  calc n * o.holePercent.toNat / 100 * b * 100
      = n * o.holePercent.toNat / 100 * 100 * b := Nat.mul_right_comm ..
    _ ≤ n * o.holePercent.toNat * b := Nat.mul_le_mul_right b (Nat.div_mul_le_self ..)
    _ = n * b * o.holePercent.toNat := Nat.mul_right_comm ..
    _ ≤ o.total4KBlks.toNat * o.holePercent.toNat := Nat.mul_le_mul_right _ hpages

end Sizes

/-! ## What phases 1 and 3 fill -/

/-- `n` pages with the values from `v` on. -/
def pagesFrom (v : Word) (n : Nat) : List (List Word) :=
  (List.range n).map fun k => fillPage (v + BitVec.ofNat 64 k)

@[simp] theorem length_pagesFrom (v : Word) (n : Nat) : (pagesFrom v n).length = n := by
  simp [pagesFrom]

theorem pagesFrom_append (v : Word) (m n : Nat) :
    pagesFrom v m ++ pagesFrom (v + BitVec.ofNat 64 m) n = pagesFrom v (m + n) := by
  simp only [pagesFrom, List.range_add, List.map_append, List.map_map]
  congr 1
  apply List.map_congr_left
  intro k _
  simp only [Function.comp_apply, BitVec.ofNat_add, BitVec.add_assoc]

theorem fillBuf_eq {block j : Nat} (n : Nat) (h : block = j + n * PAGE_SIZE) (v : Word) :
    fillBuf block j v = (pagesFrom v n, v + BitVec.ofNat 64 n) := by
  -- Induction on the pages that still fit behind byte `j`.
  induction n generalizing j v with
  | zero =>
      rw [fillBuf, if_neg (by omega)]
      simp [pagesFrom]
  | succ n ih =>
      have hpage := PAGE_SIZE_pos
      rw [Nat.succ_mul] at h
      rw [fillBuf, if_pos (by omega), ih (by omega)]
      have hone : pagesFrom v 1 = [fillPage v] := by simp [pagesFrom]
      have hcat := pagesFrom_append v 1 n
      rw [hone, List.singleton_append] at hcat
      simp only [Prod.mk.injEq]
      refine ⟨by rw [Nat.add_comm n 1, ← hcat]; rfl, ?_⟩
      rw [Nat.add_comm n 1, BitVec.ofNat_add, BitVec.add_assoc]
      rfl

/-- Whatever `write` returns, the pages are numbered from `v` on, there are at most
    `n` blocks of them, and the file gets no more than these pages. -/
theorem fillBlocks_spec {block : Word} (write : Writes block) {b : Nat}
    (hb : block.toNat = b * PAGE_SIZE) (n i : Nat) (v : Word) :
    ∃ m, m ≤ n * b ∧ (fillBlocks write n i v).pages = pagesFrom v m ∧
      (fillBlocks write n i v).bytes ≤ m * PAGE_SIZE := by
  -- Induction on the blocks to go; a block that is not written whole is the last one.
  induction n generalizing i v with
  | zero => exact ⟨0, Nat.zero_le _, by simp [fillBlocks, pagesFrom], Nat.zero_le _⟩
  | succ n ih =>
      have hbuf := fillBuf_eq b (show block.toNat = 0 + b * PAGE_SIZE by rw [hb, Nat.zero_add]) v
      have hcount : (n + 1) * b = b + n * b := by rw [Nat.succ_mul, Nat.add_comm]
      simp only [fillBlocks, hbuf]
      split
      · -- `main` returns; what was filled may not have been written.
        refine ⟨b, by omega, rfl, ?_⟩
        have hle := write.result_le i
        rw [hb] at hle
        simp only
        omega
      · obtain ⟨m, hm, hpages, hbytes⟩ := ih (i + 1) (v + BitVec.ofNat 64 b)
        refine ⟨b + m, by omega, ?_, ?_⟩
        · simp only
          rw [hpages, pagesFrom_append]
        · simp only
          rw [hb, Nat.add_mul]
          omega

/-! ## `write` on Linux -/

/-- The most that one call of `write` transfers. -/
def MAX_RW_COUNT : Nat := 0x7ffff000

theorem min_le_block (block : Word) :
    ((min block.toNat MAX_RW_COUNT : Nat) : Int) ≤ block.toNat :=
  Int.ofNat_le.mpr (Nat.min_le_left ..)

/-- On a file system with room every call writes all it can. -/
def linuxWrites (block : Word) : Writes block where
  result := fun _ => (min block.toNat MAX_RW_COUNT : Nat)
  result_le := fun _ => min_le_block block

/-- The `int` that keeps what `write` returned. -/
theorem linuxWrites_ret (block : Word) :
    ¬ (BitVec.ofInt 32 ((linuxWrites block).result 0)).toInt < 0 ∧
      ((BitVec.ofInt 32 ((linuxWrites block).result 0)).signExtend 64 = block ↔
        block.toNat ≤ MAX_RW_COUNT) := by
  have hlt : min block.toNat MAX_RW_COUNT < 2 ^ 31 := by
    have : MAX_RW_COUNT < 2 ^ 31 := by decide
    omega
  have hret : BitVec.ofInt 32 ((linuxWrites block).result 0) =
      BitVec.ofNat 32 (min block.toNat MAX_RW_COUNT) := BitVec.ofInt_natCast ..
  rw [hret]
  generalize hn : min block.toNat MAX_RW_COUNT = n at hlt
  have hmsb : (BitVec.ofNat 32 n).msb = false := by
    rw [BitVec.msb_eq_false_iff_two_mul_lt, BitVec.toNat_ofNat]
    omega
  refine ⟨?_, ?_⟩
  · rw [BitVec.toInt_eq_toNat_of_msb hmsb]
    omega
  · rw [BitVec.signExtend_eq_setWidth_of_msb_false hmsb, ← BitVec.toNat_inj,
      BitVec.toNat_setWidth, BitVec.toNat_ofNat]
    omega

/-- Blocks that one call can write are all written; of longer ones `main` returns
    after a part of the first one. -/
theorem fillBlocks_linux {block : Word} {b : Nat} (hb : block.toNat = b * PAGE_SIZE)
    (n i : Nat) (v : Word) :
    (fillBlocks (linuxWrites block) n i v).bytes =
      if block.toNat ≤ MAX_RW_COUNT then n * block.toNat else min n 1 * MAX_RW_COUNT := by
  obtain ⟨hnonneg, hwhole⟩ := linuxWrites_ret block
  induction n generalizing i v with
  | zero => simp [fillBlocks]
  | succ n ih =>
      have hsame : (linuxWrites block).result i = (linuxWrites block).result 0 := rfl
      simp only [fillBlocks, hsame, hnonneg, false_or]
      by_cases hle : block.toNat ≤ MAX_RW_COUNT
      · rw [if_neg (not_not_intro (hwhole.mpr hle)), if_pos hle]
        simp only [ih, if_pos hle]
        rw [Nat.succ_mul, Nat.add_comm]
      · rw [if_pos (fun heq => hle (hwhole.mp heq)), if_neg hle]
        have hmin : (linuxWrites block).result 0 = (MAX_RW_COUNT : Int) := by
          exact congrArg Int.ofNat (Nat.min_eq_right (by omega))
        simp only [hmin, Int.toNat_natCast]
        rw [Nat.min_eq_right (by omega), Nat.one_mul]

/-! ## What phase 2 punches -/

section Punch

variable {total : Word}

/-- The positions are different, not recorded before, and as low as the total and
    a 32-bit draw allow. -/
theorem punchLoop_spec {n : Nat} {draws : List Word32} {records : Nat → Byte} {ps : List Nat}
    (h : punchLoop total n draws records = some ps) :
    ps.Nodup ∧ ps.length = n ∧
      ∀ p ∈ ps, records p = 0 ∧ p < total.toNat ∧ p < 2 ^ 32 := by
  -- Induction on the draws: one that hits a recorded position is thrown away, any other
  -- one is recorded for the draws behind it.
  induction draws generalizing n records ps with
  | nil =>
      cases n with
      | zero =>
          cases h
          simp
      | succ n => cases h
  | cons draw draws ih =>
      cases n with
      | zero =>
          cases h
          simp
      | succ n =>
          simp only [punchLoop] at h
          split at h
          · cases h
          · rename_i hne
            split at h
            · rename_i hfree
              obtain ⟨punched, hrun, heq⟩ := Option.bind_eq_some_iff.mp h
              cases heq
              obtain ⟨hnd, hlen, hmem⟩ := ih hrun
              have hpos : 0 < total.toNat := Nat.pos_of_ne_zero fun hz =>
                hne (BitVec.eq_of_toNat_eq hz)
              refine ⟨List.nodup_cons.mpr ⟨?_, hnd⟩, by rw [List.length_cons, hlen], ?_⟩
              · -- The record of this position is no longer zero.
                intro hin
                have := (hmem _ hin).1
                rw [Function.update_self] at this
                exact absurd this (by decide)
              · intro p hp
                rcases List.mem_cons.mp hp with rfl | hp
                · exact ⟨hfree, Nat.mod_lt _ hpos,
                    Nat.lt_of_le_of_lt (Nat.mod_le ..) draw.isLt⟩
                · obtain ⟨hrec, hlt⟩ := hmem p hp
                  rw [Function.update_apply] at hrec
                  split at hrec
                  · exact absurd hrec (by decide)
                  · exact ⟨hrec, hlt⟩
            · exact ih h

/-- Draws of different positions are all punched. -/
theorem punchLoop_of_nodup (hne : total ≠ 0) {draws : List Word32} {records : Nat → Byte}
    (hnd : (draws.map fun d => d.toNat % total.toNat).Nodup)
    (hfree : ∀ d ∈ draws, records (d.toNat % total.toNat) = 0) :
    punchLoop total draws.length draws records =
      some (draws.map fun d => d.toNat % total.toNat) := by
  induction draws generalizing records with
  | nil => rfl
  | cons draw draws ih =>
      rw [List.map_cons, List.nodup_cons] at hnd
      simp only [List.length_cons, punchLoop, if_neg hne]
      rw [if_pos (hfree draw (List.mem_cons_self ..)), ih hnd.2]
      · rfl
      · intro d hd
        rw [Function.update_of_ne]
        · exact hfree d (List.mem_cons_of_mem _ hd)
        · intro heq
          exact hnd.1 (heq ▸ List.mem_map_of_mem hd)

/-- Any position in reach comes up in some run, if enough positions are in reach. -/
theorem exists_punched {n p : Nat} (hn : 0 < n) (hle : n ≤ min total.toNat (2 ^ 32))
    (hp : p < min total.toNat (2 ^ 32)) :
    ∃ draws ps, punchLoop total n draws (fun _ => 0) = some ps ∧ p ∈ ps := by
  -- `p` first, then the others from 0 on.
  let positions := p :: ((List.range (min total.toNat (2 ^ 32))).erase p).take (n - 1)
  have hmem : p ∈ List.range (min total.toNat (2 ^ 32)) := List.mem_range.mpr hp
  have hlength : positions.length = n := by
    simp only [positions, List.length_cons, List.length_take, List.length_erase_of_mem hmem,
      List.length_range]
    omega
  have hnodup : positions.Nodup := by
    refine List.nodup_cons.mpr ⟨fun hin => ?_, ?_⟩
    · exact (List.nodup_range.mem_erase_iff.mp (List.mem_of_mem_take hin)).1 rfl
    · exact (List.nodup_range.erase p).sublist (List.take_sublist ..)
  have hlt : ∀ q ∈ positions, q < total.toNat ∧ q < 2 ^ 32 := by
    intro q hq
    have hq' : q ∈ List.range (min total.toNat (2 ^ 32)) := by
      rcases List.mem_cons.mp hq with rfl | hq
      · exact hmem
      · exact List.mem_of_mem_erase (List.mem_of_mem_take hq)
    have := List.mem_range.mp hq'
    omega
  -- Each one is a draw that gives itself.
  have hdraws : (positions.map (BitVec.ofNat 32)).map (fun d => d.toNat % total.toNat) =
      positions := by
    rw [List.map_map]
    refine (List.map_congr_left fun q hq => ?_).trans (List.map_id _)
    obtain ⟨htotal, hword⟩ := hlt q hq
    rw [Function.comp_apply, BitVec.toNat_ofNat, Nat.mod_eq_of_lt hword, Nat.mod_eq_of_lt htotal]
    rfl
  have hne : total ≠ 0 := by
    rintro rfl
    simp at hp
  have hrun := @punchLoop_of_nodup total hne (positions.map (BitVec.ofNat 32)) (fun _ => 0)
    (by rw [hdraws]; exact hnodup) (fun _ _ => rfl)
  rw [hdraws, List.length_map, hlength] at hrun
  exact ⟨_, positions, hrun, List.mem_cons_self ..⟩

end Punch

/-! ## The values and the amounts -/

section Amounts

variable {o : Options}

theorem mem_fillPage {v x : Word} (h : x ∈ fillPage v) : x = v := List.eq_of_mem_replicate h

/-- Pages with different values have no word in common. -/
theorem fillPage_apart {m n : Nat} (hm : m < 2 ^ 64) (hn : n < 2 ^ 64) (hne : m ≠ n) :
    ∀ x ∈ fillPage (BitVec.ofNat 64 m), ∀ y ∈ fillPage (BitVec.ofNat 64 n), x ≠ y := by
  intro x hx y hy hxy
  rw [mem_fillPage hx, mem_fillPage hy, ← BitVec.toNat_inj, BitVec.toNat_ofNat, BitVec.toNat_ofNat,
    Nat.mod_eq_of_lt hm, Nat.mod_eq_of_lt hn] at hxy
  exact hne hxy

/-- Values below `2 ^ 64` apart are different. -/
theorem pairwise_pagesFrom {base : Nat} {n : Nat} (h : base + n ≤ 2 ^ 64) :
    (pagesFrom (BitVec.ofNat 64 base) n).Pairwise fun p q => ∀ x ∈ p, ∀ y ∈ q, x ≠ y := by
  rw [pagesFrom, List.pairwise_map]
  refine List.pairwise_lt_range.imp_of_mem fun {j k} hj hk hlt => ?_
  have hj' := List.mem_range.mp hj
  have hk' := List.mem_range.mp hk
  rw [← BitVec.ofNat_add, ← BitVec.ofNat_add]
  exact fillPage_apart (by omega) (by omega) (by omega)

/-- Two ranges of values that do not meet. -/
theorem pagesFrom_disjoint {base base' n n' : Nat} (h : base + n ≤ base')
    (h' : base' + n' ≤ 2 ^ 64) :
    ∀ p ∈ pagesFrom (BitVec.ofNat 64 base) n, ∀ q ∈ pagesFrom (BitVec.ofNat 64 base') n',
      ∀ x ∈ p, ∀ y ∈ q, x ≠ y := by
  intro p hp q hq
  obtain ⟨j, hj, rfl⟩ := List.mem_map.mp hp
  obtain ⟨k, hk, rfl⟩ := List.mem_map.mp hq
  have hj' := List.mem_range.mp hj
  have hk' := List.mem_range.mp hk
  rw [← BitVec.ofNat_add, ← BitVec.ofNat_add]
  exact fillPage_apart (by omega) (by omega) (by omega)

/-- What the two filling phases do, whatever `write` returns. -/
theorem phases_filled (hblock : PAGE_SIZE ∣ o.block.toNat) (hpercent : o.holePercent.toNat ≤ 100)
    (write1 write3 : Writes o.block) :
    ∃ m n, m ≤ o.total4KBlks.toNat ∧ n ≤ o.holeNum.toNat ∧
      (phase1 o write1).pages = pagesFrom (BitVec.ofNat 64 o.total4KBlks.toNat) m ∧
      (phase1 o write1).bytes ≤ m * PAGE_SIZE ∧
      (phase3 o write3).pages = pagesFrom (BitVec.ofNat 64 (3 * o.total4KBlks.toNat)) n ∧
      (phase3 o write3).bytes ≤ n * PAGE_SIZE := by
  obtain ⟨b, hb, -⟩ := block_eq hblock
  obtain ⟨m, hm, hpages, hbytes⟩ :=
    fillBlocks_spec write1 hb (o.bytes / o.block).toNat 0 (1 * o.total4KBlks)
  obtain ⟨n, hn, hpages', hbytes'⟩ :=
    fillBlocks_spec write3 hb o.fillNum.toNat 0 (3 * o.total4KBlks)
  have hone : 1 * o.total4KBlks = BitVec.ofNat 64 o.total4KBlks.toNat := by
    rw [BitVec.ofNat_toNat, BitVec.setWidth_eq]
    exact BitVec.one_mul _
  have hthree : 3 * o.total4KBlks = BitVec.ofNat 64 (3 * o.total4KBlks.toNat) := by
    rw [BitVec.ofNat_mul, BitVec.ofNat_toNat, BitVec.setWidth_eq]
    rfl
  -- The blocks are no more pages than the size, and in phase 3 no more than the holes.
  rw [BitVec.toNat_udiv] at hm
  exact ⟨m, n, Nat.le_trans hm (blocks_pages_le hb), Nat.le_trans hn (fill_pages_le hpercent hb),
    hone ▸ hpages, hbytes, hthree ▸ hpages', hbytes'⟩

/-- The values of phases 1 and 3 are different on any two pages, phase 1 writes
    `total_4K_blks` pages at most, and phase 3 at most `hole_num`, which is the
    number of pages that phase 2 punches. -/
theorem phases_distinct (hblock : PAGE_SIZE ∣ o.block.toNat)
    (hpercent : o.holePercent.toNat ≤ 100) (write1 write3 : Writes o.block) :
    ((phase1 o write1).pages ++ (phase3 o write3).pages).Pairwise
        (fun p q => ∀ x ∈ p, ∀ y ∈ q, x ≠ y) ∧
      (phase1 o write1).pages.length ≤ o.total4KBlks.toNat ∧
      (phase1 o write1).bytes ≤ o.total4KBlks.toNat * PAGE_SIZE ∧
      (phase3 o write3).pages.length ≤ o.holeNum.toNat ∧
      (phase3 o write3).bytes ≤ o.holeNum.toNat * PAGE_SIZE ∧
      ∀ draws ps, phase2 o draws = some ps → ps.Nodup ∧ ps.length = o.holeNum.toNat := by
  obtain ⟨m, n, hm, hn, hpages, hbytes, hpages', hbytes'⟩ :=
    phases_filled hblock hpercent write1 write3
  have htotal := total4KBlks_lt o
  have hholes := holeNum_le hpercent
  refine ⟨?_, ?_, ?_, ?_, ?_, ?_⟩
  · rw [hpages, hpages', List.pairwise_append]
    exact ⟨pairwise_pagesFrom (by omega), pairwise_pagesFrom (by omega),
      pagesFrom_disjoint (by omega) (by omega)⟩
  · rw [hpages, length_pagesFrom]
    exact hm
  · exact Nat.le_trans hbytes (Nat.mul_le_mul_right _ hm)
  · rw [hpages', length_pagesFrom]
    exact hn
  · exact Nat.le_trans hbytes' (Nat.mul_le_mul_right _ hn)
  · intro draws ps hrun
    obtain ⟨hnd, hlen, -⟩ := punchLoop_spec hrun
    exact ⟨hnd, hlen⟩

/-- 1 GiB in blocks of 2 MiB, half of it punched. -/
theorem phases_distinct_sample :
    let o : Options := { size := 1, blockSize := 2097152, holePercent := 50 }
    ((phase1 o (linuxWrites o.block)).pages ++ (phase3 o (linuxWrites o.block)).pages).Pairwise
        (fun p q => ∀ x ∈ p, ∀ y ∈ q, x ≠ y) ∧
      (phase1 o (linuxWrites o.block)).pages.length ≤ o.total4KBlks.toNat ∧
      (phase1 o (linuxWrites o.block)).bytes ≤ o.total4KBlks.toNat * PAGE_SIZE ∧
      (phase3 o (linuxWrites o.block)).pages.length ≤ o.holeNum.toNat ∧
      (phase3 o (linuxWrites o.block)).bytes ≤ o.holeNum.toNat * PAGE_SIZE ∧
      ∀ draws ps, phase2 o draws = some ps → ps.Nodup ∧ ps.length = o.holeNum.toNat :=
  phases_distinct (by decide) (by decide) (linuxWrites _) (linuxWrites _)

end Amounts

/-! ## Whether the punched pages were written -/

/-- The page at position `pos` lies within the bytes that reached the file. -/
def Written.HasPage (w : Written) (pos : Nat) : Prop := (pos + 1) * PAGE_SIZE ≤ w.bytes

section Punched

variable (o : Options)

/-- Phase 2, when it ends, has punched as many different pages as requested, all
    of them written by phase 1. -/
def PunchesWritten : Prop :=
  ∀ draws ps, phase2 o draws = some ps →
    ps.Nodup ∧ ps.length = o.total4KBlks.toNat * o.holePercent.toNat / 100 ∧
      ∀ p ∈ ps, (phase1 o (linuxWrites o.block)).HasPage p

/-- One call of `write` takes a block, and the blocks cover all pages that a draw
    can reach: the whole size if that has no more than `2 ^ 32` pages. -/
def BlocksCover : Prop :=
  o.block.toNat ≤ MAX_RW_COUNT ∧
    if o.total4KBlks.toNat ≤ 2 ^ 32 then o.block.toNat ∣ o.bytes.toNat
    else 2 ^ 32 ≤ o.bytes.toNat / o.block.toNat * (o.block.toNat / PAGE_SIZE)

variable {o}

theorem bytes_eq_total : o.bytes.toNat = o.total4KBlks.toNat * PAGE_SIZE := by
  have hgib := gib_dvd_bytes o
  rw [total4KBlks_toNat, Nat.div_mul_cancel (Nat.dvd_trans (by decide) hgib)]

/-- Whole blocks reach the end of the size exactly if they divide it. -/
theorem total_le_blocks_iff {b : Nat} (hb : o.block.toNat = b * PAGE_SIZE) :
    o.total4KBlks.toNat ≤ o.bytes.toNat / o.block.toNat * b ↔ o.block.toNat ∣ o.bytes.toNat := by
  have hle := blocks_pages_le hb
  constructor
  · intro hge
    refine ⟨o.bytes.toNat / o.block.toNat, ?_⟩
    calc o.bytes.toNat = o.total4KBlks.toNat * PAGE_SIZE := bytes_eq_total
      _ = o.bytes.toNat / o.block.toNat * b * PAGE_SIZE :=
          congrArg (· * PAGE_SIZE) (Nat.le_antisymm hge hle)
      _ = o.block.toNat * (o.bytes.toNat / o.block.toNat) := by
          rw [Nat.mul_assoc, ← hb, Nat.mul_comm]
  · intro hdvd
    have hmul := Nat.div_mul_cancel hdvd
    rw [bytes_eq_total, hb, ← Nat.mul_assoc] at hmul
    rw [bytes_eq_total, hb]
    exact Nat.le_of_eq (Nat.eq_of_mul_eq_mul_right PAGE_SIZE_pos hmul).symm

/-- Which pages the bytes of phase 1 hold. -/
theorem hasPage_lt_iff {w : Written} {n : Nat} (hn : 0 < n) :
    (∀ p < n, w.HasPage p) ↔ n * PAGE_SIZE ≤ w.bytes := by
  constructor
  · intro h
    have hlast := h (n - 1) (by omega)
    rwa [Written.HasPage, Nat.sub_add_cancel hn] at hlast
  · intro h p hp
    exact Nat.le_trans (Nat.mul_le_mul_right _ hp) h

/-- Phase 1 writes all pages in reach exactly if the blocks cover them. -/
theorem phase1_covers_iff (hblock : PAGE_SIZE ∣ o.block.toNat) (htotal : 0 < o.total4KBlks.toNat) :
    (∀ p < min o.total4KBlks.toNat (2 ^ 32), (phase1 o (linuxWrites o.block)).HasPage p) ↔
      BlocksCover o := by
  obtain ⟨b, hb, hpos⟩ := block_eq hblock
  have hbytes : o.bytes.toNat = o.total4KBlks.toNat * PAGE_SIZE := bytes_eq_total
  have hdiv : o.block.toNat / PAGE_SIZE = b := by rw [hb, Nat.mul_div_cancel _ PAGE_SIZE_pos]
  rw [hasPage_lt_iff (by omega), phase1, fillBlocks_linux hb, BitVec.toNat_udiv, BlocksCover]
  by_cases hle : o.block.toNat ≤ MAX_RW_COUNT
  · rw [if_pos hle, and_iff_right hle, hdiv]
    have hpages : o.bytes.toNat / o.block.toNat * o.block.toNat =
        o.bytes.toNat / o.block.toNat * b * PAGE_SIZE := by
      rw [Nat.mul_assoc, ← hb]
    rw [hpages, Nat.mul_le_mul_right_iff PAGE_SIZE_pos]
    split
    · rename_i hsmall
      rw [Nat.min_eq_left hsmall, total_le_blocks_iff hb]
    · rename_i hlarge
      rw [Nat.min_eq_right (by omega)]
  · -- The first call writes a part of the block only, and phase 1 ends there.
    rw [if_neg hle]
    refine iff_of_false ?_ (fun h => hle h.1)
    intro hcover
    by_cases hnone : o.bytes.toNat < o.block.toNat
    · rw [Nat.div_eq_of_lt hnone, Nat.zero_min, Nat.zero_mul, PAGE_SIZE] at hcover
      omega
    · have hone : 1 ≤ o.bytes.toNat / o.block.toNat :=
        (Nat.one_le_div_iff (by rw [hb]; exact Nat.mul_pos hpos PAGE_SIZE_pos)).mpr (by omega)
      rw [Nat.min_eq_right hone] at hcover
      simp only [MAX_RW_COUNT, PAGE_SIZE] at hcover hle hbytes
      omega

theorem phase2_pos_lt {draws : List Word32} {ps : List Nat} (h : phase2 o draws = some ps) :
    ∀ p ∈ ps, p < min o.total4KBlks.toNat (2 ^ 32) := by
  obtain ⟨-, -, hmem⟩ := punchLoop_spec h
  intro p hp
  have := (hmem p hp).2
  omega

/-- Phase 2 does not end if it is to punch more pages than there are draws. -/
theorem phase2_eq_none {draws : List Word32} (h : 2 ^ 32 < o.holeNum.toNat) :
    phase2 o draws = none := by
  cases hrun : phase2 o draws with
  | none => rfl
  | some ps =>
      obtain ⟨hnd, hlen, hmem⟩ := punchLoop_spec hrun
      have hsub : ps ⊆ List.range (2 ^ 32) := fun p hp => List.mem_range.mpr (hmem p hp).2.2
      have hle := (List.subperm_of_subset hnd hsub).length_le
      rw [List.length_range] at hle
      omega

/-- The punched pages are always different and as many as requested; that phase 1
    wrote them needs blocks that cover the size, unless none is punched at all. -/
theorem punchesWritten_iff (hblock : PAGE_SIZE ∣ o.block.toNat)
    (hpercent : o.holePercent.toNat ≤ 100) :
    PunchesWritten o ↔
      o.total4KBlks.toNat * o.holePercent.toNat / 100 = 0 ∨
      2 ^ 32 < o.total4KBlks.toNat * o.holePercent.toNat / 100 ∨ BlocksCover o := by
  have hholes := holeNum_toNat hpercent
  have hle := holeNum_le hpercent
  rw [← hholes]
  refine ⟨fun h => ?_, fun h draws ps hrun => ?_⟩
  · -- Any page in reach may be punched.
    by_cases hzero : o.holeNum.toNat = 0
    · exact Or.inl hzero
    by_cases hmany : 2 ^ 32 < o.holeNum.toNat
    · exact Or.inr (Or.inl hmany)
    refine Or.inr (Or.inr ((phase1_covers_iff hblock (by omega)).mp fun p hp => ?_))
    obtain ⟨draws, ps, hrun, hmem⟩ := exists_punched (Nat.pos_of_ne_zero hzero)
      (show o.holeNum.toNat ≤ min o.total4KBlks.toNat (2 ^ 32) by omega) hp
    exact (h draws ps hrun).2.2 p hmem
  · obtain ⟨hnd, hlen, -⟩ := punchLoop_spec hrun
    refine ⟨hnd, hholes ▸ hlen, fun p hp => ?_⟩
    rcases h with hzero | hmany | hcover
    · rw [List.length_eq_zero_iff.mp (hlen.trans hzero)] at hp
      exact absurd hp (List.not_mem_nil)
    · rw [phase2_eq_none hmany] at hrun
      cases hrun
    · have hlt := phase2_pos_lt hrun p hp
      exact (phase1_covers_iff hblock (by omega)).mpr hcover p hlt

/-- Half of 1 GiB in blocks of 2 MiB. -/
theorem punchesWritten_iff_sample :
    let o : Options := { size := 1, blockSize := 2097152, holePercent := 50 }
    PunchesWritten o ↔
      o.total4KBlks.toNat * o.holePercent.toNat / 100 = 0 ∨
      2 ^ 32 < o.total4KBlks.toNat * o.holePercent.toNat / 100 ∨ BlocksCover o :=
  punchesWritten_iff (by decide) (by decide)

/-- 1 GiB in blocks of three pages: the last page is punched and was never written. -/
theorem punchesWritten_fails :
    ¬ PunchesWritten { size := 1, blockSize := 12288, holePercent := 100 } := by
  intro h
  obtain ⟨draws, ps, hrun, hmem⟩ := @exists_punched
    (Options.total4KBlks { size := 1, blockSize := 12288, holePercent := 100 }) 262144 262143
    (by decide) (by decide) (by decide)
  have hpage := (h draws ps hrun).2.2 _ hmem
  rw [Written.HasPage, phase1, fillBlocks_linux (b := 3) (by decide)] at hpage
  exact absurd hpage (by decide)

end Punched

end GogetaTools.Aging
