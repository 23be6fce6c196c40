/-
  GogetaTools.Words

  The C integer types the tools compute with, on an LP64 machine.
-/

import Mathlib.Data.BitVec

namespace GogetaTools

abbrev Byte := BitVec 8

/-- `unsigned int`, `uint32_t`; an `int` where only its bits matter. -/
abbrev Word32 := BitVec 32

/-- `unsigned long`, `size_t` and `uint64_t`. -/
abbrev Word := BitVec 64

/-- One past the largest `int`. -/
def intLimit : Nat := 2 ^ 31

/-- The bytes of an `unsigned long` in memory, least significant first. -/
def wordBytes (w : Word) (i : Nat) : Byte := (w >>> (8 * i)).setWidth 8

/-- The bytes of a `uint32_t` in memory, least significant first. -/
def word32Bytes (w : Word32) : List Byte :=
  [w.setWidth 8, (w >>> 8).setWidth 8, (w >>> 16).setWidth 8, (w >>> 24).setWidth 8]

/-- `*(uint32_t *)p` for the bytes at `p`. -/
def readWord32 (p : List Byte) : Word32 :=
  (p.getD 0 0).setWidth 32 ||| (p.getD 1 0).setWidth 32 <<< 8 |||
  (p.getD 2 0).setWidth 32 <<< 16 ||| (p.getD 3 0).setWidth 32 <<< 24

@[simp] theorem length_word32Bytes (w : Word32) : (word32Bytes w).length = 4 := rfl

/-- The eight bytes determine the word. -/
theorem wordBytes_inj {a b : Word} (h : ∀ i < 8, wordBytes a i = wordBytes b i) : a = b := by
  apply BitVec.eq_of_getLsbD_eq
  intro j hj
  have hbyte := congrArg (fun x => x.getLsbD (j % 8)) (h (j / 8) (by omega))
  simp only [wordBytes, BitVec.getLsbD_setWidth, BitVec.getLsbD_ushiftRight,
    show j % 8 < 8 from Nat.mod_lt _ (by decide), decide_true, Bool.true_and,
    Nat.div_add_mod] at hbyte
  exact hbyte

/-- Four bytes determine the 32-bit word. -/
theorem word32Bytes_inj {a b : Word32} (h : word32Bytes a = word32Bytes b) : a = b := by
  simp only [word32Bytes, List.cons.injEq] at h
  obtain ⟨h0, h1, h2, h3, -⟩ := h
  have n0 := congrArg BitVec.toNat h0
  have n1 := congrArg BitVec.toNat h1
  have n2 := congrArg BitVec.toNat h2
  have n3 := congrArg BitVec.toNat h3
  simp only [BitVec.toNat_setWidth, BitVec.toNat_ushiftRight, Nat.shiftRight_eq_div_pow]
    at n0 n1 n2 n3
  apply BitVec.eq_of_toNat_eq
  have ha := a.isLt
  have hb := b.isLt
  omega

/-- The word read at `p` has the bytes at `p`. -/
theorem word32Bytes_readWord32 (p : List Byte) :
    word32Bytes (readWord32 p) = [p.getD 0 0, p.getD 1 0, p.getD 2 0, p.getD 3 0] := by
  simp only [word32Bytes, readWord32, List.cons.injEq, and_true]
  generalize p.getD 0 0 = a
  generalize p.getD 1 0 = b
  generalize p.getD 2 0 = c
  generalize p.getD 3 0 = d
  -- bit by bit: what is shifted in from the other bytes is zero
  refine ⟨?_, ?_, ?_, ?_⟩ <;>
  · ext i hi
    simp only [BitVec.getElem_setWidth, BitVec.getLsbD_or, BitVec.getLsbD_ushiftRight,
      BitVec.getLsbD_shiftLeft, BitVec.getLsbD_setWidth]
    grind

end GogetaTools
