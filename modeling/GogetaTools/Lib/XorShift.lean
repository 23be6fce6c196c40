/-
  GogetaTools.Lib.XorShift

  The steps `x ^= (x << s) & mask` and `x ^= x >> s` on words of any width.

  A shift by at least one bit makes every bit of the result depend on that bit of
  `x` and on one bit that is nearer to an end of the word, so the word can be read
  back from that end: both steps are injective.
-/

import Mathlib.Data.BitVec
import Mathlib.Tactic.Common

namespace XorShift

variable {w : Nat}

/-- `x ^ ((x << s) & mask)`. -/
def left (s : Nat) (mask x : BitVec w) : BitVec w := x ^^^ ((x <<< s) &&& mask)

/-- `x ^ (x >> s)`. -/
def right (s : Nat) (x : BitVec w) : BitVec w := x ^^^ (x >>> s)

theorem getLsbD_left {s i : Nat} (mask x : BitVec w) (hi : i < w) :
    (left s mask x).getLsbD i =
      (x.getLsbD i ^^ (decide (s ≤ i) && x.getLsbD (i - s) && mask.getLsbD i)) := by
  rw [left, BitVec.getLsbD_xor, BitVec.getLsbD_and, BitVec.getLsbD_shiftLeft]
  rcases Nat.lt_or_ge i s with h | h
  · simp only [h, hi, Nat.not_le.mpr h, decide_true, decide_false, Bool.not_true, Bool.and_false,
      Bool.false_and]
  · simp only [hi, h, Nat.not_lt.mpr h, decide_true, decide_false, Bool.not_false, Bool.true_and]

theorem getLsbD_right {s i : Nat} (x : BitVec w) :
    (right s x).getLsbD i = (x.getLsbD i ^^ x.getLsbD (s + i)) := by
  rw [right, BitVec.getLsbD_xor, BitVec.getLsbD_ushiftRight]

theorem left_injective {s : Nat} (hs : 0 < s) (mask : BitVec w) :
    Function.Injective (left s mask) := by
  intro x x' h
  apply BitVec.eq_of_getLsbD_eq
  intro i
  -- from the low end: bit `i` of the result has bit `i - s` of the word in it
  induction i using Nat.strongRecOn with
  | _ i ih =>
      intro hi
      have hbit := congrArg (fun y => y.getLsbD i) h
      simp only [getLsbD_left mask _ hi] at hbit
      by_cases hsi : s ≤ i
      · rw [ih (i - s) (by omega) (by omega)] at hbit
        exact Bool.xor_right_inj.mp (by rw [Bool.xor_comm, hbit, Bool.xor_comm])
      · simpa [hsi] using hbit

theorem right_injective {s : Nat} (hs : 0 < s) : Function.Injective (right s : BitVec w → BitVec w) := by
  intro x x' h
  -- from the high end: there are no bits above the width
  have hall : ∀ n i, w ≤ i + n → x.getLsbD i = x'.getLsbD i := by
    intro n
    induction n with
    | zero =>
        intro i hi
        rw [BitVec.getLsbD_of_ge x i (by omega), BitVec.getLsbD_of_ge x' i (by omega)]
    | succ n ih =>
        intro i hi
        have hbit := congrArg (fun y => y.getLsbD i) h
        simp only [getLsbD_right] at hbit
        rw [ih (s + i) (by omega)] at hbit
        exact Bool.xor_right_inj.mp (by rw [Bool.xor_comm, hbit, Bool.xor_comm])
  exact BitVec.eq_of_getLsbD_eq fun i _ => hall w i (by omega)

end XorShift
