/-
  GogetaTools.Lib.Binary32

  Conversion of a natural number to IEEE-754 binary32, as the integer the
  float stands for: 24 significant bits, round to nearest, ties to even.
  Numbers far above `2 ^ 128` are not a concern here, so there is no infinity.

  `toFloat32_mul_two_pow` says which numbers convert exactly, and
  `toFloat32_le` / `le_toFloat32` bound the relative error by `2 ^ -24`.
-/

import Mathlib.Data.Nat.Log
import Mathlib.Tactic.Common
import Mathlib.Algebra.Ring.Nat

namespace Binary32

/-- The spacing of the binary32 numbers around `n`. -/
def ulp (n : Nat) : Nat := 2 ^ (Nat.log2 n - 23)

/-- Round `n` to 24 significant bits, ties to even. -/
def toFloat32 (n : Nat) : Nat :=
  let q := n / ulp n
  let r := n % ulp n
  if 2 * r < ulp n ∨ (2 * r = ulp n ∧ q % 2 = 0) then q * ulp n else (q + 1) * ulp n

theorem ulp_pos (n : Nat) : 0 < ulp n := Nat.two_pow_pos _

/-- The spacing is at most `n / 2 ^ 23`, or one. -/
theorem two_pow_mul_ulp_le {n : Nat} (h : 1 < ulp n) : 2 ^ 23 * ulp n ≤ n := by
  have hn : n ≠ 0 := by
    rintro rfl
    simp [ulp] at h
  have he : 23 ≤ Nat.log2 n := by
    by_contra hlt
    have : Nat.log2 n - 23 = 0 := by omega
    simp [ulp, this] at h
  calc 2 ^ 23 * ulp n = 2 ^ (23 + (Nat.log2 n - 23)) := by rw [ulp, ← Nat.pow_add]
    _ = 2 ^ Nat.log2 n := by congr 1; omega
    _ ≤ n := Nat.log2_self_le hn

/-- Rounding moves `n` by at most half a spacing. -/
theorem toFloat32_dist (n : Nat) :
    2 * toFloat32 n ≤ 2 * n + ulp n ∧ 2 * n ≤ 2 * toFloat32 n + ulp n := by
  have hdiv : n / ulp n * ulp n + n % ulp n = n := by
    rw [Nat.mul_comm]
    exact Nat.div_add_mod n (ulp n)
  have hmod : n % ulp n < ulp n := Nat.mod_lt _ (ulp_pos n)
  have hsucc : (n / ulp n + 1) * ulp n = n / ulp n * ulp n + ulp n := Nat.succ_mul _ _
  simp only [toFloat32]
  split <;> omega

theorem toFloat32_eq_self {n : Nat} (h : ulp n ∣ n) : toFloat32 n = n := by
  have hmod : n % ulp n = 0 := Nat.mod_eq_zero_of_dvd h
  have hpos := ulp_pos n
  simp only [toFloat32, hmod]
  rw [if_pos (Or.inl (by omega)), Nat.div_mul_cancel h]

/-- A number with at most 24 significant bits converts exactly. -/
theorem toFloat32_mul_two_pow {a k : Nat} (ha : a < 2 ^ 24) :
    toFloat32 (a * 2 ^ k) = a * 2 ^ k := by
  apply toFloat32_eq_self
  rcases Nat.eq_zero_or_pos a with rfl | hpos
  · simp
  have hlog : Nat.log2 (a * 2 ^ k) < 24 + k := by
    have hlt : a * 2 ^ k < 2 ^ (24 + k) := by
      rw [Nat.pow_add]
      exact Nat.mul_lt_mul_of_pos_right ha (Nat.two_pow_pos k)
    have hne : a * 2 ^ k ≠ 0 := Nat.mul_ne_zero (by omega) (Nat.two_pow_pos k).ne'
    exact (Nat.log2_lt hne).mpr hlt
  exact Nat.dvd_mul_left_of_dvd (Nat.pow_dvd_pow 2 (by omega)) a

theorem toFloat32_le (n : Nat) : 2 ^ 24 * toFloat32 n ≤ (2 ^ 24 + 1) * n := by
  rcases Nat.lt_or_ge 1 (ulp n) with h | h
  · have h1 := (toFloat32_dist n).1
    have h2 := two_pow_mul_ulp_le h
    omega
  · have h1 : ulp n = 1 := by have := ulp_pos n; omega
    rw [toFloat32_eq_self (by rw [h1]; exact Nat.one_dvd n)]
    omega

theorem le_toFloat32 (n : Nat) : (2 ^ 24 - 1) * n ≤ 2 ^ 24 * toFloat32 n := by
  rcases Nat.lt_or_ge 1 (ulp n) with h | h
  · have h1 := (toFloat32_dist n).2
    have h2 := two_pow_mul_ulp_le h
    omega
  · have h1 : ulp n = 1 := by have := ulp_pos n; omega
    rw [toFloat32_eq_self (by rw [h1]; exact Nat.one_dvd n)]
    omega

end Binary32
