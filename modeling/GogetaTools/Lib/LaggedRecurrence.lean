/-
  GogetaTools.Lib.LaggedRecurrence

  Sequences in which every term from the `n`-th on is made of three terms before
  it: those `n`, `n - 1` and `n - m` places back.

  `extend` runs the recurrence from `n` given terms.  An array of `n` cells holds
  `n` consecutive terms; `refresh` replaces one cell, reading its neighbours round
  the end of the array, and `refresh_all` says that refreshing every cell in turn,
  in place, leaves the next `n` terms.
-/

import Mathlib.Logic.Function.Basic
import Mathlib.Tactic.Common

namespace LaggedRecurrence

variable {α : Type} (f : α → α → α → α) {n m : Nat}

def Obeys (n m : Nat) (x : Nat → α) : Prop := ∀ k, x (k + n) = f (x k) (x (k + 1)) (x (k + m))

/-- The sequence that begins with `seed 0, …, seed (n - 1)`. -/
def extend (hm : m < n) (hn : 1 < n) (seed : Nat → α) (k : Nat) : α :=
  if k < n then seed k
  else f (extend hm hn seed (k - n)) (extend hm hn seed (k - n + 1)) (extend hm hn seed (k - n + m))
termination_by k
decreasing_by all_goals omega

theorem extend_of_lt (hm : m < n) (hn : 1 < n) (seed : Nat → α) {k : Nat} (hk : k < n) :
    extend f hm hn seed k = seed k := by
  rw [extend, if_pos hk]

theorem obeys_extend (hm : m < n) (hn : 1 < n) (seed : Nat → α) :
    Obeys f n m (extend f hm hn seed) := by
  intro k
  rw [extend, if_neg (by omega), Nat.add_sub_cancel]

/-! ## In place -/

/-- Cell `i` of an array of `n` cells gets its next term. -/
def refresh (n m : Nat) (a : Nat → α) (i : Nat) : Nat → α :=
  Function.update a i (f (a i) (a ((i + 1) % n)) (a ((i + m) % n)))

variable {f}

theorem refresh_range {x a : Nat → α} {b : Nat} (hm : m < n) (hn : 1 < n) (hx : Obeys f n m x)
    (ha : ∀ j < n, a j = x (b + j)) :
    ∀ i ≤ n, ∀ j < n,
      (List.range i).foldl (refresh f n m) a j = if j < i then x (b + n + j) else x (b + j) := by
  intro i
  induction i with
  | zero =>
      intro _ j hj
      rw [if_neg (by omega)]
      exact ha j hj
  | succ i ih =>
      intro hi j hj
      have hprev := ih (by omega)
      rw [List.range_succ, List.foldl_append, List.foldl_cons, List.foldl_nil]
      generalize (List.range i).foldl (refresh f n m) a = c at hprev ⊢
      by_cases hji : j = i
      · subst hji
        -- the cells read still have the terms of this round, or already those of the next
        have hnext : c ((j + 1) % n) = x (b + j + 1) := by
          rcases Nat.lt_or_ge (j + 1) n with h | h
          · rw [Nat.mod_eq_of_lt h, hprev _ h, if_neg (by omega), Nat.add_assoc]
          · rw [show j + 1 = n by omega, Nat.mod_self, hprev 0 (by omega), if_pos (by omega)]
            congr 1
            omega
        have hlag : c ((j + m) % n) = x (b + j + m) := by
          rcases Nat.lt_or_ge (j + m) n with h | h
          · rw [Nat.mod_eq_of_lt h, hprev _ h]
            rw [if_neg (by omega), Nat.add_assoc]
          · rw [Nat.mod_eq_sub_mod h, Nat.mod_eq_of_lt (by omega), hprev _ (by omega),
              if_pos (by omega)]
            congr 1
            omega
        rw [refresh, Function.update_self, hnext, hlag, hprev j hj, if_neg (by omega),
          if_pos (by omega), show b + n + j = b + j + n by omega, hx (b + j)]
      · rw [refresh, Function.update_of_ne hji, hprev j hj]
        by_cases hlt : j < i
        · rw [if_pos hlt, if_pos (by omega)]
        · rw [if_neg hlt, if_neg (by omega)]

/-- All cells in turn: the array has the next `n` terms. -/
theorem refresh_all {x a : Nat → α} {b : Nat} (hm : m < n) (hn : 1 < n) (hx : Obeys f n m x)
    (ha : ∀ j < n, a j = x (b + j)) {j : Nat} (hj : j < n) :
    (List.range n).foldl (refresh f n m) a j = x (b + n + j) := by
  rw [refresh_range hm hn hx ha n (Nat.le_refl n) j hj, if_pos hj]

end LaggedRecurrence
