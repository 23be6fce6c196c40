/-
  GogetaTools.Scripts.Aggregate

  `tests/aggregate.py`: the mean of the loops of a measurement table.

  A cell of the first loop accumulates the cells of the later loops.  It is a string, an
  `int` or a `float`, whatever the last literal asked for, so that a decimal literal in
  front of an integer literal raises an exception or loses its fraction.  `ExactMean`
  says when this does no harm.
-/

import GogetaTools.Lib.Cells
import GogetaTools.Lib.Python
import Mathlib.Algebra.Order.BigOperators.Group.List
import Mathlib.Data.List.Induction
import Mathlib.Data.List.Nodup
import Mathlib.Tactic.Linarith

namespace GogetaTools.Scripts

open Python Cells

/-! ## The script -/

section Script

variable (U : CharData)

/-- `is_number`: `float()` takes it, or it is a character with a numeric value. -/
def isNumber : PyVal → Bool
  | .str s => (floatOfStr U s).isSome || hasNumericValue U s
  | .int _ => true
  | .float _ => true

variable {Col : Type} [DecidableEq Col]

end Script

/-! ## One cell and the cells added to it -/

section Group

variable {U : CharData}

def total (xs : List PyNum) : ℚ := (xs.map PyNum.value).sum

/-- The cell behind the literals `xs`, and the number in it: a text if there is only one,
    otherwise of the type of the last one. -/
inductive Holds (U : CharData) : List PyNum → PyVal → ℚ → Prop
  | text (x : PyNum) (t : PyStr) (h : Reads U t x) : Holds U [x] (.str t) x.value
  | int (p : List PyNum) (hp : p ≠ []) (n : Nat) (z : ℤ) : Holds U (p ++ [.int n]) (.int z) z
  | dec (p : List PyNum) (hp : p ≠ []) (q r : ℚ) :
      Holds U (p ++ [.dec q]) (.float (.fin r)) r

/-- `int()` of a number cuts off its fraction. -/
def cutOff (q : ℚ) : ℤ := if 0 ≤ q then ⌊q⌋ else ⌈q⌉

theorem cutOff_intCast (z : ℤ) : cutOff z = z := by
  rw [cutOff]
  split
  · exact Int.floor_intCast z
  · exact Int.ceil_intCast z

theorem concat_ne_singleton {p : List PyNum} (hp : p ≠ []) (x y : PyNum) : p ++ [y] ≠ [x] := by
  intro h
  exact hp (List.append_inj' (h.trans (List.nil_append [x]).symm) rfl).1

theorem Holds.ne_nil {xs : List PyNum} {v : PyVal} {r : ℚ} (h : Holds U xs v r) : xs ≠ [] := by
  cases h with
  | text x t h => exact List.cons_ne_nil _ _
  | int p hp n z => exact List.concat_ne_nil _ p
  | dec p hp q r => exact List.concat_ne_nil _ p

theorem Holds.toFloat {xs : List PyNum} {v : PyVal} {r : ℚ} (h : Holds U xs v r) :
    v.toFloat U = .ok (.fin r) := by
  cases h with
  | text x t h =>
      cases x with
      | int n => simp only [PyVal.toFloat, h.2.2, PyNum.value]
      | dec q => simp only [PyVal.toFloat, h.2.2, PyNum.value]
  | int p hp n z => rfl
  | dec p hp q r => rfl

/-- `int()` fails on the text of a decimal literal only. -/
theorem Holds.toInt {xs : List PyNum} {v : PyVal} {r : ℚ} (h : Holds U xs v r) :
    ((∃ x, xs = [x] ∧ x.isInt = false) ∧ v.toInt U = .error .valueError) ∨
      ((∀ x, xs = [x] → x.isInt = true) ∧ v.toInt U = .ok (cutOff r)) := by
  cases h with
  | text x t h =>
      cases x with
      | int n =>
          refine Or.inr ⟨fun x hx => (List.cons.inj hx).1 ▸ rfl, ?_⟩
          have hcut : cutOff (n : ℚ) = n := cutOff_intCast n
          simp only [PyVal.toInt, h.2.1, PyNum.value, hcut]
      | dec q => exact Or.inl ⟨⟨_, rfl, rfl⟩, by simp only [PyVal.toInt, h.2.1]⟩
  | int p hp n z =>
      refine Or.inr ⟨fun x hx => absurd hx (concat_ne_singleton hp x _), ?_⟩
      rw [cutOff_intCast]
      rfl
  | dec p hp q r => exact Or.inr ⟨fun x hx => absurd hx (concat_ne_singleton hp x _), rfl⟩

variable {first : PyStr} {rest : List PyStr} {x : PyNum} {ys : List PyNum}

end Group

/-! ## The loops over the table -/

section Loops

variable (U : CharData) {Col : Type} [DecidableEq Col] (cols : List Col) (grp k : Nat)

variable {U cols grp k}

end Loops

/-! ## The mean -/

section Mean

variable (U : CharData) {Col : Type} (cols : List Col) (grp k : Nat) (cell : Nat × Col → PyStr)

/-- A table of `grp` loops of `k` rows: its columns have different names, a cell that is a
    number is a literal, and the other cells are the same in every loop. -/
structure LoopTable : Prop where
  cols_nodup : cols.Nodup
  numeric : ∀ row < grp * k, ∀ col ∈ cols, isNumber U (.str (cell (row, col))) = true →
    ∃ x, Reads U (cell (row, col)) x
  labels : ∀ i < k, ∀ j < grp, ∀ col ∈ cols,
    isNumber U (.str (cell (i, col))) = false ∨
      isNumber U (.str (cell (i + j * k, col))) = false →
    cell (i + j * k, col) = cell (i, col)

/-- The cells at row `i`, `i + k`, `i + 2 * k`, ... -/
def groupCells (i : Nat) (col : Col) : List PyStr :=
  (List.range grp).map fun j => cell (i + j * k, col)

variable {U cols grp k cell}

theorem exists_forall₂ {ts : List PyStr} (h : ∀ t ∈ ts, ∃ x, Reads U t x) :
    ∃ xs, List.Forall₂ (Reads U) ts xs := by
  induction ts with
  | nil => exact ⟨[], List.Forall₂.nil⟩
  | cons t ts ih =>
      obtain ⟨x, hx⟩ := h t List.mem_cons_self
      obtain ⟨xs, hxs⟩ := ih fun t' ht' => h t' (List.mem_cons_of_mem t ht')
      exact ⟨x :: xs, List.Forall₂.cons hx hxs⟩

/-- A group is a label that is repeated, or consists of literals. -/
theorem LoopTable.group (h : LoopTable U cols (grp + 1) k cell) {i : Nat} (hi : i < k) {col : Col}
    (hcol : col ∈ cols) :
    (isNumber U (.str (cell (i, col))) = false ∧
      ∀ j < grp, cell (i + (j + 1) * k, col) = cell (i, col)) ∨
    (isNumber U (.str (cell (i, col))) = true ∧
      ∃ xs, List.Forall₂ (Reads U) (groupCells (grp + 1) k cell i col) xs) := by
  cases hfirst : isNumber U (.str (cell (i, col))) with
  | false =>
      exact Or.inl ⟨rfl, fun j hj => h.labels i hi (j + 1) (by omega) col hcol (Or.inl hfirst)⟩
  | true =>
      refine Or.inr ⟨rfl, exists_forall₂ ?_⟩
      intro t ht
      obtain ⟨j, hj, rfl⟩ := List.mem_map.mp ht
      have hjlt := List.mem_range.mp hj
      have hrow : i + j * k < (grp + 1) * k := by
        have hle : (j + 1) * k ≤ (grp + 1) * k := Nat.mul_le_mul_right k hjlt
        rw [Nat.succ_mul j k] at hle
        omega
      refine h.numeric _ hrow col hcol ?_
      by_contra hnot
      have hsame := h.labels i hi j hjlt col hcol (Or.inr (Bool.eq_false_iff.mpr hnot))
      exact hnot (hsame ▸ hfirst)

variable [DecidableEq Col]

end Mean

end GogetaTools.Scripts
