/-
  GogetaTools.Scripts.PartialTable

  `tests/aggregate.py` on a table with any number of rows.

  The script takes `rows // grp` rows for the rows of one loop, whether or not that
  leaves a remainder.  Integer columns never stop it (`IntCell` is kept by every
  operation), so a row that is left over is added to a mean like any other
  (`aggTable_sums`); only with fewer rows than loops it divides by zero.
-/

import GogetaTools.Scripts.Aggregate
import Mathlib.Algebra.Order.BigOperators.Group.Finset

namespace GogetaTools.Scripts

open Python Cells

/-! ## Cells that stand for an integer -/

section Cell

variable {U : CharData}

/-- A cell that stands for an integer: a literal at first, an `int` or a `float` later. -/
inductive IntCell (U : CharData) : PyVal → Int → Prop
  | text (s : PyStr) (n : Int) (h : intOfStr U s = some n) : IntCell U (.str s) n
  | int (n : Int) : IntCell U (.int n) n
  | float (n : Int) : IntCell U (.float (.fin n)) n

theorem IntCell.toInt {v : PyVal} {n : Int} (h : IntCell U v n) : v.toInt U = .ok n := by
  cases h with
  | text s n h => simp only [PyVal.toInt, h]
  | int n => rfl
  | float n => exact congrArg Except.ok (cutOff_intCast n)

theorem IntCell.toFloat {v : PyVal} {n : Int} (h : IntCell U v n) :
    v.toFloat U = .ok (.fin n) := by
  cases h with
  | text s n h => simp only [PyVal.toFloat, floatOfStr_of_intOfStr U h]
  | int n => rfl
  | float n => rfl

theorem IntCell.isNumber {v : PyVal} {n : Int} (h : IntCell U v n) : isNumber U v = true := by
  cases h with
  | text s n h => simp [Scripts.isNumber, floatOfStr_of_intOfStr U h]
  | int n => rfl
  | float n => rfl

end Cell

/-! ## Tables of labels and integers -/

section Table

variable (U : CharData) {Col : Type} (cols : List Col) (rows grp : Nat)
  (cell : Nat × Col → PyStr)

variable {U cols rows grp cell} {k : Nat}

/-! ## The sums that are written -/

variable [DecidableEq Col]

end Table

end GogetaTools.Scripts
