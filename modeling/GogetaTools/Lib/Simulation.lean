/-
  GogetaTools.Lib.Simulation

  A program component that is called again and again, against a specification
  that answers every call.

  `run` is a sequence of calls of a component that may fault, `answers` the same
  calls of the specification.  `run_refines` is the forward simulation: a relation
  of the two states that every single call keeps, with equal answers, gives equal
  answers over the whole sequence.  The relation may speak about the calls that
  are still to come, which is how a bound on a whole run reaches its steps.
-/

import Mathlib.Tactic.Common

namespace Simulation

variable {σ τ ο ρ : Type}

/-- The calls `ops` from the state `s`; none when one of them faults. -/
def run (step : σ → ο → Option (σ × ρ)) : σ → List ο → Option (σ × List ρ)
  | s, [] => some (s, [])
  | s, op :: ops =>
      (step s op).bind fun a => (run step a.1 ops).map fun b => (b.1, a.2 :: b.2)

/-- The state of the specification after the calls `ops`, and its answers. -/
def answers (spec : τ → ο → τ × ρ) : τ → List ο → τ × List ρ
  | t, [] => (t, [])
  | t, op :: ops =>
      let (t, r) := spec t op
      let (t, rs) := answers spec t ops
      (t, r :: rs)

theorem run_cons {step : σ → ο → Option (σ × ρ)} {s s' : σ} {op : ο} {r : ρ}
    (h : step s op = some (s', r)) (ops : List ο) :
    run step s (op :: ops) = (run step s' ops).map fun a => (a.1, r :: a.2) := by
  rw [run, h]
  rfl

/-- Forward simulation over a whole sequence of calls. -/
theorem run_refines {step : σ → ο → Option (σ × ρ)} {spec : τ → ο → τ × ρ}
    {R : σ → τ → List ο → Prop}
    (hstep : ∀ s t op ops, R s t (op :: ops) →
      ∃ s', step s op = some (s', (spec t op).2) ∧ R s' (spec t op).1 ops) :
    ∀ (ops : List ο) (s : σ) (t : τ), R s t ops →
      ∃ s', run step s ops = some (s', (answers spec t ops).2) ∧ R s' (answers spec t ops).1 [] := by
  intro ops
  induction ops with
  | nil =>
      intro s t h
      exact ⟨s, rfl, h⟩
  | cons op ops ih =>
      intro s t h
      obtain ⟨s₁, hcall, hrel⟩ := hstep s t op ops h
      obtain ⟨s', hrun, hend⟩ := ih s₁ (spec t op).1 hrel
      refine ⟨s', ?_, hend⟩
      rw [run_cons hcall, hrun]
      rfl

/-- A measure that no call makes smaller is not smaller at the end of a run. -/
theorem le_answers {spec : τ → ο → τ × ρ} {size : τ → Nat}
    (h : ∀ t op, size t ≤ size (spec t op).1) (ops : List ο) (t : τ) :
    size t ≤ size (answers spec t ops).1 := by
  induction ops generalizing t with
  | nil => exact Nat.le_refl _
  | cons op ops ih => exact Nat.le_trans (h t op) (ih _)

end Simulation
