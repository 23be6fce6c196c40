/-
  GogetaTools.Lib.Inevitable

  What every run of a transition relation comes to.

  `Inevitable Step Q s`: from `s` no run can go on for ever or stop before it is
  in a state with `Q`.  A state that faults is one without a successor, so this
  excludes faults on the way as well.

    * `Inevitable.trans`  — sequential composition,
    * `inevitable_system` — components that step in any order, each on a part of
                            the store of its own: what each comes to by itself
                            they come to together,
    * `inevitable_threads` — threads on one store, with an invariant and a rank
                            each that the others leave as they are.
-/

import Mathlib.Algebra.Order.BigOperators.Group.Finset
import Mathlib.Data.DFinsupp.WellFounded
import Mathlib.Data.Fintype.Basic
import Mathlib.Logic.Function.Basic

namespace EveryRun

variable {σ : Type}

inductive Inevitable (Step : σ → σ → Prop) (Q : σ → Prop) : σ → Prop
  | now {s : σ} : Q s → Inevitable Step Q s
  | later {s : σ} : (∃ t, Step s t) → (∀ t, Step s t → Inevitable Step Q t) →
      Inevitable Step Q s

variable {Step : σ → σ → Prop} {Q R : σ → Prop}

theorem Inevitable.trans {s : σ} (h : Inevitable Step Q s)
    (hnext : ∀ t, Q t → Inevitable Step R t) : Inevitable Step R s := by
  induction h with
  | now hq => exact hnext _ hq
  | later hex _ ih => exact Inevitable.later hex ih

theorem Inevitable.mono {s : σ} (h : Inevitable Step Q s) (hqr : ∀ t, Q t → R t) :
    Inevitable Step R s :=
  h.trans fun t hq => Inevitable.now (hqr t hq)

/-- A state that has to be gone through. -/
theorem Inevitable.step {s t : σ} (hex : Step s t) (honly : ∀ t', Step s t' → t' = t)
    (h : Inevitable Step Q t) : Inevitable Step Q s :=
  Inevitable.later ⟨t, hex⟩ fun t' ht' => by rw [honly t' ht']; exact h

/-- Nothing is inevitable in a state that faults. -/
theorem not_inevitable_of_stuck {s : σ} (hq : ¬ Q s) (hstuck : ∀ t, ¬ Step s t) :
    ¬ Inevitable Step Q s := by
  intro h
  cases h with
  | now hq' => exact hq hq'
  | later hex _ =>
      obtain ⟨t, ht⟩ := hex
      exact hstuck t ht

/-- One step towards it, not taken from a state that is there already. -/
theorem Inevitable.of_step {s t : σ} (h : Inevitable Step Q s) (hq : ¬ Q s) (hst : Step s t) :
    Inevitable Step Q t := by
  cases h with
  | now hq' => exact absurd hq' hq
  | later _ hall => exact hall t hst

/-- What is inevitable in two ways is so in one state, if it is an end. -/
theorem Inevitable.common {s : σ} (h : Inevitable Step Q s) (h' : Inevitable Step R s)
    (hq : ∀ t, Q t → ∀ u, ¬ Step t u) (hr : ∀ t, R t → ∀ u, ¬ Step t u) : ∃ t, Q t ∧ R t := by
  induction h with
  | now hs =>
      cases h' with
      | now hs' => exact ⟨_, hs, hs'⟩
      | later hex _ =>
          obtain ⟨t, ht⟩ := hex
          exact absurd ht (hq _ hs t)
  | later hex _ ih =>
      obtain ⟨t, ht⟩ := hex
      cases h' with
      | now hs' => exact absurd ht (hr _ hs' t)
      | later _ hall => exact ih t ht (hall t ht)

/-- The steps towards an inevitable state are well-founded. -/
theorem wellFounded_towards (Step : σ → σ → Prop) (Q : σ → Prop) :
    WellFounded fun t s => Inevitable Step Q s ∧ ¬ Q s ∧ Step s t := by
  constructor
  intro s
  by_cases hs : Inevitable Step Q s
  · induction hs with
    | now hq =>
        constructor
        rintro t ⟨-, hnq, -⟩
        exact absurd hq hnq
    | later _ _ ih =>
        constructor
        rintro t ⟨-, -, hst⟩
        exact ih t hst
  · constructor
    rintro t ⟨hs', -⟩
    exact absurd hs' hs

/-! ## Components with a part of the store each -/

/-- The part of the store each component works on. -/
structure Parts (ι Store Part : Type) where
  get : ι → Store → Part
  put : ι → Part → Store → Store

/-- What is put in one part leaves the others as they are. -/
structure Parts.Independent {ι Store Part : Type} (parts : Parts ι Store Part) : Prop where
  get_put : ∀ i p s, parts.get i (parts.put i p s) = p
  get_put_ne : ∀ i j p s, j ≠ i → parts.get j (parts.put i p s) = parts.get j s

section System

variable {ι : Type} [LinearOrder ι] {Local Store Part : Type} (parts : Parts ι Store Part)
  (step : ι → Local × Part → Local × Part → Prop)

/-- Some component takes a step. -/
def SystemStep (x y : (ι → Local) × Store) : Prop :=
  ∃ i l p, step i (x.1 i, parts.get i x.2) (l, p) ∧
    y = (Function.update x.1 i l, parts.put i p x.2)

/-- What component `i` sees. -/
def view (x : (ι → Local) × Store) (i : ι) : Local × Part := (x.1 i, parts.get i x.2)

variable {parts}

theorem view_step (hparts : parts.Independent) (x : (ι → Local) × Store) (i : ι) (l : Local) (p : Part) :
    view parts (Function.update x.1 i l, parts.put i p x.2) =
      Function.update (view parts x) i (l, p) := by
  funext j
  by_cases h : j = i
  · subst h
    simp [view, hparts.get_put]
  · simp [view, h, hparts.get_put_ne i j p x.2 h]

/-- One component's step towards its end is a step down in the product order. -/
theorem wellFounded_system [Finite ι] (Q : ι → Local × Part → Prop) :
    WellFounded (Pi.Lex (· < ·) fun {i : ι} (v' v : Local × Part) =>
      Inevitable (step i) (Q i) v ∧ ¬ Q i v ∧ step i v v') :=
  Pi.Lex.wellFounded (· < ·) fun i => wellFounded_towards (step i) (Q i)

/-- Whatever the order of the steps, every component comes to what it comes to
    by itself. -/
theorem inevitable_system [Finite ι] (hparts : parts.Independent) {Q : ι → Local × Part → Prop}
    (hfinal : ∀ i v, Q i v → ∀ v', ¬ step i v v') {x : (ι → Local) × Store}
    (h : ∀ i, Inevitable (step i) (Q i) (view parts x i)) :
    Inevitable (SystemStep parts step) (fun y => ∀ i, Q i (view parts y i)) x := by
  generalize hview : view parts x = v at h
  induction v using (wellFounded_system step Q).induction generalizing x with
  | _ v ih =>
      subst hview
      by_cases hall : ∀ i, Q i (view parts x i)
      · exact Inevitable.now hall
      · apply Inevitable.later
        · -- a component that is not at its end can step
          obtain ⟨i, hi⟩ := not_forall.mp hall
          cases h i with
          | now hq => exact absurd hq hi
          | later hex _ =>
              obtain ⟨⟨l, p⟩, hstep⟩ := hex
              exact ⟨_, i, l, p, hstep, rfl⟩
        · rintro y ⟨i, l, p, hstep, rfl⟩
          have hi : ¬ Q i (view parts x i) := fun hq => hfinal i _ hq _ hstep
          refine ih (view parts (Function.update x.1 i l, parts.put i p x.2)) ?_ rfl ?_
          · rw [view_step hparts]
            refine ⟨i, ?_, ?_⟩
            · intro j hj
              exact Function.update_of_ne (ne_of_lt hj) _ _
            · rw [Function.update_self]
              exact ⟨h i, hi, hstep⟩
          · intro j
            rw [view_step hparts]
            by_cases hji : j = i
            · subst hji
              rw [Function.update_self]
              exact (h j).of_step hi hstep
            · rw [Function.update_of_ne hji]
              exact h j

end System

/-! ## Threads on one store -/

section Threads

variable {ι : Type} [Fintype ι] [DecidableEq ι] {Local Store : Type}
  (step : ι → Local × Store → Local × Store → Prop)

/-- Some thread takes a step on the store they share. -/
def ThreadsStep (x y : (ι → Local) × Store) : Prop :=
  ∃ i l s, step i (x.1 i, x.2) (l, s) ∧ y = (Function.update x.1 i l, s)

/-- The threads keep their invariants and come to their ends, and do not interfere: a
    step leaves the invariants and the ranks of the other threads as they are. -/
structure NonInterfering (inv : ι → Local × Store → Prop) (rank : ι → Local × Store → Nat)
    (final : ι → Local → Prop) : Prop where
  progress : ∀ i v, inv i v → final i v.1 ∨ ∃ v', step i v v'
  keeps : ∀ i v v', inv i v → step i v v' → inv i v' ∧ rank i v' < rank i v
  others : ∀ i v v', inv i v → step i v v' → ∀ j, j ≠ i → ∀ l, inv j (l, v.2) →
    inv j (l, v'.2) ∧ rank j (l, v'.2) = rank j (l, v.2)

variable {step}

theorem NonInterfering.descends {inv : ι → Local × Store → Prop} {rank : ι → Local × Store → Nat}
    {final : ι → Local → Prop} (h : NonInterfering step inv rank final)
    {x y : (ι → Local) × Store} (hinv : ∀ i, inv i (x.1 i, x.2)) (hstep : ThreadsStep step x y) :
    (∀ i, inv i (y.1 i, y.2)) ∧
      ∑ i, rank i (y.1 i, y.2) < ∑ i, rank i (x.1 i, x.2) := by
  obtain ⟨i, l, s, hi, rfl⟩ := hstep
  obtain ⟨hkeep, hlt⟩ := h.keeps i _ _ (hinv i) hi
  -- the thread that moves, and those that do not
  have hself : inv i (Function.update x.1 i l i, s) ∧
      rank i (Function.update x.1 i l i, s) < rank i (x.1 i, x.2) := by
    rw [Function.update_self]
    exact ⟨hkeep, hlt⟩
  have hother : ∀ j, j ≠ i → inv j (Function.update x.1 i l j, s) ∧
      rank j (Function.update x.1 i l j, s) = rank j (x.1 j, x.2) := by
    intro j hj
    rw [Function.update_of_ne hj]
    exact h.others i _ _ (hinv i) hi j hj _ (hinv j)
  refine ⟨?_, ?_⟩
  · intro j
    by_cases hj : j = i
    · subst hj
      exact hself.1
    · exact (hother j hj).1
  · -- no rank grows and one gets smaller
    apply Finset.sum_lt_sum
    · intro j _
      by_cases hj : j = i
      · subst hj
        exact Nat.le_of_lt hself.2
      · exact Nat.le_of_eq (hother j hj).2
    · exact ⟨i, Finset.mem_univ i, hself.2⟩

/-- Threads that do not interfere all come to their ends, in any order of their steps. -/
theorem inevitable_threads {inv : ι → Local × Store → Prop} {rank : ι → Local × Store → Nat}
    {final : ι → Local → Prop} (h : NonInterfering step inv rank final)
    {x : (ι → Local) × Store} (hinv : ∀ i, inv i (x.1 i, x.2)) :
    Inevitable (ThreadsStep step) (fun y => ∀ i, inv i (y.1 i, y.2) ∧ final i (y.1 i)) x := by
  generalize hn : ∑ i, rank i (x.1 i, x.2) = n
  induction n using Nat.strong_induction_on generalizing x with
  | _ n ih =>
      by_cases hall : ∀ i, final i (x.1 i)
      · exact Inevitable.now fun i => ⟨hinv i, hall i⟩
      · apply Inevitable.later
        · obtain ⟨i, hi⟩ := not_forall.mp hall
          obtain ⟨v', hv'⟩ := (h.progress i _ (hinv i)).resolve_left hi
          exact ⟨_, i, v'.1, v'.2, hv', rfl⟩
        · intro y hstep
          obtain ⟨hinv', hlt⟩ := h.descends hinv hstep
          exact ih _ (hn ▸ hlt) hinv' rfl

end Threads

end EveryRun
