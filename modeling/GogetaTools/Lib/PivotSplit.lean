/-
  GogetaTools.Lib.PivotSplit

  Sorting by splitting round a pivot.

  A sort of a list is a sorted permutation of it (`IsSort`).  A list that is split
  round a pivot is sorted by sorting the two parts (`Splits.sort`).  Where the order is
  that of keys, two sorts of one list have the same keys (`IsSort.map_eq`), so they are
  equal if no two keys are (`IsSort.eq_of_injOn`).

  `place` is the step of a split in place: the small elements seen so far stand in
  front of the others, and a new small one changes places with the first of those.
  When all elements are placed the list is split (`splits_of_foldl`).
-/

import Mathlib.Data.List.Rotate
import Mathlib.Order.Lattice

namespace PivotSplit

variable {α κ : Type} (r : α → α → Prop)

/-- `l'` is `l` with no element behind one that must not precede it. -/
structure IsSort (l l' : List α) : Prop where
  perm : l'.Perm l
  sorted : l'.Pairwise r

/-- `left ++ pivot :: right` is the list, split round the pivot. -/
structure Splits (l left : List α) (pivot : α) (right : List α) : Prop where
  perm : (left ++ pivot :: right).Perm l
  left_le : ∀ x ∈ left, r x pivot
  right_le : ∀ y ∈ right, r pivot y

variable {r}

theorem isSort_of_length_le {l : List α} (h : l.length ≤ 1) : IsSort r l l := by
  refine ⟨List.Perm.refl l, ?_⟩
  match l, h with
  | [], _ => exact List.Pairwise.nil
  | [x], _ => exact List.pairwise_singleton _ x

theorem Splits.sort {l left right left' right' : List α} {pivot : α}
    (htrans : ∀ x ∈ l, ∀ y ∈ l, r x pivot → r pivot y → r x y)
    (h : Splits r l left pivot right) (hleft : IsSort r left left')
    (hright : IsSort r right right') : IsSort r l (left' ++ pivot :: right') where
  perm := (hleft.perm.append (hright.perm.cons pivot)).trans h.perm
  sorted := by
    have hright_le : ∀ y ∈ right', r pivot y := fun y hy =>
      h.right_le y (hright.perm.mem_iff.mp hy)
    rw [List.pairwise_append, List.pairwise_cons]
    refine ⟨hleft.sorted, ⟨hright_le, hright.sorted⟩, ?_⟩
    intro x hx y hy
    have hx := hleft.perm.mem_iff.mp hx
    have hxp := h.left_le x hx
    rcases List.mem_cons.mp hy with rfl | hy
    · exact hxp
    · have hmem : ∀ z, z ∈ left ∨ z ∈ right → z ∈ l := fun z hz =>
        h.perm.mem_iff.mp (by simp [or_left_comm, hz])
      exact htrans x (hmem x (.inl hx)) y (hmem y (.inr (hright.perm.mem_iff.mp hy))) hxp
        (hright_le y hy)

section Keys

variable [LinearOrder κ] {key : α → κ}

theorem IsSort.map_eq {l a b : List α} (ha : IsSort (fun x y => key x ≤ key y) l a) (hb : IsSort (fun x y => key x ≤ key y) l b) :
    a.map key = b.map key := by
  have hsorted : ∀ c, IsSort (fun x y => key x ≤ key y) l c → (c.map key).Pairwise fun s t => s ≤ t := fun c hc =>
    List.pairwise_map.mpr hc.sorted
  exact List.Perm.eq_of_pairwise (fun s t _ _ hst hts => le_antisymm hst hts) (hsorted a ha)
    (hsorted b hb) ((ha.perm.trans hb.perm.symm).map key)

theorem IsSort.eq_of_injOn {l a b : List α} (ha : IsSort (fun x y => key x ≤ key y) l a) (hb : IsSort (fun x y => key x ≤ key y) l b)
    (hinj : ∀ x ∈ l, ∀ y ∈ l, key x = key y → x = y) : a = b := by
  refine List.Perm.eq_of_pairwise ?_ ha.sorted hb.sorted (ha.perm.trans hb.perm.symm)
  intro x y hx hy hxy hyx
  exact hinj x (ha.perm.mem_iff.mp hx) y (hb.perm.mem_iff.mp hy) (le_antisymm hxy hyx)

end Keys

/-! ## In place -/

section Place

variable (small : α → Bool)

/-- The small elements and the others, after one more element. -/
def place (s : List α × List α) (x : α) : List α × List α :=
  if small x then (s.1 ++ [x], s.2.rotate 1) else (s.1, s.2 ++ [x])

theorem place_perm (s : List α × List α) (x : α) :
    ((place small s x).1 ++ (place small s x).2).Perm (s.1 ++ s.2 ++ [x]) := by
  rw [place]
  split
  · have hswap : ([x] ++ s.2).Perm (s.2 ++ [x]) := List.perm_append_comm
    rw [List.append_assoc, List.append_assoc]
    exact (((List.rotate_perm s.2 1).append_left [x]).trans hswap).append_left s.1
  · rw [List.append_assoc]

variable {small}

theorem foldl_place_perm :
    ∀ (xs : List α) (s : List α × List α),
      ((xs.foldl (place small) s).1 ++ (xs.foldl (place small) s).2).Perm (s.1 ++ s.2 ++ xs) := by
  intro xs
  induction xs with
  | nil => intro s; rw [List.append_nil]; exact List.Perm.refl _
  | cons x xs ih =>
      intro s
      have hstep := (place_perm small s x).append_right xs
      rw [List.append_assoc (s.1 ++ s.2), List.singleton_append] at hstep
      exact (ih (place small s x)).trans hstep

/-- The elements are where they belong. -/
def Placed (small : α → Bool) (s : List α × List α) : Prop :=
  (∀ x ∈ s.1, small x = true) ∧ ∀ x ∈ s.2, small x = false

theorem Placed.place {s : List α × List α} (h : Placed small s) (x : α) :
    Placed small (place small s x) := by
  cases hx : small x with
  | true =>
      rw [PivotSplit.place, if_pos hx]
      refine ⟨?_, fun y hy => h.2 y (List.mem_rotate.mp hy)⟩
      intro y hy
      rcases List.mem_append.mp hy with hy | hy
      · exact h.1 y hy
      · rw [List.mem_singleton.mp hy, hx]
  | false =>
      rw [PivotSplit.place, if_neg (Bool.eq_false_iff.mp hx)]
      refine ⟨h.1, ?_⟩
      intro y hy
      rcases List.mem_append.mp hy with hy | hy
      · exact h.2 y hy
      · rw [List.mem_singleton.mp hy, hx]

theorem placed_foldl (xs : List α) {s : List α × List α} (h : Placed small s) :
    Placed small (xs.foldl (place small) s) := by
  induction xs generalizing s with
  | nil => exact h
  | cons x xs ih => exact ih (h.place x)

end Place

/-- Elements in order of their tests are split round the pivot that they were tested with. -/
theorem splits_of_foldl {small : α → Bool} {pivot : α} {xs smalls others left : List α}
    (hfold : xs.foldl (place small) ([], []) = (smalls, others))
    (hsmall : ∀ x ∈ xs, small x = true → r x pivot) (hother : ∀ x ∈ xs, small x = false → r pivot x)
    (hleft : left.Perm smalls) : Splits r (pivot :: xs) left pivot others := by
  have hperm := @foldl_place_perm _ small xs ([], [])
  have hplaced := @placed_foldl _ small xs ([], []) ⟨by simp, by simp⟩
  rw [hfold] at hperm hplaced
  have hparts : (left ++ others).Perm xs := (hleft.append_right others).trans hperm
  refine ⟨?_, ?_, ?_⟩
  · have hmid : (left ++ pivot :: others).Perm (pivot :: (left ++ others)) := List.perm_middle
    exact hmid.trans (hparts.cons pivot)
  · intro x hx
    exact hsmall x (hparts.mem_iff.mp (List.mem_append_left _ hx)) (hplaced.1 x (hleft.mem_iff.mp hx))
  · intro x hx
    exact hother x (hparts.mem_iff.mp (List.mem_append_right _ hx)) (hplaced.2 x hx)

end PivotSplit
