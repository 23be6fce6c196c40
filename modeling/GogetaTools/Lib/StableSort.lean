/-
  GogetaTools.Lib.StableSort

  Stable sorting by a key.

  `IsStableSort key l l'` says that `l'` is sorted by `key` and has, for every
  key, the same elements as `l` in the same order.  This determines `l'`
  (`IsStableSort.unique`), so any program that sorts stably computes
  `stableSort`, and it commutes with taking sublists by a predicate
  (`stableSort_filter`).
-/

import Mathlib.Order.Defs.LinearOrder
import Mathlib.Order.Basic
import Mathlib.Data.List.Basic
import Mathlib.Order.Lattice

namespace StableSort

variable {α κ : Type} [LinearOrder κ] (key : α → κ)

/-- The comparison of the keys. -/
def keyLe (a b : α) : Bool := decide (key a ≤ key b)

structure IsStableSort (l l' : List α) : Prop where
  sorted : l'.Pairwise fun a b => key a ≤ key b
  stable : ∀ t, l'.filter (fun a => key a = t) = l.filter fun a => key a = t

def stableSort (l : List α) : List α := l.mergeSort (keyLe key)

variable {key}

theorem IsStableSort.of_sorted {l : List α} (h : l.Pairwise fun a b => key a ≤ key b) :
    IsStableSort key l l := ⟨h, fun _ => rfl⟩

/-- Sorted lists that agree key by key are equal. -/
theorem eq_of_sorted {l l' : List α} (hl : l.Pairwise fun a b => key a ≤ key b)
    (hl' : l'.Pairwise fun a b => key a ≤ key b)
    (h : ∀ t, l.filter (fun a => key a = t) = l'.filter fun a => key a = t) : l = l' := by
  have hmem : ∀ {l l' : List α}, (∀ t, l.filter (fun a => key a = t) =
      l'.filter fun a => key a = t) → ∀ a ∈ l, a ∈ l' := by
    intro l l' h a ha
    have : a ∈ l.filter fun b => key b = key a := List.mem_filter.mpr ⟨ha, by simp⟩
    rw [h (key a)] at this
    exact (List.mem_filter.mp this).1
  induction l generalizing l' with
  | nil =>
      cases l' with
      | nil => rfl
      | cons y l' => exact absurd (hmem (fun t => (h t).symm) y (List.mem_cons_self ..)) (by simp)
  | cons x l ih =>
      cases l' with
      | nil => exact absurd (hmem h x (List.mem_cons_self ..)) (by simp)
      | cons y l' =>
          rw [List.pairwise_cons] at hl hl'
          -- both heads have the least key
          have hxy : key x = key y := by
            apply le_antisymm
            · rcases List.mem_cons.mp (hmem (fun t => (h t).symm) y (List.mem_cons_self ..)) with
                heq | hy
              · exact le_of_eq (congrArg key heq.symm)
              · exact hl.1 y hy
            · rcases List.mem_cons.mp (hmem h x (List.mem_cons_self ..)) with heq | hx
              · exact le_of_eq (congrArg key heq.symm)
              · exact hl'.1 x hx
          have hhead := h (key x)
          rw [List.filter_cons_of_pos (by simp), List.filter_cons_of_pos (by simp [hxy])] at hhead
          have heq : x = y := (List.cons.inj hhead).1
          subst heq
          congr 1
          apply ih hl.2 hl'.2
          intro t
          have ht := h t
          by_cases hxt : key x = t
          · rw [List.filter_cons_of_pos (by simp [hxt]), List.filter_cons_of_pos (by simp [hxt])]
              at ht
            exact (List.cons.inj ht).2
          · rwa [List.filter_cons_of_neg (by simp [hxt]), List.filter_cons_of_neg (by simp [hxt])]
              at ht

theorem IsStableSort.unique {l a b : List α} (ha : IsStableSort key l a)
    (hb : IsStableSort key l b) : a = b :=
  eq_of_sorted ha.sorted hb.sorted fun t => (ha.stable t).trans (hb.stable t).symm

theorem IsStableSort.perm {l l' : List α} (h : IsStableSort key l l') : l'.Perm l := by
  classical
  rw [List.perm_iff_count]
  intro a
  have hcount : ∀ xs : List α, xs.count a = (xs.filter fun b => key b = key a).count a := by
    intro xs
    rw [List.count_filter (by simp)]
  rw [hcount l', hcount l, h.stable]

theorem IsStableSort.filter {l l' : List α} (h : IsStableSort key l l') (p : α → Bool) :
    IsStableSort key (l.filter p) (l'.filter p) := by
  refine ⟨h.sorted.filter p, ?_⟩
  intro t
  rw [List.filter_comm, h.stable, List.filter_comm]

/-- Merging keeps, for every key, the left elements in front of the right ones. -/
theorem filter_merge (t : κ) {xs ys : List α} (hx : xs.Pairwise fun a b => key a ≤ key b) :
    (List.merge xs ys (keyLe key)).filter (fun a => key a = t) =
      xs.filter (fun a => key a = t) ++ ys.filter fun a => key a = t := by
  induction xs, ys using List.merge.induct (keyLe key) with
  | case1 ys => simp
  | case2 xs hne => simp
  | case3 x xs y ys hxy ih =>
      rw [List.cons_merge_cons_pos _ _ _ hxy, List.filter_cons, List.filter_cons,
        ih (List.pairwise_cons.mp hx).2]
      split <;> rfl
  | case4 x xs y ys hxy ih =>
      rw [List.cons_merge_cons_neg _ _ _ hxy, List.filter_cons, ih hx]
      have hlt : key y < key x := by simpa [keyLe] using hxy
      by_cases hy : key y = t
      · -- the keys on the left are all larger
        have hnil : (x :: xs).filter (fun a => key a = t) = [] := by
          rw [List.filter_eq_nil_iff]
          intro a ha hat
          have hat' : key a = t := of_decide_eq_true hat
          have hle : key x ≤ key a := by
            rcases List.mem_cons.mp ha with rfl | ha
            · exact le_refl _
            · exact (List.pairwise_cons.mp hx).1 a ha
          exact absurd (hle.trans_eq (hat'.trans hy.symm)) (not_le_of_gt hlt)
        rw [hnil, if_pos (by simp [hy]), List.nil_append, List.nil_append,
          List.filter_cons_of_pos (by simp [hy])]
      · have hrest : (y :: ys).filter (fun a => key a = t) = ys.filter fun a => key a = t :=
          List.filter_cons_of_neg (by simp [hy])
        rw [if_neg (by simp [hy]), hrest]

theorem keyLe_trans (a b c : α) (hab : keyLe key a b = true) (hbc : keyLe key b c = true) :
    keyLe key a c = true := by
  simp only [keyLe, decide_eq_true_eq] at *
  exact le_trans hab hbc

theorem keyLe_total (a b : α) : (keyLe key a b || keyLe key b a) = true := by
  simp only [keyLe, Bool.or_eq_true, decide_eq_true_eq]
  exact le_total _ _

theorem pairwise_keyLe {l : List α} :
    l.Pairwise (fun a b => keyLe key a b = true) ↔ l.Pairwise fun a b => key a ≤ key b := by
  simp only [keyLe, decide_eq_true_eq]

theorem IsStableSort.merge {xs ys xs' ys' : List α} (hx : IsStableSort key xs xs')
    (hy : IsStableSort key ys ys') :
    IsStableSort key (xs ++ ys) (List.merge xs' ys' (keyLe key)) := by
  constructor
  · exact pairwise_keyLe.mp (List.pairwise_merge keyLe_trans keyLe_total xs' ys'
      (pairwise_keyLe.mpr hx.sorted) (pairwise_keyLe.mpr hy.sorted))
  · intro t
    rw [filter_merge t hx.sorted, hx.stable, hy.stable, List.filter_append]

theorem isStableSort_stableSort (l : List α) : IsStableSort key l (stableSort key l) := by
  constructor
  · exact pairwise_keyLe.mp (List.pairwise_mergeSort keyLe_trans keyLe_total l)
  · intro t
    have hpw : (l.filter fun a => key a = t).Pairwise fun a b => keyLe key a b = true := by
      rw [pairwise_keyLe]
      apply List.Pairwise.imp_of_mem (R := fun _ _ => True)
      · intro a b ha hb _
        have ha' : key a = t := by simpa using (List.mem_filter.mp ha).2
        have hb' : key b = t := by simpa using (List.mem_filter.mp hb).2
        rw [ha', hb']
      · exact List.pairwise_of_forall fun _ _ => trivial
    have hsub := (List.sublist_mergeSort keyLe_trans keyLe_total hpw List.filter_sublist).filter
      fun a => key a = t
    rw [List.filter_filter] at hsub
    simp only [Bool.and_self] at hsub
    symm
    apply hsub.eq_of_length
    exact ((List.mergeSort_perm l (keyLe key)).filter _).length_eq.symm

theorem stableSort_eq {l l' : List α} (h : IsStableSort key l l') : stableSort key l = l' :=
  (isStableSort_stableSort l).unique h

theorem stableSort_perm (key : α → κ) (l : List α) : (stableSort key l).Perm l :=
  (isStableSort_stableSort l).perm

theorem stableSort_filter (key : α → κ) (l : List α) (p : α → Bool) :
    (stableSort key l).filter p = stableSort key (l.filter p) :=
  (stableSort_eq ((isStableSort_stableSort l).filter p)).symm

theorem map_stableSort {β : Type} (key : α → κ) (f : β → α) (l : List β) :
    (stableSort (fun b => key (f b)) l).map f = stableSort key (l.map f) :=
  List.map_mergeSort fun _ _ _ _ => rfl

/-- A list in some order is, stably sorted, in the order of key and position. -/
theorem pairwise_stableSort (key : α → κ) {l : List α} {r : α → α → Prop} (h : l.Pairwise r) :
    (stableSort key l).Pairwise fun a b => key a < key b ∨ (key a = key b ∧ r a b) := by
  have hsort : IsStableSort key l (stableSort key l) := isStableSort_stableSort l
  rw [List.pairwise_iff_forall_sublist]
  intro a b hab
  rcases lt_or_eq_of_le (List.pairwise_iff_forall_sublist.mp hsort.sorted hab) with hlt | heq
  · exact Or.inl hlt
  · -- of equal keys, `a` is in front of `b` in the list already
    have hsub := hab.filter fun c => key c = key a
    rw [hsort.stable, List.filter_cons_of_pos (by simp), List.filter_cons_of_pos (by simp [heq]),
      List.filter_nil] at hsub
    exact Or.inr ⟨heq, List.pairwise_iff_forall_sublist.mp h (hsub.trans List.filter_sublist)⟩

end StableSort
