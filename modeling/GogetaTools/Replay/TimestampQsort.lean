/-
  GogetaTools.Replay.TimestampQsort

  `_trace_infomap_qsort_by_ts`: the quick sort that the merge sort of a worker's
  records has taken the place of.

  The array is as in `Replay.TimestampSort`.  A partition splits its stretch round
  the first element (`partitionByTs_spec`), so the sort ends inside the array with
  the stretch sorted and the rest as it was (`qsortByTs_spec`), and the two sorts
  leave the same timestamps at the same places (`qsortByTs_agrees`).
-/

import GogetaTools.Lib.PivotSplit
import GogetaTools.Replay.TimestampSort

namespace GogetaTools.Replay

open PivotSplit StableSort

section Definitions

variable {P : Type} (ts : P → Word)

/-- The loop of `_partition_by_ts`, `for (i = low + 1; i <= high; i++)`, from index `i` on. -/
def partitionLoop (pivot : P) (high : Nat) : Nat → Nat → Nat → List P → Option (Nat × List P)
  | 0, _, _, _ => none
  | fuel + 1, i, lowIndex, a =>
      if i ≤ high then do
        let x ← a[i]?
        if ts x < ts pivot then
          let lowIndex := lowIndex + 1
          if i ≠ lowIndex then
            let y ← a[lowIndex]?
            partitionLoop pivot high fuel (i + 1) lowIndex ((a.set i y).set lowIndex x)
          else partitionLoop pivot high fuel (i + 1) lowIndex a
        else partitionLoop pivot high fuel (i + 1) lowIndex a
      else some (lowIndex, a)

def partitionByTs (a : List P) (low high : Nat) : Option (Nat × List P) := do
  let pivot ← a[low]?
  let (lowIndex, a) ← partitionLoop ts pivot high (a.length + 1) (low + 1) low a
  let x ← a[lowIndex]?
  some (lowIndex, (a.set low x).set lowIndex pivot)

/-- `_trace_infomap_qsort_by_ts`, recursing at most `fuel` deep. -/
def qsortByTs : Nat → List P → Nat → Nat → Option (List P)
  | 0, _, _, _ => none
  | fuel + 1, a, low, high =>
      if low < high then do
        let (pivot, a) ← partitionByTs ts a low high
        let a ← (if pivot > 0 then qsortByTs fuel a low (pivot - 1) else some a)
        qsortByTs fuel a (pivot + 1) high
      else some a

/-- The call in `trace_container_sort_infomap_by_ts` that is commented out. -/
def qsortInfomapByTs (a : List P) : Option (List P) :=
  qsortByTs ts (a.length + 1) a 0 (lastIndex a.length)

end Definitions

variable {P : Type} {ts : P → Word}

/-! ## The partition -/

theorem set_middle (xs ys : List P) (x y : P) : (xs ++ x :: ys).set xs.length y = xs ++ y :: ys := by
  rw [List.set_append_right _ _ (Nat.le_refl _), Nat.sub_self, List.set_cons_zero]

/-- Two elements change places. -/
theorem set_set_middle (xs ys zs : List P) (x y : P) {i : Nat} (hi : i = xs.length + 1 + ys.length) :
    ((xs ++ x :: ys ++ y :: zs).set i x).set xs.length y = xs ++ y :: ys ++ x :: zs := by
  have hlen : i = (xs ++ x :: ys).length := by
    rw [List.length_append, List.length_cons, hi]
    omega
  rw [hlen, set_middle, List.append_assoc, List.cons_append, set_middle, List.append_assoc,
    List.cons_append]

/-- The order of the sort. -/
def NotLater (ts : P → Word) (x y : P) : Prop := tsKey ts x ≤ tsKey ts y

/-- The test of the loop. -/
def earlier (ts : P → Word) (pivot x : P) : Bool := decide (tsKey ts x < tsKey ts pivot)

/-- One turn of the loop places one record. -/
theorem partitionLoop_cons {pivot x : P} {high i lowIndex : Nat} (fuel : Nat) (front smalls others xs : List P)
    (hlow : lowIndex + 1 = front.length + smalls.length)
    (hi : i = front.length + smalls.length + others.length) (hle : i ≤ high) :
    partitionLoop ts pivot high (fuel + 1) i lowIndex (front ++ smalls ++ others ++ x :: xs) =
      partitionLoop ts pivot high fuel (i + 1)
        (lowIndex + (if earlier ts pivot x then 1 else 0))
        (front ++ (place (earlier ts pivot) (smalls, others) x).1 ++
          (place (earlier ts pivot) (smalls, others) x).2 ++ xs) := by
  have hx : (front ++ smalls ++ others ++ x :: xs)[i]? = some x := by
    have hlen : i = (front ++ smalls ++ others).length := by
      rw [List.length_append, List.length_append, hi]
    rw [hlen]
    exact getElem?_middle _ xs x
  rw [partitionLoop, if_pos hle, hx, Option.bind_eq_bind, Option.bind_some]
  by_cases hsmall : ts x < ts pivot
  · have hearlier : earlier ts pivot x = true := decide_eq_true hsmall
    simp only [if_pos hsmall, hearlier, if_true, place]
    cases others with
    | nil =>
        have heq : i = lowIndex + 1 := by
          rw [hi, List.length_nil]
          omega
        rw [if_neg (not_not_intro heq)]
        simp
    | cons y ys =>
        have hne : i ≠ lowIndex + 1 := by
          rw [hi, List.length_cons]
          omega
        have hlen : lowIndex + 1 = (front ++ smalls).length := by rw [List.length_append, hlow]
        have hy : (front ++ smalls ++ y :: ys ++ x :: xs)[lowIndex + 1]? = some y := by
          rw [hlen, List.append_assoc, List.cons_append]
          exact getElem?_middle _ _ y
        have hswap : ((front ++ smalls ++ y :: ys ++ x :: xs).set i y).set (lowIndex + 1) x =
            front ++ smalls ++ x :: ys ++ y :: xs := by
          rw [hlen]
          apply set_set_middle
          rw [List.length_append, hi, List.length_cons]
          omega
        rw [if_pos hne, hy, Option.bind_some, hswap]
        simp [List.rotate_cons_succ]
  · have hlater : earlier ts pivot x = false := decide_eq_false hsmall
    simp only [if_neg hsmall, hlater, place]
    simp

/-- The loop places all records of the stretch. -/
theorem partitionLoop_spec {pivot : P} {high : Nat} (front post : List P) :
    ∀ (xs smalls others : List P) (fuel i lowIndex : Nat), xs.length < fuel →
      lowIndex + 1 = front.length + smalls.length →
      i = front.length + smalls.length + others.length → high + 1 = i + xs.length →
      ∃ smalls' others',
        xs.foldl (place (earlier ts pivot)) (smalls, others) = (smalls', others') ∧
        partitionLoop ts pivot high fuel i lowIndex (front ++ smalls ++ others ++ (xs ++ post)) =
          some (front.length + smalls'.length - 1, front ++ smalls' ++ others' ++ post) := by
  intro xs
  induction xs with
  | nil =>
      intro smalls others fuel i lowIndex hfuel hlow hi hhigh
      obtain ⟨fuel, rfl⟩ : ∃ f, fuel = f + 1 := ⟨fuel - 1, by simp at hfuel; omega⟩
      refine ⟨smalls, others, rfl, ?_⟩
      rw [List.length_nil] at hhigh
      rw [partitionLoop, if_neg (by omega), ← hlow, Nat.add_sub_cancel, List.nil_append]
  | cons x xs ih =>
      intro smalls others fuel i lowIndex hfuel hlow hi hhigh
      obtain ⟨fuel, rfl⟩ : ∃ f, fuel = f + 1 := ⟨fuel - 1, by simp at hfuel; omega⟩
      rw [List.length_cons] at hfuel hhigh
      have hstep := @partitionLoop_cons P ts pivot x high i lowIndex fuel front smalls others
        (xs ++ post) hlow hi (by omega)
      have hnext : ∀ s, s = place (earlier ts pivot) (smalls, others) x →
          lowIndex + (if earlier ts pivot x then 1 else 0) + 1 = front.length + s.1.length ∧
            i + 1 = front.length + s.1.length + s.2.length := by
        rintro s rfl
        rw [place]
        cases earlier ts pivot x
        · simp
          omega
        · simp
          omega
      obtain ⟨hlow', hi'⟩ := hnext _ rfl
      obtain ⟨smalls', others', hfold, hrun⟩ := ih _ _ fuel (i + 1) _ (by omega) hlow' hi' (by omega)
      refine ⟨smalls', others', hfold, ?_⟩
      rw [List.cons_append, hstep]
      exact hrun

/-- A partition splits its stretch round the first record. -/
theorem partitionByTs_spec (pre xs post : List P) (pivot : P) {low high : Nat} (hlow : low = pre.length)
    (hhigh : high = low + xs.length) :
    ∃ left right, Splits (NotLater ts) (pivot :: xs) left pivot right ∧
      partitionByTs ts (pre ++ pivot :: xs ++ post) low high =
        some (low + left.length, pre ++ (left ++ pivot :: right) ++ post) := by
  have hpivot : (pre ++ pivot :: xs ++ post)[low]? = some pivot := by
    rw [hlow, List.append_assoc, List.cons_append]
    exact getElem?_middle pre _ pivot
  have hfront : (pre ++ [pivot]).length = low + 1 := by
    rw [List.length_append, List.length_singleton, hlow]
  obtain ⟨smalls, others, hfold, hrun⟩ := @partitionLoop_spec P ts pivot high (pre ++ [pivot]) post xs
    [] [] ((pre ++ pivot :: xs ++ post).length + 1) (low + 1) low (by simp; omega)
    (by rw [hfront, List.length_nil]) (by rw [hfront, List.length_nil]) (by omega)
  have hshape : pre ++ [pivot] ++ [] ++ [] ++ (xs ++ post) = pre ++ pivot :: xs ++ post := by simp
  rw [hshape, hfront] at hrun
  have hearlier : ∀ x ∈ xs, earlier ts pivot x = true → NotLater ts x pivot := fun x _ hx =>
    le_of_lt (of_decide_eq_true hx)
  have hlater : ∀ x ∈ xs, earlier ts pivot x = false → NotLater ts pivot x := fun x _ hx =>
    le_of_not_gt (of_decide_eq_false hx)
  have hsplits : ∀ left : List P, left.Perm smalls → Splits (NotLater ts) (pivot :: xs) left pivot others :=
    fun left hleft => splits_of_foldl hfold hearlier hlater hleft
  rw [partitionByTs, hpivot, Option.bind_eq_bind, Option.bind_some, hrun, Option.bind_eq_bind,
    Option.bind_some]
  rcases List.eq_nil_or_concat' smalls with rfl | ⟨init, x, rfl⟩
  · -- no record is earlier than the pivot, which stays
    refine ⟨[], others, hsplits [] (List.Perm.refl _), ?_⟩
    have hlast : (pre ++ [pivot] ++ [] ++ others ++ post)[low]? = some pivot := by
      rw [hlow]
      simp
    have hset : ∀ ys : List P, (pre ++ pivot :: ys).set low pivot = pre ++ pivot :: ys := fun ys => by
      rw [hlow, set_middle]
    simp only [List.length_nil, Nat.add_zero, Nat.add_sub_cancel, hlast, Option.bind_some]
    simp [hset]
  · refine ⟨x :: init, others, hsplits _ (List.perm_append_singleton x init).symm, ?_⟩
    · have hindex : low + 1 + (init ++ [x]).length - 1 = low + (x :: init).length := by
        rw [List.length_append, List.length_singleton, List.length_cons]
        omega
      have hlast : (pre ++ [pivot] ++ (init ++ [x]) ++ others ++ post)[low + (x :: init).length]? =
          some x := by
        have hlen : low + (x :: init).length = (pre ++ [pivot] ++ init).length := by
          rw [List.length_append, hfront, List.length_cons]
          omega
        have hsplit : pre ++ [pivot] ++ (init ++ [x]) ++ others ++ post =
            pre ++ [pivot] ++ init ++ x :: (others ++ post) := by simp
        rw [hlen, hsplit]
        exact getElem?_middle _ _ x
      have hsplit : pre ++ [pivot] ++ (init ++ [x]) ++ others ++ post =
          pre ++ pivot :: init ++ x :: (others ++ post) := by simp
      have hswap : ((pre ++ pivot :: init ++ x :: (others ++ post)).set (low + (x :: init).length) pivot).set
          low x = pre ++ x :: init ++ pivot :: (others ++ post) := by
        rw [hlow]
        apply set_set_middle
        rw [List.length_cons]
        omega
      have hne : low ≠ low + (x :: init).length := by
        rw [List.length_cons]
        omega
      simp only [hindex, hlast, Option.bind_some]
      rw [List.set_comm _ _ hne, hsplit, hswap]
      simp

/-! ## The sort -/

/-- The sort of one stretch: it stays inside the array and leaves the rest of it. -/
theorem qsortByTs_spec :
    ∀ (fuel : Nat) (pre xs post : List P) (low high : Nat), low = pre.length →
      high + 1 = pre.length + xs.length → xs.length < fuel →
      ∃ xs', qsortByTs ts fuel (pre ++ xs ++ post) low high = some (pre ++ xs' ++ post) ∧
        IsSort (NotLater ts) xs xs' := by
  intro fuel
  induction fuel with
  | zero =>
      intro pre xs post low high _ _ hfuel
      exact absurd hfuel (Nat.not_lt_zero _)
  | succ fuel ih =>
      intro pre xs post low high hlow hhigh hfuel
      by_cases hlt : low < high
      · match xs, hhigh, hfuel with
        | [], hhigh, _ =>
            rw [List.length_nil] at hhigh
            omega
        | pivot :: xs, hhigh, hfuel =>
            rw [List.length_cons] at hhigh hfuel
            obtain ⟨left, right, hsplits, hpart⟩ := @partitionByTs_spec P ts pre xs post pivot low high hlow
              (by omega)
            have hlen : left.length + right.length = xs.length := by
              have h := hsplits.perm.length_eq
              rw [List.length_append, List.length_cons, List.length_cons] at h
              omega
            -- the part in front of the pivot
            have hleft : ∃ left', (if low + left.length > 0 then
                  qsortByTs ts fuel (pre ++ (left ++ pivot :: right) ++ post) low (low + left.length - 1)
                else some (pre ++ (left ++ pivot :: right) ++ post)) =
                  some (pre ++ left' ++ (pivot :: right ++ post)) ∧ IsSort (NotLater ts) left left' := by
              split
              · obtain ⟨left', hrun, hsort⟩ := ih pre left (pivot :: right ++ post) low
                  (low + left.length - 1) hlow (by omega) (by omega)
                refine ⟨left', ?_, hsort⟩
                rw [← hrun]
                simp
              · have hnil : left = [] := List.length_eq_zero_iff.mp (by omega)
                refine ⟨left, ?_, isSort_of_length_le (by rw [hnil]; exact Nat.zero_le _)⟩
                simp
            obtain ⟨left', hrunl, hsortl⟩ := hleft
            have hlenl := hsortl.perm.length_eq
            -- the part behind it
            obtain ⟨right', hrunr, hsortr⟩ := ih (pre ++ left' ++ [pivot]) right post
              (low + left.length + 1) high (by simp; omega) (by simp; omega) (by omega)
            refine ⟨left' ++ pivot :: right', ?_, hsplits.sort (fun _ _ _ _ => le_trans) hsortl hsortr⟩
            rw [qsortByTs, if_pos hlt, hpart, Option.bind_eq_bind, Option.bind_some]
            simp only [hrunl, Option.bind_eq_bind, Option.bind_some]
            have hshape : pre ++ left' ++ (pivot :: right ++ post) =
                pre ++ left' ++ [pivot] ++ right ++ post := by simp
            rw [hshape, hrunr]
            simp
      · refine ⟨xs, ?_, isSort_of_length_le (by omega)⟩
        rw [qsortByTs, if_neg hlt]

theorem qsortInfomapByTs_spec {a : List P} (hne : a ≠ []) (hlen : a.length < 2 ^ 63) :
    ∃ a', qsortInfomapByTs ts a = some a' ∧ IsSort (NotLater ts) a a' := by
  have hpos : 0 < a.length := List.length_pos_iff.mpr hne
  have hlast : lastIndex a.length = a.length - 1 := by
    rw [lastIndex]
    omega
  obtain ⟨a', hrun, hsort⟩ := @qsortByTs_spec P ts (a.length + 1) [] a [] 0 (a.length - 1) rfl
    (by rw [List.length_nil]; omega) (Nat.lt_succ_self _)
  simp only [List.nil_append, List.append_nil] at hrun
  exact ⟨a', by rw [qsortInfomapByTs, hlast, hrun], hsort⟩

/-- The quick sort of a nonempty container ends without an access outside the array, and
    leaves the timestamps as the merge sort does.  The records are left as the merge sort
    leaves them if no two have one timestamp. -/
theorem qsortByTs_agrees (tc : TraceContainer P) (hne : 1 ≤ tc.size) (hint : tc.size < intLimit) :
    ∃ quick merged, qsortInfomapByTs ts tc.infosMap = some quick ∧
      sortInfomapByTs ts tc.infosMap = some merged ∧ quick.Perm merged ∧
      quick.map ts = merged.map ts ∧ quick.Pairwise (fun p q => (ts p).toNat ≤ (ts q).toNat) ∧
      ((∀ p ∈ tc.infosMap, ∀ q ∈ tc.infosMap, ts p = ts q → p = q) → quick = merged) := by
  have hlen : tc.infosMap.length < 2 ^ 31 := hint
  have hnil : tc.infosMap ≠ [] := List.length_pos_iff.mp hne
  obtain ⟨quick, hquick, hsort⟩ := @qsortInfomapByTs_spec P ts tc.infosMap hnil (by omega)
  have hstable : IsStableSort (tsKey ts) tc.infosMap (stableSort (tsKey ts) tc.infosMap) :=
    isStableSort_stableSort tc.infosMap
  have hmerged : IsSort (NotLater ts) tc.infosMap (stableSort (tsKey ts) tc.infosMap) :=
    ⟨hstable.perm, hstable.sorted⟩
  refine ⟨quick, _, hquick, sortInfomapByTs_spec ts hnil (by omega), hsort.perm.trans hmerged.perm.symm, ?_,
    hsort.sorted, fun hdistinct => ?_⟩
  · have hkeys := hsort.map_eq hmerged
    have hwords := congrArg (List.map (BitVec.ofNat 64)) hkeys
    simpa [tsKey, Function.comp_def] using hwords
  · exact hsort.eq_of_injOn hmerged fun p hp q hq heq => hdistinct p hp q hq (BitVec.eq_of_toNat_eq heq)

/-- Three records, two of them with the same timestamp. -/
theorem qsortByTs_agrees_three :
    let ts : Nat × Word → Word := Prod.snd
    let tc : TraceContainer (Nat × Word) := { infosMap := [(0, 7), (1, 3), (2, 7)], capacity := 64 }
    ∃ quick merged, qsortInfomapByTs ts tc.infosMap = some quick ∧
      sortInfomapByTs ts tc.infosMap = some merged ∧ quick.Perm merged ∧
      quick.map ts = merged.map ts ∧ quick.Pairwise (fun p q => (ts p).toNat ≤ (ts q).toNat) ∧
      ((∀ p ∈ tc.infosMap, ∀ q ∈ tc.infosMap, ts p = ts q → p = q) → quick = merged) :=
  qsortByTs_agrees _ (by decide) (by decide)

end GogetaTools.Replay
