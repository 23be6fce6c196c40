/-
  GogetaTools.Replay.TimestampSort

  `trace_container_sort_infomap_by_ts`: the merge sort of a worker's records.

  The array is a list whose accesses are checked; a function answers `none`
  where the C code would leave the array (or the buffer `temp`, of the same
  size).  The bounds are `unsigned long`, so the last index of an empty
  container is `2 ^ 64 - 1`.

  A merge turns two neighbouring sorted stretches into their stable merge and
  leaves the rest of the array (`mergeArrayByTs_spec`); the sort of a nonempty
  container is therefore the stable sort by timestamp (`sortInfomapByTs_spec`),
  and that of an empty one leaves the array (`sortInfomapByTs_nil`).
-/

import GogetaTools.Lib.StableSort
import GogetaTools.Replay.Trace
import Mathlib.Data.Nat.Basic

namespace GogetaTools.Replay

open StableSort

section Definitions

variable {P : Type} (ts : P → Word)

/-- `temp[k++] = x` in a buffer of `size` pointers. -/
def pushTemp (size : Nat) (temp : List P) (x : P) : Option (List P) :=
  if temp.length < size then some (temp ++ [x]) else none

/-- The loop `while (i <= j && m <= n)`. -/
def mergeWhile (a : List P) (j n : Nat) :
    Nat → Nat → Nat → List P → Option (Nat × Nat × List P)
  | 0, _, _, _ => none
  | fuel + 1, i, m, temp =>
      if i ≤ j ∧ m ≤ n then do
        let x ← a[i]?
        let y ← a[m]?
        if ts x ≤ ts y then
          let temp ← pushTemp a.length temp x
          mergeWhile a j n fuel (i + 1) m temp
        else
          let temp ← pushTemp a.length temp y
          mergeWhile a j n fuel i (m + 1) temp
      else some (i, m, temp)

/-- The loops that copy what is left of one stretch, `while (i <= j)`. -/
def copyWhile (a : List P) (j : Nat) : Nat → Nat → List P → Option (List P)
  | 0, _, _ => none
  | fuel + 1, i, temp =>
      if i ≤ j then do
        let x ← a[i]?
        let temp ← pushTemp a.length temp x
        copyWhile a j fuel (i + 1) temp
      else some temp

/-- The loop that writes `temp` back, from index `begin` on. -/
def copyBack : List P → Nat → List P → Option (List P)
  | [], _, a => some a
  | x :: temp, i, a => if i < a.length then copyBack temp (i + 1) (a.set i x) else none

def mergeArrayByTs (a : List P) (first mid last : Nat) : Option (List P) := do
  let fuel := a.length + 1
  let (i, m, temp) ← mergeWhile ts a mid last fuel first (mid + 1) []
  let temp ← copyWhile a mid fuel i temp
  let temp ← copyWhile a last fuel m temp
  copyBack temp first a

/-- `_trace_infomap_msort_by_ts`, recursing at most `fuel` deep. -/
def msortByTs : Nat → List P → Nat → Nat → Option (List P)
  | 0, _, _, _ => none
  | fuel + 1, a, first, last =>
      if first < last then do
        let mid := (first + last) % 2 ^ 64 / 2
        let a ← msortByTs fuel a first mid
        let a ← msortByTs fuel a (mid + 1) last
        mergeArrayByTs ts a first mid last
      else some a

/-- `tc->size - 1` as an `unsigned long`. -/
def lastIndex (size : Nat) : Nat := (size + (2 ^ 64 - 1)) % 2 ^ 64

def sortInfomapByTs (a : List P) : Option (List P) :=
  msortByTs ts 65 a 0 (lastIndex a.length)

end Definitions

/-! ## The merge -/

section Merge

variable {P : Type} {ts : P → Word}

/-- The sort key. -/
def tsKey (ts : P → Word) (p : P) : Nat := (ts p).toNat

theorem getElem?_middle (xs ys : List P) (x : P) : (xs ++ x :: ys)[xs.length]? = some x := by
  rw [List.getElem?_append_right (Nat.le_refl _), Nat.sub_self]
  rfl

theorem pushTemp_of_lt {size : Nat} {temp : List P} (h : temp.length < size) (x : P) :
    pushTemp size temp x = some (temp ++ [x]) := if_pos h

theorem copyWhile_spec {a : List P} {j : Nat} :
    ∀ (xs pre post : List P) (fuel : Nat) (temp : List P), a = pre ++ xs ++ post →
      j + 1 = pre.length + xs.length → xs.length < fuel → temp.length + xs.length ≤ a.length →
      copyWhile a j fuel pre.length temp = some (temp ++ xs) := by
  intro xs
  induction xs with
  | nil =>
      intro pre post fuel temp _ hj hfuel _
      obtain ⟨fuel, rfl⟩ : ∃ f, fuel = f + 1 := ⟨fuel - 1, by simp at hfuel; omega⟩
      rw [List.length_nil] at hj
      rw [copyWhile, if_neg (by omega), List.append_nil]
  | cons x xs ih =>
      intro pre post fuel temp ha hj hfuel htemp
      obtain ⟨fuel, rfl⟩ : ∃ f, fuel = f + 1 := ⟨fuel - 1, by simp at hfuel; omega⟩
      rw [List.length_cons] at hj hfuel htemp
      have hx : a[pre.length]? = some x := by
        rw [ha, List.append_assoc]
        exact getElem?_middle pre (xs ++ post) x
      have hrest := ih (pre ++ [x]) post fuel (temp ++ [x]) (by rw [ha]; simp)
        (by rw [List.length_append, List.length_singleton]; omega) (by omega)
        (by rw [List.length_append, List.length_singleton]; omega)
      rw [List.length_append, List.length_singleton] at hrest
      rw [copyWhile, if_pos (by omega), hx, Option.bind_eq_bind, Option.bind_some,
        pushTemp_of_lt (by omega), Option.bind_eq_bind, Option.bind_some, hrest,
        List.append_assoc, List.singleton_append]

theorem copyBack_spec :
    ∀ (xs old pre post : List P), old.length = xs.length →
      copyBack xs pre.length (pre ++ old ++ post) = some (pre ++ xs ++ post) := by
  intro xs
  induction xs with
  | nil =>
      intro old pre post hlen
      rw [List.length_eq_zero_iff.mp hlen]
      rfl
  | cons x xs ih =>
      intro old pre post hlen
      cases old with
      | nil => cases hlen
      | cons y old =>
          have hset : (pre ++ (y :: old) ++ post).set pre.length x = (pre ++ [x]) ++ old ++ post := by
            rw [List.append_assoc, List.set_append_right _ _ (Nat.le_refl _), Nat.sub_self]
            simp
          have hrest := ih old (pre ++ [x]) post (by simpa using hlen)
          rw [List.length_append, List.length_singleton] at hrest
          rw [copyBack, if_pos (by simp), hset, hrest]
          simp

/-- Where a merge stands: the indices `i` and `m` are behind the records `xs'` and
    `ys'` that are in `temp` already, and `xs` and `ys` are left. -/
structure MergePoint (a pre post : List P) (j n i m : Nat) (xs' xs ys' ys : List P) : Prop where
  array : a = pre ++ (xs' ++ xs) ++ (ys' ++ ys) ++ post
  left : i = (pre ++ xs').length
  right : m = (pre ++ (xs' ++ xs) ++ ys').length
  left_end : j + 1 = i + xs.length
  right_end : n + 1 = m + ys.length

section MergePoint

variable {a pre post xs' xs ys' ys temp : List P} {x y : P} {j n i m : Nat}

theorem MergePoint.get_left (h : MergePoint a pre post j n i m xs' (x :: xs) ys' ys) :
    a[i]? = some x := by
  rw [h.left, ← getElem?_middle (pre ++ xs') (xs ++ (ys' ++ ys) ++ post) x, h.array]
  simp

theorem MergePoint.get_right (h : MergePoint a pre post j n i m xs' xs ys' (y :: ys)) :
    a[m]? = some y := by
  rw [h.right, ← getElem?_middle (pre ++ (xs' ++ xs) ++ ys') (ys ++ post) y, h.array]
  simp

theorem MergePoint.take_left (h : MergePoint a pre post j n i m xs' (x :: xs) ys' ys) :
    MergePoint a pre post j n (i + 1) m (xs' ++ [x]) xs ys' ys where
  array := by rw [h.array]; simp
  left := by
    simp only [h.left, List.length_append, List.length_singleton]
    omega
  right := by rw [h.right]; simp
  left_end := by rw [h.left_end, List.length_cons]; omega
  right_end := h.right_end

theorem MergePoint.take_right (h : MergePoint a pre post j n i m xs' xs ys' (y :: ys)) :
    MergePoint a pre post j n i (m + 1) xs' xs (ys' ++ [y]) ys where
  array := by rw [h.array]; simp
  left := h.left
  right := by
    simp only [h.right, List.length_append, List.length_singleton]
    omega
  left_end := h.left_end
  right_end := by rw [h.right_end, List.length_cons]; omega

/-- The loop goes on as long as both stretches have a record left. -/
theorem MergePoint.goes_on_iff (h : MergePoint a pre post j n i m xs' xs ys' ys) :
    i ≤ j ∧ m ≤ n ↔ xs ≠ [] ∧ ys ≠ [] := by
  have hleft := h.left_end
  have hright := h.right_end
  rw [List.ne_nil_iff_length_pos, List.ne_nil_iff_length_pos]
  omega

theorem MergePoint.length_le (h : MergePoint a pre post j n i m xs' xs ys' ys) :
    xs.length + ys.length ≤ a.length := by
  rw [h.array]
  simp only [List.length_append]
  omega

/-- The two loops behind the merge copy what is left of the stretches. -/
theorem MergePoint.copies (h : MergePoint a pre post j n i m xs' xs ys' ys)
    (htemp : temp.length + (xs.length + ys.length) ≤ a.length) :
    (copyWhile a j (a.length + 1) i temp >>= fun temp => copyWhile a n (a.length + 1) m temp) =
      some (temp ++ (xs ++ ys)) := by
  have hleft := h.left_end
  have hright := h.right_end
  have hcopyx := copyWhile_spec xs (pre ++ xs') (ys' ++ ys ++ post) (a.length + 1) temp
    (show a = _ by rw [h.array]; simp) (h.left ▸ hleft) (by omega) (by omega)
  have hcopyy := copyWhile_spec ys (pre ++ (xs' ++ xs) ++ ys') post (a.length + 1) (temp ++ xs)
    (show a = _ by rw [h.array]; simp) (h.right ▸ hright) (by omega)
    (by rw [List.length_append]; omega)
  rw [← h.left] at hcopyx
  rw [← h.right] at hcopyy
  rw [hcopyx, Option.bind_eq_bind, Option.bind_some, hcopyy, List.append_assoc]

end MergePoint

/-- The three loops put the merge of what is left of the stretches behind `temp`. -/
theorem mergeWhile_spec (ts : P → Word) {a : List P} (pre post : List P) (j n : Nat) :
    ∀ (fuel i m : Nat) (xs' xs ys' ys temp : List P), xs.length + ys.length < fuel →
      MergePoint a pre post j n i m xs' xs ys' ys →
      temp.length + (xs.length + ys.length) ≤ a.length →
      (mergeWhile ts a j n fuel i m temp >>= fun r =>
        copyWhile a j (a.length + 1) r.1 r.2.2 >>= fun temp =>
        copyWhile a n (a.length + 1) r.2.1 temp) =
        some (temp ++ List.merge xs ys (keyLe (tsKey ts))) := by
  intro fuel
  induction fuel with
  | zero => intro i m xs' xs ys' ys temp h; omega
  | succ fuel ih =>
      intro i m xs' xs ys' ys temp hfuel h htemp
      by_cases hboth : xs ≠ [] ∧ ys ≠ []
      · rw [mergeWhile, if_pos (h.goes_on_iff.mpr hboth)]
        obtain ⟨x, xs, rfl⟩ := List.exists_cons_of_ne_nil hboth.1
        obtain ⟨y, ys, rfl⟩ := List.exists_cons_of_ne_nil hboth.2
        have hlenx : (x :: xs).length = xs.length + 1 := List.length_cons
        have hleny : (y :: ys).length = ys.length + 1 := List.length_cons
        simp only [h.get_left, h.get_right, Option.bind_eq_bind, Option.bind_some]
        by_cases hle : ts x ≤ ts y
        · -- ties take the left record
          have hkey : keyLe (tsKey ts) x y = true := decide_eq_true hle
          have hrest := ih _ _ _ _ _ _ (temp ++ [x]) (by omega) h.take_left
            (by rw [List.length_append, List.length_singleton]; omega)
          rw [if_pos hle, pushTemp_of_lt (by omega), Option.bind_some,
            List.cons_merge_cons_pos _ _ _ hkey]
          rwa [List.append_assoc, List.singleton_append] at hrest
        · have hkey : ¬ keyLe (tsKey ts) x y = true := fun h => hle (of_decide_eq_true h)
          have hrest := ih _ _ _ _ _ _ (temp ++ [y]) (by omega) h.take_right
            (by rw [List.length_append, List.length_singleton]; omega)
          rw [if_neg hle, pushTemp_of_lt (by omega), Option.bind_some,
            List.cons_merge_cons_neg _ _ _ hkey]
          rwa [List.append_assoc, List.singleton_append] at hrest
      · -- one stretch is used up, and the rest of the other is copied
        rw [mergeWhile, if_neg (mt h.goes_on_iff.mp hboth)]
        refine (h.copies htemp).trans ?_
        by_cases hxs : xs = []
        · rw [hxs, List.nil_append, List.nil_merge]
        · have hys : ys = [] := by
            by_contra hys
            exact hboth ⟨hxs, hys⟩
          rw [hys, List.append_nil, List.merge_right]

theorem mergeArrayByTs_spec (ts : P → Word) (pre xs ys post : List P) {first mid last : Nat}
    (hfirst : first = pre.length) (hmid : mid + 1 = pre.length + xs.length)
    (hlast : last + 1 = pre.length + xs.length + ys.length) :
    mergeArrayByTs ts (pre ++ (xs ++ ys) ++ post) first mid last =
      some (pre ++ List.merge xs ys (keyLe (tsKey ts)) ++ post) := by
  have hlen : (pre ++ (xs ++ ys) ++ post).length =
      pre.length + (xs.length + ys.length) + post.length := by
    simp only [List.length_append]
  have hpoint : MergePoint (pre ++ (xs ++ ys) ++ post) pre post mid last first (mid + 1)
      [] xs [] ys :=
    ⟨by simp, by simpa using hfirst, by simpa using hmid, by rw [hmid, hfirst],
      by rw [hlast, hmid]⟩
  have hrun := mergeWhile_spec ts pre post mid last
    (pre.length + (xs.length + ys.length) + post.length + 1) _ _ [] xs [] ys []
    (by omega) hpoint (by rw [hlen, List.length_nil]; omega)
  rw [List.nil_append] at hrun
  obtain ⟨r, hmerge, hrun⟩ := Option.bind_eq_some_iff.mp hrun
  obtain ⟨temp, hcopyx, hcopyy⟩ := Option.bind_eq_some_iff.mp hrun
  rw [hlen] at hcopyx hcopyy
  rw [mergeArrayByTs, hlen]
  simp only [hmerge, Option.bind_eq_bind, Option.bind_some, hcopyx, hcopyy]
  rw [hfirst]
  apply copyBack_spec
  rw [List.length_merge, List.length_append]

end Merge

/-! ## The sort -/

section Sorting

variable {P : Type} (ts : P → Word)

/-- A stretch of the array is sorted in place. -/
theorem msortByTs_spec :
    ∀ (fuel : Nat) (pre xs post : List P) (first last : Nat), first = pre.length →
      last + 1 = pre.length + xs.length → xs.length ≤ 2 ^ fuel →
      pre.length + xs.length < 2 ^ 63 →
      ∃ xs', msortByTs ts (fuel + 1) (pre ++ xs ++ post) first last =
          some (pre ++ xs' ++ post) ∧ IsStableSort (tsKey ts) xs xs' := by
  intro fuel
  induction fuel with
  | zero =>
      intro pre xs post first last hfirst hlast hlen _
      -- at most one record
      have hone : xs.length ≤ 1 := hlen
      refine ⟨xs, ?_, IsStableSort.of_sorted ?_⟩
      · rw [msortByTs, if_neg (by omega)]
      · match xs, hone with
        | [], _ => exact List.Pairwise.nil
        | [x], _ => exact List.pairwise_singleton _ x
  | succ fuel ih =>
      intro pre xs post first last hfirst hlast hlen hmax
      by_cases hlt : first < last
      · have hmod : (first + last) % 2 ^ 64 = first + last := Nat.mod_eq_of_lt (by omega)
        have hpow : 2 ^ (fuel + 1) = 2 * 2 ^ fuel := by
          rw [Nat.pow_succ, Nat.mul_comm]
        -- the two halves
        have hsplit := (List.take_append_drop ((first + last) / 2 + 1 - first) xs).symm
        have hleft : (xs.take ((first + last) / 2 + 1 - first)).length =
            (first + last) / 2 + 1 - first := by
          rw [List.length_take]
          omega
        have hright : (xs.drop ((first + last) / 2 + 1 - first)).length =
            xs.length - ((first + last) / 2 + 1 - first) := List.length_drop
        generalize xs.take ((first + last) / 2 + 1 - first) = ls at hsplit hleft
        generalize xs.drop ((first + last) / 2 + 1 - first) = rs at hsplit hright
        subst hsplit
        rw [List.length_append] at hright hlast hlen hmax
        obtain ⟨ls', hrunl, hsortl⟩ := ih pre ls (rs ++ post) first ((first + last) / 2) hfirst
          (by omega) (by omega) (by omega)
        have hlenl := hsortl.perm.length_eq
        obtain ⟨rs', hrunr, hsortr⟩ := ih (pre ++ ls') rs post ((first + last) / 2 + 1) last
          (by rw [List.length_append]; omega) (by rw [List.length_append]; omega) (by omega)
          (by rw [List.length_append]; omega)
        have hlenr := hsortr.perm.length_eq
        refine ⟨_, ?_, hsortl.merge hsortr⟩
        rw [msortByTs, if_pos hlt, hmod]
        simp only [List.append_assoc] at hrunl hrunr ⊢
        simp only [hrunl, Option.bind_eq_bind, Option.bind_some, hrunr]
        have hmerge := mergeArrayByTs_spec ts pre ls' rs' post hfirst
          (show (first + last) / 2 + 1 = _ by omega) (show last + 1 = _ by omega)
        simpa only [List.append_assoc] using hmerge
      · have hone : xs.length ≤ 1 := by omega
        refine ⟨xs, ?_, IsStableSort.of_sorted ?_⟩
        · rw [msortByTs, if_neg hlt]
        · match xs, hone with
          | [], _ => exact List.Pairwise.nil
          | [x], _ => exact List.pairwise_singleton _ x

/-- The records of a nonempty container come out stably sorted by timestamp. -/
theorem sortInfomapByTs_spec {a : List P} (hne : a ≠ []) (hlen : a.length < 2 ^ 63) :
    sortInfomapByTs ts a = some (stableSort (tsKey ts) a) := by
  have hpos : 0 < a.length := List.length_pos_iff.mpr hne
  have hlast : lastIndex a.length = a.length - 1 := by
    rw [lastIndex]
    omega
  obtain ⟨a', hrun, hsort⟩ := msortByTs_spec ts 64 [] a [] 0 (a.length - 1) rfl
    (by simp only [List.length_nil]; omega) (by omega) (by simpa using hlen)
  simp only [List.nil_append, List.append_nil] at hrun
  rw [sortInfomapByTs, hlast, hrun, stableSort_eq hsort]

/-- The timestamp sort of a nonempty container, whose size is an `int`: it ends
    without an access outside the array or the buffer, and leaves the records in
    timestamp order, those of one timestamp as they stood. -/
theorem sortInfomapByTs_stable (tc : TraceContainer P) (hne : 1 ≤ tc.size)
    (hint : tc.size < intLimit) :
    ∃ infosMap, sortInfomapByTs ts tc.infosMap = some infosMap ∧ infosMap.Perm tc.infosMap ∧
      infosMap.Pairwise (fun p q => (ts p).toNat ≤ (ts q).toNat) ∧
      ∀ t, infosMap.filter (fun p => ts p = t) = tc.infosMap.filter fun p => ts p = t := by
  have hlen : tc.infosMap.length < 2 ^ 31 := hint
  have hrun := sortInfomapByTs_spec ts (List.length_pos_iff.mp hne) (by omega)
  have hsort : IsStableSort (tsKey ts) tc.infosMap (stableSort (tsKey ts) tc.infosMap) :=
    isStableSort_stableSort tc.infosMap
  refine ⟨_, hrun, hsort.perm, hsort.sorted, ?_⟩
  intro t
  -- timestamps are equal when their numbers are
  have hkey : (fun p => decide (ts p = t)) = fun p => decide (tsKey ts p = t.toNat) := by
    funext p
    simp only [tsKey, BitVec.toNat_inj]
  rw [hkey]
  exact hsort.stable t.toNat

/-- Three records, two of them with the same timestamp. -/
theorem sortInfomapByTs_stable_three :
    let ts : Nat × Word → Word := Prod.snd
    let tc : TraceContainer (Nat × Word) := { infosMap := [(0, 7), (1, 3), (2, 7)], capacity := 64 }
    ∃ infosMap, sortInfomapByTs ts tc.infosMap = some infosMap ∧ infosMap.Perm tc.infosMap ∧
      infosMap.Pairwise (fun p q => (ts p).toNat ≤ (ts q).toNat) ∧
      ∀ t, infosMap.filter (fun p => ts p = t) = tc.infosMap.filter fun p => ts p = t :=
  sortInfomapByTs_stable _ _ (by decide) (by decide)

/-- The recursion into the left halves of an empty array ends outside it. -/
theorem msortByTs_nil :
    ∀ (fuel last : Nat), 0 < last → last < 2 ^ 64 →
      msortByTs ts fuel ([] : List P) 0 last = none := by
  intro fuel
  induction fuel with
  | zero => intro last _ _; rfl
  | succ fuel ih =>
      intro last hpos hlast
      have hmid : (0 + last) % 2 ^ 64 / 2 = last / 2 := by
        rw [Nat.zero_add, Nat.mod_eq_of_lt hlast]
      rw [msortByTs, if_pos hpos, hmid]
      by_cases hzero : last / 2 = 0
      · -- the stretches are the indices 0 and 1
        have hone : last = 1 := by omega
        subst hone
        cases fuel with
        | zero => rfl
        | succ fuel =>
            simp [msortByTs, mergeArrayByTs, mergeWhile]
      · simp only [ih (last / 2) (by omega) (by omega), Option.bind_eq_bind, Option.bind_none]

/-- The sort of an empty container leaves the array. -/
theorem sortInfomapByTs_nil : sortInfomapByTs ts ([] : List P) = none := by
  have hlast : lastIndex 0 = 2 ^ 64 - 1 := by decide
  rw [sortInfomapByTs, List.length_nil, hlast]
  exact msortByTs_nil ts 65 _ (by omega) (by omega)

end Sorting

end GogetaTools.Replay
