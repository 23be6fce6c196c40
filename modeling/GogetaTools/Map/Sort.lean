/-
  GogetaTools.Map.Sort

  What `hashmap_sort` does to the entry list, for any comparison function.

  The pointer code is refined, one function at a time, by a description on
  the list of visited buckets and the assignment of entries to buckets:

    * `mergeRuns`  — `_hashmap_merge` on two adjacent segments,
    * `mergePass`  — one run of the `while (start1)` loop,
    * `mergePasses` — the loop over `gap`.

  `hashmapMsort_spec` is the refinement; `mergePasses_perm` says that the
  buckets are only reordered and the entries only permuted among them, so that
  nothing is lost whatever the comparison function answers.
-/

import GogetaTools.Map.Defs
import Mathlib.Logic.Equiv.Basic
import Mathlib.Data.List.Perm.Subperm
import Mathlib.GroupTheory.Perm.Basic

namespace GogetaTools.Map

open LinkedChain

variable {K V : Type}

/-! ## The list description -/

/-- The contents of two buckets exchanged. -/
def swapEntries (ent : Nat → Entry K V) (a b : Nat) : Nat → Entry K V :=
  ent ∘ Equiv.swap a b

/-- The merge takes the left bucket unless the comparison of the two keys is positive. -/
def takesLeft (cmp : Compare K) (ent : Nat → Entry K V) (a b : Nat) : Bool :=
  ¬ cmp (ent a).key (ent b).key > 0

/-- The entries after the exchange at the head of `_hashmap_merge`. -/
def mergeEntries (cmp : Compare K) (ent : Nat → Entry K V) (a ae b be : Nat) :
    Nat → Entry K V :=
  if cmp (ent a).key (ent b).key > 0 then swapEntries (swapEntries ent a b) ae be else ent

/-- `_hashmap_merge` on the segments `a :: as` and `b :: bs`.  The first bucket
    stays first: the loop only compares the buckets after it. -/
def mergeRuns (cmp : Compare K) (ent : Nat → Entry K V) (a : Nat) (as : List Nat)
    (b : Nat) (bs : List Nat) : List Nat × (Nat → Entry K V) :=
  let ent := mergeEntries cmp ent a (as.getLastD a) b (bs.getLastD b)
  (a :: List.merge as (b :: bs) (takesLeft cmp ent), ent)

/-- One pass: adjacent segments of `gap` buckets are merged pairwise. -/
def mergePass (cmp : Compare K) (gap : Nat) :
    Nat → List Nat → (Nat → Entry K V) → List Nat × (Nat → Entry K V)
  | 0, l, ent => (l, ent)
  | fuel + 1, l, ent =>
      match l.take gap, l.drop gap with
      | a :: as, b :: rest =>
          let run := mergeRuns cmp ent a as b (rest.take (gap - 1))
          let tail := mergePass cmp gap fuel (rest.drop (gap - 1)) run.2
          (run.1 ++ tail.1, tail.2)
      | _, _ => (l, ent)

/-- All passes, with `gap` doubling from pass to pass. -/
def mergePasses (cmp : Compare K) (len : Nat) :
    Nat → Nat → List Nat → (Nat → Entry K V) → List Nat × (Nat → Entry K V)
  | 0, _, l, ent => (l, ent)
  | fuel + 1, gap, l, ent =>
      if gap < len then
        let pass := mergePass cmp gap (len + 1) l ent
        mergePasses cmp len fuel (gap * 2) pass.1 pass.2
      else (l, ent)

/-! ## Entries are permuted among the visited buckets -/

/-- `ent'` is `ent` with the entries of the buckets `l` permuted. -/
def Rearranged (l : List Nat) (ent ent' : Nat → Entry K V) : Prop :=
  ∃ σ : Equiv.Perm Nat, (∀ i, i ∉ l → σ i = i) ∧ ent' = ent ∘ σ

theorem Rearranged.refl (l : List Nat) (ent : Nat → Entry K V) : Rearranged l ent ent :=
  ⟨1, fun _ _ => rfl, rfl⟩

theorem Rearranged.trans {l : List Nat} {ent ent' ent'' : Nat → Entry K V}
    (h : Rearranged l ent ent') (h' : Rearranged l ent' ent'') : Rearranged l ent ent'' := by
  obtain ⟨σ, hσ, rfl⟩ := h
  obtain ⟨τ, hτ, rfl⟩ := h'
  refine ⟨σ * τ, ?_, rfl⟩
  intro i hi
  rw [Equiv.Perm.mul_apply, hτ i hi, hσ i hi]

theorem Rearranged.mono {l l' : List Nat} {ent ent' : Nat → Entry K V}
    (h : Rearranged l ent ent') (hsub : l ⊆ l') : Rearranged l' ent ent' := by
  obtain ⟨σ, hσ, rfl⟩ := h
  exact ⟨σ, fun i hi => hσ i (fun hl => hi (hsub hl)), rfl⟩

theorem rearranged_swapEntries {l : List Nat} {a b : Nat} (ent : Nat → Entry K V)
    (ha : a ∈ l) (hb : b ∈ l) : Rearranged l ent (swapEntries ent a b) := by
  refine ⟨Equiv.swap a b, ?_, rfl⟩
  intro i hi
  apply Equiv.swap_apply_of_ne_of_ne
  · rintro rfl
    exact hi ha
  · rintro rfl
    exact hi hb

/-- A permutation that fixes everything outside `l` only reorders `l`. -/
theorem map_perm_self {l : List Nat} (hnd : l.Nodup) {σ : Equiv.Perm Nat}
    (hσ : ∀ i, i ∉ l → σ i = i) : (l.map σ).Perm l := by
  have hmem : ∀ i ∈ l, σ i ∈ l := by
    intro i hi
    by_contra hout
    have : σ (σ i) = σ i := hσ _ hout
    rw [σ.injective this] at hout
    exact hout hi
  have hnd' : (l.map σ).Nodup := hnd.map σ.injective
  refine (List.subperm_of_subset hnd' ?_).perm_of_length_le (by simp)
  intro i hi
  obtain ⟨j, hj, rfl⟩ := List.mem_map.mp hi
  exact hmem j hj

/-- The entries on `l` are the same, up to order. -/
theorem Rearranged.map_perm {l : List Nat} {ent ent' : Nat → Entry K V}
    (h : Rearranged l ent ent') (hnd : l.Nodup) : (l.map ent').Perm (l.map ent) := by
  obtain ⟨σ, hσ, rfl⟩ := h
  rw [← List.map_map]
  exact (map_perm_self hnd hσ).map ent

theorem Rearranged.eq_of_notMem {l : List Nat} {ent ent' : Nat → Entry K V}
    (h : Rearranged l ent ent') {i : Nat} (hi : i ∉ l) : ent' i = ent i := by
  obtain ⟨σ, hσ, rfl⟩ := h
  simp [hσ i hi]

theorem getLastD_mem_cons (a : Nat) (as : List Nat) : as.getLastD a ∈ a :: as := by
  rw [List.getLastD_eq_getLast?]
  cases h : as.getLast? with
  | none => simp
  | some x => exact List.mem_cons_of_mem _ (List.mem_of_getLast? h)

theorem mergeRuns_perm (cmp : Compare K) (ent : Nat → Entry K V) (a : Nat) (as : List Nat)
    (b : Nat) (bs : List Nat) :
    (mergeRuns cmp ent a as b bs).1.Perm (a :: as ++ b :: bs) :=
  (List.merge_perm_append _).cons a

theorem mergeRuns_rearranged (cmp : Compare K) (ent : Nat → Entry K V) (a : Nat)
    (as : List Nat) (b : Nat) (bs : List Nat) :
    Rearranged (a :: as ++ b :: bs) ent (mergeRuns cmp ent a as b bs).2 := by
  have hae := getLastD_mem_cons a as
  have hbe := getLastD_mem_cons b bs
  simp only [mergeRuns, mergeEntries]
  split
  · refine (rearranged_swapEntries ent ?_ ?_).trans (rearranged_swapEntries _ ?_ ?_)
    · simp
    · simp
    · exact List.mem_append_left _ hae
    · exact List.mem_append_right _ hbe
  · exact Rearranged.refl _ _

theorem mergePass_perm (cmp : Compare K) (gap : Nat) :
    ∀ (fuel : Nat) (l : List Nat) (ent : Nat → Entry K V),
      (mergePass cmp gap fuel l ent).1.Perm l ∧
        Rearranged l ent (mergePass cmp gap fuel l ent).2 := by
  intro fuel
  induction fuel with
  | zero => intro l ent; exact ⟨List.Perm.refl l, Rearranged.refl l ent⟩
  | succ fuel ih =>
      intro l ent
      rw [mergePass]
      split
      · rename_i a as b rest htake hdrop
        have hl : l = (a :: as ++ b :: rest.take (gap - 1)) ++ rest.drop (gap - 1) := by
          rw [← List.take_append_drop gap l, htake, hdrop]
          simp [List.take_append_drop]
        obtain ⟨htail, htailE⟩ := ih (rest.drop (gap - 1))
          (mergeRuns cmp ent a as b (rest.take (gap - 1))).2
        constructor
        · conv_rhs => rw [hl]
          exact (mergeRuns_perm cmp ent a as b _).append htail
        · rw [hl]
          exact ((mergeRuns_rearranged cmp ent a as b _).mono
            (List.subset_append_left _ _)).trans (htailE.mono (List.subset_append_right _ _))
      · exact ⟨List.Perm.refl l, Rearranged.refl l ent⟩

/-- A pass that exchanges nothing. -/
theorem mergePasses_of_lt {cmp : Compare K} {len gap : Nat} (fuel : Nat) (hlt : gap < len)
    {l : List Nat} {ent : Nat → Entry K V} (hent : (mergePass cmp gap (len + 1) l ent).2 = ent) :
    mergePasses cmp len (fuel + 1) gap l ent =
      mergePasses cmp len fuel (gap * 2) (mergePass cmp gap (len + 1) l ent).1 ent := by
  rw [mergePasses, if_pos hlt]
  simp only [hent]

theorem mergePasses_perm (cmp : Compare K) (len : Nat) :
    ∀ (fuel gap : Nat) (l : List Nat) (ent : Nat → Entry K V),
      (mergePasses cmp len fuel gap l ent).1.Perm l ∧
        Rearranged l ent (mergePasses cmp len fuel gap l ent).2 := by
  intro fuel
  induction fuel with
  | zero => intro gap l ent; exact ⟨List.Perm.refl l, Rearranged.refl l ent⟩
  | succ fuel ih =>
      intro gap l ent
      rw [mergePasses]
      split
      · obtain ⟨hpass, hpassE⟩ := mergePass_perm cmp gap (len + 1) l ent
        obtain ⟨hrest, hrestE⟩ := ih (gap * 2) (mergePass cmp gap (len + 1) l ent).1
          (mergePass cmp gap (len + 1) l ent).2
        exact ⟨hrest.trans hpass, hpassE.trans (hrestE.mono hpass.subset)⟩
      · exact ⟨List.Perm.refl l, Rearranged.refl l ent⟩

/-! ## `_hashmap_merge` refines `mergeRuns` -/

/-- Nothing but the entries and the links of the buckets `l` differs. -/
structure SameOutside (l : List Nat) (m m' : Hashmap K V) : Prop where
  capacity : m'.capacity = m.capacity
  count : m'.count = m.count
  first : m'.first = m.first
  last : m'.last = m.last
  next : ∀ i, i ∉ l → m'.next i = m.next i

theorem SameOutside.refl (l : List Nat) (m : Hashmap K V) : SameOutside l m m :=
  ⟨rfl, rfl, rfl, rfl, fun _ _ => rfl⟩

theorem SameOutside.trans {l : List Nat} {m m' m'' : Hashmap K V}
    (h : SameOutside l m m') (h' : SameOutside l m' m'') : SameOutside l m m'' :=
  ⟨h'.capacity.trans h.capacity, h'.count.trans h.count, h'.first.trans h.first,
    h'.last.trans h.last, fun i hi => (h'.next i hi).trans (h.next i hi)⟩

theorem SameOutside.mono {l l' : List Nat} {m m' : Hashmap K V}
    (h : SameOutside l m m') (hsub : l ⊆ l') : SameOutside l' m m' :=
  ⟨h.capacity, h.count, h.first, h.last, fun i hi => h.next i (fun hl => hi (hsub hl))⟩

theorem sameOutside_setNext {l : List Nat} {i : Nat} (m : Hashmap K V) (p : Option Nat)
    (hi : i ∈ l) : SameOutside l m (m.setNext i p) := by
  refine ⟨rfl, rfl, rfl, rfl, ?_⟩
  intro j hj
  rw [Hashmap.next_setNext]
  exact setLink_of_ne (fun hji => hj (hji ▸ hi))

@[simp] theorem entry_hashmapSwapBucket (m : Hashmap K V) (a b : Nat) :
    (hashmapSwapBucket m a b).entry = swapEntries m.entry a b := by
  funext i
  simp only [hashmapSwapBucket, Hashmap.entry_setEntry, swapEntries, Function.comp]
  by_cases hb : i = b
  · subst hb
    simp
  · by_cases ha : i = a
    · subst ha
      simp [Function.update_of_ne hb]
    · simp [Function.update_of_ne hb, Function.update_of_ne ha,
        Equiv.swap_apply_of_ne_of_ne ha hb]

@[simp] theorem next_hashmapSwapBucket (m : Hashmap K V) (a b : Nat) :
    (hashmapSwapBucket m a b).next = m.next := by
  simp [hashmapSwapBucket]

theorem sameOutside_hashmapSwapBucket (l : List Nat) (m : Hashmap K V) (a b : Nat) :
    SameOutside l m (hashmapSwapBucket m a b) :=
  ⟨rfl, rfl, rfl, rfl, fun i _ => by rw [next_hashmapSwapBucket]⟩

/-- `b` is linked between `x` and what followed it. -/
theorem setNext_insert {m : Hashmap K V} {E as bs : List Nat} {x a b : Nat} {p q r : Option Nat}
    (hnd : (E ++ x :: (a :: as ++ b :: bs)).Nodup) (hA : Chain m.next p (E ++ x :: a :: as) r)
    (hB : Chain m.next (m.next b) bs q) :
    let m₁ := (m.setNext b (m.next x)).setNext x (some b)
    m₁.next x = some b ∧ Chain m₁.next p ((E ++ [x]) ++ b :: a :: as) r ∧
      Chain m₁.next (m.next b) bs q ∧ m₁.entry = m.entry ∧ SameOutside (x :: (a :: as ++ b :: bs)) m m₁ := by
  intro m₁
  have hxb : x ≠ b := by grind
  have hx : x ∉ E ++ a :: as ∧ x ∉ bs := by grind
  have hb : b ∉ E ++ a :: as ∧ b ∉ bs := by grind
  have hm₁ : m₁.next = setLink (setLink m.next b (m.next x)) x (some b) := by
    simp [m₁]
  refine ⟨by simp [m₁], ?_, ?_, by simp [m₁], ?_⟩
  · rw [hm₁, List.append_assoc]
    exact hA.insert_after hxb hx.1 hb.1
  · rw [hm₁]
    exact (hB.setLink_of_notMem hb.2).setLink_of_notMem hx.2
  · exact (sameOutside_setNext m _ (by simp)).trans (sameOutside_setNext _ _ (by simp))

/-- How the loop of `_hashmap_merge` may end: the first segment is used up at
    its last bucket `ae` and the buckets from `bstart` on are still to be linked
    (`emitted` is what was visited), or the second one is and `ae` ends the merged
    segment `M`, its link dangling. -/
def MergeEnds (p q : Option Nat) (ae : Nat) (bs M : List Nat) (m : Hashmap K V)
    (astart : Nat) (bstart : Option Nat) : Prop :=
  (astart = ae ∧ ∃ emitted bs' r, M = emitted ++ bs' ∧ bs' ≠ [] ∧ bs' <:+ bs ∧
    emitted.getLast? = some ae ∧ Chain m.next p emitted r ∧ bstart = headOr bs' q ∧
    Chain m.next bstart bs' q) ∨
  (astart ≠ ae ∧ M.getLast? = some ae ∧ ∃ r, Chain m.next p M r)

theorem MergeEnds.of_suffix {p q : Option Nat} {ae : Nat} {bs bs' M : List Nat}
    {m : Hashmap K V} {astart : Nat} {bstart : Option Nat}
    (h : MergeEnds p q ae bs M m astart bstart) (hsuf : bs <:+ bs') :
    MergeEnds p q ae bs' M m astart bstart := by
  rcases h with ⟨hx, emitted, rest, r, hM, hne, hrest, h⟩ | h
  · exact Or.inl ⟨hx, emitted, rest, r, hM, hne, hrest.trans hsuf, h⟩
  · exact Or.inr h

theorem mergeLoop_spec (cmp : Compare K) {ae : Nat} {p q : Option Nat} :
    ∀ (fuel : Nat) (m : Hashmap K V) (E : List Nat) (x : Nat) (as bs : List Nat)
      (r : Option Nat),
      as.length + bs.length < fuel → (E ++ x :: (as ++ bs)).Nodup →
      (∀ b ∈ bs, q ≠ some b) → Chain m.next p (E ++ x :: as) r →
      Chain m.next (headOr bs q) bs q → (x :: as).getLast? = some ae → (as = [] → bs ≠ []) →
      ∃ m' astart bstart,
        mergeLoop cmp ae q fuel m x (headOr bs q) = some (m', astart, bstart) ∧
        m'.entry = m.entry ∧ SameOutside (x :: (as ++ bs)) m m' ∧
        MergeEnds p q ae bs (E ++ x :: List.merge as bs (takesLeft cmp m.entry)) m'
          astart bstart := by
  intro fuel
  -- Induction on the fuel: the bucket that is linked next joins `E`, and is the new `x`.
  induction fuel with
  | zero => intro m E x as bs r h; omega
  | succ fuel ih =>
      intro m E x as bs r hfuel hnd hq hA hB hae hcase
      cases as with
      | nil =>
          -- the first segment is used up: the loop stops at its last bucket
          have hx : x = ae := by simpa using hae
          refine ⟨m, x, headOr bs q, ?_, rfl, SameOutside.refl _ _, Or.inl ⟨hx, ?_⟩⟩
          · rw [mergeLoop, if_neg (by simp [hx])]
          · refine ⟨E ++ [x], bs, r, by simp, hcase rfl, List.suffix_refl bs, ?_, hA, rfl, hB⟩
            simp [hx]
      | cons a as =>
          have hxa : x ≠ ae := by
            rintro rfl
            have hmem : x ∈ a :: as := by
              rw [List.getLast?_cons_cons] at hae
              exact List.mem_of_getLast? hae
            simp only [List.nodup_append, List.nodup_cons] at hnd
            exact hnd.2.1.1 (List.mem_append_left _ hmem)
          cases bs with
          | nil =>
              -- the second segment is used up
              refine ⟨m, x, headOr [] q, ?_, rfl, SameOutside.refl _ _, Or.inr ⟨hxa, ?_, ?_⟩⟩
              · rw [mergeLoop, if_neg (by simp [headOr])]
              · simpa using hae
              · exact ⟨r, by simpa using hA⟩
          | cons b bs =>
              have hqb : some b ≠ q := fun h => hq b (List.mem_cons_self ..) h.symm
              have hxnext : m.next x = some a := by
                obtain ⟨_, -, -, h, -⟩ := chain_append.mp hA
                exact h
              have hbnext : m.next b = headOr bs q := hB.2.eq_headOr
              have hrot : (E ++ x :: b :: (a :: as ++ bs)).Perm
                  (E ++ x :: (a :: as ++ b :: bs)) :=
                (List.perm_middle.symm.cons x).append_left E
              by_cases hgt : cmp (m.key a) (m.key b) > 0
              · -- `b` goes in front of `a`
                have hleft : takesLeft cmp m.entry a b = false := by
                  simpa [takesLeft, Hashmap.key] using hgt
                have hnd' := hrot.symm.nodup hnd
                obtain ⟨hxb, hA₁, hB₁, hent₁, hsame₁⟩ := setNext_insert hnd hA hB.2
                generalize hm₁ : (m.setNext b (m.next x)).setNext x (some b) = m₁ at *
                rw [hbnext] at hB₁
                obtain ⟨m', u, v, hrun, hent, hsame, hends⟩ :=
                  ih m₁ (E ++ [x]) b (a :: as) bs r (by simp at hfuel ⊢; omega)
                    (by simpa using hnd') (fun c hc => hq c (List.mem_cons_of_mem _ hc))
                    hA₁ hB₁ (by simpa using hae) (by simp)
                refine ⟨m', u, v, ?_, hent.trans hent₁, ?_, ?_⟩
                · rw [mergeLoop, if_pos ⟨hxa, by simpa using hqb⟩]
                  rw [hxnext] at hm₁
                  simpa [hxnext, hgt, hbnext, hm₁, hxb] using hrun
                · refine hsame₁.trans (hsame.mono ?_)
                  intro i hi
                  exact List.mem_cons_of_mem _ (List.perm_middle.symm.subset hi)
                · rw [List.cons_merge_cons_neg _ _ _ (by simp [hleft])]
                  simpa [hent₁] using hends.of_suffix (List.suffix_cons b bs)
              · -- `a` stays in front of `b`
                have hleft : takesLeft cmp m.entry a b = true := by
                  simpa [takesLeft, Hashmap.key] using hgt
                obtain ⟨m', u, v, hrun, hent, hsame, hends⟩ :=
                  ih m (E ++ [x]) a as (b :: bs) r (by simp at hfuel ⊢; omega)
                    (by simpa using hnd) hq (by simpa using hA) hB
                    (by simpa using hae) (by simp)
                refine ⟨m', u, v, ?_, hent, hsame.mono (List.subset_cons_self _ _), ?_⟩
                · rw [mergeLoop, if_pos ⟨hxa, by simpa using hqb⟩]
                  simpa [hxnext, hgt] using hrun
                · rw [List.cons_merge_cons_pos _ _ _ hleft]
                  simpa using hends

theorem getLast?_cons_eq_getLastD (a : Nat) (as : List Nat) :
    (a :: as).getLast? = some (as.getLastD a) := by
  rw [List.getLast?_cons, List.getLastD_eq_getLast?]

/-- The exchange of contents at the head of `_hashmap_merge`. -/
theorem exchange_spec (cmp : Compare K) (m : Hashmap K V) (a b : Nat) (as bs : List Nat) :
    ∃ m₀ : Hashmap K V,
      (if cmp (m.key a) (m.key b) > 0 then
        hashmapSwapBucket (hashmapSwapBucket m a b) (as.getLastD a) (bs.getLastD b)
        else m) = m₀ ∧
      m₀.entry = mergeEntries cmp m.entry a (as.getLastD a) b (bs.getLastD b) ∧
      m₀.next = m.next ∧ SameOutside (a :: as ++ b :: bs) m m₀ := by
  refine ⟨_, rfl, ?_, ?_, ?_⟩
  · by_cases h : cmp (m.key a) (m.key b) > 0
    · rw [if_pos h, mergeEntries, if_pos (show cmp (m.entry a).key (m.entry b).key > 0 from h)]
      simp
    · rw [if_neg h, mergeEntries, if_neg (show ¬ cmp (m.entry a).key (m.entry b).key > 0 from h)]
  · split <;> simp
  · split
    · exact (sameOutside_hashmapSwapBucket _ m a b).trans
        (sameOutside_hashmapSwapBucket _ _ _ _)
    · exact SameOutside.refl _ m

/-- `_hashmap_merge` links the buckets of two adjacent segments in the order of
    `mergeRuns` and moves the entries as it says; the last link is left as it
    falls. -/
theorem hashmapMerge_spec (cmp : Compare K) {fuel : Nat} {m : Hashmap K V} {a b : Nat}
    {as bs : List Nat} {q : Option Nat} (hfuel : as.length + bs.length + 1 < fuel)
    (hnd : (a :: as ++ b :: bs).Nodup) (hq : ∀ c ∈ b :: bs, q ≠ some c)
    (hA : Chain m.next (some a) (a :: as) (some b))
    (hB : Chain m.next (some b) (b :: bs) q) :
    ∃ m' e r,
      hashmapMerge cmp fuel m a (as.getLastD a) b (bs.getLastD b) = some (m', e) ∧
      m'.entry = (mergeRuns cmp m.entry a as b bs).2 ∧
      SameOutside (a :: as ++ b :: bs) m m' ∧
      (mergeRuns cmp m.entry a as b bs).1.getLast? = some e ∧
      Chain m'.next (some a) (mergeRuns cmp m.entry a as b bs).1 r := by
  obtain ⟨m₀, hm₀, hent₀, hnext₀, hsame₀⟩ := exchange_spec cmp m a b as bs
  have hbend : m.next (bs.getLastD b) = q := by
    obtain ⟨l', hl'⟩ := List.getLast?_eq_some_iff.mp (getLast?_cons_eq_getLastD b bs)
    rw [hl'] at hB
    exact (chain_concat.mp hB).2
  obtain ⟨m', u, v, hrun, hent, hsame, hends⟩ :=
    mergeLoop_spec cmp fuel m₀ [] a as (b :: bs) (some b)
      (by rw [List.length_cons]; omega) hnd hq
      (by rw [hnext₀]; exact hA) (by rw [hnext₀]; exact hB) (getLast?_cons_eq_getLastD a as)
      (by simp)
  have hM : (mergeRuns cmp m.entry a as b bs).1 =
      [] ++ a :: List.merge as (b :: bs) (takesLeft cmp m₀.entry) := by
    rw [hent₀]
    rfl
  have hhead : hashmapMerge cmp fuel m a (as.getLastD a) b (bs.getLastD b) =
      if u = as.getLastD a then some (m'.setNext u v, bs.getLastD b)
      else some (m', as.getLastD a) := by
    simp only [hashmapMerge, hm₀, hnext₀, hbend]
    rw [show some b = headOr (b :: bs) q from rfl, hrun]
    rfl
  rw [hM, hhead]
  -- either the rest of the second segment is still to be linked, or all is
  rcases hends with ⟨hu, emitted, rest, r, hMeq, hrest, hsuf, hlast, hch, hv, hchv⟩ |
    ⟨hu, hlast, r, hch⟩
  · have hMnd : (emitted ++ rest).Nodup := by
      rw [← hMeq, ← hM]
      exact (mergeRuns_perm cmp m.entry a as b bs).symm.nodup hnd
    have hurest : u ∉ rest := by
      intro hmem
      have : u ∈ emitted := List.mem_of_getLast? (hu ▸ hlast)
      exact (List.nodup_append.mp hMnd).2.2 u this u hmem rfl
    rw [if_pos hu, hMeq]
    refine ⟨_, _, q, rfl, by simp [hent, hent₀, mergeRuns], ?_, ?_, ?_⟩
    · have humem : u ∈ a :: as ++ b :: bs := by
        rw [hu]
        exact List.mem_append_left _ (getLastD_mem_cons a as)
      exact (hsame₀.trans (hsame.mono (by simp))).trans (sameOutside_setNext m' v humem)
    · obtain ⟨pre, hpre⟩ := hsuf
      rw [List.getLast?_append_of_ne_nil _ hrest, ← getLast?_cons_eq_getLastD, ← hpre,
        List.getLast?_append_of_ne_nil _ hrest]
    · rw [Hashmap.next_setNext, chain_append]
      refine ⟨v, hch.setLink_last (List.nodup_append.mp hMnd).1 (hu ▸ hlast), ?_⟩
      exact hchv.setLink_of_notMem hurest
  · rw [if_neg hu]
    exact ⟨m', _, r, rfl, by simp [hent, hent₀, mergeRuns],
      hsame₀.trans (hsame.mono (by simp)), hlast, hch⟩

/-! ## `_hashmap_msort` refines `mergePasses` -/

/-- Walking `n` links from `a` stops at the last of the next `n` buckets, and
    the link there leads to what follows them. -/
theorem segmentEnd_spec {m : Hashmap K V} :
    ∀ (n a : Nat) (l : List Nat), Chain m.next (some a) (a :: l) none →
      segmentEnd m n a = (l.take n).getLastD a ∧
        m.next ((l.take n).getLastD a) = (l.drop n).head? := by
  intro n
  induction n with
  | zero =>
      intro a l h
      exact ⟨rfl, h.2.eq_head?⟩
  | succ n ih =>
      intro a l h
      cases l with
      | nil =>
          have hnull : m.next a = none := h.2
          simp [segmentEnd, hnull]
      | cons b l =>
          have hb : m.next a = some b := h.2.1
          obtain ⟨hend, hnext⟩ := ih b l ⟨rfl, h.2.2⟩
          have hlast : ((b :: l).take (n + 1)).getLastD a = (l.take n).getLastD b := by
            rw [List.take_succ_cons, List.getLastD_cons]
          rw [hlast]
          exact ⟨by simpa [segmentEnd, hb] using hend, by simpa using hnext⟩

/-- A chain away from the touched buckets is still there. -/
theorem SameOutside.chain {l l' : List Nat} {m m' : Hashmap K V} {p q : Option Nat}
    (h : SameOutside l m m') (hch : Chain m.next p l' q) (hdisj : ∀ i ∈ l', i ∉ l) :
    Chain m'.next p l' q :=
  hch.congr fun i hi => h.next i (hdisj i hi)

/-- The merged segment `M` comes to stand behind the buckets `D`. -/
theorem appendSegment_spec {D M l : List Nat} {m m' : Hashmap K V} {prevend r : Option Nat}
    {a : Nat} (hnd : (D ++ l).Nodup) (hM : M.Perm l) (hfirst : m.first = (D ++ [a]).head?)
    (hD : D ≠ [] → prevend = D.getLast? ∧ ∃ r, Chain m.next m.first D r)
    (hsame : SameOutside l m m') (ha : a ∈ l) (hch : Chain m'.next (some a) M r) :
    ∃ m'', appendSegment m' (m.first == some a) prevend a = some m'' ∧
      m''.entry = m'.entry ∧ SameOutside (D ++ l) m m'' ∧
      Chain m''.next m''.first (D ++ M) r := by
  have hdisj : ∀ i ∈ D, i ∉ l := fun i hi hl => (List.nodup_append.mp hnd).2.2 i hi i hl rfl
  cases hDc : D with
  | nil =>
      -- the first segment of the pass: `m->first` is set
      subst hDc
      have hma : m.first = some a := by simpa using hfirst
      refine ⟨{ m' with first := some a }, by simp [appendSegment, hma], rfl, ?_, hch⟩
      exact ⟨hsame.capacity, hsame.count, by simp [hma], hsame.last, hsame.next⟩
  | cons d D' =>
      -- a later one is linked behind the last bucket of `D`
      rw [← hDc]
      have hne : D ≠ [] := by simp [hDc]
      obtain ⟨hprev, s, hchD⟩ := hD hne
      obtain ⟨e, he⟩ : ∃ e, D.getLast? = some e := ⟨_, List.getLast?_eq_some_getLast hne⟩
      have heD : e ∈ D := List.mem_of_getLast? he
      have hma : m.first ≠ some a := by
        have hd : d ∈ D := by simp [hDc]
        rw [hfirst, hDc]
        simp only [List.cons_append, List.head?_cons, ne_eq, Option.some.injEq]
        rintro rfl
        exact hdisj d hd ha
      refine ⟨m'.setNext e (some a), ?_, by simp, ?_, ?_⟩
      · have hfalse : (m.first == some a) = false := by simpa using hma
        simp [appendSegment, hfalse, hprev, he]
      · exact (hsame.mono (List.subset_append_right _ _)).trans
          (sameOutside_setNext m' _ (List.mem_append_left _ heD))
      · rw [Hashmap.next_setNext, Hashmap.first_setNext, hsame.first, chain_append]
        refine ⟨some a, ?_, ?_⟩
        · exact (hsame.chain hchD hdisj).setLink_last (List.nodup_append.mp hnd).1 he
        · exact hch.setLink_of_notMem fun hmem => hdisj e heD (hM.subset hmem)

/-- The abstract pass, where at most one segment is left. -/
theorem mergePass_short {cmp : Compare K} {gap fuel : Nat} {o : List Nat}
    (ent : Nat → Entry K V) (ho : o.length ≤ gap) : mergePass cmp gap fuel o ent = (o, ent) := by
  cases fuel with
  | zero => rfl
  | succ fuel =>
      rw [mergePass, List.drop_eq_nil_of_le ho]
      cases List.take gap o <;> rfl

/-- The abstract pass, where there are two segments. -/
theorem mergePass_two (cmp : Compare K) {g fuel a b : Nat} {R rest : List Nat}
    (hrest : R.drop g = b :: rest) (ent : Nat → Entry K V) :
    mergePass cmp (g + 1) (fuel + 1) (a :: R) ent =
      ((mergeRuns cmp ent a (R.take g) b (rest.take g)).1 ++
        (mergePass cmp (g + 1) fuel (rest.drop g)
          (mergeRuns cmp ent a (R.take g) b (rest.take g)).2).1,
        (mergePass cmp (g + 1) fuel (rest.drop g)
          (mergeRuns cmp ent a (R.take g) b (rest.take g)).2).2) := by
  rw [mergePass, List.take_succ_cons, List.drop_succ_cons, hrest]
  rfl

/-- The segments `a :: as` and `b :: bs` are the next two, and `rest` follows them. -/
structure TwoSegments (m : Hashmap K V) (g a : Nat) (as : List Nat) (b : Nat) (bs rest : List Nat) :
    Prop where
  left : Chain m.next (some a) (a :: as) (some b)
  right : Chain m.next (some b) (b :: bs) rest.head?
  behind : Chain m.next rest.head? rest none
  end1 : segmentEnd m g a = as.getLastD a ∧ m.next (as.getLastD a) = some b
  end2 : segmentEnd m g b = bs.getLastD b ∧ m.next (bs.getLastD b) = rest.head?

theorem twoSegments_of_chain {m : Hashmap K V} {g a b : Nat} {R rest : List Nat}
    (hR : Chain m.next (some a) (a :: R) none) (hrest : R.drop g = b :: rest) :
    TwoSegments m g a (R.take g) b (rest.take g) (rest.drop g) := by
  obtain ⟨hend1, hnext1⟩ := segmentEnd_spec g a R hR
  have hsplit : R = R.take g ++ b :: (rest.take g ++ rest.drop g) := by
    rw [List.take_append_drop g rest, ← hrest, List.take_append_drop]
  -- The chain is cut in front of `b` and behind the second segment.
  have hR' := hR
  rw [hsplit, ← List.cons_append, chain_append] at hR'
  obtain ⟨p, hA, hp, hBrest⟩ := hR'
  subst hp
  obtain ⟨hend2, hnext2⟩ := segmentEnd_spec g b rest ⟨rfl, by rwa [List.take_append_drop] at hBrest⟩
  obtain ⟨p, hB, hrestCh⟩ := chain_append.mp hBrest
  have hp : p = (rest.drop g).head? := hrestCh.eq_head?
  subst hp
  rw [hrest, List.head?_cons] at hnext1
  exact ⟨hA, ⟨rfl, hB⟩, hrestCh, ⟨hend1, hnext1⟩, hend2, hnext2⟩

/-- One iteration: the segments are merged, and linked behind those that are merged. -/
theorem TwoSegments.msortPass_eq (cmp : Compare K) {m m' : Hashmap K V} {g a b e len : Nat}
    {as bs rest : List Nat} (h : TwoSegments m g a as b bs rest)
    (hrun : hashmapMerge cmp len m a (as.getLastD a) b (bs.getLastD b) = some (m', e)) (fuel : Nat)
    (prevend : Option Nat) :
    msortPass cmp (g + 1) len (fuel + 1) m prevend (some a) =
      appendSegment m' (m.first == some a) prevend a >>= fun m'' =>
        msortPass cmp (g + 1) len fuel m'' (some e) rest.head? := by
  simp only [msortPass, Nat.add_sub_cancel, h.end1.1, h.end1.2, h.end2.1, h.end2.2, hrun]
  rfl

/-- Two segments behind the buckets `D`, with what one iteration makes of them: the buckets
    `M` are linked behind `D`. -/
theorem TwoSegments.merge (cmp : Compare K) {m : Hashmap K V} {g a b len : Nat}
    {as bs rest D : List Nat} {prevend : Option Nat} (h : TwoSegments m g a as b bs rest)
    (hlen : as.length + bs.length + 1 < len) (hnd : (D ++ (a :: as ++ b :: bs) ++ rest).Nodup)
    (hfirst : m.first = (D ++ [a]).head?)
    (hD : D ≠ [] → prevend = D.getLast? ∧ ∃ r, Chain m.next m.first D r) :
    ∃ m' e r, (∀ fuel, msortPass cmp (g + 1) len (fuel + 1) m prevend (some a) =
        msortPass cmp (g + 1) len fuel m' (some e) rest.head?) ∧
      m'.entry = (mergeRuns cmp m.entry a as b bs).2 ∧
      SameOutside (D ++ (a :: as ++ b :: bs)) m m' ∧
      (mergeRuns cmp m.entry a as b bs).1.getLast? = some e ∧
      Chain m'.next m'.first (D ++ (mergeRuns cmp m.entry a as b bs).1) r := by
  obtain ⟨hndSegs, -, hapart⟩ := List.nodup_append.mp hnd
  have hq : ∀ c ∈ b :: bs, rest.head? ≠ some c := by
    intro c hc hhead
    refine hapart c ?_ c (List.mem_of_mem_head? hhead) rfl
    exact List.mem_append_right _ (List.mem_append_right _ hc)
  obtain ⟨m₁, e, r, hrun, hent₁, hsame₁, hlast, hch₁⟩ :=
    hashmapMerge_spec cmp hlen (List.nodup_append.mp hndSegs).2.1 hq h.left h.right
  obtain ⟨m₂, hlink, hent₂, hsame₂, hch₂⟩ :=
    appendSegment_spec hndSegs (mergeRuns_perm cmp m.entry a as b bs) hfirst hD hsame₁ (by simp) hch₁
  refine ⟨m₂, e, r, fun fuel => ?_, hent₂.trans hent₁, hsame₂, hlast, hch₂⟩
  rw [h.msortPass_eq cmp hrun, hlink]
  rfl

/-- One pass over the remaining buckets `R`, behind the buckets `D` that are
    merged already.  `out` is what the pass makes of `R`; of it, the buckets `D'`
    are linked behind `D` and the leftover `R'` is not linked yet. -/
theorem msortPass_spec (cmp : Compare K) {gap len : Nat} (hgap : 0 < gap) :
    ∀ (fuel : Nat) (D R : List Nat) (m : Hashmap K V) (prevend : Option Nat),
      R.length < fuel → R.length ≤ len → (D ++ R).Nodup → m.first = (D ++ R).head? →
      (D ≠ [] → prevend = D.getLast? ∧ ∃ r, Chain m.next m.first D r) →
      Chain m.next R.head? R none →
      ∃ m' prevend' D' R',
        msortPass cmp gap len fuel m prevend R.head? = some (m', prevend', R'.head?) ∧
        (mergePass cmp gap fuel R m.entry).1 = D' ++ R' ∧
        m'.entry = (mergePass cmp gap fuel R m.entry).2 ∧ SameOutside (D ++ R) m m' ∧
        (D ++ D' ≠ [] → prevend' = (D ++ D').getLast? ∧ ∃ r, Chain m'.next m'.first (D ++ D') r) ∧
        Chain m'.next R'.head? R' none ∧ (gap < R.length → D' ≠ []) := by
  intro fuel
  -- Induction on the fuel: what an iteration has merged joins the buckets `D`.
  induction fuel with
  | zero => intro D R m prevend h; omega
  | succ fuel ih =>
      intro D R m prevend hfuel hlen hnd hfirst hD hR
      cases R with
      | nil =>
          refine ⟨m, prevend, [], [], rfl, ?_, ?_, SameOutside.refl _ m, by simpa using hD,
            rfl, by simp⟩ <;> simp [mergePass]
      | cons a R =>
          obtain ⟨g, rfl⟩ : ∃ g, gap = g + 1 := ⟨gap - 1, by omega⟩
          cases hrest : R.drop g with
          | nil =>
              -- one segment is left over: the loop breaks
              obtain ⟨hend1, hnext1⟩ := segmentEnd_spec g a R hR
              have hshort : R.length ≤ g := List.drop_eq_nil_iff.mp hrest
              rw [mergePass_short m.entry (Nat.succ_le_succ hshort)]
              refine ⟨m, prevend, [], a :: R, ?_, rfl, rfl, SameOutside.refl _ m, by simpa using hD,
                hR, ?_⟩
              · rw [hrest] at hnext1
                simp only [List.head?_cons, msortPass, Nat.add_sub_cancel, hend1, hnext1,
                  List.head?_nil]
              · simp
                omega
          | cons b rest =>
              -- two segments are merged and linked behind `D`
              have hsplit : R = R.take g ++ b :: (rest.take g ++ rest.drop g) := by
                rw [List.take_append_drop g rest, ← hrest, List.take_append_drop]
              have hlenR : (a :: R).length =
                  (R.take g).length + (rest.take g).length + (rest.drop g).length + 2 := by
                conv_lhs => rw [hsplit]
                simp
                omega
              have hsegs := twoSegments_of_chain hR hrest
              rw [mergePass_two cmp hrest]
              generalize R.take g = as at *
              generalize rest.take g = bs at *
              generalize rest.drop g = rest' at *
              subst hsplit
              have hnd' : (D ++ (a :: as ++ b :: bs) ++ rest').Nodup := by simpa using hnd
              have hdisj : ∀ i ∈ rest', i ∉ D ++ (a :: as ++ b :: bs) :=
                fun i hi hl => (List.nodup_append.mp hnd').2.2 i hl i hi rfl
              obtain ⟨m₂, e, r, hstep, hent₂, hsame₂, hlast, hch₂⟩ :=
                hsegs.merge cmp (show as.length + bs.length + 1 < len by omega) hnd'
                  (by simpa using hfirst) hD
              have hperm := mergeRuns_perm cmp m.entry a as b bs
              rw [← hent₂]
              generalize (mergeRuns cmp m.entry a as b bs).1 = M at *
              have hM : M ≠ [] := by
                rintro rfl
                simp at hlast
              have hDM : D ++ M ≠ [] := by simp [hM]
              -- the rest of the pass
              obtain ⟨m', prevend', D', R', hpass, htail, hent, hsame, hD', hR', -⟩ :=
                ih (D ++ M) rest' m₂ (some e) (by omega) (by omega)
                  ((((hperm.append_left D).append_right rest').nodup_iff).mpr hnd')
                  (by rw [List.head?_append_of_ne_nil _ hDM, hch₂.head?_eq hDM])
                  (fun _ => ⟨by rw [List.getLast?_append_of_ne_nil _ hM, hlast], r, hch₂⟩)
                  (hsame₂.chain hsegs.behind hdisj)
              refine ⟨m', prevend', M ++ D', R', ?_, by rw [htail, List.append_assoc], hent, ?_,
                by simpa using hD', hR', by simp [hM]⟩
              · rw [List.head?_cons, hstep]
                exact hpass
              · have hall : D ++ a :: (as ++ b :: (bs ++ rest')) =
                    D ++ (a :: as ++ b :: bs) ++ rest' := by simp
                rw [hall]
                refine (hsame₂.mono (List.subset_append_left _ _)).trans (hsame.mono ?_)
                exact ((hperm.append_left D).append_right rest').subset

/-- All passes: the list is whole again after each of them. -/
theorem msortLoop_spec (cmp : Compare K) :
    ∀ (fuel gap : Nat) (l : List Nat) (m : Hashmap K V) (prevend : Option Nat),
      0 < gap → l.length ≤ gap * 2 ^ fuel → l.length ≤ 2 ^ 30 → l.Nodup →
      Chain m.next m.first l none →
      ∃ m', msortLoop cmp l.length (fuel + 1) gap m prevend = some m' ∧
        m'.entry = (mergePasses cmp l.length (fuel + 1) gap l m.entry).2 ∧
        SameOutside l m m' ∧
        Chain m'.next m'.first (mergePasses cmp l.length (fuel + 1) gap l m.entry).1 none := by
  intro fuel
  induction fuel with
  | zero =>
      intro gap l m prevend _ hlen _ _ hch
      have hlt : ¬ gap < l.length := by simpa using hlen
      refine ⟨m, by simp [msortLoop, hlt], by simp [mergePasses, hlt], SameOutside.refl l m, ?_⟩
      simpa [mergePasses, hlt] using hch
  | succ fuel ih =>
      intro gap l m prevend hgap hlen hmax hnd hch
      by_cases hlt : gap < l.length
      · have hfirst : m.first = l.head? := hch.eq_head?
        obtain ⟨m₁, prevend₁, D, R, hpass, hout, hent, hsame, hD, hR, hne⟩ :=
          msortPass_spec cmp hgap (l.length + 1) [] l m prevend (by omega) (Nat.le_refl _)
            (by simpa using hnd) (by simpa using hfirst) (by simp) (by rwa [hfirst] at hch)
        simp only [List.nil_append] at hsame hD
        obtain ⟨hprev, r, hchD⟩ := hD (hne hlt)
        obtain ⟨e, he⟩ : ∃ e, D.getLast? = some e :=
          ⟨_, List.getLast?_eq_some_getLast (hne hlt)⟩
        have hperm : (D ++ R).Perm l := hout ▸ (mergePass_perm cmp gap _ l m.entry).1
        have hndDR : (D ++ R).Nodup := hperm.symm.nodup hnd
        have heD : e ∈ D := List.mem_of_getLast? he
        have heR : e ∉ R := fun h => (List.nodup_append.mp hndDR).2.2 e heD e h rfl
        -- the link behind the last merged bucket is the one the loop mends
        have hwhole : Chain (m₁.setNext e R.head?).next (m₁.setNext e R.head?).first (D ++ R)
            none := by
          rw [Hashmap.next_setNext, chain_append]
          exact ⟨_, hchD.setLink_last (List.nodup_append.mp hndDR).1 he,
            hR.setLink_of_notMem heR⟩
        have hsame₁ : SameOutside l m (m₁.setNext e R.head?) :=
          hsame.trans (sameOutside_setNext m₁ _ (hperm.subset (List.mem_append_left _ heD)))
        have hlenDR : (D ++ R).length = l.length := hperm.length_eq
        obtain ⟨m', hrun, hent', hsame', hch'⟩ :=
          ih (gap * 2) (D ++ R) (m₁.setNext e R.head?) (some e) (by omega)
            (by rw [hlenDR, Nat.mul_assoc, ← Nat.pow_succ']; exact hlen) (by omega) hndDR hwhole
        rw [hlenDR] at hrun hent' hch'
        have hdouble : gap * 2 < intLimit := by
          simp only [intLimit]
          omega
        have hpasses : mergePasses cmp l.length (fuel + 1 + 1) gap l m.entry =
            mergePasses cmp l.length (fuel + 1) (gap * 2) (D ++ R) (m₁.setNext e R.head?).entry := by
          rw [mergePasses, if_pos hlt, Hashmap.entry_setNext, hent, ← hout]
        rw [hpasses]
        refine ⟨m', ?_, hent', hsame₁.trans (hsame'.mono hperm.subset), hch'⟩
        rw [msortLoop, if_pos hlt, hfirst, hpass]
        simpa [hprev, he, hdouble] using hrun
      · refine ⟨m, by simp [msortLoop, hlt], by simp [mergePasses, hlt], SameOutside.refl l m, ?_⟩
        simpa [mergePasses, hlt] using hch

/-- What `hashmap_sort` does to the entry list `l`: it terminates, links the
    buckets in the order of `mergePasses`, and moves the entries as it says. -/
theorem hashmapSort_spec (cmp : Compare K) {m : Hashmap K V} {l : List Nat}
    (hch : Chain m.next m.first l none) (hnd : l.Nodup) (hcount : m.count = l.length)
    (hmax : l.length ≤ 2 ^ 30) :
    ∃ m', hashmapSort cmp m = some m' ∧
      m'.entry = (mergePasses cmp l.length 32 1 l m.entry).2 ∧ SameOutside l m m' ∧
      Chain m'.next m'.first (mergePasses cmp l.length 32 1 l m.entry).1 none := by
  cases l with
  | nil =>
      have hnull : m.first = none := hch
      refine ⟨m, by simp [hashmapSort, hashmapMsort, hnull], ?_, SameOutside.refl _ m, ?_⟩
      · simp [mergePasses]
      · simpa [mergePasses] using hch
  | cons a l =>
      have hfirst : m.first ≠ none := by simp [hch.1]
      obtain ⟨m', hrun, h⟩ :=
        msortLoop_spec cmp 31 1 (a :: l) m none (by omega) (by omega) hmax hnd hch
      exact ⟨m', by rw [hashmapSort, hashmapMsort, if_neg hfirst, hcount, hrun], h⟩

/-- The sort loses nothing, whatever the comparison function answers: it ends
    with a null-terminated list of the same buckets, each once, and these hold the
    same entries up to order. -/
theorem hashmapSort_losesNothing (cmp : Compare K) (m : Hashmap K V) (l : List Nat)
    (hch : Chain m.next m.first l none) (hcount : m.count = l.length)
    (hmax : m.count ≤ 2 ^ 30) :
    ∃ m' l', hashmapSort cmp m = some m' ∧ Chain m'.next m'.first l' none ∧ l'.Nodup ∧
      l'.length = m.count ∧ l'.Perm l ∧ (l'.map m'.entry).Perm (l.map m.entry) := by
  have hnd := hch.nodup
  obtain ⟨m', hrun, hent, -, hch'⟩ := hashmapSort_spec cmp hch hnd hcount (hcount ▸ hmax)
  obtain ⟨hperm, hmoved⟩ := mergePasses_perm cmp l.length 32 1 l m.entry
  refine ⟨m', _, hrun, hch', hch'.nodup, hperm.length_eq.trans hcount.symm, hperm, ?_⟩
  -- the entries move among the buckets of `l`, then the buckets are reordered
  rw [hent]
  exact (hperm.map _).trans (hmoved.map_perm hnd)

/-- Two buckets and a comparison function that answers `1` for any two keys. -/
theorem hashmapSort_losesNothing_pair :
    let m : Hashmap Nat Unit :=
      { buckets := fun i =>
          { key := some i, ksize := 8, hash := 0, value := (),
            next := if i = 0 then some 1 else none }
        capacity := 20, count := 2, first := some 0, last := some 1 }
    ∃ m' l', hashmapSort (fun _ _ => 1) m = some m' ∧ Chain m'.next m'.first l' none ∧
      l'.Nodup ∧ l'.length = m.count ∧ l'.Perm [0, 1] ∧
      (l'.map m'.entry).Perm ([0, 1].map m.entry) :=
  hashmapSort_losesNothing _ _ [0, 1] ⟨rfl, rfl, rfl⟩ rfl (by decide)

end GogetaTools.Map
