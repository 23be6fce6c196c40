/-
  GogetaTools.Map.Sorted

  When `hashmap_sort` sorts.

  `_hashmap_merge` makes the second segment the larger one by exchanging the
  contents of the two first buckets and then of the two last ones.  For segments
  of one node the second exchange undoes the first, so the first pass compares
  nothing and leaves every pair as it is.  For segments of two nodes the two
  exchanges swap the segments, which is right.  For longer ones they only swap
  the ends.  In terms of the keys in list order:

    * `PairsInOrder`     — the pairs that the first pass leaves are in order,
    * `LongHeadsInOrder` — no segments of four or more nodes are exchanged; the
                           head of such a segment is the smaller one of its first
                           and its third key (`headKey`).

  Without exchanges of long segments the later passes merge sorted blocks, and
  nothing but sorted blocks, into sorted blocks (`Passed.blocksInOrder_iff`), so
  that the pairs decide (`hashmapSort_sorts_iff`).
-/

import GogetaTools.Map.SortUsable

namespace GogetaTools.Map

open LinkedChain

variable {K V : Type}

/-! ## Keys in order -/

/-- The comparison function is a total preorder on the keys `ks`. -/
structure OrdersKeys (cmp : Compare K) (ks : List (Option K)) : Prop where
  total : ∀ a ∈ ks, ∀ b ∈ ks, ¬ cmp a b > 0 ∨ ¬ cmp b a > 0
  trans : ∀ a ∈ ks, ∀ b ∈ ks, ∀ c ∈ ks, ¬ cmp a b > 0 → ¬ cmp b c > 0 → ¬ cmp a c > 0

/-- No key is smaller than one in front of it. -/
def InOrder (cmp : Compare K) (ks : List (Option K)) : Prop :=
  ks.Pairwise fun a b => ¬ cmp a b > 0

/-- Every block of `g` keys is in order, the last one may be shorter. -/
def BlocksInOrder (cmp : Compare K) (g : Nat) (ks : List (Option K)) : Prop :=
  ∀ i, InOrder cmp ((ks.drop (g * i)).take g)

theorem OrdersKeys.of_subset {cmp : Compare K} {ks ks' : List (Option K)} (h : OrdersKeys cmp ks)
    (hsub : ks' ⊆ ks) : OrdersKeys cmp ks' :=
  ⟨fun a ha b hb => h.total a (hsub ha) b (hsub hb),
    fun a ha b hb c hc => h.trans a (hsub ha) b (hsub hb) c (hsub hc)⟩

section Blocks

variable {cmp : Compare K} {g : Nat}

theorem blocksInOrder_append {xs ys : List (Option K)} (hxs : xs.length = g) :
    BlocksInOrder cmp g (xs ++ ys) ↔ InOrder cmp xs ∧ BlocksInOrder cmp g ys := by
  have hsucc : ∀ i, (xs ++ ys).drop (g * (i + 1)) = ys.drop (g * i) := by
    intro i
    rw [Nat.mul_succ, Nat.add_comm, ← List.drop_drop, ← hxs, List.drop_left]
  have hzero : ((xs ++ ys).drop (g * 0)).take g = xs := by
    rw [Nat.mul_zero, List.drop_zero, ← hxs, List.take_left]
  constructor
  · intro h
    refine ⟨hzero ▸ h 0, ?_⟩
    intro i
    have hi := h (i + 1)
    rwa [hsucc] at hi
  · rintro ⟨hx, hy⟩ i
    cases i with
    | zero =>
        rw [hzero]
        exact hx
    | succ i =>
        rw [hsucc]
        exact hy i

theorem blocksInOrder_of_length_le {ks : List (Option K)} (h : ks.length ≤ g) :
    BlocksInOrder cmp g ks ↔ InOrder cmp ks := by
  constructor
  · intro hb
    have h0 := hb 0
    rwa [Nat.mul_zero, List.drop_zero, List.take_of_length_le h] at h0
  · intro ho i
    exact (ho.sublist (List.drop_sublist _ _)).sublist (List.take_sublist _ _)

end Blocks

/-! ## A merge is in order exactly if both lists are -/

theorem sublist_merge {α : Type} (le : α → α → Bool) (xs ys : List α) :
    xs.Sublist (List.merge xs ys le) ∧ ys.Sublist (List.merge xs ys le) := by
  induction xs, ys using List.merge.induct le with
  | case1 ys => simp
  | case2 xs hne => simp
  | case3 x xs y ys hxy ih =>
      rw [List.cons_merge_cons_pos _ _ _ hxy]
      exact ⟨ih.1.cons_cons x, ih.2.cons x⟩
  | case4 x xs y ys hxy ih =>
      rw [List.cons_merge_cons_neg _ _ _ hxy]
      exact ⟨ih.1.cons y, ih.2.cons_cons y⟩

section Merge

variable {cmp : Compare K} {ks : List (Option K)}

/-- The keys of a merge: the left one goes first unless it compares greater. -/
def mergeKeys (cmp : Compare K) (xs ys : List (Option K)) : List (Option K) :=
  List.merge xs ys fun a b => ¬ cmp a b > 0

/-- A key that is not greater than the first of keys in order is not greater than any. -/
theorem OrdersKeys.not_gt_of_mem (hcmp : OrdersKeys cmp ks) {a b : Option K} {ys : List (Option K)}
    (ha : a ∈ ks) (hys : b :: ys ⊆ ks) (hab : ¬ cmp a b > 0) (hy : InOrder cmp (b :: ys)) :
    ∀ c ∈ b :: ys, ¬ cmp a c > 0 := by
  intro c hc
  obtain ⟨hbk, hysk⟩ := List.cons_subset.mp hys
  rcases List.mem_cons.mp hc with rfl | hc
  · exact hab
  · exact hcmp.trans a ha b hbk c (hysk hc) hab ((List.pairwise_cons.mp hy).1 c hc)

/-- A key in front of a merge. -/
theorem inOrder_cons_merge {a : Option K} {xs ys : List (Option K)}
    (hx : ∀ c ∈ xs, ¬ cmp a c > 0) (hy : ∀ c ∈ ys, ¬ cmp a c > 0)
    (h : InOrder cmp (mergeKeys cmp xs ys)) : InOrder cmp (a :: mergeKeys cmp xs ys) := by
  refine List.pairwise_cons.mpr ⟨?_, h⟩
  intro c hc
  rcases List.mem_append.mp ((List.merge_perm_append _).subset hc) with hc | hc
  · exact hx c hc
  · exact hy c hc

theorem inOrder_mergeKeys (hcmp : OrdersKeys cmp ks) {xs ys : List (Option K)} (hxs : xs ⊆ ks)
    (hys : ys ⊆ ks) : InOrder cmp (mergeKeys cmp xs ys) ↔ InOrder cmp xs ∧ InOrder cmp ys := by
  constructor
  · intro h
    obtain ⟨hx, hy⟩ := sublist_merge (fun a b => decide (¬ cmp a b > 0)) xs ys
    exact ⟨h.sublist hx, h.sublist hy⟩
  · rintro ⟨hx, hy⟩
    unfold mergeKeys
    induction xs, ys using List.merge.induct (fun a b => decide (¬ cmp a b > 0)) with
    | case1 ys => simpa using hy
    | case2 xs hne => simpa using hx
    | case3 x xs y ys hxy ih =>
        have hxy' : ¬ cmp x y > 0 := of_decide_eq_true hxy
        obtain ⟨hxk, hxsk⟩ := List.cons_subset.mp hxs
        obtain ⟨hyk, hysk⟩ := List.cons_subset.mp hys
        have hrest := ih hxsk hys (List.pairwise_cons.mp hx).2 hy
        rw [List.cons_merge_cons_pos _ _ _ hxy]
        -- `x` is not greater than `y`, hence than nothing behind `y`
        exact inOrder_cons_merge (List.pairwise_cons.mp hx).1 (hcmp.not_gt_of_mem hxk hys hxy' hy) hrest
    | case4 x xs y ys hxy ih =>
        have hxy' : cmp x y > 0 := by simpa using hxy
        obtain ⟨hxk, hxsk⟩ := List.cons_subset.mp hxs
        obtain ⟨hyk, hysk⟩ := List.cons_subset.mp hys
        have hyx : ¬ cmp y x > 0 := (hcmp.total x hxk y hyk).resolve_left (fun h => h hxy')
        have hrest := ih hxs hysk hx (List.pairwise_cons.mp hy).2
        rw [List.cons_merge_cons_neg _ _ _ hxy]
        exact inOrder_cons_merge (hcmp.not_gt_of_mem hyk hxs hyx hx) (List.pairwise_cons.mp hy).1 hrest

/-- What `_hashmap_merge` makes of two segments whose heads are in order. -/
theorem inOrder_cons_mergeKeys (hcmp : OrdersKeys cmp ks) {a b : Option K}
    {xs ys : List (Option K)} (hxs : a :: xs ⊆ ks) (hys : b :: ys ⊆ ks) (hab : ¬ cmp a b > 0) :
    InOrder cmp (a :: mergeKeys cmp xs (b :: ys)) ↔
      InOrder cmp (a :: xs) ∧ InOrder cmp (b :: ys) := by
  obtain ⟨hak, hxsk⟩ := List.cons_subset.mp hxs
  constructor
  · intro h
    obtain ⟨hx, hy⟩ := sublist_merge (fun a b => decide (¬ cmp a b > 0)) xs (b :: ys)
    exact ⟨h.sublist (hx.cons_cons a), h.sublist (hy.cons a)⟩
  · rintro ⟨hx, hy⟩
    have hrest := (inOrder_mergeKeys hcmp hxsk hys).mpr ⟨(List.pairwise_cons.mp hx).2, hy⟩
    exact inOrder_cons_merge (List.pairwise_cons.mp hx).1 (hcmp.not_gt_of_mem hak hys hab hy) hrest

end Merge

/-! ## The passes over long segments -/

section Passes

variable {cmp : Compare K} {ent : Nat → Entry K V} {g : Nat}

theorem map_merge_key (xs ys : List Nat) :
    (List.merge xs ys (takesLeft cmp ent)).map (fun i => (ent i).key) =
      mergeKeys cmp (xs.map fun i => (ent i).key) (ys.map fun i => (ent i).key) :=
  List.map_merge fun _ _ _ _ => rfl

theorem headsInOrderAt_head {a b : Nat} {as bs l : List Nat} (has : (a :: as).length = g)
    (h : HeadsInOrderAt cmp g ((a :: as ++ b :: bs ++ l).map fun i => (ent i).key)) :
    ¬ cmp (ent a).key (ent b).key > 0 := by
  refine h 0 (ent a).key rfl (ent b).key ?_
  have hdrop : ((a :: as ++ b :: bs ++ l).map fun i => (ent i).key).drop g =
      (b :: bs ++ l).map fun i => (ent i).key := by
    have hg : g = ((a :: as).map fun i => (ent i).key).length := by rw [List.length_map, has]
    rw [List.append_assoc, List.map_append, hg, List.drop_left]
  rw [fromPair, Nat.mul_zero, List.drop_zero, hdrop]
  rfl

/-- The buckets of one merge whose heads are in order. -/
theorem inOrder_merged_iff {a b : Nat} {as bs as' bs' l : List Nat} (ha : (a :: as).length = g)
    (has : as'.Perm as) (hbs : bs'.Perm bs)
    (hcmp : OrdersKeys cmp ((a :: as ++ b :: bs ++ l).map fun i => (ent i).key))
    (hheads : HeadsInOrderAt cmp g ((a :: as ++ b :: bs ++ l).map fun i => (ent i).key)) :
    InOrder cmp ((a :: List.merge as' (b :: bs') (takesLeft cmp ent)).map fun i => (ent i).key) ↔
      InOrder cmp ((a :: as').map fun i => (ent i).key) ∧
        InOrder cmp ((b :: bs').map fun i => (ent i).key) := by
  have hleft : a :: as' ⊆ a :: as ++ b :: bs ++ l := fun i hi =>
    List.mem_append_left _ (List.mem_append_left _ ((has.cons a).subset hi))
  have hright : b :: bs' ⊆ a :: as ++ b :: bs ++ l := fun i hi =>
    List.mem_append_left _ (List.mem_append_right _ ((hbs.cons b).subset hi))
  rw [List.map_cons, map_merge_key]
  exact inOrder_cons_mergeKeys hcmp (List.map_subset (fun i => (ent i).key) hleft)
    (List.map_subset (fun i => (ent i).key) hright) (headsInOrderAt_head ha hheads)

/-- A pass that exchanges nothing makes its blocks sorted exactly out of sorted
    blocks. -/
theorem Passed.blocksInOrder_iff {l o o' : List Nat} (h : Passed cmp ent g l o o')
    (hcmp : OrdersKeys cmp (l.map fun i => (ent i).key))
    (hheads : HeadsInOrderAt cmp g (l.map fun i => (ent i).key)) :
    BlocksInOrder cmp (2 * g) (o'.map fun i => (ent i).key) ↔
      BlocksInOrder cmp g (o.map fun i => (ent i).key) := by
  induction h with
  | @rest l o hle hp _ =>
      have hlen : (o.map fun i => (ent i).key).length ≤ g := by
        rw [List.length_map, hp.length_eq]
        exact hle
      rw [blocksInOrder_of_length_le hlen, blocksInOrder_of_length_le (by omega)]
  | @last a b as bs as' bs' ha hb has hbs =>
      have ha' : ((a :: as').map fun i => (ent i).key).length = g := by
        rw [List.length_map, (has.cons a).length_eq, ha]
      have hb' : ((b :: bs').map fun i => (ent i).key).length ≤ g := by
        rw [List.length_map, (hbs.cons b).length_eq]
        exact hb
      have hlen : ((a :: List.merge as' (b :: bs') (takesLeft cmp ent)).map
          fun i => (ent i).key).length ≤ 2 * g := by
        simp only [List.length_map, List.length_cons, List.length_merge] at ha' hb' ⊢
        omega
      rw [← List.append_nil (a :: as ++ b :: bs)] at hcmp hheads
      rw [blocksInOrder_of_length_le hlen, inOrder_merged_iff ha has hbs hcmp hheads,
        List.map_append, blocksInOrder_append ha', blocksInOrder_of_length_le hb']
  | @pair a b as bs as' bs' l o o' ha hb has hbs _ _ ih =>
      have ha' : ((a :: as').map fun i => (ent i).key).length = g := by
        rw [List.length_map, (has.cons a).length_eq, ha]
      have hb' : ((b :: bs').map fun i => (ent i).key).length = g := by
        rw [List.length_map, (hbs.cons b).length_eq, hb]
      have hlen : ((a :: List.merge as' (b :: bs') (takesLeft cmp ent)).map
          fun i => (ent i).key).length = 2 * g := by
        simp only [List.length_map, List.length_cons, List.length_merge] at ha' hb' ⊢
        omega
      -- what is behind the two segments
      have hpair : ((a :: as ++ b :: bs).map fun i => (ent i).key).length = 2 * g := by
        rw [List.length_map, List.length_append, ha, hb]
        omega
      have hrest : BlocksInOrder cmp (2 * g) (o'.map fun i => (ent i).key) ↔
          BlocksInOrder cmp g (o.map fun i => (ent i).key) := by
        rw [List.map_append] at hcmp hheads
        exact ih (hcmp.of_subset (List.subset_append_right _ _)) (headsInOrderAt_drop hpair hheads)
      have hsplit : BlocksInOrder cmp g ((a :: as' ++ b :: bs' ++ o).map fun i => (ent i).key) ↔
          InOrder cmp ((a :: as').map fun i => (ent i).key) ∧
            InOrder cmp ((b :: bs').map fun i => (ent i).key) ∧
              BlocksInOrder cmp g (o.map fun i => (ent i).key) := by
        rw [List.append_assoc, List.map_append, blocksInOrder_append ha', List.map_append,
          blocksInOrder_append hb']
      rw [List.map_append, blocksInOrder_append hlen, inOrder_merged_iff ha has hbs hcmp hheads,
        hsplit, and_assoc, and_congr_right_iff]
      intro _
      rw [and_congr_right_iff]
      exact fun _ => hrest

/-- From the pass with `gap = 2 ^ t` on: the list comes out in order exactly if
    the blocks that this pass merges are. -/
theorem mergePasses_inOrder_iff (ent : Nat → Entry K V) {l : List Nat}
    (hcmp : OrdersKeys cmp (l.map fun i => (ent i).key)) :
    ∀ (fuel t : Nat) (o : List Nat), 0 < t → l.length ≤ 2 ^ t * 2 ^ fuel →
      (∀ s ≥ t, HeadsInOrderAt cmp (2 ^ s) (l.map fun i => (ent i).key)) →
      Blocks (2 ^ t) l o →
      let out := mergePasses cmp l.length fuel (2 ^ t) o ent
      out.2 = ent ∧ (InOrder cmp (out.1.map fun i => (ent i).key) ↔
        BlocksInOrder cmp (2 ^ t) (o.map fun i => (ent i).key)) := by
  have done : ∀ (t : Nat) (o : List Nat), l.length ≤ 2 ^ t → Blocks (2 ^ t) l o →
      (InOrder cmp (o.map fun i => (ent i).key) ↔
        BlocksInOrder cmp (2 ^ t) (o.map fun i => (ent i).key)) := by
    intro t o hle hB
    rw [blocksInOrder_of_length_le (by rw [List.length_map, hB.perm.length_eq]; exact hle)]
  -- Induction on the passes: each keeps the condition, with blocks of twice the size.
  intro fuel
  induction fuel with
  | zero =>
      intro t o _ hlen _ hB
      exact ⟨rfl, done t o (by omega) hB⟩
  | succ fuel ih =>
      intro t o ht hlen hheads hB
      by_cases hlt : 2 ^ t < l.length
      · obtain ⟨hpass, hent⟩ : Passed cmp ent (2 ^ t) l o _ ∧ _ :=
          mergePass_passed (l.length + 1) l o (Nat.two_pow_pos t)
            (by rw [hB.perm.length_eq]; omega) hB (Or.inr (hheads t (Nat.le_refl t)))
        have hblocks := hpass.blocks
        have hiff := hpass.blocksInOrder_iff hcmp (hheads t (Nat.le_refl t))
        rw [Nat.mul_comm, ← Nat.pow_succ] at hblocks hiff
        obtain ⟨hE, hout⟩ := ih (t + 1) _ (Nat.succ_pos t) (by
          rw [Nat.pow_succ, Nat.mul_assoc, Nat.mul_comm 2, ← Nat.pow_succ]
          exact hlen) (fun s hs => hheads s (by omega)) hblocks
        simp only [mergePasses_of_lt fuel hlt hent, ← Nat.pow_succ]
        exact ⟨hE, hout.trans hiff⟩
      · rw [mergePasses, if_neg hlt]
        exact ⟨rfl, done t o (by omega) hB⟩

end Passes

/-! ## The passes over single nodes and over pairs -/

/-- Two segments of two keys: the two exchanges swap the segments. -/
def mergeTwoTwo (cmp : Compare K) (a b c d : Option K) : List (Option K) :=
  if cmp a c > 0 then c :: mergeKeys cmp [d] [a, b] else a :: mergeKeys cmp [b] [c, d]

/-- Two keys and one: the one bucket is `start2` and `end2`, so that `b` ends up in it. -/
def mergeTwoOne (cmp : Compare K) (a b c : Option K) : List (Option K) :=
  if cmp a c > 0 then c :: mergeKeys cmp [a] [b] else a :: mergeKeys cmp [b] [c]

/-- The pass with `gap = 2`, on the keys. -/
def pairPass (cmp : Compare K) : List (Option K) → List (Option K)
  | a :: b :: c :: d :: ks => mergeTwoTwo cmp a b c d ++ pairPass cmp ks
  | [a, b, c] => mergeTwoOne cmp a b c
  | ks => ks

section FirstPasses

variable {cmp : Compare K} {ent : Nat → Entry K V}

/-- Merging single nodes puts the second behind the first, whatever their keys are. -/
theorem Passed.eq_of_single {l o o' : List Nat} (h : Passed cmp ent 1 l o o') : o' = o := by
  have hnil : ∀ {a : Nat} {as as' : List Nat}, (a :: as).length = 1 → as'.Perm as → as' = [] := by
    intro a as as' ha has
    have has0 : as = [] := by simpa using ha
    exact (has0 ▸ has).eq_nil
  induction h with
  | rest _ _ _ => rfl
  | last ha _ has _ => rw [hnil ha has, List.nil_merge, List.singleton_append]
  | pair ha _ has _ _ _ ih => rw [hnil ha has, List.nil_merge, List.singleton_append, ih]

theorem mergePass_single {fuel : Nat} {l : List Nat} (hfuel : l.length < fuel) :
    mergePass cmp 1 fuel l ent = (l, ent) := by
  obtain ⟨hpass, hent⟩ : Passed cmp ent 1 l l _ ∧ _ := mergePass_passed fuel l l (by decide)
    hfuel (Blocks.refl (by decide) l) (Or.inl rfl)
  exact Prod.ext hpass.eq_of_single hent

@[simp] theorem swapEntries_left (ent : Nat → Entry K V) (a b : Nat) :
    swapEntries ent a b a = ent b := by
  simp [swapEntries]

@[simp] theorem swapEntries_right (ent : Nat → Entry K V) (a b : Nat) :
    swapEntries ent a b b = ent a := by
  simp [swapEntries]

theorem swapEntries_of_ne {a b i : Nat} (ent : Nat → Entry K V) (ha : i ≠ a) (hb : i ≠ b) :
    swapEntries ent a b i = ent i := by
  rw [swapEntries, Function.comp_apply, Equiv.swap_apply_of_ne_of_ne ha hb]

/-- Two segments of two nodes. -/
theorem mergeRuns_two_two {x y z w : Nat} (hnd : [x, y, z, w].Nodup) :
    let run := mergeRuns cmp ent x [y] z [w]
    run.1.map (fun i => (run.2 i).key) =
      mergeTwoTwo cmp (ent x).key (ent y).key (ent z).key (ent w).key := by
  have hne : x ≠ y ∧ x ≠ z ∧ x ≠ w ∧ y ≠ z ∧ y ≠ w ∧ z ≠ w := by
    simp only [List.nodup_cons, List.mem_cons, List.not_mem_nil, not_or] at hnd
    tauto
  obtain ⟨hxy, hxz, hxw, hyz, hyw, hzw⟩ := hne
  simp only [mergeRuns, mergeEntries, List.getLastD_cons, List.getLastD_nil, mergeTwoTwo]
  split
  · -- the entries of `x` and `z`, and those of `y` and `w`, have changed places
    rw [List.map_cons, map_merge_key]
    simp only [List.map_cons, List.map_nil, swapEntries_left, swapEntries_right,
      swapEntries_of_ne _ hxy hxw, swapEntries_of_ne _ (Ne.symm hyz) hzw,
      swapEntries_of_ne _ (Ne.symm hxw) (Ne.symm hzw),
      swapEntries_of_ne _ (Ne.symm hxy) hyz]
  · rw [List.map_cons, map_merge_key]
    rfl

/-- Two nodes and a single one. -/
theorem mergeRuns_two_one {x y z : Nat} (hnd : [x, y, z].Nodup) :
    let run := mergeRuns cmp ent x [y] z []
    run.1.map (fun i => (run.2 i).key) =
      mergeTwoOne cmp (ent x).key (ent y).key (ent z).key := by
  have hne : x ≠ y ∧ x ≠ z ∧ y ≠ z := by
    simp only [List.nodup_cons, List.mem_cons, List.not_mem_nil, not_or] at hnd
    tauto
  obtain ⟨hxy, hxz, hyz⟩ := hne
  simp only [mergeRuns, mergeEntries, List.getLastD_cons, List.getLastD_nil, mergeTwoOne]
  split
  · -- `z` got the entry of `x`, and passes it on to `y`
    rw [List.map_cons, map_merge_key]
    simp only [List.map_cons, List.map_nil, swapEntries_left, swapEntries_right,
      swapEntries_of_ne _ hxy hxz, swapEntries_of_ne _ (Ne.symm hxy) hyz]
  · rw [List.map_cons, map_merge_key]
    rfl

/-- The pass over pairs is `pairPass` on the keys. -/
theorem mergePass_pairs :
    ∀ (fuel : Nat) (l : List Nat) (ent : Nat → Entry K V), l.length < fuel → l.Nodup →
      let out := mergePass cmp 2 fuel l ent
      out.1.map (fun i => (out.2 i).key) = pairPass cmp (l.map fun i => (ent i).key) := by
  intro fuel
  induction fuel with
  | zero => intro l ent h; omega
  | succ fuel ih =>
      intro l ent hfuel hnd
      match l, hfuel, hnd with
      | [], _, _ => rw [mergePass_short ent (by simp)]; rfl
      | [x], _, _ => rw [mergePass_short ent (by simp)]; rfl
      | [x, y], _, _ => rw [mergePass_short ent (by simp)]; rfl
      | [x, y, z], _, hnd =>
          have hpass : mergePass cmp 2 (fuel + 1) [x, y, z] ent = mergeRuns cmp ent x [y] z [] := by
            have hblock := mergePass_block cmp fuel ent (show [x, y].length = 2 from rfl)
              (Or.inr ⟨show [z].length ≤ 2 by simp, (rfl : ([] : List Nat) = [])⟩)
            rw [mergePass_short _ (show ([] : List Nat).length ≤ 2 by simp), List.append_nil,
              List.append_nil] at hblock
            exact hblock
          simp only [hpass]
          exact mergeRuns_two_one hnd
      | x :: y :: z :: w :: rest, hfuel, hnd =>
          have hpass : mergePass cmp 2 (fuel + 1) (x :: y :: z :: w :: rest) ent =
              ((mergeRuns cmp ent x [y] z [w]).1 ++
                (mergePass cmp 2 fuel rest (mergeRuns cmp ent x [y] z [w]).2).1,
                (mergePass cmp 2 fuel rest (mergeRuns cmp ent x [y] z [w]).2).2) :=
            mergePass_block cmp fuel ent (show [x, y].length = 2 from rfl)
              (Or.inl (show [z, w].length = 2 from rfl))
          have hnd' : ([x, y, z, w] ++ rest).Nodup := hnd
          obtain ⟨hfour, hrest, hdisj⟩ := List.nodup_append.mp hnd'
          have hrun := @mergeRuns_two_two K V cmp ent x y z w hfour
          have hperm := mergeRuns_perm cmp ent x [y] z [w]
          have hmoved := mergeRuns_rearranged cmp ent x [y] z [w]
          have htail := ih rest (mergeRuns cmp ent x [y] z [w]).2
            (by simp only [List.length_cons] at hfuel; omega) hrest
          obtain ⟨-, hlater⟩ := mergePass_perm cmp 2 fuel rest (mergeRuns cmp ent x [y] z [w]).2
          simp only [hpass]
          generalize mergeRuns cmp ent x [y] z [w] = run at *
          -- the rest of the pass leaves these four, and they left the rest
          have hsame : run.1.map (fun i => ((mergePass cmp 2 fuel rest run.2).2 i).key) =
              run.1.map fun i => (run.2 i).key := by
            refine List.map_congr_left fun i hi => ?_
            have hi' : i ∈ [x, y, z, w] := hperm.subset hi
            rw [hlater.eq_of_notMem fun hmem => hdisj i hi' i hmem rfl]
          have hbefore : rest.map (fun i => (run.2 i).key) = rest.map fun i => (ent i).key := by
            refine List.map_congr_left fun i hi => ?_
            rw [hmoved.eq_of_notMem fun hmem => hdisj i hmem i hi rfl]
          rw [List.map_append, hsame, hrun, htail, hbefore]
          rfl

end FirstPasses

/-! ## The two conditions -/

/-- The pairs of neighbours, as the first pass leaves them, are in order; where
    two segments of two nodes and one node are merged last, the middle key must not
    be smaller than both others. -/
def PairsInOrder (cmp : Compare K) : List (Option K) → Prop
  | a :: b :: c :: d :: ks => ¬ cmp a b > 0 ∧ ¬ cmp c d > 0 ∧ PairsInOrder cmp ks
  | [a, b, c] => ¬ cmp a b > 0 ∨ ¬ cmp c b > 0
  | [a, b] => ¬ cmp a b > 0
  | _ => True

/-- The head of a segment of four or more nodes: the first pass leaves its first
    and third key in place, and the second one takes the smaller of them. -/
def headKey (cmp : Compare K) : List (Option K) → Option (Option K)
  | a :: _ :: c :: _ => some (if cmp a c > 0 then c else a)
  | a :: _ => some a
  | [] => none

/-- The heads of the segments that the passes with `gap = 4, 8, ..` merge are in
    order, so that no contents of long segments are exchanged. -/
def LongHeadsInOrder (cmp : Compare K) (ks : List (Option K)) : Prop :=
  ∀ t, 2 ≤ t → ∀ i, ∀ a ∈ headKey cmp (fromPair (2 ^ t) i ks),
    ∀ b ∈ headKey cmp ((fromPair (2 ^ t) i ks).drop (2 ^ t)), ¬ cmp a b > 0

section PairPass

variable {cmp : Compare K} {ks : List (Option K)}

theorem mergeKeys_perm (xs ys : List (Option K)) : (mergeKeys cmp xs ys).Perm (xs ++ ys) :=
  List.merge_perm_append _

theorem mergeTwoTwo_perm (a b c d : Option K) : (mergeTwoTwo cmp a b c d).Perm [a, b, c, d] := by
  rw [mergeTwoTwo]
  split
  · have hswap : ([c, d] ++ [a, b]).Perm ([a, b] ++ [c, d]) := List.perm_append_comm
    exact ((mergeKeys_perm [d] [a, b]).cons c).trans hswap
  · exact (mergeKeys_perm [b] [c, d]).cons a

theorem mergeTwoOne_perm (a b c : Option K) : (mergeTwoOne cmp a b c).Perm [a, b, c] := by
  rw [mergeTwoOne]
  split
  · have hswap : ([c] ++ [a, b]).Perm ([a, b] ++ [c]) := List.perm_append_comm
    exact ((mergeKeys_perm [a] [b]).cons c).trans hswap
  · exact (mergeKeys_perm [b] [c]).cons a

theorem pairPass_perm (ks : List (Option K)) : (pairPass cmp ks).Perm ks := by
  induction ks using pairPass.induct with
  | case1 a b c d ks ih => exact (mergeTwoTwo_perm a b c d).append ih
  | case2 a b c => exact mergeTwoOne_perm a b c
  | case3 ks h4 h3 => rw [pairPass] <;> assumption

theorem inOrder_pair {a b : Option K} : InOrder cmp [a, b] ↔ ¬ cmp a b > 0 := by
  simp [InOrder]

/-- Of two segments of two keys the result is in order exactly if both are. -/
theorem inOrder_mergeTwoTwo (hcmp : OrdersKeys cmp ks) {a b c d : Option K}
    (hsub : [a, b, c, d] ⊆ ks) :
    InOrder cmp (mergeTwoTwo cmp a b c d) ↔ ¬ cmp a b > 0 ∧ ¬ cmp c d > 0 := by
  have hab : [a, b] ⊆ ks := fun k hk => hsub (by simp at hk ⊢; tauto)
  have hcd : [c, d] ⊆ ks := fun k hk => hsub (by simp at hk ⊢; tauto)
  rw [mergeTwoTwo]
  split
  · rename_i hac
    have hca : ¬ cmp c a > 0 :=
      (hcmp.total a (hab (by simp)) c (hcd (by simp))).resolve_left fun h => h hac
    rw [inOrder_cons_mergeKeys hcmp hcd hab hca, inOrder_pair, inOrder_pair, and_comm]
  · rename_i hac
    rw [inOrder_cons_mergeKeys hcmp hab hcd hac, inOrder_pair, inOrder_pair]

theorem inOrder_cons_two (hcmp : OrdersKeys cmp ks) {a b : Option K} (c : Option K)
    (ha : a ∈ ks) (hb : b ∈ ks) :
    InOrder cmp (c :: mergeKeys cmp [a] [b]) ↔ ¬ cmp c a > 0 ∧ ¬ cmp c b > 0 := by
  have hmerged : InOrder cmp (mergeKeys cmp [a] [b]) :=
    (inOrder_mergeKeys hcmp (by simpa using ha) (by simpa using hb)).mpr
      ⟨List.pairwise_singleton _ a, List.pairwise_singleton _ b⟩
  have hmem : ∀ k, k ∈ mergeKeys cmp [a] [b] ↔ k = a ∨ k = b := by
    intro k
    rw [(mergeKeys_perm [a] [b]).mem_iff]
    simp
  constructor
  · intro h
    have hle := (List.pairwise_cons.mp h).1
    exact ⟨hle a ((hmem a).mpr (Or.inl rfl)), hle b ((hmem b).mpr (Or.inr rfl))⟩
  · rintro ⟨hca, hcb⟩
    refine List.pairwise_cons.mpr ⟨?_, hmerged⟩
    intro k hk
    rcases (hmem k).mp hk with rfl | rfl
    · exact hca
    · exact hcb

theorem inOrder_mergeTwoOne (hcmp : OrdersKeys cmp ks) {a b c : Option K}
    (hsub : [a, b, c] ⊆ ks) :
    InOrder cmp (mergeTwoOne cmp a b c) ↔ ¬ cmp a b > 0 ∨ ¬ cmp c b > 0 := by
  have ha : a ∈ ks := hsub (by simp)
  have hb : b ∈ ks := hsub (by simp)
  have hc : c ∈ ks := hsub (by simp)
  rw [mergeTwoOne]
  split
  · rename_i hac
    have hca : ¬ cmp c a > 0 := (hcmp.total a ha c hc).resolve_left fun h => h hac
    -- `c` is the smaller one of the two outer keys
    rw [inOrder_cons_two hcmp c ha hb]
    constructor
    · exact fun h => Or.inr h.2
    · rintro (hab | hcb)
      · exact ⟨hca, hcmp.trans c hc a ha b hb hca hab⟩
      · exact ⟨hca, hcb⟩
  · rename_i hac
    rw [inOrder_cons_two hcmp a hb hc]
    constructor
    · exact fun h => Or.inl h.1
    · rintro (hab | hcb)
      · exact ⟨hab, hac⟩
      · exact ⟨hcmp.trans a ha c hc b hb hac hcb, hac⟩

/-- The pass over pairs leaves blocks of four in order exactly out of pairs in order. -/
theorem blocksInOrder_pairPass (hcmp : OrdersKeys cmp ks) :
    ∀ {ks' : List (Option K)}, ks' ⊆ ks →
      (BlocksInOrder cmp 4 (pairPass cmp ks') ↔ PairsInOrder cmp ks') := by
  intro ks'
  induction ks' using pairPass.induct with
  | case1 a b c d rest ih =>
      intro hsub
      have hfour : [a, b, c, d] ⊆ ks := fun k hk => hsub (List.mem_append_left rest hk)
      have hrest : rest ⊆ ks := fun k hk => hsub (List.mem_append_right [a, b, c, d] hk)
      have hlen : (mergeTwoTwo cmp a b c d).length = 4 := (mergeTwoTwo_perm a b c d).length_eq
      rw [pairPass, PairsInOrder, blocksInOrder_append hlen, inOrder_mergeTwoTwo hcmp hfour,
        ih hrest, and_assoc]
  | case2 a b c =>
      intro hsub
      have hlen : (mergeTwoOne cmp a b c).length ≤ 4 := by
        rw [(mergeTwoOne_perm a b c).length_eq]
        simp
      rw [pairPass, PairsInOrder, blocksInOrder_of_length_le hlen, inOrder_mergeTwoOne hcmp hsub]
  | case3 ks' h4 h3 =>
      intro _
      -- fewer than three keys are left as they are
      match ks', h4, h3 with
      | [], _, _ => simp [pairPass, PairsInOrder, BlocksInOrder, InOrder]
      | [a], _, _ =>
          rw [pairPass, PairsInOrder, blocksInOrder_of_length_le (by simp)]
          · simp [InOrder]
          all_goals simp
      | [a, b], _, _ =>
          rw [pairPass, PairsInOrder, blocksInOrder_of_length_le (by simp), inOrder_pair]
          all_goals simp
      | [a, b, c], _, h3 => exact absurd rfl (h3 a b c)
      | a :: b :: c :: d :: rest, h4, _ => exact absurd rfl (h4 a b c d rest)

theorem pairPass_drop (ks : List (Option K)) (j : Nat) :
    (pairPass cmp ks).drop (4 * j) = pairPass cmp (ks.drop (4 * j)) := by
  induction j generalizing ks with
  | zero => rfl
  | succ j ih =>
      by_cases hle : ks.length ≤ 4 * (j + 1)
      · rw [List.drop_eq_nil_of_le hle,
          List.drop_eq_nil_of_le (by rw [(pairPass_perm ks).length_eq]; exact hle)]
        rfl
      · match ks, hle with
        | a :: b :: c :: d :: rest, _ =>
            have hlen : (mergeTwoTwo cmp a b c d).length = 4 :=
              (mergeTwoTwo_perm a b c d).length_eq
            have hdrop : (mergeTwoTwo cmp a b c d ++ pairPass cmp rest).drop 4 =
                pairPass cmp rest := by
              rw [← hlen, List.drop_left]
            rw [Nat.mul_succ, Nat.add_comm, ← List.drop_drop, ← List.drop_drop, pairPass, hdrop]
            exact ih rest
        | [a, b, c], hle => exact absurd (show 3 ≤ 4 * (j + 1) by omega) hle
        | [a, b], hle => exact absurd (show 2 ≤ 4 * (j + 1) by omega) hle
        | [a], hle => exact absurd (show 1 ≤ 4 * (j + 1) by omega) hle
        | [], hle => exact absurd (Nat.zero_le _) hle

theorem head?_pairPass (ks : List (Option K)) : (pairPass cmp ks).head? = headKey cmp ks := by
  match ks with
  | [] => rfl
  | [a] => rfl
  | [a, b] => rfl
  | [a, b, c] =>
      rw [pairPass, mergeTwoOne, headKey]
      split <;> rfl
  | a :: b :: c :: d :: rest =>
      rw [pairPass, mergeTwoTwo, headKey]
      split <;> rfl

/-- The heads after the pass over pairs are the ones the condition speaks of. -/
theorem LongHeadsInOrder.pairPass (h : LongHeadsInOrder cmp ks) {s : Nat} (hs : 2 ≤ s) :
    HeadsInOrderAt cmp (2 ^ s) (pairPass cmp ks) := by
  obtain ⟨t, rfl⟩ : ∃ t, s = t + 2 := ⟨s - 2, by omega⟩
  have hpow : 2 ^ (t + 2) = 4 * 2 ^ t := by rw [Nat.pow_add, Nat.mul_comm]
  intro i a ha b hb
  have hpair : fromPair (2 ^ (t + 2)) i (Map.pairPass cmp ks) =
      Map.pairPass cmp (fromPair (2 ^ (t + 2)) i ks) := by
    have hofs : 2 * 2 ^ (t + 2) * i = 4 * (2 * 2 ^ t * i) := by
      rw [hpow, Nat.mul_left_comm 2 4, Nat.mul_assoc 4]
    rw [fromPair, fromPair, hofs, pairPass_drop]
  rw [hpair, head?_pairPass] at ha
  rw [hpair, hpow, pairPass_drop, head?_pairPass, ← hpow] at hb
  exact h (t + 2) hs i a ha b hb

end PairPass

/-! ## The sort -/

/-- `hashmap_sort` returns, and following `next` from `first` visits the keys in
    order. -/
def SortsKeys (cmp : Compare K) (m : Hashmap K V) : Prop :=
  ∃ m' ks, hashmapSort cmp m = some m' ∧ listKeys m' = some ks ∧ InOrder cmp ks

/-- A pass with a `gap` that covers the list changes nothing. -/
theorem mergePasses_succ (cmp : Compare K) {len : Nat} (fuel gap : Nat) {l : List Nat}
    (ent : Nat → Entry K V) (hlen : l.length ≤ len) :
    mergePasses cmp len (fuel + 1) gap l ent =
      mergePasses cmp len fuel (gap * 2) (mergePass cmp gap (len + 1) l ent).1
        (mergePass cmp gap (len + 1) l ent).2 := by
  by_cases hlt : gap < len
  · rw [mergePasses, if_pos hlt]
  · rw [mergePass_short ent (show l.length ≤ gap by omega), mergePasses, if_neg hlt]
    cases fuel with
    | zero => rfl
    | succ fuel => rw [mergePasses, if_neg (by omega)]

/-- Without exchanges of long segments the pairs decide whether the keys come out
    in order. -/
theorem mergePasses_sorts_iff {cmp : Compare K} {l : List Nat} (ent : Nat → Entry K V)
    (hnd : l.Nodup) (hmax : l.length ≤ 2 ^ 30)
    (hcmp : OrdersKeys cmp (l.map fun i => (ent i).key))
    (hlong : LongHeadsInOrder cmp (l.map fun i => (ent i).key)) :
    let out := mergePasses cmp l.length 32 1 l ent
    InOrder cmp (out.1.map fun i => (out.2 i).key) ↔
      PairsInOrder cmp (l.map fun i => (ent i).key) := by
  have hone : mergePasses cmp l.length 32 1 l ent = mergePasses cmp l.length 31 2 l ent := by
    rw [mergePasses_succ cmp 31 1 ent (Nat.le_refl _), mergePass_single (Nat.lt_succ_self _)]
  have hpairs := @mergePass_pairs K V cmp (l.length + 1) l ent (Nat.lt_succ_self _) hnd
  have hperm := (mergePass_perm cmp 2 (l.length + 1) l ent).1
  have htwo := mergePasses_succ cmp 30 2 ent (Nat.le_refl l.length)
  -- from here on only the result of the second pass matters
  generalize mergePass cmp 2 (l.length + 1) l ent = pass at *
  have hlen : pass.1.length = l.length := hperm.length_eq
  have hcmp₂ : OrdersKeys cmp (pass.1.map fun i => (pass.2 i).key) := by
    rw [hpairs]
    exact hcmp.of_subset (pairPass_perm _).subset
  have hheads : ∀ s ≥ 2, HeadsInOrderAt cmp (2 ^ s) (pass.1.map fun i => (pass.2 i).key) := by
    intro s hs
    rw [hpairs]
    exact hlong.pairPass hs
  obtain ⟨hent, hout⟩ := mergePasses_inOrder_iff pass.2 hcmp₂ 30 2 pass.1 (by decide)
    (by omega) hheads (Blocks.refl (by decide) pass.1)
  rw [hlen] at hent hout
  simp only [hone, htwo]
  show InOrder cmp ((mergePasses cmp l.length 30 (2 ^ 2) pass.1 pass.2).1.map
    fun i => ((mergePasses cmp l.length 30 (2 ^ 2) pass.1 pass.2).2 i).key) ↔ _
  rw [hent, hout, hpairs]
  exact blocksInOrder_pairPass hcmp (List.Subset.refl _)

section Sorts

variable [Inhabited V] {mem : K → Nat → Byte}

omit [Inhabited V] in
theorem WF.sortsKeys_iff {m : Hashmap K V} {l : List Nat} (h : WF mem m l) {cmp : Compare K}
    (hcmp : OrdersKeys cmp (l.map m.key)) (hlong : LongHeadsInOrder cmp (l.map m.key)) :
    SortsKeys cmp m ↔ PairsInOrder cmp (l.map m.key) := by
  obtain ⟨m', hrun, hent, hsame, hch⟩ :=
    hashmapSort_spec cmp h.chain h.nodup h.count h.length_le
  have hiff := mergePasses_sorts_iff m.entry h.nodup h.length_le hcmp hlong
  have hperm := (mergePasses_perm cmp l.length 32 1 l m.entry).1
  simp only [← hent] at hiff
  generalize (mergePasses cmp l.length 32 1 l m.entry).1 = l' at *
  have hkeys : listKeys m' = some (l'.map m'.key) := by
    have hcount : l'.length ≤ m'.count := by
      rw [hsame.count, h.count, hperm.length_eq]
    rw [listKeys, foreachHashmapBucket_eq l' m'.count m'.first hcount hch]
    rfl
  refine Iff.trans ?_ hiff
  constructor
  · rintro ⟨m'', ks, hrun', hks, hord⟩
    cases hrun.symm.trans hrun'
    cases hkeys.symm.trans hks
    exact hord
  · exact fun hord => ⟨m', _, hrun, hkeys, hord⟩

/-- When `hashmap_sort` sorts a map of any size: as long as no two long segments
    have their heads out of order, it does exactly if the pairs are in order. -/
theorem hashmapSort_sorts_iff (mem : K → Nat → Byte) (cmp : Compare K) {m : Hashmap K V}
    (hm : Built mem m) :
    ∃ ks, listKeys m = some ks ∧
      (OrdersKeys cmp ks → LongHeadsInOrder cmp ks →
        (SortsKeys cmp m ↔ PairsInOrder cmp ks)) := by
  obtain ⟨l, hwf⟩ := hm.wf
  exact ⟨_, hwf.listKeys_eq, fun hcmp hlong => hwf.sortsKeys_iff hcmp hlong⟩

end Sorts

/-! ## Two keys inserted in descending order -/

theorem ordersKeys_compareKeys (ks : List (Option Word)) : OrdersKeys compareKeys ks :=
  ⟨fun a _ b _ => compareKeys_totalPreorder.total a b,
    fun a _ b _ c _ => compareKeys_totalPreorder.trans a b c⟩

/-- The theorem at a map whose sort exchanges two segments of two nodes. -/
theorem hashmapSort_sorts_iff_insertKeys :
    ∃ m, insertKeys [3, 4, 1, 2, 5] = some m ∧ SortsKeys compareKeys m := by
  have hkeys : (insertKeys [3, 4, 1, 2, 5]).bind listKeys =
      some [some 3, some 4, some 1, some 2, some 5] := by
    decide
  obtain ⟨m, hm, hlist⟩ := Option.bind_eq_some_iff.mp hkeys
  obtain ⟨ks, hks, hsorts⟩ := hashmapSort_sorts_iff wordBytes compareKeys (built_insertKeys hm)
  cases hlist.symm.trans hks
  refine ⟨m, hm, (hsorts (ordersKeys_compareKeys _) ?_).mpr ?_⟩
  · intro t ht i a ha b hb
    have hpow : 2 ^ 2 ≤ 2 ^ t := Nat.pow_le_pow_right (by decide) ht
    obtain rfl | ht3 : t = 2 ∨ 3 ≤ t := by omega
    · cases i with
      | zero =>
          -- 1 heads the first four, 5 the rest
          cases ha
          cases hb
          decide
      | succ i =>
          rw [fromPair, List.drop_eq_nil_of_le (show 5 ≤ 2 * 2 ^ 2 * (i + 1) by omega)] at ha
          cases ha
    · have hpow3 : 2 ^ 3 ≤ 2 ^ t := Nat.pow_le_pow_right (by decide) ht3
      have hgap : 5 ≤ 2 * 2 ^ t * i + 2 ^ t := Nat.le_add_left_of_le (by omega)
      rw [fromPair, List.drop_drop, List.drop_eq_nil_of_le hgap] at hb
      cases hb
  · simp [PairsInOrder, compareKeys]

/-- Two keys in descending order stay so: the second exchange undoes the first. -/
theorem hashmapSort_leaves_pair :
    ¬ ∀ (m : Hashmap Word Nat) (cmp : Compare Word), Built wordBytes m →
      TotalPreorder cmp → SortsKeys cmp m := by
  intro h
  have hafter : ((insertKeys [2, 1]).bind fun m =>
      (hashmapSort compareKeys m).bind listKeys) = some [some 2, some 1] := by decide
  obtain ⟨m, hm, hsort⟩ := Option.bind_eq_some_iff.mp hafter
  obtain ⟨m', ks, hrun, hks, hord⟩ := h m compareKeys (built_insertKeys hm)
    compareKeys_totalPreorder
  rw [hrun, Option.bind_some] at hsort
  cases hsort.symm.trans hks
  revert hord
  simp [InOrder, compareKeys]

end GogetaTools.Map
