/-
  GogetaTools.Map.Qsort

  `_hashmap_qsort`: the quick sort of the list of buckets, which nothing calls.

  It exchanges the entries of the buckets and leaves every link, and it stops at the
  bucket `end` instead of at an index.  On any map that was built it ends with the
  same buckets in the same places and the same entries, and those in front of `end` are
  in order for every comparison function that orders their keys (`hashmapQsort_sorts`).
  The merge sort that is called instead needs pairs of neighbours that are in order
  already (`PairsInOrder`).
-/

import GogetaTools.Lib.PivotSplit
import GogetaTools.Map.Sorted

namespace GogetaTools.Map

open LinkedChain PivotSplit

variable {K V : Type}

/-- The loop of `_hashmap_qsort`, `while (p != end)`; it answers `small`. -/
def qsortLoop (cmp : Compare K) (head : Nat) (stop : Option Nat) :
    Nat → Hashmap K V → Option Nat → Nat → Option (Hashmap K V × Nat)
  | 0, _, _, _ => none
  | fuel + 1, m, p, small =>
      if p ≠ stop then do
        let b ← p
        if cmp (m.key b) (m.key head) < 0 then
          let small ← m.next small
          let m := hashmapSwapBucket m small b
          qsortLoop cmp head stop fuel m (m.next b) small
        else qsortLoop cmp head stop fuel m (m.next b) small
      else some (m, small)

/-- `_hashmap_qsort`, recursing at most `fuel` deep. -/
def hashmapQsort (cmp : Compare K) :
    Nat → Hashmap K V → Option Nat → Option Nat → Option (Hashmap K V)
  | 0, _, _, _ => none
  | fuel + 1, m, head, stop =>
      match head with
      | none => some m
      | some h =>
          if some h = stop then some m
          else do
            let (m, small) ← qsortLoop cmp h stop (m.count + 1) m (m.next h) h
            let m := hashmapSwapBucket m h small
            let m ← hashmapQsort cmp fuel m (some h) (some small)
            hashmapQsort cmp fuel m (m.next small) stop

/-! ## Entries change places -/

/-- Nothing but the entries of the buckets `l` differs. -/
structure Exchanged (l : List Nat) (m m' : Hashmap K V) : Prop where
  same : SameOutside [] m m'
  entry : ∀ i, i ∉ l → m'.entry i = m.entry i

theorem Exchanged.refl (l : List Nat) (m : Hashmap K V) : Exchanged l m m :=
  ⟨SameOutside.refl [] m, fun _ _ => rfl⟩

theorem Exchanged.trans {l : List Nat} {m m' m'' : Hashmap K V} (h : Exchanged l m m')
    (h' : Exchanged l m' m'') : Exchanged l m m'' :=
  ⟨h.same.trans h'.same, fun i hi => (h'.entry i hi).trans (h.entry i hi)⟩

theorem Exchanged.mono {l l' : List Nat} {m m' : Hashmap K V} (h : Exchanged l m m')
    (hsub : l ⊆ l') : Exchanged l' m m' :=
  ⟨h.same, fun i hi => h.entry i fun hl => hi (hsub hl)⟩

theorem Exchanged.next_eq {l : List Nat} {m m' : Hashmap K V} (h : Exchanged l m m') :
    m'.next = m.next := by
  funext i
  exact h.same.next i List.not_mem_nil

theorem Exchanged.map_entry {l l' : List Nat} {m m' : Hashmap K V} (h : Exchanged l m m')
    (hdisj : ∀ i ∈ l', i ∉ l) : l'.map m'.entry = l'.map m.entry :=
  List.map_congr_left fun i hi => h.entry i (hdisj i hi)

theorem exchanged_swap {l : List Nat} (m : Hashmap K V) {a b : Nat} (ha : a ∈ l) (hb : b ∈ l) :
    Exchanged l m (hashmapSwapBucket m a b) := by
  refine ⟨sameOutside_hashmapSwapBucket [] m a b, ?_⟩
  intro i hi
  rw [entry_hashmapSwapBucket]
  apply swapEntries_of_ne
  · rintro rfl
    exact hi ha
  · rintro rfl
    exact hi hb

/-! ## The loop -/

/-- The bucket behind the last of `h :: S`. -/
theorem next_getLastD {next : Nat → Option Nat} {q : Option Nat} {T : List Nat} :
    ∀ (S : List Nat) (h : Nat), Chain next (next h) (S ++ T) q → next (S.getLastD h) = headOr T q := by
  intro S
  induction S with
  | nil => intro h hch; exact hch.eq_headOr
  | cons a S ih =>
      intro h hch
      rw [List.getLastD_cons]
      exact ih a hch.2

/-- A small entry changes places with the first of the others, which is in bucket `y`. -/
theorem map_swapEntries (ent : Nat → Entry K V) {S O O' R : List Nat} {x y : Nat}
    (hnd : (S ++ O ++ x :: R).Nodup) (hy : O ++ [x] = y :: O') :
    (S ++ [y]).map (swapEntries ent y x) = S.map ent ++ [ent x] ∧
      O'.map (swapEntries ent y x) = (O.map ent).rotate 1 ∧
      R.map (swapEntries ent y x) = R.map ent := by
  have hyx : swapEntries ent y x y = ent x := by
    rw [swapEntries, Function.comp_apply, Equiv.swap_apply_left]
  have hxy : swapEntries ent y x x = ent y := by
    rw [swapEntries, Function.comp_apply, Equiv.swap_apply_right]
  have hmap : ∀ l : List Nat, y ∉ l → x ∉ l → l.map (swapEntries ent y x) = l.map ent := by
    intro l hyl hxl
    refine List.map_congr_left fun i hi => swapEntries_of_ne ent ?_ ?_
    · rintro rfl
      exact hyl hi
    · rintro rfl
      exact hxl hi
  cases O with
  | nil =>
      cases hy
      simp only [List.append_nil, List.nodup_append, List.nodup_cons, List.mem_cons] at hnd
      obtain ⟨-, ⟨hxR, -⟩, hdisj⟩ := hnd
      have hxS : x ∉ S := fun hx => hdisj x hx x (Or.inl rfl) rfl
      rw [List.map_append, hmap S hxS hxS, hmap R hxR hxR, List.map_singleton, hyx]
      exact ⟨rfl, rfl, rfl⟩
  | cons z O =>
      rw [List.cons_append] at hy
      obtain ⟨rfl, rfl⟩ := List.cons.inj hy
      have hnd' : (z :: x :: (S ++ O ++ R)).Nodup := by
        refine (List.Perm.nodup_iff ?_).mp hnd
        have hx : (S ++ z :: O ++ x :: R).Perm (x :: (S ++ z :: O ++ R)) := List.perm_middle
        refine hx.trans ((List.Perm.cons x ?_).trans (List.Perm.swap z x _))
        rw [List.append_assoc, List.append_assoc, List.cons_append]
        exact List.perm_middle
      simp only [List.nodup_cons, List.mem_cons, List.mem_append, not_or] at hnd'
      obtain ⟨⟨-, ⟨hzS, hzO⟩, hzR⟩, ⟨⟨hxS, hxO⟩, hxR⟩, -⟩ := hnd'
      refine ⟨?_, ?_, hmap R hzR hxR⟩
      · rw [List.map_append, hmap S hzS hxS, List.map_singleton, hyx]
      · rw [List.map_append, hmap O hzO hxO, List.map_singleton, hxy, List.map_cons,
          List.rotate_cons_succ, List.rotate_zero]

/-- The test of the loop. -/
def before (cmp : Compare K) (pivot e : Entry K V) : Bool := decide (cmp e.key pivot.key < 0)

/-- The loop places the entries of all buckets of its segment. -/
theorem qsortLoop_spec {cmp : Compare K} {head : Nat} {stop : Option Nat} {pivot : Entry K V} :
    ∀ (R S O : List Nat) (fuel : Nat) (m : Hashmap K V) (p : Option Nat), R.length < fuel →
      (head :: (S ++ O ++ R)).Nodup → (∀ i ∈ R, stop ≠ some i) →
      Chain m.next (m.next head) (S ++ O ++ R) stop → Chain m.next p R stop → m.entry head = pivot →
      ∃ m' S' O', qsortLoop cmp head stop fuel m p (S.getLastD head) = some (m', S'.getLastD head) ∧
        S' ++ O' = S ++ O ++ R ∧ Exchanged (S ++ O ++ R) m m' ∧
        (R.map m.entry).foldl (place (before cmp pivot)) (S.map m.entry, O.map m.entry) =
          (S'.map m'.entry, O'.map m'.entry) := by
  intro R
  induction R with
  | nil =>
      intro S O fuel m p hfuel _ _ _ hp _
      obtain ⟨fuel, rfl⟩ : ∃ f, fuel = f + 1 := ⟨fuel - 1, by simp at hfuel; omega⟩
      have hdone : ¬ p ≠ stop := not_not_intro hp
      refine ⟨m, S, O, ?_, (List.append_nil _).symm, Exchanged.refl _ m, rfl⟩
      rw [qsortLoop, if_neg hdone]
  | cons x R ih =>
      intro S O fuel m p hfuel hnd hstop hch hp hpivot
      obtain ⟨fuel, rfl⟩ : ∃ f, fuel = f + 1 := ⟨fuel - 1, by simp at hfuel; omega⟩
      rw [List.length_cons] at hfuel
      obtain ⟨rfl, hrest⟩ := hp
      have hgo : some x ≠ stop := fun h => hstop x (List.mem_cons_self ..) h.symm
      have hstop' : ∀ i ∈ R, stop ≠ some i := fun i hi => hstop i (List.mem_cons_of_mem _ hi)
      obtain ⟨hhead, hnd'⟩ := List.nodup_cons.mp hnd
      have hxmem : x ∈ S ++ O ++ x :: R := List.mem_append_right _ (List.mem_cons_self ..)
      have hkey : m.key head = pivot.key := by rw [Hashmap.key, hpivot]
      rw [qsortLoop, if_pos hgo, Option.bind_eq_bind, Option.bind_some, hkey, List.map_cons, List.foldl_cons]
      by_cases hsmall : cmp (m.key x) pivot.key < 0
      · -- the first of the others, or `x` itself, is behind the small ones
        obtain ⟨y, O', hy⟩ : ∃ y O', O ++ [x] = y :: O' := by
          cases O with
          | nil => exact ⟨x, [], rfl⟩
          | cons y O => exact ⟨y, O ++ [x], rfl⟩
        have hsplit : S ++ O ++ x :: R = S ++ (y :: O' ++ R) := by
          rw [← hy]
          simp
        have hnext : m.next (S.getLastD head) = some y := by
          rw [hsplit] at hch
          exact next_getLastD S head hch
        have hymem : y ∈ S ++ O ++ x :: R := by
          rw [hsplit]
          simp
        obtain ⟨hS, hO, hR⟩ := map_swapEntries m.entry hnd' hy
        have hexch := exchanged_swap m hymem hxmem
        have hids : S ++ [y] ++ O' ++ R = S ++ O ++ x :: R := by
          rw [hsplit]
          simp
        have hbefore : before cmp pivot (m.entry x) = true := decide_eq_true hsmall
        obtain ⟨m', S', O'', hrun, happ, hexch', hfold⟩ := ih (S ++ [y]) O' fuel (hashmapSwapBucket m y x)
          (m.next x) (by omega) (by rw [hids]; exact hnd) hstop' (by rw [hids, hexch.next_eq]; exact hch)
          (by rw [hexch.next_eq]; exact hrest) (by rw [hexch.entry head hhead]; exact hpivot)
        rw [hids] at happ hexch'
        refine ⟨m', S', O'', ?_, happ, hexch.trans hexch', ?_⟩
        · rw [List.getLastD_concat] at hrun
          rw [if_pos hsmall, hnext, Option.bind_some]
          show qsortLoop cmp head stop fuel (hashmapSwapBucket m y x) ((hashmapSwapBucket m y x).next x) y = _
          rw [hexch.next_eq]
          exact hrun
        · rw [entry_hashmapSwapBucket, hS, hO, hR] at hfold
          rw [place, if_pos hbefore]
          exact hfold
      · have hbefore : ¬ before cmp pivot (m.entry x) = true := fun h => hsmall (of_decide_eq_true h)
        have hids : S ++ (O ++ [x]) ++ R = S ++ O ++ x :: R := by simp
        obtain ⟨m', S', O', hrun, happ, hexch', hfold⟩ := ih S (O ++ [x]) fuel m (m.next x) (by omega)
          (by rw [hids]; exact hnd) hstop' (by rw [hids]; exact hch) hrest hpivot
        rw [hids] at happ hexch'
        refine ⟨m', S', O', ?_, happ, hexch', ?_⟩
        · rw [if_neg hsmall]
          exact hrun
        · rw [List.map_append, List.map_singleton] at hfold
          rw [place, if_neg hbefore]
          exact hfold

/-! ## The sort -/

/-- The tests of the sort decide an order of the entries `es`. -/
structure Decides (cmp : Compare K) (r : Entry K V → Entry K V → Prop) (es : List (Entry K V)) : Prop where
  lt : ∀ e ∈ es, ∀ f ∈ es, cmp e.key f.key < 0 → r e f
  not_lt : ∀ e ∈ es, ∀ f ∈ es, ¬ cmp e.key f.key < 0 → r f e
  trans : ∀ e ∈ es, ∀ f ∈ es, ∀ g ∈ es, r e f → r f g → r e g

theorem Decides.of_subset {cmp : Compare K} {r : Entry K V → Entry K V → Prop} {es es' : List (Entry K V)}
    (h : Decides cmp r es) (hsub : es' ⊆ es) : Decides cmp r es' :=
  ⟨fun e he f hf => h.lt e (hsub he) f (hsub hf), fun e he f hf => h.not_lt e (hsub he) f (hsub hf),
    fun e he f hf g hg => h.trans e (hsub he) f (hsub hf) g (hsub hg)⟩

/-- The loop and the exchange behind it split the segment round its first entry. -/
theorem split_spec {cmp : Compare K} {r : Entry K V → Entry K V → Prop} {m : Hashmap K V} {h : Nat}
    {T : List Nat} {stop : Option Nat} (hcount : T.length ≤ m.count) (hnd : (h :: T).Nodup)
    (hstop : ∀ i ∈ h :: T, stop ≠ some i) (hch : Chain m.next (m.next h) T stop)
    (hdec : Decides cmp r ((h :: T).map m.entry)) :
    ∃ m₁ small L O, qsortLoop cmp h stop (m.count + 1) m (m.next h) h = some (m₁, small) ∧
      h :: T = L ++ small :: O ∧ Exchanged (h :: T) m (hashmapSwapBucket m₁ h small) ∧
      (hashmapSwapBucket m₁ h small).entry small = m.entry h ∧
      Splits r ((h :: T).map m.entry) (L.map (hashmapSwapBucket m₁ h small).entry) (m.entry h)
        (O.map (hashmapSwapBucket m₁ h small).entry) := by
  obtain ⟨hhT, -⟩ := List.nodup_cons.mp hnd
  obtain ⟨m₁, S, O, hloop, happ, hexch₁, hfold⟩ := @qsortLoop_spec K V cmp h stop (m.entry h) T [] []
    (m.count + 1) m (m.next h) (by omega) hnd (fun i hi => hstop i (List.mem_cons_of_mem _ hi)) hch hch rfl
  have happ : S ++ O = T := happ
  have hexch₁ : Exchanged T m m₁ := hexch₁
  have hloop : qsortLoop cmp h stop (m.count + 1) m (m.next h) h = some (m₁, S.getLastD h) := hloop
  subst happ
  rw [List.map_nil] at hfold
  -- the pivot changes places with the last small entry
  have hL : h :: S = (h :: S).dropLast ++ [S.getLastD h] := by
    rw [← List.getLast_eq_getLastD (List.cons_ne_nil h S), List.dropLast_append_getLast]
  generalize (h :: S).dropLast = L at hL
  generalize S.getLastD h = small at hL hloop
  have hmemh : h ∈ h :: S := List.mem_cons_self ..
  have hmemsmall : small ∈ h :: S := by
    rw [hL]
    simp
  have hndS : (h :: S).Nodup ∧ O.Nodup ∧ ∀ a ∈ h :: S, ∀ b ∈ O, a ≠ b := List.nodup_append.mp hnd
  have hexch₂ := exchanged_swap m₁ hmemh hmemsmall
  have hent₂ := entry_hashmapSwapBucket m₁ h small
  refine ⟨m₁, small, L, O, hloop, ?_, ?_, ?_, ?_⟩
  · rw [← List.cons_append, hL, List.append_assoc, List.singleton_append]
  · exact (hexch₁.mono (List.subset_cons_self ..)).trans
      (hexch₂.mono (List.cons_subset_cons h (List.subset_append_left S O)))
  · rw [hent₂, swapEntries, Function.comp_apply, Equiv.swap_apply_right, hexch₁.entry h hhT]
  generalize hashmapSwapBucket m₁ h small = m₂ at hexch₂ hent₂
  have hpivot₂ : m₂.entry small = m.entry h := by
    rw [hent₂, swapEntries, Function.comp_apply, Equiv.swap_apply_right, hexch₁.entry h hhT]
  -- without the pivot, the buckets in front of `small` have the small entries
  have hleft : (L.map m₂.entry).Perm (S.map m₁.entry) := by
    have hmoved := (rearranged_swapEntries m₁.entry hmemh hmemsmall).map_perm hndS.1
    have hbehind : (h :: S).map m₂.entry = L.map m₂.entry ++ [m.entry h] := by
      rw [hL, List.map_append, List.map_singleton, hpivot₂]
    rw [← hent₂, hbehind, List.map_cons, hexch₁.entry h hhT] at hmoved
    exact ((List.perm_append_singleton _ _).symm.trans hmoved).cons_inv
  rw [hexch₂.map_entry fun i hi hmem => hndS.2.2 i hmem i hi rfl, List.map_cons]
  rw [List.map_cons] at hdec
  refine splits_of_foldl hfold ?_ ?_ hleft
  · intro x hx hbefore
    exact hdec.lt x (List.mem_cons_of_mem _ hx) _ (List.mem_cons_self ..) (of_decide_eq_true hbefore)
  · intro x hx hbefore
    exact hdec.not_lt x (List.mem_cons_of_mem _ hx) _ (List.mem_cons_self ..) (of_decide_eq_false hbefore)

theorem hashmapQsort_spec {cmp : Compare K} {r : Entry K V → Entry K V → Prop} :
    ∀ (fuel : Nat) (seg : List Nat) (m : Hashmap K V) (head stop : Option Nat), seg.length < fuel →
      seg.length ≤ m.count → seg.Nodup → (∀ i ∈ seg, stop ≠ some i) → Chain m.next head seg stop →
      Decides cmp r (seg.map m.entry) →
      ∃ m', hashmapQsort cmp fuel m head stop = some m' ∧ Exchanged seg m m' ∧
        IsSort r (seg.map m.entry) (seg.map m'.entry) := by
  intro fuel
  induction fuel with
  | zero =>
      intro seg m head stop hfuel
      exact absurd hfuel (Nat.not_lt_zero _)
  | succ fuel ih =>
      intro seg m head stop hfuel hcount hnd hstop hch hdec
      cases seg with
      | nil =>
          refine ⟨m, ?_, Exchanged.refl _ m, isSort_of_length_le (Nat.zero_le _)⟩
          cases head with
          | none => rfl
          | some h => rw [hashmapQsort, if_pos (show some h = stop from hch)]
      | cons h T =>
          have hchain := hch
          obtain ⟨rfl, hT⟩ := hch
          have hgo : ¬ some h = stop := fun heq => hstop h (List.mem_cons_self ..) heq.symm
          rw [List.length_cons] at hfuel hcount
          obtain ⟨m₁, small, L, O, hloop, hseg, hexch₂, hpivot₂, hsplits⟩ :=
            split_spec (Nat.le_of_succ_le hcount) hnd hstop hT hdec
          generalize hm₂ : hashmapSwapBucket m₁ h small = m₂ at hexch₂ hpivot₂ hsplits
          have hlen := congrArg List.length hseg
          simp only [List.length_cons, List.length_append] at hlen
          rw [hseg] at hchain hnd
          have hndL : L.Nodup ∧ (small :: O).Nodup ∧ ∀ a ∈ L, ∀ b ∈ small :: O, a ≠ b :=
            List.nodup_append.mp hnd
          obtain ⟨hsmallO, hndO⟩ := List.nodup_cons.mp hndL.2.1
          have hsmallL : small ∉ L := fun hi => hndL.2.2 small hi small (List.mem_cons_self ..) rfl
          obtain ⟨q, hchL, rfl, hchO⟩ := chain_append.mp hchain
          -- the buckets in front of the pivot
          obtain ⟨m₃, hrun₃, hexch₃, hsort₃⟩ := ih L m₂ (some h) (some small) (by omega)
            (by rw [hexch₂.same.count]; omega) hndL.1
            (fun i hi heq => hndL.2.2 i hi small (List.mem_cons_self ..) (Option.some.inj heq).symm)
            (by rw [hexch₂.next_eq]; exact hchL)
            (hdec.of_subset fun e he => hsplits.perm.subset (List.mem_append_left _ he))
          have hO₃ : O.map m₃.entry = O.map m₂.entry :=
            hexch₃.map_entry fun i hi hmem => hndL.2.2 i hmem i (List.mem_cons_of_mem _ hi) rfl
          -- the buckets behind it
          obtain ⟨m₄, hrun₄, hexch₄, hsort₄⟩ := ih O m₃ (m₃.next small) stop (by omega)
            (by rw [hexch₃.same.count, hexch₂.same.count]; omega) hndO
            (fun i hi => hstop i (by rw [hseg]; exact List.mem_append_right _ (List.mem_cons_of_mem _ hi)))
            (by rw [hexch₃.next_eq, hexch₂.next_eq]; exact hchO)
            (by
              rw [hO₃]
              exact hdec.of_subset fun e he =>
                hsplits.perm.subset (List.mem_append_right _ (List.mem_cons_of_mem _ he)))
          rw [hO₃] at hsort₄
          refine ⟨m₄, ?_, ?_, ?_⟩
          · rw [hashmapQsort, if_neg hgo, hloop]
            show (hashmapQsort cmp fuel (hashmapSwapBucket m₁ h small) (some h) (some small)).bind
              (fun m => hashmapQsort cmp fuel m (m.next small) stop) = some m₄
            rw [hm₂, hrun₃, Option.bind_some, hrun₄]
          · have hsubL : L ⊆ h :: T := by
              rw [hseg]
              exact List.subset_append_left ..
            have hsubO : O ⊆ h :: T := by
              rw [hseg]
              exact fun i hi => List.mem_append_right _ (List.mem_cons_of_mem _ hi)
            exact hexch₂.trans ((hexch₃.mono hsubL).trans (hexch₄.mono hsubO))
          · have hout : (h :: T).map m₄.entry = L.map m₃.entry ++ m.entry h :: O.map m₄.entry := by
              rw [hseg, List.map_append, List.map_cons,
                hexch₄.map_entry fun i hi hmem => hndL.2.2 i hi i (List.mem_cons_of_mem _ hmem) rfl,
                hexch₄.entry small hsmallO, hexch₃.entry small hsmallL, hpivot₂]
            rw [hout]
            exact hsplits.sort (fun x hx y hy => hdec.trans x hx _ (List.mem_cons_self ..) y hy) hsort₃ hsort₄

section Built

variable [Inhabited V]

/-- The quick sort of a segment of the list of any map that was built, from its first bucket up to the
    one behind it, whatever the comparison function answers: the list of buckets is the same, the entries
    of the segment are the same up to order and all others are where they were.  The segment is in order
    if the function orders its keys and answers less than 0 where it answers more than 0 the other way.

    With `end` at `NULL` it is the rest of the list; with `m->last`, as in the call that `hashmap_sort`
    has in a comment, the last bucket is left out. -/
theorem hashmapQsort_sorts (mem : K → Nat → Byte) (cmp : Compare K) {m : Hashmap K V} (hm : Built mem m) :
    ∃ l, foreachHashmapBucket m m.count m.first = some l ∧ l.Nodup ∧ m.first = l.head? ∧
      m.last = l.getLast? ∧ ∀ front seg back, l = front ++ (seg ++ back) →
        ∃ m', hashmapQsort cmp (m.count + 1) m (seg ++ back).head? back.head? = some m' ∧
          foreachHashmapBucket m' m'.count m'.first = some l ∧
          (∀ i, i ∉ seg → m'.entry i = m.entry i) ∧
          (seg.map m'.entry).Perm (seg.map m.entry) ∧
          (OrdersKeys cmp (seg.map m.key) →
            (∀ a ∈ seg.map m.key, ∀ b ∈ seg.map m.key, cmp b a > 0 → cmp a b < 0) →
            InOrder cmp (seg.map m'.key)) := by
  obtain ⟨l, hwf⟩ := hm.wf
  have hlist := foreachHashmapBucket_eq l _ _ (Nat.le_of_eq hwf.count.symm) hwf.chain
  refine ⟨l, hlist, hwf.nodup, hwf.chain.first_eq, hwf.last, ?_⟩
  rintro front seg back rfl
  have hcount := hwf.count
  rw [List.length_append, List.length_append] at hcount
  obtain ⟨-, hnd, -⟩ := List.nodup_append.mp hwf.nodup
  obtain ⟨hndseg, -, hdisj⟩ := List.nodup_append.mp hnd
  -- the segment hangs between its own first bucket and that of the rest
  obtain ⟨head, -, hhead⟩ := chain_append.mp hwf.chain
  obtain ⟨stop, hseg, hback⟩ := chain_append.mp hhead
  rw [hhead.first_eq, hback.first_eq] at hseg
  have hstop : ∀ i ∈ seg, back.head? ≠ some i := fun i hi heq =>
    hdisj i hi i (List.mem_of_mem_head? heq) rfl
  have hrun : ∀ r, Decides cmp r (seg.map m.entry) → _ := fun r hdec =>
    @hashmapQsort_spec K V cmp r (m.count + 1) seg m (seg ++ back).head? back.head? (by omega) (by omega)
      hndseg hstop hseg hdec
  -- that the sort ends and only exchanges entries does not depend on the answers
  obtain ⟨m', hsort, hexch, hperm⟩ := hrun (fun _ _ => True)
    ⟨fun _ _ _ _ _ => trivial, fun _ _ _ _ _ => trivial, fun _ _ _ _ _ _ _ _ => trivial⟩
  have hchain : Chain m'.next m'.first (front ++ (seg ++ back)) none := by
    rw [hexch.next_eq, hexch.same.first]
    exact hwf.chain
  refine ⟨m', hsort, foreachHashmapBucket_eq _ _ _ (by rw [hexch.same.count, hwf.count]) hchain,
    hexch.entry, hperm.perm, fun hcmp hanti => ?_⟩
  have hkey : ∀ e ∈ seg.map m.entry, e.key ∈ seg.map m.key := by
    intro e he
    obtain ⟨i, hi, rfl⟩ := List.mem_map.mp he
    exact List.mem_map.mpr ⟨i, hi, rfl⟩
  obtain ⟨m'', hsort', -, hordered⟩ := hrun (fun e f => ¬ cmp e.key f.key > 0)
    { lt := fun e _ f _ hlt hgt => by omega
      not_lt := fun e he f hf hnot hgt => hnot (hanti _ (hkey e he) _ (hkey f hf) hgt)
      trans := fun e he f hf g hg => hcmp.trans _ (hkey e he) _ (hkey f hf) _ (hkey g hg) }
  cases hsort.symm.trans hsort'
  have hmap : seg.map m'.key = (seg.map m'.entry).map fun e => e.key := by
    rw [List.map_map]
    rfl
  rw [hmap, InOrder, List.pairwise_map]
  exact hordered.sorted

end Built

/-- Five keys in descending order, which `hashmap_sort` does not sort: up to `NULL` all of them are
    sorted, up to `m->last` all but the last. -/
theorem hashmapQsort_sorts_insertKeys :
    ∃ m l last m' m'', insertKeys [5, 4, 3, 2, 1] = some m ∧ m.last = some last ∧
      foreachHashmapBucket m m.count m.first = some (l ++ [last]) ∧
      hashmapQsort compareKeys (m.count + 1) m m.first none = some m' ∧
      InOrder compareKeys ((l ++ [last]).map m'.key) ∧
      hashmapQsort compareKeys (m.count + 1) m m.first m.last = some m'' ∧
      InOrder compareKeys (l.map m''.key) ∧ m''.entry last = m.entry last := by
  have hsome : ((insertKeys [5, 4, 3, 2, 1]).bind fun m => m.last).isSome = true := by decide
  obtain ⟨last, hbind⟩ := Option.isSome_iff_exists.mp hsome
  obtain ⟨m, hm, hmlast⟩ := Option.bind_eq_some_iff.mp hbind
  have hanti : ∀ keys : List (Option Word), ∀ a ∈ keys, ∀ b ∈ keys,
      compareKeys b a > 0 → compareKeys a b < 0 := by
    intro keys a _ b _ hgt
    simp only [compareKeys] at hgt ⊢
    omega
  obtain ⟨l, hlist, hnodup, hfirst, hlast, hsorts⟩ :=
    hashmapQsort_sorts wordBytes compareKeys (built_insertKeys hm)
  have hl : l = l.dropLast ++ [last] := by
    rw [hmlast] at hlast
    exact (List.dropLast_append_getLast? last hlast.symm).symm
  obtain ⟨m', hrun, -, -, -, horder⟩ := hsorts [] l [] (by simp)
  obtain ⟨m'', hrun', -, hkeep, -, horder'⟩ := hsorts [] l.dropLast [last] hl
  rw [hl] at hnodup
  have hleft : last ∉ l.dropLast := fun hmem =>
    (List.nodup_append.mp hnodup).2.2 last hmem last (List.mem_singleton_self last) rfl
  rw [List.append_nil, ← hfirst] at hrun
  rw [← hl, ← hfirst] at hrun'
  refine ⟨m, l.dropLast, last, m', m'', hm, hmlast, hl ▸ hlist, hrun, ?_, ?_, ?_, hkeep last hleft⟩
  · rw [← hl]
    exact horder (ordersKeys_compareKeys _) (hanti _)
  · rw [hmlast]
    exact hrun'
  · exact horder' (ordersKeys_compareKeys _) (hanti _)

end GogetaTools.Map
