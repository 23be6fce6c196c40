/-
  GogetaTools.Map.SortUsable

  When a map is still usable after `hashmap_sort`.

  The merge exchanges the contents of buckets, which moves keys away from
  their probe positions, and it never writes `m->last`.  A sort that exchanges
  nothing and leaves the last bucket last keeps the map as it was; both are
  conditions on the keys in list order alone:

    * `HeadsInOrder` — at no pass does the first key of a segment compare
      greater than the first key of the segment it is merged with.  The pass
      with `gap = 1` is exempt: there the two exchanges undo each other.
    * `TailStays`    — whenever the last two segments are merged, the second one
      still has keys when the first one has run out.

  `TailStays` is about any comparison function.  Where the comparison is an order
  it says that the second segment has a key that no key of the first, its head
  apart, exceeds (`TailTops`).
-/

import GogetaTools.Lib.BottomUpMerge
import GogetaTools.Map.Sort
import GogetaTools.Map.Table

namespace GogetaTools.Map

open BottomUpMerge (arranged arrangedBlocks TailStays TailTops)
open LinkedChain

variable {K V : Type}

/-! ## The two conditions -/

/-- The segments of `gap` keys that a pass merges, from the `i`-th pair on. -/
def fromPair {α : Type} (gap i : Nat) (ks : List α) : List α := ks.drop (2 * gap * i)

/-- The heads of the merged segments are in order, at one `gap`. -/
def HeadsInOrderAt (cmp : Compare K) (gap : Nat) (ks : List (Option K)) : Prop :=
  ∀ i, ∀ a ∈ (fromPair gap i ks).head?, ∀ b ∈ ((fromPair gap i ks).drop gap).head?,
    ¬ cmp a b > 0

def HeadsInOrder (cmp : Compare K) (ks : List (Option K)) : Prop :=
  ∀ t, 0 < t → HeadsInOrderAt cmp (2 ^ t) ks

/-- The comparison is not positive: the merge takes the key `a` first. -/
def goesFirst (cmp : Compare K) (a b : Option K) : Bool := ¬ cmp a b > 0

/-- The comparison function orders the keys: `≤` is total and transitive. -/
structure TotalPreorder (cmp : Compare K) : Prop where
  total : ∀ a b, ¬ cmp a b > 0 ∨ ¬ cmp b a > 0
  trans : ∀ a b c, ¬ cmp a b > 0 → ¬ cmp b c > 0 → ¬ cmp a c > 0

theorem fromPair_succ {α : Type} {gap : Nat} {xs ys : List α} (hxs : xs.length = 2 * gap)
    (i : Nat) : fromPair gap (i + 1) (xs ++ ys) = fromPair gap i ys := by
  rw [fromPair, fromPair, Nat.mul_succ, Nat.add_comm, ← List.drop_drop, ← hxs,
    List.drop_left]

theorem headsInOrderAt_drop {cmp : Compare K} {gap : Nat} {xs ys : List (Option K)}
    (hxs : xs.length = 2 * gap) (h : HeadsInOrderAt cmp gap (xs ++ ys)) :
    HeadsInOrderAt cmp gap ys := by
  intro i
  have hi := h (i + 1)
  rwa [fromPair_succ hxs] at hi

theorem TotalPreorder.goesFirst {cmp : Compare K} (h : TotalPreorder cmp) :
    BottomUpMerge.TotalPreorder (goesFirst cmp) := by
  constructor
  · intro a b
    simpa [Map.goesFirst] using h.total a b
  · intro a b c
    simpa [Map.goesFirst] using h.trans a b c

/-! ## The blocks a pass works on -/

/-- `o` is `l` with every block of `g` buckets reordered behind its head. -/
inductive Blocks (g : Nat) : List Nat → List Nat → Prop
  | short {l o : List Nat} : l.length ≤ g → o.Perm l → o.head? = l.head? → Blocks g l o
  | block {b b' l o : List Nat} : b.length = g → b'.Perm b → b'.head? = b.head? →
      Blocks g l o → Blocks g (b ++ l) (b' ++ o)

theorem Blocks.perm {g : Nat} {l o : List Nat} (h : Blocks g l o) : o.Perm l := by
  induction h with
  | short _ hp _ => exact hp
  | block _ hp _ _ ih => exact hp.append ih

theorem Blocks.refl {g : Nat} (hg : 0 < g) (l : List Nat) : Blocks g l l := by
  induction hn : l.length using Nat.strong_induction_on generalizing l with
  | _ n ih =>
      by_cases hle : l.length ≤ g
      · exact Blocks.short hle (List.Perm.refl l) rfl
      · have hlen : (l.take g).length = g := by
          rw [List.length_take]
          omega
        have hdrop : (l.drop g).length < n := by
          rw [List.length_drop]
          omega
        have := Blocks.block hlen (List.Perm.refl _) rfl (ih _ hdrop (l.drop g) rfl)
        rwa [List.take_append_drop] at this

/-- A pass on two whole blocks and what is behind them. -/
theorem mergePass_block (cmp : Compare K) {gap : Nat} (fuel : Nat) {a b : Nat}
    {as bs o : List Nat} (ent : Nat → Entry K V) (has : (a :: as).length = gap)
    (hbs : (b :: bs).length = gap ∨ (b :: bs).length ≤ gap ∧ o = []) :
    mergePass cmp gap (fuel + 1) (a :: as ++ (b :: bs ++ o)) ent =
      ((mergeRuns cmp ent a as b bs).1 ++
        (mergePass cmp gap fuel o (mergeRuns cmp ent a as b bs).2).1,
        (mergePass cmp gap fuel o (mergeRuns cmp ent a as b bs).2).2) := by
  rw [List.length_cons] at has hbs
  obtain rfl : gap = as.length + 1 := has.symm
  have hrest : (as ++ b :: (bs ++ o)).drop as.length = b :: (bs ++ o) := List.drop_left
  have hbs' : (bs ++ o).take as.length = bs ∧ (bs ++ o).drop as.length = o := by
    rcases hbs with h | ⟨h, rfl⟩
    · rw [← Nat.succ_inj.mp h]
      exact ⟨List.take_left, List.drop_left⟩
    · rw [List.append_nil]
      exact ⟨List.take_of_length_le (by omega), List.drop_eq_nil_of_le (by omega)⟩
  have hpass := @mergePass_two K V cmp as.length fuel a b _ _ hrest ent
  rw [List.take_left, hbs'.1, hbs'.2] at hpass
  exact hpass

/-- No exchange of contents at this `gap`: the first pass undoes its own. -/
def Undisturbed (cmp : Compare K) (gap : Nat) (ks : List (Option K)) : Prop :=
  gap = 1 ∨ HeadsInOrderAt cmp gap ks

theorem swapEntries_swapEntries (ent : Nat → Entry K V) (a b : Nat) :
    swapEntries (swapEntries ent a b) a b = ent := by
  funext i
  simp [swapEntries]

theorem mergeEntries_undisturbed {cmp : Compare K} {ent : Nat → Entry K V} {gap a b : Nat}
    {as bs : List Nat} {ks : List (Option K)} (has : (a :: as).length = gap)
    (hbs : (b :: bs).length ≤ gap) (ha : ks.head? = some (ent a).key)
    (hb : (ks.drop gap).head? = some (ent b).key) (h : Undisturbed cmp gap ks) :
    mergeEntries cmp ent a (as.getLastD a) b (bs.getLastD b) = ent := by
  rw [mergeEntries]
  split
  · rename_i hgt
    rcases h with rfl | h
    · have has' : as = [] := by simpa using has
      have hbs' : bs = [] := by simpa using hbs
      subst has' hbs'
      exact swapEntries_swapEntries ent a b
    · -- the two heads are the ones compared
      have h0 := h 0 (ent a).key (by simpa [fromPair] using ha) (ent b).key
        (by simpa [fromPair] using hb)
      exact absurd hgt h0
  · rfl

/-! ## One pass -/

section Pass

variable {cmp : Compare K} {ent : Nat → Entry K V} {g : Nat}

/-- `o'` is what a pass makes of `o` when it exchanges nothing; `l` is the list
    before the first pass, and each rule says which blocks of it are merged. -/
inductive Passed (cmp : Compare K) (ent : Nat → Entry K V) (g : Nat) :
    List Nat → List Nat → List Nat → Prop
  | rest {l o : List Nat} : l.length ≤ g → o.Perm l → o.head? = l.head? → Passed cmp ent g l o o
  | last {a b : Nat} {as bs as' bs' : List Nat} : (a :: as).length = g → (b :: bs).length ≤ g →
      as'.Perm as → bs'.Perm bs →
      Passed cmp ent g (a :: as ++ b :: bs) (a :: as' ++ b :: bs')
        (a :: List.merge as' (b :: bs') (takesLeft cmp ent))
  | pair {a b : Nat} {as bs as' bs' l o o' : List Nat} : (a :: as).length = g →
      (b :: bs).length = g → as'.Perm as → bs'.Perm bs → l ≠ [] → Passed cmp ent g l o o' →
      Passed cmp ent g (a :: as ++ b :: bs ++ l) (a :: as' ++ b :: bs' ++ o)
        (a :: List.merge as' (b :: bs') (takesLeft cmp ent) ++ o')

theorem eq_cons_of_perm {a : Nat} {as o : List Nat} (hp : o.Perm (a :: as))
    (hhead : o.head? = (a :: as).head?) : ∃ as', o = a :: as' ∧ as'.Perm as := by
  cases o with
  | nil => simp at hhead
  | cons x xs =>
      have hx : x = a := by simpa using hhead
      subst hx
      exact ⟨xs, rfl, hp.cons_inv⟩

theorem mergePass_passed :
    ∀ (fuel : Nat) (l o : List Nat), 0 < g → o.length < fuel → Blocks g l o →
      Undisturbed cmp g (l.map fun i => (ent i).key) →
      Passed cmp ent g l o (mergePass cmp g fuel o ent).1 ∧
        (mergePass cmp g fuel o ent).2 = ent := by
  intro fuel
  induction fuel with
  | zero => intro l o _ h; omega
  | succ fuel ih =>
      intro l o hg hfuel hB hun
      cases hB with
      | short hle hp hhead =>
          rw [mergePass_short ent (hp.length_eq ▸ hle)]
          exact ⟨Passed.rest hle hp hhead, rfl⟩
      | @block A A' l o hlen hp hhead hrest =>
          obtain ⟨a, as, rfl⟩ := List.exists_cons_of_length_pos (show 0 < A.length by omega)
          obtain ⟨as', rfl, has⟩ := eq_cons_of_perm hp hhead
          have hlen' : (a :: as').length = g := by rw [hp.length_eq, hlen]
          have hdrop : ∀ xs : List Nat, ((a :: as ++ xs).map fun i => (ent i).key).drop g =
              xs.map fun i => (ent i).key := by
            intro xs
            have hg' : g = ((a :: as).map fun i => (ent i).key).length := by
              rw [List.length_map, hlen]
            rw [List.map_append, hg', List.drop_left]
          cases hrest with
          | short hle hp' hhead' =>
              cases l with
              | nil =>
                  -- nothing is behind the one block
                  have ho : o = [] := hp'.eq_nil
                  subst ho
                  rw [List.append_nil, List.append_nil, mergePass_short ent (Nat.le_of_eq hlen')]
                  exact ⟨Passed.rest (Nat.le_of_eq hlen) hp hhead, rfl⟩
              | cons b bs =>
                  obtain ⟨bs', rfl, hbs⟩ := eq_cons_of_perm hp' hhead'
                  have hle' : (b :: bs').length ≤ g := by rw [hp'.length_eq]; exact hle
                  have hent := mergeEntries_undisturbed hlen' hle' rfl
                    (by rw [hdrop]; rfl) hun
                  have hpass := mergePass_block cmp fuel ent hlen'
                    (Or.inr ⟨hle', rfl⟩)
                  rw [mergePass_short _ (show ([] : List Nat).length ≤ g from Nat.zero_le g), List.append_nil,
                    List.append_nil] at hpass
                  rw [hpass]
                  simp only [mergeRuns, hent]
                  exact ⟨Passed.last hlen hle has hbs, trivial⟩
          | @block B B' l o hlen2 hp' hhead' hrest' =>
              obtain ⟨b, bs, rfl⟩ := List.exists_cons_of_length_pos (show 0 < B.length by omega)
              obtain ⟨bs', rfl, hbs⟩ := eq_cons_of_perm hp' hhead'
              have hlen2' : (b :: bs').length = g := by rw [hp'.length_eq, hlen2]
              have hent := mergeEntries_undisturbed hlen' (Nat.le_of_eq hlen2') rfl
                (by rw [hdrop]; rfl) hun
              rw [mergePass_block cmp fuel ent hlen' (Or.inl hlen2')]
              simp only [mergeRuns, hent]
              -- the pass goes on behind the two blocks, if anything is there
              by_cases hl : l = []
              · have ho : o = [] := by
                  have := hrest'.perm
                  rw [hl] at this
                  exact this.eq_nil
                subst hl ho
                rw [mergePass_short ent (Nat.zero_le g), List.append_nil, List.append_nil,
                  List.append_nil]
                exact ⟨Passed.last hlen (Nat.le_of_eq hlen2) has hbs, rfl⟩
              · have hun' : Undisturbed cmp g (l.map fun i => (ent i).key) := by
                  refine hun.imp_right fun h => ?_
                  rw [← List.append_assoc, List.map_append] at h
                  refine headsInOrderAt_drop ?_ h
                  rw [List.length_map, List.length_append, hlen, hlen2]
                  omega
                obtain ⟨htail, htailE⟩ := ih l o hg (by
                  rw [List.length_append, List.length_append] at hfuel
                  omega) hrest' hun'
                rw [← List.append_assoc, ← List.append_assoc]
                exact ⟨Passed.pair hlen hlen2 has hbs hl htail, htailE⟩

/-- The pass merges pairs of blocks into blocks of twice the size. -/
theorem Passed.blocks {l o o' : List Nat} (h : Passed cmp ent g l o o') :
    Blocks (2 * g) l o' := by
  induction h with
  | rest hle hp hhead => exact Blocks.short (by omega) hp hhead
  | last ha hb has hbs =>
      refine Blocks.short (by rw [List.length_append]; omega) ?_ rfl
      exact (((List.merge_perm_append _).trans (has.append (hbs.cons _)))).cons _
  | pair ha hb has hbs _ _ ih =>
      refine Blocks.block (by rw [List.length_append]; omega) ?_ rfl ih
      exact (((List.merge_perm_append _).trans (has.append (hbs.cons _)))).cons _

/-- What the pass makes of arranged blocks is arranged. -/
theorem Passed.arrangedBlocks {t : Nat} {l o o' : List Nat} (h : Passed cmp ent (2 ^ t) l o o')
    (ho : o = arrangedBlocks (takesLeft cmp ent) t l) :
    o' = arrangedBlocks (takesLeft cmp ent) (t + 1) l := by
  have hdouble : 2 ^ (t + 1) = 2 * 2 ^ t := Nat.pow_succ'
  have hmerged : ∀ {a b : Nat} {as bs as' bs' : List Nat}, (a :: as).length = 2 ^ t →
      a :: as' = arranged (takesLeft cmp ent) t (a :: as) →
      b :: bs' = arranged (takesLeft cmp ent) t (b :: bs) →
      arranged (takesLeft cmp ent) (t + 1) (a :: as ++ b :: bs) =
        a :: List.merge as' (b :: bs') (takesLeft cmp ent) := by
    intro a b as bs as' bs' ha has hbs
    rw [BottomUpMerge.arranged_append _ ha, ← has, ← hbs]
    rfl
  generalize hg : 2 ^ t = g at h
  induction h with
  | rest hle _ _ =>
      rw [ho, BottomUpMerge.arrangedBlocks_of_length_le _ (by omega),
        BottomUpMerge.arrangedBlocks_of_length_le _ (by omega),
        BottomUpMerge.arranged_succ_of_length_le _ (by omega)]
  | @last a b as bs as' bs' ha hb has hbs =>
      subst hg
      rw [BottomUpMerge.arrangedBlocks_append _ ha,
        BottomUpMerge.arrangedBlocks_of_length_le _ hb] at ho
      obtain ⟨hfirst, hsecond⟩ := List.append_inj ho
        ((has.cons a).length_eq.trans (BottomUpMerge.arranged_perm _ t _).length_eq.symm)
      rw [BottomUpMerge.arrangedBlocks_of_length_le _ (by rw [List.length_append]; omega),
        hmerged ha hfirst hsecond]
  | @pair a b as bs as' bs' l o o' ha hb has hbs _ _ ih =>
      subst hg
      rw [List.append_assoc, List.append_assoc, BottomUpMerge.arrangedBlocks_append _ ha,
        BottomUpMerge.arrangedBlocks_append _ hb] at ho
      obtain ⟨hfirst, hrest⟩ := List.append_inj ho
        ((has.cons a).length_eq.trans (BottomUpMerge.arranged_perm _ t _).length_eq.symm)
      obtain ⟨hsecond, hbehind⟩ := List.append_inj hrest
        ((hbs.cons b).length_eq.trans (BottomUpMerge.arranged_perm _ t _).length_eq.symm)
      rw [BottomUpMerge.arrangedBlocks_append _ (show _ = 2 ^ (t + 1) by
        rw [List.length_append]; omega), hmerged ha hfirst hsecond, ih hbehind]

end Pass

/-! ## All passes -/

theorem headsInOrder_undisturbed {cmp : Compare K} {ks : List (Option K)}
    (h : HeadsInOrder cmp ks) (t : Nat) : Undisturbed cmp (2 ^ t) ks := by
  cases t with
  | zero => exact Or.inl rfl
  | succ t => exact Or.inr (h (t + 1) (Nat.succ_pos t))

/-- With the heads in order the sort exchanges nothing: the buckets end up as the
    merges arrange them. -/
theorem mergePasses_inOrder {cmp : Compare K} (ent : Nat → Entry K V) {l : List Nat}
    (hheads : HeadsInOrder cmp (l.map fun i => (ent i).key)) :
    ∀ (fuel t : Nat) (o : List Nat), l.length ≤ 2 ^ t * 2 ^ fuel → Blocks (2 ^ t) l o →
      o = arrangedBlocks (takesLeft cmp ent) t l →
      mergePasses cmp l.length (fuel + 1) (2 ^ t) o ent =
        (arranged (takesLeft cmp ent) (t + fuel) l, ent) := by
  have done : ∀ (fuel t : Nat) (o : List Nat), ¬ 2 ^ t < l.length →
      o = arrangedBlocks (takesLeft cmp ent) t l →
      mergePasses cmp l.length (fuel + 1) (2 ^ t) o ent =
        (arranged (takesLeft cmp ent) (t + fuel) l, ent) := by
    intro fuel t o hlt ho
    have hle := Nat.le_of_not_lt hlt
    rw [mergePasses, if_neg hlt, ho, BottomUpMerge.arrangedBlocks_of_length_le _ hle,
      BottomUpMerge.arranged_of_length_le _ hle (Nat.le_add_right t fuel)]
  -- Induction on the remaining passes; `gap` is `2 ^ t`, and no pass moves a key.
  intro fuel
  induction fuel with
  | zero => exact fun t o hlen _ ho => done 0 t o (by omega) ho
  | succ fuel ih =>
      intro t o hlen hB ho
      by_cases hlt : 2 ^ t < l.length
      · obtain ⟨hpass, hent⟩ : Passed cmp ent (2 ^ t) l o _ ∧ _ := mergePass_passed (l.length + 1) l o
          (Nat.two_pow_pos t) (by rw [hB.perm.length_eq]; omega) hB
          (headsInOrder_undisturbed hheads t)
        have hblocks := hpass.blocks
        rw [Nat.mul_comm, ← Nat.pow_succ] at hblocks
        rw [mergePasses_of_lt (fuel + 1) hlt hent, ← Nat.pow_succ, ih (t + 1) _ ?_ hblocks
          (hpass.arrangedBlocks ho), Nat.add_assoc, Nat.add_comm 1]
        rwa [Nat.pow_succ, Nat.mul_assoc, Nat.mul_comm 2, ← Nat.pow_succ]
      · exact done (fuel + 1) t o hlt ho

theorem mergePasses_arranged {cmp : Compare K} (ent : Nat → Entry K V) {l : List Nat} {fuel : Nat}
    (hheads : HeadsInOrder cmp (l.map fun i => (ent i).key)) (hlen : l.length ≤ 2 ^ fuel) :
    mergePasses cmp l.length (fuel + 1) 1 l ent = (arranged (takesLeft cmp ent) fuel l, ent) := by
  have hrun := mergePasses_inOrder ent hheads fuel 0 l (by rwa [Nat.pow_zero, Nat.one_mul])
    (Blocks.refl (Nat.two_pow_pos 0) l) (BottomUpMerge.arrangedBlocks_zero _ l).symm
  rwa [Nat.pow_zero, Nat.zero_add] at hrun

/-! ## Maps built by `hashmap_set`, and what makes one usable -/

section Usable

variable [Inhabited V] (mem : K → Nat → Byte)

/-- A sequence of `hashmap_set` calls: key, key size and value of each. -/
def hashmapSetAll (m : Hashmap K V) (calls : List (K × Nat × V)) : Option (Hashmap K V) :=
  calls.foldlM (fun m call => hashmapSet mem m call.1 call.2.1 call.2.2) m

def Built (m : Hashmap K V) : Prop :=
  ∃ calls, hashmapSetAll mem hashmapCreate calls = some m

/-- `m'` is `m` after any number of `hashmap_set` calls, each with a key that
    `hashmap_get` does not find. -/
inductive AddsKeys (m : Hashmap K V) : Hashmap K V → Prop
  | refl : AddsKeys m m
  | step {m₁ m₂ : Hashmap K V} {key : K} {ksize : Nat} {val : V} : AddsKeys m m₁ →
      (hashmapGet mem m₁ key ksize).map Prod.fst = some false →
      hashmapSet mem m₁ key ksize val = some m₂ → AddsKeys m m₂

/-- `m'` answers every lookup as `m` does, its `last` is the last bucket of its
    list, and new keys leave its entries on the list. -/
structure KeepsUsable (m m' : Hashmap K V) : Prop where
  found : ∀ key ksize,
    (hashmapGet mem m' key ksize).map Prod.fst = (hashmapGet mem m key ksize).map Prod.fst
  value : ∀ key ksize v, hashmapGet mem m key ksize = some (true, v) →
    hashmapGet mem m' key ksize = some (true, v)
  last : ∃ l, Chain m'.next m'.first l none ∧ m'.last = l.getLast?
  grows : ∀ m'', AddsKeys mem m' m'' → ∃ l l', Chain m'.next m'.first l none ∧
    Chain m''.next m''.first l' none ∧ ∀ e ∈ l.map m'.entry, e ∈ l'.map m''.entry

/-- `hashmap_sort` returns and keeps the map usable. -/
def SortKeepsUsable (cmp : Compare K) (m : Hashmap K V) : Prop :=
  ∃ m', hashmapSort cmp m = some m' ∧ KeepsUsable mem m m'

variable {mem}

theorem wf_of_hashmapSetAll {m m' : Hashmap K V} {calls : List (K × Nat × V)} {l : List Nat}
    (h : WF mem m l) (hrun : hashmapSetAll mem m calls = some m') : ∃ l', WF mem m' l' := by
  induction calls generalizing m l with
  | nil =>
      cases hrun
      exact ⟨l, h⟩
  | cons call calls ih =>
      rw [hashmapSetAll, List.foldlM_cons] at hrun
      obtain ⟨m₁, hset, hrest⟩ := Option.bind_eq_some_iff.mp hrun
      obtain ⟨l₁, hwf, -⟩ := wf_of_hashmapSet h hset
      exact ih hwf hrest

theorem Built.wf {m : Hashmap K V} (h : Built mem m) : ∃ l, WF mem m l := by
  obtain ⟨calls, hrun⟩ := h
  exact wf_of_hashmapSetAll hashmapCreate_wf hrun

/-- New keys are appended: the entries that were there are an initial piece. -/
theorem WF.addsKeys {m m' : Hashmap K V} {l : List Nat} (h : WF mem m l)
    (hadds : AddsKeys mem m m') : ∃ l', WF mem m' l' ∧ l.map m.entry <+: l'.map m'.entry := by
  induction hadds with
  | refl => exact ⟨l, h, List.prefix_rfl⟩
  | step _ habs hset ih =>
      obtain ⟨l₁, hwf, hpre⟩ := ih
      obtain ⟨l₂, hwf₂, hcontents⟩ := wf_of_hashmapSet hwf hset
      refine ⟨l₂, hwf₂, ?_⟩
      rcases hcontents with ⟨es₁, e, es₂, hes, hkey, -⟩ | ⟨-, hes⟩
      · -- the key would have been found
        rw [hashmapGet_of_mem hwf.toTable (by rw [hes]; simp) hkey] at habs
        cases habs
      · rw [hes]
        exact hpre.trans (List.prefix_append _ _)

omit [Inhabited V] in
theorem GoodContents.of_perm {es es' : List (Entry K V)} (h : GoodContents mem es)
    (hp : es'.Perm es) : GoodContents mem es' := by
  refine ⟨fun e he => h.hashed e (hp.subset he), ?_⟩
  -- entries of one key have it both ways round
  have hsymm : ∀ e ∈ es, ∀ e' ∈ es, (∀ k, e'.key = some k → ¬ HasKey mem e k e'.ksize) →
      ∀ k, e.key = some k → ¬ HasKey mem e' k e.ksize := by
    intro e _ e' _ hne k hk hkey
    obtain ⟨k', hk', hsize, hbytes⟩ := hkey
    exact hne k' hk' ⟨k, hk, hsize.symm, fun i hi => (hbytes i (hsize ▸ hi)).symm⟩
  have hall : es.Pairwise fun e e' => (∀ k, e'.key = some k → ¬ HasKey mem e k e'.ksize) ∧
      ∀ k, e.key = some k → ¬ HasKey mem e' k e.ksize := by
    refine List.Pairwise.imp_of_mem ?_ h.distinct
    intro e e' he he' hne
    exact ⟨hne, hsymm e he e' he' hne⟩
  have hall' := (hp.symm.pairwise hall fun hab => ⟨hab.2, hab.1⟩)
  exact hall'.imp fun hab => hab.1

omit [Inhabited V] in
theorem hashmapGet_congr {m m' : Hashmap K V} (hent : m'.entry = m.entry)
    (hcap : m'.capacity = m.capacity) (key : K) (ksize : Nat) :
    hashmapGet mem m' key ksize = hashmapGet mem m key ksize := by
  simp only [hashmapGet, findEntry, Hashmap.key, hent, hcap]

omit [Inhabited V] in
/-- A map that only had its list reordered, its end staying where it was. -/
theorem WF.reorder {m m' : Hashmap K V} {l l' : List Nat} (h : WF mem m l)
    (hent : m'.entry = m.entry) (hsame : SameOutside l m m') (hp : l'.Perm l)
    (hch : Chain m'.next m'.first l' none) (hlast : l'.getLast? = l.getLast?) : WF mem m' l' := by
  refine ⟨⟨hp.symm.nodup h.nodup, ?_, ?_, ?_, ?_⟩, hch, ?_, ?_, ?_, ?_⟩
  · intro i
    rw [hp.mem_iff, h.mem_iff, hsame.capacity]
    simp only [Hashmap.key, hent]
  · rw [hsame.last, h.last, hlast]
  · intro i hi
    rw [hent, hsame.capacity]
    exact (h.reaches i (hp.subset hi)).mono fun x _ hx => hp.mem_iff.mpr hx
  · rw [hent]
    exact h.contents.of_perm (hp.map _)
  · rw [hsame.count, h.count, hp.length_eq]
  · rw [hsame.capacity]
    exact h.capacity
  · rw [hsame.capacity]
    exact h.capacity_lt
  · rw [hsame.capacity, hsame.count]
    exact h.load

omit [Inhabited V] in
/-- A sort that finds the heads in order moves no entry, and `TailStays` decides
    whether the list still ends where `last` points. -/
theorem WF.sort_inOrder {m : Hashmap K V} {l : List Nat} (h : WF mem m l) (cmp : Compare K)
    (hheads : HeadsInOrder cmp (l.map m.key)) :
    ∃ m' l', hashmapSort cmp m = some m' ∧ m'.entry = m.entry ∧ SameOutside l m m' ∧
      l'.Perm l ∧ Chain m'.next m'.first l' none ∧
      (l'.getLast? = l.getLast? ↔ TailStays (goesFirst cmp) (l.map m.key)) := by
  obtain ⟨m', hrun, hent, hsame, hch⟩ :=
    hashmapSort_spec cmp h.chain h.nodup h.count h.length_le
  -- enough passes are made for the whole list
  obtain ⟨fuel, hfuel, hlen⟩ : ∃ fuel, 32 = fuel + 1 ∧ l.length ≤ 2 ^ fuel :=
    ⟨31, rfl, Nat.le_trans h.length_le (by decide)⟩
  rw [hfuel, mergePasses_arranged m.entry hheads hlen] at hent hch
  refine ⟨m', _, hrun, hent, hsame, BottomUpMerge.arranged_perm _ fuel l, hch, ?_⟩
  have hkeys : ∀ i j, goesFirst cmp (m.key i) (m.key j) = takesLeft cmp m.entry i j :=
    fun _ _ => rfl
  rw [BottomUpMerge.arranged_getLast?_iff h.nodup hlen, BottomUpMerge.map_tailStays_iff hkeys]

/-- As long as the heads are in order, the sort keeps the map usable exactly if the
    tail stays, whatever the comparison function is. -/
theorem WF.sortKeepsUsable_iff {m : Hashmap K V} {l : List Nat} (h : WF mem m l) (cmp : Compare K)
    (hheads : HeadsInOrder cmp (l.map m.key)) :
    SortKeepsUsable mem cmp m ↔ TailStays (goesFirst cmp) (l.map m.key) := by
  obtain ⟨m', l', hrun, hent, hsame, hp, hch, hlast⟩ := h.sort_inOrder cmp hheads
  rw [← hlast]
  constructor
  · rintro ⟨m'', hrun', hkeeps⟩
    rw [hrun] at hrun'
    cases hrun'
    obtain ⟨l'', hch'', hend⟩ := hkeeps.last
    rw [← hch''.unique hch, ← hend, hsame.last, h.last]
  · intro hstays
    have hwf := h.reorder hent hsame hp hch hstays
    have hget : ∀ key ksize, hashmapGet mem m' key ksize = hashmapGet mem m key ksize :=
      hashmapGet_congr hent hsame.capacity
    refine ⟨m', hrun, ?_, ?_, ⟨l', hch, hwf.last⟩, ?_⟩
    · intro key ksize
      rw [hget]
    · intro key ksize v hv
      rw [hget, hv]
    · intro m'' hadds
      obtain ⟨l'', hwf'', hpre⟩ := hwf.addsKeys hadds
      exact ⟨l', l'', hch, hwf''.chain, fun e he => hpre.subset he⟩

/-- The keys of the map in list order. -/
def listKeys (m : Hashmap K V) : Option (List (Option K)) :=
  (foreachHashmapBucket m m.count m.first).map fun l => l.map m.key

omit [Inhabited V] in
theorem WF.listKeys_eq {m : Hashmap K V} {l : List Nat} (h : WF mem m l) :
    listKeys m = some (l.map m.key) := by
  rw [listKeys, foreachHashmapBucket_eq l m.count m.first (Nat.le_of_eq h.count.symm) h.chain]
  rfl

/-- When `hashmap_sort` keeps a map usable.  As long as the heads are in order, exactly
    if the tail stays; for this it is enough that the last segment has a key which none
    of the one before exceeds, and where the comparison is an order, that is the same. -/
theorem hashmapSort_keepsUsable (mem : K → Nat → Byte) (cmp : Compare K) {m : Hashmap K V}
    (hm : Built mem m) :
    ∃ ks, listKeys m = some ks ∧
      (HeadsInOrder cmp ks → (SortKeepsUsable mem cmp m ↔ TailStays (goesFirst cmp) ks)) ∧
      (TailTops (goesFirst cmp) ks → TailStays (goesFirst cmp) ks) ∧
      (TotalPreorder cmp → (TailStays (goesFirst cmp) ks ↔ TailTops (goesFirst cmp) ks)) := by
  obtain ⟨l, hwf⟩ := hm.wf
  exact ⟨_, hwf.listKeys_eq, hwf.sortKeepsUsable_iff cmp, BottomUpMerge.TailTops.tailStays,
    fun hcmp => hcmp.goesFirst.tailStays_iff⟩

end Usable

/-! ## Three keys inserted in a bad order -/

/-- The keys in numeric order; a null pointer stands for 0. -/
def compareKeys : Compare Word := fun a b => ((a.getD 0).toNat : Int) - (b.getD 0).toNat

theorem compareKeys_totalPreorder : TotalPreorder compareKeys := by
  constructor
  · intro a b
    simp only [compareKeys]
    omega
  · intro a b c
    simp only [compareKeys]
    omega

def insertKeys (ks : List Word) : Option (Hashmap Word Nat) :=
  hashmapSetAll wordBytes hashmapCreate (ks.map fun k => (k, 8, k.toNat))

theorem built_insertKeys {ks : List Word} {m : Hashmap Word Nat} (h : insertKeys ks = some m) :
    Built wordBytes m := ⟨_, h⟩

/-- The theorem at a map whose list `hashmap_sort` reorders, its last bucket apart. -/
theorem hashmapSort_keepsUsable_insertKeys :
    ∃ m, insertKeys [1, 3, 2, 4] = some m ∧ SortKeepsUsable wordBytes compareKeys m := by
  have hkeys : (insertKeys [1, 3, 2, 4]).bind listKeys = some [some 1, some 3, some 2, some 4] := by
    decide
  obtain ⟨m, hm, hlist⟩ := Option.bind_eq_some_iff.mp hkeys
  obtain ⟨ks, hks, husable, -⟩ := hashmapSort_keepsUsable wordBytes compareKeys (built_insertKeys hm)
  rw [hlist] at hks
  cases hks
  have hlarge : ∀ t, 2 ≤ t → 4 ≤ 2 ^ t := by
    intro t ht
    have : 2 ^ 2 ≤ 2 ^ t := Nat.pow_le_pow_right (by decide) ht
    exact this
  refine ⟨m, hm, (husable ?_).mpr ?_⟩
  · intro t ht i a ha b hb
    obtain rfl | ht2 : t = 1 ∨ 2 ≤ t := by omega
    · cases i with
      | zero =>
          -- 1 and 2 are the heads of the two segments
          cases ha
          cases hb
          decide
      | succ i =>
          rw [fromPair, List.drop_eq_nil_of_le (show 4 ≤ 2 * 2 ^ 1 * (i + 1) by omega)] at ha
          cases ha
    · have hgap : 4 ≤ 2 * 2 ^ t * i + 2 ^ t := Nat.le_add_left_of_le (hlarge t ht2)
      rw [fromPair, List.drop_drop, List.drop_eq_nil_of_le hgap] at hb
      cases hb
  · show TailStays (goesFirst compareKeys) ([some 1, some 3] ++ ([some 2] ++ [some 4]))
    rw [@BottomUpMerge.tailStays_append_iff _ _ [some 1, some 3] _ 1 rfl (by simp) (by simp),
      @BottomUpMerge.tailStays_append_iff _ _ [some 2] _ 0 rfl (by simp) (by simp)]
    have htop : ∀ a ∈ [some (3 : Word)], goesFirst compareKeys a (some 4) = true := by
      intro a ha
      rw [List.mem_singleton.mp ha]
      rfl
    exact ⟨BottomUpMerge.not_outlasts_arranged 1 (b := some 4) (by simp) htop,
      fun hout => hout.ne_nil rfl, BottomUpMerge.tailStays_of_length_le (by simp)⟩

/-- After 2, 3, 1 the sort moves key 2 where `find_entry` does not look. -/
theorem hashmapSort_loses_key :
    ¬ ∀ (m : Hashmap Word Nat) (cmp : Compare Word), Built wordBytes m →
      SortKeepsUsable wordBytes cmp m := by
  intro h
  have hsome : (insertKeys [2, 3, 1]).isSome = true := by decide
  obtain ⟨m, hm⟩ := Option.isSome_iff_exists.mp hsome
  obtain ⟨m', hsort, hkeeps⟩ := h m compareKeys (built_insertKeys hm)
  have hbefore : ((insertKeys [2, 3, 1]).bind fun m => hashmapGet wordBytes m 2 8) =
      some (true, 2) := by decide
  have hafter : ((insertKeys [2, 3, 1]).bind fun m =>
      (hashmapSort compareKeys m).bind fun m => hashmapGet wordBytes m 2 8) =
      some (false, 0) := by decide
  simp only [hm, hsort, Option.bind_some] at hbefore hafter
  have hvalue := hkeeps.value 2 8 2 hbefore
  rw [hafter] at hvalue
  cases hvalue

end GogetaTools.Map
