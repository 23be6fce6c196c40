/-
  GogetaTools.Lib.BottomUpMerge

  Bottom-up merging that never compares the first element of a segment, with any
  comparison at all: it need not be an order.

  `arranged t l` is what the passes with segments of 1, 2, …, `2 ^ (t - 1)`
  elements make of a segment of at most `2 ^ t`.  The last element of the list
  stays last exactly if, whenever the last two segments are merged, it is the
  second one that has elements left when the other runs out
  (`arranged_getLast?_iff`).  That is a matching of elements of the two segments
  (`Outlasts`); for a total preorder the order inside the segments does not matter
  (`tailStays_iff`).
-/

import Mathlib.Algebra.Group.Nat.Defs
import Mathlib.Data.List.Basic
import Mathlib.Data.List.Nodup

namespace BottomUpMerge

variable {α β : Type}

/-! ## Segments after some passes -/

/-- The two segments merged; the first element stays first. -/
def mergeBehind (le : α → α → Bool) : List α → List α → List α
  | [], bs => bs
  | a :: as, bs => a :: List.merge as bs le

def arranged (le : α → α → Bool) : Nat → List α → List α
  | 0, l => l
  | t + 1, l => mergeBehind le (arranged le t (l.take (2 ^ t))) (arranged le t (l.drop (2 ^ t)))

/-- The whole list, cut into segments of `2 ^ t`. -/
def arrangedBlocks (le : α → α → Bool) (t : Nat) (l : List α) : List α :=
  if l.length ≤ 2 ^ t then arranged le t l
  else arranged le t (l.take (2 ^ t)) ++ arrangedBlocks le t (l.drop (2 ^ t))
termination_by l.length
decreasing_by
  have hpos := Nat.two_pow_pos t
  rw [List.length_drop]
  omega

section Arranged

variable (le : α → α → Bool)

@[simp] theorem mergeBehind_nil (as : List α) : mergeBehind le as [] = as := by
  cases as with
  | nil => rfl
  | cons a as => rw [mergeBehind, List.merge_right]

theorem mergeBehind_perm (as bs : List α) : (mergeBehind le as bs).Perm (as ++ bs) := by
  cases as with
  | nil => exact List.Perm.refl _
  | cons a as => exact (List.merge_perm_append le).cons a

theorem arranged_perm : ∀ (t : Nat) (l : List α), (arranged le t l).Perm l := by
  intro t
  induction t with
  | zero => exact fun l => List.Perm.refl l
  | succ t ih =>
      intro l
      have hsplit := (mergeBehind_perm le _ _).trans
        ((ih (l.take (2 ^ t))).append (ih (l.drop (2 ^ t))))
      rwa [List.take_append_drop] at hsplit

@[simp] theorem arranged_nil (t : Nat) : arranged le t [] = [] :=
  (arranged_perm le t []).eq_nil

theorem arranged_succ_of_length_le {t : Nat} {l : List α} (h : l.length ≤ 2 ^ t) :
    arranged le (t + 1) l = arranged le t l := by
  rw [arranged, List.take_of_length_le h, List.drop_eq_nil_of_le h, arranged_nil, mergeBehind_nil]

theorem arranged_of_length_le {s t : Nat} {l : List α} (h : l.length ≤ 2 ^ t) (hst : t ≤ s) :
    arranged le s l = arranged le t l := by
  induction hst with
  | refl => rfl
  | step hst ih =>
      rw [arranged_succ_of_length_le le (Nat.le_trans h (Nat.pow_le_pow_right (by decide) hst)), ih]

theorem arranged_append {t : Nat} {as bs : List α} (has : as.length = 2 ^ t) :
    arranged le (t + 1) (as ++ bs) = mergeBehind le (arranged le t as) (arranged le t bs) := by
  rw [arranged, ← has, List.take_left, List.drop_left]

theorem arranged_head? (t : Nat) (l : List α) : (arranged le t l).head? = l.head? := by
  induction t generalizing l with
  | zero => rfl
  | succ t ih =>
      cases l with
      | nil => rw [arranged_nil]
      | cons a l =>
          have hfirst := ih ((a :: l).take (2 ^ t))
          obtain ⟨n, hn⟩ : ∃ n, 2 ^ t = n + 1 := ⟨2 ^ t - 1, by have := Nat.two_pow_pos t; omega⟩
          rw [arranged]
          rw [hn, List.take_succ_cons, List.head?_cons] at hfirst ⊢
          cases h : arranged le t (a :: l.take n) with
          | nil =>
              rw [h] at hfirst
              cases hfirst
          | cons b bs =>
              rw [h] at hfirst
              exact hfirst

theorem arrangedBlocks_of_length_le {t : Nat} {l : List α} (h : l.length ≤ 2 ^ t) :
    arrangedBlocks le t l = arranged le t l := by
  rw [arrangedBlocks, if_pos h]

theorem arrangedBlocks_append {t : Nat} {as bs : List α} (has : as.length = 2 ^ t) :
    arrangedBlocks le t (as ++ bs) = arranged le t as ++ arrangedBlocks le t bs := by
  rw [arrangedBlocks]
  split
  · rename_i h
    have hbs : bs = [] := by
      rw [List.length_append] at h
      exact List.eq_nil_of_length_eq_zero (by omega)
    rw [hbs, List.append_nil, arrangedBlocks_of_length_le le (Nat.zero_le _), arranged_nil,
      List.append_nil]
  · rw [← has, List.take_left, List.drop_left]

theorem arrangedBlocks_zero (l : List α) : arrangedBlocks le 0 l = l := by
  induction l with
  | nil => rw [arrangedBlocks_of_length_le le (Nat.zero_le _), arranged]
  | cons a l ih =>
      have happ := @arrangedBlocks_append α le 0 [a] l rfl
      rwa [ih, arranged] at happ

theorem map_arranged {le : α → α → Bool} {le' : β → β → Bool} {f : α → β}
    (hle : ∀ a b, le' (f a) (f b) = le a b) (t : Nat) (l : List α) :
    (arranged le t l).map f = arranged le' t (l.map f) := by
  induction t generalizing l with
  | zero => rfl
  | succ t ih =>
      rw [arranged, arranged, ← List.map_take, ← List.map_drop, ← ih, ← ih]
      generalize arranged le t (l.take (2 ^ t)) = as
      generalize arranged le t (l.drop (2 ^ t)) = bs
      cases as with
      | nil => rfl
      | cons a as =>
          rw [mergeBehind, List.map_cons, List.map_cons, mergeBehind,
            List.map_merge fun a _ b _ => (hle a b).symm]

end Arranged

/-! ## Which segment runs out first -/

/-- Each of `bs` has a partner in `as` that does not go in front of it, the partners
    in order: `as` is not used up before `bs`. -/
inductive Outlasts (le : α → α → Bool) : List α → List α → Prop
  | done {a : α} {as : List α} : Outlasts le (a :: as) []
  | partner {a b : α} {as bs : List α} : le a b = false → Outlasts le (a :: as) bs →
      Outlasts le (a :: as) (b :: bs)
  | skip {a : α} {as bs : List α} : Outlasts le as bs → Outlasts le (a :: as) bs

section Outlasts

variable {le : α → α → Bool} {as bs : List α} {a b : α}

theorem Outlasts.ne_nil (h : Outlasts le as bs) : as ≠ [] := by
  cases h <;> exact List.cons_ne_nil _ _

theorem Outlasts.of_cons (h : Outlasts le as (b :: bs)) : Outlasts le as bs := by
  generalize hl : b :: bs = l at h
  induction h with
  | done => cases hl
  | partner _ h _ =>
      cases hl
      exact h
  | skip _ ih => exact (ih hl).skip

theorem outlasts_cons_pos (h : le a b = true) :
    Outlasts le (a :: as) (b :: bs) ↔ Outlasts le as (b :: bs) := by
  constructor
  · intro hout
    cases hout with
    | partner hle _ => exact absurd h (by rw [hle]; decide)
    | skip hout => exact hout
  · exact Outlasts.skip

theorem outlasts_cons_neg (h : le a b = false) :
    Outlasts le (a :: as) (b :: bs) ↔ Outlasts le (a :: as) bs := by
  constructor
  · intro hout
    cases hout with
    | partner _ hout => exact hout
    | skip hout => exact hout.of_cons.skip
  · exact Outlasts.partner h

theorem merge_ne_nil (h : as ≠ [] ∨ bs ≠ []) : List.merge as bs le ≠ [] := by
  intro hnil
  have hperm : (List.merge as bs le).Perm (as ++ bs) := List.merge_perm_append le
  rw [hnil] at hperm
  obtain ⟨has, hbs⟩ := List.append_eq_nil_iff.mp hperm.symm.eq_nil
  exact h.elim (fun h => h has) (fun h => h hbs)

/-- The merged list ends with the end of the segment that runs out last. -/
theorem merge_getLast? (hbs : bs ≠ []) :
    (Outlasts le as bs → (List.merge as bs le).getLast? = as.getLast?) ∧
      (¬ Outlasts le as bs → (List.merge as bs le).getLast? = bs.getLast?) := by
  induction as, bs using List.merge.induct le with
  | case1 bs => exact ⟨fun h => absurd rfl h.ne_nil, fun _ => by rw [List.nil_merge]⟩
  | case2 as hne => exact absurd rfl hbs
  | case3 x xs y ys hxy ih =>
      rw [List.cons_merge_cons_pos _ _ _ hxy,
        List.getLast?_cons_of_ne_nil (merge_ne_nil (Or.inr (List.cons_ne_nil y ys))),
        outlasts_cons_pos hxy]
      refine ⟨fun h => ?_, (ih hbs).2⟩
      rw [(ih hbs).1 h, List.getLast?_cons_of_ne_nil h.ne_nil]
  | case4 x xs y ys hxy ih =>
      rw [List.cons_merge_cons_neg _ _ _ hxy,
        List.getLast?_cons_of_ne_nil (merge_ne_nil (Or.inl (List.cons_ne_nil x xs))),
        outlasts_cons_neg (Bool.not_eq_true _ ▸ hxy)]
      cases ys with
      | nil =>
          -- `y` was the last of `bs`, and `x :: xs` is left over
          exact ⟨fun _ => by rw [List.merge_right], fun h => absurd Outlasts.done h⟩
      | cons z zs =>
          rw [List.getLast?_cons_of_ne_nil (List.cons_ne_nil z zs)]
          exact ih (List.cons_ne_nil z zs)

/-- An element of `bs` that nothing in `as` stays behind of is in the way. -/
theorem not_outlasts_of_mem (hb : b ∈ bs) (hle : ∀ a ∈ as, le a b = true) :
    ¬ Outlasts le as bs := by
  intro h
  induction h with
  | done => cases hb
  | @partner a c as bs hac _ ih =>
      rcases List.mem_cons.mp hb with rfl | hb
      · rw [hle a (List.mem_cons_self ..)] at hac
        cases hac
      · exact ih hb hle
  | skip _ ih => exact ih hb fun a ha => hle a (List.mem_cons_of_mem _ ha)

/-- One element that stays behind all of `bs` is a partner for all of them. -/
theorem outlasts_of_mem (ha : a ∈ as) (hle : ∀ b ∈ bs, le a b = false) : Outlasts le as bs := by
  obtain ⟨pre, post, rfl⟩ := List.append_of_mem ha
  have hself : Outlasts le (a :: post) bs := by
    induction bs with
    | nil => exact Outlasts.done
    | cons b bs ih =>
        exact Outlasts.partner (hle b (List.mem_cons_self ..))
          (ih fun c hc => hle c (List.mem_cons_of_mem _ hc))
  clear ha
  induction pre with
  | nil => exact hself
  | cons c pre ih => exact ih.skip

theorem map_outlasts_iff {le' : β → β → Bool} {f : α → β}
    (hle : ∀ a b, le' (f a) (f b) = le a b) :
    Outlasts le' (as.map f) (bs.map f) ↔ Outlasts le as bs := by
  constructor
  · intro h
    generalize has : as.map f = as', hbs : bs.map f = bs' at h
    induction h generalizing as bs with
    | done =>
        obtain ⟨a, as, rfl, -⟩ := List.map_eq_cons_iff.mp has
        rw [List.map_eq_nil_iff.mp hbs]
        exact Outlasts.done
    | partner hab _ ih =>
        obtain ⟨a, as, rfl, rfl, -⟩ := List.map_eq_cons_iff.mp has
        obtain ⟨b, bs, rfl, rfl, rfl⟩ := List.map_eq_cons_iff.mp hbs
        exact Outlasts.partner (hle a b ▸ hab) (ih has rfl)
    | skip _ ih =>
        obtain ⟨a, as, rfl, -, rfl⟩ := List.map_eq_cons_iff.mp has
        exact (ih rfl hbs).skip
  · intro h
    induction h with
    | done => exact Outlasts.done
    | partner hab _ ih => exact Outlasts.partner (hle _ _ ▸ hab) ih
    | skip _ ih => exact ih.skip

/-- The comparison is total and transitive. -/
structure TotalPreorder (le : α → α → Bool) : Prop where
  total : ∀ a b, le a b = true ∨ le b a = true
  trans : ∀ a b c, le a b = true → le b c = true → le a c = true

theorem TotalPreorder.exists_max (hle : TotalPreorder le) (has : as ≠ []) :
    ∃ m ∈ as, ∀ a ∈ as, le a m = true := by
  induction as with
  | nil => exact absurd rfl has
  | cons x xs ih =>
      have hself : le x x = true := (hle.total x x).elim id id
      by_cases hxs : xs = []
      · subst hxs
        exact ⟨x, List.mem_cons_self .., fun a ha => List.mem_singleton.mp ha ▸ hself⟩
      · obtain ⟨m, hm, hmax⟩ := ih hxs
        rcases hle.total x m with h | h
        · exact ⟨m, List.mem_cons_of_mem _ hm, List.forall_mem_cons.mpr ⟨h, hmax⟩⟩
        · refine ⟨x, List.mem_cons_self .., List.forall_mem_cons.mpr ⟨hself, fun a ha => ?_⟩⟩
          exact hle.trans a m x (hmax a ha) h

/-- For a total preorder it is enough to look for one element of `bs`. -/
theorem TotalPreorder.not_outlasts_iff (hle : TotalPreorder le) (hbs : bs ≠ []) :
    ¬ Outlasts le as bs ↔ ∃ b ∈ bs, ∀ a ∈ as, le a b = true := by
  constructor
  · intro h
    by_cases has : as = []
    · obtain ⟨b, hb⟩ := List.exists_mem_of_ne_nil bs hbs
      exact ⟨b, hb, by rw [has]; exact fun a ha => absurd ha List.not_mem_nil⟩
    · -- the greatest of `as` would be a partner for all of `bs`
      obtain ⟨m, hm, hmax⟩ := hle.exists_max has
      by_contra hnone
      refine h (outlasts_of_mem hm fun b hb => ?_)
      by_contra hmb
      exact hnone ⟨b, hb, fun a ha =>
        hle.trans a m b (hmax a ha) (Bool.not_eq_false _ ▸ hmb)⟩
  · rintro ⟨b, hb, hall⟩
    exact not_outlasts_of_mem hb hall

end Outlasts

/-! ## The last element -/

/-- `as` and `bs` are the last two segments of `l`, and merged with each other when the
    segments have `2 ^ t` elements. -/
def LastPair (t : Nat) (l as bs : List α) : Prop :=
  ∃ pre, l = pre ++ (as ++ bs) ∧ 2 * 2 ^ t ∣ pre.length ∧ as.length = 2 ^ t ∧ bs ≠ [] ∧
    bs.length ≤ 2 ^ t

/-- Whenever the last two segments are merged, the first one runs out first. -/
def TailStays (le : α → α → Bool) (l : List α) : Prop :=
  ∀ t as bs, LastPair t l as bs → ¬ Outlasts le (arranged le t as).tail (arranged le t bs)

/-- Whenever the last two segments are merged, the second one has an element that
    everything in the first, its head apart, goes in front of. -/
def TailTops (le : α → α → Bool) (l : List α) : Prop :=
  ∀ t as bs, LastPair t l as bs → ∃ b ∈ bs, ∀ a ∈ as.tail, le a b = true

section Last

variable {le : α → α → Bool} {l as bs : List α} {t : Nat}

theorem LastPair.lt_length (h : LastPair t l as bs) : 2 ^ t < l.length := by
  obtain ⟨pre, rfl, -, has, hbs, -⟩ := h
  have hpos := List.length_pos_iff.mpr hbs
  rw [List.length_append, List.length_append]
  omega

/-- The last two segments of two: these, or those of the second one. -/
theorem lastPair_append_iff {s : Nat} {as' bs' : List α} (has : as.length = 2 ^ t) (hbs : bs ≠ [])
    (hle : bs.length ≤ 2 ^ t) :
    LastPair s (as ++ bs) as' bs' ↔ (s = t ∧ as' = as ∧ bs' = bs) ∨ LastPair s bs as' bs' := by
  have hpos := List.length_pos_iff.mpr hbs
  constructor
  · rintro ⟨pre, hsplit, ⟨m, hm⟩, has', hbs', hle'⟩
    have hpos' := List.length_pos_iff.mpr hbs'
    have hlen := congrArg List.length hsplit
    simp only [List.length_append] at hlen
    have hst : s ≤ t := by
      by_contra hlt
      have hpow : 2 ^ (t + 1) ≤ 2 ^ s := Nat.pow_le_pow_right (by decide) (by omega)
      rw [Nat.pow_succ] at hpow
      omega
    rcases Nat.eq_or_lt_of_le hst with rfl | hlt
    · -- nothing is in front of the pair
      have hm0 : m = 0 := by
        by_contra hne
        have := Nat.le_mul_of_pos_right (2 * 2 ^ s) (Nat.pos_of_ne_zero hne)
        omega
      rw [hm0, Nat.mul_zero] at hm
      rw [List.eq_nil_of_length_eq_zero hm, List.nil_append] at hsplit
      obtain ⟨h1, h2⟩ := List.append_inj hsplit (has.trans has'.symm)
      exact Or.inl ⟨rfl, h1.symm, h2.symm⟩
    · -- `as` is whole pairs
      right
      obtain ⟨n, hn⟩ : 2 * 2 ^ s ∣ 2 ^ t := by
        rw [← Nat.pow_succ']
        exact Nat.pow_dvd_pow 2 hlt
      have hnm : n ≤ m := by
        by_contra hmn
        have := Nat.mul_le_mul_left (2 * 2 ^ s) (show m + 1 ≤ n by omega)
        rw [Nat.mul_add, Nat.mul_one] at this
        omega
      have hfront : as.length ≤ pre.length := by
        rw [has, hm, hn]
        exact Nat.mul_le_mul_left _ hnm
      obtain ⟨pre', rfl⟩ : ∃ pre', pre = as ++ pre' := by
        rcases List.append_eq_append_iff.mp hsplit with ⟨ws, h, -⟩ | ⟨ws, h, -⟩
        · exact ⟨ws, h⟩
        · have hws := congrArg List.length h
          rw [List.length_append] at hws
          rw [List.eq_nil_of_length_eq_zero (show ws.length = 0 by omega), List.append_nil] at h
          exact ⟨[], by rw [h, List.append_nil]⟩
      rw [List.append_assoc] at hsplit
      refine ⟨pre', List.append_cancel_left hsplit, ?_, has', hbs', hle'⟩
      rw [List.length_append, has, hn] at hm
      exact (Nat.dvd_add_right ⟨n, rfl⟩).mp ⟨m, hm⟩
  · rintro (⟨rfl, rfl, rfl⟩ | h)
    · exact ⟨[], rfl, ⟨0, rfl⟩, has, hbs, hle⟩
    · have hlt : s < t := by
        have := h.lt_length
        by_contra hge
        have := Nat.pow_le_pow_right (show 0 < 2 by decide) (Nat.le_of_not_lt hge)
        omega
      obtain ⟨pre, hsplit, hdvd, hrest⟩ := h
      refine ⟨as ++ pre, by rw [hsplit, List.append_assoc], ?_, hrest⟩
      rw [List.length_append, has]
      refine Nat.dvd_add ?_ hdvd
      rw [← Nat.pow_succ']
      exact Nat.pow_dvd_pow 2 hlt

theorem tailStays_append_iff (has : as.length = 2 ^ t) (hbs : bs ≠ [])
    (hle : bs.length ≤ 2 ^ t) :
    TailStays le (as ++ bs) ↔
      ¬ Outlasts le (arranged le t as).tail (arranged le t bs) ∧ TailStays le bs := by
  constructor
  · intro h
    exact ⟨h t as bs ((lastPair_append_iff has hbs hle).mpr (Or.inl ⟨rfl, rfl, rfl⟩)),
      fun s as' bs' hpair => h s as' bs' ((lastPair_append_iff has hbs hle).mpr (Or.inr hpair))⟩
  · rintro ⟨hout, hrest⟩ s as' bs' hpair
    rcases (lastPair_append_iff has hbs hle).mp hpair with ⟨rfl, rfl, rfl⟩ | hpair
    · exact hout
    · exact hrest s as' bs' hpair

theorem tailStays_of_length_le (h : l.length ≤ 1) : TailStays le l := by
  intro t as bs hpair
  have hlt := hpair.lt_length
  have hpos := Nat.two_pow_pos t
  omega

/-- The last element of the list stays last exactly if the second of the last two
    segments never runs out first. -/
theorem arranged_getLast?_iff (hnd : l.Nodup) (hlen : l.length ≤ 2 ^ t) :
    (arranged le t l).getLast? = l.getLast? ↔ TailStays le l := by
  induction t generalizing l with
  | zero => exact iff_of_true rfl (tailStays_of_length_le hlen)
  | succ t ih =>
      by_cases hle : l.length ≤ 2 ^ t
      · rw [arranged_succ_of_length_le le hle]
        exact ih hnd hle
      · -- the last pass merges the two halves
        obtain ⟨as, bs, rfl, has⟩ : ∃ as bs, l = as ++ bs ∧ as.length = 2 ^ t :=
          ⟨l.take (2 ^ t), l.drop (2 ^ t), (List.take_append_drop _ l).symm, by
            rw [List.length_take]
            omega⟩
        rw [List.length_append, has, Nat.pow_succ] at hlen
        have hbs : bs ≠ [] := by
          rintro rfl
          rw [List.append_nil] at hle
          omega
        have hbsle : bs.length ≤ 2 ^ t := by omega
        have hperm := arranged_perm le t as
        have hbs' : arranged le t bs ≠ [] := fun h => hbs (h ▸ arranged_perm le t bs).symm.eq_nil
        rw [tailStays_append_iff has hbs hbsle, arranged_append le has,
          List.getLast?_append_of_ne_nil _ hbs, ← ih (List.nodup_append.mp hnd).2.1 hbsle]
        cases h : arranged le t as with
        | nil =>
            rw [h] at hperm
            rw [hperm.symm.eq_nil] at has
            have := Nat.two_pow_pos t
            rw [List.length_nil] at has
            omega
        | cons a as' =>
            rw [mergeBehind, List.getLast?_cons_of_ne_nil (merge_ne_nil (Or.inr hbs')),
              List.tail_cons]
            by_cases hout : Outlasts le as' (arranged le t bs)
            · rw [(merge_getLast? hbs').1 hout]
              refine iff_of_false (fun heq => ?_) fun hnot => hnot.1 hout
              -- the end of the first segment is no element of the second
              have hlast := List.getLast?_eq_some_getLast hbs
              have hmem := List.mem_of_getLast? (heq.trans hlast)
              refine (List.nodup_append.mp hnd).2.2 _ (hperm.subset ?_) _
                (List.mem_of_getLast? hlast) rfl
              rw [h]
              exact List.mem_cons_of_mem _ hmem
            · rw [(merge_getLast? hbs').2 hout]
              exact (and_iff_right hout).symm

theorem mem_tail_arranged (t : Nat) {a : α} :
    a ∈ (arranged le t as).tail ↔ a ∈ as.tail := by
  have hperm := arranged_perm le t as
  have hhead := arranged_head? le t as
  cases has : as with
  | nil => rw [arranged_nil]
  | cons b bs =>
      rw [has] at hperm hhead
      cases h : arranged le t (b :: bs) with
      | nil =>
          rw [h] at hhead
          cases hhead
      | cons c cs =>
          -- the head is the same, so what is behind it has the same elements
          rw [h] at hperm hhead
          cases hhead
          exact hperm.cons_inv.mem_iff

theorem not_outlasts_arranged (t : Nat) {b : α} (hb : b ∈ bs) (hle : ∀ a ∈ as.tail, le a b = true) :
    ¬ Outlasts le (arranged le t as).tail (arranged le t bs) :=
  not_outlasts_of_mem ((arranged_perm le t bs).mem_iff.mpr hb)
    fun a ha => hle a ((mem_tail_arranged t).mp ha)

/-- Enough for every comparison. -/
theorem TailTops.tailStays (h : TailTops le l) : TailStays le l := by
  intro t as bs hpair
  obtain ⟨b, hb, hle⟩ := h t as bs hpair
  exact not_outlasts_arranged t hb hle

/-- And for a total preorder the same. -/
theorem TotalPreorder.tailStays_iff (hle : TotalPreorder le) : TailStays le l ↔ TailTops le l := by
  refine ⟨fun h t as bs hpair => ?_, TailTops.tailStays⟩
  have hbs : bs ≠ [] := hpair.elim fun _ h => h.2.2.2.1
  have hbs' : arranged le t bs ≠ [] := fun h => hbs (h ▸ arranged_perm le t bs).symm.eq_nil
  obtain ⟨b, hb, hall⟩ := (hle.not_outlasts_iff hbs').mp (h t as bs hpair)
  exact ⟨b, (arranged_perm le t bs).mem_iff.mp hb,
    fun a ha => hall a ((mem_tail_arranged t).mpr ha)⟩

theorem map_lastPair_iff {f : α → β} {as' bs' : List β} :
    LastPair t (l.map f) as' bs' ↔
      ∃ as bs, as' = as.map f ∧ bs' = bs.map f ∧ LastPair t l as bs := by
  constructor
  · rintro ⟨pre', hsplit, hdvd, has, hbs, hle⟩
    obtain ⟨pre, rest, rfl, rfl, hrest⟩ := List.map_eq_append_iff.mp hsplit
    obtain ⟨as, bs, rfl, rfl, rfl⟩ := List.map_eq_append_iff.mp hrest
    simp only [List.length_map, ne_eq, List.map_eq_nil_iff] at hdvd has hbs hle
    exact ⟨as, bs, rfl, rfl, pre, rfl, hdvd, has, hbs, hle⟩
  · rintro ⟨as, bs, rfl, rfl, pre, rfl, hdvd, has, hbs, hle⟩
    refine ⟨pre.map f, by rw [List.map_append, List.map_append], ?_⟩
    simpa using ⟨hdvd, has, hbs, hle⟩

theorem map_tailStays_iff {le' : β → β → Bool} {f : α → β}
    (hle : ∀ a b, le' (f a) (f b) = le a b) : TailStays le' (l.map f) ↔ TailStays le l := by
  have hpair : ∀ (t : Nat) (as bs : List α),
      Outlasts le' (arranged le' t (as.map f)).tail (arranged le' t (bs.map f)) ↔
        Outlasts le (arranged le t as).tail (arranged le t bs) := by
    intro t as bs
    rw [← map_arranged hle, ← map_arranged hle, ← List.map_tail, map_outlasts_iff hle]
  constructor
  · intro h t as bs hlast
    rw [← hpair]
    exact h t _ _ (map_lastPair_iff.mpr ⟨as, bs, rfl, rfl, hlast⟩)
  · intro h t as' bs' hlast
    obtain ⟨as, bs, rfl, rfl, hof⟩ := map_lastPair_iff.mp hlast
    rw [hpair]
    exact h t as bs hof

end Last

end BottomUpMerge
