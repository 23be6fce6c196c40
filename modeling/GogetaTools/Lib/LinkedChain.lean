/-
  GogetaTools.Lib.LinkedChain

  Singly linked lists in a memory of `next` links.  `Chain next p l q` says
  that following `next` from the pointer `p` visits exactly the addresses `l`
  and arrives at the pointer `q` (`none` is the null pointer).  Reading `q` as
  a parameter covers whole lists (`q = none`), segments, and a segment whose
  last link still dangles.

  An update of one link is written `setLink`; the frame rule is `Chain.congr`.
-/

import Mathlib.Data.List.Nodup
import Mathlib.Tactic.Common

namespace LinkedChain

variable {α : Type}

/-- From `p`, following `next` visits `l` and arrives at `q`. -/
def Chain (next : α → Option α) : Option α → List α → Option α → Prop
  | p, [], q => p = q
  | p, a :: l, q => p = some a ∧ Chain next (next a) l q

/-- The link memory after `a->next = p`. -/
def setLink [DecidableEq α] (next : α → Option α) (a : α) (p : Option α) : α → Option α :=
  fun b => if b = a then p else next b

@[simp] theorem chain_nil {next : α → Option α} {p q : Option α} :
    Chain next p [] q ↔ p = q := Iff.rfl

@[simp] theorem chain_cons {next : α → Option α} {p q : Option α} {a : α} {l : List α} :
    Chain next p (a :: l) q ↔ p = some a ∧ Chain next (next a) l q := Iff.rfl

theorem chain_append {next : α → Option α} {p q : Option α} {l₁ l₂ : List α} :
    Chain next p (l₁ ++ l₂) q ↔ ∃ r, Chain next p l₁ r ∧ Chain next r l₂ q := by
  induction l₁ generalizing p with
  | nil => simp
  | cons a l ih => simp [ih, and_assoc]

theorem chain_concat {next : α → Option α} {p q : Option α} {l : List α} {a : α} :
    Chain next p (l ++ [a]) q ↔ Chain next p l (some a) ∧ next a = q := by
  rw [chain_append]
  constructor
  · rintro ⟨r, hl, hr, hq⟩
    exact ⟨hr ▸ hl, hq⟩
  · rintro ⟨hl, hq⟩
    exact ⟨some a, hl, rfl, hq⟩

/-- Frame rule: a chain only depends on the links of its own addresses. -/
theorem Chain.congr {next next' : α → Option α} {p q : Option α} {l : List α}
    (h : Chain next p l q) (heq : ∀ a ∈ l, next' a = next a) : Chain next' p l q := by
  induction l generalizing p with
  | nil => exact h
  | cons a l ih =>
      obtain ⟨hp, hl⟩ := h
      refine ⟨hp, ?_⟩
      rw [heq a (List.mem_cons_self ..)]
      exact ih hl (fun b hb => heq b (List.mem_cons_of_mem _ hb))

theorem Chain.head?_eq {next : α → Option α} {p q : Option α} {l : List α}
    (h : Chain next p l q) (hne : l ≠ []) : l.head? = p := by
  cases l with
  | nil => exact absurd rfl hne
  | cons a l => exact h.1.symm

/-- A whole list starts at its first address. -/
theorem Chain.eq_head? {next : α → Option α} {p : Option α} {l : List α}
    (h : Chain next p l none) : p = l.head? := by
  cases l with
  | nil => exact h
  | cons a l => exact h.1

/-- Two lists from the same pointer to null are the same list. -/
theorem Chain.unique {next : α → Option α} {p : Option α} {l l' : List α}
    (h : Chain next p l none) (h' : Chain next p l' none) : l = l' := by
  induction l generalizing p l' with
  | nil =>
      cases l' with
      | nil => rfl
      | cons b l' => exact absurd (h.symm.trans h'.1) (by simp)
  | cons a l ih =>
      cases l' with
      | nil => exact absurd (h'.symm.trans h.1) (by simp)
      | cons b l' =>
          have hab : a = b := Option.some.inj (h.1.symm.trans h'.1)
          subst hab
          rw [ih h.2 h'.2]

/-- A list that ends in null visits no address twice: from the second visit on
    it would have to be the list from the first visit. -/
theorem Chain.nodup {next : α → Option α} {p : Option α} {l : List α}
    (h : Chain next p l none) : l.Nodup := by
  induction l generalizing p with
  | nil => exact List.nodup_nil
  | cons a l ih =>
      refine List.nodup_cons.mpr ⟨?_, ih h.2⟩
      intro hmem
      obtain ⟨l₁, l₂, rfl⟩ := List.append_of_mem hmem
      -- the second visit of `a`
      obtain ⟨r, -, hr, hrest⟩ := chain_append.mp h.2
      have hsame : a :: l₂ = a :: (l₁ ++ a :: l₂) :=
        Chain.unique (p := some a) ⟨rfl, hrest⟩ ⟨rfl, h.2⟩
      have hlen := congrArg List.length hsame
      simp only [List.length_cons, List.length_append] at hlen
      omega

section setLink

variable [DecidableEq α] {next : α → Option α} {p q : Option α} {l : List α} {a : α}

@[simp] theorem setLink_self : setLink next a p a = p := if_pos rfl

theorem setLink_of_ne {b : α} (h : b ≠ a) : setLink next a p b = next b := if_neg h

theorem Chain.setLink_of_notMem {r : Option α} (h : Chain next p l q) (ha : a ∉ l) :
    Chain (setLink next a r) p l q :=
  h.congr fun _ hb => setLink_of_ne fun hba => ha (hba ▸ hb)

/-- Redirecting the last link of a chain redirects its end. -/
theorem Chain.setLink_last {r : Option α} (h : Chain next p l q) (hnd : l.Nodup)
    (hlast : l.getLast? = some a) : Chain (setLink next a r) p l r := by
  obtain ⟨l', rfl⟩ := List.getLast?_eq_some_iff.mp hlast
  have ha : a ∉ l' := by
    intro hmem
    exact (List.nodup_append.mp hnd).2.2 a hmem a (List.mem_singleton_self a) rfl
  rw [chain_concat] at h ⊢
  exact ⟨h.1.setLink_of_notMem ha, setLink_self⟩

/-- `b->next = a->next; a->next = b;` puts `b` behind `a`. -/
theorem Chain.insert_after {b : α} {l' : List α} (h : Chain next p (l ++ a :: l') q)
    (hab : a ≠ b) (ha : a ∉ l ++ l') (hb : b ∉ l ++ l') :
    Chain (setLink (setLink next b (next a)) a (some b)) p (l ++ a :: b :: l') q := by
  obtain ⟨r, hl, hr, hl'⟩ := chain_append.mp h
  simp only [List.mem_append, not_or] at ha hb
  refine chain_append.mpr ⟨r, ?_, hr, ?_, ?_⟩
  · exact (hl.setLink_of_notMem hb.1).setLink_of_notMem ha.1
  · exact setLink_self
  · rw [setLink_of_ne (Ne.symm hab), setLink_self]
    exact (hl'.setLink_of_notMem hb.2).setLink_of_notMem ha.2

end setLink

/-- The pointer to the first address of `l`, or `q` where `l` is empty. -/
def headOr (l : List α) (q : Option α) : Option α :=
  match l with
  | [] => q
  | a :: _ => some a

@[simp] theorem headOr_nil (q : Option α) : headOr [] q = q := rfl

@[simp] theorem headOr_cons (a : α) (l : List α) (q : Option α) : headOr (a :: l) q = some a := rfl

theorem Chain.eq_headOr {next : α → Option α} {p q : Option α} {l : List α}
    (h : Chain next p l q) : p = headOr l q := by
  cases l with
  | nil => exact h
  | cons a l => exact h.1

theorem Chain.first_eq {next : α → Option α} {p : Option α} {l : List α}
    (h : Chain next p l none) : p = l.head? := by
  cases l with
  | nil => exact h
  | cons a l => exact h.1

end LinkedChain
