/-
  GogetaTools.Lib.Dict

  A dictionary of a script: pairs in the order in which their keys were first
  inserted, with different keys, and one operation that updates the value of a key
  or inserts it.

  A dictionary of lists files items under keys (`Holds`); `weight` counts every
  item with its key, which is what a histogram of lengths adds up to.
-/

import Mathlib.Algebra.BigOperators.Group.List.Basic
import Mathlib.Algebra.Ring.Nat
import Mathlib.Data.List.Nodup

namespace PyDict

variable {κ ν : Type} [DecidableEq κ]

/-! ## Pairs -/

/-- The pairs with the value of `key` updated, or inserted behind the others. -/
def upsertPairs (f : Option ν → ν) (key : κ) : List (κ × ν) → List (κ × ν)
  | [] => [(key, f none)]
  | (k, v) :: m => if k = key then (k, f (some v)) :: m else (k, v) :: upsertPairs f key m

/-- The value of the first pair with this key. -/
def getPairs (key : κ) : List (κ × ν) → Option ν
  | [] => none
  | (k, v) :: m => if k = key then some v else getPairs key m

theorem keys_upsertPairs (f : Option ν → ν) (key : κ) (m : List (κ × ν)) :
    (upsertPairs f key m).map Prod.fst =
      if key ∈ m.map Prod.fst then m.map Prod.fst else m.map Prod.fst ++ [key] := by
  induction m with
  | nil => simp [upsertPairs]
  | cons e m ih =>
      obtain ⟨k, v⟩ := e
      by_cases hk : k = key
      · simp [upsertPairs, hk]
      · simp only [upsertPairs, if_neg hk, List.map_cons, ih, List.mem_cons, Ne.symm hk, false_or]
        split <;> rfl

theorem nodup_keys_upsertPairs {f : Option ν → ν} {key : κ} {m : List (κ × ν)}
    (h : (m.map Prod.fst).Nodup) : ((upsertPairs f key m).map Prod.fst).Nodup := by
  rw [keys_upsertPairs]
  split
  · exact h
  · rename_i hnew
    exact h.append (List.nodup_singleton key) (List.disjoint_singleton.mpr hnew)

theorem getPairs_upsertPairs (f : Option ν → ν) (key key' : κ) (m : List (κ × ν)) :
    getPairs key' (upsertPairs f key m) =
      if key' = key then some (f (getPairs key m)) else getPairs key' m := by
  induction m with
  | nil => by_cases h : key' = key <;> simp [upsertPairs, getPairs, h, Ne.symm]
  | cons e m ih =>
      obtain ⟨k, v⟩ := e
      rw [upsertPairs]
      by_cases hk : k = key
      · subst hk
        rw [if_pos rfl, getPairs, getPairs, if_pos rfl, getPairs]
        by_cases h : key' = k
        · rw [if_pos h.symm, if_pos h]
        · rw [if_neg (Ne.symm h), if_neg h, if_neg (Ne.symm h)]
      · rw [if_neg hk, getPairs, ih, getPairs, if_neg hk, getPairs]
        by_cases hk' : k = key'
        · rw [if_pos hk', if_neg (fun h => hk (hk'.trans h)), if_pos hk']
        · rw [if_neg hk', if_neg hk']

theorem upsertPairs_of_notMem (f : Option ν → ν) {key : κ} {m : List (κ × ν)}
    (h : key ∉ m.map Prod.fst) : upsertPairs f key m = m ++ [(key, f none)] := by
  induction m with
  | nil => rfl
  | cons e m ih =>
      obtain ⟨k, v⟩ := e
      rw [List.map_cons, List.mem_cons, not_or] at h
      rw [upsertPairs, if_neg (Ne.symm h.1), ih h.2, List.cons_append]

theorem upsertPairs_of_split (f : Option ν → ν) {key : κ} {m₁ m₂ : List (κ × ν)} {v : ν}
    (h : key ∉ m₁.map Prod.fst) :
    upsertPairs f key (m₁ ++ (key, v) :: m₂) = m₁ ++ (key, f (some v)) :: m₂ := by
  induction m₁ with
  | nil => rw [List.nil_append, upsertPairs, if_pos rfl, List.nil_append]
  | cons e m ih =>
      obtain ⟨k, w⟩ := e
      rw [List.map_cons, List.mem_cons, not_or] at h
      rw [List.cons_append, upsertPairs, if_neg (Ne.symm h.1), ih h.2, List.cons_append]

/-- Only what the update makes of the value that is there counts. -/
theorem upsertPairs_congr {f g : Option ν → ν} {key : κ} {m : List (κ × ν)}
    (h : f (getPairs key m) = g (getPairs key m)) :
    upsertPairs f key m = upsertPairs g key m := by
  induction m with
  | nil =>
      have hnone : f none = g none := h
      rw [upsertPairs, upsertPairs, hnone]
  | cons e m ih =>
      obtain ⟨k, v⟩ := e
      rw [getPairs] at h
      rw [upsertPairs, upsertPairs]
      by_cases hk : k = key
      · rw [if_pos hk] at h
        rw [if_pos hk, if_pos hk, h]
      · rw [if_neg hk] at h
        rw [if_neg hk, if_neg hk, ih h]

theorem getPairs_of_notMem {key : κ} {m : List (κ × ν)} (h : key ∉ m.map Prod.fst) :
    getPairs key m = none := by
  induction m with
  | nil => rfl
  | cons e m ih =>
      obtain ⟨k, v⟩ := e
      rw [List.map_cons, List.mem_cons, not_or] at h
      rw [getPairs, if_neg (Ne.symm h.1), ih h.2]

theorem getPairs_of_split {key : κ} {m₁ m₂ : List (κ × ν)} {v : ν}
    (h : key ∉ m₁.map Prod.fst) : getPairs key (m₁ ++ (key, v) :: m₂) = some v := by
  induction m₁ with
  | nil => rw [List.nil_append, getPairs, if_pos rfl]
  | cons e m ih =>
      obtain ⟨k, w⟩ := e
      rw [List.map_cons, List.mem_cons, not_or] at h
      rw [List.cons_append, getPairs, if_neg (Ne.symm h.1), ih h.2]

/-- The pairs without that of `key`. -/
def erasePairs (key : κ) (m : List (κ × ν)) : List (κ × ν) := m.filter fun e => e.1 ≠ key

theorem erasePairs_of_notMem {key : κ} {m : List (κ × ν)} (h : key ∉ m.map Prod.fst) :
    erasePairs key m = m := by
  rw [erasePairs, List.filter_eq_self]
  intro e he
  rw [decide_eq_true_eq]
  rintro rfl
  exact h (List.mem_map_of_mem he)

theorem erasePairs_of_split {key : κ} {m₁ m₂ : List (κ × ν)} {v : ν}
    (h₁ : key ∉ m₁.map Prod.fst) (h₂ : key ∉ m₂.map Prod.fst) :
    erasePairs key (m₁ ++ (key, v) :: m₂) = m₁ ++ m₂ := by
  have hleft : m₁.filter (fun e => e.1 ≠ key) = m₁ := erasePairs_of_notMem h₁
  have hright : m₂.filter (fun e => e.1 ≠ key) = m₂ := erasePairs_of_notMem h₂
  rw [erasePairs, List.filter_append, List.filter_cons_of_neg (by simp), hleft, hright]

/-! ## Dictionaries -/

structure Dict (κ ν : Type) where
  pairs : List (κ × ν)
  nodup : (pairs.map Prod.fst).Nodup

namespace Dict

def empty : Dict κ ν := ⟨[], List.nodup_nil⟩

/-- `m[key] = f(m[key])`, with none for a key that is not there. -/
def upsert (f : Option ν → ν) (key : κ) (m : Dict κ ν) : Dict κ ν :=
  ⟨upsertPairs f key m.pairs, nodup_keys_upsertPairs m.nodup⟩

/-- `m.get(key)`. -/
def get? (key : κ) (m : Dict κ ν) : Option ν := getPairs key m.pairs

@[simp] theorem get?_upsert_self (f : Option ν → ν) (key : κ) (m : Dict κ ν) :
    (m.upsert f key).get? key = some (f (m.get? key)) := by
  rw [get?, upsert, getPairs_upsertPairs, if_pos rfl, get?]

theorem get?_upsert_of_ne (f : Option ν → ν) {key key' : κ} (h : key' ≠ key) (m : Dict κ ν) :
    (m.upsert f key).get? key' = m.get? key' := by
  rw [get?, upsert, getPairs_upsertPairs, if_neg h, get?]

theorem upsert_congr {f g : Option ν → ν} {key : κ} {m : Dict κ ν}
    (h : f (m.get? key) = g (m.get? key)) : m.upsert f key = m.upsert g key := by
  rw [upsert, upsert]
  congr 1
  exact upsertPairs_congr h

/-- `m.pop(key, None)`. -/
def erase (key : κ) (m : Dict κ ν) : Dict κ ν :=
  ⟨erasePairs key m.pairs, (List.filter_sublist.map Prod.fst).nodup m.nodup⟩

theorem erase_of_notMem {key : κ} {m : Dict κ ν} (h : key ∉ m.pairs.map Prod.fst) :
    m.erase key = m := by
  obtain ⟨pairs, hnd⟩ := m
  rw [erase]
  congr 1
  exact erasePairs_of_notMem h

/-- `len(m)`. -/
def size (m : Dict κ ν) : Nat := m.pairs.length

theorem size_le_upsert (f : Option ν → ν) (key : κ) (m : Dict κ ν) :
    m.size ≤ (m.upsert f key).size := by
  have hlen := congrArg List.length (keys_upsertPairs f key m.pairs)
  rw [List.length_map] at hlen
  show m.pairs.length ≤ (upsertPairs f key m.pairs).length
  rw [hlen]
  split <;> simp

/-! ## Lists of items under a key -/

/-- Adds an item to the list of its key. -/
def push (key : κ) (item : ν) (m : Dict κ (List ν)) : Dict κ (List ν) :=
  m.upsert (fun old => old.getD [] ++ [item]) key

/-- The items under a key, none for a key that is not there. -/
def items (m : Dict κ (List ν)) (key : κ) : List ν := (m.get? key).getD []

@[simp] theorem items_push_self (key : κ) (item : ν) (m : Dict κ (List ν)) :
    (m.push key item).items key = m.items key ++ [item] := by
  simp [items, push]

theorem items_push_of_ne {key key' : κ} (h : key' ≠ key) (item : ν) (m : Dict κ (List ν)) :
    (m.push key item).items key' = m.items key' := by
  rw [items, push, get?_upsert_of_ne _ h, items]

/-- The sum of the keys over all items. -/
def weight (m : Dict Nat (List ν)) : Nat := (m.pairs.map fun e => e.1 * e.2.length).sum

theorem weight_push (key : Nat) (item : ν) (m : Dict Nat (List ν)) :
    (m.push key item).weight = m.weight + key := by
  obtain ⟨pairs, hnd⟩ := m
  simp only [weight, push, upsert]
  clear hnd
  induction pairs with
  | nil => simp [upsertPairs]
  | cons e pairs ih =>
      obtain ⟨k, v⟩ := e
      rw [upsertPairs]
      by_cases hk : k = key
      · subst hk
        simp only [if_pos, List.map_cons, List.sum_cons, Option.getD_some, List.length_append,
          List.length_singleton, Nat.mul_add, Nat.mul_one]
        omega
      · simp only [if_neg hk, List.map_cons, List.sum_cons, ih]
        omega

end Dict

/-! ## What a dictionary of lists holds -/

/-- The items that a list of pairs has for a key. -/
def under (key : κ) (es : List (κ × ν)) : List ν :=
  (es.filter fun e => e.1 = key).map Prod.snd

theorem under_append (key : κ) (es es' : List (κ × ν)) :
    under key (es ++ es') = under key es ++ under key es' := by
  simp [under]

theorem under_singleton (key key' : κ) (item : ν) :
    under key [(key', item)] = if key' = key then [item] else [] := by
  by_cases h : key' = key <;> simp [under, h]

theorem under_perm {es es' : List (κ × ν)} (h : es.Perm es') (key : κ) :
    (under key es).Perm (under key es') := (h.filter _).map _

/-- Two pairs that make no difference in front of the same pairs are the same. -/
theorem under_cons_perm_iff {e e' : κ × ν} {es : List (κ × ν)} :
    (∀ key, (under key (e :: es)).Perm (under key (e' :: es))) ↔ e = e' := by
  constructor
  · intro h
    obtain ⟨key, item⟩ := e
    obtain ⟨key', item'⟩ := e'
    have hkey := h key
    rw [← List.singleton_append, ← List.singleton_append (l := es), under_append, under_append,
      List.perm_append_right_iff, under_singleton, under_singleton, if_pos rfl] at hkey
    split at hkey
    · rename_i heq
      rw [heq, List.singleton_perm_singleton.mp hkey]
    · exact absurd hkey.length_eq (by simp)
  · rintro rfl key
    exact List.Perm.refl _

/-- The dictionary holds the pairs `es`, those of a key in their order. -/
def Holds (m : Dict κ (List ν)) (es : List (κ × ν)) : Prop := ∀ key, m.items key = under key es

theorem holds_empty : Holds (Dict.empty : Dict κ (List ν)) [] := fun _ => rfl

theorem Holds.push {m : Dict κ (List ν)} {es : List (κ × ν)} (h : Holds m es) (key : κ)
    (item : ν) : Holds (m.push key item) (es ++ [(key, item)]) := by
  intro key'
  rw [under_append, under_singleton]
  by_cases hk : key' = key
  · rw [hk, Dict.items_push_self, h key, if_pos rfl]
  · rw [Dict.items_push_of_ne hk, h key', if_neg (Ne.symm hk), List.append_nil]

end PyDict
