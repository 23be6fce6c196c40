/-
  GogetaTools.Lib.LinearProbe

  Linear probing over a circular table of `cap` slots, with no commitment to
  what a slot holds.  `probeFrom` is the search loop
  `for (;;) { if (stop(index)) return index; index = (index + 1) % cap; }`,
  bounded by a fuel; `Reaches` says that a slot can be found from a start slot
  by walking over slots that a predicate holds of.

  The two facts a table proof needs are `probeFrom_eq_of_reaches` (a reachable
  slot is the one the search returns, when nothing on the way stops it) and
  `probeFrom_isSome` (one stopping slot is enough for the search to end).

  `ProbeTable` is the invariant of a table that is only ever filled: the occupied
  slots are those of a list, each one reached from its home slot over occupied
  ones.  Slots may change what they hold, and be marked as deleted, as long as
  they stay occupied.
-/

import Mathlib.Data.List.Perm.Subperm
import Mathlib.Data.Nat.Find
import Mathlib.Tactic.Common

namespace LinearProbe

/-- The slot visited at step `j` of a search that begins at `start`. -/
def slot (cap start j : Nat) : Nat := (start + j) % cap

/-- Search for the first stopping slot, `fuel` slots at most. -/
def probeFrom (stop : Nat → Bool) (cap : Nat) : Nat → Nat → Option Nat
  | 0, _ => none
  | fuel + 1, index =>
      if stop index then some index else probeFrom stop cap fuel ((index + 1) % cap)

/-- Slot `i` can be found from `start` by walking over slots where `occ` holds. -/
def Reaches (occ : Nat → Prop) (cap start i : Nat) : Prop :=
  ∃ j < cap, slot cap start j = i ∧ ∀ j' < j, occ (slot cap start j')

theorem slot_lt {cap : Nat} (hcap : 0 < cap) (start j : Nat) : slot cap start j < cap :=
  Nat.mod_lt _ hcap

theorem slot_zero {cap start : Nat} (hstart : start < cap) : slot cap start 0 = start :=
  Nat.mod_eq_of_lt (by simpa using hstart)

theorem slot_succ (cap start j : Nat) :
    slot cap start (j + 1) = slot cap ((start + 1) % cap) j := by
  simp only [slot, Nat.mod_add_mod]
  congr 1
  omega

/-- Every slot of the table is visited within `cap` steps. -/
theorem exists_slot_eq {cap start i : Nat} (hstart : start < cap) (hi : i < cap) :
    ∃ j < cap, slot cap start j = i := by
  rcases Nat.lt_or_ge i start with h | h
  · refine ⟨cap + i - start, by omega, ?_⟩
    have : start + (cap + i - start) = cap + i := by omega
    rw [slot, this, Nat.add_mod_left, Nat.mod_eq_of_lt hi]
  · refine ⟨i - start, by omega, ?_⟩
    rw [slot, Nat.add_sub_cancel' h, Nat.mod_eq_of_lt hi]

/-- The search returns the first slot on its path that stops it. -/
theorem probeFrom_eq_slot {stop : Nat → Bool} {cap : Nat} :
    ∀ {fuel start j : Nat}, start < cap → j < fuel →
      stop (slot cap start j) = true → (∀ j' < j, stop (slot cap start j') = false) →
      probeFrom stop cap fuel start = some (slot cap start j) := by
  intro fuel
  induction fuel with
  | zero => intro start j _ hj; omega
  | succ fuel ih =>
      intro start j hstart hj hstop hmiss
      have hcap : 0 < cap := Nat.lt_of_le_of_lt (Nat.zero_le _) hstart
      cases j with
      | zero =>
          rw [slot_zero hstart] at hstop ⊢
          simp [probeFrom, hstop]
      | succ j =>
          have h0 : stop start = false := by
            simpa [slot_zero hstart] using hmiss 0 (Nat.succ_pos j)
          rw [slot_succ] at hstop ⊢
          have hmiss' : ∀ j' < j, stop (slot cap ((start + 1) % cap) j') = false := by
            intro j' hj'
            rw [← slot_succ]
            exact hmiss (j' + 1) (Nat.succ_lt_succ hj')
          simp only [probeFrom, h0, Bool.false_eq_true, if_false]
          exact ih (Nat.mod_lt _ hcap) (Nat.lt_of_succ_lt_succ hj) hstop hmiss'

/-- A walk that stops by step `j` has a first stopping step. -/
theorem exists_first_stop {stop : Nat → Bool} {cap j : Nat} (start : Nat)
    (hstop : stop (slot cap start j) = true) :
    ∃ j₀ ≤ j, stop (slot cap start j₀) = true ∧
      ∀ j' < j₀, stop (slot cap start j') = false := by
  have hex : ∃ j, stop (slot cap start j) = true := ⟨j, hstop⟩
  refine ⟨Nat.find hex, Nat.find_min' hex hstop, Nat.find_spec hex, ?_⟩
  intro j' hj'
  simpa using Nat.find_min hex hj'

/-- One stopping slot anywhere in the table ends the search at a slot reached
    over slots that do not stop it. -/
theorem probeFrom_isSome {stop : Nat → Bool} {cap start i : Nat}
    (hstart : start < cap) (hi : i < cap) (hstop : stop i = true) :
    ∃ e, probeFrom stop cap cap start = some e ∧ stop e = true ∧ e < cap ∧
      Reaches (fun x => stop x = false) cap start e := by
  obtain ⟨j, hj, hji⟩ := exists_slot_eq hstart hi
  obtain ⟨j₀, hle, hfirst, hmiss⟩ := exists_first_stop start (hji ▸ hstop)
  have hlt : j₀ < cap := by omega
  exact ⟨_, probeFrom_eq_slot hstart hlt hfirst hmiss, hfirst,
    slot_lt (by omega) _ _, _, hlt, rfl, hmiss⟩

/-- A reachable stopping slot is the one the search returns, when no other
    slot on a walk over `occ` slots stops it. -/
theorem probeFrom_eq_of_reaches {stop : Nat → Bool} {occ : Nat → Prop} {cap start i : Nat}
    (hstart : start < cap) (hreach : Reaches occ cap start i) (hstop : stop i = true)
    (hothers : ∀ i', occ i' → i' ≠ i → stop i' = false) :
    probeFrom stop cap cap start = some i := by
  obtain ⟨j, hj, hji, hocc⟩ := hreach
  obtain ⟨j₀, hle, hfirst, hmiss⟩ := exists_first_stop start (hji ▸ hstop)
  have hi : slot cap start j₀ = i := by
    rcases Nat.lt_or_ge j₀ j with hlt | hge
    · by_contra hne
      have := hothers _ (hocc _ hlt) hne
      rw [hfirst] at this
      cases this
    · have : j₀ = j := by omega
      rw [this, hji]
  rw [probeFrom_eq_slot hstart (by omega) hfirst hmiss, hi]

theorem Reaches.mono {occ occ' : Nat → Prop} {cap start i : Nat}
    (h : Reaches occ cap start i) (himp : ∀ x < cap, occ x → occ' x) :
    Reaches occ' cap start i := by
  obtain ⟨j, hj, hji, hocc⟩ := h
  exact ⟨j, hj, hji, fun j' hj' => himp _ (slot_lt (by omega) _ _) (hocc j' hj')⟩

/-! ## Tables -/

/-- The slots of `l` are the occupied ones, and each can be found from its home. -/
structure ProbeTable (occ : Nat → Prop) (home : Nat → Nat) (cap : Nat) (l : List Nat) : Prop where
  nodup : l.Nodup
  mem_iff : ∀ i, i ∈ l ↔ i < cap ∧ occ i
  reaches : ∀ i ∈ l, Reaches (· ∈ l) cap (home i % cap) i

namespace ProbeTable

variable {occ occ' : Nat → Prop} {home home' : Nat → Nat} {cap : Nat} {l : List Nat}

theorem exists_free (h : ProbeTable occ home cap l) (hlt : l.length < cap) :
    ∃ i < cap, ¬ occ i := by
  by_contra hfull
  have hsub : List.range cap ⊆ l := by
    intro i hi
    have hi' : i < cap := List.mem_range.mp hi
    exact (h.mem_iff i).mpr ⟨hi', by_contra fun hfree => hfull ⟨i, hi', hfree⟩⟩
  have := (List.nodup_range.subperm hsub).length_le
  simp at this
  omega

/-- A search that stops at every free slot and at no occupied one ends at a free slot. -/
theorem probe_free (h : ProbeTable occ home cap l) (hlt : l.length < cap) (stop : Nat → Bool)
    (hfree : ∀ i, ¬ occ i → stop i = true) (hfull : ∀ i ∈ l, stop i = false) (start : Nat) :
    ∃ e, probeFrom stop cap cap (start % cap) = some e ∧ e < cap ∧ ¬ occ e ∧
      Reaches (· ∈ l) cap (start % cap) e := by
  obtain ⟨i, hi, hnone⟩ := h.exists_free hlt
  obtain ⟨e, hprobe, hstop, he, hreach⟩ :=
    probeFrom_isSome (Nat.mod_lt start (by omega)) hi (hfree i hnone)
  have hocc : ∀ x < cap, stop x = false → x ∈ l := by
    intro x hx hfalse
    refine (h.mem_iff x).mpr ⟨hx, by_contra fun hn => ?_⟩
    rw [hfree x hn] at hfalse
    cases hfalse
  refine ⟨e, hprobe, he, fun hocc' => ?_, hreach.mono hocc⟩
  rw [hfull e ((h.mem_iff e).mpr ⟨he, hocc'⟩)] at hstop
  cases hstop

/-- A free slot that its new home reaches becomes occupied. -/
theorem insert (h : ProbeTable occ home cap l) {i : Nat} (hi : i < cap) (hfree : ¬ occ i)
    (hocc : ∀ j, occ' j ↔ j = i ∨ occ j) (hhome : ∀ j, j ≠ i → home' j = home j)
    (hreach : Reaches (· ∈ l) cap (home' i % cap) i) : ProbeTable occ' home' cap (l ++ [i]) := by
  have hil : i ∉ l := fun hmem => hfree ((h.mem_iff i).mp hmem).2
  refine ⟨?_, ?_, ?_⟩
  · rw [List.nodup_append]
    exact ⟨h.nodup, by simp, fun a ha b hb hab => hil (by simp at hb; exact hb ▸ hab ▸ ha)⟩
  · intro j
    rw [List.mem_append, List.mem_singleton, h.mem_iff j, hocc j]
    constructor
    · rintro (⟨hj, hj'⟩ | rfl)
      · exact ⟨hj, Or.inr hj'⟩
      · exact ⟨hi, Or.inl rfl⟩
    · rintro ⟨hj, rfl | hj'⟩
      · exact Or.inr rfl
      · exact Or.inl ⟨hj, hj'⟩
  · intro j hj
    rcases List.mem_append.mp hj with hjl | hji
    · -- a longer list leaves no probe path open that was closed
      rw [hhome j (fun hji => hil (hji ▸ hjl))]
      exact (h.reaches j hjl).mono fun x _ hx => List.mem_append_left _ hx
    · rw [List.mem_singleton.mp hji]
      exact hreach.mono fun x _ hx => List.mem_append_left _ hx

/-- Slots change what they hold but neither their home nor that they are occupied. -/
theorem congr (h : ProbeTable occ home cap l) (hocc : ∀ j, occ' j ↔ occ j)
    (hhome : ∀ j ∈ l, home' j = home j) : ProbeTable occ' home' cap l := by
  refine ⟨h.nodup, fun i => ?_, fun i hi => ?_⟩
  · rw [h.mem_iff i, hocc i]
  · rw [hhome i hi]
    exact h.reaches i hi

/-- An occupied slot that stops the search is found, when no other one stops it. -/
theorem probe_mem (h : ProbeTable occ home cap l) {stop : Nat → Bool} {i : Nat} (hi : i ∈ l)
    (hstop : stop i = true) (hothers : ∀ j ∈ l, j ≠ i → stop j = false) :
    probeFrom stop cap cap (home i % cap) = some i := by
  have hlt : i < cap := ((h.mem_iff i).mp hi).1
  exact probeFrom_eq_of_reaches (Nat.mod_lt _ (by omega)) (h.reaches i hi) hstop hothers

end ProbeTable

end LinearProbe
