/-
  GogetaTools.Lib.SparseFile

  A file with holes: its bytes, and the pages that have storage.

  A page without storage reads as zeros, which `zero_hole` keeps in the type.  A write gives
  storage to the pages it touches; a page that is punched loses it, and the size stays.

    * `Begun`  — every page has a beginning of what it has in some contents, and zeros
                 behind.  A write of a piece of these contents that starts with a page
                 keeps this wherever it ends (`Begun.write`), and so does a punch.
-/

import GogetaTools.Lib.ByteFile
import Mathlib.Data.Finset.Card
import Mathlib.Order.Interval.Finset.Nat

namespace SparseFile

open ByteFile WriteLog

/-- The pages of `n` bytes from `off` on. -/
def touched (P off n : Nat) : Finset Nat := (Finset.range n).image fun i => (off + i) / P

theorem mem_touched {P off n p : Nat} : p ∈ touched P off n ↔ ∃ i < n, (off + i) / P = p := by
  simp only [touched, Finset.mem_image, Finset.mem_range]

/-- Bytes in front of the end of page `N` are on pages below it. -/
theorem touched_subset {P off n N : Nat} (h : off + n ≤ N * P) :
    touched P off n ⊆ Finset.range N := by
  intro p hp
  obtain ⟨i, hi, rfl⟩ := mem_touched.mp hp
  exact Finset.mem_range.mpr (Nat.div_lt_of_lt_mul (by rw [Nat.mul_comm]; omega))

/-- Whole pages. -/
theorem touched_pages {P : Nat} (hP : 0 < P) (m n : Nat) :
    touched P (m * P) (n * P) = Finset.Ico m (m + n) := by
  ext p
  rw [mem_touched, Finset.mem_Ico]
  constructor
  · rintro ⟨i, hi, rfl⟩
    have hdiv : (m * P + i) / P = m + i / P := by rw [Nat.mul_comm, Nat.mul_add_div hP]
    have hlt : i / P < n := Nat.div_lt_of_lt_mul (by rwa [Nat.mul_comm])
    rw [hdiv]
    exact ⟨Nat.le_add_right .., Nat.add_lt_add_left hlt m⟩
  · rintro ⟨hle, hlt⟩
    refine ⟨(p - m) * P, Nat.mul_lt_mul_of_pos_right (by omega) hP, ?_⟩
    rw [← Nat.add_mul, Nat.add_sub_cancel' hle, Nat.mul_div_cancel _ hP]

structure Sparse (P : Nat) (β : Type) [Zero β] where
  file : File β
  used : Finset Nat
  zero_hole : ∀ i, i / P ∉ used → file.data i = 0

variable {P : Nat} {β : Type} [Zero β]

def Sparse.empty : Sparse P β := ⟨File.empty, ∅, fun _ _ => rfl⟩

instance : Inhabited (Sparse P β) := ⟨Sparse.empty⟩

/-- A write stays on the pages that it touches. -/
theorem write_zero_hole (s : Sparse P β) (off : Nat) (bs : List β) (i : Nat)
    (hi : i / P ∉ s.used ∪ touched P off bs.length) : (s.file.pwrite off bs).data i = 0 := by
  rw [Finset.notMem_union] at hi
  rw [File.data_pwrite, writeAt_of_not_covers]
  · exact s.zero_hole i hi.1
  · rintro ⟨hle, hlt⟩
    have hle : off ≤ i := hle
    have hlt : i < off + bs.length := hlt
    exact hi.2 (mem_touched.mpr ⟨i - off, by omega, by rw [Nat.add_sub_cancel' hle]⟩)

def Sparse.write (s : Sparse P β) (off : Nat) (bs : List β) : Sparse P β where
  file := s.file.pwrite off bs
  used := s.used ∪ touched P off bs.length
  zero_hole := write_zero_hole s off bs

/-- A punched page reads as zeros. -/
theorem punch_zero_hole (s : Sparse P β) (p i : Nat) (hi : i / P ∉ s.used.erase p) :
    (if i / P = p then 0 else s.file.data i) = 0 := by
  rw [Finset.mem_erase, not_and_or, not_not] at hi
  split
  · rfl
  · rename_i hne
    exact s.zero_hole i (hi.resolve_left hne)

/-- `fallocate` of a page with `FALLOC_FL_PUNCH_HOLE | FALLOC_FL_KEEP_SIZE`. -/
def Sparse.punch (s : Sparse P β) (p : Nat) : Sparse P β where
  file :=
    { size := s.file.size
      data := fun i => if i / P = p then 0 else s.file.data i
      zero_beyond := fun i hi => by rw [s.file.zero_beyond i hi, ite_self] }
  used := s.used.erase p
  zero_hole := punch_zero_hole s p

@[simp] theorem used_empty : (Sparse.empty : Sparse P β).used = ∅ := rfl

@[simp] theorem used_write (s : Sparse P β) (off : Nat) (bs : List β) :
    (s.write off bs).used = s.used ∪ touched P off bs.length := rfl

@[simp] theorem used_punch (s : Sparse P β) (p : Nat) : (s.punch p).used = s.used.erase p := rfl

@[simp] theorem data_write (s : Sparse P β) (off : Nat) (bs : List β) :
    (s.write off bs).file.data = writeAt s.file.data off bs := rfl

@[simp] theorem data_punch (s : Sparse P β) (p i : Nat) :
    (s.punch p).file.data i = if i / P = p then 0 else s.file.data i := rfl

/-! ## Contents that have been begun -/

/-- Of page `p` the first `begun p` bytes are those of `content`. -/
def Begun (content : Nat → β) (begun : Nat → Nat) (s : Sparse P β) : Prop :=
  ∀ i, s.file.data i = if i % P < begun (i / P) then content i else 0

/-- The bytes of page `p` among `n` bytes from page `m` on. -/
def reached (P m n p : Nat) : Nat := if m ≤ p then n - (p - m) * P else 0

/-- Those bytes, by their offsets. -/
theorem mod_lt_reached_iff {m n i : Nat} (hP : 0 < P) :
    i % P < reached P m n (i / P) ↔ m * P ≤ i ∧ i < m * P + n := by
  have hdiv : i / P * P + i % P = i := by rw [Nat.mul_comm]; exact Nat.div_add_mod i P
  have hmod := Nat.mod_lt i hP
  rw [reached]
  split
  · rename_i hle
    have hsub : (i / P - m) * P = i / P * P - m * P := Nat.sub_mul ..
    have hmul : m * P ≤ i / P * P := Nat.mul_le_mul_right P hle
    omega
  · rename_i hlt
    -- a page in front of page `m`
    have hmul : (i / P + 1) * P ≤ m * P := Nat.mul_le_mul_right P (by omega)
    rw [Nat.add_mul, Nat.one_mul] at hmul
    omega

theorem begun_empty (content : Nat → β) : Begun content (fun _ => 0) (Sparse.empty : Sparse P β) := by
  intro i
  rw [if_neg (Nat.not_lt_zero _)]
  rfl

theorem Begun.write {content : Nat → β} {begun : Nat → Nat} {s : Sparse P β}
    (h : Begun content begun s) (hP : 0 < P) (m n : Nat) :
    Begun content (fun p => max (begun p) (reached P m n p))
      (s.write (m * P) ((List.range n).map fun j => content (m * P + j))) := by
  intro i
  have hiff := @mod_lt_reached_iff P m n i hP
  rw [data_write]
  by_cases hcov : m * P ≤ i ∧ i < m * P + n
  · have hlt : i % P < max (begun (i / P)) (reached P m n (i / P)) :=
      Nat.lt_of_lt_of_le (hiff.mpr hcov) (Nat.le_max_right ..)
    rw [if_pos hlt]
    refine writeAt_of_covers hcov.1 ?_
    rw [List.getElem?_map, List.getElem?_range (by omega), Option.map_some,
      Nat.add_sub_cancel' hcov.1]
  · have hle : reached P m n (i / P) ≤ i % P := Nat.le_of_not_lt (mt hiff.mp hcov)
    have hsame : i % P < max (begun (i / P)) (reached P m n (i / P)) ↔ i % P < begun (i / P) := by
      omega
    rw [writeAt_of_not_covers, h i]
    · simp only [hsame]
    · rwa [Covers, List.length_map, List.length_range]

theorem Begun.punch {content : Nat → β} {begun : Nat → Nat} {s : Sparse P β}
    (h : Begun content begun s) (p : Nat) : Begun content (Function.update begun p 0) (s.punch p) := by
  intro i
  rw [data_punch]
  by_cases hp : i / P = p
  · rw [if_pos hp, hp, Function.update_self, if_neg (Nat.not_lt_zero _)]
  · rw [if_neg hp, Function.update_of_ne hp, h i]

end SparseFile
