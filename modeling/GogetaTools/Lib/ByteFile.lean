/-
  GogetaTools.Lib.ByteFile

  A regular file: its size and its bytes.  Behind the end a file reads as
  zeros, which is also what a write that starts there fills the gap with, so
  the bytes are a function on all offsets and `zero_beyond` is part of the
  type.
-/

import GogetaTools.Lib.WriteLog

namespace ByteFile

open WriteLog

@[ext] structure File (β : Type) [Zero β] where
  size : Nat
  data : Nat → β
  zero_beyond : ∀ i, size ≤ i → data i = 0

variable {β : Type} [Zero β]

def File.empty : File β := ⟨0, fun _ => 0, fun _ _ => rfl⟩

instance : Inhabited (File β) := ⟨File.empty⟩

/-- A write leaves nothing behind its end and the old one. -/
theorem writeAt_zero_beyond (f : File β) (off : Nat) (bs : List β) (i : Nat)
    (hi : (if bs = [] then f.size else max f.size (off + bs.length)) ≤ i) :
    writeAt f.data off bs i = 0 := by
  rw [writeAt_of_not_covers]
  · apply f.zero_beyond
    split at hi <;> omega
  · intro hcov
    simp only [Covers] at hcov
    split at hi
    · rename_i hnil
      rw [hnil, List.length_nil] at hcov
      omega
    · omega

/-- `pwrite` that transfers the whole request. -/
def File.pwrite (f : File β) (off : Nat) (bs : List β) : File β where
  size := if bs = [] then f.size else max f.size (off + bs.length)
  data := writeAt f.data off bs
  zero_beyond := writeAt_zero_beyond f off bs

/-- `write` to a file opened with `O_APPEND`. -/
def File.append (f : File β) (bs : List β) : File β := f.pwrite f.size bs

/-- The `n` bytes from `off` on, zeros behind the end. -/
def File.readZ (f : File β) (off n : Nat) : List β :=
  (List.range n).map fun i => f.data (off + i)

/-- The results `pread` may return: at the end of the file 0, before it any
    positive number of the bytes there that were asked for. -/
def File.PreadReturns (f : File β) (off n r : Nat) : Prop :=
  if n = 0 ∨ f.size ≤ off then r = 0 else 0 < r ∧ r ≤ n ∧ off + r ≤ f.size

@[simp] theorem File.data_empty (i : Nat) : (File.empty : File β).data i = 0 := rfl

@[simp] theorem File.size_empty : (File.empty : File β).size = 0 := rfl

@[simp] theorem File.data_pwrite (f : File β) (off : Nat) (bs : List β) :
    (f.pwrite off bs).data = writeAt f.data off bs := rfl

theorem File.size_pwrite {f : File β} {off : Nat} {bs : List β} (h : bs ≠ []) :
    (f.pwrite off bs).size = max f.size (off + bs.length) := by
  simp only [File.pwrite, if_neg h]

/-- Two writes, the second right behind the first, are one. -/
theorem File.pwrite_pwrite (f : File β) (off : Nat) (bs cs : List β) :
    (f.pwrite off bs).pwrite (off + bs.length) cs = f.pwrite off (bs ++ cs) := by
  ext i
  · simp only [File.pwrite, List.append_eq_nil_iff, List.length_append]
    by_cases hb : bs = [] <;> by_cases hc : cs = [] <;> simp [hb, hc]
    omega
  · rw [File.data_pwrite, File.data_pwrite, File.data_pwrite, writeAt_writeAt]

@[simp] theorem File.append_nil (f : File β) : f.append [] = f := by
  ext i
  · simp [File.append, File.pwrite]
  · rw [File.append, File.data_pwrite, writeAt_nil]

theorem File.size_append (f : File β) (bs : List β) : (f.append bs).size = f.size + bs.length := by
  by_cases hb : bs = []
  · rw [hb, File.append_nil, List.length_nil, Nat.add_zero]
  · rw [File.append, File.size_pwrite hb]
    omega

theorem File.append_append (f : File β) (bs cs : List β) :
    (f.append bs).append cs = f.append (bs ++ cs) := by
  rw [File.append, File.size_append, File.append, File.pwrite_pwrite, File.append]

theorem File.length_readZ (f : File β) (off n : Nat) : (f.readZ off n).length = n := by
  simp [File.readZ]

theorem File.readZ_add (f : File β) (off n k : Nat) :
    f.readZ off (n + k) = f.readZ off n ++ f.readZ (off + n) k := by
  rw [File.readZ, List.range_add, List.map_append, List.map_map]
  simp only [File.readZ, Function.comp_def, Nat.add_assoc]

/-- Behind the end there are zeros. -/
theorem File.readZ_beyond {f : File β} {off : Nat} (h : f.size ≤ off) (n : Nat) :
    f.readZ off n = List.replicate n 0 := by
  rw [File.readZ, List.eq_replicate_iff]
  refine ⟨by simp, ?_⟩
  intro b hb
  obtain ⟨i, -, rfl⟩ := List.mem_map.mp hb
  exact f.zero_beyond _ (by omega)

theorem File.getElem?_readZ {f : File β} {off n i : Nat} (h : i < n) :
    (f.readZ off n)[i]? = some (f.data (off + i)) := by
  simp [File.readZ, h]

/-- What was written is read. -/
theorem File.readZ_pwrite_self (f : File β) (off : Nat) (bs : List β) :
    (f.pwrite off bs).readZ off bs.length = bs := by
  apply List.ext_getElem (by rw [File.length_readZ])
  intro i _ hi
  simp only [File.readZ, List.getElem_map, List.getElem_range, File.data_pwrite]
  rw [writeAt, if_pos (Nat.le_add_right off i), Nat.add_sub_cancel_left,
    List.getElem?_eq_getElem hi, Option.getD_some]

/-- Elsewhere nothing has changed. -/
theorem File.readZ_pwrite_apart (f : File β) {off : Nat} {bs : List β} {off' n : Nat}
    (h : off + bs.length ≤ off' ∨ off' + n ≤ off) :
    (f.pwrite off bs).readZ off' n = f.readZ off' n := by
  apply List.map_congr_left
  intro i hi
  have hlt := List.mem_range.mp hi
  rw [File.data_pwrite, writeAt_of_not_covers]
  simp only [Covers]
  omega

/-- The `n` pieces of `k` bytes from `off` on. -/
def File.pieces (f : File β) (off k n : Nat) : List (List β) :=
  (List.range n).map fun i => f.readZ (off + i * k) k

theorem File.pieces_succ (f : File β) (off k n : Nat) :
    f.pieces off k (n + 1) = f.readZ off k :: f.pieces (off + k) k n := by
  rw [File.pieces, List.range_succ_eq_map, List.map_cons, List.map_map, Nat.zero_mul, Nat.add_zero]
  refine congrArg _ (List.map_congr_left fun i _ => ?_)
  rw [Function.comp_apply, Nat.succ_mul, Nat.add_comm (i * k), ← Nat.add_assoc]

/-- Pieces of one length are read as they were written. -/
theorem File.pieces_of_readZ (f : File β) {k : Nat} :
    ∀ (bss : List (List β)) (off : Nat), (∀ bs ∈ bss, bs.length = k) →
      f.readZ off (bss.length * k) = bss.flatten → f.pieces off k bss.length = bss := by
  intro bss
  induction bss with
  | nil => intro off _ _; rfl
  | cons bs bss ih =>
      intro off hlen hread
      rw [List.length_cons, Nat.succ_mul, Nat.add_comm, File.readZ_add, List.flatten_cons] at hread
      have hfirst : (f.readZ off k).length = bs.length := by
        rw [File.length_readZ, hlen bs (by simp)]
      obtain ⟨hhead, htail⟩ := List.append_inj hread hfirst
      rw [List.length_cons, File.pieces_succ, hhead,
        ih _ (fun cs hcs => hlen cs (List.mem_cons_of_mem _ hcs)) htail]

theorem File.pieces_append (f : File β) {k : Nat} {bss : List (List β)}
    (hlen : ∀ bs ∈ bss, bs.length = k) :
    (f.append bss.flatten).pieces f.size k bss.length = bss := by
  have hsum : bss.flatten.length = bss.length * k := by
    rw [List.length_flatten, List.map_congr_left hlen, List.map_const', List.sum_replicate_nat]
  refine File.pieces_of_readZ _ bss _ hlen ?_
  rw [← hsum]
  exact File.readZ_pwrite_self f f.size bss.flatten

/-- The first `k` bytes of a file, as a file. -/
def File.firstBytes (f : File β) (k : Nat) : File β := File.empty.pwrite 0 (f.readZ 0 k)

theorem File.firstBytes_zero (f : File β) : f.firstBytes 0 = File.empty := by
  ext i
  · rfl
  · rw [File.firstBytes, File.data_pwrite]
    exact congrFun (writeAt_nil _ 0) i

/-- The next bytes are written behind the first ones. -/
theorem File.firstBytes_pwrite (f : File β) (k r : Nat) :
    (f.firstBytes k).pwrite k (f.readZ k r) = f.firstBytes (k + r) := by
  have h := File.pwrite_pwrite (File.empty : File β) 0 (f.readZ 0 k) (f.readZ k r)
  rw [File.length_readZ, Nat.zero_add] at h
  rw [File.firstBytes, h, File.firstBytes, File.readZ_add, Nat.zero_add]

/-- All bytes make up the file. -/
theorem File.firstBytes_size (f : File β) : f.firstBytes f.size = f := by
  ext i
  · by_cases hsize : f.size = 0
    · rw [hsize, File.firstBytes_zero, File.size_empty]
    · have hne : f.readZ 0 f.size ≠ [] := by
        rw [← List.length_pos_iff, File.length_readZ]
        omega
      rw [File.firstBytes, File.size_pwrite hne, File.length_readZ, File.size_empty]
      omega
  · rw [File.firstBytes, File.data_pwrite]
    by_cases hi : i < f.size
    · apply writeAt_of_covers (Nat.zero_le i)
      rw [Nat.sub_zero, File.getElem?_readZ hi, Nat.zero_add]
    · rw [writeAt_of_not_covers, File.data_empty, f.zero_beyond i (by omega)]
      rw [Covers, File.length_readZ]
      omega

theorem File.PreadReturns.le {f : File β} {off n r : Nat} (h : f.PreadReturns off n r) :
    r ≤ n := by
  rw [File.PreadReturns] at h
  split at h <;> omega

/-- Something can always be returned. -/
theorem File.exists_preadReturns (f : File β) (off n : Nat) : ∃ r, f.PreadReturns off n r := by
  by_cases h : n = 0 ∨ f.size ≤ off
  · exact ⟨0, by rw [File.PreadReturns, if_pos h]⟩
  · refine ⟨1, ?_⟩
    rw [File.PreadReturns, if_neg h]
    omega

end ByteFile
