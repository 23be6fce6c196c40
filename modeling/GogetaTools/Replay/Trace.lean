/-
  GogetaTools.Replay.Trace

  The data model of `nvm_tools-J/helper/replay.c`: trace records, and the
  containers that collect pointers to them.

  A `struct trace_info *` is a value of a type `P`, and `info` is the memory it
  points to; the records do not change after parsing.  The records of a parsed
  trace are addressed by their position, `P = Fin infos.length`.
-/

import GogetaTools.Words
import Mathlib.Data.List.Basic

namespace GogetaTools.Replay

/-- `struct trace_info`; `pid` and `fid` share their memory, and `md5` is the
    string in a `char[257]`. -/
structure TraceInfo where
  ts : Word
  pid : Word
  lba : Word
  ofs : Word
  blks : Word
  rw : Byte
  major : Word32
  minor : Word32
  md5 : List Byte
  md5_le : md5.length ≤ 256
deriving DecidableEq

/-- The character `'W'`. -/
def charW : Byte := 0x57

/-- `struct trace_replay_hint`. -/
structure TraceReplayHint where
  continuousBlks : Nat
  startTraceLine : Nat
  rw : Byte
deriving DecidableEq

/-- `mode`. -/
inductive ReplayMode
  | writeonly
  | readwrite
  | append
deriving DecidableEq

/-- `struct trace_container`: the used part of `infos_map`, and the capacity. -/
structure TraceContainer (P : Type) where
  infosMap : List P
  capacity : Nat

def DEFAULT_COLLECTIONS_CAPACITY : Nat := 64

def MAX_THREADS : Nat := 512

section Containers

variable {P : Type}

def TraceContainer.size (tc : TraceContainer P) : Nat := tc.infosMap.length

def traceContainerCreate (capacity : Nat) : TraceContainer P :=
  { infosMap := [], capacity := capacity }

/-- The `realloc` branch of `trace_container_add`; the capacity is an `int`. -/
def growIfFull (tc : TraceContainer P) : Option (TraceContainer P) :=
  if tc.size = tc.capacity then
    if tc.capacity * 2 < intLimit then some { tc with capacity := tc.capacity * 2 } else none
  else some tc

def traceContainerAdd (tc : TraceContainer P) (info : P) : Option (TraceContainer P) := do
  let tc ← growIfFull tc
  some { tc with infosMap := tc.infosMap ++ [info] }

def traceContainerAddCollection (tc tc2 : TraceContainer P) : Option (TraceContainer P) :=
  tc2.infosMap.foldlM traceContainerAdd tc

/-- The capacity is a doubling of the default one, an `int`, and large enough. -/
structure TraceContainer.Fits (tc : TraceContainer P) : Prop where
  capacity : ∃ k, tc.capacity = DEFAULT_COLLECTIONS_CAPACITY * 2 ^ k
  capacity_lt : tc.capacity < intLimit
  size_le : tc.size ≤ tc.capacity

/-- A doubled default capacity that is still an `int` is `2 ^ 30` at most. -/
theorem TraceContainer.Fits.size_le_limit {tc : TraceContainer P} (h : tc.Fits) :
    tc.size ≤ 2 ^ 30 := by
  obtain ⟨⟨k, hk⟩, hlt, hle⟩ := h
  have hk' : k < 25 := by
    by_contra hge
    have hpow : 2 ^ 25 ≤ 2 ^ k := Nat.pow_le_pow_right (by decide) (by omega)
    simp only [hk, DEFAULT_COLLECTIONS_CAPACITY, intLimit] at hlt
    omega
  have hpow : 2 ^ k ≤ 2 ^ 24 := Nat.pow_le_pow_right (by decide) (by omega)
  simp only [DEFAULT_COLLECTIONS_CAPACITY] at hk
  omega

theorem fits_create :
    (traceContainerCreate DEFAULT_COLLECTIONS_CAPACITY : TraceContainer P).Fits :=
  ⟨⟨0, rfl⟩, show 64 < intLimit by decide, Nat.zero_le _⟩

theorem growIfFull_ok {tc tc' : TraceContainer P} (h : tc.Fits) (hgrow : growIfFull tc = some tc') :
    tc'.infosMap = tc.infosMap ∧ tc.size + 1 ≤ tc'.capacity ∧ tc'.Fits := by
  obtain ⟨⟨k, hk⟩, hcap, hle⟩ := h
  have hpos : 0 < tc.capacity := by
    rw [hk]
    exact Nat.mul_pos (by decide) (Nat.two_pow_pos k)
  simp only [growIfFull] at hgrow
  split at hgrow
  · rename_i hfull
    split at hgrow
    · rename_i hroom
      cases hgrow
      refine ⟨rfl, by simp only; omega, ⟨k + 1, ?_⟩, hroom, ?_⟩
      · rw [hk, Nat.pow_succ, Nat.mul_assoc]
      · show tc.size ≤ tc.capacity * 2
        omega
    · cases hgrow
  · cases hgrow
    exact ⟨rfl, by omega, ⟨k, hk⟩, hcap, hle⟩

/-- An addition that succeeds appends the pointer. -/
theorem traceContainerAdd_ok {tc tc' : TraceContainer P} {info : P} (h : tc.Fits)
    (hadd : traceContainerAdd tc info = some tc') :
    tc'.infosMap = tc.infosMap ++ [info] ∧ tc'.Fits := by
  obtain ⟨tc₁, hgrow, heq⟩ := Option.bind_eq_some_iff.mp hadd
  obtain ⟨hsame, hroom, hfits⟩ := growIfFull_ok h hgrow
  cases heq
  refine ⟨by rw [hsame], hfits.capacity, hfits.capacity_lt, ?_⟩
  simp only [TraceContainer.size, List.length_append, List.length_singleton, hsame] at hroom ⊢
  exact hroom

/-- A container of fewer than `2 ^ 30` pointers takes one more. -/
theorem traceContainerAdd_isSome (tc : TraceContainer P) (hsize : tc.size < 2 ^ 30) (info : P) :
    ∃ tc', traceContainerAdd tc info = some tc' := by
  by_cases hfull : tc.size = tc.capacity
  · have hroom : tc.capacity * 2 < intLimit := by
      simp only [intLimit]
      omega
    exact ⟨_, by simp only [traceContainerAdd, growIfFull, if_pos hfull, if_pos hroom]; rfl⟩
  · exact ⟨_, by simp only [traceContainerAdd, growIfFull, if_neg hfull]; rfl⟩

theorem traceContainerAddCollection_ok {tc tc2 tc' : TraceContainer P} (h : tc.Fits)
    (hadd : traceContainerAddCollection tc tc2 = some tc') :
    tc'.infosMap = tc.infosMap ++ tc2.infosMap ∧ tc'.Fits := by
  obtain ⟨ps, cap⟩ := tc2
  simp only [traceContainerAddCollection] at hadd ⊢
  induction ps generalizing tc with
  | nil =>
      cases hadd
      exact ⟨(List.append_nil _).symm, h⟩
  | cons p ps ih =>
      rw [List.foldlM_cons] at hadd
      obtain ⟨tc₁, hfirst, hrest⟩ := Option.bind_eq_some_iff.mp hadd
      obtain ⟨hmap, hfits⟩ := traceContainerAdd_ok h hfirst
      obtain ⟨hmap', hfits'⟩ := ih hfits hrest
      refine ⟨?_, hfits'⟩
      rw [hmap', hmap, List.append_assoc, List.singleton_append]

theorem traceContainerAddCollection_isSome {tc : TraceContainer P} (tc2 : TraceContainer P)
    (h : tc.Fits) (hsize : tc.size + tc2.size ≤ 2 ^ 30) :
    ∃ tc', traceContainerAddCollection tc tc2 = some tc' := by
  obtain ⟨ps, cap⟩ := tc2
  simp only [traceContainerAddCollection, TraceContainer.size] at hsize ⊢
  induction ps generalizing tc with
  | nil => exact ⟨tc, rfl⟩
  | cons p ps ih =>
      rw [List.length_cons] at hsize
      obtain ⟨tc₁, hadd⟩ :=
        traceContainerAdd_isSome tc (by simp only [TraceContainer.size]; omega) p
      obtain ⟨hmap, hfits⟩ := traceContainerAdd_ok h hadd
      obtain ⟨tc', hrun⟩ := ih hfits (by
        rw [hmap, List.length_append, List.length_singleton]
        omega)
      exact ⟨tc', by rw [List.foldlM_cons, hadd]; exact hrun⟩

end Containers

/-- A record whose fingerprint is `n` times the character `c`. -/
def sampleInfo (ts lba : Word) (rw c : Byte) (n : Fin 257) : TraceInfo where
  ts := ts
  pid := 1
  lba := lba
  ofs := lba <<< 9
  blks := 8
  rw := rw
  major := 6
  minor := 0
  md5 := List.replicate n c
  md5_le := by rw [List.length_replicate]; omega

end GogetaTools.Replay
