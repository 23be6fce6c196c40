/-
  GogetaTools.Replay.LbaOrder

  When `trace_container_cmp` orders the LBAs.

  The difference of two `unsigned long`s goes through an `int`, so only its low
  32 bits decide the sign.  `toInt_low_pos_iff` and `toInt_low_neg_iff` read the
  sign of such an `int` off the bits, `traceContainerCmp_iff` says from it which
  LBAs compare as `map.h` documents, and `ordersKeys_traceContainerCmp` is what
  `hashmap_sort` needs of them.
-/

import GogetaTools.Map.Sorted
import GogetaTools.Replay.Distribute
import Mathlib.Data.Fin.VecNotation
import Mathlib.Data.Set.Basic

namespace GogetaTools.Replay

open Map

variable {P : Type} (info : P → TraceInfo)

/-! ## The sign of the returned `int` -/

theorem toInt_low_pos_iff (d : Word) :
    0 < (d.setWidth 32).toInt ↔ 1 ≤ d.toNat % 2 ^ 32 ∧ d.toNat % 2 ^ 32 < 2 ^ 31 := by
  rw [BitVec.toInt_eq_toNat_cond, BitVec.toNat_setWidth]
  split <;> omega

theorem toInt_low_neg_iff (d : Word) : (d.setWidth 32).toInt < 0 ↔ 2 ^ 31 ≤ d.toNat % 2 ^ 32 := by
  rw [BitVec.toInt_eq_toNat_cond, BitVec.toNat_setWidth]
  split <;> omega

/-- The two differences of two words have opposite low bits. -/
theorem toNat_sub_comm_mod (a b : Word) :
    (a - b).toNat % 2 ^ 32 = (2 ^ 32 - (b - a).toNat % 2 ^ 32) % 2 ^ 32 := by
  rw [BitVec.toNat_sub, BitVec.toNat_sub]
  omega

/-! ## Two LBAs -/

/-- `compare` of `map.h`: the sign tells which of the two LBAs is the greater one. -/
structure SignRight (p q : P) : Prop where
  neg : traceContainerCmp info (some p) (some q) < 0 ↔ (info p).lba < (info q).lba
  zero : traceContainerCmp info (some p) (some q) = 0 ↔ (info p).lba = (info q).lba
  pos : 0 < traceContainerCmp info (some p) (some q) ↔ (info q).lba < (info p).lba

/-- The low 32 bits of the distance from the smaller to the greater LBA leave the
    sign of the `int` right; `INT_MIN` is negative and has no positive counterpart. -/
def LowDistance (a b : Word) : Prop :=
  (a < b → 1 ≤ (b - a).toNat % 2 ^ 32 ∧ (b - a).toNat % 2 ^ 32 ≤ 2 ^ 31) ∧
    (b < a → 1 ≤ (a - b).toNat % 2 ^ 32 ∧ (a - b).toNat % 2 ^ 32 < 2 ^ 31)

theorem signRight_iff (p q : P) : SignRight info p q ↔ LowDistance (info p).lba (info q).lba := by
  have hneg := toInt_low_neg_iff ((info p).lba - (info q).lba)
  have hpos := toInt_low_pos_iff ((info p).lba - (info q).lba)
  have hswap := toNat_sub_comm_mod (info p).lba (info q).lba
  have hself : (info p).lba.toNat = (info q).lba.toNat →
      ((info p).lba - (info q).lba).toNat % 2 ^ 32 = 0 := by
    intro h
    rw [BitVec.eq_of_toNat_eq h, BitVec.sub_self]
    rfl
  have hmod := Nat.mod_lt ((info q).lba - (info p).lba).toNat (Nat.two_pow_pos 32)
  simp only [LowDistance, BitVec.lt_def]
  constructor
  · rintro ⟨hless, -, hgreater⟩
    simp only [traceContainerCmp, BitVec.lt_def] at hless hgreater
    refine ⟨fun hlt => ?_, fun hgt => hpos.mp (hgreater.mpr hgt)⟩
    -- the sign is read off the other difference, whose low bits are the opposite
    have hlow := hneg.mp (hless.mpr hlt)
    omega
  · rintro ⟨hless, hgreater⟩
    -- the three signs exclude each other, and so do the three relations
    refine ⟨?_, ?_, ?_⟩ <;>
      simp only [traceContainerCmp, BitVec.lt_def, ← BitVec.toNat_inj] <;> omega

/-! ## Sets of LBAs -/

/-- On the keys in `S` the comparison is the numeric order: the signs are right,
    and so it is antisymmetric and transitive. -/
structure NumericOrder (S : Set P) : Prop where
  sign : ∀ p ∈ S, ∀ q ∈ S, SignRight info p q
  antisymm : ∀ p ∈ S, ∀ q ∈ S, traceContainerCmp info (some p) (some q) ≤ 0 →
    traceContainerCmp info (some q) (some p) ≤ 0 → (info p).lba = (info q).lba
  trans : ∀ p ∈ S, ∀ q ∈ S, ∀ r ∈ S, traceContainerCmp info (some p) (some q) ≤ 0 →
    traceContainerCmp info (some q) (some r) ≤ 0 → traceContainerCmp info (some p) (some r) ≤ 0

variable {info}

theorem SignRight.nonpos_iff {p q : P} (h : SignRight info p q) :
    traceContainerCmp info (some p) (some q) ≤ 0 ↔ (info p).lba.toNat ≤ (info q).lba.toNat := by
  have hpos := h.pos
  rw [BitVec.lt_def] at hpos
  omega

/-- Right signs make the rest follow from the order of the numbers. -/
theorem numericOrder_of_sign {S : Set P} (h : ∀ p ∈ S, ∀ q ∈ S, SignRight info p q) :
    NumericOrder info S := by
  refine ⟨h, ?_, ?_⟩
  · intro p hp q hq hpq hqp
    rw [(h p hp q hq).nonpos_iff] at hpq
    rw [(h q hq p hp).nonpos_iff] at hqp
    exact BitVec.eq_of_toNat_eq (Nat.le_antisymm hpq hqp)
  · intro p hp q hq r hr hpq hqr
    rw [(h p hp q hq).nonpos_iff] at hpq
    rw [(h q hq r hr).nonpos_iff] at hqr
    rw [(h p hp r hr).nonpos_iff]
    exact Nat.le_trans hpq hqr

/-- The comparison is the numeric order on a set of LBAs exactly if the low 32
    bits of the distance between any two different ones are between 1 and
    `INT_MAX`; for two LBAs in one order `LowDistance` is the exact condition. -/
theorem traceContainerCmp_iff (info : P → TraceInfo) :
    (∀ p q, SignRight info p q ↔ LowDistance (info p).lba (info q).lba) ∧
      ∀ S : Set P, NumericOrder info S ↔ ∀ p ∈ S, ∀ q ∈ S, (info p).lba < (info q).lba →
        1 ≤ ((info q).lba - (info p).lba).toNat % 2 ^ 32 ∧
          ((info q).lba - (info p).lba).toNat % 2 ^ 32 < 2 ^ 31 := by
  refine ⟨signRight_iff info, fun S => ⟨?_, ?_⟩⟩
  · intro h p hp q hq hlt
    exact ((signRight_iff info q p).mp (h.sign q hq p hp)).2 hlt
  · intro h
    apply numericOrder_of_sign
    intro p hp q hq
    refine (signRight_iff info p q).mpr ⟨fun hlt => ?_, h q hq p hp⟩
    obtain ⟨hone, hmax⟩ := h p hp q hq hlt
    exact ⟨hone, Nat.le_of_lt hmax⟩

/-- On a device of up to 1 TiB all distances fit an `int`. -/
theorem numericOrder_of_span {S : Set P} (lo : Nat)
    (h : ∀ p ∈ S, lo ≤ (info p).lba.toNat ∧ (info p).lba.toNat < lo + 2 ^ 31) :
    NumericOrder info S := by
  apply numericOrder_of_sign
  intro p hp q hq
  have hlp := h p hp
  have hlq := h q hq
  rw [signRight_iff, LowDistance, BitVec.lt_def, BitVec.lt_def]
  refine ⟨fun hlt => ?_, fun hlt => ?_⟩
  · rw [BitVec.toNat_sub_of_le (by rw [BitVec.le_def]; omega)]
    omega
  · rw [BitVec.toNat_sub_of_le (by rw [BitVec.le_def]; omega)]
    omega

/-- What `hashmap_sort` asks of a comparison function. -/
theorem ordersKeys_traceContainerCmp {ps : List P} (h : NumericOrder info {p | p ∈ ps}) :
    OrdersKeys (traceContainerCmp info) (ps.map some) := by
  refine ⟨?_, ?_⟩
  · intro a ha b hb
    obtain ⟨p, hp, rfl⟩ := List.mem_map.mp ha
    obtain ⟨q, hq, rfl⟩ := List.mem_map.mp hb
    have hpq := (h.sign p hp q hq).nonpos_iff
    have hqp := (h.sign q hq p hp).nonpos_iff
    omega
  · intro a ha b hb c hc hab hbc
    obtain ⟨p, hp, rfl⟩ := List.mem_map.mp ha
    obtain ⟨q, hq, rfl⟩ := List.mem_map.mp hb
    obtain ⟨r, hr, rfl⟩ := List.mem_map.mp hc
    have := h.trans p hp q hq r hr (by omega) (by omega)
    omega

/-- LBA 0 and LBA `2 ^ 32` compare as equal, so that `map.h` is contradicted. -/
theorem traceContainerCmp_far_equal :
    ¬ ∀ (info : Fin 2 → TraceInfo) (S : Set (Fin 2)), NumericOrder info S := by
  intro h
  have hsign := (h ![sampleInfo 1 0 charW 0x61 32, sampleInfo 2 (2 ^ 32) charW 0x62 32]
    Set.univ).sign 0 (Set.mem_univ _) 1 (Set.mem_univ _)
  exact absurd (hsign.zero.mp (by decide)) (by decide)

/-- LBAs 0, `3 * 2 ^ 29` and `3 * 2 ^ 30` are each less than the next one, in a circle. -/
example :
    let info := ![sampleInfo 1 0 charW 0x61 32, sampleInfo 2 (3 * 2 ^ 29) charW 0x62 32,
      sampleInfo 3 (3 * 2 ^ 30) charW 0x63 32]
    traceContainerCmp info (some 0) (some 1) < 0 ∧ traceContainerCmp info (some 1) (some 2) < 0 ∧
      traceContainerCmp info (some 2) (some 0) < 0 := by
  decide

end GogetaTools.Replay
