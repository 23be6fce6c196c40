/-
  GogetaTools.Replay.NullGenerator

  `fill_blk` with `-g null`: a block is the fingerprint's chunks, each tiled over
  its share of the block.

  `getElem?_blockOf_null` gives every byte of it; that the fingerprint can be
  read back, and blocks are as distinct as their fingerprints, follows.
-/

import GogetaTools.Replay.FillBlk
import GogetaTools.Replay.Trace
import Mathlib.Data.Finset.Card
import Mathlib.Data.Finset.Image
import Mathlib.Data.List.FinRange

namespace GogetaTools.Replay

open WriteLog

section Bytes

variable {Ctx : Type}

/-- The writes are the copies of the chunks. -/
theorem mem_fillChunks_null {per : Nat} :
    ∀ (n blk : Nat) (md5 : List Byte) (ctx : Ctx) {w : Nat × List Byte},
      w ∈ (fillChunks none per n blk md5 ctx).1 ↔
        ∃ i < n, ∃ j ∈ strideOffsets per 32,
          w = (blk + i * per + j, (md5.drop (32 * i)).take 32) := by
  intro n
  induction n with
  | zero =>
      intro blk md5 ctx w
      simp [fillChunks]
  | succ n ih =>
      intro blk md5 ctx w
      -- chunk `i` behind the first one is chunk `i + 1`
      have hshift : ∀ i j, (blk + per + i * per + j, ((md5.drop 32).drop (32 * i)).take 32) =
          (blk + (i + 1) * per + j, (md5.drop (32 * (i + 1))).take 32) := by
        intro i j
        have hoff : blk + per + i * per + j = blk + (i + 1) * per + j := by
          rw [Nat.succ_mul]
          omega
        rw [List.drop_drop, hoff, show 32 + 32 * i = 32 * (i + 1) by omega]
      simp only [fillChunks, fillChunk, List.mem_append, ih, List.mem_map, hshift]
      constructor
      · rintro (⟨j, hj, rfl⟩ | ⟨i, hi, j, hj, rfl⟩)
        · exact ⟨0, Nat.succ_pos n, j, hj, by simp⟩
        · exact ⟨i + 1, by omega, j, hj, rfl⟩
      · rintro ⟨i, hi, j, hj, rfl⟩
        cases i with
        | zero => exact Or.inl ⟨j, hj, by simp⟩
        | succ i => exact Or.inr ⟨i, by omega, j, hj, rfl⟩

/-- The shares of the chunks are multiples of 32 bytes that make up the block. -/
theorem chunk_share {k : Nat} (hk : k ∈ [1, 2, 4, 8]) :
    0 < k ∧ k * (BLK_SIZE / k) = BLK_SIZE ∧ 32 ∣ BLK_SIZE / k ∧ 0 < BLK_SIZE / k := by
  revert hk
  revert k
  decide

theorem chunked_null {k : Nat} (hk : k ∈ [1, 2, 4, 8]) {md5 : List Byte}
    (hlen : md5.length = 32 * k) : Chunked md5 k (BLK_SIZE / k) := by
  obtain ⟨hpos, -, -, hper⟩ := chunk_share hk
  exact ⟨by rw [hlen]; omega, hpos, rfl, hper⟩

theorem fills_null {k : Nat} (hk : k ∈ [1, 2, 4, 8]) {md5 : List Byte}
    (hlen : md5.length = 32 * k) : Fills (none : Option (RandGener Ctx)) md5 := by
  have hall : ∀ k ∈ [1, 2, 4, 8], 32 * k ≤ 256 := by decide
  have hle : md5.length ≤ 256 := hlen ▸ hall k hk
  refine (fills_iff none hle).mpr ?_
  rw [hlen, Nat.mul_div_cancel_left k (by decide)]
  exact hk

variable [Inhabited Ctx]

/-- Byte `t` is in chunk `t / per`, and is the chunk's character `t % 32`. -/
theorem getElem?_blockOf_null {k : Nat} (hk : k ∈ [1, 2, 4, 8]) {md5 : List Byte}
    (hlen : md5.length = 32 * k) {t : Nat} (ht : t < BLK_SIZE) :
    (blockOf (none : Option (RandGener Ctx)) md5)[t]? =
      md5[32 * (t / (BLK_SIZE / k)) + t % 32]? := by
  obtain ⟨hpos, hmul, ⟨q, hq⟩, hper⟩ := chunk_share hk
  have hch := chunked_null hk hlen
  have hfill := fillBlk_chunked (none : Option (RandGener Ctx)) hch default
  generalize BLK_SIZE / k = per at *
  have hceil : (per + 32 - 1) / 32 = q := by omega
  have hdm := Nat.div_add_mod t per
  have hmod := Nat.mod_lt t hper
  have hi : t / per < k := Nat.div_lt_of_lt_mul (by rw [Nat.mul_comm, hmul]; exact ht)
  have hx : 32 * (t / per) + t % 32 < md5.length := by omega
  have hchunk : ∀ i < k, ((md5.drop (32 * i)).take 32).length = 32 := by
    intro i hik
    rw [List.length_take, List.length_drop]
    omega
  -- some copy covers the byte
  have hcov : ∃ w ∈ (fillChunks (none : Option (RandGener Ctx)) per k 0 md5 default).1,
      Covers w t := by
    refine ⟨_, (mem_fillChunks_null k 0 md5 default).mpr
      ⟨t / per, hi, _, mem_strideOffsets.mpr ⟨t % per / 32, by omega, rfl⟩, rfl⟩, ?_⟩
    rw [Covers, hchunk _ hi, Nat.zero_add, Nat.mul_comm (t / per)]
    omega
  -- and every copy that does is one of its chunk
  have hall : ∀ w ∈ (fillChunks (none : Option (RandGener Ctx)) per k 0 md5 default).1,
      Covers w t → w.2[t - w.1]? = some (md5[32 * (t / per) + t % 32]) := by
    intro w hw hcover
    obtain ⟨i, hik, j, hj, rfl⟩ := (mem_fillChunks_null k 0 md5 default).mp hw
    obtain ⟨c, hc, rfl⟩ := mem_strideOffsets.mp hj
    rw [Covers, hchunk i hik, Nat.zero_add] at hcover
    have hdiv : t / per = i := by
      apply Nat.div_eq_of_lt_le
      · omega
      · rw [Nat.succ_mul]
        omega
    have hoff : t - (0 + i * per + 32 * c) = t % 32 := by
      have hmul32 : i * per = 32 * (i * q) := by rw [hq, Nat.mul_left_comm]
      omega
    simp only [hoff, hdiv]
    rw [List.getElem?_take_of_lt (Nat.mod_lt t (by decide)), List.getElem?_drop,
      List.getElem?_eq_getElem]
  simp only [blockOf, hfill, Option.map_some, Option.getD_some, List.getElem?_map,
    List.getElem?_range ht]
  rw [writeAll_eq_of_forall hcov hall, List.getElem?_eq_getElem hx]

/-- The fingerprint can be read back from its block. -/
theorem blockOf_null_inj {k : Nat} (hk : k ∈ [1, 2, 4, 8]) {md5 md5' : List Byte}
    (hlen : md5.length = 32 * k) (hlen' : md5'.length = 32 * k)
    (h : blockOf (none : Option (RandGener Ctx)) md5 =
      blockOf (none : Option (RandGener Ctx)) md5') : md5 = md5' := by
  obtain ⟨hpos, hmul, hdvd, hper⟩ := chunk_share hk
  have h32 : 32 ≤ BLK_SIZE / k := Nat.le_of_dvd hper hdvd
  apply List.ext_getElem?
  intro x
  by_cases hx : x < 32 * k
  · -- the first copy of chunk `x / 32`
    have ht : BLK_SIZE / k * (x / 32) + x % 32 < BLK_SIZE := by
      have hchunk : BLK_SIZE / k * (x / 32 + 1) ≤ BLK_SIZE / k * k :=
        Nat.mul_le_mul_left _ (by omega)
      rw [Nat.mul_succ, Nat.mul_comm _ k, hmul] at hchunk
      omega
    have hdiv : (BLK_SIZE / k * (x / 32) + x % 32) / (BLK_SIZE / k) = x / 32 := by
      rw [Nat.mul_add_div hper, Nat.div_eq_of_lt (show x % 32 < BLK_SIZE / k by omega), Nat.add_zero]
    have hmod : (BLK_SIZE / k * (x / 32) + x % 32) % 32 = x % 32 := by
      obtain ⟨q, hq⟩ := hdvd
      rw [hq, Nat.mul_assoc]
      omega
    have hbyte := @getElem?_blockOf_null Ctx _ k hk md5 hlen _ ht
    rw [h, getElem?_blockOf_null hk hlen' ht, hdiv, hmod] at hbyte
    rw [Nat.div_add_mod x 32] at hbyte
    exact hbyte.symm
  · rw [List.getElem?_eq_none (by omega), List.getElem?_eq_none (by omega)]

end Bytes

/-! ## Blocks of a trace -/

/-- `b` is what `fill_blk` leaves at a block position of a buffer. -/
def FilledBlock {Ctx : Type} (gener : Option (RandGener Ctx)) (md5 b : List Byte) : Prop :=
  ∃ size p buf ctx buf' ctx', p + BLK_SIZE ≤ size ∧
    fillAt gener size p md5 buf ctx = some (buf', ctx') ∧
    b = (List.range BLK_SIZE).map fun t => buf' (p + t)

/-- A fingerprint that fills its block makes the same block everywhere. -/
theorem filledBlock_iff {Ctx : Type} [Inhabited Ctx] {gener : Option (RandGener Ctx)}
    {md5 : List Byte} (hle : md5.length ≤ 256) (h : Fills gener md5) (b : List Byte) :
    FilledBlock gener md5 b ↔ b = blockOf gener md5 := by
  have hbytes : ∀ (buf : Nat → Byte) (p : Nat),
      ((List.range BLK_SIZE).map fun t => writeAt buf p (blockOf gener md5) (p + t)) =
        blockOf gener md5 := by
    intro buf p
    apply List.ext_getElem (by simp)
    intro t _ ht
    rw [List.getElem_map, List.getElem_range, writeAt, if_pos (Nat.le_add_right p t),
      Nat.add_sub_cancel_left, List.getElem?_eq_getElem ht, Option.getD_some]
  constructor
  · rintro ⟨size, p, buf, ctx, buf', ctx', hp, hfill, hb⟩
    obtain ⟨ctx'', hfill'⟩ := fillAt_of_fills gener hle h hp buf ctx
    have hbuf : buf' = writeAt buf p (blockOf gener md5) :=
      congrArg Prod.fst (Option.some.inj (hfill.symm.trans hfill'))
    rw [hb, hbuf, hbytes buf p]
  · intro hb
    obtain ⟨ctx', hfill⟩ := fillAt_of_fills gener hle h (Nat.le_of_eq (Nat.zero_add BLK_SIZE))
      (fun _ => 0) default
    exact ⟨BLK_SIZE, 0, _, default, _, ctx', Nat.le_of_eq (Nat.zero_add _), hfill,
      by rw [hb, hbytes _ 0]⟩

section Trace

variable (randR : Word32 → Word32) (infos : List TraceInfo)

/-- The records that are written. -/
def writeRecords : List (Fin infos.length) :=
  (List.finRange infos.length).filter fun p => (infos.get p).rw = charW

/-- With `-g null`, and fingerprints of 32, 64, 128 or 256 characters: no record
    makes `fill_blk` fail, every byte of its block is a byte of the fingerprint,
    two blocks are equal exactly if the fingerprints are, and there are as many
    distinct blocks as fingerprints. -/
theorem nullGenerator_duplication {k : Nat} (hk : k ∈ [1, 2, 4, 8])
    (hlen : ∀ p ∈ writeRecords infos, (infos.get p).md5.length = 32 * k) :
    (∀ p ∈ writeRecords infos, ∀ size off buf ctx, off + BLK_SIZE ≤ size →
      ∃ r, fillAt (randGener randR .null) size off (infos.get p).md5 buf ctx = some r) ∧
    (∀ p ∈ writeRecords infos, ∀ b, FilledBlock (randGener randR .null) (infos.get p).md5 b →
      ∀ t < BLK_SIZE, b[t]? = (infos.get p).md5[32 * (t / (BLK_SIZE / k)) + t % 32]?) ∧
    (∀ p ∈ writeRecords infos, ∀ q ∈ writeRecords infos, ∀ b b',
      FilledBlock (randGener randR .null) (infos.get p).md5 b →
      FilledBlock (randGener randR .null) (infos.get q).md5 b' →
      (b = b' ↔ (infos.get p).md5 = (infos.get q).md5)) ∧
    ∀ written : Fin infos.length → List Byte,
      (∀ p ∈ writeRecords infos,
        FilledBlock (randGener randR .null) (infos.get p).md5 (written p)) →
      ((writeRecords infos).map written).toFinset.card =
        ((writeRecords infos).map fun p => (infos.get p).md5).toFinset.card := by
  have hfills : ∀ p ∈ writeRecords infos, Fills (randGener randR .null) (infos.get p).md5 :=
    fun p hp => fills_null hk (hlen p hp)
  have hblock : ∀ p ∈ writeRecords infos, ∀ b,
      FilledBlock (randGener randR .null) (infos.get p).md5 b →
        b = blockOf (randGener randR .null) (infos.get p).md5 :=
    fun p hp b => (filledBlock_iff (infos.get p).md5_le (hfills p hp) b).mp
  refine ⟨?_, ?_, ?_, ?_⟩
  · intro p hp size off buf ctx hoff
    obtain ⟨ctx', hfill⟩ :=
      fillAt_of_fills _ (infos.get p).md5_le (hfills p hp) hoff buf ctx
    exact ⟨_, hfill⟩
  · intro p hp b hb t ht
    rw [hblock p hp b hb]
    exact getElem?_blockOf_null hk (hlen p hp) ht
  · intro p hp q hq b b' hb hb'
    rw [hblock p hp b hb, hblock q hq b' hb']
    constructor
    · exact blockOf_null_inj hk (hlen p hp) (hlen q hq)
    · intro h
      rw [h]
  · intro written hwritten
    -- the blocks are the images of the fingerprints under an injective map
    have hmap : (writeRecords infos).map written =
        ((writeRecords infos).map fun p => (infos.get p).md5).map
          (blockOf (randGener randR .null)) := by
      rw [List.map_map]
      apply List.map_congr_left
      intro p hp
      rw [Function.comp_apply]
      exact hblock p hp _ (hwritten p hp)
    have himage : ∀ l : List (List Byte), (l.map (blockOf (randGener randR .null))).toFinset =
        l.toFinset.image (blockOf (randGener randR .null)) := by
      intro l
      ext b
      simp only [List.mem_toFinset, List.mem_map, Finset.mem_image]
    rw [hmap, himage, Finset.card_image_of_injOn]
    intro md5 hmd5 md5' hmd5' h
    simp only [List.coe_toFinset, List.mem_map, Set.mem_ofPred_eq] at hmd5 hmd5'
    obtain ⟨p, hp, rfl⟩ := hmd5
    obtain ⟨q, hq, rfl⟩ := hmd5'
    exact blockOf_null_inj hk (hlen p hp) (hlen q hq) h

end Trace

/-- Three written records, two of them with the same fingerprint. -/
theorem nullGenerator_duplication_sample :
    let infos := [sampleInfo 1 0 charW 0x61 64, sampleInfo 2 8 charW 0x62 64,
      sampleInfo 3 16 charW 0x61 64]
    (∀ p ∈ writeRecords infos, ∀ size off buf ctx, off + BLK_SIZE ≤ size →
      ∃ r, fillAt (randGener id .null) size off (infos.get p).md5 buf ctx = some r) ∧
    (∀ p ∈ writeRecords infos, ∀ b, FilledBlock (randGener id .null) (infos.get p).md5 b →
      ∀ t < BLK_SIZE, b[t]? = (infos.get p).md5[32 * (t / (BLK_SIZE / 2)) + t % 32]?) ∧
    (∀ p ∈ writeRecords infos, ∀ q ∈ writeRecords infos, ∀ b b',
      FilledBlock (randGener id .null) (infos.get p).md5 b →
      FilledBlock (randGener id .null) (infos.get q).md5 b' →
      (b = b' ↔ (infos.get p).md5 = (infos.get q).md5)) ∧
    ∀ written : Fin infos.length → List Byte,
      (∀ p ∈ writeRecords infos,
        FilledBlock (randGener id .null) (infos.get p).md5 (written p)) →
      ((writeRecords infos).map written).toFinset.card =
        ((writeRecords infos).map fun p => (infos.get p).md5).toFinset.card :=
  nullGenerator_duplication id _ (by decide) (by decide)

end GogetaTools.Replay
