/-
  GogetaTools.Replay.FillBlk

  `fill_blk` of `nvm_tools-J/helper/replay.c`: it turns a fingerprint into the
  4096 bytes of a block, chunk by chunk.

  The function is the list of writes it performs, relative to `blk`.  The step
  count and the chunk size come from truncating divisions, and the stride (32
  bytes copied, or 4 bytes drawn) need not divide the chunk, so where the last
  write ends, `fillEnd`, depends on the length of the fingerprint:

    * `fillBlk_within_iff` — no write leaves the block iff `fillEnd ≤ 4096`,
    * `fillBlk_covers_iff` — every byte is written iff `4096 ≤ fillEnd`.

  Where both hold the block is a function of the fingerprint, `blockOf`.
-/

import GogetaTools.Lib.WriteLog
import GogetaTools.Replay.Generators

namespace GogetaTools.Replay

open WriteLog

def BLK_SIZE : Nat := 4096

/-- The values of `j` in `for (j = 0; j < bound; j += stride)`. -/
def strideOffsets (bound stride : Nat) : List Nat :=
  List.range' 0 ((bound + stride - 1) / stride) stride

section FillBlk

variable {Ctx : Type} (gener : Option (RandGener Ctx))

/-- The first `n` numbers drawn. -/
def genWords (g : RandGener Ctx) : Nat → Ctx → List Word32 × Ctx
  | 0, ctx => ([], ctx)
  | n + 1, ctx =>
      let (word, ctx) := g.genrandom ctx
      let (words, ctx) := genWords g n ctx
      (word :: words, ctx)

/-- The body of the loop over `i`. -/
def fillChunk (blkSizePerStep blk : Nat) (md5 : List Byte) (ctx : Ctx) :
    List (Nat × List Byte) × Ctx :=
  match gener with
  | none => ((strideOffsets blkSizePerStep 32).map fun j => (blk + j, md5.take 32), ctx)
  | some g =>
      let ctx := g.fedseed ctx (readWord32 md5)
      let js := strideOffsets blkSizePerStep 4
      let (words, ctx) := genWords g js.length ctx
      (List.zipWith (fun j word => (blk + j, word32Bytes word)) js words, ctx)

/-- The loop over `i`, which advances `blk` and `md5`. -/
def fillChunks (blkSizePerStep : Nat) :
    Nat → Nat → List Byte → Ctx → List (Nat × List Byte) × Ctx
  | 0, _, _, ctx => ([], ctx)
  | n + 1, blk, md5, ctx =>
      let (ws, ctx) := fillChunk gener blkSizePerStep blk md5 ctx
      let (rest, ctx) := fillChunks blkSizePerStep n (blk + blkSizePerStep) (md5.drop 32) ctx
      (ws ++ rest, ctx)

/-- The writes of `fill_blk`; none where it divides by zero. -/
def fillBlk (md5 : List Byte) (ctx : Ctx) : Option (List (Nat × List Byte) × Ctx) :=
  let step := md5.length / 32
  if step = 0 then none
  else some (fillChunks gener (BLK_SIZE / step) step 0 md5 ctx)

/-! ## Where the writes go -/

/-- The bytes one write puts down. -/
def fillStride : Nat := if gener.isSome then 4 else 32

theorem fillStride_pos : 0 < fillStride gener := by
  rw [fillStride]
  split <;> omega

theorem fillStride_none : fillStride (none : Option (RandGener Ctx)) = 32 := rfl

theorem fillStride_some (g : RandGener Ctx) : fillStride (some g) = 4 := rfl

/-- One past the last byte a chunk writes, from the start of the chunk. -/
def chunkEnd (stride per : Nat) : Nat := (per + stride - 1) / stride * stride

/-- One past the last byte `fill_blk` writes. -/
def fillEnd (stride step : Nat) : Nat :=
  (step - 1) * (BLK_SIZE / step) + chunkEnd stride (BLK_SIZE / step)

theorem length_genWords (g : RandGener Ctx) :
    ∀ (n : Nat) (ctx : Ctx), (genWords g n ctx).1.length = n := by
  intro n
  induction n with
  | zero => intro ctx; rfl
  | succ n ih =>
      intro ctx
      rw [genWords, List.length_cons, ih]

theorem mem_strideOffsets {bound stride j : Nat} :
    j ∈ strideOffsets bound stride ↔
      ∃ k < (bound + stride - 1) / stride, j = stride * k := by
  simp [strideOffsets, List.mem_range']

/-- The offset and the length of every write of a chunk. -/
theorem map_fillChunk {per blk : Nat} {md5 : List Byte} (ctx : Ctx) (hmd5 : 32 ≤ md5.length) :
    (fillChunk gener per blk md5 ctx).1.map (fun w => (w.1, w.2.length)) =
      (strideOffsets per (fillStride gener)).map fun j => (blk + j, fillStride gener) := by
  cases gener with
  | none =>
      rw [fillChunk, fillStride_none, List.map_map]
      apply List.map_congr_left
      intro j _
      rw [Function.comp, List.length_take, Nat.min_eq_left hmd5]
  | some g =>
      rw [fillChunk, fillStride_some]
      simp only
      rw [List.map_zipWith]
      simp only [length_word32Bytes]
      rw [← List.map_uncurry_zip_eq_zipWith]
      have hlen := length_genWords g (strideOffsets per 4).length (g.fedseed ctx (readWord32 md5))
      conv_rhs => rw [← List.map_fst_zip (Nat.le_of_eq hlen.symm)]
      rw [List.map_map]
      rfl

theorem mem_fillChunk (per blk : Nat) {md5 : List Byte} (ctx : Ctx) (hmd5 : 32 ≤ md5.length)
    {x n : Nat} :
    (∃ w ∈ (fillChunk gener per blk md5 ctx).1, w.1 = x ∧ w.2.length = n) ↔
      n = fillStride gener ∧ ∃ j ∈ strideOffsets per (fillStride gener), x = blk + j := by
  have h : (x, n) ∈ (fillChunk gener per blk md5 ctx).1.map (fun w => (w.1, w.2.length)) ↔
      (x, n) ∈ (strideOffsets per (fillStride gener)).map fun j => (blk + j, fillStride gener) := by
    rw [map_fillChunk gener ctx hmd5]
  simp only [List.mem_map, Prod.mk.injEq] at h
  rw [h]
  constructor
  · rintro ⟨j, hj, hx, hn⟩
    exact ⟨hn.symm, j, hj, hx.symm⟩
  · rintro ⟨hn, j, hj, hx⟩
    exact ⟨j, hj, hx.symm, hn.symm⟩

theorem mem_fillChunks {per : Nat} :
    ∀ (n blk : Nat) (md5 : List Byte) (ctx : Ctx), 32 * n ≤ md5.length →
      ∀ {x m : Nat}, (∃ w ∈ (fillChunks gener per n blk md5 ctx).1, w.1 = x ∧ w.2.length = m) ↔
        m = fillStride gener ∧
          ∃ i < n, ∃ j ∈ strideOffsets per (fillStride gener), x = blk + i * per + j := by
  intro n
  induction n with
  | zero =>
      intro blk md5 ctx _ x m
      simp [fillChunks]
  | succ n ih =>
      intro blk md5 ctx hmd5 x m
      have hrest := ih (blk + per) (md5.drop 32) (fillChunk gener per blk md5 ctx).2
        (by rw [List.length_drop]; omega) (x := x) (m := m)
      have hfirst := mem_fillChunk gener per blk ctx
        (show 32 ≤ md5.length by omega) (x := x) (n := m)
      simp only [fillChunks, List.mem_append, or_and_right, exists_or, hfirst, hrest]
      constructor
      · rintro (⟨hm, j, hj, hx⟩ | ⟨hm, i, hi, j, hj, hx⟩)
        · exact ⟨hm, 0, Nat.succ_pos n, j, hj, by omega⟩
        · exact ⟨hm, i + 1, by omega, j, hj, by rw [hx, Nat.succ_mul]; omega⟩
      · rintro ⟨hm, i, hi, j, hj, hx⟩
        cases i with
        | zero => exact Or.inl ⟨hm, j, hj, by omega⟩
        | succ i => exact Or.inr ⟨hm, i, by omega, j, hj, by rw [hx, Nat.succ_mul]; omega⟩

/-! ## Staying inside the block, and filling it -/

/-- The chunk count and size that `fill_blk` computes, with a chunk of a byte at least. -/
structure Chunked (md5 : List Byte) (step per : Nat) : Prop where
  step_eq : step = md5.length / 32
  step_pos : 0 < step
  per_eq : per = BLK_SIZE / step
  per_pos : 0 < per

theorem fillBlk_chunked {md5 : List Byte} {step per : Nat} (h : Chunked md5 step per)
    (ctx : Ctx) : fillBlk gener md5 ctx = some (fillChunks gener per step 0 md5 ctx) := by
  simp only [fillBlk, ← h.step_eq, ← h.per_eq, if_neg (Nat.ne_of_gt h.step_pos)]

theorem mem_fillBlk {md5 : List Byte} {step per : Nat} (h : Chunked md5 step per) {ctx : Ctx}
    {ws : List (Nat × List Byte)} {ctx' : Ctx} (hfill : fillBlk gener md5 ctx = some (ws, ctx'))
    {x m : Nat} :
    (∃ w ∈ ws, w.1 = x ∧ w.2.length = m) ↔ m = fillStride gener ∧
      ∃ i < step, ∃ k < (per + fillStride gener - 1) / fillStride gener,
        x = i * per + fillStride gener * k := by
  have hstep := h.step_eq
  rw [fillBlk_chunked gener h] at hfill
  have hws : ws = (fillChunks gener per step 0 md5 ctx).1 := by
    rw [Option.some.inj hfill]
  rw [hws, mem_fillChunks gener step 0 md5 ctx (by omega)]
  simp only [mem_strideOffsets]
  constructor
  · rintro ⟨hm, i, hi, j, ⟨k, hk, rfl⟩, hx⟩
    exact ⟨hm, i, hi, k, hk, by omega⟩
  · rintro ⟨hm, i, hi, k, hk, hx⟩
    exact ⟨hm, i, hi, _, ⟨k, hk, rfl⟩, by omega⟩

theorem le_chunkEnd (per : Nat) {stride : Nat} (hstride : 0 < stride) : per ≤ chunkEnd stride per := by
  have h := Nat.div_add_mod (per + stride - 1) stride
  have hlt := Nat.mod_lt (per + stride - 1) hstride
  rw [chunkEnd, Nat.mul_comm]
  omega

/-- A write ends no later than the last one of the last chunk. -/
theorem write_end_le {step stride i k : Nat} (per : Nat) (hi : i < step)
    (hk : k < (per + stride - 1) / stride) :
    i * per + stride * k + stride ≤ (step - 1) * per + chunkEnd stride per := by
  have h1 : i * per ≤ (step - 1) * per := Nat.mul_le_mul_right per (by omega)
  have h2 : stride * (k + 1) ≤ stride * ((per + stride - 1) / stride) :=
    Nat.mul_le_mul_left stride hk
  rw [Nat.mul_succ] at h2
  rw [chunkEnd, Nat.mul_comm ((per + stride - 1) / stride)]
  omega

theorem fillBlk_within_iff {md5 : List Byte} {step per : Nat} (h : Chunked md5 step per)
    {ctx ctx' : Ctx} {ws : List (Nat × List Byte)}
    (hfill : fillBlk gener md5 ctx = some (ws, ctx')) :
    Within BLK_SIZE ws ↔ fillEnd (fillStride gener) step ≤ BLK_SIZE := by
  have hpos := fillStride_pos gener
  have hend : fillEnd (fillStride gener) step =
      (step - 1) * per + chunkEnd (fillStride gener) per := by
    rw [fillEnd, h.per_eq]
  constructor
  · intro hws
    -- the last write of the last chunk
    have hceil : 0 < (per + fillStride gener - 1) / fillStride gener := by
      have := h.per_pos
      exact Nat.div_pos (by omega) hpos
    obtain ⟨w, hw, hoff, hlen⟩ := (mem_fillBlk gener h hfill).mpr
      ⟨rfl, step - 1, by have := h.step_pos; omega,
        (per + fillStride gener - 1) / fillStride gener - 1, by omega, rfl⟩
    have hle := hws w hw
    rw [hoff, hlen, Nat.add_assoc, ← Nat.mul_succ] at hle
    rw [hend, chunkEnd, Nat.mul_comm ((per + fillStride gener - 1) / fillStride gener)]
    rw [show ((per + fillStride gener - 1) / fillStride gener - 1).succ =
      (per + fillStride gener - 1) / fillStride gener by omega] at hle
    exact hle
  · intro hle w hw
    obtain ⟨hlen, i, hi, k, hk, hoff⟩ := (mem_fillBlk gener h hfill).mp ⟨w, hw, rfl, rfl⟩
    rw [hoff, hlen]
    exact Nat.le_trans (write_end_le per hi hk) (hend ▸ hle)

theorem fillBlk_covers {md5 : List Byte} {step per : Nat} (h : Chunked md5 step per)
    {ctx ctx' : Ctx} {ws : List (Nat × List Byte)}
    (hfill : fillBlk gener md5 ctx = some (ws, ctx')) (x : Nat) :
    (∃ w ∈ ws, Covers w x) ↔ x < fillEnd (fillStride gener) step := by
  have hpos := fillStride_pos gener
  have hend : fillEnd (fillStride gener) step =
      (step - 1) * per + chunkEnd (fillStride gener) per := by
    rw [fillEnd, h.per_eq]
  constructor
  · rintro ⟨w, hw, hcov⟩
    obtain ⟨hlen, i, hi, k, hk, hoff⟩ := (mem_fillBlk gener h hfill).mp ⟨w, hw, rfl, rfl⟩
    have := write_end_le per hi hk
    simp only [Covers, hoff, hlen] at hcov
    omega
  · intro hx
    -- the chunk of `x`, the last one taking what is behind its end
    obtain ⟨i, hi, hix, hlt⟩ : ∃ i < step, i * per ≤ x ∧
        x - i * per < chunkEnd (fillStride gener) per := by
      have hstep := h.step_pos
      have hle := le_chunkEnd per hpos
      have hdm := Nat.div_add_mod x per
      have hmod := Nat.mod_lt x h.per_pos
      by_cases hlast : x / per < step - 1
      · refine ⟨x / per, by omega, Nat.div_mul_le_self x per, ?_⟩
        rw [Nat.mul_comm] at hdm
        omega
      · have hmul : (step - 1) * per ≤ x / per * per :=
          Nat.mul_le_mul_right per (Nat.le_of_not_lt hlast)
        rw [Nat.mul_comm] at hdm
        exact ⟨step - 1, by omega, by omega, by omega⟩
    have hdm := Nat.div_add_mod (x - i * per) (fillStride gener)
    have hmod := Nat.mod_lt (x - i * per) hpos
    have hk : (x - i * per) / fillStride gener < (per + fillStride gener - 1) / fillStride gener :=
      Nat.div_lt_of_lt_mul (by rw [chunkEnd, Nat.mul_comm _ (fillStride gener)] at hlt; exact hlt)
    obtain ⟨w, hw, hoff, hlen⟩ := (mem_fillBlk gener h hfill).mpr ⟨rfl, i, hi, _, hk, rfl⟩
    refine ⟨w, hw, ?_⟩
    simp only [Covers, hoff, hlen]
    omega

theorem fillBlk_covers_iff {md5 : List Byte} {step per : Nat} (h : Chunked md5 step per)
    {ctx ctx' : Ctx} {ws : List (Nat × List Byte)}
    (hfill : fillBlk gener md5 ctx = some (ws, ctx')) :
    (∀ x < BLK_SIZE, ∃ w ∈ ws, Covers w x) ↔ BLK_SIZE ≤ fillEnd (fillStride gener) step := by
  simp only [fillBlk_covers gener h hfill]
  constructor
  · intro hall
    have := hall (BLK_SIZE - 1) (by decide)
    omega
  · intro hle x hx
    omega

/-! ## The block a fingerprint makes -/

/-- Seeding erases the context, so the writes do not depend on it. -/
theorem fillChunks_ctx (per : Nat) :
    ∀ (n blk : Nat) (md5 : List Byte) (ctx ctx' : Ctx),
      (fillChunks gener per n blk md5 ctx).1 = (fillChunks gener per n blk md5 ctx').1 := by
  intro n
  induction n with
  | zero => intro blk md5 ctx ctx'; rfl
  | succ n ih =>
      intro blk md5 ctx ctx'
      cases gener with
      | none =>
          simp only [fillChunks, fillChunk]
          rw [ih _ _ ctx ctx']
      | some g =>
          simp only [fillChunks, fillChunk]
          rw [g.fedseed_erases ctx ctx']

theorem fillBlk_ctx (md5 : List Byte) (ctx ctx' : Ctx) :
    (fillBlk gener md5 ctx).map Prod.fst = (fillBlk gener md5 ctx').map Prod.fst := by
  simp only [fillBlk]
  split
  · rfl
  · exact congrArg some (fillChunks_ctx gener _ _ _ _ ctx ctx')

/-- `fill_blk(p, …)` in a buffer of `size` bytes; none where it divides by zero
    or writes outside the buffer. -/
def fillAt (size p : Nat) (md5 : List Byte) (buf : Nat → Byte) (ctx : Ctx) :
    Option ((Nat → Byte) × Ctx) := do
  let (ws, ctx) ← fillBlk gener md5 ctx
  if Within size (shift p ws) then some (writeAll buf (shift p ws), ctx) else none

/-- The fingerprint's writes fill the block to its last byte and go no further. -/
def Fills (md5 : List Byte) : Prop :=
  md5.length / 32 ≠ 0 ∧ fillEnd (fillStride gener) (md5.length / 32) = BLK_SIZE

/-- The fingerprint's writes do not leave the block. -/
def StaysInside (md5 : List Byte) : Prop :=
  md5.length / 32 ≠ 0 ∧ fillEnd (fillStride gener) (md5.length / 32) ≤ BLK_SIZE

variable [Inhabited Ctx]

/-- What `fill_blk` leaves in a block of zeros. -/
def blockOf (md5 : List Byte) : List Byte :=
  let ws := ((fillBlk gener md5 default).map Prod.fst).getD []
  (List.range BLK_SIZE).map (writeAll (fun _ => 0) ws)

@[simp] theorem length_blockOf (md5 : List Byte) : (blockOf gener md5).length = BLK_SIZE := by
  simp [blockOf]

omit [Inhabited Ctx] in
theorem chunked_of_length {md5 : List Byte} (hle : md5.length ≤ 256)
    (hne : md5.length / 32 ≠ 0) :
    Chunked md5 (md5.length / 32) (BLK_SIZE / (md5.length / 32)) := by
  refine ⟨rfl, Nat.pos_of_ne_zero hne, rfl, ?_⟩
  exact Nat.div_pos (by simp only [BLK_SIZE]; omega) (Nat.pos_of_ne_zero hne)

/-- A fingerprint that fills its block fills it from every buffer and every
    context with the same bytes. -/
theorem fillAt_of_fills {md5 : List Byte} (hle : md5.length ≤ 256) (h : Fills gener md5)
    {size p : Nat} (hp : p + BLK_SIZE ≤ size) (buf : Nat → Byte) (ctx : Ctx) :
    ∃ ctx', fillAt gener size p md5 buf ctx = some (writeAt buf p (blockOf gener md5), ctx') := by
  have hch := chunked_of_length hle h.1
  obtain ⟨ws, ctx', hfill⟩ : ∃ ws ctx', fillBlk gener md5 ctx = some (ws, ctx') :=
    ⟨_, _, fillBlk_chunked gener hch ctx⟩
  have hin : Within BLK_SIZE ws := (fillBlk_within_iff gener hch hfill).mpr (Nat.le_of_eq h.2)
  have hcov := (fillBlk_covers_iff gener hch hfill).mpr (Nat.le_of_eq h.2.symm)
  have hws : ((fillBlk gener md5 default).map Prod.fst).getD [] = ws := by
    rw [fillBlk_ctx gener md5 default ctx, hfill]
    rfl
  refine ⟨ctx', ?_⟩
  have hshift : Within size (shift p ws) := (within_shift.mpr hin).mono hp
  simp only [fillAt, hfill, Option.bind_eq_bind, Option.bind_some, if_pos hshift]
  rw [writeAll_eq_writeAt buf (blockOf gener md5) hin (length_blockOf gener md5)]
  intro g x hx
  simp only [blockOf, hws, List.getElem?_map, List.getElem?_range hx, Option.map_some]
  rw [writeAll_congr _ g (hcov x hx)]

omit [Inhabited Ctx] in
/-- Any other fingerprint makes a one-block buffer overflow, or leaves its last byte. -/
theorem fillAt_of_not_fills {md5 : List Byte} (hle : md5.length ≤ 256) (h : ¬ Fills gener md5)
    (buf : Nat → Byte) (ctx : Ctx) :
    fillAt gener BLK_SIZE 0 md5 buf ctx = none ∨
      ∃ buf' ctx', fillAt gener BLK_SIZE 0 md5 buf ctx = some (buf', ctx') ∧
        buf' (BLK_SIZE - 1) = buf (BLK_SIZE - 1) := by
  by_cases hstep : md5.length / 32 = 0
  · exact Or.inl (by simp [fillAt, fillBlk, hstep])
  have hch := chunked_of_length hle hstep
  obtain ⟨ws, ctx', hfill⟩ : ∃ ws ctx', fillBlk gener md5 ctx = some (ws, ctx') :=
    ⟨_, _, fillBlk_chunked gener hch ctx⟩
  have hzero : Within BLK_SIZE (shift 0 ws) ↔ Within BLK_SIZE ws := by
    have h0 := @within_shift _ 0 BLK_SIZE ws
    rwa [Nat.zero_add] at h0
  by_cases hin : Within BLK_SIZE ws
  · right
    have hend := (fillBlk_within_iff gener hch hfill).mp hin
    refine ⟨writeAll buf (shift 0 ws), ctx', ?_, ?_⟩
    · simp only [fillAt, hfill, Option.bind_eq_bind, Option.bind_some, if_pos (hzero.mpr hin)]
    · have hnot : ¬ ∃ w ∈ ws, Covers w (BLK_SIZE - 1) := by
        rw [fillBlk_covers gener hch hfill]
        intro hlt
        exact h ⟨hstep, by omega⟩
      have hlast := writeAll_shift 0 buf ws (BLK_SIZE - 1)
      rw [Nat.zero_add] at hlast
      rw [hlast, writeAll_of_not_covered (fun w hw hc => hnot ⟨w, hw, hc⟩), Nat.zero_add]
  · left
    simp only [fillAt, hfill, Option.bind_eq_bind, Option.bind_some, if_neg (mt hzero.mp hin)]

omit [Inhabited Ctx] in
/-- The fingerprint lengths that fill a block, in chunks of 32 characters. -/
theorem fills_iff {md5 : List Byte} (hle : md5.length ≤ 256) :
    Fills gener md5 ↔
      md5.length / 32 ∈ (if gener.isSome then [1, 2, 4, 5, 8] else [1, 2, 4, 8]) := by
  have hstep : md5.length / 32 < 9 := by omega
  have hall : ∀ stride ∈ [4, 32], ∀ step < 9, (step ≠ 0 ∧ fillEnd stride step = BLK_SIZE ↔
      step ∈ (if stride = 4 then [1, 2, 4, 5, 8] else [1, 2, 4, 8])) := by decide
  cases gener with
  | none => exact hall 32 (by decide) _ hstep
  | some g => exact hall 4 (by decide) _ hstep

omit [Inhabited Ctx] in
theorem staysInside_iff {md5 : List Byte} (hle : md5.length ≤ 256) :
    StaysInside gener md5 ↔
      md5.length / 32 ∈ (if gener.isSome then [1, 2, 4, 5, 6, 8] else [1, 2, 4, 8]) := by
  have hstep : md5.length / 32 < 9 := by omega
  have hall : ∀ stride ∈ [4, 32], ∀ step < 9, (step ≠ 0 ∧ fillEnd stride step ≤ BLK_SIZE ↔
      step ∈ (if stride = 4 then [1, 2, 4, 5, 6, 8] else [1, 2, 4, 8])) := by decide
  cases gener with
  | none => exact hall 32 (by decide) _ hstep
  | some g => exact hall 4 (by decide) _ hstep

end FillBlk

end GogetaTools.Replay
