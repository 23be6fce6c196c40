/-
  GogetaTools.Replay.SeededGenerator

  `fill_blk` with `-g mt19937ar`, `rand` or `lcg`: every chunk of the fingerprint
  seeds the generator with its first four characters, read as an `int`, and its
  share of the block is what the generator draws then.

  So a block is made of the draws from `k` seeds (`getElem?_blockOf_seeded`), and
  two blocks are equal exactly if the draws are (`blockOf_seeded_eq_iff`).  The
  other 28 characters of a chunk do not matter.  For `lcg` different seeds draw
  different numbers, and so they do for `mt19937ar` when a chunk's share is 229
  numbers or more, that is with up to four chunks; for `rand` that is up to `rand_r`.
-/

import GogetaTools.Replay.MersenneTwister
import GogetaTools.Replay.NullGenerator
import Mathlib.Data.Nat.ModEq
import Mathlib.Tactic.NormNum

namespace GogetaTools.Replay

open WriteLog

section Bytes

variable {Ctx : Type} [Inhabited Ctx] (g : RandGener Ctx)

/-- The first `n` numbers the generator draws from a seed. -/
def draws (n : Nat) (seed : Word32) : List Word32 := (genWords g n (g.fedseed default seed)).1

/-- `*(uint32_t *)md5` for chunk `i`. -/
def chunkSeed (md5 : List Byte) (i : Nat) : Word32 := readWord32 (md5.drop (32 * i))

@[simp] theorem length_draws (n : Nat) (seed : Word32) : (draws g n seed).length = n :=
  length_genWords g n _

/-- The writes of a chunk are the drawn numbers, whatever the context was. -/
theorem mem_fillChunk_seeded (per blk : Nat) (md5 : List Byte) (ctx : Ctx)
    {w : Nat × List Byte} :
    w ∈ (fillChunk (some g) per blk md5 ctx).1 ↔
      ∃ c word, (draws g ((per + 4 - 1) / 4) (readWord32 md5))[c]? = some word ∧
        w = (blk + 4 * c, word32Bytes word) := by
  have hlen : (strideOffsets per 4).length = (per + 4 - 1) / 4 := by
    rw [strideOffsets, List.length_range']
  -- the words are drawn from the seed of the chunk, whatever the context
  have hzip : (fillChunk (some g) per blk md5 ctx).1 =
      List.zipWith (fun j word => (blk + j, word32Bytes word)) (strideOffsets per 4)
        (draws g ((per + 4 - 1) / 4) (readWord32 md5)) := by
    simp only [fillChunk, hlen, draws]
    rw [g.fedseed_erases ctx default]
  rw [hzip, List.mem_iff_getElem?]
  refine exists_congr fun c => ?_
  rw [List.getElem?_zipWith]
  by_cases hc : c < (per + 4 - 1) / 4
  · have hj : (strideOffsets per 4)[c]? = some (4 * c) := by
      rw [strideOffsets, List.getElem?_range' hc, Nat.zero_add]
    obtain ⟨word, hword⟩ : ∃ word,
        (draws g ((per + 4 - 1) / 4) (readWord32 md5))[c]? = some word :=
      ⟨_, List.getElem?_eq_getElem (by rwa [length_draws])⟩
    rw [hj, hword]
    constructor
    · intro h
      exact ⟨word, rfl, (Option.some.inj h).symm⟩
    · rintro ⟨word', hword', rfl⟩
      cases hword'
      rfl
  · rw [List.getElem?_eq_none (show _ ≤ c by rw [hlen]; omega),
      List.getElem?_eq_none (show _ ≤ c by rw [length_draws]; omega)]
    constructor
    · intro h
      cases h
    · rintro ⟨word', hword', -⟩
      cases hword'

theorem mem_fillChunks_seeded {per : Nat} :
    ∀ (n blk : Nat) (md5 : List Byte) (ctx : Ctx) {w : Nat × List Byte},
      w ∈ (fillChunks (some g) per n blk md5 ctx).1 ↔
        ∃ i < n, ∃ c word, (draws g ((per + 4 - 1) / 4) (chunkSeed md5 i))[c]? = some word ∧
          w = (blk + i * per + 4 * c, word32Bytes word) := by
  intro n
  induction n with
  | zero =>
      intro blk md5 ctx w
      simp [fillChunks]
  | succ n ih =>
      intro blk md5 ctx w
      -- chunk `i` behind the first one is chunk `i + 1`
      have hseed : ∀ i, chunkSeed (md5.drop 32) i = chunkSeed md5 (i + 1) := by
        intro i
        rw [chunkSeed, chunkSeed, List.drop_drop, show 32 + 32 * i = 32 * (i + 1) by omega]
      have hoff : ∀ i c, blk + per + i * per + 4 * c = blk + (i + 1) * per + 4 * c := by
        intro i c
        rw [Nat.succ_mul i per]
        omega
      have hzero : ∀ c, blk + 4 * c = blk + 0 * per + 4 * c := by
        intro c
        rw [Nat.zero_mul, Nat.add_zero]
      have hseed0 : readWord32 md5 = chunkSeed md5 0 := rfl
      simp only [fillChunks, List.mem_append, ih, mem_fillChunk_seeded, hseed, hoff, hzero, hseed0]
      constructor
      · rintro (⟨c, word, hc, rfl⟩ | ⟨i, hi, c, word, hc, rfl⟩)
        · exact ⟨0, Nat.succ_pos n, c, word, hc, rfl⟩
        · exact ⟨i + 1, by omega, c, word, hc, rfl⟩
      · rintro ⟨i, hi, c, word, hc, rfl⟩
        cases i with
        | zero => exact Or.inl ⟨c, word, hc, rfl⟩
        | succ i => exact Or.inr ⟨i, by omega, c, word, hc, rfl⟩

omit [Inhabited Ctx] in
theorem fills_seeded {k : Nat} (hk : k ∈ [1, 2, 4, 8]) {md5 : List Byte}
    (hlen : md5.length = 32 * k) : md5.length ≤ 256 ∧ Fills (some g) md5 := by
  have hall : ∀ k ∈ [1, 2, 4, 8], 32 * k ≤ 256 ∧ k ∈ [1, 2, 4, 5, 8] := by decide
  obtain ⟨hle, hmem⟩ := hall k hk
  refine ⟨hlen ▸ hle, (fills_iff (some g) (hlen ▸ hle)).mpr ?_⟩
  rw [hlen, Nat.mul_div_cancel_left k (by decide)]
  exact hmem

/-- The share of a chunk is `1024 / k` words, and the shares make up the block. -/
theorem chunk_words {k : Nat} (hk : k ∈ [1, 2, 4, 8]) :
    0 < 1024 / k ∧ BLK_SIZE / k = 4 * (1024 / k) ∧ (BLK_SIZE / k + 4 - 1) / 4 = 1024 / k ∧
      k * (BLK_SIZE / k) = BLK_SIZE := by
  revert hk
  revert k
  decide

/-- The bytes of a block: word `c` of chunk `i` is the number drawn for it. -/
theorem getElem?_blockOf_seeded {k : Nat} (hk : k ∈ [1, 2, 4, 8]) {md5 : List Byte}
    (hlen : md5.length = 32 * k) {i c b : Nat} (hi : i < k) (hc : c < 1024 / k) (hb : b < 4) :
    (blockOf (some g) md5)[i * (BLK_SIZE / k) + 4 * c + b]? =
      ((draws g (1024 / k) (chunkSeed md5 i))[c]?.bind fun word => (word32Bytes word)[b]?) := by
  obtain ⟨hpos, hper, hdraws, hmul⟩ := chunk_words hk
  have hch := chunked_null hk hlen
  have hfill := fillBlk_chunked (some g) hch default
  obtain ⟨word, hword⟩ : ∃ word, (draws g (1024 / k) (chunkSeed md5 i))[c]? = some word :=
    ⟨_, List.getElem?_eq_getElem (by rwa [length_draws])⟩
  obtain ⟨byte, hbyte⟩ : ∃ byte, (word32Bytes word)[b]? = some byte :=
    ⟨_, List.getElem?_eq_getElem (show b < (word32Bytes word).length from hb)⟩
  have ht : i * (BLK_SIZE / k) + 4 * c + b < BLK_SIZE := by
    have hle : (i + 1) * (BLK_SIZE / k) ≤ k * (BLK_SIZE / k) := Nat.mul_le_mul_right _ hi
    rw [Nat.succ_mul, hmul] at hle
    omega
  -- the write of the word covers the byte
  have hcov : ∃ w ∈ (fillChunks (some g) (BLK_SIZE / k) k 0 md5 default).1,
      Covers w (i * (BLK_SIZE / k) + 4 * c + b) := by
    refine ⟨_, (mem_fillChunks_seeded g k 0 md5 default).mpr
      ⟨i, hi, c, word, by rw [hdraws]; exact hword, rfl⟩, ?_⟩
    rw [Covers, length_word32Bytes, Nat.zero_add]
    omega
  -- and no other write does
  have hall : ∀ w ∈ (fillChunks (some g) (BLK_SIZE / k) k 0 md5 default).1,
      Covers w (i * (BLK_SIZE / k) + 4 * c + b) →
        w.2[i * (BLK_SIZE / k) + 4 * c + b - w.1]? = some byte := by
    intro w hw hcover
    obtain ⟨i', hi', c', word', hword', rfl⟩ := (mem_fillChunks_seeded g k 0 md5 default).mp hw
    rw [hdraws] at hword'
    have hc' : c' < 1024 / k := by
      have hlt := (List.getElem?_eq_some_iff.mp hword').1
      rwa [length_draws] at hlt
    rw [Covers, length_word32Bytes, Nat.zero_add] at hcover
    have hchunk : ∀ {j d e : Nat}, d < 1024 / k → e < 4 →
        (j * (BLK_SIZE / k) + 4 * d + e) / (BLK_SIZE / k) = j := by
      intro j d e hd he
      rw [Nat.add_assoc, Nat.add_comm, Nat.add_mul_div_right _ _ (by omega),
        Nat.div_eq_of_lt (by omega), Nat.zero_add]
    have hsame : i' = i := by
      have h1 := @hchunk i c b hc hb
      have h2 := @hchunk i' c' (i * (BLK_SIZE / k) + 4 * c + b - (i' * (BLK_SIZE / k) + 4 * c'))
        hc' (by omega)
      rw [show i' * (BLK_SIZE / k) + 4 * c' +
        (i * (BLK_SIZE / k) + 4 * c + b - (i' * (BLK_SIZE / k) + 4 * c')) =
          i * (BLK_SIZE / k) + 4 * c + b by omega, h1] at h2
      exact h2.symm
    subst hsame
    have hcc : c' = c := by omega
    subst hcc
    cases hword.symm.trans hword'
    rw [Nat.zero_add, Nat.add_sub_cancel_left]
    exact hbyte
  simp only [blockOf, hfill, Option.map_some, Option.getD_some, List.getElem?_map,
    List.getElem?_range ht, hword, Option.bind_some]
  rw [writeAll_eq_of_forall hcov hall, hbyte]

/-- Two blocks are equal exactly if the same numbers are drawn for every chunk. -/
theorem blockOf_seeded_eq_iff {k : Nat} (hk : k ∈ [1, 2, 4, 8]) {md5 md5' : List Byte}
    (hlen : md5.length = 32 * k) (hlen' : md5'.length = 32 * k) :
    blockOf (some g) md5 = blockOf (some g) md5' ↔
      ∀ i < k, draws g (1024 / k) (chunkSeed md5 i) = draws g (1024 / k) (chunkSeed md5' i) := by
  obtain ⟨hpos, hper, -, hmul⟩ := chunk_words hk
  constructor
  · intro h i hi
    apply List.ext_getElem (by rw [length_draws, length_draws])
    intro c hc hc'
    have hc1 : c < 1024 / k := by rwa [length_draws] at hc
    -- the four bytes of the word
    apply word32Bytes_inj
    apply List.ext_getElem?
    intro b
    by_cases hb : b < 4
    · have hbyte := getElem?_blockOf_seeded g hk hlen hi hc1 hb
      rw [h, getElem?_blockOf_seeded g hk hlen' hi hc1 hb, List.getElem?_eq_getElem hc,
        List.getElem?_eq_getElem hc'] at hbyte
      exact hbyte.symm
    · rw [List.getElem?_eq_none (Nat.le_of_not_lt hb), List.getElem?_eq_none (Nat.le_of_not_lt hb)]
  · intro h
    apply List.ext_getElem?
    intro t
    by_cases ht : t < BLK_SIZE
    · have hperpos : 0 < BLK_SIZE / k := by omega
      have hi : t / (BLK_SIZE / k) < k :=
        Nat.div_lt_of_lt_mul (by rw [Nat.mul_comm, hmul]; exact ht)
      have hdm := Nat.div_add_mod t (BLK_SIZE / k)
      have hmod := Nat.mod_lt t hperpos
      have hc : t % (BLK_SIZE / k) / 4 < 1024 / k := by omega
      have hsplit : t = t / (BLK_SIZE / k) * (BLK_SIZE / k) + 4 * (t % (BLK_SIZE / k) / 4) +
          t % (BLK_SIZE / k) % 4 := by
        rw [Nat.mul_comm (t / (BLK_SIZE / k))]
        omega
      rw [hsplit, getElem?_blockOf_seeded g hk hlen hi hc (Nat.mod_lt _ (by decide)),
        getElem?_blockOf_seeded g hk hlen' hi hc (Nat.mod_lt _ (by decide)), h _ hi]
    · rw [List.getElem?_eq_none (by rw [length_blockOf]; omega),
        List.getElem?_eq_none (by rw [length_blockOf]; omega)]

end Bytes

/-! ## Seeds -/

/-- A hexadecimal digit. -/
def hexDigit (c : Byte) : Bool :=
  (0x30 ≤ c ∧ c ≤ 0x39) ∨ (0x41 ≤ c ∧ c ≤ 0x46) ∨ (0x61 ≤ c ∧ c ≤ 0x66)

/-- The characters of chunk `i` that `fill_blk` reads. -/
def seedChars (md5 : List Byte) (i : Nat) : List Byte := (md5.drop (32 * i)).take 4

section Seeds

variable {md5 md5' : List Byte} {k i : Nat}

theorem seedChars_eq (hlen : md5.length = 32 * k) (hi : i < k) :
    word32Bytes (chunkSeed md5 i) = seedChars md5 i := by
  have hfour : 4 ≤ (md5.drop (32 * i)).length := by
    rw [List.length_drop]
    omega
  rw [chunkSeed, word32Bytes_readWord32, seedChars]
  match md5.drop (32 * i), hfour with
  | a :: b :: c :: d :: rest, _ => rfl

theorem chunkSeed_eq_iff (hlen : md5.length = 32 * k) (hlen' : md5'.length = 32 * k)
    (hi : i < k) : chunkSeed md5 i = chunkSeed md5' i ↔ seedChars md5 i = seedChars md5' i := by
  rw [← seedChars_eq hlen hi, ← seedChars_eq hlen' hi]
  exact ⟨fun h => by rw [h], word32Bytes_inj⟩

theorem hexDigit_lt {c : Byte} (h : hexDigit c = true) : c.toNat < 0x80 := by
  simp only [hexDigit, decide_eq_true_eq, BitVec.le_def, BitVec.reduceToNat] at h
  omega

/-- A seed made of ASCII characters is not negative. -/
theorem chunkSeed_lt (hlen : md5.length = 32 * k) (hi : i < k)
    (hhex : ∀ c ∈ md5, hexDigit c = true) : (chunkSeed md5 i).toNat < 2 ^ 31 := by
  have hchars := seedChars_eq hlen hi
  have hlast : (chunkSeed md5 i >>> 24).setWidth 8 ∈ seedChars md5 i := by
    rw [← hchars, word32Bytes]
    simp
  have hmem : (chunkSeed md5 i >>> 24).setWidth 8 ∈ md5 :=
    List.mem_of_mem_drop (List.mem_of_mem_take hlast)
  have hlt := hexDigit_lt (hhex _ hmem)
  rw [BitVec.toNat_setWidth, BitVec.toNat_ushiftRight, Nat.shiftRight_eq_div_pow] at hlt
  have hword := (chunkSeed md5 i).isLt
  omega

end Seeds

/-! ## What the generators draw from different seeds -/

/-- A generator whose context is its last number draws the same numbers exactly if
    it draws the same first one. -/
theorem draws_wordGener_iff {next : Word32 → Word32} [Inhabited Word32] {n : Nat} (hn : 0 < n)
    (s s' : Word32) :
    draws (wordGener next) n s = draws (wordGener next) n s' ↔ next s = next s' := by
  obtain ⟨m, rfl⟩ : ∃ m, n = m + 1 := ⟨n - 1, by omega⟩
  have hdraws : ∀ seed, draws (wordGener next) (m + 1) seed =
      next seed :: (genWords (wordGener next) m (next seed)).1 := fun _ => rfl
  rw [hdraws, hdraws]
  constructor
  · exact fun h => (List.cons.inj h).1
  · intro h
    rw [h]

/-- The multiplier of `lcg_rand_r` is odd, so the low 31 bits of a seed are not lost. -/
theorem lcgRandR_inj {s s' : Word32} (hs : s.toNat < 2 ^ 31) (hs' : s'.toNat < 2 ^ 31)
    (h : lcgRandR s = lcgRandR s') : s = s' := by
  have hnat : ∀ x : Word32, (lcgRandR x).toNat = (1103515245 * x.toNat + 12345) % 2 ^ 31 := by
    intro x
    have hmask : (0x7fffffff : Word32).toNat = 2 ^ 31 - 1 := rfl
    have hmul : (1103515245 : Word32).toNat = 1103515245 := rfl
    have hadd : (12345 : Word32).toNat = 12345 := rfl
    rw [lcgRandR, BitVec.toNat_and, hmask, Nat.and_two_pow_sub_one_eq_mod, BitVec.toNat_add,
      BitVec.toNat_mul, hmul, hadd]
    omega
  have hmod : 1103515245 * s.toNat + 12345 ≡ 1103515245 * s'.toNat + 12345 [MOD 2 ^ 31] := by
    have hval := congrArg BitVec.toNat h
    rw [hnat, hnat] at hval
    exact hval
  have hcancel : s.toNat ≡ s'.toNat [MOD 2 ^ 31] :=
    Nat.ModEq.cancel_left_of_coprime (by decide) (Nat.ModEq.add_right_cancel' _ hmod)
  apply BitVec.eq_of_toNat_eq
  exact Nat.ModEq.eq_of_lt_of_lt hcancel hs hs'

/-- The numbers of `mt19937ar` are the low halves of the words that it draws. -/
theorem getElem?_genWords_mt19937ar {i : Nat} :
    ∀ {n : Nat} (state : Mt19937arState), i < n →
      (genWords mt19937arGener n state).1[i]? = some ((draw i state).setWidth 32) := by
  induction i with
  | zero =>
      intro n state hi
      obtain ⟨m, rfl⟩ : ∃ m, n = m + 1 := ⟨n - 1, by omega⟩
      rfl
  | succ i ih =>
      intro n state hi
      obtain ⟨m, rfl⟩ : ∃ m, n = m + 1 := ⟨n - 1, by omega⟩
      rw [draw, genWords, List.getElem?_cons_succ]
      exact ih _ (Nat.lt_of_succ_lt_succ hi)

/-- With 229 numbers or more, `mt19937ar` draws the same ones from equal seeds only. -/
theorem draws_mt19937ar_inj [Inhabited Mt19937arState] {n : Nat} (hn : MT_N - MT_M + 2 ≤ n)
    {s s' : Word32} (h : draws mt19937arGener n s = draws mt19937arGener n s') : s = s' := by
  have hfed : ∀ seed, draws mt19937arGener n seed =
      (genWords mt19937arGener n (initGenrandR default (seed.setWidth 64))).1 := fun _ => rfl
  have hwords : ∀ i < MT_N - MT_M + 2, draw i (initGenrandR default (s.setWidth 64)) =
      draw i (initGenrandR default (s'.setWidth 64)) := by
    intro i hi
    have hnum : (draws mt19937arGener n s)[i]? = (draws mt19937arGener n s')[i]? := by rw [h]
    rw [hfed, hfed, getElem?_genWords_mt19937ar _ (by omega),
      getElem?_genWords_mt19937ar _ (by omega)] at hnum
    have hval := congrArg BitVec.toNat (Option.some.inj hnum)
    rw [BitVec.toNat_setWidth, BitVec.toNat_setWidth, Nat.mod_eq_of_lt (low32_draw ..),
      Nat.mod_eq_of_lt (low32_draw ..)] at hval
    exact BitVec.eq_of_toNat_eq hval
  -- the seed is a word of 32 bits, so its mask leaves all of it
  have hseed := congrArg BitVec.toNat (seed_eq_of_draws hwords)
  rw [toNat_and_mask, toNat_and_mask, BitVec.toNat_setWidth_of_le (by decide),
    BitVec.toNat_setWidth_of_le (by decide), Nat.mod_eq_of_lt s.isLt, Nat.mod_eq_of_lt s'.isLt]
    at hseed
  exact BitVec.eq_of_toNat_eq hseed

/-! ## Duplication -/

section Duplication

variable (randR : Word32 → Word32)

/-- The first `n` numbers that the generator of `-g` draws from a seed. -/
def seedDraws (t : RandGenerType) (n : Nat) (seed : Word32) : List Word32 :=
  match randGener randR t with
  | none => []
  | some g => draws g n seed

variable {randR} {t : RandGenerType} {k : Nat} {md5 md5' b b' : List Byte}

/-- With a seeded generator a fingerprint of `32 * k` characters makes one block. -/
theorem filledBlock_seeded (ht : t ≠ .null) (hk : k ∈ [1, 2, 4, 8])
    (hlen : md5.length = 32 * k) :
    (∀ size p buf ctx, p + BLK_SIZE ≤ size →
      ∃ r, fillAt (randGener randR t) size p md5 buf ctx = some r) ∧
    (FilledBlock (randGener randR t) md5 b ↔ b = blockOf (randGener randR t) md5) := by
  obtain ⟨g, hg⟩ : ∃ g, randGener randR t = some g := by
    cases t with
    | null => exact absurd rfl ht
    | mt19937ar => exact ⟨_, rfl⟩
    | stdlib => exact ⟨_, rfl⟩
    | lcg => exact ⟨_, rfl⟩
  rw [hg]
  obtain ⟨hle, hfills⟩ := fills_seeded g hk hlen
  refine ⟨?_, filledBlock_iff hle hfills b⟩
  intro size p buf ctx hp
  obtain ⟨ctx', hrun⟩ := fillAt_of_fills (some g) hle hfills hp buf ctx
  exact ⟨_, hrun⟩

theorem blockOf_randGener_iff (ht : t ≠ .null) (hk : k ∈ [1, 2, 4, 8])
    (hlen : md5.length = 32 * k) (hlen' : md5'.length = 32 * k) :
    blockOf (randGener randR t) md5 = blockOf (randGener randR t) md5' ↔
      ∀ i < k, seedDraws randR t (1024 / k) (chunkSeed md5 i) =
        seedDraws randR t (1024 / k) (chunkSeed md5' i) := by
  cases t with
  | null => exact absurd rfl ht
  | mt19937ar =>
      exact @blockOf_seeded_eq_iff RandGenerType.mt19937ar.Ctx _ mt19937arGener k hk md5 md5' hlen
        hlen'
  | stdlib => exact blockOf_seeded_eq_iff (wordGener randR) hk hlen hlen'
  | lcg => exact blockOf_seeded_eq_iff (wordGener lcgRandR) hk hlen hlen'

/-- What a seeded generator keeps of a trace's duplication: whatever was drawn
    before and wherever the blocks are, two of them are equal exactly if for every
    chunk the same numbers are drawn from the seeds, hence whenever the first four
    characters of every chunk agree.  For `lcg` only then, and for `mt19937ar` with up
    to four chunks; for `rand` when `rand_r` draws the same number from the seeds. -/
theorem seededGenerator_duplication (randR : Word32 → Word32) (ht : t ≠ .null)
    (hk : k ∈ [1, 2, 4, 8]) (hlen : md5.length = 32 * k) (hlen' : md5'.length = 32 * k)
    (hhex : ∀ c ∈ md5, hexDigit c = true) (hhex' : ∀ c ∈ md5', hexDigit c = true) :
    (∀ size p buf ctx, p + BLK_SIZE ≤ size →
      ∃ r, fillAt (randGener randR t) size p md5 buf ctx = some r) ∧
    ∀ b b', FilledBlock (randGener randR t) md5 b → FilledBlock (randGener randR t) md5' b' →
      (b = b' ↔ ∀ i < k, seedDraws randR t (1024 / k) (chunkSeed md5 i) =
        seedDraws randR t (1024 / k) (chunkSeed md5' i)) ∧
      ((∀ i < k, seedChars md5 i = seedChars md5' i) → b = b') ∧
      (t = .lcg → (b = b' ↔ ∀ i < k, seedChars md5 i = seedChars md5' i)) ∧
      (t = .mt19937ar → k ≤ 4 → (b = b' ↔ ∀ i < k, seedChars md5 i = seedChars md5' i)) ∧
      (t = .stdlib →
        (b = b' ↔ ∀ i < k, randR (chunkSeed md5 i) = randR (chunkSeed md5' i))) := by
  have hpos : 0 < 1024 / k := (chunk_words hk).1
  refine ⟨(filledBlock_seeded (b := []) ht hk hlen).1, ?_⟩
  intro b b' hb hb'
  have hblocks : b = b' ↔ ∀ i < k, seedDraws randR t (1024 / k) (chunkSeed md5 i) =
      seedDraws randR t (1024 / k) (chunkSeed md5' i) := by
    rw [(filledBlock_seeded ht hk hlen).2.mp hb, (filledBlock_seeded ht hk hlen').2.mp hb']
    exact blockOf_randGener_iff ht hk hlen hlen'
  refine ⟨hblocks, ?_, ?_, ?_, ?_⟩
  · intro hchars
    refine hblocks.mpr fun i hi => ?_
    rw [(chunkSeed_eq_iff hlen hlen' hi).mpr (hchars i hi)]
  · rintro rfl
    rw [hblocks]
    refine forall₂_congr fun i hi => ?_
    rw [← chunkSeed_eq_iff hlen hlen' hi]
    -- equal first words of `lcg` come from equal seeds
    refine (draws_wordGener_iff hpos _ _).trans ⟨?_, fun h => by rw [h]⟩
    exact lcgRandR_inj (chunkSeed_lt hlen hi hhex) (chunkSeed_lt hlen' hi hhex')
  · rintro rfl hfour
    rw [hblocks]
    refine forall₂_congr fun i hi => ?_
    rw [← chunkSeed_eq_iff hlen hlen' hi]
    -- a quarter of a block is 256 numbers
    have hmany : ∀ k ∈ [1, 2, 4, 8], k ≤ 4 → MT_N - MT_M + 2 ≤ 1024 / k := by decide
    have hinj := @draws_mt19937ar_inj (inferInstanceAs (Inhabited RandGenerType.mt19937ar.Ctx)) _
      (hmany k hk hfour)
    exact ⟨fun h => hinj h, fun h => by rw [h]⟩
  · rintro rfl
    rw [hblocks]
    exact forall₂_congr fun i _ => draws_wordGener_iff hpos _ _

/-- Two fingerprints of two chunks, with `mt19937ar`: where they differ in the first
    character of the second chunk, the blocks differ. -/
theorem seededGenerator_duplication_sample :
    let md5 : List Byte := List.replicate 64 0x30
    let md5' : List Byte := List.replicate 32 0x30 ++ 0x31 :: List.replicate 31 0x30
    ∀ b b', FilledBlock (randGener id .mt19937ar) md5 b →
      FilledBlock (randGener id .mt19937ar) md5' b' → b ≠ b' := by
  intro md5 md5' b b' hb hb' hsame
  have hdup := @seededGenerator_duplication .mt19937ar 2 md5 md5' id (by decide) (by decide) rfl
    rfl (by decide) (by decide)
  have hchars := ((hdup.2 b b' hb hb').2.2.2.1 rfl (by decide)).mp hsame 1 (by decide)
  revert hchars
  decide

end Duplication

/-- Two fingerprints that differ in the last character make the same block. -/
theorem seededGenerator_merges :
    ¬ ∀ (randR : Word32 → Word32) (t : RandGenerType), t ≠ .null → ∀ k ∈ [1, 2, 4, 8],
      ∀ md5 md5' : List Byte, md5.length = 32 * k → md5'.length = 32 * k →
        (∀ c ∈ md5, hexDigit c = true) → (∀ c ∈ md5', hexDigit c = true) →
        ∀ b b', FilledBlock (randGener randR t) md5 b → FilledBlock (randGener randR t) md5' b' →
          (b = b' ↔ md5 = md5') := by
  intro h
  have hk : 1 ∈ [1, 2, 4, 8] := by decide
  have hfilled : ∀ md5 : List Byte, md5.length = 32 * 1 →
      FilledBlock (randGener id .lcg) md5 (blockOf (randGener id .lcg) md5) :=
    fun md5 hlen => (filledBlock_seeded (by decide) hk hlen).2.mpr rfl
  have hmerged : blockOf (randGener id .lcg) (List.replicate 32 (0x30 : Byte)) =
      blockOf (randGener id .lcg) (List.replicate 31 (0x30 : Byte) ++ [0x31]) := by
    refine (blockOf_randGener_iff (by decide) hk rfl rfl).mpr fun i hi => ?_
    have hi0 : i = 0 := by omega
    subst hi0
    rfl
  have hsame := (h id .lcg (by decide) 1 hk (List.replicate 32 0x30)
    (List.replicate 31 0x30 ++ [0x31]) rfl rfl (by decide) (by decide) _ _
    (hfilled _ rfl) (hfilled _ rfl)).mp hmerged
  revert hsame
  decide

end GogetaTools.Replay
