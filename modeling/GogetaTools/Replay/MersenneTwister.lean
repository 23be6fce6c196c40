/-
  GogetaTools.Replay.MersenneTwister

  What the generator of `mt19937ar.c` draws, over whole runs.

  The code generates 624 words at a time, in place and in three loops.
  `draw_initGenrandR` says that a run of any length draws the tempered words of
  the plain recurrence x(k+624) = x(k+397) ^ twist(x(k), x(k+1)), one after the
  other.  The recurrence can be run backwards on 32-bit words, and from there:

    * `draw_nonzero` — no seed leads into the state of zeros, which the generator
                       could never leave,
    * `draws_eq_iff` — two seeds that differ in their low 32 bits differ within
                       the first 624 draws, and within 229 (`seed_eq_of_draws`).
-/

import GogetaTools.Lib.LaggedRecurrence
import GogetaTools.Lib.XorShift
import GogetaTools.Replay.Generators
import Mathlib.Data.Nat.GCD.Basic
import Mathlib.Data.Int.ModEq

namespace GogetaTools.Replay

open LaggedRecurrence

/-! ## The plain generator -/

/-- The word made of the top bit of `x(k)`, the low bits of `x(k+1)`, and `x(k+397)`. -/
def nextWord (word next lagged : Word) : Word :=
  let y := (word &&& UPPER_MASK) ||| (next &&& LOWER_MASK)
  let mag01 := if y &&& 1 = 0 then 0 else MATRIX_A
  lagged ^^^ (y >>> 1) ^^^ mag01

/-- Word `i` of the state that `init_genrand_r` sets up. -/
def seedWord (s : Word) : Nat → Word
  | 0 => s &&& 0xffffffff
  | i + 1 =>
      (1812433253 * (seedWord s i ^^^ (seedWord s i >>> 30)) + BitVec.ofNat 64 (i + 1)) &&&
        0xffffffff

/-- The words of the seed `s`, one after the other. -/
def twisterWord (s : Word) : Nat → Word :=
  @extend Word nextWord MT_N MT_M (by decide) (by decide) (seedWord s)

/-- The `if (i >= N)` of `init_by_array`. -/
def wrapIndex (mt : Vector Word MT_N) (i : Nat) : Vector Word MT_N × Nat :=
  if i ≥ MT_N then (mt.setIfInBounds 0 (mt[MT_N - 1]?.getD 0), 1) else (mt, i)

/-- `mt[i] ^ ((mt[i-1] ^ (mt[i-1] >> 30)) * mul)`. -/
def blend (mt : Vector Word MT_N) (i : Nat) (mul : Word) : Word :=
  let prev := mt[i - 1]?.getD 0
  mt[i]?.getD 0 ^^^ ((prev ^^^ (prev >>> 30)) * mul)

/-- The first loop of `init_by_array`, `k` rounds of it. -/
def mixKeyLoop (initKey : List Word) :
    Nat → Nat → Nat → Vector Word MT_N → Vector Word MT_N × Nat
  | 0, i, _, mt => (mt, i)
  | k + 1, i, j, mt =>
      let word := blend mt i 1664525 + initKey.getD j 0 + BitVec.ofNat 64 j
      let (mt, i) := wrapIndex (mt.setIfInBounds i (word &&& 0xffffffff)) (i + 1)
      let j := if j + 1 ≥ initKey.length then 0 else j + 1
      mixKeyLoop initKey k i j mt

/-- The second loop. -/
def mixIndexLoop : Nat → Nat → Vector Word MT_N → Vector Word MT_N
  | 0, _, mt => mt
  | k + 1, i, mt =>
      let word := blend mt i 1566083941 - BitVec.ofNat 64 i
      let (mt, i) := wrapIndex (mt.setIfInBounds i (word &&& 0xffffffff)) (i + 1)
      mixIndexLoop k i mt

/-- `init_by_array` with a key of at least one word. -/
def initByArray (state : Mt19937arState) (initKey : List Word) : Mt19937arState :=
  let state := initGenrandR state 19650218
  let k := if MT_N > initKey.length then MT_N else initKey.length
  let (mt, i) := mixKeyLoop initKey k 1 0 state.mt
  let mt := mixIndexLoop (MT_N - 1) i mt
  { state with mt := mt.setIfInBounds 0 0x80000000 }

/-- The number drawn by the call after `i` calls. -/
def draw : Nat → Mt19937arState → Word
  | 0, state => (genrandInt32R state).1
  | i + 1, state => draw i (genrandInt32R state).2

/-! ## The batches are the recurrence -/

/-- The cells of the state array. -/
def cells (mt : Vector Word MT_N) (j : Nat) : Word := mt[j]?.getD 0

theorem cells_setIfInBounds (mt : Vector Word MT_N) {i : Nat} (hi : i < MT_N) (w : Word) :
    cells (mt.setIfInBounds i w) = Function.update (cells mt) i w := by
  funext j
  rw [Function.update_apply]
  by_cases h : j = i
  · subst h
    rw [if_pos rfl, cells, Vector.getElem?_setIfInBounds_self, if_pos hi]
    rfl
  · rw [if_neg h, cells, Vector.getElem?_setIfInBounds_ne (Ne.symm h), cells]

theorem cells_twist (mt : Vector Word MT_N) {kk : Nat} (hkk : kk < MT_N) (next src : Nat) :
    cells (twist mt kk next src) =
      Function.update (cells mt) kk (nextWord (cells mt kk) (cells mt next) (cells mt src)) :=
  cells_setIfInBounds mt hkk _

/-- A loop whose indexes agree with those round the array. -/
theorem cells_foldl_twist (next src : Nat → Nat) :
    ∀ (l : List Nat) (mt : Vector Word MT_N),
      (∀ kk ∈ l, kk < MT_N ∧ next kk = (kk + 1) % MT_N ∧ src kk = (kk + MT_M) % MT_N) →
      cells (l.foldl (fun mt kk => twist mt kk (next kk) (src kk)) mt) =
        l.foldl (refresh nextWord MT_N MT_M) (cells mt) := by
  intro l
  induction l with
  | nil => intro mt _; rfl
  | cons kk l ih =>
      intro mt h
      obtain ⟨hlt, hnext, hsrc⟩ := h kk (by simp)
      rw [List.foldl_cons, List.foldl_cons, ih _ fun k hk => h k (List.mem_cons_of_mem _ hk),
        cells_twist mt hlt, hnext, hsrc]
      rfl

/-- The three loops refresh every cell in turn. -/
theorem cells_generateWords (mt : Vector Word MT_N) :
    cells (generateWords mt) = (List.range MT_N).foldl (refresh nextWord MT_N MT_M) (cells mt) := by
  have hrange : List.range MT_N =
      List.range (MT_N - MT_M) ++ List.range' (MT_N - MT_M) (MT_M - 1) ++ [MT_N - 1] := by
    have hsplit := @List.range'_append_1 0 (MT_N - MT_M) (MT_M - 1)
    rw [Nat.zero_add] at hsplit
    rw [List.range_eq_range', List.range_eq_range', hsplit]
    exact @List.range'_1_concat 0 (MT_N - 1)
  have hlast : ∀ mt : Vector Word MT_N, twist mt (MT_N - 1) 0 (MT_M - 1) =
      [MT_N - 1].foldl (fun mt kk => twist mt kk 0 (MT_M - 1)) mt := fun _ => rfl
  rw [hrange, List.foldl_append, List.foldl_append, generateWords, hlast,
    cells_foldl_twist (fun _ => 0) (fun _ => MT_M - 1),
    cells_foldl_twist (fun kk => kk + 1) (fun kk => kk - (MT_N - MT_M)),
    cells_foldl_twist (fun kk => kk + 1) (fun kk => kk + MT_M)]
  · intro kk hkk
    have hlt : kk < MT_N - MT_M := List.mem_range.mp hkk
    simp only [MT_N, MT_M] at hlt ⊢
    omega
  · intro kk hkk
    have hmem := List.mem_range'_1.mp hkk
    simp only [MT_N, MT_M] at hmem ⊢
    omega
  · intro kk hkk
    rw [List.mem_singleton.mp hkk]
    decide

theorem cells_initGenrandLoop (s : Word) :
    ∀ (n mti : Nat) (mt : Vector Word MT_N), 0 < mti → mti + n ≤ MT_N →
      (∀ j < mti, cells mt j = seedWord s j) →
      ∀ j < mti + n, cells (initGenrandLoop n mti mt) j = seedWord s j := by
  intro n
  induction n with
  | zero => exact fun mti mt _ _ h => h
  | succ n ih =>
      intro mti mt hpos hle h j hj
      obtain ⟨i, rfl⟩ : ∃ i, mti = i + 1 := ⟨mti - 1, by omega⟩
      have hprev : mt[i + 1 - 1]?.getD 0 = seedWord s i := h i (by omega)
      simp only [initGenrandLoop, hprev]
      refine ih (i + 1 + 1) _ (by omega) (by omega) ?_ j (by omega)
      intro t ht
      rw [cells_setIfInBounds mt (by omega), Function.update_apply]
      by_cases hti : t = i + 1
      · rw [if_pos hti, hti, seedWord]
      · rw [if_neg hti]
        exact h t (by omega)

theorem cells_initGenrandR (state : Mt19937arState) (s : Word) {j : Nat} (hj : j < MT_N) :
    cells (initGenrandR state s).mt j = seedWord s j := by
  have hfirst : ∀ t < 1, cells (state.mt.setIfInBounds 0 (s &&& 0xffffffff)) t = seedWord s t := by
    intro t ht
    have ht0 : t = 0 := by omega
    rw [ht0, cells_setIfInBounds _ (Nat.zero_lt_succ 623), Function.update_self, seedWord]
  generalize hn : MT_N - 1 = n
  have hsize : 1 + n = MT_N := by
    rw [← hn]
    rfl
  have hmt : (initGenrandR state s).mt =
      initGenrandLoop n 1 (state.mt.setIfInBounds 0 (s &&& 0xffffffff)) := by
    rw [← hn, initGenrandR]
  rw [hmt]
  exact cells_initGenrandLoop s n 1 _ Nat.zero_lt_one hsize.le hfirst j (by omega)

/-! ## Runs -/

/-- The array has `MT_N` consecutive words of the sequence, and word `k` is drawn next. -/
structure Tracks (x : Nat → Word) (k : Nat) (state : Mt19937arState) : Prop where
  mti_le : state.mti ≤ MT_N
  cells : ∃ b, b + state.mti = k ∧ ∀ j < MT_N, cells state.mt j = x (b + j)

/-- One call draws the tempered word and goes on to the next. -/
theorem Tracks.step {x : Nat → Word} {k : Nat} {state : Mt19937arState} (h : Tracks x k state)
    (hx : Obeys nextWord MT_N MT_M x) :
    (genrandInt32R state).1 = temper (x k) ∧ Tracks x (k + 1) (genrandInt32R state).2 := by
  obtain ⟨b, hk, hcells⟩ := h.cells
  have hle := h.mti_le
  rcases Nat.lt_or_ge state.mti MT_N with hlt | hge
  · rw [genrandInt32R, if_neg (Nat.not_le.mpr hlt)]
    refine ⟨?_, ⟨hlt, b, ?_, hcells⟩⟩
    · rw [← hk, ← hcells state.mti hlt]
      rfl
    · show b + (state.mti + 1) = k + 1
      omega
  · -- all words are drawn: the next ones are generated
    have hmti : state.mti ≠ MT_N + 1 := by omega
    have hnew : ∀ j < MT_N, Replay.cells (generateWords state.mt) j = x (b + MT_N + j) := by
      intro j hj
      rw [cells_generateWords]
      exact refresh_all (by decide) (by decide) hx hcells hj
    simp only [genrandInt32R, if_pos hge, if_neg hmti]
    refine ⟨?_, ⟨show 0 + 1 ≤ MT_N by decide, b + MT_N, ?_, hnew⟩⟩
    · have hfirst := hnew 0 (by decide)
      rw [Nat.add_zero, show b + MT_N = k by omega] at hfirst
      rw [← hfirst]
      rfl
    · show b + MT_N + (0 + 1) = k + 1
      omega

theorem Tracks.draw {x : Nat → Word} (hx : Obeys nextWord MT_N MT_M x) :
    ∀ (i k : Nat) (state : Mt19937arState), Tracks x k state →
      Replay.draw i state = temper (x (k + i)) := by
  intro i
  induction i with
  | zero => exact fun k state h => (h.step hx).1
  | succ i ih =>
      intro k state h
      rw [Replay.draw, ih (k + 1) _ (h.step hx).2]
      congr 2
      omega

theorem tracks_initGenrandR (state : Mt19937arState) (s : Word) :
    Tracks (twisterWord s) MT_N (initGenrandR state s) := by
  refine ⟨Nat.le_refl _, 0, Nat.zero_add _, fun j hj => ?_⟩
  rw [cells_initGenrandR state s hj, Nat.zero_add, twisterWord, extend_of_lt _ _ _ _ hj]

/-- A state that was never seeded is seeded with 5489 by the first call. -/
theorem draw_unseeded (mt : Vector Word MT_N) (i : Nat) :
    draw i { mt := mt, mti := MT_N + 1 } =
      draw i (initGenrandR { mt := mt, mti := MT_N + 1 } 5489) := by
  have hcall : genrandInt32R { mt := mt, mti := MT_N + 1 } =
      genrandInt32R (initGenrandR { mt := mt, mti := MT_N + 1 } 5489) := by
    have hmti : (initGenrandR { mt := mt, mti := MT_N + 1 } 5489).mti = MT_N := rfl
    simp only [genrandInt32R, hmti, if_pos (show MT_N + 1 ≥ MT_N by decide), if_true,
      if_pos (Nat.le_refl MT_N), if_neg (show ¬ MT_N = MT_N + 1 by decide)]
  cases i with
  | zero => rw [draw, draw, hcall]
  | succ i => rw [draw, draw, hcall]

/-- Generating 624 words at a time draws what the plain generator does, over a run
    of any length, from any seed or none. -/
theorem draw_initGenrandR :
    (∀ (state : Mt19937arState) (s : Word) (i : Nat),
        draw i (initGenrandR state s) = temper (twisterWord s (MT_N + i))) ∧
      ∀ (mt : Vector Word MT_N) (i : Nat),
        draw i { mt := mt, mti := MT_N + 1 } = temper (twisterWord 5489 (MT_N + i)) := by
  have hseeded : ∀ (state : Mt19937arState) (s : Word) (i : Nat),
      draw i (initGenrandR state s) = temper (twisterWord s (MT_N + i)) := fun state s i =>
    Tracks.draw (obeys_extend nextWord _ _ _) i MT_N _ (tracks_initGenrandR state s)
  refine ⟨hseeded, fun mt i => ?_⟩
  rw [draw_unseeded]
  exact hseeded _ _ _

/-! ## Words of 32 bits -/

/-- The word fits in 32 bits. -/
def Low32 (w : Word) : Prop := w.toNat < 2 ^ 32

theorem Low32.getLsbD {w : Word} (h : Low32 w) {i : Nat} (hi : 32 ≤ i) : w.getLsbD i = false :=
  Nat.testBit_lt_two_pow (Nat.lt_of_lt_of_le h (Nat.pow_le_pow_right (by decide) hi))

theorem toNat_and_mask (w : Word) : (w &&& 0xffffffff).toNat = w.toNat % 2 ^ 32 := by
  rw [BitVec.toNat_and]
  exact Nat.and_two_pow_sub_one_eq_mod w.toNat 32

theorem low32_and_mask (w : Word) : Low32 (w &&& 0xffffffff) := by
  rw [Low32, toNat_and_mask]
  exact Nat.mod_lt _ (by decide)

theorem Low32.xor {a b : Word} (ha : Low32 a) (hb : Low32 b) : Low32 (a ^^^ b) := by
  rw [Low32, BitVec.toNat_xor]
  exact Nat.xor_lt_two_pow ha hb

theorem Low32.or {a b : Word} (ha : Low32 a) (hb : Low32 b) : Low32 (a ||| b) := by
  rw [Low32, BitVec.toNat_or]
  exact Nat.or_lt_two_pow ha hb

theorem Low32.and_right {a b : Word} (hb : Low32 b) : Low32 (a &&& b) := by
  rw [Low32, BitVec.toNat_and]
  exact Nat.lt_of_le_of_lt Nat.and_le_right hb

theorem Low32.ushiftRight {a : Word} (ha : Low32 a) (n : Nat) : Low32 (a >>> n) := by
  rw [Low32, BitVec.toNat_ushiftRight, Nat.shiftRight_eq_div_pow]
  exact Nat.lt_of_le_of_lt (Nat.div_le_self ..) ha

theorem low32_upper : Low32 UPPER_MASK := show UPPER_MASK.toNat < 2 ^ 32 by decide

theorem low32_lower : Low32 LOWER_MASK := show LOWER_MASK.toNat < 2 ^ 32 by decide

theorem low32_seedWord (s : Word) (i : Nat) : Low32 (seedWord s i) := by
  cases i with
  | zero => exact low32_and_mask _
  | succ i => exact low32_and_mask _

/-! ## Running it backwards -/

/-- The word made of the top bit of one word and the low bits of the next. -/
def mixed (word next : Word) : Word := (word &&& UPPER_MASK) ||| (next &&& LOWER_MASK)

/-- What the mixed word contributes to the new one. -/
def twisted (y : Word) : Word := (y >>> 1) ^^^ if y &&& 1 = 0 then 0 else MATRIX_A

theorem nextWord_eq (word next lagged : Word) :
    nextWord word next lagged = lagged ^^^ twisted (mixed word next) :=
  BitVec.xor_assoc ..

theorem low32_mixed (word next : Word) : Low32 (mixed word next) :=
  low32_upper.and_right.or low32_lower.and_right

theorem low32_nextWord {word next lagged : Word} (h : Low32 lagged) :
    Low32 (nextWord word next lagged) := by
  rw [nextWord_eq, twisted]
  refine h.xor (((low32_mixed ..).ushiftRight 1).xor ?_)
  split
  · exact show (0 : Word).toNat < 2 ^ 32 by decide
  · exact show MATRIX_A.toNat < 2 ^ 32 by decide

theorem and_one_eq_zero_iff (y : Word) : y &&& 1 = 0 ↔ y.getLsbD 0 = false := by
  constructor
  · intro h
    have hbit := congrArg (fun w => w.getLsbD 0) h
    simpa using hbit
  · intro h
    ext i hi
    by_cases h0 : i = 0
    · subst h0
      simpa using h
    · simp [BitVec.getElem_one, h0]

/-- The top bit of the contribution is the low bit that chose `MATRIX_A`. -/
theorem getLsbD_twisted {y : Word} (hy : Low32 y) : (twisted y).getLsbD 31 = y.getLsbD 0 := by
  have htop : (y >>> 1).getLsbD 31 = false := by
    rw [BitVec.getLsbD_ushiftRight]
    exact hy.getLsbD (by decide)
  rw [twisted, BitVec.getLsbD_xor, htop, Bool.false_xor]
  cases h : y.getLsbD 0
  · rw [if_pos ((and_one_eq_zero_iff y).mpr h)]
    rfl
  · have hne : ¬ y &&& 1 = 0 := by
      rw [and_one_eq_zero_iff, h]
      decide
    rw [if_neg hne]
    decide

theorem twisted_injective {y y' : Word} (hy : Low32 y) (hy' : Low32 y')
    (h : twisted y = twisted y') : y = y' := by
  have hlow : y.getLsbD 0 = y'.getLsbD 0 := by
    rw [← getLsbD_twisted hy, ← getLsbD_twisted hy', h]
  have hcond : (y &&& 1 = 0) ↔ (y' &&& 1 = 0) := by
    rw [and_one_eq_zero_iff, and_one_eq_zero_iff, hlow]
  have hshift : y >>> 1 = y' >>> 1 := by
    rw [twisted, twisted] at h
    by_cases h0 : y &&& 1 = 0
    · rw [if_pos h0, if_pos (hcond.mp h0)] at h
      exact BitVec.xor_left_inj _ |>.mp h
    · rw [if_neg h0, if_neg fun h0' => h0 (hcond.mpr h0')] at h
      exact BitVec.xor_left_inj _ |>.mp h
  apply BitVec.eq_of_getLsbD_eq
  intro i _
  cases i with
  | zero => exact hlow
  | succ i =>
      have hbit := congrArg (fun w => w.getLsbD i) hshift
      simp only [BitVec.getLsbD_ushiftRight] at hbit
      rwa [Nat.add_comm] at hbit

/-- A word has a top bit and low bits; those of the mixed word come from both. -/
theorem mixed_upper (word next : Word) : mixed word next &&& UPPER_MASK = word &&& UPPER_MASK := by
  have hdisj : LOWER_MASK &&& UPPER_MASK = 0 := by decide
  rw [mixed, BitVec.and_or_distrib_right, BitVec.and_assoc, BitVec.and_self, BitVec.and_assoc, hdisj]
  exact (congrArg _ BitVec.and_zero).trans BitVec.or_zero

theorem mixed_lower (word next : Word) : mixed word next &&& LOWER_MASK = next &&& LOWER_MASK := by
  have hdisj : UPPER_MASK &&& LOWER_MASK = 0 := by decide
  rw [mixed, BitVec.and_or_distrib_right, BitVec.and_assoc, hdisj, BitVec.and_assoc, BitVec.and_self]
  exact (congrArg (· ||| _) BitVec.and_zero).trans BitVec.zero_or

theorem eq_of_halves {w w' : Word} (hw : Low32 w) (hw' : Low32 w')
    (hupper : w &&& UPPER_MASK = w' &&& UPPER_MASK) (hlower : w &&& LOWER_MASK = w' &&& LOWER_MASK) :
    w = w' := by
  have hself : ∀ v : Word, Low32 v → v = (v &&& UPPER_MASK) ||| (v &&& LOWER_MASK) := by
    intro v hv
    rw [← BitVec.and_or_distrib_left]
    have hmask : UPPER_MASK ||| LOWER_MASK = 0xffffffff := by decide
    apply BitVec.eq_of_toNat_eq
    rw [hmask, toNat_and_mask, Nat.mod_eq_of_lt hv]
  rw [hself w hw, hself w' hw', hupper, hlower]

/-- The new word and the lagged one determine the bits that were mixed. -/
theorem nextWord_cancel {word next word' next' lagged : Word}
    (h : nextWord word next lagged = nextWord word' next' lagged) :
    word &&& UPPER_MASK = word' &&& UPPER_MASK ∧ next &&& LOWER_MASK = next' &&& LOWER_MASK := by
  rw [nextWord_eq, nextWord_eq] at h
  have hmixed : mixed word next = mixed word' next' :=
    twisted_injective (low32_mixed ..) (low32_mixed ..) (BitVec.xor_right_inj _ |>.mp h)
  rw [← mixed_upper word next, ← mixed_lower word next, hmixed, mixed_upper, mixed_lower]
  exact ⟨rfl, rfl⟩

theorem low32_of_obeys {x : Nat → Word} (hx : Obeys nextWord MT_N MT_M x)
    (hseed : ∀ j < MT_N, Low32 (x j)) (k : Nat) : Low32 (x k) := by
  induction k using Nat.strongRecOn with
  | _ k ih =>
      rcases Nat.lt_or_ge k MT_N with hk | hk
      · exact hseed k hk
      · obtain ⟨t, rfl⟩ : ∃ t, k = t + MT_N := ⟨k - MT_N, by omega⟩
        rw [hx t]
        exact low32_nextWord (ih _ (Nat.add_lt_add_left (by decide) t))

/-! ## The state of zeros -/

/-- The bits that the recurrence reads from word `k` on are all zero. -/
def Degenerate (x : Nat → Word) (k : Nat) : Prop :=
  x k &&& UPPER_MASK = 0 ∧ ∀ j, 0 < j → j < MT_N → x (k + j) = 0

/-- The state of zeros has only itself for a predecessor. -/
theorem Degenerate.pred {x : Nat → Word} (hx : Obeys nextWord MT_N MT_M x)
    (hlow : ∀ k, Low32 (x k)) {k : Nat} (h : Degenerate x (k + 1)) : Degenerate x k := by
  obtain ⟨hupper, hzero⟩ := h
  have hnew : x (k + MT_N) = 0 := by
    have hj := hzero (MT_N - 1) (by decide) (by decide)
    rwa [show k + 1 + (MT_N - 1) = k + MT_N by simp only [MT_N]] at hj
  have hlag : x (k + MT_M) = 0 := by
    have hj := hzero (MT_M - 1) (by decide) (by decide)
    rwa [show k + 1 + (MT_M - 1) = k + MT_M by simp only [MT_M]] at hj
  have hstep : nextWord (x k) (x (k + 1)) 0 = nextWord 0 0 0 := by
    rw [← hlag, ← hx k, hnew, hlag]
    decide
  obtain ⟨hword, hnext⟩ := nextWord_cancel hstep
  refine ⟨hword, fun j hpos hj => ?_⟩
  obtain ⟨i, rfl⟩ : ∃ i, j = i + 1 := ⟨j - 1, by omega⟩
  rcases Nat.eq_zero_or_pos i with rfl | hi
  · exact eq_of_halves (hlow _) (show (0 : Word).toNat < 2 ^ 32 by decide) hupper hnext
  · have hrest := hzero i hi (by omega)
    rwa [Nat.add_assoc, Nat.add_comm 1 i] at hrest

theorem not_degenerate {x : Nat → Word} (hx : Obeys nextWord MT_N MT_M x)
    (hlow : ∀ k, Low32 (x k)) (h : ¬ Degenerate x 0) : ∀ k, ¬ Degenerate x k := by
  intro k
  induction k with
  | zero => exact h
  | succ k ih => exact fun hdeg => ih (hdeg.pred hx hlow)

theorem temper_injective : Function.Injective temper := by
  have hcomp : temper = XorShift.right 18 ∘ XorShift.left 15 0xefc60000 ∘
      XorShift.left 7 0x9d2c5680 ∘ XorShift.right 11 := rfl
  rw [hcomp]
  exact (XorShift.right_injective (by decide)).comp ((XorShift.left_injective (by decide) _).comp
    ((XorShift.left_injective (by decide) _).comp (XorShift.right_injective (by decide))))

theorem Low32.temper {w : Word} (h : Low32 w) : Low32 (temper w) := by
  have hright : ∀ {v : Word} (n : Nat), Low32 v → Low32 (v ^^^ (v >>> n)) :=
    fun n hv => hv.xor (hv.ushiftRight n)
  have hleft : ∀ {v mask : Word} (n : Nat), Low32 mask → Low32 v → Low32 (v ^^^ ((v <<< n) &&& mask)) :=
    fun n hmask hv => hv.xor hmask.and_right
  have hb : Low32 0x9d2c5680 := show (0x9d2c5680 : Word).toNat < 2 ^ 32 by decide
  have hc : Low32 0xefc60000 := show (0xefc60000 : Word).toNat < 2 ^ 32 by decide
  exact hright 18 (hleft 15 hc (hleft 7 hb (hright 11 h)))

/-- A generator that holds words of 32 bits, not all of them zero, goes on drawing
    numbers that are not all zero. -/
theorem Tracks.exists_draw_ne {x : Nat → Word} {state : Mt19937arState} (h : Tracks x MT_N state)
    (hx : Obeys nextWord MT_N MT_M x) (hlow : ∀ j < MT_N, Low32 (x j)) (hdeg : ¬ Degenerate x 0)
    (k : Nat) : ∃ i < MT_N, Replay.draw (k + i) state ≠ 0 := by
  by_contra hzero
  have hword : ∀ i < MT_N, x (MT_N + k + i) = 0 := by
    intro i hi
    by_contra hne
    refine hzero ⟨i, hi, fun hdraw => hne (temper_injective ?_)⟩
    rw [Nat.add_assoc, ← Tracks.draw hx (k + i) MT_N state h, hdraw]
    decide
  refine not_degenerate hx (low32_of_obeys hx hlow) hdeg (MT_N + k) ⟨?_, fun j _ hj => hword j hj⟩
  have hfirst := hword 0 (by decide)
  rw [Nat.add_zero] at hfirst
  rw [hfirst]
  decide

/-- The second word after a zero is not zero: it has its index added. -/
theorem not_degenerate_twisterWord (s : Word) : ¬ Degenerate (twisterWord s) 0 := by
  rintro ⟨-, hzero⟩
  have hword : ∀ j, 0 < j → j < MT_N → seedWord s j = 0 := by
    intro j hpos hj
    rw [← hzero j hpos hj, Nat.zero_add, twisterWord, extend_of_lt _ _ _ _ hj]
  have h2 := hword 2 (by decide) (by decide)
  rw [seedWord, hword 1 (by decide) (by decide)] at h2
  exact absurd h2 (by decide)

theorem low32_twisterWord (s : Word) (j : Nat) : Low32 (twisterWord s j) := by
  refine low32_of_obeys (obeys_extend nextWord _ _ _) (fun i hi => ?_) j
  rw [extend_of_lt _ _ _ _ hi]
  exact low32_seedWord s i

theorem low32_draw (state : Mt19937arState) (s : Word) (i : Nat) :
    Low32 (draw i (initGenrandR state s)) := by
  rw [Tracks.draw (obeys_extend nextWord _ _ _) i MT_N _ (tracks_initGenrandR state s)]
  exact (low32_twisterWord s (MT_N + i)).temper

/-! ### Seeding by an array -/

/-- All cells of the array fit in 32 bits. -/
def LowCells (mt : Vector Word MT_N) : Prop := ∀ j, Low32 (cells mt j)

theorem LowCells.set {mt : Vector Word MT_N} (h : LowCells mt) (i : Nat) {w : Word}
    (hw : Low32 w) : LowCells (mt.setIfInBounds i w) := by
  intro j
  rcases Nat.lt_or_ge i MT_N with hi | hi
  · rw [cells_setIfInBounds mt hi, Function.update_apply]
    split
    · exact hw
    · exact h j
  · rw [Vector.setIfInBounds_eq_of_size_le hi]
    exact h j

theorem LowCells.wrapIndex {mt : Vector Word MT_N} (h : LowCells mt) (i : Nat) :
    LowCells (wrapIndex mt i).1 := by
  rw [Replay.wrapIndex]
  split
  · exact h.set 0 (h (MT_N - 1))
  · exact h

theorem LowCells.mixKeyLoop {initKey : List Word} :
    ∀ (k i j : Nat) {mt : Vector Word MT_N}, LowCells mt →
      LowCells (mixKeyLoop initKey k i j mt).1 := by
  intro k
  induction k with
  | zero => exact fun _ _ _ h => h
  | succ k ih => exact fun i j mt h => ih _ _ ((h.set i (low32_and_mask _)).wrapIndex (i + 1))

theorem LowCells.mixIndexLoop :
    ∀ (k i : Nat) {mt : Vector Word MT_N}, LowCells mt → LowCells (mixIndexLoop k i mt) := by
  intro k
  induction k with
  | zero => exact fun _ _ h => h
  | succ k ih => exact fun i mt h => ih _ ((h.set i (low32_and_mask _)).wrapIndex (i + 1))

theorem lowCells_initGenrandR (state : Mt19937arState) (s : Word) :
    LowCells (initGenrandR state s).mt := by
  intro j
  rcases Nat.lt_or_ge j MT_N with hj | hj
  · rw [cells_initGenrandR state s hj]
    exact low32_seedWord s j
  · rw [cells, Vector.getElem?_eq_none hj]
    exact show (0 : Word).toNat < 2 ^ 32 by decide

/-- The array is 32-bit words, the first one with its top bit set. -/
theorem tracks_initByArray (state : Mt19937arState) (initKey : List Word) :
    ∃ x, Tracks x MT_N (initByArray state initKey) ∧ Obeys nextWord MT_N MT_M x ∧
      (∀ j < MT_N, Low32 (x j)) ∧ ¬ Degenerate x 0 := by
  generalize hstate : initByArray state initKey = state'
  have hmti : state'.mti = MT_N := by
    rw [← hstate]
    rfl
  have hlow : LowCells state'.mt := by
    rw [← hstate, initByArray]
    exact ((lowCells_initGenrandR state 19650218).mixKeyLoop _ _ _ |>.mixIndexLoop _ _).set 0
      (show (0x80000000 : Word).toNat < 2 ^ 32 by decide)
  have hfirst : cells state'.mt 0 = 0x80000000 := by
    rw [← hstate, initByArray, cells_setIfInBounds _ (Nat.zero_lt_succ 623), Function.update_self]
  let x := @extend Word nextWord MT_N MT_M (by decide) (by decide) (cells state'.mt)
  have hseed : ∀ j < MT_N, x j = cells state'.mt j := fun j hj => extend_of_lt _ _ _ _ hj
  refine ⟨x, ⟨hmti.le, 0, by rw [hmti, Nat.zero_add], fun j hj => ?_⟩, obeys_extend nextWord _ _ _,
    fun j hj => ?_, ?_⟩
  · rw [Nat.zero_add]
    exact (hseed j hj).symm
  · rw [hseed j hj]
    exact hlow j
  · rintro ⟨hupper, -⟩
    rw [hseed 0 (by decide), hfirst] at hupper
    exact absurd hupper (by decide)

/-- However it is seeded and at every moment, one of the next 624 numbers is not zero. -/
theorem draw_nonzero (state : Mt19937arState) (k : Nat) :
    (∀ s : Word, ∃ i < MT_N, draw (k + i) (initGenrandR state s) ≠ 0) ∧
      ∀ (key : Word) (keys : List Word),
        ∃ i < MT_N, draw (k + i) (initByArray state (key :: keys)) ≠ 0 := by
  constructor
  · intro s
    exact (tracks_initGenrandR state s).exists_draw_ne (obeys_extend nextWord _ _ _)
      (fun j _ => low32_twisterWord s j) (not_degenerate_twisterWord s) k
  · intro key keys
    obtain ⟨x, hx, hobeys, hlow, hdeg⟩ := tracks_initByArray state (key :: keys)
    exact hx.exists_draw_ne hobeys hlow hdeg k

/-! ## Seeds -/

/-- A step of the seeding is a bijection of 32-bit words. -/
theorem seedWord_cancel {s s' : Word} {i : Nat} (h : seedWord s (i + 1) = seedWord s' (i + 1)) :
    seedWord s i = seedWord s' i := by
  have hstep : ∀ v : Word, seedWord v (i + 1) =
      ((1812433253 : Word) * XorShift.right 30 (seedWord v i) + BitVec.ofNat 64 (i + 1)) &&&
        0xffffffff := fun _ => rfl
  have hlow : ∀ v : Word, Low32 (XorShift.right 30 (seedWord v i)) := fun v =>
    (low32_seedWord v i).xor ((low32_seedWord v i).ushiftRight 30)
  rw [hstep, hstep] at h
  have hnat := congrArg BitVec.toNat h
  rw [toNat_and_mask, toNat_and_mask, BitVec.toNat_add, BitVec.toNat_add, BitVec.toNat_mul,
    BitVec.toNat_mul, Nat.mod_mod_of_dvd _ (by decide), Nat.mod_mod_of_dvd _ (by decide)] at hnat
  have hmod : Nat.ModEq (2 ^ 32)
      (1812433253 * (XorShift.right 30 (seedWord s i)).toNat)
      (1812433253 * (XorShift.right 30 (seedWord s' i)).toNat) := by
    have hcongr := Nat.ModEq.add_right_cancel' _ hnat
    exact ((Nat.mod_mod_of_dvd _ (by decide)).symm.trans hcongr).trans
      (Nat.mod_mod_of_dvd _ (by decide))
  have hword := Nat.ModEq.cancel_left_of_coprime (by decide) hmod
  rw [Nat.ModEq, Nat.mod_eq_of_lt (hlow s), Nat.mod_eq_of_lt (hlow s')] at hword
  exact XorShift.right_injective (by decide) (BitVec.eq_of_toNat_eq hword)

/-- So every word of the seeding determines the low 32 bits of the seed. -/
theorem seed_eq_of_seedWord {s s' : Word} :
    ∀ i, seedWord s i = seedWord s' i → s &&& 0xffffffff = s' &&& 0xffffffff := by
  intro i
  induction i with
  | zero => exact id
  | succ i ih => exact fun h => ih (seedWord_cancel h)

/-- Two steps whose new and lagged words agree determine the word between them. -/
theorem eq_of_two_steps {x y : Nat → Word} (hx : Obeys nextWord MT_N MT_M x)
    (hy : Obeys nextWord MT_N MT_M y) (hlx : ∀ k, Low32 (x k)) (hly : ∀ k, Low32 (y k)) {k : Nat}
    (hlag : ∀ j < 2, x (k + j + MT_M) = y (k + j + MT_M))
    (hnew : ∀ j < 2, x (k + j + MT_N) = y (k + j + MT_N)) : x (k + 1) = y (k + 1) := by
  have hcancel : ∀ j < 2, x (k + j) &&& UPPER_MASK = y (k + j) &&& UPPER_MASK ∧
      x (k + j + 1) &&& LOWER_MASK = y (k + j + 1) &&& LOWER_MASK := by
    intro j hj
    have hstep := hnew j hj
    rw [hx (k + j), hy (k + j), hlag j hj] at hstep
    exact nextWord_cancel hstep
  exact eq_of_halves (hlx _) (hly _) (hcancel 1 (by decide)).1 (hcancel 0 (by decide)).2

/-- The draws behind the first `N - M` are made of drawn words and two of the seed's,
    so the first `N - M + 2` draws determine the seed. -/
theorem seed_eq_of_draws {state state' : Mt19937arState} {s s' : Word}
    (h : ∀ i < MT_N - MT_M + 2, draw i (initGenrandR state s) = draw i (initGenrandR state' s')) :
    s &&& 0xffffffff = s' &&& 0xffffffff := by
  have hobeys : ∀ v, Obeys nextWord MT_N MT_M (twisterWord v) := fun v => obeys_extend nextWord _ _ _
  have hwords : ∀ i < MT_N - MT_M + 2, twisterWord s (MT_N + i) = twisterWord s' (MT_N + i) := by
    intro i hi
    have hi' := h i hi
    rw [Tracks.draw (hobeys s) i MT_N _ (tracks_initGenrandR state s),
      Tracks.draw (hobeys s') i MT_N _ (tracks_initGenrandR state' s')] at hi'
    exact temper_injective hi'
  have hword : twisterWord s (MT_N - MT_M + 1) = twisterWord s' (MT_N - MT_M + 1) := by
    apply eq_of_two_steps (hobeys s) (hobeys s') (low32_twisterWord s) (low32_twisterWord s')
    · intro j hj
      rw [show MT_N - MT_M + j + MT_M = MT_N + j by simp only [MT_N, MT_M]; omega]
      exact hwords j (by simp only [MT_N, MT_M]; omega)
    · intro j hj
      rw [Nat.add_comm]
      exact hwords (MT_N - MT_M + j) (by omega)
  rw [twisterWord, twisterWord, extend_of_lt _ _ _ _ (by decide),
    extend_of_lt _ _ _ _ (by decide)] at hword
  exact seed_eq_of_seedWord _ hword

/-- Two seeds draw the same numbers, or differ within 624 draws, by their low 32 bits. -/
theorem draws_eq_iff (state state' : Mt19937arState) (s s' : Word) :
    (∀ i < MT_N, draw i (initGenrandR state s) = draw i (initGenrandR state' s')) ↔
      s &&& 0xffffffff = s' &&& 0xffffffff := by
  constructor
  · intro h
    exact seed_eq_of_draws fun i hi => h i (Nat.lt_of_lt_of_le hi (by decide))
  · intro h i _
    rw [initGenrandR_erases state state' s, initGenrandR, initGenrandR, h]

end GogetaTools.Replay
