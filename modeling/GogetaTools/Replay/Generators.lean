/-
  GogetaTools.Replay.Generators

  The random number generators of `nvm_tools-J/helper`: `mt19937ar.c`, `lcg.c`
  and the wrappers in `replay.c`.

  `fill_blk` seeds its generator before every draw sequence, and seeding
  overwrites the whole context.  `RandGener` carries that as a field, so what
  a seeded generator draws never depends on what it was used for before.
-/

import GogetaTools.Words

namespace GogetaTools.Replay

/-- `rand_gener_t` with both function pointers set. -/
structure RandGener (Ctx : Type) where
  fedseed : Ctx → Word32 → Ctx
  genrandom : Ctx → Word32 × Ctx
  fedseed_erases : ∀ c c' seed, fedseed c seed = fedseed c' seed

/-! ## `mt19937ar.c` -/

def MT_N : Nat := 624
def MT_M : Nat := 397
def MATRIX_A : Word := 0x9908b0df
def UPPER_MASK : Word := 0x80000000
def LOWER_MASK : Word := 0x7fffffff

/-- `struct mt19937ar_state`. -/
structure Mt19937arState where
  mt : Vector Word MT_N
  mti : Nat

/-- The loop of `init_genrand_r` over the `n` words from `mti` on. -/
def initGenrandLoop : Nat → Nat → Vector Word MT_N → Vector Word MT_N
  | 0, _, mt => mt
  | n + 1, mti, mt =>
      let prev := mt[mti - 1]?.getD 0
      let word := 1812433253 * (prev ^^^ (prev >>> 30)) + BitVec.ofNat 64 mti
      initGenrandLoop n (mti + 1) (mt.setIfInBounds mti (word &&& 0xffffffff))

def initGenrandR (state : Mt19937arState) (s : Word) : Mt19937arState :=
  { mt := initGenrandLoop (MT_N - 1) 1 (state.mt.setIfInBounds 0 (s &&& 0xffffffff))
    mti := MT_N }

/-- `mt[kk] = mt[src] ^ (y >> 1) ^ mag01[y & 1]`, with `y` made of `mt[kk]` and `mt[next]`. -/
def twist (mt : Vector Word MT_N) (kk next src : Nat) : Vector Word MT_N :=
  let y := (mt[kk]?.getD 0 &&& UPPER_MASK) ||| (mt[next]?.getD 0 &&& LOWER_MASK)
  let mag01 := if y &&& 1 = 0 then 0 else MATRIX_A
  mt.setIfInBounds kk (mt[src]?.getD 0 ^^^ (y >>> 1) ^^^ mag01)

/-- Generate N words at one time. -/
def generateWords (mt : Vector Word MT_N) : Vector Word MT_N :=
  let mt := (List.range (MT_N - MT_M)).foldl (fun mt kk => twist mt kk (kk + 1) (kk + MT_M)) mt
  let mt := (List.range' (MT_N - MT_M) (MT_M - 1)).foldl
    (fun mt kk => twist mt kk (kk + 1) (kk - (MT_N - MT_M))) mt
  twist mt (MT_N - 1) 0 (MT_M - 1)

def temper (y : Word) : Word :=
  let y := y ^^^ (y >>> 11)
  let y := y ^^^ ((y <<< 7) &&& 0x9d2c5680)
  let y := y ^^^ ((y <<< 15) &&& 0xefc60000)
  y ^^^ (y >>> 18)

def genrandInt32R (state : Mt19937arState) : Word × Mt19937arState :=
  let state :=
    if state.mti ≥ MT_N then
      let state := if state.mti = MT_N + 1 then initGenrandR state 5489 else state
      { mt := generateWords state.mt, mti := 0 }
    else state
  (temper (state.mt[state.mti]?.getD 0), { state with mti := state.mti + 1 })

/-- Words written by the loop do not depend on what the array held. -/
theorem initGenrandLoop_congr :
    ∀ (n mti : Nat) (mt mt' : Vector Word MT_N), 0 < mti →
      (∀ j < mti, mt[j]? = mt'[j]?) →
      ∀ j < mti + n, (initGenrandLoop n mti mt)[j]? = (initGenrandLoop n mti mt')[j]? := by
  intro n
  induction n with
  | zero => exact fun mti mt mt' _ h => h
  | succ n ih =>
      intro mti mt mt' hpos h j hj
      simp only [initGenrandLoop, h (mti - 1) (by omega)]
      refine ih (mti + 1) _ _ (by omega) ?_ j (by omega)
      intro k hk
      by_cases hkm : k = mti
      · subst hkm
        simp only [Vector.getElem?_setIfInBounds_self]
      · rw [Vector.getElem?_setIfInBounds_ne (by omega), Vector.getElem?_setIfInBounds_ne (by omega)]
        exact h k (by omega)

theorem initGenrandLoop_erases (n : Nat) (mt mt' : Vector Word MT_N) (w : Word)
    (hn : MT_N ≤ 1 + n) :
    initGenrandLoop n 1 (mt.setIfInBounds 0 w) = initGenrandLoop n 1 (mt'.setIfInBounds 0 w) := by
  have hfirst : ∀ j < 1, (mt.setIfInBounds 0 w)[j]? = (mt'.setIfInBounds 0 w)[j]? := by
    intro j hj
    have hj0 : j = 0 := by omega
    subst hj0
    simp only [Vector.getElem?_setIfInBounds_self]
  have hwords := initGenrandLoop_congr n 1 _ _ (by omega) hfirst
  apply Vector.ext
  intro j hj
  have := hwords j (by omega)
  rwa [Vector.getElem?_eq_getElem hj, Vector.getElem?_eq_getElem hj, Option.some.injEq] at this

theorem initGenrandR_erases (state state' : Mt19937arState) (s : Word) :
    initGenrandR state s = initGenrandR state' s := by
  rw [initGenrandR, initGenrandR, initGenrandLoop_erases _ state.mt state'.mt _ (by decide)]

/-! ## `lcg.c` -/

/-- `lcg_rand_r`; the product wraps, and only its low 31 bits are kept. -/
def lcgRandR (rseedR : Word32) : Word32 := (1103515245 * rseedR + 12345) &&& 0x7fffffff

/-! ## The generators of `replay.c` -/

/-- `rand_gener_type`. -/
inductive RandGenerType
  | null
  | mt19937ar
  | stdlib
  | lcg
deriving DecidableEq

/-- What `rand_gener->ctx` points to. -/
def RandGenerType.Ctx : RandGenerType → Type
  | null => Unit
  | mt19937ar => Mt19937arState
  | stdlib => Word32
  | lcg => Word32

instance : ∀ t : RandGenerType, Inhabited t.Ctx
  | .null => ⟨()⟩
  | .mt19937ar => ⟨{ mt := Vector.replicate MT_N 0, mti := MT_N + 1 }⟩
  | .stdlib => ⟨(0 : Word32)⟩
  | .lcg => ⟨(0 : Word32)⟩

/-- The seed is an `int`; `init_genrand_r` takes it as an `unsigned int`. -/
def mt19937arGener : RandGener Mt19937arState where
  fedseed ctx s := initGenrandR ctx (s.setWidth 64)
  genrandom ctx := ((genrandInt32R ctx).1.setWidth 32, (genrandInt32R ctx).2)
  fedseed_erases c c' _ := initGenrandR_erases c c' _

/-- A generator whose context is its last number. -/
def wordGener (next : Word32 → Word32) : RandGener Word32 where
  fedseed _ s := s
  genrandom ctx := (next ctx, next ctx)
  fedseed_erases _ _ _ := rfl

/-- The generator `assign_params_per_worker` sets up; none when its function
    pointers are null.  `randR` is the number `rand_r` of the C library draws
    from a seed. -/
def randGener (randR : Word32 → Word32) : (t : RandGenerType) → Option (RandGener t.Ctx)
  | .null => none
  | .mt19937ar => some mt19937arGener
  | .stdlib => some (wordGener randR)
  | .lcg => some (wordGener lcgRandR)

end GogetaTools.Replay
