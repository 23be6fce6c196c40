/-
  GogetaTools.Lib.ScanLoop

  `scanf` on a stream, and the loop `while (~scanf(..))` around it.

  A call gives its return value, the store and what it leaves of the stream.  It
  returns `EOF` only if nothing but white space is left in front of the first
  conversion (`scanf_lf_eof_iff`).  Where something is left that is no number, the
  call returns 0, stores nothing, and takes the input item alone, which may be empty:
  the store keeps its old values, and the loop goes on.

  `LoopRun` is the loop without a bound on its turns, with its calls
  (`readLoop_iff_loopRun`); inductions about the loop are over it.
-/

import GogetaTools.Lib.Stdio
import GogetaTools.Lib.FloatText
import Mathlib.Data.List.DropRight

namespace Stdio

open FloatText (IsFloat IsItem isFloat takeItem)

/-! ## scanf -/

/-- A conversion of a format for a stream, with what it does to the store: `%lf`, which
    stores the value of a text, and `%c`. -/
inductive Conversion (S : Type)
  | lf (set : Text → S → S)
  | chr (set : BitVec 8 → S → S)

/-- How a conversion ends; `atEnd` is an input failure. -/
inductive Converted (S : Type)
  | matched (s : S) (rest : Text)
  | failed (rest : Text)
  | atEnd

section Scanf

variable {S : Type}

def Conversion.read : Conversion S → Text → S → Converted S
  | .lf set, cs, s =>
      if skipSpace cs = [] then .atEnd
      else
        let (item, rest) := takeItem (skipSpace cs)
        if isFloat item then .matched (set item s) rest else .failed rest
  | .chr _, [], _ => .atEnd
  | .chr set, c :: cs, s => .matched (set c s) cs

/-- What a call returns, stores and leaves. -/
structure ScanCall (S : Type) where
  ret : BitVec 32
  store : S
  rest : Text

def EOF : BitVec 32 := -1

/-- The conversions of a format, `done` of them having been stored. -/
def scanfFrom : List (Conversion S) → Nat → Text → S → ScanCall S
  | [], done, cs, s => { ret := BitVec.ofNat 32 done, store := s, rest := cs }
  | d :: ds, done, cs, s =>
      match d.read cs s with
      | .matched s rest => scanfFrom ds (done + 1) rest s
      | .failed rest => { ret := BitVec.ofNat 32 done, store := s, rest := rest }
      | .atEnd => { ret := if done = 0 then EOF else BitVec.ofNat 32 done, store := s, rest := [] }

def scanf (format : List (Conversion S)) (cs : Text) (s : S) : ScanCall S := scanfFrom format 0 cs s

/-- `item` is the number in front of a stream, and `rest` is behind it. -/
structure NumberAt (cs item rest : Text) : Prop where
  split : skipSpace cs = item ++ rest
  longest : IsItem item (skipSpace cs)
  number : IsFloat item

/-- Something is left of a stream, but no number is in front of it: `item` is taken. -/
structure MismatchAt (cs item rest : Text) : Prop where
  split : skipSpace cs = item ++ rest
  longest : IsItem item (skipSpace cs)
  left : skipSpace cs ≠ []
  mismatch : ¬ IsFloat item

theorem NumberAt.left {cs item rest : Text} (h : NumberAt cs item rest) : skipSpace cs ≠ [] := by
  intro hnil
  have hsplit := h.split
  rw [hnil] at hsplit
  exact h.number.ne_nil (List.append_eq_nil_iff.mp hsplit.symm).1

theorem numberAt_of_take {cs item rest : Text} (htake : takeItem (skipSpace cs) = (item, rest))
    (hfloat : isFloat item = true) : NumberAt cs item rest := by
  obtain ⟨hitem, hsplit⟩ := FloatText.takeItem_iff.mp htake
  exact ⟨hsplit, hitem, (FloatText.isFloat_iff item).mp hfloat⟩

theorem mismatchAt_of_take {cs item rest : Text} (hleft : skipSpace cs ≠ [])
    (htake : takeItem (skipSpace cs) = (item, rest)) (hfloat : isFloat item = false) :
    MismatchAt cs item rest := by
  obtain ⟨hitem, hsplit⟩ := FloatText.takeItem_iff.mp htake
  refine ⟨hsplit, hitem, hleft, fun h => ?_⟩
  rw [(FloatText.isFloat_iff item).mpr h] at hfloat
  cases hfloat

theorem NumberAt.congr {cs cs' item rest : Text} (hcs : skipSpace cs' = skipSpace cs)
    (h : NumberAt cs item rest) : NumberAt cs' item rest where
  split := hcs.trans h.split
  longest := by
    rw [hcs]
    exact h.longest
  number := h.number

theorem isSpace_of_visible {c : BitVec 8} (h : FloatText.Visible c) : isSpace c = false := by
  revert c
  decide +kernel

/-- A number with white space behind it. -/
theorem numberAt_printed {item rest : Text} {c : BitVec 8} (h : IsFloat item)
    (hc : isSpace c = true) : NumberAt (item ++ c :: rest) item (c :: rest) := by
  have hvisible : ¬ FloatText.Visible c := fun hv => by
    rw [isSpace_of_visible hv] at hc
    cases hc
  have hskip : skipSpace (item ++ c :: rest) = item ++ c :: rest := by
    obtain ⟨d, item, rfl⟩ := List.exists_cons_of_ne_nil h.ne_nil
    have hd := isSpace_of_visible (h.visible d List.mem_cons_self)
    exact List.dropWhile_cons_of_neg (by rw [hd]; exact Bool.false_ne_true)
  refine ⟨hskip, ?_, h⟩
  rw [hskip]
  exact h.isItem hvisible

/-- What is in front of a stream. -/
theorem stream_cases (cs : Text) :
    skipSpace cs = [] ∨ (∃ item rest, NumberAt cs item rest) ∨ ∃ item rest, MismatchAt cs item rest := by
  by_cases hnil : skipSpace cs = []
  · exact Or.inl hnil
  · cases hfloat : isFloat (takeItem (skipSpace cs)).1 with
    | true => exact Or.inr (Or.inl ⟨_, _, numberAt_of_take rfl hfloat⟩)
    | false => exact Or.inr (Or.inr ⟨_, _, mismatchAt_of_take hnil rfl hfloat⟩)

theorem length_skipSpace_le (cs : Text) : (skipSpace cs).length ≤ cs.length :=
  (List.dropWhile_suffix isSpace).length_le

/-- What is behind an item is shorter, if the item is not empty. -/
theorem length_rest_lt {cs item rest : Text} (hsplit : skipSpace cs = item ++ rest)
    (hne : item ≠ []) : rest.length < cs.length := by
  have hle := length_skipSpace_le cs
  have hpos := List.length_pos_iff.mpr hne
  rw [hsplit, List.length_append] at hle
  omega

theorem NumberAt.length_lt {cs item rest : Text} (h : NumberAt cs item rest) :
    rest.length < cs.length := length_rest_lt h.split h.number.ne_nil

/-- Nothing of what is left can be taken. -/
def Blocked (cs : Text) : Prop := MismatchAt cs [] (skipSpace cs)

theorem skipSpace_skipSpace (cs : Text) : skipSpace (skipSpace cs) = skipSpace cs :=
  List.dropWhile_idempotent ..

theorem Blocked.congr {cs cs' : Text} (hcs : skipSpace cs' = skipSpace cs) (h : Blocked cs) :
    Blocked cs' where
  split := rfl
  longest := by
    rw [hcs]
    exact h.longest
  left := by
    rw [hcs]
    exact h.left
  mismatch := h.mismatch

/-- A call leaves a blocked stream blocked. -/
theorem Blocked.stays {cs : Text} (h : Blocked cs) : Blocked (skipSpace cs) :=
  h.congr (skipSpace_skipSpace cs)

theorem MismatchAt.blocked {cs rest : Text} (h : MismatchAt cs [] rest) : Blocked cs :=
  ⟨rfl, h.longest, h.left, h.mismatch⟩

theorem MismatchAt.length_lt {cs item rest : Text} (h : MismatchAt cs item rest)
    (hnot : ¬ Blocked cs) : rest.length < cs.length := by
  refine length_rest_lt h.split ?_
  rintro rfl
  exact hnot h.blocked

/-- A character that cannot begin a number blocks the stream. -/
theorem blocked_of_first {cs rest : Text} {c : BitVec 8} (hcs : skipSpace cs = c :: rest)
    (hc : FloatText.State.start.next c = none) : Blocked cs := by
  have htake : takeItem (skipSpace cs) = ([], c :: rest) := by
    rw [hcs, takeItem, FloatText.State.take, hc]
  have hleft : skipSpace cs ≠ [] := by
    rw [hcs]
    exact List.cons_ne_nil c rest
  exact MismatchAt.blocked (mismatchAt_of_take hleft htake rfl)

theorem scanf_lf_end {cs : Text} (h : skipSpace cs = []) (set : Text → S → S)
    (ds : List (Conversion S)) (s : S) :
    scanf (.lf set :: ds) cs s = { ret := EOF, store := s, rest := [] } := by
  simp only [scanf, scanfFrom, Conversion.read, if_pos h, if_true]

theorem scanf_lf_number {cs item rest : Text} (h : NumberAt cs item rest) (set : Text → S → S)
    (ds : List (Conversion S)) (s : S) :
    scanf (.lf set :: ds) cs s = scanfFrom ds 1 rest (set item s) := by
  have htake : takeItem (skipSpace cs) = (item, rest) := FloatText.takeItem_iff.mpr ⟨h.longest, h.split⟩
  have hfloat := (FloatText.isFloat_iff item).mpr h.number
  simp only [scanf, scanfFrom, Conversion.read, if_neg h.left, htake, hfloat, if_true]

theorem scanf_lf_mismatch {cs item rest : Text} (h : MismatchAt cs item rest) (set : Text → S → S)
    (ds : List (Conversion S)) (s : S) :
    scanf (.lf set :: ds) cs s = { ret := 0, store := s, rest := rest } := by
  have htake : takeItem (skipSpace cs) = (item, rest) := FloatText.takeItem_iff.mpr ⟨h.longest, h.split⟩
  have hfloat : ¬ isFloat item = true := fun hf => h.mismatch ((FloatText.isFloat_iff item).mp hf)
  simp only [scanf, scanfFrom, Conversion.read, if_neg h.left, htake, if_neg hfloat]
  rfl

/-- Behind a conversion that has stored something, a call does not return `EOF`. -/
theorem scanfFrom_ret_ne_eof (ds : List (Conversion S)) {done : Nat} (hdone : 0 < done)
    (hsmall : done + ds.length < 2 ^ 32 - 1) (cs : Text) (s : S) :
    (scanfFrom ds done cs s).ret ≠ EOF := by
  have hcount : ∀ n < 2 ^ 32 - 1, BitVec.ofNat 32 n ≠ EOF := by
    intro n hn heof
    have hnat := congrArg BitVec.toNat heof
    rw [BitVec.toNat_ofNat, Nat.mod_eq_of_lt (by omega)] at hnat
    exact absurd hnat (Nat.ne_of_lt hn)
  induction ds generalizing done cs s with
  | nil => exact hcount done (by omega)
  | cons d ds ih =>
      rw [List.length_cons] at hsmall
      rw [scanfFrom]
      cases d.read cs s with
      | matched s rest => exact ih (Nat.succ_pos done) (by omega) rest s
      | failed rest => exact hcount done (by omega)
      | atEnd =>
          show (if done = 0 then EOF else BitVec.ofNat 32 done) ≠ EOF
          rw [if_neg (by omega)]
          exact hcount done (by omega)

/-- A call returns `EOF` if and only if nothing but white space is left. -/
theorem scanf_lf_eof_iff (set : Text → S → S) (ds : List (Conversion S))
    (hsmall : 1 + ds.length < 2 ^ 32 - 1) (cs : Text) (s : S) :
    ~~~(scanf (.lf set :: ds) cs s).ret = 0 ↔ skipSpace cs = [] := by
  have hnot : ∀ r : BitVec 32, ~~~r = 0 ↔ r = EOF := by
    intro r
    rw [← BitVec.not_inj (y := EOF)]
    rfl
  rw [hnot]
  rcases stream_cases cs with h | ⟨item, rest, h⟩ | ⟨item, rest, h⟩
  · rw [scanf_lf_end h]
    exact iff_of_true rfl h
  · rw [scanf_lf_number h]
    exact iff_of_false (scanfFrom_ret_ne_eof ds Nat.one_pos hsmall rest _) h.left
  · rw [scanf_lf_mismatch h]
    exact iff_of_false (by decide : (0 : BitVec 32) ≠ EOF) h.left

end Scanf

/-! ## The loop -/

section Loop

variable {S R : Type} (format : List (Conversion S)) (body : S → S ⊕ R) (atEof : S → R)

/-- `while (~scanf(format, ..)) body`, `fuel` turns at most, with the calls in front of
    the one that returns `EOF`; the body goes on with a store or returns. -/
def readLoop : Nat → Text → S → Option (List (ScanCall S) × R)
  | 0, _, _ => none
  | fuel + 1, cs, s =>
      let call := scanf format cs s
      if ~~~call.ret = 0 then some ([], atEof call.store)
      else
        match body call.store with
        | .inr r => some ([call], r)
        | .inl s => (readLoop fuel call.rest s).map fun out => (call :: out.1, out.2)

/-- A run of the loop, however many turns it takes. -/
inductive LoopRun : Text → S → List (ScanCall S) → R → Prop
  | eof {cs : Text} {s : S} : ~~~(scanf format cs s).ret = 0 →
      LoopRun cs s [] (atEof (scanf format cs s).store)
  | done {cs : Text} {s : S} {r : R} : ~~~(scanf format cs s).ret ≠ 0 →
      body (scanf format cs s).store = .inr r → LoopRun cs s [scanf format cs s] r
  | again {cs : Text} {s s' : S} {calls : List (ScanCall S)} {r : R} :
      ~~~(scanf format cs s).ret ≠ 0 → body (scanf format cs s).store = .inl s' →
      LoopRun (scanf format cs s).rest s' calls r →
      LoopRun cs s (scanf format cs s :: calls) r

variable {format body atEof}

theorem loopRun_of_readLoop {fuel : Nat} {cs : Text} {s : S} {calls : List (ScanCall S)} {r : R}
    (h : readLoop format body atEof fuel cs s = some (calls, r)) :
    LoopRun format body atEof cs s calls r := by
  induction fuel generalizing cs s calls with
  | zero => cases h
  | succ fuel ih =>
      simp only [readLoop] at h
      by_cases heof : ~~~(scanf format cs s).ret = 0
      · rw [if_pos heof] at h
        cases h
        exact LoopRun.eof heof
      · rw [if_neg heof] at h
        cases hbody : body (scanf format cs s).store with
        | inr r' =>
            simp only [hbody] at h
            cases h
            exact LoopRun.done heof hbody
        | inl s' =>
            simp only [hbody] at h
            obtain ⟨⟨calls', r'⟩, hrest, heq⟩ := Option.map_eq_some_iff.mp h
            cases heq
            exact LoopRun.again heof hbody (ih hrest)

theorem LoopRun.readLoop {cs : Text} {s : S} {calls : List (ScanCall S)} {r : R}
    (h : LoopRun format body atEof cs s calls r) :
    ∃ enough, ∀ fuel ≥ enough, Stdio.readLoop format body atEof fuel cs s = some (calls, r) := by
  induction h with
  | eof heof =>
      refine ⟨1, fun fuel hfuel => ?_⟩
      obtain ⟨fuel, rfl⟩ : ∃ f, fuel = f + 1 := ⟨fuel - 1, by omega⟩
      simp only [Stdio.readLoop, if_pos heof]
  | done hnot hbody =>
      refine ⟨1, fun fuel hfuel => ?_⟩
      obtain ⟨fuel, rfl⟩ : ∃ f, fuel = f + 1 := ⟨fuel - 1, by omega⟩
      simp only [Stdio.readLoop, if_neg hnot, hbody]
  | again hnot hbody _ ih =>
      obtain ⟨enough, hrest⟩ := ih
      refine ⟨enough + 1, fun fuel hfuel => ?_⟩
      obtain ⟨fuel, rfl⟩ : ∃ f, fuel = f + 1 := ⟨fuel - 1, by omega⟩
      simp only [Stdio.readLoop, if_neg hnot, hbody, hrest fuel (by omega), Option.map_some]

/-- Enough turns give what the run gives. -/
theorem readLoop_iff_loopRun {cs : Text} {s : S} {calls : List (ScanCall S)} {r : R} :
    (∃ fuel, readLoop format body atEof fuel cs s = some (calls, r)) ↔
      LoopRun format body atEof cs s calls r := by
  constructor
  · rintro ⟨fuel, h⟩
    exact loopRun_of_readLoop h
  · intro h
    obtain ⟨enough, hrun⟩ := h.readLoop
    exact ⟨enough, hrun enough (Nat.le_refl enough)⟩

theorem LoopRun.unique {cs : Text} {s : S} {calls calls' : List (ScanCall S)} {r r' : R}
    (h : LoopRun format body atEof cs s calls r) (h' : LoopRun format body atEof cs s calls' r') :
    calls = calls' ∧ r = r' := by
  obtain ⟨enough, hrun⟩ := h.readLoop
  obtain ⟨enough', hrun'⟩ := h'.readLoop
  have hboth := (hrun _ (Nat.le_max_left enough enough')).symm.trans
    (hrun' _ (Nat.le_max_right enough enough'))
  cases hboth
  exact ⟨rfl, rfl⟩

/-- A loop that can always go on does not end. -/
theorem LoopRun.endless {I : Text → S → Prop}
    (hstep : ∀ cs s, I cs s → ~~~(scanf format cs s).ret ≠ 0 ∧
      ∃ s', body (scanf format cs s).store = .inl s' ∧ I (scanf format cs s).rest s')
    {cs : Text} {s : S} (hinit : I cs s) {calls : List (ScanCall S)} {r : R} :
    ¬ LoopRun format body atEof cs s calls r := by
  intro h
  induction h with
  | eof heof => exact (hstep _ _ hinit).1 heof
  | done _ hbody =>
      obtain ⟨-, s', hgoes, -⟩ := hstep _ _ hinit
      rw [hbody] at hgoes
      cases hgoes
  | again _ hbody _ ih =>
      obtain ⟨-, s', hgoes, hinv⟩ := hstep _ _ hinit
      rw [hbody] at hgoes
      cases hgoes
      exact ih hinv

end Loop

end Stdio
