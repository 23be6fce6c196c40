/-
  GogetaTools.Lib.FloatText

  The numbers that `strtod` and `%lf` read, in the C locale: decimal and
  hexadecimal ones, infinities and NaNs.

  `IsFloat` is the syntax.  `%lf` takes the longest text that is, or begins, a
  number, and does not look further; it is read by an automaton.  What the
  automaton has read in a state is an invariant (`State.Read`), so it accepts the
  numbers (`accepts_iff_isFloat`) and is alive on what begins one
  (`begins_iff_run`); the text that it takes is therefore the one that C asks
  for (`takeItem_iff`).
-/

import GogetaTools.Lib.Decimal
import Mathlib.Data.List.Basic

namespace FloatText

open Decimal

abbrev Text := List (BitVec 8)

/-! ## Syntax -/

/-- A letter without its case. -/
def lower (c : BitVec 8) : BitVec 8 :=
  if 0x41 ≤ c.toNat ∧ c.toNat ≤ 0x5a then c + 0x20 else c

def isHexDigit (c : BitVec 8) : Bool :=
  isDigit c || decide (0x61 ≤ (lower c).toNat ∧ (lower c).toNat ≤ 0x66)

/-- A character between the parentheses of a NaN. -/
def isNChar (c : BitVec 8) : Bool :=
  isDigit c || decide (0x61 ≤ (lower c).toNat ∧ (lower c).toNat ≤ 0x7a) || c == 0x5f

def infinityWord : Text := [0x69, 0x6e, 0x66, 0x69, 0x6e, 0x69, 0x74, 0x79]

def nanWord : Text := [0x6e, 0x61, 0x6e]

/-- Decimal and hexadecimal numbers. -/
inductive Radix
  | dec
  | hex
deriving DecidableEq

def Radix.isDigit : Radix → BitVec 8 → Bool
  | .dec => Decimal.isDigit
  | .hex => isHexDigit

/-- The letter in front of the exponent. -/
def Radix.exponentChar : Radix → BitVec 8
  | .dec => 0x65
  | .hex => 0x70

/-- An optional sign. -/
def IsSign (w : Text) : Prop := w = [] ∨ w = [0x2b] ∨ w = [0x2d]

/-- What stands in front of the digits: a sign, and `0x` of a hexadecimal number. -/
def IsHead : Radix → Text → Prop
  | .dec, w => IsSign w
  | .hex, w => ∃ sign x, IsSign sign ∧ lower x = 0x78 ∧ w = sign ++ [0x30, x]

def Digits (r : Radix) (w : Text) : Prop := ∀ c ∈ w, r.isDigit c = true

/-- Digits, with a point perhaps. -/
def IsSignificand (r : Radix) (w : Text) : Prop :=
  (Digits r w ∧ w ≠ []) ∨
    ∃ ds es, Digits r ds ∧ Digits r es ∧ (ds ≠ [] ∨ es ≠ []) ∧ w = ds ++ 0x2e :: es

/-- An optional exponent, in decimal. -/
def IsExponent (r : Radix) (w : Text) : Prop :=
  w = [] ∨ ∃ c sign ds, lower c = r.exponentChar ∧ IsSign sign ∧ Digits .dec ds ∧ ds ≠ [] ∧
    w = c :: (sign ++ ds)

/-- A matching sequence of `%lf`. -/
inductive IsFloat : Text → Prop
  | number {r : Radix} {head s e : Text} : IsHead r head → IsSignificand r s → IsExponent r e →
      IsFloat (head ++ s ++ e)
  | infinity {sign w : Text} : IsSign sign →
      (w.map lower = infinityWord.take 3 ∨ w.map lower = infinityWord) → IsFloat (sign ++ w)
  | nan {sign w : Text} : IsSign sign → w.map lower = nanWord → IsFloat (sign ++ w)
  | nanSeq {sign w cs : Text} : IsSign sign → w.map lower = nanWord →
      (∀ c ∈ cs, isNChar c = true) → IsFloat (sign ++ w ++ 0x28 :: (cs ++ [0x29]))

/-- A text that some number begins with. -/
def Begins (w : Text) : Prop := ∃ more, IsFloat (w ++ more)

/-! ## The automaton -/

/-- What has been read: nothing, a sign, a leading 0, `0x`, digits in front of the
    point, a point without digits, digits with a point, parts of an exponent, or letters
    of a word of which `todo` is missing. -/
inductive State
  | start
  | signed
  | zero
  | hexHead
  | int (r : Radix)
  | point (r : Radix)
  | frac (r : Radix)
  | exp
  | expSign
  | expDigits
  | inf (todo : Text)
  | nan (todo : Text)
  | nanSeq
  | nanEnd
deriving DecidableEq

/-- A digit in front of the point, the point or the exponent. -/
def State.nextInt (r : Radix) (c : BitVec 8) : Option State :=
  if r.isDigit c then some (.int r)
  else if c = 0x2e then some (.frac r)
  else if lower c = r.exponentChar then some .exp
  else none

/-- The first character behind the sign. -/
def State.nextSigned (c : BitVec 8) : Option State :=
  if c = 0x30 then some .zero
  else if isDigit c then some (.int .dec)
  else if c = 0x2e then some (.point .dec)
  else if lower c = 0x69 then some (.inf (infinityWord.drop 1))
  else if lower c = 0x6e then some (.nan (nanWord.drop 1))
  else none

def State.next : State → BitVec 8 → Option State
  | .start, c => if c = 0x2b ∨ c = 0x2d then some .signed else nextSigned c
  | .signed, c => nextSigned c
  | .zero, c => if lower c = 0x78 then some .hexHead else nextInt .dec c
  | .hexHead, c =>
      if isHexDigit c then some (.int .hex) else if c = 0x2e then some (.point .hex) else none
  | .int r, c => nextInt r c
  | .point r, c => if r.isDigit c then some (.frac r) else none
  | .frac r, c =>
      if r.isDigit c then some (.frac r)
      else if lower c = r.exponentChar then some .exp
      else none
  | .exp, c =>
      if c = 0x2b ∨ c = 0x2d then some .expSign
      else if isDigit c then some .expDigits
      else none
  | .expSign, c => if isDigit c then some .expDigits else none
  | .expDigits, c => if isDigit c then some .expDigits else none
  | .inf [], _ => none
  | .inf (t :: todo), c => if lower c = t then some (.inf todo) else none
  | .nan [], c => if c = 0x28 then some .nanSeq else none
  | .nan (t :: todo), c => if lower c = t then some (.nan todo) else none
  | .nanSeq, c =>
      if c = 0x29 then some .nanEnd else if isNChar c then some .nanSeq else none
  | .nanEnd, _ => none

/-- What has been read is a number. -/
def State.accepts : State → Bool
  | .zero | .int _ | .frac _ | .expDigits | .nanEnd => true
  | .inf todo => decide (todo = [] ∨ todo = infinityWord.drop 3)
  | .nan todo => decide (todo = [])
  | _ => false

def State.run (q : State) (w : Text) : Option State := w.foldlM State.next q

/-- What the automaton takes from the front of a text, and the rest. -/
def State.take : State → Text → Text × Text
  | _, [] => ([], [])
  | q, c :: cs =>
      match q.next c with
      | none => ([], c :: cs)
      | some q' => (c :: (q'.take cs).1, (q'.take cs).2)

/-- The input item of `%lf`. -/
def takeItem (cs : Text) : Text × Text := State.start.take cs

def isFloat (w : Text) : Bool := (State.start.run w).any State.accepts

theorem State.run_cons (q : State) (c : BitVec 8) (w : Text) :
    q.run (c :: w) = (q.next c).bind fun q' => q'.run w := rfl

theorem State.run_append (q : State) (v w : Text) :
    q.run (v ++ w) = (q.run v).bind fun q' => q'.run w :=
  List.foldlM_append

/-! ## What a state has read -/

/-- The text that has led to a state. -/
def State.Read : State → Text → Prop
  | .start, w => w = []
  | .signed, w => IsSign w
  | .zero, w => ∃ sign, IsSign sign ∧ w = sign ++ [0x30]
  | .hexHead, w => IsHead .hex w
  | .int r, w => ∃ head ds, IsHead r head ∧ Digits r ds ∧ ds ≠ [] ∧ w = head ++ ds
  | .point r, w => ∃ head, IsHead r head ∧ w = head ++ [0x2e]
  | .frac r, w => ∃ head ds es, IsHead r head ∧ Digits r ds ∧ Digits r es ∧ (ds ≠ [] ∨ es ≠ []) ∧
      w = head ++ (ds ++ 0x2e :: es)
  | .exp, w => ∃ r head s c, IsHead r head ∧ IsSignificand r s ∧ lower c = r.exponentChar ∧
      w = head ++ s ++ [c]
  | .expSign, w => ∃ r head s c sign, IsHead r head ∧ IsSignificand r s ∧
      lower c = r.exponentChar ∧ IsSign sign ∧ w = head ++ s ++ c :: sign
  | .expDigits, w => ∃ r head s c sign ds, IsHead r head ∧ IsSignificand r s ∧
      lower c = r.exponentChar ∧ IsSign sign ∧ Digits .dec ds ∧ ds ≠ [] ∧
      w = head ++ s ++ c :: (sign ++ ds)
  | .inf todo, w => ∃ sign v, IsSign sign ∧ v.map lower ++ todo = infinityWord ∧ w = sign ++ v
  | .nan todo, w => ∃ sign v, IsSign sign ∧ v.map lower ++ todo = nanWord ∧ w = sign ++ v
  | .nanSeq, w => ∃ sign v cs, IsSign sign ∧ v.map lower = nanWord ∧
      (∀ c ∈ cs, isNChar c = true) ∧ w = sign ++ v ++ 0x28 :: cs
  | .nanEnd, w => IsFloat w

theorem read_start : State.start.Read [] := rfl

theorem Digits.concat {r : Radix} {ds : Text} (h : Digits r ds) {c : BitVec 8}
    (hc : r.isDigit c = true) : Digits r (ds ++ [c]) := by
  intro d hd
  rcases List.mem_append.mp hd with hd | hd
  · exact h d hd
  · rw [List.mem_singleton.mp hd]
    exact hc

theorem Digits.singleton {r : Radix} {c : BitVec 8} (hc : r.isDigit c = true) : Digits r [c] := by
  intro d hd
  rw [List.mem_singleton.mp hd]
  exact hc

/-- The next character behind digits without a point. -/
theorem read_nextInt {r : Radix} {head ds : Text} {c : BitVec 8} {q : State}
    (hhead : IsHead r head) (hds : Digits r ds) (hne : ds ≠ []) (h : State.nextInt r c = some q) :
    q.Read (head ++ ds ++ [c]) := by
  rw [State.nextInt] at h
  split_ifs at h with hdigit hpoint hexp
  · cases h
    exact ⟨head, ds ++ [c], hhead, hds.concat hdigit, by simp, by simp⟩
  · cases h
    exact ⟨head, ds, [], hhead, hds, by simp [Digits], Or.inl hne, by simp [hpoint]⟩
  · cases h
    exact ⟨r, head, ds, c, hhead, Or.inl ⟨hds, hne⟩, hexp, rfl⟩

/-- The first character behind a sign. -/
theorem read_nextSigned {sign : Text} {c : BitVec 8} {q : State} (hsign : IsSign sign)
    (h : State.nextSigned c = some q) : q.Read (sign ++ [c]) := by
  rw [State.nextSigned] at h
  split_ifs at h with hzero hdigit hpoint hinf hnan
  · cases h
    exact ⟨sign, hsign, by rw [hzero]⟩
  · cases h
    exact ⟨sign, [c], hsign, Digits.singleton hdigit, by simp, rfl⟩
  · cases h
    exact ⟨sign, hsign, by rw [hpoint]⟩
  · cases h
    exact ⟨sign, [c], hsign, by simp [hinf, infinityWord], rfl⟩
  · cases h
    exact ⟨sign, [c], hsign, by simp [hnan, nanWord], rfl⟩

theorem isSign_of_mem {c : BitVec 8} (h : c = 0x2b ∨ c = 0x2d) : IsSign [c] := by
  rcases h with rfl | rfl
  · exact Or.inr (Or.inl rfl)
  · exact Or.inr (Or.inr rfl)

/-- The next letter of a word. -/
theorem map_lower_concat {v todo word : Text} {t c : BitVec 8} (hv : v.map lower ++ t :: todo = word)
    (hc : lower c = t) : (v ++ [c]).map lower ++ todo = word := by
  rw [List.map_append, List.map_singleton, hc, List.append_assoc, List.singleton_append]
  exact hv

/-- One character more. -/
theorem State.Read.next {q q' : State} {w : Text} {c : BitVec 8} (hread : q.Read w)
    (h : q.next c = some q') : q'.Read (w ++ [c]) := by
  cases q with
  | start =>
      obtain rfl : w = [] := hread
      simp only [State.next] at h
      split_ifs at h with hsign
      · cases h
        exact isSign_of_mem hsign
      · exact read_nextSigned (Or.inl rfl) h
  | signed => exact read_nextSigned hread h
  | zero =>
      obtain ⟨sign, hsign, rfl⟩ := hread
      simp only [State.next] at h
      split_ifs at h with hx
      · -- the 0 was that of `0x`
        cases h
        exact ⟨sign, c, hsign, hx, List.append_assoc ..⟩
      · -- it is the first digit
        exact @read_nextInt .dec sign [0x30] c q' hsign (Digits.singleton (by decide)) (by simp) h
  | hexHead =>
      simp only [State.next] at h
      split_ifs at h with hdigit hpoint
      · cases h
        exact ⟨w, [c], hread, Digits.singleton hdigit, by simp, rfl⟩
      · cases h
        exact ⟨w, hread, by rw [hpoint]⟩
  | int r =>
      obtain ⟨head, ds, hhead, hds, hne, rfl⟩ := hread
      exact read_nextInt hhead hds hne h
  | point r =>
      obtain ⟨head, hhead, rfl⟩ := hread
      simp only [State.next] at h
      split_ifs at h with hdigit
      cases h
      -- a point without digits in front of it has one behind it
      exact ⟨head, [], [c], hhead, by simp [Digits], Digits.singleton hdigit, by simp, by simp⟩
  | frac r =>
      obtain ⟨head, ds, es, hhead, hds, hes, hne, rfl⟩ := hread
      simp only [State.next] at h
      split_ifs at h with hdigit hexp
      · cases h
        exact ⟨head, ds, es ++ [c], hhead, hds, hes.concat hdigit, by simp, by simp⟩
      · cases h
        exact ⟨r, head, ds ++ 0x2e :: es, c, hhead, Or.inr ⟨ds, es, hds, hes, hne, rfl⟩, hexp, by simp⟩
  | exp =>
      obtain ⟨r, head, s, e, hhead, hs, he, rfl⟩ := hread
      simp only [State.next] at h
      split_ifs at h with hsign hdigit
      · cases h
        exact ⟨r, head, s, e, [c], hhead, hs, he, isSign_of_mem hsign, by simp⟩
      · cases h
        exact ⟨r, head, s, e, [], [c], hhead, hs, he, Or.inl rfl, Digits.singleton hdigit, by simp,
          by simp⟩
  | expSign =>
      obtain ⟨r, head, s, e, sign, hhead, hs, he, hsign, rfl⟩ := hread
      simp only [State.next] at h
      split_ifs at h with hdigit
      cases h
      exact ⟨r, head, s, e, sign, [c], hhead, hs, he, hsign, Digits.singleton hdigit, by simp, by simp⟩
  | expDigits =>
      obtain ⟨r, head, s, e, sign, ds, hhead, hs, he, hsign, hds, hne, rfl⟩ := hread
      simp only [State.next] at h
      split_ifs at h with hdigit
      cases h
      exact ⟨r, head, s, e, sign, ds ++ [c], hhead, hs, he, hsign, hds.concat hdigit, by simp, by simp⟩
  | inf todo =>
      obtain ⟨sign, v, hsign, hv, rfl⟩ := hread
      cases todo with
      | nil => cases h
      | cons t todo =>
          simp only [State.next] at h
          split_ifs at h with ht
          cases h
          exact ⟨sign, v ++ [c], hsign, map_lower_concat hv ht, List.append_assoc ..⟩
  | nan todo =>
      obtain ⟨sign, v, hsign, hv, rfl⟩ := hread
      cases todo with
      | nil =>
          -- the word is complete; a parenthesis may follow
          simp only [State.next] at h
          split_ifs at h with hopen
          cases h
          exact ⟨sign, v, [], hsign, by simpa using hv, by simp, by simp [hopen]⟩
      | cons t todo =>
          simp only [State.next] at h
          split_ifs at h with ht
          cases h
          exact ⟨sign, v ++ [c], hsign, map_lower_concat hv ht, List.append_assoc ..⟩
  | nanSeq =>
      obtain ⟨sign, v, cs, hsign, hv, hcs, rfl⟩ := hread
      simp only [State.next] at h
      split_ifs at h with hclose hchar
      · cases h
        have hfloat := IsFloat.nanSeq hsign hv hcs
        rw [hclose, State.Read]
        simpa using hfloat
      · cases h
        refine ⟨sign, v, cs ++ [c], hsign, hv, ?_, by simp⟩
        intro d hd
        rcases List.mem_append.mp hd with hd | hd
        · exact hcs d hd
        · rw [List.mem_singleton.mp hd]
          exact hchar
  | nanEnd => cases h

theorem State.Read.run {q q' : State} {w v : Text} (hread : q.Read w) (h : q.run v = some q') :
    q'.Read (w ++ v) := by
  induction v generalizing q w with
  | nil =>
      cases h
      rw [List.append_nil]
      exact hread
  | cons c v ih =>
      rw [State.run_cons] at h
      obtain ⟨q₁, hnext, hrun⟩ := Option.bind_eq_some_iff.mp h
      have hfinal := ih (hread.next hnext) hrun
      rwa [List.append_assoc] at hfinal

/-- What is read in an accepting state is a number. -/
theorem State.Read.isFloat {q : State} {w : Text} (hread : q.Read w) (h : q.accepts = true) :
    IsFloat w := by
  cases q with
  | zero =>
      obtain ⟨sign, hsign, rfl⟩ := hread
      have hfloat := @IsFloat.number .dec sign [0x30] [] hsign
        (Or.inl ⟨Digits.singleton (by decide), by simp⟩) (Or.inl rfl)
      rwa [List.append_nil] at hfloat
  | int r =>
      obtain ⟨head, ds, hhead, hds, hne, rfl⟩ := hread
      have hfloat := IsFloat.number hhead (Or.inl ⟨hds, hne⟩) (Or.inl rfl)
      rwa [List.append_nil] at hfloat
  | frac r =>
      obtain ⟨head, ds, es, hhead, hds, hes, hne, rfl⟩ := hread
      have hfloat := IsFloat.number hhead (Or.inr ⟨ds, es, hds, hes, hne, rfl⟩) (Or.inl rfl)
      rwa [List.append_nil] at hfloat
  | expDigits =>
      obtain ⟨r, head, s, e, sign, ds, hhead, hs, he, hsign, hds, hne, rfl⟩ := hread
      exact IsFloat.number hhead hs (Or.inr ⟨e, sign, ds, he, hsign, hds, hne, rfl⟩)
  | inf todo =>
      obtain ⟨sign, v, hsign, hv, rfl⟩ := hread
      refine IsFloat.infinity hsign ?_
      rcases of_decide_eq_true h with rfl | rfl
      · exact Or.inr (by simpa using hv)
      · -- `inf`, with the rest of `infinity` missing
        exact Or.inl (List.append_cancel_right (hv.trans (List.take_append_drop 3 _).symm))
  | nan todo =>
      obtain ⟨sign, v, hsign, hv, rfl⟩ := hread
      obtain rfl : todo = [] := of_decide_eq_true h
      exact IsFloat.nan hsign (by simpa using hv)
  | nanEnd => exact hread
  | start => cases h
  | signed => cases h
  | hexHead => cases h
  | point r => cases h
  | exp => cases h
  | expSign => cases h
  | nanSeq => cases h

/-! ## Numbers are accepted -/

/-- A digit is no point, no exponent letter and no `x`. -/
theorem Radix.digit_apart (r : Radix) {c : BitVec 8} (h : r.isDigit c = true) :
    c ≠ 0x2e ∧ lower c ≠ r.exponentChar ∧ lower c ≠ 0x78 := by
  have hall : ∀ c : BitVec 8,
      (Decimal.isDigit c = true → c ≠ 0x2e ∧ lower c ≠ 0x65 ∧ lower c ≠ 0x78) ∧
      (isHexDigit c = true → c ≠ 0x2e ∧ lower c ≠ 0x70 ∧ lower c ≠ 0x78) := by
    decide +kernel
  cases r with
  | dec => exact (hall c).1 h
  | hex => exact (hall c).2 h

theorem Radix.exponentChar_apart (r : Radix) {c : BitVec 8} (h : lower c = r.exponentChar) :
    r.isDigit c = false ∧ c ≠ 0x2e ∧ lower c ≠ 0x78 := by
  have hall : ∀ c : BitVec 8,
      (lower c = 0x65 → Decimal.isDigit c = false ∧ c ≠ 0x2e ∧ lower c ≠ 0x78) ∧
      (lower c = 0x70 → isHexDigit c = false ∧ c ≠ 0x2e ∧ lower c ≠ 0x78) := by
    decide +kernel
  cases r with
  | dec => exact (hall c).1 h
  | hex => exact (hall c).2 h

/-- A state that stays where it is reads the whole text. -/
theorem State.run_stays {q : State} {w : Text} (h : ∀ c ∈ w, q.next c = some q) :
    q.run w = some q := by
  induction w with
  | nil => rfl
  | cons c w ih =>
      rw [State.run_cons, h c List.mem_cons_self, Option.bind_some]
      exact ih fun d hd => h d (List.mem_cons_of_mem c hd)

theorem run_int {r : Radix} {ds : Text} (h : Digits r ds) :
    (State.int r).run ds = some (.int r) :=
  State.run_stays fun c hc => by rw [State.next, State.nextInt, if_pos (h c hc)]

theorem run_frac {r : Radix} {ds : Text} (h : Digits r ds) :
    (State.frac r).run ds = some (.frac r) :=
  State.run_stays fun c hc => by rw [State.next, if_pos (h c hc)]

theorem run_expDigits {ds : Text} (h : Digits .dec ds) :
    State.expDigits.run ds = some .expDigits :=
  State.run_stays fun c hc => by
    have hdigit : isDigit c = true := h c hc
    rw [State.next, if_pos hdigit]

/-- Behind the digits in front of a point. -/
def State.BehindInt (r : Radix) (q : State) : Prop :=
  q.accepts = true ∧ ∀ c, lower c ≠ 0x78 → q.next c = nextInt r c

/-- Behind the significand. -/
def State.BehindSignificand (r : Radix) (q : State) : Prop :=
  q.accepts = true ∧ ∀ c, lower c = r.exponentChar → q.next c = some .exp

/-- Behind the head. -/
def State.behindHead : Radix → State
  | .dec => .signed
  | .hex => .hexHead

theorem behindInt_int (r : Radix) : (State.int r).BehindInt r := ⟨rfl, fun _ _ => rfl⟩

theorem behindInt_zero : State.zero.BehindInt .dec :=
  ⟨rfl, fun c hc => by rw [State.next, if_neg hc]⟩

theorem State.BehindInt.behindSignificand {r : Radix} {q : State} (h : q.BehindInt r) :
    q.BehindSignificand r := by
  refine ⟨h.1, fun c hc => ?_⟩
  obtain ⟨hdigit, hpoint, hx⟩ := r.exponentChar_apart hc
  rw [h.2 c hx, nextInt, hdigit, if_neg Bool.false_ne_true, if_neg hpoint, if_pos hc]

theorem run_integer {r : Radix} {ds : Text} (h : Digits r ds) (hne : ds ≠ []) :
    ∃ q, (State.behindHead r).run ds = some q ∧ q.BehindInt r := by
  obtain ⟨d, ds, rfl⟩ := List.exists_cons_of_ne_nil hne
  have hd : r.isDigit d = true := h d List.mem_cons_self
  have hds : Digits r ds := fun c hc => h c (List.mem_cons_of_mem d hc)
  cases r with
  | hex =>
      have hnext : State.hexHead.next d = some (.int .hex) := by
        rw [State.next, if_pos (show isHexDigit d = true from hd)]
      refine ⟨.int .hex, ?_, behindInt_int .hex⟩
      rw [State.run_cons, State.behindHead, hnext, Option.bind_some, run_int hds]
  | dec =>
      have hdec : isDigit d = true := hd
      by_cases hzero : d = 0x30
      · -- a leading 0 may turn out to be that of `0x`
        have hnext : State.signed.next d = some .zero := by
          rw [State.next, State.nextSigned, if_pos hzero]
        rw [State.run_cons, State.behindHead, hnext, Option.bind_some]
        cases ds with
        | nil => exact ⟨.zero, rfl, behindInt_zero⟩
        | cons e es =>
            have he : isDigit e = true := hds e List.mem_cons_self
            have hes : Digits .dec es := fun c hc => hds c (List.mem_cons_of_mem e hc)
            refine ⟨.int .dec, ?_, behindInt_int .dec⟩
            rw [State.run_cons, behindInt_zero.2 e (Radix.dec.digit_apart he).2.2, State.nextInt,
              if_pos (show Radix.dec.isDigit e = true from he), Option.bind_some, run_int hes]
      · have hnext : State.signed.next d = some (.int .dec) := by
          rw [State.next, State.nextSigned, if_neg hzero, if_pos hdec]
        refine ⟨.int .dec, ?_, behindInt_int .dec⟩
        rw [State.run_cons, State.behindHead, hnext, Option.bind_some, run_int hds]

theorem behindSignificand_frac (r : Radix) : (State.frac r).BehindSignificand r := by
  refine ⟨rfl, fun c hc => ?_⟩
  rw [State.next, (r.exponentChar_apart hc).1, if_neg Bool.false_ne_true, if_pos hc]

theorem run_significand {r : Radix} {s : Text} (h : IsSignificand r s) :
    ∃ q, (State.behindHead r).run s = some q ∧ q.BehindSignificand r := by
  rcases h with ⟨hds, hne⟩ | ⟨ds, es, hds, hes, hne, rfl⟩
  · obtain ⟨q, hrun, hq⟩ := run_integer hds hne
    exact ⟨q, hrun, hq.behindSignificand⟩
  · refine ⟨.frac r, ?_, behindSignificand_frac r⟩
    by_cases hnil : ds = []
    · -- the point is the first character
      obtain ⟨e, es, rfl⟩ := List.exists_cons_of_ne_nil (hne.resolve_left (not_not_intro hnil))
      have hpoint : (State.behindHead r).next 0x2e = some (.point r) := by cases r <;> rfl
      have hfrac : (State.point r).next e = some (.frac r) := by
        rw [State.next, if_pos (hes e List.mem_cons_self)]
      rw [hnil, List.nil_append, State.run_cons, hpoint, Option.bind_some, State.run_cons, hfrac,
        Option.bind_some, run_frac fun c hc => hes c (List.mem_cons_of_mem e hc)]
    · obtain ⟨q, hrun, hq⟩ := run_integer hds hnil
      have hdigit : r.isDigit 0x2e = false := by cases r <;> decide
      have hpoint : q.next 0x2e = some (.frac r) := by
        rw [hq.2 0x2e (by decide), State.nextInt, hdigit, if_neg Bool.false_ne_true, if_pos rfl]
      rw [State.run_append, hrun, Option.bind_some, State.run_cons, hpoint, Option.bind_some,
        run_frac hes]

theorem run_exponent {r : Radix} {q : State} (hq : q.BehindSignificand r) {e : Text}
    (h : IsExponent r e) : ∃ q', q.run e = some q' ∧ q'.accepts = true := by
  rcases h with rfl | ⟨c, sign, ds, hc, hsign, hds, hne, rfl⟩
  · exact ⟨q, rfl, hq.1⟩
  · refine ⟨.expDigits, ?_, rfl⟩
    obtain ⟨d, ds, rfl⟩ := List.exists_cons_of_ne_nil hne
    have hd : isDigit d = true := hds d List.mem_cons_self
    have hds' : Digits .dec ds := fun c hc => hds c (List.mem_cons_of_mem d hc)
    rw [State.run_cons, hq.2 c hc, Option.bind_some]
    have hsigned : State.expSign.run (d :: ds) = some .expDigits := by
      rw [State.run_cons, State.next, if_pos hd, Option.bind_some, run_expDigits hds']
    rcases hsign with rfl | rfl | rfl
    · have hplain : ¬ (d = 0x2b ∨ d = 0x2d) := by
        rintro (rfl | rfl)
        · cases hd
        · cases hd
      rw [List.nil_append, State.run_cons, State.next, if_neg hplain, if_pos hd, Option.bind_some,
        run_expDigits hds']
    · exact hsigned
    · exact hsigned

/-- A sign is read in the first state; what follows it is no sign. -/
theorem run_sign {sign w : Text} (hsign : IsSign sign) {c : BitVec 8}
    (hfirst : ¬ (c = 0x2b ∨ c = 0x2d)) :
    State.start.run (sign ++ c :: w) = State.signed.run (c :: w) := by
  rcases hsign with rfl | rfl | rfl
  · rw [List.nil_append, State.run_cons, State.run_cons, State.next, if_neg hfirst, State.next]
  · rfl
  · rfl

/-- A number begins with no second sign. -/
theorem significand_first {r : Radix} {s : Text} (h : IsSignificand r s) :
    ∃ c w, s = c :: w ∧ ¬ (c = 0x2b ∨ c = 0x2d) := by
  have hdigit : ∀ c, r.isDigit c = true → ¬ (c = 0x2b ∨ c = 0x2d) := by
    rintro c hc (rfl | rfl) <;> cases r <;> cases hc
  rcases h with ⟨hds, hne⟩ | ⟨ds, es, hds, -, -, rfl⟩
  · obtain ⟨c, w, rfl⟩ := List.exists_cons_of_ne_nil hne
    exact ⟨c, w, rfl, hdigit c (hds c List.mem_cons_self)⟩
  · cases ds with
    | nil => exact ⟨_, es, rfl, by decide⟩
    | cons c ds => exact ⟨c, _, rfl, hdigit c (hds c List.mem_cons_self)⟩

theorem run_head {r : Radix} {head s : Text} (hhead : IsHead r head) (hs : IsSignificand r s) :
    State.start.run (head ++ s) = (State.behindHead r).run s := by
  cases r with
  | dec =>
      obtain ⟨c, w, rfl, hfirst⟩ := significand_first hs
      exact run_sign hhead hfirst
  | hex =>
      obtain ⟨sign, x, hsign, hx, rfl⟩ := hhead
      rw [List.append_assoc]
      refine (run_sign hsign (by decide)).trans ?_
      have hzero : State.signed.next 0x30 = some .zero := rfl
      have hx' : State.zero.next x = some .hexHead := by rw [State.next, if_pos hx]
      show State.signed.run (0x30 :: x :: s) = State.hexHead.run s
      rw [State.run_cons, hzero, Option.bind_some, State.run_cons, hx', Option.bind_some]

/-- The letters of a word are read in either case. -/
theorem run_word {word : Text → State} (hword : ∀ t todo c,
      (word (t :: todo)).next c = if lower c = t then some (word todo) else none)
    (v todo : Text) : (word (v.map lower ++ todo)).run v = some (word todo) := by
  induction v with
  | nil => rfl
  | cons c v ih =>
      rw [State.run_cons, List.map_cons, List.cons_append, hword, if_pos rfl, Option.bind_some]
      exact ih

theorem run_inf (v todo : Text) : (State.inf (v.map lower ++ todo)).run v = some (.inf todo) :=
  run_word (fun _ _ _ => rfl) v todo

theorem run_nan (v todo : Text) : (State.nan (v.map lower ++ todo)).run v = some (.nan todo) :=
  run_word (fun _ _ _ => rfl) v todo

theorem nextSigned_letter {c : BitVec 8} :
    (lower c = 0x69 → ¬ (c = 0x2b ∨ c = 0x2d) ∧
      State.nextSigned c = some (.inf (infinityWord.drop 1))) ∧
    (lower c = 0x6e → ¬ (c = 0x2b ∨ c = 0x2d) ∧
      State.nextSigned c = some (.nan (nanWord.drop 1))) := by
  revert c
  decide +kernel

/-- Letters of `infinity` behind a sign. -/
theorem run_infinity {sign v : Text} (hsign : IsSign sign) (todo : Text) (hne : v ≠ [])
    (hv : v.map lower ++ todo = infinityWord) : State.start.run (sign ++ v) = some (.inf todo) := by
  obtain ⟨c, v, rfl⟩ := List.exists_cons_of_ne_nil hne
  rw [List.map_cons, List.cons_append, infinityWord, List.cons.injEq] at hv
  obtain ⟨hfirst, hnext⟩ := nextSigned_letter.1 hv.1
  rw [run_sign hsign hfirst, State.run_cons, State.next, hnext, Option.bind_some]
  have hword : infinityWord.drop 1 = v.map lower ++ todo := hv.2.symm
  rw [hword]
  exact run_inf v todo

theorem run_nanWord {sign v : Text} (hsign : IsSign sign) (hv : v.map lower = nanWord) (w : Text) :
    State.start.run (sign ++ v ++ w) = (State.nan []).run w := by
  obtain ⟨c, v, rfl⟩ : ∃ c v', v = c :: v' := List.exists_cons_of_ne_nil fun hnil => by
    rw [hnil] at hv
    cases hv
  rw [List.map_cons, nanWord, List.cons.injEq] at hv
  obtain ⟨hfirst, hnext⟩ := nextSigned_letter.2 hv.1
  rw [List.append_assoc, List.cons_append, run_sign hsign hfirst, State.run_cons, State.next, hnext,
    Option.bind_some, State.run_append]
  have hword : nanWord.drop 1 = v.map lower ++ [] := by rw [List.append_nil]; exact hv.2.symm
  rw [hword, run_nan, Option.bind_some]

/-- The automaton accepts exactly the numbers. -/
theorem accepts_iff_isFloat (w : Text) :
    (∃ q, State.start.run w = some q ∧ q.accepts = true) ↔ IsFloat w := by
  constructor
  · rintro ⟨q, hrun, haccepts⟩
    exact (read_start.run hrun).isFloat haccepts
  · intro h
    cases h with
    | @number r head s e hhead hs he =>
        obtain ⟨q, hrun, hq⟩ := run_significand hs
        obtain ⟨q', hrun', haccepts⟩ := run_exponent hq he
        refine ⟨q', ?_, haccepts⟩
        rw [State.run_append, run_head hhead hs, hrun, Option.bind_some, hrun']
    | @infinity sign v hsign hv =>
        have hne : v ≠ [] := by
          rintro rfl
          rcases hv with hv | hv <;> cases hv
        rcases hv with hv | hv
        · refine ⟨_, run_infinity hsign (infinityWord.drop 3) hne ?_, by decide⟩
          rw [hv]
          rfl
        · refine ⟨_, run_infinity hsign [] hne ?_, by decide⟩
          rw [hv]
          rfl
    | @nan sign v hsign hv =>
        refine ⟨.nan [], ?_, by decide⟩
        have hrun := run_nanWord hsign hv []
        rw [List.append_nil] at hrun
        exact hrun
    | @nanSeq sign v cs hsign hv hcs =>
        refine ⟨.nanEnd, ?_, rfl⟩
        -- the closing parenthesis is no character of the sequence
        have hseq : State.nanSeq.run cs = some .nanSeq := by
          refine State.run_stays fun c hc => ?_
          have hclose : ∀ c : BitVec 8, isNChar c = true → c ≠ 0x29 := by decide +kernel
          rw [State.next, if_neg (hclose c (hcs c hc)), if_pos (hcs c hc)]
        have hopen : (State.nan []).next 0x28 = some .nanSeq := rfl
        rw [run_nanWord hsign hv, State.run_cons, hopen, Option.bind_some, State.run_append, hseq,
          Option.bind_some]
        rfl

/-! ## What the automaton takes -/

/-- The letters that are missing are small ones. -/
theorem map_lower_todo {word todo v : Text} (hword : ∀ t ∈ word, lower t = t)
    (hv : v.map lower ++ todo = word) : todo.map lower ++ [] = todo := by
  rw [List.append_nil, List.map_eq_iff]
  intro i
  cases hi : todo[i]? with
  | none => rfl
  | some t =>
      have hmem : t ∈ word := by
        rw [← hv]
        exact List.mem_append_right _ (List.mem_of_getElem? hi)
      rw [Option.map_some, hword t hmem]

/-- From every state the automaton can still come to a number. -/
theorem State.Read.exists_accepts {q : State} {w : Text} (h : q.Read w) :
    ∃ more q', q.run more = some q' ∧ q'.accepts = true := by
  cases q with
  | start => exact ⟨[0x30], .zero, rfl, rfl⟩
  | signed => exact ⟨[0x30], .zero, rfl, rfl⟩
  | zero => exact ⟨[], .zero, rfl, rfl⟩
  | hexHead => exact ⟨[0x30], .int .hex, rfl, rfl⟩
  | int r => exact ⟨[], .int r, rfl, rfl⟩
  | point r => exact ⟨[0x30], .frac r, by cases r <;> rfl, rfl⟩
  | frac r => exact ⟨[], .frac r, rfl, rfl⟩
  | exp => exact ⟨[0x30], .expDigits, rfl, rfl⟩
  | expSign => exact ⟨[0x30], .expDigits, rfl, rfl⟩
  | expDigits => exact ⟨[], .expDigits, rfl, rfl⟩
  | inf todo =>
      obtain ⟨sign, v, -, hv, -⟩ := h
      have hrun := run_inf todo []
      rw [map_lower_todo (by decide) hv] at hrun
      exact ⟨todo, .inf [], hrun, by decide⟩
  | nan todo =>
      obtain ⟨sign, v, -, hv, -⟩ := h
      have hrun := run_nan todo []
      rw [map_lower_todo (by decide) hv] at hrun
      exact ⟨todo, .nan [], hrun, by decide⟩
  | nanSeq => exact ⟨[0x29], .nanEnd, rfl, rfl⟩
  | nanEnd => exact ⟨[], .nanEnd, rfl, rfl⟩

/-- The automaton is alive on the texts that begin a number. -/
theorem begins_iff_run (w : Text) : Begins w ↔ ∃ q, State.start.run w = some q := by
  constructor
  · rintro ⟨more, hfloat⟩
    obtain ⟨q, hrun, -⟩ := (accepts_iff_isFloat _).mpr hfloat
    rw [State.run_append] at hrun
    obtain ⟨q', hrun', -⟩ := Option.bind_eq_some_iff.mp hrun
    exact ⟨q', hrun'⟩
  · rintro ⟨q, hrun⟩
    obtain ⟨more, q', hmore, haccepts⟩ := (read_start.run hrun).exists_accepts
    refine ⟨more, (accepts_iff_isFloat _).mp ⟨q', ?_, haccepts⟩⟩
    rw [State.run_append, hrun, Option.bind_some, hmore]

theorem isFloat_iff (w : Text) : isFloat w = true ↔ IsFloat w := by
  rw [← accepts_iff_isFloat, isFloat, Option.any_eq_true]

theorem Begins.of_prefix {v w : Text} (h : v <+: w) (hw : Begins w) : Begins v := by
  obtain ⟨u, rfl⟩ := h
  obtain ⟨more, hfloat⟩ := hw
  exact ⟨u ++ more, by rwa [← List.append_assoc]⟩

theorem IsFloat.begins {w : Text} (h : IsFloat w) : Begins w := ⟨[], by rwa [List.append_nil]⟩

theorem IsFloat.ne_nil {w : Text} (h : IsFloat w) : w ≠ [] := by
  rintro rfl
  obtain ⟨q, hrun, haccepts⟩ := (accepts_iff_isFloat []).mpr h
  cases hrun
  cases haccepts

/-- `item` is the longest text in front of `cs` that begins a number. -/
def IsItem (item cs : Text) : Prop :=
  item <+: cs ∧ Begins item ∧ ∀ v, v <+: cs → Begins v → v.length ≤ item.length

theorem IsItem.unique {item item' cs : Text} (h : IsItem item cs) (h' : IsItem item' cs) :
    item = item' :=
  (List.prefix_of_prefix_length_le h.1 h'.1 (h'.2.2 item h.1 h.2.1)).eq_of_length
    (Nat.le_antisymm (h'.2.2 item h.1 h.2.1) (h.2.2 item' h'.1 h'.2.1))

theorem State.take_append (q : State) (cs : Text) : (q.take cs).1 ++ (q.take cs).2 = cs := by
  induction cs generalizing q with
  | nil => rfl
  | cons c cs ih =>
      rw [State.take]
      split
      · rfl
      · rw [List.cons_append, ih]

/-- What is taken is read, and no prefix that goes further is. -/
theorem State.take_longest (q : State) (cs : Text) :
    (∃ q', q.run (q.take cs).1 = some q') ∧
      ∀ v, v <+: cs → (∃ q', q.run v = some q') → v.length ≤ (q.take cs).1.length := by
  induction cs generalizing q with
  | nil =>
      refine ⟨⟨q, rfl⟩, fun v hv _ => ?_⟩
      rw [List.prefix_nil.mp hv]
      exact Nat.zero_le _
  | cons c cs ih =>
      cases hnext : q.next c with
      | none =>
          simp only [State.take, hnext]
          refine ⟨⟨q, rfl⟩, fun v hv hrun => ?_⟩
          -- a prefix with one character more is not read
          cases v with
          | nil => exact Nat.le_refl 0
          | cons d v =>
              obtain ⟨q', hrun⟩ := hrun
              obtain ⟨rfl, -⟩ := List.cons_prefix_cons.mp hv
              rw [State.run_cons, hnext, Option.bind_none] at hrun
              cases hrun
      | some q₁ =>
          obtain ⟨htaken, hlongest⟩ := ih q₁
          simp only [State.take, hnext]
          refine ⟨?_, fun v hv hrun => ?_⟩
          · rw [State.run_cons, hnext, Option.bind_some]
            exact htaken
          · cases v with
            | nil => exact Nat.zero_le _
            | cons d v =>
                obtain ⟨rfl, hprefix⟩ := List.cons_prefix_cons.mp hv
                rw [State.run_cons, hnext, Option.bind_some] at hrun
                exact Nat.succ_le_succ (hlongest v hprefix hrun)

theorem takeItem_append (cs : Text) : (takeItem cs).1 ++ (takeItem cs).2 = cs :=
  State.take_append .start cs

theorem isItem_takeItem (cs : Text) : IsItem (takeItem cs).1 cs := by
  obtain ⟨htaken, hlongest⟩ := State.take_longest .start cs
  refine ⟨⟨_, takeItem_append cs⟩, (begins_iff_run _).mpr htaken, fun v hv hbegins => ?_⟩
  exact hlongest v hv ((begins_iff_run v).mp hbegins)

/-- The automaton takes the input item. -/
theorem takeItem_iff {cs item rest : Text} :
    takeItem cs = (item, rest) ↔ IsItem item cs ∧ cs = item ++ rest := by
  have happend := takeItem_append cs
  constructor
  · intro h
    have hitem := isItem_takeItem cs
    rw [h] at happend hitem
    exact ⟨hitem, happend.symm⟩
  · rintro ⟨hitem, hcs⟩
    have hfst := (isItem_takeItem cs).unique hitem
    rw [hfst] at happend
    exact Prod.ext hfst (List.append_cancel_left (happend.trans hcs))

/-! ## Behind a number -/

/-- Neither white space nor a control character. -/
def Visible (c : BitVec 8) : Prop := 0x20 < c.toNat

instance (c : BitVec 8) : Decidable (Visible c) := inferInstanceAs (Decidable (0x20 < c.toNat))

theorem visible_of_isNChar {c : BitVec 8} (h : isNChar c = true) : Visible c := by
  revert c
  decide +kernel

theorem visible_of_letter {c : BitVec 8} (h : 0x61 ≤ (lower c).toNat ∧ (lower c).toNat ≤ 0x7a) :
    Visible c := by
  refine visible_of_isNChar ?_
  rw [isNChar, decide_eq_true h, Bool.or_true, Bool.true_or]

theorem IsSign.visible {w : Text} (h : IsSign w) : ∀ c ∈ w, Visible c := by
  intro c hc
  rcases h with rfl | rfl | rfl
  · cases hc
  · rw [List.mem_singleton.mp hc]
    decide
  · rw [List.mem_singleton.mp hc]
    decide

theorem Digits.visible {r : Radix} {w : Text} (h : Digits r w) : ∀ c ∈ w, Visible c := by
  have hdec : ∀ c, Decimal.isDigit c = true → Visible c := fun c hc =>
    visible_of_isNChar (by rw [isNChar, hc, Bool.true_or, Bool.true_or])
  intro c hc
  have hdigit := h c hc
  cases r with
  | dec => exact hdec c hdigit
  | hex =>
      rcases (Bool.or_eq_true _ _).mp hdigit with hdigit | hletter
      · exact hdec c hdigit
      · have hrange := of_decide_eq_true hletter
        exact visible_of_letter ⟨hrange.1, by omega⟩

/-- The letters of a word. -/
theorem visible_of_map_lower {v word : Text}
    (hword : ∀ c ∈ word, 0x61 ≤ c.toNat ∧ c.toNat ≤ 0x7a) (h : v.map lower = word) :
    ∀ c ∈ v, Visible c := by
  intro c hc
  refine visible_of_letter (hword _ ?_)
  rw [← h]
  exact List.mem_map_of_mem hc

theorem IsHead.visible {r : Radix} {w : Text} (h : IsHead r w) : ∀ c ∈ w, Visible c := by
  cases r with
  | dec => exact IsSign.visible h
  | hex =>
      obtain ⟨sign, x, hsign, hx, rfl⟩ := h
      have hletter : Visible x := visible_of_letter (by rw [hx]; decide)
      rw [List.forall_mem_append]
      refine ⟨hsign.visible, ?_⟩
      rw [List.forall_mem_cons, List.forall_mem_singleton]
      exact ⟨by decide, hletter⟩

theorem IsSignificand.visible {r : Radix} {w : Text} (h : IsSignificand r w) :
    ∀ c ∈ w, Visible c := by
  rcases h with ⟨hds, -⟩ | ⟨ds, es, hds, hes, -, rfl⟩
  · exact hds.visible
  · rw [List.forall_mem_append, List.forall_mem_cons]
    exact ⟨hds.visible, by decide, hes.visible⟩

theorem IsExponent.visible {r : Radix} {w : Text} (h : IsExponent r w) : ∀ c ∈ w, Visible c := by
  rcases h with rfl | ⟨c, sign, ds, hc, hsign, hds, -, rfl⟩
  · exact fun c hc => by cases hc
  · rw [List.forall_mem_cons, List.forall_mem_append]
    refine ⟨visible_of_letter ?_, hsign.visible, hds.visible⟩
    rw [hc]
    cases r <;> decide

/-- No character of a number is white space. -/
theorem IsFloat.visible {w : Text} (h : IsFloat w) : ∀ c ∈ w, Visible c := by
  have hinfinity : ∀ c ∈ infinityWord, 0x61 ≤ c.toNat ∧ c.toNat ≤ 0x7a := by decide
  have hnan : ∀ c ∈ nanWord, 0x61 ≤ c.toNat ∧ c.toNat ≤ 0x7a := by decide
  cases h with
  | number hhead hs he =>
      rw [List.forall_mem_append, List.forall_mem_append]
      exact ⟨⟨hhead.visible, hs.visible⟩, he.visible⟩
  | infinity hsign hv =>
      rw [List.forall_mem_append]
      refine ⟨hsign.visible, ?_⟩
      rcases hv with hv | hv
      · exact visible_of_map_lower (fun c hc => hinfinity c (List.mem_of_mem_take hc)) hv
      · exact visible_of_map_lower hinfinity hv
  | nan hsign hv =>
      rw [List.forall_mem_append]
      exact ⟨hsign.visible, visible_of_map_lower hnan hv⟩
  | nanSeq hsign hv hcs =>
      rw [List.forall_mem_append, List.forall_mem_append, List.forall_mem_cons,
        List.forall_mem_append, List.forall_mem_singleton]
      refine ⟨⟨hsign.visible, visible_of_map_lower hnan hv⟩, by decide, ?_, by decide⟩
      exact fun c hc => visible_of_isNChar (hcs c hc)

/-- A character that no number has ends the item. -/
theorem IsFloat.isItem {item rest : Text} {c : BitVec 8} (h : IsFloat item) (hc : ¬ Visible c) :
    IsItem item (item ++ c :: rest) := by
  refine ⟨List.prefix_append item _, h.begins, fun v hv hbegins => ?_⟩
  by_contra hlonger
  -- a longer prefix goes beyond `item`, so `c` is in it
  have hprefix : item ++ [c] <+: v :=
    List.prefix_of_prefix_length_le ⟨rest, by simp⟩ hv (by simp; omega)
  obtain ⟨more, hfloat⟩ := hbegins.of_prefix hprefix
  exact hc (hfloat.visible c (by simp))

/-- `100ergs`: what is taken, `100e`, is no number. -/
example : takeItem [0x31, 0x30, 0x30, 0x65, 0x72, 0x67] = ([0x31, 0x30, 0x30, 0x65], [0x72, 0x67]) ∧
    isFloat [0x31, 0x30, 0x30, 0x65] = false := by decide

end FloatText
