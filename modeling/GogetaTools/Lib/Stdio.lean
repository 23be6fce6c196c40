/-
  GogetaTools.Lib.Stdio

  Reading text with `fgets` and `sscanf`.

  A format is a list of directives; each one reads a prefix of the text and
  stores what it read.  `sscanf` gives the store and the number of conversions
  (an input that ends before the first one counts as 0, not as `EOF`), and
  none where a `%s` writes past its buffer.

  Printing is undone field by field: a `TextField` is a directive with a text that it
  reads completely, whatever blank follows, and a line of such fields restores
  all of them (`sscanf_fields`).
-/

import GogetaTools.Lib.Decimal
import Mathlib.Data.List.Basic
import Mathlib.Algebra.Ring.Nat

namespace Stdio

open Decimal

abbrev Text := List (BitVec 8)

def newline : BitVec 8 := 0x0a

def blank : BitVec 8 := 0x20

/-- `isspace` in the C locale. -/
def isSpace (c : BitVec 8) : Bool := c = 0x20 ∨ (9 ≤ c.toNat ∧ c.toNat ≤ 13)

/-- A character of a token: not white space, and not the end of a string. -/
def isGraph (c : BitVec 8) : Bool := !isSpace c && c != 0

/-! ## fgets -/

/-- A line of `room` characters at most, with its newline, and the rest. -/
def takeLine : Nat → Text → Text × Text
  | 0, cs => ([], cs)
  | _ + 1, [] => ([], [])
  | room + 1, c :: cs =>
      if c = newline then ([c], cs)
      else (c :: (takeLine room cs).1, (takeLine room cs).2)

/-- `fgets(line, size, fp)`, with what is left of the file. -/
def fgets (size : Nat) (file : Text) : Option (Text × Text) :=
  if file = [] then none else some (takeLine (size - 1) file)

def fgetsLoop (size : Nat) : Nat → Text → List Text
  | 0, _ => []
  | fuel + 1, file =>
      match fgets size file with
      | none => []
      | some (line, rest) => line :: fgetsLoop size fuel rest

/-- What `while (fgets(line, size, fp))` reads. -/
def fgetsLines (size : Nat) (file : Text) : List Text := fgetsLoop size file.length file

theorem takeLine_append : ∀ (room : Nat) (cs : Text),
    (takeLine room cs).1 ++ (takeLine room cs).2 = cs := by
  intro room
  induction room with
  | zero => exact fun cs => rfl
  | succ room ih =>
      intro cs
      cases cs with
      | nil => rfl
      | cons c cs =>
          rw [takeLine]
          split
          · rfl
          · show c :: ((takeLine room cs).1 ++ (takeLine room cs).2) = c :: cs
            rw [ih cs]

theorem takeLine_ne_nil {room : Nat} (hroom : 0 < room) {cs : Text} (hcs : cs ≠ []) :
    (takeLine room cs).1 ≠ [] := by
  cases room with
  | zero => omega
  | succ room =>
      cases cs with
      | nil => exact absurd rfl hcs
      | cons c cs =>
          rw [takeLine]
          split
          · exact List.cons_ne_nil _ _
          · exact List.cons_ne_nil _ _

theorem flatten_fgetsLoop {size : Nat} (hsize : 1 < size) :
    ∀ (fuel : Nat) (file : Text), file.length ≤ fuel →
      (fgetsLoop size fuel file).flatten = file := by
  intro fuel
  induction fuel with
  | zero =>
      intro file h
      rw [List.eq_nil_of_length_eq_zero (Nat.le_zero.mp h)]
      rfl
  | succ fuel ih =>
      intro file h
      by_cases hnil : file = []
      · rw [hnil]
        rfl
      have hsplit := takeLine_append (size - 1) file
      have hpos : 0 < (takeLine (size - 1) file).1.length :=
        List.length_pos_iff.mpr (takeLine_ne_nil (by omega) hnil)
      have hlen := congrArg List.length hsplit
      rw [List.length_append] at hlen
      simp only [fgetsLoop, fgets, if_neg hnil, List.flatten_cons]
      rw [ih _ (by omega), hsplit]

/-- The lines make up the whole file: the loop does not stop early. -/
theorem flatten_fgetsLines {size : Nat} (hsize : 1 < size) (file : Text) :
    (fgetsLines size file).flatten = file :=
  flatten_fgetsLoop hsize file.length file (Nat.le_refl _)

/-- A line that fits is read with its newline. -/
theorem takeLine_line : ∀ (text rest : Text) (room : Nat), newline ∉ text → text.length < room →
    takeLine room (text ++ newline :: rest) = (text ++ [newline], rest) := by
  intro text rest
  induction text with
  | nil =>
      intro room _ hroom
      cases room with
      | zero => exact absurd hroom (Nat.not_lt_zero _)
      | succ room => simp [takeLine]
  | cons c text ih =>
      intro room hnl hroom
      cases room with
      | zero => exact absurd hroom (Nat.not_lt_zero _)
      | succ room =>
          obtain ⟨hc, htext⟩ : newline ≠ c ∧ newline ∉ text := by
            rwa [List.mem_cons, not_or] at hnl
          rw [List.cons_append, takeLine, if_neg (Ne.symm hc),
            ih room htext (Nat.lt_of_succ_lt_succ hroom)]
          rfl

theorem fgetsLoop_lines {size : Nat} :
    ∀ (texts : List Text) (fuel : Nat),
      (∀ t ∈ texts, newline ∉ t ∧ t.length + 1 < size) → texts.length ≤ fuel →
      fgetsLoop size fuel (texts.flatMap (· ++ [newline])) = texts.map (· ++ [newline]) := by
  intro texts
  induction texts with
  | nil =>
      intro fuel _ _
      cases fuel with
      | zero => rfl
      | succ fuel => rfl
  | cons t texts ih =>
      intro fuel h hfuel
      cases fuel with
      | zero => exact absurd hfuel (Nat.not_succ_le_zero _)
      | succ fuel =>
          obtain ⟨hnl, hlen⟩ := h t List.mem_cons_self
          have hfile : (t :: texts).flatMap (· ++ [newline]) =
              t ++ newline :: texts.flatMap (· ++ [newline]) := by
            rw [List.flatMap_cons, List.append_assoc, List.singleton_append]
          have hne : t ++ newline :: texts.flatMap (· ++ [newline]) ≠ [] := by simp
          simp only [hfile, fgetsLoop, fgets, if_neg hne,
            takeLine_line t _ (size - 1) hnl (by omega), List.map_cons]
          rw [ih fuel (fun t' ht' => h t' (List.mem_cons_of_mem _ ht'))
            (Nat.le_of_succ_le_succ hfuel)]

theorem length_le_flatMap_line (texts : List Text) :
    texts.length ≤ (texts.flatMap (· ++ [newline])).length := by
  induction texts with
  | nil => exact Nat.le_refl 0
  | cons t texts ih =>
      rw [List.flatMap_cons, List.length_append, List.length_append, List.length_cons,
        List.length_singleton]
      omega

/-- Newline-terminated lines that fit come back one by one. -/
theorem fgetsLines_lines {size : Nat} {texts : List Text}
    (h : ∀ t ∈ texts, newline ∉ t ∧ t.length + 1 < size) :
    fgetsLines size (texts.flatMap (· ++ [newline])) = texts.map (· ++ [newline]) :=
  fgetsLoop_lines texts _ h (length_le_flatMap_line texts)

/-! ## sscanf -/

def skipSpace (cs : Text) : Text := cs.dropWhile isSpace

/-- An optional sign; true for a minus. -/
def readSign : Text → Bool × Text
  | [] => (false, [])
  | c :: cs => if c = 0x2d then (true, cs) else if c = 0x2b then (false, cs) else (false, c :: cs)

/-- White space, a sign and digits: the sign, the number and the rest. -/
def readNumber (cs : Text) : Option (Bool × Nat × Text) :=
  let (neg, cs) := readSign (skipSpace cs)
  let digits := cs.takeWhile isDigit
  if digits = [] then none else some (neg, decimalValue 0 digits, cs.dropWhile isDigit)

/-- `strtoul`: the largest value where the number is too large, a minus negates. -/
def toULong (neg : Bool) (n : Nat) : BitVec 64 :=
  if 2 ^ 64 ≤ n then BitVec.allOnes 64
  else if neg then -(BitVec.ofNat 64 n) else BitVec.ofNat 64 n

/-- `strtol`, the nearest `long` where the number is too large, stored as an `int`. -/
def toInt (neg : Bool) (n : Nat) : BitVec 32 :=
  if neg then BitVec.ofInt 32 (-(min n (2 ^ 63) : Nat))
  else BitVec.ofNat 32 (min n (2 ^ 63 - 1))

section Scan

variable {S : Type}

/-- A directive of a format, with what it does to the store: white space, `%lu`,
    `%d`, `%c`, and `%s` into a buffer of `size` bytes. -/
inductive Directive (S : Type)
  | space
  | lu (set : BitVec 64 → S → S)
  | d (set : BitVec 32 → S → S)
  | chr (set : BitVec 8 → S → S)
  | str (size : Nat) (set : (token : Text) → token.length < size → S → S)

inductive Outcome (S : Type)
  | matched (s : S) (rest : Text)
  | failed
  | overflow

def Directive.read : Directive S → Text → S → Outcome S
  | .space, cs, s => .matched s (skipSpace cs)
  | .lu set, cs, s =>
      match readNumber cs with
      | some (neg, n, rest) => .matched (set (toULong neg n) s) rest
      | none => .failed
  | .d set, cs, s =>
      match readNumber cs with
      | some (neg, n, rest) => .matched (set (toInt neg n) s) rest
      | none => .failed
  | .chr _, [], _ => .failed
  | .chr set, c :: cs, s => .matched (set c s) cs
  | .str size set, cs, s =>
      let token := (skipSpace cs).takeWhile (!isSpace ·)
      if token = [] then .failed
      else if h : token.length < size then
        .matched (set token h s) ((skipSpace cs).dropWhile (!isSpace ·))
      else .overflow

/-- The conversions of a directive. -/
def Directive.conversions : Directive S → Nat
  | .space => 0
  | _ => 1

def sscanf : List (Directive S) → Text → S → Option (S × Nat)
  | [], _, s => some (s, 0)
  | d :: ds, cs, s =>
      match d.read cs s with
      | .matched s rest => (sscanf ds rest s).map fun r => (r.1, d.conversions + r.2)
      | .failed => some (s, 0)
      | .overflow => none

/-! ## Reading back what was printed -/

/-- The rest of a text behind a token. -/
def Ends (rest : Text) : Prop := rest = [] ∨ ∃ cs, rest = blank :: cs

/-- A conversion together with a text that it reads, and its effect. -/
structure TextField (S : Type) where
  directive : Directive S
  text : Text
  update : S → S
  converts : directive.conversions = 1
  text_ne : text ≠ []
  graph : ∀ c ∈ text, isGraph c = true
  reads : ∀ rest, Ends rest → ∀ s, directive.read (text ++ rest) s = .matched (update s) rest

theorem isSpace_of_isGraph {c : BitVec 8} (h : isGraph c = true) : isSpace c = false := by
  simp only [isGraph, Bool.and_eq_true, Bool.not_eq_true'] at h
  exact h.1

theorem ne_zero_of_isGraph {c : BitVec 8} (h : isGraph c = true) : c ≠ 0 := by
  simp only [isGraph, Bool.and_eq_true, bne_iff_ne] at h
  exact h.2

theorem isGraph_of_isDigit {c : BitVec 8} (h : isDigit c = true) : isGraph c = true := by
  simp only [isDigit, decide_eq_true_eq] at h
  have hne : ∀ k < 48, c ≠ BitVec.ofNat 8 k := by
    intro k hk heq
    rw [heq, BitVec.toNat_ofNat] at h
    omega
  have hspace : isSpace c = false := by
    simp only [isSpace, decide_eq_false_iff_not]
    rintro (heq | hrange)
    · exact hne 0x20 (by decide) heq
    · omega
  simp only [isGraph, hspace, Bool.not_false, Bool.true_and, bne_iff_ne]
  exact hne 0 (by decide)

/-- A text of token characters has no white space in front to skip. -/
theorem skipSpace_graph {text : Text} (hne : text ≠ []) (h : ∀ c ∈ text, isGraph c = true)
    (rest : Text) : skipSpace (text ++ rest) = text ++ rest := by
  cases text with
  | nil => exact absurd rfl hne
  | cons c text =>
      have hc := isSpace_of_isGraph (h c List.mem_cons_self)
      simp [skipSpace, hc]

theorem skipSpace_blank (cs : Text) : skipSpace (blank :: cs) = skipSpace cs := by
  simp [skipSpace, show isSpace blank = true by decide]

/-- What holds of all of `text` and not of a blank is read to its end. -/
theorem span_text {p : BitVec 8 → Bool} {text rest : Text} (h : ∀ c ∈ text, p c = true)
    (hblank : p blank = false) (hrest : Ends rest) :
    (text ++ rest).takeWhile p = text ∧ (text ++ rest).dropWhile p = rest := by
  have hstop : rest.takeWhile p = [] ∧ rest.dropWhile p = rest := by
    rcases hrest with rfl | ⟨cs, rfl⟩
    · exact ⟨rfl, rfl⟩
    · exact ⟨List.takeWhile_cons_of_neg (by simp [hblank]),
        List.dropWhile_cons_of_neg (by simp [hblank])⟩
  constructor
  · rw [List.takeWhile_append_of_pos h, hstop.1, List.append_nil]
  · rw [List.dropWhile_append_of_pos h, hstop.2]

theorem readSign_digit {c : BitVec 8} (h : isDigit c = true) (cs : Text) :
    readSign (c :: cs) = (false, c :: cs) := by
  simp only [isDigit, decide_eq_true_eq] at h
  have hminus : c ≠ 0x2d := by
    intro heq
    rw [heq] at h
    exact absurd h (by decide)
  have hplus : c ≠ 0x2b := by
    intro heq
    rw [heq] at h
    exact absurd h (by decide)
  rw [readSign, if_neg hminus, if_neg hplus]

theorem readNumber_decimal (n : Nat) {rest : Text} (hrest : Ends rest) :
    readNumber (decimal n ++ rest) = some (false, n, rest) := by
  have hdigit : ∀ c ∈ decimal n, isDigit c = true := fun c hc => isDigit_of_mem_decimal hc
  have hskip := skipSpace_graph (decimal_ne_nil n)
    (fun c hc => isGraph_of_isDigit (hdigit c hc)) rest
  have hsign : readSign (decimal n ++ rest) = (false, decimal n ++ rest) := by
    cases hcs : decimal n with
    | nil => exact absurd hcs (decimal_ne_nil n)
    | cons c cs => exact readSign_digit (hdigit c (by rw [hcs]; exact List.mem_cons_self)) _
  obtain ⟨htake, hdrop⟩ := span_text hdigit (by decide) hrest
  simp only [readNumber, hskip, hsign, htake, hdrop, if_neg (decimal_ne_nil n),
    decimalValue_decimal]

/-- `%lu` of a printed `unsigned long`. -/
def TextField.lu (set : BitVec 64 → S → S) (v : BitVec 64) : TextField S where
  directive := .lu set
  text := decimal v.toNat
  update := set v
  converts := rfl
  text_ne := decimal_ne_nil v.toNat
  graph := fun _ hc => isGraph_of_isDigit (isDigit_of_mem_decimal hc)
  reads := by
    intro rest hrest s
    simp only [Directive.read, readNumber_decimal v.toNat hrest, toULong,
      if_neg (Nat.not_le_of_lt v.isLt), BitVec.ofNat_toNat, BitVec.setWidth_eq]
    rfl

/-- `%d` of a printed `int` that is not negative. -/
def TextField.d (set : BitVec 32 → S → S) (v : BitVec 32) : TextField S where
  directive := .d set
  text := decimal v.toNat
  update := set v
  converts := rfl
  text_ne := decimal_ne_nil v.toNat
  graph := fun _ hc => isGraph_of_isDigit (isDigit_of_mem_decimal hc)
  reads := by
    intro rest hrest s
    have hmin : min v.toNat (2 ^ 63 - 1) = v.toNat := Nat.min_eq_left (by omega)
    have hval : toInt false v.toNat = v := by
      simp only [toInt, hmin, BitVec.ofNat_toNat, BitVec.setWidth_eq]
      rfl
    simp only [Directive.read, readNumber_decimal v.toNat hrest, hval]

/-- `%c` of a character that is not white space. -/
def TextField.chr (set : BitVec 8 → S → S) (c : BitVec 8) (h : isGraph c = true) : TextField S where
  directive := .chr set
  text := [c]
  update := set c
  converts := rfl
  text_ne := List.cons_ne_nil _ _
  graph := fun c' hc' => by rw [List.mem_singleton.mp hc']; exact h
  reads := fun _ _ _ => rfl

/-- A token of at most `n` characters. -/
structure Token (n : Nat) where
  text : Text
  text_ne : text ≠ []
  length_le : text.length ≤ n
  graph : ∀ c ∈ text, isGraph c = true

/-- `%s` of a token that fits its buffer. -/
def TextField.str {n : Nat} (set : (token : Text) → token.length < n + 1 → S → S) (t : Token n) :
    TextField S where
  directive := .str (n + 1) set
  text := t.text
  update := set t.text (Nat.lt_succ_of_le t.length_le)
  converts := rfl
  text_ne := t.text_ne
  graph := t.graph
  reads := by
    intro rest hrest s
    have hskip := skipSpace_graph t.text_ne t.graph rest
    obtain ⟨htake, hdrop⟩ := @span_text (!isSpace ·) t.text rest
      (fun c hc => by simp [isSpace_of_isGraph (t.graph c hc)]) (by decide) hrest
    simp only [Directive.read, hskip, htake, hdrop, if_neg t.text_ne,
      dif_pos (Nat.lt_succ_of_le t.length_le)]

/-- The format of a line of fields. -/
def format (fields : List (TextField S)) : List (Directive S) :=
  (fields.map TextField.directive).intersperse .space

/-- A line of fields. -/
def printLine (fields : List (TextField S)) : Text := [blank].intercalate (fields.map TextField.text)

theorem printLine_cons_cons (f g : TextField S) (fields : List (TextField S)) :
    printLine (f :: g :: fields) = f.text ++ blank :: printLine (g :: fields) := by
  simp [printLine, List.intercalate_cons_cons]

theorem skipSpace_printLine (f : TextField S) (fields : List (TextField S)) :
    skipSpace (printLine (f :: fields)) = printLine (f :: fields) := by
  obtain ⟨tail, htail⟩ : ∃ tail, printLine (f :: fields) = f.text ++ tail := by
    cases fields with
    | nil => exact ⟨[], by simp [printLine]⟩
    | cons g fields => exact ⟨_, printLine_cons_cons f g fields⟩
  rw [htail]
  exact skipSpace_graph f.text_ne f.graph tail

/-- Scanning a line of fields restores each of them. -/
theorem sscanf_fields (fields : List (TextField S)) (s : S) :
    sscanf (format fields) (printLine fields) s =
      some (fields.foldl (fun s f => f.update s) s, fields.length) := by
  induction fields generalizing s with
  | nil => rfl
  | cons f fields ih =>
      cases fields with
      | nil =>
          have hread := f.reads [] (Or.inl rfl) s
          rw [List.append_nil] at hread
          simp only [format, printLine, List.map_cons, List.map_nil, List.intersperse_singleton,
            List.intercalate_singleton, sscanf, hread, Option.map_some, f.converts]
          rfl
      | cons g fields =>
          have hread := f.reads (blank :: printLine (g :: fields)) (Or.inr ⟨_, rfl⟩) s
          -- the blank directive eats the blank, and no more
          have hblank : Directive.read .space (blank :: printLine (g :: fields)) (f.update s) =
              .matched (f.update s) (printLine (g :: fields)) := by
            rw [Directive.read, skipSpace_blank, skipSpace_printLine]
          have hformat : format (f :: g :: fields) =
              f.directive :: .space :: format (g :: fields) := rfl
          rw [hformat, printLine_cons_cons]
          simp only [sscanf, hread, hblank, ih, Option.map_some, f.converts,
            show (Directive.space : Directive S).conversions = 0 from rfl, Nat.zero_add]
          simp only [List.foldl_cons, List.length_cons, Nat.add_comm 1]

/-- The characters of a line of fields are blanks and token characters. -/
theorem mem_printLine {fields : List (TextField S)} {c : BitVec 8} (hc : c ∈ printLine fields) :
    c = blank ∨ isGraph c = true := by
  induction fields with
  | nil => exact absurd hc (by simp [printLine])
  | cons f fields ih =>
      cases fields with
      | nil =>
          simp only [printLine, List.map_cons, List.map_nil, List.intercalate_singleton] at hc
          exact Or.inr (f.graph c hc)
      | cons g fields =>
          rw [printLine_cons_cons, List.mem_append, List.mem_cons] at hc
          rcases hc with hc | hc | hc
          · exact Or.inr (f.graph c hc)
          · exact Or.inl hc
          · exact ih hc

theorem newline_not_mem_printLine (fields : List (TextField S)) : newline ∉ printLine fields := by
  intro hmem
  rcases mem_printLine hmem with hc | hc
  · exact absurd hc (by decide)
  · exact absurd hc (by decide)

theorem ne_zero_of_mem_printLine {fields : List (TextField S)} {c : BitVec 8}
    (hc : c ∈ printLine fields) : c ≠ 0 := by
  rcases mem_printLine hc with rfl | hgraph
  · decide
  · exact ne_zero_of_isGraph hgraph

end Scan

end Stdio
