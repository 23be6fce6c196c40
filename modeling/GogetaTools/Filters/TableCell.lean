/-
  GogetaTools.Filters.TableCell

  A cell of the table that `make_table.sh` prints: `./toG | ./get_sum` on the bandwidths
  of a run of `fio`.

  Bandwidths in K, M and G are added up in G, as `%f` has printed them
  (`tableCell_rates`).  Another unit makes `toG` stop with a message, on its standard
  output: `get_sum` comes to the message and never ends, so no cell is printed
  (`tableCell_unknown`).  In general a cell is printed if and only if `toG` comes to the
  end of its input (`tableCell_iff`).
-/

import GogetaTools.Filters.UnitFilters
import GogetaTools.Lib.Decimal

namespace GogetaTools.Filters

open Stdio
open FloatText (IsFloat)
open Decimal

section Pipeline

variable {D : Type} (ops : DoubleOps D)

/-- `./toG | ./get_sum`: what the first has printed is the input of the second. -/
def tableCell (fuel : Nat) (input : Text) (x₀ : D) (m₀ : Byte) (x₁ : D) : Option Text :=
  (toG ops fuel input x₀ m₀).bind fun r => (getSum ops fuel r.2.1.flatten x₁).map (·.2)

/-- The text of a number in G. -/
def printed (number : D × Byte) : Text := ops.printF (toUnitG ops number.2 number.1)

/-- The sum of texts that are read again. -/
def sumOf (texts : List Text) : Text :=
  ops.printF ((texts.map ops.strtod).foldl ops.add (ops.ofNat 0))

/-- What a call of `toG` has stored. -/
def stored (call : ScanCall (Giga D)) : D × Byte := (call.store.x, call.store.m)

end Pipeline

/-- Numbers with units, up to `tail`. -/
inductive RatesTo (tail : Text) : Text → List (Text × Byte) → Prop
  | tail : RatesTo tail tail []
  | rate {cs item rest : Text} {m : Byte} {rates : List (Text × Byte)} :
      NumberAt cs item (m :: rest) → isUnit m = true → RatesTo tail rest rates →
      RatesTo tail cs ((item, m) :: rates)

/-! ## get_sum on lines -/

section Lines

variable {D : Type} {ops : DoubleOps D}

/-- Texts, a line each. -/
def lines (texts : List Text) : List Text := texts.map (· ++ [newline])

/-- A line with a number is read up to its newline. -/
theorem numberAt_line {cs w tail : Text} {ws : List Text} (hw : IsFloat w)
    (hcs : skipSpace cs = skipSpace ((lines (w :: ws)).flatten ++ tail)) :
    NumberAt cs w (newline :: ((lines ws).flatten ++ tail)) := by
  have hnumber := @numberAt_printed w ((lines ws).flatten ++ tail) newline hw rfl
  refine hnumber.congr (hcs.trans ?_)
  rw [lines, List.map_cons, List.flatten_cons, List.append_assoc, List.append_assoc]
  rfl

/-- Lines with numbers are added up. -/
theorem exists_sumRun_lines {ws : List Text} (hws : ∀ w ∈ ws, IsFloat w) {cs : Text}
    (hcs : skipSpace cs = skipSpace ((lines ws).flatten ++ [])) (s : Sum D) :
    ∃ calls, SumRun ops cs s calls (ops.printF ((ws.map ops.strtod).foldl ops.add s.ans)) := by
  induction ws generalizing cs s with
  | nil =>
      have hrun : SumRun ops cs s [] (ops.printF (scanf (sumFormat ops) cs s).store.ans) :=
        LoopRun.eof ((sum_ends_iff cs s).mpr hcs)
      rw [sum_ans] at hrun
      exact ⟨[], hrun⟩
  | cons w ws ih =>
      rw [List.forall_mem_cons] at hws
      have hnumber := numberAt_line hws.1 hcs
      -- the newline is skipped by the next call
      have hnext : skipSpace (newline :: ((lines ws).flatten ++ [])) =
          skipSpace ((lines ws).flatten ++ []) := rfl
      obtain ⟨calls, hrun⟩ := ih hws.2 hnext _
      exact ⟨_, SumRun.number hnumber hrun⟩

/-- A text that no number begins with blocks the input behind the lines. -/
theorem numbersStuck_lines {ws : List Text} (hws : ∀ w ∈ ws, IsFloat w) {cs tail : Text}
    (hcs : skipSpace cs = skipSpace ((lines ws).flatten ++ tail)) (htail : Blocked tail) :
    NumbersStuck cs := by
  induction ws generalizing cs with
  | nil => exact NumbersStuck.here (htail.congr hcs)
  | cons w ws ih =>
      rw [List.forall_mem_cons] at hws
      exact NumbersStuck.number (numberAt_line hws.1 hcs) (ih hws.2 rfl)

/-- No number begins with a `U`. -/
theorem blocked_unrecognizedUnit (m : Byte) : Blocked (unrecognizedUnit m) :=
  blocked_of_first (c := 0x55) rfl (by decide)

theorem map_line (calls : List (ScanCall (Giga D))) :
    calls.map (line ops) = lines ((calls.map stored).map (printed ops)) := by
  rw [lines, List.map_map, List.map_map]
  rfl

end Lines

/-! ## The pipeline -/

section Cell

variable {D : Type} {ops : DoubleOps D} (hprint : ∀ d, IsFloat (ops.printF d))

include hprint

theorem isFloat_printed (numbers : List (D × Byte)) :
    ∀ w ∈ numbers.map (printed ops), IsFloat w := by
  intro w hw
  obtain ⟨number, -, rfl⟩ := List.mem_map.mp hw
  exact hprint _

/-- Where `toG` comes to the end of its input, `get_sum` adds up its lines. -/
theorem exists_sumRun_toG {input : Text} {x₀ : D} {m₀ : Byte} {calls : List (ScanCall (Giga D))}
    {out : List Text} (h : GigaRun ops input { x := x₀, m := m₀, out := [] } calls (out, 0))
    (x₁ : D) :
    ∃ sums, SumRun ops out.flatten { x := x₁, ans := ops.ofNat 0 } sums
      (sumOf ops ((calls.map stored).map (printed ops))) := by
  rcases h.lines with ⟨hr, -⟩ | ⟨front, last, -, -, -, hr⟩
  · cases hr
    rw [List.nil_append, map_line]
    refine exists_sumRun_lines (isFloat_printed hprint (calls.map stored)) ?_ _
    rw [List.append_nil]
  · cases hr

/-- Where `toG` stops earlier, `get_sum` comes to its message. -/
theorem numbersStuck_toG {input : Text} {x₀ : D} {m₀ : Byte} {calls : List (ScanCall (Giga D))}
    {out : List Text} {status : Nat}
    (h : GigaRun ops input { x := x₀, m := m₀, out := [] } calls (out, status))
    (hstatus : status ≠ 0) : NumbersStuck out.flatten := by
  rcases h.lines with ⟨hr, -⟩ | ⟨front, last, -, -, -, hr⟩
  · cases hr
    exact absurd rfl hstatus
  · cases hr
    have hfront := isFloat_printed hprint (front.map stored)
    rw [List.nil_append, map_line, List.flatten_append, List.flatten_singleton]
    exact numbersStuck_lines hfront rfl (blocked_unrecognizedUnit last.store.m)

/-- A cell is printed if and only if `toG` comes to the end of its input; it is the sum of
    what `toG` has printed. -/
theorem tableCell_iff (input : Text) (x₀ : D) (m₀ : Byte) (x₁ : D) (cell : Text) :
    (∃ fuel, tableCell ops fuel input x₀ m₀ x₁ = some cell) ↔
      ∃ calls out, GigaRun ops input { x := x₀, m := m₀, out := [] } calls (out, 0) ∧
        cell = sumOf ops ((calls.map stored).map (printed ops)) := by
  constructor
  · rintro ⟨fuel, h⟩
    obtain ⟨⟨calls, out, status⟩, htoG, hcell⟩ := Option.bind_eq_some_iff.mp h
    obtain ⟨⟨sums, text⟩, hsum, rfl⟩ := Option.map_eq_some_iff.mp hcell
    have hgiga : GigaRun ops input _ calls (out, status) := loopRun_of_readLoop htoG
    have hadds : SumRun ops out.flatten _ sums text := loopRun_of_readLoop hsum
    have hstatus : status = 0 := by
      by_contra hne
      exact (numbersStuck_toG hprint hgiga hne).endless hadds
    rw [hstatus] at hgiga
    obtain ⟨sums', hadds'⟩ := exists_sumRun_toG hprint hgiga x₁
    exact ⟨calls, out, hgiga, (hadds.unique hadds').2⟩
  · rintro ⟨calls, out, hgiga, rfl⟩
    obtain ⟨sums, hadds⟩ := exists_sumRun_toG hprint hgiga x₁
    obtain ⟨enough, htoG⟩ := hgiga.readLoop
    obtain ⟨enough', hsum⟩ := hadds.readLoop
    refine ⟨max enough enough', Option.bind_eq_some_iff.mpr ⟨(calls, out, 0), ?_, ?_⟩⟩
    · exact htoG _ (Nat.le_max_left _ _)
    · exact Option.map_eq_some_iff.mpr ⟨(sums, _), hsum _ (Nat.le_max_right _ _), rfl⟩

end Cell

/-! ## The cells of the table -/

section Rates

variable {D : Type} {ops : DoubleOps D}

/-- The numbers with units are stored, whatever `toG` does behind them. -/
theorem RatesTo.run {tail cs : Text} {rates : List (Text × Byte)} (h : RatesTo tail cs rates)
    {status : Nat} {late : List (D × Byte)}
    (htail : ∀ s : Giga D, ∃ calls out, GigaRun ops tail s calls (out, status) ∧
      calls.map stored = late) (s : Giga D) :
    ∃ calls out, GigaRun ops cs s calls (out, status) ∧
      calls.map stored = rates.map (Prod.map ops.strtod id) ++ late := by
  induction h generalizing s with
  | tail => exact htail s
  | @rate cs item rest m rates hcs hunit _ ih =>
      obtain ⟨calls, out, hrun, hstored⟩ := ih _
      refine ⟨_, out, GigaRun.unit hcs hunit hrun, ?_⟩
      rw [List.map_cons, hstored, giga_unit hcs]
      rfl

variable (hprint : ∀ d, IsFloat (ops.printF d))

include hprint

/-- The cell of bandwidths in K, M and G is their sum in G, each one as printed. -/
theorem tableCell_rates {input tail : Text} {rates : List (Text × Byte)}
    (h : RatesTo tail input rates) (htail : skipSpace tail = []) (x₀ : D) (m₀ : Byte) (x₁ : D) :
    ∃ fuel, tableCell ops fuel input x₀ m₀ x₁ =
      some (sumOf ops (rates.map fun rate => printed ops (ops.strtod rate.1, rate.2))) := by
  have hend : ∀ s : Giga D, ∃ calls out, GigaRun ops tail s calls (out, 0) ∧
      calls.map stored = [] :=
    fun s => ⟨[], _, LoopRun.eof ((giga_ends_iff tail s).mpr htail), rfl⟩
  obtain ⟨calls, out, hrun, hstored⟩ := h.run hend { x := x₀, m := m₀, out := [] }
  refine (tableCell_iff hprint input x₀ m₀ x₁ _).mpr ⟨calls, out, hrun, ?_⟩
  rw [hstored, List.append_nil, List.map_map]
  rfl

end Rates

/-! ## Doubles in millionths -/

/-- Six digits behind the point, as `%f` prints them. -/
def sixDigits (n : Nat) : Text := (decimal (1000000 + n % 1000000)).drop 1

def printMillionths (n : Nat) : Text := decimal (n / 1000000) ++ 0x2e :: sixDigits n

/-- The digits in front of the point, and six behind it. -/
def readMillionths (text : Text) : Nat :=
  let whole := text.takeWhile isDigit
  let behind := (text.drop (whole.length + 1)).take 6
  decimalValue (decimalValue 0 whole) (behind ++ List.replicate (6 - behind.length) 0x30)

/-- Numbers that are not negative, in millionths: exact as long as six digits are enough. -/
def millionths : DoubleOps Nat where
  strtod := readMillionths
  ofNat n := n * 1000000
  add := (· + ·)
  div x y := x * 1000000 / y
  printF := printMillionths

theorem isFloat_printMillionths (n : Nat) : IsFloat (printMillionths n) := by
  have hwhole : FloatText.Digits .dec (decimal (n / 1000000)) := fun c hc =>
    isDigit_of_mem_decimal hc
  have hbehind : FloatText.Digits .dec (sixDigits n) := fun c hc =>
    isDigit_of_mem_decimal (List.mem_of_mem_drop hc)
  have hnumber := @IsFloat.number .dec [] (printMillionths n) [] (Or.inl rfl)
    (Or.inr ⟨_, _, hwhole, hbehind, Or.inl (decimal_ne_nil _), rfl⟩) (Or.inl rfl)
  rwa [List.append_nil, List.nil_append] at hnumber

/-- The lines `1.5G` and `500M`: two gigabytes. -/
theorem tableCell_rates_twoLines :
    ∃ fuel, tableCell millionths fuel
        [0x31, 0x2e, 0x35, charG, newline, 0x35, 0x30, 0x30, charM, newline] 0 0 0 =
      some [0x32, 0x2e, 0x30, 0x30, 0x30, 0x30, 0x30, 0x30] := by
  have hfirst : NumberAt [0x31, 0x2e, 0x35, charG, newline, 0x35, 0x30, 0x30, charM, newline]
      [0x31, 0x2e, 0x35] [charG, newline, 0x35, 0x30, 0x30, charM, newline] :=
    numberAt_of_take (by decide) (by decide)
  have hsecond : NumberAt [newline, 0x35, 0x30, 0x30, charM, newline] [0x35, 0x30, 0x30]
      [charM, newline] :=
    numberAt_of_take (by decide) (by decide)
  have hrates := RatesTo.rate hfirst rfl (RatesTo.rate hsecond rfl RatesTo.tail)
  have hsum : sumOf millionths
      ([([0x31, 0x2e, 0x35], charG), ([0x35, 0x30, 0x30], charM)].map fun rate =>
        printed millionths (millionths.strtod rate.1, rate.2)) =
      [0x32, 0x2e, 0x30, 0x30, 0x30, 0x30, 0x30, 0x30] := by
    decide +kernel
  rw [← hsum]
  exact tableCell_rates isFloat_printMillionths hrates rfl 0 0 0

end GogetaTools.Filters
