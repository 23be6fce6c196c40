/-
  GogetaTools.Filters.UnitFilters

  `get_sum` and `toG`, the filters behind the bandwidth tables.

  Both read with `while (~scanf(..))`, which ends at `EOF` only.  Where something is left
  that is no number, `scanf` returns 0 and stores nothing, and the body runs once more
  with the old values; if the character at hand cannot begin a number, this goes on
  forever (`getSum_ends_iff`, `toG_ends_iff`).  So `get_sum` ends and uses each number once
  if the input has nothing but numbers, and `toG` if a unit follows each number up to the
  first one it rejects (`unitFilters_iff`).

  `double` is left open: `DoubleOps` has the operations that the filters use.
-/

import GogetaTools.Lib.ScanLoop
import GogetaTools.Words

namespace GogetaTools.Filters

open Stdio
open FloatText (IsFloat IsItem)

/-- `double`: the value of a text, integers, the arithmetic, and the text for `%f`. -/
structure DoubleOps (D : Type) where
  strtod : Text → D
  ofNat : Nat → D
  add : D → D → D
  div : D → D → D
  printF : D → Text

section Programs

variable {D : Type} (ops : DoubleOps D)

/-! ## get_sum -/

/-- The variables of `get_sum`. -/
structure Sum (D : Type) where
  x : D
  ans : D

def sumFormat : List (Conversion (Sum D)) := [.lf fun text s => { s with x := ops.strtod text }]

/-- `ans += x`. -/
def sumBody (s : Sum D) : Sum D ⊕ Text := .inl { s with ans := ops.add s.ans s.x }

/-- `get_sum`, `fuel` turns at most, with the calls of `scanf`; `x₀` is what `x` holds
    before the first one. -/
def getSum (fuel : Nat) (input : Text) (x₀ : D) : Option (List (ScanCall (Sum D)) × Text) :=
  readLoop (sumFormat ops) (sumBody ops) (fun s => ops.printF s.ans) fuel input
    { x := x₀, ans := ops.ofNat 0 }

/-! ## toG -/

def charK : Byte := 0x4b

def charM : Byte := 0x4d

def charG : Byte := 0x47

/-- The variables of `toG`, and the texts it has printed. -/
structure Giga (D : Type) where
  x : D
  m : Byte
  out : List Text

def gigaFormat : List (Conversion (Giga D)) :=
  [.lf fun text s => { s with x := ops.strtod text }, .chr fun c s => { s with m := c }]

/-- `printf("Unrecognized unit %c!\n", m)`. -/
def unrecognizedUnit (m : Byte) : Text :=
  [0x55, 0x6e, 0x72, 0x65, 0x63, 0x6f, 0x67, 0x6e, 0x69, 0x7a, 0x65, 0x64, 0x20, 0x75, 0x6e, 0x69,
    0x74, 0x20] ++ [m] ++ [0x21, newline]

/-- `printf("%f\n", x)`, once `x` has its new value. -/
def Giga.print (s : Giga D) (x : D) : Giga D :=
  { s with x := x, out := s.out ++ [ops.printF x ++ [newline]] }

/-- The body of the loop; it returns the printed texts and the exit status. -/
def gigaBody (s : Giga D) : Giga D ⊕ (List Text × Nat) :=
  if charK = s.m then .inl (s.print ops (ops.div s.x (ops.ofNat 1000000)))
  else if charM = s.m then .inl (s.print ops (ops.div s.x (ops.ofNat 1000)))
  else if charG ≠ s.m then .inr (s.out ++ [unrecognizedUnit s.m], 1)
  else .inl (s.print ops s.x)

/-- `toG`, `fuel` turns at most; `x₀` and `m₀` are what `x` and `m` hold before the
    first call. -/
def toG (fuel : Nat) (input : Text) (x₀ : D) (m₀ : Byte) :
    Option (List (ScanCall (Giga D)) × List Text × Nat) :=
  readLoop (gigaFormat ops) (gigaBody ops) (fun s => (s.out, 0)) fuel input
    { x := x₀, m := m₀, out := [] }

/-! ## Using each number once -/

/-- The calls that stored a number. -/
def parsed {S : Type} (calls : List (ScanCall S)) : List (ScanCall S) := calls.filter (·.ret ≠ 0)

/-- The loop of `get_sum` ends, what it adds up in turn are the numbers that the calls
    have stored, and their sum is printed. -/
def GetSumOnce (input : Text) (x₀ : D) : Prop :=
  ∃ fuel calls out, getSum ops fuel input x₀ = some (calls, out) ∧
    calls.map (·.store.x) = (parsed calls).map (·.store.x) ∧
    out = ops.printF (((parsed calls).map (·.store.x)).foldl ops.add (ops.ofNat 0))

def isUnit (m : Byte) : Bool := m = charK ∨ m = charM ∨ m = charG

/-- A number in units of G. -/
def toUnitG (m : Byte) (x : D) : D :=
  if charK = m then ops.div x (ops.ofNat 1000000)
  else if charM = m then ops.div x (ops.ofNat 1000)
  else x

/-- The line for what a call has stored. -/
def line (call : ScanCall (Giga D)) : Text :=
  ops.printF (toUnitG ops call.store.m call.store.x) ++ [newline]

/-- The loop of `toG` ends.  At the end of the input the lines are those of the numbers
    that the calls have stored; where a unit is rejected, they are those of the numbers
    that had a unit, and a message follows. -/
def ToGOnce (input : Text) (x₀ : D) (m₀ : Byte) : Prop :=
  ∃ fuel calls out status, toG ops fuel input x₀ m₀ = some (calls, out, status) ∧
    ((status = 0 ∧ out = (parsed calls).map (line ops)) ∨
      (status = 1 ∧ ∃ m, isUnit m = false ∧
        out = ((parsed calls).filter (isUnit ·.store.m)).map (line ops) ++ [unrecognizedUnit m]))

end Programs

/-! ## The inputs -/

/-- Numbers with white space between them, or none where one number ends by itself, and
    white space behind them. -/
inductive NumbersOnly : Text → Prop
  | blank {cs : Text} : skipSpace cs = [] → NumbersOnly cs
  | number {cs item rest : Text} : NumberAt cs item rest → NumbersOnly rest → NumbersOnly cs

/-- Numbers with units, up to white space at the end, a number at the very end, or a
    number with a character that is no unit. -/
inductive UnitsOnly : Text → Prop
  | blank {cs : Text} : skipSpace cs = [] → UnitsOnly cs
  | last {cs item : Text} : NumberAt cs item [] → UnitsOnly cs
  | unit {cs item rest : Text} {m : Byte} : NumberAt cs item (m :: rest) → isUnit m = true →
      UnitsOnly rest → UnitsOnly cs
  | rejected {cs item rest : Text} {m : Byte} : NumberAt cs item (m :: rest) → isUnit m = false →
      UnitsOnly cs

/-- The first call finds no number, though something is left. -/
def NoNumber (cs : Text) : Prop := ∃ item rest, MismatchAt cs item rest

/-- `get_sum` comes to a character that cannot begin a number. -/
inductive NumbersStuck : Text → Prop
  | here {cs : Text} : Blocked cs → NumbersStuck cs
  | number {cs item rest : Text} : NumberAt cs item rest → NumbersStuck rest → NumbersStuck cs
  | mismatch {cs item rest : Text} : MismatchAt cs item rest → NumbersStuck rest → NumbersStuck cs

/-- `toG`, with a unit in `m`, comes to a character that cannot begin a number. -/
inductive UnitsStuck : Text → Prop
  | here {cs : Text} : Blocked cs → UnitsStuck cs
  | unit {cs item rest : Text} {m : Byte} : NumberAt cs item (m :: rest) → isUnit m = true →
      UnitsStuck rest → UnitsStuck cs
  | mismatch {cs item rest : Text} : MismatchAt cs item rest → UnitsStuck rest → UnitsStuck cs

/-! ## The calls -/

section Calls

variable {D : Type} {ops : DoubleOps D}

theorem sum_eof {cs : Text} (h : skipSpace cs = []) (s : Sum D) :
    scanf (sumFormat ops) cs s = { ret := EOF, store := s, rest := [] } :=
  scanf_lf_end h _ [] s

theorem sum_number {cs item rest : Text} (h : NumberAt cs item rest) (s : Sum D) :
    scanf (sumFormat ops) cs s =
      { ret := 1, store := { s with x := ops.strtod item }, rest := rest } :=
  scanf_lf_number h _ [] s

theorem sum_mismatch {cs item rest : Text} (h : MismatchAt cs item rest) (s : Sum D) :
    scanf (sumFormat ops) cs s = { ret := 0, store := s, rest := rest } :=
  scanf_lf_mismatch h _ [] s

theorem giga_eof {cs : Text} (h : skipSpace cs = []) (s : Giga D) :
    scanf (gigaFormat ops) cs s = { ret := EOF, store := s, rest := [] } :=
  scanf_lf_end h _ _ s

/-- A number at the end of the input: `m` keeps its value. -/
theorem giga_last {cs item : Text} (h : NumberAt cs item []) (s : Giga D) :
    scanf (gigaFormat ops) cs s = { ret := 1, store := { s with x := ops.strtod item }, rest := [] } :=
  scanf_lf_number h _ _ s

theorem giga_unit {cs item rest : Text} {m : Byte} (h : NumberAt cs item (m :: rest)) (s : Giga D) :
    scanf (gigaFormat ops) cs s =
      { ret := 2, store := { s with x := ops.strtod item, m := m }, rest := rest } :=
  scanf_lf_number h _ _ s

theorem giga_mismatch {cs item rest : Text} (h : MismatchAt cs item rest) (s : Giga D) :
    scanf (gigaFormat ops) cs s = { ret := 0, store := s, rest := rest } :=
  scanf_lf_mismatch h _ _ s

/-- The loop goes on wherever something but white space is left. -/
theorem sum_ends_iff (cs : Text) (s : Sum D) :
    ~~~(scanf (sumFormat ops) cs s).ret = 0 ↔ skipSpace cs = [] :=
  scanf_lf_eof_iff _ [] (show 1 < 2 ^ 32 - 1 by decide) cs s

theorem giga_ends_iff (cs : Text) (s : Giga D) :
    ~~~(scanf (gigaFormat ops) cs s).ret = 0 ↔ skipSpace cs = [] :=
  @scanf_lf_eof_iff (Giga D) (fun text s => { s with x := ops.strtod text })
    [.chr fun c s => { s with m := c }] (show 2 < 2 ^ 32 - 1 by decide) cs s

/-- `get_sum` stores in `x` only. -/
theorem sum_ans (cs : Text) (s : Sum D) : (scanf (sumFormat ops) cs s).store.ans = s.ans := by
  rcases stream_cases cs with h | ⟨item, rest, h⟩ | ⟨item, rest, h⟩
  · rw [sum_eof h]
  · rw [sum_number h]
  · rw [sum_mismatch h]

theorem giga_out (cs : Text) (s : Giga D) : (scanf (gigaFormat ops) cs s).store.out = s.out := by
  rcases stream_cases cs with h | ⟨item, rest, h⟩ | ⟨item, rest, h⟩
  · rw [giga_eof h]
  · cases rest with
    | nil => rw [giga_last h]
    | cons m rest => rw [giga_unit h]
  · rw [giga_mismatch h]

theorem gigaBody_eq (s : Giga D) : gigaBody ops s =
    if isUnit s.m then .inl (s.print ops (toUnitG ops s.m s.x))
    else .inr (s.out ++ [unrecognizedUnit s.m], 1) := by
  rw [gigaBody, toUnitG]
  by_cases hK : charK = s.m
  · have hunit : isUnit s.m = true := by rw [← hK]; rfl
    rw [if_pos hK, if_pos hK, if_pos hunit]
  · rw [if_neg hK, if_neg hK]
    by_cases hM : charM = s.m
    · have hunit : isUnit s.m = true := by rw [← hM]; rfl
      rw [if_pos hM, if_pos hM, if_pos hunit]
    · rw [if_neg hM, if_neg hM]
      by_cases hG : charG = s.m
      · have hunit : isUnit s.m = true := by rw [← hG]; rfl
        rw [if_neg (not_not_intro hG), if_pos hunit]
      · have hunit : ¬ isUnit s.m = true := by
          rw [isUnit, decide_eq_true_eq]
          rintro (h | h | h)
          · exact hK h.symm
          · exact hM h.symm
          · exact hG h.symm
        rw [if_pos hG, if_neg hunit]

end Calls

/-! ## get_sum: the runs -/

section SumRuns

variable {D : Type} {ops : DoubleOps D}

/-- A run of the loop of `get_sum`. -/
abbrev SumRun (ops : DoubleOps D) (cs : Text) (s : Sum D) (calls : List (ScanCall (Sum D)))
    (out : Text) : Prop :=
  LoopRun (sumFormat ops) (sumBody ops) (fun s => ops.printF s.ans) cs s calls out

/-- A turn with a number. -/
theorem SumRun.number {cs item rest : Text} (hcs : NumberAt cs item rest) {s : Sum D}
    {calls : List (ScanCall (Sum D))} {out : Text}
    (h : SumRun ops rest { x := ops.strtod item, ans := ops.add s.ans (ops.strtod item) } calls out) :
    SumRun ops cs s (scanf (sumFormat ops) cs s :: calls) out := by
  refine LoopRun.again (mt (sum_ends_iff cs s).mp hcs.left) rfl ?_
  rw [sum_number hcs]
  exact h

/-- A turn without a number adds the old one. -/
theorem SumRun.mismatch {cs item rest : Text} (hcs : MismatchAt cs item rest) {s : Sum D}
    {calls : List (ScanCall (Sum D))} {out : Text}
    (h : SumRun ops rest { s with ans := ops.add s.ans s.x } calls out) :
    SumRun ops cs s (scanf (sumFormat ops) cs s :: calls) out := by
  refine LoopRun.again (mt (sum_ends_iff cs s).mp hcs.left) rfl ?_
  rw [sum_mismatch hcs]
  exact h

/-- What a run prints is the sum of what `x` holds after each call. -/
theorem SumRun.adds {cs : Text} {s : Sum D} {calls : List (ScanCall (Sum D))} {out : Text}
    (h : SumRun ops cs s calls out) :
    out = ops.printF ((calls.map (·.store.x)).foldl ops.add s.ans) := by
  induction h with
  | @eof cs s _ => rw [sum_ans]; rfl
  | done _ hbody => cases hbody
  | @again cs s s' calls out _ hbody _ ih =>
      cases hbody
      rw [ih, sum_ans]
      rfl

/-- A run whose calls all store a number has an input of numbers. -/
theorem SumRun.numbersOnly {cs : Text} {s : Sum D} {calls : List (ScanCall (Sum D))} {out : Text}
    (h : SumRun ops cs s calls out) (hstored : ∀ call ∈ calls, call.ret ≠ 0) : NumbersOnly cs := by
  induction h with
  | @eof cs s heof => exact NumbersOnly.blank ((sum_ends_iff cs s).mp heof)
  | done _ hbody => cases hbody
  | @again cs s s' calls out hnot _ _ ih =>
      rw [List.forall_mem_cons] at hstored
      rcases stream_cases cs with hcs | ⟨item, rest, hcs⟩ | ⟨item, rest, hcs⟩
      · exact NumbersOnly.blank hcs
      · have hrest := ih hstored.2
        rw [sum_number hcs] at hrest
        exact NumbersOnly.number hcs hrest
      · rw [sum_mismatch hcs] at hstored
        exact absurd rfl hstored.1

/-- Numbers are read to the end of the input. -/
theorem NumbersOnly.run {cs : Text} (h : NumbersOnly cs) (s : Sum D) :
    ∃ calls out, SumRun ops cs s calls out ∧ ∀ call ∈ calls, call.ret ≠ 0 := by
  induction h generalizing s with
  | @blank cs hcs => exact ⟨[], _, LoopRun.eof ((sum_ends_iff cs s).mpr hcs), by simp⟩
  | @number cs item rest hcs _ ih =>
      obtain ⟨calls, out, hrun, hstored⟩ := ih _
      refine ⟨_, out, SumRun.number hcs hrun, List.forall_mem_cons.mpr ⟨?_, hstored⟩⟩
      rw [sum_number hcs]
      exact (by decide : (1 : BitVec 32) ≠ 0)

/-- All calls have stored a number if they are as many as the numbers. -/
theorem map_parsed_iff {S α : Type} (calls : List (ScanCall S)) (f : ScanCall S → α) :
    calls.map f = (parsed calls).map f ↔ ∀ call ∈ calls, call.ret ≠ 0 := by
  constructor
  · intro h
    have hlen := congrArg List.length h
    rw [List.length_map, List.length_map, parsed, eq_comm, List.length_filter_eq_length_iff] at hlen
    exact fun call hcall => of_decide_eq_true (hlen call hcall)
  · intro h
    rw [parsed, List.filter_eq_self.mpr fun call hcall => decide_eq_true (h call hcall)]

theorem getSumOnce_iff (ops : DoubleOps D) (input : Text) (x₀ : D) :
    GetSumOnce ops input x₀ ↔ NumbersOnly input := by
  constructor
  · rintro ⟨fuel, calls, out, hrun, hstored, -⟩
    exact SumRun.numbersOnly (loopRun_of_readLoop hrun) ((map_parsed_iff calls _).mp hstored)
  · intro h
    obtain ⟨calls, out, hrun, hstored⟩ := h.run { x := x₀, ans := ops.ofNat 0 }
    obtain ⟨fuel, hloop⟩ := readLoop_iff_loopRun.mpr hrun
    have hmap := (map_parsed_iff calls (·.store.x)).mpr hstored
    refine ⟨fuel, calls, out, hloop, hmap, ?_⟩
    rw [← hmap]
    exact SumRun.adds hrun

theorem NumbersStuck.endless {cs : Text} (h : NumbersStuck cs) {s : Sum D}
    {calls : List (ScanCall (Sum D))} {out : Text} : ¬ SumRun ops cs s calls out := by
  refine LoopRun.endless (I := fun cs _ => NumbersStuck cs) ?_ h
  intro cs s h
  cases h with
  | here hcs =>
      refine ⟨mt (sum_ends_iff cs s).mp hcs.left, _, rfl, ?_⟩
      rw [sum_mismatch hcs]
      exact NumbersStuck.here hcs.stays
  | number hcs hrest =>
      refine ⟨mt (sum_ends_iff cs s).mp hcs.left, _, rfl, ?_⟩
      rw [sum_number hcs]
      exact hrest
  | mismatch hcs hrest =>
      refine ⟨mt (sum_ends_iff cs s).mp hcs.left, _, rfl, ?_⟩
      rw [sum_mismatch hcs]
      exact hrest

theorem exists_sumRun {cs : Text} (h : ¬ NumbersStuck cs) (s : Sum D) :
    ∃ calls out, SumRun ops cs s calls out := by
  -- each call takes something, so the input gets shorter
  induction hn : cs.length using Nat.strong_induction_on generalizing cs s with
  | _ n ih =>
      rcases stream_cases cs with hcs | ⟨item, rest, hcs⟩ | ⟨item, rest, hcs⟩
      · exact ⟨[], _, LoopRun.eof ((sum_ends_iff cs s).mpr hcs)⟩
      · obtain ⟨calls, out, hrun⟩ := ih rest.length (hn ▸ hcs.length_lt)
          (fun hstuck => h (NumbersStuck.number hcs hstuck)) _ rfl
        exact ⟨_, out, SumRun.number hcs hrun⟩
      · have hnot : ¬ Blocked cs := fun hblocked => h (NumbersStuck.here hblocked)
        obtain ⟨calls, out, hrun⟩ := ih rest.length (hn ▸ hcs.length_lt hnot)
          (fun hstuck => h (NumbersStuck.mismatch hcs hstuck)) _ rfl
        exact ⟨_, out, SumRun.mismatch hcs hrun⟩

/-- `get_sum` ends unless it comes to a character that cannot begin a number. -/
theorem getSum_ends_iff (ops : DoubleOps D) (input : Text) (x₀ : D) :
    (∃ fuel, (getSum ops fuel input x₀).isSome = true) ↔ ¬ NumbersStuck input := by
  constructor
  · rintro ⟨fuel, hsome⟩ hstuck
    obtain ⟨⟨calls, out⟩, hrun⟩ := Option.isSome_iff_exists.mp hsome
    exact hstuck.endless (loopRun_of_readLoop hrun)
  · intro h
    obtain ⟨calls, out, hrun⟩ := @exists_sumRun D ops input h { x := x₀, ans := ops.ofNat 0 }
    obtain ⟨fuel, hloop⟩ := readLoop_iff_loopRun.mpr hrun
    exact ⟨fuel, Option.isSome_iff_exists.mpr ⟨_, hloop⟩⟩

end SumRuns

/-! ## toG: the runs -/

section GigaRuns

variable {D : Type} {ops : DoubleOps D}

/-- A run of the loop of `toG`. -/
abbrev GigaRun (ops : DoubleOps D) (cs : Text) (s : Giga D) (calls : List (ScanCall (Giga D)))
    (r : List Text × Nat) : Prop :=
  LoopRun (gigaFormat ops) (gigaBody ops) (fun s => (s.out, 0)) cs s calls r

theorem gigaBody_unit {s : Giga D} (h : isUnit s.m = true) :
    gigaBody ops s = .inl (s.print ops (toUnitG ops s.m s.x)) := by
  rw [gigaBody_eq, if_pos h]

theorem gigaBody_rejected {s : Giga D} (h : isUnit s.m = false) :
    gigaBody ops s = .inr (s.out ++ [unrecognizedUnit s.m], 1) := by
  rw [gigaBody_eq, h, if_neg Bool.false_ne_true]

/-- The body prints the line of the call and keeps a unit in `m`, or it returns. -/
theorem gigaBody_cases {s s' : Giga D} (h : gigaBody ops s = .inl s') :
    isUnit s.m = true ∧ s' = s.print ops (toUnitG ops s.m s.x) := by
  cases hunit : isUnit s.m with
  | true =>
      rw [gigaBody_unit hunit] at h
      cases h
      exact ⟨rfl, rfl⟩
  | false =>
      rw [gigaBody_rejected hunit] at h
      cases h

/-- A turn with a unit. -/
theorem GigaRun.unit {cs item rest : Text} {m : Byte} (hcs : NumberAt cs item (m :: rest))
    (hunit : isUnit m = true) {s : Giga D} {calls : List (ScanCall (Giga D))} {r : List Text × Nat}
    (h : GigaRun ops rest (Giga.print ops { s with x := ops.strtod item, m := m }
      (toUnitG ops m (ops.strtod item))) calls r) :
    GigaRun ops cs s (scanf (gigaFormat ops) cs s :: calls) r := by
  have hcall := @giga_unit D ops cs item rest m hcs s
  have hm : isUnit (scanf (gigaFormat ops) cs s).store.m = true := by
    rw [hcall]
    exact hunit
  refine LoopRun.again (mt (giga_ends_iff cs s).mp hcs.left) (gigaBody_unit hm) ?_
  rw [hcall]
  exact h

/-- What a run prints: a line for each call, or for each but the last and a message. -/
theorem GigaRun.lines {cs : Text} {s : Giga D} {calls : List (ScanCall (Giga D))}
    {r : List Text × Nat} (h : GigaRun ops cs s calls r) :
    (r = (s.out ++ calls.map (line ops), 0) ∧ ∀ call ∈ calls, isUnit call.store.m = true) ∨
    ∃ front last, calls = front ++ [last] ∧ (∀ call ∈ front, isUnit call.store.m = true) ∧
      isUnit last.store.m = false ∧
      r = (s.out ++ front.map (line ops) ++ [unrecognizedUnit last.store.m], 1) := by
  induction h with
  | @eof cs s _ =>
      left
      rw [giga_out, List.map_nil, List.append_nil]
      exact ⟨rfl, by simp⟩
  | @done cs s r _ hbody =>
      right
      cases hunit : isUnit (scanf (gigaFormat ops) cs s).store.m with
      | true =>
          rw [gigaBody_unit hunit] at hbody
          cases hbody
      | false =>
          rw [gigaBody_rejected hunit, giga_out] at hbody
          cases hbody
          exact ⟨[], _, rfl, by simp, hunit, by simp⟩
  | @again cs s s' calls r _ hbody _ ih =>
      -- the line of this call goes in front of those of the rest
      obtain ⟨hunit, rfl⟩ := gigaBody_cases hbody
      have hout : ((scanf (gigaFormat ops) cs s).store.print ops (toUnitG ops
          (scanf (gigaFormat ops) cs s).store.m (scanf (gigaFormat ops) cs s).store.x)).out =
          s.out ++ [line ops (scanf (gigaFormat ops) cs s)] := by
        rw [Giga.print, giga_out]
        rfl
      rw [hout] at ih
      rcases ih with ⟨rfl, hall⟩ | ⟨front, last, rfl, hfront, hlast, rfl⟩
      · exact Or.inl ⟨by simp, List.forall_mem_cons.mpr ⟨hunit, hall⟩⟩
      · exact Or.inr ⟨_ :: front, last, rfl, List.forall_mem_cons.mpr ⟨hunit, hfront⟩, hlast, by simp⟩

/-- A turn that goes on leaves a unit in `m`: if it has stored a number and units follow the
    numbers behind it, they do from here on. -/
theorem unitsOnly_of_turn (ops : DoubleOps D) {cs : Text} {s : Giga D}
    (hgoes : isUnit (scanf (gigaFormat ops) cs s).store.m = true →
      (scanf (gigaFormat ops) cs s).ret ≠ 0 ∧ UnitsOnly (scanf (gigaFormat ops) cs s).rest) :
    UnitsOnly cs ∨ (isUnit s.m = false ∧ NoNumber cs) := by
  rcases stream_cases cs with hcs | ⟨item, rest, hcs⟩ | ⟨item, rest, hcs⟩
  · exact Or.inl (UnitsOnly.blank hcs)
  · left
    cases rest with
    | nil => exact UnitsOnly.last hcs
    | cons m rest =>
        rw [giga_unit hcs] at hgoes
        cases hunit : isUnit m with
        | true => exact UnitsOnly.unit hcs hunit (hgoes hunit).2
        | false => exact UnitsOnly.rejected hcs hunit
  · -- nothing is stored, so the turn must not go on
    right
    rw [giga_mismatch hcs] at hgoes
    cases hunit : isUnit s.m with
    | true => exact absurd rfl (hgoes hunit).1
    | false => exact ⟨rfl, item, rest, hcs⟩

/-- A run that prints for stored numbers only has an input of numbers with units, or it
    rejects what `m` held. -/
theorem GigaRun.unitsOnly {cs : Text} {s : Giga D} {calls : List (ScanCall (Giga D))}
    {r : List Text × Nat} (h : GigaRun ops cs s calls r)
    (hstored : ∀ call ∈ calls, isUnit call.store.m = true → call.ret ≠ 0) :
    UnitsOnly cs ∨ (isUnit s.m = false ∧ NoNumber cs) := by
  induction h with
  | @eof cs s heof => exact Or.inl (UnitsOnly.blank ((giga_ends_iff cs s).mp heof))
  | @done cs s r _ hbody =>
      refine unitsOnly_of_turn ops fun hunit => ?_
      rw [gigaBody_unit hunit] at hbody
      cases hbody
  | @again cs s s' calls r _ hbody _ ih =>
      rw [List.forall_mem_cons] at hstored
      obtain ⟨hunit, rfl⟩ := gigaBody_cases hbody
      refine unitsOnly_of_turn ops fun _ => ⟨hstored.1 hunit, ?_⟩
      -- with a unit in `m` only the first alternative is left
      rcases ih hstored.2 with hrest | ⟨hno, -⟩
      · exact hrest
      · exact absurd (hunit.symm.trans hno) (by decide)

/-- A run of which every line is that of a stored number. -/
def StoredRun (ops : DoubleOps D) (cs : Text) (s : Giga D) : Prop :=
  ∃ calls r, GigaRun ops cs s calls r ∧
    ∀ call ∈ calls, isUnit call.store.m = true → call.ret ≠ 0

/-- The call leaves no unit in `m`: the run ends. -/
theorem storedRun_rejected {cs : Text} {s : Giga D} (hleft : skipSpace cs ≠ [])
    (hm : isUnit (scanf (gigaFormat ops) cs s).store.m = false) : StoredRun ops cs s := by
  have hnot := mt (@giga_ends_iff D ops cs s).mp hleft
  refine ⟨_, _, LoopRun.done hnot (gigaBody_rejected hm), fun call hcall hunit => ?_⟩
  rw [List.mem_singleton.mp hcall, hm] at hunit
  cases hunit

/-- The call stores a number with a unit: the run goes on. -/
theorem storedRun_unit {cs : Text} {s : Giga D} (hleft : skipSpace cs ≠ [])
    (hm : isUnit (scanf (gigaFormat ops) cs s).store.m = true)
    (hret : (scanf (gigaFormat ops) cs s).ret ≠ 0)
    (hrest : ∀ s', StoredRun ops (scanf (gigaFormat ops) cs s).rest s') : StoredRun ops cs s := by
  have hnot := mt (@giga_ends_iff D ops cs s).mp hleft
  obtain ⟨calls, r, hrun, hstored⟩ := hrest _
  exact ⟨_, r, LoopRun.again hnot (gigaBody_unit hm) hrun,
    List.forall_mem_cons.mpr ⟨fun _ => hret, hstored⟩⟩

theorem storedRun_blank {cs : Text} (h : skipSpace cs = []) (s : Giga D) : StoredRun ops cs s :=
  ⟨[], _, LoopRun.eof ((giga_ends_iff cs s).mpr h), by simp⟩

theorem UnitsOnly.run {cs : Text} (h : UnitsOnly cs) (s : Giga D) : StoredRun ops cs s := by
  induction h generalizing s with
  | blank hcs => exact storedRun_blank hcs s
  | @last cs item hcs =>
      have hcall := @giga_last D ops cs item hcs s
      -- the unit is the one of the number before, or what `m` held at the beginning
      cases hunit : isUnit s.m with
      | true =>
          refine storedRun_unit hcs.left ?_ ?_ ?_
          · rw [hcall]
            exact hunit
          · rw [hcall]
            exact (by decide : (1 : BitVec 32) ≠ 0)
          · rw [hcall]
            exact storedRun_blank rfl
      | false =>
          refine storedRun_rejected hcs.left ?_
          rw [hcall]
          exact hunit
  | @unit cs item rest m hcs hunit _ ih =>
      have hcall := @giga_unit D ops cs item rest m hcs s
      refine storedRun_unit hcs.left ?_ ?_ ?_
      · rw [hcall]
        exact hunit
      · rw [hcall]
        exact (by decide : (2 : BitVec 32) ≠ 0)
      · rw [hcall]
        exact ih
  | @rejected cs item rest m hcs hunit =>
      refine storedRun_rejected hcs.left ?_
      rw [giga_unit hcs]
      exact hunit

theorem storedRun_noNumber {cs : Text} (h : NoNumber cs) {s : Giga D} (hm : isUnit s.m = false) :
    StoredRun ops cs s := by
  obtain ⟨item, rest, hcs⟩ := h
  refine storedRun_rejected hcs.left ?_
  rw [giga_mismatch hcs]
  exact hm

/-- In front of a rejected unit the lines are those of the stored numbers with a unit if
    every call has stored one. -/
theorem map_filter_parsed_iff {front : List (ScanCall (Giga D))} {last : ScanCall (Giga D)}
    (hfront : ∀ call ∈ front, isUnit call.store.m = true) (hlast : isUnit last.store.m = false) :
    front.map (line ops) =
        ((parsed (front ++ [last])).filter (isUnit ·.store.m)).map (line ops) ↔
      ∀ call ∈ front, call.ret ≠ 0 := by
  have hnone : (parsed [last]).filter (isUnit ·.store.m) = [] := by
    rw [List.filter_eq_nil_iff]
    intro call hcall hunit
    rw [List.mem_singleton.mp (List.mem_of_mem_filter hcall), hlast] at hunit
    cases hunit
  have hall : (parsed front).filter (isUnit ·.store.m) = parsed front := by
    rw [List.filter_eq_self]
    exact fun call hcall => hfront call (List.mem_of_mem_filter hcall)
  have hfilter : (parsed (front ++ [last])).filter (isUnit ·.store.m) = parsed front := by
    rw [parsed, List.filter_append, List.filter_append]
    exact (congrArg₂ (· ++ ·) hall hnone).trans (List.append_nil _)
  rw [hfilter]
  exact map_parsed_iff front (line ops)

theorem toGOnce_iff_storedRun (input : Text) (x₀ : D) (m₀ : Byte) :
    ToGOnce ops input x₀ m₀ ↔ StoredRun ops input { x := x₀, m := m₀, out := [] } := by
  constructor
  · rintro ⟨fuel, calls, out, status, hrun, honce⟩
    have hrun : GigaRun ops _ _ calls (out, status) := loopRun_of_readLoop hrun
    refine ⟨calls, (out, status), hrun, ?_⟩
    rcases hrun.lines with ⟨hr, hall⟩ | ⟨front, last, rfl, hfront, hlast, hr⟩
    · cases hr
      rcases honce with ⟨-, hout⟩ | ⟨hstatus, -⟩
      · exact fun call hcall _ => (map_parsed_iff calls (line ops)).mp hout call hcall
      · cases hstatus
    · cases hr
      rcases honce with ⟨hstatus, -⟩ | ⟨-, m, -, hout⟩
      · cases hstatus
      · -- the last call is the rejected one, which prints no line
        rw [List.nil_append] at hout
        have hmap := (List.append_inj' hout rfl).1
        have hfrontStored := (map_filter_parsed_iff hfront hlast).mp hmap
        intro call hcall hunit
        rcases List.mem_append.mp hcall with hcall | hcall
        · exact hfrontStored call hcall
        · rw [List.mem_singleton.mp hcall, hlast] at hunit
          cases hunit
  · rintro ⟨calls, ⟨out, status⟩, hrun, hstored⟩
    obtain ⟨fuel, hloop⟩ := readLoop_iff_loopRun.mpr hrun
    refine ⟨fuel, calls, out, status, hloop, ?_⟩
    rcases GigaRun.lines hrun with ⟨hr, hall⟩ | ⟨front, last, rfl, hfront, hlast, hr⟩
    · cases hr
      left
      refine ⟨rfl, ?_⟩
      exact (map_parsed_iff calls (line ops)).mpr fun call hcall => hstored call hcall (hall call hcall)
    · cases hr
      right
      refine ⟨rfl, last.store.m, hlast, ?_⟩
      have hfrontStored : ∀ call ∈ front, call.ret ≠ 0 := fun call hcall =>
        hstored call (List.mem_append_left _ hcall) (hfront call hcall)
      rw [List.nil_append, (map_filter_parsed_iff hfront hlast).mpr hfrontStored]

theorem toGOnce_iff (ops : DoubleOps D) (input : Text) (x₀ : D) (m₀ : Byte) :
    ToGOnce ops input x₀ m₀ ↔ UnitsOnly input ∨ (isUnit m₀ = false ∧ NoNumber input) := by
  rw [toGOnce_iff_storedRun]
  constructor
  · rintro ⟨calls, r, hrun, hstored⟩
    exact GigaRun.unitsOnly hrun hstored
  · rintro (h | ⟨hm, h⟩)
    · exact h.run _
    · exact storedRun_noNumber h hm

/-- `5M7`, with texts for doubles: the number at the very end has the unit in front of it. -/
example : (toG (D := Text) ⟨id, fun _ => [], (· ++ ·), fun x _ => x ++ [0x2f], id⟩ 3
    [0x35, 0x4d, 0x37] [] 0).map (·.2) = some ([[0x35, 0x2f, newline], [0x37, 0x2f, newline]], 0) := by
  decide

theorem UnitsStuck.endless {cs : Text} (h : UnitsStuck cs) {s : Giga D}
    (hm : isUnit s.m = true ∨ ¬ NoNumber cs) {calls : List (ScanCall (Giga D))}
    {r : List Text × Nat} : ¬ GigaRun ops cs s calls r := by
  refine LoopRun.endless
    (I := fun cs s => UnitsStuck cs ∧ (isUnit s.m = true ∨ ¬ NoNumber cs)) ?_ ⟨h, hm⟩
  rintro cs s ⟨hstuck, hm⟩
  cases hstuck with
  | here hcs =>
      have hunit := hm.resolve_right (not_not_intro ⟨_, _, hcs⟩)
      refine ⟨mt (giga_ends_iff cs s).mp hcs.left, ?_⟩
      rw [giga_mismatch hcs]
      exact ⟨_, gigaBody_unit hunit, UnitsStuck.here hcs.stays, Or.inl hunit⟩
  | unit hcs hunit hrest =>
      refine ⟨mt (giga_ends_iff cs s).mp hcs.left, ?_⟩
      rw [giga_unit hcs]
      exact ⟨_, gigaBody_unit hunit, hrest, Or.inl hunit⟩
  | mismatch hcs hrest =>
      have hunit := hm.resolve_right (not_not_intro ⟨_, _, hcs⟩)
      refine ⟨mt (giga_ends_iff cs s).mp hcs.left, ?_⟩
      rw [giga_mismatch hcs]
      exact ⟨_, gigaBody_unit hunit, hrest, Or.inl hunit⟩

/-- A turn whose unit is rejected ends the run; any other one leaves the rest of it. -/
theorem exists_gigaRun_of_turn {cs : Text} {s : Giga D} (hleft : skipSpace cs ≠ [])
    (hrest : isUnit (scanf (gigaFormat ops) cs s).store.m = true → ∀ s' : Giga D,
      isUnit s'.m = true → ∃ calls r, GigaRun ops (scanf (gigaFormat ops) cs s).rest s' calls r) :
    ∃ calls r, GigaRun ops cs s calls r := by
  have hnot := mt (@giga_ends_iff D ops cs s).mp hleft
  cases hunit : isUnit (scanf (gigaFormat ops) cs s).store.m with
  | true =>
      obtain ⟨calls, r, hrun⟩ := hrest hunit _ (show isUnit (Giga.print ops _ _).m = true from hunit)
      exact ⟨_, r, LoopRun.again hnot (gigaBody_unit hunit) hrun⟩
  | false => exact ⟨_, _, LoopRun.done hnot (gigaBody_rejected hunit)⟩

theorem exists_gigaRun {cs : Text} (h : ¬ UnitsStuck cs) (s : Giga D) :
    ∃ calls r, GigaRun ops cs s calls r := by
  induction hn : cs.length using Nat.strong_induction_on generalizing cs s with
  | _ n ih =>
      rcases stream_cases cs with hcs | ⟨item, rest, hcs⟩ | ⟨item, rest, hcs⟩
      · exact ⟨[], _, LoopRun.eof ((giga_ends_iff cs s).mpr hcs)⟩
      · refine exists_gigaRun_of_turn hcs.left fun hunit s' _ => ?_
        have hlt := hcs.length_lt
        cases rest with
        | nil =>
            rw [giga_last hcs]
            exact ⟨[], _, LoopRun.eof ((giga_ends_iff [] s').mpr rfl)⟩
        | cons m rest =>
            rw [giga_unit hcs] at hunit ⊢
            rw [List.length_cons] at hlt
            exact ih rest.length (by omega)
              (fun hstuck => h (UnitsStuck.unit hcs hunit hstuck)) s' rfl
      · refine exists_gigaRun_of_turn hcs.left fun _ s' _ => ?_
        have hnot : ¬ Blocked cs := fun hblocked => h (UnitsStuck.here hblocked)
        rw [giga_mismatch hcs]
        exact ih rest.length (hn ▸ hcs.length_lt hnot)
          (fun hstuck => h (UnitsStuck.mismatch hcs hstuck)) s' rfl

/-- `toG` ends unless it comes to a character that cannot begin a number, with a unit in
    `m`, which is there from the first number on. -/
theorem toG_ends_iff (ops : DoubleOps D) (input : Text) (x₀ : D) (m₀ : Byte) :
    (∃ fuel, (toG ops fuel input x₀ m₀).isSome = true) ↔
      ¬ UnitsStuck input ∨ (isUnit m₀ = false ∧ NoNumber input) := by
  constructor
  · rintro ⟨fuel, hsome⟩
    obtain ⟨⟨calls, r⟩, hrun⟩ := Option.isSome_iff_exists.mp hsome
    by_contra hnot
    rw [not_or, not_not, not_and_or, Bool.not_eq_false] at hnot
    exact hnot.1.endless hnot.2 (loopRun_of_readLoop hrun)
  · intro h
    have hrun : ∃ calls r, GigaRun ops input { x := x₀, m := m₀, out := [] } calls r := by
      rcases h with h | ⟨hm, h⟩
      · exact exists_gigaRun h _
      · obtain ⟨calls, r, hrun, -⟩ := @storedRun_noNumber D ops input h
          { x := x₀, m := m₀, out := [] } hm
        exact ⟨calls, r, hrun⟩
    obtain ⟨calls, r, hrun⟩ := hrun
    obtain ⟨fuel, hloop⟩ := readLoop_iff_loopRun.mpr hrun
    exact ⟨fuel, Option.isSome_iff_exists.mpr ⟨_, hloop⟩⟩

end GigaRuns

/-- For every input and whatever the variables hold at first: `get_sum` ends and uses each
    number once if and only if the input has nothing but numbers, and `toG` does if and
    only if units follow them, unless it rejects at once what `m` holds. -/
theorem unitFilters_iff {D : Type} (ops : DoubleOps D) (input : Text) (x₀ : D) (m₀ : Byte) :
    (GetSumOnce ops input x₀ ↔ NumbersOnly input) ∧
    (ToGOnce ops input x₀ m₀ ↔ UnitsOnly input ∨ (isUnit m₀ = false ∧ NoNumber input)) :=
  ⟨getSumOnce_iff ops input x₀, toGOnce_iff ops input x₀ m₀⟩

/-- `1Gx`: neither filter ends, whatever the arithmetic and the variables at first. -/
theorem unitFilters_endless :
    ¬ ∃ (D : Type) (ops : DoubleOps D) (x₀ : D) (m₀ : Byte) (fuel : Nat),
      (getSum ops fuel [0x31, 0x47, 0x78] x₀).isSome = true ∨
      (toG ops fuel [0x31, 0x47, 0x78] x₀ m₀).isSome = true := by
  rintro ⟨D, ops, x₀, m₀, fuel, h⟩
  have hnumber : NumberAt [0x31, 0x47, 0x78] [0x31] [0x47, 0x78] :=
    numberAt_of_take (by decide) (by decide)
  rcases h with h | h
  · refine (getSum_ends_iff ops _ x₀).mp ⟨fuel, h⟩ (NumbersStuck.number hnumber ?_)
    exact NumbersStuck.here (blocked_of_first rfl (by decide))
  · have hstuck : UnitsStuck [0x31, 0x47, 0x78] :=
      UnitsStuck.unit hnumber rfl (UnitsStuck.here (blocked_of_first rfl (by decide)))
    rcases (toG_ends_iff ops _ x₀ m₀).mp ⟨fuel, h⟩ with hnot | ⟨-, item, rest, hno⟩
    · exact hnot hstuck
    · -- the first call does find a number
      rw [hno.longest.unique hnumber.longest] at hno
      exact hno.mismatch hnumber.number

end GogetaTools.Filters
