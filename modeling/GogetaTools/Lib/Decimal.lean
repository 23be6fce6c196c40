/-
  GogetaTools.Lib.Decimal

  Numbers in decimal, as text: `%lu` and `%d` of a number that is not negative.

  `decimal` prints and `decimalValue` reads; reading undoes printing
  (`decimalValue_decimal`), so different numbers print differently.
-/

namespace Decimal

/-- The character of a digit. -/
def digitChar (d : Nat) : BitVec 8 := BitVec.ofNat 8 (48 + d)

def isDigit (c : BitVec 8) : Bool := 48 ≤ c.toNat ∧ c.toNat ≤ 57

/-- The digits of `n` in front of `rest`; `fuel` bounds their number. -/
def decimalLoop : Nat → Nat → List (BitVec 8) → List (BitVec 8)
  | 0, _, rest => rest
  | fuel + 1, n, rest =>
      if n < 10 then digitChar n :: rest
      else decimalLoop fuel (n / 10) (digitChar (n % 10) :: rest)

def decimal (n : Nat) : List (BitVec 8) := decimalLoop (n + 1) n []

/-- The number that the digits `cs` continue, `v` having been read. -/
def decimalValue (v : Nat) (cs : List (BitVec 8)) : Nat :=
  cs.foldl (fun v c => 10 * v + (c.toNat - 48)) v

theorem toNat_digitChar {d : Nat} (h : d < 10) : (digitChar d).toNat = 48 + d := by
  rw [digitChar, BitVec.toNat_ofNat]
  omega

theorem isDigit_digitChar {d : Nat} (h : d < 10) : isDigit (digitChar d) = true := by
  simp only [isDigit, toNat_digitChar h, decide_eq_true_eq]
  omega

theorem decimalLoop_isDigit :
    ∀ (fuel n : Nat) (rest : List (BitVec 8)), (∀ c ∈ rest, isDigit c = true) →
      ∀ c ∈ decimalLoop fuel n rest, isDigit c = true := by
  intro fuel
  induction fuel with
  | zero => exact fun n rest h => h
  | succ fuel ih =>
      intro n rest h
      rw [decimalLoop]
      split
      · rename_i hlt
        intro c hc
        rcases List.mem_cons.mp hc with rfl | hc
        · exact isDigit_digitChar hlt
        · exact h c hc
      · apply ih
        intro c hc
        rcases List.mem_cons.mp hc with rfl | hc
        · exact isDigit_digitChar (Nat.mod_lt n (by decide))
        · exact h c hc

theorem decimalValue_loop :
    ∀ (fuel n : Nat) (rest : List (BitVec 8)), n < fuel →
      decimalValue 0 (decimalLoop fuel n rest) = decimalValue n rest := by
  intro fuel
  induction fuel with
  | zero => intro n rest h; omega
  | succ fuel ih =>
      intro n rest h
      rw [decimalLoop]
      split
      · rename_i hlt
        show decimalValue (10 * 0 + ((digitChar n).toNat - 48)) rest = _
        rw [toNat_digitChar hlt]
        congr 1
        omega
      · rw [ih (n / 10) _ (by omega)]
        show decimalValue (10 * (n / 10) + ((digitChar (n % 10)).toNat - 48)) rest = _
        rw [toNat_digitChar (Nat.mod_lt n (by decide))]
        congr 1
        omega

/-- All characters printed are digits. -/
theorem isDigit_of_mem_decimal {n : Nat} {c : BitVec 8} (h : c ∈ decimal n) :
    isDigit c = true :=
  decimalLoop_isDigit _ n [] (by simp) c h

/-- Reading undoes printing. -/
theorem decimalValue_decimal (n : Nat) : decimalValue 0 (decimal n) = n :=
  decimalValue_loop (n + 1) n [] (Nat.lt_succ_self n)

theorem decimal_inj {m n : Nat} (h : decimal m = decimal n) : m = n := by
  rw [← decimalValue_decimal m, h, decimalValue_decimal]

theorem decimalLoop_ne_nil :
    ∀ (fuel n : Nat) (rest : List (BitVec 8)), 0 < fuel → decimalLoop fuel n rest ≠ [] := by
  intro fuel
  induction fuel with
  | zero => intro n rest h; omega
  | succ fuel ih =>
      intro n rest _
      rw [decimalLoop]
      split
      · exact List.cons_ne_nil _ _
      · cases fuel with
        | zero => exact List.cons_ne_nil _ _
        | succ fuel => exact ih _ _ (Nat.succ_pos fuel)

theorem decimal_ne_nil (n : Nat) : decimal n ≠ [] :=
  decimalLoop_ne_nil (n + 1) n [] (Nat.succ_pos n)

end Decimal
