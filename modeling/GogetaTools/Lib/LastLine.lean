/-
  GogetaTools.Lib.LastLine

  A text file whose last line may lack its newline.

  `fgets` gives that line as it is (`fgetsLines_last`), so a program that removes the
  last character of every line scans the last one without a character that belongs to
  it.  `scanEnd_concat` says what this changes for a format that ends in `%s`: nothing,
  unless a token reaches the end of the line.
-/

import GogetaTools.Lib.Stdio

namespace Stdio

open Decimal

/-! ## Lines -/

/-- A text that fits is read to its end. -/
theorem takeLine_last : ∀ (text : Text) (room : Nat), newline ∉ text → text.length ≤ room →
    takeLine room text = (text, []) := by
  intro text
  induction text with
  | nil =>
      intro room _ _
      cases room with
      | zero => rfl
      | succ room => rfl
  | cons c text ih =>
      intro room hnl hroom
      cases room with
      | zero => exact absurd hroom (Nat.not_succ_le_zero _)
      | succ room =>
          obtain ⟨hc, htext⟩ : newline ≠ c ∧ newline ∉ text := by
            rwa [List.mem_cons, not_or] at hnl
          rw [takeLine, if_neg (Ne.symm hc), ih room htext (Nat.le_of_succ_le_succ hroom)]

/-- The loop reads the terminated lines and goes on behind them. -/
theorem fgetsLoop_append {size : Nat} (tail : Text) :
    ∀ (texts : List Text) (fuel : Nat),
      (∀ t ∈ texts, newline ∉ t ∧ t.length + 1 < size) → texts.length ≤ fuel →
      fgetsLoop size fuel (texts.flatMap (· ++ [newline]) ++ tail) =
        texts.map (· ++ [newline]) ++ fgetsLoop size (fuel - texts.length) tail := by
  intro texts
  induction texts with
  | nil =>
      intro fuel _ _
      rfl
  | cons t texts ih =>
      intro fuel h hfuel
      cases fuel with
      | zero => exact absurd hfuel (Nat.not_succ_le_zero _)
      | succ fuel =>
          obtain ⟨hnl, hlen⟩ := h t List.mem_cons_self
          have hfile : (t :: texts).flatMap (· ++ [newline]) ++ tail =
              t ++ newline :: (texts.flatMap (· ++ [newline]) ++ tail) := by
            simp [List.flatMap_cons]
          have hne : t ++ newline :: (texts.flatMap (· ++ [newline]) ++ tail) ≠ [] := by simp
          simp only [hfile, fgetsLoop, fgets, if_neg hne,
            takeLine_line t _ (size - 1) hnl (by omega), List.map_cons, List.cons_append]
          rw [ih fuel (fun t' ht' => h t' (List.mem_cons_of_mem _ ht'))
            (Nat.le_of_succ_le_succ hfuel), List.length_cons, Nat.succ_sub_succ]

/-- A last line without newline is read as it stands. -/
theorem fgetsLines_last {size : Nat} {texts : List Text} {last : Text}
    (h : ∀ t ∈ texts, newline ∉ t ∧ t.length + 1 < size) (hne : last ≠ [])
    (hnl : newline ∉ last) (hlen : last.length + 1 < size) :
    fgetsLines size (texts.flatMap (· ++ [newline]) ++ last) =
      texts.map (· ++ [newline]) ++ [last] := by
  have hpos := List.length_pos_iff.mpr hne
  have hle := length_le_flatMap_line texts
  rw [fgetsLines, fgetsLoop_append last texts _ h (by rw [List.length_append]; omega)]
  obtain ⟨fuel, hfuel⟩ : ∃ fuel,
      (texts.flatMap (· ++ [newline]) ++ last).length - texts.length = fuel + 1 :=
    ⟨_, (Nat.succ_pred_eq_of_pos (by rw [List.length_append]; omega)).symm⟩
  have hnil : fgetsLoop size fuel [] = [] := by
    cases fuel with
    | zero => rfl
    | succ fuel => rfl
  rw [hfuel]
  simp only [fgetsLoop, fgets, if_neg hne, takeLine_last last (size - 1) hnl (by omega), hnil]

/-! ## The end of a scan -/

section Scan

variable {S : Type}

/-- How a scan ends: every directive matches, one fails, or a token overflows its
    buffer, where `justOver` says that it would fit if the text lacked its last character. -/
inductive ScanEnd (S : Type)
  | matched (s : S) (rest : Text)
  | failed
  | overflow (justOver : Bool)

/-- Only a token is left, and it would fit, or vanish, without its last character. -/
def Directive.justOver : Directive S → Text → Bool
  | .str size _, cs => (skipSpace cs).dropLast.length < size ∨ (skipSpace cs).dropLast = []
  | _, _ => false

def scanEnd : List (Directive S) → Text → S → ScanEnd S
  | [], cs, s => .matched s cs
  | d :: ds, cs, s =>
      match d.read cs s with
      | .matched s rest => scanEnd ds rest s
      | .failed => .failed
      | .overflow => .overflow (d.justOver cs)

def conversions (ds : List (Directive S)) : Nat := (ds.map Directive.conversions).sum

/-- White space never fails. -/
theorem Directive.conversions_of_failed {d : Directive S} {cs : Text} {s : S}
    (h : d.read cs s = .failed) : d.conversions = 1 := by
  cases d with
  | space => cases h
  | lu set => rfl
  | d set => rfl
  | chr set => rfl
  | str size set => rfl

/-- `sscanf` returns the number of conversions exactly if all directives match. -/
theorem sscanf_scanEnd (ds : List (Directive S)) (cs : Text) (s : S) :
    match scanEnd ds cs s with
    | .matched s' _ => sscanf ds cs s = some (s', conversions ds)
    | .failed => ∃ s' n, sscanf ds cs s = some (s', n) ∧ n < conversions ds
    | .overflow _ => sscanf ds cs s = none := by
  induction ds generalizing cs s with
  | nil => rfl
  | cons d ds ih =>
      have hcount : conversions (d :: ds) = d.conversions + conversions ds := rfl
      cases hread : d.read cs s with
      | matched s₁ rest =>
          have hrest := ih rest s₁
          simp only [scanEnd, sscanf, hread, hcount]
          cases hend : scanEnd ds rest s₁ with
          | matched s' r =>
              rw [hend] at hrest
              simp only at hrest ⊢
              rw [hrest]
              rfl
          | failed =>
              rw [hend] at hrest
              obtain ⟨s', n, hscan, hn⟩ := hrest
              simp only
              rw [hscan]
              exact ⟨s', d.conversions + n, rfl, Nat.add_lt_add_left hn _⟩
          | overflow b =>
              rw [hend] at hrest
              simp only at hrest ⊢
              rw [hrest]
              rfl
      | failed =>
          -- the conversions of the directives behind it are missing
          have hone := Directive.conversions_of_failed hread
          simp only [scanEnd, sscanf, hread, hcount]
          exact ⟨s, 0, rfl, by omega⟩
      | overflow => simp only [scanEnd, sscanf, hread]

/-! ## Without the last character -/

/-- The first outcome is for a text that ends in `c`, the second for the text without
    it; `b` is the flag of `justOver`, and `R` relates the stores if the whole text is read. -/
inductive CutRead (c : BitVec 8) (R : S → S → Prop) : Bool → Outcome S → Outcome S → Prop
  | behind (b : Bool) (s : S) (rest : Text) :
      CutRead c R b (.matched s (rest ++ [c])) (.matched s rest)
  | reached (b : Bool) (s s' : S) (h : R s s') : CutRead c R b (.matched s []) (.matched s' [])
  | lost (b : Bool) (s : S) : CutRead c R b (.matched s []) .failed
  | failed (b : Bool) : CutRead c R b .failed .failed
  | overflow : CutRead c R false .overflow .overflow
  | fits (s : S) : CutRead c R true .overflow (.matched s [])
  | fitsLost : CutRead c R true .overflow .failed

/-- Where a leading part ends depends on the last character only if it reaches the end. -/
theorem span_concat (p : BitVec 8 → Bool) (t : Text) (c : BitVec 8) :
    ((t ++ [c]).takeWhile p = t.takeWhile p ∧ (t ++ [c]).dropWhile p = t.dropWhile p ++ [c]) ∨
      ((t ++ [c]).takeWhile p = t ++ [c] ∧ (t ++ [c]).dropWhile p = [] ∧
        t.takeWhile p = t ∧ t.dropWhile p = []) := by
  induction t with
  | nil =>
      cases hc : p c with
      | true => exact Or.inr (by simp [hc])
      | false => exact Or.inl (by simp [hc])
  | cons a t ih =>
      cases ha : p a with
      | true => simpa [ha] using ih
      | false => exact Or.inl (by simp [ha])

theorem skipSpace_concat (t : Text) (c : BitVec 8) :
    skipSpace (t ++ [c]) = skipSpace t ++ [c] ∨ (skipSpace (t ++ [c]) = [] ∧ skipSpace t = []) := by
  rcases span_concat isSpace t c with ⟨-, h⟩ | ⟨-, h, -, h'⟩
  · exact Or.inl h
  · exact Or.inr ⟨h, h'⟩

theorem readSign_concat {t : Text} (ht : t ≠ []) (c : BitVec 8) :
    readSign (t ++ [c]) = ((readSign t).1, (readSign t).2 ++ [c]) := by
  cases t with
  | nil => exact absurd rfl ht
  | cons a t =>
      rw [List.cons_append, readSign, readSign]
      split
      · rfl
      · split
        · rfl
        · rfl

theorem readNumber_nil {t : Text} (h : skipSpace t = []) : readNumber t = none := by
  simp [readNumber, h, readSign]

/-- A number that ends before the last character is read without it as well. -/
theorem readNumber_concat (t : Text) (c : BitVec 8) :
    (∃ neg n rest, readNumber (t ++ [c]) = some (neg, n, rest ++ [c]) ∧
      readNumber t = some (neg, n, rest)) ∨
    (∃ neg n, readNumber (t ++ [c]) = some (neg, n, []) ∧
      (readNumber t = none ∨ ∃ neg' n', readNumber t = some (neg', n', []))) ∨
    (readNumber (t ++ [c]) = none ∧ readNumber t = none) := by
  rcases skipSpace_concat t c with hskip | ⟨hskip, hskip'⟩
  · by_cases hnil : skipSpace t = []
    · -- only the last character is left
      have hnone := readNumber_nil hnil
      rw [hnil, List.nil_append] at hskip
      by_cases hdigit : isDigit c = true
      · refine Or.inr (Or.inl ⟨false, decimalValue 0 [c], ?_, Or.inl hnone⟩)
        simp [readNumber, hskip, readSign_digit hdigit, hdigit]
      · refine Or.inr (Or.inr ⟨?_, hnone⟩)
        have hdigits : (readSign [c]).2.takeWhile isDigit = [] := by
          rw [readSign]
          split
          · rfl
          · split
            · rfl
            · exact List.takeWhile_cons_of_neg hdigit
        simp only [readNumber, hskip, hdigits, if_true]
    · obtain ⟨neg, v, hv⟩ : ∃ neg v, readSign (skipSpace t) = (neg, v) := ⟨_, _, rfl⟩
      have hlong : readSign (skipSpace (t ++ [c])) = (neg, v ++ [c]) := by
        rw [hskip, readSign_concat hnil, hv]
      rcases span_concat isDigit v c with ⟨htake, hdrop⟩ | ⟨htake, hdrop, htake', hdrop'⟩
      · by_cases hdigits : v.takeWhile isDigit = []
        · refine Or.inr (Or.inr ⟨?_, ?_⟩)
          · simp only [readNumber, hlong, htake, if_pos hdigits]
          · simp only [readNumber, hv, if_pos hdigits]
        · refine Or.inl ⟨neg, decimalValue 0 (v.takeWhile isDigit), v.dropWhile isDigit, ?_, ?_⟩
          · simp only [readNumber, hlong, htake, hdrop, if_neg hdigits]
          · simp only [readNumber, hv, if_neg hdigits]
      · refine Or.inr (Or.inl ⟨neg, decimalValue 0 (v ++ [c]), ?_, ?_⟩)
        · simp only [readNumber, hlong, htake, hdrop, if_neg (List.concat_ne_nil c v)]
        · by_cases hdigits : v = []
          · exact Or.inl (by simp [readNumber, hv, hdigits])
          · refine Or.inr ⟨neg, decimalValue 0 v, ?_⟩
            simp only [readNumber, hv, htake', hdrop', if_neg hdigits]
  · exact Or.inr (Or.inr ⟨readNumber_nil hskip, readNumber_nil hskip'⟩)

/-- A token and the token without its last character, stored by `%s`. -/
def TokenCut (c : BitVec 8) {size : Nat} (set : (token : Text) → token.length < size → S → S)
    (s s' : S) : Prop :=
  ∃ token h h' s₀, s = set (token ++ [c]) h s₀ ∧ s' = set token h' s₀

/-- `%s` with its token and what is left behind it. -/
def storeToken {size : Nat} (set : (token : Text) → token.length < size → S → S) (s : S)
    (token rest : Text) : Outcome S :=
  if token = [] then .failed
  else if h : token.length < size then .matched (set token h s) rest
  else .overflow

theorem Directive.read_str {size : Nat} (set : (token : Text) → token.length < size → S → S)
    (cs : Text) (s : S) :
    (Directive.str size set).read cs s =
      storeToken set s ((skipSpace cs).takeWhile (!isSpace ·))
        ((skipSpace cs).dropWhile (!isSpace ·)) := rfl

theorem Directive.read_str_concat {size : Nat}
    (set : (token : Text) → token.length < size → S → S) (t : Text) (c : BitVec 8) (s : S) :
    CutRead c (TokenCut c set) ((Directive.str size set).justOver (t ++ [c]))
      ((Directive.str size set).read (t ++ [c]) s) ((Directive.str size set).read t s) := by
  rcases skipSpace_concat t c with hskip | ⟨hskip, hskip'⟩
  · have hover : (Directive.str size set).justOver (t ++ [c]) =
        decide ((skipSpace t).length < size ∨ skipSpace t = []) := by
      rw [Directive.justOver, hskip, List.dropLast_concat]
    rw [hover, Directive.read_str, Directive.read_str, hskip]
    rcases span_concat (!isSpace ·) (skipSpace t) c with
      ⟨htake, hdrop⟩ | ⟨htake, hdrop, htake', hdrop'⟩
    · rw [htake, hdrop, storeToken, storeToken]
      by_cases hnil : (skipSpace t).takeWhile (!isSpace ·) = []
      · rw [if_pos hnil, if_pos hnil]
        exact CutRead.failed _
      · rw [if_neg hnil, if_neg hnil]
        by_cases hlen : ((skipSpace t).takeWhile (!isSpace ·)).length < size
        · rw [dif_pos hlen, dif_pos hlen]
          exact CutRead.behind _ _ _
        · -- something is left behind the token
          have hle : ((skipSpace t).takeWhile (!isSpace ·)).length ≤ (skipSpace t).length :=
            (List.takeWhile_sublist _).length_le
          have hne : skipSpace t ≠ [] := by
            intro h
            rw [h] at hnil
            exact hnil rfl
          rw [dif_neg hlen, dif_neg hlen, decide_eq_false (not_or.mpr ⟨by omega, hne⟩)]
          exact CutRead.overflow
    · -- the token is all that is left
      rw [htake, hdrop, htake', hdrop', storeToken, storeToken, if_neg (List.concat_ne_nil c _)]
      by_cases hlen : (skipSpace t ++ [c]).length < size
      · rw [dif_pos hlen]
        rw [List.length_append] at hlen
        by_cases hnil : skipSpace t = []
        · rw [if_pos hnil]
          exact CutRead.lost _ _
        · rw [if_neg hnil, dif_pos (by omega)]
          exact CutRead.reached _ _ _ ⟨skipSpace t, _, _, s, rfl, rfl⟩
      · rw [dif_neg hlen]
        by_cases hnil : skipSpace t = []
        · rw [if_pos hnil, decide_eq_true (Or.inr hnil)]
          exact CutRead.fitsLost
        · rw [if_neg hnil]
          by_cases hlen' : (skipSpace t).length < size
          · rw [dif_pos hlen', decide_eq_true (Or.inl hlen')]
            exact CutRead.fits _
          · rw [dif_neg hlen', decide_eq_false (not_or.mpr ⟨hlen', hnil⟩)]
            exact CutRead.overflow
  · rw [Directive.read_str, Directive.read_str, hskip, hskip']
    exact CutRead.failed _

theorem CutRead.weaken {c : BitVec 8} {R R' : S → S → Prop} {b : Bool} {o o' : Outcome S}
    (h : CutRead c R b o o') (hR : ∀ s s', R s s' → R' s s') : CutRead c R' b o o' := by
  cases h with
  | behind _ s rest => exact CutRead.behind b s rest
  | reached _ s s' h => exact CutRead.reached b s s' (hR s s' h)
  | lost _ s => exact CutRead.lost b s
  | failed => exact CutRead.failed b
  | overflow => exact CutRead.overflow
  | fits s => exact CutRead.fits s
  | fitsLost => exact CutRead.fitsLost

theorem Directive.read_number_concat {d : Directive S} {store : Bool → Nat → S → S}
    (hd : ∀ cs s, d.read cs s = match readNumber cs with
      | some (neg, n, rest) => .matched (store neg n s) rest
      | none => .failed)
    (b : Bool) (t : Text) (c : BitVec 8) (s : S) :
    CutRead c (fun _ _ => True) b (d.read (t ++ [c]) s) (d.read t s) := by
  rw [hd, hd]
  rcases readNumber_concat t c with
    ⟨neg, n, rest, h, h'⟩ | ⟨neg, n, h, h' | ⟨neg', n', h'⟩⟩ | ⟨h, h'⟩
  · rw [h, h']
    exact CutRead.behind b _ rest
  · rw [h, h']
    exact CutRead.lost b _
  · rw [h, h']
    exact CutRead.reached b _ _ trivial
  · rw [h, h']
    exact CutRead.failed b

/-- What the last character of a text means to a directive. -/
theorem Directive.read_concat (d : Directive S) (t : Text) (c : BitVec 8) (s : S) :
    CutRead c (fun _ _ => True) (d.justOver (t ++ [c])) (d.read (t ++ [c]) s) (d.read t s) := by
  cases d with
  | space =>
      simp only [Directive.read]
      rcases skipSpace_concat t c with h | ⟨h, h'⟩
      · rw [h]
        exact CutRead.behind _ s _
      · rw [h, h']
        exact CutRead.reached _ s s trivial
  | lu set => exact Directive.read_number_concat (fun _ _ => rfl) _ t c s
  | d set => exact Directive.read_number_concat (fun _ _ => rfl) _ t c s
  | chr set =>
      cases t with
      | nil => exact CutRead.lost _ _
      | cons a t => exact CutRead.behind _ _ t
  | str size set => exact (Directive.read_str_concat set t c s).weaken fun _ _ _ => trivial

/-- `CutRead` for a whole format: a scan that overflows at the last character may end
    in any other way without it. -/
inductive CutScan (c : BitVec 8) (R : S → S → Prop) : ScanEnd S → ScanEnd S → Prop
  | behind (s : S) (rest : Text) : CutScan c R (.matched s (rest ++ [c])) (.matched s rest)
  | reached (s s' : S) (h : R s s') : CutScan c R (.matched s []) (.matched s' [])
  | lost (s : S) : CutScan c R (.matched s []) .failed
  | failed : CutScan c R .failed .failed
  | overflow (b : Bool) : CutScan c R (.overflow false) (.overflow b)
  | fits (e : ScanEnd S) (h : ∀ b, e ≠ .overflow b) : CutScan c R (.overflow true) e

/-- Nothing is left to read for a format with a conversion at its end. -/
theorem scanEnd_nil (ds : List (Directive S)) {size : Nat}
    (set : (token : Text) → token.length < size → S → S) (s : S) :
    scanEnd (ds ++ [.str size set]) [] s = .failed := by
  induction ds generalizing s with
  | nil => rfl
  | cons d ds ih =>
      cases d with
      | space => exact ih s
      | lu set => rfl
      | d set => rfl
      | chr set => rfl
      | str size set => rfl

/-- A format that ends in `%s`, on a text with and without its last character. -/
theorem scanEnd_concat (ds : List (Directive S)) {size : Nat}
    (set : (token : Text) → token.length < size → S → S) (t : Text) (c : BitVec 8) (s : S) :
    CutScan c (TokenCut c set) (scanEnd (ds ++ [.str size set]) (t ++ [c]) s)
      (scanEnd (ds ++ [.str size set]) t s) := by
  -- Induction on the directives in front of the last one; what one of them leaves decides.
  induction ds generalizing t s with
  | nil =>
      have h := Directive.read_str_concat set t c s
      simp only [List.nil_append, scanEnd]
      generalize (Directive.str size set).read (t ++ [c]) s = o at h ⊢
      generalize (Directive.str size set).read t s = o' at h ⊢
      generalize (Directive.str size set).justOver (t ++ [c]) = b at h ⊢
      cases h with
      | behind _ s rest => exact CutScan.behind s rest
      | reached _ s s' h => exact CutScan.reached s s' h
      | lost _ s => exact CutScan.lost s
      | failed => exact CutScan.failed
      | overflow => exact CutScan.overflow _
      | fits s => exact CutScan.fits _ (by simp)
      | fitsLost => exact CutScan.fits _ (by simp)
  | cons d ds ih =>
      have h := d.read_concat t c s
      simp only [List.cons_append, scanEnd]
      generalize d.read (t ++ [c]) s = o at h ⊢
      generalize d.read t s = o' at h ⊢
      generalize d.justOver (t ++ [c]) = b at h ⊢
      cases h with
      | behind _ s rest => exact ih rest s
      | reached _ s s' _ =>
          simp only [scanEnd_nil]
          exact CutScan.failed
      | lost _ s =>
          simp only [scanEnd_nil]
          exact CutScan.failed
      | failed => exact CutScan.failed
      | overflow => exact CutScan.overflow _
      | fits s =>
          simp only [scanEnd_nil]
          exact CutScan.fits _ (by simp)
      | fitsLost => exact CutScan.fits _ (by simp)

/-! ## What was stored before -/

/-- Stores related by `R` are related by `R'` behind the directive. -/
def Directive.Maps (R R' : S → S → Prop) : Directive S → Prop
  | .space => ∀ s s', R s s' → R' s s'
  | .lu set => ∀ v s s', R s s' → R' (set v s) (set v s')
  | .d set => ∀ v s s', R s s' → R' (set v s) (set v s')
  | .chr set => ∀ c s s', R s s' → R' (set c s) (set c s')
  | .str _ set => ∀ token h s s', R s s' → R' (set token h s) (set token h s')

/-- Two scans that stop at the same place. -/
inductive ScanEnd.Rel (R : S → S → Prop) : ScanEnd S → ScanEnd S → Prop
  | matched (s s' : S) (rest : Text) (h : R s s') : Rel R (.matched s rest) (.matched s' rest)
  | failed : Rel R .failed .failed
  | overflow (b : Bool) : Rel R (.overflow b) (.overflow b)

/-- What a directive matches does not depend on the store. -/
theorem Directive.read_maps {R R' : S → S → Prop} {d : Directive S} (hd : d.Maps R R') {s s' : S}
    (h : R s s') (cs : Text) :
    (∃ s₁ s₁' rest, d.read cs s = .matched s₁ rest ∧ d.read cs s' = .matched s₁' rest ∧
      R' s₁ s₁') ∨
    (d.read cs s = .failed ∧ d.read cs s' = .failed) ∨
    (d.read cs s = .overflow ∧ d.read cs s' = .overflow) := by
  cases d with
  | space => exact Or.inl ⟨s, s', skipSpace cs, rfl, rfl, hd s s' h⟩
  | lu set =>
      simp only [Directive.read]
      cases readNumber cs with
      | none => exact Or.inr (Or.inl ⟨rfl, rfl⟩)
      | some r => exact Or.inl ⟨_, _, r.2.2, rfl, rfl, hd _ s s' h⟩
  | d set =>
      simp only [Directive.read]
      cases readNumber cs with
      | none => exact Or.inr (Or.inl ⟨rfl, rfl⟩)
      | some r => exact Or.inl ⟨_, _, r.2.2, rfl, rfl, hd _ s s' h⟩
  | chr set =>
      cases cs with
      | nil => exact Or.inr (Or.inl ⟨rfl, rfl⟩)
      | cons c cs => exact Or.inl ⟨_, _, cs, rfl, rfl, hd c s s' h⟩
  | str size set =>
      simp only [Directive.read_str, storeToken]
      split
      · exact Or.inr (Or.inl ⟨rfl, rfl⟩)
      · split
        · exact Or.inl ⟨_, _, _, rfl, rfl, hd _ _ s s' h⟩
        · exact Or.inr (Or.inr ⟨rfl, rfl⟩)

theorem scanEnd_cons_maps {R R' R'' : S → S → Prop} {d : Directive S} {ds : List (Directive S)}
    (hd : d.Maps R R') (hds : ∀ rest s s', R' s s' →
      ScanEnd.Rel R'' (scanEnd ds rest s) (scanEnd ds rest s'))
    {s s' : S} (h : R s s') (cs : Text) :
    ScanEnd.Rel R'' (scanEnd (d :: ds) cs s) (scanEnd (d :: ds) cs s') := by
  simp only [scanEnd]
  rcases Directive.read_maps hd h cs with
    ⟨s₁, s₁', rest, h₁, h₁', hR⟩ | ⟨h₁, h₁'⟩ | ⟨h₁, h₁'⟩
  · rw [h₁, h₁']
    exact hds rest s₁ s₁' hR
  · rw [h₁, h₁']
    exact ScanEnd.Rel.failed
  · rw [h₁, h₁']
    exact ScanEnd.Rel.overflow _

theorem scanEnd_maps {R : S → S → Prop} {ds : List (Directive S)}
    (hds : ∀ d ∈ ds, d.Maps R R) {s s' : S} (h : R s s') (cs : Text) :
    ScanEnd.Rel R (scanEnd ds cs s) (scanEnd ds cs s') := by
  induction ds generalizing cs s s' with
  | nil => exact ScanEnd.Rel.matched s s' cs h
  | cons d ds ih =>
      have hrest := fun d' hd' => hds d' (List.mem_cons_of_mem d hd')
      exact scanEnd_cons_maps (hds d List.mem_cons_self) (fun rest s s' h => ih hrest h rest) h cs

/-- A directive in the middle establishes what those behind it keep. -/
theorem scanEnd_maps_at {R R' : S → S → Prop} {d : Directive S} {ds ds' : List (Directive S)}
    (hds : ∀ d' ∈ ds, d'.Maps R R) (hd : d.Maps R R') (hds' : ∀ d' ∈ ds', d'.Maps R' R')
    {s s' : S} (h : R s s') (cs : Text) :
    ScanEnd.Rel R' (scanEnd (ds ++ d :: ds') cs s) (scanEnd (ds ++ d :: ds') cs s') := by
  induction ds generalizing cs s s' with
  | nil => exact scanEnd_cons_maps hd (fun rest s s' h => scanEnd_maps hds' h rest) h cs
  | cons d₀ ds ih =>
      have hrest := fun d' hd' => hds d' (List.mem_cons_of_mem d₀ hd')
      exact scanEnd_cons_maps (hds d₀ List.mem_cons_self) (fun rest s s' h => ih hrest h rest) h cs

end Scan

end Stdio
