/-
  GogetaTools.Replay.FinalNewline

  A trace file with and without its final newline.

  `parse_trace_info` removes the last character of every line that `fgets` reads, so
  a last line without newline is scanned without its last character.  The records are
  the same unless that character counts (`LastCharacterCounts`): the line is a record
  that the mode keeps and its fingerprint reaches the end of the line, or a token there
  is just too long for its buffer.
-/

import GogetaTools.Lib.LastLine
import GogetaTools.Replay.Parse
import Mathlib.Data.List.TakeWhile

namespace GogetaTools.Replay

open Stdio Decimal

/-! ## What a line adds to the records -/

def TraceFormat.directives : TraceFormat → List (Directive TraceInfo)
  | .fiu => fiuFormat
  | .hitsz => hitszFormat

/-- The scanned records that a mode keeps. -/
def TraceFormat.keeps : TraceFormat → ReplayMode → TraceInfo → Bool
  | .fiu, mode, info => mode = .readwrite ∨ info.rw = charW
  | .hitsz, _, _ => true

/-- The fields that are set behind the scan. -/
def TraceFormat.finish : TraceFormat → TraceInfo → TraceInfo
  | .fiu, info => { info with ofs := info.lba <<< 9 }
  | .hitsz, info => { info with rw := charW, blks := 8, ofs := info.lba <<< 9 }

/-- The record of a line, if it has one; none where a token overflows its buffer. -/
def lineRecords (format : TraceFormat) (mode : ReplayMode) (text : Text) (info : TraceInfo) :
    Option (List TraceInfo) :=
  match scanEnd format.directives text info with
  | .matched info' _ => some (if format.keeps mode info' then [format.finish info'] else [])
  | .failed => some []
  | .overflow _ => none

/-- A line with fewer conversions than the format asks for is left out. -/
theorem parseLine_of_failed {format : TraceFormat} (mode : ReplayMode) {st : ParseState}
    {info info' : TraceInfo} {line str : Text} {n : Nat} (hslot : st.infos[st.i]? = some info)
    (hstrip : stripNewline line = some str)
    (hscan : sscanf format.directives str info = some (info', n))
    (hlt : n < conversions format.directives) :
    parseLine format mode st line = some (st.scanned info') := by
  cases format with
  | fiu =>
      have hne : n ≠ 9 := Nat.ne_of_lt hlt
      simp only [TraceFormat.directives] at hscan
      simp only [parseLine, hslot, hstrip, hscan, Option.bind_eq_bind, Option.bind_some, if_neg hne]
  | hitsz =>
      have hne : n ≠ 4 := Nat.ne_of_lt hlt
      simp only [TraceFormat.directives] at hscan
      simp only [parseLine, hslot, hstrip, hscan, Option.bind_eq_bind, Option.bind_some, if_neg hne]

theorem parseLine_of_overflow {format : TraceFormat} (mode : ReplayMode) {st : ParseState}
    {info : TraceInfo} {line str : Text} (hslot : st.infos[st.i]? = some info)
    (hstrip : stripNewline line = some str) (hscan : sscanf format.directives str info = none) :
    parseLine format mode st line = none := by
  cases format <;> simp only [TraceFormat.directives] at hscan <;>
    simp only [parseLine, hslot, hstrip, hscan, Option.bind_eq_bind, Option.bind_some,
      Option.bind_none]

/-- The turn of the loop, by the end of its scan. -/
theorem parseLine_scanEnd {format : TraceFormat} {mode : ReplayMode} {st : ParseState}
    {info : TraceInfo} {line str : Text} (hslot : st.infos[st.i]? = some info)
    (hstrip : stripNewline line = some str) :
    match scanEnd format.directives str info with
    | .matched info' _ => parseLine format mode st line = some (if format.keeps mode info' then
        st.store (format.finish info') else st.scanned info')
    | .failed => ∃ info', parseLine format mode st line = some (st.scanned info')
    | .overflow _ => parseLine format mode st line = none := by
  have hscan := sscanf_scanEnd format.directives str info
  cases hend : scanEnd format.directives str info with
  | matched info' rest =>
      rw [hend] at hscan
      cases format with
      | fiu =>
          refine (parseLine_nine mode hslot hstrip hscan).trans ?_
          simp only [TraceFormat.keeps, TraceFormat.finish, decide_eq_true_eq]
      | hitsz =>
          -- no record of this format is dropped
          have hcount : conversions hitszFormat = 4 := rfl
          simp only [TraceFormat.directives, hcount] at hscan
          simp only [parseLine, hslot, hstrip, hscan, Option.bind_eq_bind, Option.bind_some,
            TraceFormat.keeps, TraceFormat.finish, if_true]
  | failed =>
      rw [hend] at hscan
      obtain ⟨info', n, hn, hlt⟩ := hscan
      exact ⟨info', parseLine_of_failed mode hslot hstrip hn hlt⟩
  | overflow b =>
      rw [hend] at hscan
      exact parseLine_of_overflow mode hslot hstrip hscan

/-- A line appends its records to those in front of `i`. -/
theorem parseLine_lineRecords {format : TraceFormat} {mode : ReplayMode} {total : Nat}
    {st : ParseState} {done : List TraceInfo} {info : TraceInfo} {line str : Text}
    (hst : Stored total st done) (hroom : done.length < total)
    (hslot : st.infos[st.i]? = some info) (hstrip : stripNewline line = some str) :
    match lineRecords format mode str info with
    | some new => ∃ st', parseLine format mode st line = some st' ∧ Stored total st' (done ++ new)
    | none => parseLine format mode st line = none := by
  have hline := @parseLine_scanEnd format mode st info line str hslot hstrip
  rw [lineRecords]
  cases hend : scanEnd format.directives str info with
  | matched info' rest =>
      rw [hend] at hline
      simp only at hline ⊢
      cases hkeep : format.keeps mode info' with
      | true =>
          rw [hkeep, if_pos rfl] at hline
          exact ⟨_, hline, hst.store hroom _⟩
      | false =>
          rw [hkeep, if_neg Bool.false_ne_true] at hline
          refine ⟨_, hline, ?_⟩
          rw [if_neg Bool.false_ne_true, List.append_nil]
          exact hst.scanned info'
  | failed =>
      rw [hend] at hline
      obtain ⟨info', hline⟩ := hline
      refine ⟨_, hline, ?_⟩
      rw [List.append_nil]
      exact hst.scanned info'
  | overflow b =>
      rw [hend] at hline
      exact hline

/-- A line has one record at most. -/
theorem length_lineRecords {format : TraceFormat} {mode : ReplayMode} {text : Text}
    {info : TraceInfo} {new : List TraceInfo} (h : lineRecords format mode text info = some new) :
    new.length ≤ 1 := by
  rw [lineRecords] at h
  split at h
  · cases h
    split
    · exact Nat.le_refl 1
    · exact Nat.zero_le 1
  · cases h
    exact Nat.zero_le 1
  · cases h

/-! ## When the last character counts -/

section LastCharacter

variable (format : TraceFormat) (mode : ReplayMode)

/-- The scan reaches the end of a record that is kept, or overflows there. -/
def ScanEnd.Counts : ScanEnd TraceInfo → Prop
  | .matched info rest => rest = [] ∧ format.keeps mode info = true
  | .failed => False
  | .overflow justOver => justOver = true

/-- A line without its last character has other records. -/
def LastCharacterCounts (text : Text) : Prop :=
  ∃ info, ScanEnd.Counts format mode (scanEnd format.directives text info)

/-- Both formats end in the fingerprint. -/
theorem TraceFormat.directives_eq : ∃ ds, format.directives =
    ds ++ [.str 257 (fun md5 h info => info.setMd5 md5 h)] := by
  cases format with
  | fiu => exact ⟨fiuFormat.dropLast, rfl⟩
  | hitsz => exact ⟨hitszFormat.dropLast, rfl⟩

/-- Whether a line is kept does not depend on what the element held. -/
theorem scanEnd_keeps (text : Text) (info info' : TraceInfo) :
    ScanEnd.Rel (fun a b => format.keeps mode a = format.keeps mode b)
      (scanEnd format.directives text info) (scanEnd format.directives text info') := by
  cases format with
  | fiu =>
      -- the directives behind `%c` leave the character alone
      refine @scanEnd_maps_at _ (fun _ _ => True) _ _ (fiuFormat.take 10) (fiuFormat.drop 11)
        ?_ ?_ ?_ info info' trivial text
      · simp [fiuFormat, Directive.Maps]
      · intro c s s' _
        rfl
      · simp only [fiuFormat, List.drop_succ_cons, List.drop_zero, List.forall_mem_cons]
        refine ⟨fun _ _ h => h, fun _ _ _ h => h, fun _ _ h => h, fun _ _ _ h => h,
          fun _ _ h => h, fun _ _ _ _ h => h, ?_⟩
        exact fun _ h => absurd h (List.not_mem_nil)
  | hitsz =>
      refine @scanEnd_maps _ (fun a b => TraceFormat.hitsz.keeps mode a =
        TraceFormat.hitsz.keeps mode b) hitszFormat ?_ info info' rfl text
      simp [hitszFormat, Directive.Maps, TraceFormat.keeps]

theorem lastCharacterCounts_iff (text : Text) (info : TraceInfo) :
    LastCharacterCounts format mode text ↔
      ScanEnd.Counts format mode (scanEnd format.directives text info) := by
  constructor
  · rintro ⟨info', h⟩
    have hrel := scanEnd_keeps format mode text info' info
    generalize scanEnd format.directives text info' = e' at h hrel
    generalize scanEnd format.directives text info = e at hrel ⊢
    cases hrel with
    | matched s s' rest hkeeps => exact ⟨h.1, hkeeps ▸ h.2⟩
    | failed => exact h
    | overflow b => exact h
  · exact fun h => ⟨info, h⟩

theorem TokenCut.finish_md5 {c : Byte} {s s' : TraceInfo}
    (h : TokenCut c (fun md5 h info => info.setMd5 md5 h) s s') :
    format.keeps mode s = format.keeps mode s' ∧
      (format.finish s).md5 = (format.finish s').md5 ++ [c] := by
  obtain ⟨token, hlen, hlen', s₀, rfl, rfl⟩ := h
  cases format with
  | fiu => exact ⟨rfl, rfl⟩
  | hitsz => exact ⟨rfl, rfl⟩

theorem lineRecords_concat (t : Text) (c : Byte) (info : TraceInfo) :
    lineRecords format mode (t ++ [c]) info = lineRecords format mode t info ↔
      ¬ LastCharacterCounts format mode (t ++ [c]) := by
  rw [lastCharacterCounts_iff format mode _ info, lineRecords, lineRecords]
  obtain ⟨ds, hds⟩ := format.directives_eq
  rw [hds]
  have hcut := scanEnd_concat ds (fun md5 h info => TraceInfo.setMd5 info md5 h) t c info
  generalize scanEnd _ (t ++ [c]) info = e at hcut ⊢
  generalize scanEnd _ t info = e' at hcut ⊢
  cases hcut with
  | behind s rest => simp [ScanEnd.Counts]
  | reached s s' h =>
      -- the two fingerprints differ by the character
      obtain ⟨hkeeps, hmd5⟩ := TokenCut.finish_md5 format mode h
      have hne : format.finish s ≠ format.finish s' := by
        intro heq
        rw [heq] at hmd5
        exact absurd hmd5 (by simp)
      cases hkeep : format.keeps mode s with
      | true => simp [ScanEnd.Counts, ← hkeeps, hkeep, hne]
      | false => simp [ScanEnd.Counts, ← hkeeps, hkeep]
  | lost s =>
      cases hkeep : format.keeps mode s with
      | true => simp [ScanEnd.Counts, hkeep]
      | false => simp [ScanEnd.Counts, hkeep]
  | failed => simp [ScanEnd.Counts]
  | overflow b => simp [ScanEnd.Counts]
  | fits e h =>
      cases e' with
      | matched s rest => simp [ScanEnd.Counts]
      | failed => simp [ScanEnd.Counts]
      | overflow b => exact absurd rfl (h b)

end LastCharacter

/-! ## The lines in front of the last one -/

/-- A token of the line overflows its buffer. -/
def Overflows (format : TraceFormat) (text : Text) : Prop :=
  ∃ info, sscanf format.directives text info = none

theorem overflows_iff (format : TraceFormat) (mode : ReplayMode) (text : Text) (info : TraceInfo) :
    Overflows format text ↔ lineRecords format mode text info = none := by
  constructor
  · rintro ⟨info', h⟩
    have hscan := sscanf_scanEnd format.directives text info'
    -- where the scan ends does not depend on what the record held before
    have hrel := scanEnd_keeps format mode text info' info
    rw [lineRecords]
    generalize scanEnd format.directives text info' = e' at hscan hrel
    generalize scanEnd format.directives text info = e at hrel ⊢
    cases hrel with
    | matched s s' rest _ => exact absurd (hscan.symm.trans h) (by simp)
    | failed =>
        obtain ⟨s, n, hsome, -⟩ := hscan
        exact absurd (hsome.symm.trans h) (by simp)
    | overflow b => rfl
  · intro h
    have hscan := sscanf_scanEnd format.directives text info
    refine ⟨info, ?_⟩
    rw [lineRecords] at h
    cases hend : scanEnd format.directives text info with
    | matched s rest =>
        rw [hend] at h
        cases h
    | failed =>
        rw [hend] at h
        cases h
    | overflow b =>
        rw [hend] at hscan
        exact hscan

/-- Terminated lines are parsed to their end, unless one of them overflows a buffer. -/
theorem parseLines_terminated {format : TraceFormat} {mode : ReplayMode} {total : Nat} :
    ∀ (texts : List Text) (st : ParseState) (done : List TraceInfo),
      (∀ t ∈ texts, ∀ c ∈ t, c ≠ 0) → Stored total st done →
      done.length + texts.length ≤ total →
      ((∃ t ∈ texts, Overflows format t) ∧
        (texts.map (· ++ [newline])).foldlM (parseLine format mode) st = none) ∨
      ((∀ t ∈ texts, ¬ Overflows format t) ∧ ∃ st' done',
        (texts.map (· ++ [newline])).foldlM (parseLine format mode) st = some st' ∧
          Stored total st' done' ∧ done'.length ≤ done.length + texts.length) := by
  intro texts
  -- Induction on the lines; the first one either overflows or leaves a stored state.
  induction texts with
  | nil =>
      intro st done _ hst _
      exact Or.inr ⟨fun t ht => absurd ht (List.not_mem_nil), st, done, rfl, hst, Nat.le_refl _⟩
  | cons t texts ih =>
      intro st done hnul hst hlen
      rw [List.length_cons] at hlen
      have hnul' : ∀ t' ∈ texts, ∀ c ∈ t', c ≠ 0 := fun t' h => hnul t' (List.mem_cons_of_mem t h)
      obtain ⟨info, hslot⟩ := hst.slot (show done.length < total by omega)
      have hstrip := stripNewline_line (hnul t List.mem_cons_self)
      have hline := @parseLine_lineRecords format mode total st done info _ t hst (by omega) hslot
        hstrip
      have hover := overflows_iff format mode t info
      simp only [List.map_cons, List.foldlM_cons]
      cases hnew : lineRecords format mode t info with
      | none =>
          rw [hnew] at hline
          refine Or.inl ⟨⟨t, List.mem_cons_self, hover.mpr hnew⟩, ?_⟩
          rw [hline]
          rfl
      | some new =>
          rw [hnew] at hline
          obtain ⟨st₁, hrun, hst₁⟩ := hline
          have hone := length_lineRecords hnew
          have hok : ¬ Overflows format t := by
            rw [hover, hnew]
            exact Option.some_ne_none new
          rw [hrun]
          simp only [Option.bind_eq_bind, Option.bind_some]
          rcases ih st₁ (done ++ new) hnul' hst₁ (by rw [List.length_append]; omega) with
            ⟨⟨t', ht', hover'⟩, hrest⟩ | ⟨hall, st', done', hrest, hst', hle⟩
          · exact Or.inl ⟨⟨t', List.mem_cons_of_mem t ht', hover'⟩, hrest⟩
          · refine Or.inr ⟨?_, st', done', hrest, hst', ?_⟩
            · rw [List.forall_mem_cons]
              exact ⟨hok, hall⟩
            · rw [List.length_append] at hle
              rw [List.length_cons]
              omega

/-! ## The size of the array -/

/-- The same loop over a larger array. -/
def ParseState.extend (st : ParseState) (more : List TraceInfo) : ParseState :=
  { st with infos := st.infos ++ more }

theorem ParseState.extend_scanned {st : ParseState} (h : st.i < st.infos.length)
    (more : List TraceInfo) (info : TraceInfo) :
    (st.extend more).scanned info = (st.scanned info).extend more := by
  simp only [ParseState.scanned, ParseState.extend, List.set_append_left _ _ h]

theorem ParseState.extend_store {st : ParseState} (h : st.i < st.infos.length)
    (more : List TraceInfo) (info : TraceInfo) :
    (st.extend more).store info = (st.store info).extend more := by
  simp only [ParseState.store, ParseState.extend, List.set_append_left _ _ h]

theorem parseLine_extend {format : TraceFormat} {mode : ReplayMode} {st : ParseState}
    (h : st.i < st.infos.length) (more : List TraceInfo) (line : Text) :
    parseLine format mode (st.extend more) line =
      (parseLine format mode st line).map (·.extend more) := by
  have hslot : (st.extend more).infos[(st.extend more).i]? = st.infos[st.i]? :=
    List.getElem?_append_left h
  rw [parseLine, parseLine, hslot]
  cases st.infos[st.i]? with
  | none => rfl
  | some info =>
      cases stripNewline line with
      | none => rfl
      | some str =>
          cases format with
          | fiu =>
              simp only [Option.bind_eq_bind, Option.bind_some]
              cases sscanf fiuFormat str info with
              | none => rfl
              | some r =>
                  simp only [Option.bind_some, ParseState.extend_scanned h,
                    ParseState.extend_store h]
                  by_cases hn : r.2 = 9
                  · rw [if_pos hn, if_pos hn]
                    -- the mode and the letter decide whether the record is kept
                    by_cases hw : r.1.rw = charW
                    · cases mode <;> simp only [if_pos hw] <;> rfl
                    · cases mode <;> simp only [if_neg hw] <;> rfl
                  · rw [if_neg hn, if_neg hn]
                    rfl
          | hitsz =>
              simp only [Option.bind_eq_bind, Option.bind_some]
              cases sscanf hitszFormat str info with
              | none => rfl
              | some r =>
                  simp only [Option.bind_some, ParseState.extend_scanned h,
                    ParseState.extend_store h]
                  split
                  · rfl
                  · rfl

theorem parseLines_extend {format : TraceFormat} {mode : ReplayMode} {total : Nat}
    (more : List TraceInfo) :
    ∀ (lines : List Text) (st : ParseState) (done : List TraceInfo), Stored total st done →
      done.length + lines.length ≤ total →
      lines.foldlM (parseLine format mode) (st.extend more) =
        (lines.foldlM (parseLine format mode) st).map (·.extend more) := by
  intro lines
  induction lines with
  | nil => exact fun st done _ _ => rfl
  | cons line lines ih =>
      intro st done hst hlen
      rw [List.length_cons] at hlen
      have hlt : st.i < st.infos.length := by
        rw [hst.i_eq, hst.length_eq]
        omega
      rw [List.foldlM_cons, List.foldlM_cons, parseLine_extend hlt]
      cases hline : parseLine format mode st line with
      | none => rfl
      | some st₁ =>
          obtain ⟨-, info, rfl | rfl⟩ := parseLine_cases hline
          · exact ih _ done (hst.scanned info) (by omega)
          · refine ih _ (done ++ [info]) (hst.store (by omega) info) ?_
            rw [List.length_append, List.length_singleton]
            omega

/-! ## With and without the final newline -/

/-- The records that `parse_trace_info` returns: as many as it counts. -/
def parsedRecords (format : TraceFormat) (mode : ReplayMode) (uninit : Nat → TraceInfo)
    (file : Text) : Option (List TraceInfo) :=
  (parseTraceInfo format mode uninit file).map fun r => r.1.take r.2

def ParseState.records (st : ParseState) : List TraceInfo := st.infos.take st.validLines

theorem Stored.records_eq {total : Nat} {st : ParseState} {done : List TraceInfo}
    (h : Stored total st done) : st.records = done := by
  rw [ParseState.records, h.validLines_eq, h.take_eq]

theorem Stored.extend {total : Nat} {st : ParseState} {done : List TraceInfo}
    (h : Stored total st done) (hle : done.length ≤ total) (more : List TraceInfo) :
    Stored (total + more.length) (st.extend more) done where
  length_eq := by rw [ParseState.extend, List.length_append, h.length_eq]
  i_eq := h.i_eq
  validLines_eq := h.validLines_eq
  take_eq := by
    show (st.infos ++ more).take done.length = done
    rw [List.take_append_of_le_length (by rw [h.length_eq]; exact hle), h.take_eq]

/-- The state in front of the second loop. -/
def initState (uninit : Nat → TraceInfo) (lines : Nat) : ParseState where
  infos := (List.range lines).map uninit
  i := 0
  validLines := 0

theorem initState_succ (uninit : Nat → TraceInfo) (lines : Nat) :
    initState uninit (lines + 1) = (initState uninit lines).extend [uninit lines] := by
  rw [initState, List.range_succ, List.map_append]
  rfl

theorem parsedRecords_eq {format : TraceFormat} {mode : ReplayMode} {uninit : Nat → TraceInfo}
    {file : Text} {lines : List Text} (h : fgetsLines LINE_SIZE file = lines) :
    parsedRecords format mode uninit file =
      (lines.foldlM (parseLine format mode) (initState uninit lines.length)).map
        ParseState.records := by
  subst h
  simp only [parsedRecords, parseTraceInfo, initState, Option.bind_eq_bind]
  cases List.foldlM (parseLine format mode) _ (fgetsLines LINE_SIZE file) with
  | none => rfl
  | some st => rfl

/-- The records after one more line. -/
theorem parseLine_records {format : TraceFormat} {mode : ReplayMode} {total : Nat}
    {st : ParseState} {done : List TraceInfo} {info : TraceInfo} {line str : Text}
    (hst : Stored total st done) (hroom : done.length < total)
    (hslot : st.infos[st.i]? = some info) (hstrip : stripNewline line = some str) :
    (parseLine format mode st line).map ParseState.records =
      (lineRecords format mode str info).map (done ++ ·) := by
  have hline := @parseLine_lineRecords format mode total st done info line str hst hroom hslot
    hstrip
  cases hnew : lineRecords format mode str info with
  | none =>
      rw [hnew] at hline
      rw [hline]
      rfl
  | some new =>
      rw [hnew] at hline
      obtain ⟨st', hrun, hst'⟩ := hline
      rw [hrun, Option.map_some, hst'.records_eq]
      rfl

/-- A line without newline loses its last character. -/
theorem stripNewline_last {t : Text} {c : Byte} (h : ∀ c' ∈ t ++ [c], c' ≠ 0) :
    stripNewline (t ++ [c]) = some t := by
  have hstr : (t ++ [c]).takeWhile (· != 0) = t ++ [c] := by
    rw [List.takeWhile_eq_self_iff]
    exact fun c' hc' => bne_iff_ne.mpr (h c' hc')
  simp only [stripNewline, hstr]
  rw [if_neg (List.concat_ne_nil c t), List.dropLast_concat]

theorem not_lastCharacterCounts_nil (format : TraceFormat) (mode : ReplayMode) :
    ¬ LastCharacterCounts format mode [] := by
  rintro ⟨info, h⟩
  obtain ⟨ds, hds⟩ := format.directives_eq
  rw [hds, scanEnd_nil] at h
  exact h

theorem parseLines_concat (format : TraceFormat) (mode : ReplayMode) (st : ParseState)
    (lines : List Text) (line : Text) :
    (lines ++ [line]).foldlM (parseLine format mode) st =
      (lines.foldlM (parseLine format mode) st).bind (parseLine format mode · line) := by
  rw [List.foldlM_append]
  simp only [List.foldlM_cons, List.foldlM_nil, bind_pure]
  rfl

section FinalNewline

variable (format : TraceFormat) (mode : ReplayMode) (uninit : Nat → TraceInfo)

/-- An empty last line has no record. -/
theorem parsedRecords_empty_line {texts : List Text}
    (hlines : ∀ t ∈ texts, newline ∉ t ∧ t.length + 1 < LINE_SIZE)
    (hnul : ∀ t ∈ texts, ∀ c ∈ t, c ≠ 0) :
    parsedRecords format mode uninit (texts.flatMap (· ++ [newline])) =
      parsedRecords format mode uninit (texts.flatMap (· ++ [newline]) ++ [newline]) := by
  have hread : fgetsLines LINE_SIZE (texts.flatMap (· ++ [newline]) ++ [newline]) =
      texts.map (· ++ [newline]) ++ [[] ++ [newline]] := by
    have hlines' : ∀ t ∈ texts ++ [[]], newline ∉ t ∧ t.length + 1 < LINE_SIZE := by
      intro t ht
      rcases List.mem_append.mp ht with ht | ht
      · exact hlines t ht
      · rw [List.mem_singleton.mp ht]
        exact ⟨List.not_mem_nil, by decide⟩
    have h := fgetsLines_lines hlines'
    rwa [List.flatMap_append, List.map_append] at h
  rw [parsedRecords_eq (fgetsLines_lines hlines), parsedRecords_eq hread, List.length_append,
    List.length_singleton, List.length_map, parseLines_concat, initState_succ]
  have hinit : Stored texts.length (initState uninit texts.length) [] := stored_init _ uninit
  rw [parseLines_extend [uninit texts.length] _ _ [] hinit (by simp)]
  rcases @parseLines_terminated format mode _ texts _ [] hnul hinit (by simp) with
    ⟨-, hrun⟩ | ⟨-, st, done, hrun, hst, hle⟩
  · rw [hrun]
    rfl
  · rw [List.length_nil, Nat.zero_add] at hle
    rw [hrun, Option.map_some, hst.records_eq, Option.map_some, Option.bind_some]
    -- the line is scanned into an element behind the records
    have hst' := hst.extend hle [uninit texts.length]
    obtain ⟨info, hslot⟩ := hst'.slot (show done.length < texts.length + [uninit _].length from
      Nat.lt_succ_of_le hle)
    have hnone : lineRecords format mode [] info = some [] := by
      obtain ⟨ds, hds⟩ := format.directives_eq
      rw [lineRecords, hds, scanEnd_nil]
    rw [@parseLine_records format mode _ _ done info ([] ++ [newline]) [] hst'
      (Nat.lt_succ_of_le hle) hslot (stripNewline_line (by simp)), hnone, Option.map_some,
      List.append_nil]

/-- The final newline is immaterial exactly if the last character of the last line does
    not count, or if a line in front of it overflows a buffer. -/
theorem finalNewline_iff (texts : List Text) (last : Text)
    (hlines : ∀ t ∈ texts ++ [last],
      newline ∉ t ∧ (∀ c ∈ t, c ≠ 0) ∧ t.length < LINE_SIZE - 1) :
    parsedRecords format mode uninit (texts.flatMap (· ++ [newline]) ++ last) =
        parsedRecords format mode uninit (texts.flatMap (· ++ [newline]) ++ last ++ [newline]) ↔
      (∃ t ∈ texts, Overflows format t) ∨ ¬ LastCharacterCounts format mode last := by
  have htexts : ∀ t ∈ texts, newline ∉ t ∧ t.length + 1 < LINE_SIZE := fun t ht =>
    have h := hlines t (List.mem_append_left _ ht)
    ⟨h.1, Nat.add_lt_of_lt_sub h.2.2⟩
  have hnul : ∀ t ∈ texts, ∀ c ∈ t, c ≠ 0 := fun t ht => (hlines t (List.mem_append_left _ ht)).2.1
  obtain ⟨hlastnl, hlastnul, hlastlen⟩ := hlines last (List.mem_append_right _ (by simp))
  rcases List.eq_nil_or_concat last with rfl | ⟨t, c, rfl⟩
  · rw [List.append_nil]
    exact iff_of_true (parsedRecords_empty_line format mode uninit htexts hnul)
      (Or.inr (not_lastCharacterCounts_nil format mode))
  · rw [List.concat_eq_append] at *
    have hlen : (t ++ [c]).length + 1 < LINE_SIZE := Nat.add_lt_of_lt_sub hlastlen
    -- the lines that are read without the newline, and with it
    have hread := fgetsLines_last htexts (List.concat_ne_nil c t) hlastnl hlen
    have hread' : fgetsLines LINE_SIZE (texts.flatMap (· ++ [newline]) ++ (t ++ [c]) ++ [newline]) =
        texts.map (· ++ [newline]) ++ [t ++ [c] ++ [newline]] := by
      have hall : ∀ t' ∈ texts ++ [t ++ [c]], newline ∉ t' ∧ t'.length + 1 < LINE_SIZE := by
        intro t' ht'
        rcases List.mem_append.mp ht' with ht' | ht'
        · exact htexts t' ht'
        · rw [List.mem_singleton.mp ht']
          exact ⟨hlastnl, hlen⟩
      have h := fgetsLines_lines hall
      rw [List.flatMap_append, List.map_append, List.flatMap_singleton, ← List.append_assoc] at h
      exact h
    rw [parsedRecords_eq hread, parsedRecords_eq hread', List.length_append, List.length_append,
      List.length_singleton, List.length_singleton, List.length_map, parseLines_concat,
      parseLines_concat]
    have hinit : Stored (texts.length + 1) (initState uninit (texts.length + 1)) [] :=
      stored_init _ uninit
    rcases @parseLines_terminated format mode _ texts _ [] hnul hinit (by simp) with
      ⟨hover, hrun⟩ | ⟨hfit, st, done, hrun, hst, hle⟩
    · rw [hrun]
      exact iff_of_true rfl (Or.inl hover)
    · rw [List.length_nil, Nat.zero_add] at hle
      obtain ⟨info, hslot⟩ := hst.slot (Nat.lt_succ_of_le hle)
      have hnone : ¬ ∃ t ∈ texts, Overflows format t := fun ⟨t', ht', h⟩ => hfit t' ht' h
      rw [hrun, Option.bind_some, Option.bind_some,
        @parseLine_records format mode _ _ done info (t ++ [c]) t hst (Nat.lt_succ_of_le hle) hslot
          (stripNewline_last hlastnul),
        @parseLine_records format mode _ _ done info (t ++ [c] ++ [newline]) (t ++ [c]) hst
          (Nat.lt_succ_of_le hle) hslot (stripNewline_line hlastnul),
        or_iff_right hnone, ← lineRecords_concat format mode t c info]
      have hinj : Function.Injective (done ++ · : List TraceInfo → List TraceInfo) :=
        fun a b h => List.append_cancel_left h
      rw [(Option.map_injective hinj).eq_iff]
      exact eq_comm

end FinalNewline

/-- `1 2 a 3 8 W 6 0 b` behind `1 2 a 4`, in write-only mode: the record is lost with its
    last character, unless a blank stands behind it. -/
theorem finalNewline_iff_sample :
    let start : Text := [0x31, 0x20, 0x32, 0x20, 0x61, 0x20, 0x34, newline]
    let last : Text := (sampleRecord 3 charW (by decide)).text
    let records := parsedRecords .fiu .writeonly fun _ => sampleInfo 9 9 0x57 0x63 32
    LastCharacterCounts .fiu .writeonly last ∧ records (start ++ last) = some [] ∧
      (records (start ++ last ++ [newline])).map List.length = some 1 ∧
      ¬ LastCharacterCounts .fiu .writeonly (last ++ [0x20]) ∧
      (records (start ++ (last ++ [0x20]))).map List.length = some 1 ∧
      records (start ++ (last ++ [0x20])) = records (start ++ (last ++ [0x20]) ++ [newline]) := by
  intro start last records
  have hiff := fun last => finalNewline_iff .fiu .writeonly (fun _ => sampleInfo 9 9 0x57 0x63 32)
    [[0x31, 0x20, 0x32, 0x20, 0x61, 0x20, 0x34]] last
  have hfits : ¬ ∃ t ∈ [[0x31, 0x20, 0x32, 0x20, 0x61, 0x20, 0x34]], Overflows .fiu t := by
    rintro ⟨t, ht, h⟩
    rw [List.mem_singleton.mp ht, overflows_iff .fiu .writeonly _ (sampleInfo 9 9 0x57 0x63 32)] at h
    exact absurd h (by decide +kernel)
  have hlost : records (start ++ last) = some [] := by decide +kernel
  have hkept : (records (start ++ last ++ [newline])).map List.length = some 1 := by decide +kernel
  have hblank : records (start ++ (last ++ [0x20])) = records (start ++ (last ++ [0x20]) ++ [newline]) := by
    decide +kernel
  refine ⟨?_, hlost, hkept, ?_, by decide +kernel, hblank⟩
  · by_contra hnot
    have hsame := (hiff last (by decide)).mpr (Or.inr hnot)
    have hlost' : records (start ++ last ++ [newline]) = some [] := hsame.symm.trans hlost
    rw [hlost'] at hkept
    exact absurd hkept (by decide)
  · exact ((hiff (last ++ [0x20]) (by decide)).mp hblank).resolve_left hfits

/-- `1 2 a 0 8 W 6 0 bb` without a newline is stored with the fingerprint `b`. -/
theorem finalNewline_cuts_fingerprint :
    ¬ ∀ (format : TraceFormat) (mode : ReplayMode) (uninit : Nat → TraceInfo) (texts : List Text)
        (last : Text), (∀ t ∈ texts ++ [last],
          newline ∉ t ∧ (∀ c ∈ t, c ≠ 0) ∧ t.length < LINE_SIZE - 1) →
        parsedRecords format mode uninit (texts.flatMap (· ++ [newline]) ++ last) =
          parsedRecords format mode uninit
            (texts.flatMap (· ++ [newline]) ++ last ++ [newline]) := by
  intro h
  have hsame := h .fiu .writeonly (fun _ => sampleInfo 9 9 0x57 0x63 32) []
    [0x31, 0x20, 0x32, 0x20, 0x61, 0x20, 0x30, 0x20, 0x38, 0x20, 0x57, 0x20, 0x36, 0x20, 0x30,
      0x20, 0x62, 0x62] (by decide)
  revert hsame
  decide +kernel

end GogetaTools.Replay
