/-
  GogetaTools.Replay.Parse

  `parse_trace_info`: from a trace file to the array of records.

  The file is read twice, to count the lines and to scan them.  All lines are
  scanned into the array element `i`, which advances only when a record is
  stored, so an element may have been written several times before it counts;
  `Stored` says what the elements in front of `i` are, whatever the others hold.
-/

import GogetaTools.Lib.Stdio
import GogetaTools.Replay.Trace

namespace GogetaTools.Replay

open Stdio Decimal

def LINE_SIZE : Nat := 4096

def MAX_NAME_LEN : Nat := 256

/-- `trace_format_type`. -/
inductive TraceFormat
  | fiu
  | hitsz
deriving DecidableEq

def TraceInfo.setMd5 (info : TraceInfo) (md5 : Text) (h : md5.length < 257) : TraceInfo :=
  { info with md5 := md5, md5_le := Nat.le_of_lt_succ h }

/-- `"%lu %lu %s %lu %lu %c %d %d %s"`; the process name is not looked at. -/
def fiuFormat : List (Directive TraceInfo) :=
  [ .lu (fun v info => { info with ts := v }), .space,
    .lu (fun v info => { info with pid := v }), .space,
    .str MAX_NAME_LEN (fun _ _ info => info), .space,
    .lu (fun v info => { info with lba := v }), .space,
    .lu (fun v info => { info with blks := v }), .space,
    .chr (fun c info => { info with rw := c }), .space,
    .d (fun v info => { info with major := v }), .space,
    .d (fun v info => { info with minor := v }), .space,
    .str 257 (fun md5 h info => info.setMd5 md5 h) ]

/-- `"%lu %lu %lu %s"`; `fid` shares the memory of `pid`. -/
def hitszFormat : List (Directive TraceInfo) :=
  [ .lu (fun v info => { info with ts := v }), .space,
    .lu (fun v info => { info with pid := v }), .space,
    .lu (fun v info => { info with lba := v }), .space,
    .str 257 (fun md5 h info => info.setMd5 md5 h) ]

/-- The array, `i` and `valid_lines`. -/
structure ParseState where
  infos : List TraceInfo
  i : Nat
  validLines : Nat

/-- `line[strlen(line) - 1] = '\0'`, with the string that remains; none where
    the string is empty, as the store is then in front of `line`. -/
def stripNewline (line : Text) : Option Text :=
  let str := line.takeWhile (· != 0)
  if str = [] then none else some str.dropLast

/-- The element at `i` as scanned. -/
def ParseState.scanned (st : ParseState) (info : TraceInfo) : ParseState :=
  { st with infos := st.infos.set st.i info }

/-- The element at `i` as a record, and the next element. -/
def ParseState.store (st : ParseState) (info : TraceInfo) : ParseState where
  infos := st.infos.set st.i info
  i := st.i + 1
  validLines := st.validLines + 1

/-- One turn of the second loop. -/
def parseLine (format : TraceFormat) (mode : ReplayMode) (st : ParseState) (line : Text) :
    Option ParseState := do
  let info ← st.infos[st.i]?
  let line ← stripNewline line
  match format with
  | .fiu =>
      let (info, n) ← sscanf fiuFormat line info
      if n = 9 then
        match mode with
        | .readwrite => some (st.store { info with ofs := info.lba <<< 9 })
        | .writeonly | .append =>
            if info.rw = charW then some (st.store { info with ofs := info.lba <<< 9 })
            else some (st.scanned info)
      else some (st.scanned info)
  | .hitsz =>
      let (info, n) ← sscanf hitszFormat line info
      if n = 4 then
        some (st.store { info with rw := charW, blks := 8, ofs := info.lba <<< 9 })
      else some (st.scanned info)

/-- The array and the returned count; `uninit` is the memory that `malloc` gives. -/
def parseTraceInfo (format : TraceFormat) (mode : ReplayMode) (uninit : Nat → TraceInfo)
    (file : Text) : Option (List TraceInfo × Nat) := do
  let lines := (fgetsLines LINE_SIZE file).length
  let st ← (fgetsLines LINE_SIZE file).foldlM (parseLine format mode)
    { infos := (List.range lines).map uninit, i := 0, validLines := 0 }
  some (st.infos, st.validLines)

/-! ## The records in front of `i` -/

/-- The array of `lines` elements starts with the records `done`. -/
structure Stored (lines : Nat) (st : ParseState) (done : List TraceInfo) : Prop where
  length_eq : st.infos.length = lines
  i_eq : st.i = done.length
  validLines_eq : st.validLines = done.length
  take_eq : st.infos.take done.length = done

theorem stored_init (lines : Nat) (uninit : Nat → TraceInfo) :
    Stored lines { infos := (List.range lines).map uninit, i := 0, validLines := 0 } [] where
  length_eq := by rw [List.length_map, List.length_range]
  i_eq := rfl
  validLines_eq := rfl
  take_eq := rfl

/-- Scanning into the element at `i` leaves the records alone. -/
theorem Stored.scanned {lines : Nat} {st : ParseState} {done : List TraceInfo}
    (h : Stored lines st done) (info : TraceInfo) : Stored lines (st.scanned info) done where
  length_eq := by rw [ParseState.scanned, List.length_set, h.length_eq]
  i_eq := h.i_eq
  validLines_eq := h.validLines_eq
  take_eq := by
    show (st.infos.set st.i info).take done.length = done
    rw [List.take_set_of_le (Nat.le_of_eq h.i_eq.symm), h.take_eq]

/-- Storing a record appends it. -/
theorem Stored.store {lines : Nat} {st : ParseState} {done : List TraceInfo}
    (h : Stored lines st done) (hroom : done.length < lines) (info : TraceInfo) :
    Stored lines (st.store info) (done ++ [info]) where
  length_eq := by rw [ParseState.store, List.length_set, h.length_eq]
  i_eq := by
    rw [List.length_append, List.length_singleton]
    exact congrArg (· + 1) h.i_eq
  validLines_eq := by
    rw [List.length_append, List.length_singleton]
    exact congrArg (· + 1) h.validLines_eq
  take_eq := by
    show (st.infos.set st.i info).take (done ++ [info]).length = done ++ [info]
    have hlt : done.length < (st.infos.set st.i info).length := by
      rw [List.length_set, h.length_eq]
      exact hroom
    rw [List.length_append, List.length_singleton, List.take_add_one,
      List.take_set_of_le (Nat.le_of_eq h.i_eq.symm), h.take_eq, h.i_eq,
      List.getElem?_set_self (by rw [h.length_eq]; exact hroom)]
    rfl

/-- There is an element to scan into as long as there are more lines than records. -/
theorem Stored.slot {lines : Nat} {st : ParseState} {done : List TraceInfo}
    (h : Stored lines st done) (hroom : done.length < lines) :
    ∃ info, st.infos[st.i]? = some info :=
  ⟨_, List.getElem?_eq_getElem (by rw [h.i_eq, h.length_eq]; exact hroom)⟩

/-- What a turn of the loop can do: it scans, and it may store. -/
theorem parseLine_cases {format : TraceFormat} {mode : ReplayMode} {st st' : ParseState}
    {line : Text} (h : parseLine format mode st line = some st') :
    st.i < st.infos.length ∧ ∃ info, st' = st.scanned info ∨ st' = st.store info := by
  obtain ⟨info, hslot, h⟩ := Option.bind_eq_some_iff.mp h
  obtain ⟨str, -, h⟩ := Option.bind_eq_some_iff.mp h
  refine ⟨(List.getElem?_eq_some_iff.mp hslot).1, ?_⟩
  cases format with
  | fiu =>
      obtain ⟨⟨info', n⟩, -, h⟩ := Option.bind_eq_some_iff.mp h
      simp only at h
      split at h
      · split at h
        · exact ⟨_, Or.inr (Option.some.inj h).symm⟩
        · split at h
          · exact ⟨_, Or.inr (Option.some.inj h).symm⟩
          · exact ⟨_, Or.inl (Option.some.inj h).symm⟩
        · split at h
          · exact ⟨_, Or.inr (Option.some.inj h).symm⟩
          · exact ⟨_, Or.inl (Option.some.inj h).symm⟩
      · exact ⟨_, Or.inl (Option.some.inj h).symm⟩
  | hitsz =>
      obtain ⟨⟨info', n⟩, -, h⟩ := Option.bind_eq_some_iff.mp h
      simp only at h
      split at h
      · exact ⟨_, Or.inr (Option.some.inj h).symm⟩
      · exact ⟨_, Or.inl (Option.some.inj h).symm⟩

theorem parseLines_stored {format : TraceFormat} {mode : ReplayMode} {total : Nat} :
    ∀ (lines : List Text) (st st' : ParseState) (done : List TraceInfo), Stored total st done →
      lines.foldlM (parseLine format mode) st = some st' → ∃ done', Stored total st' done' := by
  intro lines
  induction lines with
  | nil =>
      intro st st' done hst h
      cases h
      exact ⟨done, hst⟩
  | cons line lines ih =>
      intro st st' done hst h
      rw [List.foldlM_cons] at h
      obtain ⟨st₁, hline, hrest⟩ := Option.bind_eq_some_iff.mp h
      obtain ⟨hlt, info, rfl | rfl⟩ := parseLine_cases hline
      · exact ih _ _ _ (hst.scanned info) hrest
      · rw [hst.i_eq, hst.length_eq] at hlt
        exact ih _ _ _ (hst.store hlt info) hrest

/-- The returned count does not exceed the array. -/
theorem parseTraceInfo_count_le {format : TraceFormat} {mode : ReplayMode}
    {uninit : Nat → TraceInfo} {file : Text} {array : List TraceInfo} {validLines : Nat}
    (h : parseTraceInfo format mode uninit file = some (array, validLines)) :
    validLines ≤ array.length := by
  obtain ⟨st, hrun, heq⟩ := Option.bind_eq_some_iff.mp h
  cases heq
  obtain ⟨done, hst⟩ := parseLines_stored _ _ _ _ (stored_init _ uninit) hrun
  have hlen := congrArg List.length hst.take_eq
  rw [List.length_take] at hlen
  rw [hst.validLines_eq]
  omega

/-- A line without NUL loses its newline, and nothing else. -/
theorem stripNewline_line {text : Text} (h : ∀ c ∈ text, c ≠ 0) :
    stripNewline (text ++ [newline]) = some text := by
  have hstr : (text ++ [newline]).takeWhile (· != 0) = text ++ [newline] := by
    rw [List.takeWhile_append_of_pos (by simpa using h)]
    rfl
  simp only [stripNewline, hstr]
  rw [if_neg (by simp), List.dropLast_concat]

/-! ## Records as they are printed -/

/-- A trace record of the FIU format: the tokens hold no white space and no NUL. -/
structure FiuRecord where
  ts : Word
  pid : Word
  process : Token 255
  lba : Word
  blks : Word
  rw : Byte
  rw_graph : isGraph rw = true
  major : Word32
  major_lt : major.toNat < intLimit
  minor : Word32
  minor_lt : minor.toNat < intLimit
  md5 : Token 256

/-- The fields as `parse_trace_info` scans them. -/
def FiuRecord.fields (r : FiuRecord) : List (TextField TraceInfo) :=
  [ .lu (fun v info => { info with ts := v }) r.ts,
    .lu (fun v info => { info with pid := v }) r.pid,
    .str (fun _ _ info => info) r.process,
    .lu (fun v info => { info with lba := v }) r.lba,
    .lu (fun v info => { info with blks := v }) r.blks,
    .chr (fun c info => { info with rw := c }) r.rw r.rw_graph,
    .d (fun v info => { info with major := v }) r.major,
    .d (fun v info => { info with minor := v }) r.minor,
    .str (fun md5 h info => info.setMd5 md5 h) r.md5 ]

/-- `ts pid process lba blks rw major minor md5`. -/
def FiuRecord.text (r : FiuRecord) : Text :=
  [blank].intercalate [ decimal r.ts.toNat, decimal r.pid.toNat, r.process.text,
    decimal r.lba.toNat, decimal r.blks.toNat, [r.rw], decimal r.major.toNat,
    decimal r.minor.toNat, r.md5.text ]

/-- The record in memory; the offset is the LBA in bytes, modulo `2 ^ 64`. -/
def FiuRecord.info (r : FiuRecord) : TraceInfo where
  ts := r.ts
  pid := r.pid
  lba := r.lba
  ofs := BitVec.ofNat 64 (r.lba.toNat * 512)
  blks := r.blks
  rw := r.rw
  major := r.major
  minor := r.minor
  md5 := r.md5.text
  md5_le := r.md5.length_le

theorem FiuRecord.text_eq (r : FiuRecord) : r.text = printLine r.fields := rfl

theorem FiuRecord.format_eq (r : FiuRecord) : format r.fields = fiuFormat := rfl

theorem shiftLeft_nine (lba : Word) : lba <<< 9 = BitVec.ofNat 64 (lba.toNat * 512) := by
  apply BitVec.eq_of_toNat_eq
  rw [BitVec.toNat_shiftLeft, BitVec.toNat_ofNat, Nat.shiftLeft_eq]

/-- Scanning a printed record restores every field, whatever the element held. -/
theorem sscanf_record (r : FiuRecord) (info : TraceInfo) :
    ∃ info', sscanf fiuFormat r.text info = some (info', 9) ∧ info'.rw = r.rw ∧
      { info' with ofs := info'.lba <<< 9 } = r.info := by
  have hscan := sscanf_fields r.fields info
  rw [r.format_eq, ← r.text_eq] at hscan
  refine ⟨_, hscan, rfl, ?_⟩
  simp only [FiuRecord.info, ← shiftLeft_nine]
  rfl

/-- A line of a trace file, without its newline. -/
inductive FiuLine
  | record (r : FiuRecord)
  | other (text : Text)

def FiuLine.text : FiuLine → Text
  | .record r => r.text
  | .other text => text

/-- Fewer than nine fields match, and the tokens fit their buffers. -/
def Unmatched (text : Text) : Prop :=
  ∀ info, ∃ info' n, sscanf fiuFormat text info = some (info', n) ∧ n < 9

/-- The lines that may stand between the records. -/
def FiuLine.Ok : FiuLine → Prop
  | .record _ => True
  | .other text => newline ∉ text ∧ (∀ c ∈ text, c ≠ 0) ∧ Unmatched text

def printTrace (items : List FiuLine) : Text := (items.map FiuLine.text).flatMap (· ++ [newline])

/-- The records of a mode: all of them, or the writes. -/
def keeps (mode : ReplayMode) (r : FiuRecord) : Bool := mode = .readwrite ∨ r.rw = charW

def FiuLine.record? : FiuLine → Option FiuRecord
  | .record r => some r
  | .other _ => none

def keptRecords (mode : ReplayMode) (items : List FiuLine) : List TraceInfo :=
  ((items.filterMap FiuLine.record?).filter (keeps mode)).map FiuRecord.info

theorem keptRecords_record (mode : ReplayMode) (r : FiuRecord) (items : List FiuLine) :
    keptRecords mode (.record r :: items) =
      if keeps mode r then r.info :: keptRecords mode items else keptRecords mode items := by
  cases hkeep : keeps mode r with
  | true => simp [keptRecords, FiuLine.record?, hkeep]
  | false => simp [keptRecords, FiuLine.record?, hkeep]

theorem keptRecords_other (mode : ReplayMode) (text : Text) (items : List FiuLine) :
    keptRecords mode (.other text :: items) = keptRecords mode items := rfl

/-! ## Lines, one by one -/

/-- What a line does on which all nine fields match. -/
theorem parseLine_nine {st : ParseState} {info info' : TraceInfo} {line str : Text}
    (mode : ReplayMode) (hslot : st.infos[st.i]? = some info) (hstrip : stripNewline line = some str)
    (hscan : sscanf fiuFormat str info = some (info', 9)) :
    parseLine .fiu mode st line =
      some (if mode = .readwrite ∨ info'.rw = charW then
        st.store { info' with ofs := info'.lba <<< 9 } else st.scanned info') := by
  simp only [parseLine, hslot, hstrip, hscan, Option.bind_eq_bind, Option.bind_some, if_true]
  cases mode with
  | readwrite => rw [if_pos (Or.inl rfl)]
  | writeonly =>
      by_cases hw : info'.rw = charW
      · rw [if_pos hw, if_pos (Or.inr hw)]
      · rw [if_neg hw, if_neg (by simp [hw])]
  | append =>
      by_cases hw : info'.rw = charW
      · rw [if_pos hw, if_pos (Or.inr hw)]
      · rw [if_neg hw, if_neg (by simp [hw])]

/-- A printed record is stored if its mode keeps it. -/
theorem parseLine_record {lines : Nat} {st : ParseState} {done : List TraceInfo}
    (h : Stored lines st done) (hroom : done.length < lines) (mode : ReplayMode) (r : FiuRecord) :
    ∃ st', parseLine .fiu mode st (r.text ++ [newline]) = some st' ∧
      Stored lines st' (if keeps mode r then done ++ [r.info] else done) := by
  obtain ⟨info, hslot⟩ := h.slot hroom
  obtain ⟨info', hscan, hrw, hinfo⟩ := sscanf_record r info
  have hstrip : stripNewline (r.text ++ [newline]) = some r.text :=
    stripNewline_line fun c hc => ne_zero_of_mem_printLine (r.text_eq ▸ hc)
  have hline := parseLine_nine mode hslot hstrip hscan
  rw [hinfo, hrw] at hline
  by_cases hkeep : mode = .readwrite ∨ r.rw = charW
  · rw [if_pos hkeep] at hline
    refine ⟨st.store r.info, hline, ?_⟩
    rw [keeps, if_pos (decide_eq_true hkeep)]
    exact h.store hroom r.info
  · rw [if_neg hkeep] at hline
    refine ⟨st.scanned info', hline, ?_⟩
    rw [keeps, if_neg (by simpa using hkeep)]
    exact h.scanned info'

/-- Any other line only writes to the element at `i`. -/
theorem parseLine_other {lines : Nat} {st : ParseState} {done : List TraceInfo}
    (h : Stored lines st done) (hroom : done.length < lines) (mode : ReplayMode) {text : Text}
    (hnul : ∀ c ∈ text, c ≠ 0) (hun : Unmatched text) :
    ∃ st', parseLine .fiu mode st (text ++ [newline]) = some st' ∧ Stored lines st' done := by
  obtain ⟨info, hslot⟩ := h.slot hroom
  obtain ⟨info', n, hscan, hn⟩ := hun info
  refine ⟨st.scanned info', ?_, h.scanned info'⟩
  simp only [parseLine, hslot, stripNewline_line hnul, hscan, Option.bind_eq_bind,
    Option.bind_some, if_neg (Nat.ne_of_lt hn)]

/-- The run over the lines appends the kept records. -/
theorem parseLines_items {lines : Nat} (mode : ReplayMode) :
    ∀ (items : List FiuLine) (st : ParseState) (done : List TraceInfo),
      (∀ it ∈ items, it.Ok) → Stored lines st done → done.length + items.length ≤ lines →
      ∃ st', ((items.map FiuLine.text).map (· ++ [newline])).foldlM (parseLine .fiu mode) st =
          some st' ∧
        Stored lines st' (done ++ keptRecords mode items) := by
  intro items
  induction items with
  | nil =>
      intro st done _ hst _
      refine ⟨st, rfl, ?_⟩
      rw [show keptRecords mode [] = [] from rfl, List.append_nil]
      exact hst
  | cons it items ih =>
      intro st done hok hst hlen
      rw [List.length_cons] at hlen
      have hrest : ∀ it' ∈ items, it'.Ok := fun it' h => hok it' (List.mem_cons_of_mem _ h)
      simp only [List.map_cons, List.foldlM_cons]
      -- a record adds itself if the mode keeps it, any other line adds nothing
      cases it with
      | record r =>
          obtain ⟨st₁, hline, hst₁⟩ := parseLine_record hst (by omega) mode r
          rw [keptRecords_record]
          simp only [FiuLine.text, hline, Option.bind_eq_bind, Option.bind_some]
          cases hkeep : keeps mode r with
          | true =>
              rw [hkeep, if_pos rfl] at hst₁
              obtain ⟨st', hrun, hst'⟩ := ih st₁ (done ++ [r.info]) hrest hst₁ (by
                rw [List.length_append, List.length_singleton]
                omega)
              rw [List.append_assoc, List.singleton_append] at hst'
              exact ⟨st', hrun, by rw [if_pos rfl]; exact hst'⟩
          | false =>
              rw [hkeep, if_neg Bool.false_ne_true] at hst₁
              obtain ⟨st', hrun, hst'⟩ := ih st₁ done hrest hst₁ (by omega)
              exact ⟨st', hrun, by rw [if_neg Bool.false_ne_true]; exact hst'⟩
      | other text =>
          obtain ⟨-, hnul, hun⟩ := hok _ List.mem_cons_self
          obtain ⟨st₁, hline, hst₁⟩ := parseLine_other hst (by omega) mode hnul hun
          obtain ⟨st', hrun, hst'⟩ := ih st₁ done hrest hst₁ (by omega)
          rw [keptRecords_other]
          simp only [FiuLine.text, hline, Option.bind_eq_bind, Option.bind_some]
          exact ⟨st', hrun, hst'⟩

theorem FiuLine.Ok.newline_not_mem {it : FiuLine} (h : it.Ok) : newline ∉ it.text := by
  cases it with
  | record r =>
      show newline ∉ r.text
      rw [r.text_eq]
      exact newline_not_mem_printLine r.fields
  | other text => exact h.1

/-! ## Parsing undoes printing -/

/-- Records printed one per line, between lines on which fewer than nine fields
    match, come back in order: all of them in read-write mode, the writes in
    the other modes.  The returned count is the number of records stored. -/
theorem parseTraceInfo_printTrace (mode : ReplayMode) (uninit : Nat → TraceInfo)
    (items : List FiuLine) (hok : ∀ it ∈ items, it.Ok)
    (hlen : ∀ it ∈ items, it.text.length < LINE_SIZE - 1) :
    ∃ infos, parseTraceInfo .fiu mode uninit (printTrace items) =
        some (infos, (keptRecords mode items).length) ∧
      infos.take (keptRecords mode items).length = keptRecords mode items := by
  have hlines : fgetsLines LINE_SIZE (printTrace items) =
      (items.map FiuLine.text).map (· ++ [newline]) := by
    apply fgetsLines_lines
    intro t ht
    obtain ⟨it, hit, rfl⟩ := List.mem_map.mp ht
    exact ⟨(hok it hit).newline_not_mem, Nat.add_lt_of_lt_sub (hlen it hit)⟩
  obtain ⟨st, hrun, hst⟩ := parseLines_items mode items _ [] hok
    (stored_init items.length uninit) (by simp)
  rw [List.nil_append] at hst
  refine ⟨st.infos, ?_, hst.take_eq⟩
  simp only [parseTraceInfo, hlines, List.length_map]
  rw [hrun]
  simp only [Option.bind_eq_bind, Option.bind_some, hst.validLines_eq]

/-- `1 2 a lba 8 rw 6 0 b`. -/
def sampleRecord (lba : Word) (rw : Byte) (h : isGraph rw = true) : FiuRecord where
  ts := 1
  pid := 2
  process := ⟨[0x61], by decide, by decide, by decide⟩
  lba := lba
  blks := 8
  rw := rw
  rw_graph := h
  major := 6
  major_lt := by decide
  minor := 0
  minor_lt := by decide
  md5 := ⟨[0x62], by decide, by decide, by decide⟩

/-- A write behind a read and a line `1 2 a 4` of four fields, in write-only mode; its
    LBA is so large that the offset wraps. -/
theorem parseTraceInfo_printTrace_sample :
    ∃ infos, parseTraceInfo .fiu .writeonly (fun _ => sampleInfo 9 9 0x57 0x63 32)
        (printTrace [.record (sampleRecord 3 0x52 (by decide)),
          .other [0x31, 0x20, 0x32, 0x20, 0x61, 0x20, 0x34],
          .record (sampleRecord (BitVec.ofNat 64 (2 ^ 63 + 1)) 0x57 (by decide))]) =
        some (infos, 1) ∧
      infos.take 1 = [(sampleRecord (BitVec.ofNat 64 (2 ^ 63 + 1)) 0x57 (by decide)).info] := by
  apply parseTraceInfo_printTrace .writeonly (fun _ => sampleInfo 9 9 0x57 0x63 32)
    [.record (sampleRecord 3 0x52 (by decide)),
      .other [0x31, 0x20, 0x32, 0x20, 0x61, 0x20, 0x34],
      .record (sampleRecord (BitVec.ofNat 64 (2 ^ 63 + 1)) 0x57 (by decide))]
  · intro it hit
    simp only [List.mem_cons, List.not_mem_nil, or_false] at hit
    rcases hit with rfl | rfl | rfl
    · trivial
    · exact ⟨by decide, by decide, fun info => ⟨_, 4, rfl, by decide⟩⟩
    · trivial
  · intro it hit
    simp only [List.mem_cons, List.not_mem_nil, or_false] at hit
    rcases hit with rfl | rfl | rfl
    · decide
    · decide
    · decide

end GogetaTools.Replay
