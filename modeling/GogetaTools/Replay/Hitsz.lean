/-
  GogetaTools.Replay.Hitsz

  Traces in the HITSZ format, `ts fid lba md5` per line, from their text to the
  blocks on disk.

  The format has no `rw`, so that the mode does not matter to the parser: it
  stores every record as a write of 8 sectors.  `major` and `minor` are not
  scanned and stay what `malloc` gave; nothing reads them, and `Matches` says
  what the other fields are.
-/

import GogetaTools.Replay.Outcome
import GogetaTools.Replay.Parse

namespace GogetaTools.Replay

open Stdio Decimal

/-! ## Records as they are printed -/

/-- A trace record of the HITSZ format. -/
structure HitszRecord where
  ts : Word
  fid : Word
  lba : Word
  md5 : Token 256

/-- The fields as `parse_trace_info` scans them. -/
def HitszRecord.fields (r : HitszRecord) : List (TextField TraceInfo) :=
  [ .lu (fun v info => { info with ts := v }) r.ts,
    .lu (fun v info => { info with pid := v }) r.fid,
    .lu (fun v info => { info with lba := v }) r.lba,
    .str (fun md5 h info => info.setMd5 md5 h) r.md5 ]

/-- `ts fid lba md5`. -/
def HitszRecord.text (r : HitszRecord) : Text :=
  [blank].intercalate [ decimal r.ts.toNat, decimal r.fid.toNat, decimal r.lba.toNat, r.md5.text ]

/-- What is stored for the record: a write of 8 sectors at the LBA in bytes, modulo `2 ^ 64`. -/
structure HitszRecord.Matches (r : HitszRecord) (info : TraceInfo) : Prop where
  ts : info.ts = r.ts
  fid : info.pid = r.fid
  lba : info.lba = r.lba
  ofs : info.ofs = BitVec.ofNat 64 (r.lba.toNat * 512)
  blks : info.blks = 8
  rw : info.rw = charW
  md5 : info.md5 = r.md5.text

/-- A line of a trace file, without its newline. -/
inductive HitszLine
  | record (r : HitszRecord)
  | other (text : Text)

def HitszLine.text : HitszLine → Text
  | .record r => r.text
  | .other text => text

/-- On the lines between the records fewer than four fields match. -/
def HitszLine.Ok : HitszLine → Prop
  | .record _ => True
  | .other text => newline ∉ text ∧ (∀ c ∈ text, c ≠ 0) ∧
      ∀ info, ∃ info' n, sscanf hitszFormat text info = some (info', n) ∧ n < 4

def HitszLine.record? : HitszLine → Option HitszRecord
  | .record r => some r
  | .other _ => none

def printHitsz (items : List HitszLine) : Text :=
  (items.map HitszLine.text).flatMap (· ++ [newline])

theorem HitszRecord.text_eq (r : HitszRecord) : r.text = printLine r.fields := rfl

theorem HitszRecord.format_eq (r : HitszRecord) : format r.fields = hitszFormat := rfl

theorem HitszLine.Ok.newline_not_mem {it : HitszLine} (h : it.Ok) : newline ∉ it.text := by
  cases it with
  | record r =>
      show newline ∉ r.text
      rw [r.text_eq]
      exact newline_not_mem_printLine r.fields
  | other text => exact h.1

/-! ## Lines, one by one -/

/-- Scanning a printed record restores its fields, whatever the element held. -/
theorem sscanf_hitsz (r : HitszRecord) (info : TraceInfo) :
    ∃ info', sscanf hitszFormat r.text info = some (info', 4) ∧
      r.Matches { info' with rw := charW, blks := 8, ofs := info'.lba <<< 9 } := by
  have hscan := sscanf_fields r.fields info
  rw [r.format_eq, ← r.text_eq] at hscan
  exact ⟨_, hscan, ⟨rfl, rfl, rfl, shiftLeft_nine r.lba, rfl, rfl, rfl⟩⟩

/-- A printed record is stored in every mode. -/
theorem parseLine_hitsz {lines : Nat} {st : ParseState} {done : List TraceInfo}
    (h : Stored lines st done) (hroom : done.length < lines) (mode : ReplayMode) (r : HitszRecord) :
    ∃ st' info, parseLine .hitsz mode st (r.text ++ [newline]) = some st' ∧ r.Matches info ∧
      Stored lines st' (done ++ [info]) := by
  obtain ⟨info, hslot⟩ := h.slot hroom
  obtain ⟨info', hscan, hmatches⟩ := sscanf_hitsz r info
  have hstrip : stripNewline (r.text ++ [newline]) = some r.text :=
    stripNewline_line fun c hc => ne_zero_of_mem_printLine (r.text_eq ▸ hc)
  refine ⟨_, _, ?_, hmatches, h.store hroom _⟩
  simp only [parseLine, hslot, hstrip, hscan, Option.bind_eq_bind, Option.bind_some, if_true]

/-- Any other line only writes to the element at `i`. -/
theorem parseLine_hitsz_other {lines : Nat} {st : ParseState} {done : List TraceInfo}
    (h : Stored lines st done) (hroom : done.length < lines) (mode : ReplayMode) {text : Text}
    (hok : (HitszLine.other text).Ok) :
    ∃ st', parseLine .hitsz mode st (text ++ [newline]) = some st' ∧ Stored lines st' done := by
  obtain ⟨-, hnul, hun⟩ := hok
  obtain ⟨info, hslot⟩ := h.slot hroom
  obtain ⟨info', n, hscan, hn⟩ := hun info
  refine ⟨st.scanned info', ?_, h.scanned info'⟩
  simp only [parseLine, hslot, stripNewline_line hnul, hscan, Option.bind_eq_bind,
    Option.bind_some, if_neg (Nat.ne_of_lt hn)]

/-- The run over the lines stores the records. -/
theorem parseLines_hitsz {lines : Nat} (mode : ReplayMode) :
    ∀ (items : List HitszLine) (st : ParseState) (done : List TraceInfo),
      (∀ it ∈ items, it.Ok) → Stored lines st done → done.length + items.length ≤ lines →
      ∃ st' new, ((items.map HitszLine.text).map (· ++ [newline])).foldlM
            (parseLine .hitsz mode) st = some st' ∧
        List.Forall₂ HitszRecord.Matches (items.filterMap HitszLine.record?) new ∧
        Stored lines st' (done ++ new) := by
  intro items
  induction items with
  | nil =>
      intro st done _ hst _
      exact ⟨st, [], rfl, List.Forall₂.nil, by rw [List.append_nil]; exact hst⟩
  | cons it items ih =>
      intro st done hok hst hlen
      rw [List.length_cons] at hlen
      have hrest : ∀ it' ∈ items, it'.Ok := fun it' h => hok it' (List.mem_cons_of_mem _ h)
      simp only [List.map_cons, List.foldlM_cons]
      cases it with
      | record r =>
          obtain ⟨st₁, info, hline, hinfo, hst₁⟩ := parseLine_hitsz hst (by omega) mode r
          obtain ⟨st', new, hrun, hnew, hst'⟩ := ih st₁ (done ++ [info]) hrest hst₁ (by
            rw [List.length_append, List.length_singleton]
            omega)
          refine ⟨st', info :: new, ?_, List.Forall₂.cons hinfo hnew, ?_⟩
          · simp only [HitszLine.text, hline, Option.bind_eq_bind, Option.bind_some]
            exact hrun
          · rwa [List.append_assoc, List.singleton_append] at hst'
      | other text =>
          obtain ⟨st₁, hline, hst₁⟩ := parseLine_hitsz_other hst (by omega) mode
            (hok _ List.mem_cons_self)
          obtain ⟨st', new, hrun, hnew, hst'⟩ := ih st₁ done hrest hst₁ (by omega)
          refine ⟨st', new, ?_, hnew, hst'⟩
          simp only [HitszLine.text, hline, Option.bind_eq_bind, Option.bind_some]
          exact hrun

/-! ## Parsing undoes printing -/

/-- The array that is returned begins with the records of the lines. -/
structure ParsesTo (items : List HitszLine) (array : List TraceInfo) (validLines : Nat) :
    Prop where
  count : validLines = (items.filterMap HitszLine.record?).length
  matches_ : List.Forall₂ HitszRecord.Matches (items.filterMap HitszLine.record?)
    (array.take validLines)

theorem parseTraceInfo_parsesTo (mode : ReplayMode) (uninit : Nat → TraceInfo)
    {items : List HitszLine} (hok : ∀ it ∈ items, it.Ok)
    (hlen : ∀ it ∈ items, it.text.length < LINE_SIZE - 1) :
    ∃ array validLines, parseTraceInfo .hitsz mode uninit (printHitsz items) =
        some (array, validLines) ∧ ParsesTo items array validLines := by
  have hlines : fgetsLines LINE_SIZE (printHitsz items) =
      (items.map HitszLine.text).map (· ++ [newline]) := by
    apply fgetsLines_lines
    intro t ht
    obtain ⟨it, hit, rfl⟩ := List.mem_map.mp ht
    exact ⟨(hok it hit).newline_not_mem, Nat.add_lt_of_lt_sub (hlen it hit)⟩
  obtain ⟨st, new, hrun, hnew, hst⟩ := parseLines_hitsz mode items _ [] hok
    (stored_init items.length uninit) (by simp)
  rw [List.nil_append] at hst
  refine ⟨st.infos, st.validLines, ?_, ?_, ?_⟩
  · simp only [parseTraceInfo, hlines, List.length_map]
    rw [hrun]
    rfl
  · rw [hst.validLines_eq, hnew.length_eq]
  · rw [hst.validLines_eq, hst.take_eq]
    exact hnew

/-- Records printed one per line, between lines on which fewer than four fields match,
    come back in order, as writes, in every mode. -/
theorem parseTraceInfo_printHitsz (mode : ReplayMode) (uninit : Nat → TraceInfo)
    (items : List HitszLine) (hok : ∀ it ∈ items, it.Ok)
    (hlen : ∀ it ∈ items, it.text.length < LINE_SIZE - 1) :
    ∃ array, parseTraceInfo .hitsz mode uninit (printHitsz items) =
        some (array, (items.filterMap HitszLine.record?).length) ∧
      List.Forall₂ HitszRecord.Matches (items.filterMap HitszLine.record?)
        (array.take (items.filterMap HitszLine.record?).length) := by
  obtain ⟨array, validLines, hparse, rfl, hmatches⟩ := parseTraceInfo_parsesTo mode uninit hok hlen
  exact ⟨array, hparse, hmatches⟩

/-- `ts 2 lba bb…b`, with 32 letters. -/
def sampleHitsz (ts lba : Word) : HitszRecord where
  ts := ts
  fid := 2
  lba := lba
  md5 := ⟨List.replicate 32 0x62, by decide, by decide, by decide⟩

/-- Two records, and a line `1 2 a` of three fields between them. -/
theorem parseTraceInfo_printHitsz_sample :
    ∃ array, parseTraceInfo .hitsz .readwrite (fun _ => sampleInfo 9 9 0x57 0x63 32)
        (printHitsz [.record (sampleHitsz 7 8), .other [0x31, 0x20, 0x32, 0x20, 0x61],
          .record (sampleHitsz 6 (BitVec.ofNat 64 (2 ^ 63 + 1)))]) = some (array, 2) ∧
      List.Forall₂ HitszRecord.Matches
        [sampleHitsz 7 8, sampleHitsz 6 (BitVec.ofNat 64 (2 ^ 63 + 1))] (array.take 2) := by
  apply parseTraceInfo_printHitsz .readwrite (fun _ => sampleInfo 9 9 0x57 0x63 32)
    [.record (sampleHitsz 7 8), .other [0x31, 0x20, 0x32, 0x20, 0x61],
      .record (sampleHitsz 6 (BitVec.ofNat 64 (2 ^ 63 + 1)))]
  · intro it hit
    simp only [List.mem_cons, List.not_mem_nil, or_false] at hit
    rcases hit with rfl | rfl | rfl
    · trivial
    · exact ⟨by decide, by decide, fun info => ⟨_, 2, rfl, by decide⟩⟩
    · trivial
  · intro it hit
    simp only [List.mem_cons, List.not_mem_nil, or_false] at hit
    rcases hit with rfl | rfl | rfl
    · decide
    · decide
    · decide

/-! ## From the text to the disk -/

theorem forall₂_md5 {records : List HitszRecord} {infos : List TraceInfo}
    (h : List.Forall₂ HitszRecord.Matches records infos) :
    infos.map TraceInfo.md5 = records.map fun r => r.md5.text := by
  induction h with
  | nil => rfl
  | cons hinfo _ ih => rw [List.map_cons, List.map_cons, hinfo.md5, ih]

/-- What holds of every record holds of what is stored for it. -/
theorem forall₂_forall {records : List HitszRecord} {infos : List TraceInfo}
    (h : List.Forall₂ HitszRecord.Matches records infos) {p : HitszRecord → Prop}
    {q : TraceInfo → Prop} (hp : ∀ r ∈ records, p r) (hpq : ∀ r info, r.Matches info → p r → q info) :
    ∀ info ∈ infos, q info := by
  induction h with
  | nil => exact fun info hinfo => by cases hinfo
  | cons hfirst _ ih =>
      intro info hinfo
      rcases List.mem_cons.mp hinfo with rfl | hinfo
      · exact hpq _ _ hfirst (hp _ (by simp))
      · exact ih (fun r hr => hp r (List.mem_cons_of_mem _ hr)) info hinfo

theorem HitszRecord.Matches.addressed {r : HitszRecord} {info : TraceInfo} (h : r.Matches info)
    (hlba : r.lba.toNat < 2 ^ 54) : Addressed info where
  ofs := by rw [h.ofs, h.lba, shiftLeft_nine]
  lba_lt := by rw [h.lba]; exact hlba

/-- A printed trace appended with the null generator, from its text to the blocks on
    disk: for any options that leave no worker idle and in every run, each content is
    added as often as its fingerprint occurs in the text, and nothing else is added. -/
theorem hitsz_appended (uninit : Nat → TraceInfo) (randR : Word32 → Word32) {k : Nat}
    (hk : k ∈ [1, 2, 4, 8]) (items : List HitszLine) (hok : ∀ it ∈ items, it.Ok)
    (hlen : ∀ it ∈ items, it.text.length < LINE_SIZE - 1)
    (hcount : (items.filterMap HitszLine.record?).length < 2 ^ 29)
    (hlba : ∀ r ∈ items.filterMap HitszLine.record?, r.lba.toNat < 2 ^ 54)
    (hmd5 : ∀ r ∈ items.filterMap HitszLine.record?, r.md5.text.length = 32 * k) :
    ∃ array validLines, parseTraceInfo .hitsz .append uninit (printHitsz items) =
        some (array, validLines) ∧
      InEveryReplay (array.take validLines) (randGener randR .null) .append fun _ _ x y =>
        (∀ i, (y.1 i).pc = .finished) ∧
        (addedBlocks x y).length = (items.filterMap HitszLine.record?).length ∧
        ∀ r ∈ items.filterMap HitszLine.record?, ∀ b,
          MakesBlock (randGener randR .null) r.md5.text b →
          (addedBlocks x y).count b =
            ((items.filterMap HitszLine.record?).map fun r => r.md5.text).count r.md5.text := by
  obtain ⟨array, validLines, hparse, -, hmatches⟩ :=
    parseTraceInfo_parsesTo .append uninit hok hlen
  generalize hrecords : items.filterMap HitszLine.record? = records at *
  generalize hinfos : array.take validLines = infos at *
  have hmd5' : ∀ i ∈ infos, i.md5.length = 32 * k :=
    forall₂_forall hmatches hmd5 fun r info h hr => by rw [h.md5, hr]
  have haddr : ∀ i ∈ infos, Addressed i :=
    forall₂_forall hmatches hlba fun r info h hr => h.addressed hr
  refine ⟨array, validLines, hparse, ?_⟩
  rw [hinfos]
  refine inEveryReplay (hmatches.length_eq ▸ hcount) haddr
    (fun p _ => fills_null hk (hmd5' _ (List.get_mem infos p))) fun params hints hruns x y hy => ?_
  obtain ⟨threads, paths, gs, assigned, hready⟩ := hruns.setup
  obtain ⟨hlength, hblocks⟩ := addedBlocks_count infos hk hmd5' hready.perm hy
  refine ⟨fun i => (hy i).1, hlength.trans hmatches.length_eq.symm, fun r hr b hb => ?_⟩
  rw [← forall₂_md5 hmatches]
  -- the record is stored somewhere
  obtain ⟨i, hi, hmd5i⟩ : ∃ i ∈ infos, i.md5 = r.md5.text := by
    have hmem : r.md5.text ∈ infos.map TraceInfo.md5 := by
      rw [forall₂_md5 hmatches]
      exact List.mem_map_of_mem hr
    exact List.mem_map.mp hmem
  rw [← hmd5i] at hb ⊢
  exact hblocks i hi b hb

/-- Two records with one fingerprint. -/
theorem hitsz_appended_sample :
    let items : List HitszLine := [.record (sampleHitsz 7 8), .record (sampleHitsz 6 0)]
    ∃ array validLines, parseTraceInfo .hitsz .append (fun _ => sampleInfo 9 9 0x57 0x63 32)
        (printHitsz items) = some (array, validLines) ∧
      InEveryReplay (array.take validLines) (randGener id .null) .append fun _ _ x y =>
        (∀ i, (y.1 i).pc = .finished) ∧
        (addedBlocks x y).length = (items.filterMap HitszLine.record?).length ∧
        ∀ r ∈ items.filterMap HitszLine.record?, ∀ b,
          MakesBlock (randGener id .null) r.md5.text b →
          (addedBlocks x y).count b =
            ((items.filterMap HitszLine.record?).map fun r => r.md5.text).count r.md5.text := by
  apply hitsz_appended _ id (show 1 ∈ [1, 2, 4, 8] by decide)
  · intro it hit
    simp only [List.mem_cons, List.not_mem_nil, or_false] at hit
    rcases hit with rfl | rfl
    · trivial
    · trivial
  · intro it hit
    simp only [List.mem_cons, List.not_mem_nil, or_false] at hit
    rcases hit with rfl | rfl
    · decide
    · decide
  · decide
  · intro r hr
    simp only [List.filterMap_cons, HitszLine.record?, List.filterMap_nil, List.mem_cons,
      List.not_mem_nil, or_false] at hr
    rcases hr with rfl | rfl
    · decide
    · decide
  · intro r hr
    simp only [List.filterMap_cons, HitszLine.record?, List.filterMap_nil, List.mem_cons,
      List.not_mem_nil, or_false] at hr
    rcases hr with rfl | rfl
    · decide
    · decide

end GogetaTools.Replay
