/-
  GogetaTools.Scripts.StatTrace

  `tests/FIG_RealWorld/stat-trace.py`: how long the runs of consecutive records of a
  trace are.

  The loop files a run under its length when the next one starts.  In front of the
  first record it is in a run of one record with LBA 0, which is filed like any other,
  and the last run is never filed (`countLines_filed`).  So the map is right only if
  the last run happens to be the one that was never there (`statTrace_iff`).
-/

import GogetaTools.Lib.Dict
import GogetaTools.Lib.Python
import Mathlib.Data.List.SplitBy

namespace GogetaTools.Scripts

open Python PyDict

/-! ## The script -/

inductive TraceType
  | fiu
  | hitsz
deriving DecidableEq

/-- The variables of the loop that follow the runs. -/
structure RunVars where
  consecutiveMap : Dict Nat (List (Int × Int))
  consecutiveBlks : Nat
  consecutiveStartLba : Int
  lastLba : Int

structure Stat where
  contentMap : Dict PyStr Nat
  ofsMap : Dict PyStr Nat
  totWblks : Nat
  totBlks : Nat
  vars : RunVars

/-- The values in front of the loop. -/
def RunVars.init : RunVars where
  consecutiveMap := .empty
  consecutiveBlks := 1
  consecutiveStartLba := 0
  lastLba := -9

def Stat.init : Stat where
  contentMap := .empty
  ofsMap := .empty
  totWblks := 0
  totBlks := 0
  vars := .init

def addItemToMap (m : Dict PyStr Nat) (key : PyStr) (value : Nat) : Dict PyStr Nat :=
  m.upsert (fun old => old.getD 0 + value) key

def appendItemToMap (m : Dict Nat (List (Int × Int))) (key : Nat) (value : Int × Int) :
    Dict Nat (List (Int × Int)) :=
  m.push key value

/-- The statements behind `lba = int(lba)`. -/
def countLba (s : RunVars) (lba : Int) : RunVars :=
  if lba - s.lastLba = 8 then
    { s with consecutiveBlks := s.consecutiveBlks + 1, lastLba := lba }
  else
    { s with
      consecutiveMap := appendItemToMap s.consecutiveMap s.consecutiveBlks
        (s.consecutiveStartLba, s.consecutiveStartLba + ((s.consecutiveBlks : Int) - 1) * 8)
      consecutiveBlks := 1
      consecutiveStartLba := lba
      lastLba := lba }

section Script

variable (U : CharData)

/-- `line.strip().split(" ")` taken apart: whether the record is a write, its LBA and its
    fingerprint; none where the number of fields is another one. -/
def unpack (traceType : TraceType) (line : PyStr) : Option (Bool × PyStr × PyStr) :=
  match traceType, (stripStr U line).splitOn ' ' with
  | .fiu, [_, _, _, lba, _, op, _, _, md5] => some (op = ['W'], lba, md5)
  | .hitsz, [_, _, lba, md5] => some (true, lba, md5)
  | _, _ => none

/-- The body of the loop; an exception leaves what was updated before it. -/
def countLine (traceType : TraceType) (s : Stat) (line : PyStr) : Stat :=
  match unpack U traceType line with
  | none => s
  | some (write, lba, md5) =>
      let s :=
        if write then
          { s with
            contentMap := addItemToMap s.contentMap md5 1
            totWblks := s.totWblks + 1 }
        else s
      let s :=
        { s with
          totBlks := s.totBlks + 1
          ofsMap := addItemToMap s.ofsMap lba 1 }
      match intOfStr U lba with
      | none => s
      | some lba => { s with vars := countLba s.vars lba }

def statTrace (traceType : TraceType) (lines : List PyStr) : Stat :=
  lines.foldl (countLine U traceType) Stat.init

/-- The lists that are plotted: `n * entries` repeats a list, `+` appends lists, and
    `len_cnt[0]` raises an exception if there are none. -/
def lenCntSum (m : Dict Nat (List (Int × Int))) : Option (List (List (Int × Int))) :=
  let lenCnt := (m.pairs.mergeSort fun a b => a.1 ≤ b.1).map fun item =>
    (List.replicate item.1 item.2).flatten
  match lenCnt with
  | [] => none
  | c :: cs => some (cs.scanl (· ++ ·) c)

/-- The line has the fields of the format, and its LBA is the number `lba`. -/
def WellFormed (traceType : TraceType) (line : PyStr) (lba : Nat) : Prop :=
  ∃ write text md5, unpack U traceType line = some (write, text, md5) ∧
    intOfStr U text = some (lba : Int)

end Script

/-! ## Maximal runs -/

/-- The LBA `b` continues the run in which `a` is the last one. -/
def continues (a b : Nat) : Bool := b = a + 8

/-- The maximal runs of LBAs each of which exceeds the one before it by 8. -/
def runs (lbas : List Nat) : List (List Nat) := lbas.splitBy continues

/-- The entry of a run: its length, its first and its last LBA. -/
def runEntry (run : List Nat) : Nat × Int × Int :=
  (run.length, (run.headD 0 : Nat), (run.getLastD 0 : Nat))

/-- The entry of the run that the loop starts in. -/
def sentinelEntry : Nat × Int × Int := (1, 0, 0)

/-- The last run is a single 0 exactly if the last LBA is 0: nothing precedes 0 by 8. -/
theorem runEntry_eq_sentinel_iff {done : List (List Nat)} {run lbas : List Nat}
    (h : runs lbas = done ++ [run]) : runEntry run = sentinelEntry ↔ lbas.getLast? = some 0 := by
  have hmem : run ∈ runs lbas := by simp [h]
  have hrun : run ≠ [] := List.ne_nil_of_mem_splitBy hmem
  have hchain := List.isChain_of_mem_splitBy hmem
  have hlbas : lbas = done.flatten ++ run := by
    have hflat := List.flatten_splitBy continues lbas
    rw [← hflat, show lbas.splitBy continues = done ++ [run] from h, List.flatten_append,
      List.flatten_singleton]
  have hlast : lbas.getLast? = run.getLast? := by
    rw [hlbas, List.getLast?_append_of_ne_nil _ hrun]
  rw [hlast]
  clear hlbas hlast hmem h
  rcases List.eq_nil_or_concat run with rfl | ⟨front, x, rfl⟩
  · exact absurd rfl hrun
  · rw [List.concat_eq_append, List.getLast?_concat, Option.some.injEq]
    cases List.eq_nil_or_concat front with
    | inl hfront =>
        subst hfront
        simp [runEntry, sentinelEntry]
    | inr hfront =>
        -- the element in front of `x` is 8 less
        obtain ⟨front, y, rfl⟩ := hfront
        rw [List.concat_eq_append, List.concat_eq_append, List.append_assoc,
          List.singleton_append] at hchain
        have hcont := (List.isChain_append_cons_cons.mp hchain).2.1
        simp only [continues, decide_eq_true_eq] at hcont
        refine iff_of_false (fun hentry => ?_) (by omega)
        simp [runEntry, sentinelEntry] at hentry

/-! ## The loop -/

/-- The entries `es` are filed, and `entry` is what the run goes for so far. -/
structure Filed (s : RunVars) (es : List (Nat × Int × Int)) (entry : Nat × Int × Int) : Prop where
  holds : PyDict.Holds s.consecutiveMap es
  weight : s.consecutiveMap.weight = (es.map Prod.fst).sum
  entry_eq : entry = (s.consecutiveBlks, s.consecutiveStartLba,
    s.consecutiveStartLba + ((s.consecutiveBlks : Int) - 1) * 8)

theorem filed_init : Filed .init [] sentinelEntry := ⟨holds_empty, rfl, rfl⟩

/-- A record that does not continue the run files it. -/
theorem Filed.break {s : RunVars} {es : List (Nat × Int × Int)} {entry : Nat × Int × Int}
    (h : Filed s es entry) {lba : Nat} (hbreak : ¬ (lba : Int) - s.lastLba = 8) :
    Filed (countLba s lba) (es ++ [entry]) (runEntry [lba]) ∧
      (countLba s lba).lastLba = lba := by
  rw [countLba, if_neg hbreak]
  refine ⟨⟨?_, ?_, ?_⟩, rfl⟩
  · rw [h.entry_eq]
    exact h.holds.push _ _
  · rw [appendItemToMap, Dict.weight_push, h.weight, h.entry_eq]
    simp
  · simp [runEntry]

/-- A record that continues it makes it longer. -/
theorem Filed.extend {s : RunVars} {es : List (Nat × Int × Int)} {run : List Nat}
    (h : Filed s es (runEntry run)) (hrun : run ≠ []) {last : Nat} (hlast : s.lastLba = last)
    (hend : run.getLastD 0 = last) :
    Filed (countLba s (last + 8 : Nat)) es (runEntry (run ++ [last + 8])) ∧
      (countLba s (last + 8 : Nat)).lastLba = (last + 8 : Nat) := by
  have hcont : ((last + 8 : Nat) : Int) - s.lastLba = 8 := by omega
  have hentry := h.entry_eq
  simp only [runEntry, Prod.mk.injEq, hend] at hentry
  obtain ⟨hlength, hstart, hstop⟩ := hentry
  rw [countLba, if_pos hcont]
  refine ⟨⟨h.holds, h.weight, ?_⟩, rfl⟩
  have hhead : (run ++ [last + 8]).headD 0 = run.headD 0 := by
    cases run with
    | nil => exact absurd rfl hrun
    | cons a run => rfl
  simp only [runEntry, hhead, List.length_append, List.length_singleton, Prod.mk.injEq]
  refine ⟨by omega, hstart, ?_⟩
  simp only [List.getLastD_concat]
  omega

/-- The loop over the LBAs `as`, from the middle of a run whose last LBA is `b`. -/
theorem countLbas_filed {as : List Nat} {b : Nat} {g : List Nat} {gs : List (List Nat)}
    {s : RunVars} {es : List (Nat × Int × Int)}
    (h : Filed s (es ++ gs.reverse.map runEntry) (runEntry (b :: g).reverse))
    (hlast : s.lastLba = b) :
    ∃ done run, List.splitBy.loop continues as b g gs = done ++ [run] ∧
      Filed (as.foldl (fun s lba => countLba s (lba : Nat)) s) (es ++ done.map runEntry)
        (runEntry run) := by
  induction as generalizing b g gs s with
  | nil => exact ⟨gs.reverse, (b :: g).reverse, by simp [List.splitBy.loop], h⟩
  | cons a as ih =>
      rw [List.splitBy.loop]
      cases hcont : continues b a with
      | true =>
          have ha : a = b + 8 := of_decide_eq_true hcont
          subst ha
          obtain ⟨hfiled, hlast'⟩ := h.extend (by simp) hlast (by simp)
          rw [← List.reverse_cons] at hfiled
          exact ih hfiled hlast'
      | false =>
          have ha : a ≠ b + 8 := of_decide_eq_false hcont
          obtain ⟨hfiled, hlast'⟩ := @Filed.break s _ _ h a (by omega)
          refine @ih a [] ((b :: g).reverse :: gs) _ ?_ hlast'
          rw [List.reverse_cons, List.map_append, List.map_singleton, ← List.append_assoc]
          exact hfiled

/-- After the loop every run but the last is filed, behind the one that the loop started in. -/
theorem countLbas_runs {lba : Nat} {lbas : List Nat} :
    ∃ done run, runs (lba :: lbas) = done ++ [run] ∧
      Filed ((lba :: lbas).foldl (fun s lba => countLba s (lba : Nat)) .init)
        (sentinelEntry :: done.map runEntry) (runEntry run) := by
  obtain ⟨hfiled, hlast⟩ := @Filed.break .init _ _ filed_init lba (by simp [RunVars.init]; omega)
  exact @countLbas_filed lbas lba [] [] _ [sentinelEntry] hfiled hlast

/-! ## The statistics of a trace -/

section Statistics

variable {U : CharData} {traceType : TraceType}

/-- A well-formed line counts, and only its LBA matters for the runs. -/
theorem WellFormed.countLine_eq {line : PyStr} {lba : Nat} (h : WellFormed U traceType line lba)
    (s : Stat) : (countLine U traceType s line).vars = countLba s.vars lba ∧
      (countLine U traceType s line).totBlks = s.totBlks + 1 := by
  obtain ⟨write, text, md5, hunpack, hint⟩ := h
  simp only [countLine, hunpack, hint]
  cases write <;> exact ⟨rfl, rfl⟩

theorem countLines_eq {lines : List PyStr} {lbas : List Nat}
    (h : List.Forall₂ (WellFormed U traceType) lines lbas) (s : Stat) :
    (lines.foldl (countLine U traceType) s).vars =
        lbas.foldl (fun s lba => countLba s (lba : Nat)) s.vars ∧
      (lines.foldl (countLine U traceType) s).totBlks = s.totBlks + lbas.length := by
  induction h generalizing s with
  | nil => exact ⟨rfl, rfl⟩
  | @cons line lba lines lbas hline _ ih =>
      obtain ⟨hvars, htot⟩ := hline.countLine_eq s
      obtain ⟨hvars', htot'⟩ := ih (countLine U traceType s line)
      rw [hvars] at hvars'
      rw [htot] at htot'
      refine ⟨hvars', htot'.trans ?_⟩
      rw [List.length_cons]
      omega

/-- For each `n` the map has an entry for each maximal run of `n` records, with the
    first and the last LBA, and the records of all entries are those counted. -/
structure RunStatistics (lbas : List Nat) (s : Stat) : Prop where
  entries : ∀ n, (s.vars.consecutiveMap.items n).Perm (under n ((runs lbas).map runEntry))
  total : s.vars.consecutiveMap.weight = s.totBlks

theorem sum_fst_runEntry (done : List (List Nat)) :
    ((done.map runEntry).map Prod.fst).sum = done.flatten.length := by
  rw [List.map_map, List.length_flatten]
  rfl

/-- The statistics are right exactly for the empty trace and for traces whose last
    record has LBA 0. -/
theorem statTrace_iff {lines : List PyStr} {lbas : List Nat}
    (h : List.Forall₂ (WellFormed U traceType) lines lbas) :
    RunStatistics lbas (statTrace U traceType lines) ↔ lbas = [] ∨ lbas.getLast? = some 0 := by
  obtain ⟨hvars, htot⟩ := countLines_eq h Stat.init
  cases lbas with
  | nil =>
      refine iff_of_true ⟨fun n => ?_, ?_⟩ (Or.inl rfl)
      · rw [statTrace, hvars]
        exact List.Perm.refl _
      · rw [statTrace, hvars, htot]
        rfl
  | cons lba lbas =>
      obtain ⟨done, run, hruns, hfiled⟩ := @countLbas_runs lba lbas
      have hvars' : (statTrace U traceType lines).vars =
          (lba :: lbas).foldl (fun s lba => countLba s (lba : Nat)) .init := hvars
      rw [← hvars'] at hfiled
      -- the entries are those of the runs, but for the first and the last one
      have hperm : ((runs (lba :: lbas)).map runEntry).Perm (runEntry run :: done.map runEntry) := by
        rw [hruns, List.map_append, List.map_singleton]
        exact List.perm_append_comm
      have hentries : (∀ n, ((statTrace U traceType lines).vars.consecutiveMap.items n).Perm
          (under n ((runs (lba :: lbas)).map runEntry))) ↔ sentinelEntry = runEntry run := by
        rw [← @under_cons_perm_iff Nat (Int × Int) _ sentinelEntry (runEntry run)
          (done.map runEntry)]
        refine forall_congr' fun n => ?_
        rw [hfiled.holds n]
        exact ⟨fun hn => hn.trans (under_perm hperm n), fun hn => hn.trans (under_perm hperm n).symm⟩
      have hlast := runEntry_eq_sentinel_iff hruns
      rw [eq_comm] at hlast
      simp only [List.cons_ne_nil, false_or, ← hlast, ← hentries]
      refine ⟨fun hs => hs.entries, fun hs => ⟨hs, ?_⟩⟩
      -- both the run that is filed too many and the one that is missing count one record
      have hone : run.length = 1 := congrArg Prod.fst (hentries.mp hs).symm
      have hlength : (lba :: lbas).length = (done ++ [run]).flatten.length := by
        rw [← hruns, runs, List.flatten_splitBy]
      have htot' : (statTrace U traceType lines).totBlks = 0 + (lba :: lbas).length := htot
      rw [hfiled.weight, htot', hlength, List.map_cons, List.sum_cons, sum_fst_runEntry,
        List.flatten_append, List.length_append, List.flatten_singleton, hone]
      simp only [sentinelEntry]
      omega

/-- A trace of two records, at LBAs 8 and 0. -/
def sampleTrace : List PyStr := ["1 2 8 a\n".toList, "2 2 0 b\n".toList]

theorem wellFormed_sample :
    List.Forall₂ (WellFormed .ascii .hitsz) sampleTrace [8, 0] :=
  .cons ⟨true, ['8'], ['a'], by decide, by decide⟩
    (.cons ⟨true, ['0'], ['b'], by decide, by decide⟩ .nil)

theorem statTrace_iff_sample :
    RunStatistics [8, 0] (statTrace .ascii .hitsz sampleTrace) ↔
      ([8, 0] : List Nat) = [] ∨ [8, 0].getLast? = some 0 :=
  statTrace_iff wellFormed_sample

/-- Of a trace of one record, at LBA 8, a run from 0 to 0 is filed. -/
theorem statTrace_misses_last :
    ¬ ∀ (lines : List PyStr) (lbas : List Nat),
      List.Forall₂ (WellFormed .ascii .hitsz) lines lbas →
        RunStatistics lbas (statTrace .ascii .hitsz lines) := by
  intro h
  have hstat := h ["1 2 8 a\n".toList] [8]
    (.cons ⟨true, ['8'], ['a'], by decide, by decide⟩ .nil)
  exact absurd (hstat.entries 1) (by decide)

/-! ## The accumulated counts -/

theorem length_foldl_append (cs : List (List (Int × Int))) (c : List (Int × Int)) :
    (cs.foldl (· ++ ·) c).length = ((c :: cs).map List.length).sum := by
  induction cs generalizing c with
  | nil => simp
  | cons c' cs ih =>
      rw [List.foldl_cons, ih]
      simp only [List.map_cons, List.sum_cons, List.length_append]
      omega

/-- The last of the plotted lists has as many items as the entries count records. -/
theorem length_getLast_lenCntSum {m : Dict Nat (List (Int × Int))}
    {sums : List (List (Int × Int))} (h : lenCntSum m = some sums) :
    (sums.getLast?.getD []).length = m.weight := by
  have hperm := List.mergeSort_perm m.pairs fun a b => a.1 ≤ b.1
  have hweight : m.weight = ((m.pairs.mergeSort fun a b => a.1 ≤ b.1).map fun item =>
      (List.replicate item.1 item.2).flatten.length).sum := by
    rw [(hperm.map _).sum_eq, Dict.weight]
    simp [List.length_flatten]
  simp only [lenCntSum] at h
  split at h
  · cases h
  · rename_i c cs hlists
    cases h
    rw [List.getLast?_scanl, Option.getD_some, length_foldl_append, ← hlists, List.map_map, hweight]
    rfl

end Statistics

end GogetaTools.Scripts
