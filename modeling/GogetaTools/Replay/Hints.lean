/-
  GogetaTools.Replay.Hints

  The hint extraction of `assign_params_per_worker`: a worker's sorted records
  are cut into runs of adjacent blocks, and every run becomes a hint.

  The shared array `hints` is the list of the hints stored so far; storing one
  fails when all `valid_lines` slots are taken.

    * `hintsOf`            — the hints of a list of runs,
    * `CoalescedRuns`      — the runs are nonempty, each one of adjacent blocks
                             with one `rw`, and together they are the records,
    * `GreedyRuns`         — no run could have been longer,
    * `extractHints_greedy` — the loop stores the hints of such runs, or the
                             array was too small for a hint of every record.
-/

import GogetaTools.Lib.Segmentation
import GogetaTools.Replay.Trace

namespace GogetaTools.Replay

open Segmentation

section Extract

variable {P : Type} (info : P → TraceInfo)

/-- `consecutive_start`, the hints stored, and `_max_continuous_4K_blks`. -/
structure ExtractState where
  consecutiveStart : Nat
  hints : List TraceReplayHint
  maxContinuousBlks : Nat

/-- Stores the hint of the records from `consecutive_start` to `j`, and resets. -/
def saveHint (validLines : Nat) (infosMap : List P) (st : ExtractState) (j : Nat) :
    Option ExtractState := do
  let first ← infosMap[st.consecutiveStart]?
  let blks := j - st.consecutiveStart
  let hint := { continuousBlks := blks, startTraceLine := st.consecutiveStart,
                rw := (info first).rw }
  if st.hints.length < validLines then
    some { consecutiveStart := j
           hints := st.hints ++ [hint]
           maxContinuousBlks :=
             if blks > st.maxContinuousBlks then blks else st.maxContinuousBlks }
  else none

/-- Record `info` continues the run that `pre` ends. -/
def continuesRun (info pre : TraceInfo) : Bool := info.lba - pre.lba = 8 ∧ info.rw = pre.rw

/-- The body of the loop over `j`. -/
def extractStep (validLines : Nat) (maxContinuous4KBlks : Word) (infosMap : List P)
    (st : ExtractState) (j : Nat) : Option ExtractState := do
  let cur ← infosMap[j]?
  let pre ← infosMap[j - 1]?
  if continuesRun (info cur) (info pre) ∧
      j - st.consecutiveStart < maxContinuous4KBlks.toNat then some st
  else saveHint info validLines infosMap st j

/-- The loop, and the hint behind it. -/
def extractHints (validLines : Nat) (maxContinuous4KBlks : Word) (infosMap : List P)
    (hints : List TraceReplayHint) : Option ExtractState := do
  let st ← (List.range' 1 (infosMap.length - 1)).foldlM
    (extractStep info validLines maxContinuous4KBlks infosMap)
    { consecutiveStart := 0, hints := hints, maxContinuousBlks := 0 }
  saveHint info validLines infosMap st infosMap.length

/-! ## Runs -/

/-- The hints of the runs, the first of which starts at `start`. -/
def hintsOf : Nat → List (List P) → List TraceReplayHint
  | _, [] => []
  | start, run :: runs =>
      { continuousBlks := run.length
        startTraceLine := start
        rw := (run.head?.map fun p => (info p).rw).getD 0 } ::
        hintsOf (start + run.length) runs

/-- Adjacent blocks with one `rw`. -/
def Coalesced (run : List P) : Prop :=
  run ≠ [] ∧ run.IsChain fun pre cur => continuesRun (info cur) (info pre) = true

/-- The runs are coalesced and none is longer than `most`. -/
structure CoalescedRuns (runs : List (List P)) (most : Nat) : Prop where
  coalesced : ∀ run ∈ runs, Coalesced info run
  length_le : ∀ run ∈ runs, run.length ≤ most

theorem hintsOf_append (start : Nat) (runs more : List (List P)) :
    hintsOf info start (runs ++ more) =
      hintsOf info start runs ++ hintsOf info (start + runs.flatten.length) more := by
  induction runs generalizing start with
  | nil => simp [hintsOf]
  | cons r runs ih =>
      simp only [List.cons_append, hintsOf, ih, List.flatten_cons, List.length_append,
        Nat.add_assoc]

@[simp] theorem length_hintsOf (start : Nat) (runs : List (List P)) :
    (hintsOf info start runs).length = runs.length := by
  induction runs generalizing start with
  | nil => rfl
  | cons r runs ih => rw [hintsOf, List.length_cons, List.length_cons, ih]

theorem continuousBlks_of_mem_hintsOf {runs : List (List P)} (start : Nat) {h : TraceReplayHint}
    (hmem : h ∈ hintsOf info start runs) : ∃ run ∈ runs, h.continuousBlks = run.length := by
  induction runs generalizing start with
  | nil => cases hmem
  | cons r runs ih =>
      rw [hintsOf, List.mem_cons] at hmem
      rcases hmem with rfl | hmem
      · exact ⟨r, List.mem_cons_self .., rfl⟩
      · obtain ⟨run, hrun, heq⟩ := ih _ hmem
        exact ⟨run, List.mem_cons_of_mem _ hrun, heq⟩

theorem length_le_flatten {runs : List (List P)} (h : ∀ run ∈ runs, run ≠ []) :
    runs.length ≤ runs.flatten.length := by
  induction runs with
  | nil => exact Nat.le_refl _
  | cons r runs ih =>
      have hpos : 0 < r.length := List.length_pos_iff.mpr (h r (List.mem_cons_self ..))
      have hrest := ih fun run hrun => h run (List.mem_cons_of_mem _ hrun)
      rw [List.length_cons, List.flatten_cons, List.length_append]
      omega

/-! ## The loop stores the hints of coalesced runs -/

/-- The state of the loop: the runs `runs` are stored, and `cur` is the run in
    progress. -/
structure ExtractInv (hints : List TraceReplayHint) (runs : List (List P)) (cur : List P)
    (st : ExtractState) : Prop where
  start : st.consecutiveStart = runs.flatten.length
  hints : st.hints = hints ++ hintsOf info 0 runs
  runs : CoalescedRuns info runs st.maxContinuousBlks
  cur : Coalesced info cur

variable {info}

theorem CoalescedRuns.concat {runs : List (List P)} {most : Nat}
    (h : CoalescedRuns info runs most) {run : List P} (hrun : Coalesced info run) :
    CoalescedRuns info (runs ++ [run]) (if run.length > most then run.length else most) := by
  constructor
  · intro r hr
    rcases List.mem_append.mp hr with hr | hr
    · exact h.coalesced r hr
    · rw [List.mem_singleton.mp hr]
      exact hrun
  · intro r hr
    rcases List.mem_append.mp hr with hr | hr
    · have hle := h.length_le r hr
      split <;> omega
    · rw [List.mem_singleton.mp hr]
      split <;> omega

/-- Storing the run in progress: it fails only when the array is full. -/
theorem saveHint_spec (validLines : Nat) {hints : List TraceReplayHint} {runs : List (List P)}
    {cur : List P} (rest : List P) {st : ExtractState}
    (h : ExtractInv info hints runs cur st) :
    saveHint info validLines (runs.flatten ++ cur ++ rest) st
        (runs.flatten.length + cur.length) =
      if hints.length + runs.length < validLines then
        some { consecutiveStart := (runs ++ [cur]).flatten.length
               hints := hints ++ hintsOf info 0 (runs ++ [cur])
               maxContinuousBlks :=
                 if cur.length > st.maxContinuousBlks then cur.length
                 else st.maxContinuousBlks }
      else none := by
  obtain ⟨p, cur', hp⟩ := List.exists_cons_of_ne_nil h.cur.1
  have hfirst : (runs.flatten ++ cur ++ rest)[st.consecutiveStart]? = some p := by
    rw [h.start, hp, List.append_assoc, List.getElem?_append_right (Nat.le_refl _), Nat.sub_self]
    rfl
  have hblks : runs.flatten.length + cur.length - st.consecutiveStart = cur.length := by
    rw [h.start, Nat.add_sub_cancel_left]
  have hlen : st.hints.length = hints.length + runs.length := by
    rw [h.hints, List.length_append, length_hintsOf]
  have hflat : (runs ++ [cur]).flatten.length = runs.flatten.length + cur.length := by
    rw [List.flatten_append, List.flatten_singleton, List.length_append]
  simp only [saveHint, hfirst, Option.bind_eq_bind, Option.bind_some, hblks, hlen]
  simp only [hflat, hintsOf_append, h.hints, h.start, Nat.zero_add, List.append_assoc]
  rw [hp]
  rfl

/-- The head of the part of the array behind the run in progress: the loop goes
    on with the run, or stores it and begins a new one. -/
theorem extractStep_spec (validLines : Nat) (maxBlks : Word) {infosMap : List P}
    {hints : List TraceReplayHint} {runs : List (List P)} {cur rest : List P} {p : P}
    {st : ExtractState} (ha : infosMap = runs.flatten ++ cur ++ p :: rest)
    (h : ExtractInv info hints runs cur st) :
    ∃ q, cur.getLast? = some q ∧
      extractStep info validLines maxBlks infosMap st (runs.flatten.length + cur.length) =
        if continuesRun (info p) (info q) ∧ cur.length < maxBlks.toNat then some st
        else if hints.length + runs.length < validLines then
          some { consecutiveStart := (runs ++ [cur]).flatten.length
                 hints := hints ++ hintsOf info 0 (runs ++ [cur])
                 maxContinuousBlks :=
                   if cur.length > st.maxContinuousBlks then cur.length
                   else st.maxContinuousBlks }
        else none := by
  obtain ⟨cur', q, hq⟩ : ∃ cur' q, cur = cur' ++ [q] :=
    ⟨_, _, (List.dropLast_append_getLast h.cur.1).symm⟩
  have hcurpos : 0 < cur.length := List.length_pos_iff.mpr h.cur.1
  have hp : infosMap[runs.flatten.length + cur.length]? = some p := by
    rw [ha, List.getElem?_append_right (by rw [List.length_append]), List.length_append,
      Nat.sub_self]
    rfl
  -- the record in front of `p` is the last one of the current run
  have hpre : infosMap[runs.flatten.length + cur.length - 1]? = some q := by
    rw [ha, hq, List.append_assoc, List.append_assoc, ← List.append_assoc,
      List.getElem?_append_right (by
        simp only [List.length_append, List.length_singleton]
        omega)]
    simp only [List.length_append, List.length_singleton]
    rw [show runs.flatten.length + (cur'.length + 1) - 1 -
      (runs.flatten.length + cur'.length) = 0 by omega]
    rfl
  have hblks : runs.flatten.length + cur.length - st.consecutiveStart = cur.length := by
    rw [h.start, Nat.add_sub_cancel_left]
  have hsave := saveHint_spec validLines (p :: rest) h
  rw [← ha] at hsave
  refine ⟨q, by rw [hq, List.getLast?_concat], ?_⟩
  simp only [extractStep, hp, hpre, Option.bind_eq_bind, Option.bind_some, hblks]
  -- either the run goes on, or its hint is saved
  split
  · rfl
  · exact hsave

theorem ExtractInv.extend {hints : List TraceReplayHint} {runs : List (List P)} {cur : List P}
    {st : ExtractState} (h : ExtractInv info hints runs cur st) {p q : P}
    (hq : cur.getLast? = some q) (hcont : continuesRun (info p) (info q) = true) :
    ExtractInv info hints runs (cur ++ [p]) st := by
  refine ⟨h.start, h.hints, h.runs, by simp, ?_⟩
  rw [List.isChain_append]
  refine ⟨h.cur.2, List.isChain_singleton p, ?_⟩
  intro x hx y hy
  rw [hq] at hx
  cases hx
  cases hy
  exact hcont

theorem ExtractInv.store {hints : List TraceReplayHint} {runs : List (List P)} {cur : List P}
    {st : ExtractState} (h : ExtractInv info hints runs cur st) (p : P) :
    ExtractInv info hints (runs ++ [cur]) [p]
      { consecutiveStart := (runs ++ [cur]).flatten.length
        hints := hints ++ hintsOf info 0 (runs ++ [cur])
        maxContinuousBlks :=
          if cur.length > st.maxContinuousBlks then cur.length else st.maxContinuousBlks } :=
  ⟨rfl, rfl, h.runs.concat h.cur, by simp, List.isChain_singleton p⟩

variable (info) in
/-- What one hint may describe: a piece of the records with every block behind
    the one before, and not too long. -/
def HintRun (maxBlks : Word) (run : List P) : Prop :=
  run.length ≤ max 1 maxBlks.toNat ∧
    run.IsChain fun pre cur => continuesRun (info cur) (info pre) = true

variable (info) in
/-- The runs are as long as the source allows, the one in progress included. -/
structure GreedyRuns (maxBlks : Word) (runs : List (List P)) : Prop where
  hintRun : ∀ run ∈ runs, HintRun info maxBlks run
  maximal : Maximal (HintRun info maxBlks) runs

theorem GreedyRuns.extend {maxBlks : Word} {runs : List (List P)} {cur : List P} {p q : P}
    (h : GreedyRuns info maxBlks (runs ++ [cur])) (hq : cur.getLast? = some q)
    (hcont : continuesRun (info p) (info q) = true) (hlt : cur.length < maxBlks.toNat) :
    GreedyRuns info maxBlks (runs ++ [cur ++ [p]]) := by
  have hne : cur ≠ [] := by
    rintro rfl
    cases hq
  refine ⟨?_, h.maximal.extend [p] hne⟩
  intro run hrun
  rcases List.mem_append.mp hrun with hrun | hrun
  · exact h.hintRun run (List.mem_append_left _ hrun)
  · rw [List.mem_singleton.mp hrun]
    refine ⟨?_, ?_⟩
    · rw [List.length_append, List.length_singleton]
      omega
    · rw [List.isChain_append]
      refine ⟨(h.hintRun cur (by simp)).2, List.isChain_singleton p, ?_⟩
      intro x hx y hy
      rw [hq] at hx
      cases hx
      cases hy
      exact hcont

/-- A run that the loop stores could not have been longer. -/
theorem GreedyRuns.store {maxBlks : Word} {runs : List (List P)} {cur : List P} {p q : P}
    (h : GreedyRuns info maxBlks (runs ++ [cur])) (hq : cur.getLast? = some q)
    (hstop : ¬ (continuesRun (info p) (info q) = true ∧ cur.length < maxBlks.toNat)) :
    GreedyRuns info maxBlks (runs ++ [cur] ++ [[p]]) := by
  refine ⟨?_, h.maximal.concat ?_⟩
  · intro run hrun
    rcases List.mem_append.mp hrun with hrun | hrun
    · exact h.hintRun run hrun
    · rw [List.mem_singleton.mp hrun]
      exact ⟨Nat.le_max_left _ _, List.isChain_singleton p⟩
  · rintro ⟨hlen, hchain⟩
    have hcont := (List.isChain_append.mp hchain).2.2 q hq p rfl
    -- the limit is what stopped it
    have hge : maxBlks.toNat ≤ cur.length := Nat.le_of_not_lt fun hlt => hstop ⟨hcont, hlt⟩
    have hpos : 0 < cur.length := List.length_pos_of_mem (List.mem_of_getLast? hq)
    rw [List.length_append, List.length_singleton] at hlen
    omega

theorem extractLoop_spec (validLines : Nat) (maxBlks : Word) (infosMap : List P)
    {hints : List TraceReplayHint} :
    ∀ (rest : List P) (runs : List (List P)) (cur : List P) (st : ExtractState),
      infosMap = runs.flatten ++ cur ++ rest →
      ExtractInv info hints runs cur st → GreedyRuns info maxBlks (runs ++ [cur]) →
      (∃ runs' cur' st', (List.range' (runs.flatten.length + cur.length) rest.length).foldlM
          (extractStep info validLines maxBlks infosMap) st = some st' ∧
        infosMap = runs'.flatten ++ cur' ∧ ExtractInv info hints runs' cur' st' ∧
        GreedyRuns info maxBlks (runs' ++ [cur'])) ∨
      ((List.range' (runs.flatten.length + cur.length) rest.length).foldlM
          (extractStep info validLines maxBlks infosMap) st = none ∧
        validLines < hints.length + infosMap.length) := by
  intro rest
  -- Induction on the records that are left; the invariant is `ExtractInv`.
  induction rest with
  | nil =>
      intro runs cur st ha hinv hgreedy
      exact Or.inl ⟨runs, cur, st, rfl, by rw [ha, List.append_nil], hinv, hgreedy⟩
  | cons p rest ih =>
      intro runs cur st ha hinv hgreedy
      have hcurpos : 0 < cur.length := List.length_pos_iff.mpr hinv.cur.1
      obtain ⟨q, hq, hstep⟩ := extractStep_spec validLines maxBlks ha hinv
      rw [List.length_cons, List.range'_succ, List.foldlM_cons, hstep]
      split
      · -- the run goes on
        rename_i hcont
        have hnext := ih runs (cur ++ [p]) st (by rw [ha]; simp) (hinv.extend hq hcont.1)
          (hgreedy.extend hq hcont.1 hcont.2)
        rw [List.length_append, List.length_singleton, ← Nat.add_assoc] at hnext
        exact hnext
      · rename_i hstop
        split
        · -- the run is stored, and `p` begins a new one
          have hnext := ih (runs ++ [cur]) [p] _ (by rw [ha]; simp) (hinv.store p)
            (hgreedy.store hq hstop)
          rw [List.length_singleton] at hnext
          have hflat : (runs ++ [cur]).flatten.length = runs.flatten.length + cur.length := by
            rw [List.flatten_append, List.flatten_singleton, List.length_append]
          rw [hflat] at hnext ⊢
          exact hnext
        · -- the hint buffer is full
          refine Or.inr ⟨rfl, ?_⟩
          have hle := length_le_flatten fun run hrun => (hinv.runs.coalesced run hrun).1
          rw [ha]
          simp only [List.length_append, List.length_cons]
          omega

variable (info) in
/-- The hints of a worker's records: those of coalesced runs that make up the
    records and are as long as allowed, or the array has fewer slots than there are
    records. -/
theorem extractHints_greedy (validLines : Nat) (maxBlks : Word) {infosMap : List P}
    (hne : infosMap ≠ []) (hints : List TraceReplayHint) :
    (∃ runs st, extractHints info validLines maxBlks infosMap hints = some st ∧
      infosMap = runs.flatten ∧ CoalescedRuns info runs st.maxContinuousBlks ∧
      GreedyRuns info maxBlks runs ∧
      st.hints = hints ++ hintsOf info 0 runs ∧ st.hints.length ≤ validLines) ∨
    (extractHints info validLines maxBlks infosMap hints = none ∧
      validLines < hints.length + infosMap.length) := by
  obtain ⟨p, rest, rfl⟩ := List.exists_cons_of_ne_nil hne
  -- before the loop the current run is the first record
  have hinit : ExtractInv info hints [] [p]
      { consecutiveStart := 0, hints := hints, maxContinuousBlks := 0 } :=
    ⟨rfl, by simp [hintsOf], ⟨by simp, by simp⟩, by simp, List.isChain_singleton p⟩
  have hgreedy : GreedyRuns info maxBlks ([] ++ [[p]]) := by
    refine ⟨?_, maximal_singleton [p]⟩
    intro run hrun
    rw [List.mem_singleton.mp hrun]
    exact ⟨Nat.le_max_left _ _, List.isChain_singleton p⟩
  have hloop := extractLoop_spec validLines maxBlks (p :: rest) rest [] [p] _ rfl hinit hgreedy
  have hrange : List.range' 1 ((p :: rest).length - 1) = List.range' 1 rest.length := rfl
  simp only [List.flatten_nil, List.length_nil, Nat.zero_add, List.length_singleton] at hloop
  rcases hloop with ⟨runs, cur, st, hrun, ha, hinv, hruns⟩ | ⟨hrun, hfull⟩
  · -- behind the loop the current run is stored too
    have hsave := saveHint_spec validLines [] hinv
    rw [List.append_nil, ← ha] at hsave
    have hlen : (p :: rest).length = runs.flatten.length + cur.length := by
      rw [ha, List.length_append]
    have hextract : extractHints info validLines maxBlks (p :: rest) hints =
        saveHint info validLines (p :: rest) st (p :: rest).length := by
      simp only [extractHints, hrange, hrun, Option.bind_eq_bind, Option.bind_some]
    rw [hextract, hlen, hsave]
    split
    · left
      refine ⟨runs ++ [cur], _, rfl, ?_, hinv.runs.concat hinv.cur, hruns, rfl, ?_⟩
      · rw [ha, List.flatten_append, List.flatten_singleton]
      · simp only [List.length_append, length_hintsOf, List.length_singleton]
        omega
    · right
      have hle := length_le_flatten fun run hrun => (hinv.runs.coalesced run hrun).1
      have hcurpos : 0 < cur.length := List.length_pos_iff.mpr hinv.cur.1
      exact ⟨rfl, by omega⟩
  · right
    refine ⟨?_, hfull⟩
    simp only [extractHints, hrange, hrun, Option.bind_eq_bind, Option.bind_none]

variable (info) in
/-- The hints of a worker's records: those of coalesced runs that make up the
    records, or the array has fewer slots than there are records. -/
theorem extractHints_spec (validLines : Nat) (maxBlks : Word) {infosMap : List P}
    (hne : infosMap ≠ []) (hints : List TraceReplayHint) :
    (∃ runs st, extractHints info validLines maxBlks infosMap hints = some st ∧
      infosMap = runs.flatten ∧ CoalescedRuns info runs st.maxContinuousBlks ∧
      st.hints = hints ++ hintsOf info 0 runs ∧ st.hints.length ≤ validLines) ∨
    (extractHints info validLines maxBlks infosMap hints = none ∧
      validLines < hints.length + infosMap.length) := by
  rcases extractHints_greedy info validLines maxBlks hne hints with
    ⟨runs, st, hrun, hflat, hruns, -, hhints, hle⟩ | hfull
  · exact Or.inl ⟨runs, st, hrun, hflat, hruns, hhints, hle⟩
  · exact Or.inr hfull

end Extract

end GogetaTools.Replay
