/-
  GogetaTools.Aging.Room

  What an ageing needs and leaves, by one run of all phases or by the three runs of
  `aging_amount.sh`.

    * `ageing_room`   — phase 2 frees what phase 3 fills: at no moment are more pages in use
                        than `file1` has by itself,
    * `ageing_leaves` — without failures the files hold exactly their pages, but for those
                        that phase 2 punches.
-/

import GogetaTools.Aging.Files

namespace GogetaTools.Aging

open ByteFile SparseFile

/-! ## The pages in use -/

/-- The file that a call is about. -/
def Call.name : Call → FileName
  | .create name | .write name _ _ | .punch name _ => name

section Used

variable {dir : Dir} {name : FileName}

/-- The other file stays as it is. -/
theorem apply_of_ne {c : Call} (h : c.name ≠ name) : dir.apply c name = dir name := by
  cases c <;> exact Function.update_of_ne (Ne.symm h) ..

theorem used_create : (dir.apply (.create name)).used name = dir.used name := by
  simp only [Dir.used, Dir.apply, Function.update_self]
  cases dir name <;> rfl

theorem used_punch_self (pos : Nat) :
    (dir.apply (.punch name pos)).used name = (dir.used name).erase pos := by
  simp only [Dir.used, Dir.apply, Function.update_self]
  cases dir name with
  | none => exact (Finset.erase_empty pos).symm
  | some f => rfl

theorem used_write_subset (off : Nat) (bytes : List Byte) :
    (dir.apply (.write name off bytes)).used name ⊆
      dir.used name ∪ touched PAGE_SIZE off bytes.length := by
  simp only [Dir.used, Dir.apply, Function.update_self]
  cases dir name with
  | none => exact Finset.empty_subset _
  | some f => exact Finset.Subset.refl _

theorem used_apply_subset {contents : FileName → Nat → Byte} {n : Nat} {c : Call}
    (h : dir.used name ⊆ Finset.range n) (hc : Keeps contents (n * PAGE_SIZE) c) :
    (dir.apply c).used name ⊆ Finset.range n := by
  by_cases hname : c.name = name
  · subst hname
    cases c with
    | create name => exact used_create.trans_subset h
    | write name off bytes =>
        exact (used_write_subset off bytes).trans (Finset.union_subset h (touched_subset hc.2.1))
    | punch name pos => exact (used_punch_self pos).trans_subset ((Finset.erase_subset ..).trans h)
  · rw [Dir.used, apply_of_ne hname]
    exact h

variable {calls : List Call}

theorem after_of_ne (h : ∀ c ∈ calls, c.name ≠ name) : dir.after calls name = dir name := by
  induction calls generalizing dir with
  | nil => rfl
  | cons c calls ih =>
      rw [List.forall_mem_cons] at h
      exact (ih h.2).trans (apply_of_ne h.1)

theorem used_after_of_ne (h : ∀ c ∈ calls, c.name ≠ name) : (dir.after calls).used name = dir.used name := by
  rw [Dir.used, after_of_ne h, Dir.used]

theorem used_after_subset {contents : FileName → Nat → Byte} {n : Nat}
    (h : dir.used name ⊆ Finset.range n) (hcalls : ∀ c ∈ calls, Keeps contents (n * PAGE_SIZE) c) :
    (dir.after calls).used name ⊆ Finset.range n := by
  induction calls generalizing dir with
  | nil => exact h
  | cons c calls ih =>
      rw [List.forall_mem_cons] at hcalls
      exact ih (used_apply_subset h hcalls.1) hcalls.2

theorem used_after_punches (ps : List Nat) :
    (dir.after (ps.map (Call.punch name))).used name = dir.used name \ ps.toFinset := by
  induction ps generalizing dir with
  | nil => exact (Finset.sdiff_empty).symm
  | cons p ps ih =>
      have hstep := @ih (dir.apply (.punch name p))
      rw [List.map_cons, List.toFinset_cons]
      refine hstep.trans ?_
      rw [used_punch_self, Finset.sdiff_insert, Finset.erase_sdiff_comm]

end Used

theorem fillCalls_name {block : Word} (write : WriteReturns block) (name : FileName) (n : Nat) :
    ∀ i off v, ∀ c ∈ (fillCalls write name n i off v).1, c.name = name := by
  induction n with
  | zero => exact fun i off v c hc => absurd hc List.not_mem_nil
  | succ n ih =>
      intro i off v c hc
      rw [fillCalls] at hc
      dsimp only at hc
      split at hc
      · rw [List.mem_singleton.mp hc]
        rfl
      · rcases List.mem_cons.mp hc with rfl | hc
        · rfl
        · exact ih _ _ _ c hc

/-- Where no `fallocate` fails, the holes are those that the draws ask for. -/
theorem punchCalls_eq {total : Word} {fallocate : Nat → Bool} (hpunch : ∀ i, fallocate i = true)
    (draws : List Word32) :
    ∀ n i records, ∃ ps : List Nat,
      (punchCalls total fallocate n i draws records).1 = ps.map (.punch .file1) ∧
      punchLoop total n draws records =
        if (punchCalls total fallocate n i draws records).2 then some ps else none := by
  induction draws with
  | nil =>
      intro n i records
      cases n with
      | zero => exact ⟨[], rfl, rfl⟩
      | succ n => exact ⟨[], rfl, rfl⟩
  | cons draw draws ih =>
      intro n i records
      cases n with
      | zero => exact ⟨[], rfl, rfl⟩
      | succ n =>
          simp only [punchCalls, punchLoop, hpunch, if_true]
          split
          · exact ⟨[], rfl, rfl⟩
          split
          · -- a new position: the rest of the holes is behind it
            obtain ⟨ps, hcalls, hloop⟩ := ih n (i + 1) (Function.update records (draw.toNat % total.toNat) 1)
            refine ⟨draw.toNat % total.toNat :: ps, by rw [hcalls, List.map_cons], ?_⟩
            rw [hloop]
            split <;> rfl
          · exact ih (n + 1) i records

/-- What has been called at some moment of two parts. -/
theorem prefix_andThen {first second : Part} {calls : List Call} (h : calls <+: (first.andThen second).1) :
    calls <+: first.1 ∨ ∃ later, first.2 = true ∧ later <+: second.1 ∧ calls = first.1 ++ later := by
  rw [Part.andThen] at h
  split at h
  · rename_i hdone
    obtain ⟨rest, heq⟩ := h
    rcases List.append_eq_append_iff.mp heq with ⟨later, hfirst, -⟩ | ⟨later, hcalls, hsecond⟩
    · exact Or.inl ⟨later, hfirst.symm⟩
    · exact Or.inr ⟨later, hdone, ⟨rest, hsecond.symm⟩, hcalls⟩
  · exact Or.inl h

theorem after_append (dir : Dir) (first second : List Call) :
    dir.after (first ++ second) = (dir.after first).after second :=
  List.foldl_append ..

@[simp] theorem andThen_done (part : Part) : part.andThen ([], true) = part := by
  obtain ⟨calls, done⟩ := part
  cases done
  · rfl
  · simp [Part.andThen]

@[simp] theorem done_andThen (part : Part) : Part.andThen ([], true) part = part := rfl

/-- The three phases, each on its own returns: by one run they are the same. -/
def phasesCalls (o : Options) (r1 r2 r3 : Returns o.block) (dir : Dir) : Part :=
  let first := phase1Calls o r1
  first.andThen ((phase2Calls o r2 (dir.after first.1)).andThen (phase3Calls o r3))

section Room

variable {o : Options} (r r1 r2 r3 : Returns o.block) {dir : Dir}

theorem mainCalls_four : mainCalls o r 4 dir = phasesCalls o r r r dir := by
  simp [mainCalls, phasesCalls]

theorem scriptCalls_eq : scriptCalls o r1 r2 r3 dir = phasesCalls o r1 r2 r3 dir := by
  have h1 : mainCalls o r1 1 dir = phase1Calls o r1 := by simp [mainCalls]
  have h2 : ∀ dir', mainCalls o r2 2 dir' = phase2Calls o r2 dir' := by
    intro dir'
    simp [mainCalls, Dir.after]
  have h3 : ∀ dir', mainCalls o r3 3 dir' = phase3Calls o r3 := by
    intro dir'
    simp [mainCalls]
  rw [scriptCalls, h1, h2, h3, phasesCalls]

theorem phase1Calls_name {c : Call} (hc : c ∈ (phase1Calls o r).1) : c.name = .file1 := by
  rw [phase1Calls] at hc
  rcases mem_created hc with rfl | hc
  · rfl
  · exact fillCalls_name _ _ _ _ _ _ c hc

theorem phase3Calls_name {c : Call} (hc : c ∈ (phase3Calls o r).1) : c.name = .file2 := by
  rw [phase3Calls] at hc
  rcases mem_created hc with rfl | hc
  · rfl
  · exact fillCalls_name _ _ _ _ _ _ c hc

/-- Phase 2 punches pages, when it comes to its end those of the loop. -/
theorem phase2Calls_punches (hpunch : ∀ i, r.fallocate i = true) (dir : Dir) :
    ∃ ps : List Nat, (phase2Calls o r dir).1 = ps.map (.punch .file1) ∧
      ((phase2Calls o r dir).2 = true → phase2 o r.draws = some ps) := by
  rw [phase2Calls]
  split
  · obtain ⟨ps, hcalls, hloop⟩ := punchCalls_eq hpunch r.draws o.holeNum.toNat 0 fun _ => 0
    exact ⟨ps, hcalls, fun hdone => hloop.trans (if_pos hdone)⟩
  · exact ⟨[], rfl, fun hdone => by cases hdone⟩

/-- As long as there is no `file2`. -/
theorem room_le {n : Nat} (h1 : dir.used .file1 ⊆ Finset.range n) (h2 : dir.used .file2 = ∅) :
    dir.room ≤ n := by
  have hcard := Finset.card_le_card h1
  rw [Finset.card_range] at hcard
  rw [Dir.room, h2, Finset.card_empty, Nat.add_zero]
  exact hcard

/-- Different pages below `n` are so many less. -/
theorem card_used_punched {n : Nat} {ps : List Nat} {pages : Finset Nat} (hpages : pages ⊆ Finset.range n)
    (hnodup : ps.Nodup) (hlt : ∀ p ∈ ps, p < n) : (pages \ ps.toFinset).card + ps.length ≤ n := by
  have hsub : ps.toFinset ⊆ Finset.range n := fun p hp =>
    Finset.mem_range.mpr (hlt p (List.mem_toFinset.mp hp))
  have hcard := Finset.card_le_card (Finset.sdiff_subset_sdiff hpages (Finset.Subset.refl ps.toFinset))
  have hle := Finset.card_le_card hsub
  rw [Finset.card_sdiff_of_subset hsub, List.toFinset_card_of_nodup hnodup, Finset.card_range] at hcard
  rw [List.toFinset_card_of_nodup hnodup, Finset.card_range] at hle
  omega

/-- Phase 2 frees what phase 3 fills. -/
theorem phasesCalls_room (hblock : PAGE_SIZE ∣ o.block.toNat) (hpercent : o.holePercent.toNat ≤ 100)
    (h1 : dir.used .file1 ⊆ Finset.range o.total4KBlks.toNat) (h2 : dir.used .file2 = ∅)
    (hpunch : ∀ i, r2.fallocate i = true) {calls : List Call}
    (hcalls : calls <+: (phasesCalls o r1 r2 r3 dir).1) :
    (dir.after calls).room ≤ o.total4KBlks.toNat := by
  have hother : ∀ calls : List Call, (∀ c ∈ calls, c.name = .file1) → ∀ c ∈ calls, c.name ≠ .file2 :=
    fun calls hall c hc => (hall c hc).trans_ne FileName.noConfusion
  -- Up to the end of phase 1 only `file1` is written, on its own pages.
  have hfill : ∀ calls, calls <+: (phase1Calls o r1).1 →
      (dir.after calls).used .file1 ⊆ Finset.range o.total4KBlks.toNat ∧
        (dir.after calls).used .file2 = ∅ := by
    intro calls hcalls
    refine ⟨used_after_subset h1 fun c hc => phase1Calls_keeps r1 hblock (hcalls.subset hc), ?_⟩
    rw [used_after_of_ne (hother calls fun c hc => phase1Calls_name r1 (hcalls.subset hc)), h2]
  rw [phasesCalls] at hcalls
  rcases prefix_andThen hcalls with hcalls | ⟨later, -, hlater, rfl⟩
  · exact room_le (hfill calls hcalls).1 (hfill calls hcalls).2
  obtain ⟨hused1, hused2⟩ := hfill _ (List.prefix_refl _)
  rw [after_append]
  generalize dir.after (phase1Calls o r1).1 = dir1 at hused1 hused2 hlater
  obtain ⟨ps, hps, hdone⟩ := phase2Calls_punches r2 hpunch dir1
  -- Phase 2 takes pages away.
  have hpunched : ∀ calls, calls <+: (phase2Calls o r2 dir1).1 →
      (dir1.after calls).used .file1 ⊆ Finset.range o.total4KBlks.toNat ∧
        (dir1.after calls).used .file2 = ∅ := by
    intro calls hcalls
    refine ⟨used_after_subset hused1 fun c hc => phase2Calls_keeps r2 (contents 0) _ (hcalls.subset hc), ?_⟩
    rw [used_after_of_ne (hother calls fun c hc => ?_), hused2]
    have hmem := hcalls.subset hc
    rw [hps] at hmem
    obtain ⟨p, -, rfl⟩ := List.mem_map.mp hmem
    rfl
  rcases prefix_andThen hlater with hlater | ⟨last, hended, hlast, rfl⟩
  · exact room_le (hpunched later hlater).1 (hpunched later hlater).2
  -- Phase 3 has as many pages for `file2` as the holes are.
  obtain ⟨hnodup, hlength, hmem⟩ := punchLoop_spec (hdone hended)
  have hcard := card_used_punched hused1 hnodup fun p hp => (hmem p hp).2.1
  rw [after_append, Dir.room]
  have hkept : ((dir1.after (phase2Calls o r2 dir1).1).after last).used .file1 =
      dir1.used .file1 \ ps.toFinset := by
    rw [used_after_of_ne, hps, used_after_punches]
    intro c hc
    exact (phase3Calls_name r3 (hlast.subset hc)).trans_ne FileName.noConfusion
  have hfilled : ((dir1.after (phase2Calls o r2 dir1).1).after last).used .file2 ⊆
      Finset.range o.holeNum.toNat := by
    refine used_after_subset ?_ fun c hc => phase3Calls_keeps r3 hblock hpercent (hlast.subset hc)
    rw [(hpunched _ (List.prefix_refl _)).2]
    exact Finset.empty_subset _
  have hle := Finset.card_le_card hfilled
  rw [Finset.card_range] at hle
  rw [hkept]
  omega

/-- At every moment of an ageing, by one run or by the three of the script, whatever they draw,
    the two files together have no more pages in use than `file1` alone is to have, if no
    `fallocate` fails. -/
theorem ageing_room (hblock : PAGE_SIZE ∣ o.block.toNat) (hpercent : o.holePercent.toNat ≤ 100)
    (h1 : dir.used .file1 ⊆ Finset.range o.total4KBlks.toNat) (h2 : dir.used .file2 = ∅) :
    (∀ r : Returns o.block, (∀ i, r.fallocate i = true) →
      ∀ calls, calls <+: (mainCalls o r 4 dir).1 → (dir.after calls).room ≤ o.total4KBlks.toNat) ∧
    ∀ r1 r2 r3 : Returns o.block, (∀ i, r2.fallocate i = true) →
      ∀ calls, calls <+: (scriptCalls o r1 r2 r3 dir).1 →
        (dir.after calls).room ≤ o.total4KBlks.toNat := by
  constructor
  · intro r hpunch calls hcalls
    rw [mainCalls_four] at hcalls
    exact phasesCalls_room r r r hblock hpercent h1 h2 hpunch hcalls
  · intro r1 r2 r3 hpunch calls hcalls
    rw [scriptCalls_eq] at hcalls
    exact phasesCalls_room r1 r2 r3 hblock hpercent h1 h2 hpunch hcalls

end Room

/-- Over a `file1` that is full already, with other draws for `-p 4` than for the script. -/
theorem ageing_room_sample :
    let dir := Dir.after (fun _ => none) (phase1Calls sampleOptions (sampleReturns [])).1
    (∀ calls, calls <+: (mainCalls sampleOptions (sampleReturns [9, 2]) 4 dir).1 →
        (dir.after calls).room ≤ sampleOptions.total4KBlks.toNat) ∧
      ∀ calls, calls <+: (scriptCalls sampleOptions (sampleReturns []) (sampleReturns [5, 5, 7])
          (sampleReturns []) dir).1 →
        (dir.after calls).room ≤ sampleOptions.total4KBlks.toNat := by
  have hblock : PAGE_SIZE ∣ sampleOptions.block.toNat := by decide
  have h1 : (Dir.after (fun _ => none) (phase1Calls sampleOptions (sampleReturns [])).1).used .file1 ⊆
      Finset.range sampleOptions.total4KBlks.toNat :=
    used_after_subset (Finset.empty_subset _) fun c hc => phase1Calls_keeps _ hblock hc
  have h2 : (Dir.after (fun _ => none) (phase1Calls sampleOptions (sampleReturns [])).1).used .file2 = ∅ :=
    used_after_of_ne fun c hc => (phase1Calls_name _ hc).trans_ne FileName.noConfusion
  obtain ⟨hone, hthree⟩ := ageing_room hblock (by decide) h1 h2
  exact ⟨hone _ fun _ => rfl, hthree _ _ _ fun _ => rfl⟩

/-! ## What an ageing leaves -/

/-- A file of `size` bytes in which `pages` are in use, each one with its number. -/
structure Holds (total : Nat) (name : FileName) (pages : Finset Nat) (size : Nat) (f : AgedFile) : Prop where
  used : f.used = pages
  size : f.file.size = size
  data : ∀ i, f.file.data i = if i / PAGE_SIZE ∈ pages then contents total name i else 0

section Holds

variable {total : Nat} {name : FileName} {pages : Finset Nat} {size : Nat} {f : AgedFile}

theorem Holds.write (h : Holds total name pages size f) (m : Nat) {n : Nat} (hn : 0 < n) :
    Holds total name (pages ∪ Finset.Ico m (m + n)) (max size ((m + n) * PAGE_SIZE))
      (f.write (m * PAGE_SIZE)
        (contentBytes (BitVec.ofNat 64 (firstValue total name)) (m * PAGE_SIZE) (n * PAGE_SIZE))) := by
  have hlength : 0 < n * PAGE_SIZE := Nat.mul_pos hn PAGE_SIZE_pos
  refine ⟨?_, ?_, fun i => ?_⟩
  · rw [used_write, length_contentBytes, touched_pages PAGE_SIZE_pos, h.used]
  · have hne : contentBytes (BitVec.ofNat 64 (firstValue total name)) (m * PAGE_SIZE) (n * PAGE_SIZE) ≠ [] := by
      rw [← List.length_pos_iff, length_contentBytes]
      exact hlength
    show (f.file.pwrite _ _).size = _
    rw [File.size_pwrite hne, length_contentBytes, h.size, Nat.add_mul]
  · have hmem : i / PAGE_SIZE ∈ Finset.Ico m (m + n) ↔
        m * PAGE_SIZE ≤ i ∧ i < m * PAGE_SIZE + n * PAGE_SIZE := by
      rw [Finset.mem_Ico, Nat.le_div_iff_mul_le PAGE_SIZE_pos, Nat.div_lt_iff_lt_mul PAGE_SIZE_pos,
        Nat.add_mul]
    simp only [data_write, Finset.mem_union, hmem]
    by_cases hcov : m * PAGE_SIZE ≤ i ∧ i < m * PAGE_SIZE + n * PAGE_SIZE
    · rw [if_pos (Or.inr hcov)]
      refine WriteLog.writeAt_of_covers hcov.1 ?_
      rw [contentBytes, List.getElem?_map, List.getElem?_range (by omega), Option.map_some,
        Nat.add_sub_cancel' hcov.1]
      rfl
    · rw [WriteLog.writeAt_of_not_covers, h.data]
      · simp only [hcov, or_false]
      · rwa [WriteLog.Covers, length_contentBytes]

theorem Holds.punch (h : Holds total name pages size f) (p : Nat) :
    Holds total name (pages.erase p) size (f.punch p) := by
  refine ⟨?_, h.size, fun i => ?_⟩
  · rw [used_punch, h.used]
  · simp only [data_punch, h.data, Finset.mem_erase]
    by_cases hp : i / PAGE_SIZE = p
    · rw [if_pos hp, if_neg fun hmem => hmem.1 hp]
    · simp only [hp, if_false, ne_eq, not_false_eq_true, true_and]

theorem Holds.punches (h : Holds total name pages size f) (ps : List Nat) {dir : Dir}
    (hf : dir name = some f) :
    ∃ f', (dir.after (ps.map (Call.punch name))) name = some f' ∧
      Holds total name (pages \ ps.toFinset) size f' := by
  induction ps generalizing dir pages f with
  | nil => exact ⟨f, hf, by rwa [List.toFinset_nil, Finset.sdiff_empty]⟩
  | cons p ps ih =>
      have hstep : dir.apply (.punch name p) name = some (f.punch p) := by
        rw [Dir.apply, Function.update_self, hf]
        rfl
      obtain ⟨f', hf', hholds⟩ := ih (h.punch p) hstep
      rw [Finset.erase_sdiff_comm, ← Finset.sdiff_insert, ← List.toFinset_cons] at hholds
      exact ⟨f', hf', hholds⟩

/-- A loop whose calls of `write` all transfer their block. -/
theorem Holds.fillCalls {block : Word} {write : WriteReturns block} (hwhole : block.toNat ≤ MAX_RW_COUNT)
    (hwrite : ∀ i, write.result i = block.toNat) {b : Nat} (hb : block.toNat = b * PAGE_SIZE) (hpos : 0 < b)
    (n i m : Nat) {dir : Dir} (hf : dir name = some f) (h : Holds total name pages size f)
    (hm : m * PAGE_SIZE ≤ size) :
    (fillCalls write name n i (m * PAGE_SIZE)
        (BitVec.ofNat 64 (firstValue total name) + BitVec.ofNat 64 m)).2 = true ∧
      ∃ f', (dir.after (Aging.fillCalls write name n i (m * PAGE_SIZE)
          (BitVec.ofNat 64 (firstValue total name) + BitVec.ofNat 64 m)).1) name = some f' ∧
        Holds total name (pages ∪ Finset.Ico m (m + n * b)) (max size ((m + n * b) * PAGE_SIZE)) f' := by
  -- Induction on the blocks: each one adds its pages behind those of the blocks before.
  induction n generalizing i m dir pages size f with
  | zero =>
      refine ⟨rfl, f, hf, ?_⟩
      rw [Nat.zero_mul, Nat.add_zero, Finset.Ico_self, Finset.union_empty, Nat.max_eq_left hm]
      exact h
  | succ n ih =>
      have hpassed : ¬ ((BitVec.ofInt 32 (write.result i)).toInt < 0 ∨
          (BitVec.ofInt 32 (write.result i)).signExtend 64 ≠ block) := by
        obtain ⟨hnonneg, hall⟩ := linuxWrites_ret block
        have hresult : (linuxWrites block).result 0 = write.result i := by
          rw [hwrite]
          exact congrArg Int.ofNat (Nat.min_eq_left hwhole)
        rw [hresult] at hnonneg hall
        exact not_or.mpr ⟨hnonneg, not_not.mpr (hall.mpr hwhole)⟩
      have hfirst : dir.apply (.write name (m * PAGE_SIZE)
          (contentBytes (BitVec.ofNat 64 (firstValue total name)) (m * PAGE_SIZE) block.toNat)) name =
          some (f.write (m * PAGE_SIZE)
            (contentBytes (BitVec.ofNat 64 (firstValue total name)) (m * PAGE_SIZE) block.toNat)) := by
        rw [Dir.apply, Function.update_self, hf]
        rfl
      have hstep := h.write m hpos
      rw [← hb] at hstep
      obtain ⟨hdone, f', hf', hholds⟩ := ih (i + 1) (m + b) hfirst hstep (Nat.le_max_right ..)
      rw [fillCalls_succ write name hb, if_neg hpassed]
      refine ⟨hdone, f', hf', ?_⟩
      have hcount : m + (n + 1) * b = m + b + n * b := by
        rw [Nat.succ_mul]
        omega
      have hend : (m + b) * PAGE_SIZE ≤ (m + b + n * b) * PAGE_SIZE :=
        Nat.mul_le_mul_right _ (Nat.le_add_right ..)
      rw [Finset.union_assoc, Finset.Ico_union_Ico_eq_Ico (Nat.le_add_right ..) (Nat.le_add_right ..),
        Nat.max_assoc, Nat.max_eq_right hend, ← hcount] at hholds
      exact hholds

end Holds

/-- No call fails or falls short. -/
structure Returns.Succeed {block : Word} (r : Returns block) : Prop where
  open1 : r.open1 = true
  write1 : ∀ i, r.write1.result i = block.toNat
  open2 : r.open2 = true
  fallocate : ∀ i, r.fallocate i = true
  open3 : r.open3 = true
  write3 : ∀ i, r.write3.result i = block.toNat

/-- A phase that creates its file and fills it. -/
theorem holds_created {block : Word} {write : WriteReturns block} (hwhole : block.toNat ≤ MAX_RW_COUNT)
    (hwrite : ∀ i, write.result i = block.toNat) {b : Nat} (hb : block.toNat = b * PAGE_SIZE) (hpos : 0 < b)
    {total n : Nat} {name : FileName} {pages : Finset Nat} {size : Nat} {dir : Dir}
    (h : Holds total name pages size ((dir name).getD Sparse.empty)) :
    (fillCalls write name n 0 0 (BitVec.ofNat 64 (firstValue total name))).2 = true ∧
      ∃ f', (dir.after (.create name ::
          (fillCalls write name n 0 0 (BitVec.ofNat 64 (firstValue total name))).1)) name = some f' ∧
        Holds total name (pages ∪ Finset.range (n * b)) (max size (n * block.toNat)) f' := by
  have hcreated : dir.apply (.create name) name = some ((dir name).getD Sparse.empty) := by
    rw [Dir.apply, Function.update_self]
  have hfill := h.fillCalls hwhole hwrite hb hpos n 0 0 hcreated (by rw [Nat.zero_mul]; exact Nat.zero_le _)
  rw [Nat.zero_mul, BitVec.add_zero, Nat.zero_add, ← Finset.range_eq_Ico, Nat.mul_assoc, ← hb] at hfill
  exact hfill

/-- A loop behind the creation of its file ends as it does. -/
theorem snd_create (name : FileName) (fill : Part) :
    ((Call.create name :: fill.1, fill.2) : Part).2 = fill.2 := rfl

section Leaves

variable {o : Options} {r : Returns o.block} {dir : Dir} (hblock : PAGE_SIZE ∣ o.block.toNat)
variable (hwhole : o.block.toNat ≤ MAX_RW_COUNT) (hok : r.Succeed)

include hblock hwhole hok

theorem phase1Calls_leaves {pages : Finset Nat} {size : Nat}
    (h : Holds o.total4KBlks.toNat .file1 pages size ((dir .file1).getD Sparse.empty)) :
    (phase1Calls o r).2 = true ∧ ∃ f, dir.after (phase1Calls o r).1 .file1 = some f ∧
      Holds o.total4KBlks.toNat .file1
        (pages ∪ Finset.range (o.bytes.toNat / o.block.toNat * (o.block.toNat / PAGE_SIZE)))
        (max size (o.bytes.toNat / o.block.toNat * o.block.toNat)) f := by
  obtain ⟨b, hb, hpos⟩ := block_eq hblock
  have hpages : o.block.toNat / PAGE_SIZE = b := by rw [hb, Nat.mul_div_cancel _ PAGE_SIZE_pos]
  have hblocks : (o.bytes / o.block).toNat = o.bytes.toNat / o.block.toNat := BitVec.toNat_udiv
  have hcreated := @holds_created _ r.write1 hwhole hok.write1 b hb hpos o.total4KBlks.toNat
    (o.bytes / o.block).toNat .file1 _ _ dir h
  rw [phase1Calls, if_pos hok.open1, one_mul_total, hpages, ← hblocks, snd_create]
  exact hcreated

theorem phase3Calls_leaves {pages : Finset Nat} {size : Nat}
    (h : Holds o.total4KBlks.toNat .file2 pages size ((dir .file2).getD Sparse.empty)) :
    ∃ f, dir.after (phase3Calls o r).1 .file2 = some f ∧
      Holds o.total4KBlks.toNat .file2
        (pages ∪ Finset.range (o.fillNum.toNat * (o.block.toNat / PAGE_SIZE)))
        (max size (o.fillNum.toNat * o.block.toNat)) f := by
  obtain ⟨b, hb, hpos⟩ := block_eq hblock
  have hpages : o.block.toNat / PAGE_SIZE = b := by rw [hb, Nat.mul_div_cancel _ PAGE_SIZE_pos]
  have hcreated := @holds_created _ r.write3 hwhole hok.write3 b hb hpos o.total4KBlks.toNat
    o.fillNum.toNat .file2 _ _ dir h
  rw [phase3Calls, if_pos hok.open3, three_mul_total, hpages]
  exact hcreated.2

omit hblock hwhole in
theorem phase2Calls_eq {ps : List Nat} (hps : phase2 o r.draws = some ps) {f : AgedFile}
    (hf : dir .file1 = some f) : phase2Calls o r dir = (ps.map (.punch .file1), true) := by
  obtain ⟨ps', hcalls, hloop⟩ := punchCalls_eq hok.fallocate r.draws o.holeNum.toNat 0 fun _ => 0
  have hloop : phase2 o r.draws = _ := hloop
  rw [hps] at hloop
  split at hloop
  · rename_i hdone
    cases hloop
    rw [phase2Calls, if_pos ⟨hok.open2, by rw [hf]; rfl⟩, ← hcalls, ← hdone]
  · cases hloop

/-- An ageing without failures, of files that have been filled before or not: `file1` has its
    whole blocks but for the punched pages, and `file2` its own, each page with its number. -/
theorem ageing_leaves {ps : List Nat} (hps : phase2 o r.draws = some ps)
    {pages : FileName → Finset Nat} {size : FileName → Nat}
    (hdir : ∀ name, Holds o.total4KBlks.toNat name (pages name) (size name) ((dir name).getD Sparse.empty)) :
    ∃ f1 f2, dir.after (mainCalls o r 4 dir).1 .file1 = some f1 ∧
      dir.after (mainCalls o r 4 dir).1 .file2 = some f2 ∧
      Holds o.total4KBlks.toNat .file1
        ((pages .file1 ∪ Finset.range (o.bytes.toNat / o.block.toNat * (o.block.toNat / PAGE_SIZE))) \
          ps.toFinset)
        (max (size .file1) (o.bytes.toNat / o.block.toNat * o.block.toNat)) f1 ∧
      Holds o.total4KBlks.toNat .file2
        (pages .file2 ∪ Finset.range (o.fillNum.toNat * (o.block.toNat / PAGE_SIZE)))
        (max (size .file2) (o.fillNum.toNat * o.block.toNat)) f2 := by
  obtain ⟨hdone, f, hf, hfilled⟩ := phase1Calls_leaves hblock hwhole hok (hdir .file1)
  have hphase2 := phase2Calls_eq hok hps hf
  have hcalls : (mainCalls o r 4 dir).1 =
      (phase1Calls o r).1 ++ (ps.map (.punch .file1) ++ (phase3Calls o r).1) := by
    rw [mainCalls_four, phasesCalls, Part.andThen, if_pos hdone, hphase2]
    rfl
  rw [hcalls, after_append, after_append]
  obtain ⟨f1, hf1, hholds1⟩ := hfilled.punches ps hf
  -- `file2` is as it was up to phase 3, and `file1` from there on.
  have hfile2 : (dir.after (phase1Calls o r).1).after (ps.map (.punch .file1)) .file2 = dir .file2 := by
    rw [after_of_ne, after_of_ne fun c hc => (phase1Calls_name r hc).trans_ne FileName.noConfusion]
    · intro c hc
      obtain ⟨p, -, rfl⟩ := List.mem_map.mp hc
      exact FileName.noConfusion
  have hstart : Holds o.total4KBlks.toNat .file2 (pages .file2) (size .file2)
      ((((dir.after (phase1Calls o r).1).after (ps.map (.punch .file1))) .file2).getD Sparse.empty) := by
    rw [hfile2]
    exact hdir .file2
  obtain ⟨f2, hf2, hholds2⟩ := phase3Calls_leaves hblock hwhole hok hstart
  refine ⟨f1, f2, ?_, hf2, hholds1, hholds2⟩
  rw [after_of_ne, hf1]
  intro c hc
  exact (phase3Calls_name r hc).trans_ne FileName.noConfusion

end Leaves

theorem holds_none (total : Nat) (name : FileName) :
    Holds total name ∅ 0 (Sparse.empty : AgedFile) :=
  ⟨rfl, rfl, fun _ => rfl⟩

/-- Some draws bring phase 2 to its end; the directory is empty at first. -/
theorem ageing_leaves_sample :
    ∃ draws ps, phase2 sampleOptions draws = some ps ∧
      ∃ f1 f2,
        Dir.after (fun _ => none) (mainCalls sampleOptions (sampleReturns draws) 4 fun _ => none).1 .file1 =
          some f1 ∧
        Dir.after (fun _ => none) (mainCalls sampleOptions (sampleReturns draws) 4 fun _ => none).1 .file2 =
          some f2 ∧
        Holds sampleOptions.total4KBlks.toNat .file1 ((∅ ∪ Finset.range (sampleOptions.bytes.toNat /
          sampleOptions.block.toNat * (sampleOptions.block.toNat / PAGE_SIZE))) \ ps.toFinset)
          (max 0 (sampleOptions.bytes.toNat / sampleOptions.block.toNat * sampleOptions.block.toNat)) f1 ∧
        Holds sampleOptions.total4KBlks.toNat .file2
          (∅ ∪ Finset.range (sampleOptions.fillNum.toNat * (sampleOptions.block.toNat / PAGE_SIZE)))
          (max 0 (sampleOptions.fillNum.toNat * sampleOptions.block.toNat)) f2 := by
  obtain ⟨draws, ps, hps, -⟩ := @exists_punched sampleOptions.total4KBlks sampleOptions.holeNum.toNat 0
    (by decide) (by decide) (by decide)
  have hwrite : ((min sampleOptions.block.toNat MAX_RW_COUNT : Nat) : Int) = sampleOptions.block.toNat := by
    decide
  have hok : (sampleReturns draws).Succeed :=
    { open1 := rfl
      write1 := fun _ => hwrite
      open2 := rfl
      fallocate := fun _ => rfl
      open3 := rfl
      write3 := fun _ => hwrite }
  exact ⟨draws, ps, hps, @ageing_leaves sampleOptions (sampleReturns draws) (fun _ => none) (by decide)
    (by decide) hok ps hps (fun _ => ∅) (fun _ => 0) fun name => holds_none _ name⟩

end GogetaTools.Aging
