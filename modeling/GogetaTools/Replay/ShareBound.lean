/-
  GogetaTools.Replay.ShareBound

  The arithmetic of the distribution loop: the `unsigned long` subtraction does
  not wrap, the probability is a percentage, and a worker exceeds its share by
  less than the last group it received.

  `SharesInv` says of the cursor that the worker it points to holds fewer
  records than its share, and of the workers behind it that each one holds its
  share and at most one group more.  `SharesInv.of_beforeAdd`
  and `SharesInv.of_afterAdd` follow the two halves of the loop body, and
  `distributeRun_shares` is the whole loop.
-/

import GogetaTools.Replay.Feeds

namespace GogetaTools.Replay

open Map

variable {P : Type}

/-! ## The last group of a worker -/

/-- The last group that worker `i` received, nothing if it received none. -/
def lastGroup (assigned : List (Nat × List P)) (i : Nat) : List P :=
  ((assigned.filter fun x => x.1 = i).map Prod.snd).getLastD []

@[simp] theorem lastGroup_append_self (assigned : List (Nat × List P)) (i : Nat) (g : List P) :
    lastGroup (assigned ++ [(i, g)]) i = g := by
  simp [lastGroup]

theorem lastGroup_append_ne {assigned : List (Nat × List P)} {i j : Nat} (h : j ≠ i)
    (g : List P) : lastGroup (assigned ++ [(j, g)]) i = lastGroup assigned i := by
  simp [lastGroup, h]

/-- A worker ahead of all assigned groups holds nothing. -/
theorem shareOf_of_ahead {assigned : List (Nat × List P)} {i : Nat}
    (h : ∀ x ∈ assigned, x.1 < i) : shareOf assigned i = [] := by
  have hnone : assigned.filter (fun x => x.1 = i) = [] := by
    rw [List.filter_eq_nil_iff]
    intro x hx hxi
    exact Nat.lt_irrefl i (of_decide_eq_true hxi ▸ h x hx)
  rw [shareOf, hnone, List.map_nil, List.flatten_nil]

/-! ## The invariant -/

/-- What a worker that is not the last one may hold: less than its share (nothing
    for a share of 0), and the last group on top. -/
def ShareBound (per : Word) (assigned : List (Nat × List P)) (i : Nat) : Prop :=
  (shareOf assigned i).length ≤ max per.toNat 1 - 1 + (lastGroup assigned i).length

/-- The cursor counts what its worker holds, less than the share unless it is the
    last worker; no group went further, and the workers behind keep the bound. -/
structure SharesInv (threads : Nat) (per : Word) (c : Cursor) (assigned : List (Nat × List P)) :
    Prop where
  cursorAt : ∃ left, CursorAt threads per c left (shareOf assigned c.curThread).length
  reached : ∀ x ∈ assigned, x.1 ≤ c.curThread
  behind : ∀ i < c.curThread, ShareBound per assigned i

section Cursor

variable {threads : Nat} {per : Word} {rand : Nat → Nat} {c : Cursor}
  {assigned : List (Nat × List P)}

theorem sharesInv_init (h : 0 < threads) (per : Word) :
    SharesInv threads per ⟨0, 0, 0⟩ ([] : List (Nat × List P)) where
  cursorAt := ⟨threads - 1, cursorAt_zero h per⟩
  reached := by simp
  behind := fun i hi => absurd hi (Nat.not_lt_zero i)

/-- The worker at the cursor is within the bound before it takes its next group. -/
theorem SharesInv.current (h : SharesInv threads per c assigned)
    (hnotLast : c.curThread + 1 < threads) : ShareBound per assigned c.curThread := by
  obtain ⟨left, hat⟩ := h.cursorAt
  have hworker := hat.worker
  have hshare := hat.share (by omega)
  unfold ShareBound
  omega

/-- The cursor moves on to the next worker, which holds nothing. -/
theorem SharesInv.next (h : SharesInv threads per c assigned) {c' : Cursor}
    (hcur : c'.curThread = c.curThread + 1) {left : Nat} (hat : CursorAt threads per c' left 0) :
    SharesInv threads per c' assigned := by
  have hempty : shareOf assigned c'.curThread = [] := by
    apply shareOf_of_ahead
    intro x hx
    have := h.reached x hx
    omega
  refine ⟨⟨left, by rw [hempty]; exact hat⟩, ?_, ?_⟩
  · intro x hx
    have := h.reached x hx
    omega
  · intro i hi
    rcases Nat.lt_or_ge i c.curThread with hlt | hge
    · exact h.behind i hlt
    · have hi' : i = c.curThread := by omega
      have hlast := hat.worker
      exact hi' ▸ h.current (by omega)

theorem SharesInv.of_beforeAdd (h : SharesInv threads per c assigned) {n : Nat}
    (hn : n ≤ containerLimit) {c' : Cursor} (hrun : beforeAdd threads per rand c n = some c') :
    SharesInv threads per c' assigned := by
  obtain ⟨left, hat⟩ := h.cursorAt
  have hworker := hat.worker
  by_cases hover : left ≠ 0 ∧ per.toNat < (shareOf assigned c.curThread).length + n
  · rw [beforeAdd_of_over hat hn hover] at hrun
    split at hrun
    · -- the worker is skipped with what it holds
      cases hrun
      have hleft := hover.1
      have hat' : CursorAt threads per ⟨c.curThread + 1, 0, c.draws + 1⟩ (left - 1) 0 :=
        ⟨by simp only; omega, rfl, Nat.zero_le _, fun _ => Or.inl rfl⟩
      exact h.next rfl hat'
    · cases hrun
      exact ⟨⟨left, hat.worker, hat.lines, hat.held_le, hat.share⟩, h.reached, h.behind⟩
  · rw [beforeAdd_of_fits hat hn hover] at hrun
    cases hrun
    exact h

/-- The worker at the cursor takes the group `g`. -/
theorem SharesInv.take (h : SharesInv threads per c assigned) (g : List P) :
    (∀ x ∈ assigned ++ [(c.curThread, g)], x.1 ≤ c.curThread) ∧
      ∀ i < c.curThread, ShareBound per (assigned ++ [(c.curThread, g)]) i := by
  refine ⟨?_, ?_⟩
  · intro x hx
    rcases List.mem_append.mp hx with hx | hx
    · exact h.reached x hx
    · rw [List.mem_singleton.mp hx]
  · intro i hi
    have hne : c.curThread ≠ i := by omega
    rw [ShareBound, shareOf_append_ne hne, lastGroup_append_ne hne]
    exact h.behind i hi

theorem SharesInv.of_afterAdd (h : SharesInv threads per c assigned) {g : List P}
    (hroom : (shareOf assigned c.curThread).length + g.length ≤ containerLimit) :
    SharesInv threads per (afterAdd threads per c g.length)
      (assigned ++ [(c.curThread, g)]) := by
  obtain ⟨left, hat⟩ := h.cursorAt
  have hworker := hat.worker
  obtain ⟨hreached, hbehind⟩ := h.take g
  by_cases hfull : left ≠ 0 ∧ per.toNat ≤ (shareOf assigned c.curThread).length + g.length
  · obtain ⟨hcur, hat'⟩ := afterAdd_of_full hat hroom hfull
    have hempty : shareOf (assigned ++ [(c.curThread, g)])
        (afterAdd threads per c g.length).curThread = [] := by
      apply shareOf_of_ahead
      intro x hx
      have := hreached x hx
      omega
    refine ⟨⟨left - 1, by rw [hempty]; exact hat'⟩, ?_, ?_⟩
    · intro x hx
      have := hreached x hx
      omega
    · intro i hi
      rcases Nat.lt_or_ge i c.curThread with hlt | hge
      · exact hbehind i hlt
      · -- the worker that is done now held less than its share before the group
        have hi' : i = c.curThread := by omega
        have hshare := hat.share hfull.1
        rw [hi', ShareBound, shareOf_append_self, lastGroup_append_self, List.length_append]
        omega
  · obtain ⟨hcur, hat'⟩ := afterAdd_of_more hat hroom hfull
    refine ⟨⟨left, ?_⟩, ?_, ?_⟩
    · rw [hcur, shareOf_append_self, List.length_append]
      exact hat'
    · rw [hcur]
      exact hreached
    · rw [hcur]
      exact hbehind

/-- No worker but the last one exceeds the bound, wherever the cursor is. -/
theorem SharesInv.bound (h : SharesInv threads per c assigned) {i : Nat} (hi : i + 1 < threads) :
    ShareBound per assigned i := by
  rcases Nat.lt_trichotomy i c.curThread with hlt | heq | hgt
  · exact h.behind i hlt
  · exact heq ▸ h.current (by omega)
  · rw [ShareBound, shareOf_of_ahead fun x hx => Nat.lt_of_le_of_lt (h.reached x hx) hgt]
    exact Nat.zero_le _

end Cursor

/-! ## The loop -/

section Run

variable {threads : Nat} {per : Word} {rand : Nat → Nat} {map : Hashmap P Nat}

/-- The invariants of the loop after the groups `gs`. -/
theorem distributeRun_shares (hthreads : 0 < threads)
    {heap : Nat → Option (TraceContainer P)} {bs : List Nat} {gs : List (List P)}
    (hlead : LeadTo heap map bs gs) (hnd : (bs.map fun b => (map.entry b).value).Nodup)
    {a : AssignState P}
    (hrun : bs.foldlM (distributeStep threads per rand map) (assignInit threads heap) = some a) :
    ∃ workers, assignedWorkers threads per rand ⟨0, 0, 0⟩ (gs.map List.length) = some workers ∧
      DistributeInv threads a (workers.zip gs) ∧
      SharesInv threads per a.cursor (workers.zip gs) := by
  refine distributeRun_keeps (I := SharesInv threads per) ?_ (distributeInv_init hthreads heap)
    (sharesInv_init hthreads per) hlead hnd hrun
  intro c c' assigned tc2 hinv hfits hbefore hroom
  rw [shareOf_append_self, List.length_append] at hroom
  exact (hinv.of_beforeAdd hfits.size_le_limit hbefore).of_afterAdd hroom

/-- Other containers than those of the buckets `bs` are not freed. -/
theorem heap_distributeRun {bs : List Nat} {a a' : AssignState P} {v : Nat}
    (hv : v ∉ bs.map fun b => (map.entry b).value)
    (hrun : bs.foldlM (distributeStep threads per rand map) a = some a') :
    a'.heap v = a.heap v := by
  induction bs generalizing a with
  | nil =>
      cases hrun
      rfl
  | cons b bs ih =>
      rw [List.map_cons, List.mem_cons, not_or] at hv
      rw [List.foldlM_cons] at hrun
      obtain ⟨a₁, hstep, hrest⟩ := Option.bind_eq_some_iff.mp hrun
      rw [ih hv.2 hrest]
      obtain ⟨tc2, -, hstep⟩ := Option.bind_eq_some_iff.mp hstep
      obtain ⟨c, -, hstep⟩ := Option.bind_eq_some_iff.mp hstep
      obtain ⟨tc, -, hstep⟩ := Option.bind_eq_some_iff.mp hstep
      obtain ⟨tc', -, hstep⟩ := Option.bind_eq_some_iff.mp hstep
      cases hstep
      exact Function.update_of_ne hv.1 _ _

/-- The head of an iteration whose group has `n` records, at a worker with `held`
    records: the subtraction stays above zero and the quotient below 100. -/
structure HeadSafe (per : Word) (c : Cursor) (held n : Nat) : Prop where
  lines : c.curThreadLines.toNat = held
  share : held = 0 ∨ held < per.toNat
  noWrap : (per - c.curThreadLines).toNat = per.toNat - held ∧ held ≤ per.toNat
  probability : BitVec.ofNat 64 n + c.curThreadLines > per →
    ∃ probability, probabilityAssignCurrent per c.curThreadLines n = some probability ∧
      0 ≤ probability ∧ probability ≤ 99

theorem CursorAt.headSafe {c : Cursor} {left held n : Nat} (h : CursorAt threads per c left held)
    (hleft : left ≠ 0) (hn : n ≤ containerLimit) : HeadSafe per c held n := by
  have hheld := h.held_le
  have hshare := h.share hleft
  simp only [containerLimit] at hheld
  have hlines : c.curThreadLines.toNat = held := by
    rw [h.lines, BitVec.toNat_ofNat, Nat.mod_eq_of_lt (by omega)]
  have hle : held ≤ per.toNat := by omega
  refine ⟨hlines, hshare, ⟨?_, hle⟩, ?_⟩
  · rw [BitVec.toNat_sub_of_le (by rw [BitVec.le_def, hlines]; exact hle), hlines]
  · intro hover
    rw [h.lines, gt_iff_lt, BitVec.lt_def, toNat_lines hn h.held_le] at hover
    -- the rest of the share is smaller than the group
    have hpercent : (per.toNat - held) * 100 / n < 100 := by
      rw [Nat.div_lt_iff_lt_mul (by omega)]
      omega
    rw [h.lines]
    exact ⟨_, probabilityAssignCurrent_eq hle hover hn, Int.natCast_nonneg _,
      Int.ofNat_le.mpr (Nat.le_of_lt_succ hpercent)⟩

/-- At the head of the iteration for the bucket `b`, which is not the last worker's. -/
theorem distributeRun_headSafe (hthreads : 0 < threads)
    {heap : Nat → Option (TraceContainer P)} {pre post : List Nat} {b : Nat} {gs : List (List P)}
    (hlead : LeadTo heap map (pre ++ b :: post) gs)
    (hnd : ((pre ++ b :: post).map fun b => (map.entry b).value).Nodup) {a : AssignState P}
    (hrun : pre.foldlM (distributeStep threads per rand map) (assignInit threads heap) = some a)
    (hnotLast : a.cursor.curThread ≠ threads - 1) :
    ∃ tc tc2, a.params[a.cursor.curThread]? = some tc ∧
      a.heap (map.entry b).value = some tc2 ∧ HeadSafe per a.cursor tc.size tc2.size := by
  have hpre : LeadTo heap map pre (gs.take pre.length) := by
    have h := List.forall₂_take pre.length hlead
    rwa [List.take_left] at h
  have hrest : LeadTo heap map (b :: post) (gs.drop pre.length) := by
    have h := List.forall₂_drop pre.length hlead
    rwa [List.drop_left] at h
  obtain ⟨_, _, ⟨tc2, htc2, hfits, rfl⟩, -, -⟩ := List.forall₂_cons_left_iff.mp hrest
  -- the container of `b` is still there, since no bucket before it has the same one
  rw [List.map_append, List.map_cons, List.nodup_middle, List.nodup_cons, List.mem_append,
    not_or] at hnd
  obtain ⟨⟨hb, -⟩, hnd⟩ := hnd
  obtain ⟨workers, -, hinv, hshares⟩ :=
    distributeRun_shares hthreads hpre hnd.of_append_left hrun
  obtain ⟨tc, htc⟩ : ∃ tc, a.params[a.cursor.curThread]? = some tc :=
    ⟨_, List.getElem?_eq_getElem (by rw [hinv.length]; exact hinv.cursor_lt)⟩
  -- the cursor counts what that worker holds
  obtain ⟨left, hat⟩ := hshares.cursorAt
  have hworker := hat.worker
  rw [← (hinv.share _ _ htc).2] at hat
  exact ⟨tc, tc2, htc, (heap_distributeRun hb hrun).trans htc2,
    hat.headSafe (by omega) hfits.size_le_limit⟩

end Run

/-- For all groups, thread counts and `rand()` results: at the head of every
    iteration in front of the last worker the arithmetic is safe; after the loop
    every worker but the last is within the bound; and the loop does return if
    the records fit a container. -/
theorem distribute_shareBound {threads : Nat} (hthreads : 0 < threads) (validLines : Nat)
    (rand : Nat → Nat) {map : Hashmap P Nat} {heap : Nat → Option (TraceContainer P)}
    {bs : List Nat} {gs : List (List P)} (hlead : LeadTo heap map bs gs)
    (hnd : (bs.map fun b => (map.entry b).value).Nodup) (hne : ∀ g ∈ gs, g ≠ []) :
    (∀ pre b post a, bs = pre ++ b :: post →
      pre.foldlM (distributeStep threads (perThreadLinesOf validLines threads) rand map)
        (assignInit threads heap) = some a →
      a.cursor.curThread ≠ threads - 1 →
      ∃ tc tc2, a.params[a.cursor.curThread]? = some tc ∧
        a.heap (map.entry b).value = some tc2 ∧
        HeadSafe (perThreadLinesOf validLines threads) a.cursor tc.size tc2.size) ∧
    (∀ a, bs.foldlM (distributeStep threads (perThreadLinesOf validLines threads) rand map)
        (assignInit threads heap) = some a →
      ∃ workers, assignedWorkers threads (perThreadLinesOf validLines threads) rand ⟨0, 0, 0⟩
          (gs.map List.length) = some workers ∧
        ∀ i tc, i + 1 < threads → a.params[i]? = some tc →
          tc.infosMap = shareOf (workers.zip gs) i ∧
          tc.size ≤ max (perThreadLinesOf validLines threads).toNat 1 - 1 +
            (lastGroup (workers.zip gs) i).length) ∧
    (gs.flatten.length ≤ containerLimit →
      ∃ a, bs.foldlM (distributeStep threads (perThreadLinesOf validLines threads) rand map)
        (assignInit threads heap) = some a) := by
  generalize perThreadLinesOf validLines threads = per
  refine ⟨?_, ?_, ?_⟩
  · rintro pre b post a rfl hrun hnotLast
    exact distributeRun_headSafe hthreads hlead hnd hrun hnotLast
  · intro a hrun
    obtain ⟨workers, hworkers, hinv, hshares⟩ := distributeRun_shares hthreads hlead hnd hrun
    refine ⟨workers, hworkers, fun i tc hi htc => ?_⟩
    have hshare := (hinv.share i tc htc).2
    refine ⟨hshare, ?_⟩
    rw [TraceContainer.size, hshare]
    exact hshares.bound hi
  · intro hfit
    -- the cursor always finds a worker, and no share is longer than the trace
    obtain ⟨workers, hworkers⟩ := assignedWorkers_isSome threads per rand (sizes_ne_zero hne)
      ⟨0, 0, 0⟩
    refine distributeRun_isSome (distributeInv_init hthreads heap) hlead hnd hworkers fun i => ?_
    have hle := length_shareOf_le (workers.zip gs) i
    rw [map_snd_zip_workers hworkers] at hle
    exact Nat.le_trans hle hfit

/-- Two workers, and the groups of a trace of three records. -/
theorem distribute_shareBound_sample :
    let infos := [sampleInfo 1 0 charW 0x61 32, sampleInfo 2 8 charW 0x62 32,
      sampleInfo 3 0 charW 0x63 32]
    ∃ s map bs, buildTraceContainers infos.get noContainers (List.finRange infos.length) = some s ∧
      sortedBuckets infos.get s = some (map, bs) ∧
      ∃ a, bs.foldlM (distributeStep 2 (perThreadLinesOf 3 2) (fun _ => 0) map)
          (assignInit 2 s.heap) = some a ∧
        ∃ workers, assignedWorkers 2 (perThreadLinesOf 3 2) (fun _ => 0) ⟨0, 0, 0⟩
            ((groupsOf s map bs).map List.length) = some workers ∧
          ∀ i tc, i + 1 < 2 → a.params[i]? = some tc →
            tc.infosMap = shareOf (workers.zip (groupsOf s map bs)) i ∧
            tc.size ≤ max (perThreadLinesOf 3 2).toNat 1 - 1 +
              (lastGroup (workers.zip (groupsOf s map bs)) i).length := by
  intro infos
  obtain ⟨s, hbuild⟩ := buildTraceContainers_isSome infos.get
    (show (List.finRange infos.length).length < 2 ^ 29 by decide)
  obtain ⟨map, bs, hsorted, hgroups, hlead, hvalues⟩ := sortedBuckets_spec hbuild
  obtain ⟨-, hbound, hreturns⟩ := distribute_shareBound (by decide : 0 < 2) 3 (fun _ => 0) hlead
    hvalues hgroups.ne_nil
  have hfit : (groupsOf s map bs).flatten.length ≤ containerLimit := by
    rw [(hgroups.flatten_perm (List.nodup_finRange _)).length_eq]
    exact (by decide : (List.finRange infos.length).length ≤ containerLimit)
  obtain ⟨a, hrun⟩ := hreturns hfit
  exact ⟨s, map, bs, hbuild, hsorted, a, hrun, hbound a hrun⟩

end GogetaTools.Replay
