/-
  GogetaTools.Lib.WriteLog

  Memory as a function from positions to bytes, and what a sequence of writes
  leaves in it.

  A write is an offset and the bytes put there.  `writeAll` runs a sequence of
  them.  The final byte at a position is decided by the writes that cover it:

    * `writeAll_of_not_covered` — a position no write covers keeps its byte,
    * `writeAll_congr`          — a covered one forgets it,
    * `writeAll_eq_of_forall`   — and takes the byte all covering writes agree on.
-/

import Mathlib.Data.List.Basic
import Mathlib.Data.List.Induction
import Mathlib.Algebra.Ring.Nat

namespace WriteLog

variable {β : Type}

/-- `bs` written at offset `off`. -/
def writeAt (f : Nat → β) (off : Nat) (bs : List β) : Nat → β := fun x =>
  if off ≤ x then bs[x - off]?.getD (f x) else f x

def writeAll (f : Nat → β) (ws : List (Nat × List β)) : Nat → β :=
  ws.foldl (fun f w => writeAt f w.1 w.2) f

/-- Position `x` is one of those the write changes. -/
def Covers (w : Nat × List β) (x : Nat) : Prop := w.1 ≤ x ∧ x < w.1 + w.2.length

instance (w : Nat × List β) (x : Nat) : Decidable (Covers w x) :=
  inferInstanceAs (Decidable (_ ∧ _))

/-- Every write stays below `limit`. -/
def Within (limit : Nat) (ws : List (Nat × List β)) : Prop :=
  ∀ w ∈ ws, w.1 + w.2.length ≤ limit

instance {limit : Nat} {ws : List (Nat × List β)} : Decidable (Within limit ws) :=
  inferInstanceAs (Decidable (∀ w ∈ ws, w.1 + w.2.length ≤ limit))

/-- The same writes, `p` positions further on. -/
def shift (p : Nat) (ws : List (Nat × List β)) : List (Nat × List β) :=
  ws.map fun w => (p + w.1, w.2)

/-! ## One write -/

theorem writeAt_of_covers {f : Nat → β} {off x : Nat} {bs : List β} {b : β}
    (hle : off ≤ x) (hb : bs[x - off]? = some b) : writeAt f off bs x = b := by
  rw [writeAt, if_pos hle, hb, Option.getD_some]

theorem writeAt_of_not_covers {f : Nat → β} {off x : Nat} {bs : List β}
    (h : ¬ Covers (off, bs) x) : writeAt f off bs x = f x := by
  rw [writeAt]
  split
  · have hge : bs.length ≤ x - off := by
      simp only [Covers] at h
      omega
    rw [List.getElem?_eq_none hge, Option.getD_none]
  · rfl

theorem exists_byte_of_covers {w : Nat × List β} {x : Nat} (h : Covers w x) :
    w.1 ≤ x ∧ ∃ b, w.2[x - w.1]? = some b := by
  have hlt : x - w.1 < w.2.length := by
    simp only [Covers] at h
    omega
  exact ⟨h.1, _, List.getElem?_eq_getElem hlt⟩

/-- Two writes, the second right behind the first, are one. -/
theorem writeAt_writeAt (f : Nat → β) (off : Nat) (bs cs : List β) :
    writeAt (writeAt f off bs) (off + bs.length) cs = writeAt f off (bs ++ cs) := by
  funext x
  simp only [writeAt]
  by_cases h1 : off + bs.length ≤ x
  · have h2 : off ≤ x := by omega
    rw [if_pos h1, if_pos h2, if_pos h2, List.getElem?_append_right (by omega),
      List.getElem?_eq_none (show bs.length ≤ x - off by omega), Option.getD_none,
      Nat.sub_sub]
  · rw [if_neg h1]
    by_cases h2 : off ≤ x
    · rw [if_pos h2, if_pos h2, List.getElem?_append_left (by omega)]
    · rw [if_neg h2, if_neg h2]

theorem writeAt_nil (f : Nat → β) (off : Nat) : writeAt f off [] = f := by
  funext x
  simp [writeAt]

/-- The first `n` positions. -/
def bytesOf (f : Nat → β) (n : Nat) : List β := (List.range n).map f

@[simp] theorem length_bytesOf (f : Nat → β) (n : Nat) : (bytesOf f n).length = n := by
  simp [bytesOf]

theorem bytesOf_add (f : Nat → β) (n k : Nat) :
    bytesOf f (n + k) = bytesOf f n ++ (List.range k).map fun i => f (n + i) := by
  rw [bytesOf, List.range_add, List.map_append, List.map_map]
  rfl

/-- What is written behind the first `n` positions is read behind them. -/
theorem bytesOf_writeAt (f : Nat → β) (n : Nat) (bs : List β) :
    bytesOf (writeAt f n bs) (n + bs.length) = bytesOf f n ++ bs := by
  rw [bytesOf_add]
  congr 1
  · apply List.map_congr_left
    intro i hi
    have hlt := List.mem_range.mp hi
    rw [writeAt, if_neg (by omega)]
  · apply List.ext_getElem (by simp)
    intro i _ hi
    rw [List.getElem_map, List.getElem_range, writeAt, if_pos (Nat.le_add_right n i),
      Nat.add_sub_cancel_left, List.getElem?_eq_getElem hi, Option.getD_some]

/-! ## A sequence of writes -/

@[simp] theorem writeAll_nil (f : Nat → β) : writeAll f [] = f := rfl

@[simp] theorem writeAll_cons (f : Nat → β) (w : Nat × List β) (ws : List (Nat × List β)) :
    writeAll f (w :: ws) = writeAll (writeAt f w.1 w.2) ws := rfl

theorem writeAll_append (f : Nat → β) (ws ws' : List (Nat × List β)) :
    writeAll f (ws ++ ws') = writeAll (writeAll f ws) ws' :=
  List.foldl_append ..

theorem writeAll_of_not_covered {f : Nat → β} {ws : List (Nat × List β)} {x : Nat}
    (h : ∀ w ∈ ws, ¬ Covers w x) : writeAll f ws x = f x := by
  induction ws generalizing f with
  | nil => rfl
  | cons w ws ih =>
      rw [writeAll_cons, ih (fun w' hw' => h w' (List.mem_cons_of_mem _ hw'))]
      exact writeAt_of_not_covers (h w (List.mem_cons_self ..))

/-- Only the covering writes matter. -/
theorem writeAll_filter_covers (f : Nat → β) (ws : List (Nat × List β)) (x : Nat) :
    writeAll f (ws.filter fun w => Covers w x) x = writeAll f ws x := by
  induction ws using List.reverseRecOn with
  | nil => rfl
  | append_singleton ws w ih =>
      rw [List.filter_append, writeAll_append, writeAll_append]
      by_cases hcov : Covers w x
      · rw [List.filter_cons_of_pos (by simpa using hcov), List.filter_nil, writeAll_cons,
          writeAll_nil, writeAll_cons, writeAll_nil]
        simp only [writeAt, ih]
      · rw [List.filter_cons_of_neg (by simpa using hcov), List.filter_nil, writeAll_nil,
          writeAll_cons, writeAll_nil, ih, writeAt_of_not_covers hcov]

theorem writeAll_congr_at {f : Nat → β} (g : Nat → β) (ws : List (Nat × List β)) {x : Nat}
    (h : f x = g x) : writeAll f ws x = writeAll g ws x := by
  induction ws generalizing f g with
  | nil => exact h
  | cons w ws ih =>
      rw [writeAll_cons, writeAll_cons]
      refine ih _ ?_
      simp only [writeAt, h]

theorem writeAll_congr (f g : Nat → β) {ws : List (Nat × List β)} {x : Nat}
    (h : ∃ w ∈ ws, Covers w x) : writeAll f ws x = writeAll g ws x := by
  induction ws generalizing f g with
  | nil =>
      obtain ⟨w, hw, -⟩ := h
      cases hw
  | cons w ws ih =>
      rw [writeAll_cons, writeAll_cons]
      by_cases hx : Covers w x
      · -- this write already sets the byte
        obtain ⟨hle, b, hb⟩ := exists_byte_of_covers hx
        apply writeAll_congr_at
        rw [writeAt_of_covers hle hb, writeAt_of_covers hle hb]
      · obtain ⟨w', hw', hx'⟩ := h
        rcases List.mem_cons.mp hw' with rfl | hw'
        · exact absurd hx' hx
        · exact ih _ _ ⟨w', hw', hx'⟩

/-- Writing the same once more changes nothing. -/
theorem writeAll_writeAll (f : Nat → β) (ws : List (Nat × List β)) :
    writeAll (writeAll f ws) ws = writeAll f ws := by
  funext x
  by_cases h : ∃ w ∈ ws, Covers w x
  · exact writeAll_congr _ _ h
  · rw [writeAll_of_not_covered fun w hw hcov => h ⟨w, hw, hcov⟩]

theorem writeAll_eq_of_forall {f : Nat → β} {ws : List (Nat × List β)} {x : Nat} {b : β}
    (hcov : ∃ w ∈ ws, Covers w x)
    (hall : ∀ w ∈ ws, Covers w x → w.2[x - w.1]? = some b) : writeAll f ws x = b := by
  -- start from a memory that holds `b` at `x` already
  rw [writeAll_congr f (fun _ => b) hcov]
  clear hcov
  induction ws with
  | nil => rfl
  | cons w ws ih =>
      rw [writeAll_cons, writeAll_congr_at (fun _ => b) ws]
      · exact ih fun w' hw' => hall w' (List.mem_cons_of_mem _ hw')
      · by_cases hx : Covers w x
        · exact writeAt_of_covers hx.1 (hall w (List.mem_cons_self ..) hx)
        · exact writeAt_of_not_covers hx

/-! ## Shifted writes -/

theorem writeAll_shift (p : Nat) (f : Nat → β) (ws : List (Nat × List β)) (x : Nat) :
    writeAll f (shift p ws) (p + x) = writeAll (fun y => f (p + y)) ws x := by
  induction ws generalizing f with
  | nil => rfl
  | cons w ws ih =>
      rw [shift, List.map_cons, writeAll_cons, writeAll_cons, ← shift, ih]
      apply writeAll_congr_at
      simp only [writeAt, Nat.add_le_add_iff_left, Nat.add_sub_add_left]

theorem writeAll_shift_below {p x : Nat} (f : Nat → β) (ws : List (Nat × List β))
    (hx : x < p) : writeAll f (shift p ws) x = f x := by
  apply writeAll_of_not_covered
  intro w hw hcov
  obtain ⟨w', -, rfl⟩ := List.mem_map.mp hw
  simp only [Covers] at hcov
  omega

theorem writeAll_shift_above {p x limit : Nat} (f : Nat → β) {ws : List (Nat × List β)}
    (hws : Within limit ws) (hx : p + limit ≤ x) : writeAll f (shift p ws) x = f x := by
  apply writeAll_of_not_covered
  intro w hw hcov
  obtain ⟨w', hw', rfl⟩ := List.mem_map.mp hw
  have hle := hws w' hw'
  simp only [Covers] at hcov
  omega

theorem within_shift {p limit : Nat} {ws : List (Nat × List β)} :
    Within (p + limit) (shift p ws) ↔ Within limit ws := by
  simp only [Within, shift, List.forall_mem_map]
  constructor <;> intro h w hw <;> have := h w hw <;> omega

theorem Within.mono {limit limit' : Nat} {ws : List (Nat × List β)} (h : Within limit ws)
    (hle : limit ≤ limit') : Within limit' ws :=
  fun w hw => Nat.le_trans (h w hw) hle

/-- Writes that fill a stretch of memory are one write of what they leave there. -/
theorem writeAll_eq_writeAt {p limit : Nat} {ws : List (Nat × List β)} (f : Nat → β)
    (bs : List β) (hws : Within limit ws) (hlen : bs.length = limit)
    (hbs : ∀ g : Nat → β, ∀ x < limit, bs[x]? = some (writeAll g ws x)) :
    writeAll f (shift p ws) = writeAt f p bs := by
  funext y
  by_cases hlow : y < p
  · rw [writeAll_shift_below f ws hlow, writeAt, if_neg (Nat.not_le_of_lt hlow)]
  · obtain ⟨x, rfl⟩ : ∃ x, y = p + x := ⟨y - p, by omega⟩
    by_cases hx : x < limit
    · rw [writeAll_shift, writeAt_of_covers (Nat.le_add_right p x)]
      rw [Nat.add_sub_cancel_left]
      exact hbs _ x hx
    · rw [writeAll_shift_above f hws (by omega), writeAt_of_not_covers]
      simp only [Covers]
      omega

end WriteLog
