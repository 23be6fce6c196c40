/-
  GogetaTools.Lib.Segmentation

  Cutting a list into runs of consecutive elements, each of which has to be
  admissible.

  `Maximal ok runs` says that no run could have taken in the element behind it.
  When pieces of admissible runs are admissible, a maximal cut has the fewest
  runs of all (`Maximal.length_le`): whatever another cut does, it is never
  ahead of the maximal one.
-/

import Mathlib.Data.List.Chain

namespace Segmentation

variable {α : Type} {ok : List α → Prop}

/-- No run is admissible with the first element of the next run behind it. -/
def Maximal (ok : List α → Prop) (runs : List (List α)) : Prop :=
  runs.IsChain fun run next => ∀ x ∈ next.head?, ¬ ok (run ++ [x])

theorem maximal_singleton (run : List α) : Maximal ok [run] := List.isChain_singleton run

theorem Maximal.concat {runs : List (List α)} {run : List α} {x : α}
    (h : Maximal ok (runs ++ [run])) (hfull : ¬ ok (run ++ [x])) :
    Maximal ok (runs ++ [run] ++ [[x]]) := by
  refine List.isChain_append.mpr ⟨h, List.isChain_singleton _, ?_⟩
  intro r hr next hnext y hy
  rw [List.getLast?_concat] at hr
  cases hr
  cases hnext
  cases hy
  exact hfull

/-- The last run may grow: only its first element matters to the run before it. -/
theorem Maximal.extend {runs : List (List α)} {run : List α} (more : List α)
    (h : Maximal ok (runs ++ [run])) (hne : run ≠ []) : Maximal ok (runs ++ [run ++ more]) := by
  obtain ⟨hruns, -, hlast⟩ := List.isChain_append.mp h
  refine List.isChain_append.mpr ⟨hruns, List.isChain_singleton _, ?_⟩
  intro r hr next hnext x hx
  cases hnext
  rw [List.head?_append_of_ne_nil _ hne] at hx
  exact hlast r hr run rfl x hx

/-- A run of another cut that starts in front of `run` ends no later than `run`:
    it would contain `run` and the element behind it. -/
theorem length_le_of_full (hinside : ∀ {s t : List α}, s <:+: t → ok t → ok s)
    {pre run behind other rest : List α} {x : α} (hfull : ¬ ok (run ++ [x]))
    (hother : ok other) (heq : other ++ rest = pre ++ run ++ x :: behind) :
    other.length ≤ (pre ++ run).length := by
  by_contra hlt
  have hwhole : pre ++ run ++ [x] <+: other ++ rest := by
    rw [heq]
    exact ⟨behind, by simp⟩
  have hprefix : pre ++ run ++ [x] <+: other := by
    refine List.prefix_of_prefix_length_le hwhole (List.prefix_append _ _) ?_
    simp only [List.length_append, List.length_singleton] at hlt ⊢
    omega
  refine hfull (hinside ?_ hother)
  obtain ⟨tail, htail⟩ := hprefix
  exact ⟨pre, tail, by rw [← htail]; simp⟩

/-- No cut into admissible runs has fewer runs than a maximal one, not even when
    it has the elements `pre` less behind it. -/
theorem Maximal.length_le (hinside : ∀ {s t : List α}, s <:+: t → ok t → ok s) :
    ∀ {runs : List (List α)}, Maximal ok runs → (∀ run ∈ runs, run ≠ []) →
      ∀ {pre : List α} {others : List (List α)}, others.flatten = pre ++ runs.flatten →
        (∀ other ∈ others, ok other) → runs.length ≤ others.length := by
  intro runs
  induction runs with
  | nil => intro _ _ pre others _ _; exact Nat.zero_le _
  | cons run runs ih =>
      intro hmax hne pre others hflat hok
      have hrun : run ≠ [] := hne run (List.mem_cons_self ..)
      cases others with
      | nil =>
          -- the elements of `run` are covered by some run
          rw [List.flatten_nil, List.flatten_cons] at hflat
          simp [hrun] at hflat
      | cons other others =>
          rw [List.flatten_cons, List.flatten_cons, ← List.append_assoc] at hflat
          cases runs with
          | nil => exact Nat.succ_le_succ (Nat.zero_le _)
          | cons next runs =>
              obtain ⟨hfull, hmax'⟩ := List.isChain_cons_cons.mp hmax
              have hnext : next ≠ [] := hne next (by simp)
              obtain ⟨x, behind, rfl⟩ := List.exists_cons_of_ne_nil hnext
              -- `other` does not reach beyond `run`
              have heq : other ++ others.flatten =
                  pre ++ run ++ x :: (behind ++ runs.flatten) := by
                rw [hflat, List.flatten_cons, List.cons_append]
              have hle : other.length ≤ (pre ++ run).length :=
                length_le_of_full hinside (hfull x rfl) (hok other (List.mem_cons_self ..)) heq
              have hpre : other <+: pre ++ run :=
                List.prefix_of_prefix_length_le ⟨_, hflat⟩ (List.prefix_append _ _) hle
              obtain ⟨pre', hpre'⟩ := hpre
              rw [← hpre', List.append_assoc] at hflat
              exact Nat.succ_le_succ (ih hmax' (fun r hr => hne r (List.mem_cons_of_mem _ hr))
                (List.append_cancel_left hflat) fun o ho => hok o (List.mem_cons_of_mem _ ho))

end Segmentation
