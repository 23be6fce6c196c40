/-
  GogetaTools.Lib.ForkJoin

  A coordinator that creates workers, joins some of them and cancels others,
  while the workers run.

  The coordinator goes through a list of calls, and what it creates is created.  A
  call that the threads library leaves undefined (joining twice, cancelling what is
  joined or was never created) is no step, and a join waits for its worker's end.

    * `Good`          — what holds at every moment of every run,
    * `Good.finishes` — the coordinator gets to the end of its calls, in any order
                        of the steps and without a fairness assumption,
    * `Orderly`       — the condition on the list of calls, with a rule for each
                        way to build one.
-/

import GogetaTools.Lib.Inevitable
import Mathlib.Logic.Relation

namespace ForkJoin

open EveryRun

/-- A call of the coordinator. -/
inductive Act
  | create (i : Nat)
  | join (i : Nat)
  | cancel (i : Nat)
deriving DecidableEq

/-- How the workers start, what each does with or without a cancellation pending,
    and when it has come to its end. -/
structure Workers (L : Type) where
  start : Nat → L
  work : Nat → Bool → L → L → Prop
  ended : L → Prop

structure State (L : Type) where
  script : List Act
  worker : Nat → Option L
  joined : Nat → Bool
  cancelled : Nat → Bool

/-- Before the first call. -/
def init {L : Type} (acts : List Act) : State L :=
  { script := acts, worker := fun _ => none, joined := fun _ => false, cancelled := fun _ => false }

variable {L : Type}

inductive Step (w : Workers L) (s : State L) : State L → Prop
  | create {i : Nat} {rest : List Act} :
      s.script = .create i :: rest → s.worker i = none →
      Step w s { s with script := rest, worker := Function.update s.worker i (some (w.start i)) }
  | join {i : Nat} {rest : List Act} {l : L} :
      s.script = .join i :: rest → s.worker i = some l → w.ended l → s.joined i = false →
      Step w s { s with script := rest, joined := Function.update s.joined i true }
  | cancel {i : Nat} {rest : List Act} {l : L} :
      s.script = .cancel i :: rest → s.worker i = some l → s.joined i = false →
      Step w s { s with script := rest, cancelled := Function.update s.cancelled i true }
  | work {i : Nat} {l l' : L} :
      s.worker i = some l → w.work i (s.cancelled i) l l' →
      Step w s { s with worker := Function.update s.worker i (some l') }

/-! ## Lists of calls -/

/-- Every call is defined where it is made: workers are created once, and joined once
    or cancelled after that. -/
def Orderly : (created joined : Nat → Bool) → List Act → Prop
  | _, _, [] => True
  | created, joined, .create i :: rest =>
      created i = false ∧ Orderly (Function.update created i true) joined rest
  | created, joined, .join i :: rest =>
      created i = true ∧ joined i = false ∧ Orderly created (Function.update joined i true) rest
  | created, joined, .cancel i :: rest =>
      created i = true ∧ joined i = false ∧ Orderly created joined rest

/-- A flag that is set for the indexes of a list as well. -/
def mark (ids : List Nat) (flag : Nat → Bool) (i : Nat) : Bool := decide (i ∈ ids) || flag i

theorem mark_update (ids : List Nat) (flag : Nat → Bool) (i : Nat) :
    mark ids (Function.update flag i true) = mark (i :: ids) flag := by
  funext j
  by_cases hj : j = i
  · simp [mark, hj]
  · simp [mark, hj, List.mem_cons]

theorem orderly_creates {joined : Nat → Bool} {rest : List Act} :
    ∀ (ids : List Nat) {created : Nat → Bool}, ids.Nodup → (∀ i ∈ ids, created i = false) →
      Orderly (mark ids created) joined rest → Orderly created joined (ids.map .create ++ rest) := by
  intro ids
  induction ids with
  | nil => exact fun _ _ h => h
  | cons i ids ih =>
      intro created hnodup hfresh h
      obtain ⟨hi, hids⟩ := List.nodup_cons.mp hnodup
      refine ⟨hfresh i (by simp), ih hids (fun j hj => ?_) ?_⟩
      · have hne : j ≠ i := fun hji => hi (hji ▸ hj)
        rw [Function.update_of_ne hne, hfresh j (List.mem_cons_of_mem _ hj)]
      · rw [mark_update]
        exact h

theorem orderly_joins {created : Nat → Bool} {rest : List Act} :
    ∀ (ids : List Nat) {joined : Nat → Bool}, ids.Nodup → (∀ i ∈ ids, created i = true) →
      (∀ i ∈ ids, joined i = false) → Orderly created (mark ids joined) rest →
      Orderly created joined (ids.map .join ++ rest) := by
  intro ids
  induction ids with
  | nil => exact fun _ _ _ h => h
  | cons i ids ih =>
      intro joined hnodup hcreated hfresh h
      obtain ⟨hi, hids⟩ := List.nodup_cons.mp hnodup
      refine ⟨hcreated i (by simp), hfresh i (by simp),
        ih hids (fun j hj => hcreated j (List.mem_cons_of_mem _ hj)) (fun j hj => ?_) ?_⟩
      · have hne : j ≠ i := fun hji => hi (hji ▸ hj)
        rw [Function.update_of_ne hne, hfresh j (List.mem_cons_of_mem _ hj)]
      · rw [mark_update]
        exact h

theorem orderly_cancels {created joined : Nat → Bool} :
    ∀ ids : List Nat, (∀ i ∈ ids, created i = true) → (∀ i ∈ ids, joined i = false) →
      Orderly created joined (ids.map .cancel) := by
  intro ids
  induction ids with
  | nil => exact fun _ _ => trivial
  | cons i ids ih =>
      intro hcreated hfresh
      exact ⟨hcreated i (by simp), hfresh i (by simp),
        ih (fun j hj => hcreated j (List.mem_cons_of_mem _ hj))
          fun j hj => hfresh j (List.mem_cons_of_mem _ hj)⟩

/-! ## What holds at every moment -/

/-- The workers keep their invariants, with and without a cancellation pending, and every
    step brings them nearer to their ends. -/
structure Proper (w : Workers L) (inv : Nat → Bool → L → Prop) (rank : Nat → L → Nat) : Prop where
  start : ∀ i c, inv i c (w.start i)
  cancel : ∀ i l, inv i false l → inv i true l
  keeps : ∀ i c l l', inv i c l → w.work i c l l' → inv i c l' ∧ rank i l' < rank i l
  progress : ∀ i c l, inv i c l → w.ended l ∨ ∃ l', w.work i c l l'
  final : ∀ i c l, w.ended l → ∀ l', ¬ w.work i c l l'

/-- The calls made so far say who runs, who is joined and who is cancelled. -/
structure Good (w : Workers L) (inv : Nat → Bool → L → Prop) (acts : List Act)
    (s : State L) : Prop where
  past : ∃ past, acts = past ++ s.script ∧ (∀ i, (s.worker i).isSome ↔ .create i ∈ past) ∧
    (∀ i, s.joined i = true ↔ .join i ∈ past) ∧ (∀ i, s.cancelled i = true ↔ .cancel i ∈ past)
  orderly : Orderly (fun i => (s.worker i).isSome) s.joined s.script
  inv : ∀ i l, s.worker i = some l → inv i (s.cancelled i) l
  ended : ∀ i, s.joined i = true → ∃ l, s.worker i = some l ∧ w.ended l

variable {w : Workers L} {inv : Nat → Bool → L → Prop} {rank : Nat → L → Nat} {acts : List Act}
  {s t : State L}

theorem good_init (h : Orderly (fun _ => false) (fun _ => false) acts) :
    Good w inv acts (init acts) where
  past := ⟨[], rfl, by simp [init], by simp [init], by simp [init]⟩
  orderly := h
  inv := by simp [init]
  ended := by simp [init]

theorem isSome_update (worker : Nat → Option L) (i : Nat) (l : L) :
    (fun j => (Function.update worker i (some l) j).isSome) =
      Function.update (fun j => (worker j).isSome) i true :=
  Function.comp_update Option.isSome worker i (some l)

/-- A flag that was set so far for the calls of one kind. -/
theorem update_iff_mem {flag : Nat → Bool} {past : List Act} {call : Nat → Act}
    (hinj : Function.Injective call) (h : ∀ j, flag j = true ↔ call j ∈ past) (i j : Nat) :
    Function.update flag i true j = true ↔ call j ∈ past ++ [call i] := by
  by_cases hj : j = i
  · simp [hj]
  · have hne : call j ≠ call i := fun he => hj (hinj he)
    simp [hj, hne, h j]

/-- The calls of the other kinds leave it as it is. -/
theorem iff_mem_append {P : Prop} {past : List Act} {a b : Act} (hne : a ≠ b) (h : P ↔ a ∈ past) :
    P ↔ a ∈ past ++ [b] := by
  simp [h, hne]

theorem Good.step (hw : Proper w inv rank) (hs : Good w inv acts s) (h : Step w s t) :
    Good w inv acts t := by
  obtain ⟨past, hacts, hcreated, hjoined, hcancelled⟩ := hs.past
  have horderly := hs.orderly
  cases h with
  | @create i rest hscript hnone =>
      rw [hscript] at hacts horderly
      refine ⟨⟨past ++ [.create i], by simp [hacts], fun j => ?_,
        fun j => iff_mem_append (by simp) (hjoined j),
        fun j => iff_mem_append (by simp) (hcancelled j)⟩, ?_, fun j l hl => ?_, fun j hj => ?_⟩
      · have hflag := update_iff_mem (fun a b h => Act.create.inj h) hcreated i j
        rwa [← isSome_update s.worker i (w.start i)] at hflag
      · show Orderly (fun j => (Function.update s.worker i (some (w.start i)) j).isSome) _ _
        rw [isSome_update]
        exact horderly.2
      · rcases eq_or_ne j i with rfl | hne
        · rw [show l = w.start j by simpa [eq_comm] using hl]
          exact hw.start j _
        · exact hs.inv j l (by simpa [Function.update_of_ne hne] using hl)
      · obtain ⟨l, hl, hend⟩ := hs.ended j hj
        have hne : j ≠ i := by
          rintro rfl
          rw [hnone] at hl
          cases hl
        exact ⟨l, by simpa [Function.update_of_ne hne] using hl, hend⟩
  | @join i rest l hscript hl hend hfresh =>
      rw [hscript] at hacts horderly
      refine ⟨⟨past ++ [.join i], by simp [hacts], fun j => iff_mem_append (by simp) (hcreated j),
        update_iff_mem (fun a b h => Act.join.inj h) hjoined i,
        fun j => iff_mem_append (by simp) (hcancelled j)⟩, horderly.2.2, hs.inv, fun j hj => ?_⟩
      rcases eq_or_ne j i with rfl | hne
      · exact ⟨l, hl, hend⟩
      · exact hs.ended j (by simpa [Function.update_of_ne hne] using hj)
  | @cancel i rest l hscript hl hfresh =>
      rw [hscript] at hacts horderly
      refine ⟨⟨past ++ [.cancel i], by simp [hacts], fun j => iff_mem_append (by simp) (hcreated j),
        fun j => iff_mem_append (by simp) (hjoined j),
        update_iff_mem (fun a b h => Act.cancel.inj h) hcancelled i⟩, horderly.2.2,
        fun j l' hl' => ?_, hs.ended⟩
      show inv j (Function.update s.cancelled i true j) l'
      have hinv := hs.inv j l' hl'
      rcases eq_or_ne j i with rfl | hne
      · rw [Function.update_self]
        cases hc : s.cancelled j with
        | true => exact hc ▸ hinv
        | false => exact hw.cancel j l' (hc ▸ hinv)
      · rw [Function.update_of_ne hne]
        exact hinv
  | @work i l l' hl hwork =>
      have hsome : (fun j => (Function.update s.worker i (some l') j).isSome) =
          fun j => (s.worker j).isSome := by
        rw [isSome_update, Function.update_eq_self_iff]
        simp [hl]
      have hsome' := congrFun hsome
      refine ⟨⟨past, hacts, fun j => ?_, hjoined, hcancelled⟩, ?_, fun j k hk => ?_, fun j hj => ?_⟩
      · show (Function.update s.worker i (some l') j).isSome = true ↔ _
        rw [hsome' j]
        exact hcreated j
      · show Orderly (fun j => (Function.update s.worker i (some l') j).isSome) _ _
        rw [hsome]
        exact horderly
      · rcases eq_or_ne j i with rfl | hne
        · rw [show k = l' by simpa [eq_comm] using hk]
          exact (hw.keeps j _ l l' (hs.inv j l hl) hwork).1
        · exact hs.inv j k (by simpa [Function.update_of_ne hne] using hk)
      · obtain ⟨k, hk, hend⟩ := hs.ended j hj
        have hne : j ≠ i := by
          rintro rfl
          rw [hl] at hk
          cases hk
          exact hw.final j _ l hend l' hwork
        exact ⟨k, by simpa [Function.update_of_ne hne] using hk, hend⟩

theorem Good.run (hw : Proper w inv rank) (hs : Good w inv acts s)
    (h : Relation.ReflTransGen (Step w) s t) : Good w inv acts t := by
  induction h with
  | refl => exact hs
  | tail _ hstep ih => exact ih.step hw hstep

/-- What is joined is left alone. -/
theorem Good.worker_of_joined (hw : Proper w inv rank) (hs : Good w inv acts s)
    (h : Relation.ReflTransGen (Step w) s t) {i : Nat} (hi : s.joined i = true) :
    t.worker i = s.worker i ∧ t.joined i = true := by
  induction h with
  | refl => exact ⟨rfl, hi⟩
  | @tail u v hrun hstep ih =>
      obtain ⟨hsame, hjoined⟩ := ih
      obtain ⟨l, hl, hend⟩ := (hs.run hw hrun).ended i hjoined
      rw [← hsame]
      cases hstep with
      | @create j rest _ hnone =>
          have hne : i ≠ j := by
            rintro rfl
            rw [hnone] at hl
            cases hl
          exact ⟨Function.update_of_ne hne _ _, hjoined⟩
      | @join j _ _ _ _ _ _ =>
          refine ⟨rfl, ?_⟩
          show Function.update u.joined j true i = true
          rw [Function.update_apply, hjoined, ite_self]
      | cancel => exact ⟨rfl, hjoined⟩
      | @work j k k' hk hwork =>
          have hne : i ≠ j := by
            rintro rfl
            rw [hl] at hk
            cases hk
            exact hw.final i _ l hend k' hwork
          exact ⟨Function.update_of_ne hne _ _, hjoined⟩

/-! ## The coordinator comes to its end -/

/-- The workers of a list of calls. -/
def createdIds (acts : List Act) : Finset Nat :=
  (acts.filterMap fun | .create i => some i | _ => none).toFinset

theorem mem_createdIds {acts : List Act} {i : Nat} : i ∈ createdIds acts ↔ .create i ∈ acts := by
  rw [createdIds, List.mem_toFinset, List.mem_filterMap]
  constructor
  · rintro ⟨a, ha, hai⟩
    cases a with
    | create j => exact Option.some.inj hai ▸ ha
    | join j => cases hai
    | cancel j => cases hai
  · exact fun h => ⟨_, h, rfl⟩

/-- How far worker `i` is from its end. -/
def distance (w : Workers L) (rank : Nat → L → Nat) (s : State L) (i : Nat) : Nat :=
  rank i ((s.worker i).getD (w.start i))

/-- The calls and the steps that are left. -/
def remaining (w : Workers L) (rank : Nat → L → Nat) (acts : List Act) (s : State L) : Nat :=
  s.script.length + ∑ i ∈ createdIds acts, distance w rank s i

theorem Good.descends (hw : Proper w inv rank) (hs : Good w inv acts s) (h : Step w s t) :
    remaining w rank acts t < remaining w rank acts s := by
  -- a call is one off the list and leaves the distances as they are
  have hcall : ∀ {t : State L} {a : Act}, s.script = a :: t.script →
      (∀ i, distance w rank t i = distance w rank s i) →
      remaining w rank acts t < remaining w rank acts s := by
    intro t a hscript hdist
    rw [remaining, remaining, hscript, List.length_cons, Finset.sum_congr rfl fun i _ => hdist i]
    exact Nat.add_lt_add_right (Nat.lt_succ_self _) _
  cases h with
  | @create i rest hscript hnone =>
      refine hcall hscript fun j => ?_
      rcases eq_or_ne j i with rfl | hne
      · simp [distance, hnone]
      · simp [distance, Function.update_of_ne hne]
  | join hscript => exact hcall hscript fun _ => rfl
  | cancel hscript => exact hcall hscript fun _ => rfl
  | @work i l l' hl hwork =>
      have hlt := (hw.keeps i _ l l' (hs.inv i l hl) hwork).2
      obtain ⟨past, hacts, hcreated, -, -⟩ := hs.past
      have hmem : i ∈ createdIds acts := by
        rw [mem_createdIds, hacts]
        exact List.mem_append_left _ ((hcreated i).mp (by simp [hl]))
      refine Nat.add_lt_add_left (Finset.sum_lt_sum (fun j _ => ?_) ⟨i, hmem, ?_⟩) _
      · rcases eq_or_ne j i with rfl | hne
        · simpa [distance, hl] using hlt.le
        · simp [distance, Function.update_of_ne hne]
      · simpa [distance, hl] using hlt

/-- The coordinator is never stuck: where it waits, the worker can step. -/
theorem Good.exists_step (hw : Proper w inv rank) (hs : Good w inv acts s) (h : s.script ≠ []) :
    ∃ t, Step w s t := by
  have horderly := hs.orderly
  cases hscript : s.script with
  | nil => exact absurd hscript h
  | cons a rest =>
      rw [hscript] at horderly
      cases a with
      | create i => exact ⟨_, Step.create hscript (by simpa using horderly.1)⟩
      | join i =>
          obtain ⟨l, hl⟩ := Option.isSome_iff_exists.mp horderly.1
          rcases hw.progress i _ l (hs.inv i l hl) with hend | ⟨l', hwork⟩
          · exact ⟨_, Step.join hscript hl hend horderly.2.1⟩
          · exact ⟨_, Step.work hl hwork⟩
      | cancel i =>
          obtain ⟨l, hl⟩ := Option.isSome_iff_exists.mp horderly.1
          exact ⟨_, Step.cancel hscript hl horderly.2.1⟩

/-- Every run gets the coordinator to the end of its calls. -/
theorem Good.finishes (hw : Proper w inv rank) (hs : Good w inv acts s) :
    Inevitable (Step w) (fun t => t.script = [] ∧ Good w inv acts t) s := by
  generalize hn : remaining w rank acts s = n
  induction n using Nat.strong_induction_on generalizing s with
  | _ n ih =>
      by_cases h : s.script = []
      · exact Inevitable.now ⟨h, hs⟩
      · refine Inevitable.later (hs.exists_step hw h) fun t hstep => ?_
        exact ih _ (hn ▸ hs.descends hw hstep) (hs.step hw hstep) rfl

end ForkJoin
