/-
  GogetaTools.Mcp.Assign

  `mcp/src/main.cpp`: the assignment of the files to the threads.

  The files are sorted and go one by one to the thread on top of a priority
  queue of pairs of load and thread.  `operator<` compares the sizes the other
  way round and the queue uses `greater`, so that the largest file comes first and
  the least load is on top.  The loads are `size_t`: the assignment is greedy by what
  the queue keeps (`KeptGreedy`), which is the load as long as it fits.

    * `assignWorks_even`   — every file is assigned once, and evenly,
    * `assignWorks_graham` — what the assignment costs.
-/

import GogetaTools.Lib.ListSchedule
import GogetaTools.Words
import Mathlib.Data.List.FinRange

namespace GogetaTools.Mcp

open ListSchedule

structure FileWork where
  size : Word
  srcFd : Word32
  dstFd : Word32
deriving DecidableEq

/-- `FileWork::operator<`. -/
def FileWork.lt (a rhs : FileWork) : Bool := rhs.size < a.size

/-- The file descriptors that a job consists of. -/
def FileWork.fds (a : FileWork) : Word32 × Word32 := (a.srcFd, a.dstFd)

def FileWork.bytes (a : FileWork) : ℕ := a.size.toNat

/-- `sort(files.begin(), files.end())` may leave `works`: the order of equal files is
    not determined. -/
structure StdSorted (files works : List FileWork) : Prop where
  perm : works.Perm files
  sorted : works.Pairwise fun a b => b.lt a = false

/-! ## The queue -/

/-- `pair<size_t, int>`: a load and its thread. -/
abbrev LoadEntry := Word × ℕ

/-- `operator<` of the pairs. -/
def LoadEntry.lt (a b : LoadEntry) : Bool := a.1 < b.1 ∨ (a.1 = b.1 ∧ a.2 < b.2)

/-- `top` and `pop` of a priority queue with `greater`: the least entry, and the others. -/
def popLeast : List LoadEntry → Option (LoadEntry × List LoadEntry)
  | [] => none
  | x :: xs =>
      match popLeast xs with
      | none => some (x, [])
      | some (y, ys) => if LoadEntry.lt y x then some (y, x :: ys) else some (x, y :: ys)

theorem popLeast_isSome {q : List LoadEntry} (h : q ≠ []) : ∃ x rest, popLeast q = some (x, rest) := by
  cases q with
  | nil => exact absurd rfl h
  | cons x xs =>
      rw [popLeast]
      split
      · exact ⟨x, [], rfl⟩
      · split
        · exact ⟨_, _, rfl⟩
        · exact ⟨_, _, rfl⟩

theorem popLeast_eq_none {q : List LoadEntry} (h : popLeast q = none) : q = [] := by
  by_contra hne
  obtain ⟨x, rest, hsome⟩ := popLeast_isSome hne
  rw [hsome] at h
  cases h

/-- What is popped is one of the entries, and none has a smaller load. -/
theorem popLeast_spec : ∀ (q : List LoadEntry) (x : LoadEntry) (rest : List LoadEntry),
    popLeast q = some (x, rest) → (x :: rest).Perm q ∧ ∀ y ∈ q, x.1 ≤ y.1 := by
  intro q
  induction q with
  | nil =>
      intro x rest h
      cases h
  | cons z zs ih =>
      intro x rest h
      rw [popLeast] at h
      split at h
      · rename_i hnone
        cases h
        rw [popLeast_eq_none hnone]
        exact ⟨List.Perm.refl _, by simp⟩
      · rename_i y ys hpop
        obtain ⟨hperm, hleast⟩ := ih y ys hpop
        split at h
        · rename_i hlt
          cases h
          refine ⟨(List.Perm.swap z x ys).trans (hperm.cons z), ?_⟩
          -- the head goes back, and the least entry of the rest is taken
          have hz : x.1 ≤ z.1 := by
            simp only [LoadEntry.lt, decide_eq_true_eq] at hlt
            rcases hlt with hlt | ⟨heq, -⟩
            · exact BitVec.le_of_lt hlt
            · exact BitVec.le_of_eq heq
          intro e he
          rcases List.mem_cons.mp he with rfl | he
          · exact hz
          · exact hleast e he
        · rename_i hlt
          cases h
          refine ⟨hperm.cons z, ?_⟩
          -- the head is the least entry itself
          have hy : z.1 ≤ y.1 := by
            simp only [LoadEntry.lt, decide_eq_true_eq, not_or] at hlt
            exact BitVec.not_lt.mp hlt.1
          intro e he
          rcases List.mem_cons.mp he with rfl | he
          · exact BitVec.le_refl _
          · exact BitVec.le_trans hy (hleast e he)

/-! ## The loop -/

/-- `pq` and `jobs`. -/
structure AssignState where
  pq : List LoadEntry
  jobs : List (List (Word32 × Word32))

def assignInit (threadNum : ℕ) : AssignState where
  pq := (List.range threadNum).map fun i => (0, i)
  jobs := List.replicate threadNum []

/-- The body of the loop over the files. -/
def assignWork (st : AssignState) (work : FileWork) : Option AssignState := do
  let (data, pq) ← popLeast st.pq
  let job ← st.jobs[data.2]?
  some { pq := (data.1 + work.size, data.2) :: pq
         jobs := st.jobs.set data.2 (job ++ [work.fds]) }

def assignWorks (threadNum : ℕ) (works : List FileWork) : Option AssignState :=
  works.foldlM assignWork (assignInit threadNum)

/-- The entry of thread `i` after the assignment `xs`. -/
def entryOf {m : ℕ} (xs : List (FileWork × Fin m)) (i : Fin m) : LoadEntry :=
  (BitVec.ofNat 64 (load FileWork.bytes xs i), i.val)

/-- The state holds the assignment `xs`: every thread has one entry, with the sum of
    the sizes of its files, and the descriptors of its files in order. -/
structure Assigns (m : ℕ) (st : AssignState) (xs : List (FileWork × Fin m)) : Prop where
  pq : st.pq.Perm ((List.finRange m).map (entryOf xs))
  jobs : st.jobs = (List.finRange m).map fun i => (jobsOn xs i).map FileWork.fds

theorem assigns_init (m : ℕ) : Assigns m (assignInit m) [] where
  pq := by
    have hentries : (List.finRange m).map (entryOf []) = (List.range m).map fun i => (0, i) := by
      rw [← List.map_coe_finRange_eq_range, List.map_map]
      rfl
    rw [hentries]
    exact List.Perm.refl _
  jobs := by
    apply List.ext_getElem (by simp [assignInit])
    intro i h₁ h₂
    simp [assignInit]

/-- An update of a table over the threads, in one place. -/
theorem set_map_finRange {β : Type} {m : ℕ} (f : Fin m → β) (i : Fin m) (b : β) :
    ((List.finRange m).map f).set i.val b = (List.finRange m).map (Function.update f i b) := by
  apply List.ext_getElem (by simp)
  intro j h₁ h₂
  simp only [List.getElem_set, List.getElem_map, List.getElem_finRange, Function.update_apply,
    Fin.ext_iff, Fin.val_cast, eq_comm]

theorem entryOf_place_of_ne {m : ℕ} (xs : List (FileWork × Fin m)) (work : FileWork) {i j : Fin m}
    (h : i ≠ j) : entryOf (xs ++ [(work, i)]) j = entryOf xs j := by
  rw [entryOf, load_place_of_ne _ _ _ h]
  rfl

theorem entryOf_place_self {m : ℕ} (xs : List (FileWork × Fin m)) (work : FileWork) (i : Fin m) :
    entryOf (xs ++ [(work, i)]) i = ((entryOf xs i).1 + work.size, i.val) := by
  rw [entryOf, load_place_self]
  simp only [entryOf, FileWork.bytes, BitVec.ofNat_add, BitVec.ofNat_toNat, BitVec.setWidth_eq]

/-- Each file goes to a thread of which the queue has the least load; that is the sum of the
    sizes up to multiples of `2 ^ 64`. -/
inductive KeptGreedy {m : ℕ} : List (FileWork × Fin m) → Prop
  | nil : KeptGreedy []
  | place {xs : List (FileWork × Fin m)} {work : FileWork} {i : Fin m} : KeptGreedy xs →
      (∀ j, (entryOf xs i).1 ≤ (entryOf xs j).1) → KeptGreedy (xs ++ [(work, i)])

/-- A file goes to a thread on top of the queue. -/
theorem assignWork_assigns {m : ℕ} (hm : 1 ≤ m) {st : AssignState} {xs : List (FileWork × Fin m)}
    (h : Assigns m st xs) (work : FileWork) :
    ∃ st' i, assignWork st work = some st' ∧ (∀ j, (entryOf xs i).1 ≤ (entryOf xs j).1) ∧
      Assigns m st' (xs ++ [(work, i)]) := by
  have hne : st.pq ≠ [] := by
    intro hnil
    have hlen := h.pq.length_eq
    rw [hnil, List.length_map, List.length_finRange, List.length_nil] at hlen
    omega
  obtain ⟨x, rest, hpop⟩ := popLeast_isSome hne
  obtain ⟨hperm, hleast⟩ := popLeast_spec _ _ _ hpop
  -- the entry that is popped is that of a thread `i`
  obtain ⟨i, -, rfl⟩ := List.mem_map.mp ((hperm.trans h.pq).mem_iff.mp List.mem_cons_self)
  have hjob : st.jobs[i.val]? = some ((jobsOn xs i).map FileWork.fds) := by
    rw [h.jobs, List.getElem?_map, List.getElem?_eq_getElem (by simp), List.getElem_finRange]
    rfl
  have hrun : assignWork st work =
      some { pq := ((entryOf xs i).1 + work.size, i.val) :: rest
             jobs := st.jobs.set i.val ((jobsOn xs i).map FileWork.fds ++ [work.fds]) } := by
    simp only [assignWork, hpop, Option.bind_eq_bind, Option.bind_some]
    rw [show (entryOf xs i).2 = i.val from rfl, hjob, Option.bind_some]
  refine ⟨_, i, hrun, ?_, ⟨?_, ?_⟩⟩
  · intro j
    exact hleast (entryOf xs j) (h.pq.mem_iff.mpr (List.mem_map_of_mem (List.mem_finRange j)))
  · -- the other threads keep their entries
    have hsplit : (List.finRange m).Perm (i :: (List.finRange m).erase i) :=
      List.perm_cons_erase (List.mem_finRange i)
    have hrest : rest.Perm (((List.finRange m).erase i).map (entryOf xs)) := by
      have hall := hperm.trans (h.pq.trans (hsplit.map (entryOf xs)))
      rw [List.map_cons] at hall
      exact hall.cons_inv
    have hsame : ((List.finRange m).erase i).map (entryOf xs) =
        ((List.finRange m).erase i).map (entryOf (xs ++ [(work, i)])) := by
      apply List.map_congr_left
      intro j hj
      have hij : j ≠ i := ((List.nodup_finRange m).mem_erase_iff.mp hj).1
      exact (entryOf_place_of_ne xs work hij.symm).symm
    refine List.Perm.trans ?_ (hsplit.map _).symm
    rw [List.map_cons, entryOf_place_self, ← hsame]
    exact hrest.cons _
  · -- only the jobs of the thread `i` change
    show st.jobs.set i.val _ = _
    rw [h.jobs, set_map_finRange]
    apply List.map_congr_left
    intro j _
    by_cases hij : j = i
    · rw [hij, Function.update_self, jobsOn_append, jobsOn_singleton_self, List.map_append]
      rfl
    · rw [Function.update_of_ne hij, jobsOn_append, jobsOn_singleton_of_ne _ (Ne.symm hij),
        List.append_nil]

/-- The loop assigns the files by the queue, in the order in which it gets them. -/
theorem assignWorks_run {m : ℕ} (hm : 1 ≤ m) :
    ∀ (works : List FileWork) (st : AssignState) (xs : List (FileWork × Fin m)),
      Assigns m st xs → KeptGreedy xs →
      ∃ st' ys, works.foldlM assignWork st = some st' ∧ ys.map Prod.fst = works ∧
        Assigns m st' (xs ++ ys) ∧ KeptGreedy (xs ++ ys) := by
  intro works
  induction works with
  | nil =>
      intro st xs hst hkept
      exact ⟨st, [], rfl, rfl, by rwa [List.append_nil], by rwa [List.append_nil]⟩
  | cons work works ih =>
      intro st xs hst hkept
      obtain ⟨st₁, i, hstep, hleast, hst₁⟩ := assignWork_assigns hm hst work
      obtain ⟨st', ys, hrun, hworks, hst', hkept'⟩ := ih st₁ (xs ++ [(work, i)]) hst₁
        (hkept.place hleast)
      rw [List.append_assoc, List.singleton_append] at hst' hkept'
      refine ⟨st', (work, i) :: ys, ?_, ?_, hst', hkept'⟩
      · rw [List.foldlM_cons, hstep]
        exact hrun
      · rw [List.map_cons, hworks]

/-- The assignment that the loop makes of `works`. -/
theorem assignWorks_assigns {m : ℕ} (hm : 1 ≤ m) (works : List FileWork) :
    ∃ st xs, assignWorks m works = some st ∧ xs.map Prod.fst = works ∧ Assigns m st xs ∧
      KeptGreedy xs := by
  obtain ⟨st, xs, hrun, hworks, hst, hkept⟩ :=
    assignWorks_run hm works (assignInit m) [] (assigns_init m) KeptGreedy.nil
  exact ⟨st, xs, hrun, hworks, hst, hkept⟩

/-! ## Loads that fit a word -/

/-- The load that the queue has is the load. -/
theorem toNat_entryOf {m : ℕ} {xs : List (FileWork × Fin m)} {i : Fin m}
    (h : load FileWork.bytes xs i < 2 ^ 64) :
    (entryOf xs i).1.toNat = load FileWork.bytes xs i := by
  rw [entryOf, BitVec.toNat_ofNat, Nat.mod_eq_of_lt h]

theorem least_of_kept {m : ℕ} {xs : List (FileWork × Fin m)} {i : Fin m}
    (hfits : ∀ j, load FileWork.bytes xs j < 2 ^ 64)
    (h : ∀ j, (entryOf xs i).1 ≤ (entryOf xs j).1) : Least FileWork.bytes xs i := by
  intro j
  have hle := BitVec.le_def.mp (h j)
  rwa [toNat_entryOf (hfits i), toNat_entryOf (hfits j)] at hle

/-- As long as no load overflows, the queue finds the least one. -/
theorem KeptGreedy.greedy {m : ℕ} {xs : List (FileWork × Fin m)} (h : KeptGreedy xs)
    (hfits : ∀ i, load FileWork.bytes xs i < 2 ^ 64) : Greedy FileWork.bytes xs := by
  induction h with
  | nil => exact Greedy.nil
  | @place xs work i _ hleast ih =>
      have hfits' : ∀ j, load FileWork.bytes xs j < 2 ^ 64 := fun j =>
        Nat.lt_of_le_of_lt (load_prefix_le FileWork.bytes xs _ j) (hfits j)
      exact (ih hfits').place (least_of_kept hfits' hleast)

/-- No load overflows while they are balanced and the average is far enough from `2 ^ 64`. -/
theorem KeptGreedy.load_lt {m : ℕ} {xs : List (FileWork × Fin m)} (h : KeptGreedy xs) {M : ℕ}
    (hM : ∀ x ∈ xs, x.1.bytes ≤ M)
    (hsum : (xs.map fun x => x.1.bytes).sum + (m - 1) * M < m * 2 ^ 64) :
    ∀ i, load FileWork.bytes xs i < 2 ^ 64 := by
  induction h with
  | nil => exact fun i => Nat.two_pow_pos 64
  | @place xs work k hkept hleast ih =>
      have hwork : work.bytes ≤ M :=
        hM (work, k) (List.mem_append_right _ (List.mem_singleton_self _))
      simp only [List.map_append, List.sum_append, List.map_cons, List.map_nil, List.sum_singleton] at hsum
      have hfits := ih (fun x hx => hM x (List.mem_append_left _ hx)) (by omega)
      intro i
      by_cases hki : k = i
      · -- `m` times the new load is the sum at most, and `m - 1` times the new file
        subst hki
        have hplace := (least_of_kept hfits hleast).card_mul_load_place_le work
        rw [Fintype.card_fin] at hplace
        have hm : m * work.bytes = (m - 1) * work.bytes + work.bytes := by
          rw [← Nat.succ_mul, Nat.succ_eq_add_one, Nat.sub_add_cancel (Nat.one_le_of_lt k.isLt)]
        have hrest : (m - 1) * work.bytes ≤ (m - 1) * M := Nat.mul_le_mul_left _ hwork
        have hlt : m * load FileWork.bytes (xs ++ [(work, k)]) k < m * 2 ^ 64 := by omega
        exact Nat.lt_of_mul_lt_mul_left hlt
      · rw [load_place_of_ne FileWork.bytes xs work hki]
        exact hfits i

/-! ## The results -/

/-- The jobs of all threads are the files. -/
theorem Assigns.jobs_perm {m : ℕ} {st : AssignState} {xs : List (FileWork × Fin m)}
    (h : Assigns m st xs) : st.jobs.flatten.Perm ((xs.map Prod.fst).map FileWork.fds) := by
  rw [h.jobs]
  clear h
  induction xs using List.reverseRecOn with
  | nil => simp
  | append_singleton xs x ih =>
      obtain ⟨work, i⟩ := x
      -- one list has one pair more
      have hsplit : (List.finRange m).Perm (i :: (List.finRange m).erase i) :=
        List.perm_cons_erase (List.mem_finRange i)
      have hsame : ((List.finRange m).erase i).map
            (fun j => (jobsOn (xs ++ [(work, i)]) j).map FileWork.fds) =
          ((List.finRange m).erase i).map fun j => (jobsOn xs j).map FileWork.fds := by
        apply List.map_congr_left
        intro j hj
        have hij : j ≠ i := ((List.nodup_finRange m).mem_erase_iff.mp hj).1
        rw [jobsOn_append, jobsOn_singleton_of_ne _ (Ne.symm hij), List.append_nil]
      have hone := (hsplit.map fun j => (jobsOn xs j).map FileWork.fds).flatten
      rw [List.map_cons, List.flatten_cons] at hone
      refine ((hsplit.map _).flatten).trans ?_
      rw [List.map_cons, List.flatten_cons, hsame, jobsOn_append, jobsOn_singleton_self,
        List.map_append, List.append_assoc, List.map_append, List.map_append]
      refine (List.perm_append_comm_assoc _ _ _).trans (List.perm_append_comm.trans ?_)
      exact (hone.symm.trans ih).append_right _

/-- Every pair of descriptors is in the jobs of one thread, once, and the queue has one entry
    for every thread.  The loads in it are the sums of the sizes, and differ by at most the
    largest file, as long as no sum reaches `2 ^ 64`. -/
theorem assignWorks_even {m : ℕ} (hm : 1 ≤ m) {files works : List FileWork}
    (hsort : StdSorted files works) :
    ∃ st xs, assignWorks m works = some st ∧ Assigns m st xs ∧ (xs.map Prod.fst).Perm files ∧
      st.jobs.flatten.Perm (files.map FileWork.fds) ∧
      ((∀ i, load FileWork.bytes xs i < 2 ^ 64) →
        (∀ i, (entryOf xs i).1.toNat = load FileWork.bytes xs i) ∧
        ∀ M, (∀ file ∈ files, file.bytes ≤ M) →
          ∀ i j, load FileWork.bytes xs i ≤ load FileWork.bytes xs j + M) ∧
      ∀ M, (∀ file ∈ files, file.bytes ≤ M) →
        (files.map FileWork.bytes).sum + (m - 1) * M < m * 2 ^ 64 →
        ∀ i, load FileWork.bytes xs i < 2 ^ 64 := by
  obtain ⟨st, xs, hrun, hworks, hst, hkept⟩ := assignWorks_assigns hm works
  have hperm : (xs.map Prod.fst).Perm files := by
    rw [hworks]
    exact hsort.perm
  have hbound : ∀ M, (∀ file ∈ files, file.bytes ≤ M) → ∀ x ∈ xs, x.1.bytes ≤ M :=
    fun M hM x hx => hM x.1 (hperm.subset (List.mem_map_of_mem hx))
  refine ⟨st, xs, hrun, hst, hperm, hst.jobs_perm.trans (hperm.map _), ?_, ?_⟩
  · intro hfits
    refine ⟨fun i => toNat_entryOf (hfits i), fun M hM => ?_⟩
    exact (hkept.greedy hfits).load_le_add (hbound M hM)
  · intro M hM hsum
    refine hkept.load_lt (hbound M hM) ?_
    have hsums : (xs.map fun x => x.1.bytes).sum = (files.map FileWork.bytes).sum := by
      rw [← (hperm.map FileWork.bytes).sum_eq, List.map_map]
      rfl
    rwa [hsums]

/-- Two threads and the sizes 3, 1 and 0. -/
theorem assignWorks_even_sample :
    ∃ st xs, assignWorks 2 [⟨3, 5, 6⟩, ⟨1, 3, 4⟩, ⟨0, 7, 8⟩] = some st ∧ Assigns 2 st xs ∧
      st.jobs.flatten.Perm [(3, 4), (5, 6), (7, 8)] ∧
      ∀ i j, load FileWork.bytes xs i ≤ load FileWork.bytes xs j + 3 := by
  let files : List FileWork := [⟨1, 3, 4⟩, ⟨3, 5, 6⟩, ⟨0, 7, 8⟩]
  have hsort : StdSorted files [⟨3, 5, 6⟩, ⟨1, 3, 4⟩, ⟨0, 7, 8⟩] := ⟨by decide, by decide⟩
  obtain ⟨st, xs, hrun, hst, -, hjobs, heven, hfits⟩ := @assignWorks_even 2 (by decide) files _ hsort
  have hM : ∀ file ∈ files, file.bytes ≤ 3 := by decide
  exact ⟨st, xs, hrun, hst, hjobs, (heven (hfits 3 hM (by decide))).2 3 hM⟩

/-- Three files of `2 ^ 63 - 1` bytes and one thread: its load is not kept. -/
theorem assignWorks_overflows :
    ¬ ∀ (m : ℕ) (files works : List FileWork), 1 ≤ m → StdSorted files works →
      ∃ st xs, assignWorks m works = some st ∧ Assigns m st xs ∧ (xs.map Prod.fst).Perm files ∧
        ∀ i, (entryOf xs i).1.toNat = load FileWork.bytes xs i := by
  intro h
  let files : List FileWork :=
    [⟨0x7fffffffffffffff, 3, 4⟩, ⟨0x7fffffffffffffff, 5, 6⟩, ⟨0x7fffffffffffffff, 7, 8⟩]
  obtain ⟨st, xs, -, -, hperm, hkept⟩ := h 1 files files (by decide) ⟨List.Perm.refl _, by decide⟩
  have hsum := sum_load FileWork.bytes xs
  have hfiles : (xs.map fun x => x.1.bytes).sum = (files.map FileWork.bytes).sum := by
    rw [← (hperm.map FileWork.bytes).sum_eq, List.map_map]
    rfl
  rw [Fin.sum_univ_one, ← hkept 0, hfiles] at hsum
  have hlt := (entryOf xs 0).1.isLt
  have hval : (files.map FileWork.bytes).sum = 3 * 0x7fffffffffffffff := by decide
  omega

/-- `operator<` is turned round: the sizes descend. -/
theorem StdSorted.descending {files works : List FileWork} (h : StdSorted files works) :
    works.Pairwise fun a b => b.bytes ≤ a.bytes := by
  refine h.sorted.imp ?_
  intro a b hlt
  simp only [FileWork.lt, decide_eq_false_iff_not, BitVec.not_lt] at hlt
  exact BitVec.le_def.mp hlt

/-- The largest number of bytes that a thread gets is at most 4/3 - 1/(3m) times
    the smallest one that an assignment of the files to `m` threads can have. -/
theorem assignWorks_graham {m : ℕ} (hm : 1 ≤ m) {files works : List FileWork}
    (hsort : StdSorted files works) (hsum : (files.map FileWork.bytes).sum < 2 ^ 64) :
    ∃ st xs, assignWorks m works = some st ∧ Assigns m st xs ∧
      (xs.map Prod.fst).Perm files ∧
      3 * m * makespan FileWork.bytes xs ≤ (4 * m - 1) * optimum (Fin m) FileWork.bytes files := by
  have hsum' : (works.map FileWork.bytes).sum < 2 ^ 64 := by
    rwa [(hsort.perm.map FileWork.bytes).sum_eq]
  obtain ⟨st, xs, hrun, hworks, hst, hkept⟩ := assignWorks_assigns hm works
  have hgreedy : Greedy FileWork.bytes xs := by
    refine hkept.greedy fun i => Nat.lt_of_le_of_lt (load_le_sum FileWork.bytes xs i) ?_
    rwa [← hworks, List.map_map] at hsum'
  have hperm : (xs.map Prod.fst).Perm files := by
    rw [hworks]
    exact hsort.perm
  have hdesc : xs.Pairwise fun x y => y.1.bytes ≤ x.1.bytes := by
    have hall := hsort.descending
    rwa [← hworks, List.pairwise_map] at hall
  obtain ⟨k, rfl⟩ : ∃ k, m = k + 1 := Nat.exists_eq_succ_of_ne_zero (by omega)
  have hbound := hgreedy.makespan_le hdesc hperm
  rw [Fintype.card_fin] at hbound
  exact ⟨st, xs, hrun, hst, hperm, hbound⟩

/-- Five files of 3, 3, 2, 2 and 2 bytes and two threads, where the bound is met. -/
theorem assignWorks_graham_sample :
    let files : List FileWork := [⟨2, 3, 4⟩, ⟨3, 5, 6⟩, ⟨2, 7, 8⟩, ⟨3, 9, 10⟩, ⟨2, 11, 12⟩]
    let works : List FileWork := [⟨3, 5, 6⟩, ⟨3, 9, 10⟩, ⟨2, 7, 8⟩, ⟨2, 3, 4⟩, ⟨2, 11, 12⟩]
    ∃ st xs, assignWorks 2 works = some st ∧ Assigns 2 st xs ∧ (xs.map Prod.fst).Perm files ∧
      3 * 2 * makespan FileWork.bytes xs ≤ (4 * 2 - 1) * optimum (Fin 2) FileWork.bytes files :=
  assignWorks_graham (by decide) ⟨by decide, by decide⟩ (by decide)

end GogetaTools.Mcp
