/-
  GogetaTools.Lib.ListSchedule

  Jobs on identical machines: list scheduling, longest job first.

  A schedule lists the jobs with their machines in the order in which they are
  placed.  `Greedy` schedules place each job on a machine of least load.  If the
  jobs come in descending order of size, the makespan is at most
  4/3 - 1/(3m) of the optimal one (`Greedy.makespan_le`).  In any order the loads
  differ by at most the largest job (`Greedy.load_le_add`).

  The job placed last on a machine decides.  If it is at most a third of the
  optimum, the average load bounds what was there before it.  Otherwise no
  machine of the optimal schedule has three jobs, and counting the jobs, those
  twice that leave no room for another, shows that the schedule is optimal.
-/

import Mathlib.Algebra.BigOperators.Fin
import Mathlib.Algebra.Order.BigOperators.Group.Finset
import Mathlib.Data.Fintype.BigOperators
import Mathlib.Order.Lattice.Nat
import Mathlib.Tactic.Linarith

namespace ListSchedule

section Load

variable {α ι : Type*} [DecidableEq ι]

/-- The jobs of machine `i`, in order. -/
def jobsOn (xs : List (α × ι)) (i : ι) : List α := (xs.filter fun x => x.2 = i).map Prod.fst

/-- The sum of the sizes on machine `i`. -/
def load (size : α → ℕ) (xs : List (α × ι)) (i : ι) : ℕ := ((jobsOn xs i).map size).sum

@[simp] theorem jobsOn_nil (i : ι) : jobsOn ([] : List (α × ι)) i = [] := rfl

theorem jobsOn_append (xs ys : List (α × ι)) (i : ι) :
    jobsOn (xs ++ ys) i = jobsOn xs i ++ jobsOn ys i := by
  rw [jobsOn, List.filter_append, List.map_append]
  rfl

theorem jobsOn_singleton_self (a : α) (i : ι) : jobsOn [(a, i)] i = [a] := by
  simp [jobsOn]

theorem jobsOn_singleton_of_ne (a : α) {i j : ι} (h : j ≠ i) : jobsOn [(a, j)] i = [] := by
  simp [jobsOn, h]

theorem mem_jobsOn {xs : List (α × ι)} {a : α} {i : ι} : a ∈ jobsOn xs i ↔ (a, i) ∈ xs := by
  simp [jobsOn]

variable (size : α → ℕ)

theorem load_append (xs ys : List (α × ι)) (i : ι) :
    load size (xs ++ ys) i = load size xs i + load size ys i := by
  rw [load, jobsOn_append, List.map_append, List.sum_append]
  rfl

theorem load_place_self (xs : List (α × ι)) (a : α) (i : ι) :
    load size (xs ++ [(a, i)]) i = load size xs i + size a := by
  rw [load_append, load, load, jobsOn_singleton_self]
  simp

theorem load_place_of_ne (xs : List (α × ι)) (a : α) {i j : ι} (h : j ≠ i) :
    load size (xs ++ [(a, j)]) i = load size xs i := by
  rw [load_append, load, load, jobsOn_singleton_of_ne a h]
  simp

theorem load_prefix_le (xs ys : List (α × ι)) (i : ι) : load size xs i ≤ load size (xs ++ ys) i := by
  rw [load_append]
  exact Nat.le_add_right _ _

theorem size_le_load {xs : List (α × ι)} {a : α} {i : ι} (h : (a, i) ∈ xs) :
    size a ≤ load size xs i :=
  List.single_le_sum (fun _ _ => Nat.zero_le _) _ (List.mem_map_of_mem (mem_jobsOn.mpr h))

/-- The loads of all machines are the sizes of all jobs. -/
theorem sum_load [Fintype ι] (xs : List (α × ι)) :
    ∑ i, load size xs i = (xs.map fun x => size x.1).sum := by
  induction xs using List.reverseRecOn with
  | nil => simp [load]
  | append_singleton xs x ih =>
      obtain ⟨a, i⟩ := x
      have hone : ∑ j, load size [(a, i)] j = size a := by
        rw [Finset.sum_eq_single i]
        · simp [load, jobsOn_singleton_self]
        · intro j _ hj
          simp [load, jobsOn_singleton_of_ne a (Ne.symm hj)]
        · exact fun h => absurd (Finset.mem_univ i) h
      simp only [load_append, Finset.sum_add_distrib, ih, hone, List.map_append, List.sum_append,
        List.map_cons, List.map_nil, List.sum_cons, List.sum_nil, Nat.add_zero]

theorem load_le_sum [Fintype ι] (xs : List (α × ι)) (i : ι) :
    load size xs i ≤ (xs.map fun x => size x.1).sum := by
  rw [← sum_load]
  exact Finset.single_le_sum (fun _ _ => Nat.zero_le _) (Finset.mem_univ i)

end Load

section Greedy

variable {α ι : Type*} [DecidableEq ι] (size : α → ℕ)

/-- Machine `i` has the least load. -/
def Least (xs : List (α × ι)) (i : ι) : Prop := ∀ j, load size xs i ≤ load size xs j

/-- Each job goes to a machine that has the least load. -/
inductive Greedy : List (α × ι) → Prop
  | nil : Greedy []
  | place {xs : List (α × ι)} {a : α} {i : ι} : Greedy xs → Least size xs i → Greedy (xs ++ [(a, i)])

variable {size}

/-- A greedy schedule is balanced up to the largest job. -/
theorem Greedy.load_le_add {xs : List (α × ι)} (h : Greedy size xs) {M : ℕ}
    (hM : ∀ x ∈ xs, size x.1 ≤ M) (i j : ι) : load size xs i ≤ load size xs j + M := by
  induction h with
  | nil => exact Nat.zero_le _
  | @place xs a k _ hleast ih =>
      have hle := ih fun x hx => hM x (List.mem_append_left _ hx)
      have ha : size a ≤ M := hM (a, k) (List.mem_append_right _ (List.mem_singleton_self _))
      have hj : load size xs j ≤ load size (xs ++ [(a, k)]) j :=
        load_prefix_le size xs [(a, k)] j
      by_cases hik : k = i
      · -- the job lies on top of the least load
        subst hik
        have hk := hleast j
        rw [load_place_self]
        omega
      · rw [load_place_of_ne size xs a hik]
        omega

variable [Fintype ι]

/-- The least load is at most the average. -/
theorem Least.card_mul_le {xs : List (α × ι)} {i : ι} (h : Least size xs i) :
    Fintype.card ι * load size xs i ≤ (xs.map fun x => size x.1).sum := by
  rw [← sum_load, ← smul_eq_mul, ← Finset.card_univ]
  exact Finset.card_nsmul_le_sum _ _ _ fun j _ => h j

/-- No load exceeds `M`, so neither does the average. -/
theorem sum_le_card_mul {xs : List (α × ι)} {M : ℕ} (h : ∀ i, load size xs i ≤ M) :
    (xs.map fun x => size x.1).sum ≤ Fintype.card ι * M := by
  rw [← sum_load, ← smul_eq_mul, ← Finset.card_univ]
  exact Finset.sum_le_card_nsmul _ _ _ fun j _ => h j

/-- Placing on a machine of least load keeps it near the average. -/
theorem Least.card_mul_load_place_le {xs : List (α × ι)} {i : ι} (h : Least size xs i) (a : α) :
    Fintype.card ι * load size (xs ++ [(a, i)]) i ≤
      (xs.map fun x => size x.1).sum + Fintype.card ι * size a := by
  rw [load_place_self, Nat.mul_add]
  exact Nat.add_le_add_right h.card_mul_le _

/-! ## Large jobs -/

/-- A job counts twice if it leaves less than `p` of `M`. -/
def crowd (M p s : ℕ) : ℕ := if M < s + p then 2 else 1

theorem one_le_crowd (M p s : ℕ) : 1 ≤ crowd M p s := by
  rw [crowd]
  split <;> omega

theorem crowd_of_le {M p s : ℕ} (h : s + p ≤ M) : crowd M p s = 1 := by
  rw [crowd, if_neg (Nat.not_lt.mpr h)]

/-- A machine that has no room for `p` is crowded. -/
theorem two_le_crowd {M p : ℕ} (hp : p ≤ M) {ss : List ℕ} (h : M < ss.sum + p) :
    2 ≤ (ss.map (crowd M p)).sum := by
  match ss with
  | [] =>
      rw [List.sum_nil] at h
      omega
  | [s] =>
      rw [List.sum_singleton] at h
      rw [List.map_singleton, List.sum_singleton, crowd, if_pos h]
  | s :: t :: ss =>
      have hs := one_le_crowd M p s
      have ht := one_le_crowd M p t
      rw [List.map_cons, List.map_cons, List.sum_cons, List.sum_cons]
      omega

/-- Jobs of more than a third of `M` that fit into `M` do not crowd a machine more. -/
theorem crowd_le_two {M p : ℕ} (hlarge : M < 3 * p) {ss : List ℕ} (hmin : ∀ s ∈ ss, p ≤ s)
    (h : ss.sum ≤ M) : (ss.map (crowd M p)).sum ≤ 2 := by
  match ss with
  | [] => exact Nat.zero_le 2
  | [s] =>
      rw [List.map_singleton, List.sum_singleton, crowd]
      split <;> omega
  | [s, t] =>
      have hs := hmin s (by simp)
      have ht := hmin t (by simp)
      simp only [List.sum_cons, List.sum_nil] at h
      simp only [List.map_cons, List.map_nil, List.sum_cons, List.sum_nil, Nat.add_zero]
      rw [crowd_of_le (show s + p ≤ M by omega), crowd_of_le (show t + p ≤ M by omega)]
  | s :: t :: u :: ss =>
      have hs := hmin s (by simp)
      have ht := hmin t (by simp)
      have hu := hmin u (by simp)
      simp only [List.sum_cons] at h
      omega

/-- A large job that no job undercuts fits on the machine of least load, if all
    jobs fit into `M` in some way. -/
theorem Least.fits {xs : List (α × ι)} {a : α} {i : ι} (h : Least size xs i) {M : ℕ}
    (hlarge : M < 3 * size a) (hmin : ∀ x ∈ xs, size a ≤ size x.1) {ys : List (α × ι)}
    (hperm : (ys.map Prod.fst).Perm ((xs ++ [(a, i)]).map Prod.fst))
    (hM : ∀ j, load size ys j ≤ M) : load size xs i + size a ≤ M := by
  by_contra hgt
  have hmem : ∀ b, b ∈ ys.map Prod.fst → size a ≤ size b := by
    intro b hb
    rw [hperm.mem_iff, List.map_append, List.mem_append] at hb
    rcases hb with hb | hb
    · obtain ⟨x, hx, rfl⟩ := List.mem_map.mp hb
      exact hmin x hx
    · rw [List.map_singleton, List.mem_singleton] at hb
      rw [hb]
  have hfit : size a ≤ M := by
    have ha : a ∈ ys.map Prod.fst := by
      rw [hperm.mem_iff]
      simp
    obtain ⟨⟨b, j⟩, hb, rfl⟩ := List.mem_map.mp ha
    exact Nat.le_trans (size_le_load size hb) (hM j)
  -- every machine of `xs` is crowded, none of `ys` is more than that
  let w : α → ℕ := fun b => crowd M (size a) (size b)
  have hxs : Fintype.card ι * 2 ≤ (xs.map fun x => w x.1).sum := by
    rw [← sum_load, ← smul_eq_mul, ← Finset.card_univ]
    refine Finset.card_nsmul_le_sum _ _ _ fun j _ => ?_
    have hj := h j
    have hcrowd := two_le_crowd hfit (show M < ((jobsOn xs j).map size).sum + size a by
      simp only [load] at hj hgt
      omega)
    rwa [List.map_map] at hcrowd
  have hys : (ys.map fun x => w x.1).sum ≤ Fintype.card ι * 2 := by
    apply sum_le_card_mul
    intro j
    have hcrowd := @crowd_le_two M (size a) hlarge ((jobsOn ys j).map size) (by
      intro s hs
      obtain ⟨b, hb, rfl⟩ := List.mem_map.mp hs
      exact hmem b (List.mem_map_of_mem (mem_jobsOn.mp hb))) (hM j)
    rwa [List.map_map] at hcrowd
  have hsum := (hperm.map w).sum_eq
  simp only [List.map_map, List.map_append, List.map_cons, List.map_nil, List.sum_append,
    List.sum_cons, List.sum_nil, Nat.add_zero] at hsum
  have hone := one_le_crowd M (size a) (size a)
  have hxs' : Fintype.card ι * 2 ≤ (xs.map (w ∘ Prod.fst)).sum := hxs
  have hys' : (ys.map (w ∘ Prod.fst)).sum ≤ Fintype.card ι * 2 := hys
  have hwa : 1 ≤ w a := hone
  omega

/-! ## Longest job first -/

omit [Fintype ι] in
variable (size) in
/-- A job taken out of a schedule leaves a schedule of the other jobs. -/
theorem exists_schedule_without {ys : List (α × ι)} {as : List α} {a : α}
    (hperm : (ys.map Prod.fst).Perm (as ++ [a])) :
    ∃ zs : List (α × ι), (zs.map Prod.fst).Perm as ∧ ∀ j, load size zs j ≤ load size ys j := by
  have ha : a ∈ ys.map Prod.fst := by
    rw [hperm.mem_iff]
    simp
  obtain ⟨⟨b, j⟩, hb, rfl⟩ := List.mem_map.mp ha
  obtain ⟨front, back, rfl⟩ := List.append_of_mem hb
  refine ⟨front ++ back, ?_, ?_⟩
  · have hmid : ((front ++ (b, j) :: back).map Prod.fst).Perm
        (b :: (front ++ back).map Prod.fst) := by
      have hswap := (@List.perm_middle _ (b, j) front back).map Prod.fst
      rwa [List.map_cons] at hswap
    exact (hmid.symm.trans (hperm.trans (List.perm_append_singleton b as))).cons_inv
  · intro k
    rw [← List.singleton_append, load_append, load_append, load_append]
    omega

/-- Longest jobs first: a greedy load is at most 4/3 - 1/(3m) of any bound that
    the loads of some schedule of the same jobs meet. -/
theorem Greedy.load_le {xs : List (α × ι)} (hgreedy : Greedy size xs)
    (hdesc : xs.Pairwise fun x y => size y.1 ≤ size x.1) {ys : List (α × ι)}
    (hperm : (ys.map Prod.fst).Perm (xs.map Prod.fst)) {M : ℕ} (hM : ∀ j, load size ys j ≤ M)
    (i : ι) : 3 * Fintype.card ι * load size xs i ≤ (4 * Fintype.card ι - 1) * M := by
  induction hgreedy generalizing ys i with
  | nil => simp [load]
  | @place xs a k hxs hleast ih =>
      rw [List.pairwise_append] at hdesc
      obtain ⟨hdesc, -, hlast⟩ := hdesc
      by_cases hik : k = i
      · subst hik
        rw [load_place_self]
        have hmin : ∀ x ∈ xs, size a ≤ size x.1 := fun x hx => hlast x hx (a, k) (by simp)
        obtain ⟨m, hm⟩ : ∃ m, Fintype.card ι = m + 1 :=
          Nat.exists_eq_succ_of_ne_zero (Nat.ne_of_gt (Fintype.card_pos_iff.mpr ⟨k⟩))
        have hcard : 4 * (m + 1) - 1 = 4 * m + 3 := by omega
        rcases Nat.lt_or_ge M (3 * size a) with hlarge | hsmall
        · -- the schedule is optimal so far
          have hfits := hleast.fits hlarge hmin hperm hM
          rw [hm, hcard]
          nlinarith
        · -- the other jobs on the machine are no more than the average
          have havg := hleast.card_mul_le
          have hsum := sum_le_card_mul hM
          have hall := (hperm.map size).sum_eq
          simp only [List.map_map, List.map_append, List.map_cons, List.map_nil, List.sum_append,
            List.sum_cons, List.sum_nil, Nat.add_zero] at hall
          have hall' : (ys.map fun x => size x.1).sum = (xs.map fun x => size x.1).sum + size a :=
            hall
          rw [hm] at havg hsum ⊢
          rw [hcard]
          have hthird : m * (3 * size a) ≤ m * M := Nat.mul_le_mul_left m hsmall
          nlinarith
      · rw [load_place_of_ne size xs a hik]
        rw [List.map_append, List.map_singleton] at hperm
        obtain ⟨zs, hzs, hload⟩ := exists_schedule_without size hperm
        exact ih hdesc hzs (fun j => Nat.le_trans (hload j) (hM j)) i

/-! ## The optimum -/

variable (size)

/-- The largest load. -/
def makespan (xs : List (α × ι)) : ℕ := Finset.univ.sup (load size xs)

theorem load_le_makespan (xs : List (α × ι)) (i : ι) : load size xs i ≤ makespan size xs :=
  Finset.le_sup (Finset.mem_univ i)

variable (ι) in
/-- The least makespan of all schedules of the jobs. -/
noncomputable def optimum (jobs : List α) : ℕ :=
  sInf {M | ∃ ys : List (α × ι), (ys.map Prod.fst).Perm jobs ∧ makespan size ys = M}

variable (ι) in
theorem exists_optimum [Nonempty ι] (jobs : List α) :
    ∃ ys : List (α × ι), (ys.map Prod.fst).Perm jobs ∧ makespan size ys = optimum ι size jobs := by
  obtain ⟨i⟩ := ‹Nonempty ι›
  apply Nat.sInf_mem (s := {M | ∃ ys : List (α × ι), (ys.map Prod.fst).Perm jobs ∧
    makespan size ys = M})
  refine ⟨_, jobs.map fun a => (a, i), ?_, rfl⟩
  rw [List.map_map]
  exact List.Perm.of_eq (List.map_id' jobs)

variable {size}

/-- Graham's bound for the longest-job-first schedule. -/
theorem Greedy.makespan_le [Nonempty ι] {xs : List (α × ι)} (hgreedy : Greedy size xs)
    (hdesc : xs.Pairwise fun x y => size y.1 ≤ size x.1) {jobs : List α}
    (hjobs : (xs.map Prod.fst).Perm jobs) :
    3 * Fintype.card ι * makespan size xs ≤
      (4 * Fintype.card ι - 1) * optimum ι size jobs := by
  obtain ⟨ys, hperm, hopt⟩ := exists_optimum ι size jobs
  obtain ⟨i, -, hi⟩ := Finset.exists_mem_eq_sup Finset.univ Finset.univ_nonempty (load size xs)
  rw [makespan, hi, ← hopt]
  exact hgreedy.load_le hdesc (hperm.trans hjobs.symm) (load_le_makespan size ys) i

end Greedy

end ListSchedule
