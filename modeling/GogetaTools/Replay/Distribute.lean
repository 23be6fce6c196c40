/-
  GogetaTools.Replay.Distribute

  The first half of `assign_params_per_worker`: the LBA sort of the map and the
  loop that hands the containers of one LBA to the workers.

  Which worker a container goes to depends on the container sizes and the
  `rand()` results alone; `assignedWorkers` is that part of the loop by itself.
  `DistributeInv` says that every worker holds the groups it was assigned, in
  order, so that the records survive whatever the cursor does, and that the
  cursor stays below `threads`.
-/

import GogetaTools.Map.Sort
import GogetaTools.Replay.Build
import Mathlib.Data.List.Flatten

namespace GogetaTools.Replay

open Map LinkedChain

variable {P : Type} (info : P → TraceInfo)

/-! ## The loop -/

/-- `trace_container_cmp` on two keys of the map; the difference is returned as an `int`. -/
def traceContainerCmp : Compare P
  | some a, some b => (((info a).lba - (info b).lba).setWidth 32).toInt
  | _, _ => 0

/-- `cur_thread`, `cur_thread_lines`, and how often `rand` was called. -/
structure Cursor where
  curThread : Nat
  curThreadLines : Word
  draws : Nat
deriving DecidableEq

section Cursor

variable (threads : Nat) (perThreadLines : Word) (rand : Nat → Nat)

/-- `probability_assign_current`; none where it divides by zero. -/
def probabilityAssignCurrent (curThreadLines : Word) (size : Nat) : Option Int :=
  if size = 0 then none
  else some
    (((perThreadLines - curThreadLines) * 100 / BitVec.ofNat 64 size).setWidth 32).toInt

/-- The statements before a container is added: the worker may be skipped. -/
def beforeAdd (c : Cursor) (size : Nat) : Option Cursor :=
  if c.curThread ≠ threads - 1 then
    if BitVec.ofNat 64 size + c.curThreadLines > perThreadLines then do
      let probability ← probabilityAssignCurrent perThreadLines c.curThreadLines size
      if ((rand c.draws % 100 : Nat) : Int) < probability then
        some { curThread := c.curThread + 1, curThreadLines := 0, draws := c.draws + 1 }
      else some { c with draws := c.draws + 1 }
    else some c
  else some c

/-- The statements after it: a worker with its share is done. -/
def afterAdd (c : Cursor) (size : Nat) : Cursor :=
  let lines := c.curThreadLines + BitVec.ofNat 64 size
  if c.curThread ≠ threads - 1 ∧ lines ≥ perThreadLines then
    { c with curThread := c.curThread + 1, curThreadLines := 0 }
  else { c with curThreadLines := lines }

/-- The worker each container goes to. -/
def assignedWorkers : Cursor → List Nat → Option (List Nat)
  | _, [] => some []
  | c, size :: sizes => do
      let c ← beforeAdd threads perThreadLines rand c size
      let workers ← assignedWorkers (afterAdd threads perThreadLines c size) sizes
      some (c.curThread :: workers)

end Cursor

/-- `params[..].tc`, the containers of the map, and the loop's own variables. -/
structure AssignState (P : Type) where
  params : List (TraceContainer P)
  heap : Nat → Option (TraceContainer P)
  cursor : Cursor

/-- The body of the `foreach_hashmap_bucket` loop. -/
def distributeStep (threads : Nat) (perThreadLines : Word) (rand : Nat → Nat)
    (map : Hashmap P Nat) (a : AssignState P) (b : Nat) : Option (AssignState P) := do
  let ptc := (map.entry b).value
  let tc2 ← a.heap ptc
  let c ← beforeAdd threads perThreadLines rand a.cursor tc2.size
  let tc ← a.params[c.curThread]?
  let tc ← traceContainerAddCollection tc tc2
  some { params := a.params.set c.curThread tc
         heap := Function.update a.heap ptc none
         cursor := afterAdd threads perThreadLines c tc2.size }

/-- The state before the loop. -/
def assignInit (threads : Nat) (heap : Nat → Option (TraceContainer P)) : AssignState P :=
  { params := List.replicate threads (traceContainerCreate DEFAULT_COLLECTIONS_CAPACITY)
    heap := heap
    cursor := { curThread := 0, curThreadLines := 0, draws := 0 } }

/-- `per_thread_lines`. -/
def perThreadLinesOf (validLines threads : Nat) : Word :=
  BitVec.ofNat 64 validLines / BitVec.ofNat 64 threads

/-- The map sorted by LBA, and its buckets in list order. -/
def sortedBuckets (s : Containers P) : Option (Hashmap P Nat × List Nat) := do
  let map ← hashmapSort (traceContainerCmp info) s.map
  let bs ← foreachHashmapBucket map map.count map.first
  some (map, bs)

/-- Sort and loop. -/
def distribute (threads validLines : Nat) (rand : Nat → Nat) (s : Containers P) :
    Option (AssignState P) := do
  let (map, bs) ← sortedBuckets info s
  bs.foldlM (distributeStep threads (perThreadLinesOf validLines threads) rand map)
    (assignInit threads s.heap)

/-! ## The cursor -/

section CursorFacts

variable {threads : Nat} {perThreadLines : Word} {rand : Nat → Nat}

theorem curThread_beforeAdd_lt {c c' : Cursor} {size : Nat} (h : c.curThread < threads)
    (hrun : beforeAdd threads perThreadLines rand c size = some c') : c'.curThread < threads := by
  simp only [beforeAdd] at hrun
  split at hrun
  · rename_i hne
    split at hrun
    · obtain ⟨probability, -, hrun⟩ := Option.bind_eq_some_iff.mp hrun
      split at hrun
      · cases hrun
        simp only
        omega
      · cases hrun
        exact h
    · cases hrun
      exact h
  · cases hrun
    exact h

theorem curThread_afterAdd_lt {c : Cursor} (size : Nat) (h : c.curThread < threads) :
    (afterAdd threads perThreadLines c size).curThread < threads := by
  simp only [afterAdd]
  split
  · simp only
    omega
  · exact h

theorem beforeAdd_isSome (threads : Nat) (perThreadLines : Word) (rand : Nat → Nat) (c : Cursor)
    {size : Nat} (hsize : size ≠ 0) : ∃ c', beforeAdd threads perThreadLines rand c size = some c' := by
  simp only [beforeAdd, probabilityAssignCurrent, if_neg hsize]
  split
  · split
    · simp only [Option.bind_eq_bind, Option.bind_some]
      split <;> exact ⟨_, rfl⟩
    · exact ⟨_, rfl⟩
  · exact ⟨_, rfl⟩

theorem assignedWorkers_isSome (threads : Nat) (perThreadLines : Word) (rand : Nat → Nat)
    {sizes : List Nat} (hsizes : ∀ n ∈ sizes, n ≠ 0) (c : Cursor) :
    ∃ workers, assignedWorkers threads perThreadLines rand c sizes = some workers := by
  induction sizes generalizing c with
  | nil => exact ⟨[], rfl⟩
  | cons size sizes ih =>
      obtain ⟨c', hbefore⟩ := beforeAdd_isSome threads perThreadLines rand c
        (hsizes size (List.mem_cons_self ..))
      obtain ⟨workers, hrest⟩ := ih (fun n hn => hsizes n (List.mem_cons_of_mem _ hn))
        (afterAdd threads perThreadLines c' size)
      exact ⟨c'.curThread :: workers, by
        simp only [assignedWorkers, hbefore, hrest, Option.bind_eq_bind, Option.bind_some]⟩

theorem length_assignedWorkers :
    ∀ {sizes : List Nat} {c : Cursor} {workers : List Nat},
      assignedWorkers threads perThreadLines rand c sizes = some workers →
      workers.length = sizes.length := by
  intro sizes
  induction sizes with
  | nil =>
      intro c workers h
      cases h
      rfl
  | cons size sizes ih =>
      intro c workers h
      obtain ⟨c', -, hrest⟩ := Option.bind_eq_some_iff.mp h
      obtain ⟨workers', hrun, heq⟩ := Option.bind_eq_some_iff.mp hrest
      cases heq
      rw [List.length_cons, List.length_cons, ih hrun]

end CursorFacts

/-! ## What the workers hold -/

/-- What worker `i` holds of the groups assigned so far. -/
def shareOf (assigned : List (Nat × List P)) (i : Nat) : List P :=
  ((assigned.filter fun x => x.1 = i).map Prod.snd).flatten

theorem shareOf_append (assigned more : List (Nat × List P)) (i : Nat) :
    shareOf (assigned ++ more) i = shareOf assigned i ++ shareOf more i := by
  simp [shareOf]

theorem shareOf_append_self (assigned : List (Nat × List P)) (i : Nat) (g : List P) :
    shareOf (assigned ++ [(i, g)]) i = shareOf assigned i ++ g := by
  simp [shareOf]

theorem shareOf_append_ne {assigned : List (Nat × List P)} {i j : Nat} (h : j ≠ i) (g : List P) :
    shareOf (assigned ++ [(j, g)]) i = shareOf assigned i := by
  simp [shareOf, h]

/-- The shares of all workers are the assigned groups, worker by worker. -/
theorem shares_perm {threads : Nat} {assigned : List (Nat × List P)}
    (h : ∀ x ∈ assigned, x.1 < threads) :
    ((List.range threads).flatMap (shareOf assigned)).Perm (assigned.map Prod.snd).flatten := by
  induction assigned using List.reverseRecOn with
  | nil => simp [shareOf]
  | append_singleton assigned x ih =>
      obtain ⟨j, g⟩ := x
      have hj : j < threads := h (j, g) (by simp)
      have hstep : ∀ i, shareOf (assigned ++ [(j, g)]) i =
          shareOf assigned i ++ if i = j then g else [] := by
        intro i
        by_cases hij : i = j
        · rw [if_pos hij, hij, shareOf_append_self]
        · rw [if_neg hij, List.append_nil, shareOf_append_ne (fun h => hij h.symm)]
      -- the group `g` comes up once, at the worker `j`
      have hone : (List.range threads).flatMap (fun i => if i = j then g else []) = g := by
        have hsplit : List.range threads =
            List.range j ++ j :: (List.range' (j + 1) (threads - (j + 1))) := by
          rw [List.range_eq_range', List.range_eq_range', ← List.range'_succ]
          have hcat := List.range'_append_1 (s := 0) (m := j) (n := threads - (j + 1) + 1)
          rw [Nat.zero_add] at hcat
          rw [hcat]
          congr 1
          omega
        rw [hsplit, List.flatMap_append, List.flatMap_cons, if_pos rfl]
        have hlow : (List.range j).flatMap (fun i => if i = j then g else []) = [] := by
          rw [List.flatMap_eq_nil_iff]
          intro i hi
          rw [if_neg (Nat.ne_of_lt (List.mem_range.mp hi))]
        have hhigh : (List.range' (j + 1) (threads - (j + 1))).flatMap
            (fun i => if i = j then g else []) = [] := by
          rw [List.flatMap_eq_nil_iff]
          intro i hi
          have := (List.mem_range'_1.mp hi).1
          rw [if_neg (by omega)]
        rw [hlow, hhigh, List.nil_append, List.append_nil]
      rw [List.map_append, List.flatten_append, List.map_singleton, List.flatten_singleton]
      rw [show shareOf (assigned ++ [(j, g)]) = fun i => shareOf assigned i ++ _ from funext hstep]
      refine (List.flatMap_append_perm _ _ _).symm.trans ?_
      rw [hone]
      exact (ih fun x hx => h x (List.mem_append_left _ hx)).append_right g

/-- Every worker holds its share, and the cursor points to a worker. -/
structure DistributeInv (threads : Nat) (a : AssignState P) (assigned : List (Nat × List P)) :
    Prop where
  length : a.params.length = threads
  share : ∀ i tc, a.params[i]? = some tc → tc.Fits ∧ tc.infosMap = shareOf assigned i
  assigned_lt : ∀ x ∈ assigned, x.1 < threads
  cursor_lt : a.cursor.curThread < threads

theorem distributeInv_init {threads : Nat} (h : 0 < threads)
    (heap : Nat → Option (TraceContainer P)) :
    DistributeInv threads (assignInit threads heap) [] := by
  refine ⟨by simp [assignInit], ?_, by simp, h⟩
  intro i tc htc
  obtain ⟨-, rfl⟩ := List.getElem?_eq_some_iff.mp htc
  simp only [assignInit, List.getElem_replicate]
  exact ⟨fits_create, rfl⟩

/-- No worker holds more than a container takes. -/
theorem DistributeInv.share_le {threads : Nat} {a : AssignState P}
    {assigned : List (Nat × List P)} (h : DistributeInv threads a assigned) {i : Nat}
    (hi : i < threads) : (shareOf assigned i).length ≤ 2 ^ 30 := by
  obtain ⟨tc, htc⟩ : ∃ tc, a.params[i]? = some tc :=
    ⟨_, List.getElem?_eq_getElem (by rw [h.length]; exact hi)⟩
  obtain ⟨hfits, hshare⟩ := h.share i tc htc
  exact hshare ▸ hfits.size_le_limit

section Step

variable {threads : Nat} {perThreadLines : Word} {rand : Nat → Nat} {map : Hashmap P Nat}

/-- The step, when it returns: worker `c.curThread` has the group `g` as well. -/
theorem distributeStep_inv {a a' : AssignState P} {b : Nat} {assigned : List (Nat × List P)}
    (hinv : DistributeInv threads a assigned) {tc2 : TraceContainer P}
    (htc2 : a.heap (map.entry b).value = some tc2)
    (h : distributeStep threads perThreadLines rand map a b = some a') :
    ∃ c, beforeAdd threads perThreadLines rand a.cursor tc2.size = some c ∧
      a'.cursor = afterAdd threads perThreadLines c tc2.size ∧
      a'.heap = Function.update a.heap (map.entry b).value none ∧
      DistributeInv threads a' (assigned ++ [(c.curThread, tc2.infosMap)]) := by
  simp only [distributeStep, htc2, Option.bind_eq_bind, Option.bind_some] at h
  obtain ⟨c, hbefore, h⟩ := Option.bind_eq_some_iff.mp h
  obtain ⟨tc, htc, h⟩ := Option.bind_eq_some_iff.mp h
  obtain ⟨tc', hadd, h⟩ := Option.bind_eq_some_iff.mp h
  cases h
  have hlt := curThread_beforeAdd_lt hinv.cursor_lt hbefore
  obtain ⟨hfits, hshare⟩ := hinv.share _ _ htc
  obtain ⟨hmap, hfits'⟩ := traceContainerAddCollection_ok hfits hadd
  refine ⟨c, hbefore, rfl, rfl, ?_, ?_, ?_, curThread_afterAdd_lt _ hlt⟩
  · rw [List.length_set]
    exact hinv.length
  · intro i tc'' hi
    -- only the container of the chosen worker changes
    by_cases hic : c.curThread = i
    · subst hic
      rw [List.getElem?_set_self (by rw [hinv.length]; exact hlt)] at hi
      cases hi
      exact ⟨hfits', by rw [hmap, hshare, shareOf_append_self]⟩
    · rw [List.getElem?_set_ne hic] at hi
      obtain ⟨hf, hs⟩ := hinv.share i _ hi
      exact ⟨hf, by rw [hs, shareOf_append_ne hic]⟩
  · intro x hx
    rcases List.mem_append.mp hx with hx | hx
    · exact hinv.assigned_lt x hx
    · rw [List.mem_singleton.mp hx]
      exact hlt

/-- It returns if the worker's container takes the group. -/
theorem distributeStep_isSome {a : AssignState P} {b : Nat} {assigned : List (Nat × List P)}
    (hinv : DistributeInv threads a assigned) {tc2 : TraceContainer P}
    (htc2 : a.heap (map.entry b).value = some tc2) {c : Cursor}
    (hbefore : beforeAdd threads perThreadLines rand a.cursor tc2.size = some c)
    (hsize : (shareOf assigned c.curThread).length + tc2.size ≤ 2 ^ 30) :
    ∃ a', distributeStep threads perThreadLines rand map a b = some a' := by
  have hlt := curThread_beforeAdd_lt hinv.cursor_lt hbefore
  obtain ⟨tc, htc⟩ : ∃ tc, a.params[c.curThread]? = some tc :=
    ⟨_, List.getElem?_eq_getElem (by rw [hinv.length]; exact hlt)⟩
  obtain ⟨hfits, hshare⟩ := hinv.share _ _ htc
  rw [← hshare] at hsize
  obtain ⟨tc', hadd⟩ := traceContainerAddCollection_isSome tc2 hfits hsize
  refine ⟨⟨a.params.set c.curThread tc', Function.update a.heap (map.entry b).value none,
    afterAdd threads perThreadLines c tc2.size⟩, ?_⟩
  simp only [distributeStep, htc2, Option.bind_eq_bind, Option.bind_some, hbefore, htc, hadd]

end Step

/-! ## The whole loop -/

section Run

variable {threads : Nat} {perThreadLines : Word} {rand : Nat → Nat} {map : Hashmap P Nat}

/-- The buckets `bs` lead to containers with the groups `gs`. -/
def LeadTo (heap : Nat → Option (TraceContainer P)) (map : Hashmap P Nat) (bs : List Nat)
    (gs : List (List P)) : Prop :=
  List.Forall₂ (fun b g => ∃ tc, heap (map.entry b).value = some tc ∧ tc.Fits ∧ tc.infosMap = g)
    bs gs

/-- Freeing the container of one bucket leaves those of the others. -/
theorem LeadTo.free {heap : Nat → Option (TraceContainer P)} {b : Nat} {bs : List Nat}
    {gs : List (List P)} (h : LeadTo heap map bs gs)
    (hb : (map.entry b).value ∉ bs.map fun b => (map.entry b).value) :
    LeadTo (Function.update heap (map.entry b).value none) map bs gs := by
  induction h with
  | nil => exact List.Forall₂.nil
  | cons hhead _ ih =>
      rw [List.map_cons, List.mem_cons, not_or] at hb
      obtain ⟨tc, htc, hfits, hmap⟩ := hhead
      exact List.Forall₂.cons ⟨tc, by rw [Function.update_of_ne (Ne.symm hb.1), htc], hfits, hmap⟩
        (ih hb.2)

/-- Whatever a step keeps of the cursor and the groups assigned so far, in
    addition to `DistributeInv`, holds after the loop as well. -/
theorem distributeRun_keeps {I : Cursor → List (Nat × List P) → Prop}
    (hkeep : ∀ (c c' : Cursor) (assigned : List (Nat × List P)) (tc2 : TraceContainer P),
      I c assigned → tc2.Fits → beforeAdd threads perThreadLines rand c tc2.size = some c' →
      (shareOf (assigned ++ [(c'.curThread, tc2.infosMap)]) c'.curThread).length ≤ 2 ^ 30 →
      I (afterAdd threads perThreadLines c' tc2.size)
        (assigned ++ [(c'.curThread, tc2.infosMap)])) :
    ∀ {bs : List Nat} {gs : List (List P)} {a a' : AssignState P}
      {assigned : List (Nat × List P)}, DistributeInv threads a assigned →
      I a.cursor assigned → LeadTo a.heap map bs gs →
      (bs.map fun b => (map.entry b).value).Nodup →
      bs.foldlM (distributeStep threads perThreadLines rand map) a = some a' →
      ∃ workers, assignedWorkers threads perThreadLines rand a.cursor (gs.map List.length) =
          some workers ∧ DistributeInv threads a' (assigned ++ workers.zip gs) ∧
        I a'.cursor (assigned ++ workers.zip gs) := by
  intro bs
  -- Induction on the buckets, with both invariants carried along.
  induction bs with
  | nil =>
      intro gs a a' assigned hinv hI hlead _ hrun
      cases hlead
      cases hrun
      refine ⟨[], rfl, ?_, ?_⟩ <;> rwa [List.zip_nil_left, List.append_nil]
  | cons b bs ih =>
      intro gs a a' assigned hinv hI hlead hnd hrun
      obtain ⟨_, gs, ⟨tc, htc, hfits, rfl⟩, htail, rfl⟩ := List.forall₂_cons_left_iff.mp hlead
      have htail : LeadTo a.heap map bs gs := htail
      rw [List.foldlM_cons] at hrun
      obtain ⟨a₁, hstep, hrest⟩ := Option.bind_eq_some_iff.mp hrun
      rw [List.map_cons, List.nodup_cons] at hnd
      obtain ⟨c, hbefore, hcursor, hheap, hinv₁⟩ := distributeStep_inv hinv htc hstep
      have hI₁ := hkeep a.cursor c assigned tc hI hfits hbefore
        (hinv₁.share_le (curThread_beforeAdd_lt hinv.cursor_lt hbefore))
      rw [← hcursor] at hI₁
      obtain ⟨workers, hworkers, hinv', hI'⟩ := ih hinv₁ hI₁
        (by rw [hheap]; exact htail.free hnd.1) hnd.2 hrest
      refine ⟨c.curThread :: workers, ?_, ?_⟩
      · rw [hcursor] at hworkers
        simp only [TraceContainer.size] at hbefore hworkers
        simp only [List.map_cons, assignedWorkers, hbefore, hworkers, Option.bind_eq_bind,
          Option.bind_some]
      · rw [List.zip_cons_cons, ← List.singleton_append, ← List.append_assoc]
        exact ⟨hinv', hI'⟩

theorem distributeRun_inv {bs : List Nat} {gs : List (List P)} {a a' : AssignState P}
    {assigned : List (Nat × List P)} (hinv : DistributeInv threads a assigned)
    (hlead : LeadTo a.heap map bs gs) (hnd : (bs.map fun b => (map.entry b).value).Nodup)
    (hrun : bs.foldlM (distributeStep threads perThreadLines rand map) a = some a') :
    ∃ workers, assignedWorkers threads perThreadLines rand a.cursor (gs.map List.length) =
      some workers ∧ DistributeInv threads a' (assigned ++ workers.zip gs) := by
  obtain ⟨workers, hworkers, hinv', -⟩ := distributeRun_keeps (I := fun _ _ => True)
    (fun _ _ _ _ _ _ _ _ => trivial) hinv trivial hlead hnd hrun
  exact ⟨workers, hworkers, hinv'⟩

/-- The loop returns if every worker's container takes all its groups. -/
theorem distributeRun_isSome :
    ∀ {bs : List Nat} {gs : List (List P)} {a : AssignState P}
      {assigned : List (Nat × List P)} {workers : List Nat}, DistributeInv threads a assigned →
      LeadTo a.heap map bs gs → (bs.map fun b => (map.entry b).value).Nodup →
      assignedWorkers threads perThreadLines rand a.cursor (gs.map List.length) = some workers →
      (∀ i, (shareOf (assigned ++ workers.zip gs) i).length ≤ 2 ^ 30) →
      ∃ a', bs.foldlM (distributeStep threads perThreadLines rand map) a = some a' := by
  intro bs
  induction bs with
  | nil =>
      intro gs a assigned workers _ _ _ _ _
      exact ⟨a, rfl⟩
  | cons b bs ih =>
      intro gs a assigned workers hinv hlead hnd hworkers hroom
      obtain ⟨_, gs, ⟨tc, htc, -, rfl⟩, htail, rfl⟩ := List.forall₂_cons_left_iff.mp hlead
      have htail : LeadTo a.heap map bs gs := htail
      rw [List.map_cons, List.nodup_cons] at hnd
      obtain ⟨c, hbefore, hworkers⟩ := Option.bind_eq_some_iff.mp hworkers
      obtain ⟨workers, hbehind, heq⟩ := Option.bind_eq_some_iff.mp hworkers
      cases heq
      have hshare : ∀ i, shareOf (assigned ++ (c.curThread :: workers).zip (tc.infosMap :: gs)) i =
          shareOf (assigned ++ [(c.curThread, tc.infosMap)]) i ++ shareOf (workers.zip gs) i := by
        intro i
        rw [List.zip_cons_cons, ← shareOf_append, List.append_assoc, List.singleton_append]
      -- the worker has room for this group, as it has in the end
      have hfirst := hroom c.curThread
      rw [hshare, shareOf_append_self, List.length_append, List.length_append] at hfirst
      obtain ⟨a₁, hstep⟩ := distributeStep_isSome hinv htc hbefore (by
        simp only [TraceContainer.size]
        omega)
      obtain ⟨c', hbefore', hcursor, hheap, hinv₁⟩ := distributeStep_inv hinv htc hstep
      have hcc : c' = c := Option.some.inj (hbefore'.symm.trans hbefore)
      subst hcc
      obtain ⟨a', hrest⟩ := ih hinv₁ (by rw [hheap]; exact htail.free hnd.1) hnd.2
        (by rw [hcursor]; exact hbehind)
        (fun i => by rw [shareOf_append, ← hshare]; exact hroom i)
      exact ⟨a', by rw [List.foldlM_cons, hstep]; exact hrest⟩

end Run

/-! ## From the trace to the workers -/

/-- The groups in the order in which the sorted map lists their LBAs. -/
def groupsOf (s : Containers P) (map : Hashmap P Nat) (bs : List Nat) : List (List P) :=
  bs.map fun b => contentOf s.heap (map.entry b)

variable {info}

/-- `hashmap_sort` and the iteration return, and list every group once. -/
theorem sortedBuckets_spec {s : Containers P} {ps : List P}
    (h : buildTraceContainers info noContainers ps = some s) :
    ∃ map bs, sortedBuckets info s = some (map, bs) ∧ Groups info ps (groupsOf s map bs) ∧
      LeadTo s.heap map bs (groupsOf s map bs) ∧
      (bs.map fun b => (map.entry b).value).Nodup := by
  obtain ⟨l, hwf, hinv⟩ := buildTraceContainers_inv h
  obtain ⟨map, hsort, hent, hsame, hch⟩ :=
    hashmapSort_spec (traceContainerCmp info) hwf.chain hwf.nodup hwf.count hwf.length_le
  obtain ⟨hperm, hrearr⟩ := mergePasses_perm (traceContainerCmp info) l.length 32 1 l s.map.entry
  rw [← hent] at hrearr
  generalize (mergePasses (traceContainerCmp info) l.length 32 1 l s.map.entry).1 = bs at hch hperm
  -- the entries on the new list are those on the old one, in another order
  have hes : (bs.map map.entry).Perm (l.map s.map.entry) :=
    (hperm.map _).trans (hrearr.map_perm hwf.nodup)
  have hvalues : (bs.map fun b => (map.entry b).value).Nodup := by
    have hp : (bs.map fun b => (map.entry b).value).Perm ((l.map s.map.entry).map Entry.value) := by
      have := hes.map Entry.value
      rwa [List.map_map] at this
    exact hp.symm.nodup hinv.values
  refine ⟨map, bs, ?_, ?_, ?_, hvalues⟩
  · have hfuel : bs.length ≤ map.count := by
      rw [hsame.count, hwf.count, hperm.length_eq]
    simp only [sortedBuckets, hsort, Option.bind_eq_bind, Option.bind_some,
      foreachHashmapBucket_eq bs map.count map.first hfuel hch]
  · have hp : (groupsOf s map bs).Perm ((l.map s.map.entry).map (contentOf s.heap)) := by
      have := hes.map (contentOf s.heap)
      rwa [List.map_map] at this
    exact (hinv.groups hwf.contents).of_perm hp
  · rw [LeadTo, groupsOf, List.forall₂_map_right_iff, List.forall₂_same]
    intro b hb
    exact (hinv.holds _ (hes.subset (List.mem_map_of_mem hb))).contentOf_eq

theorem Groups.ne_nil {ps : List P} {gs : List (List P)} (h : Groups info ps gs) :
    ∀ g ∈ gs, g ≠ [] := by
  intro g hg
  obtain ⟨k, hk, -⟩ := h.group g hg
  exact List.ne_nil_of_mem hk

/-- What the workers hold when the distribution returns. -/
theorem distribute_inv {threads validLines : Nat} {rand : Nat → Nat} {s : Containers P}
    {ps : List P} {a : AssignState P} (hthreads : 0 < threads)
    (hbuild : buildTraceContainers info noContainers ps = some s)
    (h : distribute info threads validLines rand s = some a) :
    ∃ map bs workers, sortedBuckets info s = some (map, bs) ∧
      Groups info ps (groupsOf s map bs) ∧
      assignedWorkers threads (perThreadLinesOf validLines threads) rand ⟨0, 0, 0⟩
        ((groupsOf s map bs).map List.length) = some workers ∧
      DistributeInv threads a (workers.zip (groupsOf s map bs)) := by
  obtain ⟨map, bs, hsorted, hgroups, hlead, hvalues⟩ := sortedBuckets_spec hbuild
  simp only [distribute, hsorted, Option.bind_eq_bind, Option.bind_some] at h
  obtain ⟨workers, hworkers, hinv⟩ :=
    distributeRun_inv (distributeInv_init hthreads s.heap) hlead hvalues h
  exact ⟨map, bs, workers, hsorted, hgroups, hworkers, hinv⟩

theorem sizes_ne_zero {gs : List (List P)} (hne : ∀ g ∈ gs, g ≠ []) :
    ∀ n ∈ gs.map List.length, n ≠ 0 := by
  intro n hn
  obtain ⟨g, hg, rfl⟩ := List.mem_map.mp hn
  exact fun hzero => hne g hg (List.length_eq_zero_iff.mp hzero)

theorem length_shareOf_le (assigned : List (Nat × List P)) (i : Nat) :
    (shareOf assigned i).length ≤ ((assigned.map Prod.snd).flatten).length := by
  have hsub : ((assigned.filter fun x => x.1 = i).map Prod.snd).Sublist (assigned.map Prod.snd) :=
    List.filter_sublist.map Prod.snd
  exact hsub.flatten.length_le

theorem map_snd_zip_workers {threads : Nat} {perThreadLines : Word} {rand : Nat → Nat}
    {c : Cursor} {gs : List (List P)} {workers : List Nat}
    (h : assignedWorkers threads perThreadLines rand c (gs.map List.length) = some workers) :
    (workers.zip gs).map Prod.snd = gs := by
  apply List.map_snd_zip
  have := length_assignedWorkers h
  rw [List.length_map] at this
  omega

/-- Few records fit in any worker. -/
theorem distribute_isSome {threads : Nat} (validLines : Nat) (rand : Nat → Nat)
    {s : Containers P} {ps : List P} (hthreads : 0 < threads) (hnd : ps.Nodup)
    (hlen : ps.length < 2 ^ 29) (hbuild : buildTraceContainers info noContainers ps = some s) :
    ∃ a, distribute info threads validLines rand s = some a := by
  obtain ⟨map, bs, hsorted, hgroups, hlead, hvalues⟩ := sortedBuckets_spec hbuild
  have hsize := (hgroups.flatten_perm hnd).length_eq
  obtain ⟨workers, hworkers⟩ := assignedWorkers_isSome threads
    (perThreadLinesOf validLines threads) rand (sizes_ne_zero hgroups.ne_nil) ⟨0, 0, 0⟩
  obtain ⟨a, hrun⟩ := distributeRun_isSome (distributeInv_init hthreads s.heap) hlead hvalues
    hworkers (by
      intro i
      have hle := length_shareOf_le (workers.zip (groupsOf s map bs)) i
      rw [map_snd_zip_workers hworkers] at hle
      rw [List.nil_append]
      omega)
  exact ⟨a, by simp only [distribute, hsorted, Option.bind_eq_bind, Option.bind_some, hrun]⟩

/-! ## Nothing is lost, duplicated or separated -/

theorem mem_shareOf {assigned : List (Nat × List P)} {i : Nat} {p : P} :
    p ∈ shareOf assigned i ↔ ∃ g, (i, g) ∈ assigned ∧ p ∈ g := by
  simp only [shareOf, List.mem_flatten, List.mem_map, List.mem_filter, decide_eq_true_eq]
  constructor
  · rintro ⟨g, ⟨⟨j, g'⟩, ⟨hmem, rfl⟩, rfl⟩, hp⟩
    exact ⟨g', hmem, hp⟩
  · rintro ⟨g, hmem, hp⟩
    exact ⟨g, ⟨(i, g), ⟨hmem, rfl⟩, rfl⟩, hp⟩

/-- Of any selection of whole groups, an LBA has all its records or none. -/
theorem Groups.filter_flatten {ps : List P} {gs gs' : List (List P)} (h : Groups info ps gs)
    (hsub : gs'.Sublist gs) (x : Word) :
    gs'.flatten.filter (fun p => (info p).lba = x) = [] ∨
      gs'.flatten.filter (fun p => (info p).lba = x) = ps.filter fun p => (info p).lba = x := by
  have hgroup : ∀ g ∈ gs', ∃ k ∈ g, g = sameLba info ps k := fun g hg => h.group g (hsub.subset hg)
  have hdist := h.distinct.sublist hsub
  clear hsub
  induction gs' with
  | nil => exact Or.inl rfl
  | cons g gs' ih =>
      rw [List.pairwise_cons] at hdist
      obtain ⟨k, hk, hg⟩ := hgroup g (List.mem_cons_self ..)
      rw [List.flatten_cons, List.filter_append]
      by_cases hx : (info k).lba = x
      · -- this is the group of `x`, and no other one is
        right
        have hself : g.filter (fun p => (info p).lba = x) = ps.filter fun p => (info p).lba = x := by
          rw [hg, sameLba, List.filter_filter]
          apply List.filter_congr
          intro p _
          simp [hx]
        have hrest : gs'.flatten.filter (fun p => (info p).lba = x) = [] := by
          rw [List.filter_eq_nil_iff]
          intro p hp hpx
          obtain ⟨g', hg', hpg'⟩ := List.mem_flatten.mp hp
          exact hdist.1 g' hg' k hk p hpg' (hx.trans (of_decide_eq_true hpx).symm)
        rw [hself, hrest, List.append_nil]
      · have hnone : g.filter (fun p => (info p).lba = x) = [] := by
          rw [List.filter_eq_nil_iff]
          intro p hp hpx
          rw [hg] at hp
          exact hx ((mem_sameLba.mp hp).2.symm.trans (of_decide_eq_true hpx))
        rw [hnone, List.nil_append]
        exact ih (fun g' hg' => hgroup g' (List.mem_cons_of_mem _ hg')) hdist.2

/-- Of the records of an LBA a worker has all, in trace order, or none. -/
theorem filter_shareOf {ps : List P} {gs : List (List P)} (h : Groups info ps gs)
    {assigned : List (Nat × List P)} (hgs : assigned.map Prod.snd = gs) (i : Nat) (x : Word) :
    (shareOf assigned i).filter (fun p => (info p).lba = x) = [] ∨
      (shareOf assigned i).filter (fun p => (info p).lba = x) =
        ps.filter fun p => (info p).lba = x := by
  refine h.filter_flatten ?_ x
  rw [← hgs]
  exact List.filter_sublist.map Prod.snd

/-- Two workers have no LBA in common. -/
theorem worker_unique {ps : List P} {gs : List (List P)} (h : Groups info ps gs)
    {assigned : List (Nat × List P)} (hgs : assigned.map Prod.snd = gs) {i j : Nat} {p q : P}
    (hp : p ∈ shareOf assigned i) (hq : q ∈ shareOf assigned j)
    (hlba : (info p).lba = (info q).lba) : i = j := by
  obtain ⟨g, hg, hpg⟩ := mem_shareOf.mp hp
  obtain ⟨g', hg', hqg'⟩ := mem_shareOf.mp hq
  by_contra hne
  have hpair : assigned.Pairwise fun x y =>
      ∀ p ∈ x.2, ∀ q ∈ y.2, (info p).lba ≠ (info q).lba := by
    rw [← hgs] at h
    exact List.pairwise_map.mp h.distinct
  have hsymm : Std.Symm fun x y : Nat × List P =>
      ∀ p ∈ x.2, ∀ q ∈ y.2, (info p).lba ≠ (info q).lba :=
    ⟨fun x y hxy p hp q hq => (hxy q hq p hp).symm⟩
  have hij : (i, g) ≠ (j, g') := fun heq => hne (congrArg Prod.fst heq)
  exact hpair.forall hg hg' hij p hpg q hqg' hlba

theorem DistributeInv.params_flatMap {threads : Nat} {a : AssignState P}
    {assigned : List (Nat × List P)} (h : DistributeInv threads a assigned) :
    a.params.flatMap TraceContainer.infosMap = (List.range threads).flatMap (shareOf assigned) := by
  have hmap : a.params.map TraceContainer.infosMap = (List.range threads).map (shareOf assigned) := by
    apply List.ext_getElem?
    intro i
    rw [List.getElem?_map, List.getElem?_map]
    by_cases hi : i < threads
    · obtain ⟨tc, htc⟩ : ∃ tc, a.params[i]? = some tc :=
        ⟨_, List.getElem?_eq_getElem (by rw [h.length]; exact hi)⟩
      rw [htc, List.getElem?_range hi, Option.map_some, Option.map_some, (h.share i tc htc).2]
    · rw [List.getElem?_eq_none (by rw [h.length]; omega),
        List.getElem?_eq_none (by rw [List.length_range]; omega)]
      rfl
  rw [List.flatMap_def, hmap, ← List.flatMap_def]

/-- The containers of the workers together are the records. -/
theorem distribute_perm {threads validLines : Nat} {rand : Nat → Nat} {s : Containers P}
    {ps : List P} {a : AssignState P} (hthreads : 0 < threads) (hnd : ps.Nodup)
    (hbuild : buildTraceContainers info noContainers ps = some s)
    (hrun : distribute info threads validLines rand s = some a) :
    (a.params.flatMap TraceContainer.infosMap).Perm ps := by
  obtain ⟨map, bs, workers, -, hgroups, hworkers, hinv⟩ := distribute_inv hthreads hbuild hrun
  rw [hinv.params_flatMap]
  refine (shares_perm hinv.assigned_lt).trans ?_
  rw [map_snd_zip_workers hworkers]
  exact hgroups.flatten_perm hnd

/-- The capacity of a container is an `int`, which bounds its size. -/
theorem distribute_size_le {threads validLines : Nat} {rand : Nat → Nat} {s : Containers P}
    {ps : List P} {a : AssignState P} (hthreads : 0 < threads)
    (hbuild : buildTraceContainers info noContainers ps = some s)
    (hrun : distribute info threads validLines rand s = some a) :
    ∀ tc ∈ a.params, tc.size ≤ 2 ^ 30 := by
  obtain ⟨map, bs, workers, -, -, -, hinv⟩ := distribute_inv hthreads hbuild hrun
  intro tc htc
  obtain ⟨i, hi⟩ := List.mem_iff_getElem?.mp htc
  exact (hinv.share i tc hi).1.size_le_limit

section Trace

variable (infos : List TraceInfo)

/-- The worker containers hold every record of the trace once, keep the records
    of an LBA together, and keep them in trace order. -/
structure KeepsRecords (params : List (TraceContainer (Fin infos.length))) : Prop where
  once : (params.flatMap TraceContainer.infosMap).Perm (List.finRange infos.length)
  together : ∀ (i j : Nat) (tc tc' : TraceContainer (Fin infos.length)),
    params[i]? = some tc → params[j]? = some tc' → ∀ p ∈ tc.infosMap, ∀ q ∈ tc'.infosMap,
      (infos.get p).lba = (infos.get q).lba → i = j
  inOrder : ∀ tc ∈ params, ∀ x,
    (tc.infosMap.filter fun p => (infos.get p).lba = x).Pairwise (· < ·)

/-- For every trace of fewer than `2 ^ 29` records, every thread count and all
    `rand()` results, the containers of the workers together are the trace, and
    the worker index stays below `threads` at every iteration. -/
theorem distribute_keepsRecords (threads : Nat) (rand : Nat → Nat)
    (hlen : infos.length < 2 ^ 29) (hthreads : 0 < threads) :
    ∃ s map bs a,
      buildTraceContainers infos.get noContainers (List.finRange infos.length) = some s ∧
      sortedBuckets infos.get s = some (map, bs) ∧
      distribute infos.get threads infos.length rand s = some a ∧
      KeepsRecords infos a.params ∧
      ∀ n a', (bs.take n).foldlM
          (distributeStep threads (perThreadLinesOf infos.length threads) rand map)
          (assignInit threads s.heap) = some a' → a'.cursor.curThread < threads := by
  have hnd : (List.finRange infos.length).Nodup := List.nodup_finRange _
  obtain ⟨s, hbuild⟩ := buildTraceContainers_isSome infos.get
    (show (List.finRange infos.length).length < 2 ^ 29 by rwa [List.length_finRange])
  obtain ⟨a, hrun⟩ := distribute_isSome infos.length rand hthreads hnd
    (by rwa [List.length_finRange]) hbuild
  obtain ⟨map, bs, workers, hsorted, hgroups, hworkers, hinv⟩ :=
    distribute_inv hthreads hbuild hrun
  have hsnd := map_snd_zip_workers hworkers
  refine ⟨s, map, bs, a, hbuild, hsorted, hrun, ⟨?_, ?_, ?_⟩, ?_⟩
  · exact distribute_perm hthreads hnd hbuild hrun
  · intro i j tc tc' hi hj p hp q hq hlba
    rw [(hinv.share i tc hi).2] at hp
    rw [(hinv.share j tc' hj).2] at hq
    exact worker_unique hgroups hsnd hp hq hlba
  · intro tc htc x
    obtain ⟨i, hi⟩ := List.mem_iff_getElem?.mp htc
    rw [(hinv.share i tc hi).2]
    rcases filter_shareOf hgroups hsnd i x with h | h
    · exact h ▸ List.Pairwise.nil
    · exact h ▸ (List.pairwise_lt_finRange _).filter _
  · -- the cursor is bounded at any moment of the loop, not just at its end
    intro n a' hprefix
    obtain ⟨map', bs', hsorted', -, hlead, hvalues⟩ := sortedBuckets_spec hbuild
    rw [hsorted] at hsorted'
    cases hsorted'
    have hlead' : LeadTo s.heap map (bs.take n) ((groupsOf s map bs).take n) :=
      List.forall₂_take n hlead
    have hvalues' := hvalues.sublist ((List.take_sublist n bs).map _)
    obtain ⟨_, _, hinv'⟩ := distributeRun_inv (distributeInv_init hthreads s.heap) hlead' hvalues'
      hprefix
    exact hinv'.cursor_lt

end Trace

/-- Two workers and three records of two LBAs. -/
theorem distribute_keepsRecords_sample :
    let infos := [sampleInfo 1 0 charW 0x61 32, sampleInfo 2 8 charW 0x62 32,
      sampleInfo 3 0 charW 0x63 32]
    ∃ s map bs a,
      buildTraceContainers infos.get noContainers (List.finRange infos.length) = some s ∧
      sortedBuckets infos.get s = some (map, bs) ∧
      distribute infos.get 2 infos.length (fun _ => 0) s = some a ∧
      KeepsRecords infos a.params ∧
      ∀ n a', (bs.take n).foldlM
          (distributeStep 2 (perThreadLinesOf infos.length 2) (fun _ => 0) map)
          (assignInit 2 s.heap) = some a' → a'.cursor.curThread < 2 :=
  distribute_keepsRecords _ 2 (fun _ => 0) (by decide) (by decide)

end GogetaTools.Replay
