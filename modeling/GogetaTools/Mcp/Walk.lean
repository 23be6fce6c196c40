/-
  GogetaTools.Mcp.Walk

  `mcp/src/main.cpp`: `handle_regular_file`, `handle_symbolic_link` and `cp_dir`, the
  walk over the source tree.

  The walk goes down by `fchdir` and up by `chdir("..")`, so that the working directory
  and the descriptor of the destination have to stand at the same relative path whenever
  an entry is looked at.  `Walked` says what has been done of a set of relative paths;
  it holds of one entry, composes over disjoint sets, and the sets of the entries of a
  directory make up what lies below it: `cpDir_copies`.

  What a link is given for a target is a parameter here.
-/

import GogetaTools.Lib.FileTree
import GogetaTools.Words
import Mathlib.Data.Finite.Defs
import Mathlib.Data.Set.Finite.Lattice
import Mathlib.Order.CompletePartialOrder

namespace GogetaTools.Mcp

open ByteFile FileTree

/-! ## The walk -/

/-- The bytes of `d_name`. -/
abbrev Name := List Byte

abbrev Path := List Name

abbrev Mode := Word32

abbrev FsNode := Node Mode Byte

abbrev Fs := Sys Name Mode Byte

/-- `struct dirent`. -/
structure Dirent where
  name : Name
  type : Kind
deriving DecidableEq

/-- `.` and `..`. -/
def dots : List Name := [[46], [46, 46]]

/-- A `FileWork` as the walk leaves it: a descriptor is its place in the table, and `none`
    if it is -1. -/
structure OpenedWork where
  size : Nat
  srcFd : Option Nat
  dstFd : Option Nat

/-- How the walk ends if not by returning: by an `EXIT_ON`, or because the recursion was
    not followed far enough. -/
inductive Halt
  | exitOn (fname : String)
  | depth
deriving DecidableEq

def exitOn {α : Type} (fname : String) : Option α → Except Halt α
  | none => .error (.exitOn fname)
  | some a => .ok a

/-- `DIR`: the descriptor, and the entries that `readdir` has still to return. -/
structure Dir where
  fd : Option Nat
  entries : List Dirent

/-- What the walk changes. -/
structure Walk where
  files : List OpenedWork
  sys : Fs

section Walk

-- `grant` is what the system leaves of the mode that a node is created with, `readdir`
-- the entries of a directory in their order, and `linkText` the target that the link at
-- a path is copied with.
variable (grant : Mode → Mode) (readdir : Path → List Dirent) (linkText : Path → List Byte → List Byte)

def fdopendir (sys : Fs) (fd : Option Nat) : Option Dir :=
  (sys.pathOf fd).map fun p => { fd := fd, entries := readdir p }

def handleRegularFile (de : Dirent) (dstDirFd : Option Nat) (w : Walk) : Except Halt Walk := do
  let (srcFd, sys) := w.sys.openName Node.readable (some w.sys.cwd) de.name
  let _ ← exitOn "open" srcFd
  let statbuf ← exitOn "stat" (sys.fstat srcFd)
  -- Whether this one fails is not asked.
  let (dstFd, sys) := sys.create grant (sys.pathOf dstDirFd) de.name statbuf.mode
  .ok { files := w.files ++ [{ size := statbuf.size, srcFd := srcFd, dstFd := dstFd }], sys := sys }

def handleSymbolicLink (dstFd : Option Nat) (de : Dirent) (w : Walk) : Except Halt Walk := do
  let target ← exitOn "readlink" (w.sys.readlink de.name)
  let sys ← exitOn "symlink"
    (w.sys.symlinkat (linkText (w.sys.cwd ++ [de.name]) target) (w.sys.pathOf dstFd) de.name)
  .ok { w with sys := sys }

/-- The directory of the destination; that there is one already is no error. -/
def makeDst (sys : Fs) (dstFd : Option Nat) (name : Name) (mode : Mode) : Except Halt Fs :=
  match sys.mkdirat grant (sys.pathOf dstFd) name mode with
  | .ok sys => .ok sys
  | .error .eexist => .ok sys
  | .error .other => .error (.exitOn "mkdirat")

/-- The case `DT_DIR`, with the call of `cp_dir` left open. -/
def cpSubdir (cpDir : Dir → Option Nat → Walk → Except Halt Walk) (dstFd : Option Nat) (de : Dirent)
    (w : Walk) : Except Halt Walk := do
  let (srcFd2, sys) := w.sys.openName Node.isDir (some w.sys.cwd) de.name
  let dirStat ← exitOn "fstat" (sys.fstat srcFd2)
  let sys ← makeDst grant sys dstFd de.name dirStat.mode
  let (dstFd2, sys) := sys.openName Node.isDir (sys.pathOf dstFd) de.name
  -- The test is of `dst_fd`, not of what was opened.
  let _ ← exitOn "openat" dstFd
  let sys ← exitOn "fchdir" (sys.fchdir srcFd2)
  let src2 ← exitOn "opendir" (fdopendir readdir sys srcFd2)
  let w ← cpDir src2 dstFd2 { w with sys := sys }
  let sys ← exitOn "closedir" (w.sys.chdirUp.close src2.fd)
  let sys ← exitOn "close" (sys.close dstFd2)
  .ok { w with sys := sys }

/-- The body of the loop over `readdir`. -/
def cpEntry (cpDir : Dir → Option Nat → Walk → Except Halt Walk) (dstFd : Option Nat) (w : Walk)
    (de : Dirent) : Except Halt Walk :=
  if de.name ∈ dots then .ok w
  else
    match de.type with
    | .reg => handleRegularFile grant de dstFd w
    | .link => handleSymbolicLink linkText dstFd de w
    | .dir => cpSubdir grant readdir cpDir dstFd de w
    | .other => .ok w

/-- `cp_dir`, its recursion followed `depth` calls deep. -/
def cpDir : (depth : Nat) → Dir → Option Nat → Walk → Except Halt Walk
  | 0, _, _, _ => .error .depth
  | depth + 1, src, dstFd, w => src.entries.foldlM (cpEntry grant readdir linkText (cpDir depth) dstFd) w

end Walk

/-! ## The source tree -/

/-- A tree by the relative paths of its nodes. -/
abbrev Tree := Path → Option FsNode

/-- A finite tree of which `readdir` tells the truth: it lists every entry of a directory
    once, with its type; `.` and `..` may be among them. -/
structure SourceTree (readdir : Path → List Dirent) (tree : Tree) : Prop where
  root : ∃ mode, tree [] = some (.dir mode)
  parent : ∀ q name x, tree (q ++ [name]) = some x → ∃ mode, tree q = some (.dir mode)
  finite : {q | tree q ≠ none}.Finite
  noDots : ∀ q, ∀ name ∈ dots, tree (q ++ [name]) = none
  distinct : ∀ q mode, tree q = some (.dir mode) → ((readdir q).map Dirent.name).Nodup
  listed : ∀ q mode, tree q = some (.dir mode) → ∀ de : Dirent, de.name ∉ dots →
    (de ∈ readdir q ↔ ∃ x, tree (q ++ [de.name]) = some x ∧ x.kind = de.type)

section Source

variable {readdir : Path → List Dirent} {tree : Tree}

/-- Only below a directory is there anything. -/
theorem SourceTree.beneath (hsrc : SourceTree readdir tree) {p : Path}
    (hp : ∀ mode, tree p ≠ some (.dir mode)) : ∀ r ≠ [], tree (p ++ r) = none := by
  -- Induction on the rest of the path from its end: what is there has a directory above.
  intro r
  induction r using List.reverseRecOn with
  | nil => intro hne; exact absurd rfl hne
  | append_singleton r name ih =>
    intro _
    by_contra hsome
    obtain ⟨x, hx⟩ := Option.ne_none_iff_exists'.mp hsome
    rw [← List.append_assoc] at hx
    obtain ⟨mode, hmode⟩ := hsrc.parent _ _ _ hx
    by_cases hr : r = []
    · subst hr
      rw [List.append_nil] at hmode
      exact hp mode hmode
    · rw [ih hr] at hmode
      cases hmode

/-- The tree is of some height. -/
theorem SourceTree.height (hsrc : SourceTree readdir tree) :
    ∃ height, ∀ q, tree q ≠ none → q.length < height := by
  obtain ⟨m, hm⟩ := (hsrc.finite.image List.length).bddAbove
  refine ⟨m + 1, fun q hq => ?_⟩
  have hle := hm (Set.mem_image_of_mem List.length hq)
  omega

end Source

/-! ## What has been done of a set of paths -/

/-- What becomes of `old` at the destination where the source has `x`. -/
def copyOver (grant : Mode → Mode) (text : List Byte → List Byte) (x old : Option FsNode) :
    Option FsNode :=
  match x, old with
  | some (.dir mode), none => some (.dir (grant mode))
  | some (.reg mode _), none => some (.reg (grant mode) File.empty)
  | some (.reg _ _), some (.reg mode _) => some (.reg mode File.empty)
  | some (.link target), none => some (.link (text target))
  | _, old => old

/-- What the walk can go over: a directory or a regular file may be there already. -/
def Admits (x old : Option FsNode) : Prop :=
  match x with
  | some (.dir _) => old = none ∨ ∃ mode, old = some (.dir mode)
  | some (.reg _ _) => old = none ∨ ∃ mode file, old = some (.reg mode file)
  | some (.link _) => old = none
  | some .other | none => True

@[simp] theorem copyOver_none (grant : Mode → Mode) (text : List Byte → List Byte)
    (old : Option FsNode) : copyOver grant text none old = old := rfl

theorem admits_none (x : Option FsNode) : Admits x none := by
  rcases x with _ | (_ | _ | _ | _) <;> simp [Admits]

section Regions

/-- A path and all below it. -/
def subtree (p : Path) : Set Path := {q | p <+: q}

/-- All below a path. -/
def below (p : Path) : Set Path := {q | p <+: q ∧ q ≠ p}

/-- What the entries of a directory make up. -/
def entriesRegion (b : Path) (es : List Dirent) : Set Path :=
  {q | ∃ de ∈ es, q ∈ subtree (b ++ [de.name])}

theorem mem_subtree_iff {p q : Path} : q ∈ subtree p ↔ ∃ r, q = p ++ r := by
  refine ⟨fun ⟨r, hr⟩ => ⟨r, hr.symm⟩, fun ⟨r, hr⟩ => ⟨r, hr.symm⟩⟩

theorem mem_below_iff {p q : Path} : q ∈ below p ↔ ∃ r, r ≠ [] ∧ q = p ++ r := by
  refine ⟨fun ⟨⟨r, hr⟩, hne⟩ => ⟨r, ?_, hr.symm⟩, fun ⟨r, hne, hr⟩ => ⟨⟨r, hr.symm⟩, ?_⟩⟩
  · intro hnil
    subst hnil
    exact hne (by rw [← hr, List.append_nil])
  · rw [hr]
    simpa using hne

theorem subtree_eq (p : Path) : subtree p = {p} ∪ below p := by
  ext q
  simp only [Set.mem_union, Set.mem_singleton_iff, subtree, below, Set.mem_ofPred_eq]
  refine ⟨fun h => ?_, fun h => ?_⟩
  · by_cases hq : q = p
    · exact Or.inl hq
    · exact Or.inr ⟨h, hq⟩
  · rcases h with rfl | ⟨h, -⟩
    · exact List.prefix_refl _
    · exact h

theorem disjoint_self_below (p : Path) : Disjoint {p} (below p) := by
  rw [Set.disjoint_singleton_left]
  exact fun h => h.2 rfl

theorem entriesRegion_cons (b : Path) (de : Dirent) (es : List Dirent) :
    entriesRegion b (de :: es) = subtree (b ++ [de.name]) ∪ entriesRegion b es := by
  ext q
  simp only [entriesRegion, List.mem_cons, exists_eq_or_imp, Set.mem_ofPred_eq, Set.mem_union]

theorem entriesRegion_subset (b : Path) (es : List Dirent) : entriesRegion b es ⊆ below b := by
  rintro q ⟨de, -, hq⟩
  obtain ⟨r, rfl⟩ := mem_subtree_iff.mp hq
  exact mem_below_iff.mpr ⟨de.name :: r, List.cons_ne_nil _ _, by rw [List.append_assoc]; rfl⟩

/-- Different names have nothing below them in common. -/
theorem disjoint_subtree_entries {b : Path} {de : Dirent} {es : List Dirent}
    (hname : de.name ∉ es.map Dirent.name) :
    Disjoint (subtree (b ++ [de.name])) (entriesRegion b es) := by
  rw [Set.disjoint_left]
  rintro q hq ⟨de', hde', hq'⟩
  have hpre : b ++ [de.name] <+: b ++ [de'.name] :=
    List.prefix_of_prefix_length_le hq hq' (by simp)
  have heq : b ++ [de.name] = b ++ [de'.name] := hpre.eq_of_length (by simp)
  have hnames : de.name = de'.name := by simpa using heq
  exact hname (hnames ▸ List.mem_map_of_mem hde')

end Regions

section Walked

variable (grant : Mode → Mode) (linkText : Path → List Byte → List Byte) (s d : Path) (tree : Tree)

/-- The entry of a regular file: its two descriptors stand at the same relative path. -/
structure OpenedAt (sys : Fs) (q : Path) (work : OpenedWork) : Prop where
  src : sys.pathOf work.srcFd = some (s ++ q)
  dst : sys.pathOf work.dstFd = some (d ++ q)
  size : ∃ mode file, tree q = some (.reg mode file) ∧ work.size = file.size

/-- From `sys` to `sys'` the paths of `A`, and nothing else, have been copied, and `new` are
    the entries of the regular files among them. -/
structure Walked (A : Set Path) (sys sys' : Fs) (new : List OpenedWork) : Prop where
  made : ∀ q ∈ A, sys'.node (d ++ q) =
    copyOver grant (linkText (s ++ q)) (tree q) (sys.node (d ++ q))
  frame : ∀ p, (∀ q ∈ A, p ≠ d ++ q) → sys'.node p = sys.node p
  keeps : ∀ fd p, sys.pathOf fd = some p → sys'.pathOf fd = some p
  works : ∃ rels : List Path, rels.Nodup ∧
    (∀ q, q ∈ rels ↔ q ∈ A ∧ ∃ mode file, tree q = some (.reg mode file)) ∧
    List.Forall₂ (OpenedAt s d tree sys') rels new

/-- All that is at the destination on `A` may be gone over. -/
def Ready (A : Set Path) (sys : Fs) : Prop := ∀ q ∈ A, Admits (tree q) (sys.node (d ++ q))

/-- The walk stands at `b` on both sides. -/
structure At (b : Path) (sys : Fs) (dstFd : Option Nat) : Prop where
  source : ∀ q, sys.node (s ++ q) = tree q
  cwd : sys.cwd = s ++ b
  dst : sys.pathOf dstFd = some (d ++ b)

end Walked

section Compose

variable {grant : Mode → Mode} {linkText : Path → List Byte → List Byte} {s d : Path} {tree : Tree}
variable {A B : Set Path} {sys sys₁ sys₂ : Fs} {new new₁ new₂ : List OpenedWork}

/-- Opened files stay so while their descriptors do. -/
theorem OpenedAt.mono {q : Path} {work : OpenedWork} (h : OpenedAt s d tree sys q work)
    (hkeeps : ∀ fd p, sys.pathOf fd = some p → p = s ++ q ∨ p = d ++ q → sys₁.pathOf fd = some p) :
    OpenedAt s d tree sys₁ q work :=
  { src := hkeeps _ _ h.src (Or.inl rfl)
    dst := hkeeps _ _ h.dst (Or.inr rfl)
    size := h.size }

/-- Where the source has nothing, or nothing that is copied, nothing is to be done. -/
theorem Walked.skip (h : ∀ q ∈ A, tree q = none ∨ tree q = some .other) :
    Walked grant linkText s d tree A sys sys [] := by
  refine ⟨fun q hq => ?_, fun _ _ => rfl, fun _ _ h => h, [], List.nodup_nil, fun q => ?_, .nil⟩
  · rcases h q hq with hq | hq <;> rw [hq]
    · rfl
    · cases sys.node (d ++ q) <;> rfl
  · refine ⟨fun h => absurd h List.not_mem_nil, ?_⟩
    rintro ⟨hq, mode, file, hreg⟩
    rcases h q hq with h | h <;> rw [h] at hreg <;> cases hreg

theorem Walked.trans (hAB : Disjoint A B) (h₁ : Walked grant linkText s d tree A sys sys₁ new₁)
    (h₂ : Walked grant linkText s d tree B sys₁ sys₂ new₂) :
    Walked grant linkText s d tree (A ∪ B) sys sys₂ (new₁ ++ new₂) := by
  have hne : ∀ q ∈ A, ∀ r ∈ B, d ++ q ≠ d ++ r := by
    intro q hq r hr heq
    rw [List.append_cancel_left heq] at hq
    exact Set.disjoint_left.mp hAB hq hr
  obtain ⟨rels₁, hnodup₁, hmem₁, hall₁⟩ := h₁.works
  obtain ⟨rels₂, hnodup₂, hmem₂, hall₂⟩ := h₂.works
  refine ⟨?_, ?_, ?_, rels₁ ++ rels₂, ?_, ?_, ?_⟩
  · rintro q (hq | hq)
    · rw [h₂.frame _ (hne q hq), h₁.made q hq]
    · rw [h₂.made q hq, h₁.frame _ fun r hr => Ne.symm (hne r hr q hq)]
  · intro p hp
    rw [h₂.frame p fun q hq => hp q (Or.inr hq), h₁.frame p fun q hq => hp q (Or.inl hq)]
  · exact fun fd p h => h₂.keeps fd p (h₁.keeps fd p h)
  · refine List.Nodup.append hnodup₁ hnodup₂ ?_
    intro q hq₁ hq₂
    exact Set.disjoint_left.mp hAB ((hmem₁ q).mp hq₁).1 ((hmem₂ q).mp hq₂).1
  · intro q
    rw [List.mem_append, hmem₁, hmem₂, Set.mem_union, or_and_right]
  · refine List.rel_append (hall₁.imp fun q work h => ?_) hall₂
    exact h.mono fun fd p hp _ => h₂.keeps fd p hp

/-- Paths that the source does not have may be added. -/
theorem Walked.widen (h : Walked grant linkText s d tree A sys sys₁ new) (hAB : A ⊆ B)
    (hnone : ∀ q ∈ B, q ∉ A → tree q = none) : Walked grant linkText s d tree B sys sys₁ new := by
  obtain ⟨rels, hnodup, hmem, hall⟩ := h.works
  refine ⟨?_, ?_, h.keeps, rels, hnodup, ?_, hall⟩
  · intro q hq
    by_cases hqA : q ∈ A
    · exact h.made q hqA
    · rw [hnone q hq hqA, copyOver_none]
      refine h.frame _ fun r hr heq => hqA ?_
      rwa [List.append_cancel_left heq]
  · exact fun p hp => h.frame p fun q hq => hp q (hAB hq)
  · intro q
    rw [hmem]
    refine ⟨fun ⟨hq, hreg⟩ => ⟨hAB hq, hreg⟩, fun ⟨hq, hreg⟩ => ⟨?_, hreg⟩⟩
    by_contra hqA
    obtain ⟨mode, file, hreg⟩ := hreg
    rw [hnone q hq hqA] at hreg
    cases hreg

/-- A change of the working directory is none of the tree. -/
theorem Walked.congr {sys' sys₁' : Fs} (h : Walked grant linkText s d tree A sys sys₁ new)
    (hnode : sys'.node = sys.node) (hfds : sys'.fds = sys.fds) (hnode₁ : sys₁'.node = sys₁.node)
    (hfds₁ : sys₁'.fds = sys₁.fds) : Walked grant linkText s d tree A sys' sys₁' new := by
  have hpath : ∀ fd, sys'.pathOf fd = sys.pathOf fd := fun fd => pathOf_congr hfds
  have hpath₁ : ∀ fd, sys₁'.pathOf fd = sys₁.pathOf fd := fun fd => pathOf_congr hfds₁
  obtain ⟨rels, hnodup, hmem, hall⟩ := h.works
  refine ⟨?_, ?_, ?_, rels, hnodup, hmem, hall.imp fun q work hw => hw.mono fun fd p hp _ => ?_⟩
  · rw [hnode, hnode₁]
    exact h.made
  · rw [hnode, hnode₁]
    exact h.frame
  · intro fd p
    rw [hpath, hpath₁]
    exact h.keeps fd p
  · rw [hpath₁]
    exact hp

/-- A descriptor that stands at neither of the two files may be closed. -/
theorem OpenedAt.release {n : Nat} {p₀ q : Path} {work : OpenedWork} (h : OpenedAt s d tree sys q work)
    (hn : sys.pathOf (some n) = some p₀)
    (hp₀ : ∀ mode file, tree q = some (.reg mode file) → p₀ ≠ s ++ q ∧ p₀ ≠ d ++ q) :
    OpenedAt s d tree (sys.release n) q work := by
  obtain ⟨mode, file, hreg, -⟩ := h.size
  obtain ⟨hs, hd⟩ := hp₀ mode file hreg
  refine h.mono fun fd p hp hpq => pathOf_release hp fun heq => ?_
  rw [heq, hn] at hp
  cases hp
  exact hpq.elim hs hd

/-- A descriptor that was opened on the way, and not for a regular file, may be closed. -/
theorem Walked.release {n : Nat} {p₀ : Path} (h : Walked grant linkText s d tree A sys sys₁ new)
    (hfree : sys.pathOf (some n) = none) (hn : sys₁.pathOf (some n) = some p₀)
    (hp₀ : ∀ q mode file, tree q = some (.reg mode file) → p₀ ≠ s ++ q ∧ p₀ ≠ d ++ q) :
    Walked grant linkText s d tree A sys (sys₁.release n) new := by
  obtain ⟨rels, hnodup, hmem, hall⟩ := h.works
  refine ⟨h.made, h.frame, ?_, rels, hnodup, hmem, hall.imp fun q work hw => hw.release hn (hp₀ q)⟩
  intro fd p hp
  refine pathOf_release (h.keeps fd p hp) fun heq => ?_
  rw [heq, hfree] at hp
  cases hp

/-- A node of the source below which there is nothing is done by one change. -/
theorem Walked.single {p : Path} (hbelow : ∀ r ≠ [], tree (p ++ r) = none)
    (hnode : sys₁.node = Function.update sys.node (d ++ p)
      (copyOver grant (linkText (s ++ p)) (tree p) (sys.node (d ++ p))))
    (hkeeps : ∀ fd p, sys.pathOf fd = some p → sys₁.pathOf fd = some p)
    (hworks : (∀ mode file, tree p ≠ some (.reg mode file)) ∧ new = [] ∨
      ∃ work, new = [work] ∧ OpenedAt s d tree sys₁ p work) :
    Walked grant linkText s d tree (subtree p) sys sys₁ new := by
  -- first for the node alone, then for the empty tree below it
  have hone : Walked grant linkText s d tree {p} sys sys₁ new := by
    refine ⟨?_, ?_, hkeeps, ?_⟩
    · rintro q rfl
      rw [hnode, Function.update_self]
    · intro r hr
      rw [hnode, Function.update_of_ne (hr p rfl)]
    · rcases hworks with ⟨hno, rfl⟩ | ⟨work, rfl, hwork⟩
      · refine ⟨[], List.nodup_nil, fun q => ?_, .nil⟩
        refine ⟨fun h => absurd h List.not_mem_nil, ?_⟩
        rintro ⟨rfl, mode, file, hreg⟩
        exact absurd hreg (hno mode file)
      · obtain ⟨mode, file, hreg, -⟩ := hwork.size
        refine ⟨[p], List.nodup_singleton p, fun q => ?_, .cons hwork .nil⟩
        rw [List.mem_singleton]
        exact ⟨fun h => ⟨h, mode, file, h ▸ hreg⟩, fun h => h.1⟩
  refine hone.widen ?_ ?_
  · rintro q rfl
    exact List.prefix_refl _
  · intro q hq hne
    obtain ⟨r, rfl⟩ := mem_subtree_iff.mp hq
    refine hbelow r fun hnil => hne ?_
    rw [hnil, List.append_nil]
    rfl

/-- What has been done of one set leaves the other as it is. -/
theorem Walked.node_of_disjoint (h : Walked grant linkText s d tree A sys sys₁ new) (hAB : Disjoint A B)
    {q : Path} (hq : q ∈ B) : sys₁.node (d ++ q) = sys.node (d ++ q) := by
  refine h.frame _ fun r hr heq => ?_
  rw [List.append_cancel_left heq] at hq
  exact Set.disjoint_left.mp hAB hr hq

theorem Ready.walked (hB : Ready d tree B sys) (hAB : Disjoint A B)
    (h : Walked grant linkText s d tree A sys sys₁ new) : Ready d tree B sys₁ := by
  intro q hq
  rw [h.node_of_disjoint hAB hq]
  exact hB q hq

theorem At.walked {b : Path} {dstFd : Option Nat} (hat : At s d tree b sys dstFd)
    (hapart : ∀ q r, s ++ q ≠ d ++ r) (h : Walked grant linkText s d tree A sys sys₁ new)
    (hcwd : sys₁.cwd = sys.cwd) : At s d tree b sys₁ dstFd :=
  { source := fun q => by rw [h.frame _ fun r _ => hapart q r, hat.source]
    cwd := hcwd.trans hat.cwd
    dst := h.keeps _ _ hat.dst }

end Compose

/-! ## One entry -/

section Entry

variable {grant : Mode → Mode} {linkText : Path → List Byte → List Byte} {s d : Path} {tree : Tree}
variable {readdir : Path → List Dirent} {sys : Fs} {b : Path} {name : Name} {dstFd : Option Nat}

/-- `f` returns, with the working directory as it was, the paths of `A` copied, and their
    regular files behind those there were. -/
def Copies (grant : Mode → Mode) (linkText : Path → List Byte → List Byte) (s d : Path) (tree : Tree)
    (A : Set Path) (sys : Fs) (f : Walk → Except Halt Walk) : Prop :=
  ∀ files, ∃ sys' new, f { files := files, sys := sys } = .ok { files := files ++ new, sys := sys' } ∧
    sys'.cwd = sys.cwd ∧ Walked grant linkText s d tree A sys sys' new

theorem create_of_admits {p : Path} {mode : Mode} {file : File Byte} (text : List Byte → List Byte)
    (h : Admits (some (.reg mode file)) (sys.node (p ++ [name]))) :
    sys.create grant (some p) name mode = (some sys.freeFd, { sys with
      node := Function.update sys.node (p ++ [name])
        (copyOver grant text (some (.reg mode file)) (sys.node (p ++ [name]))) }.install (p ++ [name])) := by
  rcases h with h | ⟨mode', file', h⟩
  · simp only [Sys.create, h, copyOver]
  · simp only [Sys.create, h, copyOver]

theorem makeDst_of_admits {p : Path} {mode : Mode} (text : List Byte → List Byte)
    (hdst : sys.pathOf dstFd = some p) (h : Admits (some (.dir mode)) (sys.node (p ++ [name]))) :
    makeDst grant sys dstFd name mode = .ok { sys with
      node := Function.update sys.node (p ++ [name])
        (copyOver grant text (some (.dir mode)) (sys.node (p ++ [name]))) } := by
  rcases h with h | ⟨mode', h⟩
  · simp only [makeDst, Sys.mkdirat, hdst, h, copyOver]
  · -- `EEXIST`: the directory stays as it is.
    simp only [makeDst, Sys.mkdirat, hdst, h, copyOver]
    rw [← h, Function.update_eq_self]

theorem handleRegularFile_copies {mode : Mode} {file : File Byte} (hsrc : SourceTree readdir tree)
    (hat : At s d tree b sys dstFd) (hready : Ready d tree (subtree (b ++ [name])) sys)
    (hreg : tree (b ++ [name]) = some (.reg mode file)) :
    Copies grant linkText s d tree (subtree (b ++ [name])) sys
      (handleRegularFile grant { name := name, type := .reg } dstFd) := by
  intro files
  set p := b ++ [name] with hp
  have hsrcPath : sys.cwd ++ [name] = s ++ p := by rw [hat.cwd, hp, List.append_assoc]
  have hnode : sys.node (s ++ p) = some (.reg mode file) := by rw [hat.source, hreg]
  -- The source is opened and asked for its size.
  set sys₁ := sys.install (s ++ p) with hsys₁
  have hopen : sys.openName Node.readable (some sys.cwd) name = (some sys.freeFd, sys₁) := by
    rw [openName_of_node (by rw [hsrcPath]; exact hnode) rfl, hsrcPath]
  have hfd₁ : sys₁.pathOf (some sys.freeFd) = some (s ++ p) := pathOf_install_self
  have hstat : sys₁.fstat (some sys.freeFd) = some ⟨mode, file.size⟩ := by
    rw [fstat_of_open hfd₁ hnode]
    rfl
  -- The destination is created.
  have hdst₁ : sys₁.pathOf dstFd = some (d ++ b) := pathOf_install hat.dst
  have hdstPath : d ++ b ++ [name] = d ++ p := by rw [hp, List.append_assoc]
  have hadm : Admits (some (.reg mode file)) (sys₁.node (d ++ b ++ [name])) := by
    have h := hready p (List.prefix_refl _)
    rw [hreg] at h
    rw [hdstPath]
    exact h
  have hcreate : sys₁.create grant (some (d ++ b)) name mode = _ :=
    create_of_admits (linkText (s ++ p)) hadm
  rw [hdstPath] at hcreate
  set sys₂ := Sys.install { sys₁ with
    node := Function.update sys₁.node (d ++ p)
      (copyOver grant (linkText (s ++ p)) (some (.reg mode file)) (sys₁.node (d ++ p))) } (d ++ p) with hsys₂
  have hrun : handleRegularFile grant { name := name, type := .reg } dstFd { files := files, sys := sys } =
      .ok { files := files ++ [⟨file.size, some sys.freeFd, some sys₁.freeFd⟩], sys := sys₂ } := by
    simp only [handleRegularFile, hopen, hstat, hdst₁, hcreate, exitOn, bind, Except.bind]
  refine ⟨sys₂, _, hrun, rfl, ?_⟩
  have hkeeps₁ : ∀ fd r, sys₁.pathOf fd = some r → sys₂.pathOf fd = some r := by
    intro fd r h
    refine pathOf_install ?_
    rw [pathOf_congr rfl]
    exact h
  refine Walked.single (hsrc.beneath fun mode' h => ?_) ?_ ?_ (Or.inr ⟨_, rfl, ?_⟩)
  · rw [hreg] at h
    cases h
  · rw [hreg]
    rfl
  · exact fun fd r h => hkeeps₁ fd r (pathOf_install h)
  · exact { src := hkeeps₁ _ _ hfd₁
            dst := pathOf_install_self
            size := ⟨mode, file, hreg, rfl⟩ }

theorem handleSymbolicLink_copies {target : List Byte} (hsrc : SourceTree readdir tree)
    (hat : At s d tree b sys dstFd) (hready : Ready d tree (subtree (b ++ [name])) sys)
    (hlink : tree (b ++ [name]) = some (.link target)) :
    Copies grant linkText s d tree (subtree (b ++ [name])) sys
      (handleSymbolicLink linkText dstFd { name := name, type := .link }) := by
  intro files
  set p := b ++ [name] with hp
  have hsrcPath : sys.cwd ++ [name] = s ++ p := by rw [hat.cwd, hp, List.append_assoc]
  have hdstPath : d ++ b ++ [name] = d ++ p := by rw [hp, List.append_assoc]
  have hread : sys.readlink name = some target :=
    readlink_of_node (by rw [hsrcPath, hat.source, hlink])
  -- `symlinkat` fails on an existing name, so nothing may be there
  have hnone : sys.node (d ++ p) = none := by
    have h := hready p (List.prefix_refl _)
    rw [hlink] at h
    exact h
  set sys₁ : Fs := { sys with
    node := Function.update sys.node (d ++ p) (some (.link (linkText (s ++ p) target))) } with hsys₁
  have hmake : sys.symlinkat (linkText (s ++ p) target) (some (d ++ b)) name = some sys₁ := by
    simp only [Sys.symlinkat, hdstPath, hnone, hsys₁]
  have hrun : handleSymbolicLink linkText dstFd { name := name, type := .link }
      { files := files, sys := sys } = .ok { files := files ++ [], sys := sys₁ } := by
    simp only [handleSymbolicLink, hread, hsrcPath, hat.dst, hmake, exitOn, bind, Except.bind,
      List.append_nil]
  refine ⟨sys₁, [], hrun, rfl, Walked.single (hsrc.beneath fun mode h => ?_) ?_ (fun _ _ h => h) (Or.inl ⟨?_, rfl⟩)⟩
  · rw [hlink] at h
    cases h
  · rw [hlink, hnone]
    rfl
  · intro mode file h
    rw [hlink] at h
    cases h

/-- What a call of `cp_dir` on the directory `b` does. -/
def Walks (grant : Mode → Mode) (readdir : Path → List Dirent) (linkText : Path → List Byte → List Byte)
    (s d : Path) (tree : Tree) (b : Path) (f : Dir → Option Nat → Walk → Except Halt Walk) : Prop :=
  ∀ fd dstFd sys, At s d tree b sys dstFd → Ready d tree (below b) sys →
    Copies grant linkText s d tree (below b) sys (f { fd := fd, entries := readdir (s ++ b) } dstFd)

/-- The directory `p` is there on both sides, under the two descriptors. -/
structure Entered (grant : Mode → Mode) (linkText : Path → List Byte → List Byte) (s d : Path) (tree : Tree)
    (p : Path) (sys sys' : Fs) (srcFd dstFd : Nat) : Prop where
  head : Walked grant linkText s d tree {p} sys sys' []
  src : sys'.pathOf (some srcFd) = some (s ++ p)
  dst : sys'.pathOf (some dstFd) = some (d ++ p)
  srcFresh : sys.pathOf (some srcFd) = none
  dstFresh : sys.pathOf (some dstFd) = none

theorem entered {mode : Mode} {p : Path} {made : Option FsNode} (hdir : tree p = some (.dir mode))
    (hmade : made = copyOver grant (linkText (s ++ p)) (some (.dir mode)) (sys.node (d ++ p)))
    {sys₁ sys₂ : Fs} (hsys₁ : sys₁ = sys.install (s ++ p))
    (hsys₂ : sys₂ = { sys₁ with node := Function.update sys.node (d ++ p) made }) :
    Entered grant linkText s d tree p sys (sys₂.install (d ++ p)) sys.freeFd sys₂.freeFd := by
  have hpath₂ : ∀ fd, sys₂.pathOf fd = sys₁.pathOf fd := fun _ => pathOf_congr (by rw [hsys₂])
  have hkeeps₂ : ∀ fd r, sys.pathOf fd = some r → sys₂.pathOf fd = some r := by
    intro fd r h
    rw [hpath₂, hsys₁]
    exact pathOf_install h
  refine { head := ⟨?_, ?_, ?_, [], List.nodup_nil, fun q => ?_, .nil⟩, src := ?_,
           dst := pathOf_install_self, srcFresh := pathOf_freeFd, dstFresh := ?_ }
  · rintro q rfl
    rw [hdir, node_install, hsys₂, ← hmade]
    exact Function.update_self ..
  · intro r hr
    rw [node_install, hsys₂]
    exact Function.update_of_ne (hr p rfl) ..
  · exact fun fd r h => pathOf_install (hkeeps₂ fd r h)
  · refine ⟨fun h => absurd h List.not_mem_nil, ?_⟩
    rintro ⟨rfl, mode', file, hreg⟩
    rw [hdir] at hreg
    cases hreg
  · refine pathOf_install ?_
    rw [hpath₂, hsys₁]
    exact pathOf_install_self
  · -- what is open in `sys` is open in `sys₂`, so its number is not free
    by_contra hopen
    obtain ⟨r, hr⟩ := Option.ne_none_iff_exists'.mp hopen
    exact ne_freeFd (hkeeps₂ _ r hr) rfl

/-- The closing of the two descriptors, after what is below has been copied. -/
theorem Entered.leave {p : Path} {mode : Mode} {sys₃ sys₅ : Fs} {srcFd dstFd : Nat} {new : List OpenedWork}
    (h : Entered grant linkText s d tree p sys sys₃ srcFd dstFd) (hapart : ∀ q r, s ++ q ≠ d ++ r)
    (hdir : tree p = some (.dir mode))
    (hwalked : Walked grant linkText s d tree (below p) sys₃ sys₅ new) :
    sys₅.close (some srcFd) = some (sys₅.release srcFd) ∧
      (sys₅.release srcFd).close (some dstFd) = some ((sys₅.release srcFd).release dstFd) ∧
      Walked grant linkText s d tree (subtree p) sys ((sys₅.release srcFd).release dstFd) new := by
  have hsrc := hwalked.keeps _ _ h.src
  have hdst := hwalked.keeps _ _ h.dst
  have hne : (some dstFd : Option Nat) ≠ some srcFd := by
    intro heq
    rw [heq, hsrc] at hdst
    exact hapart p p (Option.some.inj hdst)
  have hdst' : (sys₅.release srcFd).pathOf (some dstFd) = some (d ++ p) := pathOf_release hdst hne
  -- Neither is the descriptor of a regular file: they stand at a directory.
  have hnotReg : ∀ q mode' file, tree q = some (.reg mode' file) → p ≠ q := by
    rintro q mode' file hreg rfl
    rw [hdir] at hreg
    cases hreg
  have hboth : Walked grant linkText s d tree (subtree p) sys sys₅ new := by
    rw [subtree_eq]
    exact h.head.trans (disjoint_self_below p) hwalked
  refine ⟨close_of_open hsrc, close_of_open hdst', ?_⟩
  refine (hboth.release h.srcFresh hsrc fun q mode' file hreg => ?_).release h.dstFresh hdst'
    fun q mode' file hreg => ?_
  · exact ⟨fun heq => hnotReg q mode' file hreg (List.append_cancel_left heq), hapart p q⟩
  · exact ⟨(hapart q p).symm, fun heq => hnotReg q mode' file hreg (List.append_cancel_left heq)⟩

/-- The way down: both directories are opened, and what is left is the call and the
    closing. -/
theorem cpSubdir_enters {mode : Mode} (hapart : ∀ q r, s ++ q ≠ d ++ r) (hat : At s d tree b sys dstFd)
    (hadm : Admits (some (.dir mode)) (sys.node (d ++ (b ++ [name]))))
    (hdir : tree (b ++ [name]) = some (.dir mode)) :
    ∃ sys₃ srcFd2 dstFd2, Entered grant linkText s d tree (b ++ [name]) sys sys₃ srcFd2 dstFd2 ∧
      sys₃.cwd = sys.cwd ∧
      ∀ (cpDir : Dir → Option Nat → Walk → Except Halt Walk) (files : List OpenedWork),
        cpSubdir grant readdir cpDir dstFd { name := name, type := .dir } { files := files, sys := sys } =
          (do
            let w ← cpDir { fd := some srcFd2, entries := readdir (s ++ (b ++ [name])) } (some dstFd2)
              { files := files, sys := { sys₃ with cwd := s ++ (b ++ [name]) } }
            let sys ← exitOn "closedir" (w.sys.chdirUp.close (some srcFd2))
            let sys ← exitOn "close" (sys.close (some dstFd2))
            .ok { w with sys := sys }) := by
  set p := b ++ [name] with hp
  have hsrcPath : sys.cwd ++ [name] = s ++ p := by rw [hat.cwd, hp, List.append_assoc]
  have hdstPath : d ++ b ++ [name] = d ++ p := by rw [hp, List.append_assoc]
  have hnode : sys.node (s ++ p) = some (.dir mode) := by rw [hat.source, hdir]
  -- The source directory is opened.
  set sys₁ := sys.install (s ++ p) with hsys₁
  have hopen : sys.openName Node.isDir (some sys.cwd) name = (some sys.freeFd, sys₁) := by
    rw [openName_of_node (by rw [hsrcPath]; exact hnode) rfl, hsrcPath]
  have hstat : sys₁.fstat (some sys.freeFd) = some ⟨mode, 0⟩ := by
    rw [fstat_of_open pathOf_install_self hnode]
    rfl
  -- The directory of the destination is made, and opened.
  have hdst₁ : sys₁.pathOf dstFd = some (d ++ b) := pathOf_install hat.dst
  obtain ⟨made, hmade⟩ : ∃ made, made =
    copyOver grant (linkText (s ++ p)) (some (.dir mode)) (sys.node (d ++ p)) := ⟨_, rfl⟩
  set sys₂ : Fs := { sys₁ with node := Function.update sys.node (d ++ p) made } with hsys₂
  have hmake : makeDst grant sys₁ dstFd name mode = .ok sys₂ := by
    rw [makeDst_of_admits (linkText (s ++ p)) hdst₁ (by rw [hdstPath]; exact hadm), hdstPath, hsys₂, hmade]
    rfl
  have hnode₂ : ∃ mode', sys₂.node (d ++ p) = some (.dir mode') := by
    simp only [hsys₂, Function.update_self, hmade]
    rcases hadm with h | ⟨mode', h⟩
    · exact ⟨_, by rw [h]; rfl⟩
    · exact ⟨_, by rw [h]; rfl⟩
  obtain ⟨mode', hnode₂⟩ := hnode₂
  have hpath₂ : sys₂.pathOf dstFd = some (d ++ b) := hdst₁
  set sys₃ := sys₂.install (d ++ p) with hsys₃
  have hopen₂ : sys₂.openName Node.isDir (some (d ++ b)) name = (some sys₂.freeFd, sys₃) := by
    rw [openName_of_node (by rw [hdstPath]; exact hnode₂) rfl, hdstPath]
  have hentered : Entered grant linkText s d tree p sys sys₃ sys.freeFd sys₂.freeFd :=
    entered hdir hmade hsys₁ hsys₂
  -- The working directory goes along.
  have hnode₃ : sys₃.node (s ++ p) = some (.dir mode) := by
    rw [hentered.head.frame _ fun q _ => hapart p q, hnode]
  have hchdir : sys₃.fchdir (some sys.freeFd) = some { sys₃ with cwd := s ++ p } :=
    fchdir_of_open hentered.src hnode₃
  have hdirp : fdopendir readdir { sys₃ with cwd := s ++ p } (some sys.freeFd) =
      some ⟨some sys.freeFd, readdir (s ++ p)⟩ := by
    have h : Sys.pathOf { sys₃ with cwd := s ++ p } (some sys.freeFd) = some (s ++ p) := hentered.src
    simp only [fdopendir, h, Option.map_some]
  obtain ⟨n, rfl⟩ : ∃ n, dstFd = some n := by
    cases dstFd with
    | none => exact absurd hat.dst (by simp)
    | some n => exact ⟨n, rfl⟩
  refine ⟨sys₃, sys.freeFd, sys₂.freeFd, hentered, rfl, fun cpDir files => ?_⟩
  simp only [cpSubdir, hopen, hstat, hmake, hpath₂, hopen₂, hchdir, hdirp, exitOn, bind, Except.bind]

theorem cpSubdir_copies {mode : Mode} {cpDir : Dir → Option Nat → Walk → Except Halt Walk}
    (hapart : ∀ q r, s ++ q ≠ d ++ r) (hat : At s d tree b sys dstFd)
    (hready : Ready d tree (subtree (b ++ [name])) sys) (hdir : tree (b ++ [name]) = some (.dir mode))
    (hsub : Walks grant readdir linkText s d tree (b ++ [name]) cpDir) :
    Copies grant linkText s d tree (subtree (b ++ [name])) sys
      (cpSubdir grant readdir cpDir dstFd { name := name, type := .dir }) := by
  intro files
  set p := b ++ [name] with hp
  have hadm : Admits (some (.dir mode)) (sys.node (d ++ p)) := by
    have h := hready p (List.prefix_refl _)
    rwa [hdir] at h
  obtain ⟨sys₃, srcFd2, dstFd2, hentered, hcwd₃, hrun⟩ :=
    @cpSubdir_enters grant linkText s d tree readdir sys b name dstFd mode hapart hat hadm hdir
  simp only [← hp] at hentered hrun
  -- The call goes down on both sides.
  have hat₃ : At s d tree b sys₃ dstFd := hat.walked hapart hentered.head hcwd₃
  have hready₃ : Ready d tree (below p) sys₃ := by
    have h : Ready d tree (below p) sys := fun q hq => hready q hq.1
    exact h.walked (disjoint_self_below p) hentered.head
  obtain ⟨sys₅, new, hcall, hcwd₅, hwalked⟩ := hsub (some srcFd2) (some dstFd2)
    { sys₃ with cwd := s ++ p } ⟨hat₃.source, rfl, hentered.dst⟩ hready₃ files
  -- And up again.
  have hup : Walked grant linkText s d tree (below p) sys₃ sys₅.chdirUp new :=
    hwalked.congr rfl rfl rfl rfl
  obtain ⟨hclose₁, hclose₂, hdone⟩ := hentered.leave hapart hdir hup
  refine ⟨_, new, ?_, ?_, hdone⟩
  · rw [hrun]
    simp only [hcall, hclose₁, hclose₂, exitOn, bind, Except.bind]
  · simp only [cwd_release, Sys.chdirUp, hcwd₅, hp, ← List.append_assoc, List.dropLast_concat]
    exact hat.cwd.symm

theorem cpEntry_copies {mode : Mode} {cpDir : Dir → Option Nat → Walk → Except Halt Walk} {de : Dirent}
    (hsrc : SourceTree (fun q => readdir (s ++ q)) tree) (hapart : ∀ q r, s ++ q ≠ d ++ r)
    (hat : At s d tree b sys dstFd) (hb : tree b = some (.dir mode)) (hde : de ∈ readdir (s ++ b))
    (hready : Ready d tree (subtree (b ++ [de.name])) sys)
    (hsub : ∀ name mode, tree (b ++ [name]) = some (.dir mode) →
      Walks grant readdir linkText s d tree (b ++ [name]) cpDir) :
    Copies grant linkText s d tree (subtree (b ++ [de.name])) sys
      (fun w => cpEntry grant readdir linkText cpDir dstFd w de) := by
  -- What is left alone has nothing below it.
  have hskip : tree (b ++ [de.name]) = none ∨ tree (b ++ [de.name]) = some .other →
      Copies grant linkText s d tree (subtree (b ++ [de.name])) sys .ok := by
    intro h files
    refine ⟨sys, [], by rw [List.append_nil], rfl, Walked.skip fun q hq => ?_⟩
    obtain ⟨r, rfl⟩ := mem_subtree_iff.mp hq
    by_cases hr : r = []
    · rw [hr, List.append_nil]
      exact h
    · refine Or.inl (hsrc.beneath (fun mode' hdir => ?_) r hr)
      rcases h with h | h <;> rw [h] at hdir <;> cases hdir
  obtain ⟨name, type⟩ := de
  unfold cpEntry
  by_cases hdots : name ∈ dots
  · simp only [hdots, if_true]
    exact hskip (Or.inl (hsrc.noDots b name hdots))
  · simp only [hdots, if_false]
    obtain ⟨x, hx, rfl⟩ := (hsrc.listed b mode hb ⟨name, type⟩ hdots).mp hde
    cases x with
    | dir mode' => exact cpSubdir_copies hapart hat hready hx (hsub name mode' hx)
    | reg mode' file => exact handleRegularFile_copies hsrc hat hready hx
    | link target => exact handleSymbolicLink_copies hsrc hat hready hx
    | other => exact hskip (Or.inr hx)

/-! ## The whole walk -/

/-- The loop over a part of the entries. -/
theorem cpEntries_copies {mode : Mode} {cpDir : Dir → Option Nat → Walk → Except Halt Walk}
    (hsrc : SourceTree (fun q => readdir (s ++ q)) tree) (hapart : ∀ q r, s ++ q ≠ d ++ r)
    (hb : tree b = some (.dir mode))
    (hsub : ∀ name mode, tree (b ++ [name]) = some (.dir mode) →
      Walks grant readdir linkText s d tree (b ++ [name]) cpDir) (es : List Dirent) :
    ∀ sys, (es.map Dirent.name).Nodup → (∀ de ∈ es, de ∈ readdir (s ++ b)) →
      At s d tree b sys dstFd → Ready d tree (entriesRegion b es) sys →
      Copies grant linkText s d tree (entriesRegion b es) sys
        (fun w => es.foldlM (cpEntry grant readdir linkText cpDir dstFd) w) := by
  -- Induction on the entries that are left: each one finds its own names still ready.
  induction es with
  | nil =>
    intro sys _ _ _ _ files
    refine ⟨sys, [], by rw [List.append_nil]; rfl, rfl, Walked.skip ?_⟩
    rintro q ⟨de, hde, -⟩
    exact absurd hde List.not_mem_nil
  | cons de es ih =>
    intro sys hnodup hmem hat hready files
    rw [entriesRegion_cons] at hready ⊢
    rw [List.map_cons, List.nodup_cons] at hnodup
    have hdisj := disjoint_subtree_entries (b := b) hnodup.1
    obtain ⟨sys₁, new₁, hrun₁, hcwd₁, hwalked₁⟩ := cpEntry_copies hsrc hapart hat hb
      (hmem de List.mem_cons_self) (fun q hq => hready q (Or.inl hq)) hsub files
    have hready₁ : Ready d tree (entriesRegion b es) sys₁ :=
      Ready.walked (fun q hq => hready q (Or.inr hq)) hdisj hwalked₁
    obtain ⟨sys₂, new₂, hrun₂, hcwd₂, hwalked₂⟩ := ih sys₁ hnodup.2
      (fun x hx => hmem x (List.mem_cons_of_mem _ hx)) (hat.walked hapart hwalked₁ hcwd₁) hready₁
      (files ++ new₁)
    refine ⟨sys₂, new₁ ++ new₂, ?_, hcwd₂.trans hcwd₁, hwalked₁.trans hdisj hwalked₂⟩
    simp only [List.foldlM_cons, hrun₁, ← List.append_assoc]
    exact hrun₂

/-- Every path below a directory that the source has is below one of its entries. -/
theorem below_listed {mode : Mode} {q : Path} (hsrc : SourceTree (fun q => readdir (s ++ q)) tree)
    (hb : tree b = some (.dir mode)) (hq : q ∈ below b) (hsome : tree q ≠ none) :
    q ∈ entriesRegion b (readdir (s ++ b)) := by
  obtain ⟨r, hr, rfl⟩ := mem_below_iff.mp hq
  obtain ⟨name, r, rfl⟩ := List.exists_cons_of_ne_nil hr
  have hsplit : b ++ name :: r = b ++ [name] ++ r := by rw [List.append_assoc]; rfl
  rw [hsplit] at hsome ⊢
  obtain ⟨x, hx⟩ : ∃ x, tree (b ++ [name]) = some x := by
    by_contra hno
    have hnone : ∀ x, tree (b ++ [name]) ≠ some x := fun x hx => hno ⟨x, hx⟩
    by_cases hr : r = []
    · rw [hr, List.append_nil] at hsome
      exact hsome (Option.eq_none_iff_forall_ne_some.mpr hnone)
    · exact hsome (hsrc.beneath (fun mode => hnone _) r hr)
  have hdots : name ∉ dots := by
    intro hmem
    rw [hsrc.noDots b name hmem] at hx
    cases hx
  have hde := (hsrc.listed b mode hb ⟨name, x.kind⟩ hdots).mpr ⟨x, hx, rfl⟩
  exact ⟨_, hde, List.prefix_append _ _⟩

theorem cpDir_walks (hsrc : SourceTree (fun q => readdir (s ++ q)) tree)
    (hapart : ∀ q r, s ++ q ≠ d ++ r) (depth : Nat) :
    ∀ b mode, tree b = some (.dir mode) → (∀ q, tree (b ++ q) ≠ none → q.length < depth) →
      Walks grant readdir linkText s d tree b (cpDir grant readdir linkText depth) := by
  -- Induction on the depth: the trees below the entries are less high.
  induction depth with
  | zero =>
    intro b mode hb hheight
    refine absurd (hheight [] ?_) (Nat.not_lt_zero _)
    rw [List.append_nil, hb]
    exact Option.some_ne_none _
  | succ depth ih =>
    intro b mode hb hheight fd dstFd sys hat hready files
    have hsub : ∀ name mode, tree (b ++ [name]) = some (.dir mode) →
        Walks grant readdir linkText s d tree (b ++ [name]) (cpDir grant readdir linkText depth) := by
      intro name mode' hdir
      refine ih (b ++ [name]) mode' hdir fun q hq => ?_
      have h := hheight (name :: q) (by rw [List.append_assoc] at hq; exact hq)
      rw [List.length_cons] at h
      omega
    have hentries := entriesRegion_subset b (readdir (s ++ b))
    obtain ⟨sys', new, hrun, hcwd, hwalked⟩ := cpEntries_copies hsrc hapart hb hsub (readdir (s ++ b)) sys
      (hsrc.distinct b mode hb) (fun _ h => h) hat (fun q hq => hready q (hentries hq)) files
    refine ⟨sys', new, hrun, hcwd, hwalked.widen hentries fun q hq hno => ?_⟩
    by_contra hsome
    exact hno (below_listed hsrc hb hq hsome)

theorem bind_ok_mono {α β : Type} {x : Except Halt α} {f g : α → Except Halt β} {r : β}
    (hfg : ∀ a, f a = .ok r → g a = .ok r) (h : (x >>= f) = .ok r) : (x >>= g) = .ok r := by
  cases x with
  | error e => cases h
  | ok a => exact hfg a h

theorem cpSubdir_mono {f g : Dir → Option Nat → Walk → Except Halt Walk}
    (hfg : ∀ src dstFd w r, f src dstFd w = .ok r → g src dstFd w = .ok r) {w : Walk} {de : Dirent} {r : Walk}
    (h : cpSubdir grant readdir f dstFd de w = .ok r) : cpSubdir grant readdir g dstFd de w = .ok r := by
  unfold cpSubdir at h ⊢
  generalize w.sys.openName Node.isDir (some w.sys.cwd) de.name = opened at h ⊢
  obtain ⟨srcFd2, sys₁⟩ := opened
  refine bind_ok_mono (fun dirStat h => ?_) h
  refine bind_ok_mono (fun sys₂ h => ?_) h
  generalize sys₂.openName Node.isDir (sys₂.pathOf dstFd) de.name = opened at h ⊢
  obtain ⟨dstFd2, sys₃⟩ := opened
  refine bind_ok_mono (fun _ h => ?_) h
  refine bind_ok_mono (fun sys₄ h => ?_) h
  refine bind_ok_mono (fun src2 h => ?_) h
  cases hcall : f src2 dstFd2 { files := w.files, sys := sys₄ } with
  | error e =>
    rw [hcall] at h
    cases h
  | ok w' =>
    rw [hfg _ _ _ _ hcall]
    rw [hcall] at h
    exact h

theorem cpEntry_mono {f g : Dir → Option Nat → Walk → Except Halt Walk}
    (hfg : ∀ src dstFd w r, f src dstFd w = .ok r → g src dstFd w = .ok r) {w : Walk} {de : Dirent} {r : Walk}
    (h : cpEntry grant readdir linkText f dstFd w de = .ok r) :
    cpEntry grant readdir linkText g dstFd w de = .ok r := by
  obtain ⟨name, type⟩ := de
  unfold cpEntry at h ⊢
  by_cases hdots : name ∈ dots
  · simp only [hdots, if_true] at h ⊢
    exact h
  · simp only [hdots, if_false] at h ⊢
    cases type with
    | reg => exact h
    | link => exact h
    | dir => exact cpSubdir_mono hfg h
    | other => exact h

/-- A walk that returns does not depend on how deep the recursion is followed. -/
theorem cpDir_mono {depth : Nat} : ∀ {src : Dir} {dstFd : Option Nat} {w r : Walk},
    cpDir grant readdir linkText depth src dstFd w = .ok r →
      cpDir grant readdir linkText (depth + 1) src dstFd w = .ok r := by
  induction depth with
  | zero =>
    intro src dstFd w r h
    cases h
  | succ depth ih =>
    intro src dstFd w r h
    unfold cpDir at h ⊢
    generalize src.entries = es at h ⊢
    induction es generalizing w with
    | nil => exact h
    | cons de es ihes =>
      rw [List.foldlM_cons] at h ⊢
      cases hde : cpEntry grant readdir linkText (cpDir grant readdir linkText depth) dstFd w de with
      | error e =>
        rw [hde] at h
        cases h
      | ok w' =>
        rw [hde] at h
        rw [cpEntry_mono (fun _ _ _ _ => ih) hde]
        exact ihes h

theorem cpDir_of_le {depth depth' : Nat} {src : Dir} {dstFd : Option Nat} {w r : Walk} (hle : depth ≤ depth')
    (h : cpDir grant readdir linkText depth src dstFd w = .ok r) :
    cpDir grant readdir linkText depth' src dstFd w = .ok r := by
  induction depth', hle using Nat.le_induction with
  | base => exact h
  | succ depth' _ ih => exact cpDir_mono ih

end Entry

/-- A directory with nothing below it. -/
structure EmptyDir (sys : Fs) (d : Path) : Prop where
  dir : ∃ mode, sys.node d = some (.dir mode)
  empty : ∀ r ≠ [], sys.node (d ++ r) = none

/-- `new` has one entry for every regular file of the source, which pairs it with the file
    at the same relative path of the destination. -/
def OneEach (s d : Path) (tree : Tree) (sys' : Fs) (new : List OpenedWork) : Prop :=
  ∃ rels : List Path, rels.Nodup ∧
    (∀ q, q ∈ rels ↔ ∃ mode file, tree q = some (.reg mode file)) ∧
    List.Forall₂ (OpenedAt s d tree sys') rels new

/-- What is below the root has all regular files. -/
theorem Walked.oneEach {grant : Mode → Mode} {linkText : Path → List Byte → List Byte} {s d : Path}
    {tree : Tree} {sys sys' : Fs} {new : List OpenedWork} {mode : Mode}
    (h : Walked grant linkText s d tree (below []) sys sys' new) (hroot : tree [] = some (.dir mode)) :
    OneEach s d tree sys' new := by
  obtain ⟨rels, hnodup, hmem, hall⟩ := h.works
  refine ⟨rels, hnodup, fun q => ?_, hall⟩
  rw [hmem]
  refine ⟨fun h => h.2, fun h => ⟨?_, h⟩⟩
  -- The root is a directory.
  refine mem_below_iff.mpr ⟨q, ?_, rfl⟩
  rintro rfl
  obtain ⟨mode', file, hreg⟩ := h
  rw [hroot] at hreg
  cases hreg

/-- Two trees of which neither holds the other have no path in common. -/
theorem append_ne_append {s d : Path} (hsd : ¬ s <+: d) (hds : ¬ d <+: s) (q r : Path) : s ++ q ≠ d ++ r := by
  intro heq
  rcases List.prefix_or_prefix_of_prefix (List.prefix_append s q) (heq ▸ List.prefix_append d r) with h | h
  · exact hsd h
  · exact hds h

/-- A tree that does not hold the empty directory `d` has no path in common with it. -/
theorem apart {sys : Fs} {s d : Path} {mode : Mode} (hs : sys.node s = some (.dir mode))
    (hdst : EmptyDir sys d) (hout : ¬ s <+: d) (q r : Path) : s ++ q ≠ d ++ r := by
  refine append_ne_append hout ?_ q r
  rintro ⟨x, rfl⟩
  by_cases hx : x = []
  · rw [hx, List.append_nil] at hout
    exact hout (List.prefix_refl d)
  · rw [hdst.empty x hx] at hs
    cases hs

/-! ### The descriptors that the copying gets -/

def OpenedWork.fds (work : OpenedWork) : List (Option Nat) := [work.srcFd, work.dstFd]

section Descriptors

variable {s d : Path} {tree : Tree} {sys : Fs}

theorem OpenedAt.path_of_mem {q : Path} {work : OpenedWork} (h : OpenedAt s d tree sys q work)
    {fd : Option Nat} (hfd : fd ∈ work.fds) :
    sys.pathOf fd = some (s ++ q) ∨ sys.pathOf fd = some (d ++ q) := by
  simp only [OpenedWork.fds, List.mem_cons, List.not_mem_nil, or_false] at hfd
  rcases hfd with rfl | rfl
  · exact Or.inl h.src
  · exact Or.inr h.dst

theorem OpenedAt.fds_apart (hapart : ∀ q r, s ++ q ≠ d ++ r) {q q' : Path} {work work' : OpenedWork}
    (h : OpenedAt s d tree sys q work) (h' : OpenedAt s d tree sys q' work') (hne : q ≠ q') :
    List.Disjoint work.fds work'.fds := by
  intro fd hfd hfd'
  rcases h.path_of_mem hfd with hp | hp <;> rcases h'.path_of_mem hfd' with hp' | hp' <;>
    have heq := Option.some.inj (hp.symm.trans hp')
  · exact hne (List.append_cancel_left heq)
  · exact hapart q q' heq
  · exact hapart q' q heq.symm
  · exact hne (List.append_cancel_left heq)

/-- Every entry is that of a regular file. -/
theorem exists_rel_of_mem {rels : List Path} {new : List OpenedWork} {work : OpenedWork}
    (h : List.Forall₂ (OpenedAt s d tree sys) rels new) (hmem : work ∈ new) :
    ∃ q ∈ rels, OpenedAt s d tree sys q work := by
  induction h with
  | nil => exact absurd hmem List.not_mem_nil
  | @cons q work' rels new hwork hall ih =>
    rcases List.mem_cons.mp hmem with rfl | hmem
    · exact ⟨q, List.mem_cons_self, hwork⟩
    · obtain ⟨q', hq', hwork'⟩ := ih hmem
      exact ⟨q', List.mem_cons_of_mem _ hq', hwork'⟩

/-- No two threads will read or write through one descriptor. -/
theorem OneEach.distinct {new : List OpenedWork} (hapart : ∀ q r, s ++ q ≠ d ++ r)
    (h : OneEach s d tree sys new) : (new.flatMap OpenedWork.fds).Nodup := by
  obtain ⟨rels, hnodup, -, hall⟩ := h
  induction hall with
  | nil => exact List.nodup_nil
  | @cons q work rels new hwork hall ih =>
    rw [List.nodup_cons] at hnodup
    rw [List.flatMap_cons]
    refine List.Nodup.append ?_ (ih hnodup.2) fun fd hfd hfd' => ?_
    · have hne : work.srcFd ≠ work.dstFd := by
        intro heq
        have hsrc := hwork.src
        rw [heq, hwork.dst] at hsrc
        exact hapart q q (Option.some.inj hsrc).symm
      simpa [OpenedWork.fds] using hne
    · obtain ⟨work', hmem, hfd'⟩ := List.mem_flatMap.mp hfd'
      obtain ⟨q', hq', hwork'⟩ := exists_rel_of_mem hall hmem
      exact hwork.fds_apart hapart hwork' (fun heq => hnodup.1 (heq ▸ hq')) hfd hfd'

end Descriptors

/-- `cp_dir` returns where it was called from; below the empty destination there is then a
    copy of everything below the source, the regular files still empty, and nothing else
    has changed. -/
theorem cpDir_copies (grant : Mode → Mode) (readdir : Path → List Dirent)
    (linkText : Path → List Byte → List Byte) {s d : Path} {sys : Fs} {src : Dir} {dstFd : Option Nat}
    (hsrc : SourceTree (fun q => readdir (s ++ q)) (fun q => sys.node (s ++ q)))
    (hdst : EmptyDir sys d) (hout : ¬ s <+: d) (hcwd : sys.cwd = s)
    (hsrcFd : sys.pathOf src.fd = some s) (hopen : fdopendir readdir sys src.fd = some src)
    (hdstFd : sys.pathOf dstFd = some d) (files : List OpenedWork) :
    ∃ sys' new, (∃ enough, ∀ depth, enough ≤ depth →
        cpDir grant readdir linkText depth src dstFd { files := files, sys := sys } =
          .ok { files := files ++ new, sys := sys' }) ∧
      sys'.cwd = sys.cwd ∧
      (∀ q ≠ [], sys'.node (d ++ q) = copyOver grant (linkText (s ++ q)) (sys.node (s ++ q)) none) ∧
      (∀ p ∉ below d, sys'.node p = sys.node p) ∧
      (∀ fd p, sys.pathOf fd = some p → sys'.pathOf fd = some p) ∧
      OneEach s d (fun q => sys.node (s ++ q)) sys' new := by
  set tree : Tree := fun q => sys.node (s ++ q) with htree
  obtain ⟨mode, hroot⟩ := hsrc.root
  have hs : sys.node s = some (.dir mode) := by simpa [htree] using hroot
  have hapart := apart hs hdst hout
  have hat : At s d tree [] sys dstFd :=
    { source := fun _ => rfl
      cwd := by rw [hcwd, List.append_nil]
      dst := by rw [hdstFd, List.append_nil] }
  -- nothing is there below the destination, so any node may be made
  have hready : Ready d tree (below []) sys := by
    intro q hq
    rw [hdst.empty q hq.2]
    exact admits_none _
  have hsrcEq : src = { fd := src.fd, entries := readdir (s ++ []) } := by
    simp only [fdopendir, hsrcFd, Option.map_some, Option.some.injEq] at hopen
    rw [List.append_nil]
    exact hopen.symm
  obtain ⟨height, hheight⟩ := hsrc.height
  obtain ⟨sys', new, hrun, hcwd', hwalked⟩ :=
    cpDir_walks hsrc hapart height [] mode hroot hheight src.fd dstFd sys hat hready files
  rw [← hsrcEq] at hrun
  have hnode : ∀ q, q ≠ [] → sys.node (d ++ q) = none := hdst.empty
  refine ⟨sys', new, ⟨height, fun depth hle => cpDir_of_le hle hrun⟩, hcwd', fun q hq => ?_,
    fun p hp => ?_, ?_, ?_⟩
  · rw [hwalked.made q (mem_below_iff.mpr ⟨q, hq, rfl⟩), hnode q hq]
  · refine hwalked.frame p fun q hq heq => hp ?_
    exact mem_below_iff.mpr ⟨q, hq.2, heq⟩
  · exact hwalked.keeps
  · exact hwalked.oneEach hroot

/-! The tree `s` holds a link `l` and a directory `a` with a file `f`; `d` is empty. -/

def sampleNode : Path → Option FsNode := fun p =>
  if p = [[115]] then some (.dir 493)
  else if p = [[115], [97]] then some (.dir 493)
  else if p = [[115], [97], [102]] then some (.reg 420 (File.empty.pwrite 0 [1, 2]))
  else if p = [[115], [108]] then some (.link [97])
  else if p = [[100]] then some (.dir 493)
  else none

def sampleReaddir : Path → List Dirent := fun p =>
  if p = [[115]] then [⟨[46], .dir⟩, ⟨[108], .link⟩, ⟨[46, 46], .dir⟩, ⟨[97], .dir⟩]
  else if p = [[115], [97]] then [⟨[102], .reg⟩, ⟨[46], .dir⟩, ⟨[46, 46], .dir⟩]
  else []

def sampleFs : Fs := { node := sampleNode, cwd := [[115]], fds := [some [[115]], some [[100]]] }

def sampleDir : Dir := { fd := some 0, entries := sampleReaddir [[115]] }

theorem sampleNode_cases {q : Path} {x : FsNode} (h : sampleNode ([[115]] ++ q) = some x) :
    (q = [] ∧ x = .dir 493) ∨ (q = [[97]] ∧ x = .dir 493) ∨
      (q = [[97], [102]] ∧ x = .reg 420 (File.empty.pwrite 0 [1, 2])) ∨ (q = [[108]] ∧ x = .link [97]) := by
  simp only [sampleNode, List.cons_append, List.nil_append, List.cons.injEq, true_and] at h
  split_ifs at h with h₁ h₂ h₃ h₄ h₅
  · exact Or.inl ⟨h₁, (Option.some.inj h).symm⟩
  · exact Or.inr (Or.inl ⟨h₂, (Option.some.inj h).symm⟩)
  · exact Or.inr (Or.inr (Or.inl ⟨h₃, (Option.some.inj h).symm⟩))
  · exact Or.inr (Or.inr (Or.inr ⟨h₄, (Option.some.inj h).symm⟩))
  · exact absurd h₅.1 (by decide)

theorem sampleNode_child {q : Path} {name : Name} {x : FsNode}
    (h : sampleNode ([[115]] ++ (q ++ [name])) = some x) :
    (q = [] ∧ name = [97] ∧ x = .dir 493) ∨
      (q = [[97]] ∧ name = [102] ∧ x = .reg 420 (File.empty.pwrite 0 [1, 2])) ∨
      (q = [] ∧ name = [108] ∧ x = .link [97]) := by
  have hlast : ∀ {q' : Path} {name' : Name}, q ++ [name] = q' ++ [name'] → q = q' ∧ name = name' := by
    intro q' name' heq
    obtain ⟨hq, hname⟩ := List.append_inj' heq rfl
    exact ⟨hq, List.singleton_inj.mp hname⟩
  rcases sampleNode_cases h with ⟨hq, -⟩ | ⟨hq, hx⟩ | ⟨hq, hx⟩ | ⟨hq, hx⟩
  · exact absurd hq (by simp)
  · obtain ⟨hq, hname⟩ := @hlast [] [97] hq
    exact Or.inl ⟨hq, hname, hx⟩
  · obtain ⟨hq, hname⟩ := @hlast [[97]] [102] hq
    exact Or.inr (Or.inl ⟨hq, hname, hx⟩)
  · obtain ⟨hq, hname⟩ := @hlast [] [108] hq
    exact Or.inr (Or.inr ⟨hq, hname, hx⟩)

theorem sample_source :
    SourceTree (fun q => sampleReaddir ([[115]] ++ q)) (fun q => sampleFs.node ([[115]] ++ q)) := by
  have hdirs : ∀ q mode, sampleNode ([[115]] ++ q) = some (.dir mode) → q = [] ∨ q = [[97]] := by
    intro q mode h
    rcases sampleNode_cases h with ⟨hq, -⟩ | ⟨hq, -⟩ | ⟨-, hx⟩ | ⟨-, hx⟩
    · exact Or.inl hq
    · exact Or.inr hq
    · cases hx
    · cases hx
  refine { root := ⟨493, rfl⟩, parent := ?_, finite := ?_, noDots := ?_, distinct := ?_, listed := ?_ }
  · intro q name x h
    rcases sampleNode_child h with ⟨rfl, -⟩ | ⟨rfl, -⟩ | ⟨rfl, -⟩ <;> exact ⟨493, rfl⟩
  · refine Set.Finite.subset (List.finite_toSet [[], [[97]], [[97], [102]], [[108]]]) fun q hq => ?_
    obtain ⟨x, hx⟩ := Option.ne_none_iff_exists'.mp hq
    rcases sampleNode_cases hx with ⟨rfl, -⟩ | ⟨rfl, -⟩ | ⟨rfl, -⟩ | ⟨rfl, -⟩ <;> simp
  · intro q name hname
    by_contra hsome
    obtain ⟨x, hx⟩ := Option.ne_none_iff_exists'.mp hsome
    rcases sampleNode_child hx with ⟨-, rfl, -⟩ | ⟨-, rfl, -⟩ | ⟨-, rfl, -⟩ <;> exact absurd hname (by decide)
  · intro q mode h
    rcases hdirs q mode h with rfl | rfl <;> decide
  · intro q mode h de hdots
    refine ⟨fun hde => ?_, ?_⟩
    · rcases hdirs q mode h with rfl | rfl
      · have hde : de ∈ [⟨[46], .dir⟩, ⟨[108], .link⟩, ⟨[46, 46], .dir⟩, ⟨[97], .dir⟩] := hde
        simp only [List.mem_cons, List.not_mem_nil, or_false] at hde
        rcases hde with rfl | rfl | rfl | rfl
        · exact absurd (by decide) hdots
        · exact ⟨_, rfl, rfl⟩
        · exact absurd (by decide) hdots
        · exact ⟨_, rfl, rfl⟩
      · have hde : de ∈ [⟨[102], .reg⟩, ⟨[46], .dir⟩, ⟨[46, 46], .dir⟩] := hde
        simp only [List.mem_cons, List.not_mem_nil, or_false] at hde
        rcases hde with rfl | rfl | rfl
        · exact ⟨_, rfl, rfl⟩
        · exact absurd (by decide) hdots
        · exact absurd (by decide) hdots
    · rintro ⟨x, hx, hkind⟩
      obtain ⟨name, type⟩ := de
      rcases sampleNode_child hx with ⟨rfl, rfl, rfl⟩ | ⟨rfl, rfl, rfl⟩ | ⟨rfl, rfl, rfl⟩ <;>
        subst hkind <;> decide

theorem cpDir_copies_sample :
    ∃ sys' new, (∃ enough, ∀ depth, enough ≤ depth →
        cpDir id sampleReaddir (fun _ target => target) depth sampleDir (some 1)
          { files := [], sys := sampleFs } = .ok { files := new, sys := sys' }) ∧
      sys'.cwd = [[115]] ∧ sys'.node [[100], [97]] = some (.dir 493) ∧
      sys'.node [[100], [97], [102]] = some (.reg 420 File.empty) ∧
      sys'.node [[100], [108]] = some (.link [97]) := by
  have hempty : EmptyDir sampleFs [[100]] := by
    refine ⟨⟨493, rfl⟩, fun r hr => ?_⟩
    obtain ⟨name, r, rfl⟩ := List.exists_cons_of_ne_nil hr
    simp [sampleFs, sampleNode]
  have hout : ¬ ([[115]] : Path) <+: [[100]] := by decide
  have hopen : fdopendir sampleReaddir sampleFs sampleDir.fd = some sampleDir := rfl
  have hdstFd : sampleFs.pathOf (some 1) = some [[100]] := rfl
  obtain ⟨sys', new, hrun, hcwd, hmade, -⟩ := cpDir_copies id sampleReaddir (fun _ target => target)
    sample_source hempty hout rfl rfl hopen hdstFd []
  exact ⟨sys', new, hrun, hcwd, hmade [[97]] (by simp), hmade [[97], [102]] (by simp),
    hmade [[108]] (by simp)⟩

end GogetaTools.Mcp
