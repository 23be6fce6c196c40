/-
  GogetaTools.Lib.FileTree

  A file system as one process sees it: the node at every absolute path, the working
  directory, and the table of open descriptors.

  A path is the list of its names.  A descriptor is a place in the table, `none` stands
  for -1.  The table has room for every descriptor, and a name that is a symbolic link
  is not followed.
-/

import GogetaTools.Lib.ByteFile
import Mathlib.Logic.Function.Basic

namespace FileTree

open ByteFile

/-- `d_type`. -/
inductive Kind
  | dir
  | reg
  | link
  | other
deriving DecidableEq

inductive Node (μ β : Type) [Zero β]
  | dir (mode : μ)
  | reg (mode : μ) (file : File β)
  | link (target : List β)
  | other

/-- What `fstat` tells of a directory or a regular file. -/
structure Stat (μ : Type) where
  mode : μ
  size : Nat

section Nodes

variable {μ β : Type} [Zero β]

def Node.kind : Node μ β → Kind
  | .dir _ => .dir
  | .reg _ _ => .reg
  | .link _ => .link
  | .other => .other

def Node.stat : Node μ β → Option (Stat μ)
  | .dir mode => some ⟨mode, 0⟩
  | .reg mode file => some ⟨mode, file.size⟩
  | .link _ | .other => none

/-- What an `open` for reading takes. -/
def Node.readable (x : Node μ β) : Bool := x.kind = .dir ∨ x.kind = .reg

/-- What `O_DIRECTORY` takes. -/
def Node.isDir (x : Node μ β) : Bool := x.kind = .dir

end Nodes

structure Sys (ν μ β : Type) [Zero β] where
  node : List ν → Option (Node μ β)
  cwd : List ν
  fds : List (Option (List ν))

section Calls

variable {ν μ β : Type} [Zero β]

/-! ## Descriptors -/

/-- The path an open descriptor was opened at. -/
def Sys.pathOf (sys : Sys ν μ β) (fd : Option Nat) : Option (List ν) :=
  fd.bind fun n => sys.fds[n]?.join

/-- The least descriptor that is not open. -/
def Sys.freeFd (sys : Sys ν μ β) : Nat := sys.fds.findIdx Option.isNone

def Sys.install (sys : Sys ν μ β) (p : List ν) : Sys ν μ β :=
  { sys with fds := (sys.fds ++ [none]).set sys.freeFd (some p) }

/-- The table without a descriptor. -/
def Sys.release (sys : Sys ν μ β) (n : Nat) : Sys ν μ β :=
  { sys with fds := sys.fds.set n none }

def Sys.close (sys : Sys ν μ β) (fd : Option Nat) : Option (Sys ν μ β) :=
  match fd, sys.pathOf fd with
  | some n, some _ => some (sys.release n)
  | _, _ => none

def Sys.fstat (sys : Sys ν μ β) (fd : Option Nat) : Option (Stat μ) := do
  let p ← sys.pathOf fd
  let x ← sys.node p
  x.stat

/-! ## Opening and creating -/

/-- `open` of a name in a directory, of which it is asked that it `accepts` the node. -/
def Sys.openName (accepts : Node μ β → Bool) (sys : Sys ν μ β) (dir : Option (List ν)) (name : ν) :
    Option Nat × Sys ν μ β :=
  match dir with
  | none => (none, sys)
  | some p =>
      match sys.node (p ++ [name]) with
      | none => (none, sys)
      | some x =>
          if accepts x then (some sys.freeFd, sys.install (p ++ [name])) else (none, sys)

/-- What keeps `mkdirat` from making a directory. -/
inductive MkdirError
  | eexist
  | other
deriving DecidableEq

section Create

variable [DecidableEq ν] (grant : μ → μ)

/-- `openat` with `O_CREAT | O_TRUNC`.  `grant` is what the system leaves of the mode that
    a new node is asked to have. -/
def Sys.create (sys : Sys ν μ β) (dir : Option (List ν)) (name : ν) (mode : μ) :
    Option Nat × Sys ν μ β :=
  match dir with
  | none => (none, sys)
  | some p =>
      match sys.node (p ++ [name]) with
      | none =>
          let sys' := { sys with
            node := Function.update sys.node (p ++ [name]) (some (.reg (grant mode) File.empty)) }
          (some sys.freeFd, sys'.install (p ++ [name]))
      | some (.reg mode' _) =>
          -- The file keeps its mode and loses its bytes.
          let sys' := { sys with
            node := Function.update sys.node (p ++ [name]) (some (.reg mode' File.empty)) }
          (some sys.freeFd, sys'.install (p ++ [name]))
      | some _ => (none, sys)

def Sys.mkdirat (sys : Sys ν μ β) (dir : Option (List ν)) (name : ν) (mode : μ) :
    Except MkdirError (Sys ν μ β) :=
  match dir with
  | none => .error .other
  | some p =>
      match sys.node (p ++ [name]) with
      | some _ => .error .eexist
      | none => .ok { sys with
          node := Function.update sys.node (p ++ [name]) (some (.dir (grant mode))) }

def Sys.symlinkat (target : List β) (sys : Sys ν μ β) (dir : Option (List ν)) (name : ν) :
    Option (Sys ν μ β) :=
  match dir with
  | none => none
  | some p =>
      match sys.node (p ++ [name]) with
      | some _ => none
      | none => some { sys with
          node := Function.update sys.node (p ++ [name]) (some (.link target)) }

end Create

def Sys.readlink (sys : Sys ν μ β) (name : ν) : Option (List β) :=
  match sys.node (sys.cwd ++ [name]) with
  | some (.link target) => some target
  | _ => none

/-! ## The working directory -/

def Sys.fchdir (sys : Sys ν μ β) (fd : Option Nat) : Option (Sys ν μ β) := do
  let p ← sys.pathOf fd
  let x ← sys.node p
  if x.isDir then some { sys with cwd := p } else none

/-- `chdir("..")`; the root is its own parent. -/
def Sys.chdirUp (sys : Sys ν μ β) : Sys ν μ β := { sys with cwd := sys.cwd.dropLast }

/-! ## What the calls do -/

section Specs

variable {sys : Sys ν μ β} {p q : List ν} {name : ν} {n : Nat} {fd : Option Nat}

@[simp] theorem node_install : (sys.install p).node = sys.node := rfl

@[simp] theorem cwd_install : (sys.install p).cwd = sys.cwd := rfl

@[simp] theorem node_release : (sys.release n).node = sys.node := rfl

@[simp] theorem cwd_release : (sys.release n).cwd = sys.cwd := rfl

@[simp] theorem node_chdirUp : sys.chdirUp.node = sys.node := rfl

@[simp] theorem pathOf_chdirUp : sys.chdirUp.pathOf fd = sys.pathOf fd := rfl

@[simp] theorem pathOf_none : sys.pathOf none = none := rfl

/-- Which descriptors are open depends on the table alone. -/
theorem pathOf_congr {sys' : Sys ν μ β} (h : sys'.fds = sys.fds) : sys'.pathOf fd = sys.pathOf fd := by
  simp only [Sys.pathOf, h]

theorem pathOf_some_iff : sys.pathOf (some n) = some p ↔ sys.fds[n]? = some (some p) := by
  simp only [Sys.pathOf, Option.bind_some, Option.join_eq_some_iff]

theorem freeFd_le : sys.freeFd ≤ sys.fds.length := List.findIdx_le_length

/-- An open descriptor is not the one that is given out next. -/
theorem ne_freeFd (h : sys.pathOf (some n) = some p) : n ≠ sys.freeFd := by
  intro heq
  obtain ⟨hlt, hget⟩ := List.getElem?_eq_some_iff.mp (pathOf_some_iff.mp h)
  have hfree : Option.isNone sys.fds[n] = true := by
    subst heq
    exact List.findIdx_getElem
  rw [hget] at hfree
  simp at hfree

theorem pathOf_freeFd : sys.pathOf (some sys.freeFd) = none := by
  by_contra hopen
  obtain ⟨p, hp⟩ := Option.ne_none_iff_exists'.mp hopen
  exact ne_freeFd hp rfl

@[simp] theorem pathOf_install_self : (sys.install p).pathOf (some sys.freeFd) = some p := by
  rw [pathOf_some_iff, Sys.install, List.getElem?_set_self]
  have h : sys.freeFd ≤ sys.fds.length := freeFd_le
  simp only [List.length_append, List.length_singleton]
  omega

/-- Opening leaves the open descriptors as they are. -/
theorem pathOf_install (h : sys.pathOf fd = some q) : (sys.install p).pathOf fd = some q := by
  cases fd with
  | none => simp at h
  | some n =>
    have hne := ne_freeFd h
    rw [pathOf_some_iff] at h ⊢
    obtain ⟨hlt, -⟩ := List.getElem?_eq_some_iff.mp h
    rw [Sys.install, List.getElem?_set_ne (Ne.symm hne), List.getElem?_append_left hlt]
    exact h

/-- Closing leaves the other descriptors as they are. -/
theorem pathOf_release (h : sys.pathOf fd = some q) (hne : fd ≠ some n) :
    (sys.release n).pathOf fd = some q := by
  cases fd with
  | none => simp at h
  | some m =>
    have hmn : n ≠ m := fun heq => hne (congrArg some heq.symm)
    rw [pathOf_some_iff] at h ⊢
    rw [Sys.release, List.getElem?_set_ne hmn]
    exact h

theorem close_of_open (h : sys.pathOf (some n) = some p) : sys.close (some n) = some (sys.release n) := by
  simp only [Sys.close, h]

theorem fstat_of_open {x : Node μ β} (h : sys.pathOf fd = some p) (hx : sys.node p = some x) :
    sys.fstat fd = x.stat := by
  simp only [Sys.fstat, h, hx, Option.bind_eq_bind, Option.bind_some]

theorem openName_of_node {accepts : Node μ β → Bool} {x : Node μ β} (hx : sys.node (p ++ [name]) = some x)
    (ha : accepts x = true) :
    sys.openName accepts (some p) name = (some sys.freeFd, sys.install (p ++ [name])) := by
  simp only [Sys.openName, hx, ha, if_true]

theorem fchdir_of_open {mode : μ} (h : sys.pathOf fd = some p) (hx : sys.node p = some (.dir mode)) :
    sys.fchdir fd = some { sys with cwd := p } := by
  simp only [Sys.fchdir, h, hx, Node.isDir, Node.kind, Option.bind_eq_bind, Option.bind_some,
    decide_true, if_true]

theorem readlink_of_node {target : List β} (h : sys.node (sys.cwd ++ [name]) = some (.link target)) :
    sys.readlink name = some target := by
  simp only [Sys.readlink, h]

end Specs

end Calls

end FileTree
