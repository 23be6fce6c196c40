/-
  GogetaTools.Mcp.Program

  `mcp/src/main.cpp`: the program from its arguments to the end of its threads.

  The copy goes to the directory of the second argument if there is none, and else to one in
  it with the name of the source.  That one may hold files and directories already: `mcp`
  merges the source into it, and changes nothing else (`mcp_merges`).
-/

import GogetaTools.Mcp.Rerun

namespace GogetaTools.Mcp

open ByteFile EveryRun FileTree

/-- Where the copy goes. -/
def targetOf (sys : Fs) (dst : Path) (name : Name) : Path :=
  match sys.node dst with
  | none => dst
  | some _ => dst ++ [name]

section Program

variable (grant : Mode → Mode) (readdir : Path → List Dirent) (linkText : Path → List Byte → List Byte)

/-- `main` takes no error exit, and ends with a tree of which `P` holds. -/
def MainEnds (threads bufLen : Nat) (src dst : Path) (name : Name) (sys : Fs)
    (P : (Path → Option FsNode) → Prop) : Prop :=
  ∃ srcFd dstFd sys', mainSetUp grant src dst name sys = .ok (srcFd, dstFd, sys') ∧
    RunEnds grant readdir linkText threads bufLen srcFd dstFd sys' P

/-- `open` has answered with an `int` each time. -/
def MainFits (src dst : Path) (name : Name) (sys : Fs) : Prop :=
  ∀ srcFd dstFd sys', mainSetUp grant src dst name sys = .ok (srcFd, dstFd, sys') →
    DescriptorsFit grant readdir linkText srcFd dstFd sys'

end Program

/-! ## The directory of the copy -/

section SetUp

variable {grant : Mode → Mode} {readdir : Path → List Dirent} {src dst : Path} {name : Name} {sys : Fs}

/-- The second argument is a directory, or it can be made one. -/
def CanTake (sys : Fs) (dst : Path) : Prop :=
  (∃ mode, sys.node dst = some (.dir mode)) ∨
    (sys.node dst = none ∧ ∃ mode, sys.node dst.dropLast = some (.dir mode))

/-- What `mkdir` does for a directory that is not there. -/
theorem mkdirPath_absent {mode parentMode : Mode} (hdst : sys.node dst = none)
    (hparent : sys.node dst.dropLast = some (.dir parentMode)) :
    mkdirPath grant sys dst mode =
      some { sys with node := Function.update sys.node dst (some (.dir (grant mode))) } := by
  have hne : dst ≠ [] := by
    rintro rfl
    rw [List.dropLast_nil, hdst] at hparent
    cases hparent
  have hsplit : dst.dropLast ++ [dst.getLast hne] = dst := List.dropLast_append_getLast hne
  rw [mkdirPath, List.getLast?_eq_getLast_of_ne_nil hne, hparent]
  simp only [Sys.mkdirat, hsplit, hdst]
  rfl

/-- The source is what it was where one directory elsewhere has changed. -/
theorem started_of_update {sys' : Fs} {d : Path} {x : Option FsNode} {srcFd dstFd : Option Nat}
    (hsrc : SourceTree (fun q => readdir (src ++ q)) (fun q => sys.node (src ++ q)))
    (hapart : ∀ q, src ++ q ≠ d) (hnode : sys'.node = Function.update sys.node d x)
    (hsrcFd : sys'.pathOf srcFd = some src) (hdstFd : sys'.pathOf dstFd = some d) :
    Started readdir src d (fun q => sys.node (src ++ q)) srcFd dstFd sys' where
  sourceTree := hsrc
  source := fun q => by rw [hnode, Function.update_of_ne (hapart q)]
  src := hsrcFd
  dst := hdstFd

/-- `mkdirat`, also if there is such a directory already. -/
theorem makeDst_admits {fd : Option Nat} {p : Path} {mode : Mode} (hfd : sys.pathOf fd = some p)
    (hadmits : Admits (some (.dir mode)) (sys.node (p ++ [name]))) (text : List Byte → List Byte) :
    ∃ sys' mode', makeDst grant sys fd name mode = .ok sys' ∧ sys'.fds = sys.fds ∧
      sys'.node = Function.update sys.node (p ++ [name])
        (refill grant text (some (.dir mode)) (sys.node (p ++ [name]))) ∧
      sys'.node (p ++ [name]) = some (.dir mode') := by
  rcases hadmits with hnone | ⟨mode', hdir⟩
  · refine ⟨{ sys with node := Function.update sys.node (p ++ [name]) (some (.dir (grant mode))) },
      grant mode, ?_, rfl, ?_, Function.update_self ..⟩
    · simp only [makeDst, Sys.mkdirat, hfd, hnone]
    · rw [hnone]
      rfl
  · refine ⟨sys, mode', ?_, rfl, ?_, hdir⟩
    · simp only [makeDst, Sys.mkdirat, hfd, hdir]
    · rw [hdir]
      exact (Function.update_eq_self_iff.mpr hdir.symm).symm

/-- The directory of the copy is made, or taken as it is; nothing else changes. -/
theorem mainSetUp_target
    (hsrc : SourceTree (fun q => readdir (src ++ q)) (fun q => sys.node (src ++ q)))
    (hdst : CanTake sys dst) (hapart : ∀ q, src ++ q ≠ targetOf sys dst name)
    (hroot : Admits (sys.node src) (sys.node (targetOf sys dst name))) (text : List Byte → List Byte) :
    ∃ srcFd dstFd sys', mainSetUp grant src dst name sys = .ok (srcFd, dstFd, sys') ∧
      sys'.node = Function.update sys.node (targetOf sys dst name)
        (refill grant text (sys.node src) (sys.node (targetOf sys dst name))) ∧
      Started readdir src (targetOf sys dst name) (fun q => sys.node (src ++ q)) srcFd dstFd sys' := by
  obtain ⟨mode, hmode⟩ := hsrc.root
  rw [List.append_nil] at hmode
  rw [hmode] at hroot ⊢
  set sys₁ := sys.install src with hsys₁
  have hfd₁ : sys₁.pathOf (some sys.freeFd) = some src := pathOf_install_self
  have hstat : sys₁.fstat (some sys.freeFd) = some ⟨mode, 0⟩ := by
    rw [fstat_of_open hfd₁ hmode]
    rfl
  rcases hdst with ⟨dstMode, hdst⟩ | ⟨hdst, parentMode, hparent⟩
  · -- The copy goes into the directory `dst`.
    have htarget : targetOf sys dst name = dst ++ [name] := by rw [targetOf, hdst]
    rw [htarget] at hroot hapart ⊢
    set sys₂ := sys₁.install dst with hsys₂
    have hopen₂ : openDir sys₁ dst = (some sys₁.freeFd, sys₂) := openDir_of_dir hdst
    have hfd₂ : sys₂.pathOf (some sys₁.freeFd) = some dst := pathOf_install_self
    obtain ⟨sys₃, mode', hmake, hfds, hnode, hdir⟩ := @makeDst_admits grant name sys₂ _ _ mode hfd₂ hroot text
    have hopen₃ : sys₃.openName Node.isDir (some dst) name =
        (some sys₃.freeFd, sys₃.install (dst ++ [name])) := openName_of_node hdir rfl
    have hfd₃ : sys₃.pathOf (some sys₁.freeFd) = some dst := (pathOf_congr hfds).trans hfd₂
    have hsrc₃ : sys₃.pathOf (some sys.freeFd) = some src := (pathOf_congr hfds).trans (pathOf_install hfd₁)
    refine ⟨some sys.freeFd, some sys₃.freeFd, sys₃.install (dst ++ [name]), ?_, hnode, ?_⟩
    · simp only [mainSetUp, openDir_of_dir hmode, ← hsys₁, hstat, hopen₂, hmake, hfd₃, hopen₃, exitOn, bind,
        Except.bind]
    · exact started_of_update hsrc hapart hnode (pathOf_install hsrc₃) pathOf_install_self
  · -- `dst` itself is made.
    have htarget : targetOf sys dst name = dst := by rw [targetOf, hdst]
    rw [htarget] at hroot hapart ⊢
    set sys₂ : Fs := { sys₁ with node := Function.update sys.node dst (some (.dir (grant mode))) } with hsys₂
    have hclosed : openDir sys₁ dst = (none, sys₁) := by
      have hnode : sys₁.node dst = none := hdst
      simp only [openDir, hnode]
    have hmake : mkdirPath grant sys₁ dst mode = some sys₂ := mkdirPath_absent hdst hparent
    have hopen₂ : openDir sys₂ dst = (some sys₂.freeFd, sys₂.install dst) :=
      openDir_of_dir (Function.update_self ..)
    have hnode : sys₁.node dst = none := hdst
    refine ⟨some sys.freeFd, some sys₂.freeFd, sys₂.install dst, ?_, ?_, ?_⟩
    · simp only [mainSetUp, openDir_of_dir hmode, ← hsys₁, hstat, hclosed, hnode, if_true, hmake, hopen₂,
        exitOn, bind, Except.bind]
    · rw [hdst]
      rfl
    · exact started_of_update hsrc hapart rfl (pathOf_install ((pathOf_congr rfl).trans hfd₁))
        pathOf_install_self

end SetUp

/-! ## The whole run -/

section Run

variable {grant : Mode → Mode} {readdir : Path → List Dirent} {linkText : Path → List Byte → List Byte}
variable {src dst : Path} {name : Name} {sys : Fs}

/-- From its arguments to the end of its threads, `mcp` takes no error exit and merges the source
    into what is there: whatever the schedule, each path of the source gets its node unless there
    is one, each regular file the bytes of the source, and no other path changes. -/
theorem mcp_merges (hsrc : SourceTree (fun q => readdir (src ++ q)) (fun q => sys.node (src ++ q)))
    (hdst : CanTake sys dst) (hapart : ∀ q r, src ++ q ≠ targetOf sys dst name ++ r)
    (hadmits : ∀ q, Admits (sys.node (src ++ q)) (sys.node (targetOf sys dst name ++ q)))
    (hfits : MainFits grant readdir linkText src dst name sys) {threads bufLen : Nat}
    (hthreads : 1 ≤ threads) (hbufLen : 1 ≤ bufLen) :
    MainEnds grant readdir linkText threads bufLen src dst name sys fun node =>
      (∀ q, node (targetOf sys dst name ++ q) =
        refill grant (linkText (src ++ q)) (sys.node (src ++ q)) (sys.node (targetOf sys dst name ++ q))) ∧
      ∀ p, ¬ targetOf sys dst name <+: p → node p = sys.node p := by
  have hroot := hadmits []
  have hapartRoot : ∀ q, src ++ q ≠ targetOf sys dst name := by
    intro q heq
    exact hapart q [] (by rw [List.append_nil, heq])
  rw [List.append_nil, List.append_nil] at hroot
  obtain ⟨srcFd, dstFd, sys', hsetUp, hnode, hstart⟩ :=
    @mainSetUp_target grant readdir src dst name sys hsrc hdst hapartRoot hroot (linkText src)
  generalize targetOf sys dst name = d at hapart hadmits hroot hapartRoot hnode hstart ⊢
  -- Below the directory of the copy nothing has changed so far.
  have hbelow : ∀ q ≠ [], sys'.node (d ++ q) = sys.node (d ++ q) := by
    intro q hq
    rw [hnode, Function.update_of_ne (by simpa using hq)]
  have hready : Ready d (fun q => sys.node (src ++ q)) (below []) sys' := by
    intro q hq
    rw [hbelow q hq.2]
    exact hadmits q
  refine ⟨srcFd, dstFd, sys', hsetUp,
    (hstart.runEnds hapart hready (hfits srcFd dstFd sys' hsetUp) hthreads hbufLen).mono ?_⟩
  rintro node ⟨hmade, hframe⟩
  refine ⟨fun q => ?_, fun p hp => ?_⟩
  · by_cases hq : q = []
    · subst hq
      rw [hframe _ fun q hq => by simpa using hq, hnode]
      simp only [List.append_nil, Function.update_self]
    · rw [hmade q hq, hbelow q hq]
  · rw [hframe p fun q _ heq => hp (heq ▸ List.prefix_append d q), hnode, Function.update_of_ne]
    rintro rfl
    exact hp (List.prefix_refl p)

end Run

/-- The directory `d` is there, with a directory in it, and does not hold a copy of `s` yet. -/
theorem mcp_merges_sample :
    MainEnds id (nestedDir .reg) (fun _ target => target) 2 1 [[115]] [[100]] [115] (nestedFs fileEntry)
      fun node =>
        (∀ q, node ([[100], [115]] ++ q) =
          refill id id ((nestedFs fileEntry).node ([[115]] ++ q))
            ((nestedFs fileEntry).node ([[100], [115]] ++ q))) ∧
        ∀ p, ¬ ([[100], [115]] : Path) <+: p → node p = (nestedFs fileEntry).node p := by
  have hsource : SourceTree (fun q => nestedDir .reg ([[115]] ++ q))
      (fun q => (nestedFs fileEntry).node ([[115]] ++ q)) :=
    (nested_started (x := fileEntry) fun mode h => by cases h).sourceTree
  have hnothing : ∀ q, (nestedFs fileEntry).node ([[100], [115]] ++ q) = none := by
    intro q
    show nested fileEntry ([115] :: q) = none
    simp [nested]
  refine mcp_merges hsource (Or.inl ⟨493, rfl⟩) (fun q r heq => ?_) (fun q => ?_) ?_ (by decide) (by decide)
  · exact absurd (List.cons.inj heq).1 (by decide)
  · exact (hnothing q).symm ▸ admits_none _
  · -- The two descriptors of the file are 7 and 8.
    intro srcFd dstFd sys' hsetUp depth w hrun work hwork n hn
    cases hsetUp
    have hfiles : w.files = [⟨2, some 7, some 8⟩] := by
      cases depth with
      | zero => cases hrun
      | succ depth => cases depth with
        | zero => cases hrun
        | succ depth =>
            have h := congrArg (fun r => r.toOption.map Walk.files) hrun
            exact (Option.some.inj h).symm
    rw [hfiles, List.mem_singleton] at hwork
    subst hwork
    simp only [OpenedWork.fds, List.mem_cons, List.not_mem_nil, or_false, Option.some.injEq] at hn
    omega

end GogetaTools.Mcp
