/-
  GogetaTools.Mcp.Links

  The target that `handle_symbolic_link` gives a link.

  `readlink` stores no NUL behind the target, and `symlinkat` reads the array up to the
  first one: what the array held behind the target when the function was entered decides
  what a short link is copied to (`copiesTarget_iff`).  Where the array is the one that
  the call before left, every target has to be at least as long as those before it
  (`copiesInOrder_iff`).  Of a target that fills the array `readlink` stores the same
  bytes at every call, so that the loop has no end (`longTarget_running`).
-/

import GogetaTools.Mcp.Walk

namespace GogetaTools.Mcp

open ByteFile FileTree

/-! ## The array -/

/-- `len`. -/
def targetLen : Nat := 256

/-- `target`. -/
structure Target where
  bytes : List Byte
  length_eq : bytes.length = targetLen

theorem length_readlink (target : Target) (link : List Byte) :
    (link.take targetLen ++ target.bytes.drop (min targetLen link.length)).length = targetLen := by
  rw [List.length_append, List.length_take, List.length_drop, target.length_eq]
  omega

/-- `readlink(de->d_name, target, len)` of a link: the array, and `ret`. -/
def Target.readlink (target : Target) (link : List Byte) : Target × Nat :=
  ({ bytes := link.take targetLen ++ target.bytes.drop (min targetLen link.length)
     length_eq := length_readlink target link },
   min targetLen link.length)

/-- The string at the beginning of an array; none if no NUL ends it. -/
def cString (bytes : List Byte) : Option (List Byte) :=
  if 0 ∈ bytes then some (bytes.takeWhile (· ≠ 0)) else none

/-! ## The function -/

/-- How a call ends if not by returning; reading behind the array is undefined, and
    `running` says that the loop was not followed far enough. -/
inductive LinkHalt
  | exitOn (fname : String)
  | unterminated
  | running
deriving DecidableEq

/-- The value, or what keeps the call from having one. -/
def orHalt {α : Type} (halt : LinkHalt) : Option α → Except LinkHalt α
  | none => .error halt
  | some a => .ok a

/-- The `do` loop, `fuel` times at most. -/
def appendLoop (link : List Byte) :
    (fuel : Nat) → Target → List Byte → Except LinkHalt (List Byte × Target)
  | 0, _, _ => .error .running
  | fuel + 1, target, targetStr =>
      let (target, ret) := target.readlink link
      let targetStr := targetStr ++ target.bytes.take ret
      if ret = targetLen then appendLoop link fuel target targetStr else .ok (targetStr, target)

/-- `handle_symbolic_link`, entered with the array `target`; the array it leaves. -/
def handleLink (fuel : Nat) (target : Target) (dstFd : Option Nat) (de : Dirent) (w : Walk) :
    Except LinkHalt (Walk × Target) := do
  let link ← orHalt (.exitOn "readlink") (w.sys.readlink de.name)
  let (target, ret) := target.readlink link
  if ret < targetLen then
    -- Nothing ends the string at `ret`.
    let text ← orHalt .unterminated (cString target.bytes)
    let sys ← orHalt (.exitOn "symlink") (w.sys.symlinkat text (w.sys.pathOf dstFd) de.name)
    .ok ({ w with sys := sys }, target)
  else
    -- `target_str(target, len)`
    let (targetStr, target) ← appendLoop link fuel target target.bytes
    let text := targetStr.takeWhile (· ≠ 0)
    let sys ← orHalt (.exitOn "symlink") (w.sys.symlinkat text (w.sys.pathOf dstFd) de.name)
    .ok ({ w with sys := sys }, target)

/-! ## A call -/

/-- What a call is entered with, the target of the source link and the directory of the
    destination. -/
structure LinkCall where
  buffer : Target
  dstFd : Option Nat
  entry : Dirent
  walk : Walk
  target : List Byte
  dir : Path

namespace LinkCall

/-- The source link has this target, and the destination has nothing of the name yet. -/
structure Ready (c : LinkCall) : Prop where
  link : c.walk.sys.node (c.walk.sys.cwd ++ [c.entry.name]) = some (.link c.target)
  dst : c.walk.sys.pathOf c.dstFd = some c.dir
  free : c.walk.sys.node (c.dir ++ [c.entry.name]) = none
  noNul : (0 : Byte) ∉ c.target

/-- A target that leaves room in the array. -/
structure Short (c : LinkCall) : Prop extends Ready c where
  pos : 1 ≤ c.target.length
  lt : c.target.length < targetLen

def run (c : LinkCall) (fuel : Nat) : Except LinkHalt (Walk × Target) :=
  handleLink fuel c.buffer c.dstFd c.entry c.walk

/-- The call returns, and the link it has created has the target of the source link. -/
def CopiesTarget (c : LinkCall) : Prop :=
  ∃ fuel w' target', c.run fuel = .ok (w', target') ∧
    w'.sys.node (c.dir ++ [c.entry.name]) = some (.link c.target)

end LinkCall

/-! ## A link in one directory -/

/-- `/s/l` is a link, and `/d` an empty directory, open under descriptor 0. -/
def linkNode (target : List Byte) (p : Path) : Option FsNode :=
  if p = [[115], [108]] then some (.link target)
  else if p = [[115]] ∨ p = [[100]] then some (.dir 0x1ed)
  else none

def sampleCall (buffer : Target) (target : List Byte) : LinkCall where
  buffer := buffer
  dstFd := some 0
  entry := { name := [108], type := .link }
  walk :=
    { files := []
      sys := { node := linkNode target, cwd := [[115]], fds := [some [[100]]] } }
  target := target
  dir := [[100]]

theorem sampleCall_ready (buffer : Target) {target : List Byte} (h : (0 : Byte) ∉ target) :
    (sampleCall buffer target).Ready where
  link := rfl
  dst := rfl
  free := rfl
  noNul := h

theorem length_arrayOf (rest : List Byte) :
    ((rest ++ List.replicate targetLen 0).take targetLen).length = targetLen := by
  rw [List.length_take, List.length_append, List.length_replicate]
  omega

/-- An array that holds `rest` and then NULs. -/
def arrayOf (rest : List Byte) : Target where
  bytes := (rest ++ List.replicate targetLen 0).take targetLen
  length_eq := length_arrayOf rest

/-! ## Short targets -/

section Strings

theorem takeWhile_noNul {link : List Byte} (h : (0 : Byte) ∉ link) (rest : List Byte) :
    (link ++ rest).takeWhile (· ≠ 0) = link ++ rest.takeWhile (· ≠ 0) := by
  apply List.takeWhile_append_of_pos
  intro b hb
  exact decide_eq_true fun hzero => h (hzero ▸ hb)

theorem readlink_short (target : Target) {link : List Byte} (h : link.length < targetLen) :
    (target.readlink link).1.bytes = link ++ target.bytes.drop link.length ∧
      (target.readlink link).2 = link.length := by
  have hmin := Nat.min_eq_right (Nat.le_of_lt h)
  refine ⟨?_, hmin⟩
  simp only [Target.readlink, hmin, List.take_of_length_le (Nat.le_of_lt h)]

/-- The string in the array is the target exactly if a NUL stands behind the target. -/
theorem cString_readlink_iff (target : Target) {link : List Byte} (hlt : link.length < targetLen)
    (hnul : (0 : Byte) ∉ link) :
    cString (target.readlink link).1.bytes = some link ↔ target.bytes[link.length]? = some 0 := by
  rw [(readlink_short target hlt).1, cString, takeWhile_noNul hnul]
  have hlt' : link.length < target.bytes.length := by rw [target.length_eq]; exact hlt
  obtain ⟨b, rest, hdrop⟩ : ∃ b rest, target.bytes.drop link.length = b :: rest := by
    exact ⟨_, _, List.drop_eq_getElem_cons hlt'⟩
  have hget : target.bytes[link.length]? = some b := by
    rw [← List.head?_drop, hdrop]
    rfl
  rw [hget, hdrop, Option.some.injEq]
  by_cases hb : b = 0
  · rw [List.takeWhile_cons_of_neg (by simpa using hb), List.append_nil]
    exact iff_of_true (if_pos (by simp [hb])) hb
  · -- The byte behind the target goes into the string, or there is no string.
    have htake : (b :: rest).takeWhile (· ≠ 0) = b :: rest.takeWhile (· ≠ 0) :=
      List.takeWhile_cons_of_pos (decide_eq_true hb)
    rw [htake]
    refine iff_of_false (fun hstr => ?_) hb
    split at hstr
    · have hlength := congrArg List.length (Option.some.inj hstr)
      simp only [List.length_append, List.length_cons] at hlength
      omega
    · cases hstr

end Strings

namespace LinkCall

/-- What a short target is copied to is the string in the array. -/
theorem run_short {c : LinkCall} (h : c.Short) (fuel : Nat) :
    c.run fuel =
      match cString (c.buffer.readlink c.target).1.bytes with
      | none => .error .unterminated
      | some text => .ok
          ({ c.walk with
             sys := { c.walk.sys with
               node := Function.update c.walk.sys.node (c.dir ++ [c.entry.name])
                 (some (.link text)) } },
           (c.buffer.readlink c.target).1) := by
  have hret : (c.buffer.readlink c.target).2 < targetLen := by
    rw [(readlink_short c.buffer h.lt).2]
    exact h.lt
  simp only [run, handleLink, readlink_of_node h.link, orHalt, bind, Except.bind, if_pos hret]
  cases cString (c.buffer.readlink c.target).1.bytes with
  | none => rfl
  | some text => simp only [Sys.symlinkat, h.dst, h.free]

theorem Short.copies_iff {c : LinkCall} (h : c.Short) :
    c.CopiesTarget ↔ c.buffer.bytes[c.target.length]? = some 0 := by
  -- The link that is created has the string of the array.
  rw [← cString_readlink_iff c.buffer h.lt h.noNul]
  constructor
  · rintro ⟨fuel, w', target', hrun, hnode⟩
    rw [run_short h] at hrun
    cases htext : cString (c.buffer.readlink c.target).1.bytes with
    | none =>
        rw [htext] at hrun
        cases hrun
    | some text =>
        rw [htext] at hrun
        cases hrun
        simp only [Function.update_self, Option.some.injEq, Node.link.injEq] at hnode
        rw [hnode]
  · intro htext
    have hrun := run_short h 0
    rw [htext] at hrun
    exact ⟨0, _, _, hrun, Function.update_self ..⟩

end LinkCall

/-- The links of any sequence of calls have the targets of their sources exactly if, at
    every call, the array it is entered with has a NUL at the place behind the target. -/
theorem copiesTarget_iff (calls : List LinkCall) (h : ∀ c ∈ calls, c.Short) :
    (∀ c ∈ calls, c.CopiesTarget) ↔
      ∀ c ∈ calls, c.buffer.bytes[c.target.length]? = some 0 :=
  forall₂_congr fun c hc => (h c hc).copies_iff

/-- Two links, the second read into what the first has left of an array of NULs: behind `a`
    comes `bc`, and behind `bc` would come `a`, which gets the `c` as well. -/
theorem copiesTarget_iff_sample :
    (∀ c ∈ [sampleCall (arrayOf []) [97], sampleCall ((arrayOf []).readlink [97]).1 [98, 99]],
        c.CopiesTarget) ∧
      ¬ ∀ c ∈ [sampleCall (arrayOf []) [98, 99], sampleCall ((arrayOf []).readlink [98, 99]).1 [97]],
        c.CopiesTarget := by
  have hshort : ∀ (buffer : Target) (target : List Byte), (0 : Byte) ∉ target → 1 ≤ target.length →
      target.length < targetLen → (sampleCall buffer target).Short := fun buffer target hnul hpos hlt =>
    { toReady := sampleCall_ready buffer hnul, pos := hpos, lt := hlt }
  constructor
  · refine (copiesTarget_iff _ ?_).mpr (by decide)
    rw [List.forall_mem_cons, List.forall_mem_singleton]
    exact ⟨hshort _ _ (by decide) (by decide) (by decide), hshort _ _ (by decide) (by decide) (by decide)⟩
  · intro h
    refine absurd ((copiesTarget_iff _ ?_).mp h) (by decide)
    rw [List.forall_mem_cons, List.forall_mem_singleton]
    exact ⟨hshort _ _ (by decide) (by decide) (by decide), hshort _ _ (by decide) (by decide) (by decide)⟩

/-- With `xyz` left in the array, the link to `a` becomes one to `ayz`. -/
theorem copiesTarget_fails :
    ¬ ∀ calls : List LinkCall, (∀ c ∈ calls, c.Short) → ∀ c ∈ calls, c.CopiesTarget := by
  intro h
  have hshort : (sampleCall (arrayOf [120, 121, 122]) [97]).Short :=
    { toReady := sampleCall_ready _ (by decide), pos := by decide, lt := by decide }
  have hcopies := h [_] (List.forall_mem_singleton.mpr hshort) _ (List.mem_singleton.mpr rfl)
  exact absurd (hshort.copies_iff.mp hcopies) (by decide)

/-! ## The array between the calls -/

/-- What the array holds when each of the links is copied, if only these calls write to it. -/
def residues : Target → List (List Byte) → List Target
  | _, [] => []
  | target, link :: links => target :: residues (target.readlink link).1 links

/-- A later target finds a NUL behind it if it is no shorter, and the array had one there. -/
theorem readlink_nul_iff (target : Target) {link : List Byte} (hlt : link.length < targetLen)
    (hnul : (0 : Byte) ∉ link) (n : Nat) :
    (target.readlink link).1.bytes[n]? = some 0 ↔
      link.length ≤ n ∧ target.bytes[n]? = some 0 := by
  rw [(readlink_short target hlt).1]
  by_cases hn : link.length ≤ n
  · rw [List.getElem?_append_right hn, List.getElem?_drop, Nat.add_sub_cancel' hn, and_iff_right hn]
  · rw [List.getElem?_append_left (by omega)]
    refine iff_of_false (fun hzero => hnul (List.mem_of_getElem? hzero)) fun h => hn h.1

theorem residues_nul_iff (links : List (List Byte))
    (h : ∀ link ∈ links, link.length < targetLen ∧ (0 : Byte) ∉ link) (target : Target) :
    (∀ x ∈ (residues target links).zip links, x.1.bytes[x.2.length]? = some 0) ↔
      (links.Pairwise fun a b => a.length ≤ b.length) ∧
        ∀ link ∈ links, target.bytes[link.length]? = some 0 := by
  -- Induction on the links: the array that the first one leaves is that of the others.
  induction links generalizing target with
  | nil => simp [residues]
  | cons link links ih =>
      obtain ⟨hlt, hnul⟩ := h link List.mem_cons_self
      have hrest := ih (fun l hl => h l (List.mem_cons_of_mem link hl)) (target.readlink link).1
      simp only [readlink_nul_iff target hlt hnul] at hrest
      rw [residues, List.zip_cons_cons, List.forall_mem_cons, hrest, List.pairwise_cons,
        List.forall_mem_cons]
      constructor
      · rintro ⟨hhead, hpair, hall⟩
        exact ⟨⟨fun l hl => (hall l hl).1, hpair⟩, hhead, fun l hl => (hall l hl).2⟩
      · rintro ⟨⟨hle, hpair⟩, hhead, hall⟩
        exact ⟨hhead, hpair, fun l hl => ⟨hle l hl, hall l hl⟩⟩

/-- Where the array is left as it is between the calls, their targets must not get shorter,
    and the array must have held a NUL behind each of them from the start. -/
theorem copiesInOrder_iff (target : Target) (calls : List LinkCall) (h : ∀ c ∈ calls, c.Short)
    (hbuffers : calls.map LinkCall.buffer = residues target (calls.map LinkCall.target)) :
    (∀ c ∈ calls, c.CopiesTarget) ↔
      (calls.Pairwise fun a b => a.target.length ≤ b.target.length) ∧
        ∀ c ∈ calls, target.bytes[c.target.length]? = some 0 := by
  have hlinks : ∀ link ∈ calls.map LinkCall.target,
      link.length < targetLen ∧ (0 : Byte) ∉ link := by
    intro link hlink
    obtain ⟨c, hc, rfl⟩ := List.mem_map.mp hlink
    exact ⟨(h c hc).lt, (h c hc).noNul⟩
  have hiff := residues_nul_iff _ hlinks target
  rw [← hbuffers, List.zip_map', List.forall_mem_map, List.pairwise_map, List.forall_mem_map] at hiff
  rw [← hiff]
  exact forall₂_congr fun c hc => (h c hc).copies_iff

/-! ## Long targets -/

/-- Every call of `readlink` fills the array. -/
theorem readlink_long (target : Target) {link : List Byte} (h : targetLen ≤ link.length) :
    (target.readlink link).2 = targetLen := Nat.min_eq_left h

/-- The condition of the loop holds after every round. -/
theorem appendLoop_running {link : List Byte} (h : targetLen ≤ link.length) (fuel : Nat) :
    ∀ (target : Target) (targetStr : List Byte),
      appendLoop link fuel target targetStr = .error .running := by
  -- Induction on the fuel: whatever has been appended, `ret` is `len` again.
  induction fuel with
  | zero => exact fun _ _ => rfl
  | succ fuel ih =>
      intro target targetStr
      rw [appendLoop]
      simp only [readlink_long target h, if_true]
      exact ih _ _

theorem LinkCall.Ready.run_long {c : LinkCall} (h : c.Ready)
    (hlong : targetLen ≤ c.target.length) (fuel : Nat) : c.run fuel = .error .running := by
  have hret : ¬ (c.buffer.readlink c.target).2 < targetLen := by
    rw [readlink_long c.buffer hlong]
    exact Nat.lt_irrefl _
  simp only [LinkCall.run, handleLink, readlink_of_node h.link, orHalt, bind, Except.bind,
    if_neg hret, appendLoop_running hlong]

/-- A target that fills the array is never copied: the loop does not end. -/
theorem longTarget_running {c : LinkCall} (h : c.Ready) (hlong : targetLen ≤ c.target.length) :
    (∀ fuel, c.run fuel = .error .running) ∧ ¬ c.CopiesTarget := by
  refine ⟨h.run_long hlong, ?_⟩
  rintro ⟨fuel, w', target', hrun, -⟩
  rw [h.run_long hlong] at hrun
  cases hrun

theorem not_mem_replicate_a (n : Nat) : (0 : Byte) ∉ List.replicate n (97 : Byte) := by
  intro h
  exact absurd (List.eq_of_mem_replicate h) (by decide)

theorem longTarget_running_sample :
    (∀ fuel, (sampleCall (arrayOf []) (List.replicate 300 97)).run fuel = .error .running) ∧
      ¬ (sampleCall (arrayOf []) (List.replicate 300 97)).CopiesTarget :=
  longTarget_running (sampleCall_ready _ (not_mem_replicate_a 300))
    (by rw [sampleCall, List.length_replicate]; decide)

/-- A target of 256 bytes. -/
theorem longTarget_fails :
    ¬ ∀ c : LinkCall, c.Ready → targetLen ≤ c.target.length → c.CopiesTarget := by
  intro h
  have hready := sampleCall_ready (arrayOf []) (not_mem_replicate_a 256)
  have hlong : targetLen ≤ (sampleCall (arrayOf []) (List.replicate 256 97)).target.length := by
    rw [sampleCall, List.length_replicate]
    decide
  obtain ⟨fuel, w', target', hrun, -⟩ := h _ hready hlong
  rw [hready.run_long hlong] at hrun
  cases hrun

/-! ## The walk -/

/-- Both ways of a call end with `symlinkat`, as the walk has it. -/
theorem handleSymbolicLink_of_symlinkat {dstFd : Option Nat} {de : Dirent} {w : Walk}
    {link text : List Byte} (hread : w.sys.readlink de.name = some link) {target' : Target}
    {result : Walk × Target}
    (h : (do
      let sys ← orHalt (.exitOn "symlink") (w.sys.symlinkat text (w.sys.pathOf dstFd) de.name)
      .ok ({ w with sys := sys }, target') : Except LinkHalt (Walk × Target)) = .ok result)
    (linkText : Path → List Byte → List Byte)
    (htext : linkText (w.sys.cwd ++ [de.name]) link = text) :
    handleSymbolicLink linkText dstFd de w = .ok result.1 := by
  cases hmake : w.sys.symlinkat text (w.sys.pathOf dstFd) de.name with
  | none =>
      rw [hmake] at h
      cases h
  | some sys =>
      rw [hmake] at h
      cases h
      simp only [handleSymbolicLink, hread, exitOn, bind, Except.bind, htext, hmake]

/-- A call that returns is the one of the walk, with the string it has found as the text
    that the link is given. -/
theorem handleLink_eq {fuel : Nat} {target : Target} {dstFd : Option Nat} {de : Dirent}
    {w : Walk} {result : Walk × Target} (h : handleLink fuel target dstFd de w = .ok result) :
    ∃ text : List Byte, ∀ linkText : Path → List Byte → List Byte,
      (∀ link, linkText (w.sys.cwd ++ [de.name]) link = text) →
        handleSymbolicLink linkText dstFd de w = .ok result.1 := by
  -- The text is that of the way which the call has taken.
  rw [handleLink] at h
  cases hread : w.sys.readlink de.name with
  | none =>
      rw [hread] at h
      cases h
  | some link =>
      rw [hread] at h
      simp only [orHalt, bind, Except.bind] at h
      split at h
      · cases htext : cString (target.readlink link).1.bytes with
        | none =>
            rw [htext] at h
            cases h
        | some text =>
            rw [htext] at h
            exact ⟨text, fun linkText hlink =>
              handleSymbolicLink_of_symlinkat hread h linkText (hlink link)⟩
      · cases hloop : appendLoop link fuel (target.readlink link).1
            (target.readlink link).1.bytes with
        | error halt =>
            rw [hloop] at h
            cases h
        | ok found =>
            rw [hloop] at h
            exact ⟨_, fun linkText hlink =>
              handleSymbolicLink_of_symlinkat hread h linkText (hlink link)⟩

end GogetaTools.Mcp
