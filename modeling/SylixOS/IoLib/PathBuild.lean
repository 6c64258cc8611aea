import SylixOS.IoLib.PathCondense

/-! # Composing a path

`_PathCat` puts a directory before a file name, and `_PathBuildLink` builds the path that a symbolic link
stands for. Both copy into a buffer with functions that stop when it is full.
-/

namespace SylixOS.IoLib

/-- The errors that both report. -/
inductive PathErr where
  | ENAMETOOLONG
  | EINVAL
  | ERROR_SYSTEM_LOW_MEMORY
  deriving DecidableEq, Repr

/-- `_Strcatlim`. -/
def strcatlim (pcStr1 pcStr2 : Path) (stLimit : ℕ) : Path :=
  if pcStr1.length < stLimit then pcStr1 ++ pcStr2.take (min pcStr2.length (stLimit - pcStr1.length))
  else pcStr1

/-- What `lib_strlcpy` and `snprintf` leave in a buffer of some bytes. -/
def strlcpy (pcSrc : Path) (stN : ℕ) : Path := pcSrc.take (stN - 1)

/-- The first character of a file name that is not looked up in the directory. -/
def isRooted (pcFileName : Path) : Bool := pcFileName.head?.any fun c => "/\\~$".toList.contains c

/-- A divider, if there is none at the end. -/
def dividerAfter (pcDirName : Path) : Path := if pcDirName.getLast? = some '/' then [] else ['/']

/-- `LW_CFG_PATH_VXWORKS` and `PATH_MAX`, with `iosDevFind`, which returns the offset of the tail of a
name. -/
structure PathConf where
  vxWorks : Bool
  pathMax : ℕ
  iosDevFind : Path → ℕ

namespace PathConf
variable (g : PathConf)

/-- The device at the start of a directory, and the rest of it. -/
def splitDev (pcDirName : Path) : Path × Path :=
  if g.vxWorks && pcDirName.head? ≠ some '/' then
    (pcDirName.take (g.iosDevFind pcDirName), pcDirName.drop (g.iosDevFind pcDirName))
  else ([], pcDirName)

/-- A directory and a file name in a buffer. -/
def catDir (pcDirName pcFileName : Path) : Path :=
  let (pcResult, pcDirName) := g.splitDev pcDirName
  let pcResult :=
    if isRooted pcFileName || pcDirName = [] then pcResult
    else
      let pcResult := strcatlim pcResult pcDirName g.pathMax
      if pcDirName.getLast? ≠ some '/' then strcatlim pcResult ['/'] g.pathMax else pcResult
  strcatlim pcResult pcFileName g.pathMax

/-- `_PathCat`, where `LW_NULL` is treated as an empty name. Without a file name there has to be a
directory. -/
def pathCat (pcDirName pcFileName : Option Path) : Option (Except PathErr Path) :=
  let dir := pcDirName.getD []
  let file := pcFileName.getD []
  if file = [] then pcDirName.map .ok
  else if dir = [] then some (.ok file)
  else if g.pathMax + 1 ≤ file.length then some (.error .ENAMETOOLONG)
  else if g.iosDevFind file ≠ 0 then some (.ok file)
  else some (.ok (g.catDir dir file))

/-- The path that a directory and a file name stand for. -/
def catRule (pcDirName pcFileName : Path) : Path :=
  if pcFileName = [] then pcDirName
  else if pcDirName = [] ∨ g.iosDevFind pcFileName ≠ 0 then pcFileName
  else
    let (dev, dir) := g.splitDev pcDirName
    dev ++ (if isRooted pcFileName || dir = [] then [] else dir ++ dividerAfter dir) ++ pcFileName

end PathConf

/-- The four strings that a link is built from, where `LW_NULL` is empty. -/
structure LinkNames where
  pcDevName : Path
  pcPrefix : Path
  pcLinkDst : Path
  pcTail : Path

namespace LinkNames
variable (n : LinkNames)

/-- What is printed into `pcBuffer`. -/
def printed : Path :=
  let div := if n.pcTail ≠ [] ∧ n.pcTail.head? ≠ some '/' then ['/'] else []
  if n.pcLinkDst.head? = some '/' then n.pcLinkDst ++ div ++ n.pcTail
  else n.pcDevName ++ n.pcPrefix ++ ['/'] ++ n.pcLinkDst ++ div ++ n.pcTail

/-- There is nothing to put the link behind. -/
def direct (w : ℕ) : Prop :=
  (n.pcDevName.length + n.pcLinkDst.length + n.pcPrefix.length) % 2 ^ w = 0

instance (w : ℕ) : Decidable (n.direct w) := inferInstanceAs (Decidable (_ = 0))

/-- `stLenTotal`. -/
def stLenTotal (w : ℕ) : ℕ :=
  (n.pcDevName.length + n.pcPrefix.length + n.pcTail.length + n.pcLinkDst.length + 4) % 2 ^ w

/-- The path that a link with the tail behind it stands for. -/
def linkRule : Path :=
  if n.pcDevName = [] ∧ n.pcPrefix = [] ∧ n.pcLinkDst = [] then n.pcTail else n.printed

end LinkNames

/-- `_PathBuildLink` before `_PathCondense`, with a `size_t` of `w` bits; `alloc` says whether
`__SHEAP_ALLOC` has a block of so many bytes. -/
def buildLink (w : ℕ) (alloc : ℕ → Bool) (hasBuildName : Bool) (stMaxSize : ℕ)
    (pcDevName pcPrefix pcLinkDst pcTail : Option Path) : Except PathErr Path :=
  match pcLinkDst with
  | none => .error .EINVAL
  | some pcLinkDst =>
    let n : LinkNames := ⟨pcDevName.getD [], pcPrefix.getD [], pcLinkDst, pcTail.getD []⟩
    if hasBuildName = false ∨ stMaxSize = 0 then .error .EINVAL
    else if n.direct w then .ok (strlcpy pcLinkDst stMaxSize)
    else if n.stLenTotal w = 0 ∨ alloc (n.stLenTotal w) = false then .error .ERROR_SYSTEM_LOW_MEMORY
    else .ok (strlcpy (strlcpy n.printed (n.stLenTotal w)) stMaxSize)

/-- Success means that the whole path is there. -/
def Complete (r : Except PathErr Path) (rule : Path) : Prop := ∀ p, r = .ok p → p = rule

theorem complete_error (e : PathErr) (rule : Path) : Complete (.error e) rule := fun p h => by cases h

theorem complete_ok {p rule : Path} : Complete (.ok p) rule ↔ p = rule :=
  ⟨fun h => h p rfl, fun h q hq => by cases hq; exact h⟩

/-! ## Copies with a limit -/

theorem take_eq_iff {p : Path} {n : ℕ} : p.take n = p ↔ p.length ≤ n := by
  constructor
  · intro h
    have hlen := congrArg List.length h
    rw [List.length_take] at hlen
    omega
  · exact List.take_of_length_le

/-- A part of a path that is added to what the limit has left of the parts before it. -/
theorem strcatlim_take (x y : Path) (n : ℕ) : strcatlim (x.take n) y n = (x ++ y).take n := by
  by_cases h : x.length < n
  · rw [List.take_of_length_le h.le, strcatlim, if_pos h, List.take_append,
      List.take_of_length_le h.le, List.append_cancel_left_eq, List.take_eq_take_iff]
    omega
  · rw [strcatlim, List.length_take, if_neg (by omega), List.take_append_of_le_length (by omega)]

theorem strcatlim_of_le {x : Path} (y : Path) {n : ℕ} (h : n ≤ x.length) : strcatlim x y n = x := by
  rw [strcatlim, if_neg (by omega)]

theorem strlcpy_eq_iff {p : Path} {n : ℕ} (h : n ≠ 0) : strlcpy p n = p ↔ p.length < n := by
  rw [strlcpy, take_eq_iff]
  omega

/-! ## A directory and a file name -/

namespace PathConf
variable {g : PathConf} {pcDirName pcFileName : Path}

/-- What stands before the file name. -/
def before (g : PathConf) (pcDirName pcFileName : Path) : Path :=
  (g.splitDev pcDirName).1 ++
    if isRooted pcFileName || (g.splitDev pcDirName).2 = [] then []
    else (g.splitDev pcDirName).2 ++ dividerAfter (g.splitDev pcDirName).2

theorem catRule_eq (hfile : pcFileName ≠ []) (hdir : pcDirName ≠ [])
    (hdev : g.iosDevFind pcFileName = 0) :
    g.catRule pcDirName pcFileName = g.before pcDirName pcFileName ++ pcFileName := by
  rw [catRule, if_neg hfile, if_neg (by simp [hdir, hdev])]
  rfl

/-- The copies leave out what is beyond the limit, or all that stands behind the device. -/
theorem catDir_eq : g.catDir pcDirName pcFileName =
    if (g.splitDev pcDirName).1.length ≤ g.pathMax then
      (g.before pcDirName pcFileName ++ pcFileName).take g.pathMax
    else (g.splitDev pcDirName).1 := by
  rw [catDir, before]
  generalize g.splitDev pcDirName = split
  obtain ⟨dev, dir⟩ := split
  dsimp only
  by_cases hdev : dev.length ≤ g.pathMax
  · rw [if_pos hdev]
    have htake : dev = dev.take g.pathMax := (take_eq_iff.mpr hdev).symm
    by_cases hrooted : (isRooted pcFileName || dir = []) = true
    · rw [if_pos hrooted, if_pos hrooted, List.append_nil]
      nth_rewrite 1 [htake]
      exact strcatlim_take _ _ _
    · rw [if_neg hrooted, if_neg hrooted, dividerAfter]
      nth_rewrite 1 2 [htake]
      by_cases hlast : dir.getLast? = some '/'
      · rw [if_neg (not_not.mpr hlast), if_pos hlast, strcatlim_take, strcatlim_take, List.append_nil]
      · rw [if_pos hlast, if_neg hlast, strcatlim_take, strcatlim_take, strcatlim_take,
          List.append_assoc dev]
  · rw [if_neg hdev]
    have hfull : ∀ y, strcatlim dev y g.pathMax = dev := fun y => strcatlim_of_le y (by omega)
    split_ifs <;> simp only [hfull]

/-- A directory and a file name are both there if they fit. -/
theorem catDir_eq_iff (hfile : pcFileName ≠ []) :
    g.catDir pcDirName pcFileName = g.before pcDirName pcFileName ++ pcFileName ↔
      (g.before pcDirName pcFileName ++ pcFileName).length ≤ g.pathMax := by
  have hpos := List.length_pos_iff.mpr hfile
  have hlen : (g.splitDev pcDirName).1.length ≤ (g.before pcDirName pcFileName).length := by
    rw [before, List.length_append]
    exact Nat.le_add_right _ _
  rw [catDir_eq]
  split_ifs with hdev
  · exact take_eq_iff
  · refine iff_of_false (fun h => ?_) fun h => ?_
    · have hsame := congrArg List.length h
      rw [List.length_append] at hsame
      omega
    · rw [List.length_append] at h
      omega

/-- When `_PathCat` does not cut: the name is copied, is refused, or fits with the directory. -/
def CatFits (g : PathConf) (pcDirName pcFileName : Path) : Prop :=
  pcFileName = [] ∨ pcDirName = [] ∨ g.pathMax + 1 ≤ pcFileName.length ∨ g.iosDevFind pcFileName ≠ 0 ∨
    (g.catRule pcDirName pcFileName).length ≤ g.pathMax

theorem pathCat_complete_iff (g : PathConf) (pcDirName pcFileName : Option Path) :
    (∀ r, g.pathCat pcDirName pcFileName = some r →
      Complete r (g.catRule (pcDirName.getD []) (pcFileName.getD []))) ↔
    g.CatFits (pcDirName.getD []) (pcFileName.getD []) := by
  rw [pathCat, CatFits]
  by_cases hfile : pcFileName.getD [] = []
  · refine iff_of_true (fun r hr => ?_) (.inl hfile)
    rw [if_pos hfile, Option.map_eq_some_iff] at hr
    obtain ⟨dir, hdir, rfl⟩ := hr
    rw [complete_ok, catRule, if_pos hfile, hdir, Option.getD_some]
  generalize pcFileName.getD [] = file at hfile ⊢
  generalize pcDirName.getD [] = dir
  rw [if_neg hfile, or_iff_right hfile]
  by_cases hdir : dir = []
  · refine iff_of_true (fun r hr => ?_) (.inl hdir)
    rw [if_pos hdir, Option.some_inj] at hr
    rw [← hr, complete_ok, catRule, if_neg hfile, if_pos (.inl hdir)]
  rw [if_neg hdir, or_iff_right hdir]
  by_cases hlong : g.pathMax + 1 ≤ file.length
  · refine iff_of_true (fun r hr => ?_) (.inl hlong)
    rw [if_pos hlong, Option.some_inj] at hr
    rw [← hr]
    exact complete_error _ _
  rw [if_neg hlong, or_iff_right hlong]
  by_cases hdev : g.iosDevFind file ≠ 0
  · refine iff_of_true (fun r hr => ?_) (.inl hdev)
    rw [if_pos hdev, Option.some_inj] at hr
    rw [← hr, complete_ok, catRule, if_neg hfile, if_pos (.inr hdev)]
  rw [if_neg hdev, or_iff_right hdev, catRule_eq hfile hdir (not_not.mp hdev), ← catDir_eq_iff hfile]
  simp only [Option.some_inj, forall_eq', complete_ok]

end PathConf

/-! ## A link and what stands around it -/

namespace LinkNames
variable {n : LinkNames} {w stMaxSize : ℕ}

/-- When `_PathBuildLink` does not cut: the path fits the buffer, and its length fits a `size_t`; where
there is nothing before an empty link there is nothing behind it. -/
def Fits (n : LinkNames) (w stMaxSize : ℕ) : Prop :=
  if n.pcDevName = [] ∧ n.pcPrefix = [] ∧ n.pcLinkDst = [] then n.pcTail = []
  else n.printed.length < stMaxSize ∧
    if n.direct w then n.printed = n.pcLinkDst else n.printed.length < n.stLenTotal w

theorem length_le_printed (n : LinkNames) : n.pcLinkDst.length ≤ n.printed.length := by
  rw [printed]
  split_ifs <;> simp only [List.length_append] <;> omega

/-- The link alone is copied. -/
theorem direct_iff (hmax : stMaxSize ≠ 0) (h : n.direct w) :
    strlcpy n.pcLinkDst stMaxSize = n.linkRule ↔ n.Fits w stMaxSize := by
  rw [Fits, linkRule, if_pos h]
  split_ifs with hnil
  · rw [hnil.2.2, strlcpy, List.take_nil]
    exact eq_comm
  · have hle := n.length_le_printed
    constructor
    · intro heq
      have hlen := congrArg List.length heq
      rw [strlcpy, List.length_take] at hlen
      have hlt : n.pcLinkDst.length < stMaxSize := by omega
      rw [(strlcpy_eq_iff hmax).mpr hlt] at heq
      exact ⟨by omega, heq.symm⟩
    · rintro ⟨hlt, heq⟩
      rw [heq] at hlt ⊢
      exact (strlcpy_eq_iff hmax).mpr hlt

/-- The whole path is printed and copied. -/
theorem printed_iff (hmax : stMaxSize ≠ 0) (htotal : n.stLenTotal w ≠ 0) (h : ¬n.direct w) :
    strlcpy (strlcpy n.printed (n.stLenTotal w)) stMaxSize = n.linkRule ↔ n.Fits w stMaxSize := by
  have hnil : ¬(n.pcDevName = [] ∧ n.pcPrefix = [] ∧ n.pcLinkDst = []) := by
    rintro ⟨hdev, hprefix, hlink⟩
    refine h ?_
    rw [direct, hdev, hprefix, hlink]
    exact Nat.zero_mod _
  rw [Fits, linkRule, if_neg hnil, if_neg hnil, if_neg h, strlcpy, strlcpy, List.take_take, take_eq_iff]
  omega

end LinkNames

/-- When `_PathBuildLink` reports an error. -/
def LinkFails (w : ℕ) (alloc : ℕ → Bool) (hasBuildName : Bool) (stMaxSize : ℕ)
    (pcDevName pcPrefix pcLinkDst pcTail : Option Path) : Prop :=
  let n : LinkNames := ⟨pcDevName.getD [], pcPrefix.getD [], pcLinkDst.getD [], pcTail.getD []⟩
  pcLinkDst = none ∨ hasBuildName = false ∨ stMaxSize = 0 ∨
    ¬n.direct w ∧ (n.stLenTotal w = 0 ∨ alloc (n.stLenTotal w) = false)

theorem buildLink_complete_iff (w : ℕ) (alloc : ℕ → Bool) (hasBuildName : Bool) (stMaxSize : ℕ)
    (pcDevName pcPrefix pcLinkDst pcTail : Option Path) :
    Complete (buildLink w alloc hasBuildName stMaxSize pcDevName pcPrefix pcLinkDst pcTail)
      (LinkNames.linkRule ⟨pcDevName.getD [], pcPrefix.getD [], pcLinkDst.getD [], pcTail.getD []⟩) ↔
    LinkFails w alloc hasBuildName stMaxSize pcDevName pcPrefix pcLinkDst pcTail ∨
      LinkNames.Fits ⟨pcDevName.getD [], pcPrefix.getD [], pcLinkDst.getD [], pcTail.getD []⟩ w
        stMaxSize := by
  cases pcLinkDst with
  | none => exact iff_of_true (complete_error _ _) (.inl (.inl rfl))
  | some link =>
    rw [buildLink, LinkFails, Option.getD_some]
    generalize hn : (⟨pcDevName.getD [], pcPrefix.getD [], link, pcTail.getD []⟩ : LinkNames) = n
    have hlink : link = n.pcLinkDst := by rw [← hn]
    rw [hlink, or_iff_right (a := some n.pcLinkDst = none) (Option.some_ne_none _)]
    by_cases hbuf : hasBuildName = false ∨ stMaxSize = 0
    · rw [if_pos hbuf]
      exact iff_of_true (complete_error _ _) (.inl (hbuf.imp_right .inl))
    · have hmax : stMaxSize ≠ 0 := fun h => hbuf (.inr h)
      have hbuild : hasBuildName ≠ false := fun h => hbuf (.inl h)
      rw [if_neg hbuf, or_iff_right hbuild, or_iff_right hmax]
      by_cases hdirect : n.direct w
      · rw [if_pos hdirect, complete_ok, LinkNames.direct_iff hmax hdirect,
          or_iff_right fun h => h.1 hdirect]
      · rw [if_neg hdirect, and_iff_right hdirect]
        by_cases hfail : n.stLenTotal w = 0 ∨ alloc (n.stLenTotal w) = false
        · rw [if_pos hfail]
          exact iff_of_true (complete_error _ _) (.inl hfail)
        · rw [if_neg hfail, complete_ok, or_iff_right hfail]
          exact LinkNames.printed_iff hmax (fun h => hfail (.inl h)) hdirect

/-- Neither function cuts a path if and only if it fits. -/
theorem path_complete_iff (g : PathConf) (pcDirName pcFileName : Option Path) (w : ℕ)
    (alloc : ℕ → Bool) (hasBuildName : Bool) (stMaxSize : ℕ)
    (pcDevName pcPrefix pcLinkDst pcTail : Option Path) :
    ((∀ r, g.pathCat pcDirName pcFileName = some r →
        Complete r (g.catRule (pcDirName.getD []) (pcFileName.getD []))) ↔
      g.CatFits (pcDirName.getD []) (pcFileName.getD [])) ∧
    (Complete (buildLink w alloc hasBuildName stMaxSize pcDevName pcPrefix pcLinkDst pcTail)
        (LinkNames.linkRule ⟨pcDevName.getD [], pcPrefix.getD [], pcLinkDst.getD [], pcTail.getD []⟩) ↔
      LinkFails w alloc hasBuildName stMaxSize pcDevName pcPrefix pcLinkDst pcTail ∨
        LinkNames.Fits ⟨pcDevName.getD [], pcPrefix.getD [], pcLinkDst.getD [], pcTail.getD []⟩ w
          stMaxSize) :=
  ⟨PathConf.pathCat_complete_iff g pcDirName pcFileName,
    buildLink_complete_iff w alloc hasBuildName stMaxSize pcDevName pcPrefix pcLinkDst pcTail⟩

/-- A directory and a file name of 300 characters each. -/
def longDir : Path := '/' :: List.replicate 299 'd'

def longFile : Path := List.replicate 300 'f'

/-- They do not fit together where `PATH_MAX` is 512, and the path of this link does not fit a buffer of
eight bytes. -/
theorem not_path_complete :
    ¬(∀ r, PathConf.pathCat ⟨false, 512, fun _ => 0⟩ (some longDir) (some longFile) = some r →
      Complete r (PathConf.catRule ⟨false, 512, fun _ => 0⟩ longDir longFile)) ∧
    ¬Complete (buildLink 64 (fun _ => true) true 8 (some "/ram".toList) none (some "target".toList) none)
      (LinkNames.linkRule ⟨"/ram".toList, [], "target".toList, []⟩) := by
  have hcat : PathConf.pathCat ⟨false, 512, fun _ => 0⟩ (some longDir) (some longFile) =
      some (.ok (PathConf.catDir ⟨false, 512, fun _ => 0⟩ longDir longFile)) := by
    rw [PathConf.pathCat, Option.getD_some, Option.getD_some, if_neg (by decide +kernel),
      if_neg (by decide +kernel), if_neg (by decide +kernel), if_neg (by decide +kernel)]
  refine ⟨fun h => ?_, fun h => ?_⟩
  · have hlen := congrArg List.length (h _ hcat _ rfl)
    exact absurd hlen (by decide +kernel)
  · exact absurd (h _ rfl) (by decide)

end SylixOS.IoLib
