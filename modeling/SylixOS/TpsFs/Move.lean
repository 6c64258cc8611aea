import SylixOS.Lib.Edges

/-! # Moving an entry

`tpsFsMove` changes the namespace in transactions of its own and, where the destination exists, in those
of `tpsFsRemove` before them. After a failure or a crash the namespace is that of the last commit. -/

namespace SylixOS.TpsFs
open Lib

abbrev Name := List Char

inductive Errno where
  | einval | enoent | eio | enomem | eisdir | enotdir | enotempty
  deriving DecidableEq, Repr

/-- The directories of a volume: which inodes are directories, and the entries with their names. No two
entries of a directory have one name. -/
structure NameSpace where
  inumRoot : ℕ
  isDir : ℕ → Bool
  entries : List ((ℕ × Name) × ℕ)
  nodup : (entries.map Prod.fst).Nodup

namespace NameSpace

/-- `tpsFsFindEntry`, which is called for directories only. -/
def find (s : NameSpace) (inumDir : ℕ) (name : Name) : Option ℕ :=
  if s.isDir inumDir then s.entries.lookup (inumDir, name) else none

/-- `tpsFsReadDir` finds no entry. -/
def isEmpty (s : NameSpace) (inumDir : ℕ) : Bool := s.entries.all fun x => x.1.1 ≠ inumDir

/-- `tpsFsEntryRemove`. -/
def erase (s : NameSpace) (key : ℕ × Name) : NameSpace where
  inumRoot := s.inumRoot
  isDir := s.isDir
  entries := s.entries.filter fun x => x.1 ≠ key
  nodup := s.nodup.sublist (List.filter_sublist.map _)

/-- `tpsFsCreateEntry` for a name that is missing. In a file that is not a directory it writes the entry
over the data. -/
def create (s : NameSpace) (key : ℕ × Name) (inum : ℕ) : NameSpace :=
  if s.isDir key.1 then
    { (s.erase key) with
      entries := (key, inum) :: (s.erase key).entries
      nodup := by
        rw [List.map_cons, List.nodup_cons]
        exact ⟨by simp [erase], (s.erase key).nodup⟩ }
  else s

end NameSpace

/-! ## Paths -/

/-- `__tpsFsCheckFileName`. -/
def checkFileName (pcName : List Char) : Bool :=
  let pcTemp := (pcName.splitOn '/').getLast?.getD []
  (if '/' ∈ pcName then pcTemp ≠ [] ∧ pcTemp ≠ ['.'] ∧ pcTemp ≠ ['.', '.'] else pcName ≠ []) ∧
    pcName.all fun c => c ∉ ['\\', '*', '?', '<', '>', ':', '"', '|', '\t', '\r', '\n']

/-- The names of a path. -/
def pathNames (pcPath : List Char) : List Name := (pcPath.splitOn '/').filter (· ≠ [])

/-- `TPS_ENTRY`: `ENTRY_inumDir` and its place in that directory, for which its name stands here. The root
has none. -/
abbrev Entry := Place ℕ Name

/-- `__tpsFsWalkPath`, unless the memory or the device fails: the entry and what is behind `ppcRemain`. -/
def walkPath (s : NameSpace) (pcPath : List Char) (fault : Option Errno) :
    Except Errno (Entry × List Name) :=
  if checkFileName pcPath then
    match fault with
    | some iErr => .error iErr
    | none => .ok (Edges.walk s.find ⟨none, s.inumRoot⟩ (pathNames pcPath))
  else .error .einval

/-! ## The operations -/

/-- A transaction of `tpsFsRemove`: it is committed and another one follows, or it fails. -/
inductive Round where
  | again
  | fails (iErr : Errno)

/-- What fails in `tpsFsRemove`: a search, the first look at a directory, the transactions. -/
structure RemoveFaults where
  walk : Option Errno
  readDir : Bool
  rounds : List Round

/-- What fails in `tpsFsMove`: a search, the removal, the last transaction. -/
structure MoveFaults where
  walkSrc : Option Errno
  walkDst : Option Errno
  remove : RemoveFaults
  walkAgain : Option Errno
  trans : Option Errno

/-- The loop of `tpsFsRemove`: the namespaces that are committed, and the error. -/
def removeLoop (s : NameSpace) (key : ℕ × Name) : List Round → List NameSpace × Option Errno
  | [] => ([s.erase key], none)
  | .again :: rounds =>
    match removeLoop s key rounds with
    | (l, iErr) => (s :: l, iErr)
  | .fails iErr :: _ => ([], some iErr)

/-- `tpsFsRemove`. The root has no entry that can be removed. -/
def tpsFsRemove (s : NameSpace) (pcPath : List Char) (faults : RemoveFaults) :
    List NameSpace × Option Errno :=
  match walkPath s pcPath faults.walk with
  | .error iErr => ([], some iErr)
  | .ok (pentry, pcRemain) =>
    if pcRemain ≠ [] then ([], some .enoent)
    else if s.isDir pentry.node ∧ (faults.readDir = true ∨ s.isEmpty pentry.node = false) then
      ([], some .enotempty)
    else
      match pentry.edge with
      | none => ([], some .eio)
      | some key => removeLoop s key faults.rounds

/-- The end of `tpsFsMove`: the new entry and the old one in one transaction. -/
def moveEntry (s : NameSpace) (pentrySrc pentryDst : Entry) (pcRemain : List Name)
    (fault : Option Errno) : List NameSpace × Option Errno :=
  match pcRemain, fault, pentrySrc.edge with
  | [pcFileName], none, some key =>
    ([(s.create (pentryDst.node, pcFileName) pentrySrc.node).erase key], none)
  | [_], some iErr, _ => ([], some iErr)
  | [_], none, none => ([], some .eio)
  | _, _, _ => ([], some .enoent)

/-- `tpsFsMove`. -/
def tpsFsMove (s : NameSpace) (pcPathSrc pcPathDst : List Char) (faults : MoveFaults) :
    List NameSpace × Option Errno :=
  match walkPath s pcPathSrc faults.walkSrc with
  | .error iErr => ([], some iErr)
  | .ok (pentrySrc, pcRemain) =>
    if pcRemain ≠ [] then ([], some .enoent)
    else
      match walkPath s pcPathDst faults.walkDst with
      | .error iErr => ([], some iErr)
      | .ok (pentryDst, pcRemain) =>
        if pentrySrc.edge = pentryDst.edge then ([], none)
        else if pcRemain = [] then
          if s.isDir pentrySrc.node = false ∧ s.isDir pentryDst.node = true then ([], some .eisdir)
          else if s.isDir pentrySrc.node = true ∧ s.isDir pentryDst.node = false then
            ([], some .enotdir)
          else
            match tpsFsRemove s pcPathDst faults.remove with
            | (l, some iErr) => (l, some iErr)
            | (l, none) =>
              let s := l.getLast?.getD s
              match walkPath s pcPathDst faults.walkAgain with
              | .error iErr => (l, some iErr)
              | .ok (pentryDst, pcRemain) =>
                match moveEntry s pentrySrc pentryDst pcRemain faults.trans with
                | (l', iErr) => (l ++ l', iErr)
        else moveEntry s pentrySrc pentryDst pcRemain faults.trans

/-! ## What the namespace may be -/

theorem lookup_filter_ne {α β : Type*} [DecidableEq α] [BEq α] [LawfulBEq α] (l : List (α × β)) (k k' : α) :
    (l.filter fun x => x.1 ≠ k).lookup k' = if k' = k then none else l.lookup k' := by
  induction l with
  | nil => simp
  | cons x l ih =>
    obtain ⟨a, b⟩ := x
    by_cases ha : a = k
    · subst ha
      rw [List.filter_cons_of_neg (by simp), ih, List.lookup_cons]
      by_cases hk : k' = a
      · rw [if_pos hk, if_pos hk]
      · rw [if_neg hk, if_neg hk, beq_eq_false_iff_ne.mpr hk]
    · rw [List.filter_cons_of_pos (by simpa using ha), List.lookup_cons, List.lookup_cons, ih]
      by_cases hk : k' = a
      · subst hk
        simp only [beq_self_eq_true, if_neg ha]
      · rw [beq_eq_false_iff_ne.mpr hk]

namespace NameSpace

variable {s s' : NameSpace} {key : ℕ × Name} {inum d : ℕ} {n : Name} {pcPath : List Char}

theorem find_erase (s : NameSpace) (key : ℕ × Name) (d : ℕ) (n : Name) :
    (s.erase key).find d n = if (d, n) = key then none else s.find d n := by
  have h : (s.erase key).entries.lookup (d, n) = _ := lookup_filter_ne s.entries key (d, n)
  have hdir : (s.erase key).isDir d = s.isDir d := rfl
  rw [find, find, h, hdir]
  split_ifs <;> rfl

theorem find_create (s : NameSpace) (inum d : ℕ) (n : Name) (hdir : s.isDir key.1 = true) :
    (s.create key inum).find d n = if (d, n) = key then some inum else s.find d n := by
  have herase := find_erase s key d n
  unfold create
  rw [if_pos hdir]
  by_cases hkey : (d, n) = key
  · subst hkey
    rw [if_pos rfl, find, List.lookup_cons_self]
    exact if_pos hdir
  · rw [if_neg hkey] at herase ⊢
    rw [find, List.lookup_cons, beq_eq_false_iff_ne.mpr hkey, ← herase]
    rfl

theorem find_create_file (s : NameSpace) (inum : ℕ) (hdir : s.isDir key.1 = false) :
    s.create key inum = s := if_neg (by simp [hdir])

theorem find_file (hdir : s.isDir d = false) : s.find d n = none := if_neg (by simp [hdir])

/-- The entry that a path leads to. -/
def resolve (s : NameSpace) (pcPath : List Char) : Option Entry :=
  match Edges.walk s.find ⟨none, s.inumRoot⟩ (pathNames pcPath) with
  | (pentry, []) => some pentry
  | _ => none

theorem resolve_eq {e : Entry} : s.resolve pcPath = some e ↔
    Edges.walk s.find ⟨none, s.inumRoot⟩ (pathNames pcPath) = (e, []) := by
  unfold resolve
  split
  · next e' h => rw [h, Option.some.injEq, Prod.mk.injEq, and_iff_left rfl]
  · next x hx =>
    refine iff_of_false nofun fun h => ?_
    exact hx e h

end NameSpace

/-- The destination names the inode of the source, the entry of the source is gone, and everything else
is as it was. -/
def Moved (s : NameSpace) (pcPathSrc pcPathDst : List Char) (s' : NameSpace) : Prop :=
  ∃ keySrc keyDst inum, s.resolve pcPathSrc = some ⟨some keySrc, inum⟩ ∧
    s'.resolve pcPathDst = some ⟨some keyDst, inum⟩ ∧
      ∀ d n, s'.find d n = if (d, n) = keyDst then some inum else if (d, n) = keySrc then none
        else s.find d n

/-- Every call can leave an entry of the source and another one at the destination, and it would do away
with the latter; or the entry would go into a file, or under the entry that is moved. -/
def Torn (s : NameSpace) (pcPathSrc pcPathDst : List Char) : Prop :=
  checkFileName pcPathSrc = true ∧ checkFileName pcPathDst = true ∧
    ∃ keySrc inum, s.resolve pcPathSrc = some ⟨some keySrc, inum⟩ ∧
      match Edges.walk s.find ⟨none, s.inumRoot⟩ (pathNames pcPathDst) with
      | (pentryDst, []) => pentryDst.edge ≠ some keySrc ∧ s.isDir inum = s.isDir pentryDst.node ∧
          (s.isDir pentryDst.node = true → s.isEmpty pentryDst.node = true)
      | (pentryDst, [_]) => pentryDst.edge ≠ some keySrc ∧ (s.isDir pentryDst.node = false ∨
          Edges.Passes s.find keySrc s.inumRoot (pathNames pcPathDst))
      | _ => False

/-- No failure and no crash leaves anything but the old namespace or the new one. -/
def Atomic (s : NameSpace) (pcPathSrc pcPathDst : List Char) : Prop :=
  ∀ faults, ∀ s' ∈ (tpsFsMove s pcPathSrc pcPathDst faults).1,
    s'.find = s.find ∨ Moved s pcPathSrc pcPathDst s'

/-! ## One case each -/

variable {s s' : NameSpace} {src dst : List Char} {keySrc keyDst : ℕ × Name} {inum : ℕ} {e : Entry}
  {x : Name}

/-- A path that is accepted has a name. -/
theorem pathNames_ne_nil (h : checkFileName src = true) : pathNames src ≠ [] := by
  have hname : ∃ t ∈ src.splitOn '/', t ≠ [] := by
    unfold checkFileName at h
    simp only [decide_eq_true_eq] at h
    obtain ⟨h, -⟩ := h
    split_ifs at h with hdiv
    · cases hlast : (src.splitOn '/').getLast? with
      | none => exact absurd (by rw [hlast]; rfl) h.1
      | some t =>
        rw [hlast] at h
        exact ⟨t, List.mem_of_getLast? hlast, h.1⟩
    · rw [List.splitOn_eq_singleton hdiv]
      exact ⟨src, .head _, h⟩
  obtain ⟨t, ht, hne⟩ := hname
  exact List.ne_nil_of_mem (List.mem_filter.mpr ⟨ht, by simpa using hne⟩)

theorem resolve_edge (hsrc : checkFileName src = true) (h : s.resolve src = some e) :
    ∃ key, e.edge = some key ∧ s.find key.1 key.2 = some e.node := by
  obtain ⟨d, c, hedge, hfind⟩ := Edges.walk_edge (pathNames_ne_nil hsrc) (NameSpace.resolve_eq.mp h)
  exact ⟨(d, c), hedge, hfind⟩

/-- Without its entry at the source, and nothing where the destination leads to, it is neither namespace.
-/
theorem not_moved (hsrc : s.find keySrc.1 keySrc.2 = some inum)
    (hgone : s'.find keySrc.1 keySrc.2 = none) (hdst : s'.resolve dst = none) :
    ¬(s'.find = s.find ∨ Moved s src dst s') := by
  rintro (hsame | ⟨_, _, _, -, hres, -⟩)
  · rw [hsame, hsrc] at hgone
    cases hgone
  · rw [hdst] at hres
    cases hres

/-- The removal of the destination is committed before anything else. -/
theorem not_atomic_replace (hsrc : checkFileName src = true) (hdst : checkFileName dst = true)
    (hres : s.resolve src = some ⟨some keySrc, inum⟩) (hres' : s.resolve dst = some e)
    (hne : e.edge ≠ some keySrc) (hkind : s.isDir inum = s.isDir e.node)
    (hempty : s.isDir e.node = true → s.isEmpty e.node = true) : ¬ Atomic s src dst := by
  intro h
  obtain ⟨keyDst, hedge, hfind⟩ := resolve_edge hdst hres'
  obtain ⟨d, n⟩ := keyDst
  have hmem : s.erase (d, n) ∈ (tpsFsMove s src dst ⟨none, none, ⟨none, false, []⟩, none, none⟩).1 := by
    have hremove : tpsFsRemove s dst ⟨none, false, []⟩ = ([s.erase (d, n)], none) := by
      have hfull : ¬(s.isDir e.node = true ∧ (false = true ∨ s.isEmpty e.node = false)) := by
        rintro ⟨hdir, hfull | hfull⟩
        · cases hfull
        · rw [hempty hdir] at hfull
          cases hfull
      simp only [tpsFsRemove, walkPath, if_pos hdst, NameSpace.resolve_eq.mp hres', hedge, if_neg hfull,
        ne_eq, not_true_eq_false, if_false, removeLoop]
    have hk₁ : ¬(s.isDir inum = false ∧ s.isDir e.node = true) := by simp [hkind]
    have hk₂ : ¬(s.isDir inum = true ∧ s.isDir e.node = false) := by simp [hkind]
    simp only [tpsFsMove, walkPath, if_pos hsrc, if_pos hdst, NameSpace.resolve_eq.mp hres,
      NameSpace.resolve_eq.mp hres', if_neg hne.symm, if_neg hk₁, if_neg hk₂, hremove, ne_eq,
      not_true_eq_false, if_false, if_true]
    exact List.mem_append_left _ (.head _)
  have hgone : (s.erase (d, n)).find d n = none := by rw [NameSpace.find_erase, if_pos rfl]
  rcases h _ _ hmem with hsame | ⟨kS, kD, i, hs, -, hmoved⟩
  · rw [hsame, hfind] at hgone
    cases hgone
  · rw [hres, Option.some.injEq, Place.mk.injEq, Option.some.injEq] at hs
    obtain ⟨rfl, rfl⟩ := hs
    have hat := hmoved d n
    rw [hgone, hfind] at hat
    split_ifs at hat with h₁ h₂
    exact hne (hedge.trans (congrArg some h₂))

section Missing
variable (hwalk : Edges.walk s.find ⟨none, s.inumRoot⟩ (pathNames dst) = (e, [x]))
include hwalk

/-- The last transaction leaves every other entry alone. -/
theorem find_moveEntry (inum d : ℕ) (c : Name) (i : ℕ) (hfind : s.find d c = some i)
    (hne : (d, c) ≠ keySrc) : ((s.create (e.node, x) inum).erase keySrc).find d c = some i := by
  obtain ⟨hmiss, -⟩ := Edges.walk_rest hwalk
  rw [NameSpace.find_erase, if_neg hne]
  cases hdir : s.isDir e.node with
  | false => rwa [s.find_create_file inum hdir]
  | true =>
    rw [s.find_create inum d c hdir, if_neg, hfind]
    rintro hkey
    cases hkey
    rw [hmiss] at hfind
    cases hfind

/-- An entry in a file, or below the one that is moved, is not found. -/
theorem resolve_moveEntry (hbad : s.isDir e.node = false ∨
    Edges.Passes s.find keySrc s.inumRoot (pathNames dst)) :
    ((s.create (e.node, x) inum).erase keySrc).resolve dst = none := by
  have hroot : ((s.create (e.node, x) inum).erase keySrc).inumRoot = s.inumRoot := by
    unfold NameSpace.create
    split_ifs <;> rfl
  have hgone : ((s.create (e.node, x) inum).erase keySrc).find keySrc.1 keySrc.2 = none := by
    rw [NameSpace.find_erase, if_pos rfl]
  have hends : Edges.Passes s.find keySrc s.inumRoot (pathNames dst) →
      ((s.create (e.node, x) inum).erase keySrc).resolve dst = none := fun hpass => by
    have hrest := Edges.walk_of_passes (find_moveEntry hwalk inum) hgone
      (e := ⟨none, s.inumRoot⟩) hpass
    cases hres : ((s.create (e.node, x) inum).erase keySrc).resolve dst with
    | none => rfl
    | some e' =>
      rw [NameSpace.resolve_eq, hroot] at hres
      rw [hres] at hrest
      exact absurd rfl hrest
  rcases hbad with hfile | hpass
  · by_cases hpass : Edges.Passes s.find keySrc s.inumRoot (pathNames dst)
    · exact hends hpass
    · obtain ⟨-, q, hq, hwalk'⟩ := Edges.walk_rest hwalk
      have hpass' : ¬ Edges.Passes s.find keySrc s.inumRoot q := fun h =>
        hpass (hq ▸ (Edges.Passes.append [x] hwalk').mpr (.inl h))
      have hsame := Edges.walk_of_agree (find_moveEntry hwalk inum)
        (e := ⟨none, s.inumRoot⟩) hpass' hwalk'
      have hnone : ((s.create (e.node, x) inum).erase keySrc).find e.node x = none := by
        rw [s.find_create_file inum hfile, NameSpace.find_erase, NameSpace.find_file hfile, ite_self]
      unfold NameSpace.resolve
      rw [hroot, hq, Edges.walk_append q [x] hsame, Edges.walk, hnone]
  · exact hends hpass

theorem moved_moveEntry (hres : s.resolve src = some ⟨some keySrc, inum⟩) (hdir : s.isDir e.node = true)
    (hpass : ¬ Edges.Passes s.find keySrc s.inumRoot (pathNames dst))
    (hsrc : s.find keySrc.1 keySrc.2 = some inum) :
    Moved s src dst ((s.create (e.node, x) inum).erase keySrc) := by
  obtain ⟨hmiss, q, hq, hwalk'⟩ := Edges.walk_rest hwalk
  have hroot : ((s.create (e.node, x) inum).erase keySrc).inumRoot = s.inumRoot := by
    unfold NameSpace.create
    split_ifs <;> rfl
  have hne : (e.node, x) ≠ keySrc := by
    rintro rfl
    rw [hsrc] at hmiss
    cases hmiss
  have hfind : ∀ d n, ((s.create (e.node, x) inum).erase keySrc).find d n =
      if (d, n) = (e.node, x) then some inum else if (d, n) = keySrc then none else s.find d n := by
    intro d n
    rw [NameSpace.find_erase, s.find_create inum d n hdir]
    by_cases h : (d, n) = (e.node, x)
    · rw [if_pos h, if_pos h, if_neg (h ▸ hne)]
    · rw [if_neg h, if_neg h]
  refine ⟨keySrc, (e.node, x), inum, hres, ?_, hfind⟩
  have hpass' : ¬ Edges.Passes s.find keySrc s.inumRoot q := fun h =>
    hpass (hq ▸ (Edges.Passes.append [x] hwalk').mpr (.inl h))
  have hsame := Edges.walk_of_agree (find_moveEntry hwalk inum)
    (e := ⟨none, s.inumRoot⟩) hpass' hwalk'
  rw [NameSpace.resolve_eq, hroot, hq, Edges.walk_append q [x] hsame, Edges.walk, hfind, if_pos rfl]
  rfl

end Missing

theorem walkPath_ok {fault : Option Errno} {w : Entry × List Name} (h : walkPath s src fault = .ok w) :
    checkFileName src = true ∧ Edges.walk s.find ⟨none, s.inumRoot⟩ (pathNames src) = w := by
  unfold walkPath at h
  split_ifs at h with hcheck
  cases fault with
  | none => exact ⟨hcheck, by injection h⟩
  | some iErr => cases h

/-- What is not empty stays, and no transaction begins. -/
theorem tpsFsRemove_full (faults : RemoveFaults)
    (hwalk : Edges.walk s.find ⟨none, s.inumRoot⟩ (pathNames dst) = (e, []))
    (hdir : s.isDir e.node = true) (hfull : s.isEmpty e.node = false) :
    ∃ iErr, tpsFsRemove s dst faults = ([], some iErr) := by
  unfold tpsFsRemove
  cases hdst : walkPath s dst faults.walk with
  | error iErr => exact ⟨iErr, rfl⟩
  | ok w =>
    obtain ⟨-, rfl⟩ := hwalk ▸ (walkPath_ok hdst).2
    refine ⟨.enotempty, ?_⟩
    simp only [hdir, hfull, ne_eq, not_true_eq_false, if_false, or_true, and_true, if_true]

/-- The files `/a` and `/b`. -/
def filesAB : NameSpace where
  inumRoot := 1
  isDir i := i = 1
  entries := [((1, ['a']), 2), ((1, ['b']), 3)]
  nodup := by decide

end SylixOS.TpsFs
