import SylixOS.Lib.NameTree
import SylixOS.Lib.Reach

/-! # The name space of ramFs

Nodes are made at the end of a path that was looked up, unlinked, and moved to another path. A path
is the list of its names; the one of the root is empty.
-/

namespace SylixOS.RamFs
open Lib

abbrev Name := List Char

/-- The kinds of a node that the calls tell apart. -/
inductive RamMode where
  | dir
  | lnk
  | reg
  deriving DecidableEq

inductive RamErr where
  | EINVAL
  | ENOENT
  | EEXIST
  | ENOMEM
  | EISDIR
  | ENOTDIR
  | ENOTEMPTY
  deriving DecidableEq

/-- A volume: `plineSon none` is `RAMFS_plineSon`. The nodes that are allocated are not kept by the code. -/
structure RamSpace where
  plineSon : Option ℕ → List ℕ
  pramnFather : ℕ → Option ℕ
  pcName : ℕ → Name
  mode : ℕ → RamMode
  nodes : List ℕ

/-- What `__ram_move` has to do after its checks. -/
inductive RamMove where
  | same
  | go (pramnTemp pramnNewFather : Option ℕ)

/-- The calls. A new node comes with what the heap gave for it, a move with whether the heap had
memory for the name. -/
inductive RamOp where
  | create (pcName : List Name) (bDir : Bool) (pramn : Option ℕ)
  | symlink (pcName : List Name) (pramn : Option ℕ)
  | unlink (pramn : ℕ)
  | move (pramn : ℕ) (pcNewName : List Name) (bMem : Bool)

/-- The characters that a new path must not have. -/
def fileErrorName : List Char := ['\\', '*', '?', '<', '>', ':', '"', '|', '\t', '\r', '\n']

/-- What follows the last divider of a path. -/
def fileName (pcName : List Name) : Name := pcName.getLast?.getD []

/-- `__fsCheckFileName`, for a path that begins at the root. -/
def fsCheckFileName (pcName : List Name) : Bool :=
  fileName pcName ∉ [[], ['.'], ['.', '.']] ∧ ∀ name ∈ pcName, name.all (· ∉ fileErrorName)

namespace RamSpace

variable (s : RamSpace)

def links : Links ℕ Name := ⟨s.plineSon, s.pramnFather, s.pcName⟩

/-- A link ends the search, and a file must be the last name. -/
def visit (n : ℕ) : Visit :=
  match s.mode n with
  | .lnk => .stop
  | .dir => .enter
  | .reg => .leaf

/-- `__ram_open`. The father of a node that is found is the one it says. -/
def ramOpen (pcName : List Name) : Lookup ℕ Name := s.links.lookup s.visit none pcName

/-- `__ram_maken`, once there is memory. -/
def ramMaken (pcName : List Name) (pramnFather : Option ℕ) (mode : RamMode) (pramn : ℕ) : RamSpace where
  plineSon := Function.update (Function.update s.plineSon (some pramn) []) pramnFather
    (pramn :: s.plineSon pramnFather)
  pramnFather := Function.update s.pramnFather pramn pramnFather
  pcName := Function.update s.pcName pramn (fileName pcName)
  mode := Function.update s.mode pramn mode
  nodes := pramn :: s.nodes

/-- A directory with sons is not unlinked. -/
def unlinkRefuses (pramn : ℕ) : Bool := s.mode pramn = .dir ∧ s.plineSon (some pramn) ≠ []

/-- `__ram_unlink`. -/
def ramUnlink (pramn : ℕ) : Except RamErr RamSpace :=
  if s.unlinkRefuses pramn then
    .error .ENOTEMPTY
  else
    let pramnFather := s.pramnFather pramn
    .ok { s with
      plineSon := Function.update s.plineSon pramnFather ((s.plineSon pramnFather).erase pramn)
      nodes := s.nodes.erase pramn }

/-- `__ram_move_check`, with a bound for the loop: is the second node not below the first one? -/
def ramMoveCheck (pramn₁ : ℕ) : ℕ → ℕ → Option Bool
  | 0, _ => none
  | fuel + 1, pramn₂ =>
    if pramn₁ = pramn₂ then
      some false
    else
      match s.pramnFather pramn₂ with
      | none => some true
      | some pramn₂ => ramMoveCheck pramn₁ fuel pramn₂

/-- Is the new father not below a directory that is moved? -/
def moveBelow (pramn : ℕ) (pramnNewFather : Option ℕ) : Option Bool :=
  match s.mode pramn, pramnNewFather with
  | .dir, some d => s.ramMoveCheck pramn s.nodes.length d
  | _, _ => some true

/-- The checks of `__ram_move` after the lookup. -/
def moveTarget (pramn : ℕ) (pramnTemp pramnNewFather : Option ℕ) (bMem : Bool) :
    Option (Except RamErr RamMove) := do
  if !(← s.moveBelow pramn pramnNewFather) then
    return .error .EINVAL
  if !bMem then
    return .error .ENOMEM
  match pramnTemp with
  | none => return .ok (.go none pramnNewFather)
  | some t =>
    if s.mode pramn ≠ .dir ∧ s.mode t = .dir then
      return .error .EISDIR
    else if s.mode pramn = .dir ∧ s.mode t ≠ .dir then
      return .error .ENOTDIR
    else
      return .ok (.go (some t) pramnNewFather)

/-- The lookup and the checks of `__ram_move`. -/
def moveChecks (pramn : ℕ) (pcNewName : List Name) (bMem : Bool) : Option (Except RamErr RamMove) :=
  match s.ramOpen pcNewName with
  | .root => some (.error .EINVAL)
  | .missing d bLast => if bLast then s.moveTarget pramn none d bMem else some (.error .EINVAL)
  | .found t _ =>
    if pramn = t then some (.ok .same)
    else s.moveTarget pramn (some t) (s.pramnFather t) bMem

/-- The end of `__ram_move`: the node changes its list and its name. -/
def moveLink (pramn : ℕ) (pramnNewFather : Option ℕ) (pcFileName : Name) : RamSpace :=
  let pramnFather := s.pramnFather pramn
  let del := Function.update s.plineSon pramnFather ((s.plineSon pramnFather).erase pramn)
  { s with
    plineSon :=
      if pramnFather = pramnNewFather then s.plineSon
      else Function.update del pramnNewFather (pramn :: del pramnNewFather)
    pcName := Function.update s.pcName pramn pcFileName }

/-- `__ram_move`. -/
def ramMove (pramn : ℕ) (pcNewName : List Name) (bMem : Bool) : Option (Except RamErr RamSpace) := do
  match ← s.moveChecks pramn pcNewName bMem with
  | .error e => return .error e
  | .ok .same => return .ok s
  | .ok (.go none d) => return .ok (s.moveLink pramn d (fileName pcNewName))
  | .ok (.go (some t) d) =>
    match s.ramUnlink t with
    | .error e => return .error e
    | .ok s => return .ok (s.moveLink pramn d (fileName pcNewName))

/-- The creation in `__ramFsOpen`. -/
def ramFsCreate (pcName : List Name) (bDir : Bool) (pramn : Option ℕ) : Except RamErr RamSpace :=
  if !fsCheckFileName pcName then
    .error .ENOENT
  else
    match s.ramOpen pcName with
    | .root => .ok s
    | .found _ _ => .ok s
    | .missing d bLast =>
      if bLast then
        match pramn with
        | none => .error .ENOMEM
        | some pramn => .ok (s.ramMaken pcName d (if bDir then .dir else .reg) pramn)
      else
        .error .ENOENT

/-- `__ramFsSymlink`, which does not ask at which name the lookup failed. -/
def ramFsSymlink (pcName : List Name) (pramn : Option ℕ) : Except RamErr RamSpace :=
  if !fsCheckFileName pcName then
    .error .EINVAL
  else
    match s.ramOpen pcName with
    | .root => .error .EEXIST
    | .found _ _ => .error .EEXIST
    | .missing d _ =>
      match pramn with
      | none => .error .ENOMEM
      | some pramn => .ok (s.ramMaken pcName d .lnk pramn)

def call : RamOp → Option (Except RamErr RamSpace)
  | .create pcName bDir pramn => some (s.ramFsCreate pcName bDir pramn)
  | .symlink pcName pramn => some (s.ramFsSymlink pcName pramn)
  | .unlink pramn => some (s.ramUnlink pramn)
  | .move pramn pcNewName bMem => s.ramMove pramn pcNewName bMem

/-- A caller has nodes of the volume, and the heap gives memory that is not in use. -/
def Valid : RamOp → Prop
  | .create _ _ pramn => ∀ n ∈ pramn, n ∉ s.nodes
  | .symlink _ pramn => ∀ n ∈ pramn, n ∉ s.nodes
  | .unlink pramn => pramn ∈ s.nodes
  | .move pramn _ _ => pramn ∈ s.nodes

instance : DecidablePred s.Valid
  | .create _ _ none => isTrue nofun
  | .symlink _ none => isTrue nofun
  | .create _ _ (some n) => decidable_of_iff (n ∉ s.nodes) (by simp [Valid])
  | .symlink _ (some n) => decidable_of_iff (n ∉ s.nodes) (by simp [Valid])
  | .unlink n => inferInstanceAs (Decidable (n ∈ s.nodes))
  | .move n _ _ => inferInstanceAs (Decidable (n ∈ s.nodes))

/-- A call that fails leaves the volume as it is. -/
def step (op : RamOp) : Option RamSpace :=
  if s.Valid op then (s.call op).map fun r => r.toOption.getD s else none

/-- A link whose directory is missing, and a move that gets past its checks: the name is free where
the node goes, and the move keeps the directory. -/
def StepOk : RamOp → Prop
  | .symlink pcName (some _) => fsCheckFileName pcName = true → ∀ d, s.ramOpen pcName = .missing d false →
      ∀ m ∈ s.plineSon d, s.pcName m ≠ fileName pcName
  | .move pramn pcNewName bMem =>
      ∀ t d, s.moveChecks pramn pcNewName bMem = some (.ok (.go t d)) →
        (∀ m ∈ t, s.unlinkRefuses m = false) →
        s.pramnFather pramn = d ∧
          ∀ m ∈ s.plineSon d, m ≠ pramn → m ∉ t → s.pcName m ≠ fileName pcNewName
  | _ => True

/-- A volume without nodes. -/
def Init : Prop := (∀ d, s.plineSon d = []) ∧ s.nodes = []

/-- The allocated nodes form a tree. -/
structure Safe : Prop where
  tree : s.links.Tree s.nodes fun n => s.mode n = .dir
  acyclic : ∀ n, ¬ s.links.Below n n
  /-- What is not allocated has no sons. -/
  freed : ∀ n, n ∉ s.nodes → s.plineSon (some n) = []
  total : ∀ op, s.Valid op → ∃ s', s.step op = some s'

/-! ## What each call does to the tree -/

/-- The allocated nodes form a tree in which directories have sons. -/
def Inv : Prop := s.links.Tree s.nodes fun n => s.mode n = .dir

variable {s} {n : ℕ} {d : Option ℕ} {p tail : List Name}
  {last bMem : Bool} {pramn : Option ℕ}

section Inv
variable (hs : s.Inv)
include hs

theorem Inv.sons_freed (hn : n ∉ s.nodes) : s.plineSon (some n) = [] := by
  refine List.eq_nil_iff_forall_not_mem.mpr fun m hm => hn ?_
  have hfather := (Links.Tree.mem hs (some n) m).mp hm
  exact (Links.Tree.father hs m hfather.1 n hfather.2).1

theorem Inv.open_found (h : s.ramOpen p = .found n tail) : n ∈ s.nodes := by
  obtain ⟨pre, -, hat, -⟩ := Links.lookup_found h Links.IsAt.root
  exact Links.IsAt.mem_nodes hs hat

/-- A missing name leads to a directory, which has no such son when it was the last one. -/
theorem Inv.open_missing (h : s.ramOpen p = .missing d last) :
    (∀ k, d = some k → k ∈ s.nodes ∧ s.mode k = .dir) ∧
      (last = true → ∀ m ∈ s.plineSon d, s.pcName m ≠ fileName p) := by
  obtain ⟨pre, c, rest, hp, hat, hfather, hlast⟩ := Links.lookup_missing h Links.IsAt.root
  refine ⟨fun k hk => ?_, fun hl => ?_⟩
  · subst hk
    refine ⟨Links.IsAt.mem_nodes hs hat, ?_⟩
    rcases hfather with hfather | ⟨j, hj, hvisit⟩
    · cases hfather
    · obtain rfl := Option.some.inj hj
      unfold visit at hvisit
      split at hvisit
      · cases hvisit
      · assumption
      · cases hvisit
  · obtain ⟨rfl, hname⟩ := hlast hl
    rw [hp, fileName, List.getLast?_concat]
    exact hname

theorem Inv.maken (hn : n ∉ s.nodes) (hd : ∀ k, d = some k → k ∈ s.nodes ∧ s.mode k = .dir)
    (hc : ∀ m ∈ s.plineSon d, s.pcName m ≠ fileName p) (mode : RamMode) :
    (s.ramMaken p d mode n).Inv := by
  have hmode {k : ℕ} (hk : k ∈ s.nodes) (hdir : s.mode k = .dir) :
      Function.update s.mode n mode k = .dir := by
    have hne : k ≠ n := fun heq => hn (heq ▸ hk)
    rwa [Function.update_of_ne hne]
  exact Links.Tree.add hs hn (fun k hk => (hd k hk).1) (fun k hk => hmode hk)
    (fun k hk => hmode (hd k hk).1 (hd k hk).2) hc

theorem Inv.unlink (hn : s.unlinkRefuses n = false) {s' : RamSpace} (h : s.ramUnlink n = .ok s') :
    s'.Inv := by
  unfold ramUnlink at h
  rw [hn] at h
  obtain rfl := Except.ok.inj h
  have hson : s.plineSon (some n) = [] := by
    by_contra hne
    obtain ⟨m, hm⟩ := List.exists_mem_of_ne_nil _ hne
    have hfather := (Links.Tree.mem hs (some n) m).mp hm
    have hdir := (Links.Tree.father hs m hfather.1 n hfather.2).2
    simp [unlinkRefuses, hdir, hne] at hn
  exact Links.Tree.del hs hson

/-- The search for the moved directory ends at the root. -/
theorem Inv.moveCheck_total (hd : n ∈ s.nodes) (m : ℕ) :
    ∃ b, s.ramMoveCheck m s.nodes.length n = some b := by
  obtain ⟨k, hk⟩ := Links.Tree.rooted hs n hd
  have hle := Links.Tree.depth_le hs hd hk
  generalize s.nodes.length = fuel at hle
  generalize hn : some n = e at hk
  induction hk generalizing n fuel with
  | root => cases hn
  | @son n' k hk ih =>
    obtain rfl := Option.some.inj hn
    cases fuel with
    | zero => omega
    | succ fuel =>
      unfold ramMoveCheck
      split_ifs
      · exact ⟨_, rfl⟩
      · cases hfather : s.pramnFather n with
        | none => exact ⟨_, rfl⟩
        | some j =>
          exact ih (Links.Tree.father hs n hd j hfather).1 fuel (by omega) hfather.symm

theorem Inv.moveTarget_total (hd : ∀ k, d = some k → k ∈ s.nodes) (m : ℕ) (t : Option ℕ)
    (bMem : Bool) : ∃ r, s.moveTarget m t d bMem = some r := by
  have hbelow : ∃ b, s.moveBelow m d = some b := by
    unfold moveBelow
    split
    · exact hs.moveCheck_total (hd _ rfl) m
    · exact ⟨_, rfl⟩
  obtain ⟨b, hb⟩ := hbelow
  unfold moveTarget
  rw [hb]
  cases b <;> cases bMem <;> cases t <;> try exact ⟨_, rfl⟩
  simp only [Option.bind_eq_bind, Option.bind_some, Bool.not_true, Bool.false_eq_true, if_false]
  split_ifs <;> exact ⟨_, rfl⟩

theorem Inv.moveChecks_total (m : ℕ) (p : List Name) (bMem : Bool) :
    ∃ r, s.moveChecks m p bMem = some r := by
  unfold moveChecks
  split
  · exact ⟨_, rfl⟩
  · next d last h =>
    split_ifs
    · exact hs.moveTarget_total (fun k hk => ((hs.open_missing h).1 k hk).1) m none bMem
    · exact ⟨_, rfl⟩
  · next t tail h =>
    split_ifs
    · exact ⟨_, rfl⟩
    · have ht := hs.open_found h
      exact hs.moveTarget_total (fun k hk => (Links.Tree.father hs t ht k hk).1) m (some t) bMem

/-- A move inside a directory is a renaming. -/
theorem Inv.moveLink (hfather : s.pramnFather n = d)
    (hc : ∀ m ∈ s.plineSon d, m ≠ n → s.pcName m ≠ fileName p) : (s.moveLink n d (fileName p)).Inv := by
  have hlinks : (s.moveLink n d (fileName p)).links = s.links.rename n (fileName p) := by
    unfold RamSpace.moveLink
    simp [links, Links.rename, hfather]
  unfold Inv
  rw [hlinks]
  refine Links.Tree.rename hs fun m hm => hc m ?_
  change m ∈ s.plineSon (s.pramnFather n) at hm
  rwa [hfather] at hm

theorem Inv.create (hfresh : ∀ n ∈ pramn, n ∉ s.nodes) (bDir : Bool) :
    ((s.ramFsCreate p bDir pramn).toOption.getD s).Inv := by
  unfold ramFsCreate
  by_cases hcheck : (!fsCheckFileName p) = true
  · rw [if_pos hcheck]
    exact hs
  · rw [if_neg hcheck]
    split
    · exact hs
    · exact hs
    · next d last h =>
      by_cases hlast : last = true
      · rw [if_pos hlast]
        cases pramn with
        | none => exact hs
        | some n =>
          obtain ⟨hd, hc⟩ := hs.open_missing h
          exact hs.maken (hfresh n rfl) hd (hc hlast) _
      · rw [if_neg hlast]
        exact hs

theorem Inv.symlink (hfresh : ∀ n ∈ pramn, n ∉ s.nodes) (hok : s.StepOk (.symlink p pramn)) :
    ((s.ramFsSymlink p pramn).toOption.getD s).Inv := by
  unfold ramFsSymlink
  split_ifs with hcheck
  · exact hs
  · split
    · exact hs
    · exact hs
    · next d last h =>
      cases pramn with
      | none => exact hs
      | some n =>
        obtain ⟨hd, hc⟩ := hs.open_missing h
        refine hs.maken (hfresh n rfl) hd (fun m hm => ?_) _
        cases last with
        | true => exact hc rfl m hm
        | false => exact hok (by simpa using hcheck) d h m hm

theorem Inv.move (hok : s.StepOk (.move n p bMem)) {r : Except RamErr RamSpace}
    (h : s.ramMove n p bMem = some r) : (r.toOption.getD s).Inv := by
  unfold ramMove at h
  obtain ⟨c, hchecks, h⟩ := Option.bind_eq_some_iff.mp h
  match c with
  | .error e =>
    obtain rfl := Option.some.inj h
    exact hs
  | .ok .same =>
    obtain rfl := Option.some.inj h
    exact hs
  | .ok (.go none d) =>
    obtain rfl := Option.some.inj h
    obtain ⟨hfather, hc⟩ := hok none d hchecks (by simp)
    exact hs.moveLink hfather fun m hm hmn => hc m hm hmn (by simp)
  | .ok (.go (some t) d) =>
    dsimp only at h
    cases hu : s.ramUnlink t with
    | error e =>
      rw [hu] at h
      obtain rfl := Option.some.inj h
      exact hs
    | ok s₁ =>
      rw [hu] at h
      obtain rfl := Option.some.inj h
      have hrefuse : s.unlinkRefuses t = false := by
        unfold ramUnlink at hu
        split_ifs at hu with hr
        exact Bool.eq_false_iff.mpr hr
      obtain ⟨hfather, hc⟩ := hok (some t) d hchecks (by simpa using hrefuse)
      have hs₁ := hs.unlink hrefuse hu
      have hs₁eq : s₁.links = s.links.del t := by
        unfold ramUnlink at hu
        rw [hrefuse] at hu
        obtain rfl := Except.ok.inj hu
        rfl
      have hfather₁ : s₁.pramnFather = s.pramnFather := congrArg Links.father hs₁eq
      have hname₁ : s₁.pcName = s.pcName := congrArg Links.name hs₁eq
      have hsons₁ : s₁.plineSon = (s.links.del t).sons := congrArg Links.sons hs₁eq
      refine hs₁.moveLink (hfather₁ ▸ hfather) fun m hm hmn => ?_
      rw [hsons₁] at hm
      obtain ⟨hmt, hm⟩ := (Links.Tree.mem_del hs).mp hm
      rw [hname₁]
      exact hc m hm hmn (by simpa using hmt.symm)

theorem Inv.move_total (n : ℕ) (p : List Name) (bMem : Bool) : ∃ r, s.ramMove n p bMem = some r := by
  obtain ⟨c, hc⟩ := hs.moveChecks_total n p bMem
  unfold ramMove
  rw [hc]
  match c with
  | .error e => exact ⟨_, rfl⟩
  | .ok .same => exact ⟨_, rfl⟩
  | .ok (.go none d) => exact ⟨_, rfl⟩
  | .ok (.go (some t) d) =>
    dsimp only [Option.bind_eq_bind, Option.bind_some]
    cases s.ramUnlink t <;> exact ⟨_, rfl⟩

theorem Inv.step {op : RamOp} (hok : s.StepOk op) {s' : RamSpace} (h : s.step op = some s') : s'.Inv := by
  unfold RamSpace.step at h
  split_ifs at h with hv
  obtain ⟨r, hr, rfl⟩ := Option.map_eq_some_iff.mp h
  cases op with
  | create p bDir pramn =>
    obtain rfl := Option.some.inj hr
    exact hs.create hv bDir
  | symlink p pramn =>
    obtain rfl := Option.some.inj hr
    exact hs.symlink hv hok
  | unlink n =>
    obtain rfl := Option.some.inj hr
    cases hrefuse : s.unlinkRefuses n with
    | true =>
      have herror : s.ramUnlink n = .error .ENOTEMPTY := if_pos hrefuse
      rw [herror]
      exact hs
    | false =>
      have hdone : s.ramUnlink n = .ok _ := if_neg (by simp [hrefuse])
      rw [hdone]
      exact hs.unlink hrefuse hdone
  | move n p bMem => exact hs.move hok hr

theorem Inv.safe : s.Safe where
  tree := hs
  acyclic n := Links.Tree.not_below_self hs n
  freed _ hn := hs.sons_freed hn
  total op hv := by
    unfold RamSpace.step
    rw [if_pos hv]
    cases op with
    | move n p bMem =>
      obtain ⟨r, hr⟩ := hs.move_total n p bMem
      exact ⟨_, by rw [call, hr]; rfl⟩
    | _ => exact ⟨_, rfl⟩

end Inv

theorem Init.inv (h : s.Init) : s.Inv := by
  unfold Inv
  rw [h.2]
  exact Links.Tree.empty h.1

/-- The volume is a tree after every run in which moves keep the directory and no link is made, and
nothing moved, where its name is taken. -/
theorem ramSpace_safe (h : Reach RamSpace.step StepOk Init s) : s.Safe :=
  (h.invariant (fun _ => Init.inv) fun _ _ _ hi hok hs => hi.step hok hs).safe

/-- A directory with a file, the file is renamed over another one and unlinked. -/
theorem ramSpace_safe_rename :
    ∃ s : RamSpace, s.plineSon none = [0] ∧ s.plineSon (some 0) = [1] ∧ s.pcName 1 = ['c'] ∧ s.Safe := by
  let s₀ : RamSpace := ⟨fun _ => [], fun _ => none, fun _ => [], fun _ => .reg, []⟩
  have h₀ : Reach RamSpace.step StepOk Init s₀ := .start ⟨fun _ => rfl, rfl⟩
  have h₁ := h₀.extend (.create [['a']] true (some 0)) trivial rfl
  have h₂ := h₁.extend (.create [['a'], ['b']] false (some 1)) trivial rfl
  have h₃ := h₂.extend (.create [['a'], ['c']] false (some 2)) trivial rfl
  have h₄ := h₃.extend (.move 1 [['a'], ['c']] true) (fun t d hgo _ => by
    obtain ⟨rfl, rfl⟩ := RamMove.go.inj (Except.ok.inj (Option.some.inj hgo))
    exact ⟨rfl, by decide⟩) rfl
  refine ⟨_, ?_, ?_, ?_, ramSpace_safe h₄⟩ <;> decide +kernel

/-- A file that is moved to another directory keeps its father. -/
theorem ramSpace_move_father :
    ∃ s : RamSpace, Reach RamSpace.step (fun _ _ => True) Init s ∧ ¬ s.Safe := by
  let s₀ : RamSpace := ⟨fun _ => [], fun _ => none, fun _ => [], fun _ => .reg, []⟩
  have h₀ : Reach RamSpace.step (fun _ _ => True) Init s₀ := .start ⟨fun _ => rfl, rfl⟩
  have hruns : runs RamSpace.step s₀ [.create [['a']] true (some 0), .create [['b']] false (some 1),
    .move 1 [['a'], ['b']] true] = some _ := rfl
  refine ⟨_, h₀.of_runs hruns, fun hs => ?_⟩
  have hmem := ((hs.tree.mem (some 0) 1).mp (List.mem_cons_self ..)).2
  cases hmem

end RamSpace

end SylixOS.RamFs
