import Mathlib
import SylixOS.Lib.NameTree
import SylixOS.Lib.Reach

/-! # The root file system

Nodes are made and removed by their paths, which begin at the root and are normalised. A path is the
list of its names; the one of the root is empty.
-/

namespace SylixOS.RootFs
open Lib Function

abbrev Name := List Char

/-- `LW_ROOTFS_NODE_TYPE_DIR` and the others. -/
inductive NodeType where
  | dir
  | dev
  | lnk
  | sock
  | reg
  deriving DecidableEq

/-- The type of a new node with its `pvValue`: for a device what follows the last divider of the name
in its header, for a link the path it leads to. -/
inductive NodeValue where
  | dir
  | dev (pdevhdr : Option Name)
  | lnk (pcLink : Option (List Char))
  | sock
  | reg

inductive RootErr where
  | EINVAL
  | ENOENT
  | ENOTEMPTY
  | EBUSY
  | ERROR_SYSTEM_LOW_MEMORY
  | ERROR_IOS_FILE_SYMLINK
  | ERROR_IOS_DUPLICATE_DEVICE_NAME
  deriving DecidableEq

/-- `_G_rfsrRoot` and the nodes: `plineSon none` is `RFSR_plineSon`. The code does not keep the nodes that
are allocated, and the nodes that ought to be at each path. -/
structure RootSpace where
  plineSon : Option ℕ → List ℕ
  prfsnFather : ℕ → Option ℕ
  pcName : ℕ → Name
  iNodeType : ℕ → NodeType
  iOpenNum : ℕ → ℕ
  stAllocSize : ℕ → ℕ
  stMemUsed : ℕ
  ulFiles : ℕ
  nodes : List ℕ
  view : List Name → Option ℕ

/-- A new node comes with what the heap gave for it. `openNum` is the driver's opening and closing of a
node. -/
inductive RootOp where
  | makeNode (pcName : List Name) (pvValue : NodeValue) (prfsnNew : Option ℕ)
  | removeNode (pcName : List Name)
  | openNum (prfsn iOpenNum : ℕ)

namespace NodeValue

def iNodeType : NodeValue → NodeType
  | .dir => .dir
  | .dev _ => .dev
  | .lnk _ => .lnk
  | .sock => .sock
  | .reg => .reg

/-- Are the value and the name such as the type needs them? -/
def valid (pcFileName : Name) : NodeValue → Bool
  | .dev pdevhdr => pdevhdr.isSome
  | .lnk none => false
  | .lnk (some pcLink) => pcFileName ≠ [] ∧ pcLink ≠ []
  | _ => pcFileName ≠ []

/-- The name that a lookup compares. -/
def name (pcFileName : Name) : NodeValue → Name
  | .dev pdevhdr => pdevhdr.getD []
  | _ => pcFileName

/-- `stAllocSize`, for a node structure of a size. -/
def allocSize (stNode : ℕ) (pcFileName : Name) : NodeValue → ℕ
  | .dev _ => stNode
  | .lnk pcLink => stNode + pcFileName.length + ((pcLink.getD []).length + 1)
  | _ => stNode + (pcFileName.length + 1)

end NodeValue

/-- What follows the last divider of a path. -/
def fileName (pcName : List Name) : Name := pcName.getLast?.getD []

namespace RootSpace

variable (stNode : ℕ) (s : RootSpace)

def links : Links ℕ Name := ⟨s.plineSon, s.prfsnFather, s.pcName⟩

/-- A device or a link ends the search, and a socket must be the last name. -/
def visit (n : ℕ) : Visit :=
  match s.iNodeType n with
  | .dev => .stop
  | .lnk => .stop
  | .sock => .leaf
  | .reg => .enter
  | .dir => .enter

/-- `__rootFsFindNode`. The father of a node that is found is the one it says. -/
def rootFsFindNode (pcName : List Name) : Lookup ℕ Name := s.links.lookup s.visit none pcName

/-- A node enters the list of a father. -/
def link (prfsnFather : Option ℕ) (pcName : List Name) (pvValue : NodeValue) (prfsnNew : ℕ) : RootSpace where
  plineSon := update (update s.plineSon (some prfsnNew) []) prfsnFather
    (prfsnNew :: s.plineSon prfsnFather)
  prfsnFather := update s.prfsnFather prfsnNew prfsnFather
  pcName := update s.pcName prfsnNew (pvValue.name (fileName pcName))
  iNodeType := update s.iNodeType prfsnNew pvValue.iNodeType
  iOpenNum := update s.iOpenNum prfsnNew 0
  stAllocSize := update s.stAllocSize prfsnNew (pvValue.allocSize stNode (fileName pcName))
  stMemUsed := s.stMemUsed + pvValue.allocSize stNode (fileName pcName)
  ulFiles := s.ulFiles + 1
  nodes := prfsnNew :: s.nodes
  view := update s.view pcName (some prfsnNew)

/-- Has the father of a missing name another type than a directory? -/
def notDir (prfsnFather : Option ℕ) : Bool := prfsnFather.any fun n => s.iNodeType n ≠ .dir

/-- `API_RootFsMakeNode`. -/
def makeNode (pcName : List Name) (pvValue : NodeValue) (prfsnNew : Option ℕ) :
    Except RootErr RootSpace :=
  if pcName = [] then
    .ok s
  else if !pvValue.valid (fileName pcName) then
    .error .EINVAL
  else
    match prfsnNew with
    | none => .error .ERROR_SYSTEM_LOW_MEMORY
    | some prfsnNew =>
      match s.rootFsFindNode pcName with
      | .found prfsn pcTail =>
        if pcTail ≠ [] ∧ s.iNodeType prfsn = .lnk then .error .ERROR_IOS_FILE_SYMLINK
        else .error .ERROR_IOS_DUPLICATE_DEVICE_NAME
      | .missing prfsnFather bLast =>
        if s.notDir prfsnFather then .error .ENOENT
        else if bLast = false then .error .ENOENT
        else .ok (s.link stNode prfsnFather pcName pvValue prfsnNew)
      | .root => .error .ENOENT

/-- A node leaves the list of its father and is freed, on behalf of a path. -/
def unlink (prfsn : ℕ) (pcName : List Name) : RootSpace :=
  let prfsnFather := s.prfsnFather prfsn
  { s with
    plineSon := update s.plineSon prfsnFather ((s.plineSon prfsnFather).erase prfsn)
    stMemUsed := s.stMemUsed - s.stAllocSize prfsn
    ulFiles := s.ulFiles - 1
    nodes := s.nodes.erase prfsn
    view := update s.view pcName none }

/-- `API_RootFsRemoveNode`, which does not ask for the rest of the path. -/
def removeNode (pcName : List Name) : Except RootErr RootSpace :=
  if pcName = [] then
    .ok s
  else
    match s.rootFsFindNode pcName with
    | .found prfsn _ =>
      if s.plineSon (some prfsn) ≠ [] then .error .ENOTEMPTY
      else if s.iOpenNum prfsn ≠ 0 then .error .EBUSY
      else .ok (s.unlink prfsn pcName)
    | _ => .error .ENOENT

/-- The heap gives memory that is not in use, and the driver has nodes. -/
def Valid : RootOp → Prop
  | .makeNode _ _ prfsnNew => ∀ n ∈ prfsnNew, n ∉ s.nodes
  | .removeNode _ => True
  | .openNum prfsn _ => prfsn ∈ s.nodes

instance : DecidablePred s.Valid
  | .makeNode _ _ none => isTrue nofun
  | .makeNode _ _ (some n) => decidable_of_iff (n ∉ s.nodes) (by simp [Valid])
  | .removeNode _ => isTrue trivial
  | .openNum n _ => inferInstanceAs (Decidable (n ∈ s.nodes))

def call : RootOp → Except RootErr RootSpace
  | .makeNode pcName pvValue prfsnNew => s.makeNode stNode pcName pvValue prfsnNew
  | .removeNode pcName => s.removeNode pcName
  | .openNum prfsn iOpenNum => .ok { s with iOpenNum := update s.iOpenNum prfsn iOpenNum }

/-- A call that fails leaves the nodes as they are. -/
def step (op : RootOp) : Option RootSpace :=
  if s.Valid op then some ((s.call stNode op).toOption.getD s) else none

/-- A device is made at the path its header says, and a path that goes on below a device or a link is
removed only when that one is open. -/
def StepOk : RootOp → Prop
  | .makeNode pcName (.dev pdevhdr) _ => ∀ name ∈ pdevhdr, name = fileName pcName
  | .removeNode pcName =>
      ∀ n tail, s.rootFsFindNode pcName = .found n tail → s.iOpenNum n = 0 → tail = []
  | _ => True

/-- Only the root. -/
def Init : Prop :=
  (∀ d, s.plineSon d = []) ∧ s.nodes = [] ∧ s.stMemUsed = 0 ∧ s.ulFiles = 0 ∧ s.view = fun _ => none

/-- The allocated nodes form a tree. At each path is the node that was made last with that path and has
not been removed with it. -/
structure Safe : Prop where
  tree : s.links.Tree s.nodes fun n => s.iNodeType n = .dir
  acyclic : ∀ n, ¬ s.links.Below n n
  files : s.ulFiles = s.nodes.length
  mem : s.stMemUsed = (s.nodes.map s.stAllocSize).sum
  view : ∀ p n, s.view p = some n ↔ s.links.IsAt (some n) p

/-- What makes a state safe; a tree has no circles. -/
structure Inv : Prop where
  tree : s.links.Tree s.nodes fun n => s.iNodeType n = .dir
  files : s.ulFiles = s.nodes.length
  mem : s.stMemUsed = (s.nodes.map s.stAllocSize).sum
  view : ∀ p n, s.view p = some n ↔ s.links.IsAt (some n) p

variable {stNode} {s} {n : ℕ} {d : Option ℕ} {p tail : List Name} {v : NodeValue} {prfsnNew : Option ℕ}

section Inv
variable (hs : s.Inv)
include hs

/-! ## Nodes are made -/

omit hs in
/-- Where a last name is missing: the father is at the path before it. -/
theorem find_missing (h : s.rootFsFindNode p = .missing d true) :
    ∃ q, p = q ++ [fileName p] ∧ s.links.IsAt d q ∧ ∀ m ∈ s.plineSon d, s.pcName m ≠ fileName p := by
  obtain ⟨pre, c, rest, hp, hat, -, hlast⟩ := Links.lookup_missing h Links.IsAt.root
  obtain ⟨rfl, hname⟩ := hlast rfl
  have hfile : fileName p = c := by rw [hp, fileName, List.getLast?_concat]; rfl
  exact ⟨pre, by rw [hfile, hp], hat, hfile.symm ▸ hname⟩

theorem Inv.link (hn : n ∉ s.nodes) (h : s.rootFsFindNode p = .missing d true)
    (hdir : s.notDir d = false) (hname : v.name (fileName p) = fileName p) :
    (s.link stNode d p v n).Inv := by
  obtain ⟨q, hq, hat, hc⟩ := find_missing h
  have hd : ∀ k, d = some k → k ∈ s.nodes := fun k hk => Links.IsAt.mem_nodes hs.tree (hk ▸ hat)
  have hne {k : ℕ} (hk : k ∈ s.nodes) : k ≠ n := fun heq => hn (heq ▸ hk)
  have hlinks : (s.link stNode d p v n).links = s.links.add n d (fileName p) := by
    unfold RootSpace.link links Links.add
    rw [hname]
  have hkeep {k : ℕ} (hk : k ∈ s.nodes) (hdir : s.iNodeType k = .dir) :
      (s.link stNode d p v n).iNodeType k = .dir :=
    (update_of_ne (hne hk) ..).trans hdir
  refine ⟨?_, congrArg Nat.succ hs.files, ?_, fun p' m => ?_⟩
  · rw [hlinks]
    refine hs.tree.add hn hd (fun k hk => hkeep hk) (fun k hk => hkeep (hd k hk) ?_) hc
    subst hk
    simpa [notDir] using hdir
  · have hold : s.nodes.map (s.link stNode d p v n).stAllocSize = s.nodes.map s.stAllocSize :=
      List.map_congr_left fun k hk => update_of_ne (hne hk) ..
    have hself : (s.link stNode d p v n).stAllocSize n = v.allocSize stNode (fileName p) :=
      update_self ..
    change s.stMemUsed + _ = (List.map _ (n :: s.nodes)).sum
    rw [List.map_cons, List.sum_cons, hold, hself, hs.mem, Nat.add_comm]
  · rw [hlinks, hs.tree.isAt_add hn hd hat, ← hq, ← hs.view]
    change update s.view p (some n) p' = some m ↔ _
    by_cases hp : p' = p
    · subst hp
      have hnone : s.view p' = none := by
        refine Option.eq_none_iff_forall_ne_some.mpr fun m hm => ?_
        have hatm := (hs.view p' m).mp hm
        rw [hq] at hatm
        generalize hr : q ++ [fileName p'] = r at hatm
        cases hatm with
        | @son e _ q' he hme =>
          obtain ⟨rfl, hlast⟩ := List.append_inj' hr rfl
          obtain rfl := he.node_eq hs.tree hat
          exact hc m hme (List.singleton_inj.mp hlast).symm
      rw [update_self, hnone]
      simp [eq_comm]
    · rw [update_of_ne hp]
      exact ⟨.inl, fun h => h.resolve_right fun h => hp h.2⟩

theorem Inv.makeNode (hn : ∀ n ∈ prfsnNew, n ∉ s.nodes) (hok : s.StepOk (.makeNode p v prfsnNew)) :
    ((s.makeNode stNode p v prfsnNew).toOption.getD s).Inv := by
  unfold RootSpace.makeNode
  by_cases hp : p = []
  · rw [if_pos hp]
    exact hs
  rw [if_neg hp]
  by_cases hvalid : (!v.valid (fileName p)) = true
  · rw [if_pos hvalid]
    exact hs
  rw [if_neg hvalid]
  cases prfsnNew with
  | none => exact hs
  | some n =>
    have hname : v.name (fileName p) = fileName p := by
      cases v with
      | dev pdevhdr =>
        cases pdevhdr with
        | none => simp [NodeValue.valid] at hvalid
        | some name => exact hok name rfl
      | _ => rfl
    dsimp only
    split
    · split_ifs <;> exact hs
    · next d last h =>
      cases hdir : s.notDir d with
      | true => exact hs
      | false =>
        cases last with
        | false => exact hs
        | true => exact hs.link (hn n rfl) h hdir hname
    · exact hs

/-! ## Nodes are removed -/

theorem Inv.unlink (hson : s.plineSon (some n) = []) (hat : s.links.IsAt (some n) p) :
    (s.unlink n p).Inv := by
  have hn := hat.mem_nodes hs.tree
  have hperm := List.perm_cons_erase hn
  have hlinks : (s.unlink n p).links = s.links.del n := rfl
  refine ⟨hs.tree.del hson, ?_, ?_, fun p' m => ?_⟩
  · change s.ulFiles - 1 = (s.nodes.erase n).length
    rw [hs.files, hperm.length_eq]
    rfl
  · change s.stMemUsed - s.stAllocSize n = ((s.nodes.erase n).map s.stAllocSize).sum
    rw [hs.mem, (hperm.map s.stAllocSize).sum_nat, List.map_cons, List.sum_cons,
      Nat.add_sub_cancel_left]
  · rw [hlinks, hs.tree.isAt_del hson, ← hs.view]
    change update s.view p none p' = some m ↔ _
    by_cases hp : p' = p
    · subst hp
      rw [update_self]
      refine iff_of_false nofun fun ⟨hm, hmn⟩ => hmn ?_
      exact ((hs.view p' m).mp hm).node_eq hs.tree hat
    · rw [update_of_ne hp]
      refine ⟨fun hm => ⟨hm, fun heq => hp ?_⟩, And.left⟩
      have hatm := (hs.view p' m).mp hm
      rw [heq] at hatm
      exact hatm.path_eq hs.tree hat

theorem Inv.removeNode (hok : s.StepOk (.removeNode p)) : ((s.removeNode p).toOption.getD s).Inv := by
  unfold RootSpace.removeNode
  by_cases hp : p = []
  · rw [if_pos hp]
    exact hs
  rw [if_neg hp]
  split
  · next n tail h =>
    by_cases hson : s.plineSon (some n) = []
    · rw [if_neg (not_not_intro hson)]
      by_cases hopen : s.iOpenNum n = 0
      · rw [if_neg (not_not_intro hopen)]
        obtain rfl := hok n tail h hopen
        obtain ⟨pre, hpre, hat, -⟩ := Links.lookup_found h Links.IsAt.root
        rw [List.append_nil] at hpre
        exact hs.unlink hson (hpre ▸ hat)
      · rw [if_pos hopen]
        exact hs
    · rw [if_pos hson]
      exact hs
  · exact hs

theorem Inv.step {op : RootOp} (hok : s.StepOk op) {s' : RootSpace} (h : s.step stNode op = some s') :
    s'.Inv := by
  unfold RootSpace.step at h
  split_ifs at h with hv
  obtain rfl := Option.some.inj h
  cases op with
  | makeNode p v new => exact hs.makeNode hv hok
  | removeNode p => exact hs.removeNode hok
  | openNum n k => exact ⟨hs.tree, hs.files, hs.mem, hs.view⟩

end Inv

theorem Init.inv (h : s.Init) : s.Inv := by
  obtain ⟨hson, hnodes, hmem, hfiles, hview⟩ := h
  refine ⟨hnodes.symm ▸ Links.Tree.empty hson, by rw [hfiles, hnodes]; rfl, by rw [hmem, hnodes]; rfl,
    fun p n => ?_⟩
  rw [hview]
  refine iff_of_false nofun fun hat => ?_
  cases hat with
  | son _ hn =>
    change n ∈ s.plineSon _ at hn
    rw [hson] at hn
    cases hn

theorem Inv.safe (hs : s.Inv) : s.Safe :=
  ⟨hs.tree, fun n => hs.tree.not_below_self n, hs.files, hs.mem, hs.view⟩

/-- The tree, its counters and the nodes at each path are right after every run in which no path below
a device or a link that is not open is removed. -/
theorem rootSpace_safe (h : Reach (RootSpace.step stNode) StepOk Init s) : s.Safe :=
  (h.invariant (fun _ => Init.inv) fun _ _ _ hi hok hs => hi.step hok hs).safe

/-- A directory, a device in it that is open, and a link; the device's path is gone on with. -/
theorem rootSpace_safe_dev :
    ∃ s : RootSpace, s.plineSon none = [0] ∧ s.plineSon (some 0) = [1] ∧ s.ulFiles = 2 ∧ s.Safe := by
  let s₀ : RootSpace := ⟨fun _ => [], fun _ => none, fun _ => [], fun _ => .dir, fun _ => 0, fun _ => 0,
    0, 0, [], fun _ => none⟩
  have h₀ : Reach (RootSpace.step 64) StepOk Init s₀ := .start ⟨fun _ => rfl, rfl, rfl, rfl, rfl⟩
  have h₁ := h₀.extend (.makeNode [['d']] .dir (some 0)) trivial rfl
  have h₂ := h₁.extend (.makeNode [['d'], ['t']] (.dev (some ['t'])) (some 1))
    (fun _ hn => (Option.some.inj hn).symm) rfl
  have h₃ := h₂.extend (.openNum 1 1) trivial rfl
  have h₄ := h₃.extend (.removeNode [['d'], ['t'], ['x']]) (fun n tail hf ho => by
    obtain ⟨rfl, rfl⟩ := Lookup.found.inj hf
    cases ho) rfl
  have h₅ := h₄.extend (.makeNode [['l']] (.lnk (some ['d'])) (some 2)) trivial rfl
  have h₆ := h₅.extend (.removeNode [['l']]) (fun n tail hf _ => (Lookup.found.inj hf).2.symm) rfl
  refine ⟨_, ?_, ?_, ?_, rootSpace_safe h₆⟩ <;> decide +kernel

/-- A path below a link is removed, and the link is gone. -/
theorem rootSpace_remove_below :
    ∃ s : RootSpace, Reach (RootSpace.step 64) (fun _ _ => True) Init s ∧ ¬ s.Safe := by
  let s₀ : RootSpace := ⟨fun _ => [], fun _ => none, fun _ => [], fun _ => .dir, fun _ => 0, fun _ => 0,
    0, 0, [], fun _ => none⟩
  have h₀ : Reach (RootSpace.step 64) (fun _ _ => True) Init s₀ :=
    .start ⟨fun _ => rfl, rfl, rfl, rfl, rfl⟩
  have hruns : runs (RootSpace.step 64) s₀ [.makeNode [['l']] (.lnk (some ['d'])) (some 0),
    .removeNode [['l'], ['x']]] = some _ := rfl
  refine ⟨_, h₀.of_runs hruns, fun hs => ?_⟩
  have hat := (hs.view [['l']] 0).mp rfl
  have hmem := hat.mem_nodes hs.tree
  cases hmem

end RootSpace

end SylixOS.RootFs
