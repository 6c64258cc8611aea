import Mathlib.Data.List.Sort
import Mathlib.Data.List.Perm.Basic
import Mathlib.Logic.Function.Basic
import SylixOS.Lib.Reach

/-! # The read cache of NAND flash

A chunk that has been read is kept in a node, which is in the hash list of its chunk number and in a
ring, the header of which was used last. A node is named by its place in the buffer.
-/

namespace SylixOS.Disk
open Lib Function

/-- `LW_NRCACHE_CB`. The code does not keep the number of calls, when a node was used last, and the chunks
that have been allocated and not been freed. -/
structure NandRCache where
  ulPagePerBlock : ℕ
  ulnCacheNode : ℕ
  iHashSize : ℕ
  pringLRU : List ℕ
  plineFree : List ℕ
  plineHash : ℕ → List ℕ
  ulChunkNo : ℕ → ℕ
  now : ℕ
  lastUse : ℕ → ℕ
  valid : ℕ → Bool

inductive NandRCacheOp where
  | nodeGet (ulChunkNo : ℕ)
  | nodeAlloc (ulChunkNo : ℕ)
  | nodeFree (ulChunkNo : ℕ)
  | blockFree (ulBlockNo : ℕ)

/-- `_List_Line_Add_Tail`, which leaves the header. -/
def lineAddTail (n : ℕ) : List ℕ → List ℕ
  | [] => [n]
  | x :: xs => x :: n :: xs

/-- `_G_iNandRCacheHashSize`. -/
def nandRCacheHashSize : List (ℕ × ℕ) :=
  [(16, 8), (32, 16), (64, 32), (128, 64), (256, 128), (512, 256), (1024, 512), (2048, 1024),
    (4096, 2048), (0, 4096)]

/-- The search for the size of the hash table. -/
def hashSizeOf (ulNCacheNode : ℕ) : List (ℕ × ℕ) → ℕ
  | [] => 0
  | (iCacheSize, iHashSize) :: rest =>
    if iCacheSize = 0 then iHashSize
    else if iCacheSize ≤ ulNCacheNode then hashSizeOf ulNCacheNode rest
    else iHashSize

namespace NandRCache

/-- `API_NandRCacheCreate`. -/
def create (stMemSize ulPageSize ulSpareSize ulPagePerBlock : ℕ) : NandRCache :=
  let ulNCacheNode := stMemSize / (ulPageSize + ulSpareSize)
  { ulPagePerBlock
    ulnCacheNode := ulNCacheNode
    iHashSize := hashSizeOf ulNCacheNode nandRCacheHashSize
    pringLRU := []
    plineFree := (List.range ulNCacheNode).foldl (fun l n => lineAddTail n l) []
    plineHash _ := []
    ulChunkNo _ := 0
    now := 0
    lastUse _ := 0
    valid _ := false }

variable (s : NandRCache)

/-- The place of a chunk in the hash table. -/
def hash (ulChunkNo : ℕ) : ℕ := ulChunkNo &&& (s.iHashSize - 1)

/-- The search of a hash list. -/
def find (ulChunkNo : ℕ) : Option ℕ :=
  (s.plineHash (s.hash ulChunkNo)).find? fun n => s.ulChunkNo n = ulChunkNo

/-- `API_NandRCacheNodeGet`. -/
def nodeGet (ulChunkNo : ℕ) : NandRCache × Option ℕ :=
  match s.find ulChunkNo with
  | none => (s, none)
  | some n =>
    ({ s with
        pringLRU := if s.pringLRU.head? = some n then s.pringLRU else n :: s.pringLRU.erase n
        lastUse := update s.lastUse n s.now
        now := s.now + 1 },
      some n)

/-- A node leaves its hash list and the ring. -/
def unlink (n : ℕ) : NandRCache :=
  let h := s.hash (s.ulChunkNo n)
  { s with
    pringLRU := s.pringLRU.erase n
    plineHash := update s.plineHash h ((s.plineHash h).erase n) }

/-- A node enters the hash list of a chunk and the ring. -/
def link (n ulChunkNo : ℕ) : NandRCache :=
  let h := s.hash ulChunkNo
  { s with
    pringLRU := n :: s.pringLRU
    plineHash := update s.plineHash h (n :: s.plineHash h)
    ulChunkNo := update s.ulChunkNo n ulChunkNo
    lastUse := update s.lastUse n s.now
    now := s.now + 1
    valid := update s.valid ulChunkNo true }

/-- `API_NandRCacheNodeAlloc`. -/
def nodeAlloc (ulChunkNo : ℕ) : Option NandRCache :=
  match s.plineFree with
  | n :: plineFree => some (({ s with plineFree } : NandRCache).link n ulChunkNo)
  | [] => do
    let n ← s.pringLRU.getLast?
    some ((s.unlink n).link n ulChunkNo)

/-- `API_NandRCacheNodeFree`. -/
def nodeFree (ulChunkNo : ℕ) : NandRCache :=
  match s.find ulChunkNo with
  | none => { s with valid := update s.valid ulChunkNo false }
  | some n =>
    let s := s.unlink n
    { s with
      plineFree := lineAddTail n s.plineFree
      valid := update s.valid ulChunkNo false }

/-- `API_NandRCacheBlockFree`. -/
def blockFree (ulBlockNo : ℕ) : NandRCache :=
  let ulStartChunk := ulBlockNo * s.ulPagePerBlock
  (List.range s.ulPagePerBlock).foldl (fun s i => s.nodeFree (ulStartChunk + i)) s

def step : NandRCacheOp → Option NandRCache
  | .nodeGet ulChunkNo => some (s.nodeGet ulChunkNo).1
  | .nodeAlloc ulChunkNo => s.nodeAlloc ulChunkNo
  | .nodeFree ulChunkNo => some (s.nodeFree ulChunkNo)
  | .blockFree ulBlockNo => some (s.blockFree ulBlockNo)

/-- A chunk that is allocated is not cached, and there are nodes. -/
def StepOk : NandRCacheOp → Prop
  | .nodeAlloc ulChunkNo => s.find ulChunkNo = none ∧ 0 < s.ulnCacheNode
  | _ => True

/-- A cache of any size that has just been created. -/
def Init : Prop :=
  ∃ stMemSize ulPageSize ulSpareSize ulPagePerBlock,
    s = create stMemSize ulPageSize ulSpareSize ulPagePerBlock

structure Safe : Prop where
  /-- A node is in the free list or hashed, and then once in the ring. -/
  nodes : (s.plineFree ++ s.pringLRU).Perm (List.range s.ulnCacheNode)
  /-- The hashed nodes are those in the ring, each in the list of its chunk only. -/
  hashed : ∀ h n, n ∈ s.plineHash h ↔ n ∈ s.pringLRU ∧ h = s.hash (s.ulChunkNo n)
  nodup : ∀ h, (s.plineHash h).Nodup
  /-- The ring is in the order of last use. -/
  lru : s.pringLRU.Pairwise fun n m => s.lastUse m < s.lastUse n
  /-- A chunk is found only if it has been allocated, and not been freed after that. -/
  freed : ∀ ulChunkNo, s.valid ulChunkNo = false → (s.nodeGet ulChunkNo).2 = none
  /-- No call goes astray. -/
  total : ∀ op, s.StepOk op → ∃ s', s.step op = some s'

/-! ## The invariant -/

/-- What holds while the nodes `out` are in no list. -/
structure Inv (out : List ℕ) (s : NandRCache) : Prop where
  nodes : (out ++ (s.plineFree ++ s.pringLRU)).Perm (List.range s.ulnCacheNode)
  hashed : ∀ h n, n ∈ s.plineHash h ↔ n ∈ s.pringLRU ∧ h = s.hash (s.ulChunkNo n)
  nodup : ∀ h, (s.plineHash h).Nodup
  lru : s.pringLRU.Pairwise fun n m => s.lastUse m < s.lastUse n
  past : ∀ n ∈ s.pringLRU, s.lastUse n < s.now
  unique : ∀ n ∈ s.pringLRU, ∀ m ∈ s.pringLRU, s.ulChunkNo n = s.ulChunkNo m → n = m
  freed : ∀ n ∈ s.pringLRU, s.valid (s.ulChunkNo n) = true

variable {s} {out : List ℕ} {n c : ℕ}

theorem lineAddTail_perm (n : ℕ) (l : List ℕ) : (lineAddTail n l).Perm (n :: l) := by
  cases l with
  | nil => exact List.Perm.refl _
  | cons x xs => exact List.Perm.swap n x xs

section Inv
variable (hs : s.Inv out)
include hs

theorem Inv.nodupLRU : s.pringLRU.Nodup :=
  (List.nodup_append.mp (List.nodup_append.mp (hs.nodes.nodup_iff.mpr List.nodup_range)).2.1).2.1

/-- A chunk is found in the node that holds it. -/
theorem Inv.find_eq_some : s.find c = some n ↔ n ∈ s.pringLRU ∧ s.ulChunkNo n = c := by
  constructor
  · intro h
    have hchunk := List.find?_some h
    have hmem := (hs.hashed _ n).mp (List.mem_of_find?_eq_some h)
    exact ⟨hmem.1, of_decide_eq_true hchunk⟩
  · rintro ⟨hn, rfl⟩
    have hmem := (hs.hashed _ n).mpr ⟨hn, rfl⟩
    cases hf : s.find (s.ulChunkNo n) with
    | none => exact absurd (decide_eq_true rfl) (List.find?_eq_none.mp hf n hmem)
    | some m =>
      have hchunk := List.find?_some (p := fun k => decide (s.ulChunkNo k = s.ulChunkNo n)) hf
      have hm := (hs.hashed _ m).mp (List.mem_of_find?_eq_some hf)
      rw [hs.unique m hm.1 n hn (of_decide_eq_true hchunk)]

theorem Inv.find_eq_none : s.find c = none ↔ ∀ n ∈ s.pringLRU, s.ulChunkNo n ≠ c := by
  constructor
  · intro h n hn hc
    rw [(hs.find_eq_some).mpr ⟨hn, hc⟩] at h
    cases h
  · intro h
    by_contra hne
    obtain ⟨n, hn⟩ := Option.ne_none_iff_exists'.mp hne
    have := hs.find_eq_some.mp hn
    exact h n this.1 this.2

/-- A hit puts the node at the header of the ring. -/
theorem Inv.nodeGet (c : ℕ) : (s.nodeGet c).1.Inv out := by
  unfold NandRCache.nodeGet
  cases hf : s.find c with
  | none => exact hs
  | some n =>
    obtain ⟨hn, -⟩ := hs.find_eq_some.mp hf
    have hnodup := hs.nodupLRU
    have hlru : (if s.pringLRU.head? = some n then s.pringLRU else n :: s.pringLRU.erase n) =
        n :: s.pringLRU.erase n := by
      split_ifs with hhead
      · obtain ⟨l, hl⟩ := List.head?_eq_some_iff.mp hhead
        rw [hl, List.erase_cons_head]
      · rfl
    have hperm : (n :: s.pringLRU.erase n).Perm s.pringLRU := (List.perm_cons_erase hn).symm
    have hother {m : ℕ} (hm : m ∈ s.pringLRU.erase n) : m ≠ n ∧ m ∈ s.pringLRU :=
      (hnodup.mem_erase_iff).mp hm
    dsimp only
    rw [hlru]
    refine ⟨?_, fun h m => ?_, hs.nodup, ?_, fun m hm => ?_, fun m hm k hk => ?_, fun m hm => ?_⟩
    · exact ((hperm.append_left _).append_left _).trans hs.nodes
    · dsimp only
      rw [hs.hashed h m, hperm.mem_iff]
      rfl
    · rw [List.pairwise_cons]
      refine ⟨fun m hm => ?_, ?_⟩
      · dsimp only
        rw [update_self, update_of_ne (hother hm).1]
        exact hs.past m (hother hm).2
      · refine (hs.lru.sublist List.erase_sublist).imp_of_mem fun ha hb hab => ?_
        dsimp only
        rw [update_of_ne (hother ha).1, update_of_ne (hother hb).1]
        exact hab
    · dsimp only
      rcases eq_or_ne m n with rfl | hne
      · rw [update_self]
        exact Nat.lt_succ_self _
      · rw [update_of_ne hne]
        exact Nat.lt_succ_of_lt (hs.past m (hperm.mem_iff.mp hm))
    · exact hs.unique m (hperm.mem_iff.mp hm) k (hperm.mem_iff.mp hk)
    · exact hs.freed m (hperm.mem_iff.mp hm)

/-- The nodes of the ring are not those of the free list, nor those in no list. -/
theorem Inv.not_out (hn : n ∈ s.pringLRU) : n ∉ out ∧ n ∉ s.plineFree := by
  have hnodup := hs.nodes.nodup_iff.mpr List.nodup_range
  have hdisj := (List.nodup_append.mp hnodup).2.2
  have hdisj' := (List.nodup_append.mp (List.nodup_append.mp hnodup).2.1).2.2
  exact ⟨fun h => hdisj n h n (List.mem_append_right _ hn) rfl, fun h => hdisj' n h n hn rfl⟩

theorem Inv.unlink (hn : n ∈ s.pringLRU) : (s.unlink n).Inv (n :: out) := by
  have hmem {m : ℕ} : m ∈ s.pringLRU.erase n ↔ m ≠ n ∧ m ∈ s.pringLRU := hs.nodupLRU.mem_erase_iff
  refine ⟨?_, fun h m => ?_, fun h => ?_, hs.lru.sublist List.erase_sublist, fun m hm => ?_,
    fun m hm k hk => ?_, fun m hm => ?_⟩
  · refine List.Perm.trans ?_ hs.nodes
    have hperm := (List.perm_cons_erase hn).symm
    calc (n :: out) ++ (s.plineFree ++ s.pringLRU.erase n)
        _ = n :: ((out ++ s.plineFree) ++ s.pringLRU.erase n) := by simp
        _ |>.Perm ((out ++ s.plineFree) ++ n :: s.pringLRU.erase n) := List.perm_middle.symm
        _ |>.Perm ((out ++ s.plineFree) ++ s.pringLRU) := hperm.append_left _
        _ = out ++ (s.plineFree ++ s.pringLRU) := List.append_assoc ..
  · change m ∈ update s.plineHash (s.hash (s.ulChunkNo n)) _ h ↔
      m ∈ s.pringLRU.erase n ∧ h = s.hash (s.ulChunkNo m)
    rw [hmem]
    by_cases hh : h = s.hash (s.ulChunkNo n)
    · subst hh
      rw [update_self, (hs.nodup _).mem_erase_iff, hs.hashed, and_assoc]
    · rw [update_of_ne hh, hs.hashed]
      constructor
      · rintro ⟨hm, rfl⟩
        exact ⟨⟨fun heq => hh (heq ▸ rfl), hm⟩, rfl⟩
      · rintro ⟨⟨-, hm⟩, rfl⟩
        exact ⟨hm, rfl⟩
  · change (update s.plineHash (s.hash (s.ulChunkNo n)) _ h).Nodup
    by_cases hh : h = s.hash (s.ulChunkNo n)
    · subst hh
      rw [update_self]
      exact (hs.nodup _).erase _
    · rw [update_of_ne hh]
      exact hs.nodup h
  · exact hs.past m (hmem.mp hm).2
  · exact hs.unique m (hmem.mp hm).2 k (hmem.mp hk).2
  · exact hs.freed m (hmem.mp hm).2

/-- The node that held a chunk was the only one. -/
theorem Inv.unlink_find (hn : s.find c = some n) :
    ∀ m ∈ (s.unlink n).pringLRU, (s.unlink n).ulChunkNo m ≠ c := by
  obtain ⟨hn, hc⟩ := hs.find_eq_some.mp hn
  intro m hm hmc
  obtain ⟨hne, hm⟩ := hs.nodupLRU.mem_erase_iff.mp hm
  exact hne (hs.unique m hm n hn (hmc.trans hc.symm))

theorem Inv.freeDel {plineFree : List ℕ} (hfree : s.plineFree = n :: plineFree) :
    ({ s with plineFree } : NandRCache).Inv (n :: out) := by
  refine ⟨?_, hs.hashed, hs.nodup, hs.lru, hs.past, hs.unique, hs.freed⟩
  have hnodes := hs.nodes
  rw [hfree] at hnodes
  exact List.perm_middle.symm.trans hnodes

theorem Inv.invalidate (hc : ∀ m ∈ s.pringLRU, s.ulChunkNo m ≠ c) :
    ({ s with valid := update s.valid c false } : NandRCache).Inv out := by
  refine ⟨hs.nodes, hs.hashed, hs.nodup, hs.lru, hs.past, hs.unique, fun m hm => ?_⟩
  change update s.valid c false (s.ulChunkNo m) = true
  rw [update_of_ne (hc m hm)]
  exact hs.freed m hm

end Inv

theorem Inv.freeAdd (hs : s.Inv (n :: out)) :
    ({ s with plineFree := lineAddTail n s.plineFree } : NandRCache).Inv out := by
  refine ⟨?_, hs.hashed, hs.nodup, hs.lru, hs.past, hs.unique, hs.freed⟩
  have hfree := ((lineAddTail_perm n s.plineFree).append_right s.pringLRU).append_left out
  exact hfree.trans (List.perm_middle.trans hs.nodes)

/-- A node takes over a chunk that is not cached. -/
theorem Inv.link (hs : s.Inv (n :: out)) (hc : ∀ m ∈ s.pringLRU, s.ulChunkNo m ≠ c) :
    (s.link n c).Inv out := by
  have hne {m : ℕ} (hm : m ∈ s.pringLRU) : m ≠ n := by
    rintro rfl
    exact (hs.not_out hm).1 (List.mem_cons_self ..)
  have hchunk {m : ℕ} (hm : m ∈ s.pringLRU) : (s.link n c).ulChunkNo m = s.ulChunkNo m :=
    update_of_ne (hne hm) ..
  have huse {m : ℕ} (hm : m ∈ s.pringLRU) : (s.link n c).lastUse m = s.lastUse m :=
    update_of_ne (hne hm) ..
  have hself : (s.link n c).ulChunkNo n = c := update_self ..
  have hselfUse : (s.link n c).lastUse n = s.now := update_self ..
  have hlist (h : ℕ) : (s.link n c).plineHash h =
      if h = s.hash c then n :: s.plineHash h else s.plineHash h := by
    change update s.plineHash (s.hash c) _ h = _
    split_ifs with hh
    · rw [hh, update_self]
    · rw [update_of_ne hh]
  refine ⟨?_, fun h m => ?_, fun h => ?_, ?_, ?_, ?_, ?_⟩
  · have hswap : (out ++ (s.plineFree ++ n :: s.pringLRU)).Perm
        (n :: out ++ (s.plineFree ++ s.pringLRU)) := by
      have : (out ++ s.plineFree ++ n :: s.pringLRU).Perm (n :: (out ++ s.plineFree ++ s.pringLRU)) :=
        List.perm_middle
      simpa only [List.append_assoc, List.cons_append] using this
    exact hswap.trans hs.nodes
  · change _ ↔ m ∈ n :: s.pringLRU ∧ h = s.hash ((s.link n c).ulChunkNo m)
    rw [hlist, List.mem_cons]
    constructor
    · intro hm
      have hold : m ∈ s.plineHash h → m ∈ s.pringLRU ∧ h = s.hash ((s.link n c).ulChunkNo m) := by
        intro hm
        obtain ⟨hm, hh⟩ := (hs.hashed h m).mp hm
        exact ⟨hm, (hchunk hm).symm ▸ hh⟩
      split_ifs at hm with hh
      · rcases List.mem_cons.mp hm with rfl | hm
        · exact ⟨Or.inl rfl, hself.symm ▸ hh⟩
        · exact ⟨Or.inr (hold hm).1, (hold hm).2⟩
      · exact ⟨Or.inr (hold hm).1, (hold hm).2⟩
    · rintro ⟨rfl | hm, hh⟩
      · rw [hself] at hh
        rw [if_pos hh]
        exact List.mem_cons_self ..
      · rw [hchunk hm] at hh
        have hold := (hs.hashed h m).mpr ⟨hm, hh⟩
        split_ifs
        · exact List.mem_cons_of_mem _ hold
        · exact hold
  · rw [hlist]
    split_ifs
    · refine List.nodup_cons.mpr ⟨fun hn => ?_, hs.nodup h⟩
      exact hne ((hs.hashed h n).mp hn).1 rfl
    · exact hs.nodup h
  · refine List.pairwise_cons.mpr ⟨fun m hm => ?_, hs.lru.imp_of_mem fun ha hb hab => ?_⟩
    · rw [huse hm, hselfUse]
      exact hs.past m hm
    · rw [huse ha, huse hb]
      exact hab
  · intro m hm
    change _ < s.now + 1
    rcases List.mem_cons.mp hm with rfl | hm
    · exact hselfUse.symm ▸ Nat.lt_succ_self _
    · exact (huse hm).symm ▸ Nat.lt_succ_of_lt (hs.past m hm)
  · intro m hm k hk hmk
    rcases List.mem_cons.mp hm with hmn | hm' <;> rcases List.mem_cons.mp hk with hkn | hk'
    · rw [hmn, hkn]
    · rw [hmn, hself, hchunk hk'] at hmk
      exact absurd hmk.symm (hc k hk')
    · rw [hkn, hself, hchunk hm'] at hmk
      exact absurd hmk (hc m hm')
    · rw [hchunk hm', hchunk hk'] at hmk
      exact hs.unique m hm' k hk' hmk
  · intro m hm
    change update s.valid c true _ = true
    rcases List.mem_cons.mp hm with rfl | hm
    · rw [hself, update_self]
    · rw [hchunk hm, update_of_ne (hc m hm)]
      exact hs.freed m hm

/-! ## The calls -/

theorem Inv.nodeAlloc (hs : s.Inv []) (hc : s.find c = none) {s' : NandRCache}
    (h : s.nodeAlloc c = some s') : s'.Inv [] := by
  have hc := hs.find_eq_none.mp hc
  unfold NandRCache.nodeAlloc at h
  cases hfree : s.plineFree with
  | cons n plineFree =>
    rw [hfree] at h
    obtain rfl := Option.some.inj h
    exact (hs.freeDel hfree).link hc
  | nil =>
    simp only [hfree, Option.bind_eq_bind, Option.bind_eq_some_iff, Option.some.injEq] at h
    obtain ⟨n, hlast, rfl⟩ := h
    have hn := List.mem_of_getLast? hlast
    exact (hs.unlink hn).link fun m hm => hc m (List.mem_of_mem_erase hm)

/-- A cache with nodes always has one to give. -/
theorem Inv.nodeAlloc_total (hs : s.Inv []) (hpos : 0 < s.ulnCacheNode) (c : ℕ) :
    ∃ s', s.nodeAlloc c = some s' := by
  unfold NandRCache.nodeAlloc
  cases hfree : s.plineFree with
  | cons n plineFree => exact ⟨_, rfl⟩
  | nil =>
    have hlen := hs.nodes.length_eq
    rw [hfree] at hlen
    simp only [List.nil_append, List.length_range] at hlen
    have hne : s.pringLRU ≠ [] := List.ne_nil_of_length_pos (hlen ▸ hpos)
    simp only [List.getLast?_eq_some_getLast hne]
    exact ⟨_, rfl⟩

theorem Inv.nodeFree (hs : s.Inv []) (c : ℕ) : (s.nodeFree c).Inv [] := by
  unfold NandRCache.nodeFree
  cases hf : s.find c with
  | none => exact hs.invalidate (hs.find_eq_none.mp hf)
  | some n =>
    exact ((hs.unlink (hs.find_eq_some.mp hf).1).invalidate (hs.unlink_find hf)).freeAdd

theorem Inv.blockFree (hs : s.Inv []) (b : ℕ) : (s.blockFree b).Inv [] := by
  unfold NandRCache.blockFree
  generalize List.range s.ulPagePerBlock = is
  generalize b * s.ulPagePerBlock = start
  induction is generalizing s with
  | nil => exact hs
  | cons i is ih => exact ih (hs.nodeFree (start + i))

theorem Inv.step (hs : s.Inv []) {op : NandRCacheOp} (hok : s.StepOk op) {s' : NandRCache}
    (h : s.step op = some s') : s'.Inv [] := by
  cases op with
  | nodeGet c =>
    obtain rfl := Option.some.inj h
    exact hs.nodeGet c
  | nodeAlloc c => exact hs.nodeAlloc hok.1 h
  | nodeFree c =>
    obtain rfl := Option.some.inj h
    exact hs.nodeFree c
  | blockFree b =>
    obtain rfl := Option.some.inj h
    exact hs.blockFree b

theorem Init.inv (h : s.Init) : s.Inv [] := by
  obtain ⟨stMemSize, ulPageSize, ulSpareSize, ulPagePerBlock, rfl⟩ := h
  refine ⟨?_, fun h n => ?_, fun _ => List.nodup_nil, List.Pairwise.nil, ?_, ?_, ?_⟩
  · have hfold (l l' : List ℕ) : (l.foldl (fun l n => lineAddTail n l) l').Perm (l ++ l') := by
      induction l generalizing l' with
      | nil => exact List.Perm.refl _
      | cons n l ih =>
        refine (ih _).trans (((lineAddTail_perm n l').append_left l).trans ?_)
        exact List.perm_middle
    simpa [create] using hfold (List.range (stMemSize / (ulPageSize + ulSpareSize))) []
  all_goals simp [create]

theorem Inv.safe (hs : s.Inv []) : s.Safe where
  nodes := hs.nodes
  hashed := hs.hashed
  nodup := hs.nodup
  lru := hs.lru
  freed c hc := by
    have hnone : s.find c = none := by
      refine hs.find_eq_none.mpr fun n hn hcn => ?_
      have hvalid := hs.freed n hn
      rw [hcn, hc] at hvalid
      cases hvalid
    unfold NandRCache.nodeGet
    rw [hnone]
  total op hok := by
    cases op with
    | nodeAlloc c => exact hs.nodeAlloc_total hok.2 c
    | nodeGet c => exact ⟨_, rfl⟩
    | nodeFree c => exact ⟨_, rfl⟩
    | blockFree b => exact ⟨_, rfl⟩

/-- The lists, the order of last use and the chunks found are right after every run in which no
chunk is allocated that is cached. -/
theorem nandRCache_safe (h : Reach NandRCache.step StepOk Init s) : s.Safe :=
  (h.invariant (fun _ => Init.inv) fun _ _ _ hi hok hs => hi.step hok hs).safe

/-- A cache with two nodes is asked for three chunks, so that the first is evicted. -/
theorem nandRCache_safe_evict :
    ∃ s : NandRCache, s.pringLRU = [0, 1] ∧ s.find 0 = none ∧ s.Safe := by
  have h₀ : Reach NandRCache.step StepOk Init (create 4 1 1 1) := .start ⟨4, 1, 1, 1, rfl⟩
  have h₁ := h₀.extend (.nodeAlloc 0) ⟨rfl, by decide⟩ rfl
  have h₂ := h₁.extend (.nodeAlloc 8) ⟨rfl, by decide⟩ rfl
  have h₃ := h₂.extend (.nodeGet 0) trivial rfl
  have h₄ := h₃.extend (.nodeAlloc 16) ⟨rfl, by decide⟩ rfl
  have h₅ := h₄.extend (.nodeFree 0) trivial rfl
  have h₆ := h₅.extend (.nodeAlloc 24) ⟨rfl, by decide⟩ rfl
  exact ⟨_, rfl, rfl, nandRCache_safe h₆⟩

/-- A chunk that is allocated twice has two nodes, and is found after it has been freed. -/
theorem nandRCache_alloc_twice :
    ∃ s : NandRCache, Reach NandRCache.step (fun _ _ => True) Init s ∧ ¬ s.Safe := by
  have h₀ : Reach NandRCache.step (fun _ _ => True) Init (create 4 1 1 1) := .start ⟨4, 1, 1, 1, rfl⟩
  have hruns : runs NandRCache.step (create 4 1 1 1) [.nodeAlloc 0, .nodeAlloc 0, .nodeFree 0] =
    some _ := rfl
  refine ⟨_, h₀.of_runs hruns, fun hs => ?_⟩
  have hfreed := hs.freed 0 rfl
  cases hfreed

end NandRCache

end SylixOS.Disk
