import SylixOS.TpsFs.Btree.Node
import Mathlib.Data.List.InsertIdx

/-! # The entries of the leaves

The leaves of a tree hold its entries in the order of their keys, and each node holds the first key of
every child. -/

namespace SylixOS.TpsFs
open Lib

section List
variable {α : Type*} {kv : ℕ × α} {L L' A B : List (ℕ × α)}

/-- The keys ascend. -/
def Sorted (L : List (ℕ × α)) : Prop := (L.map Prod.fst).Pairwise (· < ·)

theorem sorted_append : Sorted (A ++ B) ↔ Sorted A ∧ Sorted B ∧ ∀ x ∈ A, ∀ y ∈ B, x.1 < y.1 := by
  simp only [Sorted, List.map_append, List.pairwise_append, List.mem_map, forall_exists_index, and_imp,
    forall_apply_eq_imp_iff₂]

theorem sorted_cons : Sorted (kv :: L) ↔ (∀ x ∈ L, kv.1 < x.1) ∧ Sorted L := by
  simp only [Sorted, List.map_cons, List.pairwise_cons, List.mem_map, forall_exists_index, and_imp,
    forall_apply_eq_imp_iff₂]

theorem Sorted.skip {x y : ℕ × α} (h : Sorted (A ++ x :: y :: B)) : Sorted (A ++ x :: B) := by
  refine List.Pairwise.sublist (List.Sublist.map _ ?_) h
  exact ((List.sublist_cons_self y B).cons_cons x).append_left A

/-- An entry has been inserted at its place. -/
def Inserted (kv : ℕ × α) (L L' : List (ℕ × α)) : Prop :=
  ∃ pre post, L = pre ++ post ∧ L' = pre ++ kv :: post ∧ (∀ x ∈ pre, x.1 < kv.1) ∧
    ∀ x ∈ post, kv.1 < x.1

theorem Inserted.sorted (h : Inserted kv L L') (hs : Sorted L) : Sorted L' := by
  obtain ⟨pre, post, rfl, rfl, hpre, hpost⟩ := h
  rw [sorted_append] at hs ⊢
  refine ⟨hs.1, sorted_cons.mpr ⟨hpost, hs.2.1⟩, fun x hx y hy => ?_⟩
  rcases List.mem_cons.mp hy with rfl | hy
  · exact hpre x hx
  · exact hs.2.2 x hx y hy

theorem Inserted.frame (h : Inserted kv L L') (hA : ∀ x ∈ A, x.1 < kv.1) (hB : ∀ x ∈ B, kv.1 < x.1) :
    Inserted kv (A ++ L ++ B) (A ++ L' ++ B) := by
  obtain ⟨pre, post, rfl, rfl, hpre, hpost⟩ := h
  refine ⟨A ++ pre, post ++ B, by simp, by simp, fun x hx => ?_, fun x hx => ?_⟩
  · rcases List.mem_append.mp hx with hx | hx
    · exact hA x hx
    · exact hpre x hx
  · rcases List.mem_append.mp hx with hx | hx
    · exact hpost x hx
    · exact hB x hx

theorem insertIdx_append (A B : List α) (x : α) : (A ++ B).insertIdx A.length x = A ++ x :: B := by
  induction A with
  | nil => simp
  | cons a A ih => simpa using ih

end List

section Node
variable {ε : Type} {n : BtrNode ε} {kv : ℕ × ε} {blks blks' : List ℕ} {r : Split ε} {cap : ℕ}

/-- The entries of all the children. -/
def join (es : List (ℕ × BtrNode ε)) : List (ℕ × ε) := es.flatMap fun e => e.2.kvArr

variable {es es' : List (ℕ × BtrNode ε)} {e : ℕ × BtrNode ε}

@[simp] theorem join_nil : join ([] : List (ℕ × BtrNode ε)) = [] := rfl

@[simp] theorem join_cons : join (e :: es) = e.2.kvArr ++ join es := List.flatMap_cons

@[simp] theorem join_append : join (es ++ es') = join es ++ join es' := List.flatMap_append

/-- A child, with its key in the parent. -/
structure ChildOk (cap : ℕ) (e : ℕ × BtrNode ε) : Prop where
  two : 2 ≤ e.2.kvArr.length
  full : e.2.kvArr.length ≤ cap
  cap : e.2.uiMaxCnt = cap
  key : e.2.firstKey = e.1

theorem ChildOk.cons (h : ChildOk cap e) : ∃ v rest, e.2.kvArr = (e.1, v) :: rest := by
  have htwo := h.two
  have hkey := h.key
  unfold BtrNode.firstKey BtrNode.keys at hkey
  generalize e.2.kvArr = es at htwo hkey ⊢
  cases es with
  | nil => exact absurd htwo (by simp)
  | cons x rest =>
    simp only [List.map_cons, List.headD_cons] at hkey
    exact ⟨x.2, rest, by rw [← hkey]⟩

/-- The keys of a node are among those of its children. -/
theorem join_keys (h : ∀ e ∈ es, ChildOk cap e) :
    (es.map Prod.fst).Sublist ((join es).map Prod.fst) := by
  induction es with
  | nil => exact List.Sublist.slnil
  | cons e es ih =>
    obtain ⟨v, rest, hcons⟩ := (h e (.head _)).cons
    have hes := ih fun e he => h e (.tail _ he)
    simp only [join_cons, hcons, List.map_cons, List.map_append, List.cons_append]
    exact (hes.trans (List.sublist_append_right _ _)).cons_cons _

theorem btrSearch_floor {k : ℕ} (hs : Sorted n.kvArr) (hne : n.kvArr ≠ []) : ∃ A x B,
    n.kvArr = A ++ x :: B ∧ (btrSearch n k false).1 = A.length ∧ (A = [] ∨ x.1 ≤ k) ∧
    (∀ y ∈ B, k < y.1) ∧ ((btrSearch n k false).2 = true ↔ x.1 = k) := by
  have hne' : n.keys ≠ [] := by simpa [BtrNode.keys] using hne
  obtain ⟨l, k', r, heq, hi, hle, hr, hb⟩ := keySearch_floor (k := k) hs hne'
  obtain ⟨A, t, hsplit, rfl, ht⟩ := List.map_eq_append_iff.mp heq
  obtain ⟨x, B, rfl, rfl, rfl⟩ := List.map_eq_cons_iff.mp ht
  refine ⟨A, x, B, hsplit, by simpa [btrSearch, BtrNode.keys] using hi,
    hle.imp_left fun h => by simpa using h, ?_, hb⟩
  exact fun y hy => hr y.1 (List.mem_map_of_mem hy)

theorem btrSearch_insert (hs : Sorted n.kvArr) (h : (btrSearch n kv.1 true).2 = false) :
    ∃ A B, n.kvArr = A ++ B ∧ (btrSearch n kv.1 true).1 = A.length ∧ (∀ x ∈ A, x.1 < kv.1) ∧
      ∀ x ∈ B, kv.1 < x.1 := by
  obtain ⟨l, r, heq, hi, hl, hr⟩ := keySearch_insert hs h
  obtain ⟨A, B, hsplit, rfl, rfl⟩ := List.map_eq_append_iff.mp heq
  exact ⟨A, B, hsplit, by simpa [btrSearch, BtrNode.keys] using hi,
    fun x hx => hl x.1 (List.mem_map_of_mem hx), fun x hx => hr x.1 (List.mem_map_of_mem hx)⟩

/-- The entries of a node that may have been split. -/
def Split.kvs : Split ε → List (ℕ × ε)
  | .one n => n.kvArr
  | .two n pndSplit => n.kvArr ++ pndSplit.kvArr

/-- The sizes after an insertion into a node with `size` entries. -/
def Split.Ok (size cap : ℕ) : Split ε → Prop
  | .one n => size ≤ n.kvArr.length ∧ n.kvArr.length ≤ cap ∧ n.uiMaxCnt = cap
  | .two n pndSplit => (2 ≤ n.kvArr.length ∧ n.kvArr.length ≤ cap ∧ n.uiMaxCnt = cap) ∧
      2 ≤ pndSplit.kvArr.length ∧ pndSplit.kvArr.length ≤ cap ∧ pndSplit.uiMaxCnt = cap

theorem insertNode_spec (hs : Sorted n.kvArr) (hfull : n.kvArr.length ≤ n.uiMaxCnt)
    (hcap : 4 ≤ n.uiMaxCnt) (h : insertNode n kv blks = .ok (r, blks')) :
    Inserted kv n.kvArr r.kvs ∧ r.Ok n.kvArr.length n.uiMaxCnt := by
  unfold insertNode at h
  by_cases heq : (btrSearch n kv.1 true).2 = true
  · simp [heq] at h
  · rw [Bool.not_eq_true] at heq
    obtain ⟨A, B, hsplit, hi, hA, hB⟩ := btrSearch_insert hs heq
    have hins (L : List (ℕ × ε)) (hL : L = A ++ kv :: B) : Inserted kv n.kvArr L :=
      ⟨A, B, hsplit, hL, hA, hB⟩
    have hlen : n.kvArr.length = A.length + B.length := by simp [hsplit]
    simp only [heq, hi, Bool.false_eq_true, if_false] at h
    by_cases hmax : n.kvArr.length = n.uiMaxCnt
    · rw [if_pos hmax] at h
      cases blks with
      | nil => cases h
      | cons blkAlloc blks =>
        simp only at h
        generalize hsp : n.kvArr.length / 2 = iSplit at h
        rw [hsplit] at h
        by_cases hlt : A.length < iSplit
        · rw [if_pos hlt] at h
          cases h
          have htake : (A ++ B).take iSplit = A ++ B.take (iSplit - A.length) := by
            rw [List.take_append, List.take_of_length_le hlt.le]
          have hdrop : (A ++ B).drop iSplit = B.drop (iSplit - A.length) := by
            rw [List.drop_append, List.drop_of_length_le hlt.le, List.nil_append]
          rw [htake, hdrop, insertIdx_append]
          refine ⟨hins _ (by simp [Split.kvs]), ?_⟩
          simp only [Split.Ok, List.length_append, List.length_cons, List.length_take,
            List.length_drop, and_true]
          omega
        · rw [if_neg hlt] at h
          cases h
          have hle : iSplit ≤ A.length := by omega
          have htake : (A ++ B).take iSplit = A.take iSplit := by
            rw [List.take_append_of_le_length hle]
          have hdrop : (A ++ B).drop iSplit = A.drop iSplit ++ B := by
            rw [List.drop_append_of_le_length hle]
          have hpos : A.length - iSplit = (A.drop iSplit).length := by simp
          rw [htake, hdrop, hpos, insertIdx_append]
          refine ⟨hins _ ?_, ?_⟩
          · simp only [Split.kvs]
            rw [← List.append_assoc, List.take_append_drop]
          · simp only [Split.Ok, List.length_append, List.length_cons, List.length_take,
              List.length_drop, and_true]
            omega
    · rw [if_neg hmax] at h
      cases h
      rw [hsplit, insertIdx_append]
      refine ⟨hsplit ▸ hins _ rfl, ?_⟩
      simp only [Split.Ok, List.length_append, List.length_cons, and_true]
      omega

/-- A new key goes in if there is a block for a second node. -/
theorem insertNode_isOk (kv : ℕ × ε) (hs : Sorted n.kvArr) (hnew : kv.1 ∉ n.keys)
    (hblks : 0 < blks.length) : ∃ r blks',
      insertNode n kv blks = .ok (r, blks') ∧ blks.length ≤ blks'.length + 1 := by
  have heq : (btrSearch n kv.1 true).2 = false :=
    Bool.eq_false_iff.mpr fun h => hnew (keySearch_mem hs h)
  obtain ⟨blkAlloc, blks, rfl⟩ := List.exists_cons_of_length_pos hblks
  simp only [insertNode, heq, Bool.false_eq_true, if_false]
  split_ifs
  · exact ⟨_, _, rfl, le_rfl⟩
  · exact ⟨_, _, rfl, le_rfl⟩
  · exact ⟨_, _, rfl, Nat.le_succ _⟩

end Node

/-! ## All levels -/

/-- The entries of the leaves under the entries of a node. -/
def items : (level : ℕ) → List (ℕ × Data level) → List (ℕ × KvValue)
  | 0, es => es
  | level + 1, es => items level (join es)

variable {psb : SuperBlock} {level : ℕ}

@[simp] theorem items_nil : items level [] = [] := by
  induction level with
  | zero => rfl
  | succ level ih => exact ih

theorem items_append (es es' : List (ℕ × Data level)) :
    items level (es ++ es') = items level es ++ items level es' := by
  induction level with
  | zero => rfl
  | succ level ih =>
    change items level (join (es ++ es')) = _
    rw [join_append, ih]
    rfl

/-- All children at the levels below are as they should be. -/
def Synced (psb : SuperBlock) : (level : ℕ) → List (ℕ × Data level) → Prop
  | 0, _ => True
  | level + 1, es => (∀ e ∈ es, ChildOk (blkCap psb level) e) ∧ Synced psb level (join es)

@[simp] theorem synced_nil : Synced psb level [] := by
  induction level with
  | zero => trivial
  | succ level ih => exact ⟨by simp, ih⟩

theorem synced_append {es es' : List (ℕ × Data level)} :
    Synced psb level (es ++ es') ↔ Synced psb level es ∧ Synced psb level es' := by
  induction level with
  | zero => exact ⟨fun _ => ⟨trivial, trivial⟩, fun _ => trivial⟩
  | succ level ih =>
    change (∀ e ∈ es ++ es', _) ∧ Synced psb level (join (es ++ es')) ↔ _
    rw [join_append, ih]
    constructor
    · rintro ⟨hmem, hl, hr⟩
      exact ⟨⟨fun e he => hmem e (List.mem_append_left _ he), hl⟩,
        fun e he => hmem e (List.mem_append_right _ he), hr⟩
    · rintro ⟨⟨hl, hl'⟩, hr, hr'⟩
      refine ⟨fun e he => ?_, hl', hr'⟩
      rcases List.mem_append.mp he with he | he
      · exact hl e he
      · exact hr e he

/-- The keys of every level ascend when those of the leaves do. -/
theorem Synced.sorted {es : List (ℕ × Data level)} (h : Synced psb level es)
    (hs : Sorted (items level es)) : Sorted es := by
  induction level with
  | zero => exact hs
  | succ level ih => exact (ih h.2 hs).sublist (join_keys h.1)

/-- The first entry of the leaves has the key of the node. -/
theorem Synced.head {x : ℕ × Data level} {es : List (ℕ × Data level)}
    (h : Synced psb level (x :: es)) : ∃ v rest, items level (x :: es) = (x.1, v) :: rest := by
  induction level with
  | zero => exact ⟨x.2, es, rfl⟩
  | succ level ih =>
    obtain ⟨v, rest, hcons⟩ := (h.1 x (.head _)).cons
    have hsync := h.2
    rw [join_cons, hcons] at hsync
    change ∃ w rest', items level (join (x :: es)) = _
    rw [join_cons, hcons]
    exact ih hsync

theorem Synced.items_ne_nil {es : List (ℕ × Data level)} (h : Synced psb level es) (hne : es ≠ []) :
    items level es ≠ [] := by
  obtain ⟨x, es, rfl⟩ := List.exists_cons_of_ne_nil hne
  obtain ⟨v, rest, heq⟩ := h.head
  simp [heq]

/-- Where a search goes on: everything before the child has smaller keys, everything behind it has
greater ones. -/
structure Descent (level : ℕ) (es : List (ℕ × BtrNode (Data level))) (k i : ℕ)
    (A : List (ℕ × BtrNode (Data level))) (c : BtrNode (Data level))
    (B : List (ℕ × BtrNode (Data level))) : Prop where
  split : es = A ++ (c.firstKey, c) :: B
  index : i = A.length
  floor : A = [] ∨ c.firstKey ≤ k
  before : ∀ x ∈ items level (join A), x.1 < k
  after : ∀ x ∈ items level (join B), k < x.1

theorem Descent.items_eq {es A B : List (ℕ × BtrNode (Data level))} {c : BtrNode (Data level)}
    {k i : ℕ} (h : Descent level es k i A c B) : items (level + 1) es =
      items level (join A) ++ items level c.kvArr ++ items level (join B) := by
  change items level (join es) = _
  rw [h.split, join_append, join_cons, items_append, items_append, List.append_assoc]

theorem Synced.descend {n : BtrNode (Data (level + 1))} (h : Synced psb (level + 1) n.kvArr)
    (hs : Sorted (items (level + 1) n.kvArr)) (hne : n.kvArr ≠ []) (k : ℕ) :
    ∃ A c B, Descent level n.kvArr k (btrSearch n k false).1 A c B := by
  obtain ⟨A, ⟨key, c⟩, B, hsplit, hi, hle, hB, -⟩ := btrSearch_floor (k := k) (h.sorted hs) hne
  have hok : ChildOk (blkCap psb level) (key, c) := h.1 _ (by simp [hsplit])
  obtain rfl : c.firstKey = key := hok.key
  have hsync : Synced psb (level + 1) (A ++ ([(c.firstKey, c)] ++ B)) := hsplit ▸ h
  have hitems : items (level + 1) n.kvArr = items (level + 1) A ++
      (items (level + 1) [(c.firstKey, c)] ++ items (level + 1) B) := by
    rw [hsplit, ← items_append, ← items_append, List.singleton_append]
  rw [synced_append, synced_append] at hsync
  rw [hitems, sorted_append, sorted_append] at hs
  refine ⟨A, c, B, hsplit, hi, hle, fun x hx => ?_, fun x hx => ?_⟩
  · rcases hle with rfl | hle
    · simp at hx
    · obtain ⟨v, rest, hhead⟩ := hsync.2.1.head
      have hmem : (c.firstKey, v) ∈ items (level + 1) [(c.firstKey, c)] := hhead ▸ .head _
      exact (hs.2.2 x hx _ (List.mem_append_left _ hmem)).trans_le hle
  · cases B with
    | nil => simp at hx
    | cons y B =>
      obtain ⟨v, rest, hhead⟩ := hsync.2.2.head
      have hy : k < y.1 := hB y (.head _)
      change x ∈ items (level + 1) (y :: B) at hx
      have hBs := hs.2.1.2.1
      rw [hhead] at hx hBs
      rcases List.mem_cons.mp hx with rfl | hx
      · exact hy
      · exact hy.trans ((sorted_cons.mp hBs).1 x hx)

end SylixOS.TpsFs
