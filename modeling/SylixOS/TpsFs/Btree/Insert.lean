import SylixOS.TpsFs.Btree.Ordered

/-! # Insertion

An insertion puts the entry at its place among the entries of the leaves, whichever nodes are split. -/

namespace SylixOS.TpsFs
open Lib

section List
variable {α : Type*} {kv : ℕ × α} {L' A B : List (ℕ × α)}

/-- An entry has one place. -/
theorem Inserted.eq (h : Inserted kv (A ++ B) L') (hA : ∀ x ∈ A, x.1 < kv.1)
    (hB : ∀ x ∈ B, kv.1 < x.1) : L' = A ++ kv :: B := by
  obtain ⟨pre, post, heq, rfl, hpre, hpost⟩ := h
  have hfilter (xs ys : List (ℕ × α)) (hx : ∀ x ∈ xs, x.1 < kv.1) (hy : ∀ y ∈ ys, kv.1 < y.1) :
      (xs ++ ys).filter (fun x => x.1 < kv.1) = xs := by
    have hnil : ys.filter (fun x => x.1 < kv.1) = [] :=
      List.filter_eq_nil_iff.mpr fun y hm => by simpa using (hy y hm).le
    rw [List.filter_append, List.filter_eq_self.mpr (by simpa using hx), hnil, List.append_nil]
  have hAp : A = pre := by rw [← hfilter A B hA hB, heq, hfilter pre post hpre hpost]
  subst hAp
  rw [List.append_cancel_left heq]

end List

section Node
variable {ε : Type} {p : BtrNode (BtrNode ε)} {n c : BtrNode ε} {A B : List (ℕ × BtrNode ε)}

theorem BtrNode.setChild_kvArr (h : p.kvArr = A ++ (c.firstKey, c) :: B) :
    (p.setChild A.length n).kvArr = A ++ (n.firstKey, n) :: B := by
  simp [BtrNode.setChild, h]

end Node

variable {psb : SuperBlock} {level : ℕ} {kv : ℕ × KvValue} {blks blks' : List ℕ}

theorem items_child (A B : List (ℕ × BtrNode (Data level))) (c : BtrNode (Data level)) (k : ℕ) :
    items (level + 1) (A ++ (k, c) :: B) =
      items level (join A) ++ items level c.kvArr ++ items level (join B) := by
  change items level (join (A ++ (k, c) :: B)) = _
  rw [join_append, join_cons, items_append, items_append, List.append_assoc]

theorem synced_child {A B : List (ℕ × BtrNode (Data level))} {c : BtrNode (Data level)} {k : ℕ} :
    Synced psb (level + 1) (A ++ (k, c) :: B) ↔ Synced psb (level + 1) A ∧
      (ChildOk (blkCap psb level) (k, c) ∧ Synced psb level c.kvArr) ∧ Synced psb (level + 1) B := by
  rw [synced_append, ← List.singleton_append, synced_append]
  simp [Synced]

section Descent
variable {k i : ℕ} {x : ℕ × KvValue} {A B : List (ℕ × BtrNode (Data level))} {c : BtrNode (Data level)}
  {n : BtrNode (Data (level + 1))}

/-- What is known of the child where a search goes on. -/
theorem Descent.child (hd : Descent level n.kvArr k i A c B) (h : Synced psb (level + 1) n.kvArr)
    (hs : Sorted (items (level + 1) n.kvArr)) : n.kvArr[i]? = some (c.firstKey, c) ∧
      ChildOk (blkCap psb level) (c.firstKey, c) ∧ Synced psb level c.kvArr ∧
      Sorted (items level c.kvArr) ∧ c.kvArr ≠ [] := by
  rw [hd.items_eq, sorted_append, sorted_append] at hs
  rw [hd.split, synced_child] at h
  refine ⟨?_, h.2.1.1, h.2.1.2, hs.1.2.1, fun hnil => ?_⟩
  · rw [hd.split, hd.index]
    simp
  · have := h.2.1.1.two
    simp [hnil] at this

/-- An entry with the key that is searched is under this child. -/
theorem Descent.mem_child (hd : Descent level n.kvArr x.1 i A c B)
    (hx : x ∈ items (level + 1) n.kvArr) : x ∈ items level c.kvArr := by
  rw [hd.items_eq, List.mem_append, List.mem_append] at hx
  rcases hx with (hx | hx) | hx
  · exact absurd (hd.before x hx) (lt_irrefl _)
  · exact hx
  · exact absurd (hd.after x hx) (lt_irrefl _)

end Descent

theorem rootCap_ge (psb : SuperBlock) (level : ℕ) : 4 ≤ rootCap psb level := by
  have h := psb.blkSize_ge
  unfold rootCap maxNodeCnt inodeDataStart
  split_ifs
  · omega
  · omega

theorem rootCap_le (psb : SuperBlock) (level : ℕ) : rootCap psb level ≤ blkCap psb level :=
  Nat.div_le_div_right (Nat.sub_le_sub_right (Nat.sub_le _ _) _)

/-- A child that has been split, and its second half inserted behind it. -/
theorem insertNode_child {n n₁ : BtrNode (Data (level + 1))} {c₁ c₂ : BtrNode (Data level)}
    {A B : List (ℕ × BtrNode (Data level))} {r : Split (Data (level + 1))}
    (hall : Synced psb (level + 1) (A ++ (c₁.firstKey, c₁) :: (c₂.firstKey, c₂) :: B))
    (hs : Sorted (items (level + 1) (A ++ (c₁.firstKey, c₁) :: (c₂.firstKey, c₂) :: B)))
    (hkv : n₁.kvArr = A ++ (c₁.firstKey, c₁) :: B) (hlen : n₁.kvArr.length = n.kvArr.length)
    (hmax : n₁.uiMaxCnt = n.uiMaxCnt) (hfull : n.kvArr.length ≤ n.uiMaxCnt) (hcap : 4 ≤ n.uiMaxCnt)
    (h : insertNode n₁ (c₂.firstKey, c₂) blks = .ok (r, blks')) :
    r.kvs = A ++ (c₁.firstKey, c₁) :: (c₂.firstKey, c₂) :: B ∧ r.Ok n.kvArr.length n.uiMaxCnt := by
  have hcons (l : List (ℕ × BtrNode (Data level))) :
      A ++ (c₁.firstKey, c₁) :: l = (A ++ [(c₁.firstKey, c₁)]) ++ l := by simp
  have hkeys := hall.sorted hs
  have hsub : Sorted n₁.kvArr := by
    rw [hkv]
    exact hkeys.skip
  rw [hcons, sorted_append, sorted_cons] at hkeys
  rw [hcons] at hkv
  obtain ⟨hpos, hrok⟩ := insertNode_spec hsub (hlen ▸ hmax ▸ hfull) (hmax ▸ hcap) h
  rw [hkv] at hpos
  refine ⟨?_, hlen ▸ hmax ▸ hrok⟩
  rw [hcons]
  exact hpos.eq (fun x hx => hkeys.2.2 x hx _ (.head _)) fun x hx => hkeys.2.1.1 x hx

/-- The node with the two halves of a child. -/
theorem split_child {n : BtrNode (Data (level + 1))} {c c₁ c₂ : BtrNode (Data level)}
    {A B : List (ℕ × BtrNode (Data level))} {i : ℕ} (h : Synced psb (level + 1) n.kvArr)
    (hd : Descent level n.kvArr kv.1 i A c B)
    (hins : Inserted kv (items level c.kvArr) (items level (c₁.kvArr ++ c₂.kvArr)))
    (hsync : Synced psb level (c₁.kvArr ++ c₂.kvArr))
    (hok : (Split.two c₁ c₂).Ok c.kvArr.length (blkCap psb level)) :
    Synced psb (level + 1) (A ++ (c₁.firstKey, c₁) :: (c₂.firstKey, c₂) :: B) ∧
      Inserted kv (items (level + 1) n.kvArr)
        (items (level + 1) (A ++ (c₁.firstKey, c₁) :: (c₂.firstKey, c₂) :: B)) := by
  obtain ⟨⟨hlo₁, hhi₁, hmax₁⟩, hlo₂, hhi₂, hmax₂⟩ := hok
  rw [hd.split, synced_child] at h
  rw [synced_append] at hsync
  refine ⟨?_, ?_⟩
  · rw [synced_child]
    refine ⟨h.1, ⟨⟨hlo₁, hhi₁, hmax₁, rfl⟩, hsync.1⟩, ?_⟩
    rw [← List.nil_append ((c₂.firstKey, c₂) :: B), synced_child]
    exact ⟨synced_nil, ⟨⟨hlo₂, hhi₂, hmax₂, rfl⟩, hsync.2⟩, h.2.2⟩
  · have hitems : items (level + 1) (A ++ (c₁.firstKey, c₁) :: (c₂.firstKey, c₂) :: B) =
        items level (join A) ++ items level (c₁.kvArr ++ c₂.kvArr) ++ items level (join B) := by
      rw [items_child, join_cons, items_append, items_append]
      simp
    rw [hitems, hd.items_eq]
    exact hins.frame hd.before hd.after

/-- What an insertion into a subtree does. -/
theorem insertAt_spec {n : BtrNode (Data level)} {r : Split (Data level)}
    (hsync : Synced psb level n.kvArr) (hs : Sorted (items level n.kvArr))
    (hne : 0 < level → n.kvArr ≠ []) (hfull : n.kvArr.length ≤ n.uiMaxCnt) (hcap : 4 ≤ n.uiMaxCnt)
    (h : insertAt level n kv blks = .ok (r, blks')) :
    Inserted kv (items level n.kvArr) (items level r.kvs) ∧ Synced psb level r.kvs ∧
      r.Ok n.kvArr.length n.uiMaxCnt := by
  induction level generalizing blks blks' with
  | zero =>
    obtain ⟨hins, hok⟩ := insertNode_spec hs hfull hcap h
    exact ⟨hins, trivial, hok⟩
  | succ level ih =>
    obtain ⟨A, c, B, hd⟩ := hsync.descend hs (hne (Nat.succ_pos _)) kv.1
    obtain ⟨hget, hc, hcs, hcsort, hcne⟩ := hd.child hsync hs
    simp only [insertAt, hget] at h
    cases hrec : insertAt level c kv blks with
    | error e =>
      rw [hrec] at h
      cases h
    | ok res =>
      obtain ⟨r', blks₁⟩ := res
      rw [hrec] at h
      have hcap' : c.uiMaxCnt = blkCap psb level := hc.cap
      obtain ⟨hins, hsync', hok⟩ := ih hcs hcsort (fun _ => hcne) (hcap' ▸ hc.full)
        (hcap' ▸ (rootCap_ge psb level).trans (rootCap_le psb level)) hrec
      cases r' with
      | one c' =>
        cases h
        rw [hd.split, synced_child] at hsync
        obtain ⟨hA, -, hB⟩ := hsync
        obtain ⟨hlo, hhi, hmax⟩ := hok
        have hkv := BtrNode.setChild_kvArr (n := c') hd.split
        rw [hd.index]
        refine ⟨?_, ?_, ?_⟩
        · rw [Split.kvs, hkv, items_child, hd.items_eq]
          exact hins.frame hd.before hd.after
        · rw [Split.kvs, hkv, synced_child]
          exact ⟨hA, ⟨⟨hc.two.trans hlo, hcap' ▸ hhi, hcap' ▸ hmax, rfl⟩, hsync'⟩, hB⟩
        · refine ⟨?_, ?_, rfl⟩
          · simp [BtrNode.setChild]
          · simpa [BtrNode.setChild] using hfull
      | two c₁ c₂ =>
        have hkv := BtrNode.setChild_kvArr (n := c₁) hd.split
        rw [← hd.index] at hkv
        obtain ⟨hall, hins'⟩ := split_child hsync hd hins hsync' (hcap' ▸ hok)
        obtain ⟨hkvs, hrok⟩ := insertNode_child (n := n) hall (hins'.sorted hs) hkv
          (by simp [BtrNode.setChild]) rfl hfull hcap h
        rw [hkvs]
        exact ⟨hins', hall, hrok⟩

/-- An insertion of a key that is not there needs a block for each level at most. -/
theorem insertAt_isOk {n : BtrNode (Data level)} (hsync : Synced psb level n.kvArr)
    (hs : Sorted (items level n.kvArr)) (hne : 0 < level → n.kvArr ≠ [])
    (hnew : ∀ x ∈ items level n.kvArr, x.1 ≠ kv.1) (hblks : level < blks.length) : ∃ r blks',
      insertAt level n kv blks = .ok (r, blks') ∧ blks.length ≤ blks'.length + level + 1 := by
  induction level generalizing blks with
  | zero =>
    refine insertNode_isOk kv hs (fun hmem => ?_) hblks
    obtain ⟨x, hx, hkey⟩ := List.mem_map.mp hmem
    exact hnew x hx hkey
  | succ level ih =>
    obtain ⟨A, c, B, hd⟩ := hsync.descend hs (hne (Nat.succ_pos _)) kv.1
    obtain ⟨hget, hc, hcs, hcsort, hcne⟩ := hd.child hsync hs
    have hcap' : c.uiMaxCnt = blkCap psb level := hc.cap
    have hnew' : ∀ x ∈ items level c.kvArr, x.1 ≠ kv.1 := fun x hx =>
      hnew x (by rw [hd.items_eq]; simp [hx])
    obtain ⟨r', blks₁, hrec, hlen⟩ := ih hcs hcsort (fun _ => hcne) hnew' (Nat.lt_of_succ_lt hblks)
    obtain ⟨hins, hsync', hok⟩ := insertAt_spec hcs hcsort (fun _ => hcne) (hcap' ▸ hc.full)
      (hcap' ▸ (rootCap_ge psb level).trans (rootCap_le psb level)) hrec
    simp only [insertAt, hget, hrec]
    cases r' with
    | one c' => exact ⟨_, blks₁, rfl, by omega⟩
    | two c₁ c₂ =>
      have hkv := BtrNode.setChild_kvArr (n := c₁) hd.split
      rw [← hd.index] at hkv
      obtain ⟨hall, hins'⟩ := split_child hsync hd hins hsync' (hcap' ▸ hok)
      have hkeys := hall.sorted (hins'.sorted hs)
      have hsub : Sorted (n.setChild (btrSearch n kv.1 false).1 c₁).kvArr := by
        rw [hkv]
        exact hkeys.skip
      have hnew₂ : c₂.firstKey ∉ (n.setChild (btrSearch n kv.1 false).1 c₁).keys := by
        intro hmem
        obtain ⟨x, hx, hkey⟩ := List.mem_map.mp hmem
        rw [hkv, List.mem_append, List.mem_cons] at hx
        rw [sorted_append, sorted_cons, sorted_cons] at hkeys
        obtain ⟨-, ⟨h₁, h₂, -⟩, h₃⟩ := hkeys
        rcases hx with hx | rfl | hx
        · exact (h₃ x hx _ (.tail _ (.head _))).ne hkey
        · exact (h₁ _ (.head _)).ne hkey
        · exact (h₂ x hx).ne' hkey
      have hpos : 0 < blks₁.length := by omega
      obtain ⟨r, blks₂, hnode, hlen'⟩ := insertNode_isOk (c₂.firstKey, c₂) hsub hnew₂ hpos
      exact ⟨r, blks₂, hnode, by omega⟩

/-! ## The whole tree -/

/-- The entries of the leaves. -/
def Btree.items (t : Btree) : List (ℕ × KvValue) := TpsFs.items t.level t.root.kvArr

/-- The nodes are within their sizes, and the leaves in the order of the keys. -/
structure Btree.Ok (psb : SuperBlock) (t : Btree) : Prop where
  synced : Synced psb t.level t.root.kvArr
  sorted : Sorted t.items
  two : 0 < t.level → 2 ≤ t.root.kvArr.length
  full : t.root.kvArr.length ≤ t.root.uiMaxCnt
  cap : t.root.uiMaxCnt = rootCap psb t.level

variable {t t' : Btree}

theorem tpsFsBtreeInit_ok (psb : SuperBlock) (inum : ℕ) : (tpsFsBtreeInit psb inum).Ok psb :=
  ⟨trivial, .nil, fun h => absurd h (lt_irrefl _), Nat.zero_le _, rfl⟩

theorem Btree.Ok.root_ne_nil (h : t.Ok psb) (hpos : 0 < t.level) : t.root.kvArr ≠ [] := by
  have := h.two hpos
  intro hnil
  simp [hnil] at this

theorem splitRoot_ok {n pndSplit : BtrNode (Data level)} {L : List (ℕ × KvValue)} (blkAlloc : ℕ)
    (hsync : Synced psb level (n.kvArr ++ pndSplit.kvArr)) (hs : Sorted L)
    (hL : TpsFs.items level (n.kvArr ++ pndSplit.kvArr) = L)
    (hok : (Split.two n pndSplit).Ok n.kvArr.length (rootCap psb level)) :
    (splitRoot psb level n pndSplit blkAlloc).Ok psb ∧
      (splitRoot psb level n pndSplit blkAlloc).items = L := by
  obtain ⟨⟨hlo₁, hhi₁, -⟩, hlo₂, hhi₂, -⟩ := hok
  have hle := rootCap_le psb level
  have hitems : (splitRoot psb level n pndSplit blkAlloc).items = L := by
    rw [← hL]
    simp [splitRoot, Btree.items, TpsFs.items]
  refine ⟨⟨⟨?_, ?_⟩, hitems ▸ hs, fun _ => le_rfl, ?_, rfl⟩, hitems⟩
  · intro e he
    simp only [splitRoot, List.mem_cons, List.not_mem_nil, or_false] at he
    rcases he with rfl | rfl
    · exact ⟨hlo₁, hhi₁.trans hle, rfl, rfl⟩
    · exact ⟨hlo₂, hhi₂.trans hle, rfl, rfl⟩
  · simpa [splitRoot] using hsync
  · exact (by decide : 2 ≤ 4).trans (rootCap_ge psb (level + 1))

/-- `__tpsFsBtreeInsert` puts the entry at its place. -/
theorem btreeInsert_spec (hok : t.Ok psb) (h : btreeInsert psb t kv blks = .ok (t', blks')) :
    t'.Ok psb ∧ Inserted kv t.items t'.items := by
  unfold btreeInsert at h
  cases hrec : insertAt t.level t.root kv blks with
  | error e =>
    rw [hrec] at h
    cases h
  | ok res =>
    obtain ⟨r, blks₁⟩ := res
    rw [hrec] at h
    obtain ⟨hins, hsync, hr⟩ := insertAt_spec hok.synced hok.sorted hok.root_ne_nil hok.full
      (hok.cap ▸ rootCap_ge psb t.level) hrec
    have hs := hins.sorted hok.sorted
    cases r with
    | one n =>
      cases h
      obtain ⟨hlo, hhi, hmax⟩ := hr
      exact ⟨⟨hsync, hs, fun hpos => (hok.two hpos).trans hlo, hmax ▸ hhi, hmax.trans hok.cap⟩, hins⟩
    | two n pndSplit =>
      cases blks₁ with
      | nil => cases h
      | cons blkAlloc blks₁ =>
        cases h
        rw [hok.cap] at hr
        obtain ⟨hok', hitems⟩ := splitRoot_ok blkAlloc hsync hs rfl hr
        exact ⟨hok', hitems ▸ hins⟩

/-- A new key can be inserted if there is a block for a new node at every level, and for a new root. -/
theorem btreeInsert_isOk (kv : ℕ × KvValue) (hok : t.Ok psb) (hnew : ∀ x ∈ t.items, x.1 ≠ kv.1)
    (hblks : t.level + 1 < blks.length) : ∃ t' blks', btreeInsert psb t kv blks = .ok (t', blks') := by
  obtain ⟨r, blks₁, hrec, hlen⟩ :=
    insertAt_isOk hok.synced hok.sorted hok.root_ne_nil hnew (Nat.lt_of_succ_lt hblks)
  simp only [btreeInsert, hrec]
  cases r with
  | one n => exact ⟨_, _, rfl⟩
  | two n pndSplit =>
    cases blks₁ with
    | nil =>
      simp only [List.length_nil] at hlen
      omega
    | cons blkAlloc blks₁ => exact ⟨_, _, rfl⟩

end SylixOS.TpsFs
