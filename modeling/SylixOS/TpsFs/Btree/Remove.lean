import SylixOS.TpsFs.Btree.Lookup

/-! # Removal

A removal takes one entry out of the leaves, whichever nodes lend an entry or are merged. A node that
is merged away leaves its entry in the parent, which the parent loses in turn. -/

namespace SylixOS.TpsFs
open Lib

section List
variable {α : Type*} {x : ℕ × α} {L L' A B : List (ℕ × α)}

/-- One entry is gone. -/
def Removed (x : ℕ × α) (L L' : List (ℕ × α)) : Prop :=
  ∃ pre post, L = pre ++ x :: post ∧ L' = pre ++ post

theorem Removed.frame (h : Removed x L L') : Removed x (A ++ L ++ B) (A ++ L' ++ B) := by
  obtain ⟨pre, post, rfl, rfl⟩ := h
  exact ⟨A ++ pre, post ++ B, by simp, by simp⟩

theorem Removed.sorted (h : Removed x L L') (hs : Sorted L) : Sorted L' := by
  obtain ⟨pre, post, rfl, rfl⟩ := h
  refine List.Pairwise.sublist ?_ hs
  exact List.Sublist.map _ ((List.sublist_cons_self _ _).append_left _)

theorem Removed.eq (h : Removed x (A ++ x :: B) L') (hs : Sorted (A ++ x :: B)) : L' = A ++ B := by
  obtain ⟨pre, post, heq, rfl⟩ := h
  obtain ⟨rfl, rfl⟩ := hs.split_eq heq
  rfl

end List

section Node
variable {ε : Type} {p : BtrNode (BtrNode ε)} {n s : BtrNode ε} {A B : List (ℕ × BtrNode ε)}
  {cap u j k : ℕ}

/-- What a child becomes in its parent, and which entry the parent has to lose. -/
structure Shrunk (cap u : ℕ) (p p' : BtrNode (BtrNode ε)) (left rest right : List (ℕ × ε))
    (pend : Option ℕ) : Prop where
  len : p'.kvArr.length = p.kvArr.length
  max : p'.uiMaxCnt = p.uiMaxCnt
  done : pend = none → join p'.kvArr = left ++ rest ++ right ∧ ∀ e ∈ p'.kvArr, ChildOk cap e
  pend : ∀ j, pend = some j → j < p.kvArr.length ∧ join (p'.kvArr.eraseIdx j) = left ++ rest ++ right ∧
    (∀ e ∈ p'.kvArr.eraseIdx j, ChildOk cap e) ∧
    (p.kvArr.length = 2 → ∀ e ∈ p'.kvArr.eraseIdx j, e.2.kvArr.length ≤ u)

theorem ChildOk.of_cons {v : ε} {rest : List (ℕ × ε)} (hcons : n.kvArr = (k, v) :: rest)
    (htwo : 2 ≤ n.kvArr.length) (hfull : n.kvArr.length ≤ cap) (hmax : n.uiMaxCnt = cap) :
    ChildOk cap (k, n) := by
  refine ⟨htwo, hfull, hmax, ?_⟩
  simp [BtrNode.firstKey, BtrNode.keys, hcons]

/-- The last child borrows the last entry of its neighbour, or goes into it. -/
theorem removeNode_left (hp : p.kvArr = A ++ [(k, s), (j, n)]) {iRemove : ℕ}
    (hA : ∀ e ∈ A, ChildOk cap e) (hs : ChildOk cap (k, s)) (hmax : n.uiMaxCnt = cap)
    (htwo : 2 ≤ n.kvArr.length) (hrem : iRemove < n.kvArr.length) (hu : u ≤ cap)
    (hle : n.kvArr.length ≤ u / 2) : ∃ p' pend freed,
      removeNode u p (A.length + 1) iRemove = .ok (p', pend, freed) ∧
      Shrunk cap u p p' (join (A ++ [(k, s)])) (n.kvArr.eraseIdx iRemove) [] pend := by
  have hn : p.kvArr[A.length + 1]? = some (j, n) := by simp [hp]
  have hsib : p.kvArr[A.length + 1 - 1]? = some (k, s) := by simp [hp]
  have hlast : A.length + 1 = p.kvArr.length - 1 := by simp [hp]
  have hrest : (n.kvArr.eraseIdx iRemove).length = n.kvArr.length - 1 :=
    List.length_eraseIdx_of_lt hrem
  have htwo' : 2 ≤ s.kvArr.length := hs.two
  have hfull : s.kvArr.length ≤ cap := hs.full
  obtain ⟨v, srest, hscons⟩ : ∃ v srest, s.kvArr = (k, v) :: srest := hs.cons
  generalize hr : n.kvArr.eraseIdx iRemove = rest at hrest
  simp only [removeNode, hn, hr, if_pos hle, if_pos hlast, hsib]
  by_cases hlend : u / 2 < s.kvArr.length
  · have hsne : srest ≠ [] := by
      intro hnil
      simp [hscons, hnil] at htwo'
    obtain ⟨mid, last, rfl⟩ := (List.eq_nil_or_concat srest).resolve_left hsne
    rw [List.concat_eq_append, ← List.cons_append] at hscons
    have hget : s.kvArr.getLast? = some last := by rw [hscons, List.getLast?_concat]
    have hdrop : s.kvArr.dropLast = (k, v) :: mid := by rw [hscons, List.dropLast_concat]
    have hlen : mid.length + 2 = s.kvArr.length := by simp [hscons]
    simp only [if_pos hlend, hget]
    have hset (q : BtrNode (BtrNode ε))
        (hq : q.kvArr = p.kvArr.set (A.length + 1 - 1) (k, { s with kvArr := s.kvArr.dropLast })) :
        (q.setChild (A.length + 1) { n with kvArr := last :: rest }).kvArr = A ++
          [(k, { s with kvArr := (k, v) :: mid }), (last.1, { n with kvArr := last :: rest })] := by
      simp [BtrNode.setChild, BtrNode.firstKey, BtrNode.keys, hq, hp, hdrop]
    refine ⟨_, _, _, rfl, ?_, rfl, fun _ => ⟨?_, fun e he => ?_⟩, by rintro _ ⟨⟩⟩
    · simp [BtrNode.setChild]
    · rw [hset _ rfl]
      simp [hscons]
    · rw [hset _ rfl, List.mem_append, List.mem_cons, List.mem_singleton] at he
      rcases he with he | rfl | rfl
      · exact hA e he
      · refine .of_cons rfl ?_ ?_ hs.cap
        · simp only [List.length_cons]
          omega
        · simp only [List.length_cons]
          omega
      · refine .of_cons rfl ?_ ?_ hmax
        · simp only [List.length_cons]
          omega
        · simp only [List.length_cons]
          omega
  · simp only [if_neg hlend]
    have hset : (p.kvArr.set (A.length + 1 - 1) (k, { s with kvArr := s.kvArr ++ rest })).eraseIdx
        (A.length + 1) = A ++ [(k, { s with kvArr := s.kvArr ++ rest })] := by
      simp [hp, List.eraseIdx_append_of_length_le]
    refine ⟨_, _, _, rfl, by simp, rfl, by rintro ⟨⟩, fun i hi => ?_⟩
    obtain rfl : A.length + 1 = i := by simpa using hi
    rw [hset]
    refine ⟨by simp [hp], by simp, fun e he => ?_, fun h2 e he => ?_⟩
    · rw [List.mem_append, List.mem_singleton] at he
      rcases he with he | rfl
      · exact hA e he
      · have hcons : s.kvArr ++ rest = (k, v) :: (srest ++ rest) := by simp [hscons]
        refine .of_cons hcons ?_ ?_ hs.cap
        · simp only [List.length_append]
          omega
        · simp only [List.length_append]
          omega
    · have hAnil : A = [] := by
        rw [hp] at h2
        simpa using h2
      rw [hAnil, List.nil_append, List.mem_singleton] at he
      rw [he]
      simp only [List.length_append]
      omega

/-- Any other child borrows the first entry of its neighbour, or takes all of them. -/
theorem removeNode_right (hp : p.kvArr = A ++ (j, n) :: (k, s) :: B) {iRemove : ℕ}
    (hA : ∀ e ∈ A, ChildOk cap e) (hs : ChildOk cap (k, s)) (hB : ∀ e ∈ B, ChildOk cap e)
    (hmax : n.uiMaxCnt = cap) (htwo : 2 ≤ n.kvArr.length) (hrem : iRemove < n.kvArr.length)
    (hu : u ≤ cap) (hle : n.kvArr.length ≤ u / 2) : ∃ p' pend freed,
      removeNode u p A.length iRemove = .ok (p', pend, freed) ∧
      Shrunk cap u p p' (join A) (n.kvArr.eraseIdx iRemove) (join ((k, s) :: B)) pend := by
  have hn : p.kvArr[A.length]? = some (j, n) := by simp [hp]
  have hsib : p.kvArr[A.length + 1]? = some (k, s) := by simp [hp]
  have hlast : A.length ≠ p.kvArr.length - 1 := by simp [hp]
  have hrest : (n.kvArr.eraseIdx iRemove).length = n.kvArr.length - 1 :=
    List.length_eraseIdx_of_lt hrem
  have htwo' : 2 ≤ s.kvArr.length := hs.two
  have hfull : s.kvArr.length ≤ cap := hs.full
  obtain ⟨v, srest, hscons⟩ : ∃ v srest, s.kvArr = (k, v) :: srest := hs.cons
  generalize hr : n.kvArr.eraseIdx iRemove = rest at hrest
  have hrne : rest ≠ [] := by
    intro hnil
    simp only [hnil, List.length_nil] at hrest
    omega
  obtain ⟨y, rest', rfl⟩ := List.exists_cons_of_ne_nil hrne
  simp only [removeNode, hn, hr, if_pos hle, if_neg hlast, hsib]
  simp only [List.length_cons] at hrest
  by_cases hlend : u / 2 < s.kvArr.length
  · obtain ⟨z, srest', rfl⟩ : ∃ z srest', srest = z :: srest' := by
      cases srest with
      | nil => simp [hscons] at htwo'
      | cons z srest' => exact ⟨z, srest', rfl⟩
    have hlen : srest'.length + 2 = s.kvArr.length := by simp [hscons]
    simp only [if_pos hlend]
    have hset : ((p.setChild A.length { n with kvArr := y :: rest' ++ s.kvArr.take 1 }).setChild
        (A.length + 1) { s with kvArr := s.kvArr.tail }).kvArr =
        A ++ (y.1, { n with kvArr := y :: rest' ++ [(k, v)] }) ::
          (z.1, { s with kvArr := z :: srest' }) :: B := by
      simp [BtrNode.setChild, BtrNode.firstKey, BtrNode.keys, hp, hscons]
    refine ⟨_, _, _, rfl, ?_, rfl, fun _ => ⟨?_, fun e he => ?_⟩, by rintro _ ⟨⟩⟩
    · simp [BtrNode.setChild]
    · rw [hset]
      simp [hscons]
    · rw [hset, List.mem_append, List.mem_cons, List.mem_cons] at he
      rcases he with he | rfl | rfl | he
      · exact hA e he
      · refine .of_cons rfl ?_ ?_ hmax
        · simp only [List.length_append, List.length_cons]
          omega
        · simp only [List.length_append, List.length_cons, List.length_nil]
          omega
      · refine .of_cons rfl ?_ ?_ hs.cap
        · simp only [List.length_cons]
          omega
        · simp only [List.length_cons]
          omega
      · exact hB e he
  · simp only [if_neg hlend]
    have hset : (p.setChild A.length { n with kvArr := y :: rest' ++ s.kvArr }).kvArr.eraseIdx
        (A.length + 1) = A ++ (y.1, { n with kvArr := y :: rest' ++ s.kvArr }) :: B := by
      simp [BtrNode.setChild, BtrNode.firstKey, BtrNode.keys, hp, List.eraseIdx_append_of_length_le]
    refine ⟨_, _, _, rfl, by simp [BtrNode.setChild], rfl, by rintro ⟨⟩, fun i hi => ?_⟩
    obtain rfl : A.length + 1 = i := by simpa using hi
    rw [hset]
    refine ⟨by simp [hp], by simp, fun e he => ?_, fun h2 e he => ?_⟩
    · rw [List.mem_append, List.mem_cons] at he
      rcases he with he | rfl | he
      · exact hA e he
      · refine .of_cons rfl ?_ ?_ hmax
        · simp only [List.length_append, List.length_cons]
          omega
        · simp only [List.length_append, List.length_cons]
          omega
      · exact hB e he
    · have hnil : A = [] ∧ B = [] := by
        rw [hp] at h2
        simp only [List.length_append, List.length_cons] at h2
        exact ⟨List.eq_nil_of_length_eq_zero (by omega), List.eq_nil_of_length_eq_zero (by omega)⟩
      rw [hnil.1, hnil.2, List.nil_append, List.mem_singleton] at he
      rw [he]
      simp only [List.length_append, List.length_cons]
      omega

/-- `__tpsFsBtreeRemoveNode` takes an entry out of a child. -/
theorem removeNode_spec (hp : p.kvArr = A ++ (j, n) :: B) {iRemove : ℕ}
    (hA : ∀ e ∈ A, ChildOk cap e) (hB : ∀ e ∈ B, ChildOk cap e) (hne : 2 ≤ p.kvArr.length)
    (hmax : n.uiMaxCnt = cap) (htwo : 2 ≤ n.kvArr.length) (hfull : n.kvArr.length ≤ cap)
    (hrem : iRemove < n.kvArr.length) (hu4 : 4 ≤ u) (hu : u ≤ cap) : ∃ p' pend freed,
      removeNode u p A.length iRemove = .ok (p', pend, freed) ∧
      Shrunk cap u p p' (join A) (n.kvArr.eraseIdx iRemove) (join B) pend := by
  by_cases hle : n.kvArr.length ≤ u / 2
  · cases B with
    | nil =>
      have hAne : A ≠ [] := by
        intro hnil
        simp [hp, hnil] at hne
      obtain ⟨A', ⟨k, s⟩, rfl⟩ := (List.eq_nil_or_concat A).resolve_left hAne
      rw [List.concat_eq_append] at hp hA ⊢
      rw [List.append_assoc, List.singleton_append] at hp
      have hlen : (A' ++ [(k, s)]).length = A'.length + 1 := by simp
      rw [hlen]
      exact removeNode_left hp (fun e he => hA e (List.mem_append_left _ he)) (hA _ (by simp)) hmax
        htwo hrem hu hle
    | cons e B =>
      obtain ⟨k, s⟩ := e
      exact removeNode_right hp hA (hB _ (.head _)) (fun e he => hB e (.tail _ he)) hmax htwo hrem
        hu hle
  · have hn : p.kvArr[A.length]? = some (j, n) := by simp [hp]
    have hrest : (n.kvArr.eraseIdx iRemove).length = n.kvArr.length - 1 :=
      List.length_eraseIdx_of_lt hrem
    simp only [removeNode, hn, if_neg hle]
    generalize n.kvArr.eraseIdx iRemove = rest at hrest
    obtain ⟨y, rest', rfl⟩ : ∃ y rest', rest = y :: rest' := by
      cases rest with
      | nil =>
        simp only [List.length_nil] at hrest
        omega
      | cons y rest' => exact ⟨y, rest', rfl⟩
    simp only [List.length_cons] at hrest
    have hset : (p.setChild A.length { n with kvArr := y :: rest' }).kvArr =
        A ++ (y.1, { n with kvArr := y :: rest' }) :: B := by
      simp [BtrNode.setChild, BtrNode.firstKey, BtrNode.keys, hp]
    refine ⟨_, _, _, rfl, ?_, rfl, fun _ => ⟨?_, fun e he => ?_⟩, by rintro _ ⟨⟩⟩
    · simp [BtrNode.setChild]
    · rw [hset]
      simp
    · rw [hset, List.mem_append, List.mem_cons] at he
      rcases he with he | rfl | he
      · exact hA e he
      · refine .of_cons rfl ?_ ?_ hmax
        · simp only [List.length_cons]
          omega
        · simp only [List.length_cons]
          omega
      · exact hB e he

end Node

/-! ## All levels -/

variable {psb : SuperBlock} {level k i : ℕ} {x : ℕ × KvValue}

/-- What a removal has done to a subtree, which may have to lose one more entry. -/
structure RemovedAt (psb : SuperBlock) (level : ℕ) (x : ℕ × KvValue) (n n' : BtrNode (Data level))
    (pend : Option ℕ) : Prop where
  len : n'.kvArr.length = n.kvArr.length
  max : n'.uiMaxCnt = n.uiMaxCnt
  done : pend = none → Removed x (items level n.kvArr) (items level n'.kvArr) ∧
    Synced psb level n'.kvArr
  pend : ∀ j, pend = some j → j < n.kvArr.length ∧
    Removed x (items level n.kvArr) (items level (n'.kvArr.eraseIdx j)) ∧
    Synced psb level (n'.kvArr.eraseIdx j)

theorem ne_nil_of_mem_items {es : List (ℕ × Data level)} (hx : x ∈ items level es) : es ≠ [] := by
  intro hnil
  rw [hnil, items_nil] at hx
  cases hx

theorem removeCap_bounds (isRoot : Bool) (p : BtrNode (Data (level + 1))) {n : BtrNode (Data level)}
    (h : n.uiMaxCnt = blkCap psb level) :
    4 ≤ removeCap psb isRoot level p n ∧ removeCap psb isRoot level p n ≤ blkCap psb level := by
  unfold removeCap
  have hge := rootCap_ge psb level
  have hle := rootCap_le psb level
  split_ifs
  · exact ⟨hge, hle⟩
  · rw [h]
    exact ⟨hge.trans hle, le_rfl⟩

/-- What a removal from a child does to the node. A child left alone in the root fits into it. -/
theorem removeAt_child (isRoot : Bool) {n : BtrNode (Data (level + 1))} {c c' : BtrNode (Data level)}
    {A B : List (ℕ × BtrNode (Data level))} {pend : Option ℕ} {freed : List ℕ}
    (h : Synced psb (level + 1) n.kvArr) (htwo : 2 ≤ n.kvArr.length)
    (hd : Descent level n.kvArr x.1 (btrSearch n x.1 false).1 A c B)
    (hrec : removeAt psb false level c x.1 = .ok (c', pend, freed))
    (hrem : RemovedAt psb level x c c' pend) : ∃ n' pend' freed',
      removeAt psb isRoot (level + 1) n x.1 = .ok (n', pend', freed') ∧
      RemovedAt psb (level + 1) x n n' pend' ∧
      (isRoot = true → n.kvArr.length = 2 → ∀ j, pend' = some j → ∀ e ∈ n'.kvArr.eraseIdx j,
        e.2.kvArr.length ≤ rootCap psb level) := by
  have hget : n.kvArr[(btrSearch n x.1 false).1]? = some (c.firstKey, c) := by
    rw [hd.split, hd.index]
    simp
  have hkv := BtrNode.setChild_kvArr (n := c') hd.split
  rw [← hd.index] at hkv
  rw [hd.split, synced_child] at h
  obtain ⟨hA, ⟨hc, -⟩, hB⟩ := h
  have hmax : c'.uiMaxCnt = blkCap psb level := hrem.max.trans hc.cap
  cases pend with
  | none =>
    obtain ⟨hrm, hsync⟩ := hrem.done rfl
    refine ⟨n.setChild (btrSearch n x.1 false).1 c', none, freed, ?_,
      ⟨by simp [BtrNode.setChild], rfl, fun _ => ⟨?_, ?_⟩, nofun⟩, nofun⟩
    · simp only [removeAt, hget, hrec]
      rfl
    · rw [hkv, items_child, hd.items_eq]
      exact hrm.frame
    · rw [hkv, synced_child]
      exact ⟨hA, ⟨⟨hrem.len ▸ hc.two, hrem.len ▸ hc.full, hmax, rfl⟩, hsync⟩, hB⟩
  | some j =>
    obtain ⟨hj, hrm, hsync⟩ := hrem.pend j rfl
    generalize hp : n.setChild (btrSearch n x.1 false).1 c' = p at hkv
    have hlen : p.kvArr.length = n.kvArr.length := by simp [← hp, BtrNode.setChild]
    obtain ⟨hu4, hu⟩ := removeCap_bounds isRoot p hmax
    obtain ⟨p', pend', freed', hnode, hshr⟩ := removeNode_spec hkv hA.1 hB.1 (hlen ▸ htwo) hmax
      (hrem.len ▸ hc.two) (hrem.len ▸ hc.full) (hrem.len ▸ hj) hu4 hu
    rw [← hd.index] at hnode
    have hitems : items level (join A ++ c'.kvArr.eraseIdx j ++ join B) =
        items level (join A) ++ items level (c'.kvArr.eraseIdx j) ++ items level (join B) := by
      rw [items_append, items_append]
    have hfr := hrm.frame (A := items level (join A)) (B := items level (join B))
    rw [← hitems, ← hd.items_eq] at hfr
    have hsj : Synced psb level (join A ++ c'.kvArr.eraseIdx j ++ join B) := by
      rw [synced_append, synced_append]
      exact ⟨⟨hA.2, hsync⟩, hB.2⟩
    refine ⟨p', pend', freed ++ freed', ?_, ⟨hshr.len.trans hlen, ?_, fun hnone => ?_,
      fun j' hj' => ?_⟩, fun hroot h2 j' hj' => ?_⟩
    · simp only [removeAt, hget, hrec, bind, Except.bind, hp, hnode]
    · rw [hshr.max, ← hp]
      rfl
    · obtain ⟨hjoin, hok⟩ := hshr.done hnone
      rw [← hjoin] at hfr hsj
      exact ⟨hfr, hok, hsj⟩
    · obtain ⟨hlt, hjoin, hok, -⟩ := hshr.pend j' hj'
      rw [← hjoin] at hfr hsj
      exact ⟨hlen ▸ hlt, hfr, hok, hsj⟩
    · obtain ⟨-, -, -, hfit⟩ := hshr.pend j' hj'
      have hcap : removeCap psb isRoot level p c' = rootCap psb level := if_pos ⟨hroot, hlen.trans h2⟩
      exact hcap ▸ hfit (hlen.trans h2)

theorem removeAt_spec (isRoot : Bool) {n : BtrNode (Data level)} (h : Synced psb level n.kvArr)
    (hs : Sorted (items level n.kvArr)) (hx : x ∈ items level n.kvArr)
    (htwo : 0 < level → 2 ≤ n.kvArr.length) : ∃ n' pend freed,
      removeAt psb isRoot level n x.1 = .ok (n', pend, freed) ∧ RemovedAt psb level x n n' pend := by
  induction level generalizing isRoot with
  | zero =>
    obtain ⟨A, B, hsplit, hi, hb⟩ := btrSearch_mem hs hx
    refine ⟨n, some A.length, [], by simp [removeAt, hi, hb], rfl, rfl, nofun, fun j hj => ?_⟩
    obtain rfl : A.length = j := by simpa using hj
    refine ⟨by simp [hsplit], ⟨A, B, hsplit, ?_⟩, trivial⟩
    simp [items, hsplit, List.eraseIdx_append_of_length_le]
  | succ level ih =>
    obtain ⟨A, c, B, hd⟩ := h.descend hs (ne_nil_of_mem_items hx) x.1
    obtain ⟨-, hc, hcs, hcsort, -⟩ := hd.child h hs
    obtain ⟨c', pend, freed, hrec, hrem⟩ := ih false hcs hcsort (hd.mem_child hx)
      fun _ => hc.two
    obtain ⟨n', pend', freed', hrun, hrem', -⟩ :=
      removeAt_child isRoot h (htwo (Nat.succ_pos _)) hd hrec hrem
    exact ⟨n', pend', freed', hrun, hrem'⟩

/-! ## The whole tree -/

variable {t : Btree} {A B : List (ℕ × KvValue)}

/-- The root without one of its children, or the child that takes its place. -/
theorem removeRoot_ok {n : BtrNode (Data (level + 1))} {j : ℕ} {L : List (ℕ × KvValue)}
    (hsync : Synced psb (level + 1) (n.kvArr.eraseIdx j)) (hs : Sorted L)
    (hL : items (level + 1) (n.kvArr.eraseIdx j) = L) (hj : j < n.kvArr.length)
    (htwo : 2 ≤ n.kvArr.length) (hfull : n.kvArr.length ≤ n.uiMaxCnt)
    (hcap : n.uiMaxCnt = rootCap psb (level + 1))
    (hfit : n.kvArr.length = 2 → ∀ e ∈ n.kvArr.eraseIdx j, e.2.kvArr.length ≤ rootCap psb level) :
    ((removeRoot psb ⟨level + 1, n⟩ j).1).Ok psb ∧ (removeRoot psb ⟨level + 1, n⟩ j).1.items = L := by
  have hlen : (n.kvArr.eraseIdx j).length = n.kvArr.length - 1 := List.length_eraseIdx_of_lt hj
  generalize hes : n.kvArr.eraseIdx j = es at *
  match es with
  | [] =>
    simp only [List.length_nil] at hlen
    omega
  | [(k, c)] =>
    simp only [List.length_singleton] at hlen
    have hitems : items level c.kvArr = L := by
      rw [← hL]
      change _ = items level (join [(k, c)])
      simp
    have hok : ChildOk (blkCap psb level) (k, c) := hsync.1 _ (.head _)
    have hcs : Synced psb level c.kvArr := by simpa using hsync.2
    have hle : c.kvArr.length ≤ rootCap psb level := hfit (by omega) _ (.head _)
    have hroot : removeRoot psb ⟨level + 1, n⟩ j =
        (⟨level, { c with blkThis := n.blkThis, uiMaxCnt := rootCap psb level }⟩, [c.blkThis]) := by
      simp only [removeRoot, hes]
    rw [hroot]
    exact ⟨⟨hcs, (congrArg Sorted hitems).mpr hs, fun _ => hok.two, hle, rfl⟩, hitems⟩
  | e :: e' :: es =>
    have hroot : removeRoot psb ⟨level + 1, n⟩ j =
        (⟨level + 1, { n with kvArr := e :: e' :: es }⟩, []) := by
      simp only [removeRoot, hes]
    rw [hroot]
    refine ⟨⟨hsync, (congrArg Sorted hL).mpr hs, fun _ => by simp, ?_, hcap⟩, hL⟩
    change (e :: e' :: es).length ≤ _
    rw [hlen]
    exact (Nat.sub_le _ _).trans hfull

/-- `__tpsFsBtreeRemove` takes the entry with the key out. -/
theorem btreeRemove_spec (h : t.Ok psb) (heq : t.items = A ++ x :: B) :
    ∃ t' freed, btreeRemove psb t x.1 = .ok (t', freed) ∧ t'.Ok psb ∧ t'.items = A ++ B := by
  have hsort : Sorted (A ++ x :: B) := heq ▸ h.sorted
  have hx : x ∈ t.items := by simp [heq]
  obtain ⟨level, root⟩ := t
  have hrm {L : List (ℕ × KvValue)} (hrem : Removed x (items level root.kvArr) L) : L = A ++ B := by
    change items level root.kvArr = _ at heq
    rw [heq] at hrem
    exact hrem.eq hsort
  have hgone : Removed x (A ++ x :: B) (A ++ B) := ⟨A, B, rfl, rfl⟩
  have hsort' : Sorted (A ++ B) := hgone.sorted hsort
  have hdone {n' : BtrNode (Data level)} (hrem : RemovedAt psb level x root n' none) :
      (Btree.mk level n').Ok psb ∧ (Btree.mk level n').items = A ++ B := by
    obtain ⟨hr, hsync⟩ := hrem.done rfl
    have hitems : items level n'.kvArr = A ++ B := hrm hr
    refine ⟨⟨hsync, (congrArg Sorted hitems).mpr hsort', fun hpos => ?_, ?_, ?_⟩, hitems⟩
    · exact hrem.len ▸ h.two hpos
    · exact hrem.len ▸ hrem.max ▸ h.full
    · exact hrem.max ▸ h.cap
  cases level with
  | zero =>
    obtain ⟨n', pend, freed, hrun, hrem⟩ := removeAt_spec true h.synced h.sorted hx h.two
    cases pend with
    | none =>
      refine ⟨⟨0, n'⟩, freed, ?_, hdone hrem⟩
      simp only [btreeRemove, hrun]
    | some j =>
      obtain ⟨hj, hr, -⟩ := hrem.pend j rfl
      refine ⟨⟨0, { n' with kvArr := n'.kvArr.eraseIdx j }⟩, freed ++ [], ?_, ⟨trivial, ?_, nofun, ?_,
        hrem.max.trans h.cap⟩, hrm hr⟩
      · simp only [btreeRemove, hrun]
        rfl
      · exact (congrArg Sorted (hrm hr)).mpr hsort'
      · have hfull := h.full
        have hlen := List.length_eraseIdx_le n'.kvArr j
        exact hlen.trans (hrem.len ▸ hrem.max ▸ hfull)
  | succ level =>
    have htwo : 2 ≤ root.kvArr.length := h.two (Nat.succ_pos _)
    obtain ⟨A', c, B', hd⟩ := h.synced.descend h.sorted (ne_nil_of_mem_items hx) x.1
    obtain ⟨-, hc, hcs, hcsort, -⟩ := hd.child h.synced h.sorted
    obtain ⟨c', pend', freed', hrec, hremc⟩ := removeAt_spec false hcs hcsort
      (hd.mem_child hx) fun _ => hc.two
    obtain ⟨n', pend, freed, hrun, hrem, hfit⟩ :=
      removeAt_child true h.synced htwo hd hrec hremc
    cases pend with
    | none =>
      refine ⟨⟨level + 1, n'⟩, freed, ?_, hdone hrem⟩
      simp only [btreeRemove, hrun]
    | some j =>
      obtain ⟨hj, hr, hsync⟩ := hrem.pend j rfl
      have hfull : root.kvArr.length ≤ root.uiMaxCnt := h.full
      refine ⟨(removeRoot psb ⟨level + 1, n'⟩ j).1,
        freed ++ (removeRoot psb ⟨level + 1, n'⟩ j).2, ?_, ?_⟩
      · simp only [btreeRemove, hrun]
      · exact removeRoot_ok hsync hsort' (hrm hr) (hrem.len ▸ hj) (hrem.len ▸ htwo)
          (hrem.len ▸ hrem.max ▸ hfull) (hrem.max.trans h.cap) fun h2 => hfit rfl (hrem.len ▸ h2) j rfl

end SylixOS.TpsFs
