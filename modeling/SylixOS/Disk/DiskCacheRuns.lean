import SylixOS.Disk.DiskCacheSafe

/-! # The disk cache in use

A node is found for every sector that is asked for: when all of them are dirty some are flushed, and
what is flushed is clean. So every call ends, and leaves the cache in order.
-/

namespace SylixOS.Disk.DiskCache

variable {α : Type*} {g : CacheConf} {e : CacheEnv α} {s s' s₁ : DiskCache α} {i j : ℕ}

/-! ## Finding a node -/

theorem flushVisit_flush {l : List ℕ} (bFlush bInv : Bool) (hj : j ∈ l) :
    j ∈ (s.flushVisit g bFlush bInv i l).1.2 := by
  unfold flushVisit
  split_ifs
  · exact sortListAdd_perm.mem_iff.mpr (.tail _ hj)
  · exact hj
  · exact hj
  · exact hj

theorem flushVisit_dirty {l : List ℕ} (bInv : Bool) (hd : s.dirtyAt i = true) :
    s.flushVisit g true bInv i l = (s.takeNode i l, true) := by
  rw [dirtyAt] at hd
  rw [flushVisit, if_pos hd, if_pos rfl]

theorem flushVisit_endStector {l : List ℕ} (bFlush bInv : Bool) :
    (s.flushVisit g bFlush bInv i l).1.1.ulEndStector = s.ulEndStector := by
  unfold flushVisit
  split_ifs <;> rfl

theorem cntLoop_flush {is flush : List ℕ} {n : ℕ} (bFlush bInv : Bool) (hj : j ∈ flush) :
    j ∈ (cntLoop g bFlush bInv is n (s, flush)).2 := by
  induction is generalizing s flush n with
  | nil => simpa [cntLoop] using hj
  | cons i is ih =>
    cases n with
    | zero => simpa [cntLoop] using hj
    | succ n =>
      rw [cntLoop]
      exact ih (flushVisit_flush bFlush bInv hj)

theorem cntLoop_endStector {is flush : List ℕ} {n : ℕ} (bFlush bInv : Bool) :
    (cntLoop g bFlush bInv is n (s, flush)).1.ulEndStector = s.ulEndStector := by
  induction is generalizing s flush n with
  | nil => simp [cntLoop]
  | cons i is ih =>
    cases n with
    | zero => simp [cntLoop]
    | succ n =>
      rw [cntLoop]
      exact ih.trans (flushVisit_endStector bFlush bInv)

theorem CacheOk.flushInvCnt_endStector (h : CacheOk g e s []) (n : ℤ) (bFlush bInv : Bool) :
    (s.flushInvCnt g e n bFlush bInv).1.ulEndStector = s.ulEndStector := by
  obtain ⟨hnodup, hmem⟩ := h.lru_reverse
  unfold DiskCache.flushInvCnt
  split_ifs
  · rfl
  · exact ((h.cntLoop hnodup hmem bFlush bInv).flushEnd bInv).endStector.trans
      (cntLoop_endStector bFlush bInv)

theorem CacheOk.mem_lru (h : CacheOk g e s []) : i ∈ s.lru ↔ i < g.ulNCacheNode := by
  have hiff := h.perm.mem_iff (a := i)
  rwa [List.append_nil, List.mem_range] at hiff

theorem CacheOk.lru_ne (h : CacheOk g e s []) : s.lru ≠ [] :=
  List.ne_nil_of_mem (h.mem_lru.mpr g.node_pos)

/-- A flush leaves a node clean, if all of them were dirty. -/
theorem CacheOk.flushInvCnt_clean (h : CacheOk g e s []) (hall : ∀ i ∈ s.lru, s.dirtyAt i = true) :
    ∃ i, i < g.ulNCacheNode ∧
      (s.flushInvCnt g e g.iMaxWBurstSector true false).1.dirtyAt i = false := by
  obtain ⟨hnodup, hmem⟩ := h.lru_reverse
  obtain ⟨i, is, his⟩ := List.exists_cons_of_ne_nil (mt List.reverse_eq_nil_iff.mp h.lru_ne)
  have hi : i ∈ s.lru := hmem i (by rw [his]; exact .head _)
  have hburst := g.wburst_pos
  have hcount : s.ulDirtyCounter = s.lru.length := by
    rw [h.dirty, List.append_nil]
    exact List.countP_eq_length.mpr hall
  have hlen := List.length_pos_of_mem hi
  have hflushed := (h.cntLoop (n := min (g.iMaxWBurstSector : ℤ).toNat s.ulDirtyCounter) hnodup hmem
    true false).flushEnd false
  have hin : i ∈ (DiskCache.cntLoop g true false s.lru.reverse
      (min (g.iMaxWBurstSector : ℤ).toNat s.ulDirtyCounter) (s, [])).2 := by
    obtain ⟨m, hm⟩ : ∃ m, min (g.iMaxWBurstSector : ℤ).toNat s.ulDirtyCounter = m + 1 :=
      Nat.exists_eq_succ_of_ne_zero (by omega)
    have hvisit : i ∈ (s.flushVisit g true false i []).1.2 := by
      rw [flushVisit_dirty false (hall i hi)]
      exact sortListAdd_perm.mem_iff.mpr (.head _)
    rw [hm, his, DiskCache.cntLoop]
    exact cntLoop_flush true false hvisit
  refine ⟨i, h.mem_lru.mp hi, ?_⟩
  rw [DiskCache.flushInvCnt, if_neg (by omega)]
  exact hflushed.clean i hin

/-- A clean node has been found. -/
structure Found (g : CacheConf) (e : CacheEnv α) (s s' : DiskCache α) (i : ℕ) : Prop where
  ok : CacheOk g e s' []
  lt : i < g.ulNCacheNode
  clean : s'.dirtyAt i = false
  endStector : s'.ulEndStector = s.ulEndStector

theorem Found.of_endStector (h : Found g e s₁ s' i) (hend : s₁.ulEndStector = s.ulEndStector) :
    Found g e s s' i := ⟨h.ok, h.lt, h.clean, h.endStector.trans hend⟩

/-- A search that finds a clean node in the ring takes it. -/
theorem nodeSearch_of_clean (h : CacheOk g e s []) (n : ℕ)
    (hclean : ∃ i < g.ulNCacheNode, s.dirtyAt i = false) :
    ∃ i, nodeSearch g e n s = some (s, i) ∧ Found g e s s i := by
  obtain ⟨j, hj, hdj⟩ := hclean
  cases hfind : s.lru.reverse.find? fun i => !(s.nodes i).bDirty with
  | none =>
    have hdirty := List.find?_eq_none.mp hfind j (List.mem_reverse.mpr (h.mem_lru.mpr hj))
    rw [dirtyAt] at hdj
    rw [hdj] at hdirty
    exact absurd rfl hdirty
  | some i =>
    have hi : i ∈ s.lru := List.mem_reverse.mp (List.mem_of_find?_eq_some hfind)
    have hd := List.find?_some hfind
    rw [Bool.not_eq_true'] at hd
    refine ⟨i, ?_, h, h.mem_lru.mp hi, hd, rfl⟩
    unfold nodeSearch
    rw [hfind]

/-- After one flush there is a clean node. -/
theorem nodeSearch_found (h : CacheOk g e s []) (n : ℕ) :
    ∃ s' i, nodeSearch g e (n + 1) s = some (s', i) ∧ Found g e s s' i := by
  by_cases hclean : ∃ i < g.ulNCacheNode, s.dirtyAt i = false
  · obtain ⟨i, hs, hfound⟩ := nodeSearch_of_clean h (n + 1) hclean
    exact ⟨s, i, hs, hfound⟩
  · have hall : ∀ i ∈ s.lru, s.dirtyAt i = true := fun i hi => by
      by_contra hd
      exact hclean ⟨i, h.mem_lru.mp hi, Bool.not_eq_true _ ▸ hd⟩
    have hfind : (s.lru.reverse.find? fun i => !(s.nodes i).bDirty) = none := by
      refine List.find?_eq_none.mpr fun i hi => ?_
      have hd := hall i (List.mem_reverse.mp hi)
      rw [dirtyAt] at hd
      rw [hd]
      exact Bool.false_ne_true
    have hflush := h.flushInvCnt (e := e) g.iMaxWBurstSector true false
    obtain ⟨i, hs, hfound⟩ := nodeSearch_of_clean hflush n (h.flushInvCnt_clean hall)
    refine ⟨_, i, ?_, hfound.of_endStector (h.flushInvCnt_endStector _ true false)⟩
    unfold nodeSearch
    rw [hfind]
    exact hs

theorem nodeChoose_found (h : CacheOk g e s []) :
    ∃ s' i, s.nodeChoose g e = some (s', i) ∧ Found g e s s' i := by
  obtain ⟨n, hn⟩ := Nat.exists_eq_add_of_le' g.node_pos
  unfold nodeChoose
  split_ifs with hcount
  · obtain ⟨i, is, his⟩ := List.exists_cons_of_ne_nil h.lru_ne
    rw [his, List.head?_cons]
    dsimp only
    split_ifs with hd
    · have hflush := h.flushInvCnt (e := e) g.iMaxWBurstSector true false
      obtain ⟨s', i, hs, hfound⟩ := nodeSearch_found hflush n
      rw [hn]
      exact ⟨s', i, hs, hfound.of_endStector (h.flushInvCnt_endStector _ true false)⟩
    · have hi : i ∈ s.lru := by
        rw [his]
        exact .head _
      exact ⟨s, i, rfl, h, h.mem_lru.mp hi, Bool.not_eq_true _ ▸ hd, rfl⟩
  · rw [hn]
    exact nodeSearch_found h n

/-! ## Nodes -/

/-- A node may change, as long as it stays as dirty as it is. -/
theorem CacheOk.setNode {l : List ℕ} {diskn : CacheNode α} (h : CacheOk g e s l)
    (hd : diskn.bDirty = s.dirtyAt i)
    (hs : s.dirtyAt i = true → diskn.ulSectorNo = (s.nodes i).ulSectorNo) :
    CacheOk g e (s.setNode i diskn) l := by
  refine h.of_dirty (.refl _) rfl ?_ h.hash (fun j hj => ?_) rfl (.of_eq rfl rfl rfl rfl)
  · funext j
    by_cases hj : j = i
    · rw [hj, ← hd]
      simp [dirtyAt, DiskCache.setNode]
    · simp [dirtyAt, DiskCache.setNode, hj]
  · by_cases hji : j = i
    · rw [hji] at hj ⊢
      rw [← hs hj]
      simp [DiskCache.setNode]
    · simp [DiskCache.setNode, hji]

theorem CacheOk.hashAdd {l : List ℕ} (h : CacheOk g e s l) (hi : i < g.ulNCacheNode) :
    CacheOk g e (s.hashAdd g i) l := by
  refine h.of_dirty (.refl _) rfl rfl (fun k j hj => ?_) (fun _ _ => rfl) rfl
    (.of_eq rfl rfl rfl rfl)
  simp only [DiskCache.hashAdd, Function.update_apply] at hj
  split_ifs at hj with hk
  · rcases List.mem_cons.mp hj with rfl | hj
    · exact hi
    · exact h.hash _ j hj
  · exact h.hash k j hj

/-- The clean node is one of the sector afterwards, and still clean. -/
theorem Found.nodeTake (h : Found g e s s' i) (sector : ℕ) :
    Found g e s (s'.nodeTake g i sector) i ∧
      ((s'.nodeTake g i sector).nodes i).ulSectorNo = sector := by
  have hfree : Found g e s (if (s'.nodes i).bValid then s'.hashRemove g i else s') i := by
    split_ifs
    · refine ⟨h.ok.hashRemove h.clean, h.lt, ?_, h.endStector⟩
      simp [dirtyAt, hashRemove, setNode]
    · exact h
  rw [DiskCache.nodeTake]
  generalize (if (s'.nodes i).bValid then s'.hashRemove g i else s') = s₁ at hfree ⊢
  have hnot (hd : s₁.dirtyAt i = true) : False := by
    rw [hfree.clean] at hd
    exact Bool.false_ne_true hd
  have hset : CacheOk g e
      (s₁.setNode i { s₁.nodes i with ulSectorNo := sector, bValid := true }) [] :=
    hfree.ok.setNode rfl fun hd => (hnot hd).elim
  refine ⟨⟨hset.hashAdd hfree.lt, hfree.lt, ?_, hfree.endStector⟩, ?_⟩
  · have hclean := hfree.clean
    rw [dirtyAt] at hclean
    simp [dirtyAt, hashAdd, setNode, hclean]
  · simp [hashAdd, setNode]

/-- There is always a node for a sector. -/
theorem nodeAlloc_found (h : CacheOk g e s []) (sector : ℕ) :
    ∃ s' i, s.nodeAlloc g e sector = some (s', i) ∧ Found g e s s' i ∧
      (s'.nodes i).ulSectorNo = sector := by
  obtain ⟨s₁, i, hs, hfound⟩ := nodeChoose_found h
  refine ⟨s₁.nodeTake g i sector, i, ?_, hfound.nodeTake sector⟩
  rw [nodeAlloc, hs]
  rfl

theorem CacheOk.setData {l : List ℕ} (h : CacheOk g e s l) (pcData : α) :
    CacheOk g e (s.setData i pcData) l :=
  h.setNode rfl fun _ => rfl

/-- A node that is marked as dirty is counted. -/
theorem CacheOk.setDirty (h : CacheOk g e s []) (hi : i < g.ulNCacheNode)
    (hs : (s.nodes i).ulSectorNo < g.ulMod) : CacheOk g e (s.setDirty i) [] := by
  unfold DiskCache.setDirty
  split_ifs with hd
  · exact h
  have hclean : s.dirtyAt i = false := Bool.not_eq_true _ ▸ hd
  have hperm := List.perm_cons_erase (h.mem_lru.mpr hi)
  have hnodup := h.nodup
  rw [List.append_nil] at hnodup
  have hcount := h.dirty
  rw [List.append_nil, hperm.countP_eq, List.countP_cons, hclean] at hcount
  refine ⟨h.perm, ?_, by simp, h.hash, fun j hj => ?_, h.endStector, ?_⟩
  · change s.ulDirtyCounter + 1 = (s.lru ++ []).countP _
    rw [List.append_nil, hperm.countP_eq, List.countP_cons,
      if_pos (by simp [dirtyAt, DiskCache.setNode]), countP_dirty_congr (s := s) fun j hj => ?_]
    · simpa using hcount
    · have hji : j ≠ i := fun heq => hnodup.not_mem_erase (heq ▸ hj)
      simp [dirtyAt, DiskCache.setNode, hji]
  · change ((s.setNode i _).nodes j).ulSectorNo < g.ulMod
    by_cases hji : j = i
    · rw [hji]
      simpa [DiskCache.setNode] using hs
    · have hj' : s.dirtyAt j = true := by
        simpa [dirtyAt, DiskCache.setNode, hji] using hj
      simpa [DiskCache.setNode, hji] using h.sector j hj'
  · exact ⟨h.writes.direct, h.writes.msgs, h.writes.data, h.writes.written, h.writes.refused⟩

theorem setDirty_sector (s : DiskCache α) (i j : ℕ) :
    ((s.setDirty i).nodes j).ulSectorNo = (s.nodes j).ulSectorNo := by
  unfold setDirty
  split_ifs
  · rfl
  · by_cases hj : j = i
    · rw [hj]
      simp [setNode]
    · simp [setNode, hj]

end SylixOS.Disk.DiskCache
