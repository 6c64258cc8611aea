import SylixOS.Disk.DiskCacheCalls

/-! # Syncing the disk cache

`FIOSYNC` flushes all dirty nodes in bursts and waits for the queue. A burst that the device refuses is
clean afterwards all the same, and the call reports success whatever has become of its writes.
-/

namespace SylixOS.Disk

open Lib

/-- The write has the data for the sector. -/
def CacheWrite.Holds {α : Type*} (w : CacheWrite α) (ulSectorNo : ℕ) (pcData : α) : Prop :=
  ∃ k, w.ulStartSector + k = ulSectorNo ∧ w.data[k]? = some pcData

namespace DiskCache

variable {α : Type*} {g : CacheConf} {e : CacheEnv α} {s s' : DiskCache α} {i : ℕ} {l : List ℕ}

/-! ## The bursts of a sync -/

/-- The dirty nodes by their sectors, in the list that a sync flushes. -/
def syncList (s : DiskCache α) : List ℕ :=
  (s.lru.reverse.filter s.dirtyAt).foldl (fun l i => s.sortListAdd i l) []

/-- The bursts that a sync writes. -/
def syncBursts (g : CacheConf) (s : DiskCache α) : List (List ℕ) :=
  bursts g s.nodes s.syncList.length s.syncList

theorem foldl_sortListAdd_perm (is l : List ℕ) :
    (is.foldl (fun l i => s.sortListAdd i l) l).Perm (is ++ l) := by
  induction is generalizing l with
  | nil => exact .refl _
  | cons i is ih =>
    rw [List.foldl_cons]
    exact ((ih _).trans (sortListAdd_perm.append_left is)).trans List.perm_middle

theorem mem_syncList (s : DiskCache α) : i ∈ s.syncList ↔ i ∈ s.lru ∧ s.dirtyAt i = true := by
  rw [syncList, (foldl_sortListAdd_perm _ _).mem_iff, List.append_nil, List.mem_filter,
    List.mem_reverse]

theorem sortListAdd_congr (h : s'.nodes = s.nodes) (i : ℕ) (l : List ℕ) :
    s'.sortListAdd i l = s.sortListAdd i l := by
  induction l with
  | nil => rfl
  | cons j l ih => rw [sortListAdd, sortListAdd, h, ih]

/-- The nodes that are not dirty are passed. -/
theorem rangeLoop_sync (is flush lru : List ℕ)
    (hs : ∀ i, s.dirtyAt i = true → (s.nodes i).ulSectorNo < g.ulMod) :
    ∃ lru', rangeLoop g 0 g.pxError true false is ({ s with lru }, flush) =
      ({ s with lru := lru' },
        (is.filter s.dirtyAt).foldl (fun l i => s.sortListAdd i l) flush) := by
  induction is generalizing flush lru with
  | nil => exact ⟨lru, rfl⟩
  | cons i is ih =>
    rw [rangeLoop]
    cases hd : s.dirtyAt i with
    | true =>
      have hlt := hs i hd
      have hin : ¬(g.pxError < (s.nodes i).ulSectorNo ∨ (s.nodes i).ulSectorNo < 0) := by
        rw [CacheConf.pxError]
        omega
      have hd' : ({ s with lru } : DiskCache α).dirtyAt i = true := hd
      have hsort : ({ s with lru } : DiskCache α).sortListAdd i flush = s.sortListAdd i flush :=
        sortListAdd_congr (by rfl) i flush
      have htake : ({ s with lru } : DiskCache α).takeNode i flush =
          ({ s with lru := lru.erase i }, s.sortListAdd i flush) := by
        rw [← hsort]
        rfl
      rw [if_neg hin, flushVisit_dirty false hd', htake, List.filter_cons_of_pos hd, List.foldl_cons]
      exact ih _ (lru.erase i)
    | false =>
      have hpass : (({ s with lru } : DiskCache α).flushVisit g true false i flush).1 =
          ({ s with lru }, flush) := by
        rw [dirtyAt] at hd
        simp [flushVisit, hd]
      rw [hpass, ite_self, List.filter_cons_of_neg (by simp [hd])]
      exact ih flush lru

/-- A sync flushes the list of the dirty nodes. -/
theorem CacheOk.sync_flushed (h : CacheOk g e s []) :
    Flushed g e s (s.flushInvRange g e 0 g.pxError true false).1 s.syncList (syncBursts g s) := by
  obtain ⟨hnodup, hmem⟩ := h.lru_reverse
  obtain ⟨lru, hloop⟩ := rangeLoop_sync s.lru.reverse [] s.lru h.sector
  have hok := h.rangeLoop hnodup hmem 0 g.pxError true false
  rw [DiskCache.flushInvRange]
  change DiskCache.rangeLoop g 0 g.pxError true false s.lru.reverse (s, []) = _ at hloop
  rw [hloop] at hok ⊢
  have hflushed := hok.flushEnd false
  have hgrows : Grows g e s { s with lru } := .of_eq rfl rfl rfl rfl
  exact ⟨hflushed.ok, hgrows.trans hflushed.grows, hflushed.nWrite, hflushed.issued, hflushed.others,
    hflushed.clean, hflushed.endStector⟩

/-- The queue is empty after a sync. -/
theorem wpSync_msgs (h : WritesOk g e s) : (s.wpSync g e).msgs = [] := by
  unfold wpSync
  split_ifs with hp
  · exact h.direct hp
  · simp [complete]

/-! ## The sectors of a burst -/

theorem burstMore_sector {nodes : ℕ → CacheNode α} {sector k m room : ℕ} (hi : l[m]? = some i)
    (hm : k + m < burstMore nodes sector k room l) : (nodes i).ulSectorNo = sector + (k + m) := by
  induction room generalizing k l m with
  | zero =>
    have hzero : burstMore nodes sector k 0 l = k := by simp [burstMore]
    omega
  | succ room ih =>
    cases l with
    | nil => simp at hi
    | cons j l =>
      rw [burstMore] at hm
      split_ifs at hm with hne
      · omega
      · cases m with
        | zero =>
          rw [List.getElem?_cons_zero, Option.some.injEq] at hi
          rw [← hi, Nat.add_zero]
          exact not_not.mp hne
        | succ m =>
          rw [List.getElem?_cons_succ] at hi
          rw [ih (k := k + 1) hi (by omega)]
          omega

/-- The write of a burst has the data of all its nodes. -/
theorem burstWrite_holds {nodes : ℕ → CacheNode α} {n : ℕ} {burst : List ℕ} (id : ℕ)
    (hb : burst ∈ bursts g nodes n l) (hi : i ∈ burst) :
    (burstWrite nodes id burst).Holds (nodes i).ulSectorNo (nodes i).pcData := by
  induction n generalizing l with
  | zero => simp [bursts] at hb
  | succ n ih =>
    cases l with
    | nil => simp [bursts] at hb
    | cons j l =>
      rw [bursts] at hb
      rcases List.mem_cons.mp hb with rfl | hb
      · obtain ⟨k, hk⟩ : ∃ k, burstMore nodes (nodes j).ulSectorNo 1 (g.iMaxWBurstSector - 1) l =
            k + 1 := Nat.exists_eq_add_of_le' le_burstMore
        rw [hk, List.take_succ_cons] at hi ⊢
        obtain ⟨m, hm⟩ := List.mem_iff_getElem?.mp hi
        refine ⟨m, ?_, by rw [burstWrite, List.getElem?_map, hm]; rfl⟩
        cases m with
        | zero =>
          rw [List.getElem?_cons_zero, Option.some.injEq] at hm
          rw [← hm]
          rfl
        | succ m =>
          rw [List.getElem?_cons_succ, List.getElem?_take] at hm
          split_ifs at hm with hlt
          have hmore : 1 + m < burstMore nodes (nodes j).ulSectorNo 1 (g.iMaxWBurstSector - 1) l := by
            omega
          rw [burstMore_sector hm hmore, Nat.add_comm 1 m]
          rfl
      · exact ih hb

theorem bursts_ne_nil {nodes : ℕ → CacheNode α} {n : ℕ} {burst : List ℕ}
    (hb : burst ∈ bursts g nodes n l) : burst ≠ [] := by
  induction n generalizing l with
  | zero => simp [bursts] at hb
  | succ n ih =>
    cases l with
    | nil => simp [bursts] at hb
    | cons j l =>
      rw [bursts] at hb
      rcases List.mem_cons.mp hb with rfl | hb
      · obtain ⟨k, hk⟩ : ∃ k, burstMore nodes (nodes j).ulSectorNo 1 (g.iMaxWBurstSector - 1) l =
            k + 1 := Nat.exists_eq_add_of_le' le_burstMore
        rw [hk]
        exact List.cons_ne_nil _ _
      · exact ih hb

/-! ## What a sync promises -/

/-- `FIOSYNC` reports success only if what was dirty has been written, and a sector whose write fails
in the call is still dirty then, or the call reports an error. -/
structure SyncHonest (g : CacheConf) (e : CacheEnv α) (s : DiskCache α) : Prop where
  written : (s.diskCacheIoctl g e .sync).2 = 0 → ∀ i < g.ulNCacheNode, s.dirtyAt i = true →
    ∃ w ∈ (s.diskCacheIoctl g e .sync).1.written, s.nWrite ≤ w.id ∧
      w.Holds (s.nodes i).ulSectorNo (s.nodes i).pcData
  failed : ∀ w ∈ (s.diskCacheIoctl g e .sync).1.refused, w ∈ s.msgs ∨ s.nWrite ≤ w.id →
    ∀ ulSectorNo pcData, w.Holds ulSectorNo pcData →
      (∃ i < g.ulNCacheNode, (s.diskCacheIoctl g e .sync).1.dirtyAt i = true ∧
        ((s.diskCacheIoctl g e .sync).1.nodes i).ulSectorNo = ulSectorNo) ∨
      (s.diskCacheIoctl g e .sync).2 ≠ 0

/-- What a sync leaves: no dirty node and no queue, and all the writes at their ends. -/
structure Synced (g : CacheConf) (e : CacheEnv α) (s s' : DiskCache α) : Prop where
  ok : WritesOk g e s'
  clean : ∀ i < g.ulNCacheNode, s'.dirtyAt i = false
  msgs : s'.msgs = []
  nWrite : s'.nWrite = s.nWrite + (syncBursts g s).length
  kept : ∀ m, s.Issued m → s'.Issued m
  issued : ∀ k b, (syncBursts g s)[k]? = some b → s'.Issued (burstWrite s.nodes (s.nWrite + k) b)

theorem CacheOk.synced (h : CacheOk g e s []) :
    Synced g e s (s.diskCacheIoctl g e .sync).1 := by
  have hflushed := h.sync_flushed
  have hsync := wpSync_grows (g := g) (e := e) (s.flushInvRange g e 0 g.pxError true false).1
  refine ⟨hsync.ok hflushed.ok.writes, fun i hi => ?_, wpSync_msgs hflushed.ok.writes,
    (wpSync_nWrite _).trans hflushed.nWrite, fun m hm => hsync.issued m (hflushed.grows.issued m hm),
    fun k b hb => hsync.issued _ (hflushed.issued k b hb)⟩
  rw [DiskCache.diskCacheIoctl, dirtyAt, (wpSync_sameNodes _).nodes]
  by_cases hmem : i ∈ s.syncList
  · exact hflushed.clean i hmem
  · have hd := mt (fun hd => (mem_syncList s).mpr ⟨h.mem_lru.mpr hi, hd⟩) hmem
    rw [hflushed.others i hmem]
    exact Bool.not_eq_true _ ▸ hd

/-- A write that has been issued is where the device has put it. -/
theorem Synced.ends (h : Synced g e s s') {m : CacheWrite α} (hm : s'.Issued m) :
    if e.accepts m.id then m ∈ s'.written else m ∈ s'.refused := by
  rcases hm with hm | hm | hm
  · rw [h.msgs] at hm
    exact absurd hm List.not_mem_nil
  · rwa [if_pos (h.ok.written m hm).2]
  · rwa [if_neg (by simp [(h.ok.refused m hm).2])]

/-- A sync keeps its promises just when the device accepts what is queued and all the bursts. -/
theorem sync_honest_iff (hs : Reached g e s) :
    SyncHonest g e s ↔ (∀ m ∈ s.msgs, e.accepts m.id = true) ∧
      ∀ k < (syncBursts g s).length, e.accepts (s.nWrite + k) = true := by
  have hok := hs.cacheOk
  have hsynced := hok.synced
  constructor
  · intro honest
    -- A write that fails leaves a sector that is not dirty.
    have hfail {m : CacheWrite α} (hm : m ∈ (s.diskCacheIoctl g e .sync).1.refused)
        (hcall : m ∈ s.msgs ∨ s.nWrite ≤ m.id) : m.data = [] := by
      by_contra hne
      obtain ⟨d, data, hdata⟩ := List.exists_cons_of_ne_nil hne
      have hhold : m.Holds m.ulStartSector d := ⟨0, rfl, by rw [hdata]; rfl⟩
      rcases honest.failed m hm hcall _ d hhold with ⟨i, hi, hd, -⟩ | herr
      · rw [hsynced.clean i hi] at hd
        exact Bool.false_ne_true hd
      · exact herr rfl
    refine ⟨fun m hm => ?_, fun k hk => ?_⟩
    · by_contra hacc
      have hend := hsynced.ends (hsynced.kept m (.inl hm))
      rw [if_neg hacc] at hend
      exact hok.writes.data m hm (hfail hend (.inl hm))
    · by_contra hacc
      have hb := List.getElem?_eq_getElem hk
      have hne := bursts_ne_nil (List.getElem_mem hk)
      have hend := hsynced.ends (hsynced.issued k _ hb)
      generalize (syncBursts g s)[k] = b at hne hend
      obtain ⟨i, b, rfl⟩ := List.exists_cons_of_ne_nil hne
      rw [burstWrite, if_neg hacc] at hend
      exact List.cons_ne_nil _ _ (hfail hend (.inr (Nat.le_add_right _ _)))
  · rintro ⟨hqueue, hbursts⟩
    refine ⟨fun _ i hi hd => ?_, fun w hw hcall => ?_⟩
    · have hmem : i ∈ (syncBursts g s).flatten := by
        rw [syncBursts, flatten_bursts le_rfl]
        exact (mem_syncList s).mpr ⟨hok.mem_lru.mpr hi, hd⟩
      obtain ⟨b, hb, hib⟩ := List.mem_flatten.mp hmem
      obtain ⟨k, hk⟩ := List.mem_iff_getElem?.mp hb
      have hlt : k < (syncBursts g s).length := (List.getElem?_eq_some_iff.mp hk).1
      have hholds := burstWrite_holds (s.nWrite + k) hb hib
      have hend := hsynced.ends (hsynced.issued k b hk)
      obtain ⟨j, b, rfl⟩ := List.exists_cons_of_ne_nil (List.ne_nil_of_mem hib)
      rw [burstWrite, if_pos (hbursts k hlt)] at hend
      exact ⟨_, hend, Nat.le_add_right _ _, hholds⟩
    · obtain ⟨hlt, hno⟩ := hsynced.ok.refused w hw
      rw [hsynced.nWrite] at hlt
      have hyes : e.accepts w.id = true := by
        rcases hcall with hm | hid
        · exact hqueue w hm
        · obtain ⟨k, hk⟩ := Nat.exists_eq_add_of_le hid
          rw [hk]
          exact hbursts k (by omega)
      rw [hno] at hyes
      exact absurd hyes Bool.false_ne_true

/-- A device that refuses every write. -/
def refusingDevice : CacheEnv ℕ := { soundDevice with accepts := fun _ => false }

theorem sync_honest_sound :
    ∃ s, Reached fourNodes soundDevice s ∧ s.dirtyAt 3 = true ∧
      SyncHonest fourNodes soundDevice s := by
  have hs : Reached fourNodes soundDevice _ :=
    .step (a := .write 1 [7] 0) (.start (fresh_init fourNodes)) (show 1 < 2 ^ 32 by decide) rfl
  exact ⟨_, hs, rfl, (sync_honest_iff hs).mpr ⟨fun _ _ => rfl, fun _ _ => rfl⟩⟩

/-- The write of the only dirty sector fails, and `FIOSYNC` reports success. -/
theorem sync_not_honest_refused :
    ∃ s, Reached fourNodes refusingDevice s ∧ ¬SyncHonest fourNodes refusingDevice s := by
  have hs : Reached fourNodes refusingDevice _ :=
    .step (a := .write 1 [7] 0) (.start (fresh_init fourNodes)) (show 1 < 2 ^ 32 by decide) rfl
  refine ⟨_, hs, fun h => ?_⟩
  obtain ⟨w, hw, -⟩ := h.written rfl 3 (by decide) rfl
  exact List.not_mem_nil hw

end DiskCache

end SylixOS.Disk
