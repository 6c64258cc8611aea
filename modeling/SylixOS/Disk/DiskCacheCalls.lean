import SylixOS.Disk.DiskCacheRuns

/-! # The calls of the disk cache

Every call ends and leaves the cache in order. A cached read of one sector fails although the device
reads without an error when the sector is the last one of the device: the count of sectors to read is
the distance to that one, so it is zero there.
-/

namespace SylixOS.Disk.DiskCache

open Lib

variable {α : Type*} {g : CacheConf} {e : CacheEnv α} {s s' s₁ : DiskCache α} {i j sector : ℕ}

/-- The sectors of a call are numbers of an `ULONG`. -/
def CacheOp.InRange (g : CacheConf) : CacheOp α → Prop
  | .read ulStartSector _ => ulStartSector < g.ulMod
  | .write ulStartSector _ _ => ulStartSector < g.ulMod
  | .ioctl (.trim ulStartSector ulEndSector) => ulStartSector < g.ulMod ∧ ulEndSector < g.ulMod
  | .ioctl _ => True

theorem succ_mod_lt (g : CacheConf) (n : ℕ) : n % g.ulMod < g.ulMod :=
  Nat.mod_lt _ ((Nat.zero_le _).trans_lt g.node_lt)

/-! ## Reading -/

theorem readMore_ok (h : CacheOk g e s []) (buffer : ℕ → α) (sector n : ℕ) :
    ∃ s', readMore g e buffer sector n s = some s' ∧ CacheOk g e s' [] := by
  induction n generalizing s sector with
  | zero => exact ⟨s, rfl, h⟩
  | succ n ih =>
    rw [readMore]
    cases s.hashFind g sector with
    | some j => exact ih h _
    | none =>
      obtain ⟨s₁, i, hs, hfound, -⟩ := nodeAlloc_found h sector
      rw [hs]
      exact ih ((hfound.ok.setData _).lruAhead (hfound.ok.mem_lru.mpr hfound.lt)) _

/-- The count of the sectors to read does not depend on the pipeline. -/
theorem readCount_same (h : SameNodes s s') (sector : ℕ) :
    s'.readCount g sector = s.readCount g sector := by
  rw [readCount, readCount, h.dirty, h.endStector]

/-- A new node is read, unless the count of the sectors is zero or the device has an error. -/
theorem nodeRead_spec (h : CacheOk g e s []) (hi : i < g.ulNCacheNode) (hd : s.dirtyAt i = false) :
    ∃ s' bOk, s.nodeRead g e i = some (s', bOk) ∧ CacheOk g e s' [] ∧
      (bOk = false → s'.dirtyAt i = false) ∧
      ((∀ k, e.readOk k = true) → (bOk = true ↔
        (s.wpSteal g e (s.nodes i).ulSectorNo).2.isSome = true ∨
          s.readCount g (s.nodes i).ulSectorNo ≠ 0)) := by
  obtain ⟨hsame, hgrows⟩ := wpSteal_spec (g := g) (e := e) s (s.nodes i).ulSectorNo
  have hok := h.same hsame hgrows
  have hcount := readCount_same (g := g) hsame (s.nodes i).ulSectorNo
  have hclean : (s.wpSteal g e (s.nodes i).ulSectorNo).1.dirtyAt i = false := by
    rw [dirtyAt, hsame.nodes]
    exact hd
  unfold nodeRead
  dsimp only
  rcases hsteal : s.wpSteal g e (s.nodes i).ulSectorNo with ⟨s₁, stolen⟩
  rw [hsteal] at hok hcount hclean
  cases stolen with
  | some pcData => exact ⟨_, true, rfl, hok.setData pcData, (by rintro ⟨⟩), fun _ => by simp⟩
  | none =>
    dsimp only at hok hcount hclean ⊢
    rw [← hcount]
    split_ifs with hzero
    · exact ⟨s₁, false, rfl, hok, fun _ => hclean, fun _ => by simp [hzero]⟩
    · obtain ⟨hsame', hgrows'⟩ := wpRead_spec (g := g) (e := e) s₁ (s.nodes i).ulSectorNo
        (s₁.readCount g (s.nodes i).ulSectorNo)
      have hok' := hok.same hsame' hgrows'
      cases hread : s₁.wpRead g e (s.nodes i).ulSectorNo
          (s₁.readCount g (s.nodes i).ulSectorNo) with
      | mk s₂ got =>
        rw [hread] at hsame' hok'
        cases got with
        | none =>
          refine ⟨s₂, false, rfl, hok', fun _ => ?_, fun hall => ?_⟩
          · rw [dirtyAt, hsame'.nodes]
            exact hclean
          · have hgot := congrArg Prod.snd hread
            simp [wpRead, hall] at hgot
        | some buffer =>
          obtain ⟨s₃, hs, hok₃⟩ := readMore_ok
            ((hok'.setData (buffer (s.nodes i).ulSectorNo)).lruAhead (hok'.mem_lru.mpr hi)) buffer
            (((s.nodes i).ulSectorNo + 1) % g.ulMod)
            (s₁.readCount g (s.nodes i).ulSectorNo - 1)
          refine ⟨s₃, true, ?_, hok₃, (by rintro ⟨⟩), fun _ => by simp [hzero]⟩
          dsimp only
          rw [hs]
          rfl

/-- There is a node for the sector. -/
def Cached (g : CacheConf) (s : DiskCache α) (ulSectorNo : ℕ) : Prop :=
  (s.hashFind g ulSectorNo).isSome = true

/-- A write of the sector is still in the queue when the cache looks for it there. -/
def Queued (g : CacheConf) (e : CacheEnv α) (s : DiskCache α) (ulSectorNo : ℕ) : Prop :=
  ∃ s₁ i, s.nodeAlloc g e ulSectorNo = some (s₁, i) ∧
    (s₁.wpSteal g e ulSectorNo).2.isSome = true

theorem CacheOk.dirty_lt (h : CacheOk g e s []) (hi : i < g.ulNCacheNode)
    (hd : s.dirtyAt i = false) : s.ulDirtyCounter < g.ulNCacheNode := by
  have hlen := h.perm.length_eq
  rw [List.append_nil, List.length_range] at hlen
  rw [h.dirty, List.append_nil, ← hlen]
  refine lt_of_le_of_ne List.countP_le_length fun heq => ?_
  have hall := List.countP_eq_length.mp heq i (h.mem_lru.mpr hi)
  rw [hd] at hall
  exact Bool.false_ne_true hall

/-- With a clean node at hand only the last sector leaves nothing to read. -/
theorem CacheOk.readCount_eq_zero (h : CacheOk g e s []) (hi : i < g.ulNCacheNode)
    (hd : s.dirtyAt i = false) (hs : sector < g.ulMod) :
    s.readCount g sector = 0 ↔ sector = s.ulEndStector := by
  have hdirty := h.dirty_lt hi hd
  have hburst := g.rburst_pos
  have hnode := g.node_lt
  have hroom : g.ulSub g.ulNCacheNode s.ulDirtyCounter = g.ulNCacheNode - s.ulDirtyCounter := by
    rw [ulSub_eq hnode (hdirty.trans hnode), if_pos hdirty.le]
  have hend := h.endStector
  rw [readCount, hroom, ulSub_eq hend hs]
  split_ifs <;> omega

theorem nodeGet_read (h : CacheOk g e s []) (sector : ℕ) :
    ∃ s' r, s.nodeGet g e sector true = some (s', r) ∧ CacheOk g e s' [] ∧
      (sector < g.ulMod → (∀ k, e.readOk k = true) → (r.isSome = true ↔
        Cached g s sector ∨ Queued g e s sector ∨ sector ≠ s.ulEndStector)) := by
  unfold nodeGet Cached Queued
  cases hfind : s.hashFind g sector with
  | some i =>
    have hi := h.hash _ i (hashFind_some hfind).2
    exact ⟨s.lruAhead i, some i, rfl, h.lruAhead (h.mem_lru.mpr hi), fun _ _ => by simp⟩
  | none =>
    obtain ⟨s₁, i, hs, hfound, hsector⟩ := nodeAlloc_found h sector
    obtain ⟨s₂, bOk, hread, hok, hclean, hiff⟩ := nodeRead_spec hfound.ok hfound.lt hfound.clean
    rw [hsector] at hiff
    rw [hs]
    dsimp only
    rw [if_pos rfl, hread, Option.map_some]
    cases bOk with
    | true =>
      refine ⟨_, some i, rfl, hok.lruAhead (hok.mem_lru.mpr hfound.lt), fun hlt hall => ?_⟩
      have hcase := (hiff hall).mp rfl
      rw [ne_eq, hfound.ok.readCount_eq_zero hfound.lt hfound.clean hlt, hfound.endStector] at hcase
      simpa using hcase
    | false =>
      refine ⟨_, none, rfl, hok.hashRemove (hclean rfl), fun hlt hall => ?_⟩
      have hcase := mt (hiff hall).mpr Bool.false_ne_true
      rw [ne_eq, hfound.ok.readCount_eq_zero hfound.lt hfound.clean hlt, hfound.endStector] at hcase
      simpa using hcase

theorem diskCacheRead_ok (h : CacheOk g e s []) (sector n : ℕ) :
    ∃ s' data bOk, diskCacheRead g e sector n s = some (s', data, bOk) ∧ CacheOk g e s' [] := by
  induction n generalizing s sector with
  | zero => exact ⟨s, [], true, rfl, h⟩
  | succ n ih =>
    obtain ⟨s₁, r, hs, hok, -⟩ := nodeGet_read h sector
    rw [diskCacheRead, hs]
    cases r with
    | none => exact ⟨s₁, [], false, rfl, hok⟩
    | some i =>
      obtain ⟨s₂, data, bOk, hs₂, hok₂⟩ := ih hok ((sector + 1) % g.ulMod)
      refine ⟨s₂, (s₁.nodes i).pcData :: data, bOk, ?_, hok₂⟩
      dsimp only
      rw [hs₂]
      rfl

/-! ## Writing -/

/-- A node is ready to take the data of a sector. -/
theorem nodeGet_write (h : CacheOk g e s []) (hs : sector < g.ulMod) :
    ∃ s' i, s.nodeGet g e sector false = some (s', some i) ∧ CacheOk g e s' [] ∧
      i < g.ulNCacheNode ∧ (s'.nodes i).ulSectorNo = sector := by
  unfold nodeGet
  cases hfind : s.hashFind g sector with
  | some i =>
    obtain ⟨hsector, hmem⟩ := hashFind_some hfind
    have hi := h.hash _ i hmem
    have hok := h.setDirty hi (hsector ▸ hs)
    exact ⟨_, i, rfl, hok.lruAhead (hok.mem_lru.mpr hi), hi,
      (setDirty_sector s i i).trans hsector⟩
  | none =>
    obtain ⟨s₁, i, ha, hfound, hsector⟩ := nodeAlloc_found h sector
    have hok := hfound.ok.setDirty hfound.lt (hsector ▸ hs)
    rw [ha]
    exact ⟨_, i, rfl, hok.lruAhead (hok.mem_lru.mpr hfound.lt), hfound.lt,
      (setDirty_sector s₁ i i).trans hsector⟩

theorem diskCacheWrite_ok (h : CacheOk g e s []) (u64FsKey : ℕ) (data : List α)
    (hs : sector < g.ulMod) :
    ∃ s', diskCacheWrite g e u64FsKey sector data s = some (s', true) ∧ CacheOk g e s' [] := by
  induction data generalizing s sector with
  | nil => exact ⟨s, rfl, h⟩
  | cons pcData data ih =>
    obtain ⟨s₁, i, hg, hok, hi, hsector⟩ := nodeGet_write h hs
    rw [diskCacheWrite, hg]
    exact ih ((hok.setDirty hi (hsector ▸ hs)).setNode rfl fun _ => rfl) (succ_mod_lt g _)

/-! ## Any call -/

theorem memReset_ok (hend : s.ulEndStector < g.ulMod) (hw : WritesOk g e s) :
    CacheOk g e (s.memReset g) [] where
  perm := by
    rw [List.append_nil]
    exact .refl _
  dirty := (List.countP_eq_zero.mpr fun _ _ => Bool.false_ne_true).symm
  flushed := by simp
  hash := by simp [memReset]
  sector i hi := absurd hi Bool.false_ne_true
  endStector := hend
  writes := ⟨hw.direct, hw.msgs, hw.data, hw.written, hw.refused⟩

theorem Init.cacheOk (h : Init g s) : CacheOk g e s [] := by
  obtain ⟨hreset, hend, hmsgs, hwritten, hrefused, -⟩ := h
  have hmod := g.mod_ge
  rw [← hreset]
  refine memReset_ok ?_ ⟨fun _ => hmsgs, ?_, ?_, ?_, ?_⟩
  · rw [hend, CacheConf.pxError]
    omega
  · simp [hmsgs]
  · simp [hmsgs]
  · simp [hwritten]
  · simp [hrefused]

theorem CacheOk.diskCacheIoctl (h : CacheOk g e s []) (cmd : IoctlCmd)
    (hcmd : (CacheOp.ioctl cmd : CacheOp α).InRange g) :
    CacheOk g e (s.diskCacheIoctl g e cmd).1 [] := by
  cases cmd with
  | invalid => exact h.flushInvRange 0 g.pxError true true
  | ramflush n => exact h.flushInvCnt n true false
  | sync => exact (h.flushInvRange 0 g.pxError true false).same (wpSync_sameNodes _) (wpSync_grows _)
  | trim st en =>
    exact (h.flushInvMeta st hcmd.2 true false).same (wpSync_sameNodes _) (wpSync_grows _)
  | unmount =>
    have hok := h.same (wpSync_sameNodes (g := g) (e := e) s) (wpSync_grows s)
    exact memReset_ok hok.endStector hok.writes
  | diskInit n err =>
    exact ⟨h.perm, h.dirty, h.flushed, h.hash, h.sector, succ_mod_lt g _,
      ⟨h.writes.direct, h.writes.msgs, h.writes.data, h.writes.written, h.writes.refused⟩⟩
  | other err => exact h

/-- Every call ends, with the cache in order. -/
theorem CacheOk.step (h : CacheOk g e s []) (op : CacheOp α) (hop : op.InRange g) :
    ∃ s', s.step g e op = some s' ∧ CacheOk g e s' [] := by
  cases op with
  | read sector n =>
    obtain ⟨s', data, bOk, hs, hok⟩ := diskCacheRead_ok h sector n
    exact ⟨s', by rw [DiskCache.step, hs]; rfl, hok⟩
  | write sector data key =>
    obtain ⟨s', hs, hok⟩ := diskCacheWrite_ok h key data hop
    exact ⟨s', by rw [DiskCache.step, hs]; rfl, hok⟩
  | ioctl cmd => exact ⟨_, rfl, h.diskCacheIoctl cmd hop⟩

/-- The caches that come about by calls. -/
abbrev Reached (g : CacheConf) (e : CacheEnv α) : DiskCache α → Prop :=
  Reach (fun s op => s.step g e op) (fun _ op => op.InRange g) (Init g)

theorem Reached.cacheOk (h : Reached g e s) : CacheOk g e s [] := by
  have hkept : ∀ (s : DiskCache α) (op : CacheOp α) (s' : DiskCache α), CacheOk g e s [] →
      op.InRange g → s.step g e op = some s' → CacheOk g e s' [] := fun s op s' hok hop hs => by
    obtain ⟨s₁, hs₁, hok₁⟩ := hok.step op hop
    rw [hs, Option.some.injEq] at hs₁
    rw [hs₁]
    exact hok₁
  have hstart : ∀ s : DiskCache α, Init g s → CacheOk g e s [] := fun _ => Init.cacheOk
  have hinv := h.invariant hstart hkept
  exact hinv

/-! ## A cached read -/

/-- When the device reads without errors, a cached read of a sector succeeds just when the cache has
the sector or a write of it is queued, or it is not the one that the cache takes for the end. -/
theorem diskCacheRead_one_iff (hs : Reached g e s) (hsector : sector < g.ulMod)
    (hread : ∀ k, e.readOk k = true) :
    (∃ s' data, diskCacheRead g e sector 1 s = some (s', data, true)) ↔
      Cached g s sector ∨ Queued g e s sector ∨ sector ≠ s.ulEndStector := by
  obtain ⟨s₁, r, hget, -, hiff⟩ := nodeGet_read hs.cacheOk sector
  rw [← hiff hsector hread, diskCacheRead, hget]
  cases r with
  | none => simp
  | some i => simp [diskCacheRead]

/-- A cache of four nodes, without a pipeline. -/
def fourNodes : CacheConf where
  ulNCacheNode := 4
  iHashSize := 4
  iMaxRBurstSector := 2
  iMaxWBurstSector := 2
  iPipeline := 0
  iMsgCount := 0
  ulMod := 2 ^ 32
  node_pos := by decide
  node_lt := by decide
  rburst_pos := by decide
  wburst_pos := by decide
  mod_ge := le_rfl

/-- A device without errors. -/
def soundDevice : CacheEnv ℕ where
  accepts _ := true
  readOk _ := true
  data _ sector := sector
  done _ _ := true

/-- A cache that has just been made. -/
def fresh (g : CacheConf) : DiskCache ℕ where
  nodes _ := ⟨g.pxError, false, false, 0, 0⟩
  lru := List.range g.ulNCacheNode
  hash _ := []
  ulValidCounter := 0
  ulDirtyCounter := 0
  ulEndStector := g.pxError
  msgs := []
  written := []
  refused := []
  fsCalls := []
  nWrite := 0
  nRead := 0
  nLook := 0

theorem fresh_init (g : CacheConf) : Init g (fresh g) :=
  ⟨rfl, rfl, rfl, rfl, rfl, rfl, rfl, rfl, rfl⟩

/-- The cache of a device of four sectors, after `FIODISKINIT`. -/
def fourSectors : DiskCache ℕ :=
  ((fresh fourNodes).diskCacheIoctl fourNodes soundDevice (.diskInit 4 0)).1

theorem fourSectors_reached : Reached fourNodes soundDevice fourSectors :=
  .step (a := .ioctl (.diskInit 4 0)) (.start (fresh_init fourNodes)) trivial rfl

theorem diskCacheRead_one_second :
    ∃ s' data, diskCacheRead fourNodes soundDevice 1 1 fourSectors = some (s', data, true) :=
  (diskCacheRead_one_iff fourSectors_reached (by decide) fun _ => rfl).mpr (.inr (.inr (by decide)))

/-- The last of four sectors cannot be read. -/
theorem diskCacheRead_one_last :
    Reached fourNodes soundDevice fourSectors ∧ (∀ k, soundDevice.readOk k = true) ∧
      ∃ s', diskCacheRead fourNodes soundDevice 3 1 fourSectors = some (s', [], false) :=
  ⟨fourSectors_reached, fun _ => rfl, _, rfl⟩

end SylixOS.Disk.DiskCache
