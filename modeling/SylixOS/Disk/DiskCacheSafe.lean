import SylixOS.Disk.DiskCache
import Mathlib.Data.List.Range

/-! # What the disk cache keeps in order

Every node is in the ring or on the list that is being flushed, and the dirty ones are counted. The
pipeline leaves the nodes alone, and loses no write without the device having refused it.
-/

namespace SylixOS.Disk.DiskCache

variable {α : Type*} {g : CacheConf} {e : CacheEnv α} {s s' s₁ : DiskCache α} {i j : ℕ} {l r : List ℕ}

/-! ## The pipeline -/

/-- The write has been issued. -/
def Issued (s : DiskCache α) (m : CacheWrite α) : Prop :=
  m ∈ s.msgs ∨ m ∈ s.written ∨ m ∈ s.refused

/-- What has become of the writes so far. -/
structure WritesOk (g : CacheConf) (e : CacheEnv α) (s : DiskCache α) : Prop where
  direct : g.iPipeline = 0 → s.msgs = []
  msgs : ∀ m ∈ s.msgs, m.id < s.nWrite
  data : ∀ m ∈ s.msgs, m.data ≠ []
  written : ∀ m ∈ s.written, m.id < s.nWrite ∧ e.accepts m.id = true
  refused : ∀ m ∈ s.refused, m.id < s.nWrite ∧ e.accepts m.id = false

/-- The nodes are as before. -/
structure SameNodes (s s' : DiskCache α) : Prop where
  nodes : s'.nodes = s.nodes
  lru : s'.lru = s.lru
  hash : s'.hash = s.hash
  dirty : s'.ulDirtyCounter = s.ulDirtyCounter
  endStector : s'.ulEndStector = s.ulEndStector

/-- No write is lost. -/
structure Grows (g : CacheConf) (e : CacheEnv α) (s s' : DiskCache α) : Prop where
  ok : WritesOk g e s → WritesOk g e s'
  issued : ∀ m, s.Issued m → s'.Issued m
  le : s.nWrite ≤ s'.nWrite

theorem SameNodes.refl (s : DiskCache α) : SameNodes s s := ⟨rfl, rfl, rfl, rfl, rfl⟩

theorem SameNodes.trans (h : SameNodes s s₁) (h₁ : SameNodes s₁ s') : SameNodes s s' :=
  ⟨h₁.nodes.trans h.nodes, h₁.lru.trans h.lru, h₁.hash.trans h.hash, h₁.dirty.trans h.dirty,
    h₁.endStector.trans h.endStector⟩

theorem Grows.refl (s : DiskCache α) : Grows g e s s := ⟨id, fun _ => id, le_rfl⟩

theorem Grows.trans (h : Grows g e s s₁) (h₁ : Grows g e s₁ s') : Grows g e s s' :=
  ⟨h₁.ok ∘ h.ok, fun m hm => h₁.issued m (h.issued m hm), h.le.trans h₁.le⟩

/-- The writes are as before. -/
theorem Grows.of_eq (hm : s'.msgs = s.msgs) (hw : s'.written = s.written)
    (hr : s'.refused = s.refused) (hn : s'.nWrite = s.nWrite) : Grows g e s s' where
  ok h := by
    refine ⟨?_, ?_, ?_, ?_, ?_⟩
    · rw [hm]
      exact h.direct
    · rw [hm, hn]
      exact h.msgs
    · rw [hm]
      exact h.data
    · rw [hw, hn]
      exact h.written
    · rw [hr, hn]
      exact h.refused
  issued m h := by
    rw [Issued, hm, hw, hr]
    exact h
  le := hn.ge

theorem complete_sameNodes (s : DiskCache α) (p : CacheWrite α → Bool) :
    SameNodes s (s.complete e p) := ⟨rfl, rfl, rfl, rfl, rfl⟩

theorem complete_grows (s : DiskCache α) (p : CacheWrite α → Bool) : Grows g e s (s.complete e p) where
  ok h := by
    refine ⟨fun hp => ?_, fun m hm => h.msgs m (List.mem_of_mem_filter hm),
      fun m hm => h.data m (List.mem_of_mem_filter hm), fun m hm => ?_, fun m hm => ?_⟩
    · rw [complete, h.direct hp, List.filter_nil]
    · rcases List.mem_append.mp hm with hm | hm
      · exact h.written m hm
      · obtain ⟨hmem, hp⟩ := List.mem_filter.mp hm
        rw [Bool.and_eq_true] at hp
        exact ⟨h.msgs m hmem, hp.2⟩
    · rcases List.mem_append.mp hm with hm | hm
      · exact h.refused m hm
      · obtain ⟨hmem, hp⟩ := List.mem_filter.mp hm
        rw [Bool.and_eq_true, Bool.not_eq_true'] at hp
        exact ⟨h.msgs m hmem, hp.2⟩
  issued m h := by
    rcases h with hm | hm | hm
    · by_cases hp : p m = true
      · by_cases ha : e.accepts m.id = true
        · exact .inr (.inl (List.mem_append.mpr (.inr (List.mem_filter.mpr ⟨hm, by simp [hp, ha]⟩))))
        · exact .inr (.inr (List.mem_append.mpr (.inr (List.mem_filter.mpr ⟨hm, by simp [hp, ha]⟩))))
      · exact .inl (List.mem_filter.mpr ⟨hm, by simp [hp]⟩)
    · exact .inr (.inl (List.mem_append.mpr (.inl hm)))
    · exact .inr (.inr (List.mem_append.mpr (.inl hm)))
  le := le_rfl

theorem look_sameNodes (e : CacheEnv α) (s : DiskCache α) : SameNodes s (s.look e) :=
  ⟨rfl, rfl, rfl, rfl, rfl⟩

theorem look_grows (s : DiskCache α) : Grows g e s (s.look e) :=
  (complete_grows s _).trans (.of_eq rfl rfl rfl rfl)

theorem wpSync_sameNodes (s : DiskCache α) : SameNodes s (s.wpSync g e) := by
  unfold wpSync
  split_ifs
  · exact .refl s
  · exact complete_sameNodes s _

theorem wpSync_grows (s : DiskCache α) : Grows g e s (s.wpSync g e) := by
  unfold wpSync
  split_ifs
  · exact .refl s
  · exact complete_grows s _

@[simp] theorem wpSync_nWrite (s : DiskCache α) : (s.wpSync g e).nWrite = s.nWrite := by
  unfold wpSync
  split_ifs <;> rfl

theorem wpGetBuffer_spec (s : DiskCache α) : SameNodes s (s.wpGetBuffer g e) ∧
    Grows g e s (s.wpGetBuffer g e) ∧ (s.wpGetBuffer g e).nWrite = s.nWrite := by
  unfold wpGetBuffer
  dsimp only
  split_ifs
  · exact ⟨.refl s, .refl s, rfl⟩
  · exact ⟨look_sameNodes e s, look_grows s, rfl⟩
  · exact ⟨(look_sameNodes e s).trans (complete_sameNodes _ _),
      (look_grows s).trans (complete_grows _ _), rfl⟩

/-- A message is queued. -/
theorem queue_grows (s : DiskCache α) (hp : g.iPipeline ≠ 0) (ulStartSector : ℕ) {data : List α}
    (hdata : data ≠ []) : Grows g e s
      { s with msgs := ⟨s.nWrite, ulStartSector, data⟩ :: s.msgs, nWrite := s.nWrite + 1 } where
  ok h := by
    refine ⟨fun h0 => absurd h0 hp, fun m hm => ?_, fun m hm => ?_, fun m hm => ?_, fun m hm => ?_⟩
    · rcases List.mem_cons.mp hm with rfl | hm
      · exact Nat.lt_succ_self _
      · exact Nat.lt_succ_of_lt (h.msgs m hm)
    · rcases List.mem_cons.mp hm with rfl | hm
      · exact hdata
      · exact h.data m hm
    · exact ⟨Nat.lt_succ_of_lt (h.written m hm).1, (h.written m hm).2⟩
    · exact ⟨Nat.lt_succ_of_lt (h.refused m hm).1, (h.refused m hm).2⟩
  issued m h := h.imp_left (List.mem_cons_of_mem _)
  le := Nat.le_succ _

/-- The device accepts a write or refuses it. -/
theorem direct_grows (s : DiskCache α) (ulStartSector : ℕ) (data : List α) :
    (e.accepts s.nWrite = true → Grows g e s
      { s with
        written := s.written ++ [⟨s.nWrite, ulStartSector, data⟩], nWrite := s.nWrite + 1 }) ∧
    (e.accepts s.nWrite = false → Grows g e s
      { s with
        refused := s.refused ++ [⟨s.nWrite, ulStartSector, data⟩], nWrite := s.nWrite + 1 }) := by
  constructor <;> intro hacc <;>
    refine ⟨fun h => ⟨h.direct, fun m hm => Nat.lt_succ_of_lt (h.msgs m hm), h.data,
      fun m hm => ?_, fun m hm => ?_⟩, fun m h => ?_, Nat.le_succ _⟩
  · rcases List.mem_append.mp hm with hm | hm
    · exact ⟨Nat.lt_succ_of_lt (h.written m hm).1, (h.written m hm).2⟩
    · rw [List.mem_singleton.mp hm]
      exact ⟨Nat.lt_succ_self _, hacc⟩
  · exact ⟨Nat.lt_succ_of_lt (h.refused m hm).1, (h.refused m hm).2⟩
  · exact h.imp_right (Or.imp_left (List.mem_append_left _))
  · exact ⟨Nat.lt_succ_of_lt (h.written m hm).1, (h.written m hm).2⟩
  · rcases List.mem_append.mp hm with hm | hm
    · exact ⟨Nat.lt_succ_of_lt (h.refused m hm).1, (h.refused m hm).2⟩
    · rw [List.mem_singleton.mp hm]
      exact ⟨Nat.lt_succ_self _, hacc⟩
  · exact h.imp_right (Or.imp_right (List.mem_append_left _))

/-- A write is issued under the next number. -/
theorem wpWrite_spec (s : DiskCache α) (ulStartSector : ℕ) {data : List α} (hdata : data ≠ []) :
    SameNodes s (s.wpWrite g e ulStartSector data).1 ∧
      Grows g e s (s.wpWrite g e ulStartSector data).1 ∧
        (s.wpWrite g e ulStartSector data).1.nWrite = s.nWrite + 1 ∧
          (s.wpWrite g e ulStartSector data).1.Issued ⟨s.nWrite, ulStartSector, data⟩ := by
  unfold wpWrite
  dsimp only
  split_ifs with hpipe hacc hover
  · exact ⟨⟨rfl, rfl, rfl, rfl, rfl⟩, (direct_grows s ulStartSector data).1 hacc, rfl,
      .inr (.inl (by simp))⟩
  · rw [Bool.not_eq_true] at hacc
    exact ⟨⟨rfl, rfl, rfl, rfl, rfl⟩, (direct_grows s ulStartSector data).2 hacc, rfl,
      .inr (.inr (by simp))⟩
  · have hn : ((s.look e).wpSync g e).nWrite = s.nWrite := wpSync_nWrite _
    refine ⟨((look_sameNodes e s).trans (wpSync_sameNodes _)).trans ⟨rfl, rfl, rfl, rfl, rfl⟩,
      ((look_grows s).trans (wpSync_grows _)).trans (queue_grows _ hpipe _ hdata), ?_, .inl ?_⟩
    · rw [hn]
    · rw [hn]
      exact .head _
  · exact ⟨(look_sameNodes e s).trans ⟨rfl, rfl, rfl, rfl, rfl⟩,
      (look_grows s).trans (queue_grows _ hpipe _ hdata), rfl, .inl (.head _)⟩

theorem wpSteal_spec (s : DiskCache α) (ulSectorNo : ℕ) :
    SameNodes s (s.wpSteal g e ulSectorNo).1 ∧ Grows g e s (s.wpSteal g e ulSectorNo).1 := by
  unfold wpSteal
  split_ifs
  · exact ⟨.refl s, .refl s⟩
  · exact ⟨look_sameNodes e s, look_grows s⟩

theorem wpRead_spec (s : DiskCache α) (ulStartSector ulNSector : ℕ) :
    SameNodes s (s.wpRead g e ulStartSector ulNSector).1 ∧
      Grows g e s (s.wpRead g e ulStartSector ulNSector).1 := by
  unfold wpRead
  dsimp only
  split_ifs
  · exact ⟨⟨rfl, rfl, rfl, rfl, rfl⟩, .of_eq rfl rfl rfl rfl⟩
  · exact ⟨((look_sameNodes e s).trans (wpSync_sameNodes _)).trans ⟨rfl, rfl, rfl, rfl, rfl⟩,
      ((look_grows s).trans (wpSync_grows _)).trans (.of_eq rfl rfl rfl rfl)⟩
  · exact ⟨(look_sameNodes e s).trans ⟨rfl, rfl, rfl, rfl, rfl⟩,
      (look_grows s).trans (.of_eq rfl rfl rfl rfl)⟩

/-! ## The ring, the list that is flushed and the count of dirty nodes -/

/-- Whether a node is dirty. -/
def dirtyAt (s : DiskCache α) (i : ℕ) : Bool := (s.nodes i).bDirty

/-- The cache while a list of dirty nodes is being flushed. -/
structure CacheOk (g : CacheConf) (e : CacheEnv α) (s : DiskCache α) (flush : List ℕ) : Prop where
  perm : (s.lru ++ flush).Perm (List.range g.ulNCacheNode)
  dirty : s.ulDirtyCounter = (s.lru ++ flush).countP s.dirtyAt
  flushed : ∀ i ∈ flush, s.dirtyAt i = true
  hash : ∀ k, ∀ i ∈ s.hash k, i < g.ulNCacheNode
  sector : ∀ i, s.dirtyAt i = true → (s.nodes i).ulSectorNo < g.ulMod
  endStector : s.ulEndStector < g.ulMod
  writes : WritesOk g e s

theorem CacheOk.nodup (h : CacheOk g e s l) : (s.lru ++ l).Nodup :=
  h.perm.nodup_iff.mpr List.nodup_range

theorem CacheOk.mem (h : CacheOk g e s l) (hi : i < g.ulNCacheNode) : i ∈ s.lru ++ l :=
  h.perm.mem_iff.mpr (List.mem_range.mpr hi)

/-- What the pipeline does leaves the cache in order. -/
theorem CacheOk.same (h : CacheOk g e s l) (hs : SameNodes s s') (hg : Grows g e s s') :
    CacheOk g e s' l := by
  have hat : s'.dirtyAt = s.dirtyAt := by
    funext i
    rw [dirtyAt, dirtyAt, hs.nodes]
  refine ⟨?_, ?_, ?_, ?_, ?_, ?_, hg.ok h.writes⟩
  · rw [hs.lru]
    exact h.perm
  · rw [hs.dirty, hs.lru, hat]
    exact h.dirty
  · rw [hat]
    exact h.flushed
  · rw [hs.hash]
    exact h.hash
  · rw [hat, hs.nodes]
    exact h.sector
  · rw [hs.endStector]
    exact h.endStector

/-- A node that is as dirty as before may change. -/
theorem CacheOk.of_dirty (h : CacheOk g e s l) (hlru : s'.lru.Perm s.lru)
    (hcount : s'.ulDirtyCounter = s.ulDirtyCounter) (hat : s'.dirtyAt = s.dirtyAt)
    (hhash : ∀ k, ∀ i ∈ s'.hash k, i < g.ulNCacheNode)
    (hsector : ∀ i, s.dirtyAt i = true → (s'.nodes i).ulSectorNo = (s.nodes i).ulSectorNo)
    (hend : s'.ulEndStector = s.ulEndStector) (hw : Grows g e s s') : CacheOk g e s' l := by
  refine ⟨(hlru.append_right l).trans h.perm, ?_, ?_, hhash, fun i hi => ?_, ?_, hw.ok h.writes⟩
  · rw [hcount, hat, h.dirty]
    exact ((hlru.append_right l).countP_eq _).symm
  · rw [hat]
    exact h.flushed
  · rw [hat] at hi
    rw [hsector i hi]
    exact h.sector i hi
  · rw [hend]
    exact h.endStector

/-- A clean node is taken out of the hash table. -/
theorem CacheOk.hashRemove (h : CacheOk g e s l) (hi : s.dirtyAt i = false) :
    CacheOk g e (s.hashRemove g i) l := by
  have hne {j : ℕ} (hj : s.dirtyAt j = true) : j ≠ i := by
    rintro rfl
    rw [hi] at hj
    exact Bool.false_ne_true hj
  refine h.of_dirty (.refl _) rfl ?_ (fun k j hj => ?_) (fun j hj => ?_) rfl (.of_eq rfl rfl rfl rfl)
  · funext j
    by_cases hj : j = i
    · rw [hj, hi]
      simp [dirtyAt, DiskCache.hashRemove, setNode]
    · simp [dirtyAt, DiskCache.hashRemove, setNode, hj]
  · simp only [DiskCache.hashRemove, setNode, Function.update_apply] at hj
    split_ifs at hj with hk
    · exact h.hash _ j (List.mem_of_mem_erase hj)
    · exact h.hash k j hj
  · simp [DiskCache.hashRemove, setNode, hne hj]

/-- A node moves to the head of the ring. -/
theorem CacheOk.lruAhead (h : CacheOk g e s l) (hi : i ∈ s.lru) : CacheOk g e (s.lruAhead i) l :=
  h.of_dirty (List.perm_cons_erase hi).symm rfl rfl h.hash (fun _ _ => rfl) rfl
    (.of_eq rfl rfl rfl rfl)

/-! ## Flushing -/

/-- What is left alone when the nodes of a burst are put back into the ring. -/
structure Cleaned (s s' : DiskCache α) (burst : List ℕ) : Prop where
  lru : s'.lru = s.lru ++ burst
  clean : ∀ i ∈ burst, s'.dirtyAt i = false
  others : ∀ i, i ∉ burst → s'.nodes i = s.nodes i
  dirty : s'.ulDirtyCounter = s.ulDirtyCounter
  hash : ∀ k, ∀ i ∈ s'.hash k, i ∈ s.hash k
  endStector : s'.ulEndStector = s.ulEndStector
  msgs : s'.msgs = s.msgs
  written : s'.written = s.written
  refused : s'.refused = s.refused
  nWrite : s'.nWrite = s.nWrite

theorem flushNode_cleaned (s : DiskCache α) (inv : Bool) (i : ℕ) :
    Cleaned s (s.flushNode g inv i) [i] := by
  unfold flushNode
  dsimp only
  cases inv with
  | false =>
    refine ⟨rfl, fun j hj => ?_, fun j hj => ?_, rfl, fun _ _ => id, rfl, rfl, rfl, rfl, rfl⟩
    · rw [List.mem_singleton.mp hj]
      simp [dirtyAt, setNode]
    · rw [List.mem_singleton] at hj
      simp [setNode, hj]
  | true =>
    refine ⟨rfl, fun j hj => ?_, fun j hj => ?_, rfl, fun k j hj => ?_, rfl, rfl, rfl, rfl, rfl⟩
    · rw [List.mem_singleton.mp hj]
      simp [dirtyAt, setNode, DiskCache.hashRemove]
    · rw [List.mem_singleton] at hj
      simp [setNode, DiskCache.hashRemove, hj]
    · simp only [if_true, DiskCache.hashRemove, setNode, Function.update_apply] at hj
      split_ifs at hj with hk
      · rw [hk]
        exact List.mem_of_mem_erase hj
      · exact hj

theorem Cleaned.append (h : Cleaned s s₁ l) (h₁ : Cleaned s₁ s' r) (hdisj : ∀ i ∈ l, i ∉ r) :
    Cleaned s s' (l ++ r) where
  lru := by rw [h₁.lru, h.lru, List.append_assoc]
  clean i hi := by
    rcases List.mem_append.mp hi with hi | hi
    · rw [dirtyAt, h₁.others i (hdisj i hi)]
      exact h.clean i hi
    · exact h₁.clean i hi
  others i hi := by
    rw [List.mem_append, not_or] at hi
    rw [h₁.others i hi.2, h.others i hi.1]
  dirty := h₁.dirty.trans h.dirty
  hash k i hi := h.hash k i (h₁.hash k i hi)
  endStector := h₁.endStector.trans h.endStector
  msgs := h₁.msgs.trans h.msgs
  written := h₁.written.trans h.written
  refused := h₁.refused.trans h.refused
  nWrite := h₁.nWrite.trans h.nWrite

theorem flushNodes_cleaned (s : DiskCache α) (inv : Bool) (burst : List ℕ) (hnodup : burst.Nodup) :
    Cleaned s (flushNodes g inv s burst) burst := by
  induction burst generalizing s with
  | nil =>
    exact ⟨by simp [flushNodes], by simp, fun _ _ => rfl, rfl, fun _ _ => id, rfl, rfl, rfl, rfl, rfl⟩
  | cons i burst ih =>
    obtain ⟨hi, hnodup⟩ := List.nodup_cons.mp hnodup
    exact (flushNode_cleaned s inv i).append (ih _ hnodup) fun j hj => by
      rw [List.mem_singleton.mp hj]
      exact hi

theorem countP_dirty_congr (h : ∀ i ∈ l, s'.dirtyAt i = s.dirtyAt i) :
    l.countP s'.dirtyAt = l.countP s.dirtyAt :=
  List.countP_congr fun i hi => by rw [h i hi]

/-- A burst of dirty nodes comes back to the ring and is counted. -/
theorem CacheOk.cleaned {burst rest : List ℕ} (h : CacheOk g e s (burst ++ rest))
    (hc : Cleaned s s' burst) :
    CacheOk g e { s' with ulDirtyCounter := s'.ulDirtyCounter - burst.length } rest := by
  have hnodup := h.nodup
  rw [List.nodup_append, List.nodup_append] at hnodup
  obtain ⟨-, ⟨-, -, hrest⟩, hlru⟩ := hnodup
  have hat {i : ℕ} (hi : i ∉ burst) : s'.dirtyAt i = s.dirtyAt i := by
    rw [dirtyAt, hc.others i hi, dirtyAt]
  have hat' {i : ℕ} (hi : s'.dirtyAt i = true) : i ∉ burst := fun hmem => by
    rw [hc.clean i hmem] at hi
    exact Bool.false_ne_true hi
  refine ⟨?_, ?_, fun i hi => ?_, fun k i hi => h.hash k i (hc.hash k i hi), fun i hi => ?_, ?_, ?_⟩
  · rw [hc.lru, List.append_assoc]
    exact h.perm
  · have hcount := h.dirty
    have hall : burst.countP s.dirtyAt = burst.length :=
      List.countP_eq_length.mpr fun i hi => h.flushed i (List.mem_append_left _ hi)
    have hnone : burst.countP s'.dirtyAt = 0 :=
      List.countP_eq_zero.mpr fun i hi => by rw [hc.clean i hi]; exact Bool.false_ne_true
    have hl : s.lru.countP s'.dirtyAt = s.lru.countP s.dirtyAt :=
      countP_dirty_congr fun i hi => hat fun hmem => hlru i hi i (List.mem_append_left _ hmem) rfl
    have hr : rest.countP s'.dirtyAt = rest.countP s.dirtyAt :=
      countP_dirty_congr fun i hi => hat fun hmem => hrest i hmem i hi rfl
    rw [List.countP_append, List.countP_append, hall] at hcount
    change s'.ulDirtyCounter - burst.length = (s'.lru ++ rest).countP s'.dirtyAt
    rw [hc.dirty, hc.lru, List.countP_append, List.countP_append, hnone, hl, hr]
    omega
  · change s'.dirtyAt i = true
    rw [hat fun hmem => hrest i hmem i hi rfl]
    exact h.flushed i (List.mem_append_right _ hi)
  · change s'.dirtyAt i = true at hi
    change (s'.nodes i).ulSectorNo < g.ulMod
    rw [hc.others i (hat' hi)]
    exact h.sector i (by rw [← hat (hat' hi)]; exact hi)
  · change s'.ulEndStector < g.ulMod
    rw [hc.endStector]
    exact h.endStector
  · have hg : Grows g e s s' := .of_eq hc.msgs hc.written hc.refused hc.nWrite
    obtain ⟨hdirect, hmsgs, hdata, hwritten, hrefused⟩ := hg.ok h.writes
    exact ⟨hdirect, hmsgs, hdata, hwritten, hrefused⟩

/-- The burst is written, and its nodes are clean. -/
theorem flushBurst_spec {burst rest : List ℕ} (h : CacheOk g e s (burst ++ rest)) (i : ℕ)
    (hne : burst ≠ []) (inv : Bool) :
    CacheOk g e (s.flushBurst g e i burst inv).1 rest ∧
      Grows g e s (s.flushBurst g e i burst inv).1 ∧
      (s.flushBurst g e i burst inv).1.nWrite = s.nWrite + 1 ∧
      (s.flushBurst g e i burst inv).1.Issued
        ⟨s.nWrite, (s.nodes i).ulSectorNo, burst.map fun j => (s.nodes j).pcData⟩ ∧
      (∀ j, j ∉ burst → (s.flushBurst g e i burst inv).1.nodes j = s.nodes j) ∧
      (∀ j ∈ burst, (s.flushBurst g e i burst inv).1.dirtyAt j = false) ∧
      (s.flushBurst g e i burst inv).1.ulEndStector = s.ulEndStector := by
  obtain ⟨hbuf, hbufg, hbufn⟩ := wpGetBuffer_spec (g := g) (e := e) s
  have hdata : (burst.map fun j => (s.nodes j).pcData) ≠ [] := mt List.map_eq_nil_iff.mp hne
  obtain ⟨hwr, hwrg, hwrn, hwri⟩ :=
    wpWrite_spec (g := g) (e := e) (s.wpGetBuffer g e) (s.nodes i).ulSectorNo hdata
  have hnodup : burst.Nodup := (List.nodup_append.mp (List.nodup_append.mp h.nodup).2.1).1
  unfold flushBurst
  dsimp only
  generalize (s.wpGetBuffer g e).wpWrite g e (s.nodes i).ulSectorNo
    (burst.map fun j => (s.nodes j).pcData) = w at hwr hwrg hwrn hwri ⊢
  obtain ⟨s₁, bOk⟩ := w
  rw [hbufn] at hwrn hwri
  generalize hs₂ : (if bOk = true then { s₁ with fsCalls := s₁.fsCalls ++
    [((s.nodes i).u64FsKey, (s.nodes i).ulSectorNo, burst.length)] } else s₁) = s₂
  have htold : SameNodes s₁ s₂ ∧ Grows g e s₁ s₂ ∧ s₂.nWrite = s₁.nWrite := by
    rw [← hs₂]
    cases bOk with
    | true => exact ⟨⟨rfl, rfl, rfl, rfl, rfl⟩, .of_eq rfl rfl rfl rfl, rfl⟩
    | false => exact ⟨.refl _, .refl _, rfl⟩
  have hsame := (hbuf.trans hwr).trans htold.1
  have hgrows := (hbufg.trans hwrg).trans htold.2.1
  have hclean := flushNodes_cleaned (g := g) s₂ (inv || !bOk) burst hnodup
  have hkept : Grows g e s₂ (flushNodes g (inv || !bOk) s₂ burst) :=
    .of_eq hclean.msgs hclean.written hclean.refused hclean.nWrite
  have hlast : Grows g e (flushNodes g (inv || !bOk) s₂ burst)
      { flushNodes g (inv || !bOk) s₂ burst with
        ulDirtyCounter := (flushNodes g (inv || !bOk) s₂ burst).ulDirtyCounter - burst.length } :=
    .of_eq rfl rfl rfl rfl
  refine ⟨(h.same hsame hgrows).cleaned hclean, (hgrows.trans hkept).trans hlast, ?_, ?_,
    fun j hj => ?_, hclean.clean, hclean.endStector.trans hsame.endStector⟩
  · exact hclean.nWrite.trans (htold.2.2.trans hwrn)
  · exact hlast.issued _ (hkept.issued _ (htold.2.1.issued _ hwri))
  · exact (hclean.others j hj).trans (congrFun hsame.nodes j)

/-- The bursts that a list of nodes is written in. -/
def bursts (g : CacheConf) (nodes : ℕ → CacheNode α) : ℕ → List ℕ → List (List ℕ)
  | n + 1, i :: l =>
    let iBurstCount := burstMore nodes (nodes i).ulSectorNo 1 (g.iMaxWBurstSector - 1) l
    (i :: l).take iBurstCount :: bursts g nodes n ((i :: l).drop iBurstCount)
  | _, _ => []

/-- The write of a burst, under a number. -/
def burstWrite (nodes : ℕ → CacheNode α) (id : ℕ) : List ℕ → CacheWrite α
  | [] => ⟨id, 0, []⟩
  | i :: l => ⟨id, (nodes i).ulSectorNo, (i :: l).map fun j => (nodes j).pcData⟩

theorem le_burstMore {nodes : ℕ → CacheNode α} {sector k room : ℕ} :
    k ≤ burstMore nodes sector k room l := by
  induction room generalizing k l with
  | zero => simp [burstMore]
  | succ room ih =>
    cases l with
    | nil => simp [burstMore]
    | cons i l =>
      rw [burstMore]
      split_ifs
      · exact le_rfl
      · exact (Nat.le_succ k).trans ih

theorem burstMore_congr {nodes nodes' : ℕ → CacheNode α} {sector k room : ℕ}
    (h : ∀ i ∈ l, nodes' i = nodes i) :
    burstMore nodes' sector k room l = burstMore nodes sector k room l := by
  induction room generalizing k l with
  | zero => simp [burstMore]
  | succ room ih =>
    cases l with
    | nil => simp [burstMore]
    | cons i l => rw [burstMore, burstMore, h i (.head _), ih fun j hj => h j (.tail _ hj)]

theorem bursts_congr {nodes nodes' : ℕ → CacheNode α} {n : ℕ} (h : ∀ i ∈ l, nodes' i = nodes i) :
    bursts g nodes' n l = bursts g nodes n l := by
  induction n generalizing l with
  | zero => simp [bursts]
  | succ n ih =>
    cases l with
    | nil => simp [bursts]
    | cons i l =>
      have hmore : burstMore nodes' (nodes i).ulSectorNo 1 (g.iMaxWBurstSector - 1) l =
          burstMore nodes (nodes i).ulSectorNo 1 (g.iMaxWBurstSector - 1) l :=
        burstMore_congr fun j hj => h j (.tail _ hj)
      simp only [bursts, h i (.head _), hmore]
      rw [ih fun j hj => h j (List.mem_of_mem_drop hj)]

theorem burstWrite_congr {nodes nodes' : ℕ → CacheNode α} {id : ℕ} (h : ∀ i ∈ l, nodes' i = nodes i) :
    burstWrite nodes' id l = burstWrite nodes id l := by
  cases l with
  | nil => rfl
  | cons i l =>
    rw [burstWrite, burstWrite, h i (.head _), List.map_congr_left fun j hj => by rw [h j hj]]

/-- The bursts have the nodes of the list, in their order. -/
theorem flatten_bursts {nodes : ℕ → CacheNode α} {n : ℕ} (hn : l.length ≤ n) :
    (bursts g nodes n l).flatten = l := by
  induction n generalizing l with
  | zero =>
    obtain rfl : l = [] := List.length_eq_zero_iff.mp (by omega)
    rfl
  | succ n ih =>
    cases l with
    | nil => rfl
    | cons i l =>
      have hle : 1 ≤ burstMore nodes (nodes i).ulSectorNo 1 (g.iMaxWBurstSector - 1) l :=
        le_burstMore
      simp only [bursts]
      generalize burstMore nodes (nodes i).ulSectorNo 1 (g.iMaxWBurstSector - 1) l = k at hle ⊢
      have hlen : ((i :: l).drop k).length ≤ n := by
        rw [List.length_cons] at hn
        rw [List.length_drop, List.length_cons]
        omega
      rw [List.flatten_cons, ih hlen, List.take_append_drop]

/-- A list of dirty nodes has been flushed, in bursts. -/
structure Flushed (g : CacheConf) (e : CacheEnv α) (s s' : DiskCache α) (l : List ℕ)
    (bs : List (List ℕ)) : Prop where
  ok : CacheOk g e s' []
  grows : Grows g e s s'
  nWrite : s'.nWrite = s.nWrite + bs.length
  issued : ∀ k b, bs[k]? = some b → s'.Issued (burstWrite s.nodes (s.nWrite + k) b)
  others : ∀ j, j ∉ l → s'.nodes j = s.nodes j
  clean : ∀ j ∈ l, s'.dirtyAt j = false
  endStector : s'.ulEndStector = s.ulEndStector

theorem flushList_spec {n : ℕ} (h : CacheOk g e s l) (hn : l.length ≤ n) (inv : Bool) :
    Flushed g e s (flushList g e n s l inv).1 l (bursts g s.nodes n l) := by
  induction n generalizing s l inv with
  | zero =>
    obtain rfl : l = [] := List.length_eq_zero_iff.mp (by omega)
    exact ⟨h, .refl s, rfl, by simp [bursts], fun _ _ => rfl, by simp, rfl⟩
  | succ n ih =>
    cases l with
    | nil => exact ⟨h, .refl s, rfl, by simp [bursts], fun _ _ => rfl, by simp, rfl⟩
    | cons i l =>
      have hle : 1 ≤ burstMore s.nodes (s.nodes i).ulSectorNo 1 (g.iMaxWBurstSector - 1) l :=
        le_burstMore
      simp only [flushList, bursts]
      generalize burstMore s.nodes (s.nodes i).ulSectorNo 1 (g.iMaxWBurstSector - 1) l = k at hle ⊢
      have hsplit : (i :: l).take k ++ (i :: l).drop k = i :: l := List.take_append_drop k _
      have hs : CacheOk g e s ((i :: l).take k ++ (i :: l).drop k) := hsplit.symm ▸ h
      have hne : (i :: l).take k ≠ [] := by
        obtain ⟨m, rfl⟩ := Nat.exists_eq_add_of_le' hle
        exact List.cons_ne_nil _ _
      have hspec := flushBurst_spec hs i hne inv
      rcases hw : s.flushBurst g e i ((i :: l).take k) inv with ⟨s₁, bOk⟩
      rw [hw] at hspec
      obtain ⟨hok, hgrows, hnw, hissued, hothers, hclean, hend⟩ := hspec
      have hnodup : (i :: l).Nodup := (List.nodup_append.mp h.nodup).2.1
      have hdisj : ∀ j ∈ (i :: l).drop k, j ∉ (i :: l).take k := fun j hj hj' =>
        List.disjoint_take_drop hnodup le_rfl hj' hj
      have hsame : ∀ j ∈ (i :: l).drop k, s₁.nodes j = s.nodes j := fun j hj =>
        hothers j (hdisj j hj)
      have hlen : ((i :: l).drop k).length ≤ n := by
        rw [List.length_drop]
        omega
      have hrest := ih hok hlen (inv || !bOk)
      rw [bursts_congr hsame] at hrest
      have hfirst : burstWrite s.nodes s.nWrite ((i :: l).take k) =
          ⟨s.nWrite, (s.nodes i).ulSectorNo, ((i :: l).take k).map fun j => (s.nodes j).pcData⟩ := by
        obtain ⟨m, rfl⟩ := Nat.exists_eq_add_of_le' hle
        rfl
      refine ⟨hrest.ok, hgrows.trans hrest.grows, ?_, fun m b hb => ?_, fun j hj => ?_, fun j hj => ?_,
        hrest.endStector.trans hend⟩
      · rw [hrest.nWrite, hnw, List.length_cons]
        omega
      · cases m with
        | zero =>
          rw [List.getElem?_cons_zero, Option.some.injEq] at hb
          rw [← hb, Nat.add_zero, hfirst]
          exact hrest.grows.issued _ hissued
        | succ m =>
          rw [List.getElem?_cons_succ] at hb
          have hin := hrest.issued m b hb
          have hmem : ∀ j ∈ b, j ∈ (i :: l).drop k := fun j hj => by
            rw [← flatten_bursts (g := g) hlen]
            exact List.mem_flatten.mpr ⟨b, List.mem_of_getElem? hb, hj⟩
          rw [hnw, burstWrite_congr fun j hj => hsame j (hmem j hj)] at hin
          rwa [Nat.add_right_comm, Nat.add_assoc s.nWrite m 1] at hin
      · rw [hrest.others j fun hmem => hj (List.mem_of_mem_drop hmem)]
        exact hothers j fun hmem => hj (List.mem_of_mem_take hmem)
      · rw [← hsplit, List.mem_append] at hj
        rcases hj with hj | hj
        · rw [dirtyAt, hrest.others j fun hmem => hdisj j hmem hj]
          exact hclean j hj
        · exact hrest.clean j hj

/-! ## The lists that are flushed -/

theorem sortListAdd_perm : (s.sortListAdd i l).Perm (i :: l) := by
  induction l with
  | nil => exact .refl _
  | cons j l ih =>
    rw [sortListAdd]
    split_ifs
    · exact .refl _
    · exact (ih.cons j).trans (.swap i j l)

theorem CacheOk.takeNode (h : CacheOk g e s l) (hi : i ∈ s.lru) (hd : s.dirtyAt i = true) :
    CacheOk g e (s.takeNode i l).1 (s.takeNode i l).2 := by
  have hperm : (s.lru.erase i ++ s.sortListAdd i l).Perm (s.lru ++ l) :=
    ((sortListAdd_perm.append_left _).trans List.perm_middle).trans
      ((List.perm_cons_erase hi).symm.append_right l)
  refine ⟨hperm.trans h.perm, ?_, fun j hj => ?_, h.hash, h.sector, h.endStector, ?_⟩
  · exact h.dirty.trans (hperm.countP_eq _).symm
  · rcases List.mem_cons.mp (sortListAdd_perm.mem_iff.mp hj) with rfl | hj
    · exact hd
    · exact h.flushed j hj
  · exact ⟨h.writes.direct, h.writes.msgs, h.writes.data, h.writes.written, h.writes.refused⟩

/-- A visit of a node leaves the others where they are. -/
theorem CacheOk.flushVisit (h : CacheOk g e s l) (hi : i ∈ s.lru) (bFlush bInv : Bool) :
    CacheOk g e (s.flushVisit g bFlush bInv i l).1.1 (s.flushVisit g bFlush bInv i l).1.2 ∧
      (∀ j ∈ s.lru, j ≠ i → j ∈ (s.flushVisit g bFlush bInv i l).1.1.lru) ∧
      ∀ j ∈ (s.flushVisit g bFlush bInv i l).1.2,
        (j = i ∨ j ∈ l) ∧ (s.flushVisit g bFlush bInv i l).1.1.nodes j = s.nodes j := by
  unfold DiskCache.flushVisit
  by_cases hd : (s.nodes i).bDirty = true
  · rw [if_pos hd]
    cases bFlush with
    | false => exact ⟨h, fun _ hj _ => hj, fun j hj => ⟨.inr hj, rfl⟩⟩
    | true =>
      exact ⟨h.takeNode hi hd, fun j hj hne => (List.mem_erase_of_ne hne).mpr hj,
        fun j hj => ⟨List.mem_cons.mp (sortListAdd_perm.mem_iff.mp hj), rfl⟩⟩
  · rw [if_neg hd]
    rw [Bool.not_eq_true] at hd
    by_cases hinv : ((s.nodes i).bValid && bInv) = true
    · rw [if_pos hinv]
      refine ⟨h.hashRemove hd, fun _ hj _ => hj, fun j hj => ⟨.inr hj, ?_⟩⟩
      refine Function.update_of_ne ?_ _ _
      rintro rfl
      have hj := h.flushed j hj
      rw [dirtyAt, hd] at hj
      exact Bool.false_ne_true hj
    · rw [if_neg hinv]
      exact ⟨h, fun _ hj _ => hj, fun j hj => ⟨.inr hj, rfl⟩⟩

theorem CacheOk.rangeLoop {is flush : List ℕ} (h : CacheOk g e s flush) (hnodup : is.Nodup)
    (his : ∀ i ∈ is, i ∈ s.lru) (st en : ℕ) (bFlush bInv : Bool) :
    CacheOk g e (rangeLoop g st en bFlush bInv is (s, flush)).1
      (rangeLoop g st en bFlush bInv is (s, flush)).2 := by
  induction is generalizing s flush with
  | nil => exact h
  | cons i is ih =>
    obtain ⟨hi, hnodup⟩ := List.nodup_cons.mp hnodup
    rw [DiskCache.rangeLoop]
    split_ifs with hout
    · exact ih h hnodup fun j hj => his j (.tail _ hj)
    · obtain ⟨hok, hkeep, -⟩ := h.flushVisit (his i (.head _)) bFlush bInv
      exact ih hok hnodup fun j hj =>
        hkeep j (his j (.tail _ hj)) fun heq => hi (heq ▸ hj)

theorem CacheOk.cntLoop {is flush : List ℕ} {n : ℕ} (h : CacheOk g e s flush) (hnodup : is.Nodup)
    (his : ∀ i ∈ is, i ∈ s.lru) (bFlush bInv : Bool) :
    CacheOk g e (cntLoop g bFlush bInv is n (s, flush)).1
      (cntLoop g bFlush bInv is n (s, flush)).2 := by
  induction is generalizing s flush n with
  | nil => simpa [DiskCache.cntLoop] using h
  | cons i is ih =>
    obtain ⟨hi, hnodup⟩ := List.nodup_cons.mp hnodup
    cases n with
    | zero => simpa [DiskCache.cntLoop] using h
    | succ n =>
      obtain ⟨hok, hkeep, -⟩ := h.flushVisit (his i (.head _)) bFlush bInv
      rw [DiskCache.cntLoop]
      exact ih hok hnodup fun j hj =>
        hkeep j (his j (.tail _ hj)) fun heq => hi (heq ▸ hj)

theorem CacheOk.flushEnd {x : DiskCache α × List ℕ} (h : CacheOk g e x.1 x.2) (bInv : Bool) :
    Flushed g e x.1 (flushEnd g e x bInv).1 x.2 (bursts g x.1.nodes x.2.length x.2) :=
  flushList_spec h le_rfl bInv

theorem CacheOk.lru_reverse (h : CacheOk g e s []) :
    s.lru.reverse.Nodup ∧ ∀ i ∈ s.lru.reverse, i ∈ s.lru := by
  have hnodup := h.nodup
  rw [List.append_nil] at hnodup
  exact ⟨(List.reverse_perm _).nodup_iff.mpr hnodup, fun i hi => List.mem_reverse.mp hi⟩

theorem CacheOk.flushInvRange (h : CacheOk g e s []) (st en : ℕ) (bFlush bInv : Bool) :
    CacheOk g e (s.flushInvRange g e st en bFlush bInv).1 [] := by
  obtain ⟨hnodup, hmem⟩ := h.lru_reverse
  exact ((h.rangeLoop hnodup hmem st en bFlush bInv).flushEnd bInv).ok

theorem CacheOk.flushInvCnt (h : CacheOk g e s []) (n : ℤ) (bFlush bInv : Bool) :
    CacheOk g e (s.flushInvCnt g e n bFlush bInv).1 [] := by
  obtain ⟨hnodup, hmem⟩ := h.lru_reverse
  unfold DiskCache.flushInvCnt
  split_ifs
  · exact h
  · exact ((h.cntLoop hnodup hmem bFlush bInv).flushEnd bInv).ok

theorem ulSub_eq {a b : ℕ} (ha : a < g.ulMod) (hb : b < g.ulMod) :
    g.ulSub a b = if b ≤ a then a - b else a + g.ulMod - b := by
  unfold CacheConf.ulSub
  split_ifs with hle
  · have heq : a + (g.ulMod - b) = a - b + g.ulMod := by omega
    rw [heq, Nat.add_mod_right, Nat.mod_eq_of_lt (by omega)]
  · rw [Nat.mod_eq_of_lt (by omega)]
    omega

/-- A number is not counted down to twice. -/
theorem ulSub_inj {a b c : ℕ} (ha : a < g.ulMod) (hb : b < g.ulMod) (hc : c < g.ulMod)
    (h : g.ulSub a b = g.ulSub a c) : b = c := by
  rw [ulSub_eq ha hb, ulSub_eq ha hc] at h
  split_ifs at h <;> omega

theorem hashFind_some {sector : ℕ} (h : s.hashFind g sector = some i) :
    (s.nodes i).ulSectorNo = sector ∧ i ∈ s.hash (hashEntry g sector) :=
  ⟨by simpa using List.find?_some h, List.mem_of_find?_eq_some h⟩

/-- The loop over the sectors of a range finds each node once. -/
theorem CacheOk.metaLoop {flush : List ℕ} {i n en : ℕ} (h : CacheOk g e s flush) (hen : en < g.ulMod)
    (hn : i + n ≤ 32) (hvisited : ∀ j ∈ flush, ∃ k < i, (s.nodes j).ulSectorNo = g.ulSub en k)
    (bFlush bInv : Bool) :
    CacheOk g e (metaLoop g en bFlush bInv i n (s, flush)).1
      (metaLoop g en bFlush bInv i n (s, flush)).2 := by
  induction n generalizing i s flush with
  | zero => exact h
  | succ n ih =>
    have hmod := g.mod_ge
    rw [DiskCache.metaLoop]
    cases hfind : s.hashFind g (g.ulSub en i) with
    | none =>
      refine ih h (by omega) fun j hj => ?_
      obtain ⟨k, hk, heq⟩ := hvisited j hj
      exact ⟨k, by omega, heq⟩
    | some d =>
      obtain ⟨hsector, hmem⟩ := hashFind_some hfind
      have hlru : d ∈ s.lru := by
        refine (List.mem_append.mp (h.mem (h.hash _ d hmem))).resolve_right fun hd => ?_
        obtain ⟨k, hk, heq⟩ := hvisited d hd
        rw [hsector] at heq
        have := ulSub_inj hen (by omega) (by omega) heq
        omega
      obtain ⟨hok, -, hflush⟩ := h.flushVisit hlru bFlush bInv
      refine ih hok (by omega) fun j hj => ?_
      obtain ⟨hcase, hnode⟩ := hflush j hj
      rw [hnode]
      rcases hcase with rfl | hj
      · exact ⟨i, by omega, hsector⟩
      · obtain ⟨k, hk, heq⟩ := hvisited j hj
        exact ⟨k, by omega, heq⟩

theorem CacheOk.flushInvMeta (h : CacheOk g e s []) (st : ℕ) {en : ℕ} (hen : en < g.ulMod)
    (bFlush bInv : Bool) : CacheOk g e (s.flushInvMeta g e st en bFlush bInv).1 [] := by
  unfold DiskCache.flushInvMeta
  dsimp only
  split_ifs with hlong
  · exact h.flushInvRange st en bFlush bInv
  · exact ((h.metaLoop hen (by omega) (by simp) bFlush bInv).flushEnd bInv).ok

end SylixOS.Disk.DiskCache
