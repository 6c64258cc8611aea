import SylixOS.TpsFs.Inode

/-! # Deleting a file

`tpsFsInodeDelRef` frees what belongs to an inode. A file of many ranges needs several transactions:
each but the last ends with `TPS_ERR_TRANS_NEED_COMMIT`, is committed, and `tpsFsRemove` calls again.
What the volume below does is a parameter: the space tree, the block pool and the journal. -/

namespace SylixOS.TpsFs
open Lib

/-- A deletion under way, with the blocks that the space tree has got back. -/
structure Deleting (σ : Type) where
  vol : σ
  inode : TpsInode
  freed : List ℕ

variable {σ : Type} (psb : SuperBlock) (ops : VolOps σ)

namespace Deleting

/-- A range goes back to the space tree. -/
def freeBlk (s : Deleting σ) (blkStart blkCnt : ℕ) : Except TpsErr (Deleting σ) :=
  (ops.freeBlk s.vol blkStart blkCnt).map fun vol =>
    { s with vol := vol, freed := s.freed ++ List.range' blkStart blkCnt }

/-- A range has left the tree. -/
def cut (s : Deleting σ) (vol : σ) (t : Btree) (blkPscCnt : ℕ) : Deleting σ :=
  { s with vol := vol, inode := { s.inode with tree := t, blkCnt := s.inode.blkCnt - blkPscCnt } }

/-- The loop of `tpsFsTruncInode`, and how it is left early. -/
def truncLoop (blkStart : ℕ) : ℕ → Deleting σ → Deleting σ × Option TpsErr
  | 0, s => (s, none)
  | fuel + 1, s =>
    match tpsFsBtreeTrunc psb s.inode.tree blkStart with
    | .error _ => (s, none)
    | .ok (t, v, _) =>
      if v.blkCnt = 0 then (s, none)
      else
        match ops.putNode s.vol with
        | .error _ => (s, none)
        | .ok vol =>
          let s := s.cut vol t v.blkCnt
          match s.freeBlk ops v.blkStart v.blkCnt with
          | .error _ => (s, some .btreeInsert)
          | .ok s =>
            match ops.adjustBP s.vol with
            | .error _ => (s, some .bpAdjust)
            | .ok vol =>
              let s := { s with vol := vol }
              if ops.trigerChk vol then (s, some .transNeedCommit) else truncLoop blkStart fuel s

/-- The header of the inode goes into the transaction. -/
def writeHead (s : Deleting σ) : Deleting σ × Option TpsErr :=
  match ops.transWrite s.vol s.inode with
  | .error _ => (s, some .transWrite)
  | .ok vol => ({ s with vol := vol }, none)

/-- `tpsFsTruncInode`. Every round of the loop takes a block off at least. -/
def truncInode (s : Deleting σ) (size : ℕ) : Deleting σ × Option TpsErr :=
  if s.inode.deleted then (s, some .inodeDeleted)
  else if s.inode.szData < size then (s, some .inodeSize)
  else
    let blkStart := if size &&& psb.blkMask ≠ 0 then (size >>> psb.blkShift) + 1
      else size >>> psb.blkShift
    match truncLoop psb ops blkStart (tpsFsBtreeBlkCnt s.inode.tree + 1) s with
    | (s, some e) => (s, some e)
    | (s, none) =>
      if blkStart < tpsFsBtreeBlkCnt s.inode.tree then (s, some .btreeTrunc)
      else writeHead ops { s with inode := { s.inode with szData := size } }

/-- `IND_uiRefCnt++` on the way out. -/
def addRef (s : Deleting σ) : Deleting σ :=
  { s with inode := { s.inode with refCnt := s.inode.refCnt + 1 } }

def dropRef (s : Deleting σ) : Deleting σ :=
  { s with inode := { s.inode with refCnt := s.inode.refCnt - 1 } }

def markDeleted (s : Deleting σ) : Deleting σ := { s with inode := { s.inode with deleted := true } }

/-- The last reference is gone: the data and the inode. -/
def delInode (s : Deleting σ) : Deleting σ × Option TpsErr :=
  if 0 < s.inode.tree.level then
    writeHead ops (markDeleted { s with vol := ops.addToFreeList s.vol s.inode })
  else
    match truncInode psb ops s 0 with
    | (s, some e) => (s.addRef, some e)
    | (s, none) =>
      match s.freeBlk ops s.inode.inum 1 with
      | .error _ => (s, some .btreeInsert)
      | .ok s => writeHead ops s.markDeleted

/-- `tpsFsInodeDelRef`. -/
def inodeDelRef (s : Deleting σ) : Deleting σ × Option TpsErr :=
  if s.inode.deleted then (s, some .inodeDeleted)
  else
    let s := s.dropRef
    if s.inode.refCnt = 0 then
      match s.inode.hash with
      | none => delInode psb ops s
      | some (inumHash, hashTree) =>
        if 0 < tpsFsBtreeBlkCnt hashTree then (s.addRef, some .inodeHashNoEmpty)
        else
          match s.freeBlk ops inumHash 1 with
          | .error _ => (s.addRef, some .btreeInsert)
          | .ok s => delInode psb ops s
    else writeHead ops s

/-- One round of the loop of `tpsFsRemove`, and whether there is another. -/
def attempt (s : Deleting σ) : Deleting σ × Bool :=
  match ops.transAlloc s.vol with
  | none => (s, false)
  | some vol =>
    match inodeDelRef psb ops { s with vol := vol } with
    | (s, some .transNeedCommit) =>
      match ops.commit s.vol with
      | .error _ => (s, false)
      | .ok vol => ({ s with vol := vol }, true)
    | (s, some _) => (s, false)
    | (s, none) =>
      match ops.entryRemove s.vol with
      | .error _ => (s, false)
      | .ok vol =>
        match ops.commit vol with
        | .error _ => ({ s with vol := vol }, false)
        | .ok vol => ({ s with vol := vol }, false)

/-- The loop of `tpsFsRemove`, for so many rounds at most. -/
def removeLoop : ℕ → Deleting σ → Deleting σ
  | 0, s => s
  | fuel + 1, s =>
    match attempt psb ops s with
    | (s, false) => s
    | (s, true) => removeLoop fuel s

/-! ## What has been freed -/

variable {psb ops} {s s' : Deleting σ} {L file : List ℕ} {b size blkStart blkCnt fuel : ℕ}
  {e : Option TpsErr}

/-- What has been freed and what is still in the file are parts of `L`, each block as often as there.
-/
def Owns (psb : SuperBlock) (s : Deleting σ) (L : List ℕ) : Prop :=
  ∃ file, s.inode.tree.Maps psb file ∧ ∀ b, s.freed.count b + file.count b ≤ L.count b

/-- Only the data of the inode have changed, and more is freed. -/
structure Onward (s s' : Deleting σ) : Prop where
  freed : s.freed <+: s'.freed
  inum : s'.inode.inum = s.inode.inum
  hash : s'.inode.hash = s.inode.hash
  refCnt : s'.inode.refCnt = s.inode.refCnt
  deleted : s'.inode.deleted = s.inode.deleted

theorem Onward.refl (s : Deleting σ) : Onward s s := ⟨List.prefix_rfl, rfl, rfl, rfl, rfl⟩

theorem Onward.trans {s'' : Deleting σ} (h : Onward s s') (h' : Onward s' s'') : Onward s s'' where
  freed := h.freed.trans h'.freed
  inum := h'.inum.trans h.inum
  hash := h'.hash.trans h.hash
  refCnt := h'.refCnt.trans h.refCnt
  deleted := h'.deleted.trans h.deleted

theorem Owns.append (h : s.Owns psb L) (l : List ℕ) : s.Owns psb (L ++ l) := by
  obtain ⟨file, hmaps, hcount⟩ := h
  refine ⟨file, hmaps, fun b => ?_⟩
  rw [List.count_append]
  exact (hcount b).trans (Nat.le_add_right _ _)

theorem Owns.nodup (h : s.Owns psb L) (hL : L.Nodup) : s.freed.Nodup := by
  obtain ⟨file, -, hcount⟩ := h
  rw [List.nodup_iff_count] at hL ⊢
  exact fun b => (Nat.le_add_right _ _).trans ((hcount b).trans (hL b))

theorem freeBlk_eq (h : s.freeBlk ops blkStart blkCnt = .ok s') : ∃ vol,
    ops.freeBlk s.vol blkStart blkCnt = .ok vol ∧
      s' = { s with vol := vol, freed := s.freed ++ List.range' blkStart blkCnt } := by
  unfold freeBlk at h
  cases hv : ops.freeBlk s.vol blkStart blkCnt with
  | error e =>
    rw [hv] at h
    cases h
  | ok vol =>
    rw [hv] at h
    cases h
    exact ⟨vol, rfl, rfl⟩

theorem freeBlk_onward (h : s.freeBlk ops blkStart blkCnt = .ok s') : Onward s s' := by
  obtain ⟨vol, -, rfl⟩ := freeBlk_eq h
  exact ⟨List.prefix_append _ _, rfl, rfl, rfl, rfl⟩

/-- A block that is not of the data. -/
theorem freeBlk_owns (h : s.freeBlk ops b 1 = .ok s') (hown : s.Owns psb L) :
    s'.Owns psb (L ++ [b]) := by
  obtain ⟨vol, -, rfl⟩ := freeBlk_eq h
  obtain ⟨file, hmaps, hcount⟩ := hown
  refine ⟨file, hmaps, fun c => ?_⟩
  have := hcount c
  rw [List.count_append, List.count_append, List.range'_one]
  omega

theorem truncLoop_spec (ops : VolOps σ) (blkStart fuel : ℕ) (hown : s.Owns psb L) :
    (truncLoop psb ops blkStart fuel s).1.Owns psb L ∧
      Onward s (truncLoop psb ops blkStart fuel s).1 := by
  induction fuel generalizing s with
  | zero => exact ⟨hown, .refl s⟩
  | succ fuel ih =>
    obtain ⟨file, hmaps, hcount⟩ := hown
    have hself : s.Owns psb L ∧ Onward s s := ⟨⟨file, hmaps, hcount⟩, .refl s⟩
    rw [truncLoop]
    cases htrunc : tpsFsBtreeTrunc psb s.inode.tree blkStart with
    | error e => exact hself
    | ok res =>
      obtain ⟨t, v, freed⟩ := res
      obtain ⟨file', hmaps', rfl, -⟩ := tpsFsBtreeTrunc_spec hmaps htrunc
      simp only [List.count_append] at hcount
      simp only
      split_ifs
      · exact hself
      cases hput : ops.putNode s.vol with
      | error e => exact hself
      | ok vol =>
        simp only
        have hcut : Onward s (s.cut vol t v.blkCnt) := ⟨List.prefix_rfl, rfl, rfl, rfl, rfl⟩
        cases hfree : (s.cut vol t v.blkCnt).freeBlk ops v.blkStart v.blkCnt with
        | error e =>
          refine ⟨⟨file', hmaps', fun b => ?_⟩, hcut⟩
          have := hcount b
          change s.freed.count b + _ ≤ _
          omega
        | ok s₁ =>
          have hs₁ := hcut.trans (freeBlk_onward hfree)
          obtain ⟨vol₁, -, rfl⟩ := freeBlk_eq hfree
          simp only
          cases hadj : ops.adjustBP vol₁ with
          | error e =>
            refine ⟨⟨file', hmaps', fun b => ?_⟩, hs₁⟩
            have := hcount b
            change (s.freed ++ _).count b + _ ≤ _
            rw [List.count_append]
            omega
          | ok vol₂ =>
            have hown₂ : Owns psb ⟨vol₂, (s.cut vol t v.blkCnt).inode,
                s.freed ++ List.range' v.blkStart v.blkCnt⟩ L := by
              refine ⟨file', hmaps', fun b => ?_⟩
              have := hcount b
              simp only [List.count_append]
              omega
            have hs₂ : Onward s ⟨vol₂, (s.cut vol t v.blkCnt).inode,
                s.freed ++ List.range' v.blkStart v.blkCnt⟩ :=
              ⟨hs₁.freed, hs₁.inum, hs₁.hash, hs₁.refCnt, hs₁.deleted⟩
            simp only
            split_ifs
            · exact ⟨hown₂, hs₂⟩
            · exact ⟨(ih hown₂).1, hs₂.trans (ih hown₂).2⟩

theorem writeHead_spec (ops : VolOps σ) (s : Deleting σ) : Onward s (writeHead ops s).1 ∧
    (writeHead ops s).1.inode = s.inode ∧ (writeHead ops s).1.freed = s.freed ∧
      (writeHead ops s).2 ≠ some .transNeedCommit := by
  unfold writeHead
  cases ops.transWrite s.vol s.inode with
  | error e => exact ⟨.refl s, rfl, rfl, nofun⟩
  | ok vol => exact ⟨⟨List.prefix_rfl, rfl, rfl, rfl, rfl⟩, rfl, rfl, nofun⟩

theorem writeHead_owns (hown : s.Owns psb L) : (writeHead ops s).1.Owns psb L := by
  obtain ⟨-, hinode, hfreed, -⟩ := writeHead_spec ops s
  unfold Owns
  rw [hinode, hfreed]
  exact hown

theorem truncInode_spec (ops : VolOps σ) (size : ℕ) (hown : s.Owns psb L) :
    (truncInode psb ops s size).1.Owns psb L ∧ Onward s (truncInode psb ops s size).1 := by
  unfold truncInode
  generalize (if size &&& psb.blkMask ≠ 0 then (size >>> psb.blkShift) + 1
    else size >>> psb.blkShift) = blkStart
  by_cases hdel : s.inode.deleted = true
  · rw [if_pos hdel]
    exact ⟨hown, .refl s⟩
  rw [if_neg hdel]
  by_cases hsize : s.inode.szData < size
  · rw [if_pos hsize]
    exact ⟨hown, .refl s⟩
  rw [if_neg hsize]
  obtain ⟨hown', hon⟩ :=
    truncLoop_spec ops blkStart (tpsFsBtreeBlkCnt s.inode.tree + 1) hown
  simp only
  generalize truncLoop psb ops blkStart (tpsFsBtreeBlkCnt s.inode.tree + 1) s = r at hown' hon
  obtain ⟨s₁, e⟩ := r
  cases e with
  | some e => exact ⟨hown', hon⟩
  | none =>
    simp only
    split_ifs
    · exact ⟨hown', hon⟩
    · have hsz : Owns psb { s₁ with inode := { s₁.inode with szData := size } } L := hown'
      have hon' : Onward s₁ { s₁ with inode := { s₁.inode with szData := size } } :=
        ⟨List.prefix_rfl, rfl, rfl, rfl, rfl⟩
      exact ⟨writeHead_owns hsz, (hon.trans hon').trans (writeHead_spec ops _).1⟩

/-- A transaction that has to be committed before the deletion goes on. -/
structure NeedsCommit (psb : SuperBlock) (s s' : Deleting σ) (L : List ℕ) : Prop where
  owns : s'.Owns psb L
  inum : s'.inode.inum = s.inode.inum
  hash : s'.inode.hash = s.inode.hash
  refCnt : s'.inode.refCnt = s.inode.refCnt + 1
  deleted : s'.inode.deleted = s.inode.deleted

theorem markDeleted_onward (h : Onward s s') : s.freed <+: (writeHead ops s'.markDeleted).1.freed :=
  h.freed.trans (writeHead_spec ops s'.markDeleted).1.freed

theorem delInode_spec (ops : VolOps σ) (hown : s.Owns psb L) :
    (delInode psb ops s).1.Owns psb (L ++ [s.inode.inum]) ∧ s.freed <+: (delInode psb ops s).1.freed ∧
      ((delInode psb ops s).2 = some .transNeedCommit →
        NeedsCommit psb s (delInode psb ops s).1 L) := by
  unfold delInode
  by_cases hlevel : 0 < s.inode.tree.level
  · rw [if_pos hlevel]
    have hlist : (markDeleted { s with vol := ops.addToFreeList s.vol s.inode }).Owns psb L := hown
    have hon : Onward s { s with vol := ops.addToFreeList s.vol s.inode } :=
      ⟨List.prefix_rfl, rfl, rfl, rfl, rfl⟩
    exact ⟨(writeHead_owns hlist).append _, markDeleted_onward hon,
      fun h => absurd h (writeHead_spec ops _).2.2.2⟩
  · rw [if_neg hlevel]
    obtain ⟨hown', hon⟩ := truncInode_spec ops 0 hown
    generalize truncInode psb ops s 0 = r at hown' hon
    obtain ⟨s₁, e⟩ := r
    cases e with
    | some e =>
      have hadd : s₁.addRef.Owns psb L := hown'
      refine ⟨hadd.append _, hon.freed, fun _ => ⟨hadd, hon.inum, hon.hash, ?_, hon.deleted⟩⟩
      exact congrArg (· + 1) hon.refCnt
    | none =>
      simp only
      cases hfree : s₁.freeBlk ops s₁.inode.inum 1 with
      | error e => exact ⟨hown'.append _, hon.freed, nofun⟩
      | ok s₂ =>
        have hown₂ := freeBlk_owns hfree hown'
        rw [hon.inum] at hown₂
        have hdel : s₂.markDeleted.Owns psb (L ++ [s.inode.inum]) := hown₂
        exact ⟨writeHead_owns hdel, markDeleted_onward (hon.trans (freeBlk_onward hfree)),
          fun h => absurd h (writeHead_spec ops _).2.2.2⟩

/-- The last reference of an inode whose hash tree is empty. -/
structure LastRef (s : Deleting σ) (b : ℕ) (th : Btree) : Prop where
  deleted : s.inode.deleted = false
  refCnt : s.inode.refCnt - 1 = 0
  hash : s.inode.hash = some (b, th)
  empty : tpsFsBtreeBlkCnt th = 0

/-- The block of the hash inode is freed first, in every call. -/
theorem LastRef.inodeDelRef_eq {th : Btree} (h : LastRef s b th) : inodeDelRef psb ops s =
    match s.dropRef.freeBlk ops b 1 with
    | .error _ => (s.dropRef.addRef, some .btreeInsert)
    | .ok s => delInode psb ops s := by
  have href : s.dropRef.inode.refCnt = 0 := h.refCnt
  have hhash : s.dropRef.inode.hash = some (b, th) := h.hash
  simp only [inodeDelRef, h.deleted, href, hhash, h.empty, Bool.false_eq_true, if_false, if_true,
    lt_irrefl]

theorem inodeDelRef_none (ops : VolOps σ) (hhash : s.inode.hash = none) (hown : s.Owns psb L) :
    (inodeDelRef psb ops s).1.Owns psb (L ++ [s.inode.inum]) ∧
      s.freed <+: (inodeDelRef psb ops s).1.freed ∧
      ((inodeDelRef psb ops s).2 = some .transNeedCommit → (inodeDelRef psb ops s).1.Owns psb L ∧
        (inodeDelRef psb ops s).1.inode.hash = none ∧
        (inodeDelRef psb ops s).1.inode.inum = s.inode.inum) := by
  have hdrop : s.dropRef.Owns psb L := hown
  have hhash' : s.dropRef.inode.hash = none := hhash
  unfold inodeDelRef
  split_ifs
  · exact ⟨hown.append _, List.prefix_rfl, nofun⟩
  simp only
  split_ifs
  · rw [hhash']
    obtain ⟨howns, hfreed, hneed⟩ := delInode_spec ops hdrop
    refine ⟨howns, hfreed, fun h => ?_⟩
    exact ⟨(hneed h).owns, (hneed h).hash.trans hhash, (hneed h).inum⟩
  · exact ⟨(writeHead_owns hdrop).append _, (writeHead_spec ops s.dropRef).1.freed,
      fun h => absurd h (writeHead_spec ops _).2.2.2⟩

theorem inodeDelRef_some (ops : VolOps σ) {th : Btree} (hhash : s.inode.hash = some (b, th))
    (hown : s.Owns psb L) :
    (inodeDelRef psb ops s).1.Owns psb (L ++ [b] ++ [s.inode.inum]) ∧
      s.freed <+: (inodeDelRef psb ops s).1.freed ∧
      ((inodeDelRef psb ops s).2 = some .transNeedCommit →
        (inodeDelRef psb ops s).1.Owns psb (L ++ [b]) ∧ LastRef (inodeDelRef psb ops s).1 b th ∧
          s.freed ++ [b] <+: (inodeDelRef psb ops s).1.freed) := by
  have hdrop : s.dropRef.Owns psb L := hown
  have hhash' : s.dropRef.inode.hash = some (b, th) := hhash
  have hsame : s.dropRef.addRef.Owns psb (L ++ [b] ++ [s.inode.inum]) := (hdrop.append _).append _
  by_cases hdel : s.inode.deleted = true
  · rw [inodeDelRef, if_pos hdel]
    exact ⟨(hown.append _).append _, List.prefix_rfl, nofun⟩
  by_cases href : s.dropRef.inode.refCnt = 0
  · by_cases hempty : tpsFsBtreeBlkCnt th = 0
    · have hlast : LastRef s b th := ⟨by simpa using hdel, href, hhash, hempty⟩
      rw [hlast.inodeDelRef_eq]
      cases hfree : s.dropRef.freeBlk ops b 1 with
      | error e => exact ⟨hsame, List.prefix_rfl, nofun⟩
      | ok s₁ =>
        have hon := freeBlk_onward hfree
        have hfreed : s₁.freed = s.freed ++ [b] := by
          obtain ⟨vol, -, rfl⟩ := freeBlk_eq hfree
          rw [List.range'_one]
          rfl
        obtain ⟨howns, hprefix, hneed⟩ := delInode_spec ops (freeBlk_owns hfree hdrop)
        rw [hon.inum] at howns
        refine ⟨howns, hon.freed.trans hprefix, fun h => ⟨(hneed h).owns, ⟨?_, ?_, ?_, hempty⟩, ?_⟩⟩
        · exact ((hneed h).deleted.trans hon.deleted).trans hlast.deleted
        · rw [(hneed h).refCnt, hon.refCnt, href]
        · exact ((hneed h).hash.trans hon.hash).trans hhash
        · rw [← hfreed]
          exact hprefix
    · have hpos : 0 < tpsFsBtreeBlkCnt th := Nat.pos_of_ne_zero hempty
      simp only [inodeDelRef, if_neg hdel, if_pos href, hhash', if_pos hpos]
      exact ⟨hsame, List.prefix_rfl, nofun⟩
  · simp only [inodeDelRef, if_neg hdel, if_neg href]
    exact ⟨((writeHead_owns hdrop).append _).append _, (writeHead_spec ops s.dropRef).1.freed,
      fun h => absurd h (writeHead_spec ops _).2.2.2⟩

/-! ## The loop -/

/-- A round: how it ends, seen from what `tpsFsInodeDelRef` has done. -/
theorem attempt_cases (psb : SuperBlock) (ops : VolOps σ) (s : Deleting σ) :
    ((attempt psb ops s).1.freed = s.freed ∧ (attempt psb ops s).1.inode = s.inode ∧
      (attempt psb ops s).2 = false ∧ ops.transAlloc s.vol = none) ∨
    ∃ vol, ops.transAlloc s.vol = some vol ∧
      (attempt psb ops s).1.freed = (inodeDelRef psb ops { s with vol := vol }).1.freed ∧
      (attempt psb ops s).1.inode = (inodeDelRef psb ops { s with vol := vol }).1.inode ∧
      ((attempt psb ops s).2 = true →
        (inodeDelRef psb ops { s with vol := vol }).2 = some .transNeedCommit) := by
  unfold attempt
  cases halloc : ops.transAlloc s.vol with
  | none => exact .inl ⟨rfl, rfl, rfl, rfl⟩
  | some vol =>
    refine .inr ⟨vol, rfl, ?_⟩
    simp only
    generalize inodeDelRef psb ops { s with vol := vol } = r
    obtain ⟨s₁, e⟩ := r
    split
    · next s₂ heq =>
      cases heq
      cases ops.commit s₁.vol with
      | error e => exact ⟨rfl, rfl, nofun⟩
      | ok vol => exact ⟨rfl, rfl, fun _ => rfl⟩
    · next s₂ e' hne heq =>
      cases heq
      exact ⟨rfl, rfl, nofun⟩
    · next s₂ heq =>
      cases heq
      cases ops.entryRemove s₁.vol with
      | error e => exact ⟨rfl, rfl, nofun⟩
      | ok vol =>
        simp only
        cases ops.commit vol with
        | error e => exact ⟨rfl, rfl, nofun⟩
        | ok vol => exact ⟨rfl, rfl, nofun⟩

theorem attempt_owns (ops : VolOps σ) (hown : s.Owns psb L) :
    ∃ L', (attempt psb ops s).1.Owns psb L' ∧ s.freed <+: (attempt psb ops s).1.freed := by
  unfold Owns
  rcases attempt_cases psb ops s with ⟨hfreed, hinode, -⟩ |
    ⟨vol, -, hfreed, hinode, -⟩
  · rw [hfreed, hinode]
    exact ⟨L, hown, List.prefix_rfl⟩
  · have hvol : Owns psb { s with vol := vol } L := hown
    rw [hfreed, hinode]
    cases hhash : s.inode.hash with
    | none =>
      obtain ⟨hown', hpre, -⟩ := inodeDelRef_none ops (s := { s with vol := vol }) hhash hvol
      exact ⟨_, hown', hpre⟩
    | some h =>
      obtain ⟨hown', hpre, -⟩ := inodeDelRef_some ops (s := { s with vol := vol }) hhash hvol
      exact ⟨_, hown', hpre⟩

theorem removeLoop_prefix (hown : s.Owns psb L) : s.freed <+: (removeLoop psb ops fuel s).freed := by
  induction fuel generalizing s L with
  | zero => exact List.prefix_rfl
  | succ fuel ih =>
    obtain ⟨L', hown', hpre⟩ := attempt_owns ops hown
    rw [removeLoop]
    generalize attempt psb ops s = r at hown' hpre
    obtain ⟨s₁, again⟩ := r
    cases again with
    | false => exact hpre
    | true => exact hpre.trans (ih hown')

theorem attempt_none (ops : VolOps σ) (hhash : s.inode.hash = none) (hown : s.Owns psb L) :
    (attempt psb ops s).1.Owns psb (L ++ [s.inode.inum]) ∧
      ((attempt psb ops s).2 = true → (attempt psb ops s).1.Owns psb L ∧
        (attempt psb ops s).1.inode.hash = none ∧
        (attempt psb ops s).1.inode.inum = s.inode.inum) := by
  unfold Owns
  rcases attempt_cases psb ops s with ⟨hfreed, hinode, hend, -⟩ |
    ⟨vol, -, hfreed, hinode, hend⟩
  · rw [hfreed, hinode, hend]
    exact ⟨hown.append _, nofun⟩
  · have hvol : Owns psb { s with vol := vol } L := hown
    obtain ⟨howns, -, hneed⟩ :=
      inodeDelRef_none ops (s := { s with vol := vol }) hhash hvol
    rw [hfreed, hinode]
    exact ⟨howns, fun h => hneed (hend h)⟩

theorem attempt_some (ops : VolOps σ) {th : Btree} (hhash : s.inode.hash = some (b, th))
    (hown : s.Owns psb L) :
    (attempt psb ops s).1.Owns psb (L ++ [b] ++ [s.inode.inum]) ∧
      ((attempt psb ops s).2 = true → LastRef (attempt psb ops s).1 b th ∧
        s.freed ++ [b] <+: (attempt psb ops s).1.freed) := by
  unfold Owns
  rcases attempt_cases psb ops s with ⟨hfreed, hinode, hend, -⟩ |
    ⟨vol, -, hfreed, hinode, hend⟩
  · rw [hfreed, hinode, hend]
    exact ⟨(hown.append _).append _, nofun⟩
  · have hvol : Owns psb { s with vol := vol } L := hown
    obtain ⟨howns, -, hneed⟩ :=
      inodeDelRef_some ops (s := { s with vol := vol }) hhash hvol
    rw [hfreed, hinode]
    refine ⟨howns, fun h => ?_⟩
    obtain ⟨-, ⟨hdel, href, hhash', hempty⟩, hpre⟩ := hneed (hend h)
    exact ⟨⟨hinode ▸ hdel, hinode ▸ href, hinode ▸ hhash', hempty⟩, hpre⟩

/-- Without a hash inode nothing is freed twice. -/
theorem removeLoop_none (hhash : s.inode.hash = none) (hown : s.Owns psb L) :
    (removeLoop psb ops fuel s).Owns psb (L ++ [s.inode.inum]) := by
  induction fuel generalizing s with
  | zero => exact hown.append _
  | succ fuel ih =>
    obtain ⟨howns, hneed⟩ := attempt_none ops hhash hown
    rw [removeLoop]
    generalize attempt psb ops s = r at howns hneed
    obtain ⟨s₁, again⟩ := r
    cases again with
    | false => exact howns
    | true =>
      obtain ⟨hown₁, hhash₁, hinum⟩ := hneed rfl
      exact hinum ▸ ih hhash₁ hown₁

/-- The space tree would take the block of the hash inode. -/
def TakesHash (ops : VolOps σ) (s : Deleting σ) : Prop :=
  ∃ b th vol vol', s.inode.hash = some (b, th) ∧ ops.transAlloc s.vol = some vol ∧
    ops.freeBlk vol b 1 = .ok vol'

/-- A new call frees the block again, or it ends there. -/
theorem LastRef.attempt (ops : VolOps σ) {th : Btree} (h : LastRef s b th) (hown : s.Owns psb L) :
    (s.TakesHash ops → s.freed ++ [b] <+: (attempt psb ops s).1.freed) ∧
      (¬ s.TakesHash ops → (attempt psb ops s).1.freed = s.freed ∧ (attempt psb ops s).2 = false) := by
  rcases attempt_cases psb ops s with ⟨hfreed, -, hend, hnone⟩ |
    ⟨vol, halloc, hfreed, -, hend⟩
  · refine ⟨fun ⟨b', th', vol, vol', _, halloc, _⟩ => ?_, fun _ => ⟨hfreed, hend⟩⟩
    rw [hnone] at halloc
    cases halloc
  · have hlast : LastRef { s with vol := vol } b th := ⟨h.deleted, h.refCnt, h.hash, h.empty⟩
    rw [hlast.inodeDelRef_eq] at hfreed hend
    cases hfree : (dropRef { s with vol := vol }).freeBlk ops b 1 with
    | error e =>
      rw [hfree] at hfreed hend
      refine ⟨fun ⟨b', th', vol₁, vol', hhash', halloc', hok⟩ => ?_, fun _ => ⟨hfreed, ?_⟩⟩
      · rw [halloc] at halloc'
        rw [h.hash] at hhash'
        cases halloc'
        cases hhash'
        have hvol : ops.freeBlk vol b 1 = .ok vol' := hok
        simp [freeBlk, dropRef, hvol, Except.map] at hfree
      · rw [Bool.eq_false_iff]
        exact fun ht => absurd (hend ht) nofun
    | ok s₁ =>
      rw [hfree] at hfreed hend
      obtain ⟨vol', hok, rfl⟩ := freeBlk_eq hfree
      refine ⟨fun _ => ?_, fun hno => absurd ⟨b, th, vol, vol', h.hash, halloc, hok⟩ hno⟩
      rw [hfreed]
      have hpre := (delInode_spec ops (freeBlk_owns hfree hown)).2.1
      rw [List.range'_one] at hpre
      exact hpre

/-- A file that is to be deleted: its blocks, that of its hash inode and its own are all different. -/
structure Ready (psb : SuperBlock) (s : Deleting σ) (file : List ℕ) : Prop where
  maps : s.inode.tree.Maps psb file
  freed : s.freed = []
  nodup : (file ++ (s.inode.hash.map Prod.fst).toList ++ [s.inode.inum]).Nodup

theorem Ready.owns (h : s.Ready psb file) : s.Owns psb file := by
  refine ⟨file, h.maps, fun b => ?_⟩
  rw [h.freed, List.count_nil, Nat.zero_add]

/-- A deletion frees no block twice, unless the first transaction of an inode with a hash inode has to
be committed before it is through, and the space tree takes the block of the hash inode again. -/
theorem removeLoop_nodup_iff (h : s.Ready psb file) (n : ℕ) :
    (removeLoop psb ops (n + 2) s).freed.Nodup ↔
      ¬((attempt psb ops s).2 = true ∧ (attempt psb ops s).1.TakesHash ops) := by
  have hown := h.owns
  have hnodup := h.nodup
  cases hhash : s.inode.hash with
  | none =>
    rw [hhash] at hnodup
    simp only [Option.map_none, Option.toList_none, List.append_nil] at hnodup
    refine iff_of_true ((removeLoop_none hhash hown).nodup hnodup) ?_
    rintro ⟨hagain, b, th, vol, vol', hsome, -⟩
    rw [((attempt_none ops hhash hown).2 hagain).2.1] at hsome
    cases hsome
  | some p =>
    obtain ⟨b, th⟩ := p
    rw [hhash] at hnodup
    obtain ⟨howns, hneed⟩ := attempt_some ops hhash hown
    have hfirst : (attempt psb ops s).1.freed.Nodup := howns.nodup hnodup
    rw [removeLoop]
    generalize attempt psb ops s = r at howns hneed hfirst
    obtain ⟨s₁, again⟩ := r
    cases again with
    | false => exact iff_of_true hfirst (by simp)
    | true =>
      obtain ⟨hlast, hpre⟩ := hneed rfl
      obtain ⟨htakes, hstops⟩ := hlast.attempt ops howns
      simp only [true_and]
      by_cases hmay : s₁.TakesHash ops
      · refine iff_of_false (fun hnd => ?_) (not_not.mpr hmay)
        obtain ⟨L', hown', -⟩ := attempt_owns ops howns
        have hrun : (attempt psb ops s₁).1.freed <+: (removeLoop psb ops (n + 1) s₁).freed := by
          rw [removeLoop]
          generalize attempt psb ops s₁ = r at hown'
          obtain ⟨s₂, again⟩ := r
          cases again with
          | false => exact List.prefix_rfl
          | true => exact removeLoop_prefix hown'
        have htwice := hnd.sublist ((htakes hmay).trans hrun).sublist
        have hmem : b ∈ s₁.freed := hpre.subset (by simp)
        exact absurd (List.nodup_append.mp htwice).2.2 fun hdisj => hdisj b hmem b (.head _) rfl
      · obtain ⟨hsame, hend⟩ := hstops hmay
        have hrun : (removeLoop psb ops (n + 1) s₁).freed = s₁.freed := by
          rw [removeLoop]
          generalize attempt psb ops s₁ = r at hsame hend
          obtain ⟨s₂, again⟩ := r
          cases hend
          exact hsame
        exact iff_of_true (hrun ▸ hfirst) hmay

/-! ## An empty directory -/

/-- A volume with its space tree, and the place of the transaction in the journal. -/
structure SmallVol where
  space : Space
  dataSecNum : ℕ
  dataSecCnt : ℕ

/-- A sector of the journal that a change takes. -/
def SmallVol.logged (v : SmallVol) : SmallVol := { v with dataSecCnt := v.dataSecCnt + 1 }

/-- Where `tpsFsTransTrigerChk` wants a commit: the journal has 2046 sectors from 30722 on. -/
def smallLimit : ℕ := 30722 + 2046 - 0x400

/-- A block pool that is neither too small nor too large is left alone. -/
def smallOps : VolOps SmallVol where
  transAlloc v := some { v with dataSecCnt := 0 }
  freeBlk v blkStart blkCnt :=
    (tpsFsBtreeFreeBlk BlkMap.smallPsb v.space blkStart blkStart blkCnt).map fun space =>
      { v.logged with space := space }
  putNode v := .ok v.logged
  adjustBP v := if 64 < v.space.pool.length ∧ v.space.pool.length < 128 then .ok v else .error .bpAlloc
  trigerChk v := smallLimit < v.dataSecNum + v.dataSecCnt
  transWrite v _ := .ok v.logged
  addToFreeList v _ := v.logged
  entryRemove v := .ok v.logged
  commit v := .ok
    { v with
      dataSecNum := if smallLimit ≤ v.dataSecNum + v.dataSecCnt then 30722
        else v.dataSecNum + v.dataSecCnt
      dataSecCnt := 0 }

/-- A directory with one block that holds no entry any more, and a hash inode behind free blocks. -/
def emptyDir (dataSecNum : ℕ) : Deleting SmallVol where
  vol := ⟨⟨⟨0, ⟨1, rootCap BlkMap.smallPsb 0, [(150, ⟨150, 50⟩)]⟩⟩, List.range' 300 96⟩, dataSecNum, 0⟩
  inode :=
    { inum := 30
      hash := some (200, tpsFsBtreeInit BlkMap.smallPsb 200)
      refCnt := 1
      deleted := false
      szData := 256
      blkCnt := 1
      sync := false
      tree := ⟨0, ⟨30, rootCap BlkMap.smallPsb 0, [(0, ⟨50, 1⟩)]⟩⟩ }
  freed := []

theorem emptyDir_ready (dataSecNum : ℕ) : (emptyDir dataSecNum).Ready BlkMap.smallPsb [50] where
  maps := ⟨⟨trivial, by simp [Btree.items, items, emptyDir, Sorted], nofun,
    (by decide : 1 ≤ rootCap BlkMap.smallPsb 0), rfl⟩, ⟨rfl, trivial⟩, rfl, by decide⟩
  freed := rfl
  nodup := (by decide : [50, 200, 30].Nodup)

set_option maxRecDepth 8000 in
/-- At the start of the journal one transaction is enough. -/
theorem removeLoop_nodup_iff_start :
    (removeLoop BlkMap.smallPsb smallOps 3 (emptyDir 30722)).freed.Nodup := by
  refine (removeLoop_nodup_iff (emptyDir_ready 30722) 1).mpr fun h => ?_
  have hend : (attempt BlkMap.smallPsb smallOps (emptyDir 30722)).2 = false := rfl
  exact absurd (hend.symm.trans h.1) Bool.false_ne_true

set_option maxRecDepth 8000 in
/-- Near its end the block of the hash inode is freed in both transactions. -/
theorem hash_freed_twice : (emptyDir 31742).Ready BlkMap.smallPsb [50] ∧
    (removeLoop BlkMap.smallPsb smallOps 3 (emptyDir 31742)).freed = [200, 50, 200, 30] ∧
    ¬(removeLoop BlkMap.smallPsb smallOps 3 (emptyDir 31742)).freed.Nodup := by
  have hfreed : (removeLoop BlkMap.smallPsb smallOps 3 (emptyDir 31742)).freed = [200, 50, 200, 30] :=
    rfl
  refine ⟨emptyDir_ready 31742, hfreed, ?_⟩
  rw [hfreed]
  decide

end Deleting
end SylixOS.TpsFs
