import SylixOS.TpsFs.File.Trans

/-! # Cutting a file, and reading it

A file that is cut loses blocks in one transaction or several. Until the last one its size is the old
one, though only the bytes up to the new size are still there. -/

namespace SylixOS.TpsFs
open Lib Blocks Contents

variable {σ : Type} {psb : SuperBlock} {file : List ℕ} {size fuel : ℕ} {buf : List UInt8}

/-! ## One transaction -/

namespace Deleting
variable {ops : VolOps σ} {s s' : Deleting σ} {e : Option TpsErr} {blkStart : ℕ}

/-- Only blocks behind a place have left the file. -/
structure Shrunk (psb : SuperBlock) (s s' : Deleting σ) (file file' : List ℕ) (blkStart : ℕ) : Prop where
  maps : s'.inode.tree.Maps psb file'
  pre : file' <+: file
  keeps : file' = file ∨ blkStart ≤ file'.length
  cnt : s.inode.blkCnt = file.length → s'.inode.blkCnt = file'.length
  szData : s'.inode.szData = s.inode.szData

theorem Shrunk.refl (hmaps : s.inode.tree.Maps psb file) : Shrunk psb s s file file blkStart :=
  ⟨hmaps, List.prefix_rfl, .inl rfl, id, rfl⟩

theorem Shrunk.trans {s₁ : Deleting σ} {file₁ file' : List ℕ} (h : Shrunk psb s s₁ file file₁ blkStart)
    (h' : Shrunk psb s₁ s' file₁ file' blkStart) : Shrunk psb s s' file file' blkStart where
  maps := h'.maps
  pre := h'.pre.trans h.pre
  keeps := h'.keeps.elim (fun heq => heq ▸ h.keeps) .inr
  cnt := fun hcnt => h'.cnt (h.cnt hcnt)
  szData := h'.szData.trans h.szData

theorem truncLoop_shrunk (hmaps : s.inode.tree.Maps psb file)
    (h : truncLoop psb ops blkStart fuel s = (s', e)) : ∃ file',
      Shrunk psb s s' file file' blkStart ∧ (e = some .transNeedCommit → file'.length < file.length) := by
  induction fuel generalizing s file with
  | zero =>
    cases h
    exact ⟨file, .refl hmaps, by rintro ⟨⟩⟩
  | succ fuel ih =>
    rw [truncLoop] at h
    cases htrunc : tpsFsBtreeTrunc psb s.inode.tree blkStart with
    | error e =>
      rw [htrunc] at h
      cases h
      exact ⟨file, .refl hmaps, by rintro ⟨⟩⟩
    | ok res =>
      obtain ⟨t, v, freed⟩ := res
      obtain ⟨file', hmaps', rfl, hkeep, -⟩ := tpsFsBtreeTrunc_spec hmaps htrunc
      rw [htrunc] at h
      simp only at h
      split_ifs at h with hzero
      · cases h
        exact ⟨_, .refl hmaps, by rintro ⟨⟩⟩
      cases hput : ops.putNode s.vol with
      | error e =>
        rw [hput] at h
        cases h
        exact ⟨_, .refl hmaps, by rintro ⟨⟩⟩
      | ok vol =>
        simp only [hput] at h
        have hcut : ∀ (vol : σ) (freed : List ℕ), Shrunk psb s ⟨vol, (s.cut vol t v.blkCnt).inode, freed⟩
            (file' ++ List.range' v.blkStart v.blkCnt) file' blkStart := by
          refine fun _ _ => ⟨hmaps', List.prefix_append _ _, .inr (hkeep.resolve_left hzero),
            fun hcnt => ?_, rfl⟩
          have hlen := congrArg (· - v.blkCnt) hcnt
          simp only [List.length_append, List.length_range', Nat.add_sub_cancel] at hlen
          exact hlen
        have hless : file'.length < (file' ++ List.range' v.blkStart v.blkCnt).length := by
          rw [List.length_append, List.length_range']
          omega
        cases hfree : (s.cut vol t v.blkCnt).freeBlk ops v.blkStart v.blkCnt with
        | error e =>
          rw [hfree] at h
          cases h
          exact ⟨file', hcut _ _, by rintro ⟨⟩⟩
        | ok s₁ =>
          obtain ⟨vol₁, -, rfl⟩ := freeBlk_eq hfree
          simp only [hfree] at h
          cases hadj : ops.adjustBP vol₁ with
          | error e =>
            rw [hadj] at h
            cases h
            exact ⟨file', hcut _ _, by rintro ⟨⟩⟩
          | ok vol₂ =>
            simp only [hadj] at h
            split_ifs at h
            · cases h
              exact ⟨file', hcut _ _, fun _ => hless⟩
            · obtain ⟨file'', hrest, hlen⟩ := ih hmaps' h
              exact ⟨file'', (hcut _ _).trans hrest, fun he => (hlen he).trans hless⟩

/-- A transaction of a cut: the last one sets the size. -/
theorem truncInode_cases (hmaps : s.inode.tree.Maps psb file)
    (h : truncInode psb ops s size = (s', e)) (he : e = none ∨ e = some .transNeedCommit) :
    size ≤ s.inode.szData ∧ ∃ s₁ file', Shrunk psb s s₁ file file' (FileVol.blksFor psb size) ∧
      s'.inode = (if e = none then { s₁.inode with szData := size } else s₁.inode) ∧
      (e ≠ none → file'.length < file.length) := by
  unfold truncInode at h
  generalize hblk : (if size &&& psb.blkMask ≠ 0 then (size >>> psb.blkShift) + 1
    else size >>> psb.blkShift) = blkStart at h
  have hblk' : FileVol.blksFor psb size = blkStart := hblk
  split_ifs at h with hdel hsize
  · cases h
    simp at he
  · cases h
    simp at he
  refine ⟨Nat.le_of_not_lt hsize, ?_⟩
  rw [hblk']
  simp only at h
  generalize hloop : truncLoop psb ops blkStart _ s = r at h
  obtain ⟨s₁, e₁⟩ := r
  obtain ⟨file', hfile', hless⟩ := truncLoop_shrunk hmaps hloop
  refine ⟨s₁, file', hfile', ?_⟩
  cases e₁ with
  | some e₁ =>
    cases h
    rw [if_neg (Option.some_ne_none _)]
    exact ⟨rfl, fun _ => hless (he.resolve_left (Option.some_ne_none _))⟩
  | none =>
    simp only at h
    split_ifs at h
    · cases h
      simp at he
    · unfold writeHead at h
      split at h
      · cases h
        simp at he
      · cases h
        exact ⟨rfl, fun h => absurd rfl h⟩

end Deleting

/-! ## The whole cut -/

namespace FileVol
variable {ops : FileOps σ} {s s' : FileVol σ} {v : Contents UInt8} {off n b : ℕ}

theorem truncTrans_history (psb : SuperBlock) (ops : FileOps σ) (s : FileVol σ) (size : ℕ) :
    s.history <+: (truncTrans psb ops s size).1.history := by
  unfold truncTrans
  split
  · exact List.prefix_rfl
  · simp only
    split_ifs
    · split
      · exact rollBack_history ops _
      · next s₁ hc =>
        obtain ⟨-, hhist, -⟩ := commit_eq hc
        exact hhist ▸ List.prefix_append _ _
    · exact rollBack_history ops _

theorem tpsTruncLoop_history (psb : SuperBlock) (ops : FileOps σ) (size fuel : ℕ) (s : FileVol σ) :
    s.history <+: (tpsTruncLoop psb ops size fuel s).1.history := by
  induction fuel generalizing s with
  | zero => exact List.prefix_rfl
  | succ fuel ih =>
    have h := truncTrans_history psb ops s size
    rw [tpsTruncLoop]
    split
    · next s₁ e ht =>
      rw [ht] at h
      exact h
    · next s₁ ht =>
      rw [ht] at h
      exact h
    · next s₁ ht =>
      rw [ht] at h
      exact h.trans (ih s₁)

/-- A file that has lost blocks only behind a place. -/
theorem Holds.shrink {file' : List ℕ} (hholds : s.Holds psb file v b) (d d' : Deleting σ)
    (hd : d.inode = s.inode) (hshr : Deleting.Shrunk psb d d' file file' (blksFor psb size))
    (hsize : size ≤ b) : Holds psb { s with vol := d'.vol, inode := d'.inode } file' v size := by
  have hB := psb.blkSize_pos
  have hroom : size ≤ file'.length * psb.blkSize := by
    rcases hshr.keeps with rfl | hge
    · exact hsize.trans hholds.room
    · exact (blksFor_spec psb size).1.trans (Nat.mul_le_mul_right _ hge)
  obtain ⟨gone, rfl⟩ := hshr.pre
  refine ⟨⟨hshr.maps, hshr.szData.trans (hd ▸ hholds.len), hroom, fun o ho => ?_⟩,
    hshr.cnt (hd ▸ hholds.cnt), hshr.pre.length_le.trans hholds.small⟩
  rw [← hholds.bytes o (ho.trans_le hsize)]
  exact (byteAt_append_left hB (ho.trans_le hroom)).symm

theorem Holds.cut (hholds : s.Holds psb file v size) (hsize : size ≤ v.len) :
    Holds psb { s with inode := { s.inode with szData := size } } file (v.cut size)
      (v.cut size).len := by
  have hlen : (v.cut size).len = size := min_eq_right hsize
  rw [hlen]
  refine ⟨⟨hholds.maps, hlen.symm, hholds.room, fun o ho => ?_⟩, hholds.cnt, hholds.small⟩
  rw [byte_cut, if_pos ho]
  exact hholds.bytes o ho

/-- A transaction of a cut: there is another one only if this one has taken blocks off. -/
theorem truncTrans_spec {more : Bool} (hholds : s.Holds psb file v b) (hsize : size ≤ b)
    (hb : b ≤ v.len) (h : truncTrans psb ops s size = (s', .ok more))
    (hu : ∀ c ∈ s'.history, Untouched ops c) : ∃ file',
      (more = true → s'.Holds psb file' v size ∧ file'.length < file.length) ∧
      (more = false → s'.Holds psb file' (v.cut size) (v.cut size).len) := by
  unfold truncTrans at h
  split at h
  · cases h
  · next vol _ =>
    generalize htrunc : Deleting.truncInode psb ops.toVolOps ⟨vol, s.inode, []⟩ size = r at h
    obtain ⟨d, e⟩ := r
    simp only at h
    split_ifs at h with he
    · split at h
      · cases h
      · next s₁ hc =>
        cases h
        obtain ⟨-, hhist, -⟩ := commit_eq hc
        have hlast := hu _ (by rw [hhist]; exact List.mem_append_right _ (.head _))
        obtain ⟨-, d₁, file', hshr, hinode, hless⟩ :=
          Deleting.truncInode_cases hholds.maps htrunc he
        have hd₁ : Holds psb { s with vol := d.vol, inode := d₁.inode } file' v size :=
          hholds.shrink ⟨vol, s.inode, []⟩ ⟨d.vol, d₁.inode, []⟩ rfl
            ⟨hshr.maps, hshr.pre, hshr.keeps, hshr.cnt, hshr.szData⟩ hsize
        refine ⟨file', fun hmore => ?_, fun hmore => ?_⟩
        · have hsome : e ≠ none := Option.isSome_iff_ne_none.mp hmore
          rw [if_neg hsome] at hinode
          rw [← hinode] at hd₁
          exact ⟨hd₁.commit hc hlast, hless hsome⟩
        · have hnone : e = none := Option.isSome_eq_false_iff.mp hmore |> Option.isNone_iff_eq_none.mp
          rw [if_pos hnone] at hinode
          have hcut := hd₁.cut (hsize.trans hb)
          rw [← hinode] at hcut
          exact hcut.commit hc hlast
    · cases h

theorem tpsTruncLoop_spec (hholds : s.Holds psb file v b) (hsize : size ≤ b) (hb : b ≤ v.len)
    (hfuel : file.length < fuel) (h : tpsTruncLoop psb ops size fuel s = (s', none))
    (hu : ∀ c ∈ s'.history, Untouched ops c) :
    ∃ file', s'.Holds psb file' (v.cut size) (v.cut size).len := by
  induction fuel generalizing s file b with
  | zero => exact absurd hfuel (Nat.not_lt_zero _)
  | succ fuel ih =>
    rw [tpsTruncLoop] at h
    split at h
    · cases h
    · next s₁ ht =>
      cases h
      obtain ⟨file', -, hlast⟩ := truncTrans_spec hholds hsize hb ht hu
      exact ⟨file', hlast rfl⟩
    · next s₁ ht =>
      have hpre := tpsTruncLoop_history psb ops size fuel s₁
      rw [h] at hpre
      obtain ⟨file', hmore, -⟩ :=
        truncTrans_spec hholds hsize hb ht fun c hc => hu c (hpre.subset hc)
      obtain ⟨hholds', hless⟩ := hmore rfl
      exact ih hholds' le_rfl (hsize.trans hb) (by omega) h

/-- A cut without an error. -/
theorem tpsTrunc_spec (hholds : s.Holds psb file v v.len) (hsize : size ≤ v.len)
    (h : tpsTrunc psb ops s size = (s', none)) (hu : ∀ c ∈ s'.history, Untouched ops c) :
    ∃ file', s'.Holds psb file' (v.cut size) (v.cut size).len := by
  unfold tpsTrunc at h
  split_ifs at h
  · cases h
  · refine tpsTruncLoop_spec hholds hsize le_rfl ?_ h hu
    rw [tpsFsBtreeBlkCnt_eq hholds.maps]
    exact Nat.lt_succ_self _

/-! ## Reading -/

/-- The part of a range of blocks that a read takes. -/
theorem devGet_read {l blk cnt offBlk : ℕ} (hshows : s.Shows psb file v v.len)
    (hrun : (file.drop l).take cnt = List.range' blk cnt) (hoff : l * psb.blkSize + offBlk = off)
    (hfit : offBlk + n ≤ cnt * psb.blkSize) (hlen : off + n ≤ v.len) :
    devGet psb s.dev blk offBlk n = v.read off n := by
  rw [devGet_eq hrun hfit, read_eq hlen]
  refine List.map_congr_left fun j hj => ?_
  have hj' := List.mem_range.mp hj
  rw [hoff]
  exact hshows.bytes _ (by omega)

/-- The loop goes over all of the range that is in the file. -/
theorem readLoop_spec (hshows : s.Shows psb file v v.len) (hoff : off < v.len) (hfuel : n ≤ fuel)
    (h : readLoop psb ops s fuel off n = some buf) : buf = v.read off n := by
  induction fuel generalizing off n buf with
  | zero =>
    obtain rfl : n = 0 := Nat.le_zero.mp hfuel
    cases h
    exact read_zero.symm
  | succ fuel ih =>
    rw [readLoop] at h
    split_ifs at h with hzero
    · cases h
      rw [hzero, read_zero]
    obtain ⟨blk, cnt, hget, hcnt, hrun, hplace, hmask⟩ :=
      getBlk_run hshows.maps (hoff.trans_le hshows.room)
    have hcB : psb.blkSize ≤ psb.blkSize * cnt := Nat.le_mul_of_pos_right _ hcnt
    simp only [hget, hshows.len] at h
    generalize hk : min (min n (psb.blkSize * cnt - (off &&& psb.blkMask))) (v.len - off) = k at h
    have hpart := devGet_read (n := k) hshows hrun hplace (by rw [Nat.mul_comm cnt]; omega) (by omega)
    rw [hpart] at h
    split_ifs at h with hread hend
    · -- the end of the file is reached
      cases h
      have hall : k + (n - k) = n := by omega
      have hnone : v.read (off + k) (n - k) = [] :=
        List.eq_nil_of_length_eq_zero (by rw [length_read]; omega)
      rw [← hall, read_add (by omega), hnone, List.append_nil]
    · obtain ⟨rest, hrest, rfl⟩ := Option.map_eq_some_iff.mp h
      rw [ih (by omega) (by omega) hrest, ← read_add (by omega)]
      congr 1
      omega

/-- A read without an error. -/
theorem tpsRead_spec (hshows : s.Shows psb file v v.len) (h : tpsRead psb ops s off n = some buf) :
    buf = v.read off n := by
  unfold tpsRead at h
  rw [hshows.len] at h
  split_ifs at h with hfault hoff
  · cases h
    exact (List.eq_nil_of_length_eq_zero (by rw [length_read]; omega)).symm
  · exact readLoop_spec hshows (Nat.lt_of_not_le hoff) le_rfl h

end FileVol
end SylixOS.TpsFs
