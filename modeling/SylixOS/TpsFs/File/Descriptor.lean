import SylixOS.TpsFs.File.Trunc
import SylixOS.Lib.Reach

/-! # A file through a descriptor

Every run of reads, writes and cuts of one file keeps the file equal to an array of bytes, as long as no
commit touches its data and no transaction that fills a gap is rolled back. -/

namespace SylixOS.TpsFs
open Lib Blocks Contents

variable {σ : Type} {psb : SuperBlock} {ops : FileOps σ} {file : List ℕ} {v : Contents UInt8}
  {n fuel oftPos : ℕ} {buf : List UInt8}

namespace FileFd

/-! ## The gap -/

section
variable {s s' : FileVol σ}

theorem gapLoop_history (psb : SuperBlock) (ops : FileOps σ) (pucZoreBuf : List UInt8)
    (oftPos fuel : ℕ) (s : FileVol σ) :
    s.history <+: (gapLoop psb ops pucZoreBuf oftPos fuel s).1.history := by
  induction fuel generalizing s with
  | zero => exact List.prefix_rfl
  | succ fuel ih =>
    rw [gapLoop]
    split_ifs
    · have h := FileVol.tpsWrite_history psb ops s s.inode.szData
        (pucZoreBuf.take (min psb.blkSize (oftPos - s.inode.szData)))
      simp only
      split
      · next s₁ m e hw =>
        rw [hw] at h
        exact h
      · next s₁ m hw =>
        rw [hw] at h
        exact h.trans (ih s₁)
    · exact List.prefix_rfl

/-- One round: a block of zeros at the end, or less. -/
theorem zeros_take {k : ℕ} (hk : k ≤ psb.blkSize) :
    (List.replicate psb.blkSize (0 : UInt8)).take k = List.replicate k 0 := by
  rw [List.take_replicate, min_eq_left hk]

theorem gapLoop_spec (hholds : s.Holds psb file v v.len) (hpos : v.len ≤ oftPos)
    (hmax : oftPos < 2 ^ 63) (hfuel : oftPos - v.len ≤ fuel)
    (h : gapLoop psb ops (List.replicate psb.blkSize 0) oftPos fuel s = (s', none))
    (hu : ∀ c ∈ s'.history, Untouched ops c) :
    ∃ file', s'.Holds psb file' (v.grow oftPos) (v.grow oftPos).len := by
  have hB := psb.blkSize_pos
  induction fuel generalizing s file v with
  | zero =>
    cases h
    rw [grow_eq (by omega)]
    exact ⟨file, hholds⟩
  | succ fuel ih =>
    rw [gapLoop, hholds.len] at h
    split_ifs at h with hlt
    · generalize hk : min psb.blkSize (oftPos - v.len) = k at h
      simp only at h
      rw [zeros_take (by omega)] at h
      split at h
      · cases h
      · next s₁ m hw =>
        have hpre := gapLoop_history psb ops (List.replicate psb.blkSize 0) oftPos fuel s₁
        rw [h] at hpre
        obtain ⟨-, file', hfile'⟩ := FileVol.tpsWrite_spec hholds le_rfl
          (by rw [List.length_replicate]; omega) hw fun c hc => hu c (hpre.subset hc)
        rw [write_zeros] at hfile'
        have hlen : (v.grow (v.len + k)).len = v.len + k := max_eq_right (Nat.le_add_right _ _)
        obtain ⟨file'', hfile''⟩ := ih hfile' (by omega) (by omega) h
        rw [grow_grow, max_eq_right (by omega)] at hfile''
        exact ⟨file'', hfile''⟩
    · cases h
      rw [grow_eq (by omega)]
      exact ⟨file, hholds⟩

/-- A gap that is not filled remains, unless a transaction is rolled back. -/
theorem gapLoop_error {e : FileErr} (hholds : s.Holds psb file v v.len) (hmax : oftPos < 2 ^ 63)
    (h : gapLoop psb ops (List.replicate psb.blkSize 0) oftPos fuel s = (s', some e))
    (hu : ∀ c ∈ s'.history, Untouched ops c) (hback : .rolledBack ∉ s'.history) :
    s'.inode.szData < oftPos := by
  have hB := psb.blkSize_pos
  induction fuel generalizing s file v with
  | zero => cases h
  | succ fuel ih =>
    rw [gapLoop, hholds.len] at h
    split_ifs at h with hlt
    · generalize hk : min psb.blkSize (oftPos - v.len) = k at h
      simp only at h
      rw [zeros_take (by omega)] at h
      split at h
      · next s₁ m e' hw =>
        cases h
        obtain ⟨hm, hsize⟩ := FileVol.tpsWrite_error hholds le_rfl
          (by rw [List.length_replicate]; omega) (List.ne_nil_of_length_pos (by
            rw [List.length_replicate]; omega)) hw hu hback
        rw [List.length_replicate] at hm
        omega
      · next s₁ m hw =>
        have hpre := gapLoop_history psb ops (List.replicate psb.blkSize 0) oftPos fuel s₁
        rw [h] at hpre
        obtain ⟨-, file', hfile'⟩ := FileVol.tpsWrite_spec hholds le_rfl
          (by rw [List.length_replicate]; omega) hw fun c hc => hu c (hpre.subset hc)
        exact ih hfile' h
    · cases h

end

/-! ## One call -/

variable {s s' : FileFd σ}

/-- A write that succeeds. -/
theorem writeAt_spec (hholds : s.file.Holds psb file v v.len) (hbuf : buf ≠ [])
    (hmax : oftPos + buf.length < 2 ^ 63) (h : writeAt psb ops s oftPos buf = (s', some (n, none)))
    (hu : ∀ c ∈ s'.file.history, Untouched ops c) (hback : .rolledBack ∉ s'.file.history) :
    n = buf.length ∧
      ∃ file', s'.file.Holds psb file' (v.write oftPos buf) (v.write oftPos buf).len := by
  unfold writeAt at h
  rw [hholds.len] at h
  split_ifs at h with hgap hheap
  · simp only at h
    split_ifs at h with hshort
    · cases h
    · generalize hfill : fillGap psb ops s.file oftPos = r at h hshort
      obtain ⟨g, e⟩ := r
      generalize hw : FileVol.tpsWrite psb ops g oftPos buf = r at h
      obtain ⟨g', m, e'⟩ := r
      cases h
      unfold fillGap at hfill
      rw [hholds.len] at hfill
      have hpre := FileVol.tpsWrite_history psb ops g oftPos buf
      rw [hw] at hpre
      have hu' : ∀ c ∈ g.history, Untouched ops c := fun c hc => hu c (hpre.subset hc)
      cases e with
      | some e => exact absurd (gapLoop_error hholds (by omega) hfill hu'
          fun hc => hback (hpre.subset hc)) hshort
      | none =>
        obtain ⟨file', hfile'⟩ := gapLoop_spec hholds hgap.le (by omega) le_rfl hfill hu'
        obtain ⟨hn, hdone⟩ := FileVol.tpsWrite_spec hfile' (le_max_right _ _) hmax hw hu
        rw [grow_write le_rfl hbuf] at hdone
        exact ⟨hn, hdone⟩
  · cases h
  · generalize hw : FileVol.tpsWrite psb ops s.file oftPos buf = r at h
    obtain ⟨g', m, e'⟩ := r
    cases h
    exact FileVol.tpsWrite_spec hholds (Nat.le_of_not_lt hgap) hmax hw hu

/-- `__tpsFsWrite` without an error. -/
theorem fdWrite_spec (hholds : s.file.Holds psb file v v.len)
    (hmax : s.start.oftPtr + buf.length < 2 ^ 63) (h : fdWrite psb ops s buf = (s', some (n, none)))
    (hu : ∀ c ∈ s'.file.history, Untouched ops c) (hback : .rolledBack ∉ s'.file.history) :
    n = buf.length ∧ ∃ file', s'.file.Holds psb file' (v.write s.start.oftPtr buf)
      (v.write s.start.oftPtr buf).len := by
  have hstart : s.start.file = s.file := by
    unfold start
    split_ifs <;> rfl
  rw [← hstart] at hholds
  unfold fdWrite at h
  split_ifs at h with hlock hbuf
  · cases h
    rw [hbuf, write_nil]
    exact ⟨rfl, file, hholds⟩
  · simp only at h
    generalize hw : writeAt psb ops s.start s.start.oftPtr buf = r at h
    obtain ⟨s₁, r⟩ := r
    cases r with
    | none => cases h
    | some r =>
      obtain ⟨m, e⟩ := r
      simp only at h
      split_ifs at h with hok
      · cases h
        have hdone := writeAt_spec hholds hbuf hmax hw hu hback
        exact hdone
      · cases h
        exact writeAt_spec hholds hbuf hmax hw hu hback
  · cases h

/-- `__tpsFsPWrite` without an error. -/
theorem fdPWrite_spec (hholds : s.file.Holds psb file v v.len) (hmax : oftPos + buf.length < 2 ^ 63)
    (h : fdPWrite psb ops s buf oftPos = (s', some (n, none)))
    (hu : ∀ c ∈ s'.file.history, Untouched ops c) (hback : .rolledBack ∉ s'.file.history) :
    n = buf.length ∧
      ∃ file', s'.file.Holds psb file' (v.write oftPos buf) (v.write oftPos buf).len := by
  unfold fdPWrite at h
  split_ifs at h with hlock hbuf
  · cases h
    rw [hbuf, write_nil]
    exact ⟨rfl, file, hholds⟩
  · generalize hw : writeAt psb ops s oftPos buf = r at h
    obtain ⟨s₁, r⟩ := r
    cases r with
    | none => cases h
    | some r =>
      obtain ⟨m, e⟩ := r
      simp only at h
      split_ifs at h with hok
      · cases h
        have hdone := writeAt_spec hholds hbuf hmax hw hu hback
        exact hdone
      · cases h
        exact writeAt_spec hholds hbuf hmax hw hu hback
  · cases h

/-- `__tpsFsTruncate` to a smaller size. -/
theorem fdTruncate_spec (hholds : s.file.Holds psb file v v.len) (hle : n ≤ v.len)
    (h : fdTruncate psb ops s n = (s', true)) (hu : ∀ c ∈ s'.file.history, Untouched ops c) :
    ∃ file', s'.file.Holds psb file' (v.cut n) (v.cut n).len := by
  unfold fdTruncate at h
  rw [hholds.len, if_neg (Nat.not_lt.mpr hle)] at h
  split_ifs at h
  · generalize ht : FileVol.tpsTrunc psb ops s.file n = r at h
    obtain ⟨g, e⟩ := r
    cases e with
    | some e => cases h
    | none =>
      cases h
      exact FileVol.tpsTrunc_spec hholds hle ht hu
  · cases h

/-- `__tpsFsPRead` without an error. -/
theorem fdPRead_spec (hshows : s.file.Shows psb file v v.len)
    (h : fdPRead psb ops s n oftPos = some buf) : buf = v.read oftPos n := by
  unfold fdPRead at h
  split_ifs at h with hlock hzero
  · cases h
    rw [hzero, read_zero]
  · exact FileVol.tpsRead_spec hshows h

/-! ## Runs -/

end FileFd

/-- A call on an open file that is meant to succeed. -/
inductive FileCall where
  | write (pcBuffer : List UInt8)
  | pwrite (pcBuffer : List UInt8) (oftPos : ℕ)
  | truncate (oftSize : ℕ)
  | read (stMaxBytes : ℕ)
  | seek (oftPos : ℕ)

/-- A descriptor, and the bytes that its file is meant to hold. -/
structure FileRun (σ : Type) where
  fd : FileFd σ
  bytes : Contents UInt8

namespace FileRun

variable (psb ops)

/-- A call that succeeds. A place in a file fits into `off_t`, and a cut makes the file smaller. -/
def next (s : FileRun σ) : FileCall → Option (FileRun σ)
  | .write buf =>
    if s.fd.start.oftPtr + buf.length < 2 ^ 63 then
      match s.fd.fdWrite psb ops buf with
      | (fd, some (n, none)) => some ⟨fd, s.bytes.write s.fd.start.oftPtr (buf.take n)⟩
      | _ => none
    else none
  | .pwrite buf oftPos =>
    if oftPos + buf.length < 2 ^ 63 then
      match s.fd.fdPWrite psb ops buf oftPos with
      | (fd, some (n, none)) => some ⟨fd, s.bytes.write oftPos (buf.take n)⟩
      | _ => none
    else none
  | .truncate oftSize =>
    if oftSize ≤ s.fd.file.inode.szData then
      match s.fd.fdTruncate psb ops oftSize with
      | (fd, true) => some ⟨fd, s.bytes.cut oftSize⟩
      | _ => none
    else none
  | .read stMaxBytes =>
    match s.fd.fdRead psb ops stMaxBytes with
    | (fd, some _) => some ⟨fd, s.bytes⟩
    | _ => none
  | .seek oftPos =>
    match s.fd.fdSeek ops oftPos with
    | (fd, true) => some ⟨fd, s.bytes⟩
    | _ => none

/-- A new file. -/
structure Created (s : FileRun σ) : Prop where
  tree : ∃ inum, s.fd.file.inode.tree = tpsFsBtreeInit psb inum
  blkCnt : s.fd.file.inode.blkCnt = 0
  szData : s.fd.file.inode.szData = 0
  history : s.fd.file.history = []
  bytes : s.bytes = .empty

/-- A call leads to no commit that touches data of the file, and no transaction of it is rolled back. -/
def Clean (s : FileRun σ) (a : FileCall) : Prop := ∀ s', s.next psb ops a = some s' →
  (∀ c ∈ s'.fd.file.history, Untouched ops c) ∧ .rolledBack ∉ s'.fd.file.history

/-- The size of the file is right, and a read returns the bytes that the file is meant to hold. -/
def Faithful (s : FileRun σ) : Prop :=
  s.fd.file.inode.szData = s.bytes.len ∧
    ∀ n oftPos buf, s.fd.fdPRead psb ops n oftPos = some buf → buf = s.bytes.read oftPos n

def Inv (s : FileRun σ) : Prop := ∃ file, s.fd.file.Holds psb file s.bytes s.bytes.len

variable {psb ops}
variable {s s' : FileRun σ} {a : FileCall}

theorem Created.inv (h : s.Created psb) : s.Inv psb := by
  obtain ⟨inum, htree⟩ := h.tree
  refine ⟨[], ⟨?_, ?_, ?_, fun o ho => ?_⟩, h.blkCnt, Nat.zero_le _⟩
  · rw [htree]
    exact tpsFsBtreeInit_maps psb inum
  · rw [h.szData, h.bytes]
    rfl
  · rw [h.bytes]
    exact Nat.zero_le _
  · rw [h.bytes] at ho
    exact absurd ho (Nat.not_lt_zero _)

theorem Inv.next (hinv : s.Inv psb) (hclean : s.Clean psb ops a) (h : s.next psb ops a = some s') :
    s'.Inv psb := by
  obtain ⟨file, hholds⟩ := hinv
  obtain ⟨hu, hback⟩ := hclean s' h
  cases a with
  | write buf =>
    simp only [FileRun.next] at h
    split_ifs at h with hmax
    split at h
    · next fd n hw =>
      cases h
      obtain ⟨rfl, file', hfile'⟩ := FileFd.fdWrite_spec hholds hmax hw hu hback
      rw [List.take_length]
      exact ⟨file', hfile'⟩
    · cases h
  | pwrite buf oftPos =>
    simp only [FileRun.next] at h
    split_ifs at h with hmax
    split at h
    · next fd n hw =>
      cases h
      obtain ⟨rfl, file', hfile'⟩ := FileFd.fdPWrite_spec hholds hmax hw hu hback
      rw [List.take_length]
      exact ⟨file', hfile'⟩
    · cases h
  | truncate size =>
    simp only [FileRun.next] at h
    split_ifs at h with hle
    split at h
    · next fd ht =>
      cases h
      exact FileFd.fdTruncate_spec hholds (hholds.len ▸ hle) ht hu
    · cases h
  | read n =>
    simp only [FileRun.next, FileFd.fdRead] at h
    split at h
    · next fd buf hr =>
      cases h
      split at hr <;> cases hr
      exact ⟨file, hholds⟩
    · cases h
  | seek oftPos =>
    simp only [FileRun.next, FileFd.fdSeek] at h
    split at h
    · next fd hr =>
      cases h
      split_ifs at hr <;> cases hr
      exact ⟨file, hholds⟩
    · cases h

end FileRun
end SylixOS.TpsFs
