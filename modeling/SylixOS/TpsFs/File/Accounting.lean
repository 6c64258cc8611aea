import SylixOS.TpsFs.File.FreeList

/-! # What a write request accounts for

The count that is returned, the movement of the pointer, the data in the file and the recorded size
agree unless a transaction fails behind one that has been committed, or what the first one has done
before it fails is not undone. -/

namespace SylixOS.TpsFs
open Lib Blocks Contents

variable {σ : Type} {psb : SuperBlock} {ops : FileOps σ} {file : List ℕ} {v : Contents UInt8}
  {n off oftPos fuel : ℕ} {buf : List UInt8}

namespace FileVol

variable (psb ops)

/-- All transactions of a write go through. -/
def Goes (off : ℕ) : ℕ → List UInt8 → ℕ → FileVol σ → Prop
  | 0, _, _, _ => True
  | fuel + 1, pucBuff, szRet, s => pucBuff = [] ∨
      match writeTrans psb ops s (off + szRet) pucBuff with
      | (_, .error _) => False
      | (s, .ok szWrite) => Goes off fuel (pucBuff.drop szWrite) (szRet + szWrite) s

/-- A write begins none of its transactions, or all of them go through, or the first one fails and what it
has done is undone. -/
def Whole (s : FileVol σ) (v : Contents UInt8) (off : ℕ) (pucBuff : List UInt8) : Prop :=
  ops.fault s.vol = true ∨ Goes psb ops off pucBuff.length pucBuff 0 s ∨
    ∃ s' e, writeTrans psb ops s off pucBuff = (s', .error e) ∧ ∃ file, s'.Shows psb file v v.len

variable {psb ops}
variable {s s' : FileVol σ} {e : Option FileErr} {m : ℕ}

theorem tpsWriteLoop_goes (hholds : s.Holds psb file v v.len) (hoff : off + n ≤ v.len)
    (hmax : off + n + buf.length < 2 ^ 63)
    (h : tpsWriteLoop psb ops off fuel buf n s = (s', m, e)) (hu : ∀ c ∈ s'.history, Untouched ops c) :
    n ≤ m ∧ (Goes psb ops off fuel buf n s ↔ e = none) := by
  induction fuel generalizing s file v buf n with
  | zero =>
    cases h
    exact ⟨le_rfl, iff_of_true trivial rfl⟩
  | succ fuel ih =>
    rw [tpsWriteLoop] at h
    rw [Goes]
    split_ifs at h with hnil
    · cases h
      exact ⟨le_rfl, iff_of_true (.inl hnil) rfl⟩
    cases ht : writeTrans psb ops s (off + n) buf with
    | mk s₁ r =>
      rw [ht] at h
      cases r with
      | error e' =>
        cases h
        exact ⟨le_rfl, iff_of_false (by simp [hnil]) (by rintro ⟨⟩)⟩
      | ok k =>
        obtain ⟨hk, hle, hfile⟩ := writeTrans_spec hholds hoff hnil hmax ht
        simp only [if_neg (show ¬ k = 0 by omega)] at h
        have hpre := tpsWriteLoop_history psb ops off fuel (buf.drop k) (n + k) s₁
        rw [h] at hpre
        obtain ⟨file', hfile'⟩ := hfile fun c hc => hu c (hpre.subset hc)
        have hlen : (buf.take k).length = k := List.length_take_of_le hle
        have hdrop : (buf.drop k).length = buf.length - k := List.length_drop
        have hne : buf.take k ≠ [] := List.ne_nil_of_length_pos (by omega)
        have hv : (v.write (off + n) (buf.take k)).len = max v.len (off + n + k) := by
          rw [len_write hne, hlen]
        obtain ⟨hm, hgoes⟩ := ih hfile' (by omega) (by omega) h
        refine ⟨by omega, ?_⟩
        simp only [hnil, false_or]
        exact hgoes

/-- What `tpsFsWrite` returns, and the file then. -/
theorem tpsWrite_whole (hholds : s.Holds psb file v v.len) (hoff : off ≤ v.len) (hbuf : buf ≠ [])
    (hmax : off + buf.length < 2 ^ 63) (h : tpsWrite psb ops s off buf = (s', m, e))
    (hu : ∀ c ∈ s'.history, Untouched ops c) :
    (e = none ∧ m = buf.length ∧ Whole psb ops s v off buf ∧
      ∃ file', s'.Shows psb file' (v.write off buf) (v.write off buf).len) ∨
    (e ≠ none ∧ m = 0 ∧ (Whole psb ops s v off buf ↔ ∃ file', s'.Shows psb file' v v.len)) ∨
    (e ≠ none ∧ 0 < m ∧ ¬ Whole psb ops s v off buf) := by
  have hspec : e = none → m = buf.length ∧ ∃ file',
      s'.Holds psb file' (v.write off buf) (v.write off buf).len := by
    rintro rfl
    exact tpsWrite_spec hholds hoff hmax h hu
  unfold tpsWrite at h
  split_ifs at h with hfault
  · cases h
    exact .inr (.inl ⟨nofun, rfl, iff_of_true (.inl hfault) ⟨file, hholds.toShows⟩⟩)
  obtain ⟨-, hgoes⟩ := tpsWriteLoop_goes (n := 0) hholds hoff hmax h hu
  by_cases he : e = none
  · obtain ⟨hm, file', hfile'⟩ := hspec he
    exact .inl ⟨he, hm, .inr (.inl (hgoes.mpr he)), file', hfile'.toShows⟩
  -- some transaction has failed: it is the first one just if nothing is counted
  have hnot : ¬ Goes psb ops off buf.length buf 0 s := fun hg => he (hgoes.mp hg)
  have hwhole : Whole psb ops s v off buf ↔ ∃ s' e, writeTrans psb ops s off buf = (s', .error e) ∧
      ∃ file, s'.Shows psb file v v.len := by
    simp only [Whole, hfault, hnot, false_or, Bool.false_eq_true]
  obtain ⟨k, hk⟩ := Nat.exists_eq_succ_of_ne_zero (List.length_pos_iff.mpr hbuf).ne'
  rw [hk, tpsWriteLoop, if_neg hbuf] at h
  cases ht : writeTrans psb ops s off buf with
  | mk s₁ r =>
    rw [ht] at hwhole
    rw [Nat.add_zero, ht] at h
    cases r with
    | error e' =>
      cases h
      refine .inr (.inl ⟨he, rfl, hwhole.trans ⟨?_, fun hs => ⟨_, _, rfl, hs⟩⟩⟩)
      rintro ⟨s₂, e₂, heq, hs⟩
      cases heq
      exact hs
    | ok j =>
      obtain ⟨hj, hle, hfile⟩ := writeTrans_spec hholds hoff hbuf hmax ht
      simp only [if_neg (show ¬ j = 0 by omega)] at h
      have hpre := tpsWriteLoop_history psb ops off k (buf.drop j) (0 + j) s₁
      rw [h] at hpre
      obtain ⟨file', hfile'⟩ := hfile fun c hc => hu c (hpre.subset hc)
      have hlen : (buf.take j).length = j := List.length_take_of_le hle
      have hne : buf.take j ≠ [] := List.ne_nil_of_length_pos (by omega)
      have hv : (v.write off (buf.take j)).len = max v.len (off + j) := by
        rw [len_write hne, hlen]
      have hdrop : (buf.drop j).length = buf.length - j := List.length_drop
      obtain ⟨hm, -⟩ := tpsWriteLoop_goes hfile' (by omega) (by omega) h hu
      refine .inr (.inr ⟨he, by omega, fun hw => ?_⟩)
      obtain ⟨s₂, e₂, heq, -⟩ := hwhole.mp hw
      cases heq

end FileVol

namespace FileFd

variable (psb ops)

/-- What a request returns agrees with how far the pointer has moved, with the data in the file and with
the recorded size. `O_APPEND` moves the pointer to the end first, and a file may grow up to the place of
the pointer before any data are written. -/
structure Accounted (s s' : FileFd σ) (v : Contents UInt8) (buf : List UInt8)
    (r : Option (ℕ × Option FileErr)) : Prop where
  ptr : s'.oftPtr = s.start.oftPtr + (r.elim 0 Prod.fst) ∨ r.elim 0 Prod.fst = 0 ∧ s'.oftPtr = s.oftPtr
  size : s'.oftSize = s'.file.inode.szData
  data : ∃ m ≤ s.start.oftPtr, ∃ file, s'.file.Shows psb file
    ((v.grow m).write s.start.oftPtr (buf.take (r.elim 0 Prod.fst)))
    ((v.grow m).write s.start.oftPtr (buf.take (r.elim 0 Prod.fst))).len

/-- The gap in front of the place is filled, and the write of the data is whole; or the fill fails and
leaves only zeros, which end in front of the place. -/
def Accountable (s : FileFd σ) (v : Contents UInt8) (buf : List UInt8) : Prop :=
  ops.fileLock s.file.vol = false ∨ buf = [] ∨
    if s.file.inode.szData < s.start.oftPtr then
      ops.heapAlloc s.file.vol = false ∨
        match fillGap psb ops s.file s.start.oftPtr with
        | (g, none) => g.Whole psb ops (v.grow s.start.oftPtr) s.start.oftPtr buf
        | (g, some _) => ∃ m < s.start.oftPtr, ∃ file, g.Shows psb file (v.grow m) (v.grow m).len
    else s.file.Whole psb ops v s.start.oftPtr buf

/-- The fill fails, and yet the file reaches the place. -/
def FillGoesOn (s : FileFd σ) : Prop := s.file.inode.szData < s.start.oftPtr ∧
  ∃ g e, fillGap psb ops s.file s.start.oftPtr = (g, some e) ∧ s.start.oftPtr ≤ g.inode.szData

variable {psb ops}
variable {s s' : FileFd σ} {g g' : FileVol σ} {e : Option FileErr} {m : ℕ}

@[simp] theorem start_file (s : FileFd σ) : s.start.file = s.file := by
  unfold start
  split_ifs <;> rfl

theorem start_oftSize (s : FileFd σ) : s.start.oftSize = s.oftSize := by
  unfold start
  split_ifs <;> rfl

/-- The end of `__tpsFsWrite`. -/
def counted (s : FileFd σ) (szWriteNum : ℕ) (iErr : Option FileErr) : FileFd σ :=
  if iErr = none ∧ 0 < szWriteNum then
    { s with oftPtr := s.oftPtr + szWriteNum, oftSize := s.file.inode.szData }
  else s

@[simp] theorem counted_file (s : FileFd σ) (m : ℕ) (e : Option FileErr) :
    (s.counted m e).file = s.file := by
  unfold counted
  split_ifs <;> rfl

theorem fdWrite_eq (hlock : ops.fileLock s.file.vol = true) (hbuf : buf ≠ [])
    (hw : writeAt psb ops s.start s.start.oftPtr buf = (s', some (m, e))) :
    fdWrite psb ops s buf = (s'.counted m e, some (m, e)) := by
  unfold fdWrite counted
  simp only [if_pos hlock, if_neg hbuf, hw]
  split_ifs <;> rfl

/-- The data, once the file reaches the place. -/
theorem data_accounted (s s' : FileFd σ) (v : Contents UInt8)
    (hholds : g.Holds psb file (v.grow s.start.oftPtr) (v.grow s.start.oftPtr).len) (hbuf : buf ≠ [])
    (hmax : s.start.oftPtr + buf.length < 2 ^ 63)
    (h : FileVol.tpsWrite psb ops g s.start.oftPtr buf = (s'.file, m, e))
    (hu : ∀ c ∈ s'.file.history, Untouched ops c) (hptr : s'.oftPtr = s.start.oftPtr)
    (hsize : s'.oftSize = g.inode.szData) : Accounted psb s (s'.counted m e) v buf (some (m, e)) ↔
      g.Whole psb ops (v.grow s.start.oftPtr) s.start.oftPtr buf := by
  have hpos := List.length_pos_iff.mpr hbuf
  unfold counted
  rcases FileVol.tpsWrite_whole hholds (le_max_right _ _) hbuf hmax h hu with
    ⟨rfl, rfl, hwhole, file', hshows⟩ | ⟨he, rfl, hwhole⟩ | ⟨he, hm, hwhole⟩
  · rw [if_pos ⟨rfl, hpos⟩]
    refine iff_of_true ⟨.inl ?_, rfl, s.start.oftPtr, le_rfl, file', ?_⟩ hwhole
    · rw [← hptr]
      rfl
    · rw [Option.elim_some, List.take_length]
      exact hshows
  · rw [if_neg fun h => he h.1, hwhole]
    constructor
    · rintro ⟨-, hsize', k, hk, file', hshows⟩
      rw [Option.elim_some, List.take_zero, write_nil] at hshows
      -- the size says that the file reaches the place
      have hlen : (v.grow k).len = (v.grow s.start.oftPtr).len := by
        rw [← hshows.len, ← hsize', hsize, hholds.len]
      have heq : v.grow k = v.grow s.start.oftPtr := Contents.ext hlen fun _ => rfl
      exact ⟨file', heq ▸ hshows⟩
    · rintro ⟨file', hshows⟩
      refine ⟨.inl hptr, ?_, s.start.oftPtr, le_rfl, file', ?_⟩
      · rw [hsize, hholds.len, hshows.len]
      · rw [Option.elim_some, List.take_zero, write_nil]
        exact hshows
  · rw [if_neg fun h => he h.1]
    refine iff_of_false (fun hacc => ?_) hwhole
    have hmoved := hacc.ptr
    rw [Option.elim_some] at hmoved
    omega

/-- A request that returns before it writes anything. -/
theorem Accounted.early {r : Option (ℕ × Option FileErr)} (hholds : s.file.Holds psb file v v.len)
    (hsize : s.oftSize = s.file.inode.szData) (hr : r.elim 0 Prod.fst = 0) (hfile : s'.file = s.file)
    (hptr : s'.oftPtr = s.oftPtr ∨ s'.oftPtr = s.start.oftPtr) (hoft : s'.oftSize = s.oftSize) :
    Accounted psb s s' v buf r := by
  refine ⟨?_, ?_, 0, Nat.zero_le _, file, ?_⟩
  · rw [hr]
    rcases hptr with hptr | hptr
    · exact .inr ⟨rfl, hptr⟩
    · exact .inl hptr
  · rw [hoft, hfile, hsize]
  · rw [hr, List.take_zero, write_nil, grow_eq (Nat.zero_le _), hfile]
    exact hholds.toShows

/-- A request that ends when the gap is not filled. -/
theorem gap_accounted (psb : SuperBlock) (s s' : FileFd σ) (v : Contents UInt8) (buf : List UInt8)
    {r : Option (ℕ × Option FileErr)} (hr : r.elim 0 Prod.fst = 0)
    (hptr : s'.oftPtr = s.start.oftPtr) (hsize : s'.oftSize = s'.file.inode.szData)
    (hshort : s'.file.inode.szData < s.start.oftPtr) : Accounted psb s s' v buf r ↔
      ∃ m < s.start.oftPtr, ∃ file, s'.file.Shows psb file (v.grow m) (v.grow m).len := by
  constructor
  · rintro ⟨-, -, m, -, file, hshows⟩
    rw [hr, List.take_zero, write_nil] at hshows
    have hlen : max v.len m = s'.file.inode.szData := hshows.len.symm
    exact ⟨m, by omega, file, hshows⟩
  · rintro ⟨m, hm, file, hshows⟩
    refine ⟨.inl (by rw [hr, hptr, Nat.add_zero]), hsize, m, hm.le, file, ?_⟩
    rw [hr, List.take_zero, write_nil]
    exact hshows

end FileFd

namespace ListVol

/-- Near the end of the journal a transaction takes one range only. -/
def nearEnd : FileOps ListVol := { ListVol.ops with trigerChk := fun _ => true }

/-- The count, `errno`, the pointer, the recorded size and the size of the inode. -/
def figures (s : FileFd ListVol) (buf : List UInt8) : Option (ℕ × Option FileErr) × ℕ × ℕ × ℕ :=
  let r := s.fdWrite BlkMap.smallPsb nearEnd buf
  (r.2, r.1.oftPtr, r.1.oftSize, r.1.file.inode.szData)

end ListVol
end SylixOS.TpsFs
