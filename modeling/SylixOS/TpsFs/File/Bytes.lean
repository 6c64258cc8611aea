import SylixOS.TpsFs.File.Write
import SylixOS.Lib.Contents

/-! # The bytes of a file

A part of the data that is written to the device changes just these bytes of the file, whichever ranges
its blocks are in. -/

namespace SylixOS.TpsFs
open Lib Blocks

theorem SuperBlock.blkSize_pos (psb : SuperBlock) : 0 < psb.blkSize := Nat.two_pow_pos _

theorem SuperBlock.shiftRight_blk (psb : SuperBlock) (x : ℕ) : x >>> psb.blkShift = x / psb.blkSize :=
  Nat.shiftRight_eq_div_pow x _

variable {psb : SuperBlock} {dev : ℕ → ℕ → UInt8} {file : List ℕ} {buf : List UInt8}
  {l blk cnt off o n : ℕ} {t : Btree}

/-- Where a block of a range is in the file. -/
theorem getElem?_run (hrun : (file.drop l).take cnt = List.range' blk cnt) {k : ℕ} (hk : k < cnt) :
    file[l + k]? = some (blk + k) := by
  have h := congrArg (·[k]?) hrun
  simp only [List.getElem?_take_of_lt hk, List.getElem?_drop] at h
  rw [h, List.getElem?_range' (by simpa using hk), Nat.one_mul]

theorem length_run (hrun : (file.drop l).take cnt = List.range' blk cnt) (hcnt : 0 < cnt) :
    l + cnt ≤ file.length := by
  have hlast := getElem?_run hrun (Nat.sub_lt hcnt Nat.one_pos)
  have := (List.getElem?_eq_some_iff.mp hlast).1
  omega

/-- Writing into a range. -/
theorem byteAt_devPut (hnodup : file.Nodup) (hrun : (file.drop l).take cnt = List.range' blk cnt)
    (hcnt : 0 < cnt) (hfit : off + buf.length ≤ cnt * psb.blkSize) :
    byteAt psb.blkSize (devPut psb dev blk off buf) file o =
      if l * psb.blkSize + off ≤ o ∧ o < l * psb.blkSize + off + buf.length then
        buf.getD (o - (l * psb.blkSize + off)) 0
      else byteAt psb.blkSize dev file o := by
  have hB := psb.blkSize_pos
  generalize hBeq : psb.blkSize = B at hfit hB ⊢
  have hlen := length_run hrun hcnt
  have hmod : o % B < B := Nat.mod_lt _ hB
  have ho : o / B * B + o % B = o := Nat.div_add_mod' o B
  have hle : (l + cnt) * B ≤ file.length * B := Nat.mul_le_mul_right _ hlen
  have hexp : (l + cnt) * B = l * B + cnt * B := Nat.add_mul _ _ _
  cases hp : file[o / B]? with
  | none =>
    have hge : file.length ≤ o / B := List.getElem?_eq_none_iff.mp hp
    have hge' : file.length * B ≤ o / B * B := Nat.mul_le_mul_right _ hge
    rw [if_neg (by omega), byteAt_beyond hB (by omega), byteAt_beyond hB (by omega)]
  | some p =>
    rw [byteAt_eq hp, byteAt_eq hp]
    by_cases hin : l ≤ o / B ∧ o / B < l + cnt
    · -- the block is in the range, so the place in it is that in the file
      obtain ⟨k, hk⟩ := Nat.exists_eq_add_of_le hin.1
      rw [hk, getElem?_run hrun (by omega), Option.some.injEq] at hp
      have hkB : (l + k) * B = l * B + k * B := Nat.add_mul _ _ _
      rw [hk] at ho
      subst hp
      have hsub : blk + k - blk = k := by omega
      simp only [devPut, hBeq, hsub, Nat.le_add_right, hmod, true_and]
      by_cases hw : off ≤ k * B + o % B ∧ k * B + o % B < off + buf.length
      · rw [if_pos hw, if_pos (by omega)]
        congr 1
        omega
      · rw [if_neg hw, if_neg (by omega)]
    · -- any other block of the file is none of the range, and is not written
      have hout : ¬(l * B + off ≤ o ∧ o < l * B + off + buf.length) := by
        rcases Nat.lt_or_ge (o / B) l with hlt | hge
        · have : (o / B + 1) * B ≤ l * B := Nat.mul_le_mul_right _ hlt
          rw [Nat.add_mul, Nat.one_mul] at this
          omega
        · have : (l + cnt) * B ≤ o / B * B := Nat.mul_le_mul_right _ (by omega)
          omega
      rw [if_neg hout, devPut, hBeq, if_neg]
      rintro ⟨hblk, -, -, hend⟩
      have hge : cnt ≤ p - blk := by
        by_contra hlt
        have hsame := getElem?_run hrun (Nat.lt_of_not_le hlt)
        rw [show blk + (p - blk) = p by omega] at hsame
        obtain ⟨h₁, h₁'⟩ := List.getElem?_eq_some_iff.mp hp
        obtain ⟨h₂, h₂'⟩ := List.getElem?_eq_some_iff.mp hsame
        have := hnodup.getElem_inj_iff.mp (h₁'.trans h₂'.symm)
        omega
      have : cnt * B ≤ (p - blk) * B := Nat.mul_le_mul_right _ hge
      omega

/-- Reading from a range. -/
theorem devGet_eq (hrun : (file.drop l).take cnt = List.range' blk cnt)
    (hfit : off + n ≤ cnt * psb.blkSize) : devGet psb dev blk off n =
      (List.range n).map fun j => byteAt psb.blkSize dev file (l * psb.blkSize + off + j) := by
  have hB := psb.blkSize_pos
  refine List.map_congr_left fun j hj => ?_
  have hj' := List.mem_range.mp hj
  have hlt : (off + j) / psb.blkSize < cnt := (Nat.div_lt_iff_lt_mul hB).mpr (by omega)
  have hdiv : (l * psb.blkSize + off + j) / psb.blkSize = l + (off + j) / psb.blkSize := by
    rw [Nat.add_assoc, Nat.mul_comm, Nat.mul_add_div hB]
  have hmod : (l * psb.blkSize + off + j) % psb.blkSize = (off + j) % psb.blkSize := by
    rw [Nat.add_assoc, Nat.mul_comm, Nat.mul_add_mod]
  have hget := getElem?_run hrun hlt
  rw [← hdiv] at hget
  rw [byteAt_eq hget, hmod]

/-- The range where a place of the file is. -/
theorem getBlk_run (h : t.Maps psb file) (hoff : off < file.length * psb.blkSize) : ∃ blk cnt,
    tpsFsBtreeGetBlk t (off >>> psb.blkShift) = .ok (blk, cnt) ∧ 0 < cnt ∧
      (file.drop (off / psb.blkSize)).take cnt = List.range' blk cnt ∧
      off / psb.blkSize * psb.blkSize + (off &&& psb.blkMask) = off ∧
      off &&& psb.blkMask < psb.blkSize := by
  have hB := psb.blkSize_pos
  obtain ⟨x, -, -, hlt, hget, hrun⟩ :=
    tpsFsBtreeGetBlk_spec h ((Nat.div_lt_iff_lt_mul hB).mpr hoff)
  rw [psb.shiftRight_blk, psb.and_blkMask]
  exact ⟨_, _, hget, by omega, hrun, Nat.div_add_mod' _ _, Nat.mod_lt _ hB⟩

theorem getBlk_end (h : t.Maps psb file) (hoff : file.length * psb.blkSize ≤ off) :
    tpsFsBtreeGetBlk t (off >>> psb.blkShift) = .error .btreeKeyNotfound := by
  rw [psb.shiftRight_blk]
  exact tpsFsBtreeGetBlk_end h ((Nat.le_div_iff_mul_le psb.blkSize_pos).mpr hoff)

end SylixOS.TpsFs
