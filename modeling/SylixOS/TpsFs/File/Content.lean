import SylixOS.TpsFs.File.Bytes

/-! # Files as arrays of bytes

As long as no commit writes a logged sector into a block of the file, and the blocks of the file are all
different, each operation does to the bytes of the file what it is meant to do. -/

namespace SylixOS.TpsFs
open Lib Blocks Contents

variable {σ : Type} {psb : SuperBlock} {ops : FileOps σ} {s s' : FileVol σ} {file : List ℕ}
  {v : Contents UInt8} {off n fuel : ℕ} {buf : List UInt8}

/-- A commit leaves the data of the file alone. -/
def Untouched (ops : FileOps σ) : TransEnd σ → Prop
  | .committed vol inode => (blocks inode.tree.items).Nodup ∧
      ∀ p ∈ blocks inode.tree.items, ∀ o, ops.logged vol p o = none
  | .rolledBack => True

/-- No file has more blocks, as every place in a file is below `2 ^ 63`. -/
def maxFileBlk : ℕ := 2 ^ 52

namespace FileVol

/-- A file shows the first `b` bytes of what it is meant to hold. -/
structure Shows (psb : SuperBlock) (s : FileVol σ) (file : List ℕ) (v : Contents UInt8) (b : ℕ) :
    Prop where
  maps : s.inode.tree.Maps psb file
  len : s.inode.szData = v.len
  room : b ≤ file.length * psb.blkSize
  bytes : ∀ o < b, byteAt psb.blkSize s.dev file o = v.byte o

/-- And what its inode says about its blocks is right. -/
structure Holds (psb : SuperBlock) (s : FileVol σ) (file : List ℕ) (v : Contents UInt8) (b : ℕ) : Prop
    extends Shows psb s file v b where
  cnt : s.inode.blkCnt = file.length
  small : file.length ≤ maxFileBlk

/-! ## The loops of a write -/

/-- What a write does to a file on the device. -/
structure Put (psb : SuperBlock) (s s' : FileVol σ) (file : List ℕ) (off off' : ℕ) (buf : List UInt8) :
    Prop where
  inode : s'.inode = s.inode
  history : s'.history = s.history
  start : off ≤ off'
  stop : off' ≤ off + buf.length
  done : off' = off + buf.length ∨ file.length * psb.blkSize ≤ off'
  inside : off' = off ∨ off' ≤ file.length * psb.blkSize
  bytes : file.Nodup → ∀ o, byteAt psb.blkSize s'.dev file o =
    if off ≤ o ∧ o < off' then buf.getD (o - off) 0 else byteAt psb.blkSize s.dev file o

/-- Nothing has been written. -/
theorem Put.refl (hdone : buf = [] ∨ file.length * psb.blkSize ≤ off) :
    Put psb s s file off off buf where
  inode := rfl
  history := rfl
  start := le_rfl
  stop := Nat.le_add_right _ _
  done := hdone.imp_left fun h => by rw [h]; rfl
  inside := .inl rfl
  bytes := fun _ o => (if_neg (by omega)).symm

theorem putData_ok {blk offBlk : ℕ} (h : putData psb ops s blk offBlk buf = (s', true)) :
    s'.inode = s.inode ∧ s'.history = s.history ∧ s'.dev = devPut psb s.dev blk offBlk buf := by
  unfold putData at h
  cases hw : ops.devWrite s.vol blk offBlk buf.length with
  | none =>
    rw [hw] at h
    cases h
  | some vol =>
    simp only [hw] at h
    split_ifs at h
    · cases hsync : ops.devSync vol blk offBlk buf.length with
      | none =>
        rw [hsync] at h
        cases h
      | some vol' =>
        rw [hsync] at h
        cases h
        exact ⟨rfl, rfl, rfl⟩
    · cases h
      exact ⟨rfl, rfl, rfl⟩

theorem writeLoop_spec {c off' c' : ℕ} (hmaps : s.inode.tree.Maps psb file) (hfuel : buf.length ≤ fuel)
    (h : writeLoop psb ops fuel off buf c s = (s', off', some c')) :
    Put psb s s' file off off' buf ∧ c' = c + (off' - off) ∧
      (buf ≠ [] → off < file.length * psb.blkSize → off < off') := by
  have hB := psb.blkSize_pos
  induction fuel generalizing s off buf c with
  | zero =>
    obtain rfl : buf = [] := List.eq_nil_of_length_eq_zero (Nat.le_zero.mp hfuel)
    cases h
    exact ⟨.refl (.inl rfl), by omega, fun hne => absurd rfl hne⟩
  | succ fuel ih =>
    rw [writeLoop] at h
    by_cases hnil : buf = []
    · rw [if_pos hnil] at h
      cases h
      exact ⟨.refl (.inl hnil), by omega, fun hne => absurd hnil hne⟩
    rw [if_neg hnil] at h
    have hpos := List.length_pos_iff.mpr hnil
    rcases Nat.lt_or_ge off (file.length * psb.blkSize) with hlt | hge
    · obtain ⟨blk, cnt, hget, hcnt, hrun, hoff, hmask⟩ := getBlk_run hmaps hlt
      simp only [hget] at h
      have hcB : psb.blkSize ≤ psb.blkSize * cnt := Nat.le_mul_of_pos_right _ hcnt
      generalize hn : min buf.length (psb.blkSize * cnt - (off &&& psb.blkMask)) = n at h
      have hnpos : 0 < n := by omega
      have hnlen : (buf.take n).length = n := List.length_take_of_le (by omega)
      have hdroplen : (buf.drop n).length = buf.length - n := List.length_drop
      cases hput : putData psb ops s blk (off &&& psb.blkMask) (buf.take n) with
      | mk s₁ b =>
        rw [hput] at h
        cases b with
        | false => cases h
        | true =>
          obtain ⟨hinode, hhist, hdev⟩ := putData_ok hput
          obtain ⟨hrest, hc, -⟩ := ih (hinode ▸ hmaps) (by omega) h
          have hstart := hrest.start
          have hstop := hrest.stop
          have hend : off + n ≤ file.length * psb.blkSize := by
            have : (off / psb.blkSize + cnt) * psb.blkSize ≤ file.length * psb.blkSize :=
              Nat.mul_le_mul_right _ (length_run hrun hcnt)
            rw [Nat.add_mul, Nat.mul_comm cnt] at this
            omega
          refine ⟨⟨hrest.inode.trans hinode, hrest.history.trans hhist, ?_, by omega, ?_, ?_,
            fun hnodup o => ?_⟩, by omega, fun _ _ => by omega⟩
          · exact (Nat.le_add_right _ _).trans hrest.start
          · exact hrest.done.imp_left fun hd => by omega
          · exact .inr (hrest.inside.elim (fun heq => heq ▸ hend) id)
          · rw [hrest.bytes hnodup o, hdev, byteAt_devPut hnodup hrun hcnt (by
              rw [hnlen, Nat.mul_comm cnt]; omega), hnlen, hoff]
            by_cases h₁ : off + n ≤ o ∧ o < off'
            · rw [if_pos h₁, if_pos (by omega), List.getD_eq_getElem?_getD, List.getElem?_drop,
                List.getD_eq_getElem?_getD]
              congr 2
              omega
            · rw [if_neg h₁]
              by_cases h₂ : off ≤ o ∧ o < off + n
              · rw [if_pos h₂, if_pos (by omega), List.getD_eq_getElem?_getD,
                  List.getElem?_take_of_lt (by omega), List.getD_eq_getElem?_getD]
              · rw [if_neg h₂, if_neg (by omega)]
    · rw [getBlk_end hmaps hge] at h
      cases h
      exact ⟨.refl (.inr hge), by omega, fun _ hlt => absurd hlt (by omega)⟩

/-- The blocks that a file gets, at its end. -/
structure Grown (psb : SuperBlock) (s s' : FileVol σ) (file new : List ℕ) : Prop where
  maps : s'.inode.tree.Maps psb (file ++ new)
  cnt : s'.inode.blkCnt = s.inode.blkCnt + new.length
  szData : s'.inode.szData = s.inode.szData
  dev : s'.dev = s.dev
  history : s'.history = s.history

theorem Grown.refl (hmaps : s.inode.tree.Maps psb file) : Grown psb s s file [] :=
  ⟨by rwa [List.append_nil], rfl, rfl, rfl, rfl⟩

theorem Grown.trans {s₁ : FileVol σ} {new new' : List ℕ} (h : Grown psb s s₁ file new)
    (h' : Grown psb s₁ s' (file ++ new) new') : Grown psb s s' file (new ++ new') where
  maps := by
    rw [← List.append_assoc]
    exact h'.maps
  cnt := by rw [h'.cnt, h.cnt, List.length_append, Nat.add_assoc]
  szData := h'.szData.trans h.szData
  dev := h'.dev.trans h.dev
  history := h'.history.trans h.history

theorem allocLoop_spec {atom alloc N : ℕ} (hatom : atom ≤ 32) (hmaps : s.inode.tree.Maps psb file)
    (hN : alloc ≠ 0 → file.length + alloc ≤ N) (hmax : N + 32 ≤ maxBlkNum)
    (h : allocLoop psb ops atom fuel alloc s = (s', none)) : ∃ new, Grown psb s s' file new ∧
      (new ≠ [] → file.length + new.length < N + 32) ∧ (alloc ≠ 0 → fuel ≠ 0 → new ≠ []) := by
  induction fuel generalizing s file alloc with
  | zero =>
    cases h
    exact ⟨[], .refl hmaps, fun h => absurd rfl h, fun _ h => absurd rfl h⟩
  | succ fuel ih =>
    rw [allocLoop] at h
    split_ifs at h with hzero
    · cases h
      exact ⟨[], .refl hmaps, fun h => absurd rfl h, fun h => absurd hzero h⟩
    cases halloc : ops.allocBlk s.vol atom with
    | none =>
      rw [halloc] at h
      cases h
    | some p =>
      obtain ⟨vol, r⟩ := p
      rw [halloc] at h
      simp only at h
      have hle := r.le
      have hpos := r.pos
      have hlt := hN hzero
      have hlen : (List.range' r.blkStart r.blkCnt).length = r.blkCnt := List.length_range'
      split at h
      · next t freed vol₁ happ hput =>
        have hmaps' := tpsFsBtreeAppendBlk_spec hmaps (by omega) happ
        have hone : file.length + (List.range' r.blkStart r.blkCnt).length < N + 32 := by omega
        cases hadj : ops.adjustBP vol₁ with
        | error e =>
          rw [hadj] at h
          cases h
        | ok vol₂ =>
          rw [hadj] at h
          simp only at h
          generalize hs₁ : ({ s with
            vol := vol₂
            inode := { s.inode with tree := t, blkCnt := s.inode.blkCnt + r.blkCnt } } :
              FileVol σ) = s₁ at h
          have hgrown : Grown psb s s₁ file (List.range' r.blkStart r.blkCnt) := by
            subst hs₁
            exact ⟨hmaps', by rw [hlen], rfl, rfl, rfl⟩
          split_ifs at h
          · cases h
            exact ⟨_, hgrown, fun _ => hone, fun _ _ => List.ne_nil_of_length_pos (by omega)⟩
          · obtain ⟨new, hrest, hsmall, -⟩ := ih hgrown.maps (fun hne => by
              rw [List.length_append]; omega) h
            rw [List.length_append] at hsmall
            refine ⟨_, hgrown.trans hrest, fun _ => ?_, fun _ _ => ?_⟩
            · by_cases hnew : new = []
              · rw [hnew, List.append_nil]
                exact hone
              · rw [List.length_append, ← Nat.add_assoc]
                exact hsmall hnew
            · refine List.ne_nil_of_length_pos ?_
              rw [List.length_append]
              omega
      · cases h

/-- Enough blocks, and not too many of them. -/
theorem blksFor_spec (psb : SuperBlock) (size : ℕ) :
    size ≤ blksFor psb size * psb.blkSize ∧ blksFor psb size ≤ size / 4096 + 1 := by
  have hB := psb.blkSize_pos
  have hdiv := Nat.div_add_mod' size psb.blkSize
  have hlt := Nat.mod_lt size hB
  have hle : size / psb.blkSize ≤ size / 4096 := Nat.div_le_div_left psb.blkSize_ge (by omega)
  rw [blksFor, psb.shiftRight_blk, psb.and_blkMask]
  split_ifs with h
  · rw [Nat.add_mul, Nat.one_mul]
    omega
  · omega

/-! ## A transaction -/

theorem setSize_ok (h : setSize ops s off = (s', true)) : s'.dev = s.dev ∧ s'.history = s.history ∧
    s'.inode = { s.inode with szData := max s.inode.szData off } := by
  unfold setSize at h
  split_ifs at h with hlt
  · rw [max_eq_right hlt.le]
    simp only at h
    split_ifs at h
    · split at h
      · cases h
      · cases h
        exact ⟨rfl, rfl, rfl⟩
    · cases h
      exact ⟨rfl, rfl, rfl⟩
  · rw [max_eq_left (Nat.le_of_not_lt hlt)]
    cases h
    exact ⟨rfl, rfl, rfl⟩

/-- What a file holds that has grown, after some bytes have been put into it. -/
theorem Holds.write {s₁ s₂ : FileVol σ} {new : List ℕ} (hholds : s.Holds psb file v v.len)
    (hgrown : Grown psb s s₁ file new) (hput : Put psb s₁ s₂ (file ++ new) off (off + n) buf)
    (hdev : s'.dev = s₂.dev)
    (hinode : s'.inode = { s₂.inode with szData := max s₂.inode.szData (off + n) })
    (hsmall : (file ++ new).length ≤ maxFileBlk) (hnodup : (file ++ new).Nodup) (hoff : off ≤ v.len)
    (hpos : 0 < n) (hle : n ≤ buf.length) :
    s'.Holds psb (file ++ new) (v.write off (buf.take n)) (v.write off (buf.take n)).len := by
  have hB := psb.blkSize_pos
  have hroom := hholds.room
  have hlen : (buf.take n).length = n := List.length_take_of_le hle
  have hne : buf.take n ≠ [] := List.ne_nil_of_length_pos (by omega)
  rw [hput.inode] at hinode
  rw [len_write hne, hlen]
  refine ⟨⟨?_, ?_, ?_, fun o ho => ?_⟩, ?_, hsmall⟩
  · rw [hinode]
    exact hgrown.maps
  · rw [hinode, len_write hne, hlen, hgrown.szData, hholds.len]
  · have hmore : file.length * psb.blkSize ≤ (file ++ new).length * psb.blkSize :=
      Nat.mul_le_mul_right _ (by rw [List.length_append]; omega)
    rcases hput.inside with heq | hin
    · omega
    · exact max_le (hroom.trans hmore) hin
  · rw [hdev, hput.bytes hnodup o, hgrown.dev, byte_write, hlen]
    by_cases hin : off ≤ o ∧ o < off + n
    · rw [if_pos hin, if_pos hin, List.getD_eq_getElem?_getD, List.getD_eq_getElem?_getD,
        List.getElem?_take_of_lt (by omega)]
    · have holt : o < v.len := by omega
      rw [if_neg hin, if_neg hin, byteAt_append_left hB (holt.trans_le hroom), hholds.bytes o holt]
  · rw [hinode, List.length_append, ← hholds.cnt]
    exact hgrown.cnt

/-- `tpsFsInodeWrite` puts some of the data into the file. -/
theorem inodeWrite_spec (hholds : s.Holds psb file v v.len) (hoff : off ≤ v.len) (hbuf : buf ≠ [])
    (hmax : off + buf.length < 2 ^ 63) (h : inodeWrite psb ops s off buf = (s', .ok n)) :
    0 < n ∧ n ≤ buf.length ∧ s'.history = s.history ∧ ((blocks s'.inode.tree.items).Nodup →
      ∃ file', s'.Holds psb file' (v.write off (buf.take n)) (v.write off (buf.take n)).len) := by
  have hB := psb.blkSize_pos
  obtain ⟨hfit, hfew⟩ := blksFor_spec psb (off + buf.length)
  have hcnt := hholds.cnt
  have hroom := hholds.room
  have hpos := List.length_pos_iff.mpr hbuf
  have hN : blksFor psb (off + buf.length) + 32 ≤ maxFileBlk := by
    unfold maxFileBlk
    omega
  unfold inodeWrite at h
  simp only at h
  generalize hend : blksFor psb (off + buf.length) = blkEnd at hfit hfew hN h
  cases halloc : allocLoop psb ops (min 32 (max (s.inode.blkCnt >>> 4)
      (max 4 (blkEnd - s.inode.blkCnt)))) (blkEnd - s.inode.blkCnt) (blkEnd - s.inode.blkCnt) s with
  | mk s₁ e =>
    rw [halloc] at h
    cases e with
    | some e => cases h
    | none =>
      obtain ⟨new, hgrown, hsmall, hnew⟩ := allocLoop_spec (N := blkEnd) (min_le_left _ _) hholds.maps
        (by omega) (hN.trans (by decide)) halloc
      cases hloop : writeLoop psb ops buf.length off buf 0 s₁ with
      | mk s₂ r =>
        obtain ⟨off', r⟩ := r
        simp only [hloop] at h
        cases hset : setSize ops s₂ off' with
        | mk s₃ b =>
          rw [hset] at h
          cases b with
          | false => cases h
          | true =>
            cases r with
            | none => cases h
            | some c' =>
              cases h
              obtain ⟨hput, hn, hprog⟩ := writeLoop_spec hgrown.maps le_rfl hloop
              obtain ⟨hdev, hhist, hinode⟩ := setSize_ok hset
              have hstart := hput.start
              have hstop := hput.stop
              -- the place is in the blocks that the file has now, so a byte is written at least
              have hin : off < (file ++ new).length * psb.blkSize := by
                by_cases hzero : blkEnd - s.inode.blkCnt = 0
                · have : blkEnd * psb.blkSize ≤ (file ++ new).length * psb.blkSize :=
                    Nat.mul_le_mul_right _ (by rw [List.length_append]; omega)
                  omega
                · have := List.length_pos_iff.mpr (hnew hzero hzero)
                  have : (file.length + 1) * psb.blkSize ≤ (file ++ new).length * psb.blkSize :=
                    Nat.mul_le_mul_right _ (by rw [List.length_append]; omega)
                  rw [Nat.add_mul] at this
                  omega
              have hlt := hprog hbuf hin
              have hlen : (buf.take n).length = n := List.length_take_of_le (by omega)
              have hne : buf.take n ≠ [] := List.ne_nil_of_length_pos (by omega)
              refine ⟨by omega, by omega, ?_, fun hnodup => ⟨file ++ new, ?_⟩⟩
              · rw [hhist, hput.history, hgrown.history]
              obtain rfl : off' = off + n := by omega
              have hlist : blocks s'.inode.tree.items = file ++ new := by
                rw [hinode, hput.inode]
                exact hgrown.maps.blocks
              refine hholds.write hgrown hput hdev hinode ?_ (hlist ▸ hnodup) hoff (by omega) (by omega)
              rw [List.length_append]
              by_cases hnil : new = []
              · rw [hnil]
                exact hholds.small
              · have := hsmall hnil
                omega

end FileVol
end SylixOS.TpsFs
