import SylixOS.TpsFs.Volume
import Mathlib.Tactic.Ring

/-! # Byte ranges in sectors

The four functions that move a byte range between a buffer and the sectors of a block
(`tpsFsTransRead`, `tpsFsTransWrite`, `tpsFsDevBufRead`, `tpsFsDevBufWrite`) cut the range the
same way: a first sector that is not covered from its start, whole sectors, and a last sector
that is not covered to its end. They differ in how a sector is read and written, which is a
parameter here.
-/

namespace SylixOS.TpsFs
open Lib Lib.Store Lib.Outcome

variable (psb : SuperBlock)

/-- The address on the device of a byte of a block. -/
def blkAddr (blk uiOff : ℕ) : ℕ := (blk <<< psb.blkShift) + uiOff

/-- The first sector of a byte range of a block. -/
def rangeSecNum (blk uiOff : ℕ) : ℕ := blkAddr psb blk uiOff >>> psb.secShift

/-- How many sector boundaries a byte range of a block crosses. -/
def rangeSecCnt (blk uiOff szLen : ℕ) : ℕ :=
  ((blkAddr psb blk uiOff + szLen) >>> psb.secShift) - rangeSecNum psb blk uiOff

/-- The first sector of a range that does not start at a sector boundary. What is passed on is
the bytes read so far, the next sector and the number of whole sectors that are left. -/
def readHead (rd : ℕ → ℕ → VolM (List UInt8)) (blk uiOff szLen : ℕ) :
    VolM (List UInt8 × ℕ × ℕ) := do
  let secNum := rangeSecNum psb blk uiOff
  let secCnt := rangeSecCnt psb blk uiOff szLen
  let secOff := uiOff &&& psb.secMask
  if secOff ≠ 0 then do
    let sec ← rd secNum 1
    pure ((sec.drop secOff).take (min szLen (psb.secSize - secOff)), secNum + 1, secCnt - 1)
  else pure ([], secNum, secCnt)

/-- The whole sectors of a range. -/
def readBody (rd : ℕ → ℕ → VolM (List UInt8)) : List UInt8 × ℕ × ℕ → VolM (List UInt8 × ℕ)
  | (buf, secNum, secCnt) => do
    if 0 < secCnt then do
      let mid ← rd secNum secCnt
      pure (buf ++ mid, secNum + secCnt)
    else pure (buf, secNum)

/-- The last sector of a range that does not end at a sector boundary. -/
def readTail (rd : ℕ → ℕ → VolM (List UInt8)) (uiOff szLen : ℕ) :
    List UInt8 × ℕ → VolM (List UInt8)
  | (buf, secNum) => do
    let readLen := (uiOff + szLen) &&& psb.secMask
    if buf.length < szLen ∧ 0 < readLen then do
      let sec ← rd secNum 1
      pure (buf ++ sec.take readLen)
    else pure buf

/-- Read a byte range of a block through a function that reads sectors. -/
def readRange (rd : ℕ → ℕ → VolM (List UInt8)) (blk uiOff szLen : ℕ) : VolM (List UInt8) := do
  let p ← readHead psb rd blk uiOff szLen
  let q ← readBody rd p
  readTail psb rd uiOff szLen q

/-- The first sector of a range to be written: it is read, patched and written. What is passed
on is the number of bytes written, the next sector and the number of whole sectors left. -/
def writeHead (rd : ℕ → ℕ → VolM (List UInt8)) (wr : List UInt8 → ℕ → ℕ → VolM Unit)
    (blk uiOff : ℕ) (data : List UInt8) : VolM (ℕ × ℕ × ℕ) := do
  let secNum := rangeSecNum psb blk uiOff
  let secCnt := rangeSecCnt psb blk uiOff data.length
  let secOff := uiOff &&& psb.secMask
  if secOff ≠ 0 then do
    let readLen := min data.length (psb.secSize - secOff)
    let sec ← rd secNum 1
    wr (splice sec secOff (data.take readLen)) secNum 1
    pure (readLen, secNum + 1, secCnt - 1)
  else pure (0, secNum, secCnt)

/-- The whole sectors of a range to be written. -/
def writeBody (wr : List UInt8 → ℕ → ℕ → VolM Unit) (data : List UInt8) :
    ℕ × ℕ × ℕ → VolM (ℕ × ℕ)
  | (done, secNum, secCnt) => do
    if 0 < secCnt then do
      wr (data.drop done) secNum secCnt
      pure (done + secCnt * psb.secSize, secNum + secCnt)
    else pure (done, secNum)

/-- The last sector of a range to be written. -/
def writeTail (rd : ℕ → ℕ → VolM (List UInt8)) (wr : List UInt8 → ℕ → ℕ → VolM Unit)
    (uiOff : ℕ) (data : List UInt8) : ℕ × ℕ → VolM Unit
  | (done, secNum) => do
    let readLen := (uiOff + data.length) &&& psb.secMask
    if done < data.length ∧ 0 < readLen then do
      let sec ← rd secNum 1
      wr (splice sec 0 ((data.drop done).take readLen)) secNum 1
    else pure ()

/-- Write a byte range of a block through functions that read and that write sectors. -/
def writeRange (rd : ℕ → ℕ → VolM (List UInt8)) (wr : List UInt8 → ℕ → ℕ → VolM Unit)
    (blk uiOff : ℕ) (data : List UInt8) : VolM Unit := do
  let p ← writeHead psb rd wr blk uiOff data
  let q ← writeBody psb wr data p
  writeTail psb rd wr uiOff data q

/-- `tpsFsDevBufRead`. -/
def tpsFsDevBufRead (blk uiOff szLen : ℕ) : VolM (List UInt8) :=
  readRange psb Vol.devReadSector blk uiOff szLen

/-- `tpsFsDevBufWrite`. -/
def tpsFsDevBufWrite (blk uiOff : ℕ) (data : List UInt8) (bSync : Bool) : VolM Unit :=
  writeRange psb Vol.devReadSector (fun buf sec cnt => Vol.devWriteSector buf sec cnt bSync)
    blk uiOff data

/-! ## Where the pieces lie -/

theorem blkAddr_eq (blk uiOff : ℕ) : blkAddr psb blk uiOff = blk * psb.blkSize + uiOff := by
  rw [blkAddr, psb.shiftLeft_blk]

theorem rangeSecNum_eq (blk uiOff : ℕ) :
    rangeSecNum psb blk uiOff = blkAddr psb blk uiOff / psb.secSize := psb.shiftRight_sec _

theorem rangeSecCnt_eq (blk uiOff szLen : ℕ) :
    rangeSecCnt psb blk uiOff szLen =
      (blkAddr psb blk uiOff + szLen) / psb.secSize - blkAddr psb blk uiOff / psb.secSize := by
  rw [rangeSecCnt, rangeSecNum_eq, psb.shiftRight_sec]

/-- An offset in a block lies as far behind a sector boundary as the address it stands for. -/
theorem off_and_secMask (blk uiOff n : ℕ) :
    (uiOff + n) &&& psb.secMask = (blkAddr psb blk uiOff + n) % psb.secSize := by
  rw [psb.and_secMask, blkAddr_eq, psb.blkSize_eq, Nat.add_assoc, ← Nat.mul_assoc,
    Nat.mul_add_mod_self_right]

/-- The pieces of a byte range that starts behind a sector boundary: either it ends in its first
sector, or it is the rest of that sector, whole sectors, and the beginning of the last one. -/
theorem range_pieces {S X n : ℕ} (hS : 0 < S) :
    (n < S - X % S ∧ (X + n) / S - X / S - 1 = 0) ∨
      (n = (S - X % S) + ((X + n) / S - X / S - 1) * S + (X + n) % S ∧ S - X % S ≤ n) := by
  have hX := Nat.div_add_mod X S
  have hXn := Nat.div_add_mod (X + n) S
  have hr := Nat.mod_lt X hS
  have ht := Nat.mod_lt (X + n) hS
  have hqe : X / S ≤ (X + n) / S := Nat.div_le_div_right (Nat.le_add_right _ _)
  obtain ⟨c, he⟩ := Nat.exists_eq_add_of_le hqe
  rw [he] at hXn ⊢
  rw [Nat.add_sub_cancel_left]
  cases c with
  | zero =>
    left
    simp only [Nat.add_zero] at hXn
    omega
  | succ c =>
    right
    have e₁ : S * (X / S + (c + 1)) = S * (X / S) + c * S + S := by ring
    rw [e₁] at hXn
    rw [Nat.add_sub_cancel]
    omega

/-- The pieces of a byte range that starts at a sector boundary. -/
theorem range_pieces_aligned {S X n : ℕ} (hr : X % S = 0) :
    n = ((X + n) / S - X / S) * S + (X + n) % S := by
  have hX := Nat.div_add_mod X S
  have hXn := Nat.div_add_mod (X + n) S
  have hqe : X / S ≤ (X + n) / S := Nat.div_le_div_right (Nat.le_add_right _ _)
  obtain ⟨c, he⟩ := Nat.exists_eq_add_of_le hqe
  have e₁ : S * (X / S + c) = S * (X / S) + c * S := by ring
  rw [he, e₁] at hXn
  rw [he, Nat.add_sub_cancel_left]
  omega

/-- How far a transfer of `n` bytes at address `X` has come after its first sector, when `a`
bytes are done: it is complete, or what is left is whole sectors and a last piece. -/
def HeadDone (X n a secNum secCnt : ℕ) : Prop :=
  (a = n ∧ secCnt = 0) ∨
    (secNum * psb.secSize = X + a ∧ n = a + secCnt * psb.secSize + (X + n) % psb.secSize)

/-- How far the transfer has come after its whole sectors. -/
def BodyDone (X n a secNum : ℕ) : Prop :=
  a = n ∨ (secNum * psb.secSize = X + a ∧ n = a + (X + n) % psb.secSize)

theorem headDone_aligned {X n : ℕ} (hr : X % psb.secSize = 0) :
    HeadDone psb X n 0 (X / psb.secSize) ((X + n) / psb.secSize - X / psb.secSize) := by
  right
  have h := range_pieces_aligned (n := n) hr
  have hX := Nat.div_add_mod' X psb.secSize
  omega

theorem headDone_unaligned (X n : ℕ) :
    HeadDone psb X n (min n (psb.secSize - X % psb.secSize)) (X / psb.secSize + 1)
      ((X + n) / psb.secSize - X / psb.secSize - 1) := by
  have hX := Nat.div_add_mod' X psb.secSize
  have hr := Nat.mod_lt X psb.secSize_pos
  rcases range_pieces (X := X) (n := n) psb.secSize_pos with ⟨h, hc⟩ | ⟨h, hc⟩
  · left
    omega
  · right
    rw [Nat.min_eq_right hc, Nat.add_mul, Nat.one_mul]
    omega

theorem HeadDone.body {X n a secNum secCnt : ℕ} (h : HeadDone psb X n a secNum secCnt) :
    BodyDone psb X n (a + secCnt * psb.secSize) (secNum + secCnt) := by
  rcases h with ⟨rfl, rfl⟩ | ⟨h₁, h₂⟩
  · left
    simp
  · right
    rw [Nat.add_mul]
    omega

/-! ## Reading -/

section Read

variable {psb} {rd : ℕ → ℕ → VolM (List UInt8)} {f : ℕ → UInt8} {v : Vol}
  (hrd : ∀ sec cnt buf w, rd sec cnt v = (.ok buf, w) →
    w = v ∧ buf = slice f (sec * psb.secSize) (cnt * psb.secSize))
include hrd

theorem readHead_ok {v' : Vol} {blk uiOff szLen : ℕ} {p : List UInt8 × ℕ × ℕ}
    (h : readHead psb rd blk uiOff szLen v = (.ok p, v')) :
    v' = v ∧ p.1 = slice f (blkAddr psb blk uiOff) p.1.length ∧
      HeadDone psb (blkAddr psb blk uiOff) szLen p.1.length p.2.1 p.2.2 := by
  have hoff : uiOff &&& psb.secMask = blkAddr psb blk uiOff % psb.secSize := by
    simpa using off_and_secMask psb blk uiOff 0
  unfold readHead at h
  simp only [hoff, rangeSecNum_eq, rangeSecCnt_eq] at h
  generalize blkAddr psb blk uiOff = X at *
  by_cases hr : X % psb.secSize = 0
  · rw [if_neg (by simpa using hr), pure_ok] at h
    obtain ⟨rfl, rfl⟩ := h
    exact ⟨rfl, rfl, headDone_aligned psb hr⟩
  · rw [if_pos hr] at h
    obtain ⟨sec, w, h₁, h₂⟩ := bind_ok.mp h
    obtain ⟨rfl, rfl⟩ := hrd _ _ _ _ h₁
    obtain ⟨rfl, rfl⟩ := pure_ok.mp h₂
    have hX := Nat.div_add_mod' X psb.secSize
    refine ⟨rfl, ?_, ?_⟩
    · simp only [drop_slice, take_slice, hX, slice_length]
    · simpa [drop_slice, take_slice] using headDone_unaligned psb X szLen

theorem readBody_ok {v' : Vol} {X n : ℕ} {p : List UInt8 × ℕ × ℕ} {q : List UInt8 × ℕ}
    (hp : p.1 = slice f X p.1.length) (hd : HeadDone psb X n p.1.length p.2.1 p.2.2)
    (h : readBody rd p v = (.ok q, v')) :
    v' = v ∧ q.1 = slice f X q.1.length ∧ BodyDone psb X n q.1.length q.2 := by
  obtain ⟨buf, secNum, secCnt⟩ := p
  have hb := hd.body
  dsimp only [readBody] at h
  split_ifs at h with hc
  · obtain ⟨mid, w, h₁, h₂⟩ := bind_ok.mp h
    obtain ⟨rfl, rfl⟩ := hrd _ _ _ _ h₁
    obtain ⟨rfl, rfl⟩ := pure_ok.mp h₂
    obtain ⟨_, hz⟩ | ⟨hs, _⟩ := hd
    · exact absurd hz (by simpa using hc.ne')
    refine ⟨rfl, ?_, by simpa using hb⟩
    dsimp only at hp hs ⊢
    rw [List.length_append, slice_length, slice_add, ← hp, hs]
  · obtain ⟨rfl, rfl⟩ := pure_ok.mp h
    obtain rfl : secCnt = 0 := by omega
    exact ⟨rfl, hp, by simpa using hb⟩

theorem readTail_ok {v' : Vol} {blk uiOff n : ℕ} {q : List UInt8 × ℕ} {buf : List UInt8}
    (hq : q.1 = slice f (blkAddr psb blk uiOff) q.1.length)
    (hd : BodyDone psb (blkAddr psb blk uiOff) n q.1.length q.2)
    (h : readTail psb rd uiOff n q v = (.ok buf, v')) :
    v' = v ∧ buf = slice f (blkAddr psb blk uiOff) n := by
  obtain ⟨done, secNum⟩ := q
  dsimp only [readTail] at h
  simp only [off_and_secMask psb blk] at h
  generalize blkAddr psb blk uiOff = X at *
  dsimp only at hq hd
  have ht := Nat.mod_lt (X + n) psb.secSize_pos
  split_ifs at h with hc
  · obtain ⟨sec, w, h₁, h₂⟩ := bind_ok.mp h
    obtain ⟨rfl, rfl⟩ := hrd _ _ _ _ h₁
    obtain ⟨rfl, rfl⟩ := pure_ok.mp h₂
    refine ⟨rfl, ?_⟩
    obtain hz | ⟨hs, hn⟩ := hd
    · omega
    · rw [take_slice, Nat.one_mul, Nat.min_eq_left ht.le, hs]
      conv_rhs => rw [hn, slice_add, ← hq]
  · obtain ⟨rfl, rfl⟩ := pure_ok.mp h
    refine ⟨rfl, ?_⟩
    have hlen : done.length = n := by
      rcases hd with hz | ⟨_, hn⟩ <;> omega
    rwa [hlen] at hq

/-- A range function over a store returns the bytes of the range. -/
theorem readRange_ok {v' : Vol} {blk uiOff szLen : ℕ} {buf : List UInt8}
    (h : readRange psb rd blk uiOff szLen v = (.ok buf, v')) :
    v' = v ∧ buf = slice f (blkAddr psb blk uiOff) szLen := by
  obtain ⟨p, w, h₁, h'⟩ := bind_ok.mp h
  obtain ⟨rfl, hp, hd⟩ := readHead_ok hrd h₁
  obtain ⟨q, w', h₂, h₃⟩ := bind_ok.mp h'
  obtain ⟨rfl, hq, hb⟩ := readBody_ok hrd hp hd h₂
  exact readTail_ok hrd hq hb h₃

omit hrd in
/-- A range that lies on the device is read. -/
theorem readRange_isOk {N : ℕ}
    (hrd : ∀ sec cnt, sec + cnt ≤ N →
      rd sec cnt v = (.ok (slice f (sec * psb.secSize) (cnt * psb.secSize)), v))
    {blk uiOff n : ℕ} (hn : blkAddr psb blk uiOff + n ≤ N * psb.secSize)
    (hread : ∀ sec cnt buf w, rd sec cnt v = (.ok buf, w) →
      w = v ∧ buf = slice f (sec * psb.secSize) (cnt * psb.secSize)) :
    readRange psb rd blk uiOff n v = (.ok (slice f (blkAddr psb blk uiOff) n), v) := by
  have hS := psb.secSize_pos
  have hhead : ∃ p, readHead psb rd blk uiOff n v = (.ok p, v) := by
    have hoff : uiOff &&& psb.secMask = blkAddr psb blk uiOff % psb.secSize := by
      simpa using off_and_secMask psb blk uiOff 0
    unfold readHead
    simp only [hoff, rangeSecNum_eq]
    split_ifs with hr
    · have hlt : blkAddr psb blk uiOff / psb.secSize < N := by
        have hX := Nat.div_add_mod' (blkAddr psb blk uiOff) psb.secSize
        by_contra hc
        have := Nat.mul_le_mul_right psb.secSize (Nat.not_lt.mp hc)
        omega
      exact ⟨_, bind_ok.mpr ⟨_, _, hrd _ 1 (by omega), rfl⟩⟩
    · exact ⟨_, rfl⟩
  obtain ⟨p, hp⟩ := hhead
  obtain ⟨-, hp₁, hd⟩ := readHead_ok hread hp
  have hbody : ∃ q, readBody rd p v = (.ok q, v) := by
    obtain ⟨buf, secNum, secCnt⟩ := p
    dsimp only [readBody]
    split_ifs with hc
    · have hle : secNum + secCnt ≤ N := by
        rcases hd with ⟨_, hz⟩ | ⟨hs, hn'⟩
        · dsimp only at hz
          omega
        · dsimp only at hs hn'
          refine Nat.le_of_mul_le_mul_right (c := psb.secSize) ?_ hS
          rw [Nat.add_mul]
          omega
      exact ⟨_, bind_ok.mpr ⟨_, _, hrd _ _ hle, rfl⟩⟩
    · exact ⟨_, rfl⟩
  obtain ⟨q, hq⟩ := hbody
  obtain ⟨-, hq₁, hb⟩ := readBody_ok hread hp₁ hd hq
  have htail : ∃ buf, readTail psb rd uiOff n q v = (.ok buf, v) := by
    obtain ⟨buf, secNum⟩ := q
    dsimp only [readTail]
    split_ifs with hc
    · have hlt : secNum < N := by
        rcases hb with hz | ⟨hs, -⟩
        · dsimp only at hz
          omega
        · dsimp only at hs
          refine Nat.lt_of_mul_lt_mul_right (a := psb.secSize) ?_
          omega
      exact ⟨_, bind_ok.mpr ⟨_, _, hrd _ 1 hlt, rfl⟩⟩
    · exact ⟨_, rfl⟩
  obtain ⟨buf, ht⟩ := htail
  have h : readRange psb rd blk uiOff n v = (.ok buf, v) :=
    bind_ok.mpr ⟨_, _, hp, bind_ok.mpr ⟨_, _, hq, ht⟩⟩
  rw [h, (readRange_ok hread h).2]

end Read

/-! ## Writing -/

section Write

/-- The step from `w` to `w'` wrote `d` at address `a`, as far as can be seen at the addresses
that are not spoilt: some writes use up space on the same device. -/
def Wrote (view : Vol → ℕ → UInt8) (spoilt : Vol → ℕ → Prop) (w w' : Vol) (a : ℕ)
    (d : List UInt8) : Prop :=
  (∀ x, spoilt w x → spoilt w' x) ∧ ∀ x, ¬ spoilt w' x → view w' x = overlay (view w) a d x

variable {view : Vol → ℕ → UInt8} {spoilt : Vol → ℕ → Prop}

theorem Wrote.refl (w : Vol) (a : ℕ) : Wrote view spoilt w w a [] :=
  ⟨fun _ h => h, fun x _ => by rw [overlay_nil]⟩

theorem Wrote.append {w w₁ w₂ : Vol} {a : ℕ} {d₁ d₂ : List UInt8}
    (h₁ : Wrote view spoilt w w₁ a d₁) (h₂ : Wrote view spoilt w₁ w₂ (a + d₁.length) d₂) :
    Wrote view spoilt w w₂ a (d₁ ++ d₂) := by
  refine ⟨fun x hx => h₂.1 x (h₁.1 x hx), fun x hx => ?_⟩
  rw [h₂.2 x hx, overlay_append]
  exact overlay_congr (h₁.2 x fun hs => hx (h₂.1 x hs))

theorem Wrote.of_splice {w w' : Vol} {a p n : ℕ} {d : List UInt8} (h : p + d.length ≤ n)
    (hw : Wrote view spoilt w w' a (splice (slice (view w) a n) p d)) :
    Wrote view spoilt w w' (a + p) d := by
  refine ⟨hw.1, fun x hx => ?_⟩
  rw [hw.2 x hx, overlay_splice_slice _ _ _ _ _ h]

variable {psb}

theorem body_lt_top {X n done secNum secCnt top : ℕ} (hc : 0 < secCnt)
    (hs : secNum * psb.secSize = X + done)
    (hn : n = done + secCnt * psb.secSize + (X + n) % psb.secSize) (htop : X + n ≤ top) :
    (secNum + secCnt - 1) * psb.secSize < top := by
  have hS := psb.secSize_pos
  have hle := Nat.mul_le_mul_right psb.secSize hc
  rw [Nat.sub_mul, Nat.add_mul]
  omega

variable {rd : ℕ → ℕ → VolM (List UInt8)} {wr : List UInt8 → ℕ → ℕ → VolM Unit}
  {good : Vol → Prop} {top : ℕ}
  (hrd : ∀ w sec cnt buf w', good w → rd sec cnt w = (.ok buf, w') →
    w' = w ∧ buf = slice (view w) (sec * psb.secSize) (cnt * psb.secSize))
  (hwr : ∀ w sec cnt buf w' u, good w → cnt * psb.secSize ≤ buf.length → 0 < cnt →
    (sec + cnt - 1) * psb.secSize < top → wr buf sec cnt w = (.ok u, w') →
    good w' ∧ Wrote view spoilt w w' (sec * psb.secSize) (buf.take (cnt * psb.secSize)))
include hrd hwr

theorem writeHead_ok {v v' : Vol} {blk uiOff : ℕ} {data : List UInt8} {p : ℕ × ℕ × ℕ}
    (hv : good v) (htop : blkAddr psb blk uiOff + data.length ≤ top)
    (h : writeHead psb rd wr blk uiOff data v = (.ok p, v')) :
    good v' ∧ Wrote view spoilt v v' (blkAddr psb blk uiOff) (data.take p.1) ∧
      p.1 ≤ data.length ∧ HeadDone psb (blkAddr psb blk uiOff) data.length p.1 p.2.1 p.2.2 := by
  have hoff : uiOff &&& psb.secMask = blkAddr psb blk uiOff % psb.secSize := by
    simpa using off_and_secMask psb blk uiOff 0
  unfold writeHead at h
  simp only [hoff, rangeSecNum_eq, rangeSecCnt_eq] at h
  generalize blkAddr psb blk uiOff = X at *
  have hr := Nat.mod_lt X psb.secSize_pos
  split_ifs at h with hc
  · obtain ⟨sec, w, h₁, h₂⟩ := bind_ok.mp h
    obtain ⟨rfl, rfl⟩ := hrd _ _ _ _ _ hv h₁
    obtain ⟨_, w₁, h₃, h₄⟩ := bind_ok.mp h₂
    obtain ⟨rfl, rfl⟩ := pure_ok.mp h₄
    have hlen : X % psb.secSize + (data.take (min data.length (psb.secSize - X % psb.secSize))).length
        ≤ 1 * psb.secSize := by
      rw [List.length_take]
      omega
    have hsp : (splice (slice (view w) (X / psb.secSize * psb.secSize) (1 * psb.secSize))
        (X % psb.secSize) (data.take (min data.length (psb.secSize - X % psb.secSize)))).length =
        1 * psb.secSize := by
      rw [splice_length _ _ _ (by rw [slice_length]; exact hlen), slice_length]
    have hX := Nat.div_add_mod' X psb.secSize
    obtain ⟨hg, hw⟩ := hwr _ _ _ _ _ _ hv hsp.ge Nat.one_pos (by rw [Nat.add_sub_cancel]; omega) h₃
    rw [List.take_of_length_le hsp.le] at hw
    have hw' := hw.of_splice hlen
    rw [Nat.div_add_mod'] at hw'
    exact ⟨hg, hw', Nat.min_le_left _ _, headDone_unaligned psb X data.length⟩
  · obtain ⟨rfl, rfl⟩ := pure_ok.mp h
    exact ⟨hv, Wrote.refl _ _, Nat.zero_le _, headDone_aligned psb (by simpa using hc)⟩

omit hrd in
theorem writeBody_ok {v w w' : Vol} {X : ℕ} {data : List UInt8} {p : ℕ × ℕ × ℕ} {q : ℕ × ℕ}
    (hw : good w) (hp : Wrote view spoilt v w X (data.take p.1)) (hle : p.1 ≤ data.length)
    (hd : HeadDone psb X data.length p.1 p.2.1 p.2.2) (htop : X + data.length ≤ top)
    (h : writeBody psb wr data p w = (.ok q, w')) :
    good w' ∧ Wrote view spoilt v w' X (data.take q.1) ∧ q.1 ≤ data.length ∧
      BodyDone psb X data.length q.1 q.2 := by
  obtain ⟨done, secNum, secCnt⟩ := p
  have hb := hd.body
  dsimp only [writeBody] at h hp hle
  split_ifs at h with hc
  · obtain ⟨_, w₁, h₁, h₂⟩ := bind_ok.mp h
    obtain ⟨rfl, rfl⟩ := pure_ok.mp h₂
    obtain ⟨_, hz⟩ | ⟨hs, hn⟩ := hd
    · exact absurd hz (by simpa using hc.ne')
    dsimp only at hs hn hb
    have hle' : secCnt * psb.secSize ≤ (data.drop done).length := by
      rw [List.length_drop]
      omega
    obtain ⟨hg, hw₁⟩ := hwr _ _ _ _ _ _ hw hle' hc (body_lt_top hc hs hn htop) h₁
    refine ⟨hg, ?_, by dsimp only; omega, hb⟩
    have hlen : (data.take done).length = done := by
      rw [List.length_take]
      omega
    have := hp.append (by rw [hlen, ← hs]; exact hw₁)
    rwa [← List.take_add] at this
  · obtain ⟨rfl, rfl⟩ := pure_ok.mp h
    obtain rfl : secCnt = 0 := by omega
    exact ⟨hw, hp, hle, by simpa using hb⟩

theorem writeTail_ok {v w w' : Vol} {blk uiOff : ℕ} {data : List UInt8} {q : ℕ × ℕ} {u : Unit}
    (hw : good w) (hq : Wrote view spoilt v w (blkAddr psb blk uiOff) (data.take q.1))
    (hle : q.1 ≤ data.length) (hd : BodyDone psb (blkAddr psb blk uiOff) data.length q.1 q.2)
    (htop : blkAddr psb blk uiOff + data.length ≤ top)
    (h : writeTail psb rd wr uiOff data q w = (.ok u, w')) :
    good w' ∧ Wrote view spoilt v w' (blkAddr psb blk uiOff) data := by
  obtain ⟨done, secNum⟩ := q
  dsimp only [writeTail] at h hq hle
  simp only [off_and_secMask psb blk] at h
  generalize blkAddr psb blk uiOff = X at *
  have ht := Nat.mod_lt (X + data.length) psb.secSize_pos
  unfold BodyDone at hd
  dsimp only at hd
  split_ifs at h with hc
  · obtain ⟨sec, w₁, h₁, h₂⟩ := bind_ok.mp h
    obtain ⟨rfl, rfl⟩ := hrd _ _ _ _ _ hw h₁
    obtain hz | ⟨hs, hn⟩ := hd
    · omega
    have hall : (data.drop done).take ((X + data.length) % psb.secSize) = data.drop done := by
      apply List.take_of_length_le
      rw [List.length_drop]
      omega
    rw [hall] at h₂
    have hlen : 0 + (data.drop done).length ≤ 1 * psb.secSize := by
      rw [List.length_drop]
      omega
    have hsp : (splice (slice (view w₁) (secNum * psb.secSize) (1 * psb.secSize)) 0
        (data.drop done)).length = 1 * psb.secSize := by
      rw [splice_length _ _ _ (by rw [slice_length]; exact hlen), slice_length]
    obtain ⟨hg, hw₂⟩ := hwr _ _ _ _ _ _ hw hsp.ge Nat.one_pos (by rw [Nat.add_sub_cancel]; omega) h₂
    rw [List.take_of_length_le hsp.le] at hw₂
    have hw₃ := hw₂.of_splice hlen
    have hlen' : (data.take done).length = done := by
      rw [List.length_take]
      omega
    have := hq.append (by rw [hlen', ← hs]; simpa using hw₃)
    rw [List.take_append_drop] at this
    exact ⟨hg, this⟩
  · obtain ⟨-, rfl⟩ := pure_ok.mp h
    have : done = data.length := by
      rcases hd with hz | ⟨_, hn⟩ <;> omega
    rw [this, List.take_length] at hq
    exact ⟨hw, hq⟩

variable (psb view spoilt good top) in
/-- A range function that writes leaves the bytes of the range in the view. -/
theorem writeRange_ok {v v' : Vol} {blk uiOff : ℕ} {data : List UInt8} {u : Unit} (hv : good v)
    (htop : blkAddr psb blk uiOff + data.length ≤ top)
    (h : writeRange psb rd wr blk uiOff data v = (.ok u, v')) :
    good v' ∧ Wrote view spoilt v v' (blkAddr psb blk uiOff) data := by
  obtain ⟨p, w, h₁, h'⟩ := bind_ok.mp h
  obtain ⟨hg, hp, hle, hd⟩ := writeHead_ok hrd hwr hv htop h₁
  obtain ⟨q, w', h₂, h₃⟩ := bind_ok.mp h'
  obtain ⟨hg', hq, hle', hb⟩ := writeBody_ok hwr hg hp hle hd htop h₂
  exact writeTail_ok hrd hwr hg' hq hle' hb htop h₃

section Failure

variable {weak : Vol → Prop}
  (hre : ∀ w sec cnt e w', good w → rd sec cnt w = (.error e, w') → w' = w)
  (hwe : ∀ w sec cnt buf w' e, good w → cnt * psb.secSize ≤ buf.length → 0 < cnt →
    wr buf sec cnt w = (.error e, w') → weak w')
  (hweak : ∀ w, good w → weak w)
include hre hwe hweak

omit hwr in
theorem writeHead_error {v v' : Vol} {blk uiOff : ℕ} {data : List UInt8} {e : TpsErr}
    (hv : good v) (h : writeHead psb rd wr blk uiOff data v = (.error e, v')) : weak v' := by
  unfold writeHead at h
  dsimp only at h
  have hr := Nat.mod_lt uiOff psb.secSize_pos
  rw [psb.and_secMask] at h
  split_ifs at h with hc
  · rcases bind_error h with h₁ | ⟨sec, w, h₁, h₂⟩
    · rw [hre _ _ _ _ _ hv h₁]
      exact hweak v hv
    · obtain ⟨rfl, rfl⟩ := hrd _ _ _ _ _ hv h₁
      rcases bind_error h₂ with h₃ | ⟨_, w₁, -, h₄⟩
      · refine hwe _ _ _ _ _ _ hv ?_ Nat.one_pos h₃
        rw [splice_length, slice_length]
        rw [slice_length, List.length_take]
        omega
      · exact absurd h₄ pure_error
  · exact absurd h pure_error

omit hrd hwr hre hweak in
theorem writeBody_error {w w' : Vol} {X : ℕ} {data : List UInt8} {p : ℕ × ℕ × ℕ} {e : TpsErr}
    (hw : good w) (hd : HeadDone psb X data.length p.1 p.2.1 p.2.2)
    (h : writeBody psb wr data p w = (.error e, w')) : weak w' := by
  obtain ⟨done, secNum, secCnt⟩ := p
  dsimp only [writeBody] at h
  split_ifs at h with hc
  · rcases bind_error h with h₁ | ⟨_, w₁, -, h₂⟩
    · refine hwe _ _ _ _ _ _ hw ?_ hc h₁
      rcases hd with ⟨_, hz⟩ | ⟨-, hn⟩
      · exact absurd hz (by simpa using hc.ne')
      · dsimp only at hn
        rw [List.length_drop]
        omega
    · exact absurd h₂ pure_error
  · exact absurd h pure_error

omit hwr in
theorem writeTail_error {w w' : Vol} {uiOff : ℕ} {data : List UInt8} {q : ℕ × ℕ} {e : TpsErr}
    (hw : good w) (h : writeTail psb rd wr uiOff data q w = (.error e, w')) : weak w' := by
  obtain ⟨done, secNum⟩ := q
  dsimp only [writeTail] at h
  rw [psb.and_secMask] at h
  have hr := Nat.mod_lt (uiOff + data.length) psb.secSize_pos
  split_ifs at h with hc
  · rcases bind_error h with h₁ | ⟨sec, w₁, h₁, h₂⟩
    · rw [hre _ _ _ _ _ hw h₁]
      exact hweak w hw
    · obtain ⟨rfl, rfl⟩ := hrd _ _ _ _ _ hw h₁
      refine hwe _ _ _ _ _ _ hw ?_ Nat.one_pos h₂
      rw [splice_length, slice_length]
      rw [slice_length, List.length_take]
      omega
  · exact absurd h pure_error

variable (psb view spoilt good top weak) in
/-- What holds after a range function that writes, also when it fails half way. -/
theorem writeRange_error {v v' : Vol} {blk uiOff : ℕ} {data : List UInt8} {e : TpsErr}
    (hv : good v) (htop : blkAddr psb blk uiOff + data.length ≤ top)
    (h : writeRange psb rd wr blk uiOff data v = (.error e, v')) : weak v' := by
  rcases bind_error h with h₁ | ⟨p, w, h₁, h'⟩
  · exact writeHead_error hrd hre hwe hweak hv h₁
  obtain ⟨hg, hp, hle, hd⟩ := writeHead_ok hrd hwr hv htop h₁
  rcases bind_error h' with h₂ | ⟨q, w', h₂, h₃⟩
  · exact writeBody_error hwe hg hd h₂
  obtain ⟨hg', -, -, -⟩ := writeBody_ok hwr hg hp hle hd htop h₂
  exact writeTail_error hrd hre hwe hweak hg' h₃

end Failure

end Write

end SylixOS.TpsFs
