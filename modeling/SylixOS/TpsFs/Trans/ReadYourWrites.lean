import Mathlib
import SylixOS.TpsFs.Trans.ReadWrite

/-! # A transaction reads its own writes

Between its beginning and its commit a transaction sees the device as it was, overlaid by the
writes that it has made. The exception are the sectors of the log that hold these writes: a read
of the log blocks themselves returns what the transaction has put there.
-/

namespace SylixOS.TpsFs
open Lib Lib.Store Lib.Outcome Vol

/-- The arguments of one call of `tpsFsTransWrite`. -/
structure TransWrite where
  blk : ℕ
  uiOff : ℕ
  data : List UInt8

/-- One call after the other, as long as they succeed. -/
def tpsFsTransWrites : List TransWrite → VolM Unit
  | [] => pure ()
  | w :: ws => do
    tpsFsTransWrite true w.blk w.uiOff w.data
    tpsFsTransWrites ws

/-- Contents overlaid by writes, in the order in which they were made. -/
def overlayWrites (psb : SuperBlock) (f : ℕ → UInt8) (ws : List TransWrite) : ℕ → UInt8 :=
  ws.foldl (fun g w => overlay g (blkAddr psb w.blk w.uiOff) w.data) f

theorem overlayWrites_congr {psb : SuperBlock} {f g : ℕ → UInt8} {x : ℕ} (h : f x = g x)
    (ws : List TransWrite) : overlayWrites psb f ws x = overlayWrites psb g ws x := by
  unfold overlayWrites
  induction ws generalizing f g with
  | nil => exact h
  | cons w ws ih => exact ih (overlay_congr h)

/-- The writes go to places before sector `L`. -/
def WritesBelow (psb : SuperBlock) (L : ℕ) (ws : List TransWrite) : Prop :=
  ∀ w ∈ ws, blkAddr psb w.blk w.uiOff + w.data.length ≤ L * psb.secSize

instance (psb : SuperBlock) (L : ℕ) (ws : List TransWrite) : Decidable (WritesBelow psb L ws) :=
  inferInstanceAs (Decidable (∀ _ ∈ _, _))

theorem tpsFsTransWrites_ok {v v' : Vol} {ws : List TransWrite} {u : Unit} (h : v.TransOk)
    (hw : tpsFsTransWrites ws v = (.ok u, v')) :
    v'.TransOk ∧ SameTrans v v' ∧
      (∀ x, ¬ v'.InLog x → v'.view x = overlayWrites v.psb v.view ws x) ∧
      ∀ L, WritesBelow v.psb L ws → Below L v → Below L v' := by
  induction ws generalizing v with
  | nil =>
    obtain ⟨-, rfl⟩ := pure_ok.mp hw
    exact ⟨h, SameTrans.refl v, fun _ _ => rfl, fun _ _ hL => hL⟩
  | cons w ws ih =>
    obtain ⟨_, v₁, h₁, h₂⟩ := bind_ok.mp hw
    obtain ⟨hok, hsame, hview, hbelow⟩ := tpsFsTransWrite_ok h h₁
    obtain ⟨hok', hsame', hview', hbelow'⟩ := ih hok h₂
    refine ⟨hok', hsame.trans hsame', fun x hx => ?_, fun L hL hv => hbelow' L ?_ ?_⟩
    · rw [hview' x hx, hsame.psb]
      exact overlayWrites_congr (hview.2 x fun hx' => hx (hx'.mono hsame')) ws
    · rw [hsame.psb]
      exact fun w' hw' => hL w' (List.mem_cons_of_mem _ hw')
    · exact hbelow L (hL w List.mem_cons_self) hv

theorem tpsFsTransWrites_error {v v' : Vol} {ws : List TransWrite} {e : TpsErr} (h : v.TransOk)
    (hw : tpsFsTransWrites ws v = (.error e, v')) : SameTrans v v' := by
  induction ws generalizing v with
  | nil => exact absurd hw pure_error
  | cons w ws ih =>
    rcases bind_error hw with h₁ | ⟨_, v₁, h₁, h₂⟩
    · exact tpsFsTransWrite_error h h₁
    · obtain ⟨hok, hsame, -, -⟩ := tpsFsTransWrite_ok h h₁
      exact hsame.trans (ih hok h₂)

/-- In a transaction that has made the writes `ws`, every byte outside the log sectors that the
transaction has filled reads as the device contents at its beginning overlaid by the writes, every
range of the device can be read, and the areas are disjoint and fit their array. -/
theorem tpsFsTransRead_after_writes {v v₀ v' : Vol} {time : ℕ} {ws : List TransWrite}
    (hstart : v.ptranssb.transDataStart ≤ v.ptranssb.dataCurSec)
    (hcnt : v.ptranssb.transDataCnt < 2 ^ 32)
    (hinit : tpsFsTransAllocAndInit time v = (.ok true, v₀))
    (hws : tpsFsTransWrites ws v₀ = (.ok (), v')) :
    (∀ blk uiOff szLen, blkAddr v.psb blk uiOff + szLen ≤ v.dev.sectorCnt * v.psb.secSize →
      ∃ buf, tpsFsTransRead blk uiOff szLen v' = (.ok buf, v')) ∧
    (∀ blk uiOff szLen buf w, tpsFsTransRead blk uiOff szLen v' = (.ok buf, w) →
      w = v' ∧ buf.length = szLen ∧
      ∀ i < szLen, ¬ v'.InLog (blkAddr v.psb blk uiOff + i) →
        buf[i]? = some (overlayWrites v.psb v.dev.data ws (blkAddr v.psb blk uiOff + i))) ∧
    v'.ptrans.secAreaArr.Pairwise SecArea.Disjoint ∧
    v'.ptrans.secAreaArr.length ≤ maxArea v.psb := by
  obtain ⟨hok, hpsb, hdev, hview, -⟩ := tpsFsTransAllocAndInit_ok hstart hcnt hinit
  obtain ⟨hok', hsame, hrun, -⟩ := tpsFsTransWrites_ok hok hws
  have hpsb' : v'.psb = v.psb := hsame.psb.trans hpsb
  refine ⟨fun blk uiOff szLen hlen => ?_, fun blk uiOff szLen buf w hr => ?_, hok'.disjoint, ?_⟩
  · rw [← hpsb', ← hdev, ← hsame.sectorCnt] at hlen
    exact ⟨_, tpsFsTransRead_isOk (.inl hok') hlen⟩
  · obtain ⟨rfl, rfl⟩ := tpsFsTransRead_ok (.inl hok') hr
    refine ⟨rfl, slice_length _ _ _, fun i hi hlog => ?_⟩
    rw [slice_getElem?, if_pos hi, hpsb', hrun _ hlog, hpsb, hview]
  · rw [← hpsb']
    exact hok'.short

/-- A volume of 16 MB as formatting lays it out, with nothing on it. -/
def smallVol : Vol where
  psb :=
    { secShift := 9
      blkShift := 12
      generation := 1
      dataStartBlk := 10
      logStartBlk := 3840
      logBlkCnt := 256
      bpStartBlk := 3
      bpBlkCnt := 7
      secShift_ge := secShift_ok
      secShift_le := secShift_le_blkShift
      blkShift_ge := blkShift_ok
      blkShift_lt := blkShift_small
      generation_lt := generation_small }
  dev := { sectorCnt := 32768, data := fun _ => 0, trace := [], sectorCnt_lt := by decide }
  ptranssb :=
    { transSecStart := 30720
      transSecCnt := 2
      transDataStart := 30722
      transDataCnt := 2046
      transCurSec := 30720
      transSecOff := 0
      secBuff := List.replicate 512 0
      dataCurSec := 30722
      serialNum := 0 }
  ptrans :=
    { magic := 0xEF34DDA4
      reserved := 0
      generation := 1
      serialNum := 0
      iType := 1
      iStatus := .init
      reserved64 := 0
      time := 0
      dataSecNum := 0
      dataSecCnt := 0
      checkSum := 0
      tdReserved0 := 0
      tdReserved1 := 0
      secAreaArr := [] }
  transFault := false
  pbp := { blkStart := 3, startOff := 0, blkArr := [] }

/-- One byte written to block 100. -/
def oneByte : List TransWrite := [⟨100, 0, [1]⟩]

set_option maxRecDepth 4000 in
theorem tpsFsTransRead_after_oneByte : ∃ v₀ v',
    tpsFsTransAllocAndInit 0 smallVol = (.ok true, v₀) ∧
    tpsFsTransWrites oneByte v₀ = (.ok (), v') ∧
    v'.ptrans.secAreaArr.Pairwise SecArea.Disjoint ∧
    ∃ buf, tpsFsTransRead 100 0 1 v' = (.ok buf, v') ∧ buf[0]? = some 1 := by
  have key := tpsFsTransRead_after_writes (by decide) (by decide)
    (rfl : tpsFsTransAllocAndInit 0 smallVol = (.ok true, _))
    (rfl : tpsFsTransWrites oneByte _ = (.ok (), _))
  obtain ⟨buf, hbuf⟩ := key.1 100 0 1 (by decide)
  obtain ⟨-, -, hget⟩ := key.2.1 _ _ _ _ _ hbuf
  exact ⟨_, _, rfl, rfl, key.2.2.1, buf, hbuf, hget 0 (by decide) (by decide)⟩

set_option maxRecDepth 4000 in
/-- The block of the log in which the transaction has put its first sector reads as that sector,
and not as it was before: the write was to block 100 only. -/
theorem tpsFsTransRead_of_log : ∃ v₀ v' buf,
    tpsFsTransAllocAndInit 0 smallVol = (.ok true, v₀) ∧
    tpsFsTransWrites oneByte v₀ = (.ok (), v') ∧
    tpsFsTransRead 3840 1024 1 v' = (.ok buf, v') ∧ buf[0]? = some 1 ∧
    overlayWrites smallVol.psb smallVol.dev.data oneByte (blkAddr smallVol.psb 3840 1024) = 0 := by
  refine ⟨_, _, _, rfl, rfl, rfl, ?_, ?_⟩
  · decide
  · decide

end SylixOS.TpsFs
