import SylixOS.TpsFs.Trans.Header
import SylixOS.TpsFs.Trans.ReadYourWrites

/-! # Committing a transaction

The list of areas is written behind the logged data and everything is flushed; then the header
goes to its slot in status `COMMIT`, the sectors are copied to their places, and the header is
written again in status `COMPLETE`. After that the cursors move on to the next slot and to the
log sectors behind this transaction.
-/

namespace SylixOS.TpsFs
open Lib Lib.Store Lib.Disk Lib.Outcome

/-- `TPS_TRANS_REV_DATASEC`. -/
def transRevDataSec (psb : SuperBlock) : ℕ := 0x400 <<< (psb.blkShift - 12)

/-- `tpsFsBtreeTransInit`: the log of a volume that is being mounted. -/
def tpsFsBtreeTransInit (psb : SuperBlock) : TransSb :=
  let transSecStart := (psb.logStartBlk <<< psb.blkShift) >>> psb.secShift
  let transSecCnt := psb.logBlkCnt >>> (tranShift + 1)
  let transDataStart := transSecStart + transSecCnt
  { transSecStart := transSecStart
    transSecCnt := transSecCnt
    transDataStart := transDataStart
    transDataCnt := ((psb.logBlkCnt <<< psb.blkShift) >>> psb.secShift) - transSecCnt
    transCurSec := transSecStart
    transSecOff := 0
    secBuff := List.replicate psb.secSize 0
    dataCurSec := transDataStart
    serialNum := 0 }

/-- The transaction object that `tpsFsBtreeTransInit` allocates. The reserved words of its area
list are not initialised. -/
def newTrans (psb : SuperBlock) (r₀ r₁ : ℕ) : Trans :=
  { magic := transMagic
    reserved := 0
    generation := psb.generation
    serialNum := 0
    iType := 1
    iStatus := .init
    reserved64 := 0
    time := 0
    dataSecNum := 0
    dataSecCnt := 0
    checkSum := 0
    tdReserved0 := r₀
    tdReserved1 := r₁
    secAreaArr := [] }

namespace TransSb

/-- The slot for the next header. -/
def advanceSlot (psb : SuperBlock) (t : TransSb) : TransSb :=
  if psb.secSize ≤ t.transSecOff + tranSize then
    { t with
      transCurSec :=
        if t.transSecStart + t.transSecCnt ≤ t.transCurSec + 1 then t.transSecStart
        else t.transCurSec + 1
      transSecOff := 0
      secBuff := List.replicate psb.secSize 0 }
  else { t with transSecOff := t.transSecOff + tranSize }

/-- The cursors after the transaction whose data ends at sector `dataEnd`, the same at the end of
a commit and of a check. -/
def advance (psb : SuperBlock) (t : TransSb) (dataEnd : ℕ) : TransSb :=
  { t.advanceSlot psb with
    dataCurSec :=
      if t.transDataStart + t.transDataCnt - transRevDataSec psb ≤ dataEnd then t.transDataStart
      else dataEnd
    serialNum := u64 (t.serialNum + 1) }

end TransSb

/-- The loop of `tpsFsTransCommitAndFree` that writes the list of areas, from index `i` on. The
first sector of `SB_pucSectorBuf` is `buf`, with what was left in it. -/
def writeSecAreas : ℕ → ℕ → List UInt8 → VolM Unit
  | 0, _, _ => pure ()
  | n + 1, i, buf => do
    let v ← get
    if i < v.ptrans.secAreaArr.length then do
      let (i', buf') := tpsFsTransSecAreaSerial v.ptrans i buf v.psb.secSize
      Vol.devWriteSector buf' (v.ptrans.dataSecNum + v.ptrans.dataSecCnt) 1 false
      modify fun v =>
        { v with ptrans := { v.ptrans with dataSecCnt := u32 (v.ptrans.dataSecCnt + 1) } }
      writeSecAreas n i' buf'
    else pure ()

/-- The status is set, and the header goes into the buffered header sector. -/
def Vol.sealHeader (st : TransStatus) (v : Vol) : Vol :=
  let (t, buf) := tpsFsTransSerial { v.ptrans with iStatus := st } v.ptranssb.secBuff
    v.ptranssb.transSecOff
  { v with ptrans := t, ptranssb := { v.ptranssb with secBuff := buf } }

/-- The buffered header sector goes to the device with the header in status `st`. -/
def writeHeader (st : TransStatus) : VolM Unit := do
  modify (Vol.sealHeader st)
  let v ← get
  Vol.devWriteSector v.ptranssb.secBuff v.ptranssb.transCurSec 1 true

/-- The loop that copies the sectors of an area from the log to their place, a block at a time. -/
def copySectors (src dst cnt : ℕ) : ℕ → ℕ → VolM Unit
  | 0, _ => pure ()
  | n + 1, j => do
    let v ← get
    if j < cnt then do
      let wrCnt := min (cnt - j) v.psb.secPerBlk
      let buf ← Vol.devReadSector (src + j) wrCnt
      Vol.devWriteSector buf (dst + j) wrCnt false
      copySectors src dst cnt n (j + wrCnt)
    else pure ()

/-- The loop over the areas that writes the sectors of the transaction to their places. -/
def applyAreas : List SecArea → VolM Unit
  | [] => pure ()
  | a :: as => do
    let v ← get
    copySectors (v.ptrans.dataSecNum + a.secOff) a.secStart a.secCnt a.secCnt 0
    Vol.devSync
    applyAreas as

/-- Set the status of the transaction. -/
def setStatus (st : TransStatus) (v : Vol) : Vol :=
  { v with ptrans := { v.ptrans with iStatus := st } }

/-- From here on the transaction can only be redone: the volume is not to be used any more. -/
def setFault (v : Vol) : Vol := { v with transFault := true }

/-- `tpsFsTransCommitAndFree` behind the adjustment of the block pool. -/
def commitLog (buf : List UInt8) : VolM Unit := do
  let v ← get
  if v.ptrans.secAreaArr = [] then modify (setStatus .complete)
  else do
    writeSecAreas v.ptrans.secAreaArr.length 0 buf
    Vol.devSync
    onFail .bufWrite (setStatus .init) (writeHeader .commit)
    onFail .transCommitFault setFault (applyAreas v.ptrans.secAreaArr)
    onFail .transCommitFault (fun v => setFault (setStatus .commit v)) (writeHeader .complete)
    modify fun v =>
      { v with ptranssb := v.ptranssb.advance v.psb (v.ptrans.dataSecNum + v.ptrans.dataSecCnt) }

/-- `tpsFsTransCommitAndFree`. When the volume has a block pool, `tpsFsBtreeAdjustBP` comes first:
`adjust` are the writes that it adds to the transaction. -/
def tpsFsTransCommitAndFree (adjust : List TransWrite) (buf : List UInt8) : VolM Unit := do
  failWith .bpAdjust (tpsFsTransWrites adjust)
  commitLog buf

/-! ## What the parts of a commit do to the device -/

theorem copySectors_isOk {v : Vol} (src dst cnt : ℕ) (hdst : dst + cnt ≤ src)
    (hsrc : src + cnt ≤ v.dev.sectorCnt) {n j : ℕ} (hn : cnt - j ≤ n) :
    ∃ es, copySectors src dst cnt n j v = (.ok (), v.after es) ∧ Whole v.psb.secSize es ∧
      Within (fun s => dst + j ≤ s ∧ s < dst + cnt) es ∧
      ∀ s, sector v.psb.secSize (applyAll v.psb.secSize v.dev.data es) s =
        sector v.psb.secSize v.dev.data
          (if dst + j ≤ s ∧ s < dst + cnt then src + (s - dst) else s) := by
  induction n generalizing j v with
  | zero =>
    refine ⟨[], by rw [Vol.after_nil]; rfl, fun _ _ h => by simp at h, fun _ _ h => by simp at h,
      fun s => ?_⟩
    rw [if_neg (by omega), applyAll_nil]
  | succ n ih =>
    rcases Nat.lt_or_ge j cnt with hj | hj
    · have hpos : 0 < v.psb.secPerBlk := Nat.two_pow_pos _
      generalize hk : min (cnt - j) v.psb.secPerBlk = k
      have hk₀ : 0 < k ∧ j + k ≤ cnt := by omega
      generalize hbuf : slice v.dev.data ((src + j) * v.psb.secSize) (k * v.psb.secSize) = buf
      have hlen : k * v.psb.secSize = buf.length := by rw [← hbuf, slice_length]
      have hread : Vol.devReadSector (src + j) k v = (.ok buf, v) := by
        rw [Vol.devReadSector_isOk (by omega), hbuf]
      have hwrite : Vol.devWriteSector buf (dst + j) k false v =
          (.ok (), v.after (writes v.psb.secSize buf (dst + j) k)) := by
        rw [Vol.devWriteSector_isOk hlen.le (by omega), if_neg (by simp), List.append_nil]
      obtain ⟨es, hrun, hwhole, hwithin, hdata⟩ :=
        ih (v := v.after (writes v.psb.secSize buf (dst + j) k)) (j := j + k) hsrc (by omega)
      refine ⟨writes v.psb.secSize buf (dst + j) k ++ es, ?_, ?_, ?_, fun s => ?_⟩
      · have hunf : copySectors src dst cnt (n + 1) j v = copySectors src dst cnt n (j + k)
            (v.after (writes v.psb.secSize buf (dst + j) k)) := by
          rw [copySectors, bind_of_ok (get_ok.mpr ⟨rfl, rfl⟩), if_pos hj, hk, bind_of_ok hread,
            bind_of_ok hwrite]
        rw [hunf, hrun, Vol.after_after]
      · exact (Whole.writes hlen.le).append hwhole
      · refine Within.append (Within.writes fun i hi => ?_) (hwithin.mono fun s hs => ?_) <;> omega
      · have h₁ (t : ℕ) : sector v.psb.secSize
            (applyAll v.psb.secSize v.dev.data (writes v.psb.secSize buf (dst + j) k)) t =
            if dst + j ≤ t ∧ t < dst + j + k then
              sector v.psb.secSize v.dev.data (src + j + (t - (dst + j)))
            else sector v.psb.secSize v.dev.data t := by
          rw [applyAll_writes hlen.le, List.take_of_length_le hlen.ge, ← hbuf, sector_copy]
        have h₂ := hdata s
        rw [applyAll_append]
        refine h₂.trans ((h₁ _).trans ?_)
        -- the sectors of the log are not among those that are written
        by_cases hs : dst + j ≤ s ∧ s < dst + cnt
        · rw [if_pos hs]
          by_cases hs' : dst + (j + k) ≤ s ∧ s < dst + cnt
          · rw [if_pos hs', if_neg (by omega)]
          · rw [if_neg hs', if_pos (by omega)]
            congr 1
            omega
        · have hs' : ¬ (dst + (j + k) ≤ s ∧ s < dst + cnt) := by omega
          rw [if_neg hs, if_neg hs', if_neg (by omega)]
    · refine ⟨[], ?_, fun _ _ h => by simp at h, fun _ _ h => by simp at h, fun s => ?_⟩
      · rw [Vol.after_nil, copySectors, bind_of_ok (get_ok.mpr ⟨rfl, rfl⟩), if_neg (by omega)]
        rfl
      · rw [if_neg (by omega), applyAll_nil]

theorem devSync_isOk (v : Vol) : Vol.devSync v = (.ok (), v.after [.sync]) := rfl

theorem applyAreas_isOk {v : Vol} (as : List SecArea)
    (has : ∀ a ∈ as, a.secStart + a.secCnt ≤ v.ptrans.dataSecNum ∧
      v.ptrans.dataSecNum + a.secOff + a.secCnt ≤ v.dev.sectorCnt) :
    ∃ es, applyAreas as v = (.ok (), v.after es) ∧ Whole v.psb.secSize es ∧
      Within (fun s => ∃ a ∈ as, a.Covers s) es ∧ (as ≠ [] → ∃ es', es = es' ++ [.sync]) ∧
      ∀ s, sector v.psb.secSize (applyAll v.psb.secSize v.dev.data es) s =
        sector v.psb.secSize v.dev.data (place v.ptrans.dataSecNum as s) := by
  induction as generalizing v with
  | nil =>
    exact ⟨[], by rw [Vol.after_nil]; rfl, fun _ _ h => by simp at h, fun _ _ h => by simp at h,
      fun h => absurd rfl h, fun s => rfl⟩
  | cons a as ih =>
    obtain ⟨ha₁, ha₂⟩ := has a List.mem_cons_self
    have has' : ∀ b ∈ as, _ := fun b hb => has b (List.mem_cons_of_mem _ hb)
    obtain ⟨es₁, hrun₁, hw₁, hin₁, hdata₁⟩ := copySectors_isOk (v := v)
      (v.ptrans.dataSecNum + a.secOff) a.secStart a.secCnt (by omega) (by omega) (n := a.secCnt)
      (j := 0) (by omega)
    obtain ⟨es₂, hrun₂, hw₂, hin₂, hsync₂, hdata₂⟩ := ih (v := v.after (es₁ ++ [.sync])) has'
    refine ⟨es₁ ++ [.sync] ++ es₂, ?_, (hw₁.append Whole.sync).append hw₂, ?_, fun _ => ?_,
      fun s => ?_⟩
    · rw [applyAreas, bind_of_ok (get_ok.mpr ⟨rfl, rfl⟩), bind_of_ok hrun₁,
        bind_of_ok (devSync_isOk _), Vol.after_after, hrun₂, Vol.after_after]
    · refine (Within.append (hin₁.mono fun s hs => ?_) Within.sync).append
        (hin₂.mono fun s ⟨b, hb, hs⟩ => ⟨b, List.mem_cons_of_mem _ hb, hs⟩)
      exact ⟨a, List.mem_cons_self, by rw [SecArea.covers_iff]; omega⟩
    · by_cases hnil : as = []
      · subst hnil
        rw [applyAreas] at hrun₂
        obtain ⟨-, h⟩ := pure_ok.mp hrun₂
        have hnil : es₂ = [] := by
          have := congrArg (fun w : Vol => w.dev.trace) h
          simpa [Vol.after, Dev.after] using this
        exact ⟨es₁, by rw [hnil, List.append_nil]⟩
      · obtain ⟨es', rfl⟩ := hsync₂ hnil
        exact ⟨es₁ ++ [.sync] ++ es', by simp only [List.append_assoc]⟩
    · have h₂ := hdata₂ s
      rw [applyAll_append]
      refine h₂.trans ?_
      have h₁ : (v.after (es₁ ++ [.sync])).dev.data = applyAll v.psb.secSize v.dev.data es₁ := by
        change applyAll v.psb.secSize v.dev.data (es₁ ++ [.sync]) = _
        rw [applyAll_append]
        rfl
      rw [h₁]
      refine (hdata₁ _).trans ?_
      change sector v.psb.secSize v.dev.data
        (if a.secStart + 0 ≤ place v.ptrans.dataSecNum as s ∧
            place v.ptrans.dataSecNum as s < a.secStart + a.secCnt then
          v.ptrans.dataSecNum + a.secOff + (place v.ptrans.dataSecNum as s - (a.secStart + 0))
        else place v.ptrans.dataSecNum as s) = _
      rw [place_cons]
      congr 1
      cases hloc : locate as s with
      | some o =>
        -- the log itself is not changed
        rw [place_some hloc, if_neg (by omega), if_neg (by simp)]
      | none =>
        rw [place_none hloc]
        by_cases hs : a.Covers s
        · have hs' := SecArea.covers_iff.mp hs
          rw [if_pos (by omega), if_pos ⟨rfl, hs⟩]
          omega
        · have hs' := mt SecArea.covers_iff.mpr hs
          rw [if_neg (by omega), if_neg (fun h => hs h.2)]

/-- The volume with another count of log sectors in its transaction. -/
def Vol.setCnt (v : Vol) (n : ℕ) : Vol := { v with ptrans := { v.ptrans with dataSecCnt := n } }

/-- How many sectors a list of `n` areas takes. -/
def listSecs (psb : SuperBlock) (n : ℕ) : ℕ :=
  (n + (perSector psb.secSize - 1)) / perSector psb.secSize

theorem perSector_pos (psb : SuperBlock) : 0 < perSector psb.secSize := by
  have := psb.secSize_ge
  unfold perSector entryRoom
  omega

theorem listSecs_zero (psb : SuperBlock) : listSecs psb 0 = 0 := by
  have := perSector_pos psb
  unfold listSecs
  rw [Nat.zero_add, Nat.div_eq_of_lt (by omega)]

theorem listSecs_succ (psb : SuperBlock) {n : ℕ} (hn : 0 < n) :
    listSecs psb n = listSecs psb (n - min n (perSector psb.secSize)) + 1 := by
  have hp := perSector_pos psb
  unfold listSecs
  generalize perSector psb.secSize = p at *
  rcases Nat.le_total n p with h | h
  · rw [Nat.min_eq_left h, Nat.sub_self, Nat.zero_add, Nat.div_eq_of_lt (a := p - 1) (by omega)]
    exact Nat.div_eq_of_lt_le (by omega) (by omega)
  · rw [Nat.min_eq_right h, ← Nat.add_div_right _ hp]
    congr 1
    omega

theorem listSecs_le (psb : SuperBlock) (n : ℕ) : listSecs psb n ≤ n := by
  have hp := perSector_pos psb
  unfold listSecs
  generalize perSector psb.secSize = p at *
  refine Nat.lt_succ_iff.mp ((Nat.div_lt_iff_lt_mul hp).mpr ?_)
  have := Nat.le_mul_of_pos_right n hp
  rw [Nat.succ_mul]
  omega

/-- Sector `s` holds the part of the area list that begins with area `i`. -/
def ListSector (psb : SuperBlock) (f : ℕ → UInt8) (t : Trans) (s i : ℕ) : Prop :=
  ∃ buf, buf.length = psb.secSize ∧
    sector psb.secSize f s = (tpsFsTransSecAreaSerial t i buf psb.secSize).2

/-- The area that the sector behind the one of area `i` begins with. -/
def listNext (v : Vol) (i : ℕ) : ℕ :=
  i + min (v.ptrans.secAreaArr.length - i) (perSector v.psb.secSize)

theorem listSecs_next {v : Vol} {i : ℕ} (hi : i < v.ptrans.secAreaArr.length) :
    listSecs v.psb (v.ptrans.secAreaArr.length - i) =
      listSecs v.psb (v.ptrans.secAreaArr.length - listNext v i) + 1 := by
  rw [listSecs_succ v.psb (by omega), Nat.sub_sub]
  rfl

theorem lt_listNext {v : Vol} {i : ℕ} (hi : i < v.ptrans.secAreaArr.length) : i < listNext v i := by
  have hp := perSector_pos v.psb
  unfold listNext
  omega

theorem writeSecAreas_done {v : Vol} {i : ℕ} (hi : v.ptrans.secAreaArr.length ≤ i) (n : ℕ)
    (buf : List UInt8) : writeSecAreas n i buf v = (.ok (), v) := by
  cases n with
  | zero => rfl
  | succ n =>
    rw [writeSecAreas, bind_of_ok (get_ok.mpr ⟨rfl, rfl⟩), if_neg hi.not_gt]
    rfl

/-- One round: a sector of the list is written, if the device has it. -/
theorem writeSecAreas_succ {v : Vol} {i : ℕ} {buf : List UInt8} (n : ℕ)
    (hi : i < v.ptrans.secAreaArr.length) (hbuf : buf.length = v.psb.secSize)
    (hcnt : v.ptrans.dataSecCnt + 1 < 2 ^ 32) :
    ∃ buf', (tpsFsTransSecAreaSerial v.ptrans i buf v.psb.secSize).2 = buf' ∧
      buf'.length = v.psb.secSize ∧
      writeSecAreas (n + 1) i buf v =
        if v.ptrans.dataSecNum + v.ptrans.dataSecCnt < v.dev.sectorCnt then
          writeSecAreas n (listNext v i) buf'
            ((v.after [.write (v.ptrans.dataSecNum + v.ptrans.dataSecCnt) buf']).setCnt
              (v.ptrans.dataSecCnt + 1))
        else (.error .bufWrite, v) := by
  have hS : 32 ≤ v.psb.secSize := by
    have := v.psb.secSize_ge
    omega
  have hnext := tpsFsTransSecAreaSerial_fst v.ptrans i buf v.psb.secSize
  have hbuf' := tpsFsTransSecAreaSerial_length v.ptrans i hS hbuf.ge
  rw [hbuf] at hbuf'
  rw [writeSecAreas, bind_of_ok (get_ok.mpr ⟨rfl, rfl⟩), if_pos hi]
  obtain ⟨i', buf', hr⟩ : ∃ i' buf', tpsFsTransSecAreaSerial v.ptrans i buf v.psb.secSize =
    (i', buf') := ⟨_, _, rfl⟩
  rw [hr] at hnext hbuf' ⊢
  dsimp only at hnext hbuf' ⊢
  subst hnext
  refine ⟨buf', rfl, hbuf', ?_⟩
  split_ifs with hdev
  · have hu : u32 (v.ptrans.dataSecCnt + 1) = v.ptrans.dataSecCnt + 1 := Nat.mod_eq_of_lt hcnt
    have hwr : Vol.devWriteSector buf' (v.ptrans.dataSecNum + v.ptrans.dataSecCnt) 1 false v =
        (.ok (), v.after [.write (v.ptrans.dataSecNum + v.ptrans.dataSecCnt) buf']) := by
      rw [Vol.devWriteSector_isOk (by rw [hbuf', Nat.one_mul]) (by omega), if_neg (by simp),
        List.append_nil]
      simp [writes, hbuf', List.take_of_length_le]
    rw [bind_of_ok hwr, bind_of_ok (a := ()) (modify_ok.mpr rfl)]
    refine congrArg (writeSecAreas n (listNext v i) buf') ?_
    dsimp only [Vol.setCnt, Vol.after]
    rw [hu]
  · have hfail : Vol.devWriteSector buf' (v.ptrans.dataSecNum + v.ptrans.dataSecCnt) 1 false v =
        (.error .bufWrite, v) := if_neg (by omega)
    rw [bind_of_error hfail]

theorem writeSecAreas_isOk {v : Vol} {n i : ℕ} {buf : List UInt8}
    (hn : v.ptrans.secAreaArr.length - i ≤ n) (hbuf : buf.length = v.psb.secSize)
    (hcnt : v.ptrans.dataSecCnt + (v.ptrans.secAreaArr.length - i) < 2 ^ 32)
    (hdev : v.ptrans.dataSecNum + v.ptrans.dataSecCnt +
      listSecs v.psb (v.ptrans.secAreaArr.length - i) ≤ v.dev.sectorCnt) :
    ∃ es, writeSecAreas n i buf v = (.ok (), (v.after es).setCnt (v.ptrans.dataSecCnt +
        listSecs v.psb (v.ptrans.secAreaArr.length - i))) ∧ Whole v.psb.secSize es ∧
      Within (fun s => v.ptrans.dataSecNum + v.ptrans.dataSecCnt ≤ s) es ∧
      ∀ k < listSecs v.psb (v.ptrans.secAreaArr.length - i),
        (∃ data, .write (v.ptrans.dataSecNum + v.ptrans.dataSecCnt + k) data ∈ es) ∧
        ListSector v.psb (applyAll v.psb.secSize v.dev.data es) v.ptrans
          (v.ptrans.dataSecNum + v.ptrans.dataSecCnt + k) (i + k * perSector v.psb.secSize) := by
  induction n generalizing v i buf with
  | zero =>
    rw [Nat.le_zero.mp hn, listSecs_zero]
    refine ⟨[], ?_, fun _ _ h => by simp at h, fun _ _ h => by simp at h, fun k hk => by omega⟩
    rw [writeSecAreas_done (by omega), Vol.after_nil]
    rfl
  | succ n ih =>
    by_cases hi : i < v.ptrans.secAreaArr.length
    · have hsuc := listSecs_next hi
      have hlt := lt_listNext hi
      obtain ⟨buf', hr, hbuf', hrun₁⟩ := writeSecAreas_succ n hi hbuf (by omega)
      rw [if_pos (by omega)] at hrun₁
      -- the sector at hand
      generalize hw : IoEvent.write (v.ptrans.dataSecNum + v.ptrans.dataSecCnt) buf' = e at hrun₁
      -- the sectors after it
      obtain ⟨es, hrun, hwhole, hin, hsecs⟩ := ih (v := (v.after [e]).setCnt (v.ptrans.dataSecCnt + 1))
        (i := listNext v i) (by dsimp only [Vol.setCnt, Vol.after]; omega) hbuf'
        (by dsimp only [Vol.setCnt, Vol.after]; omega)
        (by dsimp only [Vol.setCnt, Vol.after, Dev.after]; omega)
      dsimp only [Vol.setCnt, Vol.after] at hwhole hin hsecs
      refine ⟨e :: es, ?_, ?_, ?_, fun k hk => ?_⟩
      · refine hrun₁.trans (hrun.trans ?_)
        dsimp only [Vol.setCnt, Vol.after]
        rw [Dev.after_append, hsuc, Nat.add_assoc, Nat.add_comm 1]
        rfl
      · intro s data hm
        rcases List.mem_cons.mp hm with h | h
        · rw [← hw] at h
          rw [(IoEvent.write.inj h).2, hbuf']
        · exact hwhole s data h
      · intro s data hm
        rcases List.mem_cons.mp hm with h | h
        · rw [← hw] at h
          exact (IoEvent.write.inj h).1.ge
        · have := hin s data h
          omega
      · cases k with
        | zero =>
          refine ⟨⟨buf', by rw [← hw]; exact List.mem_cons_self⟩, buf, hbuf, ?_⟩
          rw [Nat.zero_mul, Nat.add_zero, Nat.add_zero, hr, ← List.singleton_append, applyAll_append,
            sector_applyAll hwhole hin (by omega), ← hw, applyAll_cons_write, applyAll_nil,
            sector_overlay_self _ hbuf']
        | succ k =>
          obtain ⟨⟨data, hmem⟩, hsec⟩ := hsecs k (by omega)
          have hplace : v.ptrans.dataSecNum + (v.ptrans.dataSecCnt + 1) + k =
              v.ptrans.dataSecNum + v.ptrans.dataSecCnt + (k + 1) := by omega
          -- a sector follows only a full one
          have hfull : listNext v i = i + perSector v.psb.secSize := by
            rcases Nat.eq_zero_or_pos (v.ptrans.secAreaArr.length - listNext v i) with hz | hz
            · rw [hsuc, hz, listSecs_zero] at hk
              omega
            · unfold listNext at hz ⊢
              omega
          have hidx : listNext v i + k * perSector v.psb.secSize =
              i + (k + 1) * perSector v.psb.secSize := by
            rw [hfull, Nat.add_mul, Nat.one_mul]
            omega
          rw [hplace] at hmem hsec
          rw [← hidx]
          exact ⟨⟨data, List.mem_cons_of_mem _ hmem⟩, hsec⟩
    · have hz : v.ptrans.secAreaArr.length - i = 0 := by omega
      rw [hz, listSecs_zero]
      refine ⟨[], ?_, fun _ _ h => by simp at h, fun _ _ h => by simp at h, fun k hk => by omega⟩
      rw [writeSecAreas_done (by omega), Vol.after_nil]
      rfl

/-- Also when there is no room for the list of areas, it goes to places behind the data. -/
theorem writeSecAreas_error {v v' : Vol} {n i : ℕ} {buf : List UInt8} {e : TpsErr}
    (hbuf : buf.length = v.psb.secSize)
    (hcnt : v.ptrans.dataSecCnt + (v.ptrans.secAreaArr.length - i) < 2 ^ 32)
    (h : writeSecAreas n i buf v = (.error e, v')) :
    ∃ es c, v' = (v.after es).setCnt c ∧ Whole v.psb.secSize es ∧
      Within (fun s => v.ptrans.dataSecNum + v.ptrans.dataSecCnt ≤ s) es := by
  induction n generalizing v i buf with
  | zero => exact absurd h pure_error
  | succ n ih =>
    rcases Nat.lt_or_ge i v.ptrans.secAreaArr.length with hi | hi
    · have hlt := lt_listNext hi
      obtain ⟨buf', -, hbuf', hrun⟩ := writeSecAreas_succ n hi hbuf (by omega)
      rw [hrun] at h
      split_ifs at h with hdev
      · obtain ⟨es, c, rfl, hw, hin⟩ := ih (v := (v.after _).setCnt _) (i := listNext v i) hbuf'
          (by dsimp only [Vol.setCnt, Vol.after]; omega) h
        refine ⟨.write (v.ptrans.dataSecNum + v.ptrans.dataSecCnt) buf' :: es, c, ?_,
          fun s data hm => ?_, fun s data hm => ?_⟩
        · dsimp only [Vol.setCnt, Vol.after]
          rw [Dev.after_append]
          rfl
        · rcases List.mem_cons.mp hm with hm | hm
          · rw [(IoEvent.write.inj hm).2, hbuf']
          · exact hw s data hm
        · rcases List.mem_cons.mp hm with hm | hm
          · exact (IoEvent.write.inj hm).1.ge
          · have := hin s data hm
            dsimp only [Vol.setCnt, Vol.after] at this
            omega
      · obtain rfl := (Prod.mk.inj h).2
        exact ⟨[], v.ptrans.dataSecCnt, by rw [Vol.after_nil]; rfl, fun _ _ h => by simp at h,
          fun _ _ h => by simp at h⟩
    · rw [writeSecAreas_done hi] at h
      cases h

/-- The list of areas was written, so there was room for it on the device. -/
theorem writeSecAreas_inRange {v v' : Vol} {n i : ℕ} {buf : List UInt8} {u : Unit}
    (hn : v.ptrans.secAreaArr.length - i ≤ n) (hbuf : buf.length = v.psb.secSize)
    (hcnt : v.ptrans.dataSecCnt + (v.ptrans.secAreaArr.length - i) < 2 ^ 32)
    (hdev : v.ptrans.dataSecNum + v.ptrans.dataSecCnt ≤ v.dev.sectorCnt)
    (h : writeSecAreas n i buf v = (.ok u, v')) :
    v.ptrans.dataSecNum + v.ptrans.dataSecCnt +
      listSecs v.psb (v.ptrans.secAreaArr.length - i) ≤ v.dev.sectorCnt := by
  induction n generalizing v i buf with
  | zero =>
    rw [Nat.le_zero.mp hn, listSecs_zero]
    exact hdev
  | succ n ih =>
    rcases Nat.lt_or_ge i v.ptrans.secAreaArr.length with hi | hi
    · have hlt := lt_listNext hi
      obtain ⟨buf', -, hbuf', hrun⟩ := writeSecAreas_succ n hi hbuf (by omega)
      rw [hrun] at h
      split_ifs at h with hroom
      · have hrest := ih (v := (v.after _).setCnt _) (i := listNext v i)
          (by dsimp only [Vol.setCnt, Vol.after]; omega) hbuf'
          (by dsimp only [Vol.setCnt, Vol.after]; omega)
          (by dsimp only [Vol.setCnt, Vol.after, Dev.after]; omega) h
        dsimp only [Vol.setCnt, Vol.after, Dev.after] at hrest
        rw [listSecs_next hi]
        omega
      · cases h
    · rw [Nat.sub_eq_zero_of_le hi, listSecs_zero]
      exact hdev

theorem writeHeader_isOk {v : Vol} (st : TransStatus)
    (hbuf : v.ptranssb.secBuff.length = v.psb.secSize)
    (hoff : v.ptranssb.transSecOff + 64 ≤ v.psb.secSize)
    (hcur : v.ptranssb.transCurSec < v.dev.sectorCnt) :
    writeHeader st v = (.ok (), (v.sealHeader st).after
      [.write v.ptranssb.transCurSec (v.sealHeader st).ptranssb.secBuff, .sync]) := by
  have hlen : (v.sealHeader st).ptranssb.secBuff.length = v.psb.secSize := by
    dsimp only [Vol.sealHeader, tpsFsTransSerial]
    rw [splice_length _ _ _ (by rw [Trans.bytes_length, hbuf]; exact hoff), hbuf]
  have hwr : Vol.devWriteSector (v.sealHeader st).ptranssb.secBuff v.ptranssb.transCurSec 1 true
      (v.sealHeader st) = _ :=
    Vol.devWriteSector_isOk (by rw [hlen, Nat.one_mul]; rfl) hcur
  rw [writeHeader, bind_of_ok (a := ()) (modify_ok.mpr rfl), bind_of_ok (get_ok.mpr ⟨rfl, rfl⟩)]
  refine hwr.trans ?_
  have hone : writes (v.sealHeader st).psb.secSize (v.sealHeader st).ptranssb.secBuff
      v.ptranssb.transCurSec 1 =
      [.write v.ptranssb.transCurSec (v.sealHeader st).ptranssb.secBuff] := by
    simp only [writes, List.range_one, List.map_cons, List.map_nil, Nat.add_zero, Nat.zero_mul,
      List.drop_zero]
    rw [List.take_of_length_le (by rw [hlen]; rfl)]
  rw [hone]
  rfl

/-! ## A commit as a whole -/

namespace Vol

/-- The header of the transaction with `cnt` log sectors in status `st`. -/
def header (v : Vol) (cnt : ℕ) (st : TransStatus) : Trans :=
  let t := { v.ptrans with dataSecCnt := cnt, iStatus := st }
  { t with checkSum := t.sum }

/-- The header sector with this header in its slot. -/
def headerSec (v : Vol) (cnt : ℕ) (st : TransStatus) : List UInt8 :=
  splice v.ptranssb.secBuff v.ptranssb.transSecOff (v.header cnt st).bytes

/-- How many log sectors the transaction has with its list of areas. -/
def fullCnt (v : Vol) : ℕ := v.ptrans.dataSecCnt + listSecs v.psb v.ptrans.secAreaArr.length

/-- The requests of a commit that writes the list of areas by `esList` and the sectors of the
transaction to their places by `esHome`. -/
def commitEvents (v : Vol) (esList esHome : List (IoEvent UInt8)) : List (IoEvent UInt8) :=
  esList ++ .sync ::
    .write v.ptranssb.transCurSec (v.headerSec v.fullCnt .commit) :: .sync ::
    (esHome ++ [.write v.ptranssb.transCurSec (v.headerSec v.fullCnt .complete), .sync])

/-- The volume after a commit. -/
def committed (v : Vol) (esList esHome : List (IoEvent UInt8)) : Vol :=
  { v.after (v.commitEvents esList esHome) with
    ptrans := v.header v.fullCnt .complete
    ptranssb := { v.ptranssb with secBuff := v.headerSec v.fullCnt .complete }.advance v.psb
      (v.ptrans.dataSecNum + v.fullCnt) }

/-- A transaction that can be committed: its list of areas fits behind its data, and its areas
lie before the log. -/
structure Committable (v : Vol) : Prop where
  areas : v.ptrans.secAreaArr ≠ []
  cnt : v.ptrans.dataSecCnt + v.ptrans.secAreaArr.length < 2 ^ 32
  onDev : v.ptrans.dataSecNum + v.fullCnt ≤ v.dev.sectorCnt
  secBuff : v.ptranssb.secBuff.length = v.psb.secSize
  secOff : v.ptranssb.transSecOff + 64 ≤ v.psb.secSize
  curSec : v.ptranssb.transCurSec < v.dev.sectorCnt
  logged : Logged v.ptrans.dataSecCnt v.ptrans.secAreaArr
  below : ∀ a ∈ v.ptrans.secAreaArr, a.secStart + a.secCnt ≤ v.ptrans.dataSecNum

/-- What the requests of a commit are. -/
structure CommitRun (v : Vol) (esList esHome : List (IoEvent UInt8)) : Prop where
  listWhole : Whole v.psb.secSize esList
  listIn : Within (fun s => v.ptrans.dataSecNum + v.ptrans.dataSecCnt ≤ s) esList
  listSecs : ∀ k < listSecs v.psb v.ptrans.secAreaArr.length,
    (∃ data, .write (v.ptrans.dataSecNum + v.ptrans.dataSecCnt + k) data ∈ esList) ∧
    ListSector v.psb (applyAll v.psb.secSize v.dev.data esList) v.ptrans
      (v.ptrans.dataSecNum + v.ptrans.dataSecCnt + k) (k * perSector v.psb.secSize)
  homeWhole : Whole v.psb.secSize esHome
  homeIn : Within (fun s => ∃ a ∈ v.ptrans.secAreaArr, a.Covers s) esHome
  homeSync : ∃ es, esHome = es ++ [.sync]
  home : ∀ f, (f = applyAll v.psb.secSize v.dev.data (esList ++ .sync ::
      [.write v.ptranssb.transCurSec (v.headerSec v.fullCnt .commit), .sync])) → ∀ s,
    sector v.psb.secSize (applyAll v.psb.secSize f esHome) s =
      sector v.psb.secSize f (place v.ptrans.dataSecNum v.ptrans.secAreaArr s)

end Vol

open Vol

theorem commitLog_isOk {v : Vol} {buf : List UInt8} (h : v.Committable)
    (hbuf : buf.length = v.psb.secSize) :
    ∃ esList esHome, commitLog buf v = (.ok (), v.committed esList esHome) ∧
      v.CommitRun esList esHome := by
  have hlen (st : TransStatus) :
      v.ptranssb.transSecOff + (v.header v.fullCnt st).bytes.length ≤
        v.ptranssb.secBuff.length := by
    rw [Trans.bytes_length, h.secBuff]
    exact h.secOff
  -- the list of areas
  obtain ⟨esList, hrun₁, hw₁, hin₁, hsecs⟩ := writeSecAreas_isOk (v := v) (i := 0)
    (n := v.ptrans.secAreaArr.length) (by omega) hbuf (by have := h.cnt; omega)
    (by rw [Nat.sub_zero, Nat.add_assoc]; exact h.onDev)
  rw [Nat.sub_zero] at hrun₁
  simp only [Nat.sub_zero, Nat.zero_add] at hsecs
  -- the header in status `COMMIT`
  generalize hv₁ : ((v.after esList).setCnt v.fullCnt).after [.sync] = v₁
  have hhdr₁ := writeHeader_isOk (v := v₁) .commit (by rw [← hv₁]; exact h.secBuff)
    (by rw [← hv₁]; exact h.secOff) (by rw [← hv₁]; exact h.curSec)
  -- the sectors of the transaction
  generalize hv₂ : (v₁.sealHeader .commit).after
    [.write v₁.ptranssb.transCurSec (v₁.sealHeader .commit).ptranssb.secBuff, .sync] = v₂ at hhdr₁
  have hbuff₂ : v₂.ptranssb.secBuff = v.headerSec v.fullCnt .commit := by
    rw [← hv₂, ← hv₁]
    rfl
  have hsec₂ : v₂.dev.sectorCnt = v.dev.sectorCnt := by
    rw [← hv₂, ← hv₁]
    rfl
  have hnum₂ : v₂.ptrans.dataSecNum = v.ptrans.dataSecNum := by
    rw [← hv₂, ← hv₁]
    rfl
  have hdev₂ : v₂.dev = v.dev.after v.psb.secSize (esList ++ .sync ::
      [.write v.ptranssb.transCurSec (v.headerSec v.fullCnt .commit), .sync]) := by
    have : v₂.dev = ((v.dev.after v.psb.secSize esList).after v.psb.secSize [.sync]).after
        v.psb.secSize [.write v.ptranssb.transCurSec (v.headerSec v.fullCnt .commit), .sync] := by
      rw [← hv₂, ← hv₁]
      rfl
    rw [this, Dev.after_append, Dev.after_append]
    rfl
  have hpsb₂ : v₂.psb = v.psb := by
    rw [← hv₂, ← hv₁]
    rfl
  have hcur₂ : v₂.ptranssb.transCurSec = v.ptranssb.transCurSec := by
    rw [← hv₂, ← hv₁]
    rfl
  obtain ⟨esHome, hrun₂, hw₂, hin₂, hsync₂, hdata₂⟩ := applyAreas_isOk (v := v₂)
    v.ptrans.secAreaArr (fun a ha => by
      have h₁ := h.below a ha
      have h₂ := h.logged a ha
      have h₃ := h.onDev
      unfold Vol.fullCnt at h₃
      rw [hnum₂, hsec₂]
      omega)
  -- the header in status `COMPLETE`
  have hhdr₂ := writeHeader_isOk (v := v₂.after esHome) .complete
    (by
      change v₂.ptranssb.secBuff.length = v₂.psb.secSize
      rw [hbuff₂, Vol.headerSec, splice_length _ _ _ (hlen _), h.secBuff, ← hv₂, ← hv₁]
      rfl)
    (by
      rw [← hv₂, ← hv₁]
      exact h.secOff)
    (by
      change v₂.ptranssb.transCurSec < v₂.dev.sectorCnt
      rw [hsec₂, ← hv₂, ← hv₁]
      exact h.curSec)
  have hbuff₃ : ((v₂.after esHome).sealHeader .complete).ptranssb.secBuff =
      v.headerSec v.fullCnt .complete := by
    have : ((v₂.after esHome).sealHeader .complete).ptranssb.secBuff =
        splice v₂.ptranssb.secBuff v.ptranssb.transSecOff (v.header v.fullCnt .complete).bytes := by
      rw [← hv₂, ← hv₁]
      rfl
    rw [this, hbuff₂, Vol.headerSec, Vol.headerSec,
      splice_splice _ _ _ _ (by rw [Trans.bytes_length, Trans.bytes_length]) (hlen _)]
  rw [hbuff₃] at hhdr₂
  refine ⟨esList, esHome, ?_, ⟨hw₁, hin₁, hsecs, ?_, hin₂, hsync₂ h.areas, ?_⟩⟩
  · rw [commitLog, bind_of_ok (get_ok.mpr ⟨rfl, rfl⟩), if_neg h.areas, bind_of_ok hrun₁,
      bind_of_ok (devSync_isOk _)]
    refine (bind_of_ok (onFail_ok.mpr (hv₁ ▸ hhdr₁))).trans ?_
    rw [bind_of_ok (onFail_ok.mpr hrun₂), bind_of_ok (onFail_ok.mpr hhdr₂)]
    refine (modify_ok (u := ())).mpr ?_
    apply Vol.ext
    · rw [← hv₂, ← hv₁]
      rfl
    · change (v₂.dev.after v₂.psb.secSize esHome).after v₂.psb.secSize
        [.write v₂.ptranssb.transCurSec (v.headerSec v.fullCnt .complete), .sync] = _
      rw [hpsb₂, hcur₂, hdev₂, Dev.after_append, Dev.after_append]
      simp [Vol.committed, Vol.after, Vol.commitEvents]
    · change TransSb.advance ((v₂.after esHome).sealHeader .complete).psb
        ((v₂.after esHome).sealHeader .complete).ptranssb _ = _
      have hsb : ((v₂.after esHome).sealHeader .complete).ptranssb =
          { v.ptranssb with secBuff := v.headerSec v.fullCnt .complete } := by
        rw [← hbuff₃, ← hv₂, ← hv₁]
        rfl
      rw [hsb, ← hv₂, ← hv₁]
      rfl
    · rw [← hv₂, ← hv₁]
      rfl
    · rw [← hv₂, ← hv₁]
      rfl
    · rw [← hv₂, ← hv₁]
      rfl
  · rw [← hv₂, ← hv₁] at hw₂
    exact hw₂
  · rintro f rfl s
    have := hdata₂ s
    rwa [hpsb₂, hdev₂, hnum₂] at this

/-- A commit that succeeds has found room for the list of areas. -/
theorem commitLog_onDev {v v' : Vol} {buf : List UInt8} {u : Unit}
    (hareas : v.ptrans.secAreaArr ≠ [])
    (hbuf : buf.length = v.psb.secSize)
    (hcnt : v.ptrans.dataSecCnt + v.ptrans.secAreaArr.length < 2 ^ 32)
    (hdev : v.ptrans.dataSecNum + v.ptrans.dataSecCnt ≤ v.dev.sectorCnt)
    (h : commitLog buf v = (.ok u, v')) :
    v.ptrans.dataSecNum + v.fullCnt ≤ v.dev.sectorCnt := by
  rw [commitLog, bind_of_ok (get_ok.mpr ⟨rfl, rfl⟩), if_neg hareas] at h
  obtain ⟨_, v₁, h₁, -⟩ := bind_ok.mp h
  have := writeSecAreas_inRange (by omega) hbuf (by omega) hdev h₁
  rwa [Nat.sub_zero, Nat.add_assoc] at this

end SylixOS.TpsFs
