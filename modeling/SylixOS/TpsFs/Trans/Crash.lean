import SylixOS.TpsFs.Trans.Recover

/-! # A power cut during a transaction

Whatever the disk holds when the power fails while a transaction is logged or committed, after the
check of the log the places outside the log are as they were before the transaction, or all its
writes have reached them.
-/

namespace SylixOS.TpsFs
open Lib Lib.Store Lib.Disk Lib.Outcome

namespace Vol

variable {u v : Vol}

/-! ## What a commit leaves at the places of the transaction -/

theorem sector_view (h : v.Open) (s : ℕ) :
    sector v.psb.secSize v.view s =
      sector v.psb.secSize v.dev.data (place v.ptrans.dataSecNum v.ptrans.secAreaArr s) := by
  have hS := v.psb.secSize_pos
  refine List.ext_getElem? fun i => ?_
  rw [sector, sector, slice_getElem?, slice_getElem?]
  split_ifs with hi
  · rw [view_eq h, Nat.mul_comm s, Nat.mul_add_div hS, Nat.div_eq_of_lt hi, Nat.add_zero,
      Nat.mul_add_mod, Nat.mod_eq_of_lt hi, Nat.mul_comm _ s, place]
    cases locate v.ptrans.secAreaArr s <;> rfl
  · rfl

theorem LogOk.curSec_range (h : v.LogOk) :
    (tpsFsBtreeTransInit v.psb).transSecStart ≤ v.ptranssb.transCurSec ∧
      v.ptranssb.transCurSec < (tpsFsBtreeTransInit v.psb).transDataStart := by
  have hsec := h.sec_lt
  have hS := transDataStart_eq v.psb
  rw [h.curSec]
  generalize v.ptranssb.serialNum % slotCnt v.psb / slotsPerSec v.psb = j at hsec
  omega

theorem CommitRun.sector_home {esList esHome : List (IoEvent UInt8)} (h : v.Committable)
    (hr : v.CommitRun esList esHome) (hopen : v.Open)
    (hcur : v.ptranssb.transCurSec < v.ptrans.dataSecNum) {s : ℕ} (hs : s < v.ptrans.dataSecNum)
    (hne : s ≠ v.ptranssb.transCurSec) :
    sector v.psb.secSize (v.committed esList esHome).dev.data s = sector v.psb.secSize v.view s := by
  have heq : v.commitEvents esList esHome = (esList ++ .sync ::
      [.write v.ptranssb.transCurSec (v.headerSec v.fullCnt .commit), .sync]) ++ esHome ++
      [.write v.ptranssb.transCurSec (v.headerSec v.fullCnt .complete), .sync] := by
    simp [commitEvents]
  change sector _ (applyAll _ _ (v.commitEvents esList esHome)) _ = _
  rw [heq, applyAll_append, applyAll_append, applyAll_cons_write, applyAll_sync, applyAll_nil,
    sector_overlay_other _ (h.headerSec_length _ _) hne, hr.home _ rfl, sector_view hopen]
  -- the copied sector is neither in the list of areas nor the header sector
  have hplace : place v.ptrans.dataSecNum v.ptrans.secAreaArr s ≠ v.ptranssb.transCurSec ∧
      place v.ptrans.dataSecNum v.ptrans.secAreaArr s <
        v.ptrans.dataSecNum + v.ptrans.dataSecCnt := by
    cases hloc : locate v.ptrans.secAreaArr s with
    | some o =>
      have := h.logged.locate_lt hloc
      rw [place_some hloc]
      omega
    | none =>
      rw [place_none hloc]
      omega
  rw [applyAll_append, applyAll_sync, applyAll_cons_write, applyAll_sync, applyAll_nil,
    sector_overlay_other _ (h.headerSec_length _ _) hplace.1,
    sector_applyAll hr.listWhole hr.listIn (by omega)]

/-- The disk holds all that is needed to redo the transaction that `u` was about to commit, and its
header says so. -/
structure Redoable (u : Vol) (d : ℕ → UInt8) : Prop where
  cur : sector u.psb.secSize d u.ptranssb.transCurSec = u.headerSec u.fullCnt .commit
  headers : ∀ j < (tpsFsBtreeTransInit u.psb).transSecCnt,
    (tpsFsBtreeTransInit u.psb).transSecStart + j ≠ u.ptranssb.transCurSec →
    sector u.psb.secSize d ((tpsFsBtreeTransInit u.psb).transSecStart + j) =
      sector u.psb.secSize u.dev.data ((tpsFsBtreeTransInit u.psb).transSecStart + j)
  log : ∀ s, u.ptrans.dataSecNum ≤ s → s < u.ptrans.dataSecNum + u.ptrans.dataSecCnt →
    sector u.psb.secSize d s = sector u.psb.secSize u.dev.data s
  list : ∀ k < listSecs u.psb u.ptrans.secAreaArr.length, ListSector u.psb d u.ptrans
    (u.ptrans.dataSecNum + u.ptrans.dataSecCnt + k) (k * perSector u.psb.secSize)
  home : ∀ s < (tpsFsBtreeTransInit u.psb).transSecStart,
    (∀ a ∈ u.ptrans.secAreaArr, ¬ a.Covers s) →
    sector u.psb.secSize d s = sector u.psb.secSize u.dev.data s

/-! ## The check on such disks -/

variable (dev : Dev) (r₀ r₁ : ℕ) (pbp : BlkPool) {n : ℕ} {buf : List UInt8}

variable {dev} in
theorem Redoable.ring (h : u.Redoable dev.data) (hu : u.Running)
    (hdev : u.ptrans.dataSecNum + u.fullCnt ≤ u.dev.sectorCnt)
    (hk : u.ptranssb.serialNum < 2 ^ 64) :
    Ring u.psb dev.data u.ptranssb.serialNum (u.header u.fullCnt .commit) := by
  have hlog := hu.log
  refine hlog.ring.write hlog.slotCnt_pos ?_ ?_ hlog.buffLen ?_ hlog.buffVacant
    (header_fits hu hdev hk (.inl rfl)) rfl hu.serial
  · rw [← hlog.curSec, ← hlog.secOff]
    exact h.cur
  · intro j hj hne
    refine h.headers j hj ?_
    rw [hlog.curSec]
    omega
  · rw [← hlog.curSec]
    exact hlog.buffSame

/-- On such a disk the check brings the writes of the transaction to their places. -/
theorem Redoable.checkTrans (h : u.Redoable dev.data) (hu : u.Running)
    (hareas : u.ptrans.secAreaArr ≠ []) (hdev : u.ptrans.dataSecNum + u.fullCnt ≤ u.dev.sectorCnt)
    (hk : u.ptranssb.serialNum < 2 ^ 64) (hcnt : dev.sectorCnt = u.dev.sectorCnt)
    (hn : slotCnt u.psb + maxArea u.psb ≤ n) (hbuf : buf.length = u.psb.secSize) (t₀ : Trans) :
    ∃ w, tspFsCheckTrans n t₀ buf (Vol.mount u.psb dev r₀ r₁ pbp) = (.ok (some ()), w) ∧
      ∀ s < (tpsFsBtreeTransInit u.psb).transSecStart,
        sector u.psb.secSize w.dev.data s = sector u.psb.secSize u.view s := by
  have hshort := hu.trans.short
  have hstart := hu.dataStart_le
  have hS := transDataStart_eq u.psb
  have hcur := hu.log.curSec_range
  have hm := hu.log.mounting hcnt (h.ring hu hdev hk) r₀ r₁ pbp
  obtain ⟨x, esList, esHome, hcheck, hcom, hr, hdata, hx⟩ :=
    hm.checkTrans_commit (n := n) hu hareas hdev hcnt h.list (by omega) (by omega) hbuf t₀
  refine ⟨_, hcheck, fun s hs => ?_⟩
  have hhome := hr.sector_home hcom hx.isOpen (s := s)
    (by rw [hx.curSec, hx.dataSecNum]; omega) (by rw [hx.dataSecNum]; omega)
    (by rw [hx.curSec]; omega)
  rw [sector_view hx.isOpen, hx.psb, hx.areas, hx.dataSecNum, hdata] at hhome
  rw [hhome, sector_view hu.trans.isOpen]
  cases hloc : locate u.ptrans.secAreaArr s with
  | some o =>
    have := hu.trans.logged.locate_lt hloc
    rw [place_some hloc]
    exact h.log _ (by omega) (by omega)
  | none =>
    rw [place_none hloc]
    exact h.home s hs (locate_none hloc)

/-- On a disk whose log is in order the check changes nothing. -/
theorem LogOk.checkTrans (h : v.LogOk) (hcnt : dev.sectorCnt = v.dev.sectorCnt)
    (hd : ∀ s < (tpsFsBtreeTransInit v.psb).transDataStart,
      sector v.psb.secSize dev.data s = sector v.psb.secSize v.dev.data s)
    (hn : slotCnt v.psb ≤ n) (t₀ : Trans) (buf : List UInt8) :
    ∃ res w, tspFsCheckTrans n t₀ buf (Vol.mount v.psb dev r₀ r₁ pbp) = (.ok res, w) ∧
      w.dev = dev ∧ (0 < v.ptranssb.serialNum ∨ 16 ≤ slotCnt v.psb → res = some ()) := by
  have hN := h.slotCnt_pos
  have hS := transDataStart_eq v.psb
  rcases h.ring.congr (g := dev.data) hN (fun j hj => hd _ (by omega)) with
    ⟨hz, hvac⟩ | ⟨e, last, he, hring, hst, -, -⟩
  · have hempty : (Vol.mount v.psb dev r₀ r₁ pbp).Empty := ⟨rfl, hN, hvac⟩
    obtain ⟨res, w, hrun, hw, hend⟩ := hempty.checkTrans n t₀ buf
    exact ⟨res, w, hrun, hw, fun h => hend (h.resolve_left (by omega)) (by omega)⟩
  · have hm := h.mounting hcnt hring r₀ r₁ pbp
    exact ⟨_, _, hm.checkTrans_complete hst hn t₀ buf, rfl, fun _ => rfl⟩

/-! ## What a power cut leaves -/

theorem ListSector.congr {psb : SuperBlock} {f g : ℕ → UInt8} {t : Trans} {s i : ℕ}
    (h : ListSector psb f t s i) (hfg : sector psb.secSize g s = sector psb.secSize f s) :
    ListSector psb g t s i := by
  obtain ⟨buf, hlen, hbuf⟩ := h
  exact ⟨buf, hlen, hfg.trans hbuf⟩

section Cut

variable {esLog esList esHome : List (IoEvent UInt8)} {f₀ f d : ℕ → UInt8}
  (hu : u.Running) (hcom : u.Committable) (hr : u.CommitRun esList esHome)

include hu hcom hr in
/-- From the flush behind the list of areas on, the transaction can be redone as long as only the
sectors that it covers have changed. -/
theorem CommitRun.redoable
    (hold : ∀ s < (tpsFsBtreeTransInit u.psb).transDataStart,
      sector u.psb.secSize f s = sector u.psb.secSize u.dev.data s)
    (hlog : ∀ s, u.ptrans.dataSecNum ≤ s → s < u.ptrans.dataSecNum + u.fullCnt →
      sector u.psb.secSize f s =
        sector u.psb.secSize (applyAll u.psb.secSize u.dev.data esList) s)
    (hd : ∀ s, (∀ a ∈ u.ptrans.secAreaArr, ¬ a.Covers s) → sector u.psb.secSize d s =
      sector u.psb.secSize (overlay f (u.ptranssb.transCurSec * u.psb.secSize)
        (u.headerSec u.fullCnt .commit)) s) :
    u.Redoable d := by
  have hstart := hu.dataStart_le
  have hS := transDataStart_eq u.psb
  have hcur := hu.log.curSec_range
  have hlen := hcom.headerSec_length u.fullCnt .commit
  have hbeyond (s : ℕ) (hs : (tpsFsBtreeTransInit u.psb).transSecStart ≤ s) :
      ∀ a ∈ u.ptrans.secAreaArr, ¬ a.Covers s := fun a ha hc => by
    have := hu.below a ha
    have := SecArea.covers_iff.mp hc
    omega
  have hother (s : ℕ) (hcov : ∀ a ∈ u.ptrans.secAreaArr, ¬ a.Covers s)
      (hne : s ≠ u.ptranssb.transCurSec) : sector u.psb.secSize d s = sector u.psb.secSize f s := by
    rw [hd s hcov, sector_overlay_other _ hlen hne]
  constructor
  · rw [hd _ (hbeyond _ (by omega)), sector_overlay_self _ hlen]
  · intro j hj hne
    rw [hother _ (hbeyond _ (by omega)) hne, hold _ (by omega)]
  · intro s hs hs'
    have hle : s < u.ptrans.dataSecNum + u.fullCnt := by
      unfold fullCnt
      omega
    rw [hother _ (hbeyond _ (by omega)) (by omega), hlog _ hs hle,
      sector_applyAll hr.listWhole hr.listIn (by omega)]
  · intro k hk
    refine ListSector.congr (hr.listSecs k hk).2 ?_
    rw [hother _ (hbeyond _ (by omega)) (by omega), hlog _ (by omega) (by unfold fullCnt; omega)]
  · intro s hs hcov
    rw [hother _ hcov (by omega), hold _ (by omega)]

include hu hcom hr in
/-- Up to the flush behind the list of areas a power cut leaves the places outside the log as they
were; up to the last header write the transaction can be redone; then it is complete. -/
theorem CommitRun.crash (hw : Whole u.psb.secSize esLog)
    (hin : Within (fun s => u.ptrans.dataSecNum ≤ s) esLog)
    (hfill : ∀ s, u.ptrans.dataSecNum ≤ s → s < u.ptrans.dataSecNum + u.ptrans.dataSecCnt →
      ∃ data, .write s data ∈ esLog)
    (hdev : u.dev.data = applyAll u.psb.secSize f₀ esLog)
    (hf : ∀ s < (tpsFsBtreeTransInit u.psb).transDataStart,
      sector u.psb.secSize f s = sector u.psb.secSize f₀ s)
    (h : Crash u.psb.secSize f (esLog ++ u.commitEvents esList esHome) d) :
    (∀ s < (tpsFsBtreeTransInit u.psb).transDataStart,
      sector u.psb.secSize d s = sector u.psb.secSize f₀ s) ∨
    u.Redoable d ∨
    ∀ s < (tpsFsBtreeTransInit u.psb).transDataStart,
      sector u.psb.secSize d s =
        sector u.psb.secSize (u.committed esList esHome).dev.data s := by
  have hstart := hu.dataStart_le
  obtain ⟨es, hhome⟩ := hr.homeSync
  have hwHome : Whole u.psb.secSize es := fun s data hm =>
    hr.homeWhole s data (by rw [hhome]; exact List.mem_append_left _ hm)
  have hinHome : Within (fun s => ∃ a ∈ u.ptrans.secAreaArr, a.Covers s) es := fun s data hm =>
    hr.homeIn s data (by rw [hhome]; exact List.mem_append_left _ hm)
  have hinAll : Within (fun s => u.ptrans.dataSecNum ≤ s) (esLog ++ esList) :=
    hin.append (hr.listIn.mono fun s hs => by omega)
  have hold (s : ℕ) (hs : s < (tpsFsBtreeTransInit u.psb).transDataStart) :
      sector u.psb.secSize (applyAll u.psb.secSize f (esLog ++ esList)) s =
        sector u.psb.secSize f₀ s :=
    (sector_applyAll (hw.append hr.listWhole) hinAll (by omega)).trans (hf s hs)
  have hlog (s : ℕ) (hs : u.ptrans.dataSecNum ≤ s) (hs' : s < u.ptrans.dataSecNum + u.fullCnt) :
      sector u.psb.secSize (applyAll u.psb.secSize f (esLog ++ esList)) s =
        sector u.psb.secSize (applyAll u.psb.secSize u.dev.data esList) s := by
    rw [hdev, ← applyAll_append]
    refine sector_applyAll_congr (hw.append hr.listWhole) (.inl ?_)
    rcases Nat.lt_or_ge s (u.ptrans.dataSecNum + u.ptrans.dataSecCnt) with hlt | hge
    · obtain ⟨data, hm⟩ := hfill s hs hlt
      exact ⟨data, List.mem_append_left _ hm⟩
    · obtain ⟨k, rfl⟩ := Nat.exists_eq_add_of_le hge
      unfold fullCnt at hs'
      obtain ⟨data, hm⟩ := (hr.listSecs k (by omega)).1
      exact ⟨data, List.mem_append_right _ hm⟩
  have hold' (s : ℕ) (hs : s < (tpsFsBtreeTransInit u.psb).transDataStart) :
      sector u.psb.secSize (applyAll u.psb.secSize f (esLog ++ esList)) s =
        sector u.psb.secSize u.dev.data s := by
    rw [hold s hs, hdev, sector_applyAll hw hin (by omega)]
  have hout (s : ℕ) (hs : ∀ a ∈ u.ptrans.secAreaArr, ¬ a.Covers s) :
      ¬ ∃ a ∈ u.ptrans.secAreaArr, a.Covers s := by
    rintro ⟨a, ha, hc⟩
    exact hs a ha hc
  have hredo := fun hd => hr.redoable (d := d) hu hcom hold' hlog hd
  have hdone (hd : ∀ s, sector u.psb.secSize d s = sector u.psb.secSize
      (applyAll u.psb.secSize f (esLog ++ u.commitEvents esList esHome)) s) (s : ℕ)
      (hs : s < (tpsFsBtreeTransInit u.psb).transDataStart) : sector u.psb.secSize d s =
        sector u.psb.secSize (u.committed esList esHome).dev.data s := by
    rw [hd s]
    change _ = sector _ (applyAll _ u.dev.data _) s
    rw [hdev, ← applyAll_append]
    exact sector_applyAll_congr (hw.append (hr.whole hcom)) (.inr (hf s hs))
  have hall : applyAll u.psb.secSize f (esLog ++ u.commitEvents esList esHome) =
      overlay (applyAll u.psb.secSize (overlay (applyAll u.psb.secSize f (esLog ++ esList))
        (u.ptranssb.transCurSec * u.psb.secSize) (u.headerSec u.fullCnt .commit)) es)
        (u.ptranssb.transCurSec * u.psb.secSize) (u.headerSec u.fullCnt .complete) := by
    simp only [commitEvents, hhome, applyAll_append, applyAll_sync, applyAll_cons_write,
      applyAll_nil]
  rw [hall] at hdone
  have hsplit : esLog ++ u.commitEvents esList esHome = (esLog ++ esList) ++ .sync ::
      ([.write u.ptranssb.transCurSec (u.headerSec u.fullCnt .commit)] ++ .sync ::
        (es ++ .sync ::
          ([.write u.ptranssb.transCurSec (u.headerSec u.fullCnt .complete)] ++ .sync :: []))) := by
    simp [commitEvents, hhome]
  rw [hsplit] at h
  -- the log and the list of areas
  rcases h.of_append_sync with h | h
  · exact .inl fun s hs =>
      (h.sector_eq (hw.append hr.listWhole) hinAll (by omega)).trans (hf s hs)
  -- the header in status `COMMIT`
  rcases h.of_append_sync with h | h
  · rcases h.single (hcom.headerSec_length _ _) with hd | hd
    · exact .inl fun s hs => (hd s).trans (hold s hs)
    · exact .inr (.inl (hredo fun s _ => hd s))
  rw [applyAll_cons_write, applyAll_nil] at h
  -- the sectors of the transaction
  rcases h.of_append_sync with h | h
  · exact .inr (.inl (hredo fun s hs => h.sector_eq hwHome hinHome (hout s hs)))
  -- the header in status `COMPLETE`
  rcases h.of_append_sync with h | h
  · rcases h.single (hcom.headerSec_length _ _) with hd | hd
    · refine .inr (.inl (hredo fun s hs => (hd s).trans ?_))
      exact sector_applyAll hwHome hinHome (hout s hs)
    · exact .inr (.inr (hdone hd))
  · rw [applyAll_cons_write, applyAll_nil] at h
    refine .inr (.inr (hdone fun s => h.sector_eq (P := fun _ => False) ?_ ?_ id))
    · exact fun _ _ hm => by cases hm
    · exact fun _ _ hm => by cases hm

end Cut

end Vol

open Vol

/-- A transaction from its first write to its commit. -/
def transact (ws adjust : List TransWrite) (buf : List UInt8) : VolM Unit := do
  tpsFsTransWrites ws
  tpsFsTransCommitAndFree adjust buf

theorem overlayWrites_append (psb : SuperBlock) (f : ℕ → UInt8) (ws ws' : List TransWrite) :
    overlayWrites psb f (ws ++ ws') = overlayWrites psb (overlayWrites psb f ws) ws' :=
  List.foldl_append

/-- A transaction has only filled the log, or it was committed from a volume on which it sees its
own writes. -/
theorem Vol.Running.transact {v v' : Vol} {ws adjust : List TransWrite} {buf : List UInt8}
    {r : Except TpsErr Unit} (h : v.Running)
    (hws : WritesBelow v.psb (tpsFsBtreeTransInit v.psb).transSecStart ws)
    (hadj : WritesBelow v.psb (tpsFsBtreeTransInit v.psb).transSecStart adjust)
    (hbuf : buf.length = v.psb.secSize) (hk : v.ptranssb.serialNum + 1 < 2 ^ 64)
    (ht : transact ws adjust buf v = (r, v')) :
    LogFilled v v' ∨ ∃ u esList esHome, SameTrans v u ∧ u.Running ∧ u.Committable ∧
      u.CommitRun esList esHome ∧ v' = u.committed esList esHome ∧ v'.LogOk ∧ r = .ok () ∧
      ∀ x, ¬ u.InLog x → u.view x = overlayWrites v.psb v.view (ws ++ adjust) x := by
  cases r with
  | error e =>
    left
    rcases bind_error ht with h₁ | ⟨_, v₁, h₁, h₂⟩
    · exact (tpsFsTransWrites_error h.trans h₁).filled
    · have hs := (tpsFsTransWrites_ok h.trans h₁).2.1
      exact hs.trans_filled ((h.writes hws h₁).commit_error (by rwa [hs.psb]) (by rwa [hs.psb]) h₂)
  | ok a =>
    obtain ⟨_, v₁, h₁, h₂⟩ := bind_ok.mp ht
    obtain ⟨_, u, h₃, h₄⟩ := bind_ok.mp h₂
    have h₃ := failWith_ok.mp h₃
    have hrun₁ := h.writes hws h₁
    obtain ⟨-, hs₁, hview₁, -⟩ := tpsFsTransWrites_ok h.trans h₁
    have hrun := hrun₁.writes (by rwa [hs₁.psb]) h₃
    obtain ⟨-, hs₂, hview₂, -⟩ := tpsFsTransWrites_ok hrun₁.trans h₃
    have hs := hs₁.trans hs₂
    rcases hrun.commitLog (by rwa [hs.psb]) (by rwa [hs.ptranssb]) h₄ with
      ⟨-, rfl⟩ | ⟨esList, esHome, hcom, hr, rfl, hlog, -⟩
    · have hf := hs.filled
      have hk := hf.kind
      exact .inl ⟨hf.psb, hf.ptranssb,
        ⟨hk.magic, hk.generation, hk.reserved, hk.iType, hk.reserved64⟩, hf.log⟩
    · refine .inr ⟨u, esList, esHome, hs, hrun, hcom, hr, rfl, hlog, rfl, fun x hx => ?_⟩
      rw [hview₂ x hx, overlayWrites_append, hs₁.psb]
      exact overlayWrites_congr (hview₁ x fun hx' => hx (hx'.mono hs₂)) adjust

/-- When the power fails at any point of a transaction, and some writes to the log of the ones
before it have not reached the disk either, then after the check of the log every place outside
the log is as the earlier transactions have left it, or all the writes of this one are there. The
check comes to an end unless nothing was ever committed and the header area has less than 16
slots. -/
theorem tspFsCheckTrans_after_crash {psb : SuperBlock} {dev : Dev} {r₀ r₁ k n time : ℕ}
    {pbp : BlkPool} {v v₁ v' : Vol} {ws adjust : List TransWrite} {buf buf' : List UInt8}
    {r : Except TpsErr Unit} {es : List (IoEvent UInt8)} {f d : ℕ → UInt8}
    (hfmt : Formatted psb dev) (htrace : dev.trace = [])
    (hrun : LogRun (Vol.mount psb dev r₀ r₁ pbp) k v) (hk : k + 1 < 2 ^ 64)
    (hbegin : tpsFsTransAllocAndInit time v = (.ok true, v₁))
    (hws : WritesBelow psb (tpsFsBtreeTransInit psb).transSecStart ws)
    (hadj : WritesBelow psb (tpsFsBtreeTransInit psb).transSecStart adjust)
    (hbuf : buf.length = psb.secSize) (htrans : transact ws adjust buf v₁ = (r, v'))
    (hes : v'.dev.trace = v.dev.trace ++ es) (hf : OnDisk psb.secSize dev.data v.dev.trace f)
    (hd : Crash psb.secSize f es d) (hn : slotCnt psb + maxArea psb ≤ n)
    (hbuf' : buf'.length = psb.secSize) (r₀' r₁' : ℕ) (pbp' : BlkPool) (t₀ : Trans) :
    ∃ res w, tspFsCheckTrans n t₀ buf'
        (Vol.mount psb { v.dev with data := d, trace := [] } r₀' r₁' pbp') = (.ok res, w) ∧
      ((∀ s < (tpsFsBtreeTransInit psb).transSecStart,
          sector psb.secSize w.dev.data s = sector psb.secSize v.dev.data s) ∨
        (r = .ok () ∧ ∀ s < (tpsFsBtreeTransInit psb).transSecStart,
          sector psb.secSize w.dev.data s =
            sector psb.secSize (overlayWrites psb v.dev.data (ws ++ adjust)) s)) ∧
      (0 < v.ptranssb.serialNum ∨ 16 ≤ slotCnt psb → res = some ()) := by
  have hlog₀ := hfmt.logOk r₀ r₁ pbp
  obtain ⟨hlog, hser, hpsb⟩ := hrun.logOk hlog₀ rfl (by omega)
  have htr := hrun.onTrace hlog₀ rfl htrace (by omega)
  obtain rfl : v.psb = psb := hpsb
  have hS := transDataStart_eq v.psb
  have hmax : slotCnt v.psb ≤ n := by omega
  -- what has reached the disk before
  have hf₀ (s : ℕ) (hs : s < (tpsFsBtreeTransInit v.psb).transDataStart) :
      sector v.psb.secSize f s = sector v.psb.secSize v.dev.data s :=
    (hf.sector_eq htr.whole htr.flushed (by omega)).trans (by rw [htr.data]; rfl)
  have hold (hds : ∀ s < (tpsFsBtreeTransInit v.psb).transDataStart,
      sector v.psb.secSize d s = sector v.psb.secSize v.dev.data s) :=
    hlog.checkTrans { v.dev with data := d, trace := [] } r₀' r₁' pbp' rfl hds hmax t₀ buf'
  -- the transaction
  obtain ⟨hp₁, hsb₁, hdev₁⟩ := tpsFsTransAllocAndInit_psb hbegin
  obtain ⟨-, -, -, hview₁, hcnt₁⟩ := tpsFsTransAllocAndInit_ok
    (by rw [hlog.geom]; exact hlog.dataCur)
    (by rw [hlog.geom]; exact hlog.dataCnt_lt.trans (by decide)) hbegin
  have hrun₁ := hlog.begin hbegin
  have hstart := hrun₁.dataStart_le
  rw [← hdev₁] at hes
  rcases hrun₁.transact (by rwa [hp₁]) (by rwa [hp₁]) (by rwa [hp₁]) (by rw [hsb₁]; omega)
    htrans with hfill | ⟨u, esList, esHome, hs, hu, hcom, hr, rfl, hlog', rfl, hview⟩
  · obtain ⟨es', hdev, hw, hin⟩ := hfill.log
    obtain rfl : es' = es := by
      rw [hdev] at hes
      exact List.append_cancel_left hes
    rw [hp₁] at hw hstart
    obtain ⟨res, w, hcheck, hwdev, hend⟩ := hold fun s hs =>
      (hd.sector_eq hw hin (by omega)).trans (hf₀ s hs)
    refine ⟨res, w, hcheck, .inl fun s hs => ?_, hend⟩
    rw [hwdev]
    exact (hd.sector_eq hw hin (by omega)).trans (hf₀ s (by omega))
  · have hpsb : u.psb = v.psb := hs.psb.trans hp₁
    obtain ⟨esLog, hdev, hw, hin, hfill⟩ := hs.log
    rw [hcnt₁, Nat.add_zero, ← hs.dataSecNum] at hin hfill
    rw [hp₁, hdev₁] at hdev
    rw [hp₁] at hw
    -- its writes have all been made
    have hnew {g : ℕ → UInt8} (hg : ∀ s < (tpsFsBtreeTransInit v.psb).transSecStart,
        sector v.psb.secSize g s = sector v.psb.secSize u.view s) :
        ∀ s < (tpsFsBtreeTransInit v.psb).transSecStart, sector v.psb.secSize g s =
          sector v.psb.secSize (overlayWrites v.psb v.dev.data (ws ++ adjust)) s := by
      intro s hs'
      refine (hg s hs').trans ((sector_eq_iff v.psb.secSize_pos).mpr ?_)
      rintro x rfl
      have hout : ¬ u.InLog x := fun hx => by
        have := hu.dataStart_le
        have := hx.1
        rw [hpsb] at *
        omega
      rw [hview x hout, hview₁, hp₁]
    have hdata : u.dev.data = applyAll u.psb.secSize v.dev.data esLog := by
      rw [hdev, hpsb]
      rfl
    obtain rfl : esLog ++ u.commitEvents esList esHome = es := by
      refine List.append_cancel_left (α := IoEvent UInt8) (show v.dev.trace ++ _ = v.dev.trace ++ _ from ?_)
      rw [← hdev₁, ← hes]
      change _ = u.dev.trace ++ _
      rw [hdev, hdev₁, ← List.append_assoc]
      rfl
    have hcut := hr.crash hu hcom (by rwa [hpsb]) hin hfill hdata (by rwa [hpsb])
      (by rwa [hpsb])
    rw [hpsb] at hcut
    rcases hcut with hds | hredo | hds
    · obtain ⟨res, w, hcheck, hwdev, hend⟩ := hold hds
      refine ⟨res, w, hcheck, .inl fun s hs => ?_, hend⟩
      rw [hwdev]
      exact hds s (by omega)
    · obtain ⟨w, hcheck, hw⟩ := Redoable.checkTrans (n := n)
        { v.dev with data := d, trace := [] } r₀' r₁' pbp' hredo hu hcom.areas hcom.onDev
        (by rw [hs.ptranssb, hsb₁]; omega) (by rw [hdev]; rfl) (by rwa [hpsb]) (by rwa [hpsb]) t₀
      rw [hpsb] at hcheck hw
      exact ⟨_, w, hcheck, .inr ⟨rfl, hnew hw⟩, fun _ => rfl⟩
    · have hser' : 0 < (u.committed esList esHome).ptranssb.serialNum := by
        rw [(hu.committed_log hcom.areas hcom.onDev (by rw [hs.ptranssb, hsb₁]; omega) hr).2]
        omega
      have hds' : ∀ s < (tpsFsBtreeTransInit u.psb).transDataStart, sector u.psb.secSize d s =
          sector u.psb.secSize (u.committed esList esHome).dev.data s := by rwa [hpsb]
      obtain ⟨res, w, hcheck, hwdev, hend⟩ := hlog'.checkTrans
        { v.dev with data := d, trace := [] } r₀' r₁' pbp'
        (by change _ = u.dev.sectorCnt; rw [hdev]; rfl) hds' (by
          change slotCnt u.psb ≤ n
          rwa [hpsb]) t₀ buf'
      rw [show (u.committed esList esHome).psb = v.psb from hpsb] at hcheck
      refine ⟨res, w, hcheck, .inr ⟨rfl, hnew fun s hs => ?_⟩, fun _ => hend (.inl hser')⟩
      have hcur := hu.log.curSec_range
      have hstart' := hu.dataStart_le
      rw [hpsb] at hcur hstart'
      have hhome := hr.sector_home hcom hu.trans.isOpen (s := s) (by omega) (by omega) (by omega)
      rw [hpsb] at hhome
      rw [hwdev, ← hhome, hds s (by omega)]

set_option maxRecDepth 8000 in
/-- The power fails right after one byte was written and committed. -/
theorem tspFsCheckTrans_after_crash_oneByte : ∃ v₁ v' w,
    tpsFsTransAllocAndInit 0 (Vol.mount smallVol.psb smallVol.dev 0 0 ⟨3, 0, []⟩) =
      (.ok true, v₁) ∧
    transact oneByte [] (List.replicate 512 0) v₁ = (.ok (), v') ∧
    tspFsCheckTrans 1040 (newTrans smallVol.psb 0 0) (List.replicate 512 0)
      (Vol.mount smallVol.psb { smallVol.dev with
        data := applyAll 512 smallVol.dev.data v'.dev.trace } 0 0 ⟨3, 0, []⟩) =
      (.ok (some ()), w) := by
  have hbegin : tpsFsTransAllocAndInit 0 (Vol.mount smallVol.psb smallVol.dev 0 0 ⟨3, 0, []⟩) =
    (.ok true, _) := rfl
  have hwrite : tpsFsTransWrites oneByte (tpsFsTransAllocAndInit 0
    (Vol.mount smallVol.psb smallVol.dev 0 0 ⟨3, 0, []⟩)).2 = (.ok (), _) := rfl
  have hlog := smallVol_formatted.logOk 0 0 ⟨3, 0, []⟩
  have hrun := (hlog.begin hbegin).writes (by decide) hwrite
  obtain ⟨v', hv', -⟩ := hrun.commit_isOk (List.replicate 512 0) (by decide) (by decide)
    (by decide) (by decide)
  have ht : transact oneByte [] (List.replicate 512 0) _ = (.ok (), v') :=
    (bind_of_ok hwrite).trans hv'
  obtain ⟨res, w, hcheck, -, hend⟩ := tspFsCheckTrans_after_crash (n := 1040)
    (f := smallVol.dev.data)
    (d := applyAll 512 smallVol.dev.data v'.dev.trace) smallVol_formatted rfl .start
    (by decide) hbegin (by decide) (by decide) (by decide) ht (List.nil_append _).symm
    ⟨[], [], rfl, by simp, fun _ => .inl rfl⟩
    ⟨v'.dev.trace, [], [], by simp, by simp, fun _ => .inl rfl⟩ (by decide)
    (List.length_replicate : (List.replicate 512 (0 : UInt8)).length = _) 0 0 ⟨3, 0, []⟩ (newTrans smallVol.psb 0 0)
  obtain rfl := hend (.inr (by decide))
  exact ⟨_, v', w, hbegin, ht, hcheck⟩

end SylixOS.TpsFs
