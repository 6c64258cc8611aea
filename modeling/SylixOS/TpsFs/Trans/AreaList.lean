import SylixOS.TpsFs.Trans.Recover

/-! # The list of areas in the log

A commit appends the list of areas to the data of the transaction, as many sectors as it takes,
and the recovery reads it back from its last sector to its first. Whether these sectors still lie
in the data region of the log is not checked: the check of `__tpsFsTransPutData` leaves no room
for them.
-/

namespace SylixOS.TpsFs
open Lib Lib.Store Lib.Disk Lib.Outcome Vol

/-- The first sector behind the log. -/
def logEnd (psb : SuperBlock) : ℕ :=
  (tpsFsBtreeTransInit psb).transDataStart + (tpsFsBtreeTransInit psb).transDataCnt

/-- The sector lies in the data region of the log. -/
def InLogData (psb : SuperBlock) (s : ℕ) : Prop :=
  (tpsFsBtreeTransInit psb).transDataStart ≤ s ∧ s < logEnd psb

/-! ## Writing the list -/

/-- From `v` to `v'` the list of areas from index `i` on was written to the sectors behind the
data, as far as there are any on the device. -/
structure ListWritten (v v' : Vol) (i : ℕ) : Prop where
  dataSecNum : v'.ptrans.dataSecNum = v.ptrans.dataSecNum
  events : ∃ es, v'.dev = v.dev.after v.psb.secSize es ∧
    ∀ s, (∃ data, .write s data ∈ es) ↔ v.ptrans.dataSecNum + v.ptrans.dataSecCnt ≤ s ∧
      s < v.ptrans.dataSecNum + v.ptrans.dataSecCnt +
        listSecs v.psb (v.ptrans.secAreaArr.length - i) ∧ s < v.dev.sectorCnt

theorem ListWritten.done {v : Vol} {i : ℕ} (hi : v.ptrans.secAreaArr.length ≤ i) :
    ListWritten v v i := by
  refine ⟨rfl, [], by rw [Dev.after_nil], fun s => ?_⟩
  rw [Nat.sub_eq_zero_of_le hi, listSecs_zero]
  simp
  omega

/-- Whatever comes of it. -/
theorem writeSecAreas_written {v v' : Vol} {n i : ℕ} {buf : List UInt8} {r : Except TpsErr Unit}
    (hn : v.ptrans.secAreaArr.length - i ≤ n) (hbuf : buf.length = v.psb.secSize)
    (hcnt : v.ptrans.dataSecCnt + (v.ptrans.secAreaArr.length - i) < 2 ^ 32)
    (h : writeSecAreas n i buf v = (r, v')) : ListWritten v v' i := by
  induction n generalizing v i buf with
  | zero =>
    obtain rfl := (Prod.mk.inj h).2
    exact .done (by omega)
  | succ n ih =>
    rcases Nat.lt_or_ge i v.ptrans.secAreaArr.length with hi | hi
    · have hlt := lt_listNext hi
      obtain ⟨buf', -, hbuf', hrun⟩ := writeSecAreas_succ n hi hbuf (by omega)
      rw [hrun] at h
      split_ifs at h with hdev
      · obtain ⟨hnum, es, hes, hiff⟩ := ih (v := (v.after _).setCnt _) (i := listNext v i)
          (by dsimp only [Vol.setCnt, Vol.after]; omega) hbuf'
          (by dsimp only [Vol.setCnt, Vol.after]; omega) h
        dsimp only [Vol.setCnt, Vol.after] at hnum hes hiff
        refine ⟨hnum, _, hes.trans (Dev.after_append _ _ _ _), fun s => ?_⟩
        have hone : (∃ data, IoEvent.write s data ∈
            [IoEvent.write (v.ptrans.dataSecNum + v.ptrans.dataSecCnt) buf']) ↔
              s = v.ptrans.dataSecNum + v.ptrans.dataSecCnt := by
          simp
        simp only [List.mem_append, exists_or] at hone ⊢
        rw [hone, hiff s, listSecs_next hi]
        dsimp only [Dev.after]
        omega
      · -- behind the end of the device the loop ends
        obtain rfl := (Prod.mk.inj h).2
        refine ⟨rfl, [], by rw [Dev.after_nil], fun s => ?_⟩
        simp
        omega
    · rw [writeSecAreas_done hi] at h
      obtain rfl := (Prod.mk.inj h).2
      exact .done hi

/-! ## The round trip -/

/-- The list of areas that a commit has written is loaded again, from any disk on which its
sectors are as they were written, as soon as the header has said where it ends. -/
theorem Vol.Running.load_list {u u' w : Vol} {n : ℕ} {buf : List UInt8} (hu : u.Running)
    (hareas : u.ptrans.secAreaArr ≠ []) (hbuf : buf.length = u.psb.secSize)
    (hlist : writeSecAreas u.ptrans.secAreaArr.length 0 buf u = (.ok (), u'))
    (hpsb : w.psb = u.psb) (hdev : w.dev.sectorCnt = u.dev.sectorCnt)
    (hsec : ∀ s, u.ptrans.dataSecNum + u.ptrans.dataSecCnt ≤ s →
      s < u'.ptrans.dataSecNum + u'.ptrans.dataSecCnt →
      sector u.psb.secSize w.dev.data s = sector u.psb.secSize u'.dev.data s)
    (hnum : w.ptrans.dataSecNum = u'.ptrans.dataSecNum)
    (hcnt : w.ptrans.dataSecCnt = u'.ptrans.dataSecCnt) (hn : u.ptrans.secAreaArr.length ≤ n) :
    tpsFsLoadTransData n w = (.ok (some ()), w.loaded u.ptrans) := by
  have hlt := hu.cnt_lt
  have hdev₀ := hu.trans.onDev.resolve_left hareas
  have hroom := writeSecAreas_inRange (by omega) hbuf (by omega) hdev₀ hlist
  obtain ⟨es, hrun, -, -, hsecs⟩ := writeSecAreas_isOk (n := u.ptrans.secAreaArr.length)
    (by omega) hbuf (by omega) hroom
  rw [Nat.sub_zero] at hroom hrun hsecs
  obtain rfl : _ = u' := (Prod.mk.inj (hrun.symm.trans hlist)).2
  obtain ⟨m, hm⟩ := hu.listSecs_succ hareas
  have hge := listSecs_mul_ge u.psb u.ptrans.secAreaArr.length
  have hmle := listSecs_le u.psb u.ptrans.secAreaArr.length
  dsimp only [Vol.setCnt, Vol.after] at hnum hcnt hsec
  rw [hm] at hroom hsecs hcnt hge hsec hmle
  refine tpsFsLoadTransData_isOk (m := m) (by omega) hcnt (by omega)
    (by rw [hnum, hdev]; omega) (fun k hk => ?_) (by omega) hu.area_fits ?_ ?_
  · obtain ⟨-, buf', hlen, hbuf'⟩ := hsecs k hk
    rw [hpsb, hnum]
    refine ⟨buf', hlen, ?_⟩
    rw [hsec _ (by omega) (by omega), ← Nat.zero_add (k * _)]
    exact hbuf'
  · rw [hpsb]
    exact listSecs_mul_le u.psb hm
  · rw [hpsb, List.drop_eq_nil_of_le hge]
    refine List.drop_eq_nil_of_le ?_
    rwa [resizeAreas_length]

/-- For every transaction that a run of the file system can come to, recovery finds the list of
areas that the commit has written: which sectors, where in the log, and how many. -/
theorem tpsFsLoadTransData_writeSecAreas {psb : SuperBlock} {dev : Dev} {r₀ r₁ k n time : ℕ}
    {pbp : BlkPool} {v v₁ u u' w : Vol} {ws : List TransWrite} {buf : List UInt8}
    (hfmt : Formatted psb dev) (hrun : LogRun (Vol.mount psb dev r₀ r₁ pbp) k v)
    (hk : k < 2 ^ 64) (hbegin : tpsFsTransAllocAndInit time v = (.ok true, v₁))
    (hws : WritesBelow psb (tpsFsBtreeTransInit psb).transSecStart ws)
    (hwrite : tpsFsTransWrites ws v₁ = (.ok (), u)) (hareas : u.ptrans.secAreaArr ≠ [])
    (hbuf : buf.length = psb.secSize)
    (hlist : writeSecAreas u.ptrans.secAreaArr.length 0 buf u = (.ok (), u'))
    (hpsb : w.psb = psb) (hdev : w.dev.sectorCnt = u.dev.sectorCnt)
    (hsec : ∀ s, u.ptrans.dataSecNum + u.ptrans.dataSecCnt ≤ s →
      s < u'.ptrans.dataSecNum + u'.ptrans.dataSecCnt →
      sector psb.secSize w.dev.data s = sector psb.secSize u'.dev.data s)
    (hnum : w.ptrans.dataSecNum = u'.ptrans.dataSecNum)
    (hcnt : w.ptrans.dataSecCnt = u'.ptrans.dataSecCnt) (hn : maxArea psb ≤ n) :
    ∃ w', tpsFsLoadTransData n w = (.ok (some ()), w') ∧
      w'.ptrans.secAreaArr = u.ptrans.secAreaArr ∧
      w'.ptrans.dataSecNum = u.ptrans.dataSecNum ∧
      w'.ptrans.dataSecCnt = u.ptrans.dataSecCnt := by
  obtain ⟨hlog, -, hpsb₀⟩ := hrun.logOk (hfmt.logOk r₀ r₁ pbp) rfl hk
  obtain rfl : v.psb = psb := hpsb₀
  obtain ⟨hp₁, -, -⟩ := tpsFsTransAllocAndInit_psb hbegin
  have hrun₁ := hlog.begin hbegin
  have hs := (tpsFsTransWrites_ok hrun₁.trans hwrite).2.1
  have hu := hrun₁.writes (by rwa [hp₁]) hwrite
  have hpu : u.psb = v.psb := hs.psb.trans hp₁
  have hshort := hu.trans.short
  rw [hpu] at hshort
  have hload := hu.load_list hareas (by rwa [hpu]) hlist (by rw [hpsb, hpu]) hdev
    (by rwa [hpu]) hnum hcnt (hshort.trans hn)
  have hnum' : u'.ptrans.dataSecNum = u.ptrans.dataSecNum := 
    (writeSecAreas_written (by omega) (by rwa [hpu]) (by have := hu.cnt_lt; omega)
      hlist).dataSecNum
  exact ⟨_, hload, rfl, hnum.trans hnum', rfl⟩

set_option maxRecDepth 4000 in
/-- A transaction on a formatted volume has written one byte. -/
theorem oneByte_written : ∃ v₁ u,
    tpsFsTransAllocAndInit 0 (Vol.mount smallVol.psb smallVol.dev 0 0 ⟨3, 0, []⟩) =
      (.ok true, v₁) ∧
    tpsFsTransWrites oneByte v₁ = (.ok (), u) ∧ u.psb = smallVol.psb ∧
    u.ptrans.dataSecNum = 30722 ∧ u.ptrans.dataSecCnt = 1 ∧
    u.ptrans.secAreaArr = [⟨800, 0, 1⟩] ∧ u.dev.sectorCnt = 32768 :=
  ⟨_, _, rfl, rfl, rfl, rfl, rfl, rfl, rfl⟩

/-- Its list of areas takes one sector. -/
theorem oneByte_list {u : Vol} (hpsb : u.psb = smallVol.psb) (hnum : u.ptrans.dataSecNum = 30722)
    (hcnt : u.ptrans.dataSecCnt = 1) (hareas : u.ptrans.secAreaArr = [⟨800, 0, 1⟩])
    (hdev : u.dev.sectorCnt = 32768) :
    u.fullCnt = 2 ∧ ∃ es, writeSecAreas u.ptrans.secAreaArr.length 0 (List.replicate 512 0) u =
      (.ok (), (u.after es).setCnt 2) := by
  have hone : listSecs u.psb u.ptrans.secAreaArr.length = 1 := by
    rw [hareas, hpsb]
    decide
  have hlen : u.ptrans.secAreaArr.length = 1 := by rw [hareas]; rfl
  obtain ⟨es, hrun, -⟩ := writeSecAreas_isOk (n := u.ptrans.secAreaArr.length)
    (i := 0) (v := u) (by omega)
    (show (List.replicate 512 0).length = u.psb.secSize by rw [hpsb, List.length_replicate]; rfl)
    (by omega) (by rw [Nat.sub_zero]; omega)
  rw [Nat.sub_zero, hone, hcnt] at hrun
  exact ⟨by rw [fullCnt, hone, hcnt], es, hrun⟩

/-- Its list is loaded again. -/
theorem tpsFsLoadTransData_oneByte : ∃ v₁ u u' w',
    tpsFsTransAllocAndInit 0 (Vol.mount smallVol.psb smallVol.dev 0 0 ⟨3, 0, []⟩) =
      (.ok true, v₁) ∧
    tpsFsTransWrites oneByte v₁ = (.ok (), u) ∧
    writeSecAreas u.ptrans.secAreaArr.length 0 (List.replicate 512 0) u = (.ok (), u') ∧
    tpsFsLoadTransData 1024 { u' with ptrans := { u'.ptrans with secAreaArr := [] } } =
      (.ok (some ()), w') ∧ w'.ptrans.secAreaArr = [⟨800, 0, 1⟩] := by
  obtain ⟨v₁, u, hbegin, hws, hpsb, hnum, hcnt, hareas, hdev⟩ := oneByte_written
  obtain ⟨-, es, hrun⟩ := oneByte_list hpsb hnum hcnt hareas hdev
  obtain ⟨w', hload, hw', -⟩ := tpsFsLoadTransData_writeSecAreas (n := 1024)
    (w := { (u.after es).setCnt 2 with ptrans := { u.ptrans with
      dataSecCnt := 2, secAreaArr := [] } })
    smallVol_formatted .start (by decide) hbegin (by decide) hws (by rw [hareas]; decide)
    List.length_replicate hrun hpsb rfl (fun _ _ _ => rfl) rfl rfl (by decide)
  exact ⟨v₁, u, _, w', hbegin, hws, hrun, hload, hw'.trans hareas⟩

/-! ## Where the sectors lie -/

namespace Vol

/-- From `v` to `w` the log was filled from the end of the data in `v` on to that in `w`. -/
def FilledTo (v w : Vol) : Prop :=
  ∃ es, w.dev = v.dev.after v.psb.secSize es ∧
    Within (fun s => v.ptrans.dataSecNum + v.ptrans.dataSecCnt ≤ s ∧
      s < v.ptrans.dataSecNum + w.ptrans.dataSecCnt) es

variable {u v w : Vol}

theorem FilledTo.refl (v : Vol) : FilledTo v v :=
  ⟨[], by rw [Dev.after_nil], fun _ _ h => by simp at h⟩

theorem FilledTo.trans (hs : SameTrans u v) (hs' : SameTrans v w) (h : FilledTo u v)
    (h' : FilledTo v w) : FilledTo u w := by
  obtain ⟨es, hdev, hin⟩ := h
  obtain ⟨es', hdev', hin'⟩ := h'
  have hle := hs.cnt_le
  have hle' := hs'.cnt_le
  rw [hs.dataSecNum] at hin'
  refine ⟨es ++ es', ?_, (hin.mono fun s h => ?_).append (hin'.mono fun s h => ?_)⟩
  · rw [hdev', hs.psb, hdev, Dev.after_append]
  · omega
  · omega

theorem FilledTo.put {buf : List UInt8} {secCnt : ℕ} (secNum : ℕ) (h : v.TransOk)
    (hroom : v.HasRoom secCnt) (hbuf : secCnt * v.psb.secSize ≤ buf.length) :
    FilledTo v (v.put buf secNum secCnt) := by
  have e₂ : (v.put buf secNum secCnt).ptrans.dataSecCnt = v.ptrans.dataSecCnt + secCnt :=
    (TransOk.u32_eq h hroom).2
  refine ⟨writes v.psb.secSize buf (v.ptrans.dataSecNum + v.ptrans.dataSecCnt) secCnt, ?_,
    Within.writes fun i hi => ?_⟩
  · rw [Dev.after, applyAll_writes hbuf, Vol.put, List.append_nil]
  · rw [e₂]
    omega

theorem FilledTo.write {blk uiOff : ℕ} {data : List UInt8} {r : Unit} (h : v.TransOk)
    (hw : tpsFsTransWrite true blk uiOff data v = (.ok r, w)) : FilledTo v w := by
  rw [tpsFsTransWrite, bind_of_ok (get_ok.mpr ⟨rfl, rfl⟩), if_pos rfl] at hw
  have key := writeRange_ok v.psb view InLog (fun w => w.TransOk ∧ SameTrans v w ∧ FilledTo v w)
    (blkAddr v.psb blk uiOff + data.length) ?_ ?_ ⟨h, SameTrans.refl v, .refl v⟩ le_rfl hw
  · exact key.1.2.2
  · intro v₁ sec cnt buf v₂ hg hr
    rw [← hg.2.1.psb]
    exact transReadSector_ok (.inl hg.1) hr
  · intro v₁ sec cnt buf v₂ r hg hbuf hc htop hp
    obtain ⟨hroom, hdev, rfl⟩ := tpsFsTransPutData_ok.mp (failWith_ok.mp hp)
    rw [← hg.2.1.psb] at hbuf ⊢
    have hsame := SameTrans.put sec hg.1 hroom hbuf
    exact ⟨⟨hg.1.put hc hroom hdev, hg.2.1.trans hsame,
      .trans hg.2.1 hsame hg.2.2 (.put sec hg.1 hroom hbuf)⟩, fun x hx => hx.mono hsame,
      fun x hx => view_put hg.1 hroom hbuf hx⟩

/-- What the writes of a transaction put into the log. -/
theorem FilledTo.writes {ws : List TransWrite} {r : Unit} (h : v.TransOk)
    (hw : tpsFsTransWrites ws v = (.ok r, w)) : FilledTo v w := by
  induction ws generalizing v with
  | nil =>
    obtain ⟨-, rfl⟩ := pure_ok.mp hw
    exact .refl v
  | cons t ws ih =>
    obtain ⟨_, v₁, h₁, h₂⟩ := bind_ok.mp hw
    obtain ⟨hok, hsame, -⟩ := tpsFsTransWrite_ok h h₁
    exact .trans hsame (tpsFsTransWrites_ok hok h₂).2.1 (.write h h₁) (ih hok h₂)

end Vol

/-- Nothing was written, or the list of areas fits into what the data has left of the log, or no
sector comes behind the log. -/
def ListFits (u : Vol) : Prop :=
  u.ptrans.secAreaArr = [] ∨ u.ptrans.dataSecNum + u.fullCnt ≤ logEnd u.psb ∨
    u.dev.sectorCnt ≤ logEnd u.psb

/-- The data of a transaction lies in the data region of the log, and its list of areas does so
exactly when it fits. -/
theorem Vol.Running.list_inLogData_iff {u u' : Vol} {buf : List UInt8} {r : Except TpsErr Unit}
    (hu : u.Running) (hbuf : buf.length = u.psb.secSize)
    (hlist : writeSecAreas u.ptrans.secAreaArr.length 0 buf u = (r, u')) :
    ∃ es, u'.dev = u.dev.after u.psb.secSize es ∧
      (Within (InLogData u.psb) es ↔ ListFits u) := by
  have hlt := hu.cnt_lt
  have hstart := hu.dataStart_le
  obtain ⟨-, es, hdev, hiff⟩ := writeSecAreas_written (by omega) hbuf (by omega) hlist
  refine ⟨es, hdev, fun hin => ?_, fun hfit s data hm => ?_⟩
  · by_cases hareas : u.ptrans.secAreaArr = []
    · exact .inl hareas
    · right
      have hroom : u.ptrans.dataSecNum + u.ptrans.dataSecCnt ≤ logEnd u.psb := by
        have h := hu.trans.room.resolve_left fun h => hareas h.1
        rwa [hu.log.geom] at h
      by_contra hno
      rw [not_or, Nat.not_le, Nat.not_le, fullCnt] at hno
      -- the first sector behind the log is one of the list
      obtain ⟨data, hm⟩ := (hiff (logEnd u.psb)).mpr
        ⟨hroom, by rw [Nat.sub_zero]; omega, hno.2⟩
      exact absurd (hin _ data hm).2 (lt_irrefl _)
  · obtain ⟨h₁, h₂, h₃⟩ := (hiff s).mp ⟨data, hm⟩
    rw [Nat.sub_zero] at h₂
    refine ⟨hstart.trans (by omega), ?_⟩
    rcases hfit with h | h | h
    · rw [h, List.length_nil, listSecs_zero] at h₂
      omega
    · unfold fullCnt at h
      omega
    · omega

/-- Every sector that a transaction writes to the log, for its data and for its list of areas, lies
in the data region of the log exactly when the list fits behind the data. -/
theorem logSectors_inLogData_iff {psb : SuperBlock} {dev : Dev} {r₀ r₁ k time : ℕ} {pbp : BlkPool}
    {v v₁ u u' : Vol} {ws : List TransWrite} {buf : List UInt8} {r : Except TpsErr Unit}
    (hfmt : Formatted psb dev) (hrun : LogRun (Vol.mount psb dev r₀ r₁ pbp) k v)
    (hk : k < 2 ^ 64) (hbegin : tpsFsTransAllocAndInit time v = (.ok true, v₁))
    (hws : WritesBelow psb (tpsFsBtreeTransInit psb).transSecStart ws)
    (hwrite : tpsFsTransWrites ws v₁ = (.ok (), u)) (hbuf : buf.length = psb.secSize)
    (hlist : writeSecAreas u.ptrans.secAreaArr.length 0 buf u = (r, u')) :
    ∃ esData esList, u.dev = v.dev.after psb.secSize esData ∧
      u'.dev = u.dev.after psb.secSize esList ∧ Within (InLogData psb) esData ∧
      (Within (InLogData psb) (esData ++ esList) ↔ ListFits u) := by
  obtain ⟨hlog, -, hpsb₀⟩ := hrun.logOk (hfmt.logOk r₀ r₁ pbp) rfl hk
  obtain rfl : v.psb = psb := hpsb₀
  obtain ⟨hp₁, -, hdev₁⟩ := tpsFsTransAllocAndInit_psb hbegin
  have hrun₁ := hlog.begin hbegin
  have hs := (tpsFsTransWrites_ok hrun₁.trans hwrite).2.1
  have hu := hrun₁.writes (by rwa [hp₁]) hwrite
  have hpu : u.psb = v.psb := hs.psb.trans hp₁
  have hstart := hrun₁.dataStart_le
  obtain ⟨esData, hdata, hin⟩ := FilledTo.writes hrun₁.trans hwrite
  obtain ⟨esList, hdev, hiff⟩ := hu.list_inLogData_iff (by rwa [hpu]) hlist
  rw [hp₁] at hdata hstart
  rw [hpu] at hdev hiff
  have hin : Within (InLogData v.psb) esData := hin.mono fun s hs' => by
    refine ⟨by omega, ?_⟩
    rcases hu.trans.room with ⟨-, h⟩ | h
    · omega
    · rw [hu.log.geom, hs.dataSecNum, hpu] at h
      exact hs'.2.trans_le h
  refine ⟨esData, esList, by rwa [← hdev₁], hdev, hin, ?_⟩
  rw [← hiff]
  exact ⟨fun h s data hm => h s data (List.mem_append_right _ hm), fun h => hin.append h⟩

/-- One byte is written: the list of areas comes right behind it. -/
theorem logSectors_inLogData_oneByte : ∃ v₁ u u' esData esList,
    tpsFsTransAllocAndInit 0 (Vol.mount smallVol.psb smallVol.dev 0 0 ⟨3, 0, []⟩) =
      (.ok true, v₁) ∧
    tpsFsTransWrites oneByte v₁ = (.ok (), u) ∧
    writeSecAreas u.ptrans.secAreaArr.length 0 (List.replicate 512 0) u = (.ok (), u') ∧
    u.dev = smallVol.dev.after 512 esData ∧ u'.dev = u.dev.after 512 esList ∧
    Within (InLogData smallVol.psb) (esData ++ esList) := by
  obtain ⟨v₁, u, hbegin, hws, hpsb, hnum, hcnt, hareas, hdev⟩ := oneByte_written
  obtain ⟨hfull, es, hrun⟩ := oneByte_list hpsb hnum hcnt hareas hdev
  obtain ⟨esData, esList, h₁, h₂, -, hiff⟩ := logSectors_inLogData_iff smallVol_formatted .start
    (by decide) hbegin (by decide) hws List.length_replicate hrun
  refine ⟨v₁, u, _, esData, esList, hbegin, hws, hrun, h₁, h₂, hiff.mpr (.inr (.inl ?_))⟩
  rw [hfull, hnum, hpsb]
  decide

/-- A write of whole sectors from the beginning of a block on is one area. -/
theorem tpsFsTransWrite_aligned {v : Vol} {blk n : ℕ} {data : List UInt8} (hn : 0 < n)
    (hlen : data.length = n * v.psb.secSize) (hroom : v.HasRoom n)
    (hdev : v.ptrans.dataSecNum + v.ptrans.dataSecCnt + n ≤ v.dev.sectorCnt) :
    tpsFsTransWrite true blk 0 data v =
      (.ok (), v.put data (rangeSecNum v.psb blk 0) n) := by
  have hcnt : rangeSecCnt v.psb blk 0 data.length = n := by
    rw [rangeSecCnt_eq, hlen, Nat.add_mul_div_right _ _ v.psb.secSize_pos, Nat.add_sub_cancel_left]
  have hhead : writeHead v.psb transReadSector
      (fun buf sec cnt => failWith .bufWrite (tpsFsTransPutData buf sec cnt)) blk 0 data v =
        (.ok (0, rangeSecNum v.psb blk 0, n), v) := by
    unfold writeHead
    rw [Nat.zero_and, if_neg (by simp), hcnt]
    rfl
  have hbody : writeBody v.psb
      (fun buf sec cnt => failWith .bufWrite (tpsFsTransPutData buf sec cnt)) data
        (0, rangeSecNum v.psb blk 0, n) v =
      (.ok (data.length, rangeSecNum v.psb blk 0 + n), v.put data (rangeSecNum v.psb blk 0) n) := by
    rw [writeBody, if_pos hn, List.drop_zero,
      bind_of_ok (a := ()) (failWith_ok.mpr (tpsFsTransPutData_ok.mpr ⟨hroom, hdev, rfl⟩)), hlen,
      Nat.zero_add]
    rfl
  rw [tpsFsTransWrite, bind_of_ok (get_ok.mpr ⟨rfl, rfl⟩), if_pos rfl, writeRange,
    bind_of_ok hhead, bind_of_ok hbody, writeTail, if_neg (by omega)]
  rfl

/-- A disk of 16 MB and one sector. -/
def oddDev : Dev := { smallVol.dev with sectorCnt := 32769, sectorCnt_lt := by decide }

theorem oddDev_formatted : Formatted smallVol.psb oddDev :=
  ⟨by decide, by decide, by decide, by decide, smallVol_formatted.vacant⟩

/-- The data of a write fills the log, and the list of areas is written to the sector behind it. -/
theorem list_behind_log : ∃ data v₁ u u' esData esList d,
    tpsFsTransAllocAndInit 0 (Vol.mount smallVol.psb oddDev 0 0 ⟨3, 0, []⟩) = (.ok true, v₁) ∧
    WritesBelow smallVol.psb (tpsFsBtreeTransInit smallVol.psb).transSecStart [⟨100, 0, data⟩] ∧
    tpsFsTransWrites [⟨100, 0, data⟩] v₁ = (.ok (), u) ∧
    u.dev = oddDev.after 512 esData ∧
    writeSecAreas u.ptrans.secAreaArr.length 0 (List.replicate 512 0) u = (.ok (), u') ∧
    u'.dev = u.dev.after 512 esList ∧ .write 32768 d ∈ esList ∧
    ¬ InLogData smallVol.psb 32768 := by
  obtain ⟨data, hlen⟩ : ∃ data : List UInt8, data.length = 2046 * 512 :=
    ⟨List.replicate (2046 * 512) 0, List.length_replicate⟩
  have hbegin : tpsFsTransAllocAndInit 0 (Vol.mount smallVol.psb oddDev 0 0 ⟨3, 0, []⟩) =
    (.ok true, _) := rfl
  have hlog := (oddDev_formatted.logOk 0 0 ⟨3, 0, []⟩).begin hbegin
  have hbelow : WritesBelow smallVol.psb (tpsFsBtreeTransInit smallVol.psb).transSecStart
      [⟨100, 0, data⟩] := by
    intro w hw
    rw [List.mem_singleton.mp hw, hlen]
    exact (by decide : blkAddr smallVol.psb 100 0 + 2046 * 512 ≤
      (tpsFsBtreeTransInit smallVol.psb).transSecStart * smallVol.psb.secSize)
  have hws : ∃ u, tpsFsTransWrites [⟨100, 0, data⟩]
      (tpsFsTransAllocAndInit 0 (Vol.mount smallVol.psb oddDev 0 0 ⟨3, 0, []⟩)).2 = (.ok (), u) ∧
      u.psb = smallVol.psb ∧ u.ptrans.dataSecNum = 30722 ∧ u.ptrans.dataSecCnt = 2046 ∧
      u.ptrans.secAreaArr.length = 1 ∧ u.dev.sectorCnt = 32769 :=
    ⟨_, bind_of_ok (tpsFsTransWrite_aligned (n := 2046) (by decide) hlen (by decide) (by decide)),
      rfl, rfl, rfl, rfl, rfl⟩
  obtain ⟨u, hws, hpsb, hnum, hcnt, hlen, hdev⟩ := hws
  obtain ⟨esData, hdata, -⟩ := FilledTo.writes hlog.trans hws
  have hone : listSecs u.psb (u.ptrans.secAreaArr.length - 0) = 1 := by
    rw [hlen, hpsb]
    decide
  obtain ⟨esList, hrun, -, -, hsecs⟩ := writeSecAreas_isOk (n := u.ptrans.secAreaArr.length)
    (i := 0) (v := u) (by omega)
    (show (List.replicate 512 0).length = u.psb.secSize by rw [hpsb, List.length_replicate]; rfl)
    (by omega) (by omega)
  obtain ⟨⟨d, hd⟩, -⟩ := hsecs 0 (by omega)
  rw [hnum, hcnt] at hd
  refine ⟨data, _, u, _, esData, esList, d, hbegin, hbelow, hws, hdata, hrun, ?_, hd, ?_⟩
  · change u.dev.after u.psb.secSize esList = _
    rw [hpsb]
    rfl
  · rintro ⟨-, h⟩
    exact absurd h (by decide)

end SylixOS.TpsFs
