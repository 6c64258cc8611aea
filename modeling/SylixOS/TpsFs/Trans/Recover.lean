import SylixOS.TpsFs.Trans.CheckTrans

/-! # What the check of the log does to the disk

A log without headers and a log whose newest transaction is complete are left alone, and the
transaction of a header in status `COMMIT` is committed once more from what the log holds.

The search looks at 16 slots before it takes a log for empty. A header area with fewer slots ends
before that, and then the search reads the data area of the log. When it finds something there that
looks like a header it does not come to an end; nothing is written in the meantime.
-/

namespace SylixOS.TpsFs
open Lib Lib.Store Lib.Disk Lib.Outcome

/-! ## An empty log -/

theorem tpsFsTransUnserial_iStatus (psb : SuperBlock) (t t' : Trans) (buf : List UInt8) :
    (tpsFsTransUnserial psb t buf).iStatus = (tpsFsTransUnserial psb t' buf).iStatus := by
  unfold tpsFsTransUnserial
  rw [apply_ite Trans.iStatus, apply_ite Trans.iStatus]
  rfl

namespace Vol

/-- The search finds a header at this index. -/
def Present (v : Vol) (i : ℕ) : Prop :=
  ∃ buf, v.readSectors (v.ptranssb.seek v.psb i).transCurSec 1 = some buf ∧
    (tpsFsTransUnserial v.psb v.ptrans
      (buf.drop (v.ptranssb.seek v.psb i).transSecOff)).iStatus ≠ .uninit

variable {v : Vol}

theorem getTrans_present (v : Vol) (t : Trans) (i : ℕ) :
    v.Yields (tpsFsGetTrans t i) fun t' => t'.iStatus ≠ .uninit ↔ v.Present i := by
  rintro w ⟨hprobe, hpsb, hdev, hstart⟩
  have hseek : (w.ptranssb.seek w.psb i).transCurSec = (v.ptranssb.seek v.psb i).transCurSec ∧
      (w.ptranssb.seek w.psb i).transSecOff = (v.ptranssb.seek v.psb i).transSecOff := by
    rw [hpsb]
    exact ⟨congrArg (· + _) hstart, rfl⟩
  have hread : Vol.readSectors { w with ptranssb := w.ptranssb.seek w.psb i }
      (w.ptranssb.seek w.psb i).transCurSec 1 =
      v.readSectors (v.ptranssb.seek v.psb i).transCurSec 1 := by
    unfold readSectors
    rw [hseek.1, hpsb, hdev]
  rw [tpsFsGetTrans, bind_of_ok (a := ()) (modify_ok.mpr rfl), bind_of_ok (get_ok.mpr ⟨rfl, rfl⟩)]
  dsimp only
  rw [hread]
  cases hr : v.readSectors (v.ptranssb.seek v.psb i).transCurSec 1 with
  | none =>
    refine ⟨_, _, rfl, ⟨hprobe, hpsb, hdev, hstart⟩, fun h => absurd rfl h, ?_⟩
    rintro ⟨_, h, -⟩
    rw [hr] at h
    cases h
  | some buf =>
    refine ⟨_, _, rfl, ⟨hprobe, hpsb, hdev, hstart⟩, ?_⟩
    rw [hseek.2, hpsb, tpsFsTransUnserial_iStatus _ t v.ptrans]
    refine ⟨fun h => ⟨buf, hr, h⟩, ?_⟩
    rintro ⟨_, h, hst⟩
    rw [hr] at h
    cases h
    exact hst

theorem findTrans_present (v : Vol) (index : ℕ → ℕ) (is : List ℕ) {t : Trans}
    (ht : t.iStatus = .uninit) : v.Yields (findTrans index is t) fun
      | (_, some i) => v.Present (index i) ∧ ∃ js ks, is = js ++ i :: ks ∧
          ∀ j ∈ js, ¬ v.Present (index j)
      | (t', none) => t'.iStatus = .uninit ∧ ∀ j ∈ is, ¬ v.Present (index j) := by
  induction is generalizing t with
  | nil => exact Yields.pure ⟨ht, fun _ h => by cases h⟩
  | cons i is ih =>
    refine (getTrans_present v t (index i)).bind fun t' ht' => ?_
    by_cases hu : t'.iStatus = .uninit
    · have hi : ¬ v.Present (index i) := fun h => ht'.mpr h hu
      rw [if_neg (by simpa using hu)]
      refine (ih hu).mono ?_
      rintro ⟨t'', _ | j⟩ h
      · exact ⟨h.1, List.forall_mem_cons.mpr ⟨hi, h.2⟩⟩
      · obtain ⟨hj, js, ks, rfl, hjs⟩ := h
        exact ⟨hj, i :: js, ks, rfl, List.forall_mem_cons.mpr ⟨hi, hjs⟩⟩
    · rw [if_pos hu]
      exact Yields.pure ⟨ht'.mp hu, [], is, rfl, fun _ h => by cases h⟩

/-- The search cannot end any more: its low end lies behind its high end, on a header before
which there is none. -/
structure Stuck (v : Vol) (s : Search) : Prop where
  present : v.Present s.lIndex
  before : ∀ j < s.lIndex, ¬ v.Present j
  lt : s.hIndex < s.lIndex
  le : s.lIndex ≤ 15
  -- neither does the search find anything when it runs over the beginning of the log
  far : ∀ i ≤ 15, ¬ v.Present (2 ^ 64 - i)

theorem Stuck.getTransBack {s : Search} (h : v.Stuck s) (t : Trans) {H : ℕ} (hH : H < s.lIndex) :
    v.Yields (tpsFsGetTransBack t H) fun r => r.1.iStatus = .uninit ∧ r.2 = H := by
  have hle := h.le
  have hback (i : ℕ) (hi : i < 16) : ¬ v.Present (u64 (H + (2 ^ 64 - i))) := by
    rcases Nat.le_total i H with hiH | hiH
    · rw [u64_back hiH (by omega)]
      exact h.before _ (by omega)
    · rcases Nat.eq_or_lt_of_le hiH with rfl | hlt
      · rw [u64_back le_rfl (by omega)]
        exact h.before _ (by omega)
      · have hu : u64 (H + (2 ^ 64 - i)) = 2 ^ 64 - (i - H) := by
          unfold u64
          omega
        rw [hu]
        exact h.far _ (by omega)
  refine (getTrans_present v t H).bind fun t' ht' => ?_
  have hu : t'.iStatus = .uninit := by
    by_contra hne
    exact h.before H hH (ht'.mp hne)
  rw [if_pos hu]
  refine (findTrans_present v (fun i => u64 (H + (2 ^ 64 - i))) (List.range 16) hu).bind ?_
  rintro ⟨t'', _ | i⟩ hr
  · exact Yields.pure ⟨hr.1, rfl⟩
  · obtain ⟨hi, js, ks, hsplit, -⟩ := hr
    have hmem : i ∈ List.range 16 := by rw [hsplit]; simp
    exact absurd hi (hback i (List.mem_range.mp hmem))

/-- The rest of a round does not end the search. -/
theorem Stuck.rest {s : Search} (h : v.Stuck s) :
    v.Yields (do
      let (s, done) ← searchEnd s
      if done then pure (s, true) else searchMid s) fun r => r.2 = false ∧ v.Stuck r.1 := by
  have hlt := h.lt
  -- the high end
  refine (?_ : v.Yields (searchEnd s) fun r => r.2 = false ∧ r.1.lIndex = s.lIndex ∧
    r.1.hIndex = s.hIndex).bind ?_
  · refine (h.getTransBack _ h.lt).bind ?_
    rintro ⟨t, _⟩ ⟨hu, rfl⟩
    dsimp only at hu ⊢
    rw [if_neg fun hc => hc.1 hu]
    exact Yields.pure ⟨rfl, rfl, rfl⟩
  rintro ⟨s₂, _⟩ ⟨rfl, hl, hh⟩
  dsimp only at hl hh ⊢
  rw [if_neg (by decide)]
  -- the middle
  have hmid : (s₂.lIndex + s₂.hIndex) >>> 1 = (s.lIndex + s.hIndex) / 2 := by
    rw [hl, hh]
    exact Nat.shiftRight_one _
  refine (h.getTransBack s₂.transMid (H := (s₂.lIndex + s₂.hIndex) >>> 1) (by omega)).bind ?_
  rw [hmid]
  rintro ⟨t, _⟩ ⟨hu, rfl⟩
  dsimp only at hu ⊢
  rw [if_neg (by omega), if_pos hu]
  refine Yields.pure ⟨rfl, ?_, ?_, ?_, ?_, h.far⟩
  · rw [hl]
    exact h.present
  · rw [hl]
    exact h.before
  · dsimp only
    omega
  · rw [hl]
    exact h.le

theorem Stuck.searchStep {s : Search} (h : v.Stuck s) :
    v.Yields (searchStep s) fun r => r.2 = false ∧ v.Stuck r.1 := by
  refine (?_ : v.Yields (searchStart s) fun r => r.2 = false ∧
    r.1 = { s with transStart := r.1.transStart }).bind ?_
  · refine (getTrans_present v s.transStart s.lIndex).bind fun t' ht' => ?_
    rw [if_neg (ht'.mpr h.present)]
    exact Yields.pure ⟨rfl, rfl⟩
  rintro ⟨s₁, _⟩ ⟨rfl, hs₁⟩
  dsimp only at hs₁ ⊢
  rw [if_neg (by decide), hs₁]
  exact Stuck.rest ⟨h.present, h.before, h.lt, h.le, h.far⟩

theorem Stuck.searchLoop {s : Search} (h : v.Stuck s) (n : ℕ) :
    v.Yields (searchLoop n s) fun r => r = none := by
  induction n generalizing s with
  | zero => exact Yields.pure rfl
  | succ n ih =>
    refine h.searchStep.bind ?_
    rintro ⟨s', _⟩ ⟨rfl, hs'⟩
    exact ih hs'

/-- A header area in which nothing is found. -/
structure Empty (v : Vol) : Prop where
  geom : v.ptranssb = tpsFsBtreeTransInit v.psb
  slotCnt_pos : 0 < slotCnt v.psb
  vacant : ∀ i < slotCnt v.psb, Vacant v.psb (slotBuf v.psb v.dev.data i)

theorem Empty.not_present (h : v.Empty) {i : ℕ} (hi : i < slotCnt v.psb) : ¬ v.Present i := by
  rintro ⟨buf, hread, hst⟩
  unfold readSectors at hread
  split_ifs at hread with hdev
  cases hread
  refine hst ?_
  have := h.vacant i hi v.ptrans
  rw [TransSb.seek_eq, h.geom, Nat.one_mul]
  exact this

/-- Indices that have run over the beginning of the log lie behind the end of the device, as long
as the header area is so small that they are looked at. -/
theorem not_present_far (hN : slotCnt v.psb < 16) (hpos : 0 < slotCnt v.psb) {i : ℕ} (hi : i ≤ 15) :
    ¬ v.Present (2 ^ 64 - i) := by
  rintro ⟨buf, hread, -⟩
  unfold readSectors at hread
  split_ifs at hread with hdev
  rw [TransSb.seek_eq] at hdev
  have hle : slotsPerSec v.psb ≤ 15 := by
    rw [slotCnt_eq] at hN hpos
    have := Nat.le_mul_of_pos_left (slotsPerSec v.psb) (Nat.pos_of_mul_pos_right hpos)
    omega
  have hquot : 2 ^ 60 ≤ (2 ^ 64 - i) / slotsPerSec v.psb :=
    (Nat.le_div_iff_mul_le (slotsPerSec_pos v.psb)).mpr (by omega)
  have hdev' := v.dev.sectorCnt_lt
  dsimp only at hdev
  omega

/-- The first round of the search in an empty log: it finds nothing, or the search is stuck. -/
theorem Empty.searchStep (h : v.Empty) {s : Search} (hl : s.lIndex = 0)
    (hh : s.hIndex = slotCnt v.psb - 1) : v.Yields (searchStep s) fun r =>
      (r.2 = true ∧ r.1.mIndex = 0 ∧ r.1.transEnd = s.transEnd) ∨
        (r.2 = false ∧ v.Stuck r.1 ∧ slotCnt v.psb < 16) := by
  have hpos := h.slotCnt_pos
  have hstart : v.Yields (searchStart s) fun r =>
      (r.2 = true ∧ r.1.mIndex = 0 ∧ r.1.transEnd = s.transEnd) ∨
        (r.2 = false ∧ v.Stuck r.1 ∧ slotCnt v.psb < 16) := by
    refine (getTrans_present v s.transStart s.lIndex).bind fun t' ht' => ?_
    have hu : t'.iStatus = .uninit := by
      by_contra hne
      exact h.not_present (by omega) (ht'.mp hne)
    rw [if_pos hu]
    refine (findTrans_present v (fun i => s.lIndex + i) (List.range 16) hu).bind ?_
    rintro ⟨t'', _ | i⟩ hr
    · exact Yields.pure (.inl ⟨rfl, hl, rfl⟩)
    · obtain ⟨hi, js, ks, hsplit, hjs⟩ := hr
      have hmem : i ∈ List.range 16 := by rw [hsplit]; simp
      have hi16 := List.mem_range.mp hmem
      have hlen : js.length = i := by
        have hget : (List.range 16)[js.length]? = some i := by rw [hsplit]; simp
        rw [List.getElem?_eq_some_iff] at hget
        obtain ⟨hlt, hget⟩ := hget
        rwa [List.getElem_range] at hget
      have hbefore (j : ℕ) (hj : j < i) : ¬ v.Present (s.lIndex + j) := by
        refine hjs j ?_
        have hget : js[j]? = some j := by
          have : (List.range 16)[j]? = some j := by
            rw [List.getElem?_range (by omega)]
          rwa [hsplit, List.getElem?_append_left (by omega)] at this
        exact List.mem_of_getElem? hget
      have hiN : slotCnt v.psb ≤ i := by
        by_contra hlt
        rw [hl, Nat.zero_add] at hi
        exact h.not_present (by omega) hi
      refine Yields.pure (.inr ⟨rfl, ⟨hi, fun j hj => ?_, by dsimp only; omega, by
        dsimp only; omega, fun j hj => not_present_far (by omega) hpos hj⟩, by omega⟩)
      have := hbefore j (by dsimp only at hj; omega)
      rwa [hl, Nat.zero_add] at this
  refine hstart.bind ?_
  rintro ⟨s₁, _⟩ (⟨rfl, hm, he⟩ | ⟨rfl, hs, hN⟩)
  · exact Yields.pure (.inl ⟨rfl, hm, he⟩)
  · dsimp only
    rw [if_neg (by decide)]
    exact hs.rest.mono fun r hr => .inr ⟨hr.1, hr.2, hN⟩

theorem Empty.searchLoop (h : v.Empty) (n : ℕ) {s : Search} (hl : s.lIndex = 0)
    (hh : s.hIndex = slotCnt v.psb - 1) : v.Yields (searchLoop n s) fun r =>
      (16 ≤ slotCnt v.psb → 0 < n → r ≠ none) ∧
        ∀ s', r = some s' → s'.mIndex = 0 ∧ s'.transEnd = s.transEnd := by
  cases n with
  | zero => exact Yields.pure ⟨fun _ h => absurd h (by omega), fun s' hs => by cases hs⟩
  | succ n =>
    refine (h.searchStep hl hh).bind ?_
    rintro ⟨s₁, _⟩ (⟨rfl, hm⟩ | ⟨rfl, hs, hN⟩)
    · refine Yields.pure (a := some s₁) ⟨fun _ _ => Option.some_ne_none _, fun s' hs => ?_⟩
      cases hs
      exact hm
    · refine (hs.searchLoop n).mono ?_
      rintro _ rfl
      exact ⟨fun hN' => absurd hN' (by omega), fun s' hs => by cases hs⟩

/-- The check of a log without headers leaves the disk as it is, and it comes to an end when the
header area has at least 16 slots. -/
theorem Empty.checkTrans (h : v.Empty) (n : ℕ) (t₀ : Trans) (buf : List UInt8) :
    ∃ res w, tspFsCheckTrans n t₀ buf v = (.ok res, w) ∧ w.dev = v.dev ∧
      (16 ≤ slotCnt v.psb → 0 < n → res = some ()) := by
  have hpos := h.slotCnt_pos
  have hresult (s : Search) (hm : s.mIndex = 0) (he : s.transEnd.iStatus = .uninit) :
      v.Yields (searchResult s) fun r => r.1.iStatus = .uninit := by
    refine (getTrans_present v s.transMid s.mIndex).bind fun t' ht' => ?_
    rw [if_neg fun hc => hc.1 he]
    refine Yields.pure (a := (t', s.mIndex)) ?_
    by_contra hne
    exact h.not_present (by rw [hm]; exact hpos) (ht'.mp hne)
  have hcnt : v.ptranssb.transSecCnt <<< (v.psb.secShift - tranShift) = slotCnt v.psb := by
    rw [h.geom]
    rfl
  have hnewest : v.Yields (searchNewest n t₀) fun r =>
      (16 ≤ slotCnt v.psb → 0 < n → r ≠ none) ∧ ∀ p, r = some p → p.1.iStatus = .uninit := by
    rintro w hw
    have hsb : w.ptranssb.transSecCnt = v.ptranssb.transSecCnt := by
      have := congrArg (fun u : Vol => u.ptranssb.transSecCnt) (hw.probe 0)
      exact this
    rw [searchNewest, bind_of_ok (get_ok.mpr ⟨rfl, rfl⟩), hsb, hw.psb, hcnt]
    refine (h.searchLoop n (by rfl) (by rfl)).bind ?_ w hw
    rintro (_ | s) ⟨hend, hs⟩
    · exact Yields.pure (a := none) ⟨fun h₁ h₂ => absurd rfl (hend h₁ h₂), fun p hp => by cases hp⟩
    · obtain ⟨hm, he⟩ := hs s rfl
      refine (hresult s hm (by rw [he])).bind fun r hr => Yields.pure (a := some r) ⟨?_, ?_⟩
      · exact fun _ _ => Option.some_ne_none _
      · intro p hp
        cases hp
        exact hr
  obtain ⟨r, w, hrun, hw, hend, hun⟩ := hnewest v (Scanned.refl v)
  cases r with
  | none =>
    refine ⟨none, w, ?_, hw.dev, fun h₁ h₂ => absurd rfl (hend h₁ h₂)⟩
    rw [tspFsCheckTrans, bind_of_ok hrun]
    rfl
  | some p =>
    refine ⟨some (), w, ?_, hw.dev, fun _ _ => rfl⟩
    rw [tspFsCheckTrans, bind_of_ok hrun]
    dsimp only
    rw [checkFound, if_neg (by simpa using hun p rfl), hun p rfl]
    rfl

end Vol

/-! ## A committed transaction -/

theorem resizeAreas_length (as : List SecArea) (n : ℕ) : (resizeAreas as n).length = n := by
  rw [resizeAreas, List.length_append, List.length_take, List.length_replicate]
  omega

theorem resizeAreas_self {as : List SecArea} {n : ℕ} (h : as.length = n) :
    resizeAreas as n = as := by
  rw [resizeAreas, ← h, List.take_length, Nat.sub_self, List.replicate_zero, List.append_nil]

/-- Putting a piece back into its place in a list whose rest is in place already. -/
theorem drop_splice_take {as cur : List SecArea} {i n : ℕ} (hi : i ≤ as.length)
    (hlen : cur.length = as.length) (hrest : cur.drop (i + n) = as.drop (i + n)) :
    (splice cur i ((as.drop i).take n)).drop i = as.drop i := by
  have htake : (cur.take i).length = i := by
    rw [List.length_take]
    omega
  rw [splice, List.append_assoc, List.drop_left' htake, List.length_take, List.length_drop]
  rcases Nat.le_total n (as.length - i) with hn | hn
  · rw [Nat.min_eq_left hn, hrest, ← List.drop_drop, List.take_append_drop]
  · rw [Nat.min_eq_right hn, List.take_of_length_le (by rw [List.length_drop]; exact hn),
      List.drop_eq_nil_of_le (show cur.length ≤ _ by omega), List.append_nil]

/-- The volume whose list of areas has been loaded from index `i` on, and `cnt` log sectors are
left. -/
def Vol.load (w : Vol) (t : Trans) (cnt i : ℕ) : Vol :=
  { w with ptrans :=
    { w.ptrans with
      dataSecCnt := cnt
      tdReserved0 := u32 t.tdReserved0
      tdReserved1 := u32 t.tdReserved1
      secAreaArr := splice (resizeAreas w.ptrans.secAreaArr t.secAreaArr.length) i
        ((t.secAreaArr.drop i).take (perSector w.psb.secSize)) } }

theorem tpsFsLoadTransData_succ {w : Vol} {t : Trans} {c n i : ℕ}
    (hcnt : w.ptrans.dataSecCnt = c + 1) (h32 : c + 1 < 2 ^ 32)
    (hdev : w.ptrans.dataSecNum + c < w.dev.sectorCnt)
    (hsec : ListSector w.psb w.dev.data t (w.ptrans.dataSecNum + c) i)
    (hlen : t.secAreaArr.length < 2 ^ 32) (hfit : ∀ a ∈ t.secAreaArr, a.Fits)
    (hidx : i ≤ t.secAreaArr.length) :
    tpsFsLoadTransData (n + 1) w =
      if 0 < i then tpsFsLoadTransData n (w.load t c i) else (.ok (some ()), w.load t c i) := by
  obtain ⟨buf, -, hbuf⟩ := hsec
  have hread : Vol.devReadSector (w.ptrans.dataSecNum + w.ptrans.dataSecCnt - 1) 1 w =
      (.ok (tpsFsTransSecAreaSerial t i buf w.psb.secSize).2, w) := by
    rw [hcnt, show w.ptrans.dataSecNum + (c + 1) - 1 = w.ptrans.dataSecNum + c by omega,
      Vol.devReadSector_isOk hdev, Nat.one_mul, ← hbuf]
    rfl
  have hu : u32 (c + 1 + (2 ^ 32 - 1)) = c := by
    unfold u32
    omega
  rw [tpsFsLoadTransData, bind_of_ok (get_ok.mpr ⟨rfl, rfl⟩), bind_of_ok hread,
    tpsFsTransSecAreaUnserial_serial hlen hidx hfit]
  dsimp only
  rw [bind_of_ok (a := ()) (modify_ok.mpr rfl), hcnt, hu]
  split_ifs <;> rfl

/-- The list of areas is loaded as it was written. -/
theorem tpsFsLoadTransData_isOk {w : Vol} {t : Trans} {c m n : ℕ} (hn : m < n)
    (hcnt : w.ptrans.dataSecCnt = c + (m + 1)) (h32 : c + (m + 1) < 2 ^ 32)
    (hdev : w.ptrans.dataSecNum + (c + (m + 1)) ≤ w.dev.sectorCnt)
    (hsecs : ∀ k < m + 1, ListSector w.psb w.dev.data t (w.ptrans.dataSecNum + c + k)
      (k * perSector w.psb.secSize))
    (hlen : t.secAreaArr.length < 2 ^ 32) (hfit : ∀ a ∈ t.secAreaArr, a.Fits)
    (hidx : m * perSector w.psb.secSize ≤ t.secAreaArr.length)
    (hrest : (resizeAreas w.ptrans.secAreaArr t.secAreaArr.length).drop
      ((m + 1) * perSector w.psb.secSize) =
        t.secAreaArr.drop ((m + 1) * perSector w.psb.secSize)) :
    tpsFsLoadTransData n w = (.ok (some ()), { w with ptrans :=
      { w.ptrans with
        dataSecCnt := c
        tdReserved0 := u32 t.tdReserved0
        tdReserved1 := u32 t.tdReserved1
        secAreaArr := t.secAreaArr } }) := by
  have hp := perSector_pos w.psb
  induction m generalizing n w with
  | zero =>
    obtain ⟨n, rfl⟩ := Nat.exists_eq_add_of_lt hn
    have hsec := hsecs 0 (by omega)
    rw [Nat.zero_add, Nat.one_mul] at hrest
    rw [Nat.zero_mul] at hsec
    have h := drop_splice_take (Nat.zero_le _) (resizeAreas_length _ _)
      (by rw [Nat.zero_add]; exact hrest)
    rw [List.drop_zero, List.drop_zero] at h
    rw [tpsFsLoadTransData_succ hcnt h32 (by omega) hsec hlen hfit (Nat.zero_le _), if_neg (by omega),
      Vol.load, List.drop_zero, h]
  | succ m ih =>
    obtain ⟨n, rfl⟩ := Nat.exists_eq_add_of_lt hn
    have hpos : 0 < (m + 1) * perSector w.psb.secSize := Nat.mul_pos (by omega) hp
    have hlen' : (splice (resizeAreas w.ptrans.secAreaArr t.secAreaArr.length)
        ((m + 1) * perSector w.psb.secSize)
        ((t.secAreaArr.drop ((m + 1) * perSector w.psb.secSize)).take
          (perSector w.psb.secSize))).length = t.secAreaArr.length := by
      rw [splice_length, resizeAreas_length]
      rw [List.length_take, List.length_drop, resizeAreas_length]
      omega
    have hrest' := drop_splice_take hidx (resizeAreas_length w.ptrans.secAreaArr _)
      (by rw [← Nat.succ_mul]; exact hrest)
    rw [tpsFsLoadTransData_succ (c := c + (m + 1)) hcnt h32 (by omega)
      (by rw [← Nat.add_assoc]; exact hsecs (m + 1) (by omega)) hlen hfit hidx, if_pos hpos,
      ih (w := w.load t _ _) (by omega) rfl (by omega) (by dsimp only [Vol.load]; omega)
        (fun k hk => hsecs k (by omega)) ?_ ?_ hp]
    · rfl
    · refine le_trans ?_ hidx
      exact Nat.mul_le_mul_right _ (by omega)
    · exact (congrArg (List.drop _) (resizeAreas_self hlen')).trans hrest'

theorem listSecs_mul_ge (psb : SuperBlock) (n : ℕ) :
    n ≤ listSecs psb n * perSector psb.secSize := by
  have hp := perSector_pos psb
  have h := Nat.lt_div_mul_add (a := n + (perSector psb.secSize - 1)) hp
  unfold listSecs
  omega

theorem listSecs_mul_le (psb : SuperBlock) {n m : ℕ} (h : listSecs psb n = m + 1) :
    m * perSector psb.secSize ≤ n := by
  have hp := perSector_pos psb
  have hle := Nat.div_mul_le_self (n + (perSector psb.secSize - 1)) (perSector psb.secSize)
  unfold listSecs at h
  rw [h, Nat.succ_mul] at hle
  omega

namespace Vol

variable {u v : Vol}

theorem Running.area_fits (h : u.Running) (a : SecArea) (ha : a ∈ u.ptrans.secAreaArr) :
    a.Fits := by
  have h₁ := h.trans.logged a ha
  have h₂ := h.cnt_lt
  have h₃ := h.below a ha
  have h₄ := h.log.onDev
  have h₅ := u.dev.sectorCnt_lt
  have h₆ := transDataStart_eq u.psb
  constructor <;> omega

/-- The volume `x` is about to redo the transaction that `u` was about to commit. -/
structure Redoes (u x : Vol) : Prop where
  psb : x.psb = u.psb
  curSec : x.ptranssb.transCurSec = u.ptranssb.transCurSec
  isOpen : x.Open
  dataSecNum : x.ptrans.dataSecNum = u.ptrans.dataSecNum
  dataSecCnt : x.ptrans.dataSecCnt = u.ptrans.dataSecCnt
  areas : x.ptrans.secAreaArr = u.ptrans.secAreaArr

/-- The volume where the transaction with header `t` in slot `i` is taken up again. -/
def takeUp (v : Vol) (i : ℕ) (t : Trans) : Vol :=
  { v.probe i with
    ptranssb := { (v.probe i).ptranssb with serialNum := t.serialNum }.seek v.psb i
    ptrans :=
      { t with
        tdReserved0 := v.ptrans.tdReserved0
        tdReserved1 := v.ptrans.tdReserved1
        secAreaArr := v.ptrans.secAreaArr } }

/-- The volume with the list of areas of transaction `t` and its count of data sectors. -/
def loaded (w : Vol) (t : Trans) : Vol :=
  { w with ptrans :=
    { w.ptrans with
      dataSecCnt := t.dataSecCnt
      tdReserved0 := u32 t.tdReserved0
      tdReserved1 := u32 t.tdReserved1
      secAreaArr := t.secAreaArr } }

section Redo

variable {dev : Dev} {r₀ r₁ n : ℕ} {pbp : BlkPool} {buf : List UInt8}
  (hu : u.Running) (hareas : u.ptrans.secAreaArr ≠ [])
  (hdev : u.ptrans.dataSecNum + u.fullCnt ≤ u.dev.sectorCnt)
  (h : (Vol.mount u.psb dev r₀ r₁ pbp).Mounting u.ptranssb.serialNum (u.header u.fullCnt .commit))
  (hcnt : dev.sectorCnt = u.dev.sectorCnt)

include hareas in
theorem Running.listSecs_succ (_ : u.Running) :
    ∃ m, listSecs u.psb u.ptrans.secAreaArr.length = m + 1 :=
  ⟨_, TpsFs.listSecs_succ u.psb (List.length_pos_iff.mpr hareas)⟩

include hu hareas hdev hcnt in
/-- The whole list of areas is found behind the data. -/
theorem Running.load_takeUp (i : ℕ)
    (hlist : ∀ k < listSecs u.psb u.ptrans.secAreaArr.length, ListSector u.psb dev.data u.ptrans
      (u.ptrans.dataSecNum + u.ptrans.dataSecCnt + k) (k * perSector u.psb.secSize))
    (hn : u.ptrans.secAreaArr.length ≤ n) :
    tpsFsLoadTransData n
        ((Vol.mount u.psb dev r₀ r₁ pbp).takeUp i (u.header u.fullCnt .commit)) =
      (.ok (some ()), ((Vol.mount u.psb dev r₀ r₁ pbp).takeUp i
        (u.header u.fullCnt .commit)).loaded u.ptrans) := by
  have hlt := hu.cnt_lt
  obtain ⟨m, hm⟩ := hu.listSecs_succ hareas
  have hmle := listSecs_le u.psb u.ptrans.secAreaArr.length
  have hge := listSecs_mul_ge u.psb u.ptrans.secAreaArr.length
  have hfull : u.fullCnt = u.ptrans.dataSecCnt + (m + 1) := by rw [fullCnt, hm]
  rw [hm] at hlist hge hmle
  rw [hfull, ← hcnt] at hdev
  refine tpsFsLoadTransData_isOk (m := m) (by omega) hfull (by omega) hdev hlist (by omega)
    hu.area_fits (listSecs_mul_le u.psb hm) ?_
  have hnil : u.ptrans.secAreaArr.drop ((m + 1) * perSector u.psb.secSize) = [] :=
    List.drop_eq_nil_of_le hge
  refine Eq.trans ?_ hnil.symm
  refine List.drop_eq_nil_of_le ?_
  rw [resizeAreas_length]
  exact hge

include hu in
theorem Running.takeUp_redoes :
    u.Redoes (((Vol.mount u.psb dev r₀ r₁ pbp).takeUp (u.ptranssb.serialNum % slotCnt u.psb)
      (u.header u.fullCnt .commit)).loaded u.ptrans) := by
  refine ⟨rfl, ?_, .inr rfl, rfl, rfl, rfl⟩
  rw [hu.log.curSec]
  change (TransSb.seek _ _ _).transCurSec = _
  rw [TransSb.seek_eq]
  rfl

include hu hareas hdev hcnt in
theorem Running.takeUp_committable :
    (((Vol.mount u.psb dev r₀ r₁ pbp).takeUp (u.ptranssb.serialNum % slotCnt u.psb)
      (u.header u.fullCnt .commit)).loaded u.ptrans).Committable := by
  have hcom := hu.committable hareas hdev
  have hlen : (sector u.psb.secSize dev.data ((tpsFsBtreeTransInit u.psb).transSecStart +
    u.ptranssb.serialNum % slotCnt u.psb / slotsPerSec u.psb)).length = u.psb.secSize :=
    slice_length _ _ _
  refine ⟨hareas, hcom.cnt, ?_, hlen, ?_, ?_, hcom.logged, hcom.below⟩
  · rw [← hcnt] at hdev
    exact hdev
  · change (TransSb.seek _ _ _).transSecOff + 64 ≤ _
    rw [TransSb.seek_eq]
    exact (slot_off_le hlen).trans hlen.le
  · rw [hu.takeUp_redoes.curSec]
    exact hcom.curSec.trans_eq hcnt.symm

include hu hareas hdev h hcnt in
/-- When the newest header is in status `COMMIT` its transaction is committed again. -/
theorem Mounting.checkTrans_commit
    (hlist : ∀ k < listSecs u.psb u.ptrans.secAreaArr.length, ListSector u.psb dev.data u.ptrans
      (u.ptrans.dataSecNum + u.ptrans.dataSecCnt + k) (k * perSector u.psb.secSize))
    (hn : slotCnt u.psb ≤ n) (hn' : u.ptrans.secAreaArr.length ≤ n)
    (hbuf : buf.length = u.psb.secSize) (t₀ : Trans) :
    ∃ x esList esHome, tspFsCheckTrans n t₀ buf (Vol.mount u.psb dev r₀ r₁ pbp) =
        (.ok (some ()), x.committed esList esHome) ∧
      x.Committable ∧ x.CommitRun esList esHome ∧ x.dev = dev ∧ u.Redoes x := by
  obtain ⟨a, b, areas, hs⟩ := h.searchNewest hn t₀
  have hcom : (((Vol.mount u.psb dev r₀ r₁ pbp).takeUp (u.ptranssb.serialNum % slotCnt u.psb)
    (u.header u.fullCnt .commit)).loaded u.ptrans).Committable :=
    hu.takeUp_committable hareas hdev hcnt
  obtain ⟨esList, esHome, hrun, hr⟩ := commitLog_isOk hcom hbuf
  refine ⟨_, esList, esHome, ?_, hcom, hr, rfl, hu.takeUp_redoes⟩
  rw [tspFsCheckTrans, bind_of_ok hs]
  dsimp only
  rw [checkFound, if_pos h.ring.newest.status, bind_of_ok (a := ()) (modify_ok.mpr rfl)]
  change (Outcome.modify _ >>= _) _ = _
  refine (bind_of_ok (a := ()) (modify_ok.mpr rfl)).trans ?_
  refine (bind_of_ok (failWith_ok.mpr (hu.load_takeUp hareas hdev hcnt _ hlist hn'))).trans ?_
  exact (bind_of_ok (a := ()) hrun).trans rfl

end Redo

end Vol

end SylixOS.TpsFs
