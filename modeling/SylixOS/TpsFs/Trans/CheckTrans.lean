import SylixOS.TpsFs.Trans.Log

/-! # The check of the log when a volume is mounted

The newest header is found by bisection of the header area. If its transaction is complete the
cursors are set behind it; if it is only committed its list of areas is loaded and it is committed
again.
-/

namespace SylixOS.TpsFs
open Lib Lib.Store Lib.Disk Lib.Outcome

/-- The cursor of the log on slot `index`. -/
def TransSb.seek (psb : SuperBlock) (t : TransSb) (index : ℕ) : TransSb :=
  { t with
    transCurSec := t.transSecStart + (index >>> (psb.secShift - tranShift))
    transSecOff :=
      (index &&& ((1 <<< (psb.secShift - tranShift)) - 1)) <<< tranShift }

/-- `__tpsFsGetTrans`: the header of a slot, read over `ptrans`. The cursor of the log stays on
the slot, and its sector in the buffer. -/
def tpsFsGetTrans (ptrans : Trans) (index : ℕ) : VolM Trans := do
  modify fun v => { v with ptranssb := v.ptranssb.seek v.psb index }
  let v ← get
  match v.readSectors v.ptranssb.transCurSec 1 with
  | none => pure { ptrans with iStatus := .uninit }
  | some buf => do
    modify fun v => { v with ptranssb := { v.ptranssb with secBuff := buf } }
    pure (tpsFsTransUnserial v.psb ptrans (buf.drop v.ptranssb.transSecOff))

/-- The loops over 16 neighbouring slots: the first one with a header, and its distance. -/
def findTrans (index : ℕ → ℕ) : List ℕ → Trans → VolM (Trans × Option ℕ)
  | [], t => pure (t, none)
  | i :: is, t => do
    let t ← tpsFsGetTrans t (index i)
    if t.iStatus ≠ .uninit then pure (t, some i) else findTrans index is t

/-- The variables of the search in `tspFsCheckTrans`. -/
structure Search where
  transStart : Trans
  transEnd : Trans
  transMid : Trans
  lIndex : ℕ
  hIndex : ℕ
  mIndex : ℕ

/-- The part of the loop for the low end: whether the search ends here. -/
def searchStart (s : Search) : VolM (Search × Bool) := do
  let t ← tpsFsGetTrans s.transStart s.lIndex
  if t.iStatus = .uninit then do
    match ← findTrans (fun i => s.lIndex + i) (List.range 16) t with
    | (t, some i) => pure ({ s with transStart := t, lIndex := s.lIndex + i }, false)
    | (t, none) => pure ({ s with transStart := t, mIndex := s.lIndex }, true)
  else pure ({ s with transStart := t }, false)

/-- A header and its place: the one at `index`, or the first one among the 16 slots from there
down. -/
def tpsFsGetTransBack (t : Trans) (index : ℕ) : VolM (Trans × ℕ) := do
  let t ← tpsFsGetTrans t index
  if t.iStatus = .uninit then do
    match ← findTrans (fun i => u64 (index + (2 ^ 64 - i))) (List.range 16) t with
    | (t, some i) => pure (t, u64 (index + (2 ^ 64 - i)))
    | (t, none) => pure (t, index)
  else pure (t, index)

/-- The part of the loop for the high end. -/
def searchEnd (s : Search) : VolM (Search × Bool) := do
  let (t, h) ← tpsFsGetTransBack s.transEnd s.hIndex
  let s := { s with transEnd := t, hIndex := h }
  if t.iStatus ≠ .uninit ∧ s.transStart.serialNum < t.serialNum then
    pure ({ s with mIndex := h }, true)
  else pure (s, false)

/-- The part of the loop for the middle. -/
def searchMid (s : Search) : VolM (Search × Bool) := do
  let (t, m) ← tpsFsGetTransBack s.transMid ((s.lIndex + s.hIndex) >>> 1)
  let s := { s with transMid := t, mIndex := m }
  if m = s.lIndex then pure (s, true)
  else if t.iStatus = .uninit then pure ({ s with hIndex := m }, false)
  else if t.serialNum < s.transStart.serialNum then pure ({ s with hIndex := m }, false)
  else pure ({ s with lIndex := m }, false)

/-- The body of the search loop. -/
def searchStep (s : Search) : VolM (Search × Bool) := do
  let (s, done) ← searchStart s
  if done then pure (s, true)
  else do
    let (s, done) ← searchEnd s
    if done then pure (s, true) else searchMid s

/-- The search loop, for at most `n` rounds. -/
def searchLoop : ℕ → Search → VolM (Option Search)
  | 0, _ => pure none
  | n + 1, s => do
    let (s, done) ← searchStep s
    if done then pure (some s) else searchLoop n s

/-- `__tpsFsLoadTransData`, for at most `n` rounds: the list of areas is loaded from its last
sector to its first. -/
def tpsFsLoadTransData : ℕ → VolM (Option Unit)
  | 0 => pure none
  | n + 1 => do
    let v ← get
    let buf ← Vol.devReadSector (v.ptrans.dataSecNum + v.ptrans.dataSecCnt - 1) 1
    let (i, t) := tpsFsTransSecAreaUnserial v.ptrans buf v.psb.secSize
    modify fun v => { v with ptrans := { t with dataSecCnt := u32 (t.dataSecCnt + (2 ^ 32 - 1)) } }
    if 0 < i then tpsFsLoadTransData n else pure (some ())

/-- The header at which the search has ended, and its slot. -/
def searchResult (s : Search) : VolM (Trans × ℕ) := do
  let t ← tpsFsGetTrans s.transMid s.mIndex
  if s.transEnd.iStatus ≠ .uninit ∧ t.serialNum < s.transEnd.serialNum then
    pure (s.transEnd, s.hIndex)
  else pure (t, s.mIndex)

/-- `tspFsCheckTrans` behind the search. -/
def checkFound (n : ℕ) (buf : List UInt8) (t : Trans) (mIndex : ℕ) : VolM (Option Unit) := do
  if t.iStatus ≠ .uninit then
    modify fun v =>
      { v with ptranssb := { v.ptranssb with serialNum := t.serialNum }.seek v.psb mIndex }
  else pure ()
  match t.iStatus with
  | .complete => do
    modify fun v =>
      { v with ptranssb := v.ptranssb.advance v.psb (t.dataSecNum + t.dataSecCnt) }
    pure (some ())
  | .commit => do
    modify fun v =>
      { v with ptrans :=
        { t with
          tdReserved0 := v.ptrans.tdReserved0
          tdReserved1 := v.ptrans.tdReserved1
          secAreaArr := v.ptrans.secAreaArr } }
    match ← failWith .readDev (tpsFsLoadTransData n) with
    | none => pure none
    | some () => do
      tpsFsTransCommitAndFree [] buf
      pure (some ())
  | _ => pure (some ())

/-- The search of `tspFsCheckTrans` for the newest header: the header and its slot, or `none` when
the loop has not ended after `n` rounds. The three headers on the stack hold what was there, `t₀`,
but for their status. -/
def searchNewest (n : ℕ) (t₀ : Trans) : VolM (Option (Trans × ℕ)) := do
  let v ← get
  let t := { t₀ with iStatus := .uninit }
  let hIndex := (v.ptranssb.transSecCnt <<< (v.psb.secShift - tranShift)) - 1
  match ← searchLoop n ⟨t, t, t, 0, hIndex, 0⟩ with
  | none => pure none
  | some s => do
    let r ← searchResult s
    pure (some r)

/-- `tspFsCheckTrans`: `none` when one of its loops has not ended after `n` rounds. The volume has
no block pool yet. -/
def tspFsCheckTrans (n : ℕ) (t₀ : Trans) (buf : List UInt8) : VolM (Option Unit) := do
  match ← searchNewest n t₀ with
  | none => pure none
  | some (t, m) => checkFound n buf t m

/-! ## Reading slots -/

theorem TransSb.seek_eq (psb : SuperBlock) (t : TransSb) (index : ℕ) : t.seek psb index =
    { t with
      transCurSec := t.transSecStart + index / slotsPerSec psb
      transSecOff := index % slotsPerSec psb * 64 } := by
  rw [seek, Nat.shiftRight_eq_div_pow, Nat.shiftLeft_eq, Nat.one_shiftLeft,
    Nat.and_two_pow_sub_one_eq_mod, slotsPerSec, Nat.one_shiftLeft]
  rfl

namespace Vol

/-- The volume after slot `i` was read. -/
def probe (v : Vol) (i : ℕ) : Vol :=
  { v with ptranssb :=
    { v.ptranssb.seek v.psb i with
      secBuff := sector v.psb.secSize v.dev.data
        ((tpsFsBtreeTransInit v.psb).transSecStart + i / slotsPerSec v.psb) } }

/-- The volume `w` differs from `v` at most in the cursor and the buffered sector of the log. -/
structure Scanned (v w : Vol) : Prop where
  probe : ∀ i, w.probe i = v.probe i
  psb : w.psb = v.psb
  dev : w.dev = v.dev
  start : w.ptranssb.transSecStart = v.ptranssb.transSecStart

theorem Scanned.refl (v : Vol) : Scanned v v := ⟨fun _ => rfl, rfl, rfl, rfl⟩

theorem scanned_probe (v : Vol) (i : ℕ) : Scanned v (v.probe i) := ⟨fun _ => rfl, rfl, rfl, rfl⟩

/-- From every volume that differs from `v` in the cursor only, `m` ends in such a volume and
gives a value with `Q`. -/
def Yields {α : Type} (v : Vol) (m : VolM α) (Q : α → Prop) : Prop :=
  ∀ w, Scanned v w → ∃ a w', m w = (.ok a, w') ∧ Scanned v w' ∧ Q a

theorem Yields.bind {α β : Type} {v : Vol} {m : VolM α} {f : α → VolM β} {Q : α → Prop}
    {R : β → Prop} (hm : v.Yields m Q) (hf : ∀ a, Q a → v.Yields (f a) R) :
    v.Yields (m >>= f) R := by
  intro w hw
  obtain ⟨a, w₁, h₁, hw₁, ha⟩ := hm w hw
  obtain ⟨b, w₂, h₂, hw₂, hb⟩ := hf a ha w₁ hw₁
  exact ⟨b, w₂, (bind_of_ok h₁).trans h₂, hw₂, hb⟩

theorem Yields.pure {α : Type} {v : Vol} {a : α} {Q : α → Prop} (h : Q a) :
    v.Yields (Pure.pure a) Q := fun w hw => ⟨a, w, rfl, hw, h⟩

theorem Yields.mono {α : Type} {v : Vol} {m : VolM α} {Q R : α → Prop} (hm : v.Yields m Q)
    (h : ∀ a, Q a → R a) : v.Yields m R := by
  intro w hw
  obtain ⟨a, w', h₁, hw', ha⟩ := hm w hw
  exact ⟨a, w', h₁, hw', h a ha⟩

/-- The header area of a volume that is being mounted, and that it can be read. -/
structure Mounting (v : Vol) (e : ℕ) (last : Trans) : Prop where
  geom : v.ptranssb = tpsFsBtreeTransInit v.psb
  onDev : (tpsFsBtreeTransInit v.psb).transSecStart + (tpsFsBtreeTransInit v.psb).transSecCnt ≤
    v.dev.sectorCnt
  slotCnt_pos : 0 < slotCnt v.psb
  slotCnt_lt : slotCnt v.psb < 2 ^ 63
  ring : Ring v.psb v.dev.data e last

variable {v : Vol} {e i : ℕ} {t last : Trans}

theorem slot_sec_lt {psb : SuperBlock} {i : ℕ} (hi : i < slotCnt psb) :
    i / slotsPerSec psb < (tpsFsBtreeTransInit psb).transSecCnt := by
  refine (Nat.div_lt_iff_lt_mul (slotsPerSec_pos psb)).mpr ?_
  rwa [← slotCnt_eq]

theorem Mounting.getTrans (h : v.Mounting e last) {w : Vol} (hw : Scanned v w) (t : Trans) {i : ℕ}
    (hi : i < slotCnt v.psb) : tpsFsGetTrans t i w =
      (.ok (tpsFsTransUnserial v.psb t (slotBuf v.psb v.dev.data i)), v.probe i) := by
  obtain ⟨hprobe, hpsb, hdev, hstart⟩ := hw
  have hlt := slot_sec_lt hi
  have hbound := h.onDev
  have hsec : (w.ptranssb.seek w.psb i).transCurSec =
      (tpsFsBtreeTransInit v.psb).transSecStart + i / slotsPerSec v.psb := by
    rw [TransSb.seek_eq, hpsb, ← h.geom, ← hstart]
  have hread : Vol.readSectors { w with ptranssb := w.ptranssb.seek w.psb i }
      (w.ptranssb.seek w.psb i).transCurSec 1 =
      some (sector v.psb.secSize v.dev.data
        ((tpsFsBtreeTransInit v.psb).transSecStart + i / slotsPerSec v.psb)) := by
    unfold Vol.readSectors
    rw [hsec, hpsb, hdev, if_pos (by omega), Nat.one_mul]
    rfl
  have hoff : (w.ptranssb.seek w.psb i).transSecOff = i % slotsPerSec v.psb * 64 := by
    rw [TransSb.seek_eq, hpsb]
  rw [tpsFsGetTrans, bind_of_ok (a := ()) (modify_ok.mpr rfl), bind_of_ok (get_ok.mpr ⟨rfl, rfl⟩)]
  dsimp only
  rw [hread]
  dsimp only
  rw [bind_of_ok (a := ()) (modify_ok.mpr rfl)]
  refine pure_ok.mpr ⟨?_, ?_⟩
  · rw [hoff, hpsb]
    rfl
  · rw [← hprobe, Vol.probe, hpsb, hdev]

/-! ## The search -/

/-- What the header in slot `i` says about its place in the ring. -/
def Seen (v : Vol) (e i : ℕ) (t : Trans) : Prop :=
  t.iStatus ≠ .uninit ∧
    if i ≤ e % slotCnt v.psb then t.serialNum = e - e % slotCnt v.psb + i
    else t.serialNum < e - e % slotCnt v.psb

theorem Seen.serial_le (h : v.Seen e i t) (hi : e % slotCnt v.psb ≤ i) : t.serialNum ≤ e := by
  have hle := Nat.mod_le e (slotCnt v.psb)
  have := h.2
  split_ifs at this <;> omega

/-- A slot up to that of the newest header has a header; one behind it need not. -/
theorem Mounting.getTrans_seen (h : v.Mounting e last) (t : Trans) {i : ℕ}
    (hi : i < slotCnt v.psb) : v.Yields (tpsFsGetTrans t i) fun t' =>
      v.Seen e i t' ∨ (t'.iStatus = .uninit ∧ e % slotCnt v.psb < i) := by
  intro w hw
  refine ⟨_, _, h.getTrans hw t hi, scanned_probe v i, ?_⟩
  rcases Nat.lt_trichotomy i (e % slotCnt v.psb) with hlt | rfl | hlt
  · obtain ⟨t', ht', hserial⟩ := h.ring.newer i hlt
    rw [ht'.unserial]
    exact .inl ⟨ht'.status, by rw [if_pos hlt.le]; exact hserial⟩
  · have hle := Nat.mod_le e (slotCnt v.psb)
    rw [h.ring.newest.unserial]
    refine .inl ⟨h.ring.newest.status, ?_⟩
    rw [if_pos le_rfl]
    change last.serialNum = _
    rw [h.ring.serial]
    omega
  · rcases h.ring.older i hlt hi with hv | ⟨t', ht', hserial⟩
    · exact .inr ⟨hv t, hlt⟩
    · rw [ht'.unserial]
      exact .inl ⟨ht'.status, by rw [if_neg (by omega)]; exact hserial⟩

theorem u64_back {H i : ℕ} (hi : i ≤ H) (hH : H < 2 ^ 63) : u64 (H + (2 ^ 64 - i)) = H - i := by
  unfold u64
  omega

theorem Mounting.findTrans_back (h : v.Mounting e last) {H : ℕ} (hH : H < slotCnt v.psb) (n : ℕ)
    {c : ℕ} {t : Trans} (ht : t.iStatus = .uninit) (hc : e % slotCnt v.psb + c ≤ H) :
    v.Yields (findTrans (fun i => u64 (H + (2 ^ 64 - i))) (List.range' c n) t) fun
      | (t', some i) => e % slotCnt v.psb + i ≤ H ∧ v.Seen e (H - i) t'
      | (t', none) => e % slotCnt v.psb + (c + n) ≤ H ∧ t'.iStatus = .uninit := by
  have hN := h.slotCnt_lt
  induction n generalizing c t with
  | zero => exact Yields.pure ⟨by omega, ht⟩
  | succ n ih =>
    rw [List.range'_succ, findTrans, u64_back (by omega) (by omega)]
    refine (h.getTrans_seen t (i := H - c) (by omega)).bind fun t' ht' => ?_
    by_cases hu : t'.iStatus = .uninit
    · rw [if_neg (by simpa using hu)]
      rcases ht' with ht' | ht'
      · exact absurd hu ht'.1
      · refine (ih hu (c := c + 1) (by omega)).mono ?_
        rintro ⟨t'', _ | i⟩ ⟨h₁, h₂⟩
        · exact ⟨by omega, h₂⟩
        · exact ⟨h₁, h₂⟩
    · rw [if_pos hu]
      refine Yields.pure ⟨hc, ?_⟩
      exact ht'.resolve_right fun h => hu h.1

/-- Looking back from slot `H`: the first header down to the newest one, unless the search gives
up before. -/
theorem Mounting.getTransBack (h : v.Mounting e last) (t : Trans) {H : ℕ}
    (hH : H < slotCnt v.psb) : v.Yields (tpsFsGetTransBack t H) fun r =>
      (r.2 ≤ H ∧ (r.2 = H ∨ e % slotCnt v.psb ≤ r.2) ∧ v.Seen e r.2 r.1) ∨
        (r.2 = H ∧ e % slotCnt v.psb < H ∧ r.1.iStatus = .uninit) := by
  have hN := h.slotCnt_lt
  refine (h.getTrans_seen t hH).bind fun t' ht' => ?_
  rcases ht' with ht' | ⟨hu, hlt⟩
  · rw [if_neg ht'.1]
    exact Yields.pure (.inl ⟨le_rfl, .inl rfl, ht'⟩)
  · rw [if_pos hu]
    refine (List.range_eq_range' ▸ h.findTrans_back hH 16 hu (c := 0) (by omega)).bind ?_
    rintro ⟨t'', _ | i⟩ ⟨h₁, h₂⟩
    · exact Yields.pure (.inr ⟨rfl, hlt, h₂⟩)
    · refine Yields.pure (.inl ?_)
      dsimp only
      rw [u64_back (by omega) (by omega)]
      exact ⟨by omega, .inr (by omega), h₂⟩

/-- The newest header lies between the ends of the search. -/
structure Between (v : Vol) (e : ℕ) (s : Search) : Prop where
  low : s.lIndex ≤ e % slotCnt v.psb
  high : e % slotCnt v.psb ≤ s.hIndex
  lt : s.hIndex < slotCnt v.psb

/-- The search has ended at the newest header. -/
structure Found (v : Vol) (e : ℕ) (s : Search) : Prop where
  mid : s.mIndex = e % slotCnt v.psb
  last : s.transEnd.iStatus = .uninit ∨ s.transEnd.serialNum ≤ e

theorem Mounting.searchStart (h : v.Mounting e last) {s : Search} (hs : v.Between e s) :
    v.Yields (searchStart s) fun r => r.2 = false ∧ v.Seen e s.lIndex r.1.transStart ∧
      r.1 = { s with transStart := r.1.transStart } := by
  have := hs.low
  have := hs.high
  have := hs.lt
  refine (h.getTrans_seen s.transStart (i := s.lIndex) (by omega)).bind fun t' ht' => ?_
  have ht' := ht'.resolve_right (by omega)
  rw [if_neg ht'.1]
  exact Yields.pure ⟨rfl, ht', rfl⟩

/-- After the high end was looked at: the search is over, or the high end has come closer. -/
theorem Mounting.searchEnd (h : v.Mounting e last) {s : Search} (hs : v.Between e s)
    (hstart : v.Seen e s.lIndex s.transStart) :
    v.Yields (searchEnd s) fun r => (r.2 = true ∧ v.Found e r.1) ∨
      (r.2 = false ∧ v.Between e r.1 ∧ r.1.lIndex = s.lIndex ∧ r.1.hIndex ≤ s.hIndex ∧
        r.1.transStart = s.transStart ∧
        (r.1.hIndex = e % slotCnt v.psb → s.lIndex = e % slotCnt v.psb) ∧
        (r.1.transEnd.iStatus = .uninit ∨ r.1.transEnd.serialNum ≤ e)) := by
  obtain ⟨hlow, hhigh, hlt⟩ := hs
  have hser := hstart.2
  rw [if_pos hlow] at hser
  have hle := Nat.mod_le e (slotCnt v.psb)
  refine (h.getTransBack s.transEnd hlt).bind ?_
  rintro ⟨t, m⟩ (⟨hm, hpm, hseen⟩ | ⟨rfl, hpm, hu⟩)
  · have hpm' : e % slotCnt v.psb ≤ m := by dsimp only at hpm; omega
    have hle' := hseen.serial_le hpm'
    dsimp only
    by_cases hc : t.iStatus ≠ .uninit ∧ s.transStart.serialNum < t.serialNum
    · rw [if_pos hc]
      refine Yields.pure (.inl ⟨rfl, ?_, .inr hle'⟩)
      by_contra hne
      have hs' := hseen.2
      dsimp only at hne hs'
      rw [if_neg (by omega)] at hs'
      omega
    · rw [if_neg hc]
      refine Yields.pure (.inr ⟨rfl, ⟨hlow, hpm', by dsimp only at hm ⊢; omega⟩, rfl, hm, rfl, ?_,
        .inr hle'⟩)
      intro heq
      have hs' := hseen.2
      dsimp only at heq hs'
      rw [if_pos (by omega)] at hs'
      have : ¬ s.transStart.serialNum < t.serialNum := fun h => hc ⟨hseen.1, h⟩
      omega
  · dsimp only at hu hpm ⊢
    rw [if_neg (fun hc => hc.1 hu)]
    refine Yields.pure (.inr ⟨rfl, ⟨hlow, hhigh, hlt⟩, rfl, le_rfl, rfl, ?_, .inl hu⟩)
    intro heq
    dsimp only at heq
    omega

theorem Mounting.searchMid (h : v.Mounting e last) {s : Search} (hs : v.Between e s)
    (hstart : v.Seen e s.lIndex s.transStart)
    (hend : s.hIndex = e % slotCnt v.psb → s.lIndex = e % slotCnt v.psb)
    (hlast : s.transEnd.iStatus = .uninit ∨ s.transEnd.serialNum ≤ e) :
    v.Yields (searchMid s) fun r => (r.2 = true ∧ v.Found e r.1) ∨
      (r.2 = false ∧ v.Between e r.1 ∧ r.1.hIndex - r.1.lIndex < s.hIndex - s.lIndex) := by
  obtain ⟨hlow, hhigh, hlt⟩ := hs
  have hser := hstart.2
  rw [if_pos hlow] at hser
  have hmid : (s.lIndex + s.hIndex) >>> 1 = (s.lIndex + s.hIndex) / 2 := Nat.shiftRight_one _
  refine (h.getTransBack s.transMid (H := (s.lIndex + s.hIndex) >>> 1) (by omega)).bind ?_
  rw [hmid]
  rintro ⟨t, m⟩ hr
  dsimp only at hr ⊢
  by_cases hm : m = s.lIndex
  · rw [if_pos hm]
    refine Yields.pure (.inl ⟨rfl, ?_, hlast⟩)
    dsimp only
    omega
  · rw [if_neg hm]
    by_cases hu : t.iStatus = .uninit
    · rw [if_pos hu]
      rcases hr with ⟨-, -, hseen⟩ | ⟨rfl, hlt', -⟩
      · exact absurd hu hseen.1
      · refine Yields.pure (.inr ⟨rfl, ⟨hlow, hlt'.le, by dsimp only; omega⟩, ?_⟩)
        dsimp only
        omega
    · rw [if_neg hu]
      obtain ⟨hmH, hpm, hseen⟩ := hr.resolve_right fun h => hu h.2.2
      have hs' := hseen.2
      by_cases hlt' : t.serialNum < s.transStart.serialNum
      · rw [if_pos hlt']
        have hpm' : e % slotCnt v.psb < m := by
          by_contra hge
          rw [if_pos (by omega)] at hs'
          omega
        refine Yields.pure (.inr ⟨rfl, ⟨hlow, hpm'.le, by dsimp only; omega⟩, ?_⟩)
        dsimp only
        omega
      · rw [if_neg hlt']
        have hpm' : m ≤ e % slotCnt v.psb := by
          by_contra hge
          rw [if_neg (by omega)] at hs'
          omega
        refine Yields.pure (.inr ⟨rfl, ⟨hpm', hhigh, hlt⟩, ?_⟩)
        dsimp only
        omega

/-- A round of the search ends at the newest header or brings the two ends closer. -/
theorem Mounting.searchStep (h : v.Mounting e last) {s : Search} (hs : v.Between e s) :
    v.Yields (searchStep s) fun r => (r.2 = true ∧ v.Found e r.1) ∨
      (r.2 = false ∧ v.Between e r.1 ∧ r.1.hIndex - r.1.lIndex < s.hIndex - s.lIndex) := by
  refine (h.searchStart hs).bind ?_
  rintro ⟨s₁, _⟩ ⟨rfl, hseen, hs₁⟩
  dsimp only at hseen hs₁ ⊢
  rw [if_neg (by decide)]
  have hb₁ : v.Between e s₁ := by
    rw [hs₁]
    exact ⟨hs.low, hs.high, hs.lt⟩
  have hl₁ : s₁.lIndex = s.lIndex := by rw [hs₁]
  have hh₁ : s₁.hIndex = s.hIndex := by rw [hs₁]
  refine (h.searchEnd hb₁ (by rw [hl₁]; exact hseen)).bind ?_
  rintro ⟨s₂, _⟩ (⟨rfl, hf⟩ | ⟨rfl, hb₂, hl₂, hh₂, ht₂, hend, hlast⟩)
  · exact Yields.pure (.inl ⟨rfl, hf⟩)
  · dsimp only at hb₂ hl₂ hh₂ ht₂ hend hlast ⊢
    rw [if_neg (by decide)]
    refine (h.searchMid hb₂ (by rw [hl₂, ht₂, hl₁]; exact hseen) (by rw [hl₂]; exact hend)
      hlast).mono fun r hr => ?_
    rcases hr with hr | ⟨h₁, h₂, h₃⟩
    · exact .inl hr
    · exact .inr ⟨h₁, h₂, by omega⟩

theorem Mounting.searchLoop (h : v.Mounting e last) {n : ℕ} {s : Search} (hs : v.Between e s)
    (hn : s.hIndex - s.lIndex < n) :
    v.Yields (searchLoop n s) fun r => ∃ s', r = some s' ∧ v.Found e s' := by
  induction n generalizing s with
  | zero => omega
  | succ n ih =>
    refine (h.searchStep hs).bind ?_
    rintro ⟨s', _⟩ (⟨rfl, hf⟩ | ⟨rfl, hb, hlt⟩)
    · exact Yields.pure ⟨s', rfl, hf⟩
    · exact ih hb (by dsimp only at hlt; omega)

/-- The search ends with the newest header, and the cursor and the buffer are on its slot. -/
theorem Mounting.searchResult (h : v.Mounting e last) {s : Search} (hs : v.Found e s) {w : Vol}
    (hw : Scanned v w) : TpsFs.searchResult s w =
      (.ok ({ last with
        tdReserved0 := s.transMid.tdReserved0
        tdReserved1 := s.transMid.tdReserved1
        secAreaArr := s.transMid.secAreaArr }, e % slotCnt v.psb),
        v.probe (e % slotCnt v.psb)) := by
  have hget := h.getTrans hw s.transMid (Nat.mod_lt e h.slotCnt_pos)
  rw [h.ring.newest.unserial] at hget
  rw [TpsFs.searchResult, hs.mid, bind_of_ok hget, if_neg]
  · rfl
  · rintro ⟨h₁, h₂⟩
    have := hs.last.resolve_left h₁
    change last.serialNum < _ at h₂
    rw [h.ring.serial] at h₂
    omega

/-- The search finds the newest header within as many rounds as there are slots. -/
theorem Mounting.searchNewest (h : v.Mounting e last) {n : ℕ} (hn : slotCnt v.psb ≤ n)
    (t₀ : Trans) : ∃ r₀ r₁ areas, TpsFs.searchNewest n t₀ v =
      (.ok (some ({ last with tdReserved0 := r₀, tdReserved1 := r₁, secAreaArr := areas },
        e % slotCnt v.psb)), v.probe (e % slotCnt v.psb)) := by
  have hpos := h.slotCnt_pos
  have hmod := Nat.mod_lt e hpos
  have hcnt : v.ptranssb.transSecCnt <<< (v.psb.secShift - tranShift) = slotCnt v.psb := by
    rw [h.geom]
    rfl
  obtain ⟨_, w, hloop, hw, s, rfl, hfound⟩ := h.searchLoop (n := n)
    (s := ⟨{ t₀ with iStatus := .uninit }, { t₀ with iStatus := .uninit },
      { t₀ with iStatus := .uninit }, 0, slotCnt v.psb - 1, 0⟩)
    ⟨Nat.zero_le _, by dsimp only; omega, by dsimp only; omega⟩ (by dsimp only; omega) v
    (Scanned.refl v)
  refine ⟨s.transMid.tdReserved0, s.transMid.tdReserved1, s.transMid.secAreaArr, ?_⟩
  rw [TpsFs.searchNewest, bind_of_ok (get_ok.mpr ⟨rfl, rfl⟩), hcnt, bind_of_ok hloop]
  dsimp only
  rw [bind_of_ok (h.searchResult hfound hw)]
  rfl

end Vol

/-- When the newest transaction is complete, the cursors are set behind it. -/
theorem Vol.Mounting.checkTrans_complete {v : Vol} {e n : ℕ} {last : Trans}
    (h : v.Mounting e last) (hst : last.iStatus = .complete) (hn : slotCnt v.psb ≤ n) (t₀ : Trans)
    (buf : List UInt8) :
    tspFsCheckTrans n t₀ buf v =
      (.ok (some ()), { v.probe (e % slotCnt v.psb) with
        ptranssb := TransSb.advance v.psb
          ({ (v.probe (e % slotCnt v.psb)).ptranssb with serialNum := e }.seek v.psb
            (e % slotCnt v.psb)) (last.dataSecNum + last.dataSecCnt) }) := by
  obtain ⟨a, b, areas, hs⟩ := h.searchNewest hn t₀
  rw [tspFsCheckTrans, bind_of_ok hs]
  dsimp only
  rw [checkFound, if_pos h.ring.newest.status, bind_of_ok (a := ()) (modify_ok.mpr rfl)]
  dsimp only
  rw [hst]
  dsimp only
  rw [bind_of_ok (a := ()) (modify_ok.mpr rfl), h.ring.serial]
  rfl

/-! ## After complete transactions -/

/-- No slot has a header with a greater serial number than the newest one. -/
theorem Ring.greatest {psb : SuperBlock} {f : ℕ → UInt8} {e : ℕ} {last : Trans}
    (h : Ring psb f e last) {i : ℕ} (hi : i < slotCnt psb) {t t' : Trans}
    (ht' : tpsFsTransUnserial psb t (slotBuf psb f i) = t') (hst : t'.iStatus ≠ .uninit) :
    t'.serialNum ≤ last.serialNum := by
  have hle := Nat.mod_le e (slotCnt psb)
  subst ht'
  rw [h.serial]
  rcases Nat.lt_trichotomy i (e % slotCnt psb) with hlt | rfl | hlt
  · obtain ⟨t', ht', hserial⟩ := h.newer i hlt
    rw [ht'.unserial]
    change t'.serialNum ≤ e
    omega
  · rw [h.newest.unserial]
    exact h.serial.le
  · rcases h.older i hlt hi with hv | ⟨t', ht', hserial⟩
    · exact absurd (hv t) hst
    · rw [ht'.unserial]
      change t'.serialNum ≤ e
      omega

namespace Vol

theorem slotCnt_lt_of {psb : SuperBlock} (h : (tpsFsBtreeTransInit psb).transSecCnt < 2 ^ 31) :
    slotCnt psb < 2 ^ 63 := by
  rw [slotCnt_eq]
  have hper : slotsPerSec psb ≤ 2 ^ 31 := by
    rw [slotsPerSec, Nat.one_shiftLeft]
    have h₁ := psb.secShift_le
    have h₂ := psb.blkShift_lt
    exact Nat.pow_le_pow_right (by decide) (by omega)
  calc (tpsFsBtreeTransInit psb).transSecCnt * slotsPerSec psb ≤ 2 ^ 31 * 2 ^ 31 :=
        Nat.mul_le_mul h.le hper
    _ < 2 ^ 63 := by decide

/-- The header area takes less of the log than the data. -/
theorem transSecCnt_le (psb : SuperBlock) :
    (tpsFsBtreeTransInit psb).transSecCnt ≤ (tpsFsBtreeTransInit psb).transDataCnt := by
  have hcnt : (tpsFsBtreeTransInit psb).transSecCnt = psb.logBlkCnt / 128 :=
    Nat.shiftRight_eq_div_pow _ 7
  have hlog : psb.logBlkCnt ≤ (psb.logBlkCnt <<< psb.blkShift) >>> psb.secShift := by
    rw [psb.shiftLeft_blk, psb.shiftRight_sec, psb.blkSize_eq, ← Nat.mul_assoc,
      Nat.mul_div_cancel _ psb.secSize_pos]
    exact Nat.le_mul_of_pos_right _ (Nat.two_pow_pos _)
  have hdata : (tpsFsBtreeTransInit psb).transDataCnt =
      ((psb.logBlkCnt <<< psb.blkShift) >>> psb.secShift) -
        (tpsFsBtreeTransInit psb).transSecCnt := rfl
  omega

variable {v : Vol}

/-- Mounting a device on which transactions have been committed. -/
theorem LogOk.mounting (h : v.LogOk) {dev : Dev} (hcnt : dev.sectorCnt = v.dev.sectorCnt) {e : ℕ}
    {last : Trans} (hring : Ring v.psb dev.data e last) (r₀ r₁ : ℕ) (pbp : BlkPool) :
    (Vol.mount v.psb dev r₀ r₁ pbp).Mounting e last := by
  have h₁ := h.onDev
  have h₂ := h.dataCnt_lt
  have h₃ := transSecCnt_le v.psb
  have h₄ := transDataStart_eq v.psb
  have hdev : (tpsFsBtreeTransInit v.psb).transSecStart + (tpsFsBtreeTransInit v.psb).transSecCnt ≤
    dev.sectorCnt := by omega
  exact ⟨rfl, hdev, h.slotCnt_pos, slotCnt_lt_of (h₃.trans_lt h₂), hring⟩

/-- The cursor behind the newest header, when its transaction is complete. -/
theorem LogOk.advance_probe (h : v.LogOk) {e : ℕ} {last : Trans}
    (hk : v.ptranssb.serialNum = e + 1) (hk64 : v.ptranssb.serialNum < 2 ^ 64)
    (hdata : v.ptranssb.dataCurSec = nextDataSec v.psb (last.dataSecNum + last.dataSecCnt))
    (hbuff : v.ptranssb.serialNum % slotCnt v.psb % slotsPerSec v.psb = 0 →
      v.ptranssb.secBuff = List.replicate v.psb.secSize 0) (r₀ r₁ : ℕ) (pbp : BlkPool) :
    TransSb.advance v.psb
      ({ ((Vol.mount v.psb v.dev r₀ r₁ pbp).probe (e % slotCnt v.psb)).ptranssb with
        serialNum := e }.seek v.psb (e % slotCnt v.psb))
      (last.dataSecNum + last.dataSecCnt) = v.ptranssb := by
  have hN := h.slotCnt_pos
  have hper := slotsPerSec_pos v.psb
  have hadv := TransSb.advance_eq (k := e)
      { tpsFsBtreeTransInit v.psb with
        transCurSec := (tpsFsBtreeTransInit v.psb).transSecStart +
          e % slotCnt v.psb / slotsPerSec v.psb
        transSecOff := e % slotCnt v.psb % slotsPerSec v.psb * 64
        secBuff := sector v.psb.secSize v.dev.data ((tpsFsBtreeTransInit v.psb).transSecStart +
          e % slotCnt v.psb / slotsPerSec v.psb)
        serialNum := e }
    (last.dataSecNum + last.dataSecCnt) h.secCnt_pos rfl rfl rfl rfl rfl rfl rfl (by omega)
  rw [TransSb.seek_eq]
  refine hadv.trans ?_
  rw [h.geom, TransSb.mk.injEq]
  refine ⟨rfl, rfl, rfl, rfl, ?_, ?_, ?_, hdata.symm, hk.symm⟩
  · rw [h.curSec, hk]
  · rw [h.secOff, hk]
  · have hstep := slot_succ (c := (tpsFsBtreeTransInit v.psb).transSecCnt) hper
      (q := e % slotCnt v.psb) (by rw [← slotCnt_eq]; exact Nat.mod_lt _ hN)
    rw [← slotCnt_eq, ← mod_succ hN] at hstep
    rw [← hk]
    split_ifs with hz
    · exact (hbuff hz).symm
    · rw [h.buffSame hz, h.curSec]
      by_cases hfull : e % slotCnt v.psb % slotsPerSec v.psb + 1 = slotsPerSec v.psb
      · rw [if_pos hfull, ← hk] at hstep
        exact absurd hstep.2 hz
      · rw [if_neg hfull, ← hk] at hstep
        rw [hstep.1]

end Vol

/-- When a device is mounted after any run in which something was committed, the search of the
check finds the header with the greatest serial number, and the check leaves the log in memory as
it was at the end of the run. -/
theorem tspFsCheckTrans_after_logRun {psb : SuperBlock} {dev : Dev} {r₀ r₁ k n : ℕ}
    {pbp : BlkPool} {v : Vol} (hfmt : Formatted psb dev)
    (hrun : LogRun (Vol.mount psb dev r₀ r₁ pbp) k v) (hk : k < 2 ^ 64)
    (hsome : 0 < v.ptranssb.serialNum) (hn : slotCnt psb ≤ n) (r₀' r₁' : ℕ) (pbp' : BlkPool)
    (t₀ : Trans) (buf : List UInt8) :
    ∃ w t i w',
      searchNewest n t₀ (Vol.mount psb v.dev r₀' r₁' pbp') = (.ok (some (t, i)), w) ∧
      i < slotCnt psb ∧
      tpsFsTransUnserial psb t (slotBuf psb v.dev.data i) = t ∧ t.iStatus ≠ .uninit ∧
      (∀ j < slotCnt psb, ∀ t',
        (tpsFsTransUnserial psb t' (slotBuf psb v.dev.data j)).iStatus ≠ .uninit →
        (tpsFsTransUnserial psb t' (slotBuf psb v.dev.data j)).serialNum ≤ t.serialNum) ∧
      tspFsCheckTrans n t₀ buf (Vol.mount psb v.dev r₀' r₁' pbp') = (.ok (some ()), w') ∧
      w'.ptranssb = v.ptranssb ∧ w'.dev = v.dev := by
  obtain ⟨hlog, hser, hpsb⟩ := LogRun.logOk (hfmt.logOk r₀ r₁ pbp) rfl hrun hk
  obtain rfl : v.psb = psb := hpsb
  rcases hlog.ring with ⟨hz, -⟩ | ⟨e, last, he, hring, hst, hdata, hbuff⟩
  · omega
  · have hm := hlog.mounting rfl hring r₀' r₁' pbp'
    obtain ⟨a, b, areas, hs⟩ := hm.searchNewest hn t₀
    exact ⟨_, _, _, _, hs, Nat.mod_lt _ hlog.slotCnt_pos, hring.newest.unserial _,
      hring.newest.status, fun j hj t' hst' => hring.greatest hj rfl hst',
      hm.checkTrans_complete hst hn t₀ buf,
      hlog.advance_probe he (by omega) hdata hbuff r₀' r₁' pbp', rfl⟩

theorem tspFsCheckTrans_after_oneByte : ∃ v w',
    LogRun (Vol.mount smallVol.psb smallVol.dev 0 0 ⟨3, 0, []⟩) 1 v ∧
    tspFsCheckTrans 16 (newTrans smallVol.psb 0 0) [] (Vol.mount smallVol.psb v.dev 0 0 ⟨3, 0, []⟩) =
      (.ok (some ()), w') ∧ w'.ptranssb = v.ptranssb := by
  obtain ⟨v, hrun, hser⟩ := smallVol_run
  obtain ⟨w, t, i, w', -, -, -, -, -, hcheck, hsb, -⟩ := tspFsCheckTrans_after_logRun
    smallVol_formatted hrun (by decide) (by omega) (n := 16) (by decide) 0 0 ⟨3, 0, []⟩
    (newTrans smallVol.psb 0 0) []
  exact ⟨v, w', hrun, hcheck, hsb⟩

end SylixOS.TpsFs
