import Mathlib
import SylixOS.Lib.Outcome
import SylixOS.Lib.Reach
import SylixOS.Lib.Store

/-! # The RAID-0 array

`API_DiskRiad0Create` makes one block device of two or four equal disks, and `__raid0DevWrt` and
`__raid0DevRd` cut a request for it into requests for its members. An array is right when a sector
read holds what was last written to it; that asks of the cutting that it follows one injective map
from the array's sectors to the members'. The code's cutting follows one only when a stripe is a
single sector: a request that starts inside a stripe is sent to `start >> DISKR_uiDiskShift`, the
place of another sector of the same stripe.
-/

namespace SylixOS.Disk
open Lib Store Function

/-! ## Creation -/

/-- The ioctls that ask a driver for what its `LW_BLK_DEV` leaves open. -/
inductive BlkCmd where
  | getSecNum
  | getSecSize
  | getBlkSize
  deriving DecidableEq, Repr

/-- A block device as RAID-0 sees it at creation, with words of `w` bits. -/
structure BlkDev (w : ℕ) where
  ulNSector : BitVec w
  ulBytesPerSector : BitVec w
  ulBytesPerBlock : BitVec w
  pfuncBlkIoctl : Option (BlkCmd → Option (BitVec w))

variable {w : ℕ}

/-- A field of the control block, or the driver's answer where the field is zero. -/
def BlkDev.field (blkd : BlkDev w) (v : BitVec w) (cmd : BlkCmd) : Option (BitVec w) :=
  if v ≠ 0 then some v else blkd.pfuncBlkIoctl.bind (· cmd)

def diskRaidBytesPerSector (blkd : BlkDev w) : Option (BitVec w) :=
  blkd.field blkd.ulBytesPerSector .getSecSize

def diskRaidBytesPerBlock (blkd : BlkDev w) : Option (BitVec w) :=
  blkd.field blkd.ulBytesPerBlock .getBlkSize

def diskRaidTotalSector (blkd : BlkDev w) : Option (BitVec w) :=
  blkd.field blkd.ulNSector .getSecNum

/-- `__diskRaidCheck`: bytes of a sector, bytes of a block and sectors of the first member, when
all others have as many bytes and sectors. -/
def diskRaidCheck : List (BlkDev w) → Option (BitVec w × BitVec w × BitVec w)
  | [] => none
  | blkd :: rest => do
    let ulBytes0 ← diskRaidBytesPerSector blkd
    let ulTotal0 ← diskRaidTotalSector blkd
    let ulBlkSize ← diskRaidBytesPerBlock blkd
    if rest.all fun d =>
        diskRaidBytesPerSector d == some ulBytes0 && diskRaidTotalSector d == some ulTotal0 then
      some (ulBytes0, ulBlkSize, ulTotal0)
    else none

inductive RaidError where
  | einval
  | lowMemory
  | notSup
  deriving DecidableEq, Repr

/-- `LW_DISKRAID0_CB`. -/
structure Raid0 (w : ℕ) where
  ppblkdDisk : List (BlkDev w)
  uiNDisks : ℕ
  uiDiskShift : ℕ
  uiDiskMask : ℕ
  uiStripeShift : ℕ
  uiStripeMask : ℕ
  ulNSector : ℕ
  ulBytesPerSector : ℕ
  ulBytesPerBlock : ℕ

/-- The first of 16 shifts that takes the bytes of a sector to those of a stripe. -/
def stripeShift (stStripe ulBytesPerSector : BitVec w) : Option ℕ :=
  (List.range 16).find? fun i => stStripe = ulBytesPerSector <<< i

/-- `API_DiskRiad0Create`; `mem` says whether the heap has the memory, `out` whether there is a
place for the result. -/
def diskRiad0Create (mem : Bool) (pblkd : Option (ℕ → Option (BlkDev w))) (uiNDisks : ℕ)
    (stStripe : BitVec w) (out : Bool) : Except RaidError (Raid0 w) :=
  match pblkd with
  | none => .error .einval
  | some pblkd =>
    if !out || (uiNDisks ≠ 2 && uiNDisks ≠ 4) || stStripe.toNat < 32 * 1024 ||
        stStripe &&& (stStripe - 1) ≠ 0 then .error .einval
    else if !mem then .error .lowMemory
    else match (List.range uiNDisks).mapM pblkd with
      | none => .error .lowMemory
      | some disks => match diskRaidCheck disks with
        | none => .error .notSup
        | some (ulBytesPerSector, ulBytesPerBlock, ulTotalSector) =>
          match stripeShift stStripe ulBytesPerSector with
          | none => .error .notSup
          | some i => .ok {
              ppblkdDisk := disks
              uiNDisks := uiNDisks
              uiDiskShift := if uiNDisks = 2 then 1 else 2
              uiDiskMask := if uiNDisks = 2 then 1 else 3
              uiStripeShift := i
              uiStripeMask := (1 <<< i) - 1
              ulNSector := (ulTotalSector * BitVec.ofNat w uiNDisks).toNat
              ulBytesPerSector := ulBytesPerSector.toNat
              ulBytesPerBlock := ulBytesPerBlock.toNat }

/-- The sectors of a member. -/
def Raid0.size (r : Raid0 w) (uiDisk : ℕ) : ℕ :=
  (((r.ppblkdDisk[uiDisk]?).bind diskRaidTotalSector).getD 0).toNat

/-! ## Requests -/

/-- The contents of the members, by disk and sector; a sector's contents are an `α`. -/
abbrev Disks (α : Type) := ℕ → ℕ → α

/-- A request for one member: where it starts on the array, its length, and where it goes. -/
structure SubReq where
  first : ℕ
  count : ℕ
  uiDisk : ℕ
  ulSector : ℕ
  deriving DecidableEq, Repr

/-- The length of the next request when `left` sectors are left to do from sector `start` on. -/
def Raid0.stripeCount (r : Raid0 w) (start left : ℕ) : ℕ :=
  if start &&& r.uiStripeMask ≠ 0 then
    if start &&& r.uiStripeMask ≥ left then left else start &&& r.uiStripeMask
  else if left ≥ 1 <<< r.uiStripeShift then 1 <<< r.uiStripeShift else left

theorem Raid0.stripeCount_pos (r : Raid0 w) (start : ℕ) {left : ℕ} (h : left ≠ 0) :
    0 < r.stripeCount start left := by
  have hpos : 0 < 1 <<< r.uiStripeShift := by
    rw [Nat.one_shiftLeft]
    exact Nat.two_pow_pos _
  unfold Raid0.stripeCount
  split_ifs <;> omega

/-- The requests that the loop of `__raid0DevWrt` and of `__raid0DevRd` makes. -/
def Raid0.subRequests (r : Raid0 w) (start left : ℕ) : List SubReq :=
  if left = 0 then []
  else
    { first := start
      count := r.stripeCount start left
      uiDisk := (start >>> r.uiStripeShift) &&& r.uiDiskMask
      ulSector := start >>> r.uiDiskShift } ::
    r.subRequests (start + r.stripeCount start left) (left - r.stripeCount start left)
termination_by left
decreasing_by
  have := r.stripeCount_pos start ‹_›
  omega

section Devices

variable {α : Type}

/-- A member takes a write that lies inside it. -/
def blkWrite (r : Raid0 w) (uiDisk ulSector : ℕ) (buf : List α) : Outcome Unit (Disks α) Unit :=
  fun m =>
    if ulSector + buf.length ≤ r.size uiDisk then
      (.ok (), update m uiDisk (overlay (m uiDisk) ulSector buf))
    else (.error (), m)

/-- A member gives the sectors of a read that lies inside it. -/
def blkRead (r : Raid0 w) (uiDisk ulSector ulCount : ℕ) : Outcome Unit (Disks α) (List α) :=
  fun m =>
    if ulSector + ulCount ≤ r.size uiDisk then (.ok (slice (m uiDisk) ulSector ulCount), m)
    else (.error (), m)

def writeAll (r : Raid0 w) : List SubReq → List α → Outcome Unit (Disks α) Unit
  | [], _ => pure ()
  | q :: qs, buf => do
    blkWrite r q.uiDisk q.ulSector (buf.take q.count)
    writeAll r qs (buf.drop q.count)

def readAll (r : Raid0 w) : List SubReq → Outcome Unit (Disks α) (List α)
  | [] => pure []
  | q :: qs => do
    let part ← blkRead r q.uiDisk q.ulSector q.count
    let rest ← readAll r qs
    pure (part ++ rest)

/-- `__raid0DevWrt` with a buffer of whole sectors. -/
def raid0DevWrt (r : Raid0 w) (start : ℕ) (buf : List α) : Outcome Unit (Disks α) Unit :=
  writeAll r (r.subRequests start buf.length) buf

/-- `__raid0DevRd`. -/
def raid0DevRd (r : Raid0 w) (start count : ℕ) : Outcome Unit (Disks α) (List α) :=
  readAll r (r.subRequests start count)

/-- A request for the array. -/
inductive Req (α : Type) where
  | write (start : ℕ) (buf : List α)
  | read (start count : ℕ)

/-- The request lies inside the exported capacity. -/
def Req.Inside (cap : ℕ) : Req α → Prop
  | .write start buf => start + buf.length ≤ cap
  | .read start count => start + count ≤ cap

/-- The members after a request, when it succeeds. -/
def exec (r : Raid0 w) (m : Disks α) : Req α → Option (Disks α)
  | .write start buf => match raid0DevWrt r start buf m with
    | (.ok _, m') => some m'
    | (.error _, _) => none
  | .read start count => match raid0DevRd r start count m with
    | (.ok _, m') => some m'
    | (.error _, _) => none

/-- What was last written to each sector. -/
def record (last : ℕ → Option α) : Req α → ℕ → Option α
  | .write start buf => overlay last start (buf.map some)
  | .read _ _ => last

def lastWritten (reqs : List (Req α)) : ℕ → Option α := reqs.foldl record fun _ => none

end Devices

/-! ## What an array is for -/

/-- After any requests inside the capacity, which all succeed, a read of any sectors of it succeeds
and gives what was last written to each. -/
def ReadsBack (α : Type) (r : Raid0 w) : Prop :=
  ∀ (m : Disks α) (reqs : List (Req α)), (∀ q ∈ reqs, q.Inside r.ulNSector) →
    ∃ m', runs (exec r) m reqs = some m' ∧
      ∀ start count, start + count ≤ r.ulNSector →
        ∃ buf, raid0DevRd r start count m' = (.ok buf, m') ∧ buf.length = count ∧
          ∀ i < count, ∀ x, lastWritten reqs (start + i) = some x → buf[i]? = some x

/-- Every part of every request goes where one map from the array's sectors to the members' says,
which is injective on the capacity and stays inside the members, and lies in one stripe. -/
def Striped (r : Raid0 w) : Prop :=
  ∃ f : ℕ → ℕ × ℕ, Set.InjOn f {k | k < r.ulNSector} ∧
    (∀ k < r.ulNSector, (f k).1 < r.uiNDisks ∧ (f k).2 < r.size (f k).1) ∧
    ∀ start count, start + count ≤ r.ulNSector →
      (∀ k, start ≤ k → k < start + count → ∃ q ∈ r.subRequests start count,
        q.first ≤ k ∧ k < q.first + q.count) ∧
      ∀ q ∈ r.subRequests start count, ∀ i < q.count,
        f (q.first + i) = (q.uiDisk, q.ulSector + i) ∧
          (q.first + i) / 2 ^ r.uiStripeShift = q.first / 2 ^ r.uiStripeShift

/-! ## What creation makes -/

/-- What `API_DiskRiad0Create` has settled: members of `T` sectors each. -/
structure Made (r : Raid0 w) (T : ℕ) : Prop where
  nDisks : r.uiNDisks = 2 ^ r.uiDiskShift
  diskShift : 1 ≤ r.uiDiskShift
  diskMask : r.uiDiskMask = 2 ^ r.uiDiskShift - 1
  stripeMask : r.uiStripeMask = 2 ^ r.uiStripeShift - 1
  size : ∀ d < r.uiNDisks, r.size d = T
  capacity : r.ulNSector ≤ T * r.uiNDisks
  even : 2 ∣ r.ulNSector
  bytes : 0 < r.ulBytesPerSector

theorem diskRaidCheck_total {disks : List (BlkDev w)} {b k t : BitVec w}
    (h : diskRaidCheck disks = some (b, k, t)) : ∀ d ∈ disks, diskRaidTotalSector d = some t := by
  cases disks with
  | nil => cases h
  | cons blkd rest =>
    simp only [diskRaidCheck, Option.bind_eq_bind, Option.bind_eq_some_iff,
      Option.ite_none_right_eq_some, Option.some.injEq, Prod.mk.injEq] at h
    obtain ⟨b₀, _, t₀, ht₀, _, _, hall, rfl, rfl, rfl⟩ := h
    intro d hd
    rcases List.mem_cons.mp hd with rfl | hd
    · exact ht₀
    · have := List.all_eq_true.mp hall d hd
      simp only [Bool.and_eq_true, beq_iff_eq] at this
      exact this.2

/-- The product of the capacity wraps to an even number of sectors, or to none. -/
theorem even_capacity (t : BitVec w) {n : ℕ} (hn : 2 ∣ n) : 2 ∣ (t * BitVec.ofNat w n).toNat := by
  rw [BitVec.toNat_mul, BitVec.toNat_ofNat, Nat.mul_mod_mod]
  rcases Nat.eq_zero_or_pos w with rfl | hw
  · simp [Nat.mod_one]
  · have h2 : 2 ^ 1 ∣ 2 ^ w := Nat.pow_dvd_pow 2 hw
    exact (Nat.dvd_mod_iff h2).mpr (Nat.dvd_mul_left_of_dvd hn _)

theorem mapM_length {α β : Type} {f : α → Option β} {l : List α} {l' : List β}
    (h : l.mapM f = some l') : l'.length = l.length := by
  induction l generalizing l' with
  | nil =>
    cases h
    rfl
  | cons a l ih =>
    simp only [List.mapM_cons, Option.bind_eq_bind, Option.bind_eq_some_iff] at h
    obtain ⟨_, _, l₁, hl, h⟩ := h
    cases h
    simp [ih hl]

theorem shift_zero {stStripe b : BitVec w} {i : ℕ} (h : stripeShift stStripe b = some i) :
    i = 0 ↔ stStripe.toNat = b.toNat := by
  rw [BitVec.toNat_inj]
  unfold stripeShift at h
  constructor
  · rintro rfl
    simpa using List.find?_some h
  · rintro rfl
    have h0 : (List.range 16).find? (fun i => stStripe = stStripe <<< i) = some 0 := by
      simp [List.range_succ_eq_map]
    rw [h0] at h
    exact (Option.some.inj h).symm

theorem made {out : Bool} {pblkd : ℕ → Option (BlkDev w)} {uiNDisks : ℕ} {stStripe b k t : BitVec w}
    {disks : List (BlkDev w)} {i : ℕ}
    (hargs : ¬ (!out || (uiNDisks ≠ 2 && uiNDisks ≠ 4) || stStripe.toNat < 32 * 1024 ||
      stStripe &&& (stStripe - 1) ≠ 0) = true)
    (hdisks : (List.range uiNDisks).mapM pblkd = some disks)
    (hcheck : diskRaidCheck disks = some (b, k, t)) (hi : stripeShift stStripe b = some i) :
    Made (Raid0.mk disks uiNDisks (if uiNDisks = 2 then 1 else 2) (if uiNDisks = 2 then 1 else 3) i
      ((1 <<< i) - 1) (t * BitVec.ofNat w uiNDisks).toNat b.toNat k.toNat) t.toNat := by
  simp only [Bool.or_eq_true, Bool.and_eq_true, decide_eq_true_eq, not_or, not_and, not_not,
    Bool.not_eq_true] at hargs
  obtain ⟨⟨⟨-, hn⟩, hs⟩, -⟩ := hargs
  have hn : uiNDisks = 2 ∨ uiNDisks = 4 := by
    by_cases h2 : uiNDisks = 2
    · exact .inl h2
    · exact .inr (hn h2)
  have hlen : disks.length = uiNDisks := by
    rw [mapM_length hdisks, List.length_range]
  constructor
  · rcases hn with rfl | rfl <;> rfl
  · dsimp only
    split_ifs <;> omega
  · rcases hn with rfl | rfl <;> rfl
  · exact congrArg (· - 1) (Nat.one_shiftLeft i)
  · intro d hd
    dsimp only at hd
    have hd : d < disks.length := by omega
    simp only [Raid0.size, List.getElem?_eq_getElem hd, Option.bind_some,
      diskRaidCheck_total hcheck _ (List.getElem_mem hd), Option.getD_some]
  · dsimp only
    rw [BitVec.toNat_mul, BitVec.toNat_ofNat, Nat.mul_mod_mod]
    exact Nat.mod_le _ _
  · refine even_capacity t ?_
    rcases hn with rfl | rfl <;> decide
  · by_contra hb
    have hb : b = 0 := BitVec.eq_of_toNat_eq (by simpa using hb)
    have := List.find?_some hi
    simp [hb] at this
    simp [this] at hs

theorem create_ok {mem out : Bool} {pblkd : Option (ℕ → Option (BlkDev w))} {uiNDisks : ℕ}
    {stStripe : BitVec w} {r : Raid0 w}
    (h : diskRiad0Create mem pblkd uiNDisks stStripe out = .ok r) :
    ∃ T, Made r T ∧ (r.uiStripeShift = 0 ↔ stStripe.toNat = r.ulBytesPerSector) := by
  cases pblkd with
  | none => cases h
  | some pblkd =>
    simp only [diskRiad0Create] at h
    split at h
    · cases h
    · rename_i hargs
      split at h
      · cases h
      · split at h
        · cases h
        · rename_i disks hdisks
          split at h
          · cases h
          · rename_i b k t hcheck
            split at h
            · cases h
            · rename_i i hi
              cases h
              exact ⟨t.toNat, made hargs hdisks hcheck hi, shift_zero hi⟩

/-! ## Stripes of one sector -/

section OneSector

variable {r : Raid0 w} {T : ℕ} {α : Type}

theorem Made.disk_lt (hr : Made r T) (k : ℕ) : k % r.uiNDisks < r.uiNDisks := by
  refine Nat.mod_lt _ ?_
  rw [hr.nDisks]
  exact Nat.two_pow_pos _

theorem Made.sector_lt (hr : Made r T) {k : ℕ} (hk : k < r.ulNSector) : k / r.uiNDisks < T :=
  Nat.div_lt_of_lt_mul (by rw [Nat.mul_comm]; exact hk.trans_le hr.capacity)

/-- Each sector is a request of its own. -/
theorem subRequests_succ (hr : Made r T) (h0 : r.uiStripeShift = 0) (start left : ℕ) :
    r.subRequests start (left + 1) =
      ⟨start, 1, start % r.uiNDisks, start / r.uiNDisks⟩ :: r.subRequests (start + 1) left := by
  have hcount : r.stripeCount start (left + 1) = 1 := by
    simp [Raid0.stripeCount, hr.stripeMask, h0]
  rw [Raid0.subRequests, if_neg (by omega), hcount, h0, Nat.shiftRight_zero, hr.diskMask,
    Nat.and_two_pow_sub_one_eq_mod, Nat.shiftRight_eq_div_pow, ← hr.nDisks, Nat.add_sub_cancel]

theorem subRequests_zero (start : ℕ) : r.subRequests start 0 = [] := by
  rw [Raid0.subRequests, if_pos rfl]

/-- The array that the members hold. -/
def view (r : Raid0 w) (m : Disks α) (k : ℕ) : α := m (k % r.uiNDisks) (k / r.uiNDisks)

theorem view_update (m : Disks α) (k : ℕ) (x : α) :
    view r (update m (k % r.uiNDisks)
        (update (m (k % r.uiNDisks)) (k / r.uiNDisks) x)) =
      update (view r m) k x := by
  funext j
  rcases eq_or_ne j k with rfl | hjk
  · simp [view]
  · rw [update_of_ne hjk, view]
    by_cases hm : j % r.uiNDisks = k % r.uiNDisks
    · rw [hm, update_self, update_of_ne, view, hm]
      intro hd
      have hj := Nat.div_add_mod j r.uiNDisks
      rw [hm, hd, Nat.div_add_mod] at hj
      exact hjk hj.symm
    · rw [update_of_ne hm, view]

theorem blkWrite_view (hr : Made r T) {k : ℕ} (hk : k < r.ulNSector) (x : α) (m : Disks α) :
    ∃ m', blkWrite r (k % r.uiNDisks) (k / r.uiNDisks) [x] m = (.ok (), m') ∧
      view r m' = update (view r m) k x := by
  have hT := hr.sector_lt hk
  refine ⟨_, ?_, view_update m k x⟩
  rw [blkWrite, hr.size _ (hr.disk_lt k), List.length_singleton, if_pos (Nat.succ_le_of_lt hT),
    overlay_singleton]

/-- A write of the array writes the array that the members hold. -/
theorem raid0DevWrt_view (hr : Made r T) (h0 : r.uiStripeShift = 0) (buf : List α) (start : ℕ)
    (h : start + buf.length ≤ r.ulNSector) (m : Disks α) :
    ∃ m', raid0DevWrt r start buf m = (.ok (), m') ∧ view r m' = overlay (view r m) start buf := by
  unfold raid0DevWrt
  induction buf generalizing start m with
  | nil =>
    refine ⟨m, ?_, (overlay_nil _ _).symm⟩
    rw [List.length_nil, subRequests_zero]
    rfl
  | cons x buf ih =>
    rw [List.length_cons] at h
    obtain ⟨m₁, hm₁, hv₁⟩ := blkWrite_view hr (show start < r.ulNSector by omega) x m
    obtain ⟨m₂, hm₂, hv₂⟩ := ih (start + 1) (by omega) m₁
    refine ⟨m₂, ?_, ?_⟩
    · rw [List.length_cons, subRequests_succ hr h0, writeAll]
      exact (Outcome.bind_of_ok hm₁).trans hm₂
    · rw [hv₂, hv₁, overlay_cons]

/-- A read of the array reads the array that the members hold. -/
theorem raid0DevRd_view (hr : Made r T) (h0 : r.uiStripeShift = 0) (count start : ℕ)
    (h : start + count ≤ r.ulNSector) (m : Disks α) :
    raid0DevRd r start count m = (.ok (slice (view r m) start count), m) := by
  unfold raid0DevRd
  induction count generalizing start with
  | zero =>
    rw [subRequests_zero]
    rfl
  | succ count ih =>
    have hT := hr.sector_lt (show start < r.ulNSector by omega)
    have hone : blkRead r (start % r.uiNDisks) (start / r.uiNDisks) 1 m =
        (.ok [view r m start], m) := by
      rw [blkRead, hr.size _ (hr.disk_lt start), if_pos (by omega)]
      rfl
    rw [subRequests_succ hr h0, readAll, slice_succ]
    refine (Outcome.bind_of_ok hone).trans ?_
    exact Outcome.bind_of_ok (ih (start + 1) (by omega))

theorem overlay_getD (last : ℕ → Option α) (base : ℕ → α) (start : ℕ) (buf : List α) :
    overlay (fun k => (last k).getD (base k)) start buf =
      fun k => (overlay last start (buf.map some) k).getD (base k) := by
  funext k
  simp only [overlay, List.getElem?_map]
  split_ifs
  · cases buf[k - start]? <;> rfl
  · rfl

/-- A request that lies inside the capacity succeeds and does to the array what it says. -/
theorem exec_view (hr : Made r T) (h0 : r.uiStripeShift = 0) {q : Req α}
    (hq : q.Inside r.ulNSector) {m : Disks α} {last : ℕ → Option α} {base : ℕ → α}
    (hv : view r m = fun k => (last k).getD (base k)) :
    ∃ m', exec r m q = some m' ∧ view r m' = fun k => (record last q k).getD (base k) := by
  cases q with
  | write start buf =>
    obtain ⟨m', hm', hv'⟩ := raid0DevWrt_view hr h0 buf start hq m
    refine ⟨m', ?_, ?_⟩
    · rw [exec, hm']
    · rw [hv', hv, record, overlay_getD]
  | read start count =>
    refine ⟨m, ?_, hv⟩
    rw [exec, raid0DevRd_view hr h0 count start hq m]

theorem runs_view (hr : Made r T) (h0 : r.uiStripeShift = 0) {reqs : List (Req α)}
    (hq : ∀ q ∈ reqs, q.Inside r.ulNSector) {m : Disks α} {last : ℕ → Option α} {base : ℕ → α}
    (hv : view r m = fun k => (last k).getD (base k)) :
    ∃ m', runs (exec r) m reqs = some m' ∧
      view r m' = fun k => (reqs.foldl record last k).getD (base k) := by
  induction reqs generalizing m last with
  | nil => exact ⟨m, rfl, hv⟩
  | cons q reqs ih =>
    obtain ⟨m₁, hm₁, hv₁⟩ := exec_view hr h0 (hq q List.mem_cons_self) hv
    obtain ⟨m₂, hm₂, hv₂⟩ := ih (fun q hmem => hq q (List.mem_cons_of_mem _ hmem)) hv₁
    refine ⟨m₂, ?_, hv₂⟩
    rw [runs, hm₁, Option.bind_some, hm₂]

theorem readsBack_of_zero (hr : Made r T) (h0 : r.uiStripeShift = 0) : ReadsBack α r := by
  intro m reqs hq
  have hstart : view r m = fun k => ((fun _ => none : ℕ → Option α) k).getD (view r m k) := rfl
  obtain ⟨m', hm', hv⟩ := runs_view hr h0 hq hstart
  refine ⟨m', hm', fun start count h => ⟨_, raid0DevRd_view hr h0 count start h m', ?_, ?_⟩⟩
  · exact slice_length _ _ _
  · intro i hi x hx
    rw [lastWritten] at hx
    rw [slice_getElem?, if_pos hi, hv]
    simp only [hx, Option.getD_some]

theorem mem_subRequests (hr : Made r T) (h0 : r.uiStripeShift = 0) {start count : ℕ} {q : SubReq} :
    q ∈ r.subRequests start count ↔
      ∃ k, start ≤ k ∧ k < start + count ∧ q = ⟨k, 1, k % r.uiNDisks, k / r.uiNDisks⟩ := by
  induction count generalizing start with
  | zero =>
    rw [subRequests_zero]
    constructor
    · intro h
      cases h
    · rintro ⟨k, _, _, _⟩
      omega
  | succ count ih =>
    rw [subRequests_succ hr h0, List.mem_cons, ih]
    constructor
    · rintro (rfl | ⟨k, h₁, h₂, rfl⟩)
      · exact ⟨start, le_rfl, by omega, rfl⟩
      · exact ⟨k, by omega, by omega, rfl⟩
    · rintro ⟨k, h₁, h₂, rfl⟩
      rcases eq_or_ne k start with rfl | hk
      · exact .inl rfl
      · exact .inr ⟨k, by omega, by omega, rfl⟩

theorem striped_of_zero (hr : Made r T) (h0 : r.uiStripeShift = 0) : Striped r := by
  refine ⟨fun k => (k % r.uiNDisks, k / r.uiNDisks), ?_, ?_, ?_⟩
  · intro j _ k _ hjk
    simp only [Prod.mk.injEq] at hjk
    rw [← Nat.div_add_mod j r.uiNDisks, hjk.1, hjk.2, Nat.div_add_mod]
  · intro k hk
    refine ⟨hr.disk_lt k, ?_⟩
    rw [hr.size _ (hr.disk_lt k)]
    exact hr.sector_lt hk
  · intro start count _
    constructor
    · intro k h₁ h₂
      exact ⟨_, (mem_subRequests hr h0).mpr ⟨k, h₁, h₂, rfl⟩, le_rfl, Nat.lt_succ_self k⟩
    · intro q hq i hi
      obtain ⟨k, h₁, h₂, rfl⟩ := (mem_subRequests hr h0).mp hq
      obtain rfl : i = 0 := by
        dsimp only at hi
        omega
      exact ⟨rfl, rfl⟩

end OneSector

/-! ## Stripes of two sectors or more -/

section Wide

variable {r : Raid0 w} {T : ℕ}

/-- Sector 0 and sector 1 of the array go to the same place. -/
theorem subRequests_one (hr : Made r T) (h1 : r.uiStripeShift ≠ 0) {k : ℕ} (hk : k < 2) :
    r.subRequests k 1 = [⟨k, 1, 0, 0⟩] := by
  have hS : 2 ≤ 2 ^ r.uiStripeShift := Nat.le_self_pow h1 2
  have hD : 2 ≤ 2 ^ r.uiDiskShift := Nat.le_self_pow (by have := hr.diskShift; omega) 2
  have hcount : r.stripeCount k 1 = 1 := by
    unfold Raid0.stripeCount
    rw [hr.stripeMask, Nat.and_two_pow_sub_one_eq_mod, Nat.mod_eq_of_lt (by omega),
      Nat.one_shiftLeft]
    split_ifs <;> omega
  rw [Raid0.subRequests, if_neg Nat.one_ne_zero, hcount, Nat.shiftRight_eq_div_pow,
    Nat.shiftRight_eq_div_pow, Nat.div_eq_of_lt (by omega), Nat.div_eq_of_lt (by omega),
    Nat.zero_and, Nat.sub_self, subRequests_zero]

theorem Made.first_sector (hr : Made r T) (hcap : r.ulNSector ≠ 0) :
    2 ≤ r.ulNSector ∧ r.size 0 = T ∧ 0 < T := by
  obtain ⟨c, hc⟩ := hr.even
  have hT : 0 < T := by
    rcases Nat.eq_zero_or_pos T with rfl | h
    · have := hr.capacity
      omega
    · exact h
  refine ⟨by omega, hr.size 0 ?_, hT⟩
  rw [hr.nDisks]
  exact Nat.two_pow_pos _

theorem not_striped (hr : Made r T) (h1 : r.uiStripeShift ≠ 0) (hcap : r.ulNSector ≠ 0) :
    ¬ Striped r := by
  rintro ⟨f, hinj, -, hf⟩
  have h2 := (hr.first_sector hcap).1
  have hmap : ∀ k < 2, f k = (0, 0) := by
    intro k hk
    have h := (hf k 1 (by omega)).2 ⟨k, 1, 0, 0⟩
    rw [subRequests_one hr h1 hk] at h
    exact (h List.mem_cons_self 0 Nat.one_pos).1
  have h01 : f 0 = f 1 := by rw [hmap 0 (by omega), hmap 1 (by omega)]
  have := hinj (show (0 : ℕ) ∈ {k | k < r.ulNSector} by simp; omega)
    (show (1 : ℕ) ∈ {k | k < r.ulNSector} by simp; omega) h01
  omega

/-- A write of one of the first two sectors takes the place of the other. -/
theorem exec_write_one {α : Type} (hr : Made r T) (h1 : r.uiStripeShift ≠ 0) (hcap : r.ulNSector ≠ 0)
    {k : ℕ} (hk : k < 2) (m : Disks α) (x : α) :
    exec r m (.write k [x]) = some (update m 0 (update (m 0) 0 x)) := by
  obtain ⟨-, hsize, hT⟩ := hr.first_sector hcap
  have hone : blkWrite r 0 0 [x] m =
      (.ok (), update m 0 (update (m 0) 0 x)) := by
    rw [blkWrite, hsize, List.length_singleton, if_pos (Nat.succ_le_of_lt hT), overlay_singleton]
  have hall : raid0DevWrt r k [x] m = (.ok (), update m 0 (update (m 0) 0 x)) := by
    rw [raid0DevWrt, List.length_singleton, subRequests_one hr h1 hk, writeAll]
    exact Outcome.bind_of_ok hone
  rw [exec, hall]

/-- What is written to sector 1 is read from sector 0. -/
theorem read_overwritten {α : Type} (hr : Made r T) (h1 : r.uiStripeShift ≠ 0)
    (hcap : r.ulNSector ≠ 0) (m : Disks α) (a b : α) :
    ∃ m', runs (exec r) m [.write 0 [a], .write 1 [b]] = some m' ∧
      raid0DevRd r 0 1 m' = (.ok [b], m') := by
  obtain ⟨-, hsize, hT⟩ := hr.first_sector hcap
  refine ⟨update m 0 (update (m 0) 0 b), ?_, ?_⟩
  · simp only [runs, exec_write_one hr h1 hcap Nat.zero_lt_two,
      exec_write_one hr h1 hcap Nat.one_lt_two, Option.bind_some, update_self,
      update_idem]
  · have hone : blkRead r 0 0 1 (update m 0 (update (m 0) 0 b)) =
        (.ok [b], update m 0 (update (m 0) 0 b)) := by
      rw [blkRead, hsize, if_pos (by omega)]
      simp [slice]
    rw [raid0DevRd, subRequests_one hr h1 Nat.zero_lt_two, readAll]
    exact Outcome.bind_of_ok hone

theorem not_readsBack {α : Type} [Nontrivial α] (hr : Made r T) (h1 : r.uiStripeShift ≠ 0)
    (hcap : r.ulNSector ≠ 0) : ¬ ReadsBack α r := by
  intro h
  have h2 := (hr.first_sector hcap).1
  obtain ⟨a, b, hab⟩ := exists_pair_ne α
  have hin : ∀ q ∈ ([.write 0 [a], .write 1 [b]] : List (Req α)), q.Inside r.ulNSector := by
    intro q hq
    simp only [List.mem_cons, List.not_mem_nil, or_false] at hq
    rcases hq with rfl | rfl <;> simp only [Req.Inside, List.length_singleton] <;> omega
  obtain ⟨m₁, hm₁, hread⟩ := h (fun _ _ => a) _ hin
  obtain ⟨m₂, hm₂, hrd⟩ := read_overwritten hr h1 hcap (fun _ _ => a) a b
  obtain rfl : m₁ = m₂ := Option.some.inj (hm₁.symm.trans hm₂)
  obtain ⟨buf, hbuf, -, hlast⟩ := hread 0 1 (by omega)
  rw [hrd] at hbuf
  simp only [Prod.mk.injEq, Except.ok.injEq, and_true] at hbuf
  have h0 := hlast 0 Nat.one_pos a (by simp [lastWritten, record, overlay])
  rw [← hbuf] at h0
  exact hab (Option.some.inj h0).symm

end Wide

/-! ## When the array is right -/

section Empty

variable {r : Raid0 w} {α : Type}

theorem exec_of_empty (hcap : r.ulNSector = 0) {q : Req α} (hq : q.Inside r.ulNSector)
    (m : Disks α) : exec r m q = some m := by
  rw [hcap] at hq
  cases q with
  | write start buf =>
    obtain rfl : buf = [] := List.eq_nil_of_length_eq_zero (by simp only [Req.Inside] at hq; omega)
    simp only [exec, raid0DevWrt, List.length_nil, subRequests_zero, writeAll]
    rfl
  | read start count =>
    obtain rfl : count = 0 := by
      simp only [Req.Inside] at hq
      omega
    simp only [exec, raid0DevRd, subRequests_zero, readAll]
    rfl

theorem readsBack_of_empty (hcap : r.ulNSector = 0) : ReadsBack α r := by
  intro m reqs hq
  have hruns : runs (exec r) m reqs = some m := by
    induction reqs with
    | nil => rfl
    | cons q reqs ih =>
      rw [runs, exec_of_empty hcap (hq q List.mem_cons_self), Option.bind_some]
      exact ih fun q hmem => hq q (List.mem_cons_of_mem _ hmem)
  refine ⟨m, hruns, fun start count h => ⟨[], ?_, ?_, fun i hi => by omega⟩⟩
  · obtain rfl : count = 0 := by omega
    rw [raid0DevRd, subRequests_zero]
    rfl
  · rw [List.length_nil]
    omega

theorem striped_of_empty (hcap : r.ulNSector = 0) : Striped r := by
  refine ⟨fun k => (k, 0), ?_, ?_, ?_⟩
  · intro j _ k _ hjk
    exact congrArg Prod.fst hjk
  · intro k hk
    omega
  · intro start count h
    obtain rfl : count = 0 := by omega
    rw [subRequests_zero]
    exact ⟨fun k _ _ => by omega, fun q hq => by cases hq⟩

end Empty

/-- The contents of one sector. -/
abbrev Sector (r : Raid0 w) : Type := Fin r.ulBytesPerSector → UInt8

theorem sector_nontrivial {r : Raid0 w} (h : 0 < r.ulBytesPerSector) : Nontrivial (Sector r) := by
  refine ⟨fun _ => 0, fun _ => 1, fun he => ?_⟩
  have := congrFun he ⟨0, h⟩
  exact absurd this (by decide)

/-- Every array that can be created gives back what was written to it, and follows one map to its
members, exactly when its stripes are single sectors or it has no sector at all. -/
theorem raid0_readsBack_iff {mem out : Bool} {pblkd : Option (ℕ → Option (BlkDev w))}
    {uiNDisks : ℕ} {stStripe : BitVec w} {r : Raid0 w}
    (h : diskRiad0Create mem pblkd uiNDisks stStripe out = .ok r) :
    (ReadsBack (Sector r) r ↔ stStripe.toNat = r.ulBytesPerSector ∨ r.ulNSector = 0) ∧
      (Striped r ↔ stStripe.toNat = r.ulBytesPerSector ∨ r.ulNSector = 0) := by
  obtain ⟨T, hr, hshift⟩ := create_ok h
  rw [← hshift]
  have := sector_nontrivial hr.bytes
  by_cases h0 : r.uiStripeShift = 0
  · exact ⟨⟨fun _ => .inl h0, fun _ => readsBack_of_zero hr h0⟩,
      ⟨fun _ => .inl h0, fun _ => striped_of_zero hr h0⟩⟩
  · by_cases hcap : r.ulNSector = 0
    · exact ⟨⟨fun _ => .inr hcap, fun _ => readsBack_of_empty hcap⟩,
        ⟨fun _ => .inr hcap, fun _ => striped_of_empty hcap⟩⟩
    · have hno : ¬ (r.uiStripeShift = 0 ∨ r.ulNSector = 0) := by
        rintro (h | h)
        · exact h0 h
        · exact hcap h
      exact ⟨⟨fun hb => absurd hb (not_readsBack hr h0 hcap), fun hc => absurd hc hno⟩,
        ⟨fun hs => absurd hs (not_striped hr h0 hcap), fun hc => absurd hc hno⟩⟩

/-- A member of 1024 sectors of 512 bytes. -/
def member : BlkDev 32 where
  ulNSector := 1024
  ulBytesPerSector := 512
  ulBytesPerBlock := 4096
  pfuncBlkIoctl := none

/-- The array of two such members with stripes of 64 kilobytes. -/
def twoMembers : Raid0 32 where
  ppblkdDisk := [member, member]
  uiNDisks := 2
  uiDiskShift := 1
  uiDiskMask := 1
  uiStripeShift := 7
  uiStripeMask := 127
  ulNSector := 2048
  ulBytesPerSector := 512
  ulBytesPerBlock := 4096

theorem twoMembers_created :
    diskRiad0Create true (some fun _ => some member) 2 65536#32 true = .ok twoMembers := by
  rfl

theorem raid0_readsBack_iff_twoMembers :
    (ReadsBack (Sector twoMembers) twoMembers ↔ 65536 = 512 ∨ 2048 = 0) ∧
      (Striped twoMembers ↔ 65536 = 512 ∨ 2048 = 0) :=
  raid0_readsBack_iff twoMembers_created

/-- In the array of two members with stripes of 128 sectors, sector 1 is written over sector 0. -/
theorem raid0_overwrites :
    diskRiad0Create true (some fun _ => some member) 2 65536#32 true = .ok twoMembers ∧
      ¬ ReadsBack (Sector twoMembers) twoMembers ∧ ¬ Striped twoMembers := by
  obtain ⟨T, hr, -⟩ := create_ok twoMembers_created
  have := sector_nontrivial hr.bytes
  have h1 : twoMembers.uiStripeShift ≠ 0 := by decide
  have hcap : twoMembers.ulNSector ≠ 0 := by decide
  exact ⟨twoMembers_created, not_readsBack hr h1 hcap, not_striped hr h1 hcap⟩

end SylixOS.Disk
