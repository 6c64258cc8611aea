import Mathlib.Algebra.Order.BigOperators.Group.Finset
import SylixOS.RamFs.Chain

/-! # Files in memory over whole runs

A file is meant to be an array of bytes in which a byte that has not been written since it last lay
behind the end is zero. The code keeps what lies behind the end of a file in its last block, allocates
blocks with the bytes that they happen to hold, and cuts a chain in the middle without its last block.
In a run whose steps do not come upon these, the files are such arrays.
-/

namespace SylixOS.RamFs
open Lib Blocks Function

/-- What a file is meant to hold. -/
structure RamContents where
  len : ℕ
  byte : ℕ → UInt8
  zero : ∀ o, len ≤ o → byte o = 0

namespace RamContents
variable (v : RamContents)

def empty : RamContents := ⟨0, fun _ => 0, fun _ _ => rfl⟩

def write (buf : ℕ → UInt8) (n off : ℕ) : RamContents where
  len := max v.len (off + n)
  byte := fun o => if off ≤ o ∧ o < off + n then buf (o - off) else v.byte o
  zero := by
    intro o ho
    rw [if_neg (by omega), v.zero o (by omega)]

/-- The bytes up to a place are kept. -/
def cut (off : ℕ) : RamContents where
  len := off
  byte := fun o => if o < off then v.byte o else 0
  zero := by
    intro o ho
    rw [if_neg (by omega)]

def grow (off : ℕ) : RamContents where
  len := max v.len off
  byte := v.byte
  zero := fun o ho => v.zero o (by omega)

def read (n off : ℕ) : List UInt8 := (List.range (min (v.len - off) n)).map fun j => v.byte (off + j)

end RamContents

variable {ι : Type*}

/-- The files of a volume, and what they are meant to hold. -/
structure RamSys (ι : Type*) where
  pramfs : RamVolume
  node : ι → RamNode
  view : ι → RamContents

inductive RamEvent (ι : Type*) where
  | write (i : ι) (pvBuffer : ℕ → UInt8) (stNBytes stOft : ℕ) (given : List RamBuffer)
  | read (i : ι) (stSize stOft : ℕ)
  | truncate (i : ι) (stOft : ℕ)
  | increase (i : ι) (stNewSize : ℕ)
  | seek (i : ι) (oftOffset : ℕ)
  | unlink (i : ι)

namespace RamSys
variable (cfg : RamCfg) (s : RamSys ι)

section
variable [DecidableEq ι]

/-- One file changes. -/
def set (i : ι) (r : RamVolume × RamNode) (view : RamContents) : RamSys ι where
  pramfs := r.1
  node := update s.node i r.2
  view := update s.view i view

/-- The callers of `__ram_write` write at least one byte, sizes are words, and the allocator gives
blocks that are not allocated. -/
def step : RamEvent ι → Option (RamSys ι)
  | .write i pvBuffer stNBytes stOft given =>
    if 0 < stNBytes ∧ stNBytes < 2 ^ cfg.wordBits ∧ stOft < 2 ^ cfg.wordBits ∧
        (given.map RamBuffer.addr).Nodup ∧ ∀ b ∈ given, b.addr ∉ s.pramfs.used then
      let r := ramWrite cfg s.pramfs (s.node i) pvBuffer stNBytes stOft given
      some (s.set i (r.1, r.2.1)
        (if r.2.2 = 0 then s.view i else (s.view i).write pvBuffer r.2.2 stOft))
    else none
  | .read i stSize stOft =>
    if stOft < 2 ^ cfg.wordBits then
      some (s.set i (s.pramfs, (ramRead cfg s.pramfs (s.node i) stSize stOft).2) (s.view i))
    else none
  | .truncate i stOft =>
    some (s.set i (ramTruncate cfg s.pramfs (s.node i) stOft) ((s.view i).cut stOft))
  | .increase i stNewSize =>
    some (s.set i (s.pramfs, ramIncrease (s.node i) stNewSize) ((s.view i).grow stNewSize))
  | .seek i oftOffset =>
    some (s.set i (s.pramfs, ramFsSeek (s.node i) oftOffset) ((s.view i).grow oftOffset))
  | .unlink i =>
    some (s.set i (unlinkLoop (s.node i).plineBStart s.pramfs, ramMaken) .empty)

end

/-- A volume without blocks. -/
def create (ucData : ℕ → ℕ → UInt8) (ulMaxBlk : ℕ) : RamSys ι where
  pramfs := { ucData, used := ∅, ulCurBlk := 0, ulMaxBlk }
  node := fun _ => ramMaken
  view := fun _ => .empty

def Init : Prop := ∃ ucData ulMaxBlk, ulMaxBlk < 2 ^ cfg.wordBits ∧ s = create ucData ulMaxBlk

end RamSys

/-! ## When it goes well -/

section
variable (cfg : RamCfg) (pramfs : RamVolume) (pramn : RamNode)

/-- The bytes from the end of the file to a place are zero. -/
def CleanTo (stOft : ℕ) : Prop :=
  ∀ o, pramn.stVSize ≤ o → o < stOft → byteAt cfg.bDataSize pramfs.ucData pramn.plineBStart o = 0

/-- How many blocks are missing for a write that ends at `stEnd`. -/
def missing (stEnd : ℕ) : ℕ := blocksFor cfg stEnd - pramn.ulCnt

/-- The blocks that a write allocates. -/
def newBlocks (stEnd : ℕ) (given : List RamBuffer) : List RamBuffer :=
  if missing cfg pramn stEnd + pramfs.ulCurBlk ≤ pramfs.ulMaxBlk
  then given.take (missing cfg pramn stEnd) else []

/-- There is room for a write. -/
def Room (stEnd : ℕ) (given : List RamBuffer) : Prop :=
  missing cfg pramn stEnd + pramfs.ulCurBlk ≤ pramfs.ulMaxBlk ∧
    missing cfg pramn stEnd ≤ given.length

instance (stEnd : ℕ) (given : List RamBuffer) : Decidable (Room cfg pramfs pramn stEnd given) :=
  inferInstanceAs (Decidable (_ ∧ _))

/-- A write brings no byte into the file that is neither written nor zero: not from the blocks that
there are, and not from those that it allocates without clearing them. -/
structure WriteOk (stNBytes stOft : ℕ) (given : List RamBuffer) : Prop where
  noWrap : stOft + stNBytes < 2 ^ cfg.wordBits
  clean : Room cfg pramfs pramn (stOft + stNBytes) given → CleanTo cfg pramfs pramn stOft
  fresh : clears cfg pramn.ulCnt stOft stNBytes = false → ∀ o b,
    pramn.ulCnt * cfg.bDataSize ≤ o →
    (newBlocks cfg pramfs pramn (stOft + stNBytes) given)[o / cfg.bDataSize - pramn.ulCnt]? = some b →
    o < pramn.stVSize ∨ Room cfg pramfs pramn (stOft + stNBytes) given ∧ o < stOft →
    ¬ (Room cfg pramfs pramn (stOft + stNBytes) given ∧ stOft ≤ o ∧ o < stOft + stNBytes) →
    b.ucData (o % cfg.bDataSize) = 0

/-- A truncation cuts off at most one block or all blocks, and takes no byte into the file that is not
zero. -/
structure TruncateOk (stOft : ℕ) : Prop where
  cut : pramn.ulCnt ≤ blocksFor cfg stOft + 1 ∨ stOft = 0
  clean : CleanTo cfg pramfs pramn stOft

end

/-- The steps that go well. -/
def StepOk (cfg : RamCfg) (s : RamSys ι) : RamEvent ι → Prop
  | .write i _ stNBytes stOft given => WriteOk cfg s.pramfs (s.node i) stNBytes stOft given
  | .truncate i stOft => TruncateOk cfg s.pramfs (s.node i) stOft
  | .increase i stNewSize => CleanTo cfg s.pramfs (s.node i) stNewSize
  | .seek i oftOffset => CleanTo cfg s.pramfs (s.node i) oftOffset
  | .read _ _ _ => True
  | .unlink _ => True

/-- What is promised of a volume. -/
structure RamSafe (cfg : RamCfg) [Fintype ι] (s : RamSys ι) : Prop where
  read : ∀ i stSize stOft, stOft < 2 ^ cfg.wordBits →
    (ramRead cfg s.pramfs (s.node i) stSize stOft).1 = (s.view i).read stSize stOft
  cnt : ∀ i, (s.node i).ulCnt = (s.node i).plineBStart.length
  last : ∀ i, (s.node i).plineBEnd = (s.node i).plineBStart.getLast?
  cookie : ∀ i p, (s.node i).prambCookie = some p →
    (s.node i).plineBStart[(s.node i).ulCookie]? = some p
  curBlk : s.pramfs.ulCurBlk = ∑ i, (s.node i).plineBStart.length

/-! ## One file -/

variable {cfg : RamCfg} {pramfs : RamVolume} {pramn : RamNode} {n stOft : ℕ} {buf : ℕ → UInt8}
  {given : List RamBuffer} {clear : Bool}

/-- The bytes behind the old blocks are those of the new ones. -/
theorem byteAt_append_new {data data' : ℕ → ℕ → UInt8} {l : List ℕ} {bs : List RamBuffer} {o : ℕ}
    (hold : ∀ p ∈ l, data' p = data p)
    (hnew : ∀ b ∈ bs, data' b.addr = if clear then fun _ => 0 else b.ucData) :
    byteAt cfg.bDataSize data' (l ++ bs.map RamBuffer.addr) o =
      if o < l.length * cfg.bDataSize then byteAt cfg.bDataSize data l o
      else match bs[o / cfg.bDataSize - l.length]? with
        | some b => if clear then 0 else b.ucData (o % cfg.bDataSize)
        | none => 0 := by
  rcases Nat.lt_or_ge o (l.length * cfg.bDataSize) with ho | ho
  · rw [if_pos ho, byteAt_append_left cfg.pos ho]
    exact byteAt_congr hold
  · have hge : l.length ≤ o / cfg.bDataSize := (Nat.le_div_iff_mul_le cfg.pos).mpr ho
    rw [if_neg (by omega), byteAt, List.getElem?_append_right hge, List.getElem?_map]
    cases hb : bs[o / cfg.bDataSize - l.length]? with
    | none => rfl
    | some b =>
      rw [Option.map_some]
      dsimp only
      rw [hnew b (List.mem_of_getElem? hb)]
      split_ifs <;> rfl

theorem newBlocks_sublist {stEnd : ℕ} : (newBlocks cfg pramfs pramn stEnd given).Sublist given := by
  unfold newBlocks
  split_ifs
  · exact List.take_sublist _ _
  · exact List.nil_sublist _

/-- `__ram_automem` puts the new blocks behind the old ones. -/
theorem Linked.automem (h : Linked pramn) {stEnd : ℕ} (hcur : pramfs.ulCurBlk ≤ pramfs.ulMaxBlk)
    (hnodup : (given.map RamBuffer.addr).Nodup) (hnew : ∀ b ∈ given, b.addr ∉ pramn.plineBStart) :
    let bs := newBlocks cfg pramfs pramn stEnd given
    ∃ data used plineBEnd, ramAutomem cfg pramfs pramn (blocksFor cfg stEnd) stOft n given =
        (({ pramfs with ucData := data, used, ulCurBlk := pramfs.ulCurBlk + bs.length },
          { pramn with
            plineBStart := pramn.plineBStart ++ bs.map RamBuffer.addr
            plineBEnd
            ulCnt := pramn.ulCnt + bs.length }),
          decide (Room cfg pramfs pramn stEnd given)) ∧
      Linked { pramn with
        plineBStart := pramn.plineBStart ++ bs.map RamBuffer.addr
        plineBEnd
        ulCnt := pramn.ulCnt + bs.length } ∧
      (∀ p, p ∈ used ↔ p ∈ pramfs.used ∨ p ∈ bs.map RamBuffer.addr) ∧
      (∀ p, p ∉ bs.map RamBuffer.addr → data p = pramfs.ucData p) ∧
      ∀ b ∈ bs, data b.addr =
        if clears cfg pramn.ulCnt stOft n = true then fun _ => 0 else b.ucData := by
  intro bs
  have hnone (hbs : bs = []) : ({ pramfs with
        ucData := pramfs.ucData, used := pramfs.used, ulCurBlk := pramfs.ulCurBlk + bs.length },
      { pramn with
        plineBStart := pramn.plineBStart ++ bs.map RamBuffer.addr
        plineBEnd := pramn.plineBEnd
        ulCnt := pramn.ulCnt + bs.length }) = (pramfs, pramn) := by
    rw [hbs, List.map_nil, List.append_nil]
    rfl
  unfold ramAutomem
  by_cases hcnt : blocksFor cfg stEnd ≤ pramn.ulCnt
  · rw [if_pos hcnt]
    have hmissing : missing cfg pramn stEnd = 0 := Nat.sub_eq_zero_of_le hcnt
    have hbs : bs = [] := by
      simp only [bs, newBlocks, hmissing, List.take_zero, ite_self]
    have hroom : Room cfg pramfs pramn stEnd given := by
      rw [Room, hmissing, Nat.zero_add]
      exact ⟨hcur, Nat.zero_le _⟩
    have heq := hnone hbs
    refine ⟨pramfs.ucData, pramfs.used, pramn.plineBEnd, ?_, ?_, ?_, fun _ _ => rfl, ?_⟩
    · rw [heq, decide_eq_true hroom]
    · rw [(Prod.mk.inj heq).2]
      exact h
    · simp [hbs]
    · simp [hbs]
  rw [if_neg hcnt]
  by_cases hmax : blocksFor cfg stEnd - pramn.ulCnt + pramfs.ulCurBlk > pramfs.ulMaxBlk
  · rw [if_pos hmax]
    have hbs : bs = [] := if_neg (by unfold missing; omega)
    have hroom : ¬ Room cfg pramfs pramn stEnd given := by
      unfold Room missing
      omega
    have heq := hnone hbs
    refine ⟨pramfs.ucData, pramfs.used, pramn.plineBEnd, ?_, ?_, ?_, fun _ _ => rfl, ?_⟩
    · rw [heq, decide_eq_false hroom]
    · rw [(Prod.mk.inj heq).2]
      exact h
    · simp [hbs]
    · simp [hbs]
  · rw [if_neg hmax]
    have hmax' : missing cfg pramn stEnd + pramfs.ulCurBlk ≤ pramfs.ulMaxBlk := by
      unfold missing
      omega
    have hbs : bs = given.take (missing cfg pramn stEnd) := if_pos hmax'
    obtain ⟨data, used, plineBEnd, heq, hlinked, hused, hother, hdata⟩ :=
      @automemLoop_spec (pramfs, pramn) (missing cfg pramn stEnd) (clears cfg pramn.ulCnt stOft n)
        given h hnodup hnew
    rw [← hbs] at heq hused hother hdata
    have hroom : decide (missing cfg pramn stEnd ≤ given.length) =
        decide (Room cfg pramfs pramn stEnd given) := by
      simp only [Room, hmax', true_and]
    refine ⟨data, used, plineBEnd, ?_, ?_, hused, hother, hdata⟩
    · rw [← hroom]
      exact heq
    · rw [heq] at hlinked
      exact hlinked

theorem newBlocks_le {stEnd : ℕ} (hcur : pramfs.ulCurBlk ≤ pramfs.ulMaxBlk) :
    pramfs.ulCurBlk + (newBlocks cfg pramfs pramn stEnd given).length ≤ pramfs.ulMaxBlk := by
  unfold newBlocks
  split_ifs
  · rw [List.length_take]
    omega
  · exact hcur

theorem Room.length_eq {stEnd : ℕ} (h : Room cfg pramfs pramn stEnd given) :
    (newBlocks cfg pramfs pramn stEnd given).length = missing cfg pramn stEnd := by
  rw [newBlocks, if_pos h.1, List.length_take, Nat.min_eq_left h.2]

theorem Linked.increase (h : Linked pramn) (m : ℕ) : ramIncrease pramn m =
    { pramn with stSize := max pramn.stSize m, stVSize := max pramn.stVSize m } := by
  have hle := h.size_le
  unfold ramIncrease
  split_ifs with hlt
  · rw [Nat.max_eq_right hlt.le]
  · rw [Nat.max_eq_left (by omega), Nat.max_eq_left (by omega)]

theorem Linked.setSize (h : Linked pramn) {stSize stVSize : ℕ} (hle : stSize ≤ stVSize) :
    Linked { pramn with stSize, stVSize } :=
  ⟨h.nodup, h.cnt, h.last, h.cookie, hle⟩

/-- The bytes of a file after room has been made for a write. -/
theorem WriteOk.bytes (hok : WriteOk cfg pramfs pramn n stOft given) (h : Linked pramn)
    {data : ℕ → ℕ → UInt8}
    (hnew : ∀ b ∈ newBlocks cfg pramfs pramn (stOft + n) given, b.addr ∉ pramn.plineBStart)
    (hother : ∀ p, p ∉ (newBlocks cfg pramfs pramn (stOft + n) given).map RamBuffer.addr →
      data p = pramfs.ucData p)
    (hdata : ∀ b ∈ newBlocks cfg pramfs pramn (stOft + n) given, data b.addr =
      if clears cfg pramn.ulCnt stOft n = true then fun _ => 0 else b.ucData) {o : ℕ}
    (ho : o < pramn.stVSize ∨ Room cfg pramfs pramn (stOft + n) given ∧ o < stOft)
    (hout : ¬ (Room cfg pramfs pramn (stOft + n) given ∧ stOft ≤ o ∧ o < stOft + n)) :
    byteAt cfg.bDataSize data (pramn.plineBStart ++
        (newBlocks cfg pramfs pramn (stOft + n) given).map RamBuffer.addr) o =
      if o < pramn.stVSize then byteAt cfg.bDataSize pramfs.ucData pramn.plineBStart o else 0 := by
  have hold : ∀ p ∈ pramn.plineBStart, data p = pramfs.ucData p := by
    refine fun p hp => hother p fun hmem => ?_
    obtain ⟨b, hb, rfl⟩ := List.mem_map.mp hmem
    exact hnew b hb hp
  rw [byteAt_append_new hold hdata]
  rcases Nat.lt_or_ge o (pramn.plineBStart.length * cfg.bDataSize) with hlt | hge
  · rw [if_pos hlt]
    split_ifs with hsize
    · rfl
    · obtain ⟨hroom, hoft⟩ := ho.resolve_left hsize
      exact hok.clean hroom o (by omega) hoft
  · rw [if_neg (by omega), byteAt_beyond cfg.pos hge, ite_self, ← h.cnt]
    cases hb : (newBlocks cfg pramfs pramn (stOft + n) given)[o / cfg.bDataSize - pramn.ulCnt]? with
    | none => rfl
    | some b =>
      dsimp only
      split_ifs with hclear
      · rfl
      · exact hok.fresh (by simpa using hclear) o b (by rw [h.cnt]; exact hge) hb ho hout

/-- A write that goes well. -/
theorem WriteOk.write (hok : WriteOk cfg pramfs pramn n stOft given) (h : Linked pramn)
    (hcur : pramfs.ulCurBlk ≤ pramfs.ulMaxBlk) (hcnt : pramn.ulCnt ≤ pramfs.ulCurBlk)
    (hmax : pramfs.ulMaxBlk < 2 ^ cfg.wordBits)
    (hnodup : (given.map RamBuffer.addr).Nodup) (hnew : ∀ b ∈ given, b.addr ∉ pramn.plineBStart) :
    let bs := newBlocks cfg pramfs pramn (stOft + n) given
    let room := Room cfg pramfs pramn (stOft + n) given
    ∃ data used pramn', ramWrite cfg pramfs pramn buf n stOft given = ({ pramfs with
        ucData := data, used, ulCurBlk := pramfs.ulCurBlk + bs.length }, pramn',
        if room then n else 0) ∧
      Linked pramn' ∧ pramn'.plineBStart = pramn.plineBStart ++ bs.map RamBuffer.addr ∧
      pramn'.stVSize = (if room then max pramn.stVSize (stOft + n) else pramn.stVSize) ∧
      (∀ p, p ∈ used ↔ p ∈ pramfs.used ∨ p ∈ bs.map RamBuffer.addr) ∧
      (∀ p ∉ pramn'.plineBStart, data p = pramfs.ucData p) ∧
      ∀ o < pramn'.stVSize, byteAt cfg.bDataSize data pramn'.plineBStart o =
        if room ∧ stOft ≤ o ∧ o < stOft + n then buf (o - stOft)
        else if o < pramn.stVSize then byteAt cfg.bDataSize pramfs.ucData pramn.plineBStart o
        else 0 := by
  intro bs room
  have hbs : bs.Sublist given := newBlocks_sublist
  have hlen : pramfs.ulCurBlk + bs.length ≤ pramfs.ulMaxBlk := newBlocks_le hcur
  obtain ⟨data, used, plineBEnd, heq, hlinked, hused, hother, hdata⟩ :=
    @Linked.automem cfg pramfs pramn n stOft given h (stOft + n) hcur hnodup hnew
  have hbytes {o : ℕ} := hok.bytes (o := o) h (fun b hb => hnew b (hbs.subset hb)) hother hdata
  unfold ramWrite
  rw [Nat.mod_eq_of_lt hok.noWrap]
  dsimp only
  rw [heq]
  by_cases hroom : room
  · have hfit : stOft + n ≤ (pramn.ulCnt + bs.length) * cfg.bDataSize := by
      rw [← blocksFor_le_iff, hroom.length_eq, missing]
      omega
    have hoft : stOft < 2 ^ cfg.wordBits := Nat.lt_of_le_of_lt (Nat.le_add_right _ _) hok.noWrap
    have hcnt' : pramn.ulCnt + bs.length < 2 ^ cfg.wordBits := by omega
    obtain ⟨data', prambCookie, ulCookie, hcopy, hcookie, hother', hcopied⟩ :=
      @Linked.copyIn cfg _ { pramfs with
        ucData := data, used, ulCurBlk := pramfs.ulCurBlk + bs.length } stOft n buf hlinked
        hcnt' hoft hfit
    rw [decide_eq_true hroom, if_pos hroom]
    dsimp only
    rw [hcopy]
    dsimp only
    have hset := hlinked.setCookie hcookie
    rw [Nat.mod_eq_of_lt hok.noWrap, hset.increase]
    refine ⟨data', used, _, rfl, hset.setSize ?_, rfl, ?_, hused, fun p hp => ?_, fun o ho => ?_⟩
    · exact max_le_max hset.size_le le_rfl
    · rw [if_pos hroom]
    · rw [hother' p hp]
      exact hother p fun hmem => hp (List.mem_append_right _ hmem)
    · dsimp only at ho ⊢
      rw [hcopied]
      by_cases hin : stOft ≤ o ∧ o < stOft + n
      · rw [if_pos hin, if_pos ⟨hroom, hin⟩]
      · rw [if_neg hin, if_neg fun hall => hin hall.2]
        refine hbytes ?_ fun hall => hin hall.2
        refine (Nat.lt_or_ge o pramn.stVSize).imp_right fun hge => ⟨hroom, ?_⟩
        omega
  · rw [decide_eq_false hroom, if_neg hroom]
    refine ⟨data, used, _, rfl, hlinked, rfl, ?_, hused, fun p hp => ?_, fun o ho => ?_⟩
    · rw [if_neg hroom]
    · exact hother p fun hmem => hp (List.mem_append_right _ hmem)
    · rw [if_neg fun hall => hroom hall.1]
      exact hbytes (.inl ho) fun hall => hroom hall.1

/-! ## All files -/

namespace RamSys

variable [Fintype ι] {s s' : RamSys ι} {i : ι} {r : RamVolume × RamNode} {view : RamContents}

structure RamInv (cfg : RamCfg) (s : RamSys ι) : Prop where
  node : ∀ i, Linked (s.node i)
  used : ∀ i, ∀ p ∈ (s.node i).plineBStart, p ∈ s.pramfs.used
  disjoint : ∀ i j, i ≠ j → ∀ p ∈ (s.node i).plineBStart, p ∉ (s.node j).plineBStart
  curBlk : s.pramfs.ulCurBlk = ∑ i, (s.node i).plineBStart.length
  cur_le : s.pramfs.ulCurBlk ≤ s.pramfs.ulMaxBlk
  max_lt : s.pramfs.ulMaxBlk < 2 ^ cfg.wordBits
  len : ∀ i, (s.view i).len = (s.node i).stVSize
  byte : ∀ i, ∀ o < (s.node i).stVSize, (s.view i).byte o =
    byteAt cfg.bDataSize s.pramfs.ucData (s.node i).plineBStart o

theorem RamInv.cnt_le (h : RamInv cfg s) (i : ι) : (s.node i).ulCnt ≤ s.pramfs.ulCurBlk := by
  rw [(h.node i).cnt, h.curBlk]
  exact Finset.single_le_sum (f := fun i => (s.node i).plineBStart.length) (fun _ _ => Nat.zero_le _)
    (Finset.mem_univ i)

theorem RamInv.cnt_lt (h : RamInv cfg s) (i : ι) : (s.node i).ulCnt < 2 ^ cfg.wordBits := by
  have := h.cnt_le i
  have := h.cur_le
  have := h.max_lt
  omega

theorem RamInv.safe (h : RamInv cfg s) : RamSafe cfg s := by
  refine ⟨fun i stSize stOft hoft => ?_, fun i => (h.node i).cnt, fun i => (h.node i).last,
    fun i => (h.node i).cookie, h.curBlk⟩
  rw [(h.node i).read (h.cnt_lt i) hoft, RamContents.read, h.len]
  refine List.map_congr_left fun j hj => ?_
  rw [List.mem_range] at hj
  exact (h.byte i _ (by omega)).symm

variable [DecidableEq ι]

theorem sum_update (f : RamNode → ℕ) (node : ι → RamNode) (i : ι) (x : RamNode) :
    ∑ j, f (update node i x j) + f (node i) = ∑ j, f (node j) + f x := by
  rw [← Finset.add_sum_erase _ _ (Finset.mem_univ i),
    ← Finset.add_sum_erase _ (fun j => f (node j)) (Finset.mem_univ i), update_self]
  have hrest : ∑ j ∈ Finset.univ.erase i, f (update node i x j) =
      ∑ j ∈ Finset.univ.erase i, f (node j) := by
    refine Finset.sum_congr rfl fun j hj => ?_
    rw [update_of_ne (Finset.ne_of_mem_erase hj)]
  rw [hrest]
  omega

/-- One file changes, and takes no block of another one. -/
theorem RamInv.set (h : RamInv cfg s) (hnode : Linked r.2)
    (hused : ∀ p ∈ r.2.plineBStart, p ∈ r.1.used)
    (hkeep : ∀ p ∈ s.pramfs.used, p ∉ (s.node i).plineBStart → p ∈ r.1.used)
    (hnew : ∀ p ∈ r.2.plineBStart, p ∈ (s.node i).plineBStart ∨ p ∉ s.pramfs.used)
    (hdata : ∀ p ∈ s.pramfs.used, p ∉ (s.node i).plineBStart → r.1.ucData p = s.pramfs.ucData p)
    (hcur : r.1.ulCurBlk + (s.node i).plineBStart.length =
      s.pramfs.ulCurBlk + r.2.plineBStart.length)
    (hle : r.1.ulCurBlk ≤ r.1.ulMaxBlk) (hmax : r.1.ulMaxBlk = s.pramfs.ulMaxBlk)
    (hlen : view.len = r.2.stVSize)
    (hbyte : ∀ o < r.2.stVSize, view.byte o =
      byteAt cfg.bDataSize r.1.ucData r.2.plineBStart o) : RamInv cfg (s.set i r view) := by
  have hother {j : ι} (hj : j ≠ i) {p : ℕ} (hp : p ∈ (s.node j).plineBStart) :
      p ∈ s.pramfs.used ∧ p ∉ (s.node i).plineBStart :=
    ⟨h.used j p hp, h.disjoint j i hj p hp⟩
  have hself : (s.set i r view).node i = r.2 := update_self _ _ _
  have hne {j : ι} (hj : j ≠ i) : (s.set i r view).node j = s.node j := update_of_ne hj _ _
  have hview : (s.set i r view).view i = view := update_self _ _ _
  have hvne {j : ι} (hj : j ≠ i) : (s.set i r view).view j = s.view j := update_of_ne hj _ _
  have hapart {j : ι} (hj : j ≠ i) {p : ℕ} (hp : p ∈ (s.node j).plineBStart) :
      p ∉ r.2.plineBStart := fun hmem => by
    obtain ⟨hin, hout⟩ := hother hj hp
    rcases hnew p hmem with hmem | hmem
    · exact hout hmem
    · exact hmem hin
  refine ⟨fun j => ?_, fun j p hp => ?_, fun j k hjk p hp => ?_, ?_, hle, hmax ▸ h.max_lt,
    fun j => ?_, fun j o ho => ?_⟩
  · by_cases hj : j = i
    · rw [hj, hself]
      exact hnode
    · rw [hne hj]
      exact h.node j
  · by_cases hj : j = i
    · rw [hj, hself] at hp
      exact hused p hp
    · rw [hne hj] at hp
      obtain ⟨hin, hout⟩ := hother hj hp
      exact hkeep p hin hout
  · by_cases hj : j = i
    · rw [hj, hself] at hp
      rw [hne (hj ▸ hjk.symm)]
      exact fun hmem => hapart (hj ▸ hjk.symm) hmem hp
    · rw [hne hj] at hp
      by_cases hk : k = i
      · rw [hk, hself]
        exact hapart hj hp
      · rw [hne hk]
        exact h.disjoint j k hjk p hp
  · have hsum := sum_update (fun nd => nd.plineBStart.length) s.node i r.2
    have hblk := h.curBlk
    change r.1.ulCurBlk = ∑ j, (update s.node i r.2 j).plineBStart.length
    omega
  · by_cases hj : j = i
    · rw [hj, hself, hview]
      exact hlen
    · rw [hne hj, hvne hj]
      exact h.len j
  · by_cases hj : j = i
    · rw [hj, hself] at ho ⊢
      rw [hview]
      exact hbyte o ho
    · rw [hne hj] at ho ⊢
      rw [hvne hj, h.byte j o ho]
      refine (byteAt_congr fun p hp => ?_).symm
      obtain ⟨hin, hout⟩ := hother hj hp
      exact hdata p hin hout

/-- Only what is remembered of a file changes. -/
theorem RamInv.setNode (h : RamInv cfg s) {pramn : RamNode} (hnode : Linked pramn)
    (hchain : pramn.plineBStart = (s.node i).plineBStart) (hlen : view.len = pramn.stVSize)
    (hbyte : ∀ o < pramn.stVSize, view.byte o =
      byteAt cfg.bDataSize s.pramfs.ucData (s.node i).plineBStart o) :
    RamInv cfg (s.set i (s.pramfs, pramn) view) := by
  refine h.set hnode ?_ (fun _ hp _ => hp) ?_ (fun _ _ _ => rfl) ?_ h.cur_le rfl hlen ?_
  · dsimp only
    rw [hchain]
    exact h.used i
  · dsimp only
    rw [hchain]
    exact fun p hp => .inl hp
  · dsimp only
    rw [hchain]
  · dsimp only
    rw [hchain]
    exact hbyte

theorem RamInv.read (h : RamInv cfg s) {stSize : ℕ} (hoft : stOft < 2 ^ cfg.wordBits) :
    RamInv cfg (s.set i (s.pramfs, (ramRead cfg s.pramfs (s.node i) stSize stOft).2) (s.view i)) := by
  obtain ⟨prambCookie, ulCookie, heq, hcookie⟩ := (h.node i).read_node (h.cnt_lt i) hoft stSize
  rw [heq]
  exact h.setNode ((h.node i).setCookie hcookie) rfl (h.len i) (h.byte i)

omit [DecidableEq ι] in
/-- A byte of a file that has grown over zeros. -/
theorem RamInv.grown (h : RamInv cfg s) (hclean : CleanTo cfg s.pramfs (s.node i) n) {o : ℕ}
    (ho : o < max (s.node i).stVSize n) : ((s.view i).grow n).byte o =
      byteAt cfg.bDataSize s.pramfs.ucData (s.node i).plineBStart o := by
  rcases Nat.lt_or_ge o (s.node i).stVSize with hlt | hge
  · exact h.byte i o hlt
  · rw [hclean o hge (by omega)]
    exact (s.view i).zero o (by rw [h.len]; exact hge)

theorem RamInv.increase (h : RamInv cfg s) (hclean : CleanTo cfg s.pramfs (s.node i) n) :
    RamInv cfg (s.set i (s.pramfs, ramIncrease (s.node i) n) ((s.view i).grow n)) := by
  rw [(h.node i).increase]
  refine h.setNode ((h.node i).setSize ?_) rfl ?_ fun o ho => h.grown hclean ho
  · exact max_le_max (h.node i).size_le le_rfl
  · rw [← h.len]
    rfl

theorem RamInv.seek (h : RamInv cfg s) (hclean : CleanTo cfg s.pramfs (s.node i) n) :
    RamInv cfg (s.set i (s.pramfs, ramFsSeek (s.node i) n) ((s.view i).grow n)) := by
  have heq : ramFsSeek (s.node i) n =
      { s.node i with stSize := (s.node i).stSize, stVSize := max (s.node i).stVSize n } := by
    unfold ramFsSeek
    split_ifs with hlt
    · rw [Nat.max_eq_right hlt.le]
    · rw [Nat.max_eq_left (by omega)]
  rw [heq]
  refine h.setNode ((h.node i).setSize ?_) rfl ?_ fun o ho => h.grown hclean ho
  · exact (h.node i).size_le.trans (le_max_left _ _)
  · rw [← h.len]
    rfl

theorem RamInv.truncate (h : RamInv cfg s) (hok : TruncateOk cfg s.pramfs (s.node i) stOft) :
    RamInv cfg (s.set i (ramTruncate cfg s.pramfs (s.node i) stOft) ((s.view i).cut stOft)) := by
  obtain ⟨used, pramn', heq, hlinked, hchain, hsize, hused⟩ :=
    @Linked.truncate cfg (s.node i) s.pramfs stOft (h.node i) hok.cut
  have hle := h.cnt_le i
  rw [(h.node i).cnt] at hle
  have hsub : pramn'.plineBStart.length ≤ (s.node i).plineBStart.length := by
    rw [hchain]
    exact (List.take_sublist _ _).length_le
  have hnodup := (h.node i).nodup
  rw [← List.take_append_drop (blocksFor cfg stOft) (s.node i).plineBStart, List.nodup_append]
    at hnodup
  rw [heq]
  refine h.set hlinked (fun p hp => ?_) (fun p hp hout => ?_) (fun p hp => ?_) (fun _ _ _ => rfl) ?_
    ?_ rfl hsize.symm (fun o ho => ?_)
  · dsimp only at hp
    rw [hchain] at hp
    exact hused p (h.used i p (List.mem_of_mem_take hp)) fun hmem => hnodup.2.2 p hp p hmem rfl
  · exact hused p hp fun hmem => hout (List.mem_of_mem_drop hmem)
  · dsimp only at hp
    rw [hchain] at hp
    exact .inl (List.mem_of_mem_take hp)
  · dsimp only
    omega
  · have := h.cur_le
    dsimp only
    omega
  · dsimp only at ho ⊢
    rw [hsize] at ho
    rw [hchain, byteAt_take cfg.pos (Nat.lt_of_lt_of_le ho (blocksFor_le_iff.mp le_rfl))]
    refine (if_pos ho).trans ?_
    rcases Nat.lt_or_ge o (s.node i).stVSize with hlt | hge
    · exact h.byte i o hlt
    · rw [hok.clean o hge ho]
      exact (s.view i).zero o (by rw [h.len]; exact hge)

theorem RamInv.write (h : RamInv cfg s)
    (hok : WriteOk cfg s.pramfs (s.node i) n stOft given) (hn : 0 < n)
    (hnodup : (given.map RamBuffer.addr).Nodup) (hnew : ∀ b ∈ given, b.addr ∉ s.pramfs.used) :
    let r := ramWrite cfg s.pramfs (s.node i) buf n stOft given
    RamInv cfg (s.set i (r.1, r.2.1)
      (if r.2.2 = 0 then s.view i else (s.view i).write buf r.2.2 stOft)) := by
  intro r
  obtain ⟨data, used, pramn', heq, hlinked, hchain, hsize, hused, hother, hbytes⟩ :=
    @WriteOk.write cfg s.pramfs (s.node i) n stOft buf given hok (h.node i) h.cur_le (h.cnt_le i)
      h.max_lt hnodup fun b hb hmem => hnew b hb (h.used i _ hmem)
  have hr : r = _ := heq
  rw [hr]
  dsimp only
  have hfresh (p : ℕ)
      (hp : p ∈ (newBlocks cfg s.pramfs (s.node i) (stOft + n) given).map RamBuffer.addr) :
      p ∉ s.pramfs.used := by
    obtain ⟨b, hb, rfl⟩ := List.mem_map.mp hp
    exact hnew b (newBlocks_sublist.subset hb)
  refine h.set hlinked (fun p hp => ?_) (fun p hp _ => (hused p).mpr (.inl hp)) (fun p hp => ?_)
    (fun p hp hout => ?_) ?_ (newBlocks_le h.cur_le) rfl ?_ (fun o ho => ?_)
  · dsimp only at hp
    rw [hchain, List.mem_append] at hp
    exact (hused p).mpr (hp.imp_left fun hp => h.used i p hp)
  · dsimp only at hp
    rw [hchain, List.mem_append] at hp
    exact hp.imp_right fun hp => hfresh p hp
  · refine hother p fun hmem => ?_
    rw [hchain, List.mem_append] at hmem
    rcases hmem with hmem | hmem
    · exact hout hmem
    · exact hfresh p hmem hp
  · dsimp only
    rw [hchain, List.length_append, List.length_map]
    omega
  · dsimp only
    rw [hsize]
    split_ifs with hroom hz hz
    · omega
    · rw [← h.len]
      rfl
    · exact h.len i
    · exact absurd rfl hz
  · dsimp only at ho ⊢
    rw [hbytes o ho]
    have hold : (s.view i).byte o = if o < (s.node i).stVSize then
        byteAt cfg.bDataSize s.pramfs.ucData (s.node i).plineBStart o else 0 := by
      split_ifs with hlt
      · exact h.byte i o hlt
      · exact (s.view i).zero o (by rw [h.len]; omega)
    by_cases hroom : Room cfg s.pramfs (s.node i) (stOft + n) given
    · rw [if_pos hroom, if_neg (by omega)]
      simp only [hroom, true_and]
      rw [← hold]
      rfl
    · rw [if_neg hroom, if_pos rfl, if_neg fun hall => hroom hall.1]
      exact hold

theorem unlinkLoop_spec (l : List ℕ) (pramfs : RamVolume) : ∃ used, unlinkLoop l pramfs =
      { pramfs with used, ulCurBlk := pramfs.ulCurBlk - l.length } ∧
    ∀ p ∈ pramfs.used, p ∉ l → p ∈ used := by
  induction l generalizing pramfs with
  | nil => exact ⟨pramfs.used, rfl, fun p hp _ => hp⟩
  | cons q l ih =>
    obtain ⟨used, heq, hused⟩ :=
      ih { pramfs with used := pramfs.used.erase q, ulCurBlk := pramfs.ulCurBlk - 1 }
    refine ⟨used, ?_, fun p hp hmem => hused p ?_ fun hl => hmem (List.mem_cons_of_mem _ hl)⟩
    · rw [unlinkLoop, heq, List.length_cons]
      dsimp only
      rw [Nat.sub_sub, Nat.add_comm 1]
    · exact Finset.mem_erase.mpr ⟨fun heq => hmem (heq ▸ List.mem_cons_self), hp⟩

theorem linked_ramMaken : Linked ramMaken :=
  ⟨List.nodup_nil, rfl, rfl, (fun p hp => by cases hp), le_rfl⟩

theorem RamInv.unlink (h : RamInv cfg s) :
    RamInv cfg (s.set i (unlinkLoop (s.node i).plineBStart s.pramfs, ramMaken) .empty) := by
  obtain ⟨used, heq, hused⟩ := unlinkLoop_spec (s.node i).plineBStart s.pramfs
  have hle := h.cnt_le i
  rw [(h.node i).cnt] at hle
  have hcur := h.cur_le
  rw [heq]
  refine h.set linked_ramMaken (fun p hp => by cases hp) hused (fun p hp => by cases hp)
    (fun _ _ _ => rfl) ?_ ?_ rfl rfl (fun o ho => by cases ho)
  · dsimp only [ramMaken, List.length_nil]
    omega
  · dsimp only
    omega

theorem RamInv.step (h : RamInv cfg s) {e : RamEvent ι} (hok : StepOk cfg s e)
    (hs : s.step cfg e = some s') : RamInv cfg s' := by
  cases e with
  | write i pvBuffer stNBytes stOft given =>
    simp only [RamSys.step, Option.ite_none_right_eq_some, Option.some.injEq] at hs
    obtain ⟨⟨hn, -, -, hnodup, hnew⟩, rfl⟩ := hs
    exact h.write hok hn hnodup hnew
  | read i stSize stOft =>
    simp only [RamSys.step, Option.ite_none_right_eq_some, Option.some.injEq] at hs
    obtain ⟨hoft, rfl⟩ := hs
    exact h.read hoft
  | truncate i stOft =>
    obtain rfl := Option.some.inj hs
    exact h.truncate hok
  | increase i stNewSize =>
    obtain rfl := Option.some.inj hs
    exact h.increase hok
  | seek i oftOffset =>
    obtain rfl := Option.some.inj hs
    exact h.seek hok
  | unlink i =>
    obtain rfl := Option.some.inj hs
    exact h.unlink

omit [DecidableEq ι] in
theorem RamInv.init (h : s.Init cfg) : RamInv cfg s := by
  obtain ⟨ucData, ulMaxBlk, hmax, rfl⟩ := h
  refine ⟨fun _ => linked_ramMaken, fun _ p hp => ?_, fun _ _ _ p hp => ?_, ?_, Nat.zero_le _, hmax,
    fun _ => rfl, fun _ o ho => ?_⟩
  · cases hp
  · cases hp
  · exact Finset.sum_const_zero.symm
  · cases ho

/-- In a run whose steps all go well, the files of a volume are arrays of bytes, and what is remembered
of their blocks is right. -/
theorem ram_safe (h : Reach (fun s e => s.step cfg e) (StepOk cfg) (Init cfg) s) : RamSafe cfg s :=
  (h.invariant (fun _ => RamInv.init) fun _ _ _ hinv hok hs => RamInv.step hinv hok hs).safe

/-- A file of three bytes that is emptied and written again. -/
theorem ram_safe_three : ∃ s : RamSys Unit, (s.view ()).read 5 1 = [8, 8] ∧
    RamSafe ⟨2040, 32, by decide⟩ s := by
  have hstart : Reach (fun s e => s.step ⟨2040, 32, by decide⟩ e) (StepOk ⟨2040, 32, by decide⟩)
      (Init ⟨2040, 32, by decide⟩) (create (ι := Unit) (fun _ _ => 0) 64) :=
    .start ⟨_, _, by decide, rfl⟩
  have hone := hstart.extend (.write () (fun _ => 7) 3 0 [⟨1, fun _ => 9⟩])
    ⟨by decide, fun _ o _ ho => absurd ho (Nat.not_lt_zero o), fun _ o _ _ _ ho _ => by
      rcases ho with ho | ho
      · exact absurd ho (Nat.not_lt_zero o)
      · exact absurd ho.2 (Nat.not_lt_zero o)⟩ rfl
  have htwo := hone.extend (.truncate () 0)
    ⟨.inr rfl, fun o _ ho => absurd ho (Nat.not_lt_zero o)⟩ rfl
  have hthree := htwo.extend (.write () (fun _ => 8) 3 0 [⟨2, fun _ => 9⟩])
    ⟨by decide, fun _ o _ ho => absurd ho (Nat.not_lt_zero o), fun _ o _ _ _ ho _ => by
      rcases ho with ho | ho
      · exact absurd ho (Nat.not_lt_zero o)
      · exact absurd ho.2 (Nat.not_lt_zero o)⟩ rfl
  exact ⟨_, rfl, ram_safe hthree⟩

/-- A byte before the first one that is written is what the block happened to hold; a byte that a
truncation has cut off comes back when the file grows; and when three blocks are cut to one, the last
block is still the third one. -/
theorem ram_dirty :
    (∃ s : RamSys Unit, Reach (fun s e => s.step ⟨2040, 32, by decide⟩ e) (fun _ _ => True)
        (Init ⟨2040, 32, by decide⟩) s ∧ (s.view ()).read 1 0 = [0] ∧
      (ramRead ⟨2040, 32, by decide⟩ s.pramfs (s.node ()) 1 0).1 = [9]) ∧
    (∃ s : RamSys Unit, Reach (fun s e => s.step ⟨2040, 32, by decide⟩ e) (fun _ _ => True)
        (Init ⟨2040, 32, by decide⟩) s ∧ (s.view ()).read 1 2 = [0] ∧
      (ramRead ⟨2040, 32, by decide⟩ s.pramfs (s.node ()) 1 2).1 = [7]) ∧
    ∃ s : RamSys Unit, Reach (fun s e => s.step ⟨2040, 32, by decide⟩ e) (fun _ _ => True)
        (Init ⟨2040, 32, by decide⟩) s ∧ (s.node ()).plineBStart = [1] ∧
      (s.node ()).plineBEnd = some 3 := by
  have hstart : Reach (fun s e => s.step ⟨2040, 32, by decide⟩ e) (fun _ _ => True)
      (Init ⟨2040, 32, by decide⟩) (create (ι := Unit) (fun _ _ => 0) 64) :=
    .start ⟨_, _, by decide, rfl⟩
  refine ⟨?_, ?_, ?_⟩
  · have hrun := hstart.extend (.write () (fun _ => 7) 1 5 [⟨1, fun _ => 9⟩]) trivial rfl
    exact ⟨_, hrun, by decide +kernel, by decide +kernel⟩
  · have hone := hstart.extend (.write () (fun _ => 7) 3 0 [⟨1, fun _ => 9⟩]) trivial rfl
    have htwo := hone.extend (.truncate () 2) trivial rfl
    have hrun := htwo.extend (.increase () 3) trivial rfl
    exact ⟨_, hrun, by decide +kernel, by decide +kernel⟩
  · have hone := hstart.extend (.write () (fun _ => 7) 1 5000
      [⟨1, fun _ => 9⟩, ⟨2, fun _ => 9⟩, ⟨3, fun _ => 9⟩]) trivial rfl
    have hrun := hone.extend (.truncate () 1) trivial rfl
    exact ⟨_, hrun, by decide +kernel, by decide +kernel⟩

end RamSys

end SylixOS.RamFs
