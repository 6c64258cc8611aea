import SylixOS.Lib.Fault
import SylixOS.Lib.LittleEndian
import Mathlib.Algebra.BigOperators.Group.Finset.Basic
import Mathlib.Logic.Function.Basic

/-! # The partitions of a disk

A partition table has four entries. An extended entry leads to another table, which is scanned before the
entries behind it. The tables are what the disk holds: nothing says that they end.
-/

namespace SylixOS.Disk.DiskPartition
open Lib

/-- `LW_CFG_MAX_DISKPARTS`. -/
def maxDiskparts : ℕ := 10

/-- The block device: its sectors, how many there are, the results of `FIODISKINIT` and of
`__fsPartitionProb`, and the bits of a `ULONG`. -/
structure BlkDev where
  ulBytesPerSector : ℕ
  blkRd : ℕ → Option (List UInt8)
  ulNSector : ℕ
  diskInit : ℤ
  fsPartitionProb : UInt8
  w : ℕ

/-- `LW_DISKPART_NODE`. -/
structure Part where
  ulStartSector : ℕ
  ulNSector : ℕ
  bIsActive : Bool
  ucPartType : UInt8
  deriving DecidableEq, Repr

/-- An entry of a table on the disk. -/
structure Entry where
  ucActiveFlag : UInt8
  ucPartType : UInt8
  startSector : ℕ
  nSector : ℕ
  deriving DecidableEq, Repr

/-- `LW_DISK_PART_IS_EXTENDED`. -/
def Entry.isExtended (e : Entry) : Bool := [0x05, 0x0f, 0x15, 0x1f, 0x85].contains e.ucPartType

/-- `LW_DISK_PART_IS_VALID`. -/
def Entry.isValid (e : Entry) : Bool := !e.isExtended && e.ucPartType != 0

/-- The `i`-th entry of a sector. -/
def entry (pucBuffer : List UInt8) (i : ℕ) : Entry :=
  let iPartInfoStart := 446 + i * 16
  { ucActiveFlag := pucBuffer.getD iPartInfoStart 0
    ucPartType := pucBuffer.getD (iPartInfoStart + 4) 0
    startSector := LittleEndian.dec ((pucBuffer.drop (iPartInfoStart + 8)).take 4)
    nSector := LittleEndian.dec ((pucBuffer.drop (iPartInfoStart + 12)).take 4) }

/-- `DPT_dpoLogic`. -/
abbrev Table := ℕ → Option Part

/-- Where a scan is: `ulStartSector` and `ulExtStartSector`. -/
structure Pos where
  ulStartSector : ℕ
  ulExtStartSector : ℕ
  deriving DecidableEq, Repr

variable (blk : BlkDev)

/-- The entries of the table in a sector, if it is read and has the end mark. There is memory for the
sector. -/
def BlkDev.entries (ulStartSector : ℕ) : Option (List Entry) := do
  let pucBuffer ← blk.blkRd ulStartSector
  if pucBuffer.getD (blk.ulBytesPerSector - 2) 0 ≠ 0x55 ∨
      pucBuffer.getD (blk.ulBytesPerSector - 1) 0 ≠ 0xaa then none
  else some ((List.range 4).map (entry pucBuffer))

/-- What is written for a valid entry. -/
def BlkDev.part (ulStartSector : ℕ) (e : Entry) : Part where
  ulStartSector := (ulStartSector + e.startSector) % 2 ^ blk.w
  ulNSector := e.nSector
  bIsActive := e.ucActiveFlag = 0x80
  ucPartType := e.ucPartType

/-- Where an extended entry leads to. In the first table it says where the extended partition is, and in
the others it is relative to this place. -/
def BlkDev.follow (pos : Pos) (e : Entry) : Pos :=
  if pos.ulStartSector = 0 then
    { ulStartSector := e.startSector, ulExtStartSector := e.startSector }
  else { pos with ulStartSector := (e.startSector + pos.ulExtStartSector) % 2 ^ blk.w }

/-- The number of partitions that is returned (none is `PX_ERROR`), and the table. -/
abbrev Scanned := Except Fault (Option ℕ × Table)

/-- The loop of `__diskPartitionScan` over the entries that are left. -/
def scanEntries (scan : ℕ → Pos → Table → Scanned) : List Entry → ℕ → Pos → Table → Scanned
  | [], uiCounter, _, pdpt => .ok (if uiCounter = 0 then none else some uiCounter, pdpt)
  | e :: es, uiCounter, pos, pdpt =>
    if e.isValid then
      if uiCounter < maxDiskparts then
        let pdpt := Function.update pdpt uiCounter (some (blk.part pos.ulStartSector e))
        let uiCounter := uiCounter + 1
        if maxDiskparts ≤ uiCounter then .ok (some uiCounter, pdpt)
        else scanEntries scan es uiCounter pos pdpt
      else .error .range
    else if e.isExtended then do
      let pos := blk.follow pos e
      match ← scan uiCounter pos pdpt with
      | (none, pdpt) => .ok (some uiCounter, pdpt)
      | (some uiCounter, pdpt) =>
        if maxDiskparts ≤ uiCounter then .ok (some uiCounter, pdpt)
        else scanEntries scan es uiCounter pos pdpt
    else if maxDiskparts ≤ uiCounter then .ok (some uiCounter, pdpt)
    else scanEntries scan es uiCounter pos pdpt

/-- `__diskPartitionScan`. -/
def scan : ℕ → ℕ → Pos → Table → Scanned
  | 0, _, _, _ => .error .fuel
  | fuel + 1, uiCounter, pos, pdpt =>
    match blk.entries pos.ulStartSector with
    | none => .ok (none, pdpt)
    | some es => scanEntries blk (scan fuel) es uiCounter pos pdpt

/-- `__diskPartitionProb`: the whole disk is one partition. -/
def prob (pdptDisk : Table) : Table := Function.update pdptDisk 0
  (some { ulStartSector := 0, ulNSector := blk.ulNSector, bIsActive := false,
          ucPartType := blk.fsPartitionProb })

/-- `API_DiskPartitionScan`: the number of partitions or an error, and the table. -/
def diskPartitionScan (fuel : ℕ) : Except Fault (ℤ × Table) :=
  if blk.diskInit < 0 then .ok (blk.diskInit, fun _ => none)
  else do
    match ← scan blk fuel 0 { ulStartSector := 0, ulExtStartSector := 0 } fun _ => none with
    | (some iError, pdptDisk) => .ok (iError, pdptDisk)
    | (none, pdptDisk) => .ok (1, prob blk pdptDisk)

/-! ## The entries of a table -/

section Entries
variable {blk} {rec : ℕ → Pos → Table → Scanned} {e : Entry} {es : List Entry} {c n fuel : ℕ} {pos : Pos}
  {t t' : Table} {r : Option ℕ × Table}

theorem Entry.not_valid (h : e.isExtended) : ¬ e.isValid := by simp [Entry.isValid, h]

/-- The table, with the partition of a valid entry. -/
def put (blk : BlkDev) (pos : Pos) (e : Entry) (c : ℕ) (t : Table) : Table :=
  Function.update t c (some (blk.part pos.ulStartSector e))

theorem scanEntries_valid (h : e.isValid) (hc : c < maxDiskparts) :
    scanEntries blk rec (e :: es) c pos t =
      if maxDiskparts ≤ c + 1 then .ok (some (c + 1), put blk pos e c t)
      else scanEntries blk rec es (c + 1) pos (put blk pos e c t) := by
  rw [scanEntries, if_pos h, if_pos hc]
  rfl

theorem scanEntries_extended (h : e.isExtended) :
    scanEntries blk rec (e :: es) c pos t = (do
      match ← rec c (blk.follow pos e) t with
      | (none, t) => .ok (some c, t)
      | (some c, t) =>
        if maxDiskparts ≤ c then .ok (some c, t)
        else scanEntries blk rec es c (blk.follow pos e) t) := by
  rw [scanEntries, if_neg (Entry.not_valid h), if_pos h]

theorem scanEntries_empty (hv : ¬ e.isValid) (he : ¬ e.isExtended) (hc : c < maxDiskparts) :
    scanEntries blk rec (e :: es) c pos t = scanEntries blk rec es c pos t := by
  rw [scanEntries, if_neg hv, if_neg he, if_neg hc.not_ge]

/-- The number of partitions grows, and there is room for all of them. -/
structure Grows (c : ℕ) (r : Scanned) : Prop where
  inRange : r ≠ .error .range
  bounds : ∀ n t, r = .ok (some n, t) → c ≤ n ∧ n ≤ maxDiskparts

theorem Grows.none : Grows c (.ok (none, t)) := ⟨nofun, nofun⟩

theorem Grows.some (hcn : c ≤ n) (hn : n ≤ maxDiskparts) : Grows c (.ok (some n, t)) := by
  refine ⟨nofun, fun m t' h => ?_⟩
  obtain rfl : n = m := by injection h with h; injection h with h; exact Option.some.inj h
  exact ⟨hcn, hn⟩

theorem Grows.mono {r : Scanned} (h : Grows n r) (hcn : c ≤ n) : Grows c r :=
  ⟨h.inRange, fun m t' hr => ⟨hcn.trans (h.bounds m t' hr).1, (h.bounds m t' hr).2⟩⟩

theorem scanEntries_grows (hrec : ∀ c < maxDiskparts, ∀ pos t, Grows c (rec c pos t))
    (hc : c < maxDiskparts) : Grows c (scanEntries blk rec es c pos t) := by
  induction es generalizing c pos t with
  | nil =>
    rw [scanEntries]
    split_ifs
    · exact .none
    · exact .some le_rfl hc.le
  | cons e es ih =>
    by_cases hv : e.isValid
    · rw [scanEntries_valid hv hc]
      split_ifs with hfull
      · exact .some (Nat.le_succ c) hc
      · exact (ih (Nat.lt_of_not_le hfull)).mono (Nat.le_succ c)
    · by_cases he : e.isExtended
      · rw [scanEntries_extended he]
        have hgrows := hrec c hc (blk.follow pos e) t
        rcases hr : rec c (blk.follow pos e) t with fault | ⟨_ | n, t'⟩
        · rw [hr] at hgrows
          exact ⟨hgrows.inRange, nofun⟩
        · exact .some le_rfl hc.le
        · obtain ⟨hcn, hn⟩ := hgrows.bounds n t' hr
          rw [ok_bind]
          dsimp only
          split_ifs with hfull
          · exact .some hcn hn
          · exact (ih (Nat.lt_of_not_le hfull)).mono hcn
      · rw [scanEntries_empty hv he hc]
        exact ih hc

theorem scan_grows (fuel : ℕ) (hc : c < maxDiskparts) (pos : Pos) (t : Table) :
    Grows c (scan blk fuel c pos t) := by
  induction fuel generalizing c pos t with
  | zero => exact ⟨nofun, nofun⟩
  | succ fuel ih =>
    rw [scan]
    cases blk.entries pos.ulStartSector with
    | none => exact .none
    | some es => exact scanEntries_grows (fun c hc pos t => ih hc pos t) hc

/-- A table is scanned in the same way if the tables behind it are. -/
theorem scanEntries_mono {rec' : ℕ → Pos → Table → Scanned}
    (hrec : ∀ c pos t r, rec c pos t = .ok r → rec' c pos t = .ok r)
    (h : scanEntries blk rec es c pos t = .ok r) : scanEntries blk rec' es c pos t = .ok r := by
  induction es generalizing c pos t with
  | nil => exact h
  | cons e es ih =>
    by_cases hv : e.isValid
    · rw [scanEntries, if_pos hv] at h ⊢
      split_ifs at h ⊢ with hc
      dsimp only at h ⊢
      split_ifs at h ⊢ with hfull
      · exact h
      · exact ih h
    · by_cases he : e.isExtended
      · rw [scanEntries_extended he] at h ⊢
        rcases hr : rec c (blk.follow pos e) t with fault | ⟨_ | n, t'⟩
        · rw [hr] at h
          cases h
        · rw [hr] at h
          rw [hrec _ _ _ _ hr]
          exact h
        · rw [hr, ok_bind] at h
          rw [hrec _ _ _ _ hr, ok_bind]
          dsimp only at h ⊢
          split_ifs at h ⊢ with hfull
          · exact h
          · exact ih h
      · rw [scanEntries, if_neg hv, if_neg he] at h ⊢
        split_ifs at h ⊢ with hfull
        · exact h
        · exact ih h

theorem scan_mono {fuel' : ℕ} (hle : fuel ≤ fuel') (h : scan blk fuel c pos t = .ok r) :
    scan blk fuel' c pos t = .ok r := by
  induction fuel generalizing fuel' c pos t r with
  | zero => cases h
  | succ fuel ih =>
    obtain ⟨fuel', rfl⟩ := Nat.exists_eq_add_of_lt hle
    rw [scan] at h ⊢
    cases hes : blk.entries pos.ulStartSector with
    | none =>
      rw [hes] at h
      exact h
    | some es =>
      rw [hes] at h
      exact scanEntries_mono (fun c pos t r hr => ih (by omega) hr) h

/-- The partitions of the valid entries of a table. -/
def BlkDev.parts (ulStartSector : ℕ) (es : List Entry) : List Part :=
  (es.filter Entry.isValid).map (blk.part ulStartSector)

theorem parts_length (ulStartSector : ℕ) (es : List Entry) :
    (blk.parts ulStartSector es).length = es.countP Entry.isValid := by
  rw [BlkDev.parts, List.length_map, List.countP_eq_length_filter]

/-- The table, with partitions from a place on. -/
def putAll : ℕ → List Part → Table → Table
  | _, [], t => t
  | c, p :: ps, t => putAll (c + 1) ps (Function.update t c (some p))

/-- The loop up to an extended entry. -/
theorem scanEntries_before (rec : ℕ → Pos → Table → Scanned) {before : List Entry} (es : List Entry)
    (pos : Pos) (t : Table) (hes : ∀ e ∈ before, ¬ e.isExtended)
    (hc : c < maxDiskparts)
    (hroom : c + (blk.parts pos.ulStartSector before).length ≤ maxDiskparts) :
    scanEntries blk rec (before ++ es) c pos t =
      if maxDiskparts ≤ c + (blk.parts pos.ulStartSector before).length then
        .ok (some maxDiskparts, putAll c (blk.parts pos.ulStartSector before) t)
      else scanEntries blk rec es (c + (blk.parts pos.ulStartSector before).length) pos
        (putAll c (blk.parts pos.ulStartSector before) t) := by
  induction before generalizing c t with
  | nil =>
    have hnil : blk.parts pos.ulStartSector [] = [] := rfl
    rw [hnil, List.length_nil, Nat.add_zero, if_neg hc.not_ge]
    rfl
  | cons e before ih =>
    obtain ⟨hfirst, hrest⟩ := List.forall_mem_cons.mp hes
    by_cases hv : e.isValid
    · have hparts : blk.parts pos.ulStartSector (e :: before) =
          blk.part pos.ulStartSector e :: blk.parts pos.ulStartSector before := by
        rw [BlkDev.parts, List.filter_cons_of_pos hv]
        rfl
      rw [hparts, List.length_cons] at hroom ⊢
      rw [List.cons_append, scanEntries_valid hv hc, putAll]
      by_cases hfull : maxDiskparts ≤ c + 1
      · -- this was the last place, and nothing is behind it
        have hnil : blk.parts pos.ulStartSector before = [] :=
          List.length_eq_zero_iff.mp (by omega)
        have heq : c + 1 = maxDiskparts := Nat.le_antisymm hc hfull
        rw [if_pos hfull, hnil, List.length_nil, Nat.zero_add, if_pos hfull, heq]
        rfl
      · rw [if_neg hfull, ih _ hrest (Nat.lt_of_not_le hfull) (by omega), Nat.add_right_comm,
          Nat.add_assoc]
        rfl
    · have hparts : blk.parts pos.ulStartSector (e :: before) =
          blk.parts pos.ulStartSector before := by
        rw [BlkDev.parts, List.filter_cons_of_neg hv]
        rfl
      rw [hparts] at hroom ⊢
      rw [List.cons_append, scanEntries_empty hv hfirst hc]
      exact ih _ hrest hc hroom

end Entries

/-! ## Chains of tables -/

/-- Where the scan is behind these entries. -/
def BlkDev.followAll (pos : Pos) (es : List Entry) : Pos :=
  es.foldl (fun pos e => if e.isExtended then blk.follow pos e else pos) pos

/-- An extended entry of a table leads to the next one, and so many valid entries are in front of it. -/
def BlkDev.Link (pos : Pos) (n : ℕ) (pos' : Pos) : Prop :=
  ∃ before e after, blk.entries pos.ulStartSector = some (before ++ e :: after) ∧ e.isExtended ∧
    n = before.countP Entry.isValid ∧ pos' = blk.follow (blk.followAll pos before) e

/-- The link is the first of its table. -/
def BlkDev.FirstLink (pos : Pos) (n : ℕ) (pos' : Pos) : Prop :=
  ∃ before e after, blk.entries pos.ulStartSector = some (before ++ e :: after) ∧ e.isExtended ∧
    n = before.countP Entry.isValid ∧ pos' = blk.follow pos e ∧ ∀ b ∈ before, ¬ b.isExtended

/-- A chain without end from the first table on, with fewer valid entries in front of its links than the
table of partitions has room for. -/
structure Endless (link : Pos → ℕ → Pos → Prop) (f : ℕ → Pos) (n : ℕ → ℕ) : Prop where
  start : f 0 = { ulStartSector := 0, ulExtStartSector := 0 }
  link : ∀ i, link (f i) (n i) (f (i + 1))
  few : ∀ k, (Finset.range k).sum n < maxDiskparts

section Chains
variable {blk} {c : ℕ} {pos : Pos}

/-- From this table on, the scan comes to its end. -/
def Ends (blk : BlkDev) (c : ℕ) (pos : Pos) : Prop := ∀ t, ∃ fuel r, scan blk fuel c pos t = .ok r

/-- The scan comes to its end behind each extended entry, however many partitions are found before. -/
def LinksEnd (blk : BlkDev) (c : ℕ) (pos : Pos) (es : List Entry) : Prop :=
  ∀ before e after, es = before ++ e :: after → e.isExtended →
    ∀ c', c + before.countP Entry.isValid ≤ c' → c' < maxDiskparts →
      Ends blk c' (blk.follow (blk.followAll pos before) e)

theorem LinksEnd.tail {e : Entry} {es : List Entry} {c' : ℕ} (h : LinksEnd blk c pos (e :: es))
    (hc : c + [e].countP Entry.isValid ≤ c') : LinksEnd blk c' (blk.followAll pos [e]) es := by
  intro before e' after heq he' n hn hlt
  refine h (e :: before) e' after (congrArg _ heq) he' n ?_ hlt
  rw [← List.singleton_append, List.countP_append]
  omega

theorem scanEntries_ends {es : List Entry} (hc : c < maxDiskparts) (hlinks : LinksEnd blk c pos es)
    (t : Table) : ∃ fuel r, scanEntries blk (scan blk fuel) es c pos t = .ok r := by
  induction es generalizing c pos t with
  | nil => exact ⟨0, _, rfl⟩
  | cons e es ih =>
    by_cases hv : e.isValid
    · by_cases hfull : maxDiskparts ≤ c + 1
      · refine ⟨0, (some (c + 1), put blk pos e c t), ?_⟩
        rw [scanEntries_valid hv hc, if_pos hfull]
      · have htail : LinksEnd blk (c + 1) _ es :=
          hlinks.tail (Nat.add_le_add_left List.countP_le_length c)
        have hne : ¬ e.isExtended := fun he => Entry.not_valid he hv
        rw [BlkDev.followAll, List.foldl_cons, if_neg hne] at htail
        obtain ⟨fuel, r, hr⟩ := ih (Nat.lt_of_not_le hfull) htail (put blk pos e c t)
        refine ⟨fuel, r, ?_⟩
        rw [scanEntries_valid hv hc, if_neg hfull]
        exact hr
    · have hcount : c + [e].countP Entry.isValid = c := by
        rw [List.countP_cons_of_neg hv]
        rfl
      by_cases he : e.isExtended
      · have hend : Ends blk c (blk.follow pos e) := hlinks [] e es rfl he c le_rfl hc
        obtain ⟨fuel, ⟨_ | n, t'⟩, hr⟩ := hend t
        · refine ⟨fuel, (some c, t'), ?_⟩
          rw [scanEntries_extended he, hr]
          rfl
        · obtain ⟨hcn, -⟩ := (scan_grows fuel hc (blk.follow pos e) t).bounds n t' hr
          by_cases hfull : maxDiskparts ≤ n
          · refine ⟨fuel, (some n, t'), ?_⟩
            rw [scanEntries_extended he, hr, ok_bind]
            exact if_pos hfull
          · have htail := hlinks.tail (hcount.trans_le hcn)
            rw [BlkDev.followAll, List.foldl_cons, if_pos he] at htail
            obtain ⟨fuel', r, hr'⟩ := ih (Nat.lt_of_not_le hfull) htail t'
            -- the fuel of the table behind the link, and that of the entries that are left
            refine ⟨max fuel fuel', r, ?_⟩
            rw [scanEntries_extended he, scan_mono (le_max_left ..) hr, ok_bind]
            refine (if_neg hfull).trans (scanEntries_mono (fun c pos t r hr => ?_) hr')
            exact scan_mono (le_max_right ..) hr
      · have htail := hlinks.tail hcount.le
        rw [BlkDev.followAll, List.foldl_cons, if_neg he] at htail
        obtain ⟨fuel, r, hr⟩ := ih hc htail t
        refine ⟨fuel, r, ?_⟩
        rw [scanEntries_empty hv he hc]
        exact hr

/-- A scan that does not end goes on behind one of the links without an end. -/
theorem exists_link_of_not_ends (hc : c < maxDiskparts) (h : ¬ Ends blk c pos) :
    ∃ n pos' c', blk.Link pos n pos' ∧ c + n ≤ c' ∧ c' < maxDiskparts ∧ ¬ Ends blk c' pos' := by
  by_contra hnone
  push Not at hnone
  refine h fun t => ?_
  cases hes : blk.entries pos.ulStartSector with
  | none =>
    refine ⟨1, (none, t), ?_⟩
    rw [scan, hes]
  | some es =>
    have hlinks : LinksEnd blk c pos es := fun before e after heq he c' hc' hlt =>
      hnone _ _ c' ⟨before, e, after, heq ▸ hes, he, rfl, rfl⟩ hc' hlt
    obtain ⟨fuel, r, hr⟩ := scanEntries_ends hc hlinks t
    refine ⟨fuel + 1, r, ?_⟩
    rw [scan, hes]
    exact hr

theorem exists_endless (hc : c < maxDiskparts)
    (h : ¬ Ends blk c { ulStartSector := 0, ulExtStartSector := 0 }) :
    ∃ f n, Endless blk.Link f n := by
  -- the links that do not end, one behind the other
  let Stuck := {x : ℕ × Pos // x.1 < maxDiskparts ∧ ¬ Ends blk x.1 x.2}
  have hnext (x : Stuck) : ∃ n, ∃ y : Stuck, blk.Link x.1.2 n y.1.2 ∧ x.1.1 + n ≤ y.1.1 := by
    obtain ⟨n, pos', c', hlink, hle, hlt, hends⟩ := exists_link_of_not_ends x.2.1 x.2.2
    exact ⟨n, ⟨(c', pos'), hlt, hends⟩, hlink, hle⟩
  choose n next hlink hle using hnext
  let chain (i : ℕ) : Stuck := next^[i] ⟨(c, { ulStartSector := 0, ulExtStartSector := 0 }), hc, h⟩
  have hchain (i : ℕ) : chain (i + 1) = next (chain i) := Function.iterate_succ_apply' next i _
  refine ⟨fun i => (chain i).1.2, fun i => n (chain i), rfl, fun i => ?_, fun k => ?_⟩
  · rw [hchain]
    exact hlink (chain i)
  · refine lt_of_le_of_lt ?_ (chain k).2.1
    induction k with
    | zero => exact Nat.zero_le _
    | succ k ih =>
      rw [Finset.sum_range_succ, hchain]
      exact (Nat.add_le_add_right ih _).trans (hle (chain k))

/-- Along an endless chain of first links, the scan does not come to its end. -/
theorem Endless.not_ok {f : ℕ → Pos} {n : ℕ → ℕ} (h : Endless blk.FirstLink f n) (fuel i : ℕ)
    (t : Table) (r : Option ℕ × Table) :
    scan blk fuel ((Finset.range i).sum n) (f i) t ≠ .ok r := by
  induction fuel generalizing i t r with
  | zero => exact nofun
  | succ fuel ih =>
    obtain ⟨before, e, after, hes, he, hn, hpos, hbefore⟩ := h.link i
    have hfew := h.few (i + 1)
    have hsum : (Finset.range (i + 1)).sum n =
        (Finset.range i).sum n + (blk.parts (f i).ulStartSector before).length := by
      rw [Finset.sum_range_succ, hn, parts_length]
    rw [hsum] at hfew
    rw [scan, hes]
    dsimp only
    rw [scanEntries_before _ _ _ _ hbefore (h.few i) hfew.le, if_neg hfew.not_ge, scanEntries_extended he,
      ← hsum, ← hpos]
    intro hr
    rcases hstep : scan blk fuel ((Finset.range (i + 1)).sum n) (f (i + 1))
      (putAll ((Finset.range i).sum n) (blk.parts (f i).ulStartSector before) t) with fault | r'
    · rw [hstep] at hr
      cases hr
    · exact ih (i + 1) _ r' hstep

/-- In a table with one extended entry, this is the first one. -/
theorem BlkDev.Link.first {n : ℕ} {pos' : Pos} (h : blk.Link pos n pos')
    (hone : ∀ s es, blk.entries s = some es → es.countP Entry.isExtended ≤ 1) :
    blk.FirstLink pos n pos' := by
  obtain ⟨before, e, after, hes, he, hn, rfl⟩ := h
  have hcount := hone _ _ hes
  rw [List.countP_append, List.countP_cons_of_pos he] at hcount
  have hbefore : ∀ b ∈ before, ¬ b.isExtended := List.countP_eq_zero.mp (by omega)
  have hsame (es : List Entry) (hes : ∀ b ∈ es, ¬ b.isExtended) : blk.followAll pos es = pos := by
    induction es with
    | nil => rfl
    | cons b es ih =>
      obtain ⟨hb, hes⟩ := List.forall_mem_cons.mp hes
      rw [BlkDev.followAll, List.foldl_cons, if_neg hb]
      exact ih hes
  exact ⟨before, e, after, hes, he, hn, by rw [hsame before hbefore], hbefore⟩

theorem diskPartitionScan_ok : (∃ fuel r, diskPartitionScan blk fuel = .ok r) ↔ blk.diskInit < 0 ∨
    ∃ fuel r, scan blk fuel 0 { ulStartSector := 0, ulExtStartSector := 0 } (fun _ => none) =
      .ok r := by
  by_cases hinit : blk.diskInit < 0
  · exact iff_of_true ⟨0, _, if_pos hinit⟩ (.inl hinit)
  · rw [or_iff_right hinit]
    refine exists_congr fun fuel => ?_
    rw [diskPartitionScan, if_neg hinit]
    rcases scan blk fuel 0 { ulStartSector := 0, ulExtStartSector := 0 } (fun _ => none) with
      fault | ⟨_ | n, t⟩
    · exact iff_of_false (fun ⟨_, h⟩ => by cases h) (fun ⟨_, h⟩ => by cases h)
    · exact iff_of_true ⟨_, rfl⟩ ⟨_, rfl⟩
    · exact iff_of_true ⟨_, rfl⟩ ⟨_, rfl⟩

theorem diskPartitionScan_inRange (fuel : ℕ) : diskPartitionScan blk fuel ≠ .error .range := by
  have hgrows : Grows 0 (scan blk fuel 0 { ulStartSector := 0, ulExtStartSector := 0 } fun _ => none) :=
    scan_grows fuel (by decide) _ _
  rw [diskPartitionScan]
  split_ifs
  · exact nofun
  · rcases hscan : scan blk fuel 0 { ulStartSector := 0, ulExtStartSector := 0 } (fun _ => none) with
      fault | ⟨_ | n, t⟩
    · rw [hscan] at hgrows
      rw [error_bind]
      exact fun h => hgrows.inRange (congrArg _ (Except.error.inj h))
    · exact nofun
    · exact nofun

theorem diskPartitionScan_ends (h : blk.diskInit < 0 ∨ ¬ ∃ f n, Endless blk.Link f n) :
    ∃ fuel r, diskPartitionScan blk fuel = .ok r := by
  refine diskPartitionScan_ok.mpr (h.imp_right fun hnone => ?_)
  have hends : Ends blk 0 { ulStartSector := 0, ulExtStartSector := 0 } :=
    by_contra fun hends => hnone (exists_endless (by decide) hends)
  exact hends _

theorem not_endless_of_ok (h : ∃ fuel r, diskPartitionScan blk fuel = .ok r) :
    blk.diskInit < 0 ∨ ¬ ∃ f n, Endless blk.FirstLink f n := by
  refine (diskPartitionScan_ok.mp h).imp_right ?_
  rintro ⟨fuel, r, hr⟩ ⟨f, n, hendless⟩
  refine hendless.not_ok fuel 0 (fun _ => none) r ?_
  rw [hendless.start]
  exact hr

end Chains

/-- No partition is written behind the last one. The scan comes to its end if each endless chain of tables
has as many partitions as there is room for, and only if the chain of the first links is none without
them; in tables with one extended entry at most, this is the same. -/
theorem diskPartitionScan_robust (blk : BlkDev) :
    (∀ fuel, diskPartitionScan blk fuel ≠ .error .range) ∧
    ((blk.diskInit < 0 ∨ ¬ ∃ f n, Endless blk.Link f n) →
      ∃ fuel r, diskPartitionScan blk fuel = .ok r) ∧
    ((∃ fuel r, diskPartitionScan blk fuel = .ok r) →
      blk.diskInit < 0 ∨ ¬ ∃ f n, Endless blk.FirstLink f n) ∧
    ((∀ s es, blk.entries s = some es → es.countP Entry.isExtended ≤ 1) →
      ((∃ fuel r, diskPartitionScan blk fuel = .ok r) ↔
        blk.diskInit < 0 ∨ ¬ ∃ f n, Endless blk.Link f n)) := by
  refine ⟨fun fuel => diskPartitionScan_inRange fuel, diskPartitionScan_ends, not_endless_of_ok,
    fun hone => ⟨fun h => ?_, diskPartitionScan_ends⟩⟩
  refine (not_endless_of_ok h).imp_right fun hnone ⟨f, n, hendless⟩ => hnone ⟨f, n, ?_⟩
  exact ⟨hendless.start, fun i => (hendless.link i).first hone, hendless.few⟩

/-- A disk with one extended partition, which begins at the first table. -/
def selfDisk : BlkDev where
  ulBytesPerSector := 512
  blkRd _ := some (List.replicate 450 0 ++ [0x05] ++ List.replicate 59 0 ++ [0x55, 0xaa])
  ulNSector := 2048
  diskInit := 0
  fsPartitionProb := 0
  w := 32

/-- The extended entry leads back to its own table, again and again. -/
theorem diskPartitionScan_selfDisk : ¬ ∃ fuel r, diskPartitionScan selfDisk fuel = .ok r := by
  rintro ⟨fuel, r, hr⟩
  have hentries : selfDisk.entries 0 = some (⟨0, 5, 0, 0⟩ :: List.replicate 3 ⟨0, 0, 0, 0⟩) := by
    decide +kernel
  have hstuck (fuel : ℕ) : scan selfDisk fuel 0 { ulStartSector := 0, ulExtStartSector := 0 }
      (fun _ => none) = .error .fuel := by
    induction fuel with
    | zero => rfl
    | succ fuel ih =>
      rw [scan, hentries]
      dsimp only
      rw [scanEntries_extended (by decide), BlkDev.follow, if_pos rfl, ih, error_bind]
  rw [diskPartitionScan, if_neg (by decide), hstuck, error_bind] at hr
  cases hr

end SylixOS.Disk.DiskPartition
