import SylixOS.Disk.DiskPartition
import Mathlib.Data.Nat.ModEq

/-! # What the scan reports of a disk that is laid out well

A layout is the first table and the tables behind its extended entry, each with the partitions in front of
the extended entry and behind it. After the tables of the extended entry the scan goes on with the base of
the next table instead of that of its own.
-/

namespace SylixOS.Disk.DiskPartition
open Lib

/-- The partitions of a disk, table by table. -/
inductive Layout
  | last (parts : List Part)
  | more (before : List Part) (rest : Layout) (behind : List Part)

/-- All partitions, in the order of the entries. -/
def Layout.parts : Layout → List Part
  | .last parts => parts
  | .more before rest behind => before ++ rest.parts ++ behind

/-- No partition is behind an extended entry. -/
def Layout.NoneBehind : Layout → Prop
  | .last _ => True
  | .more _ rest behind => rest.NoneBehind ∧ behind = []

/-- What an entry of the table in a sector stands for. -/
def Entry.part (ulStartSector : ℕ) (e : Entry) : Part where
  ulStartSector := ulStartSector + e.startSector
  ulNSector := e.nSector
  bIsActive := e.ucActiveFlag = 0x80
  ucPartType := e.ucPartType

/-- The entries of a table are those of the partitions, and empty ones. Every partition has a number to begin at. -/
structure Stands (blk : BlkDev) (ulStartSector : ℕ) (es : List Entry) (parts : List Part) : Prop where
  plain : ∀ e ∈ es, ¬ e.isExtended
  fits : ∀ e ∈ es, e.isValid → ulStartSector + e.startSector < 2 ^ blk.w
  parts : parts = (es.filter Entry.isValid).map (Entry.part ulStartSector)

/-- The position of the next table: where the extended partition begins, or relative to it. -/
def Entry.next (pos : Pos) (e : Entry) : Pos :=
  if pos.ulStartSector = 0 then
    { ulStartSector := e.startSector, ulExtStartSector := e.startSector }
  else { pos with ulStartSector := pos.ulExtStartSector + e.startSector }

/-- The disk has this layout from a table on. A link leads to another table. -/
inductive Holds (blk : BlkDev) : Pos → Layout → Prop
  | last {pos : Pos} {es : List Entry} {parts : List Part} (hs : pos.ulStartSector < 2 ^ blk.w)
      (hentries : blk.entries pos.ulStartSector = some es)
      (hparts : Stands blk pos.ulStartSector es parts) : Holds blk pos (.last parts)
  | more {pos : Pos} {es es' : List Entry} {e : Entry} {before behind : List Part} {rest : Layout}
      (hs : pos.ulStartSector < 2 ^ blk.w)
      (hentries : blk.entries pos.ulStartSector = some (es ++ e :: es')) (he : e.isExtended)
      (hbefore : Stands blk pos.ulStartSector es before)
      (hbehind : Stands blk pos.ulStartSector es' behind)
      (hnext : (e.next pos).ulStartSector ≠ pos.ulStartSector) (hrest : Holds blk (e.next pos) rest) :
      Holds blk pos (.more before rest behind)

/-- The partitions that are found: an error means that there is none. -/
def reported (r : Option ℕ × Table) : List (Option Part) := (List.range (r.1.getD 0)).map r.2

section Scan
variable {blk : BlkDev} {pos : Pos} {es : List Entry} {done ps : List Part} {t : Table} {l : Layout}

/-- The table begins with these partitions. -/
def Shows (t : Table) (done : List Part) : Prop := ∀ i < done.length, t i = done[i]?

theorem Shows.putAll (h : Shows t done) (ps : List Part) :
    Shows (putAll done.length ps t) (done ++ ps) := by
  induction ps generalizing t done with
  | nil => rwa [List.append_nil]
  | cons p ps ih =>
    have hone : Shows (Function.update t done.length (some p)) (done ++ [p]) := by
      intro i hi
      rw [List.length_append, List.length_singleton] at hi
      rcases (Nat.le_of_lt_succ hi).eq_or_lt with rfl | hlt
      · rw [Function.update_self, List.getElem?_concat_length]
      · rw [Function.update_of_ne hlt.ne, List.getElem?_append_left hlt, h i hlt]
    have hall := ih hone
    rwa [List.length_append, List.length_singleton, List.append_assoc, List.singleton_append] at hall

theorem Stands.parts_eq (h : Stands blk pos.ulStartSector es ps) :
    blk.parts pos.ulStartSector es = ps := by
  rw [h.parts]
  refine List.map_congr_left fun e he => ?_
  obtain ⟨hmem, hvalid⟩ := List.mem_filter.mp he
  rw [BlkDev.part, Nat.mod_eq_of_lt (h.fits e hmem hvalid)]
  rfl

theorem Stands.parts_length (h : Stands blk pos.ulStartSector es ps) (s : ℕ) :
    (blk.parts s es).length = ps.length := by
  rw [DiskPartition.parts_length, h.parts, List.length_map, List.countP_eq_length_filter]

/-- With another base, a partition seems to begin elsewhere. -/
theorem Stands.parts_eq_iff (h : Stands blk pos.ulStartSector es ps) {s : ℕ} (hs : s < 2 ^ blk.w)
    (hpos : pos.ulStartSector < 2 ^ blk.w) (hne : s ≠ pos.ulStartSector) :
    blk.parts s es = ps ↔ ps = [] := by
  rw [h.parts, BlkDev.parts]
  constructor
  · intro heq
    cases hes : es.filter Entry.isValid with
    | nil => rfl
    | cons e es' =>
      rw [hes, List.map_cons, List.map_cons] at heq
      injection heq with hpart
      have hstart := congrArg Part.ulStartSector hpart
      obtain ⟨hmem, hvalid⟩ := List.mem_filter.mp (hes ▸ List.mem_cons_self : e ∈ es.filter _)
      have hfits := h.fits e hmem hvalid
      simp only [BlkDev.part, Entry.part] at hstart
      -- two bases that differ, modulo the width of a word
      have hmod : (s + e.startSector) % 2 ^ blk.w =
          (pos.ulStartSector + e.startSector) % 2 ^ blk.w := by
        rw [hstart, Nat.mod_eq_of_lt hfits]
      have hcancel := Nat.ModEq.add_right_cancel' e.startSector hmod
      rw [Nat.ModEq, Nat.mod_eq_of_lt hs, Nat.mod_eq_of_lt hpos] at hcancel
      exact absurd hcancel hne
  · intro hnil
    rw [List.map_eq_nil_iff] at hnil
    rw [hnil]
    rfl

theorem Layout.noneBehind_of_parts (h : l.parts = []) : l.NoneBehind := by
  induction l with
  | last parts => trivial
  | more before rest behind ih =>
    rw [Layout.parts, List.append_eq_nil_iff, List.append_eq_nil_iff] at h
    exact ⟨ih h.1.2, h.2⟩

theorem Entry.next_eq {e : Entry} (h : (e.next pos).ulStartSector < 2 ^ blk.w) :
    blk.follow pos e = e.next pos := by
  rw [BlkDev.follow, Entry.next]
  split_ifs with hzero
  · rfl
  · rw [Entry.next, if_neg hzero] at h
    rw [Nat.add_comm, Nat.mod_eq_of_lt h]

theorem Holds.lt (h : Holds blk pos l) : pos.ulStartSector < 2 ^ blk.w := by
  cases h with
  | last hs => exact hs
  | more hs => exact hs

/-- The entries of a table that leads to no other. -/
theorem scanEntries_last (rec : ℕ → Pos → Table → Scanned) (h : Stands blk pos.ulStartSector es ps) (s : Pos)
    (hc : done.length < maxDiskparts) (hroom : done.length + ps.length ≤ maxDiskparts)
    (hshow : Shows t done) : ∃ t', Shows t' (done ++ blk.parts s.ulStartSector es) ∧
      ∃ o : Option ℕ, o.getD 0 = done.length + ps.length ∧
        scanEntries blk rec es done.length s t = .ok (o, t') := by
  have hlen := h.parts_length s.ulStartSector
  have hscan := scanEntries_before rec [] s t h.plain hc (hlen.symm ▸ hroom)
  rw [List.append_nil, hlen] at hscan
  refine ⟨_, hshow.putAll _, ?_⟩
  rw [hscan]
  split_ifs with hfull
  · exact ⟨some maxDiskparts, Nat.le_antisymm hfull hroom, rfl⟩
  · refine ⟨_, ?_, rfl⟩
    split_ifs with hzero
    · exact hzero.symm
    · rfl

theorem append_eq_iff {a b a' b' : List Part} (ha : a.length ≤ a'.length) (hb : b.length ≤ b'.length) :
    a ++ b = a' ++ b' ↔ a = a' ∧ b = b' := by
  constructor
  · intro h
    have hlen := congrArg List.length h
    rw [List.length_append, List.length_append] at hlen
    exact List.append_inj h (by omega)
  · rintro ⟨rfl, rfl⟩
    rfl

/-- What the scan of a layout finds, behind what has been found before. -/
structure Found (done : List Part) (l : Layout) (r : Option ℕ × Table) (found : List Part) : Prop where
  shows : Shows r.2 (done ++ found)
  count : r.1.getD 0 = done.length + found.length
  le : found.length ≤ l.parts.length
  all : found = l.parts ↔ l.NoneBehind

/-- A table with no room for what is behind its first entries. -/
theorem Found.full {before behind : List Part} {rest : Layout} (hshow : Shows t (done ++ before))
    (hfull : maxDiskparts ≤ done.length + before.length)
    (hroom : done.length + (before.length + rest.parts.length + behind.length) ≤ maxDiskparts) :
    Found done (.more before rest behind) (some maxDiskparts, t) before := by
  have hnone : rest.parts = [] := List.length_eq_zero_iff.mp (by omega)
  have hnil : behind = [] := List.length_eq_zero_iff.mp (by omega)
  refine ⟨hshow, ?_, ?_, ?_⟩
  · rw [Option.getD_some]
    omega
  · rw [Layout.parts, List.length_append, List.length_append]
    omega
  · rw [Layout.parts, hnone, hnil, List.append_nil, List.append_nil]
    exact iff_of_true rfl ⟨Layout.noneBehind_of_parts hnone, rfl⟩

/-- What is found behind the extended entry comes after that of the tables that it leads to. -/
theorem Found.behind {before behind found last : List Part} {rest : Layout} {r r' : Option ℕ × Table}
    (h : Found (done ++ before) rest r found) (hlast : last.length ≤ behind.length)
    (hlast' : last = behind ↔ behind = []) (hshow : Shows r'.2 (done ++ before ++ found ++ last))
    (hcount : r'.1.getD 0 = done.length + before.length + found.length + last.length) :
    Found done (.more before rest behind) r' (before ++ (found ++ last)) := by
  have hle := h.le
  refine ⟨?_, ?_, ?_, ?_⟩
  · rwa [List.append_assoc, List.append_assoc] at hshow
  · rw [hcount, List.length_append, List.length_append]
    omega
  · rw [Layout.parts, List.length_append, List.length_append, List.length_append, List.length_append]
    omega
  · rw [Layout.parts, List.append_assoc, List.append_cancel_left_eq, append_eq_iff hle hlast, h.all,
      hlast', Layout.NoneBehind]

/-- The table is scanned on with the base of the tables that its extended entry has led to. -/
theorem Found.scanned {before behind found : List Part} {rest : Layout} {r : Option ℕ × Table}
    {rec : ℕ → Pos → Table → Scanned} {s : Pos} (h : Found (done ++ before) rest r found)
    (hbehind : Stands blk pos.ulStartSector es behind) (hs : s.ulStartSector < 2 ^ blk.w)
    (hpos : pos.ulStartSector < 2 ^ blk.w) (hne : s.ulStartSector ≠ pos.ulStartSector)
    (hroom : done.length + (before.length + rest.parts.length + behind.length) ≤ maxDiskparts) :
    ∃ r' found', (match r with
      | (none, t) => .ok (some (done.length + before.length), t)
      | (some c, t) => if maxDiskparts ≤ c then .ok (some c, t) else scanEntries blk rec es c s t) =
        Except.ok r' ∧ Found done (.more before rest behind) r' found' := by
  have hdone : (done ++ before).length = done.length + before.length := List.length_append
  have hlen : (done ++ before ++ found).length = done.length + before.length + found.length := by
    rw [List.length_append, hdone]
  have hcount := h.count
  have hle := h.le
  have hshow := h.shows
  rw [hdone] at hcount
  rcases r with ⟨_ | n, t⟩
  · rw [Option.getD_none] at hcount
    refine ⟨_, _, rfl, h.behind (Nat.zero_le _) eq_comm (by rwa [List.append_nil]) ?_⟩
    rw [Option.getD_some, List.length_nil]
    omega
  · rw [Option.getD_some] at hcount
    subst hcount
    by_cases hfull : maxDiskparts ≤ done.length + before.length + found.length
    · have hnil : behind = [] := List.length_eq_zero_iff.mp (by omega)
      exact ⟨_, _, if_pos hfull, h.behind (Nat.zero_le _) (by rw [hnil]) (by rwa [List.append_nil]) rfl⟩
    · obtain ⟨t', hshow', o, ho, hlast⟩ := scanEntries_last rec hbehind s (by omega) (by omega) hshow
      rw [hlen] at ho hlast
      have hparts := hbehind.parts_length s.ulStartSector
      refine ⟨_, _, (if_neg hfull).trans hlast,
        h.behind hparts.le (hbehind.parts_eq_iff hs hpos hne) hshow' ?_⟩
      rw [hparts]
      exact ho

/-- A table that holds a layout is scanned. The partitions that are found are those of the layout if
none is behind an extended entry, and only then. -/
theorem scan_holds (h : Holds blk pos l) (hc : done.length < maxDiskparts)
    (hroom : done.length + l.parts.length ≤ maxDiskparts) (hshow : Shows t done) :
    ∃ fuel r found, scan blk fuel done.length pos t = .ok r ∧ Found done l r found := by
  induction h generalizing done t with
  | @last pos es parts hs hentries hparts =>
    obtain ⟨t', hshow', o, ho, hscan⟩ := scanEntries_last (scan blk 0) hparts pos hc hroom
      hshow
    rw [hparts.parts_eq] at hshow'
    refine ⟨1, (o, t'), parts, ?_, hshow', ho, le_rfl, iff_of_true rfl trivial⟩
    rw [scan, hentries]
    exact hscan
  | @more pos es es' e before behind rest hs hentries he hbefore hbehind hnext hrest ih =>
    rw [Layout.parts, List.length_append, List.length_append] at hroom
    have hput := hshow.putAll before
    have hloop (fuel : ℕ) := scanEntries_before (scan blk fuel) (e :: es') pos t hbefore.plain hc
      (by rw [hbefore.parts_eq]; omega)
    rw [hbefore.parts_eq] at hloop
    by_cases hfull : maxDiskparts ≤ done.length + before.length
    · refine ⟨1, _, before, ?_, Found.full hput hfull hroom⟩
      rw [scan, hentries]
      exact (hloop 0).trans (if_pos hfull)
    · have hdone : (done ++ before).length = done.length + before.length := List.length_append
      obtain ⟨fuel, r, found, hscan, hfound⟩ := ih (by omega) (by omega) hput
      rw [hdone] at hscan
      have hstep : scan blk (fuel + 1) done.length pos t = scanEntries blk (scan blk fuel) (e :: es')
          (done.length + before.length) pos (putAll done.length before t) := by
        rw [scan, hentries]
        exact (hloop fuel).trans (if_neg hfull)
      rw [scanEntries_extended he, Entry.next_eq hrest.lt, hscan, ok_bind] at hstep
      obtain ⟨r', found', hbehind', hfound'⟩ := hfound.scanned hbehind hrest.lt hs hnext hroom
      exact ⟨fuel + 1, r', found', hstep.trans hbehind', hfound'⟩

/-- The scan reports the partitions of a disk, if none is behind an extended entry, and only then. -/
theorem scan_reports_iff (blk : BlkDev) (l : Layout)
    (h : Holds blk { ulStartSector := 0, ulExtStartSector := 0 } l)
    (hroom : l.parts.length ≤ maxDiskparts) :
    (∃ fuel r, scan blk fuel 0 { ulStartSector := 0, ulExtStartSector := 0 } (fun _ => none) = .ok r ∧
      reported r = l.parts.map some) ↔ l.NoneBehind := by
  have hshow : Shows (fun _ => none) [] := fun i hi => absurd hi (Nat.not_lt_zero i)
  obtain ⟨fuel, ⟨o, t⟩, found, hscan, hfound, ho, -, hiff⟩ := scan_holds h (by decide)
    (by rwa [List.length_nil, Nat.zero_add]) hshow
  rw [List.nil_append] at hfound
  rw [List.length_nil] at hscan ho
  have hreported : reported (o, t) = found.map some := by
    rw [reported, ho, Nat.zero_add]
    refine List.ext_getElem (by rw [List.length_map, List.length_map, List.length_range]) ?_
    intro i hi _
    rw [List.length_map, List.length_range] at hi
    rw [List.getElem_map, List.getElem_map, List.getElem_range]
    exact (hfound i hi).trans (List.getElem?_eq_getElem hi)
  rw [← hiff]
  constructor
  · rintro ⟨fuel', r, hscan', hr⟩
    have hsame := (scan_mono (le_max_left fuel fuel') hscan).symm.trans
      (scan_mono (le_max_right fuel fuel') hscan')
    obtain rfl := Except.ok.inj hsame
    exact List.map_injective_iff.mpr (Option.some_injective _) (hreported.symm.trans hr)
  · rintro rfl
    exact ⟨fuel, _, hscan, hreported⟩

end Scan

/-! ## Two disks -/

/-- The bytes of an entry with small numbers. -/
def rawEntry (ucPartType startSector nSector : UInt8) : List UInt8 :=
  [0, 0, 0, 0, ucPartType, 0, 0, 0, startSector, 0, 0, 0, nSector, 0, 0, 0]

/-- A disk with two entries in its first table, and one in the table behind that. -/
def twoTables (first second : List UInt8) : BlkDev where
  ulBytesPerSector := 512
  blkRd s :=
    if s = 0 then some (List.replicate 446 0 ++ first ++ second ++ List.replicate 32 0 ++ [0x55, 0xaa])
    else if s = 16 then
      some (List.replicate 446 0 ++ rawEntry 0x83 2 3 ++ List.replicate 48 0 ++ [0x55, 0xaa])
    else none
  ulNSector := 2048
  diskInit := 0
  fsPartitionProb := 0
  w := 32

/-- The primary partition in front of the extended one. -/
def frontDisk : BlkDev := twoTables (rawEntry 0x0b 8 4) (rawEntry 0x05 16 32)

theorem frontDisk_holds : Holds frontDisk { ulStartSector := 0, ulExtStartSector := 0 }
    (.more [⟨8, 4, false, 0x0b⟩] (.last [⟨18, 3, false, 0x83⟩]) []) := by
  have hzero : frontDisk.entries 0 =
      some ([⟨0, 0x0b, 8, 4⟩] ++ ⟨0, 0x05, 16, 32⟩ :: [⟨0, 0, 0, 0⟩, ⟨0, 0, 0, 0⟩]) := by
    decide +kernel
  have hnext : frontDisk.entries 16 = some (⟨0, 0x83, 2, 3⟩ :: List.replicate 3 ⟨0, 0, 0, 0⟩) := by
    decide +kernel
  refine .more (by decide) hzero (by decide) ⟨by decide, by decide, by decide⟩
    ⟨by decide, by decide, by decide⟩ (by decide) ?_
  exact .last (by decide) hnext ⟨by decide, by decide, by decide⟩

theorem scan_reports_frontDisk :
    (∃ fuel r, scan frontDisk fuel 0 { ulStartSector := 0, ulExtStartSector := 0 } (fun _ => none) =
      .ok r ∧ reported r = [some ⟨8, 4, false, 0x0b⟩, some ⟨18, 3, false, 0x83⟩]) ↔
      (Layout.more [⟨8, 4, false, 0x0b⟩] (.last [⟨18, 3, false, 0x83⟩]) []).NoneBehind :=
  scan_reports_iff frontDisk _ frontDisk_holds (by decide)

/-- The primary partition behind the extended one. -/
def behindDisk : BlkDev := twoTables (rawEntry 0x05 16 32) (rawEntry 0x0b 8 4)

/-- The primary partition is reported as if its entry were in the second table. -/
theorem scan_behindDisk : Holds behindDisk { ulStartSector := 0, ulExtStartSector := 0 }
      (.more [] (.last [⟨18, 3, false, 0x83⟩]) [⟨8, 4, false, 0x0b⟩]) ∧
    ((scan behindDisk 2 0 { ulStartSector := 0, ulExtStartSector := 0 } fun _ => none).map reported =
      .ok [some ⟨18, 3, false, 0x83⟩, some ⟨24, 4, false, 0x0b⟩]) ∧
    ¬ ∃ fuel r, scan behindDisk fuel 0 { ulStartSector := 0, ulExtStartSector := 0 } (fun _ => none) =
      .ok r ∧ reported r = [some ⟨18, 3, false, 0x83⟩, some ⟨8, 4, false, 0x0b⟩] := by
  have hzero : behindDisk.entries 0 =
      some ([] ++ ⟨0, 0x05, 16, 32⟩ :: [⟨0, 0x0b, 8, 4⟩, ⟨0, 0, 0, 0⟩, ⟨0, 0, 0, 0⟩]) := by
    decide +kernel
  have hnext : behindDisk.entries 16 = some (⟨0, 0x83, 2, 3⟩ :: List.replicate 3 ⟨0, 0, 0, 0⟩) := by
    decide +kernel
  have hscan : (scan behindDisk 2 0 { ulStartSector := 0, ulExtStartSector := 0 } fun _ => none).map
      reported = .ok [some ⟨18, 3, false, 0x83⟩, some ⟨24, 4, false, 0x0b⟩] := by
    decide +kernel
  refine ⟨.more (by decide) hzero (by decide) ⟨by decide, by decide, by decide⟩
    ⟨by decide, by decide, by decide⟩ (by decide) ?_, hscan, ?_⟩
  · exact .last (by decide) hnext ⟨by decide, by decide, by decide⟩
  · rintro ⟨fuel, r, hr, hreport⟩
    rcases hrun : scan behindDisk 2 0 { ulStartSector := 0, ulExtStartSector := 0 } (fun _ => none) with
      fault | r'
    · rw [hrun] at hscan
      cases hscan
    · have hsame := (scan_mono (le_max_left 2 fuel) hrun).symm.trans
        (scan_mono (le_max_right 2 fuel) hr)
      obtain rfl := Except.ok.inj hsame
      rw [hrun] at hscan
      have heq := Except.ok.inj hscan
      rw [hreport] at heq
      exact absurd heq (by decide)

end SylixOS.Disk.DiskPartition
