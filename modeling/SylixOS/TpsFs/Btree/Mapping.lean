import Mathlib
import SylixOS.TpsFs.Btree.Remove
import SylixOS.Lib.Reach

/-! # The blocks of a file

The ranges of a file follow each other from logical block 0 on, and every logical block is found in the
range that was appended for it. -/

namespace SylixOS.TpsFs
open Lib

section List
variable {L A B : List (ℕ × KvValue)} {x : ℕ × KvValue} {k l : ℕ}

/-- The physical blocks of the ranges, in the order of the logical ones. -/
def blocks (L : List (ℕ × KvValue)) : List ℕ :=
  L.flatMap fun e => List.range' e.2.blkStart e.2.blkCnt

/-- The ranges follow each other from block `k` on. -/
def Tiles : ℕ → List (ℕ × KvValue) → Prop
  | _, [] => True
  | k, e :: L => e.1 = k ∧ Tiles (k + e.2.blkCnt) L

@[simp] theorem blocks_nil : blocks [] = [] := rfl

@[simp] theorem blocks_cons : blocks (x :: L) = List.range' x.2.blkStart x.2.blkCnt ++ blocks L :=
  List.flatMap_cons

@[simp] theorem blocks_append : blocks (A ++ B) = blocks A ++ blocks B := List.flatMap_append

theorem tiles_append : Tiles k (A ++ B) ↔ Tiles k A ∧ Tiles (k + (blocks A).length) B := by
  induction A generalizing k with
  | nil => simp [Tiles]
  | cons e A ih => simp [Tiles, ih, and_assoc, Nat.add_assoc]

/-- Where a range starts. -/
theorem Tiles.key (h : Tiles 0 (A ++ x :: B)) : x.1 = (blocks A).length := by
  obtain ⟨-, hkey, -⟩ := tiles_append.mp h
  rw [hkey, Nat.zero_add]

/-- The range of a logical block. -/
theorem Tiles.floor (h : Tiles 0 L) (hf : Floor l L x) (hl : l < (blocks L).length) :
    x ∈ L ∧ x.1 ≤ l ∧ l < x.1 + x.2.blkCnt ∧
      ((blocks L).drop l).take (x.1 + x.2.blkCnt - l) =
        List.range' (x.2.blkStart + (l - x.1)) (x.1 + x.2.blkCnt - l) := by
  obtain ⟨A, B, rfl, hle, hB⟩ := hf
  have hkey := h.key
  have hle' : x.1 ≤ l := by
    rcases hle with rfl | hle
    · simp [hkey]
    · exact hle
  have hlt : l < x.1 + x.2.blkCnt := by
    cases B with
    | nil => simpa [hkey] using hl
    | cons y B =>
      obtain ⟨-, -, hy, -⟩ := tiles_append.mp h
      have := hB y (.head _)
      omega
  refine ⟨by simp, hle', hlt, ?_⟩
  have hdrop : (blocks A).drop l = [] := List.drop_of_length_le (by omega)
  have hrange : (List.range' x.2.blkStart x.2.blkCnt ++ blocks B).drop (l - x.1) =
      List.range' (x.2.blkStart + (l - x.1)) (x.1 + x.2.blkCnt - l) ++ blocks B := by
    have hcnt : x.2.blkCnt - (l - x.1) = x.1 + x.2.blkCnt - l := by omega
    rw [List.drop_append_of_le_length (by rw [List.length_range']; omega), List.drop_range', hcnt,
      Nat.mul_one]
  rw [blocks_append, blocks_cons, List.drop_append, hdrop, List.nil_append, ← hkey, hrange]
  exact List.take_left' List.length_range'

/-- The search for the greatest block ends at the last range. -/
theorem Tiles.last (h : Tiles 0 L) (hf : Floor maxBlkNum L x) (hmax : (blocks L).length ≤ maxBlkNum) :
    ∃ A, L = A ++ [x] := by
  obtain ⟨A, B, rfl, -, hB⟩ := hf
  cases B with
  | nil => exact ⟨A, rfl⟩
  | cons y B =>
    rw [← List.singleton_append, ← List.append_assoc] at h
    have hkey := h.key
    have := hB y (.head _)
    simp only [blocks_append, blocks_cons, List.length_append, blocks_nil, List.length_nil]
      at hkey hmax
    omega

end List

variable {psb : SuperBlock} {t t' : Btree} {x : ℕ × KvValue} {blkStart blkCnt blkKey : ℕ}
  {blks blks' : List ℕ} {v : KvValue}

/-- The tree of a file with these physical blocks. -/
structure Btree.Maps (psb : SuperBlock) (t : Btree) (file : List ℕ) : Prop where
  ok : t.Ok psb
  tiles : Tiles 0 t.items
  blocks : blocks t.items = file
  len : file.length ≤ maxBlkNum

variable {file : List ℕ}

theorem tpsFsBtreeInit_maps (psb : SuperBlock) (inum : ℕ) : (tpsFsBtreeInit psb inum).Maps psb [] :=
  ⟨tpsFsBtreeInit_ok psb inum, trivial, rfl, Nat.zero_le _⟩

/-- The last range, or zeros when there is none. -/
theorem Btree.Maps.last (h : t.Maps psb file) :
    (t.items = [] ∧ file = [] ∧ btreeGet t maxBlkNum false = .ok (0, ⟨0, 0⟩)) ∨
    ∃ A x, t.items = A ++ [x] ∧ x.1 = (TpsFs.blocks A).length ∧
      file = TpsFs.blocks A ++ List.range' x.2.blkStart x.2.blkCnt ∧
      btreeGet t maxBlkNum false = .ok x := by
  have hblocks := h.blocks
  by_cases hnil : t.items = []
  · rw [hnil] at hblocks
    exact .inl ⟨hnil, hblocks.symm, btreeGet_nil h.ok hnil⟩
  · obtain ⟨x, hget, hf⟩ := btreeGet_spec (k := maxBlkNum) h.ok hnil
    obtain ⟨A, hA⟩ := h.tiles.last hf (hblocks ▸ h.len)
    have htiles := h.tiles
    rw [hA] at hblocks htiles
    exact .inr ⟨A, x, hA, htiles.key, by simpa using hblocks.symm, hget⟩

theorem tpsFsBtreeBlkCnt_eq (h : t.Maps psb file) : tpsFsBtreeBlkCnt t = file.length := by
  rcases h.last with ⟨-, rfl, hget⟩ | ⟨A, x, -, hkey, rfl, hget⟩
  · simp [tpsFsBtreeBlkCnt, hget]
  · simp [tpsFsBtreeBlkCnt, hget, hkey]

/-- `tpsFsBtreeGetBlk` finds the block and how many follow it in its range. -/
theorem tpsFsBtreeGetBlk_spec (h : t.Maps psb file) {l : ℕ} (hl : l < file.length) :
    ∃ x ∈ t.items, x.1 ≤ l ∧ l < x.1 + x.2.blkCnt ∧
      tpsFsBtreeGetBlk t l = .ok (x.2.blkStart + (l - x.1), x.1 + x.2.blkCnt - l) ∧
      (file.drop l).take (x.1 + x.2.blkCnt - l) =
        List.range' (x.2.blkStart + (l - x.1)) (x.1 + x.2.blkCnt - l) := by
  have hblocks := h.blocks
  have hne : t.items ≠ [] := by
    intro hnil
    rw [← hblocks, hnil] at hl
    exact absurd hl (Nat.not_lt_zero _)
  obtain ⟨x, hget, hf⟩ := btreeGet_spec (k := l) h.ok hne
  obtain ⟨hmem, hle, hlt, hrun⟩ := h.tiles.floor hf (hblocks ▸ hl)
  refine ⟨x, hmem, hle, hlt, ?_, hblocks ▸ hrun⟩
  have hout : ¬(l < x.1 ∨ x.1 + x.2.blkCnt ≤ l) := by omega
  have hcnt : x.2.blkCnt - (l - x.1) = x.1 + x.2.blkCnt - l := by omega
  simp only [tpsFsBtreeGetBlk, hget, if_neg hout, hcnt]

/-- There are no blocks behind the last one. -/
theorem tpsFsBtreeGetBlk_end (h : t.Maps psb file) {l : ℕ} (hl : file.length ≤ l) :
    tpsFsBtreeGetBlk t l = .error .btreeKeyNotfound := by
  have hblocks := h.blocks
  by_cases hnil : t.items = []
  · simp [tpsFsBtreeGetBlk, btreeGet_nil h.ok hnil]
  · obtain ⟨x, hget, A, B, heq, -, hB⟩ := btreeGet_spec (k := l) h.ok hnil
    have htiles := h.tiles
    rw [heq] at hblocks htiles
    have hkey := htiles.key
    have hout : l < x.1 ∨ x.1 + x.2.blkCnt ≤ l := by
      rw [← hblocks] at hl
      simp only [blocks_append, blocks_cons, List.length_append, List.length_range'] at hl
      omega
    simp only [tpsFsBtreeGetBlk, hget, if_pos hout]

theorem Inserted.concat {kv : ℕ × KvValue} {L L' : List (ℕ × KvValue)} (h : Inserted kv L L')
    (hle : ∀ x ∈ L, x.1 ≤ kv.1) : L' = L ++ [kv] := by
  obtain ⟨pre, post, rfl, rfl, -, hpost⟩ := h
  cases post with
  | nil => simp
  | cons y post =>
    have hy := hle y (by simp)
    exact absurd (hpost y (.head _)) (by omega)

/-- The last range has been replaced by these. -/
theorem Btree.Maps.replace {A B : List (ℕ × KvValue)} (h : t.Maps psb file) (hA : t.items = A ++ [x])
    (hok : t'.Ok psb) (hitems : t'.items = A ++ B) (hB : Tiles (TpsFs.blocks A).length B)
    (hlen : (TpsFs.blocks A ++ TpsFs.blocks B).length ≤ maxBlkNum) :
    t'.Maps psb (TpsFs.blocks A ++ TpsFs.blocks B) := by
  have htiles := h.tiles
  rw [hA, tiles_append] at htiles
  refine ⟨hok, ?_, by rw [hitems, blocks_append], hlen⟩
  rw [hitems, tiles_append, Nat.zero_add]
  exact ⟨htiles.1, hB⟩

/-- `tpsFsBtreeAppendBlk` appends the blocks to the file. -/
theorem tpsFsBtreeAppendBlk_spec (h : t.Maps psb file) (hlen : file.length + blkCnt ≤ maxBlkNum)
    (hs : tpsFsBtreeAppendBlk psb t blkStart blkCnt blks = .ok (t', blks')) :
    t'.Maps psb (file ++ List.range' blkStart blkCnt) := by
  unfold tpsFsBtreeAppendBlk at hs
  rcases h.last with ⟨hnil, rfl, hget⟩ | ⟨A, x, hA, hkey, rfl, hget⟩
  · simp only [hget, btreeSet_nil h.ok hnil] at hs
    split_ifs at hs
    · cases hs
    · obtain ⟨hok, hins⟩ := btreeInsert_spec h.ok hs
      rw [hnil] at hins
      have hitems := hins.concat nofun
      refine ⟨hok, by simp [hitems, Tiles], by simp [hitems], ?_⟩
      simpa using hlen
  · simp only [hget] at hs
    have hlen' : (blocks A ++ (List.range' x.2.blkStart x.2.blkCnt ++
        List.range' blkStart blkCnt)).length ≤ maxBlkNum := by
      simpa [Nat.add_assoc] using hlen
    have hsort := h.ok.sorted
    rw [hA, sorted_append] at hsort
    rw [List.append_assoc]
    by_cases hadj : x.2.blkStart + x.2.blkCnt = blkStart
    · rw [if_pos hadj] at hs
      obtain ⟨t₁, hset, hok, hitems⟩ := btreeSet_spec (B := [])
        (x.1, { x.2 with blkCnt := x.2.blkCnt + blkCnt }) h.ok hA
        (sorted_append.mpr ⟨hsort.1, hsort.2.1, by simpa using hsort.2.2⟩)
      rw [hset] at hs
      cases hs
      have hrange : List.range' x.2.blkStart x.2.blkCnt ++ List.range' blkStart blkCnt =
          blocks [(x.1, { x.2 with blkCnt := x.2.blkCnt + blkCnt })] := by
        rw [← hadj, List.range'_append_1]
        simp
      rw [hrange] at hlen' ⊢
      exact h.replace hA hok hitems ⟨hkey, trivial⟩ hlen'
    · rw [if_neg hadj] at hs
      obtain ⟨hok, hins⟩ := btreeInsert_spec h.ok hs
      have hitems := hins.concat fun y hy => by
        rw [hA, List.mem_append, List.mem_singleton] at hy
        rcases hy with hy | rfl
        · have := hsort.2.2 y hy x (.head _)
          simp only
          omega
        · simp
      rw [hA, List.append_assoc, List.singleton_append] at hitems
      have hrange : List.range' x.2.blkStart x.2.blkCnt ++ List.range' blkStart blkCnt =
          blocks [x, (x.1 + x.2.blkCnt, ⟨blkStart, blkCnt⟩)] := by simp
      rw [hrange] at hlen' ⊢
      exact h.replace hA hok hitems ⟨hkey, by rw [hkey], trivial⟩ hlen'

/-- `tpsFsBtreeTrunc` takes the blocks it returns off the end of the file, and none below the key. -/
theorem tpsFsBtreeTrunc_spec (h : t.Maps psb file) {freed : List ℕ}
    (hs : tpsFsBtreeTrunc psb t blkKey = .ok (t', v, freed)) : ∃ file',
      t'.Maps psb file' ∧ file = file' ++ List.range' v.blkStart v.blkCnt ∧
      (v.blkCnt = 0 ∨ blkKey ≤ file'.length) ∧ (blkKey < file.length → 0 < v.blkCnt) := by
  unfold tpsFsBtreeTrunc at hs
  rcases h.last with ⟨hnil, rfl, hget⟩ | ⟨A, x, hA, hkey, rfl, hget⟩
  · simp [hget] at hs
  · simp only [hget] at hs
    have hlen := h.len
    have hsort := h.ok.sorted
    rw [List.length_append, List.length_range'] at hlen
    rw [hA, sorted_append] at hsort
    by_cases hzero : x.2.blkCnt = 0
    · rw [if_pos hzero] at hs
      cases hs
    rw [if_neg hzero] at hs
    by_cases hle : blkKey ≤ x.1
    · rw [if_pos hle] at hs
      obtain ⟨t₁, freed', hrm, hok, hitems⟩ := btreeRemove_spec (B := []) h.ok hA
      rw [hrm] at hs
      cases hs
      have hmaps := h.replace hA hok hitems trivial (by simpa using (Nat.le_add_right _ _).trans hlen)
      rw [blocks_nil, List.append_nil] at hmaps
      exact ⟨blocks A, hmaps, rfl, .inr (hkey ▸ hle), fun _ => Nat.pos_of_ne_zero hzero⟩
    rw [if_neg hle] at hs
    by_cases hlt : blkKey < x.1 + x.2.blkCnt
    · rw [if_pos hlt] at hs
      obtain ⟨t₁, hset, hok, hitems⟩ := btreeSet_spec (B := [])
        (x.1, { x.2 with blkCnt := blkKey - x.1 }) h.ok hA
        (sorted_append.mpr ⟨hsort.1, hsort.2.1, by simpa using hsort.2.2⟩)
      rw [hset] at hs
      cases hs
      have hmaps := h.replace hA hok hitems ⟨hkey, trivial⟩ (by simp; omega)
      refine ⟨_, hmaps, ?_, .inr ?_, fun _ => ?_⟩
      · have hcnt : x.2.blkCnt = (blkKey - x.1) + (x.2.blkCnt - (blkKey - x.1)) := by omega
        simp only [blocks_cons, blocks_nil, List.append_nil, List.append_assoc]
        rw [List.range'_append_1, ← hcnt]
      · simp only [blocks_cons, blocks_nil, List.append_nil, List.length_append, List.length_range']
        omega
      · simp only
        omega
    · rw [if_neg hlt] at hs
      cases hs
      refine ⟨_, h, by simp, .inl rfl, fun hlt' => ?_⟩
      rw [List.length_append, List.length_range'] at hlt'
      omega

/-! ## Every run -/

/-- The tree of an inode, with the blocks that have been appended to the file and not taken off. -/
structure BlkMap where
  tree : Btree
  file : List ℕ

/-- A change of the tree; an append has the blocks that new nodes may get. -/
inductive MapStep where
  | append (blkStart blkCnt : ℕ) (blks : List ℕ)
  | trunc (blkKey : ℕ)

namespace BlkMap

/-- One step. Block numbers have 64 bits, so neither a range nor a file goes beyond them. -/
def next (psb : SuperBlock) (s : BlkMap) : MapStep → Option BlkMap
  | .append blkStart blkCnt blks =>
    if blkStart + blkCnt ≤ maxBlkNum ∧ s.file.length + blkCnt ≤ maxBlkNum then
      match tpsFsBtreeAppendBlk psb s.tree blkStart blkCnt blks with
      | .error _ => none
      | .ok (t, _) => some ⟨t, s.file ++ List.range' blkStart blkCnt⟩
    else none
  | .trunc blkKey =>
    match tpsFsBtreeTrunc psb s.tree blkKey with
    | .error _ => none
    | .ok (t, v, _) => some ⟨t, s.file.take (s.file.length - v.blkCnt)⟩

/-- The tree maps the file. -/
def Ok (psb : SuperBlock) (s : BlkMap) : Prop := s.tree.Maps psb s.file

/-- A new inode. -/
def Init (psb : SuperBlock) (s : BlkMap) : Prop := ∃ inum, s = ⟨tpsFsBtreeInit psb inum, []⟩

variable {s s' : BlkMap} {a : MapStep}

theorem next_ok (h : s.Ok psb) (hs : next psb s a = some s') : s'.Ok psb := by
  cases a with
  | append blkStart blkCnt blks =>
    simp only [next] at hs
    split_ifs at hs with hlen
    split at hs
    · cases hs
    · next t blks' heq =>
      cases hs
      exact tpsFsBtreeAppendBlk_spec h hlen.2 heq
  | trunc blkKey =>
    simp only [next] at hs
    split at hs
    · cases hs
    · next t v freed heq =>
      cases hs
      obtain ⟨file', hmaps, hfile, -⟩ := tpsFsBtreeTrunc_spec h heq
      have htake : s.file.take (s.file.length - v.blkCnt) = file' := by
        rw [hfile]
        simp
      exact htake ▸ hmaps

/-- In every run of appends and truncations the ranges of the tree tile the logical blocks of the file,
`tpsFsBtreeGetBlk` returns the block that was appended for a logical one and exactly how many follow it
in its range, and a truncation takes the blocks it returns off the end, none of them below its key. -/
theorem mapping_exact (h : Reach (next psb) (fun _ _ => True) (Init psb) s) :
    Tiles 0 s.tree.items ∧ Sorted s.tree.items ∧ blocks s.tree.items = s.file ∧
      tpsFsBtreeBlkCnt s.tree = s.file.length ∧
      (∀ l < tpsFsBtreeBlkCnt s.tree, ∃ x ∈ s.tree.items, x.1 ≤ l ∧ l < x.1 + x.2.blkCnt ∧
        ∃ blk, s.file[l]? = some blk ∧
          tpsFsBtreeGetBlk s.tree l = .ok (blk, x.1 + x.2.blkCnt - l) ∧
          (s.file.drop l).take (x.1 + x.2.blkCnt - l) = List.range' blk (x.1 + x.2.blkCnt - l)) ∧
      ∀ blkKey t v freed, tpsFsBtreeTrunc psb s.tree blkKey = .ok (t, v, freed) → ∃ file',
        s.file = file' ++ List.range' v.blkStart v.blkCnt ∧ (v.blkCnt = 0 ∨ blkKey ≤ file'.length) ∧
          (blkKey < s.file.length → 0 < v.blkCnt) := by
  have hmaps : s.Ok psb := by
    refine h.invariant ?_ fun s a s' hI _ hs => next_ok hI hs
    rintro _ ⟨inum, rfl⟩
    exact tpsFsBtreeInit_maps psb inum
  have hcnt := tpsFsBtreeBlkCnt_eq hmaps
  refine ⟨hmaps.tiles, hmaps.ok.sorted, hmaps.blocks, hcnt, fun l hl => ?_,
    fun blkKey t v freed ht => ?_⟩
  · obtain ⟨x, hmem, hle, hlt, hget, hrun⟩ := tpsFsBtreeGetBlk_spec hmaps (hcnt ▸ hl)
    refine ⟨x, hmem, hle, hlt, _, ?_, hget, hrun⟩
    have hhead := congrArg List.head? hrun
    have hpos : x.1 + x.2.blkCnt - l ≠ 0 := by omega
    rwa [List.head?_take, if_neg hpos, List.head?_drop, List.head?_range', if_neg hpos] at hhead
  · obtain ⟨file', -, hfile, hkey, hpos⟩ := tpsFsBtreeTrunc_spec hmaps ht
    exact ⟨file', hfile, hkey, hpos⟩

/-- Blocks of 4096 bytes. -/
def smallPsb : SuperBlock where
  secShift := 9
  blkShift := 12
  generation := 1
  dataStartBlk := 10
  logStartBlk := 3840
  logBlkCnt := 256
  bpStartBlk := 3
  bpBlkCnt := 7
  secShift_ge := secShift_ok
  secShift_le := secShift_le_blkShift
  blkShift_ge := blkShift_ok
  blkShift_lt := blkShift_small
  generation_lt := generation_small

/-- Two ranges that touch, one apart from them, and a truncation into the first. -/
def appended : List MapStep :=
  [.append 100 4 [], .append 104 2 [], .append 50 3 [], .trunc 5, .trunc 5]

def newFile : BlkMap := ⟨tpsFsBtreeInit smallPsb 20, []⟩

theorem mapping_exact_appended : ∃ s, runs (next smallPsb) newFile appended = some s ∧
    s.file = [100, 101, 102, 103, 104] ∧ tpsFsBtreeBlkCnt s.tree = s.file.length := by
  have hruns : runs (next smallPsb) newFile appended = some
      ((runs (next smallPsb) newFile appended).getD newFile) := rfl
  refine ⟨_, hruns, rfl, ?_⟩
  exact (mapping_exact (Reach.of_runs (.start ⟨20, rfl⟩) hruns)).2.2.2.1

end BlkMap

end SylixOS.TpsFs
