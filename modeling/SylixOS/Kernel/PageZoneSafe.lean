import Mathlib.Data.List.Chain
import Mathlib.Data.List.Perm.Basic
import SylixOS.Kernel.PageZone
import SylixOS.Lib.Align
import SylixOS.Lib.Reach

/-! # The page allocator keeps its zone

The segments of a zone tile its pages, no two free ones touch, each free one is in the area of its
size and nowhere else, and the pages of the free ones are counted.
-/

namespace SylixOS.Kernel
open Lib Function

/-! ## The segments of a zone -/

/-- The segments lie one after the other from one address to another. -/
def Tiles (g : VmmConf) : ℕ → List VmmPage → ℕ → Prop
  | a, [], b => a = b
  | a, p :: l, b => p.ulPageAddr = a ∧ Tiles g (a + g.bytes p.ulCount) l b

/-- One of two segments that touch is in use. -/
def NotBothFree (p q : VmmPage) : Prop := p.bUsed = true ∨ q.bUsed = true

/-- The free segments of a free area. -/
def areaOf (g : VmmConf) (i : ℕ) (l : List VmmPage) : List ℕ :=
  (l.filter fun p => !p.bUsed && g.pageFreeHashIndex p.ulCount = i).map VmmPage.cb

/-- The free areas hold the free segments, each in the area of its size. -/
def Binned (g : VmmConf) (vmfa : ℕ → FreeArea) (l : List VmmPage) : Prop :=
  ∀ i, (vmfa i).lineFreeHeader.Perm (areaOf g i l) ∧
    (vmfa i).ulCount = (vmfa i).lineFreeHeader.length

/-- The pages of the free segments. -/
def freePages (l : List VmmPage) : ℕ := (l.map fun p => if p.bUsed then 0 else p.ulCount).sum

variable {g : VmmConf} {ulAddr stSize a b n : ℕ} {l r xs ys : List VmmPage} {p q : VmmPage}
  {vmfa : ℕ → FreeArea}

theorem bytes_add (m n : ℕ) : g.bytes (m + n) = g.bytes m + g.bytes n := by
  simp [VmmConf.bytes, Nat.shiftLeft_eq, Nat.add_mul]

theorem VmmConf.bytes_mono (g : VmmConf) {m n : ℕ} (h : m ≤ n) : g.bytes m ≤ g.bytes n := by
  obtain ⟨k, rfl⟩ := Nat.exists_eq_add_of_le h
  rw [bytes_add]
  exact Nat.le_add_right _ _

theorem tiles_append : Tiles g a (l ++ r) b ↔ ∃ c, Tiles g a l c ∧ Tiles g c r b := by
  induction l generalizing a with
  | nil => simp [Tiles]
  | cons p l ih => simp [Tiles, ih, and_assoc]

@[simp] theorem freePages_nil : freePages [] = 0 := rfl

@[simp] theorem freePages_cons :
    freePages (p :: l) = (if p.bUsed then 0 else p.ulCount) + freePages l := by
  simp [freePages]

@[simp] theorem freePages_append : freePages (l ++ r) = freePages l + freePages r := by
  simp [freePages]

/-! ## Free areas -/

theorem areaOf_perm (h : xs.Perm ys) (i : ℕ) : (areaOf g i xs).Perm (areaOf g i ys) :=
  (h.filter _).map _

theorem Binned.perm (h : Binned g vmfa xs) (hxy : xs.Perm ys) : Binned g vmfa ys :=
  fun i => ⟨(h i).1.trans (areaOf_perm hxy i), (h i).2⟩

theorem areaOf_cons_used (hp : p.bUsed = true) (i : ℕ) : areaOf g i (p :: l) = areaOf g i l := by
  simp [areaOf, hp]

theorem areaOf_cons_self (hp : p.bUsed = false) :
    areaOf g (g.pageFreeHashIndex p.ulCount) (p :: l) =
      p.cb :: areaOf g (g.pageFreeHashIndex p.ulCount) l := by
  simp [areaOf, hp]

theorem areaOf_cons_other {i : ℕ} (hi : i ≠ g.pageFreeHashIndex p.ulCount) :
    areaOf g i (p :: l) = areaOf g i l := by
  simp [areaOf, hi.symm]

theorem binned_used (hp : p.bUsed = true) : Binned g vmfa (p :: l) ↔ Binned g vmfa l := by
  simp only [Binned, areaOf_cons_used hp]

theorem Binned.add {z : Zone} (h : Binned g z.vmfa l) (hp : p.bUsed = false) :
    Binned g (z.pageAddToFreeHash g p).vmfa (p :: l) := by
  intro i
  rcases eq_or_ne i (g.pageFreeHashIndex p.ulCount) with rfl | hi
  · rw [Zone.pageAddToFreeHash, areaOf_cons_self hp]
    dsimp only
    rw [update_self]
    exact ⟨(h _).1.cons _, congrArg (· + 1) (h _).2⟩
  · rw [Zone.pageAddToFreeHash, areaOf_cons_other hi]
    dsimp only
    rw [update_of_ne hi]
    exact h i

theorem Binned.del {z : Zone} (h : Binned g z.vmfa (p :: l)) (hp : p.bUsed = false) :
    Binned g (z.delFromArea (g.pageFreeHashIndex p.ulCount) p).vmfa l := by
  intro i
  rcases eq_or_ne i (g.pageFreeHashIndex p.ulCount) with rfl | hi
  · have hi := h (g.pageFreeHashIndex p.ulCount)
    rw [areaOf_cons_self hp] at hi
    have hmem : p.cb ∈ (z.vmfa (g.pageFreeHashIndex p.ulCount)).lineFreeHeader :=
      hi.1.mem_iff.mpr List.mem_cons_self
    rw [Zone.delFromArea]
    dsimp only
    rw [update_self]
    refine ⟨?_, ?_⟩
    · simpa using hi.1.erase p.cb
    · rw [List.length_erase_of_mem hmem, hi.2]
  · have hi' := h i
    rw [areaOf_cons_other hi] at hi'
    rw [Zone.delFromArea]
    dsimp only
    rw [update_of_ne hi]
    exact hi'

section Fields

variable (z : Zone) (i : ℕ) (p : VmmPage)

@[simp] theorem pageAddToFreeHash_ulAddr : (z.pageAddToFreeHash g p).ulAddr = z.ulAddr := rfl

@[simp] theorem pageAddToFreeHash_stSize : (z.pageAddToFreeHash g p).stSize = z.stSize := rfl

@[simp] theorem pageAddToFreeHash_pages : (z.pageAddToFreeHash g p).pages = z.pages := rfl

@[simp] theorem pageAddToFreeHash_ulFreePage :
    (z.pageAddToFreeHash g p).ulFreePage = z.ulFreePage := rfl

@[simp] theorem delFromArea_ulAddr : (z.delFromArea i p).ulAddr = z.ulAddr := rfl

@[simp] theorem delFromArea_stSize : (z.delFromArea i p).stSize = z.stSize := rfl

@[simp] theorem delFromArea_pages : (z.delFromArea i p).pages = z.pages := rfl

@[simp] theorem delFromArea_ulFreePage : (z.delFromArea i p).ulFreePage = z.ulFreePage := rfl

end Fields

/-! ## The invariant -/

/-- What holds between two calls of a zone of `stSize` bytes at `ulAddr`. -/
structure ZoneInv (g : VmmConf) (ulAddr stSize : ℕ) (z : Zone) : Prop where
  addr : z.ulAddr = ulAddr
  size : z.stSize = stSize
  tiles : Tiles g ulAddr z.pages (ulAddr + g.bytes (stSize >>> g.pageShift))
  apart : z.pages.IsChain NotBothFree
  cbs : (z.pages.map VmmPage.cb).Nodup
  binned : Binned g z.vmfa z.pages
  free : z.ulFreePage = freePages z.pages
  aligned : 2 ^ g.pageShift ∣ ulAddr

/-- The segments `xs` have been taken out of the free areas and of the list, between `l` and `r`;
`n` of their pages are still counted as free. -/
structure Out (g : VmmConf) (ulAddr stSize : ℕ) (z : Zone) (l xs r : List VmmPage) (n : ℤ) :
    Prop where
  addr : z.ulAddr = ulAddr
  size : z.stSize = stSize
  tiles : Tiles g ulAddr (l ++ (xs ++ r)) (ulAddr + g.bytes (stSize >>> g.pageShift))
  apartLeft : l.IsChain NotBothFree
  apartRight : r.IsChain NotBothFree
  cbs : ((xs ++ (l ++ r)).map VmmPage.cb).Nodup
  binned : Binned g z.vmfa (l ++ r)
  free : (z.ulFreePage : ℤ) = freePages l + n + freePages r
  aligned : 2 ^ g.pageShift ∣ ulAddr

section Out

variable {z z' : Zone} {k : ℤ}

/-- The list is opened somewhere. -/
theorem ZoneInv.open (h : ZoneInv g ulAddr stSize z) (hp : z.pages = l ++ r) : Out g ulAddr stSize z l [] r 0 := by
  obtain ⟨haddr, hsize, htiles, hapart, hcbs, hbinned, hfree, haligned⟩ := h
  rw [hp] at htiles hapart hcbs hbinned hfree
  rw [List.isChain_append] at hapart
  refine ⟨haddr, hsize, htiles, hapart.1, hapart.2.1, hcbs, hbinned, ?_, haligned⟩
  rw [hfree, freePages_append]
  omega

/-- The list is closed again. -/
theorem Out.close (h : Out g ulAddr stSize z l [] r k)
    (hapart : ∀ p ∈ l.getLast?, ∀ q ∈ r.head?, NotBothFree p q) (hp : z'.pages = l ++ r)
    (hvmfa : z'.vmfa = z.vmfa) (hfree : (z'.ulFreePage : ℤ) + k = z.ulFreePage)
    (haddr : z'.ulAddr = z.ulAddr) (hsize : z'.stSize = z.stSize) : ZoneInv g ulAddr stSize z' where
  addr := haddr.trans h.addr
  size := hsize.trans h.size
  tiles := by
    rw [hp]
    exact h.tiles
  apart := by
    rw [hp, List.isChain_append]
    exact ⟨h.apartLeft, h.apartRight, hapart⟩
  cbs := by
    rw [hp]
    exact h.cbs
  binned := by
    rw [hp, hvmfa]
    exact h.binned
  free := by
    have := h.free
    rw [hp, freePages_append]
    omega
  aligned := h.aligned

theorem Out.setPages (h : Out g ulAddr stSize z l xs r k) (pages : List VmmPage) :
    Out g ulAddr stSize { z with pages } l xs r k :=
  ⟨h.addr, h.size, h.tiles, h.apartLeft, h.apartRight, h.cbs, h.binned, h.free, h.aligned⟩

/-- The segments are cut or put together anew. -/
theorem Out.recut (h : Out g ulAddr stSize z l xs r k) (hxy : ∀ c d, Tiles g c xs d → Tiles g c ys d)
    (hcbs : ((xs ++ (l ++ r)).map VmmPage.cb).Nodup → ((ys ++ (l ++ r)).map VmmPage.cb).Nodup) :
    Out g ulAddr stSize z l ys r k := by
  refine ⟨h.addr, h.size, ?_, h.apartLeft, h.apartRight, hcbs h.cbs, h.binned, h.free, h.aligned⟩
  have ht := h.tiles
  rw [tiles_append] at ht ⊢
  obtain ⟨c, hl, ht⟩ := ht
  rw [tiles_append] at ht
  obtain ⟨d, hx, hr⟩ := ht
  exact ⟨c, hl, tiles_append.mpr ⟨d, hxy c d hx, hr⟩⟩

theorem perm_left (xs l r : List VmmPage) (p : VmmPage) :
    (xs ++ (l ++ [p] ++ r)).Perm (p :: xs ++ (l ++ r)) := by
  rw [List.append_assoc, List.singleton_append]
  exact (List.perm_middle.append_left xs).trans List.perm_middle

theorem perm_right (xs l r : List VmmPage) (p : VmmPage) :
    (xs ++ (l ++ p :: r)).Perm (xs ++ [p] ++ (l ++ r)) := by
  rw [List.append_assoc, List.singleton_append]
  exact List.perm_middle.append_left xs

/-- The segment to the left is taken out as well. -/
theorem Out.takeLeft (h : Out g ulAddr stSize z (l ++ [p]) xs r k) (hp : p.bUsed = false) :
    Out g ulAddr stSize (z.delFromArea (g.pageFreeHashIndex p.ulCount) p) l (p :: xs) r (k + p.ulCount) where
  addr := h.addr
  size := h.size
  tiles := by simpa using h.tiles
  apartLeft := by
    have := h.apartLeft
    rw [List.isChain_append] at this
    exact this.1
  apartRight := h.apartRight
  cbs := ((perm_left xs l r p).map _).nodup_iff.mp h.cbs
  binned := (h.binned.perm (by simp)).del hp
  free := by
    have := h.free
    simp only [freePages_append, freePages_cons, hp, freePages_nil, Bool.false_eq_true,
      if_false] at this
    rw [delFromArea_ulFreePage]
    push_cast at this
    omega
  aligned := h.aligned

/-- The segment to the right is taken out as well. -/
theorem Out.takeRight (h : Out g ulAddr stSize z l xs (p :: r) k) (hp : p.bUsed = false) :
    Out g ulAddr stSize (z.delFromArea (g.pageFreeHashIndex p.ulCount) p) l (xs ++ [p]) r (k + p.ulCount) where
  addr := h.addr
  size := h.size
  tiles := by simpa using h.tiles
  apartLeft := h.apartLeft
  apartRight := by
    have := h.apartRight
    rw [List.isChain_cons] at this
    exact this.2
  cbs := ((perm_right xs l r p).map _).nodup_iff.mp h.cbs
  binned := (h.binned.perm List.perm_middle).del hp
  free := by
    have := h.free
    simp only [freePages_cons, hp, Bool.false_eq_true, if_false] at this
    rw [delFromArea_ulFreePage]
    push_cast at this
    omega
  aligned := h.aligned

/-- A segment in use is in no free area. -/
theorem Out.takeUsedLeft (h : Out g ulAddr stSize z (l ++ [p]) xs r k) (hp : p.bUsed = true) :
    Out g ulAddr stSize z l (p :: xs) r k where
  addr := h.addr
  size := h.size
  tiles := by simpa using h.tiles
  apartLeft := by
    have := h.apartLeft
    rw [List.isChain_append] at this
    exact this.1
  apartRight := h.apartRight
  cbs := ((perm_left xs l r p).map _).nodup_iff.mp h.cbs
  binned := (binned_used hp).mp (h.binned.perm (by simp))
  free := by
    have := h.free
    simpa [hp] using this
  aligned := h.aligned

theorem Out.takeUsedRight (h : Out g ulAddr stSize z l xs (p :: r) k) (hp : p.bUsed = true) :
    Out g ulAddr stSize z l (xs ++ [p]) r k where
  addr := h.addr
  size := h.size
  tiles := by simpa using h.tiles
  apartLeft := h.apartLeft
  apartRight := by
    have := h.apartRight
    rw [List.isChain_cons] at this
    exact this.2
  cbs := ((perm_right xs l r p).map _).nodup_iff.mp h.cbs
  binned := (binned_used hp).mp (h.binned.perm List.perm_middle)
  free := by
    have := h.free
    simpa [hp] using this
  aligned := h.aligned

/-- A free segment is put back on the left. -/
theorem Out.putLeft (h : Out g ulAddr stSize z l (p :: xs) r k) (hp : p.bUsed = false)
    (hl : ∀ q ∈ l.getLast?, q.bUsed = true) :
    Out g ulAddr stSize (z.pageAddToFreeHash g p) (l ++ [p]) xs r (k - p.ulCount) where
  addr := h.addr
  size := h.size
  tiles := by simpa using h.tiles
  apartLeft := by
    rw [List.isChain_append]
    exact ⟨h.apartLeft, List.isChain_singleton _, fun q hq _ _ => .inl (hl q hq)⟩
  apartRight := h.apartRight
  cbs := ((perm_left xs l r p).map _).nodup_iff.mpr h.cbs
  binned := (h.binned.add hp).perm (by simpa using List.perm_middle.symm)
  free := by
    have := h.free
    simp only [freePages_append, freePages_cons, hp, freePages_nil, Bool.false_eq_true, if_false]
    rw [pageAddToFreeHash_ulFreePage]
    push_cast
    omega
  aligned := h.aligned

/-- A free segment is put back on the right. -/
theorem Out.putRight (h : Out g ulAddr stSize z l (xs ++ [p]) r k) (hp : p.bUsed = false)
    (hr : ∀ q ∈ r.head?, q.bUsed = true) :
    Out g ulAddr stSize (z.pageAddToFreeHash g p) l xs (p :: r) (k - p.ulCount) where
  addr := h.addr
  size := h.size
  tiles := by simpa using h.tiles
  apartLeft := h.apartLeft
  apartRight := by
    rw [List.isChain_cons]
    exact ⟨fun q hq => .inr (hr q hq), h.apartRight⟩
  cbs := ((perm_right xs l r p).map _).nodup_iff.mpr h.cbs
  binned := (h.binned.add hp).perm List.perm_middle.symm
  free := by
    have := h.free
    simp only [freePages_cons, hp, Bool.false_eq_true, if_false]
    rw [pageAddToFreeHash_ulFreePage]
    push_cast
    omega
  aligned := h.aligned

/-- A segment in use is put back on the left. -/
theorem Out.putUsed (h : Out g ulAddr stSize z l (p :: xs) r k) (hp : p.bUsed = true) :
    Out g ulAddr stSize z (l ++ [p]) xs r k where
  addr := h.addr
  size := h.size
  tiles := by simpa using h.tiles
  apartLeft := by
    rw [List.isChain_append]
    refine ⟨h.apartLeft, List.isChain_singleton _, fun q _ y hy => .inr ?_⟩
    simp only [List.head?_cons, Option.mem_def, Option.some.injEq] at hy
    rw [← hy]
    exact hp
  apartRight := h.apartRight
  cbs := ((perm_left xs l r p).map _).nodup_iff.mpr h.cbs
  binned := ((binned_used hp).mpr h.binned).perm (by simpa using List.perm_middle.symm)
  free := by
    have := h.free
    simpa [hp] using this
  aligned := h.aligned

theorem tiles_cons_cons {c d : ℕ} : Tiles g c (p :: q :: xs) d ↔
    p.ulPageAddr = c ∧ q.ulPageAddr = c + g.bytes p.ulCount ∧
      Tiles g (c + g.bytes p.ulCount + g.bytes q.ulCount) xs d := Iff.rfl

/-- A segment is cut in two, the second one in a new control block. -/
theorem Out.cut (h : Out g ulAddr stSize z l (p :: xs) r k) {m c : ℕ} (hm : m ≤ p.ulCount)
    (hc : c ∉ (p :: xs ++ (l ++ r)).map VmmPage.cb) (t : PageType) (u u' : Bool) :
    Out g ulAddr stSize z l ({ p with bUsed := u, ulCount := m } :: g.separate p c m t u' :: xs) r k := by
  refine h.recut (fun a b hab => ?_) fun hn => ?_
  · obtain ⟨rfl, hab⟩ := hab
    refine tiles_cons_cons.mpr ⟨rfl, rfl, ?_⟩
    dsimp only [VmmConf.separate]
    rw [Nat.add_assoc, ← bytes_add, Nat.add_sub_cancel' hm]
    exact hab
  · simp only [List.cons_append, List.map_cons, List.nodup_cons, List.mem_cons, not_or,
      VmmConf.separate] at hn hc ⊢
    exact ⟨⟨Ne.symm hc.1, hn.1⟩, hc.2, hn.2⟩

/-- Two segments are put together. -/
theorem Out.join (h : Out g ulAddr stSize z l (p :: q :: xs) r k) (u : Bool) :
    Out g ulAddr stSize z l ({ p with bUsed := u, ulCount := p.ulCount + q.ulCount } :: xs) r k := by
  refine h.recut (fun a b hab => ?_) fun hn => ?_
  · obtain ⟨rfl, -, hab⟩ := tiles_cons_cons.mp hab
    refine ⟨rfl, ?_⟩
    dsimp only
    rw [bytes_add, ← Nat.add_assoc]
    exact hab
  · simp only [List.cons_append, List.map_cons, List.nodup_cons, List.mem_cons, not_or] at hn ⊢
    exact ⟨hn.1.2, hn.2.2⟩

/-- A segment out of the list may be marked. -/
theorem Out.mark (h : Out g ulAddr stSize z l (p :: xs) r k) (u : Bool) :
    Out g ulAddr stSize z l ({ p with bUsed := u } :: xs) r k :=
  h.recut (fun _ _ hab => hab) fun hn => hn

end Out

/-! ## What the search finds -/

/-- A free segment of a free area with room for some pages after those that are left out. -/
structure Fits (g : VmmConf) (z : Zone) (leftNum : VmmPage → ℕ) (ulPageNum i : ℕ) (p : VmmPage) :
    Prop where
  mem : p ∈ z.pages
  isFree : p.bUsed = false
  area : g.pageFreeHashIndex p.ulCount = i
  room : ulPageNum + leftNum p ≤ p.ulCount

section Search

variable {z : Zone} (leftNum : VmmPage → ℕ) (ulPageNum : ℕ) {i : ℕ}

theorem mem_areaOf {c : ℕ} : c ∈ areaOf g i l ↔
    ∃ p ∈ l, p.bUsed = false ∧ g.pageFreeHashIndex p.ulCount = i ∧ p.cb = c := by
  simp [areaOf, and_assoc]

theorem ZoneInv.bestFit (h : ZoneInv g ulAddr stSize z) {areas : List ℕ}
    (harea : ∀ c ∈ areas, c ∈ areaOf g i z.pages) {fit : Option VmmPage}
    (hfit : ∀ p ∈ fit, Fits g z leftNum ulPageNum i p) :
    ∃ o, z.bestFit leftNum ulPageNum areas fit = some o ∧
      ∀ p ∈ o, Fits g z leftNum ulPageNum i p := by
  induction areas generalizing fit with
  | nil => exact ⟨fit, rfl, hfit⟩
  | cons c areas ih =>
    obtain ⟨p, hp, hfree, hi, rfl⟩ := mem_areaOf.mp (harea c List.mem_cons_self)
    obtain ⟨l, r, -, hcut⟩ := exists_cut h.cbs hp
    have hrest : ∀ c ∈ areas, c ∈ areaOf g i z.pages :=
      fun c hc => harea c (List.mem_cons_of_mem _ hc)
    simp only [Zone.bestFit, hcut, Option.bind_eq_bind, Option.bind_some]
    split_ifs with hroom
    · refine ih hrest fun q hq => ?_
      simp only [Option.mem_def, Option.some.injEq] at hq
      rw [← hq]
      exact ⟨hp, hfree, hi, hroom.1⟩
    · exact ih hrest hfit

theorem ZoneInv.searchAreas (h : ZoneInv g ulAddr stSize z) (areas : List ℕ) :
    ∃ o, z.searchAreas leftNum ulPageNum areas = some o ∧
      ∀ i p, o = some (i, p) → Fits g z leftNum ulPageNum i p := by
  induction areas with
  | nil => exact ⟨none, rfl, fun i p hp => by cases hp⟩
  | cons i areas ih =>
    simp only [Zone.searchAreas]
    split_ifs with hcount
    · exact ih
    · obtain ⟨fit, hfit, hfits⟩ := h.bestFit leftNum ulPageNum
        (fun c hc => (h.binned i).1.mem_iff.mp hc) (fun p (hp : p ∈ none) => by cases hp)
      simp only [hfit, Option.bind_eq_bind, Option.bind_some]
      cases fit with
      | none => exact ih
      | some p =>
        refine ⟨_, rfl, fun j q hq => ?_⟩
        simp only [Option.some.injEq, Prod.mk.injEq] at hq
        rw [← hq.1, ← hq.2]
        exact hfits p rfl

theorem ZoneInv.search (h : ZoneInv g ulAddr stSize z) :
    ∃ o, z.search g leftNum ulPageNum = some o ∧
      ∀ i p, o = some (i, p) → Fits g z leftNum ulPageNum i p :=
  h.searchAreas leftNum ulPageNum _

end Search

/-- The neighbours of a free segment are in use. -/
theorem ZoneInv.neighbours {z : Zone} (h : ZoneInv g ulAddr stSize z) (hp : z.pages = l ++ p :: r)
    (hfree : p.bUsed = false) :
    (∀ q ∈ l.getLast?, q.bUsed = true) ∧ ∀ q ∈ r.head?, q.bUsed = true := by
  have hapart := h.apart
  rw [hp, List.isChain_append, List.isChain_cons] at hapart
  refine ⟨fun q hq => ?_, fun q hq => ?_⟩
  · refine (hapart.2.2 q hq p rfl).resolve_right ?_
    simp [hfree]
  · refine (hapart.2.1.1 q hq).resolve_left ?_
    simp [hfree]

/-! ## Freeing -/

section Free

variable {z : Zone} {k : ℤ}

/-- After the merge to the left nothing free stands there. -/
theorem Out.mergeLeft (h : Out g ulAddr stSize z l [p] r k) :
    ∃ z' l' p', z.mergeLeft g l p = (z', l', p') ∧
      Out g ulAddr stSize z' l' [p'] r (k + p'.ulCount - p.ulCount) ∧ (∀ q ∈ l'.getLast?, q.bUsed = true) ∧
        z'.ulFreePage = z.ulFreePage := by
  have hkeep (hl : ∀ q ∈ l.getLast?, q.bUsed = true) (heq : z.mergeLeft g l p = (z, l, p)) :
      ∃ z' l' p', z.mergeLeft g l p = (z', l', p') ∧
        Out g ulAddr stSize z' l' [p'] r (k + p'.ulCount - p.ulCount) ∧ (∀ q ∈ l'.getLast?, q.bUsed = true) ∧
          z'.ulFreePage = z.ulFreePage := by
    refine ⟨z, l, p, heq, ?_, hl, rfl⟩
    rw [Int.add_sub_cancel]
    exact h
  rcases List.eq_nil_or_concat l with rfl | ⟨l, q, rfl⟩
  · exact hkeep (fun q hq => by cases hq) rfl
  · rw [List.concat_eq_append] at *
    rcases hq : q.bUsed with _ | _
    · have hapart := h.apartLeft
      rw [List.isChain_append] at hapart
      refine ⟨z.pageDelFromFreeHash g q, l, { q with ulCount := q.ulCount + p.ulCount }, ?_, ?_, ?_,
        rfl⟩
      · simp only [Zone.mergeLeft, List.getLast?_append, List.getLast?_singleton, Option.some_or,
          hq, Bool.false_eq_true, if_false, List.dropLast_concat]
      · have hout := (h.takeLeft hq).join q.bUsed
        dsimp only
        rw [show k + ((q.ulCount + p.ulCount : ℕ) : ℤ) - p.ulCount = k + q.ulCount by
          push_cast
          omega]
        exact hout
      · intro y hy
        refine (hapart.2.2 y hy q rfl).resolve_right ?_
        simp [hq]
    · refine hkeep (fun y hy => ?_) ?_
      · simp only [List.getLast?_append, List.getLast?_singleton, Option.some_or, Option.mem_def,
          Option.some.injEq] at hy
        rw [← hy]
        exact hq
      · simp only [Zone.mergeLeft, List.getLast?_append, List.getLast?_singleton, Option.some_or,
          hq, if_true]

/-- After the merge to the right nothing free stands there. -/
theorem Out.mergeRight (h : Out g ulAddr stSize z l [p] r k) :
    ∃ z' p' r', z.mergeRight g p r = (z', p', r') ∧
      Out g ulAddr stSize z' l [p'] r' (k + p'.ulCount - p.ulCount) ∧ (∀ q ∈ r'.head?, q.bUsed = true) ∧
        z'.ulFreePage = z.ulFreePage := by
  have hkeep (hr : ∀ q ∈ r.head?, q.bUsed = true) (heq : z.mergeRight g p r = (z, p, r)) :
      ∃ z' p' r', z.mergeRight g p r = (z', p', r') ∧
        Out g ulAddr stSize z' l [p'] r' (k + p'.ulCount - p.ulCount) ∧ (∀ q ∈ r'.head?, q.bUsed = true) ∧
          z'.ulFreePage = z.ulFreePage := by
    refine ⟨z, p, r, heq, ?_, hr, rfl⟩
    rw [Int.add_sub_cancel]
    exact h
  cases r with
  | nil => exact hkeep (fun q hq => by cases hq) rfl
  | cons q r =>
    rcases hq : q.bUsed with _ | _
    · have hapart := h.apartRight
      rw [List.isChain_cons] at hapart
      refine ⟨z.pageDelFromFreeHash g q, { p with ulCount := p.ulCount + q.ulCount }, r, ?_, ?_, ?_,
        rfl⟩
      · simp only [Zone.mergeRight, hq, Bool.false_eq_true, if_false]
      · have hout := (h.takeRight hq).join p.bUsed
        dsimp only
        rw [show k + ((p.ulCount + q.ulCount : ℕ) : ℤ) - p.ulCount = k + q.ulCount by
          push_cast
          omega]
        exact hout
      · intro y hy
        refine (hapart.1 y hy).resolve_left ?_
        simp [hq]
    · refine hkeep (fun y hy => ?_) ?_
      · simp only [List.head?_cons, Option.mem_def, Option.some.injEq] at hy
        rw [← hy]
        exact hq
      · simp only [Zone.mergeRight, hq, if_true]

theorem ZoneInv.pageFree (h : ZoneInv g ulAddr stSize z) (hp : p ∈ z.pages) (hused : p.bUsed = true) :
    ∃ z', z.pageFree g p.cb = some z' ∧ ZoneInv g ulAddr stSize z' := by
  obtain ⟨l, r, hpages, hcut⟩ := exists_cut h.cbs hp
  have hout := (h.open hpages).takeUsedRight hused
  obtain ⟨z₁, l₁, p₁, h₁, hout₁, hl₁, hfree₁⟩ := hout.mergeLeft
  obtain ⟨z₂, p₂, r₂, h₂, hout₂, hr₂, hfree₂⟩ := hout₁.mergeRight
  have hput := (hout₂.mark false).putLeft rfl hl₁
  simp only [Zone.pageFree, hcut, h₁, h₂, Option.bind_eq_bind, Option.bind_some]
  refine ⟨_, rfl, hput.close (fun q hq y hy => .inr (hr₂ y hy)) ?_ rfl ?_ rfl rfl⟩
  · simp
  · simp only [pageAddToFreeHash_ulFreePage]
    push_cast
    omega

end Free

/-! ## Allocation -/

/-- The segment has the pages and the alignment asked for, and was part of a free one. -/
structure HandedOut (g : VmmConf) (z : Zone) (ulPageNum stAlign : ℕ) (p : VmmPage) : Prop where
  count : p.ulCount = ulPageNum
  align : stAlign ∣ p.ulPageAddr
  wasFree : ∃ q ∈ z.pages, q.bUsed = false ∧ q.ulPageAddr ≤ p.ulPageAddr ∧
    p.ulPageAddr + g.bytes p.ulCount ≤ q.ulPageAddr + g.bytes q.ulCount

/-- The control blocks are different ones and not those of the zone. -/
def Fresh (z : Zone) (cbs : List ℕ) : Prop := cbs.Nodup ∧ ∀ c ∈ cbs, ∀ p ∈ z.pages, p.cb ≠ c

section Allocate

variable {z : Zone} {k : ℤ} {cbs : List ℕ}

/-- What is not needed at the end is cut off and put back. -/
theorem Out.cutRight (h : Out g ulAddr stSize z l [p] r k) (hr : ∀ q ∈ r.head?, q.bUsed = true)
    (c ulPageNum : ℕ) (t : PageType) (bCut : Bool) (hnum : ulPageNum ≤ p.ulCount)
    (hc : bCut = true → c ∉ ([p] ++ (l ++ r)).map VmmPage.cb)
    (hno : bCut = false → p.ulCount = ulPageNum) :
    ∃ z' p' r', z.cutRight g l p r c ulPageNum t bCut = (z', p') ∧
      Out g ulAddr stSize z' (l ++ [p']) [] r' (k - (p.ulCount - ulPageNum)) ∧
        z'.pages = l ++ [p'] ++ r' ∧ p' = { p with bUsed := true, ulCount := ulPageNum } := by
  cases bCut with
  | true =>
    have hout : Out g ulAddr stSize z l
        ([{ p with bUsed := true, ulCount := ulPageNum }] ++ [g.separate p c ulPageNum t false]) r k :=
      h.cut hnum (hc rfl) t true false
    have hput := ((hout.setPages (l ++ { p with bUsed := true, ulCount := ulPageNum } ::
      g.separate p c ulPageNum t false :: r)).putRight rfl hr).putUsed rfl
    refine ⟨_, _, g.separate p c ulPageNum t false :: r, rfl, ?_, ?_, rfl⟩
    · rw [← Int.ofNat_sub hnum]
      exact hput
    · simp
  | false =>
    obtain rfl := hno rfl
    refine ⟨_, _, r, rfl, ?_, ?_, rfl⟩
    · have hput := ((h.mark true).setPages (l ++ { p with bUsed := true } :: r)).putUsed rfl
      rw [Int.sub_self, Int.sub_zero]
      exact hput
    · simp

/-- The list is closed after a segment that is handed out. -/
theorem Out.closeUsed (h : Out g ulAddr stSize z (l ++ [p]) [] r k) (hk : k = (n : ℤ))
    (hp : p.bUsed = true) (hpages : z.pages = l ++ [p] ++ r) :
    ZoneInv g ulAddr stSize { z with ulFreePage := z.ulFreePage - n } := by
  have hfree := h.free
  subst hk
  refine h.close (fun q hq y _ => .inl ?_) hpages rfl ?_ rfl rfl
  · simp only [List.getLast?_append, List.getLast?_singleton, Option.some_or, Option.mem_def,
      Option.some.injEq] at hq
    rw [← hq]
    exact hp
  · dsimp only
    omega

/-- What is left out at the start is cut off and put back. -/
theorem Out.cutLeft (h : Out g ulAddr stSize z l [p] r k) (hl : ∀ q ∈ l.getLast?, q.bUsed = true)
    (c ulLeft : ℕ) (hnum : ulLeft ≤ p.ulCount)
    (hc : ulLeft ≠ 0 → c ∉ ([p] ++ (l ++ r)).map VmmPage.cb) :
    ∃ z' l' p', z.cutLeft g l p r c ulLeft = (z', l', p') ∧
      Out g ulAddr stSize z' l' [p'] r (k - ulLeft) ∧
        p'.ulPageAddr = p.ulPageAddr + g.bytes ulLeft ∧ p'.ulCount = p.ulCount - ulLeft ∧
          ∀ d, (ulLeft ≠ 0 → d ≠ c) → d ∉ ([p] ++ (l ++ r)).map VmmPage.cb →
            d ∉ ([p'] ++ (l' ++ r)).map VmmPage.cb := by
  by_cases hz : ulLeft = 0
  · subst hz
    refine ⟨z, l, p, rfl, ?_, ?_, rfl, fun d _ hd => hd⟩
    · simpa using h
    · simp [VmmConf.bytes]
  · have hout := h.cut hnum (hc hz) p.iPageType false true
    have hput := (hout.setPages (l ++ { p with bUsed := false, ulCount := ulLeft } ::
      g.separate p c ulLeft p.iPageType true :: r)).putLeft rfl hl
    refine ⟨_, _, _, by rw [Zone.cutLeft, if_neg hz], hput, rfl, rfl, fun d hdc hd => ?_⟩
    simp only [List.map_append, List.map_cons, List.map_nil, List.mem_append, List.mem_cons,
      List.not_mem_nil, or_false, VmmConf.separate, not_or] at hd ⊢
    exact ⟨hdc hz, ⟨hd.2.1, hd.1⟩, hd.2.2⟩

theorem Fresh.not_mem (h : Fresh z cbs) (hp : z.pages = l ++ p :: r) {c : ℕ} (hc : c ∈ cbs) :
    c ∉ ([p] ++ (l ++ r)).map VmmPage.cb := by
  have hnot (q : VmmPage) (hq : q ∈ l ++ p :: r) : q.cb ≠ c := h.2 c hc q (hp ▸ hq)
  intro hmem
  obtain ⟨q, hq, hqc⟩ := List.mem_map.mp hmem
  refine hnot q ?_ hqc
  simp only [List.mem_append, List.mem_cons, List.not_mem_nil, or_false] at hq ⊢
  tauto

/-- The free segment that the search has found is taken out. -/
theorem ZoneInv.take (h : ZoneInv g ulAddr stSize z) {leftNum : VmmPage → ℕ} {ulPageNum i : ℕ}
    (hp : Fits g z leftNum ulPageNum i p) (hpages : z.pages = l ++ p :: r) :
    Out g ulAddr stSize (z.delFromArea i p) l [p] r p.ulCount ∧
      (∀ q ∈ l.getLast?, q.bUsed = true) ∧ ∀ q ∈ r.head?, q.bUsed = true := by
  refine ⟨?_, h.neighbours hpages hp.isFree⟩
  have hout := (h.open hpages).takeRight hp.isFree
  rw [hp.area, Int.zero_add] at hout
  exact hout

theorem ZoneInv.pageAllocate (h : ZoneInv g ulAddr stSize z) (ulPageNum : ℕ) (t : PageType)
    (hc : Fresh z cbs) :
    ∃ z' o, z.pageAllocate g ulPageNum t cbs = some (z', o) ∧ ZoneInv g ulAddr stSize z' ∧
      (o = none → z' = z) ∧ ∀ p ∈ o, p ∈ z'.pages ∧ p.bUsed = true ∧ HandedOut g z ulPageNum 1 p := by
  obtain ⟨o, ho, hfits⟩ := h.search (fun _ => 0) ulPageNum
  simp only [Zone.pageAllocate, ho, Option.bind_eq_bind, Option.bind_some]
  match o, hfits with
  | none, _ => exact ⟨z, none, rfl, h, fun _ => rfl, fun p hp => by cases hp⟩
  | some (i, p), hfits =>
    have hp := hfits i p rfl
    have hroom := hp.room
    obtain ⟨l, r, hpages, hcut⟩ := exists_cut h.cbs hp.mem
    obtain ⟨hout, hl, hr⟩ := h.take hp hpages
    have htaken : HandedOut g z ulPageNum 1 { p with bUsed := true, ulCount := ulPageNum } := by
      refine ⟨rfl, Nat.one_dvd _, p, hp.mem, hp.isFree, le_rfl, ?_⟩
      exact Nat.add_le_add_left (g.bytes_mono hroom) _
    simp only [hcut, Option.bind_some]
    by_cases hz : p.ulCount - ulPageNum ≠ 0
    · rw [if_pos hz]
      cases cbs with
      | nil => exact ⟨z, none, rfl, h, fun _ => rfl, fun p hp => by cases hp⟩
      | cons c cbs =>
        obtain ⟨z', p', r', hz', hout', hpages', rfl⟩ :=
          hout.cutRight hr c ulPageNum t true hroom
            (fun _ => hc.not_mem hpages List.mem_cons_self) nofun
        simp only [Zone.cutRight, if_true, Prod.mk.injEq, and_true] at hz'
        subst hz'
        refine ⟨_, _, rfl, hout'.closeUsed (by omega) rfl hpages', nofun, fun q hq => ?_⟩
        obtain rfl := Option.some.inj hq
        exact ⟨by simp, rfl, htaken⟩
    · rw [if_neg hz]
      obtain rfl : ulPageNum = p.ulCount := by omega
      obtain ⟨z', p', r', hz', hout', hpages', rfl⟩ :=
        hout.cutRight hr 0 p.ulCount t false le_rfl nofun fun _ => rfl
      simp only [Zone.cutRight, Bool.false_eq_true, if_false, Prod.mk.injEq, and_true] at hz'
      subst hz'
      refine ⟨_, _, rfl, hout'.closeUsed (by omega) rfl hpages', nofun, fun q hq => ?_⟩
      obtain rfl := Option.some.inj hq
      exact ⟨by simp, rfl, htaken⟩

theorem headD_mem {cs : List ℕ} (h : cs ≠ []) : cs.headD 0 ∈ cs := by
  cases cs with
  | nil => exact absurd rfl h
  | cons c cs => exact List.mem_cons_self

theorem ne_headD_of_mem_tail {cs : List ℕ} {c : ℕ} (h : cs.Nodup) (hc : c ∈ cs.tail) :
    c ≠ cs.headD 0 := by
  cases cs with
  | nil => cases hc
  | cons d cs =>
    rintro rfl
    exact (List.nodup_cons.mp h).1 hc

/-- The pages left out at the start of a segment make the rest aligned. -/
theorem align_left (j : ℕ) (hp : 2 ^ g.pageShift ∣ p.ulPageAddr) :
    2 ^ j ∣ p.ulPageAddr + g.bytes (g.leftFreePageNum (2 ^ j) p) := by
  unfold VmmConf.leftFreePageNum VmmConf.bytes
  dsimp only
  rw [Nat.and_two_pow_sub_one_eq_mod, or_mask_add_one]
  split_ifs with hmod
  · simpa using Nat.dvd_of_mod_eq_zero hmod
  · obtain ⟨hle, hdvd⟩ := dvd_align_sub hp hmod
    rw [Nat.shiftRight_eq_div_pow, Nat.shiftLeft_eq, Nat.div_mul_cancel hdvd,
      Nat.add_sub_cancel' hle]
    exact Nat.dvd_mul_left _ _

theorem ZoneInv.page_aligned (h : ZoneInv g ulAddr stSize z) (hp : p ∈ z.pages) :
    2 ^ g.pageShift ∣ p.ulPageAddr := by
  have htiles (l : List VmmPage) (a b : ℕ) (ht : Tiles g a l b) (ha : 2 ^ g.pageShift ∣ a)
      (hp : p ∈ l) : 2 ^ g.pageShift ∣ p.ulPageAddr := by
    induction l generalizing a with
    | nil => cases hp
    | cons q l ih =>
      obtain ⟨hq, ht⟩ := ht
      rcases List.mem_cons.mp hp with rfl | hp
      · exact hq ▸ ha
      · refine ih _ ht (Nat.dvd_add ha ?_) hp
        rw [VmmConf.bytes, Nat.shiftLeft_eq]
        exact Nat.dvd_mul_left _ _
  exact htiles _ _ _ h.tiles h.aligned hp

theorem ZoneInv.pageAllocateAlign (h : ZoneInv g ulAddr stSize z) (ulPageNum j : ℕ) (t : PageType)
    (hc : Fresh z cbs) :
    ∃ z' o, z.pageAllocateAlign g ulPageNum (2 ^ j) t cbs = some (z', o) ∧
      ZoneInv g ulAddr stSize z' ∧ (o = none → z' = z) ∧
        ∀ p ∈ o, p ∈ z'.pages ∧ p.bUsed = true ∧ HandedOut g z ulPageNum (2 ^ j) p := by
  obtain ⟨o, ho, hfits⟩ := h.search (g.leftFreePageNum (2 ^ j)) ulPageNum
  simp only [Zone.pageAllocateAlign, ho, Option.bind_eq_bind, Option.bind_some]
  match o, hfits with
  | none, _ => exact ⟨z, none, rfl, h, fun _ => rfl, fun p hp => by cases hp⟩
  | some (i, p), hfits =>
    have hp := hfits i p rfl
    have hroom := hp.room
    obtain ⟨l, r, hpages, hcut⟩ := exists_cut h.cbs hp.mem
    obtain ⟨hout, hl, hr⟩ := h.take hp hpages
    have halign := align_left j (h.page_aligned hp.mem)
    simp only [hcut, Option.bind_some]
    generalize g.leftFreePageNum (2 ^ j) p = ulLeft at hroom halign ⊢
    generalize hcut' : decide (p.ulCount - ulPageNum ≠ ulLeft) = bCut
    generalize hcbs' : (if ulLeft = 0 then cbs else cbs.tail) = cbsRight
    by_cases hnone : (ulLeft ≠ 0 ∧ cbs = []) ∨ (bCut = true ∧ cbsRight = [])
    · rw [if_pos hnone]
      exact ⟨z, none, rfl, h, fun _ => rfl, fun p hp => by cases hp⟩
    · rw [if_neg hnone]
      simp only [not_or, not_and] at hnone
      have hleft (hne : ulLeft ≠ 0) : cbs.headD 0 ∈ cbs := headD_mem (hnone.1 hne)
      have hright (hb : bCut = true) :
          cbsRight.headD 0 ∈ cbs ∧ (ulLeft ≠ 0 → cbsRight.headD 0 ≠ cbs.headD 0) := by
        have hmem := headD_mem (hnone.2 hb)
        subst hcbs'
        split_ifs at hmem ⊢ with hz
        · exact ⟨hmem, fun hne => absurd hz hne⟩
        · exact ⟨List.mem_of_mem_tail hmem, fun _ => ne_headD_of_mem_tail hc.1 hmem⟩
      obtain ⟨z₁, l₁, p₁, h₁, hout₁, haddr₁, hcount₁, hfresh₁⟩ :=
        hout.cutLeft hl (cbs.headD 0) ulLeft (by omega)
          fun hne => hc.not_mem hpages (hleft hne)
      obtain ⟨z₂, p₂, r₂, h₂, hout₂, hpages₂, rfl⟩ :=
        hout₁.cutRight hr (cbsRight.headD 0) ulPageNum t bCut (by omega)
          (fun hb => hfresh₁ _ (hright hb).2 (hc.not_mem hpages (hright hb).1)) fun hb => by
            rw [hb] at hcut'
            have := of_decide_eq_false hcut'
            omega
      simp only [h₁, h₂]
      refine ⟨_, _, rfl, hout₂.closeUsed (by omega) rfl hpages₂, nofun, fun q hq => ?_⟩
      obtain rfl := Option.some.inj hq
      refine ⟨by simp [hpages₂], rfl, rfl, haddr₁ ▸ halign, p, hp.mem, hp.isFree, ?_, ?_⟩
      · dsimp only
        omega
      · dsimp only
        rw [haddr₁, Nat.add_assoc, ← bytes_add]
        exact Nat.add_le_add_left (g.bytes_mono (by omega)) _

end Allocate

/-! ## Segments in use -/

section Used

variable {z : Zone} {cbs : List ℕ}

theorem ZoneInv.pageExpand (h : ZoneInv g ulAddr stSize z) (hp : p ∈ z.pages) (ulExpPageNum : ℕ)
    (hc : Fresh z cbs) :
    ∃ z' e, z.pageExpand g p.cb ulExpPageNum cbs = some (z', e) ∧ ZoneInv g ulAddr stSize z' := by
  obtain ⟨l, r, hpages, hcut⟩ := exists_cut h.cbs hp
  simp only [Zone.pageExpand, hcut, Option.bind_eq_bind, Option.bind_some]
  by_cases htype : p.iPageType ≠ .virtual
  · rw [if_pos htype]
    exact ⟨_, _, rfl, h⟩
  rw [if_neg htype]
  cases r with
  | nil => exact ⟨_, _, rfl, h⟩
  | cons q r =>
    by_cases hno : q.bUsed = true ∨ q.ulCount < ulExpPageNum
    · simp only [if_pos hno]
      exact ⟨_, _, rfl, h⟩
    simp only [if_neg hno]
    rw [not_or, Bool.not_eq_true] at hno
    have hpages' : z.pages = (l ++ [p]) ++ q :: r := by simpa using hpages
    obtain ⟨hl, hr⟩ := h.neighbours hpages' hno.1
    have hused : p.bUsed = true := hl p (by simp)
    have hout := (h.open hpages').takeRight hno.1
    by_cases hlt : ulExpPageNum < q.ulCount
    · simp only [if_pos hlt]
      cases cbs with
      | nil => exact ⟨_, _, rfl, h⟩
      | cons c cbs =>
        have hcut := hout.cut hlt.le (hc.not_mem hpages' List.mem_cons_self) q.iPageType q.bUsed false
        have hput := Out.putRight (z := { z.pageDelFromFreeHash g q with
            pages := l ++ { p with ulCount := p.ulCount + ulExpPageNum } ::
              g.separate q c ulExpPageNum q.iPageType false :: r })
          (show Out g ulAddr stSize _ (l ++ [p]) ([_] ++ [g.separate q c ulExpPageNum q.iPageType false])
            r (0 + q.ulCount) from hcut.setPages _) rfl hr
        have hjoin := ((hput.takeUsedLeft hused).join p.bUsed).putUsed hused
        refine ⟨_, _, rfl, hjoin.closeUsed ?_ hused (by simp)⟩
        simp only [VmmConf.separate]
        omega
    · simp only [if_neg hlt]
      obtain rfl : ulExpPageNum = q.ulCount := by omega
      have hjoin := ((hout.takeUsedLeft hused).join p.bUsed).putUsed hused
      refine ⟨_, _, rfl, (hjoin.setPages (l ++ { p with ulCount := p.ulCount + q.ulCount } :: r)).closeUsed
        (Int.zero_add _) hused (by simp)⟩

theorem ZoneInv.pageSplit (h : ZoneInv g ulAddr stSize z) (hp : p ∈ z.pages)
    (hused : p.bUsed = true) (ulPageNum : ℕ) (hc : Fresh z cbs) :
    ∃ z' e, z.pageSplit g p.cb ulPageNum cbs = some (z', e) ∧ ZoneInv g ulAddr stSize z' := by
  obtain ⟨l, r, hpages, hcut⟩ := exists_cut h.cbs hp
  simp only [Zone.pageSplit, hcut, Option.bind_eq_bind, Option.bind_some]
  split_ifs with htype hle
  · exact ⟨_, _, rfl, h⟩
  · exact ⟨_, _, rfl, h⟩
  · cases cbs with
    | nil => exact ⟨_, _, rfl, h⟩
    | cons c cbs =>
      have hout := (h.open hpages).takeUsedRight hused
      have hcut := hout.cut (Nat.le_of_not_le hle) (hc.not_mem hpages List.mem_cons_self)
        p.iPageType p.bUsed true
      have hput := (hcut.putUsed hused).putUsed rfl
      refine ⟨_, _, rfl, hput.close (fun q hq y _ => .inl ?_) (by simp) rfl (Int.add_zero _) rfl rfl⟩
      simp only [List.getLast?_append, List.getLast?_singleton, Option.some_or, Option.mem_def,
        Option.some.injEq] at hq
      rw [← hq]
      rfl

theorem ZoneInv.pageMerge (h : ZoneInv g ulAddr stSize z) (hpages : z.pages = l ++ p :: q :: r)
    (hp : p.bUsed = true) (hq : q.bUsed = true) :
    ∃ z' e, z.pageMerge p.cb q.cb = some (z', e) ∧ ZoneInv g ulAddr stSize z' := by
  have hcbs := h.cbs
  rw [hpages] at hcbs
  have hpages' : z.pages = (l ++ [p]) ++ q :: r := by simpa using hpages
  have hcutp : cut VmmPage.cb p.cb z.pages = some (l, p, q :: r) := by
    rw [hpages]
    exact cut_of_nodup hcbs
  have hcutq : cut VmmPage.cb q.cb z.pages = some (l ++ [p], q, r) := by
    rw [hpages']
    exact cut_of_nodup (hpages' ▸ h.cbs)
  have hcut' : cut VmmPage.cb q.cb
      (l ++ { p with ulCount := p.ulCount + q.ulCount } :: q :: r) =
        some (l ++ [{ p with ulCount := p.ulCount + q.ulCount }], q, r) := by
    rw [List.append_cons]
    refine cut_of_nodup ?_
    simpa using hcbs
  simp only [Zone.pageMerge, hcutp, hcutq, hcut', Option.bind_eq_bind, Option.bind_some]
  split_ifs with htype
  · exact ⟨_, _, rfl, h⟩
  · have hout := ((h.open hpages').takeUsedRight hq).takeUsedLeft hp
    have hput := (hout.join p.bUsed).putUsed hp
    refine ⟨_, _, rfl, hput.close (fun y hy w _ => .inl ?_) rfl rfl (Int.add_zero _) rfl rfl⟩
    simp only [List.getLast?_append, List.getLast?_singleton, Option.some_or, Option.mem_def,
      Option.some.injEq] at hy
    rw [← hy]
    exact hp

end Used

/-! ## Runs of a zone -/

/-- The operations on a zone, with the control blocks that `__pageCbAlloc` will hand out. -/
inductive ZoneOp where
  | alloc (ulPageNum : ℕ) (iPageType : PageType) (cbs : List ℕ)
  | allocAlign (ulPageNum stAlign : ℕ) (iPageType : PageType) (cbs : List ℕ)
  | free (cb : ℕ)
  | expand (cb ulExpPageNum : ℕ) (cbs : List ℕ)
  | split (cb ulPageNum : ℕ) (cbs : List ℕ)
  | merge (cbL cbR : ℕ)

namespace Zone
variable (g : VmmConf) (z : Zone)

def step : ZoneOp → Option Zone
  | .alloc ulPageNum iPageType cbs => (z.pageAllocate g ulPageNum iPageType cbs).map Prod.fst
  | .allocAlign ulPageNum stAlign iPageType cbs =>
    (z.pageAllocateAlign g ulPageNum stAlign iPageType cbs).map Prod.fst
  | .free cb => z.pageFree g cb
  | .expand cb ulExpPageNum cbs => (z.pageExpand g cb ulExpPageNum cbs).map Prod.fst
  | .split cb ulPageNum cbs => (z.pageSplit g cb ulPageNum cbs).map Prod.fst
  | .merge cbL cbR => (z.pageMerge cbL cbR).map Prod.fst

/-- What the callers keep to: an alignment is a power of two, which they check; a segment that is
freed, split or merged is one in use, and one that is expanded is one of the zone. -/
def StepOk : ZoneOp → Prop
  | .alloc _ _ cbs => Fresh z cbs
  | .allocAlign _ stAlign _ cbs => stAlign.isPowerOfTwo ∧ Fresh z cbs
  | .free cb => ∃ p ∈ z.pages, p.cb = cb ∧ p.bUsed = true
  | .expand cb _ cbs => (∃ p ∈ z.pages, p.cb = cb) ∧ Fresh z cbs
  | .split cb _ cbs => (∃ p ∈ z.pages, p.cb = cb ∧ p.bUsed = true) ∧ Fresh z cbs
  | .merge cbL cbR => ∃ l p q r, z.pages = l ++ p :: q :: r ∧ p.cb = cbL ∧ q.cb = cbR ∧
      p.bUsed = true ∧ q.bUsed = true

/-- A zone of `stSize` bytes at `ulAddr` that has just been created. -/
def Init (ulAddr stSize : ℕ) : Prop :=
  ∃ iPageType cbs, g.pageZoneCreate ulAddr stSize iPageType cbs = .ok z

/-- What is promised of a zone of `stSize` bytes at `ulAddr`. -/
structure Safe (ulAddr stSize : ℕ) : Prop where
  /-- The segments tile the pages of the zone, in the order of their addresses. -/
  tiles : Tiles g ulAddr z.pages (ulAddr + g.bytes (stSize >>> g.pageShift))
  /-- No two segments next to each other are free. -/
  apart : z.pages.IsChain fun p q => ¬ (p.bUsed = false ∧ q.bUsed = false)
  /-- A segment is in the area of its size if it is free, and in no other area. -/
  area : ∀ p ∈ z.pages, ∀ i, p.cb ∈ (z.vmfa i).lineFreeHeader ↔
    p.bUsed = false ∧ i = g.pageFreeHashIndex p.ulCount
  /-- An area holds segments of the zone, each once, and counts them. -/
  areaNodup : ∀ i, (z.vmfa i).lineFreeHeader.Nodup
  areaMem : ∀ i, ∀ cb ∈ (z.vmfa i).lineFreeHeader, ∃ p ∈ z.pages, p.cb = cb
  areaCount : ∀ i, (z.vmfa i).ulCount = (z.vmfa i).lineFreeHeader.length
  cbs : (z.pages.map VmmPage.cb).Nodup
  freePage : z.ulFreePage = freePages z.pages
  /-- What is handed out is what was asked for. -/
  alloc : ∀ ulPageNum iPageType cbs z' p, Fresh z cbs →
    z.pageAllocate g ulPageNum iPageType cbs = some (z', some p) →
      p ∈ z'.pages ∧ p.bUsed = true ∧ HandedOut g z ulPageNum 1 p
  allocAlign : ∀ ulPageNum stAlign iPageType cbs z' p, stAlign.isPowerOfTwo → Fresh z cbs →
    z.pageAllocateAlign g ulPageNum stAlign iPageType cbs = some (z', some p) →
      p ∈ z'.pages ∧ p.bUsed = true ∧ HandedOut g z ulPageNum stAlign p
  /-- No call goes astray. -/
  total : ∀ op, z.StepOk op → ∃ z', z.step g op = some z'

end Zone

section Run

variable {z z' : Zone}

theorem ZoneInv.create (haddr : 2 ^ g.pageShift ∣ ulAddr) (h : z.Init g ulAddr stSize) :
    ZoneInv g ulAddr stSize z := by
  obtain ⟨t, cbs, h⟩ := h
  cases cbs with
  | nil => cases h
  | cons c cbs =>
    simp only [VmmConf.pageZoneCreate, Except.ok.injEq] at h
    subst h
    refine ⟨rfl, rfl, ⟨rfl, rfl⟩, List.isChain_singleton _, by simp, fun i => ?_, by simp, haddr⟩
    dsimp only
    rcases eq_or_ne i (g.pageFreeHashIndex (stSize >>> g.pageShift)) with rfl | hi
    · rw [update_self]
      exact ⟨by simp [areaOf], rfl⟩
    · rw [update_of_ne hi]
      refine ⟨?_, rfl⟩
      rw [areaOf_cons_other hi]
      exact List.Perm.refl _

/-- Every allowed operation succeeds or fails, and keeps the invariant. -/
theorem ZoneInv.step (h : ZoneInv g ulAddr stSize z) (op : ZoneOp) (hok : z.StepOk op) :
    ∃ z', z.step g op = some z' ∧ ZoneInv g ulAddr stSize z' := by
  cases op with
  | alloc ulPageNum t cbs =>
    obtain ⟨z', o, heq, hz', -, -⟩ := h.pageAllocate ulPageNum t hok
    exact ⟨z', by simp [Zone.step, heq], hz'⟩
  | allocAlign ulPageNum stAlign t cbs =>
    obtain ⟨⟨j, rfl⟩, hc⟩ := hok
    obtain ⟨z', o, heq, hz', -, -⟩ := h.pageAllocateAlign ulPageNum j t hc
    exact ⟨z', by simp [Zone.step, heq], hz'⟩
  | free cb =>
    obtain ⟨p, hp, rfl, hused⟩ := hok
    exact h.pageFree hp hused
  | expand cb ulExpPageNum cbs =>
    obtain ⟨⟨p, hp, rfl⟩, hc⟩ := hok
    obtain ⟨z', e, heq, hz'⟩ := h.pageExpand hp ulExpPageNum hc
    exact ⟨z', by simp [Zone.step, heq], hz'⟩
  | split cb ulPageNum cbs =>
    obtain ⟨⟨p, hp, rfl, hused⟩, hc⟩ := hok
    obtain ⟨z', e, heq, hz'⟩ := h.pageSplit hp hused ulPageNum hc
    exact ⟨z', by simp [Zone.step, heq], hz'⟩
  | merge cbL cbR =>
    obtain ⟨l, p, q, r, hpages, rfl, rfl, hp, hq⟩ := hok
    obtain ⟨z', e, heq, hz'⟩ := h.pageMerge hpages hp hq
    exact ⟨z', by simp [Zone.step, heq], hz'⟩

theorem eq_of_cb (h : (l.map VmmPage.cb).Nodup) (hp : p ∈ l) (hq : q ∈ l) (hpq : p.cb = q.cb) :
    p = q := by
  obtain ⟨l₁, l₂, rfl⟩ := List.append_of_mem hp
  have hcutp := cut_of_nodup h
  obtain ⟨r₁, r₂, heq, hcutq⟩ := exists_cut h hq
  rw [← hpq, hcutp] at hcutq
  simp only [Option.some.injEq, Prod.mk.injEq] at hcutq
  exact hcutq.2.1

theorem ZoneInv.safe (h : ZoneInv g ulAddr stSize z) : z.Safe g ulAddr stSize where
  tiles := h.tiles
  apart := h.apart.imp fun p q hpq hfree => by
    rcases hpq with hp | hq
    · simp [hp] at hfree
    · simp [hq] at hfree
  area p hp i := by
    rw [(h.binned i).1.mem_iff, mem_areaOf]
    constructor
    · rintro ⟨q, hq, hfree, hi, hpq⟩
      obtain rfl := eq_of_cb h.cbs hq hp hpq
      exact ⟨hfree, hi.symm⟩
    · rintro ⟨hfree, hi⟩
      exact ⟨p, hp, hfree, hi.symm, rfl⟩
  areaNodup i := by
    rw [(h.binned i).1.nodup_iff]
    exact h.cbs.sublist (List.filter_sublist.map _)
  areaMem i c hc := by
    obtain ⟨p, hp, -, -, hpc⟩ := mem_areaOf.mp ((h.binned i).1.mem_iff.mp hc)
    exact ⟨p, hp, hpc⟩
  areaCount i := (h.binned i).2
  cbs := h.cbs
  freePage := h.free
  alloc ulPageNum t cbs z' p hc heq := by
    obtain ⟨z₁, o, h₁, -, -, htaken⟩ := h.pageAllocate ulPageNum t hc
    rw [h₁] at heq
    simp only [Option.some.injEq, Prod.mk.injEq] at heq
    obtain ⟨rfl, rfl⟩ := heq
    exact htaken p rfl
  allocAlign ulPageNum stAlign t cbs z' p halign hc heq := by
    obtain ⟨j, rfl⟩ := halign
    obtain ⟨z₁, o, h₁, -, -, htaken⟩ := h.pageAllocateAlign ulPageNum j t hc
    rw [h₁] at heq
    simp only [Option.some.injEq, Prod.mk.injEq] at heq
    obtain ⟨rfl, rfl⟩ := heq
    exact htaken p rfl
  total op hok := by
    obtain ⟨z', hz', -⟩ := h.step op hok
    exact ⟨z', hz'⟩

end Run

/-- Every zone that starts at a page keeps its promises, whatever is asked of it. -/
theorem zone_safe (haddr : 2 ^ g.pageShift ∣ ulAddr) {z : Zone}
    (h : Reach (Zone.step g) Zone.StepOk (Zone.Init g · ulAddr stSize) z) :
    z.Safe g ulAddr stSize := by
  refine ZoneInv.safe (h.invariant (fun _ => ZoneInv.create haddr) fun s op s' hs hok hstep => ?_)
  obtain ⟨z', hz', hinv⟩ := hs.step op hok
  rw [hz', Option.some.injEq] at hstep
  exact hstep ▸ hinv

/-- Pages of 4096 bytes and 11 free areas. -/
def vmm12 : VmmConf where
  pageShift := 12
  maxOrder := 11
  order_pos := by decide

theorem zone_safe_sixteen :
    ∃ z, Reach (Zone.step vmm12) Zone.StepOk (Zone.Init vmm12 · 0x11000 0x10000) z ∧
      z.pages.map (fun p => (p.ulPageAddr, p.ulCount, p.bUsed)) =
        [(0x11000, 4, true), (0x15000, 3, false), (0x18000, 3, true), (0x1b000, 6, false)] ∧
          z.ulFreePage = 9 ∧ z.Safe vmm12 0x11000 0x10000 := by
  have h₀ : Reach (Zone.step vmm12) Zone.StepOk (Zone.Init vmm12 · 0x11000 0x10000)
      ⟨16, 0x11000, 0x10000, update (fun _ => ⟨[], 0⟩) 4 ⟨[10], 1⟩,
        [⟨10, 0x11000, 16, .virtual, false⟩]⟩ := .start ⟨.virtual, [10], rfl⟩
  have h₁ := h₀.extend (.alloc 3 .virtual [11]) ⟨by decide, by decide⟩ rfl
  have h₂ := h₁.extend (.allocAlign 2 0x8000 .virtual [12, 13]) ⟨⟨15, rfl⟩, by decide, by decide⟩ rfl
  have h₃ := h₂.extend (.expand 12 1 [14]) ⟨⟨⟨12, 0x18000, 2, .virtual, true⟩, by decide, rfl⟩,
    by decide, by decide⟩ rfl
  have h₄ := h₃.extend (.expand 10 1 [15]) ⟨⟨⟨10, 0x11000, 3, .virtual, true⟩, by decide, rfl⟩,
    by decide, by decide⟩ rfl
  exact ⟨_, h₄, rfl, rfl, zone_safe (by decide) h₄⟩

end SylixOS.Kernel
