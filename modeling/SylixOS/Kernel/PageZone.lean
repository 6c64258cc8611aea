import Mathlib
import SylixOS.Lib.Cut

/-! # The pages of a zone

A zone is a list of segments of pages that lie one after the other, and a table of the free ones by
the logarithm of their size. Segments are cut when pages are taken from them, on the right or on both
sides, and put together when they become free. A control block is named by its address; the blocks
that `__pageCbAlloc` will hand out are an argument of each operation, which fails when there are no
more. Sizes and addresses are numbers without a bound; a pointer to no segment makes a function
`none`.
-/

namespace SylixOS.Kernel
open Lib

/-- The configuration: `LW_CFG_VMM_PAGE_SHIFT` and `LW_CFG_VMM_MAX_ORDER`. -/
structure VmmConf where
  pageShift : ℕ
  maxOrder : ℕ
  order_pos : 0 < maxOrder

inductive PageType where
  | physical
  | virtual
  deriving DecidableEq, Repr

inductive VmmError where
  | pageInval
  | lowPage
  | kernelLowMemory
  deriving DecidableEq, Repr

/-- `LW_VMM_PAGE`, in the control block at address `cb`. -/
structure VmmPage where
  cb : ℕ
  ulPageAddr : ℕ
  ulCount : ℕ
  iPageType : PageType
  bUsed : Bool
  deriving DecidableEq, Repr

/-- `LW_VMM_FREEAREA`. -/
structure FreeArea where
  lineFreeHeader : List ℕ
  ulCount : ℕ
  deriving DecidableEq, Repr

/-- `LW_VMM_ZONE`, with its segments in the order of `PAGE_lineManage`. -/
structure Zone where
  ulFreePage : ℕ
  ulAddr : ℕ
  stSize : ℕ
  vmfa : ℕ → FreeArea
  pages : List VmmPage

/-- The loop of `__pageFreeHashIndex`, which ends after `ulPageNum` steps at the latest. -/
def hashLoop (ulPageNum : ℕ) : ℕ → ℕ → ℕ
  | 0, i => i
  | n + 1, i => if 1 <<< i < ulPageNum then hashLoop ulPageNum n (i + 1) else i

/-- The loop ends at the least power of two with room for the pages. -/
theorem hashLoop_spec {ulPageNum n i : ℕ} (hn : ulPageNum ≤ n + i)
    (hi : ∀ j < i, 2 ^ j < ulPageNum) :
    ulPageNum ≤ 2 ^ hashLoop ulPageNum n i ∧ ∀ j < hashLoop ulPageNum n i, 2 ^ j < ulPageNum := by
  induction n generalizing i with
  | zero =>
    refine ⟨?_, hi⟩
    have := Nat.lt_two_pow_self (n := i)
    rw [hashLoop]
    omega
  | succ n ih =>
    rw [hashLoop, Nat.one_shiftLeft]
    split_ifs with hlt
    · refine ih (by omega) fun j hj => ?_
      rcases Nat.lt_succ_iff_lt_or_eq.mp hj with hj | rfl
      · exact hi j hj
      · exact hlt
    · exact ⟨Nat.not_lt.mp hlt, hi⟩

namespace VmmConf
variable (g : VmmConf)

/-- The bytes of some pages. -/
def bytes (ulPageNum : ℕ) : ℕ := ulPageNum <<< g.pageShift

/-- `__pageFreeHashIndex`. -/
def pageFreeHashIndex (ulPageNum : ℕ) : ℕ :=
  let i := hashLoop ulPageNum ulPageNum 0
  if i ≥ g.maxOrder then g.maxOrder - 1 else i

/-- `ulLeftFreePageNum` of `__pageAllocateAlign`. -/
def leftFreePageNum (stAlign : ℕ) (pvmpage : VmmPage) : ℕ :=
  let ulAlignMask := stAlign - 1
  if pvmpage.ulPageAddr &&& ulAlignMask = 0 then 0
  else ((pvmpage.ulPageAddr ||| ulAlignMask) + 1 - pvmpage.ulPageAddr) >>> g.pageShift

/-- The part of a segment that `__pageStructSeparate` puts into a new control block. -/
def separate (pvmpage : VmmPage) (cbNew ulPageNum : ℕ) (iPageType : PageType) (bUsed : Bool) :
    VmmPage where
  cb := cbNew
  ulPageAddr := pvmpage.ulPageAddr + g.bytes ulPageNum
  ulCount := pvmpage.ulCount - ulPageNum
  iPageType := iPageType
  bUsed := bUsed

/-- `__pageZoneCreate`: the control block comes from `__pageCbAlloc`. -/
def pageZoneCreate (ulAddr stSize : ℕ) (iPageType : PageType) : List ℕ → Except VmmError Zone
  | [] => .error .kernelLowMemory
  | cb :: _ =>
    let ulFreePage := stSize >>> g.pageShift
    let i := g.pageFreeHashIndex ulFreePage
    .ok
      { ulFreePage
        ulAddr
        stSize
        vmfa := Function.update (fun _ => ⟨[], 0⟩) i ⟨[cb], 1⟩
        pages := [⟨cb, ulAddr, ulFreePage, iPageType, false⟩] }

end VmmConf

namespace Zone
variable (g : VmmConf) (z : Zone)

/-- A segment enters the free area of its size: `__pageAddToFreeHash`. -/
def pageAddToFreeHash (pvmpage : VmmPage) : Zone :=
  let i := g.pageFreeHashIndex pvmpage.ulCount
  let fa := z.vmfa i
  { z with
    vmfa := Function.update z.vmfa i ⟨pvmpage.cb :: fa.lineFreeHeader, fa.ulCount + 1⟩ }

/-- A segment leaves a free area. -/
def delFromArea (i : ℕ) (pvmpage : VmmPage) : Zone :=
  let fa := z.vmfa i
  { z with vmfa := Function.update z.vmfa i ⟨fa.lineFreeHeader.erase pvmpage.cb, fa.ulCount - 1⟩ }

/-- `__pageDelFromFreeHash`. -/
def pageDelFromFreeHash (pvmpage : VmmPage) : Zone :=
  z.delFromArea (g.pageFreeHashIndex pvmpage.ulCount) pvmpage

/-- `__pageFree` merges a segment with a free one to its left: the zone, the segments to the left
now, and the segment. -/
def mergeLeft (left : List VmmPage) (pvmpage : VmmPage) : Zone × List VmmPage × VmmPage :=
  match left.getLast? with
  | none => (z, left, pvmpage)
  | some pvmpageLeft =>
    if pvmpageLeft.bUsed then (z, left, pvmpage)
    else
      (z.pageDelFromFreeHash g pvmpageLeft, left.dropLast,
        { pvmpageLeft with ulCount := pvmpageLeft.ulCount + pvmpage.ulCount })

/-- `__pageFree` merges a segment with a free one to its right. -/
def mergeRight (pvmpage : VmmPage) (right : List VmmPage) : Zone × VmmPage × List VmmPage :=
  match right with
  | [] => (z, pvmpage, [])
  | pvmpageRight :: rest =>
    if pvmpageRight.bUsed then (z, pvmpage, pvmpageRight :: rest)
    else
      (z.pageDelFromFreeHash g pvmpageRight,
        { pvmpage with ulCount := pvmpage.ulCount + pvmpageRight.ulCount }, rest)

/-- `__pageFree` of the segment with a control block. -/
def pageFree (cb : ℕ) : Option Zone := do
  let (left, pvmpage, right) ← cut VmmPage.cb cb z.pages
  let ulFreePageNum := pvmpage.ulCount
  let (z, left, pvmpage) := z.mergeLeft g left pvmpage
  let (z, pvmpage, right) := z.mergeRight g pvmpage right
  let pvmpage := { pvmpage with bUsed := false }
  let z := { z with pages := left ++ pvmpage :: right }
  let z := z.pageAddToFreeHash g pvmpage
  some { z with ulFreePage := z.ulFreePage + ulFreePageNum }

/-- The loop over the segments of a free area: the one that is closest in size among those with room
for the pages after what is left out at their start. -/
def bestFit (leftNum : VmmPage → ℕ) (ulPageNum : ℕ) :
    List ℕ → Option VmmPage → Option (Option VmmPage)
  | [], pvmpageFit => some pvmpageFit
  | cb :: lineFree, pvmpageFit => do
    let (_, pvmpage, _) ← cut VmmPage.cb cb z.pages
    if ulPageNum + leftNum pvmpage ≤ pvmpage.ulCount ∧
        ∀ fit ∈ pvmpageFit, pvmpage.ulCount - ulPageNum < fit.ulCount - ulPageNum then
      bestFit leftNum ulPageNum lineFree (some pvmpage)
    else bestFit leftNum ulPageNum lineFree pvmpageFit

/-- The first of some free areas with a segment that fits, and the segment. -/
def searchAreas (leftNum : VmmPage → ℕ) (ulPageNum : ℕ) :
    List ℕ → Option (Option (ℕ × VmmPage))
  | [] => some none
  | i :: areas =>
    if (z.vmfa i).ulCount = 0 then searchAreas leftNum ulPageNum areas
    else do
      match ← z.bestFit leftNum ulPageNum (z.vmfa i).lineFreeHeader none with
      | some pvmpageFit => some (some (i, pvmpageFit))
      | none => searchAreas leftNum ulPageNum areas

/-- The search of `__pageAllocate`, where nothing is left out, and of `__pageAllocateAlign`. -/
def search (leftNum : VmmPage → ℕ) (ulPageNum : ℕ) : Option (Option (ℕ × VmmPage)) :=
  let iHashIndex := g.pageFreeHashIndex ulPageNum
  z.searchAreas leftNum ulPageNum (List.range' iHashIndex (g.maxOrder - iHashIndex))

/-- `__pageAllocate`: the segment. -/
def pageAllocate (ulPageNum : ℕ) (iPageType : PageType) (cbs : List ℕ) :
    Option (Zone × Option VmmPage) := do
  match ← z.search g (fun _ => 0) ulPageNum with
  | none => some (z, none)
  | some (i, pvmpageFit) =>
    let (left, pvmpageFit, right) ← cut VmmPage.cb pvmpageFit.cb z.pages
    if pvmpageFit.ulCount - ulPageNum ≠ 0 then
      match cbs with
      | [] => some (z, none)
      | cb :: _ =>
        let z := z.delFromArea i pvmpageFit
        let pvmpageNewFree := g.separate pvmpageFit cb ulPageNum iPageType false
        let pvmpageFit := { pvmpageFit with bUsed := true, ulCount := ulPageNum }
        let z := { z with pages := left ++ pvmpageFit :: pvmpageNewFree :: right }
        let z := z.pageAddToFreeHash g pvmpageNewFree
        some ({ z with ulFreePage := z.ulFreePage - ulPageNum }, some pvmpageFit)
    else
      let z := z.delFromArea i pvmpageFit
      let pvmpageFit := { pvmpageFit with bUsed := true }
      let z := { z with pages := left ++ pvmpageFit :: right }
      some ({ z with ulFreePage := z.ulFreePage - ulPageNum }, some pvmpageFit)

/-- `__pageAllocateAlign` cuts off what is left out at the start of a segment, which stays free: the
zone, the segments to the left now, and the rest. -/
def cutLeft (left : List VmmPage) (pvmpageFit : VmmPage) (right : List VmmPage) (cb ulLeft : ℕ) :
    Zone × List VmmPage × VmmPage :=
  if ulLeft = 0 then (z, left, pvmpageFit)
  else
    let pvmpageNew := g.separate pvmpageFit cb ulLeft pvmpageFit.iPageType true
    let pvmpageFit := { pvmpageFit with bUsed := false, ulCount := ulLeft }
    let z := { z with pages := left ++ pvmpageFit :: pvmpageNew :: right }
    (z.pageAddToFreeHash g pvmpageFit, left ++ [pvmpageFit], pvmpageNew)

/-- `__pageAllocateAlign` cuts the pages that it does not need off the end of a segment. -/
def cutRight (left : List VmmPage) (pvmpageFit : VmmPage) (right : List VmmPage) (cb ulPageNum : ℕ)
    (iPageType : PageType) (bCut : Bool) : Zone × VmmPage :=
  if bCut then
    let pvmpageNew := g.separate pvmpageFit cb ulPageNum iPageType false
    let pvmpageFit := { pvmpageFit with bUsed := true, ulCount := ulPageNum }
    let z := { z with pages := left ++ pvmpageFit :: pvmpageNew :: right }
    (z.pageAddToFreeHash g pvmpageNew, pvmpageFit)
  else
    let pvmpageFit := { pvmpageFit with bUsed := true }
    ({ z with pages := left ++ pvmpageFit :: right }, pvmpageFit)

/-- `__pageAllocateAlign`: the segment. The control blocks for both cuts are taken before the
first. -/
def pageAllocateAlign (ulPageNum stAlign : ℕ) (iPageType : PageType) (cbs : List ℕ) :
    Option (Zone × Option VmmPage) := do
  match ← z.search g (g.leftFreePageNum stAlign) ulPageNum with
  | none => some (z, none)
  | some (i, pvmpageFit) =>
    let (left, pvmpageFit, right) ← cut VmmPage.cb pvmpageFit.cb z.pages
    let ulLeft := g.leftFreePageNum stAlign pvmpageFit
    let bCut := decide (pvmpageFit.ulCount - ulPageNum ≠ ulLeft)
    let cbsRight := if ulLeft = 0 then cbs else cbs.tail
    if (ulLeft ≠ 0 ∧ cbs = []) ∨ (bCut ∧ cbsRight = []) then some (z, none)
    else
      let z := z.delFromArea i pvmpageFit
      let (z, left, pvmpageFit) := z.cutLeft g left pvmpageFit right (cbs.headD 0) ulLeft
      let (z, pvmpageFit) :=
        z.cutRight g left pvmpageFit right (cbsRight.headD 0) ulPageNum iPageType bCut
      some ({ z with ulFreePage := z.ulFreePage - ulPageNum }, some pvmpageFit)

/-- `__pageExpand`: the error, if there is one. -/
def pageExpand (cb ulExpPageNum : ℕ) (cbs : List ℕ) : Option (Zone × Option VmmError) := do
  let (left, pvmpage, right) ← cut VmmPage.cb cb z.pages
  if pvmpage.iPageType ≠ .virtual then some (z, some .pageInval)
  else match right with
    | [] => some (z, some .lowPage)
    | pvmpageRight :: right =>
      if pvmpageRight.bUsed ∨ pvmpageRight.ulCount < ulExpPageNum then some (z, some .lowPage)
      else
        let pvmpageExp := { pvmpage with ulCount := pvmpage.ulCount + ulExpPageNum }
        if ulExpPageNum < pvmpageRight.ulCount then
          match cbs with
          | [] => some (z, some .kernelLowMemory)
          | cbNew :: _ =>
            let z := z.pageDelFromFreeHash g pvmpageRight
            let pvmpageNewFree :=
              g.separate pvmpageRight cbNew ulExpPageNum pvmpageRight.iPageType false
            let z := { z with pages := left ++ pvmpageExp :: pvmpageNewFree :: right }
            let z := z.pageAddToFreeHash g pvmpageNewFree
            some ({ z with ulFreePage := z.ulFreePage - ulExpPageNum }, none)
        else
          let z := z.pageDelFromFreeHash g pvmpageRight
          let z := { z with pages := left ++ pvmpageExp :: right }
          some ({ z with ulFreePage := z.ulFreePage - ulExpPageNum }, none)

/-- `__pageSplit`: the new segment, or the error. -/
def pageSplit (cb ulPageNum : ℕ) (cbs : List ℕ) : Option (Zone × Except VmmError VmmPage) := do
  let (left, pvmpage, right) ← cut VmmPage.cb cb z.pages
  if pvmpage.iPageType ≠ .virtual then some (z, .error .pageInval)
  else if pvmpage.ulCount ≤ ulPageNum then some (z, .error .lowPage)
  else match cbs with
    | [] => some (z, .error .kernelLowMemory)
    | cbNew :: _ =>
      let pvmpageSplit := g.separate pvmpage cbNew ulPageNum pvmpage.iPageType true
      let pvmpage := { pvmpage with ulCount := ulPageNum }
      some ({ z with pages := left ++ pvmpage :: pvmpageSplit :: right }, .ok pvmpageSplit)

/-- `__pageMerge`: the error, if there is one. -/
def pageMerge (cbL cbR : ℕ) : Option (Zone × Option VmmError) := do
  let (left, pvmpageL, right) ← cut VmmPage.cb cbL z.pages
  let (_, pvmpageR, _) ← cut VmmPage.cb cbR z.pages
  if pvmpageL.iPageType ≠ .virtual ∨ pvmpageR.iPageType ≠ .virtual then some (z, some .pageInval)
  else do
    let pvmpageL := { pvmpageL with ulCount := pvmpageL.ulCount + pvmpageR.ulCount }
    let (left, _, right) ← cut VmmPage.cb cbR (left ++ pvmpageL :: right)
    some ({ z with pages := left ++ right }, none)

end Zone

end SylixOS.Kernel
