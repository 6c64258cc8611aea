import SylixOS.Kernel.PageUse

/-! # References to physical pages

A physical page that is referenced gets one more control block, a fake one, and is counted in the real
one. The pages go back to their zone with the last of these control blocks, which need not be the real
one.
-/

namespace SylixOS.Kernel
open Lib

/-- A zone of `_G_vmzonePhysical` that has been created, and its attributes. -/
structure PhyZone where
  zone : Zone
  uiAttr : ℕ

/-- The zones in use, what the control blocks say, and the fake ones. Every segment of a zone has it as
its owner. The code does not keep the pages that were handed out and their zones, who holds which of them,
and which of them went back. -/
structure PhyMem where
  vmzonePhysical : List PhyZone
  ulRef : ℕ → ℕ
  pvmpageReal : ℕ → Option ℕ
  pvmzoneOwner : ℕ → ℕ
  fakes : List ℕ
  allocs : List (ℕ × VmmPage)
  holders : List (ℕ × ℕ)
  returned : List ℕ

/-- The calls, with the control blocks that `__pageCbAlloc` will hand out and the block that
`__KHEAP_ALLOC` returns. -/
inductive PhyOp where
  | alloc (ulPageNum uiAttr : ℕ) (cbs : List ℕ)
  | allocZone (ulZoneIndex ulPageNum uiAttr : ℕ) (cbs : List ℕ)
  | allocAlign (ulPageNum stAlign uiAttr : ℕ) (cbs : List ℕ)
  | ref (pvmpage : ℕ) (pvmpageFake : Option ℕ)
  | free (pvmpage : ℕ)

/-- A loop over the zones from the `i`-th on, which ends at the first that has the pages. -/
def allocLoop (pageAllocate : Zone → Option (Zone × Option VmmPage)) (fits : PhyZone → Bool) :
    ℕ → List PhyZone → Option (List PhyZone × Option (ℕ × VmmPage))
  | _, [] => some ([], none)
  | i, pvmzone :: zones =>
    if fits pvmzone then do
      let (zone, pvmpage) ← pageAllocate pvmzone.zone
      match pvmpage with
      | some pvmpage => some ({ pvmzone with zone } :: zones, some (i, pvmpage))
      | none => do
        let (zones, pvmpage) ← allocLoop pageAllocate fits (i + 1) zones
        some ({ pvmzone with zone } :: zones, pvmpage)
    else do
      let (zones, pvmpage) ← allocLoop pageAllocate fits (i + 1) zones
      some (pvmzone :: zones, pvmpage)

namespace PhyMem
variable (g : VmmConf) (s : PhyMem)

/-- The end of `__pageAllocate` for a physical page. -/
def handOut (vmzonePhysical : List PhyZone) (i : ℕ) (pvmpage : VmmPage) : PhyMem :=
  { s with
    vmzonePhysical
    ulRef := Function.update s.ulRef pvmpage.cb 1
    pvmpageReal := Function.update s.pvmpageReal pvmpage.cb none
    pvmzoneOwner := Function.update s.pvmzoneOwner pvmpage.cb i
    allocs := s.allocs ++ [(i, pvmpage)]
    holders := s.holders ++ [(pvmpage.cb, s.allocs.length)] }

/-- The two loops of `__vmmPhysicalPageAlloc` and `__vmmPhysicalPageAllocAlign`: first the zones with
the same attributes, then those that have them. -/
def allocBy (pageAllocate : Zone → Option (Zone × Option VmmPage)) (ulPageNum uiAttr : ℕ) :
    Option PhyMem := do
  let (zones, pvmpage) ← allocLoop pageAllocate
    (fun pvmzone => pvmzone.uiAttr = uiAttr ∧ ulPageNum ≤ pvmzone.zone.ulFreePage) 0 s.vmzonePhysical
  match pvmpage with
  | some (i, pvmpage) => some (s.handOut zones i pvmpage)
  | none => do
    let (zones, pvmpage) ← allocLoop pageAllocate
      (fun pvmzone => pvmzone.uiAttr &&& uiAttr = uiAttr ∧ ulPageNum ≤ pvmzone.zone.ulFreePage) 0 zones
    match pvmpage with
    | some (i, pvmpage) => some (s.handOut zones i pvmpage)
    | none => some { s with vmzonePhysical := zones }

/-- `__vmmPhysicalPageAlloc`. -/
def physicalPageAlloc (ulPageNum uiAttr : ℕ) (cbs : List ℕ) : Option PhyMem :=
  s.allocBy (fun z => z.pageAllocate g ulPageNum .physical cbs) ulPageNum uiAttr

/-- `__vmmPhysicalPageAllocAlign`. -/
def physicalPageAllocAlign (ulPageNum stAlign uiAttr : ℕ) (cbs : List ℕ) : Option PhyMem :=
  s.allocBy (fun z => z.pageAllocateAlign g ulPageNum stAlign .physical cbs) ulPageNum uiAttr

/-- `__vmmPhysicalPageAllocZone`. -/
def physicalPageAllocZone (ulZoneIndex ulPageNum uiAttr : ℕ) (cbs : List ℕ) : Option PhyMem :=
  match s.vmzonePhysical[ulZoneIndex]? with
  | none => some s
  | some pvmzone =>
    if pvmzone.uiAttr &&& uiAttr = uiAttr ∧ ulPageNum ≤ pvmzone.zone.ulFreePage then do
      let (zone, pvmpage) ← pvmzone.zone.pageAllocate g ulPageNum .physical cbs
      let zones := s.vmzonePhysical.set ulZoneIndex { pvmzone with zone }
      match pvmpage with
      | some pvmpage => some (s.handOut zones ulZoneIndex pvmpage)
      | none => some { s with vmzonePhysical := zones }
    else some s

/-- The real page: the page itself, or `LW_VMM_PAGE_GET_REAL` of a fake one. -/
def real (pvmpage : ℕ) : ℕ := (s.pvmpageReal pvmpage).getD pvmpage

/-- `__vmmPhysicalPageRef`. -/
def physicalPageRef (pvmpage : ℕ) : Option ℕ → PhyMem
  | none => s
  | some pvmpageFake =>
    let pvmpageReal := s.real pvmpage
    { s with
      ulRef :=
        Function.update (Function.update s.ulRef pvmpageReal (s.ulRef pvmpageReal + 1)) pvmpageFake 0
      pvmpageReal := Function.update s.pvmpageReal pvmpageFake (some pvmpageReal)
      pvmzoneOwner := Function.update s.pvmzoneOwner pvmpageFake (s.pvmzoneOwner pvmpage)
      fakes := pvmpageFake :: s.fakes
      holders := s.holders ++
        (s.holders.filter (·.1 = pvmpage)).map fun h => (pvmpageFake, h.2) }

/-- `__vmmPhysicalPageFree`. -/
def physicalPageFree (pvmpage : ℕ) : Option PhyMem :=
  let pvmzone := s.pvmzoneOwner pvmpage
  let pvmpageReal := s.real pvmpage
  let s' := { s with
    fakes := if (s.pvmpageReal pvmpage).isSome then s.fakes.erase pvmpage else s.fakes
    ulRef := Function.update s.ulRef pvmpageReal (s.ulRef pvmpageReal - 1)
    holders := s.holders.filter (·.1 ≠ pvmpage) }
  if s'.ulRef pvmpageReal = 0 then do
    let vmzone ← s.vmzonePhysical[pvmzone]?
    let zone ← vmzone.zone.pageFree g pvmpageReal
    some { s' with
      vmzonePhysical := s.vmzonePhysical.set pvmzone { vmzone with zone }
      returned := s.returned ++ (s.holders.filter (·.1 = pvmpage)).map Prod.snd }
  else some s'

def step : PhyOp → Option PhyMem
  | .alloc ulPageNum uiAttr cbs => s.physicalPageAlloc g ulPageNum uiAttr cbs
  | .allocZone ulZoneIndex ulPageNum uiAttr cbs =>
    s.physicalPageAllocZone g ulZoneIndex ulPageNum uiAttr cbs
  | .allocAlign ulPageNum stAlign uiAttr cbs =>
    s.physicalPageAllocAlign g ulPageNum stAlign uiAttr cbs
  | .ref pvmpage pvmpageFake => some (s.physicalPageRef pvmpage pvmpageFake)
  | .free pvmpage => s.physicalPageFree g pvmpage

/-- The control block is one of a zone. -/
def HasCb (i cb : ℕ) : Prop := ∃ pvmzone, s.vmzonePhysical[i]? = some pvmzone ∧
  cb ∈ pvmzone.zone.pages.map VmmPage.cb

/-- Control blocks that are handed out are not in use. -/
def FreshCbs (cbs : List ℕ) : Prop :=
  cbs.Nodup ∧ ∀ cb ∈ cbs, (∀ i, ¬ s.HasCb i cb) ∧ cb ∉ s.fakes

/-- What the callers and the allocators keep to: a page that is referenced or freed is held. -/
def StepOk : PhyOp → Prop
  | .alloc _ _ cbs => s.FreshCbs cbs
  | .allocZone _ _ _ cbs => s.FreshCbs cbs
  | .allocAlign _ stAlign _ cbs => stAlign.isPowerOfTwo ∧ s.FreshCbs cbs
  | .ref pvmpage pvmpageFake => pvmpage ∈ s.holders.map Prod.fst ∧
      ∀ fake ∈ pvmpageFake, (∀ i, ¬ s.HasCb i fake) ∧ fake ∉ s.fakes
  | .free pvmpage => pvmpage ∈ s.holders.map Prod.fst

/-- `__vmmPhysicalCreate` has created the zones. -/
structure Init : Prop where
  zones : ∀ pvmzone ∈ s.vmzonePhysical, ∃ ulAddr stSize cbs, 2 ^ g.pageShift ∣ ulAddr ∧
    g.pageZoneCreate ulAddr stSize .physical cbs = .ok pvmzone.zone
  cbs : ∀ i j cb, s.HasCb i cb → s.HasCb j cb → i = j
  fakes : s.fakes = []
  allocs : s.allocs = []
  holders : s.holders = []
  returned : s.returned = []

/-- What is promised of the pages that were handed out. -/
structure Safe : Prop where
  /-- Pages have gone back exactly when nobody holds them any more, and have done so once. -/
  returned : ∀ n < s.allocs.length, n ∈ s.returned ↔ ∀ h ∈ s.holders, h.2 ≠ n
  once : s.returned.Nodup
  /-- The segments in use are those that have not gone back. -/
  used : ∀ i pvmzone p, s.vmzonePhysical[i]? = some pvmzone →
    (pvmzone.zone.Used p ↔ ∃ n, s.allocs[n]? = some (i, p) ∧ n ∉ s.returned)
  /-- The zones are in order. -/
  zones : ∀ pvmzone ∈ s.vmzonePhysical, ∃ ulAddr stSize, pvmzone.zone.Safe g ulAddr stSize
  /-- No call goes astray. -/
  total : ∀ op, s.StepOk op → ∃ s', s.step g op = some s'

end PhyMem

end SylixOS.Kernel
