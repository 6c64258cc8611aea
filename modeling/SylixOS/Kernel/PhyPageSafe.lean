import SylixOS.Kernel.PhyPage

/-! # Physical pages go back with their last holder

The count in a real control block is the number of those who hold it or a fake one of it, and the
segments in use are those that are counted.
-/

namespace SylixOS.Kernel
open Lib Function

variable {g : VmmConf} {s s' : PhyMem} {v : PhyZone} {z' : Zone} {p q : VmmPage} {cbs : List ℕ}
  {i j m n cb h : ℕ}

namespace PhyMem

/-- The pages `p` of the zone `i` were handed out as the `n`-th and have not gone back. -/
def Live (s : PhyMem) (n i : ℕ) (p : VmmPage) : Prop :=
  s.allocs[n]? = some (i, p) ∧ n ∉ s.returned

/-- The pointer is to a real page or to a fake one of it. -/
def Refers (s : PhyMem) (h i : ℕ) (p : VmmPage) : Prop :=
  s.pvmzoneOwner h = i ∧ ((h = p.cb ∧ s.pvmpageReal h = none) ∨
    (h ∈ s.fakes ∧ s.pvmpageReal h = some p.cb))

/-- Those who hold the `n`-th pages. -/
def count (s : PhyMem) (n : ℕ) : ℕ := s.holders.countP fun h => h.2 = n

end PhyMem

open PhyMem

/-- What holds between two calls. -/
structure PhyInv (g : VmmConf) (s : PhyMem) : Prop where
  zones : ∀ pvmzone ∈ s.vmzonePhysical, ∃ ulAddr stSize, ZoneInv g ulAddr stSize pvmzone.zone
  cbs : ∀ i j cb, s.HasCb i cb → s.HasCb j cb → i = j
  fakes : ∀ f ∈ s.fakes, ∀ i, ¬ s.HasCb i f
  once : s.returned.Nodup
  below : ∀ n ∈ s.returned, n < s.allocs.length
  used : ∀ i pvmzone p, s.vmzonePhysical[i]? = some pvmzone →
    (pvmzone.zone.Used p ↔ ∃ n, s.Live n i p)
  live : ∀ n i p, s.Live n i p → i < s.vmzonePhysical.length
  inj : ∀ n m i j p q, s.Live n i p → s.Live m j q → p.cb = q.cb → n = m
  pointers : (s.holders.map Prod.fst).Nodup
  holder : ∀ h ∈ s.holders, ∃ i p, s.Live h.2 i p ∧ s.Refers h.1 i p
  count : ∀ n i p, s.Live n i p → s.ulRef p.cb = s.count n ∧ 0 < s.count n

theorem getElem?_concat_iff {α : Type*} {l : List α} {a b : α} {n : ℕ} :
    (l ++ [a])[n]? = some b ↔ l[n]? = some b ∨ n = l.length ∧ b = a := by
  rcases Nat.lt_trichotomy n l.length with hlt | rfl | hgt
  · rw [List.getElem?_append_left hlt]
    exact ⟨.inl, fun h => h.resolve_right fun h => hlt.ne h.1⟩
  · rw [List.getElem?_concat_length, List.getElem?_eq_none le_rfl]
    simp [eq_comm]
  · rw [List.getElem?_eq_none (by rw [List.length_append]; exact hgt),
      List.getElem?_eq_none hgt.le]
    simp [hgt.ne']

theorem PhyMem.Live.lt (hl : s.Live n i p) : n < s.allocs.length :=
  (List.getElem?_eq_some_iff.mp hl.1).1

namespace PhyInv
variable (hs : PhyInv g s)
include hs

theorem live_used (hl : s.Live n i p) : ∃ v, s.vmzonePhysical[i]? = some v ∧ v.zone.Used p := by
  have hv := List.getElem?_eq_getElem (hs.live n i p hl)
  exact ⟨_, hv, (hs.used i _ p hv).mpr ⟨n, hl⟩⟩

theorem live_cb (hl : s.Live n i p) : s.HasCb i p.cb := by
  obtain ⟨v, hv, hused⟩ := hs.live_used hl
  exact ⟨v, hv, List.mem_map_of_mem hused.1⟩

/-- Nobody holds what has gone back, and what has not gone back is held. -/
theorem safe (htotal : ∀ op, s.StepOk op → ∃ s', s.step g op = some s') : s.Safe g where
  returned n hn := by
    constructor
    · rintro hret h hh rfl
      obtain ⟨i, p, hl, -⟩ := hs.holder h hh
      exact hl.2 hret
    · intro hno
      by_contra hret
      obtain ⟨⟨i, p⟩, hip⟩ : ∃ a, s.allocs[n]? = some a := ⟨_, List.getElem?_eq_getElem hn⟩
      obtain ⟨h, hh, heq⟩ := List.countP_pos_iff.mp (hs.count n i p ⟨hip, hret⟩).2
      exact hno h hh (of_decide_eq_true heq)
  once := hs.once
  used := hs.used
  zones v hv := by
    obtain ⟨a, n, h⟩ := hs.zones v hv
    exact ⟨a, n, h.safe⟩
  total := htotal

end PhyInv

/-! ## Allocation -/

section Zone

/-- A zone that has been changed has its control blocks, and new ones. -/
theorem hasCb_set (hv : s.vmzonePhysical[i]? = some v)
    (hcb : ∀ q ∈ z'.pages, q.cb ∈ v.zone.pages.map VmmPage.cb ∨ q.cb ∈ cbs)
    (heq : s'.vmzonePhysical = s.vmzonePhysical.set i { v with zone := z' })
    (hhas : s'.HasCb j cb) : s.HasCb j cb ∨ j = i ∧ cb ∈ cbs := by
  obtain ⟨w, hw, hmem⟩ := hhas
  rw [heq] at hw
  rcases eq_or_ne i j with rfl | hne
  · rw [List.getElem?_set_self (List.getElem?_eq_some_iff.mp hv).1, Option.some.injEq] at hw
    obtain ⟨q, hq, rfl⟩ := List.mem_map.mp (hw ▸ hmem)
    exact (hcb q hq).imp (fun h => ⟨v, hv, h⟩) fun h => ⟨rfl, h⟩
  · rw [List.getElem?_set_ne hne] at hw
    exact .inl ⟨w, hw, hmem⟩

theorem PhyInv.zones_set (hs : PhyInv g s) {ulAddr stSize : ℕ} (hz : ZoneInv g ulAddr stSize z') :
    ∀ w ∈ s.vmzonePhysical.set i { v with zone := z' },
      ∃ ulAddr stSize, ZoneInv g ulAddr stSize w.zone := by
  intro w hw
  rcases List.mem_or_eq_of_mem_set hw with hw | rfl
  · exact hs.zones w hw
  · exact ⟨_, _, hz⟩

end Zone

theorem PhyInv.handOut (hs : PhyInv g s) (hv : s.vmzonePhysical[i]? = some v) {ulAddr stSize : ℕ}
    (hz : ZoneInv g ulAddr stSize z')
    (hcarved : v.zone.Carved z' p cbs) (hp : p ∈ z'.pages) (hfresh : s.FreshCbs cbs) :
    PhyInv g (s.handOut (s.vmzonePhysical.set i { v with zone := z' }) i p) := by
  have hi := (List.getElem?_eq_some_iff.mp hv).1
  have hself : (s.vmzonePhysical.set i { v with zone := z' })[i]? = some { v with zone := z' } :=
    List.getElem?_set_self hi
  have hhas {j cb : ℕ} : (s.handOut (s.vmzonePhysical.set i { v with zone := z' }) i p).HasCb j cb →
      s.HasCb j cb ∨ j = i ∧ cb ∈ cbs := hasCb_set hv (fun q hq => carved_cb hcarved hq) rfl
  have hpcb := hhas ⟨_, hself, List.mem_map_of_mem hp⟩
  have hnew {m j : ℕ} {q : VmmPage} (hl : s.Live m j q) : q.cb ≠ p.cb := by
    obtain ⟨w, hw, hused⟩ := hs.live_used hl
    rcases eq_or_ne j i with rfl | hne
    · rw [hv, Option.some.injEq] at hw
      subst hw
      exact carved_ne hcarved hz.cbs hused
    · intro heq
      have hj := heq ▸ hs.live_cb hl
      rcases hpcb with hpi | ⟨-, hmem⟩
      · exact hne (hs.cbs j i p.cb hj hpi)
      · exact (hfresh.2 p.cb hmem).1 j hj
  have hfake {f : ℕ} (hf : f ∈ s.fakes) : f ≠ p.cb := by
    rintro rfl
    rcases hpcb with hpi | ⟨-, hmem⟩
    · exact hs.fakes _ hf i hpi
    · exact (hfresh.2 p.cb hmem).2 hf
  have hlive {m j : ℕ} {q : VmmPage} :
      (s.handOut (s.vmzonePhysical.set i { v with zone := z' }) i p).Live m j q ↔
        s.Live m j q ∨ m = s.allocs.length ∧ j = i ∧ q = p := by
    have hlen : s.allocs.length ∉ s.returned := fun h => (hs.below _ h).false
    simp only [Live, PhyMem.handOut, getElem?_concat_iff, Prod.mk.injEq]
    constructor
    · rintro ⟨h | h, hret⟩
      · exact .inl ⟨h, hret⟩
      · exact .inr h
    · rintro (⟨h, hret⟩ | h)
      · exact ⟨.inl h, hret⟩
      · exact ⟨.inr h, h.1 ▸ hlen⟩
  have hcount {m : ℕ} : (s.handOut (s.vmzonePhysical.set i { v with zone := z' }) i p).count m =
      s.count m + if m = s.allocs.length then 1 else 0 := by
    simp [PhyMem.count, PhyMem.handOut, List.countP_append, List.countP_cons, eq_comm]
  have hzero : s.count s.allocs.length = 0 := by
    refine List.countP_eq_zero.mpr fun h hh heq => ?_
    obtain ⟨j, q, hl, -⟩ := hs.holder h hh
    exact hl.lt.ne (of_decide_eq_true heq)
  have hptr {h : ℕ × ℕ} (hh : h ∈ s.holders) : h.1 ≠ p.cb := by
    obtain ⟨j, q, hl, -, ⟨heq, -⟩ | ⟨hf, -⟩⟩ := hs.holder h hh
    · exact heq ▸ hnew hl
    · exact hfake hf
  refine ⟨hs.zones_set hz, fun j k cb hj hk => ?_, fun f hf j hj => ?_, hs.once, fun n hn => ?_,
    fun j w q hw => ?_, fun n j q hl => ?_, fun n m j k q r hn hm heq => ?_, ?_, fun h hh => ?_,
    fun n j q hl => ?_⟩
  · -- A new control block is in no other zone.
    rcases hhas hj with hj' | ⟨hj', hc⟩
    · rcases hhas hk with hk' | ⟨-, hc⟩
      · exact hs.cbs j k cb hj' hk'
      · exact absurd hj' ((hfresh.2 cb hc).1 j)
    · rcases hhas hk with hk' | ⟨hk', -⟩
      · exact absurd hk' ((hfresh.2 cb hc).1 k)
      · exact hj'.trans hk'.symm
  · rcases hhas hj with hj | ⟨-, hc⟩
    · exact hs.fakes f hf j hj
    · exact (hfresh.2 f hc).2 hf
  · rw [PhyMem.handOut, List.length_append]
    exact Nat.lt_add_right 1 (hs.below n hn)
  · simp only [hlive]
    rcases eq_or_ne i j with rfl | hne
    · obtain rfl := Option.some.inj (hself.symm.trans hw)
      rw [carved_used hcarved, hs.used i v q hv]
      simp [exists_or]
    · have hw' : s.vmzonePhysical[j]? = some w := by
        rw [← hw]
        exact (List.getElem?_set_ne hne).symm
      rw [hs.used j w q hw']
      simp [hne.symm]
  · rw [PhyMem.handOut, List.length_set]
    rcases hlive.mp hl with hl | ⟨-, rfl, -⟩
    · exact hs.live n j q hl
    · exact hi
  · rcases hlive.mp hn with hn' | ⟨hn', -, hq⟩
    · rcases hlive.mp hm with hm' | ⟨-, -, hr⟩
      · exact hs.inj n m j k q r hn' hm' heq
      · exact absurd (hr ▸ heq) (hnew hn')
    · rcases hlive.mp hm with hm' | ⟨hm', -, -⟩
      · exact absurd (hq ▸ heq.symm) (hnew hm')
      · exact hn'.trans hm'.symm
  · rw [PhyMem.handOut, List.map_append, List.nodup_append]
    refine ⟨hs.pointers, by simp, fun a ha b hb => ?_⟩
    obtain ⟨h, hh, rfl⟩ := List.mem_map.mp ha
    rw [List.map_singleton, List.mem_singleton] at hb
    exact hb ▸ hptr hh
  · rw [PhyMem.handOut, List.mem_append, List.mem_singleton] at hh
    rcases hh with hh | rfl
    · obtain ⟨j, q, hl, hrefers⟩ := hs.holder h hh
      refine ⟨j, q, hlive.mpr (.inl hl), ?_⟩
      simp only [Refers, PhyMem.handOut, update_of_ne (hptr hh)]
      exact hrefers
    · exact ⟨i, p, hlive.mpr (.inr ⟨rfl, rfl, rfl⟩), by simp [Refers, PhyMem.handOut]⟩
  · rw [hcount]
    rcases hlive.mp hl with hl | ⟨rfl, rfl, rfl⟩
    · rw [if_neg hl.lt.ne, Nat.add_zero, PhyMem.handOut]
      dsimp only
      rw [update_of_ne (hnew hl)]
      exact hs.count n j q hl
    · rw [hzero, if_pos rfl]
      simp [PhyMem.handOut]

section Alloc
variable {pageAllocate : Zone → Option (Zone × Option VmmPage)}

/-- What `__pageAllocate` and `__pageAllocateAlign` do to a zone. -/
def Allocates (g : VmmConf) (cbs : List ℕ) (pageAllocate : Zone → Option (Zone × Option VmmPage))
    (z : Zone) : Prop :=
  ∃ z' o, pageAllocate z = some (z', o) ∧ (o = none → z' = z) ∧
    ∀ p ∈ o, (∃ ulAddr stSize, ZoneInv g ulAddr stSize z') ∧ z.Carved z' p cbs ∧ p ∈ z'.pages

/-- A loop leaves all zones as they are, or changes the one in which it has found the pages. -/
theorem allocLoop_spec (fits : PhyZone → Bool) {zones : List PhyZone} (k : ℕ)
    (hpage : ∀ v ∈ zones, Allocates g cbs pageAllocate v.zone) :
    ∃ zones' o, allocLoop pageAllocate fits k zones = some (zones', o) ∧ (o = none → zones' = zones) ∧
      ∀ i p, o = some (i, p) → ∃ j v z', i = k + j ∧ zones[j]? = some v ∧
        pageAllocate v.zone = some (z', some p) ∧ zones' = zones.set j { v with zone := z' } := by
  induction zones generalizing k with
  | nil => exact ⟨[], none, rfl, fun _ => rfl, nofun⟩
  | cons v zones ih =>
    obtain ⟨zones', o, hloop, hnone, hsome⟩ := ih (k + 1) fun w hw => hpage w (List.mem_cons_of_mem _ hw)
    obtain ⟨z', o', hz', hno, -⟩ := hpage v List.mem_cons_self
    have hskip : ∃ zones'' o'', some (v :: zones', o) = some (zones'', o'') ∧
        (o'' = none → zones'' = v :: zones) ∧ ∀ i p, o'' = some (i, p) → ∃ j w z', i = k + j ∧
          (v :: zones)[j]? = some w ∧ pageAllocate w.zone = some (z', some p) ∧
            zones'' = (v :: zones).set j { w with zone := z' } := by
      refine ⟨_, _, rfl, fun h => by rw [hnone h], fun i p h => ?_⟩
      obtain ⟨j, w, z', hi, hw, hpage', rfl⟩ := hsome i p h
      exact ⟨j + 1, w, z', by omega, hw, hpage', rfl⟩
    unfold allocLoop
    split_ifs with hfits
    · simp only [hz', hloop, Option.bind_eq_bind, Option.bind_some]
      cases o' with
      | some p =>
        refine ⟨_, _, rfl, nofun, fun i q h => ?_⟩
        cases h
        exact ⟨0, v, z', rfl, rfl, hz', rfl⟩
      | none =>
        rw [hno rfl]
        exact hskip
    · simp only [hloop, Option.bind_eq_bind, Option.bind_some]
      exact hskip

theorem PhyInv.allocBy (hs : PhyInv g s) (hfresh : s.FreshCbs cbs)
    (hpage : ∀ v ∈ s.vmzonePhysical, Allocates g cbs pageAllocate v.zone) (ulPageNum uiAttr : ℕ) :
    ∃ s', s.allocBy pageAllocate ulPageNum uiAttr = some s' ∧ PhyInv g s' := by
  have hout {zones : List PhyZone} {p : VmmPage} {i : ℕ} (h : ∃ j v z', i = 0 + j ∧
      s.vmzonePhysical[j]? = some v ∧ pageAllocate v.zone = some (z', some p) ∧
        zones = s.vmzonePhysical.set j { v with zone := z' }) :
      PhyInv g (s.handOut zones i p) := by
    obtain ⟨j, v, z', hi, hv, hz', rfl⟩ := h
    rw [Nat.zero_add] at hi
    subst hi
    obtain ⟨z'', o, heq, -, hsome⟩ := hpage v (List.mem_of_getElem? hv)
    obtain ⟨rfl, rfl⟩ := Prod.mk.inj (Option.some.inj (hz'.symm.trans heq))
    obtain ⟨⟨_, _, hz⟩, hcarved, hp⟩ := hsome p rfl
    exact hs.handOut hv hz hcarved hp hfresh
  unfold PhyMem.allocBy
  obtain ⟨zones, o, hloop, hnone, hsome⟩ := allocLoop_spec
    (fun v => v.uiAttr = uiAttr ∧ ulPageNum ≤ v.zone.ulFreePage) 0 hpage
  simp only [hloop, Option.bind_eq_bind, Option.bind_some]
  cases o with
  | some ip => exact ⟨_, rfl, hout (hsome _ _ rfl)⟩
  | none =>
    obtain rfl := hnone rfl
    obtain ⟨zones, o, hloop, hnone, hsome⟩ := allocLoop_spec
      (fun v => v.uiAttr &&& uiAttr = uiAttr ∧ ulPageNum ≤ v.zone.ulFreePage) 0 hpage
    simp only [hloop, Option.bind_some]
    cases o with
    | some ip => exact ⟨_, rfl, hout (hsome _ _ rfl)⟩
    | none => exact ⟨_, rfl, hnone rfl ▸ hs⟩

theorem PhyMem.FreshCbs.fresh (h : s.FreshCbs cbs) (hv : v ∈ s.vmzonePhysical) : Fresh v.zone cbs := by
  refine ⟨h.1, fun c hc p hp heq => ?_⟩
  obtain ⟨i, hi⟩ := List.getElem?_of_mem hv
  exact (h.2 c hc).1 i ⟨v, hi, heq ▸ List.mem_map_of_mem hp⟩

theorem PhyInv.allocates (hs : PhyInv g s) (hfresh : s.FreshCbs cbs) (hv : v ∈ s.vmzonePhysical)
    (ulPageNum : ℕ) : Allocates g cbs (fun z => z.pageAllocate g ulPageNum .physical cbs) v.zone := by
  obtain ⟨a, b, hz⟩ := hs.zones v hv
  obtain ⟨z', o, heq, hz', hnone, hsome⟩ := hz.pageAllocate ulPageNum .physical (hfresh.fresh hv)
  refine ⟨z', o, heq, hnone, fun p hp => ⟨⟨a, b, hz'⟩, ?_, (hsome p hp).1⟩⟩
  obtain rfl := Option.mem_def.mp hp
  exact hz.carved heq

theorem PhyInv.allocatesAlign (hs : PhyInv g s) (hfresh : s.FreshCbs cbs)
    (hv : v ∈ s.vmzonePhysical) (ulPageNum j : ℕ) :
    Allocates g cbs (fun z => z.pageAllocateAlign g ulPageNum (2 ^ j) .physical cbs) v.zone := by
  obtain ⟨a, b, hz⟩ := hs.zones v hv
  obtain ⟨z', o, heq, hz', hnone, hsome⟩ := hz.pageAllocateAlign ulPageNum j .physical
    (hfresh.fresh hv)
  refine ⟨z', o, heq, hnone, fun p hp => ⟨⟨a, b, hz'⟩, ?_, (hsome p hp).1⟩⟩
  obtain rfl := Option.mem_def.mp hp
  exact hz.carvedAlign heq

theorem PhyInv.physicalPageAllocZone (hs : PhyInv g s) (hfresh : s.FreshCbs cbs)
    (i ulPageNum uiAttr : ℕ) :
    ∃ s', s.physicalPageAllocZone g i ulPageNum uiAttr cbs = some s' ∧ PhyInv g s' := by
  unfold PhyMem.physicalPageAllocZone
  cases hv : s.vmzonePhysical[i]? with
  | none => exact ⟨s, rfl, hs⟩
  | some v =>
    dsimp only
    split_ifs with hfits
    · obtain ⟨z', o, heq, hnone, hsome⟩ := hs.allocates hfresh (List.mem_of_getElem? hv) ulPageNum
      dsimp only at heq
      simp only [heq, Option.bind_eq_bind, Option.bind_some]
      cases o with
      | some p =>
        obtain ⟨⟨_, _, hz⟩, hcarved, hp⟩ := hsome p rfl
        exact ⟨_, rfl, hs.handOut hv hz hcarved hp hfresh⟩
      | none =>
        obtain rfl := hnone rfl
        obtain ⟨hi, rfl⟩ := List.getElem?_eq_some_iff.mp hv
        refine ⟨_, rfl, ?_⟩
        rw [show s.vmzonePhysical.set i _ = s.vmzonePhysical from List.set_getElem_self hi]
        exact hs
    · exact ⟨s, rfl, hs⟩

end Alloc

/-! ## References -/

/-- The entry of a holder among the others. -/
theorem PhyInv.cut_holder (hs : PhyInv g s) (hh : (h, n) ∈ s.holders) :
    ∃ l r, s.holders = l ++ (h, n) :: r ∧ s.holders.filter (·.1 = h) = [(h, n)] ∧
      s.holders.filter (·.1 ≠ h) = l ++ r := by
  obtain ⟨l, r, heq⟩ := List.append_of_mem hh
  have hnodup := hs.pointers
  rw [heq, List.map_append, List.map_cons, List.perm_middle.nodup_iff, List.nodup_cons,
    List.mem_append, not_or] at hnodup
  have hl : ∀ a ∈ l, a.1 ≠ h := fun a ha hah => hnodup.1.1 (List.mem_map.mpr ⟨a, ha, hah⟩)
  have hr : ∀ a ∈ r, a.1 ≠ h := fun a ha hah => hnodup.1.2 (List.mem_map.mpr ⟨a, ha, hah⟩)
  refine ⟨l, r, heq, ?_, ?_⟩
  · rw [heq, List.filter_append, List.filter_cons_of_pos (by simp),
      List.filter_eq_nil_iff.mpr (by simpa using hl), List.filter_eq_nil_iff.mpr (by simpa using hr)]
    rfl
  · rw [heq, List.filter_append, List.filter_cons_of_neg (by simp),
      List.filter_eq_self.mpr (by simpa using hl), List.filter_eq_self.mpr (by simpa using hr)]

theorem PhyMem.Refers.real (h : s.Refers m i p) : s.real m = p.cb := by
  obtain ⟨-, ⟨rfl, heq⟩ | ⟨-, heq⟩⟩ := h
  · rw [PhyMem.real, heq, Option.getD_none]
  · rw [PhyMem.real, heq, Option.getD_some]

theorem PhyInv.physicalPageRef (hs : PhyInv g s) (hh : h ∈ s.holders.map Prod.fst)
    {fake : Option ℕ} (hfake : ∀ f ∈ fake, (∀ i, ¬ s.HasCb i f) ∧ f ∉ s.fakes) :
    PhyInv g (s.physicalPageRef h fake) := by
  cases fake with
  | none => exact hs
  | some f =>
    obtain ⟨hcb, hf⟩ := hfake f rfl
    obtain ⟨⟨h, n⟩, hmem, rfl⟩ := List.mem_map.mp hh
    obtain ⟨i, p, hl, hrefers⟩ := hs.holder _ hmem
    obtain ⟨l, r, heq, hself, -⟩ := hs.cut_holder hmem
    have hreal := hrefers.real
    have hne {m j : ℕ} {q : VmmPage} (hq : s.Live m j q) : q.cb ≠ f :=
      fun heq => hcb j (heq ▸ hs.live_cb hq)
    have hptr {a : ℕ × ℕ} (ha : a ∈ s.holders) : a.1 ≠ f := by
      obtain ⟨j, q, hq, -, ⟨haq, -⟩ | ⟨haf, -⟩⟩ := hs.holder a ha
      · exact haq ▸ hne hq
      · rintro rfl
        exact hf haf
    have hholders : (s.physicalPageRef h (some f)).holders = s.holders ++ [(f, n)] := by
      simp only [PhyMem.physicalPageRef, hself, List.map_singleton]
    have hcount (m : ℕ) : (s.physicalPageRef h (some f)).count m =
        s.count m + if m = n then 1 else 0 := by
      rw [PhyMem.count, hholders]
      simp [PhyMem.count, List.countP_append, List.countP_cons, eq_comm]
    refine ⟨hs.zones, hs.cbs, fun a ha j hj => ?_, hs.once, hs.below, hs.used, hs.live, hs.inj, ?_,
      fun a ha => ?_, fun m j q hq => ?_⟩
    · rcases List.mem_cons.mp ha with rfl | ha
      · exact hcb j hj
      · exact hs.fakes a ha j hj
    · rw [hholders, List.map_append, List.nodup_append]
      refine ⟨hs.pointers, by simp, fun a ha b hb => ?_⟩
      obtain ⟨c, hc, rfl⟩ := List.mem_map.mp ha
      rw [List.map_singleton, List.mem_singleton] at hb
      exact hb ▸ hptr hc
    · rw [hholders, List.mem_append, List.mem_singleton] at ha
      rcases ha with ha | rfl
      · obtain ⟨j, q, hq, howner, hcase⟩ := hs.holder a ha
        refine ⟨j, q, hq, ?_, ?_⟩
        · simpa [PhyMem.physicalPageRef, hptr ha] using howner
        · simp only [PhyMem.physicalPageRef, update_of_ne (hptr ha), List.mem_cons]
          exact hcase.imp_right fun hc => ⟨.inr hc.1, hc.2⟩
      · refine ⟨i, p, hl, ?_, .inr ⟨List.mem_cons_self, ?_⟩⟩
        · simpa [PhyMem.physicalPageRef] using hrefers.1
        · simp [PhyMem.physicalPageRef, hreal]
    · obtain ⟨hold, hpos⟩ := hs.count m j q hq
      rw [hcount]
      simp only [PhyMem.physicalPageRef, hreal, update_of_ne (hne hq)]
      refine ⟨?_, by omega⟩
      rcases eq_or_ne m n with rfl | hmn
      · obtain ⟨rfl, rfl⟩ := Prod.mk.inj (Option.some.inj (hq.1.symm.trans hl.1))
        rw [update_self, hold, if_pos rfl]
      · have hqp : q.cb ≠ p.cb := fun heq => hmn (hs.inj m n j i q p hq hl heq)
        rw [update_of_ne hqp, hold, if_neg hmn, Nat.add_zero]

/-! ## Frees -/

/-- The pages go back to their zone when the others are held as before. -/
theorem PhyInv.back (hs : PhyInv g s) (hl : s.Live n i p) (hv : s.vmzonePhysical[i]? = some v)
    (hz' : ∃ ulAddr stSize, ZoneInv g ulAddr stSize z')
    (hkept : ∀ q, z'.Used q ↔ v.zone.Used q ∧ q.cb ≠ p.cb)
    (hcb : ∀ q ∈ z'.pages, q.cb ∈ v.zone.pages.map VmmPage.cb)
    (hzones : s'.vmzonePhysical = s.vmzonePhysical.set i { v with zone := z' })
    (hallocs : s'.allocs = s.allocs) (hret : s'.returned = s.returned ++ [n])
    (hfakes : ∀ f ∈ s'.fakes, f ∈ s.fakes) (hpointers : (s'.holders.map Prod.fst).Nodup)
    (hholder : ∀ a ∈ s'.holders, a.2 ≠ n ∧ ∃ j q, s.Live a.2 j q ∧ s'.Refers a.1 j q)
    (hcount : ∀ m j q, s.Live m j q → m ≠ n → s'.ulRef q.cb = s'.count m ∧ 0 < s'.count m) :
    PhyInv g s' := by
  have hlive {m j : ℕ} {q : VmmPage} : s'.Live m j q ↔ s.Live m j q ∧ m ≠ n := by
    simp [Live, hallocs, hret, and_assoc]
  have hhas {j cb : ℕ} (hj : s'.HasCb j cb) : s.HasCb j cb := by
    have hold : s.HasCb j cb ∨ j = i ∧ cb ∈ [] :=
      hasCb_set hv (fun q hq => .inl (hcb q hq)) hzones hj
    exact hold.resolve_right (by simp)
  have hpages {m j : ℕ} {q : VmmPage} (hm : s.Live m j q) : m = n → j = i ∧ q = p := by
    rintro rfl
    exact Prod.mk.inj (Option.some.inj (hm.1.symm.trans hl.1))
  obtain ⟨ulAddr, stSize, hz'⟩ := hz'
  refine ⟨hzones ▸ hs.zones_set hz', fun j k cb hj hk => hs.cbs j k cb (hhas hj) (hhas hk),
    fun f hf j hj => hs.fakes f (hfakes f hf) j (hhas hj), ?_, fun m hm => ?_,
    fun j w q hw => ?_, fun m j q hq => ?_, fun m m' j k q q' hq hq' heq => ?_, hpointers,
    fun a ha => ?_, fun m j q hq => hcount m j q (hlive.mp hq).1 (hlive.mp hq).2⟩
  · rw [hret, List.nodup_append]
    refine ⟨hs.once, by simp, fun a ha b hb => ?_⟩
    rintro rfl
    exact hl.2 (List.mem_singleton.mp hb ▸ ha)
  · rw [hallocs]
    rw [hret] at hm
    rcases List.mem_append.mp hm with hm | hm
    · exact hs.below m hm
    · exact List.mem_singleton.mp hm ▸ hl.lt
  · simp only [hlive]
    rw [hzones] at hw
    rcases eq_or_ne i j with rfl | hne
    · rw [List.getElem?_set_self (List.getElem?_eq_some_iff.mp hv).1, Option.some.injEq] at hw
      subst hw
      rw [hkept q, hs.used i v q hv]
      constructor
      · rintro ⟨⟨m, hm⟩, hne⟩
        exact ⟨m, hm, fun heq => hne (congrArg VmmPage.cb (hpages hm heq).2)⟩
      · rintro ⟨m, hm, hne⟩
        exact ⟨⟨m, hm⟩, fun heq => hne (hs.inj m n i i q p hm hl heq)⟩
    · rw [List.getElem?_set_ne hne] at hw
      rw [hs.used j w q hw]
      constructor
      · rintro ⟨m, hm⟩
        exact ⟨m, hm, fun heq => hne (hpages hm heq).1.symm⟩
      · rintro ⟨m, hm, -⟩
        exact ⟨m, hm⟩
  · rw [hzones, List.length_set]
    exact hs.live m j q (hlive.mp hq).1
  · exact hs.inj m m' j k q q' (hlive.mp hq).1 (hlive.mp hq').1 heq
  · obtain ⟨hne, j, q, hq, hrefers⟩ := hholder a ha
    exact ⟨j, q, hlive.mpr ⟨hq, hne⟩, hrefers⟩

theorem PhyInv.physicalPageFree (hs : PhyInv g s) (hh : h ∈ s.holders.map Prod.fst) :
    ∃ s', s.physicalPageFree g h = some s' ∧ PhyInv g s' := by
  obtain ⟨⟨h, n⟩, hmem, rfl⟩ := List.mem_map.mp hh
  obtain ⟨i, p, hl, hrefers⟩ := hs.holder _ hmem
  obtain ⟨l, r, heq, hself, hother⟩ := hs.cut_holder hmem
  obtain ⟨hold, hpos⟩ := hs.count n i p hl
  have hreal := hrefers.real
  have hlr (a : ℕ × ℕ) : a ∈ l ++ r ↔ a ∈ s.holders ∧ a.1 ≠ h := by
    rw [← hother, List.mem_filter, decide_eq_true_iff]
  have hcount (m : ℕ) : (l ++ r).countP (·.2 = m) = s.count m - if m = n then 1 else 0 := by
    rw [PhyMem.count, heq]
    rcases eq_or_ne m n with rfl | hmn
    · simp [List.countP_append]
    · simp [List.countP_append, hmn, hmn.symm]
  have href {m j : ℕ} {q : VmmPage} (hq : s.Live m j q) :
      update s.ulRef p.cb (s.ulRef p.cb - 1) q.cb = (l ++ r).countP (·.2 = m) := by
    rw [hcount]
    rcases eq_or_ne m n with rfl | hmn
    · obtain ⟨rfl, rfl⟩ := Prod.mk.inj (Option.some.inj (hq.1.symm.trans hl.1))
      rw [update_self, hold, if_pos rfl]
    · have hqp : q.cb ≠ p.cb := fun heq => hmn (hs.inj m n j i q p hq hl heq)
      rw [update_of_ne hqp, (hs.count m j q hq).1, if_neg hmn, Nat.sub_zero]
  have hpointers : ((l ++ r).map Prod.fst).Nodup := by
    rw [← hother]
    exact hs.pointers.sublist (List.filter_sublist.map _)
  generalize hfakes' : (if (s.pvmpageReal h).isSome then s.fakes.erase h else s.fakes) = fakes'
  have hfakes {f : ℕ} : (f ∈ fakes' → f ∈ s.fakes) ∧ (f ∈ s.fakes → f ≠ h → f ∈ fakes') := by
    subst hfakes'
    split_ifs
    · exact ⟨List.mem_of_mem_erase, fun hf hne => (List.mem_erase_of_ne hne).mpr hf⟩
    · exact ⟨id, fun hf _ => hf⟩
  have hholder {a : ℕ × ℕ} (ha : a ∈ l ++ r) : ∃ j q, s.Live a.2 j q ∧ s.pvmzoneOwner a.1 = j ∧
      ((a.1 = q.cb ∧ s.pvmpageReal a.1 = none) ∨
        (a.1 ∈ fakes' ∧ s.pvmpageReal a.1 = some q.cb)) := by
    obtain ⟨hmem', hne⟩ := (hlr a).mp ha
    obtain ⟨j, q, hq, howner, hcase⟩ := hs.holder a hmem'
    exact ⟨j, q, hq, howner, hcase.imp_right fun hc => ⟨hfakes.2 hc.1 hne, hc.2⟩⟩
  simp only [PhyMem.physicalPageFree, hreal, hfakes', hother, hself, update_self,
    hrefers.1]
  split_ifs with hzero
  · -- The last holder.
    obtain ⟨v, hv, hused⟩ := hs.live_used hl
    obtain ⟨ulAddr, stSize, hz⟩ := hs.zones v (List.mem_of_getElem? hv)
    obtain ⟨z', hfree, hz'⟩ := hz.pageFree hused.1 hused.2
    obtain ⟨hkept, hcb⟩ := pageFree_used hz.cbs hfree
    simp only [hv, hfree, Option.bind_eq_bind, Option.bind_some, List.map_singleton]
    refine ⟨_, rfl, hs.back hl hv ⟨_, _, hz'⟩ hkept hcb rfl rfl rfl (fun f hf => hfakes.1 hf)
      hpointers (fun a ha => ⟨fun heq => ?_, hholder ha⟩) fun m j q hq hmn => ⟨href hq, ?_⟩⟩
    · have hno : (l ++ r).countP (·.2 = n) = 0 := by
        rw [hcount, if_pos rfl, ← hold]
        exact hzero
      exact List.countP_eq_zero.mp hno a ha (decide_eq_true heq)
    · change 0 < (l ++ r).countP (·.2 = m)
      rw [hcount, if_neg hmn]
      exact (hs.count m j q hq).2
  · refine ⟨_, rfl, hs.zones, hs.cbs, fun f hf => hs.fakes f (hfakes.1 hf), hs.once, hs.below, hs.used,
      hs.live, hs.inj, hpointers, fun a ha => hholder ha, fun m j q hq => ⟨href hq, ?_⟩⟩
    change 0 < (l ++ r).countP (·.2 = m)
    have hpos' := (hs.count m j q hq).2
    rw [hcount]
    split_ifs with hmn
    · subst hmn
      omega
    · exact hpos'

/-! ## Runs -/

theorem PhyInv.step (hs : PhyInv g s) (op : PhyOp) (hok : s.StepOk op) :
    ∃ s', s.step g op = some s' ∧ PhyInv g s' := by
  cases op with
  | alloc ulPageNum uiAttr cbs =>
    exact hs.allocBy hok (fun v hv => hs.allocates hok hv ulPageNum) ulPageNum uiAttr
  | allocZone ulZoneIndex ulPageNum uiAttr cbs =>
    exact hs.physicalPageAllocZone hok ulZoneIndex ulPageNum uiAttr
  | allocAlign ulPageNum stAlign uiAttr cbs =>
    obtain ⟨⟨j, rfl⟩, hfresh⟩ := hok
    exact hs.allocBy hfresh (fun v hv => hs.allocatesAlign hfresh hv ulPageNum j) ulPageNum uiAttr
  | ref pvmpage pvmpageFake => exact ⟨_, rfl, hs.physicalPageRef hok.1 hok.2⟩
  | free pvmpage => exact hs.physicalPageFree hok

theorem PhyMem.Init.inv (hs : s.Init g) : PhyInv g s := by
  have hlive {m j : ℕ} {q : VmmPage} : ¬ s.Live m j q := by
    rintro ⟨h, -⟩
    rw [hs.allocs] at h
    cases h
  refine ⟨fun v hv => ?_, hs.cbs, by simp [hs.fakes], by simp [hs.returned], by simp [hs.returned],
    fun i v p hv => ?_, fun _ _ _ h => absurd h hlive, fun _ _ _ _ _ _ h => absurd h hlive,
    by simp [hs.holders], by simp [hs.holders], fun _ _ _ h => absurd h hlive⟩
  · obtain ⟨ulAddr, stSize, cbs, haddr, hz⟩ := hs.zones v hv
    exact ⟨ulAddr, stSize, ZoneInv.create haddr ⟨_, cbs, hz⟩⟩
  · obtain ⟨ulAddr, stSize, cbs, -, hz⟩ := hs.zones v (List.mem_of_getElem? hv)
    refine iff_of_false ?_ fun ⟨_, h⟩ => hlive h
    rintro ⟨hp, hused⟩
    cases cbs with
    | nil => cases hz
    | cons c cbs =>
      simp only [VmmConf.pageZoneCreate, Except.ok.injEq] at hz
      rw [← hz, List.mem_singleton] at hp
      rw [hp] at hused
      cases hused

/-- Whatever is allocated, referenced and freed, pages go back to their zone with their last holder. -/
theorem physicalPage_safe (h : Reach (PhyMem.step g) PhyMem.StepOk (PhyMem.Init g) s) : s.Safe g := by
  have hinv := h.invariant (fun _ => PhyMem.Init.inv) fun s op s' hs hok hstep => by
    obtain ⟨s₁, h₁, hs₁⟩ := hs.step op hok
    exact (Option.some.inj (h₁.symm.trans hstep)) ▸ hs₁
  exact hinv.safe fun op hok => (hinv.step op hok).imp fun _ h => h.1

theorem PhyMem.not_hasCb (h : ∀ v ∈ s.vmzonePhysical, cb ∉ v.zone.pages.map VmmPage.cb) (i : ℕ) :
    ¬ s.HasCb i cb := by
  rintro ⟨v, hv, hmem⟩
  exact h v (List.mem_of_getElem? hv) hmem

/-- One zone of 16 pages. -/
def sixteenPages : PhyMem where
  vmzonePhysical := [⟨⟨16, 0x10000, 0x10000, update (fun _ => ⟨[], 0⟩) 4 ⟨[10], 1⟩,
    [⟨10, 0x10000, 16, .physical, false⟩]⟩, 0⟩]
  ulRef _ := 0
  pvmpageReal _ := none
  pvmzoneOwner _ := 0
  fakes := []
  allocs := []
  holders := []
  returned := []

theorem sixteenPages_init : sixteenPages.Init vmm12 where
  zones v hv := by
    rw [List.mem_singleton.mp hv]
    exact ⟨0x10000, 0x10000, [10], by decide, rfl⟩
  cbs i j cb := by
    rintro ⟨v, hv, -⟩ ⟨w, hw, -⟩
    rcases i with _ | i
    · rcases j with _ | j
      · rfl
      · cases hw
    · cases hv
  fakes := rfl
  allocs := rfl
  holders := rfl
  returned := rfl

/-- Three pages are referenced, also through a fake page, and freed by the first holder and then by the
others. -/
theorem physicalPage_safe_three :
    ∃ s, Reach (PhyMem.step vmm12) PhyMem.StepOk (PhyMem.Init vmm12) s ∧ s.holders = [(101, 0)] ∧
      s.returned = [] ∧ s.Safe vmm12 ∧ ∃ s', s.step vmm12 (.free 101) = some s' ∧ s'.returned = [0] := by
  have h₀ : Reach (PhyMem.step vmm12) PhyMem.StepOk (PhyMem.Init vmm12) sixteenPages :=
    .start sixteenPages_init
  have h₁ := h₀.extend (.alloc 3 0 [11])
    ⟨by decide, by simpa using ⟨PhyMem.not_hasCb (by decide), by decide⟩⟩ rfl
  have h₂ := h₁.extend (.ref 10 (some 100))
    ⟨by decide, by simpa using ⟨PhyMem.not_hasCb (by decide), by decide⟩⟩ rfl
  have h₃ := h₂.extend (.ref 100 (some 101))
    ⟨by decide, by simpa using ⟨PhyMem.not_hasCb (by decide), by decide⟩⟩ rfl
  have h₄ := h₃.extend (.free 10) (show 10 ∈ [10, 100, 101] by decide) rfl
  have h₅ := h₄.extend (.free 100) (show 100 ∈ [100, 101] by decide) rfl
  exact ⟨_, h₅, rfl, rfl, physicalPage_safe h₅, _, rfl, rfl⟩

end SylixOS.Kernel
