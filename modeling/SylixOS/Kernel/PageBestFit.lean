import SylixOS.Kernel.PageZoneSafe

/-! # The page allocator finds the best fit

The search of `__pageAllocate` ends at the first free area with a segment that fits. The areas are in the
order of sizes, so that no segment of a later area is smaller than it. What does not fit in any area from
that of the request on does not fit in any.
-/

namespace SylixOS.Kernel
open Lib

/-- A free segment of the zone with room for some pages after those that are left out. -/
structure Adequate (z : Zone) (leftNum : VmmPage → ℕ) (ulPageNum : ℕ) (p : VmmPage) : Prop where
  mem : p ∈ z.pages
  isFree : p.bUsed = false
  room : ulPageNum + leftNum p ≤ p.ulCount

/-- An adequate segment that is not larger than another one. -/
structure Smallest (z : Zone) (leftNum : VmmPage → ℕ) (ulPageNum : ℕ) (p : VmmPage) : Prop
    extends Adequate z leftNum ulPageNum p where
  least : ∀ q, Adequate z leftNum ulPageNum q → p.ulCount ≤ q.ulCount

/-- Some pages of the segment begin at an address with the alignment. -/
def VmmPage.CanHold (g : VmmConf) (p : VmmPage) (ulPageNum stAlign : ℕ) : Prop :=
  ∃ ulAddr, stAlign ∣ ulAddr ∧ p.ulPageAddr ≤ ulAddr ∧
    ulAddr + g.bytes ulPageNum ≤ p.ulPageAddr + g.bytes p.ulCount

variable {g : VmmConf} {leftNum : VmmPage → ℕ} {ulAddr stSize ulPageNum i j : ℕ} {z : Zone}
  {p q : VmmPage}

/-! ## The order of the areas -/

/-- Where the loop ends that begins with the smallest size. -/
theorem hashLoop_zero (n : ℕ) : n ≤ 2 ^ hashLoop n n 0 ∧ ∀ i < hashLoop n n 0, 2 ^ i < n :=
  hashLoop_spec (Nat.le_add_right n 0) fun i hi => absurd hi (Nat.not_lt_zero i)

theorem hashLoop_mono {m n : ℕ} (h : m ≤ n) : hashLoop m m 0 ≤ hashLoop n n 0 := by
  by_contra hlt
  have hn := (hashLoop_zero n).1
  have hm := (hashLoop_zero m).2 _ (Nat.not_le.mp hlt)
  omega

theorem pageFreeHashIndex_eq (n : ℕ) :
    g.pageFreeHashIndex n = min (hashLoop n n 0) (g.maxOrder - 1) := by
  have hpos := g.order_pos
  unfold VmmConf.pageFreeHashIndex
  dsimp only
  split_ifs with h <;> omega

theorem pageFreeHashIndex_mono {m n : ℕ} (h : m ≤ n) :
    g.pageFreeHashIndex m ≤ g.pageFreeHashIndex n := by
  have := hashLoop_mono h
  rw [pageFreeHashIndex_eq, pageFreeHashIndex_eq]
  omega

theorem pageFreeHashIndex_lt (n : ℕ) : g.pageFreeHashIndex n < g.maxOrder := by
  have hpos := g.order_pos
  rw [pageFreeHashIndex_eq]
  omega

/-- A segment of an earlier area is smaller. -/
theorem lt_of_index_lt (h : g.pageFreeHashIndex p.ulCount < g.pageFreeHashIndex q.ulCount) :
    p.ulCount < q.ulCount := by
  by_contra hle
  have := pageFreeHashIndex_mono (g := g) (Nat.not_lt.mp hle)
  omega

/-- An area that the search looks at has the index of a segment that is adequate. -/
theorem Adequate.index_mem (h : Adequate z leftNum ulPageNum q) : g.pageFreeHashIndex q.ulCount ∈
    List.range' (g.pageFreeHashIndex ulPageNum) (g.maxOrder - g.pageFreeHashIndex ulPageNum) := by
  have hroom := h.room
  have hmono := pageFreeHashIndex_mono (g := g) (show ulPageNum ≤ q.ulCount by omega)
  have hlt := pageFreeHashIndex_lt (g := g) q.ulCount
  rw [List.mem_range'_1]
  omega

/-! ## The search -/

section Search
variable (leftNum ulPageNum)

/-- The loop over a free area ends with a segment that is not larger than the one it began with, or than
an adequate one of the area. -/
theorem ZoneInv.bestFit_least (h : ZoneInv g ulAddr stSize z) {areas : List ℕ}
    (harea : ∀ c ∈ areas, c ∈ areaOf g i z.pages) (fit : Option VmmPage) :
    ∃ o, z.bestFit leftNum ulPageNum areas fit = some o ∧
      (∀ p ∈ fit, ∃ p' ∈ o, p'.ulCount ≤ p.ulCount) ∧
      ∀ q, Adequate z leftNum ulPageNum q → q.cb ∈ areas → ∃ p' ∈ o, p'.ulCount ≤ q.ulCount := by
  induction areas generalizing fit with
  | nil => exact ⟨fit, rfl, fun p hp => ⟨p, hp, le_rfl⟩, fun q _ hq => by cases hq⟩
  | cons c areas ih =>
    obtain ⟨p, hp, hfree, -, rfl⟩ := mem_areaOf.mp (harea c List.mem_cons_self)
    obtain ⟨l, r, -, hcut⟩ := exists_cut h.cbs hp
    have hrest : ∀ c ∈ areas, c ∈ areaOf g i z.pages :=
      fun c hc => harea c (List.mem_cons_of_mem _ hc)
    simp only [Zone.bestFit, hcut, Option.bind_eq_bind, Option.bind_some]
    split_ifs with hroom
    · -- The segment is taken, and it is smaller than the one before.
      obtain ⟨o, ho, hfit, hq⟩ := ih hrest (some p)
      obtain ⟨p', hp', hle⟩ := hfit p rfl
      refine ⟨o, ho, fun f hf => ⟨p', hp', ?_⟩, fun q hadq hqc => ?_⟩
      · have := hroom.2 f hf
        omega
      · rcases List.mem_cons.mp hqc with hqc | hqc
        · obtain rfl := eq_of_cb h.cbs hadq.mem hp hqc
          exact ⟨p', hp', hle⟩
        · exact hq q hadq hqc
    · obtain ⟨o, ho, hfit, hq⟩ := ih hrest fit
      refine ⟨o, ho, hfit, fun q hadq hqc => ?_⟩
      rcases List.mem_cons.mp hqc with hqc | hqc
      · obtain rfl := eq_of_cb h.cbs hadq.mem hp hqc
        have hadq := hadq.room
        rw [not_and] at hroom
        obtain ⟨f, hf, hle⟩ : ∃ f ∈ fit, f.ulCount - ulPageNum ≤ q.ulCount - ulPageNum := by
          simpa using hroom hadq
        obtain ⟨p', hp', hle'⟩ := hfit f hf
        exact ⟨p', hp', by omega⟩
      · exact hq q hadq hqc

/-- The first area with an adequate segment has the smallest one. -/
theorem ZoneInv.searchAreas_least (h : ZoneInv g ulAddr stSize z) {areas : List ℕ}
    (hsorted : areas.Pairwise (· < ·)) :
    ∃ o, z.searchAreas leftNum ulPageNum areas = some o ∧
      ∀ q, Adequate z leftNum ulPageNum q → g.pageFreeHashIndex q.ulCount ∈ areas →
        ∃ i p, o = some (i, p) ∧ p.ulCount ≤ q.ulCount := by
  induction areas with
  | nil => exact ⟨none, rfl, fun q _ hq => by cases hq⟩
  | cons i areas ih =>
    obtain ⟨hfirst, hsorted⟩ := List.pairwise_cons.mp hsorted
    obtain ⟨o, ho, hleast⟩ := ih hsorted
    have hmem (q : VmmPage) (hadq : Adequate z leftNum ulPageNum q)
        (hi : g.pageFreeHashIndex q.ulCount = i) : q.cb ∈ (z.vmfa i).lineFreeHeader :=
      (h.binned i).1.mem_iff.mpr (mem_areaOf.mpr ⟨q, hadq.mem, hadq.isFree, hi, rfl⟩)
    simp only [Zone.searchAreas]
    split_ifs with hcount
    · refine ⟨o, ho, fun q hadq hq => ?_⟩
      rcases List.mem_cons.mp hq with hi | hq
      · have hnil : (z.vmfa i).lineFreeHeader = [] :=
          List.eq_nil_of_length_eq_zero ((h.binned i).2 ▸ hcount)
        have := hmem q hadq hi
        rw [hnil] at this
        cases this
      · exact hleast q hadq hq
    · obtain ⟨fit, hfit, hfits⟩ := h.bestFit leftNum ulPageNum
        (fun c hc => (h.binned i).1.mem_iff.mp hc) (fun p (hp : p ∈ none) => by cases hp)
      obtain ⟨fit', hfit', -, harea⟩ := h.bestFit_least leftNum ulPageNum
        (fun c hc => (h.binned i).1.mem_iff.mp hc) none
      obtain rfl : fit = fit' := by
        rw [hfit] at hfit'
        exact Option.some.inj hfit'
      simp only [hfit, Option.bind_eq_bind, Option.bind_some]
      cases fit with
      | none =>
        refine ⟨o, ho, fun q hadq hq => ?_⟩
        rcases List.mem_cons.mp hq with hi | hq
        · obtain ⟨p', hp', -⟩ := harea q hadq (hmem q hadq hi)
          cases hp'
        · exact hleast q hadq hq
      | some p =>
        refine ⟨_, rfl, fun q hadq hq => ⟨i, p, rfl, ?_⟩⟩
        rcases List.mem_cons.mp hq with hi | hq
        · obtain ⟨p', hp', hle⟩ := harea q hadq (hmem q hadq hi)
          obtain rfl := Option.some.inj hp'
          exact hle
        · refine (lt_of_index_lt (g := g) ?_).le
          rw [(hfits p rfl).area]
          exact hfirst _ hq

/-- The search finds a smallest adequate segment, and nothing only where there is none. -/
theorem ZoneInv.search_least (h : ZoneInv g ulAddr stSize z) :
    (∃ i p, z.search g leftNum ulPageNum = some (some (i, p)) ∧ Smallest z leftNum ulPageNum p) ∨
      z.search g leftNum ulPageNum = some none ∧ ∀ q, ¬ Adequate z leftNum ulPageNum q := by
  obtain ⟨o, ho, hfits⟩ := h.search leftNum ulPageNum
  obtain ⟨o', ho', hleast⟩ := h.searchAreas_least leftNum ulPageNum
    (List.pairwise_lt_range' (s := g.pageFreeHashIndex ulPageNum)
      (n := g.maxOrder - g.pageFreeHashIndex ulPageNum))
  obtain rfl : o = o' := by
    rw [Zone.search, ho'] at ho
    exact (Option.some.inj ho).symm
  match o, ho, hfits, hleast with
  | none, ho, _, hleast =>
    refine .inr ⟨ho, fun q hadq => ?_⟩
    obtain ⟨i, p, heq, -⟩ := hleast q hadq hadq.index_mem
    cases heq
  | some (i, p), ho, hfits, hleast =>
    have hp := hfits i p rfl
    refine .inl ⟨i, p, ho, ⟨hp.mem, hp.isFree, hp.room⟩, fun q hadq => ?_⟩
    obtain ⟨i', p', heq, hle⟩ := hleast q hadq hadq.index_mem
    cases heq
    exact hle

end Search

/-! ## Alignment -/

/-- No aligned address comes before the one that the code goes on to. -/
theorem align_left_le {A : ℕ} (hp : 2 ^ g.pageShift ∣ p.ulPageAddr) (hA : 2 ^ j ∣ A)
    (hle : p.ulPageAddr ≤ A) : p.ulPageAddr + g.bytes (g.leftFreePageNum (2 ^ j) p) ≤ A := by
  unfold VmmConf.leftFreePageNum VmmConf.bytes
  dsimp only
  rw [Nat.and_two_pow_sub_one_eq_mod, or_mask_add_one]
  split_ifs with hmod
  · simpa using hle
  · obtain ⟨hstart, hdvd⟩ := dvd_align_sub hp hmod
    rw [Nat.shiftRight_eq_div_pow, Nat.shiftLeft_eq, Nat.div_mul_cancel hdvd,
      Nat.add_sub_cancel' hstart]
    obtain ⟨k, rfl⟩ := hA
    rw [Nat.mul_comm]
    refine Nat.mul_le_mul_left _ (Nat.succ_le_of_lt ?_)
    -- The address itself is not aligned.
    refine Nat.lt_of_le_of_ne (Nat.div_le_of_le_mul hle) fun heq => hmod ?_
    have hdiv := Nat.div_add_mod p.ulPageAddr (2 ^ j)
    rw [heq] at hdiv
    omega

theorem bytes_le_iff {m n : ℕ} : g.bytes m ≤ g.bytes n ↔ m ≤ n := by
  rw [VmmConf.bytes, VmmConf.bytes, Nat.shiftLeft_eq, Nat.shiftLeft_eq]
  exact Nat.mul_le_mul_right_iff (Nat.two_pow_pos _)

/-- The room that the search asks for is that of the pages from the first aligned address on. -/
theorem canHold_iff (hp : 2 ^ g.pageShift ∣ p.ulPageAddr) : p.CanHold g ulPageNum (2 ^ j) ↔
    ulPageNum + g.leftFreePageNum (2 ^ j) p ≤ p.ulCount := by
  rw [← bytes_le_iff (g := g), bytes_add]
  constructor
  · rintro ⟨A, hA, hstart, hend⟩
    have := align_left_le hp hA hstart
    omega
  · intro hroom
    exact ⟨_, align_left j hp, Nat.le_add_right _ _, by omega⟩

theorem canHold_one_iff : p.CanHold g ulPageNum 1 ↔ ulPageNum ≤ p.ulCount := by
  rw [← bytes_le_iff (g := g)]
  constructor
  · rintro ⟨A, -, hstart, hend⟩
    omega
  · intro hroom
    exact ⟨p.ulPageAddr, Nat.one_dvd _, le_rfl, by omega⟩

/-! ## The calls -/

section Calls
variable (t : PageType) (cbs : List ℕ)

/-- `__pageAllocate` takes the start of what the search finds, and fails only without a control block. -/
theorem ZoneInv.pageAllocate_of_some (h : ZoneInv g ulAddr stSize z) (hp : p ∈ z.pages)
    (hs : z.search g (fun _ => 0) ulPageNum = some (some (i, p))) :
    ∃ z' o, z.pageAllocate g ulPageNum t cbs = some (z', o) ∧ (o = none → cbs = []) ∧
      ∀ p' ∈ o, p'.cb = p.cb ∧ p'.ulPageAddr = p.ulPageAddr := by
  obtain ⟨l, r, -, hcut⟩ := exists_cut h.cbs hp
  simp only [Zone.pageAllocate, hs, hcut, Option.bind_eq_bind, Option.bind_some]
  split_ifs
  · cases cbs with
    | nil => exact ⟨_, _, rfl, fun _ => rfl, by rintro _ ⟨⟩⟩
    | cons c cbs =>
      refine ⟨_, _, rfl, by rintro ⟨⟩, ?_⟩
      rintro p' ⟨⟩
      exact ⟨rfl, rfl⟩
  · refine ⟨_, _, rfl, by rintro ⟨⟩, ?_⟩
    rintro p' ⟨⟩
    exact ⟨rfl, rfl⟩

/-- `__pageAllocateAlign` fails on what the search finds only without control blocks. -/
theorem ZoneInv.pageAllocateAlign_of_some (h : ZoneInv g ulAddr stSize z) (hp : p ∈ z.pages)
    {stAlign : ℕ} (hs : z.search g (g.leftFreePageNum stAlign) ulPageNum = some (some (i, p))) :
    ∃ z' o, z.pageAllocateAlign g ulPageNum stAlign t cbs = some (z', o) ∧
      (o = none → cbs.length < 2) := by
  obtain ⟨l, r, -, hcut⟩ := exists_cut h.cbs hp
  simp only [Zone.pageAllocateAlign, hs, hcut, Option.bind_eq_bind, Option.bind_some]
  split_ifs with hzero hnone hnone
  · refine ⟨_, _, rfl, fun _ => ?_⟩
    have hcbs : ¬ p.ulCount - ulPageNum = 0 ∧ cbs = [] := by simpa [hzero] using hnone
    simp [hcbs.2]
  · exact ⟨_, _, rfl, by rintro ⟨⟩⟩
  · refine ⟨_, _, rfl, fun _ => ?_⟩
    rcases hnone with ⟨-, hcbs⟩ | ⟨-, hcbs⟩
    · simp [hcbs]
    · have hlen := congrArg List.length hcbs
      rw [List.length_tail, List.length_nil] at hlen
      omega
  · exact ⟨_, _, rfl, by rintro ⟨⟩⟩

end Calls

/-- In every zone that is reached, `__pageAllocate` takes the pages from the start of a smallest free
segment with room for them, and neither it nor `__pageAllocateAlign` fails where a free segment can hold
the pages and there are control blocks. -/
theorem page_best_fit (haddr : 2 ^ g.pageShift ∣ ulAddr)
    (h : Reach (Zone.step g) Zone.StepOk (Zone.Init g · ulAddr stSize) z) :
    (∀ ulPageNum t cbs, Fresh z cbs → ∃ z' o, z.pageAllocate g ulPageNum t cbs = some (z', o) ∧
      (∀ p' ∈ o, ∃ p ∈ z.pages, p.bUsed = false ∧ p'.cb = p.cb ∧ p'.ulPageAddr = p.ulPageAddr ∧
        p'.ulCount = ulPageNum ∧ ulPageNum ≤ p.ulCount ∧
        ∀ q ∈ z.pages, q.bUsed = false → ulPageNum ≤ q.ulCount → p.ulCount ≤ q.ulCount) ∧
      (o = none → cbs ≠ [] → ∀ q ∈ z.pages, q.bUsed = false → ¬ q.CanHold g ulPageNum 1)) ∧
    ∀ ulPageNum stAlign t cbs, stAlign.isPowerOfTwo → Fresh z cbs →
      ∃ z' o, z.pageAllocateAlign g ulPageNum stAlign t cbs = some (z', o) ∧
        (o = none → 2 ≤ cbs.length →
          ∀ q ∈ z.pages, q.bUsed = false → ¬ q.CanHold g ulPageNum stAlign) := by
  have hinv : ZoneInv g ulAddr stSize z := by
    refine h.invariant (fun _ => ZoneInv.create haddr) fun s op s' hs hok hstep => ?_
    obtain ⟨z', hz', hinv⟩ := hs.step op hok
    rw [hz', Option.some.injEq] at hstep
    exact hstep ▸ hinv
  refine ⟨fun ulPageNum t cbs hc => ?_, fun ulPageNum stAlign t cbs halign hc => ?_⟩
  · obtain ⟨z', o, heq, -, -, htaken⟩ := hinv.pageAllocate ulPageNum t hc
    refine ⟨z', o, heq, ?_⟩
    rcases hinv.search_least (fun _ => 0) ulPageNum with ⟨i, p, hs, hp⟩ | ⟨hs, hno⟩
    · obtain ⟨z₁, o₁, heq₁, hnone, hsome⟩ := hinv.pageAllocate_of_some t cbs hp.mem hs
      rw [heq, Option.some.injEq, Prod.mk.injEq] at heq₁
      obtain ⟨rfl, rfl⟩ := heq₁
      refine ⟨fun p' hp' => ?_, fun ho hcbs => absurd (hnone ho) hcbs⟩
      obtain ⟨hcb, hpage⟩ := hsome p' hp'
      exact ⟨p, hp.mem, hp.isFree, hcb, hpage, (htaken p' hp').2.2.count, hp.room,
        fun q hq hfree hroom => hp.least q ⟨hq, hfree, hroom⟩⟩
    · rw [Zone.pageAllocate, hs] at heq
      cases heq
      refine ⟨by rintro _ ⟨⟩, fun _ _ q hq hfree hhold => hno q ⟨hq, hfree, ?_⟩⟩
      exact canHold_one_iff.mp hhold
  · obtain ⟨j, rfl⟩ := halign
    rcases hinv.search_least (g.leftFreePageNum (2 ^ j)) ulPageNum with ⟨i, p, hs, hp⟩ | ⟨hs, hno⟩
    · obtain ⟨z', o, heq, hnone⟩ := hinv.pageAllocateAlign_of_some t cbs hp.mem hs
      exact ⟨z', o, heq, fun ho hlen => absurd (hnone ho) (by omega)⟩
    · refine ⟨z, none, by rw [Zone.pageAllocateAlign, hs]; rfl, fun _ _ q hq hfree hhold => ?_⟩
      exact hno q ⟨hq, hfree, (canHold_iff (hinv.page_aligned hq)).mp hhold⟩

/-- Two pages are taken from a free segment of three, and not from one of eight that stands before it. -/
theorem page_best_fit_three : ∃ z, Reach (Zone.step vmm12) Zone.StepOk
    (Zone.Init vmm12 · 0x10000 0x10000) z ∧
      z.pages.map (fun p => (p.ulPageAddr, p.ulCount, p.bUsed)) =
        [(0x10000, 8, false), (0x18000, 1, true), (0x19000, 3, false), (0x1c000, 4, true)] ∧
      ∃ z' o, z.pageAllocate vmm12 2 .virtual [20] = some (z', o) ∧
        ∀ p' ∈ o, ∃ p ∈ z.pages, p.bUsed = false ∧ p.ulCount ≤ 3 ∧ p'.ulPageAddr = p.ulPageAddr := by
  have h₀ : Reach (Zone.step vmm12) Zone.StepOk (Zone.Init vmm12 · 0x10000 0x10000)
      ⟨16, 0x10000, 0x10000, Function.update (fun _ => ⟨[], 0⟩) 4 ⟨[10], 1⟩,
        [⟨10, 0x10000, 16, .virtual, false⟩]⟩ := .start ⟨.virtual, [10], rfl⟩
  have h₁ := h₀.extend (.alloc 8 .virtual [11]) ⟨by decide, by decide⟩ rfl
  have h₂ := h₁.extend (.alloc 1 .virtual [12]) ⟨by decide, by decide⟩ rfl
  have h₃ := h₂.extend (.alloc 3 .virtual [13]) ⟨by decide, by decide⟩ rfl
  have h₄ := h₃.extend (.alloc 4 .virtual [14]) ⟨by decide, by decide⟩ rfl
  have h₅ := h₄.extend (.free 10) ⟨⟨10, 0x10000, 8, .virtual, true⟩, by decide, rfl, rfl⟩ rfl
  have h₆ := h₅.extend (.free 12) ⟨⟨12, 0x19000, 3, .virtual, true⟩, by decide, rfl, rfl⟩ rfl
  obtain ⟨z, hz, hpages⟩ : ∃ z, Reach (Zone.step vmm12) Zone.StepOk
      (Zone.Init vmm12 · 0x10000 0x10000) z ∧ z.pages =
        [⟨10, 0x10000, 8, .virtual, false⟩, ⟨11, 0x18000, 1, .virtual, true⟩,
          ⟨12, 0x19000, 3, .virtual, false⟩, ⟨13, 0x1c000, 4, .virtual, true⟩] := ⟨_, h₆, rfl⟩
  have hfresh : Fresh z [20] := ⟨by decide, by rw [hpages]; decide⟩
  obtain ⟨z', o, heq, hfit, -⟩ := (page_best_fit (by decide) hz).1 2 .virtual [20] hfresh
  refine ⟨z, hz, by rw [hpages]; rfl, z', o, heq, fun p' hp' => ?_⟩
  obtain ⟨p, hp, hfree, -, hpage, -, -, hleast⟩ := hfit p' hp'
  have hle := hleast ⟨12, 0x19000, 3, .virtual, false⟩ (by simp [hpages]) rfl (by decide)
  exact ⟨p, hp, hfree, hle, hpage⟩

end SylixOS.Kernel
