import SylixOS.Kernel.PageZoneSafe

/-! # The segments of a zone that are in use

An allocation puts one more segment in use, cut out of a free one, and a call that frees a segment takes
that one away. The other segments in use stay as they are.
-/

namespace SylixOS.Kernel
open Lib

variable {g : VmmConf} {ulAddr stSize : ℕ} {z z' : Zone} {p q : VmmPage} {cbs : List ℕ}

namespace Zone

/-- The segments in use. -/
def Used (z : Zone) (p : VmmPage) : Prop := p ∈ z.pages ∧ p.bUsed = true

/-- A free segment has been cut up, and `p` is the only part in use. -/
def Carved (z z' : Zone) (p : VmmPage) (cbs : List ℕ) : Prop :=
  ∃ l f r xs ys, z.pages = l ++ f :: r ∧ f.bUsed = false ∧ z'.pages = l ++ (xs ++ p :: ys) ++ r ∧
    p.bUsed = true ∧ (∀ q ∈ xs ++ ys, q.bUsed = false) ∧
      ∀ q ∈ xs ++ p :: ys, q.cb = f.cb ∨ q.cb ∈ cbs

end Zone

/-! ## Allocation -/

theorem ZoneInv.carved (h : ZoneInv g ulAddr stSize z) {ulPageNum : ℕ} {t : PageType}
    (heq : z.pageAllocate g ulPageNum t cbs = some (z', some p)) : z.Carved z' p cbs := by
  obtain ⟨o, ho, hfits⟩ := h.search (fun _ => 0) ulPageNum
  simp only [Zone.pageAllocate, ho, Option.bind_eq_bind, Option.bind_some] at heq
  cases o with
  | none => cases heq
  | some x =>
    obtain ⟨i, f⟩ := x
    have hf := hfits i f rfl
    obtain ⟨l, r, hpages, hcut⟩ := exists_cut h.cbs hf.mem
    simp only [hcut, Option.bind_some] at heq
    split_ifs at heq with hz
    · cases cbs with
      | nil => cases heq
      | cons c cbs =>
        simp only [Option.some.injEq, Prod.mk.injEq] at heq
        obtain ⟨rfl, rfl⟩ := heq
        exact ⟨l, f, r, [], [g.separate f c ulPageNum t false], hpages, hf.isFree, by simp, rfl,
          by simp [VmmConf.separate], by simp [VmmConf.separate]⟩
    · simp only [Option.some.injEq, Prod.mk.injEq] at heq
      obtain ⟨rfl, rfl⟩ := heq
      exact ⟨l, f, r, [], [], hpages, hf.isFree, by simp, rfl, by simp, by simp⟩

theorem ZoneInv.carvedAlign (h : ZoneInv g ulAddr stSize z) {ulPageNum stAlign : ℕ} {t : PageType}
    (heq : z.pageAllocateAlign g ulPageNum stAlign t cbs = some (z', some p)) :
    z.Carved z' p cbs := by
  obtain ⟨o, ho, hfits⟩ := h.search (g.leftFreePageNum stAlign) ulPageNum
  simp only [Zone.pageAllocateAlign, ho, Option.bind_eq_bind, Option.bind_some] at heq
  cases o with
  | none => cases heq
  | some x =>
    obtain ⟨i, f⟩ := x
    have hf := hfits i f rfl
    obtain ⟨l, r, hpages, hcut⟩ := exists_cut h.cbs hf.mem
    simp only [hcut, Option.bind_some] at heq
    generalize g.leftFreePageNum stAlign f = ulLeft at heq
    generalize hcbs : (if ulLeft = 0 then cbs else cbs.tail) = cbsRight at heq
    split_ifs at heq with hnone
    · cases heq
    rw [not_or, not_and, not_and] at hnone
    have hleft (hne : ulLeft ≠ 0) : cbs.headD 0 ∈ cbs := headD_mem (hnone.1 hne)
    have hright (hb : decide (f.ulCount - ulPageNum ≠ ulLeft) = true) : cbsRight.headD 0 ∈ cbs := by
      have hmem := headD_mem (hnone.2 hb)
      subst hcbs
      split_ifs at hmem ⊢
      · exact hmem
      · exact List.mem_of_mem_tail hmem
    generalize decide (f.ulCount - ulPageNum ≠ ulLeft) = bCut at heq hright
    generalize cbs.headD 0 = c at heq hleft
    generalize cbsRight.headD 0 = c' at heq hright
    by_cases hz : ulLeft = 0
    · cases bCut with
      | true =>
        simp only [Zone.cutLeft, Zone.cutRight, if_pos hz, if_true, Option.some.injEq,
          Prod.mk.injEq] at heq
        obtain ⟨rfl, rfl⟩ := heq
        exact ⟨l, f, r, [], [g.separate f c' ulPageNum t false], hpages, hf.isFree,
          by simp, rfl, by simp [VmmConf.separate],
          by simpa [VmmConf.separate] using .inr (hright rfl)⟩
      | false =>
        simp only [Zone.cutLeft, Zone.cutRight, if_pos hz, Bool.false_eq_true, if_false,
          Option.some.injEq, Prod.mk.injEq] at heq
        obtain ⟨rfl, rfl⟩ := heq
        exact ⟨l, f, r, [], [], hpages, hf.isFree, by simp, rfl, by simp, by simp⟩
    · let f' := { f with bUsed := false, ulCount := ulLeft }
      let p' := g.separate f c ulLeft f.iPageType true
      cases bCut with
      | true =>
        simp only [Zone.cutLeft, Zone.cutRight, if_neg hz, if_true, Option.some.injEq,
          Prod.mk.injEq] at heq
        obtain ⟨rfl, rfl⟩ := heq
        refine ⟨l, f, r, [f'], [g.separate p' c' ulPageNum t false], hpages,
          hf.isFree, by simp [f', p'], rfl, by simp [f', VmmConf.separate], ?_⟩
        simpa [f', VmmConf.separate] using ⟨.inr (hleft hz), .inr (hright rfl)⟩
      | false =>
        simp only [Zone.cutLeft, Zone.cutRight, if_neg hz, Bool.false_eq_true, if_false,
          Option.some.injEq, Prod.mk.injEq] at heq
        obtain ⟨rfl, rfl⟩ := heq
        refine ⟨l, f, r, [f'], [], hpages, hf.isFree, by simp [f'], rfl, by simp [f'], ?_⟩
        simpa [f', VmmConf.separate] using .inr (hleft hz)

section Carved
variable (h : z.Carved z' p cbs)
include h

theorem carved_used (q : VmmPage) : z'.Used q ↔ z.Used q ∨ q = p := by
  obtain ⟨l, f, r, xs, ys, hz, hf, hz', hp, hfree, -⟩ := h
  rw [Zone.Used, Zone.Used, hz, hz']
  simp only [List.mem_append, List.mem_cons] at hfree ⊢
  constructor
  · rintro ⟨(hq | hq | rfl | hq) | hq, hused⟩
    · exact .inl ⟨.inl hq, hused⟩
    · simp [hfree q (.inl hq)] at hused
    · exact .inr rfl
    · simp [hfree q (.inr hq)] at hused
    · exact .inl ⟨.inr (.inr hq), hused⟩
  · rintro (⟨hq | rfl | hq, hused⟩ | rfl)
    · exact ⟨.inl (.inl hq), hused⟩
    · simp [hf] at hused
    · exact ⟨.inr hq, hused⟩
    · exact ⟨.inl (.inr (.inr (.inl rfl))), hp⟩

theorem carved_cb (hq : q ∈ z'.pages) : q.cb ∈ z.pages.map VmmPage.cb ∨ q.cb ∈ cbs := by
  obtain ⟨l, f, r, xs, ys, hz, -, hz', -, -, hcb⟩ := h
  rw [hz'] at hq
  rw [hz, List.map_append, List.map_cons]
  simp only [List.mem_append, List.mem_cons] at hq hcb ⊢
  rcases hq with (hq | hq) | hq
  · exact .inl (.inl (List.mem_map_of_mem hq))
  · exact (hcb q hq).imp (fun heq => .inr (.inl heq)) id
  · exact .inl (.inr (.inr (List.mem_map_of_mem hq)))

/-- The new segment in use has a control block of its own. -/
theorem carved_ne (hcbs : (z'.pages.map VmmPage.cb).Nodup) (hq : z.Used q) : q.cb ≠ p.cb := by
  obtain ⟨l, f, r, xs, ys, hz, hf, hz', -, -, -⟩ := h
  have hmem : q ∈ l ++ r := by
    have := hq.1
    rw [hz, List.mem_append, List.mem_cons] at this
    rw [List.mem_append]
    rcases this with hl | rfl | hr
    · exact .inl hl
    · simp [Zone.Used, hf] at hq
    · exact .inr hr
  rw [hz'] at hcbs
  have hperm : (l ++ (xs ++ p :: ys) ++ r).Perm (p :: (l ++ r ++ (xs ++ ys))) := by
    rw [List.perm_iff_count]
    intro a
    simp only [List.count_append, List.count_cons]
    omega
  rw [(hperm.map VmmPage.cb).nodup_iff, List.map_cons, List.nodup_cons] at hcbs
  intro heq
  exact hcbs.1 (heq ▸ List.mem_map_of_mem (List.mem_append_left _ hmem))

end Carved

/-! ## Freeing -/

section Free
variable {l r l' r' : List VmmPage} {p' : VmmPage}

theorem mergeLeft_used (h : z.mergeLeft g l p = (z', l', p')) :
    (∀ q ∈ l', q ∈ l) ∧ (∀ q ∈ l, q.bUsed = true → q ∈ l') ∧
      (p'.cb = p.cb ∨ ∃ q ∈ l, p'.cb = q.cb) := by
  unfold Zone.mergeLeft at h
  rcases List.eq_nil_or_concat l with rfl | ⟨l, f, rfl⟩
  · cases h
    exact ⟨fun _ h => h, fun _ h _ => h, .inl rfl⟩
  · rw [List.concat_eq_append] at *
    simp only [List.getLast?_append, List.getLast?_singleton, Option.some_or] at h
    split_ifs at h with hf
    · cases h
      exact ⟨fun _ h => h, fun _ h _ => h, .inl rfl⟩
    · rw [List.dropLast_concat] at h
      cases h
      refine ⟨fun q hq => List.mem_append_left _ hq, fun q hq hused => ?_, .inr ⟨f, by simp, rfl⟩⟩
      rcases List.mem_append.mp hq with hq | hq
      · exact hq
      · rw [List.mem_singleton.mp hq] at hused
        exact absurd hused hf

theorem mergeRight_used (h : z.mergeRight g p r = (z', p', r')) :
    (∀ q ∈ r', q ∈ r) ∧ (∀ q ∈ r, q.bUsed = true → q ∈ r') ∧ p'.cb = p.cb := by
  unfold Zone.mergeRight at h
  cases r with
  | nil =>
    cases h
    exact ⟨fun _ h => h, fun _ h _ => h, rfl⟩
  | cons f r =>
    dsimp only at h
    split_ifs at h with hf
    · cases h
      exact ⟨fun _ h => h, fun _ h _ => h, rfl⟩
    · cases h
      refine ⟨fun q hq => List.mem_cons_of_mem _ hq, fun q hq hused => ?_, rfl⟩
      rcases List.mem_cons.mp hq with rfl | hq
      · exact absurd hused hf
      · exact hq

/-- The segment that is freed is not in use any more, and the others are as they were. -/
theorem pageFree_used {cb : ℕ} (hcbs : (z.pages.map VmmPage.cb).Nodup)
    (h : z.pageFree g cb = some z') :
    (∀ q, z'.Used q ↔ z.Used q ∧ q.cb ≠ cb) ∧
      ∀ q ∈ z'.pages, q.cb ∈ z.pages.map VmmPage.cb := by
  unfold Zone.pageFree at h
  simp only [Option.bind_eq_bind, Option.bind_eq_some_iff] at h
  obtain ⟨⟨l, p, r⟩, hcut, h⟩ := h
  obtain ⟨hpages, rfl⟩ := cut_eq_some hcut
  rcases hl : z.mergeLeft g l p with ⟨z₁, l₁, p₁⟩
  rcases hr : z₁.mergeRight g p₁ r with ⟨z₂, p₂, r₂⟩
  obtain ⟨hl₁, hl₂, hcb₁⟩ := mergeLeft_used hl
  obtain ⟨hr₁, hr₂, hcb₂⟩ := mergeRight_used hr
  simp only [hl, hr, Option.some.injEq] at h
  subst h
  rw [hpages, List.map_append, List.map_cons] at hcbs
  have hne (q : VmmPage) (hq : q ∈ l ∨ q ∈ r) : q.cb ≠ p.cb := by
    have hperm : (l.map VmmPage.cb ++ p.cb :: r.map VmmPage.cb).Perm
        (p.cb :: (l.map VmmPage.cb ++ r.map VmmPage.cb)) := List.perm_middle
    rw [hperm.nodup_iff, List.nodup_cons, List.mem_append] at hcbs
    intro heq
    refine hcbs.1 (heq ▸ hq.imp (fun h => List.mem_map_of_mem h) fun h => List.mem_map_of_mem h)
  refine ⟨fun q => ?_, fun q hq => ?_⟩
  · rw [Zone.Used, Zone.Used, hpages]
    simp only [pageAddToFreeHash_pages, List.mem_append, List.mem_cons]
    constructor
    · rintro ⟨hq | rfl | hq, hused⟩
      · exact ⟨⟨.inl (hl₁ q hq), hused⟩, hne q (.inl (hl₁ q hq))⟩
      · cases hused
      · exact ⟨⟨.inr (.inr (hr₁ q hq)), hused⟩, hne q (.inr (hr₁ q hq))⟩
    · rintro ⟨⟨hq | rfl | hq, hused⟩, hcb⟩
      · exact ⟨.inl (hl₂ q hq hused), hused⟩
      · exact absurd rfl hcb
      · exact ⟨.inr (.inr (hr₂ q hq hused)), hused⟩
  · simp only [pageAddToFreeHash_pages, List.mem_append, List.mem_cons] at hq
    rw [hpages]
    rcases hq with hq | rfl | hq
    · exact List.mem_map_of_mem (List.mem_append_left _ (hl₁ q hq))
    · dsimp only
      rw [hcb₂]
      rcases hcb₁ with heq | ⟨f, hf, heq⟩
      · rw [heq]
        exact List.mem_map_of_mem (by simp)
      · rw [heq]
        exact List.mem_map_of_mem (List.mem_append_left _ hf)
    · exact List.mem_map_of_mem (List.mem_append_right _ (List.mem_cons_of_mem _ (hr₁ q hq)))

end Free

end SylixOS.Kernel
