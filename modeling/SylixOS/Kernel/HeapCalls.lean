import SylixOS.Kernel.HeapOps
import SylixOS.Lib.Align
import Mathlib.Tactic.Ring

/-! # What the calls of the heap do to the ranges

Allocation finds the first free segment that fits and takes it; an aligned block may have a part of
the segment split off in front of it. Freeing and reallocating first find the segment of a pointer.
-/

namespace SylixOS.Kernel
open Lib

variable {g : HeapConf} {s s' : Heap} {bs l r : List Chunk} {x y : Chunk} {a b n k : ℕ} {f : Bool}
  {ring : List ℕ}

/-- A segment in the ring is a free range. -/
theorem Rep.free_mem (h : Rep g s bs) {u : Segment} (hu : u ∈ s.segments)
    (hr : u.addr ∈ s.freeSegment) :
    ∃ l r, bs = l ++ ⟨u.addr, g.stHeader + u.stByteSize, true⟩ :: r := by
  have hmem : chunk g s.freeSegment u ∈ bs := by
    rw [← h.view]
    exact List.mem_map_of_mem hu
  obtain ⟨l, r, rfl⟩ := List.append_of_mem hmem
  have hfree : chunk g s.freeSegment u = ⟨u.addr, g.stHeader + u.stByteSize, true⟩ := by
    simp [chunk, hr]
  rw [hfree]
  exact ⟨l, r, rfl⟩

/-- The search finds a free segment that fits, if it finds any. -/
theorem Rep.firstFit (h : Rep g s bs) (fits : Segment → Bool) (hsub : ∀ a ∈ ring, a ∈ s.freeSegment) :
    ∃ o, s.firstFit fits ring = some o ∧ ∀ u, o = some u →
      u ∈ s.segments ∧ u.addr ∈ s.freeSegment ∧ fits u = true := by
  induction ring with
  | nil => exact ⟨none, rfl, fun u hu => by simp at hu⟩
  | cons b ring ih =>
    obtain ⟨u, hu, rfl⟩ := h.ringMem b (hsub b (.head _))
    obtain ⟨l, r, rfl⟩ := h.free_mem hu (hsub u.addr (.head _))
    obtain ⟨left, right, hsplit, hseg, -, -⟩ := h.seg
    simp only [Heap.firstFit, hsplit, Option.bind_eq_bind, Option.bind_some]
    split_ifs with hfit
    · refine ⟨_, rfl, fun v hv => ?_⟩
      rw [Option.some.injEq] at hv
      subst hv
      exact ⟨by simp [hseg], hsub u.addr (.head _), hfit⟩
    · exact ih fun c hc => hsub c (.tail _ hc)

/-! ## Aligned pointers -/

/-- The aligned pointer is in front by a multiple of the heap's own alignment. -/
theorem alignPtr_spec {stAlign : ℕ} {u : Segment} (hpow : stAlign.isPowerOfTwo)
    (hdata : g.ulAlignment ∣ g.dataPtr u) :
    Heap.alignPtr g stAlign u = g.dataPtr u + Heap.addedSize g stAlign u ∧
      (Heap.addedSize g stAlign u = 0 ∨ g.ulAlignment ≤ Heap.addedSize g stAlign u) ∧
        g.ulAlignment ∣ Heap.addedSize g stAlign u := by
  obtain ⟨j, rfl⟩ := hpow
  obtain ⟨i, hi⟩ := g.align_pow
  unfold Heap.addedSize Heap.alignPtr
  rw [Nat.and_two_pow_sub_one_eq_mod]
  split_ifs with hmod
  · simp
  · rw [or_mask_add_one]
    have hdiv := Nat.div_add_mod (g.dataPtr u) (2 ^ j)
    have hlt := Nat.mod_lt (g.dataPtr u) (Nat.two_pow_pos j)
    have heq : (g.dataPtr u / 2 ^ j + 1) * 2 ^ j = 2 ^ j * (g.dataPtr u / 2 ^ j) + 2 ^ j := by
      rw [Nat.add_mul, Nat.mul_comm, Nat.one_mul]
    obtain ⟨-, hdvd⟩ := dvd_align_sub (hi ▸ hdata) hmod
    rw [← hi] at hdvd
    refine ⟨by omega, .inr (Nat.le_of_dvd (by omega) hdvd), hdvd⟩

/-- The words in front of an aligned pointer tell its segment. -/
structure Marked (g : HeapConf) (mem : ℕ → ℕ) (seg ptr : ℕ) : Prop where
  le : seg + g.stHeader + g.ulAlignment ≤ ptr
  left : mem (ptr - g.stWord) = seg
  magic : mem (ptr - g.stHeader + g.stMagicOffset) ≠ segMagicReal

/-- These words are in the data of the segment, before the pointer. -/
theorem Marked.words {mem : ℕ → ℕ} {seg ptr : ℕ} (h : Marked g mem seg ptr) :
    (seg + g.stHeader ≤ ptr - g.stWord ∧ ptr - g.stWord + g.stWord ≤ ptr) ∧
      seg + g.stHeader ≤ ptr - g.stHeader + g.stMagicOffset ∧
        ptr - g.stHeader + g.stMagicOffset + g.stWord ≤ ptr := by
  have hle := h.le
  have hwa := g.word_le_alignment
  have hhead := g.header_le
  have hmagic := g.magic_lt_header
  omega

theorem Marked.congr {mem mem' : ℕ → ℕ} {seg ptr : ℕ} (h : Marked g mem seg ptr)
    (hmem : ∀ c, seg + g.stHeader ≤ c → c + g.stWord ≤ ptr → mem' c = mem c) :
    Marked g mem' seg ptr := by
  obtain ⟨⟨h₁, h₂⟩, h₃, h₄⟩ := h.words
  refine ⟨h.le, ?_, ?_⟩
  · rw [hmem _ h₁ h₂]
    exact h.left
  · rw [hmem _ h₃ h₄]
    exact h.magic

theorem segMagicFake_ne (g : HeapConf) : g.segMagicFake ≠ segMagicReal := by
  rcases g.word_eq with hw | hw
  · rw [HeapConf.segMagicFake, hw]
    decide
  · rw [HeapConf.segMagicFake, hw]
    decide

/-- The magic is no address of a segment. -/
theorem aligned_ne_magic (h : g.ulAlignment ∣ a) : a ≠ segMagicReal := by
  rintro rfl
  have hw := Nat.dvd_trans g.word_dvd h
  rcases g.word_eq with hword | hword
  · rw [hword] at hw
    revert hw
    decide
  · rw [hword] at hw
    revert hw
    decide

/-- What is written in front of an aligned pointer. -/
theorem Rep.setLeft {p : ℕ} (h : Rep g s (l ++ ⟨a, g.stHeader + n, false⟩ :: r))
    (ha : g.ulAlignment ∣ a) (hlo : a + g.stHeader + g.ulAlignment ≤ p)
    (hhi : p ≤ a + g.stHeader + n) :
    Rep g (s.setLeft g a p) (l ++ ⟨a, g.stHeader + n, false⟩ :: r) ∧
      Marked g (s.setLeft g a p).mem a p ∧ MemOff s (s.setLeft g a p) (a + g.stHeader) p := by
  have hw := g.word_pos
  have hwa := g.word_le_alignment
  have hhead := g.header_le
  have hmagic := g.magic_lt_header
  have h₁ := h.setWord (x := ⟨a, g.stHeader + n, false⟩) (a := p - g.stWord) (v := a) (by simp)
    (by simp only [Chunk.stop]; omega)
  unfold Heap.setLeft
  dsimp only
  split_ifs with hne
  · refine ⟨h₁.setWord (x := ⟨a, g.stHeader + n, false⟩) (by simp)
      (by simp only [Chunk.stop]; omega), ⟨hlo, ?_, ?_⟩, fun c hc => ?_⟩
    · rw [setWord_mem_of_ne hne, setWord_mem_self]
    · rw [setWord_mem_self]
      exact segMagicFake_ne g
    · rw [setWord_mem_of_ne (by omega), setWord_mem_of_ne (by omega)]
  · rw [not_not] at hne
    refine ⟨h₁, ⟨hlo, setWord_mem_self, ?_⟩, fun c hc => setWord_mem_of_ne (by omega)⟩
    rw [← hne, setWord_mem_self]
    exact aligned_ne_magic ha

/-! ## Allocation -/

theorem Cut.le {stSize m : ℕ} {rest : List Chunk} (h : Cut g a k stSize m rest) (hk : stSize ≤ k) :
    stSize ≤ m := by
  rcases h with ⟨-, rfl⟩ | ⟨j, -, rfl, -⟩
  · exact hk
  · exact le_rfl

theorem Cut.m_le {stSize m : ℕ} {rest : List Chunk} (h : Cut g a k stSize m rest) : m ≤ k := by
  rcases h with ⟨-, rfl⟩ | ⟨j, -, -, rfl⟩
  · exact le_rfl
  · omega

/-- A free segment has been cut at both ends, and the middle is in use, with a block of the given
size at a pointer. -/
structure Taken (g : HeapConf) (bs bs' : List Chunk) (s s' : Heap) (n b m p : ℕ) : Prop where
  pieces : ∃ l r a k lead stSize rest, bs = l ++ ⟨a, g.stHeader + k, true⟩ :: r ∧
    bs' = l ++ lead ++ ⟨b, g.stHeader + m, false⟩ :: (rest ++ r) ∧
      (lead = [] ∧ b = a ∨ ∃ j, lead = [⟨a, j, true⟩] ∧ b = a + j ∧ g.stHeader ≤ j ∧ j ≤ k ∧
        g.ulAlignment ∣ j) ∧ g.ulAlignment ∣ stSize ∧ Cut g b (a + k - b) stSize m rest ∧
        MemOff s s' (a + g.stHeader) (a + g.stHeader + k)
  lo : b + g.stHeader ≤ p
  hi : p + n ≤ b + g.stHeader + m
  ptr : p = b + g.stHeader ∨ Marked g s'.mem b p

/-- `_HeapAllocate` leaves the heap as it is, or takes a free segment. -/
theorem Rep.heapAllocate (h : Rep g s bs) : ∃ s' o, s.heapAllocate g n = some (s', o) ∧
    (o = none ∧ s' = s ∨ ∃ b m bs', o = some (b + g.stHeader) ∧ Rep g s' bs' ∧
      g.segSize n ≤ m ∧ Taken g bs bs' s s' n b m (b + g.stHeader)) := by
  unfold Heap.heapAllocate
  dsimp only
  split_ifs with hlt
  · exact ⟨s, none, rfl, .inl ⟨rfl, rfl⟩⟩
  · obtain ⟨o, ho, hfit⟩ := h.firstFit
      (fun u => decide (g.segSize n ≤ u.stByteSize)) fun _ ha => ha
    simp only [ho, Option.bind_eq_bind, Option.bind_some]
    cases o with
    | none => exact ⟨s, none, rfl, .inl ⟨rfl, rfl⟩⟩
    | some u =>
      obtain ⟨hu, hring, hle⟩ := hfit u rfl
      obtain ⟨l, r, rfl⟩ := h.free_mem hu hring
      have hle' : g.segSize n ≤ u.stByteSize := by simpa using hle
      obtain ⟨s', m, rest, htake, hcut, hrep, hmem⟩ := h.takeSeg hle'
      have hroom : g.bHeapCrossBorderEn = true → g.stWord ≤ m := fun hb =>
        (HeapConf.word_le_segSize hb).trans (hcut.le hle')
      have hsize : n ≤ g.segSize n := HeapConf.le_crossbordSize.trans HeapConf.le_segSize
      have hm := hcut.le hle'
      have hm' := hcut.m_le
      simp only [htake, Option.bind_some]
      refine ⟨_, _, rfl, .inr ⟨u.addr, m, _, rfl, hrep.updataMaxUsed.crossbordMark hroom, hm,
        ⟨⟨l, r, u.addr, u.stByteSize, [], g.segSize n, rest, rfl, by simp, .inl ⟨rfl, rfl⟩,
          HeapConf.alignment_dvd_segSize, ?_, fun c hc => ?_⟩, le_rfl, by omega, .inl rfl⟩⟩⟩
      · rwa [Nat.add_sub_cancel_left]
      · rw [crossbordMark_mem (fun _ => by omega) hroom, updataMaxUsed_mem]
        exact hmem c hc

/-- `_HeapAllocateAlign` leaves the heap as it is, or takes a part of a free segment. -/
theorem Rep.heapAllocateAlign {stAlign : ℕ} (h : Rep g s bs) (hpow : stAlign.isPowerOfTwo)
    (haddr : ∀ x ∈ bs, g.ulAlignment ∣ x.addr) :
    ∃ s' o, s.heapAllocateAlign g n stAlign = some (s', o) ∧
      (o = none ∧ s' = s ∨ ∃ b m p bs', o = some (p, b) ∧ Rep g s' bs' ∧
        Taken g bs bs' s s' n b m p) := by
  unfold Heap.heapAllocateAlign
  dsimp only
  split_ifs with hlt
  · exact ⟨s, none, rfl, .inl ⟨rfl, rfl⟩⟩
  · obtain ⟨o, ho, hfit⟩ := h.firstFit
      (fun u => decide (g.segSize n + Heap.addedSize g stAlign u ≤ u.stByteSize)) fun _ ha => ha
    simp only [ho, Option.bind_eq_bind, Option.bind_some]
    cases o with
    | none => exact ⟨s, none, rfl, .inl ⟨rfl, rfl⟩⟩
    | some u =>
      obtain ⟨hu, hring, hle⟩ := hfit u rfl
      obtain ⟨l, r, rfl⟩ := h.free_mem hu hring
      have hle' : g.segSize n + Heap.addedSize g stAlign u ≤ u.stByteSize := by simpa using hle
      have ha : g.ulAlignment ∣ u.addr := haddr ⟨u.addr, g.stHeader + u.stByteSize, true⟩ (by simp)
      have hdata : g.ulAlignment ∣ g.dataPtr u := Nat.dvd_add ha g.alignment_dvd_header
      obtain ⟨hptr, hadd, hdvd⟩ := alignPtr_spec hpow hdata
      dsimp only
      generalize Heap.addedSize g stAlign u = j at hptr hadd hdvd hle' ⊢
      have hsize : n ≤ g.segSize n := HeapConf.le_crossbordSize.trans HeapConf.le_segSize
      simp only [hptr]
      split_ifs with hleft hj
      · obtain ⟨s₁, hsplit, hrep₁, hmem₁⟩ := h.splitLeft j (by omega) (by omega)
        rw [List.append_cons] at hrep₁
        have hle₁ : g.segSize n ≤ u.stByteSize - j := by omega
        obtain ⟨s', m, rest, htake, hcut, hrep, hmem⟩ := hrep₁.takeSeg hle₁
        have hroom : g.bHeapCrossBorderEn = true → g.stWord ≤ m := fun hb =>
          (HeapConf.word_le_segSize hb).trans (hcut.le hle₁)
        have hm := hcut.le hle₁
        have hm' := hcut.m_le
        simp only [hsplit, htake, Option.bind_some]
        have hp : g.dataPtr u + j = u.addr + j + g.stHeader := by
          rw [HeapConf.dataPtr]
          omega
        have hk : u.addr + u.stByteSize - (u.addr + j) = u.stByteSize - j := by omega
        refine ⟨_, _, rfl, .inr ⟨u.addr + j, m, _, _, rfl,
          hrep.updataMaxUsed.crossbordMark hroom,
          ⟨⟨l, r, u.addr, u.stByteSize, [⟨u.addr, j, true⟩], g.segSize n, rest, rfl, rfl,
            .inr ⟨j, rfl, rfl, by omega, by omega, hdvd⟩, HeapConf.alignment_dvd_segSize, ?_,
            fun c hc => ?_⟩, by omega, by omega, .inl hp⟩⟩⟩
        · rwa [hk]
        · rw [crossbordMark_mem (fun _ => by omega) hroom, updataMaxUsed_mem,
            hmem c (by omega), hmem₁ c hc]
      · obtain ⟨s', m, rest, htake, hcut, hrep, hmem⟩ := h.takeSeg hle'
        have hm := hcut.le hle'
        have hm' := hcut.m_le
        have hroom : g.bHeapCrossBorderEn = true → g.stWord ≤ m := fun hb =>
          (HeapConf.word_le_segSize (n := n) hb).trans (by omega)
        subst hj
        simp only [htake, Option.bind_some]
        refine ⟨_, _, rfl, .inr ⟨u.addr, m, _, _, rfl, hrep.updataMaxUsed.crossbordMark hroom,
          ⟨⟨l, r, u.addr, u.stByteSize, [], g.segSize n + 0, rest, rfl, by simp, .inl ⟨rfl, rfl⟩,
            Nat.dvd_add HeapConf.alignment_dvd_segSize hdvd, ?_, fun c hc => ?_⟩,
            le_rfl, ?_, .inl rfl⟩⟩⟩
        · rwa [Nat.add_sub_cancel_left]
        · rw [crossbordMark_mem (fun _ => by omega) hroom, updataMaxUsed_mem]
          exact hmem c hc
        · rw [HeapConf.dataPtr]
          omega
      · obtain ⟨s', m, rest, htake, hcut, hrep, hmem⟩ := h.takeSeg hle'
        have hm := hcut.le hle'
        have hm' := hcut.m_le
        have hroom : g.bHeapCrossBorderEn = true → g.stWord ≤ m := fun hb =>
          (HeapConf.word_le_segSize (n := n) hb).trans (by omega)
        have hp : g.dataPtr u + j = u.addr + g.stHeader + j := rfl
        obtain ⟨hrep₂, hmark, hmem₂⟩ := hrep.setLeft (p := g.dataPtr u + j) ha (by omega) (by omega)
        simp only [htake, Option.bind_some]
        refine ⟨_, _, rfl, .inr ⟨u.addr, m, _, _, rfl, hrep₂.updataMaxUsed.crossbordMark hroom,
          ⟨⟨l, r, u.addr, u.stByteSize, [], g.segSize n + j, rest, rfl, by simp, .inl ⟨rfl, rfl⟩,
            Nat.dvd_add HeapConf.alignment_dvd_segSize hdvd, ?_, fun c hc => ?_⟩,
            by omega, by omega, .inr (hmark.congr fun c hc hc' => ?_)⟩⟩⟩
        · rwa [Nat.add_sub_cancel_left]
        · rw [crossbordMark_mem (fun _ => by omega) hroom, updataMaxUsed_mem,
            hmem₂ c (by omega), hmem c hc]
        · rw [crossbordMark_mem (fun hb => ?_) hroom, updataMaxUsed_mem]
          have hw := HeapConf.word_le_segSize (n := n) hb
          omega

end SylixOS.Kernel
