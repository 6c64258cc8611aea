import SylixOS.Kernel.HeapCalls

/-! # Freeing and reallocating

A pointer that the heap has handed out leads to its segment, whether or not the heap verifies it
first. Reallocation changes the segment in place, with what is next to it, or moves the block.
-/

namespace SylixOS.Kernel
open Lib

variable {g : HeapConf} {s s' : Heap} {bs l r : List Chunk} {x y : Chunk} {a b n m k p : ℕ} {f : Bool}

/-! ## The segment of a pointer -/

theorem Rep.isReal (h : Rep g s (l ++ ⟨a, n, f⟩ :: r)) : s.isReal g a = true := by
  have hmagic := h.magic ⟨a, n, f⟩ (by simp)
  simpa [Heap.isReal] using hmagic

/-- The heap finds the segment of a pointer that it has handed out. -/
theorem Rep.segOf_live (h : Rep g s (l ++ ⟨a, n, false⟩ :: r))
    (hp : p = a + g.stHeader ∨ Marked g s.mem a p) : s.segOf g p false = some a := by
  have hreal := h.isReal
  have hused := h.isUsed
  simp only [Heap.segOf, Bool.false_eq_true, if_false]
  rcases hp with rfl | hmark
  · rw [Nat.add_sub_cancel, if_pos hreal, if_pos ⟨hreal, by simpa using hused⟩]
  · have hno : ¬ s.isReal g (p - g.stHeader) = true := by
      simpa [Heap.isReal] using hmark.magic
    rw [if_neg hno, hmark.left, if_pos ⟨hreal, by simpa using hused⟩]

theorem heapScan_some {segments : List Segment} (h : s.heapScan g p segments = some a) :
    ∃ u ∈ segments, u.addr = a ∧ s.isUsed a = true := by
  induction segments with
  | nil => simp [Heap.heapScan] at h
  | cons u segments ih =>
    rw [Heap.heapScan] at h
    split_ifs at h with hp hused
    · rw [Option.some.injEq] at h
      subst h
      exact ⟨u, by simp, rfl, hused⟩
    · obtain ⟨v, hv, hva⟩ := ih h
      exact ⟨v, by simp [hv], hva⟩

/-- A pointer that is verified leads to a segment in use. -/
theorem Rep.segOf_verify (h : Rep g s bs) (hseg : s.segOf g p true = some a) :
    ∃ l n r, bs = l ++ ⟨a, g.stHeader + n, false⟩ :: r := by
  simp only [Heap.segOf, if_true, Heap.heapVerify] at hseg
  split_ifs at hseg
  obtain ⟨u, hu, rfl, hused⟩ := heapScan_some hseg
  have hmem : chunk g s.freeSegment u ∈ bs := by
    rw [← h.view]
    exact List.mem_map_of_mem hu
  obtain ⟨l, r, rfl⟩ := List.append_of_mem hmem
  have hchunk : chunk g s.freeSegment u = ⟨u.addr, g.stHeader + u.stByteSize, false⟩ := by
    have hnot : u.addr ∉ s.freeSegment := by simpa [Heap.isUsed] using hused
    simp [chunk, hnot]
  rw [hchunk]
  exact ⟨l, u.stByteSize, r, rfl⟩

/-- A segment in use is given back. -/
theorem Rep.heapFree {v : Bool} (h : Rep g s (l ++ ⟨a, g.stHeader + n, false⟩ :: r))
    (hseg : s.segOf g p v = some a) : ∃ s', s.heapFree g (some p) v = some (s', none) ∧
      Rep g s' (release l ⟨a, g.stHeader + n, false⟩ r) ∧ s'.mem = s.mem := by
  obtain ⟨s', hfree, hrep, hmem⟩ := h.freeSeg
  refine ⟨s', ?_, hrep, hmem⟩
  simp only [Heap.heapFree, hseg, hfree, Option.map_some]

/-! ## In place -/

theorem release_of_used (hy : y.free = false) :
    release (l ++ [y]) x r = l ++ y :: joinRight { x with free := true } r := by
  have hlast : (l ++ [y]).getLast? = some y := by simp
  have hno : ¬ (y.free = true ∧ y.stop = x.addr) := by simp [hy]
  simp only [release, joinLeft, hlast, if_neg hno, List.append_assoc, List.singleton_append]

/-- `__split_segment`: the end of a segment in use is freed, if it is long enough. The bytes in front
of the mark stay. -/
theorem Rep.splitSegment {i : ℕ} (h : Rep g s (l ++ ⟨a, g.stHeader + n, false⟩ :: r)) (hle : k ≤ n)
    (hi : i ≤ k) (hmark : g.bHeapCrossBorderEn = true → i + g.stWord ≤ k) :
    ∃ s' bs', s.splitSegment g a k = some s' ∧ Rep g s' bs' ∧
      MemOff s s' (a + g.stHeader + i) (a + g.stHeader + n) ∧
        (bs' = l ++ ⟨a, g.stHeader + n, false⟩ :: r ∨ ∃ j, n = k + (g.stHeader + j) ∧
          bs' = l ++ ⟨a, g.stHeader + k, false⟩ ::
            joinRight ⟨a + g.stHeader + k, g.stHeader + j, true⟩ r) := by
  obtain ⟨left, right, hsplit, hseg, hl, hr⟩ := h.seg
  have hword := g.word_pos
  have hmagic := g.magic_lt_header
  have hmin := g.word_le_min
  have hroom : g.bHeapCrossBorderEn = true → g.stWord ≤ k := fun hb => le_of_add_le_right (hmark hb)
  unfold Heap.splitSegment
  simp only [hsplit, Option.bind_eq_bind, Option.bind_some]
  split_ifs with hsmall
  · have hroom' : g.bHeapCrossBorderEn = true → g.stWord ≤ n := fun hb => (hroom hb).trans hle
    refine ⟨_, _, rfl, h.updataMaxUsed.crossbordMark hroom', fun c hc => ?_, .inl rfl⟩
    rw [crossbordMark_mem (fun hb => by have := hmark hb; omega) hroom', updataMaxUsed_mem]
  · have hj : n = k + (g.stHeader + (n - k - g.stHeader)) := by omega
    have hroomNew : g.bHeapCrossBorderEn = true → g.stWord ≤ n - k - g.stHeader := fun _ => by omega
    have hview := h.toView.split hsplit hj
    have hnext : g.nextPtr ⟨a, k⟩ = a + g.stHeader + k := rfl
    simp only [hnext]
    generalize n - k - g.stHeader = j at hj hroomNew hview ⊢
    have hcounter := h.counter
    have htotal := h.total
    have hused := h.used
    have hfree := h.free
    simp only [List.length_append, List.length_cons, List.map_append, List.map_cons,
      List.sum_append, List.sum_cons, usedOf_append, usedOf_cons, freeOf_append, freeOf_cons,
      Bool.false_eq_true, if_false] at hcounter htotal hused hfree
    have hrep : Rep g
        { ({ s with segments := left ++ ⟨a, k⟩ :: ⟨a + g.stHeader + k, j⟩ :: right } :
            Heap).setMagic g (a + g.stHeader + k) with
          ulSegmentCounter := (Heap.setMagic g
            { s with segments := left ++ ⟨a, k⟩ :: ⟨a + g.stHeader + k, j⟩ :: right }
              (a + g.stHeader + k)).ulSegmentCounter + 1 }
        (l ++ ⟨a, g.stHeader + k, false⟩ :: ⟨a + g.stHeader + k, g.stHeader + j, false⟩ :: r) := by
      refine ⟨hview, ?_, ?_, ?_, ?_, ?_, start_congr h.start⟩
      · simp [Heap.setMagic, Heap.setWord, hcounter]
        omega
      · simp [Heap.setMagic, Heap.setWord, htotal]
        omega
      · simp [Heap.setMagic, Heap.setWord, hused]
        omega
      · simp [Heap.setMagic, Heap.setWord, hfree]
      · rw [List.append_cons]
        refine magic_setMagic ?_
        rw [List.append_assoc]
        exact magic_congr h.magic
    rw [List.append_cons l] at hrep
    have hrep₂ := hrep.crossbordMark hroomNew
    have hsegOf := hrep₂.segOf_live (p := g.dataPtr ⟨a + g.stHeader + k, j⟩) (.inl rfl)
    obtain ⟨s₃, hfreeSeg, hrep₃, hmem₃⟩ := hrep₂.freeSeg
    rw [release_of_used rfl] at hrep₃
    simp only [Heap.heapFree, hsegOf, hfreeSeg, Option.map_some, Option.bind_some]
    refine ⟨_, _, rfl, hrep₃.updataMaxUsed.crossbordMark hroom, fun c hc => ?_, .inr ⟨j, hj, rfl⟩⟩
    rw [crossbordMark_mem (fun hb => by have := hmark hb; omega) hroom, updataMaxUsed_mem, hmem₃,
      crossbordMark_mem (fun _ => by omega) hroomNew]
    exact setWord_mem_of_ne (by omega)

/-- A segment in use takes in the free one to its right, if this is enough. -/
theorem Rep.growRight (h : Rep g s (l ++ ⟨a, g.stHeader + n, false⟩ :: r)) (hlt : n < k) :
    ∃ o, s.growRight g a k = some o ∧ (o = none ∨ ∃ s' m r', o = some s' ∧
      r = ⟨a + g.stHeader + n, g.stHeader + m, true⟩ :: r' ∧ k ≤ n + (m + g.stHeader) ∧
        Rep g s' (l ++ ⟨a, g.stHeader + (n + (m + g.stHeader)), false⟩ :: r') ∧
          s'.mem = s.mem) := by
  obtain ⟨left, right, hsplit, hseg, hl, hr⟩ := h.seg
  unfold Heap.growRight
  simp only [hsplit, Option.bind_eq_bind, Option.bind_some]
  cases right with
  | nil => exact ⟨none, rfl, .inl rfl⟩
  | cons u right =>
    obtain ⟨b, m⟩ := u
    dsimp only
    split_ifs with hgrow
    · obtain ⟨hused, hnext, hroom⟩ := hgrow
      rw [List.map_cons] at hr
      have hring : b ∈ s.freeSegment := by simpa [Heap.isUsed] using hused
      have hfree' : chunk g s.freeSegment ⟨b, m⟩ = ⟨b, g.stHeader + m, true⟩ := by
        simp [chunk, hring]
      have hb : a + g.stHeader + n = b := hnext
      rw [hfree'] at hr
      subst hr
      have hview := h.toView
      rw [hseg] at hview
      have hmerge := hview.eraseNext.merge hb
      have hcounter := h.counter
      have htotal := h.total
      have husedOf := h.used
      have hfreeOf := h.free
      simp only [List.length_append, List.length_cons, List.map_append, List.map_cons,
        List.sum_append, List.sum_cons, usedOf_append, usedOf_cons, freeOf_append, freeOf_cons,
        Bool.false_eq_true, if_false, if_true,
        Nat.add_sub_cancel_left] at hcounter htotal husedOf hfreeOf
      refine ⟨_, rfl, .inr ⟨_, m, right.map (chunk g s.freeSegment), rfl, by rw [hb], by omega,
        ⟨hmerge, ?_, ?_, ?_, ?_, ?_, start_congr h.start⟩, rfl⟩⟩
      · simp [Heap.listRingDel, hcounter]
      · simp [Heap.listRingDel, htotal]
        omega
      · simp [Heap.listRingDel, husedOf]
        omega
      · simp [Heap.listRingDel, hfreeOf]
        omega
      · refine magic_congr (n := g.stHeader + n) (f := false) fun z hz => h.magic z ?_
        rcases List.mem_append.mp hz with hz | hz
        · simp [hz]
        · rcases List.mem_cons.mp hz with rfl | hz
          · simp
          · simp [hz]
    · exact ⟨none, rfl, .inl rfl⟩

/-! ## To another place -/

/-- Allocation takes from free segments. -/
theorem Taken.mem_used {bs' : List Chunk} {m : ℕ} (h : Taken g bs bs' s s' n b m p) (hy : y ∈ bs)
    (hf : y.free = false) : y ∈ bs' := by
  obtain ⟨l, r, a, k, lead, stSize, rest, rfl, rfl, -⟩ := h.pieces
  rcases List.mem_append.mp hy with hy | hy
  · simp [hy]
  · rcases List.mem_cons.mp hy with rfl | hy
    · simp at hf
    · simp [hy]

theorem Taken.mem_new {bs' : List Chunk} {m : ℕ} (h : Taken g bs bs' s s' n b m p) :
    ⟨b, g.stHeader + m, false⟩ ∈ bs' := by
  obtain ⟨l, r, a, k, lead, stSize, rest, rfl, rfl, -⟩ := h.pieces
  simp

theorem memOff_memcpy {dest src : ℕ} (h : n ≤ m) :
    MemOff s (s.memcpy g dest src n) dest (dest + m) := by
  intro c hc
  have hw := g.word_pos
  exact if_neg (by omega)

/-- A block is moved: allocated anew, copied and freed. -/
theorem Rep.moveBlock (h : Rep g s bs) (ha : ⟨a, g.stHeader + n, false⟩ ∈ bs) (hlt : n < k) :
    ∃ s' o, s.moveBlock g ⟨a, n⟩ k = some (s', o) ∧
      (o = none ∧ s' = s.updataMaxUsed ∨
        ∃ b m bs₁ s₁ l₁ r₁, o = some (b + g.stHeader) ∧
          Taken g bs bs₁ s s₁ k b m (b + g.stHeader) ∧ Rep g s₁ bs₁ ∧
            bs₁ = l₁ ++ ⟨a, g.stHeader + n, false⟩ :: r₁ ∧
              Rep g s' (release l₁ ⟨a, g.stHeader + n, false⟩ r₁) ∧
                s'.mem = (s₁.memcpy g (b + g.stHeader) (a + g.stHeader) (n % 2 ^ 32)).mem) := by
  obtain ⟨s₁, o, halloc, hcase⟩ := h.heapAllocate (n := k)
  unfold Heap.moveBlock
  simp only [halloc, Option.bind_eq_bind, Option.bind_some]
  rcases hcase with ⟨rfl, rfl⟩ | ⟨b, m, bs₁, rfl, hrep₁, hm, htaken⟩
  · exact ⟨_, _, rfl, .inl ⟨rfl, rfl⟩⟩
  · have hk : k ≤ g.segSize k := HeapConf.le_crossbordSize.trans HeapConf.le_segSize
    have hmod : n % 2 ^ 32 ≤ n := Nat.mod_le _ _
    have hcopy : Rep g (s₁.memcpy g (b + g.stHeader) (g.dataPtr ⟨a, n⟩) (n % 2 ^ 32)) bs₁ := by
      refine hrep₁.write htaken.mem_new fun c hc => if_neg ?_
      simp only [Chunk.stop] at hc
      have hw := g.word_pos
      omega
    obtain ⟨l₁, r₁, rfl⟩ := List.append_of_mem (htaken.mem_used ha rfl)
    obtain ⟨s₂, hfree, hrep₂, hmem₂⟩ := hcopy.heapFree (p := g.dataPtr ⟨a, n⟩) (v := false)
      (hcopy.segOf_live (.inl rfl))
    simp only [hfree, Option.bind_some]
    refine ⟨_, _, rfl, .inr ⟨b, m, _, s₁, l₁, r₁, rfl, htaken, hrep₁, rfl, hrep₂.updataMaxUsed, ?_⟩⟩
    rw [updataMaxUsed_mem, hmem₂]
    rfl

/-! ## More memory -/

/-- `_HeapCtor` makes one free range of its memory. -/
theorem heapCtor_some {pvStartAddress stByteSize : ℕ} {mem : ℕ → ℕ}
    (h : Heap.heapCtor g pvStartAddress stByteSize mem = some s) :
    g.stHeader ≤ (g.region pvStartAddress stByteSize).stSize ∧
      Rep g s [⟨(g.region pvStartAddress stByteSize).addr,
        (g.region pvStartAddress stByteSize).stSize, true⟩] := by
  unfold Heap.heapCtor at h
  dsimp only at h
  split_ifs at h with hlt
  rw [Option.some.injEq] at h
  subst h
  generalize g.region pvStartAddress stByteSize = q at hlt ⊢
  have hle : g.stHeader ≤ q.stSize := not_lt.mp hlt
  have hadd : g.stHeader + (q.stSize - g.stHeader) = q.stSize := by omega
  refine ⟨hle, ⟨?_, ?_, List.nodup_singleton _, ?_⟩, ?_, ?_, ?_, ?_, ?_, ?_⟩
  · simp [Heap.setMagic, Heap.setWord, chunk, hadd]
  · simpa [Chunk.cells] using List.nodup_range'
  · simp [Heap.setMagic, Heap.setWord]
  · rfl
  · rfl
  · rfl
  · rfl
  · intro z hz
    rw [List.mem_singleton.mp hz]
    exact setWord_mem_self
  · intro z hz
    simp only [List.head?_cons, Option.mem_def, Option.some.injEq] at hz
    rw [← hz]
    rfl

/-- New memory that is apart from the old one overlaps no segment. -/
theorem Rep.not_overlaps {q : Region} (h : Rep g s bs) (hq : 0 < q.stSize)
    (hnew : ∀ c ∈ cover bs, ¬ (q.addr ≤ c ∧ c < q.addr + q.stSize)) :
    s.segments.dropLast.any (Heap.overlaps g q) = false := by
  rw [List.any_eq_false]
  intro u hu hover
  have hmem : chunk g s.freeSegment u ∈ bs := by
    rw [← h.view]
    exact List.mem_map_of_mem (List.dropLast_subset _ hu)
  have hno (c : ℕ) (hc : g.dataPtr u ≤ c ∧ c < g.dataPtr u + u.stByteSize)
      (hqc : q.addr ≤ c ∧ c < q.addr + q.stSize) : False := by
    refine hnew c (mem_cover.mpr ⟨_, hmem, ?_, ?_⟩) hqc
    · simp only [HeapConf.dataPtr, chunk] at hc ⊢
      omega
    · simp only [HeapConf.dataPtr, chunk, Chunk.stop] at hc ⊢
      omega
  simp only [Heap.overlaps, Bool.or_eq_true, Bool.and_eq_true, decide_eq_true_eq] at hover
  rcases hover with hover | hover
  · exact hno _ hover (by omega)
  · exact hno _ hover (by omega)

/-- `_HeapAddMemory` adds a free range at the end. -/
theorem Rep.heapAddMemory {pvMemory stSize : ℕ} (h : Rep g s bs) (hne : bs ≠ [])
    (hroom : g.stHeader ≤ (g.region pvMemory stSize).stSize)
    (hnew : ∀ c ∈ cover bs, ¬ ((g.region pvMemory stSize).addr ≤ c ∧
      c < (g.region pvMemory stSize).addr + (g.region pvMemory stSize).stSize)) :
    ∃ s', s.heapAddMemory g pvMemory stSize = some (s', true) ∧
      Rep g s' (bs ++ [⟨(g.region pvMemory stSize).addr, (g.region pvMemory stSize).stSize, true⟩]) ∧
        MemOff s s' (g.region pvMemory stSize).addr
          ((g.region pvMemory stSize).addr + (g.region pvMemory stSize).stSize) := by
  have hhead := g.header_pos
  have hmagic := g.magic_lt_header
  have hword := g.word_pos
  unfold Heap.heapAddMemory
  dsimp only
  generalize g.region pvMemory stSize = q at hroom hnew ⊢
  have hno := h.not_overlaps (by omega) hnew
  rw [if_neg (not_lt.mpr hroom), hno, if_neg Bool.false_ne_true]
  obtain ⟨j, hj⟩ := Nat.exists_eq_add_of_le hroom
  have hsub : q.stSize - g.stHeader = j := by omega
  rw [hsub]
  rw [hj] at hnew ⊢
  have hview := h.toView.append (b := q.addr) (m := j) hnew
  obtain ⟨ring, heq, hperm⟩ := addNewSegToFreelist_eq
    (Heap.setMagic g { s with segments := s.segments ++ [⟨q.addr, j⟩] } q.addr) q.addr
  have hadd := hview.add (r := []) hperm
  have hmem : MemOff s (Heap.setMagic g { s with segments := s.segments ++ [⟨q.addr, j⟩] } q.addr)
      q.addr (q.addr + (g.stHeader + j)) :=
    memOff_setMagic (s := { s with segments := s.segments ++ [⟨q.addr, j⟩] }) (by omega) (by omega)
  have hcounter := h.counter
  have htotal := h.total
  have hused := h.used
  have hfree := h.free
  rw [heq]
  refine ⟨_, rfl, ⟨hadd, ?_, ?_, ?_, ?_, ?_, ?_⟩, hmem⟩
  · simp [Heap.setMagic, Heap.setWord, hcounter]
  · simp [Heap.setMagic, Heap.setWord, htotal]
  · simp [Heap.setMagic, Heap.setWord, hused]
  · simp [Heap.setMagic, Heap.setWord, hfree]
  · refine magic_setMagic (r := []) fun z hz => h.magic z ?_
    simpa using hz
  · obtain ⟨x, bs, rfl⟩ := List.exists_cons_of_ne_nil hne
    exact h.start

end SylixOS.Kernel
