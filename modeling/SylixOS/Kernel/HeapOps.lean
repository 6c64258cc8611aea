import SylixOS.Kernel.HeapChunks

/-! # What the heap's functions do to the ranges

A heap represents a list of ranges when its segments and its free ring stand for it and its counters
count it. Each function of the heap changes this list in one place; taking a free segment cuts it,
and freeing one joins it with its neighbours.
-/

namespace SylixOS.Kernel
open Lib

/-- The bytes in use: all headers, and the data of the segments in use. -/
def usedOf (g : HeapConf) (bs : List Chunk) : ℕ :=
  (bs.map fun x => if x.free then g.stHeader else x.len).sum

/-- The bytes of data in free segments. -/
def freeOf (g : HeapConf) (bs : List Chunk) : ℕ :=
  (bs.map fun x => if x.free then x.len - g.stHeader else 0).sum

/-- The heap represents the ranges. -/
structure Rep (g : HeapConf) (s : Heap) (bs : List Chunk) : Prop
    extends View g s.segments s.freeSegment bs where
  counter : s.ulSegmentCounter = bs.length
  total : s.stTotalByteSize = (bs.map Chunk.len).sum
  used : s.stUsedByteSize = usedOf g bs
  free : s.stFreeByteSize = freeOf g bs
  magic : ∀ x ∈ bs, s.mem (x.addr + g.stMagicOffset) = segMagicReal
  start : ∀ x ∈ bs.head?, x.addr = s.pvStartAddress

/-- The memory outside of a range is as before. -/
def MemOff (s s' : Heap) (lo hi : ℕ) : Prop := ∀ b, b < lo ∨ hi ≤ b → s'.mem b = s.mem b

variable {g : HeapConf} {s s' : Heap} {bs l r : List Chunk} {x y : Chunk} {a b n k : ℕ} {f : Bool}
  {ring : List ℕ}

section Sums
variable (g)

@[simp] theorem usedOf_append : usedOf g (l ++ r) = usedOf g l + usedOf g r := by simp [usedOf]

@[simp] theorem usedOf_cons :
    usedOf g (x :: l) = (if x.free then g.stHeader else x.len) + usedOf g l := by simp [usedOf]

@[simp] theorem freeOf_append : freeOf g (l ++ r) = freeOf g l + freeOf g r := by simp [freeOf]

@[simp] theorem freeOf_cons :
    freeOf g (x :: l) = (if x.free then x.len - g.stHeader else 0) + freeOf g l := by simp [freeOf]

@[simp] theorem usedOf_nil : usedOf g [] = 0 := rfl

@[simp] theorem freeOf_nil : freeOf g [] = 0 := rfl

end Sums

@[simp] theorem setWord_mem_self {v : ℕ} : (s.setWord a v).mem a = v := Function.update_self _ _ _

theorem setWord_mem_of_ne {v : ℕ} (h : b ≠ a) : (s.setWord a v).mem b = s.mem b :=
  Function.update_of_ne h _ _

/-- All bytes are in use or free. -/
theorem usedOf_add_freeOf (h : ∀ x ∈ bs, g.stHeader ≤ x.len) :
    usedOf g bs + freeOf g bs = (bs.map Chunk.len).sum := by
  induction bs with
  | nil => rfl
  | cons x bs ih =>
    have hx := h x (.head _)
    have hih := ih fun y hy => h y (.tail _ hy)
    rw [usedOf_cons, freeOf_cons, List.map_cons, List.sum_cons]
    split_ifs <;> omega

theorem Rep.isUsed (h : Rep g s (l ++ ⟨a, n, f⟩ :: r)) : s.isUsed a = !f := by
  obtain ⟨left, u, right, -, -, -, hu, -⟩ := h.parts
  simp only [chunk, Chunk.mk.injEq] at hu
  obtain ⟨rfl, -, rfl⟩ := hu
  simp [Heap.isUsed]

/-- The segment at the start of a range. -/
theorem Rep.seg (h : Rep g s (l ++ ⟨a, g.stHeader + n, f⟩ :: r)) : ∃ left right,
    splitSegs a s.segments = some (left, ⟨a, n⟩, right) ∧ s.segments = left ++ ⟨a, n⟩ :: right ∧
      left.map (chunk g s.freeSegment) = l ∧ right.map (chunk g s.freeSegment) = r := by
  obtain ⟨left, u, right, hsplit, hseg, hl, hu, hr⟩ := h.parts
  obtain ⟨b, m⟩ := u
  simp only [chunk, Chunk.mk.injEq] at hu
  obtain ⟨rfl, hm, -⟩ := hu
  obtain rfl : m = n := by omega
  exact ⟨left, right, hsplit, hseg, hl, hr⟩

/-- What is written into the data of a segment plays no part; these are the words that have no byte
there. -/
theorem Rep.write {mem : ℕ → ℕ} (h : Rep g s bs) (hx : x ∈ bs)
    (hmem : ∀ c, c + g.stWord ≤ x.addr + g.stHeader ∨ x.stop ≤ c → mem c = s.mem c) :
    Rep g { s with mem := mem } bs where
  toView := h.toView
  counter := h.counter
  total := h.total
  used := h.used
  free := h.free
  start := h.start
  magic y hy := by
    have hmagic := g.magic_lt_header
    have hlen := h.header_le hy
    have hword := g.word_pos
    have hout : y.addr + g.stMagicOffset + g.stWord ≤ x.addr + g.stHeader ∨
        x.stop ≤ y.addr + g.stMagicOffset := by
      by_cases hxy : x = y
      · subst hxy
        exact .inl (by omega)
      · have hxlen := h.header_le hx
        rcases apart_of_mem h.pos h.nodup hx hy hxy with hapart | hapart
        · exact .inr (by omega)
        · simp only [Chunk.stop] at hapart
          exact .inl (by omega)
    change mem (y.addr + g.stMagicOffset) = segMagicReal
    rw [hmem _ hout]
    exact h.magic y hy

theorem Rep.setWord (h : Rep g s bs) (hx : x ∈ bs) (ha : x.addr + g.stHeader ≤ a ∧ a < x.stop)
    {v : ℕ} : Rep g (s.setWord a v) bs := by
  have hw := g.word_pos
  exact h.write hx fun c hc => setWord_mem_of_ne (s := s) (by omega)

theorem Rep.updataMaxUsed (h : Rep g s bs) : Rep g s.updataMaxUsed bs := by
  unfold Heap.updataMaxUsed
  split_ifs
  · exact ⟨h.toView, h.counter, h.total, h.used, h.free, h.magic, h.start⟩
  · exact h

@[simp] theorem updataMaxUsed_mem : s.updataMaxUsed.mem = s.mem := by
  unfold Heap.updataMaxUsed
  split_ifs <;> rfl

/-- The mark of a segment with room for it. -/
theorem Rep.crossbordMark (h : Rep g s (l ++ ⟨a, g.stHeader + n, f⟩ :: r))
    (hn : g.bHeapCrossBorderEn = true → g.stWord ≤ n) :
    Rep g (s.crossbordMark g ⟨a, n⟩) (l ++ ⟨a, g.stHeader + n, f⟩ :: r) := by
  unfold Heap.crossbordMark
  split_ifs with hb
  · have hw := g.word_pos
    have hle := hn hb
    refine h.setWord (x := ⟨a, g.stHeader + n, f⟩) (by simp) ⟨?_, ?_⟩
    · simp [HeapConf.dataPtr]
    · simp only [HeapConf.dataPtr, Chunk.stop]
      omega
  · exact h

/-- The mark is the last word of the data. -/
theorem crossbordMark_mem (hb : g.bHeapCrossBorderEn = true →
    b < a + g.stHeader + (n - g.stWord) ∨ a + g.stHeader + n ≤ b)
    (hn : g.bHeapCrossBorderEn = true → g.stWord ≤ n) :
    (s.crossbordMark g ⟨a, n⟩).mem b = s.mem b := by
  unfold Heap.crossbordMark
  split_ifs with hen
  · have hle := hn hen
    have hw := g.word_pos
    have hout := hb hen
    refine setWord_mem_of_ne ?_
    simp only [HeapConf.dataPtr]
    omega
  · rfl

theorem addNewSegToFreelist_eq (s : Heap) (a : ℕ) : ∃ ring,
    s.addNewSegToFreelist a = { s with freeSegment := ring } ∧ ring.Perm (a :: s.freeSegment) := by
  unfold Heap.addNewSegToFreelist
  split
  · exact ⟨_, rfl, List.perm_append_singleton a _⟩
  · exact ⟨_, rfl, .refl _⟩

/-- The first range still starts the heap. -/
theorem start_congr {p m : ℕ} {e : Bool} {r' : List Chunk}
    (h : ∀ z ∈ (l ++ ⟨a, n, f⟩ :: r).head?, z.addr = p) :
    ∀ z ∈ (l ++ ⟨a, m, e⟩ :: r').head?, z.addr = p := by
  intro z hz
  cases l with
  | nil =>
    simp only [List.nil_append, List.head?_cons, Option.mem_def, Option.some.injEq] at hz
    rw [← hz]
    exact h ⟨a, n, f⟩ rfl
  | cons w l => exact h z (by simpa using hz)

/-- The headers have their magics where the addresses are the same. -/
theorem magic_congr {mem : ℕ → ℕ} {m : ℕ} {e : Bool}
    (h : ∀ z ∈ l ++ ⟨a, n, f⟩ :: r, mem (z.addr + g.stMagicOffset) = segMagicReal) :
    ∀ z ∈ l ++ ⟨a, m, e⟩ :: r, mem (z.addr + g.stMagicOffset) = segMagicReal := by
  intro z hz
  rcases List.mem_append.mp hz with hz | hz
  · exact h z (by simp [hz])
  · rcases List.mem_cons.mp hz with rfl | hz
    · exact h ⟨a, n, f⟩ (by simp)
    · exact h z (by simp [hz])

/-- A new header gets its magic. -/
theorem magic_setMagic (h : ∀ z ∈ l ++ r, s.mem (z.addr + g.stMagicOffset) = segMagicReal) :
    ∀ z ∈ l ++ ⟨a, n, f⟩ :: r, (s.setMagic g a).mem (z.addr + g.stMagicOffset) = segMagicReal := by
  intro z hz
  by_cases ha : z.addr = a
  · rw [ha, Heap.setMagic, setWord_mem_self]
  · have hne : z.addr + g.stMagicOffset ≠ a + g.stMagicOffset := by omega
    rw [Heap.setMagic, setWord_mem_of_ne hne]
    refine h z ?_
    rcases List.mem_append.mp hz with hz | hz
    · simp [hz]
    · rcases List.mem_cons.mp hz with rfl | hz
      · exact absurd rfl ha
      · simp [hz]

theorem memOff_setMagic {lo hi : ℕ} (hlo : lo ≤ a + g.stMagicOffset)
    (hhi : a + g.stMagicOffset < hi) : MemOff s (s.setMagic g a) lo hi := by
  intro b hb
  exact setWord_mem_of_ne (by omega)

/-! ## Taking a free segment -/

/-- What is left of a free segment, of which a part is in use. -/
def Cut (g : HeapConf) (a k stSize m : ℕ) (rest : List Chunk) : Prop :=
  rest = [] ∧ m = k ∨ ∃ j, rest = [⟨a + g.stHeader + m, g.stHeader + j, true⟩] ∧ m = stSize ∧
    k = m + (g.stHeader + j)

theorem Rep.takeSeg {stSize : ℕ} (h : Rep g s (l ++ ⟨a, g.stHeader + k, true⟩ :: r))
    (hk : stSize ≤ k) : ∃ s' m rest, s.takeSeg g a stSize = some (s', ⟨a, m⟩) ∧
      Cut g a k stSize m rest ∧ Rep g s' (l ++ ⟨a, g.stHeader + m, false⟩ :: (rest ++ r)) ∧
        MemOff s s' (a + g.stHeader) (a + g.stHeader + k) := by
  obtain ⟨left, right, hsplit, hseg, hl, hr⟩ := h.seg
  have hview := h.toView.erase
  have hcounter := h.counter
  have htotal := h.total
  have hused := h.used
  have hfree := h.free
  have hhead := g.header_pos
  have hmagic := g.magic_lt_header
  simp only [List.length_append, List.length_cons, List.map_append, List.map_cons, List.sum_append,
    List.sum_cons, usedOf_append, usedOf_cons, freeOf_append, freeOf_cons, if_true,
    Nat.add_sub_cancel_left] at hcounter htotal hused hfree
  unfold Heap.takeSeg
  simp only [hsplit, Option.bind_eq_bind, Option.bind_some]
  split_ifs with hroom
  · have hj : k = stSize + (g.stHeader + (k - stSize - g.stHeader)) := by omega
    have hsplit₁ := hview.split hsplit hj
    obtain ⟨ring, heq, hperm⟩ := addNewSegToFreelist_eq
      (({ s.listRingDel a with segments := left ++ ⟨a, stSize⟩ ::
          ⟨a + g.stHeader + stSize, k - stSize - g.stHeader⟩ :: right } : Heap).setMagic g
            (a + g.stHeader + stSize)) (a + g.stHeader + stSize)
    have hadd := hsplit₁.addNext hperm
    refine ⟨_, stSize, [⟨a + g.stHeader + stSize, g.stHeader + (k - stSize - g.stHeader), true⟩], rfl,
      .inr ⟨_, rfl, rfl, hj⟩, ?_, ?_⟩
    · simp only [HeapConf.nextPtr, HeapConf.dataPtr]
      rw [heq]
      refine ⟨?_, ?_, ?_, ?_, ?_, ?_, start_congr h.start⟩
      · exact hadd
      · simp [Heap.setMagic, Heap.setWord, Heap.listRingDel, hcounter]
        omega
      · simp [Heap.setMagic, Heap.setWord, Heap.listRingDel, htotal]
        omega
      · simp [Heap.setMagic, Heap.setWord, Heap.listRingDel, hused]
        omega
      · simp [Heap.setMagic, Heap.setWord, Heap.listRingDel, hfree]
        omega
      · rw [List.append_cons]
        refine magic_setMagic ?_
        rw [List.append_assoc]
        exact magic_congr h.magic
    · simp only [HeapConf.nextPtr, HeapConf.dataPtr]
      rw [heq]
      exact memOff_setMagic (by omega) (by omega)
  · refine ⟨_, k, [], rfl, .inl ⟨rfl, rfl⟩, ?_, fun _ _ => rfl⟩
    refine ⟨hview, ?_, ?_, ?_, ?_,
      magic_congr h.magic,
      start_congr (p := s.pvStartAddress) h.start⟩
    · simpa [Heap.listRingDel] using h.counter
    · simpa [Heap.listRingDel] using h.total
    · simp [Heap.listRingDel, hused]
      omega
    · simp [Heap.listRingDel, hfree]
      omega

theorem Rep.splitLeft (h : Rep g s (l ++ ⟨a, g.stHeader + k, true⟩ :: r))
    (stAddedSize : ℕ) (hlo : g.stHeader ≤ stAddedSize) (hhi : stAddedSize ≤ k) :
    ∃ s', s.splitLeft g a stAddedSize = some (s', a + stAddedSize) ∧
      Rep g s' (l ++ ⟨a, stAddedSize, true⟩ ::
        ⟨a + stAddedSize, g.stHeader + (k - stAddedSize), true⟩ :: r) ∧
        MemOff s s' (a + g.stHeader) (a + g.stHeader + k) := by
  obtain ⟨left, right, hsplit, hseg, hl, hr⟩ := h.seg
  have hcounter := h.counter
  have htotal := h.total
  have hused := h.used
  have hfree := h.free
  have hhead := g.header_pos
  have hmagic := g.magic_lt_header
  have hword := g.word_pos
  simp only [List.length_append, List.length_cons, List.map_append, List.map_cons, List.sum_append,
    List.sum_cons, usedOf_append, usedOf_cons, freeOf_append, freeOf_cons, if_true,
    Nat.add_sub_cancel_left] at hcounter htotal hused hfree
  obtain ⟨j, rfl⟩ := Nat.exists_eq_add_of_le hlo
  have hj : k = j + (g.stHeader + (k - (g.stHeader + j))) := by omega
  have hsplit₁ := h.toView.split hsplit hj
  have haddr : a + g.stHeader + (g.stHeader + j) - g.stHeader = a + g.stHeader + j := by omega
  have hadd' : a + (g.stHeader + j) = a + g.stHeader + j := by omega
  have hsub : g.stHeader + j - g.stHeader = j := by omega
  obtain ⟨ring, heq, hperm⟩ := addNewSegToFreelist_eq
    (({ s with segments := left ++ ⟨a, j⟩ :: ⟨a + g.stHeader + j, k - (g.stHeader + j)⟩ :: right } :
      Heap).setMagic g (a + g.stHeader + j)) (a + g.stHeader + j)
  have hadd := hsplit₁.addNext hperm
  unfold Heap.splitLeft
  simp only [hsplit, Option.bind_eq_bind, Option.bind_some, HeapConf.dataPtr, haddr, hsub, hadd']
  rw [heq]
  refine ⟨_, rfl, ⟨hadd, ?_, ?_, ?_, ?_, ?_, start_congr h.start⟩, ?_⟩
  · simp [Heap.setMagic, Heap.setWord, hcounter]
    omega
  · simp [Heap.setMagic, Heap.setWord, htotal]
    omega
  · simp [Heap.setMagic, Heap.setWord, hused]
    omega
  · simp [Heap.setMagic, Heap.setWord, hfree]
    omega
  · rw [List.append_cons]
    refine magic_setMagic ?_
    rw [List.append_assoc]
    exact magic_congr h.magic
  · exact memOff_setMagic (by omega) (by omega)

/-! ## Freeing a segment -/

/-- A free segment may be put into the ring anew. -/
theorem readd_eq (s : Heap) (a : ℕ) (c : Prop) [Decidable c] : ∃ ring,
    (if c then (s.listRingDel a).addNewSegToFreelist a else s) = { s with freeSegment := ring } ∧
      (ring = s.freeSegment ∨ ring.Perm (a :: s.freeSegment.erase a)) := by
  obtain ⟨ring, heq, hperm⟩ := addNewSegToFreelist_eq (s.listRingDel a) a
  rw [heq]
  split_ifs
  · exact ⟨ring, rfl, .inr hperm⟩
  · exact ⟨s.freeSegment, rfl, .inl rfl⟩

/-- The segment to the left of a used one takes it in, if it is free. -/
theorem Rep.mergeLeft {left right : List Segment}
    (h : Rep g s (l ++ ⟨a, g.stHeader + n, false⟩ :: r))
    (hsplit : splitSegs a s.segments = some (left, ⟨a, n⟩, right)) :
    (s.mergeLeft g left ⟨a, n⟩ right = (s, left, ⟨a, n⟩, false) ∧
        joinLeft l ⟨a, g.stHeader + n, true⟩ = (l, ⟨a, g.stHeader + n, true⟩)) ∨
      ∃ s' left' b m l', s.mergeLeft g left ⟨a, n⟩ right = (s', left', ⟨b, m⟩, true) ∧
        joinLeft l ⟨a, g.stHeader + n, true⟩ = (l', ⟨b, g.stHeader + m, true⟩) ∧
          s'.mem = s.mem ∧ s'.segments = left' ++ ⟨b, m⟩ :: right ∧
            Rep g s' (l' ++ ⟨b, g.stHeader + m, true⟩ :: r) := by
  obtain ⟨left', right', hsplit', hseg, hl, hr⟩ := h.seg
  rw [hsplit, Option.some.injEq, Prod.mk.injEq, Prod.mk.injEq] at hsplit'
  obtain ⟨rfl, -, rfl⟩ := hsplit'
  have hcounter := h.counter
  have htotal := h.total
  have hused := h.used
  have hfree := h.free
  rcases List.eq_nil_or_concat left with rfl | ⟨left, u, rfl⟩
  · subst hl
    exact .inl ⟨rfl, rfl⟩
  · rw [List.concat_eq_append] at hsplit hseg hl ⊢
    obtain ⟨b, m⟩ := u
    rw [List.map_append] at hl
    subst hl
    have hlast : (left ++ [Segment.mk b m]).getLast? = some ⟨b, m⟩ := by simp
    have hstop : (chunk g s.freeSegment ⟨b, m⟩).stop = g.nextPtr ⟨b, m⟩ := by
      simp only [chunk, Chunk.stop, HeapConf.nextPtr, HeapConf.dataPtr]
      omega
    have hmem : s.isUsed b = !(chunk g s.freeSegment ⟨b, m⟩).free := by simp [Heap.isUsed, chunk]
    by_cases hjoin : (chunk g s.freeSegment ⟨b, m⟩).free = true ∧ g.nextPtr ⟨b, m⟩ = a
    · have hused' : ¬ (s.isUsed b = true ∨ g.nextPtr ⟨b, m⟩ ≠ a) := by
        rw [hmem, hjoin.1]
        simp [hjoin.2]
      have hfree' : chunk g s.freeSegment ⟨b, m⟩ = ⟨b, g.stHeader + m, true⟩ :=
        congrArg (Chunk.mk b (g.stHeader + m)) hjoin.1
      have hview := h.toView
      rw [hseg, List.map_cons, List.map_nil, hfree', List.append_assoc, List.append_assoc,
        List.singleton_append, List.singleton_append] at hview
      have hmerge := hview.merge hjoin.2
      rw [List.map_cons, List.map_nil, hfree', List.append_assoc, List.singleton_append] at h
      simp only [List.map_cons, List.map_nil, hfree', List.length_append, List.length_cons,
        List.length_nil, List.map_append, List.sum_append, List.sum_cons, List.sum_nil,
        usedOf_append, usedOf_cons, usedOf_nil, freeOf_append, freeOf_cons, freeOf_nil, if_true,
        Bool.false_eq_true, if_false, Nat.add_sub_cancel_left] at hcounter htotal hused hfree
      obtain ⟨ring, heq, hring⟩ := readd_eq
        { s with
          segments := left ++ ⟨b, m + (n + g.stHeader)⟩ :: right
          ulSegmentCounter := s.ulSegmentCounter - 1
          stUsedByteSize := s.stUsedByteSize - (g.stHeader + n)
          stFreeByteSize := s.stFreeByteSize + (g.stHeader + n) } b (right.isEmpty = true)
      refine .inr ⟨{ s with
        segments := left ++ ⟨b, m + (n + g.stHeader)⟩ :: right
        freeSegment := ring
        ulSegmentCounter := s.ulSegmentCounter - 1
        stUsedByteSize := s.stUsedByteSize - (g.stHeader + n)
        stFreeByteSize := s.stFreeByteSize + (g.stHeader + n) }, left, b, m + (n + g.stHeader),
        left.map (chunk g s.freeSegment), ?_, ?_, ?_⟩
      · simp only [Heap.mergeLeft, hlast, if_neg hused', List.dropLast_concat, heq]
      · have hlen : g.stHeader + m + (g.stHeader + n) = g.stHeader + (m + (n + g.stHeader)) := by
          omega
        have hlast' : (left.map (chunk g s.freeSegment) ++
            [Chunk.mk b (g.stHeader + m) true]).getLast? = some ⟨b, g.stHeader + m, true⟩ := by simp
        have hstop' : (Chunk.mk b (g.stHeader + m) true).stop = a := by
          rw [← hfree', hstop, hjoin.2]
        rw [List.map_cons, List.map_nil, hfree', joinLeft, hlast']
        dsimp only
        rw [if_pos ⟨rfl, hstop'⟩, List.dropLast_concat, hlen]
      · refine ⟨rfl, rfl, ⟨hmerge.readd hring, ?_, ?_, ?_, ?_, ?_, start_congr h.start⟩⟩
        · simp [hcounter]
          omega
        · simp [htotal]
          omega
        · simp [hused]
          omega
        · simp [hfree]
          omega
        · refine magic_congr (n := g.stHeader + m) (f := true) fun z hz => h.magic z ?_
          rcases List.mem_append.mp hz with hz | hz
          · simp [hz]
          · rcases List.mem_cons.mp hz with rfl | hz
            · simp
            · simp [hz]
    · refine .inl ⟨?_, ?_⟩
      · have hused' : s.isUsed b = true ∨ g.nextPtr ⟨b, m⟩ ≠ a := by
          rw [hmem]
          by_cases hf : (chunk g s.freeSegment ⟨b, m⟩).free = true
          · exact .inr fun hn => hjoin ⟨hf, hn⟩
          · exact .inl (by simpa using hf)
        simp only [Heap.mergeLeft, hlast, if_pos hused']
      · simp only [joinLeft, List.map_cons, List.map_nil, List.getLast?_append,
          List.getLast?_singleton, Option.some_or, hstop, if_neg hjoin]

/-- The end of the release of a segment that is not merged to the right. -/
theorem Rep.rightMergeFail (h : Rep g s (l ++ ⟨a, g.stHeader + n, f⟩ :: r)) :
    Rep g (s.rightMergeFail ⟨a, n⟩ f n) (l ++ ⟨a, g.stHeader + n, true⟩ :: r) ∧
      (s.rightMergeFail ⟨a, n⟩ f n).mem = s.mem := by
  cases f with
  | true => exact ⟨h, rfl⟩
  | false =>
    obtain ⟨ring, heq, hperm⟩ := addNewSegToFreelist_eq s a
    have hused := h.used
    have hfree := h.free
    simp only [usedOf_append, usedOf_cons, freeOf_append, freeOf_cons, Bool.false_eq_true,
      if_false] at hused hfree
    simp only [Heap.rightMergeFail, heq, Bool.false_eq_true, if_false]
    refine ⟨⟨h.toView.add hperm, ?_, ?_, ?_, ?_, magic_congr h.magic, start_congr h.start⟩, trivial⟩
    · simpa using h.counter
    · simpa using h.total
    · simp [hused]
      omega
    · simp [hfree]
      omega

/-- A segment that is about to be free takes in the free segment to its right. -/
theorem Rep.mergeRight {left right : List Segment}
    (h : Rep g s (l ++ ⟨a, g.stHeader + n, f⟩ :: r)) (hseg : s.segments = left ++ ⟨a, n⟩ :: right)
    {d : ℕ} (hn : f = false → n = d) :
    Rep g (s.mergeRight g left ⟨a, n⟩ right f d) (l ++ joinRight ⟨a, g.stHeader + n, true⟩ r) ∧
      (s.mergeRight g left ⟨a, n⟩ right f d).mem = s.mem := by
  have hfail : Rep g (s.rightMergeFail ⟨a, n⟩ f d) (l ++ ⟨a, g.stHeader + n, true⟩ :: r) ∧
      (s.rightMergeFail ⟨a, n⟩ f d).mem = s.mem := by
    cases f with
    | true => exact ⟨h, rfl⟩
    | false =>
      rw [← hn rfl]
      exact h.rightMergeFail
  obtain ⟨left', right', hsplit', hseg', hl, hr⟩ := h.seg
  have hsplit : splitSegs a s.segments = some (left, ⟨a, n⟩, right) := by
    have hview := h.toView
    rw [hseg] at hview ⊢
    exact splitSegs_append hview.addr_ne.1
  rw [hsplit, Option.some.injEq, Prod.mk.injEq, Prod.mk.injEq] at hsplit'
  obtain ⟨rfl, -, rfl⟩ := hsplit'
  cases right with
  | nil =>
    subst hr
    exact hfail
  | cons u right =>
    obtain ⟨b, m⟩ := u
    rw [List.map_cons] at hr
    subst hr
    have hmem : s.isUsed b = !(chunk g s.freeSegment ⟨b, m⟩).free := by simp [Heap.isUsed, chunk]
    have hstop : (Chunk.mk a (g.stHeader + n) true).stop = g.nextPtr ⟨a, n⟩ := by
      simp only [Chunk.stop, HeapConf.nextPtr, HeapConf.dataPtr]
      omega
    by_cases hjoin : (chunk g s.freeSegment ⟨b, m⟩).free = true ∧ g.nextPtr ⟨a, n⟩ = b
    · have hused' : ¬ (s.isUsed b = true ∨ g.nextPtr ⟨a, n⟩ ≠ b) := by
        rw [hmem, hjoin.1]
        simp [hjoin.2]
      have hfree' : chunk g s.freeSegment ⟨b, m⟩ = ⟨b, g.stHeader + m, true⟩ :=
        congrArg (Chunk.mk b (g.stHeader + m)) hjoin.1
      have hview := h.toView
      rw [hseg, hfree'] at hview
      have hmerge := hview.eraseNext.merge hjoin.2
      have hcounter := h.counter
      have htotal := h.total
      have hused := h.used
      have hfree := h.free
      simp only [hfree', List.length_append, List.length_cons, List.map_append, List.map_cons,
        List.sum_append, List.sum_cons, usedOf_append, usedOf_cons, freeOf_append, freeOf_cons,
        if_true, Nat.add_sub_cancel_left] at hcounter htotal hused hfree
      have hmagic : ∀ z ∈ l ++ ⟨a, g.stHeader + (n + (m + g.stHeader)), true⟩ ::
          right.map (chunk g s.freeSegment), s.mem (z.addr + g.stMagicOffset) = segMagicReal := by
        refine magic_congr (n := g.stHeader + n) (f := f) fun z hz => h.magic z ?_
        rcases List.mem_append.mp hz with hz | hz
        · simp [hz]
        · rcases List.mem_cons.mp hz with rfl | hz
          · simp
          · simp [hz]
      have hlen : g.stHeader + n + (g.stHeader + m) = g.stHeader + (n + (m + g.stHeader)) := by
        omega
      have hstop' : (Chunk.mk a (g.stHeader + n) true).stop = b := by rw [hstop, hjoin.2]
      rw [hfree', joinRight, if_pos ⟨rfl, hstop'⟩, hlen, Heap.mergeRight, if_neg hused']
      cases f with
      | true =>
        obtain ⟨ring, heq, hring⟩ := readd_eq
          { s.listRingDel b with
            segments := left ++ ⟨a, n + (m + g.stHeader)⟩ :: right
            ulSegmentCounter := (s.listRingDel b).ulSegmentCounter - 1 } a (right.isEmpty = true)
        dsimp only at heq
        simp only [if_true] at hused hfree ⊢
        rw [heq]
        refine ⟨⟨hmerge.readd hring, ?_, ?_, ?_, ?_, hmagic, start_congr h.start⟩, rfl⟩
        · simp [hcounter, Heap.listRingDel]
        · simp [htotal, Heap.listRingDel]
          omega
        · simp [hused, Heap.listRingDel]
          omega
        · simp [hfree, Heap.listRingDel]
          omega
      | false =>
        have hn' := hn rfl
        subst hn'
        obtain ⟨ring, heq, hperm⟩ := addNewSegToFreelist_eq
          { s.listRingDel b with
            segments := left ++ ⟨a, n + (m + g.stHeader)⟩ :: right
            ulSegmentCounter := (s.listRingDel b).ulSegmentCounter - 1 } a
        dsimp only at heq
        simp only [Bool.false_eq_true, if_false] at hused hfree ⊢
        rw [heq]
        refine ⟨⟨hmerge.add hperm, ?_, ?_, ?_, ?_, hmagic, start_congr h.start⟩, rfl⟩
        · simp [hcounter, Heap.listRingDel]
        · simp [htotal, Heap.listRingDel]
          omega
        · simp [hused, Heap.listRingDel]
          omega
        · simp [hfree, Heap.listRingDel]
          omega
    · have hused' : s.isUsed b = true ∨ g.nextPtr ⟨a, n⟩ ≠ b := by
        rw [hmem]
        by_cases hf : (chunk g s.freeSegment ⟨b, m⟩).free = true
        · exact .inr fun hn => hjoin ⟨hf, hn⟩
        · exact .inl (by simpa using hf)
      have hjoin' : ¬ ((chunk g s.freeSegment ⟨b, m⟩).free = true ∧
          (Chunk.mk a (g.stHeader + n) true).stop = (chunk g s.freeSegment ⟨b, m⟩).addr) := by
        rw [hstop]
        exact hjoin
      rw [joinRight, if_neg hjoin', Heap.mergeRight, if_pos hused']
      exact hfail

/-- `_HeapFree` gives a segment in use back. -/
theorem Rep.freeSeg (h : Rep g s (l ++ ⟨a, g.stHeader + n, false⟩ :: r)) :
    ∃ s', s.freeSeg g a = some s' ∧ Rep g s' (release l ⟨a, g.stHeader + n, false⟩ r) ∧
      s'.mem = s.mem := by
  obtain ⟨left, right, hsplit, hseg, hl, hr⟩ := h.seg
  simp only [Heap.freeSeg, hsplit, Option.bind_eq_bind, Option.bind_some, Option.some.injEq,
    exists_eq_left', release]
  rcases h.mergeLeft hsplit with ⟨hmerge, hjoin⟩ |
    ⟨s', left', b, m, l', hmerge, hjoin, hmem, hseg', hrep⟩
  · rw [hmerge, hjoin]
    exact h.mergeRight hseg fun _ => rfl
  · rw [hmerge, hjoin]
    obtain ⟨hright, hmem'⟩ := hrep.mergeRight hseg' (d := n) fun hf => by simp at hf
    exact ⟨hright, hmem'.trans hmem⟩

end SylixOS.Kernel
