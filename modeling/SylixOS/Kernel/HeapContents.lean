import SylixOS.Kernel.HeapExtend
import SylixOS.Kernel.HeapSize

/-! # The contents of blocks

`_HeapRealloc` once more, with the size that is asked for in the machine's arithmetic: what it does in
place stays in the memory of the heap, where no sum wraps. The bytes of a block that is resized, as
many as it has before and after, and those of all others are as they were.
-/

namespace SylixOS.Kernel
open Lib

namespace Heap
variable (g : HeapConf) (h : Heap)

/-- `_HeapRealloc` moves a block to a new segment: the pointer, 0 for `LW_NULL`. -/
def moveBlockM (s : Segment) (stSize : ℕ) : Option (Heap × ℕ) := do
  let (h, pvStartAddress) ← h.heapAllocateM g stSize
  if pvStartAddress = 0 then some (h.updataMaxUsed, 0)
  else
    let h := h.memcpy g pvStartAddress (g.dataPtr s) (s.stByteSize % 2 ^ 32)
    let (h, _) ← h.heapFree g (some (g.dataPtr s)) false
    some (h.updataMaxUsed, pvStartAddress)

/-- `_HeapRealloc` from the segment on. -/
def reallocSegM (psegment pvStartAddress stNewByteSize : ℕ) : Option (Heap × ℕ) := do
  let stSize := g.segSizeM stNewByteSize
  let (_, s, _) ← splitSegs psegment h.segments
  if pvStartAddress ≠ g.dataPtr s then some (h, 0)
  else if stSize = s.stByteSize then some (h, pvStartAddress)
  else if s.stByteSize < stSize then
    match ← h.growRight g psegment stSize with
    | none => h.moveBlockM g s stSize
    | some h => (h.splitSegment g psegment stSize).map fun h => (h, pvStartAddress)
  else (h.splitSegment g psegment stSize).map fun h => (h, pvStartAddress)

/-- `_HeapRealloc`. -/
def heapReallocM (pvStartAddress stNewByteSize : ℕ) (bIsNeedVerify : Bool) : Option (Heap × ℕ) :=
  if stNewByteSize = 0 then
    if pvStartAddress = 0 then some (h, 0)
    else (h.heapFree g (some pvStartAddress) bIsNeedVerify).map fun (h, o) => (h, o.getD 0)
  else if pvStartAddress = 0 then h.heapAllocateM g stNewByteSize
  else
    match h.segOf g pvStartAddress bIsNeedVerify with
    | none => some (h, 0)
    | some psegment => h.reallocSegM g psegment pvStartAddress stNewByteSize

end Heap

/-- The byte at an address, of the aligned word that has it. -/
def byteAt (g : HeapConf) (mem : ℕ → ℕ) (c : ℕ) : ℕ :=
  mem (roundDown c g.stWord) / 256 ^ (c % g.stWord) % 256

/-- A block has been taken away, and others come in its place: the heap is in order, and the bytes of
all other blocks are as they were. -/
structure HeapSys.Kept (g : HeapConf) (s : HeapSys) (e : Block) (h' : Heap) (new : List Block) :
    Prop where
  inv : ∃ bs', Inv g { s with heap := h', live := new ++ dropSeg (some e.seg) s.live } bs' ∧
    InSpace g h' bs'
  others : ∀ b ∈ s.live, b ≠ e → ∀ i < b.size,
    byteAt g h'.mem (b.ptr + i) = byteAt g s.heap.mem (b.ptr + i)

/-- The words of the segments in use, apart from the one at an address, are as they were. -/
def KeepsWords (bs : List Chunk) (a : ℕ) (s s' : Heap) : Prop :=
  ∀ x ∈ bs, x.free = false → x.addr ≠ a → ∀ c, x.addr ≤ c → c < x.stop → s'.mem c = s.mem c

variable {g : HeapConf} {s s' : Heap} {bs bs' l r : List Chunk} {x y : Chunk} {u : Segment}
  {o : Option ℕ} {a b c i k lo hi m n p : ℕ}

/-! ## Nothing wraps -/

theorem HeapConf.Fits.of_segSize (h : g.Fits (g.segSize n)) : g.Fits n := by
  have hseg := HeapConf.le_segSize (g := g) (n := n)
  have hcross := HeapConf.le_crossbordSize (g := g) (n := g.segSize n)
  unfold HeapConf.Fits at h ⊢
  omega

theorem InSpace.moveBlockM (h : InSpace g s bs) (hfit : g.Fits n) :
    s.moveBlockM g u n = (s.moveBlock g u n).map fun (s', o) => (s', o.getD 0) := by
  obtain ⟨s₁, o, halloc, hcase⟩ := h.heapAllocate (n := n)
  unfold Heap.moveBlockM Heap.moveBlock
  rw [h.heapAllocateM hfit, halloc]
  rcases hcase with ⟨rfl, -⟩ | ⟨b, m, bs₁, rfl, -⟩
  · rfl
  · have hpos : b + g.stHeader ≠ 0 := (Nat.add_pos_right _ g.header_pos).ne'
    simp only [Option.map_some, Option.getD_some, Option.bind_eq_bind, Option.bind_some, if_neg hpos]
    cases (s₁.memcpy g (b + g.stHeader) (g.dataPtr u) (u.stByteSize % 2 ^ 32)).heapFree g
      (some (g.dataPtr u)) false <;> rfl

theorem InSpace.reallocSegM (h : InSpace g s bs) (hfit : g.Fits (g.segSize n)) :
    s.reallocSegM g a p n = (s.reallocSeg g a p n).map fun (s', o) => (s', o.getD 0) := by
  unfold Heap.reallocSegM Heap.reallocSeg
  rw [HeapConf.segSizeM_eq hfit.of_segSize]
  cases splitSegs a s.segments with
  | none => rfl
  | some q =>
    obtain ⟨left, u, right⟩ := q
    simp only [Option.bind_eq_bind, Option.bind_some]
    split_ifs
    · rfl
    · rfl
    · cases s.growRight g a (g.segSize n) with
      | none => rfl
      | some o =>
        cases o with
        | none => exact h.moveBlockM hfit
        | some s₁ =>
          simp only [Option.bind_some]
          cases s₁.splitSegment g a (g.segSize n) <;> rfl
    · cases s.splitSegment g a (g.segSize n) <;> rfl

/-- The segments of a heap keep to the addresses that it has been given. -/
theorem InSpace.of_inv {t t' : HeapSys} (h : InSpace g t.heap bs) (ht : HeapSys.Inv g t bs)
    (ht' : HeapSys.Inv g t' bs') (hregions : t'.regions = t.regions) : InSpace g t'.heap bs' := by
  have hcover : Lib.cover bs' = Lib.cover bs := by rw [ht'.cover, ht.cover, hregions]
  have hmem (x : Chunk) (hx : x ∈ bs') (c : ℕ) (hlo : x.addr ≤ c) (hhi : c < x.stop) :
      0 < c ∧ c + 1 < g.sizeMod := by
    have hc : c ∈ Lib.cover bs := hcover ▸ mem_cover.mpr ⟨x, hx, hlo, hhi⟩
    obtain ⟨y, hy, hylo, hyhi⟩ := mem_cover.mp hc
    have hpos := h.ne_null y hy
    have hstop := h.stop_lt y hy
    omega
  refine ⟨ht'.rep, fun x hx => (ht'.aligned x hx).1, fun x hx => ?_, fun x hx => ?_⟩
  · have hlen := ht'.rep.pos x hx
    exact (hmem x hx x.addr le_rfl (by rw [Chunk.stop]; omega)).1
  · have hlen := ht'.rep.pos x hx
    have hlast := (hmem x hx (x.stop - 1) (by rw [Chunk.stop]; omega)
      (by rw [Chunk.stop]; omega)).2
    rw [Chunk.stop] at hlast ⊢
    omega

/-! ## The words of the segments -/

/-- What is written to the data of a segment is in no other one. -/
theorem Rep.word_eq (h : Rep g s bs) (hx : x ∈ bs) (hy : y ∈ bs) (hne : y ≠ x)
    (hmem : MemOff s s' lo hi) (hlo : x.addr ≤ lo) (hhi : hi ≤ x.stop) (hc : y.addr ≤ c)
    (hc' : c < y.stop) : s'.mem c = s.mem c := by
  have hapart := apart_of_mem h.pos h.nodup hy hx hne
  simp only [Chunk.Apart] at hapart
  exact hmem c (by omega)

/-- Allocation writes to no segment in use. -/
theorem Taken.word_eq (ht : Taken g bs bs' s s' n b m p) (h : Rep g s bs) (hy : y ∈ bs)
    (hf : y.free = false) (hc : y.addr ≤ c) (hc' : c < y.stop) : s'.mem c = s.mem c := by
  obtain ⟨x, hx, hfx, -, hmem⟩ := ht.source
  have hne : y ≠ x := by
    rintro rfl
    rw [hfx] at hf
    cases hf
  exact h.word_eq hx hy hne hmem (Nat.le_add_right _ _) le_rfl hc hc'

theorem HeapConf.add_word_le (hb : g.bHeapCrossBorderEn = true) : n + g.stWord ≤ g.segSize n := by
  have hle := HeapConf.le_segSize (g := g) (n := n)
  rwa [HeapConf.crossbordSize, if_pos hb] at hle

/-- A segment is cut behind the bytes that are asked for. -/
theorem Rep.splitSegment_words (h : Rep g s (l ++ ⟨a, g.stHeader + k, false⟩ :: r))
    (hle : g.segSize n ≤ k) (hcall : s.splitSegment g a (g.segSize n) = some s') :
    KeepsWords (l ++ ⟨a, g.stHeader + k, false⟩ :: r) a s s' ∧
      ∀ c < n, s'.mem (a + g.stHeader + c) = s.mem (a + g.stHeader + c) := by
  have hn : n ≤ g.segSize n := HeapConf.le_crossbordSize.trans HeapConf.le_segSize
  obtain ⟨s₁, bs', hsplit, -, hmem, -⟩ := h.splitSegment hle hn HeapConf.add_word_le
  rw [hcall, Option.some.injEq] at hsplit
  subst hsplit
  have ha : ⟨a, g.stHeader + k, false⟩ ∈ l ++ ⟨a, g.stHeader + k, false⟩ :: r := by simp
  refine ⟨fun y hy _ hya c hc hc' => ?_, fun c hc => hmem _ (.inl (by omega))⟩
  refine h.word_eq ha hy (fun heq => hya (heq ▸ rfl)) hmem ?_ ?_ hc hc'
  · simp only
    omega
  · simp only [Chunk.stop]
    omega

/-- A block is copied to where it is moved. -/
theorem Rep.moveBlock_words (h : Rep g s bs) (ha : ⟨a, g.stHeader + k, false⟩ ∈ bs) (hlt : k < n)
    (hcall : s.moveBlock g ⟨a, k⟩ n = some (s', o)) :
    o = none ∧ s' = s.updataMaxUsed ∨ ∃ p, o = some p ∧ p ≠ 0 ∧ p ≠ a + g.stHeader ∧
      KeepsWords bs a s s' ∧ (k < 2 ^ 32 → ∀ c, c + g.stWord ≤ k →
        s'.mem (p + c) = s.mem (a + g.stHeader + c)) := by
  obtain ⟨s₁, o₁, hmove, hcase⟩ := h.moveBlock ha hlt
  rw [hcall, Option.some.injEq, Prod.mk.injEq] at hmove
  obtain ⟨rfl, rfl⟩ := hmove
  refine hcase.imp_right ?_
  rintro ⟨b, m, bs₁, s₁, l₁, r₁, rfl, ht, hrep₁, rfl, -, hmem⟩
  have hsize := ht.hi
  have hnew : a ≠ b := ht.new_ne h ha rfl
  refine ⟨_, rfl, (Nat.add_pos_right _ g.header_pos).ne', by omega, fun y hy hf hya c hc hc' => ?_,
    fun hk c hck => ?_⟩
  · have hne : y ≠ ⟨b, g.stHeader + m, false⟩ := fun heq => ht.new_ne h hy hf (heq ▸ rfl)
    have hoff : MemOff s₁ s' (b + g.stHeader) (b + g.stHeader + k) := fun c hc =>
      (congrFun hmem c).trans (memOff_memcpy (Nat.mod_le k _) c hc)
    rw [← ht.word_eq h hy hf hc hc']
    refine hrep₁.word_eq ht.mem_new (ht.mem_used hy hf) hne hoff (Nat.le_add_right _ _) ?_ hc hc'
    simp only [Chunk.stop]
    omega
  · have hword := g.word_pos
    have hcopy : (s₁.memcpy g (b + g.stHeader) (a + g.stHeader) k).mem (b + g.stHeader + c) =
        s₁.mem (b + g.stHeader + c - (b + g.stHeader) + (a + g.stHeader)) := if_pos (by omega)
    rw [hmem, Nat.mod_eq_of_lt hk, hcopy, Nat.add_sub_cancel_left, Nat.add_comm c]
    refine ht.word_eq h ha rfl ?_ ?_
    · simp only
      omega
    · simp only [Chunk.stop]
      omega

/-- What the segment of a block in use has, as much as there is before and after, is where its pointer
leads after the call. -/
theorem Rep.reallocSeg_words (h : Rep g s bs) (ha : ⟨a, g.stHeader + k, false⟩ ∈ bs)
    (hcall : s.reallocSeg g a (a + g.stHeader) n = some (s', o)) :
    o = none ∧ s' = s.updataMaxUsed ∨ ∃ p, o = some p ∧ p ≠ 0 ∧ KeepsWords bs a s s' ∧
      (p = a + g.stHeader ∨ k < 2 ^ 32 → ∀ c < n, c + g.stWord ≤ k →
        s'.mem (p + c) = s.mem (a + g.stHeader + c)) := by
  obtain ⟨l, r, rfl⟩ := List.append_of_mem ha
  obtain ⟨left, right, hsplit, -, -, -⟩ := h.seg
  have hpos : a + g.stHeader ≠ 0 := (Nat.add_pos_right _ g.header_pos).ne'
  unfold Heap.reallocSeg at hcall
  simp only [hsplit, Option.bind_eq_bind, Option.bind_some] at hcall
  split_ifs at hcall with hp heq hlt
  · exact absurd rfl hp
  · cases hcall
    exact .inr ⟨_, rfl, hpos, fun _ _ _ _ _ _ _ => rfl, fun _ _ _ _ => rfl⟩
  · obtain ⟨o₁, hgrow, hcase⟩ := h.growRight hlt
    rw [hgrow, Option.bind_some] at hcall
    rcases hcase with rfl | ⟨s₁, m, r', rfl, rfl, hm, hrep, hmem⟩
    · refine (h.moveBlock_words ha hlt hcall).imp_right ?_
      rintro ⟨p, rfl, hp, hpa, hkeep, hcopy⟩
      exact ⟨p, rfl, hp, hkeep, fun hcond c _ hck => hcopy (hcond.resolve_left hpa) c hck⟩
    · obtain ⟨s₂, hcut, heq⟩ := Option.map_eq_some_iff.mp hcall
      cases heq
      obtain ⟨hkeep, hwords⟩ := hrep.splitSegment_words hm hcut
      refine .inr ⟨_, rfl, hpos, fun y hy hf hya c hc hc' => ?_, fun _ c hc _ => ?_⟩
      · rw [← hmem]
        refine hkeep y ?_ hf hya c hc hc'
        simp only [List.mem_append, List.mem_cons] at hy ⊢
        rcases hy with hy | rfl | rfl | hy
        · exact .inl hy
        · exact absurd rfl hya
        · cases hf
        · exact .inr (.inr hy)
      · rw [hwords c hc, hmem]
  · obtain ⟨s₂, hcut, heq⟩ := Option.map_eq_some_iff.mp hcall
    cases heq
    obtain ⟨hkeep, hwords⟩ := h.splitSegment_words (not_lt.mp hlt) hcut
    exact .inr ⟨_, rfl, hpos, hkeep, fun _ c hc _ => hwords c hc⟩

/-! ## Bytes -/

theorem byteAt_add {mem : ℕ → ℕ} (hp : g.stWord ∣ p) : byteAt g mem (p + i) =
    mem (p + roundDown i g.stWord) / 256 ^ (i % g.stWord) % 256 := by
  obtain ⟨q, rfl⟩ := hp
  rw [byteAt, roundDown, roundDown, Nat.mul_add_div g.word_pos, Nat.mul_add_mod, Nat.add_mul,
    Nat.mul_comm q]

theorem roundDown_le : roundDown i n ≤ i := Nat.div_mul_le_self i n

theorem le_roundDown (hn : n ∣ a) (h : a ≤ i) : a ≤ roundDown i n := by
  obtain ⟨q, rfl⟩ := hn
  rcases Nat.eq_zero_or_pos n with rfl | hn
  · simp
  · rw [roundDown, Nat.mul_comm n]
    refine Nat.mul_le_mul_right n ((Nat.le_div_iff_mul_le hn).mpr ?_)
    rwa [Nat.mul_comm]

/-- The word of a byte of a segment is in it. -/
theorem roundDown_add_le (hn : n ∣ k) (h : i < k) : roundDown i n + n ≤ k := by
  obtain ⟨q, rfl⟩ := hn
  rw [Nat.mul_comm] at h ⊢
  rw [roundDown, ← Nat.succ_mul]
  exact Nat.mul_le_mul_right n (Nat.div_lt_of_lt_mul (by rwa [Nat.mul_comm]))

namespace HeapSys
variable {t : HeapSys} {e : Block} {h' : Heap}

/-- The words of other blocks are in their segments. -/
theorem Inv.others (h : Inv g t bs) (he : e ∈ t.live) (hkeep : KeepsWords bs e.seg t.heap h') :
    ∀ b ∈ t.live, b ≠ e → ∀ i < b.size,
      byteAt g h'.mem (b.ptr + i) = byteAt g t.heap.mem (b.ptr + i) := by
  intro b hb hne i hi
  obtain ⟨n, hn, hlo, hhi, -⟩ := h.live b hb
  have hseg : b.seg ≠ e.seg := fun heq => hne (List.inj_on_of_nodup_map h.nodup hb he heq)
  have haddr : g.stWord ∣ b.seg := Nat.dvd_trans g.word_dvd (h.aligned _ hn).1
  have hword := le_roundDown (i := b.ptr + i) haddr (by omega)
  have hle := roundDown_le (i := b.ptr + i) (n := g.stWord)
  rw [byteAt, byteAt, hkeep _ hn rfl hseg _ hword (by simp only [Chunk.stop]; omega)]

/-- A pointer is rejected, or it leads to its segment. -/
theorem Inv.segOf_cases (h : Inv g t bs) (he : e ∈ t.live) (v : Bool) :
    t.heap.segOf g e.ptr v = none ∨ t.heap.segOf g e.ptr v = some e.seg := by
  obtain ⟨hno, hcheck⟩ := h.segOf_block he
  cases v with
  | false => exact .inr hno
  | true =>
    by_cases hin : t.heap.pvStartAddress ≤ e.ptr ∧
        e.ptr < t.heap.pvStartAddress + t.heap.stTotalByteSize
    · exact .inr (hcheck.mpr hin)
    · refine .inl ?_
      rw [Heap.segOf, if_pos rfl, Heap.heapVerify, if_pos (by omega)]

theorem Inv.ptr_pos (h : Inv g t bs) (he : e ∈ t.live) : e.ptr ≠ 0 := by
  obtain ⟨n, -, hlo, -⟩ := h.live e he
  have hpos := g.header_pos
  omega

/-- A block of a new size of 0 is given back. -/
theorem Inv.realloc_zero (h : Inv g t bs) (hspace : InSpace g t.heap bs) (he : e ∈ t.live)
    (v : Bool) : ∃ h' p, t.heap.heapReallocM g e.ptr 0 v = some (h', p) ∧
      (p = e.ptr ∧ h' = t.heap ∨ p = 0 ∧ Kept g t e h' []) := by
  unfold Heap.heapReallocM
  rw [if_pos rfl, if_neg (h.ptr_pos he)]
  rcases h.segOf_cases he v with hseg | hseg
  · refine ⟨t.heap, e.ptr, ?_, .inl ⟨rfl, rfl⟩⟩
    simp only [Heap.heapFree, hseg, Option.map_some, Option.getD_some]
  · obtain ⟨h', q, bs', hfree, hinv⟩ := h.heapFree (o := some e.ptr) (v := v)
      fun _ p hp => ⟨e, he, Option.some.inj hp⟩
    obtain ⟨n, hn, -⟩ := h.live e he
    obtain ⟨l, r, rfl⟩ := List.append_of_mem hn
    obtain ⟨h₁, hfree₁, -, hmem⟩ := h.rep.heapFree hseg
    obtain ⟨rfl, rfl⟩ := Prod.mk.inj (Option.some.inj (hfree.symm.trans hfree₁))
    rw [HeapSys.segOf, Option.bind_some, hseg] at hinv
    refine ⟨h', 0, by rw [hfree]; rfl, .inr ⟨rfl, ⟨bs', hinv, hspace.of_inv h hinv rfl⟩, ?_⟩⟩
    exact h.others he fun _ _ _ _ c _ _ => congrFun hmem c

/-- A block changes its size, or it and the heap stay as they are. -/
theorem Inv.realloc_keeps (h : Inv g t bs) (hspace : InSpace g t.heap bs) (he : e ∈ t.live)
    (v : Bool) (hn : 0 < n) (hfit : g.Fits (g.segSize n)) :
    ∃ h' p, t.heap.heapReallocM g e.ptr n v = some (h', p) ∧
      (p = 0 ∧ h' = { t.heap with stMaxUsedByteSize := h'.stMaxUsedByteSize } ∨
        p ≠ 0 ∧ Kept g t e h' [⟨p - g.stHeader, p, n⟩] ∧
          (p = e.ptr ∨ (∀ u ∈ t.heap.segments, u.addr = e.seg → u.stByteSize < 2 ^ 32) →
            ∀ i < min e.size n, byteAt g h'.mem (p + i) = byteAt g t.heap.mem (e.ptr + i))) := by
  unfold Heap.heapReallocM
  rw [if_neg hn.ne', if_neg (h.ptr_pos he)]
  rcases h.segOf_cases he v with hseg | hseg
  · exact ⟨t.heap, 0, by rw [hseg], .inl ⟨rfl, rfl⟩⟩
  rw [hseg]
  dsimp only
  rw [hspace.reallocSegM hfit]
  obtain ⟨k, hk, hlo, hhi, -⟩ := h.live e he
  obtain ⟨l, r, rfl⟩ := List.append_of_mem hk
  obtain ⟨h', o, bs', hcall, hinv⟩ := h.reallocSeg (p := e.ptr) n
  obtain ⟨left, right, hsplit, hsegs, -, -⟩ := h.rep.seg
  rw [hcall]
  by_cases hp : e.ptr = e.seg + g.stHeader
  · rw [hp] at hcall
    rcases h.rep.reallocSeg_words hk hcall with ⟨rfl, rfl⟩ | ⟨p, rfl, hp0, hkeep, hwords⟩
    · refine ⟨_, 0, rfl, .inl ⟨rfl, ?_⟩⟩
      unfold Heap.updataMaxUsed
      split_ifs <;> rfl
    · refine ⟨h', p, rfl, .inr ⟨hp0, ⟨⟨bs', hinv, hspace.of_inv h hinv rfl⟩, h.others he hkeep⟩,
        fun hcond i hi => ?_⟩⟩
      obtain ⟨m, hm, hplo, -, -⟩ := hinv.live ⟨p - g.stHeader, p, n⟩ (.head _)
      have hword := Nat.dvd_trans g.word_dvd g.alignment_dvd_header
      have hnew : g.stWord ∣ p := by
        have hdvd := Nat.dvd_add (Nat.dvd_trans g.word_dvd (hinv.aligned _ hm).1) hword
        rwa [Nat.sub_add_cancel ((Nat.le_add_left _ _).trans hplo)] at hdvd
      have hold : g.stWord ∣ e.ptr := by
        rw [hp]
        exact Nat.dvd_add (Nat.dvd_trans g.word_dvd (h.aligned _ hk).1) hword
      have hlen : g.stWord ∣ k :=
        (Nat.dvd_add_right hword).mp (Nat.dvd_trans g.word_dvd (h.aligned _ hk).2)
      have hle := roundDown_le (i := i) (n := g.stWord)
      rw [byteAt_add hnew, byteAt_add hold, hp]
      rw [hwords (hcond.imp (·.trans hp) fun hsmall => hsmall ⟨e.seg, k⟩ (by simp [hsegs]) rfl) _
        (by omega) (roundDown_add_le hlen (by omega))]
  · have hreject : t.heap.reallocSeg g e.seg e.ptr n = some (t.heap, none) := by
      unfold Heap.reallocSeg
      simp only [hsplit, Option.bind_eq_bind, Option.bind_some]
      exact if_pos hp
    rw [hcall, Option.some.injEq, Prod.mk.injEq] at hreject
    obtain ⟨rfl, rfl⟩ := hreject
    exact ⟨t.heap, 0, rfl, .inl ⟨rfl, rfl⟩⟩

/-- `_HeapRealloc` of a block gives it back for a size of 0. For any other size it leaves the heap as
it is, or gives a block with the bytes of the old one, as many as both have, and keeps all others. -/
theorem heapRealloc_contents (h : Inv g t bs) (hspace : InSpace g t.heap bs) (he : e ∈ t.live)
    (v : Bool) :
    (∃ h' p, t.heap.heapReallocM g e.ptr 0 v = some (h', p) ∧
      (p = e.ptr ∧ h' = t.heap ∨ p = 0 ∧ Kept g t e h' [])) ∧
    ∀ n, 0 < n → g.Fits (g.segSize n) → ∃ h' p, t.heap.heapReallocM g e.ptr n v = some (h', p) ∧
      (p = 0 ∧ h' = { t.heap with stMaxUsedByteSize := h'.stMaxUsedByteSize } ∨
        p ≠ 0 ∧ Kept g t e h' [⟨p - g.stHeader, p, n⟩] ∧
          (p = e.ptr ∨ (∀ u ∈ t.heap.segments, u.addr = e.seg → u.stByteSize < 2 ^ 32) →
            ∀ i < min e.size n, byteAt g h'.mem (p + i) = byteAt g t.heap.mem (e.ptr + i))) :=
  ⟨h.realloc_zero hspace he v, fun _ hn hfit => h.realloc_keeps hspace he v hn hfit⟩

/-- A page with one block. -/
theorem onePage_block : ∃ t bs, onePage.step heap64 (.alloc 100) = some t ∧ Inv heap64 t bs ∧
    InSpace heap64 t.heap bs := by
  obtain ⟨bs, hinv⟩ := onePage_init.inv
  have hbs : [⟨4096, 4096, true⟩] = bs := hinv.rep.view
  have hok : onePage.StepOk heap64 (.alloc 100) := trivial
  obtain ⟨t, bs', hstep, hinv'⟩ := hinv.step hok
  have hstep' : onePage.step heap64 (.alloc 100) = some _ := rfl
  rw [hstep, Option.some.injEq] at hstep'
  have hregions : t.regions = onePage.regions := by rw [hstep']
  exact ⟨t, bs', hstep, hinv', (hbs ▸ onePage_inSpace).of_inv hinv hinv' hregions⟩

theorem heapRealloc_contents_onePage : ∃ t h' p, onePage.step heap64 (.alloc 100) = some t ∧
    t.heap.heapReallocM heap64 4144 200 true = some (h', p) ∧ p ≠ 0 ∧
      Kept heap64 t ⟨4096, 4144, 100⟩ h' [⟨p - heap64.stHeader, p, 200⟩] ∧
        ∀ i < 100, byteAt heap64 h'.mem (p + i) = byteAt heap64 t.heap.mem (4144 + i) := by
  obtain ⟨t, bs, hstep, hinv, hspace⟩ := onePage_block
  have hstep' : onePage.step heap64 (.alloc 100) = some _ := rfl
  obtain rfl := Option.some.inj (hstep'.symm.trans hstep)
  have hfit : heap64.Fits (heap64.segSize 200) := by
    rw [HeapConf.Fits]
    decide
  obtain ⟨h', p, hcall, hcase⟩ := (heapRealloc_contents (e := ⟨4096, 4144, 100⟩) hinv hspace
    (.head _) true).2 200 (by decide) hfit
  refine ⟨_, h', p, hstep, hcall, ?_⟩
  have hsome : some 4144 = some p := congrArg (Option.map Prod.snd) hcall
  obtain rfl := Option.some.inj hsome
  obtain ⟨hp, hkept, hbytes⟩ := hcase.resolve_left fun h => absurd h.1 (by decide)
  exact ⟨hp, hkept, hbytes (.inl rfl)⟩

/-- A new size of 0 returns `LW_NULL`, as a call that fails does, and the block is gone. A size that
wraps makes a block of 100 bytes one of 16. -/
theorem heapRealloc_zero : ∃ t bs, Inv heap64 t bs ∧ InSpace heap64 t.heap bs ∧
    t.live = [⟨4096, 4144, 100⟩] ∧ t.heap.segments = [⟨4096, 112⟩, ⟨4256, 3888⟩] ∧
      (∃ h', t.heap.heapReallocM heap64 4144 0 false = some (h', 0) ∧
        h'.segments = [⟨4096, 4048⟩]) ∧
      ∃ h', t.heap.heapReallocM heap64 4144 (2 ^ 64 - 1) false = some (h', 4144) ∧
        h'.segments = [⟨4096, 16⟩, ⟨4160, 3984⟩] := by
  obtain ⟨t, bs, hstep, hinv, hspace⟩ := onePage_block
  have hstep' : onePage.step heap64 (.alloc 100) = some _ := rfl
  obtain rfl := Option.some.inj (hstep'.symm.trans hstep)
  exact ⟨_, bs, hinv, hspace, rfl, rfl, ⟨_, rfl, rfl⟩, _, rfl, rfl⟩

end HeapSys

end SylixOS.Kernel
