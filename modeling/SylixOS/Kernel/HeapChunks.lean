import SylixOS.Kernel.Heap
import SylixOS.Lib.Tiling

/-! # The segments of a heap as ranges

A segment is a range of addresses, its header included, that is free when it is in the free ring. The
list of segments and the ring together stand for a list of such ranges; every edit of the two is an
edit of this list in one place.
-/

namespace SylixOS.Kernel
open Lib

namespace HeapConf
variable {g : HeapConf} {x n : ℕ}

theorem word_pos (g : HeapConf) : 0 < g.stWord := by
  rcases g.word_eq with h | h
  · omega
  · omega

theorem alignment_pos (g : HeapConf) : 0 < g.ulAlignment := by
  obtain ⟨k, hk⟩ := g.align_pow
  rw [hk]
  exact Nat.two_pow_pos k

theorem word_le_alignment (g : HeapConf) : g.stWord ≤ g.ulAlignment :=
  Nat.le_of_dvd g.alignment_pos g.word_dvd

theorem word_le_min (g : HeapConf) : g.stWord ≤ g.stSegMinSize :=
  Nat.le_of_dvd g.min_pos (Nat.dvd_trans g.word_dvd g.align_dvd)

theorem le_roundUp (hn : 0 < n) : x ≤ roundUp x n := by
  have h := Nat.div_add_mod (x + (n - 1)) n
  have hlt := Nat.mod_lt (x + (n - 1)) hn
  rw [roundUp, Nat.mul_comm]
  omega

theorem roundUp_lt (hn : 0 < n) : roundUp x n < x + n := by
  have h := Nat.div_add_mod (x + (n - 1)) n
  rw [roundUp, Nat.mul_comm]
  omega

theorem dvd_roundUp : n ∣ roundUp x n := Nat.dvd_mul_left _ _

theorem dvd_roundDown : n ∣ roundDown x n := Nat.dvd_mul_left _ _

theorem alignment_dvd_header (g : HeapConf) : g.ulAlignment ∣ g.stHeader := dvd_roundUp

/-- The magic is in the header. -/
theorem magic_lt_header (g : HeapConf) : g.stMagicOffset + g.stWord ≤ g.stHeader := by
  have h := le_roundUp (x := 6 * g.stWord) g.alignment_pos
  rw [stMagicOffset, stHeader]
  omega

theorem header_pos (g : HeapConf) : 0 < g.stHeader := by
  have h := g.magic_lt_header
  have hw := g.word_pos
  omega

/-- What lies behind the magic of a header is not longer than the alignment. -/
theorem header_le (g : HeapConf) : g.stHeader ≤ g.stMagicOffset + g.ulAlignment := by
  obtain ⟨a, ha⟩ := g.word_dvd
  obtain ⟨b, hb⟩ := Nat.dvd_trans g.word_dvd g.alignment_dvd_header
  have hlt := roundUp_lt (x := 6 * g.stWord) g.alignment_pos
  have hw := g.word_pos
  rw [← stHeader, ha, hb] at hlt
  rw [stMagicOffset, ha, hb]
  have h : b < 6 + a := by
    by_contra hle
    have hmul := Nat.mul_le_mul_left g.stWord (not_lt.mp hle)
    rw [Nat.mul_add] at hmul
    omega
  have hmul := Nat.mul_le_mul_left g.stWord (Nat.le_of_lt_succ (by omega : b < (5 + a) + 1))
  rw [Nat.mul_add] at hmul
  omega

theorem le_segSize : g.crossbordSize n ≤ g.segSize n := le_roundUp g.min_pos

theorem le_crossbordSize : n ≤ g.crossbordSize n := by
  unfold crossbordSize
  split_ifs <;> omega

theorem alignment_dvd_segSize : g.ulAlignment ∣ g.segSize n := Nat.dvd_trans g.align_dvd dvd_roundUp

/-- There is room for the mark. -/
theorem word_le_segSize (hb : g.bHeapCrossBorderEn = true) : g.stWord ≤ g.segSize n := by
  have h := le_segSize (g := g) (n := n)
  rw [crossbordSize, if_pos hb] at h
  omega

end HeapConf

/-! ## Finding a segment -/

theorem splitSegs_append {left right : List Segment} {s : Segment}
    (h : ∀ u ∈ left, u.addr ≠ s.addr) :
    splitSegs s.addr (left ++ s :: right) = some (left, s, right) := by
  induction left with
  | nil => simp [splitSegs]
  | cons u left ih =>
    have hu := h u (.head _)
    have hl := ih fun v hv => h v (.tail _ hv)
    simp [splitSegs, hu, hl]

theorem splitSegs_some {addr : ℕ} {segments left right : List Segment} {s : Segment}
    (h : splitSegs addr segments = some (left, s, right)) :
    segments = left ++ s :: right ∧ s.addr = addr := by
  induction segments generalizing left with
  | nil => simp [splitSegs] at h
  | cons u segments ih =>
    rw [splitSegs] at h
    split_ifs at h with hu
    · simp only [Option.some.injEq, Prod.mk.injEq] at h
      obtain ⟨rfl, rfl, rfl⟩ := h
      exact ⟨rfl, hu⟩
    · obtain ⟨⟨l, v, r⟩, hv, heq⟩ := Option.map_eq_some_iff.mp h
      simp only [Prod.mk.injEq] at heq
      obtain ⟨rfl, rfl, rfl⟩ := heq
      obtain ⟨rfl, haddr⟩ := ih hv
      exact ⟨rfl, haddr⟩

/-! ## The ranges -/

/-- A segment as a range. -/
def chunk (g : HeapConf) (ring : List ℕ) (s : Segment) : Chunk :=
  ⟨s.addr, g.stHeader + s.stByteSize, decide (s.addr ∈ ring)⟩

/-- The segments and the ring stand for the ranges. -/
structure View (g : HeapConf) (segments : List Segment) (ring : List ℕ) (bs : List Chunk) :
    Prop where
  view : segments.map (chunk g ring) = bs
  nodup : (cover bs).Nodup
  ringNodup : ring.Nodup
  ringMem : ∀ a ∈ ring, ∃ s ∈ segments, s.addr = a

variable {g : HeapConf} {segments left right : List Segment} {ring ring' : List ℕ}
  {bs l r : List Chunk} {x : Chunk} {s s' t : Segment} {a n m : ℕ} {f : Bool}

theorem View.header_le (h : View g segments ring bs) (hx : x ∈ bs) : g.stHeader ≤ x.len := by
  rw [← h.view] at hx
  obtain ⟨s, -, rfl⟩ := List.mem_map.mp hx
  exact Nat.le_add_right _ _

theorem View.pos (h : View g segments ring bs) : ∀ x ∈ bs, 0 < x.len :=
  fun _ hx => g.header_pos.trans_le (h.header_le hx)

theorem View.addrs (h : View g segments ring bs) : (segments.map Segment.addr).Nodup := by
  have hn := addr_nodup h.pos h.nodup
  rw [← h.view, List.map_map] at hn
  exact hn

/-- A range is a segment, which the address finds. -/
theorem View.parts (h : View g segments ring (l ++ x :: r)) :
    ∃ left s right, splitSegs x.addr segments = some (left, s, right) ∧
      segments = left ++ s :: right ∧ left.map (chunk g ring) = l ∧ chunk g ring s = x ∧
        right.map (chunk g ring) = r := by
  obtain ⟨left, rest, rfl, hl, hrest⟩ := List.map_eq_append_iff.mp h.view
  obtain ⟨s, right, rfl, hs, hr⟩ := List.map_eq_cons_iff.mp hrest
  have hn := h.addrs
  rw [List.map_append, List.nodup_append] at hn
  refine ⟨left, s, right, ?_, rfl, hl, hs, hr⟩
  rw [← hs]
  refine splitSegs_append fun u hu heq => ?_
  exact hn.2.2 u.addr (List.mem_map_of_mem hu) s.addr (by simp) heq

theorem map_chunk_congr (h : ∀ s ∈ segments, (s.addr ∈ ring' ↔ s.addr ∈ ring)) :
    segments.map (chunk g ring') = segments.map (chunk g ring) := by
  refine List.map_congr_left fun s hs => ?_
  simp [chunk, h s hs]

/-- The other segments have other addresses. -/
theorem View.addr_ne (h : View g (left ++ s :: right) ring bs) :
    (∀ u ∈ left, u.addr ≠ s.addr) ∧ ∀ u ∈ right, u.addr ≠ s.addr := by
  have hn := h.addrs
  rw [List.map_append, List.map_cons, List.nodup_append, List.nodup_cons] at hn
  refine ⟨fun u hu heq => ?_, fun u hu heq => ?_⟩
  · exact hn.2.2 u.addr (List.mem_map_of_mem hu) s.addr (by simp) heq
  · exact hn.2.1.1 (heq ▸ List.mem_map_of_mem hu)

theorem cover_label (f f' : Bool) : cover (l ++ ⟨a, n, f⟩ :: r) = cover (l ++ ⟨a, n, f'⟩ :: r) := by
  simp [Chunk.cells]

/-- A segment leaves the ring. -/
theorem View.erase (h : View g segments ring (l ++ ⟨a, n, true⟩ :: r)) :
    View g segments (ring.erase a) (l ++ ⟨a, n, false⟩ :: r) := by
  obtain ⟨left, s, right, -, rfl, hl, hs, hr⟩ := h.parts
  obtain ⟨hleft, hright⟩ := h.addr_ne
  simp only [chunk, Chunk.mk.injEq] at hs
  obtain ⟨rfl, hn, -⟩ := hs
  have hmem {u : Segment} (hu : u.addr ≠ s.addr) : u.addr ∈ ring.erase s.addr ↔ u.addr ∈ ring := by
    rw [h.ringNodup.mem_erase_iff]
    simp [hu]
  refine ⟨?_, ?_, h.ringNodup.erase _, fun b hb => h.ringMem b (List.mem_of_mem_erase hb)⟩
  · rw [List.map_append, List.map_cons, map_chunk_congr fun u hu => hmem (hleft u hu),
      map_chunk_congr fun u hu => hmem (hright u hu), hl, hr]
    simp [chunk, hn, h.ringNodup.mem_erase_iff]
  · rw [cover_label false true]
    exact h.nodup

/-- A segment enters the ring. -/
theorem View.add (h : View g segments ring (l ++ ⟨a, n, false⟩ :: r))
    (hring : ring'.Perm (a :: ring)) : View g segments ring' (l ++ ⟨a, n, true⟩ :: r) := by
  obtain ⟨left, s, right, -, rfl, hl, hs, hr⟩ := h.parts
  obtain ⟨hleft, hright⟩ := h.addr_ne
  simp only [chunk, Chunk.mk.injEq, decide_eq_false_iff_not] at hs
  obtain ⟨rfl, hn, hnot⟩ := hs
  have hmem {u : Segment} (hu : u.addr ≠ s.addr) : u.addr ∈ ring' ↔ u.addr ∈ ring := by
    rw [hring.mem_iff]
    simp [hu]
  refine ⟨?_, ?_, ?_, fun b hb => ?_⟩
  · rw [List.map_append, List.map_cons, map_chunk_congr fun u hu => hmem (hleft u hu),
      map_chunk_congr fun u hu => hmem (hright u hu), hl, hr]
    simp [chunk, hn, hring.mem_iff]
  · rw [cover_label true false]
    exact h.nodup
  · rw [hring.nodup_iff]
    exact List.nodup_cons.mpr ⟨hnot, h.ringNodup⟩
  · rcases List.mem_cons.mp (hring.mem_iff.mp hb) with rfl | hb
    · exact ⟨s, by simp, rfl⟩
    · exact h.ringMem b hb

/-- A segment may leave the ring and enter it anew. -/
theorem View.readd (h : View g segments ring (l ++ ⟨a, n, true⟩ :: r))
    (hring : ring' = ring ∨ ring'.Perm (a :: ring.erase a)) :
    View g segments ring' (l ++ ⟨a, n, true⟩ :: r) := by
  rcases hring with rfl | hring
  · exact h
  · exact h.erase.add hring

/-- The segment after another one enters the ring. -/
theorem View.addNext (h : View g segments ring (l ++ x :: ⟨a, n, false⟩ :: r))
    (hring : ring'.Perm (a :: ring)) : View g segments ring' (l ++ x :: ⟨a, n, true⟩ :: r) := by
  rw [List.append_cons] at h ⊢
  exact h.add hring

/-- The segment after another one leaves the ring. -/
theorem View.eraseNext (h : View g segments ring (l ++ x :: ⟨a, n, true⟩ :: r)) :
    View g segments (ring.erase a) (l ++ x :: ⟨a, n, false⟩ :: r) := by
  rw [List.append_cons] at h ⊢
  exact h.erase

/-- A segment is split; the new one is not in the ring. -/
theorem View.split (h : View g segments ring (l ++ ⟨a, g.stHeader + n, f⟩ :: r))
    (hsplit : splitSegs a segments = some (left, s, right)) {k j : ℕ}
    (hn : n = k + (g.stHeader + j)) :
    View g (left ++ ⟨a, k⟩ :: ⟨a + g.stHeader + k, j⟩ :: right) ring
      (l ++ ⟨a, g.stHeader + k, f⟩ :: ⟨a + g.stHeader + k, g.stHeader + j, false⟩ :: r) := by
  obtain ⟨left', s', right', hsplit', hseg, hl, hs, hr⟩ := h.parts
  rw [hsplit, Option.some.injEq, Prod.mk.injEq, Prod.mk.injEq] at hsplit'
  obtain ⟨rfl, rfl, rfl⟩ := hsplit'
  simp only [chunk, Chunk.mk.injEq] at hs
  obtain ⟨rfl, -, hf⟩ := hs
  have hnew : s.addr + g.stHeader + k ∉ ring := by
    intro hmem
    obtain ⟨u, hu, haddr⟩ := h.ringMem _ hmem
    have hux : chunk g ring u ∈ l ++ ⟨s.addr, g.stHeader + n, f⟩ :: r := by
      rw [← h.view]
      exact List.mem_map_of_mem hu
    have hpos := g.header_pos
    have heq := eq_of_mem h.pos h.nodup hux (y := ⟨s.addr, g.stHeader + n, f⟩) (by simp)
      (a := u.addr) ⟨le_rfl, Nat.lt_add_of_pos_right (h.pos _ hux)⟩ (by
        simp only [Chunk.stop]
        omega)
    have haddr' : u.addr = s.addr := congrArg Chunk.addr heq
    omega
  have hcells : (Chunk.mk s.addr (g.stHeader + k) f).cells ++
      (Chunk.mk (s.addr + g.stHeader + k) (g.stHeader + j) false).cells =
        (Chunk.mk s.addr (g.stHeader + n) f).cells := by
    rw [Nat.add_assoc s.addr, Chunk.cells_append (h := f), hn, Nat.add_assoc g.stHeader]
  refine ⟨?_, ?_, h.ringNodup, fun b hb => ?_⟩
  · simp [chunk, ← hl, ← hr, hf, hnew]
  · have hcover := h.nodup
    simp only [cover_append, cover_cons] at hcover ⊢
    rwa [← List.append_assoc (Chunk.cells _), hcells]
  · obtain ⟨u, hu, hb⟩ := h.ringMem b hb
    rw [hseg] at hu
    rcases List.mem_append.mp hu with hu | hu
    · exact ⟨u, by simp [hu], hb⟩
    · rcases List.mem_cons.mp hu with rfl | hu
      · exact ⟨⟨u.addr, k⟩, by simp, hb⟩
      · exact ⟨u, by simp [hu], hb⟩

/-- A segment takes in the next one, which is not in the ring. -/
theorem View.merge {b : ℕ}
    (h : View g (left ++ ⟨a, n⟩ :: ⟨b, m⟩ :: right) ring
      (l ++ ⟨a, g.stHeader + n, f⟩ :: ⟨b, g.stHeader + m, false⟩ :: r))
    (hb : a + g.stHeader + n = b) :
    View g (left ++ ⟨a, n + (m + g.stHeader)⟩ :: right) ring
      (l ++ ⟨a, g.stHeader + (n + (m + g.stHeader)), f⟩ :: r) := by
  obtain ⟨left', s', right', hsplit', hseg, hl, hs, hr⟩ := h.parts
  have hsplit : splitSegs a (left ++ ⟨a, n⟩ :: ⟨b, m⟩ :: right) =
      some (left, ⟨a, n⟩, ⟨b, m⟩ :: right) := splitSegs_append h.addr_ne.1
  rw [hsplit, Option.some.injEq, Prod.mk.injEq, Prod.mk.injEq] at hsplit'
  obtain ⟨rfl, rfl, rfl⟩ := hsplit'
  simp only [chunk, Chunk.mk.injEq, true_and] at hs
  simp only [List.map_cons, List.cons.injEq, chunk, Chunk.mk.injEq, true_and,
    decide_eq_false_iff_not] at hr
  obtain ⟨hnot, hr⟩ := hr
  have hcells : (Chunk.mk a (g.stHeader + n) f).cells ++ (Chunk.mk b (g.stHeader + m) false).cells =
      (Chunk.mk a (g.stHeader + (n + (m + g.stHeader))) f).cells := by
    have hlen : g.stHeader + (n + (m + g.stHeader)) = g.stHeader + n + (g.stHeader + m) := by omega
    rw [← hb, Nat.add_assoc a, Chunk.cells_append (h := f), hlen]
  refine ⟨?_, ?_, h.ringNodup, fun c hc => ?_⟩
  · simp only [List.map_append, List.map_cons, hl, chunk, hs]
    rw [← hr]
  · have hcover := h.nodup
    simp only [cover_append, cover_cons] at hcover ⊢
    rwa [← List.append_assoc (Chunk.cells _), hcells] at hcover
  · obtain ⟨u, hu, huc⟩ := h.ringMem c hc
    rcases List.mem_append.mp hu with hu | hu
    · exact ⟨u, by simp [hu], huc⟩
    · rcases List.mem_cons.mp hu with rfl | hu
      · exact ⟨⟨a, n + (m + g.stHeader)⟩, by simp, huc⟩
      · rcases List.mem_cons.mp hu with rfl | hu
        · rw [← huc] at hc
          exact absurd hc hnot
        · exact ⟨u, by simp [hu], huc⟩

/-- A new segment that is not in the ring. -/
theorem View.append {b : ℕ} (h : View g segments ring bs)
    (hnew : ∀ c ∈ cover bs, ¬ (b ≤ c ∧ c < b + (g.stHeader + m))) :
    View g (segments ++ [⟨b, m⟩]) ring (bs ++ [⟨b, g.stHeader + m, false⟩]) := by
  have hnot : b ∉ ring := by
    intro hmem
    obtain ⟨u, hu, rfl⟩ := h.ringMem b hmem
    have hux : chunk g ring u ∈ bs := by
      rw [← h.view]
      exact List.mem_map_of_mem hu
    have hpos := g.header_pos
    refine hnew u.addr (mem_cover.mpr ⟨_, hux, le_rfl, ?_⟩) ⟨le_rfl, by omega⟩
    exact Nat.lt_add_of_pos_right (h.pos _ hux)
  refine ⟨?_, ?_, h.ringNodup, fun c hc => ?_⟩
  · simp [chunk, ← h.view, hnot]
  · rw [cover_append, List.nodup_append]
    refine ⟨h.nodup, ?_, fun c hc d hd hcd => ?_⟩
    · simpa [Chunk.cells] using List.nodup_range'
    · subst hcd
      simp only [cover_cons, cover_nil, List.append_nil, Chunk.mem_cells, Chunk.stop] at hd
      exact hnew c hc hd
  · obtain ⟨u, hu, huc⟩ := h.ringMem c hc
    exact ⟨u, by simp [hu], huc⟩

end SylixOS.Kernel
