import SylixOS.Kernel.HeapSystem

/-! # The heap keeps its memory in order

After any calls the segments tile the memory that the heap has been given, the free ring has the
segments without a block, and blocks lie apart. Memory that is added is never joined with what it
touches, until a segment next to it is freed.
-/

namespace SylixOS.Kernel.HeapSys
open Lib

/-- The addresses of a segment, its header included. -/
def addrs (g : HeapConf) (u : Segment) : List ℕ := List.range' u.addr (g.stHeader + u.stByteSize)

def regionAddrs (q : Region) : List ℕ := List.range' q.addr q.stSize

/-- What the segments, the free ring and the counters of a heap are for. -/
structure HeapSafe (g : HeapConf) (s : HeapSys) : Prop where
  /-- The segments have the addresses of the regions, in their order, and no address twice. -/
  tiles : s.heap.segments.flatMap (addrs g) = s.regions.flatMap regionAddrs
  nodup : (s.heap.segments.flatMap (addrs g)).Nodup
  /-- A region that touches no other one is tiled by segments of its own. -/
  region : ∀ left q right, s.regions = left ++ q :: right →
    (∀ q' ∈ s.regions, q'.addr + q'.stSize ≠ q.addr ∧ q.addr + q.stSize ≠ q'.addr) →
      ∃ l segments r, s.heap.segments = l ++ segments ++ r ∧
        segments.flatMap (addrs g) = regionAddrs q
  ringNodup : s.heap.freeSegment.Nodup
  /-- The ring has the segments without a block. -/
  ring : ∀ a, a ∈ s.heap.freeSegment ↔
    ∃ u ∈ s.heap.segments, u.addr = a ∧ ∀ b ∈ s.live, b.seg ≠ a
  /-- Two free segments touch only where a region starts. -/
  coalesced : ∀ u ∈ s.heap.segments, ∀ v ∈ s.heap.segments, u.addr ∈ s.heap.freeSegment →
    v.addr ∈ s.heap.freeSegment → g.nextPtr u = v.addr → s.Starts v.addr
  counter : s.heap.ulSegmentCounter = s.heap.segments.length
  total : s.heap.stFreeByteSize + s.heap.stUsedByteSize = s.heap.stTotalByteSize
  totalRegions : s.heap.stTotalByteSize = (s.regions.map Region.stSize).sum
  /-- Blocks lie apart, each in the data of its segment. -/
  apart : s.live.Pairwise fun b c => b.ptr + b.size ≤ c.ptr ∨ c.ptr + c.size ≤ b.ptr
  inside : ∀ b ∈ s.live, ∃ u ∈ s.heap.segments, u.addr = b.seg ∧ g.dataPtr u ≤ b.ptr ∧
    b.ptr + b.size ≤ g.nextPtr u
  /-- No call follows a wild pointer. -/
  runs : ∀ op, s.StepOk g op → (s.step g op).isSome

variable {g : HeapConf} {s : HeapSys} {bs : List Chunk} {u : Segment} {a : ℕ}

/-! ## Segments and ranges -/

theorem cover_map_chunk {ring : List ℕ} {segments : List Segment} :
    Lib.cover (segments.map (chunk g ring)) = segments.flatMap (addrs g) := by
  rw [Lib.cover, List.flatMap_map]
  rfl

theorem Inv.cover_segments (h : Inv g s bs) : Lib.cover bs = s.heap.segments.flatMap (addrs g) := by
  rw [← h.rep.view, cover_map_chunk]

theorem Inv.chunk_mem (h : Inv g s bs) (hu : u ∈ s.heap.segments) :
    chunk g s.heap.freeSegment u ∈ bs := by
  rw [← h.rep.view]
  exact List.mem_map_of_mem hu

theorem Inv.chunk_free (h : Inv g s bs) (hu : u ∈ s.heap.segments)
    (ha : u.addr ∈ s.heap.freeSegment) : ⟨u.addr, g.stHeader + u.stByteSize, true⟩ ∈ bs := by
  have hmem := h.chunk_mem hu
  rwa [chunk, decide_eq_true ha] at hmem

/-- The segments are cut where the addresses do not go on. -/
theorem segments_eq_append {segments : List Segment} {as bs : List ℕ}
    (h : segments.flatMap (addrs g) = as ++ bs)
    (hgap : ∀ a ∈ as.getLast?, ∀ b ∈ bs.head?, b ≠ a + 1) :
    ∃ l r, segments = l ++ r ∧ l.flatMap (addrs g) = as ∧ r.flatMap (addrs g) = bs := by
  rw [← @cover_map_chunk _ []] at h
  obtain ⟨l₁, l₂, hl, h₁, h₂⟩ := cover_eq_append h hgap
  obtain ⟨l, r, rfl, rfl, rfl⟩ := List.map_eq_append_iff.mp hl
  rw [cover_map_chunk] at h₁ h₂
  exact ⟨l, r, rfl, h₁, h₂⟩

/-- The first address of regions is where one of them starts. -/
theorem head_regionAddrs {regions : List Region} (h : a ∈ (regions.flatMap regionAddrs).head?) :
    ∃ q ∈ regions, a = q.addr := by
  induction regions with
  | nil => simp at h
  | cons q regions ih =>
    rw [List.flatMap_cons, List.head?_append] at h
    cases hsize : q.stSize with
    | zero =>
      rw [regionAddrs, hsize] at h
      obtain ⟨q', hq', ha⟩ := ih (by simpa using h)
      exact ⟨q', .tail _ hq', ha⟩
    | succ n =>
      rw [regionAddrs, hsize] at h
      refine ⟨q, .head _, ?_⟩
      simpa [List.range'_succ, eq_comm] using h

/-- The last address of regions is where one of them ends. -/
theorem last_regionAddrs {regions : List Region} (h : a ∈ (regions.flatMap regionAddrs).getLast?) :
    ∃ q ∈ regions, a + 1 = q.addr + q.stSize := by
  induction regions with
  | nil => simp at h
  | cons q regions ih =>
    rw [List.flatMap_cons, List.getLast?_append] at h
    cases hlast : (regions.flatMap regionAddrs).getLast? with
    | some c =>
      rw [hlast] at h ih
      obtain ⟨q', hq', ha⟩ := ih (by simpa using h)
      exact ⟨q', .tail _ hq', ha⟩
    | none =>
      rw [hlast, Option.none_or, regionAddrs, List.getLast?_range', Option.mem_def] at h
      split_ifs at h with hsize
      rw [Option.some.injEq] at h
      exact ⟨q, .head _, by omega⟩

/-- A region that touches no other one starts and ends with a segment. -/
theorem Inv.region_tiled (h : Inv g s bs) {left right : List Region} {q : Region}
    (hq : s.regions = left ++ q :: right)
    (hgap : ∀ q' ∈ s.regions, q'.addr + q'.stSize ≠ q.addr ∧ q.addr + q.stSize ≠ q'.addr) :
    ∃ l segments r, s.heap.segments = l ++ segments ++ r ∧
      segments.flatMap (addrs g) = regionAddrs q := by
  have hcover : s.heap.segments.flatMap (addrs g) =
      left.flatMap regionAddrs ++ (q :: right).flatMap regionAddrs := by
    rw [← h.cover_segments, h.cover, hq, List.flatMap_append]
    rfl
  have hsize : 0 < q.stSize := by
    have hne := (hgap q (by simp [hq])).2
    omega
  obtain ⟨l, rest, hseg, -, hrest⟩ := segments_eq_append hcover fun a ha b hb => by
    obtain ⟨q', hq', hae⟩ := last_regionAddrs ha
    have hne := (hgap q' (by simp [hq, hq'])).1
    obtain ⟨n, hn⟩ := Nat.exists_eq_succ_of_ne_zero hsize.ne'
    rw [List.flatMap_cons, regionAddrs, hn, List.range'_succ, List.cons_append,
      List.head?_cons, Option.mem_def, Option.some.injEq] at hb
    omega
  obtain ⟨segments, r, rfl, hsegs, -⟩ := segments_eq_append hrest fun a ha b hb => by
    obtain ⟨q', hq', hbe⟩ := head_regionAddrs hb
    have hne := (hgap q' (by simp [hq, hq'])).2
    have hlast : a ∈ ([q].flatMap regionAddrs).getLast? := by simpa using ha
    obtain ⟨q'', hq'', hae⟩ := last_regionAddrs hlast
    rw [List.mem_singleton.mp hq''] at hae
    omega
  exact ⟨l, segments, r, by rw [hseg, List.append_assoc], hsegs⟩

theorem Inv.safe (h : Inv g s bs) : HeapSafe g s where
  tiles := by
    rw [← h.cover_segments, h.cover]
    rfl
  nodup := by
    rw [← h.cover_segments]
    exact h.rep.nodup
  region _ _ _ hq hgap := h.region_tiled hq hgap
  ringNodup := h.rep.ringNodup
  ring a := by
    constructor
    · intro ha
      obtain ⟨u, hu, rfl⟩ := h.rep.ringMem a ha
      exact ⟨u, hu, rfl, fun b hb => h.block_ne hb (h.chunk_free hu ha) rfl⟩
    · rintro ⟨u, hu, rfl, hno⟩
      by_contra ha
      obtain ⟨b, hb, hbu⟩ := h.used _ (h.chunk_mem hu) (by simp [chunk, ha])
      exact hno b hb hbu
  coalesced u hu v hv hfu hfv hnext := by
    refine h.tiled.coalesced (h.chunk_free hu hfu) (h.chunk_free hv hfv) rfl rfl ?_
    rw [HeapConf.nextPtr, HeapConf.dataPtr] at hnext
    rw [Chunk.stop, ← Nat.add_assoc]
    exact hnext
  counter := by
    rw [h.rep.counter, ← h.rep.view, List.length_map]
  total := by
    rw [h.rep.free, h.rep.used, h.rep.total, Nat.add_comm]
    exact usedOf_add_freeOf fun x hx => h.rep.header_le hx
  totalRegions := by
    have hlen := congrArg List.length h.cover
    rw [length_cover, List.length_flatMap] at hlen
    rw [h.rep.total, hlen]
    simp
  apart := by
    have hseg := h.nodup
    rw [List.Nodup, List.pairwise_map] at hseg
    refine hseg.imp_of_mem fun {b c} hb hc hbc => ?_
    obtain ⟨n, hn, hlo, hhi, -⟩ := h.live b hb
    obtain ⟨m, hm, hlo', hhi', -⟩ := h.live c hc
    have hapart := apart_of_mem h.rep.pos h.rep.nodup hn hm fun heq => hbc (congrArg Chunk.addr heq)
    simp only [Chunk.Apart, Chunk.stop] at hapart
    omega
  inside b hb := by
    obtain ⟨n, hn, hlo, hhi, -⟩ := h.live b hb
    rw [← h.rep.view] at hn
    obtain ⟨u, hu, hub⟩ := List.mem_map.mp hn
    simp only [chunk, Chunk.mk.injEq] at hub
    refine ⟨u, hu, hub.1, ?_, ?_⟩
    · rw [HeapConf.dataPtr]
      omega
    · rw [HeapConf.nextPtr, HeapConf.dataPtr]
      omega
  runs op hok := by
    obtain ⟨s', bs', hs, -⟩ := h.step hok
    rw [hs]
    rfl

/-- After any calls on a heap its memory is in order. -/
theorem heap_safe (h : Reach (step g) (StepOk g) (Init g) s) : HeapSafe g s := by
  have hinv : ∃ bs, Inv g s bs := by
    apply h.invariant (fun _ hi => hi.inv)
    rintro s a s' ⟨bs, hi⟩ hok hs
    obtain ⟨s₁, bs', hs₁, hi'⟩ := hi.step hok
    rw [hs, Option.some.injEq] at hs₁
    subst hs₁
    exact ⟨bs', hi'⟩
  obtain ⟨bs, hi⟩ := hinv
  exact hi.safe

/-- When no block is left, every segment is free and starts where a region does. If no memory was
added, the heap is a single segment again. -/
theorem heap_emptied (hreach : Reach (step g) (StepOk g) (Init g) s) (hlive : s.live = []) :
    (∀ u ∈ s.heap.segments, u.addr ∈ s.heap.freeSegment ∧ s.Starts u.addr) ∧
      ∀ q, s.regions = [q] → s.heap.segments = [⟨q.addr, q.stSize - g.stHeader⟩] := by
  have hinv : ∃ bs, Inv g s bs := by
    apply hreach.invariant (fun _ hi => hi.inv)
    rintro s a s' ⟨bs, hi⟩ hok hs
    obtain ⟨s₁, bs', hs₁, hi'⟩ := hi.step hok
    exact ⟨bs', Option.some.inj (hs₁.symm.trans hs) ▸ hi'⟩
  obtain ⟨bs, h⟩ := hinv
  have hfree (x : Chunk) (hx : x ∈ bs) : x.free = true := by
    by_contra hf
    obtain ⟨b, hb, -⟩ := h.used x hx (Bool.eq_false_iff.mpr hf)
    rw [hlive] at hb
    cases hb
  have hstarts (x : Chunk) (hx : x ∈ bs) : s.Starts x.addr := by
    by_contra hS
    obtain ⟨z, hz, -, hno⟩ := h.tiled.before hx hS
    exact hno ⟨hfree z hz, hfree x hx⟩
  refine ⟨fun u hu => ⟨of_decide_eq_true (hfree _ (h.chunk_mem hu)), hstarts _ (h.chunk_mem hu)⟩,
    fun q hq => ?_⟩
  have haddr (x : Chunk) (hx : x ∈ bs) : x.addr = q.addr := by
    obtain ⟨q', hq', heq⟩ := hstarts x hx
    rw [hq, List.mem_singleton] at hq'
    exact heq.symm.trans (congrArg Region.addr hq')
  obtain ⟨x, l, hbs⟩ := List.exists_cons_of_ne_nil h.ne
  have hone : bs = [x] := by
    rw [hbs, List.cons_eq_cons, and_iff_right rfl]
    refine List.eq_nil_iff_forall_not_mem.mpr fun y hy => ?_
    have hnodup := addr_nodup h.rep.pos h.rep.nodup
    rw [hbs, List.map_cons, List.nodup_cons] at hnodup
    have hxy : x.addr = y.addr := (haddr x (by simp [hbs])).trans (haddr y (by simp [hbs, hy])).symm
    exact hnodup.1 (hxy ▸ List.mem_map_of_mem hy)
  have hlen := congrArg List.length h.cover
  rw [length_cover, hq, hone, List.flatMap_singleton, List.length_range'] at hlen
  obtain ⟨u, hsegs, hu⟩ := List.map_eq_singleton_iff.mp (h.rep.view.trans hone)
  have hx := haddr x (by simp [hone])
  subst hu
  simp only [chunk, List.map_cons, List.map_nil, List.sum_cons, List.sum_nil] at hlen hx
  rw [hsegs, ← hlen, ← hx, Nat.add_zero, Nat.add_sub_cancel_left]

/-! ## A heap of a 64-bit machine -/

/-- Words of 8 bytes, segments of at least 16 bytes of data, overruns checked for. -/
def heap64 : HeapConf where
  stWord := 8
  ulAlignment := 16
  stSegMinSize := 16
  bHeapCrossBorderEn := true
  word_eq := .inr rfl
  align_pow := ⟨4, rfl⟩
  word_dvd := ⟨2, rfl⟩
  align_dvd := ⟨1, rfl⟩
  min_pos := by decide

/-- A heap of one page. -/
def onePage : HeapSys where
  heap := Heap.setMagic heap64
    { pvStartAddress := 4096, segments := [⟨4096, 4048⟩], freeSegment := [4096],
      ulSegmentCounter := 1, stTotalByteSize := 4096, stUsedByteSize := 48,
      stFreeByteSize := 4048, stMaxUsedByteSize := 48, mem := fun _ => 0 } 4096
  regions := [⟨4096, 4096⟩]
  live := []

theorem onePage_init : onePage.Init heap64 := ⟨rfl, 4096, 4096, fun _ => 0, rfl, rfl⟩

theorem heap_safe_onePage : ∃ s, Reach (step heap64) (StepOk heap64) (Init heap64) s ∧
    s.live = [⟨4256, 4352, 200⟩] ∧ s.heap.freeSegment = [4096, 4560] ∧ HeapSafe heap64 s := by
  have h₀ : Reach (step heap64) (StepOk heap64) (Init heap64) onePage := .start onePage_init
  have h₁ := h₀.extend (.alloc 100) trivial rfl
  have h₂ := h₁.extend (.allocAlign 200 256) ⟨8, rfl⟩ rfl
  have h₃ := h₂.extend (.free (some 4144) false)
    (fun _ p hp => ⟨⟨4096, 4144, 100⟩, by decide, Option.some.inj hp⟩) rfl
  exact ⟨_, h₃, rfl, rfl, heap_safe h₃⟩

theorem heap_emptied_onePage : ∃ s, Reach (step heap64) (StepOk heap64) (Init heap64) s ∧
    s.heap.segments = [⟨4096, 4048⟩] := by
  have h₀ : Reach (step heap64) (StepOk heap64) (Init heap64) onePage := .start onePage_init
  have h₁ := h₀.extend (.alloc 100) trivial rfl
  have h₂ := h₁.extend (.free (some 4144) false)
    (fun _ p hp => ⟨⟨4096, 4144, 100⟩, by decide, Option.some.inj hp⟩) rfl
  exact ⟨_, h₂, (heap_emptied h₂ rfl).2 _ rfl⟩

/-- Memory that touches the heap's own is not joined with it, and once a segment of it is freed the
segments do not keep to the two regions. -/
theorem heap_uncoalesced :
    (∃ s, Reach (step heap64) (StepOk heap64) (Init heap64) s ∧ ∃ u ∈ s.heap.segments,
      ∃ v ∈ s.heap.segments, u.addr ∈ s.heap.freeSegment ∧ v.addr ∈ s.heap.freeSegment ∧
        heap64.nextPtr u = v.addr) ∧
      ∃ s, Reach (step heap64) (StepOk heap64) (Init heap64) s ∧
        s.regions = [⟨4096, 4096⟩, ⟨8192, 4096⟩] ∧ s.heap.segments = [⟨4096, 8144⟩] := by
  have h₀ : Reach (step heap64) (StepOk heap64) (Init heap64) onePage := .start onePage_init
  have h₁ := h₀.extend (.addMemory 8192 4096)
    ⟨by decide, fun q hq => by rw [List.mem_singleton.mp hq]; decide⟩ rfl
  have h₂ := h₁.extend (.alloc 4040) trivial rfl
  have h₃ := h₂.extend (.free (some 4144) false)
    (fun _ p hp => ⟨⟨4096, 4144, 4040⟩, by decide, Option.some.inj hp⟩) rfl
  exact ⟨⟨_, h₁, ⟨4096, 4048⟩, by decide, ⟨8192, 4048⟩, by decide, by decide, by decide, rfl⟩,
    _, h₃, rfl, rfl⟩

end SylixOS.Kernel.HeapSys
