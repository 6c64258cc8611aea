import SylixOS.Kernel.HeapSafe

/-! # Memory that is added to a heap

`_HeapAddMemory` rejects memory that starts or ends in the data of a segment, but it does not look at
the last segment, nor for segments inside the new memory. `_HeapVerify` takes the memory of a heap to
be the bytes behind its first address, as many as there are in all of its regions.
-/

namespace SylixOS.Kernel

/-- Two regions have no address in common. -/
def Region.Apart (q r : Region) : Prop := q.addr + q.stSize ≤ r.addr ∨ r.addr + r.stSize ≤ q.addr

namespace HeapSys
open Lib

variable (g : HeapConf) (s : HeapSys)

/-- New memory has room for a segment, and is apart from the memory of the heap or starts or ends in
the data of a segment that is not the last one. The other calls are as before. -/
def AddOk : HeapOp → Prop
  | .addMemory pvMemory stSize =>
    g.stHeader ≤ (g.region pvMemory stSize).stSize ∧
      ((∀ q ∈ s.regions, q.Apart (g.region pvMemory stSize)) ∨
        s.heap.segments.dropLast.any (Heap.overlaps g (g.region pvMemory stSize)) = true)
  | op => s.StepOk g op

/-- New memory starts in the range that the heap takes for its own, or right behind it. -/
def AddIn : HeapOp → Prop
  | .addMemory pvMemory stSize =>
    s.heap.pvStartAddress ≤ (g.region pvMemory stSize).addr ∧
      (g.region pvMemory stSize).addr ≤ s.heap.pvStartAddress + s.heap.stTotalByteSize
  | _ => True

/-- A heap whose regions are apart, each with room for a segment. -/
structure ExtInv (g : HeapConf) (s : HeapSys) : Prop where
  inv : ∃ bs, Inv g s bs
  room : ∀ q ∈ s.regions, g.stHeader ≤ q.stSize
  apart : s.regions.Pairwise Region.Apart

/-- The regions lie in the range of all their bytes that starts with the first of them. -/
def Spans (regions : List Region) : Prop :=
  ∀ q₀ ∈ regions.head?, ∀ q ∈ regions,
    q₀.addr ≤ q.addr ∧ q.addr + q.stSize ≤ q₀.addr + (regions.map Region.stSize).sum

variable {g s} {s' : HeapSys} {bs : List Chunk} {op : HeapOp} {b : Block} {p : ℕ}

/-! ## The check of a block -/

/-- A heap starts with its first region. -/
theorem ExtInv.start_eq (h : ExtInv g s) {q : Region} (hq : q ∈ s.regions.head?) :
    s.heap.pvStartAddress = q.addr := by
  obtain ⟨bs, hinv⟩ := h.inv
  have hcover := hinv.cover
  have hpos := hinv.rep.pos
  have hstart := hinv.rep.start
  have hsize := h.room q (List.mem_of_mem_head? hq)
  have hhead := g.header_pos
  obtain ⟨x, xs, rfl⟩ := List.exists_cons_of_ne_nil hinv.ne
  obtain ⟨rest, hrest⟩ : ∃ rest, s.regions = q :: rest := by
    cases hr : s.regions with
    | nil => simp [hr] at hq
    | cons r rest =>
      rw [hr, List.head?_cons, Option.mem_some_iff] at hq
      exact ⟨rest, by rw [hq]⟩
  have hx := hpos x (.head _)
  obtain ⟨n, hn⟩ := Nat.exists_eq_succ_of_ne_zero hx.ne'
  obtain ⟨m, hm⟩ := Nat.exists_eq_succ_of_ne_zero (hhead.trans_le hsize).ne'
  rw [hrest, cover_cons, List.flatMap_cons, Chunk.cells, hn, hm, List.range'_succ,
    List.range'_succ, List.cons_append, List.cons_append, List.cons.injEq] at hcover
  rw [← hstart x rfl]
  exact hcover.1

theorem heapScan_of {h : Heap} {segments : List Segment} {u : Segment} (hu : u ∈ segments)
    (hin : u.addr < p ∧ p ≤ g.nextPtr u) (hused : h.isUsed u.addr = true)
    (hother : ∀ v ∈ segments, v ≠ u → ¬ (v.addr < p ∧ p ≤ g.nextPtr v)) :
    h.heapScan g p segments = some u.addr := by
  induction segments with
  | nil => simp at hu
  | cons v segments ih =>
    rw [Heap.heapScan]
    by_cases hv : v = u
    · rw [hv, if_pos hin, if_pos hused]
    · rw [if_neg (hother v (.head _) hv)]
      refine ih ?_ fun w hw => hother w (.tail _ hw)
      exact (List.mem_cons.mp hu).resolve_left fun heq => hv heq.symm

/-- The scan finds the segment of a pointer into its data. -/
theorem Inv.heapScan (h : Inv g s bs) {u : Segment} (hu : u ∈ s.heap.segments)
    (hused : s.heap.isUsed u.addr = true) (hlo : g.dataPtr u ≤ p) (hhi : p ≤ g.nextPtr u) :
    s.heap.heapScan g p s.heap.segments = some u.addr := by
  have hpos := g.header_pos
  rw [HeapConf.dataPtr] at hlo
  refine heapScan_of hu ⟨by omega, hhi⟩ hused fun v hv hne hin => ?_
  have hapart := apart_of_mem h.rep.pos h.rep.nodup (h.chunk_mem hv) (h.chunk_mem hu) fun heq => by
    simp only [chunk, Chunk.mk.injEq] at heq
    obtain ⟨haddr, hlen, -⟩ := heq
    refine hne ?_
    cases u
    cases v
    simp only [Segment.mk.injEq] at haddr ⊢
    exact ⟨haddr, Nat.add_left_cancel hlen⟩
  rw [HeapConf.nextPtr, HeapConf.dataPtr] at hhi hin
  simp only [Chunk.Apart, Chunk.stop, chunk] at hapart
  omega

/-- A block is accepted without the check, and with it if it lies in the range of the heap. -/
theorem Inv.segOf_block (h : Inv g s bs) (hb : b ∈ s.live) :
    s.heap.segOf g b.ptr false = some b.seg ∧
      (s.heap.segOf g b.ptr true = some b.seg ↔ s.heap.pvStartAddress ≤ b.ptr ∧
        b.ptr < s.heap.pvStartAddress + s.heap.stTotalByteSize) := by
  obtain ⟨n, hn, hlo, hhi, hptr⟩ := h.live b hb
  obtain ⟨l, r, rfl⟩ := List.append_of_mem hn
  refine ⟨h.rep.segOf_live hptr, ?_⟩
  obtain ⟨left, right, -, hseg, -, -⟩ := h.rep.seg
  have hscan := h.heapScan (p := b.ptr) (u := ⟨b.seg, n⟩) (by simp [hseg]) h.rep.isUsed hlo
    ((Nat.le_add_right _ _).trans hhi)
  rw [Heap.segOf, if_pos rfl, Heap.heapVerify]
  split_ifs with hout
  · simp only [false_iff]
    omega
  · rw [hscan]
    simp only [true_iff]
    omega

/-! ## Runs -/

theorem step_regions (h : s.step g op = some s')
    (hop : ∀ pvMemory stSize, op ≠ .addMemory pvMemory stSize) : s'.regions = s.regions := by
  cases op with
  | alloc n | allocAlign n a | free o v | realloc o n v =>
    obtain ⟨x, -, rfl⟩ := Option.map_eq_some_iff.mp h
    rfl
  | addMemory pvMemory stSize => exact absurd rfl (hop pvMemory stSize)
  | write e mem =>
    rw [step, Option.some.injEq] at h
    rw [← h]

/-- Memory that overlaps the heap is turned down when one of its ends is seen to. -/
theorem heapAddMemory_rejected {h : Heap} {pvMemory stSize : ℕ}
    (hroom : g.stHeader ≤ (g.region pvMemory stSize).stSize)
    (hover : h.segments.dropLast.any (Heap.overlaps g (g.region pvMemory stSize)) = true) :
    h.heapAddMemory g pvMemory stSize = some (h, false) := by
  unfold Heap.heapAddMemory
  dsimp only
  rw [if_neg (by omega), if_pos hover]

/-- Other memory is added, wherever it lies. -/
theorem heapAddMemory_accepted {h : Heap} {pvMemory stSize : ℕ}
    (hroom : g.stHeader ≤ (g.region pvMemory stSize).stSize)
    (hover : ¬ h.segments.dropLast.any (Heap.overlaps g (g.region pvMemory stSize)) = true) :
    ∃ h', h.heapAddMemory g pvMemory stSize = some (h', true) := by
  unfold Heap.heapAddMemory
  dsimp only
  rw [if_neg (by omega), if_neg hover]
  exact ⟨_, rfl⟩

/-- Memory that is added is a further region. -/
theorem step_addMemory {pvMemory stSize : ℕ} (hok : s.AddOk g (.addMemory pvMemory stSize))
    (h : s.step g (.addMemory pvMemory stSize) = some s') :
    s' = s ∨ s.StepOk g (.addMemory pvMemory stSize) ∧
      s'.regions = s.regions ++ [g.region pvMemory stSize] := by
  obtain ⟨hroom, hcase⟩ := hok
  by_cases hover : s.heap.segments.dropLast.any (Heap.overlaps g (g.region pvMemory stSize)) = true
  · rw [step, heapAddMemory_rejected hroom hover] at h
    exact .inl (Option.some.inj h).symm
  · refine .inr ⟨⟨hroom, hcase.resolve_right hover⟩, ?_⟩
    obtain ⟨h', hadd⟩ := heapAddMemory_accepted hroom hover
    rw [step, hadd] at h
    rw [← Option.some.inj h]
    rfl

theorem ExtInv.init (h : s.Init g) : ExtInv g s := by
  refine ⟨h.inv, ?_, ?_⟩
  · obtain ⟨-, pvStartAddress, stByteSize, mem, hregions, hctor⟩ := h
    intro q hq
    rw [hregions, List.mem_singleton] at hq
    rw [hq]
    exact (heapCtor_some hctor).1
  · obtain ⟨-, pvStartAddress, stByteSize, mem, hregions, -⟩ := h
    rw [hregions]
    exact List.pairwise_singleton _ _

theorem ExtInv.step (h : ExtInv g s) (hok : s.AddOk g op) (hs : s.step g op = some s') :
    ExtInv g s' := by
  obtain ⟨bs, hinv⟩ := h.inv
  have hkeep (hok : s.StepOk g op) : ∃ bs, Inv g s' bs := by
    obtain ⟨s₁, bs', hs₁, hinv'⟩ := hinv.step hok
    rw [hs, Option.some.injEq] at hs₁
    exact ⟨bs', hs₁ ▸ hinv'⟩
  cases op with
  | addMemory pvMemory stSize =>
    rcases step_addMemory hok hs with rfl | ⟨hstep, hregions⟩
    · exact h
    · refine ⟨hkeep hstep, ?_, ?_⟩
      · intro q hq
        rw [hregions, List.mem_append, List.mem_singleton] at hq
        rcases hq with hq | rfl
        · exact h.room q hq
        · exact hok.1
      · rw [hregions, List.pairwise_append]
        refine ⟨h.apart, List.pairwise_singleton _ _, fun q hq r hr => ?_⟩
        rw [List.mem_singleton.mp hr]
        exact hstep.2 q hq
  | alloc n | allocAlign n a | free o v | realloc o n v | write e mem =>
    have hregions := step_regions hs nofun
    exact ⟨hkeep hok, hregions ▸ h.room, hregions ▸ h.apart⟩

theorem ExtInv.of_reach (h : Reach (HeapSys.step g) (AddOk g) (Init g) s) : ExtInv g s :=
  h.invariant (fun _ hi => .init hi) fun _ _ _ hi hok hs => hi.step hok hs

/-- Memory that starts in the range of the regions, or right behind it, is in their range then. -/
theorem Spans.append {regions : List Region} {r : Region} (h : Spans regions)
    (hr : ∀ q₀ ∈ regions.head?, q₀.addr ≤ r.addr ∧
      r.addr ≤ q₀.addr + (regions.map Region.stSize).sum) (hne : regions ≠ []) :
    Spans (regions ++ [r]) := by
  obtain ⟨q₀, rest, rfl⟩ := List.exists_cons_of_ne_nil hne
  intro q hq p hp
  obtain rfl : q₀ = q := by simpa using hq
  have hr' := hr q₀ rfl
  rw [List.map_append, List.sum_append, List.map_singleton, List.sum_singleton]
  rcases List.mem_append.mp hp with hp | hp
  · have hspan := h q₀ rfl p hp
    omega
  · rw [List.mem_singleton.mp hp]
    omega

theorem ExtInv.regions_ne (h : ExtInv g s) : s.regions ≠ [] := by
  obtain ⟨bs, hinv⟩ := h.inv
  intro hregions
  have hcover := hinv.cover
  obtain ⟨x, xs, rfl⟩ := List.exists_cons_of_ne_nil hinv.ne
  have hx := hinv.rep.pos x (.head _)
  have hlen := congrArg List.length hcover
  rw [hregions, length_cover, List.map_cons, List.sum_cons, List.flatMap_nil, List.length_nil] at hlen
  omega

theorem ExtInv.total_eq (h : ExtInv g s) :
    s.heap.stTotalByteSize = (s.regions.map Region.stSize).sum := by
  obtain ⟨bs, hinv⟩ := h.inv
  exact hinv.safe.totalRegions

/-- The range of the heap has all its regions, if each is added there. -/
theorem ExtInv.spans_step (h : ExtInv g s) (hspan : Spans s.regions) (hok : s.AddOk g op)
    (hin : s.AddIn g op) (hs : s.step g op = some s') : Spans s'.regions := by
  cases op with
  | addMemory pvMemory stSize =>
    rcases step_addMemory hok hs with rfl | ⟨-, hregions⟩
    · exact hspan
    · rw [hregions]
      refine hspan.append (fun q₀ hq₀ => ?_) h.regions_ne
      rw [← h.start_eq hq₀, ← h.total_eq]
      exact hin
  | alloc n | allocAlign n a | free o v | realloc o n v | write e mem =>
    rw [step_regions hs nofun]
    exact hspan

theorem spans_of_reach
    (h : Reach (HeapSys.step g) (fun s op => s.AddOk g op ∧ s.AddIn g op) (Init g) s) :
    ExtInv g s ∧ Spans s.regions := by
  apply h.invariant
  · refine fun s hi => ⟨.init hi, fun q₀ hq₀ q hq => ?_⟩
    obtain ⟨-, pvStartAddress, stByteSize, mem, hregions, -⟩ := hi
    rw [hregions, List.head?_cons, Option.mem_some_iff] at hq₀
    rw [hregions, List.mem_singleton] at hq
    rw [hregions, hq, ← hq₀]
    simp
  · exact fun s op s' hi hok hs => ⟨hi.1.step hok.1 hs, hi.1.spans_step hi.2 hok.1 hok.2 hs⟩

/-- The pointer of a block is in the range of the regions, if they have a range. -/
theorem ExtInv.block_range (h : ExtInv g s) (hspan : Spans s.regions) (hb : b ∈ s.live) :
    s.heap.pvStartAddress ≤ b.ptr ∧
      b.ptr + b.size ≤ s.heap.pvStartAddress + s.heap.stTotalByteSize := by
  obtain ⟨bs, hinv⟩ := h.inv
  obtain ⟨n, hn, hlo, hhi, -⟩ := hinv.live b hb
  have hhead := g.header_pos
  have hin (c : ℕ) (hc : b.seg ≤ c ∧ c < b.seg + (g.stHeader + n)) :
      s.heap.pvStartAddress ≤ c ∧ c < s.heap.pvStartAddress + s.heap.stTotalByteSize := by
    have hcover : c ∈ Lib.cover bs := mem_cover.mpr ⟨_, hn, hc⟩
    rw [hinv.cover, List.mem_flatMap] at hcover
    obtain ⟨q, hq, hcq⟩ := hcover
    obtain ⟨q₀, hq₀⟩ := Option.isSome_iff_exists.mp (List.isSome_head?.mpr h.regions_ne)
    have hqspan := hspan q₀ hq₀ q hq
    rw [List.mem_range'_1] at hcq
    rw [h.start_eq hq₀, h.total_eq]
    omega
  have hfirst := hin b.seg (by omega)
  have hlast := hin (b.seg + (g.stHeader + n) - 1) (by omega)
  omega

/-- Memory that is added never overlaps the heap if and only if it is apart from it or one of its ends
is in the data of a segment that is not the last one, and a block is accepted by the check if and only
if it lies in the range that the heap takes for its own: that is all blocks, when all memory is added
in this range or right behind it. -/
theorem extend_accepts :
    (∀ s, Reach (HeapSys.step g) (AddOk g) (Init g) s → s.regions.Pairwise Region.Apart ∧
      (∀ pvMemory stSize, g.stHeader ≤ (g.region pvMemory stSize).stSize →
        ((∀ h', s.heap.heapAddMemory g pvMemory stSize = some (h', true) →
            ∀ q ∈ s.regions, q.Apart (g.region pvMemory stSize)) ↔
          s.AddOk g (.addMemory pvMemory stSize))) ∧
      ∀ b ∈ s.live, s.heap.segOf g b.ptr false = some b.seg ∧
        (s.heap.segOf g b.ptr true = some b.seg ↔ s.heap.pvStartAddress ≤ b.ptr ∧
          b.ptr < s.heap.pvStartAddress + s.heap.stTotalByteSize)) ∧
    ∀ s, Reach (HeapSys.step g) (fun s op => s.AddOk g op ∧ s.AddIn g op) (Init g) s →
      ∀ b ∈ s.live, (b.size ≠ 0 ∨ b.ptr ≠ s.heap.pvStartAddress + s.heap.stTotalByteSize) →
        ∀ v, s.heap.segOf g b.ptr v = some b.seg := by
  constructor
  · intro s h
    have hext := ExtInv.of_reach h
    obtain ⟨bs, hinv⟩ := hext.inv
    refine ⟨hext.apart, fun pvMemory stSize hroom => ⟨fun hadd => ⟨hroom, ?_⟩, fun hok h' hadd => ?_⟩,
      fun b hb => hinv.segOf_block hb⟩
    · by_cases hover :
        s.heap.segments.dropLast.any (Heap.overlaps g (g.region pvMemory stSize)) = true
      · exact .inr hover
      · obtain ⟨h', haccept⟩ := heapAddMemory_accepted hroom hover
        exact .inl (hadd h' haccept)
    · refine hok.2.resolve_right fun hover => ?_
      rw [heapAddMemory_rejected hroom hover] at hadd
      simp at hadd
  · intro s h b hb hend v
    obtain ⟨hext, hspan⟩ := spans_of_reach h
    obtain ⟨bs, hinv⟩ := hext.inv
    have hrange := hext.block_range hspan hb
    obtain ⟨hfree, hcheck⟩ := hinv.segOf_block hb
    cases v with
    | false => exact hfree
    | true => exact hcheck.mpr ⟨hrange.1, by omega⟩

/-! ## A heap of one page -/

/-- The memory of the heap is added once more, and a block in memory that lies apart is not accepted
by the check. -/
theorem extend_onePage : onePage.Init heap64 ∧
    (∃ h', onePage.heap.heapAddMemory heap64 4096 4096 = some (h', true) ∧
      ∃ q ∈ onePage.regions, ¬ q.Apart (heap64.region 4096 4096)) ∧
    ∃ s, Reach (HeapSys.step heap64) (AddOk heap64) (Init heap64) s ∧
      s.regions = [⟨4096, 4096⟩, ⟨65536, 4096⟩] ∧
      s.live = [⟨65536, 65584, 4040⟩, ⟨4096, 4144, 4040⟩] ∧
      s.heap.segOf heap64 65584 true = none ∧
      s.heap.heapFree heap64 (some 65584) true = some (s.heap, some 65584) := by
  have h₀ : Reach (HeapSys.step heap64) (AddOk heap64) (Init heap64) onePage := .start onePage_init
  have h₁ := h₀.extend (.addMemory 65536 4096)
    ⟨by decide, .inl fun q hq => by rw [List.mem_singleton.mp hq]; exact .inl (by decide)⟩ rfl
  have h₂ := h₁.extend (.alloc 4040) trivial rfl
  have h₃ := h₂.extend (.alloc 4040) trivial rfl
  refine ⟨onePage_init, ⟨_, rfl, ⟨4096, 4096⟩, .head _, ?_⟩, _, h₃, rfl, rfl, rfl, rfl⟩
  rw [Region.Apart]
  decide

end HeapSys

end SylixOS.Kernel
