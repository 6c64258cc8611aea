import SylixOS.Kernel.HeapRealloc
import SylixOS.Lib.Reach

/-! # A heap and its users

The users of a heap hold blocks, each in a segment that is in use. They call the heap in any order,
write to their blocks, and give memory to the heap. Between two calls the ranges tile the regions and
each range in use has one block.
-/

namespace SylixOS.Kernel
open Lib

/-- Memory that a user has been given, with the segment it is in. -/
structure Block where
  seg : ℕ
  ptr : ℕ
  size : ℕ
  deriving DecidableEq, Repr

/-- A heap, the memory it has been given, and the blocks that are in use. -/
structure HeapSys where
  heap : Heap
  regions : List Region
  live : List Block

/-- The calls of a heap, and a user who writes to a block. -/
inductive HeapOp where
  | alloc (stByteSize : ℕ)
  | allocAlign (stByteSize stAlign : ℕ)
  | free (pvStartAddress : Option ℕ) (bIsNeedVerify : Bool)
  | realloc (pvStartAddress : Option ℕ) (stNewByteSize : ℕ) (bIsNeedVerify : Bool)
  | addMemory (pvMemory stSize : ℕ)
  | write (b : Block) (mem : ℕ → ℕ)

/-- The blocks that are not in a segment. -/
def dropSeg (seg : Option ℕ) (live : List Block) : List Block :=
  live.filter fun b => decide (some b.seg ≠ seg)

/-- The data of a segment may come to be a block. -/
def addBlock (g : HeapConf) (pvAllocateAddress : Option ℕ) (size : ℕ) (live : List Block) :
    List Block :=
  match pvAllocateAddress with
  | none => live
  | some p => ⟨p - g.stHeader, p, size⟩ :: live

namespace HeapSys
variable (g : HeapConf) (s : HeapSys)

/-- The segment that a call takes a pointer to be in. -/
def segOf (pvStartAddress : Option ℕ) (bIsNeedVerify : Bool) : Option ℕ :=
  pvStartAddress.bind fun p => s.heap.segOf g p bIsNeedVerify

def step : HeapOp → Option HeapSys
  | .alloc stByteSize =>
    (s.heap.heapAllocate g stByteSize).map fun (heap, o) =>
      { s with heap, live := addBlock g o stByteSize s.live }
  | .allocAlign stByteSize stAlign =>
    (s.heap.heapAllocateAlign g stByteSize stAlign).map fun (heap, o) =>
      { s with
        heap
        live := match o with
          | none => s.live
          | some (p, psegment) => ⟨psegment, p, stByteSize⟩ :: s.live }
  | .free pvStartAddress bIsNeedVerify =>
    (s.heap.heapFree g pvStartAddress bIsNeedVerify).map fun (heap, _) =>
      { s with heap, live := dropSeg (s.segOf g pvStartAddress bIsNeedVerify) s.live }
  | .realloc pvStartAddress stNewByteSize bIsNeedVerify =>
    (s.heap.heapRealloc g pvStartAddress stNewByteSize bIsNeedVerify).map fun (heap, o) =>
      { s with
        heap
        live :=
          if stNewByteSize = 0 ∨ o.isSome then
            addBlock g (if stNewByteSize = 0 then none else o) stNewByteSize
              (dropSeg (s.segOf g pvStartAddress bIsNeedVerify) s.live)
          else s.live }
  | .addMemory pvMemory stSize =>
    (s.heap.heapAddMemory g pvMemory stSize).map fun (heap, bOk) =>
      { s with
        heap
        regions := if bOk then s.regions ++ [g.region pvMemory stSize] else s.regions }
  | .write _ mem => some { s with heap := { s.heap with mem } }

/-- What the users keep to: alignments are powers of two, which is checked; a pointer that is not
verified is one that is in use; new memory has room for a segment and is apart from the old; and only
the words with a byte of a block in use are written to. -/
def StepOk : HeapOp → Prop
  | .alloc _ => True
  | .allocAlign _ stAlign => stAlign.isPowerOfTwo
  | .free pvStartAddress bIsNeedVerify | .realloc pvStartAddress _ bIsNeedVerify =>
    bIsNeedVerify = false → ∀ p ∈ pvStartAddress, ∃ b ∈ s.live, b.ptr = p
  | .addMemory pvMemory stSize =>
    g.stHeader ≤ (g.region pvMemory stSize).stSize ∧ ∀ q ∈ s.regions,
      q.addr + q.stSize ≤ (g.region pvMemory stSize).addr ∨
        (g.region pvMemory stSize).addr + (g.region pvMemory stSize).stSize ≤ q.addr
  | .write b mem =>
    b ∈ s.live ∧ ∀ c, c + g.stWord ≤ b.ptr ∨ b.ptr + b.size ≤ c → mem c = s.heap.mem c

/-- A heap that has just been made. -/
def Init : Prop :=
  s.live = [] ∧ ∃ pvStartAddress stByteSize mem, s.regions = [g.region pvStartAddress stByteSize] ∧
    Heap.heapCtor g pvStartAddress stByteSize mem = some s.heap

end HeapSys

/-- The block is in the data of a segment in use, and its pointer leads to the segment. -/
def BlockOk (g : HeapConf) (mem : ℕ → ℕ) (bs : List Chunk) (b : Block) : Prop :=
  ∃ n, ⟨b.seg, g.stHeader + n, false⟩ ∈ bs ∧ b.seg + g.stHeader ≤ b.ptr ∧
    b.ptr + b.size ≤ b.seg + g.stHeader + n ∧
      (b.ptr = b.seg + g.stHeader ∨ Marked g mem b.seg b.ptr)

def Aligned (g : HeapConf) (x : Chunk) : Prop := g.ulAlignment ∣ x.addr ∧ g.ulAlignment ∣ x.len

namespace HeapSys

/-- A region starts at the address. -/
def Starts (s : HeapSys) (a : ℕ) : Prop := ∃ q ∈ s.regions, q.addr = a

/-- The ranges of a heap between two calls. -/
structure Inv (g : HeapConf) (s : HeapSys) (bs : List Chunk) : Prop where
  rep : Rep g s.heap bs
  ne : bs ≠ []
  tiled : Tiled s.Starts bs
  cover : cover bs = s.regions.flatMap fun q => List.range' q.addr q.stSize
  aligned : ∀ x ∈ bs, Aligned g x
  live : ∀ b ∈ s.live, BlockOk g s.heap.mem bs b
  nodup : (s.live.map Block.seg).Nodup
  used : ∀ x ∈ bs, x.free = false → ∃ b ∈ s.live, b.seg = x.addr

end HeapSys

variable {g : HeapConf} {s : HeapSys} {h' : Heap} {bs bs' l r : List Chunk} {x y : Chunk}
  {a n m k p b : ℕ} {e : Block}

/-! ## Blocks -/

/-- A block stays when its range stays and the words that are written have a byte in the data of
another range. -/
theorem BlockOk.keep {mem mem' : ℕ → ℕ} (h : BlockOk g mem bs e) (hpos : ∀ x ∈ bs, 0 < x.len)
    (hnodup : (cover bs).Nodup) (hx : x ∈ bs) (hne : e.seg ≠ x.addr)
    (hmem : ∀ c, c + g.stWord ≤ x.addr + g.stHeader ∨ x.stop ≤ c → mem' c = mem c)
    (hkeep : ∀ y ∈ bs, y.free = false → y.addr ≠ x.addr → y ∈ bs') : BlockOk g mem' bs' e := by
  obtain ⟨n, hn, hlo, hhi, hptr⟩ := h
  refine ⟨n, hkeep _ hn rfl hne, hlo, hhi, hptr.imp_right fun hm => hm.congr fun c hc hc' => ?_⟩
  refine hmem c ?_
  have hapart := apart_of_mem hpos hnodup hn hx fun heq => hne (congrArg Chunk.addr heq)
  simp only [Chunk.Apart, Chunk.stop] at hapart ⊢
  omega

theorem mem_dropSeg {live : List Block} : e ∈ dropSeg (some a) live ↔ e ∈ live ∧ e.seg ≠ a := by
  simp [dropSeg]

@[simp] theorem dropSeg_none {live : List Block} : dropSeg none live = live := by simp [dropSeg]

theorem dropSeg_nodup {live : List Block} (h : (live.map Block.seg).Nodup) :
    ((dropSeg (some a) live).map Block.seg).Nodup :=
  h.sublist (List.filter_sublist.map _)

/-! ## Ranges that are taken -/

/-- What is taken is a part of a free range. -/
theorem Taken.source {s s' : Heap} (h : Taken g bs bs' s s' n b m p) : ∃ x ∈ bs, x.free = true ∧
    (x.addr ≤ b ∧ b < x.stop) ∧ MemOff s s' (x.addr + g.stHeader) x.stop := by
  obtain ⟨l, r, a, k, lead, stSize, rest, rfl, -, hlead, -, hcut, hmem⟩ := h.pieces
  have hhead := g.header_pos
  refine ⟨⟨a, g.stHeader + k, true⟩, by simp, rfl, ?_, ?_⟩
  · simp only [Chunk.stop]
    rcases hlead with ⟨-, rfl⟩ | ⟨j, -, rfl, -, hjk, -⟩
    · omega
    · omega
  · rw [Chunk.stop, ← Nat.add_assoc]
    exact hmem

/-- A segment that is taken is a new one. -/
theorem Taken.new_ne {s s' : Heap} (ht : Taken g bs bs' s s' n b m p) (h : Rep g s bs) (hy : y ∈ bs)
    (hf : y.free = false) : y.addr ≠ b := by
  rintro rfl
  obtain ⟨x, hx, hfx, hbx, -⟩ := ht.source
  have hlen := h.pos y hy
  have heq := eq_of_mem h.pos h.nodup hy hx ⟨le_rfl, by rw [Chunk.stop]; omega⟩ hbx
  rw [heq, hfx] at hf
  cases hf

/-- The ranges in use are the old ones and the new one. -/
theorem Taken.used_cases {s s' : Heap} (h : Taken g bs bs' s s' n b m p) (hy : y ∈ bs')
    (hf : y.free = false) : y = ⟨b, g.stHeader + m, false⟩ ∨ y ∈ bs := by
  obtain ⟨l, r, a, k, lead, stSize, rest, rfl, rfl, hlead, -, hcut, -⟩ := h.pieces
  simp only [List.mem_append, List.mem_cons] at hy ⊢
  rcases hy with (hy | hy) | hy | hy | hy
  · exact .inr (.inl hy)
  · rcases hlead with ⟨rfl, -⟩ | ⟨j, rfl, -⟩
    · simp at hy
    · rw [List.mem_singleton.mp hy] at hf
      simp at hf
  · exact .inl hy
  · rcases hcut with ⟨rfl, -⟩ | ⟨j, rfl, -⟩
    · simp at hy
    · rw [List.mem_singleton.mp hy] at hf
      simp at hf
  · exact .inr (.inr (.inr hy))

/-- The parts of the free range follow each other. -/
theorem Cut.parts {stSize : ℕ} {rest : List Chunk} {S : ℕ → Prop} (h : Cut g b k stSize m rest) :
    cover (⟨b, g.stHeader + m, false⟩ :: rest) = (Chunk.mk b (g.stHeader + k) true).cells ∧
      (∀ y ∈ rest, 0 < y.len) ∧ (⟨b, g.stHeader + m, false⟩ :: rest).IsChain (Link S) ∧
        ∀ y ∈ (⟨b, g.stHeader + m, false⟩ :: rest).getLast?, y.stop = b + (g.stHeader + k) := by
  have hhead := g.header_pos
  rcases h with ⟨rfl, rfl⟩ | ⟨j, rfl, -, rfl⟩
  · refine ⟨by simp [Chunk.cells], by simp, List.isChain_singleton _, fun y hy => ?_⟩
    simp only [List.getLast?_singleton, Option.mem_def, Option.some.injEq] at hy
    rw [← hy]
    rfl
  · have hb : b + g.stHeader + m = b + (g.stHeader + m) := Nat.add_assoc _ _ _
    refine ⟨?_, ?_, ?_, fun y hy => ?_⟩
    · have hlen : g.stHeader + (m + (g.stHeader + j)) = g.stHeader + m + (g.stHeader + j) := by omega
      rw [cover_cons, cover_cons, cover_nil, List.append_nil, hb,
        Chunk.cells_append b _ _ false true true, hlen]
    · intro y hy
      rw [List.mem_singleton.mp hy]
      exact Nat.add_pos_left hhead _
    · rw [List.isChain_pair]
      exact .inr ⟨hb.symm, by simp⟩
    · simp only [List.getLast?_cons_cons, List.getLast?_singleton, Option.mem_def,
        Option.some.injEq] at hy
      rw [← hy]
      simp only [Chunk.stop]
      omega

theorem Taken.tiled {s s' : Heap} {S : ℕ → Prop} (h : Taken g bs bs' s s' n b m p)
    (ht : Tiled S bs) : Tiled S bs' ∧ cover bs' = cover bs := by
  obtain ⟨l, r, a, k, lead, stSize, rest, rfl, rfl, hlead, -, hcut, -⟩ := h.pieces
  obtain ⟨hcover, hpos, hchain, hlast⟩ := hcut.parts (S := S)
  have hhead := g.header_pos
  have heq : l ++ lead ++ ⟨b, g.stHeader + m, false⟩ :: (rest ++ r) =
      l ++ (lead ++ ⟨b, g.stHeader + m, false⟩ :: rest) ++ r := by simp
  have hold : l ++ ⟨a, g.stHeader + k, true⟩ :: r = l ++ [⟨a, g.stHeader + k, true⟩] ++ r := by simp
  have hcells : cover (lead ++ ⟨b, g.stHeader + m, false⟩ :: rest) =
      cover [⟨a, g.stHeader + k, true⟩] := by
    rw [cover_append, hcover, cover_cons, cover_nil, List.append_nil]
    rcases hlead with ⟨rfl, rfl⟩ | ⟨j, rfl, rfl, hj, hjk, -⟩
    · rw [Nat.add_sub_cancel_left, cover_nil, List.nil_append]
    · have hlen : j + (g.stHeader + (a + k - (a + j))) = g.stHeader + k := by omega
      rw [cover_cons, cover_nil, List.append_nil, Chunk.cells_append a _ _ true true true, hlen]
  rw [heq, hold]
  rw [hold] at ht
  refine ⟨ht.recut hcells (by simp) ?_ ?_ ?_ ?_, by
    rw [cover_append, cover_append (l := l), hcells, ← cover_append, ← cover_append]⟩
  · intro y hy
    rcases List.mem_append.mp hy with hy | hy
    · rcases hlead with ⟨rfl, -⟩ | ⟨j, rfl, -, hj, -⟩
      · simp at hy
      · rw [List.mem_singleton.mp hy]
        exact hhead.trans_le hj
    · rcases List.mem_cons.mp hy with rfl | hy
      · exact Nat.add_pos_left hhead _
      · exact hpos y hy
  · rcases hlead with ⟨rfl, -⟩ | ⟨j, rfl, rfl, -⟩
    · exact hchain
    · exact hchain.cons_cons (.inr ⟨rfl, by simp⟩)
  · intro y hy
    refine ⟨_, rfl, ?_⟩
    rcases hlead with ⟨rfl, rfl⟩ | ⟨j, rfl, -⟩
    · simp only [List.nil_append, List.head?_cons, Option.mem_def, Option.some.injEq] at hy
      rw [← hy]
      exact ⟨rfl, by simp⟩
    · simp only [List.cons_append, List.head?_cons, Option.mem_def, Option.some.injEq] at hy
      rw [← hy]
      exact ⟨rfl, by simp⟩
  · intro y hy
    have hy' : y ∈ (⟨b, g.stHeader + m, false⟩ :: rest).getLast? := by
      rw [List.getLast?_append] at hy
      simpa [List.getLast?_cons] using hy
    refine ⟨⟨a, g.stHeader + k, true⟩, by simp, ?_, fun _ => rfl⟩
    rw [hlast y hy']
    simp only [Chunk.stop]
    rcases hlead with ⟨-, rfl⟩ | ⟨j, -, rfl, hj, hjk, -⟩
    · omega
    · omega

theorem Taken.aligned {s s' : Heap} (h : Taken g bs bs' s s' n b m p)
    (ha : ∀ x ∈ bs, Aligned g x) : ∀ x ∈ bs', Aligned g x := by
  obtain ⟨l, r, a, k, lead, stSize, rest, rfl, rfl, hlead, hdvd, hcut, -⟩ := h.pieces
  have hhead := g.alignment_dvd_header
  obtain ⟨haddr, hlen⟩ := ha ⟨a, g.stHeader + k, true⟩ (by simp)
  have hk : g.ulAlignment ∣ k := (Nat.dvd_add_right hhead).mp hlen
  have hb : g.ulAlignment ∣ b ∧ g.ulAlignment ∣ a + k - b := by
    rcases hlead with ⟨-, rfl⟩ | ⟨j, -, rfl, -, -, hj⟩
    · exact ⟨haddr, by rwa [Nat.add_sub_cancel_left]⟩
    · exact ⟨Nat.dvd_add haddr hj, by rw [Nat.add_sub_add_left]; exact Nat.dvd_sub hk hj⟩
  intro x hx
  simp only [List.mem_append, List.mem_cons] at hx
  rcases hx with (hx | hx) | rfl | hx | hx
  · exact ha x (by simp [hx])
  · rcases hlead with ⟨rfl, -⟩ | ⟨j, rfl, -, -, -, hj⟩
    · simp at hx
    · rw [List.mem_singleton.mp hx]
      exact ⟨haddr, hj⟩
  · refine ⟨hb.1, Nat.dvd_add hhead ?_⟩
    rcases hcut with ⟨-, rfl⟩ | ⟨j, -, rfl, -⟩
    · exact hb.2
    · exact hdvd
  · rcases hcut with ⟨rfl, -⟩ | ⟨j, rfl, rfl, hj⟩
    · simp at hx
    · rw [List.mem_singleton.mp hx]
      refine ⟨Nat.dvd_add (Nat.dvd_add hb.1 hhead) hdvd, ?_⟩
      rw [hj] at hb
      exact (Nat.dvd_add_right hdvd).mp hb.2
  · exact ha x (by simp [hx])

namespace HeapSys

/-! ## The calls -/

theorem Inv.block_ne (h : Inv g s bs) (he : e ∈ s.live) (hx : x ∈ bs) (hf : x.free = true) :
    e.seg ≠ x.addr := by
  intro heq
  obtain ⟨n, hn, -⟩ := h.live e he
  have hxe := eq_of_addr h.rep.pos h.rep.nodup hn hx heq
  rw [← hxe] at hf
  simp at hf

/-- A part of a free range comes to be a block. -/
theorem Inv.taken (h : Inv g s bs) (hrep : Rep g h' bs') (ht : Taken g bs bs' s.heap h' n b m p) :
    Inv g { s with heap := h', live := ⟨b, p, n⟩ :: s.live } bs' := by
  obtain ⟨x, hx, hf, -, hmem⟩ := ht.source
  obtain ⟨htiled, hcover⟩ := ht.tiled h.tiled
  refine ⟨hrep, List.ne_nil_of_mem ht.mem_new, htiled, hcover.trans h.cover, ht.aligned h.aligned,
    fun e he => ?_, ?_, fun y hy hfy => ?_⟩
  · rcases List.mem_cons.mp he with rfl | he
    · exact ⟨m, ht.mem_new, ht.lo, ht.hi, ht.ptr⟩
    · refine (h.live e he).keep h.rep.pos h.rep.nodup hx (h.block_ne he hx hf) (fun c hc => ?_)
        fun y hy hfy _ => ht.mem_used hy hfy
      have hw := g.word_pos
      exact hmem c (by omega)
  · rw [List.map_cons, List.nodup_cons]
    refine ⟨fun hb => ?_, h.nodup⟩
    obtain ⟨e, he, heb⟩ := List.mem_map.mp hb
    obtain ⟨j, hj, -⟩ := h.live e he
    exact ht.new_ne h.rep hj rfl heb
  · rcases ht.used_cases hy hfy with rfl | hy
    · exact ⟨_, .head _, rfl⟩
    · obtain ⟨e, he, hey⟩ := h.used y hy hfy
      exact ⟨e, .tail _ he, hey⟩

/-- A range in use becomes free. -/
theorem Inv.release (h : Inv g s (l ++ ⟨a, g.stHeader + n, false⟩ :: r))
    (hrep : Rep g h' (Lib.release l ⟨a, g.stHeader + n, false⟩ r))
    (hmem : ∀ e ∈ s.live, e.seg ≠ a → Marked g s.heap.mem e.seg e.ptr → Marked g h'.mem e.seg e.ptr) :
    Inv g { s with heap := h', live := dropSeg (some a) s.live }
      (Lib.release l ⟨a, g.stHeader + n, false⟩ r) := by
  have hne : Lib.release l ⟨a, g.stHeader + n, false⟩ r ≠ [] := by
    intro hnil
    have hcover := cover_release (l := l) (x := ⟨a, g.stHeader + n, false⟩) (r := r)
    have hpos := g.header_pos
    have ha : a ∈ Lib.cover (l ++ ⟨a, g.stHeader + n, false⟩ :: r) :=
      mem_cover.mpr ⟨⟨a, g.stHeader + n, false⟩, by simp, le_rfl, by simp only [Chunk.stop]; omega⟩
    rw [← hcover, hnil] at ha
    simp at ha
  have hother {y : Chunk} (hy : y ∈ l ++ ⟨a, g.stHeader + n, false⟩ :: r) (hya : y.addr ≠ a) :
      y ∈ l ∨ y ∈ r := by
    rcases List.mem_append.mp hy with hy | hy
    · exact .inl hy
    · rcases List.mem_cons.mp hy with rfl | hy
      · exact absurd rfl hya
      · exact .inr hy
  refine ⟨hrep, hne, h.tiled.release, cover_release.trans h.cover, ?_, fun e he => ?_,
    dropSeg_nodup h.nodup, fun y hy hfy => ?_⟩
  · refine release_forall h.aligned (h.aligned ⟨a, g.stHeader + n, false⟩ (by simp))
      fun y z hy hz _ => ?_
    exact ⟨hy.1, Nat.dvd_add hy.2 hz.2⟩
  · obtain ⟨he, hea⟩ := mem_dropSeg.mp he
    obtain ⟨k, hk, hlo, hhi, hptr⟩ := h.live e he
    exact ⟨k, mem_release (hother hk hea) rfl, hlo, hhi, hptr.imp_right (hmem e he hea)⟩
  · have hold := mem_of_release hy hfy
    have hyl : y ∈ l ++ ⟨a, g.stHeader + n, false⟩ :: r := by
      rcases hold with hy | hy
      · simp [hy]
      · simp [hy]
    obtain ⟨e, he, hey⟩ := h.used y hyl hfy
    refine ⟨e, mem_dropSeg.mpr ⟨he, fun hea => ?_⟩, hey⟩
    have hya : y.addr = a := hey.symm.trans hea
    have haddr := addr_nodup h.rep.pos h.rep.nodup
    rw [List.map_append, List.map_cons, List.nodup_append, List.nodup_cons] at haddr
    rcases hold with hy | hy
    · exact haddr.2.2 y.addr (List.mem_map_of_mem hy) a (by simp) hya
    · have hmap : y.addr ∈ r.map Chunk.addr := List.mem_map_of_mem hy
      rw [hya] at hmap
      exact haddr.2.1.1 hmap

/-- A range in use changes its size, and the block in it is a new one. -/
theorem Inv.resize (h : Inv g s bs) (ha : ⟨a, g.stHeader + n, false⟩ ∈ bs) (hrep : Rep g h' bs')
    (htiled : Tiled s.Starts bs') (hcover : Lib.cover bs' = Lib.cover bs)
    (haligned : ∀ x ∈ bs', Aligned g x)
    (hkeep : ∀ y ∈ bs, y.free = false → y.addr ≠ a → y ∈ bs')
    (hback : ∀ y ∈ bs', y.free = false → y.addr = a ∨ y ∈ bs)
    (hnew : ⟨a, g.stHeader + m, false⟩ ∈ bs') (hk : k ≤ m)
    (hmem : MemOff s.heap h' (a + g.stHeader) (a + g.stHeader + n)) :
    Inv g { s with heap := h', live := ⟨a, a + g.stHeader, k⟩ :: dropSeg (some a) s.live } bs' := by
  refine ⟨hrep, List.ne_nil_of_mem hnew, htiled, hcover.trans h.cover, haligned, fun e he => ?_, ?_,
    fun y hy hfy => ?_⟩
  · rcases List.mem_cons.mp he with rfl | he
    · exact ⟨m, hnew, le_rfl, Nat.add_le_add_left hk _, .inl rfl⟩
    · obtain ⟨he, hea⟩ := mem_dropSeg.mp he
      refine (h.live e he).keep h.rep.pos h.rep.nodup ha hea (fun c hc => ?_) hkeep
      have hw := g.word_pos
      simp only [Chunk.stop] at hc
      exact hmem c (by omega)
  · rw [List.map_cons, List.nodup_cons]
    refine ⟨fun hb => ?_, dropSeg_nodup h.nodup⟩
    obtain ⟨e, he, hea⟩ := List.mem_map.mp hb
    exact (mem_dropSeg.mp he).2 hea
  · by_cases hya : y.addr = a
    · exact ⟨_, .head _, hya.symm⟩
    · rcases hback y hy hfy with hyb | hyb
      · exact absurd hyb hya
      · obtain ⟨e, he, hey⟩ := h.used y hyb hfy
        exact ⟨e, .tail _ (mem_dropSeg.mpr ⟨he, fun hea => hya (hey.symm.trans hea)⟩), hey⟩

/-- A range in use takes in the free one that follows it. -/
theorem Inv.grow
    (h : Inv g s (l ++ ⟨a, g.stHeader + n, false⟩ :: ⟨a + g.stHeader + n, g.stHeader + m, true⟩ :: r))
    (hrep : Rep g h' (l ++ ⟨a, g.stHeader + (n + (m + g.stHeader)), false⟩ :: r))
    (hmem : h'.mem = s.heap.mem) :
    Inv g { s with heap := h' } (l ++ ⟨a, g.stHeader + (n + (m + g.stHeader)), false⟩ :: r) := by
  have hlen : g.stHeader + (n + (m + g.stHeader)) = g.stHeader + n + (g.stHeader + m) := by omega
  have hb : a + g.stHeader + n = a + (g.stHeader + n) := Nat.add_assoc _ _ _
  have ht := h.tiled
  have hcover := h.cover
  have hold : l ++ ⟨a, g.stHeader + n, false⟩ :: ⟨a + g.stHeader + n, g.stHeader + m, true⟩ :: r =
      l ++ [⟨a, g.stHeader + n, false⟩, ⟨a + g.stHeader + n, g.stHeader + m, true⟩] ++ r := by simp
  have hcells : Lib.cover [⟨a, g.stHeader + (n + (m + g.stHeader)), false⟩] =
      Lib.cover [⟨a, g.stHeader + n, false⟩, ⟨a + g.stHeader + n, g.stHeader + m, true⟩] := by
    rw [cover_cons, cover_cons, cover_cons, cover_nil, List.append_nil, List.append_nil, hb,
      Chunk.cells_append a _ _ false true false, hlen]
  rw [hold] at ht hcover
  have hnew := ht.recut hcells (by simp)
    (fun y hy => by
      rw [List.mem_singleton.mp hy]
      exact Nat.add_pos_left g.header_pos _) (List.isChain_singleton _)
    (fun y hy => by
      simp only [List.head?_cons, Option.mem_def, Option.some.injEq] at hy
      rw [← hy]
      exact ⟨_, rfl, rfl, by simp⟩)
    (fun y hy => by
      simp only [List.getLast?_singleton, Option.mem_def, Option.some.injEq] at hy
      rw [← hy]
      refine ⟨_, rfl, ?_, by simp⟩
      simp only [Chunk.stop, List.getLast_cons_cons, List.getLast_singleton]
      omega)
  rw [List.append_assoc, List.singleton_append] at hnew
  have hkeep {y : Chunk} (hy : y ∈ l ++ ⟨a, g.stHeader + n, false⟩ ::
      ⟨a + g.stHeader + n, g.stHeader + m, true⟩ :: r) (hf : y.free = false) :
      y = ⟨a, g.stHeader + n, false⟩ ∨
        y ∈ l ++ ⟨a, g.stHeader + (n + (m + g.stHeader)), false⟩ :: r := by
    simp only [List.mem_append, List.mem_cons] at hy ⊢
    rcases hy with hy | hy | rfl | hy
    · exact .inr (.inl hy)
    · exact .inl hy
    · simp at hf
    · exact .inr (.inr (.inr hy))
  refine ⟨hrep, by simp, hnew, ?_, fun x hx => ?_, fun e he => ?_, h.nodup,
    fun y hy hfy => ?_⟩
  · rw [← hcover, cover_append (l := l ++ _), cover_append (l := l) (r := [_, _]), ← hcells]
    simp
  · rcases List.mem_append.mp hx with hx | hx
    · exact h.aligned x (by simp [hx])
    · rcases List.mem_cons.mp hx with rfl | hx
      · have h₁ := h.aligned ⟨a, g.stHeader + n, false⟩ (by simp)
        have h₂ := h.aligned ⟨a + g.stHeader + n, g.stHeader + m, true⟩ (by simp)
        refine ⟨h₁.1, ?_⟩
        rw [hlen]
        exact Nat.dvd_add h₁.2 h₂.2
      · exact h.aligned x (by simp [hx])
  · obtain ⟨k, hk, hlo, hhi, hptr⟩ := h.live e he
    rw [← hmem] at hptr
    rcases hkeep hk rfl with heq | hk'
    · simp only [Chunk.mk.injEq] at heq
      refine ⟨n + (m + g.stHeader), ?_, hlo, by omega, hptr⟩
      rw [heq.1]
      simp
    · exact ⟨k, hk', hlo, hhi, hptr⟩
  · simp only [List.mem_append, List.mem_cons] at hy
    rcases hy with hy | rfl | hy
    · exact h.used y (by simp [hy]) hfy
    · exact h.used ⟨a, g.stHeader + n, false⟩ (by simp) rfl
    · exact h.used y (by simp [hy]) hfy

/-- The end of a range in use is given back if it is long enough; the block in the range is a new one
that fits. -/
theorem Inv.splitSegment (h : Inv g s (l ++ ⟨a, g.stHeader + n, false⟩ :: r)) (hle : m ≤ n)
    (hroom : g.bHeapCrossBorderEn = true → g.stWord ≤ m) (hdvd : g.ulAlignment ∣ m) (hk : k ≤ m) :
    ∃ h' bs', s.heap.splitSegment g a m = some h' ∧
      Inv g { s with heap := h', live := ⟨a, a + g.stHeader, k⟩ :: dropSeg (some a) s.live } bs' := by
  obtain ⟨h', bs', hsplit, hrep, hmem, hcase⟩ := h.rep.splitSegment (i := 0) hle (Nat.zero_le _)
    fun hb => (Nat.zero_add _).trans_le (hroom hb)
  have ha : ⟨a, g.stHeader + n, false⟩ ∈ l ++ ⟨a, g.stHeader + n, false⟩ :: r := by simp
  refine ⟨h', bs', hsplit, ?_⟩
  rcases hcase with rfl | ⟨j, rfl, rfl⟩
  · exact h.resize ha hrep h.tiled rfl h.aligned (fun y hy _ _ => hy) (fun y hy _ => .inr hy) ha
      (hk.trans hle) hmem
  · have hb : a + g.stHeader + m = a + (g.stHeader + m) := Nat.add_assoc _ _ _
    have hlen : g.stHeader + (m + (g.stHeader + j)) = g.stHeader + m + (g.stHeader + j) := by omega
    have hcells : Lib.cover [⟨a, g.stHeader + m, false⟩, ⟨a + g.stHeader + m, g.stHeader + j, false⟩] =
        Lib.cover [⟨a, g.stHeader + (m + (g.stHeader + j)), false⟩] := by
      rw [cover_cons, cover_cons, cover_cons, cover_nil, List.append_nil, List.append_nil, hb,
        Chunk.cells_append a _ _ false false false, hlen]
    have ht := h.tiled
    rw [List.append_cons] at ht
    have hcut := ht.recut hcells (by simp)
      (fun y hy => by
        have hpos := g.header_pos
        simp only [List.mem_cons, List.not_mem_nil, or_false] at hy
        rcases hy with rfl | rfl
        · exact Nat.add_pos_left hpos _
        · exact Nat.add_pos_left hpos _)
      (by
        rw [List.isChain_pair]
        exact .inr ⟨hb.symm, by simp⟩)
      (fun y hy => by
        simp only [List.head?_cons, Option.mem_def, Option.some.injEq] at hy
        rw [← hy]
        exact ⟨_, rfl, rfl, by simp⟩)
      (fun y hy => by
        simp only [List.getLast?_cons_cons, List.getLast?_singleton, Option.mem_def,
          Option.some.injEq] at hy
        rw [← hy]
        refine ⟨_, rfl, ?_, by simp⟩
        simp only [Chunk.stop, List.getLast_singleton]
        omega)
    have hsplitEq : l ++ [⟨a, g.stHeader + m, false⟩, ⟨a + g.stHeader + m, g.stHeader + j, false⟩] ++ r =
        l ++ [⟨a, g.stHeader + m, false⟩] ++ ⟨a + g.stHeader + m, g.stHeader + j, false⟩ :: r := by simp
    rw [hsplitEq] at hcut
    have hrel := hcut.release
    have hrelCover := cover_release (l := l ++ [⟨a, g.stHeader + m, false⟩])
      (x := ⟨a + g.stHeader + m, g.stHeader + j, false⟩) (r := r)
    rw [release_of_used rfl] at hrel hrelCover
    have haligned : ∀ x ∈ l ++ [⟨a, g.stHeader + m, false⟩] ++
        ⟨a + g.stHeader + m, g.stHeader + j, false⟩ :: r, Aligned g x := by
      have hhead := g.alignment_dvd_header
      obtain ⟨h₁, h₂⟩ := h.aligned ⟨a, g.stHeader + (m + (g.stHeader + j)), false⟩ (by simp)
      intro x hx
      simp only [List.mem_append, List.mem_cons, List.not_mem_nil, or_false] at hx
      rcases hx with (hx | rfl) | rfl | hx
      · exact h.aligned x (by simp [hx])
      · exact ⟨h₁, Nat.dvd_add hhead hdvd⟩
      · refine ⟨Nat.dvd_add (Nat.dvd_add h₁ hhead) hdvd, ?_⟩
        rw [hlen] at h₂
        exact (Nat.dvd_add_right (Nat.dvd_add hhead hdvd)).mp h₂
      · exact h.aligned x (by simp [hx])
    have hold {y : Chunk} (hy : y ∈ l ++ ⟨a, g.stHeader + m, false⟩ ::
        joinRight ⟨a + g.stHeader + m, g.stHeader + j, true⟩ r) (hf : y.free = false) :
        y.addr = a ∨ y ∈ l ∨ y ∈ r := by
      have hy' : y ∈ Lib.release (l ++ [⟨a, g.stHeader + m, false⟩])
          ⟨a + g.stHeader + m, g.stHeader + j, false⟩ r := by
        rw [release_of_used rfl]
        exact hy
      rcases mem_of_release hy' hf with hy | hy
      · rcases List.mem_append.mp hy with hy | hy
        · exact .inr (.inl hy)
        · rw [List.mem_singleton.mp hy]
          exact .inl rfl
      · exact .inr (.inr hy)
    refine h.resize ha hrep hrel ?_ ?_ (fun y hy hf hya => ?_) (fun y hy hf => ?_) (by simp) hk hmem
    · rw [hrelCover, ← hsplitEq, cover_append, cover_append (l := l), hcells]
      simp
    · have hfor := release_forall haligned (haligned ⟨a + g.stHeader + m, g.stHeader + j, false⟩
        (by simp)) fun y z hy hz _ => ⟨hy.1, Nat.dvd_add hy.2 hz.2⟩
      rwa [release_of_used rfl] at hfor
    · have hyr : y ∈ Lib.release (l ++ [⟨a, g.stHeader + m, false⟩])
          ⟨a + g.stHeader + m, g.stHeader + j, false⟩ r := by
        refine mem_release ?_ hf
        rcases List.mem_append.mp hy with hy | hy
        · simp [hy]
        · rcases List.mem_cons.mp hy with rfl | hy
          · exact absurd rfl hya
          · exact .inr hy
      rwa [release_of_used rfl] at hyr
    · refine (hold hy hf).imp_right fun hy => ?_
      rcases hy with hy | hy
      · simp [hy]
      · simp [hy]

/-- A block is moved to another range. -/
theorem Inv.moveBlock (h : Inv g s bs) (ha : ⟨a, g.stHeader + n, false⟩ ∈ bs) (hlt : n < m)
    (hk : k ≤ m) : ∃ h' o bs', s.heap.moveBlock g ⟨a, n⟩ m = some (h', o) ∧
      Inv g { s with
        heap := h'
        live := if o.isSome then addBlock g o k (dropSeg (some a) s.live) else s.live } bs' := by
  obtain ⟨h', o, hmove, hcase⟩ := h.rep.moveBlock ha hlt
  refine ⟨h', o, ?_⟩
  rcases hcase with ⟨rfl, rfl⟩ | ⟨b, j, bs₁, s₁, l₁, r₁, rfl, ht, hrep₁, rfl, hrep, hmem⟩
  · refine ⟨bs, hmove, h.rep.updataMaxUsed, h.ne, h.tiled, h.cover, h.aligned, fun e he => ?_, h.nodup,
      h.used⟩
    dsimp only
    rw [updataMaxUsed_mem]
    exact h.live e he
  · refine ⟨Lib.release l₁ ⟨a, g.stHeader + n, false⟩ r₁, hmove, ?_⟩
    have hshort : Taken g bs (l₁ ++ ⟨a, g.stHeader + n, false⟩ :: r₁) s.heap s₁ k b j
        (b + g.stHeader) := ⟨ht.pieces, ht.lo, by have := ht.hi; omega, ht.ptr⟩
    have hinv := h.taken hrep₁ hshort
    have hroom := ht.hi
    have hab : a ≠ b := ht.new_ne h.rep ha rfl
    have hrel := hinv.release hrep fun e he hea hm => ?_
    · have hlive : dropSeg (some a) (⟨b, b + g.stHeader, k⟩ :: s.live) =
          ⟨b, b + g.stHeader, k⟩ :: dropSeg (some a) s.live := by
        simp [dropSeg, hab.symm]
      rw [hlive] at hrel
      simpa [addBlock] using hrel
    · rcases List.mem_cons.mp he with rfl | he
      · have hle := hm.le
        have hal := g.alignment_pos
        dsimp only at hle
        omega
      · obtain ⟨i, hi, hlo, hhi, -⟩ := h.live e he
        have hi' := ht.mem_used hi rfl
        have hseg : e.seg ≠ b := ht.new_ne h.rep hi rfl
        have hapart := apart_of_mem hrep₁.pos hrep₁.nodup hi' ht.mem_new
          fun heq => hseg (congrArg Chunk.addr heq)
        refine hm.congr fun c hc hc' => (congrFun hmem c).trans (memOff_memcpy (Nat.mod_le n _) c ?_)
        have hw := g.word_pos
        simp only [Chunk.Apart, Chunk.stop] at hapart
        omega

/-! ## Pointers -/

/-- A call rejects a pointer, or takes it to be in a segment in use. -/
theorem Inv.segOf {v : Bool} (h : Inv g s bs) (hok : v = false → ∃ e ∈ s.live, e.ptr = p) :
    s.heap.segOf g p v = none ∨
      ∃ l a n r, s.heap.segOf g p v = some a ∧ bs = l ++ ⟨a, g.stHeader + n, false⟩ :: r := by
  cases v with
  | true =>
    cases hseg : s.heap.segOf g p true with
    | none => exact .inl rfl
    | some a =>
      obtain ⟨l, n, r, rfl⟩ := h.rep.segOf_verify hseg
      exact .inr ⟨l, a, n, r, rfl, rfl⟩
  | false =>
    obtain ⟨e, he, rfl⟩ := hok rfl
    obtain ⟨n, hn, -, -, hptr⟩ := h.live e he
    obtain ⟨l, r, rfl⟩ := List.append_of_mem hn
    exact .inr ⟨l, e.seg, n, r, h.rep.segOf_live hptr, rfl⟩

theorem Inv.heapFree {o : Option ℕ} {v : Bool} (h : Inv g s bs)
    (hok : v = false → ∀ p ∈ o, ∃ e ∈ s.live, e.ptr = p) :
    ∃ h' q bs', s.heap.heapFree g o v = some (h', q) ∧
      Inv g { s with heap := h', live := dropSeg (s.segOf g o v) s.live } bs' := by
  cases o with
  | none => exact ⟨s.heap, none, bs, rfl, by simpa [HeapSys.segOf] using h⟩
  | some p =>
    simp only [HeapSys.segOf, Option.bind_some]
    rcases h.segOf (p := p) (v := v) fun hv => hok hv p rfl with hseg | ⟨l, a, n, r, hseg, rfl⟩
    · refine ⟨s.heap, some p, bs, by simp only [Heap.heapFree, hseg], ?_⟩
      rw [hseg, dropSeg_none]
      exact h
    · obtain ⟨h', hfree, hrep, hmem⟩ := h.rep.heapFree hseg
      refine ⟨h', none, Lib.release l ⟨a, g.stHeader + n, false⟩ r, hfree, ?_⟩
      rw [hseg]
      exact h.release hrep fun e _ _ hm => hm.congr fun c _ _ => by rw [hmem]

/-- The data of a segment in use comes to be a block of another size. -/
theorem Inv.reallocSeg (h : Inv g s (l ++ ⟨a, g.stHeader + n, false⟩ :: r)) (stNewByteSize : ℕ) :
    ∃ h' o bs', s.heap.reallocSeg g a p stNewByteSize = some (h', o) ∧
      Inv g { s with
        heap := h'
        live := if o.isSome then addBlock g o stNewByteSize (dropSeg (some a) s.live)
          else s.live } bs' := by
  obtain ⟨left, right, hsplit, -, -, -⟩ := h.rep.seg
  have hsize : stNewByteSize ≤ g.segSize stNewByteSize :=
    HeapConf.le_crossbordSize.trans HeapConf.le_segSize
  have hroom : g.bHeapCrossBorderEn = true → g.stWord ≤ g.segSize stNewByteSize :=
    HeapConf.word_le_segSize
  have ha : ⟨a, g.stHeader + n, false⟩ ∈ l ++ ⟨a, g.stHeader + n, false⟩ :: r := by simp
  have hadd (live : List Block) : addBlock g (some (a + g.stHeader)) stNewByteSize live =
      ⟨a, a + g.stHeader, stNewByteSize⟩ :: live := by simp [addBlock]
  unfold Heap.reallocSeg
  simp only [hsplit, Option.bind_eq_bind, Option.bind_some]
  split_ifs with hp heq hlt
  · exact ⟨_, _, _, rfl, h⟩
  · have hptr : p = a + g.stHeader := not_not.mp hp
    refine ⟨_, _, l ++ ⟨a, g.stHeader + n, false⟩ :: r, rfl, ?_⟩
    simp only [hptr, Option.isSome_some, if_true, hadd]
    exact h.resize ha h.rep h.tiled rfl h.aligned (fun y hy _ _ => hy) (fun y hy _ => .inr hy) ha
      (by omega) fun _ _ => rfl
  · have hptr : p = a + g.stHeader := not_not.mp hp
    obtain ⟨o, hgrow, hcase⟩ := h.rep.growRight hlt
    simp only [hgrow, Option.bind_some]
    rcases hcase with rfl | ⟨h₁, m, r', rfl, rfl, hm, hrep, hmem⟩
    · exact h.moveBlock ha hlt hsize
    · have hinv := h.grow hrep hmem
      obtain ⟨h', bs', hs, hi⟩ := hinv.splitSegment hm hroom HeapConf.alignment_dvd_segSize hsize
      dsimp only at hs ⊢
      refine ⟨h', some p, bs', by rw [hs]; rfl, ?_⟩
      simp only [hptr, Option.isSome_some, if_true, hadd]
      exact hi
  · have hptr : p = a + g.stHeader := not_not.mp hp
    obtain ⟨h', bs', hs, hi⟩ := h.splitSegment (not_lt.mp hlt) hroom
      HeapConf.alignment_dvd_segSize hsize
    refine ⟨h', some p, bs', by rw [hs]; rfl, ?_⟩
    simp only [hptr, Option.isSome_some, if_true, hadd]
    exact hi

/-! ## A step -/

theorem Inv.realloc {o : Option ℕ} {v : Bool} {stNewByteSize : ℕ} (h : Inv g s bs)
    (hok : v = false → ∀ p ∈ o, ∃ e ∈ s.live, e.ptr = p) :
    ∃ s' bs', s.step g (.realloc o stNewByteSize v) = some s' ∧ Inv g s' bs' := by
  simp only [step, Heap.heapRealloc]
  by_cases hzero : stNewByteSize = 0
  · subst hzero
    obtain ⟨h', q, bs', hfree, hinv⟩ := h.heapFree hok
    cases o with
    | none => exact ⟨_, bs, rfl, by simpa [addBlock, HeapSys.segOf] using h⟩
    | some p =>
      simp only [if_true, true_or, hfree, Option.map_some, addBlock]
      exact ⟨_, bs', rfl, hinv⟩
  · simp only [hzero, if_false, false_or]
    cases o with
    | none =>
      obtain ⟨h', q, halloc, hcase⟩ := h.rep.heapAllocate (n := stNewByteSize)
      simp only [halloc, Option.map_some, HeapSys.segOf, Option.bind_none, dropSeg_none]
      rcases hcase with ⟨rfl, rfl⟩ | ⟨b, m, bs', rfl, hrep, -, ht⟩
      · exact ⟨_, bs, rfl, h⟩
      · refine ⟨_, bs', rfl, ?_⟩
        simpa [addBlock] using h.taken hrep ht
    | some p =>
      simp only [HeapSys.segOf, Option.bind_some]
      rcases h.segOf (p := p) (v := v) fun hv => hok hv p rfl with hseg | ⟨l, a, n, r, hseg, rfl⟩
      · simp only [hseg, Option.map_some]
        exact ⟨_, bs, rfl, by simpa using h⟩
      · obtain ⟨h', q, bs', hre, hinv⟩ := h.reallocSeg (p := p) stNewByteSize
        simp only [hseg, hre, Option.map_some]
        exact ⟨_, bs', rfl, hinv⟩

/-- New memory is a free range. -/
theorem Inv.addMemory {pvMemory stSize : ℕ} (h : Inv g s bs)
    (hok : s.StepOk g (.addMemory pvMemory stSize)) :
    ∃ s' bs', s.step g (.addMemory pvMemory stSize) = some s' ∧ Inv g s' bs' := by
  obtain ⟨hroom, happ⟩ := hok
  have hnew : ∀ c ∈ Lib.cover bs, ¬ ((g.region pvMemory stSize).addr ≤ c ∧
      c < (g.region pvMemory stSize).addr + (g.region pvMemory stSize).stSize) := by
    intro c hc hcr
    rw [h.cover, List.mem_flatMap] at hc
    obtain ⟨q, hq, hcq⟩ := hc
    rw [List.mem_range'_1] at hcq
    have hapart := happ q hq
    omega
  obtain ⟨h', hadd, hrep, hmem⟩ := h.rep.heapAddMemory h.ne hroom hnew
  have haddr : g.ulAlignment ∣ (g.region pvMemory stSize).addr := HeapConf.dvd_roundUp
  have hlen : g.ulAlignment ∣ (g.region pvMemory stSize).stSize := HeapConf.dvd_roundDown
  simp only [step, hadd, Option.map_some, if_true]
  generalize g.region pvMemory stSize = q at hroom hnew hrep hmem haddr hlen ⊢
  refine ⟨_, _, rfl, hrep, by simp, ?_, ?_, fun x hx => ?_, fun e he => ?_, h.nodup,
    fun y hy hfy => ?_⟩
  · refine (h.tiled.mono fun a ha => ?_).append ⟨q, by simp, rfl⟩ (g.header_pos.trans_le hroom) hnew
    obtain ⟨q', hq', hqa⟩ := ha
    exact ⟨q', by simp [hq'], hqa⟩
  · rw [cover_append, h.cover, List.flatMap_append]
    simp [Chunk.cells]
  · rcases List.mem_append.mp hx with hx | hx
    · exact h.aligned x hx
    · rw [List.mem_singleton.mp hx]
      exact ⟨haddr, hlen⟩
  · obtain ⟨n, hn, hlo, hhi, hptr⟩ := h.live e he
    refine ⟨n, by simp [hn], hlo, hhi, hptr.imp_right fun hm => hm.congr fun c hc hc' => hmem c ?_⟩
    have hw := g.word_pos
    have hin : c ∈ Lib.cover bs := mem_cover.mpr ⟨_, hn, by dsimp only; omega, by
      simp only [Chunk.stop]
      omega⟩
    have hout := hnew c hin
    omega
  · rcases List.mem_append.mp hy with hy | hy
    · exact h.used y hy hfy
    · rw [List.mem_singleton.mp hy] at hfy
      simp at hfy

/-- What a user writes to a block plays no part for the heap. -/
theorem Inv.write {mem : ℕ → ℕ} (h : Inv g s bs) (he : e ∈ s.live)
    (hmem : ∀ c, c + g.stWord ≤ e.ptr ∨ e.ptr + e.size ≤ c → mem c = s.heap.mem c) :
    Inv g { s with heap := { s.heap with mem } } bs := by
  obtain ⟨n, hn, hlo, hhi, -⟩ := h.live e he
  have hdata : ∀ c, c + g.stWord ≤ e.seg + g.stHeader ∨
      (Chunk.mk e.seg (g.stHeader + n) false).stop ≤ c → mem c = s.heap.mem c := by
    intro c hc
    simp only [Chunk.stop] at hc
    exact hmem c (by omega)
  refine ⟨h.rep.write hn hdata, h.ne, h.tiled, h.cover, h.aligned, fun f hf => ?_, h.nodup, h.used⟩
  by_cases hseg : f.seg = e.seg
  · obtain rfl : f = e := List.inj_on_of_nodup_map h.nodup hf he hseg
    obtain ⟨k, hk, hlo', hhi', hptr⟩ := h.live f hf
    refine ⟨k, hk, hlo', hhi', hptr.imp_right fun hm => hm.congr fun c _ hc => hmem c (.inl hc)⟩
  · exact (h.live f hf).keep h.rep.pos h.rep.nodup hn hseg hdata fun y hy _ _ => hy

/-- A call does not fail, and keeps the ranges. -/
theorem Inv.step {op : HeapOp} (h : Inv g s bs) (hok : s.StepOk g op) :
    ∃ s' bs', s.step g op = some s' ∧ Inv g s' bs' := by
  cases op with
  | alloc stByteSize =>
    obtain ⟨h', o, halloc, hcase⟩ := h.rep.heapAllocate (n := stByteSize)
    simp only [HeapSys.step, halloc, Option.map_some]
    rcases hcase with ⟨rfl, rfl⟩ | ⟨b, m, bs', rfl, hrep, -, ht⟩
    · exact ⟨_, bs, rfl, h⟩
    · refine ⟨_, bs', rfl, ?_⟩
      simpa [addBlock] using h.taken hrep ht
  | allocAlign stByteSize stAlign =>
    obtain ⟨h', o, halloc, hcase⟩ := h.rep.heapAllocateAlign (n := stByteSize) hok
      fun x hx => (h.aligned x hx).1
    simp only [HeapSys.step, halloc, Option.map_some]
    rcases hcase with ⟨rfl, rfl⟩ | ⟨b, m, p, bs', rfl, hrep, ht⟩
    · exact ⟨_, bs, rfl, h⟩
    · exact ⟨_, bs', rfl, h.taken hrep ht⟩
  | free o v =>
    obtain ⟨h', q, bs', hfree, hinv⟩ := h.heapFree hok
    simp only [HeapSys.step, hfree, Option.map_some]
    exact ⟨_, bs', rfl, hinv⟩
  | realloc o stNewByteSize v => exact h.realloc hok
  | addMemory pvMemory stSize => exact h.addMemory hok
  | write e mem => exact ⟨_, bs, rfl, h.write hok.1 hok.2⟩

theorem Init.inv (h : s.Init g) : ∃ bs, Inv g s bs := by
  obtain ⟨hlive, pvStartAddress, stByteSize, mem, hregions, hctor⟩ := h
  obtain ⟨hroom, hrep⟩ := heapCtor_some hctor
  have haddr : g.ulAlignment ∣ (g.region pvStartAddress stByteSize).addr := HeapConf.dvd_roundUp
  have hlen : g.ulAlignment ∣ (g.region pvStartAddress stByteSize).stSize := HeapConf.dvd_roundDown
  refine ⟨_, hrep, by simp, ⟨hrep.pos, hrep.nodup, fun x hx => ?_, List.isChain_singleton _⟩, ?_,
    fun x hx => ?_, ?_, ?_, fun x hx hf => ?_⟩
  · simp only [List.head?_cons, Option.mem_def, Option.some.injEq] at hx
    rw [← hx]
    exact ⟨_, by rw [hregions]; exact .head _, rfl⟩
  · rw [hregions]
    simp [Chunk.cells]
  · rw [List.mem_singleton.mp hx]
    exact ⟨haddr, hlen⟩
  · simp [hlive]
  · simp [hlive]
  · rw [List.mem_singleton.mp hx] at hf
    simp at hf

end HeapSys

end SylixOS.Kernel
