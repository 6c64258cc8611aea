import Mathlib

/-! # Ranges that tile regions

A list of ranges, each free or in use, that follow each other without a gap, except that a range may
start anew where a region starts. No two free ranges touch unless a region starts between them. The
list may be changed in the middle: what matters is that the new part covers the same addresses and
fits its neighbours.
-/

namespace SylixOS.Lib

/-- A range of addresses that is free or in use. -/
structure Chunk where
  addr : ℕ
  len : ℕ
  free : Bool
  deriving DecidableEq, Repr

namespace Chunk

/-- The first address after the range. -/
def stop (x : Chunk) : ℕ := x.addr + x.len

def cells (x : Chunk) : List ℕ := List.range' x.addr x.len

@[simp] theorem mem_cells {x : Chunk} {a : ℕ} : a ∈ x.cells ↔ x.addr ≤ a ∧ a < x.stop :=
  List.mem_range'_1

/-- Two ranges that follow each other are one. -/
theorem cells_append (a m n : ℕ) (f g h : Bool) :
    (Chunk.mk a m f).cells ++ (Chunk.mk (a + m) n g).cells = (Chunk.mk a (m + n) h).cells :=
  List.range'_append_1

/-- No address is in both ranges. -/
def Apart (x y : Chunk) : Prop := x.stop ≤ y.addr ∨ y.stop ≤ x.addr

instance : Std.Symm Apart := ⟨fun _ _ h => Or.symm h⟩

end Chunk

/-- The addresses of the ranges, in their order. -/
def cover (l : List Chunk) : List ℕ := l.flatMap Chunk.cells

variable {l r xs ys : List Chunk} {x y z : Chunk} {S : ℕ → Prop} {a : ℕ}

@[simp] theorem cover_nil : cover [] = [] := rfl

@[simp] theorem cover_cons : cover (x :: l) = x.cells ++ cover l := List.flatMap_cons

@[simp] theorem cover_append : cover (l ++ r) = cover l ++ cover r := List.flatMap_append

theorem mem_cover : a ∈ cover l ↔ ∃ x ∈ l, x.addr ≤ a ∧ a < x.stop := by
  simp [cover, List.mem_flatMap]

theorem length_cover : (cover l).length = (l.map Chunk.len).sum := by
  induction l with
  | nil => rfl
  | cons x l ih => simp [ih, Chunk.cells]

/-- Ranges that cover no address twice and are not empty lie apart. -/
theorem pairwise_apart (hpos : ∀ x ∈ l, 0 < x.len) (h : (cover l).Nodup) :
    l.Pairwise Chunk.Apart := by
  induction l with
  | nil => exact List.Pairwise.nil
  | cons x l ih =>
    rw [cover_cons, List.nodup_append] at h
    obtain ⟨-, hl, hdisj⟩ := h
    refine List.pairwise_cons.mpr ⟨fun y hy => ?_, ih (fun y hy => hpos y (.tail _ hy)) hl⟩
    have hx := hpos x (.head _)
    have hy' := hpos y (.tail _ hy)
    have hno (a : ℕ) (ha : x.addr ≤ a ∧ a < x.stop) (hb : y.addr ≤ a ∧ a < y.stop) : False :=
      hdisj a (Chunk.mem_cells.mpr ha) a (mem_cover.mpr ⟨y, hy, hb⟩) rfl
    by_contra hapart
    simp only [Chunk.Apart, Chunk.stop, not_or, not_le] at hapart hno
    by_cases hle : x.addr ≤ y.addr
    · exact hno y.addr ⟨hle, hapart.1⟩ ⟨le_rfl, by omega⟩
    · exact hno x.addr ⟨le_rfl, by omega⟩ ⟨by omega, hapart.2⟩

theorem apart_of_mem (hpos : ∀ x ∈ l, 0 < x.len) (h : (cover l).Nodup) (hx : x ∈ l) (hy : y ∈ l)
    (hne : x ≠ y) : x.Apart y :=
  (pairwise_apart hpos h).forall hx hy hne

/-- An address is in one range at most. -/
theorem eq_of_mem (hpos : ∀ x ∈ l, 0 < x.len) (h : (cover l).Nodup) (hx : x ∈ l) (hy : y ∈ l)
    (hax : x.addr ≤ a ∧ a < x.stop) (hay : y.addr ≤ a ∧ a < y.stop) : x = y := by
  by_contra hne
  rcases apart_of_mem hpos h hx hy hne with hapart | hapart
  · omega
  · omega

theorem eq_of_addr (hpos : ∀ x ∈ l, 0 < x.len) (h : (cover l).Nodup) (hx : x ∈ l) (hy : y ∈ l)
    (hxy : x.addr = y.addr) : x = y := by
  have hx' := hpos x hx
  have hy' := hpos y hy
  refine eq_of_mem hpos h hx hy (a := x.addr) ⟨le_rfl, ?_⟩ ⟨hxy.ge, ?_⟩
  · rw [Chunk.stop]
    omega
  · rw [Chunk.stop, hxy]
    omega

theorem addr_nodup (hpos : ∀ x ∈ l, 0 < x.len) (h : (cover l).Nodup) :
    (l.map Chunk.addr).Nodup := by
  have hne (x y : Chunk) (hx : x ∈ l) (hy : y ∈ l) (hxy : x.Apart y) : x.addr ≠ y.addr := by
    have hx' := hpos x hx
    have hy' := hpos y hy
    simp only [Chunk.Apart, Chunk.stop] at hxy
    omega
  rw [List.Nodup, List.pairwise_map]
  exact (pairwise_apart hpos h).imp_of_mem fun hx hy hxy => hne _ _ hx hy hxy

/-- The second range may follow the first one. -/
def Link (S : ℕ → Prop) (x y : Chunk) : Prop :=
  S y.addr ∨ x.stop = y.addr ∧ ¬ (x.free = true ∧ y.free = true)

/-- The ranges tile the regions that start at the addresses in `S`. -/
structure Tiled (S : ℕ → Prop) (l : List Chunk) : Prop where
  pos : ∀ x ∈ l, 0 < x.len
  nodup : (cover l).Nodup
  head : ∀ x ∈ l.head?, S x.addr
  chain : l.IsChain (Link S)

/-- Ranges in the middle are replaced. -/
theorem Tiled.replace (h : Tiled S (l ++ xs ++ r)) (hcover : cover ys = cover xs) (hne : ys ≠ [])
    (hpos : ∀ y ∈ ys, 0 < y.len) (hchain : ys.IsChain (Link S))
    (hhead : l = [] → ∀ y ∈ ys.head?, S y.addr)
    (hl : ∀ x ∈ l.getLast?, ∀ y ∈ ys.head?, Link S x y)
    (hr : ∀ y ∈ ys.getLast?, ∀ z ∈ r.head?, Link S y z) : Tiled S (l ++ ys ++ r) := by
  have hc := h.chain
  rw [List.append_assoc, List.isChain_append, List.isChain_append] at hc
  refine ⟨fun x hx => ?_, ?_, ?_, ?_⟩
  · rcases List.mem_append.mp hx with hx | hx
    · rcases List.mem_append.mp hx with hx | hx
      · exact h.pos x (by simp [hx])
      · exact hpos x hx
    · exact h.pos x (by simp [hx])
  · have hn := h.nodup
    simp only [cover_append] at hn ⊢
    rw [hcover]
    exact hn
  · cases l with
    | nil =>
      obtain ⟨y, ys', rfl⟩ := List.exists_cons_of_ne_nil hne
      simpa using hhead rfl
    | cons x l => simpa using h.head x
  · rw [List.append_assoc, List.isChain_append, List.isChain_append]
    refine ⟨hc.1, ⟨hchain, hc.2.1.2.1, hr⟩, fun x hx y hy => hl x hx y ?_⟩
    obtain ⟨z, ys', rfl⟩ := List.exists_cons_of_ne_nil hne
    simpa using hy

/-- What may follow a range may also follow if it is in use. -/
theorem Link.left (h : Link S x y) (haddr : z.addr = y.addr) (hfree : z.free = true → y.free = true) :
    Link S x z := by
  rw [Link, haddr]
  exact h.imp_right fun h => ⟨h.1, fun hf => h.2 ⟨hf.1, hfree hf.2⟩⟩

theorem Link.right (h : Link S x z) (hstop : y.stop = x.stop) (hfree : y.free = true → x.free = true) :
    Link S y z := by
  rw [Link, hstop]
  exact h.imp_right fun h => ⟨h.1, fun hf => h.2 ⟨hfree hf.1, hf.2⟩⟩

/-- Ranges in the middle are cut or put together anew. -/
theorem Tiled.recut (h : Tiled S (l ++ xs ++ r)) (hcover : cover ys = cover xs) (hne : ys ≠ [])
    (hpos : ∀ y ∈ ys, 0 < y.len) (hchain : ys.IsChain (Link S))
    (hhead : ∀ y ∈ ys.head?, ∃ x ∈ xs.head?, y.addr = x.addr ∧ (y.free = true → x.free = true))
    (hlast : ∀ y ∈ ys.getLast?, ∃ x ∈ xs.getLast?, y.stop = x.stop ∧
      (y.free = true → x.free = true)) : Tiled S (l ++ ys ++ r) := by
  have hc := h.chain
  rw [List.append_assoc, List.isChain_append, List.isChain_append] at hc
  refine h.replace hcover hne hpos hchain (fun hl y hy => ?_) (fun x hx y hy => ?_)
    (fun y hy z hz => ?_)
  · obtain ⟨x, hx, haddr, -⟩ := hhead y hy
    rw [haddr]
    refine h.head x ?_
    rw [hl, List.nil_append, List.head?_append]
    simp [Option.mem_def.mp hx]
  · obtain ⟨w, hw, haddr, hfree⟩ := hhead y hy
    refine (hc.2.2 x hx w ?_).left haddr hfree
    rw [List.head?_append]
    simp [Option.mem_def.mp hw]
  · obtain ⟨w, hw, hstop, hfree⟩ := hlast y hy
    exact (hc.2.1.2.2 w hw z hz).right hstop hfree

/-- A new region at the end. -/
theorem Tiled.append (h : Tiled S l) (hS : S y.addr) (hpos : 0 < y.len)
    (hnew : ∀ a ∈ cover l, ¬ (y.addr ≤ a ∧ a < y.stop)) : Tiled S (l ++ [y]) where
  pos x hx := by
    rcases List.mem_append.mp hx with hx | hx
    · exact h.pos x hx
    · rw [List.mem_singleton.mp hx]
      exact hpos
  nodup := by
    rw [cover_append, List.nodup_append]
    refine ⟨h.nodup, ?_, fun a ha b hb hab => ?_⟩
    · simpa [Chunk.cells] using List.nodup_range'
    · subst hab
      simp only [cover_cons, cover_nil, List.append_nil, Chunk.mem_cells] at hb
      exact hnew a ha hb
  head x hx := by
    cases l with
    | nil =>
      simp only [List.nil_append, List.head?_cons, Option.mem_def, Option.some.injEq] at hx
      rw [← hx]
      exact hS
    | cons z l => exact h.head x (by simpa using hx)
  chain := by
    rw [List.isChain_append]
    refine ⟨h.chain, List.isChain_singleton _, fun x _ z hz => .inl ?_⟩
    simp only [List.head?_cons, Option.mem_def, Option.some.injEq] at hz
    rw [← hz]
    exact hS

theorem Tiled.mono {S' : ℕ → Prop} (h : Tiled S l) (hS : ∀ a, S a → S' a) : Tiled S' l where
  pos := h.pos
  nodup := h.nodup
  head x hx := hS _ (h.head x hx)
  chain := h.chain.imp fun _ _ hxy => hxy.imp (hS _) id

/-- Every range starts a region or follows another one. -/
theorem Tiled.before (h : Tiled S l) (hy : y ∈ l) (hS : ¬ S y.addr) :
    ∃ z ∈ l, z.stop = y.addr ∧ ¬ (z.free = true ∧ y.free = true) := by
  obtain ⟨l₁, l₂, rfl⟩ := List.append_of_mem hy
  rcases List.eq_nil_or_concat l₁ with rfl | ⟨l₁, z, rfl⟩
  · exact absurd (h.head y rfl) hS
  · have hc := h.chain
    rw [List.concat_eq_append, List.append_assoc, List.singleton_append,
      List.isChain_append_cons_cons] at hc
    exact ⟨z, by simp, hc.2.1.resolve_left hS⟩

/-- Two free ranges touch only where a region starts. -/
theorem Tiled.coalesced (h : Tiled S l) (hx : x ∈ l) (hy : y ∈ l) (hfx : x.free = true)
    (hfy : y.free = true) (hxy : x.stop = y.addr) : S y.addr := by
  by_contra hS
  obtain ⟨z, hz, hzy, hfree⟩ := h.before hy hS
  have hx' := h.pos x hx
  have hz' := h.pos z hz
  simp only [Chunk.stop] at hxy hzy
  have heq : x = z := eq_of_mem h.pos h.nodup hx hz (a := y.addr - 1)
    ⟨by omega, by rw [Chunk.stop]; omega⟩ ⟨by omega, by rw [Chunk.stop]; omega⟩
  rw [← heq] at hfree
  exact hfree ⟨hfx, hfy⟩

/-- The ranges are cut where the addresses do not go on. -/
theorem cover_eq_append {as bs : List ℕ} (h : cover l = as ++ bs)
    (hgap : ∀ a ∈ as.getLast?, ∀ b ∈ bs.head?, b ≠ a + 1) :
    ∃ l₁ l₂, l = l₁ ++ l₂ ∧ cover l₁ = as ∧ cover l₂ = bs := by
  induction l generalizing as with
  | nil =>
    obtain ⟨rfl, rfl⟩ := List.append_eq_nil_iff.mp h.symm
    exact ⟨[], [], rfl, rfl, rfl⟩
  | cons x l ih =>
    rw [cover_cons, List.append_eq_append_iff] at h
    rcases h with ⟨cs, rfl, hl⟩ | ⟨cs, hx, rfl⟩
    · rcases List.eq_nil_or_concat cs with rfl | ⟨cs, c, rfl⟩
      · exact ⟨[x], l, rfl, by simp, by simpa using hl⟩
      · obtain ⟨l₁, l₂, rfl, h₁, h₂⟩ := ih hl fun a ha b hb => hgap a (by simpa using ha) b hb
        exact ⟨x :: l₁, l₂, rfl, by rw [cover_cons, h₁], h₂⟩
    · rcases List.eq_nil_or_concat as with rfl | ⟨as, a, rfl⟩
      · exact ⟨[], x :: l, rfl, rfl, by rw [cover_cons, hx, List.nil_append]⟩
      · cases cs with
        | nil => exact ⟨[x], l, rfl, by simpa using hx, by simp⟩
        | cons c cs =>
          have hstep := List.isChain_range' x.addr x.len 1
          rw [Chunk.cells] at hx
          rw [hx, List.concat_eq_append, List.append_assoc, List.singleton_append,
            List.isChain_append_cons_cons] at hstep
          exact absurd hstep.2.1 (hgap a (by simp) c (by simp))

/-! ## A range becomes free -/

/-- A free range is joined with the free range that it follows. -/
def joinLeft (l : List Chunk) (x : Chunk) : List Chunk × Chunk :=
  match l.getLast? with
  | none => (l, x)
  | some y =>
    if y.free = true ∧ y.stop = x.addr then (l.dropLast, ⟨y.addr, y.len + x.len, true⟩) else (l, x)

/-- A free range is joined with the free range that follows it. -/
def joinRight (x : Chunk) : List Chunk → List Chunk
  | [] => [x]
  | y :: r =>
    if y.free = true ∧ x.stop = y.addr then ⟨x.addr, x.len + y.len, true⟩ :: r else x :: y :: r

/-- A range becomes free, and is joined with the free ranges next to it. -/
def release (l : List Chunk) (x : Chunk) (r : List Chunk) : List Chunk :=
  (joinLeft l { x with free := true }).1 ++ joinRight (joinLeft l { x with free := true }).2 r

theorem joinLeft_cases (l : List Chunk) (x : Chunk) :
    (joinLeft l x = (l, x) ∧ ∀ y ∈ l.getLast?, ¬ (y.free = true ∧ y.stop = x.addr)) ∨
      ∃ l₁ y, l = l₁ ++ [y] ∧ y.free = true ∧ y.stop = x.addr ∧
        joinLeft l x = (l₁, ⟨y.addr, y.len + x.len, true⟩) := by
  rcases List.eq_nil_or_concat l with rfl | ⟨l₁, y, rfl⟩
  · exact .inl ⟨rfl, by simp⟩
  · rw [List.concat_eq_append]
    by_cases hy : y.free = true ∧ y.stop = x.addr
    · refine .inr ⟨l₁, y, rfl, hy.1, hy.2, ?_⟩
      simp only [joinLeft, List.getLast?_append, List.getLast?_singleton, Option.some_or,
        if_pos hy, List.dropLast_concat]
    · refine .inl ⟨?_, ?_⟩
      · simp only [joinLeft, List.getLast?_append, List.getLast?_singleton, Option.some_or,
          if_neg hy]
      · simpa using hy

theorem joinRight_cases (x : Chunk) (r : List Chunk) :
    (joinRight x r = x :: r ∧ ∀ y ∈ r.head?, ¬ (y.free = true ∧ x.stop = y.addr)) ∨
      ∃ r₁ y, r = y :: r₁ ∧ y.free = true ∧ x.stop = y.addr ∧
        joinRight x r = ⟨x.addr, x.len + y.len, true⟩ :: r₁ := by
  cases r with
  | nil => exact .inl ⟨rfl, by simp⟩
  | cons y r =>
    by_cases hy : y.free = true ∧ x.stop = y.addr
    · exact .inr ⟨r, y, rfl, hy.1, hy.2, by rw [joinRight, if_pos hy]⟩
    · exact .inl ⟨by rw [joinRight, if_neg hy], by simpa using hy⟩

theorem cells_join {x y : Chunk} (h : x.stop = y.addr) (f : Bool) :
    (Chunk.mk x.addr (x.len + y.len) f).cells = x.cells ++ y.cells := by
  obtain ⟨a, m, fx⟩ := x
  obtain ⟨b, n, fy⟩ := y
  subst h
  exact (Chunk.cells_append a m n fx fy f).symm

theorem cover_joinRight : cover (joinRight x r) = x.cells ++ cover r := by
  rcases joinRight_cases x r with ⟨h, -⟩ | ⟨r₁, y, rfl, -, hxy, h⟩
  · rw [h, cover_cons]
  · rw [h, cover_cons, cover_cons, cells_join hxy, List.append_assoc]

theorem cover_joinLeft : cover (joinLeft l x).1 ++ (joinLeft l x).2.cells = cover l ++ x.cells := by
  rcases joinLeft_cases l x with ⟨h, -⟩ | ⟨l₁, y, rfl, -, hyx, h⟩
  · rw [h]
  · rw [h, cells_join hyx, cover_append, cover_cons, cover_nil, List.append_nil, List.append_assoc]

theorem cover_release : cover (release l x r) = cover (l ++ x :: r) := by
  rw [release, cover_append, cover_joinRight, ← List.append_assoc, cover_joinLeft, cover_append,
    cover_cons, List.append_assoc]
  rfl

/-- A free range that is not joined to its left follows what is there. -/
theorem Tiled.joinLeft (h : Tiled S (l ++ x :: r)) :
    Tiled S ((Lib.joinLeft l { x with free := true }).1 ++ [(Lib.joinLeft l { x with free := true }).2]) := by
  have hx := h.pos x (by simp)
  have hc := h.chain
  rw [List.isChain_append, List.isChain_cons] at hc
  have hstart : Tiled S (l ++ [x] ++ []) := by
    refine ⟨fun y hy => h.pos y ?_, ?_, fun y hy => h.head y ?_, ?_⟩
    · simp only [List.append_nil, List.mem_append, List.mem_singleton] at hy
      rcases hy with hy | hy
      · simp [hy]
      · simp [hy]
    · have hn := h.nodup
      rw [cover_append, cover_cons, ← List.append_assoc] at hn
      simpa using hn.of_append_left
    · cases l with
      | nil => simpa using hy
      | cons z l => simpa using hy
    · rw [List.append_nil, List.isChain_append]
      exact ⟨hc.1, List.isChain_singleton _, fun y hy z hz => hc.2.2 y hy z (by simpa using hz)⟩
  rcases joinLeft_cases l { x with free := true } with ⟨heq, hno⟩ | ⟨l₁, y, rfl, hy, hyx, heq⟩
  · rw [heq]
    have hnew := @Tiled.replace _ _ _ [{ x with free := true }] _ hstart rfl (by simp) (by simpa using hx)
      (List.isChain_singleton _) (fun hl y hy => ?_) (fun y hy z hz => ?_) (by simp)
    · simpa using hnew
    · subst hl
      have hhead := h.head x rfl
      simp only [List.head?_cons, Option.mem_def, Option.some.injEq] at hy
      rw [← hy]
      exact hhead
    · have hlink := hc.2.2 y hy x rfl
      simp only [List.head?_cons, Option.mem_def, Option.some.injEq] at hz
      subst hz
      have hyno := hno y hy
      rcases hlink with hS | ⟨hstop, -⟩
      · exact .inl hS
      · exact .inr ⟨hstop, fun hf => hyno ⟨hf.1, hstop⟩⟩
  · rw [heq]
    have hmid : Tiled S (l₁ ++ [y, x] ++ []) := by simpa using hstart
    have hcl := hc.1
    rw [List.isChain_append] at hcl
    have hnew := @Tiled.replace _ _ _ [⟨y.addr, y.len + x.len, true⟩] _ hmid ?_ (by simp) ?_
      (List.isChain_singleton _) (fun hl z hz => ?_) (fun z hz w hw => ?_) (by simp)
    · simpa using hnew
    · rw [cover_cons, cells_join (y := x) hyx, cover_cons, cover_cons, cover_nil, List.append_nil,
        List.append_nil]
    · intro z hz
      rw [List.mem_singleton.mp hz]
      exact Nat.add_pos_right _ hx
    · subst hl
      have hhead := h.head y rfl
      simp only [List.head?_cons, Option.mem_def, Option.some.injEq] at hz
      rw [← hz]
      exact hhead
    · have hlink := hcl.2.2 z hz y rfl
      simp only [List.head?_cons, Option.mem_def, Option.some.injEq] at hw
      subst hw
      rw [Link, hy] at hlink
      exact hlink

/-- What comes before a range only sees where it starts and whether it is free. -/
theorem isChain_last_congr (h : (l ++ [x]).IsChain (Link S)) (haddr : y.addr = x.addr)
    (hfree : y.free = x.free) : (l ++ [y]).IsChain (Link S) := by
  rw [List.isChain_append] at h ⊢
  refine ⟨h.1, List.isChain_singleton _, fun z hz w hw => ?_⟩
  have hlink := h.2.2 z hz x rfl
  simp only [List.head?_cons, Option.mem_def, Option.some.injEq] at hw
  rw [← hw, Link, haddr, hfree]
  exact hlink

theorem joinLeft_stop : (joinLeft l x).2.stop = x.stop := by
  rcases joinLeft_cases l x with ⟨h, -⟩ | ⟨l₁, y, -, -, hyx, h⟩
  · rw [h]
  · rw [h]
    simp only [Chunk.stop] at hyx ⊢
    omega

theorem joinLeft_free : (joinLeft l { x with free := true }).2.free = true := by
  rcases joinLeft_cases l { x with free := true } with ⟨h, -⟩ | ⟨l₁, y, -, -, -, h⟩
  · rw [h]
  · rw [h]

/-- The list stays a tiling when a range becomes free. -/
theorem Tiled.release (h : Tiled S (l ++ x :: r)) : Tiled S (Lib.release l x r) := by
  have hleft := h.joinLeft
  have hcover := cover_release (l := l) (x := x) (r := r)
  have hstop : (Lib.joinLeft l { x with free := true }).2.stop = x.stop := joinLeft_stop
  have hfree := joinLeft_free (l := l) (x := x)
  rw [Lib.release] at hcover ⊢
  generalize Lib.joinLeft l { x with free := true } = lx at hleft hcover hstop hfree ⊢
  obtain ⟨l', x'⟩ := lx
  dsimp only at hleft hcover hstop hfree ⊢
  have hx' := hleft.pos x' (by simp)
  have hc := h.chain
  rw [List.isChain_split, List.isChain_cons] at hc
  have hposr (z : Chunk) (hz : z ∈ r) : 0 < z.len := h.pos z (by simp [hz])
  rcases joinRight_cases x' r with ⟨heq, hno⟩ | ⟨r₁, y, rfl, hy, hxy, heq⟩
  · rw [heq] at hcover ⊢
    refine ⟨fun z hz => ?_, hcover ▸ h.nodup, fun z hz => hleft.head z ?_, ?_⟩
    · rcases List.mem_append.mp hz with hz | hz
      · exact hleft.pos z (by simp [hz])
      · rcases List.mem_cons.mp hz with rfl | hz
        · exact hx'
        · exact hposr z hz
    · cases l' with
      | nil => simpa using hz
      | cons w l' => simpa using hz
    · rw [List.isChain_split, List.isChain_cons]
      refine ⟨hleft.chain, fun z hz => ?_, hc.2.2⟩
      have hlink := hc.2.1 z hz
      rw [Link, ← hstop] at hlink
      exact hlink.imp_right fun hl => ⟨hl.1, fun hf => hno z hz ⟨hf.2, hl.1⟩⟩
  · rw [heq] at hcover ⊢
    refine ⟨fun z hz => ?_, hcover ▸ h.nodup, fun z hz => ?_, ?_⟩
    · rcases List.mem_append.mp hz with hz | hz
      · exact hleft.pos z (by simp [hz])
      · rcases List.mem_cons.mp hz with rfl | hz
        · exact Nat.add_pos_left hx' _
        · exact hposr z (.tail _ hz)
    · cases l' with
      | nil =>
        have hhead := hleft.head x' rfl
        simp only [List.nil_append, List.head?_cons, Option.mem_def, Option.some.injEq] at hz
        rw [← hz]
        exact hhead
      | cons w l' => exact hleft.head z (by simpa using hz)
    · rw [List.isChain_split, List.isChain_cons]
      have hcr := hc.2.2
      rw [List.isChain_cons] at hcr
      refine ⟨isChain_last_congr hleft.chain rfl hfree.symm, fun z hz => ?_, hcr.2⟩
      have hlink := hcr.1 z hz
      have hstop' : (Chunk.mk x'.addr (x'.len + y.len) true).stop = y.stop := by
        simp only [Chunk.stop] at hxy ⊢
        omega
      rw [Link, hy] at hlink
      rw [Link, hstop']
      exact hlink

/-- The ranges in use stay when another one becomes free. -/
theorem mem_release (hy : y ∈ l ∨ y ∈ r) (hf : y.free = false) : y ∈ Lib.release l x r := by
  have hright (z : Chunk) (hy : y ∈ r) : y ∈ joinRight z r := by
    rcases joinRight_cases z r with ⟨h, -⟩ | ⟨r₁, w, rfl, hw, -, h⟩
    · simp [h, hy]
    · rcases List.mem_cons.mp hy with rfl | hy
      · simp [hw] at hf
      · simp [h, hy]
  rw [Lib.release, List.mem_append]
  rcases hy with hy | hy
  · left
    rcases joinLeft_cases l { x with free := true } with ⟨h, -⟩ | ⟨l₁, w, rfl, hw, -, h⟩
    · simp [h, hy]
    · rcases List.mem_append.mp hy with hy | hy
      · simp [h, hy]
      · rw [List.mem_singleton.mp hy, hw] at hf
        simp at hf
  · exact .inr (hright _ hy)

/-- The ranges in use after a release are old ones. -/
theorem mem_of_release (hy : y ∈ Lib.release l x r) (hf : y.free = false) : y ∈ l ∨ y ∈ r := by
  have hright {z : Chunk} (hz : z.free = true) (hy : y ∈ joinRight z r) : y ∈ r := by
    rcases joinRight_cases z r with ⟨h, -⟩ | ⟨r₁, w, rfl, -, -, h⟩
    · rw [h] at hy
      rcases List.mem_cons.mp hy with rfl | hy
      · simp [hz] at hf
      · exact hy
    · rw [h] at hy
      rcases List.mem_cons.mp hy with rfl | hy
      · simp at hf
      · simp [hy]
  rw [Lib.release, List.mem_append] at hy
  rcases hy with hy | hy
  · left
    rcases joinLeft_cases l { x with free := true } with ⟨h, -⟩ | ⟨l₁, w, rfl, -, -, h⟩
    · rwa [h] at hy
    · rw [h] at hy
      simp [hy]
  · exact .inr (hright joinLeft_free hy)

/-- What holds of ranges and of joined ranges holds after a release. -/
theorem release_forall {P : Chunk → Prop} (h : ∀ z ∈ l ++ x :: r, P z)
    (hfree : P { x with free := true })
    (hjoin : ∀ y z, P y → P z → y.stop = z.addr → P ⟨y.addr, y.len + z.len, true⟩) :
    ∀ z ∈ Lib.release l x r, P z := by
  have hleft : (∀ z ∈ (Lib.joinLeft l { x with free := true }).1, P z) ∧
      P (Lib.joinLeft l { x with free := true }).2 := by
    rcases joinLeft_cases l { x with free := true } with ⟨heq, -⟩ | ⟨l₁, y, rfl, -, hyx, heq⟩
    · rw [heq]
      exact ⟨fun z hz => h z (by simp [hz]), hfree⟩
    · rw [heq]
      exact ⟨fun z hz => h z (by simp [hz]), hjoin y _ (h y (by simp)) hfree hyx⟩
  intro z hz
  rw [Lib.release, List.mem_append] at hz
  rcases hz with hz | hz
  · exact hleft.1 z hz
  · rcases joinRight_cases (Lib.joinLeft l { x with free := true }).2 r with
      ⟨heq, -⟩ | ⟨r₁, y, rfl, -, hxy, heq⟩
    · rw [heq] at hz
      rcases List.mem_cons.mp hz with rfl | hz
      · exact hleft.2
      · exact h z (by simp [hz])
    · rw [heq] at hz
      rcases List.mem_cons.mp hz with rfl | hz
      · exact hjoin _ y hleft.2 (h y (by simp)) hxy
      · exact h z (by simp [hz])

end SylixOS.Lib
