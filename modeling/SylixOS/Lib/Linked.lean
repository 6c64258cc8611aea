import Mathlib.Data.List.Cycle
import Mathlib.Logic.Function.Basic

/-! # Doubly linked nodes

A node has a link forward and a link backward. A place is a node, or no node where a list ends. Two
places are joined where links lead from one to the other and back, and a ring is a cycle of places each
joined with the following one: a list with two ends is a ring through the place that is no node. A node
enters a ring where two neighbours are both joined with it, and leaves it where they are joined.
-/

namespace SylixOS.Lib
open Function

/-- The links of all nodes. -/
@[ext] structure NodeLinks (T : Type*) where
  next : T → Option T
  prev : T → Option T

/-- The nodes that are met along a link, at most `n`. -/
def nodesAlong {T : Type*} (link : T → Option T) : ℕ → Option T → List T
  | 0, _ => []
  | _ + 1, none => []
  | n + 1, some t => t :: nodesAlong link n (link t)

namespace NodeLinks

variable {T : Type*}

/-- The links with the two directions exchanged. -/
def flip (m : NodeLinks T) : NodeLinks T := ⟨m.prev, m.next⟩

/-- The links from one place to another and back, where these are nodes. -/
def Joined (m : NodeLinks T) (a b : Option T) : Prop :=
  (∀ t, a = some t → m.next t = b) ∧ ∀ t, b = some t → m.prev t = a

/-- Places that are joined one after the other. -/
def Path (m : NodeLinks T) (p : List (Option T)) : Prop := List.IsChain m.Joined p

/-- Places that are joined all around. -/
def Ring (m : NodeLinks T) (c : Cycle (Option T)) : Prop := c.Chain m.Joined

/-- Both links of a node are as before. -/
def SameAt (m m' : NodeLinks T) (t : T) : Prop := m'.next t = m.next t ∧ m'.prev t = m.prev t

section Write
variable [DecidableEq T]

/-- `next` of a node is written. -/
def setNext (m : NodeLinks T) (t : T) (u : Option T) : NodeLinks T :=
  { m with next := update m.next t u }

/-- `prev` of a node is written. -/
def setPrev (m : NodeLinks T) (t : T) (u : Option T) : NodeLinks T :=
  { m with prev := update m.prev t u }

@[simp] theorem setNext_next (m : NodeLinks T) (t v : T) (u : Option T) :
    (m.setNext t u).next v = if v = t then u else m.next v := update_apply ..

@[simp] theorem setNext_prev (m : NodeLinks T) (t : T) (u : Option T) :
    (m.setNext t u).prev = m.prev := rfl

@[simp] theorem setPrev_next (m : NodeLinks T) (t : T) (u : Option T) :
    (m.setPrev t u).next = m.next := rfl

@[simp] theorem setPrev_prev (m : NodeLinks T) (t v : T) (u : Option T) :
    (m.setPrev t u).prev v = if v = t then u else m.prev v := update_apply ..

end Write

variable {m m' m'' : NodeLinks T} {a b : Option T} {p : List (Option T)} {l : List T} {t n d : T}

theorem ext_links (hnext : ∀ t, m.next t = m'.next t) (hprev : ∀ t, m.prev t = m'.prev t) : m = m' :=
  NodeLinks.ext (funext hnext) (funext hprev)

theorem SameAt.trans (h : SameAt m m' t) (h' : SameAt m' m'' t) : SameAt m m'' t :=
  ⟨h'.1.trans h.1, h'.2.trans h.2⟩

theorem SameAt.joined (ha : ∀ t, a = some t → SameAt m m' t) (hb : ∀ t, b = some t → SameAt m m' t)
    (h : m.Joined a b) : m'.Joined a b :=
  ⟨fun t ht => (ha t ht).1.trans (h.1 t ht), fun t ht => (hb t ht).2.trans (h.2 t ht)⟩

theorem ring_cons : m.Ring (a :: p : List (Option T)) ↔ m.Path (a :: (p ++ [a])) :=
  Cycle.chain_coe_cons _ _ _

/-- NodeLinks that are as before at the nodes of a ring. -/
theorem Ring.congr (h : m.Ring p) (hm : ∀ t, some t ∈ p → SameAt m m' t) : m'.Ring p := by
  cases p with
  | nil => exact Cycle.Chain.nil _
  | cons a p =>
    refine ring_cons.mpr (List.IsChain.imp_of_mem_imp (fun x y hx hy => ?_) (ring_cons.mp h))
    have hmem {x : Option T} (hx : x ∈ a :: (p ++ [a])) : ∀ t, x = some t → SameAt m m' t := by
      rintro t rfl
      have hx' : some t ∈ p ++ [a] ∨ some t = a := by simpa [or_comm, or_assoc] using hx
      exact hm t (by simpa [or_comm] using hx')
    exact SameAt.joined (hmem hx) (hmem hy)

/-! ## NodeLinks lead along a path -/

/-- From the beginning of a path on, the links lead along it. -/
theorem Path.follow (h : m.Path (l.map some ++ [b])) (ha : a ∈ (l.map some ++ [b]).head?) (k : ℕ) :
    Lib.nodesAlong m.next (l.length + k) a = l ++ Lib.nodesAlong m.next k b := by
  induction l generalizing a with
  | nil =>
    obtain rfl : b = a := Option.some.inj ha
    rw [List.length_nil, Nat.zero_add, List.nil_append]
  | cons t l ih =>
    obtain rfl : some t = a := Option.some.inj ha
    obtain ⟨hjoin, htail⟩ := List.isChain_cons.mp h
    have hnext : m.next t ∈ (l.map some ++ [b]).head? := by
      obtain ⟨c, hc⟩ : ∃ c, (l.map some ++ [b]).head? = some c := by
        cases l <;> exact ⟨_, rfl⟩
      rw [(hjoin c hc).1 t rfl]
      exact hc
    rw [List.length_cons, Nat.add_right_comm, Lib.nodesAlong, ih htail hnext, List.cons_append]

theorem Joined.flip (h : m.Joined a b) : m.flip.Joined b a := ⟨h.2, h.1⟩

theorem Path.flip (h : m.Path p) : m.flip.Path p.reverse :=
  List.isChain_reverse.mpr (h.imp fun _ _ => Joined.flip)

theorem Ring.flip (h : m.Ring p) : m.flip.Ring p.reverse := by
  cases p with
  | nil => exact Cycle.Chain.nil _
  | cons a p =>
    have hpath := (ring_cons.mp h).flip
    rw [List.reverse_cons, List.reverse_append] at hpath
    rw [List.reverse_cons, Cycle.coe_eq_coe.mpr List.isRotated_append]
    exact ring_cons.mpr hpath

/-! ## Places are joined -/

section Join
variable [DecidableEq T]

/-- Two places are joined with one another. -/
def join (m : NodeLinks T) (a b : Option T) : NodeLinks T where
  next t := if a = some t then b else m.next t
  prev t := if b = some t then a else m.prev t

theorem join_next : (m.join a b).next t = if a = some t then b else m.next t := rfl

theorem join_prev : (m.join a b).prev t = if b = some t then a else m.prev t := rfl

theorem joined_join : (m.join a b).Joined a b :=
  ⟨fun _ ht => by rw [join_next, if_pos ht], fun _ ht => by rw [join_prev, if_pos ht]⟩

theorem sameAt_join (ha : a ≠ some t) (hb : b ≠ some t) : SameAt m (m.join a b) t :=
  ⟨by rw [join_next, if_neg ha], by rw [join_prev, if_neg hb]⟩

/-- A node is joined with the places on its two sides. -/
def insert (m : NodeLinks T) (a : Option T) (n : T) (b : Option T) : NodeLinks T :=
  (m.join a (some n)).join (some n) b

theorem insert_next : (m.insert a n b).next t =
    if n = t then b else if a = some t then some n else m.next t := by
  simp only [NodeLinks.insert, join_next, Option.some.injEq]

theorem insert_prev : (m.insert a n b).prev t =
    if b = some t then some n else if n = t then a else m.prev t := by
  simp only [NodeLinks.insert, join_prev, Option.some.injEq]

theorem sameAt_insert (ha : a ≠ some t) (hb : b ≠ some t) (hn : n ≠ t) :
    SameAt m (m.insert a n b) t :=
  have hne : some n ≠ some t := fun heq => hn (Option.some.inj heq)
  (sameAt_join ha hne).trans (sameAt_join hne hb)

/-- The link forward from a place and the one backward from another one, where a path has none of the
two. -/
theorem Path.join (h : m.Path p) (ha : a ∉ p.dropLast) (hb : b ∉ p.tail) : (m.join a b).Path p := by
  induction p with
  | nil => exact .nil
  | cons x p ih =>
    cases p with
    | nil => exact .singleton x
    | cons y p =>
      obtain ⟨hxy, hp⟩ := List.isChain_cons_cons.mp h
      have hax : a ≠ x := fun heq => ha (heq ▸ List.mem_cons_self)
      have hby : b ≠ y := fun heq => hb (heq ▸ List.mem_cons_self)
      refine List.isChain_cons_cons.mpr ⟨⟨fun t ht => ?_, fun t ht => ?_⟩, ih hp ?_ ?_⟩
      · rw [join_next, if_neg (ht ▸ hax)]
        exact hxy.1 t ht
      · rw [join_prev, if_neg (ht ▸ hby)]
        exact hxy.2 t ht
      · exact fun hmem => ha (.tail x hmem)
      · exact fun hmem => hb (.tail y hmem)

omit [DecidableEq T] in
theorem notMem_ends (hnodup : p.Nodup) (ha : a ∈ p.getLast?) (hb : b ∈ p.head?) :
    a ∉ p.dropLast ∧ b ∉ p.tail := by
  constructor
  · obtain ⟨r, rfl⟩ := List.getLast?_eq_some_iff.mp ha
    rw [List.dropLast_concat]
    exact List.disjoint_singleton.mp (List.disjoint_of_nodup_append hnodup)
  · obtain ⟨r, rfl⟩ := List.head?_eq_some_iff.mp hb
    exact (List.nodup_cons.mp hnodup).1

end Join

/-! ## A ring changes -/

section Ring
variable {q : List (Option T)}

/-- A path that is closed from its last place to its first one. -/
theorem ring_iff (ha : a ∈ p.getLast?) (hb : b ∈ p.head?) :
    m.Ring p ↔ m.Path p ∧ m.Joined a b := by
  obtain ⟨r, rfl⟩ := List.head?_eq_some_iff.mp hb
  rw [ring_cons, ← List.cons_append, Path, List.isChain_append]
  refine and_congr_right fun _ => ⟨fun h => h.2 a ha b rfl, fun h => ⟨.singleton b, ?_⟩⟩
  intro x hx y hy
  rw [Option.mem_unique hx ha, Option.mem_unique hy rfl]
  exact h

theorem ring_cons_iff (ha : a ∈ p.getLast?) (hb : b ∈ p.head?) :
    m.Ring (some n :: p : List (Option T)) ↔
      m.Path p ∧ m.Joined (some n) b ∧ m.Joined a (some n) := by
  have hlast : a ∈ (some n :: p).getLast? := by
    rw [List.getLast?_cons, Option.mem_def.mp ha]
    rfl
  obtain ⟨r, rfl⟩ := List.head?_eq_some_iff.mp hb
  rw [ring_iff hlast rfl, Path, List.isChain_cons_cons, and_assoc, and_left_comm]
  rfl

/-- A ring that is turned. -/
theorem ring_rotate : m.Ring (p ++ q : List (Option T)) ↔ m.Ring (q ++ p : List (Option T)) := by
  rw [Cycle.coe_eq_coe.mpr List.isRotated_append]

/-- The place that a node of a ring leads to. -/
theorem Ring.next_eq (h : m.Ring (p ++ some t :: q : List (Option T)))
    (hb : b ∈ (q ++ p ++ [some t]).head?) : m.next t = b :=
  ((List.isChain_cons.mp (ring_cons.mp (ring_rotate.mp h))).1 b hb).1 t rfl

/-- The place that a node of a ring leads back to. -/
theorem Ring.prev_eq (h : m.Ring (p ++ some t :: q : List (Option T)))
    (ha : a ∈ (some t :: (q ++ p)).getLast?) : m.prev t = a :=
  ((ring_iff ha rfl).mp (ring_rotate.mp h)).2.2 t rfl

/-- The places around a node of a ring. -/
theorem Ring.joined (h : m.Ring (p ++ some t :: q : List (Option T))) (ha : a ∈ (q ++ p).getLast?)
    (hb : b ∈ (q ++ p).head?) : m.next t = b ∧ m.prev t = a := by
  obtain ⟨-, hout, hinto⟩ := (ring_cons_iff ha hb).mp (ring_rotate.mp h)
  exact ⟨hout.1 t rfl, hinto.2 t rfl⟩

/-- At the nodes of a ring the two links are inverse to one another. -/
theorem Ring.inverse (h : m.Ring p) (ht : some t ∈ p) {u : T} :
    (m.next t = some u → m.prev u = some t) ∧ (m.prev t = some u → m.next u = some t) := by
  have hout {m : NodeLinks T} {p : List (Option T)} (h : m.Ring p) (ht : some t ∈ p)
      (hu : m.next t = some u) : m.prev u = some t := by
    obtain ⟨p₁, p₂, rfl⟩ := List.append_of_mem ht
    obtain ⟨b, hb⟩ : ∃ b, b ∈ (p₂ ++ p₁ ++ [some t]).head? :=
      ⟨_, List.head?_eq_some_head (List.append_ne_nil_of_right_ne_nil _ (List.cons_ne_nil _ _))⟩
    have hjoin := (List.isChain_cons.mp (ring_cons.mp (ring_rotate.mp h))).1 b hb
    exact hjoin.2 u ((hjoin.1 t rfl).symm.trans hu)
  exact ⟨hout h ht, hout h.flip (List.mem_reverse.mpr ht)⟩

variable [DecidableEq T]

/-- A node enters between two parts of a ring, with the place `a` before it and `b` behind it. -/
theorem Ring.insert (h : m.Ring (p ++ q : List (Option T))) (hnodup : (p ++ q).Nodup)
    (ha : a ∈ (q ++ p).getLast?) (hb : b ∈ (q ++ p).head?) (hn : some n ∉ p ++ q) :
    (m.insert a n b).Ring (p ++ some n :: q : List (Option T)) := by
  have hn' : some n ∉ q ++ p := by simpa [or_comm] using hn
  have han : some n ≠ a := fun heq => hn' (heq ▸ List.mem_of_getLast? ha)
  have hbn : b ≠ some n := fun heq => hn' (heq ▸ List.mem_of_mem_head? hb)
  obtain ⟨hpath, -⟩ := (ring_iff ha hb).mp (ring_rotate.mp h)
  obtain ⟨hlast, hfirst⟩ := notMem_ends (List.nodup_append_comm.mp hnodup) ha hb
  have hrest : (m.join a (some n)).Path (q ++ p) :=
    hpath.join hlast fun hmem => hn' (List.mem_of_mem_tail hmem)
  have hinto : (m.insert a n b).Path [a, some n] :=
    Path.join (List.isChain_pair.mpr joined_join) (fun hmem => han (List.mem_singleton.mp hmem))
      fun hmem => hbn (List.mem_singleton.mp hmem)
  refine ring_rotate.mpr ((ring_cons_iff ha hb).mpr ⟨?_, joined_join, List.isChain_pair.mp hinto⟩)
  exact hrest.join (fun hmem => hn' (List.dropLast_subset _ hmem)) hfirst

/-- A node leaves, and the places around it are joined. -/
theorem Ring.remove (h : m.Ring (p ++ some d :: q : List (Option T))) (hnodup : (p ++ q).Nodup)
    (ha : a ∈ (q ++ p).getLast?) (hb : b ∈ (q ++ p).head?) :
    (m.join a b).Ring (p ++ q : List (Option T)) := by
  obtain ⟨hpath, -⟩ := (ring_cons_iff ha hb).mp (ring_rotate.mp h)
  obtain ⟨hlast, hfirst⟩ := notMem_ends (List.nodup_append_comm.mp hnodup) ha hb
  exact ring_rotate.mpr ((ring_iff ha hb).mpr ⟨hpath.join hlast hfirst, joined_join⟩)

/-- A node that is joined with itself. -/
theorem ring_single : (m.join (some n) (some n)).Ring ([some n] : List (Option T)) :=
  ring_cons.mpr (List.isChain_pair.mpr joined_join)

end Ring

/-! ## Lists as rings

A ring list is the ring of its nodes. A list with two ends is the ring of its nodes and of the place
that is no node.
-/

section Lists

/-- The links of a ring list lead around from its first node. -/
theorem Ring.follow (h : m.Ring (l.map some)) :
    Lib.nodesAlong m.next (l.length + 1) l.head? = l ++ l.head?.toList ∧
      Lib.nodesAlong m.prev (l.length + 1) l.head? = l.head?.toList ++ l.reverse := by
  cases l with
  | nil => exact ⟨rfl, rfl⟩
  | cons t l =>
    have hback : m.flip.Path ((t :: l.reverse).map some ++ [some t]) := by
      have hflip := Ring.flip h
      rw [← List.map_reverse, List.reverse_cons, List.map_append, ring_rotate] at hflip
      exact ring_cons.mp hflip
    have hpath : m.Path ((t :: l).map some ++ [some t]) := ring_cons.mp h
    refine ⟨hpath.follow rfl 1, ?_⟩
    have hfollow := hback.follow rfl 1
    rw [List.length_cons, List.length_reverse] at hfollow
    rw [List.reverse_cons, ← List.append_assoc]
    exact hfollow

/-- The links of a list with two ends lead from one end to the other. -/
theorem Ring.follow_line (h : m.Ring (none :: l.map some : List (Option T))) (k : ℕ) :
    Lib.nodesAlong m.next (l.length + k) l.head? = l ∧
      Lib.nodesAlong m.prev (l.length + k) l.getLast? = l.reverse := by
  have hline {m : NodeLinks T} {l : List T} (h : m.Ring (none :: l.map some : List (Option T))) :
      Lib.nodesAlong m.next (l.length + k) l.head? = l := by
    obtain ⟨-, hpath⟩ := List.isChain_cons.mp (ring_cons.mp h)
    rw [Path.follow hpath (by cases l <;> rfl) k]
    cases k <;> exact List.append_nil l
  refine ⟨hline h, ?_⟩
  have hflip := Ring.flip h
  rw [List.reverse_cons, ← List.map_reverse, ring_rotate] at hflip
  have hfollow := hline hflip
  rw [List.length_reverse, List.head?_reverse] at hfollow
  exact hfollow

/-- The places of a list are its nodes, and may be the place that is no node. -/
structure Shape (places : List T → List (Option T)) : Prop where
  mem : ∀ {l t}, some t ∈ places l ↔ t ∈ l
  nodup : ∀ {l}, l.Nodup → (places l).Nodup

theorem shape_ring : Shape (T := T) (List.map some) where
  mem := by simp
  nodup h := h.map (Option.some_injective T)

theorem shape_line : Shape (T := T) fun l => none :: l.map some where
  mem := by simp
  nodup h := List.nodup_cons.mpr ⟨by simp, h.map (Option.some_injective T)⟩

section Yields
variable [DecidableEq T] {places : List T → List (Option T)} {p q : List (Option T)} {l' : List T}
  {header : Option T}

/-- The links and the header belong to another list, and links change only at nodes of the two lists. -/
def Yields (places : List T → List (Option T)) (m : NodeLinks T) (l l' : List T)
    (x : NodeLinks T × Option T) : Prop :=
  x.1.Ring (places l') ∧ x.2 = l'.head? ∧ ∀ t, t ∉ l → t ∉ l' → SameAt m x.1 t

/-- A node enters a list. -/
theorem yields_insert (hshape : Shape places) (h : m.Ring (places l)) (hnodup : l.Nodup) (hn : n ∉ l)
    (hl : places l = p ++ q) (hl' : places l' = p ++ some n :: q) (ha : a ∈ (q ++ p).getLast?)
    (hb : b ∈ (q ++ p).head?) (hheader : header = l'.head?) :
    Yields places m l l' (m.insert a n b, header) := by
  have hmem {x : Option T} (hx : x ∈ q ++ p) : ∀ t, t ∉ l → x ≠ some t := by
    rintro t ht rfl
    refine ht (hshape.mem.mp ?_)
    rw [hl]
    simpa [or_comm] using hx
  refine ⟨?_, hheader, fun t ht ht' => ?_⟩
  · have hnodup' := hshape.nodup hnodup
    have hn' : some n ∉ places l := fun hmem => hn (hshape.mem.mp hmem)
    rw [hl] at h hnodup' hn'
    exact hl' ▸ h.insert hnodup' ha hb hn'
  · have hta : a ≠ some t := hmem (List.mem_of_getLast? ha) t ht
    have htb : b ≠ some t := hmem (List.mem_of_mem_head? hb) t ht
    refine sameAt_insert hta htb ?_
    rintro rfl
    exact ht' (hshape.mem.mp (hl' ▸ List.mem_append_right p List.mem_cons_self))

/-- A node leaves a list. -/
theorem yields_remove (hshape : Shape places) (h : m.Ring (places l)) (hnodup : l'.Nodup)
    (hl : places l = p ++ some d :: q) (hl' : places l' = p ++ q) (ha : a ∈ (q ++ p).getLast?)
    (hb : b ∈ (q ++ p).head?) (hheader : header = l'.head?) :
    Yields places m l l' (m.join a b, header) := by
  have hmem {x : Option T} (hx : x ∈ q ++ p) : ∀ t, t ∉ l' → x ≠ some t := by
    rintro t ht rfl
    refine ht (hshape.mem.mp ?_)
    rw [hl']
    simpa [or_comm] using hx
  refine ⟨?_, hheader, fun t _ ht => ?_⟩
  · have hnodup' := hshape.nodup hnodup
    rw [hl'] at hnodup' ⊢
    exact Ring.remove (hl ▸ h) hnodup' ha hb
  · exact sameAt_join (hmem (List.mem_of_getLast? ha) t ht) (hmem (List.mem_of_mem_head? hb) t ht)

end Yields

/-- Lists whose nodes are linked, each with its first node as the header. The places of a list are
those of its ring. -/
structure Held {H : Type*} (places : List T → List (Option T)) (m : NodeLinks T)
    (header : H → Option T) (lists : H → List T) : Prop where
  header : ∀ h, header h = (lists h).head?
  ring : ∀ h, m.Ring (places (lists h))
  nodup : ∀ h, (lists h).Nodup
  disjoint : ∀ h h', h ≠ h' → (lists h).Disjoint (lists h')

/-- One list changes, and only the links of its nodes. -/
theorem Held.update {H : Type*} [DecidableEq H] {places : List T → List (Option T)} {m : NodeLinks T}
    {header : H → Option T} {lists : H → List T} (hheld : Held places m header lists)
    (hshape : Shape places) {h : H} {l : List T} {x : NodeLinks T × Option T}
    (hx : Yields places m (lists h) l x) (hnodup : l.Nodup)
    (hnew : ∀ t ∈ l, ∀ h', t ∈ lists h' → h' = h) :
    Held places x.1 (update header h x.2) (update lists h l) where
  header h' := by
    obtain rfl | hne := eq_or_ne h' h
    · rw [update_self, update_self, hx.2.1]
    · rw [update_of_ne hne, update_of_ne hne]
      exact hheld.header h'
  ring h' := by
    obtain rfl | hne := eq_or_ne h' h
    · rw [update_self]
      exact hx.1
    · rw [update_of_ne hne]
      refine (hheld.ring h').congr fun t ht => ?_
      have hmem := hshape.mem.mp ht
      exact hx.2.2 t (fun hold => hheld.disjoint h' h hne hmem hold) fun hl => hne (hnew t hl h' hmem)
  nodup h' := by
    obtain rfl | hne := eq_or_ne h' h
    · rwa [update_self]
    · rw [update_of_ne hne]
      exact hheld.nodup h'
  disjoint h₁ h₂ hne := by
    obtain rfl | h₁ne := eq_or_ne h₁ h
    · rw [update_self, update_of_ne hne.symm]
      exact fun t ht₁ ht₂ => hne (hnew t ht₁ h₂ ht₂).symm
    · rw [update_of_ne h₁ne]
      obtain rfl | h₂ne := eq_or_ne h₂ h
      · rw [update_self]
        exact fun t ht₁ ht₂ => hne (hnew t ht₂ h₁ ht₁)
      · rw [update_of_ne h₂ne]
        exact hheld.disjoint h₁ h₂ hne

end Lists

end NodeLinks

end SylixOS.Lib
