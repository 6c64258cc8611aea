import SylixOS.Kernel.CandTable
import SylixOS.Lib.Linked
import SylixOS.Lib.Answers

/-! # Ring lists and line lists

The nodes of a list are linked in both directions, and a header leads to the first of them. Each
operation writes the links one by one; on the sequence of nodes it does what its name says.
-/

namespace SylixOS.Kernel
open Lib NodeLinks

namespace ListLink
variable {H T : Type} [DecidableEq H] [DecidableEq T]

/-! ## Ring lists

An operation leads to the links and the header that it leaves, if it does not follow a null link.
-/

section Code
variable (m : NodeLinks T)

/-- The links of a node that is alone in its ring. -/
def listRingAlone (pringNew : T) : NodeLinks T :=
  (m.setPrev pringNew (some pringNew)).setNext pringNew (some pringNew)

/-- `_List_Ring_Add_Ahead`. -/
def listRingAddAhead (pringNew : T) : Option T → Option (NodeLinks T × Option T)
  | some pringHeader => do
    let m := m.setNext pringNew (some pringHeader)
    let m := m.setPrev pringNew (m.prev pringHeader)
    let m := m.setNext (← m.prev pringHeader) (some pringNew)
    return (m.setPrev pringHeader (some pringNew), some pringNew)
  | none => some (listRingAlone m pringNew, some pringNew)

/-- `_List_Ring_Add_Front`. -/
def listRingAddFront (pringNew : T) : Option T → Option (NodeLinks T × Option T)
  | some pringHeader => do
    let m := m.setPrev pringNew (some pringHeader)
    let m := m.setNext pringNew (m.next pringHeader)
    let m := m.setPrev (← m.next pringHeader) (some pringNew)
    return (m.setNext pringHeader (some pringNew), some pringHeader)
  | none => some (listRingAlone m pringNew, some pringNew)

/-- `_List_Ring_Add_Last`. -/
def listRingAddLast (pringNew : T) : Option T → Option (NodeLinks T × Option T)
  | some pringHeader => do
    let m := m.setNext (← m.prev pringHeader) (some pringNew)
    let m := m.setPrev pringNew (m.prev pringHeader)
    let m := m.setNext pringNew (some pringHeader)
    return (m.setPrev pringHeader (some pringNew), some pringHeader)
  | none => some (listRingAlone m pringNew, some pringNew)

/-- `_list_ring_next`. -/
def listRingNext (phead : Option T) : Option (Option T) := phead.map m.next

/-- `_INIT_LIST_RING_HEAD`. -/
def initListRingHead (ptr : T) : NodeLinks T := (m.setNext ptr none).setPrev ptr none

/-- `_List_Ring_Del`. -/
def listRingDel (pringDel : T) (pringHeader : Option T) : Option (NodeLinks T × Option T) :=
  if m.next pringDel = some pringDel then some (initListRingHead m pringDel, none)
  else do
    let pringNext ←
      if some pringDel = pringHeader then listRingNext m pringHeader else some pringHeader
    let pringPrev ← m.prev pringDel
    let m := m.setNext pringPrev (m.next pringDel)
    let m := m.setPrev (← m.next pringDel) (some pringPrev)
    return (initListRingHead m pringDel, pringNext)

/-! ## Line lists -/

/-- The write of `prev` where there is a node. -/
def setPrevOf (plineNext plineNew : Option T) : NodeLinks T :=
  match plineNext with
  | some t => m.setPrev t plineNew
  | none => m

/-- `_List_Line_Add_Ahead`. -/
def listLineAddAhead (plineNew : T) (plineHeader : Option T) : NodeLinks T × Option T :=
  let m := m.setNext plineNew plineHeader
  let m := m.setPrev plineNew none
  (setPrevOf m plineHeader (some plineNew), some plineNew)

/-- `_List_Line_Add_Tail`. -/
def listLineAddTail (plineNew : T) : Option T → NodeLinks T × Option T
  | some plineHeader =>
    match m.next plineHeader with
    | some plineNext =>
      let m := m.setNext plineNew (some plineNext)
      let m := m.setPrev plineNew (some plineHeader)
      let m := m.setPrev plineNext (some plineNew)
      (m.setNext plineHeader (some plineNew), some plineHeader)
    | none =>
      let m := m.setNext plineHeader (some plineNew)
      let m := m.setPrev plineNew (some plineHeader)
      (m.setNext plineNew none, some plineHeader)
  | none => ((m.setPrev plineNew none).setNext plineNew none, some plineNew)

/-- `_List_Line_Add_Left`, which is not given the header. -/
def listLineAddLeft (plineNew plineRight : T) : NodeLinks T :=
  let plineLeft := m.prev plineRight
  let m := m.setNext plineNew (some plineRight)
  let m := m.setPrev plineNew plineLeft
  let m := match plineLeft with
    | some t => m.setNext t (some plineNew)
    | none => m
  m.setPrev plineRight (some plineNew)

/-- `_List_Line_Add_Right`, which is not given the header. -/
def listLineAddRight (plineNew plineLeft : T) : NodeLinks T :=
  let plineRight := m.next plineLeft
  let m := m.setNext plineNew plineRight
  let m := m.setPrev plineNew (some plineLeft)
  let m := setPrevOf m plineRight (some plineNew)
  m.setNext plineLeft (some plineNew)

/-- `_List_Line_Del`. -/
def listLineDel (plineDel : T) (plineHeader : Option T) : NodeLinks T × Option T :=
  let (m, plineHeader) := match m.prev plineDel with
    | none => (m, m.next plineDel)
    | some t => (m.setNext t (m.next plineDel), plineHeader)
  (setPrevOf m (m.next plineDel) (m.prev plineDel), plineHeader)

end Code

/-! ## What the operations do to the links -/

section Writes
variable {m : NodeLinks T} {n d x y z : T} {pheader : Option T}

@[simp] theorem setPrevOf_next (pnext pnew : Option T) : (setPrevOf m pnext pnew).next = m.next := by
  cases pnext <;> rfl

@[simp] theorem setPrevOf_prev (pnext pnew : Option T) (t : T) :
    (setPrevOf m pnext pnew).prev t = if pnext = some t then pnew else m.prev t := by
  cases pnext with
  | none => rfl
  | some u => simp [setPrevOf, eq_comm]

theorem listRingAlone_eq : listRingAlone m n = m.join (some n) (some n) := by
  refine ext_links (fun t => ?_) fun t => ?_
  · simp [listRingAlone, join_next, eq_comm]
  · simp [listRingAlone, join_prev, eq_comm]

theorem listRingAddAhead_eq (hprev : m.prev x = some y) (hx : x ≠ n) (hy : y ≠ n) :
    listRingAddAhead m n (some x) = some (m.insert (some y) n (some x), some n) := by
  simp only [listRingAddAhead, setPrev_prev, setNext_prev, if_neg hx, hprev]
  refine congrArg (fun m => some (m, some n)) (ext_links (fun t => ?_) fun t => ?_)
  · simp only [setNext_next, setPrev_next, insert_next]
    grind
  · simp only [setNext_prev, setPrev_prev, insert_prev]
    grind

theorem listRingAddFront_eq (hnext : m.next x = some y) (hx : x ≠ n) :
    listRingAddFront m n (some x) = some (m.insert (some x) n (some y), some x) := by
  simp only [listRingAddFront, setNext_next, setPrev_next, if_neg hx, hnext]
  refine congrArg (fun m => some (m, some x)) (ext_links (fun t => ?_) fun t => ?_)
  · simp only [setNext_next, setPrev_next, insert_next]
    grind
  · simp only [setNext_prev, setPrev_prev, insert_prev]
    grind

theorem listRingAddLast_eq (hprev : m.prev x = some y) :
    listRingAddLast m n (some x) = some (m.insert (some y) n (some x), some x) := by
  simp only [listRingAddLast, setNext_prev, hprev]
  refine congrArg (fun m => some (m, some x)) (ext_links (fun t => ?_) fun t => ?_)
  · simp only [setNext_next, setPrev_next, insert_next]
    grind
  · simp only [setNext_prev, setPrev_prev, insert_prev]
    grind

theorem listRingDel_eq (hnext : m.next d = some z) (hprev : m.prev d = some y) (hz : z ≠ d) :
    listRingDel m d (some x) =
      some (initListRingHead (m.join (some y) (some z)) d, if d = x then some z else some x) := by
  have hlinks : (m.setNext y (some z)).setPrev z (some y) = m.join (some y) (some z) := by
    refine ext_links (fun t => ?_) fun t => ?_
    · simp [join_next, eq_comm]
    · simp [join_prev, eq_comm]
  have hne : m.next d ≠ some d := fun heq => hz (Option.some.inj (hnext.symm.trans heq))
  rw [listRingDel, if_neg hne]
  obtain rfl | hdx := eq_or_ne d x
  · simp [listRingNext, hprev, hlinks, hnext]
  · simp [hdx, hprev, hlinks, hnext]

theorem listLineAddAhead_eq : listLineAddAhead m n pheader = (m.insert none n pheader, some n) := by
  refine congrArg (fun m => (m, some n)) (ext_links (fun t => ?_) fun t => ?_)
  · simp [insert_next, eq_comm]
  · simp [insert_prev, eq_comm]

theorem listLineAddTail_eq (hx : x ≠ n) :
    listLineAddTail m n (some x) = (m.insert (some x) n (m.next x), some x) := by
  cases hnext : m.next x with
  | none =>
    simp only [listLineAddTail, hnext]
    refine congrArg (fun m => (m, some x)) (ext_links (fun t => ?_) fun t => ?_)
    · simp only [setNext_next, setPrev_next, insert_next]
      grind
    · simp [insert_prev, eq_comm]
  | some z =>
    simp only [listLineAddTail, hnext]
    refine congrArg (fun m => (m, some x)) (ext_links (fun t => ?_) fun t => ?_)
    · simp only [setNext_next, setPrev_next, insert_next]
      grind
    · simp only [setNext_prev, setPrev_prev, insert_prev]
      grind

theorem listLineAddTail_none : listLineAddTail m n none = (m.insert none n none, some n) := by
  refine congrArg (fun m => (m, some n)) (ext_links (fun t => ?_) fun t => ?_)
  · simp [insert_next, eq_comm]
  · simp [insert_prev, eq_comm]

theorem listLineAddLeft_eq (hprev : m.prev x ≠ some n) :
    listLineAddLeft m n x = m.insert (m.prev x) n (some x) := by
  cases hleft : m.prev x with
  | none =>
    refine ext_links (fun t => ?_) fun t => ?_
    · simp [listLineAddLeft, hleft, insert_next, eq_comm]
    · simp [listLineAddLeft, hleft, insert_prev, eq_comm]
  | some y =>
    have hy : y ≠ n := fun heq => hprev (hleft.trans (congrArg some heq))
    refine ext_links (fun t => ?_) fun t => ?_
    · simp only [listLineAddLeft, hleft, setNext_next, setPrev_next, insert_next]
      grind
    · simp [listLineAddLeft, hleft, insert_prev, eq_comm]

theorem listLineAddRight_eq (hx : x ≠ n) :
    listLineAddRight m n x = m.insert (some x) n (m.next x) := by
  refine ext_links (fun t => ?_) fun t => ?_
  · simp only [listLineAddRight, setNext_next, setPrevOf_next, setPrev_next, insert_next]
    grind
  · simp [listLineAddRight, insert_prev, eq_comm]

theorem listLineDel_eq (hprev : m.prev d ≠ some d) : listLineDel m d pheader =
    (m.join (m.prev d) (m.next d), if m.prev d = none then m.next d else pheader) := by
  cases hleft : m.prev d with
  | none =>
    simp only [listLineDel, hleft, if_true]
    refine congrArg (fun links => (links, m.next d)) (ext_links (fun t => ?_) fun t => ?_)
    · simp [join_next]
    · simp [join_prev]
  | some y =>
    have hy : d ≠ y := fun heq => hprev (hleft.trans (congrArg some heq.symm))
    simp only [listLineDel, hleft, setNext_next, setNext_prev, if_neg hy, reduceCtorEq, if_false]
    refine congrArg (fun links => (links, pheader)) (ext_links (fun t => ?_) fun t => ?_)
    · simp [join_next, eq_comm]
    · simp [join_prev]

end Writes

/-! ## The operations as one family -/

/-- An operation on a ring list. -/
inductive RingOp (T : Type)
  | addAhead (pringNew : T)
  | addFront (pringNew : T)
  | addLast (pringNew : T)
  | del (pringDel : T)

/-- An operation on a line list. -/
inductive LineOp (T : Type)
  | addAhead (plineNew : T)
  | addTail (plineNew : T)
  | addLeft (plineNew plineRight : T)
  | addRight (plineNew plineLeft : T)
  | del (plineDel : T)

/-- The links and the header that an operation leaves. -/
def RingOp.call (m : NodeLinks T) (pringHeader : Option T) : RingOp T → Option (NodeLinks T × Option T)
  | .addAhead n => listRingAddAhead m n pringHeader
  | .addFront n => listRingAddFront m n pringHeader
  | .addLast n => listRingAddLast m n pringHeader
  | .del d => listRingDel m d pringHeader

/-- The links and the header that an operation leaves. -/
def LineOp.call (m : NodeLinks T) (plineHeader : Option T) : LineOp T → Option (NodeLinks T × Option T)
  | .addAhead n => some (listLineAddAhead m n plineHeader)
  | .addTail n => some (listLineAddTail m n plineHeader)
  | .addLeft n x => some (listLineAddLeft m n x, plineHeader)
  | .addRight n x => some (listLineAddRight m n x, plineHeader)
  | .del d => some (listLineDel m d plineHeader)

/-- A node is placed before another one. -/
def placeLeft (n x : T) : List T → List T
  | [] => []
  | t :: l => if t = x then n :: t :: l else t :: placeLeft n x l

/-- A node is placed behind another one. -/
def placeRight (n x : T) : List T → List T
  | [] => []
  | t :: l => if t = x then t :: n :: l else t :: placeRight n x l

/-- What an operation does to the sequence of nodes. -/
def RingOp.seq (l : List T) : RingOp T → List T
  | .addAhead n => Sched.listRingAddAhead n l
  | .addFront n => Sched.listRingAddFront n l
  | .addLast n => Sched.listRingAddLast n l
  | .del d => l.erase d

/-- What an operation does to the sequence of nodes. A node that is added at the tail becomes the
second one. -/
def LineOp.seq (l : List T) : LineOp T → List T
  | .addAhead n => n :: l
  | .addTail n => Sched.listRingAddFront n l
  | .addLeft n x => placeLeft n x l
  | .addRight n x => placeRight n x l
  | .del d => l.erase d

/-- The node that an operation adds. -/
def RingOp.new : RingOp T → Option T
  | .addAhead n | .addFront n | .addLast n => some n
  | .del _ => none

/-- The node that an operation is given and that is in the list. -/
def RingOp.old : RingOp T → Option T
  | .del d => some d
  | _ => none

/-- The node that an operation adds. -/
def LineOp.new : LineOp T → Option T
  | .addAhead n | .addTail n | .addLeft n _ | .addRight n _ => some n
  | .del _ => none

/-- The node that an operation is given and that is in the list. -/
def LineOp.old : LineOp T → Option T
  | .addAhead _ | .addTail _ => none
  | .addLeft _ x | .addRight _ x | .del x => some x

/-! ## One operation on one list -/

/-- The places of a ring list. -/
def ringPlaces (l : List T) : List (Option T) := l.map some

/-- The places of a line list. -/
def linePlaces (l : List T) : List (Option T) := none :: l.map some

section One
variable {m : NodeLinks T} {l l₁ l₂ : List T} {n d x : T}

omit [DecidableEq T] in
/-- The last node of a ring list leads to the header, and back. -/
theorem ring_last (h : m.Ring (ringPlaces (x :: l))) :
    ∃ y ∈ x :: l, (x :: l).getLast? = some y ∧ m.prev x = some y := by
  obtain ⟨y, hy⟩ : ∃ y, (x :: l).getLast? = some y := ⟨_, List.getLast?_eq_some_getLast (by simp)⟩
  refine ⟨y, List.mem_of_getLast? hy, hy, ?_⟩
  refine Ring.prev_eq (p := []) (q := l.map some) h ?_
  rw [List.append_nil, ← List.map_cons, List.getLast?_map, hy]
  rfl

theorem listRingAlone_yields : Yields ringPlaces m [] [n] (listRingAlone m n, some n) := by
  rw [listRingAlone_eq]
  refine ⟨ring_single, rfl, fun t _ ht => ?_⟩
  have hne : some n ≠ some t := by simpa [eq_comm] using ht
  exact sameAt_join hne hne

theorem listRingAddAhead_yields (h : m.Ring (ringPlaces l)) (hl : l.Nodup) (hn : n ∉ l) :
    ∃ x, listRingAddAhead m n l.head? = some x ∧
      Yields ringPlaces m l (Sched.listRingAddAhead n l) x := by
  cases l with
  | nil => exact ⟨_, rfl, listRingAlone_yields⟩
  | cons x l =>
    obtain ⟨y, hy, hlast, hprev⟩ := ring_last h
    refine ⟨_, listRingAddAhead_eq hprev (ne_of_mem_of_not_mem List.mem_cons_self hn)
      (ne_of_mem_of_not_mem hy hn), ?_⟩
    refine yields_insert shape_ring h hl hn (p := []) rfl rfl ?_ rfl rfl
    rw [List.append_nil, ← List.map_cons, List.getLast?_map, hlast]
    rfl

theorem listRingAddLast_yields (h : m.Ring (ringPlaces l)) (hl : l.Nodup) (hn : n ∉ l) :
    ∃ x, listRingAddLast m n l.head? = some x ∧
      Yields ringPlaces m l (Sched.listRingAddLast n l) x := by
  cases l with
  | nil => exact ⟨_, rfl, listRingAlone_yields⟩
  | cons x l =>
    obtain ⟨y, hy, hlast, hprev⟩ := ring_last h
    refine ⟨_, listRingAddLast_eq hprev, ?_⟩
    refine yields_insert shape_ring h hl hn (p := (x :: l).map some) (q := []) ?_ ?_ ?_ rfl rfl
    · exact (List.append_nil _).symm
    · exact List.map_append
    · rw [List.nil_append, List.getLast?_map, hlast]
      rfl

theorem listRingAddFront_yields (h : m.Ring (ringPlaces l)) (hl : l.Nodup) (hn : n ∉ l) :
    ∃ x, listRingAddFront m n l.head? = some x ∧
      Yields ringPlaces m l (Sched.listRingAddFront n l) x := by
  cases l with
  | nil => exact ⟨_, rfl, listRingAlone_yields⟩
  | cons x l =>
    obtain ⟨y, hy⟩ : ∃ y, (l ++ [x]).head? = some y := ⟨_, List.head?_eq_some_head (by simp)⟩
    have hfirst : (l.map some ++ [some x]).head? = some (some y) := by
      have hmap : l.map some ++ [some x] = (l ++ [x]).map some := by rw [List.map_append]; rfl
      rw [hmap, List.head?_map, hy]
      rfl
    have hnext : m.next x = some y := by
      refine Ring.next_eq (p := []) (q := l.map some) h ?_
      rw [List.append_nil]
      exact hfirst
    refine ⟨_, listRingAddFront_eq hnext (ne_of_mem_of_not_mem List.mem_cons_self hn), ?_⟩
    exact yields_insert shape_ring h hl hn (p := [some x]) (q := l.map some) rfl rfl
      List.getLast?_concat hfirst rfl

/-- The list without a node of it, in two parts. -/
theorem erase_split (hl : l.Nodup) (hd : d ∈ l) :
    ∃ l₁ l₂, l = l₁ ++ d :: l₂ ∧ l.erase d = l₁ ++ l₂ ∧ d ∉ l₁ ∧ d ∉ l₂ := by
  obtain ⟨l₁, l₂, rfl⟩ := List.append_of_mem hd
  have hnodup := List.nodup_middle.mp hl
  obtain ⟨hd₁, hd₂⟩ : d ∉ l₁ ∧ d ∉ l₂ := by simpa using (List.nodup_cons.mp hnodup).1
  refine ⟨l₁, l₂, rfl, ?_, hd₁, hd₂⟩
  rw [List.erase_append_right _ hd₁, List.erase_cons_head]

theorem initListRingHead_same {t : T} (ht : t ≠ d) : SameAt m (initListRingHead m d) t :=
  ⟨by simp [initListRingHead, ht], by simp [initListRingHead, ht]⟩

theorem listRingDel_yields (h : m.Ring (ringPlaces l)) (hl : l.Nodup) (hd : d ∈ l) :
    ∃ x, listRingDel m d l.head? = some x ∧ Yields ringPlaces m l (l.erase d) x := by
  obtain ⟨l₁, l₂, hsplit, herase, hd₁, hd₂⟩ := erase_split hl hd
  have hplaces : ringPlaces l = l₁.map some ++ some d :: l₂.map some := by
    rw [ringPlaces, hsplit, List.map_append, List.map_cons]
  cases hrest : l₂ ++ l₁ with
  | nil =>
    obtain ⟨rfl, rfl⟩ := List.append_eq_nil_iff.mp hrest
    rw [herase]
    rw [hplaces] at h
    have hnext : m.next d = some d := Ring.next_eq (p := []) (q := []) h rfl
    refine ⟨_, by rw [listRingDel, if_pos hnext], Cycle.Chain.nil _, rfl, fun t ht _ => ?_⟩
    exact initListRingHead_same fun heq => ht (heq ▸ hd)
  | cons z r =>
    obtain ⟨y, hy⟩ : ∃ y, (l₂ ++ l₁).getLast? = some y :=
      ⟨_, List.getLast?_eq_some_getLast (by simp [hrest])⟩
    have hlast : some y ∈ (l₂.map some ++ l₁.map some).getLast? := by
      rw [← List.map_append, List.getLast?_map, hy]
      rfl
    have hfirst : some z ∈ (l₂.map some ++ l₁.map some).head? := by
      rw [← List.map_append, hrest]
      rfl
    obtain ⟨hnext, hprev⟩ := Ring.joined (hplaces ▸ h) hlast hfirst
    have hz : z ≠ d := by
      have hmem : z ∈ l₂ ++ l₁ := hrest ▸ List.mem_cons_self
      rintro rfl
      exact (List.mem_append.mp hmem).elim hd₂ hd₁
    obtain ⟨x, hx⟩ : ∃ x, l.head? = some x := ⟨_, List.head?_eq_some_head (List.ne_nil_of_mem hd)⟩
    have hheader : (if d = x then some z else some x) = (l.erase d).head? := by
      rw [herase]
      rw [hsplit] at hx
      cases l₁ with
      | nil =>
        obtain rfl : d = x := Option.some.inj hx
        rw [if_pos rfl, List.nil_append, ← List.append_nil l₂, hrest, List.head?_cons]
      | cons w l₁ =>
        obtain rfl : w = x := Option.some.inj hx
        have hne : d ≠ w := List.ne_of_not_mem_cons hd₁
        rw [if_neg hne, List.cons_append, List.head?_cons]
    have hnodup : (l.erase d).Nodup := hl.erase d
    have hplaces' : ringPlaces (l.erase d) = l₁.map some ++ l₂.map some := by
      rw [ringPlaces, herase, List.map_append]
    obtain ⟨hring, -, hsame⟩ := yields_remove shape_ring h hnodup hplaces hplaces' hlast hfirst rfl
    refine ⟨_, by rw [hx, listRingDel_eq hnext hprev hz], hring.congr fun t ht => ?_, hheader,
      fun t ht ht' => (hsame t ht ht').trans (initListRingHead_same ?_)⟩
    · exact initListRingHead_same (ne_of_mem_of_not_mem (shape_ring.mem.mp ht) hl.not_mem_erase)
    · exact (ne_of_mem_of_not_mem hd ht).symm

theorem listLineAddAhead_yields (h : m.Ring (linePlaces l)) (hl : l.Nodup) (hn : n ∉ l) :
    Yields linePlaces m l (n :: l) (listLineAddAhead m n l.head?) := by
  rw [listLineAddAhead_eq]
  refine yields_insert shape_line h hl hn (p := [none]) (q := l.map some) rfl rfl
    List.getLast?_concat ?_ rfl
  cases l <;> rfl

theorem listLineAddTail_yields (h : m.Ring (linePlaces l)) (hl : l.Nodup) (hn : n ∉ l) :
    Yields linePlaces m l (Sched.listRingAddFront n l) (listLineAddTail m n l.head?) := by
  cases l with
  | nil =>
    rw [List.head?_nil, listLineAddTail_none]
    exact yields_insert shape_line h hl hn (p := [none]) (q := []) rfl rfl rfl rfl rfl
  | cons x l =>
    have hnext : m.next x ∈ (l.map some ++ [none, some x]).head? := by
      obtain ⟨b, hb⟩ : ∃ b, b ∈ (l.map some ++ [none] ++ [some x]).head? :=
        ⟨_, List.head?_eq_some_head (by simp)⟩
      rw [Ring.next_eq (p := [none]) (q := l.map some) h hb]
      rwa [List.append_assoc] at hb
    rw [List.head?_cons, listLineAddTail_eq (ne_of_mem_of_not_mem List.mem_cons_self hn)]
    have hlast : some x ∈ (l.map some ++ [none, some x]).getLast? := by
      rw [List.getLast?_append]
      rfl
    exact yields_insert shape_line h hl hn (p := [none, some x]) (q := l.map some) rfl rfl hlast hnext
      rfl

theorem placeLeft_append (hx : x ∉ l₁) :
    placeLeft n x (l₁ ++ x :: l₂) = l₁ ++ n :: x :: l₂ := by
  induction l₁ with
  | nil => rw [List.nil_append, placeLeft, if_pos rfl, List.nil_append]
  | cons t l₁ ih =>
    have hne : t ≠ x := (List.ne_of_not_mem_cons hx).symm
    rw [List.cons_append, placeLeft, if_neg hne, ih (List.not_mem_of_not_mem_cons hx),
      List.cons_append]

theorem placeRight_append (hx : x ∉ l₁) :
    placeRight n x (l₁ ++ x :: l₂) = l₁ ++ x :: n :: l₂ := by
  induction l₁ with
  | nil => rw [List.nil_append, placeRight, if_pos rfl, List.nil_append]
  | cons t l₁ ih =>
    have hne : t ≠ x := (List.ne_of_not_mem_cons hx).symm
    rw [List.cons_append, placeRight, if_neg hne, ih (List.not_mem_of_not_mem_cons hx),
      List.cons_append]

omit [DecidableEq T] in
theorem linePlaces_append : linePlaces (l₁ ++ l₂) = linePlaces l₁ ++ l₂.map some := by
  rw [linePlaces, List.map_append, linePlaces, List.cons_append]

omit [DecidableEq T] in
theorem linePlaces_split : linePlaces (l₁ ++ x :: l₂) = linePlaces l₁ ++ some x :: l₂.map some :=
  linePlaces_append

/-- The header stays where a node enters on the left of another one than the first. -/
theorem listLineAddLeft_yields (h : m.Ring (linePlaces l)) (hl : l.Nodup) (hn : n ∉ l) (hx : x ∈ l)
    (hfirst : l.head? ≠ some x) :
    Yields linePlaces m l (placeLeft n x l) (listLineAddLeft m n x, l.head?) := by
  obtain ⟨l₁, l₂, rfl, -, hx₁, -⟩ := erase_split hl hx
  obtain ⟨a, ha⟩ : ∃ a, a ∈ (some x :: (l₂.map some ++ linePlaces l₁)).getLast? :=
    ⟨_, List.getLast?_eq_some_getLast (List.cons_ne_nil _ _)⟩
  have hprev : m.prev x = a := Ring.prev_eq (linePlaces_split ▸ h) ha
  have hne : a ≠ some n := by
    rintro rfl
    have hmem := List.mem_of_getLast? ha
    refine hn (shape_line.mem.mp (?_ : some n ∈ linePlaces (l₁ ++ x :: l₂)))
    rw [linePlaces_append]
    simpa [or_comm, or_left_comm, or_assoc] using hmem
  rw [listLineAddLeft_eq (hprev ▸ hne), placeLeft_append hx₁, hprev]
  refine yields_insert shape_line h hl hn linePlaces_append linePlaces_append ha rfl ?_
  cases l₁ with
  | nil => exact absurd rfl hfirst
  | cons w l₁ => rfl

theorem listLineAddRight_yields (h : m.Ring (linePlaces l)) (hl : l.Nodup) (hn : n ∉ l) (hx : x ∈ l) :
    Yields linePlaces m l (placeRight n x l) (listLineAddRight m n x, l.head?) := by
  obtain ⟨l₁, l₂, rfl, -, hx₁, -⟩ := erase_split hl hx
  obtain ⟨b, hb⟩ : ∃ b, b ∈ (l₂.map some ++ linePlaces l₁ ++ [some x]).head? :=
    ⟨_, List.head?_eq_some_head (List.append_ne_nil_of_right_ne_nil _ (List.cons_ne_nil _ _))⟩
  have hnext : m.next x = b := Ring.next_eq (linePlaces_split ▸ h) hb
  have hsplit {l : List T} :
      linePlaces (l₁ ++ x :: l) = (linePlaces l₁ ++ [some x]) ++ l.map some := by
    rw [linePlaces_append, List.append_assoc]
    rfl
  rw [listLineAddRight_eq (ne_of_mem_of_not_mem hx hn), placeRight_append hx₁, hnext]
  rw [List.append_assoc] at hb
  refine yields_insert shape_line h hl hn hsplit hsplit ?_ hb ?_
  · rw [← List.append_assoc]
    exact List.getLast?_concat
  · cases l₁ <;> rfl

theorem listLineDel_yields (h : m.Ring (linePlaces l)) (hl : l.Nodup) (hd : d ∈ l) :
    Yields linePlaces m l (l.erase d) (listLineDel m d l.head?) := by
  have hnodup : (l.erase d).Nodup := hl.erase d
  obtain ⟨l₁, l₂, rfl, herase, hd₁, hd₂⟩ := erase_split hl hd
  have hne : l₂.map some ++ linePlaces l₁ ≠ [] :=
    List.append_ne_nil_of_right_ne_nil _ (List.cons_ne_nil _ _)
  obtain ⟨a, ha⟩ : ∃ a, a ∈ (l₂.map some ++ linePlaces l₁).getLast? :=
    ⟨_, List.getLast?_eq_some_getLast hne⟩
  obtain ⟨b, hb⟩ : ∃ b, b ∈ (l₂.map some ++ linePlaces l₁).head? := ⟨_, List.head?_eq_some_head hne⟩
  obtain ⟨hnext, hprev⟩ := Ring.joined (linePlaces_split ▸ h) ha hb
  have had : a ≠ some d := by
    rintro rfl
    have hmem : some d ∈ linePlaces (l₁ ++ l₂) := by
      rw [linePlaces_append]
      simpa [or_comm] using List.mem_of_getLast? ha
    exact (List.mem_append.mp (shape_line.mem.mp hmem)).elim hd₁ hd₂
  rw [listLineDel_eq (hprev ▸ had), hprev, hnext]
  rw [herase] at hnodup ⊢
  refine yields_remove shape_line h hnodup linePlaces_append linePlaces_append ha hb ?_
  cases l₁ with
  | nil =>
    obtain rfl : none = a := Option.some.inj (List.getLast?_concat.symm.trans ha)
    rw [if_pos rfl]
    cases l₂ <;> exact (Option.some.inj hb).symm
  | cons w l₁ =>
    have hsome : a ≠ none := by
      rintro rfl
      have hlast : none ∈ (some w :: l₁.map some).getLast? := by
        rw [Option.mem_def, List.getLast?_append] at ha
        simpa [linePlaces] using ha
      have hmem := List.mem_of_getLast? hlast
      simp at hmem
    rw [if_neg hsome]
    rfl

end One

/-! ## Any number of lists -/

/-- The links of the nodes, and the headers of all lists. -/
structure ListMem (H T : Type) where
  links : NodeLinks T
  header : H → Option T

section Family
variable {A : Type}

/-- An operation on the list of a header. -/
def listStep (call : NodeLinks T → Option T → A → Option (NodeLinks T × Option T)) (s : ListMem H T)
    (x : H × A) : Option (ListMem H T) :=
  (call s.links (s.header x.1) x.2).map fun y => ⟨y.1, Function.update s.header x.1 y.2⟩

/-- An operation on the sequence of a header. -/
def seqStep (seq : List T → A → List T) (lists : H → List T) (x : H × A) : H → List T :=
  Function.update lists x.1 (seq (lists x.1) x.2)

/-- A node that is added is in no list, and one that an operation refers to is in the list of the
header. -/
def Proper (new old : A → Option T) (lists : H → List T) (x : H × A) : Prop :=
  (∀ n, new x.2 = some n → ∀ h, n ∉ lists h) ∧ ∀ t, old x.2 = some t → t ∈ lists x.1

/-- The links of a ring list lead around it, from the header forward and backward. -/
structure RingEnumerates (s : ListMem H T) (h : H) (l : List T) : Prop where
  header : s.header h = l.head?
  forward : nodesAlong s.links.next (l.length + 1) (s.header h) = l ++ l.head?.toList
  backward : nodesAlong s.links.prev (l.length + 1) (s.header h) = l.head?.toList ++ l.reverse
  inverse : ∀ t ∈ l, ∀ u, (s.links.next t = some u → s.links.prev u = some t) ∧
    (s.links.prev t = some u → s.links.next u = some t)

/-- The links of a line list lead forward from the header to the last node, and from there backward. -/
structure LineEnumerates (s : ListMem H T) (h : H) (l : List T) : Prop where
  header : s.header h = l.head?
  forward : ∀ k, nodesAlong s.links.next (l.length + k) (s.header h) = l
  backward : ∀ k, nodesAlong s.links.prev (l.length + k) l.getLast? = l.reverse
  inverse : ∀ t ∈ l, ∀ u, (s.links.next t = some u → s.links.prev u = some t) ∧
    (s.links.prev t = some u → s.links.next u = some t)

variable {places : List T → List (Option T)}
  {call : NodeLinks T → Option T → A → Option (NodeLinks T × Option T)}
  {seq : List T → A → List T} {new old : A → Option T}

omit [DecidableEq T] in
/-- An operation on one list keeps all lists linked. -/
theorem listStep_held (ok : List T → A → Prop) (hshape : Shape places)
    (hcall : ∀ m l a, m.Ring (places l) → l.Nodup → (∀ n, new a = some n → n ∉ l) →
      (∀ t, old a = some t → t ∈ l) → ok l a →
      (∃ x, call m l.head? a = some x ∧ Yields places m l (seq l a) x) ∧
        (seq l a).Subperm ((new a).toList ++ l))
    {s : ListMem H T} {lists : H → List T} {x : H × A} (hheld : Held places s.links s.header lists)
    (hproper : Proper new old lists x) (hok : ok (lists x.1) x.2) :
    ∃ s', listStep call s x = some s' ∧ Held places s'.links s'.header (seqStep seq lists x) := by
  obtain ⟨⟨y, hy, hyields⟩, l', hperm, hsub⟩ := hcall s.links (lists x.1) x.2 (hheld.ring x.1)
    (hheld.nodup x.1) (fun n hn => hproper.1 n hn x.1) hproper.2 hok
  have hnodup : ((new x.2).toList ++ lists x.1).Nodup := by
    cases hnew : new x.2 with
    | none => exact hheld.nodup x.1
    | some n => exact List.nodup_cons.mpr ⟨hproper.1 n hnew x.1, hheld.nodup x.1⟩
  have hmem : ∀ t ∈ seq (lists x.1) x.2, ∀ h', t ∈ lists h' → h' = x.1 := by
    intro t ht h' ht'
    by_contra hne
    rcases List.mem_append.mp (hsub.subset (hperm.mem_iff.mpr ht)) with hnew | hold
    · exact hproper.1 t (by simpa using hnew) h' ht'
    · exact hheld.disjoint h' x.1 hne ht' hold
  refine ⟨_, by rw [listStep, hheld.header, hy]; rfl, ?_⟩
  exact hheld.update hshape hyields (hperm.nodup_iff.mp (hsub.nodup hnodup)) hmem

end Family

section Ops
variable {m : NodeLinks T} {l l₁ l₂ : List T} {n d x : T}

omit [DecidableEq T] in
theorem addFront_perm : (Sched.listRingAddFront n l).Perm (n :: l) := by
  cases l with
  | nil => exact .refl _
  | cons x l => exact .swap n x l

theorem placeLeft_perm (hl : l.Nodup) (hx : x ∈ l) : (placeLeft n x l).Perm (n :: l) := by
  obtain ⟨l₁, l₂, rfl, -, hx₁, -⟩ := erase_split hl hx
  rw [placeLeft_append hx₁]
  exact List.perm_middle

theorem placeRight_perm (hl : l.Nodup) (hx : x ∈ l) : (placeRight n x l).Perm (n :: l) := by
  obtain ⟨l₁, l₂, rfl, -, hx₁, -⟩ := erase_split hl hx
  rw [placeRight_append hx₁]
  exact (List.Perm.append_left l₁ (List.Perm.swap n x l₂)).trans List.perm_middle

/-- An operation on a ring list. -/
theorem RingOp.call_yields (a : RingOp T) (h : m.Ring (ringPlaces l)) (hl : l.Nodup)
    (hnew : ∀ n, a.new = some n → n ∉ l) (hold : ∀ t, a.old = some t → t ∈ l) :
    (∃ x, RingOp.call m l.head? a = some x ∧ Yields ringPlaces m l (RingOp.seq l a) x) ∧
      (RingOp.seq l a).Subperm (a.new.toList ++ l) := by
  cases a with
  | addAhead n => exact ⟨listRingAddAhead_yields h hl (hnew n rfl), .refl _⟩
  | addFront n => exact ⟨listRingAddFront_yields h hl (hnew n rfl), addFront_perm.subperm⟩
  | addLast n =>
    exact ⟨listRingAddLast_yields h hl (hnew n rfl), (List.perm_append_singleton n l).subperm⟩
  | del d => exact ⟨listRingDel_yields h hl (hold d rfl), List.erase_subperm d l⟩

/-- A node is added on the left of another one than the first. -/
def LineOp.OffHeader (l : List T) : LineOp T → Prop
  | .addLeft _ x => l.head? ≠ some x
  | _ => True

/-- An operation on a line list. -/
theorem LineOp.call_yields (a : LineOp T) (h : m.Ring (linePlaces l)) (hl : l.Nodup)
    (hnew : ∀ n, a.new = some n → n ∉ l) (hold : ∀ t, a.old = some t → t ∈ l) (hok : a.OffHeader l) :
    (∃ x, LineOp.call m l.head? a = some x ∧ Yields linePlaces m l (LineOp.seq l a) x) ∧
      (LineOp.seq l a).Subperm (a.new.toList ++ l) := by
  cases a with
  | addAhead n => exact ⟨⟨_, rfl, listLineAddAhead_yields h hl (hnew n rfl)⟩, .refl _⟩
  | addTail n => exact ⟨⟨_, rfl, listLineAddTail_yields h hl (hnew n rfl)⟩, addFront_perm.subperm⟩
  | addLeft n x =>
    exact ⟨⟨_, rfl, listLineAddLeft_yields h hl (hnew n rfl) (hold x rfl) hok⟩,
      (placeLeft_perm hl (hold x rfl)).subperm⟩
  | addRight n x =>
    exact ⟨⟨_, rfl, listLineAddRight_yields h hl (hnew n rfl) (hold x rfl)⟩,
      (placeRight_perm hl (hold x rfl)).subperm⟩
  | del d => exact ⟨⟨_, rfl, listLineDel_yields h hl (hold d rfl)⟩, List.erase_subperm d l⟩

end Ops

section Runs
variable {s : ListMem H T} {lists : H → List T}

omit [DecidableEq H] [DecidableEq T] in
theorem ringEnumerates_of_held (hheld : Held ringPlaces s.links s.header lists) (h : H) :
    RingEnumerates s h (lists h) where
  header := hheld.header h
  forward := by
    rw [hheld.header h]
    exact (hheld.ring h).follow.1
  backward := by
    rw [hheld.header h]
    exact (hheld.ring h).follow.2
  inverse _ ht _ := (hheld.ring h).inverse (shape_ring.mem.mpr ht)

omit [DecidableEq H] [DecidableEq T] in
theorem lineEnumerates_of_held (hheld : Held linePlaces s.links s.header lists) (h : H) :
    LineEnumerates s h (lists h) where
  header := hheld.header h
  forward k := by
    rw [hheld.header h]
    exact ((hheld.ring h).follow_line k).1
  backward k := ((hheld.ring h).follow_line k).2
  inverse _ ht _ := (hheld.ring h).inverse (shape_line.mem.mpr ht)

omit [DecidableEq H] [DecidableEq T] in
theorem held_empty {places : List T → List (Option T)} (m : NodeLinks T) (h : m.Ring (places [])) :
    Held places m (fun _ : H => none) fun _ => [] :=
  ⟨fun _ => rfl, fun _ => h, fun _ => .nil, fun _ _ _ => List.disjoint_nil_left _⟩

omit [DecidableEq T] in
theorem ring_ringPlaces_nil (m : NodeLinks T) : m.Ring (ringPlaces ([] : List T)) := Cycle.Chain.nil _

omit [DecidableEq T] in
theorem ring_linePlaces_nil (m : NodeLinks T) : m.Ring (linePlaces ([] : List T)) :=
  ring_cons.mpr (List.isChain_pair.mpr ⟨fun _ ht => (nomatch ht), fun _ ht => (nomatch ht)⟩)

/-- A ring list is changed, and all ring lists stay linked. -/
theorem ringStep_held (s : ListMem H T) (lists : H → List T) (x : H × RingOp T)
    (hheld : Held ringPlaces s.links s.header lists) (hproper : Proper RingOp.new RingOp.old lists x) :
    ∃ s', listStep RingOp.call s x = some s' ∧
      Held ringPlaces s'.links s'.header (seqStep RingOp.seq lists x) :=
  listStep_held (fun _ _ => True) shape_ring
    (fun _ _ a h hl hnew hold _ => RingOp.call_yields a h hl hnew hold) hheld hproper trivial

/-- A line list is changed, and all line lists stay linked. -/
theorem lineStep_held (s : ListMem H T) (lists : H → List T) (x : H × LineOp T)
    (hheld : Held linePlaces s.links s.header lists)
    (hproper : Proper LineOp.new LineOp.old lists x ∧ x.2.OffHeader (lists x.1)) :
    ∃ s', listStep LineOp.call s x = some s' ∧
      Held linePlaces s'.links s'.header (seqStep LineOp.seq lists x) :=
  listStep_held LineOp.OffHeader shape_line
    (fun _ _ a => LineOp.call_yields a) hheld hproper.1 hproper.2

/-- However operations on any number of lists follow one another, the links of a list lead along the
sequence that the same operations make. A node is added on the left of another node than the header. -/
theorem lists_refine_sequences (mring mline : NodeLinks T) {ringOps : List (H × RingOp T)}
    {lineOps : List (H × LineOp T)}
    (hring : Along (fun lists x => some (seqStep RingOp.seq lists x)) (Proper RingOp.new RingOp.old)
      (fun _ => []) ringOps)
    (hline : Along (fun lists x => some (seqStep LineOp.seq lists x))
      (fun lists x => Proper LineOp.new LineOp.old lists x ∧ x.2.OffHeader (lists x.1))
      (fun _ => []) lineOps) :
    (∃ s, runs (listStep RingOp.call) ⟨mring, fun _ => none⟩ ringOps = some s ∧
      ∀ h, RingEnumerates s h (ringOps.foldl (seqStep RingOp.seq) (fun _ => []) h)) ∧
    ∃ s, runs (listStep LineOp.call) ⟨mline, fun _ => none⟩ lineOps = some s ∧
      ∀ h, LineEnumerates s h (lineOps.foldl (seqStep LineOp.seq) (fun _ => []) h) := by
  constructor
  · obtain ⟨s, hs, hheld⟩ := runs_of_simulates (s := ⟨mring, fun _ => none⟩) ringStep_held
      (held_empty mring (ring_ringPlaces_nil mring)) hring
    exact ⟨s, hs, ringEnumerates_of_held hheld⟩
  · obtain ⟨s, hs, hheld⟩ := runs_of_simulates (s := ⟨mline, fun _ => none⟩) lineStep_held
      (held_empty mline (ring_linePlaces_nil mline)) hline
    exact ⟨s, hs, lineEnumerates_of_held hheld⟩

/-- Nodes enter a ring list and a line list at all places, and the header leaves. -/
theorem lists_refine_sequences_four :
    (∃ s, runs (listStep RingOp.call) ⟨⟨fun _ : ℕ => none, fun _ => none⟩, fun _ : Unit => none⟩
        [((), .addAhead 0), ((), .addLast 1), ((), .addFront 2), ((), .del 0)] = some s ∧
      ∀ h, RingEnumerates s h [2, 1]) ∧
    ∃ s, runs (listStep LineOp.call) ⟨⟨fun _ : ℕ => none, fun _ => none⟩, fun _ : Unit => none⟩
        [((), .addAhead 0), ((), .addRight 1 0), ((), .addTail 2), ((), .addLeft 3 1), ((), .del 0)] =
          some s ∧
      ∀ h, LineEnumerates s h [2, 3, 1] :=
  lists_refine_sequences _ _
    (by simp [Along, Proper, RingOp.new, RingOp.old, seqStep, RingOp.seq, Sched.listRingAddAhead,
      Sched.listRingAddLast, Sched.listRingAddFront])
    (by simp [Along, Proper, LineOp.new, LineOp.old, LineOp.OffHeader, seqStep, LineOp.seq,
      Sched.listRingAddFront, placeLeft, placeRight])

/-- On the left of the header a node enters a line list without the header being moved to it. -/
theorem not_lists_refine : ¬ ∀ lineOps : List (Unit × LineOp ℕ),
    Along (fun lists x => some (seqStep LineOp.seq lists x)) (Proper LineOp.new LineOp.old)
      (fun _ => []) lineOps →
    ∃ s, runs (listStep LineOp.call) ⟨⟨fun _ => none, fun _ => none⟩, fun _ => none⟩ lineOps = some s ∧
      ∀ h, LineEnumerates s h (lineOps.foldl (seqStep LineOp.seq) (fun _ => []) h) := by
  intro hall
  obtain ⟨s, hs, henum⟩ := hall [((), .addAhead 0), ((), .addLeft 1 0), ((), .addAhead 2)] (by
    simp [Along, Proper, LineOp.new, LineOp.old, seqStep, LineOp.seq, placeLeft])
  have hforward := (henum ()).forward 0
  cases hs
  revert hforward
  decide

end Runs

end ListLink

end SylixOS.Kernel
