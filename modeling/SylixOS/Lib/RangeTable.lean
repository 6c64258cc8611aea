import Mathlib.Data.List.Pairwise
import Mathlib.Order.Interval.Set.OrdConnected

/-! # A table kept as a list of ranges

Every entry of a list covers a set of keys and has a value there. The sets of the list come one
after the other. A write of a value over a range is a cut of the list: the keys of the range get
the value, or lose theirs, and the other keys keep what they have. A cut is made one entry at a
time.
-/

namespace SylixOS.Lib.RangeTable

variable {ι κ τ : Type*}

variable (dom : ι → Set κ) (val : ι → τ)

/-- Some entry of the list has the value at the key. -/
def Has (l : List ι) (x : κ) (t : τ) : Prop := ∃ e ∈ l, x ∈ dom e ∧ val e = t

variable {dom val} {l l' a p p' m : List ι} {c : Set κ} {r : Option τ} {e : ι} {x : κ} {t u : τ}

@[simp] theorem has_nil : ¬ Has dom val [] x t := by
  rintro ⟨e, he, -⟩
  cases he

@[simp] theorem has_cons :
    Has dom val (e :: l) x t ↔ (x ∈ dom e ∧ val e = t) ∨ Has dom val l x t := by
  simp [Has]

@[simp] theorem has_append : Has dom val (a ++ l) x t ↔ Has dom val a x t ∨ Has dom val l x t := by
  simp only [Has, List.mem_append, or_and_right, exists_or]

/-- Entries may be changed where neither their keys nor their value depend on it. -/
theorem has_map {f : ι → ι} (hdom : ∀ e, dom (f e) = dom e) (hval : ∀ e, val (f e) = val e) :
    Has dom val (l.map f) x t ↔ Has dom val l x t := by
  simp only [Has, List.mem_map, exists_exists_and_eq_and, hdom, hval]

variable [LinearOrder κ]

/-- Every key of one set lies before every key of the other. -/
def Before (a b : Set κ) : Prop := ∀ x ∈ a, ∀ y ∈ b, x < y

variable (dom val) in
/-- The entries come one after the other. -/
def Sorted (l : List ι) : Prop := l.Pairwise fun a b => Before (dom a) (dom b)

variable (dom val) in
/-- The second list is the first one with the value written over the range, or with the range
cleared. -/
structure Cut (r : Option τ) (c : Set κ) (l l' : List ι) : Prop where
  sorted : Sorted dom l'
  has : ∀ x t, Has dom val l' x t ↔ (x ∈ c ∧ r = some t) ∨ (x ∉ c ∧ Has dom val l x t)

variable (val) in
theorem sorted_cons : Sorted dom (e :: l) ↔
    (∀ x ∈ dom e, ∀ y t, Has dom val l y t → x < y) ∧ Sorted dom l := by
  refine List.pairwise_cons.trans (and_congr_left fun _ =>
    ⟨fun h x hx y t hy => ?_, fun h b hb x hx y hy => ?_⟩)
  · obtain ⟨b, hb, hy, -⟩ := hy
    exact h b hb x hx y hy
  · exact h x hx y (val b) ⟨b, hb, hy, rfl⟩

variable (val) in
theorem sorted_append : Sorted dom (a ++ l) ↔ Sorted dom a ∧ Sorted dom l ∧
    ∀ x t y u, Has dom val a x t → Has dom val l y u → x < y := by
  refine List.pairwise_append.trans (and_congr_right fun _ => and_congr_right fun _ =>
    ⟨fun h x t y u hx hy => ?_, fun h b hb e he x hx y hy => ?_⟩)
  · obtain ⟨b, hb, hx, -⟩ := hx
    obtain ⟨e, he, hy, -⟩ := hy
    exact h b hb e he x hx y hy
  · exact h x (val b) y (val e) ⟨b, hb, hx, rfl⟩ ⟨e, he, hy, rfl⟩

theorem Sorted.tail (h : Sorted dom (e :: l)) : Sorted dom l :=
  (List.pairwise_cons.mp h).2

theorem sorted_map {f : ι → ι} (hdom : ∀ e, dom (f e) = dom e) :
    Sorted dom (l.map f) ↔ Sorted dom l := by
  simp only [Sorted, List.pairwise_map, hdom]

namespace Cut

/-- Entries before the range stay as they are. -/
theorem append_left (h : Cut dom val r c l l') (hs : Sorted dom (a ++ l))
    (hbefore : ∀ e ∈ a, Before (dom e) c) : Cut dom val r c (a ++ l) (a ++ l') := by
  obtain ⟨ha, -, hal⟩ := (sorted_append val).mp hs
  have hac : ∀ x t, Has dom val a x t → ∀ y ∈ c, x < y := by
    rintro x t ⟨e, he, hx, -⟩ y hy
    exact hbefore e he x hx y hy
  refine ⟨(sorted_append val).mpr ⟨ha, h.sorted, fun x t y u hx hy => ?_⟩, fun x t => ?_⟩
  · rcases (h.has y u).mp hy with ⟨hc, -⟩ | ⟨-, hy⟩
    · exact hac x t hx y hc
    · exact hal x t y u hx hy
  · have hout : Has dom val a x t → x ∉ c := fun hx hc => lt_irrefl x (hac x t hx x hc)
    rw [has_append, has_append, h.has]
    tauto

/-- The range is written in front of entries that lie after it. -/
theorem append_right (h : Cut dom val r c [] m) (hs : Sorted dom l)
    (hafter : ∀ e ∈ l, Before c (dom e)) : Cut dom val r c l (m ++ l) := by
  have hcl : ∀ x ∈ c, ∀ y t, Has dom val l y t → x < y := by
    rintro x hx y t ⟨e, he, hy, -⟩
    exact hafter e he x hx y hy
  have hm : ∀ x t, Has dom val m x t → x ∈ c ∧ r = some t := by
    intro x t hx
    simpa using (h.has x t).mp hx
  refine ⟨(sorted_append val).mpr ⟨h.sorted, hs, fun x t y u hx hy =>
    hcl x (hm x t hx).1 y u hy⟩, fun x t => ?_⟩
  have hout : Has dom val l x t → x ∉ c := fun hx hc => lt_irrefl x (hcl x hc x t hx)
  have hmem : Has dom val m x t ↔ x ∈ c ∧ r = some t := by simpa using h.has x t
  rw [has_append, hmem]
  tauto

/-- A range is cleared where nothing stands. -/
theorem nil : Cut dom val none c [] [] :=
  ⟨List.Pairwise.nil, by simp⟩

/-- Entries that lie after the range are left alone when it is cleared. -/
theorem of_after (hs : Sorted dom l) (hafter : ∀ e ∈ l, Before c (dom e)) :
    Cut dom val none c l l := by
  have h : Cut dom val none c [] [] := nil
  simpa using h.append_right hs hafter

/-- The first entry meets the range and is cut, and the range is cleared in the others. -/
theorem cons (h : Cut dom val r c [e] m) (hp : Cut dom val none c p p') (hs : Sorted dom (e :: p))
    (hc : c.OrdConnected) (hmeet : (c ∩ dom e).Nonempty) :
    Cut dom val r c (e :: p) (m ++ p') := by
  obtain ⟨hep, -⟩ := (sorted_cons val).mp hs
  obtain ⟨z, hzc, hze⟩ := hmeet
  have hp' : ∀ y u, Has dom val p' y u ↔ y ∉ c ∧ Has dom val p y u := by
    intro y u
    simpa using hp.has y u
  have hm : ∀ x t, Has dom val m x t ↔ (x ∈ c ∧ r = some t) ∨ (x ∉ c ∧ x ∈ dom e ∧ val e = t) := by
    intro x t
    simpa using h.has x t
  refine ⟨(sorted_append val).mpr ⟨h.sorted, hp.sorted, fun x t y u hx hy => ?_⟩,
    fun x t => ?_⟩
  · obtain ⟨hyc, hy⟩ := (hp' y u).mp hy
    rcases (hm x t).mp hx with ⟨hxc, -⟩ | ⟨-, hxe, -⟩
    · -- The range is in one piece, so a key after the cut entry is not followed by one of it.
      by_contra hlt
      exact hyc (hc.out hzc hxc ⟨(hep z hze y u hy).le, not_lt.mp hlt⟩)
    · exact hep x hxe y u hy
  · rw [has_append, has_cons, hm, hp']
    tauto

end Cut

end SylixOS.Lib.RangeTable
