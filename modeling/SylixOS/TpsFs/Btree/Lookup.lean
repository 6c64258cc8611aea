import SylixOS.TpsFs.Btree.Insert

/-! # Looking up and changing an entry

A lookup ends at the last entry whose key is not above the one looked for, and changing an entry leaves
all others. -/

namespace SylixOS.TpsFs
open Lib

section List
variable {α : Type*} {x kv : ℕ × α} {L L' A B : List (ℕ × α)} {k : ℕ}

/-- The last entry whose key is not above `k`, or the first one. -/
def Floor (k : ℕ) (L : List (ℕ × α)) (x : ℕ × α) : Prop :=
  ∃ pre post, L = pre ++ x :: post ∧ (pre = [] ∨ x.1 ≤ k) ∧ ∀ y ∈ post, k < y.1

/-- One entry has been replaced. -/
def Replaced (x kv : ℕ × α) (L L' : List (ℕ × α)) : Prop :=
  ∃ pre post, L = pre ++ x :: post ∧ L' = pre ++ kv :: post

theorem Replaced.frame (h : Replaced x kv L L') : Replaced x kv (A ++ L ++ B) (A ++ L' ++ B) := by
  obtain ⟨pre, post, rfl, rfl⟩ := h
  exact ⟨A ++ pre, post ++ B, by simp, by simp⟩

/-- In ascending order, what is before and behind an entry is known by the keys. -/
theorem Sorted.split_eq {A' B' : List (ℕ × α)} (hs : Sorted (A ++ x :: B))
    (h : A ++ x :: B = A' ++ x :: B') : A = A' ∧ B = B' := by
  have hfilter (xs ys : List (ℕ × α)) (hs : Sorted (xs ++ x :: ys)) :
      (xs ++ x :: ys).filter (fun y => y.1 < x.1) = xs := by
    rw [sorted_append, sorted_cons] at hs
    have hnil : (x :: ys).filter (fun y => y.1 < x.1) = [] := by
      refine List.filter_eq_nil_iff.mpr fun y hy => ?_
      rcases List.mem_cons.mp hy with rfl | hy
      · simp
      · simpa using (hs.2.1.1 y hy).le
    rw [List.filter_append, hnil, List.append_nil, List.filter_eq_self]
    exact fun y hy => by simpa using hs.2.2 y hy x (.head _)
  have hA : A = A' := by rw [← hfilter A B hs, h, hfilter A' B' (h ▸ hs)]
  subst hA
  exact ⟨rfl, by simpa using h⟩

theorem Replaced.eq (h : Replaced x kv (A ++ x :: B) L') (hs : Sorted (A ++ x :: B)) :
    L' = A ++ kv :: B := by
  obtain ⟨pre, post, heq, rfl⟩ := h
  obtain ⟨rfl, rfl⟩ := hs.split_eq heq
  rfl

end List

section Node
variable {ε : Type} {n : BtrNode ε} {x : ℕ × ε}

/-- An entry of the node is found under its key. -/
theorem btrSearch_mem (hs : Sorted n.kvArr) (hx : x ∈ n.kvArr) : ∃ A B, n.kvArr = A ++ x :: B ∧
    (btrSearch n x.1 false).1 = A.length ∧ (btrSearch n x.1 false).2 = true := by
  obtain ⟨A, y, B, hsplit, hi, hle, hB, hb⟩ := btrSearch_floor (k := x.1) hs (List.ne_nil_of_mem hx)
  rw [hsplit, List.mem_append, List.mem_cons] at hx
  rw [hsplit, sorted_append] at hs
  obtain rfl : x = y := by
    rcases hx with hx | rfl | hx
    · rcases hle with rfl | hle
      · cases hx
      · exact absurd (hs.2.2 x hx y (.head _)) (by omega)
    · rfl
    · exact absurd (hB x hx) (lt_irrefl _)
  exact ⟨A, B, hsplit, hi, hb.mpr rfl⟩

end Node

variable {psb : SuperBlock} {level k i : ℕ} {kv x : ℕ × KvValue}

theorem getAt_spec {n : BtrNode (Data level)} (h : Synced psb level n.kvArr)
    (hs : Sorted (items level n.kvArr)) (hne : n.kvArr ≠ []) :
    ∃ x, getAt false level n k = .ok x ∧ Floor k (items level n.kvArr) x := by
  induction level with
  | zero =>
    obtain ⟨A, x, B, hsplit, hi, hle, hB, -⟩ := btrSearch_floor (k := k) hs hne
    refine ⟨x, ?_, A, B, hsplit, hle, hB⟩
    simp [getAt, hi, hsplit]
  | succ level ih =>
    obtain ⟨A, c, B, hd⟩ := h.descend hs hne k
    obtain ⟨hget, hc, hcs, hcsort, hcne⟩ := hd.child h hs
    obtain ⟨x, hx, pre, post, heq, hle, hpost⟩ := ih hcs hcsort hcne
    refine ⟨x, by simp only [getAt, hget, hx], items level (join A) ++ pre,
      post ++ items level (join B), ?_, ?_, fun y hy => ?_⟩
    · rw [hd.items_eq, heq]
      simp
    · rcases hle with rfl | hle
      · obtain ⟨v, rest, hcons⟩ := hc.cons
        rw [hcons] at hcs heq
        obtain ⟨w, rest', hhead⟩ := hcs.head
        rw [hhead, List.nil_append, List.cons_eq_cons] at heq
        rw [← heq.1]
        refine hd.floor.imp_left fun hA => ?_
        simp [hA]
      · exact .inr hle
    · rcases List.mem_append.mp hy with hy | hy
      · exact hpost y hy
      · exact hd.after y hy

theorem setAt_spec {n : BtrNode (Data level)} (kv : ℕ × KvValue) (h : Synced psb level n.kvArr)
    (hs : Sorted (items level n.kvArr)) (hx : x ∈ items level n.kvArr) :
    ∃ n', setAt level n x.1 kv = .ok n' ∧ Replaced x kv (items level n.kvArr) (items level n'.kvArr) ∧
      Synced psb level n'.kvArr ∧ n'.kvArr.length = n.kvArr.length ∧ n'.uiMaxCnt = n.uiMaxCnt := by
  induction level with
  | zero =>
    obtain ⟨A, B, hsplit, hi, hb⟩ := btrSearch_mem hs hx
    refine ⟨{ n with kvArr := A ++ kv :: B }, ?_, ⟨A, B, hsplit, rfl⟩, trivial, ?_, rfl⟩
    · simp [setAt, hi, hb, hsplit]
    · simp [hsplit]
  | succ level ih =>
    have hne : n.kvArr ≠ [] := by
      intro hnil
      rw [hnil, items_nil] at hx
      cases hx
    obtain ⟨A, c, B, hd⟩ := h.descend hs hne x.1
    obtain ⟨hget, hc, hcs, hcsort, hcne⟩ := hd.child h hs
    obtain ⟨c', hset, hrep, hsync, hlen, hmax⟩ := ih hcs hcsort (hd.mem_child hx)
    have hkv := BtrNode.setChild_kvArr (n := c') hd.split
    rw [← hd.index] at hkv
    have h' := h
    rw [hd.split, synced_child] at h'
    refine ⟨BtrNode.setChild n (btrSearch n x.1 false).1 c', ?_, ?_, ?_, ?_, rfl⟩
    · simp only [setAt, hget, hset]
      rfl
    · rw [hkv, items_child, hd.items_eq]
      exact hrep.frame
    · rw [hkv, synced_child]
      exact ⟨h'.1, ⟨⟨hlen ▸ hc.two, hlen ▸ hc.full, hmax ▸ hc.cap, rfl⟩, hsync⟩, h'.2.2⟩
    · simp [BtrNode.setChild]

/-! ## The whole tree -/

variable {t : Btree}

theorem Btree.Ok.items_eq_nil (h : t.Ok psb) : t.items = [] ↔ t.root.kvArr = [] := by
  refine ⟨fun hnil => ?_, fun hnil => ?_⟩
  · by_contra hne
    exact h.synced.items_ne_nil hne hnil
  · rw [Btree.items, hnil, items_nil]

theorem btreeGet_spec (h : t.Ok psb) (hne : t.items ≠ []) :
    ∃ x, btreeGet t k false = .ok x ∧ Floor k t.items x :=
  getAt_spec h.synced h.sorted (mt h.items_eq_nil.mpr hne)

/-- An empty tree has a single leaf, whose first entry is read as zeros. -/
theorem btreeGet_nil (h : t.Ok psb) (hnil : t.items = []) :
    btreeGet t k false = .ok (0, ⟨0, 0⟩) := by
  obtain ⟨level, root⟩ := t
  have hroot : root.kvArr = [] := h.items_eq_nil.mp hnil
  cases level with
  | zero => simp [btreeGet, getAt, hroot]
  | succ level => exact absurd hroot (h.root_ne_nil (Nat.succ_pos _))

theorem btreeSet_nil (h : t.Ok psb) (hnil : t.items = []) :
    btreeSet t k kv = .error .btreeGetNode := by
  obtain ⟨level, root⟩ := t
  have hroot : root.kvArr = [] := h.items_eq_nil.mp hnil
  cases level with
  | zero =>
    simp [btreeSet, setAt, btrSearch, BtrNode.keys, hroot, keySearch, Except.map]
  | succ level => exact absurd hroot (h.root_ne_nil (Nat.succ_pos _))

/-- `__tpsFsBtreeSet` changes one entry; the new one has to fit between its neighbours. -/
theorem btreeSet_spec {A B : List (ℕ × KvValue)} (kv : ℕ × KvValue) (h : t.Ok psb)
    (heq : t.items = A ++ x :: B) (hs : Sorted (A ++ kv :: B)) :
    ∃ t', btreeSet t x.1 kv = .ok t' ∧ t'.Ok psb ∧ t'.items = A ++ kv :: B := by
  have hsort := h.sorted
  have hx : x ∈ t.items := by simp [heq]
  obtain ⟨n, hset, hrep, hsync, hlen, hmax⟩ := setAt_spec kv h.synced h.sorted hx
  have hitems : items t.level n.kvArr = A ++ kv :: B := by
    rw [← Btree.items, heq] at hrep
    exact hrep.eq (heq ▸ hsort)
  refine ⟨⟨t.level, n⟩, by simp [btreeSet, hset, Except.map], ?_, hitems⟩
  exact ⟨hsync, (congrArg Sorted hitems).mpr hs, fun hpos => hlen ▸ h.two hpos,
    hlen ▸ hmax ▸ h.full, hmax.trans h.cap⟩

end SylixOS.TpsFs
