import Mathlib.Data.List.Basic
import Mathlib.Data.List.Perm.Subperm
import Mathlib.Logic.Function.Basic
import Mathlib.Logic.Relation

/-! # Trees of names

A tree kept in links: each node has a name and a father, and each node and the root have a list of
sons. A path is looked up one name at a time, from the root down.
-/

namespace SylixOS.Lib
open Function

/-- The links of a tree; `none` stands for the root. -/
structure Links (ι ν : Type*) where
  sons : Option ι → List ι
  father : ι → Option ι
  name : ι → ν

/-- How a lookup goes on at a node whose name matches. -/
inductive Visit where
  /-- Among its sons. -/
  | enter
  /-- Nothing may come after it. -/
  | leaf
  /-- It ends there, and what comes after it is left over. -/
  | stop

/-- The outcome of a lookup. A name that is missing comes with the last father reached, and with
whether it was the last name of the path. -/
inductive Lookup (ι ν : Type*) where
  | root
  | found (n : ι) (tail : List ν)
  | missing (d : Option ι) (last : Bool)

namespace Links

variable {ι ν : Type*} (L : Links ι ν)

def lookup [DecidableEq ν] (visit : ι → Visit) : Option ι → List ν → Lookup ι ν
  | _, [] => .root
  | d, c :: p =>
    match (L.sons d).find? fun n => L.name n = c with
    | none => .missing d p.isEmpty
    | some n =>
      match visit n with
      | .stop => .found n p
      | .leaf => if p = [] then .found n [] else .missing d false
      | .enter => if p = [] then .found n [] else lookup visit (some n) p

/-- The node at a path. -/
inductive IsAt : Option ι → List ν → Prop where
  | root : IsAt none []
  | son {d : Option ι} {n : ι} {p : List ν} (h : IsAt d p) (hn : n ∈ L.sons d) :
      IsAt (some n) (p ++ [L.name n])

/-- The number of fathers up to the root. -/
inductive Depth : Option ι → ℕ → Prop where
  | root : Depth none 0
  | son {n : ι} {k : ℕ} (h : Depth (L.father n) k) : Depth (some n) (k + 1)

/-- A node is somewhere below another one. -/
def Below : ι → ι → Prop := Relation.TransGen fun n d => n ∈ L.sons (some d)

/-- The links of `nodes` are those of a tree in which only nodes that are `dir` have sons. -/
structure Tree (nodes : List ι) (dir : ι → Prop) : Prop where
  distinct : nodes.Nodup
  mem : ∀ d n, n ∈ L.sons d ↔ n ∈ nodes ∧ L.father n = d
  nodup : ∀ d, (L.sons d).Nodup
  unique : ∀ d, ∀ n ∈ L.sons d, ∀ m ∈ L.sons d, L.name n = L.name m → n = m
  father : ∀ n ∈ nodes, ∀ d, L.father n = some d → d ∈ nodes ∧ dir d
  rooted : ∀ n ∈ nodes, ∃ k, L.Depth (some n) k

/-- A new node without sons. -/
def add [DecidableEq ι] (n : ι) (d : Option ι) (c : ν) : Links ι ν where
  sons := update (update L.sons (some n) []) d (n :: L.sons d)
  father := update L.father n d
  name := update L.name n c

def del [DecidableEq ι] (n : ι) : Links ι ν where
  sons := update L.sons (L.father n) ((L.sons (L.father n)).erase n)
  father := L.father
  name := L.name

def rename [DecidableEq ι] (n : ι) (c : ν) : Links ι ν where
  sons := L.sons
  father := L.father
  name := update L.name n c

variable {L} {nodes : List ι} {dir dir' : ι → Prop} {visit : ι → Visit} {n m : ι} {d e : Option ι}
  {c : ν} {p q tail : List ν} {last : Bool} {k l : ℕ}

/-! ## Depths -/

theorem Depth.unique (h : L.Depth d k) (h' : L.Depth d l) : k = l := by
  induction h generalizing l with
  | root =>
    cases h'
    rfl
  | son h ih =>
    cases h' with
    | son h' => rw [ih h']

/-- The fathers of a node are nodes, all different. -/
theorem Tree.chain (h : L.Tree nodes dir) (hd : L.Depth d k) (hn : ∀ n, d = some n → n ∈ nodes) :
    ∃ l : List ι, l.length = k ∧ l.Nodup ∧ l ⊆ nodes ∧ ∀ m ∈ l, ∃ i ≤ k, L.Depth (some m) i := by
  induction hd with
  | root => exact ⟨[], rfl, List.nodup_nil, List.nil_subset _, by simp⟩
  | @son n k hd ih =>
    have hmem := hn n rfl
    obtain ⟨l, hlen, hnodup, hsub, hdepth⟩ := ih fun m hm => (h.father n hmem m hm).1
    refine ⟨n :: l, by simp [hlen], List.nodup_cons.mpr ⟨fun hl => ?_, hnodup⟩,
      List.cons_subset.mpr ⟨hmem, hsub⟩, fun m hm => ?_⟩
    · obtain ⟨i, hi, hdi⟩ := hdepth n hl
      have := hdi.unique (.son hd)
      omega
    · rcases List.mem_cons.mp hm with rfl | hm
      · exact ⟨k + 1, Nat.le_refl _, .son hd⟩
      · obtain ⟨i, hi, hdi⟩ := hdepth m hm
        exact ⟨i, Nat.le_succ_of_le hi, hdi⟩

theorem Tree.depth_le (h : L.Tree nodes dir) (hn : n ∈ nodes) (hd : L.Depth (some n) k) :
    k ≤ nodes.length := by
  obtain ⟨l, hlen, hnodup, hsub, -⟩ := h.chain hd fun m hm => Option.some.inj hm ▸ hn
  exact hlen ▸ (List.subperm_of_subset hnodup hsub).length_le

theorem Tree.depth_of_son (h : L.Tree nodes dir) (hn : n ∈ L.sons (some m)) (hm : L.Depth (some m) k) :
    L.Depth (some n) (k + 1) :=
  .son (((h.mem _ n).mp hn).2 ▸ hm)

/-- No node is below itself. -/
theorem Tree.not_below_self (h : L.Tree nodes dir) (n : ι) : ¬ L.Below n n := by
  have hlt {a b : ι} (hab : L.Below a b) :
      ∀ k l, L.Depth (some a) k → L.Depth (some b) l → l < k := by
    induction hab with
    | single hab =>
      intro k l hk hl
      have := hk.unique (h.depth_of_son hab hl)
      omega
    | @tail b c hab hbc ih =>
      intro k l hk hl
      have := ih k (l + 1) hk (h.depth_of_son hbc hl)
      omega
  intro hnn
  have hmem : n ∈ nodes := by
    cases hnn with
    | single hnn => exact ((h.mem _ n).mp hnn).1
    | tail hab hbc =>
      have hfather := (h.mem _ _).mp hbc
      exact (h.father _ hfather.1 n hfather.2).1
  obtain ⟨k, hk⟩ := h.rooted n hmem
  exact absurd (hlt hnn k k hk hk) (Nat.lt_irrefl k)

/-! ## Paths -/

theorem IsAt.mem_nodes (h : L.Tree nodes dir) (hp : L.IsAt (some n) p) : n ∈ nodes := by
  cases hp with
  | son _ hn => exact ((h.mem _ n).mp hn).1

/-- A node has one path. -/
theorem IsAt.path_eq (h : L.Tree nodes dir) (hp : L.IsAt d p) (hq : L.IsAt d q) : p = q := by
  induction hp generalizing q with
  | root =>
    cases hq
    rfl
  | @son d n p hp hn ih =>
    cases hq with
    | @son d' _ q hq hn' =>
      have hd : d' = d := ((h.mem _ n).mp hn').2.symm.trans ((h.mem _ n).mp hn).2
      rw [ih (hd ▸ hq)]

/-- A path leads to one node. -/
theorem IsAt.node_eq (h : L.Tree nodes dir) (hp : L.IsAt d p) (he : L.IsAt e p) : d = e := by
  induction hp generalizing e with
  | root =>
    generalize hnil : ([] : List ν) = p at he
    cases he with
    | root => rfl
    | son => simp at hnil
  | @son d n p hp hn ih =>
    generalize hq : p ++ [L.name n] = q at he
    cases he with
    | root => simp at hq
    | @son d' m p' hp' hm =>
      obtain ⟨hpp, hname⟩ := List.append_inj' hq rfl
      subst hpp
      obtain rfl := ih hp'
      rw [h.unique d n hn m hm (List.singleton_inj.mp hname)]

/-! ## Lookups -/

section lookup
variable [DecidableEq ν]

theorem find_sons (h : ((L.sons d).find? fun n => L.name n = c) = some n) :
    n ∈ L.sons d ∧ L.name n = c :=
  ⟨List.mem_of_find?_eq_some h, by simpa using List.find?_some h⟩

/-- What is found is at the part of the path that is not left over. -/
theorem lookup_found (h : L.lookup visit d p = .found n tail) (hd : L.IsAt d q) :
    ∃ pre, p = pre ++ tail ∧ L.IsAt (some n) (q ++ pre) ∧ (tail ≠ [] → visit n = .stop) := by
  induction p generalizing d q with
  | nil => cases h
  | cons c p ih =>
    unfold lookup at h
    split at h
    · cases h
    · next k hk =>
      obtain ⟨hmem, rfl⟩ := find_sons hk
      have hat := hd.son hmem
      cases hv : visit k with
      | stop =>
        simp only [hv, Lookup.found.injEq] at h
        obtain ⟨rfl, rfl⟩ := h
        exact ⟨[L.name k], rfl, hat, fun _ => hv⟩
      | leaf =>
        simp only [hv] at h
        split_ifs at h with hp
        obtain ⟨rfl, rfl⟩ := Lookup.found.inj h
        exact ⟨[L.name k], by rw [hp, List.append_nil], hat, fun hne => absurd rfl hne⟩
      | enter =>
        simp only [hv] at h
        split_ifs at h with hp
        · obtain ⟨rfl, rfl⟩ := Lookup.found.inj h
          exact ⟨[L.name k], by rw [hp, List.append_nil], hat, fun hne => absurd rfl hne⟩
        · obtain ⟨pre, rfl, hpre, hstop⟩ := ih h hat
          exact ⟨L.name k :: pre, rfl, by simpa using hpre, hstop⟩

/-- A missing name: the path up to it leads to the father, and the father has no such son when it
is the last one. -/
theorem lookup_missing (h : L.lookup visit d p = .missing e last) (hd : L.IsAt d q) :
    ∃ pre c rest, p = pre ++ c :: rest ∧ L.IsAt e (q ++ pre) ∧
      (e = d ∨ ∃ k, e = some k ∧ visit k = .enter) ∧
      (last = true → rest = [] ∧ ∀ m ∈ L.sons e, L.name m ≠ c) := by
  induction p generalizing d q with
  | nil => cases h
  | cons c p ih =>
    unfold lookup at h
    split at h
    · next hnone =>
      obtain ⟨rfl, rfl⟩ := Lookup.missing.inj h
      refine ⟨[], c, p, rfl, by simpa using hd, .inl rfl, fun hlast => ⟨List.isEmpty_iff.mp hlast, ?_⟩⟩
      simpa using List.find?_eq_none.mp hnone
    · next k hk =>
      obtain ⟨hmem, rfl⟩ := find_sons hk
      have hat := hd.son hmem
      cases hv : visit k with
      | stop => simp only [hv] at h; cases h
      | leaf =>
        simp only [hv] at h
        split_ifs at h with hp
        obtain ⟨rfl, rfl⟩ := Lookup.missing.inj h
        exact ⟨[], _, p, rfl, by simpa using hd, .inl rfl, fun hlast => by cases hlast⟩
      | enter =>
        simp only [hv] at h
        split_ifs at h with hp
        obtain ⟨pre, c', rest, rfl, hpre, hfather, hlast⟩ := ih h hat
        refine ⟨L.name k :: pre, c', rest, rfl, by simpa using hpre, .inr ?_, hlast⟩
        rcases hfather with rfl | hfather
        · exact ⟨k, rfl, hv⟩
        · exact hfather

end lookup

/-! ## A node is added -/

variable [DecidableEq ι]

section add
variable (h : L.Tree nodes dir) (hn : n ∉ nodes) (hd : ∀ k, d = some k → k ∈ nodes)
include h hn hd

theorem Tree.mem_add : m ∈ (L.add n d c).sons e ↔ m = n ∧ e = d ∨ m ∈ L.sons e := by
  have hson : L.sons (some n) = [] := by
    refine List.eq_nil_iff_forall_not_mem.mpr fun k hk => hn ?_
    have hfather := (h.mem _ k).mp hk
    exact (h.father k hfather.1 n hfather.2).1
  unfold add
  dsimp only
  by_cases he : e = d
  · subst he
    rw [update_self, List.mem_cons]
    exact or_congr_left (and_iff_left rfl).symm
  · rw [update_of_ne he]
    by_cases hen : e = some n
    · subst hen
      rw [update_self, hson]
      exact iff_of_false List.not_mem_nil (by simp [he])
    · rw [update_of_ne hen]
      exact ⟨Or.inr, fun hm => hm.resolve_left fun hm => he hm.2⟩

omit h hd in
theorem add_of_mem (hm : m ∈ nodes) :
    (L.add n d c).father m = L.father m ∧ (L.add n d c).name m = L.name m := by
  have hne : m ≠ n := fun heq => hn (heq ▸ hm)
  exact ⟨update_of_ne hne .., update_of_ne hne ..⟩

omit hd in
theorem Tree.depth_add (he : ∀ m, e = some m → m ∈ nodes) (hk : L.Depth e k) :
    (L.add n d c).Depth e k := by
  induction hk with
  | root => exact .root
  | @son m k hk ih =>
    have hm := he m rfl
    have hfather : (L.add n d c).father m = L.father m := (add_of_mem hn hm).1
    exact .son (hfather ▸ ih fun j hj => (h.father m hm j hj).1)

/-- A node with a name that its father's sons do not have is a leaf of the tree. -/
theorem Tree.add (hdir : ∀ k ∈ nodes, dir k → dir' k) (hd' : ∀ k, d = some k → dir' k)
    (hc : ∀ m ∈ L.sons d, L.name m ≠ c) : (L.add n d c).Tree (n :: nodes) dir' := by
  have hself : (L.add n d c).father n = d ∧ (L.add n d c).name n = c :=
    ⟨update_self .., update_self ..⟩
  have hold {m : ι} (hm : m ∈ nodes) :
      (L.add n d c).father m = L.father m ∧ (L.add n d c).name m = L.name m := add_of_mem hn hm
  have hsons {m : ι} {e : Option ι} (hm : m ∈ L.sons e) := ((h.mem e m).mp hm).1
  refine ⟨List.nodup_cons.mpr ⟨hn, h.distinct⟩, fun e m => ?_, fun e => ?_, fun e m hm k hk hmk => ?_,
    fun m hm k hk => ?_, fun m hm => ?_⟩
  · rw [h.mem_add hn hd, List.mem_cons]
    by_cases hmn : m = n
    · subst hmn
      rw [hself.1]
      simp only [true_and, true_or]
      exact ⟨fun hm => hm.elim Eq.symm fun hm => absurd (hsons hm) hn, fun he => .inl he.symm⟩
    · simp only [hmn, false_and, false_or]
      rw [h.mem e m]
      exact and_congr_right fun hm => by rw [(hold hm).1]
  · have hnd : n ∉ L.sons d := fun hm => hn (hsons hm)
    unfold Links.add
    dsimp only
    by_cases he : e = d
    · subst he
      rw [update_self]
      exact List.nodup_cons.mpr ⟨hnd, h.nodup e⟩
    · rw [update_of_ne he]
      by_cases hen : e = some n
      · rw [hen, update_self]
        exact List.nodup_nil
      · rw [update_of_ne hen]
        exact h.nodup e
  · rcases (h.mem_add hn hd).mp hm with ⟨hmn, hme⟩ | hm' <;>
      rcases (h.mem_add hn hd).mp hk with ⟨hkn, hke⟩ | hk'
    · rw [hmn, hkn]
    · rw [hmn, hself.2, (hold (hsons hk')).2] at hmk
      exact absurd hmk.symm (hc k (hme ▸ hk'))
    · rw [hkn, hself.2, (hold (hsons hm')).2] at hmk
      exact absurd hmk (hc m (hke ▸ hm'))
    · rw [(hold (hsons hm')).2, (hold (hsons hk')).2] at hmk
      exact h.unique e m hm' k hk' hmk
  · rcases List.mem_cons.mp hm with rfl | hm
    · rw [hself.1] at hk
      exact ⟨List.mem_cons_of_mem _ (hd k hk), hd' k hk⟩
    · rw [(hold hm).1] at hk
      have hfather := h.father m hm k hk
      exact ⟨List.mem_cons_of_mem _ hfather.1, hdir k hfather.1 hfather.2⟩
  · have hany {m : ι} (hm : m ∈ nodes) : ∃ k, (L.add n d c).Depth (some m) k := by
      obtain ⟨k, hk⟩ := h.rooted m hm
      exact ⟨k, h.depth_add hn (fun j hj => Option.some.inj hj ▸ hm) hk⟩
    rcases List.mem_cons.mp hm with rfl | hm
    · cases hd₀ : d with
      | none => exact ⟨1, .son (by rw [← hd₀, hself.1, hd₀]; exact .root)⟩
      | some j =>
        obtain ⟨k, hk⟩ := hany (hd j hd₀)
        exact ⟨k + 1, .son (by rw [← hd₀, hself.1, hd₀]; exact hd₀ ▸ hk)⟩
    · exact hany hm

/-- The new node is all that is new. -/
theorem Tree.isAt_add (hp : L.IsAt d p) :
    (L.add n d c).IsAt e q ↔ L.IsAt e q ∨ e = some n ∧ q = p ++ [c] := by
  have hself : (L.add n d c).name n = c := update_self ..
  have hname {m : ι} {e : Option ι} (hm : m ∈ L.sons e) : (L.add n d c).name m = L.name m :=
    (add_of_mem hn ((h.mem e m).mp hm).1).2
  have hold {e : Option ι} {q : List ν} (he : L.IsAt e q) : (L.add n d c).IsAt e q := by
    induction he with
    | root => exact .root
    | son he hm ih => exact hname hm ▸ ih.son ((h.mem_add hn hd).mpr (.inr hm))
  constructor
  · intro he
    induction he with
    | root => exact .inl .root
    | @son e m q he hm ih =>
      rcases (h.mem_add hn hd).mp hm with ⟨rfl, rfl⟩ | hm'
      · rw [hself]
        rcases ih with ih | ⟨he, -⟩
        · exact .inr ⟨rfl, by rw [ih.path_eq h hp]⟩
        · exact absurd (hd m he) hn
      · rcases ih with ih | ⟨rfl, -⟩
        · exact .inl (hname hm' ▸ ih.son hm')
        · have hfather := (h.mem _ m).mp hm'
          exact absurd (h.father m hfather.1 n hfather.2).1 hn
  · rintro (he | ⟨rfl, rfl⟩)
    · exact hold he
    · have hson := (hold hp).son ((h.mem_add (c := c) hn hd).mpr (.inl ⟨rfl, rfl⟩))
      rwa [hself] at hson

end add

/-! ## A node is deleted -/

section del
variable (h : L.Tree nodes dir) (hson : L.sons (some n) = [])
include h hson

omit hson in
theorem Tree.mem_del : m ∈ (L.del n).sons e ↔ m ≠ n ∧ m ∈ L.sons e := by
  unfold del
  dsimp only
  by_cases he : e = L.father n
  · subst he
    rw [update_self, (h.nodup _).mem_erase_iff]
  · rw [update_of_ne he]
    refine ⟨fun hm => ⟨fun heq => he ?_, hm⟩, And.right⟩
    rw [← heq]
    exact ((h.mem e m).mp hm).2.symm

/-- A node without sons is taken out of the tree. -/
theorem Tree.del : (L.del n).Tree (nodes.erase n) dir := by
  have hmem {m : ι} : m ∈ nodes.erase n ↔ m ≠ n ∧ m ∈ nodes := h.distinct.mem_erase_iff
  refine ⟨h.distinct.erase n, fun e m => ?_, fun e => ?_, fun e m hm k hk => ?_, fun m hm k hk => ?_,
    fun m hm => ?_⟩
  · rw [h.mem_del, hmem, h.mem, and_assoc]
    rfl
  · unfold Links.del
    dsimp only
    by_cases he : e = L.father n
    · rw [he, update_self]
      exact (h.nodup _).erase n
    · rw [update_of_ne he]
      exact h.nodup e
  · exact h.unique e m (h.mem_del.mp hm).2 k (h.mem_del.mp hk).2
  · have hm := (hmem.mp hm).2
    have hfather := h.father m hm k hk
    refine ⟨hmem.mpr ⟨fun heq => ?_, hfather.1⟩, hfather.2⟩
    have hson' : m ∈ L.sons (some n) := (h.mem _ m).mpr ⟨hm, heq ▸ hk⟩
    rw [hson] at hson'
    cases hson'
  · obtain ⟨k, hk⟩ := h.rooted m (hmem.mp hm).2
    refine ⟨k, ?_⟩
    have hany {e : Option ι} {k : ℕ} (he : L.Depth e k) : (L.del n).Depth e k := by
      induction he with
      | root => exact .root
      | son _ ih => exact .son ih
    exact hany hk

/-- The node is all that is gone. -/
theorem Tree.isAt_del : (L.del n).IsAt e q ↔ L.IsAt e q ∧ e ≠ some n := by
  constructor
  · intro he
    induction he with
    | root => exact ⟨.root, nofun⟩
    | son he hm ih =>
      obtain ⟨hne, hm⟩ := h.mem_del.mp hm
      exact ⟨ih.1.son hm, fun heq => hne (Option.some.inj heq)⟩
  · rintro ⟨he, hne⟩
    induction he with
    | root => exact .root
    | @son e m q he hm ih =>
      have hme : e ≠ some n := by
        rintro rfl
        rw [hson] at hm
        cases hm
      exact (ih hme).son (h.mem_del.mpr ⟨fun heq => hne (heq ▸ rfl), hm⟩)

end del

/-- A node may get a name that its brothers do not have. -/
theorem Tree.rename (h : L.Tree nodes dir) (hc : ∀ m ∈ L.sons (L.father n), m ≠ n → L.name m ≠ c) :
    (L.rename n c).Tree nodes dir := by
  refine ⟨h.distinct, h.mem, h.nodup, fun e m hm k hk hmk => ?_, h.father, fun m hm => ?_⟩
  · have hfather {j : ι} (hj : j ∈ L.sons e) : L.father j = e := ((h.mem e j).mp hj).2
    change update L.name n c m = update L.name n c k at hmk
    by_cases hmn : m = n <;> by_cases hkn : k = n
    · rw [hmn, hkn]
    · rw [hmn, update_self, update_of_ne hkn] at hmk
      have he : e = L.father n := hmn ▸ (hfather hm).symm
      exact absurd hmk.symm (hc k (he ▸ hk) hkn)
    · rw [hkn, update_self, update_of_ne hmn] at hmk
      have he : e = L.father n := hkn ▸ (hfather hk).symm
      exact absurd hmk (hc m (he ▸ hm) hmn)
    · rw [update_of_ne hmn, update_of_ne hkn] at hmk
      exact h.unique e m hm k hk hmk
  · obtain ⟨k, hk⟩ := h.rooted m hm
    refine ⟨k, ?_⟩
    have hany {e : Option ι} {k : ℕ} (he : L.Depth e k) : (L.rename n c).Depth e k := by
      induction he with
      | root => exact .root
      | son _ ih => exact .son ih
    exact hany hk

omit [DecidableEq ι] in
/-- No links at all. -/
theorem Tree.empty (hL : ∀ d, L.sons d = []) : L.Tree [] dir :=
  ⟨List.nodup_nil, by simp [hL], by simp [hL], by simp [hL], nofun, nofun⟩

end Links

end SylixOS.Lib
