import SylixOS.Tree.Trie
import Mathlib.Order.Bounds.Basic

/-! # What the trie holds

The node at the end of a path counts the strings that start with the path, and its cached child is
one that was used most. So the search behind a prefix ends in a string that was inserted. Both need
that every byte stands for a child: a byte from 128 on does not.
-/

namespace SylixOS.Tree
open Lib TrieNode

variable {t u : TrieNode} {ws vs : List (List Byte)} {w p q r : List Byte} {c i : Byte}

/-- All bytes are below 128. -/
def Plain (w : List Byte) : Prop := ∀ c ∈ w, c < 128

/-- What one node says of the strings behind its path. -/
structure Counts (t : TrieNode) (ws : List (List Byte)) : Prop where
  frequence : t.frequence = min maxFreq ws.length
  isEnd : t.isEnd = true ↔ [] ∈ ws
  child : ∀ i, (t.child i).isValid = true ↔ tailsOf i ws ≠ []
  most : ∀ i, (t.child i).frequence ≤ t.maxFrequence
  best : (t.maxFrequence = 0 ∧ ∀ i, (t.child i).isValid = false) ∨
    ∃ i, t.mostFrequentlyUsedChar = some i ∧ (t.child i).isValid = true ∧
      (t.child i).frequence = t.maxFrequence

/-- Every node below says the right thing of the strings. -/
def Represents (t : TrieNode) (ws : List (List Byte)) : Prop := ∀ p, Counts (t.at p) (suffixes p ws)

@[simp] theorem at_nil : t.at [] = t := rfl

@[simp] theorem at_cons : t.at (c :: p) = (t.child c).at p := rfl

theorem at_append : t.at (p ++ q) = (t.at p).at q := by
  induction p generalizing t with
  | nil => rfl
  | cons c p ih => exact ih

@[simp] theorem invalid_at : invalid.at p = invalid := by
  induction p with
  | nil => rfl
  | cons c p ih => exact ih

theorem slot_of_lt (h : c < 128) : slot c = some c := if_pos h

theorem slot_of_not_lt (h : ¬ c < 128) : slot c = none := if_neg h

theorem frequence_of_not_valid (h : t.isValid = false) : t.frequence = 0 := by
  cases t with
  | invalid => rfl
  | valid => cases h

namespace Represents

theorem counts (h : Represents t ws) : Counts t ws := h []

theorem child (h : Represents t ws) (i : Byte) : Represents (t.child i) (tailsOf i ws) := fun p =>
  h (i :: p)

theorem of_child (h : Counts t ws) (hchild : ∀ i, Represents (t.child i) (tailsOf i ws)) :
    Represents t ws := fun p => by
  cases p with
  | nil => exact h
  | cons c p => exact hchild c p

theorem invalid : Represents invalid [] := by
  intro p
  have hempty : suffixes p ([] : List (List Byte)) = [] := suffixes_eq_nil.mpr (by simp)
  rw [hempty, invalid_at]
  exact ⟨rfl, by simp [TrieNode.isEnd], by simp [TrieNode.child, TrieNode.isValid],
    fun i => Nat.le_refl _, .inl ⟨rfl, fun i => rfl⟩⟩

theorem root : Represents trieGetRoot [] := by
  refine of_child ?_ fun i => invalid
  exact ⟨rfl, by simp [trieGetRoot, TrieNode.isEnd],
    by simp [trieGetRoot, TrieNode.child, TrieNode.isValid], fun i => Nat.le_refl _,
    .inl ⟨rfl, fun i => rfl⟩⟩

end Represents

/-! ## Insertion -/

/-- A counter that has reached its limit stays there. -/
theorem use_min {n : ℕ} : use (min maxFreq n) = min maxFreq (n + 1) := by
  unfold use
  split_ifs <;> omega

/-- The string that ends at the node. -/
theorem Counts.insert_nil (h : Counts t ws) :
    Counts (valid true (use t.frequence) t.maxFrequence t.mostFrequentlyUsedChar t.child)
      (ws ++ [[]]) where
  frequence := by
    rw [List.length_append]
    exact (congrArg use h.frequence).trans use_min
  isEnd := by simp [TrieNode.isEnd]
  child i := by
    rw [tailsOf_append, tailsOf_cons_nil, tailsOf_nil, List.append_nil]
    exact h.child i
  most := h.most
  best := h.best

/-- A string that goes on to a child. -/
theorem Counts.insert_cons (h : Counts t ws) (hu : u.isValid = true)
    (hfreq : u.frequence = min maxFreq ((tailsOf c ws).length + 1))
    (hold : (t.child c).frequence = min maxFreq (tailsOf c ws).length) :
    Counts (used t.isEnd (use t.frequence) t.maxFrequence t.mostFrequentlyUsedChar
      (Function.update t.child c u) c) (ws ++ [c :: w]) := by
  have hself : Function.update t.child c u c = u := Function.update_self ..
  have hother (i : Byte) (hi : i ≠ c) : Function.update t.child c u i = t.child i :=
    Function.update_of_ne hi ..
  have htails (i : Byte) (hi : i ≠ c) : tailsOf i (ws ++ [c :: w]) = tailsOf i ws := by
    rw [tailsOf_append, tailsOf_cons_of_ne (Ne.symm hi), tailsOf_nil, List.append_nil]
  have huse : use t.frequence = min maxFreq (ws ++ [c :: w]).length := by
    rw [List.length_append]
    exact (congrArg use h.frequence).trans use_min
  have hend : t.isEnd = true ↔ [] ∈ ws ++ [c :: w] := by simpa using h.isEnd
  have hchild (i : Byte) : (Function.update t.child c u i).isValid = true ↔
      tailsOf i (ws ++ [c :: w]) ≠ [] := by
    by_cases hi : i = c
    · subst hi
      simp [hu]
    · rw [hother i hi, htails i hi]
      exact h.child i
  unfold used
  rw [hself]
  by_cases hge : u.frequence ≥ t.maxFrequence
  · rw [if_pos hge]
    refine ⟨huse, hend, hchild, fun i => ?_, .inr ⟨c, rfl, ?_, ?_⟩⟩
    · by_cases hi : i = c
      · subst hi
        exact (congrArg TrieNode.frequence hself).le
      · exact (congrArg TrieNode.frequence (hother i hi)).trans_le ((h.most i).trans hge)
    · exact (congrArg TrieNode.isValid hself).trans hu
    · exact congrArg TrieNode.frequence hself
  · rw [if_neg hge]
    refine ⟨huse, hend, hchild, fun i => ?_, ?_⟩
    · by_cases hi : i = c
      · subst hi
        exact (congrArg TrieNode.frequence hself).trans_le (Nat.le_of_lt (Nat.not_le.mp hge))
      · exact (congrArg TrieNode.frequence (hother i hi)).trans_le (h.most i)
    · -- The cached child was used more often than this one, so it is another one.
      rcases h.best with ⟨hzero, -⟩ | ⟨b, hb, hvalid, hmax⟩
      · omega
      · have hbc : b ≠ c := fun heq => by
          subst heq
          omega
        exact .inr ⟨b, hb, (congrArg TrieNode.isValid (hother b hbc)).trans hvalid,
          (congrArg TrieNode.frequence (hother b hbc)).trans hmax⟩

theorem used_child {e : Bool} {f m : ℕ} {b : Option Byte} {ch : Byte → TrieNode} (j : Byte) :
    (used e f m b ch i).child j = ch j := by
  unfold used
  split_ifs <;> rfl

theorem used_valid {e : Bool} {f m : ℕ} {b : Option Byte} {ch : Byte → TrieNode} :
    (used e f m b ch i).isValid = true := by
  unfold used
  split_ifs <;> rfl

/-- One insertion. -/
theorem trieInsert_represents (hw : Plain w) (h : Represents t ws) :
    ∃ u, trieInsert w t = some u ∧ u.isValid = true ∧ Represents u (ws ++ [w]) := by
  induction w generalizing t ws with
  | nil =>
    refine ⟨_, rfl, rfl, .of_child h.counts.insert_nil fun i => ?_⟩
    rw [tailsOf_append, tailsOf_cons_nil, tailsOf_nil, List.append_nil]
    exact h.child i
  | cons c w ih =>
    obtain ⟨u, hu, hvalid, hrep⟩ := ih (fun d hd => hw d (List.mem_cons_of_mem c hd)) (h.child c)
    refine ⟨_, by rw [trieInsert, slot_of_lt (hw c List.mem_cons_self), Option.bind_some, hu]; rfl,
      used_valid, .of_child ?_ fun i => ?_⟩
    · refine h.counts.insert_cons hvalid ?_ (h.child c).counts.frequence
      rw [hrep.counts.frequence, List.length_append]
      rfl
    · rw [used_child, tailsOf_append]
      by_cases hi : i = c
      · subst hi
        rw [Function.update_self, tailsOf_cons_self]
        exact hrep
      · rw [Function.update_of_ne hi, tailsOf_cons_of_ne (Ne.symm hi), tailsOf_nil, List.append_nil]
        exact h.child i

/-- A whole run of insertions. -/
theorem insertAll_represents (hvs : ∀ w ∈ vs, Plain w) (h : Represents t ws) :
    ∃ u, insertAll t vs = some u ∧ Represents u (ws ++ vs) := by
  induction vs generalizing t ws with
  | nil => exact ⟨t, rfl, by rwa [List.append_nil]⟩
  | cons w vs ih =>
    obtain ⟨u, hu, -, hrep⟩ := trieInsert_represents (hvs w List.mem_cons_self) h
    obtain ⟨u', hu', hrep'⟩ := ih (fun v hv => hvs v (List.mem_cons_of_mem w hv)) hrep
    refine ⟨u', ?_, by rwa [List.append_assoc] at hrep'⟩
    unfold insertAll at hu' ⊢
    rw [List.foldlM_cons, hu]
    exact hu'

/-- A string with a byte that finds no child has no defined insertion. -/
theorem trieInsert_none (hw : ¬ Plain w) : trieInsert w t = none := by
  induction w generalizing t with
  | nil => exact absurd (by simp [Plain]) hw
  | cons c w ih =>
    rw [trieInsert]
    by_cases hc : c < 128
    · have hw' : ¬ Plain w := fun h => hw fun d hd => by
        rcases List.mem_cons.mp hd with rfl | hd
        · exact hc
        · exact h d hd
      rw [slot_of_lt hc, Option.bind_some, ih hw']
      rfl
    · rw [slot_of_not_lt hc]
      rfl

theorem plain_of_insertAll (h : insertAll t ws = some u) : ∀ w ∈ ws, Plain w := by
  induction ws generalizing t with
  | nil => simp
  | cons v ws ih =>
    unfold insertAll at h ih
    rw [List.foldlM_cons] at h
    obtain ⟨t', ht', h⟩ := Option.bind_eq_some_iff.mp h
    intro w hw
    rcases List.mem_cons.mp hw with rfl | hw
    · by_contra hplain
      rw [trieInsert_none hplain] at ht'
      cases ht'
    · exact ih h w hw

theorem insertAll_valid (h : insertAll t ws = some u) (ht : t.isValid = true) : u.isValid = true := by
  induction ws generalizing t with
  | nil =>
    cases h
    exact ht
  | cons w ws ih =>
    unfold insertAll at h ih
    rw [List.foldlM_cons] at h
    obtain ⟨t', ht', h⟩ := Option.bind_eq_some_iff.mp h
    refine ih h ?_
    cases w with
    | nil =>
      cases ht'
      rfl
    | cons c w =>
      obtain ⟨i, -, ht'⟩ := Option.bind_eq_some_iff.mp ht'
      obtain ⟨v, -, rfl⟩ := Option.map_eq_some_iff.mp ht'
      exact used_valid

/-! ## The search -/

theorem plain_tailsOf (h : ∀ w ∈ ws, Plain w) : ∀ w ∈ tailsOf c ws, Plain w := fun w hw d hd =>
  h (c :: w) (mem_tailsOf.mp hw) d (List.mem_cons_of_mem c hd)

theorem lt_of_tailsOf (h : ∀ w ∈ ws, Plain w) (hc : tailsOf c ws ≠ []) : c < 128 := by
  obtain ⟨w, hw⟩ := List.exists_mem_of_ne_nil _ hc
  exact h _ (mem_tailsOf.mp hw) c List.mem_cons_self

/-- From a node that strings have gone through, the cached children lead to the end of one. -/
theorem mostUsed_mem (h : Represents t ws) (hws : ∀ w ∈ ws, Plain w) (hvalid : t.isValid = true)
    (hne : ws ≠ []) : ∃ s, mostUsed t = some s ∧ s ∈ ws := by
  induction t generalizing ws with
  | invalid => cases hvalid
  | valid e f m b ch ih =>
    have hc := h.counts
    cases e with
    | true => exact ⟨[], rfl, hc.isEnd.mp rfl⟩
    | false =>
      obtain ⟨w, hw⟩ := List.exists_mem_of_ne_nil _ hne
      have hchild : ∃ i, (ch i).isValid = true := by
        cases w with
        | nil => exact absurd (hc.isEnd.mpr hw) (by simp [TrieNode.isEnd])
        | cons i w => exact ⟨i, (hc.child i).mpr (List.ne_nil_of_mem (mem_tailsOf.mpr hw))⟩
      obtain ⟨j, hj⟩ := hchild
      rcases hc.best with ⟨-, hnone⟩ | ⟨i, hb, hi, -⟩
      · have hfalse : (ch j).isValid = false := hnone j
        rw [hj] at hfalse
        cases hfalse
      · have htails := (hc.child i).mp hi
        obtain ⟨s, hs, hmem⟩ := ih i (h.child i) (plain_tailsOf hws) hi htails
        refine ⟨i :: s, ?_, mem_tailsOf.mp hmem⟩
        have hb : b = some i := hb
        rw [mostUsed, hb, Option.bind_some, slot_of_lt (lt_of_tailsOf hws htails), Option.bind_some, hs]
        rfl

/-- Behind a byte that finds no child, nothing is read: its node is not valid. -/
def Readable (ws : List (List Byte)) (p : List Byte) : Prop :=
  ∀ q c r, p = q ++ c :: r → ¬ c < 128 → suffixes q ws = []

theorem Readable.tail (h : Readable ws (c :: p)) : Readable (tailsOf c ws) p := fun q d r heq =>
  h (c :: q) d r (by rw [heq]; rfl)

/-- The search below a node that is valid exactly if strings have gone through it. -/
theorem trieSearch_spec (h : Represents t ws) (hws : ∀ w ∈ ws, Plain w)
    (hvalid : t.isValid = true ↔ ws ≠ []) (hp : Readable ws p) :
    ∃ r, trieSearch p t = some r ∧ (r = none ↔ suffixes p ws = []) ∧
      ∀ s, r = some s → s ∈ suffixes p ws := by
  induction p generalizing t ws with
  | nil =>
    by_cases hv : t.isValid = true
    · obtain ⟨s, hs, hmem⟩ := mostUsed_mem h hws hv (hvalid.mp hv)
      refine ⟨some s, by rw [trieSearch, if_pos hv, hs]; rfl, ?_, fun s' hs' => ?_⟩
      · simpa using hvalid.mp hv
      · cases hs'
        exact hmem
    · refine ⟨none, by rw [trieSearch, if_neg hv], ?_, by simp⟩
      simpa using fun hne => hv (hvalid.mpr hne)
  | cons c p ih =>
    by_cases hv : t.isValid = true
    · have hc : c < 128 := by
        by_contra hc
        exact hvalid.mp hv (hp [] c p rfl hc)
      rw [trieSearch, if_pos hv, slot_of_lt hc, Option.bind_some]
      exact ih (h.child c) (plain_tailsOf hws) (h.counts.child c) hp.tail
    · refine ⟨none, by rw [trieSearch, if_neg hv], ?_, by simp⟩
      have hnil : ws = [] := by
        by_contra hne
        exact hv (hvalid.mpr hne)
      rw [hnil]
      simp [suffixes_eq_nil]

/-- A search that comes to such a byte at a valid node has no defined result. -/
theorem trieSearch_none (h : Represents t ws) (hws : ∀ w ∈ ws, Plain w)
    (hvalid : t.isValid = true ↔ ws ≠ []) (hp : ¬ Readable ws p) : trieSearch p t = none := by
  induction p generalizing t ws with
  | nil => exact absurd (fun q c r heq => by simp at heq) hp
  | cons c p ih =>
    have hne : ws ≠ [] := fun hnil => hp fun q d r _ _ => by
      rw [hnil]
      exact suffixes_eq_nil.mpr (by simp)
    rw [trieSearch, if_pos (hvalid.mpr hne)]
    by_cases hc : c < 128
    · rw [slot_of_lt hc, Option.bind_some]
      refine ih (h.child c) (plain_tailsOf hws) (h.counts.child c) fun hread => hp ?_
      intro q d r heq hd
      cases q with
      | nil =>
        cases heq
        exact absurd hc hd
      | cons e q =>
        cases heq
        exact hread q d r rfl hd
    · rw [slot_of_not_lt hc]
      rfl

/-- The search behind the prefix starts at its node. -/
theorem mostUsed_of_trieSearch (h : trieSearch p t = some (some r)) : mostUsed (t.at p) = some r := by
  induction p generalizing t with
  | nil =>
    rw [trieSearch] at h
    split_ifs at h
    · obtain ⟨a, ha, heq⟩ := Option.map_eq_some_iff.mp h
      cases heq
      exact ha
    · cases h
  | cons c p ih =>
    rw [trieSearch] at h
    split_ifs at h
    · obtain ⟨i, hi, h⟩ := Option.bind_eq_some_iff.mp h
      unfold slot at hi
      split_ifs at hi
      cases hi
      exact ih h
    · cases h

/-- It stops at the first end of a string. -/
theorem isEnd_iff_of_mostUsed (h : mostUsed t = some r) : t.isEnd = true ↔ r = [] := by
  cases t with
  | invalid => cases h
  | valid e f m b ch =>
    cases e with
    | true =>
      cases h
      exact ⟨fun _ => rfl, fun _ => rfl⟩
    | false =>
      obtain ⟨i, -, h⟩ := Option.bind_eq_some_iff.mp h
      obtain ⟨s, -, rfl⟩ := Option.map_eq_some_iff.mp h
      exact ⟨fun he => absurd he Bool.false_ne_true, nofun⟩

theorem mostUsed_cons (h : mostUsed t = some (c :: r)) : mostUsed (t.child c) = some r := by
  cases t with
  | invalid => cases h
  | valid e f m b ch =>
    cases e with
    | true => cases h
    | false =>
      obtain ⟨i, -, h⟩ := Option.bind_eq_some_iff.mp h
      obtain ⟨s, hs, heq⟩ := Option.map_eq_some_iff.mp h
      cases heq
      exact hs

theorem mostUsed_append (h : mostUsed t = some (p ++ r)) : mostUsed (t.at p) = some r := by
  induction p generalizing t with
  | nil => exact h
  | cons c p ih => exact ih (mostUsed_cons h)

/-! ## What is claimed of the trie -/

/-- Every node counts the strings through it, and its cached child is one with the most uses. -/
structure TrieOk (ws : List (List Byte)) (t : TrieNode) : Prop where
  frequence : ∀ p, (t.at p).frequence = min maxFreq (through ws p)
  isEnd : ∀ p, (t.at p).isEnd = true ↔ p ∈ ws
  maxFrequence : ∀ p,
    IsGreatest (Set.range fun i => (t.at (p ++ [i])).frequence) (t.at p).maxFrequence
  mostUsed : ∀ p, (∃ i, (t.at (p ++ [i])).isValid = true) →
    ∃ i, (t.at p).mostFrequentlyUsedChar = some i ∧ (t.at (p ++ [i])).isValid = true ∧
      (t.at (p ++ [i])).frequence = (t.at p).maxFrequence

/-- The search ends with the null pointer if no string extends the prefix, and otherwise with the rest
of one that does. -/
def Answers (ws : List (List Byte)) (t : TrieNode) (p : List Byte) : Prop :=
  ∃ r, trieSearch p t = some r ∧ (r = none ↔ ∀ w ∈ ws, ¬ p <+: w) ∧ ∀ s, r = some s → p ++ s ∈ ws

/-- A byte of the prefix that is 128 or more stands neither at its start nor behind a part that an
inserted string extends. -/
def Reads (ws : List (List Byte)) (p : List Byte) : Prop :=
  ∀ q c r, p = q ++ c :: r → 128 ≤ c → q ≠ [] ∧ ∀ w ∈ ws, ¬ q <+: w

theorem Represents.trieOk (h : Represents t ws) : TrieOk ws t := by
  have hat (p : List Byte) (i : Byte) : t.at (p ++ [i]) = (t.at p).child i := at_append
  refine ⟨fun p => ?_, fun p => ?_, fun p => ?_, fun p hi => ?_⟩
  · rw [(h p).frequence, length_suffixes]
  · rw [(h p).isEnd, mem_suffixes, List.append_nil]
  · simp only [hat]
    refine ⟨?_, ?_⟩
    · rcases (h p).best with ⟨hzero, hnone⟩ | ⟨i, -, -, hmax⟩
      · exact ⟨0, by simp only [frequence_of_not_valid (hnone 0), hzero]⟩
      · exact ⟨i, hmax⟩
    · rintro _ ⟨i, rfl⟩
      exact (h p).most i
  · simp only [hat] at hi ⊢
    obtain ⟨j, hj⟩ := hi
    rcases (h p).best with ⟨-, hnone⟩ | hbest
    · rw [hnone j] at hj
      cases hj
    · exact hbest

/-- Behind the first byte of a prefix, the nodes are valid exactly if strings have gone through them. -/
theorem reads_cons (hc : c < 128) : Reads ws (c :: p) ↔ Readable (tailsOf c ws) p := by
  have hnil (q : List Byte) : suffixes q (tailsOf c ws) = [] ↔ ∀ w ∈ ws, ¬ (c :: q) <+: w :=
    suffixes_eq_nil (p := c :: q)
  constructor
  · intro h q d r heq hd
    exact (hnil q).mpr (h (c :: q) d r (by rw [heq]; rfl) (Fin.not_lt.mp hd)).2
  · intro h q d r heq hd
    cases q with
    | nil =>
      cases heq
      exact absurd hc (Fin.not_lt.mpr hd)
    | cons e q =>
      cases heq
      exact ⟨by simp, (hnil q).mp (h q d r rfl (Fin.not_lt.mpr hd))⟩

/-- The search from the root. -/
theorem trieSearch_root (ht : t.isValid = true) :
    trieSearch (c :: p) t = (slot c).bind fun i => trieSearch p (t.child i) := by
  rw [trieSearch, if_pos ht]

/-- The trie represents the strings and answers for the prefix exactly if all inserted bytes are
below 128, and no other byte of the prefix is looked up. -/
theorem trie_represents_iff (ws : List (List Byte)) (p : List Byte) (hp : p ≠ []) :
    (∃ t, insertAll trieGetRoot ws = some t ∧ TrieOk ws t ∧ Answers ws t p) ↔
      (∀ w ∈ ws, ∀ c ∈ w, c < 128) ∧ Reads ws p := by
  obtain ⟨c, p, rfl⟩ := List.exists_cons_of_ne_nil hp
  constructor
  · rintro ⟨t, ht, -, r, hr, -⟩
    have hplain : ∀ w ∈ ws, Plain w := plain_of_insertAll ht
    obtain ⟨u, hu, hrep⟩ := insertAll_represents hplain Represents.root
    cases ht.symm.trans hu
    rw [trieSearch_root (insertAll_valid ht rfl)] at hr
    have hc : c < 128 := by
      by_contra hc
      rw [slot_of_not_lt hc] at hr
      cases hr
    rw [slot_of_lt hc, Option.bind_some] at hr
    refine ⟨hplain, (reads_cons hc).mpr ?_⟩
    by_contra hread
    rw [trieSearch_none (hrep.child c) (plain_tailsOf hplain) (hrep.counts.child c) hread] at hr
    cases hr
  · rintro ⟨hplain, hreads⟩
    obtain ⟨t, ht, hrep⟩ := insertAll_represents hplain Represents.root
    have hc : c < 128 := by
      by_contra hc
      exact (hreads [] c p rfl (Fin.not_lt.mp hc)).1 rfl
    obtain ⟨r, hr, hnone, hsome⟩ := trieSearch_spec (hrep.child c) (plain_tailsOf hplain)
      (hrep.counts.child c) ((reads_cons hc).mp hreads)
    refine ⟨t, ht, hrep.trieOk, r, ?_, ?_, fun s hs => ?_⟩
    · rw [trieSearch_root (insertAll_valid ht rfl), slot_of_lt hc, Option.bind_some, hr]
    · rw [hnone]
      exact suffixes_eq_nil (p := c :: p)
    · exact mem_tailsOf.mp (mem_suffixes.mp (hsome s hs))

/-- Two commands with one prefix. -/
theorem trie_represents_two : ∃ t, insertAll trieGetRoot [[108, 115], [108, 110], [108, 115]] = some t ∧
    TrieOk [[108, 115], [108, 110], [108, 115]] t ∧
    Answers [[108, 115], [108, 110], [108, 115]] t [108] := by
  refine (trie_represents_iff _ [108] (by simp)).mpr ⟨by decide +kernel, fun q c r heq hc => ?_⟩
  cases q with
  | nil =>
    cases heq
    exact absurd hc (by decide)
  | cons e q =>
    have := congrArg List.length heq
    simp at this

/-- The first byte of a letter in UTF-8 is taken as a negative index. -/
theorem trie_utf8 : ¬ ∃ t, insertAll trieGetRoot [[195, 169]] = some t ∧ TrieOk [[195, 169]] t ∧
    Answers [[195, 169]] t [101] := by
  rintro ⟨t, ht, -⟩
  cases ht

end SylixOS.Tree
