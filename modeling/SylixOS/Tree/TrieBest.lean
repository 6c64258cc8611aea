import SylixOS.Tree.TrieSearch
import Mathlib.Data.List.Find
import Mathlib.Data.List.Induction

/-! # Which command is suggested

Behind the prefix, the search goes on with the byte that most commands go on with, the latest one of
several, up to the first end of a command. The counts stop at their largest value. -/

namespace SylixOS.Tree
open Lib TrieNode

variable {t u : TrieNode} {ws : List (List Byte)} {w p s : List Byte} {c i : Byte}

/-- How many strings start with a byte, as far as a node counts. -/
def uses (ws : List (List Byte)) (i : Byte) : ℕ := min maxFreq (tailsOf i ws).length

/-- The first byte that most strings have, and the last one of those that was used. -/
def favourite (ws : List (List Byte)) : Option Byte :=
  (ws.reverse.filterMap List.head?).find? fun i => ∀ j, uses ws j ≤ uses ws i

/-- The cached child of every node below is the favourite of the strings. -/
def Cached (t : TrieNode) (ws : List (List Byte)) : Prop :=
  ∀ p, (t.at p).mostFrequentlyUsedChar = favourite (suffixes p ws)

theorem uses_append_of_ne (h : i ≠ c) : uses (ws ++ [c :: w]) i = uses ws i := by
  unfold uses
  rw [tailsOf_append, tailsOf_cons_of_ne h.symm, tailsOf_nil, List.append_nil]

theorem uses_append_self : uses (ws ++ [c :: w]) c = min maxFreq ((tailsOf c ws).length + 1) := by
  unfold uses
  rw [tailsOf_append, tailsOf_cons_self, tailsOf_nil, List.length_append]
  rfl

theorem uses_le_append (i : Byte) : uses ws i ≤ uses (ws ++ [c :: w]) i := by
  unfold uses
  rw [tailsOf_append, List.length_append]
  omega

theorem favourite_append_nil : favourite (ws ++ [[]]) = favourite ws := by
  have huses (i : Byte) : uses (ws ++ [[]]) i = uses ws i := by
    unfold uses
    rw [tailsOf_append, tailsOf_cons_nil, tailsOf_nil, List.append_nil]
  unfold favourite
  rw [List.reverse_append]
  simp only [huses]
  rfl

/-- A byte becomes the favourite if no other one has been used more often, and otherwise the favourite
stays. -/
theorem favourite_append_cons : favourite (ws ++ [c :: w]) =
    if ∀ j, uses (ws ++ [c :: w]) j ≤ uses (ws ++ [c :: w]) c then some c else favourite ws := by
  have hsplit : (ws ++ [c :: w]).reverse.filterMap List.head? =
      c :: ws.reverse.filterMap List.head? := by
    rw [List.reverse_append]
    rfl
  unfold favourite
  rw [hsplit, List.find?_cons]
  split_ifs with hmax
  · rw [decide_eq_true hmax]
  · rw [decide_eq_false hmax]
    refine List.find?_congr fun i _ => decide_eq_decide.mpr ?_
    obtain ⟨k, hk⟩ := not_forall.mp hmax
    rw [Nat.not_le] at hk
    have hkc : k ≠ c := by
      rintro rfl
      exact Nat.lt_irrefl _ hk
    have hold : uses (ws ++ [c :: w]) k = uses ws k := uses_append_of_ne hkc
    by_cases hi : i = c
    · subst hi
      have hle : uses ws i ≤ uses (ws ++ [i :: w]) i := uses_le_append i
      refine iff_of_false (fun h => ?_) (fun h => ?_)
      · exact absurd (h k) (Nat.not_le.mpr hk)
      · have := h k
        omega
    · rw [uses_append_of_ne hi]
      refine ⟨fun h j => (uses_le_append j).trans (h j), fun h j => ?_⟩
      by_cases hj : j = c
      · subst hj
        have := h k
        omega
      · rw [uses_append_of_ne hj]
        exact h j

/-! ## Insertion -/

theorem Cached.counts (h : Cached t ws) : t.mostFrequentlyUsedChar = favourite ws := h []

theorem Cached.at (h : Cached t ws) (p : List Byte) : Cached (t.at p) (suffixes p ws) := fun q => by
  rw [← at_append, h (p ++ q)]
  unfold suffixes
  rw [List.foldl_append]

theorem Represents.at (h : Represents t ws) (p : List Byte) : Represents (t.at p) (suffixes p ws) :=
  fun q => by
    have hq := h (p ++ q)
    unfold suffixes at hq ⊢
    rwa [List.foldl_append, at_append] at hq

theorem Cached.child (h : Cached t ws) (i : Byte) : Cached (t.child i) (tailsOf i ws) := fun p =>
  h (i :: p)

theorem Cached.of_child (h : t.mostFrequentlyUsedChar = favourite ws)
    (hchild : ∀ i, Cached (t.child i) (tailsOf i ws)) : Cached t ws := fun p => by
  cases p with
  | nil => exact h
  | cons c p => exact hchild c p

theorem Cached.root : Cached trieGetRoot [] := by
  intro p
  have hnil : suffixes p ([] : List (List Byte)) = [] := suffixes_eq_nil.mpr (by simp)
  have hat : (trieGetRoot.at p).mostFrequentlyUsedChar = none := by
    cases p with
    | nil => rfl
    | cons c p =>
      rw [at_cons]
      change (invalid.at p).mostFrequentlyUsedChar = none
      rw [invalid_at]
      rfl
  rw [hnil, hat]
  rfl

theorem Represents.uses_eq (h : Represents t ws) (i : Byte) : (t.child i).frequence = uses ws i :=
  (h.child i).counts.frequence

/-- The comparison at the end of an insertion asks whether the byte is a favourite now. -/
theorem maxFrequence_le_iff (h : Represents t ws) : t.maxFrequence ≤ uses (ws ++ [c :: w]) c ↔
    ∀ j, uses (ws ++ [c :: w]) j ≤ uses (ws ++ [c :: w]) c := by
  constructor
  · intro hle j
    by_cases hj : j = c
    · rw [hj]
    · rw [uses_append_of_ne hj, ← h.uses_eq]
      exact (h.counts.most j).trans hle
  · intro hmax
    rcases h.counts.best with ⟨hzero, -⟩ | ⟨i, -, -, hi⟩
    · omega
    · rw [← hi, h.uses_eq]
      exact (uses_le_append i).trans (hmax i)

theorem trieInsert_cached (hw : Plain w) (h : Represents t ws) (hc : Cached t ws)
    (hu : trieInsert w t = some u) : Cached u (ws ++ [w]) := by
  induction w generalizing t ws u with
  | nil =>
    cases hu
    refine .of_child (hc.counts.trans favourite_append_nil.symm) fun i => ?_
    rw [tailsOf_append, tailsOf_cons_nil, tailsOf_nil, List.append_nil]
    exact hc.child i
  | cons c w ih =>
    have hplain : Plain w := fun d hd => hw d (List.mem_cons_of_mem c hd)
    rw [trieInsert, slot_of_lt (hw c List.mem_cons_self), Option.bind_some, Option.map_eq_some_iff] at hu
    obtain ⟨v, hv, rfl⟩ := hu
    have hcv := ih hplain (h.child c) (hc.child c) hv
    obtain ⟨v', hv', -, hrep⟩ := trieInsert_represents hplain (h.child c)
    cases hv.symm.trans hv'
    have hfreq : v.frequence = uses (ws ++ [c :: w]) c := by
      rw [hrep.counts.frequence, uses_append_self, List.length_append]
      rfl
    refine .of_child ?_ fun i => ?_
    · rw [favourite_append_cons]
      have hself : (Function.update t.child c v c).frequence = v.frequence := by
        rw [Function.update_self]
      unfold used
      rw [hself, hfreq]
      by_cases hmax : ∀ j, uses (ws ++ [c :: w]) j ≤ uses (ws ++ [c :: w]) c
      · rw [if_pos hmax, if_pos ((maxFrequence_le_iff h).mpr hmax)]
        rfl
      · rw [if_neg hmax, if_neg fun hle => hmax ((maxFrequence_le_iff h).mp hle)]
        exact hc.counts
    · rw [used_child, tailsOf_append]
      by_cases hi : i = c
      · subst hi
        rw [Function.update_self, tailsOf_cons_self]
        exact hcv
      · rw [Function.update_of_ne hi, tailsOf_cons_of_ne (Ne.symm hi), tailsOf_nil, List.append_nil]
        exact hc.child i

theorem insertAll_cached {vs : List (List Byte)} (hvs : ∀ w ∈ vs, Plain w) (h : Represents t ws)
    (hc : Cached t ws) (hu : insertAll t vs = some u) : Cached u (ws ++ vs) := by
  induction vs generalizing t ws with
  | nil =>
    cases hu
    rwa [List.append_nil]
  | cons w vs ih =>
    obtain ⟨v, hv, -, hrep⟩ := trieInsert_represents (hvs w List.mem_cons_self) h
    unfold insertAll at hu ih
    rw [List.foldlM_cons, hv] at hu
    have hcached := ih (fun x hx => hvs x (List.mem_cons_of_mem w hx)) hrep
      (trieInsert_cached (hvs w List.mem_cons_self) h hc hv) hu
    rwa [List.append_assoc] at hcached

/-! ## The search -/

/-- No string ends before the end of this one, and each of its bytes is the favourite behind those before
it. -/
def Favoured (ws : List (List Byte)) (p s : List Byte) : Prop :=
  ∀ q i, q ++ [i] <+: s → p ++ q ∉ ws ∧ favourite (suffixes (p ++ q) ws) = some i

theorem favoured_nil : Favoured ws p [] := by
  intro q i h
  have := h.length_le
  simp at this

theorem favoured_cons : Favoured ws [] (i :: s) ↔
    ([] ∉ ws ∧ favourite ws = some i) ∧ Favoured (tailsOf i ws) [] s := by
  constructor
  · intro h
    refine ⟨h [] i (by simp), fun q j hq => ?_⟩
    have hq' := h (i :: q) j (List.cons_prefix_cons.mpr ⟨rfl, hq⟩)
    exact ⟨fun hmem => hq'.1 (mem_tailsOf.mp hmem), hq'.2⟩
  · rintro ⟨hnil, h⟩ q j hq
    cases q with
    | nil =>
      obtain ⟨rfl, -⟩ := List.cons_prefix_cons.mp hq
      exact hnil
    | cons d q =>
      obtain ⟨rfl, hq'⟩ := List.cons_prefix_cons.mp hq
      have h' := h q j hq'
      exact ⟨fun hmem => h'.1 (mem_tailsOf.mpr hmem), h'.2⟩

theorem favoured_suffixes : Favoured (suffixes p ws) [] s ↔ Favoured ws p s := by
  have happ (q : List Byte) : suffixes q (suffixes p ws) = suffixes (p ++ q) ws := by
    unfold suffixes
    rw [List.foldl_append]
  unfold Favoured
  simp only [List.nil_append, mem_suffixes, happ]

/-- What the loop behind the prefix collects. -/
theorem mostUsed_eq_some_iff (h : Represents t ws) (hc : Cached t ws) (hws : ∀ w ∈ ws, Plain w)
    (hvalid : t.isValid = true) : mostUsed t = some s ↔ s ∈ ws ∧ Favoured ws [] s := by
  induction t generalizing ws s with
  | invalid => cases hvalid
  | valid e f m b ch ih =>
    have hend := h.counts.isEnd
    have hb : b = favourite ws := hc.counts
    cases e with
    | true =>
      have hnil : [] ∈ ws := hend.mp rfl
      rw [mostUsed, Option.some.injEq]
      constructor
      · rintro rfl
        exact ⟨hnil, favoured_nil⟩
      · rintro ⟨-, hf⟩
        cases s with
        | nil => rfl
        | cons i s => exact absurd hnil (favoured_cons.mp hf).1.1
    | false =>
      have hnil : [] ∉ ws := fun hmem => by cases hend.mpr hmem
      rw [mostUsed]
      constructor
      · intro hs
        obtain ⟨i, hi, hs⟩ := Option.bind_eq_some_iff.mp hs
        obtain ⟨j, hj, hslot⟩ := Option.bind_eq_some_iff.mp hi
        obtain ⟨s', hs', rfl⟩ := Option.map_eq_some_iff.mp hs
        unfold slot at hslot
        split_ifs at hslot
        cases hslot
        have hvi : (ch i).isValid = true := by
          cases hch : ch i with
          | invalid =>
            rw [hch] at hs'
            cases hs'
          | valid => rfl
        obtain ⟨hmem, hf⟩ := (ih i (h.child i) (hc.child i) (plain_tailsOf hws) hvi).mp hs'
        exact ⟨mem_tailsOf.mp hmem, favoured_cons.mpr ⟨⟨hnil, hb ▸ hj⟩, hf⟩⟩
      · rintro ⟨hmem, hf⟩
        cases s with
        | nil => exact absurd hmem hnil
        | cons i s =>
          obtain ⟨⟨-, hfav⟩, hf⟩ := favoured_cons.mp hf
          have hmem' := mem_tailsOf.mpr hmem
          have hne := List.ne_nil_of_mem hmem'
          have hs' := (ih i (h.child i) (hc.child i) (plain_tailsOf hws) ((h.counts.child i).mpr hne)).mpr
            ⟨hmem', hf⟩
          rw [hb, hfav, Option.bind_some, slot_of_lt (lt_of_tailsOf hws hne), Option.bind_some, hs']
          rfl

theorem trieSearch_valid (hp : Plain p) (hvalid : (t.at p).isValid = true) :
    trieSearch p t = (mostUsed (t.at p)).map some := by
  induction p generalizing t with
  | nil =>
    rw [at_nil] at hvalid ⊢
    rw [trieSearch, if_pos hvalid]
  | cons c p ih =>
    have ht : t.isValid = true := by
      cases t with
      | invalid =>
        rw [invalid_at] at hvalid
        cases hvalid
      | valid => rfl
    rw [trieSearch_root ht, slot_of_lt (hp c List.mem_cons_self), Option.bind_some]
    exact ih (fun d hd => hp d (List.mem_cons_of_mem c hd)) hvalid

/-- A string that was inserted, and none with this prefix was inserted more often. -/
def MostOften (ws : List (List Byte)) (p w : List Byte) : Prop :=
  w ∈ ws ∧ p <+: w ∧ ∀ v ∈ ws, p <+: v → ws.count v ≤ ws.count w

theorem Represents.at_valid (h : Represents t ws) (hws : ∃ w ∈ ws, p <+: w) (ht : t.isValid = true) :
    (t.at p).isValid = true := by
  induction p using List.reverseRecOn with
  | nil => exact ht
  | append_singleton p i _ =>
    rw [at_append]
    refine ((h p).child i).mpr ?_
    obtain ⟨w, hw, r, rfl⟩ := hws
    refine List.ne_nil_of_mem (a := r) (mem_tailsOf.mpr (mem_suffixes.mpr ?_))
    rwa [List.append_assoc] at hw

/-- For a prefix of a string that was inserted, the search finds the rest of a string that was inserted
most often exactly if all bytes are below 128 and one of these strings is favoured. -/
theorem trieSearch_mostOften_iff (ws : List (List Byte)) (p : List Byte) (hws : ∃ w ∈ ws, p <+: w) :
    (∃ t s, insertAll trieGetRoot ws = some t ∧ trieSearch p t = some (some s) ∧
      MostOften ws p (p ++ s)) ↔
        (∀ w ∈ ws, ∀ c ∈ w, c < 128) ∧ ∃ s, MostOften ws p (p ++ s) ∧ Favoured ws p s := by
  have hsearch (hplain : ∀ w ∈ ws, Plain w) : ∃ t, insertAll trieGetRoot ws = some t ∧
      ∀ s, trieSearch p t = some (some s) ↔ p ++ s ∈ ws ∧ Favoured ws p s := by
    obtain ⟨t, ht, hrep⟩ := insertAll_represents hplain Represents.root
    have hcached := insertAll_cached hplain Represents.root Cached.root ht
    rw [List.nil_append] at hrep hcached
    have hvalid := hrep.at_valid hws (insertAll_valid ht rfl)
    have hp : Plain p := by
      obtain ⟨w, hw, r, rfl⟩ := hws
      exact fun c hc => hplain _ hw c (List.mem_append_left r hc)
    have hsuffix : ∀ w ∈ suffixes p ws, Plain w := fun w hw c hc =>
      hplain _ (mem_suffixes.mp hw) c (List.mem_append_right p hc)
    refine ⟨t, ht, fun s => ?_⟩
    rw [trieSearch_valid hp hvalid, Option.map_eq_some_iff, ← favoured_suffixes, ← mem_suffixes,
      ← mostUsed_eq_some_iff (hrep.at p) (hcached.at p) hsuffix hvalid]
    simp
  constructor
  · rintro ⟨t, s, ht, hs, hmost⟩
    have hplain := plain_of_insertAll ht
    obtain ⟨u, hu, hiff⟩ := hsearch hplain
    cases ht.symm.trans hu
    exact ⟨hplain, s, hmost, ((hiff s).mp hs).2⟩
  · rintro ⟨hplain, s, hmost, hf⟩
    obtain ⟨t, ht, hiff⟩ := hsearch hplain
    exact ⟨t, s, ht, (hiff s).mpr ⟨hmost.1, hf⟩, hmost⟩

/-- One command was used most, and it is favoured. -/
theorem trieSearch_mostOften_two : ∃ t s,
    insertAll trieGetRoot [[108, 115], [108, 110], [108, 115]] = some t ∧
      trieSearch [108] t = some (some s) ∧
        MostOften [[108, 115], [108, 110], [108, 115]] [108] ([108] ++ s) := by
  have hplain : ∀ w ∈ ([[108, 115], [108, 110], [108, 115]] : List (List Byte)), ∀ c ∈ w, c < 128 := by
    decide +kernel
  have hmost : MostOften [[108, 115], [108, 110], [108, 115]] [108] ([108] ++ [115]) :=
    ⟨by decide, by decide, by decide⟩
  have hf : Favoured [[108, 115], [108, 110], [108, 115]] [108] [115] :=
    favoured_suffixes.mp (favoured_cons.mpr ⟨⟨by decide, by decide +kernel⟩, favoured_nil⟩)
  exact (trieSearch_mostOften_iff _ _ ⟨_, hmost.1, hmost.2.1⟩).mpr ⟨hplain, _, hmost, hf⟩

/-- Three commands go on with one letter, and another command was used twice. -/
def splitHistory : List (List Byte) :=
  [[108, 115, 97], [108, 115, 98], [108, 115, 99], [108, 110], [108, 110]]

theorem not_trieSearch_mostOften : ¬ ∃ t s, insertAll trieGetRoot splitHistory = some t ∧
    trieSearch [108] t = some (some s) ∧ MostOften splitHistory [108] ([108] ++ s) := by
  rintro ⟨t, s, ht, hs, hmost⟩
  cases ht
  cases hs
  exact absurd (hmost.2.2 [108, 110] (by decide) (by decide)) (by decide)

end SylixOS.Tree
