import Mathlib.Data.List.Induction
import Mathlib.Data.List.Infix
import Mathlib.Data.List.Range
import Mathlib.Data.List.Sort
import Mathlib.Tactic.Common

/-! # Overlaps of a pattern with a text

How much of a pattern stands at the end of a text. A search that reads the text once keeps the longest
such beginning, and goes back to shorter ones by a table that has them for the beginnings of the pattern.
-/

namespace SylixOS.Lib

variable {α : Type*} {p t u : List α} {c : α} {j k n : ℕ}

/-- The first letters of the pattern are at the end of the text. -/
structure Overlap (p t : List α) (k : ℕ) : Prop where
  le : k ≤ p.length
  suffix : p.take k <:+ t

theorem overlap_zero : Overlap p t 0 := ⟨Nat.zero_le _, List.nil_suffix⟩

theorem overlap_length : Overlap p t p.length ↔ p <:+ t := by
  constructor
  · intro h
    have hsuffix := h.suffix
    rwa [List.take_length] at hsuffix
  · intro h
    refine ⟨le_rfl, ?_⟩
    rwa [List.take_length]

/-- An overlap is longer by the letter that is read if the pattern goes on with this letter. -/
theorem overlap_succ_iff : Overlap p (t ++ [c]) (k + 1) ↔ Overlap p t k ∧ p[k]? = some c := by
  constructor
  · rintro ⟨hle, hsuffix⟩
    rw [List.take_add_one, List.getElem?_eq_getElem hle, Option.toList_some] at hsuffix
    obtain ⟨r, hr⟩ := hsuffix
    rw [← List.append_assoc] at hr
    obtain ⟨hr, hc⟩ := List.append_inj' hr rfl
    refine ⟨⟨Nat.le_of_succ_le hle, r, hr⟩, ?_⟩
    rw [List.getElem?_eq_getElem hle, List.singleton_inj.mp hc]
  · rintro ⟨⟨hle, hsuffix⟩, hc⟩
    obtain ⟨hlt, -⟩ := List.getElem?_eq_some_iff.mp hc
    refine ⟨hlt, ?_⟩
    rw [List.take_add_one, hc, Option.toList_some]
    exact List.suffix_append_self_iff.mpr hsuffix

/-- The overlaps below an overlap are those of the beginning of the pattern. -/
theorem Overlap.below_iff (h : Overlap p t j) (hk : k ≤ j) :
    Overlap p (p.take j) k ↔ Overlap p t k := by
  constructor
  · exact fun hbelow => ⟨hbelow.le, hbelow.suffix.trans h.suffix⟩
  · intro hk'
    refine ⟨hk'.le, ?_⟩
    rcases List.suffix_or_suffix_of_suffix hk'.suffix h.suffix with hsuffix | hsuffix
    · exact hsuffix
    · have hlen : (p.take j).length = (p.take k).length := by
        refine Nat.le_antisymm hsuffix.length_le ?_
        rw [List.length_take_of_le hk'.le, List.length_take_of_le h.le]
        exact hk
      rw [hsuffix.eq_of_length hlen]

/-- The longest overlap below a bound. -/
structure Longest (p t : List α) (n k : ℕ) : Prop where
  lt : k < n
  overlap : Overlap p t k
  max : ∀ m < n, Overlap p t m → m ≤ k

/-- An overlap below a bound, and no longer one goes on with a letter. -/
structure LongestWith (p t : List α) (c : α) (n k : ℕ) : Prop where
  lt : k < n
  overlap : Overlap p t k
  max : ∀ m < n, Overlap p t m → p[m]? = some c → m ≤ k

theorem Longest.with (h : Longest p t n k) (c : α) : LongestWith p t c n k :=
  ⟨h.lt, h.overlap, fun m hm hov _ => h.max m hm hov⟩

/-- If an overlap does not go on with the letter, the next shorter one is looked at. -/
theorem LongestWith.back (h : LongestWith p t c n j) (hc : p[j]? ≠ some c)
    (hk : Longest p (p.take j) j k) : LongestWith p t c n k := by
  refine ⟨hk.lt.trans h.lt, (h.overlap.below_iff hk.lt.le).mp hk.overlap, fun m hm hov hmc => ?_⟩
  have hle := h.max m hm hov hmc
  have hlt : m < j := Nat.lt_of_le_of_ne hle fun heq => hc (heq ▸ hmc)
  exact hk.max m hlt ((h.overlap.below_iff hle).mpr hov)

/-- The overlap goes on with the letter. -/
theorem LongestWith.grow (h : LongestWith p t c n k) (hc : p[k]? = some c) :
    Longest p (t ++ [c]) (n + 1) (k + 1) := by
  refine ⟨Nat.succ_lt_succ h.lt, overlap_succ_iff.mpr ⟨h.overlap, hc⟩, fun m hm hov => ?_⟩
  cases m with
  | zero => exact Nat.zero_le _
  | succ m =>
    obtain ⟨hov, hmc⟩ := overlap_succ_iff.mp hov
    exact Nat.succ_le_succ (h.max m (Nat.lt_of_succ_lt_succ hm) hov hmc)

/-- No overlap goes on with the letter. -/
theorem LongestWith.stop (h : LongestWith p t c n 0) (hc : p[0]? ≠ some c) :
    Longest p (t ++ [c]) (n + 1) 0 := by
  refine ⟨Nat.succ_pos n, overlap_zero, fun m hm hov => ?_⟩
  cases m with
  | zero => exact le_rfl
  | succ m =>
    obtain ⟨hov, hmc⟩ := overlap_succ_iff.mp hov
    have hle := h.max m (Nat.lt_of_succ_lt_succ hm) hov hmc
    exact absurd (Nat.le_zero.mp hle ▸ hmc) hc

theorem Longest.of_ne (h : Longest p t (n + 1) k) (hne : k ≠ n) : Longest p t n k :=
  ⟨Nat.lt_of_le_of_ne (Nat.le_of_lt_succ h.lt) hne, h.overlap,
    fun m hm => h.max m (Nat.lt_succ_of_lt hm)⟩

/-- Behind the whole pattern, the longest overlap is that of the pattern with itself. -/
theorem Longest.of_whole (h : p <:+ t) (hk : Longest p p p.length k) : Longest p t p.length k := by
  have hwhole : Overlap p t p.length := overlap_length.mpr h
  have hbelow {m : ℕ} (hm : m < p.length) : Overlap p p m ↔ Overlap p t m := by
    have hiff := hwhole.below_iff hm.le
    rwa [List.take_length] at hiff
  exact ⟨hk.lt, (hbelow hk.lt).mp hk.overlap, fun m hm hov => hk.max m hm ((hbelow hm).mpr hov)⟩

/-- The table has the longest overlap of each beginning of the pattern with itself. -/
def BorderTable (p : List α) (next : List ℕ) : Prop :=
  ∀ i k, next[i]? = some k → Longest p (p.take (i + 1)) (i + 1) k

/-! ## Occurrences -/

variable [DecidableEq α]

/-- Where the pattern stands in the text. -/
def occurrences (p t : List α) : List ℕ := (List.range t.length).filter fun s => p.isPrefixOf (t.drop s)

theorem mem_occurrences (hp : p ≠ []) {s : ℕ} : s ∈ occurrences p t ↔ p <+: t.drop s := by
  rw [occurrences, List.mem_filter, List.mem_range, List.isPrefixOf_iff_prefix, and_iff_right_iff_imp]
  intro hprefix
  by_contra hle
  rw [List.drop_eq_nil_of_le (Nat.le_of_not_lt hle), List.prefix_nil] at hprefix
  exact hp hprefix

theorem occurrences_pairwise : (occurrences p t).Pairwise (· < ·) :=
  List.pairwise_lt_range.filter _

/-- A letter that is read ends one more occurrence, or none. -/
theorem occurrences_concat (hp : p ≠ []) (c : α) : occurrences p (t ++ [c]) =
    occurrences p t ++ if p <:+ t ++ [c] then [t.length + 1 - p.length] else [] := by
  have hlen : 0 < p.length := List.length_pos_of_ne_nil hp
  have hold : ∀ s ∈ occurrences p t, s + p.length ≤ t.length := fun s hs => by
    have hle := ((mem_occurrences hp).mp hs).length_le
    rw [List.length_drop] at hle
    omega
  refine occurrences_pairwise.eq_of_mem_iff ?_ fun s => ?_
  · refine List.pairwise_append.mpr ⟨occurrences_pairwise, by split_ifs <;> simp, fun s hs s' hs' => ?_⟩
    split_ifs at hs' with hsuffix
    · have hle := hsuffix.length_le
      have hs := hold s hs
      rw [List.mem_singleton.mp hs']
      rw [List.length_append, List.length_singleton] at hle
      omega
    · cases hs'
  · have hnew : s ∈ (if p <:+ t ++ [c] then [t.length + 1 - p.length] else []) ↔
        s ≤ t.length ∧ p = (t ++ [c]).drop s := by
      split_ifs with hsuffix
      · rw [List.mem_singleton]
        have hdrop := List.suffix_iff_eq_drop.mp hsuffix
        rw [List.length_append, List.length_singleton] at hdrop
        constructor
        · rintro rfl
          exact ⟨by omega, hdrop⟩
        · rintro ⟨hle, heq⟩
          have hl := congrArg List.length heq
          rw [List.length_drop, List.length_append, List.length_singleton] at hl
          omega
      · refine iff_of_false List.not_mem_nil fun h => hsuffix ?_
        rw [h.2]
        exact List.drop_suffix ..
    rw [List.mem_append, mem_occurrences hp, mem_occurrences hp, hnew]
    by_cases hle : s ≤ t.length
    · rw [List.drop_append_of_le_length hle, List.prefix_concat_iff, and_iff_right hle]
      exact or_comm
    · have hnone : ¬ p <+: ([] : List α) := fun h => hp (List.prefix_nil.mp h)
      rw [List.drop_eq_nil_of_le (by simp; omega), List.drop_eq_nil_of_le (by omega)]
      exact iff_of_false hnone fun h => h.elim hnone fun h => hle h.1

/-- In a longer text there are no fewer. -/
theorem occurrences_le (hp : p ≠ []) (t u : List α) :
    (occurrences p t).length ≤ (occurrences p (t ++ u)).length := by
  induction u using List.reverseRecOn with
  | nil => rw [List.append_nil]
  | append_singleton u c ih =>
    rw [← List.append_assoc, occurrences_concat hp, List.length_append]
    exact ih.trans (Nat.le_add_right ..)

end SylixOS.Lib
