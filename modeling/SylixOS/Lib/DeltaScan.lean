import Mathlib
import SylixOS.Lib.DeltaList

/-! # Scanning a delta list

A scan takes a time that has passed off a delta list entry by entry, and gives up the list between two
entries, so that entries may be added and removed while it is under way. The entries from the cursor on
have yet to lose what is left of the time; those before the cursor have been added since the scan began
and count from its time. An entry before the cursor takes its delta from the entry at the cursor, so that
the scan may find an entry due before it is.
-/

namespace SylixOS.Lib.DeltaList

variable {α : Type*}

/-- The time from the start of a list to its last entry. -/
def total (es : List (Entry α)) : ℕ := (es.map Entry.delta).sum

variable {es l r before rest : List (Entry α)} {e : Entry α} {k : α} {t c T left : ℕ}

@[simp] theorem total_nil : total ([] : List (Entry α)) = 0 := rfl

@[simp] theorem total_cons : total (e :: es) = e.delta + total es := List.sum_cons

theorem total_append : total (l ++ r) = total l + total r := by
  rw [total, List.map_append, List.sum_append]
  rfl

theorem times_append : times t (l ++ r) = times t l ++ times (t + total l) r := by
  induction l generalizing t with
  | nil => simp
  | cons e l ih =>
    rw [List.cons_append, times, times, ih, total_cons, Nat.add_assoc]
    rfl

/-- An entry that falls due before the last entry of the first part goes into that part. -/
theorem insert_append : insert k c (l ++ r) =
    if total l ≤ c then l ++ insert k (c - total l) r else insert k c l ++ r := by
  induction l generalizing c with
  | nil => simp
  | cons e l ih =>
    rw [List.cons_append, insert, insert, ih, total_cons]
    by_cases he : e.delta ≤ c
    · rw [if_pos he, if_pos he, Nat.sub_sub]
      by_cases hl : total l ≤ c - e.delta
      · rw [if_pos hl, if_pos (by omega)]
        rfl
      · rw [if_neg hl, if_neg (by omega)]
        rfl
    · rw [if_neg he, if_neg he, if_neg (by omega)]
      rfl

theorem total_insert (h : c < total es) : total (insert k c es) = total es := by
  induction es generalizing c with
  | nil => simp at h
  | cons e es ih =>
    rw [total_cons] at h
    unfold insert
    split_ifs with he
    · rw [total_cons, total_cons, ih (by omega)]
    · simp only [total_cons]
      omega

theorem key_insert {n : α} : n ∈ (insert k c es).map Entry.key ↔ n = k ∨ n ∈ es.map Entry.key := by
  induction es generalizing c with
  | nil => simp [insert]
  | cons a es ih =>
    unfold insert
    split_ifs
    · rw [List.map_cons, List.mem_cons, ih, List.map_cons, List.mem_cons]
      tauto
    · rw [List.map_cons, List.mem_cons, List.map_cons, List.map_cons]

theorem perm_insert : ((insert k c es).map Entry.key).Perm (k :: es.map Entry.key) := by
  induction es generalizing c with
  | nil => exact .refl _
  | cons a es ih =>
    unfold insert
    split_ifs
    · exact (ih.cons _).trans (List.Perm.swap _ _ _)
    · exact .refl _

/-! ## The cursor -/

/-- The times of the entries when a scan begun at `T` has `left` to take off. -/
def dues (T left : ℕ) (before rest : List (Entry α)) : List (α × ℕ) :=
  times T before ++ times (T + total before - left) rest

/-- The scan finds no entry due that is not: it does not count the entries before the cursor. -/
def Sound (before rest : List (Entry α)) (left : ℕ) : Prop :=
  ∀ p ∈ times 0 rest, p.2 ≤ left → total before + p.2 ≤ left

/-- Whether a new entry goes behind the one at the cursor. -/
def Behind (c : ℕ) (before : List (Entry α)) : List (Entry α) → Prop
  | [] => False
  | e :: _ => total before + e.delta ≤ c

instance (c : ℕ) (before : List (Entry α)) : (rest : List (Entry α)) → Decidable (Behind c before rest)
  | [] => inferInstanceAs (Decidable False)
  | _ :: _ => inferInstanceAs (Decidable (_ ≤ _))

/-- The parts of the list after a new entry has been added. -/
def place (k : α) (c : ℕ) (before rest : List (Entry α)) : List (Entry α) × List (Entry α) :=
  if Behind c before rest then (before, insert k (c - total before) rest)
  else if total before ≤ c then
    (before ++ [⟨k, c - total before⟩], advance (c - total before) rest)
  else (insert k c before, rest)

/-- A new entry may be added while a scan is under way: behind the cursor when the scan does not find it
due too soon, before the cursor when no entry falls due after the scan but no later than `c` after it. -/
def InsertOk (c : ℕ) (before rest : List (Entry α)) (left : ℕ) : Prop :=
  if Behind c before rest then c ≤ total before + left → c ≤ left
  else ∀ p ∈ times (total before) rest, p.2 ≤ c + left → p.2 ≤ left

instance (c : ℕ) (before rest : List (Entry α)) (left : ℕ) : Decidable (InsertOk c before rest left) :=
  inferInstanceAs (Decidable (ite _ _ _))

@[simp] theorem dues_nil : dues T left before [] = times T before := List.append_nil _

theorem dues_start : dues T left [] rest = times (T - left) rest := rfl

@[simp] theorem sound_nil : Sound before [] left := by
  intro p hp
  cases hp

theorem sound_start : Sound [] rest left := by
  intro p _ hle
  rwa [total_nil, Nat.zero_add]

theorem times_add (d : ℕ) : times (t + d) es = (times t es).map fun p => (p.1, p.2 + d) := by
  induction es generalizing t with
  | nil => rfl
  | cons e es ih =>
    rw [times, times, List.map_cons, ← ih, Nat.add_right_comm]

theorem times_advance_add {d : ℕ} (hd : d ≤ e.delta) :
    times (t + d) (advance d (e :: r)) = times t (e :: r) := by
  rw [advance, times, times]
  dsimp only
  rw [show t + d + (e.delta - d) = t + e.delta by omega]

/-- An entry that the scan finds due is due, and no other time changes when it is taken out. -/
theorem Sound.take (h : Sound before (e :: r) left) (he : e.delta ≤ left) (hT : left ≤ T) :
    T + total before - left + e.delta ≤ T ∧ Sound before r (left - e.delta) ∧
      dues T left before (e :: r) = times T before ++
        (e.key, T + total before - left + e.delta) ::
          times (T + total before - (left - e.delta)) r := by
  have hdue : total before + (0 + e.delta) ≤ left := h (e.key, 0 + e.delta) List.mem_cons_self (by
    dsimp only
    omega)
  have hback : T + total before - left + e.delta = T + total before - (left - e.delta) := by omega
  refine ⟨by omega, ?_, by rw [dues, times, hback]⟩
  intro p hp hle
  have hmem : (p.1, p.2 + e.delta) ∈ times 0 (e :: r) := by
    rw [times, times_add]
    exact List.mem_cons_of_mem _ (List.mem_map_of_mem hp)
  have hsum : total before + (p.2 + e.delta) ≤ left := h _ hmem (by
    dsimp only
    omega)
  omega

/-- When the entry at the cursor is not due, the scan ends, and no time changes. -/
theorem times_stop (he : left < e.delta) (hT : left ≤ T) :
    times T (before ++ { e with delta := e.delta - left } :: r) = dues T left before (e :: r) := by
  rw [times_append, dues, times, times]
  dsimp only
  rw [show T + total before + (e.delta - left) = T + total before - left + e.delta by omega]

theorem insert_eq_place :
    insert k c (before ++ rest) = (place k c before rest).1 ++ (place k c before rest).2 := by
  rw [insert_append, place]
  by_cases hle : total before ≤ c
  · rw [if_pos hle, if_pos hle]
    cases rest with
    | nil =>
      rw [if_neg (show ¬ Behind c before [] from id)]
      exact (List.append_nil _).symm
    | cons e r =>
      by_cases he : e.delta ≤ c - total before
      · have hbehind : Behind c before (e :: r) := show total before + e.delta ≤ c by omega
        rw [if_pos hbehind]
      · have hbehind : ¬ Behind c before (e :: r) := fun hb => by
          change total before + e.delta ≤ c at hb
          omega
        rw [if_neg hbehind, insert, if_neg he, List.append_assoc]
        rfl
  · have hbehind : ¬ Behind c before rest := fun hb => by
      cases rest with
      | nil => exact hb
      | cons e r =>
        change total before + e.delta ≤ c at hb
        omega
    rw [if_neg hle, if_neg hbehind, if_neg hle]

theorem place_nil : (place k c before []).2 = [] := by
  unfold place
  rw [if_neg (show ¬ Behind c before [] from id)]
  split_ifs <;> rfl

/-- The cursor stays at its entry. -/
theorem head_place : (place k c before rest).2.head?.map Entry.key = rest.head?.map Entry.key := by
  unfold place
  cases rest with
  | nil => split_ifs <;> first | rfl | contradiction
  | cons e r =>
    split_ifs with hb hle
    · change total before + e.delta ≤ c at hb
      dsimp only
      rw [insert, if_pos (by omega)]
      rfl
    · rfl
    · rfl

theorem key_place {n : α} (hn : n ∈ (place k c before rest).1.map Entry.key) :
    n = k ∨ n ∈ before.map Entry.key := by
  unfold place at hn
  split_ifs at hn
  · exact .inr hn
  · rw [List.map_append, List.mem_append] at hn
    rcases hn with hn | hn
    · exact .inr hn
    · exact .inl (List.mem_singleton.mp hn)
  · exact key_insert.mp hn

/-- The new entry falls due after `c`, or too soon by what is left of the scan. -/
theorem dues_place (k : α) (c : ℕ) (before rest : List (Entry α)) (hT : left ≤ T) :
    ∃ l r, dues T left before rest = l ++ r ∧
      dues T left (place k c before rest).1 (place k c before rest).2 =
        l ++ (k, if Behind c before rest then T + c - left else T + c) :: r := by
  unfold place
  by_cases hb : Behind c before rest
  · obtain ⟨l, r, hl, hr, -⟩ := times_insert k (T + total before - left) (c - total before) rest
    have hle : total before ≤ c := by
      cases rest with
      | nil => exact hb.elim
      | cons e r =>
        change total before + e.delta ≤ c at hb
        omega
    refine ⟨times T before ++ l, r, ?_, ?_⟩
    · rw [dues, hl, List.append_assoc]
    · rw [if_pos hb, if_pos hb, dues, hr, List.append_assoc]
      rw [show T + total before - left + (c - total before) = T + c - left by omega]
  · rw [if_neg hb, if_neg hb]
    by_cases hle : total before ≤ c
    · refine ⟨times T before, times (T + total before - left) rest, rfl, ?_⟩
      rw [if_pos hle, dues, times_append, List.append_assoc, total_append]
      rw [times, times_nil, List.singleton_append, total_cons, total_nil]
      dsimp only
      rw [show T + total before + (c - total before) = T + c by omega]
      congr 2
      cases rest with
      | nil => rfl
      | cons e r =>
        change ¬ total before + e.delta ≤ c at hb
        rw [← times_advance_add (e := e) (d := c - total before) (by omega)]
        congr 1
        omega
    · obtain ⟨l, r, hl, hr, -⟩ := times_insert k T c before
      refine ⟨l, r ++ times (T + total before - left) rest, ?_, ?_⟩
      · rw [dues, hl, List.append_assoc]
      · rw [if_neg hle, dues, hr, total_insert (by omega), List.append_assoc]
        rfl

theorem dues_map_fst : (dues T left before rest).map Prod.fst = (before ++ rest).map Entry.key := by
  rw [dues, List.map_append, times_map_fst, times_map_fst, List.map_append]

theorem insertOk_zero : InsertOk 0 before rest left := by
  unfold InsertOk
  split_ifs
  · exact fun _ => Nat.zero_le _
  · intro p _ hle
    rwa [Nat.zero_add] at hle

/-- When nothing is left, an entry may be added anywhere. -/
theorem Sound.insertOk (h : Sound before rest 0) : InsertOk c before rest 0 := by
  unfold InsertOk
  cases rest with
  | nil =>
    rw [if_neg (show ¬ Behind c before [] from id)]
    intro p hp
    cases hp
  | cons e r =>
    by_cases hb : Behind c before (e :: r)
    · rw [if_pos hb]
      change total before + e.delta ≤ c at hb
      have hhead : 0 + e.delta ≤ 0 → total before + (0 + e.delta) ≤ 0 :=
        h (e.key, 0 + e.delta) List.mem_cons_self
      omega
    · rw [if_neg hb]
      change ¬ total before + e.delta ≤ c at hb
      intro p hp hle
      rw [times, List.mem_cons] at hp
      rcases hp with rfl | hp
      · dsimp only at hle
        omega
      · have := le_times hp
        omega

theorem Sound.place (h : Sound before rest left) (hok : InsertOk c before rest left) :
    Sound (place k c before rest).1 (place k c before rest).2 left := by
  unfold DeltaList.place
  unfold InsertOk at hok
  by_cases hb : Behind c before rest
  · rw [if_pos hb] at hok ⊢
    have hle : total before ≤ c := by
      cases rest with
      | nil => exact hb.elim
      | cons e r =>
        change total before + e.delta ≤ c at hb
        omega
    obtain ⟨l, r, hl, hr, -⟩ := times_insert k 0 (c - total before) rest
    intro p hp hpl
    dsimp only at hp ⊢
    rw [hr, List.mem_append, List.mem_cons] at hp
    rcases hp with hp | rfl | hp
    · exact h p (hl ▸ List.mem_append_left _ hp) hpl
    · dsimp only at hpl ⊢
      omega
    · exact h p (hl ▸ List.mem_append_right _ hp) hpl
  · rw [if_neg hb] at hok ⊢
    by_cases hle : total before ≤ c
    · rw [if_pos hle]
      cases rest with
      | nil => exact sound_nil
      | cons e r =>
        change ¬ total before + e.delta ≤ c at hb
        have htimes : times (total before) (e :: r) =
            (times 0 (advance (c - total before) (e :: r))).map fun p => (p.1, p.2 + c) := by
          rw [← times_advance_add (show c - total before ≤ e.delta by omega), ← times_add]
          congr 1
          omega
        intro p hp hpl
        dsimp only at hp ⊢
        have hdue : p.2 + c ≤ left := hok (p.1, p.2 + c)
          (htimes ▸ List.mem_map_of_mem hp) (by
            dsimp only
            omega)
        rw [total_append, total_cons, total_nil]
        dsimp only
        omega
    · rw [if_neg hle]
      intro p hp hpl
      dsimp only at hp ⊢
      rw [total_insert (by omega)]
      exact h p hp hpl

/-! ## Removing an entry, and time that passes, while a scan is under way -/

theorem times_le_total {p : α × ℕ} (hp : p ∈ times t es) : p.2 ≤ t + total es := by
  induction es generalizing t with
  | nil => cases hp
  | cons e es ih =>
    rw [times, List.mem_cons] at hp
    rw [total_cons]
    rcases hp with rfl | hp
    · dsimp only
      omega
    · have := ih hp
      omega

theorem delta_le_total (he : e ∈ es) : e.delta ≤ total es := by
  induction es with
  | nil => cases he
  | cons a es ih =>
    rw [total_cons]
    rcases List.mem_cons.mp he with rfl | he
    · exact Nat.le_add_right _ _
    · exact Nat.le_trans (ih he) (Nat.le_add_left _ _)

theorem total_insert_le : total (insert k c es) ≤ max c (total es) := by
  by_cases h : c < total es
  · rw [total_insert h]
    omega
  · induction es generalizing c with
    | nil => simp [insert]
    | cons e es ih =>
      rw [total_cons] at h
      rw [insert, if_pos (by omega), total_cons]
      have := ih (c := c - e.delta) (by omega)
      omega

theorem total_delay {d : ℕ} : total (delay d es) ≤ d + total es := by
  cases es with
  | nil => exact Nat.zero_le _
  | cons e es =>
    rw [delay, total_cons, total_cons]
    dsimp only
    omega

theorem total_advance {d : ℕ} : total (advance d es) ≤ total es := by
  cases es with
  | nil => exact Nat.le_refl _
  | cons e es =>
    rw [advance, total_cons, total_cons]
    dsimp only
    omega

theorem times_delay {d : ℕ} : times t (delay d es) = times (t + d) es := by
  cases es with
  | nil => rfl
  | cons e es =>
    rw [delay, times, times]
    dsimp only
    rw [show t + (e.delta + d) = t + d + e.delta by omega]

section Remove
variable [DecidableEq α]

theorem total_remove : total (remove k es) ≤ total es := by
  induction es with
  | nil => exact Nat.le_refl _
  | cons e es ih =>
    rw [remove]
    split_ifs
    · exact total_delay
    · rw [total_cons, total_cons]
      omega

theorem remove_append (hl : k ∉ l.map Entry.key) : remove k (l ++ r) = l ++ remove k r := by
  induction l with
  | nil => rfl
  | cons e l ih =>
    rw [List.map_cons, List.mem_cons, not_or] at hl
    rw [List.cons_append, remove, if_neg (Ne.symm hl.1), ih hl.2, List.cons_append]

theorem filter_times (hk : k ∉ es.map Entry.key) :
    (times t es).filter (fun p => p.1 ≠ k) = times t es := by
  rw [List.filter_eq_self]
  intro p hp
  rw [decide_eq_true_eq]
  rintro rfl
  exact hk (times_map_fst (t := t) ▸ List.mem_map_of_mem hp)

theorem key_remove (hd : (es.map Entry.key).Nodup) :
    (remove k es).map Entry.key = (es.map Entry.key).filter (· ≠ k) := by
  rw [← times_map_fst (t := 0), times_remove hd, ← times_map_fst (t := 0), List.filter_map]
  rfl

/-- An entry is removed from a list that is being scanned. -/
theorem Sound.remove (h : Sound before rest left) (hd : ((before ++ rest).map Entry.key).Nodup)
    (hT : left ≤ T) : ∃ before' rest', DeltaList.remove k (before ++ rest) = before' ++ rest' ∧
      rest'.map Entry.key = (rest.map Entry.key).filter (· ≠ k) ∧ Sound before' rest' left ∧
      dues T left before' rest' = (dues T left before rest).filter (fun p => p.1 ≠ k) := by
  have hnd := hd
  rw [List.map_append, List.nodup_append] at hnd
  by_cases hk : k ∈ before.map Entry.key
  · have hrest : k ∉ rest.map Entry.key := fun hmem => hnd.2.2 k hk k hmem rfl
    have hkeys : (rest.map Entry.key).filter (· ≠ k) = rest.map Entry.key := by
      rw [List.filter_eq_self]
      intro n hn
      rw [decide_eq_true_eq]
      rintro rfl
      exact hrest hn
    obtain ⟨e, he, rfl⟩ := List.mem_map.mp hk
    obtain ⟨l, m, rfl⟩ := List.append_of_mem he
    have hl : e.key ∉ l.map Entry.key := by
      have hnd := hnd.1
      rw [List.map_append, List.map_cons, List.nodup_append] at hnd
      exact fun hmem => hnd.2.2 e.key hmem e.key List.mem_cons_self rfl
    cases m with
    | nil =>
      -- the entry at the cursor takes the delta over
      refine ⟨l, delay e.delta rest, ?_, ?_, ?_, ?_⟩
      · rw [List.append_assoc, remove_append hl, List.singleton_append, DeltaList.remove, if_pos rfl]
      · rw [hkeys]
        cases rest <;> rfl
      · intro p hp hle
        rw [times_delay, times_add] at hp
        obtain ⟨q, hq, rfl⟩ := List.mem_map.mp hp
        have hq := h q hq (by
          dsimp only at hle
          omega)
        rw [total_append, total_cons, total_nil] at hq
        dsimp only
        omega
      · rw [dues, dues, List.filter_append, filter_times hrest, times_append, List.filter_append,
          filter_times hl, times, times_nil, List.filter_cons_of_neg (by simp), times_delay,
          total_append, total_cons, total_nil, List.filter_nil, List.append_nil]
        congr 2
        omega
    | cons a m =>
      have hremove : DeltaList.remove e.key (l ++ e :: a :: m) =
          l ++ { a with delta := a.delta + e.delta } :: m := by
        rw [remove_append hl, DeltaList.remove, if_pos rfl]
        rfl
      have htotal : total (DeltaList.remove e.key (l ++ e :: a :: m)) =
          total (l ++ e :: a :: m) := by
        rw [hremove]
        simp only [total_append, total_cons]
        omega
      refine ⟨DeltaList.remove e.key (l ++ e :: a :: m), rest, ?_, hkeys.symm, ?_, ?_⟩
      · rw [hremove, List.append_assoc, remove_append hl, List.cons_append, DeltaList.remove,
          if_pos rfl, List.append_assoc]
        rfl
      · intro p hp hle
        rw [htotal]
        exact h p hp hle
      · rw [dues, dues, List.filter_append, filter_times hrest, htotal, times_remove hnd.1]
  · refine ⟨before, DeltaList.remove k rest, remove_append hk, key_remove hnd.2.1, ?_, ?_⟩
    · intro p hp hle
      rw [times_remove hnd.2.1] at hp
      exact h p (List.mem_of_mem_filter hp) hle
    · rw [dues, dues, List.filter_append, filter_times hk, times_remove hnd.2.1]

end Remove

theorem key_advance {d : ℕ} : (advance d es).map Entry.key = es.map Entry.key := by
  cases es <;> rfl

/-- Entries whose deltas are all zero have the same time. -/
theorem times_zero (h : ∀ e ∈ es, e.delta = 0) : times t es = es.map fun e => (e.key, t) := by
  induction es with
  | nil => rfl
  | cons e es ih =>
    rw [times, h e List.mem_cons_self, Nat.add_zero, List.map_cons,
      ih fun m hm => h m (List.mem_cons_of_mem _ hm)]

theorem total_zero (h : ∀ e ∈ es, e.delta = 0) : total es = 0 := by
  induction es with
  | nil => rfl
  | cons e es ih =>
    rw [total_cons, h e List.mem_cons_self, ih fun m hm => h m (List.mem_cons_of_mem _ hm)]

/-- When the first entry has less than the time that has passed and no other falls due later, all are
due then. -/
theorem times_clamp {d : ℕ} (he : e.delta ≤ d) (h : ∀ m ∈ es, m.delta = 0) {p' : α × ℕ}
    (hp : p' ∈ times (t + d) (advance d (e :: es))) :
    p'.2 = t + d ∧ ∃ p ∈ times t (e :: es), p.1 = p'.1 ∧ p.2 ≤ t + d := by
  have hnew : times (t + d) (advance d (e :: es)) = (e :: es).map fun m => (m.key, t + d) := by
    rw [advance, times, times_zero h, Nat.sub_eq_zero_of_le he]
    rfl
  have hold : times t (e :: es) = (e :: es).map fun m => (m.key, t + e.delta) := by
    rw [times, times_zero h]
    rfl
  rw [hnew] at hp
  obtain ⟨m, hm, rfl⟩ := List.mem_map.mp hp
  refine ⟨rfl, (m.key, t + e.delta), ?_, rfl, Nat.add_le_add_left he _⟩
  rw [hold]
  exact List.mem_map_of_mem hm

/-- Time that passes is taken off the first entry of a list that is being scanned. No time changes but
those of entries that are due, when it is more than the first entry has. -/
theorem Sound.advance {d : ℕ} (h : Sound before rest left) (hc : Covers d (before ++ rest))
    (hT : left ≤ T) : ∃ before' rest', DeltaList.advance d (before ++ rest) = before' ++ rest' ∧
      rest'.map Entry.key = rest.map Entry.key ∧ Sound before' rest' left ∧
      ∀ p' ∈ dues (T + d) left before' rest', ∃ p ∈ dues T left before rest,
        p.1 = p'.1 ∧ (p'.2 = p.2 ∨ p.2 ≤ p'.2 ∧ p'.2 ≤ T + d) := by
  cases before with
  | nil =>
    cases rest with
    | nil =>
      refine ⟨[], [], rfl, rfl, sound_nil, ?_⟩
      rintro p' ⟨⟩
    | cons e r =>
      refine ⟨[], DeltaList.advance d (e :: r), rfl, key_advance, sound_start, ?_⟩
      have hback : T + d - left = T - left + d := by omega
      rw [dues_start, dues_start, hback]
      intro p' hp'
      by_cases hle : d ≤ e.delta
      · rw [times_advance_add hle] at hp'
        exact ⟨p', hp', rfl, .inl rfl⟩
      · have hzero := hc.resolve_left hle
        obtain ⟨htime, p, hp, hkey, hpd⟩ := times_clamp (by omega) hzero hp'
        exact ⟨p, hp, hkey, .inr ⟨by omega, by omega⟩⟩
  | cons e b =>
    refine ⟨DeltaList.advance d (e :: b), rest, rfl, rfl, ?_, ?_⟩
    · intro p hp hle
      have := h p hp hle
      have : total (DeltaList.advance d (e :: b)) ≤ total (e :: b) := total_advance
      omega
    · intro p' hp'
      rw [dues, List.mem_append] at hp'
      by_cases hle : d ≤ e.delta
      · have htotal : T + d + total (DeltaList.advance d (e :: b)) = T + total (e :: b) := by
          rw [DeltaList.advance, total_cons, total_cons]
          dsimp only
          omega
        rw [times_advance_add hle, htotal, ← List.mem_append] at hp'
        exact ⟨p', hp', rfl, .inl rfl⟩
      · have hzero := hc.resolve_left hle
        have hb : ∀ m ∈ b, m.delta = 0 := fun m hm => hzero m (List.mem_append_left _ hm)
        have hr : ∀ m ∈ rest, m.delta = 0 := fun m hm => hzero m (List.mem_append_right _ hm)
        have htotal : total (e :: b) = e.delta := by rw [total_cons, total_zero hb, Nat.add_zero]
        rcases hp' with hp' | hp'
        · obtain ⟨htime, p, hp, hkey, hpd⟩ := times_clamp (by omega) hb hp'
          exact ⟨p, List.mem_append_left _ hp, hkey, .inr ⟨by omega, by omega⟩⟩
        · have hzero' : total (DeltaList.advance d (e :: b)) = 0 := by
            rw [DeltaList.advance, total_cons, total_zero hb]
            dsimp only
            omega
          rw [hzero', times_zero hr] at hp'
          obtain ⟨m, hm, rfl⟩ := List.mem_map.mp hp'
          refine ⟨(m.key, T + total (e :: b) - left), ?_, rfl, .inr ⟨?_, ?_⟩⟩
          · rw [dues, times_zero hr]
            exact List.mem_append_right _ (List.mem_map_of_mem hm)
          · dsimp only
            omega
          · dsimp only
            omega

end SylixOS.Lib.DeltaList
