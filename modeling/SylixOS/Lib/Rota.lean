import Mathlib.Data.List.Nodup
import Mathlib.Logic.Function.Basic
import Mathlib.Tactic.Common

/-! # Turns in rings

Threads wait in rings, each in the ring that is its home, until a place takes them. Each has a budget
that it uses up while it has a place. A place takes the first thread of a ring; one that has nothing
left is first given a new budget and sent to the end of the ring. As long as no ring has two threads
with nothing left, a place takes only threads with something left, and a thread that has used up its
budget is not taken again before all the others that wait in its ring.
-/

namespace SylixOS.Lib
open Function

structure Rota (T B C : Type*) where
  ring : B → List T
  place : C → Option T
  home : T → B
  left : T → ℕ
  full : T → ℕ

namespace Rota

variable {T B C : Type*} [DecidableEq T] [DecidableEq B] [DecidableEq C]

section Update
variable (m : Rota T B C) (t u : T) (b d : B) (c : C)

def setRing (l : List T) : Rota T B C := { m with ring := update m.ring b l }

def setPlace (o : Option T) : Rota T B C := { m with place := update m.place c o }

def setLeft (n : ℕ) : Rota T B C := { m with left := update m.left t n }

def setHome : Rota T B C := { m with home := update m.home t b }

/-- The first thread of the ring goes to its end if it has nothing left. -/
def turn : Rota T B C :=
  match m.ring b with
  | [] => m
  | t :: l => if m.left t = 0 then (m.setLeft t (m.full t)).setRing b (l ++ [t]) else m

end Update

/-- A thread uses up some of its budget, goes back to the front of its ring or, if it may be moved,
goes away from its place or its ring. -/
inductive Away (N : T → Prop) (m : Rota T B C) : Rota T B C → Prop
  | stay : Away N m m
  | spend {c : C} {t : T} {n : ℕ} (ht : m.place c = some t) (hn : n ≤ m.left t) :
      Away N m (m.setLeft t n)
  | back {c : C} {t : T} (ht : m.place c = some t)
      (hleft : m.left t = 0 → ∀ u ∈ m.ring (m.home t), m.left u ≠ 0) :
      Away N m ((m.setPlace c none).setRing (m.home t) (t :: m.ring (m.home t)))
  | quit {c : C} {t : T} (hN : N t) (ht : m.place c = some t) : Away N m (m.setPlace c none)
  | leave {t : T} (hN : N t) : Away N m (m.setRing (m.home t) ((m.ring (m.home t)).erase t))

/-- A free place takes the first thread of a ring. -/
inductive Taken (m : Rota T B C) : Rota T B C → Prop
  | stay : Taken m m
  | take {c : C} {b : B} {t : T} {l : List T} (hc : m.place c = none)
      (ht : (m.turn b).ring b = t :: l) : Taken m (((m.turn b).setRing b l).setPlace c (some t))

/-- A thread that may be moved gets another home, and a position in its ring. -/
inductive Arrive (N : T → Prop) (m : Rota T B C) : Rota T B C → Prop
  | stay : Arrive N m m
  | move {t : T} {b : B} (hN : N t) (ht : ∀ d, t ∉ m.ring d) : Arrive N m (m.setHome t b)
  | enter {t : T} {b : B} {l₁ l₂ : List T} (hN : N t) (ht : ∀ d, t ∉ m.ring d)
      (hc : ∀ c, m.place c ≠ some t) (hb : m.ring b = l₁ ++ l₂)
      (hleft : m.left t = 0 → ∀ u ∈ m.ring b, m.left u ≠ 0) :
      Arrive N m ((m.setHome t b).setRing b (l₁ ++ t :: l₂))

/-- What one operation does, of which the threads with `N` may be moved. -/
def Step (N : T → Prop) (m m' : Rota T B C) : Prop :=
  ∃ m₁ m₂, Away N m m₁ ∧ Taken m₁ m₂ ∧ Arrive N m₂ m'

/-- A thread is in its home ring only, or has one place, and no ring has two threads with nothing
left. -/
structure Fit (m : Rota T B C) : Prop where
  nodup : ∀ b, (m.ring b).Nodup
  home : ∀ b, ∀ t ∈ m.ring b, m.home t = b
  apart : ∀ c t b, m.place c = some t → t ∉ m.ring b
  place : ∀ c e t, m.place c = some t → m.place e = some t → c = e
  spare : ∀ b, ∀ t ∈ m.ring b, ∀ u ∈ m.ring b, m.left t = 0 → m.left u = 0 → t = u
  full : ∀ t, m.full t ≠ 0

variable {m m' m₁ : Rota T B C} {N : T → Prop} {t u x : T} {b d : B} {c : C} {l : List T}

/-! ## The fields after an update -/

section Fields
variable {n : ℕ} {o : Option T}

omit [DecidableEq T] [DecidableEq C] in
@[simp] theorem setRing_self : (m.setRing b l).ring b = l := update_self _ _ _

omit [DecidableEq T] [DecidableEq C] in
theorem setRing_of_ne (h : d ≠ b) : (m.setRing b l).ring d = m.ring d :=
  update_of_ne h _ _

omit [DecidableEq T] [DecidableEq B] in
@[simp] theorem setPlace_self : (m.setPlace c o).place c = o := update_self _ _ _

omit [DecidableEq T] [DecidableEq B] in
theorem setPlace_of_ne {e : C} (h : e ≠ c) : (m.setPlace c o).place e = m.place e :=
  update_of_ne h _ _

omit [DecidableEq B] [DecidableEq C] in
@[simp] theorem setLeft_self : (m.setLeft t n).left t = n := update_self _ _ _

omit [DecidableEq B] [DecidableEq C] in
theorem setLeft_of_ne (h : u ≠ t) : (m.setLeft t n).left u = m.left u :=
  update_of_ne h _ _

omit [DecidableEq B] [DecidableEq C] in
theorem setHome_self : (m.setHome t b).home t = b := update_self _ _ _

omit [DecidableEq B] [DecidableEq C] in
theorem setHome_of_ne (h : u ≠ t) : (m.setHome t b).home u = m.home u :=
  update_of_ne h _ _

end Fields

/-! ## A ring turns -/

omit [DecidableEq C] in
/-- The ring begins with a thread that has something left, or turns once. -/
theorem turn_cases (h : m.ring b = t :: l) :
    m.left t ≠ 0 ∧ m.turn b = m ∨
      m.left t = 0 ∧ m.turn b = (m.setLeft t (m.full t)).setRing b (l ++ [t]) := by
  rw [turn, h]
  dsimp only
  split_ifs with ht
  · exact .inr ⟨ht, rfl⟩
  · exact .inl ⟨ht, rfl⟩

omit [DecidableEq C] in
theorem turn_nil (h : m.ring b = []) : m.turn b = m := by rw [turn, h]

omit [DecidableEq C] in
theorem turn_mem : u ∈ (m.turn b).ring d ↔ u ∈ m.ring d := by
  cases hb : m.ring b with
  | nil => rw [turn_nil hb]
  | cons t l =>
    obtain ⟨-, heq⟩ | ⟨-, heq⟩ := turn_cases hb
    · rw [heq]
    · rw [heq]
      by_cases hd : d = b
      · subst hd
        rw [setRing_self, hb]
        simp [or_comm]
      · rw [setRing_of_ne hd]
        rfl

omit [DecidableEq C] in
theorem turn_left_zero (hu : (m.turn b).left u = 0) : m.left u = 0 := by
  cases hb : m.ring b with
  | nil => rwa [turn_nil hb] at hu
  | cons t l =>
    obtain ⟨-, heq⟩ | ⟨ht, heq⟩ := turn_cases hb
    · rwa [heq] at hu
    · rw [heq] at hu
      change (m.setLeft t (m.full t)).left u = 0 at hu
      by_cases hut : u = t
      · rw [hut, ht]
      · rwa [setLeft_of_ne hut] at hu

omit [DecidableEq C] in
theorem Fit.turn (h : Fit m) : Fit (m.turn b) := by
  cases hb : m.ring b with
  | nil => rwa [turn_nil hb]
  | cons t l =>
    obtain ⟨-, heq⟩ | ⟨ht, heq⟩ := turn_cases hb
    · rwa [heq]
    have hmem {d : B} {u : T} (hu : u ∈ ((m.setLeft t (m.full t)).setRing b (l ++ [t])).ring d) :
        u ∈ m.ring d := turn_mem.mp (heq ▸ hu)
    have hleft {u : T} (hu : (m.setLeft t (m.full t)).left u = 0) : m.left u = 0 :=
      turn_left_zero (b := b) (by rwa [heq])
    rw [heq]
    refine ⟨fun d => ?_, fun d u hu => h.home d u (hmem hu),
      fun c u d hc hu => h.apart c u d hc (hmem hu), h.place,
      fun d u hu v hv hul hvl => h.spare d u (hmem hu) v (hmem hv) (hleft hul) (hleft hvl), h.full⟩
    by_cases hd : d = b
    · subst hd
      have hnodup := h.nodup d
      rw [hb] at hnodup
      rw [setRing_self]
      exact (List.perm_append_singleton t l).nodup_iff.mpr hnodup
    · rw [setRing_of_ne hd]
      exact h.nodup d

omit [DecidableEq C] in
/-- The first thread of a ring that has turned has something left. -/
theorem Fit.turn_left (h : Fit m) (ht : (m.turn b).ring b = t :: l) : (m.turn b).left t ≠ 0 := by
  cases hb : m.ring b with
  | nil =>
    rw [turn_nil hb, hb] at ht
    cases ht
  | cons u k =>
    obtain ⟨hu, heq⟩ | ⟨hu, heq⟩ := turn_cases hb
    · rw [heq, hb, List.cons.injEq] at ht
      rw [heq, ← ht.1]
      exact hu
    · rw [heq, setRing_self] at ht
      rw [heq]
      change (m.setLeft u (m.full u)).left t ≠ 0
      have hmem : t ∈ m.ring b := by
        have htk : t ∈ k ++ [u] := by simp [ht]
        rw [hb]
        simpa [or_comm] using htk
      by_cases htu : t = u
      · rw [htu, setLeft_self]
        exact h.full u
      · rw [setLeft_of_ne htu]
        intro ht0
        exact htu (h.spare b t hmem u (by simp [hb]) ht0 hu)


omit [DecidableEq C] in
@[simp] theorem turn_place : (m.turn b).place = m.place := by
  unfold turn
  split
  · rfl
  · split_ifs <;> rfl

omit [DecidableEq C] in
@[simp] theorem turn_home : (m.turn b).home = m.home := by
  unfold turn
  split
  · rfl
  · split_ifs <;> rfl

/-- A place takes another thread. -/
theorem Taken.replace (ht : (m.turn b).ring b = t :: l) :
    Taken (m.setPlace c none) (((m.turn b).setRing b l).setPlace c (some t)) := by
  have hturn : (m.setPlace c none).turn b = (m.turn b).setPlace c none := by
    cases hb : m.ring b with
    | nil => rw [turn_nil hb, turn_nil (m := m.setPlace c none) hb]
    | cons x k =>
      obtain ⟨hx, heq⟩ | ⟨hx, heq⟩ := turn_cases (m := m.setPlace c none) hb
      · rw [heq, turn, hb]
        simp only [if_neg (show ¬ m.left x = 0 from hx)]
      · rw [heq, turn, hb]
        simp only [if_pos (show m.left x = 0 from hx)]
        rfl
  have htake := Taken.take (m := m.setPlace c none) (c := c) (b := b) (t := t) (l := l)
    setPlace_self (by rw [hturn]; exact ht)
  rw [hturn] at htake
  simpa only [setRing, setPlace, update_idem] using htake

theorem Taken.mem_of (h : Taken m m') (hu : u ∈ m'.ring d) : u ∈ m.ring d := by
  cases h with
  | stay => exact hu
  | @take c b t l hc ht =>
    change u ∈ ((m.turn b).setRing b l).ring d at hu
    suffices hturn : u ∈ (m.turn b).ring d from turn_mem.mp hturn
    by_cases hd : d = b
    · subst hd
      rw [setRing_self] at hu
      rw [ht]
      exact List.mem_cons_of_mem t hu
    · rwa [setRing_of_ne hd] at hu

theorem Taken.left_zero (h : Taken m m') (hu : m'.left u = 0) : m.left u = 0 := by
  cases h with
  | stay => exact hu
  | take hc ht => exact turn_left_zero hu

/-! ## What a step keeps -/

omit [DecidableEq T] [DecidableEq C] in
/-- A thread that is nowhere enters its ring. -/
theorem Fit.insert {k l : List T} (h : Fit m) (ht : ∀ d, t ∉ m.ring d)
    (hc : ∀ c, m.place c ≠ some t) (hb : m.ring (m.home t) = k ++ l)
    (hleft : m.left t = 0 → ∀ u ∈ m.ring (m.home t), m.left u ≠ 0) :
    Fit (m.setRing (m.home t) (k ++ t :: l)) := by
  have hperm : (k ++ t :: l).Perm (t :: m.ring (m.home t)) := by
    rw [hb]
    exact List.perm_middle
  have hmem (d : B) (u : T) : u ∈ (m.setRing (m.home t) (k ++ t :: l)).ring d ↔
      u = t ∧ d = m.home t ∨ u ∈ m.ring d := by
    by_cases hd : d = m.home t
    · subst hd
      rw [setRing_self, hperm.mem_iff]
      simp
    · rw [setRing_of_ne hd]
      simp [hd]
  refine ⟨fun d => ?_, fun d u hu => ?_, fun c u d hcu hu => ?_, h.place,
    fun d u hu v hv hul hvl => ?_, h.full⟩
  · by_cases hd : d = m.home t
    · subst hd
      rw [setRing_self, hperm.nodup_iff]
      exact List.nodup_cons.mpr ⟨ht _, h.nodup _⟩
    · rw [setRing_of_ne hd]
      exact h.nodup d
  · obtain ⟨rfl, rfl⟩ | hu := (hmem d u).mp hu
    · rfl
    · exact h.home d u hu
  · obtain ⟨rfl, -⟩ | hu := (hmem d u).mp hu
    · exact hc c hcu
    · exact h.apart c u d hcu hu
  · change m.left u = 0 at hul
    change m.left v = 0 at hvl
    obtain ⟨rfl, rfl⟩ | hud := (hmem d u).mp hu
    · obtain ⟨rfl, -⟩ | hvd := (hmem _ v).mp hv
      · rfl
      · exact absurd hvl (hleft hul v hvd)
    · obtain ⟨rfl, rfl⟩ | hvd := (hmem d v).mp hv
      · exact absurd hul (hleft hvl u hud)
      · exact h.spare d u hud v hvd hul hvl

omit [DecidableEq T] [DecidableEq B] in
theorem Fit.free (h : Fit m) : Fit (m.setPlace c none) := by
  have hplace {e : C} {u : T} (he : (m.setPlace c none).place e = some u) : m.place e = some u := by
    by_cases hec : e = c
    · subst hec
      rw [setPlace_self] at he
      cases he
    · rwa [setPlace_of_ne hec] at he
  exact ⟨h.nodup, h.home, fun e u b he => h.apart e u b (hplace he),
    fun d e u hd he => h.place d e u (hplace hd) (hplace he), h.spare, h.full⟩

omit [DecidableEq T] [DecidableEq C] in
/-- A ring loses threads. -/
theorem Fit.sublist (h : Fit m) (hl : l.Sublist (m.ring b)) : Fit (m.setRing b l) := by
  have hmem {d : B} {u : T} (hu : u ∈ (m.setRing b l).ring d) : u ∈ m.ring d := by
    by_cases hd : d = b
    · subst hd
      rw [setRing_self] at hu
      exact hl.mem hu
    · rwa [setRing_of_ne hd] at hu
  refine ⟨fun d => ?_, fun d u hu => h.home d u (hmem hu),
    fun e u d he hu => h.apart e u d he (hmem hu), h.place, fun d u hu v hv => h.spare d u (hmem hu) v (hmem hv), h.full⟩
  by_cases hd : d = b
  · subst hd
    rw [setRing_self]
    exact hl.nodup (h.nodup d)
  · rw [setRing_of_ne hd]
    exact h.nodup d

theorem Away.fit (h : Away N m m') (hf : Fit m) : Fit m' := by
  cases h with
  | stay => exact hf
  | @spend c t n ht hn =>
    have hleft {b : B} {u : T} (hu : u ∈ m.ring b) : (m.setLeft t n).left u = m.left u := by
      refine setLeft_of_ne ?_
      rintro rfl
      exact hf.apart c u b ht hu
    refine ⟨hf.nodup, hf.home, hf.apart, hf.place, fun b u hu v hv hul hvl => ?_, hf.full⟩
    rw [hleft hu] at hul
    rw [hleft hv] at hvl
    exact hf.spare b u hu v hv hul hvl
  | @back c t ht hleft =>
    have hnone (e : C) : (m.setPlace c none).place e ≠ some t := by
      by_cases he : e = c
      · subst he
        simp
      · rw [setPlace_of_ne he]
        exact fun het => he (hf.place e c t het ht)
    exact (hf.free (c := c)).insert (k := []) (fun d => hf.apart c t d ht) hnone rfl hleft
  | quit hN ht => exact hf.free
  | leave hN => exact hf.sublist List.erase_sublist

theorem Taken.fit (h : Taken m m') (hf : Fit m) : Fit m' := by
  cases h with
  | stay => exact hf
  | @take c b t l hc ht =>
    have hturn : Fit (m.turn b) := hf.turn
    have hnodup := hturn.nodup b
    have hmem : t ∈ (m.turn b).ring b := by simp [ht]
    rw [ht, List.nodup_cons] at hnodup
    have hl : Fit ((m.turn b).setRing b l) :=
      hturn.sublist (by rw [ht]; exact List.sublist_cons_self t l)
    have hout (d : B) : t ∉ ((m.turn b).setRing b l).ring d := by
      by_cases hd : d = b
      · subst hd
        rw [setRing_self]
        exact hnodup.1
      · rw [setRing_of_ne hd]
        intro htd
        exact hd ((hturn.home d t htd).symm.trans (hturn.home b t hmem))
    have hplace {e : C} {u : T}
        (he : (((m.turn b).setRing b l).setPlace c (some t)).place e = some u) :
        e = c ∧ u = t ∨ e ≠ c ∧ (m.turn b).place e = some u := by
      by_cases hec : e = c
      · subst hec
        rw [setPlace_self, Option.some.injEq] at he
        exact .inl ⟨rfl, he.symm⟩
      · rw [setPlace_of_ne hec] at he
        exact .inr ⟨hec, he⟩
    refine ⟨hl.nodup, hl.home, fun e u d he => ?_, fun d e u hd he => ?_, hl.spare, hl.full⟩
    · obtain ⟨-, rfl⟩ | ⟨-, he⟩ := hplace he
      · exact hout d
      · exact hl.apart e u d he
    · obtain ⟨rfl, rfl⟩ | ⟨-, hdu⟩ := hplace hd
      · obtain ⟨rfl, -⟩ | ⟨-, heu⟩ := hplace he
        · rfl
        · exact absurd hmem (hturn.apart e u b heu)
      · obtain ⟨rfl, rfl⟩ | ⟨-, heu⟩ := hplace he
        · exact absurd hmem (hturn.apart d u b hdu)
        · exact hl.place d e u hdu heu

omit [DecidableEq B] [DecidableEq C] in
theorem Fit.setHome (h : Fit m) (ht : ∀ d, t ∉ m.ring d) : Fit (m.setHome t b) := by
  refine ⟨h.nodup, fun d u hu => ?_, h.apart, h.place, h.spare, h.full⟩
  have hne : u ≠ t := by
    rintro rfl
    exact ht d hu
  rw [setHome_of_ne hne]
  exact h.home d u hu

omit [DecidableEq C] in
theorem Arrive.fit (h : Arrive N m m') (hf : Fit m) : Fit m' := by
  cases h with
  | stay => exact hf
  | move hN ht => exact hf.setHome ht
  | @enter t b l₁ l₂ hN ht hc hb hleft =>
    have hself : (m.setHome t b).home t = b := setHome_self
    have hf' := (hf.setHome (b := b) ht).insert (t := t) (k := l₁) (l := l₂) ht hc
    rw [hself] at hf'
    exact hf' hb hleft

theorem Step.fit (h : Step N m m') (hf : Fit m) : Fit m' := by
  obtain ⟨m₁, m₂, haway, htaken, harrive⟩ := h
  exact harrive.fit (htaken.fit (haway.fit hf))

/-! ## Budgets -/

omit [DecidableEq C] in
theorem Arrive.place (h : Arrive N m m') : m'.place = m.place := by cases h <;> rfl

omit [DecidableEq C] in
theorem Arrive.left (h : Arrive N m m') : m'.left = m.left := by cases h <;> rfl

theorem Away.place_some (h : Away N m m') (hc : m'.place c = some t) : m.place c = some t := by
  have hfree {e : C} (he : (m.setPlace e none).place c = some t) : m.place c = some t := by
    by_cases hce : c = e
    · subst hce
      rw [setPlace_self] at he
      cases he
    · rwa [setPlace_of_ne hce] at he
  cases h with
  | stay => exact hc
  | spend ht hn => exact hc
  | back ht hleft => exact hfree hc
  | quit hN ht => exact hfree hc
  | leave hN => exact hc

/-- A place takes only threads with something left. -/
theorem Taken.left_ne (h : Taken m m') (hf : Fit m) (hc : m.place c ≠ some t)
    (hc' : m'.place c = some t) : m'.left t ≠ 0 := by
  cases h with
  | stay => exact absurd hc' hc
  | @take e b u l he hu =>
    by_cases hce : c = e
    · subst hce
      rw [setPlace_self, Option.some.injEq] at hc'
      exact hc' ▸ hf.turn_left hu
    · rw [setPlace_of_ne hce] at hc'
      change (m.turn b).place c = some t at hc'
      rw [turn_place] at hc'
      exact absurd hc' hc

theorem Step.left_ne (h : Step N m m') (hf : Fit m) (hc : m.place c ≠ some t)
    (hc' : m'.place c = some t) : m'.left t ≠ 0 := by
  obtain ⟨m₁, m₂, haway, htaken, harrive⟩ := h
  rw [harrive.place] at hc'
  rw [harrive.left]
  exact htaken.left_ne (haway.fit hf) (fun hc₁ => hc (haway.place_some hc₁)) hc'

/-! ## Turns -/

theorem Away.home (h : Away N m m') : m'.home = m.home := by cases h <;> rfl

theorem Taken.home (h : Taken m m') : m'.home = m.home := by
  cases h with
  | stay => rfl
  | take hc ht => exact turn_home

omit [DecidableEq C] in
theorem Arrive.home (h : Arrive N m m') (ht : ¬ N t) : m'.home t = m.home t := by
  cases h with
  | stay => rfl
  | move hN hout => exact setHome_of_ne fun hx => ht (hx ▸ hN)
  | enter hN hout hc hb hleft => exact setHome_of_ne fun hx => ht (hx ▸ hN)

theorem Away.mem (h : Away N m m') (hu : ¬ N u) (hm : u ∈ m.ring b) : u ∈ m'.ring b := by
  cases h with
  | stay => exact hm
  | spend ht hn => exact hm
  | @back c t ht hleft =>
    by_cases hb : b = m.home t
    · subst hb
      simp [hm]
    · rw [setRing_of_ne hb]
      exact hm
  | quit hN ht => exact hm
  | @leave t hN =>
    have hut : u ≠ t := fun hx => hu (hx ▸ hN)
    by_cases hb : b = m.home t
    · subst hb
      rw [setRing_self]
      exact (List.mem_erase_of_ne hut).mpr hm
    · rw [setRing_of_ne hb]
      exact hm

/-- A thread in a ring stays there until a place takes it. -/
theorem Taken.mem (h : Taken m m') (hm : u ∈ m.ring b) :
    (∃ c, m'.place c = some u) ∨ u ∈ m'.ring b := by
  cases h with
  | stay => exact .inr hm
  | @take c d t l hc ht =>
    by_cases hut : u = t
    · subst hut
      exact .inl ⟨c, setPlace_self⟩
    · refine .inr ?_
      have hm' : u ∈ (m.turn d).ring b := turn_mem.mpr hm
      change u ∈ ((m.turn d).setRing d l).ring b
      by_cases hb : b = d
      · subst hb
        rw [ht, List.mem_cons] at hm'
        rw [setRing_self]
        exact hm'.resolve_left hut
      · rwa [setRing_of_ne hb]

omit [DecidableEq C] in
theorem Arrive.mem (h : Arrive N m m') (hm : u ∈ m.ring b) : u ∈ m'.ring b := by
  cases h with
  | stay => exact hm
  | move hN hout => exact hm
  | @enter t d l₁ l₂ hN hout hc hb hleft =>
    by_cases hbd : b = d
    · subst hbd
      rw [hb, List.mem_append] at hm
      rw [setRing_self, List.mem_append, List.mem_cons]
      exact hm.imp_right .inr
    · rw [setRing_of_ne hbd]
      exact hm

theorem Step.mem (h : Step N m m') (hu : ¬ N u) (ht : ¬ N t) (hm : u ∈ m.ring (m.home t)) :
    (∃ c, m'.place c = some u) ∨ u ∈ m'.ring (m'.home t) := by
  obtain ⟨m₁, m₂, haway, htaken, harrive⟩ := h
  rw [harrive.place, harrive.home ht, htaken.home, haway.home]
  exact (htaken.mem (haway.mem hu hm)).imp_right harrive.mem

/-- The thread `u` waits, and `t` has nothing left or waits behind it. -/
def Waits (u t : T) (m : Rota T B C) : Prop :=
  u ∈ m.ring (m.home t) ∧ (m.left t = 0 ∨ m.left u ≠ 0 ∧ [u, t].Sublist (m.ring (m.home t)))

theorem Away.waits (h : Away N m m') (hf : Fit m) (hu : ¬ N u) (ht : ¬ N t) (hw : Waits u t m) :
    Waits u t m' := by
  refine ⟨?_, ?_⟩
  · rw [h.home]
    exact h.mem hu hw.1
  obtain ⟨hmem, hturn⟩ := hw
  cases h with
  | stay => exact hturn
  | @spend c x n hx hn =>
    have hux : u ≠ x := by
      rintro rfl
      exact hf.apart c u _ hx hmem
    obtain ht0 | ⟨hu0, hsub⟩ := hturn
    · refine .inl ?_
      by_cases htx : t = x
      · subst htx
        rw [setLeft_self]
        omega
      · rwa [setLeft_of_ne htx]
    · exact .inr ⟨by rwa [setLeft_of_ne hux], hsub⟩
  | @back c x hx hleft =>
    refine hturn.imp_right fun h => ⟨h.1, ?_⟩
    change [u, t].Sublist (((m.setPlace c none).setRing (m.home x) (x :: m.ring (m.home x))).ring
      (m.home t))
    by_cases hb : m.home t = m.home x
    · rw [hb, setRing_self, ← hb]
      exact h.2.cons x
    · rw [setRing_of_ne hb]
      exact h.2
  | quit hN hx => exact hturn
  | @leave x hN =>
    have hux : u ≠ x := fun hx => hu (hx ▸ hN)
    have htx : t ≠ x := fun hx => ht (hx ▸ hN)
    refine hturn.imp_right fun h => ⟨h.1, ?_⟩
    change [u, t].Sublist ((m.setRing (m.home x) ((m.ring (m.home x)).erase x)).ring (m.home t))
    by_cases hb : m.home t = m.home x
    · have herase : ([u, t] : List T).erase x = [u, t] :=
        List.erase_of_not_mem (by simp [hux.symm, htx.symm])
      rw [hb, setRing_self, ← hb, ← herase]
      exact h.2.erase x
    · rw [setRing_of_ne hb]
      exact h.2

omit [DecidableEq C] in
theorem Arrive.waits (h : Arrive N m m') (ht : ¬ N t) (hw : Waits u t m) : Waits u t m' := by
  refine ⟨?_, ?_⟩
  · rw [h.home ht]
    exact h.mem hw.1
  rw [h.home ht, h.left]
  refine hw.2.imp_right fun hsub => ⟨hsub.1, ?_⟩
  cases h with
  | stay => exact hsub.2
  | move hN hout => exact hsub.2
  | @enter x b l₁ l₂ hN hout hc hb hleft =>
    by_cases hd : m.home t = b
    · rw [hd, setRing_self]
      have hl : (l₁ ++ l₂).Sublist (l₁ ++ x :: l₂) :=
        (List.sublist_cons_self x l₂).append_left l₁
      rw [← hb, ← hd] at hl
      exact hsub.2.trans hl
    · rw [setRing_of_ne hd]
      exact hsub.2

omit [DecidableEq C] in
/-- When a ring turns, a thread that has nothing left gets behind all others. -/
theorem Waits.turn (hw : Waits u t m) (hf : Fit m) (hut : u ≠ t) : Waits u t (m.turn b) := by
  obtain ⟨hmem, hturn⟩ := hw
  refine ⟨?_, ?_⟩
  · rw [turn_home]
    exact turn_mem.mpr hmem
  rw [turn_home]
  cases hb : m.ring b with
  | nil => rwa [turn_nil hb]
  | cons x l =>
    obtain ⟨-, heq⟩ | ⟨hx, heq⟩ := turn_cases hb
    · rwa [heq]
    rw [heq]
    have hxb : x ∈ m.ring b := by simp [hb]
    by_cases hxt : x = t
    · subst hxt
      have hhome : m.home x = b := hf.home b x hxb
      have hu : u ∈ l := by
        rw [hhome, hb, List.mem_cons] at hmem
        exact hmem.resolve_left hut
      refine .inr ⟨?_, ?_⟩
      · change (m.setLeft x (m.full x)).left u ≠ 0
        rw [setLeft_of_ne hut]
        intro hu0
        exact hut (hf.spare b u (by simp [hb, hu]) x hxb hu0 hx)
      · rw [hhome, setRing_self]
        exact (List.singleton_sublist.mpr hu).append (List.Sublist.refl [x])
    · obtain ht0 | ⟨hu0, hsub⟩ := hturn
      · refine .inl ?_
        change (m.setLeft x (m.full x)).left t = 0
        rwa [setLeft_of_ne (Ne.symm hxt)]
      · have hux : u ≠ x := by
          rintro rfl
          exact hu0 hx
        refine .inr ⟨?_, ?_⟩
        · change (m.setLeft x (m.full x)).left u ≠ 0
          rwa [setLeft_of_ne hux]
        · by_cases hd : m.home t = b
          · rw [hd, hb] at hsub
            rw [hd, setRing_self]
            exact (hsub.of_cons_of_ne hux).trans (List.sublist_append_left l [x])
          · rw [setRing_of_ne hd]
            exact hsub

omit [DecidableEq T] [DecidableEq C] in
/-- The first thread of a ring, if it has something left, is the one that waits or another one that
is not behind it. -/
theorem Waits.first (hw : Waits u t m) (hf : Fit m) (hut : u ≠ t) (hb : m.ring b = x :: l)
    (hx : m.left x ≠ 0) : x ≠ t ∧ (x = u ∨ Waits u t (m.setRing b l)) := by
  obtain ⟨hmem, hturn⟩ := hw
  refine ⟨?_, ?_⟩
  · rintro rfl
    have hhome : m.home x = b := hf.home b x (by simp [hb])
    obtain hx0 | ⟨-, hsub⟩ := hturn
    · exact hx hx0
    · have hnodup := hf.nodup b
      rw [hb, List.nodup_cons] at hnodup
      rw [hhome, hb] at hsub
      exact hnodup.1 ((hsub.of_cons_of_ne hut).mem (by simp))
  · by_cases hux : x = u
    · exact .inl hux
    · refine .inr ?_
      by_cases hd : m.home t = b
      · have hring : (m.setRing b l).ring (m.home t) = l := by rw [hd, setRing_self]
        rw [hd, hb] at hmem hturn
        refine ⟨?_, hturn.imp_right fun h => ⟨h.1, ?_⟩⟩
        · change u ∈ (m.setRing b l).ring (m.home t)
          rw [hring]
          exact (List.mem_cons.mp hmem).resolve_left (Ne.symm hux)
        · change [u, t].Sublist ((m.setRing b l).ring (m.home t))
          rw [hring]
          exact h.2.of_cons_of_ne (Ne.symm hux)
      · have hring : (m.setRing b l).ring (m.home t) = m.ring (m.home t) := setRing_of_ne hd
        refine ⟨?_, hturn.imp_right fun h => ⟨h.1, ?_⟩⟩
        · change u ∈ (m.setRing b l).ring (m.home t)
          rwa [hring]
        · change [u, t].Sublist ((m.setRing b l).ring (m.home t))
          rw [hring]
          exact h.2

theorem Taken.waits (h : Taken m m') (hf : Fit m) (hut : u ≠ t) (hw : Waits u t m) :
    (∀ c, m'.place c = some t → m.place c = some t) ∧
      ((∃ c, m'.place c = some u) ∨ Waits u t m') := by
  cases h with
  | stay => exact ⟨fun _ hc => hc, .inr hw⟩
  | @take e b x l he hx =>
    obtain ⟨hxt, hxu⟩ := (hw.turn hf hut).first hf.turn hut hx (hf.turn_left hx)
    refine ⟨fun c hc => ?_, hxu.imp (fun hxu => ⟨e, ?_⟩) id⟩
    · by_cases hce : c = e
      · subst hce
        rw [setPlace_self, Option.some.injEq] at hc
        exact absurd hc hxt
      · rw [setPlace_of_ne hce] at hc
        change (m.turn b).place c = some t at hc
        rwa [turn_place] at hc
    · rw [setPlace_self, hxu]

/-- A thread with nothing left does not get a place before one that waits in its ring. -/
theorem Step.waits (h : Step N m m') (hf : Fit m) (hut : u ≠ t) (hu : ¬ N u) (ht : ¬ N t)
    (hw : Waits u t m) : (∀ c, m'.place c = some t → m.place c = some t) ∧
      ((∃ c, m'.place c = some u) ∨ Waits u t m') := by
  obtain ⟨m₁, m₂, haway, htaken, harrive⟩ := h
  obtain ⟨hplace, hwaits⟩ := htaken.waits (haway.fit hf) hut (haway.waits hf hu ht hw)
  rw [harrive.place]
  exact ⟨fun c hc => haway.place_some (hplace c hc), hwaits.imp_right fun h => harrive.waits ht h⟩

/-! ## One place -/

/-- With one place only: behind the first thread of a ring, and in the ring that the thread with the
place comes from, every thread has something left. -/
structure Solo (m : Rota T B C) : Prop where
  one : ∀ c e t u, m.place c = some t → m.place e = some u → c = e
  behind : ∀ b, ∀ u ∈ (m.ring b).tail, m.left u ≠ 0
  others : ∀ c t, m.place c = some t → ∀ u ∈ m.ring (m.home t), m.left u ≠ 0

omit [DecidableEq C] in
/-- After the first thread that had nothing left has gone to the end, all threads of the ring have
something left. -/
theorem turn_left_ne (hf : Fit m) (hl : ∀ u ∈ (m.ring b).tail, m.left u ≠ 0)
    (hu : u ∈ (m.turn b).ring b) : (m.turn b).left u ≠ 0 := by
  cases hb : m.ring b with
  | nil =>
    rw [turn_nil hb, hb] at hu
    cases hu
  | cons t l =>
    rw [hb, List.tail_cons] at hl
    have hut : u = t ∨ u ∈ l := by simpa [turn_mem, hb] using hu
    obtain ⟨ht, heq⟩ | ⟨ht, heq⟩ := turn_cases hb
    · rw [heq]
      obtain rfl | hul := hut
      · exact ht
      · exact hl u hul
    · rw [heq]
      change (m.setLeft t (m.full t)).left u ≠ 0
      by_cases hx : u = t
      · rw [hx, setLeft_self]
        exact hf.full t
      · rw [setLeft_of_ne hx]
        exact hl u (hut.resolve_left hx)

omit [DecidableEq C] in
theorem turn_ring_ne (hd : d ≠ b) : (m.turn b).ring d = m.ring d := by
  cases hb : m.ring b with
  | nil => rw [turn_nil hb]
  | cons t l =>
    obtain ⟨-, heq⟩ | ⟨-, heq⟩ := turn_cases hb
    · rw [heq]
    · rw [heq, setRing_of_ne hd]
      rfl

theorem Away.solo (h : Away (fun _ => False) m m') (hf : Fit m) (hs : Solo m) : Solo m' := by
  cases h with
  | stay => exact hs
  | @spend c t n ht hn =>
    have hleft {b : B} {u : T} (hu : u ∈ m.ring b) : (m.setLeft t n).left u = m.left u := by
      refine setLeft_of_ne ?_
      rintro rfl
      exact hf.apart c u b ht hu
    refine ⟨hs.one, fun b u hu => ?_, fun e x he u hu => ?_⟩
    · rw [hleft (List.mem_of_mem_tail hu)]
      exact hs.behind b u hu
    · rw [hleft hu]
      exact hs.others e x he u hu
  | @back c t ht hleft =>
    have hfree (e : C) (x : T) : (m.setPlace c none).place e ≠ some x := by
      by_cases he : e = c
      · subst he
        simp
      · rw [setPlace_of_ne he]
        exact fun hx => he (hs.one e c x t hx ht)
    refine ⟨fun e _ x _ he => absurd he (hfree e x), fun b u hu => ?_,
      fun e x he => absurd he (hfree e x)⟩
    by_cases hb : b = m.home t
    · subst hb
      rw [setRing_self, List.tail_cons] at hu
      exact hs.others c t ht u hu
    · rw [setRing_of_ne hb] at hu
      exact hs.behind b u hu
  | quit hN => exact hN.elim
  | leave hN => exact hN.elim

theorem Taken.solo (h : Taken m m') (hf : Fit m) (hs : Solo m)
    (hone : ∀ c e t u, m'.place c = some t → m'.place e = some u → c = e) : Solo m' := by
  cases h with
  | stay => exact hs
  | @take c b t l hc ht =>
    have hl {u : T} (hu : u ∈ l) : (m.turn b).left u ≠ 0 :=
      turn_left_ne hf (hs.behind b) (by rw [ht]; exact List.mem_cons_of_mem t hu)
    refine ⟨hone, fun d u hu => ?_, fun e x he u hu => ?_⟩
    · change u ∈ (((m.turn b).setRing b l).ring d).tail at hu
      by_cases hd : d = b
      · subst hd
        rw [setRing_self] at hu
        exact hl (List.mem_of_mem_tail hu)
      · rw [setRing_of_ne hd, turn_ring_ne hd] at hu
        exact fun h0 => hs.behind d u hu (turn_left_zero h0)
    · have hec : e = c := hone e c x t he setPlace_self
      subst hec
      rw [setPlace_self, Option.some.injEq] at he
      subst he
      have hhome : (m.turn b).home t = b := hf.turn.home b t (by simp [ht])
      change u ∈ ((m.turn b).setRing b l).ring ((m.turn b).home t) at hu
      rw [hhome, setRing_self] at hu
      exact hl hu

/-- Where no threads are moved and there is one place only, it stays so. -/
theorem Step.solo (h : Step (fun _ => False) m m') (hf : Fit m) (hs : Solo m)
    (hone : ∀ c e t u, m'.place c = some t → m'.place e = some u → c = e) : Solo m' := by
  obtain ⟨m₁, m₂, haway, htaken, harrive⟩ := h
  cases harrive with
  | stay => exact htaken.solo (haway.fit hf) (haway.solo hf hs) hone
  | move hN => exact hN.elim
  | enter hN => exact hN.elim

end Rota
end SylixOS.Lib
