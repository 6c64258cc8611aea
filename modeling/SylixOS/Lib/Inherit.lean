import Mathlib.Order.Basic
import Mathlib.Order.Lattice
import Mathlib.Logic.Function.Basic
import Mathlib.Data.Set.Insert

/-! # Priority inheritance

Threads own locks and wait for locks, and the owner of a lock inherits the priority of a more urgent
thread that begins to wait for it. A lower priority is more urgent. The conditions of a step are
those under which it leaves every owner at least as urgent as the threads that wait for it, and a
thread that owns nothing with the priority it had before.
-/

namespace SylixOS.Lib
open Function

/-- What matters of threads and locks: `base` is the priority of a thread before it took the first
of the locks that it owns. -/
@[ext] structure Inherit (T E P : Type) where
  prio : T → P
  owner : E → Option T
  waits : T → Set E
  base : T → P

namespace Inherit

variable {T E P : Type} [DecidableEq T] [DecidableEq E]

/-- The thread owns a lock other than this one. -/
def OwnsOther (m : Inherit T E P) (t : T) (e : E) : Prop := ∃ d, d ≠ e ∧ m.owner d = some t

open Classical in
/-- The priorities that the threads had before they took the first of the locks that they own, once
a step is made. -/
noncomputable def rebase (m : Inherit T E P) (t : T) : P :=
  if ∃ e, m.owner e = some t then m.base t else m.prio t

/-- What can happen. The priority that `pass` gives the old owner is any one that meets the
conditions. -/
inductive Step [LinearOrder P] (m : Inherit T E P) : Inherit T E P → Prop where
  | leave (waits : T → Set E) (h : ∀ t, waits t ⊆ m.waits t) :
      Step m { m with waits, base := m.rebase }
  | take (t : T) (e : E) (ho : m.owner e = none) (hw : ∀ u, e ∉ m.waits u) :
      Step m { m with owner := update m.owner e (some t), base := m.rebase }
  | block (t o : T) (e : E) (ho : m.owner e = some o)
      (hc : m.prio t < m.prio o →
        ∀ d ∈ m.waits o, ∀ x, m.owner d = some x → x ≠ o → m.prio x ≤ m.prio t) :
      Step m
        { m with
          prio := update m.prio o (min (m.prio o) (m.prio t))
          waits := update m.waits t (insert e (m.waits t))
          base := m.rebase }
  | pass (t u : T) (e : E) (p : P) (ho : m.owner e = some t) (ht : m.waits t = ∅)
      (hu : e ∈ m.waits u) (hnext : ∀ v, e ∈ m.waits v → m.prio u ≤ m.prio v)
      (hrest : ∀ d, d ≠ e → m.owner d = some t → ∀ v, d ∈ m.waits v → p ≤ m.prio v)
      (hbase : ¬ m.OwnsOther t e → p = m.base t) :
      Step m
        { prio := update m.prio t p
          owner := update m.owner e (some u)
          waits := update m.waits u ∅
          base := m.rebase }
  | free (t : T) (e : E) (ho : m.owner e = some t) (hw : ∀ u, e ∉ m.waits u)
      (hbase : ¬ m.OwnsOther t e → m.prio t = m.base t) :
      Step m { m with owner := update m.owner e none, base := m.rebase }

/-- Owners are as urgent as the threads that wait for them, and threads that own nothing have their
own priorities. -/
structure Ok [LinearOrder P] (m : Inherit T E P) : Prop where
  urgent : ∀ e t, m.owner e = some t → ∀ u, e ∈ m.waits u → m.prio t ≤ m.prio u
  base : ∀ t, (∀ e, m.owner e ≠ some t) → m.prio t = m.base t

section Rebase
variable {m : Inherit T E P} {t : T} {e : E}

omit [DecidableEq T] [DecidableEq E]

theorem rebase_of_owner (h : m.owner e = some t) : m.rebase t = m.base t := if_pos ⟨e, h⟩

theorem rebase_of_not_owner (h : ∀ e, m.owner e ≠ some t) : m.rebase t = m.prio t :=
  if_neg (not_exists.mpr h)

end Rebase

variable [LinearOrder P] {m m' : Inherit T E P} {t : T} {e : E}

omit [DecidableEq T] [LinearOrder P] in
/-- A thread that owns nothing once the owner of a lock has changed owned nothing before, unless it
was the owner. -/
theorem not_owner_update {o : Option T}
    (h : ∀ d, update m.owner e o d ≠ some t) (ht : m.owner e ≠ some t) (d : E) :
    m.owner d ≠ some t := by
  by_cases hd : d = e
  · rw [hd]
    exact ht
  · have hne := h d
    rwa [update_of_ne hd] at hne

omit [DecidableEq T] [LinearOrder P] in
theorem not_ownsOther_update {o : Option T}
    (h : ∀ d, update m.owner e o d ≠ some t) : ¬ m.OwnsOther t e := by
  rintro ⟨d, hd, hown⟩
  refine h d ?_
  rw [update_of_ne hd]
  exact hown

omit [DecidableEq E] in
theorem Ok.block {o : T} (h : Ok m) (ho : m.owner e = some o)
    (hc : m.prio t < m.prio o →
      ∀ d ∈ m.waits o, ∀ x, m.owner d = some x → x ≠ o → m.prio x ≤ m.prio t) :
    Ok { m with
      prio := update m.prio o (min (m.prio o) (m.prio t))
      waits := update m.waits t (insert e (m.waits t))
      base := m.rebase } := by
  refine ⟨?_, ?_⟩
  · intro d x hx u hu
    dsimp only at hx hu ⊢
    have hold : d ∈ m.waits u ∨ u = t ∧ d = e := by
      by_cases hut : u = t
      · subst hut
        rw [update_self, Set.mem_insert_iff] at hu
        cases hu with
        | inl hu => exact .inr ⟨rfl, hu⟩
        | inr hu => exact .inl hu
      · rw [update_of_ne hut] at hu
        exact .inl hu
    by_cases hxo : x = o
    · subst hxo
      by_cases huo : u = x
      · rw [huo]
      · rw [update_self, update_of_ne huo]
        cases hold with
        | inl hw => exact (min_le_left _ _).trans (h.urgent d x hx u hw)
        | inr hw =>
          rw [hw.1]
          exact min_le_right _ _
    · by_cases huo : u = o
      · subst huo
        rw [update_of_ne hxo, update_self]
        have hwait : d ∈ m.waits u := by
          cases hold with
          | inl hw => exact hw
          | inr hw =>
            rw [hw.2] at hx
            exact absurd (Option.some.inj (hx.symm.trans ho)) hxo
        refine le_min (h.urgent d x hx u hwait) ?_
        by_cases hlt : m.prio t < m.prio u
        · exact hc hlt d hwait x hx hxo
        · exact (h.urgent d x hx u hwait).trans (not_lt.mp hlt)
      · rw [update_of_ne hxo, update_of_ne huo]
        cases hold with
        | inl hw => exact h.urgent d x hx u hw
        | inr hw =>
          rw [hw.2] at hx
          exact absurd (Option.some.inj (hx.symm.trans ho)) hxo
  · intro u hu
    have hne : u ≠ o := by
      rintro rfl
      exact hu e ho
    dsimp only
    rw [update_of_ne hne]
    exact (rebase_of_not_owner (m := m) hu).symm

theorem Ok.pass {u : T} {p : P} (h : Ok m) (ho : m.owner e = some t) (ht : m.waits t = ∅)
    (hu : e ∈ m.waits u) (hnext : ∀ v, e ∈ m.waits v → m.prio u ≤ m.prio v)
    (hrest : ∀ d, d ≠ e → m.owner d = some t → ∀ v, d ∈ m.waits v → p ≤ m.prio v)
    (hbase : ¬ m.OwnsOther t e → p = m.base t) :
    Ok { prio := update m.prio t p
         owner := update m.owner e (some u)
         waits := update m.waits u ∅
         base := m.rebase } := by
  have hne : u ≠ t := by
    rintro rfl
    rw [ht] at hu
    exact hu
  refine ⟨?_, ?_⟩
  · intro d x hx v hv
    dsimp only at hx hv ⊢
    have hvu : v ≠ u := by
      rintro rfl
      rw [update_self] at hv
      exact hv
    rw [update_of_ne hvu] at hv
    have hvt : v ≠ t := by
      rintro rfl
      rw [ht] at hv
      exact hv
    rw [update_of_ne hvt]
    by_cases hd : d = e
    · subst hd
      rw [update_self, Option.some.injEq] at hx
      subst hx
      rw [update_of_ne hne]
      exact hnext v hv
    · rw [update_of_ne hd] at hx
      by_cases hxt : x = t
      · subst hxt
        rw [update_self]
        exact hrest d hd hx v hv
      · rw [update_of_ne hxt]
        exact h.urgent d x hx v hv
  · intro v hv
    dsimp only at hv ⊢
    by_cases hvt : v = t
    · subst hvt
      rw [update_self, rebase_of_owner ho]
      exact hbase (not_ownsOther_update hv)
    · rw [update_of_ne hvt]
      refine (rebase_of_not_owner (not_owner_update hv ?_)).symm
      rw [ho]
      exact fun heq => hvt (Option.some.inj heq).symm

theorem Ok.step (h : Ok m) (hs : Step m m') : Ok m' := by
  cases hs with
  | leave waits hw =>
    exact ⟨fun e t ho u hu => h.urgent e t ho u (hw u hu),
      fun t ht => (rebase_of_not_owner (m := m) ht).symm⟩
  | take t e ho hw =>
    refine ⟨?_, fun u hu => ?_⟩
    · intro d x hx u hu
      dsimp only at hx hu ⊢
      by_cases hd : d = e
      · subst hd
        exact absurd hu (hw u)
      · rw [update_of_ne hd] at hx
        exact h.urgent d x hx u hu
    · refine (rebase_of_not_owner (not_owner_update hu ?_)).symm
      rw [ho]
      simp
  | block t o e ho hc => exact h.block ho hc
  | pass t u e p ho ht hu hnext hrest hbase => exact h.pass ho ht hu hnext hrest hbase
  | free t e ho hw hbase =>
    refine ⟨?_, fun u hu => ?_⟩
    · intro d x hx u hu
      dsimp only at hx hu ⊢
      by_cases hd : d = e
      · subst hd
        exact absurd hu (hw u)
      · rw [update_of_ne hd] at hx
        exact h.urgent d x hx u hu
    · by_cases hut : u = t
      · subst hut
        exact (hbase (not_ownsOther_update hu)).trans (rebase_of_owner ho).symm
      · refine (rebase_of_not_owner (not_owner_update hu ?_)).symm
        rw [ho]
        exact fun heq => hut (Option.some.inj heq).symm

end Inherit

end SylixOS.Lib
