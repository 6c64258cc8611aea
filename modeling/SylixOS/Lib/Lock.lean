import Mathlib.Algebra.BigOperators.Fin
import Mathlib.Data.Set.Insert
import Mathlib.Tactic.Common

/-! # Locks

Two locks as their users see them: one that a single thread holds at a time, and one that is held
by any number of readers or by a single writer. Both count on the side how often a thread has been
given the lock and how often it has given it back. A thread that cannot be given a lock at once
waits for it, and is given it by the thread that releases it, or leaves without it.
-/

namespace SylixOS.Lib

variable {T : Type}

/-- One more for one thread. -/
def oneMore [DecidableEq T] (f : T → ℕ) (t : T) : T → ℕ := Function.update f t (f t + 1)

/-! ## One holder -/

/-- A lock that its owner may acquire again; `extra` is the number of times it has done so. -/
@[ext] structure Mutex (T : Type) where
  owner : Option T
  extra : ℕ
  waiting : Set T
  acquired : T → ℕ
  released : T → ℕ

namespace Mutex

variable [DecidableEq T]

/-- What can happen to the lock. -/
inductive Step (m : Mutex T) : Mutex T → Prop where
  | acquire (t : T) (h : m.owner = none) :
      Step m { m with owner := some t, acquired := oneMore m.acquired t }
  | again (t : T) (h : m.owner = some t) :
      Step m { m with extra := m.extra + 1, acquired := oneMore m.acquired t }
  | wait (t : T) (h : m.owner ≠ none) : Step m { m with waiting := insert t m.waiting }
  | leave (t : T) : Step m { m with waiting := m.waiting \ {t} }
  | giveBack (t : T) (h : m.owner = some t) (he : m.extra ≠ 0) :
      Step m { m with extra := m.extra - 1, released := oneMore m.released t }
  | pass (t u : T) (h : m.owner = some t) (he : m.extra = 0) (hu : u ∈ m.waiting) :
      Step m
        { m with
          owner := some u
          waiting := m.waiting \ {u}
          acquired := oneMore m.acquired u
          released := oneMore m.released t }
  | free (t : T) (h : m.owner = some t) (he : m.extra = 0) (hw : m.waiting = ∅) :
      Step m { m with owner := none, released := oneMore m.released t }

/-- A thread holds the lock while it has been given it more often than it has given it back. -/
def Holds (m : Mutex T) (t : T) : Prop := m.released t < m.acquired t

/-- The counts are those of the recorded owner, and nobody waits for a lock without one. -/
structure Ok (m : Mutex T) : Prop where
  balance : ∀ t, m.acquired t = m.released t + if m.owner = some t then m.extra + 1 else 0
  idle : m.owner = none → m.extra = 0 ∧ m.waiting = ∅

variable {m m' : Mutex T} {t u : T}

theorem oneMore_apply (f : T → ℕ) (t u : T) : oneMore f t u = f u + if u = t then 1 else 0 := by
  by_cases h : u = t
  · subst h
    simp [oneMore]
  · simp [oneMore, h]

theorem Ok.step (h : Ok m) (hs : Step m m') : Ok m' := by
  have hb := h.balance
  cases hs with
  | acquire t ho =>
    refine ⟨?_, fun hn => by simp at hn⟩
    intro u
    have hu := hb u
    have he := (h.idle ho).1
    simp only [oneMore_apply, ho, he, reduceCtorEq, if_false, Option.some.injEq] at hu ⊢
    rcases eq_or_ne u t with rfl | hne
    · simp [hu]
    · simp [hu, hne, Ne.symm hne]
  | again t ho =>
    refine ⟨?_, fun hn => by simp [ho] at hn⟩
    intro u
    have hu := hb u
    simp only [oneMore_apply, ho, Option.some.injEq] at hu ⊢
    rcases eq_or_ne u t with rfl | hne
    · simp only [if_true] at hu ⊢
      omega
    · simp [hu, hne, Ne.symm hne]
  | wait t ho => exact ⟨hb, fun hn => absurd hn ho⟩
  | leave t =>
    refine ⟨hb, fun hn => ?_⟩
    have hi := h.idle hn
    exact ⟨hi.1, by simp [hi.2]⟩
  | giveBack t ho he =>
    refine ⟨?_, fun hn => by simp [ho] at hn⟩
    intro u
    have hu := hb u
    simp only [oneMore_apply, ho, Option.some.injEq] at hu ⊢
    rcases eq_or_ne u t with rfl | hne
    · simp only [if_true] at hu ⊢
      omega
    · simp [hu, hne, Ne.symm hne]
  | pass t v ho he hv =>
    refine ⟨?_, fun hn => by simp at hn⟩
    intro u
    have hu := hb u
    simp only [oneMore_apply, ho, he, Option.some.injEq] at hu ⊢
    rcases eq_or_ne u t with rfl | hne
    · rcases eq_or_ne u v with rfl | hnv
      · simp only [if_true] at hu ⊢
        omega
      · simp only [if_true, hnv, Ne.symm hnv, if_false] at hu ⊢
        omega
    · rcases eq_or_ne u v with rfl | hnv
      · simp only [if_true, hne, Ne.symm hne, if_false] at hu ⊢
        omega
      · simp [hu, hne, hnv, Ne.symm hne, Ne.symm hnv]
  | free t ho he hw =>
    refine ⟨?_, fun _ => ⟨he, hw⟩⟩
    intro u
    have hu := hb u
    simp only [oneMore_apply, ho, he, Option.some.injEq] at hu ⊢
    rcases eq_or_ne u t with rfl | hne
    · simp [hu]
    · simp [hu, hne, Ne.symm hne]

/-- The holder is the recorded owner. -/
theorem Ok.holds_iff (h : Ok m) : m.Holds t ↔ m.owner = some t := by
  have hb := h.balance t
  rw [Holds]
  split_ifs at hb with ho
  · exact ⟨fun _ => ho, fun _ => by omega⟩
  · exact ⟨fun hlt => by omega, fun h => absurd h ho⟩

/-- At most one thread holds the lock. -/
theorem Ok.exclusive (h : Ok m) (ht : m.Holds t) (hu : m.Holds u) : t = u := by
  rw [h.holds_iff] at ht hu
  exact Option.some.inj (ht.symm.trans hu)

end Mutex

/-! ## Readers and a writer -/

/-- A lock for readers and writers; `extra` is the number of times the writer has acquired it
again. -/
@[ext] structure RwLock (T : Type) where
  writer : Option T
  extra : ℕ
  waitR : Set T
  waitW : Set T
  readsBegun : T → ℕ
  readsEnded : T → ℕ
  writesBegun : T → ℕ
  writesEnded : T → ℕ

namespace RwLock

/-- How often a thread reads. -/
def reads (l : RwLock T) (t : T) : ℕ := l.readsBegun t - l.readsEnded t

/-- The number of readings that go on. -/
def readers [Fintype T] (l : RwLock T) : ℕ := ∑ t, l.reads t

/-- The number of holders: a writer, or the readings that go on. -/
def holders [Fintype T] (l : RwLock T) : ℕ := l.readers + if l.writer = none then 0 else 1

variable [Fintype T] [DecidableEq T]

/-- The thread has the only hold of the lock. -/
def LastHold (l : RwLock T) (t : T) : Prop :=
  l.writer = some t ∧ l.extra = 0 ∨ l.writer = none ∧ l.reads t ≠ 0 ∧ l.readers = 1

/-- The thread gives its hold back. -/
def ended (l : RwLock T) (t : T) : RwLock T :=
  match l.writer with
  | some _ => { l with writer := none, writesEnded := oneMore l.writesEnded t }
  | none => { l with readsEnded := oneMore l.readsEnded t }

open Classical in
/-- What can happen to the lock. A waiting writer does not leave waiting readers behind with
nobody that they wait for. -/
inductive Step (l : RwLock T) : RwLock T → Prop where
  | read (t : T) (hw : l.writer = none) (hq : l.waitW = ∅) :
      Step l { l with readsBegun := oneMore l.readsBegun t }
  | write (t : T) (h : l.holders = 0) :
      Step l { l with writer := some t, writesBegun := oneMore l.writesBegun t }
  | again (t : T) (h : l.writer = some t) :
      Step l { l with extra := l.extra + 1, writesBegun := oneMore l.writesBegun t }
  | waitRead (t : T) (h : l.writer ≠ none ∨ l.waitW ≠ ∅) :
      Step l { l with waitR := insert t l.waitR }
  | waitWrite (t : T) (h : l.holders ≠ 0) : Step l { l with waitW := insert t l.waitW }
  | leaveRead (t : T) : Step l { l with waitR := l.waitR \ {t} }
  | leaveWrite (t : T) (h : l.writer ≠ none ∨ l.waitW \ {t} ≠ ∅ ∨ l.waitR = ∅) :
      Step l { l with waitW := l.waitW \ {t} }
  | endRead (t : T) (h : l.writer = none) (ht : l.reads t ≠ 0) (hr : 1 < l.readers) :
      Step l { l with readsEnded := oneMore l.readsEnded t }
  | giveBack (t : T) (h : l.writer = some t) (he : l.extra ≠ 0) :
      Step l { l with extra := l.extra - 1, writesEnded := oneMore l.writesEnded t }
  | passWriter (t u : T) (h : l.LastHold t) (hu : u ∈ l.waitW) :
      Step l
        { l.ended t with
          writer := some u
          waitW := l.waitW \ {u}
          writesBegun := oneMore l.writesBegun u }
  | passReaders (t : T) (h : l.LastHold t) (hr : l.waitR ≠ ∅) :
      Step l
        { l.ended t with
          waitR := ∅
          readsBegun := fun u => l.readsBegun u + if u ∈ l.waitR then 1 else 0 }
  | free (t : T) (h : l.LastHold t) (hr : l.waitR = ∅) (hw : l.waitW = ∅) : Step l (l.ended t)

/-- A writer is alone, and those who wait have someone to wait for. -/
structure Ok (l : RwLock T) : Prop where
  writes : ∀ t, l.writesBegun t =
    l.writesEnded t + if l.writer = some t then l.extra + 1 else 0
  ended_le : ∀ t, l.readsEnded t ≤ l.readsBegun t
  alone : l.writer ≠ none → ∀ t, l.reads t = 0
  extra : l.writer = none → l.extra = 0
  readersWait : l.waitR ≠ ∅ → l.writer ≠ none ∨ l.waitW ≠ ∅
  writersWait : l.waitW ≠ ∅ → l.holders ≠ 0

variable {l l' : RwLock T} {t u : T}

omit [DecidableEq T] in
theorem readers_eq_zero : l.readers = 0 ↔ ∀ t, l.reads t = 0 := by
  simp [readers, Finset.sum_eq_zero_iff]

omit [DecidableEq T] in
theorem holders_eq_zero : l.holders = 0 ↔ l.writer = none ∧ ∀ t, l.reads t = 0 := by
  rw [← readers_eq_zero, holders]
  split_ifs with h <;> simp [h]

/-- A thread that begins to read adds one reading. -/
theorem readers_begun (h : ∀ u, l'.reads u = l.reads u + if u = t then 1 else 0) :
    l'.readers = l.readers + 1 := by
  rw [readers, readers]
  simp only [h, Finset.sum_add_distrib, Finset.sum_ite_eq', Finset.mem_univ, if_true]

omit [Fintype T] in
theorem reads_oneMore_begun (hle : ∀ u, l.readsEnded u ≤ l.readsBegun u) (u : T) :
    { l with readsBegun := oneMore l.readsBegun t }.reads u =
      l.reads u + if u = t then 1 else 0 := by
  have := hle u
  simp only [reads, Mutex.oneMore_apply]
  omega

omit [Fintype T] in
theorem reads_oneMore_ended (ht : l.reads t ≠ 0) (u : T) :
    l.reads u = { l with readsEnded := oneMore l.readsEnded t }.reads u +
      if u = t then 1 else 0 := by
  simp only [reads, Mutex.oneMore_apply] at ht ⊢
  split_ifs with hu
  · subst hu
    omega
  · omega

/-- What is left of a lock when its only hold has been given back. -/
structure Vacant (l : RwLock T) : Prop where
  writer : l.writer = none
  extra : l.extra = 0
  reads : ∀ t, l.readsBegun t = l.readsEnded t
  writes : ∀ t, l.writesBegun t = l.writesEnded t

omit [Fintype T] in
theorem ended_reading (hw : l.writer = none) :
    l.ended t = { l with readsEnded := oneMore l.readsEnded t } := by rw [ended, hw]

omit [Fintype T] in
theorem ended_writing (hw : l.writer = some u) :
    l.ended t = { l with writer := none, writesEnded := oneMore l.writesEnded t } := by
  rw [ended, hw]

omit [Fintype T] in
/-- The waiting threads and the numbers of acquisitions are those from before. -/
theorem ended_same (l : RwLock T) (t : T) : (l.ended t).waitR = l.waitR ∧
    (l.ended t).waitW = l.waitW ∧ (l.ended t).readsBegun = l.readsBegun ∧
      (l.ended t).writesBegun = l.writesBegun ∧ (l.ended t).extra = l.extra := by
  cases hw : l.writer with
  | none => simp [ended_reading hw]
  | some u => simp [ended_writing hw]

theorem Ok.vacant (h : Ok l) (hl : l.LastHold t) : Vacant (l.ended t) := by
  cases hl with
  | inl hl =>
    have hwrites (u : T) := h.writes u
    have hreads := h.alone (by simp [hl.1])
    rw [ended_writing hl.1]
    refine ⟨rfl, hl.2, ?_, ?_⟩
    · intro u
      have hle := h.ended_le u
      have hu := hreads u
      rw [reads] at hu
      change l.readsBegun u = l.readsEnded u
      omega
    · intro u
      have hu := hwrites u
      simp only [hl.1, hl.2, Option.some.injEq] at hu
      simp only [Mutex.oneMore_apply, hu, eq_comm (a := u)]
  | inr hl =>
    have hread := reads_oneMore_ended hl.2.1
    have hzero := readers_begun hread
    rw [hl.2.2] at hzero
    have hall := readers_eq_zero.mp (Nat.succ.inj hzero.symm)
    rw [ended_reading hl.1]
    refine ⟨hl.1, h.extra hl.1, ?_, ?_⟩
    · intro u
      have hu := hall u
      have hru := hread u
      have hle := h.ended_le u
      simp only [reads, Mutex.oneMore_apply] at hu hru ⊢
      omega
    · intro u
      have hu := h.writes u
      simp only [hl.1, reduceCtorEq, if_false] at hu
      exact hu

/-- A vacant lock that is given to a writer. -/
theorem Vacant.pass (hv : Vacant l) (hle : ∀ u, l.readsEnded u ≤ l.readsBegun u)
    (hl' : l' = { l with writer := some u, waitW := l'.waitW
                         writesBegun := oneMore l.writesBegun u }) : Ok l' := by
  have hreads : ∀ v, l'.reads v = 0 := by
    intro v
    rw [hl']
    exact Nat.sub_eq_zero_of_le (Nat.le_of_eq (hv.reads v))
  have hwriter : l'.writer = some u := by rw [hl']
  constructor
  · intro v
    rw [hl']
    simp only [Mutex.oneMore_apply, hv.writes v, hv.extra, Option.some.injEq, eq_comm (a := u)]
  · intro v
    rw [hl']
    exact hle v
  · intro _ v
    exact hreads v
  · simp [hwriter]
  · simp [hwriter]
  · intro _
    rw [holders, hwriter]
    simp

theorem Ok.step (h : Ok l) (hs : Step l l') : Ok l' := by
  cases hs with
  | read t hw hq =>
    have hreads := reads_oneMore_begun (t := t) h.ended_le
    have hcount := readers_begun hreads
    refine ⟨h.writes, ?_, fun hn => absurd hw hn, h.extra, h.readersWait, ?_⟩
    · intro u
      have := h.ended_le u
      simp only [Mutex.oneMore_apply]
      omega
    · intro _ h0
      rw [holders, hcount] at h0
      omega
  | write t h0 =>
    have h0 := holders_eq_zero.mp h0
    have he := h.extra h0.1
    refine ⟨?_, h.ended_le, fun _ => h0.2, fun hn => by simp at hn, fun _ => by simp, fun _ => ?_⟩
    · intro u
      have hu := h.writes u
      simp only [h0.1, reduceCtorEq, if_false] at hu
      simp only [Mutex.oneMore_apply, hu, he, Option.some.injEq, eq_comm (a := t)]
      split_ifs <;> omega
    · simp [holders]
  | again t hw =>
    refine ⟨?_, h.ended_le, h.alone, fun hn => by simp [hw] at hn, h.readersWait, h.writersWait⟩
    intro u
    have hu := h.writes u
    simp only [hw, Mutex.oneMore_apply, Option.some.injEq, eq_comm (a := t)] at hu ⊢
    split_ifs at hu ⊢ <;> omega
  | waitRead t hw => exact ⟨h.writes, h.ended_le, h.alone, h.extra, fun _ => hw, h.writersWait⟩
  | waitWrite t h0 =>
    refine ⟨h.writes, h.ended_le, h.alone, h.extra, fun _ => .inr ?_, fun _ => h0⟩
    exact (Set.insert_nonempty t l.waitW).ne_empty
  | leaveRead t =>
    refine ⟨h.writes, h.ended_le, h.alone, h.extra, fun hn => h.readersWait ?_, h.writersWait⟩
    rintro hempty
    exact hn (by simp [hempty])
  | leaveWrite t hw =>
    refine ⟨h.writes, h.ended_le, h.alone, h.extra, fun hn => ?_, fun hn => h.writersWait ?_⟩
    · rcases hw with hw | hw | hw
      · exact .inl hw
      · exact .inr hw
      · exact absurd hw hn
    · rintro hempty
      exact hn (by simp [hempty])
  | endRead t hw ht hr =>
    have hcount := readers_begun (reads_oneMore_ended ht)
    refine ⟨h.writes, ?_, fun hn => absurd hw hn, h.extra, h.readersWait, ?_⟩
    · intro u
      have hu := h.ended_le u
      simp only [Mutex.oneMore_apply]
      split_ifs with hut
      · subst hut
        rw [reads] at ht
        omega
      · omega
    · intro _ h0
      rw [holders] at h0
      omega
  | giveBack t hw he =>
    refine ⟨?_, h.ended_le, h.alone, fun hn => by simp [hw] at hn, h.readersWait, h.writersWait⟩
    intro u
    have hu := h.writes u
    simp only [hw, Mutex.oneMore_apply, Option.some.injEq, eq_comm (a := t)] at hu ⊢
    split_ifs at hu ⊢ <;> omega
  | passWriter t u hl hu =>
    have hv := h.vacant hl
    have hsame := ended_same l t
    refine hv.pass (u := u) (fun v => Nat.le_of_eq (hv.reads v).symm) ?_
    rw [hsame.2.2.2.1]
  | passReaders t hl hr =>
    have hv := h.vacant hl
    have hsame := ended_same l t
    refine ⟨?_, ?_, fun hn => absurd hv.writer hn, fun _ => hv.extra, fun hn => absurd rfl hn, ?_⟩
    · intro u
      simp only [hv.writes u, hv.writer, reduceCtorEq, if_false, Nat.add_zero]
    · intro u
      have hu := hv.reads u
      rw [hsame.2.2.1] at hu
      change (l.ended t).readsEnded u ≤ l.readsBegun u + _
      omega
    · intro _ h0
      have hall := (holders_eq_zero.mp h0).2
      obtain ⟨v, hmem⟩ := Set.nonempty_iff_ne_empty.mpr hr
      have hvr := hall v
      have hvb := hv.reads v
      rw [hsame.2.2.1] at hvb
      simp only [reads, hmem, if_true] at hvr
      omega
  | free t hl hr hw =>
    have hv := h.vacant hl
    have hsame := ended_same l t
    refine ⟨?_, ?_, fun hn => absurd hv.writer hn, fun _ => hv.extra, fun hn => ?_, fun hn => ?_⟩
    · intro u
      rw [hv.writes u, hv.writer]
      simp
    · intro u
      exact Nat.le_of_eq (hv.reads u).symm
    · rw [hsame.1] at hn
      exact absurd hr hn
    · rw [hsame.2.1] at hn
      exact absurd hw hn

/-- The threads that have begun to write more often than they have ended are the writer. -/
theorem Ok.writes_iff (h : Ok l) :
    l.writesEnded t < l.writesBegun t ↔ l.writer = some t := by
  rw [h.writes t]
  split_ifs with hw
  · exact ⟨fun _ => hw, fun _ => by omega⟩
  · exact ⟨fun hlt => by omega, fun h => absurd h hw⟩

/-- A writer is the only holder. -/
theorem Ok.holders_of_writer (h : Ok l) (hw : l.writer ≠ none) : l.holders = 1 := by
  rw [holders, if_neg hw, readers_eq_zero.mpr (h.alone hw)]

theorem Vacant.holders (hv : Vacant l) : l.holders = 0 := by
  rw [holders_eq_zero]
  exact ⟨hv.writer, fun t => Nat.sub_eq_zero_of_le (Nat.le_of_eq (hv.reads t))⟩

theorem Ok.holders_of_lastHold (h : Ok l) (hl : l.LastHold t) : l.holders = 1 := by
  cases hl with
  | inl hl => exact h.holders_of_writer (by simp [hl.1])
  | inr hl => rw [RwLock.holders, if_pos hl.1, hl.2.2]

theorem Ok.holders_read (h : Ok l) (hw : l.writer = none) :
    { l with readsBegun := oneMore l.readsBegun t }.holders = l.holders + 1 := by
  rw [holders, holders, readers_begun (reads_oneMore_begun h.ended_le), if_pos hw]

theorem holders_endRead (hw : l.writer = none) (ht : l.reads t ≠ 0) :
    { l with readsEnded := oneMore l.readsEnded t }.holders + 1 = l.holders := by
  rw [holders, holders, readers_begun (reads_oneMore_ended ht), if_pos hw]

/-- The number of readings once all waiting readers have been given the lock. -/
theorem Vacant.holders_readers (hv : Vacant l) {p : T → Prop} [DecidablePred p]
    (hw : l'.writer = none) (he : l'.readsEnded = l.readsEnded)
    (hb : ∀ u, l'.readsBegun u = l.readsBegun u + if p u then 1 else 0) :
    l'.holders = (Finset.univ.filter p).card := by
  have hreads (u : T) : l'.reads u = if p u then 1 else 0 := by
    rw [RwLock.reads, hb, he, hv.reads u, Nat.add_sub_cancel_left]
  rw [RwLock.holders, if_pos hw, RwLock.readers, Finset.card_filter]
  simp only [hreads, Nat.add_zero]

end RwLock

end SylixOS.Lib
