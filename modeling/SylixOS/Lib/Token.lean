import Mathlib.Logic.Function.Basic
import Mathlib.Tactic.Common

/-! # Waiting for a token

A binary semaphore holds at most one token. A thread that finds nothing to do leaves the lock, takes the
token or waits for one, and looks again. A token that is posted while threads wait goes to one of them.
What a thread may wait for is safe when, as long as it holds, a thread that is about to wait or waits is
covered: there is a token, or some thread is on its way to look.
-/

namespace SylixOS.Lib
open Function

/-- A binary semaphore and the threads that wait for it. -/
structure Token where
  counter : Bool
  waiters : List ℕ
  deriving DecidableEq

/-- Where a thread is: elsewhere, on its way to look, about to wait, or waiting. -/
inductive Phase where
  | away
  | ready
  | pend
  | wait
  deriving DecidableEq

namespace Token

/-- A post, with the thread that is given the token; `k` chooses among those that wait. -/
def post (t : Token) (k : ℕ) : Token × Option ℕ :=
  match t.waiters[k % t.waiters.length]? with
  | none => ({ t with counter := true }, none)
  | some i => ({ t with waiters := t.waiters.filter (· ≠ i) }, some i)

/-- A wait by the thread `i`, which goes on when there is a token. -/
def pend (t : Token) (i : ℕ) : Token × Phase :=
  if t.counter then ({ t with counter := false }, .ready)
  else ({ t with waiters := t.waiters ++ [i] }, .wait)

def clear (t : Token) : Token := { t with counter := false }

/-- A thread stops waiting. -/
def leave (t : Token) (i : ℕ) : Token := { t with waiters := t.waiters.filter (· ≠ i) }

/-- The threads that wait are in the queue, and there is no token while threads wait. -/
structure Fits (t : Token) (phase : ℕ → Phase) : Prop where
  waiters : ∀ i, i ∈ t.waiters ↔ phase i = .wait
  counter : t.counter = true → t.waiters = []

/-- Some thread is about to wait or waits. -/
def Waits (phase : ℕ → Phase) : Prop := ∃ i, phase i = .pend ∨ phase i = .wait

/-- A thread that is about to wait or waits will be called, or is not needed. -/
def Covers (t : Token) (phase : ℕ → Phase) : Prop :=
  Waits phase → t.counter = true ∨ ∃ i, phase i = .ready

/-- There is a token, or some thread is on its way to look. -/
def Called (t : Token) (phase : ℕ → Phase) : Prop := t.counter = true ∨ ∃ i, phase i = .ready

variable {t : Token} {phase : ℕ → Phase} {i : ℕ}

theorem Covers.of_ready (h : phase i = .ready) : t.Covers phase := fun _ => .inr ⟨i, h⟩

theorem Covers.of_counter (h : t.counter = true) : t.Covers phase := fun _ => .inl h

/-- In a state in which threads only wait, none is called. -/
theorem Fits.not_called (h : t.Fits phase) (hw : phase i = .wait)
    (hquiet : ∀ j, phase j = .away ∨ phase j = .wait) : ¬ t.Called phase := by
  rintro (ht | ⟨j, hj⟩)
  · exact List.not_mem_nil (h.counter ht ▸ (h.waiters i).mpr hw)
  · rcases hquiet j with hj' | hj' <;> rw [hj] at hj' <;> cases hj'

/-- In a state in which threads only wait, what they wait for does not hold. -/
theorem Fits.not_covers (h : t.Fits phase) (hw : phase i = .wait)
    (hquiet : ∀ j, phase j = .away ∨ phase j = .wait) : ¬ t.Covers phase :=
  fun hc => h.not_called hw hquiet (hc ⟨i, .inr hw⟩)

theorem Fits.clear (h : t.Fits phase) : t.clear.Fits phase where
  waiters := h.waiters
  counter ht := by cases ht

theorem Fits.start (h : ∀ i, phase i ≠ .wait) : Fits ⟨false, []⟩ phase where
  waiters i := by simp [h i]
  counter _ := rfl

section Move
variable {p : Phase}

/-- A thread that does not wait goes on. -/
theorem Fits.move (h : t.Fits phase) (hi : phase i ≠ .wait) (hp : p ≠ .wait) :
    t.Fits (update phase i p) where
  waiters j := by
    rw [h.waiters]
    rcases eq_or_ne j i with rfl | hne
    · rw [update_self]
      exact iff_of_false hi hp
    · rw [update_of_ne hne]
  counter := h.counter

/-- Other threads are covered by a thread that does not go on, or is ready after it did. -/
theorem Covers.move (h : t.Covers phase) (hp : p = .ready ∨ p = .away)
    (hi : phase i ≠ .ready ∨ p = .ready) : t.Covers (update phase i p) := by
  rcases hp with rfl | rfl
  · exact .of_ready (update_self ..)
  · have hi := hi.resolve_right nofun
    rintro ⟨j, hj⟩
    rcases eq_or_ne j i with rfl | hne
    · rw [update_self] at hj
      rcases hj with hj | hj <;> cases hj
    · rw [update_of_ne hne] at hj
      refine (h ⟨j, hj⟩).imp_right fun ⟨k, hk⟩ => ⟨k, ?_⟩
      rw [update_of_ne (by rintro rfl; exact hi hk)]
      exact hk

/-- A thread that does not look again is not missed when there is a token, another thread will look,
or none waits. -/
theorem Covers.drop (h : t.counter = true ∨ (∃ j ≠ i, phase j = .ready) ∨
    ∀ j ≠ i, phase j ≠ .pend ∧ phase j ≠ .wait) : t.Covers (update phase i .away) := by
  rcases h with h | ⟨j, hne, hj⟩ | h
  · exact .of_counter h
  · exact .of_ready (i := j) (by rwa [update_of_ne hne])
  · rintro ⟨j, hj⟩
    rcases eq_or_ne j i with rfl | hne
    · rw [update_self] at hj
      rcases hj with hj | hj <;> cases hj
    · rw [update_of_ne hne] at hj
      rcases hj with hj | hj
      · exact absurd hj (h j hne).1
      · exact absurd hj (h j hne).2

/-- A thread does not take the call with it when there is a token or another one will look. -/
theorem Called.keep (h : t.counter = true ∨ ∃ j ≠ i, phase j = .ready) :
    t.Called (update phase i p) :=
  h.imp_right fun ⟨j, hne, hj⟩ => ⟨j, by rwa [update_of_ne hne]⟩

theorem Called.move (h : t.Called phase) (hi : phase i ≠ .ready ∨ p = .ready) :
    t.Called (update phase i p) := by
  rcases hi with hi | rfl
  · refine .keep (h.imp_right fun ⟨j, hj⟩ => ⟨j, ?_, hj⟩)
    rintro rfl
    exact hi hj
  · exact .inr ⟨i, update_self ..⟩

end Move

section Leave

theorem Fits.leave (h : t.Fits phase) : (t.leave i).Fits (update phase i .away) where
  waiters j := by
    rcases eq_or_ne j i with rfl | hne
    · simp [Token.leave]
    · simp [Token.leave, hne, h.waiters j]
  counter ht := by
    rw [Token.leave, h.counter ht]
    rfl

end Leave

/-! ## Waits and posts -/

theorem pend_of_counter (ht : t.counter = true) :
    t.pend i = ({ t with counter := false }, .ready) := if_pos ht

theorem pend_of_none (ht : t.counter = false) :
    t.pend i = ({ t with waiters := t.waiters ++ [i] }, .wait) := if_neg (by simp [ht])

theorem Fits.pend (h : t.Fits phase) (hi : phase i = .pend) :
    (t.pend i).1.Fits (update phase i (t.pend i).2) := by
  cases ht : t.counter with
  | true =>
    rw [pend_of_counter ht]
    exact { h.move (p := .ready) (by simp [hi]) nofun with counter := nofun }
  | false =>
    rw [pend_of_none ht]
    refine ⟨fun j => ?_, fun hc => by simp [ht] at hc⟩
    rcases eq_or_ne j i with rfl | hne
    · simp
    · simp [hne, h.waiters j]

/-- A thread that waits after another has looked is covered, as it would have been by the token. -/
theorem Covers.pend (h : t.Covers phase) (hi : phase i = .pend) :
    (t.pend i).1.Covers (update phase i (t.pend i).2) := by
  cases ht : t.counter with
  | true =>
    rw [pend_of_counter ht]
    exact .of_ready (i := i) (by simp)
  | false =>
    obtain ⟨j, hj⟩ := (h ⟨i, .inl hi⟩).resolve_left (by simp [ht])
    have hne : j ≠ i := by
      rintro rfl
      rw [hi] at hj
      cases hj
    exact .of_ready (i := j) (by rwa [update_of_ne hne])

/-- A thread that takes the token will look. -/
theorem Called.pend (h : t.Called phase) (hi : phase i = .pend) :
    (t.pend i).1.Called (update phase i (t.pend i).2) := by
  cases ht : t.counter with
  | true =>
    rw [pend_of_counter ht]
    exact .inr ⟨i, update_self ..⟩
  | false =>
    rw [pend_of_none ht]
    exact (h.move (p := .wait) (.inl (by simp [hi]))).imp_left fun hc => by simp [ht] at hc

/-- What the threads do after a post. -/
def woken (phase : ℕ → Phase) : Option ℕ → ℕ → Phase
  | none => phase
  | some i => update phase i .ready

theorem post_cases (h : t.Fits phase) (k : ℕ) :
    (t.waiters = [] ∧ t.post k = ({ t with counter := true }, none)) ∨
      ∃ i, phase i = .wait ∧ t.post k = (t.leave i, some i) := by
  unfold post
  cases hk : t.waiters[k % t.waiters.length]? with
  | none =>
    refine .inl ⟨?_, rfl⟩
    by_contra hne
    have := Nat.mod_lt k (List.length_pos_iff.mpr hne)
    rw [List.getElem?_eq_none_iff] at hk
    omega
  | some i => exact .inr ⟨i, (h.waiters i).mp (List.mem_of_getElem? hk), rfl⟩

theorem Fits.wait_of_post (h : t.Fits phase) {k : ℕ} (hi : (t.post k).2 = some i) :
    phase i = .wait := by
  rcases post_cases h k with ⟨hw, heq⟩ | ⟨j, hj, heq⟩
  · rw [heq] at hi
    cases hi
  · rw [heq] at hi
    cases hi
    exact hj

theorem Fits.post (h : t.Fits phase) (k : ℕ) :
    (t.post k).1.Fits (woken phase (t.post k).2) := by
  rcases post_cases h k with ⟨hw, heq⟩ | ⟨i, hi, heq⟩
  · rw [heq]
    exact { h with counter := fun _ => hw }
  · rw [heq]
    have := (h.leave (i := i)).move (p := .ready) (i := i) (by simp) nofun
    rwa [update_idem] at this

/-- After a post some thread is called. -/
theorem Called.post (h : t.Fits phase) (k : ℕ) :
    (t.post k).1.Called (woken phase (t.post k).2) := by
  rcases post_cases h k with ⟨hw, heq⟩ | ⟨i, hi, heq⟩
  · rw [heq]
    exact .inl rfl
  · rw [heq]
    exact .inr ⟨i, update_self ..⟩

/-- After a post every thread is covered. -/
theorem Covers.post (h : t.Fits phase) (k : ℕ) :
    (t.post k).1.Covers (woken phase (t.post k).2) := fun _ => Called.post h k

end Token

end SylixOS.Lib
