import Mathlib.Data.List.Induction
import Mathlib.Order.Basic
import Mathlib.Tactic.Common

/-! # Pushing and popping

The items of a list tell one after the other what becomes of a stack, whose top is at the end. Two
readings of the items that agree but for some items, which the one pushes and the other does not, come to
the same stack if and only if each of these is gone from it later by the stack having been empty.
-/

namespace SylixOS.Lib

/-- What an item does to the stack. -/
inductive Move (α : Type*) where
  | skip
  | pop
  | push (a : α)
  deriving DecidableEq

variable {α β : Type*}

namespace Move

def act : Move α → List α → List α
  | .skip, s => s
  | .pop, s => s.dropLast
  | .push a, s => s ++ [a]

def map (r : α → α) : Move α → Move α
  | .skip => .skip
  | .pop => .pop
  | .push a => .push (r a)

theorem act_map (r : α → α) (m : Move α) (s : List α) : (m.map r).act (s.map r) = (m.act s).map r := by
  cases m with
  | skip => rfl
  | pop => exact List.map_dropLast.symm
  | push a =>
    rw [map, act, act, List.map_append]
    rfl

/-- The stack after some items. -/
def run (f : β → Move α) (xs : List β) : List α := xs.foldl (fun s x => (f x).act s) []

@[simp] theorem run_nil (f : β → Move α) : run f [] = [] := rfl

@[simp] theorem run_append_singleton (f : β → Move α) (xs : List β) (x : β) :
    run f (xs ++ [x]) = (f x).act (run f xs) := by
  rw [run, List.foldl_append]
  rfl

/-- Only what the items push is on the stack. -/
theorem mem_run {f : β → Move α} {P : α → Prop} {xs : List β}
    (hpush : ∀ x ∈ xs, ∀ a, f x = .push a → P a) : ∀ a ∈ run f xs, P a := by
  induction xs using List.reverseRecOn with
  | nil => simp
  | append_singleton xs x ih =>
    have hkept := ih fun y hy => hpush y (List.mem_append_left _ hy)
    intro a ha
    rw [run_append_singleton] at ha
    cases hx : f x with
    | skip =>
      rw [hx] at ha
      exact hkept a ha
    | pop =>
      rw [hx] at ha
      exact hkept a (List.dropLast_subset _ ha)
    | push b =>
      rw [hx, act, List.mem_append, List.mem_singleton] at ha
      rcases ha with ha | rfl
      · exact hkept a ha
      · exact hpush x (by simp) a hx

/-- Items that all push themselves. -/
theorem run_push {f : α → Move α} (xs : List α) (h : ∀ x ∈ xs, f x = .push x) : run f xs = xs := by
  induction xs using List.reverseRecOn with
  | nil => rfl
  | append_singleton xs x ih =>
    rw [run_append_singleton, ih fun y hy => h y (List.mem_append_left _ hy), h x (by simp), act]

/-! ## Two readings -/

/-- After each item of this kind there is a place where the stack is empty. -/
def Recovers (f : β → Move α) (lost : β → Prop) (xs : List β) : Prop :=
  ∀ pre x post, xs = pre ++ x :: post → lost x → ∃ mid, mid <+: post ∧ run f (pre ++ x :: mid) = []

theorem recovers_append_singleton (f : β → Move α) (lost : β → Prop) (xs : List β) (y : β) :
    Recovers f lost (xs ++ [y]) ↔ run f (xs ++ [y]) = [] ∨ Recovers f lost xs ∧ ¬lost y := by
  constructor
  · intro h
    refine or_iff_not_imp_left.mpr fun hne => ⟨fun pre x post hxs hx => ?_, fun hy => ?_⟩
    · obtain ⟨mid, hmid, hrun⟩ := h pre x (post ++ [y]) (by rw [hxs]; simp) hx
      rcases List.prefix_concat_iff.mp hmid with rfl | hpre
      · rw [hxs] at hne
        exact absurd (by simpa using hrun) hne
      · exact ⟨mid, hpre, hrun⟩
    · obtain ⟨mid, hmid, hrun⟩ := h xs y [] rfl hy
      rw [List.prefix_nil.mp hmid] at hrun
      exact hne hrun
  · rintro h pre x post hxs hx
    rcases List.eq_nil_or_concat post with rfl | ⟨post, z, rfl⟩
    · obtain ⟨rfl, hyx⟩ := List.append_inj' hxs rfl
      obtain rfl : y = x := by simpa using hyx
      rcases h with h | h
      · exact ⟨[], List.prefix_rfl, h⟩
      · exact absurd hx h.2
    · rw [List.concat_eq_append, ← List.cons_append, ← List.append_assoc] at hxs
      obtain ⟨hxs', hyz⟩ := List.append_inj' hxs rfl
      obtain rfl : y = z := by simpa using hyz
      rcases h with h | h
      · exact ⟨post ++ [y], by simp, by rw [← h, hxs']; simp⟩
      · obtain ⟨mid, hmid, hrun⟩ := h.1 pre x post hxs' hx
        exact ⟨mid, by simpa using hmid.trans (List.prefix_append post [y]), hrun⟩

variable {f g : β → Move α} {lost : β → Prop} {r : α → α}

/-- Either the two stacks agree, or the one that has lost an item is the lower one. -/
theorem run_agrees (hagree : ∀ x, ¬lost x → g x = (f x).map r)
    (hlost : ∀ x, lost x → (∃ a, f x = .push a) ∧ (g x = .skip ∨ g x = .pop)) (xs : List β) :
    (Recovers f lost xs ∧ run g xs = (run f xs).map r) ∨
      (¬Recovers f lost xs ∧ (run g xs).length < (run f xs).length) := by
  induction xs using List.reverseRecOn with
  | nil => exact .inl ⟨fun pre x post hxs => by simp at hxs, rfl⟩
  | append_singleton xs x ih =>
    have hle : (run g xs).length ≤ (run f xs).length := by
      rcases ih with ⟨-, h⟩ | ⟨-, h⟩
      · exact Nat.le_of_eq ((congrArg List.length h).trans (List.length_map r))
      · omega
    rw [recovers_append_singleton, run_append_singleton, run_append_singleton]
    by_cases hx : lost x
    · obtain ⟨⟨a, ha⟩, hg⟩ := hlost x hx
      right
      rw [ha]
      refine ⟨by simp [act, hx], ?_⟩
      rcases hg with hg | hg <;> rw [hg] <;> simp [act] <;> omega
    · rw [hagree x hx]
      rcases ih with ⟨hrec, h⟩ | ⟨hrec, h⟩
      · exact .inl ⟨.inr ⟨hrec, hx⟩, by rw [h, act_map]⟩
      · cases hfx : f x with
        | skip => exact .inr ⟨by simpa [act, hrec] using List.ne_nil_of_length_pos (by omega), h⟩
        | push a => exact .inr ⟨by simp [act, hrec], by simpa [act, map] using h⟩
        | pop =>
          by_cases hone : (run f xs).dropLast = []
          · refine .inl ⟨.inl hone, ?_⟩
            have hlen := congrArg List.length hone
            rw [List.length_dropLast, List.length_nil] at hlen
            have hnil : run g xs = [] := List.length_eq_zero_iff.mp (by omega)
            simp [act, map, hone, hnil]
          · refine .inr ⟨by simp [act, hone, hrec], ?_⟩
            have hpos : (run f xs).dropLast.length ≠ 0 := fun h => hone (List.length_eq_zero_iff.mp h)
            rw [List.length_dropLast] at hpos
            simp only [act, map, List.length_dropLast]
            omega

/-- When both readings come to the same stack. -/
theorem run_eq_iff (hagree : ∀ x, ¬lost x → g x = (f x).map r)
    (hlost : ∀ x, lost x → (∃ a, f x = .push a) ∧ (g x = .skip ∨ g x = .pop)) (xs : List β) :
    run g xs = run f xs ↔ Recovers f lost xs ∧ ∀ a ∈ run f xs, r a = a := by
  rcases run_agrees hagree hlost xs with ⟨hrec, h⟩ | ⟨hrec, h⟩
  · have hfix : (run f xs).map r = (run f xs).map id ↔ ∀ a ∈ run f xs, r a = id a :=
      List.map_inj_left
    rw [List.map_id] at hfix
    rw [h, hfix, and_iff_right hrec]
    rfl
  · refine iff_of_false (fun heq => ?_) fun hand => hrec hand.1
    rw [heq] at h
    omega

end Move

end SylixOS.Lib
