import SylixOS.TpsFs.Ranges

/-! # The sector areas of a transaction

A transaction logs the sectors that it writes. Its list of areas says for every run of logged
sectors where in the log their data lies; a later write takes over the sectors that it covers
from the areas before it.
-/

namespace SylixOS.TpsFs
open Lib Lib.Store Lib.Outcome

namespace SecArea

/-- The sectors of an area. -/
def Covers (a : SecArea) (s : ℕ) : Prop := a.secStart ≤ s ∧ s < a.secStart + a.secCnt

instance (a : SecArea) (s : ℕ) : Decidable (a.Covers s) := inferInstanceAs (Decidable (_ ∧ _))

theorem covers_iff {a : SecArea} {s : ℕ} :
    a.Covers s ↔ a.secStart ≤ s ∧ s < a.secStart + a.secCnt := Iff.rfl

/-- Two areas without a common sector. -/
def Disjoint (a b : SecArea) : Prop :=
  a.secStart + a.secCnt ≤ b.secStart ∨ b.secStart + b.secCnt ≤ a.secStart

/-- What a write of `secCnt` sectors from `secNum` on leaves of an older area: the body of the
loop in `__tpsFsTransPutData`. -/
def trim (secNum secCnt : ℕ) (a : SecArea) : List SecArea :=
  if a.secStart < secNum ∧ secNum + secCnt < a.secStart + a.secCnt then
    -- one area becomes two
    [{ a with secCnt := secNum - a.secStart },
      { secStart := secNum + secCnt
        secCnt := a.secStart + a.secCnt - (secNum + secCnt)
        secOff := a.secOff + (secNum + secCnt - a.secStart) }]
  else if secNum ≤ a.secStart ∧ a.secStart + a.secCnt ≤ secNum + secCnt then
    []
  else if min (a.secStart + a.secCnt) (secNum + secCnt) ≤ max a.secStart secNum then
    [a]
  else
    let n := min (a.secStart + a.secCnt) (secNum + secCnt) - max a.secStart secNum
    if secNum ≤ a.secStart then
      [{ secStart := a.secStart + n, secCnt := a.secCnt - n, secOff := a.secOff + n }]
    else
      [{ a with secCnt := a.secCnt - n }]

end SecArea

/-- Where in the log the last area that covers a sector keeps it. -/
def locate : List SecArea → ℕ → Option ℕ
  | [], _ => none
  | a :: as, s => match locate as s with
    | some o => some o
    | none => if a.Covers s then some (a.secOff + (s - a.secStart)) else none

/-- `TPS_TRANS_MAXAREA`. -/
def maxArea (psb : SuperBlock) : ℕ := 0x400 <<< (psb.blkShift - 12)

/-- The areas of a list lie within the first `n` sectors of the log data. -/
def Logged (n : ℕ) (as : List SecArea) : Prop := ∀ a ∈ as, a.secOff + a.secCnt ≤ n

/-! ## Trimming -/

/-- The sector of the device that stands for sector `s` in a transaction whose log begins at
`num`. -/
def place (num : ℕ) (as : List SecArea) (s : ℕ) : ℕ :=
  match locate as s with
  | some o => num + o
  | none => s

theorem place_some {num : ℕ} {as : List SecArea} {s o : ℕ} (h : locate as s = some o) :
    place num as s = num + o := by
  rw [place, h]

theorem place_none {num : ℕ} {as : List SecArea} {s : ℕ} (h : locate as s = none) :
    place num as s = s := by
  rw [place, h]

theorem place_cons (num : ℕ) (a : SecArea) (as : List SecArea) (s : ℕ) :
    place num (a :: as) s = if locate as s = none ∧ a.Covers s then
      num + (a.secOff + (s - a.secStart)) else place num as s := by
  unfold place
  rw [locate]
  cases locate as s with
  | some o => simp
  | none => by_cases hs : a.Covers s <;> simp [hs]

theorem locate_singleton (a : SecArea) (s : ℕ) :
    locate [a] s = if a.Covers s then some (a.secOff + (s - a.secStart)) else none := rfl

theorem SecArea.locate_trim (a : SecArea) (secNum secCnt s : ℕ) :
    locate (a.trim secNum secCnt) s =
      if secNum ≤ s ∧ s < secNum + secCnt then none else locate [a] s := by
  rw [locate_singleton]
  unfold SecArea.trim
  split_ifs <;> simp only [locate] <;> grind [SecArea.Covers]

theorem locate_append (as bs : List SecArea) (s : ℕ) :
    locate (as ++ bs) s = (locate bs s).orElse fun _ => locate as s := by
  induction as with
  | nil => cases h : locate bs s <;> simp [locate, h]
  | cons a as ih =>
    rw [List.cons_append, locate, ih]
    cases locate bs s <;> simp [locate]

theorem locate_flatMap_trim (as : List SecArea) (secNum secCnt s : ℕ) :
    locate (as.flatMap (SecArea.trim secNum secCnt)) s =
      if secNum ≤ s ∧ s < secNum + secCnt then none else locate as s := by
  induction as with
  | nil => simp [locate]
  | cons a as ih =>
    rw [List.flatMap_cons, locate_append, ih, SecArea.locate_trim,
      show a :: as = [a] ++ as from rfl, locate_append]
    split_ifs <;> simp

/-- Appending the area of a write takes its sectors over. -/
theorem locate_put (as : List SecArea) (secNum secCnt off s : ℕ) :
    locate (as.flatMap (SecArea.trim secNum secCnt) ++ [⟨secNum, off, secCnt⟩]) s =
      if secNum ≤ s ∧ s < secNum + secCnt then some (off + (s - secNum)) else locate as s := by
  have hlast : locate [⟨secNum, off, secCnt⟩] s =
      if secNum ≤ s ∧ s < secNum + secCnt then some (off + (s - secNum)) else none := rfl
  rw [locate_append, locate_flatMap_trim, hlast]
  by_cases hs : secNum ≤ s ∧ s < secNum + secCnt
  · rw [if_pos hs, if_pos hs, if_pos hs]
    rfl
  · rw [if_neg hs, if_neg hs, if_neg hs]
    rfl

theorem locate_some {as : List SecArea} {s o : ℕ} (h : locate as s = some o) :
    ∃ a ∈ as, a.Covers s ∧ o = a.secOff + (s - a.secStart) := by
  induction as with
  | nil => simp [locate] at h
  | cons a as ih =>
    rw [locate] at h
    split at h
    · next o' ho =>
      obtain ⟨b, hb, hc⟩ := ih (ho.trans h)
      exact ⟨b, List.mem_cons_of_mem _ hb, hc⟩
    · split_ifs at h with hc
      exact ⟨a, List.mem_cons_self, hc, (Option.some.inj h).symm⟩

theorem locate_none {as : List SecArea} {s : ℕ} (h : locate as s = none) :
    ∀ a ∈ as, ¬ a.Covers s := by
  induction as with
  | nil => exact fun _ h => by cases h
  | cons a as ih =>
    rw [locate] at h
    cases hloc : locate as s with
    | some o => simp [hloc] at h
    | none =>
      rw [hloc] at h
      refine List.forall_mem_cons.mpr ⟨fun hc => ?_, ih hloc⟩
      rw [if_pos hc] at h
      cases h

theorem Logged.locate_lt {n : ℕ} {as : List SecArea} (h : Logged n as) {s o : ℕ}
    (ho : locate as s = some o) : o < n := by
  obtain ⟨a, ha, hc, rfl⟩ := locate_some ho
  have := h a ha
  unfold SecArea.Covers at hc
  omega

theorem Logged.trim {n : ℕ} {as : List SecArea} (h : Logged n as) (secNum secCnt : ℕ) :
    Logged n (as.flatMap (SecArea.trim secNum secCnt)) := by
  intro b hb
  obtain ⟨a, ha, hb⟩ := List.mem_flatMap.mp hb
  have := h a ha
  unfold SecArea.trim at hb
  dsimp only at hb
  split_ifs at hb <;> simp at hb
  · rcases hb with rfl | rfl <;> dsimp only <;> omega
  · rw [hb]; exact this
  · rw [hb]; dsimp only; omega
  · rw [hb]; dsimp only; omega

/-- What is left of an area lies in it and outside the write. -/
theorem SecArea.mem_trim {a b : SecArea} {secNum secCnt : ℕ} (h : b ∈ a.trim secNum secCnt) :
    a.secStart ≤ b.secStart ∧ b.secStart + b.secCnt ≤ a.secStart + a.secCnt ∧
      (b.secStart + b.secCnt ≤ secNum ∨ secNum + secCnt ≤ b.secStart) := by
  unfold SecArea.trim at h
  dsimp only at h
  split_ifs at h <;> simp at h
  · rcases h with rfl | rfl <;> dsimp only <;> omega
  · rw [h]; omega
  · rw [h]; dsimp only; omega
  · rw [h]; dsimp only; omega

theorem SecArea.trim_pairwise (a : SecArea) (secNum secCnt : ℕ) :
    (a.trim secNum secCnt).Pairwise SecArea.Disjoint := by
  unfold SecArea.trim
  dsimp only
  split_ifs <;> simp [SecArea.Disjoint]
  omega

theorem pairwise_put {as : List SecArea} (h : as.Pairwise SecArea.Disjoint)
    (secNum secCnt off : ℕ) :
    (as.flatMap (SecArea.trim secNum secCnt) ++ [(⟨secNum, off, secCnt⟩ : SecArea)]).Pairwise
      SecArea.Disjoint := by
  rw [List.pairwise_append]
  refine ⟨?_, List.pairwise_singleton _ _, ?_⟩
  · rw [List.pairwise_flatMap]
    refine ⟨fun a _ => a.trim_pairwise secNum secCnt, h.imp ?_⟩
    intro a b hab x hx y hy
    have h₁ := SecArea.mem_trim hx
    have h₂ := SecArea.mem_trim hy
    unfold SecArea.Disjoint at hab ⊢
    omega
  · intro x hx y hy
    obtain ⟨a, _, hx⟩ := List.mem_flatMap.mp hx
    have h₁ := SecArea.mem_trim hx
    rw [List.mem_singleton.mp hy]
    unfold SecArea.Disjoint
    dsimp only
    omega

/-- A write that lies strictly inside one area lies inside no other one, so trimming makes the
list longer by one at most. -/
theorem length_trim_le {as : List SecArea} (h : as.Pairwise SecArea.Disjoint)
    (secNum : ℕ) {secCnt : ℕ} (hc : 0 < secCnt) :
    (as.flatMap (SecArea.trim secNum secCnt)).length ≤ as.length + 1 := by
  have hone (a : SecArea) : (a.trim secNum secCnt).length ≤ 1 ∨
      a.secStart < secNum ∧ secNum + secCnt < a.secStart + a.secCnt := by
    unfold SecArea.trim
    dsimp only
    split_ifs with h₁ <;> simp
    exact h₁
  have htwo (a : SecArea) : (a.trim secNum secCnt).length ≤ 2 := by
    unfold SecArea.trim
    dsimp only
    split_ifs <;> simp
  have hrest : ∀ bs : List SecArea,
      (∀ b ∈ bs, (b.trim secNum secCnt).length ≤ 1) →
      (bs.flatMap (SecArea.trim secNum secCnt)).length ≤ bs.length := by
    intro bs
    induction bs with
    | nil => simp
    | cons b bs ih =>
      intro hb
      have h₁ := hb b List.mem_cons_self
      have h₂ := ih fun c hc => hb c (List.mem_cons_of_mem _ hc)
      rw [List.flatMap_cons, List.length_append, List.length_cons]
      omega
  induction as with
  | nil => simp
  | cons a as ih =>
    obtain ⟨ha, has⟩ := List.pairwise_cons.mp h
    rw [List.flatMap_cons, List.length_append, List.length_cons]
    rcases hone a with h₁ | h₁
    · have := ih has
      omega
    · have h₂ := htwo a
      have h₃ := hrest as fun b hb => by
        rcases hone b with h' | h'
        · exact h'
        · have := ha b hb
          unfold SecArea.Disjoint at this
          omega
      omega

end SylixOS.TpsFs
