import SylixOS.TpsFs.File.Content

/-! # The transactions of a write

A write is split over transactions, each of which puts a part of the data into the file. How a
transaction has ended is never forgotten, so a condition on all that have ended in a run is one on those
of each part of it. -/

namespace SylixOS.TpsFs
open Lib Blocks Contents

variable {σ : Type} {psb : SuperBlock} {ops : FileOps σ} {s s' : FileVol σ} {file : List ℕ}
  {v : Contents UInt8} {off n b fuel : ℕ} {buf : List UInt8}

namespace FileVol

/-! ## The history only grows -/

theorem rollBack_history (ops : FileOps σ) (s : FileVol σ) : s.history <+: (rollBack ops s).history :=
  List.prefix_append _ _

theorem allocLoop_history (psb : SuperBlock) (ops : FileOps σ) (atom fuel alloc : ℕ) (s : FileVol σ) :
    (allocLoop psb ops atom fuel alloc s).1.history = s.history := by
  induction fuel generalizing s alloc with
  | zero => rfl
  | succ fuel ih =>
    rw [allocLoop]
    split_ifs
    · rfl
    split
    · rfl
    · split
      · simp only
        split
        · rfl
        · split_ifs
          · rfl
          · rw [ih]
      · rfl

theorem putData_history (psb : SuperBlock) (ops : FileOps σ) (s : FileVol σ) (blk off : ℕ)
    (buf : List UInt8) : (putData psb ops s blk off buf).1.history = s.history := by
  unfold putData
  split
  · rfl
  · simp only
    split_ifs
    · split <;> rfl
    · rfl

theorem writeLoop_history (psb : SuperBlock) (ops : FileOps σ) (fuel off : ℕ) (buf : List UInt8) (c : ℕ)
    (s : FileVol σ) : (writeLoop psb ops fuel off buf c s).1.history = s.history := by
  induction fuel generalizing s off buf c with
  | zero => rfl
  | succ fuel ih =>
    rw [writeLoop]
    split_ifs
    · rfl
    split
    · rfl
    · next blk cnt _ =>
      simp only
      split
      · next s₁ hput =>
        rw [← putData_history psb ops s blk, hput]
      · next s₁ hput =>
        rw [ih, ← putData_history psb ops s blk, hput]

theorem setSize_history (ops : FileOps σ) (s : FileVol σ) (off : ℕ) :
    (setSize ops s off).1.history = s.history := by
  unfold setSize
  split_ifs
  · simp only
    split_ifs
    · split <;> rfl
    · rfl
  · rfl

theorem inodeWrite_history (psb : SuperBlock) (ops : FileOps σ) (s : FileVol σ) (off : ℕ)
    (buf : List UInt8) : (inodeWrite psb ops s off buf).1.history = s.history := by
  unfold inodeWrite
  simp only
  split
  · next s₁ e halloc => rw [← allocLoop_history psb ops _ _ _ s, halloc]
  · next s₁ halloc =>
    have h₁ : s₁.history = s.history := by rw [← allocLoop_history psb ops _ _ _ s, halloc]
    generalize hloop : writeLoop psb ops buf.length off buf 0 s₁ = r
    obtain ⟨s₂, off', r⟩ := r
    have h₂ : s₂.history = s₁.history := by rw [← writeLoop_history psb ops _ _ _ _ s₁, hloop]
    simp only
    have h₃ := setSize_history ops s₂ off'
    split <;> next hset => rw [hset] at h₃; exact h₃.trans (h₂.trans h₁)

theorem commit_eq (h : commit ops s = some s') : s'.inode = s.inode ∧
    s'.history = s.history ++ [.committed s.vol s.inode] ∧
      s'.dev = fun p o => (ops.logged s.vol p o).getD (s.dev p o) := by
  unfold commit at h
  split at h
  · cases h
  · cases h
    exact ⟨rfl, rfl, rfl⟩

theorem writeTrans_history (psb : SuperBlock) (ops : FileOps σ) (s : FileVol σ) (off : ℕ)
    (buf : List UInt8) : s.history <+: (writeTrans psb ops s off buf).1.history := by
  unfold writeTrans
  split
  · exact List.prefix_rfl
  · next vol _ =>
    have h := inodeWrite_history psb ops { s with vol := vol } off buf
    split
    · next s₁ e hw =>
      rw [hw] at h
      exact h ▸ rollBack_history ops s₁
    · next s₁ n hw =>
      rw [hw] at h
      split_ifs
      · exact h ▸ rollBack_history ops s₁
      · split
        · exact h ▸ rollBack_history ops s₁
        · next s₂ hc =>
          obtain ⟨-, hhist, -⟩ := commit_eq hc
          exact h ▸ hhist ▸ List.prefix_append _ _

theorem tpsWriteLoop_history (psb : SuperBlock) (ops : FileOps σ) (off fuel : ℕ) (buf : List UInt8)
    (n : ℕ) (s : FileVol σ) : s.history <+: (tpsWriteLoop psb ops off fuel buf n s).1.history := by
  induction fuel generalizing s buf n with
  | zero => exact List.prefix_rfl
  | succ fuel ih =>
    rw [tpsWriteLoop]
    split_ifs
    · exact List.prefix_rfl
    have h := writeTrans_history psb ops s (off + n) buf
    split
    · next s₁ e ht =>
      rw [ht] at h
      exact h
    · next s₁ k ht =>
      rw [ht] at h
      split_ifs
      · exact h
      · exact h.trans (ih _ _ _)

/-! ## What a transaction does -/

theorem Holds.commit (hholds : s.Holds psb file v b) (h : s.commit ops = some s')
    (hu : Untouched ops (.committed s.vol s.inode)) : s'.Holds psb file v b := by
  obtain ⟨hinode, -, hdev⟩ := commit_eq h
  refine ⟨⟨hinode ▸ hholds.maps, hinode ▸ hholds.len, hholds.room, fun o ho => ?_⟩,
    hinode ▸ hholds.cnt, hholds.small⟩
  rw [← hholds.bytes o ho]
  refine byteAt_congr fun p hp => funext fun q => ?_
  have hnone : ops.logged s.vol p q = none := hu.2 p (hholds.maps.blocks.symm ▸ hp) q
  simp only [hdev, hnone, Option.getD_none]

/-- A transaction that goes through has put some of the data into the file. -/
theorem writeTrans_spec (hholds : s.Holds psb file v v.len) (hoff : off ≤ v.len) (hbuf : buf ≠ [])
    (hmax : off + buf.length < 2 ^ 63) (h : writeTrans psb ops s off buf = (s', .ok n)) :
    0 < n ∧ n ≤ buf.length ∧ ((∀ c ∈ s'.history, Untouched ops c) → ∃ file',
      s'.Holds psb file' (v.write off (buf.take n)) (v.write off (buf.take n)).len) := by
  unfold writeTrans at h
  split at h
  · cases h
  · next vol _ =>
    have hvol : Holds psb { s with vol := vol } file v v.len := ⟨⟨hholds.maps, hholds.len,
      hholds.room, hholds.bytes⟩, hholds.cnt, hholds.small⟩
    split at h
    · cases h
    · next s₁ k hw =>
      obtain ⟨hpos, hle, -, hnodup⟩ := inodeWrite_spec hvol hoff hbuf hmax hw
      rw [if_neg (by omega)] at h
      split at h
      · cases h
      · next s₂ hc =>
        cases h
        obtain ⟨-, hhist, -⟩ := commit_eq hc
        refine ⟨hpos, hle, fun hu => ?_⟩
        have hlast := hu (.committed s₁.vol s₁.inode) (by rw [hhist]; simp)
        obtain ⟨file', hfile'⟩ := hnodup hlast.1
        exact ⟨file', hfile'.commit hc hlast⟩

/-- A transaction that fails has not begun, or is rolled back. -/
theorem writeTrans_error {e : FileErr} (h : writeTrans psb ops s off buf = (s', .error e)) :
    s' = s ∨ .rolledBack ∈ s'.history := by
  have hlast : ∀ s₁ : FileVol σ, .rolledBack ∈ (rollBack ops s₁).history := fun _ =>
    List.mem_append_right _ (.head _)
  unfold writeTrans at h
  split at h
  · cases h
    exact .inl rfl
  · split at h
    · cases h
      exact .inr (hlast _)
    · split_ifs at h
      · cases h
      · split at h
        · cases h
          exact .inr (hlast _)
        · cases h

/-- A write without an error has put all of the data into the file. -/
theorem tpsWriteLoop_spec (hholds : s.Holds psb file v v.len) (hoff : off + n ≤ v.len)
    (hmax : off + n + buf.length < 2 ^ 63) (hfuel : buf.length ≤ fuel) {m : ℕ}
    (h : tpsWriteLoop psb ops off fuel buf n s = (s', m, none))
    (hu : ∀ c ∈ s'.history, Untouched ops c) : m = n + buf.length ∧ ∃ file',
      s'.Holds psb file' (v.write (off + n) buf) (v.write (off + n) buf).len := by
  induction fuel generalizing s file v buf n with
  | zero =>
    obtain rfl : buf = [] := List.eq_nil_of_length_eq_zero (Nat.le_zero.mp hfuel)
    cases h
    rw [write_nil]
    exact ⟨rfl, file, hholds⟩
  | succ fuel ih =>
    have hhist := tpsWriteLoop_history psb ops off (fuel + 1) buf n s
    rw [tpsWriteLoop] at h
    by_cases hnil : buf = []
    · subst hnil
      rw [if_pos rfl] at h
      cases h
      rw [write_nil]
      exact ⟨rfl, file, hholds⟩
    rw [if_neg hnil] at h
    split at h
    · cases h
    · next s₁ k ht =>
      obtain ⟨hpos, hle, hfile⟩ := writeTrans_spec hholds hoff hnil hmax ht
      rw [if_neg (by omega)] at h
      have hpre := tpsWriteLoop_history psb ops off fuel (buf.drop k) (n + k) s₁
      rw [h] at hpre
      obtain ⟨file', hfile'⟩ := hfile fun c hc => hu c (hpre.subset hc)
      have hlen : (buf.take k).length = k := List.length_take_of_le hle
      have hdrop : (buf.drop k).length = buf.length - k := List.length_drop
      have hne : buf.take k ≠ [] := List.ne_nil_of_length_pos (by omega)
      obtain ⟨hm, file'', hfile''⟩ := ih hfile' (by rw [len_write hne]; omega) (by omega) (by omega) h
      refine ⟨by omega, file'', ?_⟩
      have happ := write_append v (off + n) (buf.take k) (buf.drop k)
      rw [hlen, List.take_append_drop, Nat.add_assoc] at happ
      rwa [happ] at hfile''

/-- A write with an error has put a part of the data into the file, unless a transaction is rolled back.
-/
theorem tpsWriteLoop_error (hholds : s.Holds psb file v v.len) (hoff : off + n ≤ v.len)
    (hmax : off + n + buf.length < 2 ^ 63) (hfuel : buf.length ≤ fuel) {m : ℕ} {e : FileErr}
    (h : tpsWriteLoop psb ops off fuel buf n s = (s', m, some e))
    (hu : ∀ c ∈ s'.history, Untouched ops c) (hback : .rolledBack ∉ s'.history) :
    n ≤ m ∧ m < n + buf.length ∧ s'.inode.szData = max v.len (off + m) := by
  induction fuel generalizing s file v buf n with
  | zero => cases h
  | succ fuel ih =>
    rw [tpsWriteLoop] at h
    by_cases hnil : buf = []
    · rw [if_pos hnil] at h
      cases h
    rw [if_neg hnil] at h
    have hpos := List.length_pos_iff.mpr hnil
    split at h
    · next s₁ e ht =>
      cases h
      obtain rfl := (writeTrans_error ht).resolve_right hback
      exact ⟨le_rfl, by omega, by rw [hholds.len, max_eq_left hoff]⟩
    · next s₁ k ht =>
      obtain ⟨hk, hle, hfile⟩ := writeTrans_spec hholds hoff hnil hmax ht
      rw [if_neg (by omega)] at h
      have hpre := tpsWriteLoop_history psb ops off fuel (buf.drop k) (n + k) s₁
      rw [h] at hpre
      obtain ⟨file', hfile'⟩ := hfile fun c hc => hu c (hpre.subset hc)
      have hlen : (buf.take k).length = k := List.length_take_of_le hle
      have hdrop : (buf.drop k).length = buf.length - k := List.length_drop
      have hne : buf.take k ≠ [] := List.ne_nil_of_length_pos (by omega)
      have hv : (v.write (off + n) (buf.take k)).len = max v.len (off + n + k) := by
        rw [len_write hne, hlen]
      obtain ⟨hm, hm', hsize⟩ := ih hfile' (by omega) (by omega) (by omega) h
      refine ⟨by omega, by omega, ?_⟩
      rw [hsize, hv]
      omega

theorem tpsWrite_spec (hholds : s.Holds psb file v v.len) (hoff : off ≤ v.len)
    (hmax : off + buf.length < 2 ^ 63) {m : ℕ} (h : tpsWrite psb ops s off buf = (s', m, none))
    (hu : ∀ c ∈ s'.history, Untouched ops c) : m = buf.length ∧ ∃ file',
      s'.Holds psb file' (v.write off buf) (v.write off buf).len := by
  unfold tpsWrite at h
  split_ifs at h
  · cases h
  · obtain ⟨hm, hfile⟩ := tpsWriteLoop_spec (n := 0) hholds hoff hmax le_rfl h hu
    exact ⟨hm.trans (Nat.zero_add _), hfile⟩

theorem tpsWrite_error (hholds : s.Holds psb file v v.len) (hoff : off ≤ v.len)
    (hmax : off + buf.length < 2 ^ 63) (hbuf : buf ≠ []) {m : ℕ} {e : FileErr}
    (h : tpsWrite psb ops s off buf = (s', m, some e)) (hu : ∀ c ∈ s'.history, Untouched ops c)
    (hback : .rolledBack ∉ s'.history) :
    m < buf.length ∧ s'.inode.szData = max v.len (off + m) := by
  unfold tpsWrite at h
  split_ifs at h
  · cases h
    exact ⟨List.length_pos_iff.mpr hbuf, by rw [hholds.len, Nat.add_zero, max_eq_left hoff]⟩
  · obtain ⟨-, hlt, hsize⟩ := tpsWriteLoop_error (n := 0) hholds hoff hmax le_rfl h hu hback
    exact ⟨by omega, hsize⟩

theorem tpsWrite_history (psb : SuperBlock) (ops : FileOps σ) (s : FileVol σ) (off : ℕ)
    (buf : List UInt8) : s.history <+: (tpsWrite psb ops s off buf).1.history := by
  unfold tpsWrite
  split_ifs
  · exact List.prefix_rfl
  · exact tpsWriteLoop_history psb ops off _ buf 0 s

end FileVol
end SylixOS.TpsFs
