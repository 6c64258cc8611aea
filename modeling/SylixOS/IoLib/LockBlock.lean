import SylixOS.IoLib.LockTable

/-! # Every walk ends

A list whose entries of one process are in order gives every request a result: no search stays at
an entry, the spare node is there when an entry is split, and a lock is linked in once. The search
for a blocking entry finds one exactly if there is one.
-/

namespace SylixOS.IoLib

open Lib.RangeTable

/-- An entry of another process keeps the lock from being granted. -/
def Blocks (lock e : FdLockf) : Prop :=
  e.pid ≠ lock.pid ∧ ¬ apart lock e ∧ (lock.usType = .wrlck ∨ e.usType = .wrlck)

variable {lock e ov : FdLockf} {c : Overlap} {l pre rest post : List FdLockf} {spare : Option ℕ}
  {n : ℕ} {next : List FdLockf → Option Walk} {b : Option FdLockf}

theorem overlapCase_ne_no : overlapCase lock e ≠ some .no := by
  intro h
  simpa using overlapCase_cases h

theorem split_isSome (h : spare.isSome) : (split ov lock spare post).isSome := by
  unfold split
  split_ifs
  · rfl
  · simpa using h

theorem clearCase_isSome (hnext : (next post).isSome)
    (hspare : spare.isSome ∨ lock.oftEnd = -1) (hcase : overlapCase lock ov = some c) :
    (clearCase lock spare next c (ov :: post)).isSome := by
  rcases overlapCase_cases hcase with ⟨rfl, hc⟩ | ⟨rfl, hc⟩ | ⟨rfl, hc⟩ | ⟨rfl, hc⟩ | ⟨rfl, hc⟩
  · rfl
  · rw [clearCase]
    split_ifs
    · rfl
    · simpa using split_isSome (hspare.resolve_right hc.2.2.1)
  · simpa [clearCase] using hnext
  · simpa [clearCase] using hnext
  · rfl

theorem clearLoop_isSome (hv : ∀ e ∈ l, Valid e) (hlock : Ranged lock)
    (hs : Sorted bytes (own lock.pid l)) (hspare : spare.isSome ∨ lock.oftEnd = -1)
    (hn : l.length < n) : (clearLoop lock spare n l).isSome := by
  induction n generalizing l with
  | zero => omega
  | succ n ih =>
    obtain ⟨⟨pre, c, rest⟩, hf⟩ := Option.isSome_iff_exists.mp
      (findOverlap_isSome lock .self fun e he => (hv e he).1)
    rw [clearLoop, hf, Option.bind_some, Option.isSome_map]
    obtain ⟨rfl, -, ⟨rfl, -⟩ | ⟨ov, post, rfl, hm, hcase⟩⟩ := walk_cases hv hlock hs hf
    · rfl
    · refine clearCase_isSome (ih hm.tail_valid hm.tail_sorted ?_) hspare hcase
      simp only [List.length_append, List.length_cons] at hn
      omega

theorem clearLock_isSome (hv : ∀ e ∈ l, Valid e) (hlock : Ranged lock)
    (hs : Sorted bytes (own lock.pid l)) (hspare : spare.isSome ∨ lock.oftEnd = -1) :
    (clearLock lock spare l).isSome :=
  clearLoop_isSome hv hlock hs hspare (Nat.lt_succ_self _)

/-- A lock that stands in the list is not met by an entry that starts before it. -/
theorem setLoop_behind_isSome (hv : ∀ e ∈ l, Valid e) (hlock : Ranged lock)
    (hs : Sorted bytes (own lock.pid l))
    (hlt : ∀ e ∈ l, e.pid = lock.pid → lock.oftStart < e.oftStart) (hn : l.length < n) :
    (setLoop lock spare n false l).isSome := by
  induction n generalizing l with
  | zero => omega
  | succ n ih =>
    obtain ⟨⟨pre, c, rest⟩, hf⟩ := Option.isSome_iff_exists.mp
      (findOverlap_isSome lock .self fun e he => (hv e he).1)
    rw [setLoop, hf, Option.bind_some, Option.isSome_map]
    obtain ⟨rfl, -, ⟨rfl, -⟩ | ⟨ov, post, rfl, hm, hcase⟩⟩ := walk_cases hv hlock hs hf
    · rfl
    · have hstart := hlt ov (by simp) hm.pid
      have hnext : (setLoop lock spare n false post).isSome := by
        refine ih hm.tail_valid hm.tail_sorted (fun e he => hlt e (by simp [he])) ?_
        simp only [List.length_append, List.length_cons] at hn
        omega
      rcases overlapCase_cases hcase with ⟨rfl, hc⟩ | ⟨rfl, hc⟩ | ⟨rfl, hc⟩ | ⟨rfl, hc⟩ | ⟨rfl, hc⟩
      · omega
      · omega
      · simpa [setCase] using hnext
      · omega
      · rfl

theorem linkLock_isSome (hv : ∀ e ∈ l, Valid e) (hlock : Ranged lock)
    (hs : Sorted bytes (own lock.pid l)) (hspare : spare.isSome) :
    (linkLock lock spare l).isSome := by
  obtain ⟨⟨pre, c, rest⟩, hf⟩ := Option.isSome_iff_exists.mp
    (findOverlap_isSome lock .self fun e he => (hv e he).1)
  rw [linkLock, setLoop, hf, Option.bind_some, Option.isSome_map]
  obtain ⟨rfl, -, ⟨rfl, -⟩ | ⟨ov, post, rfl, hm, hcase⟩⟩ := walk_cases hv hlock hs hf
  · rfl
  · have hnext : (setLoop lock spare (pre ++ ov :: post).length false post).isSome := by
      refine setLoop_behind_isSome hm.tail_valid hlock hm.tail_sorted
        (fun e he hep => hm.start_behind he hep) ?_
      simp only [List.length_append, List.length_cons]
      omega
    rcases overlapCase_cases hcase with ⟨rfl, hc⟩ | ⟨rfl, hc⟩ | ⟨rfl, hc⟩ | ⟨rfl, hc⟩ | ⟨rfl, hc⟩
    · rw [setCase, if_pos rfl]
      split_ifs <;> rfl
    · rw [setCase, if_pos rfl]
      split_ifs
      · rfl
      · rfl
      · simpa using split_isSome hspare
    · simpa [setCase] using hnext
    · simpa [setCase] using hnext
    · rfl

/-- What a search among the entries of the others passes, and where it ends. -/
theorem findOverlap_others (h : findOverlap lock .others l = some (pre, c, rest)) :
    l = pre ++ rest ∧ (∀ e ∈ pre, e.pid ≠ lock.pid → apart lock e) ∧
    ((c = .no ∧ rest = []) ∨
      ∃ ov post, rest = ov :: post ∧ ov.pid ≠ lock.pid ∧ ¬ apart lock ov ∧
        overlapCase lock ov = some c) := by
  induction l generalizing pre with
  | nil =>
    cases h
    simp
  | cons e l ih =>
    unfold findOverlap at h
    by_cases hskip : skips lock .others e
    · rw [if_pos hskip] at h
      obtain ⟨⟨pre', c', rest'⟩, hf, heq⟩ := Option.map_eq_some_iff.mp h
      cases heq
      obtain ⟨rfl, hpre, hrest⟩ := ih hf
      refine ⟨rfl, fun e' he' hpid => ?_, hrest⟩
      rcases List.mem_cons.mp he' with rfl | he'
      · simp [skips, hpid] at hskip
      · exact hpre e' he' hpid
    · rw [if_neg hskip] at h
      have hpid : e.pid ≠ lock.pid := fun heq => hskip (.inr ⟨rfl, heq⟩)
      by_cases hapart : apart lock e
      · rw [if_pos hapart, if_neg (by simp)] at h
        obtain ⟨⟨pre', c', rest'⟩, hf, heq⟩ := Option.map_eq_some_iff.mp h
        cases heq
        obtain ⟨rfl, hpre, hrest⟩ := ih hf
        refine ⟨rfl, fun e' he' hpid' => ?_, hrest⟩
        rcases List.mem_cons.mp he' with rfl | he'
        · exact hapart
        · exact hpre e' he' hpid'
      · rw [if_neg hapart] at h
        obtain ⟨c', hc, heq⟩ := Option.map_eq_some_iff.mp h
        cases heq
        exact ⟨rfl, by simp, .inr ⟨e, l, rfl, hpid, hapart, hc⟩⟩

variable (lock) in
/-- The search for a blocking entry ends, with one if there is one. -/
theorem getBlock_spec (hv : ∀ e ∈ l, Ranged e) (hn : l.length < n) :
    (∃ blk, getBlock lock n l = some (some blk) ∧ blk ∈ l ∧ Blocks lock blk) ∨
      (getBlock lock n l = some none ∧ ∀ e ∈ l, ¬ Blocks lock e) := by
  induction n generalizing l with
  | zero => omega
  | succ n ih =>
    obtain ⟨⟨pre, c, rest⟩, hf⟩ := Option.isSome_iff_exists.mp (findOverlap_isSome lock .others hv)
    obtain ⟨rfl, hpre, hrest⟩ := findOverlap_others hf
    have hprefix : ∀ e ∈ pre, ¬ Blocks lock e := fun e he hb => hb.2.1 (hpre e he hb.1)
    rcases hrest with ⟨rfl, rfl⟩ | ⟨ov, post, rfl, hpid, hapart, hcase⟩
    · refine .inr ⟨by rw [getBlock, hf], fun e he => hprefix e (by simpa using he)⟩
    · have hbody : getBlock lock (n + 1) (pre ++ ov :: post) =
          if lock.usType = .wrlck ∨ ov.usType = .wrlck then some (some ov)
          else getBlock lock n post := by
        rw [getBlock, hf]
        cases c <;> first | rfl | exact absurd hcase overlapCase_ne_no
      rw [hbody]
      by_cases htype : lock.usType = .wrlck ∨ ov.usType = .wrlck
      · rw [if_pos htype]
        exact .inl ⟨ov, rfl, by simp, hpid, hapart, htype⟩
      · rw [if_neg htype]
        have hlen : post.length < n := by
          simp only [List.length_append, List.length_cons] at hn
          omega
        rcases ih (fun e he => hv e (by simp [he])) hlen with ⟨blk, hg, hmem, hb⟩ | ⟨hg, hno⟩
        · exact .inl ⟨blk, hg, by simp [hmem], hb⟩
        · refine .inr ⟨hg, fun e he hb => ?_⟩
          rcases List.mem_append.mp he with he | he
          · exact hprefix e he hb
          · rcases List.mem_cons.mp he with rfl | he
            · exact htype hb.2.2
            · exact hno e he hb

end SylixOS.IoLib
