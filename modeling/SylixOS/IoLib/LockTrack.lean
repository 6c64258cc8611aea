import SylixOS.IoLib.LockBlock

/-! # What a walk does to waiters and nodes

The waiters of an entry that a request cuts are woken. Those of an entry that a lock contains are
blocked by the lock instead, as long as the lock is not weaker. No waiter is forgotten, and each
node stays in the list or is deleted. All this needs that no entry is split in the middle: the new
part would be a copy of the node, with its semaphore.
-/

namespace SylixOS.IoLib

open Lib.RangeTable

/-- The request lies in the middle of an entry of its process. -/
def Splits (lock ov : FdLockf) : Prop :=
  ov.pid = lock.pid ∧ ov.oftStart < lock.oftStart ∧ lock.oftEnd ≠ -1 ∧
    (ov.oftEnd = -1 ∨ lock.oftEnd < ov.oftEnd)

/-- The second node holds for its process at least what the first one holds. -/
def Still (e e' : FdLockf) : Prop :=
  e'.pid = e.pid ∧ (∀ x, e.covers x → e'.covers x) ∧ (e.usType = .wrlck → e'.usType = .wrlck)

def waiters (l : List FdLockf) : List ℕ := l.flatMap FdLockf.blockHd

def sems (l : List FdLockf) : List ℕ := l.map FdLockf.ulBlock

/-- The walk behind the place of a lock, or the walk of an unlock: an entry that still has waiters is
as it was, and a waiter that is moved waited for something that the lock holds. -/
structure Trimmed (lock : FdLockf) (l : List FdLockf) (w : Walk) : Prop where
  waiters : ∀ a, (waiters w.list).count a + w.woken.count a + w.moved.count a = (waiters l).count a
  kept : ∀ e ∈ w.list, ∀ a ∈ e.blockHd, e ∈ l
  moved : ∀ a ∈ w.moved, ∃ e ∈ l, a ∈ e.blockHd ∧ Still e lock
  sems : ∀ h, (sems w.list).count h + w.freed.count h = (sems l).count h
  addr : (∀ e ∈ l, e.addr = e.ulBlock) → ∀ e ∈ w.list, e.addr = e.ulBlock

/-- The walk of a lock: it stands in the list with the waiters that it has taken over, or an entry
has its type. -/
structure Linked (lock : FdLockf) (l : List FdLockf) (w : Walk) : Prop where
  waiters : ∀ a, (IoLib.waiters w.list).count a + w.woken.count a = (IoLib.waiters l).count a
  kept : ∀ e' ∈ w.list, ∀ a ∈ e'.blockHd, (e'.addr = lock.addr ∧ a ∈ w.moved) ∨
    ∃ e ∈ l, a ∈ e.blockHd ∧ e'.addr = e.addr ∧ Still e e'
  moved : ∀ a ∈ w.moved, ∃ e ∈ l, a ∈ e.blockHd ∧ Still e lock
  takes : ∀ a ∈ w.moved, ∃ e' ∈ w.list, e'.addr = lock.addr ∧ a ∈ e'.blockHd ∧ Still lock e'
  sems : ∀ h, (IoLib.sems w.list).count h + w.freed.count h =
    (IoLib.sems l).count h + [lock.ulBlock].count h
  addr : lock.addr = lock.ulBlock → (∀ e ∈ l, e.addr = e.ulBlock) → ∀ e ∈ w.list, e.addr = e.ulBlock

/-- Where a waiter of the list is found after the walk of the node at the address. -/
structure Settles (addr : ℕ) (l : List FdLockf) (w : Walk) : Prop where
  waiters : ∀ a, (IoLib.waiters w.list).count a + w.woken.count a = (IoLib.waiters l).count a
  kept : ∀ e' ∈ w.list, ∀ a ∈ e'.blockHd, ∃ e ∈ l, a ∈ e.blockHd ∧ Still e e' ∧
    e'.addr = if a ∈ w.moved then addr else e.addr
  moved : ∀ a ∈ w.moved, ∃ e' ∈ w.list, a ∈ e'.blockHd

variable {lock e ov : FdLockf} {c : Overlap} {l pre rest post : List FdLockf} {spare : Option ℕ}
  {n a : ℕ} {next : List FdLockf → Option Walk} {w : Walk}

@[simp] theorem waiters_cons : waiters (e :: l) = e.blockHd ++ waiters l := List.flatMap_cons

@[simp] theorem waiters_append : waiters (pre ++ l) = waiters pre ++ waiters l :=
  List.flatMap_append

@[simp] theorem sems_cons : sems (e :: l) = e.ulBlock :: sems l := List.map_cons

@[simp] theorem sems_append : sems (pre ++ l) = sems pre ++ sems l := List.map_append

theorem Still.refl : Still e e := ⟨rfl, fun _ h => h, id⟩

namespace Trimmed

theorem stop : Trimmed lock l (Walk.stop spare l) where
  waiters a := by simp [Walk.stop]
  kept e he _ _ := he
  moved a ha := by simp [Walk.stop] at ha
  sems h := by simp [Walk.stop]
  addr h := h

theorem ahead (h : Trimmed lock rest w) : Trimmed lock (pre ++ rest) (w.ahead pre) where
  waiters a := by
    have := h.waiters a
    simp only [Walk.ahead, waiters_append, List.count_append]
    omega
  kept e he a ha := by
    rcases List.mem_append.mp he with he | he
    · exact List.mem_append_left _ he
    · exact List.mem_append_right _ (h.kept e he a ha)
  moved a ha := by
    obtain ⟨e, he, hs⟩ := h.moved a ha
    exact ⟨e, List.mem_append_right _ he, hs⟩
  sems x := by
    have := h.sems x
    simp only [Walk.ahead, sems_append, List.count_append]
    omega
  addr hl e he := by
    rcases List.mem_append.mp he with he | he
    · exact hl e (List.mem_append_left _ he)
    · exact h.addr (fun e he => hl e (List.mem_append_right _ he)) e he

/-- An overlap is deleted and its waiters are woken. -/
theorem drop (h : Trimmed lock post w) : Trimmed lock (ov :: post) ((w.free ov).wake ov) where
  waiters a := by
    have := h.waiters a
    simp only [Walk.wake, Walk.free, waiters_cons, List.count_append]
    omega
  kept e he a ha := List.mem_cons_of_mem _ (h.kept e he a ha)
  moved a ha := by
    obtain ⟨e, he, hs⟩ := h.moved a ha
    exact ⟨e, List.mem_cons_of_mem _ he, hs⟩
  sems x := by
    have := h.sems x
    simp only [Walk.wake, Walk.free, sems_cons, List.count_cons]
    omega
  addr hl := h.addr fun e he => hl e (List.mem_cons_of_mem _ he)

/-- An overlap is deleted and its waiters are moved to the lock. -/
theorem hand (h : Trimmed lock post w) (hs : Still ov lock) :
    Trimmed lock (ov :: post) ((w.move ov).free ov) where
  waiters a := by
    have := h.waiters a
    simp only [Walk.move, Walk.free, waiters_cons, List.count_append]
    omega
  kept e he a ha := List.mem_cons_of_mem _ (h.kept e he a ha)
  moved a ha := by
    rcases List.mem_append.mp ha with ha | ha
    · exact ⟨ov, List.mem_cons_self, ha, hs⟩
    · obtain ⟨e, he, hs⟩ := h.moved a ha
      exact ⟨e, List.mem_cons_of_mem _ he, hs⟩
  sems x := by
    have := h.sems x
    simp only [Walk.move, Walk.free, sems_cons, List.count_cons]
    omega
  addr hl := h.addr fun e he => hl e (List.mem_cons_of_mem _ he)

/-- An overlap is cut and its waiters are woken. -/
theorem cut (h : Trimmed lock post w) (ha : e.addr = ov.addr) (hu : e.ulBlock = ov.ulBlock)
    (hb : e.blockHd = []) : Trimmed lock (ov :: post) ((w.ahead [e]).wake ov) where
  waiters a := by
    have := h.waiters a
    simp only [Walk.wake, Walk.ahead, List.singleton_append, waiters_cons, hb, List.nil_append,
      List.count_append]
    omega
  kept e' he' a ha' := by
    rcases List.mem_cons.mp he' with rfl | he'
    · rw [hb] at ha'
      cases ha'
    · exact List.mem_cons_of_mem _ (h.kept e' he' a ha')
  moved a ha := by
    obtain ⟨e, he, hs⟩ := h.moved a ha
    exact ⟨e, List.mem_cons_of_mem _ he, hs⟩
  sems x := by
    have := h.sems x
    simp only [Walk.wake, Walk.ahead, List.singleton_append, sems_cons, hu, List.count_cons]
    omega
  addr hl e' he' := by
    rcases List.mem_cons.mp he' with rfl | he'
    · rw [ha, hu]
      exact hl ov List.mem_cons_self
    · exact h.addr (fun e he => hl e (List.mem_cons_of_mem _ he)) e' he'

/-- The part of an overlap after the request stays. -/
theorem right (x : ℤ) : Trimmed lock (ov :: post)
    ((Walk.stop spare ({ ov with oftStart := x, blockHd := [] } :: post)).wake ov) :=
  (stop : Trimmed lock post (Walk.stop spare post)).cut rfl rfl rfl

end Trimmed

/-- A split that needs no copy. -/
theorem split_of_not_splits {ov' : FdLockf} {tail : List FdLockf} {spare' : Option ℕ}
    (hm : Meets lock ov post) (hsplit : ¬ Splits lock ov) (hcase : overlapCase lock ov = some .contains)
    (hstart : ov.oftStart ≠ lock.oftStart)
    (h : split { ov with blockHd := [] } lock spare post = some (ov', tail, spare')) :
    ov' = { ov with oftEnd := off (lock.oftStart - 1), blockHd := [] } ∧ tail = post ∧
      spare' = spare := by
  have hc : ¬ (ov.oftStart = lock.oftStart ∧ ov.oftEnd = lock.oftEnd) ∧
      ov.oftStart ≤ lock.oftStart ∧ lock.oftEnd ≠ -1 ∧
        (ov.oftEnd ≥ lock.oftEnd ∨ ov.oftEnd = -1) := by
    simpa using overlapCase_cases hcase
  obtain ⟨rfl, ⟨hend, rfl, rfl⟩ | ⟨n, hend, -, -, -⟩⟩ := split_cases h
  · exact ⟨rfl, rfl, rfl⟩
  · exact absurd ⟨hm.pid, by omega, hc.2.2.1, by simp only at hend; omega⟩ hsplit

theorem clearCase_trimmed (hm : Meets lock ov post) (hsplit : ¬ Splits lock ov)
    (hnext : ∀ w, next post = some w → Trimmed lock post w ∧ w.moved = [] ∧ w.spare = spare)
    (hcase : overlapCase lock ov = some c)
    (h : clearCase lock spare next c (ov :: post) = some w) :
    Trimmed lock (ov :: post) w ∧ w.moved = [] ∧ w.spare = spare := by
  have hstop : Trimmed lock post (.stop spare post) := .stop
  rcases overlapCase_cases hcase with ⟨rfl, hc⟩ | ⟨rfl, hc⟩ | ⟨rfl, hc⟩ | ⟨rfl, hc⟩ | ⟨rfl, hc⟩
  · cases h
    exact ⟨hstop.drop, rfl, rfl⟩
  · rw [clearCase] at h
    by_cases hstart : ov.oftStart = lock.oftStart
    · rw [if_pos hstart] at h
      cases h
      exact ⟨.right _, rfl, rfl⟩
    · rw [if_neg hstart] at h
      obtain ⟨⟨ov', tail, spare'⟩, hs, rfl⟩ := Option.map_eq_some_iff.mp h
      obtain ⟨rfl, rfl, rfl⟩ := split_of_not_splits hm hsplit hcase hstart hs
      exact ⟨hstop.cut rfl rfl rfl, rfl, rfl⟩
  · obtain ⟨w, hw, rfl⟩ := Option.map_eq_some_iff.mp h
    obtain ⟨ht, hmoved, hspare⟩ := hnext w hw
    exact ⟨ht.drop, hmoved, hspare⟩
  · obtain ⟨w, hw, rfl⟩ := Option.map_eq_some_iff.mp h
    obtain ⟨ht, hmoved, hspare⟩ := hnext w hw
    exact ⟨ht.cut rfl rfl rfl, hmoved, hspare⟩
  · cases h
    exact ⟨.right _, rfl, rfl⟩

theorem clearLoop_trimmed (hv : ∀ e ∈ l, Valid e) (hlock : Ranged lock)
    (hs : Sorted bytes (own lock.pid l)) (hsplit : ∀ ov ∈ l, ¬ Splits lock ov)
    (h : clearLoop lock spare n l = some w) :
    Trimmed lock l w ∧ w.moved = [] ∧ w.spare = spare := by
  induction n generalizing l w with
  | zero => cases h
  | succ n ih =>
    obtain ⟨⟨pre, c, rest⟩, hf, h⟩ := Option.bind_eq_some_iff.mp h
    obtain ⟨w, hc, rfl⟩ := Option.map_eq_some_iff.mp h
    obtain ⟨rfl, -, ⟨rfl, -⟩ | ⟨ov, post, rfl, hm, hcase⟩⟩ := walk_cases hv hlock hs hf
    · cases hc
      exact ⟨Trimmed.stop.ahead, rfl, rfl⟩
    · obtain ⟨ht, hmoved, hspare⟩ := clearCase_trimmed hm (hsplit ov (by simp)) (fun w hw =>
        ih hm.tail_valid hm.tail_sorted (fun e he => hsplit e (by simp [he])) hw) hcase hc
      exact ⟨ht.ahead, hmoved, hspare⟩

/-- A lock that contains an entry, and is not weaker, still holds what the entry held. -/
theorem still_of_contained (hm : Meets lock ov post) (hlock : Valid lock)
    (hc : lock.oftStart ≤ ov.oftStart ∧
      (lock.oftEnd = -1 ∨ (ov.oftEnd ≠ -1 ∧ lock.oftEnd ≥ ov.oftEnd)))
    (hdown : ¬ downgrades lock ov) : Still ov lock := by
  refine ⟨hm.pid.symm, fun x hx => ?_, fun hw => ?_⟩
  · unfold FdLockf.covers at hx ⊢
    omega
  · cases htype : lock.usType with
    | rdlck => exact absurd ⟨htype, hw⟩ hdown
    | wrlck => rfl
    | unlck => exact absurd htype hlock.2

theorem setCase_trimmed (hm : Meets lock ov post) (hlock : Valid lock)
    (hnext : ∀ w, next post = some w → Trimmed lock post w ∧ w.spare = spare)
    (hcase : overlapCase lock ov = some c)
    (h : setCase lock spare next false c (ov :: post) = some w) :
    Trimmed lock (ov :: post) w ∧ w.spare = spare := by
  have hstop : Trimmed lock post (.stop spare post) := .stop
  rcases overlapCase_cases hcase with ⟨rfl, hc⟩ | ⟨rfl, hc⟩ | ⟨rfl, hc⟩ | ⟨rfl, hc⟩ | ⟨rfl, hc⟩
  · cases h
  · cases h
  · obtain ⟨w, hw, rfl⟩ := Option.map_eq_some_iff.mp h
    obtain ⟨ht, hspare⟩ := hnext w hw
    by_cases hdown : downgrades lock ov
    · rw [if_pos hdown]
      exact ⟨ht.drop, hspare⟩
    · rw [if_neg hdown]
      exact ⟨ht.hand (still_of_contained hm hlock hc hdown), hspare⟩
  · cases h
  · cases h
    exact ⟨.right _, rfl⟩

theorem setLoop_trimmed (hv : ∀ e ∈ l, Valid e) (hlock : Valid lock)
    (hs : Sorted bytes (own lock.pid l)) (h : setLoop lock spare n false l = some w) :
    Trimmed lock l w ∧ w.spare = spare := by
  induction n generalizing l w with
  | zero => cases h
  | succ n ih =>
    obtain ⟨⟨pre, c, rest⟩, hf, h⟩ := Option.bind_eq_some_iff.mp h
    obtain ⟨w, hc, rfl⟩ := Option.map_eq_some_iff.mp h
    obtain ⟨rfl, -, ⟨rfl, -⟩ | ⟨ov, post, rfl, hm, hcase⟩⟩ := walk_cases hv hlock.1 hs hf
    · cases hc
      exact ⟨Trimmed.stop.ahead, rfl⟩
    · obtain ⟨ht, hspare⟩ := setCase_trimmed hm hlock (fun w hw =>
        ih hm.tail_valid hm.tail_sorted hw) hcase hc
      exact ⟨ht.ahead, hspare⟩

namespace Linked

/-- The lock is linked in front of what the walk leaves. -/
theorem link (h : Trimmed lock l w) (hb : lock.blockHd = []) : Linked lock l (w.link lock) where
  waiters a := by
    have := h.waiters a
    simp only [Walk.link, waiters_cons, hb, List.nil_append, List.count_append]
    omega
  kept e' he' a ha := by
    rcases List.mem_cons.mp he' with rfl | he'
    · simp only [hb, List.nil_append] at ha
      exact .inl ⟨rfl, ha⟩
    · exact .inr ⟨e', h.kept e' he' a ha, ha, rfl, .refl⟩
  moved := h.moved
  takes a ha := by
    refine ⟨_, List.mem_cons_self, rfl, ?_, rfl, fun _ hx => hx, id⟩
    exact List.mem_append_right _ ha
  sems x := by
    have := h.sems x
    simp only [Walk.link, sems_cons, List.count_cons, List.count_nil]
    omega
  addr ha hl e he := by
    rcases List.mem_cons.mp he with rfl | he
    · exact ha
    · exact h.addr hl e he

theorem ahead (h : Linked lock rest w) : Linked lock (pre ++ rest) (w.ahead pre) where
  waiters a := by
    have := h.waiters a
    simp only [Walk.ahead, waiters_append, List.count_append]
    omega
  kept e' he' a ha := by
    rcases List.mem_append.mp he' with he' | he'
    · exact .inr ⟨e', List.mem_append_left _ he', ha, rfl, .refl⟩
    · refine (h.kept e' he' a ha).imp id fun ⟨e, he, hs⟩ => ⟨e, List.mem_append_right _ he, hs⟩
  moved a ha := by
    obtain ⟨e, he, hs⟩ := h.moved a ha
    exact ⟨e, List.mem_append_right _ he, hs⟩
  takes a ha := by
    obtain ⟨e', he', hs⟩ := h.takes a ha
    exact ⟨e', List.mem_append_right _ he', hs⟩
  sems x := by
    have := h.sems x
    simp only [Walk.ahead, sems_append, List.count_append] at this ⊢
    omega
  addr ha hl e he := by
    rcases List.mem_append.mp he with he | he
    · exact hl e (List.mem_append_left _ he)
    · exact h.addr ha (fun e he => hl e (List.mem_append_right _ he)) e he

/-- An overlap is cut in front of the lock, and its waiters are woken. -/
theorem cut (h : Linked lock post w) (ha : e.addr = ov.addr) (hu : e.ulBlock = ov.ulBlock)
    (hb : e.blockHd = []) : Linked lock (ov :: post) ((w.ahead [e]).wake ov) where
  waiters a := by
    have := h.waiters a
    simp only [Walk.wake, Walk.ahead, List.singleton_append, waiters_cons, hb, List.nil_append,
      List.count_append]
    omega
  kept e' he' a ha' := by
    rcases List.mem_cons.mp he' with rfl | he'
    · rw [hb] at ha'
      cases ha'
    · exact (h.kept e' he' a ha').imp id fun ⟨e, he, hs⟩ => ⟨e, List.mem_cons_of_mem _ he, hs⟩
  moved a ha := by
    obtain ⟨e, he, hs⟩ := h.moved a ha
    exact ⟨e, List.mem_cons_of_mem _ he, hs⟩
  takes a ha := by
    obtain ⟨e', he', hs⟩ := h.takes a ha
    exact ⟨e', List.mem_cons_of_mem _ he', hs⟩
  sems x := by
    have := h.sems x
    simp only [Walk.wake, Walk.ahead, List.singleton_append, sems_cons, hu, List.count_cons] at this ⊢
    omega
  addr ha' hl e' he' := by
    rcases List.mem_cons.mp he' with rfl | he'
    · rw [ha, hu]
      exact hl ov List.mem_cons_self
    · exact h.addr ha' (fun e he => hl e (List.mem_cons_of_mem _ he)) e' he'

/-- The lock is deleted, as an entry with its waiters holds what the lock asks for. -/
theorem entry (ha : e.addr = ov.addr) (hu : e.ulBlock = ov.ulBlock) (hs : Still ov e)
    (hb : e.blockHd = ov.blockHd) : Linked lock (ov :: post) ((Walk.stop spare (e :: post)).free lock) where
  waiters a := by simp [Walk.stop, Walk.free, hb]
  kept e' he' a ha' := by
    rcases List.mem_cons.mp he' with rfl | he'
    · exact .inr ⟨ov, List.mem_cons_self, hb ▸ ha', ha, hs⟩
    · exact .inr ⟨e', List.mem_cons_of_mem _ he', ha', rfl, .refl⟩
  moved a ha := by simp [Walk.stop, Walk.free] at ha
  takes a ha := by simp [Walk.stop, Walk.free] at ha
  sems x := by
    simp only [Walk.stop, Walk.free, sems_cons, hu, List.count_cons, List.count_nil]
  addr _ hl e' he' := by
    rcases List.mem_cons.mp he' with rfl | he'
    · rw [ha, hu]
      exact hl ov List.mem_cons_self
    · exact hl e' (List.mem_cons_of_mem _ he')

/-- The lock is deleted, and the waiters of the entry that takes its type are woken. -/
theorem entryWoken (ha : e.addr = ov.addr) (hu : e.ulBlock = ov.ulBlock) (hb : e.blockHd = []) :
    Linked lock (ov :: post) (((Walk.stop spare (e :: post)).free lock).wake ov) where
  waiters a := by simp [Walk.stop, Walk.free, Walk.wake, hb, Nat.add_comm]
  kept e' he' a ha' := by
    rcases List.mem_cons.mp he' with rfl | he'
    · rw [hb] at ha'
      cases ha'
    · exact .inr ⟨e', List.mem_cons_of_mem _ he', ha', rfl, .refl⟩
  moved a ha := by simp [Walk.stop, Walk.free, Walk.wake] at ha
  takes a ha := by simp [Walk.stop, Walk.free, Walk.wake] at ha
  sems x := by
    simp only [Walk.stop, Walk.free, Walk.wake, sems_cons, hu, List.count_cons, List.count_nil]
  addr _ hl e' he' := by
    rcases List.mem_cons.mp he' with rfl | he'
    · rw [ha, hu]
      exact hl ov List.mem_cons_self
    · exact hl e' (List.mem_cons_of_mem _ he')

end Linked

theorem setCase_linked (hm : Meets lock ov post) (hlock : Valid lock) (hb : lock.blockHd = [])
    (hsplit : Splits lock ov → ov.usType = lock.usType)
    (hnext : ∀ w, next post = some w → Trimmed lock post w ∧ w.spare = spare)
    (hcase : overlapCase lock ov = some c)
    (h : setCase lock spare next true c (ov :: post) = some w) :
    Linked lock (ov :: post) w ∧ w.spare = spare := by
  have hstop : Trimmed lock post (.stop spare post) := .stop
  rcases overlapCase_cases hcase with ⟨rfl, hc⟩ | ⟨rfl, hc⟩ | ⟨rfl, hc⟩ | ⟨rfl, hc⟩ | ⟨rfl, hc⟩
  · rw [setCase, if_pos rfl] at h
    by_cases hdown : downgrades lock ov
    · rw [if_pos hdown] at h
      cases h
      exact ⟨.entryWoken rfl rfl rfl, rfl⟩
    · rw [if_neg hdown] at h
      cases h
      have hs := still_of_contained hm hlock ⟨by omega, by
        have := (hm.valid ov List.mem_cons_self).1
        unfold Ranged at this
        omega⟩ hdown
      exact ⟨.entry rfl rfl ⟨rfl, fun _ hx => hx, hs.2.2⟩ rfl, rfl⟩
  · rw [setCase, if_pos rfl] at h
    by_cases htype : ov.usType = lock.usType
    · rw [if_pos htype] at h
      cases h
      exact ⟨.entry rfl rfl .refl rfl, rfl⟩
    · rw [if_neg htype] at h
      by_cases hstart : ov.oftStart = lock.oftStart
      · rw [if_pos hstart] at h
        cases h
        exact ⟨Linked.link (.right _) hb, rfl⟩
      · rw [if_neg hstart] at h
        obtain ⟨⟨ov', tail, spare'⟩, hs, rfl⟩ := Option.map_eq_some_iff.mp h
        obtain ⟨rfl, rfl, hspare⟩ :=
          split_of_not_splits hm (fun hc => htype (hsplit hc)) hcase hstart hs
        exact ⟨(Linked.link Trimmed.stop hb).cut rfl rfl rfl, hspare⟩
  · obtain ⟨w, hw, rfl⟩ := Option.map_eq_some_iff.mp h
    obtain ⟨ht, hspare⟩ := hnext w hw
    by_cases hdown : downgrades lock ov
    · rw [if_pos hdown]
      exact ⟨.link (w := (w.free ov).wake ov) ht.drop hb, hspare⟩
    · rw [if_neg hdown]
      exact ⟨.link (w := (w.move ov).free ov)
        (ht.hand (still_of_contained hm hlock hc hdown)) hb, hspare⟩
  · rw [setCase, if_pos rfl] at h
    obtain ⟨w, hw, rfl⟩ := Option.map_eq_some_iff.mp h
    obtain ⟨ht, hspare⟩ := hnext w hw
    exact ⟨(Linked.link ht hb).cut rfl rfl rfl, hspare⟩
  · cases h
    exact ⟨Linked.link (.right _) hb, rfl⟩

/-- What the walk of a lock that nothing blocks does to waiters and nodes. -/
theorem linkLock_linked (hv : ∀ e ∈ l, Valid e) (hlock : Valid lock) (hb : lock.blockHd = [])
    (hs : Sorted bytes (own lock.pid l))
    (hsplit : ∀ ov ∈ l, Splits lock ov → ov.usType = lock.usType)
    (h : linkLock lock spare l = some w) : Linked lock l w ∧ w.spare = spare := by
  obtain ⟨⟨pre, c, rest⟩, hf, h⟩ := Option.bind_eq_some_iff.mp h
  obtain ⟨w, hc, rfl⟩ := Option.map_eq_some_iff.mp h
  obtain ⟨rfl, -, ⟨rfl, -⟩ | ⟨ov, post, rfl, hm, hcase⟩⟩ := walk_cases hv hlock.1 hs hf
  · cases hc
    exact ⟨(Linked.link Trimmed.stop hb).ahead, rfl⟩
  · obtain ⟨ht, hspare⟩ := setCase_linked hm hlock hb (hsplit ov (by simp)) (fun w hw =>
      setLoop_trimmed hm.tail_valid hlock hm.tail_sorted hw) hcase hc
    exact ⟨ht.ahead, hspare⟩

theorem Still.trans {e' e'' : FdLockf} (h : Still e e') (h' : Still e' e'') : Still e e'' :=
  ⟨h'.1.trans h.1, fun x hx => h'.2.1 x (h.2.1 x hx), fun hw => h'.2.2 (h.2.2 hw)⟩

theorem mem_waiters : a ∈ waiters l ↔ ∃ e ∈ l, a ∈ e.blockHd := List.mem_flatMap

/-- A waiter of one entry only. -/
theorem eq_of_waiter {f : FdLockf} (h : (waiters l).count a ≤ 1) (he : e ∈ l) (hf : f ∈ l)
    (hae : a ∈ e.blockHd) (haf : a ∈ f.blockHd) : e = f := by
  induction l with
  | nil => cases he
  | cons b l ih =>
    rw [waiters_cons, List.count_append] at h
    have hpos (g : FdLockf) (hg : g ∈ l) (ha : a ∈ g.blockHd) : 0 < (waiters l).count a :=
      List.count_pos_iff.mpr (mem_waiters.mpr ⟨g, hg, ha⟩)
    have hhead (ha : a ∈ b.blockHd) : 0 < b.blockHd.count a := List.count_pos_iff.mpr ha
    rcases List.mem_cons.mp he with rfl | hel <;> rcases List.mem_cons.mp hf with rfl | hfl
    · rfl
    · have := hpos f hfl haf
      have := hhead hae
      omega
    · have := hpos e hel hae
      have := hhead haf
      omega
    · exact ih (by omega) hel hfl

/-- A node of the list is known by its semaphore. -/
theorem eq_of_ulBlock {f : FdLockf} (h : (sems l).count e.ulBlock ≤ 1) (he : e ∈ l) (hf : f ∈ l)
    (heq : e.ulBlock = f.ulBlock) : e = f := by
  induction l with
  | nil => cases he
  | cons b l ih =>
    rw [sems_cons, List.count_cons] at h
    have hpos (g : FdLockf) (hg : g ∈ l) (hge : g.ulBlock = e.ulBlock) :
        0 < (sems l).count e.ulBlock :=
      List.count_pos_iff.mpr (hge ▸ List.mem_map_of_mem hg)
    rcases List.mem_cons.mp he with rfl | hel <;> rcases List.mem_cons.mp hf with rfl | hfl
    · rfl
    · have := hpos f hfl heq.symm
      simp only [BEq.rfl, if_true] at h
      omega
    · have := hpos e hel rfl
      simp only [heq, BEq.rfl, if_true] at h this
      omega
    · exact ih (by omega) hel hfl

/-- A change of the entry at an address is a change of one entry. -/
theorem map_addr (h : ∀ x, (sems l).count x ≤ 1) (haddr : ∀ e ∈ l, e.addr = e.ulBlock) (he : e ∈ l)
    (g : FdLockf → FdLockf) : ∃ pre post, l = pre ++ e :: post ∧
      l.map (fun f => if f.addr = e.addr then g f else f) = pre ++ g e :: post := by
  obtain ⟨pre, post, rfl⟩ := List.append_of_mem he
  refine ⟨pre, post, rfl, ?_⟩
  have hne (f : FdLockf) (hf : f ∈ pre ++ post) : f.addr ≠ e.addr := by
    intro heq
    have hone := h e.ulBlock
    have hin : 0 < (sems (pre ++ post)).count e.ulBlock := by
      refine List.count_pos_iff.mpr (List.mem_map.mpr ⟨f, hf, ?_⟩)
      rw [← haddr e he, ← heq]
      refine (haddr f ?_).symm
      rcases List.mem_append.mp hf with hf | hf
      · exact List.mem_append_left _ hf
      · exact List.mem_append_right _ (List.mem_cons_of_mem _ hf)
    simp only [sems_append, sems_cons, List.count_append, List.count_cons_self] at hone hin
    omega
  have hid (m : List FdLockf) (hm : ∀ f ∈ m, f.addr ≠ e.addr) :
      m.map (fun f => if f.addr = e.addr then g f else f) = m :=
    (List.map_congr_left fun f hf => if_neg (hm f hf)).trans (List.map_id m)
  rw [List.map_append, List.map_cons, hid pre fun f hf => hne f (List.mem_append_left _ hf),
    hid post fun f hf => hne f (List.mem_append_right _ hf), if_pos rfl]

theorem Trimmed.settles {addr : ℕ} (h : Trimmed lock l w) (hm : w.moved = []) : Settles addr l w where
  waiters a := by simpa [hm] using h.waiters a
  kept e' he' a ha := ⟨e', h.kept e' he' a ha, ha, .refl, by simp [hm]⟩
  moved a ha := by simp [hm] at ha

theorem Linked.settles (h : Linked lock l w)
    (honce : ∀ a, (IoLib.waiters l).count a ≤ 1) :
    Settles lock.addr l w where
  waiters := h.waiters
  kept e' he' a ha := by
    have hlist : (IoLib.waiters w.list).count a ≤ 1 := by
      have := h.waiters a
      have := honce a
      omega
    by_cases hmoved : a ∈ w.moved
    · obtain ⟨e'', he'', haddr, ha', hs'⟩ := h.takes a hmoved
      obtain ⟨e, he, hae, hs⟩ := h.moved a hmoved
      cases eq_of_waiter hlist he'' he' ha' ha
      exact ⟨e, he, hae, hs.trans hs', by rw [if_pos hmoved, haddr]⟩
    · obtain ⟨e, he, hae, haddr, hs⟩ := (h.kept e' he' a ha).resolve_left fun hc => hmoved hc.2
      exact ⟨e, he, hae, hs, by rw [if_neg hmoved, haddr]⟩
  moved a ha := by
    obtain ⟨e', he', -, ha', -⟩ := h.takes a ha
    exact ⟨e', he', ha'⟩

/-- An entry that holds what another one held keeps the same requests from being granted. -/
theorem Blocks.still {e' : FdLockf} (h : Blocks lock e) (hlock : Ranged lock) (he : Ranged e)
    (hs : Still e e') : Blocks lock e' := by
  obtain ⟨hpid, hapart, htype⟩ := h
  have hx : ∃ x, lock.covers x ∧ e.covers x := by
    unfold apart at hapart
    unfold Ranged at hlock he
    refine ⟨max lock.oftStart e.oftStart, ?_, ?_⟩ <;> unfold FdLockf.covers <;> omega
  obtain ⟨x, hlx, hex⟩ := hx
  refine ⟨hs.1.trans_ne hpid, ?_, htype.imp_right hs.2.2⟩
  have hex' := hs.2.1 x hex
  unfold FdLockf.covers at hlx hex'
  unfold apart
  omega

end SylixOS.IoLib
