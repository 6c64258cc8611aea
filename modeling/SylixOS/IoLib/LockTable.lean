import SylixOS.IoLib.FdLockf
import SylixOS.Lib.RangeTable

/-! # The lock list as a table

The entries of one process, taken out of the list, are ranges that come one after the other. A
request that is granted writes its type over its range in this table, an unlock clears its range,
and neither changes an entry of another process. Each walk of the code is followed one overlap at a
time.
-/

namespace SylixOS.IoLib

open Lib.RangeTable

/-- The range of a node that a request was converted to. -/
def Ranged (e : FdLockf) : Prop :=
  0 ≤ e.oftStart ∧ e.oftStart ≤ offMax ∧ e.oftEnd ≤ offMax ∧ (e.oftEnd = -1 ∨ e.oftStart ≤ e.oftEnd)

/-- A node that can stand in the list. -/
def Valid (e : FdLockf) : Prop := Ranged e ∧ e.usType ≠ .unlck

/-- The bytes of a node. -/
def bytes (e : FdLockf) : Set ℤ := {x | e.covers x}

/-- The entries of a process. -/
def own (p : ℤ) (l : List FdLockf) : List FdLockf := l.filter fun e => e.pid = p

/-- No entry of the process ends at the end of the file when the request ends at the largest
offset. -/
def Fits (lock : FdLockf) (l : List FdLockf) : Prop :=
  lock.oftEnd = offMax → ∀ e ∈ l, e.pid = lock.pid → e.oftEnd ≠ -1

/-- The request does not end at the largest offset, or the process holds nothing up to the end of the
file but what has the type of the request and starts no later. -/
def NoWrap (lock : FdLockf) (l : List FdLockf) : Prop :=
  lock.oftEnd = offMax → ∀ e ∈ l, e.pid = lock.pid → e.oftEnd = -1 →
    e.oftStart ≤ lock.oftStart ∧ e.usType = lock.usType

/-- The second list is the first one with the request carried out. -/
structure Written (r : Option LockType) (lock : FdLockf) (l l' : List FdLockf) : Prop where
  valid : ∀ e ∈ l', Valid e
  others : ∀ p, p ≠ lock.pid → own p l' = own p l
  cut : Cut bytes FdLockf.usType r (bytes lock) (own lock.pid l) (own lock.pid l')

variable {lock e ov : FdLockf} {c : Overlap} {l l' pre rest post post' m : List FdLockf} {p x : ℤ}
  {r : Option LockType} {w : Walk} {spare : Option ℕ} {n : ℕ}

@[simp] theorem mem_bytes : x ∈ bytes e ↔ e.oftStart ≤ x ∧ (e.oftEnd = -1 ∨ x ≤ e.oftEnd) := Iff.rfl

@[simp] theorem own_append : own p (l ++ l') = own p l ++ own p l' := List.filter_append ..

theorem own_cons_self (h : e.pid = p) : own p (e :: l) = e :: own p l := by simp [own, h]

theorem own_cons_other (h : e.pid ≠ p) : own p (e :: l) = own p l := by simp [own, h]

theorem mem_own : e ∈ own p l ↔ e ∈ l ∧ e.pid = p := by simp [own]

theorem off_of (h : -2 ^ 63 ≤ x) (h' : x ≤ offMax) : off x = x := by
  unfold offMax at h'
  exact Int.bmod_eq_of_le (by omega) (by omega)

theorem Ranged.nonempty (h : Ranged e) : ∃ x, x ∈ bytes e := by
  unfold Ranged at h
  exact ⟨e.oftStart, by simp; omega⟩

/-- One entry comes before another exactly if it ends before the other one starts. -/
theorem before_iff (he : Ranged e) (ho : Ranged ov) :
    Before (bytes e) (bytes ov) ↔ e.oftEnd ≠ -1 ∧ e.oftEnd < ov.oftStart := by
  unfold Ranged at he ho
  constructor
  · intro h
    have hne : e.oftEnd ≠ -1 := by
      intro hend
      have := h (max e.oftStart ov.oftStart) (by simp; omega) ov.oftStart (by simp; omega)
      omega
    exact ⟨hne, h e.oftEnd (by simp; omega) ov.oftStart (by simp; omega)⟩
  · rintro ⟨hne, hlt⟩ x hx y hy
    simp only [mem_bytes] at hx hy
    omega

theorem ordConnected_bytes : (bytes e).OrdConnected := by
  refine ⟨fun x hx y hy z hz => ?_⟩
  simp only [mem_bytes, Set.mem_Icc] at hx hy hz ⊢
  omega

theorem overlapCase_isSome (he : Ranged e) (h : ¬ apart lock e) : (overlapCase lock e).isSome := by
  unfold Ranged at he
  unfold apart at h
  unfold overlapCase
  split_ifs <;> first | rfl | omega

/-- What each result says about the ends. -/
theorem overlapCase_cases (h : overlapCase lock e = some c) :
    (c = .same ∧ e.oftStart = lock.oftStart ∧ e.oftEnd = lock.oftEnd) ∨
    (c = .contains ∧ ¬ (e.oftStart = lock.oftStart ∧ e.oftEnd = lock.oftEnd) ∧
      e.oftStart ≤ lock.oftStart ∧ lock.oftEnd ≠ -1 ∧ (e.oftEnd ≥ lock.oftEnd ∨ e.oftEnd = -1)) ∨
    (c = .contained ∧ lock.oftStart ≤ e.oftStart ∧
      (lock.oftEnd = -1 ∨ (e.oftEnd ≠ -1 ∧ lock.oftEnd ≥ e.oftEnd))) ∨
    (c = .startsBefore ∧ e.oftStart < lock.oftStart ∧ (e.oftEnd ≥ lock.oftStart ∨ e.oftEnd = -1) ∧
      (lock.oftEnd = -1 ∨ (e.oftEnd ≠ -1 ∧ e.oftEnd < lock.oftEnd))) ∨
    (c = .endsAfter ∧ e.oftStart > lock.oftStart ∧ lock.oftEnd ≠ -1 ∧
      (e.oftEnd > lock.oftEnd ∨ e.oftEnd = -1)) := by
  unfold overlapCase at h
  split_ifs at h with h1 h2 h3 h4 h5 <;> cases h
  · exact .inl ⟨rfl, h1⟩
  · exact .inr (.inl ⟨rfl, h1, h2⟩)
  · exact .inr (.inr (.inl ⟨rfl, h3⟩))
  · exact .inr (.inr (.inr (.inl ⟨rfl, by omega⟩)))
  · exact .inr (.inr (.inr (.inr ⟨rfl, h5⟩)))

variable (lock) in
/-- The walk to the next overlap never stays where it is. -/
theorem findOverlap_isSome (iType : Whose) (h : ∀ e ∈ l, Ranged e) :
    (findOverlap lock iType l).isSome := by
  induction l with
  | nil => rfl
  | cons e l ih =>
    have ih := ih fun e he => h e (List.mem_cons_of_mem _ he)
    unfold findOverlap
    split_ifs with hskip hapart hend
    · simpa using ih
    · rfl
    · simpa using ih
    · simpa using overlapCase_isSome (h e List.mem_cons_self) hapart

/-- What a search among the own entries passes, and where it ends. -/
theorem findOverlap_self (h : findOverlap lock .self l = some (pre, c, rest)) :
    l = pre ++ rest ∧
    (∀ e ∈ pre, e.pid = lock.pid → e.oftEnd ≠ -1 ∧ e.oftEnd < lock.oftStart) ∧
    ((c = .no ∧ (rest = [] ∨ ∃ e post, rest = e :: post ∧ e.pid = lock.pid ∧ lock.oftEnd ≠ -1 ∧
        lock.oftEnd < e.oftStart)) ∨
      ∃ ov post, rest = ov :: post ∧ ov.pid = lock.pid ∧ ¬ apart lock ov ∧
        overlapCase lock ov = some c) := by
  induction l generalizing pre with
  | nil =>
    cases h
    simp
  | cons e l ih =>
    unfold findOverlap at h
    by_cases hskip : skips lock .self e
    · rw [if_pos hskip] at h
      obtain ⟨⟨pre', c', rest'⟩, hf, heq⟩ := Option.map_eq_some_iff.mp h
      cases heq
      obtain ⟨rfl, hpre, hrest⟩ := ih hf
      refine ⟨rfl, fun e' he' hpid => ?_, hrest⟩
      rcases List.mem_cons.mp he' with rfl | he'
      · simp [skips, hpid] at hskip
      · exact hpre e' he' hpid
    · rw [if_neg hskip] at h
      have hpid : e.pid = lock.pid := by
        by_contra hne
        exact hskip (.inl ⟨rfl, hne⟩)
      by_cases hapart : apart lock e
      · rw [if_pos hapart] at h
        by_cases hend : lock.oftEnd ≠ -1 ∧ e.oftStart > lock.oftEnd
        · rw [if_pos ⟨rfl, hend⟩] at h
          cases h
          exact ⟨rfl, by simp, .inl ⟨rfl, .inr ⟨e, l, rfl, hpid, hend⟩⟩⟩
        · rw [if_neg fun hc => hend hc.2] at h
          obtain ⟨⟨pre', c', rest'⟩, hf, heq⟩ := Option.map_eq_some_iff.mp h
          cases heq
          obtain ⟨rfl, hpre, hrest⟩ := ih hf
          refine ⟨rfl, fun e' he' hpid' => ?_, hrest⟩
          rcases List.mem_cons.mp he' with rfl | he'
          · unfold apart at hapart
            omega
          · exact hpre e' he' hpid'
      · rw [if_neg hapart] at h
        obtain ⟨c', hc, heq⟩ := Option.map_eq_some_iff.mp h
        cases heq
        exact ⟨rfl, by simp, .inr ⟨e, l, rfl, hpid, hapart, hc⟩⟩

namespace Written

/-- Entries that the walk passes stay in front of what it leaves. -/
theorem ahead (h : Written r lock rest l') (hpre : ∀ e ∈ pre, Valid e)
    (hlock : Ranged lock) (hbefore : ∀ e ∈ pre, e.pid = lock.pid → e.oftEnd ≠ -1 ∧ e.oftEnd < lock.oftStart)
    (hs : Sorted bytes (own lock.pid (pre ++ rest))) : Written r lock (pre ++ rest) (pre ++ l') := by
  refine ⟨fun e he => ?_, fun p hp => ?_, ?_⟩
  · rcases List.mem_append.mp he with he | he
    · exact hpre e he
    · exact h.valid e he
  · rw [own_append, own_append, h.others p hp]
  · rw [own_append] at hs
    rw [own_append, own_append]
    refine h.cut.append_left hs fun e he => ?_
    obtain ⟨he, hpid⟩ := mem_own.mp he
    exact (before_iff (hpre e he).1 hlock).mpr (hbefore e he hpid)

/-- The next overlap is cut, and the rest of the walk clears the range behind it. -/
theorem cons (h : Written none lock post post') (hcut : Cut bytes FdLockf.usType r (bytes lock) [ov] m)
    (hm : ∀ e ∈ m, e.pid = lock.pid ∧ Valid e) (hov : Ranged ov) (hpid : ov.pid = lock.pid)
    (hapart : ¬ apart lock ov) (hlock : Ranged lock)
    (hs : Sorted bytes (own lock.pid (ov :: post))) : Written r lock (ov :: post) (m ++ post') := by
  have hself : own lock.pid m = m := List.filter_eq_self.mpr fun e he => by simp [(hm e he).1]
  refine ⟨fun e he => ?_, fun p hp => ?_, ?_⟩
  · rcases List.mem_append.mp he with he | he
    · exact (hm e he).2
    · exact h.valid e he
  · have hnone : own p m = [] := List.filter_eq_nil_iff.mpr fun e he => by
      simp [(hm e he).1, hp.symm]
    rw [own_append, hnone, List.nil_append, h.others p hp, own_cons_other (hpid.trans_ne hp.symm)]
  · rw [own_cons_self hpid] at hs ⊢
    rw [own_append, hself]
    refine hcut.cons h.cut hs ordConnected_bytes ?_
    unfold apart at hapart
    unfold Ranged at hov hlock
    refine ⟨max lock.oftStart ov.oftStart, ?_, ?_⟩ <;> simp <;> omega

/-- Where nothing of the process stands in the range any more, it is clear. -/
theorem of_after (hv : ∀ e ∈ post, Valid e) (hs : Sorted bytes (own lock.pid post))
    (hafter : ∀ e ∈ own lock.pid post, Before (bytes lock) (bytes e)) :
    Written none lock post post :=
  ⟨hv, fun _ _ => rfl, .of_after hs hafter⟩

end Written

/-- The entries behind an overlap that reaches over the end of the request lie after it. -/
theorem after_of_reach (hov : Ranged ov)
    (hreach : ov.oftEnd = -1 ∨ (lock.oftEnd ≠ -1 ∧ lock.oftEnd ≤ ov.oftEnd))
    (hpid : ov.pid = lock.pid) (hs : Sorted bytes (own lock.pid (ov :: post))) :
    ∀ e ∈ own lock.pid post, Before (bytes lock) (bytes e) := by
  rw [own_cons_self hpid] at hs
  intro e he x hx y hy
  have hbefore := (List.pairwise_cons.mp hs).1 e he
  unfold Ranged at hov
  by_cases hend : ov.oftEnd = -1
  · exact lt_of_le_of_lt (le_max_left x ov.oftStart) (hbefore _ (by simp; omega) y hy)
  · refine lt_of_le_of_lt ?_ (hbefore ov.oftEnd (by simp; omega) y hy)
    simp only [mem_bytes] at hx
    omega

/-- A search that ends without an overlap ends in front of entries that lie after the request. -/
theorem after_of_no (hv : ∀ e ∈ rest, Valid e) (hlock : Ranged lock)
    (hrest : rest = [] ∨ ∃ e post, rest = e :: post ∧ e.pid = lock.pid ∧ lock.oftEnd ≠ -1 ∧
      lock.oftEnd < e.oftStart) (hs : Sorted bytes (own lock.pid rest)) :
    ∀ e ∈ own lock.pid rest, Before (bytes lock) (bytes e) := by
  rcases hrest with rfl | ⟨e, post, rfl, hpid, hend⟩
  · simp [own]
  · have hfirst := (before_iff hlock (hv e List.mem_cons_self).1).mpr hend
    rw [own_cons_self hpid] at hs ⊢
    intro b hb
    rcases List.mem_cons.mp hb with rfl | hb
    · exact hfirst
    · obtain ⟨z, hz⟩ := (hv e List.mem_cons_self).1.nonempty
      exact fun x hx y hy =>
        (hfirst x hx z hz).trans ((List.pairwise_cons.mp hs).1 b hb z hz y hy)

/-- The list holds the bytes of an entry on one side of a request. -/
structure Part (ov : FdLockf) (side : ℤ → Prop) (m : List FdLockf) : Prop where
  sorted : Sorted bytes m
  own : ∀ e ∈ m, e.pid = ov.pid ∧ Valid e
  has : ∀ x t, Has bytes FdLockf.usType m x t ↔ side x ∧ x ∈ bytes ov ∧ ov.usType = t

namespace Part

variable {side : ℤ → Prop}

theorem nil (h : ∀ x ∈ bytes ov, ¬ side x) : Part ov side [] where
  sorted := List.Pairwise.nil
  own := by simp
  has x t := by
    have := h x
    simp only [has_nil, false_iff]
    tauto

theorem singleton (hpid : e.pid = ov.pid) (htype : e.usType = ov.usType) (hv : Valid e)
    (h : ∀ x, x ∈ bytes e ↔ side x ∧ x ∈ bytes ov) : Part ov side [e] where
  sorted := List.pairwise_singleton _ _
  own := by simp [hpid, hv]
  has x t := by
    simp only [has_cons, has_nil, h, htype, or_false]
    tauto

/-- The part before a request that starts inside of the entry. -/
theorem before (hov : Valid ov) (hlock : Ranged lock) (h : ov.oftStart < lock.oftStart)
    (hend : ov.oftEnd = -1 ∨ lock.oftStart ≤ ov.oftEnd) :
    Part ov (· < lock.oftStart) [{ ov with oftEnd := off (lock.oftStart - 1), blockHd := [] }] := by
  obtain ⟨hr, ht⟩ := hov
  unfold Ranged at hr hlock
  rw [off_of (by omega) (by omega)]
  refine singleton rfl rfl ⟨?_, ht⟩ fun x => ?_
  · simp only [Ranged]
    omega
  · simp only [mem_bytes]
    omega

/-- The part after a request that ends inside of the entry. -/
theorem after (hov : Valid ov) (hlock : Ranged lock)
    (hfit : lock.oftEnd = offMax → ov.oftEnd ≠ -1) (hstart : ov.oftStart ≤ lock.oftEnd)
    (h : ov.oftEnd = -1 ∨ lock.oftEnd < ov.oftEnd) (n : ℕ) :
    Part ov (fun x => lock.oftEnd ≠ -1 ∧ lock.oftEnd < x)
      [{ ov with addr := n, oftStart := off (lock.oftEnd + 1), blockHd := [] }] := by
  obtain ⟨hr, ht⟩ := hov
  unfold Ranged at hr hlock
  have hlt : lock.oftEnd < offMax := by
    rcases h with h | h
    · exact lt_of_le_of_ne (by omega) fun heq => hfit heq h
    · omega
  rw [off_of (by omega) (by omega)]
  refine singleton rfl rfl ⟨?_, ht⟩ fun x => ?_
  · simp only [Ranged]
    omega
  · simp only [mem_bytes]
    omega

end Part

/-- An entry that meets a request is replaced by its part before the request, what the request
writes, and its part after the request. -/
theorem cut_replace {a k b : List FdLockf} (hk : Cut bytes FdLockf.usType r (bytes lock) [] k)
    (ha : Part ov (· < lock.oftStart) a)
    (hb : Part ov (fun x => lock.oftEnd ≠ -1 ∧ lock.oftEnd < x) b) (hlock : Ranged lock) :
    Cut bytes FdLockf.usType r (bytes lock) [ov] (a ++ (k ++ b)) := by
  unfold Ranged at hlock
  have hhas : ∀ x t, Has bytes FdLockf.usType k x t ↔ x ∈ bytes lock ∧ r = some t := by
    intro x t
    simpa using hk.has x t
  refine ⟨(sorted_append FdLockf.usType).mpr ⟨ha.sorted,
    (sorted_append FdLockf.usType).mpr ⟨hk.sorted, hb.sorted, ?_⟩, ?_⟩, fun x t => ?_⟩
  · intro x t y u hx hy
    rw [hhas, mem_bytes] at hx
    rw [hb.has] at hy
    omega
  · intro x t y u hx hy
    rw [ha.has] at hx
    rw [has_append, hhas, hb.has, mem_bytes] at hy
    rcases hy with hy | hy <;> omega
  · rw [has_append, has_append, ha.has, hhas, hb.has, has_cons]
    have hside : x ∉ bytes lock ↔ x < lock.oftStart ∨ (lock.oftEnd ≠ -1 ∧ lock.oftEnd < x) := by
      simp only [mem_bytes]
      omega
    rw [hside]
    simp only [has_nil, or_false]
    tauto

/-- The first entry of a list is one of the process and meets the request. -/
structure Meets (lock ov : FdLockf) (post : List FdLockf) : Prop where
  valid : ∀ e ∈ ov :: post, Valid e
  ranged : Ranged lock
  sorted : Sorted bytes (own lock.pid (ov :: post))
  pid : ov.pid = lock.pid
  meets : ¬ apart lock ov

/-- A list that the request writes for its range alone. -/
structure Writes (r : Option LockType) (lock : FdLockf) (k : List FdLockf) : Prop where
  cut : Cut bytes FdLockf.usType r (bytes lock) [] k
  own : ∀ e ∈ k, e.pid = lock.pid ∧ Valid e

theorem Writes.nil : Writes none lock [] := ⟨.nil, by simp⟩

theorem Writes.singleton (hstart : e.oftStart = lock.oftStart) (hend : e.oftEnd = lock.oftEnd)
    (htype : e.usType = lock.usType) (hpid : e.pid = lock.pid) (hv : Valid e) :
    Writes (some lock.usType) lock [e] := by
  refine ⟨⟨List.pairwise_singleton _ _, fun x t => ?_⟩, by simp [hpid, hv]⟩
  simp [hstart, hend, htype]

/-- The lock itself, whichever waiters it has taken over. -/
theorem Writes.link (hv : Valid lock) (bl : List ℕ) :
    Writes (some lock.usType) lock [{ lock with blockHd := bl }] :=
  .singleton (e := { lock with blockHd := bl }) rfl rfl rfl rfl hv

namespace Meets

variable {a b k : List FdLockf}

theorem tail_sorted (h : Meets lock ov post) : Sorted bytes (own lock.pid post) := by
  have hs := h.sorted
  rw [own_cons_self h.pid] at hs
  exact hs.tail

theorem tail_valid (h : Meets lock ov post) : ∀ e ∈ post, Valid e := fun e he =>
  h.valid e (List.mem_cons_of_mem _ he)

/-- Behind an overlap the entries of the process start after the request does. -/
theorem start_behind (h : Meets lock ov post) (he : e ∈ post) (hep : e.pid = lock.pid) :
    lock.oftStart < e.oftStart := by
  have hs := h.sorted
  rw [own_cons_self h.pid] at hs
  have hbefore := (List.pairwise_cons.mp hs).1 e (mem_own.mpr ⟨he, hep⟩)
  have hends := (before_iff (h.valid ov List.mem_cons_self).1 (h.tail_valid e he).1).mp hbefore
  have hm := h.meets
  unfold apart at hm
  omega

/-- Nothing has to be cleared behind an overlap that reaches over the end of the request. -/
theorem reach (h : Meets lock ov post)
    (hreach : ov.oftEnd = -1 ∨ (lock.oftEnd ≠ -1 ∧ lock.oftEnd ≤ ov.oftEnd)) :
    Written none lock post post :=
  .of_after h.tail_valid h.tail_sorted
    (after_of_reach (h.valid ov List.mem_cons_self).1 hreach h.pid h.sorted)

/-- An overlap is replaced by its part before the request, what the request writes, and its part
after the request. -/
theorem replace (h : Meets lock ov post) (hk : Writes r lock k)
    (ha : Part ov (· < lock.oftStart) a)
    (hb : Part ov (fun x => lock.oftEnd ≠ -1 ∧ lock.oftEnd < x) b)
    (hpost : Written none lock post post') : Written r lock (ov :: post) (a ++ (k ++ b) ++ post') := by
  refine hpost.cons (cut_replace hk.cut ha hb h.ranged) (fun e he => ?_)
    (h.valid ov List.mem_cons_self).1 h.pid h.meets h.ranged h.sorted
  rcases List.mem_append.mp he with he | he
  · exact ⟨(ha.own e he).1.trans h.pid, (ha.own e he).2⟩
  · rcases List.mem_append.mp he with he | he
    · exact hk.own e he
    · exact ⟨(hb.own e he).1.trans h.pid, (hb.own e he).2⟩

/-- An overlap inside of the request. -/
theorem whole (h : Meets lock ov post) (hk : Writes r lock k) (hstart : lock.oftStart ≤ ov.oftStart)
    (hend : lock.oftEnd = -1 ∨ (ov.oftEnd ≠ -1 ∧ ov.oftEnd ≤ lock.oftEnd))
    (hpost : Written none lock post post') : Written r lock (ov :: post) (k ++ post') := by
  have hw := h.replace hk (.nil fun x hx => ?_) (.nil fun x hx => ?_) hpost
  · rwa [List.append_nil] at hw
  all_goals
    simp only [mem_bytes] at hx
    omega

/-- An overlap that starts before the request and does not end after it. -/
theorem keepLeft (h : Meets lock ov post) (hk : Writes r lock k) (hstart : ov.oftStart < lock.oftStart)
    (hend : lock.oftEnd = -1 ∨ (ov.oftEnd ≠ -1 ∧ ov.oftEnd ≤ lock.oftEnd))
    (hpost : Written none lock post post') :
    Written r lock (ov :: post)
      ({ ov with oftEnd := off (lock.oftStart - 1), blockHd := [] } :: (k ++ post')) := by
  have hm := h.meets
  unfold apart at hm
  have hw := h.replace hk (.before (h.valid ov List.mem_cons_self) h.ranged hstart (by omega))
    (.nil fun x hx => ?_) hpost
  · simpa using hw
  · simp only [mem_bytes] at hx
    omega

/-- An overlap that does not start before the request and ends after it. -/
theorem keepRight (h : Meets lock ov post) (hk : Writes r lock k)
    (hfit : lock.oftEnd = offMax → ov.oftEnd ≠ -1) (hstart : lock.oftStart ≤ ov.oftStart)
    (hne : lock.oftEnd ≠ -1) (hend : ov.oftEnd = -1 ∨ lock.oftEnd < ov.oftEnd) (n : ℕ) :
    Written r lock (ov :: post)
      (k ++ { ov with addr := n, oftStart := off (lock.oftEnd + 1), blockHd := [] } :: post) := by
  have hm := h.meets
  unfold apart at hm
  have hw := h.replace hk (.nil fun x hx => ?_)
    (.after (h.valid ov List.mem_cons_self) h.ranged hfit (by omega) hend n) (h.reach (by omega))
  · simpa using hw
  · simp only [mem_bytes] at hx
    omega

/-- An overlap that starts before the request and ends after it. -/
theorem keepBoth (h : Meets lock ov post) (hk : Writes r lock k)
    (hfit : lock.oftEnd = offMax → ov.oftEnd ≠ -1) (hstart : ov.oftStart < lock.oftStart)
    (hne : lock.oftEnd ≠ -1) (hend : ov.oftEnd = -1 ∨ lock.oftEnd < ov.oftEnd) (n : ℕ) :
    Written r lock (ov :: post)
      ({ ov with oftEnd := off (lock.oftStart - 1), blockHd := [] } ::
        (k ++ { ov with addr := n, oftStart := off (lock.oftEnd + 1), blockHd := [] } :: post)) := by
  have hm := h.meets
  have hr := (h.valid ov List.mem_cons_self).1
  unfold apart at hm
  unfold Ranged at hr
  have hw := h.replace hk (.before (h.valid ov List.mem_cons_self) h.ranged hstart (by omega))
    (.after (h.valid ov List.mem_cons_self) h.ranged hfit (by omega) hend n) (h.reach (by omega))
  simpa using hw

/-- An overlap that contains the request and has its type already. -/
theorem keep (h : Meets lock ov post) (hstart : ov.oftStart ≤ lock.oftStart)
    (hend : ov.oftEnd = -1 ∨ (lock.oftEnd ≠ -1 ∧ lock.oftEnd ≤ ov.oftEnd)) :
    Written (some ov.usType) lock (ov :: post) (ov :: post) := by
  refine (h.reach hend).cons (m := [ov]) ⟨List.pairwise_singleton _ _, fun x t => ?_⟩
    (by simpa using ⟨h.pid, h.valid ov List.mem_cons_self⟩)
    (h.valid ov List.mem_cons_self).1 h.pid h.meets h.ranged h.sorted
  have hsub : x ∈ bytes lock → x ∈ bytes ov := by
    simp only [mem_bytes]
    omega
  simp only [has_cons, has_nil, or_false, Option.some.injEq]
  tauto

end Meets

/-- The two ways a split ends. -/
theorem split_cases {tail : List FdLockf} {ov' : FdLockf} {spare' : Option ℕ}
    (h : split ov lock spare post = some (ov', tail, spare')) :
    ov' = { ov with oftEnd := off (lock.oftStart - 1) } ∧
      ((ov.oftEnd = lock.oftEnd ∧ tail = post ∧ spare' = spare) ∨
        ∃ n, ov.oftEnd ≠ lock.oftEnd ∧ spare = some n ∧ spare' = none ∧
          tail = { ov with addr := n, oftStart := off (lock.oftEnd + 1), blockHd := [] } :: post) := by
  unfold split at h
  split_ifs at h with hend
  · cases h
    exact ⟨rfl, .inl ⟨hend, rfl, rfl⟩⟩
  · obtain ⟨n, hn, heq⟩ := Option.map_eq_some_iff.mp h
    cases heq
    exact ⟨rfl, .inr ⟨n, hend, hn, rfl, rfl⟩⟩

/-- One overlap of an unlock. -/
theorem clearCase_written {next : List FdLockf → Option Walk} (hm : Meets lock ov post)
    (hnext : ∀ w, next post = some w → Written none lock post w.list)
    (hfit : Fits lock (ov :: post)) (hcase : overlapCase lock ov = some c)
    (h : clearCase lock spare next c (ov :: post) = some w) :
    Written none lock (ov :: post) w.list := by
  have hfit := fun heq => hfit heq ov List.mem_cons_self hm.pid
  have hr := (hm.valid ov List.mem_cons_self).1
  unfold Ranged at hr
  rcases overlapCase_cases hcase with ⟨rfl, hc⟩ | ⟨rfl, hc⟩ | ⟨rfl, hc⟩ | ⟨rfl, hc⟩ | ⟨rfl, hc⟩
  · cases h
    exact hm.whole .nil (by omega) (by omega) (hm.reach (by omega))
  · rw [clearCase] at h
    by_cases hstart : ov.oftStart = lock.oftStart
    · rw [if_pos hstart] at h
      cases h
      exact hm.keepRight .nil hfit (by omega) (by omega) (by omega) _
    · rw [if_neg hstart] at h
      obtain ⟨⟨ov', tail, spare'⟩, hsplit, rfl⟩ := Option.map_eq_some_iff.mp h
      obtain ⟨rfl, ⟨hend, rfl, -⟩ | ⟨n, hend, -, -, rfl⟩⟩ := split_cases hsplit
      · exact hm.keepLeft .nil (by omega) (by simp only at hend; omega) (hm.reach (by omega))
      · exact hm.keepBoth .nil hfit (by omega) (by omega) (by simp only at hend; omega) n
  · obtain ⟨w, hw, rfl⟩ := Option.map_eq_some_iff.mp h
    exact hm.whole .nil (by omega) (by omega) (hnext w hw)
  · obtain ⟨w, hw, rfl⟩ := Option.map_eq_some_iff.mp h
    exact hm.keepLeft .nil (by omega) (by omega) (hnext w hw)
  · cases h
    exact hm.keepRight .nil hfit (by omega) (by omega) (by omega) _

/-- A walk passes what lies before the request, and then it meets an entry of the process or it
ends. -/
theorem walk_cases (hv : ∀ e ∈ l, Valid e) (hlock : Ranged lock) (hs : Sorted bytes (own lock.pid l))
    (hf : findOverlap lock .self l = some (pre, c, rest)) :
    l = pre ++ rest ∧
    (∀ r l', Written r lock rest l' → Written r lock l (pre ++ l')) ∧
    ((c = .no ∧ (∀ e ∈ rest, Valid e) ∧ Sorted bytes (own lock.pid rest) ∧
        ∀ e ∈ own lock.pid rest, Before (bytes lock) (bytes e)) ∨
      ∃ ov post, rest = ov :: post ∧ Meets lock ov post ∧ overlapCase lock ov = some c) := by
  obtain ⟨rfl, hpre, hrest⟩ := findOverlap_self hf
  have hvr : ∀ e ∈ rest, Valid e := fun e he => hv e (List.mem_append_right _ he)
  have hsr : Sorted bytes (own lock.pid rest) := by
    rw [own_append] at hs
    exact (List.pairwise_append.mp hs).2.1
  refine ⟨rfl, fun r l' h => h.ahead (fun e he => hv e (List.mem_append_left _ he)) hlock hpre hs, ?_⟩
  rcases hrest with ⟨rfl, hno⟩ | ⟨ov, post, rfl, hpid, hapart, hcase⟩
  · exact .inl ⟨rfl, hvr, hsr, after_of_no hvr hlock hno hsr⟩
  · exact .inr ⟨ov, post, rfl, ⟨hvr, hlock, hsr, hpid, hapart⟩, hcase⟩

/-- The walk of an unlock. -/
theorem clearLoop_written (hv : ∀ e ∈ l, Valid e) (hlock : Ranged lock) (hfit : Fits lock l)
    (hs : Sorted bytes (own lock.pid l)) (h : clearLoop lock spare n l = some w) :
    Written none lock l w.list := by
  induction n generalizing l w with
  | zero => cases h
  | succ n ih =>
    obtain ⟨⟨pre, c, rest⟩, hf, h⟩ := Option.bind_eq_some_iff.mp h
    obtain ⟨w, hc, rfl⟩ := Option.map_eq_some_iff.mp h
    obtain ⟨rfl, hahead, ⟨rfl, hvr, hsr, hafter⟩ | ⟨ov, post, rfl, hm, hcase⟩⟩ :=
      walk_cases hv hlock hs hf
    · cases hc
      exact hahead _ _ (.of_after hvr hsr hafter)
    · refine hahead _ _ (clearCase_written hm (fun w hw => ?_)
        (fun heq e he => hfit heq e (List.mem_append_right _ he)) hcase hc)
      exact ih hm.tail_valid
        (fun heq e he => hfit heq e (List.mem_append_right _ (List.mem_cons_of_mem _ he)))
        hm.tail_sorted hw

theorem NoWrap.fits (h : NoWrap lock l) (hlt : ∀ e ∈ l, e.pid = lock.pid → lock.oftStart < e.oftStart) :
    Fits lock l := by
  intro heq e he hpid hend
  have := (h heq e he hpid hend).1
  have := hlt e he hpid
  omega

section setLoop

variable {next : List FdLockf → Option Walk} {need : Bool}

@[simp] theorem linkIf_false : w.linkIf false lock = w := rfl

@[simp] theorem linkIf_true : w.linkIf true lock = w.link lock := rfl

/-- Once the lock stands in the list, an overlap is only taken out of its range. -/
theorem setCase_behind (hm : Meets lock ov post)
    (hnext : ∀ w, next post = some w → Written none lock post w.list)
    (hfit : Fits lock (ov :: post)) (hcase : overlapCase lock ov = some c)
    (h : setCase lock spare next false c (ov :: post) = some w) :
    Written none lock (ov :: post) w.list := by
  have hfit := fun heq => hfit heq ov List.mem_cons_self hm.pid
  rcases overlapCase_cases hcase with ⟨rfl, hc⟩ | ⟨rfl, hc⟩ | ⟨rfl, hc⟩ | ⟨rfl, hc⟩ | ⟨rfl, hc⟩
  · cases h
  · cases h
  · obtain ⟨w, hw, rfl⟩ := Option.map_eq_some_iff.mp h
    have hlist : (Walk.free ov (if downgrades lock ov then w.wake ov else w.move ov)).list =
        w.list := by split_ifs <;> rfl
    rw [linkIf_false, hlist]
    exact hm.whole .nil (by omega) (by omega) (hnext w hw)
  · cases h
  · cases h
    exact hm.keepRight .nil hfit (by omega) (by omega) (by omega) _

theorem setLoop_behind (hv : ∀ e ∈ l, Valid e) (hlock : Ranged lock) (hfit : Fits lock l)
    (hs : Sorted bytes (own lock.pid l)) (h : setLoop lock spare n false l = some w) :
    Written none lock l w.list := by
  induction n generalizing l w with
  | zero => cases h
  | succ n ih =>
    obtain ⟨⟨pre, c, rest⟩, hf, h⟩ := Option.bind_eq_some_iff.mp h
    obtain ⟨w, hc, rfl⟩ := Option.map_eq_some_iff.mp h
    obtain ⟨rfl, hahead, ⟨rfl, hvr, hsr, hafter⟩ | ⟨ov, post, rfl, hm, hcase⟩⟩ :=
      walk_cases hv hlock hs hf
    · cases hc
      exact hahead _ _ (.of_after hvr hsr hafter)
    · refine hahead _ _ (setCase_behind hm (fun w hw => ?_)
        (fun heq e he => hfit heq e (List.mem_append_right _ he)) hcase hc)
      exact ih hm.tail_valid
        (fun heq e he => hfit heq e (List.mem_append_right _ (List.mem_cons_of_mem _ he)))
        hm.tail_sorted hw

/-- The entry takes the type of the lock. -/
theorem setCase_same (hm : Meets lock ov post) (hlock : Valid lock)
    (hstart : ov.oftStart = lock.oftStart) (hend : ov.oftEnd = lock.oftEnd)
    (h : setCase lock spare next true .same (ov :: post) = some w) :
    Written (some lock.usType) lock (ov :: post) w.list := by
  have hr := (hm.valid ov List.mem_cons_self).1
  have hentry (bl : List ℕ) : Written (some lock.usType) lock (ov :: post)
      ({ ov with usType := lock.usType, blockHd := bl } :: post) := by
    have hk : Writes (some lock.usType) lock [{ ov with usType := lock.usType, blockHd := bl }] :=
      .singleton hstart hend rfl hm.pid ⟨hr, hlock.2⟩
    unfold Ranged at hr
    exact hm.whole hk (by omega) (by omega) (hm.reach (by omega))
  rw [setCase, if_pos rfl] at h
  split_ifs at h <;> cases h
  · exact hentry []
  · exact hentry ov.blockHd

/-- The entry is split, unless it has the type of the lock already. -/
theorem setCase_contains (hm : Meets lock ov post) (hlock : Valid lock)
    (hfit : NoWrap lock (ov :: post)) (hcase : overlapCase lock ov = some .contains)
    (h : setCase lock spare next true .contains (ov :: post) = some w) :
    Written (some lock.usType) lock (ov :: post) w.list := by
  have hc : ¬ (ov.oftStart = lock.oftStart ∧ ov.oftEnd = lock.oftEnd) ∧
      ov.oftStart ≤ lock.oftStart ∧ lock.oftEnd ≠ -1 ∧
        (ov.oftEnd ≥ lock.oftEnd ∨ ov.oftEnd = -1) := by
    simpa using overlapCase_cases hcase
  rw [setCase, if_pos rfl] at h
  by_cases htype : ov.usType = lock.usType
  · rw [if_pos htype] at h
    cases h
    rw [← htype]
    exact hm.keep (by omega) (by omega)
  · rw [if_neg htype] at h
    have hfit : lock.oftEnd = offMax → ov.oftEnd ≠ -1 := fun heq hend =>
      htype (hfit heq ov List.mem_cons_self hm.pid hend).2
    by_cases hstart : ov.oftStart = lock.oftStart
    · rw [if_pos hstart] at h
      cases h
      exact hm.keepRight (.link hlock _) hfit (by omega) (by omega) (by omega) _
    · rw [if_neg hstart] at h
      obtain ⟨⟨ov', tail, spare'⟩, hsplit, rfl⟩ := Option.map_eq_some_iff.mp h
      obtain ⟨rfl, ⟨hend, rfl, -⟩ | ⟨n, hend, -, -, rfl⟩⟩ := split_cases hsplit
      · exact hm.keepLeft (k := [_]) (.link hlock _) (by omega) (by simp only at hend; omega)
          (hm.reach (by omega))
      · exact hm.keepBoth (.link hlock _) hfit (by omega) (by omega)
          (by simp only at hend; omega) n

/-- The first overlap of a lock. -/
theorem setCase_written (hm : Meets lock ov post) (hlock : Valid lock)
    (hnext : ∀ w, next post = some w → Written none lock post w.list)
    (hfit : NoWrap lock (ov :: post)) (hcase : overlapCase lock ov = some c)
    (h : setCase lock spare next true c (ov :: post) = some w) :
    Written (some lock.usType) lock (ov :: post) w.list := by
  rcases overlapCase_cases hcase with ⟨rfl, hc⟩ | ⟨rfl, hc⟩ | ⟨rfl, hc⟩ | ⟨rfl, hc⟩ | ⟨rfl, hc⟩
  · exact setCase_same hm hlock hc.1 hc.2 h
  · exact setCase_contains hm hlock hfit hcase h
  · obtain ⟨w, hw, rfl⟩ := Option.map_eq_some_iff.mp h
    have hlist (bl : List ℕ) : Written (some lock.usType) lock (ov :: post)
        ({ lock with blockHd := bl } :: w.list) :=
      hm.whole (.link hlock bl) (by omega) (by omega) (hnext w hw)
    rw [linkIf_true]
    by_cases hdown : downgrades lock ov
    · rw [if_pos hdown]
      exact hlist _
    · rw [if_neg hdown]
      exact hlist _
  · rw [setCase, if_pos rfl] at h
    obtain ⟨w, hw, rfl⟩ := Option.map_eq_some_iff.mp h
    exact hm.keepLeft (k := [_]) (.link hlock _) (by omega) (by omega) (hnext w hw)
  · cases h
    have hfit : lock.oftEnd = offMax → ov.oftEnd ≠ -1 := fun heq hend => by
      have := (hfit heq ov List.mem_cons_self hm.pid hend).1
      omega
    exact hm.keepRight (.link hlock _) hfit (by omega) (by omega) (by omega) _

/-- The walk of a lock that nothing blocks. -/
theorem linkLock_written (hv : ∀ e ∈ l, Valid e) (hlock : Valid lock) (hfit : NoWrap lock l)
    (hs : Sorted bytes (own lock.pid l)) (h : linkLock lock spare l = some w) :
    Written (some lock.usType) lock l w.list := by
  obtain ⟨⟨pre, c, rest⟩, hf, h⟩ := Option.bind_eq_some_iff.mp h
  obtain ⟨w, hc, rfl⟩ := Option.map_eq_some_iff.mp h
  obtain ⟨rfl, hahead, ⟨rfl, hvr, hsr, hafter⟩ | ⟨ov, post, rfl, hm, hcase⟩⟩ :=
    walk_cases hv hlock.1 hs hf
  · cases hc
    refine hahead _ _ ⟨fun e he => ?_, fun p hp => own_cons_other hp.symm, ?_⟩
    · rcases List.mem_cons.mp he with rfl | he
      · exact hlock
      · exact hvr e he
    · change Cut _ _ _ _ _ (own lock.pid ({ lock with blockHd := _ } :: rest))
      rw [own_cons_self (by rfl)]
      exact (Writes.link hlock _).cut.append_right hsr hafter
  · have hfr : NoWrap lock (ov :: post) := fun heq e he => hfit heq e (List.mem_append_right _ he)
    have hfp : NoWrap lock post := fun heq e he => hfr heq e (List.mem_cons_of_mem _ he)
    exact hahead _ _ (setCase_written hm hlock (fun w hw => setLoop_behind hm.tail_valid hlock.1
      (hfp.fits fun e he hep => hm.start_behind he hep) hm.tail_sorted hw) hfr hcase hc)

end setLoop

end SylixOS.IoLib
