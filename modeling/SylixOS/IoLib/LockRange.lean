import SylixOS.IoLib.LockSafe
import Mathlib.Order.Interval.Set.Basic

/-! # The ranges that record locks are asked for

A request names a place and a length. With a positive length it means the bytes from the place on, with a
negative one those before it, and with none everything up to the end of the file. What the code makes of
this is compared with it, one request at a time and over runs.
-/

namespace SylixOS.IoLib
open Lib FdNode

/-- A value of an `off_t`. -/
def IsOff (x : ℤ) : Prop := -2 ^ 63 ≤ x ∧ x ≤ offMax

instance (x : ℤ) : Decidable (IsOff x) := inferInstanceAs (Decidable (_ ∧ _))

/-- A request with the position and the size of the file. -/
structure Ask where
  pid : ℤ
  fl : Flock
  oftPtr : ℤ
  oftSize : ℤ

namespace Ask

/-- The place of a request, as an integer without limits. -/
def place (a : Ask) : ℤ :=
  match a.fl.l_whence with
  | .set | .other => a.fl.l_start
  | .cur => a.fl.l_start + a.oftPtr
  | .end_ => a.oftSize + a.fl.l_start

/-- The bytes that a request asks for. -/
def range (a : Ask) : Set ℤ :=
  if a.fl.l_len = 0 then Set.Ici a.place
  else if 0 < a.fl.l_len then Set.Ico a.place (a.place + a.fl.l_len)
  else Set.Ico (a.place + a.fl.l_len) a.place

/-- Its numbers are those of an `off_t`. -/
structure Typed (a : Ask) : Prop where
  start : IsOff a.fl.l_start
  len : IsOff a.fl.l_len
  ptr : IsOff a.oftPtr
  size : IsOff a.oftSize

/-- The node that `__fdLockfAdvLock` fills in with what `_FdLockfIoctl` hands to it. -/
def node (a : Ask) (cmd : LockCmd) (n : ℕ) (iFlags : LockFlags) : Option FdLockf :=
  request n a.pid (ioctlArgs cmd a.fl a.oftPtr).2.1 a.oftSize iFlags

/-- A request is rejected, or its node has the bytes that it asks for. -/
def Works (a : Ask) : Prop :=
  ∀ cmd n iFlags lock, a.node cmd n iFlags = some lock → bytes lock = a.range

/-- The place is before the start of the file, or behind the largest offset, or the length is not negative
and the last byte is not behind the largest offset. The place does not come round from below. -/
def RangeOk (a : Ask) : Prop :=
  a.fl.l_whence = .other ∨ offMax < a.place ∨
    -2 ^ 63 ≤ a.place ∧ (a.place < 0 ∨ 0 ≤ a.fl.l_len ∧ a.place + a.fl.l_len - 1 ≤ offMax)

instance (a : Ask) : Decidable a.RangeOk := inferInstanceAs (Decidable (_ ∨ _))

end Ask

/-- The request of a section that begins one to lock or to unlock. -/
def asks : FdNode.Op → List Ask
  | .ioctl cur cmd fl oftPtr oftSize _ =>
    if cmd = .getlk then [] else [⟨cur, fl, oftPtr, oftSize⟩]
  | .proc pid cur iType nb oftSize _ =>
    [⟨if pid < 0 then cur else pid, (procArgs iType nb pid).2.1, 0, oftSize⟩]
  | _ => []

/-- One section, with the requests that were made so far. -/
def askStep (s : FdNode × List Ask) (op : FdNode.Op) : Option (FdNode × List Ask) :=
  (s.1.step op).map fun s' => (s', s.2 ++ asks op)

/-! ## One request -/

section Range
variable {a : Ask} {cmd : LockCmd} {n : ℕ} {lock : FdLockf}

/-- The node of a request, with the place and the end as an `off_t`. -/
theorem node_eq (a : Ask) (cmd : LockCmd) (n : ℕ) (iFlags : LockFlags) :
    a.node cmd n iFlags = if a.fl.l_whence = .other ∨ off a.place < 0 then none else
      some ⟨n, n, off a.place, if a.fl.l_len = 0 then -1 else off (off a.place + a.fl.l_len - 1),
        a.fl.l_type, iFlags, a.pid, []⟩ := by
  have hoff (x : ℤ) : off (off x) = off x := Int.bmod_bmod
  obtain ⟨pid, ⟨l_type, l_whence, l_start, l_len, l_pid⟩, oftPtr, oftSize⟩ := a
  unfold Ask.node request convert ioctlArgs Ask.place
  cases l_whence with
  | other => simp
  | _ =>
    simp only [reduceCtorEq, if_true, if_false, Option.bind_some, false_or, hoff]
    split_ifs <;> rfl

theorem off_congr {x y : ℤ} (h : x % 2 ^ 64 = y % 2 ^ 64) : off x = off y := by
  rw [off, off, ← Int.emod_bmod x, ← Int.emod_bmod y]
  exact congrArg (Int.bmod · (2 ^ 64)) h

theorem off_above {x : ℤ} (h : offMax < x) (h' : x ≤ 2 * offMax + 1) : off x = x - 2 ^ 64 := by
  unfold offMax at h h'
  rw [off_congr (y := x - 2 ^ 64) (by omega), off_of (by omega) (by unfold offMax; omega)]

theorem off_below {x : ℤ} (h : x < -2 ^ 63) (h' : -2 ^ 64 ≤ x) : off x = x + 2 ^ 64 := by
  rw [off_congr (y := x + 2 ^ 64) (by omega), off_of (by omega) (by unfold offMax; omega)]

theorem Ask.Typed.place (ha : a.Typed) : -2 ^ 64 ≤ a.place ∧ a.place ≤ 2 * offMax := by
  obtain ⟨⟨hs, hs'⟩, -, ⟨hp, hp'⟩, ⟨hz, hz'⟩⟩ := ha
  unfold offMax at *
  unfold Ask.place
  cases a.fl.l_whence <;> dsimp only <;> omega

/-- The end that the code computes. -/
def Ask.stop (a : Ask) : ℤ := if a.fl.l_len = 0 then -1 else off (off a.place + a.fl.l_len - 1)

theorem works_iff_range : a.Works ↔ a.fl.l_whence = .other ∨ off a.place < 0 ∨
    {x | off a.place ≤ x ∧ (a.stop = -1 ∨ x ≤ a.stop)} = a.range := by
  unfold Ask.Works
  simp only [node_eq]
  by_cases h : a.fl.l_whence = .other ∨ off a.place < 0
  · simp only [if_pos h]
    refine iff_of_true (fun cmd n iFlags lock hlock => ?_) (or_assoc.mp (.inl h))
    cases hlock
  · rw [← or_assoc, or_iff_right h]
    simp only [if_neg h, Option.some.injEq]
    constructor
    · intro hw
      exact hw .setlk 0 ⟨false, false, true, false⟩ _ rfl
    · rintro hw cmd n iFlags lock rfl
      exact hw

/-- A byte that is asked for. -/
theorem mem_range : (if a.fl.l_len < 0 then a.place - 1 else a.place) ∈ a.range := by
  unfold Ask.range
  by_cases hzero : a.fl.l_len = 0
  · rw [if_pos hzero, if_neg (by omega)]
    exact Set.self_mem_Ici
  · rw [if_neg hzero]
    by_cases hpos : 0 < a.fl.l_len
    · rw [if_pos hpos, if_neg (by omega)]
      exact ⟨le_rfl, by omega⟩
    · rw [if_neg hpos, if_pos (by omega)]
      exact ⟨by omega, by omega⟩

/-- A place that an offset can hold is taken as it is. -/
theorem range_iff (ha : a.Typed) (h : 0 ≤ a.place) (h' : a.place ≤ offMax) :
    {x | a.place ≤ x ∧ (a.stop = -1 ∨ x ≤ a.stop)} = a.range ↔
      0 ≤ a.fl.l_len ∧ a.place + a.fl.l_len - 1 ≤ offMax := by
  have hoff : off a.place = a.place := off_of (by omega) h'
  have hlen := ha.len
  unfold IsOff at hlen
  rcases lt_trichotomy a.fl.l_len 0 with hneg | hzero | hpos
  · -- Bytes before the place.
    refine iff_of_false (fun heq => ?_) (by omega)
    have hmem := mem_range (a := a)
    rw [if_pos hneg, ← heq] at hmem
    have := hmem.1
    omega
  · refine iff_of_true ?_ (by omega)
    ext x
    rw [Ask.stop, Ask.range, if_pos hzero, if_pos hzero]
    simp
  · have hrange : a.range = Set.Ico a.place (a.place + a.fl.l_len) := by
      rw [Ask.range, if_neg (by omega), if_pos hpos]
    have hstop : a.stop = off (a.place + a.fl.l_len - 1) := by
      rw [Ask.stop, if_neg (by omega), hoff]
    by_cases hend : a.place + a.fl.l_len - 1 ≤ offMax
    · refine iff_of_true ?_ ⟨hpos.le, hend⟩
      rw [hstop, off_of (by omega) hend, hrange]
      ext x
      simp only [Set.mem_ofPred_eq, Set.mem_Ico]
      omega
    · refine iff_of_false (fun heq => ?_) (by omega)
      rw [hstop, off_above (by omega) (by omega), hrange] at heq
      have hmem : a.place ∈ Set.Ico a.place (a.place + a.fl.l_len) := ⟨le_rfl, by omega⟩
      rw [← heq] at hmem
      obtain ⟨-, hmem⟩ := hmem
      unfold offMax at h' hlen
      omega

/-- A request is taken as it is meant, or rejected, exactly if its range is one of offsets. -/
theorem works_iff (ha : a.Typed) : a.Works ↔ a.RangeOk := by
  obtain ⟨hlow, hhigh⟩ := ha.place
  rw [works_iff_range, Ask.RangeOk]
  refine or_congr_right ?_
  rcases lt_or_ge offMax a.place with habove | hmax
  · have hneg : off a.place < 0 := by
      rw [off_above habove (by omega)]
      unfold offMax at hhigh
      omega
    exact iff_of_true (.inl hneg) (.inl habove)
  rcases lt_or_ge a.place (-2 ^ 63) with hbelow | hmin
  · -- The place comes round to a positive one.
    rw [off_below hbelow hlow]
    refine iff_of_false ?_ (by omega)
    rintro (hneg | heq)
    · omega
    · have hmem := mem_range (a := a)
      rw [← heq] at hmem
      have := hmem.1
      split_ifs at this <;> omega
  rw [off_of hmin hmax]
  rcases lt_or_ge a.place 0 with hneg | hpos
  · exact iff_of_true (.inl hneg) (.inr ⟨hmin, .inl hneg⟩)
  · rw [range_iff ha hpos hmax]
    omega

end Range

/-! ## Runs -/

/-- A request is in range, and does not meet the entry that would be cut behind the largest offset. -/
def RangeStepOk (s : FdNode × List Ask) (op : FdNode.Op) : Prop :=
  (∀ a ∈ asks op, a.Typed ∧ a.RangeOk) ∧ NoTrim s.1 op

/-- The node is one of a request that was made. -/
def FromAsk (asked : List Ask) (lock : FdLockf) : Prop :=
  ∃ a ∈ asked, a.pid = lock.pid ∧ a.fl.l_type = lock.usType ∧ a.range = bytes lock

/-- The nodes on record and those that wait have the property. -/
structure Filed (P : FdLockf → Prop) (s : FdNode) : Prop where
  log : ∀ g ∈ s.log, P g.1 ∧ ∀ t, g.2 = some t → t = g.1.usType
  calls : ∀ c ∈ s.calls, P c.lock

namespace Filed
variable {P Q : FdLockf → Prop} {s s' : FdNode} {lock blk : FdLockf} {spare : Option ℕ} {res : Res}
  {w : Walk} {a i : ℕ} {r : Option LockType}

theorem mono (h : Filed P s) (hPQ : ∀ lock, P lock → Q lock) : Filed Q s :=
  ⟨fun g hg => (h.log g hg).imp_left (hPQ _), fun c hc => hPQ _ (h.calls c hc)⟩

theorem record (h : Filed P s) (hlock : P lock) (hr : ∀ t, r = some t → t = lock.usType) :
    Filed P ((s.settle a w).record lock r) where
  log g hg := by
    rcases List.mem_cons.mp hg with rfl | hg
    · exact ⟨hlock, hr⟩
    · exact h.log g hg
  calls := settle_calls (P := fun c => P c.lock) (fun _ _ _ h => h) h.calls

theorem block (h : Filed P s) (hlock : P lock) : Filed P (s.block lock blk spare) where
  log := h.log
  calls c hc := by
    rcases List.mem_append.mp hc with hc | hc
    · exact h.calls c hc
    · cases List.mem_singleton.mp hc
      exact hlock

theorem setLock (h : Filed P s) (hlock : P lock) (hs : s.setLock lock spare = some (s', res)) :
    Filed P s' := by
  obtain ⟨o, -, hs⟩ := Option.bind_eq_some_iff.mp hs
  cases o with
  | some blk =>
    simp only at hs
    split_ifs at hs
    · cases hs
      exact ⟨h.log, h.calls⟩
    · cases hs
      exact ⟨h.log, h.calls⟩
    · obtain ⟨w, -, heq⟩ := Option.map_eq_some_iff.mp hs
      cases heq
      exact (h.record (r := none) hlock nofun).block hlock
    · cases hs
      exact h.block hlock
  | none =>
    obtain ⟨w, -, heq⟩ := Option.map_eq_some_iff.mp hs
    cases heq
    have := h.record (a := lock.addr) (w := w) hlock (r := some lock.usType) (by simp)
    exact ⟨this.log, this.calls⟩

theorem advLock {pid cur oftSize : ℤ} {iOp : LockOp} {fl fl' : Flock} {iFlags : LockFlags} {mem : Bool}
    (h : Filed P s)
    (hlock : ∀ lock, request (s.made + 1) (if pid < 0 then cur else pid) fl oftSize iFlags = some lock →
      iOp ≠ .getlk → mem = true → P lock)
    (hs : s.advLock pid cur iOp fl oftSize iFlags mem = some (s', res, fl')) : Filed P s' := by
  by_cases hget : iOp = .getlk
  · subst hget
    unfold FdNode.advLock at hs
    simp only at hs
    split at hs
    · cases hs
      exact h
    · split_ifs at hs
      · cases hs
        exact h
      · cases hs
        exact ⟨h.log, h.calls⟩
      · obtain ⟨b, -, heq⟩ := Option.map_eq_some_iff.mp hs
        cases heq
        exact ⟨h.log, h.calls⟩
  · unfold FdNode.advLock at hs
    simp only [if_neg hget, Option.toList_some, List.length_singleton] at hs
    cases hreq : request (s.made + 1) (if pid < 0 then cur else pid) fl oftSize iFlags with
    | none =>
      rw [hreq] at hs
      cases hs
      exact h
    | some lock =>
      rw [hreq] at hs
      simp only at hs
      have hmade : Filed P { s with made := s.made + 1 + 1 } := ⟨h.log, h.calls⟩
      split_ifs at hs with hmem
      · cases hs
        exact h
      · cases hs
        exact ⟨h.log, h.calls⟩
      · have hnode := hlock lock hreq hget (by simpa using hmem)
        clear hlock
        cases iOp with
        | getlk => exact absurd rfl hget
        | setlk =>
          obtain ⟨⟨s₁, res₁⟩, hset, heq⟩ := Option.map_eq_some_iff.mp hs
          cases heq
          exact hmade.setLock hnode hset
        | unlck =>
          obtain ⟨w, hw, heq⟩ := Option.map_eq_some_iff.mp hs
          cases heq
          have := hmade.record (a := s.made + 1) (w := w) (r := none) hnode nofun
          exact ⟨this.log, this.calls⟩

theorem set (h : Filed P s) {c : Call} (hc : s.calls[i]? = some c) (p : Bool) (ph : Phase) :
    Filed P { s with calls := s.calls.set i { c with posted := p, phase := ph } } where
  log := h.log
  calls d hd := by
    rcases List.mem_or_eq_of_mem_set hd with hd | rfl
    · exact h.calls d hd
    · exact h.calls c (List.mem_of_getElem? hc)

theorem erase (h : Filed P s) : Filed P { s with calls := s.calls.eraseIdx i } :=
  ⟨h.log, fun c hc => h.calls c (List.mem_of_mem_eraseIdx hc)⟩

theorem resume (h : Filed P s) (hs : s.resume i = some s') : Filed P s' := by
  obtain ⟨c, hc, hs⟩ := Option.bind_eq_some_iff.mp hs
  split_ifs at hs
  · cases hs
    exact h.set hc c.posted _
  · cases hs
    exact h.set hc false _

theorem again (h : Filed P s) (hs : s.again i = some (s', res)) : Filed P s' := by
  obtain ⟨c, hc, hs⟩ := Option.bind_eq_some_iff.mp hs
  have hlock := h.calls c (List.mem_of_getElem? hc)
  have her := h.erase (i := i)
  cases hph : c.phase with
  | waiting =>
    rw [hph] at hs
    cases hs
  | lost =>
    rw [hph] at hs
    cases hs
  | resumed err =>
    rw [hph] at hs
    simp only at hs
    split_ifs at hs
    · cases hs
      exact ⟨her.log, her.calls⟩
    · cases hs
      cases c.blocker with
      | none => exact ⟨her.log, her.calls⟩
      | some blk => exact ⟨her.log, her.calls⟩
    · cases hb : c.blocker with
      | none =>
        rw [hb] at hs
        exact her.setLock hlock hs
      | some blk =>
        rw [hb] at hs
        have hun : Filed P (FdNode.unblock { s with calls := s.calls.eraseIdx i } c.lock.addr blk) :=
          ⟨her.log, her.calls⟩
        exact hun.setLock hlock hs

theorem kill (h : Filed P s) (hs : s.kill i = some s') : Filed P s' := by
  obtain ⟨c, hc, hs⟩ := Option.bind_eq_some_iff.mp hs
  have her := h.erase (i := i)
  cases hph : c.phase with
  | lost =>
    rw [hph] at hs
    cases hs
  | resumed err =>
    rw [hph] at hs
    cases hs
    exact h.set hc c.posted _
  | waiting =>
    rw [hph] at hs
    cases hs
    cases c.blocker with
    | none => exact ⟨her.log, her.calls⟩
    | some blk =>
      simp only
      split_ifs
      · exact ⟨her.log, her.calls⟩
      · exact ⟨her.log, her.calls⟩

theorem clearFdNode (h : Filed P s)
    (hP : ∀ lock iFlags bl, P lock → P { lock with usFlags := iFlags, blockHd := bl }) :
    Filed P s.clearFdNode where
  log _ hg := by cases hg
  calls c hc := by
    obtain ⟨c', hc', rfl⟩ := List.mem_map.mp hc
    have hlock : P c'.lock := settle_calls (P := fun c => P c.lock) (fun _ _ _ h => h) h.calls c' hc'
    unfold abort
    split_ifs
    · exact hP _ _ _ hlock
    · exact hlock

end Filed

section Runs
variable {asked : List Ask} {a : Ask} {s s' : FdNode} {op : FdNode.Op} {lock : FdLockf} {cmd : LockCmd}
  {n : ℕ} {iFlags : LockFlags}

theorem FromAsk.mono {asked' : List Ask} (h : FromAsk asked lock) : FromAsk (asked ++ asked') lock :=
  h.imp fun _ h => h.imp_left fun ha => List.mem_append_left asked' ha

theorem fromAsk_of_node (cmd : LockCmd) (hw : a.Works) (h : a.node cmd n iFlags = some lock)
    (ha : a ∈ asked) : FromAsk asked lock := by
  have hbytes := hw cmd n iFlags lock h
  rw [node_eq] at h
  split_ifs at h
  all_goals
    cases h
    exact ⟨a, ha, rfl, rfl, hbytes.symm⟩

/-- The node with which a section changes the list is that of a request. -/
theorem lockOf_fromAsk (h : Filed (FromAsk asked) s) (hok : ∀ a ∈ asks op, a.Typed ∧ a.RangeOk)
    (hlock : s.lockOf op = some lock) : FromAsk (asked ++ asks op) lock := by
  cases op with
  | ioctl cur cmd fl oftPtr oftSize mem =>
    simp only [lockOf] at hlock
    split_ifs at hlock with hget
    have hcmd : cmd ≠ .getlk := by
      rintro rfl
      exact hget (.inl rfl)
    rw [asks, if_neg hcmd] at hok ⊢
    have ha := hok _ List.mem_cons_self
    exact fromAsk_of_node cmd ((works_iff ha.1).mpr ha.2) hlock
      (List.mem_append_right _ List.mem_cons_self)
  | proc pid cur iType nb oftSize mem =>
    obtain ⟨-, hlock⟩ := Option.ite_none_left_eq_some.mp hlock
    have ha := hok _ List.mem_cons_self
    exact fromAsk_of_node .setlk ((works_iff ha.1).mpr ha.2) hlock
      (List.mem_append_right _ List.mem_cons_self)
  | again i =>
    obtain ⟨c, hc, hlock⟩ := Option.bind_eq_some_iff.mp hlock
    split_ifs at hlock
    cases hlock
    exact (h.calls c (List.mem_of_getElem? hc)).mono
  | _ => cases hlock

theorem Filed.step (h : Filed (FromAsk asked) s) (hok : ∀ a ∈ asks op, a.Typed ∧ a.RangeOk)
    (hs : s.step op = some s') : Filed (FromAsk (asked ++ asks op)) s' := by
  have hmono : Filed (FromAsk (asked ++ asks op)) s := h.mono fun _ hl => hl.mono
  cases op with
  | ioctl cur cmd fl oftPtr oftSize mem =>
    obtain ⟨⟨s₁, res, fl'⟩, hadv, rfl⟩ := Option.map_eq_some_iff.mp (Inv.of_not_gone hs)
    exact hmono.advLock (fun lock hreq hget hmem =>
      lockOf_fromAsk h hok (Inv.lockOf_ioctl hget hmem hreq)) hadv
  | proc pid cur iType nb oftSize mem =>
    obtain ⟨⟨s₁, res, fl'⟩, hadv, rfl⟩ := Option.map_eq_some_iff.mp (Inv.of_not_gone hs)
    exact hmono.advLock (fun lock hreq _ hmem =>
      lockOf_fromAsk h hok (Inv.lockOf_proc hmem hreq)) hadv
  | resume i => exact hmono.resume hs
  | again i =>
    obtain ⟨⟨s₁, res⟩, hagain, rfl⟩ := Option.map_eq_some_iff.mp hs
    exact hmono.again hagain
  | kill i => exact hmono.kill hs
  | clearFdNode =>
    cases Inv.of_not_gone hs
    exact hmono.clearFdNode fun _ _ _ hl => hl

/-- The range of a request is in order. -/
theorem FromAsk.inRange (h : FromAsk asked lock) : lock.oftEnd = -1 ∨ lock.oftStart ≤ lock.oftEnd := by
  obtain ⟨a, -, -, -, hrange⟩ := h
  have hmem := mem_range (a := a)
  rw [hrange, mem_bytes] at hmem
  omega

/-- What every section keeps. -/
structure Asked (s : FdNode × List Ask) : Prop where
  inv : s.1.Inv
  filed : Filed (FromAsk s.2) s.1
  typed : ∀ a ∈ s.2, a.Typed

theorem asked_start : Asked (FdNode.start, []) :=
  ⟨inv_start, ⟨by simp [FdNode.start], by simp [FdNode.start]⟩, by simp⟩

theorem Asked.step {s s' : FdNode × List Ask} (h : Asked s) (hok : RangeStepOk s op)
    (hs : askStep s op = some s') : Asked s' := by
  obtain ⟨s₁, hstep, rfl⟩ := Option.map_eq_some_iff.mp hs
  have hin : InRange s.1 op := fun lock hlock => (lockOf_fromAsk h.filed hok.1 hlock).inRange
  refine ⟨h.inv.step ⟨hin, hok.2⟩ hstep, h.filed.step hok.1 hstep, fun a ha => ?_⟩
  rcases List.mem_append.mp ha with ha | ha
  · exact h.typed a ha
  · exact (hok.1 a ha).1

theorem lastType_some {log : List (FdLockf × Option LockType)} {p x : ℤ} {t : LockType}
    (h : lastType log p x = some t) : ∃ g ∈ log, g.1.pid = p ∧ g.1.covers x ∧ g.2 = some t := by
  obtain ⟨g, hg, ht⟩ := Option.bind_eq_some_iff.mp h
  have hp := List.find?_some hg
  rw [decide_eq_true_eq] at hp
  exact ⟨g, List.mem_of_find?_eq_some hg, hp.1, hp.2, ht⟩

/-- What an entry covers was asked for with its type. -/
theorem Asked.entry {s : FdNode × List Ask} (h : Asked s) {e : FdLockf} (he : e ∈ s.1.head) {x : ℤ}
    (hx : e.covers x) : ∃ a ∈ s.2, a.pid = e.pid ∧ a.fl.l_type = e.usType ∧ x ∈ a.range := by
  obtain ⟨g, hg, hpid, hgx, ht⟩ :=
    lastType_some ((h.inv.safe.denotes e.pid x e.usType).mpr ⟨e, he, rfl, hx, rfl⟩)
  obtain ⟨⟨a, ha, hap, hat, hrange⟩, htype⟩ := h.filed.log g hg
  refine ⟨a, ha, hap.trans hpid, hat.trans (htype _ ht).symm, ?_⟩
  rw [hrange]
  exact hgx

/-- A byte that no length reaches is one of a request without a length. -/
theorem Ask.Typed.len_of_mem (ha : a.Typed) {x : ℤ} (hx : x ∈ a.range) (hfar : 4 * offMax ≤ x) :
    a.fl.l_len = 0 := by
  have hplace := ha.place
  have hlen := ha.len
  unfold IsOff at hlen
  unfold offMax at *
  by_contra hne
  rw [Ask.range, if_neg hne] at hx
  split_ifs at hx
  · have := hx.2
    omega
  · have := hx.2
    omega

/-- A request is taken as POSIX has it, or rejected, exactly if its range is one of offsets. In every run
whose requests are, and do not meet an entry that would be cut behind the largest offset, no entry ends
before its start, and all that is locked was asked for, up to the end of the file by a request without a
length. -/
theorem advLock_range {s : FdNode × List Ask}
    (hs : Reach askStep RangeStepOk (· = (FdNode.start, [])) s) :
    (∀ a : Ask, a.Typed → (a.Works ↔ a.RangeOk)) ∧ ∀ e ∈ s.1.head,
      (e.oftEnd = -1 ∨ e.oftStart ≤ e.oftEnd) ∧
      (∀ x, e.covers x → ∃ a ∈ s.2, a.pid = e.pid ∧ a.fl.l_type = e.usType ∧ x ∈ a.range) ∧
      (e.oftEnd = -1 → ∃ a ∈ s.2, a.pid = e.pid ∧ a.fl.l_type = e.usType ∧ a.fl.l_len = 0) := by
  refine ⟨fun a ha => works_iff ha, fun e he => ?_⟩
  have h : Asked s := hs.invariant
    (fun s hs => by rw [hs]; exact asked_start) fun _ _ _ h hok hs => h.step hok hs
  obtain ⟨⟨hstart, hmax, -, hend⟩, -⟩ := h.inv.holds.valid e he
  refine ⟨hend, fun x hx => h.entry he hx, fun heof => ?_⟩
  have hcovers : e.covers (4 * offMax) := by
    refine ⟨?_, .inl heof⟩
    unfold offMax at hmax ⊢
    omega
  obtain ⟨a, ha, hpid, htype, hx⟩ := h.entry he hcovers
  exact ⟨a, ha, hpid, htype, (h.typed a ha).len_of_mem hx le_rfl⟩

theorem rangeStepOk_of {s : FdNode × List Ask} (lock : FdLockf) (hasks : asks op = [a])
    (ha : a.Typed ∧ a.RangeOk) (hlock : s.1.lockOf op = some lock) (hmax : lock.oftEnd ≠ offMax) :
    RangeStepOk s op := by
  refine ⟨fun a' ha' => ?_, fun lock' h' => .inr fun heq => ?_⟩
  · rw [hasks] at ha'
    rwa [List.mem_singleton.mp ha']
  · rw [hlock] at h'
    cases h'
    exact absurd heq hmax

/-- One process locks ten bytes from before its position on, another all behind the end of the file. -/
theorem advLock_range_two : (⟨1, ⟨.wrlck, .cur, -2, 10, 0⟩, 12, 100⟩ : Ask).Works ∧
    ∃ s, Reach askStep RangeStepOk (· = (FdNode.start, [])) s ∧
      s.1.head.map (fun e => (e.oftStart, e.oftEnd)) = [(10, 19), (100, -1)] ∧
      ∀ e ∈ s.1.head, e.oftEnd = -1 →
        ∃ a ∈ s.2, a.pid = e.pid ∧ a.fl.l_type = e.usType ∧ a.fl.l_len = 0 := by
  let fl : LockFlags := ⟨false, false, true, false⟩
  let a₁ : Ask := ⟨1, ⟨.wrlck, .cur, -2, 10, 0⟩, 12, 100⟩
  let a₂ : Ask := ⟨2, ⟨.rdlck, .end_, 0, 0, 0⟩, 0, 100⟩
  let e₁ : FdLockf := ⟨1, 1, 10, 19, .wrlck, fl, 1, []⟩
  let e₂ : FdLockf := ⟨3, 3, 100, -1, .rdlck, fl, 2, []⟩
  let s₁ : FdNode := ⟨[e₁], [], false, [], 2, [0], [(e₁, some .wrlck)]⟩
  let s₂ : FdNode := ⟨[e₁, e₂], [], false, [], 4, [0, 2], [(e₂, some .rdlck), (e₁, some .wrlck)]⟩
  have ha₁ : a₁.Typed ∧ a₁.RangeOk := by
    refine ⟨⟨?_, ?_, ?_, ?_⟩, .inr (.inr ?_)⟩ <;> decide
  have ha₂ : a₂.Typed ∧ a₂.RangeOk := by
    refine ⟨⟨?_, ?_, ?_, ?_⟩, .inr (.inr ?_)⟩ <;> decide
  have h₀ : Reach askStep RangeStepOk (· = (FdNode.start, [])) (FdNode.start, []) := .start rfl
  have h₁ : Reach askStep RangeStepOk (· = (FdNode.start, [])) (s₁, [a₁]) :=
    h₀.extend (.ioctl 1 .setlk a₁.fl 12 100 true) (rangeStepOk_of e₁ rfl ha₁ rfl (by decide)) rfl
  have h₂ : Reach askStep RangeStepOk (· = (FdNode.start, [])) (s₂, [a₁, a₂]) :=
    h₁.extend (.ioctl 2 .setlk a₂.fl 0 100 true) (rangeStepOk_of e₂ rfl ha₂ rfl (by decide)) rfl
  have hrange := advLock_range h₂
  exact ⟨(hrange.1 a₁ ha₁.1).mpr ha₁.2, _, h₂, rfl, fun e he => (hrange.2 e he).2.2⟩

/-- The five bytes before byte 20 are taken for a range that ends before it starts, and the ten before
byte 10 for all from there on. -/
theorem not_advLock_range : ∃ s, Reach askStep (fun _ op => ∀ a ∈ asks op, a.Typed)
    (· = (FdNode.start, [])) s ∧ (∀ a ∈ s.2, ¬ a.Works ∧ a.fl.l_len ≠ 0) ∧
      (∃ e ∈ s.1.head, e.oftEnd ≠ -1 ∧ e.oftEnd < e.oftStart) ∧ ∃ e ∈ s.1.head, e.oftEnd = -1 := by
  let fl : LockFlags := ⟨false, false, true, false⟩
  let a₁ : Ask := ⟨1, ⟨.rdlck, .set, 20, -5, 0⟩, 0, 0⟩
  let a₂ : Ask := ⟨2, ⟨.rdlck, .set, 10, -10, 0⟩, 0, 0⟩
  let e₁ : FdLockf := ⟨1, 1, 20, 14, .rdlck, fl, 1, []⟩
  let e₂ : FdLockf := ⟨3, 3, 10, -1, .rdlck, fl, 2, []⟩
  let s₁ : FdNode := ⟨[e₁], [], false, [], 2, [0], [(e₁, some .rdlck)]⟩
  let s₂ : FdNode := ⟨[e₁, e₂], [], false, [], 4, [0, 2], [(e₂, some .rdlck), (e₁, some .rdlck)]⟩
  have ha₁ : a₁.Typed := by
    constructor <;> decide
  have ha₂ : a₂.Typed := by
    constructor <;> decide
  have h₀ : Reach askStep (fun _ op => ∀ a ∈ asks op, a.Typed) (· = (FdNode.start, []))
      (FdNode.start, []) := .start rfl
  have h₁ : Reach askStep (fun _ op => ∀ a ∈ asks op, a.Typed) (· = (FdNode.start, [])) (s₁, [a₁]) :=
    h₀.extend (.ioctl 1 .setlk a₁.fl 0 0 true)
      (fun a ha => by rwa [List.mem_singleton.mp (show a ∈ [a₁] from ha)]) rfl
  have h₂ : Reach askStep (fun _ op => ∀ a ∈ asks op, a.Typed) (· = (FdNode.start, []))
      (s₂, [a₁, a₂]) :=
    h₁.extend (.ioctl 2 .setlk a₂.fl 0 0 true)
      (fun a ha => by rwa [List.mem_singleton.mp (show a ∈ [a₂] from ha)]) rfl
  refine ⟨_, h₂, fun a ha => ?_, ⟨e₁, List.mem_cons_self, by decide, by decide⟩,
    ⟨e₂, List.mem_cons_of_mem _ List.mem_cons_self, rfl⟩⟩
  rcases List.mem_pair.mp (show a ∈ [a₁, a₂] from ha) with rfl | rfl
  · exact ⟨fun hw => absurd ((works_iff ha₁).mp hw) (by decide), by decide⟩
  · exact ⟨fun hw => absurd ((works_iff ha₂).mp hw) (by decide), by decide⟩

end Runs

end SylixOS.IoLib
