import SylixOS.IoLib.FdNode
import SylixOS.IoLib.LockBlock
import SylixOS.Lib.Reach

/-! # The record locks refine a table

Whatever the processes ask for and in whichever order, the list says for each process and byte what
the last request says that was carried out there. No two processes hold a byte that one of them has
for itself, and a test finds out whether a lock would be granted.
-/

namespace SylixOS.IoLib
open Lib Lib.RangeTable

/-- The list says what the log says, and no lock conflicts with another. -/
structure Holds (head : List FdLockf) (log : List (FdLockf × Option LockType)) : Prop where
  valid : ∀ e ∈ head, Valid e
  sorted : ∀ p, Sorted bytes (own p head)
  table : ∀ p x t, lastType log p x = some t ↔ Has bytes FdLockf.usType (own p head) x t
  compat : ∀ p q x t, p ≠ q → lastType log p x = some .wrlck → lastType log q x ≠ some t

variable {head head' l l' : List FdLockf} {log : List (FdLockf × Option LockType)} {p x : ℤ}
  {lock e : FdLockf} {r t : Option LockType} {f : FdLockf → FdLockf} {w : Walk} {spare : Option ℕ}

theorem lastType_cons : lastType ((lock, r) :: log) p x =
    if lock.pid = p ∧ lock.covers x then r else lastType log p x := by
  unfold lastType
  by_cases h : lock.pid = p ∧ lock.covers x
  · rw [List.find?_cons_of_pos (by simpa using h), if_pos h]
    rfl
  · rw [List.find?_cons_of_neg (by simpa using h), if_neg h]

theorem has_own {t : LockType} : Has bytes FdLockf.usType (own p l) x t ↔
    ∃ e ∈ l, e.pid = p ∧ e.covers x ∧ e.usType = t := by
  constructor
  · rintro ⟨e, he, hx, ht⟩
    obtain ⟨he, hp⟩ := mem_own.mp he
    exact ⟨e, he, hp, hx, ht⟩
  · rintro ⟨e, he, hp, hx, ht⟩
    exact ⟨e, mem_own.mpr ⟨he, hp⟩, hx, ht⟩

/-- Requests that share a byte with an entry meet it. -/
theorem not_apart (hx : lock.covers x) (hy : e.covers x) : ¬ apart lock e := by
  unfold FdLockf.covers at hx hy
  unfold apart
  omega

/-- The waiters of an entry may change. -/
def Keeps (f : FdLockf → FdLockf) : Prop := ∀ e, ∃ bl, f e = { e with blockHd := bl }

theorem Keeps.own (h : Keeps f) : own p (l.map f) = (own p l).map f := by
  unfold IoLib.own
  rw [List.filter_map]
  congr 2
  funext e
  obtain ⟨bl, hf⟩ := h e
  simp [hf]

theorem Keeps.bytes (h : Keeps f) (e : FdLockf) : bytes (f e) = bytes e := by
  obtain ⟨bl, hf⟩ := h e
  rw [hf]
  rfl

theorem Keeps.noWrap (h : Keeps f) (hl : NoWrap lock l) : NoWrap lock (l.map f) := by
  intro heq e he hpid hend
  obtain ⟨e', he', rfl⟩ := List.mem_map.mp he
  obtain ⟨bl, hf⟩ := h e'
  rw [hf] at hpid hend ⊢
  exact hl heq e' he' hpid hend

theorem Keeps.blocks (h : Keeps f) (hb : ∃ e ∈ l, Blocks lock e) : ∃ e ∈ l.map f, Blocks lock e := by
  obtain ⟨e, he, hb⟩ := hb
  obtain ⟨bl, hf⟩ := h e
  refine ⟨f e, List.mem_map_of_mem he, ?_⟩
  rw [hf]
  exact hb

namespace Holds

theorem nil : Holds [] [] where
  valid := by simp
  sorted _ := List.Pairwise.nil
  table _ _ _ := by simp [lastType, IoLib.own]
  compat _ _ _ _ _ h := by simp [lastType] at h

theorem map (h : Holds head log) (hf : Keeps f) : Holds (head.map f) log where
  valid e he := by
    obtain ⟨e', he', rfl⟩ := List.mem_map.mp he
    obtain ⟨bl, hfe⟩ := hf e'
    rw [hfe]
    exact h.valid e' he'
  sorted p := by
    rw [hf.own]
    exact (sorted_map hf.bytes).mpr (h.sorted p)
  table p x t := by
    rw [h.table, hf.own]
    refine (has_map hf.bytes fun e => ?_).symm
    obtain ⟨bl, hfe⟩ := hf e
    rw [hfe]
  compat := h.compat

/-- A request is carried out in the list and goes on record. -/
theorem write (h : Holds head log) (hw : Written r lock head head')
    (hcompat : ∀ q x t, q ≠ lock.pid → lock.covers x → lastType log q x = some t →
      r ≠ some .wrlck ∧ (t = .wrlck → r = none)) : Holds head' ((lock, r) :: log) where
  valid := hw.valid
  sorted p := by
    by_cases hp : p = lock.pid
    · subst hp
      exact hw.cut.sorted
    · rw [hw.others p hp]
      exact h.sorted p
  table p x t := by
    rw [lastType_cons]
    by_cases hp : p = lock.pid
    · subst hp
      rw [hw.cut.has, ← h.table]
      by_cases hx : lock.covers x
      · simp [hx, IoLib.bytes]
      · simp [hx, IoLib.bytes]
    · rw [if_neg fun hc => hp hc.1.symm, hw.others p hp]
      exact h.table p x t
  compat p q x t hpq := by
    rw [lastType_cons, lastType_cons]
    by_cases hp : lock.pid = p ∧ lock.covers x
    · rw [if_pos hp, if_neg fun hq => hpq (hp.1.symm.trans hq.1)]
      rintro rfl hq
      exact (hcompat q x t (hp.1 ▸ hpq.symm) hp.2 hq).1 rfl
    · rw [if_neg hp]
      intro hwr
      by_cases hq : lock.pid = q ∧ lock.covers x
      · rw [if_pos hq, (hcompat p x .wrlck (hq.1 ▸ hpq) hq.2 hwr).2 rfl]
        simp
      · rw [if_neg hq]
        exact h.compat p q x t hpq hwr

theorem clear (h : Holds head log) (hw : Written none lock head head') :
    Holds head' ((lock, none) :: log) :=
  h.write hw fun _ _ _ _ _ _ => ⟨by simp, fun _ => rfl⟩

/-- A lock that no entry of another process blocks conflicts with none of their bytes. -/
theorem grant (h : Holds head log) (hw : Written (some lock.usType) lock head head')
    (hno : ∀ e ∈ head, ¬ Blocks lock e) : Holds head' ((lock, some lock.usType) :: log) := by
  refine h.write hw fun q x t hq hx ht => ?_
  obtain ⟨e, he, rfl, hy, rfl⟩ := has_own.mp ((h.table q x t).mp ht)
  have hb : ¬ (lock.usType = .wrlck ∨ e.usType = .wrlck) := fun htype =>
    hno e he ⟨hq, not_apart hx hy, htype⟩
  refine ⟨fun heq => hb (.inl (Option.some.inj heq)), fun heq => absurd (.inr heq) hb⟩

/-- The entries of each process are in order within the whole list. -/
theorem ordered_of_sorted (hv : ∀ e ∈ l, Valid e) (hs : ∀ p, Sorted bytes (own p l)) :
    l.Pairwise fun a b => a.pid = b.pid → a.oftEnd ≠ -1 ∧ a.oftEnd < b.oftStart := by
  induction l with
  | nil => exact List.Pairwise.nil
  | cons e l ih =>
    have hvl : ∀ e ∈ l, Valid e := fun e he => hv e (List.mem_cons_of_mem _ he)
    refine List.pairwise_cons.mpr ⟨fun b hb hpid => ?_, ih hvl fun p => ?_⟩
    · have hse := hs e.pid
      rw [own_cons_self rfl] at hse
      exact (before_iff (hv e List.mem_cons_self).1 (hvl b hb).1).mp
        ((List.pairwise_cons.mp hse).1 b (mem_own.mpr ⟨hb, hpid.symm⟩))
    · have hse := hs p
      by_cases hp : e.pid = p
      · rw [own_cons_self hp] at hse
        exact hse.tail
      · rwa [own_cons_other hp] at hse

theorem ordered (h : Holds head log) :
    head.Pairwise fun a b => a.pid = b.pid → a.oftEnd ≠ -1 ∧ a.oftEnd < b.oftStart :=
  ordered_of_sorted h.valid h.sorted

end Holds

namespace FdNode

/-- The lock node of a section that changes the list. -/
def lockOf (s : FdNode) : Op → Option FdLockf
  | .ioctl cur cmd fl oftPtr oftSize mem =>
    let (iOp, fl, iFlags) := ioctlArgs cmd fl oftPtr
    if iOp = .getlk ∨ mem = false then none else request (s.made + 1) cur fl oftSize iFlags
  | .proc pid cur iType nb oftSize mem =>
    let (_, fl, iFlags) := procArgs iType nb pid
    if mem = false then none else
      request (s.made + 1) (if pid < 0 then cur else pid) fl oftSize iFlags
  | .again i => s.calls[i]?.bind fun c =>
    if c.phase = .resumed false ∧ s.gone = false ∧ c.lock.usFlags.abort = false then some c.lock
    else none
  | _ => none

/-- The range of a request ends where it starts or later, or runs to the end of the file. -/
def InRange (s : FdNode) (op : Op) : Prop :=
  ∀ lock, s.lockOf op = some lock → lock.oftEnd = -1 ∨ lock.oftStart ≤ lock.oftEnd

/-- A request that is carried out and ends at the largest offset does not cut an entry that runs to
the end of the file. -/
def NoTrim (s : FdNode) (op : Op) : Prop :=
  ∀ lock, s.lockOf op = some lock →
    (lock.usType ≠ .unlck ∧ ∃ e ∈ s.head, Blocks lock e) ∨ NoWrap lock s.head

def StepOk (s : FdNode) (op : Op) : Prop := InRange s op ∧ NoTrim s op

/-- `F_GETLK` reports a lock. -/
def Reports (s : FdNode) (pid cur : ℤ) (fl : Flock) (oftSize : ℤ) (iFlags : LockFlags) : Prop :=
  ∃ s' fl', s.advLock pid cur .getlk fl oftSize iFlags true = some (s', .ok, fl') ∧
    fl'.l_type ≠ .unlck

/-- `F_SETLK` is granted. -/
def Grants (s : FdNode) (pid cur : ℤ) (fl : Flock) (oftSize : ℤ) (iFlags : LockFlags) : Prop :=
  ∃ s' fl', s.advLock pid cur .setlk fl oftSize iFlags true = some (s', .ok, fl')

/-- The section can begin. -/
def Begins (s : FdNode) : Op → Prop
  | .again i => ∃ c err, s.calls[i]? = some c ∧ c.phase = .resumed err
  | .resume _ | .kill _ => False
  | _ => s.gone = false

/-- What the record locks of a file promise. -/
structure Safe (s : FdNode) : Prop where
  denotes : ∀ p x t, lastType s.log p x = some t ↔
    ∃ e ∈ s.head, e.pid = p ∧ e.covers x ∧ e.usType = t
  ordered : s.head.Pairwise fun a b => a.pid = b.pid → a.oftEnd ≠ -1 ∧ a.oftEnd < b.oftStart
  exclusive : ∀ e ∈ s.head, ∀ f ∈ s.head, e.pid ≠ f.pid → (∃ x, e.covers x ∧ f.covers x) →
    e.usType ≠ .wrlck ∧ f.usType ≠ .wrlck
  test : ∀ pid cur fl oftSize iFlags start stop, convert fl oftSize = some (start, stop) →
    (stop = -1 ∨ start ≤ stop) →
      (s.Reports pid cur fl oftSize iFlags ↔ ¬ s.Grants pid cur fl oftSize iFlags)
  progress : ∀ lock iType, (findOverlap lock iType s.head).isSome
  ends : ∀ op, s.InRange op → s.Begins op → (s.step op).isSome

/-- What a request brings to the section in which it is carried out. -/
def CallOk (lock : FdLockf) (spare : Option ℕ) : Prop :=
  Valid lock ∧ spare.isSome ∧ (lock.usFlags.flock = true → lock.oftStart = 0 ∧ lock.oftEnd = -1)

/-- What every section keeps. -/
structure Inv (s : FdNode) : Prop where
  holds : Holds s.head s.log
  calls : ∀ c ∈ s.calls, CallOk c.lock c.spare

variable {s s' : FdNode} {op : Op} {res : Res} {pid cur oftSize start stop : ℤ} {iOp : LockOp}
  {fl fl' : Flock} {iFlags : LockFlags} {mem : Bool} {blk : FdLockf} {c : Call} {i n a : ℕ}

theorem convert_ranged (h : convert fl oftSize = some (start, stop)) (hr : stop = -1 ∨ start ≤ stop) :
    0 ≤ start ∧ start ≤ offMax ∧ stop ≤ offMax := by
  have hbound (y : ℤ) : off y ≤ offMax := by
    have := @Int.bmod_lt y (2 ^ 64) (by decide)
    unfold off offMax
    omega
  obtain ⟨from', hstart, h⟩ := Option.bind_eq_some_iff.mp h
  have hfrom : from' ≤ offMax := by
    cases hw : fl.l_whence <;> rw [hw] at hstart <;> cases hstart <;> exact hbound _
  by_cases hneg : from' < 0
  · rw [if_pos hneg] at h
    cases h
  · rw [if_neg hneg] at h
    cases h
    refine ⟨by omega, hfrom, ?_⟩
    by_cases hlen : fl.l_len = 0
    · rw [if_pos hlen]
      decide
    · rw [if_neg hlen]
      exact hbound _

theorem request_eq (h : request n pid fl oftSize iFlags = some lock) :
    ∃ start stop, convert fl oftSize = some (start, stop) ∧
      lock = ⟨n, n, start, stop, fl.l_type, iFlags, pid, []⟩ := by
  obtain ⟨⟨start, stop⟩, hc, rfl⟩ := Option.map_eq_some_iff.mp h
  exact ⟨start, stop, hc, rfl⟩

theorem request_ranged (h : request n pid fl oftSize iFlags = some lock)
    (hr : lock.oftEnd = -1 ∨ lock.oftStart ≤ lock.oftEnd) : Ranged lock := by
  obtain ⟨start, stop, hc, rfl⟩ := request_eq h
  have := convert_ranged hc hr
  exact ⟨this.1, this.2.1, this.2.2, hr⟩

/-- The waiters of a walk are settled with their nodes as they were. -/
theorem settle_calls {P : Call → Prop} (hP : ∀ c b p, P c → P { c with blocker := b, posted := p })
    (h : ∀ c ∈ s.calls, P c) : ∀ c ∈ (s.settle a w).calls, P c := by
  intro c hc
  obtain ⟨c', hc', rfl⟩ := List.mem_map.mp hc
  unfold Call.settle
  split_ifs
  · exact hP c' none true (h c' hc')
  · exact hP c' (some a) c'.posted (h c' hc')
  · exact h c' hc'

theorem keeps_block : Keeps fun e =>
    if e.addr = blk.addr then { e with blockHd := e.blockHd ++ [a] } else e := by
  intro e
  by_cases h : e.addr = blk.addr
  · exact ⟨e.blockHd ++ [a], by simp [h]⟩
  · exact ⟨e.blockHd, by simp [h]⟩

theorem keeps_unblock : Keeps fun e =>
    if e.addr = n then { e with blockHd := e.blockHd.filter (· ≠ a) } else e := by
  intro e
  by_cases h : e.addr = n
  · exact ⟨e.blockHd.filter (· ≠ a), by simp [h]⟩
  · exact ⟨e.blockHd, by simp [h]⟩

namespace Inv

theorem block (h : Inv s) (hok : CallOk lock spare) : Inv (s.block lock blk spare) where
  holds := h.holds.map keeps_block
  calls c hc := by
    rcases List.mem_append.mp hc with hc | hc
    · exact h.calls c hc
    · cases List.mem_singleton.mp hc
      exact hok

theorem unblock (h : Inv s) : Inv (s.unblock a n) :=
  ⟨h.holds.map keeps_unblock, h.calls⟩

/-- A walk that is carried out in the list. -/
theorem settle (h : Inv s) (hw : Holds w.list ((lock, r) :: s.log)) :
    Inv ((s.settle a w).record lock r) :=
  ⟨hw, settle_calls (fun _ _ _ h => h) h.calls⟩

/-- A lock that may be set is granted, refused, or waits. -/
theorem setLock (h : Inv s) (hok : CallOk lock spare)
    (hfit : (∃ e ∈ s.head, Blocks lock e) ∨ NoWrap lock s.head)
    (hs : s.setLock lock spare = some (s', res)) : Inv s' := by
  have hr : ∀ e ∈ s.head, Ranged e := fun e he => (h.holds.valid e he).1
  unfold FdNode.setLock at hs
  rcases getBlock_spec lock hr (Nat.lt_succ_self _) with ⟨blk, hg, hmem, hb⟩ | ⟨hg, hno⟩
  · rw [hg, Option.bind_some] at hs
    simp only at hs
    split_ifs at hs with hwait hdead hflock
    · cases hs
      exact ⟨h.holds, h.calls⟩
    · cases hs
      exact ⟨h.holds, h.calls⟩
    · obtain ⟨w, hw, heq⟩ := Option.map_eq_some_iff.mp hs
      cases heq
      -- A lock of this kind runs to the end of the file.
      have hend := (hok.2.2 hflock.1).2
      have hfits : Fits lock s.head := fun heq => by
        rw [hend] at heq
        exact absurd heq (by decide)
      have hwr := clearLoop_written h.holds.valid hok.1.1 hfits (h.holds.sorted _) hw
      exact (h.settle (h.holds.clear hwr)).block hok
    · cases hs
      exact h.block hok
  · rw [hg, Option.bind_some] at hs
    obtain ⟨w, hw, heq⟩ := Option.map_eq_some_iff.mp hs
    cases heq
    have hfit := hfit.resolve_left fun ⟨e, he, hb⟩ => hno e he hb
    have hwr := linkLock_written h.holds.valid hok.1 hfit (h.holds.sorted _) hw
    have hi := h.settle (a := lock.addr) (h.holds.grant hwr hno)
    exact ⟨hi.holds, hi.calls⟩

theorem setLock_isSome (h : Inv s) (hok : CallOk lock spare) : (s.setLock lock spare).isSome := by
  have hr : ∀ e ∈ s.head, Ranged e := fun e he => (h.holds.valid e he).1
  unfold FdNode.setLock
  rcases getBlock_spec lock hr (Nat.lt_succ_self _) with ⟨blk, hg, hmem, hb⟩ | ⟨hg, hno⟩
  · rw [hg, Option.bind_some]
    simp only
    split_ifs with hwait hdead hflock
    · rfl
    · rfl
    · rw [Option.isSome_map]
      exact clearLock_isSome h.holds.valid hok.1.1 (h.holds.sorted _) (.inr (hok.2.2 hflock.1).2)
    · rfl
  · rw [hg, Option.bind_some, Option.isSome_map]
    exact linkLock_isSome h.holds.valid hok.1.1 (h.holds.sorted _) hok.2.1

/-- The callers of `__fdLockfAdvLock` choose the operation by the type, and lock the whole file where
the lock is one of `flock`. -/
def ArgsOk (iOp : LockOp) (fl : Flock) (iFlags : LockFlags) : Prop :=
  (iOp = .setlk → fl.l_type ≠ .unlck) ∧ (iOp = .unlck → fl.l_type = .unlck) ∧
    (iFlags.flock = true → fl.l_whence = .set ∧ fl.l_start = 0 ∧ fl.l_len = 0)

theorem argsOk_ioctl (cmd : LockCmd) (fl : Flock) (oftPtr : ℤ) :
    ArgsOk (ioctlArgs cmd fl oftPtr).1 (ioctlArgs cmd fl oftPtr).2.1 (ioctlArgs cmd fl oftPtr).2.2 := by
  have htype : (ioctlArgs cmd fl oftPtr).2.1.l_type = fl.l_type := by
    unfold ioctlArgs
    by_cases hw : fl.l_whence = .cur <;> simp [hw]
  have hop : (ioctlArgs cmd fl oftPtr).1 =
      if cmd = .getlk then .getlk else if fl.l_type = .unlck then .unlck else .setlk := by
    unfold ioctlArgs
    by_cases hw : fl.l_whence = .cur <;> simp [hw]
  rw [ArgsOk, htype, hop]
  refine ⟨?_, ?_, fun hf => by cases hf⟩ <;> split_ifs <;> simp_all

theorem argsOk_proc (iType : LockType) (nb : Bool) (pid : ℤ) :
    ArgsOk (procArgs iType nb pid).1 (procArgs iType nb pid).2.1 (procArgs iType nb pid).2.2 := by
  cases iType <;> simp [ArgsOk, procArgs]

/-- The lock of a request, if it is in range, can be carried out. -/
theorem request_callOk (hreq : request n pid fl oftSize iFlags = some lock)
    (hr : lock.oftEnd = -1 ∨ lock.oftStart ≤ lock.oftEnd) (htype : fl.l_type ≠ .unlck)
    (hflock : iFlags.flock = true → fl.l_whence = .set ∧ fl.l_start = 0 ∧ fl.l_len = 0) :
    CallOk lock (some a) := by
  have hranged := request_ranged hreq hr
  obtain ⟨start, stop, hc, rfl⟩ := request_eq hreq
  refine ⟨⟨hranged, htype⟩, rfl, fun hf => ?_⟩
  obtain ⟨hwhence, hstart, hlen⟩ := hflock hf
  have hwhole : convert fl oftSize = some (0, -1) := by
    rw [convert, hwhence, hstart, hlen]
    rfl
  rw [hwhole] at hc
  cases hc
  exact ⟨rfl, rfl⟩

theorem advLock (h : Inv s) (hargs : ArgsOk iOp fl iFlags)
    (hok : ∀ lock, request (s.made + 1) (if pid < 0 then cur else pid) fl oftSize iFlags = some lock →
      iOp ≠ .getlk → mem = true → (lock.oftEnd = -1 ∨ lock.oftStart ≤ lock.oftEnd) ∧
        ((lock.usType ≠ .unlck ∧ ∃ e ∈ s.head, Blocks lock e) ∨ NoWrap lock s.head))
    (hs : s.advLock pid cur iOp fl oftSize iFlags mem = some (s', res, fl')) : Inv s' := by
  by_cases hget : iOp = .getlk
  · -- A test changes neither the list nor the log.
    subst hget
    unfold FdNode.advLock at hs
    simp only at hs
    split at hs
    · cases hs
      exact h
    · split_ifs at hs
      · cases hs
        exact h
      · cases hs
        exact ⟨h.holds, h.calls⟩
      · obtain ⟨b, -, heq⟩ := Option.map_eq_some_iff.mp hs
        cases heq
        exact ⟨h.holds, h.calls⟩
  · unfold FdNode.advLock at hs
    simp only [if_neg hget, Option.toList_some, List.length_singleton] at hs
    cases hreq : request (s.made + 1) (if pid < 0 then cur else pid) fl oftSize iFlags with
    | none =>
      rw [hreq] at hs
      cases hs
      exact h
    | some lock =>
      rw [hreq] at hs
      simp only at hs
      split_ifs at hs with hmem hempty
      · cases hs
        exact h
      · cases hs
        exact ⟨h.holds, h.calls⟩
      · obtain ⟨hr, hfit⟩ := hok lock hreq hget (by simpa using hmem)
        have htype : lock.usType = fl.l_type := by
          obtain ⟨start, stop, -, rfl⟩ := request_eq hreq
          rfl
        have hmade : Inv { s with made := s.made + 1 + 1 } := ⟨h.holds, h.calls⟩
        cases iOp with
        | getlk => exact absurd rfl hget
        | setlk =>
          obtain ⟨⟨s₁, res₁⟩, hset, heq⟩ := Option.map_eq_some_iff.mp hs
          cases heq
          exact hmade.setLock (request_callOk hreq hr (hargs.1 rfl) hargs.2.2)
            (hfit.imp_left And.right) hset
        | unlck =>
          obtain ⟨w, hw, heq⟩ := Option.map_eq_some_iff.mp hs
          cases heq
          have hunlck : lock.usType = .unlck := htype.trans (hargs.2.1 rfl)
          have hwrap := hfit.resolve_left fun hb => hb.1 hunlck
          have hfits : Fits lock s.head := fun heq e he hpid hend =>
            (h.holds.valid e he).2 ((hwrap heq e he hpid hend).2.trans hunlck)
          have hwr := clearLoop_written h.holds.valid (request_ranged hreq hr) hfits
            (h.holds.sorted _) hw
          have hi := hmade.settle (a := s.made + 1) (h.holds.clear hwr)
          exact ⟨hi.holds, hi.calls⟩

/-- A request whose range is in order always leaves the section. -/
theorem advLock_isSome (h : Inv s) (hargs : ArgsOk iOp fl iFlags)
    (hok : ∀ lock, request (s.made + 1) (if pid < 0 then cur else pid) fl oftSize iFlags = some lock →
      iOp ≠ .getlk → mem = true → lock.oftEnd = -1 ∨ lock.oftStart ≤ lock.oftEnd) :
    (s.advLock pid cur iOp fl oftSize iFlags mem).isSome := by
  have hranged : ∀ e ∈ s.head, Ranged e := fun e he => (h.holds.valid e he).1
  by_cases hget : iOp = .getlk
  · subst hget
    unfold FdNode.advLock
    simp only
    split
    · rfl
    · rename_i lock hreq
      split_ifs
      · rfl
      · rfl
      · rw [Option.isSome_map]
        rcases getBlock_spec lock hranged (Nat.lt_succ_self _) with ⟨b, hg, -⟩ | ⟨hg, -⟩ <;>
          rw [hg] <;> rfl
  · unfold FdNode.advLock
    simp only [if_neg hget, Option.toList_some, List.length_singleton]
    cases hreq : request (s.made + 1) (if pid < 0 then cur else pid) fl oftSize iFlags with
    | none => rfl
    | some lock =>
      simp only
      split_ifs with hmem hempty
      · rfl
      · rfl
      · have hr := hok lock hreq hget (by simpa using hmem)
        have hmade : Inv { s with made := s.made + 1 + 1 } := ⟨h.holds, h.calls⟩
        cases iOp with
        | getlk => exact absurd rfl hget
        | setlk =>
          rw [Option.isSome_map]
          exact hmade.setLock_isSome (request_callOk hreq hr (hargs.1 rfl) hargs.2.2)
        | unlck =>
          rw [Option.isSome_map]
          exact clearLock_isSome h.holds.valid (request_ranged hreq hr) (h.holds.sorted _) (.inl rfl)

theorem resume (h : Inv s) (hs : s.resume i = some s') : Inv s' := by
  obtain ⟨c, hc, hs⟩ := Option.bind_eq_some_iff.mp hs
  have hok := h.calls c (List.mem_of_getElem? hc)
  have hset (p : Bool) (ph : Phase) : ∀ d ∈ s.calls.set i { c with posted := p, phase := ph },
      CallOk d.lock d.spare := by
    intro d hd
    rcases List.mem_or_eq_of_mem_set hd with hd | rfl
    · exact h.calls d hd
    · exact hok
  split_ifs at hs
  · cases hs
    exact ⟨h.holds, hset c.posted _⟩
  · cases hs
    exact ⟨h.holds, hset false _⟩

theorem erase (h : Inv s) : Inv { s with calls := s.calls.eraseIdx i } :=
  ⟨h.holds, fun c hc => h.calls c (List.mem_of_mem_eraseIdx hc)⟩

theorem again (h : Inv s)
    (hfit : ∀ c, s.calls[i]? = some c → c.phase = .resumed false → s.gone = false →
      c.lock.usFlags.abort = false → (∃ e ∈ s.head, Blocks c.lock e) ∨ NoWrap c.lock s.head)
    (hs : s.again i = some (s', res)) : Inv s' := by
  obtain ⟨c, hc, hs⟩ := Option.bind_eq_some_iff.mp hs
  have hok := h.calls c (List.mem_of_getElem? hc)
  have her : Inv { s with calls := s.calls.eraseIdx i } := h.erase
  cases hph : c.phase with
  | waiting =>
    rw [hph] at hs
    cases hs
  | lost =>
    rw [hph] at hs
    cases hs
  | resumed err =>
    rw [hph] at hs
    simp only at hs
    split_ifs at hs with hgone herr
    · cases hs
      exact ⟨her.holds, her.calls⟩
    · cases hs
      cases c.blocker with
      | none => exact ⟨her.holds, her.calls⟩
      | some blk => exact ⟨her.unblock.holds, her.calls⟩
    · rw [not_or] at hgone
      have hfit := hfit c hc (by rw [hph, Bool.eq_false_iff.mpr herr]) (by simpa using hgone.1)
        (by simpa using hgone.2)
      cases hb : c.blocker with
      | none =>
        rw [hb] at hs
        exact her.setLock hok hfit hs
      | some blk =>
        rw [hb] at hs
        exact her.unblock.setLock hok
          (hfit.imp keeps_unblock.blocks keeps_unblock.noWrap) hs

theorem again_isSome (h : Inv s) (hc : s.calls[i]? = some c) {err : Bool}
    (hph : c.phase = .resumed err) : (s.again i).isSome := by
  have hok := h.calls c (List.mem_of_getElem? hc)
  have her : Inv { s with calls := s.calls.eraseIdx i } := h.erase
  rw [FdNode.again, hc, Option.bind_some, hph]
  simp only
  split_ifs
  · rfl
  · rfl
  · cases c.blocker with
    | none => exact her.setLock_isSome hok
    | some blk => exact her.unblock.setLock_isSome hok

theorem kill (h : Inv s) (hs : s.kill i = some s') : Inv s' := by
  obtain ⟨c, hc, hs⟩ := Option.bind_eq_some_iff.mp hs
  have hok := h.calls c (List.mem_of_getElem? hc)
  have her : Inv { s with calls := s.calls.eraseIdx i } := h.erase
  cases hph : c.phase with
  | lost =>
    rw [hph] at hs
    cases hs
  | resumed err =>
    rw [hph] at hs
    cases hs
    refine ⟨h.holds, fun d hd => ?_⟩
    rcases List.mem_or_eq_of_mem_set hd with hd | rfl
    · exact h.calls d hd
    · exact hok
  | waiting =>
    rw [hph] at hs
    cases hs
    cases c.blocker with
    | none => exact ⟨her.holds, her.calls⟩
    | some blk =>
      simp only
      split_ifs
      · exact ⟨her.holds, her.calls⟩
      · exact ⟨her.unblock.holds, her.calls⟩

theorem clearFdNode (h : Inv s) : Inv s.clearFdNode := by
  refine ⟨Holds.nil, fun c hc => ?_⟩
  obtain ⟨c', hc', rfl⟩ := List.mem_map.mp hc
  have hok : CallOk c'.lock c'.spare :=
    settle_calls (P := fun c => CallOk c.lock c.spare) (fun _ _ _ h => h) h.calls c' hc'
  unfold abort
  split_ifs
  · exact hok
  · exact hok

theorem lockOf_ioctl {cmd : LockCmd} {oftPtr : ℤ} (hget : (ioctlArgs cmd fl oftPtr).1 ≠ .getlk)
    (hmem : mem = true)
    (hreq : request (s.made + 1) (if (-1 : ℤ) < 0 then cur else -1) (ioctlArgs cmd fl oftPtr).2.1
      oftSize (ioctlArgs cmd fl oftPtr).2.2 = some lock) :
    s.lockOf (.ioctl cur cmd fl oftPtr oftSize mem) = some lock := by
  simp only [lockOf, hget, hmem, Bool.true_eq_false, or_self, if_false]
  exact hreq

theorem lockOf_proc {iType : LockType} {nb : Bool} (hmem : mem = true)
    (hreq : request (s.made + 1) (if pid < 0 then cur else pid) (procArgs iType nb pid).2.1
      oftSize (procArgs iType nb pid).2.2 = some lock) :
    s.lockOf (.proc pid cur iType nb oftSize mem) = some lock := by
  simp only [lockOf, hmem, Bool.true_eq_false, if_false]
  exact hreq

theorem of_not_gone {o : Option FdNode} (hs : (if s.gone = true then none else o) = some s') :
    o = some s' := by
  split_ifs at hs
  exact hs

theorem step (h : Inv s) (hok : StepOk s op) (hs : s.step op = some s') : Inv s' := by
  cases op with
  | ioctl cur cmd fl oftPtr oftSize mem =>
    obtain ⟨⟨s₁, res, fl'⟩, hadv, rfl⟩ := Option.map_eq_some_iff.mp (of_not_gone hs)
    refine h.advLock (argsOk_ioctl cmd fl oftPtr) (fun lock hreq hget hmem => ?_) hadv
    have hlock := lockOf_ioctl hget hmem hreq
    exact ⟨hok.1 lock hlock, hok.2 lock hlock⟩
  | proc pid cur iType nb oftSize mem =>
    obtain ⟨⟨s₁, res, fl'⟩, hadv, rfl⟩ := Option.map_eq_some_iff.mp (of_not_gone hs)
    refine h.advLock (argsOk_proc iType nb pid) (fun lock hreq _ hmem => ?_) hadv
    have hlock := lockOf_proc hmem hreq
    exact ⟨hok.1 lock hlock, hok.2 lock hlock⟩
  | resume i => exact h.resume hs
  | again i =>
    obtain ⟨⟨s₁, res⟩, hagain, rfl⟩ := Option.map_eq_some_iff.mp hs
    refine h.again (fun c hc hph hgone habort => ?_) hagain
    have hlock : s.lockOf (.again i) = some c.lock := by
      simp [lockOf, hc, hph, hgone, habort]
    exact (hok.2 c.lock hlock).imp_left And.right
  | kill i => exact h.kill hs
  | clearFdNode =>
    cases of_not_gone hs
    exact h.clearFdNode

theorem step_isSome (h : Inv s) (hr : InRange s op) (hb : s.Begins op) : (s.step op).isSome := by
  cases op with
  | ioctl cur cmd fl oftPtr oftSize mem =>
    have hgone : ¬ s.gone = true := by simpa [Begins] using hb
    unfold FdNode.step
    simp only [if_neg hgone, Option.isSome_map]
    refine h.advLock_isSome (argsOk_ioctl cmd fl oftPtr) ?_
    exact fun lock hreq hget hmem => hr lock (lockOf_ioctl hget hmem hreq)
  | proc pid cur iType nb oftSize mem =>
    have hgone : ¬ s.gone = true := by simpa [Begins] using hb
    unfold FdNode.step
    simp only [if_neg hgone, Option.isSome_map]
    refine h.advLock_isSome (argsOk_proc iType nb pid) ?_
    exact fun lock hreq _ hmem => hr lock (lockOf_proc hmem hreq)
  | resume i => exact hb.elim
  | again i =>
    obtain ⟨c, err, hc, hph⟩ := hb
    exact (Option.isSome_map ..).trans (h.again_isSome hc hph)
  | kill i => exact hb.elim
  | clearFdNode =>
    have hgone : ¬ s.gone = true := by simpa [Begins] using hb
    unfold FdNode.step
    simp only [if_neg hgone]
    rfl

/-- The node of a request, whatever its address. -/
def wants (start stop pid cur : ℤ) (fl : Flock) (iFlags : LockFlags) (n : ℕ) : FdLockf :=
  ⟨n, n, start, stop, fl.l_type, iFlags, if pid < 0 then cur else pid, []⟩

theorem request_wants (hc : convert fl oftSize = some (start, stop)) :
    request n (if pid < 0 then cur else pid) fl oftSize iFlags =
      some (wants start stop pid cur fl iFlags n) := by
  simp [request, hc, wants]

theorem reports_iff (h : Inv s) (hc : convert fl oftSize = some (start, stop)) :
    s.Reports pid cur fl oftSize iFlags ↔
      ∃ e ∈ s.head, Blocks (wants start stop pid cur fl iFlags s.made) e := by
  have hranged : ∀ e ∈ s.head, Ranged e := fun e he => (h.holds.valid e he).1
  have hadv : s.advLock pid cur .getlk fl oftSize iFlags true =
      if s.head = [] then
        some (({ s with made := s.made + 1 } : FdNode).drop [s.made], .ok, { fl with l_type := .unlck })
      else
        (getBlock (wants start stop pid cur fl iFlags s.made) (s.head.length + 1) s.head).map fun b =>
          (({ s with made := s.made + 1 } : FdNode).drop [s.made], .ok, getLock fl b) := by
    simp [FdNode.advLock, request_wants hc]
  unfold Reports
  rw [hadv]
  by_cases hempty : s.head = []
  · rw [if_pos hempty]
    simp [hempty]
  · rw [if_neg hempty]
    rcases getBlock_spec (wants start stop pid cur fl iFlags s.made) hranged
      (Nat.lt_succ_self _) with ⟨blk, hg, hmem, hb⟩ | ⟨hg, hno⟩
    · rw [hg]
      refine iff_of_true ⟨_, _, rfl, ?_⟩ ⟨blk, hmem, hb⟩
      exact (h.holds.valid blk hmem).2
    · rw [hg]
      refine iff_of_false ?_ fun ⟨e, he, hb⟩ => hno e he hb
      rintro ⟨s', fl', heq, hne⟩
      cases heq
      exact hne rfl

/-- A lock is granted exactly if no entry of another process blocks it. -/
theorem setLock_ok_iff (h : Inv s) (hlock : Ranged lock) (hspare : spare.isSome) :
    (∃ s', s.setLock lock spare = some (s', .ok)) ↔ ∀ e ∈ s.head, ¬ Blocks lock e := by
  have hranged : ∀ e ∈ s.head, Ranged e := fun e he => (h.holds.valid e he).1
  unfold FdNode.setLock
  rcases getBlock_spec lock hranged (Nat.lt_succ_self _) with
    ⟨blk, hg, hmem, hb⟩ | ⟨hg, hno⟩
  · refine iff_of_false ?_ fun hno => hno blk hmem hb
    rintro ⟨s', heq⟩
    rw [hg, Option.bind_some] at heq
    simp only at heq
    split_ifs at heq
    · cases heq
    · cases heq
    · obtain ⟨w, -, heq⟩ := Option.map_eq_some_iff.mp heq
      cases heq
    · cases heq
  · refine iff_of_true ?_ hno
    obtain ⟨w, hw⟩ := Option.isSome_iff_exists.mp
      (linkLock_isSome h.holds.valid hlock (h.holds.sorted _) hspare)
    rw [hg, Option.bind_some]
    simp only [hw]
    exact ⟨_, rfl⟩

theorem grants_iff (h : Inv s) (hc : convert fl oftSize = some (start, stop))
    (hr : stop = -1 ∨ start ≤ stop) :
    s.Grants pid cur fl oftSize iFlags ↔
      ∀ e ∈ s.head, ¬ Blocks (wants start stop pid cur fl iFlags (s.made + 1)) e := by
  have hlock : Ranged (wants start stop pid cur fl iFlags (s.made + 1)) := by
    have := convert_ranged hc hr
    exact ⟨this.1, this.2.1, this.2.2, hr⟩
  have hmade : Inv { s with made := s.made + 1 + 1 } := ⟨h.holds, h.calls⟩
  have hadv : s.advLock pid cur .setlk fl oftSize iFlags true =
      (({ s with made := s.made + 1 + 1 } : FdNode).setLock
        (wants start stop pid cur fl iFlags (s.made + 1)) (some s.made)).map
          fun (s', res) => (s', res, fl) := by
    simp [FdNode.advLock, request_wants hc]
  refine Iff.trans ?_ (hmade.setLock_ok_iff hlock (Option.isSome_some (a := s.made)))
  unfold Grants
  rw [hadv]
  constructor
  · rintro ⟨s', fl', heq⟩
    obtain ⟨⟨s₁, res⟩, hset, heq⟩ := Option.map_eq_some_iff.mp heq
    cases heq
    exact ⟨s', hset⟩
  · rintro ⟨s', hset⟩
    exact ⟨s', fl, by rw [hset]; rfl⟩

/-- What the invariant says of the entries, one process at a time or two. -/
theorem safe (h : Inv s) : s.Safe where
  denotes p x t := (h.holds.table p x t).trans has_own
  ordered := h.holds.ordered
  exclusive e he f hf hpid hx := by
    obtain ⟨x, hx, hy⟩ := hx
    have he' : lastType s.log e.pid x = some e.usType :=
      (h.holds.table _ _ _).mpr (has_own.mpr ⟨e, he, rfl, hx, rfl⟩)
    have hf' : lastType s.log f.pid x = some f.usType :=
      (h.holds.table _ _ _).mpr (has_own.mpr ⟨f, hf, rfl, hy, rfl⟩)
    exact ⟨fun hw => h.holds.compat _ _ _ _ hpid (hw ▸ he') hf',
      fun hw => h.holds.compat _ _ _ _ hpid.symm (hw ▸ hf') he'⟩
  test pid cur fl oftSize iFlags start stop hc hr := by
    rw [h.reports_iff hc, h.grants_iff hc hr]
    simp only [not_forall, not_not, exists_prop]
    rfl
  progress lock iType := findOverlap_isSome lock iType fun e he => (h.holds.valid e he).1
  ends _ hr hb := h.step_isSome hr hb

end Inv

theorem inv_start : FdNode.start.Inv := ⟨Holds.nil, by simp [FdNode.start]⟩

/-- No search stays at an entry, in any list of ranges, and the lock list is the table of what was
carried out last, in every state reached. -/
theorem lockTable_safe {s : FdNode} (h : Reach FdNode.step StepOk (· = FdNode.start) s) :
    (∀ (l : List FdLockf) (lock : FdLockf) (iType : Whose), (∀ e ∈ l, Ranged e) →
      (findOverlap lock iType l).isSome) ∧ s.Safe := by
  refine ⟨fun l lock iType h => findOverlap_isSome lock iType h, ?_⟩
  have hinv : s.Inv := h.invariant (fun _ hs => by rw [hs]; exact inv_start) fun _ _ _ hi hok hs =>
    hi.step hok hs
  exact hinv.safe

theorem inRange_of (h : s.lockOf op = some lock)
    (hr : lock.oftEnd = -1 ∨ lock.oftStart ≤ lock.oftEnd) : InRange s op := by
  intro lock' h'
  rw [h] at h'
  cases h'
  exact hr

theorem stepOk_of (h : s.lockOf op = some lock)
    (hr : lock.oftEnd = -1 ∨ lock.oftStart ≤ lock.oftEnd) (hmax : lock.oftEnd ≠ offMax) :
    StepOk s op := by
  refine ⟨inRange_of h hr, fun lock' h' => .inr fun heq => ?_⟩
  rw [h] at h'
  cases h'
  exact absurd heq hmax

/-- A process locks ten bytes and unlocks two in the middle. -/
theorem lockTable_split : ∃ s, Reach FdNode.step StepOk (· = FdNode.start) s ∧ s.Safe ∧
    s.head.map (fun e => (e.oftStart, e.oftEnd)) = [(0, 2), (5, 9)] ∧
    (findOverlap ⟨9, 9, 2, 6, .rdlck, ⟨false, false, true, false⟩, 2, []⟩ .others s.head).isSome := by
  let fl : LockFlags := ⟨false, false, true, false⟩
  let e₁ : FdLockf := ⟨1, 1, 0, 9, .wrlck, fl, 1, []⟩
  let s₁ : FdNode := ⟨[e₁], [], false, [], 2, [0], [(e₁, some .wrlck)]⟩
  let s₂ : FdNode := ⟨[⟨1, 1, 0, 2, .wrlck, fl, 1, []⟩, ⟨2, 1, 5, 9, .wrlck, fl, 1, []⟩], [], false, [], 4,
    [0, 3], [(⟨3, 3, 3, 4, .unlck, fl, 1, []⟩, none), (e₁, some .wrlck)]⟩
  have h₀ : Reach FdNode.step StepOk (· = FdNode.start) FdNode.start := .start rfl
  have h₁ : Reach FdNode.step StepOk (· = FdNode.start) s₁ :=
    h₀.extend (.ioctl 1 .setlk ⟨.wrlck, .set, 0, 10, 0⟩ 0 0 true)
      (stepOk_of rfl (.inr (by decide)) (by decide)) rfl
  have h₂ : Reach FdNode.step StepOk (· = FdNode.start) s₂ :=
    h₁.extend (.ioctl 1 .setlk ⟨.unlck, .set, 3, 2, 0⟩ 0 0 true)
      (stepOk_of rfl (.inr (by decide)) (by decide)) rfl
  obtain ⟨hsearch, hsafe⟩ := lockTable_safe h₂
  refine ⟨s₂, h₂, hsafe, rfl, hsearch _ _ _ fun e he => ?_⟩
  have hcases : e = ⟨1, 1, 0, 2, .wrlck, fl, 1, []⟩ ∨ e = ⟨2, 1, 5, 9, .wrlck, fl, 1, []⟩ := by
    simpa [s₂] using he
  rcases hcases with rfl | rfl <;> exact ⟨by decide, by decide, by decide, .inr (by decide)⟩

/-- The entry of a process starts at byte 1 and runs to the end of the file. The unlock of everything
from byte 1 up to the largest offset moves the start of the entry behind the largest offset, to the
smallest one, and the entry now covers byte 0 that another process has locked. -/
theorem lockTable_wraps :
    ∃ s, Reach FdNode.step InRange (· = FdNode.start) s ∧ ¬ s.Safe := by
  let fl : LockFlags := ⟨false, false, true, false⟩
  let e₁ : FdLockf := ⟨1, 1, 1, -1, .wrlck, fl, 1, []⟩
  let e₂ : FdLockf := ⟨3, 3, 0, 0, .wrlck, fl, 2, []⟩
  let s₁ : FdNode := ⟨[e₁], [], false, [], 2, [0], [(e₁, some .wrlck)]⟩
  let s₂ : FdNode := ⟨[e₁, e₂], [], false, [], 4, [0, 2], [(e₂, some .wrlck), (e₁, some .wrlck)]⟩
  let s₃ : FdNode := ⟨[⟨1, 1, -2 ^ 63, -1, .wrlck, fl, 1, []⟩, e₂], [], false, [], 6, [0, 2, 5, 4],
    [(⟨5, 5, 1, 2 ^ 63 - 1, .unlck, fl, 1, []⟩, none), (e₂, some .wrlck), (e₁, some .wrlck)]⟩
  have h₀ : Reach FdNode.step InRange (· = FdNode.start) FdNode.start := .start rfl
  have h₁ : Reach FdNode.step InRange (· = FdNode.start) s₁ :=
    h₀.extend (.ioctl 1 .setlk ⟨.wrlck, .set, 1, 0, 0⟩ 0 0 true) (inRange_of rfl (.inl rfl)) rfl
  have h₂ : Reach FdNode.step InRange (· = FdNode.start) s₂ :=
    h₁.extend (.ioctl 2 .setlk ⟨.wrlck, .set, 0, 1, 0⟩ 0 0 true)
      (inRange_of rfl (.inr (by decide))) rfl
  have h₃ : Reach FdNode.step InRange (· = FdNode.start) s₃ :=
    h₂.extend (.ioctl 1 .setlk ⟨.unlck, .set, 1, 2 ^ 63 - 1, 0⟩ 0 0 true)
      (inRange_of rfl (.inr (by decide))) rfl
  refine ⟨s₃, h₃, fun hs => ?_⟩
  have hexcl := hs.exclusive ⟨1, 1, -2 ^ 63, -1, .wrlck, fl, 1, []⟩ (by simp [s₃]) e₂ (by simp [s₃])
    (by decide) ⟨0, by decide, by decide⟩
  exact hexcl.1 rfl

end FdNode

end SylixOS.IoLib
