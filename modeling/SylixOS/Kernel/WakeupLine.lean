import Mathlib
import SylixOS.Lib.DeltaList
import SylixOS.Lib.Reach

/-! # The wake-up line

Delays, watchdogs and timers wait in a list that stores each node's time as the difference to the
node before it. A list with a wake-up routine counts the time itself: it remembers when its first
counter was last brought up to date, and `_WakeupAdd` and `_WakeupDel` may be asked to take the
time that has passed since then off the list. A list without one is scanned on every tick.
-/

namespace SylixOS.Kernel
open Lib Lib.DeltaList

/-- A value stored in a `ULONG` of `w` bits. -/
def ulong (w n : ℕ) : ℕ := n % 2 ^ w

theorem ulong_of_lt {w n : ℕ} (h : n < 2 ^ w) : ulong w n = n := Nat.mod_eq_of_lt h

/-- A node in a wake-up line: which one it is, and its `WUN_ulCounter`. -/
abbrev WakeupNode := Entry ℕ

/-- `LW_CLASS_WAKEUP`. The kernel time is a number of ticks. -/
structure Wakeup where
  line : List WakeupNode
  plineOp : Option ℕ
  i64LastTime : ℕ
  pfuncWakeup : Bool
  deriving DecidableEq, Repr

namespace Wakeup

/-- The node behind another one. -/
def next (pwun : ℕ) : List WakeupNode → Option ℕ
  | e :: m :: ms => if e.key = pwun then some m.key else next pwun (m :: ms)
  | _ => none

/-- `_WakeupAdd`, called at the time `now` for a node that is to wait for `counter`. -/
def add (w now pwun counter : ℕ) (bProcTime : Bool) (pwu : Wakeup) : Wakeup :=
  let pwu₁ :=
    if bProcTime ∧ pwu.line ≠ [] ∧ pwu.pfuncWakeup then
      { pwu with
        line := advance (ulong w (now - pwu.i64LastTime)) pwu.line
        i64LastTime := now }
    else pwu
  let bSaveTime := pwu.line = []
  { pwu₁ with
    line := insert pwun counter pwu₁.line
    i64LastTime :=
      if bProcTime ∧ pwu.pfuncWakeup ∧ bSaveTime then now else pwu₁.i64LastTime }

/-- The first node gets the counter of the node before it, in a `ULONG`. -/
def carry (w c : ℕ) : List WakeupNode → List WakeupNode
  | [] => []
  | e :: es => { e with delta := ulong w (e.delta + c) } :: es

/-- The part of `_WakeupDel` that takes a node out of the line. -/
def unlink (w pwun : ℕ) : List WakeupNode → List WakeupNode
  | [] => []
  | e :: es => if e.key = pwun then carry w e.delta es else e :: unlink w pwun es

/-- `_WakeupDel`, called at the time `now`. -/
def del (w now pwun : ℕ) (bProcTime : Bool) (pwu : Wakeup) : Wakeup :=
  let plineOp := if pwu.plineOp = some pwun then next pwun pwu.line else pwu.plineOp
  let line := unlink w pwun pwu.line
  if bProcTime ∧ (pwu.line.map Entry.key).head? = some pwun ∧ pwu.pfuncWakeup then
    { pwu with
      plineOp
      line := advance (ulong w (now - pwu.i64LastTime)) line
      i64LastTime := now }
  else { pwu with plineOp, line }

/-- `_WakeupStatus`: how long a node still has to wait, `0` when it is not in the line. -/
def status (w now pwun : ℕ) (pwu : Wakeup) : ℕ :=
  match (times 0 pwu.line).find? fun p => p.1 = pwun with
  | none => 0
  | some p =>
    if pwu.i64LastTime ≠ 0 then ulong w p.2 - ulong w (now - pwu.i64LastTime) else ulong w p.2

/-- The scan between `__WAKEUP_PASS_FIRST` and `__WAKEUP_PASS_END` with a counter of `ulCounter`:
every node that is due is taken out. -/
def pass (ulCounter : ℕ) (pwu : Wakeup) : Wakeup :=
  { pwu with
    line := expire ulCounter pwu.line
    plineOp := ((expire ulCounter pwu.line).tail.map Entry.key).head? }

end Wakeup

/-! ## A line and the requests made of it -/

/-- What was asked of `_WakeupAdd` for a node, when, and as the how manieth request. -/
structure Request where
  added : ℕ
  delay : ℕ
  seq : ℕ
  deriving DecidableEq, Repr

/-- When a node is to be woken. -/
def Request.deadline (r : Request) : ℕ := r.added + r.delay

/-- A line, the kernel time, the time of the last scan, and the requests made so far. -/
structure Line where
  pwu : Wakeup
  now : ℕ
  scanTime : ℕ
  req : ℕ → Request
  adds : ℕ

/-- What can happen to a line. -/
inductive LineOp where
  | add (pwun delay : ℕ) (bProcTime : Bool)
  | del (pwun : ℕ) (bProcTime : Bool)
  | elapse (ticks : ℕ)
  | scan
  deriving DecidableEq, Repr

namespace Line

/-- The nodes in the line. -/
def nodes (s : Line) : List ℕ := s.pwu.line.map Entry.key

/-- When the counters were last brought up to date. -/
def updated (s : Line) : ℕ := if s.pwu.pfuncWakeup then s.pwu.i64LastTime else s.scanTime

/-- How long each node still has to wait according to the line. -/
def left (s : Line) : List (ℕ × ℕ) :=
  (times 0 s.pwu.line).map fun p => (p.1, p.2 - (s.now - s.updated))

/-- One step. A node is added only while it is in no line and removed only while it is in this
one, and its delay is a `ULONG`. -/
def step (w : ℕ) (s : Line) : LineOp → Option Line
  | .add pwun delay bProcTime =>
    if pwun ∉ s.nodes ∧ delay < 2 ^ w then
      some { s with
        pwu := s.pwu.add w s.now pwun delay bProcTime
        req := Function.update s.req pwun ⟨s.now, delay, s.adds⟩
        adds := s.adds + 1 }
    else none
  | .del pwun bProcTime =>
    if pwun ∈ s.nodes then some { s with pwu := s.pwu.del w s.now pwun bProcTime } else none
  | .elapse ticks => some { s with now := s.now + ticks }
  | .scan =>
    some { s with
      pwu :=
        { s.pwu.pass (ulong w (s.now - s.updated)) with
          i64LastTime := if s.pwu.pfuncWakeup then s.now else s.pwu.i64LastTime }
      scanTime := s.now }

/-- A line after `__WAKEUP_INIT`. -/
def Init (s : Line) : Prop :=
  s.pwu.line = [] ∧ s.pwu.plineOp = none ∧ s.pwu.i64LastTime ≤ s.now ∧ s.scanTime ≤ s.now

/-- Time that has passed is taken off without loss: there is no node, or the time fits in a
`ULONG` and the first counter covers it or no node is due later than the first. -/
def Absorbs (w d : ℕ) (es : List WakeupNode) : Prop := es = [] ∨ d < 2 ^ w ∧ Covers d es

instance (w d : ℕ) (es : List WakeupNode) : Decidable (Absorbs w d es) :=
  inferInstanceAs (Decidable (_ ∨ _))

/-- The nodes behind the first one, whose counter its successor takes over. -/
def behindHead : List WakeupNode → List WakeupNode
  | [] => []
  | e :: es => DeltaList.delay e.delta es

/-- The condition on a step: where the time that has passed is processed, the first counter (when
the first node is removed, together with that of its successor) absorbs it; where it is not, a
node is added only to a line that is up to date. -/
def StepOk (w : ℕ) (s : Line) : LineOp → Prop
  | .add _ _ bProcTime =>
    (bProcTime ∧ s.pwu.pfuncWakeup → Absorbs w (s.now - s.updated) s.pwu.line) ∧
      (¬ (bProcTime ∧ s.pwu.pfuncWakeup) → s.updated = s.now)
  | .del pwun bProcTime =>
    bProcTime ∧ s.nodes.head? = some pwun ∧ s.pwu.pfuncWakeup →
      Absorbs w (s.now - s.updated) (behindHead s.pwu.line)
  | .elapse _ => True
  | .scan => s.now - s.updated < 2 ^ w

instance (w : ℕ) (s : Line) (a : LineOp) : Decidable (StepOk w s a) := by
  cases a <;> unfold StepOk <;> infer_instance

/-- Every node has as long to wait as its request has left, and nodes with the same deadline are
in the order in which they were added. -/
structure Timely (s : Line) : Prop where
  left : ∀ p ∈ s.left, p.2 = (s.req p.1).delay - (s.now - (s.req p.1).added)
  order : s.nodes.Pairwise fun m n =>
    (s.req m).deadline = (s.req n).deadline → (s.req m).seq < (s.req n).seq

/-- Adding or removing one node leaves all others as long to wait as before. -/
def Steady (w : ℕ) (ok : Line → LineOp → Prop) (s : Line) : Prop :=
  ∀ a s', ok s a → step w s a = some s' →
    (∀ pwun delay b, a = .add pwun delay b → ∀ p, p.1 ≠ pwun → (p ∈ s'.left ↔ p ∈ s.left)) ∧
    (∀ pwun b, a = .del pwun b → ∀ p, p.1 ≠ pwun → (p ∈ s'.left ↔ p ∈ s.left))

/-! ## The counters are the differences of the deadlines -/

/-- What a line that is kept to the condition has at all times: a node's counters add up to what
its request had left when the line was last brought up to date, and the nodes are in the order of
their deadlines, and of their requests where these are the same. -/
structure Inv (w : ℕ) (s : Line) : Prop where
  nodup : s.nodes.Nodup
  last_le : s.pwu.i64LastTime ≤ s.now
  scan_le : s.scanTime ≤ s.now
  lt : ∀ p ∈ times 0 s.pwu.line, p.2 < 2 ^ w
  due : ∀ p ∈ times 0 s.pwu.line, p.2 - (s.now - s.updated) = (s.req p.1).deadline - s.now
  past : ∀ n ∈ s.nodes, (s.req n).added ≤ s.now ∧ (s.req n).seq < s.adds
  order : s.nodes.Pairwise fun m n => (s.req m).deadline < (s.req n).deadline ∨
    (s.req m).deadline = (s.req n).deadline ∧ (s.req m).seq < (s.req n).seq

variable {w : ℕ} {s s' : Line} {pwun delay : ℕ} {b : Bool}

theorem nodes_eq (s : Line) : s.nodes = (times 0 s.pwu.line).map Prod.fst :=
  times_map_fst.symm

theorem Inv.updated_le (h : Inv w s) : s.updated ≤ s.now := by
  unfold updated
  split_ifs
  · exact h.last_le
  · exact h.scan_le

/-- What the line says of a node is what its request has left. -/
theorem Inv.mem_left (h : Inv w s) {p : ℕ × ℕ} :
    p ∈ s.left ↔ p.1 ∈ s.nodes ∧ p.2 = (s.req p.1).deadline - s.now := by
  rw [nodes_eq, left, List.mem_map, List.mem_map]
  constructor
  · intro hp
    cases hp with
    | intro q hq =>
      cases hq with
      | intro hq heq =>
        subst heq
        exact ⟨⟨q, hq, rfl⟩, h.due q hq⟩
  · intro hp
    cases hp.1 with
    | intro q hq =>
      refine ⟨q, hq.1, ?_⟩
      ext
      · exact hq.2
      · rw [hp.2, ← hq.2]
        exact h.due q hq.1

theorem Inv.timely (h : Inv w s) : Timely s := by
  constructor
  · intro p hp
    rw [h.mem_left] at hp
    have hpast := (h.past p.1 hp.1).1
    rw [hp.2, Request.deadline]
    omega
  · apply h.order.imp
    intro m n hmn heq
    omega

/-- Absorbed time is taken off the time of every node. -/
theorem Absorbs.mem_times {d : ℕ} {es : List WakeupNode} (hc : Absorbs w d es) {p : ℕ × ℕ}
    (hp : p ∈ times 0 (advance (ulong w d) es)) :
    ∃ q ∈ times 0 es, (q.1, q.2 - d) = p := by
  cases hc with
  | inl hnil => simp [hnil, advance] at hp
  | inr hc =>
    rw [ulong_of_lt hc.1, times_advance hc.2, List.mem_map] at hp
    exact hp

/-- The line when the time that has passed has been taken off it. -/
theorem Inv.due_advance (h : Inv w s) {es : List WakeupNode}
    (hes : ∀ p ∈ times 0 es, p ∈ times 0 s.pwu.line) (hc : Absorbs w (s.now - s.updated) es) :
    ∀ p ∈ times 0 (advance (ulong w (s.now - s.updated)) es),
      p.2 = (s.req p.1).deadline - s.now := by
  intro p hp
  obtain ⟨q, hq, rfl⟩ := hc.mem_times hp
  exact h.due q (hes q hq)

theorem nodes_advance (d : ℕ) (es : List WakeupNode) :
    (advance d es).map Entry.key = es.map Entry.key := by
  cases es <;> rfl

/-- The node goes between those with an earlier or the same deadline and those with a later one. -/
theorem Inv.insert (h : Inv w s) {es : List WakeupNode} (hn : es.map Entry.key = s.nodes)
    (hdue : ∀ p ∈ times 0 es, p.2 = (s.req p.1).deadline - s.now)
    (hlt : ∀ p ∈ times 0 es, p.2 < 2 ^ w) (hnot : pwun ∉ s.nodes) (hd : delay < 2 ^ w)
    (hline : s'.pwu.line = DeltaList.insert pwun delay es) (hupd : s'.updated = s.now)
    (hlast : s'.pwu.i64LastTime ≤ s.now) (hscan : s'.scanTime = s.scanTime)
    (hnow : s'.now = s.now)
    (hreq : s'.req = Function.update s.req pwun ⟨s.now, delay, s.adds⟩)
    (hadds : s'.adds = s.adds + 1) :
    Inv w s' ∧ ∀ n, n ∈ s'.nodes ↔ n = pwun ∨ n ∈ s.nodes := by
  obtain ⟨l, r, hlr, hins, hl, hr⟩ := times_insert pwun 0 delay es
  rw [Nat.zero_add] at hins hl hr
  have hnodes : s.nodes = l.map Prod.fst ++ r.map Prod.fst := by
    rw [← hn, ← times_map_fst (t := 0), hlr, List.map_append]
  have hnodes' : s'.nodes = l.map Prod.fst ++ pwun :: r.map Prod.fst := by
    rw [nodes_eq, hline, hins]
    simp
  have hmem (n : ℕ) : n ∈ s'.nodes ↔ n = pwun ∨ n ∈ s.nodes := by
    rw [hnodes, hnodes']
    simp only [List.mem_append, List.mem_cons]
    tauto
  have hself : s'.req pwun = ⟨s.now, delay, s.adds⟩ := by simp [hreq]
  have hother {n : ℕ} (hn : n ∈ s.nodes) : s'.req n = s.req n := by
    rw [hreq]
    apply Function.update_of_ne
    intro heq
    exact hnot (heq ▸ hn)
  have hpast {n : ℕ} (hn : n ∈ s.nodes) := h.past n hn
  have hmap {p : ℕ × ℕ} (hp : p ∈ l ++ r) : p ∈ times 0 es ∧ p.1 ∈ s.nodes := by
    rw [hnodes, ← List.map_append]
    exact ⟨hlr ▸ hp, List.mem_map_of_mem hp⟩
  have hcase {p : ℕ × ℕ} (hp : p ∈ times 0 s'.pwu.line) : p = (pwun, delay) ∨ p ∈ l ++ r := by
    rw [hline, hins] at hp
    simp only [List.mem_append, List.mem_cons] at hp ⊢
    tauto
  refine ⟨⟨?_, by omega, by rw [hscan, hnow]; exact h.scan_le, ?_, ?_, ?_, ?_⟩, hmem⟩
  · have hnd := h.nodup
    rw [hnodes] at hnd hnot
    rw [hnodes', List.nodup_middle, List.nodup_cons]
    exact ⟨hnot, hnd⟩
  · intro p hp
    cases hcase hp with
    | inl hp => rw [hp]; exact hd
    | inr hp => exact hlt p (hmap hp).1
  · intro p hp
    rw [hupd, hnow, Nat.sub_self, Nat.sub_zero]
    cases hcase hp with
    | inl hp =>
      subst hp
      simp [hself, Request.deadline]
    | inr hp => rw [hother (hmap hp).2]; exact hdue p (hmap hp).1
  · intro n hn
    rw [hmem] at hn
    rw [hadds, hnow]
    cases hn with
    | inl hn =>
      subst hn
      simp [hself]
    | inr hn =>
      have := hpast hn
      rw [hother hn]
      omega
  · have hord := h.order
    rw [hnodes, List.pairwise_append] at hord
    rw [hnodes', List.pairwise_append, List.pairwise_cons]
    have hsame {m n : ℕ} (hm : m ∈ s.nodes) (hn : n ∈ s.nodes)
        (hmn : (s.req m).deadline < (s.req n).deadline ∨
          (s.req m).deadline = (s.req n).deadline ∧ (s.req m).seq < (s.req n).seq) :
        (s'.req m).deadline < (s'.req n).deadline ∨
          (s'.req m).deadline = (s'.req n).deadline ∧ (s'.req m).seq < (s'.req n).seq := by
      rw [hother hm, hother hn]
      exact hmn
    have hleft {m : ℕ} (hm : m ∈ l.map Prod.fst) : m ∈ s.nodes := by
      rw [hnodes]
      exact List.mem_append_left _ hm
    have hright {m : ℕ} (hm : m ∈ r.map Prod.fst) : m ∈ s.nodes := by
      rw [hnodes]
      exact List.mem_append_right _ hm
    have hbefore {m : ℕ} (hm : m ∈ l.map Prod.fst) : (s.req m).deadline ≤ s.now + delay := by
      rw [List.mem_map] at hm
      obtain ⟨p, hp, rfl⟩ := hm
      have h₁ := hl p hp
      have h₂ := hdue p (hmap (List.mem_append_left _ hp)).1
      omega
    have hafter {m : ℕ} (hm : m ∈ r.map Prod.fst) : s.now + delay < (s.req m).deadline := by
      rw [List.mem_map] at hm
      obtain ⟨p, hp, rfl⟩ := hm
      have h₁ := hr p hp
      have h₂ := hdue p (hmap (List.mem_append_right _ hp)).1
      omega
    refine ⟨?_, ⟨?_, ?_⟩, ?_⟩
    · exact hord.1.imp_of_mem fun hm hn => hsame (hleft hm) (hleft hn)
    · intro n hn
      left
      rw [hself, hother (hright hn)]
      exact hafter hn
    · exact hord.2.1.imp_of_mem fun hm hn => hsame (hright hm) (hright hn)
    · intro m hm n hn
      rw [List.mem_cons] at hn
      cases hn with
      | inl hn =>
        subst hn
        have h₁ := hbefore hm
        have h₂ := hpast (hleft hm)
        rw [hself, hother (hleft hm)]
        change _ < s.now + delay ∨ _ = s.now + delay ∧ _ < s.adds
        omega
      | inr hn => exact hsame (hleft hm) (hright hn) (hord.2.2 m hm n hn)

/-- A removed node's successor takes its counter over without overflow. -/
theorem unlink_eq {t : ℕ} {es : List WakeupNode} (h : ∀ p ∈ times t es, p.2 < 2 ^ w) :
    Wakeup.unlink w pwun es = remove pwun es := by
  induction es generalizing t with
  | nil => rfl
  | cons e es ih =>
    simp only [times, List.mem_cons, forall_eq_or_imp] at h
    rw [Wakeup.unlink, remove, ih h.2]
    split_ifs
    · cases es with
      | nil => rfl
      | cons m ms =>
        simp only [times, List.mem_cons, forall_eq_or_imp] at h
        rw [Wakeup.carry, DeltaList.delay, ulong_of_lt (by omega)]
    · rfl

/-- A line from which nodes have gone, and whose counters have been brought up to date or not. -/
theorem Inv.sublist (h : Inv w s) (hsub : s'.nodes.Sublist s.nodes) (hreq : s'.req = s.req)
    (hadds : s'.adds = s.adds) (hnow : s'.now = s.now) (hlast : s'.pwu.i64LastTime ≤ s.now)
    (hscan : s'.scanTime ≤ s.now) (hlt : ∀ p ∈ times 0 s'.pwu.line, p.2 < 2 ^ w)
    (hdue : ∀ p ∈ times 0 s'.pwu.line,
      p.2 - (s.now - s'.updated) = (s.req p.1).deadline - s.now) : Inv w s' := by
  constructor
  · exact h.nodup.sublist hsub
  · rw [hnow]
    exact hlast
  · rw [hnow]
    exact hscan
  · exact hlt
  · rw [hnow, hreq]
    exact hdue
  · intro n hn
    rw [hreq, hadds, hnow]
    exact h.past n (hsub.subset hn)
  · rw [hreq]
    exact h.order.sublist hsub

theorem Inv.add (h : Inv w s) (hok : StepOk w s (.add pwun delay b))
    (hs : step w s (.add pwun delay b) = some s') :
    Inv w s' ∧ ∀ n, n ∈ s'.nodes ↔ n = pwun ∨ n ∈ s.nodes := by
  simp only [step, Option.ite_none_right_eq_some, Option.some.injEq] at hs
  obtain ⟨⟨hnot, hd⟩, rfl⟩ := hs
  by_cases hp : b ∧ s.pwu.pfuncWakeup
  · have hc := hok.1 hp
    have hupd : s.updated = s.pwu.i64LastTime := by rw [updated, if_pos hp.2]
    by_cases hnil : s.pwu.line = []
    · have hkeys : ([] : List WakeupNode).map Entry.key = s.nodes := by simp [nodes, hnil]
      apply h.insert hkeys (by simp) (by simp) hnot hd
      · simp [Wakeup.add, hnil]
      · simp [Wakeup.add, updated, hp, hnil]
      · simp [Wakeup.add, hp, hnil]
      all_goals rfl
    · have hlt : ∀ p ∈ times 0 (advance (ulong w (s.now - s.updated)) s.pwu.line),
          p.2 < 2 ^ w := by
        intro p hp
        obtain ⟨q, hq, rfl⟩ := hc.mem_times hp
        exact Nat.lt_of_le_of_lt (Nat.sub_le _ _) (h.lt q hq)
      apply h.insert (nodes_advance _ _) (h.due_advance (fun _ hp => hp) hc) hlt hnot hd
      · simp [Wakeup.add, hp, hnil, hupd]
      · simp [Wakeup.add, updated, hp, hnil]
      · simp [Wakeup.add, hp, hnil]
      all_goals rfl
  · have hup := hok.2 hp
    have hsame : s.pwu.add w s.now pwun delay b =
        { s.pwu with line := DeltaList.insert pwun delay s.pwu.line } := by
      have h₁ : ¬ (b ∧ s.pwu.line ≠ [] ∧ s.pwu.pfuncWakeup) := fun hh => hp ⟨hh.1, hh.2.2⟩
      have h₂ : ¬ (b ∧ s.pwu.pfuncWakeup ∧ s.pwu.line = []) := fun hh => hp ⟨hh.1, hh.2.1⟩
      simp only [Wakeup.add, if_neg h₁, if_neg h₂]
    have hdue : ∀ p ∈ times 0 s.pwu.line, p.2 = (s.req p.1).deadline - s.now := by
      intro p hp
      have hdue := h.due p hp
      rw [hup] at hdue
      omega
    apply h.insert rfl hdue h.lt hnot hd
    · rw [hsame]
    · rw [hsame]
      exact hup
    · rw [hsame]
      exact h.last_le
    all_goals rfl

theorem Inv.del (h : Inv w s) (hok : StepOk w s (.del pwun b))
    (hs : step w s (.del pwun b) = some s') :
    Inv w s' ∧ s'.nodes = s.nodes.filter (· ≠ pwun) := by
  simp only [step, Option.ite_none_right_eq_some, Option.some.injEq] at hs
  obtain ⟨-, rfl⟩ := hs
  have htimes := times_remove (k := pwun) (t := 0) h.nodup
  have hunlink : Wakeup.unlink w pwun s.pwu.line = remove pwun s.pwu.line := unlink_eq h.lt
  have hkeys : (remove pwun s.pwu.line).map Entry.key = s.nodes.filter (· ≠ pwun) := by
    rw [← times_map_fst (t := 0), htimes, nodes_eq, List.filter_map]
    rfl
  have hsub : ∀ p ∈ times 0 (remove pwun s.pwu.line), p ∈ times 0 s.pwu.line := by
    rw [htimes]
    intro p hp
    exact List.mem_of_mem_filter hp
  have hfunc : (s.pwu.del w s.now pwun b).pfuncWakeup = s.pwu.pfuncWakeup := by
    unfold Wakeup.del
    dsimp only
    split_ifs <;> rfl
  by_cases hp : b ∧ s.nodes.head? = some pwun ∧ s.pwu.pfuncWakeup
  · have hc : Absorbs w (s.now - s.updated) (remove pwun s.pwu.line) := by
      have hok := hok hp
      cases hline : s.pwu.line with
      | nil => simp [nodes, hline] at hp
      | cons e es =>
        rw [hline] at hok
        have hkey : e.key = pwun := by simpa [nodes, hline] using hp.2.1
        rw [remove, if_pos hkey]
        exact hok
    have hupd : s.updated = s.pwu.i64LastTime := by rw [updated, if_pos hp.2.2]
    have hline : (s.pwu.del w s.now pwun b).line =
        advance (ulong w (s.now - s.updated)) (remove pwun s.pwu.line) := by
      unfold Wakeup.del
      rw [hunlink, hupd]
      exact congrArg Wakeup.line (if_pos hp)
    have hlast : (s.pwu.del w s.now pwun b).i64LastTime = s.now := by
      unfold Wakeup.del
      exact congrArg Wakeup.i64LastTime (if_pos hp)
    have hnodes : ((s.pwu.del w s.now pwun b).line).map Entry.key =
        s.nodes.filter (· ≠ pwun) := by rw [hline, nodes_advance, hkeys]
    refine ⟨?_, hnodes⟩
    apply h.sublist
    · change (((s.pwu.del w s.now pwun b).line).map Entry.key).Sublist s.nodes
      rw [hnodes]
      exact List.filter_sublist
    · rfl
    · rfl
    · rfl
    · exact Nat.le_of_eq hlast
    · exact h.scan_le
    · rw [hline]
      intro p hp
      obtain ⟨q, hq, rfl⟩ := hc.mem_times hp
      exact Nat.lt_of_le_of_lt (Nat.sub_le _ _) (h.lt q (hsub q hq))
    · rw [hline]
      intro p hp'
      have hup : updated { s with pwu := s.pwu.del w s.now pwun b } = s.now := by
        rw [updated, hfunc, if_pos hp.2.2, hlast]
      rw [h.due_advance hsub hc p hp', hup, Nat.sub_self, Nat.sub_zero]
  · have hline : (s.pwu.del w s.now pwun b).line = remove pwun s.pwu.line := by
      unfold Wakeup.del
      rw [hunlink]
      exact congrArg Wakeup.line (if_neg hp)
    have hlast : (s.pwu.del w s.now pwun b).i64LastTime = s.pwu.i64LastTime := by
      unfold Wakeup.del
      exact Eq.trans (congrArg Wakeup.i64LastTime (if_neg hp)) rfl
    have hnodes : ((s.pwu.del w s.now pwun b).line).map Entry.key =
        s.nodes.filter (· ≠ pwun) := by rw [hline, hkeys]
    refine ⟨?_, hnodes⟩
    apply h.sublist
    · change (((s.pwu.del w s.now pwun b).line).map Entry.key).Sublist s.nodes
      rw [hnodes]
      exact List.filter_sublist
    · rfl
    · rfl
    · rfl
    · exact hlast ▸ h.last_le
    · exact h.scan_le
    · rw [hline]
      exact fun p hp => h.lt p (hsub p hp)
    · rw [hline]
      intro p hp'
      have hup : updated { s with pwu := s.pwu.del w s.now pwun b } = s.updated := by
        rw [updated, updated, hfunc, hlast]
      rw [hup]
      exact h.due p (hsub p hp')

theorem Inv.elapse (h : Inv w s) {ticks : ℕ} (hs : step w s (.elapse ticks) = some s') :
    Inv w s' := by
  simp only [step, Option.some.injEq] at hs
  subst hs
  have hupd := h.updated_le
  constructor
  · exact h.nodup
  · exact Nat.le_trans h.last_le (Nat.le_add_right _ _)
  · exact Nat.le_trans h.scan_le (Nat.le_add_right _ _)
  · exact h.lt
  · intro p hp
    have hdue := h.due p hp
    change p.2 - (s.now + ticks - s.updated) = (s.req p.1).deadline - (s.now + ticks)
    omega
  · intro n hn
    have hpast := h.past n hn
    exact ⟨Nat.le_trans hpast.1 (Nat.le_add_right _ _), hpast.2⟩
  · exact h.order

theorem Inv.scan (h : Inv w s) (hok : StepOk w s .scan) (hs : step w s .scan = some s') :
    Inv w s' := by
  simp only [step, Option.some.injEq] at hs
  subst hs
  have htimes : times 0 (expire (s.now - s.updated) s.pwu.line) = _ := times_expire
  have hline : expire (ulong w (s.now - s.updated)) s.pwu.line =
      expire (s.now - s.updated) s.pwu.line := by rw [ulong_of_lt hok]
  have hpass : (s.pwu.pass (ulong w (s.now - s.updated))).line =
      expire (s.now - s.updated) s.pwu.line := by rw [Wakeup.pass, hline]
  apply h.sublist
  · rw [nodes_eq, nodes_eq]
    change ((times 0 (s.pwu.pass (ulong w (s.now - s.updated))).line).map Prod.fst).Sublist _
    rw [hpass, htimes, List.map_map]
    exact List.Sublist.map _ List.filter_sublist
  · rfl
  · rfl
  · rfl
  · change (if s.pwu.pfuncWakeup then s.now else s.pwu.i64LastTime) ≤ s.now
    split_ifs
    · exact Nat.le_refl _
    · exact h.last_le
  · exact Nat.le_refl _
  · intro p hp
    change p ∈ times 0 (s.pwu.pass (ulong w (s.now - s.updated))).line at hp
    rw [hpass, htimes, List.mem_map] at hp
    obtain ⟨q, hq, rfl⟩ := hp
    exact Nat.lt_of_le_of_lt (Nat.sub_le _ _) (h.lt q (List.mem_of_mem_filter hq))
  · intro p hp
    change p ∈ times 0 (s.pwu.pass (ulong w (s.now - s.updated))).line at hp
    rw [hpass, htimes, List.mem_map] at hp
    obtain ⟨q, hq, rfl⟩ := hp
    have hdue := h.due q (List.mem_of_mem_filter hq)
    have hupd : updated { s with
        pwu :=
          { s.pwu.pass (ulong w (s.now - s.updated)) with
            i64LastTime := if s.pwu.pfuncWakeup then s.now else s.pwu.i64LastTime }
        scanTime := s.now } = s.now := by
      unfold updated
      change (if s.pwu.pfuncWakeup then (if s.pwu.pfuncWakeup then s.now else s.pwu.i64LastTime)
        else s.now) = s.now
      split_ifs <;> rfl
    rw [hupd, Nat.sub_self, Nat.sub_zero]
    exact hdue

theorem Init.inv (h : Init s) : Inv w s := by
  obtain ⟨hline, -, hlast, hscan⟩ := h
  constructor
  · simp [nodes, hline]
  · exact hlast
  · exact hscan
  · simp [hline]
  · simp [hline]
  · simp [nodes, hline]
  · simp [nodes, hline]

theorem Inv.step (h : Inv w s) {a : LineOp} (hok : StepOk w s a) (hs : Line.step w s a = some s') :
    Inv w s' := by
  cases a with
  | add pwun delay b => exact (h.add hok hs).1
  | del pwun b => exact (h.del hok hs).1
  | elapse ticks => exact h.elapse hs
  | scan => exact h.scan hok hs

theorem Inv.steady (h : Inv w s) : Steady w (StepOk w) s := by
  intro a s' hok hs
  constructor
  · rintro pwun delay b rfl p hp
    have hadd := h.add hok hs
    have hreq : s'.req p.1 = s.req p.1 ∧ s'.now = s.now := by
      simp only [Line.step, Option.ite_none_right_eq_some, Option.some.injEq] at hs
      obtain ⟨-, rfl⟩ := hs
      exact ⟨Function.update_of_ne hp _ _, rfl⟩
    rw [hadd.1.mem_left, h.mem_left, hadd.2, hreq.1, hreq.2]
    simp [hp]
  · rintro pwun b rfl p hp
    have hdel := h.del hok hs
    have hreq : s'.req = s.req ∧ s'.now = s.now := by
      simp only [Line.step, Option.ite_none_right_eq_some, Option.some.injEq] at hs
      obtain ⟨-, rfl⟩ := hs
      exact ⟨rfl, rfl⟩
    rw [hdel.1.mem_left, h.mem_left, hdel.2, hreq.1, hreq.2]
    simp [hp]

/-- In every run that keeps to the condition the line holds the deadlines of its requests. -/
theorem wakeupLine_timely (h : Reach (Line.step w) (StepOk w) Init s) :
    Timely s ∧ Steady w (StepOk w) s := by
  have hinv : Inv w s := h.invariant (fun _ => Init.inv) fun _ _ _ hi => hi.step
  exact ⟨hinv.timely, hinv.steady⟩

/-- In such a run `_WakeupStatus` reports what the request of a node has left, once the list has a
time. -/
theorem wakeupStatus_left (hreach : Reach (Line.step w) (StepOk w) Init s) (hn : pwun ∈ s.nodes)
    (hf : s.pwu.pfuncWakeup = true) (hlast : s.pwu.i64LastTime ≠ 0)
    (hd : s.now - s.pwu.i64LastTime < 2 ^ w) :
    s.pwu.status w s.now pwun = (s.req pwun).deadline - s.now := by
  have h : Inv w s := hreach.invariant (fun _ => Init.inv) fun _ _ _ hi => hi.step
  unfold Wakeup.status
  cases hfind : (times 0 s.pwu.line).find? (fun p => p.1 = pwun) with
  | none =>
    rw [List.find?_eq_none] at hfind
    rw [nodes_eq, List.mem_map] at hn
    obtain ⟨p, hp, heq⟩ := hn
    exact absurd heq (by simpa using hfind p hp)
  | some p =>
    have hmem := List.mem_of_find?_eq_some hfind
    have hkey : p.1 = pwun := by simpa using List.find?_some hfind
    have hdue := h.due p hmem
    rw [updated, if_pos hf, hkey] at hdue
    simp only [if_pos hlast, ulong_of_lt (h.lt p hmem), ulong_of_lt hd, hdue]

/-- A timer of 5 ticks and one of 8 ticks, started at the time 100. -/
def twoTimers : Line where
  pwu := ⟨[⟨1, 5⟩, ⟨2, 3⟩], none, 100, true⟩
  now := 100
  scanTime := 100
  req := Function.update (Function.update (fun _ => ⟨0, 0, 0⟩) 1 ⟨100, 5, 0⟩) 2 ⟨100, 8, 1⟩
  adds := 2

theorem twoTimers_reach {ok : Line → LineOp → Prop} (hok : ∀ s a, StepOk 64 s a → ok s a) :
    Reach (Line.step 64) ok Init twoTimers := by
  let start : Line := ⟨⟨[], none, 0, true⟩, 100, 100, fun _ => ⟨0, 0, 0⟩, 0⟩
  have hstart : Reach (Line.step 64) ok Init start := .start (by simp [Init, start])
  exact .step (.step hstart (a := .add 1 5 true) (hok _ _ (by decide)) rfl)
    (a := .add 2 8 true) (hok _ _ (by decide)) rfl

theorem wakeupLine_timely_twoTimers : Timely twoTimers ∧ Steady 64 (StepOk 64) twoTimers :=
  wakeupLine_timely (twoTimers_reach fun _ _ h => h)

theorem wakeupStatus_left_twoTimers : twoTimers.pwu.status 64 100 2 = 8 :=
  wakeupStatus_left (twoTimers_reach fun _ _ h => h) (by decide) rfl (by decide) (by decide)

/-- Seven ticks later a third timer is started. The first timer's counter does not cover them, and
the second is left with 3 ticks instead of 1. -/
theorem wakeupLine_late : ¬ ∀ s, Reach (Line.step 64) (fun _ _ => True) Init s →
    Timely s ∧ Steady 64 (fun _ _ => True) s := by
  intro h
  have hr := ((twoTimers_reach fun _ _ _ => trivial).extend (.elapse 7) trivial rfl).extend
    (.add 3 10 true) trivial rfl
  have hleft := (h _ hr).1.left (2, 3) (by decide)
  exact absurd hleft (by decide)

end Line

end SylixOS.Kernel
