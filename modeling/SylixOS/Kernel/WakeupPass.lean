import SylixOS.Kernel.WakeupLine
import SylixOS.Lib.Cut
import SylixOS.Lib.DeltaScan

/-! # Passing over the wake-up line

The loop that the `__WAKEUP_PASS` macros make takes the time that has passed off the nodes of a line
one after the other. Its body leaves the lock for each node that is due, and `WU_plineOp` remembers
where the loop goes on. Until then nodes may be added to the line and removed from it.
-/

namespace SylixOS.Kernel
open Lib Lib.DeltaList

namespace Wakeup

/-- `__WAKEUP_PASS_FIRST` before its loop. -/
def passFirst (pwu : Wakeup) : Wakeup := { pwu with plineOp := (pwu.line.map Entry.key).head? }

/-- One round of the loop of `__WAKEUP_PASS_FIRST`: the node at `WU_plineOp` and what is left of
`ulCounter`, or nothing when the loop ends. -/
def passNext (ulCounter : ℕ) (pwu : Wakeup) : Wakeup × Option (ℕ × ℕ) :=
  match pwu.plineOp with
  | none => (pwu, none)
  | some pwun =>
    match cut Entry.key pwun pwu.line with
    | none => (pwu, none)
    | some (l, e, r) =>
      let plineOp := (r.map Entry.key).head?
      if ulCounter < e.delta then
        ({ pwu with line := l ++ { e with delta := e.delta - ulCounter } :: r, plineOp }, none)
      else
        ({ pwu with line := l ++ { e with delta := 0 } :: r, plineOp },
          some (pwun, ulCounter - e.delta))

/-- The nodes before the one at `WU_plineOp`, and the nodes from it on. -/
def parts (pwu : Wakeup) : List WakeupNode × List WakeupNode :=
  match pwu.plineOp with
  | none => (pwu.line, [])
  | some pwun =>
    match cut Entry.key pwun pwu.line with
    | none => (pwu.line, [])
    | some (l, e, r) => (l, e :: r)

/-- A pass over the line has come to the nodes `rest`. -/
structure Scan (pwu : Wakeup) (before rest : List WakeupNode) : Prop where
  line : pwu.line = before ++ rest
  op : pwu.plineOp = (rest.map Entry.key).head?

variable {w now left c pwun : ℕ} {pwu : Wakeup} {before rest l r : List WakeupNode}
  {e : WakeupNode}

theorem scan_passFirst : Scan pwu.passFirst [] pwu.line := ⟨rfl, rfl⟩

theorem Scan.passNext_nil (h : Scan pwu before []) : pwu.passNext left = (pwu, none) := by
  rw [passNext, h.op]
  rfl

theorem Scan.cut_eq (h : Scan pwu before (e :: r)) (hd : (pwu.line.map Entry.key).Nodup) :
    pwu.plineOp = some e.key ∧ cut Entry.key e.key pwu.line = some (before, e, r) := by
  rw [h.line] at hd ⊢
  exact ⟨h.op, cut_of_nodup hd⟩

theorem Scan.parts_eq (h : Scan pwu before rest) (hd : (pwu.line.map Entry.key).Nodup) :
    pwu.parts = (before, rest) := by
  cases rest with
  | nil =>
    rw [parts, h.op, h.line, List.append_nil]
    rfl
  | cons e r =>
    obtain ⟨hop, hcut⟩ := h.cut_eq hd
    rw [parts, hop]
    dsimp only
    rw [hcut]

/-- The node at the cursor is not due. -/
theorem Scan.passNext_stop (h : Scan pwu before (e :: r)) (hd : (pwu.line.map Entry.key).Nodup)
    (he : left < e.delta) : pwu.passNext left =
      ({ pwu with
        line := before ++ { e with delta := e.delta - left } :: r
        plineOp := (r.map Entry.key).head? }, none) := by
  obtain ⟨hop, hcut⟩ := h.cut_eq hd
  rw [passNext, hop]
  dsimp only
  rw [hcut]
  exact if_pos he

/-- The node at the cursor is due. -/
theorem Scan.passNext_due (h : Scan pwu before (e :: r)) (hd : (pwu.line.map Entry.key).Nodup)
    (he : e.delta ≤ left) : pwu.passNext left =
      ({ pwu with
        line := before ++ { e with delta := 0 } :: r
        plineOp := (r.map Entry.key).head? }, some (e.key, left - e.delta)) := by
  obtain ⟨hop, hcut⟩ := h.cut_eq hd
  rw [passNext, hop]
  dsimp only
  rw [hcut]
  exact if_neg (Nat.not_lt.mpr he)

theorem unlink_append (hl : ∀ m ∈ l, m.key ≠ pwun) (hkey : e.key = pwun) :
    unlink w pwun (l ++ e :: r) = l ++ carry w e.delta r := by
  induction l with
  | nil => rw [List.nil_append, unlink, if_pos hkey, List.nil_append]
  | cons m l ih =>
    rw [List.cons_append, unlink, if_neg (hl m List.mem_cons_self),
      ih fun n hn => hl n (List.mem_cons_of_mem _ hn), List.cons_append]

theorem carry_zero (h : ∀ m ∈ r, m.delta < 2 ^ w) : carry w 0 r = r := by
  cases r with
  | nil => rfl
  | cons m r =>
    rw [carry, Nat.add_zero, ulong_of_lt (h m List.mem_cons_self)]

/-- A node that is due is taken out of the line. -/
theorem Scan.take (h : Scan pwu before (e :: r)) (now : ℕ) (hd : (pwu.line.map Entry.key).Nodup)
    (hlt : ∀ m ∈ pwu.line, m.delta < 2 ^ w) (he : e.delta ≤ left) :
    ∃ pwu', pwu.passNext left = (pwu', some (e.key, left - e.delta)) ∧
      pwu'.del w now e.key false =
        { pwu with line := before ++ r, plineOp := (r.map Entry.key).head? } := by
  refine ⟨_, h.passNext_due hd he, ?_⟩
  have hother : ∀ m ∈ before ++ r, m.key ≠ e.key := by
    rw [h.line, List.map_append, List.map_cons, List.nodup_middle, List.nodup_cons,
      ← List.map_append] at hd
    exact fun m hm heq => hd.1 (heq ▸ List.mem_map_of_mem hm)
  have hop : ¬ (r.map Entry.key).head? = some e.key := by
    cases r with
    | nil => simp
    | cons m r =>
      intro heq
      exact hother m (List.mem_append_right _ List.mem_cons_self) (Option.some.inj heq)
  have hline : unlink w e.key (before ++ { e with delta := 0 } :: r) = before ++ r := by
    have hunlink := unlink_append (w := w) (e := { e with delta := 0 }) (r := r)
      (fun m hm => hother m (List.mem_append_left _ hm)) rfl
    rw [hunlink, carry_zero]
    intro m hm
    exact hlt m (h.line ▸ List.mem_append_right _ (List.mem_cons_of_mem _ hm))
  rw [del]
  dsimp only
  rw [hline, if_neg hop]
  exact if_neg fun hfalse => Bool.false_ne_true hfalse.1

theorem add_false : pwu.add w now pwun c false =
    { pwu with line := DeltaList.insert pwun c pwu.line } := by
  simp [Wakeup.add]

/-- A node that is added while a pass is under way. -/
theorem Scan.add (h : Scan pwu before rest) (w now pwun c : ℕ) :
    Scan (pwu.add w now pwun c false) (place pwun c before rest).1 (place pwun c before rest).2 := by
  rw [add_false]
  constructor
  · rw [h.line]
    exact insert_eq_place
  · dsimp only
    rw [h.op, List.head?_map, List.head?_map, head_place]

theorem next_append (hl : ∀ m ∈ l, m.key ≠ e.key) :
    next e.key (l ++ e :: r) = (r.map Entry.key).head? := by
  induction l with
  | nil =>
    cases r with
    | nil => rfl
    | cons m r => exact if_pos rfl
  | cons m l ih =>
    have hm : m.key ≠ e.key := hl m List.mem_cons_self
    rw [← ih fun n hn => hl n (List.mem_cons_of_mem _ hn)]
    cases l <;> exact if_neg hm

/-- `WU_plineOp` moves on when its node is removed. -/
theorem Scan.op_del (h : Scan pwu before rest) (hd : (pwu.line.map Entry.key).Nodup) :
    (if pwu.plineOp = some pwun then next pwun pwu.line else pwu.plineOp) =
      ((rest.map Entry.key).filter (· ≠ pwun)).head? := by
  cases rest with
  | nil =>
    rw [h.op, if_neg (by simp)]
    rfl
  | cons e r =>
    rw [h.op, List.map_cons, List.head?_cons, h.line]
    rw [h.line, List.map_append, List.map_cons, List.nodup_middle, List.nodup_cons,
      ← List.map_append] at hd
    by_cases he : e.key = pwun
    · subst he
      rw [if_pos rfl, next_append fun m hm heq => hd.1
        (heq ▸ List.mem_map_of_mem (List.mem_append_left _ hm)),
        List.filter_cons_of_neg (by simp), List.filter_eq_self.mpr]
      intro n hn
      rw [decide_eq_true_eq]
      rintro rfl
      refine hd.1 ?_
      rw [List.map_append]
      exact List.mem_append_right _ hn
    · rw [if_neg (fun heq => he (Option.some.inj heq)), List.filter_cons_of_pos (by simpa using he),
        List.head?_cons]

/-- A node is added when the time that has passed has been taken off the first one. -/
theorem add_true (hf : pwu.pfuncWakeup = true) : pwu.add w now pwun c true =
    { pwu with
      line := DeltaList.insert pwun c
        (DeltaList.advance (ulong w (now - pwu.i64LastTime)) pwu.line)
      i64LastTime := now } := by
  by_cases hnil : pwu.line = []
  · simp [Wakeup.add, hf, hnil, DeltaList.advance]
  · simp [Wakeup.add, hf, hnil]

/-- When the first node is removed, the time that has passed is taken off the next one. -/
theorem del_true (w now pwun : ℕ) (hf : pwu.pfuncWakeup = true) : pwu.del w now pwun true =
    let plineOp := if pwu.plineOp = some pwun then next pwun pwu.line else pwu.plineOp
    if (pwu.line.map Entry.key).head? = some pwun then
      { pwu with
        plineOp
        line := DeltaList.advance (ulong w (now - pwu.i64LastTime)) (unlink w pwun pwu.line)
        i64LastTime := now }
    else { pwu with plineOp, line := unlink w pwun pwu.line } := by
  simp [del, hf]

/-! ## The times of the nodes -/

/-- The nodes of a line that counts from the time `T`, and whose pass has come to `rest` with `left`
of its counter, fall due at times of which `ok` holds. -/
structure Held (w T now : ℕ) (ok : ℕ → ℕ → Prop) (before rest : List WakeupNode) (left : ℕ)
    (line : List WakeupNode) : Prop where
  eq : line = before ++ rest
  sound : Sound before rest left
  left_le : left ≤ T
  time_le : T ≤ now
  nodup : (line.map Entry.key).Nodup
  lt : total line < 2 ^ w
  kept : ∀ p ∈ dues T left before rest, ok p.1 p.2

variable {T : ℕ} {ok ok' : ℕ → ℕ → Prop} {line line' : List WakeupNode}

theorem Held.mem_line (h : Held w T now ok before rest left line) {p : ℕ × ℕ}
    (hp : p ∈ dues T left before rest) : p.1 ∈ line.map Entry.key := by
  have hkeys : (dues T left before rest).map Prod.fst = line.map Entry.key := by
    rw [h.eq]
    exact dues_map_fst
  rw [← hkeys]
  exact List.mem_map_of_mem hp

theorem Held.delta_lt (h : Held w T now ok before rest left line) (he : e ∈ line) :
    e.delta < 2 ^ w :=
  Nat.lt_of_le_of_lt (delta_le_total he) h.lt

/-- The times are judged in another way. -/
theorem Held.imp (h : Held w T now ok before rest left line)
    (hok : ∀ n ∈ line.map Entry.key, ∀ t, ok n t → ok' n t) {now' : ℕ} (hnow : now ≤ now') :
    Held w T now' ok' before rest left line :=
  ⟨h.eq, h.sound, h.left_le, Nat.le_trans h.time_le hnow, h.nodup, h.lt,
    fun p hp => hok _ (h.mem_line hp) _ (h.kept p hp)⟩

/-- A line without nodes. -/
theorem held_nil (hleft : left ≤ T) (htime : T ≤ now) : Held w T now ok [] [] left [] := by
  refine ⟨rfl, sound_nil, hleft, htime, List.nodup_nil, Nat.two_pow_pos w, ?_⟩
  rintro p ⟨⟩

/-- Time that has passed is taken off the first node, and nodes that are due may become due later. -/
theorem Held.advance (h : Held w T now ok before rest left line)
    (hok : ∀ n t t', ok n t → t ≤ t' → t' ≤ now → ok n t')
    (hc : Line.Absorbs w (now - T) line) :
    ∃ before' rest', rest'.map Entry.key = rest.map Entry.key ∧
      Held w now now ok before' rest' left (DeltaList.advance (ulong w (now - T)) line) := by
  have htime := h.time_le
  have hleft := h.left_le
  rcases hc with hnil | ⟨hd, hc⟩
  · have hempty : before = [] ∧ rest = [] := List.append_eq_nil_iff.mp (h.eq ▸ hnil)
    obtain ⟨rfl, rfl⟩ := hempty
    rw [hnil]
    exact ⟨[], [], rfl, held_nil (Nat.le_trans hleft htime) (Nat.le_refl _)⟩
  · rw [ulong_of_lt hd]
    rw [h.eq] at hc
    obtain ⟨before', rest', hline, hkeys, hsound, hdues⟩ := h.sound.advance hc hleft
    refine ⟨before', rest', hkeys, ?_, hsound, Nat.le_trans hleft htime, Nat.le_refl _, ?_, ?_, ?_⟩
    · rw [h.eq]
      exact hline
    · rw [key_advance]
      exact h.nodup
    · exact Nat.lt_of_le_of_lt total_advance h.lt
    · intro p' hp'
      rw [show T + (now - T) = now by omega] at hdues
      obtain ⟨p, hp, hkey, hsame | ⟨hle, hnow⟩⟩ := hdues p' hp'
      · rw [← hkey, hsame]
        exact h.kept p hp
      · rw [← hkey]
        exact hok _ _ _ (h.kept p hp) hle hnow

/-- A node is taken out of the line, and its successor gets its counter. -/
theorem Held.unlink (h : Held w T now ok before rest left line)
    (hok : ∀ n t, n ≠ pwun → ok n t → ok' n t) :
    Wakeup.unlink w pwun line = remove pwun line ∧
    ∃ before' rest', rest'.map Entry.key = (rest.map Entry.key).filter (· ≠ pwun) ∧
      Held w T now ok' before' rest' left (remove pwun line) := by
  have hunlink : Wakeup.unlink w pwun line = remove pwun line :=
    Line.unlink_eq (t := 0) fun p hp => by
      have := times_le_total hp
      have := h.lt
      omega
  obtain ⟨before', rest', hline, hkeys, hsound, hdues⟩ :=
    h.sound.remove (k := pwun) (h.eq ▸ h.nodup) h.left_le
  refine ⟨hunlink, before', rest', hkeys, ?_, hsound, h.left_le, h.time_le, ?_, ?_, ?_⟩
  · rw [h.eq]
    exact hline
  · rw [key_remove h.nodup]
    exact h.nodup.filter _
  · exact Nat.lt_of_le_of_lt total_remove h.lt
  · intro p hp
    rw [hdues, List.mem_filter, decide_eq_true_eq] at hp
    exact hok _ _ hp.2 (h.kept p hp.1)

/-- A node is added, and falls due after `c`, or sooner by what is left of the pass. -/
theorem Held.insert (h : Held w T now ok before rest left line)
    (hnot : pwun ∉ line.map Entry.key) (hc : c < 2 ^ w) (hplace : InsertOk c before rest left)
    (hok : ∀ n t, n ≠ pwun → ok n t → ok' n t)
    (hnew : ok' pwun (if Behind c before rest then T + c - left else T + c)) :
    Held w T now ok' (place pwun c before rest).1 (place pwun c before rest).2 left
      (DeltaList.insert pwun c line) := by
  have hperm : ((DeltaList.insert pwun c line).map Entry.key).Perm
      (pwun :: line.map Entry.key) := perm_insert
  obtain ⟨l, r, hl, hr⟩ := dues_place pwun c before rest h.left_le
  have hother : ∀ p ∈ l ++ r, ok' p.1 p.2 := by
    intro p hp
    rw [← hl] at hp
    refine hok _ _ ?_ (h.kept p hp)
    rintro rfl
    exact hnot (h.mem_line hp)
  constructor
  · rw [h.eq, insert_eq_place]
  · exact h.sound.place hplace
  · exact h.left_le
  · exact h.time_le
  · exact hperm.nodup_iff.mpr (List.nodup_cons.mpr ⟨hnot, h.nodup⟩)
  · have hle : total (DeltaList.insert pwun c line) ≤ max c (total line) := total_insert_le
    have hlt := h.lt
    omega
  · rw [hr]
    intro p hp
    simp only [List.mem_append, List.mem_cons] at hp
    rcases hp with hp | rfl | hp
    · exact hother p (List.mem_append_left _ hp)
    · exact hnew
    · exact hother p (List.mem_append_right _ hp)

/-- A node that is due is taken out of the line by a pass. -/
theorem Held.take (h : Held w T now ok before (e :: r) left line) (he : e.delta ≤ left)
    (hline : line' = before ++ r) :
    (∃ t, ok e.key t ∧ t + left = T + total before + e.delta ∧ t ≤ T) ∧
      Held w T now ok before r (left - e.delta) line' := by
  obtain ⟨hdue, hsound, hdues⟩ := h.sound.take he h.left_le
  have hleft := h.left_le
  constructor
  · refine ⟨_, h.kept (e.key, T + total before - left + e.delta) ?_, ?_, hdue⟩
    · rw [hdues]
      exact List.mem_append_right _ List.mem_cons_self
    · dsimp only
      omega
  · have hsub : (before ++ r).Sublist line := by
      rw [h.eq]
      exact (List.sublist_cons_self _ _).append_left _
    refine ⟨hline, hsound, by omega, h.time_le, ?_, ?_, ?_⟩
    · rw [hline]
      exact h.nodup.sublist (hsub.map _)
    · have hlt := h.lt
      rw [h.eq, total_append, total_cons] at hlt
      rw [hline, total_append]
      omega
    · intro p hp
      refine h.kept p ?_
      rw [hdues]
      rw [dues, List.mem_append] at hp
      rw [List.mem_append, List.mem_cons]
      exact hp.imp id .inr

/-- A pass ends at a node that is not due. -/
theorem Held.stop (h : Held w T now ok before (e :: r) left line) (he : left < e.delta)
    (hline : line' = before ++ { e with delta := e.delta - left } :: r) :
    line'.map Entry.key = line.map Entry.key ∧ Held w T now ok line' [] 0 line' := by
  subst hline
  have hkeys : (before ++ { e with delta := e.delta - left } :: r).map Entry.key =
      line.map Entry.key := by
    rw [h.eq, List.map_append, List.map_append]
    rfl
  refine ⟨hkeys, (List.append_nil _).symm, sound_nil, Nat.zero_le _, h.time_le, hkeys ▸ h.nodup,
    ?_, ?_⟩
  · have hlt := h.lt
    rw [h.eq, total_append, total_cons] at hlt
    rw [total_append, total_cons]
    dsimp only
    omega
  · rw [dues_nil, times_stop he h.left_le]
    exact h.kept

/-- A pass has come to the end of the line. -/
theorem Held.finish (h : Held w T now ok before [] left line) : Held w T now ok line [] 0 line := by
  have hline : line = before := by rw [h.eq, List.append_nil]
  refine ⟨(List.append_nil _).symm, sound_nil, Nat.zero_le _, h.time_le, h.nodup, h.lt, ?_⟩
  have hkept := h.kept
  rw [dues_nil] at hkept
  rw [hline, dues_nil]
  exact hkept

/-- A pass begins with the time that has passed, or with what a `ULONG` holds of it. -/
theorem Held.start (h : Held w T now ok line [] 0 line)
    (hok : now - T < 2 ^ w ∨
      ∀ p ∈ times T line, ∀ t, p.2 ≤ t → t ≤ p.2 + (now - T) → ok p.1 t) :
    Held w now now ok [] line (ulong w (now - T)) line := by
  have htime := h.time_le
  have hle : ulong w (now - T) ≤ now - T := Nat.mod_le _ _
  have hkept := h.kept
  rw [dues_nil] at hkept
  refine ⟨rfl, sound_start, by omega, Nat.le_refl _, h.nodup, h.lt, ?_⟩
  rw [dues_start]
  rcases hok with hd | hok
  · rw [ulong_of_lt hd, show now - (now - T) = T by omega]
    exact hkept
  · rw [show now - ulong w (now - T) = T + (now - T - ulong w (now - T)) by omega, times_add]
    intro p hp
    obtain ⟨q, hq, rfl⟩ := List.mem_map.mp hp
    refine hok q hq _ (Nat.le_add_right _ _) ?_
    dsimp only
    omega

end Wakeup

end SylixOS.Kernel
