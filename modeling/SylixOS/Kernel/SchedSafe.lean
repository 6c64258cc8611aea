import SylixOS.Kernel.Candidates
import Mathlib.Data.Fin.VecNotation

/-! # The scheduler loses no ready thread

Every operation of the scheduler keeps the ready threads placed: it takes a thread from its place
and gives it another one, or none if the thread is no longer ready. The active CPUs are the ones
with candidates.
-/

namespace SylixOS.Kernel.Sched
open Lib

variable {T C : Type} [DecidableEq T] [DecidableEq C] {s s' s₁ : Sched T C} {R R' : T → Prop}
  {t u : T} {c e i : C} {b d : Option C × Prio} {k : List C}

/-! ## A thread gets a place -/

/-- The thread has become the candidate of an active CPU that had none, or it has no place yet. -/
def Tried (s : Sched T C) (t : T) (r : Sched T C × Bool) : Prop :=
  ∃ s₁, RotOnly s s₁ ∧
    (r = (s₁, false) ∨ ∃ c, (s.cpu c).active = true ∧ s.cand c = none ∧ r = (s₁.setCand t c, true))

theorem tryAddLocked_tried : s.Tried t (s.tryAddLocked t) := by
  unfold tryAddLocked
  dsimp only
  split_ifs with hact
  · cases hc : s.cand (s.tcb t).ulCPULock with
    | none => exact ⟨s, .refl s, .inr ⟨_, hact, hc, rfl⟩⟩
    | some u =>
      dsimp only
      split_ifs
      · exact ⟨_, rotOnly_candRot true, .inl rfl⟩
      · exact ⟨s, .refl s, .inl rfl⟩
  · exact ⟨s, .refl s, .inl rfl⟩

omit [DecidableEq T] [DecidableEq C] in
theorem tryAddLast_empty (h : s.tryAddLast t = .empty c) :
    (s.cpu c).active = true ∧ s.cand c = none := by
  unfold tryAddLast at h
  dsimp only at h
  split_ifs at h with hact
  cases hc : s.cand (s.tcb t).ulCPUId with
  | none =>
    simp only [hc, Found.empty.injEq] at h
    subst h
    exact ⟨hact.1, hc⟩
  | some u =>
    simp only [hc] at h
    split_ifs at h

omit [DecidableEq T] in
theorem tryAddIdle_empty (h : s.tryAddIdle e k = .empty c) :
    (s.cpu c).active = true ∧ s.cand c = none := by
  induction k with
  | nil => simp [tryAddIdle] at h
  | cons i k ih =>
    rw [tryAddIdle] at h
    split_ifs at h with hi haff
    · exact ih h
    · cases hc : s.cand i with
      | none =>
        simp only [hc, Found.empty.injEq] at h
        subst h
        exact ⟨hi.2, hc⟩
      | some u =>
        simp only [hc] at h
        split_ifs at h
        exact ih h
    · exact ih h

omit [DecidableEq T] in
theorem tryAddRotate_spec {p : Prio} : RotOnly s (tryAddRotate p k s).1 ∧
    ∀ c, (tryAddRotate p k s).2 = some c →
      (s.cpu c).active = true ∧ s.cand c = none := by
  induction k generalizing s with
  | nil =>
    refine ⟨.refl s, fun c hc => ?_⟩
    simp [tryAddRotate] at hc
  | cons i k ih =>
    rw [tryAddRotate]
    split_ifs with hact haff
    · exact ih
    · cases hc : s.cand i with
      | none =>
        refine ⟨.refl s, fun c h => ?_⟩
        rw [Option.some.injEq] at h
        subst h
        exact ⟨hact, hc⟩
      | some u =>
        dsimp only
        split_ifs
        · have hrot : RotOnly s (s.candRot i true) := rotOnly_candRot true
          obtain ⟨hspec, hfound⟩ := ih (s := s.candRot i true)
          refine ⟨hrot.trans hspec, fun c h => ?_⟩
          rw [← hrot.frame.active, ← hrot.cand]
          exact hfound c h
        · exact ih
    · exact ih

theorem tryAddFree_tried : s.Tried t (s.tryAddFree t k) := by
  unfold tryAddFree
  cases hlast : s.tryAddLast t with
  | empty i =>
    have h := tryAddLast_empty hlast
    exact ⟨s, .refl s, .inr ⟨i, h.1, h.2, rfl⟩⟩
  | idle i => exact ⟨_, rotOnly_candRot true, .inl rfl⟩
  | none =>
    dsimp only
    cases hidle : s.tryAddIdle (s.tcb t).ulCPUId k with
    | empty i =>
      have h := tryAddIdle_empty hidle
      exact ⟨s, .refl s, .inr ⟨i, h.1, h.2, rfl⟩⟩
    | idle i => exact ⟨_, rotOnly_candRot true, .inl rfl⟩
    | none =>
      obtain ⟨hrot, hfound⟩ := tryAddRotate_spec (s := s) (k := k)
        (p := (s.tcb t).ucPriority)
      rcases hr : tryAddRotate (s.tcb t).ucPriority k s with ⟨s₁, o⟩
      rw [hr] at hrot hfound
      cases o with
      | none => exact ⟨s₁, hrot, .inl rfl⟩
      | some i => exact ⟨s₁, hrot, .inr ⟨i, (hfound i rfl).1, (hfound i rfl).2, rfl⟩⟩

/-- What changes for the other CPUs when the thread gets a place. -/
structure Added (s s' : Sched T C) (t : T) : Prop where
  frame : Frame s s'
  cand : ∀ c, s'.cand c = s.cand c ∨
    (s.cpu c).active = true ∧ s.cand c = none ∧ s'.cand c = some t

theorem addToReadyRing_placed (hp : Placed s R) (ht : ¬ R t) :
    Placed (s.addToReadyRing t k (s.getPcb t)) (fun u => R u ∨ u = t) ∧
      Added s (s.addToReadyRing t k (s.getPcb t)) t := by
  have htried : s.Tried t (if (s.tcb t).bCPULock then s.tryAddLocked t else s.tryAddFree t k) := by
    split_ifs
    · exact tryAddLocked_tried
    · exact tryAddFree_tried
  obtain ⟨s₁, hrot, hr⟩ := htried
  have hp₁ : Placed s₁ R := hp.same hrot.samePlaces
  rw [addToReadyRing, candTableTryAdd]
  rcases hr with hr | ⟨c, hact, hc, hr⟩
  · have hin := ringIn_of_tryAdd (s := s₁) (t := t)
    rw [hrot.frame.getPcb] at hin
    simp only [hr, Bool.false_eq_true, if_false]
    refine ⟨hp₁.ringIn ht (by rwa [hrot.frame.getPcb]), hrot.frame.trans hin.frame, fun c => .inl ?_⟩
    rw [Sched.cand, hin.cpu]
    exact hrot.cand c
  · have hc₁ : s₁.cand c = none := by rw [hrot.cand, hc]
    simp only [hr, if_true]
    refine ⟨hp₁.setCand ht hc₁, hrot.frame.trans (Frame.setCand s₁), fun e => ?_⟩
    by_cases he : e = c
    · subst he
      refine .inr ⟨hact, hc, ?_⟩
      simp [Sched.setCand, Sched.cand]
    · refine .inl ?_
      rw [← hrot.cand]
      simp [Sched.setCand, Sched.cand, modCpu_of_ne _ _ _ he]

/-! ## A thread leaves its place -/

/-- What changes for the CPUs when a thread leaves its place. -/
structure Removed (s s' : Sched T C) : Prop where
  frame : Frame s s'
  cand : ∀ c, (s'.cand c).isSome = (s.cand c).isSome

theorem delFromReadyRing_ring (hp : Placed s R) (ht : (s.tcb t).bIsCand = false) :
    s.delFromReadyRing t (s.getPcb t) = some (s.delFromPcb t (s.getPcb t)) := by
  have hc : s.cand (s.tcb t).ulCPUId ≠ some t := by
    rw [Ne, hp.cand, ht]
    simp
  have hcand : (s.delTcbFromReadyRing t (s.getPcb t)).cand
      ((s.delTcbFromReadyRing t (s.getPcb t)).tcb t).ulCPUId ≠ some t := hc
  simp only [delFromReadyRing, ht, Bool.false_eq_true, not_false_eq_true, if_true, candTableTryDel,
    if_neg hcand]
  rfl

theorem delFromReadyRing_cand (hp : Placed s R) (ht : (s.tcb t).bIsCand = true) :
    s.delFromReadyRing t b =
      ((s.modTcb t fun x => { x with bIsCand := false }).candTableFill (s.tcb t).ulCPUId).map
        fun s' => s'.candRot (s.tcb t).ulCPUId false := by
  have hc : s.cand (s.tcb t).ulCPUId = some t := (hp.cand _ t).mpr ⟨ht, rfl⟩
  simp only [delFromReadyRing, ht, not_true, if_false, candTableTryDel, hc, if_true]

theorem delFromReadyRing_placed (hp : Placed s R)
    (hs : s.delFromReadyRing t (s.getPcb t) = some s') :
    Placed s' (fun u => R u ∧ u ≠ t) ∧ Removed s s' := by
  cases ht : (s.tcb t).bIsCand with
  | false =>
    rw [delFromReadyRing_ring hp ht, Option.some.injEq] at hs
    subst hs
    have hout := ringOut_delFromPcb (s := s) (t := t)
    refine ⟨hp.ringOut ht hout, hout.frame, fun c => ?_⟩
    rw [Sched.cand, hout.cpu, Sched.cand]
  | true =>
    rw [delFromReadyRing_cand hp ht, Option.map_eq_some_iff] at hs
    obtain ⟨s₁, hfill, rfl⟩ := hs
    have hc : s.cand (s.tcb t).ulCPUId = some t := (hp.cand _ t).mpr ⟨ht, rfl⟩
    have hclear := hp.clearCand hc
    obtain ⟨hp₁, ⟨u, hu, -⟩, hframe, hne⟩ := candTableFill_some hclear hfill
    have hrot : RotOnly s₁ (s₁.candRot (s.tcb t).ulCPUId false) := rotOnly_candRot false
    have hfree : Frame s (s.modTcb t fun x => { x with bIsCand := false }) :=
      frame_modTcb (fun _ => rfl) (fun _ => rfl) (fun _ => rfl) fun _ => rfl
    refine ⟨hp₁.same hrot.samePlaces, (hfree.trans hframe).trans hrot.frame, fun e => ?_⟩
    rw [hrot.cand]
    by_cases he : e = (s.tcb t).ulCPUId
    · rw [he, hu, hc]
      rfl
    · rw [hne e he]
      rfl

/-- A thread can be taken from its ring, and a candidate if there is another thread for its CPU. -/
theorem delFromReadyRing_isSome (hp : Placed s R)
    (ht : (s.tcb t).bIsCand = true → ∃ b, s.Eligible (s.tcb t).ulCPUId b ∧ s.pcb b ≠ []) :
    (s.delFromReadyRing t (s.getPcb t)).isSome := by
  cases hc : (s.tcb t).bIsCand with
  | false =>
    rw [delFromReadyRing_ring hp hc]
    rfl
  | true =>
    obtain ⟨b, hb, hne⟩ := ht hc
    have hfill := candTableFill_isSome (s := s.modTcb t fun x => { x with bIsCand := false })
      hp.marked hb hne
    rw [delFromReadyRing_cand hp hc, Option.isSome_map]
    exact hfill

/-! ## The operations -/

/-- The active CPUs are the ones with candidates. -/
def CandOk (s : Sched T C) : Prop := ∀ c, (s.cpu c).active = true ↔ (s.cand c).isSome = true

omit [DecidableEq T] [DecidableEq C] in
theorem CandOk.congr (h : CandOk s) (hact : ∀ c, (s'.cpu c).active = (s.cpu c).active)
    (hc : ∀ c, (s'.cand c).isSome = (s.cand c).isSome) : CandOk s' := by
  intro c
  rw [hact, hc]
  exact h c

omit [DecidableEq T] [DecidableEq C] in
theorem CandOk.added (h : CandOk s) (ha : Added s s' t) : CandOk s' := by
  refine h.congr ha.frame.active fun c => ?_
  rcases ha.cand c with hc | ⟨hact, hc, -⟩
  · rw [hc]
  · have hsome := (h c).mp hact
    rw [hc] at hsome
    simp at hsome

omit [DecidableEq T] [DecidableEq C] in
theorem CandOk.othersOk (h : CandOk s) : s.OthersOk c := fun e _ he => (h e).mp he

/-- What a run of the scheduler keeps. -/
structure Inv (s : Sched T C) : Prop where
  placed : Placed s fun t => (s.tcb t).ready = true
  candOk : CandOk s

omit [DecidableEq T] [DecidableEq C] in
theorem Inv.rotOnly (h : Inv s) (hr : RotOnly s s') : Inv s' where
  placed := (h.placed.same hr.samePlaces).congr fun t => by rw [hr.tcb]
  candOk := h.candOk.congr hr.frame.active fun c => by rw [hr.cand]

omit [DecidableEq C] in
/-- Only what the scheduler does not place the thread by has changed. -/
theorem Inv.modTcb {f : SchedTcb C → SchedTcb C} (h : Inv s)
    (ht : (s.tcb t).ready = false ∨ (s.tcb t).bIsCand = true)
    (hcand : ∀ x, (f x).bIsCand = x.bIsCand) (hid : ∀ x, (f x).ulCPUId = x.ulCPUId)
    (hready : ∀ x, (f x).ready = x.ready) : Inv (s.modTcb t f) where
  placed := by
    refine (h.placed.modTcb (t := t) (f := f) ?_ hcand hid).congr fun u => ?_
    · cases ht with
      | inl ht => exact .inl (by simp [ht])
      | inr ht => exact .inr ht
    · by_cases hu : u = t
      · subst hu
        rw [modTcb_self, hready]
      · rw [modTcb_of_ne _ _ _ hu]
  candOk := h.candOk

theorem Inv.add (h : Inv s) (ht : (s.tcb t).ready = false) {act : SchedAct} :
    Inv ((s.modTcb t fun x => { x with ucSchedActivate := act, ready := true }).addToReadyRing t
      k (s.getPcb t)) := by
  let x₀ := s.modTcb t fun x => { x with ucSchedActivate := act, ready := true }
  have hsame : SamePlaces s x₀ :=
    samePlaces_modTcb (fun _ => rfl) (fun _ => rfl) (fun _ => rfl) (fun _ => rfl) fun _ => rfl
  have hnot : ¬ (s.tcb t).ready = true := by simp [ht]
  have hadd := addToReadyRing_placed (k := k) (h.placed.same hsame) hnot
  rw [hsame.getPcb] at hadd
  have hok : CandOk x₀ := h.candOk
  refine ⟨hadd.1.congr fun u => ?_, hok.added hadd.2⟩
  rw [hadd.2.frame.ready]
  by_cases hu : u = t
  · subst hu
    simp [x₀]
  · simp [x₀, modTcb_of_ne _ _ _ hu, hu]

theorem Inv.del (h : Inv s) (hs : s.delFromReadyRing t (s.getPcb t) = some s') :
    Inv (s'.modTcb t fun x => { x with ready := false }) := by
  obtain ⟨hp, hremoved⟩ := delFromReadyRing_placed h.placed hs
  have hsame : SamePlaces s' (s'.modTcb t fun x => { x with ready := false }) :=
    samePlaces_modTcb (fun _ => rfl) (fun _ => rfl) (fun _ => rfl) (fun _ => rfl) fun _ => rfl
  refine ⟨(hp.same hsame).congr fun u => ?_, h.candOk.congr hremoved.frame.active hremoved.cand⟩
  by_cases hu : u = t
  · subst hu
    simp
  · simp [modTcb_of_ne _ _ _ hu, hremoved.frame.ready, hu]

theorem Inv.update (h : Inv s) (hs : s.candTableUpdate c k = some s') : Inv s' := by
  obtain ⟨hp, hframe, hne, hact, hinact⟩ := candTableUpdate_some h.placed hs
  refine ⟨hp.congr fun t => by rw [hframe.ready], ?_⟩
  cases ha : (s.cpu c).active with
  | false =>
    rw [hinact ha]
    exact h.candOk
  | true =>
    refine h.candOk.congr hframe.active fun e => ?_
    by_cases he : e = c
    · obtain ⟨t, ht, -⟩ := hact ha
      rw [he, ht, (h.candOk c).mp ha]
      rfl
    · rw [hne e he]

/-- A thread moves: it leaves its place, is changed, and gets a place again. -/
theorem Inv.move {f : SchedTcb C → SchedTcb C} (h : Inv s) (ht : (s.tcb t).ready = true)
    (hs : s.delFromReadyRing t (s.getPcb t) = some s₁)
    (hcand : ∀ x, (f x).bIsCand = x.bIsCand) (hid : ∀ x, (f x).ulCPUId = x.ulCPUId)
    (hready : ∀ x, (f x).ready = x.ready) :
    Inv ((s₁.modTcb t f).addToReadyRing t k ((s₁.modTcb t f).getPcb t)) := by
  obtain ⟨hp, hremoved⟩ := delFromReadyRing_placed h.placed hs
  have hnot : ¬ ((s.tcb t).ready = true ∧ t ≠ t) := fun hx => hx.2 rfl
  obtain ⟨hp', hadd⟩ := addToReadyRing_placed (k := k)
    (hp.modTcb (f := f) (.inl hnot) hcand hid) hnot
  have hok : CandOk (s₁.modTcb t f) := h.candOk.congr hremoved.frame.active hremoved.cand
  refine ⟨hp'.congr fun u => ?_, hok.added hadd⟩
  rw [hadd.frame.ready]
  by_cases hu : u = t
  · subst hu
    simp [hready, hremoved.frame.ready, ht]
  · simp [modTcb_of_ne _ _ _ hu, hremoved.frame.ready, hu]

theorem Inv.setPrio (h : Inv s) {ucPriority : Prio}
    (hs : s.schedSetPrio t k ucPriority = some s') : Inv s' := by
  unfold schedSetPrio at hs
  dsimp only at hs
  split_ifs at hs with hready hcand
  · rw [Option.some.injEq] at hs
    subst hs
    have hrot : RotOnly s (s.candRot (s.tcb t).ulCPUId true) := rotOnly_candRot true
    exact (h.rotOnly hrot).modTcb (.inr hcand) (fun _ => rfl) (fun _ => rfl) fun _ => rfl
  · simp only [Option.bind_eq_bind, Option.bind_eq_some_iff, Option.some.injEq] at hs
    obtain ⟨s₁, hdel, rfl⟩ := hs
    have hmove := h.move (k := k) (f := fun x => { x with ucPriority }) hready hdel
      (fun _ => rfl) (fun _ => rfl) fun _ => rfl
    have htable : s₁.table t = s.table t :=
      congrArg Prod.fst ((delFromReadyRing_placed h.placed hdel).2.frame.getPcb t)
    have hget : (s₁.modTcb t fun x => { x with ucPriority }).getPcb t = s.getPcbEx t ucPriority := by
      simp only [getPcb, getPcbEx, table, modTcb_self]
      exact congrArg (·, ucPriority) htable
    rwa [hget] at hmove
  · rw [Option.some.injEq] at hs
    subst hs
    exact h.modTcb (.inl (by simpa using hready)) (fun _ => rfl) (fun _ => rfl) fun _ => rfl

theorem Inv.threadSetAffinity (h : Inv s) {o : Option C}
    (ho : o = none → (s.tcb t).ready = true → (s.tcb t).bIsCand = true)
    (hs : s.threadSetAffinity t k o = some s') : Inv s' := by
  cases o with
  | none =>
    rw [Sched.threadSetAffinity, Option.some.injEq] at hs
    subst hs
    refine h.modTcb ?_ (fun _ => rfl) (fun _ => rfl) fun _ => rfl
    cases ht : (s.tcb t).ready with
    | false => exact .inl rfl
    | true => exact .inr (ho rfl ht)
  | some i =>
    rw [Sched.threadSetAffinity] at hs
    split_ifs at hs with ht
    · simp only [Option.bind_eq_bind, Option.bind_eq_some_iff, Option.some.injEq] at hs
      obtain ⟨s₁, hdel, rfl⟩ := hs
      exact h.move ht hdel (fun _ => rfl) (fun _ => rfl) fun _ => rfl
    · rw [Option.some.injEq] at hs
      subst hs
      exact h.modTcb (.inl (by simpa using ht)) (fun _ => rfl) (fun _ => rfl) fun _ => rfl

/-! ## CPUs that go up and down -/

omit [DecidableEq T] in
/-- The threads do not depend on whether a CPU is active. -/
theorem Placed.setActive (h : Placed s R) (x : Bool) :
    Placed (s.modCpu c fun y => { y with active := x }) R where
  nodup := h.nodup
  mem := h.mem
  cand e t := by
    have hcand : (s.modCpu c fun y => { y with active := x }).cand e = s.cand e := by
      by_cases he : e = c
      · subst he
        simp [Sched.cand]
      · simp [Sched.cand, modCpu_of_ne _ _ _ he]
    rw [hcand]
    exact h.cand e t
  ready := h.ready
  marked := h.marked

theorem Inv.remove (h : Inv s) : s.candTableRemove c = some s := by
  unfold candTableRemove
  split_ifs with hact hc
  · rfl
  · exact absurd ((h.candOk c).mpr hc) hact
  · rfl

theorem Inv.cpuActive (h : Inv s) (hs : s.cpuActive c k = some s') : Inv s' := by
  unfold Sched.cpuActive at hs
  split_ifs at hs with ha
  · rw [Option.some.injEq] at hs
    subst hs
    exact h
  · have hself : ((s.modCpu c fun x => { x with active := true }).cpu c).active = true := by simp
    obtain ⟨hp, hframe, hne, hact, -⟩ := candTableUpdate_some (h.placed.setActive true) hs
    refine ⟨hp.congr fun t => by rw [hframe.ready, modCpu_tcb], fun e => ?_⟩
    rw [hframe.active]
    by_cases he : e = c
    · obtain ⟨t, ht, -⟩ := hact hself
      rw [he, hself, ht]
      simp
    · rw [modCpu_of_ne _ _ _ he, hne e he, Sched.cand, modCpu_of_ne _ _ _ he]
      exact h.candOk e

/-- An active CPU goes down: its candidate goes back to its ring. -/
theorem Inv.down (h : Inv s) (hc : s.cand c = some t) :
    ∃ s₁, (s.modCpu c fun x => { x with active := false }).candTableRemove c = some s₁ ∧ Inv s₁ := by
  let x₀ := s.modCpu c fun x => { x with active := false }
  have hc₀ : x₀.cand c = some t := by simpa [x₀, Sched.cand] using hc
  obtain ⟨s₁, hempty, hp, hemptied⟩ := candTableEmpty_some (h.placed.setActive (c := c) false) hc₀
  refine ⟨s₁, ?_, hp.congr fun u => ?_, fun e => ?_⟩
  · simp [candTableRemove, hc₀, hempty, x₀]
  · rw [hemptied.frame.ready, modCpu_tcb]
  · rw [hemptied.frame.active]
    by_cases he : e = c
    · subst he
      simp [hemptied.cand]
    · rw [hemptied.cand_ne e he, modCpu_of_ne _ _ _ he, Sched.cand, modCpu_of_ne _ _ _ he]
      exact h.candOk e

theorem Inv.cpuInactive (h : Inv s) : ∃ s', s.cpuInactive c k = some s' ∧ Inv s' := by
  unfold Sched.cpuInactive
  by_cases hact : (s.cpu c).active = true
  · obtain ⟨t, ht⟩ := Option.isSome_iff_exists.mp ((h.candOk c).mp hact)
    obtain ⟨s₁, hremove, h₁⟩ := h.down ht
    have hrot : RotOnly s₁ (s₁.candRot c false) := rotOnly_candRot false
    have h₂ := h₁.rotOnly hrot
    simp only [hact, not_true, if_false, ht, Option.bind_eq_bind, Option.bind_some, hremove]
    split_ifs
    · exact ⟨_, rfl, h₂⟩
    · obtain ⟨s₃, h₃⟩ := Option.isSome_iff_exists.mp
        (candTableNotify_isSome (t := t) (k := k) (h₂.candOk.othersOk (c := c)))
      exact ⟨s₃, h₃, h₂.rotOnly (candTableNotify_some h₃)⟩
  · rw [if_pos hact]
    exact ⟨s, rfl, h⟩

/-! ## Runs of the scheduler -/

/-- The operations of the scheduler. -/
inductive SchedOp (T C : Type) where
  | add (t : T) (ucSchedActivate : SchedAct)
  | del (t : T)
  | update (c : C)
  | remove (c : C)
  | setPrio (t : T) (ucPriority : Prio)
  | setAffinity (t : T) (ulCPU : Option C)
  | active (c : C)
  | inactive (c : C)
  | tick (c : C) (t : T)
  | yield (t : T)
  | onlyAffinity (c : C) (bEnable : Bool)

/-- A thread becomes ready or stops to be ready together with the operation on its ring. -/
def step (cpus : List C) (s : Sched T C) : SchedOp T C → Option (Sched T C)
  | .add t ucSchedActivate =>
    if (s.tcb t).ready then none
    else
      some ((s.modTcb t fun x => { x with ucSchedActivate, ready := true }).addToReadyRing t cpus
        (s.getPcb t))
  | .del t =>
    if (s.tcb t).ready then
      (s.delFromReadyRing t (s.getPcb t)).map fun s => s.modTcb t fun x => { x with ready := false }
    else none
  | .update c => s.candTableUpdate c cpus
  | .remove c => s.candTableRemove c
  | .setPrio t ucPriority => s.schedSetPrio t cpus ucPriority
  | .setAffinity t ulCPU =>
    if ulCPU = none ∧ (s.tcb t).ready ∧ ¬ (s.tcb t).bIsCand then none
    else s.threadSetAffinity t cpus ulCPU
  | .active c => s.cpuActive c cpus
  | .inactive c => s.cpuInactive c cpus
  | .tick c t => some (s.schedTick t c)
  | .yield t => some (s.schedYield t)
  | .onlyAffinity c bEnable => some (s.cpuSetSchedAffinity c bEnable)

/-- The scheduler before any CPU is active. -/
structure Init (s : Sched T C) : Prop where
  ready : ∀ t, (s.tcb t).ready = false
  isCand : ∀ t, (s.tcb t).bIsCand = false
  active : ∀ c, (s.cpu c).active = false
  cand : ∀ c, s.cand c = none
  pcb : ∀ b, s.pcb b = []
  bmap : ∀ i, (s.rdy i).bmap = .bitmapInit

omit [DecidableEq T] [DecidableEq C] in
theorem Init.inv (h : Init s) : Inv s where
  placed := by
    refine ⟨fun b => ?_, fun b t => ?_, fun c t => ?_, fun t ht => ?_, fun b => ?_⟩
    · simp [h.pcb]
    · simp [h.pcb, h.ready]
    · simp [h.cand, h.isCand]
    · simp [h.isCand] at ht
    · simp [h.pcb, marked, h.bmap]
  candOk c := by simp [h.active, h.cand]

omit [DecidableEq C] in
/-- The time slice of a thread plays no part in where it is. -/
theorem Inv.counter (h : Inv s) {f : SchedTcb C → ℕ} :
    Inv (s.modTcb t fun x => { x with usSchedCounter := f x }) := by
  have hsame : SamePlaces s (s.modTcb t fun x => { x with usSchedCounter := f x }) :=
    samePlaces_modTcb (fun _ => rfl) (fun _ => rfl) (fun _ => rfl) (fun _ => rfl) fun _ => rfl
  have hframe : Frame s (s.modTcb t fun x => { x with usSchedCounter := f x }) :=
    frame_modTcb (fun _ => rfl) (fun _ => rfl) (fun _ => rfl) fun _ => rfl
  exact ⟨(h.placed.same hsame).congr fun u => by rw [hframe.ready], h.candOk⟩

omit [DecidableEq T] in
theorem Inv.onlyAffinity (h : Inv s) {x : Bool} :
    Inv (s.modCpu c fun y => { y with bOnlyAffinity := x }) := by
  have hcand (e : C) : (s.modCpu c fun y => { y with bOnlyAffinity := x }).cand e = s.cand e := by
    by_cases he : e = c
    · subst he
      simp [Sched.cand]
    · simp [Sched.cand, modCpu_of_ne _ _ _ he]
  refine ⟨⟨h.placed.nodup, h.placed.mem, fun e t => ?_, h.placed.ready, h.placed.marked⟩,
    h.candOk.congr (fun e => ?_) fun e => by rw [hcand]⟩
  · rw [hcand]
    exact h.placed.cand e t
  · by_cases he : e = c
    · subst he
      simp
    · rw [modCpu_of_ne _ _ _ he]

/-- A step of the scheduler keeps the ready threads placed. -/
theorem Inv.step {op : SchedOp T C} (h : Inv s) (hs : s.step k op = some s') : Inv s' := by
  cases op with
  | add t act =>
    rw [Sched.step] at hs
    split_ifs at hs with ht
    rw [Option.some.injEq] at hs
    subst hs
    exact h.add (by simpa using ht)
  | del t =>
    rw [Sched.step] at hs
    split_ifs at hs with ht
    obtain ⟨s₁, hdel, rfl⟩ := Option.map_eq_some_iff.mp hs
    exact h.del hdel
  | update c => exact h.update hs
  | remove c =>
    rw [Sched.step, h.remove, Option.some.injEq] at hs
    subst hs
    exact h
  | setPrio t ucPriority => exact h.setPrio hs
  | setAffinity t o =>
    rw [Sched.step] at hs
    split_ifs at hs with ht
    refine h.threadSetAffinity (fun ho hready => ?_) hs
    by_contra hcand
    exact ht ⟨ho, hready, hcand⟩
  | active c => exact h.cpuActive hs
  | inactive c =>
    obtain ⟨s₁, hs₁, h₁⟩ := h.cpuInactive (c := c) (k := k)
    rw [Sched.step, hs₁, Option.some.injEq] at hs
    subst hs
    exact h₁
  | tick c t =>
    rw [Sched.step, Option.some.injEq] at hs
    subst hs
    unfold schedTick
    split_ifs
    · exact h.rotOnly (rotOnly_candRot true)
    · exact h.counter
    · exact h
  | yield t =>
    rw [Sched.step, Option.some.injEq] at hs
    subst hs
    exact (h.counter (f := fun _ => 0)).rotOnly (rotOnly_candRot true)
  | onlyAffinity c bEnable =>
    rw [Sched.step, Option.some.injEq] at hs
    subst hs
    unfold cpuSetSchedAffinity
    split_ifs
    · exact h
    · exact h.onlyAffinity.rotOnly (rotOnly_candRot true)

/-- The thread may be taken away: if it is a candidate, there is another thread for its CPU. -/
def CanLeave (s : Sched T C) (t : T) : Prop :=
  (s.tcb t).bIsCand = true → ∃ b, s.Eligible (s.tcb t).ulCPUId b ∧ s.pcb b ≠ []

/-- What the callers see to: only threads that are not ready become ready, only ready ones stop to
be so, and a CPU is never left without a thread to run. -/
def Applies (s : Sched T C) : SchedOp T C → Prop
  | .add t _ => (s.tcb t).ready = false
  | .del t => (s.tcb t).ready = true ∧ s.CanLeave t
  | .setAffinity t none => (s.tcb t).ready = true → (s.tcb t).bIsCand = true
  | .setAffinity t (some _) => (s.tcb t).ready = true → s.CanLeave t
  | .active c => (s.cpu c).active = false → ∃ b, s.Eligible c b ∧ s.pcb b ≠ []
  | _ => True

theorem Inv.setPrio_isSome (h : Inv s) {ucPriority : Prio} :
    (s.schedSetPrio t k ucPriority).isSome := by
  unfold schedSetPrio
  dsimp only
  split_ifs with hready hcand
  · rfl
  · obtain ⟨s₁, h₁⟩ := Option.isSome_iff_exists.mp
      (delFromReadyRing_isSome h.placed fun hc => absurd hc hcand)
    simp [h₁]
  · rfl

theorem Inv.cpuActive_isSome (h : Inv s)
    (hc : (s.cpu c).active = false → ∃ b, s.Eligible c b ∧ s.pcb b ≠ []) :
    (s.cpuActive c k).isSome := by
  unfold Sched.cpuActive
  split_ifs with hact
  · rfl
  · have hact' : (s.cpu c).active = false := by simpa using hact
    obtain ⟨b, hb, hne⟩ := hc hact'
    have hnone : s.cand c = none := by
      have hno := (not_congr (h.candOk c)).mp hact
      simpa using hno
    have hb' : (s.modCpu c fun x => { x with active := true }).Eligible c b := by
      simpa [Eligible] using hb
    have hfill := candTableFill_isSome (s := s.modCpu c fun x => { x with active := true })
      h.placed.marked hb' hne
    have hnone' : (s.modCpu c fun x => { x with active := true }).cand c = none := by
      simpa [Sched.cand] using hnone
    simp only [candTableUpdate, modCpu_self, not_true, if_false, hnone', Option.isSome_map]
    exact hfill

/-- An operation that applies reads through no null pointer. -/
theorem Inv.step_isSome {op : SchedOp T C} (h : Inv s) (ha : s.Applies op) :
    (s.step k op).isSome := by
  cases op with
  | add t act =>
    have ht : ¬ (s.tcb t).ready = true := by simpa [Applies] using ha
    simp [Sched.step, ht]
  | del t =>
    simp only [Sched.step, ha.1, if_true, Option.isSome_map]
    exact delFromReadyRing_isSome h.placed ha.2
  | update c =>
    exact candTableUpdate_isSome h.placed h.candOk.othersOk (h.candOk c).mp
  | remove c =>
    rw [Sched.step, h.remove]
    rfl
  | setPrio t ucPriority => exact h.setPrio_isSome
  | setAffinity t o =>
    cases o with
    | none =>
      have hno : ¬ ((none : Option C) = none ∧ (s.tcb t).ready = true ∧ ¬ (s.tcb t).bIsCand = true) :=
        fun hx => hx.2.2 (ha hx.2.1)
      rw [Sched.step, if_neg hno]
      rfl
    | some i =>
      rw [Sched.step, if_neg (by simp), Sched.threadSetAffinity]
      split_ifs with hready
      · obtain ⟨s₁, h₁⟩ := Option.isSome_iff_exists.mp
          (delFromReadyRing_isSome h.placed (ha hready))
        simp [h₁]
      · rfl
  | active c => exact h.cpuActive_isSome ha
  | inactive c =>
    obtain ⟨s', hs', -⟩ := h.cpuInactive (c := c) (k := k)
    rw [Sched.step, hs']
    rfl
  | tick c t => rfl
  | yield t => rfl
  | onlyAffinity c bEnable => rfl

/-- What the ready rings and the candidates are for. -/
structure SchedSafe (cpus : List C) (s : Sched T C) : Prop where
  /-- A ready thread is the candidate of one CPU and in no ring, or in its own ring alone and no
  candidate. -/
  place : ∀ t, (s.tcb t).ready = true →
    ((∃! c, s.cand c = some t) ∧ ∀ b, t ∉ s.pcb b) ∨
      ((∀ c, s.cand c ≠ some t) ∧ ∀ b, t ∈ s.pcb b ↔ b = s.getPcb t)
  noPlace : ∀ t, (s.tcb t).ready = false → (∀ c, s.cand c ≠ some t) ∧ ∀ b, t ∉ s.pcb b
  nodup : ∀ b, (s.pcb b).Nodup
  bitmap : ∀ i p, (s.rdy i).bmap.has p = true ↔ (s.rdy i).pcb p ≠ []
  update : ∀ c s', s.candTableUpdate c cpus = some s' → ∀ t, s'.cand c = some t →
    ∀ b u, s'.Eligible c b → u ∈ s'.pcb b → (s'.tcb t).ucPriority ≤ (s'.tcb u).ucPriority
  candidate : ∀ c, (s.cpu c).active = true ↔ ∃ t, s.cand c = some t
  total : ∀ op, s.Applies op → (s.step cpus op).isSome

omit [DecidableEq T] [DecidableEq C] in
theorem Placed.place (h : Placed s R) (ht : R t) :
    ((∃! c, s.cand c = some t) ∧ ∀ b, t ∉ s.pcb b) ∨
      ((∀ c, s.cand c ≠ some t) ∧ ∀ b, t ∈ s.pcb b ↔ b = s.getPcb t) := by
  cases hc : (s.tcb t).bIsCand with
  | true =>
    refine .inl ⟨⟨(s.tcb t).ulCPUId, (h.cand _ t).mpr ⟨hc, rfl⟩, fun e he => ?_⟩, fun b hb => ?_⟩
    · exact ((h.cand e t).mp he).2.symm
    · have hno := ((h.mem b t).mp hb).2.1
      rw [hc] at hno
      simp at hno
  | false =>
    refine .inr ⟨fun c hct => ?_, fun b => ?_⟩
    · have hyes := ((h.cand c t).mp hct).1
      rw [hc] at hyes
      simp at hyes
    · rw [h.mem]
      exact ⟨fun hb => hb.2.2.symm, fun hb => ⟨ht, hc, hb.symm⟩⟩

theorem Inv.safe (h : Inv s) : SchedSafe k s where
  place t ht := h.placed.place ht
  noPlace t ht := by
    have hnot : ¬ (s.tcb t).ready = true := by simp [ht]
    refine ⟨fun c hc => hnot (h.placed.ready t ((h.placed.cand c t).mp hc).1), fun b hb => ?_⟩
    exact hnot ((h.placed.mem b t).mp hb).1
  nodup := h.placed.nodup
  bitmap i p := h.placed.marked (i, p)
  update c s' hs t ht b u hb hu := by
    have hinv := h.update hs
    obtain ⟨-, hframe, -, hact, -⟩ := candTableUpdate_some h.placed hs
    have hactive : (s.cpu c).active = true := by
      rw [← hframe.active, hinv.candOk c, ht]
      rfl
    obtain ⟨v, hv, hle⟩ := hact hactive
    rw [ht, Option.some.injEq] at hv
    subst hv
    exact hle b u hb hu
  candidate c := by rw [h.candOk c, Option.isSome_iff_exists]
  total _ := h.step_isSome

/-- In every run of the scheduler, on any number of CPUs, no ready thread is lost or doubled. -/
theorem candTable_safe (h : Reach (step k) (fun _ _ => True) Init s) : SchedSafe k s := by
  have hinv : Inv s := by
    apply h.invariant (fun _ hi => hi.inv)
    intro s a s' hi _ hs
    exact hi.step hs
  exact hinv.safe

/-- Threads with the given priorities, the first two of them locked to the first two CPUs. -/
def twoCpus (prios : Fin 4 → Prio) : Sched (Fin 4) (Fin 2) where
  tcb t :=
    { bCPULock := decide (t < 2), ulCPULock := Fin.ofNat 2 t.val, ulCPUId := Fin.ofNat 2 t.val,
      bIsCand := false, ucSchedPolicy := .rr, ucSchedActivate := .other,
      ucSchedActivateMode := .auto, usSchedSlice := 10, usSchedCounter := 10,
      ucPriority := prios t, ready := false }
  cpu _ := { ptcbCand := none, bNeedRotate := false, active := false, bOnlyAffinity := false }
  rdy _ := { bmap := .bitmapInit, pcb := fun _ => [] }

theorem twoCpus_init (prios : Fin 4 → Prio) : Init (twoCpus prios) :=
  ⟨fun _ => rfl, fun _ => rfl, fun _ => rfl, fun _ => rfl, fun _ => rfl, fun _ => rfl⟩

/-- Two CPUs idle, a thread comes and runs on the first one; a more urgent one on the second CPU goes
back to its ring when that CPU goes down. -/
def comeAndGo : List (SchedOp (Fin 4) (Fin 2)) :=
  [.add 0 .other, .add 1 .other, .active 0, .active 1, .add 2 .other, .update 0, .add 3 .other,
    .update 1, .setPrio 3 50, .inactive 1, .setPrio 1 40]

theorem candTable_safe_comeAndGo : ∃ s,
    runs (step [0, 1]) (twoCpus ![255, 255, 100, 200]) comeAndGo = some s ∧
      s.cand 0 = some 2 ∧ s.pcb (none, 50) = [3] ∧ SchedSafe [0, 1] s := by
  have hinit := twoCpus_init ![255, 255, 100, 200]
  exact ⟨_, rfl, rfl, rfl, candTable_safe (.of_runs (.start hinit)
    (rfl : runs (step [0, 1]) (twoCpus ![255, 255, 100, 200]) comeAndGo = some _))⟩

end SylixOS.Kernel.Sched
