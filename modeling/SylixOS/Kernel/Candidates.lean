import SylixOS.Kernel.ReadySet

/-! # The candidates of the CPUs

A CPU that chooses its candidate anew puts the old one back into its ring and takes the new one out
of the ring that it stands in, so that all threads stay placed. The new candidate is a most urgent
one of the threads that the CPU may run.
-/

namespace SylixOS.Kernel.Sched
open Lib Function

variable {T C : Type} [DecidableEq T] [DecidableEq C] {s s' s₁ : Sched T C} {R R' : T → Prop}
  {t u : T} {c e : C} {b d : Option C × Prio} {k : List C}

/-! ## Choosing a candidate -/

/-- It makes no difference whether the thread leaves its ring first or becomes the candidate
first. -/
theorem setCand_delFromPcb :
    ((s.noCand c).delFromPcb t b).setCand t c = (s.setCand t c).delFromPcb t b := by
  have hempty : ((s.noCand c).delTcbFromReadyRing t b).pcbIsEmpty b =
      ((s.setCand t c).delTcbFromReadyRing t b).pcbIsEmpty b := rfl
  have htcb : (s.setCand t c).tcb t = { s.tcb t with ulCPUId := c, bIsCand := true } :=
    modTcb_self _ _ _
  have hdel : ((s.setCand t c).delTcbFromReadyRing t b).readyTableDel t =
      ((s.setCand t c).delTcbFromReadyRing t b).modBmap (s.table t) fun x =>
        x.bitmapDel (s.tcb t).ucPriority := by
    rw [readyTableDel, table, delTcbFromReadyRing, modPcb_tcb, htcb]
    rfl
  unfold delFromPcb
  dsimp only
  rw [hempty, hdel]
  split_ifs
  · simp only [Sched.setCand, noCand, delTcbFromReadyRing, readyTableDel, modBmap, modPcb, modCpu,
      modTcb, table, update_self, update_idem]
    rfl
  · simp only [Sched.setCand, noCand, delTcbFromReadyRing, modPcb, modCpu, modTcb,
      update_self, update_idem]

theorem Frame.setCand (s : Sched T C) : Frame s (s.setCand t c) := by
  have htcb (u : T) : ∃ x y, (s.setCand t c).tcb u = { s.tcb u with ulCPUId := x, bIsCand := y } := by
    by_cases hu : u = t
    · subst hu
      exact ⟨_, _, modTcb_self _ _ _⟩
    · exact ⟨(s.tcb u).ulCPUId, (s.tcb u).bIsCand, modTcb_of_ne _ _ _ hu⟩
  refine ⟨fun u => ?_, fun u => ?_, fun e => ?_, fun e => ?_⟩
  · obtain ⟨x, y, hxy⟩ := htcb u
    simp [Sched.getPcb, Sched.table, hxy]
  · obtain ⟨x, y, hxy⟩ := htcb u
    rw [hxy]
  · by_cases he : e = c
    · subst he
      simp [Sched.setCand]
    · simp [Sched.setCand, modCpu_of_ne _ _ _ he]
  · by_cases he : e = c
    · subst he
      simp [Sched.setCand]
    · simp [Sched.setCand, modCpu_of_ne _ _ _ he]

omit [DecidableEq C] in
theorem RingOut.frame (h : RingOut s s' t b) : Frame s s' := by
  refine ⟨fun u => getPcb_congr (congrFun h.tcb u), fun u => ?_, fun e => ?_, fun e => ?_⟩
  · rw [h.tcb]
  · rw [h.cpu]
  · rw [h.cpu]

omit [DecidableEq T] [DecidableEq C] in
theorem RingIn.frame (h : RingIn s s' t b) : Frame s s' := by
  refine ⟨fun u => getPcb_congr (congrFun h.tcb u), fun u => ?_, fun e => ?_, fun e => ?_⟩
  · rw [h.tcb]
  · rw [h.cpu]
  · rw [h.cpu]

omit [DecidableEq T] in
theorem SamePlaces.noCand (h : SamePlaces s s') (hc : s'.cpu = s.cpu) :
    SamePlaces (s.noCand c) (s'.noCand c) where
  isCand := h.isCand
  cpuId := h.cpuId
  getPcb := h.getPcb
  cand e := by simp only [Sched.noCand, modCpu, Sched.cand, hc]
  perm := h.perm
  marked := h.marked

/-- A new candidate has been chosen from a ring for a CPU that had none, or whose old candidate is
no longer placed. -/
structure Chosen (s s' : Sched T C) (c : C) (b : Option C × Prio) (t : T) : Prop where
  mem : t ∈ s.pcb b
  cand : s'.cand c = some t
  cand_ne : ∀ e, e ≠ c → s'.cand e = s.cand e
  frame : Frame s s'
  sub : ∀ d u, u ∈ s'.pcb d → u ∈ s.pcb d

theorem candTableResel_some (h : Placed (s.noCand c) R) (hs : s.candTableResel c b = some s') :
    Placed s' R ∧ ∃ t, Chosen s s' c b t := by
  simp only [candTableResel, Option.bind_eq_bind, Option.bind_eq_some_iff, Option.some.injEq] at hs
  obtain ⟨⟨t, s₁⟩, hnext, rfl⟩ := hs
  obtain ⟨hmem, hsame, hframe, hcpu⟩ := candTableNext_some hnext
  have h₁ : Placed (s₁.noCand c) R := h.same (hsame.noCand hcpu)
  have hmem₁ : t ∈ (s₁.noCand c).pcb b := (hsame.perm b).mem_iff.mpr hmem
  obtain ⟨hR, hcand, hb⟩ := (h₁.mem b t).mp hmem₁
  have hb' : s₁.getPcb t = b := hb
  have hout := ringOut_delFromPcb (s := s₁.noCand c) (t := t)
  rw [hb] at hout
  have hplaced := (h₁.ringOut hcand (by rwa [hb])).setCand (t := t) (c := c) (fun hx => hx.2 rfl) (by
    rw [Sched.cand, hout.cpu]
    simp [noCand])
  rw [setCand_delFromPcb] at hplaced
  have hout' := ringOut_delFromPcb (s := s₁.setCand t c) (t := t)
  have hget : (s₁.setCand t c).getPcb t = b := ((Frame.setCand s₁).getPcb t).trans hb'
  rw [hget] at hout'
  refine ⟨hplaced.congr fun u => ?_, t, hmem, ?_, ?_, ?_, ?_⟩
  · by_cases hu : u = t
    · subst hu
      simpa using hR
    · simp [hu]
  · rw [Sched.cand, hout'.cpu]
    simp [Sched.setCand]
  · intro e he
    rw [Sched.cand, hout'.cpu, ← hsame.cand]
    simp [Sched.setCand, modCpu_of_ne _ _ _ he, Sched.cand]
  · exact (hframe.trans (Frame.setCand s₁)).trans hout'.frame
  · intro d u hu
    have hu₁ : u ∈ (s₁.setCand t c).pcb d := by
      by_cases hd : d = b
      · rw [hd, hout'.erase] at hu
        rw [hd]
        exact List.mem_of_mem_erase hu
      · rwa [hout'.pcb_ne d hd] at hu
    exact (hsame.perm d).mem_iff.mp hu₁

theorem candTableResel_isSome (h : s.pcb b ≠ []) : (s.candTableResel c b).isSome := by
  obtain ⟨x, hx⟩ := Option.isSome_iff_exists.mp (candTableNext_isSome h)
  simp [candTableResel, hx]

/-- The candidate has gone back to its ring. -/
structure Emptied (s s' : Sched T C) (c : C) (t : T) : Prop where
  cand : s'.cand c = none
  noCand : s'.noCand c = s'
  cand_ne : ∀ e, e ≠ c → s'.cand e = s.cand e
  frame : Frame s s'
  sub : ∀ d u, u ∈ s'.pcb d → u ∈ s.pcb d ∨ u = t ∧ d = s.getPcb t

theorem Frame.clearCand (s : Sched T C) :
    Frame s ((s.modTcb t fun x => { x with bIsCand := false }).noCand c) := by
  have htcb (u : T) : ∃ y, ((s.modTcb t fun x => { x with bIsCand := false }).noCand c).tcb u =
      { s.tcb u with bIsCand := y } := by
    by_cases hu : u = t
    · subst hu
      exact ⟨false, modTcb_self s u fun x => { x with bIsCand := false }⟩
    · exact ⟨(s.tcb u).bIsCand, modTcb_of_ne s t (fun x => { x with bIsCand := false }) hu⟩
  refine ⟨fun u => ?_, fun u => ?_, fun e => ?_, fun e => ?_⟩
  · obtain ⟨y, hy⟩ := htcb u
    simp [Sched.getPcb, Sched.table, hy]
  · obtain ⟨y, hy⟩ := htcb u
    rw [hy]
  · by_cases he : e = c
    · subst he
      simp [noCand]
    · simp [noCand, modCpu_of_ne _ _ _ he]
  · by_cases he : e = c
    · subst he
      simp [noCand]
    · simp [noCand, modCpu_of_ne _ _ _ he]

theorem candTableEmpty_some (h : Placed s R) (hc : s.cand c = some t) :
    ∃ s', s.candTableEmpty c = some s' ∧ Placed s' R ∧ Emptied s s' c t := by
  let x₀ := (s.modTcb t fun x => { x with bIsCand := false }).noCand c
  let x₁ := x₀.addTcbToReadyRing t (x₀.getPcb t) true
  let x₂ := if x₁.pcbIsOne (x₀.getPcb t) then x₁.readyTableAdd t else x₁
  have hframe : Frame s x₀ := Frame.clearCand s
  have hget : x₀.getPcb t = s.getPcb t := hframe.getPcb t
  have hin : RingIn x₀ x₂ t (x₀.getPcb t) := ringIn_of_empty rfl
  have hR : R t := h.ready t ((h.cand c t).mp hc).1
  have hplaced := (h.clearCand hc).ringIn (fun hx => hx.2 rfl) hin
  have heq : s.candTableEmpty c = some x₂ := by
    simp only [candTableEmpty, hc, Option.bind_eq_bind, Option.bind_some, Option.some.injEq, x₂, x₁,
      hget]
    have hone : ((s.modTcb t fun x => { x with bIsCand := false }).addTcbToReadyRing t (s.getPcb t)
        true).pcbIsOne (s.getPcb t) =
          (x₀.addTcbToReadyRing t (s.getPcb t) true).pcbIsOne (s.getPcb t) := rfl
    rw [hone]
    split_ifs <;> rfl
  refine ⟨x₂, heq, hplaced.congr fun u => ?_, ?_, ?_, ?_, hframe.trans hin.frame, ?_⟩
  · by_cases hu : u = t
    · subst hu
      simpa using hR
    · simp [hu]
  · rw [Sched.cand, hin.cpu]
    simp [x₀, noCand]
  · have hcpu : x₂.cpu = update s.cpu c { s.cpu c with ptcbCand := none } := hin.cpu
    simp only [noCand, modCpu, hcpu, update_self, update_idem]
    rw [← hcpu]
  · intro e he
    rw [Sched.cand, hin.cpu]
    simp [x₀, noCand, modCpu_of_ne _ _ _ he, Sched.cand]
  · intro d u hu
    by_cases hd : d = x₀.getPcb t
    · rw [hd, hin.perm.mem_iff, List.mem_cons] at hu
      rw [hget] at hd
      rw [hd]
      cases hu with
      | inl hu => exact .inr ⟨hu, rfl⟩
      | inr hu =>
        rw [hget] at hu
        exact .inl hu
    · rw [hin.pcb_ne d hd] at hu
      exact .inl hu

/-! ## Notifying other CPUs -/

omit [DecidableEq T] in
theorem notifyRotate_some {ucPriority : Prio} (hs : notifyRotate c ucPriority k s = some s') :
    RotOnly s s' := by
  induction k generalizing s with
  | nil =>
    rw [notifyRotate, Option.some.injEq] at hs
    subst hs
    exact .refl s
  | cons i k ih =>
    rw [notifyRotate] at hs
    split_ifs at hs
    · exact ih hs
    · simp only [Option.bind_eq_bind, Option.bind_eq_some_iff] at hs
      obtain ⟨o, -, hs⟩ := hs
      split_ifs at hs
      · exact (rotOnly_candRot true).trans (ih hs)
      · exact ih hs
    · exact ih hs

omit [DecidableEq T] in
theorem candTableNotify_some (hs : s.candTableNotify t c k = some s') : RotOnly s s' := by
  simp only [candTableNotify, Option.bind_eq_bind, Option.bind_eq_some_iff] at hs
  obtain ⟨o, -, hs⟩ := hs
  cases o with
  | none => exact notifyRotate_some hs
  | some i =>
    rw [Option.some.injEq] at hs
    subst hs
    exact rotOnly_candRot true

/-- The active CPUs other than this one have candidates. -/
def OthersOk (s : Sched T C) (c : C) : Prop :=
  ∀ e, e ≠ c → (s.cpu e).active = true → (s.cand e).isSome

omit [DecidableEq T] in
theorem notifyIdle_isSome (h : s.OthersOk c) : (s.notifyIdle c k).isSome := by
  induction k with
  | nil => rfl
  | cons i k ih =>
    rw [notifyIdle]
    split_ifs with hi
    · exact ih
    · obtain ⟨o, ho⟩ := Option.isSome_iff_exists.mp (h i hi.1 hi.2)
      simp only [ho, Option.bind_eq_bind, Option.bind_some]
      split_ifs
      · rfl
      · exact ih
    · exact ih

omit [DecidableEq T] [DecidableEq C] in
theorem OthersOk.rotOnly (h : s.OthersOk c) (hr : RotOnly s s') : s'.OthersOk c := by
  intro e he ha
  rw [hr.frame.active] at ha
  rw [hr.cand]
  exact h e he ha

omit [DecidableEq T] in
theorem notifyRotate_isSome {ucPriority : Prio} (h : s.OthersOk c) :
    (notifyRotate c ucPriority k s).isSome := by
  induction k generalizing s with
  | nil => rfl
  | cons i k ih =>
    rw [notifyRotate]
    split_ifs with hi
    · exact ih h
    · obtain ⟨o, ho⟩ := Option.isSome_iff_exists.mp (h i hi.1 hi.2)
      simp only [ho, Option.bind_eq_bind, Option.bind_some]
      split_ifs
      · exact ih (h.rotOnly (rotOnly_candRot true))
      · exact ih h
    · exact ih h

omit [DecidableEq T] in
theorem candTableNotify_isSome (h : s.OthersOk c) : (s.candTableNotify t c k).isSome := by
  obtain ⟨o, ho⟩ := Option.isSome_iff_exists.mp (notifyIdle_isSome (k := k) h)
  simp only [candTableNotify, ho, Option.bind_eq_bind, Option.bind_some]
  cases o with
  | none => exact notifyRotate_isSome h
  | some i => rfl

/-! ## The candidate table -/

/-- The candidate of the CPU is at least as urgent as all threads that the CPU may run. -/
def Urgent (s : Sched T C) (c : C) : Prop :=
  ∃ t, s.cand c = some t ∧ ∀ b u, s.Eligible c b → u ∈ s.pcb b →
    (s.tcb t).ucPriority ≤ (s.tcb u).ucPriority

omit [DecidableEq T] [DecidableEq C] in
theorem Frame.prio (h : Frame s s') (t : T) : (s'.tcb t).ucPriority = (s.tcb t).ucPriority :=
  congrArg Prod.snd (h.getPcb t)

omit [DecidableEq T] [DecidableEq C] in
theorem Placed.prio (h : Placed s R) (ht : t ∈ s.pcb b) : (s.tcb t).ucPriority = b.2 :=
  congrArg Prod.snd ((h.mem b t).mp ht).2.2

omit [DecidableEq T] in
/-- A candidate that has been chosen from a most urgent ring is a most urgent one. -/
theorem Chosen.urgent (hp : Placed (s.noCand c) R) (h : Chosen s s' c b t)
    (hb : ∀ d, s.Eligible c d → s.pcb d ≠ [] → b.2 ≤ d.2) : s'.Urgent c := by
  refine ⟨t, h.cand, fun d u hd hu => ?_⟩
  have hud := h.sub d u hu
  rw [h.frame.prio, h.frame.prio]
  have ht : (s.tcb t).ucPriority = b.2 := hp.prio h.mem
  have hu' : (s.tcb u).ucPriority = d.2 := hp.prio hud
  rw [ht, hu']
  exact hb d (h.frame.eligible.mp hd) (List.ne_nil_of_mem hud)

theorem candTableFill_some (h : Placed (s.noCand c) R) (hs : s.candTableFill c = some s') :
    Placed s' R ∧ s'.Urgent c ∧ Frame s s' ∧ ∀ e, e ≠ c → s'.cand e = s.cand e := by
  simp only [candTableFill, Option.bind_eq_bind, Option.bind_eq_some_iff] at hs
  obtain ⟨b, hseek, hresel⟩ := hs
  have hmarked : ∀ b, s.marked b ↔ s.pcb b ≠ [] := h.marked
  obtain ⟨-, -, hfirst⟩ := candTableSeek_some hmarked hseek
  obtain ⟨hp, t, hchosen⟩ := candTableResel_some h hresel
  exact ⟨hp, hchosen.urgent h hfirst, hchosen.frame, hchosen.cand_ne⟩

/-- A CPU finds a candidate when there is a thread that it may run. -/
theorem candTableFill_isSome (h : ∀ b, s.marked b ↔ s.pcb b ≠ []) (hb : s.Eligible c b)
    (hne : s.pcb b ≠ []) : (s.candTableFill c).isSome := by
  cases hseek : s.candTableSeek c with
  | none => exact absurd (candTableSeek_none h hseek hb) hne
  | some d =>
    simp only [candTableFill, hseek, Option.bind_eq_bind, Option.bind_some]
    exact candTableResel_isSome (candTableSeek_some h hseek).2.1

omit [DecidableEq T] [DecidableEq C] in
/-- The candidate stays when the CPU has nothing more urgent to run. -/
theorem urgent_of_not_needRotate (hp : Placed s R) (hc : s.cand c = some t)
    (hseek : s.candTableSeek c = some b) (hn : s.needRotate c t b.2 = false) : s.Urgent c := by
  obtain ⟨-, -, hfirst⟩ := candTableSeek_some hp.marked hseek
  have hle : (s.tcb t).ucPriority ≤ b.2 := by
    unfold needRotate at hn
    split_ifs at hn
    · exact (not_le.mp (by simpa using hn)).le
    · exact not_lt.mp (by simpa using hn)
  refine ⟨t, hc, fun d u hd hu => hle.trans ?_⟩
  rw [hp.prio hu]
  exact hfirst d hd (List.ne_nil_of_mem hu)

omit [DecidableEq T] [DecidableEq C] in
/-- The old candidate is no better than the new one, or it is not for this CPU. -/
theorem needRotate_back (hn : s.needRotate c t b.2 = true)
    (he : s.Eligible c (s.getPcb t)) : b.2 ≤ (s.tcb t).ucPriority := by
  unfold needRotate at hn
  split_ifs at hn with haff
  · rcases he with he | ⟨-, he⟩
    · have hlock := haff.2
      simp only [getPcb, table, hlock, Bool.false_eq_true, if_false] at he
      simp at he
    · rw [haff.1] at he
      simp at he
  · exact of_decide_eq_true hn
  · exact (of_decide_eq_true hn).le

omit [DecidableEq T] [DecidableEq C] in
theorem Urgent.rotOnly (h : s.Urgent c) (hr : RotOnly s s') : s'.Urgent c := by
  obtain ⟨t, hc, hle⟩ := h
  refine ⟨t, by rw [hr.cand, hc], fun b u hb hu => ?_⟩
  rw [hr.frame.eligible] at hb
  rw [hr.pcb] at hu
  rw [hr.tcb]
  exact hle b u hb hu

/-- The candidate goes back to its ring and a new one is chosen. -/
theorem rotate_some (hp : Placed s R) (hc : s.cand c = some t) (hseek : s.candTableSeek c = some b)
    (hn : s.needRotate c t b.2 = true) : ∃ s₁ s₂, s.candTableEmpty c = some s₁ ∧
      s₁.candTableResel c b = some s₂ ∧ Placed s₂ R ∧ s₂.Urgent c ∧ Frame s s₂ ∧
        ∀ e, e ≠ c → s₂.cand e = s.cand e := by
  obtain ⟨-, hne, hfirst⟩ := candTableSeek_some hp.marked hseek
  obtain ⟨s₁, hempty, hp₁, hemptied⟩ := candTableEmpty_some hp hc
  have hne₁ : s₁.pcb b ≠ [] := by
    obtain ⟨u, l, hl⟩ := List.exists_cons_of_ne_nil hne
    have hu : u ∈ s.pcb b := by simp [hl]
    obtain ⟨hR, hcand, hb⟩ := (hp.mem b u).mp hu
    have hu₁ : u ∈ s₁.pcb b := by
      rw [hp₁.mem, hemptied.frame.getPcb]
      refine ⟨hR, ?_, hb⟩
      by_contra hcand₁
      have hcu := (hp₁.cand _ u).mpr ⟨by simpa using hcand₁, rfl⟩
      by_cases he : (s₁.tcb u).ulCPUId = c
      · rw [he, hemptied.cand] at hcu
        simp at hcu
      · rw [hemptied.cand_ne _ he, hp.cand, hcand] at hcu
        simp at hcu
    exact List.ne_nil_of_mem hu₁
  obtain ⟨s₂, hresel⟩ := Option.isSome_iff_exists.mp (candTableResel_isSome (c := c) hne₁)
  obtain ⟨hp₂, t', hchosen⟩ := candTableResel_some (R := R) (by rwa [hemptied.noCand]) hresel
  refine ⟨s₁, s₂, hempty, hresel, hp₂, ?_, hemptied.frame.trans hchosen.frame, ?_⟩
  · refine hchosen.urgent (R := R) (by rwa [hemptied.noCand]) fun d hd hd' => ?_
    rw [hemptied.frame.eligible] at hd
    obtain ⟨u, l, hl⟩ := List.exists_cons_of_ne_nil hd'
    rcases hemptied.sub d u (by simp [hl]) with hu | ⟨-, hu⟩
    · exact hfirst d hd (List.ne_nil_of_mem hu)
    · rw [hu] at hd ⊢
      exact needRotate_back hn hd
  · intro e he
    rw [hchosen.cand_ne e he, hemptied.cand_ne e he]

omit [DecidableEq T] in
theorem noCand_of_none (hc : s.cand c = none) : s.noCand c = s := by
  have hcpu : { s.cpu c with ptcbCand := none } = s.cpu c := by
    rw [← hc]
    rfl
  rw [noCand, modCpu, hcpu, update_eq_self]

theorem candTableUpdate_some (hp : Placed s R) (hs : s.candTableUpdate c k = some s') :
    Placed s' R ∧ Frame s s' ∧ (∀ e, e ≠ c → s'.cand e = s.cand e) ∧
      ((s.cpu c).active = true → s'.Urgent c) ∧ ((s.cpu c).active = false → s' = s) := by
  have hrot (x : Sched T C) : RotOnly x (x.candRot c false) := rotOnly_candRot false
  unfold candTableUpdate at hs
  by_cases hact : (s.cpu c).active = true
  · rw [if_neg (not_not_intro hact)] at hs
    suffices h : Placed s' R ∧ Frame s s' ∧ (∀ e, e ≠ c → s'.cand e = s.cand e) ∧ s'.Urgent c from
      ⟨h.1, h.2.1, h.2.2.1, fun _ => h.2.2.2, fun hf => by simp [hact] at hf⟩
    cases hc : s.cand c with
    | none =>
      simp only [hc, Option.map_eq_some_iff] at hs
      obtain ⟨s₁, hfill, rfl⟩ := hs
      obtain ⟨hp₁, hu, hframe, hne⟩ := candTableFill_some (R := R) (by rwa [noCand_of_none hc]) hfill
      exact ⟨hp₁.same (hrot s₁).samePlaces, hframe.trans (hrot s₁).frame,
        fun e he => ((hrot s₁).cand e).trans (hne e he), hu.rotOnly (hrot s₁)⟩
    | some t =>
      simp only [hc] at hs
      cases hseek : s.candTableSeek c with
      | none =>
        simp only [hseek, Option.some.injEq] at hs
        subst hs
        refine ⟨hp.same (hrot s).samePlaces, (hrot s).frame, fun e _ => (hrot s).cand e,
          Urgent.rotOnly ⟨t, hc, fun b u hb hu => ?_⟩ (hrot s)⟩
        rw [candTableSeek_none hp.marked hseek hb] at hu
        simp at hu
      | some b =>
        simp only [hseek] at hs
        split_ifs at hs with hn
        · obtain ⟨s₁, s₂, hempty, hresel, hp₂, hu, hframe, hne⟩ := rotate_some hp hc hseek hn
          simp only [hempty, hresel, Option.bind_eq_bind, Option.bind_some] at hs
          have hr : RotOnly s₂ s' := by
            split_ifs at hs
            · obtain ⟨s₃, hnotify, hs⟩ := Option.bind_eq_some_iff.mp hs
              rw [Option.some.injEq] at hs
              subst hs
              exact (candTableNotify_some hnotify).trans (hrot s₃)
            · rw [Option.some.injEq] at hs
              subst hs
              exact hrot s₂
          exact ⟨hp₂.same hr.samePlaces, hframe.trans hr.frame,
            fun e he => (hr.cand e).trans (hne e he), hu.rotOnly hr⟩
        · rw [Option.some.injEq] at hs
          subst hs
          exact ⟨hp.same (hrot s).samePlaces, (hrot s).frame, fun e _ => (hrot s).cand e,
            (urgent_of_not_needRotate hp hc hseek (by simpa using hn)).rotOnly (hrot s)⟩
  · rw [if_pos hact, Option.some.injEq] at hs
    subst hs
    exact ⟨hp, .refl s, fun _ _ => rfl, fun h => absurd h hact, fun _ => rfl⟩

/-- The update of a CPU with a candidate reads through no null pointer. -/
theorem candTableUpdate_isSome (hp : Placed s R) (ho : s.OthersOk c)
    (hc : (s.cpu c).active = true → (s.cand c).isSome) : (s.candTableUpdate c k).isSome := by
  unfold candTableUpdate
  by_cases hact : (s.cpu c).active = true
  · rw [if_neg (not_not_intro hact)]
    obtain ⟨t, ht⟩ := Option.isSome_iff_exists.mp (hc hact)
    simp only [ht]
    cases hseek : s.candTableSeek c with
    | none => rfl
    | some b =>
      dsimp only
      split_ifs with hn
      · obtain ⟨s₁, s₂, hempty, hresel, -, -, hframe, hne⟩ := rotate_some hp ht hseek hn
        have ho₂ : s₂.OthersOk c := by
          intro e he ha
          rw [hframe.active] at ha
          rw [hne e he]
          exact ho e he ha
        simp only [hempty, hresel, Option.bind_eq_bind, Option.bind_some]
        split_ifs
        · obtain ⟨s₃, h₃⟩ := Option.isSome_iff_exists.mp
            (candTableNotify_isSome (t := t) (k := k) ho₂)
          simp [h₃]
        · rfl
      · rfl
  · rw [if_pos hact]
    rfl

end SylixOS.Kernel.Sched
