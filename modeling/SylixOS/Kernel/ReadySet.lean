import SylixOS.Kernel.CandTable
import SylixOS.Lib.Reach

/-! # Every ready thread is in one place

The threads of a set are placed when each of them is the candidate of one CPU or stands once in the
ring of its own priority control block, nothing else is a candidate or in a ring, and the bitmaps
say which rings are not empty. A thread that is taken from its place leaves the set, and one that
gets a place enters it.
-/

namespace SylixOS.Kernel.Sched
open Lib Function

variable {T C : Type} [DecidableEq T] [DecidableEq C]

section Update
variable (s : Sched T C) (t : T) (c : C) (f : SchedTcb C → SchedTcb C) (g : Cpu T → Cpu T)
  (i : Option C) (h : Bmap → Bmap) (b : Option C × Prio) (r : List T → List T)

omit [DecidableEq C] in
@[simp] theorem modTcb_cpu : (s.modTcb t f).cpu = s.cpu := rfl

omit [DecidableEq C] in
@[simp] theorem modTcb_rdy : (s.modTcb t f).rdy = s.rdy := rfl

omit [DecidableEq C] in
@[simp] theorem modTcb_self : (s.modTcb t f).tcb t = f (s.tcb t) := update_self _ _ _

omit [DecidableEq C] in
theorem modTcb_of_ne {u : T} (hu : u ≠ t) : (s.modTcb t f).tcb u = s.tcb u :=
  update_of_ne hu _ _

omit [DecidableEq T] in
@[simp] theorem modCpu_tcb : (s.modCpu c g).tcb = s.tcb := rfl

omit [DecidableEq T] in
@[simp] theorem modCpu_rdy : (s.modCpu c g).rdy = s.rdy := rfl

omit [DecidableEq T] in
@[simp] theorem modCpu_self : (s.modCpu c g).cpu c = g (s.cpu c) := update_self _ _ _

omit [DecidableEq T] in
theorem modCpu_of_ne {d : C} (hd : d ≠ c) : (s.modCpu c g).cpu d = s.cpu d :=
  update_of_ne hd _ _

omit [DecidableEq T] in
@[simp] theorem modBmap_tcb : (s.modBmap i h).tcb = s.tcb := rfl

omit [DecidableEq T] in
@[simp] theorem modBmap_cpu : (s.modBmap i h).cpu = s.cpu := rfl

omit [DecidableEq T] in
@[simp] theorem modBmap_pcb : (s.modBmap i h).pcb b = s.pcb b := by
  simp only [pcb, modBmap]
  by_cases hb : b.1 = i
  · rw [hb, update_self]
  · rw [update_of_ne hb]

omit [DecidableEq T] in
@[simp] theorem modPcb_tcb : (s.modPcb b r).tcb = s.tcb := rfl

omit [DecidableEq T] in
@[simp] theorem modPcb_cpu : (s.modPcb b r).cpu = s.cpu := rfl

omit [DecidableEq T] in
@[simp] theorem modPcb_bmap : ((s.modPcb b r).rdy i).bmap = (s.rdy i).bmap := by
  simp only [modPcb]
  by_cases hb : i = b.1
  · rw [hb, update_self]
  · rw [update_of_ne hb]

omit [DecidableEq T] in
@[simp] theorem modPcb_self : (s.modPcb b r).pcb b = r (s.pcb b) := by
  simp [pcb, modPcb]

omit [DecidableEq T] in
theorem modPcb_of_ne {d : Option C × Prio} (hd : d ≠ b) : (s.modPcb b r).pcb d = s.pcb d := by
  simp only [pcb, modPcb]
  by_cases h₁ : d.1 = b.1
  · have h₂ : d.2 ≠ b.2 := fun h₂ => hd (Prod.ext h₁ h₂)
    rw [h₁, update_self]
    exact update_of_ne h₂ _ _
  · rw [update_of_ne h₁]

end Update

/-- The priority has its bit in the bitmap of the table. -/
def marked (s : Sched T C) (b : Option C × Prio) : Prop := (s.rdy b.1).bmap.has b.2 = true

/-- The threads of a set are candidates or in their rings. -/
structure Placed (s : Sched T C) (R : T → Prop) : Prop where
  nodup : ∀ b, (s.pcb b).Nodup
  mem : ∀ b t, t ∈ s.pcb b ↔ R t ∧ (s.tcb t).bIsCand = false ∧ s.getPcb t = b
  cand : ∀ c t, s.cand c = some t ↔ (s.tcb t).bIsCand = true ∧ (s.tcb t).ulCPUId = c
  ready : ∀ t, (s.tcb t).bIsCand = true → R t
  marked : ∀ b, s.marked b ↔ s.pcb b ≠ []

/-- Rings may have been turned; nothing else that matters for the places of threads has changed. -/
structure SamePlaces (s s' : Sched T C) : Prop where
  isCand : ∀ t, (s'.tcb t).bIsCand = (s.tcb t).bIsCand
  cpuId : ∀ t, (s'.tcb t).ulCPUId = (s.tcb t).ulCPUId
  getPcb : ∀ t, s'.getPcb t = s.getPcb t
  cand : ∀ c, s'.cand c = s.cand c
  perm : ∀ b, (s'.pcb b).Perm (s.pcb b)
  marked : ∀ b, s'.marked b ↔ s.marked b

/-- A thread has entered a ring. -/
structure RingIn (s s' : Sched T C) (t : T) (b : Option C × Prio) : Prop where
  tcb : s'.tcb = s.tcb
  cpu : s'.cpu = s.cpu
  perm : (s'.pcb b).Perm (t :: s.pcb b)
  pcb_ne : ∀ d, d ≠ b → s'.pcb d = s.pcb d
  marked : (∀ d, s.marked d ↔ s.pcb d ≠ []) → ∀ d, s'.marked d ↔ s'.pcb d ≠ []

/-- A thread has left a ring. -/
structure RingOut (s s' : Sched T C) (t : T) (b : Option C × Prio) : Prop where
  tcb : s'.tcb = s.tcb
  cpu : s'.cpu = s.cpu
  erase : s'.pcb b = (s.pcb b).erase t
  pcb_ne : ∀ d, d ≠ b → s'.pcb d = s.pcb d
  marked : (∀ d, s.marked d ↔ s.pcb d ≠ []) → ∀ d, s'.marked d ↔ s'.pcb d ≠ []

variable {s s' : Sched T C} {R R' : T → Prop} {t u : T} {c : C} {b d : Option C × Prio}
  {k : List C}

omit [DecidableEq T] [DecidableEq C] in
theorem Placed.congr (h : Placed s R) (hR : ∀ t, R t ↔ R' t) : Placed s R' where
  nodup := h.nodup
  mem b t := by rw [h.mem, hR]
  cand := h.cand
  ready t ht := (hR t).mp (h.ready t ht)
  marked := h.marked

omit [DecidableEq T] [DecidableEq C] in
theorem Placed.same (h : Placed s R) (hs : SamePlaces s s') : Placed s' R where
  nodup b := (hs.perm b).nodup_iff.mpr (h.nodup b)
  mem b t := by rw [(hs.perm b).mem_iff, h.mem, hs.isCand, hs.getPcb]
  cand c t := by rw [hs.cand, h.cand, hs.isCand, hs.cpuId]
  ready t ht := h.ready t (by rwa [hs.isCand] at ht)
  marked b := by
    rw [hs.marked, h.marked]
    refine not_congr ⟨fun hb => ?_, fun hb => ?_⟩
    · have hp := hs.perm b
      rw [hb] at hp
      exact hp.eq_nil
    · have hp := hs.perm b
      rw [hb] at hp
      exact hp.nil_eq.symm

omit [DecidableEq T] [DecidableEq C] in
theorem SamePlaces.refl (s : Sched T C) : SamePlaces s s :=
  ⟨fun _ => rfl, fun _ => rfl, fun _ => rfl, fun _ => rfl, fun _ => .refl _, fun _ => Iff.rfl⟩

omit [DecidableEq T] [DecidableEq C] in
theorem getPcb_congr (h : s'.tcb t = s.tcb t) : s'.getPcb t = s.getPcb t := by
  simp only [getPcb, table, h]

omit [DecidableEq T] [DecidableEq C] in
theorem Placed.not_cand (h : Placed s R) (ht : ¬ R t) : (s.tcb t).bIsCand = false := by
  by_contra hc
  exact ht (h.ready t (by simpa using hc))

omit [DecidableEq C] in
theorem Placed.ringIn (h : Placed s R) (ht : ¬ R t) (hr : RingIn s s' t (s.getPcb t)) :
    Placed s' (fun u => R u ∨ u = t) := by
  have hcand := h.not_cand ht
  have hmem : t ∉ s.pcb (s.getPcb t) := fun hm => ht ((h.mem _ _).mp hm).1
  refine ⟨?_, ?_, ?_, ?_, hr.marked h.marked⟩
  · intro b
    by_cases hb : b = s.getPcb t
    · rw [hb, hr.perm.nodup_iff]
      exact List.nodup_cons.mpr ⟨hmem, h.nodup _⟩
    · rw [hr.pcb_ne b hb]
      exact h.nodup b
  · intro b u
    rw [getPcb_congr (congrFun hr.tcb u), hr.tcb]
    by_cases hb : b = s.getPcb t
    · rw [hb, hr.perm.mem_iff, List.mem_cons, h.mem]
      by_cases hu : u = t
      · subst hu
        simp [hcand]
      · simp [hu]
    · rw [hr.pcb_ne b hb, h.mem]
      by_cases hu : u = t
      · subst hu
        simp [ht, Ne.symm hb]
      · simp [hu]
  · intro c u
    rw [Sched.cand, hr.cpu, hr.tcb]
    exact h.cand c u
  · intro u hu
    rw [hr.tcb] at hu
    exact .inl (h.ready u hu)

omit [DecidableEq C] in
theorem Placed.ringOut (h : Placed s R) (hcand : (s.tcb t).bIsCand = false)
    (hr : RingOut s s' t (s.getPcb t)) : Placed s' (fun u => R u ∧ u ≠ t) := by
  refine ⟨?_, ?_, ?_, ?_, hr.marked h.marked⟩
  · intro b
    by_cases hb : b = s.getPcb t
    · rw [hb, hr.erase]
      exact (h.nodup _).erase t
    · rw [hr.pcb_ne b hb]
      exact h.nodup b
  · intro b u
    rw [getPcb_congr (congrFun hr.tcb u), hr.tcb]
    by_cases hb : b = s.getPcb t
    · rw [hb, hr.erase, (h.nodup _).mem_erase_iff, h.mem]
      tauto
    · rw [hr.pcb_ne b hb, h.mem]
      by_cases hu : u = t
      · subst hu
        simp [Ne.symm hb]
      · simp [hu]
  · intro c u
    rw [Sched.cand, hr.cpu, hr.tcb]
    exact h.cand c u
  · intro u hu
    rw [hr.tcb] at hu
    refine ⟨h.ready u hu, ?_⟩
    rintro rfl
    simp [hcand] at hu

theorem Placed.setCand (h : Placed s R) (ht : ¬ R t) (hc : s.cand c = none) :
    Placed (s.setCand t c) (fun u => R u ∨ u = t) := by
  have hcand := h.not_cand ht
  have hpcb (b : Option C × Prio) : (s.setCand t c).pcb b = s.pcb b := rfl
  refine ⟨h.nodup, ?_, ?_, ?_, h.marked⟩
  · intro b u
    rw [hpcb, h.mem]
    by_cases hu : u = t
    · subst hu
      simp [Sched.setCand, ht]
    · have htcb : (s.setCand t c).tcb u = s.tcb u := modTcb_of_ne _ _ _ hu
      simp [getPcb_congr htcb, htcb, hu]
  · intro d u
    by_cases hu : u = t
    · subst hu
      by_cases hd : d = c
      · subst hd
        simp [Sched.setCand, Sched.cand]
      · have hno := (not_congr (h.cand d u)).mpr (by simp [hcand])
        rw [Sched.cand] at hno
        simp [Sched.setCand, Sched.cand, modCpu_of_ne _ _ _ hd, hno, Ne.symm hd]
    · have htcb : (s.setCand t c).tcb u = s.tcb u := modTcb_of_ne _ _ _ hu
      rw [htcb, ← h.cand]
      by_cases hd : d = c
      · subst hd
        simp [Sched.setCand, Sched.cand] at hc ⊢
        simp [hc, Ne.symm hu]
      · simp [Sched.setCand, Sched.cand, modCpu_of_ne _ _ _ hd]
  · intro u hu
    by_cases hut : u = t
    · exact .inr hut
    · have htcb : (s.setCand t c).tcb u = s.tcb u := modTcb_of_ne _ _ _ hut
      rw [htcb] at hu
      exact .inl (h.ready u hu)

/-- The state without a candidate of the CPU. -/
def noCand (s : Sched T C) (c : C) : Sched T C := s.modCpu c fun x => { x with ptcbCand := none }

theorem Placed.clearCand (h : Placed s R) (hc : s.cand c = some t) :
    Placed ((s.modTcb t fun x => { x with bIsCand := false }).noCand c)
      (fun u => R u ∧ u ≠ t) := by
  have hct := (h.cand c t).mp hc
  have hpcb (b : Option C × Prio) :
      ((s.modTcb t fun x => { x with bIsCand := false }).noCand c).pcb b = s.pcb b := rfl
  have hne {u : T} (hu : u ≠ t) :
      ((s.modTcb t fun x => { x with bIsCand := false }).noCand c).tcb u = s.tcb u := by
    rw [noCand, modCpu_tcb, modTcb_of_ne _ _ _ hu]
  refine ⟨h.nodup, ?_, ?_, ?_, h.marked⟩
  · intro b u
    rw [hpcb, h.mem]
    by_cases hu : u = t
    · subst hu
      simp [hct.1]
    · simp [getPcb_congr (hne hu), hne hu, hu]
  · intro d u
    by_cases hu : u = t
    · subst hu
      by_cases hd : d = c
      · subst hd
        simp [noCand, Sched.cand]
      · have hno : s.cand d ≠ some u := by
          rw [Ne, h.cand]
          exact fun hx => hd (hx.2.symm.trans hct.2)
        rw [Sched.cand] at hno
        simp [noCand, Sched.cand, modCpu_of_ne _ _ _ hd, hno]
    · rw [hne hu, ← h.cand]
      by_cases hd : d = c
      · subst hd
        simp only [noCand, Sched.cand, modCpu_self] at hc ⊢
        simp [hc, Ne.symm hu]
      · simp [noCand, Sched.cand, modCpu_of_ne _ _ _ hd]
  · intro u hu
    by_cases hut : u = t
    · subst hut
      simp [noCand] at hu
    · rw [hne hut] at hu
      exact ⟨h.ready u hu, hut⟩

omit [DecidableEq C] in
/-- The control block of a thread that is in no ring may change. -/
theorem Placed.modTcb {f : SchedTcb C → SchedTcb C} (h : Placed s R)
    (ht : ¬ R t ∨ (s.tcb t).bIsCand = true) (hcand : ∀ x, (f x).bIsCand = x.bIsCand)
    (hid : ∀ x, (f x).ulCPUId = x.ulCPUId) : Placed (s.modTcb t f) R := by
  have hpcb (b : Option C × Prio) : (s.modTcb t f).pcb b = s.pcb b := rfl
  have hcand' (u : T) : ((s.modTcb t f).tcb u).bIsCand = (s.tcb u).bIsCand := by
    by_cases hu : u = t
    · subst hu
      rw [modTcb_self, hcand]
    · rw [modTcb_of_ne _ _ _ hu]
  have hid' (u : T) : ((s.modTcb t f).tcb u).ulCPUId = (s.tcb u).ulCPUId := by
    by_cases hu : u = t
    · subst hu
      rw [modTcb_self, hid]
    · rw [modTcb_of_ne _ _ _ hu]
  refine ⟨h.nodup, fun b u => ?_, fun c u => ?_, fun u hu => ?_, h.marked⟩
  · rw [hpcb, hcand', h.mem]
    by_cases hu : u = t
    · subst hu
      cases ht with
      | inl ht => simp [ht]
      | inr ht => simp [ht]
    · rw [getPcb_congr (modTcb_of_ne _ _ _ hu)]
  · rw [hcand', hid']
    exact h.cand c u
  · rw [hcand'] at hu
    exact h.ready u hu

/-! ## Rings and bitmaps -/

omit [DecidableEq T] in
theorem marked_readyTableAdd : (s.readyTableAdd t).marked d ↔ d = s.getPcb t ∨ s.marked d := by
  simp only [Sched.marked, readyTableAdd, modBmap]
  by_cases hd : d.1 = s.table t
  · rw [hd, update_self, Bmap.has_bitmapAdd, Bool.or_eq_true, decide_eq_true_eq]
    simp [getPcb, Prod.ext_iff, hd]
  · rw [update_of_ne hd]
    simp [getPcb, Prod.ext_iff, hd]

omit [DecidableEq T] in
theorem marked_readyTableDel : (s.readyTableDel t).marked d ↔ d ≠ s.getPcb t ∧ s.marked d := by
  simp only [Sched.marked, readyTableDel, modBmap]
  by_cases hd : d.1 = s.table t
  · rw [hd, update_self, Bmap.has_bitmapDel, Bool.and_eq_true, Bool.not_eq_true',
      decide_eq_false_iff_not]
    simp [getPcb, Prod.ext_iff, hd]
  · rw [update_of_ne hd]
    simp [getPcb, Prod.ext_iff, hd]

omit [DecidableEq T] in
theorem marked_modPcb {r : List T → List T} : (s.modPcb b r).marked d ↔ s.marked d := by
  simp [Sched.marked]

omit [DecidableEq T] in
/-- Wherever a thread is put into a ring, the ring has it and its old threads. -/
theorem addTcbToReadyRing_eq (bIsHeader : Bool) : ∃ r : List T → List T,
    s.addTcbToReadyRing t b bIsHeader = s.modPcb b r ∧ ∀ l, (r l).Perm (t :: l) := by
  have hahead (l : List T) : (listRingAddAhead t l).Perm (t :: l) := .refl _
  have hlast (l : List T) : (listRingAddLast t l).Perm (t :: l) := List.perm_append_singleton t l
  have hfront (l : List T) : (listRingAddFront t l).Perm (t :: l) := by
    cases l with
    | nil => exact .refl _
    | cons u l => exact List.Perm.swap t u l
  unfold addTcbToReadyRing
  split_ifs
  · exact ⟨_, rfl, hahead⟩
  · exact ⟨_, rfl, hlast⟩
  · split
    · exact ⟨_, rfl, hfront⟩
    · exact ⟨_, rfl, hlast⟩
    · exact ⟨_, rfl, hlast⟩
  · split
    · exact ⟨_, rfl, hfront⟩
    · exact ⟨_, rfl, hlast⟩
    · exact ⟨_, rfl, hfront⟩

omit [DecidableEq T] in
/-- The bitmap is marked before the thread enters the ring. -/
theorem ringIn_of_tryAdd : RingIn s
    ((if s.pcbIsEmpty (s.getPcb t) then s.readyTableAdd t else s).addTcbToReadyRing t (s.getPcb t)
      false) t (s.getPcb t) := by
  obtain ⟨r, hr, hperm⟩ := addTcbToReadyRing_eq (t := t) (b := s.getPcb t)
    (s := if s.pcbIsEmpty (s.getPcb t) then s.readyTableAdd t else s) false
  have hpcb (d : Option C × Prio) :
      (if s.pcbIsEmpty (s.getPcb t) then s.readyTableAdd t else s).pcb d = s.pcb d := by
    split_ifs
    · exact modBmap_pcb _ _ _ _
    · rfl
  rw [hr]
  refine ⟨?_, ?_, ?_, ?_, ?_⟩
  · split_ifs <;> rfl
  · split_ifs <;> rfl
  · rw [modPcb_self, hpcb]
    exact hperm _
  · intro d hd
    rw [modPcb_of_ne _ _ _ hd, hpcb]
  · intro h d
    rw [marked_modPcb]
    by_cases hd : d = s.getPcb t
    · subst hd
      rw [modPcb_self, hpcb]
      have hne : r (s.pcb (s.getPcb t)) ≠ [] := by
        intro hnil
        have hp := hperm (s.pcb (s.getPcb t))
        rw [hnil] at hp
        exact absurd hp.nil_eq (by simp)
      simp only [hne, ne_eq, not_false_eq_true, iff_true]
      split_ifs with hempty
      · exact marked_readyTableAdd.mpr (.inl rfl)
      · rw [h]
        simpa [pcbIsEmpty] using hempty
    · rw [modPcb_of_ne _ _ _ hd, hpcb, ← h]
      split_ifs
      · rw [marked_readyTableAdd]
        simp [hd]
      · rfl

omit [DecidableEq T] in
/-- The thread enters the ring before the bitmap is marked. -/
theorem ringIn_of_empty {s₁ : Sched T C} (h₁ : s₁ = s.addTcbToReadyRing t (s.getPcb t) true) :
    RingIn s (if s₁.pcbIsOne (s.getPcb t) then s₁.readyTableAdd t else s₁) t (s.getPcb t) := by
  have heq : s₁ = s.modPcb (s.getPcb t) (listRingAddAhead t) := by
    rw [h₁, addTcbToReadyRing]
    rfl
  have hget : s₁.getPcb t = s.getPcb t := by
    rw [heq]
    exact getPcb_congr rfl
  have hpcb (d : Option C × Prio) :
      (if s₁.pcbIsOne (s.getPcb t) then s₁.readyTableAdd t else s₁).pcb d = s₁.pcb d := by
    split_ifs
    · exact modBmap_pcb _ _ _ _
    · rfl
  refine ⟨?_, ?_, ?_, ?_, ?_⟩
  · rw [heq]
    split_ifs <;> rfl
  · rw [heq]
    split_ifs <;> rfl
  · rw [hpcb, heq, modPcb_self]
    exact .refl _
  · intro d hd
    rw [hpcb, heq, modPcb_of_ne _ _ _ hd]
  · intro h d
    rw [hpcb]
    by_cases hd : d = s.getPcb t
    · subst hd
      have hself : s₁.pcb (s.getPcb t) = t :: s.pcb (s.getPcb t) := by
        rw [heq, modPcb_self]
        rfl
      rw [hself]
      simp only [ne_eq, reduceCtorEq, not_false_eq_true, iff_true]
      split_ifs with hone
      · rw [marked_readyTableAdd, hget]
        exact .inl rfl
      · rw [heq, marked_modPcb, h]
        intro hnil
        simp [pcbIsOne, hself, hnil] at hone
    · have hne : s₁.pcb d = s.pcb d := by rw [heq, modPcb_of_ne _ _ _ hd]
      have hmarked : s₁.marked d ↔ s.marked d := by rw [heq, marked_modPcb]
      rw [hne, ← h]
      split_ifs
      · rw [marked_readyTableAdd, hget, hmarked]
        simp [hd]
      · exact hmarked

theorem ringOut_delFromPcb : RingOut s (s.delFromPcb t (s.getPcb t)) t (s.getPcb t) := by
  have hget : (s.delTcbFromReadyRing t (s.getPcb t)).getPcb t = s.getPcb t := getPcb_congr rfl
  have hself : (s.delTcbFromReadyRing t (s.getPcb t)).pcb (s.getPcb t) =
      (s.pcb (s.getPcb t)).erase t := modPcb_self _ _ _
  have hpcb (d : Option C × Prio) : (s.delFromPcb t (s.getPcb t)).pcb d =
      (s.delTcbFromReadyRing t (s.getPcb t)).pcb d := by
    unfold delFromPcb
    dsimp only
    split_ifs
    · exact modBmap_pcb _ _ _ _
    · rfl
  refine ⟨?_, ?_, ?_, ?_, ?_⟩
  · unfold delFromPcb
    dsimp only
    split_ifs <;> rfl
  · unfold delFromPcb
    dsimp only
    split_ifs <;> rfl
  · rw [hpcb, hself]
  · intro d hd
    rw [hpcb]
    exact modPcb_of_ne _ _ _ hd
  · intro h d
    rw [hpcb]
    unfold delFromPcb
    dsimp only
    by_cases hd : d = s.getPcb t
    · subst hd
      split_ifs with hempty
      · rw [marked_readyTableDel, hget]
        rw [pcbIsEmpty, List.isEmpty_iff] at hempty
        simp [hempty]
      · rw [pcbIsEmpty, List.isEmpty_iff] at hempty
        rw [delTcbFromReadyRing, marked_modPcb, h]
        refine iff_of_true (fun hnil => ?_) hempty
        rw [hself, hnil] at hempty
        exact hempty rfl
    · have hne : (s.delTcbFromReadyRing t (s.getPcb t)).pcb d = s.pcb d := modPcb_of_ne _ _ _ hd
      rw [hne, ← h]
      split_ifs
      · rw [marked_readyTableDel, hget, delTcbFromReadyRing, marked_modPcb]
        simp [hd]
      · rw [delTcbFromReadyRing, marked_modPcb]

/-! ## The highest priority -/

/-- The CPU may run the threads of the control block. -/
def Eligible (s : Sched T C) (c : C) (b : Option C × Prio) : Prop :=
  b.1 = some c ∨ b.1 = none ∧ (s.cpu c).bOnlyAffinity = false

omit [DecidableEq T] [DecidableEq C] in
/-- The first ring of a table that is not empty. -/
theorem bitmapHigh_marked (h : ∀ b, s.marked b ↔ s.pcb b ≠ []) {i : Option C}
    (hi : ¬ (s.rdy i).bmap.bitmapIsEmpty = true) : s.pcb (i, (s.rdy i).bmap.bitmapHigh) ≠ [] ∧
      ∀ p, s.pcb (i, p) ≠ [] → (s.rdy i).bmap.bitmapHigh ≤ p := by
  have hspec := Bmap.bitmapHigh_spec (by simpa using hi)
  exact ⟨(h _).mp hspec.1, fun p hp => hspec.2 p ((h (i, p)).mpr hp)⟩

omit [DecidableEq T] [DecidableEq C] in
theorem bitmapIsEmpty_marked (h : ∀ b, s.marked b ↔ s.pcb b ≠ []) {i : Option C}
    (hi : (s.rdy i).bmap.bitmapIsEmpty = true) (p : Prio) : s.pcb (i, p) = [] := by
  by_contra hp
  have hmark := (h (i, p)).mpr hp
  rw [Sched.marked, Bmap.bitmapIsEmpty_iff.mp hi p] at hmark
  simp at hmark

omit [DecidableEq T] [DecidableEq C] in
/-- `_CandTableSeek` finds a most urgent ring that the CPU may run threads of. -/
theorem candTableSeek_some (h : ∀ b, s.marked b ↔ s.pcb b ≠ []) (hs : s.candTableSeek c = some b) :
    s.Eligible c b ∧ s.pcb b ≠ [] ∧ ∀ d, s.Eligible c d → s.pcb d ≠ [] → b.2 ≤ d.2 := by
  unfold candTableSeek at hs
  dsimp only at hs
  split_ifs at hs with hr hg hg hle
  · rw [Option.some.injEq] at hs
    subst hs
    rw [not_or] at hg
    have hhigh := bitmapHigh_marked h hg.2
    refine ⟨.inr ⟨rfl, by simpa using hg.1⟩, hhigh.1, ?_⟩
    rintro ⟨i, p⟩ (rfl | ⟨rfl, -⟩) hp
    · exact absurd (bitmapIsEmpty_marked h hr p) hp
    · exact hhigh.2 p hp
  · rw [Option.some.injEq] at hs
    subst hs
    have hhigh := bitmapHigh_marked h hr
    refine ⟨.inl rfl, hhigh.1, ?_⟩
    rintro ⟨i, p⟩ (rfl | ⟨rfl, haff⟩) hp
    · exact hhigh.2 p hp
    · cases hg with
      | inl hg => simp [haff] at hg
      | inr hg => exact absurd (bitmapIsEmpty_marked h hg p) hp
  · rw [Option.some.injEq] at hs
    subst hs
    rw [not_or] at hg
    have hhigh := bitmapHigh_marked h hr
    have hglob := bitmapHigh_marked h hg.2
    refine ⟨.inl rfl, hhigh.1, ?_⟩
    rintro ⟨i, p⟩ (rfl | ⟨rfl, -⟩) hp
    · exact hhigh.2 p hp
    · exact hle.trans (hglob.2 p hp)
  · rw [Option.some.injEq] at hs
    subst hs
    rw [not_or] at hg
    have hhigh := bitmapHigh_marked h hr
    have hglob := bitmapHigh_marked h hg.2
    refine ⟨.inr ⟨rfl, by simpa using hg.1⟩, hglob.1, ?_⟩
    rintro ⟨i, p⟩ (rfl | ⟨rfl, -⟩) hp
    · exact (not_le.mp hle).le.trans (hhigh.2 p hp)
    · exact hglob.2 p hp

omit [DecidableEq T] [DecidableEq C] in
theorem candTableSeek_none (h : ∀ b, s.marked b ↔ s.pcb b ≠ []) (hs : s.candTableSeek c = none)
    (hd : s.Eligible c d) : s.pcb d = [] := by
  unfold candTableSeek at hs
  dsimp only at hs
  split_ifs at hs with hr hg
  obtain ⟨i, p⟩ := d
  rcases hd with rfl | ⟨rfl, haff⟩
  · exact bitmapIsEmpty_marked h hr p
  · cases hg with
    | inl hg => simp [haff] at hg
    | inr hg => exact bitmapIsEmpty_marked h hg p

/-! ## What an operation leaves as it is -/

/-- What no move of threads changes: their control blocks' tables and priorities, what they are
ready for, and what the CPUs may run. -/
structure Frame (s s' : Sched T C) : Prop where
  getPcb : ∀ t, s'.getPcb t = s.getPcb t
  ready : ∀ t, (s'.tcb t).ready = (s.tcb t).ready
  active : ∀ c, (s'.cpu c).active = (s.cpu c).active
  affinity : ∀ c, (s'.cpu c).bOnlyAffinity = (s.cpu c).bOnlyAffinity

omit [DecidableEq C] in
theorem frame_modTcb {f : SchedTcb C → SchedTcb C} (hlock : ∀ x, (f x).bCPULock = x.bCPULock)
    (hcpu : ∀ x, (f x).ulCPULock = x.ulCPULock) (hprio : ∀ x, (f x).ucPriority = x.ucPriority)
    (hready : ∀ x, (f x).ready = x.ready) : Frame s (s.modTcb t f) := by
  refine ⟨fun u => ?_, fun u => ?_, fun e => rfl, fun e => rfl⟩
  · by_cases hu : u = t
    · subst hu
      simp only [getPcb, table, modTcb_self, hlock, hcpu, hprio]
    · exact getPcb_congr (modTcb_of_ne _ _ _ hu)
  · by_cases hu : u = t
    · subst hu
      rw [modTcb_self, hready]
    · rw [modTcb_of_ne _ _ _ hu]

omit [DecidableEq C] in
theorem samePlaces_modTcb {f : SchedTcb C → SchedTcb C}
    (hlock : ∀ x, (f x).bCPULock = x.bCPULock) (hcpu : ∀ x, (f x).ulCPULock = x.ulCPULock)
    (hprio : ∀ x, (f x).ucPriority = x.ucPriority) (hcand : ∀ x, (f x).bIsCand = x.bIsCand)
    (hid : ∀ x, (f x).ulCPUId = x.ulCPUId) : SamePlaces s (s.modTcb t f) := by
  refine ⟨fun u => ?_, fun u => ?_, fun u => ?_, fun c => rfl, fun b => .refl _, fun b => Iff.rfl⟩
  · by_cases hu : u = t
    · subst hu
      rw [modTcb_self, hcand]
    · rw [modTcb_of_ne _ _ _ hu]
  · by_cases hu : u = t
    · subst hu
      rw [modTcb_self, hid]
    · rw [modTcb_of_ne _ _ _ hu]
  · by_cases hu : u = t
    · subst hu
      simp only [getPcb, table, modTcb_self, hlock, hcpu, hprio]
    · exact getPcb_congr (modTcb_of_ne _ _ _ hu)

/-- Only flags that ask for a new choice have changed. -/
structure RotOnly (s s' : Sched T C) : Prop where
  tcb : s'.tcb = s.tcb
  rdy : s'.rdy = s.rdy
  cpu : ∀ c, ∃ bNeedRotate, s'.cpu c = { s.cpu c with bNeedRotate }

variable {s₁ : Sched T C}

omit [DecidableEq T] [DecidableEq C] in
theorem Frame.refl (s : Sched T C) : Frame s s := ⟨fun _ => rfl, fun _ => rfl, fun _ => rfl, fun _ => rfl⟩

omit [DecidableEq T] [DecidableEq C] in
theorem Frame.trans (h : Frame s s₁) (h₁ : Frame s₁ s') : Frame s s' where
  getPcb t := (h₁.getPcb t).trans (h.getPcb t)
  ready t := (h₁.ready t).trans (h.ready t)
  active c := (h₁.active c).trans (h.active c)
  affinity c := (h₁.affinity c).trans (h.affinity c)

omit [DecidableEq T] [DecidableEq C] in
theorem Frame.eligible (h : Frame s s') : s'.Eligible c b ↔ s.Eligible c b := by
  simp only [Eligible, h.affinity]

omit [DecidableEq T] [DecidableEq C] in
theorem RotOnly.refl (s : Sched T C) : RotOnly s s :=
  ⟨rfl, rfl, fun c => ⟨(s.cpu c).bNeedRotate, rfl⟩⟩

omit [DecidableEq T] [DecidableEq C] in
theorem RotOnly.trans (h : RotOnly s s₁) (h₁ : RotOnly s₁ s') : RotOnly s s' where
  tcb := h₁.tcb.trans h.tcb
  rdy := h₁.rdy.trans h.rdy
  cpu c := by
    obtain ⟨x, hx⟩ := h.cpu c
    obtain ⟨y, hy⟩ := h₁.cpu c
    exact ⟨y, by rw [hy, hx]⟩

omit [DecidableEq T] in
theorem rotOnly_candRot (bNeedRotate : Bool) : RotOnly s (s.candRot c bNeedRotate) where
  tcb := rfl
  rdy := rfl
  cpu d := by
    by_cases hd : d = c
    · subst hd
      exact ⟨bNeedRotate, modCpu_self _ _ _⟩
    · exact ⟨(s.cpu d).bNeedRotate, modCpu_of_ne _ _ _ hd⟩

omit [DecidableEq T] [DecidableEq C] in
theorem RotOnly.cand (h : RotOnly s s') (c : C) : s'.cand c = s.cand c := by
  obtain ⟨x, hx⟩ := h.cpu c
  rw [Sched.cand, hx]
  rfl

omit [DecidableEq T] [DecidableEq C] in
theorem RotOnly.pcb (h : RotOnly s s') (b : Option C × Prio) : s'.pcb b = s.pcb b := by
  rw [Sched.pcb, h.rdy]
  rfl

omit [DecidableEq T] [DecidableEq C] in
theorem RotOnly.frame (h : RotOnly s s') : Frame s s' where
  getPcb t := getPcb_congr (congrFun h.tcb t)
  ready t := by rw [h.tcb]
  active c := by
    obtain ⟨x, hx⟩ := h.cpu c
    rw [hx]
  affinity c := by
    obtain ⟨x, hx⟩ := h.cpu c
    rw [hx]

omit [DecidableEq T] [DecidableEq C] in
theorem RotOnly.samePlaces (h : RotOnly s s') : SamePlaces s s' where
  isCand t := by rw [h.tcb]
  cpuId t := by rw [h.tcb]
  getPcb t := h.frame.getPcb t
  cand := h.cand
  perm b := by rw [h.pcb]
  marked b := by rw [Sched.marked, h.rdy, Sched.marked]

/-- `_CandTableNext` finds a thread of the ring and at most turns it. -/
theorem candTableNext_some (hs : s.candTableNext b = some (t, s')) :
    t ∈ s.pcb b ∧ SamePlaces s s' ∧ Frame s s' ∧ s'.cpu = s.cpu := by
  unfold candTableNext at hs
  simp only [Option.bind_eq_bind, Option.bind_eq_some_iff] at hs
  obtain ⟨u, hu, hs⟩ := hs
  have hmem : u ∈ s.pcb b := List.mem_of_mem_head? hu
  split_ifs at hs
  · simp only [Option.bind_eq_some_iff, Option.some.injEq, Prod.mk.injEq] at hs
    obtain ⟨v, hv, rfl, rfl⟩ := hs
    have hperm (l : List T) : (listRingNext l).Perm l := by
      cases l with
      | nil => exact .refl _
      | cons x l => exact List.perm_append_singleton x l
    have htcb (x : T) : ∃ n, (s.modTcb u fun x => { x with usSchedCounter := x.usSchedSlice }).tcb x =
        { s.tcb x with usSchedCounter := n } := by
      by_cases hx : x = u
      · subst hx
        exact ⟨_, modTcb_self _ _ _⟩
      · exact ⟨(s.tcb x).usSchedCounter, modTcb_of_ne _ _ _ hx⟩
    have hfield (x : T) {α : Type} (f : SchedTcb C → α)
        (hf : ∀ y n, f { y with usSchedCounter := n } = f y) :
        f (((s.modTcb u fun x => { x with usSchedCounter := x.usSchedSlice }).modPcb b
          listRingNext).tcb x) = f (s.tcb x) := by
      obtain ⟨n, hn⟩ := htcb x
      rw [modPcb_tcb, hn, hf]
    have hget (x : T) : ((s.modTcb u fun x => { x with usSchedCounter := x.usSchedSlice }).modPcb b
        listRingNext).getPcb x = s.getPcb x :=
      hfield x (fun y => (if y.bCPULock then some y.ulCPULock else none, y.ucPriority))
        fun _ _ => rfl
    refine ⟨?_, ⟨?_, ?_, hget, fun _ => rfl, ?_, ?_⟩, ⟨hget, ?_, fun _ => rfl, fun _ => rfl⟩, rfl⟩
    · have hv' := List.mem_of_mem_head? hv
      rw [modPcb_self, (hperm _).mem_iff] at hv'
      exact hv'
    · exact fun x => hfield x SchedTcb.bIsCand fun _ _ => rfl
    · exact fun x => hfield x SchedTcb.ulCPUId fun _ _ => rfl
    · intro d
      by_cases hd : d = b
      · subst hd
        rw [modPcb_self]
        exact hperm _
      · rw [modPcb_of_ne _ _ _ hd]
        exact .refl _
    · intro d
      rw [marked_modPcb]
      rfl
    · exact fun x => hfield x SchedTcb.ready fun _ _ => rfl
  · rw [Option.some.injEq, Prod.mk.injEq] at hs
    obtain ⟨rfl, rfl⟩ := hs
    exact ⟨hmem, .refl s, .refl s, rfl⟩

theorem candTableNext_isSome (h : s.pcb b ≠ []) : (s.candTableNext b).isSome := by
  obtain ⟨t, l, hl⟩ := List.exists_cons_of_ne_nil h
  simp only [candTableNext, hl, List.head?_cons, Option.bind_eq_bind, Option.bind_some]
  split_ifs
  · have hring : ((s.modTcb t fun x => { x with usSchedCounter := x.usSchedSlice }).modPcb b
        listRingNext).pcb b = l ++ [t] := by
      rw [modPcb_self]
      change listRingNext (s.pcb b) = l ++ [t]
      rw [hl]
      rfl
    rw [hring]
    cases l with
    | nil => rfl
    | cons u l => rfl
  · rfl

end SylixOS.Kernel.Sched
