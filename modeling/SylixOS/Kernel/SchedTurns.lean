import SylixOS.Kernel.SchedSafe
import SylixOS.Lib.Rota

/-! # The ready rings as turns in rings

A candidate uses up its slice tick by tick. With none left it goes back to the front of its ring as
soon as another thread is as urgent, and `_CandTableNext` gives the first thread of a ring that has
none left a new one and sends it to the end. It does so for one thread only: a second one with
nothing left becomes the candidate as it is. As long as no thread with nothing left goes into a ring
that has another one, every operation of the scheduler is a step of turns in rings.
-/

namespace SylixOS.Kernel.Sched
open Lib Function

variable {T C : Type} [DecidableEq T] [DecidableEq C] {s s' s₁ : Sched T C} {R : T → Prop}
  {t u : T} {c : C} {b d : Option C × Prio} {i : Option C} {k : List C} {op : SchedOp T C}

/-- The operation lets the thread become ready or not ready, or changes its priority or affinity. -/
def SchedOp.Moves : SchedOp T C → T → Prop
  | .add u _, t => u = t
  | .del u, t => u = t
  | .setPrio u _, t => u = t
  | .setAffinity u _, t => u = t
  | _, _ => False

/-- The CPUs run their candidates. -/
def Running (s : Sched T C) : SchedOp T C → Prop
  | .tick c t => (s.cpu c).active = true → s.cand c = some t
  | .yield t => (s.tcb t).bIsCand = true
  | _ => True

/-- The thread that an operation puts into a ring, and the ring. -/
def enters (s : Sched T C) : SchedOp T C → Option (T × (Option C × Prio))
  | .add t _ => some (t, s.getPcb t)
  | .update c => do
    let ptcbCand ← s.cand c
    let ppcb ← s.candTableSeek c
    if (s.cpu c).active ∧ s.needRotate c ptcbCand ppcb.2 then some (ptcbCand, s.getPcb ptcbCand)
    else none
  | .setPrio t ucPriority =>
    if (s.tcb t).ready ∧ ¬ (s.tcb t).bIsCand then some (t, s.getPcbEx t ucPriority) else none
  | .setAffinity t (some i) =>
    if (s.tcb t).ready then some (t, (some i, (s.tcb t).ucPriority)) else none
  | .inactive c => do
    let ptcb ← s.cand c
    if (s.cpu c).active then some (ptcb, s.getPcb ptcb) else none
  | _ => none

/-- A thread with no slice left goes only into a ring where every other thread has some. -/
def Spaced (s : Sched T C) (op : SchedOp T C) : Prop :=
  ∀ x ∈ s.enters op, (s.tcb x.1).usSchedCounter = 0 →
    ∀ u ∈ s.pcb x.2, u ≠ x.1 → (s.tcb u).usSchedCounter ≠ 0

instance Running.decidable (s : Sched T C) : ∀ op, Decidable (s.Running op)
  | .tick _ _ => inferInstanceAs (Decidable (_ → _))
  | .yield _ => inferInstanceAs (Decidable (_ = _))
  | .add _ _ | .del _ | .update _ | .remove _ | .setPrio _ _ | .setAffinity _ _ | .active _
  | .inactive _ | .onlyAffinity _ _ => .isTrue trivial

instance Spaced.decidable (s : Sched T C) (op : SchedOp T C) : Decidable (s.Spaced op) :=
  inferInstanceAs (Decidable (∀ x ∈ s.enters op, _ → _))

/-- The ready rings and the candidates as turns in rings. -/
def rota (s : Sched T C) : Rota T (Option C × Prio) C where
  ring := s.pcb
  place := s.cand
  home := s.getPcb
  left t := (s.tcb t).usSchedCounter
  full t := (s.tcb t).usSchedSlice

/-! ## The turns after an update -/

omit [DecidableEq T] [DecidableEq C] in
theorem RotOnly.rota (h : RotOnly s s') : s'.rota = s.rota := by
  have hpcb : s'.pcb = s.pcb := funext h.pcb
  have hcand : s'.cand = s.cand := funext h.cand
  have hget : s'.getPcb = s.getPcb := funext h.frame.getPcb
  simp only [Sched.rota, hpcb, hcand, hget, h.tcb]

omit [DecidableEq T] in
@[simp] theorem rota_modBmap {f : Bmap → Bmap} : (s.modBmap i f).rota = s.rota := by
  have hpcb : (s.modBmap i f).pcb = s.pcb := funext fun d => modBmap_pcb s i f d
  simp only [Sched.rota, hpcb]
  rfl

omit [DecidableEq T] in
@[simp] theorem rota_modPcb {f : List T → List T} :
    (s.modPcb b f).rota = s.rota.setRing b (f (s.pcb b)) := by
  have hpcb : (s.modPcb b f).pcb = update s.pcb b (f (s.pcb b)) := by
    funext d
    by_cases hd : d = b
    · subst hd
      rw [modPcb_self, update_self]
    · rw [modPcb_of_ne _ _ _ hd, update_of_ne hd]
  simp only [Sched.rota, hpcb]
  rfl

omit [DecidableEq T] in
theorem rota_modCpu {f : Cpu T → Cpu T} {o : Option T} (ho : (f (s.cpu c)).ptcbCand = o) :
    (s.modCpu c f).rota = s.rota.setPlace c o := by
  have hcand : (s.modCpu c f).cand = update s.cand c o := by
    funext e
    by_cases he : e = c
    · subst he
      rw [update_self, Sched.cand, modCpu_self, ho]
    · rw [update_of_ne he, Sched.cand, modCpu_of_ne _ _ _ he, Sched.cand]
  simp only [Sched.rota, hcand]
  rfl

omit [DecidableEq T] in
theorem rota_modCpu_same {f : Cpu T → Cpu T} (hf : ∀ x, (f x).ptcbCand = x.ptcbCand) :
    (s.modCpu c f).rota = s.rota := by
  rw [rota_modCpu (hf _)]
  simp only [Rota.setPlace, Sched.rota]
  rw [show (s.cpu c).ptcbCand = s.cand c from rfl, update_eq_self]

omit [DecidableEq C] in
theorem getPcb_modTcb {f : SchedTcb C → SchedTcb C} : (s.modTcb t f).getPcb t =
    (if (f (s.tcb t)).bCPULock then some (f (s.tcb t)).ulCPULock else none,
      (f (s.tcb t)).ucPriority) := by
  simp only [getPcb, table, modTcb_self]

omit [DecidableEq C] in
/-- The control block of a thread changes in its table, its priority and what is left of its slice. -/
theorem rota_modTcb {f : SchedTcb C → SchedTcb C} (hf : ∀ x, (f x).usSchedSlice = x.usSchedSlice) :
    (s.modTcb t f).rota = (s.rota.setHome t ((s.modTcb t f).getPcb t)).setLeft t
      (f (s.tcb t)).usSchedCounter := by
  have hget : (s.modTcb t f).getPcb = update s.getPcb t ((s.modTcb t f).getPcb t) := by
    funext u
    by_cases hu : u = t
    · subst hu
      rw [update_self]
    · rw [update_of_ne hu]
      exact getPcb_congr (modTcb_of_ne _ _ _ hu)
  have hleft : (fun u => ((s.modTcb t f).tcb u).usSchedCounter) =
      update (fun u => (s.tcb u).usSchedCounter) t (f (s.tcb t)).usSchedCounter := by
    funext u
    by_cases hu : u = t
    · subst hu
      rw [update_self, modTcb_self]
    · rw [update_of_ne hu, modTcb_of_ne _ _ _ hu]
  have hfull : (fun u => ((s.modTcb t f).tcb u).usSchedSlice) = fun u => (s.tcb u).usSchedSlice := by
    funext u
    by_cases hu : u = t
    · subst hu
      rw [modTcb_self, hf]
    · rw [modTcb_of_ne _ _ _ hu]
  simp only [Sched.rota, hleft, hfull, Rota.setHome, Rota.setLeft]
  congr 1

omit [DecidableEq C] in
theorem rota_modTcb_home {f : SchedTcb C → SchedTcb C}
    (hf : ∀ x, (f x).usSchedSlice = x.usSchedSlice)
    (hleft : ∀ x, (f x).usSchedCounter = x.usSchedCounter) :
    (s.modTcb t f).rota = s.rota.setHome t ((s.modTcb t f).getPcb t) := by
  rw [rota_modTcb hf, hleft]
  have hcounter : update (fun u => (s.tcb u).usSchedCounter) t (s.tcb t).usSchedCounter =
      fun u => (s.tcb u).usSchedCounter := update_eq_self t _
  simp only [Rota.setHome, Rota.setLeft, Sched.rota, hcounter]

omit [DecidableEq C] in
/-- The control block of a thread changes in nothing that matters for its turn. -/
theorem rota_modTcb_same {f : SchedTcb C → SchedTcb C}
    (hf : ∀ x, (f x).usSchedSlice = x.usSchedSlice)
    (hleft : ∀ x, (f x).usSchedCounter = x.usSchedCounter)
    (hget : (s.modTcb t f).getPcb t = s.getPcb t) : (s.modTcb t f).rota = s.rota := by
  rw [rota_modTcb_home hf hleft, hget]
  have hhome : update s.getPcb t (s.getPcb t) = s.getPcb := update_eq_self t _
  simp only [Rota.setHome, Sched.rota, hhome]

omit [DecidableEq C] in
theorem rota_counter {f : SchedTcb C → ℕ} :
    (s.modTcb t fun x => { x with usSchedCounter := f x }).rota =
      s.rota.setLeft t (f (s.tcb t)) := by
  have hget : (s.modTcb t fun x => { x with usSchedCounter := f x }).getPcb t = s.getPcb t :=
    getPcb_modTcb
  have hhome : update s.getPcb t (s.getPcb t) = s.getPcb := update_eq_self t _
  rw [rota_modTcb (f := fun x => { x with usSchedCounter := f x }) (fun _ => rfl), hget]
  simp only [Rota.setHome, Rota.setLeft, Sched.rota, hhome]

theorem rota_setCand : (s.setCand t c).rota = s.rota.setPlace c (some t) := by
  rw [Sched.setCand, rota_modTcb_same (f := fun x => { x with ulCPUId := c, bIsCand := true })
    (fun _ => rfl) (fun _ => rfl) getPcb_modTcb, rota_modCpu rfl]

theorem rota_delFromPcb : (s.delFromPcb t b).rota = s.rota.setRing b ((s.pcb b).erase t) := by
  unfold delFromPcb
  dsimp only
  split_ifs
  · rw [readyTableDel, rota_modBmap, delTcbFromReadyRing, rota_modPcb]
  · rw [delTcbFromReadyRing, rota_modPcb]

/-! ## What an operation does to the turns -/

/-- `_CandTableNext` turns the ring and finds its first thread. -/
theorem candTableNext_rota (hs : s.candTableNext b = some (t, s')) :
    s'.rota = s.rota.turn b ∧ ∃ l, s'.pcb b = t :: l := by
  simp only [candTableNext, Option.bind_eq_bind, Option.bind_eq_some_iff] at hs
  obtain ⟨u, hu, hs⟩ := hs
  obtain ⟨l, hl⟩ : ∃ l, s.pcb b = u :: l := by
    cases hb : s.pcb b with
    | nil => simp [hb] at hu
    | cons x l =>
      rw [hb, List.head?_cons, Option.some.injEq] at hu
      exact ⟨l, by rw [hu]⟩
  have hturn := Rota.turn_cases (m := s.rota) (b := b) hl
  split_ifs at hs with hzero
  · simp only [Option.bind_eq_some_iff, Option.some.injEq, Prod.mk.injEq] at hs
    obtain ⟨v, hv, rfl, rfl⟩ := hs
    refine ⟨?_, ?_⟩
    · rw [(hturn.resolve_left fun h => h.1 hzero).2, rota_modPcb, rota_counter]
      change _ = (s.rota.setLeft u (s.tcb u).usSchedSlice).setRing b (l ++ [u])
      rw [← show listRingNext (s.pcb b) = l ++ [u] by rw [hl]; rfl]
      rfl
    · rw [modPcb_self] at hv ⊢
      exact List.head?_eq_some_iff.mp hv
  · rw [Option.some.injEq, Prod.mk.injEq] at hs
    obtain ⟨rfl, rfl⟩ := hs
    exact ⟨(hturn.resolve_right fun h => hzero h.1).2.symm, l, hl⟩

theorem candTableResel_rota (hs : s.candTableResel c b = some s') :
    Rota.Taken (s.rota.setPlace c none) s'.rota := by
  simp only [candTableResel, Option.bind_eq_bind, Option.bind_eq_some_iff, Option.some.injEq] at hs
  obtain ⟨⟨t, s₁⟩, hnext, rfl⟩ := hs
  obtain ⟨hrota, l, hl⟩ := candTableNext_rota hnext
  have herase : ((s₁.setCand t c).pcb b).erase t = l := by
    change (s₁.pcb b).erase t = l
    rw [hl, List.erase_cons_head]
  rw [rota_delFromPcb, herase, rota_setCand, hrota]
  exact Rota.Taken.replace (hrota ▸ hl)

theorem candTableFill_rota (hs : s.candTableFill c = some s') :
    Rota.Taken (s.rota.setPlace c none) s'.rota := by
  simp only [candTableFill, Option.bind_eq_bind, Option.bind_eq_some_iff] at hs
  obtain ⟨b, -, hresel⟩ := hs
  exact candTableResel_rota hresel

omit [DecidableEq T] in
theorem addTcbToReadyRing_rota (bIsHeader : Bool) : ∃ l₁ l₂, s.pcb b = l₁ ++ l₂ ∧
    (s.addTcbToReadyRing t b bIsHeader).rota = s.rota.setRing b (l₁ ++ t :: l₂) := by
  have hfront : ∃ l₁ l₂, s.pcb b = l₁ ++ l₂ ∧
      (s.modPcb b (listRingAddFront t)).rota = s.rota.setRing b (l₁ ++ t :: l₂) := by
    rw [rota_modPcb]
    cases hb : s.pcb b with
    | nil => exact ⟨[], [], rfl, rfl⟩
    | cons u l => exact ⟨[u], l, rfl, rfl⟩
  have hlast : ∃ l₁ l₂, s.pcb b = l₁ ++ l₂ ∧
      (s.modPcb b (listRingAddLast t)).rota = s.rota.setRing b (l₁ ++ t :: l₂) :=
    ⟨s.pcb b, [], (List.append_nil _).symm, rota_modPcb⟩
  unfold addTcbToReadyRing
  split_ifs
  · exact ⟨[], s.pcb b, rfl, rota_modPcb⟩
  · exact hlast
  · split
    · exact hfront
    · exact hlast
    · exact hlast
  · split
    · exact hfront
    · exact hlast
    · exact hfront

/-- The candidate goes to the front of its ring. -/
theorem candTableEmpty_rota (hc : s.cand c = some t) (hs : s.candTableEmpty c = some s') :
    s'.rota = (s.rota.setPlace c none).setRing (s.getPcb t) (t :: s.pcb (s.getPcb t)) := by
  have hfree : (s.modTcb t fun x => { x with bIsCand := false }).rota = s.rota :=
    rota_modTcb_same (fun _ => rfl) (fun _ => rfl) getPcb_modTcb
  simp only [candTableEmpty, hc, Option.bind_eq_bind, Option.bind_some, Option.some.injEq] at hs
  subst hs
  rw [rota_modCpu rfl]
  split_ifs
  · rw [readyTableAdd, rota_modBmap, addTcbToReadyRing, if_pos rfl, rota_modPcb, hfree]
    rfl
  · rw [addTcbToReadyRing, if_pos rfl, rota_modPcb, hfree]
    rfl

/-- With candidates at all active CPUs a thread that gets ready goes into its ring. -/
theorem addToReadyRing_rota (hc : CandOk s) : ∃ l₁ l₂, s.pcb (s.getPcb t) = l₁ ++ l₂ ∧
    (s.addToReadyRing t k (s.getPcb t)).rota = s.rota.setRing (s.getPcb t) (l₁ ++ t :: l₂) := by
  have htried : s.Tried t (if (s.tcb t).bCPULock then s.tryAddLocked t else s.tryAddFree t k) := by
    split_ifs
    · exact tryAddLocked_tried
    · exact tryAddFree_tried
  obtain ⟨s₁, hrot, hr | ⟨e, hact, he, -⟩⟩ := htried
  · rw [addToReadyRing, candTableTryAdd]
    simp only [hr, Bool.false_eq_true, if_false]
    have hmark : (if s₁.pcbIsEmpty (s.getPcb t) then s₁.readyTableAdd t else s₁).rota = s.rota := by
      split_ifs
      · rw [readyTableAdd, rota_modBmap, hrot.rota]
      · exact hrot.rota
    have hpcb : (if s₁.pcbIsEmpty (s.getPcb t) then s₁.readyTableAdd t else s₁).pcb = s.pcb :=
      congrArg Rota.ring hmark
    obtain ⟨l₁, l₂, hl, hadd⟩ := addTcbToReadyRing_rota (t := t) (b := s.getPcb t)
      (s := if s₁.pcbIsEmpty (s.getPcb t) then s₁.readyTableAdd t else s₁) false
    rw [hpcb] at hl
    rw [hmark] at hadd
    exact ⟨l₁, l₂, hl, hadd⟩
  · have hsome := (hc e).mp hact
    rw [he] at hsome
    cases hsome

omit [DecidableEq T] [DecidableEq C] in
/-- A thread that is not ready, or a candidate, is in no ring. -/
theorem Inv.not_mem (h : Inv s) (ht : (s.tcb t).ready = true → (s.tcb t).bIsCand = true)
    (d : Option C × Prio) : t ∉ s.pcb d := by
  intro hd
  obtain ⟨hready, hcand, -⟩ := (h.placed.mem d t).mp hd
  rw [ht hready] at hcand
  cases hcand

omit [DecidableEq T] [DecidableEq C] in
/-- No other thread of the ring of a candidate is the candidate. -/
theorem Inv.spaced_back (h : Inv s) (hc : s.cand c = some t)
    (hsp : (s.tcb t).usSchedCounter = 0 → ∀ u ∈ s.pcb (s.getPcb t), u ≠ t →
      (s.tcb u).usSchedCounter ≠ 0) :
    s.rota.left t = 0 → ∀ u ∈ s.rota.ring (s.rota.home t), s.rota.left u ≠ 0 := by
  intro ht u hu
  refine hsp ht u hu ?_
  rintro rfl
  exact h.not_mem (fun _ => ((h.placed.cand c u).mp hc).1) _ hu

omit [DecidableEq T] [DecidableEq C] in
theorem Placed.out (h : Placed s R) (ht : ¬ R t) :
    (∀ d, t ∉ s.rota.ring d) ∧ ∀ c, s.rota.place c ≠ some t :=
  ⟨fun d hd => ht ((h.mem d t).mp hd).1, fun c hc => ht (h.ready t ((h.cand c t).mp hc).1)⟩

variable {N : T → Prop} {m : Rota T (Option C × Prio) C}

/-- A thread that is nowhere goes into the ring that it now belongs to. -/
theorem addToReadyRing_arrive (hm : s.rota = m.setHome t (s.getPcb t)) (hc : CandOk s) (hN : N t)
    (hout : ∀ d, t ∉ m.ring d) (hcand : ∀ c, m.place c ≠ some t)
    (hleft : m.left t = 0 → ∀ u ∈ m.ring (s.getPcb t), m.left u ≠ 0) :
    Rota.Arrive N m (s.addToReadyRing t k (s.getPcb t)).rota := by
  have hpcb : s.pcb = m.ring := congrArg Rota.ring hm
  obtain ⟨l₁, l₂, hl, hadd⟩ := addToReadyRing_rota (t := t) (k := k) hc
  rw [hadd, hm]
  exact .enter hN hout hcand (by rw [← hpcb, hl]) hleft

theorem delFromReadyRing_turns (hp : Placed s R) (hN : N t)
    (hs : s.delFromReadyRing t (s.getPcb t) = some s') :
    (∃ m₁, Rota.Away N s.rota m₁ ∧ Rota.Taken m₁ s'.rota) ∧
      (∀ d u, u ∈ s'.rota.ring d → u ∈ s.pcb d) ∧
        ∀ u, s'.rota.left u = 0 → (s.tcb u).usSchedCounter = 0 := by
  cases ht : (s.tcb t).bIsCand with
  | false =>
    rw [delFromReadyRing_ring hp ht, Option.some.injEq] at hs
    subst hs
    rw [rota_delFromPcb]
    refine ⟨⟨_, .leave hN, .stay⟩, fun d u hu => ?_, fun u hu => hu⟩
    by_cases hd : d = s.getPcb t
    · subst hd
      rw [Rota.setRing_self] at hu
      exact List.mem_of_mem_erase hu
    · rwa [Rota.setRing_of_ne hd] at hu
  | true =>
    rw [delFromReadyRing_cand hp ht, Option.map_eq_some_iff] at hs
    obtain ⟨s₁, hfill, rfl⟩ := hs
    have hc : s.cand (s.tcb t).ulCPUId = some t := (hp.cand _ t).mpr ⟨ht, rfl⟩
    have hfree : (s.modTcb t fun x => { x with bIsCand := false }).rota = s.rota :=
      rota_modTcb_same (fun _ => rfl) (fun _ => rfl) getPcb_modTcb
    have hrot : (s₁.candRot (s.tcb t).ulCPUId false).rota = s₁.rota :=
      RotOnly.rota (rotOnly_candRot false)
    have htaken := candTableFill_rota hfill
    rw [hfree] at htaken
    rw [hrot]
    exact ⟨⟨_, .quit hN hc, htaken⟩, fun d u hu => htaken.mem_of hu,
      fun u hu => htaken.left_zero hu⟩

/-- What `_CandTableUpdate` does: a candidate with none left, or less urgent than a ready thread,
goes back and a new one is taken. -/
theorem candTableUpdate_turns (h : Inv s) (hsp : s.Spaced (.update c))
    (hs : s.candTableUpdate c k = some s') :
    ∃ m₁, Rota.Away N s.rota m₁ ∧ Rota.Taken m₁ s'.rota := by
  have hrot (x : Sched T C) (e : Bool) : (x.candRot c e).rota = x.rota :=
    RotOnly.rota (rotOnly_candRot e)
  unfold candTableUpdate at hs
  by_cases hact : (s.cpu c).active = true
  · rw [if_neg (not_not_intro hact)] at hs
    cases hc : s.cand c with
    | none =>
      have hsome := (h.candOk c).mp hact
      rw [hc] at hsome
      cases hsome
    | some t =>
      simp only [hc] at hs
      cases hseek : s.candTableSeek c with
      | none =>
        simp only [hseek, Option.some.injEq] at hs
        rw [← hs, hrot]
        exact ⟨_, .stay, .stay⟩
      | some b =>
        simp only [hseek] at hs
        split_ifs at hs with hn
        · simp only [Option.bind_eq_bind, Option.bind_eq_some_iff] at hs
          obtain ⟨s₁, hempty, s₂, hresel, hs⟩ := hs
          have hlast : s'.rota = s₂.rota := by
            split_ifs at hs
            · obtain ⟨s₃, hnotify, hs⟩ := Option.bind_eq_some_iff.mp hs
              rw [Option.some.injEq] at hs
              rw [← hs, hrot]
              exact (candTableNotify_some hnotify).rota
            · rw [Option.bind_some, Option.some.injEq] at hs
              rw [← hs, hrot]
          have h₁ := candTableEmpty_rota hc hempty
          have htaken := candTableResel_rota hresel
          have hnone : s₁.rota.setPlace c none = s₁.rota := by
            rw [h₁]
            simp only [Rota.setPlace, Rota.setRing, update_idem]
          have henters : s.enters (.update c) = some (t, s.getPcb t) := by
            simp [enters, hc, hseek, hact, hn]
          rw [hnone, h₁] at htaken
          rw [hlast]
          exact ⟨_, .back hc (h.spaced_back hc (hsp _ henters)), htaken⟩
        · rw [Option.some.injEq] at hs
          rw [← hs, hrot]
          exact ⟨_, .stay, .stay⟩
  · rw [if_pos hact, Option.some.injEq] at hs
    subst hs
    exact ⟨_, .stay, .stay⟩

/-- A thread leaves its place, is changed, and goes into the ring that it then belongs to. -/
theorem move_turns {f : SchedTcb C → SchedTcb C} (h : Inv s) (hN : N t)
    (hs : s.delFromReadyRing t (s.getPcb t) = some s₁)
    (hslice : ∀ x, (f x).usSchedSlice = x.usSchedSlice)
    (hcounter : ∀ x, (f x).usSchedCounter = x.usSchedCounter)
    (hsp : (s.tcb t).usSchedCounter = 0 → ∀ u ∈ s.pcb ((s₁.modTcb t f).getPcb t), u ≠ t →
      (s.tcb u).usSchedCounter ≠ 0) :
    Rota.Step N s.rota
      ((s₁.modTcb t f).addToReadyRing t k ((s₁.modTcb t f).getPcb t)).rota := by
  obtain ⟨⟨m₁, haway, htaken⟩, hmem, hzero⟩ := delFromReadyRing_turns h.placed hN hs
  obtain ⟨hp, hremoved⟩ := delFromReadyRing_placed h.placed hs
  obtain ⟨hout, hcand⟩ := hp.out (fun hx => hx.2 rfl)
  have hok : CandOk (s₁.modTcb t f) := h.candOk.congr hremoved.frame.active hremoved.cand
  refine ⟨m₁, s₁.rota, haway, htaken, addToReadyRing_arrive (rota_modTcb_home hslice hcounter) hok hN
    hout hcand fun ht u hu hleft => ?_⟩
  have hut : u ≠ t := by
    rintro rfl
    exact hout _ hu
  exact hsp (hzero t ht) u (hmem _ u hu) hut (hzero u hleft)

/-- A thread in no ring gets another priority or affinity. -/
theorem change_turns {f : SchedTcb C → SchedTcb C} (hN : N t) (hout : ∀ d, t ∉ s.pcb d)
    (hslice : ∀ x, (f x).usSchedSlice = x.usSchedSlice)
    (hcounter : ∀ x, (f x).usSchedCounter = x.usSchedCounter) :
    Rota.Step N s.rota (s.modTcb t f).rota := by
  refine ⟨_, _, .stay, .stay, ?_⟩
  rw [rota_modTcb_home hslice hcounter]
  exact .move hN hout

theorem Inv.setPrio_turns {ucPriority : Prio} (h : Inv s)
    (hsp : s.Spaced (.setPrio t ucPriority)) (hs : s.schedSetPrio t k ucPriority = some s') :
    Rota.Step (SchedOp.setPrio (C := C) t ucPriority).Moves s.rota s'.rota := by
  unfold schedSetPrio at hs
  dsimp only at hs
  split_ifs at hs with hready hcand
  · rw [Option.some.injEq] at hs
    subst hs
    have hrot : RotOnly s (s.candRot (s.tcb t).ulCPUId true) := rotOnly_candRot true
    rw [← hrot.rota]
    exact change_turns rfl (fun d => h.not_mem (fun _ => hcand) d) (fun _ => rfl) fun _ => rfl
  · simp only [Option.bind_eq_bind, Option.bind_eq_some_iff, Option.some.injEq] at hs
    obtain ⟨s₁, hdel, rfl⟩ := hs
    have htable : s₁.table t = s.table t :=
      congrArg Prod.fst ((delFromReadyRing_placed h.placed hdel).2.frame.getPcb t)
    have hget : (s₁.modTcb t fun x => { x with ucPriority }).getPcb t = s.getPcbEx t ucPriority :=
      getPcb_modTcb.trans (congrArg (·, ucPriority) htable)
    have henters : s.enters (.setPrio t ucPriority) = some (t, s.getPcbEx t ucPriority) :=
      if_pos ⟨hready, hcand⟩
    have hmove := move_turns (N := (SchedOp.setPrio (C := C) t ucPriority).Moves) (k := k)
      (f := fun x => { x with ucPriority }) h rfl hdel (fun _ => rfl) (fun _ => rfl)
      (by rw [hget]; exact hsp _ henters)
    rwa [hget] at hmove
  · rw [Option.some.injEq] at hs
    subst hs
    exact change_turns rfl (fun d => h.not_mem (fun hx => absurd hx hready) d) (fun _ => rfl)
      fun _ => rfl

theorem Inv.setAffinity_turns {o : Option C} (h : Inv s) (hsp : s.Spaced (.setAffinity t o))
    (ho : o = none → (s.tcb t).ready = true → (s.tcb t).bIsCand = true)
    (hs : s.threadSetAffinity t k o = some s') :
    Rota.Step (SchedOp.setAffinity t o).Moves s.rota s'.rota := by
  cases o with
  | none =>
    rw [Sched.threadSetAffinity, Option.some.injEq] at hs
    subst hs
    exact change_turns rfl (fun d => h.not_mem (ho rfl) d) (fun _ => rfl) fun _ => rfl
  | some i =>
    rw [Sched.threadSetAffinity] at hs
    split_ifs at hs with hready
    · simp only [Option.bind_eq_bind, Option.bind_eq_some_iff, Option.some.injEq] at hs
      obtain ⟨s₁, hdel, rfl⟩ := hs
      have hprio : (s₁.tcb t).ucPriority = (s.tcb t).ucPriority :=
        congrArg Prod.snd ((delFromReadyRing_placed h.placed hdel).2.frame.getPcb t)
      have hget : (s₁.modTcb t fun x =>
          { x with ulCPULock := i, bCPULock := true, ucSchedActivate := .interrupt }).getPcb t =
            (some i, (s.tcb t).ucPriority) := getPcb_modTcb.trans (congrArg (some i, ·) hprio)
      have henters : s.enters (.setAffinity t (some i)) = some (t, (some i, (s.tcb t).ucPriority)) :=
        if_pos hready
      exact move_turns h rfl hdel (fun _ => rfl) (fun _ => rfl) (by rw [hget]; exact hsp _ henters)
    · rw [Option.some.injEq] at hs
      subst hs
      exact change_turns rfl (fun d => h.not_mem (fun hx => absurd hx hready) d) (fun _ => rfl)
        fun _ => rfl

/-- A CPU that comes up takes a candidate. -/
theorem Inv.active_turns (h : Inv s) (hs : s.cpuActive c k = some s') :
    Rota.Step (SchedOp.active (T := T) c).Moves s.rota s'.rota := by
  unfold Sched.cpuActive at hs
  split_ifs at hs with hact
  · rw [Option.some.injEq] at hs
    subst hs
    exact ⟨_, _, .stay, .stay, .stay⟩
  · have hnone : s.cand c = none := by
      have hno := (not_congr (h.candOk c)).mp hact
      simpa using hno
    have hnone' : (s.modCpu c fun x => { x with active := true }).cand c = none := by
      simpa [Sched.cand] using hnone
    have hsame : (s.modCpu c fun x => { x with active := true }).rota = s.rota :=
      rota_modCpu_same fun _ => rfl
    have hfree : s.rota.setPlace c none = s.rota := by
      have hcand : Function.update s.cand c none = s.cand := by
        rw [← hnone, update_eq_self]
      simp only [Rota.setPlace, Sched.rota, hcand]
    simp only [candTableUpdate, modCpu_self, not_true, if_false, hnone',
      Option.map_eq_some_iff] at hs
    obtain ⟨s₁, hfill, rfl⟩ := hs
    have htaken := candTableFill_rota hfill
    rw [hsame, hfree] at htaken
    rw [RotOnly.rota (rotOnly_candRot false)]
    exact ⟨_, _, .stay, htaken, .stay⟩

/-- The candidate of a CPU that goes down goes back to its ring. -/
theorem Inv.inactive_turns (h : Inv s) (hsp : s.Spaced (.inactive c))
    (hs : s.cpuInactive c k = some s') :
    Rota.Step (SchedOp.inactive (T := T) c).Moves s.rota s'.rota := by
  have hrot (x : Sched T C) : (x.candRot c false).rota = x.rota :=
    RotOnly.rota (rotOnly_candRot false)
  unfold Sched.cpuInactive at hs
  by_cases hact : (s.cpu c).active = true
  · rw [if_neg (not_not_intro hact)] at hs
    simp only [Option.bind_eq_bind, Option.bind_eq_some_iff] at hs
    obtain ⟨t, ht, s₁, hremove, hs⟩ := hs
    let x₀ := s.modCpu c fun x => { x with active := false }
    have hc₀ : x₀.cand c = some t := by simpa [x₀, Sched.cand] using ht
    have hempty : x₀.candTableEmpty c = some s₁ := by
      simpa [candTableRemove, hc₀, x₀] using hremove
    have hsame : x₀.rota = s.rota := rota_modCpu_same fun _ => rfl
    have hback := candTableEmpty_rota hc₀ hempty
    have hlast : s'.rota = s₁.rota := by
      split_ifs at hs
      · rw [Option.some.injEq] at hs
        rw [← hs, hrot]
      · rw [(candTableNotify_some hs).rota, hrot]
    have henters : s.enters (.inactive c) = some (t, s.getPcb t) := by
      simp [enters, ht, hact]
    rw [hlast, hback, hsame]
    exact ⟨_, _, .back ht (h.spaced_back ht (hsp _ henters)), .stay, .stay⟩
  · rw [if_pos hact, Option.some.injEq] at hs
    subst hs
    exact ⟨_, _, .stay, .stay, .stay⟩

/-- The scheduler's operations do to the ready rings and the candidates what a step of turns does. -/
theorem Inv.turns (h : Inv s) (hrun : s.Running op) (hsp : s.Spaced op)
    (hs : s.step k op = some s') : Rota.Step op.Moves s.rota s'.rota := by
  cases op with
  | add t act =>
    rw [Sched.step] at hs
    split_ifs at hs with ht
    rw [Option.some.injEq] at hs
    subst hs
    have hnot : ¬ (s.tcb t).ready = true := ht
    obtain ⟨hout, hcand⟩ := h.placed.out hnot
    have hget : (s.modTcb t fun x => { x with ucSchedActivate := act, ready := true }).getPcb t =
      s.getPcb t := getPcb_modTcb
    rw [← hget]
    refine ⟨_, _, .stay, .stay, addToReadyRing_arrive
      (rota_modTcb_home (fun _ => rfl) fun _ => rfl) h.candOk rfl hout hcand fun ht u hu => ?_⟩
    rw [hget] at hu
    refine hsp _ rfl ht u hu ?_
    rintro rfl
    exact hout _ hu
  | del t =>
    rw [Sched.step] at hs
    split_ifs at hs with ht
    obtain ⟨s₁, hdel, rfl⟩ := Option.map_eq_some_iff.mp hs
    obtain ⟨⟨m₁, haway, htaken⟩, -, -⟩ :=
      delFromReadyRing_turns (N := (SchedOp.del (C := C) t).Moves) h.placed rfl hdel
    have hsame : (s₁.modTcb t fun x => { x with ready := false }).rota = s₁.rota :=
      rota_modTcb_same (fun _ => rfl) (fun _ => rfl) getPcb_modTcb
    rw [hsame]
    exact ⟨m₁, s₁.rota, haway, htaken, .stay⟩
  | update c =>
    obtain ⟨m₁, haway, htaken⟩ := candTableUpdate_turns h hsp hs
    exact ⟨m₁, s'.rota, haway, htaken, .stay⟩
  | remove c =>
    rw [Sched.step, h.remove, Option.some.injEq] at hs
    subst hs
    exact ⟨_, _, .stay, .stay, .stay⟩
  | setPrio t ucPriority => exact h.setPrio_turns hsp hs
  | setAffinity t o =>
    rw [Sched.step] at hs
    split_ifs at hs with ht
    refine h.setAffinity_turns hsp (fun ho hready => ?_) hs
    by_contra hcand
    exact ht ⟨ho, hready, hcand⟩
  | active c => exact h.active_turns hs
  | inactive c => exact h.inactive_turns hsp hs
  | tick c t =>
    rw [Sched.step, Option.some.injEq] at hs
    subst hs
    unfold schedTick
    split_ifs with hrr hzero
    · rw [RotOnly.rota (rotOnly_candRot true)]
      exact ⟨_, _, .stay, .stay, .stay⟩
    · rw [rota_counter]
      exact ⟨_, _, .spend (hrun hrr.1) (Nat.sub_le _ 1), .stay, .stay⟩
    · exact ⟨_, _, .stay, .stay, .stay⟩
  | yield t =>
    rw [Sched.step, Option.some.injEq] at hs
    subst hs
    rw [schedYield, RotOnly.rota (rotOnly_candRot true), rota_counter (f := fun _ => 0)]
    exact ⟨_, _, .spend ((h.placed.cand _ t).mpr ⟨hrun, rfl⟩) (Nat.zero_le _), .stay, .stay⟩
  | onlyAffinity c bEnable =>
    rw [Sched.step, Option.some.injEq] at hs
    subst hs
    have hrot (x : Sched T C) : (x.candRot c true).rota = x.rota :=
      RotOnly.rota (rotOnly_candRot true)
    have hsame : (s.cpuSetSchedAffinity c bEnable).rota = s.rota := by
      unfold cpuSetSchedAffinity
      split_ifs
      · rfl
      · rw [hrot]
        exact rota_modCpu_same fun _ => rfl
    rw [hsame]
    exact ⟨_, _, .stay, .stay, .stay⟩

end SylixOS.Kernel.Sched
