import SylixOS.Disk.WritePipeline

/-! # What the cache keeps of its write pipeline

The invariant of the pipeline, in three parts: where buffers and messages are, what they and the device
hold, and what the cache waits for. Each step of the cache keeps it.
-/

namespace SylixOS.Disk
open Lib Store

/-- The cache waits for all buffers but its own while there is something to wait for, and goes on when
no message is of its sectors. -/
def WpClient.Ready (msgs : List WpMsg) (hSync : Bool) (threads : List WpThread) : WpClient → Prop
  | .check ulGetCnt call => ulGetCnt = call.buffers.length
  | .wait ulGetCnt call => ulGetCnt = call.buffers.length ∧
      (hSync = false → msgs ≠ [] ∨ threads.any WpThread.leaving)
  | .act call => ∀ m ∈ msgs, ∀ sector, call.Covers sector → ¬ m.Covers sector
  | _ => True

theorem WpClient.Ready.keep {c : WpClient} {msgs msgs' : List WpMsg} {hSync hSync' : Bool}
    {threads threads' : List WpThread} (h : c.Ready msgs hSync threads)
    (hmsgs : ∀ m' ∈ msgs', ∃ m ∈ msgs, ∀ sector, m'.Covers sector → m.Covers sector)
    (hsync : hSync' = false → hSync = false)
    (hleaving : hSync' = false → msgs ≠ [] ∨ threads.any WpThread.leaving →
      msgs' ≠ [] ∨ threads'.any WpThread.leaving) : c.Ready msgs' hSync' threads' := by
  cases c with
  | check => exact h
  | wait => exact ⟨h.1, fun hs => hleaving hs (h.2 (hsync hs))⟩
  | act =>
    intro m' hm' sector hc hk
    obtain ⟨m, hm, hsub⟩ := hmsgs m' hm'
    exact h m hm sector hc (hsub sector hk)
  | _ => trivial

namespace WritePipeline
variable {α : Type*} {s : WritePipeline α} {i : ℕ}

/-! ## Where buffers and messages are -/

/-- Each buffer and each message is in one place, and is counted there. -/
structure Places (s : WritePipeline α) : Prop where
  buffers : (s.part ++ s.client.buffers ++ s.msgs.map WpMsg.pvBuffer ++
    s.threads.filterMap WpThread.buffer).Perm (List.range s.iMsgCount)
  nodes : (s.msgs.map WpMsg.id ++ s.plineFree).Perm (List.range s.iMsgCount)
  head : s.plineHead = s.msgs.getLast?.map WpMsg.id
  writing : (s.threads.filterMap WpThread.msg).Perm ((s.msgs.filter WpMsg.bWriting).map WpMsg.id)
  counter : s.hCounter + s.threads.count .notify = s.part.length
  signals : s.hQueue + s.threads.count .woken + s.client.signals =
    s.msgs.countP fun m => !m.bWriting

/-- The messages are of different sectors and later ones are nearer to the tail, their buffers hold the
last write of each, and the device holds the last write of all other sectors. -/
structure Data (s : WritePipeline α) : Prop where
  apart : s.msgs.Pairwise fun a b => ∀ sector, a.Covers sector → ¬ b.Covers sector
  sorted : s.msgs.Pairwise fun a b => b.seq < a.seq
  seqs : ∀ seq, seq < s.accepted ↔
    seq ∈ s.reached.map WpMsg.seq ∨ seq ∈ s.msgs.map WpMsg.seq
  fresh : ∀ m ∈ s.msgs, ∀ sector, m.Covers sector →
    s.last sector = some (m.seq, s.mem m.pvBuffer (sector - m.ulStartSector))
  settled : ∀ sector, (∀ m ∈ s.msgs, m.Covers sector → m.seq ∈ s.reached.map WpMsg.seq) →
    ∀ v, s.expected sector = some v → s.dev sector = v
  done : ∀ m ∈ s.msgs, m.seq ∈ s.reached.map WpMsg.seq ↔ WpThread.done m.id ∈ s.threads
  order : s.reached.Pairwise fun a b => ∀ sector, a.Covers sector → b.Covers sector → a.seq < b.seq
  later : ∀ m ∈ s.msgs, ∀ a ∈ s.reached, ∀ sector, a.Covers sector → m.Covers sector → a.seq ≤ m.seq
  got : ∀ g ∈ s.got, ∀ v, g.2 = some v → g.1 = v

/-- A wait ends only after every write before it. -/
structure Waits (s : WritePipeline α) : Prop where
  ready : s.client.Ready s.msgs s.hSync s.threads
  synced : ∀ p ∈ s.synced, ∀ seq < p.1, seq ∈ p.2

structure Inv (s : WritePipeline α) : Prop extends Places s, Data s, Waits s

theorem Init.inv (h : Init s) : Inv s := by
  obtain ⟨mem, dev, bParallel, iPipeline, iMsgCount, rfl⟩ := h
  have hbuffer : (List.replicate iPipeline WpThread.wait).filterMap WpThread.buffer = [] :=
    List.filterMap_replicate_of_none rfl
  have hmsg : (List.replicate iPipeline WpThread.wait).filterMap WpThread.msg = [] :=
    List.filterMap_replicate_of_none rfl
  exact {
    buffers := by simp [wpCreate, WpClient.buffers, hbuffer]
    nodes := .refl _
    head := rfl
    writing := by simp [wpCreate, hmsg]
    counter := by simp [wpCreate, List.count_replicate]
    signals := by simp [wpCreate, WpClient.signals, List.count_replicate]
    apart := .nil
    sorted := .nil
    seqs := by simp [wpCreate]
    fresh := fun _ hm => nomatch hm
    settled := fun _ _ _ hv => Option.some.inj hv
    done := fun _ hm => nomatch hm
    order := .nil
    later := fun _ hm => nomatch hm
    got := fun _ hg => nomatch hg
    ready := trivial
    synced := fun _ hp => nomatch hp }

/-! ## Steps of the cache -/

theorem Inv.of_client (h : Inv s) {c : WpClient} (hc : s.client = c) :
    (s.part ++ c.buffers ++ s.msgs.map WpMsg.pvBuffer ++
      s.threads.filterMap WpThread.buffer).Perm (List.range s.iMsgCount) ∧
    s.hQueue + s.threads.count .woken + c.signals = (s.msgs.countP fun m => !m.bWriting) ∧
    c.Ready s.msgs s.hSync s.threads := by
  subst hc
  exact ⟨h.buffers, h.signals, h.ready⟩

theorem Inv.getBuffer (h : Inv s) {pvBuffer : ℕ} {part : List ℕ} (hc : s.client = .idle)
    (hp : s.part = pvBuffer :: part) (hcnt : 0 < s.hCounter) :
    Inv { s with part, hCounter := s.hCounter - 1, client := .hold pvBuffer } := by
  obtain ⟨hbuffers, hsignals, -⟩ := h.of_client hc
  have hcounter := h.counter
  rw [hp] at hbuffers hcounter
  exact { h with
    buffers := by
      refine List.Perm.trans ?_ hbuffers
      simp [List.perm_iff_count, WpClient.buffers, List.count_cons]
      grind
    counter := by
      rw [List.length_cons] at hcounter
      dsimp only
      omega
    signals := hsignals
    ready := trivial }

/-- The buffer that the cache holds is of no message. -/
theorem Places.held (h : Places s) {b : ℕ} (hb : b ∈ s.client.buffers) {m : WpMsg}
    (hm : m ∈ s.msgs) : m.pvBuffer ≠ b := by
  have hnodup := h.buffers.nodup_iff.mpr List.nodup_range
  rw [List.append_assoc, List.append_assoc, List.nodup_append] at hnodup
  have hnodup := (List.nodup_append.mp hnodup.2.1).2.2 b hb
  exact fun heq => hnodup b (List.mem_append_left _ (heq ▸ List.mem_map_of_mem hm)) rfl

theorem not_overlap {st n : ℕ} (h : s.overlap st n = false) :
    ∀ m ∈ s.msgs, ∀ sector, st ≤ sector ∧ sector < st + n → ¬ m.Covers sector := by
  intro m hm sector hs hk
  rw [overlap, List.any_eq_false] at h
  have hm := h m hm
  rw [WpMsg.Covers] at hk
  rw [decide_eq_true_eq] at hm
  omega

theorem Inv.write (h : Inv s) {b st : ℕ} {data : List α} (hc : s.client = .hold b) :
    Inv { s with
      mem := Function.update s.mem b (overlay (s.mem b) 0 data)
      client := if s.overlap st data.length then .check 1 (.write b st data.length)
        else .act (.write b st data.length) } := by
  obtain ⟨hbuffers, hsignals, -⟩ := h.of_client hc
  have hfresh : ∀ m ∈ s.msgs, ∀ sector, m.Covers sector → s.last sector = some (m.seq,
      Function.update s.mem b (overlay (s.mem b) 0 data) m.pvBuffer (sector - m.ulStartSector)) := by
    intro m hm sector hk
    rw [Function.update_of_ne (h.held (by rw [hc]; exact List.mem_cons_self) hm)]
    exact h.fresh m hm sector hk
  cases hover : s.overlap st data.length with
  | true => exact { h with
      buffers := hbuffers
      fresh := hfresh
      signals := hsignals
      ready := rfl }
  | false => exact { h with
      buffers := hbuffers
      fresh := hfresh
      signals := hsignals
      ready := not_overlap hover }

theorem Inv.read (h : Inv s) {st n : ℕ} (hc : s.client = .idle) :
    Inv { s with
      client := if s.overlap st n then .check 0 (.read st n) else .act (.read st n) } := by
  obtain ⟨hbuffers, hsignals, -⟩ := h.of_client hc
  cases hover : s.overlap st n with
  | true => exact { h with buffers := hbuffers, signals := hsignals, ready := rfl }
  | false => exact { h with buffers := hbuffers, signals := hsignals, ready := not_overlap hover }

theorem Inv.sync (h : Inv s) (hc : s.client = .idle) : Inv { s with client := .check 0 .sync } := by
  obtain ⟨hbuffers, hsignals, -⟩ := h.of_client hc
  exact { h with buffers := hbuffers, signals := hsignals, ready := rfl }

/-- A steal finds the last write of a sector in the buffer of its message. -/
theorem Inv.steal (h : Inv s) (sector : ℕ) : Inv (s.wpSteal sector) := by
  unfold wpSteal
  split
  · rename_i m hhead hfind
    have hm := List.mem_of_find?_eq_some hfind
    have hk := List.find?_some hfind
    exact { h with
      got := by
        intro g hg v hv
        rcases List.mem_append.mp hg with hg | hg
        · exact h.got g hg v hv
        · rw [List.mem_singleton.mp hg] at hv ⊢
          rw [h.fresh m hm sector (of_decide_eq_true hk)] at hv
          exact Option.some.inj hv }
  · exact h

/-- When all buffers but its own have come back, no message is left. -/
theorem Inv.check (h : Inv s) {cnt : ℕ} {call : WpCall} (hc : s.client = .check cnt call)
    (hcnt : s.iMsgCount ≤ s.part.length + cnt) :
    Inv { s with
      hSync := true
      client := .act call
      synced := s.synced ++ [(s.accepted, s.reached.map WpMsg.seq)] } := by
  obtain ⟨hbuffers, hsignals, hready⟩ := h.of_client hc
  have hmsgs : s.msgs = [] := by
    have hlength := hbuffers.length_eq
    simp only [List.length_append, List.length_map, List.length_range] at hlength
    change cnt = call.buffers.length at hready
    change s.part.length + call.buffers.length + s.msgs.length + _ = _ at hlength
    rw [← List.length_eq_zero_iff]
    omega
  exact { h with
    buffers := hbuffers
    signals := hsignals
    ready := fun m hm => absurd hm (hmsgs ▸ List.not_mem_nil)
    synced := by
      intro p hp seq hseq
      rcases List.mem_append.mp hp with hp | hp
      · exact h.synced p hp seq hseq
      · rw [List.mem_singleton.mp hp] at hseq ⊢
        rcases (h.seqs seq).mp hseq with hr | hm
        · exact hr
        · rw [hmsgs] at hm
          cases hm }

/-- A buffer that has not come back is of a message, or of a thread that will wake up the cache. -/
theorem Inv.block (h : Inv s) {cnt : ℕ} {call : WpCall} (hc : s.client = .check cnt call)
    (hcnt : ¬ s.iMsgCount ≤ s.part.length + cnt) : Inv { s with client := .wait cnt call } := by
  obtain ⟨hbuffers, hsignals, hready⟩ := h.of_client hc
  have hleaving : s.msgs ≠ [] ∨ s.threads.any WpThread.leaving := by
    by_contra hnone
    rw [not_or, not_not, Bool.not_eq_true, List.any_eq_false] at hnone
    have hput : s.threads.filterMap WpThread.buffer = [] := by
      rw [List.filterMap_eq_nil_iff]
      intro t ht
      cases t with
      | put b => exact absurd rfl (hnone.2 _ ht)
      | _ => rfl
    rw [hnone.1, hput] at hbuffers
    have hlength := hbuffers.length_eq
    simp only [List.length_append, List.map_nil, List.length_nil, List.length_range] at hlength
    change cnt = call.buffers.length at hready
    change s.part.length + call.buffers.length + 0 + 0 = _ at hlength
    omega
  exact { h with buffers := hbuffers, signals := hsignals, ready := ⟨hready, fun _ => hleaving⟩ }

theorem Inv.wake (h : Inv s) {cnt : ℕ} {call : WpCall} (hc : s.client = .wait cnt call) :
    Inv { s with hSync := false, client := .check cnt call } := by
  obtain ⟨hbuffers, hsignals, hready⟩ := h.of_client hc
  exact { h with buffers := hbuffers, signals := hsignals, ready := hready.1 }

/-- A read of sectors of no message finds the last write of each on the device. -/
theorem Inv.readDev (h : Inv s) {st n : ℕ} (hc : s.client = .act (.read st n)) :
    Inv (s.readDev st n) := by
  obtain ⟨hbuffers, hsignals, hready⟩ := h.of_client hc
  exact { h with
    buffers := hbuffers
    signals := hsignals
    got := by
      intro g hg v hv
      rcases List.mem_append.mp hg with hg | hg
      · exact h.got g hg v hv
      · obtain ⟨i, hi, rfl⟩ := List.mem_map.mp hg
        rw [List.mem_range] at hi
        refine h.settled (st + i) (fun m hm hk => absurd hk (hready m hm _ ?_)) v hv
        exact ⟨Nat.le_add_right _ _, by omega⟩
    ready := trivial }

/-- A cache that holds a buffer finds a free message. -/
theorem Places.room (h : Places s) {b : ℕ} (hb : s.client.buffers = [b]) : s.plineFree ≠ [] := by
  intro hfree
  have hbuffers := h.buffers.length_eq
  have hnodes := h.nodes.length_eq
  rw [hb] at hbuffers
  rw [hfree] at hnodes
  simp only [List.length_append, List.length_map, List.length_cons, List.length_nil,
    List.length_range] at hbuffers hnodes
  omega

theorem getLast?_cons_head {m : WpMsg} {msgs : List WpMsg} :
    ((m :: msgs).getLast?.map WpMsg.id) =
      if msgs.getLast?.map WpMsg.id = none then some m.id else msgs.getLast?.map WpMsg.id := by
  rw [List.getLast?_cons]
  cases msgs.getLast? <;> rfl

theorem Inv.queue (h : Inv s) {b st n id : ℕ} {plineFree : List ℕ}
    (hc : s.client = .act (.write b st n)) (hfree : s.plineFree = id :: plineFree) :
    Inv (s.queue b st n id plineFree) := by
  obtain ⟨hbuffers, hsignals, hready⟩ := h.of_client hc
  have hnodes := h.nodes
  rw [hfree] at hnodes
  have hseq : s.accepted ∉ s.reached.map WpMsg.seq ∧ s.accepted ∉ s.msgs.map WpMsg.seq := by
    rw [← not_or, ← h.seqs]
    exact Nat.lt_irrefl _
  have hid : WpThread.done id ∉ s.threads := by
    intro hdone
    have hmem := h.writing.subset (List.mem_filterMap.mpr ⟨_, hdone, rfl⟩)
    have hmem : id ∈ s.msgs.map WpMsg.id := by
      obtain ⟨m, hm, hid⟩ := List.mem_map.mp hmem
      exact List.mem_map.mpr ⟨m, List.mem_of_mem_filter hm, hid⟩
    have hnodup := hnodes.nodup_iff.mpr List.nodup_range
    exact (List.nodup_append.mp hnodup).2.2 id hmem id List.mem_cons_self rfl
  have houtside : ∀ sector, ¬ (st ≤ sector ∧ sector < st + n) →
      (s.queue b st n id plineFree).last sector = s.last sector := fun sector hs => if_neg hs
  exact {
    buffers := by
      refine List.Perm.trans ?_ hbuffers
      simp [WritePipeline.queue, WpClient.buffers, WpCall.buffers]
    nodes := List.perm_middle.symm.trans hnodes
    head := by
      rw [WritePipeline.queue, getLast?_cons_head, ← h.head]
    writing := h.writing
    counter := h.counter
    signals := by
      rw [WritePipeline.queue, List.countP_cons_of_pos rfl, ← hsignals]
      rfl
    apart := List.pairwise_cons.mpr ⟨hready, h.apart⟩
    sorted := by
      refine List.pairwise_cons.mpr ⟨fun m hm => ?_, h.sorted⟩
      exact (h.seqs m.seq).mpr (.inr (List.mem_map_of_mem hm))
    seqs := by
      intro seq
      change seq < s.accepted + 1 ↔ _ ∨ seq ∈ s.accepted :: s.msgs.map WpMsg.seq
      rw [Nat.lt_succ_iff_lt_or_eq, h.seqs, List.mem_cons]
      tauto
    fresh := by
      intro m hm sector hk
      rcases List.mem_cons.mp hm with rfl | hm
      · exact if_pos hk
      · rw [houtside sector fun hs => hready m hm sector hs hk]
        exact h.fresh m hm sector hk
    settled := by
      intro sector hall v hv
      have hs : ¬ (st ≤ sector ∧ sector < st + n) :=
        fun hs => hseq.1 (hall _ List.mem_cons_self hs)
      refine h.settled sector (fun m hm hk => hall m (List.mem_cons_of_mem _ hm) hk) v ?_
      rw [← hv, expected, expected, houtside sector hs]
      rfl
    done := by
      intro m hm
      rcases List.mem_cons.mp hm with rfl | hm
      · exact iff_of_false hseq.1 hid
      · exact h.done m hm
    order := h.order
    later := by
      intro m hm a ha sector hak hmk
      rcases List.mem_cons.mp hm with rfl | hm
      · exact Nat.le_of_lt ((h.seqs a.seq).mpr (.inl (List.mem_map_of_mem ha)))
      · exact h.later m hm a ha sector hak hmk
    got := h.got
    ready := trivial
    synced := h.synced }

theorem Inv.actSync (h : Inv s) (hc : s.client = .act .sync) : Inv { s with client := .idle } := by
  obtain ⟨hbuffers, hsignals, -⟩ := h.of_client hc
  exact { h with buffers := hbuffers, signals := hsignals, ready := trivial }

theorem Inv.post (h : Inv s) (hc : s.client = .signal) :
    Inv { s with hQueue := min (s.hQueue + 1) s.iMsgCount, client := .idle } := by
  obtain ⟨hbuffers, hsignals, -⟩ := h.of_client hc
  have hle : s.hQueue + 1 ≤ s.iMsgCount := by
    have hlength := h.nodes.length_eq
    have hcount : (s.msgs.countP fun m => !m.bWriting) ≤ s.msgs.length := List.countP_le_length
    simp only [List.length_append, List.length_map, List.length_range] at hlength
    change s.hQueue + s.threads.count .woken + 1 = _ at hsignals
    omega
  exact { h with
    buffers := hbuffers
    signals := by
      change min (s.hQueue + 1) s.iMsgCount + s.threads.count .woken + 0 = _
      rw [← hsignals, Nat.min_eq_left hle]
      exact Nat.add_right_comm s.hQueue 1 _
    ready := trivial }

end WritePipeline

end SylixOS.Disk
