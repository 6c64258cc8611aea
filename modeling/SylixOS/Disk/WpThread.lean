import SylixOS.Disk.WpCache

/-! # The threads of the write pipeline

Each step of a thread keeps the invariant, and so does every run.
-/

namespace SylixOS.Disk
open Lib Store

namespace WritePipeline
variable {α : Type*} {s : WritePipeline α} {i : ℕ}

/-! ## Steps of the threads -/

/-- What the invariant says of the threads, with one of them taken out. -/
theorem Inv.of_thread (h : Inv s) {t : WpThread} (ht : s.threads[i]? = some t) :
    ∃ l r, (∀ t', s.threads.set i t' = l ++ t' :: r) ∧
      (s.part ++ s.client.buffers ++ s.msgs.map WpMsg.pvBuffer ++
        (l ++ t :: r).filterMap WpThread.buffer).Perm (List.range s.iMsgCount) ∧
      ((l ++ t :: r).filterMap WpThread.msg).Perm
        ((s.msgs.filter WpMsg.bWriting).map WpMsg.id) ∧
      s.hCounter + (l ++ t :: r).count .notify = s.part.length ∧
      s.hQueue + (l ++ t :: r).count .woken + s.client.signals =
        (s.msgs.countP fun m => !m.bWriting) ∧
      (∀ m ∈ s.msgs, m.seq ∈ s.reached.map WpMsg.seq ↔ WpThread.done m.id ∈ l ++ t :: r) ∧
      s.client.Ready s.msgs s.hSync (l ++ t :: r) := by
  obtain ⟨l, r, hl, hset⟩ := exists_set ht
  refine ⟨l, r, hset, ?_⟩
  rw [← hl]
  exact ⟨h.buffers, h.writing, h.counter, h.signals, h.done, h.ready⟩

theorem Inv.take (h : Inv s) (ht : s.threads[i]? = some .wait) (hq : 0 < s.hQueue) :
    Inv { s with threads := s.threads.set i .woken, hQueue := s.hQueue - 1 } := by
  obtain ⟨l, r, hset, hbuffers, hwriting, hcounter, hsignals, hdone, hready⟩ := h.of_thread ht
  rw [hset]
  exact { h with
    buffers := by simpa [List.filterMap_cons, WpThread.buffer] using hbuffers
    writing := by simpa [List.filterMap_cons, WpThread.msg] using hwriting
    counter := by simpa [List.count_cons] using hcounter
    signals := by
      simp only [List.count_append, List.count_cons] at hsignals ⊢
      simp at hsignals ⊢
      omega
    done := by simpa using hdone
    ready := by
      refine hready.keep (fun m hm => ⟨m, hm, fun _ hk => hk⟩) id fun _ hleaving => ?_
      simpa [WpThread.leaving] using hleaving }

theorem Inv.put (h : Inv s) {b : ℕ} (ht : s.threads[i]? = some (.put b)) :
    Inv { s with threads := s.threads.set i .notify, part := b :: s.part } := by
  obtain ⟨l, r, hset, hbuffers, hwriting, hcounter, hsignals, hdone, hready⟩ := h.of_thread ht
  rw [hset]
  exact { h with
    buffers := by
      refine List.Perm.trans ?_ hbuffers
      simp [List.perm_iff_count, List.filterMap_cons, WpThread.buffer, List.count_cons]
      grind
    writing := by simpa [List.filterMap_cons, WpThread.msg] using hwriting
    counter := by
      simp at hcounter ⊢
      omega
    signals := by simpa [List.count_cons] using hsignals
    done := by simpa using hdone
    ready := by
      refine hready.keep (fun m hm => ⟨m, hm, fun _ hk => hk⟩) id fun _ hleaving => ?_
      simp [WpThread.leaving] }

theorem Inv.notify (h : Inv s) (ht : s.threads[i]? = some .notify) :
    Inv { s with
      threads := s.threads.set i .signal
      hCounter := min (s.hCounter + 1) s.iMsgCount } := by
  obtain ⟨l, r, hset, hbuffers, hwriting, hcounter, hsignals, hdone, hready⟩ := h.of_thread ht
  have hle : s.part.length ≤ s.iMsgCount := by
    have hlength := hbuffers.length_eq
    simp only [List.length_append, List.length_range] at hlength
    omega
  rw [hset]
  exact { h with
    buffers := by simpa [List.filterMap_cons, WpThread.buffer] using hbuffers
    writing := by simpa [List.filterMap_cons, WpThread.msg] using hwriting
    counter := by
      simp at hcounter ⊢
      omega
    signals := by simpa [List.count_cons] using hsignals
    done := by simpa using hdone
    ready := by
      refine hready.keep (fun m hm => ⟨m, hm, fun _ hk => hk⟩) id fun _ hleaving => ?_
      simp [WpThread.leaving] }

theorem Inv.signal (h : Inv s) (ht : s.threads[i]? = some .signal) :
    Inv { s with threads := s.threads.set i .wait, hSync := true } := by
  obtain ⟨l, r, hset, hbuffers, hwriting, hcounter, hsignals, hdone, hready⟩ := h.of_thread ht
  rw [hset]
  exact { h with
    buffers := by simpa [List.filterMap_cons, WpThread.buffer] using hbuffers
    writing := by simpa [List.filterMap_cons, WpThread.msg] using hwriting
    counter := by simpa [List.count_cons] using hcounter
    signals := by simpa [List.count_cons] using hsignals
    done := by simpa using hdone
    ready := hready.keep (fun m hm => ⟨m, hm, fun _ hk => hk⟩) (fun hs => nomatch hs)
      fun hs => nomatch hs }

theorem pickMsg_eq_none {msgs : List WpMsg} (h : pickMsg msgs = none) :
    (msgs.countP fun m => !m.bWriting) = 0 := by
  induction msgs with
  | nil => rfl
  | cons m msgs ih =>
    rw [pickMsg] at h
    split at h
    · cases h
    · rename_i hnone
      split_ifs at h with hm
      rw [List.countP_cons_of_neg (by rw [hm]; exact Bool.false_ne_true), ih hnone]

theorem pickMsg_eq_some {msgs msgs' : List WpMsg} {id : ℕ} (h : pickMsg msgs = some (id, msgs')) :
    ∃ l m r, msgs = l ++ m :: r ∧ m.bWriting = false ∧ m.id = id ∧
      msgs' = l ++ { m with bWriting := true } :: r := by
  induction msgs generalizing msgs' with
  | nil => cases h
  | cons m msgs ih =>
    rw [pickMsg] at h
    split at h
    · rename_i hsome
      cases h
      obtain ⟨l, m', r, rfl, hm, hid, rfl⟩ := ih hsome
      exact ⟨m :: l, m', r, rfl, hm, hid, rfl⟩
    · split_ifs at h with hm
      cases h
      exact ⟨[], m, msgs, rfl, eq_false_of_ne_true hm, rfl, rfl⟩

theorem Places.nodup (h : Places s) : (s.msgs.map WpMsg.id).Nodup :=
  (List.nodup_append.mp (h.nodes.nodup_iff.mpr List.nodup_range)).1

/-- The messages are looked through from the first one on. -/
theorem Places.pickFrom (h : Places s) : pickFrom s.plineHead s.msgs = pickMsg s.msgs := by
  have hnodup := h.nodup
  rw [h.head]
  rcases List.eq_nil_or_concat s.msgs with hmsgs | ⟨l, m, hmsgs⟩
  · rw [hmsgs]
    rfl
  · rw [List.concat_eq_append] at hmsgs
    rw [hmsgs] at hnodup ⊢
    rw [List.getLast?_append, List.getLast?_singleton, Option.some_or, Option.map_some,
      WritePipeline.pickFrom, cut_of_nodup hnodup]
    simp

/-- A thread that was let go finds a message. -/
theorem Inv.pick_ne_none (h : Inv s) (ht : s.threads[i]? = some .woken) :
    WritePipeline.pickFrom s.plineHead s.msgs ≠ none := by
  intro hnone
  rw [h.pickFrom] at hnone
  have hsignals := h.signals
  have hwoken := List.count_pos_iff.mpr (List.mem_of_getElem? ht)
  rw [pickMsg_eq_none hnone] at hsignals
  omega

/-- A message that is marked is the same message otherwise. -/
theorem mem_marked {ml mr : List WpMsg} {m x : WpMsg} {b : Bool}
    (hx : x ∈ ml ++ { m with bWriting := b } :: mr) :
    ∃ y ∈ ml ++ m :: mr, ∃ b, x = { y with bWriting := b } := by
  rcases List.mem_append.mp hx with hx | hx
  · exact ⟨x, List.mem_append_left _ hx, x.bWriting, rfl⟩
  · rcases List.mem_cons.mp hx with rfl | hx
    · exact ⟨m, List.mem_append_right _ List.mem_cons_self, b, rfl⟩
    · exact ⟨x, List.mem_append_right _ (List.mem_cons_of_mem _ hx), x.bWriting, rfl⟩

theorem Inv.pick (h : Inv s) (ht : s.threads[i]? = some .woken) {id : ℕ} {msgs : List WpMsg}
    (hpick : WritePipeline.pickFrom s.plineHead s.msgs = some (id, msgs)) :
    Inv { s with threads := s.threads.set i (.write id), msgs } := by
  obtain ⟨l, r, hset, hbuffers, hwriting, hcounter, hsignals, hdone, hready⟩ := h.of_thread ht
  rw [h.pickFrom] at hpick
  obtain ⟨ml, m, mr, hmsgs, hfalse, rfl, rfl⟩ := pickMsg_eq_some hpick
  have hnodes := h.nodes
  have hhead := h.head
  have hapart := h.apart
  have hsorted := h.sorted
  have hseqs := h.seqs
  rw [hmsgs] at hbuffers hwriting hsignals hnodes hhead hapart hsorted hseqs
  have hmem : ∀ x ∈ ml ++ { m with bWriting := true } :: mr,
      ∃ y ∈ s.msgs, ∃ b, x = { y with bWriting := b } := fun x hx => hmsgs ▸ mem_marked hx
  rw [hset]
  exact {
    buffers := by simpa [List.filterMap_cons, WpThread.buffer] using hbuffers
    nodes := by simpa using hnodes
    head := by
      rw [hhead]
      cases mr <;> simp [List.getLast?_append, List.getLast?_cons]
    writing := by
      refine List.perm_iff_count.mpr fun a => ?_
      have ha := hwriting.count_eq a
      simp [List.filterMap_cons, WpThread.msg, hfalse, List.count_cons] at ha ⊢
      omega
    counter := by simpa [List.count_cons] using hcounter
    signals := by
      simp [hfalse] at hsignals ⊢
      omega
    apart := by
      simp only [List.pairwise_append, List.pairwise_cons, List.forall_mem_cons] at hapart ⊢
      exact hapart
    sorted := by
      simp only [List.pairwise_append, List.pairwise_cons, List.forall_mem_cons] at hsorted ⊢
      exact hsorted
    seqs := by simpa using hseqs
    fresh := by
      intro x hx
      obtain ⟨y, hy, b, rfl⟩ := hmem x hx
      exact h.fresh y hy
    settled := by
      intro sector hall
      refine h.settled sector fun y hy hk => ?_
      rw [hmsgs] at hy
      obtain ⟨x, hx, b, rfl⟩ := mem_marked (m := { m with bWriting := true }) (b := m.bWriting) hy
      exact hall x hx hk
    done := by
      intro x hx
      obtain ⟨y, hy, b, rfl⟩ := hmem x hx
      simpa using hdone y hy
    order := h.order
    later := by
      intro x hx
      obtain ⟨y, hy, b, rfl⟩ := hmem x hx
      exact h.later y hy
    got := h.got
    ready := by
      refine hready.keep (fun x hx => ?_) id fun _ _ => .inl (List.append_ne_nil_of_right_ne_nil _
        (List.cons_ne_nil _ _))
      obtain ⟨y, hy, b, rfl⟩ := hmem x hx
      exact ⟨y, hy, fun _ hk => hk⟩
    synced := h.synced }

theorem Data.seq_nodup (h : Data s) : (s.msgs.map WpMsg.seq).Nodup :=
  List.pairwise_map.mpr (h.sorted.imp fun hlt => (Nat.ne_of_lt hlt).symm)

/-- Messages with a sector in common are the same. -/
theorem Data.eq_of_covers (h : Data s) {m m' : WpMsg} (hm : m ∈ s.msgs) (hm' : m' ∈ s.msgs)
    {sector : ℕ} (hk : m.Covers sector) (hk' : m'.Covers sector) : m = m' := by
  by_contra hne
  have hsymm : Std.Symm fun a b : WpMsg => ∀ sector, a.Covers sector → ¬ b.Covers sector :=
    ⟨fun a b hab sector hb ha => hab sector ha hb⟩
  exact h.apart.forall hm hm' hne sector hk hk'

/-- A thread that writes a message has not yet done so. -/
theorem Inv.not_done (h : Inv s) {l r : List WpThread} {id : ℕ}
    (hwriting : ((l ++ .write id :: r).filterMap WpThread.msg).Perm
      ((s.msgs.filter WpMsg.bWriting).map WpMsg.id)) : WpThread.done id ∉ l ++ .write id :: r := by
  have hnodup : ((l ++ .write id :: r).filterMap WpThread.msg).Nodup :=
    hwriting.nodup_iff.mpr (h.nodup.sublist (List.filter_sublist.map _))
  have hcons : (WpThread.write id :: r).filterMap WpThread.msg = id :: r.filterMap WpThread.msg := rfl
  rw [List.filterMap_append, hcons, List.nodup_middle, List.nodup_cons,
    ← List.filterMap_append] at hnodup
  intro hdone
  refine hnodup.1 (List.mem_filterMap.mpr ⟨.done id, ?_, rfl⟩)
  simpa using hdone

/-- What the device has refused need not be found. -/
theorem expected_performed {m : WpMsg} {ok : Bool} {junk : List α} {sector : ℕ} {v : α}
    (hv : (s.performed i m ok junk).expected sector = some v) :
    s.expected sector = some v ∧ ∀ w, s.last sector = some (m.seq, w) → ok = true := by
  have hlast : (s.performed i m ok junk).last sector = s.last sector := rfl
  rw [expected, hlast] at hv
  rw [expected]
  cases hsector : s.last sector with
  | none =>
    rw [hsector] at hv
    exact ⟨hv, fun w hw => by cases hw⟩
  | some p =>
    obtain ⟨seq, w⟩ := p
    rw [hsector] at hv
    cases ok with
    | true => exact ⟨hv, fun _ _ => rfl⟩
    | false =>
      dsimp only at hv ⊢
      split_ifs at hv with hseq
      have hseq : seq ∉ s.dropped ++ [m.seq] := hseq
      rw [List.mem_append, List.mem_singleton, not_or] at hseq
      refine ⟨by rw [if_neg hseq.1, hv], fun w hw => ?_⟩
      cases hw
      exact absurd rfl hseq.2

theorem Inv.performed (h : Inv s) {m : WpMsg} (ht : s.threads[i]? = some (.write m.id))
    (hm : m ∈ s.msgs) (ok : Bool) (junk : List α) : Inv (s.performed i m ok junk) := by
  obtain ⟨l, r, hset, hbuffers, hwriting, hcounter, hsignals, hdone, hready⟩ := h.of_thread ht
  have hnot : m.seq ∉ s.reached.map WpMsg.seq := by
    rw [hdone m hm]
    exact h.not_done hwriting
  have hreached : (s.performed i m ok junk).reached.map WpMsg.seq =
      s.reached.map WpMsg.seq ++ [m.seq] := List.map_append
  have hthreads : (s.performed i m ok junk).threads = l ++ .done m.id :: r := hset _
  exact { h with
    buffers := by
      rw [hthreads]
      simpa [WritePipeline.performed, List.filterMap_cons, WpThread.buffer] using hbuffers
    writing := by
      rw [hthreads]
      simpa [WritePipeline.performed, List.filterMap_cons, WpThread.msg] using hwriting
    counter := by
      rw [hthreads]
      simpa [WritePipeline.performed, List.count_cons] using hcounter
    signals := by
      rw [hthreads]
      simpa [WritePipeline.performed, List.count_cons] using hsignals
    seqs := by
      intro seq
      rw [hreached, List.mem_append, List.mem_singleton, or_assoc]
      refine (h.seqs seq).trans (or_congr_right ?_)
      refine (or_iff_right_of_imp ?_).symm
      rintro rfl
      exact List.mem_map_of_mem hm
    settled := by
      intro sector hall v hv
      obtain ⟨hv, hok⟩ := expected_performed hv
      by_cases hk : m.Covers sector
      · have hlast := h.fresh m hm sector hk
        rw [expected, hlast] at hv
        dsimp only at hv
        split_ifs at hv
        cases hv
        change overlay s.dev m.ulStartSector (if ok then slice (s.mem m.pvBuffer) 0 m.ulNSector
          else junk.take m.ulNSector) sector = _
        rw [if_pos (hok _ hlast)]
        rw [WpMsg.Covers] at hk
        apply Option.some.inj
        rw [overlay_eq _ _ _ _ (by rwa [slice_length]), slice_getElem?, if_pos (by omega),
          Nat.zero_add]
      · have hdev : (s.performed i m ok junk).dev sector = s.dev sector := by
          refine overlay_outside _ _ _ _ ?_
          rw [WpMsg.Covers] at hk
          cases ok
          · rw [if_neg Bool.false_ne_true, List.length_take]
            omega
          · rw [if_pos rfl, slice_length]
            omega
        rw [hdev]
        refine h.settled sector (fun x hx hkx => ?_) v hv
        have hseq := hall x hx hkx
        rw [hreached, List.mem_append, List.mem_singleton] at hseq
        refine hseq.resolve_right fun heq => hk ?_
        rwa [← List.inj_on_of_nodup_map h.seq_nodup hx hm heq]
    done := by
      intro x hx
      rw [hreached, hthreads, List.mem_append, List.mem_singleton, hdone x hx]
      have hiff : x.seq = m.seq ↔ x.id = m.id :=
        ⟨fun heq => by rw [List.inj_on_of_nodup_map h.seq_nodup hx hm heq],
          fun heq => by rw [List.inj_on_of_nodup_map h.nodup hx hm heq]⟩
      rw [hiff]
      simp
      tauto
    order := by
      refine List.pairwise_append.mpr ⟨h.order, List.pairwise_singleton _ _, fun a ha b hb => ?_⟩
      rw [List.mem_singleton.mp hb]
      intro sector hka hkm
      refine Nat.lt_of_le_of_ne (h.later m hm a ha sector hka hkm) fun heq => hnot ?_
      rw [← heq]
      exact List.mem_map_of_mem ha
    later := by
      intro x hx a ha sector hka hkx
      rcases List.mem_append.mp ha with ha | ha
      · exact h.later x hx a ha sector hka hkx
      · rw [List.mem_singleton.mp ha] at hka ⊢
        rw [h.eq_of_covers hm hx hka hkx]
    ready := by
      refine WpClient.Ready.keep hready (fun x hx => ⟨x, hx, fun _ hk => hk⟩) id fun _ hleaving => ?_
      rw [hthreads]
      simpa [WritePipeline.performed, WpThread.leaving] using hleaving }

/-- The message at the head of the queue leaves it, or another. -/
theorem Places.head_finished (h : Places s) {ml mr : List WpMsg} {m : WpMsg}
    (hmsgs : s.msgs = ml ++ m :: mr) :
    (if ml ++ mr = [] then none
      else if s.plineHead = some m.id then ml.getLast?.map WpMsg.id
      else s.plineHead) = (ml ++ mr).getLast?.map WpMsg.id := by
  have hnodup := h.nodup
  rw [h.head, hmsgs]
  rw [hmsgs] at hnodup
  rcases List.eq_nil_or_concat mr with rfl | ⟨r, x, rfl⟩
  · rw [List.append_nil, List.getLast?_append, List.getLast?_singleton, Option.some_or,
      Option.map_some, if_pos rfl]
    split_ifs with hnil
    · rw [hnil]
      rfl
    · rfl
  · rw [List.concat_eq_append] at hnodup ⊢
    have hlast : (ml ++ m :: (r ++ [x])).getLast? = some x := by
      rw [← List.cons_append, ← List.append_assoc, List.getLast?_concat]
    have hne : x.id ≠ m.id := by
      rw [List.map_append, List.map_cons] at hnodup
      have hm := (List.nodup_cons.mp (List.nodup_append.mp hnodup).2.1).1
      exact fun heq => hm (heq ▸ List.mem_map_of_mem (by simp))
    rw [hlast, Option.map_some, if_neg (by simp), if_neg fun heq => hne (Option.some.inj heq),
      ← List.append_assoc, List.getLast?_concat]
    rfl

theorem Inv.finished (h : Inv s) {ml mr : List WpMsg} {m : WpMsg}
    (ht : s.threads[i]? = some (.done m.id)) (hmsgs : s.msgs = ml ++ m :: mr) :
    Inv (s.finished i ml m mr) := by
  obtain ⟨l, r, hset, hbuffers, hwriting, hcounter, hsignals, hdone, hready⟩ := h.of_thread ht
  have hnodup := h.nodup
  have hmem : m ∈ s.msgs := by
    rw [hmsgs]
    exact List.mem_append_right _ List.mem_cons_self
  have hreached : m.seq ∈ s.reached.map WpMsg.seq := by
    rw [hdone m hmem]
    exact List.mem_append_right _ List.mem_cons_self
  have hbWriting : m.bWriting = true := by
    have hid : m.id ∈ (s.msgs.filter WpMsg.bWriting).map WpMsg.id :=
      hwriting.subset (List.mem_filterMap.mpr ⟨.done m.id, by simp, rfl⟩)
    obtain ⟨x, hx, heq⟩ := List.mem_map.mp hid
    obtain ⟨hx, hwriting⟩ := List.mem_filter.mp hx
    rwa [← List.inj_on_of_nodup_map hnodup hx hmem heq]
  have hsub : (ml ++ mr).Sublist s.msgs := by
    rw [hmsgs]
    exact List.Sublist.append_left (List.sublist_cons_self m mr) ml
  have hother : ∀ x ∈ s.msgs, x = m ∨ x ∈ ml ++ mr := by
    intro x hx
    rw [hmsgs] at hx
    simp only [List.mem_append, List.mem_cons] at hx ⊢
    tauto
  have hthreads : (s.finished i ml m mr).threads = l ++ .put m.pvBuffer :: r := hset _
  have hnodes := h.nodes
  have hhead := h.head_finished hmsgs
  rw [hmsgs] at hbuffers hwriting hsignals hnodes hnodup
  exact {
    buffers := by
      rw [hthreads]
      refine List.Perm.trans ?_ hbuffers
      simp [WritePipeline.finished, List.perm_iff_count, List.filterMap_cons, WpThread.buffer,
        List.count_cons]
      grind
    nodes := by
      refine List.Perm.trans ?_ hnodes
      simp [WritePipeline.finished, List.perm_iff_count, List.count_cons]
      grind
    head := hhead
    writing := by
      rw [hthreads]
      refine List.perm_iff_count.mpr fun a => ?_
      have ha := hwriting.count_eq a
      simp [WritePipeline.finished, List.filterMap_cons, WpThread.msg, hbWriting,
        List.count_cons] at ha ⊢
      omega
    counter := by
      rw [hthreads]
      simpa [WritePipeline.finished, List.count_cons] using hcounter
    signals := by
      rw [hthreads]
      simpa [WritePipeline.finished, hbWriting, List.count_cons] using hsignals
    apart := h.apart.sublist hsub
    sorted := h.sorted.sublist hsub
    seqs := by
      intro seq
      refine (h.seqs seq).trans ?_
      constructor
      · rintro (hr | hm)
        · exact .inl hr
        · obtain ⟨x, hx, rfl⟩ := List.mem_map.mp hm
          rcases hother x hx with rfl | hx
          · exact .inl hreached
          · exact .inr (List.mem_map_of_mem hx)
      · exact Or.imp_right fun hm => (hsub.map _).subset hm
    fresh := fun x hx => h.fresh x (hsub.subset hx)
    settled := by
      intro sector hall
      refine h.settled sector fun x hx hk => ?_
      rcases hother x hx with rfl | hx
      · exact hreached
      · exact hall x hx hk
    done := by
      intro x hx
      have hne : x.id ≠ m.id := by
        rw [List.map_append, List.map_cons, List.nodup_middle, List.nodup_cons,
          ← List.map_append] at hnodup
        exact fun heq => hnodup.1 (heq ▸ List.mem_map_of_mem hx)
      change x.seq ∈ s.reached.map WpMsg.seq ↔ _
      rw [hthreads, hdone x (hsub.subset hx)]
      simp [hne]
    order := h.order
    later := fun x hx => h.later x (hsub.subset hx)
    got := h.got
    ready := by
      refine WpClient.Ready.keep hready (fun x hx => ⟨x, hsub.subset hx, fun _ hk => hk⟩) id
        fun _ hleaving => ?_
      rw [hthreads]
      simp [WpThread.leaving]
    synced := h.synced }

/-! ## Runs -/

theorem Inv.threadStep (h : Inv s) {e : WpEvent α} {s' : WritePipeline α}
    (hs : s.threadStep i e = some s') : Inv s' := by
  cases e with
  | take =>
    unfold WritePipeline.threadStep at hs
    dsimp only at hs
    split_ifs at hs with hc
    cases hs
    exact h.take hc.1 hc.2
  | pick =>
    unfold WritePipeline.threadStep at hs
    dsimp only at hs
    split_ifs at hs with hc
    split at hs
    · rename_i hnone
      exact absurd hnone (h.pick_ne_none hc.1)
    · rename_i hpick
      cases hs
      exact h.pick hc.1 hpick
  | perform _ ok junk =>
    unfold WritePipeline.threadStep at hs
    dsimp only at hs
    split at hs
    · rename_i id ht
      obtain ⟨m, hfind, rfl⟩ := Option.map_eq_some_iff.mp hs
      have hid : m.id = id := by simpa using List.find?_some hfind
      subst hid
      exact h.performed ht (List.mem_of_find?_eq_some hfind) ok junk
    · cases hs
  | finish =>
    unfold WritePipeline.threadStep at hs
    dsimp only at hs
    split at hs
    · rename_i id ht
      obtain ⟨⟨l, m, r⟩, hcut, rfl⟩ := Option.map_eq_some_iff.mp hs
      obtain ⟨hmsgs, rfl⟩ := cut_eq_some hcut
      exact h.finished ht hmsgs
    · cases hs
  | put =>
    unfold WritePipeline.threadStep at hs
    dsimp only at hs
    split at hs
    · rename_i ht
      cases hs
      exact h.put ht
    · cases hs
  | notify =>
    unfold WritePipeline.threadStep at hs
    dsimp only at hs
    split_ifs at hs with ht
    cases hs
    exact h.notify ht
  | signal =>
    unfold WritePipeline.threadStep at hs
    dsimp only at hs
    split_ifs at hs with ht
    cases hs
    exact h.signal ht
  | _ => cases hs

theorem Inv.proceed (h : Inv s) {call : WpCall} {s' : WritePipeline α} (hc : s.client = .act call)
    (hs : s.proceed call = some s') : Inv s' := by
  cases call with
  | write b st n =>
    unfold WritePipeline.proceed at hs
    dsimp only at hs
    split at hs
    · cases hs
    · rename_i hfree
      split_ifs at hs
      cases hs
      exact h.queue hc hfree
  | read =>
    unfold WritePipeline.proceed at hs
    dsimp only at hs
    split_ifs at hs
    cases hs
    exact h.readDev hc
  | sync =>
    cases hs
    exact h.actSync hc

theorem Inv.step (h : Inv s) {e : WpEvent α} {s' : WritePipeline α} (hs : s.step e = some s') :
    Inv s' := by
  cases e with
  | getBuffer =>
    unfold WritePipeline.step at hs
    dsimp only at hs
    split at hs
    · rename_i hc hp
      split_ifs at hs with hcnt
      cases hs
      exact h.getBuffer hc hp hcnt
    · cases hs
  | write =>
    unfold WritePipeline.step at hs
    dsimp only at hs
    split at hs
    · rename_i hc
      obtain ⟨-, hs⟩ := Option.ite_none_right_eq_some.mp hs
      cases hs
      exact h.write hc
    · cases hs
  | read =>
    unfold WritePipeline.step at hs
    dsimp only at hs
    split at hs
    · rename_i hc
      obtain ⟨-, hs⟩ := Option.ite_none_right_eq_some.mp hs
      cases hs
      exact h.read hc
    · cases hs
  | steal =>
    unfold WritePipeline.step at hs
    dsimp only at hs
    split at hs
    · split_ifs at hs
      cases hs
      exact h.steal _
    · cases hs
  | sync =>
    unfold WritePipeline.step at hs
    dsimp only at hs
    split at hs
    · rename_i hc
      cases hs
      exact h.sync hc
    · cases hs
  | check =>
    unfold WritePipeline.step at hs
    dsimp only at hs
    split at hs
    · rename_i hc
      split_ifs at hs with hcnt
      · cases hs
        exact h.check hc hcnt
      · cases hs
        exact h.block hc hcnt
    · cases hs
  | wake =>
    unfold WritePipeline.step at hs
    dsimp only at hs
    split at hs
    · rename_i hc
      split_ifs at hs
      cases hs
      exact h.wake hc
    · cases hs
  | act =>
    unfold WritePipeline.step at hs
    dsimp only at hs
    split at hs
    · rename_i hc
      exact h.proceed hc hs
    · cases hs
  | post =>
    unfold WritePipeline.step at hs
    dsimp only at hs
    split at hs
    · rename_i hc
      cases hs
      exact h.post hc
    · cases hs
  | take i => exact h.threadStep (show s.threadStep i (.take i) = some s' from hs)
  | pick i => exact h.threadStep (show s.threadStep i (.pick i) = some s' from hs)
  | perform i ok junk =>
    exact h.threadStep (show s.threadStep i (.perform i ok junk) = some s' from hs)
  | finish i => exact h.threadStep (show s.threadStep i (.finish i) = some s' from hs)
  | put i => exact h.threadStep (show s.threadStep i (.put i) = some s' from hs)
  | notify i => exact h.threadStep (show s.threadStep i (.notify i) = some s' from hs)
  | signal i => exact h.threadStep (show s.threadStep i (.signal i) = some s' from hs)

theorem Inv.safe (h : Inv s) : Safe s where
  order := h.order
  got := h.got
  buffers := h.buffers
  nodes := h.nodes
  writing := h.writing
  synced := h.synced
  counter := by
    have hcounter := h.counter
    omega
  room := by
    intro b st n hc
    exact h.room (b := b) (by rw [hc]; rfl)
  signals := by
    rintro ⟨m, hm, hfalse⟩
    have hpos : 0 < s.msgs.countP fun m => !m.bWriting :=
      List.countP_pos_iff.mpr ⟨m, hm, by rw [hfalse]; rfl⟩
    have hsignals := h.signals
    rw [← List.count_pos_iff]
    omega
  waits := by
    intro cnt call hc hsync
    have hready := h.ready
    rw [hc] at hready
    exact hready.2 hsync

/-- In every run of the cache and the threads of its pipeline, writes of one sector reach the device in
order, no read or steal finds anything but the last write that the device has not refused, no buffer or
message is in two places or lost, and a wait ends only after every write before it. -/
theorem writePipeline_safe {s : WritePipeline α}
    (h : Reach WritePipeline.step (fun _ _ => True) Init s) : Safe s :=
  (h.invariant (fun _ => Init.inv) fun _ _ _ hi _ hs => hi.step hs).safe

/-- Two messages, one of which is written by one of two threads while the other is stolen from. -/
theorem writePipeline_safe_two : ∃ s : WritePipeline ℕ,
    s.reached.map WpMsg.seq = [0] ∧ s.got = [(8, some 8)] ∧ s.msgs.length = 2 ∧ Safe s := by
  have hruns : runs WritePipeline.step
      (wpCreate (fun _ _ => 0) (fun _ => 0) true 2 3 : WritePipeline ℕ)
      [.getBuffer, .write 4 [7], .act, .post, .getBuffer, .write 5 [8], .act, .post, .take 0, .pick 0,
        .perform 0 true [], .steal 5] = some _ := rfl
  exact ⟨_, rfl, rfl, rfl, writePipeline_safe ((Reach.start ⟨_, _, _, _, _, rfl⟩).of_runs hruns)⟩

/-- A write that the device refuses in every try is lost, and a read finds what was there before. -/
theorem writePipeline_refused : ∃ s s' : WritePipeline ℕ,
    Reach WritePipeline.step (fun _ _ => True) Init s ∧ s.client = .act (.read 4 1) ∧
    s.last 4 = some (0, 7) ∧ s.step .act = some s' ∧ s'.got.map Prod.fst = [0] := by
  have hruns : runs WritePipeline.step
      (wpCreate (fun _ _ => 0) (fun _ => 0) true 1 2 : WritePipeline ℕ)
      [.getBuffer, .write 4 [7], .act, .post, .take 0, .pick 0, .perform 0 false [], .finish 0,
        .put 0, .notify 0, .signal 0, .read 4 1] = some _ := rfl
  exact ⟨_, _, (Reach.start ⟨_, _, _, _, _, rfl⟩).of_runs hruns, rfl, rfl, rfl, rfl⟩

end WritePipeline

end SylixOS.Disk
