import SylixOS.IoLib.LockSafe
import SylixOS.IoLib.LockTrack
import SylixOS.Lib.Cut
import SylixOS.Lib.WaitsFor
import Mathlib.Data.List.Perm.Basic

/-! # Waiting for a record lock

A request that waits is blocked by one entry, and whatever weakens this entry wakes it. Every node
that was created is in one place, with a semaphore of its own, until it is deleted. Processes of one
thread never wait for each other in a circle.
-/

namespace SylixOS.IoLib
open Lib Lib.RangeTable Relation

/-- The nodes that a request holds, by their semaphores. -/
def Call.nodes (c : Call) : List ℕ := c.lock.ulBlock :: c.spare.toList

namespace FdNode

/-- The recorded waits between processes with a single thread. -/
def Waits (single : ℤ → Prop) (s : FdNode) (p q : ℤ) : Prop :=
  single p ∧ single q ∧ ∃ c ∈ s.calls, ∃ e ∈ s.head, c.blocker = some e.addr ∧ c.lock.pid = p ∧
    e.pid = q

/-- What the waiting for record locks promises. -/
structure Protocol (single : ℤ → Prop) (s : FdNode) : Prop where
  waits : ∀ c ∈ s.calls, c.phase = .waiting → c.posted = false →
    (waiters s.head).count c.lock.addr = 1 ∧
      ∃ e ∈ s.head, c.lock.addr ∈ e.blockHd ∧ Blocks c.lock e
  nodes : ∀ h < s.made, (sems s.head).count h +
    ((s.calls.filter fun c => c.phase ≠ .lost).flatMap Call.nodes).count h + s.freed.count h = 1
  acyclic : Acyclic (s.Waits single)
  badf : s.gone = true → ∀ i s' res, s.again i = some (s', res) → res = .error .badf

/-- A section wakes the requests that wait for an entry, unless the list still holds what this entry
held, or the thread of the request is deleted. -/
def Wakes (s : FdNode) (op : Op) (s' : FdNode) : Prop :=
  ∀ c ∈ s.calls, ∀ e ∈ s.head, c.lock.addr ∈ e.blockHd →
    (∃ i, op = .kill i ∧ s.calls[i]? = some c) ∨
      ∃ c' ∈ s'.calls, c'.lock.addr = c.lock.addr ∧
        (c'.posted = true ∨ ∃ e' ∈ s'.head, c.lock.addr ∈ e'.blockHd ∧ Still e e')

/-- Everything that is held, with the nodes that the running section has in its hands. -/
structure Good (single : ℤ → Prop) (hand : List ℕ) (s : FdNode) : Prop where
  count : ∀ h, (sems s.head).count h + (s.calls.flatMap Call.nodes).count h + s.freed.count h +
    hand.count h = if h < s.made then 1 else 0
  known : ∀ c ∈ s.calls, c.phase ≠ .lost ∧ c.phase ≠ .resumed true
  addr : ∀ e ∈ s.head, e.addr = e.ulBlock
  lock : ∀ c ∈ s.calls, c.lock.addr = c.lock.ulBlock ∧ c.lock.blockHd = []
  once : ∀ a, (waiters s.head).count a ≤ 1
  held : ∀ e ∈ s.head, ∀ a ∈ e.blockHd, ∃ c ∈ s.calls, c.lock.addr = a ∧ c.blocker = some e.addr
  blocked : ∀ c ∈ s.calls, ∀ b, c.blocker = some b → c.phase = .waiting ∧ c.posted = false ∧
    ∃ e ∈ s.head, e.addr = b ∧ c.lock.addr ∈ e.blockHd ∧ Blocks c.lock e
  woken : ∀ c ∈ s.calls, c.blocker = none → c.phase = .waiting → c.posted = true
  queue : ∀ c ∈ s.calls, c.blocker.isSome → c.lock.addr ∈ s.blockQ
  alone : ∀ p, single p → (s.calls.filter fun c => c.lock.pid = p).length ≤ 1
  closed : s.gone = true → s.head = []
  acyclic : Acyclic (s.Waits single)

variable {single : ℤ → Prop} {hand hand' : List ℕ} {s s' : FdNode} {c d : Call} {e f : FdLockf}
  {w : Walk} {a addr i : ℕ} {lock blk : FdLockf} {spare : Option ℕ} {op : Op} {res : Res} {p : ℤ}

section settle

variable (w addr c)

@[simp] theorem settle_lock : (c.settle w addr).lock = c.lock := by
  unfold Call.settle
  split_ifs <;> rfl

@[simp] theorem settle_spare : (c.settle w addr).spare = c.spare := by
  unfold Call.settle
  split_ifs <;> rfl

@[simp] theorem settle_phase : (c.settle w addr).phase = c.phase := by
  unfold Call.settle
  split_ifs <;> rfl

end settle

namespace Good

/-- Two requests have different nodes. -/
theorem call_eq (h : Good single hand s) (hc : c ∈ s.calls) (hd : d ∈ s.calls)
    (heq : c.lock.addr = d.lock.addr) : c = d := by
  have hle (x : ℕ) : (s.calls.flatMap Call.nodes).count x ≤ 1 := by
    have := h.count x
    split_ifs at this <;> omega
  rw [(h.lock c hc).1, (h.lock d hd).1] at heq
  obtain ⟨l, r, hl⟩ := List.append_of_mem hc
  have hone := hle c.lock.ulBlock
  rw [hl] at hone hd
  simp only [List.flatMap_append, List.flatMap_cons, List.count_append, Call.nodes,
    List.count_cons_self] at hone
  have hin (cs : List Call) (hmem : d ∈ cs) : 0 < (cs.flatMap Call.nodes).count c.lock.ulBlock :=
    List.count_pos_iff.mpr (List.mem_flatMap.mpr ⟨d, hmem, by simp [Call.nodes, heq]⟩)
  rcases List.mem_append.mp hd with hd | hd
  · have := hin l hd
    omega
  · rcases List.mem_cons.mp hd with rfl | hd
    · rfl
    · have := hin r hd
      omega

/-- The entry that a waiter waits for. -/
theorem entry_of_waiter (h : Good single hand s) (hc : c ∈ s.calls) (he : e ∈ s.head)
    (hae : c.lock.addr ∈ e.blockHd) : c.blocker = some e.addr ∧ Blocks c.lock e := by
  obtain ⟨d, hd, haddr, hb⟩ := h.held e he _ hae
  cases h.call_eq hd hc haddr
  obtain ⟨-, -, f, hf, -, haf, hblocks⟩ := h.blocked c hc _ hb
  cases eq_of_waiter (h.once _) hf he haf hae
  exact ⟨hb, hblocks⟩

/-- A waiter that the walk leaves alone waits for the same entry, one that it moves waits for the
node at the address, and both still wait for what they waited for. -/
theorem settled (h : Good single hand s) (hw : Settles addr s.head w)
    (he : e ∈ s.head) (hae : c.lock.addr ∈ e.blockHd) :
    c.lock.addr ∈ w.woken ∨ (c.lock.addr ∉ w.woken ∧ ∃ e' ∈ w.list, c.lock.addr ∈ e'.blockHd ∧
      Still e e' ∧ e'.addr = if c.lock.addr ∈ w.moved then addr else e.addr) := by
  by_cases hwoken : c.lock.addr ∈ w.woken
  · exact .inl hwoken
  · refine .inr ⟨hwoken, ?_⟩
    have hcount := hw.waiters c.lock.addr
    rw [List.count_eq_zero_of_not_mem hwoken, Nat.add_zero] at hcount
    have hpos : 0 < (waiters w.list).count c.lock.addr := by
      rw [hcount]
      exact List.count_pos_iff.mpr (mem_waiters.mpr ⟨e, he, hae⟩)
    obtain ⟨e', he', hae'⟩ := mem_waiters.mp (List.count_pos_iff.mp hpos)
    obtain ⟨f, hf, haf, hs, haddr⟩ := hw.kept e' he' _ hae'
    cases eq_of_waiter (h.once _) hf he haf hae
    exact ⟨e', he', hae', hs, haddr⟩

/-- A waiter that is still on a list was not woken. -/
theorem not_woken (h : Good single hand s) (hw : Settles addr s.head w) (he : e ∈ w.list)
    (ha : a ∈ e.blockHd) : a ∉ w.woken := by
  intro hwoken
  have hpos : 0 < (waiters w.list).count a := List.count_pos_iff.mpr (mem_waiters.mpr ⟨e, he, ha⟩)
  have hpos' : 0 < w.woken.count a := List.count_pos_iff.mpr hwoken
  have := hw.waiters a
  have := h.once a
  omega

/-- What a settled request waits for. -/
theorem settle_blocker (h : Good single hand s) (hw : Settles addr s.head w) (hc : c ∈ s.calls) {b : ℕ}
    (hb : (c.settle w addr).blocker = some b) :
    (c.settle w addr).posted = c.posted ∧ ∃ e ∈ s.head, c.blocker = some e.addr ∧ Blocks c.lock e ∧
      ∃ e' ∈ w.list, c.lock.addr ∈ e'.blockHd ∧ Still e e' ∧ e'.addr = b := by
  have hwoken : c.lock.addr ∉ w.woken := fun hwoken => by
    rw [Call.settle, if_pos hwoken] at hb
    cases hb
  rw [Call.settle, if_neg hwoken] at hb ⊢
  by_cases hmoved : c.lock.addr ∈ w.moved
  · rw [if_pos hmoved] at hb ⊢
    obtain ⟨e', he', hae'⟩ := hw.moved _ hmoved
    obtain ⟨e, he, hae, hs, haddr⟩ := hw.kept e' he' _ hae'
    obtain ⟨hblk, hblocks⟩ := h.entry_of_waiter hc he hae
    rw [if_pos hmoved] at haddr
    exact ⟨rfl, e, he, hblk, hblocks, e', he', hae', hs, haddr.trans (Option.some.inj hb)⟩
  · rw [if_neg hmoved] at hb ⊢
    obtain ⟨-, -, e, he, rfl, hae, hblocks⟩ := h.blocked c hc b hb
    obtain ⟨-, e', he', hae', hs, haddr⟩ := (h.settled hw he hae).resolve_left hwoken
    rw [if_neg hmoved] at haddr
    exact ⟨rfl, e, he, hb, hblocks, e', he', hae', hs, haddr⟩

/-- The walk of a request keeps everything, with the nodes in its hands accounted for. -/
theorem settle (h : Good single hand s) (hw : Settles addr s.head w)
    (hcount : ∀ x, (sems w.list).count x + w.freed.count x + hand'.count x =
      (sems s.head).count x + hand.count x)
    (haddr : ∀ e ∈ w.list, e.addr = e.ulBlock) (hopen : s.gone = false)
    (hranged : ∀ e ∈ s.head, Ranged e) (hlocks : ∀ c ∈ s.calls, Ranged c.lock) :
    Good single hand' (s.settle addr w) := by
  have hnodes : (s.calls.map (Call.settle w addr)).flatMap Call.nodes =
      s.calls.flatMap Call.nodes := by
    simp only [List.flatMap_map, Call.nodes, settle_lock, settle_spare]
    rfl
  refine ⟨fun x => ?_, ?_, haddr, ?_, fun x => ?_, ?_, ?_, ?_, ?_, fun p hp => ?_, ?_, ?_⟩
  · have hold := h.count x
    have hnew := hcount x
    change (sems w.list).count x + ((s.calls.map (Call.settle w addr)).flatMap Call.nodes).count x +
      (s.freed ++ w.freed).count x + hand'.count x = if x < s.made then 1 else 0
    rw [hnodes, List.count_append]
    omega
  · intro c' hc'
    obtain ⟨c, hc, rfl⟩ := List.mem_map.mp hc'
    simpa using h.known c hc
  · intro c' hc'
    obtain ⟨c, hc, rfl⟩ := List.mem_map.mp hc'
    simpa using h.lock c hc
  · have := hw.waiters x
    have := h.once x
    change (waiters w.list).count x ≤ 1
    omega
  · intro e' he' a ha
    obtain ⟨e, he, hae, -, hea⟩ := hw.kept e' he' a ha
    obtain ⟨c, hc, rfl, hb⟩ := h.held e he a hae
    refine ⟨c.settle w addr, List.mem_map_of_mem hc, by simp, ?_⟩
    rw [Call.settle, if_neg (h.not_woken hw he' ha)]
    by_cases hmoved : c.lock.addr ∈ w.moved
    · rw [if_pos hmoved, hea, if_pos hmoved]
    · rw [if_neg hmoved, hea, if_neg hmoved]
      exact hb
  · intro c' hc' b hb
    obtain ⟨c, hc, rfl⟩ := List.mem_map.mp hc'
    obtain ⟨hposted, e, he, hblk, hblocks, e', he', hae', hs, hb'⟩ := h.settle_blocker hw hc hb
    obtain ⟨hph, hp, -⟩ := h.blocked c hc _ hblk
    rw [settle_phase, settle_lock]
    exact ⟨hph, hposted.trans hp, e', he', hb', hae',
      hblocks.still (hlocks c hc) (hranged e he) hs⟩
  · intro c' hc' hb hph
    obtain ⟨c, hc, rfl⟩ := List.mem_map.mp hc'
    rw [settle_phase] at hph
    by_cases hwoken : c.lock.addr ∈ w.woken
    · rw [Call.settle, if_pos hwoken]
    · by_cases hmoved : c.lock.addr ∈ w.moved
      · rw [Call.settle, if_neg hwoken, if_pos hmoved] at hb
        cases hb
      · rw [Call.settle, if_neg hwoken, if_neg hmoved] at hb ⊢
        exact h.woken c hc hb hph
  · intro c' hc' hb
    obtain ⟨c, hc, rfl⟩ := List.mem_map.mp hc'
    rw [settle_lock]
    by_cases hwoken : c.lock.addr ∈ w.woken
    · rw [Call.settle, if_pos hwoken] at hb
      cases hb
    · by_cases hmoved : c.lock.addr ∈ w.moved
      · exact List.mem_append_right _ hmoved
      · rw [Call.settle, if_neg hwoken, if_neg hmoved] at hb
        exact List.mem_append_left _ (List.mem_filter.mpr
          ⟨h.queue c hc hb, by simp [hwoken, hmoved]⟩)
  · have hfilter : ((s.calls.map (Call.settle w addr)).filter fun c => c.lock.pid = p).length =
        (s.calls.filter fun c => c.lock.pid = p).length := by
      rw [List.filter_map, List.length_map]
      simp only [Function.comp_def, settle_lock]
    exact hfilter.trans_le (h.alone p hp)
  · intro hgone
    exact absurd (hopen.symm.trans hgone) (by simp)
  · refine h.acyclic.mono fun p q ⟨hp, hq, c', hc', f, hf, hb, hcp, hep⟩ => ?_
    obtain ⟨c, hc, rfl⟩ := List.mem_map.mp hc'
    obtain ⟨-, e, he, hblk, -, e', he', -, hs, hea⟩ := h.settle_blocker hw hc hb
    have hone : (sems w.list).count e'.ulBlock ≤ 1 := by
      have hold := h.count e'.ulBlock
      have hnew := hcount e'.ulBlock
      split_ifs at hold <;> omega
    have hsame : e' = f := eq_of_ulBlock hone he' hf
      ((haddr e' he').symm.trans (hea.trans (haddr f hf)))
    subst hsame
    refine ⟨hp, hq, c, hc, e, he, hblk, by simpa using hcp, hs.1.symm.trans hep⟩

/-- No semaphore is in two places. -/
theorem count_le (h : Good single hand s) (x : ℕ) : (sems s.head).count x +
    (s.calls.flatMap Call.nodes).count x + s.freed.count x + hand.count x ≤ 1 := by
  have := h.count x
  split_ifs at this <;> omega

/-- A request that does not wait yet is on no list. -/
theorem not_waiter (h : Good single (lock.ulBlock :: hand) s) (haddr : lock.addr = lock.ulBlock)
    (he : e ∈ s.head) : lock.addr ∉ e.blockHd := by
  intro hmem
  obtain ⟨c, hc, hca, -⟩ := h.held e he _ hmem
  have hin : 0 < (s.calls.flatMap Call.nodes).count lock.ulBlock := by
    refine List.count_pos_iff.mpr (List.mem_flatMap.mpr ⟨c, hc, ?_⟩)
    rw [Call.nodes, ← (h.lock c hc).1, hca, haddr]
    exact List.mem_cons_self
  have := h.count_le lock.ulBlock
  rw [List.count_cons_self] at this
  omega

/-- The request starts to wait for an entry that blocks it. -/
theorem block (h : Good single (lock.ulBlock :: spare.toList) s) (hblk : blk ∈ s.head)
    (hb : Blocks lock blk) (haddr : lock.addr = lock.ulBlock) (hhd : lock.blockHd = [])
    (halone : single lock.pid → ∀ c ∈ s.calls, c.lock.pid ≠ lock.pid)
    (hback : ¬ TransGen (s.Waits single) blk.pid lock.pid) :
    Good single [] (s.block lock blk spare) := by
  let g : FdLockf → FdLockf := fun e => { e with blockHd := e.blockHd ++ [lock.addr] }
  let new : Call := ⟨lock, spare, some blk.addr, false, .waiting⟩
  obtain ⟨pre, post, hhead, hmap⟩ :=
    map_addr (fun x => by have := h.count_le x; omega) h.addr hblk g
  have hhead' : (s.block lock blk spare).head = pre ++ g blk :: post := hmap
  have hcalls' : (s.block lock blk spare).calls = s.calls ++ [new] := rfl
  have hsems : sems (s.block lock blk spare).head = sems s.head := by
    rw [hhead', hhead, sems_append, sems_append, sems_cons, sems_cons]
  -- Every entry is still there, with at most one more waiter.
  have hold (e : FdLockf) (he : e ∈ s.head) : ∃ e' ∈ (s.block lock blk spare).head, e'.addr = e.addr ∧
      e'.pid = e.pid ∧ (∀ a ∈ e.blockHd, a ∈ e'.blockHd) ∧ ∀ c, Blocks c e → Blocks c e' := by
    rw [hhead] at he
    rw [hhead']
    rcases List.mem_append.mp he with he | he
    · exact ⟨e, List.mem_append_left _ he, rfl, rfl, fun _ h => h, fun _ h => h⟩
    · rcases List.mem_cons.mp he with rfl | he
      · exact ⟨g e, by simp, rfl, rfl, fun _ h => List.mem_append_left _ h, fun _ h => h⟩
      · exact ⟨e, by simp [he], rfl, rfl, fun _ h => h, fun _ h => h⟩
  have hnew (e' : FdLockf) (he' : e' ∈ (s.block lock blk spare).head) : ∃ e ∈ s.head,
      e'.addr = e.addr ∧ e'.pid = e.pid ∧ e'.ulBlock = e.ulBlock ∧
        ∀ a ∈ e'.blockHd, a ∈ e.blockHd ∨ (a = lock.addr ∧ e = blk) := by
    rw [hhead'] at he'
    rw [hhead]
    rcases List.mem_append.mp he' with he | he
    · exact ⟨e', List.mem_append_left _ he, rfl, rfl, rfl, fun _ h => .inl h⟩
    · rcases List.mem_cons.mp he with rfl | he
      · exact ⟨blk, by simp, rfl, rfl, rfl, fun a ha => by simpa [g] using ha⟩
      · exact ⟨e', by simp [he], rfl, rfl, rfl, fun _ h => .inl h⟩
  refine ⟨fun x => ?_, fun c hc => ?_, fun e' he' => ?_, fun c hc => ?_, fun x => ?_,
    fun e' he' a ha => ?_, fun c hc b hcb => ?_, fun c hc hcb hph => ?_, fun c hc hcb => ?_,
    fun p hp => ?_, fun hgone => ?_, ?_⟩
  · have := h.count x
    rw [hsems, hcalls', List.flatMap_append, List.count_append]
    change _ + (_ + ([new].flatMap Call.nodes).count x) + s.freed.count x + 0 = _
    have hnodes : [new].flatMap Call.nodes = lock.ulBlock :: spare.toList := by simp [Call.nodes, new]
    rw [hnodes]
    exact (by omega : _ = _).trans this
  · rcases List.mem_append.mp hc with hc | hc
    · exact h.known c hc
    · cases List.mem_singleton.mp hc
      exact ⟨by simp, by simp⟩
  · obtain ⟨e, he, hea, -, heu, -⟩ := hnew e' he'
    rw [hea, heu]
    exact h.addr e he
  · rcases List.mem_append.mp hc with hc | hc
    · exact h.lock c hc
    · cases List.mem_singleton.mp hc
      exact ⟨haddr, hhd⟩
  · have hwaiters : (waiters (s.block lock blk spare).head).count x =
        (waiters s.head).count x + [lock.addr].count x := by
      rw [hhead', hhead]
      simp only [waiters_append, waiters_cons, List.count_append, g]
      omega
    rw [hwaiters]
    by_cases hx : x = lock.addr
    · subst hx
      have hzero : (waiters s.head).count lock.addr = 0 := by
        refine List.count_eq_zero_of_not_mem fun hmem => ?_
        obtain ⟨e, he, hae⟩ := mem_waiters.mp hmem
        exact h.not_waiter haddr he hae
      rw [hzero, List.count_singleton_self]
    · rw [List.count_singleton, if_neg (by simpa using Ne.symm hx)]
      exact h.once x
  · obtain ⟨e, he, hea, -, -, hblockHd⟩ := hnew e' he'
    rcases hblockHd a ha with hae | ⟨rfl, rfl⟩
    · obtain ⟨c, hc, hca, hcb⟩ := h.held e he a hae
      exact ⟨c, List.mem_append_left _ hc, hca, hea ▸ hcb⟩
    · exact ⟨new, by rw [hcalls']; simp, rfl, hea ▸ rfl⟩
  · rcases List.mem_append.mp hc with hc | hc
    · obtain ⟨hph, hposted, e, he, hea, hae, hblocks⟩ := h.blocked c hc b hcb
      obtain ⟨e', he', hea', -, hmem, hbl⟩ := hold e he
      exact ⟨hph, hposted, e', he', hea'.trans hea, hmem _ hae, hbl _ hblocks⟩
    · cases List.mem_singleton.mp hc
      cases hcb
      exact ⟨rfl, rfl, g blk, by rw [hhead']; simp, rfl, by simp [g], hb⟩
  · rcases List.mem_append.mp hc with hc | hc
    · exact h.woken c hc hcb hph
    · cases List.mem_singleton.mp hc
      cases hcb
  · rcases List.mem_append.mp hc with hc | hc
    · exact List.mem_append_left _ (h.queue c hc hcb)
    · cases List.mem_singleton.mp hc
      exact List.mem_append_right _ List.mem_cons_self
  · rw [hcalls', List.filter_append, List.length_append]
    have hle := h.alone p hp
    by_cases hpid : lock.pid = p
    · have hnone : s.calls.filter (fun c => c.lock.pid = p) = [] :=
        List.filter_eq_nil_iff.mpr fun c hc => by
          simpa [hpid] using halone (hpid ▸ hp) c hc
      rw [hnone, List.length_nil, Nat.zero_add]
      exact List.length_filter_le _ [new]
    · have hnone : [new].filter (fun c => c.lock.pid = p) = [] := by simp [new, hpid]
      rw [hnone]
      exact hle
  · have hempty := h.closed hgone
    rw [hempty] at hblk
    cases hblk
  · refine h.acyclic.insert hb.1.symm hback fun x y ⟨hx, hy, c, hc, e', he', hcb, hcx, hey⟩ => ?_
    obtain ⟨e, he, hea, hep, -, -⟩ := hnew e' he'
    rcases List.mem_append.mp hc with hc | hc
    · exact .inl ⟨hx, hy, c, hc, e, he, hea ▸ hcb, hcx, hep.symm.trans hey⟩
    · cases List.mem_singleton.mp hc
      have heq : e = blk := eq_of_ulBlock (by have := h.count_le e.ulBlock; omega) he hblk (by
        rw [← h.addr e he, ← h.addr blk hblk, ← hea]
        exact (Option.some.inj hcb).symm)
      exact .inr ⟨hcx.symm, by rw [← hey, hep, heq]⟩

/-- Nodes in hand are deleted. -/
theorem drop (h : Good single hand s) : Good single [] (s.drop hand) where
  count x := by
    have hold := h.count x
    change (sems s.head).count x + (s.calls.flatMap Call.nodes).count x +
      (s.freed ++ hand).count x + 0 = if x < s.made then 1 else 0
    rw [List.count_append]
    omega
  known := h.known
  addr := h.addr
  lock := h.lock
  once := h.once
  held := h.held
  blocked := h.blocked
  woken := h.woken
  queue := h.queue
  alone := h.alone
  closed := h.closed
  acyclic := h.acyclic

theorem record {r : Option LockType} (h : Good single hand s) : Good single hand (s.record lock r) :=
  ⟨h.count, h.known, h.addr, h.lock, h.once, h.held, h.blocked, h.woken, h.queue, h.alone, h.closed,
    h.acyclic⟩

/-- New nodes come into the hands of the section. -/
theorem make {n : ℕ} (h : Good single [] s)
    (hhand : ∀ x, hand.count x = if s.made ≤ x ∧ x < n then 1 else 0) (hn : s.made ≤ n) :
    Good single hand { s with made := n } where
  count x := by
    have hold := h.count x
    have hnew := hhand x
    rw [List.count_nil] at hold
    change (sems s.head).count x + (s.calls.flatMap Call.nodes).count x + s.freed.count x +
      hand.count x = if x < n then 1 else 0
    split_ifs at hold hnew ⊢ <;> omega
  known := h.known
  addr := h.addr
  lock := h.lock
  once := h.once
  held := h.held
  blocked := h.blocked
  woken := h.woken
  queue := h.queue
  alone := h.alone
  closed := h.closed
  acyclic := h.acyclic

/-- The nodes of a request that is taken out. -/
theorem count_erase (h : Good single [] s) (hc : s.calls[i]? = some c) (x : ℕ) :
    (sems s.head).count x + ((s.calls.eraseIdx i).flatMap Call.nodes).count x + s.freed.count x +
      c.nodes.count x = if x < s.made then 1 else 0 := by
  obtain ⟨hi, rfl⟩ := List.getElem?_eq_some_iff.mp hc
  have hold := h.count x
  have hperm : (s.calls[i] :: s.calls.eraseIdx i).Perm s.calls := List.getElem_cons_eraseIdx_perm hi
  have hcount := (hperm.flatMap_right Call.nodes).count_eq x
  rw [List.flatMap_cons, List.count_append] at hcount
  rw [List.count_nil] at hold
  omega

theorem addr_ne_of_erase (h : Good single [] s) (hc : s.calls[i]? = some c)
    (hd : d ∈ s.calls.eraseIdx i) : d.lock.addr ≠ c.lock.addr := by
  intro heq
  have hone := h.count_erase hc c.lock.ulBlock
  have hin : 0 < ((s.calls.eraseIdx i).flatMap Call.nodes).count c.lock.ulBlock := by
    refine List.count_pos_iff.mpr (List.mem_flatMap.mpr ⟨d, hd, ?_⟩)
    rw [← (h.lock c (List.mem_of_getElem? hc)).1, ← heq,
      (h.lock d (List.mem_of_mem_eraseIdx hd)).1]
    exact List.mem_cons_self
  rw [Call.nodes, List.count_cons_self] at hone
  split_ifs at hone
  omega

theorem mem_erase_of_ne (hc : s.calls[i]? = some c) (hd : d ∈ s.calls) (hne : d ≠ c) :
    d ∈ s.calls.eraseIdx i := by
  obtain ⟨hi, rfl⟩ := List.getElem?_eq_some_iff.mp hc
  have hperm : (s.calls[i] :: s.calls.eraseIdx i).Perm s.calls := List.getElem_cons_eraseIdx_perm hi
  exact (List.mem_cons.mp (hperm.mem_iff.mpr hd)).resolve_left hne

/-- A request that nothing blocks is taken out of those that have not returned. -/
theorem take (h : Good single [] s) (hc : s.calls[i]? = some c) (hb : c.blocker = none) :
    Good single c.nodes { s with calls := s.calls.eraseIdx i } := by
  have hmem (d : Call) (hd : d ∈ s.calls.eraseIdx i) : d ∈ s.calls := List.mem_of_mem_eraseIdx hd
  refine ⟨h.count_erase hc, fun d hd => h.known d (hmem d hd), h.addr, fun d hd => h.lock d (hmem d hd),
    h.once, fun e he a ha => ?_, fun d hd => h.blocked d (hmem d hd),
    fun d hd => h.woken d (hmem d hd), fun d hd => h.queue d (hmem d hd), fun p hp => ?_, h.closed, ?_⟩
  · obtain ⟨d, hd, hda, hdb⟩ := h.held e he a ha
    refine ⟨d, mem_erase_of_ne hc hd fun heq => ?_, hda, hdb⟩
    rw [heq, hb] at hdb
    cases hdb
  · exact (List.Sublist.length_le ((List.eraseIdx_sublist _ _).filter _)).trans (h.alone p hp)
  · exact h.acyclic.mono fun p q ⟨hp, hq, d, hd, hw⟩ => ⟨hp, hq, d, hmem d hd, hw⟩

/-- A request is taken off the list of the entry that blocks it. -/
theorem cancel {b : ℕ} (h : Good single [] s) (hc : s.calls[i]? = some c) (hb : c.blocker = some b) :
    Good single c.nodes (({ s with calls := s.calls.eraseIdx i } : FdNode).unblock c.lock.addr b) := by
  have hcmem := List.mem_of_getElem? hc
  have hmem (d : Call) (hd : d ∈ s.calls.eraseIdx i) : d ∈ s.calls := List.mem_of_mem_eraseIdx hd
  obtain ⟨-, -, blk, hblk, rfl, hcblk, -⟩ := h.blocked c hcmem b hb
  let g : FdLockf → FdLockf := fun e => { e with blockHd := e.blockHd.filter (· ≠ c.lock.addr) }
  generalize hs' : (({ s with calls := s.calls.eraseIdx i } : FdNode).unblock c.lock.addr blk.addr) = s'
  obtain ⟨pre, post, hhead, hmap⟩ :=
    map_addr (fun x => by have := h.count_le x; omega) h.addr hblk g
  have hhead' : s'.head = pre ++ g blk :: post := hs' ▸ hmap
  have hcalls' : s'.calls = s.calls.eraseIdx i := by rw [← hs']; rfl
  have hsems : sems s'.head = sems s.head := by
    rw [hhead', hhead, sems_append, sems_append, sems_cons, sems_cons]
  -- Every entry is still there, without this waiter.
  have hold (e : FdLockf) (he : e ∈ s.head) : ∃ e' ∈ s'.head, e'.addr = e.addr ∧
      (∀ a ∈ e.blockHd, a ≠ c.lock.addr → a ∈ e'.blockHd) ∧ ∀ d, Blocks d e → Blocks d e' := by
    rw [hhead] at he
    rw [hhead']
    rcases List.mem_append.mp he with he | he
    · exact ⟨e, List.mem_append_left _ he, rfl, fun _ h _ => h, fun _ h => h⟩
    · rcases List.mem_cons.mp he with rfl | he
      · refine ⟨g e, by simp, rfl, fun a ha hne => ?_, fun _ h => h⟩
        exact List.mem_filter.mpr ⟨ha, by simpa using hne⟩
      · exact ⟨e, by simp [he], rfl, fun _ h _ => h, fun _ h => h⟩
  have hother (e : FdLockf) (he : e ∈ pre ++ post) : c.lock.addr ∉ e.blockHd := by
    intro hmem
    have hone := h.once c.lock.addr
    have hblkpos : 0 < blk.blockHd.count c.lock.addr := List.count_pos_iff.mpr hcblk
    have hin : 0 < (waiters (pre ++ post)).count c.lock.addr :=
      List.count_pos_iff.mpr (mem_waiters.mpr ⟨e, he, hmem⟩)
    rw [hhead] at hone
    simp only [waiters_append, waiters_cons, List.count_append] at hone hin
    omega
  have hnew (e' : FdLockf) (he' : e' ∈ s'.head) : ∃ e ∈ s.head,
      e'.addr = e.addr ∧ e'.pid = e.pid ∧ e'.ulBlock = e.ulBlock ∧
        ∀ a ∈ e'.blockHd, a ∈ e.blockHd ∧ a ≠ c.lock.addr := by
    rw [hhead'] at he'
    rw [hhead]
    have hkept (e : FdLockf) (he : e ∈ pre ++ post) : ∃ e₀ ∈ pre ++ blk :: post,
        e.addr = e₀.addr ∧ e.pid = e₀.pid ∧ e.ulBlock = e₀.ulBlock ∧
          ∀ a ∈ e.blockHd, a ∈ e₀.blockHd ∧ a ≠ c.lock.addr := by
      refine ⟨e, ?_, rfl, rfl, rfl, fun a ha => ⟨ha, fun heq => hother e he (heq ▸ ha)⟩⟩
      rcases List.mem_append.mp he with he | he
      · exact List.mem_append_left _ he
      · exact List.mem_append_right _ (List.mem_cons_of_mem _ he)
    rcases List.mem_append.mp he' with he | he
    · exact hkept e' (List.mem_append_left _ he)
    · rcases List.mem_cons.mp he with rfl | he
      · exact ⟨blk, by simp, rfl, rfl, rfl, fun a ha => by simpa [g] using ha⟩
      · exact hkept e' (List.mem_append_right _ he)
  refine ⟨fun x => ?_, ?_, fun e' he' => ?_, ?_, fun x => ?_, fun e' he' a ha => ?_, ?_, ?_, ?_,
    fun p hp => ?_, fun hgone => ?_, ?_⟩
  · have hcount := h.count_erase hc x
    rw [hsems, hcalls', ← hs']
    exact hcount
  · rw [hcalls']
    exact fun d hd => h.known d (hmem d hd)
  · obtain ⟨e, he, hea, -, heu, -⟩ := hnew e' he'
    rw [hea, heu]
    exact h.addr e he
  · rw [hcalls']
    exact fun d hd => h.lock d (hmem d hd)
  · have hone := h.once x
    have hle : (blk.blockHd.filter (· ≠ c.lock.addr)).count x ≤ blk.blockHd.count x :=
      List.filter_sublist.count_le x
    rw [hhead] at hone
    rw [hhead']
    simp only [waiters_append, waiters_cons, List.count_append] at hone ⊢
    change (waiters pre).count x + ((blk.blockHd.filter (· ≠ c.lock.addr)).count x +
      (waiters post).count x) ≤ 1
    omega
  · obtain ⟨e, he, hea, -, -, hblockHd⟩ := hnew e' he'
    obtain ⟨hae, hne⟩ := hblockHd a ha
    obtain ⟨d, hd, hda, hdb⟩ := h.held e he a hae
    refine ⟨d, ?_, hda, hea ▸ hdb⟩
    rw [hcalls']
    exact mem_erase_of_ne hc hd fun heq => hne (by rw [← hda, heq])
  · intro d hd b hdb
    rw [hcalls'] at hd
    obtain ⟨hph, hposted, e, he, hea, hae, hblocks⟩ := h.blocked d (hmem d hd) b hdb
    obtain ⟨e', he', hea', hin, hbl⟩ := hold e he
    exact ⟨hph, hposted, e', he', hea'.trans hea, hin _ hae (h.addr_ne_of_erase hc hd), hbl _ hblocks⟩
  · rw [hcalls']
    exact fun d hd => h.woken d (hmem d hd)
  · intro d hd hdb
    rw [hcalls'] at hd
    have hq := h.queue d (hmem d hd) hdb
    rw [← hs']
    exact List.mem_filter.mpr ⟨hq, by simpa using h.addr_ne_of_erase hc hd⟩
  · rw [hcalls']
    exact (List.Sublist.length_le ((List.eraseIdx_sublist _ _).filter _)).trans (h.alone p hp)
  · rw [← hs'] at hgone
    have hempty := h.closed hgone
    rw [hempty] at hblk
    cases hblk
  · refine h.acyclic.mono fun p q ⟨hp, hq, d, hd, e', he', hdb, hdp, hep⟩ => ?_
    rw [hcalls'] at hd
    obtain ⟨e, he, hea, hpid, -, -⟩ := hnew e' he'
    exact ⟨hp, hq, d, hmem d hd, e, he, hea ▸ hdb, hdp, hpid.symm.trans hep⟩

/-- The pend of a request that was posted returns. -/
theorem awake (h : Good single [] s) (hc : s.calls[i]? = some c) (hb : c.blocker = none) :
    Good single [] { s with calls := s.calls.set i { c with posted := false, phase := .resumed false } } := by
  obtain ⟨l, r, hl, hset⟩ := exists_set hc
  have hcmem := List.mem_of_getElem? hc
  generalize hc' : ({ c with posted := false, phase := .resumed false } : Call) = c'
  have hlock : c'.lock = c.lock := by rw [← hc']
  have hnodes : c'.nodes = c.nodes := by rw [← hc']; rfl
  have hnone : c'.blocker = none := by rw [← hc']; exact hb
  rw [hset c']
  have hcases (d : Call) (hd : d ∈ l ++ c' :: r) : d = c' ∨ d ∈ s.calls := by
    rw [hl]
    simp only [List.mem_append, List.mem_cons] at hd ⊢
    tauto
  refine ⟨fun x => ?_, fun d hd => ?_, h.addr, fun d hd => ?_, h.once, fun e he a ha => ?_,
    fun d hd b hdb => ?_, fun d hd hdb hph => ?_, fun d hd hdb => ?_, fun p hp => ?_, h.closed, ?_⟩
  · have hold := h.count x
    rw [hl] at hold
    simp only [List.flatMap_append, List.flatMap_cons, hnodes] at hold ⊢
    exact hold
  · rcases hcases d hd with rfl | hd
    · rw [← hc']
      exact ⟨by simp, by simp⟩
    · exact h.known d hd
  · rcases hcases d hd with rfl | hd
    · rw [hlock]
      exact h.lock c hcmem
    · exact h.lock d hd
  · obtain ⟨d, hd, hda, hdb⟩ := h.held e he a ha
    refine ⟨d, ?_, hda, hdb⟩
    rw [hl] at hd
    simp only [List.mem_append, List.mem_cons] at hd ⊢
    rcases hd with hd | rfl | hd
    · exact .inl hd
    · rw [hb] at hdb
      cases hdb
    · exact .inr (.inr hd)
  · rcases hcases d hd with rfl | hd
    · rw [hnone] at hdb
      cases hdb
    · exact h.blocked d hd b hdb
  · rcases hcases d hd with rfl | hd
    · rw [← hc'] at hph
      cases hph
    · exact h.woken d hd hdb hph
  · rcases hcases d hd with rfl | hd
    · rw [hnone] at hdb
      cases hdb
    · exact h.queue d hd hdb
  · have hle := h.alone p hp
    rw [hl] at hle
    simp only [List.filter_append, List.filter_cons, hlock] at hle ⊢
    split_ifs at hle ⊢
    · simpa using hle
    · exact hle
  · refine h.acyclic.mono fun p q ⟨hp, hq, d, hd, e, he, hdb, hw⟩ => ?_
    rcases hcases d hd with rfl | hd
    · rw [hnone] at hdb
      cases hdb
    · exact ⟨hp, hq, d, hd, e, he, hdb, hw⟩

/-- The last close of the file, while no request waits. -/
theorem clear (h : Good single [] s) (hidle : ∀ e ∈ s.head, e.blockHd = []) :
    Good single [] s.clearFdNode := by
  have hblocked : s.head.flatMap FdLockf.blockHd = [] := List.flatMap_eq_nil_iff.mpr hidle
  have hnone (c : Call) (hc : c ∈ s.calls) : c.blocker = none := by
    cases hb : c.blocker with
    | none => rfl
    | some b =>
      obtain ⟨-, -, e, he, -, hae, -⟩ := h.blocked c hc b hb
      rw [hidle e he] at hae
      cases hae
  have hcalls : s.clearFdNode.calls = s.calls := by
    unfold FdNode.clearFdNode
    simp only [hblocked, List.map_map]
    refine (List.map_congr_left fun c hc => ?_).trans (List.map_id _)
    simp [abort, Call.settle]
  have hqueue : s.clearFdNode.blockQ = s.blockQ := by
    unfold FdNode.clearFdNode
    simp [hblocked]
  refine ⟨fun x => ?_, ?_, fun e he => ?_, ?_, fun x => ?_, fun e he => ?_, ?_, ?_, ?_, ?_, fun _ => rfl, ?_⟩
  · have hold := h.count x
    rw [hcalls]
    change 0 + _ + (s.freed ++ sems s.head).count x + 0 = if x < s.made then 1 else 0
    rw [List.count_append]
    rw [List.count_nil] at hold
    omega
  · rw [hcalls]
    exact h.known
  · cases he
  · rw [hcalls]
    exact h.lock
  · exact Nat.zero_le _
  · cases he
  · rw [hcalls]
    intro c hc b hb
    rw [hnone c hc] at hb
    cases hb
  · rw [hcalls]
    exact h.woken
  · rw [hcalls, hqueue]
    exact h.queue
  · rw [hcalls]
    exact h.alone
  · refine h.acyclic.mono fun p q ⟨_, _, c, _, e, he, _⟩ => ?_
    cases he

end Good

end FdNode

end SylixOS.IoLib
