import SylixOS.IoLib.LockWait

/-! # The sections of waiting requests

Each section keeps what holds of the waiting requests, as long as it splits no entry in the middle,
checks for a deadlock whenever a wait could close a circle, deletes a thread only inside of its
pend, and closes the file only when nobody waits.
-/

namespace SylixOS.IoLib
open Lib Lib.RangeTable Relation

namespace FdNode

variable {single : ℤ → Prop} {hand hand' : List ℕ} {s s' s₁ : FdNode} {c d : Call} {e f : FdLockf}
  {w : Walk} {a addr i n : ℕ} {lock blk : FdLockf} {spare : Option ℕ} {op : Op} {res : Res}
  {p q pid cur oftSize : ℤ} {iOp : LockOp} {fl fl' : Flock} {iFlags : LockFlags} {mem : Bool}

/-- Whoever waited for an entry is posted, or waits for what still holds as much. -/
def Follows (s s' : FdNode) : Prop :=
  ∀ c ∈ s.calls, ∀ e ∈ s.head, c.lock.addr ∈ e.blockHd →
    ∃ c' ∈ s'.calls, c'.lock.addr = c.lock.addr ∧
      (c'.posted = true ∨ ∃ e' ∈ s'.head, c.lock.addr ∈ e'.blockHd ∧ Still e e')

theorem Follows.of_same (hhead : s'.head = s.head)
    (hcalls : ∀ c ∈ s.calls, ∀ e ∈ s.head, c.lock.addr ∈ e.blockHd → c ∈ s'.calls) : Follows s s' :=
  fun c hc e he hae => ⟨c, hcalls c hc e he hae, rfl, .inr ⟨e, hhead ▸ he, hae, .refl⟩⟩

theorem Follows.after (h : Follows s₁ s') (hhead : s₁.head = s.head)
    (hcalls : ∀ c ∈ s.calls, ∀ e ∈ s.head, c.lock.addr ∈ e.blockHd → c ∈ s₁.calls) : Follows s s' :=
  fun c hc e he hae => h c (hcalls c hc e he hae) e (hhead ▸ he) hae

theorem Good.follows (h : Good single hand s) (hw : Settles addr s.head w) :
    Follows s (s.settle addr w) := by
  intro c hc e he hae
  refine ⟨c.settle w addr, List.mem_map_of_mem hc, by simp, ?_⟩
  rcases h.settled hw he hae with hwoken | ⟨-, e', he', hae', hs, -⟩
  · rw [Call.settle, if_pos hwoken]
    exact .inl rfl
  · exact .inr ⟨e', he', hae', hs⟩

theorem Follows.block (h : Follows s s₁) : Follows s (s₁.block lock blk spare) := by
  intro c hc e he hae
  obtain ⟨c', hc', haddr, hrest⟩ := h c hc e he hae
  refine ⟨c', List.mem_append_left _ hc', haddr, hrest.imp_right fun ⟨e', he', hae', hs⟩ => ?_⟩
  refine ⟨_, List.mem_map_of_mem he', ?_, ?_⟩
  · split_ifs
    · exact List.mem_append_left _ hae'
    · exact hae'
  · split_ifs
    · exact hs.trans ⟨rfl, fun _ hx => hx, id⟩
    · exact hs

/-- A request that would close a circle is refused, checked, or gives up all that it holds. -/
def Passes (single : ℤ → Prop) (s : FdNode) (lock : FdLockf) : Prop :=
  ∀ blk, getBlock lock (s.head.length + 1) s.head = some (some blk) → lock.usFlags.wait = false ∨
    (lock.usFlags.posix = true ∧ blk.usFlags.posix = true) ∨
    (lock.usFlags.flock = true ∧ lock.usType = .wrlck) ∨
    ¬ TransGen (s.Waits single) blk.pid lock.pid

/-! ## The check for a deadlock -/

/-- The process whose entry blocks a waiting request of the process. -/
def waitsOn (s : FdNode) (p : ℤ) : Option ℤ :=
  (s.findBlock p).bind fun c => (c.blocker.bind s.entry).map FdLockf.pid

theorem deadWalk_eq (waiter : ℤ) : s.deadWalk waiter n p = follow s.waitsOn waiter n p := by
  induction n generalizing p with
  | zero => rfl
  | succ n ih =>
    rw [deadWalk, follow, waitsOn]
    cases hfind : s.findBlock p with
    | none => rfl
    | some c =>
      simp only [Option.bind_some]
      cases hentry : c.blocker.bind s.entry with
      | none => rfl
      | some e => simp only [Option.map_some, ih]

theorem find_eq {α : Type*} {l : List α} {x : α} {P : α → Prop} [DecidablePred P] (hx : x ∈ l)
    (hP : P x) (hone : ∀ y ∈ l, P y → y = x) : l.find? (fun y => P y) = some x := by
  obtain ⟨y, hy⟩ := Option.isSome_iff_exists.mp
    (List.find?_isSome.mpr ⟨x, hx, by simpa using hP⟩ : (l.find? fun y => P y).isSome)
  rw [hy, hone y (List.mem_of_find?_eq_some hy) (by simpa using List.find?_some hy)]

theorem eq_of_short {l : List Call} (hl : l.length ≤ 1) (hc : c ∈ l) (hd : d ∈ l) : c = d := by
  cases l with
  | nil => cases hc
  | cons x l =>
    have hnil : l = [] := List.length_eq_zero_iff.mp (by simpa using hl)
    subst hnil
    rw [List.mem_singleton.mp hc, List.mem_singleton.mp hd]

namespace Good

/-- A process with one thread has one request. -/
theorem eq_of_alone (h : Good single hand s) (hp : single p) (hc : c ∈ s.calls) (hd : d ∈ s.calls)
    (hcp : c.lock.pid = p) (hdp : d.lock.pid = p) : c = d := by
  have hcf : c ∈ s.calls.filter fun c => c.lock.pid = p :=
    List.mem_filter.mpr ⟨hc, by simpa using hcp⟩
  have hdf : d ∈ s.calls.filter fun c => c.lock.pid = p :=
    List.mem_filter.mpr ⟨hd, by simpa using hdp⟩
  exact eq_of_short (h.alone p hp) hcf hdf

/-- The walk of the check follows the recorded waits. -/
theorem waitsOn_eq (h : Good single hand s) (hw : s.Waits single p q) : s.waitsOn p = some q := by
  obtain ⟨hp, -, c, hc, e, he, hb, hcp, hep⟩ := hw
  have hfind : s.calls.find? (fun d => d.lock.addr = c.lock.addr) = some c :=
    find_eq hc rfl fun d hd hda => h.call_eq hd hc hda
  have hmem : c ∈ s.blockQ.filterMap fun a => s.calls.find? fun d => d.lock.addr = a :=
    List.mem_filterMap.mpr ⟨c.lock.addr, h.queue c hc (by rw [hb]; rfl), hfind⟩
  have hblock : s.findBlock p = some c := find_eq hmem hcp fun d hd hdp => by
    obtain ⟨a, -, ha⟩ := List.mem_filterMap.mp hd
    exact h.eq_of_alone hp (List.mem_of_find?_eq_some ha) hc hdp hcp
  have hentry : s.entry e.addr = some e := find_eq he rfl fun f hf hfa =>
    eq_of_ulBlock (by have := h.count_le f.ulBlock; omega) hf he
      ((h.addr f hf).symm.trans (hfa.trans (h.addr e he)))
  rw [waitsOn, hblock, Option.bind_some, hb, Option.bind_some, hentry, Option.map_some, hep]

/-- A wait that the check lets pass closes no circle. -/
theorem not_deadLock (h : Good single hand s) (hdead : s.isDeadLock lock blk = false) :
    ¬ TransGen (s.Waits single) blk.pid lock.pid := by
  rw [isDeadLock, deadWalk_eq] at hdead
  exact follow_eq_false (fun _ _ hw => h.waitsOn_eq hw) hdead

/-! ## The sections of a request -/

/-- What a lock of `flock` finds before it sleeps: nobody waits for its process any more. -/
theorem giveUp (h : Good single (lock.ulBlock :: spare.toList) s) (hi : s.Inv)
    (hok : CallOk lock spare) (hopen : s.gone = false) (hflock : lock.usFlags.flock = true)
    (hw : clearLock lock none s.head = some w) :
    Good single (lock.ulBlock :: spare.toList) (s.settle lock.addr w) ∧
      Follows s (s.settle lock.addr w) ∧ (∀ e ∈ s.head, e.pid ≠ lock.pid → e ∈ w.list) ∧
      ∀ q, ¬ (s.settle lock.addr w).Waits single q lock.pid := by
  obtain ⟨hstart, hend⟩ := hok.2.2 hflock
  have hwr : Written none lock s.head w.list := by
    refine clearLoop_written hi.holds.valid hok.1.1 (fun heq => ?_) (hi.holds.sorted _) hw
    rw [hend] at heq
    exact absurd heq (by decide)
  obtain ⟨ht, hmoved, -⟩ := clearLoop_trimmed hi.holds.valid hok.1.1 (hi.holds.sorted _)
    (fun ov _ hsplit => hsplit.2.2.1 hend) hw
  have hset : Settles lock.addr s.head w := ht.settles hmoved
  refine ⟨h.settle hset (fun x => ?_) (ht.addr h.addr) hopen (fun e he => (hi.holds.valid e he).1)
    fun c hc => (hi.calls c hc).1.1, h.follows hset, fun e he hpid => ?_, ?_⟩
  · have := ht.sems x
    omega
  · have hown : e ∈ own e.pid w.list := by
      rw [hwr.others e.pid hpid]
      exact mem_own.mpr ⟨he, rfl⟩
    exact (mem_own.mp hown).1
  · -- An entry of the process would hold a byte that was cleared.
    rintro q ⟨-, -, -, -, e, he, -, -, hpid⟩
    obtain ⟨x, hx⟩ := (hwr.valid e he).1.nonempty
    have hhas : Has bytes FdLockf.usType (own lock.pid w.list) x e.usType :=
      has_own.mpr ⟨e, he, hpid, hx, rfl⟩
    rw [hwr.cut.has] at hhas
    have hranged := (hwr.valid e he).1
    unfold Ranged at hranged
    have hcovers : x ∈ bytes lock := by
      simp only [mem_bytes] at hx ⊢
      omega
    simp [hcovers] at hhas

theorem setLock (h : Good single (lock.ulBlock :: spare.toList) s) (hi : s.Inv)
    (hok : CallOk lock spare) (haddr : lock.addr = lock.ulBlock) (hhd : lock.blockHd = [])
    (hopen : s.gone = false)
    (hcopy : (∃ e ∈ s.head, Blocks lock e) ∨
      ∀ ov ∈ s.head, Splits lock ov → ov.usType = lock.usType)
    (halone : single lock.pid → ∀ c ∈ s.calls, c.lock.pid ≠ lock.pid)
    (hpass : s.Passes single lock) (hs : s.setLock lock spare = some (s', res)) :
    Good single [] s' ∧ Follows s s' := by
  have hr : ∀ e ∈ s.head, Ranged e := fun e he => (hi.holds.valid e he).1
  have hstay (r : List ℕ) : Follows s (s.drop r) := .of_same rfl fun _ hc _ _ _ => hc
  unfold FdNode.setLock at hs
  rcases getBlock_spec lock hr (Nat.lt_succ_self _) with ⟨blk, hg, hmem, hb⟩ | ⟨hg, hno⟩
  · have hpass := hpass blk hg
    rw [hg, Option.bind_some] at hs
    simp only at hs
    split_ifs at hs with hwait hdead hflock
    · cases hs
      exact ⟨h.drop, hstay _⟩
    · cases hs
      exact ⟨h.drop, hstay _⟩
    · obtain ⟨w, hw, heq⟩ := Option.map_eq_some_iff.mp hs
      cases heq
      obtain ⟨hgood, hfollows, hkept, hnone⟩ := h.giveUp hi hok hopen hflock.1 hw
      refine ⟨hgood.record.block (hkept blk hmem hb.1) hb haddr hhd (fun hp c hc => ?_)
        fun hback => ?_, Follows.block hfollows⟩
      · obtain ⟨d, hd, rfl⟩ := List.mem_map.mp hc
        rw [settle_lock]
        exact halone hp d hd
      · obtain ⟨q, -, hq⟩ := TransGen.tail'_iff.mp hback
        exact hnone q hq
    · cases hs
      refine ⟨h.block hmem hb haddr hhd halone ?_, .block (.of_same rfl fun _ hc _ _ _ => hc)⟩
      rcases hpass with hw | ⟨hp, hq⟩ | hf | hn
      · exact absurd hw hwait
      · exact h.not_deadLock (by simpa [hp, hq] using hdead)
      · exact absurd hf hflock
      · exact hn
  · rw [hg, Option.bind_some] at hs
    obtain ⟨w, hw, heq⟩ := Option.map_eq_some_iff.mp hs
    cases heq
    have hcopy := hcopy.resolve_left fun ⟨e, he, hb⟩ => hno e he hb
    obtain ⟨hl, hspare⟩ :=
      linkLock_linked hi.holds.valid hok.1 hhd (hi.holds.sorted _) hcopy hw
    have hset : Settles lock.addr s.head w := hl.settles h.once
    have hgood : Good single w.spare.toList (s.settle lock.addr w) := by
      refine h.settle hset (fun x => ?_) (hl.addr haddr h.addr) hopen hr
        fun c hc => (hi.calls c hc).1.1
      have := hl.sems x
      rw [hspare, List.count_cons]
      rw [List.count_cons, List.count_nil] at this
      omega
    exact ⟨hgood.record.drop, h.follows hset⟩

/-- The nodes of a request come from one counter. -/
theorem make_two (h : Good single [] s) :
    Good single [s.made + 1, s.made] { s with made := s.made + 1 + 1 } := by
  refine h.make (fun x => ?_) (by omega)
  simp only [List.count_cons, List.count_nil, beq_iff_eq]
  split_ifs <;> omega

theorem advLock (h : Good single [] s) (hi : s.Inv) (hargs : Inv.ArgsOk iOp fl iFlags)
    (hopen : s.gone = false)
    (hok : ∀ lock, request (s.made + 1) (if pid < 0 then cur else pid) fl oftSize iFlags = some lock →
      iOp ≠ .getlk → mem = true → (lock.oftEnd = -1 ∨ lock.oftStart ≤ lock.oftEnd) ∧
        ((lock.usType ≠ .unlck ∧ ∃ e ∈ s.head, Blocks lock e) ∨
          ∀ ov ∈ s.head, Splits lock ov → ov.usType = lock.usType) ∧
        (lock.usType ≠ .unlck → s.Passes single lock ∧
          (single lock.pid → ∀ c ∈ s.calls, c.lock.pid ≠ lock.pid)))
    (hs : s.advLock pid cur iOp fl oftSize iFlags mem = some (s', res, fl')) :
    Good single [] s' ∧ Follows s s' := by
  have hstay {s₁ : FdNode} (hhead : s₁.head = s.head) (hcalls : s₁.calls = s.calls) : Follows s s₁ :=
    .of_same hhead fun _ hc _ _ _ => hcalls ▸ hc
  by_cases hget : iOp = .getlk
  · subst hget
    have hmade : Good single [s.made] { s with made := s.made + 1 } := by
      refine h.make (fun x => ?_) (by omega)
      simp only [List.count_cons, List.count_nil, beq_iff_eq]
      split_ifs <;> omega
    unfold FdNode.advLock at hs
    simp only at hs
    split at hs
    · cases hs
      exact ⟨h, hstay rfl rfl⟩
    · split_ifs at hs
      · cases hs
        exact ⟨h, hstay rfl rfl⟩
      · cases hs
        exact ⟨hmade.drop, hstay rfl rfl⟩
      · obtain ⟨b, -, heq⟩ := Option.map_eq_some_iff.mp hs
        cases heq
        exact ⟨hmade.drop, hstay rfl rfl⟩
  · unfold FdNode.advLock at hs
    simp only [if_neg hget, Option.toList_some, List.length_singleton] at hs
    cases hreq : request (s.made + 1) (if pid < 0 then cur else pid) fl oftSize iFlags with
    | none =>
      rw [hreq] at hs
      cases hs
      exact ⟨h, hstay rfl rfl⟩
    | some lock =>
      rw [hreq] at hs
      simp only at hs
      split_ifs at hs with hmem hempty
      · cases hs
        exact ⟨h, hstay rfl rfl⟩
      · cases hs
        exact ⟨h.make_two.drop, hstay rfl rfl⟩
      · obtain ⟨hr, hcopy, hset⟩ := hok lock hreq hget (by simpa using hmem)
        have hranged := request_ranged hreq hr
        have hnode : lock.addr = s.made + 1 ∧ lock.ulBlock = s.made + 1 ∧ lock.blockHd = [] ∧
            lock.usType = fl.l_type := by
          obtain ⟨start, stop, -, rfl⟩ := request_eq hreq
          exact ⟨rfl, rfl, rfl, rfl⟩
        obtain ⟨haddr, hul, hhd, htype⟩ := hnode
        have hmade := h.make_two
        have himade : Inv { s with made := s.made + 1 + 1 } := ⟨hi.holds, hi.calls⟩
        cases iOp with
        | getlk => exact absurd rfl hget
        | setlk =>
          obtain ⟨⟨s₁, res₁⟩, hset', heq⟩ := Option.map_eq_some_iff.mp hs
          cases heq
          obtain ⟨hpass, halone⟩ := hset (htype ▸ hargs.1 rfl)
          have hhand : Good single (lock.ulBlock :: (some s.made).toList)
              { s with made := s.made + 1 + 1 } := by
            rw [hul]
            exact hmade
          exact hhand.setLock himade (Inv.request_callOk hreq hr (hargs.1 rfl) hargs.2.2)
            (haddr.trans hul.symm) hhd hopen (hcopy.imp_left And.right) halone hpass hset'
        | unlck =>
          obtain ⟨w, hw, heq⟩ := Option.map_eq_some_iff.mp hs
          cases heq
          have hunlck : lock.usType = .unlck := htype.trans (hargs.2.1 rfl)
          have hcopy := hcopy.resolve_left fun hb => hb.1 hunlck
          obtain ⟨ht, hmoved, hspare⟩ := clearLoop_trimmed hi.holds.valid hranged
            (hi.holds.sorted _)
            (fun ov hov hsplit => (hi.holds.valid ov hov).2 ((hcopy ov hov hsplit).trans hunlck)) hw
          have hset : Settles (s.made + 1) s.head w := ht.settles hmoved
          have hgood : Good single ((s.made + 1) :: w.spare.toList)
              (({ s with made := s.made + 1 + 1 } : FdNode).settle (s.made + 1) w) := by
            refine hmade.settle hset (fun x => ?_) (ht.addr h.addr) hopen
              (fun e he => (hi.holds.valid e he).1) fun c hc => (hi.calls c hc).1.1
            have := ht.sems x
            simp only [hspare, Option.toList_some]
            omega
          exact ⟨hgood.record.drop, h.follows hset⟩

/-- A request that nothing blocks is no waiter. -/
theorem mem_erase (h : Good single [] s) (hc : s.calls[i]? = some c) (hb : c.blocker = none)
    (hd : d ∈ s.calls) (he : e ∈ s.head) (hae : d.lock.addr ∈ e.blockHd) :
    d ∈ s.calls.eraseIdx i := by
  refine mem_erase_of_ne hc hd fun heq => ?_
  have hblk := (h.entry_of_waiter hd he hae).1
  rw [heq, hb] at hblk
  cases hblk

/-- The other requests of a process with one thread are of other processes. -/
theorem alone_erase (h : Good single [] s) (hc : s.calls[i]? = some c) (hp : single c.lock.pid)
    (hd : d ∈ s.calls.eraseIdx i) : d.lock.pid ≠ c.lock.pid := fun hpid =>
  h.addr_ne_of_erase hc hd (congrArg (fun c => c.lock.addr) (h.eq_of_alone hp
    (List.mem_of_mem_eraseIdx hd) (List.mem_of_getElem? hc) hpid rfl))

theorem again (h : Good single [] s) (hi : s.Inv)
    (hok : ∀ c, s.calls[i]? = some c → c.phase = .resumed false → s.gone = false →
      c.lock.usFlags.abort = false → ((∃ e ∈ s.head, Blocks c.lock e) ∨
        ∀ ov ∈ s.head, Splits c.lock ov → ov.usType = c.lock.usType) ∧ s.Passes single c.lock)
    (hs : s.again i = some (s', res)) : Good single [] s' ∧ Follows s s' := by
  obtain ⟨c, hc, hs⟩ := Option.bind_eq_some_iff.mp hs
  have hmem := List.mem_of_getElem? hc
  cases hph : c.phase with
  | waiting =>
    rw [hph] at hs
    cases hs
  | lost =>
    rw [hph] at hs
    cases hs
  | resumed err =>
    have herr : err = false := by
      cases err with
      | false => rfl
      | true => exact absurd hph (h.known c hmem).2
    have hb : c.blocker = none := by
      cases hb : c.blocker with
      | none => rfl
      | some b =>
        have := (h.blocked c hmem b hb).1
        rw [hph] at this
        cases this
    subst herr
    have htake := h.take hc hb
    have hstay (d : Call) (hd : d ∈ s.calls) (e : FdLockf) (he : e ∈ s.head)
        (hae : d.lock.addr ∈ e.blockHd) : d ∈ s.calls.eraseIdx i := h.mem_erase hc hb hd he hae
    rw [hph] at hs
    simp only [hb, Bool.false_eq_true, if_false] at hs
    split_ifs at hs with hgone
    · cases hs
      exact ⟨htake.drop, .of_same rfl hstay⟩
    · rw [not_or] at hgone
      have hopen : s.gone = false := by simpa using hgone.1
      obtain ⟨hcopy, hpass⟩ := hok c hc hph hopen (by simpa using hgone.2)
      have her : Inv { s with calls := s.calls.eraseIdx i } := hi.erase
      have hlock := h.lock c hmem
      -- Without this request there are no more waits than with it.
      have hpass' : Passes single { s with calls := s.calls.eraseIdx i } c.lock := fun blk hg =>
        (hpass blk hg).imp_right <| .imp_right <| .imp_right fun hn hback =>
          hn (TransGen.mono (fun p q ⟨hp, hq, d, hd, hw⟩ =>
            ⟨hp, hq, d, List.mem_of_mem_eraseIdx hd, hw⟩) _ _ hback)
      have hset := htake.setLock her (hi.calls c hmem) hlock.1 hlock.2 hopen hcopy
        (fun hp d hd => h.alone_erase hc hp hd) hpass' hs
      exact ⟨hset.1, hset.2.after rfl hstay⟩

theorem resume (h : Good single [] s) (hs : s.resume i = some s') :
    Good single [] s' ∧ Follows s s' := by
  obtain ⟨c, hc, hs⟩ := Option.bind_eq_some_iff.mp hs
  have hmem := List.mem_of_getElem? hc
  split_ifs at hs with hph hfreed hposted
  · -- A semaphore that is in use is not deleted.
    have hin : 0 < (s.calls.flatMap Call.nodes).count c.lock.ulBlock :=
      List.count_pos_iff.mpr (List.mem_flatMap.mpr ⟨c, hmem, List.mem_cons_self⟩)
    have hin' : 0 < s.freed.count c.lock.ulBlock := List.count_pos_iff.mpr hfreed
    have := h.count_le c.lock.ulBlock
    omega
  · cases hs
    have hb : c.blocker = none := by
      cases hb : c.blocker with
      | none => rfl
      | some b =>
        have := (h.blocked c hmem b hb).2.1
        rw [hposted] at this
        cases this
    refine ⟨h.awake hc hb, .of_same rfl fun d hd e he hae => ?_⟩
    have hblk := (h.entry_of_waiter hd he hae).1
    obtain ⟨l, r, hl, hset⟩ := exists_set hc
    rw [hl] at hd
    rw [hset]
    simp only [List.mem_append, List.mem_cons] at hd ⊢
    rcases hd with hd | rfl | hd
    · exact .inl hd
    · rw [hb] at hblk
      cases hblk
    · exact .inr (.inr hd)

/-- The thread of a waiting request is deleted. -/
theorem kill (h : Good single [] s) (hph : ∀ c, s.calls[i]? = some c → c.phase = .waiting)
    (hs : s.kill i = some s') : Good single [] s' ∧ s.Wakes (.kill i) s' := by
  obtain ⟨c, hc, hs⟩ := Option.bind_eq_some_iff.mp hs
  have hmem := List.mem_of_getElem? hc
  rw [hph c hc] at hs
  cases hb : c.blocker with
  | none =>
    simp only [hb] at hs
    cases hs
    refine ⟨(h.take hc hb).drop, fun d hd e he hae => .inr ?_⟩
    exact ⟨d, h.mem_erase hc hb hd he hae, rfl, .inr ⟨e, he, hae, .refl⟩⟩
  | some b =>
    have hopen : ¬ s.gone = true := fun hgone => by
      obtain ⟨-, -, e, he, -⟩ := h.blocked c hmem b hb
      rw [h.closed hgone] at he
      cases he
    simp only [hb, if_neg hopen] at hs
    cases hs
    refine ⟨(h.cancel hc hb).drop, fun d hd e he hae => ?_⟩
    by_cases hdc : d = c
    · exact .inl ⟨i, rfl, hdc ▸ hc⟩
    · have hderase := mem_erase_of_ne hc hd hdc
      refine .inr ⟨d, hderase, rfl, .inr ⟨_, List.mem_map_of_mem he, ?_, ?_⟩⟩
      · split_ifs
        · exact List.mem_filter.mpr ⟨hae, by simpa using h.addr_ne_of_erase hc hderase⟩
        · exact hae
      · split_ifs
        · exact ⟨rfl, fun _ hx => hx, id⟩
        · exact .refl

end Good

/-- A process with one thread asks for a lock when it waits for none. -/
def Alone (single : ℤ → Prop) (s : FdNode) (op : Op) : Prop :=
  ∀ lock, s.lockOf op = some lock → (∀ i, op ≠ .again i) → lock.usType ≠ .unlck → single lock.pid →
    ∀ c ∈ s.calls, c.lock.pid ≠ lock.pid

/-- A request that is carried out needs no copy of an entry: it has the type of the entry in the
middle of which it lies. -/
def NoCopy (s : FdNode) (op : Op) : Prop :=
  ∀ lock, s.lockOf op = some lock → (lock.usType ≠ .unlck ∧ ∃ e ∈ s.head, Blocks lock e) ∨
    ∀ ov ∈ s.head, Splits lock ov → ov.usType = lock.usType

/-- The sections that keep what is promised to waiting requests. -/
structure WaitOk (single : ℤ → Prop) (s : FdNode) (op : Op) : Prop where
  inRange : InRange s op
  noTrim : NoTrim s op
  alone : Alone single s op
  noCopy : NoCopy s op
  passes : ∀ lock, s.lockOf op = some lock → lock.usType ≠ .unlck → s.Passes single lock
  kill : ∀ i c, op = .kill i → s.calls[i]? = some c → c.phase = .waiting
  close : op = .clearFdNode → ∀ e ∈ s.head, e.blockHd = []

theorem Follows.wakes (h : Follows s s') : s.Wakes op s' := fun c hc e he hae =>
  .inr (h c hc e he hae)

namespace Good

theorem step (h : Good single [] s) (hi : s.Inv) (hok : WaitOk single s op)
    (hs : s.step op = some s') : Good single [] s' ∧ s.Wakes op s' := by
  have hargs (hop : ∀ i, op ≠ .again i) (lock : FdLockf) (hlock : s.lockOf op = some lock) :
      (lock.oftEnd = -1 ∨ lock.oftStart ≤ lock.oftEnd) ∧
        ((lock.usType ≠ .unlck ∧ ∃ e ∈ s.head, Blocks lock e) ∨
          ∀ ov ∈ s.head, Splits lock ov → ov.usType = lock.usType) ∧
        (lock.usType ≠ .unlck → s.Passes single lock ∧
          (single lock.pid → ∀ c ∈ s.calls, c.lock.pid ≠ lock.pid)) :=
    ⟨hok.inRange lock hlock, hok.noCopy lock hlock, fun htype =>
      ⟨hok.passes lock hlock htype, hok.alone lock hlock hop htype⟩⟩
  cases op with
  | ioctl cur cmd fl oftPtr oftSize mem =>
    have hopen : s.gone = false := by
      cases hgone : s.gone with
      | false => rfl
      | true => simp [FdNode.step, hgone] at hs
    obtain ⟨⟨s₁, res, fl'⟩, hadv, rfl⟩ := Option.map_eq_some_iff.mp (Inv.of_not_gone hs)
    have hadv' := h.advLock hi (Inv.argsOk_ioctl cmd fl oftPtr) hopen (fun lock hreq hget hmem =>
      hargs (by simp) lock (Inv.lockOf_ioctl hget hmem hreq)) hadv
    exact ⟨hadv'.1, hadv'.2.wakes⟩
  | proc pid cur iType nb oftSize mem =>
    have hopen : s.gone = false := by
      cases hgone : s.gone with
      | false => rfl
      | true => simp [FdNode.step, hgone] at hs
    obtain ⟨⟨s₁, res, fl'⟩, hadv, rfl⟩ := Option.map_eq_some_iff.mp (Inv.of_not_gone hs)
    have hadv' := h.advLock hi (Inv.argsOk_proc iType nb pid) hopen (fun lock hreq _ hmem =>
      hargs (by simp) lock (Inv.lockOf_proc hmem hreq)) hadv
    exact ⟨hadv'.1, hadv'.2.wakes⟩
  | resume i =>
    have hres := h.resume hs
    exact ⟨hres.1, hres.2.wakes⟩
  | again i =>
    obtain ⟨⟨s₁, res⟩, hagain, rfl⟩ := Option.map_eq_some_iff.mp hs
    have hag := h.again hi (fun c hc hph hgone habort => ?_) hagain
    · exact ⟨hag.1, hag.2.wakes⟩
    · have hlock : s.lockOf (.again i) = some c.lock := by
        simp [lockOf, hc, hph, hgone, habort]
      have hset : c.lock.usType ≠ .unlck := (hi.calls c (List.mem_of_getElem? hc)).1.2
      exact ⟨(hok.noCopy c.lock hlock).imp_left And.right, hok.passes c.lock hlock hset⟩
  | kill i => exact h.kill (fun c hc => hok.kill i c rfl hc) hs
  | clearFdNode =>
    have hidle := hok.close rfl
    cases Inv.of_not_gone hs
    refine ⟨h.clear hidle, fun c hc e he hae => ?_⟩
    rw [hidle e he] at hae
    cases hae

theorem protocol (h : Good single [] s) : s.Protocol single where
  waits c hc hph hposted := by
    cases hb : c.blocker with
    | none =>
      have := h.woken c hc hb hph
      rw [hposted] at this
      cases this
    | some b =>
      obtain ⟨-, -, e, he, -, hae, hblocks⟩ := h.blocked c hc b hb
      have hin : 0 < (waiters s.head).count c.lock.addr :=
        List.count_pos_iff.mpr (mem_waiters.mpr ⟨e, he, hae⟩)
      have := h.once c.lock.addr
      exact ⟨by omega, e, he, hae, hblocks⟩
  nodes x hx := by
    have hfilter : s.calls.filter (fun c => c.phase ≠ .lost) = s.calls :=
      List.filter_eq_self.mpr fun c hc => by simpa using (h.known c hc).1
    have hcount := h.count x
    rw [if_pos hx, List.count_nil] at hcount
    rw [hfilter]
    exact hcount
  acyclic := h.acyclic
  badf hgone i s' res hs := by
    obtain ⟨c, -, hs⟩ := Option.bind_eq_some_iff.mp hs
    cases hph : c.phase with
    | waiting =>
      rw [hph] at hs
      cases hs
    | lost =>
      rw [hph] at hs
      cases hs
    | resumed err =>
      rw [hph] at hs
      simp only [hgone, true_or, if_true] at hs
      cases hs
      rfl

end Good

theorem good_start : Good single [] FdNode.start := by
  refine ⟨fun x => rfl, ?_, ?_, ?_, fun x => Nat.zero_le _, ?_, ?_, ?_, ?_, fun p hp => Nat.zero_le _,
    fun hgone => rfl, fun p hc => ?_⟩
  iterate 7 simp [FdNode.start]
  obtain ⟨q, -, -, -, c, hmem, -⟩ := TransGen.tail'_iff.mp hc
  cases hmem

/-- What is promised to waiting requests holds in every state reached, and each section wakes those
that it must. -/
theorem lockWait_protocol (single : ℤ → Prop) (s : FdNode)
    (h : Reach FdNode.step (WaitOk single) (· = FdNode.start) s) :
    s.Protocol single ∧ ∀ op s', WaitOk single s op → s.step op = some s' → s.Wakes op s' := by
  have hinit (t : FdNode) (ht : t = FdNode.start) : t.Inv ∧ Good single [] t := by
    rw [ht]
    exact ⟨inv_start, good_start⟩
  have hinv := h.invariant hinit fun _ _ _ hi hok hs =>
    ⟨hi.1.step ⟨hok.inRange, hok.noTrim⟩ hs, (hi.2.step hi.1 hok hs).1⟩
  exact ⟨hinv.2.protocol, fun op s' hok hs => (hinv.2.step hinv.1 hok hs).2⟩

theorem waitOk_of (h : s.lockOf op = some lock) (hr : lock.oftEnd = -1 ∨ lock.oftStart ≤ lock.oftEnd)
    (hmax : lock.oftEnd ≠ offMax) (halone : ∀ c ∈ s.calls, c.lock.pid ≠ lock.pid)
    (hcopy : ∀ ov ∈ s.head, ¬ Splits lock ov) (hpass : s.Passes single lock) :
    WaitOk single s op := by
  have heq (lock' : FdLockf) (h' : s.lockOf op = some lock') : lock' = lock :=
    Option.some.inj (h'.symm.trans h)
  have hstep := stepOk_of h hr hmax
  refine ⟨hstep.1, hstep.2, fun lock' h' _ _ _ => heq lock' h' ▸ halone, fun lock' h' => .inr ?_,
    fun lock' h' _ => heq lock' h' ▸ hpass, fun i c hop _ => ?_, fun hop => ?_⟩
  · cases heq lock' h'
    exact fun ov hov hsplit => absurd hsplit (hcopy ov hov)
  · subst hop
    cases h
  · subst hop
    cases h

/-- A process locks ten bytes, another one waits for them, and the unlock wakes it. -/
theorem lockWait_unlock : ∃ s op s', Reach FdNode.step (WaitOk fun _ => True) (· = FdNode.start) s ∧
    s.Protocol (fun _ => True) ∧ s.step op = some s' ∧ s.Wakes op s' ∧
    s.calls.map Call.posted = [false] ∧ s'.calls.map Call.posted = [true] := by
  let fl : LockFlags := ⟨true, false, true, false⟩
  let e₁ : FdLockf := ⟨1, 1, 0, 9, .wrlck, fl, 1, []⟩
  let e₂ : FdLockf := ⟨3, 3, 0, 9, .wrlck, fl, 2, []⟩
  let s₁ : FdNode := ⟨[e₁], [], false, [], 2, [0], [(e₁, some .wrlck)]⟩
  let s₂ : FdNode := ⟨[{ e₁ with blockHd := [3] }], [3], false, [⟨e₂, some 2, some 1, false, .waiting⟩],
    4, [0], [(e₁, some .wrlck)]⟩
  let e₃ : FdLockf := ⟨5, 5, 0, 9, .unlck, ⟨false, false, true, false⟩, 1, []⟩
  let s₃ : FdNode := ⟨[], [], false, [⟨e₂, some 2, none, true, .waiting⟩], 6, [0, 1, 5, 4],
    [(e₃, none), (e₁, some .wrlck)]⟩
  have h₀ : Reach FdNode.step (WaitOk fun _ => True) (· = FdNode.start) FdNode.start := .start rfl
  have h₁ : Reach FdNode.step (WaitOk fun _ => True) (· = FdNode.start) s₁ := by
    refine h₀.extend (.ioctl 1 .setlkw ⟨.wrlck, .set, 0, 10, 0⟩ 0 0 true)
      (waitOk_of rfl (.inr (by decide)) (by decide) (by simp [FdNode.start]) (by simp [FdNode.start])
        fun blk hg => ?_) rfl
    cases hg
  have h₂ : Reach FdNode.step (WaitOk fun _ => True) (· = FdNode.start) s₂ := by
    refine h₁.extend (.ioctl 2 .setlkw ⟨.wrlck, .set, 0, 10, 0⟩ 0 0 true)
      (waitOk_of rfl (.inr (by decide)) (by decide) (by simp [s₁]) (fun ov hov hsplit => ?_)
        fun blk hg => ?_) rfl
    · cases List.mem_singleton.mp hov
      exact absurd hsplit.1 (by decide)
    · cases hg
      exact .inr (.inl ⟨rfl, rfl⟩)
  have hok : WaitOk (fun _ => True) s₂ (.ioctl 1 .setlk ⟨.unlck, .set, 0, 10, 0⟩ 0 0 true) := by
    refine waitOk_of rfl (.inr (by decide)) (by decide) (by simp [s₂, e₂]) (fun ov hov hsplit => ?_)
      fun blk hg => ?_
    · cases List.mem_singleton.mp hov
      exact absurd hsplit.2.1 (by decide)
    · cases hg
  have h := lockWait_protocol (fun _ => True) s₂ h₂
  exact ⟨s₂, _, s₃, h₂, h.1, rfl, h.2 _ s₃ hok rfl, rfl, rfl⟩

/-- Nothing but the range of a request is restricted, and all processes have one thread. -/
def SingleOk (s : FdNode) (op : Op) : Prop := StepOk s op ∧ Alone (fun _ => True) s op

/-- A process locks ten bytes and unlocks two in the middle. The new entry is a copy of the old one
with its semaphore, and nobody will delete the semaphore that its memory was created with. -/
theorem lockWait_copy :
    ∃ s, Reach FdNode.step SingleOk (· = FdNode.start) s ∧ ¬ s.Protocol fun _ => True := by
  let fl : LockFlags := ⟨false, false, true, false⟩
  let e₁ : FdLockf := ⟨1, 1, 0, 9, .wrlck, fl, 1, []⟩
  let s₁ : FdNode := ⟨[e₁], [], false, [], 2, [0], [(e₁, some .wrlck)]⟩
  let s₂ : FdNode := ⟨[⟨1, 1, 0, 2, .wrlck, fl, 1, []⟩, ⟨2, 1, 5, 9, .wrlck, fl, 1, []⟩], [], false, [], 4,
    [0, 3], [(⟨3, 3, 3, 4, .unlck, fl, 1, []⟩, none), (e₁, some .wrlck)]⟩
  have h₀ : Reach FdNode.step SingleOk (· = FdNode.start) FdNode.start := .start rfl
  have h₁ : Reach FdNode.step SingleOk (· = FdNode.start) s₁ :=
    h₀.extend (.ioctl 1 .setlk ⟨.wrlck, .set, 0, 10, 0⟩ 0 0 true)
      ⟨stepOk_of rfl (.inr (by decide)) (by decide), by simp [Alone, FdNode.start]⟩ rfl
  have h₂ : Reach FdNode.step SingleOk (· = FdNode.start) s₂ :=
    h₁.extend (.ioctl 1 .setlk ⟨.unlck, .set, 3, 2, 0⟩ 0 0 true)
      ⟨stepOk_of rfl (.inr (by decide)) (by decide), by simp [Alone, s₁]⟩ rfl
  refine ⟨s₂, h₂, fun hp => ?_⟩
  exact absurd (hp.nodes 2 (by decide)) (by decide)

end FdNode

end SylixOS.IoLib
