import SylixOS.Pipe.Spipe

/-! # What a stream pipe write returns

A long write stores some of its bytes, section by section, and after each section it may leave for
another reason than that it is done. What a write of each thread has stored is measured by the sections
that the pipe has received.
-/

namespace SylixOS.Pipe
open Lib Function

variable {β : Type*}

/-- A size of a machine of `w` bits as an `ssize_t`. -/
def ssize (w n : ℕ) : ℤ := Int.bmod n (2 ^ w)

/-- What a call of `_SpipeWrite` returned, and how many bytes of its request were stored. -/
structure WriteReturn where
  sstRet : ℤ
  stored : ℕ

/-- The caller takes an error as no bytes. -/
def WriteReturn.Accounted (r : WriteReturn) : Prop := r.sstRet.toNat = r.stored

instance (r : WriteReturn) : Decidable r.Accounted := inferInstanceAs (Decidable (_ = _))

namespace SpipeDev
variable (g : SpipeConf) (w : ℕ) (s : SpipeDev β)

/-- What `_SpipeWrite` returns when the next step of a thread ends its write; a write that waits ends by
its timeout. -/
def writeRet (i : ℕ) : Option ℤ :=
  match s.calls i with
  | .write .away _ _ _ => if s.uiReadCnt = 0 then some (-1) else none
  | .write .ready whole left _ =>
    if s.uiReadCnt = 0 then some (-1)
    else if min left.length g.pipeBuf ≤ s.ring.stTotalBytes - s.ring.stMsgBytes ∧
        left.length ≤ s.ring.stTotalBytes - s.ring.stMsgBytes then
      some (ssize w whole.length)
    else none
  | .write .pend whole left nonblock =>
    if nonblock ∧ s.hWriteLock.counter = false then some (ssize w (whole.length - left.length)) else none
  | .write .wait whole left _ => some (ssize w (whole.length - left.length))
  | _ => none

/-- The bytes that the pipe has received on the way from `s` to `s'`. -/
def storedBy (s s' : SpipeDev β) : ℕ :=
  ((s'.sections.drop s.sections.length).map fun piece => piece.2.length).sum

/-- The write of a thread, if it is in one, has not stored anything. -/
def Untouched (i : ℕ) : Prop :=
  ∀ whole left, (s.calls i).rest = some (whole, left) → left.length = whole.length

/-- A write that finds no read end open has not stored anything, and a write that returns a count has one
that an `ssize_t` holds. -/
def RetOk (i : ℕ) : Prop :=
  match s.calls i with
  | .write .away whole left _ => s.uiReadCnt = 0 → left.length = whole.length
  | .write .ready whole left _ =>
    if s.uiReadCnt = 0 then left.length = whole.length
    else left.length ≤ s.ring.stTotalBytes - s.ring.stMsgBytes → whole.length < 2 ^ (w - 1)
  | .write .pend whole left nonblock =>
    nonblock ∧ s.hWriteLock.counter = false → whole.length - left.length < 2 ^ (w - 1)
  | .write .wait whole left _ => whole.length - left.length < 2 ^ (w - 1)
  | _ => True

end SpipeDev

/-- The pipe with `OPT_RABORT` and `OPT_WABORT` of its `SPIPEDEV_iAbortFlag`. The code does not keep what
the write of each thread has stored, nor what writes returned. -/
structure SpipeIo (β : Type*) where
  dev : SpipeDev β
  rabort : Bool
  wabort : Bool
  stored : ℕ → ℕ
  returns : List WriteReturn

inductive SpipeIoEvent (β : Type*) where
  | dev (e : SpipeEvent β)
  /-- A write without a buffer or of no bytes, or in an interrupt. -/
  | refused
  /-- `FIOWAITABORT`; `k` and `k'` choose whom its posts wake. -/
  | waitAbort (rabort wabort : Bool) (k k' : ℕ)
  /-- `LW_SPIPE_LOCK` fails. -/
  | lockFails (i : ℕ)

namespace SpipeIo
variable (g : SpipeConf) (w : ℕ) (s : SpipeIo β)

/-- The call of a thread ends; a write returns `sstRet`. -/
def leave (i : ℕ) (sstRet : ℤ) : SpipeIo β :=
  { s with
    dev := s.dev.setCall i .idle
    returns :=
      match s.dev.calls i with
      | .write _ _ _ _ => s.returns ++ [⟨sstRet, s.stored i⟩]
      | _ => s.returns }

/-- The device has made a step for a thread, which may have ended its write. -/
def took (i : ℕ) (dev : SpipeDev β) (sstRet : Option ℤ) : SpipeIo β :=
  let stored := s.stored i + s.dev.storedBy dev
  { s with
    dev
    stored := update s.stored i stored
    returns := s.returns ++ (sstRet.map (WriteReturn.mk · stored)).toList }

/-- A thread that has the lock finds its abort flag. -/
def aborted (i : ℕ) : Bool :=
  match s.dev.calls i with
  | .read .ready _ _ _ => s.rabort
  | .write .ready _ _ _ => s.wabort
  | _ => false

/-- The abort flag is cleared before the loop of a read and of a write. -/
def clearAbort (i : ℕ) : SpipeIo β :=
  match s.dev.calls i with
  | .read .away _ _ _ => { s with rabort := false }
  | .write .away _ _ _ => { s with wabort := false }
  | _ => s

/-- The next step of a thread that is in a call and does not wait. -/
def go (i k k' : ℕ) : Option (SpipeIo β) :=
  if s.aborted i then some (s.leave i 0)
  else (s.dev.go g i k k').map fun dev => (s.clearAbort i).took i dev (s.dev.writeRet g w i)

/-- `FIOWAITABORT` for readers. -/
def abortRead (k : ℕ) : SpipeIo β :=
  if s.dev.hReadLock.waiters = [] then s else { s with dev := s.dev.postRead k, rabort := true }

/-- `FIOWAITABORT` for writers. -/
def abortWrite (k : ℕ) : SpipeIo β :=
  if s.dev.hWriteLock.waiters = [] then s else { s with dev := s.dev.postWrite k, wabort := true }

/-- One step. -/
def step : SpipeIoEvent β → Option (SpipeIo β)
  | .dev (.go i k k') => s.go g w i k k'
  | .dev (.write i data nonblock) =>
    (s.dev.step g (.write i data nonblock)).map fun dev =>
      { s with dev, stored := update s.stored i 0 }
  | .dev (.timeout i) =>
    (s.dev.step g (.timeout i)).map fun dev => s.took i dev (s.dev.writeRet g w i)
  | .dev e => (s.dev.step g e).map fun dev => { s with dev }
  | .refused => some { s with returns := s.returns ++ [⟨-1, 0⟩] }
  | .waitAbort rabort wabort k k' =>
    let s : SpipeIo β := if rabort then s.abortRead k else s
    some (if wabort then s.abortWrite k' else s)
  | .lockFails i =>
    match s.dev.calls i with
    | .read .ready _ _ _ => some (s.leave i (-1))
    | .write .ready _ _ _ => some (s.leave i (-1))
    | _ => none

/-- A write that is aborted, finds no read end open or does not get the lock has not stored anything, and
the counts that are returned fit. -/
def StepOk : SpipeIoEvent β → Prop
  | .dev (.go i _ _) => if s.aborted i then s.dev.Untouched i else s.dev.RetOk w i
  | .dev (.timeout i) => s.dev.RetOk w i
  | .lockFails i => s.dev.Untouched i
  | _ => True

/-- `API_SpipeDevCreate`. -/
structure Init (s : SpipeIo β) : Prop where
  dev : s.dev.Init g
  returns : s.returns = []

end SpipeIo

/-! ## Sizes -/

/-- A size is what an `ssize_t` holds exactly below half of the sizes. -/
theorem ssize_toNat_iff (w n : ℕ) : (ssize w n).toNat = n ↔ n < 2 ^ (w - 1) := by
  have hhalf : (2 ^ w + 1) / 2 = 2 ^ (w - 1) := by
    cases w with
    | zero => rfl
    | succ w =>
      rw [Nat.add_sub_cancel, Nat.pow_succ]
      omega
  have hlt : ssize w n < (2 ^ (w - 1) : ℕ) := by
    rw [← hhalf]
    exact_mod_cast Int.bmod_lt (x := n) (Nat.two_pow_pos w)
  have hpos := Nat.two_pow_pos (w - 1)
  constructor
  · intro h
    omega
  · intro h
    rw [← hhalf] at h
    have heq : ssize w n = n := Int.bmod_eq_of_le (by omega) (by exact_mod_cast h)
    rw [heq, Int.toNat_natCast]

/-! ## What is left of writes -/

namespace SpipeDev
variable {g : SpipeConf} {w : ℕ} {s s' s'' : SpipeDev β} {i : ℕ} {c : SpipeCall β}

/-- What is left of the write of each thread. -/
def rests (s : SpipeDev β) (i : ℕ) : Option (List β × List β) := (s.calls i).rest

theorem setCall_rests : (s.setCall i c).rests = update s.rests i c.rest := by
  funext j
  rcases eq_or_ne j i with rfl | hne
  · simp [rests, setCall]
  · simp [rests, setCall, hne]

/-- No write has stored anything or left. -/
structure Still (s s' : SpipeDev β) : Prop where
  rests : s'.rests = s.rests
  sections : s'.sections = s.sections

theorem Still.refl : s.Still s := ⟨rfl, rfl⟩

theorem Still.trans (h : s.Still s') (h' : s'.Still s'') : s.Still s'' :=
  ⟨h'.rests.trans h.rests, h'.sections.trans h.sections⟩

theorem Still.storedBy (h : s.Still s') : s.storedBy s' = 0 := by
  rw [SpipeDev.storedBy, h.sections, List.drop_length]
  rfl

theorem still_setCall (h : c.rest = s.rests i) : s.Still (s.setCall i c) :=
  ⟨by rw [setCall_rests, h, update_eq_self], rfl⟩

theorem still_wake (woken : Option ℕ) : s.Still (s.wake woken) := by
  cases woken with
  | none => exact .refl
  | some i => exact still_setCall (SpipeCall.woken_rest _)

theorem still_postRead (k : ℕ) : s.Still (s.postRead k) :=
  ⟨(still_wake (s.hReadLock.post k).2).rests, (still_wake (s.hReadLock.post k).2).sections⟩

theorem still_postWrite (k : ℕ) : s.Still (s.postWrite k) :=
  ⟨(still_wake (s.hWriteLock.post k).2).rests, (still_wake (s.hWriteLock.post k).2).sections⟩

theorem still_ite {p : Prop} [Decidable p] (h : s.Still s') : s.Still (if p then s' else s) := by
  split_ifs
  · exact h
  · exact .refl

theorem still_readNotify (bOrgWriteEn : Bool) (k k' : ℕ) :
    s.Still (s.readNotify g bOrgWriteEn k k') :=
  (still_ite (still_postWrite k)).trans (still_ite (still_postRead k'))

theorem still_writeNotify (bOrgReadEn : Bool) (k k' : ℕ) :
    s.Still (s.writeNotify g bOrgReadEn k k') :=
  (still_ite (still_postRead k)).trans (still_ite (still_postWrite k'))

theorem still_clearRead : s.Still (s.clearRead g) := by
  unfold SpipeDev.clearRead
  exact still_ite ⟨rfl, rfl⟩

theorem still_clearWrite : s.Still (s.clearWrite g) := by
  unfold SpipeDev.clearWrite
  exact still_ite ⟨rfl, rfl⟩

theorem still_closed (k k' : ℕ) : s.Still (s.closed k k') :=
  (still_ite (still_postRead k)).trans (still_ite (still_postWrite k'))

theorem still_incCnt (mode : SpipeMode) : s.Still (s.incCnt mode) := by cases mode <;> exact ⟨rfl, rfl⟩

theorem still_decCnt {mode : SpipeMode} (h : s.decCnt mode = some s') : s.Still s' := by
  cases mode <;> unfold SpipeDev.decCnt at h <;> split_ifs at h <;> cases h <;> exact ⟨rfl, rfl⟩

/-! ## A step of a write -/

/-- A step of a thread in a write: the write goes on with what is left, or returns, and then its caller
can tell what was stored exactly if the step is as it should be. -/
inductive Wrote (g : SpipeConf) (w : ℕ) (s s' : SpipeDev β) (i : ℕ) (whole left : List β) : Prop where
  | goesOn (left' : List β) (hret : s.writeRet g w i = none) (hok : s.RetOk w i)
      (hrests : s'.rests = update s.rests i (some (whole, left')))
      (hstored : s.storedBy s' + left'.length = left.length)
  | returns (sstRet : ℤ) (hret : s.writeRet g w i = some sstRet)
      (hrests : s'.rests = update s.rests i none)
      (hok : ∀ n, n + left.length = whole.length →
        (sstRet.toNat = n + s.storedBy s' ↔ s.RetOk w i))

section Write
variable {whole left : List β} {nonblock : Bool}

theorem rests_of_call {phase : Phase} (hc : s.calls i = .write phase whole left nonblock) :
    s.rests i = some (whole, left) := by
  rw [rests, hc]
  rfl

/-- A write that stays in its place. -/
theorem Wrote.of_still (h : s.Still s') (hrest : s.rests i = some (whole, left))
    (hret : s.writeRet g w i = none) (hok : s.RetOk w i) : Wrote g w s s' i whole left :=
  .goesOn left hret hok (by rw [h.rests, ← hrest, update_eq_self])
    (by rw [h.storedBy, Nat.zero_add])

theorem continueWrite_wrote (hc : s.calls i = .write .away whole left nonblock) :
    Wrote g w s (s.continueWrite i whole left nonblock) i whole left := by
  by_cases hcnt : s.uiReadCnt = 0
  · rw [continueWrite, if_pos hcnt]
    refine .returns (-1) ?_ setCall_rests fun n hn => ?_
    · rw [writeRet, hc]
      exact if_pos hcnt
    · have hstored : s.storedBy (s.setCall i .idle) = 0 := by simp [storedBy, setCall]
      rw [hstored, RetOk, hc]
      dsimp only
      omega
  · rw [continueWrite, if_neg hcnt]
    refine .of_still (still_setCall (rests_of_call hc).symm) (rests_of_call hc) ?_ ?_
    · rw [writeRet, hc]
      exact if_neg hcnt
    · rw [RetOk, hc]
      exact fun h => absurd h hcnt

/-- A section that stores bytes. -/
theorem writePut_wrote (hc : s.calls i = .write .ready whole left nonblock) (hcnt : s.uiReadCnt ≠ 0)
    (hfree : min left.length g.pipeBuf ≤ s.ring.stTotalBytes - s.ring.stMsgBytes)
    (h : (s.writePut i whole left nonblock).Still s') : Wrote g w s s' i whole left := by
  have hdata : s.storedBy s' =
      min left.length (s.ring.stTotalBytes - s.ring.stMsgBytes) := by
    rw [storedBy, h.sections]
    simp [writePut, setCall]
  have hrests := h.rests.trans setCall_rests
  by_cases hall : left.length ≤ s.ring.stTotalBytes - s.ring.stMsgBytes
  · have hnil : left.drop (min left.length (s.ring.stTotalBytes - s.ring.stMsgBytes)) = [] := by
      rw [Nat.min_eq_left hall, List.drop_length]
    rw [if_pos hnil] at hrests
    refine .returns (ssize w whole.length) ?_ hrests fun n hn => ?_
    · rw [writeRet, hc]
      exact (if_neg hcnt).trans (if_pos ⟨hfree, hall⟩)
    · rw [hdata, Nat.min_eq_left hall, hn, ssize_toNat_iff, RetOk, hc]
      simp [hcnt, hall]
  · have hcons : left.drop (min left.length (s.ring.stTotalBytes - s.ring.stMsgBytes)) ≠ [] := by
      rw [ne_eq, List.drop_eq_nil_iff]
      omega
    rw [if_neg hcons] at hrests
    refine .goesOn _ ?_ ?_ hrests ?_
    · rw [writeRet, hc]
      exact (if_neg hcnt).trans (if_neg fun h => hall h.2)
    · rw [RetOk, hc]
      simp [hcnt, hall]
    · rw [hdata, List.length_drop]
      omega

theorem writeSection_wrote (hc : s.calls i = .write .ready whole left nonblock) (k k' : ℕ) :
    Wrote g w s (s.writeSection g i whole left nonblock k k') i whole left := by
  by_cases hcnt : s.uiReadCnt = 0
  · rw [writeSection, if_pos hcnt]
    refine .returns (-1) ?_ setCall_rests fun n hn => ?_
    · rw [writeRet, hc]
      exact if_pos hcnt
    · have hstored : s.storedBy (s.setCall i .idle) = 0 := by simp [storedBy, setCall]
      rw [hstored, RetOk, hc]
      simp only [hcnt, if_true]
      omega
  · by_cases hfree : min left.length g.pipeBuf ≤ s.ring.stTotalBytes - s.ring.stMsgBytes
    · rw [writeSection, if_neg hcnt, if_pos hfree]
      exact writePut_wrote hc hcnt hfree (still_writeNotify _ k k')
    · rw [writeSection, if_neg hcnt, if_neg hfree]
      have hstill : s.Still ((s.clearWrite g).setCall i (.write .pend whole left nonblock)) :=
        still_clearWrite.trans
          (still_setCall (by rw [still_clearWrite.rests]; exact (rests_of_call hc).symm))
      refine .of_still hstill (rests_of_call hc) ?_ ?_
      · rw [writeRet, hc]
        exact (if_neg hcnt).trans (if_neg fun h => hfree h.1)
      · rw [RetOk, hc]
        simp only [hcnt, if_false]
        omega

/-- A write that ends with the count of what it stored. -/
theorem Wrote.of_count (hret : s.writeRet g w i = some (ssize w (whole.length - left.length)))
    (hok : s.RetOk w i ↔ whole.length - left.length < 2 ^ (w - 1))
    (hrests : s'.rests = update s.rests i none) (hsections : s'.sections = s.sections) :
    Wrote g w s s' i whole left := by
  refine .returns _ hret hrests fun n hn => ?_
  have hstored : s.storedBy s' = 0 := by simp [storedBy, hsections]
  have hcount : whole.length - left.length = n + 0 := by omega
  rw [hstored, hok, hcount, ssize_toNat_iff]

theorem writePend_wrote (hc : s.calls i = .write .pend whole left nonblock) :
    Wrote g w s (s.writePend i whole left nonblock) i whole left := by
  by_cases h : nonblock ∧ s.hWriteLock.counter = false
  · rw [writePend, if_pos h]
    refine .of_count ?_ ?_ setCall_rests rfl
    · rw [writeRet, hc]
      exact if_pos h
    · rw [RetOk, hc]
      exact ⟨fun hlt => hlt h, fun hlt _ => hlt⟩
  · rw [writePend, if_neg h]
    refine .of_still ⟨?_, rfl⟩ (rests_of_call hc) ?_ ?_
    · exact (still_setCall (c := .write _ whole left nonblock) (rests_of_call hc).symm).rests
    · rw [writeRet, hc]
      exact if_neg h
    · rw [RetOk, hc]
      exact fun hn => absurd hn h

end Write

/-- What a step of a thread does to its write, if it is in one. -/
inductive Goes (g : SpipeConf) (w : ℕ) (s s' : SpipeDev β) (i : ℕ) : Prop where
  | other (h : s.Still s') (hret : s.writeRet g w i = none) (hok : s.RetOk w i)
  | write (whole left : List β) (hrest : s.rests i = some (whole, left))
      (h : Wrote g w s s' i whole left)

theorem go_goes {k k' : ℕ} (h : s.go g i k k' = some s') : Goes g w s s' i := by
  have hother {s' : SpipeDev β} (hstill : s.Still s') (hc : ∀ phase whole left nonblock,
      s.calls i ≠ .write phase whole left nonblock) : Goes g w s s' i := by
    refine .other hstill ?_ ?_
    · rw [writeRet]
      cases hc' : s.calls i with
      | write phase whole left nonblock => exact absurd hc' (hc _ _ _ _)
      | _ => rfl
    · rw [RetOk]
      cases hc' : s.calls i with
      | write phase whole left nonblock => exact absurd hc' (hc _ _ _ _)
      | _ => trivial
  unfold SpipeDev.go at h
  split at h
  case h_1 stMaxBytes nonblock nosig hc =>
    cases h
    refine hother ?_ (by simp [hc])
    have hrest : none = s.rests i := by rw [rests, hc]; rfl
    unfold SpipeDev.readStart
    split_ifs
    · exact still_setCall hrest
    · exact still_setCall hrest
  case h_2 stMaxBytes nonblock nosig hc =>
    cases h
    refine hother ?_ (by simp [hc])
    have hrest : none = s.rests i := by rw [rests, hc]; rfl
    have hclear : none = (s.clearRead g).rests i := by rw [still_clearRead.rests]; exact hrest
    unfold SpipeDev.readSection
    split_ifs
    · have htake : s.Still (s.readTake i stMaxBytes) :=
        ⟨(still_setCall (c := .idle) hrest).rests, rfl⟩
      exact htake.trans (still_readNotify ..)
    · exact still_clearRead.trans (still_setCall hclear)
    · exact still_clearRead.trans (still_setCall hclear)
  case h_3 stMaxBytes nonblock nosig hc =>
    cases h
    refine hother ?_ (by simp [hc])
    have hrest : none = s.rests i := by rw [rests, hc]; rfl
    unfold SpipeDev.readPend
    split_ifs
    · exact still_setCall hrest
    · exact ⟨(still_setCall (c := .read _ _ _ _) hrest).rests, rfl⟩
  case h_4 hc =>
    cases h
    exact .write _ _ (rests_of_call hc) (continueWrite_wrote hc)
  case h_5 hc =>
    cases h
    exact .write _ _ (rests_of_call hc) (writeSection_wrote hc k k')
  case h_6 hc =>
    cases h
    exact .write _ _ (rests_of_call hc) (writePend_wrote hc)
  case h_7 hc =>
    cases h
    refine hother ?_ (by simp [hc])
    exact (still_setCall (c := .idle) (by rw [rests, hc]; rfl)).trans (still_postWrite k)
  case h_8 => cases h

theorem timeout_goes (h : s.step g (.timeout i) = some s') : Goes g w s s' i := by
  simp only [SpipeDev.step] at h
  split at h
  case h_1 hc =>
    cases h
    refine .other ⟨(still_setCall (c := .idle) ?_).rests, rfl⟩ ?_ ?_
    · rw [rests, hc]
      rfl
    · rw [writeRet, hc]
    · rw [RetOk, hc]
      trivial
  case h_2 hc =>
    cases h
    refine .write _ _ (rests_of_call hc) (.of_count ?_ ?_ (setCall_rests (c := .idle)) rfl)
    · rw [writeRet, hc]
    · rw [RetOk, hc]
  case h_3 => cases h

end SpipeDev

/-! ## Runs -/

namespace SpipeIo
variable {g : SpipeConf} {w : ℕ} {s s' : SpipeIo β} {i : ℕ}

/-- What a write has stored and what is left make up its request. -/
def Counted (s : SpipeIo β) : Prop :=
  ∀ i whole left, s.dev.rests i = some (whole, left) → s.stored i + left.length = whole.length

/-- Every caller can tell what was stored. -/
def Accounted (s : SpipeIo β) : Prop := ∀ r ∈ s.returns, r.Accounted

theorem accounted_append {returns : List WriteReturn} (ret : Option WriteReturn) :
    (∀ r ∈ returns ++ ret.toList, r.Accounted) ↔
      (∀ r ∈ returns, r.Accounted) ∧ ∀ r ∈ ret, r.Accounted := by
  simp only [List.mem_append, or_imp, forall_and, Option.mem_toList, Option.mem_def]

/-- The device moves, and no write stores anything or leaves. -/
theorem Counted.of_still (hs : s.Counted) (hdev : s.dev.Still s'.dev)
    (hstored : ∀ i, (s.dev.rests i).isSome → s'.stored i = s.stored i) : s'.Counted := by
  intro j whole left hj
  rw [hdev.rests] at hj
  rw [hstored j (by rw [hj]; rfl)]
  exact hs j whole left hj

theorem took_law {dev : SpipeDev β} (hs : s.Counted) (h : SpipeDev.Goes g w s.dev dev i) :
    (s.took i dev (s.dev.writeRet g w i)).Counted ∧
      ((s.took i dev (s.dev.writeRet g w i)).Accounted ↔ s.Accounted ∧ s.dev.RetOk w i) := by
  have hacc : (s.took i dev (s.dev.writeRet g w i)).Accounted ↔ s.Accounted ∧
      ∀ r ∈ (s.dev.writeRet g w i).map (WriteReturn.mk · (s.stored i + s.dev.storedBy dev)),
        r.Accounted := accounted_append _
  rw [hacc]
  cases h with
  | other h hret hok =>
    refine ⟨hs.of_still h fun j _ => ?_, and_congr_right fun _ => ?_⟩
    · dsimp only [took]
      rw [h.storedBy, Nat.add_zero, update_eq_self]
    · rw [hret]
      exact ⟨fun _ => hok, fun _ => nofun⟩
  | write whole left hrest h =>
    cases h with
    | goesOn left' hret hok hrests hstored =>
      refine ⟨fun j whole₁ left₁ hj => ?_, and_congr_right fun _ => ?_⟩
      · dsimp only [took] at hj ⊢
        rw [hrests] at hj
        rcases eq_or_ne j i with rfl | hne
        · rw [update_self] at hj ⊢
          cases hj
          have := hs j _ _ hrest
          omega
        · rw [update_of_ne hne] at hj ⊢
          exact hs j _ _ hj
      · rw [hret]
        exact ⟨fun _ => hok, fun _ => nofun⟩
    | returns sstRet hret hrests hok =>
      refine ⟨fun j whole₁ left₁ hj => ?_, and_congr_right fun _ => ?_⟩
      · dsimp only [took] at hj ⊢
        rw [hrests] at hj
        rcases eq_or_ne j i with rfl | hne
        · rw [update_self] at hj
          cases hj
        · rw [update_of_ne hne] at hj ⊢
          exact hs j _ _ hj
      · rw [hret, ← hok (s.stored i) (hs i _ _ hrest)]
        simp [WriteReturn.Accounted]

/-- A thread leaves with nothing to report. -/
theorem leave_law {sstRet : ℤ} (hs : s.Counted) (hret : sstRet.toNat = 0) :
    (s.leave i sstRet).Counted ∧
      ((s.leave i sstRet).Accounted ↔ s.Accounted ∧ s.dev.Untouched i) := by
  refine ⟨fun j whole left hj => ?_, ?_⟩
  · dsimp only [leave] at hj ⊢
    rw [SpipeDev.setCall_rests] at hj
    rcases eq_or_ne j i with rfl | hne
    · rw [update_self] at hj
      cases hj
    · rw [update_of_ne hne] at hj
      exact hs j _ _ hj
  · rw [Accounted, leave, SpipeDev.Untouched]
    cases hc : s.dev.calls i with
    | write phase whole left nonblock =>
      have hcount := hs i _ _ (SpipeDev.rests_of_call hc)
      refine (accounted_append (some _)).trans (and_congr_right fun _ => ?_)
      simp only [Option.mem_def, Option.some.injEq, forall_eq', WriteReturn.Accounted, hret,
        SpipeCall.rest, Prod.mk.injEq]
      constructor
      · rintro h _ _ ⟨rfl, rfl⟩
        omega
      · intro h
        have := h _ _ ⟨rfl, rfl⟩
        omega
    | _ => exact (and_iff_left nofun).symm

theorem clearAbort_eq : (s.clearAbort i).dev = s.dev ∧ (s.clearAbort i).stored = s.stored ∧
    (s.clearAbort i).returns = s.returns := by
  unfold clearAbort
  split <;> exact ⟨rfl, rfl, rfl⟩

/-- What a step keeps, and when what writes return keeps to what they stored. -/
theorem go_law {k k' : ℕ} (hs : s.Counted) (h : s.go g w i k k' = some s') :
    s'.Counted ∧ (s'.Accounted ↔ s.Accounted ∧ s.StepOk w (.dev (.go i k k'))) := by
  rw [go] at h
  rw [StepOk]
  by_cases ha : s.aborted i = true
  · rw [if_pos ha] at h
    cases h
    rw [if_pos ha]
    exact leave_law hs rfl
  · rw [if_neg ha, Option.map_eq_some_iff] at h
    obtain ⟨dev, hgo, rfl⟩ := h
    obtain ⟨hdev, hstored, hreturns⟩ := s.clearAbort_eq (i := i)
    rw [if_neg ha]
    have hclear : (s.clearAbort i).Counted := by rwa [Counted, hdev, hstored]
    have := took_law (g := g) (w := w) hclear (hdev ▸ SpipeDev.go_goes hgo)
    rwa [hdev, Accounted.eq_def (s.clearAbort i), hreturns] at this

/-- A step that is not of a write that has begun. -/
theorem still_law (hs : s.Counted) (hdev : s.dev.Still s'.dev) (hstored : s'.stored = s.stored)
    (hreturns : s'.returns = s.returns) : s'.Counted ∧ (s'.Accounted ↔ s.Accounted) :=
  ⟨hs.of_still hdev fun i _ => by rw [hstored], by rw [Accounted, hreturns, Accounted]⟩

theorem abortRead_still (k : ℕ) : s.dev.Still (s.abortRead k).dev ∧
    (s.abortRead k).stored = s.stored ∧ (s.abortRead k).returns = s.returns := by
  unfold abortRead
  split_ifs
  · exact ⟨.refl, rfl, rfl⟩
  · exact ⟨SpipeDev.still_postRead k, rfl, rfl⟩

theorem abortWrite_still (k : ℕ) : s.dev.Still (s.abortWrite k).dev ∧
    (s.abortWrite k).stored = s.stored ∧ (s.abortWrite k).returns = s.returns := by
  unfold abortWrite
  split_ifs
  · exact ⟨.refl, rfl, rfl⟩
  · exact ⟨SpipeDev.still_postWrite k, rfl, rfl⟩

theorem waitAbort_law (hs : s.Counted) {rabort wabort : Bool} {k k' : ℕ}
    (h : s.step g w (.waitAbort rabort wabort k k') = some s') :
    s'.Counted ∧ (s'.Accounted ↔ s.Accounted) := by
  simp only [step, Option.some.injEq] at h
  obtain ⟨hdev, hstored, hreturns⟩ : s.dev.Still (if rabort then s.abortRead k else s).dev ∧
      (if rabort then s.abortRead k else s).stored = s.stored ∧
      (if rabort then s.abortRead k else s).returns = s.returns := by
    split_ifs
    · exact abortRead_still k
    · exact ⟨.refl, rfl, rfl⟩
  generalize (if rabort then s.abortRead k else s) = s₁ at h hdev hstored hreturns
  have hlaw := still_law hs hdev hstored hreturns
  subst h
  split_ifs
  · obtain ⟨hdev', hstored', hreturns'⟩ := s₁.abortWrite_still k'
    exact still_law hs (hdev.trans hdev') (hstored'.trans hstored) (hreturns'.trans hreturns)
  · exact hlaw

/-- The write of a thread that begins one. -/
theorem write_law (hs : s.Counted) {data : List β} {nonblock : Bool}
    (h : s.step g w (.dev (.write i data nonblock)) = some s') :
    s'.Counted ∧ (s'.Accounted ↔ s.Accounted) := by
  simp only [step, SpipeDev.step, Option.map_eq_some_iff] at h
  obtain ⟨dev, hdev, rfl⟩ := h
  split at hdev
  · split_ifs at hdev
    cases hdev
    refine ⟨fun j whole left hj => ?_, .rfl⟩
    dsimp only at hj ⊢
    rw [SpipeDev.setCall_rests] at hj
    rcases eq_or_ne j i with rfl | hne
    · rw [update_self] at hj ⊢
      cases hj
      exact Nat.zero_add _
    · rw [update_of_ne hne] at hj ⊢
      exact hs j _ _ hj
  · cases hdev

/-- The other steps of the device. -/
theorem dev_still {e : SpipeEvent β} {dev : SpipeDev β} (h : s.dev.step g e = some dev)
    (hgo : ∀ i k k', e ≠ .go i k k') (hwrite : ∀ i data nonblock, e ≠ .write i data nonblock)
    (htimeout : ∀ i, e ≠ .timeout i) : s.dev.Still dev := by
  cases e with
  | read i stMaxBytes nonblock nosig =>
    simp only [SpipeDev.step] at h
    split at h
    case h_1 hc =>
      split_ifs at h
      cases h
      exact SpipeDev.still_setCall (by rw [SpipeDev.rests, hc]; rfl)
    case h_2 => cases h
  | write i data nonblock => exact absurd rfl (hwrite i data nonblock)
  | flush i =>
    simp only [SpipeDev.step] at h
    split at h
    case h_1 hc =>
      cases h
      exact ⟨(SpipeDev.still_setCall (c := .flush) (by rw [SpipeDev.rests, hc]; rfl)).rests, rfl⟩
    case h_2 => cases h
  | go i k k' => exact absurd rfl (hgo i k k')
  | timeout i => exact absurd rfl (htimeout i)
  | openFile mode =>
    cases h
    exact SpipeDev.still_incCnt mode
  | closeFile mode k k' =>
    simp only [SpipeDev.step, Option.map_eq_some_iff] at h
    obtain ⟨s₁, h₁, rfl⟩ := h
    exact (SpipeDev.still_decCnt h₁).trans (SpipeDev.still_closed k k')

theorem step_law {e : SpipeIoEvent β} (hs : s.Counted) (h : s.step g w e = some s') :
    s'.Counted ∧ (s'.Accounted ↔ s.Accounted ∧ s.StepOk w e) := by
  have hstill {e : SpipeEvent β} (h : (s.dev.step g e).map (fun dev => { s with dev }) = some s')
      (hgo : ∀ i k k', e ≠ .go i k k') (hwrite : ∀ i data nonblock, e ≠ .write i data nonblock)
      (htimeout : ∀ i, e ≠ .timeout i) : s'.Counted ∧ (s'.Accounted ↔ s.Accounted ∧ True) := by
    obtain ⟨dev, hdev, rfl⟩ := Option.map_eq_some_iff.mp h
    rw [and_true]
    exact still_law hs (dev_still hdev hgo hwrite htimeout) rfl rfl
  cases e with
  | dev e =>
    cases e with
    | go i k k' => exact go_law hs h
    | write i data nonblock =>
      exact (write_law hs h).imp_right fun h => h.trans (and_iff_left trivial).symm
    | timeout i =>
      obtain ⟨dev, hdev, rfl⟩ := Option.map_eq_some_iff.mp h
      exact took_law hs (SpipeDev.timeout_goes hdev)
    | read i n nonblock nosig => exact hstill (e := .read i n nonblock nosig) h nofun nofun nofun
    | flush i => exact hstill (e := .flush i) h nofun nofun nofun
    | openFile mode => exact hstill (e := .openFile mode) h nofun nofun nofun
    | closeFile mode k k' => exact hstill (e := .closeFile mode k k') h nofun nofun nofun
  | refused =>
    cases h
    refine ⟨hs, (accounted_append (some ⟨-1, 0⟩)).trans ?_⟩
    refine and_congr_right fun _ => iff_of_true ?_ trivial
    rintro r ⟨⟩
    rfl
  | waitAbort rabort wabort k k' =>
    exact (waitAbort_law hs h).imp_right fun h => h.trans (and_iff_left trivial).symm
  | lockFails i =>
    simp only [step] at h
    split at h
    · cases h
      exact leave_law hs rfl
    · cases h
      exact leave_law hs rfl
    · cases h

/-- The device is right with aborts as well. -/
theorem step_inv {e : SpipeIoEvent β} (hs : s.dev.Inv g) (h : s.step g w e = some s') :
    s'.dev.Inv g := by
  cases e with
  | dev e =>
    cases e with
    | go i k k' =>
      simp only [step, go] at h
      split_ifs at h
      · cases h
        exact hs.goOn i (.inl rfl)
      · obtain ⟨dev, hgo, rfl⟩ := Option.map_eq_some_iff.mp h
        exact hs.go hgo
    | _ =>
      simp only [step, Option.map_eq_some_iff] at h
      obtain ⟨dev, hdev, rfl⟩ := h
      exact hs.step hdev
  | refused =>
    cases h
    exact hs
  | waitAbort rabort wabort k k' =>
    cases h
    have hread : (if rabort then s.abortRead k else s).dev.Inv g := by
      unfold abortRead
      split_ifs
      · exact hs
      · exact hs.postRead k
      · exact hs
    unfold abortWrite
    generalize (if rabort then s.abortRead k else s) = s₁ at hread
    split_ifs
    · exact hread
    · exact hread.postWrite k'
    · exact hread
  | lockFails i =>
    simp only [step] at h
    split at h
    · cases h
      exact hs.goOn i (.inl rfl)
    · cases h
      exact hs.goOn i (.inl rfl)
    · cases h

theorem spipe_io_safe
    (h : Reach (fun s : SpipeIo β => s.step g w) (fun _ _ => True) (Init g) s) : s.dev.Safe g := by
  have hinv : s.dev.Inv g := by
    induction h with
    | start hinit => exact hinit.dev.inv
    | step _ _ hstep ih => exact step_inv ih hstep
  exact hinv.safe

theorem Init.counted (h : s.Init g) : s.Counted := by
  intro i whole left hi
  rw [SpipeDev.rests, h.dev.calls] at hi
  cases hi

/-- In a run, what the callers of `_SpipeWrite` can tell from its values is what was stored exactly if no
write is aborted, loses its readers or fails to lock after it has stored something, and no count is too
large for an `ssize_t`. -/
theorem spipe_write_accounts_iff {es : List (SpipeIoEvent β)} (hinit : s.Init g)
    (hrun : runs (fun s : SpipeIo β => s.step g w) s es = some s') :
    (∀ r ∈ s'.returns, r.Accounted) ↔
      Along (fun s : SpipeIo β => s.step g w) (fun s => s.StepOk w) s es := by
  have hnone : s.Accounted := by
    rw [Accounted, hinit.returns]
    exact nofun
  have := Along.iff_of_step (P := Accounted) (fun s e s' hs h => (step_law hs h).1)
    (fun s e s' hs h => (step_law hs h).2) hinit.counted hrun
  exact this.trans (and_iff_right hnone)

/-- `API_SpipeDevCreate`, with `z` in the buffer. -/
def spipeIoCreate (z : β) (stBufferByteSize : ℕ) : SpipeIo β where
  dev := SpipeDev.spipeDevCreate z stBufferByteSize
  rabort := false
  wabort := false
  stored _ := 0
  returns := []

theorem spipeIoCreate_init {z : β} {stBufferByteSize : ℕ} (h : g.pipeBuf ≤ stBufferByteSize) :
    (spipeIoCreate z stBufferByteSize).Init g := ⟨SpipeDev.spipeDevCreate_init h, rfl⟩

theorem spipe_io_safe_aborted : ∃ (es : List (SpipeIoEvent ℕ)) (s : SpipeIo ℕ),
    runs (fun s : SpipeIo ℕ => s.step SpipeDev.twoBytes 64) (spipeIoCreate 0 3) es = some s ∧
      s.dev.Safe SpipeDev.twoBytes := by
  have hrun : runs (fun s : SpipeIo ℕ => s.step SpipeDev.twoBytes 64) (spipeIoCreate 0 3)
      [.dev (.openFile .rdwr), .dev (.write 0 [1, 2, 3, 4, 5] false), .dev (.go 0 0 0),
        .dev (.go 0 0 0), .waitAbort true true 0 0] = some _ := rfl
  exact ⟨_, _, hrun, spipe_io_safe (Reach.of_runs (.start (spipeIoCreate_init (by decide))) hrun)⟩

/-- Five bytes are written in two sections; another write of five does not wait when two are left. -/
theorem spipe_write_accounts_five : ∃ (es : List (SpipeIoEvent ℕ)) (s : SpipeIo ℕ),
    runs (fun s : SpipeIo ℕ => s.step SpipeDev.twoBytes 64) (spipeIoCreate 0 3) es = some s ∧
      s.returns.map WriteReturn.sstRet = [5, 3] ∧
      Along (fun s : SpipeIo ℕ => s.step SpipeDev.twoBytes 64) (fun s => s.StepOk 64)
        (spipeIoCreate 0 3) es := by
  have hrun : runs (fun s : SpipeIo ℕ => s.step SpipeDev.twoBytes 64) (spipeIoCreate 0 3)
      [.dev (.openFile .rdwr), .dev (.write 0 [1, 2, 3, 4, 5] false), .dev (.go 0 0 0),
        .dev (.go 0 0 0), .dev (.read 1 3 false false), .dev (.go 1 0 0), .dev (.go 1 0 0),
        .dev (.go 0 0 0), .dev (.go 0 0 0), .dev (.read 1 3 false false), .dev (.go 1 0 0),
        .dev (.go 1 0 0), .dev (.write 2 [1, 2, 3, 4, 5] true), .dev (.go 2 0 0), .dev (.go 2 0 0),
        .dev (.go 2 0 0), .dev (.go 2 0 0), .dev (.go 2 0 0)] = some _ := rfl
  refine ⟨_, _, hrun, by decide +kernel, ?_⟩
  exact (spipe_write_accounts_iff (spipeIoCreate_init (by decide)) hrun).mp (by decide +kernel)

/-- The last reader closes after a write has stored three of its bytes. -/
theorem not_spipe_write_accounts : ¬ ∀ (g : SpipeConf) (w : ℕ) (s s' : SpipeIo ℕ)
    (es : List (SpipeIoEvent ℕ)), s.Init g →
    runs (fun s : SpipeIo ℕ => s.step g w) s es = some s' → ∀ r ∈ s'.returns, r.Accounted := by
  intro h
  have hrun : runs (fun s : SpipeIo ℕ => s.step SpipeDev.twoBytes 64) (spipeIoCreate 0 3)
      [.dev (.openFile .rdonly), .dev (.openFile .wronly), .dev (.write 0 [1, 2, 3, 4, 5] false),
        .dev (.go 0 0 0), .dev (.go 0 0 0), .dev (.closeFile .rdonly 0 0), .dev (.go 0 0 0)] =
      some _ := rfl
  have := h _ _ _ _ _ (spipeIoCreate_init (by decide)) hrun ⟨-1, 3⟩ (List.mem_singleton_self _)
  cases this

end SpipeIo

end SylixOS.Pipe
