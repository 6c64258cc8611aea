import SylixOS.Pipe.Spipe

/-! # Waiting threads of a stream pipe

A semaphore is posted when bytes or room come up, when there are more of them, and once when the last
file of the other side is closed. A thread that finds nothing clears it. So a thread that looks and does
not post, because the other side is closed, must not be the last to look while others wait.
-/

namespace SylixOS.Pipe
open Lib Function

variable {β : Type*}

namespace SpipeDev

/-- No thread that is in a call can go on. -/
def Quiet (g : SpipeConf) (s : SpipeDev β) : Prop := ∀ i k k', s.go g i k k' = none

/-- When all threads wait, the readers wait for bytes and the writers for room, and the other side is
open. -/
structure NotLost (g : SpipeConf) (s : SpipeDev β) : Prop where
  readers : s.Quiet g → ∀ i, (s.calls i).reader = .wait →
    s.ring.stMsgBytes = 0 ∧ s.uiWriteCnt ≠ 0
  writers : s.Quiet g → ∀ i, (s.calls i).writer = .wait →
    s.ring.stTotalBytes - s.ring.stMsgBytes < g.pipeBuf ∧ s.uiReadCnt ≠ 0

/-- The thread `i` is not missed: a token or a flush that posts one is left for the others, another of
them will look, or none of them waits. -/
def NotMissed (token : Prop) (phase : ℕ → Phase) (i : ℕ) : Prop :=
  token ∨ (∃ j ≠ i, phase j = .ready) ∨ ∀ j ≠ i, phase j ≠ .pend ∧ phase j ≠ .wait

def readers (s : SpipeDev β) (i : ℕ) : Phase := (s.calls i).reader

def writers (s : SpipeDev β) (i : ℕ) : Phase := (s.calls i).writer

/-- A flush has not posted yet. -/
def Flushing (s : SpipeDev β) : Prop := ∃ i, s.calls i = .flush

/-- A reader that leaves no bytes when no write end is open, and a writer that finds no read end open,
are not missed. -/
def StepOk (s : SpipeDev β) : SpipeEvent β → Prop
  | .go i _ _ =>
    (∀ stMaxBytes nonblock nosig, s.calls i = .read .ready stMaxBytes nonblock nosig →
      s.ring.stMsgBytes ≤ stMaxBytes → s.uiWriteCnt = 0 →
      NotMissed (s.ring.stMsgBytes ≠ 0 ∧ s.hReadLock.counter = true) s.readers i) ∧
    (∀ whole left nonblock, s.calls i = .write .ready whole left nonblock → s.uiReadCnt = 0 →
      NotMissed (s.Flushing ∨ s.hWriteLock.counter = true) s.writers i)
  | _ => True

variable {g : SpipeConf} {s s' : SpipeDev β} {i : ℕ} {c : SpipeCall β}

/-! ## Phases -/

theorem setCall_readers : (s.setCall i c).readers = update s.readers i c.reader := by
  funext j
  rcases eq_or_ne j i with rfl | hne
  · simp [readers, setCall]
  · simp [readers, setCall, hne]

theorem setCall_writers : (s.setCall i c).writers = update s.writers i c.writer := by
  funext j
  rcases eq_or_ne j i with rfl | hne
  · simp [writers, setCall]
  · simp [writers, setCall, hne]

theorem setCall_readers_of_eq (h : c.reader = s.readers i) : (s.setCall i c).readers = s.readers := by
  rw [setCall_readers, h, update_eq_self]

theorem setCall_writers_of_eq (h : c.writer = s.writers i) : (s.setCall i c).writers = s.writers := by
  rw [setCall_writers, h, update_eq_self]

theorem Flushing.setCall (h : s.Flushing) (hi : s.calls i ≠ .flush) : (s.setCall i c).Flushing := by
  obtain ⟨j, hj⟩ := h
  refine ⟨j, ?_⟩
  have hne : j ≠ i := by
    rintro rfl
    exact hi hj
  simpa [SpipeDev.setCall, hne] using hj

/-- A reader that is woken looks again. -/
theorem wake_reader {w : Option ℕ} (hw : ∀ i, w = some i → s.readers i = .wait) :
    (s.wake w).readers = Token.woken s.readers w ∧ (s.wake w).writers = s.writers ∧
      (s.Flushing → (s.wake w).Flushing) := by
  cases w with
  | none => exact ⟨rfl, rfl, id⟩
  | some i =>
    have hi := hw i rfl
    cases hc : s.calls i with
    | read phase n nonblock nosig =>
      have hwriter : SpipeCall.writer (.read .ready n nonblock nosig : SpipeCall β) = s.writers i := by
        simp [writers, hc, SpipeCall.writer]
      refine ⟨?_, ?_, fun h => h.setCall (by simp [hc])⟩
      · rw [wake_some, setCall_readers, hc]
        rfl
      · rw [wake_some, setCall_writers, hc, SpipeCall.woken, hwriter, update_eq_self]
    | _ => simp [readers, hc, SpipeCall.reader] at hi

/-- A writer that is woken looks again. -/
theorem wake_writer {w : Option ℕ} (hw : ∀ i, w = some i → s.writers i = .wait) :
    (s.wake w).writers = Token.woken s.writers w ∧ (s.wake w).readers = s.readers ∧
      (s.Flushing → (s.wake w).Flushing) := by
  cases w with
  | none => exact ⟨rfl, rfl, id⟩
  | some i =>
    have hi := hw i rfl
    cases hc : s.calls i with
    | write phase whole left nonblock =>
      have hreader : SpipeCall.reader (.write .ready whole left nonblock) = s.readers i := by
        simp [readers, hc, SpipeCall.reader]
      refine ⟨?_, ?_, fun h => h.setCall (by simp [hc])⟩
      · rw [wake_some, setCall_writers, hc]
        rfl
      · rw [wake_some, setCall_readers, hc, SpipeCall.woken, hreader, update_eq_self]
    | _ => simp [writers, hc, SpipeCall.writer] at hi

/-! ## The invariant -/

/-- The semaphores fit what threads do. -/
structure Fits (s : SpipeDev β) : Prop where
  readers : s.hReadLock.Fits s.readers
  writers : s.hWriteLock.Fits s.writers

/-- The readers are covered when there are bytes or no write end is open. -/
def CoversR (s : SpipeDev β) : Prop :=
  s.ring.stMsgBytes ≠ 0 ∨ s.uiWriteCnt = 0 → s.hReadLock.Covers s.readers

/-- The writers are covered, or a flush will post, when there is room or no read end is open. -/
def CoversW (g : SpipeConf) (s : SpipeDev β) : Prop :=
  g.pipeBuf ≤ s.ring.stTotalBytes - s.ring.stMsgBytes ∨ s.uiReadCnt = 0 →
    s.Flushing ∨ s.hWriteLock.Covers s.writers

structure Wake (g : SpipeConf) (s : SpipeDev β) : Prop extends Fits s where
  coversR : s.CoversR
  coversW : s.CoversW g

theorem Init.wake (h : s.Init g) : s.Wake g where
  readers := by
    rw [h.hReadLock]
    exact .start fun i => by simp [SpipeDev.readers, h.calls, SpipeCall.reader]
  writers := by
    rw [h.hWriteLock]
    exact .start fun i => by simp [SpipeDev.writers, h.calls, SpipeCall.writer]
  coversR _ := by
    rintro ⟨i, hi⟩
    simp [SpipeDev.readers, h.calls, SpipeCall.reader] at hi
  coversW _ := by
    right
    rintro ⟨i, hi⟩
    simp [SpipeDev.writers, h.calls, SpipeCall.writer] at hi

/-- When no thread can go on, all that are in a call wait. -/
theorem Quiet.phase (hq : s.Quiet g) (j : ℕ) : (s.readers j = .away ∨ s.readers j = .wait) ∧
    (s.writers j = .away ∨ s.writers j = .wait) ∧ s.calls j ≠ .flush := by
  have h := hq j 0 0
  cases hc : s.calls j with
  | idle => simp [SpipeDev.readers, SpipeDev.writers, hc, SpipeCall.reader, SpipeCall.writer]
  | flush => simp [go, hc] at h
  | read phase _ _ _ =>
    cases phase with
    | wait => simp [SpipeDev.readers, SpipeDev.writers, hc, SpipeCall.reader, SpipeCall.writer]
    | _ => simp [go, hc] at h
  | write phase _ _ _ =>
    cases phase with
    | wait => simp [SpipeDev.readers, SpipeDev.writers, hc, SpipeCall.reader, SpipeCall.writer]
    | _ => simp [go, hc] at h

/-- A thread that waits when all others do is not covered. -/
theorem Wake.notLost (hs : s.Wake g) : s.NotLost g where
  readers hq i hi := by
    have hnot := hs.readers.not_covers hi fun j => (hq.phase j).1
    exact ⟨by_contra fun h => hnot (hs.coversR (.inl h)), fun h => hnot (hs.coversR (.inr h))⟩
  writers hq i hi := by
    have hnot := hs.writers.not_covers hi fun j => (hq.phase j).2.1
    have hflush : ¬ s.Flushing := fun ⟨j, hj⟩ => (hq.phase j).2.2 hj
    refine ⟨Nat.lt_of_not_le fun h => ?_, fun h => ?_⟩
    · exact hnot ((hs.coversW (.inl h)).resolve_left hflush)
    · exact hnot ((hs.coversW (.inr h)).resolve_left hflush)

/-! ## Posts -/

section Posts
variable (hs : s.Fits) (k k' : ℕ)
include hs

theorem Fits.postRead_readers :
    (s.postRead k).readers = Token.woken s.readers (s.hReadLock.post k).2 :=
  (wake_reader fun _ => hs.readers.wait_of_post).1

theorem Fits.postRead_writers : (s.postRead k).writers = s.writers :=
  (wake_reader (w := (s.hReadLock.post k).2) fun _ => hs.readers.wait_of_post).2.1

theorem Fits.postRead_flushing : s.Flushing → (s.postRead k).Flushing :=
  (wake_reader (w := (s.hReadLock.post k).2) fun _ => hs.readers.wait_of_post).2.2

theorem Fits.postWrite_writers :
    (s.postWrite k).writers = Token.woken s.writers (s.hWriteLock.post k).2 :=
  (wake_writer fun _ => hs.writers.wait_of_post).1

theorem Fits.postWrite_readers : (s.postWrite k).readers = s.readers :=
  (wake_writer (w := (s.hWriteLock.post k).2) fun _ => hs.writers.wait_of_post).2.1

theorem Fits.postRead : (s.postRead k).Fits where
  readers := by rw [hs.postRead_readers]; exact hs.readers.post k
  writers := by rw [hs.postRead_writers]; exact hs.writers

theorem Fits.postWrite : (s.postWrite k).Fits where
  readers := by rw [hs.postWrite_readers]; exact hs.readers
  writers := by rw [hs.postWrite_writers]; exact hs.writers.post k

theorem Fits.coversR_postRead : (s.postRead k).CoversR := fun _ => by
  rw [hs.postRead_readers]
  exact .post hs.readers k

theorem Fits.coversW_postWrite : (s.postWrite k).CoversW g := fun _ => .inr (by
  rw [hs.postWrite_writers]
  exact .post hs.writers k)

/-- A post to the readers leaves the writers as they were. -/
theorem Fits.coversW_postRead (h : s.CoversW g) : (s.postRead k).CoversW g := fun hc =>
  (h hc).imp (hs.postRead_flushing k) fun h => by rw [hs.postRead_writers]; exact h

/-- A post to the writers leaves the readers as they were. -/
theorem Fits.coversR_postWrite (h : s.CoversR) : (s.postWrite k).CoversR := fun hc => by
  rw [hs.postWrite_readers]
  exact h hc

/-- Posts that cover the writers when `p` and the readers when `q`. -/
theorem Fits.wake_of_posts {p q : Prop} [Decidable p] [Decidable q] (hr : ¬ q → s.CoversR)
    (hw : ¬ p → s.CoversW g) {s₁ : SpipeDev β} (hs₁ : s₁ = if p then s.postWrite k else s) :
    Wake g (if q then s₁.postRead k' else s₁) := by
  have h₁ : s₁.Fits ∧ (s.CoversR → s₁.CoversR) ∧ s₁.CoversW g := by
    subst hs₁
    split_ifs with hp
    · exact ⟨hs.postWrite k, hs.coversR_postWrite k, hs.coversW_postWrite k⟩
    · exact ⟨hs, id, hw hp⟩
  obtain ⟨hfits, hR, hW⟩ := h₁
  split_ifs with hq
  · exact ⟨hfits.postRead k', hfits.coversR_postRead k', hfits.coversW_postRead k' hW⟩
  · exact ⟨hfits, hR (hr hq), hW⟩

/-- The same in the other order. -/
theorem Fits.wake_of_posts' {p q : Prop} [Decidable p] [Decidable q] (hr : ¬ p → s.CoversR)
    (hw : ¬ q → s.CoversW g) {s₁ : SpipeDev β} (hs₁ : s₁ = if p then s.postRead k else s) :
    Wake g (if q then s₁.postWrite k' else s₁) := by
  have h₁ : s₁.Fits ∧ s₁.CoversR ∧ (s.CoversW g → s₁.CoversW g) := by
    subst hs₁
    split_ifs with hp
    · exact ⟨hs.postRead k, hs.coversR_postRead k, hs.coversW_postRead k⟩
    · exact ⟨hs, hr hp, id⟩
  obtain ⟨hfits, hR, hW⟩ := h₁
  split_ifs with hq
  · exact ⟨hfits.postWrite k', hfits.coversR_postWrite k' hR, hfits.coversW_postWrite k'⟩
  · exact ⟨hfits, hR, hW (hw hq)⟩

variable {k k'} {b : Bool}

/-- The posts of a read, after which the readers need not be called when nothing is left. -/
theorem Fits.readNotify (hg : g.multiEn = true)
    (hr : s.ring.stMsgBytes = 0 → s.uiWriteCnt = 0 → s.hReadLock.Covers s.readers)
    (hw : b = true ∨ s.uiReadCnt = 0 → s.Flushing ∨ s.hWriteLock.Covers s.writers) :
    (s.readNotify g b k k').Wake g := by
  refine hs.wake_of_posts k k' (fun hq hc => ?_) (fun hp hc => ?_) rfl
  · have hmsg : s.ring.stMsgBytes = 0 := by
      by_contra h
      refine hq ⟨hg, ?_⟩
      split_ifs <;> exact decide_eq_true h
    exact hr hmsg (hc.resolve_left (not_not.mpr hmsg))
  · refine hw (hc.imp_left fun h => ?_)
    by_contra hb
    exact hp ⟨decide_eq_true h, Bool.eq_false_iff.mpr hb⟩

/-- The posts of a section of a write. -/
theorem Fits.writeNotify (hg : g.multiEn = true)
    (hr : b = true ∨ s.uiWriteCnt = 0 → s.hReadLock.Covers s.readers)
    (hw : s.uiReadCnt = 0 → s.Flushing ∨ s.hWriteLock.Covers s.writers) :
    (s.writeNotify g b k k').Wake g := by
  refine hs.wake_of_posts' k k' (fun hp hc => ?_) (fun hq hc => ?_) rfl
  · refine hr (hc.imp_left fun h => ?_)
    by_contra hb
    exact hp ⟨decide_eq_true h, Bool.eq_false_iff.mpr hb⟩
  · refine hw (hc.resolve_left fun h => hq ⟨hg, ?_⟩)
    split_ifs <;> exact decide_eq_true h

/-- The posts of a close, which cover those that have lost the other side. -/
theorem Fits.closed (hr : s.ring.stMsgBytes ≠ 0 → s.hReadLock.Covers s.readers)
    (hw : g.pipeBuf ≤ s.ring.stTotalBytes - s.ring.stMsgBytes →
      s.Flushing ∨ s.hWriteLock.Covers s.writers) : (s.closed k k').Wake g := by
  refine hs.wake_of_posts' k k' (fun hp hc => hr (hc.resolve_right hp))
    (fun hq hc => hw (hc.resolve_right fun h => hq ?_)) rfl
  split_ifs <;> exact h

end Posts

/-! ## Steps -/

section Moves
variable (hs : s.Fits)
include hs

/-- A thread that does not wait goes on as a reader. -/
theorem Fits.moveR (hi : s.readers i ≠ .wait) (hc : c.reader ≠ .wait)
    (hw : c.writer = s.writers i) : (s.setCall i c).Fits where
  readers := by rw [setCall_readers]; exact hs.readers.move hi hc
  writers := by rw [setCall_writers_of_eq hw]; exact hs.writers

/-- A thread that does not wait goes on as a writer. -/
theorem Fits.moveW (hi : s.writers i ≠ .wait) (hc : c.writer ≠ .wait)
    (hr : c.reader = s.readers i) : (s.setCall i c).Fits where
  readers := by rw [setCall_readers_of_eq hr]; exact hs.readers
  writers := by rw [setCall_writers]; exact hs.writers.move hi hc

end Moves

theorem CoversW.moveR (h : s.CoversW g) (hw : c.writer = s.writers i) (hf : s.calls i ≠ .flush) :
    (s.setCall i c).CoversW g := fun hc =>
  (h hc).imp (·.setCall hf) fun h => by
    rw [setCall_writers_of_eq hw]
    exact h

theorem CoversR.moveW (h : s.CoversR) (hr : c.reader = s.readers i) : (s.setCall i c).CoversR :=
  fun hc => by
    rw [setCall_readers_of_eq hr]
    exact h hc

/-- A thread that is away from both semaphores stays away. -/
theorem Wake.away (hs : s.Wake g) (hr : s.readers i = .away) (hw : s.writers i = .away)
    (hf : s.calls i ≠ .flush) (hcr : c.reader = .away) (hcw : c.writer = .away) :
    (s.setCall i c).Wake g where
  toFits := hs.moveR (by simp [hr]) (by simp [hcr]) (hcw.trans hw.symm)
  coversR := hs.coversR.moveW (hcr.trans hr.symm)
  coversW := hs.coversW.moveR (hcw.trans hw.symm) hf

section Read
variable {n : ℕ} {phase : Phase} {nonblock nosig : Bool}

theorem readers_of_call (hc : s.calls i = .read phase n nonblock nosig) :
    s.readers i = phase ∧ s.writers i = .away ∧ s.calls i ≠ .flush := by
  simp [SpipeDev.readers, SpipeDev.writers, hc, SpipeCall.reader, SpipeCall.writer]

theorem Wake.readStart (hs : s.Wake g) (hc : s.calls i = .read .away n nonblock nosig) :
    (s.readStart i n nonblock nosig).Wake g := by
  obtain ⟨hr, hw, hf⟩ := readers_of_call hc
  unfold SpipeDev.readStart
  split_ifs
  · exact hs.away hr hw hf rfl rfl
  · refine ⟨hs.moveR (by simp [hr]) nofun hw.symm, fun _ => ?_, hs.coversW.moveR hw.symm hf⟩
    rw [setCall_readers]
    exact .of_ready (update_self ..)

theorem Fits.clearRead (hs : s.Fits) (hg : g.multiEn = true) :
    s.clearRead g = { s with hReadLock := s.hReadLock.clear } ∧
      Fits { s with hReadLock := s.hReadLock.clear } :=
  ⟨if_pos hg, hs.readers.clear, hs.writers⟩

theorem Wake.readSection (hs : s.Wake g) (hg : g.multiEn = true)
    (hc : s.calls i = .read .ready n nonblock nosig) (k k' : ℕ)
    (hok : s.ring.stMsgBytes ≤ n → s.uiWriteCnt = 0 →
      NotMissed (s.ring.stMsgBytes ≠ 0 ∧ s.hReadLock.counter = true) s.readers i) :
    (s.readSection g i n nonblock nosig k k').Wake g := by
  obtain ⟨hr, hw, hf⟩ := readers_of_call hc
  obtain ⟨hclear, hfits⟩ := hs.clearRead hg
  unfold SpipeDev.readSection
  split_ifs with hcan hcnt
  · have hmove : (s.setCall i .idle).Fits := hs.moveR (by simp [hr]) nofun hw.symm
    have htake : (s.readTake i n).Fits := ⟨hmove.readers, hmove.writers⟩
    refine htake.readNotify hg (fun hmsg hcnt => ?_) fun hcond => ?_
    · have hle : s.ring.stMsgBytes ≤ n := by
        simp only [SpipeDev.readTake, RingBuffer.get_stMsgBytes] at hmsg
        omega
      change Token.Covers _ (s.setCall i .idle).readers
      rw [setCall_readers]
      exact Token.Covers.drop ((hok hle hcnt).imp_left And.right)
    · have hcovers : (s.setCall i .idle).CoversW g := hs.coversW.moveR hw.symm hf
      exact hcovers (hcond.imp_left of_decide_eq_true)
  · have hmsg : s.ring.stMsgBytes = 0 := by simpa [canRead] using hcan
    rw [hclear]
    refine ⟨hfits.moveR (by simpa using hr ▸ nofun) nofun hw.symm, fun _ => ?_,
      CoversW.moveR (s := { s with hReadLock := s.hReadLock.clear }) hs.coversW hw.symm hf⟩
    rw [setCall_readers]
    exact Token.Covers.drop (.inr ((hok (by omega) hcnt).resolve_left fun h => h.1 hmsg))
  · have hmsg : s.ring.stMsgBytes = 0 := by simpa [canRead] using hcan
    rw [hclear]
    refine ⟨hfits.moveR (by simpa using hr ▸ nofun) nofun hw.symm, fun hcond => ?_,
      CoversW.moveR (s := { s with hReadLock := s.hReadLock.clear }) hs.coversW hw.symm hf⟩
    exact absurd hcond (not_or.mpr ⟨not_not.mpr hmsg, hcnt⟩)

theorem Wake.readPend (hs : s.Wake g) (hc : s.calls i = .read .pend n nonblock nosig) :
    (s.readPend i n nonblock nosig).Wake g := by
  obtain ⟨hr, hw, hf⟩ := readers_of_call hc
  unfold SpipeDev.readPend
  split_ifs
  · refine ⟨hs.moveR (by simp [hr]) nofun hw.symm, fun hcond => ?_, hs.coversW.moveR hw.symm hf⟩
    rw [setCall_readers]
    exact (hs.coversR hcond).move (.inr rfl) (.inl (by simp [hr]))
  · let c : SpipeCall β := .read (s.hReadLock.pend i).2 n nonblock nosig
    have hr' : (s.setCall i c).readers = _ := setCall_readers
    have hw' : (s.setCall i c).writers = _ := setCall_writers_of_eq hw.symm
    refine ⟨⟨?_, ?_⟩, fun hcond => ?_, hs.coversW.moveR hw.symm hf⟩
    · exact hr' ▸ hs.readers.pend hr
    · exact hw' ▸ hs.writers
    · exact hr' ▸ (hs.coversR hcond).pend hr

theorem Wake.leaveR (hs : s.Wake g) (hc : s.calls i = .read .wait n nonblock nosig) :
    Wake g { s.setCall i .idle with hReadLock := s.hReadLock.leave i } := by
  obtain ⟨hr, hw, hf⟩ := readers_of_call hc
  have hr' : (s.setCall i .idle).readers = _ := setCall_readers
  have hw' : (s.setCall i .idle).writers = _ := setCall_writers_of_eq hw.symm
  refine ⟨⟨?_, ?_⟩, fun hcond => ?_, hs.coversW.moveR hw.symm hf⟩
  · exact hr' ▸ hs.readers.leave
  · exact hw' ▸ hs.writers
  · exact hr' ▸ (hs.coversR hcond).move (.inr rfl) (.inl (by simp [hr]))

end Read

section Write
variable {phase : Phase} {whole left : List β} {nonblock : Bool}

theorem writers_of_call (hc : s.calls i = .write phase whole left nonblock) :
    s.writers i = phase ∧ s.readers i = .away ∧ s.calls i ≠ .flush := by
  simp [SpipeDev.readers, SpipeDev.writers, hc, SpipeCall.reader, SpipeCall.writer]

theorem Wake.continueWrite (hs : s.Wake g) (hc : s.calls i = .write .away whole left nonblock) :
    (s.continueWrite i whole left nonblock).Wake g := by
  obtain ⟨hw, hr, hf⟩ := writers_of_call hc
  unfold SpipeDev.continueWrite
  split_ifs
  · exact hs.away hr hw hf rfl rfl
  · refine ⟨hs.moveW (by simp [hw]) nofun hr.symm, hs.coversR.moveW hr.symm, fun _ => .inr ?_⟩
    rw [setCall_writers]
    exact .of_ready (update_self ..)

theorem Fits.clearWrite (hs : s.Fits) (hg : g.multiEn = true) :
    s.clearWrite g = { s with hWriteLock := s.hWriteLock.clear } ∧
      Fits { s with hWriteLock := s.hWriteLock.clear } :=
  ⟨if_pos hg, hs.readers, hs.writers.clear⟩

theorem Wake.writeSection (hs : s.Wake g) (hg : g.multiEn = true)
    (hc : s.calls i = .write .ready whole left nonblock) (k k' : ℕ)
    (hok : s.uiReadCnt = 0 →
      NotMissed (s.Flushing ∨ s.hWriteLock.counter = true) s.writers i) :
    (s.writeSection g i whole left nonblock k k').Wake g := by
  obtain ⟨hw, hr, hf⟩ := writers_of_call hc
  obtain ⟨hclear, hfits⟩ := hs.clearWrite hg
  unfold SpipeDev.writeSection
  split_ifs with hcnt hfree
  · refine ⟨hs.moveW (by simp [hw]) nofun hr.symm, hs.coversR.moveW hr.symm, fun _ => ?_⟩
    rw [setCall_writers]
    rcases hok hcnt with (hflush | htoken) | hother
    · exact .inl (hflush.setCall hf)
    · exact .inr (.of_counter htoken)
    · exact .inr (Token.Covers.drop (.inr hother))
  · have hidle (c : SpipeCall β) (hcr : c.reader = .away) (hcw : c.writer = .away) :
        (s.setCall i c).Fits ∧ (s.setCall i c).CoversR :=
      ⟨hs.moveW (by simp [hw]) (by simp [hcw]) (hcr.trans hr.symm),
        hs.coversR.moveW (hcr.trans hr.symm)⟩
    obtain ⟨hmove, hcovers⟩ := hidle
      (if left.drop (min left.length (s.ring.stTotalBytes - s.ring.stMsgBytes)) = [] then .idle
        else .write .away whole
          (left.drop (min left.length (s.ring.stTotalBytes - s.ring.stMsgBytes))) nonblock)
      (by split_ifs <;> rfl) (by split_ifs <;> rfl)
    have hput : (s.writePut i whole left nonblock).Fits := ⟨hmove.readers, hmove.writers⟩
    refine hput.writeNotify hg (fun hcond => ?_) fun h => absurd h hcnt
    exact hcovers (hcond.imp_left of_decide_eq_true)
  · rw [hclear]
    refine ⟨hfits.moveW (by simpa using hw ▸ nofun) nofun hr.symm,
      CoversR.moveW (s := { s with hWriteLock := s.hWriteLock.clear }) hs.coversR hr.symm,
      fun hcond => ?_⟩
    have hroom := hcond.resolve_right hcnt
    dsimp only [setCall] at hroom
    omega

theorem Wake.writePend (hs : s.Wake g) (hc : s.calls i = .write .pend whole left nonblock) :
    (s.writePend i whole left nonblock).Wake g := by
  obtain ⟨hw, hr, hf⟩ := writers_of_call hc
  unfold SpipeDev.writePend
  split_ifs
  · refine ⟨hs.moveW (by simp [hw]) nofun hr.symm, hs.coversR.moveW hr.symm, fun hcond => ?_⟩
    refine (hs.coversW hcond).imp (·.setCall hf) fun h => ?_
    rw [setCall_writers]
    exact h.move (.inr rfl) (.inl (by simp [hw]))
  · let c : SpipeCall β := .write (s.hWriteLock.pend i).2 whole left nonblock
    have hw' : (s.setCall i c).writers = _ := setCall_writers
    have hr' : (s.setCall i c).readers = _ := setCall_readers_of_eq hr.symm
    refine ⟨⟨?_, ?_⟩, hs.coversR.moveW hr.symm, fun hcond => ?_⟩
    · exact hr' ▸ hs.readers
    · exact hw' ▸ hs.writers.pend hw
    · exact (hs.coversW hcond).imp (·.setCall hf) fun h => hw' ▸ h.pend hw

theorem Wake.leaveW (hs : s.Wake g) (hc : s.calls i = .write .wait whole left nonblock) :
    Wake g { s.setCall i .idle with hWriteLock := s.hWriteLock.leave i } := by
  obtain ⟨hw, hr, hf⟩ := writers_of_call hc
  have hw' : (s.setCall i .idle).writers = _ := setCall_writers
  have hr' : (s.setCall i .idle).readers = _ := setCall_readers_of_eq hr.symm
  refine ⟨⟨?_, ?_⟩, hs.coversR.moveW hr.symm, fun hcond => ?_⟩
  · exact hr' ▸ hs.readers
  · exact hw' ▸ hs.writers.leave
  · exact (hs.coversW hcond).imp (·.setCall hf) fun h =>
      hw' ▸ h.move (.inr rfl) (.inl (by simp [hw]))

end Write

/-! ## Runs -/

theorem Wake.go (hs : s.Wake g) (hg : g.multiEn = true) {k k' : ℕ} (hok : s.StepOk (.go i k k'))
    (h : s.go g i k k' = some s') : s'.Wake g := by
  unfold SpipeDev.go at h
  split at h
  case h_1 hc => cases h; exact hs.readStart hc
  case h_2 hc => cases h; exact hs.readSection hg hc k k' (hok.1 _ _ _ hc)
  case h_3 hc => cases h; exact hs.readPend hc
  case h_4 hc => cases h; exact hs.continueWrite hc
  case h_5 hc => cases h; exact hs.writeSection hg hc k k' (hok.2 _ _ _ hc)
  case h_6 hc => cases h; exact hs.writePend hc
  case h_7 hc => -- The post of a flush.
    cases h
    have hr : s.readers i = .away := by simp [SpipeDev.readers, hc, SpipeCall.reader]
    have hw : s.writers i = .away := by simp [SpipeDev.writers, hc, SpipeCall.writer]
    have hidle : (s.setCall i .idle).Fits := hs.moveR (by simp [hr]) nofun hw.symm
    exact ⟨hidle.postWrite k, hidle.coversR_postWrite k (hs.coversR.moveW hr.symm),
      hidle.coversW_postWrite k⟩
  case h_8 => cases h

theorem Wake.incCnt (hs : s.Wake g) (mode : SpipeMode) : (s.incCnt mode).Wake g := by
  cases mode with
  | rdonly => exact ⟨⟨hs.readers, hs.writers⟩, hs.coversR, fun h => hs.coversW (h.imp_right nofun)⟩
  | wronly => exact ⟨⟨hs.readers, hs.writers⟩, fun h => hs.coversR (h.imp_right nofun), hs.coversW⟩
  | rdwr =>
    exact ⟨⟨hs.readers, hs.writers⟩, fun h => hs.coversR (h.imp_right nofun),
      fun h => hs.coversW (h.imp_right nofun)⟩

theorem Wake.close (hs : s.Wake g) {mode : SpipeMode} (k k' : ℕ) (h : s.decCnt mode = some s') :
    (s'.closed k k').Wake g := by
  have hr (h : s.ring.stMsgBytes ≠ 0) := hs.coversR (.inl h)
  have hw (h : g.pipeBuf ≤ s.ring.stTotalBytes - s.ring.stMsgBytes) := hs.coversW (.inl h)
  cases mode <;> unfold SpipeDev.decCnt at h <;> split_ifs at h <;> cases h <;>
    refine Fits.closed ⟨?_, ?_⟩ ?_ ?_
  all_goals first | exact hs.readers | exact hs.writers | exact hr | exact hw

theorem Wake.flush (hs : s.Wake g) (hc : s.calls i = .idle) : (s.flush i).Wake g := by
  have hr : s.readers i = .away := by simp [SpipeDev.readers, hc, SpipeCall.reader]
  have hw : s.writers i = .away := by simp [SpipeDev.writers, hc, SpipeCall.writer]
  have hmove : (s.setCall i .flush).Fits := hs.moveR (by simp [hr]) nofun hw.symm
  have hcovers : (s.setCall i .flush).CoversR := hs.coversR.moveW hr.symm
  refine ⟨⟨hmove.readers, hmove.writers⟩, fun hcond => ?_, fun _ => .inl ⟨i, ?_⟩⟩
  · exact hcovers (.inr (hcond.resolve_left fun h => h rfl))
  · simp [SpipeDev.flush, setCall]

theorem Wake.step {e : SpipeEvent β} (hs : s.Wake g) (hg : g.multiEn = true) (hok : s.StepOk e)
    (h : s.step g e = some s') : s'.Wake g := by
  have haway (i : ℕ) (hc : s.calls i = .idle) : s.readers i = .away ∧ s.writers i = .away := by
    simp [SpipeDev.readers, SpipeDev.writers, hc, SpipeCall.reader, SpipeCall.writer]
  cases e with
  | read i n nonblock nosig =>
    simp only [SpipeDev.step] at h
    split at h
    case h_1 hc =>
      split_ifs at h
      cases h
      exact hs.away (haway i hc).1 (haway i hc).2 (by simp [hc]) rfl rfl
    case h_2 => cases h
  | write i data nonblock =>
    simp only [SpipeDev.step] at h
    split at h
    case h_1 hc =>
      split_ifs at h
      cases h
      exact hs.away (haway i hc).1 (haway i hc).2 (by simp [hc]) rfl rfl
    case h_2 => cases h
  | flush i =>
    simp only [SpipeDev.step] at h
    split at h
    case h_1 hc => cases h; exact hs.flush hc
    case h_2 => cases h
  | go i k k' => exact hs.go hg hok h
  | timeout i =>
    simp only [SpipeDev.step] at h
    split at h
    case h_1 hc => cases h; exact hs.leaveR hc
    case h_2 hc => cases h; exact hs.leaveW hc
    case h_3 => cases h
  | openFile mode =>
    cases h
    exact hs.incCnt mode
  | closeFile mode k k' =>
    simp only [SpipeDev.step, Option.map_eq_some_iff] at h
    obtain ⟨s₁, h₁, rfl⟩ := h
    exact hs.close k k' h₁

/-- In a run in which no reader that leaves no bytes when no write end is open, and no writer that finds
no read end open, is missed, no thread waits for what has come up already. -/
theorem spipe_notLost (hg : g.multiEn = true)
    (h : Reach (fun s : SpipeDev β => s.step g) StepOk (Init g) s) : s.NotLost g :=
  (h.invariant (fun _ => Init.wake) fun _ _ _ hs hok hstep => hs.step hg hok hstep).notLost

/-- A reader waits for bytes that another thread then writes, and is woken. -/
theorem spipe_notLost_one : ∃ s : SpipeDev ℕ, s.readers 0 = .ready ∧ s.NotLost twoBytes := by
  have h : Reach (fun s : SpipeDev ℕ => s.step twoBytes) StepOk (Init twoBytes) _ :=
    ((((((((Reach.start (spipeDevCreate_init (z := 0) (by decide : twoBytes.pipeBuf ≤ 3))).extend
      (.openFile .rdwr) trivial rfl).extend
      (.read 0 2 false false) trivial rfl).extend
      (.go 0 0 0) ⟨(by rintro _ _ _ ⟨⟩), (by rintro _ _ _ ⟨⟩)⟩ rfl).extend
      (.go 0 0 0) ⟨(by rintro _ _ _ ⟨⟩ _ ⟨⟩), (by rintro _ _ _ ⟨⟩)⟩ rfl).extend
      (.go 0 0 0) ⟨(by rintro _ _ _ ⟨⟩), (by rintro _ _ _ ⟨⟩)⟩ rfl).extend
      (.write 1 [7] false) trivial rfl).extend
      (.go 1 0 0) ⟨(by rintro _ _ _ ⟨⟩), (by rintro _ _ _ ⟨⟩)⟩ rfl).extend
      (.go 1 0 0) ⟨(by rintro _ _ _ ⟨⟩), (by rintro _ _ _ ⟨⟩ ⟨⟩)⟩ rfl
  exact ⟨_, rfl, spipe_notLost rfl h⟩

/-- Two readers wait, and the last write end is closed. One reader is woken and returns, and the other
goes on waiting. -/
theorem spipe_lost : ∃ s : SpipeDev ℕ,
    Reach (fun s : SpipeDev ℕ => s.step twoBytes) (fun _ _ => True) (Init twoBytes) s ∧
    s.uiWriteCnt = 0 ∧ s.readers 1 = .wait ∧ ¬ s.NotLost twoBytes := by
  have hruns : runs (fun s : SpipeDev ℕ => s.step twoBytes) (spipeDevCreate 0 3)
      [.openFile .rdonly, .openFile .wronly, .read 0 1 false false, .read 1 1 false false,
        .go 0 0 0, .go 0 0 0, .go 0 0 0, .go 1 0 0, .go 1 0 0, .go 1 0 0, .closeFile .wronly 0 0,
        .go 0 0 0] = some _ := rfl
  refine ⟨_, (Reach.start (spipeDevCreate_init (by decide))).of_runs hruns, rfl, rfl, fun hs => ?_⟩
  refine (hs.readers (fun i k k' => ?_) 1 rfl).2 rfl
  rcases i with _ | _ | i <;> rfl

end SpipeDev

end SylixOS.Pipe
