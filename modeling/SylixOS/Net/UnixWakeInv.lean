import SylixOS.Net.UnixWake

/-! # Semaphores of local sockets

What a thread waits for is needed of a semaphore when there are bytes or room, or when nothing more
can come. A thread that waits for something that is needed is covered: the semaphore has a token or is
going to be deleted, or another thread is on its way to look.
-/

namespace SylixOS.Net
open Lib Function

variable {β : Type*} {word : ℕ} {g : UnixConf}

namespace ExSock
variable {k : ExSock β}

/-! ## Receiving -/

section Receive
variable (dup : ℕ → ℤ) (cur len : ℕ) {fuel : ℕ} {flags : UnixFlags} (b : CtlBuf)

theorem recvfromMsg_peek_msgs :
    (recvfromMsg dup cur k len true b).2.2.msgs.length = k.msgs.length := by
  unfold recvfromMsg
  cases hm : k.msgs with
  | nil => simp [hm]
  | cons m msgs => simp

theorem recvfromMsg_iType (peek : Bool) :
    (recvfromMsg dup cur k len peek b).2.2.iType = k.iType := by
  unfold recvfromMsg
  cases hm : k.msgs with
  | nil => rfl
  | cons m msgs =>
    dsimp only
    split_ifs <;> rfl

/-- A receive takes as many bytes out of the socket as it returns. -/
theorem recvfromMsg_unreadLength (h : k.iType ≠ .dgram) :
    k.unreadLength = (recvfromMsg dup cur k len false b).1.length +
      (recvfromMsg dup cur k len false b).2.2.unreadLength := by
  unfold recvfromMsg
  cases hm : k.msgs with
  | nil => simp
  | cons m msgs =>
    have hleft := m.left
    simp only [Bool.false_eq_true, if_false, h, or_false]
    by_cases hlen : m.pcMsg.length - m.stOffset ≤ len
    · rw [dif_pos hlen]
      simp [unreadLength, hm, hlen]
    · rw [dif_neg hlen]
      simp only [unreadLength, hm, List.map_cons, List.sum_cons, List.length_take,
        UnixMsg.unread_length]
      omega

theorem recvfromMsg_length (peek : Bool) :
    (recvfromMsg dup cur k len peek b).1.length ≤ len := by
  unfold recvfromMsg
  cases hm : k.msgs with
  | nil => exact Nat.zero_le _
  | cons m msgs =>
    dsimp only
    split_ifs <;> simp [Nat.min_le_left]

/-- At most one message goes away. -/
theorem recvfromMsg_tail (peek : Bool) :
    k.msgs.length ≤ (recvfromMsg dup cur k len peek b).2.2.msgs.length + 1 := by
  unfold recvfromMsg
  cases hm : k.msgs with
  | nil => simp
  | cons m msgs =>
    dsimp only
    split_ifs <;> simp

theorem recvfromMsg_pos (hm : k.msgs ≠ []) (hlen : 0 < len) (peek : Bool) :
    (recvfromMsg dup cur k len peek b).1 ≠ [] := by
  unfold recvfromMsg
  cases hk : k.msgs with
  | nil => exact absurd hk hm
  | cons m msgs =>
    have hleft := m.left
    have hdata : m.unread.take len ≠ [] := by
      rw [← List.length_pos_iff, List.length_take, UnixMsg.unread_length]
      omega
    dsimp only
    split_ifs <;> exact hdata

theorem recvMore_iType : (recvMore dup cur flags fuel k len b).2.2.iType = k.iType := by
  induction fuel generalizing k len b with
  | zero => rfl
  | succ fuel ih =>
    unfold recvMore
    dsimp only
    by_cases h : k.iType = .stream ∧ (recvfromMsg dup cur k len flags.peek b).1.length < len ∧
        (flags.waitall = true ∨ (recvfromMsg dup cur k len flags.peek b).2.2.msgs ≠ [])
    · rw [if_pos h]
      exact (ih ..).trans (recvfromMsg_iType ..)
    · rw [if_neg h]
      exact recvfromMsg_iType ..

theorem recvMore_peek_msgs (hpeek : flags.peek = true) :
    (recvMore dup cur flags fuel k len b).2.2.msgs.length = k.msgs.length := by
  induction fuel generalizing k len b with
  | zero => rfl
  | succ fuel ih =>
    unfold recvMore
    dsimp only
    rw [hpeek]
    by_cases h : k.iType = .stream ∧ (recvfromMsg dup cur k len true b).1.length < len ∧
        (flags.waitall = true ∨ (recvfromMsg dup cur k len true b).2.2.msgs ≠ [])
    · rw [if_pos h]
      exact (ih ..).trans (recvfromMsg_peek_msgs ..)
    · rw [if_neg h]
      exact recvfromMsg_peek_msgs ..

theorem recvMore_unreadLength (hpeek : flags.peek = false) (h : k.iType ≠ .dgram) :
    k.unreadLength ≤ len + (recvMore dup cur flags fuel k len b).2.2.unreadLength := by
  induction fuel generalizing k len b with
  | zero => exact Nat.le_add_left _ _
  | succ fuel ih =>
    unfold recvMore
    dsimp only
    rw [hpeek]
    have hone := recvfromMsg_unreadLength dup cur len b h
    have hle := recvfromMsg_length (k := k) dup cur len b false
    by_cases hmore : k.iType = .stream ∧ (recvfromMsg dup cur k len false b).1.length < len ∧
        (flags.waitall = true ∨ (recvfromMsg dup cur k len false b).2.2.msgs ≠ [])
    · rw [if_pos hmore]
      have hrest := ih (len - (recvfromMsg dup cur k len false b).1.length)
        (recvfromMsg dup cur k len false b).2.1 ((recvfromMsg_iType dup cur len b false).trans_ne h)
      refine hone.le.trans ((Nat.add_le_add_left hrest _).trans (Nat.le_of_eq ?_))
      rw [← Nat.add_assoc, Nat.add_sub_cancel' hle]
    · rw [if_neg hmore]
      exact hone.le.trans (Nat.add_le_add_right hle _)

theorem recvMore_tail (h : k.iType ≠ .stream) :
    k.msgs.length ≤ (recvMore dup cur flags fuel k len b).2.2.msgs.length + 1 := by
  cases fuel with
  | zero => exact Nat.le_succ _
  | succ fuel =>
    unfold recvMore
    dsimp only
    rw [if_neg fun hc => h hc.1]
    exact recvfromMsg_tail ..

theorem recvMore_pos {len : ℕ} (hm : k.msgs ≠ []) (hlen : 0 < len) :
    (recvMore dup cur flags len k len b).1 ≠ [] := by
  obtain ⟨n, rfl⟩ := Nat.exists_eq_succ_of_ne_zero hlen.ne'
  unfold recvMore
  dsimp only
  have hone := recvfromMsg_pos dup cur _ b hm hlen flags.peek
  split_ifs
  · exact fun hc => hone (List.append_eq_nil_iff.mp hc).1
  · exact hone

/-- A receive that leaves no message is one that takes all. -/
theorem recvMore_takesAll {len : ℕ} {b : CtlBuf} (h : k.iType ≠ .dgram)
    (hnil : (recvMore dup cur flags fuel k len b).2.2.msgs = []) : k.TakesAll flags len := by
  cases hpeek : flags.peek with
  | true =>
    left
    rw [← List.length_eq_zero_iff, ← recvMore_peek_msgs dup cur len b hpeek, hnil]
    rfl
  | false =>
    refine .inr ⟨hpeek, ?_, ?_⟩
    · have hle : k.unreadLength ≤ len + (recvMore dup cur flags fuel k len b).2.2.unreadLength :=
        recvMore_unreadLength dup cur len b hpeek h
      rw [unreadLength.eq_def (recvMore dup cur flags fuel k len b).2.2, hnil] at hle
      exact hle
    · by_cases hs : k.iType = .stream
      · exact .inl hs
      · have hle : k.msgs.length ≤ (recvMore dup cur flags fuel k len b).2.2.msgs.length + 1 :=
          recvMore_tail dup cur len b hs
        rw [hnil] at hle
        exact .inr hle

end Receive

/-! ## Sending -/

section Send
variable {flight : List ℤ → Bool} {alloc : ℕ → Bool} {pid fuel : ℕ} {data : List β}
  {ex : Option (List Cmsg × ℕ)}

theorem sendtoMsg_iType {h : data ≠ []} {hmax : 0 < k.sendMax g} :
    (k.sendtoMsg word g flight pid data h hmax ex).2.iType = k.iType := by
  unfold sendtoMsg
  match ex with
  | none => rfl
  | some (cmsgs, uiLenEx) =>
    dsimp only
    split_ifs <;> rfl

/-- A message that is not sent is not queued. -/
theorem sendtoMsg_msgs {h : data ≠ []} {hmax : 0 < k.sendMax g}
    (hok : (k.sendtoMsg word g flight pid data h hmax ex).1 = false) :
    (k.sendtoMsg word g flight pid data h hmax ex).2.msgs = k.msgs := by
  unfold sendtoMsg at hok ⊢
  match ex with
  | none => cases hok
  | some (cmsgs, uiLenEx) =>
    dsimp only at hok ⊢
    split_ifs at hok ⊢ <;> rfl

theorem trySend_iType :
    (trySend word g flight alloc pid fuel k data ex).2.2.iType = k.iType := by
  induction fuel generalizing k data ex with
  | zero => rfl
  | succ fuel ih =>
    unfold trySend
    by_cases h : data ≠ []
    · rw [dif_pos h]
      by_cases hw : k.canWrite g = true
      · rw [dif_pos hw]
        dsimp only
        split_ifs
        · exact ih.trans sendtoMsg_iType
        · exact sendtoMsg_iType
        · rfl
      · rw [dif_neg hw]
    · rw [dif_neg h]

/-- When nothing is sent, nothing is queued. -/
theorem trySend_msgs (hn : (trySend word g flight alloc pid fuel k data ex).1 = 0) :
    (trySend word g flight alloc pid fuel k data ex).2.2.msgs = k.msgs := by
  cases fuel with
  | zero => rfl
  | succ fuel =>
    unfold trySend at hn ⊢
    by_cases h : data ≠ []
    · rw [dif_pos h] at hn ⊢
      by_cases hw : k.canWrite g = true
      · rw [dif_pos hw] at hn ⊢
        have hmax := sendMax_pos hw
        have hlen := List.length_pos_iff.mpr h
        dsimp only at hn ⊢
        split_ifs at hn ⊢ with ha hok
        · dsimp only at hn
          omega
        · exact sendtoMsg_msgs (Bool.eq_false_iff.mpr hok)
        · rfl
      · rw [dif_neg hw]
    · rw [dif_neg h]

/-- The loop comes to an end when all is sent, when a send fails or when there is no room. -/
theorem trySend_stops (hfuel : data.length ≤ fuel) :
    data.length ≤ (trySend word g flight alloc pid fuel k data ex).1 ∨
      (trySend word g flight alloc pid fuel k data ex).2.1 = true ∨
      (trySend word g flight alloc pid fuel k data ex).2.2.canWrite g = false := by
  induction fuel generalizing k data ex with
  | zero => exact .inl (by omega)
  | succ fuel ih =>
    unfold trySend
    by_cases h : data ≠ []
    · rw [dif_pos h]
      by_cases hw : k.canWrite g = true
      · rw [dif_pos hw]
        have hmax := sendMax_pos hw
        have hlen := List.length_pos_iff.mpr h
        dsimp only
        split_ifs with ha hok
        · have hleft : (data.drop (min data.length (k.sendMax g))).length ≤ fuel := by
            rw [List.length_drop]
            omega
          refine (ih hleft).imp_left fun hall => ?_
          rw [List.length_drop] at hall
          dsimp only
          omega
        · exact .inr (.inl rfl)
        · exact .inr (.inl rfl)
      · rw [dif_neg hw]
        exact .inr (.inr (Bool.eq_false_iff.mpr hw))
    · rw [dif_neg h]
      rw [not_not.mp h]
      exact .inl (Nat.zero_le _)

end Send

end ExSock

/-! ## What is needed of a semaphore -/

namespace WakePair
variable {s s' : WakePair β} {i : ℕ} {c : WakeCall β} {σ τ : UnixSem}

/-- There is something for those that wait for a semaphore. -/
def Have (g : UnixConf) (s : WakePair β) : UnixSem → Prop
  | ⟨x, .canRead⟩ => (s.sock x).msgs ≠ []
  | ⟨x, .canWrite⟩ => (s.sock x).canWrite g = true

/-- Nothing more can come for those that wait for a semaphore. -/
def Down (s : WakePair β) : UnixSem → Prop
  | ⟨x, .canRead⟩ => (s.sock x).DownR
  | ⟨x, .canWrite⟩ => (s.sock !x).DownW

def Need (g : UnixConf) (s : WakePair β) (σ : UnixSem) : Prop := s.Have g σ ∨ s.Down σ

/-- The semaphores fit what threads do, and none waits for one that is deleted. -/
structure Fits (s : WakePair β) : Prop where
  fits : ∀ σ, (s.sem σ).Fits (s.phase σ)
  dead : ∀ σ, s.alive σ = false → (s.sem σ).waiters = []

/-- Both sockets have a peer or neither has, and none that is closed. -/
structure Cut (s : WakePair β) : Prop where
  iType : ∀ x, (s.sock x).iType ≠ .dgram
  both : ∀ x, (s.sock !x).peer = (s.sock x).peer
  peer : ∀ x, (s.sock x).estab = false → (s.sock x).peer = false
  closing : ∀ i x stage, s.calls i = .close x stage → (s.sock x).estab = false

structure Wake (g : UnixConf) (s : WakePair β) : Prop extends Fits s, Cut s where
  covered : ∀ σ, s.Need g σ → s.Covered σ

theorem Init.wake (h : s.Init) : s.Wake g where
  fits σ := by
    refine ⟨fun i => ?_, fun _ => h.waiters σ⟩
    rw [h.waiters]
    simp [phase, h.calls, WakeCall.phase]
  dead σ _ := h.waiters σ
  iType := h.iType
  both x := by rw [h.peer, h.peer]
  peer x hx := by simp [h.estab] at hx
  closing i x stage hi := by simp [h.calls] at hi
  covered σ _ := .inr (.inr fun ⟨i, hi⟩ => by simp [phase, h.calls, WakeCall.phase] at hi)

/-- When no thread can go on, all that are in a call wait. -/
theorem Quiet.phase (hq : s.Quiet word g) (σ : UnixSem) (j : ℕ) :
    s.phase σ j = .away ∨ s.phase σ j = .wait := by
  have h := hq j ⟨fun _ => true, fun _ => true, fun _ => 0, fun _ => 0⟩
  unfold WakePair.phase
  cases hc : s.calls j with
  | idle => exact .inl rfl
  | close x stage => exact .inl rfl
  | recv p side len flags b =>
    cases p with
    | ready | pend => simp [go, hc] at h
    | away | wait =>
      simp only [WakeCall.phase]
      split_ifs <;> simp
  | send p side data ex dontwait =>
    cases p with
    | ready | pend => simp [go, hc] at h
    | away | wait =>
      simp only [WakeCall.phase]
      split_ifs <;> simp

theorem Quiet.not_closing (hq : s.Quiet word g) : ¬ s.Closing σ := by
  rintro ⟨j, stage, hj, -⟩
  have h := hq j ⟨fun _ => true, fun _ => true, fun _ => 0, fun _ => 0⟩
  cases stage <;> simp [go, hj] at h

/-- What a thread waits for when all others do is not needed of its semaphore. -/
theorem Wake.not_need (hs : s.Wake g) (hq : s.Quiet word g) (hi : s.phase σ i = .wait) :
    ¬ s.Need g σ := by
  intro hneed
  rcases hs.covered σ hneed with hdead | hclosing | hcovers
  · have hmem := ((hs.fits σ).waiters i).mpr hi
    rw [hs.dead σ hdead] at hmem
    cases hmem
  · exact hq.not_closing hclosing
  · exact (hs.fits σ).not_covers hi (hq.phase σ) hcovers

theorem Wake.notLost (hs : s.Wake g) : s.NotLost word g where
  readers hq i side len flags b hc := by
    have hwait : s.phase ⟨side, .canRead⟩ i = .wait := by simp [phase, hc, WakeCall.phase]
    have hnot := not_or.mp (hs.not_need hq hwait)
    simp only [Have, Down, WakeSock.DownR, not_or] at hnot
    exact ⟨not_not.mp hnot.1, Bool.eq_false_iff.mpr hnot.2.1, by simpa using hnot.2.2.2⟩
  writers hq i side data ex dontwait hc := by
    have hwait : s.phase ⟨!side, .canWrite⟩ i = .wait := by simp [phase, hc, WakeCall.phase]
    have hnot := not_or.mp (hs.not_need hq hwait)
    simp only [Have, Down, WakeSock.DownW, Bool.not_not, not_or] at hnot
    exact ⟨Bool.eq_false_iff.mpr hnot.1, Bool.eq_false_iff.mpr hnot.2.1, by simpa using hnot.2.2.2⟩

/-! ## Threads that go on -/

@[simp] theorem setCall_self (i : ℕ) (c : WakeCall β) : (s.setCall i c).calls i = c :=
  update_self ..

theorem setCall_ne {j : ℕ} (h : j ≠ i) : (s.setCall i c).calls j = s.calls j :=
  update_of_ne h ..

theorem setCall_phase (i : ℕ) (c : WakeCall β) (σ : UnixSem) :
    (s.setCall i c).phase σ = update (s.phase σ) i (c.phase σ) := by
  funext j
  rcases eq_or_ne j i with rfl | hne
  · simp [phase, setCall]
  · simp [phase, setCall, hne]

theorem Fits.setCall (hs : s.Fits) (hi : ∀ σ, s.phase σ i ≠ .wait) (hc : ∀ σ, c.phase σ ≠ .wait) :
    (s.setCall i c).Fits where
  fits σ := by
    rw [setCall_phase]
    exact (hs.fits σ).move (hi σ) (hc σ)
  dead := hs.dead

/-- A thread is not in a close. -/
def NoClose (c : WakeCall β) : Prop := ∀ x stage, c ≠ .close x stage

theorem Closing.setCall (h : s.Closing σ) (hi : NoClose (s.calls i)) : (s.setCall i c).Closing σ := by
  obtain ⟨j, stage, hj, hstage⟩ := h
  have hne : j ≠ i := by
    rintro rfl
    exact hi _ _ hj
  exact ⟨j, stage, (setCall_ne hne).trans hj, hstage⟩

theorem Covered.setCall (h : s.Covered σ) (hi : NoClose (s.calls i))
    (hc : c.phase σ = s.phase σ i ∨ c.phase σ = .ready ∨
      c.phase σ = .away ∧ s.phase σ i ≠ .ready) : (s.setCall i c).Covered σ := by
  refine h.imp_right (Or.imp (·.setCall hi) fun h => ?_)
  rw [setCall_phase]
  rcases hc with hc | hc | ⟨hc, hne⟩
  · rw [hc, update_eq_self]
    exact h
  · exact h.move (.inl hc) (.inr hc)
  · exact h.move (.inr hc) (.inl hne)

/-- A thread that is not missed may go away. -/
theorem NotMissed.setCall (h : s.NotMissed σ i) (hi : NoClose (s.calls i)) (hc : c.phase σ = .away) :
    (s.setCall i c).Covered σ := by
  refine h.imp_right (Or.imp (·.setCall hi) fun h => ?_)
  rw [setCall_phase, hc]
  exact Token.Covers.drop h

theorem Cut.setCall (hs : s.Cut) (hc : NoClose c) : (s.setCall i c).Cut where
  iType := hs.iType
  both := hs.both
  peer := hs.peer
  closing j x stage hj := by
    rcases eq_or_ne j i with rfl | hne
    · rw [setCall_self] at hj
      exact absurd hj (hc x stage)
    · rw [setCall_ne hne] at hj
      exact hs.closing j x stage hj

/-! ## Posts -/

@[simp] theorem woken_phase (c : WakeCall β) (h : c.phase σ = .wait) :
    c.woken.phase τ = if τ = σ then .ready else c.phase τ := by
  cases c with
  | recv p side len flags b | send p side data ex dontwait =>
    simp only [WakeCall.phase, WakeCall.woken] at h ⊢
    split_ifs at h
    grind
  | _ => simp [WakeCall.phase] at h

theorem wake_phase {w : Option ℕ} (hw : ∀ i, w = some i → s.phase σ i = .wait) (τ : UnixSem) :
    (s.wake w).phase τ = if τ = σ then Token.woken (s.phase σ) w else s.phase τ := by
  cases w with
  | none =>
    split_ifs with h
    · rw [h]
      rfl
    · rfl
  | some i =>
    have hi := hw i rfl
    change (s.setCall i (s.calls i).woken).phase τ = _
    rw [setCall_phase, woken_phase _ hi]
    split_ifs with h
    · rw [h]
      rfl
    · exact update_eq_self i (s.phase τ)

theorem wake_calls {w : Option ℕ} {j : ℕ} {x : Bool} {stage : CloseStage} :
    (s.wake w).calls j = .close x stage ↔ s.calls j = .close x stage := by
  cases w with
  | none => rfl
  | some i =>
    rcases eq_or_ne j i with rfl | hne
    · cases hc : s.calls j <;> simp [wake, hc, WakeCall.woken]
    · simp [wake, hne]

@[simp] theorem post_sock (σ : UnixSem) (k : ℕ) : (s.post σ k).sock = s.sock := by
  unfold post
  split_ifs <;> rfl

@[simp] theorem post_calls {k j : ℕ} {x : Bool} {stage : CloseStage} :
    (s.post σ k).calls j = .close x stage ↔ s.calls j = .close x stage := by
  unfold post
  split_ifs
  · exact wake_calls
  · rfl

theorem Cut.post (hs : s.Cut) (k : ℕ) : (s.post σ k).Cut where
  iType := by simpa using hs.iType
  both := by simpa using hs.both
  peer := by simpa using hs.peer
  closing := by simpa using hs.closing

section Posts
variable (hs : s.Fits) (k : ℕ)
include hs

theorem Fits.post_phase (ha : s.alive σ = true) (τ : UnixSem) :
    (s.post σ k).phase τ =
      if τ = σ then Token.woken (s.phase σ) ((s.sem σ).post k).2 else s.phase τ := by
  rw [WakePair.post, if_pos ha]
  exact wake_phase (fun _ => (hs.fits σ).wait_of_post) τ

theorem Fits.post : (s.post σ k).Fits := by
  by_cases ha : s.alive σ = true
  · refine ⟨fun τ => ?_, fun τ hdead => ?_⟩
    · rw [hs.post_phase k ha, WakePair.post, if_pos ha]
      dsimp only
      rcases eq_or_ne τ σ with rfl | hne
      · rw [if_pos rfl, update_self]
        exact (hs.fits τ).post k
      · rw [if_neg hne, update_of_ne hne]
        exact hs.fits τ
    · rw [WakePair.post, if_pos ha] at hdead ⊢
      have hne : τ ≠ σ := by
        rintro rfl
        exact Bool.false_ne_true (hdead.symm.trans ha)
      dsimp only
      rw [update_of_ne hne]
      exact hs.dead τ hdead
  · rwa [WakePair.post, if_neg ha]

/-- After a post the threads that wait for the semaphore are covered, and the others as they were. -/
theorem Fits.covered_post (h : τ ≠ σ → s.Covered τ) : (s.post σ k).Covered τ := by
  by_cases ha : s.alive σ = true
  · rcases eq_or_ne τ σ with rfl | hne
    · refine .inr (.inr ?_)
      rw [hs.post_phase k ha, if_pos rfl, WakePair.post, if_pos ha]
      dsimp only
      rw [update_self]
      exact .post (hs.fits τ) k
    · refine (h hne).imp (fun hdead => ?_) (Or.imp (fun hc => ?_) fun hcovers => ?_)
      · rw [WakePair.post, if_pos ha]
        exact hdead
      · obtain ⟨j, stage, hj, hstage⟩ := hc
        exact ⟨j, stage, post_calls.mpr hj, hstage⟩
      · rw [hs.post_phase k ha, if_neg hne, WakePair.post, if_pos ha]
        dsimp only
        rwa [update_of_ne hne]
  · rw [WakePair.post, if_neg ha]
    rcases eq_or_ne τ σ with rfl | hne
    · exact .inl (Bool.eq_false_iff.mpr ha)
    · exact h hne

/-- A post leaves a thread alone that does not wait. -/
theorem Fits.post_calls_ne (hi : s.phase σ i ≠ .wait) : (s.post σ k).calls i = s.calls i := by
  unfold WakePair.post
  split_ifs
  · cases hw : ((s.sem σ).post k).2 with
    | none => rfl
    | some j =>
      refine update_of_ne ?_ ..
      rintro rfl
      exact hi ((hs.fits σ).wait_of_post hw)
  · rfl

variable {p : Prop} [Decidable p]

theorem Fits.postIf_calls_ne (hi : s.phase σ i ≠ .wait) :
    WakePair.calls (if p then s.post σ k else s) i = s.calls i := by
  split_ifs
  · exact hs.post_calls_ne k hi
  · rfl

theorem Fits.postIf : Fits (if p then s.post σ k else s) := by
  split_ifs
  · exact hs.post k
  · exact hs

omit hs in
@[simp] theorem postIf_sock : WakePair.sock (if p then s.post σ k else s) = s.sock := by
  split_ifs
  · exact post_sock ..
  · rfl

omit hs in
theorem Cut.postIf (hs : s.Cut) : Cut (if p then s.post σ k else s) := by
  split_ifs
  · exact hs.post k
  · exact hs

theorem Fits.covered_postIf (h : ¬ (p ∧ τ = σ) → s.Covered τ) :
    Covered (if p then s.post σ k else s) τ := by
  split_ifs with hp
  · exact hs.covered_post k fun hne => h fun hc => hne hc.2
  · exact h fun hc => hp hc.1

theorem Fits.updateReader (x : Bool) : (s.updateReader x k).Fits := hs.post k

theorem Fits.covered_updateReader {x : Bool} (h : τ ≠ ⟨x, .canRead⟩ → s.Covered τ) :
    (s.updateReader x k).Covered τ := hs.covered_post k h

omit hs in
@[simp] theorem updateReader_sock (x : Bool) : (s.updateReader x k).sock = s.sock := post_sock _ k

omit hs in
theorem Cut.updateReader (hs : s.Cut) (x : Bool) : (s.updateReader x k).Cut := hs.post k

theorem Fits.updateWriter (x : Bool) : (s.updateWriter g x k).Fits := hs.postIf k

theorem Fits.covered_updateWriter {x : Bool}
    (h : ¬ ((s.sock x).canWrite g = true ∧ τ = ⟨x, .canWrite⟩) → s.Covered τ) :
    (s.updateWriter g x k).Covered τ := hs.covered_postIf k h

omit hs in
@[simp] theorem updateWriter_sock (x : Bool) : (s.updateWriter g x k).sock = s.sock :=
  postIf_sock k

omit hs in
theorem Cut.updateWriter (hs : s.Cut) (x : Bool) : (s.updateWriter g x k).Cut := hs.postIf k

end Posts

/-! ## Sockets that change -/

theorem Fits.setSock (hs : s.Fits) (x : Bool) (k : WakeSock β) : (s.setSock x k).Fits :=
  ⟨hs.fits, hs.dead⟩

theorem Covered.setSock (h : s.Covered σ) (x : Bool) (k : WakeSock β) : (s.setSock x k).Covered σ := h

@[simp] theorem setSock_self (x : Bool) (k : WakeSock β) : (s.setSock x k).sock x = k :=
  update_self ..

@[simp] theorem setSock_not (x : Bool) (k : WakeSock β) : (s.setSock x k).sock (!x) = s.sock !x :=
  update_of_ne (by simp) ..

theorem Need.congr (h : s'.Need g σ) (hsock : s'.sock = s.sock) : s.Need g σ := by
  unfold Need Have Down at h ⊢
  rwa [hsock] at h

theorem setMsgs_msgs (x : Bool) (k : ExSock β) : ((s.setMsgs x k).sock x).msgs = k.msgs := by
  rw [setMsgs, setSock_self]

theorem setMsgs_canWrite (x : Bool) (k : ExSock β) :
    ((s.setMsgs x k).sock x).canWrite g = k.canWrite g := by
  rw [setMsgs, setSock_self]

theorem setMsgs_down (x : Bool) (k : ExSock β) : (s.setMsgs x k).Down σ ↔ s.Down σ := by
  rcases σ with ⟨y, kind⟩
  cases x <;> cases y <;> cases kind <;> rfl

theorem setMsgs_have {x : Bool} (k : ExSock β) (h : σ.side ≠ x) :
    (s.setMsgs x k).Have g σ ↔ s.Have g σ := by
  rcases σ with ⟨y, kind⟩
  cases x <;> cases y <;> cases kind <;> first | rfl | exact absurd rfl h

theorem Cut.setSock (hs : s.Cut) {x : Bool} {k : WakeSock β} (hk : k.iType = (s.sock x).iType ∧
    k.peer = (s.sock x).peer ∧ k.estab = (s.sock x).estab) : (s.setSock x k).Cut := by
  have hsock (y : Bool) : ((s.setSock x k).sock y).iType = (s.sock y).iType ∧
      ((s.setSock x k).sock y).peer = (s.sock y).peer ∧
      ((s.setSock x k).sock y).estab = (s.sock y).estab := by
    rcases eq_or_ne y x with rfl | hne
    · rw [setSock_self]
      exact hk
    · simp [WakePair.setSock, hne]
  refine ⟨fun y => ?_, fun y => ?_, fun y hy => ?_, fun j y stage hj => ?_⟩
  · rw [(hsock y).1]
    exact hs.iType y
  · rw [(hsock y).2.1, (hsock !y).2.1]
    exact hs.both y
  · rw [(hsock y).2.1]
    exact hs.peer y ((hsock y).2.2.symm.trans hy)
  · rw [(hsock y).2.2]
    exact hs.closing j y stage hj

theorem Cut.setMsgs (hs : s.Cut) {x : Bool} {k : ExSock β} (h : k.iType = (s.sock x).iType) :
    (s.setMsgs x k).Cut := hs.setSock ⟨h, rfl, rfl⟩

/-- What is needed of the semaphores of one side. -/
theorem Need.of_sock {x : Bool} {kind : SemKind} (h : s'.Need g ⟨x, kind⟩)
    (hk : (s'.sock x).toExSock = (s.sock x).toExSock) (hr : (s'.sock x).DownR → (s.sock x).DownR)
    (hw : (s'.sock !x).DownW → (s.sock !x).DownW) : s.Need g ⟨x, kind⟩ := by
  unfold Need Have Down at h ⊢
  cases kind with
  | canRead =>
    dsimp only at h ⊢
    rw [hk] at h
    exact h.imp_right hr
  | canWrite =>
    dsimp only at h ⊢
    rw [hk] at h
    exact h.imp_right hw

end WakePair
end SylixOS.Net
