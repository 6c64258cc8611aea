import Mathlib.Algebra.BigOperators.Group.List.Basic
import Mathlib.Tactic.Ring
import SylixOS.Net.UnixRights

/-! # What becomes of passed descriptors

The references that are held for a socket's messages are those of the messages it has, through sends that
fail and receives that peek, take a part or have no room for control data.
-/

namespace SylixOS.Net
open Lib

variable {β : Type*} {word : ℕ} {g : UnixConf}

/-! ## Control data -/

namespace Cmsg

@[simp] theorem allFds_nil : allFds [] = [] := rfl

@[simp] theorem allFds_cons (c : Cmsg) (cs : List Cmsg) : allFds (c :: cs) = c.fds ++ allFds cs := rfl

theorem cmsgLen_eq (n : ℕ) : cmsgLen word n = cmsgLen word 0 + n := rfl

/-- The descriptors of control data are in what there is room for all of it in. -/
theorem visible_all {n : ℕ} (cs : List Cmsg) :
    ∀ off, ctlEnd word off cs ≤ n → visible word n off cs = allFds cs := by
  induction cs with
  | nil => exact fun _ _ => rfl
  | cons c cs ih =>
    intro off h
    obtain ⟨hc, hcs⟩ := max_le_iff.mp h
    rw [visible, ih _ hcs, allFds_cons, List.take_of_length_le]
    cases c with
    | rights l =>
      rw [cmsgLen_eq] at hc
      simp only [dataLen] at hc
      change l.length ≤ _
      omega
    | cred | other => exact Nat.zero_le _

end Cmsg

namespace UnixNex

theorem rmsgProc_ctlEnd (dup : ℕ → ℤ) (pid cur : ℕ) (cs : List Cmsg) :
    ∀ k off, Cmsg.ctlEnd word off (rmsgProc dup pid cur k cs) = Cmsg.ctlEnd word off cs := by
  induction cs with
  | nil => exact fun _ _ => rfl
  | cons c cs ih =>
    intro k off
    cases c with
    | rights fds => simp [rmsgProc, Cmsg.ctlEnd, Cmsg.dataLen, ih]
    | cred | other => simp [rmsgProc, Cmsg.ctlEnd, ih]

@[simp] theorem smsgUnflight_zero (cs : List Cmsg) : smsgUnflight 0 cs = [] := by
  cases cs <;> rfl

/-- What could be taken references of is what is given back on an error. -/
theorem smsgFlight_taken (flight : List ℤ → Bool) (cs : List Cmsg) :
    (smsgFlight flight cs).2.2 = smsgUnflight (smsgFlight flight cs).1 cs := by
  induction cs with
  | nil => rfl
  | cons c cs ih =>
    cases c with
    | rights fds =>
      simp only [smsgFlight]
      split_ifs
      · simp [smsgUnflight, ih]
      · rfl
    | cred | other =>
      simp only [smsgFlight, ih]
      cases (smsgFlight flight cs).1 with
      | zero => simp
      | succ n => rfl

/-- When there is no error, references are taken of all descriptors. -/
theorem smsgFlight_ok (flight : List ℤ → Bool) (cs : List Cmsg)
    (h : (smsgFlight flight cs).2.1 = true) : (smsgFlight flight cs).2.2 = Cmsg.allFds cs := by
  induction cs with
  | nil => rfl
  | cons c cs ih =>
    cases c with
    | rights fds =>
      simp only [smsgFlight] at h ⊢
      split_ifs at h ⊢
      simp [Cmsg.fds, ih h]
    | cred | other => simpa [smsgFlight, Cmsg.fds] using ih h

end UnixNex

namespace Refs

/-- What is taken and given back comes to nothing. -/
theorem add_neg (r : Refs) (pid : ℕ) (fds : List ℤ) : (r.add pid fds 1).add pid fds (-1) = r := by
  funext p fd
  simp only [add]
  split_ifs <;> ring

end Refs

namespace ExSock
variable {k : ExSock β}

theorem deleteMsg_apply (punie : Option UnixNex) (refs : Refs) (p : ℕ) (fd : ℤ) :
    deleteMsg punie refs p fd = refs p fd - UnixNex.held punie p fd := by
  cases punie with
  | none => simp [deleteMsg, UnixNex.held]
  | some ex =>
    simp only [deleteMsg, UnixNex.held]
    cases ex.bNeedUnProc with
    | false => simp
    | true =>
      simp only [if_true, Refs.add, true_and]
      split_ifs <;> ring

/-! ## Sending -/

theorem Held.enqueue {pvMsg : List β} (h : pvMsg ≠ []) (hmax : 0 < k.sendMax g)
    {punie : Option UnixNex} {refs : Refs} (hk : k.Held) (hrefs : ∀ p fd, refs p fd = k.refs p fd + UnixNex.held punie p fd) :
    (k.enqueue g pvMsg h hmax punie refs).Held := by
  intro p fd
  simp [ExSock.enqueue, hrefs, hk p fd]

theorem Held.sendtoMsg {flight : List ℤ → Bool} {pid : ℕ} {pvMsg : List β} {h : pvMsg ≠ []}
    {hmax : 0 < k.sendMax g} {ex : Option (List Cmsg × ℕ)} (hk : k.Held) :
    (k.sendtoMsg word g flight pid pvMsg h hmax ex).2.Held := by
  unfold ExSock.sendtoMsg
  match ex with
  | none => exact hk.enqueue h hmax fun p fd => by simp [UnixNex.held]
  | some (cmsgs, uiLenEx) =>
    dsimp only
    split_ifs with hdr hcheck hok
    · refine hk.enqueue h hmax fun p fd => ?_
      rw [UnixNex.smsgFlight_ok _ _ hok]
      simp [Refs.add, UnixNex.held]
    · rw [UnixNex.smsgFlight_taken]
      simp only [Refs.add_neg]
      exact hk
    · exact hk
    · exact hk

theorem Held.trySend {flight : List ℤ → Bool} {alloc : ℕ → Bool} {pid fuel : ℕ} {data : List β}
    {ex : Option (List Cmsg × ℕ)} (hk : k.Held) :
    (k.trySend word g flight alloc pid fuel data ex).2.2.Held := by
  induction fuel generalizing k data ex with
  | zero => exact hk
  | succ fuel ih =>
    unfold ExSock.trySend
    split_ifs with h hw ha
    · dsimp only
      split_ifs
      · exact ih hk.sendtoMsg
      · exact hk.sendtoMsg
    all_goals exact hk

theorem Held.deleteAllMsg (hk : k.Held) : k.deleteAllMsg.Held := by
  have hfold : ∀ (msgs : List (ExMsg β)) (refs : Refs) (p : ℕ) (fd : ℤ),
      msgs.foldl (fun refs m => deleteMsg m.punie refs) refs p fd =
        refs p fd - (msgs.map fun m => UnixNex.held m.punie p fd).sum := by
    intro msgs
    induction msgs with
    | nil => simp
    | cons m msgs ih =>
      intro refs p fd
      rw [List.foldl_cons, ih, deleteMsg_apply, List.map_cons, List.sum_cons]
      ring
  intro p fd
  simp [ExSock.deleteAllMsg, hfold, hk p fd]

/-! ## Receiving -/

section Recv
variable {dup : ℕ → ℤ} {cur : ℕ} {b : CtlBuf} {refs : Refs} {flags : UnixFlags} {peek : Bool} {len : ℕ}

/-- What a receive takes off the references is what the message does not hold any more. -/
def Paid (dup : ℕ → ℤ) (cur : ℕ) (b : CtlBuf) (punie : Option UnixNex) (refs : Refs) : Prop :=
  ∀ p fd, (recvCtl dup cur b punie refs).2.2 p fd -
    UnixNex.held (recvCtl dup cur b punie refs).2.1 p fd = refs p fd - UnixNex.held punie p fd

theorem held_read (punie : Option UnixNex) :
    UnixNex.held (punie.map fun ex => { ex with bValid := false }) = UnixNex.held punie := by
  cases punie <;> rfl

variable (dup cur refs flags peek len)

theorem Held.recvfromMsg {m : ExMsg β} {msgs : List (ExMsg β)} (hk : k.Held) (hm : k.msgs = m :: msgs)
    (hpaid : Paid dup cur b m.punie k.refs) : (recvfromMsg dup cur k len peek b).2.2.Held := by
  have hsum : ∀ p fd, (recvCtl dup cur b m.punie k.refs).2.2 p fd =
      UnixNex.held (recvCtl dup cur b m.punie k.refs).2.1 p fd +
        (msgs.map fun m => UnixNex.held m.punie p fd).sum := by
    intro p fd
    have h := hk p fd
    rw [hm, List.map_cons, List.sum_cons] at h
    have := hpaid p fd
    omega
  unfold ExSock.recvfromMsg
  rw [hm]
  dsimp only
  split_ifs with hp hall
  · intro p fd
    simpa using hsum p fd
  · intro p fd
    simp only [deleteMsg_apply, hsum]
    ring
  · intro p fd
    simp [held_read, hsum]

/-- There is no room for control data. -/
def Closed (b : CtlBuf) : Prop := b.uiLenEx = none ∨ b.uiLenEx = some 0

/-- No control data is copied, whatever the message has. -/
def Spent (b : CtlBuf) : Prop := b.pvMsgEx = false ∨ Closed b

/-- What does not change in a buffer that nothing is copied to. -/
def SameCopies (b b' : CtlBuf) : Prop :=
  b'.dups = b.dups ∧ b'.copies = b.copies ∧ (b'.uiLenEx = none ∧ b.uiLenEx = none ∨ b'.uiLenEx = some 0)

theorem SameCopies.trans {b b' b'' : CtlBuf} (h : SameCopies b b') (h' : SameCopies b' b'') :
    SameCopies b b'' := by
  obtain ⟨hd, hc, hl⟩ := h
  obtain ⟨hd', hc', hl'⟩ := h'
  refine ⟨hd'.trans hd, hc'.trans hc, ?_⟩
  rcases hl' with ⟨hl', hn⟩ | hl'
  · rcases hl with hl | hl
    · exact .inl ⟨hl', hl.2⟩
    · rw [hl] at hn
      cases hn
  · exact .inr hl'

theorem SameCopies.closed {b b' : CtlBuf} (h : SameCopies b b') : Closed b' :=
  h.2.2.imp And.left id

theorem Closed.same {b : CtlBuf} (h : Closed b) : SameCopies b b :=
  ⟨rfl, rfl, h.imp (fun h => ⟨h, h⟩) id⟩

/-- Nothing is copied when there is no room, or when there is no control data. -/
theorem recvCtl_none {punie : Option UnixNex}
    (h : Spent b ∨ ∀ ex ∈ punie, ex.bValid = false) :
    (recvCtl dup cur b punie refs).2 = (punie, refs) ∧
      SameCopies b (recvCtl dup cur b punie refs).1 := by
  unfold recvCtl
  cases hl : b.uiLenEx with
  | none => exact ⟨rfl, rfl, rfl, .inl ⟨hl, hl⟩⟩
  | some n =>
    dsimp only
    by_cases hroom : b.pvMsgEx = true ∧ n ≠ 0
    · rw [if_pos hroom]
      have hv : ∀ ex ∈ punie, ex.bValid = false := by
        rcases h with h | h
        · rcases h with h | h | h
          · simp [h] at hroom
          · simp [h] at hl
          · rw [h, Option.some.injEq] at hl
            exact absurd hl.symm hroom.2
        · exact h
      cases punie with
      | none => exact ⟨rfl, rfl, rfl, .inr rfl⟩
      | some ex =>
        dsimp only
        rw [if_neg (by simp [hv ex rfl])]
        exact ⟨rfl, rfl, rfl, .inr rfl⟩
    · rw [if_neg hroom]
      exact ⟨rfl, rfl, rfl, .inr rfl⟩

/-- Control data that there is room for is copied, and its references are given back if they have not
been. -/
theorem recvCtl_some {ex : UnixNex} {n : ℕ} (hb : b.pvMsgEx = true) (hn : b.uiLenEx = some n)
    (hn0 : n ≠ 0) (hv : ex.bValid = true) :
    ∃ ex' dups refs', recvCtl dup cur b (some ex) refs =
        ({ b with uiLenEx := some (min n ex.uiLenEx), mem := ex'.cmsgs, dups
                  copies := b.copies ++ [min n ex.uiLenEx] }, some ex', refs') ∧
      ex'.bValid = true ∧ ex'.bNeedUnProc = false ∧ ex'.uiLenEx = ex.uiLenEx ∧
      (ex.bNeedUnProc = false → ex' = ex ∧ dups = b.dups ∧ refs' = refs) ∧
      (ex.bNeedUnProc = true → dups = b.dups ++ Cmsg.allFds ex'.cmsgs ∧
        (∀ word, Cmsg.ctlEnd word 0 ex'.cmsgs = Cmsg.ctlEnd word 0 ex.cmsgs) ∧
        refs' = if cur = 0 then refs else refs.add ex.pid (Cmsg.allFds ex.cmsgs) (-1)) := by
  unfold recvCtl
  rw [hn]
  dsimp only
  rw [if_pos ⟨hb, hn0⟩, if_pos hv]
  by_cases hneed : ex.bNeedUnProc = true
  · rw [if_pos hneed]
    refine ⟨{ ex with
      cmsgs := UnixNex.rmsgProc dup ex.pid cur b.dups.length ex.cmsgs, bNeedUnProc := false }, _, _, rfl,
      hv, rfl, rfl, fun h => ?_, fun _ => ⟨rfl, fun word => ?_, rfl⟩⟩
    · rw [hneed] at h
      cases h
    · exact UnixNex.rmsgProc_ctlEnd ..
  · rw [if_neg hneed]
    rw [Bool.not_eq_true] at hneed
    exact ⟨ex, b.dups, refs, rfl, hv, hneed, rfl, fun _ => ⟨rfl, rfl, rfl⟩, fun h => by
      rw [hneed] at h
      cases h⟩

/-- A process gives back what a message holds, and so does the kernel when that is nothing. -/
theorem paid_of {punie : Option UnixNex}
    (h : ∀ n, b.pvMsgEx = true → b.uiLenEx = some n → n ≠ 0 → ∀ ex ∈ punie, ex.bValid = true →
      ex.bNeedUnProc = true → cur ≠ 0 ∨ ex.pid = 0 ∨ Cmsg.allFds ex.cmsgs = []) :
    Paid dup cur b punie refs := by
  intro p fd
  by_cases hnone : Spent b ∨ ∀ ex ∈ punie, ex.bValid = false
  · have h2 := (recvCtl_none dup cur refs hnone).1
    rw [h2]
  · rw [not_or, Spent, Closed, not_or, not_or, Bool.not_eq_false] at hnone
    obtain ⟨⟨hb, hn, hn0⟩, hex⟩ := hnone
    obtain ⟨n, hn⟩ := Option.ne_none_iff_exists'.mp hn
    have hn0 : n ≠ 0 := fun h0 => hn0 (by rw [hn, h0])
    push Not at hex
    obtain ⟨ex, rfl, hv⟩ := hex
    rw [ne_eq, Bool.not_eq_false] at hv
    obtain ⟨ex', dups, refs', hr, -, hneed', -, hdone, hneed⟩ :=
      recvCtl_some dup cur refs hb hn hn0 hv
    rw [hr]
    dsimp only
    cases hex : ex.bNeedUnProc with
    | false =>
      obtain ⟨rfl, -, rfl⟩ := hdone hex
      rfl
    | true =>
      obtain ⟨-, -, hrefs⟩ := hneed hex
      have hcase := h n hb hn hn0 ex rfl hv hex
      rw [hrefs]
      simp only [UnixNex.held, hneed', hex, true_and, Bool.false_eq_true, false_and, if_false, sub_zero]
      by_cases hc : cur = 0
      · rw [if_pos hc]
        rcases hcase with hcase | hcase | hcase
        · exact absurd hc hcase
        · simp [hcase]
        · simp [hcase]
      · rw [if_neg hc]
        simp only [Refs.add]
        split_ifs <;> ring

theorem recvfromMsg_data {m : ExMsg β} {msgs : List (ExMsg β)} (hm : k.msgs = m :: msgs) :
    (recvfromMsg dup cur k len peek b).1 = m.unread.take len ∧
      (recvfromMsg dup cur k len peek b).2.1 = (recvCtl dup cur b m.punie k.refs).1 ∧
      (recvfromMsg dup cur k len peek b).2.2.iType = k.iType := by
  unfold recvfromMsg
  rw [hm]
  dsimp only
  split_ifs <;> exact ⟨rfl, rfl, rfl⟩

theorem recvfromMsg_nil (hm : k.msgs = []) : recvfromMsg dup cur k len peek b = ([], b, k) := by
  simp only [recvfromMsg, hm]

/-- A receive that goes on with no messages gets nothing. -/
theorem recvMore_nil (hm : k.msgs = []) (fuel : ℕ) : recvMore dup cur flags fuel k len b = ([], b, k) := by
  induction fuel generalizing len with
  | zero => rfl
  | succ fuel ih =>
    simp only [recvMore, recvfromMsg_nil dup cur _ _ hm, ih]
    split_ifs <;> rfl

/-- A receive that goes on without room for control data leaves the buffer alone. -/
theorem Held.recvMore_closed (hk : k.Held) (hb : Closed b) (fuel : ℕ) :
    (recvMore dup cur flags fuel k len b).2.2.Held ∧
      SameCopies b (recvMore dup cur flags fuel k len b).2.1 := by
  induction fuel generalizing k len b with
  | zero => exact ⟨hk, hb.same⟩
  | succ fuel ih =>
    cases hm : k.msgs with
    | nil =>
      rw [recvMore_nil dup cur flags len hm]
      exact ⟨hk, hb.same⟩
    | cons m msgs =>
      have hspent : Spent b ∨ ∀ ex ∈ m.punie, ex.bValid = false := .inl (.inr hb)
      obtain ⟨hctl, hsame⟩ := recvCtl_none dup cur k.refs hspent
      have hpaid : Paid dup cur b m.punie k.refs := by
        intro p fd
        rw [hctl]
      have hheld := hk.recvfromMsg dup cur flags.peek len hm hpaid
      obtain ⟨-, hbuf, -⟩ := recvfromMsg_data dup cur flags.peek len (b := b) hm
      rw [← hbuf] at hsame
      unfold recvMore
      dsimp only
      split_ifs
      · exact (ih _ hheld hsame.closed).imp_right hsame.trans
      · exact ⟨hheld, hsame⟩

/-- A peek that comes back to a message of which the control data has been copied copies the same. -/
theorem recvMore_again {m : ExMsg β} {msgs : List (ExMsg β)} {ex : UnixNex} {n : ℕ}
    (hpeek : flags.peek = true) (hm : k.msgs = m :: msgs) (hex : m.punie = some ex)
    (hv : ex.bValid = true) (hneed : ex.bNeedUnProc = false) (hb : b.pvMsgEx = true)
    (hn : b.uiLenEx = some n) (hn0 : n ≠ 0) (hle : n ≤ ex.uiLenEx) (hmem : b.mem = ex.cmsgs)
    (hcopies : ∀ c ∈ b.copies, c = n) (hne : b.copies ≠ []) (fuel : ℕ) :
    (recvMore dup cur flags fuel k len b).2.2 = k ∧
      ∃ copies, (recvMore dup cur flags fuel k len b).2.1 = { b with copies } ∧
        (∀ c ∈ copies, c = n) ∧ copies ≠ [] := by
  induction fuel generalizing len b with
  | zero => exact ⟨rfl, b.copies, rfl, hcopies, hne⟩
  | succ fuel ih =>
    have hr : recvfromMsg dup cur k len true b =
        (m.unread.take len, { b with copies := b.copies ++ [n] }, k) := by
      obtain ⟨ex', dups, refs', hr, -, -, -, hdone, -⟩ :=
        recvCtl_some dup cur k.refs hb hn hn0 hv
      obtain ⟨rfl, rfl, rfl⟩ := hdone hneed
      simp only [recvfromMsg, hm, hex, hr, min_eq_left hle, if_true]
      rw [← hn, ← hmem, ← hex, ← hm]
    have hcopies' : ∀ c ∈ b.copies ++ [n], c = n := by
      intro c hc
      rcases List.mem_append.mp hc with hc | hc
      · exact hcopies c hc
      · exact List.mem_singleton.mp hc
    unfold recvMore
    rw [hpeek, hr]
    dsimp only
    split_ifs
    · exact ih _ (b := { b with copies := b.copies ++ [n] }) hb hn hmem hcopies' (by simp)
    · exact ⟨rfl, _, rfl, hcopies', by simp⟩

/-- A buffer that nothing was copied to reports nothing. -/
theorem SameCopies.reported {b' : CtlBuf} (h : SameCopies b b') (hd : b.dups = []) (hc : b.copies = []) :
    b'.Reported word := by
  obtain ⟨hd', hc', hl⟩ := h
  rw [hd] at hd'
  rw [hc] at hc'
  unfold CtlBuf.Reported
  rcases hl with ⟨hl, -⟩ | hl
  · rw [hl]
    exact ⟨hd', hc'⟩
  · rw [hl]
    refine ⟨fun fd hfd => ?_, fun c hc => ?_, fun _ => rfl⟩
    · rw [hd'] at hfd
      cases hfd
    · rw [hc'] at hc
      cases hc

/-- What a whole receive does, of which the first round gets control data if any does. -/
theorem Held.recvMore (word : ℕ) {m : ExMsg β} {msgs : List (ExMsg β)} (hk : k.Held) (hm : k.msgs = m :: msgs)
    (hd : b.dups = []) (hc : b.copies = [])
    (hok : ∀ n, b.pvMsgEx = true → b.uiLenEx = some n → n ≠ 0 → ∀ ex ∈ m.punie, ex.bValid = true →
      (ex.bNeedUnProc = true → (cur ≠ 0 ∨ ex.pid = 0 ∨ Cmsg.allFds ex.cmsgs = []) ∧
        Cmsg.ctlEnd word 0 ex.cmsgs ≤ min n ex.uiLenEx) ∧
      (flags.peek = true ∨ k.iType ≠ .stream ∨ len ≤ m.unread.length ∨ msgs = [])) (fuel : ℕ) :
    (ExSock.recvMore dup cur flags (fuel + 1) k len b).2.2.Held ∧
      (ExSock.recvMore dup cur flags (fuel + 1) k len b).2.1.Reported word := by
  have hpaid : Paid dup cur b m.punie k.refs :=
    paid_of dup cur _ fun n hb hn hn0 ex hex hv hneed => ((hok n hb hn hn0 ex hex hv).1 hneed).1
  have hheld := hk.recvfromMsg dup cur flags.peek len hm hpaid
  obtain ⟨hdata, hbuf, -⟩ := recvfromMsg_data dup cur flags.peek len (b := b) hm
  by_cases hnone : Spent b ∨ ∀ ex ∈ m.punie, ex.bValid = false
  · have hsame := (recvCtl_none dup cur k.refs hnone).2
    rw [← hbuf] at hsame
    unfold ExSock.recvMore
    dsimp only
    split_ifs
    · have ⟨hheld', hsame'⟩ := hheld.recvMore_closed dup cur flags
        (len - (ExSock.recvfromMsg dup cur k len flags.peek b).1.length) hsame.closed fuel
      exact ⟨hheld', (hsame.trans hsame').reported hd hc⟩
    · exact ⟨hheld, hsame.reported hd hc⟩
  · rw [not_or, Spent, Closed, not_or, not_or, Bool.not_eq_false] at hnone
    obtain ⟨⟨hb, hn, hn0⟩, hex⟩ := hnone
    obtain ⟨n, hn⟩ := Option.ne_none_iff_exists'.mp hn
    have hn0 : n ≠ 0 := fun h0 => hn0 (by rw [hn, h0])
    push Not at hex
    obtain ⟨ex, hex, hv⟩ := hex
    rw [ne_eq, Bool.not_eq_false] at hv
    have ⟨hneed, hstop⟩ := hok n hb hn hn0 ex hex hv
    rw [Option.mem_def] at hex
    obtain ⟨ex', dups, refs', hr, hv', hneed', hlen', hdone, hproc⟩ :=
      recvCtl_some dup cur k.refs hb hn hn0 hv
    rw [hex, hr] at hbuf
    dsimp only at hbuf
    -- The descriptors that have been made are among those that are reported.
    have hdups : ∀ fd ∈ dups, 0 ≤ fd → fd ∈ Cmsg.visible word (min n ex.uiLenEx) 0 ex'.cmsgs := by
      intro fd hfd _
      cases hne : ex.bNeedUnProc with
      | false =>
        rw [(hdone hne).2.1, hd] at hfd
        cases hfd
      | true =>
        obtain ⟨hdups, hend, -⟩ := hproc hne
        rw [hdups, hd, List.nil_append] at hfd
        rw [Cmsg.visible_all _ _ (by rw [hend]; exact (hneed hne).2)]
        exact hfd
    have hpos : min n ex.uiLenEx ≠ 0 := by
      have := ex.hdr
      simp only [cmsghdrSize] at this
      omega
    have hreported : ∀ copies : List ℕ, (∀ c ∈ copies, c = min n ex.uiLenEx) → copies ≠ [] →
        CtlBuf.Reported word { b with uiLenEx := some (min n ex.uiLenEx), mem := ex'.cmsgs, dups, copies } :=
      fun copies hc hne => ⟨hdups, fun c hcm => (hc c hcm).symm, fun h => absurd h hne⟩
    have hone : ∀ c ∈ b.copies ++ [min n ex.uiLenEx], c = min n ex.uiLenEx := by
      intro c hcm
      rw [hc, List.nil_append] at hcm
      exact List.mem_singleton.mp hcm
    unfold ExSock.recvMore
    dsimp only
    split_ifs with hmore
    · obtain ⟨hstream, hlen, -⟩ := hmore
      rw [hdata, List.length_take] at hlen
      cases hpeek : flags.peek with
      | true =>
        -- The same message again.
        have hk' : (ExSock.recvfromMsg dup cur k len true b).2.2 =
            { k with msgs := { m with punie := some ex' } :: msgs, refs := refs' } := by
          simp only [ExSock.recvfromMsg, hm, hex, hr, if_true]
        rw [hpeek] at hheld hbuf
        rw [hbuf]
        obtain ⟨hsame, copies, hb', hall, hne⟩ := recvMore_again dup cur flags
          (len - (ExSock.recvfromMsg dup cur k len true b).1.length)
          (k := (ExSock.recvfromMsg dup cur k len true b).2.2)
          (b := { b with uiLenEx := some (min n ex.uiLenEx), mem := ex'.cmsgs, dups
                         copies := b.copies ++ [min n ex.uiLenEx] })
          hpeek (by rw [hk']) rfl hv' hneed' hb rfl hpos (hlen' ▸ min_le_right ..) rfl hone (by simp) fuel
        exact ⟨by rw [hsame]; exact hheld, by rw [hb']; exact hreported copies hall hne⟩
      | false =>
        -- There is no second message.
        have hmsgs : msgs = [] := by
          rcases hstop with h | h | h | h
          · rw [hpeek] at h
            cases h
          · exact absurd hstream h
          · omega
          · exact h
        have hnil : (ExSock.recvfromMsg dup cur k len false b).2.2.msgs = [] := by
          have hle : m.pcMsg.length - m.stOffset ≤ len ∨ k.iType = .dgram := by
            rw [UnixMsg.unread_length] at hlen
            omega
          simp only [ExSock.recvfromMsg, hm, Bool.false_eq_true, if_false, dif_pos hle, hmsgs]
        rw [hpeek] at hheld hbuf
        rw [recvMore_nil dup cur flags _ hnil, hbuf]
        exact ⟨hheld, hreported _ hone (by simp)⟩
    · rw [hbuf]
      exact ⟨hheld, hreported _ hone (by simp)⟩

end Recv

end ExSock

/-! ## Runs -/

namespace RightsHost
variable {s s' : RightsHost β}

theorem Init.safe (h : s.Init) : s.Safe word where
  refs x p fd := by simp [h.refs, h.msgs]
  received r hr := by simp [h.received] at hr

/-- The threads are not looked at. -/
theorem Safe.goto {calls : ℕ → RightsCall β} (h : s.Safe word) : Safe word { s with calls } :=
  ⟨h.refs, h.received⟩

theorem Safe.setSock {x : ℕ} {k : ExSock β} (h : s.Safe word) (hk : k.Held) :
    Safe word { s with sock := Function.update s.sock x k } where
  refs y := by
    by_cases hy : y = x
    · subst hy
      simp only [Function.update_self]
      exact hk
    · simp only [Function.update_of_ne hy]
      exact h.refs y
  received := h.received

theorem Safe.recvfrom2 {i x len : ℕ} {flags : UnixFlags} {pvMsgEx : Bool} {uiLenEx : Option ℕ}
    {dup : ℕ → ℤ} (h : s.Safe word) (hlen : len ≠ 0) (hcan : (s.sock x).canRead flags len = true)
    (hok : ∀ n, pvMsgEx = true → uiLenEx = some n → n ≠ 0 → ∀ m ∈ (s.sock x).msgs.head?,
      ∀ ex ∈ m.punie, ex.bValid = true →
        (ex.bNeedUnProc = true → (s.pid i ≠ 0 ∨ ex.pid = 0 ∨ Cmsg.allFds ex.cmsgs = []) ∧
          Cmsg.ctlEnd word 0 ex.cmsgs ≤ min n ex.uiLenEx) ∧
        (flags.peek = true ∨ (s.sock x).iType ≠ .stream ∨ len ≤ m.unread.length ∨
          (s.sock x).msgs.tail = [])) :
    (s.recvfrom2 i x len flags (ctlBuf pvMsgEx uiLenEx) dup).Safe word := by
  have hne : (s.sock x).msgs ≠ [] := by
    intro hnil
    simp [ExSock.canRead, hnil] at hcan
  obtain ⟨m, msgs, hm⟩ := List.exists_cons_of_ne_nil hne
  obtain ⟨fuel, hfuel⟩ := Nat.exists_eq_succ_of_ne_zero hlen
  have ⟨hheld, hrep⟩ := (h.refs x).recvMore dup (s.pid i) flags len word
    (b := ctlBuf pvMsgEx uiLenEx) hm rfl rfl
    (fun n hb hn hn0 ex hex hv => by
      have := hok n hb hn hn0 m (by rw [hm]; rfl) ex hex hv
      rwa [hm, List.tail_cons] at this) fuel
  have hset := h.setSock (x := x) hheld
  rw [← Nat.succ_eq_add_one, ← hfuel] at hset hrep
  refine ⟨hset.refs, fun r hr => ?_⟩
  rcases List.mem_cons.mp hr with rfl | hr
  · exact fun _ => hrep
  · exact h.received r hr

/-- A receive that is under way has room for bytes. -/
def Roomy (s : RightsHost β) : Prop :=
  ∀ i x len flags pvMsgEx uiLenEx, s.calls i = .recv x len flags pvMsgEx uiLenEx → len ≠ 0

theorem Roomy.update {sock : ℕ → ExSock β} {received : List (ℤ × CtlBuf)} {i : ℕ} {c : RightsCall β}
    (h : s.Roomy) (hc : ∀ x len flags pvMsgEx uiLenEx, c = .recv x len flags pvMsgEx uiLenEx → len ≠ 0) :
    Roomy { s with sock, calls := Function.update s.calls i c, received } := by
  intro j x len flags pvMsgEx uiLenEx hj
  by_cases hji : j = i
  · subst hji
    simp only [Function.update_self] at hj
    exact hc _ _ _ _ _ hj
  · simp only [Function.update_of_ne hji] at hj
    exact h _ _ _ _ _ _ hj

theorem Roomy.step {e : RightsEvent β} (h : s.Roomy) (hs : s.step word g e = some s') : s'.Roomy := by
  cases e with
  | send i data ex =>
    simp only [RightsHost.step] at hs
    split at hs
    · split_ifs at hs
      cases hs
      exact h.update fun _ _ _ _ _ hc => by cases hc
    · cases hs
  | recv i x len flags pvMsgEx uiLenEx =>
    simp only [RightsHost.step] at hs
    split at hs
    · split_ifs at hs with hbad
      cases hs
      refine h.update fun _ _ _ _ _ hc => ?_
      cases hc
      exact (not_or.mp hbad).1
    · cases hs
  | sendLocked i recver flight alloc =>
    simp only [RightsHost.step] at hs
    split at hs
    · cases hs
      refine h.update fun _ _ _ _ _ hc => ?_
      split_ifs at hc
    · cases hs
  | recvLocked i dup =>
    simp only [RightsHost.step] at hs
    split at hs
    · split_ifs at hs
      cases hs
      exact h.update fun _ _ _ _ _ hc => by cases hc
    · cases hs
  | leave i =>
    simp only [RightsHost.step] at hs
    split at hs
    · cases hs
    all_goals
      cases hs
      exact h.update fun _ _ _ _ _ hc => by cases hc
  | deleteAllMsg x =>
    cases hs
    exact h
  | setsockopt x iPassCred stMaxBufSize =>
    cases hs
    exact h

theorem Safe.step {e : RightsEvent β} (h : s.Safe word) (hroom : s.Roomy) (hok : s.StepOk word e)
    (hs : s.step word g e = some s') : s'.Safe word := by
  cases e with
  | send i data ex =>
    simp only [RightsHost.step] at hs
    split at hs
    · split_ifs at hs
      cases hs
      exact h.goto
    · cases hs
  | recv i x len flags pvMsgEx uiLenEx =>
    simp only [RightsHost.step] at hs
    split at hs
    · split_ifs at hs
      cases hs
      exact h.goto
    · cases hs
  | sendLocked i recver flight alloc =>
    simp only [RightsHost.step] at hs
    split at hs
    · cases hs
      exact (h.setSock (h.refs recver).trySend).goto
    · cases hs
  | recvLocked i dup =>
    simp only [RightsHost.step] at hs
    split at hs
    · rename_i x len flags pvMsgEx uiLenEx hc
      split_ifs at hs with hcan
      cases hs
      refine h.recvfrom2 (hroom _ _ _ _ _ _ hc) hcan fun n hb hn hn0 => ?_
      subst hb hn
      exact hok x len flags n hc hn0
    · cases hs
  | leave i =>
    simp only [RightsHost.step] at hs
    split at hs
    · cases hs
    · cases hs
      exact h.goto
    · cases hs
      refine ⟨h.refs, fun r hr => ?_⟩
      rcases List.mem_cons.mp hr with rfl | hr
      · exact fun hpos => absurd hpos (lt_irrefl 0)
      · exact h.received r hr
  | deleteAllMsg x =>
    cases hs
    exact h.setSock (h.refs x).deleteAllMsg
  | setsockopt x iPassCred stMaxBufSize =>
    cases hs
    exact h.setSock (h.refs x)

/-- In a run in which every receive of control data that has not been delivered has room for all of it, is
not the kernel's and stops at the first message, the references that are held are those of queued messages,
and every descriptor that is made for a process is reported to it. -/
theorem unixRights_safe (h : Reach (fun s : RightsHost β => s.step word g) (StepOk word) Init s) :
    s.Safe word := by
  have hinit : ∀ t : RightsHost β, t.Init → t.Safe word ∧ t.Roomy := by
    intro t ht
    refine ⟨ht.safe, fun i x len flags pvMsgEx uiLenEx hc => ?_⟩
    rw [ht.calls] at hc
    cases hc
  exact (h.invariant hinit fun _ _ _ hs hok hstep =>
    ⟨hs.1.step hs.2 hok hstep, hs.2.step hstep⟩).1

/-- Stream sockets, and a thread of each process. -/
def noMessages : RightsHost ℕ where
  sock _ := ⟨.stream, false, [], 0, 4, fun _ _ => 0⟩
  pid i := i
  calls _ := .idle
  received := []

theorem noMessages_init : noMessages.Init := by
  constructor <;> intros <;> rfl

/-- Messages of up to two bytes. -/
abbrev twoBytes : UnixConf := UnixPair.twoBytes

/-- Process 1 sends descriptor 5 with a byte to socket 0, and process 2 gets it as its descriptor 9. -/
theorem unixRights_safe_one : ∃ s : RightsHost ℕ,
    s.received.map (fun r => (r.1, r.2.uiLenEx, r.2.mem)) = [(1, some 20, [.rights [9]])] ∧ s.Safe 8 := by
  have h : Reach (fun s : RightsHost ℕ => s.step 8 twoBytes) (StepOk 8) Init _ :=
    ((((Reach.start noMessages_init).extend (.send 1 [7] (some ([.rights [5]], 20))) trivial rfl).extend
      (.sendLocked 1 0 (fun _ => true) fun _ => true) trivial rfl).extend
      (.recv 2 0 1 ⟨false, false, false⟩ true (some 64)) trivial rfl).extend
      (.recvLocked 2 fun _ => 9) (by
        rintro _ _ _ _ ⟨⟩ _ _ ⟨⟩ _ ⟨⟩ _
        exact ⟨fun _ => ⟨.inl (by decide), by decide⟩, .inr (.inr (.inl (by decide)))⟩) rfl
  exact ⟨_, rfl, unixRights_safe h⟩

/-- A receive that goes on to a second message forgets the descriptor that it has made of the first. -/
theorem unixRights_second : ∃ s : RightsHost ℕ,
    Reach (fun s : RightsHost ℕ => s.step 8 twoBytes) (fun _ _ => True) Init s ∧
    s.received.map (fun r => (r.1, r.2.uiLenEx, r.2.dups)) = [(2, some 0, [9])] ∧ ¬ s.Safe 8 := by
  have hruns : runs (fun s : RightsHost ℕ => s.step 8 twoBytes) noMessages
      [.send 1 [7] (some ([.rights [5]], 20)), .sendLocked 1 0 (fun _ => true) fun _ => true,
        .send 1 [8] none, .sendLocked 1 0 (fun _ => true) fun _ => true,
        .recv 2 0 4 ⟨false, false, false⟩ true (some 64), .recvLocked 2 fun _ => 9] = some _ := rfl
  refine ⟨_, (Reach.start noMessages_init).of_runs hruns, rfl, fun hs => ?_⟩
  have := (hs.received _ List.mem_cons_self (by decide)).1 9 List.mem_cons_self (by decide)
  cases this

end RightsHost
end SylixOS.Net
