import SylixOS.Net.UnixWakeInv

/-! # Waiting threads of local sockets

Sections post what they make needed, but for the senders of a socket that is shut down, and for the
other threads that wait where nothing more can come.
-/

namespace SylixOS.Net
open Lib Function

variable {β : Type*} {word : ℕ} {g : UnixConf}

namespace WakePair
variable {s s' : WakePair β} {i : ℕ} {c : WakeCall β} {σ τ : UnixSem}

/-! ## Where a thread is -/

/-- A thread is in a call in which it can wait for a semaphore. -/
structure At (s : WakePair β) (i : ℕ) (σ : UnixSem) (p : Phase) : Prop where
  self : s.phase σ i = p
  away : ∀ τ ≠ σ, s.phase τ i = .away
  noClose : NoClose (s.calls i)

theorem at_recv {p : Phase} {side : Bool} {len : ℕ} {flags : UnixFlags} {b : CtlBuf}
    (hc : s.calls i = .recv p side len flags b) : s.At i ⟨side, .canRead⟩ p := by
  refine ⟨?_, fun τ hne => ?_, fun y stage h => ?_⟩
  · simp [phase, hc, WakeCall.phase]
  · simp [phase, hc, WakeCall.phase, hne]
  · rw [hc] at h
    cases h

theorem at_send {p : Phase} {side : Bool} {data : List β} {ex : Option (List Cmsg × ℕ)}
    {dontwait : Bool} (hc : s.calls i = .send p side data ex dontwait) : s.At i ⟨!side, .canWrite⟩ p := by
  refine ⟨?_, fun τ hne => ?_, fun y stage h => ?_⟩
  · simp [phase, hc, WakeCall.phase]
  · simp [phase, hc, WakeCall.phase, hne]
  · rw [hc] at h
    cases h

theorem At.ne_wait {p : Phase} (hi : s.At i σ p) (hp : p ≠ .wait) (τ : UnixSem) :
    s.phase τ i ≠ .wait := by
  rcases eq_or_ne τ σ with rfl | hne
  · rw [hi.self]
    exact hp
  · rw [hi.away τ hne]
    nofun

/-- What a thread does in its call leaves those alone that wait for other semaphores. -/
theorem At.covered {p : Phase} (hi : s.At i σ p) (hcp : ∀ τ ≠ σ, c.phase τ = .away) (hne : τ ≠ σ)
    (h : s.Covered τ) : (s.setCall i c).Covered τ :=
  h.setCall hi.noClose (.inl ((hcp τ hne).trans (hi.away τ hne).symm))

/-- A thread that is not missed comes back. -/
theorem Wake.comeBack (hs : s.Wake g) (hi : s.At i σ .ready) (hok : s.NotMissed σ i) :
    (s.setCall i .idle).Wake g := by
  refine ⟨hs.toFits.setCall (hi.ne_wait nofun) nofun, hs.toCut.setCall nofun, fun τ hneed => ?_⟩
  rcases eq_or_ne τ σ with rfl | hne
  · exact hok.setCall hi.noClose rfl
  · exact hi.covered (fun _ _ => rfl) hne (hs.covered τ hneed)

/-- A thread goes on when its semaphore is not needed. -/
theorem Wake.goOn (hs : s.Wake g) (hi : s.At i σ .ready) (hc : NoClose c) (hcw : c.phase σ ≠ .wait)
    (hcp : ∀ τ ≠ σ, c.phase τ = .away) (hnot : ¬ s.Need g σ) : (s.setCall i c).Wake g := by
  refine ⟨hs.toFits.setCall (hi.ne_wait nofun) fun τ => ?_, hs.toCut.setCall hc, fun τ hneed => ?_⟩
  · rcases eq_or_ne τ σ with rfl | hne
    · exact hcw
    · rw [hcp τ hne]
      nofun
  · refine hi.covered hcp ?_ (hs.covered τ hneed)
    rintro rfl
    exact hnot hneed

/-! ## Receives -/

section Receive
variable {side : Bool} {len : ℕ} {flags : UnixFlags} {b : CtlBuf}

theorem canRead_noFlags (k : ExSock β) : k.canRead noFlags 0 = true ↔ k.msgs ≠ [] := by
  simp [ExSock.canRead, noFlags]

theorem Fits.recvNotify (hs : s.Fits) (update : Bool) (o : WakeChoice) :
    (s.recvNotify g side update o).Fits := by
  unfold WakePair.recvNotify
  dsimp only
  have hfits : Fits (if update = true then s.updateWriter g side (o.post 0) else s) := by
    split_ifs
    · exact hs.updateWriter _ side
    · exact hs
  exact hfits.postIf _

theorem recvNotify_sock (update : Bool) (o : WakeChoice) :
    (s.recvNotify g side update o).sock = s.sock := by
  unfold WakePair.recvNotify
  dsimp only
  have hsock : WakePair.sock (if update = true then s.updateWriter g side (o.post 0) else s) =
      s.sock := by
    split_ifs
    · exact updateWriter_sock ..
    · rfl
  exact (postIf_sock _).trans hsock

theorem Cut.recvNotify (hs : s.Cut) (update : Bool) (o : WakeChoice) :
    (s.recvNotify g side update o).Cut := by
  unfold WakePair.recvNotify
  dsimp only
  have hcut : Cut (if update = true then s.updateWriter g side (o.post 0) else s) := by
    split_ifs
    · exact hs.updateWriter _ side
    · exact hs
  exact hcut.postIf _

/-- The posts at the end of a receive. -/
theorem Fits.covered_recvNotify (hs : s.Fits) {update : Bool} {o : WakeChoice}
    (h : ¬ (update = true ∧ (s.sock side).canWrite g = true ∧ σ = ⟨side, .canWrite⟩) →
      ¬ ((s.sock side).msgs ≠ [] ∧ σ = ⟨side, .canRead⟩) → s.Covered σ) :
    (s.recvNotify g side update o).Covered σ := by
  unfold WakePair.recvNotify
  dsimp only
  have hfirst : Fits (if update = true then s.updateWriter g side (o.post 0) else s) ∧
      WakePair.sock (if update = true then s.updateWriter g side (o.post 0) else s) = s.sock ∧
      (¬ ((s.sock side).msgs ≠ [] ∧ σ = ⟨side, .canRead⟩) →
        Covered (if update = true then s.updateWriter g side (o.post 0) else s) σ) := by
    split_ifs with hu
    · exact ⟨hs.updateWriter _ side, updateWriter_sock .., fun hr =>
        hs.covered_updateWriter _ fun hw => h (fun hc => hw hc.2) hr⟩
    · exact ⟨hs, rfl, h fun hc => hu hc.1⟩
  obtain ⟨hfits, hsock, hcov⟩ := hfirst
  refine hfits.covered_postIf _ fun hr => hcov fun hc => hr ⟨?_, hc.2⟩
  rw [hsock, canRead_noFlags]
  exact hc.1

/-- A receive that gets no bytes leaves the socket as it was. -/
theorem recvMore_nil {dup : ℕ → ℤ} {cur : ℕ} {k : ExSock β} (hm : k.msgs ≠ [])
    (h : (ExSock.recvMore dup cur flags len k len b).1 = []) :
    (ExSock.recvMore dup cur flags len k len b).2.2 = k := by
  rcases Nat.eq_zero_or_pos len with rfl | hlen
  · rfl
  · exact absurd h (ExSock.recvMore_pos _ _ _ hm hlen)

/-- A receive has got bytes. -/
theorem Wake.recvTake (hs : s.Wake g) (hi : s.At i ⟨side, .canRead⟩ .ready) {x' : ExSock β}
    {update : Bool} (o : WakeChoice) (htype : x'.iType = (s.sock side).iType)
    (hupdate : (s.sock side).canWrite g = false → x'.canWrite g = true → update = true)
    (hok : x'.msgs = [] → (s.sock side).DownR → s.NotMissed ⟨side, .canRead⟩ i) :
    (((s.setMsgs side x').setCall i .idle).recvNotify g side update o).Wake g := by
  have hfits : ((s.setMsgs side x').setCall i .idle).Fits :=
    Fits.setCall (s := s.setMsgs side x') (hs.toFits.setSock _ _) (hi.ne_wait (by rintro ⟨⟩))
      (by rintro _ ⟨⟩)
  have hcut : ((s.setMsgs side x').setCall i .idle).Cut :=
    (hs.toCut.setMsgs htype).setCall (by rintro _ _ ⟨⟩)
  have hsock : ((s.setMsgs side x').setCall i .idle).sock side =
    { s.sock side with toExSock := x' } := setSock_self ..
  refine ⟨hfits.recvNotify _ o, hcut.recvNotify _ o, fun σ hneed => ?_⟩
  refine hfits.covered_recvNotify fun hw hr => ?_
  rw [hsock] at hw hr
  have hneed' : (s.setMsgs side x').Need g σ := hneed.congr (recvNotify_sock ..)
  have hkeep (hne : σ ≠ ⟨side, .canRead⟩) (hn : s.Need g σ) : (s.setCall i .idle).Covered σ :=
    hi.covered (fun _ _ => rfl) hne (hs.covered σ hn)
  rcases hneed' with hhave | hd
  · by_cases hside : σ.side = side
    · subst hside
      rcases σ with ⟨side, _ | _⟩
      · simp only [Have, setMsgs_msgs] at hhave
        exact absurd ⟨hhave, rfl⟩ hr
      · simp only [Have, setMsgs_canWrite] at hhave
        refine hkeep (by rintro ⟨⟩) (.inl ?_)
        by_contra hhad
        exact hw ⟨hupdate (Bool.eq_false_iff.mpr hhad) hhave, hhave, rfl⟩
    · refine hkeep (fun h => hside (congrArg UnixSem.side h)) (.inl ?_)
      exact (setMsgs_have x' hside).mp hhave
  · rw [setMsgs_down] at hd
    rcases eq_or_ne σ ⟨side, .canRead⟩ with rfl | hne
    · have hnil : x'.msgs = [] := by
        by_contra h
        exact hr ⟨h, rfl⟩
      exact (hok hnil hd).setCall hi.noClose rfl
    · exact hkeep hne (.inr hd)

theorem Wake.recvfrom2 (hs : s.Wake g) (hc : s.calls i = .recv .ready side len flags b)
    (o : WakeChoice)
    (hall : flags.waitall = true → (s.sock side).msgs ≠ [] → len ≤ (s.sock side).stTotal)
    (hok : (s.sock side).DownR → (s.sock side).estab = false ∨ (s.sock side).TakesAll flags len →
      s.NotMissed ⟨side, .canRead⟩ i) : (s.recvfrom2 g i side len flags b o).Wake g := by
  have hi := at_recv hc
  unfold WakePair.recvfrom2
  dsimp only
  by_cases hestab : (s.sock side).estab = false
  · rw [if_pos hestab]
    exact hs.comeBack hi (hok (.inr (.inl hestab)) (.inl hestab))
  rw [if_neg hestab]
  by_cases hcan : (s.sock side).canRead flags len = true
  · rw [if_pos hcan]
    have hmsgs : (s.sock side).msgs ≠ [] := by
      intro h
      simp [ExSock.canRead, h] at hcan
    refine hs.recvTake hi o (ExSock.recvMore_iType ..) (fun hfull hroom => ?_) fun hnil hd =>
      hok hd (.inr (ExSock.recvMore_takesAll _ _ (hs.iType side) hnil))
    -- A receive that makes room has got bytes.
    have hdata : (ExSock.recvMore o.dup (s.pid i) flags len (s.sock side).toExSock len b).1 ≠ [] := by
      intro h
      rw [recvMore_nil hmsgs h, hfull] at hroom
      cases hroom
    simp [hfull, hdata]
  · rw [if_neg hcan]
    have hmsgs : (s.sock side).msgs = [] := by
      by_contra h
      refine hcan ?_
      rw [ExSock.canRead, Bool.and_eq_true, Bool.or_eq_true, decide_eq_true_eq]
      cases hw : flags.waitall with
      | false => simp [h]
      | true => simp [h, hall hw h]
    have hclear : ¬ (s.sock side).canRead noFlags 0 = true := by
      rw [canRead_noFlags, not_not]
      exact hmsgs
    rw [if_neg hclear]
    by_cases hd : (s.sock side).shutR = true ∨ (s.sock side).peer = false
    · rw [if_pos hd]
      exact hs.comeBack hi (hok (hd.imp_right .inr) (.inr (.inl hmsgs)))
    rw [if_neg hd]
    have hnot : ¬ s.Need g ⟨side, .canRead⟩ := by
      rintro (hhave | h | h | h)
      · exact hhave hmsgs
      · exact hd (.inl h)
      · exact hestab h
      · exact hd (.inr h)
    split_ifs
    · exact hs.goOn hi nofun nofun (fun _ _ => rfl) hnot
    · refine hs.goOn hi nofun ?_ (fun _ hne => if_neg hne) hnot
      simp [WakeCall.phase]

end Receive

/-! ## Sends -/

theorem Fits.clear (hs : s.Fits) (σ : UnixSem) : (s.clear σ).Fits := by
  have hsem (τ : UnixSem) : (s.clear σ).sem τ = if τ = σ then (s.sem σ).clear else s.sem τ :=
    update_apply ..
  refine ⟨fun τ => ?_, fun τ hdead => ?_⟩
  · rw [hsem]
    split_ifs with h
    · exact h ▸ (hs.fits σ).clear
    · exact hs.fits τ
  · rw [hsem]
    split_ifs with h
    · exact hs.dead σ (h ▸ hdead)
    · exact hs.dead τ hdead

theorem Covered.clear (h : s.Covered τ) (hne : τ ≠ σ) : (s.clear σ).Covered τ := by
  refine h.imp_right (Or.imp_right fun h => ?_)
  have hsem : (s.clear σ).sem τ = s.sem τ := update_of_ne hne ..
  rw [hsem]
  exact h

section Send
variable {side : Bool} {data : List β} {ex : Option (List Cmsg × ℕ)} {dontwait : Bool}

section Sent
variable {recver : ExSock β} {n : ℕ} (hs : s.Wake g) (hi : s.At i ⟨!side, .canWrite⟩ .ready)
  (o : WakeChoice) (hd : ¬ (s.sock side).DownW) (hmsgs : n = 0 → recver.msgs = (s.sock !side).msgs)
  (htype : recver.iType = (s.sock !side).iType)
include hs hd

omit hs in
/-- A thread that may send is only needed when there is room. -/
theorem need_canWrite (h : (s.setMsgs (!side) recver).Need g ⟨!side, .canWrite⟩) :
    recver.canWrite g = true := by
  rcases h with hhave | hdown
  · simpa only [Have, setMsgs_canWrite] using hhave
  · rw [setMsgs_down, Down, Bool.not_not] at hdown
    exact absurd hdown hd

include hmsgs

omit hd in
/-- Of other threads only the receivers can be needed after a send that were not before, and only when
something has been sent. -/
theorem Wake.covered_sent (hne : σ ≠ ⟨!side, .canWrite⟩) (hpost : ¬ (n ≠ 0 ∧ σ = ⟨!side, .canRead⟩))
    (hneed : (s.setMsgs (!side) recver).Need g σ) : s.Covered σ := by
  refine hs.covered σ (hneed.imp (fun hhave => ?_) (setMsgs_down ..).mp)
  by_cases hside : σ.side = !side
  · rcases σ with ⟨y, _ | _⟩
    · subst hside
      simp only [Have, setMsgs_msgs] at hhave
      rwa [hmsgs (by_contra fun h => hpost ⟨h, rfl⟩)] at hhave
    · exact absurd (congrArg (UnixSem.mk · .canWrite) hside) hne
  · exact (setMsgs_have recver hside).mp hhave

include hi htype

/-- A send comes to an end. -/
theorem Wake.sendEnd : Wake g (if recver.canWrite g = true then
      (if n ≠ 0 then ((s.setMsgs (!side) recver).setCall i .idle).updateReader (!side) (o.post 0)
        else (s.setMsgs (!side) recver).setCall i .idle).post ⟨!side, .canWrite⟩ (o.post 1)
    else if n ≠ 0 then ((s.setMsgs (!side) recver).setCall i .idle).updateReader (!side) (o.post 0)
      else (s.setMsgs (!side) recver).setCall i .idle) := by
  have hfits : ((s.setMsgs (!side) recver).setCall i .idle).Fits :=
    Fits.setCall (s := s.setMsgs (!side) recver) (hs.toFits.setSock _ _) (hi.ne_wait nofun) nofun
  have hcut : ((s.setMsgs (!side) recver).setCall i .idle).Cut :=
    (hs.toCut.setMsgs htype).setCall nofun
  refine ⟨(hfits.postIf _).postIf _, (hcut.postIf _).postIf _, fun σ hneed => ?_⟩
  have hneed' : (s.setMsgs (!side) recver).Need g σ :=
    hneed.congr ((postIf_sock _).trans (postIf_sock _))
  refine (hfits.postIf _).covered_postIf _ fun hw => hfits.covered_postIf _ fun hr => ?_
  have hne : σ ≠ ⟨!side, .canWrite⟩ := by
    rintro rfl
    exact hw ⟨need_canWrite hd hneed', rfl⟩
  exact hi.covered (c := .idle) (fun _ _ => rfl) hne (hs.covered_sent hmsgs hne hr hneed')

/-- A send has found no room. -/
theorem Wake.sendFull (hfull : recver.canWrite g = false) (hc : NoClose c)
    (hcw : c.phase ⟨!side, .canWrite⟩ ≠ .wait) (hcp : ∀ σ ≠ ⟨!side, .canWrite⟩, c.phase σ = .away) :
    Wake g (WakePair.setCall (if n ≠ 0 then ((s.setMsgs (!side) recver).clear
        ⟨!side, .canWrite⟩).updateReader (!side) (o.post 0)
      else (s.setMsgs (!side) recver).clear ⟨!side, .canWrite⟩) i c) := by
  have hcut : (s.setMsgs (!side) recver).Cut := hs.toCut.setMsgs htype
  have hcut' : ((s.setMsgs (!side) recver).clear ⟨!side, .canWrite⟩).Cut :=
    ⟨hcut.iType, hcut.both, hcut.peer, hcut.closing⟩
  have hfits : ((s.setMsgs (!side) recver).clear ⟨!side, .canWrite⟩).Fits :=
    (hs.toFits.setSock _ _ : (s.setMsgs (!side) recver).Fits).clear _
  have hcalls := hfits.postIf_calls_ne (p := n ≠ 0) (o.post 0)
    (hi.ne_wait (by rintro ⟨⟩) ⟨!side, .canRead⟩)
  have hat : At (if n ≠ 0 then ((s.setMsgs (!side) recver).clear ⟨!side, .canWrite⟩).post
      ⟨!side, .canRead⟩ (o.post 0) else (s.setMsgs (!side) recver).clear ⟨!side, .canWrite⟩) i
      ⟨!side, .canWrite⟩ .ready := by
    refine ⟨?_, fun τ hne => ?_, hcalls ▸ hi.noClose⟩
    · rw [phase, hcalls]
      exact hi.self
    · rw [phase, hcalls]
      exact hi.away τ hne
  refine ⟨(hfits.postIf _).setCall (hat.ne_wait (by rintro ⟨⟩)) fun σ => ?_,
    (hcut'.postIf _).setCall hc, fun σ hneed => ?_⟩
  · rcases eq_or_ne σ ⟨!side, .canWrite⟩ with rfl | hne
    · exact hcw
    · rw [hcp σ hne]
      rintro ⟨⟩
  · have hneed' : (s.setMsgs (!side) recver).Need g σ := hneed.congr (postIf_sock _)
    have hne : σ ≠ ⟨!side, .canWrite⟩ := by
      rintro rfl
      exact Bool.false_ne_true (hfull.symm.trans (need_canWrite hd hneed'))
    refine hat.covered hcp hne (hfits.covered_postIf _ fun hr => ?_)
    exact Covered.clear (s := s.setMsgs (!side) recver) (hs.covered_sent hmsgs hne hr hneed') hne

end Sent

theorem Wake.sendto2 (hs : s.Wake g) (hc : s.calls i = .send .ready side data ex dontwait)
    (o : WakeChoice) (hok : (s.sock side).DownW → s.NotMissed ⟨!side, .canWrite⟩ i) :
    (s.sendto2 word g i side data ex dontwait o).Wake g := by
  have hi := at_send hc
  unfold WakePair.sendto2
  dsimp only
  by_cases hd : (s.sock side).shutW = true ∨ (s.sock side).estab = false ∨ (s.sock side).peer = false
  · rw [if_pos hd]
    exact hs.comeBack hi (hok hd)
  rw [if_neg hd]
  generalize hr : ExSock.trySend word g o.flight o.alloc (s.pid i) data.length
    (s.sock !side).toExSock data ex = r
  have hmsgs : r.1 = 0 → r.2.2.msgs = (s.sock !side).msgs := hr ▸ ExSock.trySend_msgs
  have htype : r.2.2.iType = (s.sock !side).iType := hr ▸ ExSock.trySend_iType
  have hstops : data.length ≤ r.1 ∨ r.2.1 = true ∨ r.2.2.canWrite g = false :=
    hr ▸ ExSock.trySend_stops le_rfl
  by_cases hend : data.length ≤ r.1 ∨ r.2.1 = true
  · rw [if_pos hend]
    exact hs.sendEnd hi o hd hmsgs htype
  · rw [if_neg hend]
    have hfull : r.2.2.canWrite g = false := (or_assoc.mpr hstops).resolve_left hend
    by_cases hnb : (s.sock side).nonblock = true ∨ dontwait = true
    · rw [if_pos hnb]
      exact hs.sendFull hi o hd hmsgs htype hfull nofun nofun fun _ _ => rfl
    · rw [if_neg hnb]
      refine hs.sendFull hi o hd hmsgs htype hfull nofun ?_ fun _ hne => if_neg hne
      simp [WakeCall.phase]

end Send

/-! ## Waits -/

section Waits
variable {p : Phase}

/-- A thread that is not ready gives up. -/
theorem Wake.setIdle (hs : s.Wake g) (hi : ∀ σ, s.phase σ i ≠ .ready ∧ s.phase σ i ≠ .wait)
    (hno : NoClose (s.calls i)) : (s.setCall i .idle).Wake g :=
  ⟨hs.toFits.setCall (fun σ => (hi σ).2) nofun, hs.toCut.setCall nofun, fun σ hneed =>
    (hs.covered σ hneed).setCall hno (.inr (.inr ⟨rfl, (hi σ).1⟩))⟩

/-- A thread goes on with the semaphore that it is about to wait or waits for. -/
theorem Wake.semaphore (hs : s.Wake g) (hi : s.At i σ p) (hc : NoClose c)
    (hcp : ∀ τ ≠ σ, c.phase τ = .away) {t : Token}
    (hfits : t.Fits (update (s.phase σ) i (c.phase σ)))
    (hdead : s.alive σ = false → t.waiters = [])
    (hcovers : (s.sem σ).Covers (s.phase σ) → t.Covers (update (s.phase σ) i (c.phase σ))) :
    Wake g { s.setCall i c with sem := update s.sem σ t } := by
  have hsem (τ : UnixSem) : update s.sem σ t τ = if τ = σ then t else s.sem τ :=
    update_apply ..
  have hphase (τ : UnixSem) : (s.setCall i c).phase τ =
      if τ = σ then update (s.phase σ) i (c.phase σ) else s.phase τ := by
    rw [setCall_phase]
    split_ifs with h
    · rw [h]
    · rw [hcp τ h, ← hi.away τ h, update_eq_self]
  have hcut : (s.setCall i c).Cut := hs.toCut.setCall hc
  refine ⟨⟨fun τ => ?_, fun τ ha => ?_⟩, ⟨hcut.iType, hcut.both, hcut.peer, hcut.closing⟩,
    fun τ hneed => ?_⟩
  · change Token.Fits (update s.sem σ t τ) ((s.setCall i c).phase τ)
    rw [hsem, hphase]
    split_ifs with h
    · exact hfits
    · exact hs.fits τ
  · dsimp only
    rw [hsem]
    split_ifs with h
    · exact hdead (h ▸ ha)
    · exact hs.dead τ ha
  · refine (hs.covered τ hneed).imp_right (Or.imp (fun hc' => hc'.setCall hi.noClose) fun h => ?_)
    change Token.Covers (update s.sem σ t τ) ((s.setCall i c).phase τ)
    rw [hsem, hphase]
    split_ifs with hτ
    · exact hcovers (hτ ▸ h)
    · exact h

/-- A thread waits for the semaphore that it is about to wait for. -/
theorem Wake.pend (hs : s.Wake g) (hi : s.At i σ .pend) {f : Phase → WakeCall β}
    (hfn : ∀ p, NoClose (f p)) (hf : ∀ p, (f p).phase σ = p)
    (hfo : ∀ p, ∀ τ ≠ σ, (f p).phase τ = .away) : (s.pend i σ f).Wake g := by
  unfold WakePair.pend
  by_cases ha : s.alive σ = true
  · rw [if_pos ha]
    refine hs.semaphore hi (hfn _) (hfo _) ?_ (fun hdead => ?_) fun h => ?_
    · rw [hf]
      exact (hs.fits σ).pend hi.self
    · exact absurd (hdead.symm.trans ha) nofun
    · rw [hf]
      exact h.pend hi.self
  · rw [if_neg ha]
    refine hs.setIdle (fun τ => ?_) hi.noClose
    rcases eq_or_ne τ σ with rfl | hne
    · rw [hi.self]
      exact ⟨nofun, nofun⟩
    · rw [hi.away τ hne]
      exact ⟨nofun, nofun⟩

/-- A wait ends without the semaphore. -/
theorem Wake.leave (hs : s.Wake g) (hi : s.At i σ .wait) :
    Wake g { s.setCall i .idle with sem := update s.sem σ ((s.sem σ).leave i) } := by
  refine hs.semaphore (c := .idle) hi nofun (fun _ _ => rfl) (hs.fits σ).leave (fun hdead => ?_)
    fun h => ?_
  · rw [Token.leave, hs.dead σ hdead]
    rfl
  · exact h.move (.inr rfl) (.inl (by simp [hi.self]))

end Waits

/-! ## Shutting down -/

section Shut
variable (hs : s.Wake g) (x : Bool) (o : WakeChoice)
include hs

/-- Threads that are covered stay covered when reading is shut down, and sending is left alone. -/
theorem Wake.shutdownR (hok : (s.sock x).shutR = false → s.Covered ⟨x, .canWrite⟩) :
    (s.shutdownR g x o).Wake g ∧ (∀ σ, s.Covered σ → (s.shutdownR g x o).Covered σ) ∧
      ((s.shutdownR g x o).sock x).shutW = (s.sock x).shutW := by
  unfold WakePair.shutdownR
  by_cases hshut : (s.sock x).shutR = true
  · rw [if_pos hshut]
    exact ⟨hs, fun _ => id, rfl⟩
  rw [if_neg hshut]
  dsimp only
  generalize hs₂ : (if ((s.setSock x { s.sock x with shutR := true }).sock x).peer = true then _
    else _ : WakePair β) = s₂
  have h₁ : (s.setSock x { s.sock x with shutR := true }).Cut := hs.toCut.setSock ⟨rfl, rfl, rfl⟩
  have h₂ : s₂.Fits ∧ s₂.Cut ∧ (∀ σ, s.Covered σ → s₂.Covered σ) ∧
      s₂.sock x = { s.sock x with shutR := true } ∧
      (s₂.sock !x).toExSock = (s.sock !x).toExSock ∧
      ((s₂.sock !x).DownR → (s.sock !x).DownR) := by
    subst hs₂
    split_ifs with hpeer
    · have hfits := (hs.toFits.setSock x { s.sock x with shutR := true }).setSock (!x)
      refine ⟨(hfits _).updateWriter _ _, Cut.updateWriter _ (h₁.setSock ⟨?_, ?_, ?_⟩) _,
        fun σ hσ => (hfits _).covered_updateWriter _ fun _ => (hσ.setSock _ _).setSock _ _, ?_⟩
      all_goals simp [setSock, WakeSock.DownR]
    · exact ⟨hs.toFits.setSock _ _, h₁, fun _ hσ => hσ.setSock _ _, setSock_self .., by simp, by simp⟩
  obtain ⟨hfits, hcut, hcov, hx, hnot, hdown⟩ := h₂
  have hfits' : (s₂.setMsgs x (s₂.sock x).deleteAllMsg).Fits := ⟨hfits.fits, hfits.dead⟩
  have hcut' : (s₂.setMsgs x (s₂.sock x).deleteAllMsg).Cut := hcut.setMsgs rfl
  refine ⟨⟨hfits'.updateReader _ _, hcut'.updateReader _ _, fun σ hneed =>
    hfits'.covered_updateReader _ fun hne => Covered.setSock (hcov σ ?_) ..⟩, fun σ hσ =>
    hfits'.covered_updateReader _ fun _ => Covered.setSock (hcov σ hσ) .., by simp [setMsgs, hx]⟩
  have hneed' := hneed.congr (updateReader_sock ..)
  rcases σ with ⟨y, kind⟩
  by_cases hy : y = x
  · subst hy
    cases kind with
    | canRead => exact absurd rfl hne
    | canWrite => exact hok (Bool.eq_false_iff.mpr hshut)
  · obtain rfl : y = !x := Bool.eq_not.mpr hy
    refine hs.covered _ (hneed'.of_sock ?_ ?_ ?_)
    · simpa [setMsgs] using hnot
    · simpa [setMsgs] using hdown
    · simp [setMsgs, hx, WakeSock.DownW]

theorem Wake.shutdownW (hok : (s.sock x).shutW = false → s.Covered ⟨!x, .canWrite⟩) :
    (s.shutdownW g x o).Wake g := by
  unfold WakePair.shutdownW
  by_cases hshut : (s.sock x).shutW = true
  · rw [if_pos hshut]
    exact hs
  rw [if_neg hshut]
  dsimp only
  generalize hs₂ : (if ((s.setSock x { s.sock x with shutW := true }).sock x).peer = true then _
    else _ : WakePair β) = s₂
  have h₁ : (s.setSock x { s.sock x with shutW := true }).Cut := hs.toCut.setSock ⟨rfl, rfl, rfl⟩
  have h₂ : s₂.Fits ∧ s₂.Cut ∧ (∀ σ, s.Covered σ → s₂.Covered σ) ∧
      s₂.sock x = { s.sock x with shutW := true } ∧
      (s₂.sock !x).toExSock = (s.sock !x).toExSock ∧
      ((s₂.sock !x).DownW → (s.sock !x).DownW) ∧
      ((s₂.sock !x).DownR → (s.sock !x).DownR ∨ s₂.Covered ⟨!x, .canRead⟩) := by
    subst hs₂
    split_ifs with hpeer
    · have hfits := (hs.toFits.setSock x { s.sock x with shutW := true }).setSock (!x)
      refine ⟨(hfits _).updateReader _ _, Cut.updateReader _ (h₁.setSock ⟨?_, ?_, ?_⟩) _,
        fun σ hσ => (hfits _).covered_updateReader _ fun _ => (hσ.setSock _ _).setSock _ _,
        ?_, ?_, ?_, fun _ => .inr ((hfits _).covered_updateReader _ fun hne => absurd rfl hne)⟩
      all_goals simp [setSock, WakeSock.DownW]
    · exact ⟨hs.toFits.setSock _ _, h₁, fun _ hσ => hσ.setSock _ _, setSock_self .., by simp, by simp,
        by simp +contextual⟩
  obtain ⟨hfits, hcut, hcov, hx, hnot, hdownW, hdownR⟩ := h₂
  refine ⟨hfits.updateWriter _ x, hcut.updateWriter _ x, fun σ hneed =>
    hfits.covered_updateWriter _ fun _ => ?_⟩
  have hneed' : s₂.Need g σ := hneed.congr (updateWriter_sock ..)
  rcases σ with ⟨y, kind⟩
  by_cases hy : y = x
  · subst hy
    refine hcov _ (hs.covered _ (hneed'.of_sock ?_ ?_ hdownW))
    · rw [hx]
    · simp [hx, WakeSock.DownR]
  · obtain rfl : y = !x := Bool.eq_not.mpr hy
    cases kind with
    | canRead =>
      rcases hneed' with hhave | hdown
      · refine hcov _ (hs.covered _ (.inl ?_))
        simpa only [Have, hnot] using hhave
      · exact (hdownR hdown).elim (fun h => hcov _ (hs.covered _ (.inr h))) id
    | canWrite => exact hcov _ (hok (Bool.eq_false_iff.mpr hshut))

theorem Wake.shutdown (how : ShutHow)
    (hokR : how ≠ .wr → (s.sock x).shutR = false → s.Covered ⟨x, .canWrite⟩)
    (hokW : how ≠ .rd → (s.sock x).shutW = false → s.Covered ⟨!x, .canWrite⟩) :
    (s.shutdown g x how o).Wake g := by
  cases how with
  | rd => exact (hs.shutdownR x o (hokR nofun)).1
  | wr => exact hs.shutdownW x o (hokW nofun)
  | rdwr =>
    obtain ⟨hwake, hcov, hshutW⟩ := hs.shutdownR x o (hokR nofun)
    exact hwake.shutdownW x o fun h => hcov _ (hokW nofun (hshutW.symm.trans h))

end Shut

/-! ## Closing -/

section Close
variable {x : Bool}

theorem Fits.updateExcept (hs : s.Fits) (x : Bool) (k k' : ℕ) : (s.updateExcept x k k').Fits :=
  (hs.post k).post k'

theorem Fits.covered_updateExcept (hs : s.Fits) {k k' : ℕ} (h : σ.side ≠ x → s.Covered σ) :
    (s.updateExcept x k k').Covered σ := by
  refine (hs.post k).covered_post k' fun hw => hs.covered_post k fun hr => h ?_
  rintro rfl
  rcases σ with ⟨x, _ | _⟩
  · exact hr rfl
  · exact hw rfl

@[simp] theorem updateExcept_sock (x : Bool) (k k' : ℕ) : (s.updateExcept x k k').sock = s.sock := by
  simp [updateExcept]

@[simp] theorem updateExcept_calls {y : Bool} {k k' j : ℕ} {stage : CloseStage} :
    (s.updateExcept x k k').calls j = .close y stage ↔ s.calls j = .close y stage := by
  simp [updateExcept]

/-- A close goes on, and is still going to delete a semaphore that it was going to delete. -/
theorem Covered.close {stage : CloseStage} (h : s.Covered σ) (hi : s.calls i = .close x stage)
    (hcp : c.phase σ = .away) (hstage : σ.side = x → (stage = .canWrite → σ.kind = .canWrite) →
      ∃ stage', c = .close x stage' ∧ (stage' = .canWrite → σ.kind = .canWrite)) :
    (s.setCall i c).Covered σ := by
  rcases h with h | ⟨j, st, hj, hst⟩ | h
  · exact .inl h
  · right; left
    rcases eq_or_ne j i with rfl | hne
    · obtain ⟨rfl, rfl⟩ := WakeCall.close.inj (hi.symm.trans hj)
      obtain ⟨stage', rfl, hstage'⟩ := hstage rfl hst
      exact ⟨j, stage', setCall_self .., hstage'⟩
    · exact ⟨j, st, (setCall_ne hne).trans hj, hst⟩
  · right; right
    have hphase : s.phase σ i = .away := by simp [phase, hi, WakeCall.phase]
    rw [setCall_phase]
    exact h.move (.inr hcp) (.inl (by simp [hphase]))

variable (hs : s.Wake g)
include hs

theorem Wake.close (hi : s.calls i = .idle) (hx : (s.sock x).estab = true) (o : WakeChoice) :
    (s.close i x o).Wake g := by
  have hphase (σ : UnixSem) : s.phase σ i = .away := by simp [phase, hi, WakeCall.phase]
  have hno : NoClose (s.calls i) := by
    intro y stage h
    rw [hi] at h
    cases h
  have hfits₁ : (s.setCall i (.close x .delete)).Fits :=
    hs.toFits.setCall (fun σ => by simp [hphase]) (by rintro _ ⟨⟩)
  have hcov₁ (σ : UnixSem) (h : s.Covered σ) : (s.setCall i (.close x .delete)).Covered σ :=
    h.setCall hno (.inl (hphase σ).symm)
  have hpeer : (s.sock !x).peer = (s.sock x).peer := hs.both x
  unfold WakePair.close
  dsimp only
  generalize hs₂ : (if ((s.setCall i (.close x .delete)).sock x).peer = true then _
    else _ : WakePair β) = s₂
  have h₂ : s₂.Fits ∧ s₂.sock x = s.sock x ∧ s₂.sock (!x) = { s.sock (!x) with peer := false } ∧
      (∀ j y stage, s₂.calls j = .close y stage →
        (s.setCall i (.close x .delete)).calls j = .close y stage) ∧
      ∀ kind, (s.sock x).peer = true ∨ s.Need g ⟨!x, kind⟩ → s₂.Covered ⟨!x, kind⟩ := by
    subst hs₂
    split_ifs with hp
    · have hfits := hfits₁.setSock (!x) { s.sock (!x) with peer := false }
      refine ⟨hfits.updateExcept .., ?_, ?_, fun j y stage hj => ?_, fun kind _ =>
        hfits.covered_updateExcept fun h => absurd rfl h⟩
      · simp [setSock, WakePair.setCall]
      · simp [WakePair.setCall]
      · have hj' := updateExcept_calls.mp hj
        exact hj'
    · have hx' : (s.sock x).peer = false := Bool.eq_false_iff.mpr hp
      refine ⟨hfits₁, rfl, ?_, fun _ _ _ => id, fun kind hneed =>
        hcov₁ _ (hs.covered _ (hneed.resolve_left hp))⟩
      change s.sock (!x) = _
      rw [← hx', ← hpeer]
  obtain ⟨hfits, hsx, hsn, hcalls, hcov⟩ := h₂
  have hfits' := hfits.setSock x { s₂.sock x with estab := false, peer := false }
  refine ⟨hfits'.updateExcept .., ⟨fun y => ?_, fun y => ?_, fun y _ => ?_, fun j y stage hj => ?_⟩,
    fun σ hneed => hfits'.covered_updateExcept fun hside => ?_⟩
  · rw [updateExcept_sock]
    by_cases hy : y = x
    · subst hy
      rw [setSock_self, hsx]
      exact hs.iType y
    · obtain rfl : y = !x := Bool.eq_not.mpr hy
      rw [setSock_not, hsn]
      exact hs.iType _
  · rw [updateExcept_sock]
    by_cases hy : y = x
    · subst hy
      rw [setSock_self, setSock_not, hsn]
    · obtain rfl : y = !x := Bool.eq_not.mpr hy
      rw [Bool.not_not, setSock_self, setSock_not, hsn]
  · rw [updateExcept_sock]
    by_cases hy : y = x
    · subst hy
      rw [setSock_self]
    · obtain rfl : y = !x := Bool.eq_not.mpr hy
      rw [setSock_not, hsn]
  · rw [updateExcept_sock]
    have hj₂ := updateExcept_calls.mp hj
    have hj' := hcalls j y stage hj₂
    by_cases hy : y = x
    · subst hy
      rw [setSock_self]
    · obtain rfl : y = !x := Bool.eq_not.mpr hy
      rw [setSock_not, hsn]
      rcases eq_or_ne j i with rfl | hne
      · rw [setCall_self] at hj'
        exact absurd (WakeCall.close.inj hj').1.symm hy
      · rw [setCall_ne hne] at hj'
        exact hs.closing j _ stage hj'
  · rcases σ with ⟨y, kind⟩
    obtain rfl : y = !x := Bool.eq_not.mpr hside
    refine (hcov kind (or_iff_not_imp_left.mpr fun hp => ?_)).setSock _ _
    have hx' : (s.sock x).peer = false := Bool.eq_false_iff.mpr hp
    refine (hneed.congr (updateExcept_sock ..)).of_sock ?_ (fun _ => .inr (.inr (hpeer.trans hx')))
      fun _ => ?_
    · rw [setSock_not, hsn]
    · rw [Bool.not_not]
      exact .inr (.inr hx')

theorem Wake.delete (hi : s.calls i = .close x .delete) : (s.delete i x).Wake g := by
  have hphase (σ : UnixSem) : s.phase σ i = .away := by simp [phase, hi, WakeCall.phase]
  have hx : (s.sock x).peer = false := hs.peer x (hs.closing i x _ hi)
  have hnot : { s.sock (!x) with peer := false } = s.sock !x := by
    rw [← hx, ← hs.both x]
  have hfits : (s.setCall i (.close x .canRead)).Fits :=
    hs.toFits.setCall (fun σ => by simp [hphase]) (by rintro _ ⟨⟩)
  have hcut : (s.setCall i (.close x .canRead)).Cut := by
    refine ⟨hs.iType, hs.both, hs.peer, fun j y stage hj => ?_⟩
    rcases eq_or_ne j i with rfl | hne
    · rw [setCall_self] at hj
      obtain ⟨rfl, -⟩ := WakeCall.close.inj hj
      exact hs.closing j x _ hi
    · rw [setCall_ne hne] at hj
      exact hs.closing j y stage hj
  unfold WakePair.delete
  dsimp only
  have hmsgs : ((s.setCall i (.close x .canRead)).setMsgs x (s.sock x).deleteAllMsg).Cut :=
    hcut.setMsgs rfl
  refine ⟨(hfits.setSock _ _).setSock _ _, hmsgs.setSock ⟨rfl, ?_, rfl⟩, fun σ hneed =>
    Covered.setSock (Covered.setSock ?_ _ _) _ _⟩
  · rw [setMsgs, setSock_not]
    exact ((hs.both x).trans hx).symm
  · by_cases hside : σ.side = x
    · exact .inr (.inl ⟨i, .canRead, by rw [setCall_self, hside], by rintro ⟨⟩⟩)
    · refine (hs.covered σ ?_).close hi rfl fun h => absurd h hside
      rcases σ with ⟨y, kind⟩
      obtain rfl : y = !x := Bool.eq_not.mpr hside
      refine hneed.of_sock ?_ ?_ ?_
      · simp [setMsgs, WakePair.setCall]
      · simp [setMsgs, WakePair.setCall, hnot]
      · simp [setMsgs, WakePair.setCall, setSock, WakeSock.DownW]

omit hs in
/-- A thread is in a call for one semaphore. -/
theorem phase_away (c : WakeCall β) (h : c.phase σ ≠ .away) (hne : τ ≠ σ) : c.phase τ = .away := by
  cases c with
  | recv p side len flags b | send p side data ex dontwait =>
    simp only [WakeCall.phase] at h ⊢
    split_ifs at h with hσ
    · exact if_neg (hσ ▸ hne)
    · exact absurd rfl h
  | _ => rfl

/-- A close deletes a semaphore, and goes on. -/
theorem Wake.semDelete {stage : CloseStage} (hi : s.calls i = .close σ.side stage)
    (hc : ∀ τ ≠ σ, s.Covered τ → (s.setCall i c).Covered τ) (hcp : ∀ τ, c.phase τ = .away)
    (hcc : ∀ y stage, c = .close y stage → y = σ.side) : ((s.setCall i c).semDelete σ).Wake g := by
  have hphase (τ : UnixSem) : s.phase τ i = .away := by simp [phase, hi, WakeCall.phase]
  have hfits : (s.setCall i c).Fits :=
    hs.toFits.setCall (fun σ => by simp [hphase]) fun σ => by simp [hcp]
  have hclosing (j : ℕ) (y : Bool) (stage : CloseStage) :
      ((s.setCall i c).semDelete σ).calls j = .close y stage ↔
        (s.setCall i c).calls j = .close y stage := by
    simp only [WakePair.semDelete]
    split_ifs with h
    · refine iff_of_false (by rintro ⟨⟩) fun hj => ?_
      rw [hj] at h
      cases h
    · rfl
  have hself (j : ℕ) : ((s.setCall i c).semDelete σ).phase σ j ≠ .wait := by
    simp only [WakePair.semDelete, phase]
    split_ifs with h
    · rintro ⟨⟩
    · exact h
  have hother (τ : UnixSem) (hne : τ ≠ σ) :
      ((s.setCall i c).semDelete σ).phase τ = (s.setCall i c).phase τ := by
    funext j
    simp only [WakePair.semDelete, phase]
    split_ifs with h
    · exact (phase_away _ (by rw [h]; rintro ⟨⟩) hne).symm
    · rfl
  have hsem (τ : UnixSem) (hne : τ ≠ σ) : ((s.setCall i c).semDelete σ).sem τ = s.sem τ :=
    update_of_ne hne ..
  refine ⟨⟨fun τ => ?_, fun τ hdead => ?_⟩, ⟨hs.iType, hs.both, hs.peer, fun j y st hj => ?_⟩,
    fun τ hneed => ?_⟩
  · rcases eq_or_ne τ σ with rfl | hne
    · have hsem' : ((s.setCall i c).semDelete τ).sem τ = ⟨false, []⟩ := update_self ..
      rw [hsem']
      exact .start hself
    · rw [hsem τ hne, hother τ hne]
      exact hfits.fits τ
  · rcases eq_or_ne τ σ with rfl | hne
    · have hsem' : ((s.setCall i c).semDelete τ).sem τ = ⟨false, []⟩ := update_self ..
      rw [hsem']
    · rw [hsem τ hne]
      exact hs.dead τ ((update_of_ne hne ..).symm.trans hdead)
  · rw [hclosing] at hj
    rcases eq_or_ne j i with rfl | hne
    · rw [setCall_self] at hj
      exact hcc y st hj ▸ hs.closing j σ.side _ hi
    · rw [setCall_ne hne] at hj
      exact hs.closing j y st hj
  · rcases eq_or_ne τ σ with rfl | hne
    · exact .inl (update_self ..)
    · rcases hc τ hne (hs.covered τ hneed) with h | ⟨j, st, hj, hst⟩ | h
      · exact .inl ((update_of_ne hne ..).trans h)
      · exact .inr (.inl ⟨j, st, (hclosing j _ st).mpr hj, hst⟩)
      · right; right
        rw [hsem τ hne, hother τ hne]
        exact h

end Close

/-! ## Runs -/

theorem Wake.go (hs : s.Wake g) (o : WakeChoice) (hok : s.StepOk (.go i o))
    (h : s.go word g i o = some s') : s'.Wake g := by
  unfold WakePair.go at h
  split at h
  case h_1 hc =>
    cases h
    exact hs.recvfrom2 hc o (hok.1 _ _ _ _ hc).1 (hok.1 _ _ _ _ hc).2
  case h_2 side len flags b hc =>
    cases h
    exact hs.pend (at_recv hc) nofun (fun _ => if_pos rfl) fun _ _ hne => if_neg hne
  case h_3 hc =>
    cases h
    exact hs.sendto2 hc o (hok.2 _ _ _ _ hc)
  case h_4 side data ex dontwait hc =>
    cases h
    exact hs.pend (at_send hc) nofun (fun _ => if_pos rfl) fun _ _ hne => if_neg hne
  case h_5 hc =>
    cases h
    exact hs.delete hc
  case h_6 x hc => -- The other semaphore of the socket is still to be deleted.
    cases h
    refine hs.semDelete (σ := ⟨x, .canRead⟩) hc (fun τ hne hτ => hτ.close hc rfl fun hside _ =>
      ⟨_, rfl, fun _ => ?_⟩) (fun _ => rfl) fun y stage hy => (WakeCall.close.inj hy).1.symm
    rcases τ with ⟨y, _ | _⟩
    · exact absurd (congrArg (UnixSem.mk · .canRead) hside) hne
    · rfl
  case h_7 x hc =>
    cases h
    refine hs.semDelete (σ := ⟨x, .canWrite⟩) hc (fun τ hne hτ => hτ.close hc rfl fun hside hkind =>
      absurd ?_ hne) (fun _ => rfl) nofun
    rcases τ with ⟨y, _ | _⟩
    · exact absurd (hkind rfl) nofun
    · exact congrArg (UnixSem.mk · .canWrite) hside
  case h_8 => cases h

/-- A thread begins a call. -/
theorem Wake.start (hs : s.Wake g) (hi : s.calls i = .idle) (hc : NoClose c)
    (hcp : ∀ σ, c.phase σ = .ready ∨ c.phase σ = .away) : (s.setCall i c).Wake g := by
  have hphase (σ : UnixSem) : s.phase σ i = .away := by simp [phase, hi, WakeCall.phase]
  have hno : NoClose (s.calls i) := by
    intro y stage h
    rw [hi] at h
    cases h
  refine ⟨hs.toFits.setCall (fun σ => by simp [hphase]) fun σ => ?_, hs.toCut.setCall hc,
    fun σ hneed => (hs.covered σ hneed).setCall hno ?_⟩
  · rcases hcp σ with h | h <;> simp [h]
  · exact (hcp σ).elim (fun h => .inr (.inl h)) fun h => .inl (h.trans (hphase σ).symm)

theorem Wake.step {e : WakeEvent β} (hs : s.Wake g) (hok : s.StepOk e)
    (h : s.step word g e = some s') : s'.Wake g := by
  cases e with
  | recv i side len flags pvMsgEx uiLenEx =>
    simp only [WakePair.step] at h
    split at h
    case h_1 hc =>
      split_ifs at h
      cases h
      refine hs.start hc (by rintro _ _ ⟨⟩) fun σ => ?_
      simp only [WakeCall.phase]
      split_ifs <;> simp
    case h_2 => cases h
  | send i side data ex dontwait =>
    simp only [WakePair.step] at h
    split at h
    case h_1 hc =>
      split_ifs at h
      cases h
      refine hs.start hc (by rintro _ _ ⟨⟩) fun σ => ?_
      simp only [WakeCall.phase]
      split_ifs <;> simp
    case h_2 => cases h
  | close i x o =>
    simp only [WakePair.step] at h
    split at h
    case h_1 hc =>
      split_ifs at h with hx
      cases h
      exact hs.close hc hx o
    case h_2 => cases h
  | shutdown x how o =>
    simp only [WakePair.step] at h
    split_ifs at h
    cases h
    exact hs.shutdown x o how hok.1 hok.2
  | go i o => exact hs.go o hok h
  | timeout i =>
    simp only [WakePair.step] at h
    split at h
    case h_1 hc =>
      cases h
      exact hs.leave (at_recv hc)
    case h_2 hc =>
      cases h
      exact hs.leave (at_send hc)
    case h_3 => cases h

/-- In a run in which no thread is missed, no receive for all of its bytes finds only some, and senders
have been called where sending is shut down, no thread waits for what has come up already. -/
theorem unixWake_notLost
    (h : Reach (fun s : WakePair β => s.step word g) StepOk Init s) : s.NotLost word g :=
  (h.invariant (fun _ => Init.wake) fun _ _ _ hs hok hstep => hs.step hok hstep).notLost

/-- Two connected stream sockets with a buffer size. -/
def connected (β : Type*) (stMaxBufSize : ℕ) : WakePair β where
  sock _ :=
    { iType := .stream, iPassCred := false, msgs := [], stTotal := 0, stMaxBufSize
      refs := fun _ _ => 0, shutR := false, shutW := false, estab := true, peer := true, nonblock := false }
  sem _ := ⟨false, []⟩
  alive _ := true
  pid _ := 1
  calls _ := .idle

theorem connected_init (n : ℕ) : (connected β n).Init :=
  ⟨nofun, fun _ => rfl, fun _ => rfl, fun _ => rfl, fun _ => rfl, fun _ => rfl⟩

/-- There is memory, and posts wake who waits first. -/
def allowing : WakeChoice := ⟨fun _ => true, fun _ => true, fun _ => 3, fun _ => 0⟩

/-- A receiver waits for bytes that another thread then sends, and is woken. -/
theorem unixWake_notLost_one : ∃ s : WakePair ℕ,
    s.phase ⟨false, .canRead⟩ 0 = .ready ∧ s.NotLost 4 ⟨2, by decide⟩ := by
  have h : Reach (fun s : WakePair ℕ => s.step 4 ⟨2, by decide⟩) StepOk Init _ :=
    (((((Reach.start (connected_init 4)).extend
      (.recv 0 false 5 noFlags false none) trivial rfl).extend
      (.go 0 allowing) ⟨by
        rintro _ _ _ _ ⟨⟩
        exact ⟨nofun, by rintro (⟨⟨⟩⟩ | ⟨⟨⟩⟩ | ⟨⟨⟩⟩)⟩, by rintro _ _ _ _ ⟨⟩⟩ rfl).extend
      (.go 0 allowing) ⟨by rintro _ _ _ _ ⟨⟩, by rintro _ _ _ _ ⟨⟩⟩ rfl).extend
      (.send 1 true [7] none false) trivial rfl).extend
      (.go 1 allowing) ⟨by rintro _ _ _ _ ⟨⟩, by
        rintro _ _ _ _ ⟨⟩
        rintro (⟨⟨⟩⟩ | ⟨⟨⟩⟩ | ⟨⟨⟩⟩)⟩ rfl
  exact ⟨_, rfl, unixWake_notLost h⟩

/-- A sender waits for room, and its socket is shut down for sending, which posts the semaphore of
those that send the other way. -/
theorem unixWake_shutdown : ∃ s : WakePair ℕ,
    Reach (fun s : WakePair ℕ => s.step 4 ⟨2, by decide⟩) (fun _ _ => True) Init s ∧
    (s.sock false).shutW = true ∧ s.phase ⟨true, .canWrite⟩ 0 = .wait ∧
    ¬ s.NotLost 4 ⟨2, by decide⟩ := by
  have hruns : runs (fun s : WakePair ℕ => s.step 4 ⟨2, by decide⟩) (connected ℕ 2)
      [.send 0 false [1, 2, 3] none false, .go 0 allowing, .go 0 allowing,
        .shutdown false .wr allowing] = some _ := rfl
  refine ⟨_, (Reach.start (connected_init 2)).of_runs hruns, rfl, rfl, fun hs => ?_⟩
  have hshut := (hs.writers (fun i o => ?_) 0 false [3] none false rfl).2.1
  · cases hshut
  · rcases i with _ | i <;> rfl

end WakePair
end SylixOS.Net
