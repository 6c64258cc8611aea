import SylixOS.Net.UnixAddress
import SylixOS.Net.UnixConnectSafe

/-! # What addresses keep

A socket that `unix_accept` has created never listens, and no two others that are open have one path.
-/

namespace SylixOS.Net
open Lib
open Function (update update_of_ne update_self)

variable {ν : Type*}

namespace AfUnix
variable {m m' m'' : ℕ → AfUnix ν} {x y acce : ℕ} {touched touched' : ℕ → Prop}

/-- Types and paths stay, no socket comes to a ring, and only those that are touched get another
status. -/
structure Frame (touched : ℕ → Prop) (m m' : ℕ → AfUnix ν) : Prop where
  iType : ∀ c, (m' c).iType = (m c).iType
  cFile : ∀ c, (m' c).cFile = (m c).cFile
  ring : ∀ c, (m' c).pringConnect ⊆ (m c).pringConnect
  status : ∀ c, ¬ touched c → (m' c).iStatus = (m c).iStatus

/-- No socket comes to listen. -/
structure Fades (touched : ℕ → Prop) (m m' : ℕ → AfUnix ν) : Prop extends Frame touched m m' where
  listen : ∀ c, (m' c).iStatus = .listen → (m c).iStatus = .listen

theorem Fades.trans (h : Fades touched m m') (h' : Fades touched m' m'') : Fades touched m m'' where
  iType c := (h'.iType c).trans (h.iType c)
  cFile c := (h'.cFile c).trans (h.cFile c)
  ring c := fun _ hx => h.ring c (h'.ring c hx)
  status c hc := (h'.status c hc).trans (h.status c hc)
  listen c hc := h.listen c (h'.listen c hc)

theorem Fades.mono (h : Fades touched m m') (ht : ∀ c, touched c → touched' c) :
    Fades touched' m m' :=
  { h with status := fun c hc => h.status c fun hc' => hc (ht c hc') }

theorem Fades.refl : Fades touched m m :=
  ⟨⟨fun _ => rfl, fun _ => rfl, fun _ => List.Subset.refl _, fun _ _ => rfl⟩, fun _ h => h⟩

/-- One block changes. -/
theorem frame_update {b : AfUnix ν} (htype : b.iType = (m x).iType) (hfile : b.cFile = (m x).cFile)
    (hring : b.pringConnect ⊆ (m x).pringConnect) (hstatus : touched x ∨ b.iStatus = (m x).iStatus) :
    Frame touched m (update m x b) where
  iType c := by
    obtain rfl | hne := eq_or_ne c x
    · rw [update_self, htype]
    · rw [update_of_ne hne]
  cFile c := by
    obtain rfl | hne := eq_or_ne c x
    · rw [update_self, hfile]
    · rw [update_of_ne hne]
  ring c := by
    obtain rfl | hne := eq_or_ne c x
    · rwa [update_self]
    · rw [update_of_ne hne]
      exact List.Subset.refl _
  status c hc := by
    obtain rfl | hne := eq_or_ne c x
    · rw [update_self]
      exact hstatus.resolve_left hc
    · rw [update_of_ne hne]

/-- One block changes, and does not come to listen. -/
theorem fades_update {b : AfUnix ν} (htype : b.iType = (m x).iType) (hfile : b.cFile = (m x).cFile)
    (hring : b.pringConnect ⊆ (m x).pringConnect)
    (hstatus : b.iStatus = (m x).iStatus ∨ touched x ∧ b.iStatus ≠ .listen) :
    Fades touched m (update m x b) where
  toFrame := frame_update htype hfile hring (hstatus.symm.imp_left And.left)
  listen c hc := by
    obtain rfl | hne := eq_or_ne c x
    · rw [update_self] at hc
      rcases hstatus with heq | ⟨-, hno⟩
      · rwa [← heq]
      · exact absurd hc hno
    · rwa [update_of_ne hne] at hc

theorem unconnect_fades : Fades (· = x) m (unconnect m x) := by
  have hfirst : Fades (· = x) m (update m x { m x with iStatus := .none }) :=
    fades_update rfl rfl (List.Subset.refl _) (.inr ⟨rfl, by simp⟩)
  unfold unconnect
  cases (m x).pafunxPeer with
  | none => exact hfirst
  | some acce =>
    refine hfirst.trans (.trans (fades_update ?_ ?_ ?_ (.inl ?_)) (fades_update ?_ ?_ ?_ (.inl ?_)))
    any_goals rfl
    · exact List.erase_subset
    · exact List.Subset.refl _

theorem refuseAll_fades : Fades (· ∈ (m x).pringConnect) m (refuseAll m x) := by
  have hrefuse : Fades (· ∈ (m x).pringConnect) m ((m x).pringConnect.foldl refuse m) := by
    refine ⟨⟨fun c => ?_, fun c => ?_, fun c => ?_, fun c hc => ?_⟩, fun c hc => ?_⟩
    all_goals simp only [foldl_refuse_apply] at *
    · split_ifs <;> rfl
    · split_ifs <;> rfl
    · split_ifs <;> exact List.Subset.refl _
    · rw [if_neg hc]
    · split_ifs at hc
      exact hc
  exact hrefuse.trans (fades_update rfl rfl (List.nil_subset _) (.inl rfl))

theorem disconnect_fades : Fades (· = x) m (disconnect m x) := by
  have hlast {m : ℕ → AfUnix ν} :
      Fades (· = x) m (update m x { m x with iStatus := .none, pafunxPeer := none }) :=
    fades_update rfl rfl (List.Subset.refl _) (.inr ⟨rfl, by simp⟩)
  unfold disconnect
  cases (m x).pafunxPeer with
  | none => exact hlast
  | some peer =>
    refine .trans (fades_update ?_ ?_ ?_ (.inl ?_)) hlast
    any_goals rfl
    exact List.Subset.refl _

theorem close_fades : Fades (fun c => c = x ∨ c ∈ (m x).pringConnect) m (close m x) := by
  have hend {m' : ℕ → AfUnix ν} :
      Fades (fun c => c = x ∨ c ∈ (m x).pringConnect) m' (disconnect m' x) :=
    disconnect_fades.mono fun _ => .inl
  unfold close
  cases (m x).iStatus with
  | connect => exact (unconnect_fades.mono fun _ => .inl).trans hend
  | listen => exact (refuseAll_fades.mono fun _ => .inr).trans hend
  | none => exact hend
  | estab => exact hend

theorem connect2_fades : Fades (fun c => c = x ∨ c = y) m (connect2 m x y) := by
  refine .trans (fades_update ?_ ?_ ?_ (.inr ⟨.inl ?_, ?_⟩))
    (fades_update ?_ ?_ ?_ (.inr ⟨.inr ?_, ?_⟩))
  any_goals rfl
  · exact List.Subset.refl _
  · simp
  · exact List.Subset.refl _
  · simp

/-- A new socket is connected to the one that asks, and has the path of the one that listens. -/
theorem accept_eq (m : ℕ → AfUnix ν) (x new conn : ℕ) :
    ∃ m' b, accept m x new conn = update m' new b ∧ Fades (· = conn) m m' ∧
      b.iStatus = .estab ∧ b.pringConnect = (m' new).pringConnect := by
  refine ⟨_, _, rfl, .trans (fades_update ?_ ?_ ?_ (.inl ?_)) (fades_update ?_ ?_ ?_ (.inr ⟨rfl, ?_⟩)),
    rfl, rfl⟩
  any_goals rfl
  · exact List.erase_subset
  · exact List.Subset.refl _
  · simp

end AfUnix

namespace ConnCall
variable {c d : ConnCall ν} {accepted : ℕ → Bool} {x : ℕ}

/-- What a thread works on at `d`, it has worked on at `c`. -/
def Leads (c d : ConnCall ν) : Prop := ∀ x, d.Uses x → c.Uses x ∧ (d.Owns x ↔ c.Owns x)

theorem leads_idle : c.Leads .idle := fun _ hx => hx.elim

/-- Only a socket of its own comes to listen, and `unix_accept` has created the new one. -/
def Fits (accepted : ℕ → Bool) : ConnCall ν → Prop
  | listen x _ => accepted x = false
  | acceptTake x new | acceptDelete x new => accepted new = true ∧ x ≠ new
  | _ => True

/-- A call does not look at a control block that it does not work on. -/
theorem Fits.update {b : Bool} (h : c.Fits accepted) (hx : ¬ c.Uses x) :
    c.Fits (update accepted x b) := by
  cases c with
  | listen y _ =>
    have hne : y ≠ x := hx
    exact (update_of_ne hne ..).trans h
  | acceptTake y new =>
    have hne : new ≠ x := fun heq => hx (.inr heq)
    exact ⟨(update_of_ne hne ..).trans h.1, h.2⟩
  | acceptDelete y new =>
    have hne : new ≠ x := fun heq => hx (.inr heq)
    exact ⟨(update_of_ne hne ..).trans h.1, h.2⟩
  | _ => trivial

end ConnCall

namespace UnixHost
variable {s s' : UnixHost ν} {accepted : ℕ → Bool} {x y : ℕ}

/-! ## Threads -/

/-- What a thread works on is linked; it has a descriptor, if it is not the thread's own. -/
structure Threads (s : UnixHost ν) : Prop where
  fd : ∀ x, s.fd x = true → x ∈ s.plineAfUnix
  uses : ∀ i x, (s.calls i).Uses x → x ∈ s.plineAfUnix
  owns : ∀ i x, (s.calls i).Owns x → s.fd x = false ∧ ∀ j, (s.calls j).Uses x → j = i
  held : ∀ i x, (s.calls i).Uses x → ¬ (s.calls i).Owns x → s.fd x = true

/-- A thread goes to `c` while the list and the descriptors change, but not for what others work on. -/
theorem Threads.advance {i : ℕ} {c : ConnCall ν} {m : ℕ → AfUnix ν} {live : List ℕ} {fd : ℕ → Bool}
    (h : s.Threads) (hfd : ∀ x, fd x = true → x ∈ live)
    (hothers : ∀ j x, j ≠ i → (s.calls j).Uses x → x ∈ live ∧ fd x = s.fd x)
    (huses : ∀ x, c.Uses x → x ∈ live)
    (howns : ∀ x, c.Owns x → fd x = false ∧ ∀ j, j ≠ i → ¬ (s.calls j).Uses x)
    (hheld : ∀ x, c.Uses x → ¬ c.Owns x → fd x = true) :
    Threads ⟨m, live, fd, update s.calls i c⟩ := by
  refine ⟨hfd, fun j x hx => ?_, fun j x hx => ?_, fun j x hx hno => ?_⟩
  all_goals dsimp only at *
  all_goals by_cases hj : j = i
  · subst hj
    rw [update_self] at hx
    exact huses x hx
  · rw [update_of_ne hj] at hx
    exact (hothers j x hj hx).1
  · subst hj
    rw [update_self] at hx
    refine ⟨(howns x hx).1, fun k hk => ?_⟩
    by_contra hkj
    rw [update_of_ne hkj] at hk
    exact (howns x hx).2 k hkj hk
  · rw [update_of_ne hj] at hx
    have hfdx : fd x = false := (hothers j x hj hx.uses).2.trans (h.owns j x hx).1
    refine ⟨hfdx, fun k hk => ?_⟩
    by_cases hki : k = i
    · subst hki
      rw [update_self] at hk
      have howner : c.Owns x := by
        by_contra hno
        rw [hheld x hk hno] at hfdx
        cases hfdx
      exact absurd hx.uses ((howns x howner).2 j hj)
    · rw [update_of_ne hki] at hk
      exact (h.owns j x hx).2 k hk
  · subst hj
    rw [update_self] at hx hno
    exact hheld x hx hno
  · rw [update_of_ne hj] at hx hno
    exact (hothers j x hj hx).2.trans (h.held j x hx hno)

/-- A thread goes on with what it has worked on. -/
theorem Threads.goto {i : ℕ} {c : ConnCall ν} {m : ℕ → AfUnix ν} (h : s.Threads)
    (hgo : (s.calls i).Leads c) : Threads { s.goto i c with block := m } := by
  refine h.advance h.fd (fun j x _ hx => ⟨h.uses j x hx, rfl⟩) (fun x hx => h.uses i x (hgo x hx).1)
    (fun x hx => ?_) (fun x hx hno => h.held i x (hgo x hx).1 fun ho => hno ((hgo x hx).2.mpr ho))
  obtain ⟨hfd, hothers⟩ := h.owns i x ((hgo x hx.uses).2.mp hx)
  exact ⟨hfd, fun j hj hu => hj (hothers j hu)⟩

/-- A thread that is in no call makes one. -/
theorem Threads.call {i : ℕ} {c : ConnCall ν} (h : s.Threads) (hcall : s.call i x c = some s')
    (huses : ∀ y, c.Uses y → y = x) (howns : ∀ y, ¬ c.Owns y) : s'.Threads := by
  unfold UnixHost.call at hcall
  split at hcall
  · split_ifs at hcall with hfd
    cases hcall
    refine h.advance h.fd (fun j y _ hy => ⟨h.uses j y hy, rfl⟩) (fun y hy => ?_)
      (fun y hy => absurd hy (howns y)) (fun y hy _ => ?_)
    · exact huses y hy ▸ h.fd x hfd
    · exact huses y hy ▸ hfd
  · cases hcall

/-- Blocks change, and nothing else. -/
theorem Threads.blocks {m : ℕ → AfUnix ν} (h : s.Threads) : Threads { s with block := m } :=
  ⟨h.fd, h.uses, h.owns, h.held⟩

/-! ## Paths -/

/-- A socket that `unix_accept` has created is connected and on no ring; among the other open ones no
two of a type have one path. -/
structure Addr (s : UnixHost ν) (accepted : ℕ → Bool) : Prop where
  threads : s.Threads
  ring : ∀ l ∈ s.plineAfUnix, ∀ c ∈ (s.block l).pringConnect,
    c ∈ s.plineAfUnix ∧ accepted c = false
  estab : ∀ y, accepted y = true → s.fd y = true → (s.block y).iStatus = .estab
  listens : ∀ x ∈ s.plineAfUnix, (s.block x).iStatus = .listen → accepted x = false ∧ s.Open x
  calls : ∀ i, (s.calls i).Fits accepted
  bound : ∀ x y p, s.Open x → s.Open y → accepted x = false → accepted y = false →
    (s.block x).iType = (s.block y).iType → (s.block x).cFile = some p →
    (s.block y).cFile = some p → x = y

/-- The open sockets that `unix_accept` has not created keep their paths. -/
theorem Addr.bound_of (h : s.Addr accepted)
    (hopen : ∀ x, accepted x = false → s'.Open x → s.Open x ∧
      (s'.block x).iType = (s.block x).iType ∧ (s'.block x).cFile = (s.block x).cFile)
    (x y : ℕ) (p : ν) (hx : s'.Open x) (hy : s'.Open y) (hax : accepted x = false)
    (hay : accepted y = false) (htype : (s'.block x).iType = (s'.block y).iType)
    (hpx : (s'.block x).cFile = some p) (hpy : (s'.block y).cFile = some p) : x = y := by
  obtain ⟨hox, htx, hfx⟩ := hopen x hax hx
  obtain ⟨hoy, hty, hfy⟩ := hopen y hay hy
  exact h.bound x y p hox hoy hax hay (htx.symm.trans (htype.trans hty)) (hfx.symm.trans hpx)
    (hfy.symm.trans hpy)

/-- A socket stays open while a thread goes on from another place than `unix_close`. -/
theorem Open.of_goto {i : ℕ} {c : ConnCall ν} {m : ℕ → AfUnix ν} {live : List ℕ} {fd : ℕ → Bool}
    (hfd : fd x = s.fd x) (hc : c ≠ .close x)
    (h : Open ⟨m, live, fd, update s.calls i c⟩ x) : s.Open x := by
  rcases h with hx | ⟨j, hj⟩
  · exact .inl (hfd.symm.trans hx)
  · by_cases hji : j = i
    · subst hji
      exact absurd ((update_self ..).symm.trans hj) hc
    · exact .inr ⟨j, (update_of_ne hji ..).symm.trans hj⟩

theorem Open.goto {i : ℕ} {c : ConnCall ν} {m : ℕ → AfUnix ν} {live : List ℕ} {fd : ℕ → Bool}
    (hfd : fd x = s.fd x) (hi : s.calls i ≠ .close x) (h : s.Open x) :
    Open ⟨m, live, fd, update s.calls i c⟩ x := by
  rcases h with hx | ⟨j, hj⟩
  · exact .inl (hfd.trans hx)
  · have hji : j ≠ i := by
      rintro rfl
      exact hi hj
    exact .inr ⟨j, (update_of_ne hji ..).trans hj⟩

theorem fits_update {i : ℕ} {c : ConnCall ν} (h : ∀ j, (s.calls j).Fits accepted)
    (hc : c.Fits accepted) (j : ℕ) : (update s.calls i c j).Fits accepted := by
  by_cases hj : j = i
  · subst hj
    rwa [update_self]
  · rw [update_of_ne hj]
    exact h j

/-- A thread goes on, while types, paths and the statuses of what `unix_accept` has created stay. -/
theorem Addr.frame {i : ℕ} {c : ConnCall ν} {m : ℕ → AfUnix ν} {touched : ℕ → Prop}
    (h : s.Addr accepted) (hm : AfUnix.Frame touched s.block m)
    (htouched : ∀ y, touched y → accepted y = true → s.fd y = false)
    (hgo : (s.calls i).Leads c)
    (hlistens : ∀ x ∈ s.plineAfUnix, (m x).iStatus = .listen →
      accepted x = false ∧ s.Open x ∧ s.calls i ≠ .close x)
    (hc : ∀ x, c ≠ .close x) (hfits : c.Fits accepted) :
    Addr { s.goto i c with block := m } accepted where
  threads := h.threads.goto hgo
  ring l hl z hz := h.ring l hl z (hm.ring l hz)
  estab y hy hfd := by
    have hno : ¬ touched y := by
      intro ht
      have hfd' : s.fd y = true := hfd
      rw [htouched y ht hy] at hfd'
      cases hfd'
    exact (hm.status y hno).trans (h.estab y hy hfd)
  listens x hx hst := by
    obtain ⟨hax, hopen, hi⟩ := hlistens x hx hst
    exact ⟨hax, hopen.goto rfl hi⟩
  calls := fits_update h.calls hfits
  bound := h.bound_of fun x _ hx => ⟨hx.of_goto rfl (hc x), hm.iType x, hm.cFile x⟩

/-- A thread goes on, and no socket comes to a ring or to listening. -/
theorem Addr.fades {i : ℕ} {c : ConnCall ν} {m : ℕ → AfUnix ν} {touched : ℕ → Prop}
    (h : s.Addr accepted) (hm : AfUnix.Fades touched s.block m)
    (htouched : ∀ y, touched y → accepted y = true → s.fd y = false)
    (hgo : (s.calls i).Leads c)
    (hclose : ∀ x, s.calls i = .close x → (m x).iStatus ≠ .listen) (hc : ∀ x, c ≠ .close x)
    (hfits : c.Fits accepted) : Addr { s.goto i c with block := m } accepted := by
  refine h.frame hm.toFrame htouched hgo (fun x hx hst => ?_) hc hfits
  obtain ⟨hax, hopen⟩ := h.listens x hx (hm.listen x hst)
  exact ⟨hax, hopen, fun hi => hclose x hi hst⟩

/-- A thread goes on, and nothing else happens. -/
theorem Addr.goto {i : ℕ} {c : ConnCall ν} (h : s.Addr accepted)
    (hgo : (s.calls i).Leads c)
    (hclose : ∀ x, s.calls i ≠ .close x) (hc : ∀ x, c ≠ .close x) (hfits : c.Fits accepted) :
    (s.goto i c).Addr accepted :=
  have hm : AfUnix.Fades (fun _ => False) s.block s.block := .refl
  h.fades hm (fun _ hy => hy.elim) hgo (fun x hx => absurd hx (hclose x)) hc hfits

theorem Addr.toIdle {i : ℕ} (h : s.Addr accepted) (hclose : ∀ x, s.calls i ≠ .close x) :
    (s.goto i .idle).Addr accepted :=
  h.goto ConnCall.leads_idle hclose (by simp) trivial

theorem Addr.acceptAgain {i : ℕ} (h : s.Addr accepted) (hx : (s.calls i).Uses x)
    (hno : ¬ (s.calls i).Owns x) (hclose : ∀ x, s.calls i ≠ .close x) :
    (s.acceptAgain i x).Addr accepted := by
  unfold UnixHost.acceptAgain
  split_ifs
  · exact h.toIdle hclose
  · refine h.goto (fun y hy => ?_) hclose (by simp) trivial
    obtain rfl : x = y := hy
    exact ⟨hx, iff_of_false (fun ho => ho) hno⟩

/-- A thread that is in no call makes one. -/
theorem Addr.call {i : ℕ} {c : ConnCall ν} (h : s.Addr accepted) (hcall : s.call i x c = some s')
    (huses : ∀ y, c.Uses y → y = x) (howns : ∀ y, ¬ c.Owns y) (hc : ∀ x, c ≠ .close x)
    (hfits : s.fd x = true → c.Fits accepted) : s'.Addr accepted := by
  have hthreads := h.threads.call hcall huses howns
  unfold UnixHost.call at hcall
  split at hcall
  · rename_i hidle
    split_ifs at hcall with hfd
    cases hcall
    have hopen {y : ℕ} (hy : s.Open y) : (s.goto i c).Open y :=
      hy.goto rfl (by simp [hidle])
    exact ⟨hthreads, h.ring, h.estab,
      fun y hy hst => ⟨(h.listens y hy hst).1, hopen (h.listens y hy hst).2⟩,
      fits_update h.calls (hfits hfd),
      h.bound_of fun y _ hy => ⟨hy.of_goto rfl (hc y), rfl, rfl⟩⟩
  · cases hcall

/-- What a thread is in a call on has a descriptor, if it is not the thread's own. -/
theorem Addr.fd_of {i : ℕ} (h : s.Addr accepted) {c : ConnCall ν} (hi : s.calls i = c) (hx : c.Uses x)
    (hno : ¬ c.Owns x) : s.fd x = true :=
  h.threads.held i x (hi ▸ hx) (hi ▸ hno)

/-- An open socket with another status is one that `unix_accept` has not created. -/
theorem Addr.of_status (h : s.Addr accepted) (hfd : s.fd x = true)
    (hst : (s.block x).iStatus ≠ .estab) : accepted x = false := by
  cases hax : accepted x with
  | false => rfl
  | true => exact absurd (h.estab x hax hfd) hst

/-- `unix_listen`. -/
theorem Addr.listen {i : ℕ} {backlog : ℤ} (h : s.Addr accepted) (hi : s.calls i = .listen x backlog)
    (iBacklog : ℤ) : Addr { s.goto i .idle with
      block := update s.block x { s.block x with iBacklog, iStatus := .listen } }
      accepted := by
  have hax := h.calls i
  rw [hi] at hax
  have hfd : s.fd x = true := h.fd_of hi rfl fun ho => ho.elim
  have hframe : AfUnix.Frame (· = x) s.block
      (update s.block x { s.block x with iBacklog, iStatus := .listen }) :=
    AfUnix.frame_update rfl rfl (List.Subset.refl _) (.inl rfl)
  refine h.frame hframe (fun y hy hay => ?_) ConnCall.leads_idle (fun y hy hst => ?_) (by simp) trivial
  · subst hy
    rw [hax] at hay
    cases hay
  · have hidle : s.calls i ≠ .close y := by simp [hi]
    obtain rfl | hne := eq_or_ne y x
    · exact ⟨hax, .inl hfd, hidle⟩
    · obtain ⟨hay, hopen⟩ := h.listens y hy ((hframe.status y hne).symm.trans hst)
      exact ⟨hay, hopen, hidle⟩

/-- `unix_connect` comes to the ring of a socket that listens. -/
theorem Addr.connect {i acce : ℕ} {cPath : ν} {c : ConnCall ν} (h : s.Addr accepted)
    (hi : s.calls i = .connect x cPath) (hst : (s.block x).iStatus = .none)
    (hl : (s.block acce).iStatus = .listen) (hend : c = .idle ∨ c = .connWait x) :
    Addr { s.goto i c with block := AfUnix.connect s.block x acce } accepted := by
  have hne : x ≠ acce := by
    rintro rfl
    rw [hst] at hl
    cases hl
  have hfd : s.fd x = true := h.fd_of hi rfl fun ho => ho.elim
  have hax : accepted x = false := h.of_status hfd (by simp [hst])
  have hx : x ∈ s.plineAfUnix := h.threads.fd x hfd
  have hstatus (z : ℕ) (hzx : z ≠ x) :
      (AfUnix.connect s.block x acce z).iStatus = (s.block z).iStatus := by
    rw [AfUnix.connect_apply hne]
    split_ifs with hz
    · rw [hz]
    · rfl
  have hkeep (z : ℕ) : (AfUnix.connect s.block x acce z).iType = (s.block z).iType ∧
      (AfUnix.connect s.block x acce z).cFile = (s.block z).cFile ∧
      ∀ d ∈ (AfUnix.connect s.block x acce z).pringConnect, d ∈ (s.block z).pringConnect ∨ d = x := by
    rw [AfUnix.connect_apply hne]
    split_ifs with hz hz
    · subst hz
      simp
    · subst hz
      exact ⟨rfl, rfl, fun d => .inl⟩
    · exact ⟨rfl, rfl, fun d => .inl⟩
  have hself : (AfUnix.connect s.block x acce x).iStatus = .connect := by
    rw [AfUnix.connect_apply hne, if_neg hne, if_pos rfl]
  have hgo : (s.calls i).Leads c := by
    rw [hi]
    rcases hend with rfl | rfl
    · exact ConnCall.leads_idle
    · exact fun y hy => ⟨hy, Iff.rfl⟩
  have hc (y : ℕ) : c ≠ .close y := by rcases hend with rfl | rfl <;> simp
  have hfits : c.Fits accepted := by rcases hend with rfl | rfl <;> trivial
  refine ⟨h.threads.goto hgo, fun l hl z hz => ?_, fun y hy hyfd => ?_, fun y hy hyst => ?_,
    fits_update h.calls hfits,
    h.bound_of fun y _ hy => ⟨hy.of_goto rfl (hc y), (hkeep y).1, (hkeep y).2.1⟩⟩
  · rcases (hkeep l).2.2 z hz with hold | rfl
    · exact h.ring l hl z hold
    · exact ⟨hx, hax⟩
  · have hyx : y ≠ x := by
      rintro rfl
      rw [hax] at hy
      cases hy
    exact (hstatus y hyx).trans (h.estab y hy hyfd)
  · have hyx : y ≠ x := by
      rintro rfl
      cases hself.symm.trans hyst
    obtain ⟨hay, hopen⟩ := h.listens y hy ((hstatus y hyx).symm.trans hyst)
    exact ⟨hay, hopen.goto rfl (by simp [hi])⟩

/-- A new control block. -/
theorem Addr.create {fd : ℕ → Bool} {calls : ℕ → ConnCall ν} {b : Bool} {t : UnixType}
    (h : s.Addr accepted) (hx : x ∉ s.plineAfUnix) (hfd : ∀ y, y ≠ x → fd y = s.fd y)
    (hb : b = true → fd x = false)
    (hthreads : Threads ⟨update s.block x (.create t), x :: s.plineAfUnix, fd, calls⟩)
    (hcalls : ∀ i, (calls i).Fits (update accepted x b))
    (hclose : ∀ y, (∃ i, calls i = .close y) ↔ ∃ i, s.calls i = .close y) :
    Addr ⟨update s.block x (.create t), x :: s.plineAfUnix, fd, calls⟩
      (update accepted x b) := by
  have hne {y : ℕ} (hy : y ∈ s.plineAfUnix) : y ≠ x := fun heq => hx (heq ▸ hy)
  have hopen {y : ℕ} (hy : y ≠ x) :
      Open ⟨update s.block x (.create t), x :: s.plineAfUnix, fd, calls⟩ y ↔ s.Open y := by
    change (fd y = true ∨ ∃ i, calls i = .close y) ↔ s.Open y
    rw [hclose, hfd y hy]
    rfl
  refine ⟨hthreads, fun l hl z hz => ?_, fun y hy hyfd => ?_, fun y hy hst => ?_, hcalls,
    fun y z p hoy hoz hay haz htype hpy hpz => ?_⟩
  all_goals dsimp only at *
  · obtain rfl | hlx := eq_or_ne l x
    · rw [update_self] at hz
      cases hz
    · rw [update_of_ne hlx] at hz
      obtain ⟨hzl, haz⟩ := h.ring l (List.mem_of_ne_of_mem hlx hl) z hz
      rw [update_of_ne (hne hzl)]
      exact ⟨.tail x hzl, haz⟩
  · obtain rfl | hyx := eq_or_ne y x
    · rw [update_self] at hy
      rw [hb hy] at hyfd
      cases hyfd
    · rw [update_of_ne hyx] at hy ⊢
      exact h.estab y hy (hfd y hyx ▸ hyfd)
  · obtain rfl | hyx := eq_or_ne y x
    · rw [update_self] at hst
      cases hst
    · rw [update_of_ne hyx] at hst ⊢
      obtain ⟨hay, ho⟩ := h.listens y (List.mem_of_ne_of_mem hyx hy) hst
      exact ⟨hay, (hopen hyx).mpr ho⟩
  · have hyx : y ≠ x := by
      rintro rfl
      rw [update_self] at hpy
      cases hpy
    have hzx : z ≠ x := by
      rintro rfl
      rw [update_self] at hpz
      cases hpz
    rw [update_of_ne hyx] at hay htype hpy
    rw [update_of_ne hzx] at haz htype hpz
    exact h.bound y z p ((hopen hyx).mp hoy) ((hopen hzx).mp hoz) hay haz htype hpy hpz

/-- `unix_accept` takes the first request of the ring. -/
theorem Addr.acceptTake {i new conn : ℕ} {ring : List ℕ} (h : s.Addr accepted)
    (hi : s.calls i = .acceptTake x new) (hring : (s.block x).pringConnect = conn :: ring) :
    Addr { s.goto i .idle with
      block := AfUnix.accept s.block x new conn
      fd := update s.fd new true } accepted := by
  have hfits := h.calls i
  rw [hi] at hfits
  obtain ⟨hnew, hnx⟩ := hfits
  have howns : (s.calls i).Owns new := by
    rw [hi]
    exact rfl
  have hx : x ∈ s.plineAfUnix := by
    refine h.threads.uses i x ?_
    rw [hi]
    exact .inl rfl
  obtain ⟨hconn, hac⟩ := h.ring x hx conn (hring ▸ List.mem_cons_self)
  obtain ⟨m, b, heq, hm, hbst, hbring⟩ := AfUnix.accept_eq s.block x new conn
  have hself : ∀ y, accepted y = false → y ≠ new := by
    rintro y hy rfl
    rw [hnew] at hy
    cases hy
  have hother : ∀ j, j ≠ i → ¬ (s.calls j).Uses new :=
    fun j hj hu => hj ((h.threads.owns i new howns).2 j hu)
  rw [heq]
  refine ⟨?_, fun l hl z hz => ?_, fun y hy hyfd => ?_, fun y hy hst => ?_,
    fits_update h.calls trivial, h.bound_of fun y hy hoy => ?_⟩
  · refine h.threads.advance (fun y hy => ?_) (fun j y hj hy => ?_) (fun _ hy => hy.elim)
      (fun _ hy => hy.elim) fun _ hy => hy.elim
    · obtain rfl | hne := eq_or_ne y new
      · exact h.threads.uses i y howns.uses
      · exact h.threads.fd y ((update_of_ne hne ..).symm.trans hy)
    · refine ⟨h.threads.uses j y hy, update_of_ne ?_ ..⟩
      rintro rfl
      exact hother j hj hy
  · refine h.ring l hl z ?_
    dsimp only at hz
    obtain rfl | hne := eq_or_ne l new
    · rw [update_self, hbring] at hz
      exact hm.ring l hz
    · rw [update_of_ne hne] at hz
      exact hm.ring l hz
  · dsimp only at hyfd ⊢
    obtain rfl | hne := eq_or_ne y new
    · rw [update_self]
      exact hbst
    · rw [update_of_ne hne] at hyfd ⊢
      have hyc : y ≠ conn := by
        rintro rfl
        rw [hac] at hy
        cases hy
      exact (hm.status y hyc).trans (h.estab y hy hyfd)
  · dsimp only at hst
    obtain rfl | hne := eq_or_ne y new
    · rw [update_self] at hst
      cases hbst.symm.trans hst
    · rw [update_of_ne hne] at hst
      obtain ⟨hay, ho⟩ := h.listens y hy (hm.listen y hst)
      exact ⟨hay, ho.goto (update_of_ne hne ..) (by simp [hi])⟩
  · have hne := hself y hy
    dsimp only
    rw [update_of_ne hne]
    exact ⟨hoy.of_goto (update_of_ne hne ..) (by simp), hm.iType y, hm.cFile y⟩

/-- A control block that is on no ring is deleted by the thread that owns it. -/
theorem Addr.delete {i : ℕ} {c : ConnCall ν} (h : s.Addr accepted) (hown : (s.calls i).Owns x)
    (hring : ∀ l ∈ s.plineAfUnix, x ∉ (s.block l).pringConnect)
    (huses : ∀ y, c.Uses y → (s.calls i).Uses y ∧ ¬ (s.calls i).Owns y) (howns : ∀ y, ¬ c.Owns y)
    (hclose : ∀ y, s.calls i ≠ .close y) (hc : ∀ y, c ≠ .close y) (hfits : c.Fits accepted) :
    ((s.delete x).goto i c).Addr accepted := by
  obtain ⟨hfdx, honly⟩ := h.threads.owns i x hown
  have hmem {y : ℕ} : y ∈ (s.delete x).plineAfUnix ↔ y ∈ s.plineAfUnix ∧ y ≠ x := by
    simp [UnixHost.delete]
  have hkeep (y : ℕ) : ((s.delete x).block y).iType = (s.block y).iType ∧
      ((s.delete x).block y).cFile = (s.block y).cFile ∧
      ((s.delete x).block y).iStatus = (s.block y).iStatus ∧
      ((s.delete x).block y).pringConnect = (s.block y).pringConnect := by
    simp only [UnixHost.delete]
    split_ifs <;> exact ⟨rfl, rfl, rfl, rfl⟩
  have hfd (y : ℕ) (hy : s.fd y = true) : y ≠ x := by
    rintro rfl
    rw [hfdx] at hy
    cases hy
  refine ⟨?_, fun l hl z hz => ?_, fun y hy hyfd => ?_, fun y hy hst => ?_, fits_update h.calls hfits,
    h.bound_of fun y _ hy => ⟨hy.of_goto rfl (hc y), (hkeep y).1, (hkeep y).2.1⟩⟩
  · refine h.threads.advance (fun y hy => hmem.mpr ⟨h.threads.fd y hy, hfd y hy⟩) (fun j y hj hy => ?_)
      (fun y hy => ?_) (fun y hy => absurd hy (howns y)) fun y hy _ => ?_
    · refine ⟨hmem.mpr ⟨h.threads.uses j y hy, ?_⟩, rfl⟩
      rintro rfl
      exact hj (honly j hy)
    · refine hmem.mpr ⟨h.threads.uses i y (huses y hy).1, ?_⟩
      rintro rfl
      exact (huses y hy).2 hown
    · exact h.threads.held i y (huses y hy).1 (huses y hy).2
  · have hls := (hmem.mp hl).1
    have hz' : z ∈ (s.block l).pringConnect := (hkeep l).2.2.2 ▸ hz
    obtain ⟨hzl, haz⟩ := h.ring l hls z hz'
    refine ⟨hmem.mpr ⟨hzl, ?_⟩, haz⟩
    rintro rfl
    exact hring l hls hz'
  · exact (hkeep y).2.2.1.trans (h.estab y hy hyfd)
  · obtain ⟨hay, ho⟩ := h.listens y (hmem.mp hy).1 ((hkeep y).2.2.1.symm.trans hst)
    exact ⟨hay, ho.goto rfl (hclose y)⟩

/-- A section that creates no control block. -/
theorem Addr.locked [DecidableEq ν] {i : ℕ} {memory : Option ℕ} (h : s.Addr accepted)
    (hok : ∀ x, s.calls i = .closeDelete x → ∀ l ∈ s.plineAfUnix, x ∉ (s.block l).pringConnect)
    (hno : ∀ x new, s.calls i = .acceptCreate x → memory ≠ some new)
    (hs : s.locked i memory = some s') : s'.Addr accepted := by
  have hfits := h.calls i
  have howns := h.threads.owns i
  have hlive := h.threads.uses i
  unfold UnixHost.locked at hs
  cases hc : s.calls i with
  | idle => simp [hc] at hs
  | listen x backlog =>
    simp only [hc] at hs
    by_cases hf : (s.block x).cFile = none
    · rw [if_pos hf] at hs
      cases hs
      exact h.toIdle (by simp [hc])
    · rw [if_neg hf] at hs
      cases hs
      exact h.listen hc _
  | connect x cPath =>
    simp only [hc] at hs
    by_cases hst : (s.block x).iStatus ≠ .none
    · rw [if_pos hst] at hs
      cases hs
      exact h.toIdle (by simp [hc])
    · rw [if_neg hst] at hs
      split at hs
      · cases hs
        exact h.toIdle (by simp [hc])
      · rename_i acce hfind
        by_cases hfull : (s.block acce).iStatus ≠ .listen ∨
            (s.block acce).iBacklog < (s.block acce).iConnNum
        · rw [if_pos hfull] at hs
          cases hs
          exact h.toIdle (by simp [hc])
        · rw [if_neg hfull] at hs
          cases hs
          refine h.connect hc (not_not.mp hst) (find_some hfind).2 ?_
          split_ifs
          · exact .inl rfl
          · exact .inr rfl
  | connWait x =>
    simp only [hc] at hs
    by_cases hst : (s.block x).iStatus = .connect
    · rw [if_pos hst] at hs
      cases hs
      have hax : accepted x = false :=
        h.of_status (h.fd_of hc rfl fun ho => ho.elim) (by simp [hst])
      refine h.fades AfUnix.unconnect_fades (fun y hy hay => ?_) ConnCall.leads_idle (by simp [hc])
        (by simp) trivial
      rw [show y = x from hy, hax] at hay
      cases hay
    · rw [if_neg hst] at hs
      cases hs
      exact h.toIdle (by simp [hc])
  | accept x =>
    simp only [hc] at hs
    by_cases hring : (s.block x).pringConnect ≠ []
    · rw [if_pos hring] at hs
      cases hs
      exact h.goto (hc ▸ fun y hy => ⟨hy, Iff.rfl⟩) (by simp [hc]) (by simp) trivial
    · rw [if_neg hring] at hs
      cases hs
      exact h.acceptAgain (by rw [hc]; exact rfl) (by rw [hc]; exact fun ho => ho) (by simp [hc])
  | acceptCreate x =>
    simp only [hc] at hs
    cases memory with
    | none =>
      cases hs
      exact h.goto (hc ▸ fun y hy => ⟨hy, Iff.rfl⟩) (by simp [hc]) (by simp) trivial
    | some new => exact absurd rfl (hno x new hc)
  | acceptTake x new =>
    simp only [hc] at hs
    split at hs
    · cases hs
      rw [hc] at hfits
      exact h.goto (hc ▸ fun y hy => ⟨hy, Iff.rfl⟩) (by simp [hc]) (by simp) hfits
    · rename_i conn ring hring
      cases hs
      exact h.acceptTake hc hring
  | acceptDelete x new =>
    simp only [hc] at hs
    cases hs
    rw [hc] at hfits
    obtain ⟨hnew, hne⟩ := hfits
    have hring (l : ℕ) (hl : l ∈ s.plineAfUnix) : new ∉ (s.block l).pringConnect := by
      intro hmem
      rw [(h.ring l hl new hmem).2] at hnew
      cases hnew
    unfold UnixHost.acceptAgain
    split_ifs
    · exact h.delete (by rw [hc]; exact rfl) hring (fun _ hy => hy.elim) (fun _ hy => hy)
        (by simp [hc]) (by simp) trivial
    · refine h.delete (by rw [hc]; exact rfl) hring (fun y hy => ?_) (fun _ hy => hy) (by simp [hc])
        (by simp) trivial
      obtain rfl : x = y := hy
      rw [hc]
      exact ⟨.inl rfl, Ne.symm hne⟩
  | acceptRefuse x =>
    rw [hc] at hlive
    simp only [hc] at hs
    cases hs
    refine h.fades AfUnix.refuseAll_fades (fun y hy hay => ?_) ConnCall.leads_idle (by simp [hc])
      (by simp) trivial
    rw [(h.ring x (hlive x rfl) y hy).2] at hay
    cases hay
  | close x =>
    rw [hc] at hlive howns
    simp only [hc] at hs
    cases hs
    refine h.fades AfUnix.close_fades (fun y hy hay => ?_) (hc ▸ fun y hy => ⟨hy, Iff.rfl⟩)
      (fun y hy => ?_) (by simp) trivial
    · rcases hy with rfl | hy
      · exact (howns y rfl).1
      · rw [(h.ring x (hlive x rfl) y hy).2] at hay
        cases hay
    · obtain rfl : x = y := by simpa [hc] using hy
      rw [AfUnix.close_self]
      simp
  | closeDelete x =>
    simp only [hc] at hs
    cases hs
    exact h.delete (by rw [hc]; exact rfl) (hok x hc) (fun _ hy => hy.elim) (fun _ hy => hy)
      (by simp [hc]) (by simp) trivial

/-- `unix_accept` creates a control block. -/
theorem Addr.acceptCreate {i new : ℕ} {t : UnixType} (h : s.Addr accepted)
    (hi : s.calls i = .acceptCreate x) (hnew : new ∉ s.plineAfUnix) :
    Addr { s.goto i (.acceptTake x new) with
      block := update s.block new (.create t)
      plineAfUnix := new :: s.plineAfUnix } (update accepted new true) := by
  have hx : x ∈ s.plineAfUnix := by
    refine h.threads.uses i x ?_
    rw [hi]
    exact rfl
  have hfd : s.fd new = false := by
    cases hf : s.fd new with
    | false => rfl
    | true => exact absurd (h.threads.fd new hf) hnew
  have hfdx : s.fd x = true := h.fd_of hi rfl fun ho => ho.elim
  have hxn : x ≠ new := fun heq => hnew (heq ▸ hx)
  have hfits (j : ℕ) : (s.calls j).Fits (update accepted new true) :=
    (h.calls j).update fun hu => hnew (h.threads.uses j new hu)
  refine h.create hnew (fun _ _ => rfl) (fun _ => hfd) ?_ (fits_update hfits ?_) fun y => ?_
  · refine h.threads.advance (fun y hy => .tail new (h.threads.fd y hy))
      (fun j y _ hy => ⟨.tail new (h.threads.uses j y hy), rfl⟩) (fun y hy => ?_) (fun y hy => ?_)
      fun y hy hno => ?_
    · rcases hy with rfl | rfl
      · exact .tail new hx
      · exact List.mem_cons_self
    · obtain rfl : new = y := hy
      exact ⟨hfd, fun j _ hu => hnew (h.threads.uses j new hu)⟩
    · rcases hy with rfl | rfl
      · exact hfdx
      · exact absurd rfl hno
  · exact ⟨update_self .., hxn⟩
  · constructor
    · rintro ⟨j, hj⟩
      obtain rfl | hji := eq_or_ne j i
      · cases (update_self ..).symm.trans hj
      · exact ⟨j, (update_of_ne hji ..).symm.trans hj⟩
    · rintro ⟨j, hj⟩
      have hji : j ≠ i := by
        rintro rfl
        rw [hi] at hj
        cases hj
      exact ⟨j, (update_of_ne hji ..).trans hj⟩

/-- Blocks change, and nothing else. -/
theorem Addr.blocks {m : ℕ → AfUnix ν} {touched : ℕ → Prop} (h : s.Addr accepted)
    (hm : AfUnix.Fades touched s.block m) (htouched : ∀ y, touched y → accepted y = true →
      (m y).iStatus = .estab) : Addr { s with block := m } accepted where
  threads := h.threads.blocks
  ring l hl z hz := h.ring l hl z (hm.ring l hz)
  estab y hy hfd := by
    by_cases ht : touched y
    · exact htouched y ht hy
    · exact (hm.status y ht).trans (h.estab y hy hfd)
  listens x hx hst := h.listens x hx (hm.listen x hst)
  calls := h.calls
  bound := h.bound_of fun x _ hx => ⟨hx, hm.iType x, hm.cFile x⟩

theorem Init.addr (h : s.Init) : s.Addr accepted := by
  have hfd (x : ℕ) : s.fd x ≠ true := by simp [h.fd]
  have hcalls (i : ℕ) : s.calls i = .idle := h.calls i
  have hopen (x : ℕ) : ¬ s.Open x := by
    rintro (hx | ⟨i, hi⟩)
    · exact hfd x hx
    · cases (hcalls i).symm.trans hi
  have hlinked (x : ℕ) : x ∉ s.plineAfUnix := by simp [h.plineAfUnix]
  refine ⟨⟨fun x hx => absurd hx (hfd x), fun i x hx => ?_, fun i x hx => ?_, fun i x hx => ?_⟩,
    fun l hl => absurd hl (hlinked l), fun y _ hy => absurd hy (hfd y),
    fun x hx => absurd hx (hlinked x), fun i => ?_, fun x y p hx => absurd hx (hopen x)⟩
  all_goals rw [hcalls i] at *
  · exact hx.elim
  · exact hx.elim
  · exact hx.elim
  · trivial

/-- An open socket is linked. -/
theorem Threads.linked (h : s.Threads) (hx : s.Open x) : x ∈ s.plineAfUnix := by
  rcases hx with hfd | ⟨i, hi⟩
  · exact h.fd x hfd
  · refine h.uses i x ?_
    rw [hi]
    exact rfl

theorem find_listens [DecidableEq ν] {p : ν} {t : UnixType} (h : s.find p t = some x) :
    s.Listens x t p := by
  have hx := List.find?_some h
  simp only [decide_eq_true_eq] at hx
  exact ⟨List.mem_of_find?_eq_some h, hx⟩

/-- `__unixFind` does not miss a socket that listens. -/
theorem Listens.find [DecidableEq ν] {p : ν} {t : UnixType} (h : s.Listens x t p) :
    ∃ y, s.find p t = some y := by
  refine Option.isSome_iff_exists.mp (List.find?_isSome.mpr ⟨x, h.1, ?_⟩)
  simpa using h.2

/-- `unix_close` begins, on a socket that no other thread is in a call on. -/
theorem Addr.close {i : ℕ} (h : s.Addr accepted) (hfd : s.fd x = true) (hi : s.calls i = .idle)
    (hok : ∀ j, ¬ (s.calls j).Uses x) :
    Addr { s.goto i (.close x) with fd := update s.fd x false } accepted := by
  have hopen {y : ℕ} (hy : Open { s.goto i (.close x) with fd := update s.fd x false } y) :
      s.Open y := by
    obtain rfl | hne := eq_or_ne y x
    · exact .inl hfd
    · exact hy.of_goto (update_of_ne hne ..) (by simpa using hne.symm)
  have hopen' {y : ℕ} (hy : s.Open y) :
      Open { s.goto i (.close x) with fd := update s.fd x false } y := by
    obtain rfl | hne := eq_or_ne y x
    · exact .inr ⟨i, update_self ..⟩
    · exact hy.goto (update_of_ne hne ..) (by simp [hi])
  refine ⟨?_, h.ring, fun y hy hyfd => ?_, fun y hy hst => ?_, fits_update h.calls trivial,
    h.bound_of fun y _ hy => ⟨hopen hy, rfl, rfl⟩⟩
  · refine h.threads.advance (fun y hy => ?_) (fun j y _ hy => ⟨h.threads.uses j y hy, ?_⟩)
      (fun y hy => ?_) (fun y hy => ?_) fun y hy hno => absurd hy hno
    · have hne : y ≠ x := by
        rintro rfl
        cases (update_self ..).symm.trans hy
      exact h.threads.fd y ((update_of_ne hne ..).symm.trans hy)
    · refine update_of_ne ?_ ..
      rintro rfl
      exact hok j hy
    · obtain rfl : x = y := hy
      exact h.threads.fd x hfd
    · obtain rfl : x = y := hy
      exact ⟨update_self .., fun j _ => hok j⟩
  · have hne : y ≠ x := by
      rintro rfl
      cases (update_self ..).symm.trans hyfd
    exact h.estab y hy ((update_of_ne hne ..).symm.trans hyfd)
  · exact ⟨(h.listens y hy hst).1, hopen' (h.listens y hy hst).2⟩

end UnixHost

/-! ## Datagram sockets -/

namespace DgramHost
variable {s s' : DgramHost ν} {x y : ℕ} {p : ν}

/-- A socket with a descriptor is linked, and no two have one path. -/
structure Unique (s : DgramHost ν) : Prop where
  fd : ∀ x, s.fd x = true → x ∈ s.plineAfUnix
  bound : ∀ x y p, s.Bound x p → s.Bound y p → x = y

/-- No socket gets a path. -/
theorem Unique.keep (h : s.Unique) (hfd : ∀ x, s'.fd x = true → x ∈ s'.plineAfUnix)
    (hfile : ∀ x p, s'.Bound x p → s.Bound x p) : s'.Unique :=
  ⟨hfd, fun x y p hx hy => h.bound x y p (hfile x p hx) (hfile y p hy)⟩

/-- A block gets another peer. -/
theorem cFile_update {m : ℕ → DgramSock ν} {peer : Option ℕ} :
    (update m x { m x with pafunxPeer := peer } y).cFile = (m y).cFile := by
  obtain rfl | hne := eq_or_ne y x
  · rw [update_self]
  · rw [update_of_ne hne]

variable [DecidableEq ν]

theorem find_bound (h : s.find p = some x) : s.Bound x p := by
  have hx := List.find?_some h
  exact ⟨List.mem_of_find?_eq_some h, of_decide_eq_true hx⟩

/-- `__unixFind` does not miss a socket that has the path. -/
theorem Bound.find (h : s.Bound x p) : ∃ y, s.find p = some y :=
  Option.isSome_iff_exists.mp (List.find?_isSome.mpr ⟨x, h.1, decide_eq_true h.2⟩)

theorem Unique.bind (h : s.Unique) (x : ℕ) (p : ν) : (s.bind x p).1.Unique := by
  unfold DgramHost.bind
  cases hfind : s.find p with
  | some y => exact h
  | none =>
    have hfree (y : ℕ) : ¬ s.Bound y p := by
      intro hy
      obtain ⟨z, hz⟩ := hy.find
      rw [hfind] at hz
      cases hz
    refine ⟨h.fd, fun y z q hy hz => ?_⟩
    obtain ⟨hyl, hqy⟩ := hy
    obtain ⟨hzl, hqz⟩ := hz
    dsimp only at hqy hqz
    obtain rfl | hyx := eq_or_ne y x
    · obtain rfl | hzy := eq_or_ne z y
      · rfl
      · rw [update_self] at hqy
        rw [update_of_ne hzy] at hqz
        cases hqy
        exact absurd ⟨hzl, hqz⟩ (hfree z)
    · rw [update_of_ne hyx] at hqy
      obtain rfl | hzx := eq_or_ne z x
      · rw [update_self] at hqz
        cases hqz
        exact absurd ⟨hyl, hqy⟩ (hfree y)
      · rw [update_of_ne hzx] at hqz
        exact h.bound y z q ⟨hyl, hqy⟩ ⟨hzl, hqz⟩

theorem Unique.step {e : DgramEvent ν} (h : s.Unique) (hs : s.step e = some s') : s'.Unique := by
  cases e with
  | socket x =>
    simp only [DgramHost.step] at hs
    split_ifs at hs with hx
    cases hs
    refine h.keep (fun y hy => ?_) fun y p ⟨hyl, hp⟩ => ?_
    · obtain rfl | hyx := eq_or_ne y x
      · exact List.mem_cons_self
      · exact .tail x (h.fd y ((update_of_ne hyx ..).symm.trans hy))
    · dsimp only at hp
      obtain rfl | hyx := eq_or_ne y x
      · rw [update_self] at hp
        cases hp
      · rw [update_of_ne hyx] at hp
        exact ⟨List.mem_of_ne_of_mem hyx hyl, hp⟩
  | bind x p =>
    simp only [DgramHost.step] at hs
    split_ifs at hs
    cases hs
    exact h.bind x p
  | listen x =>
    simp only [DgramHost.step] at hs
    split_ifs at hs
    cases hs
    exact h
  | accept x =>
    simp only [DgramHost.step] at hs
    split_ifs at hs
    cases hs
    exact h
  | connect x p =>
    simp only [DgramHost.step] at hs
    split_ifs at hs
    cases hs
    unfold DgramHost.connect
    cases s.find p with
    | none => exact h
    | some acce => exact h.keep h.fd fun y q hq => ⟨hq.1, cFile_update.symm.trans hq.2⟩
  | socketpair x y =>
    simp only [DgramHost.step] at hs
    split_ifs at hs
    cases hs
    exact h.keep h.fd fun z q hq => ⟨hq.1, cFile_update.symm.trans (cFile_update.symm.trans hq.2)⟩
  | close x =>
    simp only [DgramHost.step] at hs
    split_ifs at hs
    cases hs
    refine h.keep (fun y hy => ?_) fun y p hp => hp
    have hyx : y ≠ x := by
      rintro rfl
      cases (update_self ..).symm.trans hy
    exact h.fd y ((update_of_ne hyx ..).symm.trans hy)
  | closeDelete x =>
    simp only [DgramHost.step] at hs
    split_ifs at hs with hx
    cases hs
    have hmem {y : ℕ} : y ∈ (s.delete x).plineAfUnix ↔ y ∈ s.plineAfUnix ∧ y ≠ x := by
      simp [DgramHost.delete]
    refine h.keep (fun y hy => hmem.mpr ⟨h.fd y hy, ?_⟩) fun y p ⟨hyl, hp⟩ => ⟨(hmem.mp hyl).1, ?_⟩
    · rintro rfl
      cases hx.2.symm.trans hy
    · simp only [DgramHost.delete] at hp
      split_ifs at hp <;> exact hp

end DgramHost

/-! ## All sockets -/

namespace AddrHost
variable [DecidableEq ν] {s s' : AddrHost ν} {x y : ℕ} {p : ν}

/-- Where every other socket that is bound to a path listens, `unix_bind` refuses the path. -/
theorem bind_refused (h : s.host.Addr s.accepted) (hok : s.StepOk (.conn (.bind x p))) (hne : y ≠ x)
    (hy : s.Bound y (s.host.block x).iType p) : ∃ z, s.host.find p (s.host.block x).iType = some z :=
  UnixHost.Listens.find ⟨h.threads.linked hy.1, hy.2.2.1, hy.2.2.2, hok y hne hy⟩

/-- `unix_bind`, where every other socket that is bound to the path listens. -/
theorem addr_bind (h : s.host.Addr s.accepted) (hok : s.StepOk (.conn (.bind x p))) :
    (s.host.bind x p).1.Addr s.accepted := by
  unfold UnixHost.bind
  cases hfind : s.host.find p (s.host.block x).iType with
  | some y => exact h
  | none =>
    have hfree (y : ℕ) (hne : y ≠ x) : ¬ s.Bound y (s.host.block x).iType p := by
      intro hy
      obtain ⟨z, hz⟩ := bind_refused h hok hne hy
      rw [hfind] at hz
      cases hz
    have hkeep (m : ℕ → AfUnix ν)
        (hm : m = update s.host.block x { s.host.block x with cFile := some p }) (c : ℕ) :
        (m c).iType = (s.host.block c).iType ∧ (m c).iStatus = (s.host.block c).iStatus ∧
        (m c).pringConnect = (s.host.block c).pringConnect ∧
        (m c).cFile = if c = x then some p else (s.host.block c).cFile := by
      obtain rfl | hne := eq_or_ne c x
      · rw [hm, update_self, if_pos rfl]
        exact ⟨rfl, rfl, rfl, rfl⟩
      · rw [hm, update_of_ne hne, if_neg hne]
        exact ⟨rfl, rfl, rfl, rfl⟩
    dsimp only
    generalize hm : update s.host.block x { s.host.block x with cFile := some p } = m
    have hkeep := hkeep m hm.symm
    refine ⟨h.threads.blocks, fun l hl z hz => ?_, fun y hy hfd => ?_, fun y hy hst => ?_, h.calls,
      fun y z q hy hz hay haz htype hqy hqz => ?_⟩
    · exact h.ring l hl z ((hkeep l).2.2.1 ▸ hz)
    · exact (hkeep y).2.1.trans (h.estab y hy hfd)
    · exact h.listens y hy ((hkeep y).2.1.symm.trans hst)
    · rw [(hkeep y).1, (hkeep z).1] at htype
      rw [(hkeep y).2.2.2] at hqy
      rw [(hkeep z).2.2.2] at hqz
      split_ifs at hqy hqz with hyx hzx hzx
      · rw [hyx, hzx]
      · subst hyx
        cases hqy
        exact absurd ⟨hz, haz, htype.symm, hqz⟩ (hfree z hzx)
      · subst hzx
        cases hqz
        exact absurd ⟨hy, hay, htype, hqy⟩ (hfree y hyx)
      · exact h.bound y z q hy hz hay haz htype hqy hqz

/-- A step of the sockets that connect. -/
theorem addr_step {e : ConnEvent ν} {host : UnixHost ν} (h : s.host.Addr s.accepted)
    (hok : s.StepOk (.conn e)) (hs : s.host.step e = some host) : host.Addr (s.created e) := by
  cases e with
  | socket x iType =>
    simp only [UnixHost.step] at hs
    split_ifs at hs with hx
    cases hs
    have hne {y : ℕ} (hy : y ∈ s.host.plineAfUnix) : y ≠ x := fun heq => hx (heq ▸ hy)
    refine h.create hx (fun y hy => update_of_ne hy ..) (fun hb => by cases hb)
      ⟨fun y hy => ?_, fun i y hy => .tail x (h.threads.uses i y hy), fun i y hy => ?_,
        fun i y hy hno => ?_⟩
      (fun i => (h.calls i).update fun hu => hx (h.threads.uses i x hu)) fun _ => Iff.rfl
    · obtain rfl | hyx := eq_or_ne y x
      · exact List.mem_cons_self
      · exact .tail x (h.threads.fd y ((update_of_ne hyx ..).symm.trans hy))
    · obtain ⟨hfd, honly⟩ := h.threads.owns i y hy
      exact ⟨(update_of_ne (hne (h.threads.uses i y hy.uses)) ..).trans hfd, honly⟩
    · exact (update_of_ne (hne (h.threads.uses i y hy)) ..).trans (h.threads.held i y hy hno)
  | bind x p =>
    rw [UnixHost.step_bind] at hs
    split_ifs at hs
    cases hs
    exact addr_bind h hok
  | nonblock x on =>
    simp only [UnixHost.step] at hs
    split_ifs at hs
    cases hs
    have hm : AfUnix.Fades (fun _ => False) s.host.block
        (update s.host.block x { s.host.block x with nonblock := on }) :=
      AfUnix.fades_update rfl rfl (List.Subset.refl _) (.inl rfl)
    exact h.blocks hm fun _ hy => hy.elim
  | socketpair x y =>
    simp only [UnixHost.step] at hs
    split_ifs at hs with hxy
    cases hs
    refine h.blocks AfUnix.connect2_fades fun z hz _ => ?_
    obtain ⟨-, -, hne⟩ := hxy
    rcases hz with rfl | rfl <;> simp [AfUnix.connect2, hne, hne.symm]
  | listen i x backlog =>
    refine h.call hs (fun y hy => ?_) (fun y hy => ?_) (fun y => ?_) fun hfd => ?_
    all_goals split_ifs at *
    all_goals first
      | exact trivial
      | exact hy
      | exact hy.elim
      | exact hy.symm
      | simp
      | skip
    rename_i hst
    exact h.of_status hfd (by simp [hst])
  | connect i x p =>
    exact h.call hs (fun y hy => Eq.symm hy) (fun y hy => hy) (by simp) fun _ => trivial
  | accept i x =>
    refine h.call hs (fun y hy => ?_) (fun y hy => ?_) (fun y => ?_) fun _ => ?_
    all_goals split_ifs at *
    all_goals first
      | exact trivial
      | exact hy
      | exact hy.elim
      | exact hy.symm
      | simp
  | close i x =>
    simp only [UnixHost.step, UnixHost.call] at hs
    split at hs
    · rename_i hidle
      split_ifs at hs with hfd
      · cases hs
        exact h.close hfd hidle hok
      · cases hs
    · cases hs
  | locked i memory =>
    by_cases hnew : ∃ x new, s.host.calls i = .acceptCreate x ∧ memory = some new
    · obtain ⟨x, new, hi, rfl⟩ := hnew
      simp only [UnixHost.step, UnixHost.locked, hi] at hs
      split_ifs at hs with hlinked
      cases hs
      have hcreated : s.created (.locked i (some new)) = update s.accepted new true := by
        simp only [created, hi]
      rw [hcreated]
      exact h.acceptCreate hi hlinked
    · have hcreated : s.created (.locked i memory) = s.accepted := by
        cases memory with
        | none => rfl
        | some new =>
          simp only [created]
          split
          · rename_i x hi
            exact absurd ⟨x, new, hi, rfl⟩ hnew
          · rfl
      rw [hcreated]
      exact h.locked hok (fun x new hi hmem => hnew ⟨x, new, hi, hmem⟩) hs

/-- What every step keeps. -/
structure Kept (s : AddrHost ν) : Prop where
  addr : s.host.Addr s.accepted
  dgram : s.dgram.Unique

omit [DecidableEq ν] in
theorem Init.kept (h : s.Init) : s.Kept where
  addr := h.host.addr
  dgram := by
    refine ⟨fun x hx => ?_, fun x y p hx => ?_⟩
    · cases (h.fd x).symm.trans hx
    · have hlinked := hx.1
      rw [h.plineAfUnix] at hlinked
      cases hlinked

theorem Kept.step {e : AddrEvent ν} (h : s.Kept) (hok : s.StepOk e) (hs : s.step e = some s') :
    s'.Kept := by
  cases e with
  | conn e =>
    obtain ⟨host, hhost, rfl⟩ := Option.map_eq_some_iff.mp hs
    exact ⟨addr_step h.addr hok hhost, h.dgram⟩
  | dgram e =>
    obtain ⟨dgram, hdgram, rfl⟩ := Option.map_eq_some_iff.mp hs
    exact ⟨h.addr, h.dgram.step hdgram⟩

omit [DecidableEq ν] in
theorem Kept.bound {t : UnixType} (h : s.Kept) (hx : s.Bound x t p) (hy : s.Bound y t p) : x = y :=
  h.addr.bound x y p hx.1 hy.1 hx.2.1 hy.2.1 (hx.2.2.1.trans hy.2.2.1.symm) hx.2.2.2 hy.2.2.2

omit [DecidableEq ν] in
theorem Kept.listens {t : UnixType} (h : s.Kept) (hx : s.host.Listens x t p) : s.Bound x t p := by
  obtain ⟨hlinked, htype, hfile, hst⟩ := hx
  obtain ⟨hax, hopen⟩ := h.addr.listens x hlinked hst
  exact ⟨hopen, hax, htype, hfile⟩

theorem Kept.addressed (h : s.Kept) : s.Addressed where
  bound _ _ _ _ := h.bound
  listens _ _ _ := h.listens
  listen _ _ _ _ hx hy := h.bound (h.listens hx) (h.listens hy)
  connect x t p := by
    refine ⟨UnixHost.find_listens, fun hx => ?_⟩
    obtain ⟨y, hy⟩ := hx.find
    rw [hy, h.bound (h.listens (UnixHost.find_listens hy)) (h.listens hx)]
  dgram := h.dgram.bound
  bindDgram x y p _ hy := by
    obtain ⟨z, hz⟩ := hy.find
    rw [DgramHost.bind, hz]
  sendto x y p := by
    refine ⟨DgramHost.find_bound, fun hy => ?_⟩
    obtain ⟨z, hz⟩ := hy.find
    rw [DgramHost.receiver, hz, h.dgram.bound z y p (DgramHost.find_bound hz) hy]

/-- Where sockets are bound to a path only when every other socket that is bound to it listens, and no
control block is deleted that is still in use, each path leads to one socket of a type, and `unix_bind`
refuses a path that an open socket is bound to. -/
theorem unix_address (h : Reach (fun s : AddrHost ν => s.step) StepOk Init s) :
    s.Addressed ∧ ∀ x y p, s.StepOk (.conn (.bind x p)) → y ≠ x →
      s.Bound y (s.host.block x).iType p → s.host.bind x p = (s.host, false) := by
  have hkept : s.Kept := h.invariant (fun _ => Init.kept) fun _ _ _ hs hok hstep => hs.step hok hstep
  refine ⟨hkept.addressed, fun x y p hok hne hy => ?_⟩
  obtain ⟨z, hz⟩ := bind_refused hkept.addr hok hne hy
  rw [UnixHost.bind, hz]

/-- No sockets. -/
def noAddr : AddrHost ℕ where
  host := .noSockets
  accepted _ := false
  dgram :=
    { block := fun _ => { cFile := none, pafunxPeer := none }
      plineAfUnix := []
      fd := fun _ => false }

omit [DecidableEq ν] in
theorem noAddr_init : noAddr.Init := ⟨UnixHost.noSockets_init, rfl, fun _ => rfl⟩

/-- Socket 0 listens on the path 7, and socket 1 is refused it. -/
theorem unix_address_seven : ∃ s : AddrHost ℕ, s.host.find 7 .stream = some 0 ∧
    s.host.bind 1 7 = (s.host, false) := by
  have h : Reach (fun s : AddrHost ℕ => s.step) StepOk Init _ :=
    (((((Reach.start noAddr_init).extend (.conn (.socket 0 .stream)) trivial rfl).extend
      (.conn (.bind 0 7)) (by
        rintro y hy ⟨-, -, -, hfile⟩
        cases (congrArg AfUnix.cFile (update_of_ne hy ..)).symm.trans hfile) rfl).extend
      (.conn (.listen 0 0 4)) trivial rfl).extend (.conn (.locked 0 none)) (by rintro _ ⟨⟩) rfl).extend
      (.conn (.socket 1 .stream)) trivial rfl
  obtain ⟨haddr, hbind⟩ := unix_address h
  refine ⟨_, (haddr.connect 0 .stream 7).mpr ⟨by decide, rfl, rfl, rfl⟩,
    hbind 1 0 7 ?_ (by decide) ⟨.inl rfl, rfl, rfl, rfl⟩⟩
  rintro y hy ⟨-, -, -, hfile⟩
  obtain rfl | hne := eq_or_ne y 0
  · rfl
  · cases (congrArg AfUnix.cFile ((update_of_ne hy ..).trans
      ((update_of_ne hne ..).trans ((update_of_ne hne ..).trans
        (update_of_ne hne ..))))).symm.trans hfile

/-- Two sockets are bound to one path before either listens. -/
theorem not_unix_address : ¬ ∀ s : AddrHost ℕ,
    Reach (fun s : AddrHost ℕ => s.step) (fun _ _ => True) Init s →
    s.Addressed ∧ ∀ x y p, s.host.fd x = true → y ≠ x → s.Bound y (s.host.block x).iType p →
      s.host.bind x p = (s.host, false) := by
  intro hall
  have hruns : runs (fun s : AddrHost ℕ => s.step) noAddr
      [.conn (.socket 0 .stream), .conn (.socket 1 .stream), .conn (.bind 0 7), .conn (.bind 1 7),
        .conn (.listen 0 0 4), .conn (.locked 0 none), .conn (.listen 0 1 4),
        .conn (.locked 0 none)] = some _ := rfl
  have haddr := (hall _ ((Reach.start noAddr_init).of_runs hruns)).1
  have heq := haddr.listen 0 1 .stream 7 ⟨by decide, rfl, rfl, rfl⟩ ⟨by decide, rfl, rfl, rfl⟩
  cases heq

end AddrHost
end SylixOS.Net
