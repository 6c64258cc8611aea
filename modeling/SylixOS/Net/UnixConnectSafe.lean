import SylixOS.Net.UnixConnect

/-! # What connections keep

The rings, the statuses and the peers of the local sockets agree, as long as a socket that is closed is in
no other call and `unix_listen` finds the status it has looked at.
-/

namespace SylixOS.Net
open Lib

variable {ν : Type*} {live : List ℕ} {m : ℕ → AfUnix ν} {x y : ℕ}

namespace AfUnix

/-! ## What the operations do to each block -/

theorem connect_apply {acce : ℕ} (hne : x ≠ acce) (c : ℕ) : connect m x acce c =
    if c = acce then
      { m acce with pringConnect := (m acce).pringConnect ++ [x], iConnNum := (m acce).iConnNum + 1 }
    else if c = x then { m x with iStatus := .connect, pafunxPeer := some acce }
    else m c := by
  simp [connect, Function.update_apply, hne.symm]

theorem unconnect_apply {acce : ℕ} (hne : x ≠ acce) (hpeer : (m x).pafunxPeer = some acce) (c : ℕ) :
    unconnect m x c =
      if c = x then { m x with iStatus := .none, pafunxPeer := none }
      else if c = acce then
        { m acce with pringConnect := (m acce).pringConnect.erase x
                      iConnNum := (m acce).iConnNum - 1 }
      else m c := by
  simp only [unconnect, hpeer, Function.update_apply, hne, hne.symm, if_true, if_false]
  split_ifs <;> rfl

theorem accept_apply {new conn : ℕ} (hx : new ≠ x) (hconn : new ≠ conn) (hne : x ≠ conn) (c : ℕ) :
    accept m x new conn c =
      if c = new then
        { m new with iStatus := .estab, pafunxPeer := some conn, cFile := (m x).cFile }
      else if c = conn then { m conn with iStatus := .estab, pafunxPeer := some new }
      else if c = x then
        { m x with pringConnect := (m x).pringConnect.erase conn, iConnNum := (m x).iConnNum - 1 }
      else m c := by
  simp [accept, Function.update_apply, hx, hconn, hne, hne.symm]

theorem foldl_refuse_apply (l : List ℕ) (c : ℕ) : l.foldl refuse m c =
    if c ∈ l then { m c with iStatus := .none, pafunxPeer := none } else m c := by
  induction l generalizing m with
  | nil => simp
  | cons a l ih =>
    rw [List.foldl_cons, ih]
    by_cases hca : c = a
    · subst hca
      simp [refuse]
    · simp [refuse, hca]

theorem refuseAll_apply (hne : x ∉ (m x).pringConnect) (c : ℕ) : refuseAll m x c =
    if c = x then { m x with pringConnect := [], iConnNum := 0 }
    else if c ∈ (m x).pringConnect then { m c with iStatus := .none, pafunxPeer := none }
    else m c := by
  simp [refuseAll, Function.update_apply, foldl_refuse_apply, hne]

theorem disconnect_apply (c : ℕ) : disconnect m x c =
    if c = x then { m x with iStatus := .none, pafunxPeer := none }
    else if (m x).pafunxPeer = some c then { m c with pafunxPeer := none }
    else m c := by
  unfold disconnect
  cases hpeer : (m x).pafunxPeer with
  | none => simp [Function.update_apply]
  | some y =>
    by_cases hy : c = y
    · subst hy
      by_cases hx : c = x
      · subst hx
        simp
      · simp [hx, Ne.symm hx]
    · by_cases hx : x = y
      · subst hx
        simp [hy, Ne.symm hy]
      · simp [Function.update_apply, hy, hx, Ne.symm hy]

/-! ## What they keep -/

namespace Linked

theorem none_peer (h : Linked live m) (hx : x ∈ live) (hst : (m x).iStatus = .none) :
    (m x).pafunxPeer = none := by
  by_contra hp
  obtain ⟨d, hd⟩ := Option.ne_none_iff_exists'.mp hp
  have := (h.peer x hx d hd).2
  rw [hst] at this
  simp at this

/-- Only a socket that listens has a ring. -/
theorem ring_nil (h : Linked live m) (hx : x ∈ live) (hst : (m x).iStatus ≠ .listen) :
    (m x).pringConnect = [] := by
  rw [List.eq_nil_iff_forall_not_mem]
  intro c hc
  obtain ⟨hcl, hcs, hcp⟩ := (h.ring x hx c).mp hc
  obtain ⟨l, _, hl, hls⟩ := h.connect c hcl hcs
  rw [hcp, Option.some.injEq] at hl
  exact hst (hl ▸ hls)

theorem not_mem_ring (h : Linked live m) (hx : x ∈ live) : x ∉ (m x).pringConnect := by
  intro hm
  have hs := ((h.ring x hx x).mp hm).2.1
  have hn := h.ring_nil hx (by rw [hs]; decide)
  rw [hn] at hm
  cases hm

/-- What the links do not look at may change. -/
theorem congr {m' : ℕ → AfUnix ν} (h : Linked live m)
    (hm : ∀ c, (m' c).iStatus = (m c).iStatus ∧ (m' c).pafunxPeer = (m c).pafunxPeer ∧
      (m' c).pringConnect = (m c).pringConnect ∧ (m' c).iConnNum = (m c).iConnNum) :
    Linked live m' where
  ring l hl c := by simpa [hm] using h.ring l hl c
  connect c hc := by simpa [hm] using h.connect c hc
  nodup l hl := by simpa [hm] using h.nodup l hl
  connNum l hl := by simpa [hm] using h.connNum l hl
  estab c hc d := by simpa [hm] using h.estab c hc d
  peer c hc d := by simpa [hm] using h.peer c hc d

theorem create (h : Linked live m) (hx : x ∉ live) (iType : UnixType) :
    Linked (x :: live) (Function.update m x (.create iType)) := by
  have hne : ∀ c ∈ live, c ≠ x := fun c hc h => hx (h ▸ hc)
  refine ⟨fun l hl c => ?_, fun c hc => ?_, fun l hl => ?_, fun l hl => ?_, fun c hc d => ?_, fun c hc d => ?_⟩
  all_goals simp only [Function.update_apply, List.mem_cons] at *
  · rcases hl with rfl | hl
    · have := fun hc => h.peer c hc l
      simp [AfUnix.create]
      grind
    · have := h.ring l hl c
      have := hne l hl
      grind [AfUnix.create]
  · have := fun hc => h.connect c hc
    grind [AfUnix.create]
  · have := fun hl => h.nodup l hl
    grind [AfUnix.create]
  · have := fun hl => h.connNum l hl
    grind [AfUnix.create]
  · have := fun hc => h.estab c hc d
    have := fun hc => h.peer c hc d
    grind [AfUnix.create]
  · have := fun hc => h.peer c hc d
    grind [AfUnix.create]

theorem listen (h : Linked live m) (hx : x ∈ live) (hst : (m x).iStatus = .none) (backlog : ℤ) :
    Linked live (Function.update m x { m x with iBacklog := backlog, iStatus := .listen }) := by
  have hp := h.none_peer hx hst
  refine ⟨fun l hl c => ?_, fun c hc => ?_, fun l hl => ?_, fun l hl => ?_, fun c hc d => ?_, fun c hc d => ?_⟩
  all_goals simp only [Function.update_apply]
  · have := h.ring l hl c
    grind
  · have := h.connect c hc
    grind
  · have := h.nodup l hl
    grind
  · have := h.connNum l hl
    grind
  · have := h.estab c hc d
    grind
  · have := h.peer c hc d
    grind

theorem connect2 (h : Linked live m) (hx : x ∈ live) (hy : y ∈ live) (hne : x ≠ y)
    (hxs : (m x).iStatus = .none) (hys : (m y).iStatus = .none) : Linked live (connect2 m x y) := by
  have hxp := h.none_peer hx hxs
  have hyp := h.none_peer hy hys
  refine ⟨fun l hl c => ?_, fun c hc => ?_, fun l hl => ?_, fun l hl => ?_, fun c hc d => ?_, fun c hc d => ?_⟩
  all_goals simp only [AfUnix.connect2, Function.update_apply, if_neg hne.symm]
  · have := h.ring l hl c
    grind
  · have := h.connect c hc
    grind
  · have := h.nodup l hl
    grind
  · have := h.connNum l hl
    grind
  · have := h.estab c hc d
    grind
  · have := h.peer c hc d
    grind

theorem connectTo {acce : ℕ} (h : Linked live m) (hx : x ∈ live) (hst : (m x).iStatus = .none)
    (ha : acce ∈ live) (hl : (m acce).iStatus = .listen) : Linked live (AfUnix.connect m x acce) := by
  have hne : x ≠ acce := by
    rintro rfl
    rw [hst] at hl
    cases hl
  have hxp := h.none_peer hx hst
  have hxr : x ∉ (m acce).pringConnect := by
    rw [h.ring acce ha]
    simp [hst]
  refine ⟨fun l hl c => ?_, fun c hc => ?_, fun l hl => ?_, fun l hl => ?_, fun c hc d => ?_, fun c hc d => ?_⟩
  all_goals simp only [connect_apply hne]
  · have := h.ring l hl c
    grind
  · have := h.connect c hc
    grind
  · have := h.nodup l hl
    split_ifs with hla hlx
    · subst hla
      rw [List.nodup_append]
      grind
    · exact hlx ▸ this
    · exact this
  · have := h.connNum l hl
    split_ifs with hla hlx
    · subst hla
      simp [this]
    · exact hlx ▸ this
    · exact this
  · have := h.estab c hc d
    grind
  · have := h.peer c hc d
    grind

/-- A request is taken back. -/
theorem unconnect (h : Linked live m) (hx : x ∈ live) (hst : (m x).iStatus = .connect) :
    Linked live (AfUnix.unconnect m x) := by
  obtain ⟨acce, ha, hpeer, hl⟩ := h.connect x hx hst
  have hne : x ≠ acce := by
    rintro rfl
    rw [hst] at hl
    cases hl
  have hxr : x ∈ (m acce).pringConnect := (h.ring acce ha x).mpr ⟨hx, hst, hpeer⟩
  have hnodup := h.nodup acce ha
  have hmem : ∀ c, c ∈ (m acce).pringConnect.erase x ↔ c ≠ x ∧ c ∈ (m acce).pringConnect :=
    fun c => hnodup.mem_erase_iff
  have hlen := List.length_erase_add_one hxr
  refine ⟨fun l hl c => ?_, fun c hc => ?_, fun l hl => ?_, fun l hl => ?_, fun c hc d => ?_, fun c hc d => ?_⟩
  all_goals simp only [unconnect_apply hne hpeer]
  · have := h.ring l hl c
    grind
  · have := h.connect c hc
    grind
  · have := h.nodup l hl
    have := hnodup.erase x
    grind
  · have := h.connNum l hl
    split_ifs with hlx hla
    · exact hlx ▸ this
    · subst hla
      dsimp only
      omega
    · exact this
  · have := h.estab c hc d
    grind
  · have := h.peer c hc d
    grind

/-- The first socket of the ring is connected to a new one. -/
theorem accept {new conn : ℕ} {ring : List ℕ} (h : Linked live m) (hx : x ∈ live)
    (hring : (m x).pringConnect = conn :: ring) (hnew : new ∈ live) (hst : (m new).iStatus = .none) :
    Linked live (AfUnix.accept m x new conn) := by
  have hmem : conn ∈ (m x).pringConnect := by simp [hring]
  obtain ⟨hc, hcs, hcp⟩ := (h.ring x hx conn).mp hmem
  obtain ⟨l, hl, hlp, hls⟩ := h.connect conn hc hcs
  obtain rfl : x = l := by rw [hcp] at hlp; exact Option.some.inj hlp
  have hnx : new ≠ x := by
    rintro rfl
    rw [hst] at hls
    cases hls
  have hnc : new ≠ conn := by
    rintro rfl
    rw [hst] at hcs
    cases hcs
  have hxc : x ≠ conn := by
    rintro rfl
    rw [hcs] at hls
    cases hls
  have hnp := h.none_peer hnew hst
  have hnodup := h.nodup x hx
  have hmem' : ∀ c, c ∈ (m x).pringConnect.erase conn ↔ c ≠ conn ∧ c ∈ (m x).pringConnect :=
    fun c => hnodup.mem_erase_iff
  have hlen := List.length_erase_add_one hmem
  refine ⟨fun l hl c => ?_, fun c hc => ?_, fun l hl => ?_, fun l hl => ?_, fun c hc d => ?_, fun c hc d => ?_⟩
  all_goals simp only [accept_apply hnx hnc hxc]
  · have := h.ring l hl c
    grind
  · have := h.connect c hc
    grind
  · have := h.nodup l hl
    have := hnodup.erase conn
    grind
  · have := h.connNum l hl
    split_ifs with h₁ h₂ h₃
    · exact h₁ ▸ this
    · exact h₂ ▸ this
    · subst h₃
      dsimp only
      omega
    · exact this
  · have := h.estab c hc d
    grind
  · have := h.peer c hc d
    grind

theorem refuseAll (h : Linked live m) (hx : x ∈ live) : Linked live (AfUnix.refuseAll m x) := by
  have hxr := h.not_mem_ring hx
  have hring := h.ring x hx
  refine ⟨fun l hl c => ?_, fun c hc => ?_, fun l hl => ?_, fun l hl => ?_, fun c hc d => ?_, fun c hc d => ?_⟩
  all_goals simp only [refuseAll_apply hxr]
  · have := h.ring l hl c
    grind
  · have := h.connect c hc
    grind
  · have := h.nodup l hl
    grind
  · have := h.connNum l hl
    grind
  · have := h.estab c hc d
    grind
  · have := h.peer c hc d
    grind

/-- A socket that is in no connection any more, or whose peer gives it up too. -/
theorem disconnect (h : Linked live m) (hx : x ∈ live) (hst : (m x).iStatus ≠ .connect)
    (hring : (m x).pringConnect = []) : Linked live (AfUnix.disconnect m x) := by
  have hnone : ∀ c ∈ live, (m c).iStatus = .connect → (m c).pafunxPeer ≠ some x := by
    intro c hc hcs hcp
    have := (h.ring x hx c).mpr ⟨hc, hcs, hcp⟩
    simp [hring] at this
  have hsym := h.estab x hx
  refine ⟨fun l hl c => ?_, fun c hc => ?_, fun l hl => ?_, fun l hl => ?_, fun c hc d => ?_, fun c hc d => ?_⟩
  all_goals simp only [disconnect_apply]
  · have := h.ring l hl c
    have := h.peer x hx
    grind
  · have := h.connect c hc
    have := h.peer x hx
    grind
  · have := h.nodup l hl
    grind
  · have := h.connNum l hl
    grind
  · have := h.estab c hc d
    have := h.peer x hx
    grind
  · have := h.peer c hc d
    grind

theorem close (h : Linked live m) (hx : x ∈ live) : Linked live (AfUnix.close m x) := by
  unfold AfUnix.close
  split
  · rename_i hst
    obtain ⟨acce, ha, hpeer, hl⟩ := h.connect x hx hst
    have hne : x ≠ acce := by
      rintro rfl
      rw [hst] at hl
      cases hl
    have hring := h.ring_nil hx (by rw [hst]; decide)
    refine (h.unconnect hx hst).disconnect hx ?_ ?_
    all_goals simp [unconnect_apply hne hpeer, hring]
  · rename_i hst
    refine (h.refuseAll hx).disconnect hx ?_ ?_
    all_goals simp [refuseAll_apply (h.not_mem_ring hx), hst]
  · rename_i hc hl
    exact h.disconnect hx hc (h.ring_nil hx hl)

/-- Nobody's peer is a socket that is in no connection. -/
theorem ne_peer (h : Linked live m) (hst : (m x).iStatus = .none) :
    ∀ c ∈ live, (m c).pafunxPeer ≠ some x := by
  intro c hc hp
  rcases (h.peer c hc x hp).2 with hcs | hcs
  · obtain ⟨l, _, hlp, hls⟩ := h.connect c hc hcs
    rw [hp, Option.some.injEq] at hlp
    rw [← hlp, hst] at hls
    cases hls
  · have := (h.estab c hc x hcs hp).1
    rw [hst] at this
    cases this

/-- It can be taken out. -/
theorem filter (h : Linked live m) (hst : (m x).iStatus = .none) :
    Linked (live.filter (· ≠ x)) m := by
  have hpeer := h.ne_peer hst
  refine ⟨fun l hl c => ?_, fun c hc => ?_, fun l hl => ?_, fun l hl => ?_, fun c hc d => ?_, fun c hc d => ?_⟩
  all_goals simp only [List.mem_filter, decide_eq_true_eq] at *
  · have := h.ring l hl.1 c
    grind
  · have := h.connect c hc.1
    grind
  · exact h.nodup l hl.1
  · exact h.connNum l hl.1
  · exact h.estab c hc.1 d
  · have := h.peer c hc.1 d
    grind

end Linked

/-! ## Sockets in no connection -/

theorem update_status {b : AfUnix ν} (hb : y = x → b.iStatus = .none) (hy : (m y).iStatus = .none) :
    (Function.update m x b y).iStatus = .none := by
  by_cases h : y = x
  · subst h
    rw [Function.update_self]
    exact hb rfl
  · rw [Function.update_of_ne h]
    exact hy

theorem connect_status {acce : ℕ} (hne : y ≠ x) (hy : (m y).iStatus = .none) :
    (AfUnix.connect m x acce y).iStatus = .none := by
  refine update_status ?_ (update_status (fun h => absurd h hne) hy)
  rintro rfl
  rwa [Function.update_of_ne hne]

theorem unconnect_status (hy : (m y).iStatus = .none) : (unconnect m x y).iStatus = .none := by
  have hx := update_status (b := { m x with iStatus := .none }) (x := x) (fun _ => rfl) hy
  unfold unconnect
  cases (m x).pafunxPeer with
  | none => exact hx
  | some acce =>
    refine update_status ?_ (update_status ?_ hx)
    · rintro rfl
      refine update_status ?_ hx
      rintro rfl
      exact hx
    · rintro rfl
      exact hx

theorem refuseAll_status (hy : (m y).iStatus = .none) : (refuseAll m x y).iStatus = .none := by
  have hf : ∀ z, (m z).iStatus = .none →
      ((m x).pringConnect.foldl refuse m z).iStatus = .none := by
    intro z hz
    rw [foldl_refuse_apply]
    split_ifs
    · rfl
    · exact hz
  refine update_status ?_ (hf y hy)
  rintro rfl
  exact hf y hy

theorem disconnect_status (hy : (m y).iStatus = .none) : (disconnect m x y).iStatus = .none := by
  rw [disconnect_apply]
  split_ifs
  · rfl
  · exact hy
  · exact hy

theorem close_status (hy : (m y).iStatus = .none) : (close m x y).iStatus = .none := by
  unfold close
  cases (m x).iStatus with
  | connect => exact disconnect_status (unconnect_status hy)
  | listen => exact disconnect_status (refuseAll_status hy)
  | none => exact disconnect_status hy
  | estab => exact disconnect_status hy

theorem close_self : (close m x x).iStatus = .none := by
  unfold close
  cases (m x).iStatus <;> simp [disconnect_apply]

theorem accept_status {new conn : ℕ} (hnew : y ≠ new) (hconn : y ≠ conn)
    (hy : (m y).iStatus = .none) : (AfUnix.accept m x new conn y).iStatus = .none := by
  refine update_status (fun h => absurd h hnew) ?_
  refine update_status (fun h => absurd h hconn) ?_
  refine update_status ?_ hy
  rintro rfl
  exact hy

end AfUnix

namespace ConnCall

/-- Only this call may work on the socket. -/
def Owns (x : ℕ) : ConnCall ν → Prop
  | close y | closeDelete y | acceptTake _ y | acceptDelete _ y => y = x
  | _ => False

/-- The socket is in no connection. -/
def Alone (x : ℕ) : ConnCall ν → Prop
  | closeDelete y | acceptTake _ y | acceptDelete _ y => y = x
  | _ => False

/-- `unix_accept` has another socket than the new one. -/
def Apart : ConnCall ν → Prop
  | acceptTake y new | acceptDelete y new => y ≠ new
  | _ => True

theorem Alone.owns {c : ConnCall ν} (h : c.Alone x) : c.Owns x := by
  cases c <;> first | exact h | cases h

theorem Owns.uses {c : ConnCall ν} (h : c.Owns x) : c.Uses x := by
  cases c <;> first | exact h | exact .inr h | cases h

end ConnCall

namespace UnixHost

/-- The links are right, and nobody works on a socket that is closed or not given out yet. -/
structure Kept (s : UnixHost ν) : Prop where
  linked : AfUnix.Linked s.plineAfUnix s.block
  fd : ∀ x, s.fd x = true → x ∈ s.plineAfUnix
  uses : ∀ i x, (s.calls i).Uses x → x ∈ s.plineAfUnix
  owns : ∀ i x, (s.calls i).Owns x → s.fd x = false ∧ ∀ j, (s.calls j).Uses x → j = i
  alone : ∀ i x, (s.calls i).Alone x → (s.block x).iStatus = .none
  apart : ∀ i, (s.calls i).Apart

variable {s s' : UnixHost ν}

theorem Init.kept (h : s.Init) : s.Kept where
  linked := by
    rw [h.plineAfUnix]
    constructor <;> intro _ h <;> cases h
  fd x hx := by simp [h.fd] at hx
  uses i x hx := by simp [h.calls, ConnCall.Uses] at hx
  owns i x hx := by simp [h.calls, ConnCall.Owns] at hx
  alone i x hx := by simp [h.calls, ConnCall.Alone] at hx
  apart i := by simp [h.calls, ConnCall.Apart]

/-- A thread goes to `c` while blocks, the list and descriptors change, and what the other threads have
stays. -/
theorem Kept.advance {i : ℕ} {c : ConnCall ν} {m : ℕ → AfUnix ν} {live : List ℕ} {fd : ℕ → Bool}
    (h : s.Kept) (hm : AfUnix.Linked live m) (hfd : ∀ x, fd x = true → x ∈ live)
    (hlive : ∀ j x, j ≠ i → (s.calls j).Uses x → x ∈ live)
    (hclosed : ∀ j x, j ≠ i → (s.calls j).Owns x → fd x = false)
    (hstatus : ∀ j x, j ≠ i → (s.calls j).Alone x → (m x).iStatus = .none)
    (huses : ∀ x, c.Uses x → x ∈ live ∧ ∀ j, j ≠ i → ¬ (s.calls j).Owns x)
    (howns : ∀ x, c.Owns x → fd x = false ∧ ∀ j, j ≠ i → ¬ (s.calls j).Uses x)
    (halone : ∀ x, c.Alone x → (m x).iStatus = .none) (hapart : c.Apart) :
    Kept ⟨m, live, fd, Function.update s.calls i c⟩ := by
  refine ⟨hm, hfd, fun j x hx => ?_, fun j x hx => ?_, fun j x hx => ?_, fun j => ?_⟩
  all_goals dsimp only at *
  all_goals by_cases hj : j = i
  · subst hj
    rw [Function.update_self] at hx
    exact (huses x hx).1
  · rw [Function.update_of_ne hj] at hx
    exact hlive j x hj hx
  · subst hj
    rw [Function.update_self] at hx
    refine ⟨(howns x hx).1, fun k hk => ?_⟩
    by_contra hkj
    rw [Function.update_of_ne hkj] at hk
    exact (howns x hx).2 k hkj hk
  · rw [Function.update_of_ne hj] at hx
    refine ⟨hclosed j x hj hx, fun k hk => ?_⟩
    by_cases hki : k = i
    · subst hki
      rw [Function.update_self] at hk
      exact absurd hx ((huses x hk).2 j hj)
    · rw [Function.update_of_ne hki] at hk
      exact (h.owns j x hx).2 k hk
  · subst hj
    rw [Function.update_self] at hx
    exact halone x hx
  · rw [Function.update_of_ne hj] at hx
    exact hstatus j x hj hx
  · subst hj
    rw [Function.update_self]
    exact hapart
  · rw [Function.update_of_ne hj]
    exact h.apart j

/-- No other thread owns what a thread works on. -/
theorem Kept.not_owns {i j : ℕ} (h : s.Kept) (hx : (s.calls i).Uses x) (hj : j ≠ i) :
    ¬ (s.calls j).Owns x :=
  fun ho => hj ((h.owns j x ho).2 i hx).symm

/-- The blocks change while a thread goes on, on sockets that it has worked on before. -/
theorem Kept.change {i : ℕ} {c : ConnCall ν} {m : ℕ → AfUnix ν} (h : s.Kept)
    (hm : AfUnix.Linked s.plineAfUnix m) (huses : ∀ x, c.Uses x → (s.calls i).Uses x)
    (howns : ∀ x, c.Owns x → (s.calls i).Owns x) (halone : ∀ x, c.Alone x → (m x).iStatus = .none)
    (hstatus : ∀ y, (s.block y).iStatus = .none → ¬ (s.calls i).Uses y → (m y).iStatus = .none)
    (hapart : c.Apart) : Kept { s.goto i c with block := m } := by
  refine h.advance hm h.fd (fun j x _ => h.uses j x) (fun j x _ ho => (h.owns j x ho).1)
    (fun j x hj ha => ?_) (fun x hx => ⟨h.uses i x (huses x hx), fun j => h.not_owns (huses x hx)⟩)
    (fun x hx => ⟨(h.owns i x (howns x hx)).1, fun j hj hu => ?_⟩) halone hapart
  · exact hstatus x (h.alone j x ha) fun hu => h.not_owns hu hj ha.owns
  · exact hj ((h.owns i x (howns x hx)).2 j hu)

/-- A thread goes on to where it does not own anything. -/
theorem Kept.goto {i : ℕ} {c : ConnCall ν} (h : s.Kept) (huses : ∀ x, c.Uses x → (s.calls i).Uses x)
    (howns : ∀ x, ¬ c.Owns x) (hapart : c.Apart) : (s.goto i c).Kept :=
  h.change h.linked huses (fun x hx => absurd hx (howns x)) (fun x hx => absurd hx.owns (howns x))
    (fun _ hy _ => hy) hapart

theorem Kept.toIdle {i : ℕ} (h : s.Kept) : (s.goto i .idle).Kept :=
  h.goto (fun _ hx => hx.elim) (fun _ hx => hx) trivial

theorem Kept.acceptAgain {i : ℕ} (h : s.Kept) (huses : (s.calls i).Uses x) :
    (s.acceptAgain i x).Kept := by
  unfold UnixHost.acceptAgain
  split_ifs
  · exact h.toIdle
  · exact h.goto (fun y hy => hy ▸ huses) (fun _ hx => hx) trivial

/-- A thread that is in no call makes one. -/
theorem Kept.call {i : ℕ} {c : ConnCall ν} (h : s.Kept) (hcall : s.call i x c = some s')
    (huses : ∀ y, c.Uses y → y = x) (howns : ∀ y, ¬ c.Owns y) (hapart : c.Apart) : s'.Kept := by
  unfold UnixHost.call at hcall
  split at hcall
  · split_ifs at hcall with hfd
    cases hcall
    refine h.advance h.linked h.fd (fun j y _ => h.uses j y) (fun j y _ ho => (h.owns j y ho).1)
      (fun j y _ => h.alone j y) (fun y hy => ?_) (fun y hy => absurd hy (howns y))
      (fun y hy => absurd hy.owns (howns y)) hapart
    obtain rfl := huses y hy
    refine ⟨h.fd y hfd, fun j _ ho => ?_⟩
    have := (h.owns j y ho).1
    simp [hfd] at this
  · cases hcall

theorem find_some [DecidableEq ν] {cPath : ν} {iType : UnixType} {acce : ℕ}
    (h : s.find cPath iType = some acce) : acce ∈ s.plineAfUnix ∧ (s.block acce).iStatus = .listen := by
  unfold find at h
  refine ⟨List.mem_of_find?_eq_some h, ?_⟩
  have := List.find?_some h
  simp only [decide_eq_true_eq] at this
  exact this.2.2

/-- A socket in no connection that only the thread works on is deleted. -/
theorem Kept.delete {i : ℕ} {c : ConnCall ν} (h : s.Kept) (ha : (s.calls i).Alone x)
    (huses : ∀ y, c.Uses y → (s.calls i).Uses y ∧ y ≠ x) (howns : ∀ y, ¬ c.Owns y) (hapart : c.Apart) :
    ((s.delete x).goto i c).Kept := by
  have hst := h.alone i x ha
  have ⟨hfd, hothers⟩ := h.owns i x ha.owns
  have hblock : (s.delete x).block = s.block := by
    funext y
    simp only [UnixHost.delete]
    rw [if_neg]
    rintro ⟨hy, hp⟩
    exact h.linked.ne_peer hst y hy hp
  have hmem : ∀ y, y ∈ s.plineAfUnix → y ≠ x → y ∈ (s.delete x).plineAfUnix := by
    intro y hy hne
    simp [UnixHost.delete, hy, hne]
  refine h.advance (hblock ▸ h.linked.filter hst) (fun y hy => hmem y (h.fd y hy) ?_)
    (fun j y hj hu => hmem y (h.uses j y hu) ?_) (fun j y _ ho => (h.owns j y ho).1)
    (fun j y _ hy => hblock ▸ h.alone j y hy)
    (fun y hy => ⟨hmem y (h.uses i y (huses y hy).1) (huses y hy).2, fun j => h.not_owns (huses y hy).1⟩)
    (fun y hy => absurd hy (howns y)) (fun y hy => absurd hy.owns (howns y)) hapart
  · rintro rfl
    change s.fd y = true at hy
    simp [hfd] at hy
  · rintro rfl
    exact hj (hothers j hu)

/-- A call of `unix_connect` that has come to an end, or waits. -/
theorem Kept.connect {i acce : ℕ} {cPath : ν} {c : ConnCall ν} (h : s.Kept)
    (hc : s.calls i = .connect x cPath) (hst : (s.block x).iStatus = .none)
    (ha : acce ∈ s.plineAfUnix) (hl : (s.block acce).iStatus = .listen) (hend : c = .idle ∨ c = .connWait x) :
    Kept { s.goto i c with block := AfUnix.connect s.block x acce } := by
  have hx : (s.calls i).Uses x := by
    rw [hc]
    exact rfl
  have howns : ∀ y, ¬ c.Owns y := by
    rintro y hy
    rcases hend with rfl | rfl <;> exact hy
  refine h.change (h.linked.connectTo (h.uses i x hx) hst ha hl) (fun y hy => ?_)
    (fun y hy => absurd hy (howns y)) (fun y hy => absurd hy.owns (howns y)) (fun y hy hu => ?_) ?_
  · rcases hend with rfl | rfl
    · exact hy.elim
    · obtain rfl : x = y := hy
      exact hx
  · exact AfUnix.connect_status (fun hxy => hu (hxy ▸ hx)) hy
  · rcases hend with rfl | rfl <;> trivial

/-- A new socket for `unix_accept`. -/
theorem Kept.acceptCreate {i new : ℕ} {iType : UnixType} (h : s.Kept) (hc : s.calls i = .acceptCreate x)
    (hnew : new ∉ s.plineAfUnix) :
    Kept { s.goto i (.acceptTake x new) with
      block := Function.update s.block new (.create iType)
      plineAfUnix := new :: s.plineAfUnix } := by
  have hx : (s.calls i).Uses x := by
    rw [hc]
    exact rfl
  have hlive := h.uses i x hx
  refine h.advance (h.linked.create hnew _) (fun y hy => List.mem_cons_of_mem _ (h.fd y hy))
    (fun j y _ hu => List.mem_cons_of_mem _ (h.uses j y hu)) (fun j y _ ho => (h.owns j y ho).1)
    (fun j y _ ha => AfUnix.update_status (fun _ => rfl) (h.alone j y ha))
    (fun y hy => ?_) (fun y hy => ?_) (fun y hy => ?_) ?_
  · rcases hy with rfl | rfl
    · exact ⟨List.mem_cons_of_mem _ hlive, fun j => h.not_owns hx⟩
    · exact ⟨List.mem_cons_self, fun j _ ho => hnew (h.uses j new ho.uses)⟩
  · obtain rfl : new = y := hy
    exact ⟨Bool.eq_false_iff.mpr fun hf => hnew (h.fd new hf), fun j _ hu => hnew (h.uses j new hu)⟩
  · obtain rfl : new = y := hy
    simp [AfUnix.create]
  · rintro rfl
    exact hnew hlive

/-- The first request of the ring is accepted. -/
theorem Kept.acceptTake {i new conn : ℕ} {ring : List ℕ} (h : s.Kept)
    (hc : s.calls i = .acceptTake x new) (hring : (s.block x).pringConnect = conn :: ring) :
    Kept { s.goto i .idle with
      block := AfUnix.accept s.block x new conn
      fd := Function.update s.fd new true } := by
  have hx : (s.calls i).Uses x := by
    rw [hc]
    exact .inl rfl
  have ha : (s.calls i).Alone new := by
    rw [hc]
    exact rfl
  have hothers := (h.owns i new ha.owns).2
  have hn := h.uses i new ha.owns.uses
  have hconn : (s.block conn).iStatus = .connect := by
    refine ((h.linked.ring x (h.uses i x hx) conn).mp ?_).2.1
    rw [hring]
    exact List.mem_cons_self
  refine h.advance (h.linked.accept (h.uses i x hx) hring hn (h.alone i new ha)) (fun y hy => ?_)
    (fun j y _ => h.uses j y) (fun j y hj hy => ?_) (fun j y hj hy => ?_) (fun _ hy => hy.elim)
    (fun _ hy => hy.elim) (fun _ hy => hy.elim) trivial
  · by_cases hyn : y = new
    · exact hyn ▸ hn
    · rw [Function.update_of_ne hyn] at hy
      exact h.fd y hy
  · have hyn : y ≠ new := fun hyn => hj (hothers j (hyn ▸ hy.uses))
    rw [Function.update_of_ne hyn]
    exact (h.owns j y hy).1
  · have hst := h.alone j y hy
    refine AfUnix.accept_status (fun hyn => hj (hothers j (hyn ▸ hy.owns.uses))) ?_ hst
    rintro rfl
    rw [hst] at hconn
    cases hconn

/-- Nobody was left on the ring, and the new socket goes. -/
theorem Kept.acceptDelete {i new : ℕ} (h : s.Kept) (hc : s.calls i = .acceptDelete x new) :
    ((s.delete new).acceptAgain i x).Kept := by
  have ha : (s.calls i).Alone new := by
    rw [hc]
    exact rfl
  have hne : x ≠ new := by
    have := h.apart i
    rw [hc] at this
    exact this
  unfold UnixHost.acceptAgain
  split_ifs
  · exact h.delete ha (fun _ hy => hy.elim) (fun _ hy => hy) trivial
  · refine h.delete ha (fun y hy => ?_) (fun _ hy => hy) trivial
    obtain rfl : x = y := hy
    exact ⟨by rw [hc]; exact .inl rfl, hne⟩

/-- A step that is no thread's own. -/
theorem Kept.outside {m : ℕ → AfUnix ν} (h : s.Kept) (hm : AfUnix.Linked s.plineAfUnix m)
    (hstatus : ∀ i y, (s.calls i).Alone y → (m y).iStatus = .none) : Kept { s with block := m } :=
  ⟨hm, h.fd, h.uses, h.owns, hstatus, h.apart⟩

section Step
variable [DecidableEq ν]

theorem Kept.locked {i : ℕ} {memory : Option ℕ} (h : s.Kept)
    (hok : ∀ x backlog, s.calls i = .listen x backlog → (s.block x).iStatus = .none)
    (hs : s.locked i memory = some s') : s'.Kept := by
  have hlive := h.uses i
  have halone := h.alone i
  unfold UnixHost.locked at hs
  cases hc : s.calls i with
  | idle => simp [hc] at hs
  | listen x backlog =>
    rw [hc] at hlive
    simp only [hc] at hs
    by_cases hf : (s.block x).cFile = none
    · rw [if_pos hf] at hs
      cases hs
      exact h.toIdle
    · rw [if_neg hf] at hs
      cases hs
      refine h.change (h.linked.listen (hlive x rfl) (hok x backlog hc) _) (fun _ hy => hy.elim)
        (fun _ hy => hy.elim) (fun _ hy => hy.elim) (fun y hy hu => ?_) trivial
      refine AfUnix.update_status (fun hxy => ?_) hy
      subst hxy
      exact absurd (by rw [hc]; exact rfl) hu
  | connect x cPath =>
    simp only [hc] at hs
    by_cases hst : (s.block x).iStatus ≠ .none
    · rw [if_pos hst] at hs
      cases hs
      exact h.toIdle
    · rw [if_neg hst] at hs
      split at hs
      · cases hs
        exact h.toIdle
      · rename_i acce hfind
        have ⟨ha, hl⟩ := find_some hfind
        by_cases hfull : (s.block acce).iStatus ≠ .listen ∨ (s.block acce).iBacklog < (s.block acce).iConnNum
        · rw [if_pos hfull] at hs
          cases hs
          exact h.toIdle
        · rw [if_neg hfull] at hs
          cases hs
          refine h.connect hc (not_not.mp hst) ha hl ?_
          split_ifs
          · exact .inl rfl
          · exact .inr rfl
  | connWait x =>
    rw [hc] at hlive
    simp only [hc] at hs
    by_cases hst : (s.block x).iStatus = .connect
    · rw [if_pos hst] at hs
      cases hs
      exact h.change (h.linked.unconnect (hlive x rfl) hst) (fun _ hy => hy.elim) (fun _ hy => hy.elim)
        (fun _ hy => hy.elim) (fun y hy _ => AfUnix.unconnect_status hy) trivial
    · rw [if_neg hst] at hs
      cases hs
      exact h.toIdle
  | accept x =>
    simp only [hc] at hs
    split_ifs at hs <;> cases hs
    · exact h.goto (fun y hy => by rw [hc]; exact hy) (fun _ hy => hy) trivial
    · exact h.acceptAgain (by rw [hc]; exact rfl)
  | acceptCreate x =>
    simp only [hc] at hs
    split at hs
    · cases hs
      exact h.goto (fun y hy => by rw [hc]; exact hy) (fun _ hy => hy) trivial
    · split_ifs at hs with hnew
      cases hs
      exact h.acceptCreate hc hnew
  | acceptTake x new =>
    rw [hc] at halone
    simp only [hc] at hs
    split at hs
    · cases hs
      have hapart := h.apart i
      rw [hc] at hapart
      exact h.change h.linked (fun y hy => by rw [hc]; exact hy) (fun y hy => by rw [hc]; exact hy)
        halone (fun _ hy _ => hy) hapart
    · rename_i conn ring hring
      cases hs
      exact h.acceptTake hc hring
  | acceptDelete x new =>
    simp only [hc] at hs
    cases hs
    exact h.acceptDelete hc
  | acceptRefuse x =>
    rw [hc] at hlive
    simp only [hc] at hs
    cases hs
    exact h.change (h.linked.refuseAll (hlive x rfl)) (fun _ hy => hy.elim) (fun _ hy => hy.elim)
      (fun _ hy => hy.elim) (fun y hy _ => AfUnix.refuseAll_status hy) trivial
  | close x =>
    rw [hc] at hlive
    simp only [hc] at hs
    cases hs
    refine h.change (h.linked.close (hlive x rfl)) (fun y hy => by rw [hc]; exact hy)
      (fun y hy => by rw [hc]; exact hy) (fun y hy => ?_) (fun y hy _ => AfUnix.close_status hy) trivial
    obtain rfl : x = y := hy
    exact AfUnix.close_self
  | closeDelete x =>
    simp only [hc] at hs
    cases hs
    exact h.delete (by rw [hc]; exact rfl) (fun _ hy => hy.elim) (fun _ hy => hy) trivial

theorem Kept.step {e : ConnEvent ν} (h : s.Kept) (hok : s.StepOk e) (hs : s.step e = some s') :
    s'.Kept := by
  cases e with
  | socket x iType =>
    simp only [UnixHost.step] at hs
    split_ifs at hs with hx
    cases hs
    refine ⟨h.linked.create hx _, fun y hy => ?_, fun i y hy => List.mem_cons_of_mem _ (h.uses i y hy),
      fun i y hy => ⟨?_, (h.owns i y hy).2⟩,
      fun i y hy => AfUnix.update_status (fun _ => rfl) (h.alone i y hy), h.apart⟩
    · by_cases hyx : y = x
      · exact hyx ▸ List.mem_cons_self
      · dsimp only at hy
        rw [Function.update_of_ne hyx] at hy
        exact List.mem_cons_of_mem _ (h.fd y hy)
    · have hyx : y ≠ x := fun hyx => hx (hyx ▸ h.uses i y hy.uses)
      dsimp only
      rw [Function.update_of_ne hyx]
      exact (h.owns i y hy).1
  | bind x cPath =>
    simp only [UnixHost.step] at hs
    split_ifs at hs
    split at hs
    · cases hs
      refine h.outside (h.linked.congr fun c => ?_) fun i y hy => ?_
      · by_cases hcx : c = x
        · subst hcx
          simp
        · simp [Function.update_of_ne hcx]
      · refine AfUnix.update_status ?_ (h.alone i y hy)
        rintro rfl
        exact h.alone i y hy
    · cases hs
      exact h
  | nonblock x on =>
    simp only [UnixHost.step] at hs
    split_ifs at hs
    cases hs
    refine h.outside (h.linked.congr fun c => ?_) fun i y hy => ?_
    · by_cases hcx : c = x
      · subst hcx
        simp
      · simp [Function.update_of_ne hcx]
    · refine AfUnix.update_status ?_ (h.alone i y hy)
      rintro rfl
      exact h.alone i y hy
  | socketpair x y =>
    simp only [UnixHost.step] at hs
    split_ifs at hs with hxy
    cases hs
    obtain ⟨hx, hy, hne⟩ := hxy
    have hfd : ∀ z, s.fd z = true → ∀ i, ¬ (s.calls i).Alone z := by
      intro z hz i ha
      have := (h.owns i z ha.owns).1
      simp [hz] at this
    refine h.outside (h.linked.connect2 (h.fd x hx) (h.fd y hy) hne hok.1 hok.2) fun i z hz => ?_
    refine AfUnix.update_status (fun hzy => ?_) (AfUnix.update_status (fun hzx => ?_) (h.alone i z hz))
    · exact absurd hz (hfd z (hzy ▸ hy) i)
    · exact absurd hz (hfd z (hzx ▸ hx) i)
  | listen i x backlog =>
    refine h.call hs (fun y hy => ?_) (fun y hy => ?_) ?_
    all_goals split_ifs at *
    all_goals first
      | exact trivial
      | exact hy
      | exact hy.elim
      | exact hy.symm
  | connect i x cPath => exact h.call hs (fun y hy => Eq.symm hy) (fun y hy => hy) trivial
  | accept i x =>
    refine h.call hs (fun y hy => ?_) (fun y hy => ?_) ?_
    all_goals split_ifs at *
    all_goals first
      | exact trivial
      | exact hy
      | exact hy.elim
      | exact hy.symm
  | close i x =>
    simp only [UnixHost.step, UnixHost.call] at hs
    split at hs
    · split_ifs at hs with hfd
      · cases hs
        refine h.advance h.linked (fun y hy => ?_) (fun j y _ => h.uses j y) (fun j y _ hy => ?_)
          (fun j y _ => h.alone j y) (fun y hy => ?_) (fun y hy => ?_) (fun y hy => hy.elim) trivial
        · by_cases hyx : y = x
          · simp [hyx, UnixHost.goto] at hy
          · simp only [UnixHost.goto, Function.update_of_ne hyx] at hy
            exact h.fd y hy
        · by_cases hyx : y = x
          · subst hyx
            simp
          · simp only [UnixHost.goto, Function.update_of_ne hyx]
            exact (h.owns j y hy).1
        · obtain rfl : x = y := hy
          exact ⟨h.fd x hfd, fun j _ ho => hok j ho.uses⟩
        · obtain rfl : x = y := hy
          exact ⟨by simp, fun j _ hu => hok j hu⟩
      · cases hs
    · cases hs
  | locked i memory => exact h.locked (fun x backlog hc => hok x backlog hc) hs

/-- In a run in which no socket is closed that another thread is in a call on, and `unix_listen` finds the
status it has looked at, the rings, the statuses and the peers agree. -/
theorem unixConnect_linked (h : Reach (fun s : UnixHost ν => s.step) StepOk Init s) :
    AfUnix.Linked s.plineAfUnix s.block :=
  (h.invariant (fun _ => Init.kept) fun _ _ _ hs hok hstep => hs.step hok hstep).linked

end Step

/-- No sockets. -/
def noSockets : UnixHost ℕ where
  block _ := .create .stream
  plineAfUnix := []
  fd _ := false
  calls _ := .idle

theorem noSockets_init : noSockets.Init := by
  constructor <;> intros <;> rfl

/-- Socket 0 listens, and the socket 2 that its thread gets is connected to socket 1. -/
theorem unixConnect_linked_three : ∃ s : UnixHost ℕ, (s.block 1).pafunxPeer = some 2 ∧
    AfUnix.Linked s.plineAfUnix s.block := by
  have h : Reach (fun s : UnixHost ℕ => s.step) StepOk Init _ :=
    (((((((((((Reach.start noSockets_init).extend (.socket 0 .stream) trivial rfl).extend
      (.socket 1 .stream) trivial rfl).extend (.bind 0 7) trivial rfl).extend
      (.listen 0 0 4) trivial rfl).extend (.locked 0 none) (by rintro _ _ ⟨⟩; rfl) rfl).extend
      (.connect 1 1 7) trivial rfl).extend (.locked 1 none) (by rintro _ _ ⟨⟩) rfl).extend
      (.accept 0 0) trivial rfl).extend (.locked 0 none) (by rintro _ _ ⟨⟩) rfl).extend
      (.locked 0 (some 2)) (by rintro _ _ ⟨⟩) rfl).extend (.locked 0 none) (by rintro _ _ ⟨⟩) rfl
  exact ⟨_, rfl, unixConnect_linked h⟩

/-- A socket that asks for a connection comes to listen, when `unix_listen` had looked at its status
before. -/
theorem unixConnect_listen : ∃ s : UnixHost ℕ,
    Reach (fun s : UnixHost ℕ => s.step) (fun _ _ => True) Init s ∧
    1 ∈ (s.block 0).pringConnect ∧ (s.block 1).iStatus = .listen ∧
    ¬ AfUnix.Linked s.plineAfUnix s.block := by
  have hruns : runs (fun s : UnixHost ℕ => s.step) noSockets
      [.socket 0 .stream, .socket 1 .stream, .bind 0 7, .bind 1 8, .listen 0 0 4, .locked 0 none,
        .listen 2 1 4, .connect 1 1 7, .locked 1 none, .locked 2 none] = some _ := rfl
  refine ⟨_, (Reach.start noSockets_init).of_runs hruns, by decide, rfl, fun hs => ?_⟩
  have := ((hs.ring 0 (by decide) 1).mp (by decide)).2.1
  exact absurd this (by decide)

end UnixHost
end SylixOS.Net
