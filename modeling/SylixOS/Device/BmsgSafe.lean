import SylixOS.Device.BmsgNode

/-! # Runs of block message nodes

What is stored is what writes said they stored and nothing has taken out. When there is something for a
side, there is a token for it, or one of its threads is on its way to look.
-/

namespace SylixOS.Device
open Lib Function

namespace BmsgCall

/-- The message of a write. -/
def data : BmsgCall → Option (List UInt8)
  | .write _ data _ => some data
  | _ => none

end BmsgCall

namespace BmsgNode

variable {s s' : BmsgNode} {i k k' n atSize : ℕ} {c : BmsgCall} {b : Bmsg} {data : List UInt8}
  {nonblock : Bool}

def readers (s : BmsgNode) (i : ℕ) : Phase := (s.calls i).reader

def writers (s : BmsgNode) (i : ℕ) : Phase := (s.calls i).writer

/-- What holds whomever the posts call. -/
structure Base (s : BmsgNode) : Prop where
  writes : ∀ w ∈ s.writes, ∀ n, w.2 = some n → n = w.1.length
  order : (s.writes.filter fun w => w.2.isSome).map Prod.fst = s.gone.map Prod.snd ++ s.msgs
  got : s.got = (s.gone.filter Prod.fst).map Prod.snd
  buffer : ∀ b, s.pbmsg = some b → b.Holds s.msgs
  empty : s.pbmsg = none → s.msgs = []
  calls : ∀ i, s.calls i ≠ .idle → s.pbmsg.isSome ∧ (s.calls i).data ≠ some []
  lock : s.ulMutex = none
  fitsR : s.ulReadLock.Fits s.readers
  fitsW : s.ulWriteLock.Fits s.writers

/-- A reader is called when a message is stored. -/
def CalledR (s : BmsgNode) : Prop := s.msgs ≠ [] → s.ulReadLock.Called s.readers

/-- A writer is called when a message of the atomic size fits. -/
def CalledW (s : BmsgNode) : Prop :=
  ∀ b, s.pbmsg = some b → s.stAtSize ≤ b.bmsgFreeByte → s.ulWriteLock.Called s.writers

structure Inv (s : BmsgNode) : Prop extends Base s where
  calledR : s.CalledR
  calledW : s.CalledW

theorem setCall_readers : (s.setCall i c).readers = update s.readers i c.reader := by
  funext j
  rcases eq_or_ne j i with rfl | hne
  · simp [readers, setCall]
  · simp [readers, setCall, hne]

theorem setCall_writers : (s.setCall i c).writers = update s.writers i c.writer := by
  funext j
  rcases eq_or_ne j i with rfl | hne
  · simp [writers, setCall]
  · simp [writers, setCall, hne]

/-! ## Threads that go on -/

section Base
variable (hs : s.Base)
include hs

/-- Two threads that do not differ in what they write. -/
theorem Base.setCalls (hc : c ≠ .idle → s.pbmsg.isSome ∧ c.data ≠ some []) :
    ∀ j, (s.setCall i c).calls j ≠ .idle →
      s.pbmsg.isSome ∧ ((s.setCall i c).calls j).data ≠ some [] := by
  intro j hj
  rcases eq_or_ne j i with rfl | hne
  · simp only [setCall, update_self] at hj ⊢
    exact hc hj
  · simp only [setCall, update_of_ne hne] at hj ⊢
    exact hs.calls j hj

/-- A thread that waits for nothing goes on. -/
theorem Base.move (hr : s.readers i ≠ .wait) (hw : s.writers i ≠ .wait) (hcr : c.reader ≠ .wait)
    (hcw : c.writer ≠ .wait) (hc : c ≠ .idle → s.pbmsg.isSome ∧ c.data ≠ some []) :
    (s.setCall i c).Base :=
  { hs with
    calls := hs.setCalls hc
    fitsR := by rw [setCall_readers]; exact hs.fitsR.move hr hcr
    fitsW := by rw [setCall_writers]; exact hs.fitsW.move hw hcw }

/-- A write that failed is one that stored nothing. -/
theorem Base.refuse : Base { s with writes := s.writes ++ [(data, none)] } :=
  { hs with
    writes := fun w hw n hn => by
      rcases List.mem_append.mp hw with hw | hw
      · exact hs.writes w hw n hn
      · obtain rfl := List.mem_singleton.mp hw
        cases hn
    order := by simpa using hs.order }

/-! ## Posts -/

/-- A reader that is given the token looks again, and nothing else changes. -/
theorem Base.wakeR {w : Option ℕ} (hw : ∀ i, w = some i → s.readers i = .wait) :
    ∃ calls, s.wake w = { s with calls } ∧
      (fun i => (calls i).reader) = Token.woken s.readers w ∧ (fun i => (calls i).writer) = s.writers ∧
      ∀ i, calls i ≠ .idle → s.pbmsg.isSome ∧ (calls i).data ≠ some [] := by
  cases w with
  | none => exact ⟨s.calls, rfl, rfl, rfl, hs.calls⟩
  | some i =>
    have hi := hw i rfl
    cases hc : s.calls i with
    | read phase n nonblock =>
      have hwriter : (BmsgCall.read .ready n nonblock).writer = s.writers i := by
        simp [writers, hc, BmsgCall.writer]
      have hcalls := hs.calls i (by simp [hc])
      refine ⟨_, rfl, ?_, ?_, hs.setCalls fun _ => ⟨hcalls.1, by simp [hc, BmsgCall.woken, BmsgCall.data]⟩⟩
      · refine setCall_readers.trans ?_
        rw [hc]
        rfl
      · refine setCall_writers.trans ?_
        rw [hc, BmsgCall.woken, hwriter, update_eq_self]
    | _ => simp [readers, hc, BmsgCall.reader] at hi

/-- A writer that is given the token looks again, and nothing else changes. -/
theorem Base.wakeW {w : Option ℕ} (hw : ∀ i, w = some i → s.writers i = .wait) :
    ∃ calls, s.wake w = { s with calls } ∧
      (fun i => (calls i).writer) = Token.woken s.writers w ∧ (fun i => (calls i).reader) = s.readers ∧
      ∀ i, calls i ≠ .idle → s.pbmsg.isSome ∧ (calls i).data ≠ some [] := by
  cases w with
  | none => exact ⟨s.calls, rfl, rfl, rfl, hs.calls⟩
  | some i =>
    have hi := hw i rfl
    cases hc : s.calls i with
    | write phase data nonblock =>
      have hreader : (BmsgCall.write .ready data nonblock).reader = s.readers i := by
        simp [readers, hc, BmsgCall.reader]
      have hcalls := hs.calls i (by simp [hc])
      rw [hc] at hcalls
      refine ⟨_, rfl, ?_, ?_, hs.setCalls fun _ => ⟨hcalls.1, ?_⟩⟩
      · refine setCall_writers.trans ?_
        rw [hc]
        rfl
      · refine setCall_readers.trans ?_
        rw [hc, BmsgCall.woken, hreader, update_eq_self]
      · rw [hc]
        exact hcalls.2
    | _ => simp [writers, hc, BmsgCall.writer] at hi

/-- A post for the readers. -/
theorem Base.postRead (k : ℕ) : (s.postRead k).Base ∧ (s.postRead k).CalledR ∧
    (s.CalledW → (s.postRead k).CalledW) ∧ (s.postRead k).pbmsg = s.pbmsg ∧
    (s.postRead k).stAtSize = s.stAtSize := by
  obtain ⟨calls, heq, hr, hw, hok⟩ := hs.wakeR (w := (s.ulReadLock.post k).2)
    fun _ => hs.fitsR.wait_of_post
  have hpost : s.postRead k = { s with calls, ulReadLock := (s.ulReadLock.post k).1 } := by
    rw [BmsgNode.postRead, heq]
  rw [hpost]
  refine ⟨{ hs with calls := hok, fitsR := ?_, fitsW := ?_ }, fun _ => ?_, fun hW b hb hle => ?_, rfl, rfl⟩
  · change Token.Fits _ fun i => (calls i).reader
    rw [hr]
    exact hs.fitsR.post k
  · change Token.Fits _ fun i => (calls i).writer
    rw [hw]
    exact hs.fitsW
  · change Token.Called _ fun i => (calls i).reader
    rw [hr]
    exact .post hs.fitsR k
  · change Token.Called _ fun i => (calls i).writer
    rw [hw]
    exact hW b hb hle

/-- A post for the writers. -/
theorem Base.postWrite (k : ℕ) : (s.postWrite k).Base ∧ (s.postWrite k).CalledW ∧
    (s.CalledR → (s.postWrite k).CalledR) ∧ (s.postWrite k).stAtSize = s.stAtSize := by
  obtain ⟨calls, heq, hw, hr, hok⟩ := hs.wakeW (w := (s.ulWriteLock.post k).2)
    fun _ => hs.fitsW.wait_of_post
  have hpost : s.postWrite k = { s with calls, ulWriteLock := (s.ulWriteLock.post k).1 } := by
    rw [BmsgNode.postWrite, heq]
  rw [hpost]
  refine ⟨{ hs with calls := hok, fitsR := ?_, fitsW := ?_ }, fun _ _ _ => ?_, fun hR hm => ?_, rfl⟩
  · change Token.Fits _ fun i => (calls i).reader
    rw [hr]
    exact hs.fitsR
  · change Token.Fits _ fun i => (calls i).writer
    rw [hw]
    exact hs.fitsW.post k
  · change Token.Called _ fun i => (calls i).writer
    rw [hw]
    exact .post hs.fitsW k
  · change Token.Called _ fun i => (calls i).reader
    rw [hr]
    exact hR hm

/-- The posts of a read call those for whom there is something left. -/
theorem Base.readNotify (hb : s.pbmsg = some b) (hW : b.bmsgFreeByte < s.stAtSize → s.CalledW)
    (k k' : ℕ) : (s.readNotify b k k').Inv := by
  obtain ⟨hpost, hR, hW', hsame, hat⟩ := hs.postRead k
  have hempty : b.bmsgNBytes = 0 → s.CalledR := fun hzero hne =>
    absurd ((hs.buffer b hb).empty_iff.mp hzero) hne
  have h₁ : ∃ s₁ : BmsgNode, s₁ = (if b.bmsgNBytes ≠ 0 then s.postRead k else s) ∧ s₁.Base ∧ s₁.CalledR ∧
      (s.CalledW → s₁.CalledW) ∧ s₁.pbmsg = some b ∧ s₁.stAtSize = s.stAtSize := by
    split_ifs with hbytes
    · exact ⟨_, rfl, hpost, hR, hW', hsame.trans hb, hat⟩
    · exact ⟨_, rfl, hs, hempty (not_not.mp hbytes), id, hb, rfl⟩
  obtain ⟨s₁, heq, hs₁, hR₁, hW₁, hb₁, hat₁⟩ := h₁
  unfold BmsgNode.readNotify
  rw [← heq]
  dsimp only
  obtain ⟨hpost', hW'', hR', -⟩ := hs₁.postWrite k'
  split_ifs with hfree
  · exact { hpost' with calledR := hR' hR₁, calledW := hW'' }
  · exact { hs₁ with calledR := hR₁, calledW := hW₁ (hW (by omega)) }

/-- The posts of a write. -/
theorem Base.writeNotify (hW : b.bmsgFreeByte < s.stAtSize → s.CalledW) (k k' : ℕ) :
    (s.writeNotify b k k').Inv := by
  obtain ⟨hpost, hW', -, -⟩ := hs.postWrite k
  unfold BmsgNode.writeNotify
  dsimp only
  split_ifs with hfree
  · obtain ⟨hpost', hR, hW'', -⟩ := hpost.postRead k'
    exact { hpost' with calledR := hR, calledW := hW'' hW' }
  · obtain ⟨hpost', hR, hW'', -⟩ := hs.postRead k'
    exact { hpost' with calledR := hR, calledW := hW'' (hW (by omega)) }

/-- A node with a new buffer has room, and its writers are called. -/
theorem Base.renew (hb : b.Holds []) : (s.renew b atSize k).Inv := by
  have hnew : Base
      { s with
        pbmsg := some b, stAtSize := atSize, ulReadLock := s.ulReadLock.clear
        msgs := [], gone := s.gone ++ s.msgs.map (false, ·) } :=
    { hs with
      order := by simpa [Function.comp_def] using hs.order
      got := by
        have hdropped : (s.msgs.map (false, ·)).filter Prod.fst = [] :=
          List.filter_eq_nil_iff.mpr (by simp)
        simp only [List.filter_append, hdropped, List.append_nil]
        exact hs.got
      buffer := fun b' hb' => Option.some.inj hb' ▸ hb
      empty := fun _ => rfl
      calls := fun i hi => ⟨rfl, (hs.calls i hi).2⟩
      fitsR := hs.fitsR.clear }
  obtain ⟨hpost, hW, hR, -⟩ := hnew.postWrite k
  exact { hpost with calledR := hR fun h => absurd rfl h, calledW := hW }

end Base

/-! ## Sections of reads -/

section Read
variable {phase : Phase}

theorem readers_of_call (hc : s.calls i = .read phase n nonblock) :
    s.readers i = phase ∧ s.writers i = .away := by
  simp [BmsgNode.readers, BmsgNode.writers, hc, BmsgCall.reader, BmsgCall.writer]

/-- A reader goes on, and the writers are called as before. -/
theorem CalledW.moveR (h : s.CalledW) (hw : s.writers i = .away) :
    (s.setCall i c).CalledW := fun b hb hle => by
  rw [setCall_writers]
  exact (h b hb hle).move (.inl (by simp [hw]))

theorem CalledR.moveW (h : s.CalledR) (hr : s.readers i = .away) :
    (s.setCall i c).CalledR := fun hm => by
  rw [setCall_readers]
  exact (h hm).move (.inl (by simp [hr]))

theorem Inv.readPend (hs : s.Inv) (hc : s.calls i = .read .pend n nonblock) :
    (s.readPend i n nonblock).Inv := by
  obtain ⟨hr, hw⟩ := readers_of_call hc
  have hok := hs.calls i (by simp [hc])
  unfold BmsgNode.readPend
  split_ifs
  · refine { hs.toBase.move (i := i) (c := .idle) (by simp [hr]) (by simp [hw]) nofun nofun nofun with
      calledR := fun hm => ?_, calledW := hs.calledW.moveR hw }
    rw [setCall_readers]
    exact (hs.calledR hm).move (.inl (by simp [hr]))
  · let c : BmsgCall := .read (s.ulReadLock.pend i).2 n nonblock
    have hr' : (s.setCall i c).readers = _ := setCall_readers
    have hw' : (s.setCall i c).writers = _ := setCall_writers
    exact
      { hs with
        calls := hs.toBase.setCalls fun _ => ⟨hok.1, nofun⟩
        fitsR := hr' ▸ hs.fitsR.pend hr
        fitsW := hw' ▸ hs.fitsW.move (by simp [hw]) nofun
        calledR := fun hm => hr' ▸ (hs.calledR hm).pend hr
        calledW := hs.calledW.moveR hw }

theorem Inv.readSection (hs : s.Inv) (hc : s.calls i = .read .ready n nonblock) (hb : s.pbmsg = some b) :
    (s.readSection i n nonblock b k k').Inv := by
  obtain ⟨hr, hw⟩ := readers_of_call hc
  have hok := hs.calls i (by simp [hc])
  have hold := hs.buffer b hb
  have hmove (c : BmsgCall) (hcr : c.reader ≠ .wait) (hcw : c.writer = .away)
      (hcd : c.data = none) : (s.setCall i c).Base ∧ (s.setCall i c).CalledW :=
    ⟨hs.toBase.move (by simp [hr]) (by simp [hw]) hcr (by simp [hcw]) fun _ => ⟨hok.1, by simp [hcd]⟩,
      hs.calledW.moveR hw⟩
  unfold BmsgNode.readSection
  dsimp only
  split_ifs with hsmall hsome
  · -- The thread will give the token back.
    refine { (hmove .repost nofun rfl rfl).1 with
      calledR := fun _ => ?_, calledW := (hmove .repost nofun rfl rfl).2 }
    rw [setCall_readers]
    exact .inr ⟨i, update_self ..⟩
  · cases hmsgs : s.msgs with
    | nil => exact absurd (hmsgs ▸ hold).next_nil hsome
    | cons m msgs =>
      rw [hmsgs] at hold
      obtain ⟨-, hnext, -⟩ := hold.head
      obtain ⟨hgot, hholds, hleft, hsize⟩ := hold.get (n := n) (by omega)
      obtain ⟨hbase, hW⟩ := hmove .idle nofun rfl rfl
      have htake : (s.readTake i n b).Base :=
        { hbase with
          order := by
            have := hs.order
            rw [hmsgs] at this
            simpa [BmsgNode.readTake, BmsgNode.setCall, hmsgs] using this
          got := by simp [BmsgNode.readTake, hs.got, hgot, hmsgs]
          buffer := fun b' hb' => by
            obtain rfl := Option.some.inj hb'
            simpa [BmsgNode.readTake, hmsgs] using hholds
          empty := nofun
          calls := fun j hj => ⟨rfl, (hbase.calls j hj).2⟩ }
      refine htake.readNotify rfl (fun hfree b' hb' hle => ?_) k k'
      obtain rfl := Option.some.inj hb'
      exact absurd hle (Nat.not_le_of_lt hfree)
  · -- Nothing is stored, so that no reader needs to be called.
    have hempty : s.msgs = [] := by
      cases hmsgs : s.msgs with
      | nil => rfl
      | cons m msgs =>
        rw [hmsgs] at hold
        have hnext := hold.head.2.1
        have hpos := (hold.sizes m (List.mem_cons_self ..)).1
        omega
    have hpend := hmove (.read .pend n nonblock) nofun rfl rfl
    exact { hpend.1 with calledR := fun hm => absurd hempty hm, calledW := hpend.2 }

theorem Inv.repost (hs : s.Inv) (hc : s.calls i = .repost) : ((s.setCall i .idle).postRead k).Inv := by
  have hr : s.readers i = .ready := by simp [BmsgNode.readers, hc, BmsgCall.reader]
  have hw : s.writers i = .away := by simp [BmsgNode.writers, hc, BmsgCall.writer]
  have hbase := hs.toBase.move (i := i) (c := .idle) (by simp [hr]) (by simp [hw]) nofun nofun nofun
  obtain ⟨hpost, hR, hW, -⟩ := hbase.postRead k
  exact { hpost with calledR := hR, calledW := hW (hs.calledW.moveR hw) }

theorem Inv.leaveR (hs : s.Inv) (hc : s.calls i = .read .wait n nonblock) :
    Inv { s.setCall i .idle with ulReadLock := s.ulReadLock.leave i } := by
  obtain ⟨hr, hw⟩ := readers_of_call hc
  have hr' : (s.setCall i .idle).readers = _ := setCall_readers
  have hw' : (s.setCall i .idle).writers = _ := setCall_writers
  exact
    { hs with
      calls := hs.toBase.setCalls nofun
      fitsR := hr' ▸ hs.fitsR.leave
      fitsW := hw' ▸ hs.fitsW.move (by simp [hw]) nofun
      calledR := fun hm => hr' ▸ (hs.calledR hm).move (.inl (by simp [hr]))
      calledW := hs.calledW.moveR hw }

end Read

/-! ## Sections of writes -/

section Write
variable {phase : Phase}

theorem writers_of_call (hc : s.calls i = .write phase data nonblock) :
    s.writers i = phase ∧ s.readers i = .away := by
  simp [BmsgNode.readers, BmsgNode.writers, hc, BmsgCall.reader, BmsgCall.writer]

theorem Inv.writePend (hs : s.Inv) (hc : s.calls i = .write .pend data nonblock) :
    (s.writePend i data nonblock).Inv := by
  obtain ⟨hw, hr⟩ := writers_of_call hc
  have hok := hs.calls i (by simp [hc])
  rw [hc] at hok
  unfold BmsgNode.writePend
  split_ifs
  · have hbase := hs.toBase.move (i := i) (c := .idle) (by simp [hr]) (by simp [hw]) nofun nofun nofun
    refine { hbase.refuse with
      calledR := hs.calledR.moveW hr, calledW := fun b hb hle => ?_ }
    have hw' : (s.setCall i .idle).writers = _ := setCall_writers
    exact hw' ▸ (hs.calledW b hb hle).move (.inl (by simp [hw]))
  · let c : BmsgCall := .write (s.ulWriteLock.pend i).2 data nonblock
    have hr' : (s.setCall i c).readers = _ := setCall_readers
    have hw' : (s.setCall i c).writers = _ := setCall_writers
    exact
      { hs with
        calls := hs.toBase.setCalls fun _ => hok
        fitsR := hr' ▸ hs.fitsR.move (by simp [hr]) nofun
        fitsW := hw' ▸ hs.fitsW.pend hw
        calledR := hs.calledR.moveW hr
        calledW := fun b hb hle => hw' ▸ (hs.calledW b hb hle).pend hw }

theorem Inv.writeSection (hs : s.Inv) (hc : s.calls i = .write .ready data nonblock)
    (hb : s.pbmsg = some b) (hsize : data.length ≤ b.bmsgFreeByte → data.length < 65533)
    (hother : b.bmsgFreeByte < data.length → s.stAtSize ≤ b.bmsgFreeByte →
      s.ulWriteLock.counter = true ∨ ∃ j ≠ i, s.writers j = .ready) :
    (s.writeSection i data nonblock b k k').Inv := by
  obtain ⟨hw, hr⟩ := writers_of_call hc
  have hok := hs.calls i (by simp [hc])
  rw [hc] at hok
  have hpos : 0 < data.length := List.length_pos_iff.mpr fun h => hok.2 (congrArg some h)
  have hold := hs.buffer b hb
  have hmove (c : BmsgCall) (hcr : c.reader = .away) (hcw : c.writer ≠ .wait)
      (hcd : c = .idle ∨ c.data = some data) : (s.setCall i c).Base ∧ (s.setCall i c).CalledR := by
    refine ⟨hs.toBase.move (by simp [hr]) (by simp [hw]) (by simp [hcr]) hcw fun hne => ⟨hok.1, ?_⟩,
      hs.calledR.moveW hr⟩
    rw [hcd.resolve_left hne]
    exact hok.2
  unfold BmsgNode.writeSection
  split_ifs with hfree
  · have hfits : data.length + prefixLen ≤ b.stLeft := by
      unfold Bmsg.bmsgFreeByte at hfree
      split_ifs at hfree <;> omega
    obtain ⟨hret, hholds, -, -⟩ := hold.put hpos
      (by have := hsize hfree; simp only [prefixLen]; omega) hfits
    obtain ⟨hbase, -⟩ := hmove .idle rfl (by rintro ⟨⟩) (.inl rfl)
    have hmsgs : (s.writePut i data b).msgs = s.msgs ++ [data] := by
      simp only [BmsgNode.writePut]
      rw [if_neg (by omega)]
    have hput : (s.writePut i data b).Base :=
      { hbase with
        writes := fun w hw n hn => by
          rcases List.mem_append.mp hw with hw | hw
          · exact hs.writes w hw n hn
          · obtain rfl := List.mem_singleton.mp hw
            exact (Option.some.inj hn).symm.trans hret
        order := by
          rw [hmsgs]
          simp only [BmsgNode.writePut, BmsgNode.setCall, List.filter_append, List.map_append, hs.order]
          simp
        buffer := fun b' hb' => by
          obtain rfl := Option.some.inj hb'
          rw [hmsgs]
          exact hholds
        empty := by rintro ⟨⟩
        calls := fun j hj => ⟨rfl, (hbase.calls j hj).2⟩ }
    refine hput.writeNotify (fun hfree' b' hb' hle => ?_) k k'
    obtain rfl := Option.some.inj hb'
    exact absurd hle (Nat.not_le_of_lt hfree')
  · obtain ⟨hbase, hR⟩ := hmove (.write .pend data nonblock) rfl (by rintro ⟨⟩) (.inr rfl)
    refine { hbase with calledR := hR, calledW := fun b' hb' hle => ?_ }
    obtain rfl := Option.some.inj (hb.symm.trans hb')
    rw [setCall_writers]
    exact .keep (hother (by omega) hle)

theorem Inv.leaveW (hs : s.Inv) (hc : s.calls i = .write .wait data nonblock) :
    Inv { s.refuse i data with ulWriteLock := s.ulWriteLock.leave i } := by
  obtain ⟨hw, hr⟩ := writers_of_call hc
  have hr' : (s.setCall i .idle).readers = _ := setCall_readers
  have hw' : (s.setCall i .idle).writers = _ := setCall_writers
  exact
    { hs.refuse with
      calls := hs.toBase.setCalls nofun
      fitsR := hr' ▸ hs.fitsR.move (by simp [hr]) nofun
      fitsW := hw' ▸ hs.fitsW.leave
      calledR := hs.calledR.moveW hr
      calledW := fun b hb hle => hw' ▸ (hs.calledW b hb hle).move (.inl (by simp [hw])) }

end Write

/-! ## Runs -/

/-- A thread that is in no call begins one. -/
theorem Inv.begin (hs : s.Inv) (hc : s.calls i = .idle) (hcr : c.reader ≠ .wait)
    (hcw : c.writer ≠ .wait) (hok : c ≠ .idle → s.pbmsg.isSome ∧ c.data ≠ some []) :
    (s.setCall i c).Inv := by
  have hr : s.readers i = .away := by simp [BmsgNode.readers, hc, BmsgCall.reader]
  have hw : s.writers i = .away := by simp [BmsgNode.writers, hc, BmsgCall.writer]
  refine { hs.toBase.move (by simp [hr]) (by simp [hw]) hcr hcw hok with
    calledR := fun hm => ?_, calledW := fun b hb hle => ?_ }
  · rw [setCall_readers]
    exact (hs.calledR hm).move (.inl (by simp [hr]))
  · rw [setCall_writers]
    exact (hs.calledW b hb hle).move (.inl (by simp [hw]))

theorem Inv.refuseIdle (hs : s.Inv) (hc : s.calls i = .idle) : (s.refuse i data).Inv := by
  have hidle := hs.begin (c := .idle) hc nofun nofun nofun
  exact { hidle.refuse with calledR := hidle.calledR, calledW := hidle.calledW }

theorem Inv.readStart (hs : s.Inv) (hc : s.calls i = .idle) : (s.readStart i n nonblock).Inv := by
  unfold BmsgNode.readStart
  split_ifs with h
  · exact hs
  · refine hs.begin hc nofun nofun fun _ => ⟨?_, nofun⟩
    rw [not_or] at h
    simpa [Option.isSome_iff_ne_none] using h.2

theorem Inv.writeStart (hs : s.Inv) (hc : s.calls i = .idle) : (s.writeStart i data nonblock).Inv := by
  unfold BmsgNode.writeStart
  split_ifs with hdata hnone hsize
  · exact hs
  · exact hs.refuseIdle hc
  · exact hs.refuseIdle hc
  · refine hs.begin hc nofun nofun fun _ => ⟨?_, fun h => hdata (Option.some.inj h)⟩
    simpa [Option.isSome_iff_ne_none] using hnone

theorem Inv.setInode (hs : s.Inv) (param : BmsgParam) (pucBuffer : Option (ℕ → UInt8)) :
    (s.bmsgSetInode param pucBuffer k).Inv := by
  unfold BmsgNode.bmsgSetInode
  split_ifs
  · exact hs
  · exact hs
  · exact hs
  · split
    · exact hs
    · next b hnew =>
      obtain ⟨buf, -, hcreate⟩ := Option.bind_eq_some_iff.mp hnew
      exact hs.toBase.renew (Bmsg.holds_create hcreate).1

theorem Inv.flushInode (hs : s.Inv) : (s.bmsgFlushInode k).Inv := by
  unfold BmsgNode.bmsgFlushInode
  split
  · exact hs
  · next b hb => exact hs.toBase.renew (hs.buffer b hb).flush

theorem Inv.go (hs : s.Inv) (hok : s.StepOk (.go i k k')) (h : s.go i k k' = some s') : s'.Inv := by
  unfold BmsgNode.go at h
  split at h
  case h_1 hc => cases h; exact hs.readPend hc
  case h_2 hc =>
    split_ifs at h
    obtain ⟨b, hb, rfl⟩ := Option.map_eq_some_iff.mp h
    exact hs.readSection hc hb
  case h_3 hc => cases h; exact hs.repost hc
  case h_4 hc => cases h; exact hs.writePend hc
  case h_5 hc =>
    split_ifs at h
    obtain ⟨b, hb, rfl⟩ := Option.map_eq_some_iff.mp h
    obtain ⟨hsize, hother⟩ := hok _ _ b hc hb
    exact hs.writeSection hc hb hsize hother
  case h_6 => cases h

theorem Inv.step (hs : s.Inv) {e : BmsgEvent} (hok : s.StepOk e) (h : s.step e = some s') : s'.Inv := by
  cases e with
  | read i n nonblock =>
    simp only [BmsgNode.step] at h
    split at h
    case h_1 hc => cases h; exact hs.readStart hc
    case h_2 => cases h
  | write i data nonblock =>
    simp only [BmsgNode.step] at h
    split at h
    case h_1 hc => cases h; exact hs.writeStart hc
    case h_2 => cases h
  | go i k k' => exact hs.go hok h
  | timeout i =>
    simp only [BmsgNode.step] at h
    split at h
    case h_1 hc => cases h; exact hs.leaveR hc
    case h_2 hc => cases h; exact hs.leaveW hc
    case h_3 => cases h
  | flush i k =>
    simp only [BmsgNode.step] at h
    split at h
    case h_1 hc => split_ifs at h; cases h; exact hs.flushInode
    case h_2 => cases h
  | set i param buf k =>
    simp only [BmsgNode.step] at h
    split at h
    case h_1 hc => split_ifs at h; cases h; exact hs.setInode param buf
    case h_2 => cases h
  | openFile i r =>
    simp only [BmsgNode.step] at h
    split at h
    case h_1 hc =>
      split_ifs at h
      cases h
      cases r with
      | refused => exact hs
      | noMemory => exact absurd rfl hok
      | opened => exact { hs with calledR := hs.calledR, calledW := hs.calledW }
    case h_2 => cases h

theorem Init.inv (h : s.Init) : s.Inv where
  writes w hw := by simp [h.writes] at hw
  order := by simp [h.writes, h.gone, h.msgs]
  got := by simp [h.got, h.gone]
  buffer b hb := by simp [h.pbmsg] at hb
  empty _ := h.msgs
  calls i hi := absurd (h.calls i) hi
  lock := h.ulMutex
  fitsR := by
    rw [h.ulReadLock]
    exact .start fun i => by simp [BmsgNode.readers, h.calls, BmsgCall.reader]
  fitsW := by
    rw [h.ulWriteLock]
    exact .start fun i => by simp [BmsgNode.writers, h.calls, BmsgCall.writer]
  calledR hm := absurd h.msgs hm
  calledW b hb := by simp [h.pbmsg] at hb

/-- When no thread can go on, all that are in a call wait. -/
theorem Inv.quiet (hs : s.Inv) (hq : s.Quiet) (j : ℕ) :
    (s.readers j = .away ∨ s.readers j = .wait) ∧ (s.writers j = .away ∨ s.writers j = .wait) := by
  have h := hq j 0 0
  have hlock : s.canLock j = true := by simp [canLock, hs.lock]
  cases hc : s.calls j with
  | idle => simp [BmsgNode.readers, BmsgNode.writers, hc, BmsgCall.reader, BmsgCall.writer]
  | repost => simp [BmsgNode.go, hc] at h
  | read phase n nonblock =>
    obtain ⟨b, hb⟩ := Option.isSome_iff_exists.mp (hs.calls j (by simp [hc])).1
    cases phase with
    | pend => simp [BmsgNode.go, hc] at h
    | ready => simp [BmsgNode.go, hc, hlock, hb] at h
    | _ => simp [BmsgNode.readers, BmsgNode.writers, hc, BmsgCall.reader, BmsgCall.writer]
  | write phase data nonblock =>
    obtain ⟨b, hb⟩ := Option.isSome_iff_exists.mp (hs.calls j (by simp [hc])).1
    cases phase with
    | pend => simp [BmsgNode.go, hc] at h
    | ready => simp [BmsgNode.go, hc, hlock, hb] at h
    | _ => simp [BmsgNode.readers, BmsgNode.writers, hc, BmsgCall.reader, BmsgCall.writer]

theorem Inv.safe (hs : s.Inv) : s.Safe where
  writes := hs.writes
  order := hs.order
  got := hs.got
  buffer := hs.buffer
  started i hi := (hs.calls i hi).1
  lock := hs.lock
  readers hq i hi := by
    by_contra hne
    exact hs.fitsR.not_called hi (fun j => (hs.quiet hq j).1) (hs.calledR hne)
  writers hq i hi b hb := by
    by_contra hle
    exact hs.fitsW.not_called hi (fun j => (hs.quiet hq j).2) (hs.calledW b hb (by omega))

/-- Every run whose steps meet the condition keeps the messages, the lock and the waiting threads. -/
theorem bmsgNode_safe (h : Reach BmsgNode.step StepOk Init s) : s.Safe :=
  (h.invariant (fun _ => Init.inv) fun _ _ _ hi hok hs => hi.step hok hs).safe

/-- A reader waits, a message comes and the node is given a smaller size. -/
theorem bmsgNode_safe_reset :
    ∃ s : BmsgNode, s.got = [[7]] ∧ s.stAtSize = 8 ∧ s.msgs = [] ∧ s.Safe := by
  let s₀ : BmsgNode := ⟨none, 0, 0, ⟨false, []⟩, ⟨false, []⟩, none, fun _ => .idle, [], [], [], []⟩
  have h₀ : Reach BmsgNode.step StepOk Init s₀ := .start ⟨rfl, rfl, rfl, rfl, fun _ => rfl, rfl, rfl, rfl, rfl⟩
  have h₁ := h₀.extend (.set 0 ⟨64, 62, false⟩ (some fun _ => 0) 0) trivial rfl
  have h₂ := h₁.extend (.read 1 10 false) trivial rfl
  have h₃ := h₂.extend (.go 1 0 0) nofun rfl
  have h₄ := h₃.extend (.write 0 [7] false) trivial rfl
  have h₅ := h₄.extend (.go 0 0 0) nofun rfl
  have h₆ := h₅.extend (.go 0 0 0) (fun data nonblock b hc hb => by
    cases hc
    cases hb
    exact ⟨fun _ => by decide, fun h => absurd h (by decide)⟩) rfl
  have h₇ := h₆.extend (.go 1 0 0) nofun rfl
  have h₈ := h₇.extend (.set 0 ⟨64, 8, true⟩ (some fun _ => 0) 0) trivial rfl
  refine ⟨_, ?_, ?_, ?_, bmsgNode_safe h₈⟩ <;> decide +kernel

/-- An opening that has no memory for the file keeps the lock. -/
theorem bmsgNode_open_lock :
    ∃ s : BmsgNode, Reach BmsgNode.step (fun _ _ => True) Init s ∧ ¬ s.Safe := by
  let s₀ : BmsgNode := ⟨none, 0, 0, ⟨false, []⟩, ⟨false, []⟩, none, fun _ => .idle, [], [], [], []⟩
  have h₀ : Reach BmsgNode.step (fun _ _ => True) Init s₀ :=
    .start ⟨rfl, rfl, rfl, rfl, fun _ => rfl, rfl, rfl, rfl, rfl⟩
  have hruns : runs BmsgNode.step s₀ [.openFile 0 .noMemory] = some _ := rfl
  refine ⟨_, h₀.of_runs hruns, fun hs => ?_⟩
  cases hs.lock

end BmsgNode

end SylixOS.Device
