import SylixOS.Kernel.TimeCvt
import SylixOS.Lib.Reach

/-! # Sleeping

`nanosleep` converts its time to ticks and waits for them. A signal ends the wait, or has it start again
with the ticks that are left. With the method of the high resolution the ticks are rounded down, and the
thread spins on the clock for what is left of its time after them.
-/

namespace SylixOS.Kernel
open Lib

inductive NanoSleepMethod where
  | tick
  | thrs
  deriving DecidableEq, Repr

/-- `LW_SIGNAL_EINTR` and `LW_SIGNAL_RESTART`; otherwise the ticks are over. -/
inductive SchedRet where
  | eintr
  | restart
  | timeout
  deriving DecidableEq, Repr

/-- The parameter `tmcvtsimple`, `LW_NSEC_PER_TICK` and `LW_CFG_TIME_HIGH_RESOLUTION_EN`. -/
structure SleepConf extends TickConf where
  simple : Bool
  nsecPerTick : ℕ
  highResolution : Bool

/-- The ticks that have passed, and the nanoseconds that `bspTickHighResolution` adds to them. -/
structure SleepClock where
  ticks : ℕ
  part : ℕ
  deriving DecidableEq, Repr

/-- Where a call is: `again` is `__wait_again`, `pass` is `__timePassSpec` and `spin` its loop. A thread
that is asleep is due at a number of ticks. -/
inductive SleepPc where
  | entry
  | record (ulTick : ℤ)
  | again (ulTick : ℤ)
  | asleep (ulTick ulKernelTime due : ℤ)
  | woken (iSchedRet : SchedRet) (ulTick ulKernelTime : ℤ)
  | finish
  | signal
  | pass (tvNeed : Timespec)
  | spin (tvEnd : Timespec)
  | done (eintr : Bool) (rmtp : Option Timespec)
  deriving DecidableEq, Repr

/-- With what a call has converted its time. The code does not keep it. -/
structure SleepBegin where
  clock : SleepClock
  method : NanoSleepMethod
  tvNow : Timespec
  deriving DecidableEq, Repr

structure Sleep where
  clock : SleepClock
  iNanoSleepMethod : NanoSleepMethod
  tvStart : Timespec
  pc : SleepPc
  begun : SleepBegin
  deriving DecidableEq, Repr

inductive SleepEvent where
  /-- The call goes on; `tvNow` is `CLOCK_REALTIME`. -/
  | run (tvNow : Timespec)
  /-- It is made ready. -/
  | wake (iSchedRet : SchedRet)
  | time (clock : SleepClock)
  /-- `API_TimeNanoSleepMethod`. -/
  | setMethod (iMethod : NanoSleepMethod)

namespace Timespec

instance (tv : Timespec) : Decidable tv.Valid :=
  decidable_of_iff ((-2 ^ 63 ≤ tv.tv_sec ∧ tv.tv_sec < 2 ^ 63) ∧ 0 ≤ tv.tv_nsec ∧ tv.tv_nsec < timeBillion)
    ⟨fun h => ⟨h.1.1, h.1.2, h.2.1, h.2.2⟩, fun h => ⟨⟨h.1, h.2⟩, h.3, h.4⟩⟩

/-- Nanoseconds as a time. -/
def ofNs (n : ℤ) : Timespec := ⟨n / timeBillion, n % timeBillion⟩

end Timespec

/-- `_sigTimeoutRecalc` at the time `ulKernelTime`. -/
def sigTimeoutRecalc (w : ℕ) (ulKernelTime ulOrgKernelTime ulOrgTimeout : ℤ) : ℤ :=
  let ulTimeRun := if ulOrgKernelTime ≤ ulKernelTime then ulKernelTime - ulOrgKernelTime
    else ulKernelTime + (2 ^ w - 1 - ulOrgKernelTime) + 1
  if ulOrgTimeout = 2 ^ w - 1 then ulOrgTimeout
  else if ulOrgTimeout ≤ ulTimeRun then 0
  else ulOrgTimeout - ulTimeRun

/-- The nanoseconds of `CLOCK_MONOTONIC`. -/
def SleepConf.mono (c : SleepConf) (clock : SleepClock) : ℤ := clock.ticks * c.nsecPerTick + clock.part

namespace Sleep
variable (c : SleepConf) (rqtp : Timespec) (rmtp : Bool) (s : Sleep)

/-- `__timeGetHighResolution`. -/
def timeGetHighResolution : Timespec := .ofNs (c.mono s.clock)

/-- `_K_atomic64KernelTime` as a `ULONG`. -/
def ulKernelTime : ℤ := s.clock.ticks % 2 ^ c.w

/-- The call returns, without an error or with `EINTR`. -/
def ret (eintr : Bool) (tvLeft : Timespec) : Sleep :=
  { s with pc := .done eintr (if rmtp then some tvLeft else none) }

/-- `nanosleep` up to `tvStart`. -/
def enter (tvNow : Timespec) : Sleep :=
  let s := { s with begun := ⟨s.clock, s.iNanoSleepMethod, tvNow⟩ }
  match s.iNanoSleepMethod with
  | .thrs =>
    let ulTick := c.timespecToTickNoPartial rqtp
    if ulTick = 0 then { s with pc := .pass rqtp } else { s with pc := .record ulTick }
  | .tick =>
    let ulTick := c.tsTimeoutTick c.simple .ulong true tvNow rqtp
    if ulTick = 0 then s.ret rmtp false ⟨0, 0⟩ else { s with pc := .record ulTick }

/-- It has been made ready. -/
def wokenUp (iSchedRet : SchedRet) (ulTick ulKernelTime : ℤ) : Sleep :=
  match iSchedRet with
  | .eintr => { s with pc := .signal }
  | .restart =>
    let ulTick := sigTimeoutRecalc c.w (s.ulKernelTime c) ulKernelTime ulTick
    if ulTick ≠ 0 then { s with pc := .again ulTick } else { s with pc := .finish }
  | .timeout => { s with pc := .finish }

/-- The ticks are over. -/
def ticksOver : Sleep :=
  match s.iNanoSleepMethod with
  | .thrs =>
    let tvTemp := (s.timeGetHighResolution c).sub s.tvStart
    if tvTemp.leftTime rqtp then { s with pc := .pass (rqtp.sub tvTemp) } else s.ret rmtp false ⟨0, 0⟩
  | .tick => s.ret rmtp false ⟨0, 0⟩

/-- A signal has ended the wait. -/
def signalled : Sleep :=
  let tvTemp := (s.timeGetHighResolution c).sub s.tvStart
  s.ret rmtp true (if tvTemp.leftTime rqtp then rqtp.sub tvTemp else rqtp)

/-- The next piece of the call. -/
def run (tvNow : Timespec) : Option Sleep :=
  match s.pc with
  | .entry => if tvNow.Valid then some (s.enter c rqtp rmtp tvNow) else none
  | .record ulTick => some { s with tvStart := s.timeGetHighResolution c, pc := .again ulTick }
  | .again ulTick =>
    some { s with pc := .asleep ulTick (s.ulKernelTime c) (s.clock.ticks + ulTick) }
  | .asleep _ _ _ => none
  | .woken iSchedRet ulTick ulKernelTime => some (s.wokenUp c iSchedRet ulTick ulKernelTime)
  | .finish => some (s.ticksOver c rqtp rmtp)
  | .signal => some (s.signalled c rqtp rmtp)
  | .pass tvNeed => some { s with pc := .spin ((s.timeGetHighResolution c).add tvNeed) }
  | .spin tvEnd =>
    some (if (s.timeGetHighResolution c).leftTime tvEnd then s else s.ret rmtp false ⟨0, 0⟩)
  | .done _ _ => none

/-- One step. The call that has returned is over. A thread whose ticks are not over is made ready by
signals only. -/
def step : SleepEvent → Option Sleep
  | .run tvNow => s.run c rqtp rmtp tvNow
  | .wake iSchedRet =>
    match s.pc with
    | .asleep ulTick ulKernelTime due =>
      if iSchedRet = .timeout → due ≤ s.clock.ticks then
        some { s with pc := .woken iSchedRet ulTick ulKernelTime }
      else none
    | _ => none
  | .time clock =>
    match s.pc with
    | .done _ _ => none
    | _ =>
      if s.clock.ticks ≤ clock.ticks ∧ c.mono s.clock ≤ c.mono clock ∧
          c.mono clock / timeBillion < 2 ^ 63 ∧ (c.highResolution = false → clock.part = 0) then
        some { s with clock }
      else none
  | .setMethod iMethod =>
    if c.highResolution = false → iMethod = .tick then some { s with iNanoSleepMethod := iMethod }
    else none

/-- The thread is about to call `nanosleep`. -/
structure Start : Prop where
  pc : s.pc = .entry
  fits : c.mono s.clock / timeBillion < 2 ^ 63
  part : c.highResolution = false → s.clock.part = 0
  method : c.highResolution = false → s.iNanoSleepMethod = .tick

/-- The ticks that the call asks for, if their number is not cut off. -/
def asked (begun : SleepBegin) : ℤ :=
  match begun.method with
  | .thrs => rqtp.tv_sec * c.ulTickHz + rqtp.tv_nsec / c.ulRes
  | .tick =>
    if c.simple then c.simpleTicks rqtp.ns
    else c.diffTicks begun.tvNow.ns (begun.tvNow.ns + rqtp.ns)

/-- The steps that keep a call right. A time that is converted to whole ticks does not become none of
them; where no spin follows, the ticks as a `ULONG` make up for the part of a tick that had passed when the
call was made; a spin ends at a `time_t`; and a signal ends the wait before the time is over. -/
def StepOk (s : Sleep) : SleepEvent → Prop
  | .run tvNow =>
    match s.pc with
    | .entry => s.iNanoSleepMethod = .tick → 0 < rqtp.ns →
        (c.simple = false → (tvNow.ns + rqtp.ns) / timeBillion < 2 ^ 63) ∧
          asked c rqtp ⟨s.clock, .tick, tvNow⟩ % 2 ^ c.w ≠ 0
    | .finish => s.iNanoSleepMethod = .tick →
        rqtp.ns + s.begun.clock.part ≤ asked c rqtp s.begun % 2 ^ c.w * c.nsecPerTick
    | .signal => rmtp = true → c.mono s.clock - s.tvStart.ns < rqtp.ns
    | .pass tvNeed => (c.mono s.clock + tvNeed.ns) / timeBillion < 2 ^ 63
    | _ => True
  | _ => True

/-- What a call that has returned promises, if it was made at the time `s₀`. Without an error its time has
passed; with `EINTR` it has stored a time with valid nanoseconds, what is left of its time, and nothing
less than none. -/
def Law (s₀ s : Sleep) : Prop :=
  match s.pc with
  | .done false _ => rqtp.ns ≤ c.mono s.clock - c.mono s₀.clock
  | .done true (some tvLeft) => 0 ≤ tvLeft.tv_nsec ∧ tvLeft.tv_nsec < timeBillion ∧
      tvLeft.ns = max 0 (rqtp.ns - (c.mono s.clock - s.tvStart.ns))
  | _ => True

end Sleep

/-! ## Times of the clock -/

namespace Timespec
variable {a b : Timespec} {n : ℤ}

theorem ofNs_ns (n : ℤ) : (ofNs n).ns = n := by
  rw [ofNs, ns, mul_comm]
  exact Int.mul_ediv_add_emod n timeBillion

theorem ofNs_valid (h : -2 ^ 63 ≤ n / timeBillion) (h' : n / timeBillion < 2 ^ 63) :
    (ofNs n).Valid := by
  have hmod := TickConf.emod_billion n
  exact ⟨h, h', hmod.1, hmod.2⟩

/-- The time from a point of the clock to a later one. -/
theorem sub_ofNs (ha : a.Valid) (hb : b.Valid) (h : -2 ^ 63 ≤ (b.ns - a.ns) / timeBillion)
    (h' : (b.ns - a.ns) / timeBillion < 2 ^ 63) : b.sub a = ofNs (b.ns - a.ns) := by
  rw [sub_eq ha hb, int64_of h h', ofNs]

theorem add_ofNs (ha : a.Valid) (hb : b.Valid) (h : -2 ^ 63 ≤ (a.ns + b.ns) / timeBillion)
    (h' : (a.ns + b.ns) / timeBillion < 2 ^ 63) : a.add b = ofNs (a.ns + b.ns) := by
  rw [add_eq ha hb, int64_of h h', ofNs]

end Timespec

/-- What is left of the ticks makes up for those that have passed. -/
theorem sigTimeoutRecalc_le (w : ℕ) (ulOrgTimeout : ℤ) {t u : ℕ} (h : t ≤ u) :
    ulOrgTimeout ≤ sigTimeoutRecalc w ((u : ℤ) % 2 ^ w) ((t : ℤ) % 2 ^ w) ulOrgTimeout + (u - t) := by
  have hpos : (0 : ℤ) < 2 ^ w := pow_pos (by decide) w
  have hu := Int.mul_ediv_add_emod (u : ℤ) (2 ^ w)
  have ht := Int.mul_ediv_add_emod (t : ℤ) (2 ^ w)
  have hdiv : (t : ℤ) / 2 ^ w ≤ u / 2 ^ w := Int.ediv_le_ediv hpos (by omega)
  have hmul := mul_le_mul_of_nonneg_left hdiv hpos.le
  have hrun : (if (t : ℤ) % 2 ^ w ≤ u % 2 ^ w then (u : ℤ) % 2 ^ w - t % 2 ^ w
      else u % 2 ^ w + (2 ^ w - 1 - t % 2 ^ w) + 1) ≤ u - t := by
    split_ifs with hle
    · omega
    · have hlt : (t : ℤ) / 2 ^ w < u / 2 ^ w := by
        refine lt_of_le_of_ne hdiv fun heq => ?_
        rw [heq] at ht
        omega
      have hmul' := mul_le_mul_of_nonneg_left (Int.add_one_le_of_lt hlt) hpos.le
      rw [mul_add, mul_one] at hmul'
      omega
  unfold sigTimeoutRecalc
  dsimp only
  generalize (if (t : ℤ) % 2 ^ w ≤ u % 2 ^ w then _ else _ : ℤ) = ulTimeRun at hrun ⊢
  split_ifs <;> omega

namespace Sleep
variable {c : SleepConf} {rqtp : Timespec} {rmtp : Bool} {s₀ s : Sleep}

theorem mono_nonneg (c : SleepConf) (clock : SleepClock) : 0 ≤ c.mono clock := by
  have hpos : (0 : ℤ) ≤ clock.ticks * c.nsecPerTick := mul_nonneg (by omega) (by omega)
  rw [SleepConf.mono]
  omega

/-! ## What a call keeps -/

/-- The ticks that the call asks for end when this many have passed. -/
def Reached (c : SleepConf) (rqtp : Timespec) (s : Sleep) (ticks : ℤ) : Prop :=
  0 < rqtp.ns → s.begun.clock.ticks + asked c rqtp s.begun % 2 ^ c.w ≤ ticks

/-- The call has converted its time after it was made. -/
def Since (c : SleepConf) (s₀ s : Sleep) : Prop :=
  c.mono s₀.clock ≤ c.mono s.begun.clock ∧ s.begun.clock.ticks ≤ s.clock.ticks

/-- A time that was taken between two points of the clock. -/
structure Timed (c : SleepConf) (clock₀ clock : SleepClock) (tvStart : Timespec) : Prop where
  valid : tvStart.Valid
  nonneg : 0 ≤ tvStart.ns
  after : c.mono clock₀ ≤ tvStart.ns
  past : tvStart.ns ≤ c.mono clock

/-- What holds where the call is. -/
def PcKept (c : SleepConf) (rqtp : Timespec) (s₀ s : Sleep) : Prop :=
  match s.pc with
  | .entry => True
  | .record ulTick => Since c s₀ s ∧ Reached c rqtp s (s.begun.clock.ticks + ulTick)
  | .again ulTick => Since c s₀ s ∧ Timed c s₀.clock s.clock s.tvStart ∧
      Reached c rqtp s (s.clock.ticks + ulTick)
  | .asleep ulTick ulKernelTime due => Since c s₀ s ∧ Timed c s₀.clock s.clock s.tvStart ∧
      ∃ t : ℕ, t ≤ s.clock.ticks ∧ ulKernelTime = t % 2 ^ c.w ∧ due = t + ulTick ∧ Reached c rqtp s due
  | .woken iSchedRet ulTick ulKernelTime => Since c s₀ s ∧ Timed c s₀.clock s.clock s.tvStart ∧
      ∃ t : ℕ, t ≤ s.clock.ticks ∧ ulKernelTime = t % 2 ^ c.w ∧ Reached c rqtp s (t + ulTick) ∧
        (iSchedRet = .timeout → t + ulTick ≤ s.clock.ticks)
  | .finish => Since c s₀ s ∧ Timed c s₀.clock s.clock s.tvStart ∧ Reached c rqtp s s.clock.ticks
  | .signal => Timed c s₀.clock s.clock s.tvStart
  | .pass tvNeed => tvNeed.Valid ∧ c.mono s₀.clock + rqtp.ns ≤ c.mono s.clock + tvNeed.ns
  | .spin tvEnd => tvEnd.Valid ∧ c.mono s₀.clock + rqtp.ns ≤ tvEnd.ns
  | .done _ _ => Law c rqtp s₀ s

structure Kept (c : SleepConf) (rqtp : Timespec) (s₀ s : Sleep) : Prop where
  mono : c.mono s₀.clock ≤ c.mono s.clock
  fits : c.mono s.clock / timeBillion < 2 ^ 63
  pc : PcKept c rqtp s₀ s

/-- `CLOCK_MONOTONIC` is a `time_t`. -/
theorem Kept.clock (h : Kept c rqtp s₀ s) :
    (s.timeGetHighResolution c).Valid ∧ (s.timeGetHighResolution c).ns = c.mono s.clock := by
  have hpos : 0 ≤ c.mono s.clock / timeBillion := Int.ediv_nonneg (mono_nonneg c _) (by decide)
  exact ⟨Timespec.ofNs_valid (by omega) h.fits, Timespec.ofNs_ns _⟩

/-- It returns without an error when its time has passed. -/
theorem Kept.ret {tvLeft : Timespec} (hfits : c.mono s.clock / timeBillion < 2 ^ 63)
    (hmono : c.mono s₀.clock ≤ c.mono s.clock)
    (hle : rqtp.ns ≤ c.mono s.clock - c.mono s₀.clock) :
    Kept c rqtp s₀ (s.ret rmtp false tvLeft) :=
  ⟨hmono, hfits, by simpa only [PcKept, Law, Sleep.ret] using hle⟩

/-- The ticks that a time is converted to. -/
theorem asked_tick (tvNow : Timespec) (clock : SleepClock) (hr : rqtp.Valid) (hnow : tvNow.Valid)
    (hpos : 0 < rqtp.ns)
    (hend : c.simple = false → (tvNow.ns + rqtp.ns) / timeBillion < 2 ^ 63) :
    c.tsTimeoutTick c.simple .ulong true tvNow rqtp = asked c rqtp ⟨clock, .tick, tvNow⟩ % 2 ^ c.w := by
  have hinterval : TickConf.interval true tvNow rqtp = rqtp.ns := if_pos rfl
  have hd : 0 < TickConf.interval true tvNow rqtp := hinterval ▸ hpos
  have hsec : 0 ≤ rqtp.tv_sec := by
    rw [← hr.ns_div]
    exact Int.ediv_nonneg hpos.le (by decide)
  cases hs : c.simple with
  | true =>
    rw [(TickConf.simple_eq hnow hr hd c.toTickConf .ulong).1, hinterval, asked, hs, if_pos rfl,
      TickConf.cast]
  | false =>
    rw [← hinterval] at hend
    rw [(TickConf.diff_eq hnow hr hd c.toTickConf .ulong (fun _ => hsec) (hend hs)).1, hinterval, asked, hs,
      if_neg Bool.false_ne_true, TickConf.cast]

theorem asked_thrs (tvNow : Timespec) (clock : SleepClock) (hr : rqtp.Valid) :
    c.timespecToTickNoPartial rqtp = asked c rqtp ⟨clock, .thrs, tvNow⟩ % 2 ^ c.w :=
  TickConf.convertToTickNoPartial_eq hr.nsec_ge hr.nsec_lt

/-! ## One step -/

section Step
variable (hr : rqtp.Valid) (h : Kept c rqtp s₀ s)
include hr h

theorem Kept.enter {tvNow : Timespec} (hnow : tvNow.Valid)
    (hok : s.iNanoSleepMethod = .tick → 0 < rqtp.ns →
      (c.simple = false → (tvNow.ns + rqtp.ns) / timeBillion < 2 ^ 63) ∧
        asked c rqtp ⟨s.clock, .tick, tvNow⟩ % 2 ^ c.w ≠ 0) :
    Kept c rqtp s₀ (s.enter c rqtp rmtp tvNow) := by
  have hmono := h.mono
  rw [Sleep.enter]
  dsimp only
  cases hm : s.iNanoSleepMethod with
  | thrs =>
    dsimp only
    split_ifs
    · exact ⟨h.mono, h.fits, hr, by dsimp only; omega⟩
    · refine ⟨h.mono, h.fits, ⟨h.mono, le_rfl⟩, fun _ => ?_⟩
      dsimp only
      rw [asked_thrs tvNow s.clock hr]
  | tick =>
    dsimp only
    split_ifs with hzero
    · refine Kept.ret h.fits h.mono ?_
      by_contra hneg
      have hpos : 0 < rqtp.ns := by dsimp only at hneg; omega
      obtain ⟨hend, hne⟩ := hok hm hpos
      rw [asked_tick tvNow s.clock hr hnow hpos hend] at hzero
      exact hne hzero
    · refine ⟨h.mono, h.fits, ⟨h.mono, le_rfl⟩, fun hpos => ?_⟩
      dsimp only
      rw [asked_tick tvNow s.clock hr hnow hpos (hok hm hpos).1]

omit hr in
/-- The time since its start, as it is computed. -/
theorem Kept.passed (ht : Timed c s₀.clock s.clock s.tvStart) :
    ((s.timeGetHighResolution c).sub s.tvStart).Valid ∧
      ((s.timeGetHighResolution c).sub s.tvStart).ns = c.mono s.clock - s.tvStart.ns := by
  obtain ⟨hvalid, hns⟩ := h.clock
  have hpast := ht.past
  have hnonneg := ht.nonneg
  have hfits := h.fits
  have hlow : 0 ≤ (c.mono s.clock - s.tvStart.ns) / timeBillion :=
    Int.ediv_nonneg (by omega) (by decide)
  have hle : (c.mono s.clock - s.tvStart.ns) / timeBillion ≤ c.mono s.clock / timeBillion :=
    Int.ediv_le_ediv (by decide) (by omega)
  rw [Timespec.sub_ofNs ht.valid hvalid (by rw [hns]; omega) (by rw [hns]; omega), hns]
  exact ⟨Timespec.ofNs_valid (by omega) (by omega), Timespec.ofNs_ns _⟩

/-- What is left of its time, as it is computed. -/
theorem Kept.rest (ht : Timed c s₀.clock s.clock s.tvStart) (hlt : c.mono s.clock - s.tvStart.ns < rqtp.ns) :
    (rqtp.sub ((s.timeGetHighResolution c).sub s.tvStart)).Valid ∧
      (rqtp.sub ((s.timeGetHighResolution c).sub s.tvStart)).ns =
        rqtp.ns - (c.mono s.clock - s.tvStart.ns) := by
  obtain ⟨hvalid, hns⟩ := h.passed ht
  have hpast := ht.past
  have hdiv := hr.ns_div
  have hsec := hr.sec_lt
  have hlow : 0 ≤ (rqtp.ns - (c.mono s.clock - s.tvStart.ns)) / timeBillion :=
    Int.ediv_nonneg (by omega) (by decide)
  have hle : (rqtp.ns - (c.mono s.clock - s.tvStart.ns)) / timeBillion ≤ rqtp.ns / timeBillion :=
    Int.ediv_le_ediv (by decide) (by omega)
  rw [Timespec.sub_ofNs hvalid hr (by rw [hns]; omega) (by rw [hns]; omega), hns]
  exact ⟨Timespec.ofNs_valid (by omega) (by omega), Timespec.ofNs_ns _⟩

theorem Kept.leftTime (ht : Timed c s₀.clock s.clock s.tvStart) :
    ((s.timeGetHighResolution c).sub s.tvStart).leftTime rqtp = true ↔
      c.mono s.clock - s.tvStart.ns < rqtp.ns := by
  obtain ⟨hvalid, hns⟩ := h.passed ht
  rw [Timespec.leftTime_iff hvalid hr, hns]

/-- The ticks are over: the rest of its time is spun off, or there is none. -/
theorem Kept.ticksOver (hs : Since c s₀ s) (ht : Timed c s₀.clock s.clock s.tvStart)
    (hreached : Reached c rqtp s s.clock.ticks)
    (hok : s.iNanoSleepMethod = .tick →
      rqtp.ns + s.begun.clock.part ≤ asked c rqtp s.begun % 2 ^ c.w * c.nsecPerTick) :
    Kept c rqtp s₀ (s.ticksOver c rqtp rmtp) := by
  have hmono := h.mono
  have hafter := ht.after
  rw [Sleep.ticksOver]
  cases hm : s.iNanoSleepMethod with
  | thrs =>
    dsimp only
    split_ifs with hleft
    · have hlt := (h.leftTime hr ht).mp hleft
      obtain ⟨hvalid, hns⟩ := h.rest hr ht hlt
      refine ⟨h.mono, h.fits, hvalid, ?_⟩
      dsimp only
      rw [hns]
      omega
    · rw [h.leftTime hr ht] at hleft
      exact Kept.ret h.fits h.mono (by omega)
  | tick =>
    refine Kept.ret h.fits h.mono ?_
    by_cases hpos : 0 < rqtp.ns
    · have hticks := mul_le_mul_of_nonneg_right (hreached hpos) (by omega : (0 : ℤ) ≤ c.nsecPerTick)
      have hbegun := hs.1
      have hslack := hok hm
      rw [SleepConf.mono] at hbegun ⊢
      rw [add_mul] at hticks
      unfold SleepConf.mono at *
      omega
    · omega

theorem Kept.signalled (ht : Timed c s₀.clock s.clock s.tvStart)
    (hok : rmtp = true → c.mono s.clock - s.tvStart.ns < rqtp.ns) :
    Kept c rqtp s₀ (s.signalled c rqtp rmtp) := by
  refine ⟨h.mono, h.fits, ?_⟩
  cases rmtp with
  | false => trivial
  | true =>
    obtain ⟨hvalid, hns⟩ := h.rest hr ht (hok rfl)
    have hleft := (h.leftTime hr ht).mpr (hok rfl)
    have hlt := hok rfl
    rw [Sleep.signalled, hleft, if_pos rfl]
    refine ⟨hvalid.nsec_ge, hvalid.nsec_lt, ?_⟩
    dsimp only [Sleep.ret]
    rw [hns]
    omega

omit hr in
theorem Kept.wokenUp {iSchedRet : SchedRet} {ulTick : ℤ} {t : ℕ} (hs : Since c s₀ s)
    (ht : Timed c s₀.clock s.clock s.tvStart) (hle : t ≤ s.clock.ticks)
    (hreached : Reached c rqtp s (t + ulTick))
    (hover : iSchedRet = .timeout → t + ulTick ≤ s.clock.ticks) :
    Kept c rqtp s₀ (s.wokenUp c iSchedRet ulTick (t % 2 ^ c.w)) := by
  have hrecalc := sigTimeoutRecalc_le c.w ulTick hle
  cases iSchedRet with
  | eintr => exact ⟨h.mono, h.fits, ht⟩
  | timeout => exact ⟨h.mono, h.fits, hs, ht, fun hpos => (hreached hpos).trans (hover rfl)⟩
  | restart =>
    rw [Sleep.wokenUp]
    rw [← ulKernelTime] at hrecalc
    split_ifs with hleft
    · refine ⟨h.mono, h.fits, hs, ht, fun hpos => (hreached hpos).trans ?_⟩
      dsimp only
      omega
    · rw [not_not] at hleft
      rw [hleft] at hrecalc
      exact ⟨h.mono, h.fits, hs, ht, fun hpos => (hreached hpos).trans (by dsimp only; omega)⟩

omit hr in
/-- A spin is to end when the time has passed. -/
theorem Kept.pass {tvNeed : Timespec} (hneed : tvNeed.Valid)
    (hle : c.mono s₀.clock + rqtp.ns ≤ c.mono s.clock + tvNeed.ns)
    (hfit : (c.mono s.clock + tvNeed.ns) / timeBillion < 2 ^ 63) :
    Kept c rqtp s₀ { s with pc := .spin ((s.timeGetHighResolution c).add tvNeed) } := by
  obtain ⟨hvalid, hns⟩ := h.clock
  have hmono := mono_nonneg c s.clock
  have hsec := hneed.sec_ge
  have hdiv := hneed.ns_div
  have hlow : tvNeed.ns / timeBillion ≤ (c.mono s.clock + tvNeed.ns) / timeBillion :=
    Int.ediv_le_ediv (by decide) (by omega)
  rw [Timespec.add_ofNs hvalid hneed (by rw [hns]; omega) (by rwa [hns]), hns]
  exact ⟨h.mono, h.fits, Timespec.ofNs_valid (by omega) hfit, by rwa [Timespec.ofNs_ns]⟩

omit hr in
theorem Kept.spin {tvEnd : Timespec} (hend : tvEnd.Valid)
    (hle : c.mono s₀.clock + rqtp.ns ≤ tvEnd.ns)
    (hleft : (s.timeGetHighResolution c).leftTime tvEnd = false) :
    Kept c rqtp s₀ (s.ret rmtp false ⟨0, 0⟩) := by
  obtain ⟨hvalid, hns⟩ := h.clock
  rw [← Bool.not_eq_true, Timespec.leftTime_iff hvalid hend, hns] at hleft
  exact Kept.ret h.fits h.mono (by omega)

/-- A piece of the call. -/
theorem Kept.run {tvNow : Timespec} {s' : Sleep} (hok : StepOk c rqtp rmtp s (.run tvNow))
    (hs : s.run c rqtp rmtp tvNow = some s') : Kept c rqtp s₀ s' := by
  have hpc := h.pc
  rw [StepOk] at hok
  rw [Sleep.run] at hs
  rw [PcKept] at hpc
  cases hat : s.pc <;> rw [hat] at hok hs hpc <;> dsimp only at hok hs hpc
  case entry =>
    split_ifs at hs with hnow
    cases hs
    exact h.enter hr hnow hok
  case record ulTick =>
    obtain ⟨hvalid, hns⟩ := h.clock
    have hticks := hpc.1.2
    cases hs
    refine ⟨h.mono, h.fits, hpc.1, ⟨hvalid, ?_, ?_, ?_⟩, fun hpos => (hpc.2 hpos).trans ?_⟩
    · dsimp only
      rw [hns]
      exact mono_nonneg c s.clock
    · exact h.mono.trans hns.ge
    · exact hns.le
    · dsimp only
      omega
  case again ulTick =>
    cases hs
    exact ⟨h.mono, h.fits, hpc.1, hpc.2.1, s.clock.ticks, le_rfl, rfl, rfl, hpc.2.2⟩
  case asleep => cases hs
  case woken iSchedRet ulTick ulKernelTime =>
    obtain ⟨hsince, htimed, t, hle, rfl, hreached, hover⟩ := hpc
    cases hs
    exact h.wokenUp hsince htimed hle hreached hover
  case finish =>
    cases hs
    exact h.ticksOver hr hpc.1 hpc.2.1 hpc.2.2 hok
  case signal =>
    cases hs
    exact h.signalled hr hpc hok
  case pass tvNeed =>
    cases hs
    exact h.pass hpc.1 hpc.2 hok
  case spin tvEnd =>
    cases hs
    split_ifs with hleft
    · exact h
    · exact h.spin hpc.1 hpc.2 (Bool.eq_false_iff.mpr hleft)
  case done => cases hs

omit hr in
/-- The clock goes on. -/
theorem Kept.time {clock : SleepClock} (hlive : ∀ eintr tvLeft, s.pc ≠ .done eintr tvLeft)
    (hticks : s.clock.ticks ≤ clock.ticks) (hmono : c.mono s.clock ≤ c.mono clock)
    (hfit : c.mono clock / timeBillion < 2 ^ 63) : Kept c rqtp s₀ { s with clock } := by
  have hpc := h.pc
  have hsince : Since c s₀ s → Since c s₀ { s with clock } := fun hs => ⟨hs.1, hs.2.trans hticks⟩
  have htimed : Timed c s₀.clock s.clock s.tvStart → Timed c s₀.clock clock s.tvStart := fun ht =>
    ⟨ht.valid, ht.nonneg, ht.after, ht.past.trans hmono⟩
  refine ⟨h.mono.trans hmono, hfit, ?_⟩
  rw [PcKept] at hpc ⊢
  dsimp only
  cases hat : s.pc <;> rw [hat] at hpc <;> dsimp only at hpc ⊢
  case record => exact ⟨hsince hpc.1, hpc.2⟩
  case again => exact ⟨hsince hpc.1, htimed hpc.2.1, fun hpos => (hpc.2.2 hpos).trans (by omega)⟩
  case asleep =>
    obtain ⟨hs, ht, t, hle, hrest⟩ := hpc
    exact ⟨hsince hs, htimed ht, t, hle.trans hticks, hrest⟩
  case woken =>
    obtain ⟨hs, ht, t, hle, hkernel, hreached, hover⟩ := hpc
    exact ⟨hsince hs, htimed ht, t, hle.trans hticks, hkernel, hreached, fun hret =>
      (hover hret).trans (by omega)⟩
  case finish => exact ⟨hsince hpc.1, htimed hpc.2.1, fun hpos => (hpc.2.2 hpos).trans (by omega)⟩
  case signal => exact htimed hpc
  case pass => exact ⟨hpc.1, by omega⟩
  case spin => exact hpc
  case done => exact absurd hat (hlive _ _)

theorem Kept.step {e : SleepEvent} {s' : Sleep} (hok : StepOk c rqtp rmtp s e)
    (hs : s.step c rqtp rmtp e = some s') : Kept c rqtp s₀ s' := by
  cases e with
  | run tvNow => exact h.run hr hok hs
  | wake iSchedRet =>
    have hpc := h.pc
    rw [Sleep.step] at hs
    rw [PcKept] at hpc
    cases hat : s.pc <;> rw [hat] at hs hpc <;> dsimp only at hs hpc
    case asleep ulTick ulKernelTime due =>
      obtain ⟨hsince, htimed, t, hle, hkernel, rfl, hreached⟩ := hpc
      split_ifs at hs with hdue
      cases hs
      exact ⟨h.mono, h.fits, hsince, htimed, t, hle, hkernel, hreached, hdue⟩
    all_goals cases hs
  | time clock =>
    rw [Sleep.step] at hs
    split at hs
    · cases hs
    · rename_i hlive
      split_ifs at hs with hclock
      cases hs
      exact h.time hlive hclock.1 hclock.2.1 hclock.2.2.1
  | setMethod iMethod =>
    rw [Sleep.step] at hs
    split_ifs at hs with hmethod
    cases hs
    exact ⟨h.mono, h.fits, h.pc⟩

end Step

/-! ## Runs -/

/-- A kernel of a thousand ticks a second, and a call that was made when five had passed. -/
def confAt : SleepConf := ⟨⟨64, .inr rfl, false, 1000, by decide, by decide⟩, false, 1000000, true⟩

def callAt : Sleep := ⟨⟨5, 300⟩, .thrs, ⟨0, 0⟩, .entry, ⟨⟨0, 0⟩, .thrs, ⟨0, 0⟩⟩⟩

/-- It sleeps until a signal ends its wait. -/
def interrupted (clock : SleepClock) : List SleepEvent :=
  [.run ⟨0, 0⟩, .run ⟨0, 0⟩, .run ⟨0, 0⟩, .time clock, .wake .eintr, .run ⟨0, 0⟩, .run ⟨0, 0⟩]

end Sleep

end SylixOS.Kernel
