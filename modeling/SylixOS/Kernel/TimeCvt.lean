import Mathlib.Data.Int.ModEq
import Mathlib.Tactic.Common
import Mathlib.Tactic.LinearCombination
import Mathlib.Tactic.Ring

/-! # From a time to a number of ticks

A timeout is a time of seconds and nanoseconds, from now on or on the clock, and the kernel waits for a
number of ticks. There are two ways to convert it: the simple one rounds the time up that is left, the
other one rounds the end up and the present down, and waits for the difference. The rate of the ticks is
set by a parameter of the kernel, any number from 100 to 10000, and a tick lasts one second divided by
it.
-/

namespace SylixOS.Kernel

/-- The bits of a `ULONG`, whether `__SYLIXOS_TIMECVT_METHOD_2` is defined, and `LW_TICK_HZ` as
`API_KernelStartParam` accepts it. -/
structure TickConf where
  w : ℕ
  w_eq : w = 32 ∨ w = 64
  method2 : Bool
  ulTickHz : ℕ
  hz_ge : 100 ≤ ulTickHz
  hz_le : ulTickHz ≤ 10000

/-- `struct timespec`. The nanoseconds of a valid time and the sums of two of them fit a `LONG`. -/
structure Timespec where
  tv_sec : ℤ
  tv_nsec : ℤ
  deriving DecidableEq, Repr

/-- The type of the ticks that a conversion returns. -/
inductive TickType where
  | ulong
  | int64
  deriving DecidableEq, Repr

def timeBillion : ℤ := 10 ^ 9

/-- The value of an `INT64`. -/
def int64 (x : ℤ) : ℤ := x.bmod (2 ^ 64)

namespace Timespec

/-- `LW_NSEC_INVALD` is false, and the seconds are a `time_t`. -/
structure Valid (tv : Timespec) : Prop where
  sec_ge : -2 ^ 63 ≤ tv.tv_sec
  sec_lt : tv.tv_sec < 2 ^ 63
  nsec_ge : 0 ≤ tv.tv_nsec
  nsec_lt : tv.tv_nsec < timeBillion

/-- `__timespecAdd2` and `__timespecAdd`. -/
def add (ptv1 ptv2 : Timespec) : Timespec :=
  let tv_sec := int64 (ptv1.tv_sec + ptv2.tv_sec)
  let tv_nsec := ptv1.tv_nsec + ptv2.tv_nsec
  if timeBillion ≤ tv_nsec then ⟨int64 (tv_sec + 1), tv_nsec - timeBillion⟩ else ⟨tv_sec, tv_nsec⟩

/-- `__timespecSub2` and `__timespecSub`. -/
def sub (ptv1 ptv2 : Timespec) : Timespec :=
  let tv_sec := int64 (ptv1.tv_sec - ptv2.tv_sec)
  let tv_nsec := ptv1.tv_nsec - ptv2.tv_nsec
  if timeBillion ≤ tv_nsec then ⟨int64 (tv_sec + 1), tv_nsec - timeBillion⟩
  else if tv_nsec < 0 then ⟨int64 (tv_sec - 1), tv_nsec + timeBillion⟩
  else ⟨tv_sec, tv_nsec⟩

/-- `__timespecLeftTime`. -/
def leftTime (ptv1 ptv2 : Timespec) : Bool :=
  ptv1.tv_sec < ptv2.tv_sec || (ptv1.tv_sec = ptv2.tv_sec && ptv1.tv_nsec < ptv2.tv_nsec)

/-- The nanoseconds of a time. -/
def ns (tv : Timespec) : ℤ := tv.tv_sec * timeBillion + tv.tv_nsec

end Timespec

namespace TickConf
variable (g : TickConf)

/-- `ulRes`. -/
def ulRes : ℤ := timeBillion / g.ulTickHz

/-- The value of an expression of an `INT64` and a `ULONG`: it is unsigned if both have 64 bits. -/
def arith (x : ℤ) : ℤ := if g.w = 64 then x % 2 ^ 64 else int64 x

/-- A cast to the type of the ticks. -/
def cast : TickType → ℤ → ℤ
  | .ulong, x => x % 2 ^ g.w
  | .int64, x => int64 x

/-- `LW_CONVERT_TO_TICK_NO_PARTIAL`. -/
def convertToTickNoPartial (type : TickType) (pt : Timespec) : ℤ :=
  g.cast type (g.arith (g.arith (pt.tv_sec * g.ulTickHz) + (g.arith pt.tv_nsec).tdiv g.ulRes))

/-- `LW_CONVERT_TO_TICK`. -/
def convertToTick (type : TickType) (pt : Timespec) : ℤ :=
  g.cast type (g.arith (g.arith (g.arith (pt.tv_sec * g.ulTickHz) + (g.arith pt.tv_nsec).tdiv g.ulRes) +
    if (g.arith pt.tv_nsec).tmod g.ulRes ≠ 0 then 1 else 0))

/-- `__timespecToTickNoPartial`. -/
def timespecToTickNoPartial (ptv : Timespec) : ℤ := g.convertToTickNoPartial .ulong ptv

/-- `__timespecToTick`. -/
def timespecToTick (ptv : Timespec) : ℤ := g.convertToTick .ulong ptv

/-- `__timespecToTick64`. -/
def timespecToTick64 (ptv : Timespec) : ℤ := g.convertToTick .int64 ptv

/-- The times that are converted for a difference. -/
def diffTimes (ptvS ptvE : Timespec) : Timespec × Timespec :=
  if g.method2 then (⟨0, ptvS.tv_nsec⟩, ⟨int64 (ptvE.tv_sec - ptvS.tv_sec), ptvE.tv_nsec⟩)
  else (ptvS, ptvE)

/-- The difference of the ticks of two times, with the type of the result. -/
def tickDiffAs (type : TickType) (ptvS ptvE : Timespec) : ℤ :=
  let (tvS, tvE) := g.diffTimes ptvS ptvE
  g.cast type (int64 (g.convertToTick .int64 tvE - g.convertToTickNoPartial .int64 tvS))

/-- `__timespecToTickDiff`. -/
def timespecToTickDiff (ptvS ptvE : Timespec) : ℤ := g.tickDiffAs .ulong ptvS ptvE

/-- `__timespecToTickDiff64`. -/
def timespecToTickDiff64 (ptvS ptvE : Timespec) : ℤ := g.tickDiffAs .int64 ptvS ptvE

/-- `LW_OPTION_NOT_WAIT`. -/
def optionNotWait : ℤ := 0

/-- The simple way, with the type of the result and the clock. -/
def timeoutTickSimpleAs (type : TickType) (bRel : Bool) (tvNow ptv : Timespec) : ℤ :=
  if bRel then g.convertToTick type ptv
  else if tvNow.leftTime ptv then g.convertToTick type (ptv.sub tvNow)
  else optionNotWait

/-- The other way, with the type of the result and the clock. -/
def timeoutTickAs (type : TickType) (bRel : Bool) (tvNow ptv : Timespec) : ℤ :=
  let tvEnd := if bRel then tvNow.add ptv else ptv
  if tvNow.leftTime tvEnd then g.tickDiffAs type tvNow tvEnd else optionNotWait

/-- `__timespecTimeoutTickSimple`. -/
def timespecTimeoutTickSimple (bRel : Bool) (tvNow ptv : Timespec) : ℤ :=
  g.timeoutTickSimpleAs .ulong bRel tvNow ptv

/-- `__timespecTimeoutTick64Simple`. -/
def timespecTimeoutTick64Simple (bRel : Bool) (tvNow ptv : Timespec) : ℤ :=
  g.timeoutTickSimpleAs .int64 bRel tvNow ptv

/-- `__timespecTimeoutTick`. -/
def timespecTimeoutTick (bRel : Bool) (tvNow ptv : Timespec) : ℤ :=
  g.timeoutTickAs .ulong bRel tvNow ptv

/-- `__timespecTimeoutTick64`. -/
def timespecTimeoutTick64 (bRel : Bool) (tvNow ptv : Timespec) : ℤ :=
  g.timeoutTickAs .int64 bRel tvNow ptv

/-- `LW_TS_TIMEOUT_TICK` and `LW_TS_TIMEOUT_TICK64`, where `_TimeCvtInit` has set the functions for the
parameter `tmcvtsimple`. -/
def tsTimeoutTick (simple : Bool) : TickType → Bool → Timespec → Timespec → ℤ
  | .ulong => if simple then g.timespecTimeoutTickSimple else g.timespecTimeoutTick
  | .int64 => if simple then g.timespecTimeoutTick64Simple else g.timespecTimeoutTick64

/-- The seconds that are multiplied with the rate on the way, and the type that the products are cast
to. -/
def timeoutProducts (simple : Bool) (type : TickType) (bRel : Bool) (tvNow ptv : Timespec) :
    List (TickType × ℤ) :=
  if simple then
    if bRel then [(type, ptv.tv_sec)]
    else if tvNow.leftTime ptv then [(type, (ptv.sub tvNow).tv_sec)] else []
  else
    let tvEnd := if bRel then tvNow.add ptv else ptv
    let (tvS, tvE) := g.diffTimes tvNow tvEnd
    if tvNow.leftTime tvEnd then [(.int64, tvS.tv_sec), (.int64, tvE.tv_sec)] else []

/-- The product of some seconds and the rate is right in the type that it is computed in, or when it is
read as an `INT64` where it is cast to one. -/
def productOk : TickType → ℤ → Prop
  | .ulong, sec => g.arith (sec * g.ulTickHz) = sec * g.ulTickHz
  | .int64, sec => int64 (g.arith (sec * g.ulTickHz)) = sec * g.ulTickHz

/-- The numbers of ticks that fit the type are less than this one. -/
def limit : TickType → ℤ
  | .ulong => 2 ^ g.w
  | .int64 => 2 ^ 63

/-- The nanoseconds that a wait is to take: none if its end is over. -/
def interval (bRel : Bool) (tvNow ptv : Timespec) : ℤ :=
  if bRel then ptv.ns else max 0 (ptv.ns - tvNow.ns)

/-- What is asked of a conversion. The number of ticks is as long as the wait, and by less than two ticks
longer; only a wait of no time has no ticks; and for a wait whose ticks fit the result the products are
right. -/
structure Converts (simple : Bool) (type : TickType) (bRel : Bool) (tvNow ptv : Timespec) : Prop where
  covers : interval bRel tvNow ptv * g.ulTickHz ≤ g.tsTimeoutTick simple type bRel tvNow ptv * timeBillion
  close : g.tsTimeoutTick simple type bRel tvNow ptv * timeBillion <
    interval bRel tvNow ptv * g.ulTickHz + 2 * timeBillion
  waits : 0 < interval bRel tvNow ptv → g.tsTimeoutTick simple type bRel tvNow ptv ≠ 0
  products : interval bRel tvNow ptv * g.ulTickHz ≤ (g.limit type - 1) * timeBillion →
    ∀ p ∈ g.timeoutProducts simple type bRel tvNow ptv, g.productOk p.1 p.2

/-- Nanoseconds in ticks of a second, rounded up. -/
def roundUp (nsec : ℤ) : ℤ := nsec / g.ulRes + if nsec % g.ulRes ≠ 0 then 1 else 0

/-- The ticks of an interval. -/
def simpleTicks (d : ℤ) : ℤ := d / timeBillion * g.ulTickHz + g.roundUp (d % timeBillion)

/-- The ticks from a point of the clock to another one. -/
def diffTicks (a b : ℤ) : ℤ :=
  g.simpleTicks b - (a / timeBillion * g.ulTickHz + a % timeBillion / g.ulRes)

/-- The nanoseconds that a second has over, when it is cut into ticks of `ulRes`. -/
def spare : ℤ := timeBillion % g.ulTickHz

/-- What a difference is longer than the time between its ends, times the rate: `spare` for each tick that
the end is further in its second than the start, and what both roundings add. -/
def drift (a b : ℤ) : ℤ :=
  (g.roundUp (b % timeBillion) - a % timeBillion / g.ulRes) * g.spare +
    (a % timeBillion % g.ulRes + (g.roundUp (b % timeBillion) * g.ulRes - b % timeBillion)) * g.ulTickHz

end TickConf

/-! ## Machine integers -/

theorem int64_modEq (x : ℤ) : int64 x ≡ x [ZMOD 2 ^ 64] := Int.bmod_emod

theorem int64_of {x : ℤ} (h : -2 ^ 63 ≤ x) (h' : x < 2 ^ 63) : int64 x = x :=
  Int.bmod_eq_of_le (by omega) (by omega)

theorem int64_range (x : ℤ) : -2 ^ 63 ≤ int64 x ∧ int64 x < 2 ^ 63 := by
  have hle := Int.le_bmod (x := x) (m := 2 ^ 64) (by decide)
  have hlt := Int.bmod_lt (x := x) (m := 2 ^ 64) (by decide)
  rw [int64]
  omega

theorem int64_congr {x y : ℤ} (h : x ≡ y [ZMOD 2 ^ 64]) : int64 x = int64 y := by
  rw [int64, int64, ← Int.emod_bmod x, ← Int.emod_bmod y]
  exact congrArg (fun z => Int.bmod z (2 ^ 64)) h

namespace TickConf
variable {g : TickConf} {type : TickType} {x y : ℤ}

theorem arith_modEq (g : TickConf) (x : ℤ) : g.arith x ≡ x [ZMOD 2 ^ 64] := by
  unfold arith
  split_ifs
  · exact Int.mod_modEq x _
  · exact int64_modEq x

theorem arith_of (h : 0 ≤ x) (h' : x < 2 ^ 63) : g.arith x = x := by
  unfold arith
  split_ifs
  · exact Int.emod_eq_of_lt h (by omega)
  · exact int64_of (by omega) h'

theorem pow_dvd (g : TickConf) : (2 ^ g.w : ℤ) ∣ 2 ^ 64 := by
  have := g.w_eq
  exact pow_dvd_pow 2 (by omega)

theorem two_pow_le (g : TickConf) : (2 ^ 32 : ℤ) ≤ 2 ^ g.w := by
  have := g.w_eq
  exact pow_le_pow_right₀ (by decide) (by omega)

/-- The type of the ticks counts in a circle of this length. -/
def modulus (g : TickConf) : TickType → ℤ
  | .ulong => 2 ^ g.w
  | .int64 => 2 ^ 64

theorem cast_modEq (g : TickConf) (type : TickType) (x : ℤ) : g.cast type x ≡ x [ZMOD g.modulus type] := by
  cases type with
  | ulong => exact Int.mod_modEq x _
  | int64 => exact int64_modEq x

theorem cast_congr (type : TickType) (h : x ≡ y [ZMOD 2 ^ 64]) : g.cast type x = g.cast type y := by
  cases type with
  | ulong => exact h.of_dvd g.pow_dvd
  | int64 => exact int64_congr h

theorem cast_of (h : 0 ≤ x) (h' : x < g.limit type) : g.cast type x = x := by
  cases type with
  | ulong => exact Int.emod_eq_of_lt h h'
  | int64 => exact int64_of (by omega) h'

theorem cast_lt (g : TickConf) (type : TickType) (x : ℤ) : g.cast type x < g.limit type := by
  cases type with
  | ulong => exact Int.emod_lt_of_pos x (pow_pos (by decide) _)
  | int64 => exact (int64_range x).2

theorem modulus_ge (g : TickConf) (type : TickType) : 2 ^ 32 ≤ g.modulus type := by
  cases type with
  | ulong => exact g.two_pow_le
  | int64 =>
    rw [modulus]
    decide

/-- Ticks that do not fit their type become much fewer. -/
theorem cast_far (h : g.limit type ≤ x) : g.cast type x + 2 ^ 32 ≤ x := by
  have hlt := g.cast_lt type x
  obtain ⟨k, hk⟩ := (g.cast_modEq type x).dvd
  have hm := g.modulus_ge type
  have hpos : 0 < k := by
    by_contra hneg
    have := mul_nonpos_of_nonneg_of_nonpos (by omega : (0 : ℤ) ≤ g.modulus type) (not_lt.mp hneg)
    omega
  have := le_mul_of_one_le_right (by omega : (0 : ℤ) ≤ g.modulus type) hpos
  omega

/-! ## The conversions -/

theorem ulRes_spare (g : TickConf) : g.ulTickHz * g.ulRes + g.spare = timeBillion :=
  Int.mul_ediv_add_emod timeBillion g.ulTickHz

theorem spare_bounds (g : TickConf) : 0 ≤ g.spare ∧ g.spare < g.ulTickHz := by
  have := g.hz_ge
  exact ⟨Int.emod_nonneg _ (by omega), Int.emod_lt_of_pos _ (by omega)⟩

theorem ulRes_ge (g : TickConf) : 10 ^ 5 ≤ g.ulRes := by
  have := g.hz_ge
  have := g.hz_le
  refine Int.le_ediv_of_mul_le (by omega) ?_
  unfold timeBillion
  omega

theorem roundUp_bounds (nsec : ℤ) :
    nsec ≤ g.roundUp nsec * g.ulRes ∧ g.roundUp nsec * g.ulRes < nsec + g.ulRes := by
  have hres := g.ulRes_ge
  have hdiv := Int.mul_ediv_add_emod nsec g.ulRes
  have hmod := Int.emod_nonneg nsec (by omega : g.ulRes ≠ 0)
  have hlt := Int.emod_lt_of_pos nsec (by omega : 0 < g.ulRes)
  rw [roundUp, add_mul, mul_comm (nsec / g.ulRes)]
  split_ifs with h
  · omega
  · omega

theorem roundUp_nonneg {nsec : ℤ} (h : 0 ≤ nsec) : 0 ≤ g.roundUp nsec := by
  have hres := g.ulRes_ge
  have := Int.ediv_nonneg h (by omega : 0 ≤ g.ulRes)
  rw [roundUp]
  split_ifs <;> omega

theorem convertToTick_eq {pt : Timespec} (h : 0 ≤ pt.tv_nsec) (h' : pt.tv_nsec < timeBillion) :
    g.convertToTick type pt = g.cast type (pt.tv_sec * g.ulTickHz + g.roundUp pt.tv_nsec) := by
  have hnsec : g.arith pt.tv_nsec = pt.tv_nsec := arith_of h (by unfold timeBillion at h'; omega)
  rw [convertToTick, hnsec, Int.tdiv_eq_ediv_of_nonneg h, Int.tmod_eq_emod_of_nonneg h, roundUp,
    ← add_assoc]
  refine cast_congr type ((g.arith_modEq _).trans (Int.ModEq.add_right _ ?_))
  exact (g.arith_modEq _).trans ((g.arith_modEq _).add_right _)

theorem convertToTickNoPartial_eq {pt : Timespec} (h : 0 ≤ pt.tv_nsec) (h' : pt.tv_nsec < timeBillion) :
    g.convertToTickNoPartial type pt =
      g.cast type (pt.tv_sec * g.ulTickHz + pt.tv_nsec / g.ulRes) := by
  have hnsec : g.arith pt.tv_nsec = pt.tv_nsec := arith_of h (by unfold timeBillion at h'; omega)
  rw [convertToTickNoPartial, hnsec, Int.tdiv_eq_ediv_of_nonneg h]
  exact cast_congr type ((g.arith_modEq _).trans ((g.arith_modEq _).add_right _))

/-- Both methods come to the same. -/
theorem tickDiffAs_eq {ptvS ptvE : Timespec} (hS : ptvS.Valid) (hE : ptvE.Valid) :
    g.tickDiffAs type ptvS ptvE = g.cast type (ptvE.tv_sec * g.ulTickHz + g.roundUp ptvE.tv_nsec -
      (ptvS.tv_sec * g.ulTickHz + ptvS.tv_nsec / g.ulRes)) := by
  have hs := hS.nsec_ge
  have hs' := hS.nsec_lt
  have he := hE.nsec_ge
  have he' := hE.nsec_lt
  by_cases hm : g.method2 = true
  · rw [tickDiffAs, diffTimes, if_pos hm]
    dsimp only
    rw [convertToTick_eq (by exact he) (by exact he'), convertToTickNoPartial_eq (by exact hs) (by exact hs')]
    refine cast_congr type ((int64_modEq _).trans ?_)
    have hsec := (int64_modEq (ptvE.tv_sec - ptvS.tv_sec)).mul_right (g.ulTickHz : ℤ)
    have hend := (g.cast_modEq .int64 _).trans (hsec.add_right (g.roundUp ptvE.tv_nsec))
    have hdiff := hend.sub (g.cast_modEq .int64 (0 * g.ulTickHz + ptvS.tv_nsec / g.ulRes))
    rwa [show (ptvE.tv_sec - ptvS.tv_sec) * (g.ulTickHz : ℤ) + g.roundUp ptvE.tv_nsec -
      (0 * g.ulTickHz + ptvS.tv_nsec / g.ulRes) = ptvE.tv_sec * g.ulTickHz + g.roundUp ptvE.tv_nsec -
        (ptvS.tv_sec * g.ulTickHz + ptvS.tv_nsec / g.ulRes) by ring] at hdiff
  · rw [tickDiffAs, diffTimes, if_neg hm]
    dsimp only
    rw [convertToTick_eq he he', convertToTickNoPartial_eq hs hs']
    refine cast_congr type ((int64_modEq _).trans ?_)
    exact (g.cast_modEq .int64 _).sub (g.cast_modEq .int64 _)

/-- A difference of ticks, and how far it is from the time between its ends. -/
theorem diffTicks_mul (a b : ℤ) :
    g.diffTicks a b * timeBillion = (b - a) * g.ulTickHz + g.drift a b := by
  have hres := g.ulRes_spare
  have ha := Int.mul_ediv_add_emod a timeBillion
  have hb := Int.mul_ediv_add_emod b timeBillion
  have hs := Int.mul_ediv_add_emod (a % timeBillion) g.ulRes
  rw [diffTicks, simpleTicks, drift]
  linear_combination (a % timeBillion / g.ulRes - g.roundUp (b % timeBillion)) * hres +
    g.ulTickHz * (hb - ha - hs)

/-- A part of a tick. -/
theorem part_lt (h : 0 ≤ x) (h' : x < g.ulRes) :
    0 ≤ x * g.ulTickHz ∧ x * g.ulTickHz < timeBillion := by
  have hz : (100 : ℤ) ≤ g.ulTickHz := by exact_mod_cast g.hz_ge
  have hres := g.ulRes_spare
  have hover := g.spare_bounds.1
  have hle := mul_le_mul_of_nonneg_right h'.le (by omega : (0 : ℤ) ≤ g.ulTickHz)
  have hlt := mul_lt_mul_of_pos_right h' (by omega : (0 : ℤ) < g.ulTickHz)
  rw [mul_comm g.ulRes] at hlt
  exact ⟨mul_nonneg h (by omega), by omega⟩

/-- What the ticks up to the end are short of, because a second is not cut evenly. -/
theorem roundUp_mul_spare (h : 0 ≤ x) (h' : x < timeBillion) :
    0 ≤ g.roundUp x * g.spare ∧ 10 * (g.roundUp x * g.spare) < 2 * timeBillion := by
  have hover := g.spare_bounds
  have hz : (100 : ℤ) ≤ g.ulTickHz := by exact_mod_cast g.hz_ge
  have hz' : (g.ulTickHz : ℤ) ≤ 10000 := by exact_mod_cast g.hz_le
  have hres := g.ulRes_ge
  have hsum := g.ulRes_spare
  have hpos := g.roundUp_nonneg h
  have hup := (g.roundUp_bounds x).2
  have hone : g.ulRes ≤ g.ulTickHz * g.ulRes := le_mul_of_one_le_left (by omega) (by omega)
  have hmul : g.roundUp x * (10 * g.spare) ≤ g.roundUp x * g.ulRes :=
    mul_le_mul_of_nonneg_left (by omega) hpos
  refine ⟨mul_nonneg hpos hover.1, ?_⟩
  rw [mul_left_comm] at hmul
  omega

/-- What is left of the nanoseconds of a start and an end when they are rounded. -/
theorem rounds_bounds (a b : ℤ) :
    0 ≤ (a % timeBillion % g.ulRes + (g.roundUp (b % timeBillion) * g.ulRes - b % timeBillion)) *
      g.ulTickHz ∧
    (a % timeBillion % g.ulRes + (g.roundUp (b % timeBillion) * g.ulRes - b % timeBillion)) *
      g.ulTickHz < 2 * timeBillion := by
  have hres := g.ulRes_ge
  have hup := g.roundUp_bounds (b % timeBillion)
  have hs := part_lt (g := g) (Int.emod_nonneg (a % timeBillion) (by omega : g.ulRes ≠ 0))
    (Int.emod_lt_of_pos _ (by omega))
  have he := part_lt (g := g) (x := g.roundUp (b % timeBillion) * g.ulRes - b % timeBillion)
    (by omega) (by omega)
  rw [add_mul]
  omega

theorem emod_billion (a : ℤ) : 0 ≤ a % timeBillion ∧ a % timeBillion < timeBillion :=
  ⟨Int.emod_nonneg _ (by decide), Int.emod_lt_of_pos _ (by decide)⟩

/-- A difference is too short by less than one tick and too long by less than three, even where a second
is not cut evenly. -/
theorem drift_bounds (a b : ℤ) : -timeBillion < g.drift a b ∧ g.drift a b < 3 * timeBillion := by
  have hb := emod_billion b
  have ha := emod_billion a
  have hres := g.ulRes_ge
  have hrounds := rounds_bounds (g := g) a b
  have hend := roundUp_mul_spare (g := g) hb.1 hb.2
  have hstart := roundUp_mul_spare (g := g) ha.1 ha.2
  have hdown : 0 ≤ a % timeBillion / g.ulRes := Int.ediv_nonneg ha.1 (by omega)
  have hle : a % timeBillion / g.ulRes ≤ g.roundUp (a % timeBillion) := by
    rw [roundUp]
    split_ifs <;> omega
  have hover := g.spare_bounds.1
  have hlow := mul_nonneg hdown hover
  have hmul := mul_le_mul_of_nonneg_right hle hover
  rw [drift, sub_mul]
  unfold timeBillion at *
  omega

/-- The ticks of a time that is not over are not negative. -/
theorem diffTicks_nonneg {a b : ℤ} (h : a ≤ b) : 0 ≤ g.diffTicks a b := by
  have hmul := diffTicks_mul (g := g) a b
  have hdrift := (drift_bounds (g := g) a b).1
  have hpos : 0 ≤ (b - a) * g.ulTickHz := mul_nonneg (by omega) (by omega)
  unfold timeBillion at *
  omega

theorem simpleTicks_eq (d : ℤ) : g.simpleTicks d = g.diffTicks 0 d := by
  rw [diffTicks, Int.zero_ediv, Int.zero_emod, Int.zero_ediv]
  omega

/-- An interval is rounded up by less than two ticks. -/
theorem drift_zero (d : ℤ) : 0 ≤ g.drift 0 d ∧ g.drift 0 d < 2 * timeBillion := by
  have hd := emod_billion d
  have hres := g.ulRes_ge
  have hup := g.roundUp_bounds (d % timeBillion)
  have he := part_lt (g := g) (x := g.roundUp (d % timeBillion) * g.ulRes - d % timeBillion)
    (by omega) (by omega)
  have hover := roundUp_mul_spare (g := g) hd.1 hd.2
  rw [drift, Int.zero_emod, Int.zero_ediv, Int.zero_emod, sub_zero, zero_add]
  omega

end TickConf

/-! ## Times -/

namespace Timespec
variable {a b tv : Timespec}

theorem Valid.ns_div (h : tv.Valid) : tv.ns / timeBillion = tv.tv_sec := by
  have := h.nsec_ge
  have := h.nsec_lt
  unfold ns timeBillion at *
  omega

theorem Valid.ns_mod (h : tv.Valid) : tv.ns % timeBillion = tv.tv_nsec := by
  have := h.nsec_ge
  have := h.nsec_lt
  unfold ns timeBillion at *
  omega

theorem leftTime_iff (ha : a.Valid) (hb : b.Valid) : a.leftTime b = true ↔ a.ns < b.ns := by
  have := ha.nsec_ge
  have := ha.nsec_lt
  have := hb.nsec_ge
  have := hb.nsec_lt
  simp only [leftTime, ns, Bool.or_eq_true, Bool.and_eq_true, decide_eq_true_eq]
  unfold timeBillion at *
  omega

theorem sub_eq (ha : a.Valid) (hb : b.Valid) : b.sub a =
    ⟨int64 ((b.ns - a.ns) / timeBillion), (b.ns - a.ns) % timeBillion⟩ := by
  have := ha.nsec_ge
  have := ha.nsec_lt
  have := hb.nsec_ge
  have := hb.nsec_lt
  have hsec := int64_modEq (b.tv_sec - a.tv_sec)
  unfold Timespec.sub
  dsimp only
  split_ifs with hhigh hlow
  · omega
  · rw [int64_congr (hsec.sub_right 1)]
    unfold ns timeBillion at *
    congr 2 <;> omega
  · unfold ns timeBillion at *
    congr 2 <;> omega

theorem add_eq (ha : a.Valid) (hb : b.Valid) : a.add b =
    ⟨int64 ((a.ns + b.ns) / timeBillion), (a.ns + b.ns) % timeBillion⟩ := by
  have := ha.nsec_ge
  have := ha.nsec_lt
  have := hb.nsec_ge
  have := hb.nsec_lt
  have hsec := int64_modEq (a.tv_sec + b.tv_sec)
  unfold Timespec.add
  dsimp only
  split_ifs with hhigh
  · rw [int64_congr (hsec.add_right 1)]
    unfold ns timeBillion at *
    congr 2 <;> omega
  · unfold ns timeBillion at *
    congr 2 <;> omega

/-- The end of a relative wait, if it can be written down. -/
theorem add_valid (ha : a.Valid) (hb : b.Valid) (hsec : 0 ≤ b.tv_sec)
    (hfit : (a.ns + b.ns) / timeBillion < 2 ^ 63) : (a.add b).Valid ∧ (a.add b).ns = a.ns + b.ns := by
  have hdiv := Int.mul_ediv_add_emod (a.ns + b.ns) timeBillion
  have hmod := TickConf.emod_billion (a.ns + b.ns)
  have ha' := ha.ns_div
  have hge : a.ns / timeBillion ≤ (a.ns + b.ns) / timeBillion := by
    refine Int.ediv_le_ediv (by decide) ?_
    have := hb.nsec_ge
    unfold ns timeBillion
    omega
  have hlow := ha.sec_ge
  rw [add_eq ha hb, int64_of (by omega) hfit]
  refine ⟨⟨by dsimp only; omega, hfit, hmod.1, hmod.2⟩, ?_⟩
  rw [ns, mul_comm]
  exact hdiv

/-- The end of a relative wait that cannot be written down is in the past. -/
theorem add_wraps (ha : a.Valid) (hb : b.Valid) (hsec : 0 ≤ b.tv_sec)
    (hfit : 2 ^ 63 ≤ (a.ns + b.ns) / timeBillion) : a.leftTime (a.add b) = false := by
  have hmod := TickConf.emod_billion (a.ns + b.ns)
  have := ha.nsec_lt
  have := ha.sec_lt
  have := hb.nsec_lt
  have := hb.sec_lt
  obtain ⟨k, hk⟩ := (int64_modEq ((a.ns + b.ns) / timeBillion)).dvd
  have hrange := int64_range ((a.ns + b.ns) / timeBillion)
  have hlt : int64 ((a.ns + b.ns) / timeBillion) < a.tv_sec := by
    unfold ns timeBillion at *
    omega
  rw [add_eq ha hb, leftTime]
  simp only [Bool.or_eq_false_iff, Bool.and_eq_false_iff, decide_eq_false_iff_not]
  omega

end Timespec

namespace TickConf
variable {g : TickConf} {simple bRel : Bool} {type : TickType} {tvNow ptv : Timespec}

/-- When a wait of some time is converted right. Its ticks fit their type; and where they are computed as
a difference, the end of the wait is a `time_t`, the seconds that are multiplied stay within an `INT64`,
and what the rate leaves over of a second is made up for by the rounding. -/
def Fits (g : TickConf) (simple : Bool) (type : TickType) (bRel : Bool) (tvNow ptv : Timespec) : Prop :=
  let a := tvNow.ns
  let b := tvNow.ns + interval bRel tvNow ptv
  if simple then g.simpleTicks (interval bRel tvNow ptv) < g.limit type
  else
    g.diffTicks a b < g.limit type ∧ (0 ≤ g.drift a b ∧ g.drift a b < 2 * timeBillion) ∧
      b / timeBillion < 2 ^ 63 ∧
        if g.method2 then (b / timeBillion - a / timeBillion) * g.ulTickHz < 2 ^ 63
        else -2 ^ 63 ≤ a / timeBillion * g.ulTickHz ∧ b / timeBillion * g.ulTickHz < 2 ^ 63

/-- The two conversions that there are of a wait of some time. -/
theorem tsTimeoutTick_eq (g : TickConf) (simple : Bool) (type : TickType) (bRel : Bool)
    (tvNow ptv : Timespec) : g.tsTimeoutTick simple type bRel tvNow ptv =
      if simple then g.timeoutTickSimpleAs type bRel tvNow ptv
      else g.timeoutTickAs type bRel tvNow ptv := by
  cases simple <;> cases type <;> rfl

theorem limit_le (g : TickConf) (type : TickType) : g.limit type ≤ 2 ^ 64 := by
  cases type with
  | ulong => exact Int.le_of_dvd (by decide) g.pow_dvd
  | int64 =>
    rw [limit]
    decide

theorem productOk_int64 {sec : ℤ} : g.productOk .int64 sec ↔
    -2 ^ 63 ≤ sec * g.ulTickHz ∧ sec * g.ulTickHz < 2 ^ 63 := by
  rw [productOk, int64_congr (g.arith_modEq _)]
  constructor
  · intro h
    rw [← h]
    exact int64_range _
  · exact fun h => int64_of h.1 h.2

theorem productOk_of {sec : ℤ} (h : 0 ≤ sec) (h' : sec * g.ulTickHz < g.limit type) :
    g.productOk type sec := by
  have hpos : 0 ≤ sec * g.ulTickHz := mul_nonneg h (by omega)
  cases type with
  | ulong =>
    rw [productOk, arith]
    rw [limit] at h'
    rcases g.w_eq with hw | hw
    · rw [if_neg (by omega)]
      rw [hw] at h'
      exact int64_of (by omega) (by omega)
    · rw [if_pos hw]
      rw [hw] at h'
      exact Int.emod_eq_of_lt hpos h'
  | int64 =>
    rw [limit] at h'
    exact productOk_int64.mpr ⟨by omega, h'⟩

/-- Ticks that cover their time fit their type. -/
theorem cast_covers (type : TickType) {n ideal dr : ℤ} (hpos : 0 ≤ ideal)
    (hideal : ideal * timeBillion = n + dr) (hdr : dr < 3 * timeBillion) :
    (n ≤ g.cast type ideal * timeBillion ∧ g.cast type ideal * timeBillion < n + 2 * timeBillion) ↔
      ideal < g.limit type ∧ 0 ≤ dr ∧ dr < 2 * timeBillion := by
  by_cases hlt : ideal < g.limit type
  · rw [cast_of hpos hlt, hideal]
    omega
  · have hfar := cast_far (not_lt.mp hlt)
    unfold timeBillion at *
    omega

section Wait
variable (hnow : tvNow.Valid) (hptv : ptv.Valid) (hd : 0 < interval bRel tvNow ptv)
include hnow hptv hd

theorem interval_abs (hrel : bRel = false) :
    interval bRel tvNow ptv = ptv.ns - tvNow.ns ∧ tvNow.leftTime ptv = true := by
  rw [interval, hrel] at hd
  rw [Timespec.leftTime_iff hnow hptv, interval, hrel]
  simp only [Bool.false_eq_true, if_false] at hd ⊢
  omega

/-- A wait of some time in the simple way. -/
theorem simple_eq (g : TickConf) (type : TickType) : g.tsTimeoutTick true type bRel tvNow ptv =
      g.cast type (g.simpleTicks (interval bRel tvNow ptv)) ∧
    g.timeoutProducts true type bRel tvNow ptv =
      [(type, int64 (interval bRel tvNow ptv / timeBillion))] := by
  rw [tsTimeoutTick_eq, if_pos rfl, timeoutTickSimpleAs, timeoutProducts, if_pos rfl]
  cases bRel with
  | true =>
    rw [if_pos rfl, if_pos rfl, interval, if_pos rfl, convertToTick_eq hptv.nsec_ge hptv.nsec_lt,
      simpleTicks, hptv.ns_div, hptv.ns_mod, int64_of hptv.sec_ge hptv.sec_lt]
    exact ⟨rfl, rfl⟩
  | false =>
    obtain ⟨heq, hleft⟩ := interval_abs hnow hptv hd rfl
    have hmod := emod_billion (ptv.ns - tvNow.ns)
    have hconvert : g.convertToTick type ⟨int64 ((ptv.ns - tvNow.ns) / timeBillion),
        (ptv.ns - tvNow.ns) % timeBillion⟩ = _ := convertToTick_eq hmod.1 hmod.2
    rw [heq, hleft, Timespec.sub_eq hnow hptv]
    simp only [Bool.false_eq_true, if_false, if_true, and_true]
    rw [hconvert, simpleTicks]
    exact cast_congr type (((int64_modEq _).mul_right _).add_right _)

/-- The end of a wait, when it can be written down. -/
theorem end_eq (hsec : bRel = true → 0 ≤ ptv.tv_sec)
    (hfit : (tvNow.ns + interval bRel tvNow ptv) / timeBillion < 2 ^ 63) :
    (if bRel then tvNow.add ptv else ptv).Valid ∧
      (if bRel then tvNow.add ptv else ptv).ns = tvNow.ns + interval bRel tvNow ptv ∧
      tvNow.leftTime (if bRel then tvNow.add ptv else ptv) = true := by
  cases bRel with
  | true =>
    rw [if_pos rfl]
    rw [interval, if_pos rfl] at hd hfit ⊢
    obtain ⟨hvalid, hns⟩ := Timespec.add_valid hnow hptv (hsec rfl) hfit
    refine ⟨hvalid, hns, (Timespec.leftTime_iff hnow hvalid).mpr ?_⟩
    omega
  | false =>
    obtain ⟨heq, hleft⟩ := interval_abs hnow hptv hd rfl
    rw [heq, if_neg Bool.false_ne_true]
    exact ⟨hptv, by omega, hleft⟩

/-- A wait of some time as a difference. -/
theorem diff_eq (g : TickConf) (type : TickType) (hsec : bRel = true → 0 ≤ ptv.tv_sec)
    (hfit : (tvNow.ns + interval bRel tvNow ptv) / timeBillion < 2 ^ 63) :
    g.tsTimeoutTick false type bRel tvNow ptv =
        g.cast type (g.diffTicks tvNow.ns (tvNow.ns + interval bRel tvNow ptv)) ∧
      g.timeoutProducts false type bRel tvNow ptv =
        if g.method2 then
          [(.int64, 0), (.int64, int64 ((tvNow.ns + interval bRel tvNow ptv) / timeBillion -
            tvNow.ns / timeBillion))]
        else
          [(.int64, tvNow.ns / timeBillion),
            (.int64, (tvNow.ns + interval bRel tvNow ptv) / timeBillion)] := by
  obtain ⟨hvalid, hns, hleft⟩ := end_eq hnow hptv hd hsec hfit
  rw [tsTimeoutTick_eq, if_neg Bool.false_ne_true, timeoutTickAs, timeoutProducts,
    if_neg Bool.false_ne_true]
  generalize (if bRel then tvNow.add ptv else ptv) = tvEnd at hvalid hns hleft ⊢
  dsimp only
  rw [if_pos hleft, if_pos hleft, tickDiffAs_eq hnow hvalid, ← hns, diffTicks, simpleTicks, hnow.ns_div,
    hnow.ns_mod, hvalid.ns_div, hvalid.ns_mod, diffTimes]
  split_ifs <;> exact ⟨rfl, rfl⟩

/-- A wait whose end cannot be written down is taken to be over. -/
theorem diff_wraps (hsec : bRel = true → 0 ≤ ptv.tv_sec)
    (hfit : 2 ^ 63 ≤ (tvNow.ns + interval bRel tvNow ptv) / timeBillion) :
    g.tsTimeoutTick false type bRel tvNow ptv = 0 := by
  cases bRel with
  | true =>
    rw [interval, if_pos rfl] at hfit
    rw [tsTimeoutTick_eq, if_neg Bool.false_ne_true, timeoutTickAs, if_pos rfl]
    rw [Timespec.add_wraps hnow hptv (hsec rfl) hfit]
    rfl
  | false =>
    obtain ⟨heq, -⟩ := interval_abs hnow hptv hd rfl
    rw [heq, add_sub_cancel, hptv.ns_div] at hfit
    exact absurd hptv.sec_lt (not_lt.mpr hfit)

end Wait

theorem interval_nonneg (hsec : bRel = true → 0 ≤ ptv.tv_sec) (hptv : ptv.Valid) :
    0 ≤ interval bRel tvNow ptv := by
  rw [interval]
  split_ifs with h
  · have hpos := mul_nonneg (hsec h) (by decide : 0 ≤ timeBillion)
    have hnsec := hptv.nsec_ge
    rw [Timespec.ns]
    omega
  · exact le_max_left 0 _

/-- A wait of no time is converted to no ticks. -/
theorem ticks_zero (g : TickConf) (simple : Bool) (type : TickType) (hnow : tvNow.Valid)
    (hptv : ptv.Valid) (hd : interval bRel tvNow ptv = 0) :
    g.tsTimeoutTick simple type bRel tvNow ptv = 0 ∧
      ∀ p ∈ g.timeoutProducts simple type bRel tvNow ptv, p.2 = 0 := by
  have hlim : 0 < g.limit type := by
    cases type with
    | ulong => exact pow_pos (by decide) _
    | int64 =>
      rw [limit]
      decide
  have hround : g.roundUp 0 = 0 := by rw [roundUp, Int.zero_ediv, Int.zero_emod, if_neg (by decide)]; rfl
  rw [tsTimeoutTick_eq, timeoutTickSimpleAs, timeoutTickAs, timeoutProducts]
  cases bRel with
  | true =>
    rw [interval, if_pos rfl] at hd
    have hsec : ptv.tv_sec = 0 := by rw [← hptv.ns_div, hd, Int.zero_ediv]
    have hnsec : ptv.tv_nsec = 0 := by rw [← hptv.ns_mod, hd, Int.zero_emod]
    have hleft : tvNow.leftTime (tvNow.add ptv) = false := by
      rw [Timespec.add_eq hnow hptv, hd, add_zero, hnow.ns_div, hnow.ns_mod,
        int64_of hnow.sec_ge hnow.sec_lt]
      simp [Timespec.leftTime]
    have hticks : g.convertToTick type ptv = 0 := by
      rw [convertToTick_eq hptv.nsec_ge hptv.nsec_lt, hsec, hnsec, zero_mul, hround]
      exact cast_of le_rfl hlim
    cases simple with
    | true => simpa [hticks] using hsec
    | false => simp [hleft, optionNotWait]
  | false =>
    have hleft : tvNow.leftTime ptv = false := by
      rw [← Bool.not_eq_true, Timespec.leftTime_iff hnow hptv]
      rw [interval, if_neg Bool.false_ne_true] at hd
      omega
    cases simple <;> simp [hleft, optionNotWait]

theorem converts_zero (hnow : tvNow.Valid) (hptv : ptv.Valid) (hd : interval bRel tvNow ptv = 0) :
    g.Converts simple type bRel tvNow ptv := by
  obtain ⟨hticks, hprod⟩ := ticks_zero g simple type hnow hptv hd
  refine ⟨?_, ?_, fun h => by omega, fun _ p hp => ?_⟩
  · rw [hd, hticks, zero_mul, zero_mul]
  · rw [hd, hticks, zero_mul, zero_mul]
    decide
  · have hlim : 0 < g.limit p.1 := by
      cases p.1 with
      | ulong => exact pow_pos (by decide) _
      | int64 =>
        rw [limit]
        decide
    rw [hprod p hp]
    exact productOk_of le_rfl (by rwa [zero_mul])

/-- Seconds whose ticks are this few are a `time_t`. -/
theorem sec_lt (sec : ℤ) (h : sec * g.ulTickHz < 2 ^ 65) : sec < 2 ^ 63 := by
  have hz : (100 : ℤ) ≤ g.ulTickHz := by exact_mod_cast g.hz_ge
  by_contra hge
  have := mul_le_mul (not_lt.mp hge) hz (by decide) (by omega)
  omega

theorem simpleTicks_ge (d : ℤ) : d / timeBillion * g.ulTickHz ≤ g.simpleTicks d := by
  have := roundUp_nonneg (g := g) (emod_billion d).1
  rw [simpleTicks]
  omega

/-- The start is rounded down by less than the ticks of a second. -/
theorem diffTicks_ge (a b : ℤ) :
    (b / timeBillion - a / timeBillion) * g.ulTickHz - 10 ^ 4 ≤ g.diffTicks a b := by
  have hsimple := simpleTicks_ge (g := g) b
  have ha := emod_billion a
  have hres := g.ulRes_ge
  have hdown : a % timeBillion / g.ulRes ≤ 10 ^ 4 := by
    refine Int.ediv_le_of_le_mul (by omega) ?_
    unfold timeBillion at *
    omega
  rw [diffTicks, sub_mul]
  omega

/-- The ticks of an interval that fit their type are computed in it. -/
theorem simple_products {d : ℤ} (hd : 0 ≤ d) (hlt : g.simpleTicks d < g.limit type) :
    g.productOk type (int64 (d / timeBillion)) := by
  have hge := simpleTicks_ge (g := g) d
  have hlim := g.limit_le type
  have hpos : 0 ≤ d / timeBillion := Int.ediv_nonneg hd (by decide)
  have hfit := sec_lt (g := g) (d / timeBillion) (by omega)
  rw [int64_of (by omega) hfit]
  exact productOk_of hpos (by omega)

theorem converts_simple (hnow : tvNow.Valid) (hptv : ptv.Valid) (hd : 0 < interval bRel tvNow ptv) :
    g.Converts true type bRel tvNow ptv ↔ g.Fits true type bRel tvNow ptv := by
  obtain ⟨hticks, hprod⟩ := simple_eq hnow hptv hd g type
  have hdrift := drift_zero (g := g) (interval bRel tvNow ptv)
  have hpos := diffTicks_nonneg (g := g) hd.le
  have hmul := diffTicks_mul (g := g) 0 (interval bRel tvNow ptv)
  rw [← simpleTicks_eq] at hpos hmul
  rw [sub_zero] at hmul
  have hcovers := cast_covers (g := g) type hpos hmul (by unfold timeBillion at *; omega)
  rw [Fits, if_pos rfl]
  constructor
  · intro h
    have hboth := And.intro h.covers h.close
    rw [hticks] at hboth
    exact (hcovers.mp hboth).1
  · intro hlt
    obtain ⟨hle, hclose⟩ := hcovers.mpr ⟨hlt, hdrift⟩
    refine ⟨by rwa [hticks], by rwa [hticks], fun _ h => ?_, fun _ p hp => ?_⟩
    · have hmulpos : 0 < interval bRel tvNow ptv * g.ulTickHz :=
        mul_pos hd (by have := g.hz_ge; omega)
      rw [← hticks, h, zero_mul] at hle
      omega
    · rw [hprod, List.mem_singleton] at hp
      rw [hp]
      exact simple_products hd.le hlt

/-- The products of a difference whose ticks fit their type. -/
theorem diff_products {a b : ℤ} (hab : a ≤ b) (hlt : g.diffTicks a b < g.limit type) :
    (∀ p ∈ (if g.method2 then
        [(TickType.int64, (0 : ℤ)), (.int64, int64 (b / timeBillion - a / timeBillion))]
      else [(.int64, a / timeBillion), (.int64, b / timeBillion)]), g.productOk p.1 p.2) ↔
      if g.method2 then (b / timeBillion - a / timeBillion) * g.ulTickHz < 2 ^ 63
      else -2 ^ 63 ≤ a / timeBillion * g.ulTickHz ∧ b / timeBillion * g.ulTickHz < 2 ^ 63 := by
  have hsec : a / timeBillion ≤ b / timeBillion := Int.ediv_le_ediv (by decide) hab
  split_ifs
  · have hge := diffTicks_ge (g := g) a b
    have hlim := g.limit_le type
    have hfit := sec_lt (g := g) (b / timeBillion - a / timeBillion) (by omega)
    have hpos : 0 ≤ (b / timeBillion - a / timeBillion) * g.ulTickHz := mul_nonneg (by omega) (by omega)
    rw [int64_of (by omega) hfit]
    simp only [List.forall_mem_cons, productOk_int64, List.not_mem_nil, false_imp_iff, implies_true,
      and_true]
    omega
  · have hmul := mul_le_mul_of_nonneg_right hsec (by omega : (0 : ℤ) ≤ g.ulTickHz)
    simp only [List.forall_mem_cons, productOk_int64, List.not_mem_nil, false_imp_iff, implies_true,
      and_true]
    omega

theorem converts_diff (hnow : tvNow.Valid) (hptv : ptv.Valid) (hsec : bRel = true → 0 ≤ ptv.tv_sec)
    (hd : 0 < interval bRel tvNow ptv) :
    g.Converts false type bRel tvNow ptv ↔ g.Fits false type bRel tvNow ptv := by
  rw [Fits, if_neg Bool.false_ne_true]
  by_cases hfit : (tvNow.ns + interval bRel tvNow ptv) / timeBillion < 2 ^ 63
  · obtain ⟨hticks, hprod⟩ := diff_eq hnow hptv hd g type hsec hfit
    have hab : tvNow.ns ≤ tvNow.ns + interval bRel tvNow ptv := by omega
    have hpos := diffTicks_nonneg (g := g) hab
    have hmul := diffTicks_mul (g := g) tvNow.ns (tvNow.ns + interval bRel tvNow ptv)
    rw [add_sub_cancel_left] at hmul
    have hcovers := cast_covers (g := g) type hpos hmul (drift_bounds _ _).2
    constructor
    · intro h
      have hboth := And.intro h.covers h.close
      rw [hticks] at hboth
      obtain ⟨hlt, hdrift⟩ := hcovers.mp hboth
      have hall := h.products (by unfold timeBillion at *; omega)
      rw [hprod] at hall
      exact ⟨hlt, hdrift, hfit, (diff_products hab hlt).mp hall⟩
    · rintro ⟨hlt, hdrift, -, hproducts⟩
      obtain ⟨hle, hclose⟩ := hcovers.mpr ⟨hlt, hdrift⟩
      refine ⟨by rwa [hticks], by rwa [hticks], fun _ h => ?_, fun _ => ?_⟩
      · have hmulpos : 0 < interval bRel tvNow ptv * g.ulTickHz :=
          mul_pos hd (by have := g.hz_ge; omega)
        rw [← hticks, h, zero_mul] at hle
        omega
      · rw [hprod]
        exact (diff_products hab hlt).mpr hproducts
  · refine iff_of_false (fun h => ?_) fun h => hfit h.2.2.1
    exact h.waits hd (diff_wraps hnow hptv hd hsec (not_lt.mp hfit))

end TickConf

end SylixOS.Kernel
