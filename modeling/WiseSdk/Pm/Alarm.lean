import WiseSdk.Pm.Mode
import WiseSdk.Rtc.Count

/-!
# The alarm that ends a sleep

A sleep becomes an RTC alarm in three steps: microseconds to RTC ticks (`pm_usec_to_rtc`), ticks
ahead of the current count (`RTC_WRAP`), and the count as alarm fields
(`atcrtc_rtc_set_32khz_alarm`). `pm_set_alarm` does this for an ordinary sleep, whose length is
bounded; `pm_enter_power_down` for a power-down of any length.

The counter has `RTC_COUNT_MAX + 1` values, and `RTC_WRAP` steps over the end of the day as if it
had one less.
-/

namespace WiseSdk.Pm

open Rtc BitVec

theorem dayTicks_eq_rtcCountMax : dayTicks = rtcCountMax + 1 := by decide

/-- `pm_usec_to_rtc`: a quotient of 64 bits, returned in 32. The ratio is not zero. -/
def pmUsecToRtc (ctx : PwrMgmtCtx) (usec : BitVec 64) : BitVec 32 :=
  (usec * BitVec.ofNat 64 rtctime / ctx.ratio.setWidth 64).setWidth 32

def rtcWrap (idle cur : BitVec 32) : Bool :=
  decide (BitVec.ofNat 32 rtcCountMax - cur < idle)

/-- The count `idle` ticks ahead of `cur`, as both users of `RTC_WRAP` compute it. -/
def rtcNext (idle cur : BitVec 32) : BitVec 32 :=
  if rtcWrap idle cur then idle - (BitVec.ofNat 32 rtcCountMax - cur) else cur + idle

/-- The ticks from the count `cur` until the alarm register `reg` matches. -/
def alarmDistance (cur reg : BitVec 32) : ℕ :=
  (alarmCount reg + dayTicks - cur.toNat) % dayTicks

variable {cur idle reg : BitVec 32}

theorem rtcCountMax_sub_toNat (hcur : cur.toNat ≤ rtcCountMax) :
    (BitVec.ofNat 32 rtcCountMax - cur).toNat = rtcCountMax - cur.toNat :=
  toNat_sub_of_le (x := BitVec.ofNat 32 rtcCountMax) hcur

theorem rtcWrap_iff (idle : BitVec 32) (hcur : cur.toNat ≤ rtcCountMax) :
    rtcWrap idle cur = true ↔ rtcCountMax < cur.toNat + idle.toNat := by
  rw [rtcWrap, decide_eq_true_eq, lt_def, rtcCountMax_sub_toNat hcur]
  omega

theorem rtcNext_of_le (h : cur.toNat + idle.toNat ≤ rtcCountMax) :
    (rtcNext idle cur).toNat = cur.toNat + idle.toNat := by
  have hbound : rtcCountMax < 2 ^ 32 := by decide
  have hwrap := (rtcWrap_iff idle (Nat.le_of_add_right_le h)).not.mpr (by omega)
  rw [rtcNext, if_neg hwrap, toNat_add_of_lt (by omega)]

/-- Past the end of the day it comes out one tick late. -/
theorem rtcNext_of_lt (hcur : cur.toNat ≤ rtcCountMax) (h : rtcCountMax < cur.toNat + idle.toNat) :
    (rtcNext idle cur).toNat = cur.toNat + idle.toNat - rtcCountMax := by
  have hleft := rtcCountMax_sub_toNat hcur
  rw [rtcNext, if_pos ((rtcWrap_iff idle hcur).mpr h), toNat_sub_of_le, hleft]
  · omega
  · rw [le_def, hleft]
    omega

/-! ## An ordinary sleep -/

/-- `pm_rtc_time_next`, when the RTC count reads `cur`; `none` is the failed assertion. -/
def pmRtcTimeNext (ctx : PwrMgmtCtx) (cur : BitVec 32) (duration : BitVec 64) :
    Option (BitVec 32) :=
  let idle := pmUsecToRtc ctx duration
  if idle < BitVec.ofNat 32 rtcCountMax then some (rtcNext idle cur) else none

/-- `pm_set_alarm`: the word written to the alarm register. -/
def pmSetAlarm (ctx : PwrMgmtCtx) (cur : BitVec 32) (duration : BitVec 64) :
    Option (BitVec 32) :=
  (pmRtcTimeNext ctx cur duration).map atcrtcRtcSet32khzAlarm

theorem alarmDistance_of_le (hle : cur.toNat ≤ alarmCount reg) (hlt : alarmCount reg < dayTicks)
    : alarmDistance cur reg = alarmCount reg - cur.toNat := by
  rw [alarmDistance, Nat.sub_add_comm hle, Nat.add_mod_right, Nat.mod_eq_of_lt (by omega)]

theorem alarmDistance_of_lt (hlt : alarmCount reg < cur.toNat) (hle : cur.toNat ≤ dayTicks)
    : alarmDistance cur reg = alarmCount reg + dayTicks - cur.toNat :=
  Nat.mod_eq_of_lt (by omega)

theorem alarmCount_of_le (next : BitVec 32) (hpos : 0 < next.toNat)
    (hnext : next.toNat ≤ rtcCountMax) :
    alarmCount (atcrtcRtcSet32khzAlarm next) =
      if next.toNat % khz32 = 0 then next.toNat - 1 else next.toNat := by
  have hlt : (alarmTick next).toNat < dayTicks := by
    rw [alarmTick_toNat hpos, dayTicks_eq_rtcCountMax]
    split <;> omega
  rw [alarmCount_setAlarm, Nat.mod_eq_of_lt hlt, alarmTick_toNat hpos]

/-- **When the alarm is at the right distance.** The alarm of a sleep is `rtc_idle` or `rtc_idle -
1` ticks ahead exactly when the sleep ends on the same day, or at the last count of a second. -/
theorem setAlarm_distance_iff (ctx : PwrMgmtCtx) (cur : BitVec 32) (duration : BitVec 64)
    (hcur : cur.toNat ≤ rtcCountMax) (hpos : 0 < (pmUsecToRtc ctx duration).toNat)
    (hlt : (pmUsecToRtc ctx duration).toNat < rtcCountMax) :
    ∃ reg, pmSetAlarm ctx cur duration = some reg ∧
      (alarmDistance cur reg = (pmUsecToRtc ctx duration).toNat ∨
          alarmDistance cur reg = (pmUsecToRtc ctx duration).toNat - 1 ↔
        cur.toNat + (pmUsecToRtc ctx duration).toNat ≤ rtcCountMax ∨
          (cur.toNat + (pmUsecToRtc ctx duration).toNat + 1) % khz32 = 0) := by
  have hassert : pmUsecToRtc ctx duration < BitVec.ofNat 32 rtcCountMax := by
    rw [lt_def]
    exact hlt
  refine ⟨_, by rw [pmSetAlarm, pmRtcTimeNext, if_pos hassert]; rfl, ?_⟩
  generalize pmUsecToRtc ctx duration = idle at *
  have hperiod := dayTicks_eq_rtcCountMax
  by_cases hday : cur.toNat + idle.toNat ≤ rtcCountMax
  · have hnext := rtcNext_of_le hday
    have hcount := alarmCount_of_le (rtcNext idle cur) (by omega) (by omega)
    refine iff_of_true ?_ (.inl hday)
    split at hcount <;> rw [alarmDistance_of_le (by omega) (by omega)] <;> omega
  -- One tick past the end of the day, unless the driver takes that tick back.
  have hnext := rtcNext_of_lt hcur (Nat.lt_of_not_le hday)
  have hcount := alarmCount_of_le (rtcNext idle cur) (by omega) (by omega)
  have hsecond : (cur.toNat + idle.toNat + 1) % khz32 = (rtcNext idle cur).toNat % khz32 := by
    have hsum : cur.toNat + idle.toNat + 1 = (rtcNext idle cur).toNat + 86400 * khz32 := by
      rw [hnext, show 86400 * khz32 = rtcCountMax + 1 from rfl]
      omega
    rw [hsum, Nat.add_mul_mod_self_right]
  rw [hsecond]
  split at hcount <;> rw [alarmDistance_of_lt (by omega) (by omega)] <;> omega

/-- Ten ticks before midnight, a sleep of twenty: the alarm is one tick late. -/
theorem alarm_late_over_midnight :
    (pmUsecToRtc { ratio := 61035 } 611).toNat = 20 ∧
      pmSetAlarm { ratio := 61035 } 2831155190 611 = some 11 ∧
      alarmDistance 2831155190 11 = 21 := by
  decide

theorem setAlarm_distance_at_noon :
    ∃ reg, pmSetAlarm { ratio := 61035 } 1415577601 611 = some reg ∧
      (alarmDistance 1415577601 reg = (pmUsecToRtc { ratio := 61035 } 611).toNat ∨
          alarmDistance 1415577601 reg = (pmUsecToRtc { ratio := 61035 } 611).toNat - 1 ↔
        (1415577601 : BitVec 32).toNat + (pmUsecToRtc { ratio := 61035 } 611).toNat ≤
            rtcCountMax ∨
          ((1415577601 : BitVec 32).toNat + (pmUsecToRtc { ratio := 61035 } 611).toNat + 1) %
            khz32 = 0) :=
  setAlarm_distance_iff _ _ _ (by decide) (by decide) (by decide)

/-! ## A power-down -/

/-- `pm_power_down`: no duration means the longest one. -/
def pmPowerDown (ctx : PwrMgmtCtx) (duration : BitVec 32) : PwrMgmtCtx :=
  { ctx with powerDown := if duration = 0 then BitVec.allOnes 32 else duration }

/-- What `pm_enter_power_down` reads: the measured ratio, the retained one, and the RTC count. -/
structure PowerDownEnv where
  systimerRatio : BitVec 32
  actRatio : BitVec 32
  rtcCur : BitVec 32

/-- The ratio `pm_enter_power_down` goes by. -/
def powerDownRatio (env : PowerDownEnv) (ctx : PwrMgmtCtx) : BitVec 32 :=
  if ctx.pmMode = .hibernation ∨ ctx.pmMode.toNat ≤ PmMode.sleep.toNat then env.actRatio
  else env.systimerRatio

/-- The alarm of a power-down: its offset from the current count, `rtc_idle`, and the word
written. -/
structure PowerDownAlarm where
  offset : BitVec 32
  reg : BitVec 32
  deriving DecidableEq, Repr

/-- `pm_enter_power_down`, the part that sets up the RTC. -/
def pmEnterPowerDown (env : PowerDownEnv) (ctx : PwrMgmtCtx) (duration : BitVec 32) :
    PwrMgmtCtx × Option PowerDownAlarm :=
  if duration ≠ 0 then
    let ctx := { ctx with ratio := powerDownRatio env ctx }
    let idle := pmUsecToRtc ctx (duration.setWidth 64 * 1000)
    let idle := if BitVec.ofNat 32 rtcCountMax < idle then BitVec.ofNat 32 rtcCountMax else idle
    (ctx, some ⟨idle, atcrtcRtcSet32khzAlarm (rtcNext idle env.rtcCur)⟩)
  else (ctx, none)

/-- The alarm after a request, when `pm_pre_sleep_processing` carries it out. -/
def powerDownAlarm (env : PowerDownEnv) (ctx : PwrMgmtCtx) (duration : BitVec 32) :
    Option PowerDownAlarm :=
  let ctx := pmPowerDown ctx duration
  if ctx.powerDown ≠ 0 then (pmEnterPowerDown env ctx ctx.powerDown).2 else none

def requestedMs (duration : BitVec 32) : ℕ :=
  if duration = 0 then 2 ^ 32 - 1 else duration.toNat

/-- The RTC ticks a request stands for, at a ratio, in unbounded integers. -/
def requestedTicks (ratio duration : BitVec 32) : ℕ :=
  requestedMs duration * 1000 * rtctime / ratio.toNat

theorem pmPowerDown_toNat (ctx : PwrMgmtCtx) (duration : BitVec 32) :
    (pmPowerDown ctx duration).powerDown.toNat = requestedMs duration := by
  simp only [pmPowerDown, requestedMs]
  split <;> rfl

theorem pmPowerDown_ne_zero (ctx : PwrMgmtCtx) (duration : BitVec 32) :
    (pmPowerDown ctx duration).powerDown ≠ 0 := by
  simp only [pmPowerDown]
  split
  · decide
  · assumption

/-- The 64-bit product of a power-down does not overflow; its quotient loses its high bits. -/
theorem pmUsecToRtc_ms (ctx : PwrMgmtCtx) (ms : BitVec 32) :
    (pmUsecToRtc ctx (ms.setWidth 64 * 1000)).toNat =
      ms.toNat * 1000 * rtctime / ctx.ratio.toNat % 2 ^ 32 := by
  have hwide : (ms.setWidth 64).toNat = ms.toNat := by
    rw [toNat_setWidth]
    exact Nat.mod_eq_of_lt (by omega)
  have h1000 : (1000 : BitVec 64).toNat = 1000 := rfl
  have hprod : (ms.setWidth 64 * (1000 : BitVec 64) * BitVec.ofNat 64 rtctime).toNat =
      ms.toNat * 1000 * rtctime := by
    rw [toNat_mul, toNat_mul, hwide, h1000, toNat_ofNat, rtctime_eq]
    omega
  rw [pmUsecToRtc, toNat_setWidth, toNat_udiv, hprod, toNat_setWidth,
    Nat.mod_eq_of_lt (by omega : ctx.ratio.toNat < 2 ^ 64)]

/-- The offset of a request: the low 32 bits of the ticks, clamped. -/
theorem powerDownAlarm_offset (env : PowerDownEnv) (ctx : PwrMgmtCtx) (duration : BitVec 32) :
    ∃ alarm, powerDownAlarm env ctx duration = some alarm ∧ alarm.offset.toNat =
        min (requestedTicks (powerDownRatio env ctx) duration % 2 ^ 32) rtcCountMax := by
  refine ⟨_, by rw [powerDownAlarm, if_pos (pmPowerDown_ne_zero _ _), pmEnterPowerDown,
    if_pos (pmPowerDown_ne_zero _ _)], ?_⟩
  have hticks := pmUsecToRtc_ms
    { pmPowerDown ctx duration with ratio := powerDownRatio env (pmPowerDown ctx duration) }
    (pmPowerDown ctx duration).powerDown
  rw [pmPowerDown_toNat] at hticks
  rw [requestedTicks, show powerDownRatio env ctx =
    powerDownRatio env (pmPowerDown ctx duration) from rfl, ← hticks]
  have hmax : (BitVec.ofNat 32 rtcCountMax).toNat = rtcCountMax := rfl
  dsimp only
  split
  · next hlt =>
      rw [lt_def, hmax] at hlt
      rw [Nat.min_eq_right hlt.le, hmax]
  · next hle =>
      rw [lt_def, hmax] at hle
      rw [Nat.min_eq_left (by omega)]

theorem requestedTicks_mono (ratio : BitVec 32) {shorter duration : BitVec 32}
    (h : requestedMs shorter ≤ requestedMs duration) :
    requestedTicks ratio shorter ≤ requestedTicks ratio duration :=
  Nat.div_le_div_right (Nat.mul_le_mul_right _ (Nat.mul_le_mul_right _ h))

/-- **When a power-down lasts as long as asked.** The offset is the exact number of ticks, clamped
to a day, and no shorter request gets a later alarm, exactly when the ticks fit 32 bits or what is
left of them is clamped too. -/
theorem powerDown_offset_iff (env : PowerDownEnv) (ctx : PwrMgmtCtx) (duration : BitVec 32) :
    ∃ alarm, powerDownAlarm env ctx duration = some alarm ∧
      ((alarm.offset.toNat = min (requestedTicks (powerDownRatio env ctx) duration) rtcCountMax ∧
          ∀ shorter a, requestedMs shorter ≤ requestedMs duration →
            powerDownAlarm env ctx shorter = some a → a.offset ≤ alarm.offset) ↔
        requestedTicks (powerDownRatio env ctx) duration < 2 ^ 32 ∨
          rtcCountMax ≤ requestedTicks (powerDownRatio env ctx) duration % 2 ^ 32) := by
  obtain ⟨alarm, halarm, hoffset⟩ := powerDownAlarm_offset env ctx duration
  refine ⟨alarm, halarm, ?_, ?_⟩
  · rintro ⟨hexact, -⟩
    omega
  · intro hcond
    have hexact : alarm.offset.toNat =
        min (requestedTicks (powerDownRatio env ctx) duration) rtcCountMax := by
      rw [hoffset]
      rcases hcond with hfits | hclamped
      · rw [Nat.mod_eq_of_lt hfits]
      · omega
    refine ⟨hexact, fun shorter a hle ha => ?_⟩
    obtain ⟨a', ha', hoffset'⟩ := powerDownAlarm_offset env ctx shorter
    rw [ha] at ha'
    cases ha'
    have hticks := requestedTicks_mono (powerDownRatio env ctx) hle
    rw [le_def, hexact, hoffset']
    omega

/-- At a nominal 32768 Hz, a power-down of 131100 seconds ends after 928501 ticks, one of a minute
after 1966085. -/
theorem powerDown_wakes_early :
    (powerDownAlarm ⟨61035, 61035, 0⟩ {} 131100000).map (·.offset) = some 928501 ∧
      min (requestedTicks 61035 131100000) rtcCountMax = rtcCountMax ∧
      (powerDownAlarm ⟨61035, 61035, 0⟩ {} 60000).map (·.offset) = some 1966085 := by
  decide

end WiseSdk.Pm
