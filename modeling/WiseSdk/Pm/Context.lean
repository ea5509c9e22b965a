import Mathlib.Algebra.Order.Ring.Nat
import Mathlib.Order.Nat

/-!
# Power management: modes, clocks and the context record

The data of `hal/soc/scm2010/pm.c` that the sleep path reads and writes.  Three
clocks meet here: `mtime` (64 bits, `XTALTIME` ticks a microsecond), the 32 kHz
RTC count (32 bits, back to `0` after `RTC_COUNT_MAX`, once a day) and the
system timer (32 bits).  `ratio` is the measured number of `1 / RTCTIME`
microseconds in one RTC tick.
-/

namespace WiseSdk.Pm

open BitVec

/-- `enum pm_mode`, in the order of the source. -/
inductive PmMode where
  | active
  | idle
  | lightSleep
  | sleep
  | deepSleep0
  | deepSleep1
  | hibernation
  deriving DecidableEq, Repr

/-- `PM_MODE_DEEP_SLEEP` is an alias. -/
abbrev PmMode.deepSleep : PmMode := .deepSleep1

inductive PmWakeupType where
  | full
  | watcher
  deriving DecidableEq, Repr

/-! ## Clock constants -/

def xtalClockHz : ℕ := 40000000

def mtimeClkDiv : ℕ := 4

def ustime : ℕ := 1000 * 1000

/-- `XTALTIME`: machine time ticks in a microsecond. -/
def xtaltime : ℕ := xtalClockHz / mtimeClkDiv / ustime

def rtctime : ℕ := 100 * 20

/-- `RTC_COUNT_MAX`: the last count of the day. -/
def rtcCountMax : ℕ := 0xA8BFFFFF

/-- `PM_MAX_LOWPOWER_MTIME_DURATION`: 23 hours less 10 milliseconds. -/
def pmMaxLowpowerMtimeDuration : ℕ := ((1000000 * 60 * 60 * 23) - 10000) * 10

theorem xtaltime_eq : xtaltime = 10 := by decide

theorem rtctime_eq : rtctime = 2000 := by decide

/-! ## The context -/

/-- The build options that change the sleep path. -/
structure PmConfig where
  sdioPm : Bool := false
  pmMultiCore : Bool := false
  pmAonGpioCtrl : Bool := false
  deriving DecidableEq, Repr

/-- The enable words of a hart in the interrupt controller: two external, one software. -/
structure PlicEnable where
  s0 : BitVec 32
  s1 : BitVec 32
  sw : BitVec 32
  deriving DecidableEq, Repr

/-- The pad registers `pm_store_gpio` copies. -/
structure GpioRegs where
  pu : BitVec 32
  pd : BitVec 32
  ie : BitVec 32
  oen : BitVec 32
  mode : BitVec 32
  rise : BitVec 32
  fall : BitVec 32
  deriving DecidableEq, Repr

/-- `struct pwr_mgmt_ctx`, the fields of the sleep path.  The context starts out as zeros. -/
structure PwrMgmtCtx where
  mtime : BitVec 64 := 0
  mtimecmp : BitVec 64 := 0
  wtime : BitVec 64 := 0
  wtimeNext : BitVec 64 := 0
  ttime : BitVec 64 := 0
  ttimeNext : BitVec 64 := 0
  wtype : PmWakeupType := .full
  peerWtime : BitVec 64 := 0
  hibLimitClr : BitVec 64 := 0
  hibLimitCnt : BitVec 32 := 0
  hibMaxCnt : BitVec 32 := 0
  hibMinTime : BitVec 32 := 0
  rtc : BitVec 32 := 0
  ratio : BitVec 32 := 0
  pmMode : PmMode := .active
  pmModeEnabled : BitVec 8 := 0
  gpioEnabled : BitVec 8 := 0
  stayActive : BitVec 32 := 0
  powerDown : BitVec 32 := 0
  plicEnH0 : PlicEnable := ⟨0, 0, 0⟩
  plicEnH1 : PlicEnable := ⟨0, 0, 0⟩
  gpio : GpioRegs := ⟨0, 0, 0, 0, 0, 0, 0⟩
  deriving DecidableEq

/-- `struct pm_rram_info`, the retained times before the sleep; `0` is "not written". -/
structure PmRramInfo where
  rtcValue : BitVec 32
  mtimeValue : BitVec 64

def pmUsecToMtime (usec : BitVec 64) : BitVec 64 := usec * BitVec.ofNat 64 xtaltime

def pmMtimeToUsec (mtime : BitVec 64) : BitVec 64 := mtime / BitVec.ofNat 64 xtaltime

/-- `pm_rtc_to_usec`: the tick count is widened before it is multiplied. -/
def pmRtcToUsec (ctx : PwrMgmtCtx) (tick : BitVec 32) : BitVec 64 :=
  tick.setWidth 64 * ctx.ratio.setWidth 64 / BitVec.ofNat 64 rtctime

theorem pmUsecToMtime_toNat (usec : BitVec 64) :
    (pmUsecToMtime usec).toNat = usec.toNat * xtaltime % 2 ^ 64 := by
  simp [pmUsecToMtime, xtaltime_eq]

theorem pmRtcToUsec_toNat (ctx : PwrMgmtCtx) (tick : BitVec 32) :
    (pmRtcToUsec ctx tick).toNat = tick.toNat * ctx.ratio.toNat / rtctime := by
  have h1 : tick.toNat < 2 ^ 32 := tick.isLt
  have h2 : ctx.ratio.toNat < 2 ^ 32 := ctx.ratio.isLt
  have hprod : tick.toNat * ctx.ratio.toNat < 2 ^ 64 :=
    calc tick.toNat * ctx.ratio.toNat < 2 ^ 32 * 2 ^ 32 := Nat.mul_lt_mul'' h1 h2
      _ = 2 ^ 64 := by decide
  rw [pmRtcToUsec, toNat_udiv, toNat_mul, toNat_setWidth,
    toNat_setWidth, Nat.mod_eq_of_lt (by omega : tick.toNat < 2 ^ 64),
    Nat.mod_eq_of_lt (by omega : ctx.ratio.toNat < 2 ^ 64), Nat.mod_eq_of_lt hprod]
  simp [rtctime_eq]

end WiseSdk.Pm
