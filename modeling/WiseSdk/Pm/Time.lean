import WiseSdk.Pm.Context

/-!
# Restoring machine time after a sleep

While the chip sleeps `mtime` stands still and only the RTC counts.
`pm_restore_mtime` advances the saved `mtime` by the RTC ticks that have passed.
Two things stand between the ticks and the time: `RTC_ELAPSED` loses a tick when
the day counter wraps, and `pm_rtc_time_elapsed` returns the microseconds in 32
bits.  `pmRestoreMtime_exact_iff` is the exact range in which neither shows.
-/

namespace WiseSdk.Pm

open BitVec

/-- `RTC_ELAPSED(a, b)`: `a` the count before, `b` the count now. -/
def rtcElapsed (a b : BitVec 32) : BitVec 32 :=
  if b ≥ a then b - a else (BitVec.ofNat 32 rtcCountMax - a) + b

/-- `pm_rtc_time_elapsed`, with `rtc` the count read after the sleep.  The
result type is `uint32_t`. -/
def pmRtcTimeElapsed (ctx : PwrMgmtCtx) (rram : PmRramInfo) (rtc : BitVec 32) : BitVec 32 :=
  let rtcElapsed :=
    if rram.rtcValue ≠ 0 then rtcElapsed rram.rtcValue rtc else rtcElapsed ctx.rtc rtc
  (pmRtcToUsec ctx rtcElapsed).setWidth 32

/-- `pm_restore_mtime`: the value written to `mtime`. -/
def pmRestoreMtime (ctx : PwrMgmtCtx) (rram : PmRramInfo) (rtc : BitVec 32) : BitVec 64 :=
  let mtimeElapsed := pmUsecToMtime ((pmRtcTimeElapsed ctx rram rtc).setWidth 64)
  if rram.mtimeValue ≠ 0 then rram.mtimeValue + mtimeElapsed else ctx.mtime + mtimeElapsed

/-- The saved machine time: the retained one if there is one. -/
def savedMtime (ctx : PwrMgmtCtx) (rram : PmRramInfo) : BitVec 64 :=
  if rram.mtimeValue ≠ 0 then rram.mtimeValue else ctx.mtime

/-- The saved RTC count: the retained one if there is one. -/
def savedRtc (ctx : PwrMgmtCtx) (rram : PmRramInfo) : BitVec 32 :=
  if rram.rtcValue ≠ 0 then rram.rtcValue else ctx.rtc

def rtcAfter (rtc : BitVec 32) (n : ℕ) : BitVec 32 :=
  BitVec.ofNat 32 ((rtc.toNat + n) % (rtcCountMax + 1))

/-- `n` RTC ticks in microseconds, rounded down, in unbounded integers. -/
def sleptUsec (ctx : PwrMgmtCtx) (n : ℕ) : ℕ := n * ctx.ratio.toNat / rtctime

theorem pmRestoreMtime_eq (ctx : PwrMgmtCtx) (rram : PmRramInfo) (rtc : BitVec 32) :
    pmRestoreMtime ctx rram rtc = savedMtime ctx rram + pmUsecToMtime (((pmRtcToUsec ctx
        (rtcElapsed (savedRtc ctx rram) rtc)).setWidth 32).setWidth 64) := by
  unfold pmRestoreMtime pmRtcTimeElapsed savedMtime savedRtc
  split <;> split <;> rfl

theorem rtcAfter_toNat (rtc : BitVec 32) (n : ℕ) :
    (rtcAfter rtc n).toNat = (rtc.toNat + n) % (rtcCountMax + 1) := by
  rw [rtcAfter, toNat_ofNat, Nat.mod_eq_of_lt]
  unfold rtcCountMax at *
  omega

/-- **`RTC_ELAPSED` within a day**: exact without a wrap of the counter, one tick
short with one. -/
theorem rtcElapsed_rtcAfter {rtc : BitVec 32} {n : ℕ} (hrtc : rtc.toNat ≤ rtcCountMax)
    (hn : n ≤ rtcCountMax) :
    (rtcElapsed rtc (rtcAfter rtc n)).toNat = if rtc.toNat + n ≤ rtcCountMax then n else n - 1 := by
  have hafter := rtcAfter_toNat rtc n
  unfold rtcElapsed
  split_ifs with hge hwrap hwrap
  · rw [Nat.mod_eq_of_lt (by omega)] at hafter
    rw [toNat_sub_of_le hge, hafter]
    omega
  · -- after a wrap the count is below the saved one
    rw [Nat.mod_eq_sub_mod (by omega), Nat.mod_eq_of_lt (by omega)] at hafter
    have := le_def.mp hge
    omega
  · rw [Nat.mod_eq_of_lt (by omega)] at hafter
    rw [ge_iff_le, le_def] at hge
    omega
  · rw [Nat.mod_eq_sub_mod (by omega), Nat.mod_eq_of_lt (by omega)] at hafter
    have hmax : (BitVec.ofNat 32 rtcCountMax).toNat = rtcCountMax := by decide
    rw [toNat_add, toNat_sub_of_le (by rw [le_def, hmax]; exact hrtc),
      hmax, hafter, Nat.mod_eq_of_lt]
    · omega
    · omega

/-- The machine time written, with every truncation of the code made explicit. -/
theorem pmRestoreMtime_toNat (ctx : PwrMgmtCtx) (rram : PmRramInfo) (rtc : BitVec 32) :
    (pmRestoreMtime ctx rram rtc).toNat = ((savedMtime ctx rram).toNat + xtaltime *
        (sleptUsec ctx (rtcElapsed (savedRtc ctx rram) rtc).toNat % 2 ^ 32)) % 2 ^ 64 := by
  set u := sleptUsec ctx (rtcElapsed (savedRtc ctx rram) rtc).toNat % 2 ^ 32 with hu
  have husec : (((pmRtcToUsec ctx (rtcElapsed (savedRtc ctx rram) rtc)).setWidth 32).setWidth
      64).toNat = u := by
    rw [toNat_setWidth, toNat_setWidth, pmRtcToUsec_toNat]
    exact Nat.mod_eq_of_lt (by omega)
  rw [pmRestoreMtime_eq, toNat_add, pmUsecToMtime_toNat, husec, Nat.add_mod_mod, Nat.mul_comm u]

theorem add_mul_mod_eq_iff {m x y : ℕ} (hxy : x ≤ y) :
    (m + xtaltime * (x % 2 ^ 32)) % 2 ^ 64 = m + xtaltime * y ↔
      y < 2 ^ 32 ∧ m + xtaltime * y < 2 ^ 64 ∧ x = y := by
  rw [xtaltime_eq]
  constructor
  · intro h
    have h1 : (m + 10 * (x % 2 ^ 32)) % 2 ^ 64 ≤ m + 10 * (x % 2 ^ 32) := Nat.mod_le _ _
    have h2 : x % 2 ^ 32 ≤ x := Nat.mod_le _ _
    have h3 : x % 2 ^ 32 < 2 ^ 32 := Nat.mod_lt _ (by decide)
    have h4 : (m + 10 * (x % 2 ^ 32)) % 2 ^ 64 < 2 ^ 64 := Nat.mod_lt _ (by decide)
    rw [h] at h1 h4
    have hle : y ≤ x % 2 ^ 32 :=
      Nat.le_of_mul_le_mul_left (Nat.le_of_add_le_add_left h1) (by decide)
    exact ⟨hle.trans_lt h3, h4, Nat.le_antisymm hxy (hle.trans h2)⟩
  · rintro ⟨h1, h2, rfl⟩
    rw [Nat.mod_eq_of_lt h1, Nat.mod_eq_of_lt h2]

/-- **Sleep does not distort machine time, exactly when** it took fewer than `2 ^ 32` microseconds,
`mtime` stays below `2 ^ 64`, and the day counter did not wrap or the tick lost there does not reach
the next microsecond. A sleep of up to 23 hours lies within the day, so `n` covers it. -/
theorem pmRestoreMtime_exact_iff (ctx : PwrMgmtCtx) (rram : PmRramInfo) (n : ℕ)
    (hrtc : (savedRtc ctx rram).toNat ≤ rtcCountMax) (hn : n ≤ rtcCountMax) :
    (pmRestoreMtime ctx rram (rtcAfter (savedRtc ctx rram) n)).toNat =
        (savedMtime ctx rram).toNat + xtaltime * sleptUsec ctx n ↔ sleptUsec ctx n < 2 ^ 32 ∧
      (savedMtime ctx rram).toNat + xtaltime * sleptUsec ctx n < 2 ^ 64 ∧
      ((savedRtc ctx rram).toNat + n ≤ rtcCountMax ∨ sleptUsec ctx (n - 1) = sleptUsec ctx n) := by
  rw [pmRestoreMtime_toNat, rtcElapsed_rtcAfter hrtc hn]
  have hmono : sleptUsec ctx (n - 1) ≤ sleptUsec ctx n :=
    Nat.div_le_div_right (Nat.mul_le_mul_right _ (Nat.sub_le n 1))
  split_ifs with hwrap
  · rw [add_mul_mod_eq_iff le_rfl]
    simp only [hwrap, true_or]
  · rw [add_mul_mod_eq_iff hmono]
    simp only [hwrap, false_or]

/-- The context of the examples: the nominal ratio of 20 MHz and 32768 Hz. -/
def nominalCtx : PwrMgmtCtx where
  mtime := 1000
  mtimecmp := 0
  wtime := 0
  wtimeNext := 0
  wtype := .full
  peerWtime := 0
  rtc := 1
  ratio := 61035
  pmMode := .active

/-- A one-second sleep. -/
theorem pmRestoreMtime_second :
    (pmRestoreMtime nominalCtx ⟨0, 0⟩ (rtcAfter 1 32768)).toNat = 1000 + 10 * 999997 :=
  (pmRestoreMtime_exact_iff nominalCtx ⟨0, 0⟩ 32768 (by decide) (by decide)).mpr (by decide)

/-- A sleep of 76 minutes, well below 23 hours, is cut by `2 ^ 32` microseconds. -/
theorem pmRestoreMtime_long_sleep :
    ¬ ∀ (ctx : PwrMgmtCtx) (rram : PmRramInfo) (n : ℕ), 0 < ctx.ratio.toNat →
      (savedRtc ctx rram).toNat ≤ rtcCountMax → n ≤ 23 * 60 * 60 * 32768 →
      xtaltime * sleptUsec ctx n ≤ pmMaxLowpowerMtimeDuration →
      (pmRestoreMtime ctx rram (rtcAfter (savedRtc ctx rram) n)).toNat =
        (savedMtime ctx rram).toNat + xtaltime * sleptUsec ctx n := by
  intro h
  have := h nominalCtx ⟨0, 0⟩ 150000000 (by decide) (by decide) (by decide) (by decide)
  exact absurd this (by decide)

end WiseSdk.Pm
