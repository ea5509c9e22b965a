import Mathlib.Algebra.Order.Ring.Nat
import Mathlib.Data.Nat.Log

/-!
# The interval of the hardware watchdog

`atcwdt_wdt_start` of `hal/drivers/watchdog/wdt-atcwdt.c` turns a timeout into clock periods and
looks up the logarithm of their number in a table. The number is kept in 32 bits, and the logarithm
is found by doubling an `int`, which overflows for more than `2 ^ 30` periods.
-/

namespace WiseSdk.WdtInterval

open Nat List

/-- `LOG2(x)`, with at most so many rounds; doubling `__n` past the range of `int` is undefined. -/
def log2Loop (x : ℕ) : ℕ → ℕ → ℕ → Option ℕ
  | 0, _, _ => none
  | rounds + 1, n, k =>
    if n < x then
      if n * 2 < 2 ^ 31 then log2Loop x rounds (n * 2) (k + 1) else none
    else some k

/-- The table; the second part is there with `CONFIG_ATCWDT200_32BIT_TIMER`. -/
def ptable (timer32 : Bool) : List ℕ :=
  [0, 0, 0, 0, 0, 0, 0, 0, 1, 1, 2, 3, 4, 5, 6, 7, 7] ++
    if timer32 then [8, 8, 9, 9, 10, 10, 11, 11, 12, 12, 13, 13, 14, 14, 15] else []

/-- `atcwdt_wdt_start`: what is written to the control register. -/
def atcwdtWdtStart (timer32 : Bool) (clkRate : BitVec 32) (timeoutMs : BitVec 64) :
    Option (BitVec 32) :=
  let intp := (clkRate.setWidth 64 * timeoutMs / 1000).setWidth 32
  (log2Loop intp.toNat 31 1 0).map fun k =>
    let intp := if (ptable timer32).length ≤ k then (ptable timer32).length - 1 else k
    (7#32 <<< 8) ||| (BitVec.ofNat 32 ((ptable timer32).getD intp 0) <<< 4) ||| 0x9

/-- The field of the control register that the interval is in. -/
def intervalOf (ctrl : BitVec 32) : ℕ := ((ctrl >>> 4) &&& 0xf).toNat

/-- The interval for so many clock periods. -/
def interval (timer32 : Bool) (periods : ℕ) : ℕ :=
  (ptable timer32).getD (min (clog 2 periods) ((ptable timer32).length - 1)) 0

/-- The interval of a longer timeout is not shorter. -/
theorem interval_mono (timer32 : Bool) {m n : ℕ} (h : m ≤ n) :
    interval timer32 m ≤ interval timer32 n := by
  have hsorted : ∀ j < (ptable timer32).length, ∀ i ≤ j,
      (ptable timer32).getD i 0 ≤ (ptable timer32).getD j 0 := by
    cases timer32 <;> decide
  have hpos : 0 < (ptable timer32).length := by cases timer32 <;> decide
  have hclog := clog_mono_right 2 h
  exact hsorted _ (by omega) _ (by omega)

/-- **The logarithm** is defined up to `2 ^ 30`. -/
theorem log2Loop_eq {x rounds k : ℕ} (hk : k ≤ clog 2 x) (hle : k ≤ 30)
    (hrounds : 30 < rounds + k) :
    log2Loop x rounds (2 ^ k) k = if x ≤ 2 ^ 30 then some (clog 2 x) else none := by
  induction rounds generalizing k with
  | zero => omega
  | succ rounds ih =>
    have hlt := lt_clog_iff_pow_lt Nat.one_lt_two (x := x) (y := k)
    have htop := clog_le_iff_le_pow Nat.one_lt_two (x := x) (y := 30)
    have hroom : 2 ^ k * 2 < 2 ^ 31 ↔ k < 30 := by
      rw [← Nat.pow_succ, Nat.pow_lt_pow_iff_right Nat.one_lt_two]
      omega
    rw [log2Loop]
    by_cases hgo : k < clog 2 x
    · rw [if_pos (hlt.mp hgo)]
      by_cases hk30 : k < 30
      · rw [if_pos (hroom.mpr hk30), ← Nat.pow_succ]
        exact ih hgo (by omega) (by omega)
      · rw [if_neg (mt hroom.mp hk30), if_neg]
        omega
    · rw [if_neg (mt hlt.mpr hgo), if_pos (by omega)]
      congr
      omega

theorem intervalOf_ctrl {i : ℕ} (h : i < 16) :
    intervalOf ((7#32 <<< 8) ||| (BitVec.ofNat 32 i <<< 4) ||| 0x9) = i := by
  revert i
  decide

/-- The number of periods is small enough for the doubling; or it loses its upper bits, what is left
of it is small enough, and the short table gives its last entry for it all the same. -/
def Representable (timer32 : Bool) (periods : ℕ) : Prop :=
  periods ≤ 2 ^ 30 ∨
    timer32 = false ∧ 2 ^ 32 ≤ periods ∧ 2 ^ 14 < periods % 2 ^ 32 ∧ periods % 2 ^ 32 ≤ 2 ^ 30
deriving Decidable

theorem start_eq (timer32 : Bool) {rate : BitVec 32} {timeout : BitVec 64}
    (h : rate.toNat * timeout.toNat < 2 ^ 64) :
    (atcwdtWdtStart timer32 rate timeout).map intervalOf =
      if rate.toNat * timeout.toNat / 1000 % 2 ^ 32 ≤ 2 ^ 30 then
        some (interval timer32 (rate.toNat * timeout.toNat / 1000 % 2 ^ 32))
      else none := by
  have hx : ((rate.setWidth 64 * timeout / 1000).setWidth 32).toNat =
      rate.toNat * timeout.toNat / 1000 % 2 ^ 32 := by
    rw [BitVec.toNat_setWidth, BitVec.toNat_udiv, BitVec.toNat_mul,
      BitVec.toNat_setWidth_of_le (by decide), Nat.mod_eq_of_lt h]
    rfl
  have hbound : ∀ i < (ptable timer32).length, (ptable timer32).getD i 0 < 16 := by
    cases timer32 <;> decide
  have hpos : 0 < (ptable timer32).length := by cases timer32 <;> decide
  have hlog := @log2Loop_eq (rate.toNat * timeout.toNat / 1000 % 2 ^ 32) 31 0
    (Nat.zero_le _) (by decide) (by decide)
  rw [Nat.pow_zero] at hlog
  simp only [atcwdtWdtStart, hx, hlog]
  split_ifs with hle
  · have hindex : ∀ k, (if (ptable timer32).length ≤ k then (ptable timer32).length - 1 else k) =
        min k ((ptable timer32).length - 1) := fun k => by split_ifs <;> omega
    rw [Option.map_some, Option.map_some, hindex, intervalOf_ctrl (hbound _ (by omega)), interval]
  · rfl

/-- What a shorter timeout gives is not above the interval of the longer one. -/
theorem intervalOf_shorter_le {timer32 : Bool} {rate : BitVec 32} {timeout shorter : BitVec 64}
    (h : rate.toNat * timeout.toNat < 2 ^ 64) (hle : shorter ≤ timeout) {ctrl : BitVec 32}
    (hctrl : atcwdtWdtStart timer32 rate shorter = some ctrl) :
    intervalOf ctrl ≤ interval timer32 (rate.toNat * timeout.toNat / 1000) := by
  have hmul := Nat.mul_le_mul_left rate.toNat (BitVec.le_def.mp hle)
  have heq := start_eq timer32 (hmul.trans_lt h)
  rw [hctrl, Option.map_some] at heq
  split_ifs at heq
  rw [Option.some.inj heq]
  exact interval_mono timer32 ((Nat.mod_le ..).trans (Nat.div_le_div_right hmul))

/-- **The interval** is the one for the unbounded number of clock periods, no shorter timeout has a
longer one, and the function returns, if and only if that number survives the 32 bits and the
doubling. -/
theorem start_interval_iff (timer32 : Bool) (rate : BitVec 32) (timeout : BitVec 64)
    (h : rate.toNat * timeout.toNat < 2 ^ 64) :
    (∃ ctrl, atcwdtWdtStart timer32 rate timeout = some ctrl ∧
      intervalOf ctrl = interval timer32 (rate.toNat * timeout.toNat / 1000) ∧
      ∀ shorter ≤ timeout, ∀ ctrl', atcwdtWdtStart timer32 rate shorter = some ctrl' →
        intervalOf ctrl' ≤ intervalOf ctrl) ↔
      Representable timer32 (rate.toNat * timeout.toNat / 1000) := by
  rw [exists_congr fun _ => and_congr_right fun _ => and_iff_left_of_imp fun heq _ hle _ hctrl =>
    (intervalOf_shorter_le h hle hctrl).trans_eq heq.symm]
  rw [← Option.map_eq_some_iff, start_eq timer32 h, Representable]
  generalize rate.toNat * timeout.toNat / 1000 = p
  by_cases hshort : p < 2 ^ 32
  · rw [Nat.mod_eq_of_lt hshort]
    split_ifs with hle
    · exact iff_of_true rfl (.inl hle)
    · exact iff_of_false nofun (by omega)
  -- The upper bits are lost; the table is to give its last entry.
  have hlast : interval timer32 p = (ptable timer32).getD ((ptable timer32).length - 1) 0 := by
    have := (lt_clog_iff_pow_lt Nat.one_lt_two).mpr (show 2 ^ 31 < p by omega)
    have hlen : (ptable timer32).length ≤ 32 := by cases timer32 <;> decide
    rw [interval, Nat.min_eq_right (by omega)]
  rw [hlast]
  split_ifs with hle
  · have htable : ∀ k ≤ 30, (ptable timer32).getD (min k ((ptable timer32).length - 1)) 0 =
        (ptable timer32).getD ((ptable timer32).length - 1) 0 ↔ timer32 = false ∧ 14 < k := by
      cases timer32 <;> decide
    rw [Option.some.injEq, interval, htable _ (clog_le_of_le_pow hle),
      lt_clog_iff_pow_lt Nat.one_lt_two, or_iff_right (by omega)]
    refine and_congr_right fun _ => ?_
    omega
  · exact iff_of_false nofun (by omega)

/-- A second of the RTC clock. -/
theorem start_interval_second :
    32768 * 1000 < 2 ^ 64 ∧ ∃ ctrl, atcwdtWdtStart false 32768#32 1000#64 = some ctrl ∧
      intervalOf ctrl = interval false (32768 * 1000 / 1000) ∧
      ∀ shorter ≤ 1000#64, ∀ ctrl', atcwdtWdtStart false 32768#32 shorter = some ctrl' →
        intervalOf ctrl' ≤ intervalOf ctrl :=
  ⟨by decide, (start_interval_iff false 32768#32 1000#64 (by decide)).mpr (.inl (by decide))⟩

/-- **A long timeout gives the shortest interval.** 131072 seconds of the RTC clock are `2 ^ 32`
periods, of which nothing is left. -/
theorem long_timeout_shortest :
    atcwdtWdtStart false 32768#32 131072000#64 = some 0x709#32 ∧ intervalOf 0x709#32 = 0 ∧
      interval false (32768 * 131072000 / 1000) = 7 ∧
      ¬∃ ctrl, atcwdtWdtStart false 32768#32 131072000#64 = some ctrl ∧
        intervalOf ctrl = interval false (32768 * 131072000 / 1000) := by
  have hstart : atcwdtWdtStart false 32768#32 131072000#64 = some 0x709#32 := by decide +kernel
  have hlong : interval false (32768 * 131072000 / 1000) = 7 := by decide +kernel
  refine ⟨hstart, rfl, hlong, ?_⟩
  rintro ⟨ctrl, hctrl, heq⟩
  cases hstart.symm.trans hctrl
  exact absurd (heq.trans hlong) (by decide)

end WiseSdk.WdtInterval
