import Mathlib.Algebra.Order.Ring.Nat
import Mathlib.Order.Nat

/-!
# The 32 kHz day counter

`hal/drivers/rtc/rtc-atcrtc.c`, as built with `CONFIG_ATCRTC_SCM2010`.  The counter of the
RTC is spread over two registers: `OFT_RTC_32K` holds the 15 bits below a second and
`OFT_RTC_CNT` the second, minute, hour and day.  A true count is a number of 32 kHz ticks
since some midnight; a register shows the fields of the count at the instant it is read.

The driver puts one number together from two reads made at two instants
(`getCount_between_iff`), and takes one number apart into the alarm register
(`alarmCount_setAlarm`).
-/

namespace WiseSdk.Rtc

open BitVec

def khz32 : ℕ := 32768

def dayTicks : ℕ := 24 * 60 * 60 * khz32

theorem dayTicks_eq : dayTicks = 2831155200 := by decide

/-! ## The registers -/

/-- What `OFT_RTC_32K` shows at the true count `n`. -/
def subsecReg (n : ℕ) : BitVec 32 := BitVec.ofNat 32 (n % khz32)

/-- What `OFT_RTC_CNT` shows at the true count `n`. -/
def cntReg (n : ℕ) : BitVec 32 :=
  BitVec.ofNat 32
    (n / khz32 % 60 + n / khz32 / 60 % 60 * 2 ^ 6 + n / khz32 / 60 / 60 % 24 * 2 ^ 12 +
      n / dayTicks % 32 * 2 ^ 17)

/-- `struct rtc_time`, the fields the driver fills. -/
structure RtcTime where
  tmSec : BitVec 32
  tmMin : BitVec 32
  tmHour : BitVec 32
  tmMday : BitVec 32
  deriving DecidableEq, Repr

/-- `atcrtc_rtc_get`, of the word read from `OFT_RTC_CNT`. -/
def atcrtcRtcGet (cnt : BitVec 32) : RtcTime :=
  { tmSec := cnt &&& 0x3F
    tmMin := (cnt >>> 6) &&& 0x3F
    tmHour := (cnt >>> 12) &&& 0x1F
    tmMday := (cnt >>> 17) &&& 0x1F }

theorem toNat_field (reg : BitVec 32) (i k : ℕ) (hk : k < 32) :
    ((reg >>> i) &&& BitVec.ofNat 32 (2 ^ k - 1)).toNat = reg.toNat / 2 ^ i % 2 ^ k := by
  have hmask : 2 ^ k - 1 < 2 ^ 32 := by
    have := Nat.pow_lt_pow_right (a := 2) (by decide) hk
    omega
  rw [toNat_and, toNat_ofNat, Nat.mod_eq_of_lt hmask,
    Nat.and_two_pow_sub_one_eq_mod, toNat_ushiftRight, Nat.shiftRight_eq_div_pow]

theorem subsecReg_toNat (n : ℕ) : (subsecReg n).toNat = n % khz32 := by
  rw [subsecReg, toNat_ofNat, Nat.mod_eq_of_lt (by simp only [khz32] at *; omega)]

theorem cntReg_toNat (n : ℕ) :
    (cntReg n).toNat = n / khz32 % 60 + n / khz32 / 60 % 60 * 2 ^ 6 +
      n / khz32 / 60 / 60 % 24 * 2 ^ 12 + n / dayTicks % 32 * 2 ^ 17 := by
  rw [cntReg, toNat_ofNat, Nat.mod_eq_of_lt]
  omega

theorem atcrtcRtcGet_toNat (reg : BitVec 32) :
    (atcrtcRtcGet reg).tmSec.toNat = reg.toNat / 2 ^ 0 % 2 ^ 6 ∧
      (atcrtcRtcGet reg).tmMin.toNat = reg.toNat / 2 ^ 6 % 2 ^ 6 ∧
      (atcrtcRtcGet reg).tmHour.toNat = reg.toNat / 2 ^ 12 % 2 ^ 5 :=
  ⟨toNat_field reg 0 6 (by decide), toNat_field reg 6 6 (by decide),
    toNat_field reg 12 5 (by decide)⟩

/-- The driver reads back the fields of the count. -/
theorem atcrtcRtcGet_cntReg (n : ℕ) :
    (atcrtcRtcGet (cntReg n)).tmSec.toNat = n / khz32 % 60 ∧
      (atcrtcRtcGet (cntReg n)).tmMin.toNat = n / khz32 / 60 % 60 ∧
      (atcrtcRtcGet (cntReg n)).tmHour.toNat = n / khz32 / 60 / 60 % 24 := by
  obtain ⟨hsec, hmin, hhour⟩ := atcrtcRtcGet_toNat (cntReg n)
  rw [hsec, hmin, hhour, cntReg_toNat]
  generalize n / khz32 = s, n / dayTicks = d
  refine ⟨?_, ?_, ?_⟩ <;> omega

/-! ## Reading the count -/

/-- The loop that polls `OFT_RTC_32K` until its low 15 bits are not zero, from register read `i` on:
the half word read, and the number of the next read. -/
def pollSubsec (count : ℕ → ℕ) : (fuel i : ℕ) → Option (BitVec 16 × ℕ)
  | 0, _ => none
  | fuel + 1, i =>
    let cnt32k := (subsecReg (count i)).setWidth 16
    if cnt32k &&& 0x7FFF = 0 then pollSubsec count fuel (i + 1) else some (cnt32k, i + 1)

/-- The number put together from the two registers. `*count` is unsigned; the product of the hours
is an `int`, and has no result from 19:00 on. -/
def joinCount (cnt32k : BitVec 16) (time : RtcTime) : Option (BitVec 32) :=
  if time.tmHour.toNat * 60 * 60 * khz32 < 2 ^ 31 then
    some (cnt32k.setWidth 32 + time.tmSec * BitVec.ofNat 32 khz32 +
      time.tmMin * 60 * BitVec.ofNat 32 khz32 + time.tmHour * 60 * 60 * BitVec.ofNat 32 khz32)
  else none

/-- `atcrtc_rtc_get_32khz_count`, whose `i`-th register read is made at the count `count i`. -/
def atcrtcRtcGet32khzCount (fuel : ℕ) (count : ℕ → ℕ) : Option (BitVec 32) :=
  (pollSubsec count fuel 0).bind fun (cnt32k, i) =>
    joinCount cnt32k (atcrtcRtcGet (cntReg (count i)))

/-- The true counts at the register reads of one call: they do not decrease, and `polls` is the
first read whose sub-second part is not zero. -/
structure CountReads where
  count : ℕ → ℕ
  mono : ∀ i j, i ≤ j → count i ≤ count j
  polls : ℕ
  zero_before : ∀ i < polls, count i % khz32 = 0
  moving : count polls % khz32 ≠ 0

/-- The value is the counter's at some instant from the first to the last read. -/
def BetweenCounts (first last : ℕ) (value : BitVec 32) : Prop :=
  ∃ t, first ≤ t ∧ t ≤ last ∧ value.toNat = t % dayTicks

theorem subsec_setWidth_toNat (n : ℕ) : ((subsecReg n).setWidth 16).toNat = n % khz32 := by
  rw [toNat_setWidth, subsecReg_toNat]
  exact Nat.mod_eq_of_lt (by simp only [khz32] at *; omega)

theorem subsec_and_eq_zero_iff (n : ℕ) :
    (subsecReg n).setWidth 16 &&& (0x7FFF : BitVec 16) = 0 ↔ n % khz32 = 0 := by
  have hlt : n % khz32 < 2 ^ 15 := Nat.mod_lt _ (by decide)
  rw [← toNat_inj, toNat_and, subsec_setWidth_toNat]
  change n % khz32 &&& (2 ^ 15 - 1) = 0 ↔ _
  rw [Nat.and_two_pow_sub_one_eq_mod, Nat.mod_eq_of_lt hlt]

theorem pollSubsec_eq (r : CountReads) (fuel i : ℕ) (hi : i ≤ r.polls)
    (hfuel : r.polls < fuel + i) :
    pollSubsec r.count fuel i = some ((subsecReg (r.count r.polls)).setWidth 16, r.polls + 1) := by
  induction fuel generalizing i with
  | zero => omega
  | succ fuel ih =>
    rw [pollSubsec]
    obtain rfl | hlt := hi.eq_or_lt
    · rw [if_neg ((subsec_and_eq_zero_iff _).not.mpr r.moving)]
    · rw [if_pos ((subsec_and_eq_zero_iff _).mpr (r.zero_before i hlt))]
      exact ih (i + 1) hlt (by omega)

theorem pollSubsec_eq_none {count : ℕ → ℕ} (hstill : ∀ i, count i % khz32 = 0) (fuel i : ℕ) :
    pollSubsec count fuel i = none := by
  induction fuel generalizing i with
  | zero => rfl
  | succ fuel ih =>
    rw [pollSubsec, if_pos ((subsec_and_eq_zero_iff _).mpr (hstill i))]
    exact ih (i + 1)

theorem joinCount_fields {cnt32k : BitVec 16} {time : RtcTime} (hsub : cnt32k.toNat < khz32)
    (hsec : time.tmSec.toNat < 60) (hmin : time.tmMin.toNat < 60) (hhour : time.tmHour.toNat < 19) :
    ∃ value, joinCount cnt32k time = some value ∧ value.toNat = cnt32k.toNat +
      (time.tmSec.toNat + time.tmMin.toNat * 60 + time.tmHour.toNat * 3600) * khz32 := by
  have hk : (BitVec.ofNat 32 khz32).toNat = 32768 := rfl
  have h60 : (60 : BitVec 32).toNat = 60 := rfl
  refine ⟨_, if_pos (by rw [khz32]; omega), ?_⟩
  -- `simp` would use these lemmas by `rfl`, which the kernel checks slowly
  rw [toNat_add, toNat_add, toNat_add, toNat_mul, toNat_mul, toNat_mul, toNat_mul,
    toNat_mul, toNat_mul, toNat_setWidth, hk, h60]
  rw [khz32] at hsub ⊢
  omega

/-- A count of the day from its sub-second, second, minute and hour. -/
theorem mod_dayTicks (n : ℕ) : n % dayTicks = n % khz32 +
    (n / khz32 % 60 + n / khz32 / 60 % 60 * 60 + n / khz32 / 60 / 60 % 24 * 3600) * khz32 := by
  rw [dayTicks_eq, khz32]
  omega

/-- The hour that `OFT_RTC_CNT` shows. -/
def hourOf (n : ℕ) : ℕ := n / khz32 / 60 / 60 % 24

theorem joinCount_eq_none {cnt32k : BitVec 16} {b : ℕ} (hlate : 19 ≤ hourOf b) :
    joinCount cnt32k (atcrtcRtcGet (cntReg b)) = none := by
  rw [joinCount, (atcrtcRtcGet_cntReg b).2.2, if_neg]
  rw [hourOf] at hlate
  simp only [khz32] at hlate ⊢
  omega

theorem joinCount_toNat (a b : ℕ) (hearly : hourOf b < 19) :
    ∃ value, joinCount ((subsecReg a).setWidth 16) (atcrtcRtcGet (cntReg b)) = some value ∧
      value.toNat = (b / khz32 * khz32 + a % khz32) % dayTicks := by
  obtain ⟨hsec, hmin, hhour⟩ := atcrtcRtcGet_cntReg b
  have hsub := subsec_setWidth_toNat a
  have ha : a % khz32 < khz32 := Nat.mod_lt _ (by decide)
  have hquot : (b / khz32 * khz32 + a % khz32) / khz32 = b / khz32 := by
    rw [khz32]
    omega
  obtain ⟨value, hvalue, heq⟩ := @joinCount_fields _ (atcrtcRtcGet (cntReg b))
    (hsub.trans_lt ha) (by omega) (by omega) (hhour.trans_lt hearly)
  refine ⟨value, hvalue, ?_⟩
  rw [mod_dayTicks, hquot, Nat.mul_add_mod_self_right, Nat.mod_mod, heq, hsub, hsec, hmin, hhour]

/-- The number joined from a sub-second and a later second is that of a count between: the second
has not rolled over, or the count a day earlier is still past the first one. -/
theorem joined_between_iff {first moved last : ℕ} (hfirst : first ≤ moved) (hlast : moved ≤ last) :
    (∃ t, first ≤ t ∧ t ≤ last ∧
        (last / khz32 * khz32 + moved % khz32) % dayTicks = t % dayTicks) ↔
      moved % khz32 ≤ last % khz32 ∨
        first + dayTicks ≤ last / khz32 * khz32 + moved % khz32 := by
  rw [dayTicks_eq, khz32]
  constructor
  · -- A count congruent to the joined number and not past the last read is a day below it.
    rintro ⟨t, ht1, ht2, ht⟩
    omega
  · rintro (hle | hday)
    · exact ⟨last / 32768 * 32768 + moved % 32768, by omega, by omega, rfl⟩
    · exact ⟨last / 32768 * 32768 + moved % 32768 - 2831155200, by omega, by omega, by omega⟩

/-- **When a read of the count is consistent.** A call returns a count the counter had between its
first and its last read exactly when the hour it reads is before 19, and the second did not roll
over between the last two reads or the call took about a day. -/
theorem getCount_between_iff (r : CountReads) :
    (∀ fuel, r.polls < fuel → ∃ value, atcrtcRtcGet32khzCount fuel r.count = some value ∧
        BetweenCounts (r.count 0) (r.count (r.polls + 1)) value) ↔
      hourOf (r.count (r.polls + 1)) < 19 ∧
        (r.count r.polls % khz32 ≤ r.count (r.polls + 1) % khz32 ∨ r.count 0 + dayTicks ≤
          r.count (r.polls + 1) / khz32 * khz32 + r.count r.polls % khz32) := by
  have hcall : ∀ fuel, r.polls < fuel → atcrtcRtcGet32khzCount fuel r.count =
      joinCount ((subsecReg (r.count r.polls)).setWidth 16)
        (atcrtcRtcGet (cntReg (r.count (r.polls + 1)))) := fun fuel hfuel => by
    rw [atcrtcRtcGet32khzCount, pollSubsec_eq r fuel 0 (Nat.zero_le _) hfuel, Option.bind_some]
  rcases Nat.lt_or_ge (hourOf (r.count (r.polls + 1))) 19 with hearly | hlate
  swap
  · refine iff_of_false (fun hall => ?_) fun h => absurd h.1 (Nat.not_lt.mpr hlate)
    obtain ⟨value, hvalue, -⟩ := hall (r.polls + 1) (Nat.lt_succ_self _)
    rw [hcall _ (Nat.lt_succ_self _), joinCount_eq_none hlate] at hvalue
    cases hvalue
  obtain ⟨value, hvalue, htoNat⟩ := joinCount_toNat (r.count r.polls) _ hearly
  have hreturns : (∀ fuel, r.polls < fuel → ∃ v, atcrtcRtcGet32khzCount fuel r.count = some v ∧
      BetweenCounts (r.count 0) (r.count (r.polls + 1)) v) ↔
      BetweenCounts (r.count 0) (r.count (r.polls + 1)) value := by
    constructor
    · intro hall
      obtain ⟨v, hv, hbetween⟩ := hall (r.polls + 1) (Nat.lt_succ_self _)
      rw [hcall _ (Nat.lt_succ_self _), hvalue] at hv
      cases hv
      exact hbetween
    · exact fun h fuel hfuel => ⟨value, (hcall fuel hfuel).trans hvalue, h⟩
  rw [hreturns, and_iff_right hearly, BetweenCounts, htoNat]
  exact joined_between_iff (r.mono _ _ (Nat.zero_le _)) (r.mono _ _ (Nat.le_succ _))

/-- A second begins and is waited out: the counts 65536, 65536, 65540 and 65545. -/
def sampleReads : CountReads where
  count i := 65536 + if i < 2 then 0 else if i = 2 then 4 else 9
  mono i j hij := by
    split_ifs <;> omega
  polls := 2
  zero_before i hi := by
    rw [if_pos hi]
    rfl
  moving := by decide

theorem getCount_between_sample :
    atcrtcRtcGet32khzCount 3 sampleReads.count = some 65540 ∧
      ∀ fuel, 2 < fuel → ∃ value, atcrtcRtcGet32khzCount fuel sampleReads.count = some value ∧
        BetweenCounts 65536 65545 value :=
  ⟨by decide, (getCount_between_iff sampleReads).mpr ⟨by decide, .inl (by decide)⟩⟩

/-- The second rolls over between the two reads: the result is a second ahead. -/
theorem torn_count_read :
    atcrtcRtcGet32khzCount 1 (fun i => if i = 0 then 32767 else 32768) = some 65535 ∧
      ¬ BetweenCounts 32767 32768 65535 := by
  refine ⟨by decide, ?_⟩
  rintro ⟨t, ht1, ht2, ht⟩
  rw [dayTicks_eq] at ht
  have : (65535 : BitVec 32).toNat = 65535 := rfl
  omega

/-! ## The alarm -/

/-- The count `atcrtc_rtc_set_32khz_alarm` goes by: a whole second is moved one tick back. -/
def alarmTick (count : BitVec 32) : BitVec 32 :=
  if count &&& 0x7fff = 0 then count - 1 else count

/-- The word `atcrtc_rtc_set_32khz_alarm` writes to `OFT_RTC_ALM`. -/
def atcrtcRtcSet32khzAlarm (count : BitVec 32) : BitVec 32 :=
  let count := alarmTick count
  let sec := count / BitVec.ofNat 32 khz32
  let min := sec / 60
  let sec := sec % 60
  let hour := min / 60
  let min := min % 60
  let hour := hour % 24
  count % BitVec.ofNat 32 khz32 ||| sec <<< 15 ||| min <<< 21 ||| hour <<< 27

/-- The count at which the alarm register `reg` matches the day counter. -/
def alarmCount (reg : BitVec 32) : ℕ :=
  ((reg >>> 0) &&& 0x7FFF).toNat +
    (((reg >>> 15) &&& 0x3F).toNat + ((reg >>> 21) &&& 0x3F).toNat * 60 +
      ((reg >>> 27) &&& 0x1F).toNat * 3600) * khz32

theorem alarmTick_toNat {count : BitVec 32} (hpos : 0 < count.toNat) :
    (alarmTick count).toNat = if count.toNat % khz32 = 0 then count.toNat - 1 else count.toNat := by
  have hmask : count &&& (0x7fff : BitVec 32) = 0 ↔ count.toNat % khz32 = 0 := by
    rw [← toNat_inj, toNat_and]
    change count.toNat &&& (2 ^ 15 - 1) = 0 ↔ _
    rw [Nat.and_two_pow_sub_one_eq_mod]
    rfl
  simp only [alarmTick, hmask]
  split
  · rw [toNat_sub]
    change (2 ^ 32 - 1 + count.toNat) % 2 ^ 32 = _
    omega
  · rfl

/-- Disjoint fields, the highest first. -/
theorem or_shiftLeft_toNat {x y : BitVec 32} (i : ℕ) (hx : x.toNat < 2 ^ i)
    (hy : y.toNat * 2 ^ i < 2 ^ 32) :
    (x ||| y <<< i).toNat = x.toNat + y.toNat * 2 ^ i := by
  rw [toNat_or, toNat_shiftLeft, Nat.shiftLeft_eq, Nat.mod_eq_of_lt hy,
    Nat.or_comm, Nat.mul_comm, ← Nat.two_pow_add_eq_or_of_lt hx, Nat.add_comm]

/-- The fields of the word written, as one number. -/
theorem setAlarm_toNat (count : BitVec 32) :
    (atcrtcRtcSet32khzAlarm count).toNat =
      (alarmTick count).toNat % khz32 + (alarmTick count).toNat / khz32 % 60 * 2 ^ 15 +
        (alarmTick count).toNat / khz32 / 60 % 60 * 2 ^ 21 +
        (alarmTick count).toNat / khz32 / 60 / 60 % 24 * 2 ^ 27 := by
  have hsub : (alarmTick count % BitVec.ofNat 32 khz32).toNat =
      (alarmTick count).toNat % khz32 := by
    rw [toNat_umod]
    rfl
  have hquot : (alarmTick count / BitVec.ofNat 32 khz32).toNat =
      (alarmTick count).toNat / khz32 := by
    rw [toNat_udiv]
    rfl
  simp only [atcrtcRtcSet32khzAlarm]
  generalize alarmTick count / BitVec.ofNat 32 khz32 = sec at hquot ⊢
  generalize alarmTick count % BitVec.ofNat 32 khz32 = sub at hsub ⊢
  have hsec : (sec % 60).toNat = (alarmTick count).toNat / khz32 % 60 := by
    rw [toNat_umod, hquot]
    rfl
  have hmin : (sec / 60 % 60).toNat = (alarmTick count).toNat / khz32 / 60 % 60 := by
    rw [toNat_umod, toNat_udiv, hquot]
    rfl
  have hhour : (sec / 60 / 60 % 24).toNat = (alarmTick count).toNat / khz32 / 60 / 60 % 24 := by
    rw [toNat_umod, toNat_udiv, toNat_udiv, hquot]
    rfl
  have hltSub : sub.toNat < 2 ^ 15 := hsub ▸ Nat.mod_lt _ (by decide)
  have h1 := or_shiftLeft_toNat (x := sub) (y := sec % 60) 15 hltSub (by omega)
  have h2 := or_shiftLeft_toNat (x := sub ||| (sec % 60) <<< 15) (y := sec / 60 % 60) 21
    (by omega) (by omega)
  have h3 := or_shiftLeft_toNat (y := sec / 60 / 60 % 24) 27
    (x := sub ||| (sec % 60) <<< 15 ||| (sec / 60 % 60) <<< 21) (by omega) (by omega)
  rw [h3, h2, h1, hsub, hsec, hmin, hhour]

/-- **What the alarm is set to.**  The register decodes to the count the driver goes by. -/
theorem alarmCount_setAlarm (count : BitVec 32) :
    alarmCount (atcrtcRtcSet32khzAlarm count) = (alarmTick count).toNat % dayTicks := by
  have hsub := toNat_field (atcrtcRtcSet32khzAlarm count) 0 15 (by decide)
  have hsec := toNat_field (atcrtcRtcSet32khzAlarm count) 15 6 (by decide)
  have hmin := toNat_field (atcrtcRtcSet32khzAlarm count) 21 6 (by decide)
  have hhour := toNat_field (atcrtcRtcSet32khzAlarm count) 27 5 (by decide)
  have hword := setAlarm_toNat count
  generalize (alarmTick count).toNat = n at *
  generalize (atcrtcRtcSet32khzAlarm count).toNat = word at *
  have hltSub : n % khz32 < 32768 := Nat.mod_lt _ (by decide)
  have hsub' : word / 2 ^ 0 % 2 ^ 15 = n % khz32 := by omega
  have hsec' : word / 2 ^ 15 % 2 ^ 6 = n / khz32 % 60 := by omega
  have hmin' : word / 2 ^ 21 % 2 ^ 6 = n / khz32 / 60 % 60 := by omega
  have hhour' : word / 2 ^ 27 % 2 ^ 5 = n / khz32 / 60 / 60 % 24 := by omega
  rw [mod_dayTicks, ← hsub', ← hsec', ← hmin', ← hhour', ← hsub, ← hsec, ← hmin, ← hhour]
  rfl

end WiseSdk.Rtc
