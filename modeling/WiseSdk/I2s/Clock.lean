import Mathlib.Data.Nat.Bitwise
import WiseSdk.I2s.Driver

/-!
# The clock dividers of the I2S driver

`python_i2s_set_clock` of `hal/drivers/i2s/i2s-python.c` divides the master clock by the even
numbers in turn, as long as the bit clock stays above the bit rate, and keeps the last pair of
dividers with the smallest gap to the frame rate. Only then are the dividers compared with what the
registers hold: the first with 15, and, when it is in CFG1 already, the second with 0x2000, where
the fields of CFG2 end at 0xfff. So the search may end with a pair that is turned down, or does not
fit, although another one fits.
-/

namespace WiseSdk.I2s

def u32 (n : ℕ) : ℕ := n % 2 ^ 32

def divRoundClosest (dividend divisor : ℕ) : ℕ := u32 (dividend + divisor / 2) / divisor

def diff (val1 val2 : ℕ) : ℕ := if val2 < val1 then val1 - val2 else val2 - val1

/-- The registers CFG1 and CFG2. -/
structure ClockRegs where
  cfg1 : BitVec 32
  cfg2 : BitVec 32
  deriving DecidableEq

def mbclkDiv : BitVec 32 := 0x3c000

/-- I2S_PYTHON_CFG2_DAC_MLRCLK_DIV and .._ADC_MLRCLK_DIV. -/
def mlrclkDiv (tx : Bool) : BitVec 32 := if tx then 0x0fff0000 else 0xfff

def mlrclkShift (tx : Bool) : ℕ := if tx then 16 else 0

def setBits (v mask : BitVec 32) (shift x : ℕ) : BitVec 32 :=
  v &&& ~~~mask ||| BitVec.ofNat 32 x <<< shift

def ClockRegs.setDiv1 (regs : ClockRegs) (div1 : ℕ) : ClockRegs :=
  { regs with cfg1 := setBits regs.cfg1 mbclkDiv 14 div1 }

def ClockRegs.setDiv2 (regs : ClockRegs) (tx : Bool) (div2 : ℕ) : ClockRegs :=
  { regs with cfg2 := setBits regs.cfg2 (mlrclkDiv tx) (mlrclkShift tx) div2 }

/-- The part behind the loop. -/
def ClockRegs.writeDivs (regs : ClockRegs) (tx : Bool) (div1 div2 : ℕ) : ℤ × ClockRegs :=
  if div1 = 0 ∨ div2 = 0 then (-einval, regs)
  else if 15 < div1 / 2 then (-einval, regs)
  else if 0x2000 < div2 - 1 then (-einval, regs.setDiv1 (div1 / 2))
  else (0, (regs.setDiv1 (div1 / 2)).setDiv2 tx (div2 - 1))

/-- What `clk_get_rate` returns, and the arguments. -/
structure ClockRequest where
  mclkFreq : ℕ
  channelLength : ℕ
  numChannels : ℕ
  frameClkFreq : ℕ
  mclk_lt : mclkFreq < 2 ^ 31
  length_pos : 0 < channelLength
  channels_pos : 0 < numChannels
  frame_pos : 0 < frameClkFreq
  rate_lt : channelLength * numChannels * frameClkFreq < 2 ^ 32

namespace ClockRequest

variable (r : ClockRequest)

def bitRate : ℕ := r.channelLength * r.numChannels * r.frameClkFreq

def bitClkFreq (i : ℕ) : ℕ := divRoundClosest r.mclkFreq (i * 2)

/-- `d2`. -/
def frameDiv (i : ℕ) : ℕ := divRoundClosest (r.bitClkFreq i) r.frameClkFreq

def gap (i : ℕ) : ℕ := diff (r.bitClkFreq i / r.frameDiv i) r.frameClkFreq

/-- The loop from `i` on; the fuel ends where `i * 2` overflows. -/
def search : ℕ → ℕ → ℕ → ℕ → ℕ → Option (ℕ × ℕ)
  | 0, _, _, _, _ => none
  | fuel + 1, i, minGap, div1, div2 =>
    if r.bitClkFreq i ≤ r.bitRate then some (div1, div2)
    else if r.gap i ≤ minGap then search fuel (i + 1) (r.gap i) (i * 2) (r.frameDiv i)
    else search fuel (i + 1) minGap div1 div2

/-- `python_i2s_set_clock`. -/
def setClock (tx : Bool) (regs : ClockRegs) : Option (ℤ × ClockRegs) :=
  (r.search (2 ^ 30 - 1) 1 (2 ^ 32 - 1) 0 0).map fun (div1, div2) => regs.writeDivs tx div1 div2

/-! ## What is asked of it -/

/-- The loop comes to the pair of `i`. -/
def Admits (i : ℕ) : Prop := 0 < i ∧ ∀ j, 0 < j → j ≤ i → r.bitRate < r.bitClkFreq j

def Fits (i : ℕ) : Prop := i ≤ 15 ∧ r.frameDiv i - 1 ≤ 0xfff

/-- The last of the pairs with the smallest gap. -/
def LastBest (i : ℕ) : Prop :=
  r.Admits i ∧ ∀ j, r.Admits j → r.gap i < r.gap j ∨ r.gap i = r.gap j ∧ j ≤ i

/-- The number is in its field, and the other bits are as before. -/
def InField (v v' mask : BitVec 32) (shift x : ℕ) : Prop :=
  v' &&& mask = BitVec.ofNat 32 x <<< shift ∧ v' &&& ~~~mask = v &&& ~~~mask

/-- **The clock is chosen well**: a fitting pair with the smallest gap of those that fit, or an
error when none fits, and no register changed. -/
def ChosenWell (tx : Bool) (regs : ClockRegs) : Prop :=
  ∃ out, r.setClock tx regs = some out ∧ if out.1 = 0 then
    ∃ i, r.Admits i ∧ r.Fits i ∧ (∀ j, r.Admits j → r.Fits j → r.gap i ≤ r.gap j) ∧
      InField regs.cfg1 out.2.cfg1 mbclkDiv 14 i ∧
      InField regs.cfg2 out.2.cfg2 (mlrclkDiv tx) (mlrclkShift tx) (r.frameDiv i - 1)
    else out.2 = regs ∧ ∀ i, r.Admits i → ¬r.Fits i

/-! ## The search -/

variable {r} {i j : ℕ}

theorem frame_le : 0 < r.frameClkFreq ∧ r.frameClkFreq ≤ r.bitRate ∧ r.bitRate < 2 ^ 32 :=
  ⟨r.frame_pos, Nat.le_mul_of_pos_left _ (Nat.mul_pos r.length_pos r.channels_pos), r.rate_lt⟩

theorem bitClkFreq_lt (i : ℕ) : r.bitClkFreq i < 2 ^ 31 := by
  have hlt : u32 (r.mclkFreq + i * 2 / 2) < 2 ^ 32 := Nat.mod_lt _ (by decide)
  rw [bitClkFreq, divRoundClosest]
  generalize u32 (r.mclkFreq + i * 2 / 2) = n at hlt
  rcases Nat.eq_zero_or_pos i with rfl | hi
  · simp
  · have hdiv : n / (i * 2) ≤ n / 2 := Nat.div_le_div_left (by omega) (by decide)
    omega

variable (h : r.bitRate < r.bitClkFreq i)

include h

theorem three_mul_le : 3 * i ≤ r.mclkFreq := by
  obtain ⟨hpos, hle, -⟩ := r.frame_le
  rw [bitClkFreq, divRoundClosest] at h
  have hmul := Nat.mul_le_of_le_div _ _ _ (show 2 ≤ u32 (r.mclkFreq + i * 2 / 2) / (i * 2) by omega)
  have hmod : u32 (r.mclkFreq + i * 2 / 2) ≤ r.mclkFreq + i * 2 / 2 := Nat.mod_le ..
  omega

theorem frameDiv_pos : 0 < r.frameDiv i := by
  obtain ⟨hpos, hle, hlt⟩ := r.frame_le
  have hclk := r.bitClkFreq_lt i
  refine Nat.div_pos ?_ hpos
  rw [u32, Nat.mod_eq_of_lt (by omega)]
  omega

omit h

theorem gap_lt (i : ℕ) : r.gap i < 2 ^ 32 := by
  obtain ⟨-, hle, hlt⟩ := r.frame_le
  have hrate := (Nat.div_le_self _ (r.frameDiv i)).trans_lt (r.bitClkFreq_lt i)
  rw [gap, diff]
  generalize r.bitClkFreq i / r.frameDiv i = rate at *
  split_ifs <;> omega

/-- The variables of the loop before its round `i`. -/
def SoFar (r : ClockRequest) (i minGap div1 div2 : ℕ) : Prop :=
  i = 1 ∧ minGap = 2 ^ 32 - 1 ∧ div1 = 0 ∧ div2 = 0 ∨
    ∃ b, 0 < b ∧ b < i ∧ minGap = r.gap b ∧ div1 = b * 2 ∧ div2 = r.frameDiv b ∧
      ∀ j, 0 < j → j < i → r.gap b < r.gap j ∨ r.gap b = r.gap j ∧ j ≤ b

theorem search_eq {fuel minGap div1 div2 : ℕ} (hfuel : fuel + i = 2 ^ 30) (hi : 0 < i)
    (hadm : ∀ j, 0 < j → j < i → r.bitRate < r.bitClkFreq j) (hvars : SoFar r i minGap div1 div2) :
    ∃ out, r.search fuel i minGap div1 div2 = some out ∧
      (out = (0, 0) ∧ (∀ j, ¬r.Admits j) ∨ ∃ b, r.LastBest b ∧ out = (b * 2, r.frameDiv b)) := by
  induction fuel generalizing i minGap div1 div2 with
  | zero =>
    have hlast := three_mul_le (hadm (i - 1) (by omega) (by omega))
    have hmclk := r.mclk_lt
    omega
  | succ fuel ih =>
    rw [search]
    by_cases hend : r.bitClkFreq i ≤ r.bitRate
    · have hlt : ∀ j, r.Admits j → j < i := fun j hj =>
        Nat.lt_of_not_le fun hle => Nat.not_lt.mpr hend (hj.2 i hi hle)
      refine ⟨_, if_pos hend, ?_⟩
      rcases hvars with ⟨rfl, -, rfl, rfl⟩ | ⟨b, hb, hbi, -, rfl, rfl, hbest⟩
      · exact .inl ⟨rfl, fun j hj => absurd (hlt j hj) (Nat.not_lt.mpr hj.1)⟩
      · exact .inr ⟨b, ⟨⟨hb, fun j hj hle => hadm j hj (hle.trans_lt hbi)⟩,
          fun j hj => hbest j hj.1 (hlt j hj)⟩, rfl⟩
    have hadm' : ∀ j, 0 < j → j < i + 1 → r.bitRate < r.bitClkFreq j := fun j hj hji =>
      (Nat.lt_succ_iff_lt_or_eq.mp hji).elim (hadm j hj) fun h => h ▸ Nat.lt_of_not_le hend
    rw [if_neg hend]
    have hgap := r.gap_lt i
    split_ifs with hle
    · refine ih (by omega) i.succ_pos hadm'
        (.inr ⟨i, hi, by omega, rfl, rfl, rfl, fun j hj hji => ?_⟩)
      rcases Nat.lt_succ_iff_lt_or_eq.mp hji with hlt | rfl
      · rcases hvars with ⟨rfl, -⟩ | ⟨b, -, -, rfl, -, -, hbest⟩
        · omega
        · have := hbest j hj hlt
          omega
      · exact .inr ⟨rfl, le_rfl⟩
    · refine ih (by omega) i.succ_pos hadm' ?_
      rcases hvars with ⟨-, rfl, -⟩ | ⟨b, hb, hbi, rfl, rfl, rfl, hbest⟩
      · omega
      · refine .inr ⟨b, hb, by omega, rfl, rfl, rfl, fun j hj hji => ?_⟩
        rcases Nat.lt_succ_iff_lt_or_eq.mp hji with hlt | rfl
        · exact hbest j hj hlt
        · omega

/-! ## The registers -/

theorem inField_setBits (v mask : BitVec 32) {shift x k : ℕ} (hx : x < 2 ^ k)
    (hmask : mask = BitVec.ofNat 32 (2 ^ k - 1) <<< shift) :
    InField v (setBits v mask shift x) mask shift x := by
  have hlow : BitVec.ofNat 32 x &&& BitVec.ofNat 32 (2 ^ k - 1) = BitVec.ofNat 32 x := by
    rw [← BitVec.ofNat_and, Nat.and_two_pow_sub_one_eq_mod, Nat.mod_eq_of_lt hx]
  have hin : BitVec.ofNat 32 x <<< shift &&& mask = BitVec.ofNat 32 x <<< shift := by
    rw [hmask, ← BitVec.shiftLeft_and_distrib, hlow]
  have hout : BitVec.ofNat 32 x <<< shift &&& ~~~mask = 0#32 := by
    rw [← hin, BitVec.and_assoc]
    simp
  rw [InField, setBits, BitVec.and_or_distrib_right, BitVec.and_or_distrib_right, hin, hout]
  simp [BitVec.and_assoc]

theorem inField_div1 (regs : ClockRegs) (hi : i ≤ 15) :
    InField regs.cfg1 (regs.setDiv1 i).cfg1 mbclkDiv 14 i :=
  inField_setBits (k := 4) _ _ (Nat.lt_succ_of_le hi) (by decide)

theorem inField_div2 (regs : ClockRegs) (tx : Bool) (hi : i ≤ 0xfff) :
    InField regs.cfg2 (regs.setDiv2 tx i).cfg2 (mlrclkDiv tx) (mlrclkShift tx) i :=
  inField_setBits (k := 12) _ _ (Nat.lt_succ_of_le hi) (by cases tx <;> decide)

/-- CFG1 tells the first divider. -/
theorem InField.inj {v v' w : BitVec 32} (hi : i ≤ 15) (hj : j ≤ 15) (h : InField v w mbclkDiv 14 i)
    (h' : InField v' w mbclkDiv 14 j) : i = j := by
  have heq := congrArg BitVec.toNat (h.1.symm.trans h'.1)
  simp only [BitVec.toNat_shiftLeft, BitVec.toNat_ofNat, Nat.shiftLeft_eq] at heq
  omega

/-- **The clock search, exactly.** It is right when the last of the pairs with the smallest gap
fits, or when no pair fits and that one is turned down before a register changes. -/
theorem chosen_well_iff (r : ClockRequest) (tx : Bool) (regs : ClockRegs) :
    r.ChosenWell tx regs ↔ ∀ i, r.LastBest i → r.Fits i ∨ (∀ j, r.Admits j → ¬r.Fits j) ∧
      (15 < i ∨ 0x2000 < r.frameDiv i - 1 ∧ regs.setDiv1 i = regs) := by
  obtain ⟨out, hsearch, hout⟩ := search_eq (r := r)
    (show 2 ^ 30 - 1 + 1 = 2 ^ 30 from rfl) Nat.one_pos (fun j hj hlt => absurd hj (by omega))
    (.inl ⟨rfl, rfl, rfl, rfl⟩)
  simp only [ChosenWell, setClock, hsearch, Option.map_some, Option.some.injEq, exists_eq_left']
  rcases hout with ⟨rfl, hnone⟩ | ⟨b, ⟨hadm, hbest⟩, rfl⟩
  · exact iff_of_true ⟨rfl, fun i hi => absurd hi (hnone i)⟩ fun i hi => absurd hi.1 (hnone i)
  have honly (p : ℕ → Prop) : (∀ i, r.LastBest i → p i) ↔ p b := by
    refine ⟨fun h => h b ⟨hadm, hbest⟩, fun h i hi => ?_⟩
    have hib := hi.2 b hadm
    have hbi := hbest i hi.1
    exact (show i = b by omega) ▸ h
  have hset : ¬(b * 2 = 0 ∨ r.frameDiv b = 0) := by
    have hdiv := frameDiv_pos (hadm.2 b hadm.1 le_rfl)
    have hpos := hadm.1
    omega
  have herr : -einval ≠ 0 := by decide
  rw [honly, ClockRegs.writeDivs, if_neg hset, Nat.mul_div_cancel b (by decide), Fits]
  by_cases hdiv1 : 15 < b
  · simp [hdiv1, herr, Nat.not_le.mpr hdiv1]
  by_cases hdiv2 : 0x2000 < r.frameDiv b - 1
  · have hlarge : ¬r.frameDiv b - 1 ≤ 0xfff := by omega
    simp [hdiv1, hdiv2, herr, hlarge, and_comm]
  have hle : b ≤ 15 := Nat.le_of_not_lt hdiv1
  simp only [hdiv1, hdiv2, if_false, if_true, false_and, or_self, and_false, or_false]
  constructor
  · rintro ⟨i, -, hfits, -, hfield, -⟩
    exact InField.inj hle hfits.1 (inField_div1 regs hle) hfield ▸ hfits
  · refine fun hfits => ⟨b, hadm, hfits, fun j hj _ => ?_, inField_div1 regs hle,
      inField_div2 (regs.setDiv1 b) tx hfits.2⟩
    have := hbest j hj
    omega

/-- 16 bit stereo at 8 kHz from a master clock of 12.288 MHz. -/
def stereo8k : ClockRequest where
  mclkFreq := 12288000
  channelLength := 16
  numChannels := 2
  frameClkFreq := 8000
  mclk_lt := by decide
  length_pos := Nat.succ_pos 15
  channels_pos := by decide
  frame_pos := by decide
  rate_lt := by decide

/-- Dividing by 32 and 48 is exact as dividing by 2 and 768 is, and comes last, but 16 does not fit:
the rate is refused. -/
theorem fitting_pair_refused : ¬stereo8k.ChosenWell true ⟨0, 0⟩ := by
  have hout : stereo8k.setClock true ⟨0, 0⟩ = some (-einval, ⟨0, 0⟩) := by decide +kernel
  rintro ⟨out, hset, hwell⟩
  cases hout.symm.trans hset
  refine hwell.2 1 ⟨Nat.one_pos, fun j hj hle => ?_⟩ ⟨by decide, by decide⟩
  obtain rfl : j = 1 := by omega
  decide

end ClockRequest

end WiseSdk.I2s
