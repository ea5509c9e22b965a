import Mathlib.Algebra.Order.Ring.Nat

/-!
# Aligned power-of-two blocks

A dyadic block is a range `[x, x + m)` whose size `m` is a power of two that divides its start.
Two facts carry every argument about them: a block that starts below a multiple of its size
ends there at the latest (`add_le_of_dvd`), and of two blocks the one that starts first either
ends before the other or covers it (`add_le_or_covers`).  `toNat_and_not_sub_one` is the masking
idiom that rounds a machine word down to the start of its block.
-/

namespace WiseSdk.Library

open BitVec

variable {x y m n w : ℕ}

def PowerOfTwo (m : ℕ) : Prop := ∃ k, m = 2 ^ k

theorem PowerOfTwo.pos (hm : PowerOfTwo m) : 0 < m := by
  obtain ⟨k, rfl⟩ := hm
  exact Nat.two_pow_pos k

theorem PowerOfTwo.dvd_of_le (hm : PowerOfTwo m) (hn : PowerOfTwo n) (h : m ≤ n) : m ∣ n := by
  obtain ⟨k, rfl⟩ := hm
  obtain ⟨l, rfl⟩ := hn
  exact Nat.pow_dvd_pow 2 ((Nat.pow_le_pow_iff_right (by decide)).mp h)

theorem PowerOfTwo.two_mul_le (hm : PowerOfTwo m) (hn : PowerOfTwo n) (h : m < n) :
    2 * m ≤ n := by
  obtain ⟨k, rfl⟩ := hm
  obtain ⟨l, rfl⟩ := hn
  have hkl : k < l := (Nat.pow_lt_pow_iff_right (by decide)).mp h
  calc 2 * 2 ^ k = 2 ^ (k + 1) := by rw [Nat.pow_succ, Nat.mul_comm]
    _ ≤ 2 ^ l := Nat.pow_le_pow_right (by decide) hkl

theorem add_le_of_dvd (hx : m ∣ x) (hy : m ∣ y) (h : x < y) : x + m ≤ y := by
  obtain ⟨a, rfl⟩ := hx
  obtain ⟨b, rfl⟩ := hy
  have hab : a < b := Nat.lt_of_mul_lt_mul_left h
  calc m * a + m = m * (a + 1) := (Nat.mul_succ m a).symm
    _ ≤ m * b := Nat.mul_le_mul_left m hab

/-- **Blocks nest.** An aligned block that starts before another one ends before it or covers it. -/
theorem add_le_or_covers (hm : PowerOfTwo m) (hn : PowerOfTwo n) (hx : m ∣ x) (hy : n ∣ y)
    (h : x < y) : x + m ≤ y ∨ y + n ≤ x + m := by
  rcases Nat.le_total m n with hmn | hnm
  · exact .inl (add_le_of_dvd hx (Nat.dvd_trans (hm.dvd_of_le hn hmn) hy) h)
  · have hdvd : n ∣ m := hn.dvd_of_le hm hnm
    rcases Nat.lt_or_ge y (x + m) with hlt | hge
    · exact .inr (add_le_of_dvd hy (Nat.dvd_add (Nat.dvd_trans hdvd hx) hdvd) hlt)
    · exact .inl hge

theorem toNat_and_not_sub_one (s z : BitVec w) (hz : PowerOfTwo z.toNat) :
    (s &&& ~~~(z - 1#w)).toNat = s.toNat - s.toNat % z.toNat := by
  obtain ⟨k, hk⟩ := hz
  have hkw : k < w := (Nat.pow_lt_pow_iff_right (by decide)).mp (hk ▸ z.isLt)
  have hlow : (z - 1#w).toNat = 2 ^ k - 1 := by
    have hpos : 0 < 2 ^ k := Nat.two_pow_pos k
    have hone : (1#w).toNat = 1 := by
      rw [toNat_ofNat, Nat.mod_eq_of_lt (Nat.one_lt_two_pow (by omega))]
    rw [toNat_sub_of_le (by rw [le_def]; omega), hk, hone]
  -- Both sides have the bits of `s` from `k` up.
  rw [hk, show s.toNat - s.toNat % 2 ^ k = s.toNat >>> k <<< k by
    rw [Nat.shiftLeft_eq, Nat.shiftRight_eq_div_pow]
    have := Nat.div_add_mod' s.toNat (2 ^ k)
    omega]
  refine Nat.eq_of_testBit_eq fun i => ?_
  rw [testBit_toNat, getLsbD_and, getLsbD_not, ← testBit_toNat (z - 1#w), hlow,
    Nat.testBit_two_pow_sub_one, Nat.testBit_shiftLeft, Nat.testBit_shiftRight, testBit_toNat]
  rcases Nat.lt_or_ge i k with hik | hik
  · simp [hik, show ¬k ≤ i by omega]
  · rcases Nat.lt_or_ge i w with hiw | hiw
    · simp [hik, hiw, show ¬i < k by omega]
    · simp [getLsbD_of_ge s i hiw, show ¬i < w by omega, hik]

end WiseSdk.Library
