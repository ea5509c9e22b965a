import Mathlib.Data.Finset.Card
import Mathlib.Data.Nat.ModEq

/-!
# Tables of bits kept in words, and cyclic runs of positions

A table of `w`-bit words is read as one row of bits: bit `i` is bit `i % w` of word `i / w`.
A word mask *covers* a list of positions of one word; comparing the masked word with the
mask then tests those positions, and clearing the mask clears exactly them.  Positions are
walked cyclically: `cyclicRun M p n` is the list of the `n` positions from `p` on, modulo
`M`.
-/

namespace WiseSdk.Library

open List Function
open BitVec hiding and_assoc

/-! ## Cyclic runs -/

def cyclicRun (M p n : ℕ) : List ℕ :=
  (range n).map fun j => (p + j) % M

@[simp] theorem length_cyclicRun (M p n : ℕ) : (cyclicRun M p n).length = n := by
  simp [cyclicRun]

@[simp] theorem cyclicRun_zero (M p : ℕ) : cyclicRun M p 0 = [] := rfl

variable {M n p i r N k : ℕ}

theorem mem_cyclicRun : i ∈ cyclicRun M p n ↔ ∃ j < n, (p + j) % M = i := by
  simp [cyclicRun]

theorem lt_of_mem_cyclicRun (hM : 0 < M) (h : i ∈ cyclicRun M p n) : i < M := by
  obtain ⟨j, _, rfl⟩ := mem_cyclicRun.mp h
  exact Nat.mod_lt _ hM

theorem cyclicRun_mod (M p n : ℕ) : cyclicRun M (p % M) n = cyclicRun M p n := by
  simp [cyclicRun]

theorem cyclicRun_add (M p m n : ℕ) :
    cyclicRun M p (m + n) = cyclicRun M p m ++ cyclicRun M (p + m) n := by
  simp [cyclicRun, range_add, Nat.add_assoc]

theorem cyclicRun_succ (M p n : ℕ) :
    cyclicRun M p (n + 1) = p % M :: cyclicRun M (p + 1) n := by
  rw [Nat.add_comm n 1, cyclicRun_add]
  rfl

theorem mem_cyclicRun_of_le (h : p + n ≤ M) : i ∈ cyclicRun M p n ↔ p ≤ i ∧ i < p + n := by
  rw [mem_cyclicRun]
  constructor
  · rintro ⟨j, hj, rfl⟩
    rw [Nat.mod_eq_of_lt (by omega)]
    omega
  · rintro ⟨hp, hi⟩
    exact ⟨i - p, by omega, by rw [Nat.mod_eq_of_lt (by omega)]; omega⟩

theorem nodup_cyclicRun (h : n ≤ M) : (cyclicRun M p n).Nodup := by
  refine List.Nodup.map_on ?_ nodup_range
  intro a ha b hb hab
  rw [mem_range] at ha hb
  have hmod : a ≡ b [MOD M] := Nat.ModEq.add_left_cancel' p hab
  rwa [Nat.ModEq, Nat.mod_eq_of_lt (by omega), Nat.mod_eq_of_lt (by omega)] at hmod

theorem not_mem_cyclicRun_end (h : n < M) : (p + n) % M ∉ cyclicRun M p n := by
  have hnd := nodup_cyclicRun (M := M) (p := p) (n := n + 1) h
  rw [cyclicRun_add, nodup_append] at hnd
  exact fun hmem => hnd.2.2 _ hmem _ (by simp [cyclicRun]) rfl

theorem cyclicRun_subset_iff {m : ℕ} (h : n < M) : cyclicRun M p m ⊆ cyclicRun M p n ↔ m ≤ n := by
  refine ⟨fun hsub => ?_, fun hle i hi => ?_⟩
  · by_contra hlt
    exact not_mem_cyclicRun_end h (hsub (mem_cyclicRun.mpr ⟨n, Nat.not_le.mp hlt, rfl⟩))
  · obtain ⟨j, hj, hji⟩ := mem_cyclicRun.mp hi
    exact mem_cyclicRun.mpr ⟨j, hj.trans_le hle, hji⟩

/-- A run without a repeated position is at most one turn long. -/
theorem le_of_nodup_cyclicRun (hM : 0 < M) (h : (cyclicRun M p n).Nodup) : n ≤ M := by
  have hsub : (cyclicRun M p n).toFinset ⊆ Finset.range M := fun i hi =>
    Finset.mem_range.mpr (lt_of_mem_cyclicRun hM (mem_toFinset.mp hi))
  simpa [toFinset_card_of_nodup h] using Finset.card_le_card hsub

/-! ## Bits of a table of words -/

abbrev BitTable (w : ℕ) := ℕ → BitVec w

namespace BitTable

variable {w : ℕ} {m : BitVec w}

def bit (t : BitTable w) (i : ℕ) : Bool :=
  (t (i / w)).getLsbD (i % w)

def ones (t : BitTable w) (M : ℕ) : Finset ℕ :=
  (Finset.range M).filter fun i => t.bit i

variable {t t' : BitTable w} {l : List ℕ} {q : ℕ}

@[simp] theorem mem_ones : i ∈ t.ones M ↔ i < M ∧ t.bit i := by
  simp [ones]

theorem bit_mul_add (hr : r < w) (t : BitTable w) (q : ℕ) :
    t.bit (w * q + r) = (t q).getLsbD r := by
  rw [bit, Nat.mul_add_div (by omega), Nat.div_eq_of_lt hr, Nat.add_zero, Nat.mul_add_mod,
    Nat.mod_eq_of_lt hr]

theorem ext_bit (h : ∀ i, t.bit i = t'.bit i) : t = t' := by
  funext q
  refine eq_of_getLsbD_eq fun r hr => ?_
  rw [← bit_mul_add hr, h, bit_mul_add hr]

/-! ## Masks -/

/-- The mask `m`, applied to word `q`, selects exactly the positions in `l`. -/
def Covers (q : ℕ) (m : BitVec w) (l : List ℕ) : Prop :=
  ∀ i, i ∈ l ↔ i / w = q ∧ m.getLsbD (i % w)

theorem Covers.check (h : Covers q m l) (t : BitTable w) : t q &&& m = m ↔ ∀ i ∈ l, t.bit i := by
  constructor
  · intro heq i hi
    obtain ⟨rfl, hm⟩ := (h i).mp hi
    rw [← heq, getLsbD_and, Bool.and_eq_true] at hm
    exact hm.1
  · intro hall
    refine eq_of_getLsbD_eq fun k hk => ?_
    rw [getLsbD_and]
    cases hm : m.getLsbD k with
    | false => simp
    | true =>
      have hdiv : (w * q + k) / w = q := by
        rw [Nat.mul_add_div (by omega), Nat.div_eq_of_lt hk, Nat.add_zero]
      have hmod : (w * q + k) % w = k := by
        rw [Nat.mul_add_mod, Nat.mod_eq_of_lt hk]
      have hbit := hall (w * q + k) ((h _).mpr ⟨hdiv, by rwa [hmod]⟩)
      rw [← bit_mul_add hk, hbit, Bool.true_and]

/-- Clearing the mask clears the covered positions and no other. -/
theorem Covers.clear (h : Covers q m l) (hw : 0 < w) (t : BitTable w) (i : ℕ) :
    bit (update t q (t q &&& ~~~m)) i = (t.bit i && decide (i ∉ l)) := by
  have hi := Nat.mod_lt i hw
  have hmem := h i
  by_cases hq : i / w = q
  · subst hq
    simp [bit, hi, hmem]
  · simp [bit, hmem, hq]

/-- Setting the mask sets the covered positions and no other. -/
theorem Covers.set (h : Covers q m l) (t : BitTable w) (i : ℕ) :
    bit (update t q (t q ||| m)) i = (decide (i ∈ l) || t.bit i) := by
  have hmem := h i
  by_cases hq : i / w = q
  · subst hq
    simp [bit, hmem, Bool.or_comm]
  · simp [bit, hmem, hq]

theorem covers_one (hw : 0 < w) (p : ℕ) : Covers (p / w) (1#w <<< (p % w)) [p] := by
  intro i
  have hp := Nat.mod_lt p hw
  rw [← twoPow_eq, getLsbD_twoPow]
  simp only [mem_singleton, hp, decide_true, Bool.true_and, decide_eq_true_eq]
  refine ⟨fun h => by simp [h], fun h => ?_⟩
  rw [← Nat.div_add_mod i w, ← Nat.div_add_mod p w, h.1, h.2]

theorem bit_set (hw : 0 < w) (t : BitTable w) (i j : ℕ) :
    bit (update t (i / w) (t (i / w) ||| 1#w <<< (i % w))) j =
      (decide (j = i) || t.bit j) := by
  rw [(covers_one hw i).set]
  simp only [mem_singleton]

theorem and_one_ne_zero_iff (hw : 0 < w) (t : BitTable w) (p : ℕ) :
    t (p / w) &&& 1#w <<< (p % w) ≠ 0#w ↔ t.bit p := by
  have hp := Nat.mod_lt p hw
  rw [← twoPow_eq, and_twoPow, bit]
  cases (t (p / w)).getLsbD (p % w) with
  | false => simp
  | true =>
    simp only [if_true, iff_true]
    intro h
    have := congrArg (fun x => x.getLsbD (p % w)) h
    simp [hp] at this

theorem getLsbD_lowMask (hn : n < w) : ((1#w <<< n) - 1#w).getLsbD k = decide (k < n) := by
  have hpow : 2 ^ n < 2 ^ w := Nat.pow_lt_pow_right (by omega) hn
  have hle : 1#w ≤ 1#w <<< n := by
    rw [← twoPow_eq, le_def, toNat_twoPow, Nat.mod_eq_of_lt hpow]
    have := Nat.one_le_two_pow (n := n)
    have : (1#w).toNat ≤ 1 := Nat.mod_le _ _
    omega
  have hnat : ((1#w <<< n) - 1#w).toNat = 2 ^ n - 1 := by
    rw [toNat_sub_of_le hle, ← twoPow_eq, toNat_twoPow,
      Nat.mod_eq_of_lt hpow, toNat_ofNat, Nat.mod_eq_of_lt]
    exact Nat.one_lt_two_pow (by omega)
  rw [BitVec.getLsbD, hnat, Nat.testBit_two_pow_sub_one]

theorem covers_lowMask (hq : q < N) (hn : n < w) (hr : r + n ≤ w) :
    Covers q (((1#w <<< n) - 1#w) <<< r) (cyclicRun (w * N) (w * q + r) n) := by
  have hfit : w * q + r + n ≤ w * N := by
    have := Nat.mul_le_mul_left w (show q + 1 ≤ N from hq)
    rw [Nat.mul_succ] at this
    omega
  intro i
  have hi := Nat.mod_lt i (show 0 < w by omega)
  have hsplit := Nat.div_add_mod i w
  rw [mem_cyclicRun_of_le hfit, getLsbD_shiftLeft, getLsbD_lowMask hn]
  simp only [hi, decide_true, Bool.true_and, Bool.and_eq_true, Bool.not_eq_true',
    decide_eq_false_iff_not, decide_eq_true_eq]
  constructor
  · rintro ⟨hlo, hhi⟩
    have hdiv : i / w = q := by
      refine Nat.div_eq_of_lt_le ?_ ?_
      · rw [Nat.mul_comm]; omega
      · rw [Nat.mul_comm, Nat.mul_succ]; omega
    rw [hdiv] at hsplit
    omega
  · rintro ⟨rfl, hlo, hhi⟩
    omega

theorem covers_allOnes (hw : 0 < w) (hq : q < N) :
    Covers q (BitVec.allOnes w) (cyclicRun (w * N) (w * q) w) := by
  have hfit : w * q + w ≤ w * N := by
    have := Nat.mul_le_mul_left w (show q + 1 ≤ N from hq)
    rwa [Nat.mul_succ] at this
  intro i
  have hi := Nat.mod_lt i hw
  rw [mem_cyclicRun_of_le hfit, Nat.div_eq_iff hw, Nat.mul_comm q w]
  simp only [getLsbD_allOnes, hi, decide_true, and_true]
  omega

/-! ## Counting set bits -/

theorem card_ones_set (hbit : ∀ j, t'.bit j = (decide (j = i) || t.bit j)) (hi : i < M)
    (hclear : t.bit i = false) : (t'.ones M).card = (t.ones M).card + 1 := by
  have hins : t'.ones M = insert i (t.ones M) := by
    ext j
    by_cases hj : j = i
    · simp [hbit, hj, hi]
    · simp [hbit, hj]
  rw [hins, Finset.card_insert_of_notMem (by simp [hclear])]

theorem card_ones_clear (hbit : ∀ j, t'.bit j = (t.bit j && decide (j ∉ l))) (hnd : l.Nodup)
    (hset : ∀ i ∈ l, i < M ∧ t.bit i) :
    (t'.ones M).card + l.length = (t.ones M).card := by
  have hsdiff : t'.ones M = t.ones M \ l.toFinset := by
    ext j
    simp only [mem_ones, hbit, Finset.mem_sdiff, mem_toFinset, Bool.and_eq_true,
      decide_eq_true_eq, and_assoc]
  have hsub : l.toFinset ⊆ t.ones M := fun i hi =>
    mem_ones.mpr (hset i (mem_toFinset.mp hi))
  have hcard := Finset.card_sdiff_add_card_eq_card hsub
  rwa [← hsdiff, toFinset_card_of_nodup hnd] at hcard

end BitTable

end WiseSdk.Library
