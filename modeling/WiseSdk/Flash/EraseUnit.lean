import Mathlib.Order.Bounds.Basic
import WiseSdk.Flash.EraseMap

/-!
# The erase unit of a partition

`flash_partition_erase_size` (`hal/drivers/spi-flash/spi-flash.c`) should give a multiple of the
smallest erase size in every region of a partition; file systems take it as their block.

The walk looks up the region at the current offset and advances by its size, so from an offset
inside a region it comes out inside the next one, or beyond it: the distance that the partition
starts into its region makes it pass over small regions and over the last one (`counted`). What is
smallest in a region is capped at 64 KiB, and of two sizes the larger one is taken.
-/

namespace WiseSdk.Flash

open Library

/-! ## The function -/

/-- The value of `min_erase_size` after the loop over the erase types. -/
def minEraseSize (mp : EraseMap) (r : EraseRegion) : ℕ :=
  (List.finRange 4).foldl
    (fun acc (i : Fin 4) => if r.method.getLsbD i then min (mp.eraseInfo i).size.toNat acc else acc)
    (64 * 1024)

/-- What the function returns: `-EINVAL`, or a size. -/
inductive UnitResult where
  | einval
  | size (n : ℕ)
  deriving DecidableEq, Repr

/-- The loop over the regions.  Offsets are signed, as `off_t` is. -/
def unitLoop (mp : EraseMap) (stop : BitVec 32) : ℕ → BitVec 32 → ℕ → Option UnitResult
  | 0, _, _ => none
  | fuel + 1, start, size =>
    if start.slt stop then
      match mp.lookupRegion start with
      | none => some .einval
      | some r => unitLoop mp stop fuel (start + r.size) (max size (minEraseSize mp r))
    else some (.size size)

/-- `flash_partition_erase_size`, of a partition at an address and a flash mapped at `memBase`. -/
def flashPartitionEraseSize (mp : EraseMap) (memBase start size : BitVec 32) (fuel : ℕ) :
    Option UnitResult :=
  unitLoop mp (start - memBase + size) fuel (start - memBase) (4 * 1024)

/-! ## The regions that count -/

/-- The regions follow one another from an address on. -/
def LaidOut : ℕ → List EraseRegion → Prop
  | _, [] => True
  | addr, r :: rs => r.start.toNat = addr ∧ LaidOut (addr + r.size.toNat) rs

def totalSize (rs : List EraseRegion) : ℕ := (rs.map (·.size.toNat)).sum

/-- A map of a device of up to 1 GiB, whose regions follow one another. -/
structure RegionMap extends EraseMap where
  laidOut : LaidOut 0 region
  fits : totalSize region ≤ 2 ^ 30

/-- The regions that count for a partition that ends at `stop`. The bytes in front of it are taken
off the regions in turn. A region no larger than what is left of them is passed over. Any other
counts, and leaves them as they are, unless the partition ends within as many bytes of its start. -/
def counted (stop : ℕ) : ℕ → List EraseRegion → List EraseRegion
  | _, [] => []
  | left, r :: rs =>
    if r.size.toNat ≤ left then counted stop (left - r.size.toNat) rs
    else if r.start.toNat + left < stop then r :: counted stop left rs
    else []

def largestUnit (mp : EraseMap) (size : ℕ) (rs : List EraseRegion) : ℕ :=
  rs.foldl (fun n r => max n (minEraseSize mp r)) size

variable {mp : EraseMap} {stop x : BitVec 32} {r : EraseRegion} {pre rs : List EraseRegion}

theorem isGreatest_largestUnit (mp : EraseMap) (size : ℕ) (rs : List EraseRegion) :
    IsGreatest {n | n = size ∨ ∃ r ∈ rs, n = minEraseSize mp r} (largestUnit mp size rs) := by
  induction rs generalizing size with
  | nil => exact ⟨.inl rfl, by rintro _ (rfl | ⟨r, hr, -⟩); exacts [le_rfl, nomatch hr]⟩
  | cons r rs ih =>
    obtain ⟨hmem, hle⟩ := ih (max size (minEraseSize mp r))
    refine ⟨?_, ?_⟩
    · rcases hmem with hmax | ⟨q, hq, hsize⟩
      · rcases max_choice size (minEraseSize mp r) with h | h
        · exact .inl (hmax.trans h)
        · exact .inr ⟨r, List.mem_cons_self, hmax.trans h⟩
      · exact .inr ⟨q, List.mem_cons_of_mem r hq, hsize⟩
    · have hmax := hle (.inl rfl)
      rintro n (rfl | ⟨q, hq, rfl⟩)
      · exact (le_max_left _ _).trans hmax
      · rcases List.mem_cons.mp hq with rfl | hq
        · exact (le_max_right _ _).trans hmax
        · exact hle (.inr ⟨q, hq, rfl⟩)

theorem lookupRegion_eq (hregion : mp.region = pre ++ r :: rs)
    (hpre : ∀ q ∈ pre, q.start.toNat + q.size.toNat ≤ r.start.toNat)
    (hfits : r.start.toNat + r.size.toNat < 2 ^ 32) (hlo : r.start.toNat ≤ x.toNat)
    (hhi : x.toNat < r.start.toNat + r.size.toNat) : mp.lookupRegion x = some r := by
  have hcontains : ∀ q : EraseRegion, q.start.toNat + q.size.toNat < 2 ^ 32 →
      (decide (q.start ≤ x) && decide (x < q.start + q.size)) =
        decide (q.start.toNat ≤ x.toNat ∧ x.toNat < q.start.toNat + q.size.toNat) := by
    intro q hq
    simp only [Bool.decide_and, BitVec.le_def, BitVec.lt_def, BitVec.toNat_add,
      Nat.mod_eq_of_lt hq]
  rw [EraseMap.lookupRegion, hregion, List.find?_append, List.find?_eq_none.mpr, Option.none_or,
    List.find?_cons_of_pos]
  · rw [hcontains r hfits]
    exact decide_eq_true ⟨hlo, hhi⟩
  · intro q hq
    have hend := hpre q hq
    rw [hcontains q (by omega), decide_eq_true_eq]
    omega

theorem slt_iff (hx : x.toNat < 2 ^ 31) (hstop : stop.toNat < 2 ^ 31) :
    x.slt stop = true ↔ x.toNat < stop.toNat := by
  rw [BitVec.slt_iff_toInt_lt, BitVec.toInt_eq_toNat_of_lt (by omega),
    BitVec.toInt_eq_toNat_of_lt (by omega), Int.ofNat_lt]

/-- **The walk** from `left` bytes into the rest of the regions sees those that count. -/
theorem unitLoop_eq {addr left fuel size : ℕ} (hregion : mp.region = pre ++ rs)
    (hpre : ∀ q ∈ pre, q.start.toNat + q.size.toNat ≤ addr) (hlaid : LaidOut addr rs)
    (hstop : stop.toNat ≤ addr + totalSize rs) (hfits : addr + totalSize rs ≤ 2 ^ 30)
    (hx : x.toNat = addr + left) (hlt : x.toNat < 2 ^ 31) (hfuel : rs.length < fuel) :
    unitLoop mp stop fuel x size =
      some (.size (largestUnit mp size (counted stop.toNat left rs))) := by
  induction rs generalizing pre addr left x fuel size with
  | nil =>
    obtain ⟨fuel, rfl⟩ := Nat.exists_eq_succ_of_ne_zero (Nat.ne_of_gt hfuel)
    rw [totalSize, List.map_nil, List.sum_nil] at hstop
    rw [unitLoop, if_neg]
    · rfl
    · rw [slt_iff hlt (by omega)]
      omega
  | cons r rs ih =>
    obtain ⟨hstart, hlaid⟩ := hlaid
    rw [List.length_cons] at hfuel
    have hsum : totalSize (r :: rs) = r.size.toNat + totalSize rs := by
      rw [totalSize, List.map_cons, List.sum_cons, totalSize]
    rw [hsum] at hstop hfits
    have hnext : mp.region = (pre ++ [r]) ++ rs := by rw [hregion, List.append_assoc]; rfl
    have hpre' : ∀ q ∈ pre ++ [r], q.start.toNat + q.size.toNat ≤ addr + r.size.toNat := by
      intro q hq
      rcases List.mem_append.mp hq with hq | hq
      · have := hpre q hq
        omega
      · rw [List.mem_singleton.mp hq, hstart]
    rw [counted]
    split_ifs with hpass hmore
    · exact ih hnext hpre' hlaid (by omega) (by omega) (by omega) hlt (by omega)
    · obtain ⟨fuel, rfl⟩ := Nat.exists_eq_succ_of_ne_zero (n := fuel) (by omega)
      have hadd : (x + r.size).toNat = addr + left + r.size.toNat := by
        rw [BitVec.toNat_add, hx, Nat.mod_eq_of_lt (by omega)]
      rw [unitLoop, if_pos ((slt_iff hlt (by omega)).mpr (by omega)),
        lookupRegion_eq hregion (by rwa [hstart]) (by omega) (by omega) (by omega)]
      exact ih hnext hpre' hlaid (by omega) (by omega) (by omega) (by omega) (by omega)
    · obtain ⟨fuel, rfl⟩ := Nat.exists_eq_succ_of_ne_zero (n := fuel) (by omega)
      rw [unitLoop, if_neg]
      · rfl
      · rw [slt_iff hlt (by omega)]
        omega

/-! ## The unit -/

def Meets (offset len : BitVec 32) (r : EraseRegion) : Prop :=
  ∃ x, offset.toNat ≤ x ∧ x < offset.toNat + len.toNat ∧
    r.start.toNat ≤ x ∧ x < r.start.toNat + r.size.toNat

def Smallest (mp : EraseMap) (r : EraseRegion) (m : ℕ) : Prop :=
  (∃ i : Fin 4, r.method.getLsbD i ∧ m = (mp.eraseInfo i).size.toNat) ∧
    ∀ j : Fin 4, r.method.getLsbD j → m ≤ (mp.eraseInfo j).size.toNat

/-- A size that the smallest erase size of every region of a partition divides. -/
def Serves (mp : EraseMap) (offset len : BitVec 32) (n : ℕ) : Prop :=
  ∀ r ∈ mp.region, Meets offset len r → ∀ m, Smallest mp r m → m ∣ n

/-- **The erase unit.** For a partition inside the device, the function returns a multiple of the
smallest erase size of every region that the partition intersects exactly when all those sizes
divide the largest of 4 KiB and the capped smallest sizes of the regions that count. -/
theorem erase_unit_iff (mp : RegionMap) (memBase start size : BitVec 32)
    (hin : (start - memBase).toNat + size.toNat ≤ totalSize mp.region) :
    (∀ fuel, mp.region.length < fuel →
        ∃ n, flashPartitionEraseSize mp.toEraseMap memBase start size fuel = some (.size n) ∧
          Serves mp.toEraseMap (start - memBase) size n) ↔
      ∃ unit, IsGreatest {n | n = 4 * 1024 ∨
          ∃ r ∈ counted ((start - memBase).toNat + size.toNat) (start - memBase).toNat mp.region,
            n = minEraseSize mp.toEraseMap r} unit ∧
        Serves mp.toEraseMap (start - memBase) size unit := by
  have hfits := mp.fits
  have hstop : (start - memBase + size).toNat = (start - memBase).toNat + size.toNat := by
    rw [BitVec.toNat_add, Nat.mod_eq_of_lt (by omega)]
  have hwalk : ∀ fuel, mp.region.length < fuel →
      flashPartitionEraseSize mp.toEraseMap memBase start size fuel =
        some (.size (largestUnit mp.toEraseMap (4 * 1024)
          (counted ((start - memBase).toNat + size.toNat) (start - memBase).toNat mp.region))) := by
    intro fuel hfuel
    rw [flashPartitionEraseSize, ← hstop]
    have hregion : mp.region = [] ++ mp.region := rfl
    exact unitLoop_eq hregion nofun mp.laidOut (by omega) (by omega) (by omega) (by omega) hfuel
  have hgreatest := isGreatest_largestUnit mp.toEraseMap (4 * 1024)
    (counted ((start - memBase).toNat + size.toNat) (start - memBase).toNat mp.region)
  constructor
  · intro h
    obtain ⟨n, hn, hserves⟩ := h (mp.region.length + 1) (Nat.lt_succ_self _)
    rw [hwalk _ (Nat.lt_succ_self _)] at hn
    cases hn
    exact ⟨_, hgreatest, hserves⟩
  · rintro ⟨unit, hunit, hserves⟩ fuel hfuel
    exact ⟨_, hwalk fuel hfuel, hgreatest.unique hunit ▸ hserves⟩

/-- Two regions of 64 KiB, the first with 4K sectors, the second with 64K blocks only. -/
def bootMap : RegionMap where
  eraseInfo i := match i with
    | 0 => ⟨0x1000, 0x20, 0⟩
    | 1 => ⟨0x10000, 0xd8, 0⟩
    | _ => ⟨0, 0, 0⟩
  region := [⟨0, 0x10000, 1⟩, ⟨0x10000, 0x10000, 2⟩]
  laidOut := ⟨rfl, rfl, trivial⟩
  fits := by decide

/-- A partition over both regions: both count, and the unit is 64 KiB. -/
theorem erase_unit_both_regions :
    ∃ n, flashPartitionEraseSize bootMap.toEraseMap 0x80000000 0x80000000 0x20000 3 =
      some (.size n) ∧ Serves bootMap.toEraseMap (0x80000000 - 0x80000000) 0x20000 n := by
  have hcounted : ∀ r ∈ counted (0 + 0x20000) 0 bootMap.region,
      minEraseSize bootMap.toEraseMap r ≤ 0x10000 := by decide
  have hsizes : ∀ r ∈ bootMap.region, ∀ i : Fin 4, r.method.getLsbD i →
      (bootMap.eraseInfo i).size.toNat ∣ 0x10000 := by decide
  refine (erase_unit_iff bootMap 0x80000000 0x80000000 0x20000 (by decide)).mpr
    ⟨0x10000, ⟨.inr ⟨⟨0x10000, 0x10000, 2⟩, by decide, by decide⟩, ?_⟩, ?_⟩ 3 (by decide)
  · rintro n (rfl | ⟨r, hr, rfl⟩)
    · decide
    · exact hcounted r hr
  · rintro r hr - m ⟨⟨i, hi, rfl⟩, -⟩
    exact hsizes r hr i hi

/-- A partition of 8 KiB across two regions: the walk steps over the second, and 4 KiB is no
multiple of its blocks. -/
theorem erase_unit_too_small :
    flashPartitionEraseSize bootMap.toEraseMap 0x80000000 0x8000f000 0x2000 2 =
        some (.size 0x1000) ∧
      ¬Serves bootMap.toEraseMap (0x8000f000 - 0x80000000) 0x2000 0x1000 := by
  refine ⟨by decide, fun hserves => ?_⟩
  have hmeets : Meets (0x8000f000 - 0x80000000) 0x2000 ⟨0x10000, 0x10000, 2⟩ :=
    ⟨0x10000, by decide, by decide, by decide, by decide⟩
  have hsmallest : Smallest bootMap.toEraseMap ⟨0x10000, 0x10000, 2⟩ 0x10000 :=
    ⟨⟨1, by decide, rfl⟩, by decide⟩
  exact absurd (hserves _ (by decide) hmeets _ hsmallest) (by decide)

end WiseSdk.Flash
