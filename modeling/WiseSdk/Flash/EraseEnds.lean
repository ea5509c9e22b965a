import WiseSdk.Flash.EraseMap
import WiseSdk.Flash.SectorMap
import WiseSdk.Library.Runs

/-!
# Does an erase end?

The loop of `spi_flash_erase` advances by the size of the erase type it has chosen, and chooses
from what the tables of the chip say.  Two things can stand in its way.

* A region may allow an erase type that does not exist.  Its size is 0 and its block `[0, 0)`, so
  it fits at offset 0 and nowhere else; where it is chosen, the walk stays at offset 0 for ever
  (`Stuck`, `eraseLoop_stuck`).
* A block may end at the top of the address space, and the walk then goes on at offset 0.

With `EB_SUPERSET` neither can happen, since the block must reach beyond the end of the range.
-/

namespace WiseSdk.Flash

open Library BitVec Option

/-! ## The maps that the parsers build -/

def FlashInfo.eraseMap (f : FlashInfo) : EraseMap := ⟨f.eraseInfo, f.region⟩

/-- A parameter table of a chip and what its parser meets. -/
inductive ParamTable where
  | basic (dword : BasicTable)
  | basic216B (dword : BasicTable)
  | sectorMap (dword : List (BitVec 32)) (answer : ℕ → DetectCmd → BitVec 8) (malloc : Bool)

/-- `sfdp_parse_param`: the parser of a table, as long as it succeeds. -/
def parseParam (f : FlashInfo) : ParamTable → Option FlashInfo
  | .basic dword => sfdpParseBasic dword f
  | .basic216B dword => sfdpParseBasic216B dword f
  | .sectorMap dword answer malloc =>
    match sfdpParseSectorMap dword answer malloc f with
    | some (.done g) => some g
    | _ => none

/-- Every erase type has a power of two as its size, or does not exist. -/
def DyadicTypes (info : Fin 4 → EraseMethod) : Prop :=
  ∀ i, (info i).size = 0 ∨ PowerOfTwo (info i).size.toNat

theorem powerOfTwo_of_oneShl {n size : BitVec 32} (h : oneShl n = some size) :
    PowerOfTwo size.toNat := by
  simp only [oneShl, ite_none_right_eq_some, some.injEq] at h
  obtain ⟨hn, rfl⟩ := h
  refine ⟨n.toNat, ?_⟩
  have hlt : 2 ^ n.toNat < 2 ^ 32 := Nat.pow_lt_pow_right (by decide) hn
  rw [shiftLeft_eq', toNat_shiftLeft, Nat.shiftLeft_eq, toNat_ofNat,
    Nat.one_mod_two_pow (by decide), Nat.one_mul, Nat.mod_eq_of_lt hlt]

variable {f g a : FlashInfo}

theorem dyadicTypes_parseBasic {dword : BasicTable} {dual : BitVec 32} {timeout : Fin 4 → BitVec 32}
    (hf : DyadicTypes f.eraseInfo)
    (h : parseBasic dword dual timeout f = some a) : DyadicTypes a.eraseInfo := by
  intro i
  have htype := (parseBasic_eq_some h).2.1 i
  rw [eraseType] at htype
  split_ifs at htype with hexp
  · rw [← some.inj htype]
    exact hf i
  · obtain ⟨size, hsize, hi⟩ := map_eq_some_iff.mp htype
    rw [← hi]
    exact .inr (powerOfTwo_of_oneShl hsize)

theorem eraseInfo_sectorMap {dword : List (BitVec 32)} {answer : ℕ → DetectCmd → BitVec 8}
    {malloc : Bool}
    (h : sfdpParseSectorMap dword answer malloc f = some (.done g)) :
    g.eraseInfo = f.eraseInfo := by
  simp only [sfdpParseSectorMap, bind_eq_bind, bind_eq_some_iff] at h
  obtain ⟨⟨config, maps⟩, -, out, -, h⟩ := h
  rcases out with _ | ⟨_ | ⟨header, rest⟩⟩
  · cases h
  · cases h
  · cases malloc with
    | false => cases h
    | true =>
      simp only [if_true, bind_eq_some_iff, pure_def, some.injEq,
        SectorMapResult.done.injEq] at h
      obtain ⟨regions, -, rfl⟩ := h
      rfl

theorem dyadicTypes_parseParam {table : ParamTable} (hf : DyadicTypes f.eraseInfo)
    (h : parseParam f table = some g) : DyadicTypes g.eraseInfo := by
  cases table with
  | basic dword => exact dyadicTypes_parseBasic hf h
  | basic216B dword =>
    obtain ⟨c, hc, rfl⟩ := map_eq_some_iff.mp h
    show DyadicTypes c.eraseInfo
    exact dyadicTypes_parseBasic hf hc
  | sectorMap dword answer malloc =>
    rw [parseParam] at h
    split at h
    · rename_i hparse
      rw [← some.inj h, eraseInfo_sectorMap hparse]
      exact hf
    · cases h

/-- **What the tables build.**  Whatever they say, the sizes are powers of two or 0. -/
theorem dyadicTypes_of_tables {tables : List ParamTable}
    (h : runSteps parseParam .blank tables = some f) : DyadicTypes f.eraseInfo := by
  have hall : StepsMeet parseParam (fun _ _ => True) .blank tables :=
    stepsMeet_of_forall (fun _ _ => trivial) _ _
  refine inv_of_run (fun g => DyadicTypes g.eraseInfo) ?_ ?_ hall (List.prefix_refl tables) h
  · intro g table g' hg _ hstep
    exact dyadicTypes_parseParam hg hstep
  · exact fun _ => .inl rfl

namespace EraseMap

variable {mp : EraseMap} {how : EraseHow} {inb : EraseBlock} {r : EraseRegion}
  {op m : EraseMethod}

/-! ## One step -/

theorem blockAt_of_size_zero (inb : EraseBlock) (hm : m.size = 0) : blockAt inb m = ⟨0, 0⟩ := by
  simp [blockAt, hm]

/-- A type that does not exist may be used at offset 0 only. -/
theorem blockOk_of_size_zero_iff (hm : m.size = 0) (hlt : inb.start < inb.stop) :
    blockOk inb how m ↔ how.superset = false ∧ inb.start = 0 := by
  have hstop : ¬inb.stop ≤ 0#32 := by
    rw [le_def, toNat_zero]
    have := lt_def.mp hlt
    omega
  have hstart : inb.start ≤ 0#32 ↔ inb.start = 0#32 := by
    rw [le_def, toNat_zero, Nat.le_zero]
    exact ⟨fun h => eq_of_toNat_eq h, fun h => h ▸ rfl⟩
  rw [blockOk, blockAt_of_size_zero inb hm]
  cases hsup : how.superset with
  | true => simp [eraseBlockSuperset, hstop]
  | false =>
    simp only [eraseBlockSubset, Bool.false_eq_true, if_false, Bool.and_eq_true,
      decide_eq_true_eq, ge_iff_le, true_and]
    constructor
    · rintro ⟨⟨h, -⟩, -⟩
      exact hstart.mp h
    · intro h
      rw [h]
      exact ⟨⟨BitVec.le_refl _, le_def.mpr (Nat.zero_le _)⟩, by simp⟩

theorem blockAt_start_dvd (inb : EraseBlock) (hm : PowerOfTwo m.size.toNat) :
    m.size.toNat ∣ (blockAt inb m).start.toNat ∧ (blockAt inb m).start.toNat ≤ inb.start.toNat ∧
      inb.start.toNat < (blockAt inb m).start.toNat + m.size.toNat := by
  rw [toNat_blockAt_start m hm]
  have hmod := Nat.mod_lt inb.start.toNat hm.pos
  exact ⟨Nat.dvd_sub_mod _, Nat.sub_le _ _, by omega⟩

/-- **Progress.** A step with a type that exists moves up, except to the top of the address
space. -/
theorem lt_add_of_blockOk (inb : EraseBlock) (hm : PowerOfTwo m.size.toNat)
    (hlt : inb.start < inb.stop) (hok : blockOk inb how m)
    (htop : how.superset = true ∨ inb.start.toNat + m.size.toNat ≠ 2 ^ 32) :
    inb.start.toNat < (inb.start + m.size).toNat := by
  obtain ⟨hdvd, hle, hbelow⟩ := blockAt_start_dvd inb hm
  have htwo : m.size.toNat ∣ 2 ^ 32 := hm.dvd_of_le ⟨32, rfl⟩ m.size.isLt.le
  have hend := add_le_of_dvd hdvd htwo (blockAt inb m).start.isLt
  have hstop : (blockAt inb m).stop.toNat =
      ((blockAt inb m).start.toNat + m.size.toNat) % 2 ^ 32 := toNat_add _ _
  have hrange := lt_def.mp hlt
  simp only [blockOk, Bool.and_eq_true] at hok
  have hsum : inb.start.toNat + m.size.toNat < 2 ^ 32 := by
    cases hsup : how.superset with
    | true =>
      rw [hsup, if_pos rfl, eraseBlockSuperset, Bool.and_eq_true, decide_eq_true_eq,
        decide_eq_true_eq] at hok
      have hreach : inb.stop.toNat ≤ (blockAt inb m).stop.toNat := hok.1.2
      -- The block ends inside the address space, so there is room for one more behind it.
      have hinside : (blockAt inb m).start.toNat + m.size.toNat < 2 ^ 32 := by
        rcases Nat.lt_or_eq_of_le hend with h | h
        · exact h
        · omega
      have hroom := add_le_of_dvd (Nat.dvd_add hdvd (dvd_refl _)) htwo hinside
      omega
    | false =>
      rw [hsup, if_neg (by decide), eraseBlockSubset, Bool.and_eq_true, decide_eq_true_eq] at hok
      have haligned : inb.start.toNat ≤ (blockAt inb m).start.toNat := hok.1.1
      have hne := htop.resolve_left (by rw [hsup]; decide)
      omega
  rw [toNat_add, Nat.mod_eq_of_lt hsum]
  omega

theorem blockOk_at_zero (stop : BitVec 32) (hm : PowerOfTwo m.size.toNat)
    (hsup : how.superset = false) : blockOk ⟨0, stop⟩ how m ↔ m.size ≤ stop := by
  have hstart : (blockAt ⟨0, stop⟩ m).start = 0#32 := by
    apply eq_of_toNat_eq
    rw [toNat_blockAt_start m hm]
    rfl
  have hstop : (blockAt ⟨0, stop⟩ m).stop = m.size := by
    show (blockAt ⟨0, stop⟩ m).start + m.size = m.size
    rw [hstart, BitVec.zero_add]
  rw [blockOk]
  generalize blockAt ⟨0, stop⟩ m = b at hstart hstop ⊢
  simp [hsup, eraseBlockSubset, hstart, hstop]

/-! ## The walk -/

variable {σ : Type} {stop start size t : BitVec 32} {seq : EraseCmd → σ → Option ℤ × σ}

theorem eraseLoop_stuck (hlt : start < stop)
    (hlookup : mp.lookupEraseInfo ⟨start, stop⟩ how = some (r, op)) (hop : op.size = 0) (fuel : ℕ)
    (st : σ) : mp.eraseLoop how seq true fuel ⟨start, stop⟩ st = (none, st) := by
  induction fuel with
  | zero => rfl
  | succ fuel ih =>
    rw [eraseLoop, if_pos hlt, hlookup]
    simp only [if_true, hop]
    rw [show start + (0 : BitVec 32) = start from BitVec.add_zero start]
    exact ih

/-- The loop makes progress at each step, and the call ends whatever the commands return. -/
structure Ends (mp : EraseMap) (start size : BitVec 32) (how : EraseHow) : Prop where
  progress : Progresses mp how (start + size) start
  ends : ∀ (σ : Type) (seq : EraseCmd → σ → Option ℤ × σ), (∀ c st, ((seq c st).1).isSome) →
    ∀ st, ∃ fuel, ((mp.erase start size how seq fuel st).1).isSome

theorem ends_of_progresses (h : Progresses mp how (start + size) start) :
    Ends mp start size how :=
  ⟨h, fun _ _ hseq st => ⟨_, erase_isSome h hseq (Nat.lt_succ_self _) st⟩⟩

/-! ## The condition -/

/-- At offset 0 a type that does not exist is chosen: the region allows one, and it is the smallest,
or no other fits. -/
def Stuck (mp : EraseMap) (how : EraseHow) (stop start : BitVec 32) : Prop :=
  start = 0 ∧ 0 < stop ∧ how.superset = false ∧ ∃ r, mp.lookupRegion 0 = some r ∧
    (∃ i : Fin 4, r.method.getLsbD i ∧ (mp.eraseInfo i).size = 0) ∧
    (how.minBlock = true ∨ ∀ j : Fin 4, r.method.getLsbD j → (mp.eraseInfo j).size ≠ 0 →
      stop < (mp.eraseInfo j).size)

def NoTop (mp : EraseMap) (how : EraseHow) (stop start : BitVec 32) : Prop :=
  how.superset = true ∨ ∀ t r op, Reaches mp how stop start t → t < stop →
    mp.lookupEraseInfo ⟨t, stop⟩ how = some (r, op) → t.toNat + op.size.toNat ≠ 2 ^ 32

/-- No block fits between the end of the range and the top. -/
theorem noTop_of_room (hroom : ∀ i, stop.toNat + (mp.eraseInfo i).size.toNat ≤ 2 ^ 32) :
    NoTop mp how stop start := by
  refine .inr fun t r op _ hlt hlookup => ?_
  obtain ⟨-, ⟨i, -, -, rfl⟩, -⟩ := lookupEraseInfo_spec hlookup
  have := hroom i
  have := lt_def.mp hlt
  omega

theorem Stuck.lookup (hdyadic : DyadicTypes mp.eraseInfo) (h : Stuck mp how stop start) :
    start < stop ∧ ∃ r op, mp.lookupEraseInfo ⟨start, stop⟩ how = some (r, op) ∧ op.size = 0 := by
  obtain ⟨rfl, hlt, hsup, r, hr, ⟨i, hbit, hi⟩, hother⟩ := h
  have hok : blockOk ⟨0, stop⟩ how (mp.eraseInfo i) :=
    (blockOk_of_size_zero_iff hi hlt).mpr ⟨hsup, rfl⟩
  obtain ⟨op, hop⟩ := exists_lookupEraseInfo hr hbit hok
  refine ⟨hlt, r, op, hop, ?_⟩
  obtain ⟨-, ⟨j, hbitj, hokj, rfl⟩, hkept⟩ := lookupEraseInfo_spec hop
  rcases hother with hmin | hlarge
  · have hle := hkept i hbit hok
    rw [Kept, if_pos hmin, hi] at hle
    exact eq_of_toNat_eq (Nat.le_zero.mp hle)
  · by_contra hne
    have hpow := (hdyadic j).resolve_left hne
    have hfits := (blockOk_at_zero stop hpow hsup).mp hokj
    exact absurd (hlarge j hbitj hne) (BitVec.not_lt.mpr hfits)

theorem stuck_of_size_zero (hdyadic : DyadicTypes mp.eraseInfo) (hlt : start < stop)
    (hlookup : mp.lookupEraseInfo ⟨start, stop⟩ how = some (r, op)) (hop : op.size = 0) :
    Stuck mp how stop start := by
  obtain ⟨hr, ⟨i, hbit, hok, rfl⟩, hkept⟩ := lookupEraseInfo_spec hlookup
  obtain ⟨hsup, hzero⟩ := (blockOk_of_size_zero_iff hop hlt).mp hok
  obtain rfl : start = 0 := hzero
  refine ⟨rfl, hlt, hsup, r, hr, ⟨i, hbit, hop⟩, ?_⟩
  by_cases hmin : how.minBlock = true
  · exact .inl hmin
  refine .inr fun j hbitj hne => ?_
  by_contra hfits
  have hokj := (blockOk_at_zero stop ((hdyadic j).resolve_left hne) hsup).mpr
    (BitVec.not_lt.mp hfits)
  have hle := hkept j hbitj hokj
  rw [Kept, if_neg hmin, hop] at hle
  exact hne (eq_of_toNat_eq (Nat.le_zero.mp hle))

theorem progresses_iff (hdyadic : DyadicTypes mp.eraseInfo) :
    Progresses mp how stop start ↔ ¬Stuck mp how stop start ∧ NoTop mp how stop start := by
  constructor
  · intro h
    refine ⟨fun hstuck => ?_, .inr fun t r op ht hlt hlookup htop => ?_⟩
    · obtain ⟨hlt, r, op, hlookup, hop⟩ := hstuck.lookup hdyadic
      have hup := h start r op .start hlt hlookup
      rw [hop, show start + (0 : BitVec 32) = start from BitVec.add_zero start] at hup
      exact absurd hup (Nat.lt_irrefl _)
    · have hup := h t r op ht hlt hlookup
      rw [add_eq_zero_of_toNat htop] at hup
      exact absurd hup (Nat.not_lt_zero _)
  · rintro ⟨hstuck, htop⟩
    -- A start that is not below the first one moves up; so the walk never comes back to 0.
    have hstep : ∀ t r op, Reaches mp how stop start t → start.toNat ≤ t.toNat → t < stop →
        mp.lookupEraseInfo ⟨t, stop⟩ how = some (r, op) → t.toNat < (t + op.size).toNat := by
      intro t r op ht hle hlt hlookup
      obtain ⟨-, ⟨i, -, hok, rfl⟩, -⟩ := lookupEraseInfo_spec hlookup
      rcases hdyadic i with hzero | hpow
      · obtain ⟨-, h0⟩ := (blockOk_of_size_zero_iff hzero hlt).mp hok
        obtain rfl : t = 0 := h0
        obtain rfl : start = 0 := eq_of_toNat_eq (Nat.le_zero.mp hle)
        exact absurd (stuck_of_size_zero hdyadic hlt hlookup hzero) hstuck
      · refine lt_add_of_blockOk ⟨t, stop⟩ hpow hlt hok (htop.imp_right fun h => ?_)
        exact h t r _ ht hlt hlookup
    have hle : ∀ t, Reaches mp how stop start t → start.toNat ≤ t.toNat := by
      intro t ht
      induction ht with
      | start => exact Nat.le_refl _
      | step ht hlt hlookup ih => exact ih.trans (hstep _ _ _ ht ih hlt hlookup).le
    exact fun t r op ht => hstep t r op ht (hle t ht)

end EraseMap

open EraseMap

/-- **Does an erase end?** On every map that a chip's tables can build, the loop makes progress at
each step and ends exactly when it is not stuck with a missing type at offset 0 and no block ends at
the top of the address space. -/
theorem erase_ends_iff {tables : List ParamTable} {f : FlashInfo}
    (hf : runSteps parseParam .blank tables = some f) (start size : BitVec 32) (how : EraseHow) :
    Ends f.eraseMap start size how ↔
      ¬Stuck f.eraseMap how (start + size) start ∧ NoTop f.eraseMap how (start + size) start := by
  have hdyadic : DyadicTypes f.eraseMap.eraseInfo := dyadicTypes_of_tables hf
  rw [← progresses_iff hdyadic]
  exact ⟨fun h => h.progress, ends_of_progresses⟩

/-- A chip of 1 MiB whose only erase type is type 1, with 4K. -/
def smallChip : BasicTable
  | 2 => 0x007fffff
  | 8 => 0x0000200c
  | _ => 0

/-- The tables of that chip: one region, with the erase types of a mask. -/
def smallTables (mask : BitVec 32) : List ParamTable :=
  [.basic smallChip, .sectorMap [0x00000003, 0x000fff00 ||| mask] (fun _ _ => 0) true]

/-- A region that allows the type that exists. -/
theorem erase_ends_small :
    ∃ f, runSteps parseParam .blank (smallTables 1) = some f ∧ Ends f.eraseMap 0 0x1000 .zero := by
  have hmap : (runSteps parseParam .blank (smallTables 1)).map (fun f => decide
      ((∀ r ∈ f.eraseMap.lookupRegion 0, ∀ i : Fin 4, r.method.getLsbD i →
        (f.eraseMap.eraseInfo i).size ≠ 0) ∧
      ∀ i, 0x1000 + (f.eraseMap.eraseInfo i).size.toNat ≤ 2 ^ 32)) = some true := by decide +kernel
  obtain ⟨f, hf, hmap⟩ := map_eq_some_iff.mp hmap
  obtain ⟨hexists, hroom⟩ := of_decide_eq_true hmap
  refine ⟨f, hf, (erase_ends_iff hf 0 0x1000 .zero).mpr ⟨?_, noTop_of_room hroom⟩⟩
  rintro ⟨-, -, -, r, hr, ⟨i, hbit, hzero⟩, -⟩
  exact hexists r hr i hbit hzero

/-- A region that allows type 2, which the basic table leaves out: the dry run at offset 0 goes on
for ever. -/
theorem erase_never_ends :
    ∃ f, runSteps parseParam .blank (smallTables 2) = some f ∧
      (∀ fuel, (f.eraseMap.erase 0 0x1000 .zero (fun _ st => (some 0, st)) fuel ()).1 = none) ∧
      ¬Ends f.eraseMap 0 0x1000 .zero := by
  have hmap : (runSteps parseParam .blank (smallTables 2)).map (fun f =>
      (f.eraseMap.lookupEraseInfo ⟨0, 0 + 0x1000⟩ .zero).map fun p => p.2.size) =
      some (some 0) := by decide
  obtain ⟨f, hf, hlookup⟩ := map_eq_some_iff.mp hmap
  obtain ⟨⟨r, op⟩, hlookup, hop⟩ := map_eq_some_iff.mp hlookup
  have hloop : ∀ fuel, (f.eraseMap.erase 0 0x1000 .zero (fun _ st => (some 0, st)) fuel ()).1 =
      none := by
    intro fuel
    rw [EraseMap.erase, eraseLoop_stuck (by decide) hlookup hop]
  refine ⟨f, hf, hloop, fun h => ?_⟩
  obtain ⟨fuel, hfuel⟩ := h.ends Unit (fun _ st => (some 0, st)) (fun _ _ => rfl) ()
  rw [hloop fuel] at hfuel
  cases hfuel

end WiseSdk.Flash
