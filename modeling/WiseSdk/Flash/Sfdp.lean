import WiseSdk.Flash.Device

/-!
# The basic flash parameter tables

`sfdp_parse_basic` and `sfdp_parse_basic_216B` (`hal/drivers/spi-flash/spi-flash.c`) decode the
basic parameter table of a serial flash: density, fast read modes and erase types.  They are two
copies of one decoder; the newer one also reads the erase timeouts and the page size, and takes
the dual modes from word 3, which holds the quad modes, where the older one reads word 4.

A shift `1 << n` by 32 or more is undefined, and so is a parse that makes one.  The density of a
table with bit 31 of word 2 set is always such a shift, since the mask `0x7ffffffff` keeps that
bit.
-/

namespace WiseSdk.Flash

open List BitVec Option

/-! ## Bit fields -/

def bfieldW (v : BitVec 32) (pos width : ℕ) : BitVec 32 := (v >>> pos) &&& (1#32 <<< width - 1#32)

def bfieldR (v : BitVec 32) (stop start : ℕ) : BitVec 32 := bfieldW v start (stop - start + 1)

theorem toNat_bfieldW (v : BitVec 32) (pos width : ℕ) (hwidth : width < 32) :
    (bfieldW v pos width).toNat = v.toNat / 2 ^ pos % 2 ^ width := by
  have hlt : 2 ^ width < 2 ^ 32 := Nat.pow_lt_pow_right (by decide) hwidth
  have hpos : 0 < 2 ^ width := Nat.two_pow_pos width
  have hshift : (1#32 <<< width).toNat = 2 ^ width := by
    rw [toNat_shiftLeft, Nat.shiftLeft_eq, toNat_ofNat,
      Nat.one_mod_two_pow (by decide), Nat.one_mul, Nat.mod_eq_of_lt hlt]
  have hmask : (1#32 <<< width - 1#32).toNat = 2 ^ width - 1 := by
    rw [toNat_sub_of_le (by rw [le_def, hshift]; exact hpos), hshift]
    rfl
  rw [bfieldW, toNat_and, hmask, Nat.and_two_pow_sub_one_eq_mod, toNat_ushiftRight,
    Nat.shiftRight_eq_div_pow]

/-- `1 << n` of an `int`. -/
def oneShl (n : BitVec 32) : Option (BitVec 32) := if n < 32 then some (1#32 <<< n) else none

/-! ## What the parsers fill in -/

structure FastReadCmd where
  opcode : BitVec 8
  address : BitVec 8
  data : BitVec 8
  mode : BitVec 8
  dummy : BitVec 8
  deriving DecidableEq, Repr

/-- The part of `struct spi_flash` that the parsers fill in, with any erase types and regions. -/
structure FlashInfo where
  size : BitVec 32
  fastRead : Fin 4 → FastReadCmd
  eraseInfo : Fin 4 → EraseMethod
  region : List EraseRegion
  erase4KBOp : BitVec 32
  pageSize : BitVec 32
  ppTimeout : BitVec 32

/-- `spi_flash_alloc_device`: all zero. -/
def FlashInfo.blank : FlashInfo :=
  { size := 0, fastRead := fun _ => ⟨0, 0, 0, 0, 0⟩, eraseInfo := fun _ => ⟨0, 0, 0⟩, region := [],
    erase4KBOp := 0, pageSize := 0, ppTimeout := 0 }

/-- The words of a basic table, numbered from 1 as in the standard. -/
abbrev BasicTable := ℕ → BitVec 32

/-! ## The decoder -/

variable (dword : BasicTable) {i : ℕ}

def density : Option (BitVec 32) :=
  if bfieldR (dword 2) 31 31 = 0 then some ((dword 2 + 1) / 8)
  else (oneShl (dword 2)).map (· / 8)

/-- One half of a word of fast read modes, if it names an opcode. -/
def fastReadHalf (word : BitVec 32) (i : ℕ) (address data : BitVec 8) : Option FastReadCmd :=
  let v := bfieldW word (16 * i) 16
  if bfieldR v 15 8 ≠ 0 then
    some
      { opcode := (bfieldR v 15 8).setWidth 8
        address := address
        data := data
        mode := (bfieldR v 7 5).setWidth 8
        dummy := (bfieldR v 4 0).setWidth 8 }
  else none

/-- The loop over the modes (1-4-4) and (1-1-4). -/
def quadModes (word : BitVec 32) : List FastReadCmd :=
  let supp144 := bfieldR (dword 1) 21 21 = 1
  let supp114 := bfieldR (dword 1) 22 22 = 1
  [0, 1].filterMap fun i =>
    if (i = 0 ∧ ¬supp144) ∨ (i = 1 ∧ ¬supp114) then none
    else fastReadHalf word i (if i = 0 then 4 else 1) 4

/-- Whether the table supports the mode (1-1-2), of half 0, or (1-2-2), of half 1. -/
def suppDual (i : ℕ) : Prop :=
  if i = 0 then bfieldR (dword 1) 16 16 = 1 else bfieldR (dword 1) 20 20 = 1
deriving Decidable

def dualMode (word : BitVec 32) (i : ℕ) : Option FastReadCmd :=
  if ¬suppDual dword i then none else fastReadHalf word i (if i = 0 then 1 else 2) 2

/-- The loop over the modes (1-2-2) and (1-1-2). -/
def dualModes (word : BitVec 32) : List FastReadCmd :=
  [1, 0].filterMap (dualMode dword word)

def storeModes (old : Fin 4 → FastReadCmd) (modes : List FastReadCmd) : Fin 4 → FastReadCmd :=
  fun j => modes.getD j (old j)

/-- The half word of an erase type: words 8 and 9. -/
def eraseHalf (i : Fin 4) : BitVec 32 :=
  bfieldW (dword (if 1 < i.val then 9 else 8)) (if i.val % 2 = 1 then 16 else 0) 16

/-- One round of the loop over the erase types; a type with exponent 0 does not exist. -/
def eraseType (timeout : Fin 4 → BitVec 32) (old : Fin 4 → EraseMethod) (i : Fin 4)
    : Option EraseMethod :=
  let v := eraseHalf dword i
  if bfieldR v 7 0 = 0 then some (old i)
  else (oneShl (bfieldR v 7 0)).map fun size => ⟨size, (bfieldR v 15 8).setWidth 8, timeout i⟩

def eraseTypes (timeout : Fin 4 → BitVec 32) (old : Fin 4 → EraseMethod) :
    Option (Fin 4 → EraseMethod) :=
  if h : ∀ i, (eraseType dword timeout old i).isSome then
    some fun i => (eraseType dword timeout old i).get (h i)
  else none

/-- What the two parsers share, given the word of the dual modes and the timeouts of the erase
types. -/
def parseBasic (dual : BitVec 32) (timeout : Fin 4 → BitVec 32) (f : FlashInfo)
    : Option FlashInfo := do
  let size ← density dword
  let types ← eraseTypes dword timeout f.eraseInfo
  return { f with
    size := size
    fastRead := storeModes f.fastRead (quadModes dword (dword 3) ++ dualModes dword dual)
    eraseInfo := types
    erase4KBOp := bfieldR (dword 1) 15 8 }

def sfdpParseBasic (f : FlashInfo) : Option FlashInfo :=
  parseBasic dword (dword 4) (fun _ => 1000 * 1000) f

/-- The table `unit`. -/
def timeoutUnit (i : BitVec 32) : BitVec 32 :=
  if i = 0 then 1 else if i = 1 then 16 else if i = 2 then 256 else 1000

/-- The timeout of an erase type in microseconds: word 10. -/
def eraseTimeout216B (i : Fin 4) : BitVec 32 :=
  let v := bfieldW (dword 10) (4 + i.val * 7) 7
  (bfieldW v 0 5 + 1) * timeoutUnit (bfieldW v 5 2) * ((1 + bfieldW (dword 10) 0 4) * 2) * 1000

/-- The page size and the timeout of a page program: word 11. -/
def pageProgram216B (f : FlashInfo) : FlashInfo :=
  let v := dword 11
  { f with
    pageSize := 1#32 <<< bfieldR v 7 4
    ppTimeout := (bfieldR v 12 8 + 1) * (if bfieldR v 13 13 = 0 then 8 else 64) *
      (2 * (bfieldR v 3 0 + 1)) }

/-- `sfdp_parse_basic_216B`: the dual modes are read from word 3. -/
def sfdpParseBasic216B (f : FlashInfo) : Option FlashInfo :=
  (parseBasic dword (dword 3) (eraseTimeout216B dword) f).map (pageProgram216B dword)

/-! ## When a parse is defined -/

/-- No shift of the decoder is too long. -/
structure ShiftsDefined (dword : BasicTable) : Prop where
  density : bfieldR (dword 2) 31 31 = 0
  exponent : ∀ i, bfieldR (eraseHalf dword i) 7 0 < 32

theorem oneShl_isSome_iff (n : BitVec 32) : (oneShl n).isSome ↔ n < 32 := by
  rw [oneShl]
  split_ifs with h
  · exact iff_of_true rfl h
  · exact iff_of_false (by simp) h

/-- A density with bit 31 set is a shift by at least `2 ^ 31`. -/
theorem density_isSome_iff : (density dword).isSome ↔ bfieldR (dword 2) 31 31 = 0 := by
  rw [density]
  split_ifs with h
  · exact iff_of_true rfl h
  have hbit : (bfieldR (dword 2) 31 31).toNat = (dword 2).toNat / 2 ^ 31 % 2 ^ 1 :=
    toNat_bfieldW (dword 2) 31 1 (by decide)
  have hne : (bfieldR (dword 2) 31 31).toNat ≠ 0 := fun h0 => h (eq_of_toNat_eq h0)
  have hlarge : ¬dword 2 < 32 := by
    rw [lt_def, show (32 : BitVec 32).toNat = 32 from rfl]
    omega
  refine iff_of_false ?_ h
  rw [isSome_map, oneShl_isSome_iff]
  exact hlarge

theorem eraseType_isSome_iff (timeout : Fin 4 → BitVec 32) (old : Fin 4 → EraseMethod) (i : Fin 4) :
    (eraseType dword timeout old i).isSome ↔ bfieldR (eraseHalf dword i) 7 0 < 32 := by
  rw [eraseType]
  split_ifs with h
  · rw [h]
    exact iff_of_true rfl (by decide)
  · rw [isSome_map, oneShl_isSome_iff]

variable {dword : BasicTable} {old types : Fin 4 → EraseMethod}
  {timeout timeout' : Fin 4 → BitVec 32}

theorem eraseTypes_eq_some_iff : eraseTypes dword timeout old = some types ↔
      ∀ i, eraseType dword timeout old i = some (types i) := by
  rw [eraseTypes]
  constructor
  · intro h i
    split_ifs at h with hall
    rw [← some.inj h, some_get]
  · intro h
    have hall : ∀ i, (eraseType dword timeout old i).isSome := fun i => by rw [h i]; rfl
    rw [dif_pos hall, Option.some.injEq]
    funext i
    exact get_of_eq_some _ (h i)

/-- A parse is defined where its shifts are, from any flash. -/
theorem exists_parseBasic_iff (dword : BasicTable) (dual : BitVec 32)
    (timeout : Fin 4 → BitVec 32) (f : FlashInfo) :
    (∃ a, parseBasic dword dual timeout f = some a) ↔ ShiftsDefined dword := by
  simp only [parseBasic, bind_eq_bind, bind_eq_some_iff, Option.pure_def, Option.some.injEq]
  constructor
  · rintro ⟨-, size, hsize, types, htypes, -⟩
    refine ⟨(density_isSome_iff dword).mp (isSome_of_eq_some hsize), fun i => ?_⟩
    rw [← eraseType_isSome_iff dword timeout f.eraseInfo, eraseTypes_eq_some_iff.mp htypes i]
    rfl
  · intro h
    obtain ⟨size, hsize⟩ := isSome_iff_exists.mp ((density_isSome_iff dword).mpr h.density)
    have htypes : ∀ i, ∃ m, eraseType dword timeout f.eraseInfo i = some m := fun i =>
      isSome_iff_exists.mp ((eraseType_isSome_iff dword _ _ i).mpr (h.exponent i))
    choose types htypes using htypes
    exact ⟨_, size, hsize, types, eraseTypes_eq_some_iff.mpr htypes, rfl⟩

/-! ## The modes of two words -/

/-- The dual modes read the same in two words: each half is the same, or names no opcode in
either. -/
def SameDualHalves (dword : BasicTable) (w w' : BitVec 32) : Prop :=
  ∀ i < 2, suppDual dword i →
    bfieldW w (16 * i) 16 = bfieldW w' (16 * i) 16 ∨
      (bfieldR (bfieldW w (16 * i) 16) 15 8 = 0 ∧ bfieldR (bfieldW w' (16 * i) 16) 15 8 = 0)

theorem toNat_setWidth_bfieldR (v : BitVec 32) (stop start : ℕ) (h : stop - start + 1 ≤ 8) :
    ((bfieldR v stop start).setWidth 8).toNat = v.toNat / 2 ^ start % 2 ^ (stop - start + 1) := by
  have hlt : (bfieldR v stop start).toNat < 2 ^ 8 := by
    rw [bfieldR, toNat_bfieldW v start _ (by omega)]
    exact Nat.lt_of_lt_of_le (Nat.mod_lt _ (Nat.two_pow_pos _)) (Nat.pow_le_pow_right (by decide) h)
  rw [toNat_setWidth, Nat.mod_eq_of_lt hlt, bfieldR, toNat_bfieldW v start _ (by omega)]

theorem fastReadHalf_eq_iff (w w' : BitVec 32) (i : ℕ) (address data : BitVec 8) :
    fastReadHalf w i address data = fastReadHalf w' i address data ↔
      bfieldW w (16 * i) 16 = bfieldW w' (16 * i) 16 ∨
        (bfieldR (bfieldW w (16 * i) 16) 15 8 = 0 ∧ bfieldR (bfieldW w' (16 * i) 16) 15 8 = 0) := by
  have hlt := toNat_bfieldW w (16 * i) 16 (by decide)
  have hlt' := toNat_bfieldW w' (16 * i) 16 (by decide)
  simp only [fastReadHalf]
  generalize bfieldW w (16 * i) 16 = v at hlt ⊢
  generalize bfieldW w' (16 * i) 16 = v' at hlt' ⊢
  have hopcode := toNat_setWidth_bfieldR v 15 8 (by decide)
  have hopcode' := toNat_setWidth_bfieldR v' 15 8 (by decide)
  have hmode := toNat_setWidth_bfieldR v 7 5 (by decide)
  have hmode' := toNat_setWidth_bfieldR v' 7 5 (by decide)
  have hdummy := toNat_setWidth_bfieldR v 4 0 (by decide)
  have hdummy' := toNat_setWidth_bfieldR v' 4 0 (by decide)
  by_cases h : bfieldR v 15 8 = 0
  · by_cases h' : bfieldR v' 15 8 = 0
    · simp [h, h']
    · have hne : v ≠ v' := fun e => h' (e ▸ h)
      simp [h, hne]
  by_cases h' : bfieldR v' 15 8 = 0
  · have hne : v ≠ v' := fun e => h (e ▸ h')
    simp [h', hne]
  simp only [h, h', ne_eq, not_false_eq_true, if_true, Option.some.injEq,
    FastReadCmd.mk.injEq, true_and, and_false, or_false]
  constructor
  · rintro ⟨ho, hm, hd⟩
    have ho := congrArg BitVec.toNat ho
    have hm := congrArg BitVec.toNat hm
    have hd := congrArg BitVec.toNat hd
    apply eq_of_toNat_eq
    omega
  · rintro rfl
    exact ⟨rfl, rfl, rfl⟩

theorem dualMode_address {w : BitVec 32} {m : FastReadCmd} (h : dualMode dword w i = some m)
    : m.address = if i = 0 then 1 else 2 := by
  simp only [dualMode, fastReadHalf, ite_not, ite_none_right_eq_some, ne_eq,
    ite_none_left_eq_some, Option.some.injEq] at h
  rw [← h.2.2]

theorem find?_dualModes (dword : BasicTable) (w : BitVec 32) (hi : i < 2) :
    (dualModes dword w).find? (fun m => m.address = if i = 0 then 1 else 2) =
      dualMode dword w i := by
  simp only [dualModes, filterMap_cons, filterMap_nil]
  cases h1 : dualMode dword w 1 with
  | none =>
    cases h0 : dualMode dword w 0 with
    | none => match i with | 0 | 1 => simp [h0, h1]
    | some m0 => match i with | 0 | 1 => simp [h0, h1, dualMode_address h0]
  | some m1 =>
    cases h0 : dualMode dword w 0 with
    | none => match i with | 0 | 1 => simp [h0, h1, dualMode_address h1]
    | some m0 => match i with | 0 | 1 => simp [h0, h1, dualMode_address h0, dualMode_address h1]

theorem dualModes_eq_iff (dword : BasicTable) (w w' : BitVec 32) :
    dualModes dword w = dualModes dword w' ↔ SameDualHalves dword w w' := by
  have hmode : ∀ i, dualMode dword w i = dualMode dword w' i ↔ (suppDual dword i →
      bfieldW w (16 * i) 16 = bfieldW w' (16 * i) 16 ∨
        (bfieldR (bfieldW w (16 * i) 16) 15 8 = 0 ∧
          bfieldR (bfieldW w' (16 * i) 16) 15 8 = 0)) := by
    intro i
    by_cases hs : suppDual dword i
    · rw [dualMode, dualMode, if_neg (not_not.mpr hs), if_neg (not_not.mpr hs),
        fastReadHalf_eq_iff, forall_prop_of_true hs]
    · simp [dualMode, hs]
  constructor
  · intro h i hi
    rw [← hmode, ← find?_dualModes dword w hi, h, find?_dualModes dword w' hi]
  · intro h
    have h0 := (hmode 0).mpr (h 0 (by decide))
    have h1 := (hmode 1).mpr (h 1 (by decide))
    simp only [dualModes, filterMap_cons, filterMap_nil, h0, h1]

/-! ## Agreement -/

/-- What the two parsers should agree on. -/
structure SameBasics (a b : FlashInfo) : Prop where
  size : a.size = b.size
  eraseSize : ∀ i, (a.eraseInfo i).size = (b.eraseInfo i).size
  eraseOpcode : ∀ i, (a.eraseInfo i).opcode = (b.eraseInfo i).opcode
  fastRead : a.fastRead = b.fastRead

def ParsersAgree (dword : BasicTable) : Prop :=
  ∀ f, ∃ a b, sfdpParseBasic dword f = some a ∧ sfdpParseBasic216B dword f = some b ∧
    SameBasics a b

theorem eraseType_timeout {i : Fin 4} {m m' : EraseMethod}
    (h : eraseType dword timeout old i = some m) (h' : eraseType dword timeout' old i = some m') :
    m.size = m'.size ∧ m.opcode = m'.opcode := by
  rw [eraseType] at h h'
  split_ifs at h h' with hexp
  · cases h
    cases h'
    exact ⟨rfl, rfl⟩
  · rw [map_eq_some_iff] at h h'
    obtain ⟨size, hsize, rfl⟩ := h
    obtain ⟨size', hsize', rfl⟩ := h'
    exact ⟨some.inj (hsize.symm.trans hsize'), rfl⟩

theorem parseBasic_eq_some {dual : BitVec 32} {f a : FlashInfo}
    (h : parseBasic dword dual timeout f = some a) :
    density dword = some a.size ∧
      (∀ i, eraseType dword timeout f.eraseInfo i = some (a.eraseInfo i)) ∧
      a.fastRead = storeModes f.fastRead (quadModes dword (dword 3) ++ dualModes dword dual) := by
  simp only [parseBasic, bind_eq_bind, bind_eq_some_iff, Option.pure_def, Option.some.injEq] at h
  obtain ⟨size, hsize, types, htypes, rfl⟩ := h
  exact ⟨hsize, eraseTypes_eq_some_iff.mp htypes, rfl⟩

theorem storeModes_inj {old old' : Fin 4 → FastReadCmd} (hne : ∀ j, old j ≠ old' j)
    {modes modes' : List FastReadCmd} (hlen : modes.length ≤ 4) (hlen' : modes'.length ≤ 4)
    (h : storeModes old modes = storeModes old modes')
    (h' : storeModes old' modes = storeModes old' modes') : modes = modes' := by
  refine ext_getElem? fun j => ?_
  rcases Nat.lt_or_ge j 4 with hj | hj
  · have hread := congrFun h ⟨j, hj⟩
    have hread' := congrFun h' ⟨j, hj⟩
    simp only [storeModes, getD_eq_getElem?_getD] at hread hread'
    rcases hm : modes[j]? with _ | m <;> rcases hm' : modes'[j]? with _ | m' <;>
      rw [hm, hm'] at hread hread'
    · exact absurd (hread.trans hread'.symm) (hne _)
    · exact absurd (hread.symm.trans hread') (hne _)
    · exact congrArg some hread
  · rw [List.getElem?_eq_none (hlen.trans hj), List.getElem?_eq_none (hlen'.trans hj)]

theorem modes_length_le (dword : BasicTable) (w w' : BitVec 32) :
    (quadModes dword w ++ dualModes dword w').length ≤ 4 := by
  have hquad : (quadModes dword w).length ≤ 2 := length_filterMap_le _ _
  have hdual : (dualModes dword w').length ≤ 2 := length_filterMap_le _ _
  rw [length_append]
  omega

theorem ParsersAgree.storeModes (h : ParsersAgree dword) (old : Fin 4 → FastReadCmd) :
    storeModes old (quadModes dword (dword 3) ++ dualModes dword (dword 4)) =
      storeModes old (quadModes dword (dword 3) ++ dualModes dword (dword 3)) := by
  obtain ⟨a, b, ha, hb, hsame⟩ := h { FlashInfo.blank with fastRead := old }
  obtain ⟨c, hc, rfl⟩ := map_eq_some_iff.mp hb
  have hread : a.fastRead = c.fastRead := hsame.fastRead
  rwa [(parseBasic_eq_some ha).2.2, (parseBasic_eq_some hc).2.2] at hread

/-- **The two basic parsers** compute the same size, erase types and fast read modes exactly where
the decoder's shifts are defined and the supported dual modes read the same in word 3 as in word
4. -/
theorem basic_parsers_agree_iff (dword : BasicTable) :
    ParsersAgree dword ↔ ShiftsDefined dword ∧ SameDualHalves dword (dword 3) (dword 4) := by
  constructor
  · intro h
    obtain ⟨a, _, ha, -⟩ := h FlashInfo.blank
    refine ⟨(exists_parseBasic_iff dword _ _ _).mp ⟨a, ha⟩, ?_⟩
    have hmodes := storeModes_inj (fun _ => by decide) (modes_length_le dword _ _)
      (modes_length_le dword _ _) (h.storeModes fun _ => ⟨0, 0, 0, 0, 0⟩)
      (h.storeModes fun _ => ⟨1, 0, 0, 0, 0⟩)
    exact (dualModes_eq_iff dword _ _).mp (append_cancel_left hmodes).symm
  · rintro ⟨hshifts, hdual⟩ f
    obtain ⟨a, ha⟩ := (exists_parseBasic_iff dword (dword 4) (fun _ => 1000 * 1000) f).mpr hshifts
    obtain ⟨c, hc⟩ := (exists_parseBasic_iff dword (dword 3) (eraseTimeout216B dword) f).mpr hshifts
    obtain ⟨hsize, htypes, hmodes⟩ := parseBasic_eq_some ha
    obtain ⟨hsize', htypes', hmodes'⟩ := parseBasic_eq_some hc
    refine ⟨a, _, ha, map_eq_some_iff.mpr ⟨c, hc, rfl⟩, ?_, ?_, ?_, ?_⟩
    · exact some.inj (hsize.symm.trans hsize')
    · exact fun i => (eraseType_timeout (htypes i) (htypes' i)).1
    · exact fun i => (eraseType_timeout (htypes i) (htypes' i)).2
    · show a.fastRead = c.fastRead
      rw [hmodes, hmodes', (dualModes_eq_iff dword _ _).mpr hdual]

/-- A 16 MiB chip with four fast read modes and the erase types 4K, 32K and 64K. -/
def quadChip : BasicTable
  | 1 => 0xfff920e5
  | 2 => 0x07ffffff
  | 3 => 0x6b08eb44
  | 4 => 0xbb423b08
  | 8 => 0x520f200c
  | 9 => 0x0000d810
  | 10 => 0x00a60236
  | 11 => 0x00dc0b82
  | _ => 0

/-- The mode (1-2-2) has opcode `bb` in word 4; the newer parser takes the `6b` of (1-1-4). -/
theorem basic_parsers_disagree :
    (sfdpParseBasic quadChip .blank).map (fun f => (f.fastRead 2).opcode) = some 0xbb ∧
      (sfdpParseBasic216B quadChip .blank).map (fun f => (f.fastRead 2).opcode) = some 0x6b ∧
      ¬ParsersAgree quadChip := by
  have hold : (sfdpParseBasic quadChip .blank).map (fun f => (f.fastRead 2).opcode) =
      some 0xbb := by decide
  have hnew : (sfdpParseBasic216B quadChip .blank).map (fun f => (f.fastRead 2).opcode) =
      some 0x6b := by decide
  refine ⟨hold, hnew, fun h => ?_⟩
  obtain ⟨a, b, ha, hb, hsame⟩ := h .blank
  rw [ha, map_some] at hold
  rw [hb, map_some, ← hsame.fastRead, hold] at hnew
  exact absurd hnew (by decide)

end WiseSdk.Flash
