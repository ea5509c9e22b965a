import Mathlib.Data.Vector.Defs
import WiseSdk.Library.ByteMemory
import WiseSdk.Library.Dyadic

/-!
# Writing into a flash area

`flash_area_write` puts bytes anywhere in an update slot. Flash is erased by sectors of 4096 bytes,
so `aligned_write` has three parts: a head up to the first sector boundary, whole sectors, and a
tail. Head and tail read their sector, erase it and write it back with the new bytes. The backend
encrypts what it writes when the flash is encrypted, and reads through the memory map, where the
hardware decrypts.

Each part consumes a piece of the buffer and writes it where it belongs (`Consumes`). What a whole
write does follows from that relation alone.

The bounds check adds `off` and `len` in 32 bits: a sum that wraps is accepted, and the write goes
outside the area.
-/

namespace WiseSdk.Flash

open Library List BitVec

/-! ## The backend -/

/-- `struct flash_crypto`; key and counter block appear as the bytes that AES-CTR adds at each
address. -/
structure FlashCrypto where
  enable : Bool
  userDisable : Bool
  keystream : ℕ → Byte

namespace FlashCrypto

variable (c : FlashCrypto)

/-- `g_crypto.enable && !g_crypto.user_disable`. -/
def active : Bool := c.enable && !c.userDisable

/-- The flash as the memory map shows it: the hardware decrypts while encryption is active. -/
def mapped (m : ByteMem) : ByteMem := fun x => if c.active then m x ^^^ c.keystream x else m x

end FlashCrypto

variable (c : FlashCrypto)

/-- `flash_crypto_data_encrypt`, from an address that starts a cipher block on. -/
def flashCryptoDataEncrypt (addr : ℕ) (bs : List Byte) : List Byte :=
  bs.mapIdx fun i b => b ^^^ c.keystream (addr + i)

/-- `flash_backend_read`: `flash_read` takes the raw bytes, the memory map the decrypted ones. -/
def flashBackendRead (m : ByteMem) (addr : BitVec 32) (size : ℕ) : List Byte :=
  if c.enable && c.userDisable then readBytes m addr.toNat size
  else readBytes (c.mapped m) addr.toNat size

/-- `flash_backend_erase` of a sector.  The driver refuses a start that is not aligned. -/
def flashBackendErase (m : ByteMem) (addr : BitVec 32) : Option ByteMem :=
  if addr.toNat % 4096 = 0 then some (eraseRange m addr.toNat 4096) else none

/-- `flash_backend_write`, which asks for memory for the encrypted bytes; `encBuf` tells whether it
gets some. -/
def flashBackendWrite (m : ByteMem) (addr : BitVec 32) (buf : List Byte) (encBuf : Bool := true) :
    Option ByteMem :=
  if c.active && !encBuf then none
  else
    some (programAt m addr.toNat
      (if c.active then flashCryptoDataEncrypt c addr.toNat buf else buf))

/-! ## The source's functions -/

/-- The variables of `aligned_write`.  `remain` is the length of the rest of the buffer. -/
structure Writer where
  mem : ByteMem
  offset : BitVec 32
  buf : List Byte

def esize : BitVec 32 := 4096#32

def sectorMask : BitVec 32 := esize - 1#32

/-- Erasing a sector and writing it.  The error carries the flash as it is then. `enc` tells for
each sector whether there is memory to encrypt it. -/
def rewriteSector (m : ByteMem) (addr : BitVec 32) (eblock : List Byte)
    (enc : BitVec 32 → Bool := fun _ => true) : Except ByteMem ByteMem :=
  match flashBackendErase m addr with
  | none => .error m
  | some m' =>
    match flashBackendWrite c m' addr eblock (enc addr) with
    | none => .error m'
    | some m'' => .ok m''

/-- The first part of `aligned_write`, up to a sector boundary. -/
def writeHead (w : Writer) (enc : BitVec 32 → Bool := fun _ => true) :
    Except ByteMem Writer :=
  let alignedAddr := (w.offset + sectorMask) &&& ~~~sectorMask
  if alignedAddr > w.offset then
    let rwAddr := w.offset &&& ~~~sectorMask
    let eblock := flashBackendRead c w.mem rwAddr esize.toNat
    let unalignedOffset := (w.offset &&& sectorMask).toNat
    let unalignedSize := min w.buf.length (esize.toNat - unalignedOffset)
    match rewriteSector c w.mem rwAddr
        (splice eblock unalignedOffset (w.buf.take unalignedSize)) enc with
    | .error m => .error m
    | .ok m => .ok ⟨m, w.offset + BitVec.ofNat 32 unalignedSize, w.buf.drop unalignedSize⟩
  else .ok w

def writeSectors (c : FlashCrypto) (w : Writer) (enc : BitVec 32 → Bool := fun _ => true) :
    Except ByteMem Writer :=
  if esize.toNat ≤ w.buf.length then
    match rewriteSector c w.mem w.offset (w.buf.take esize.toNat) enc with
    | .error m => .error m
    | .ok m => writeSectors c ⟨m, w.offset + esize, w.buf.drop esize.toNat⟩ enc
  else .ok w
termination_by w.buf.length
decreasing_by
  rw [length_drop]
  have : 0 < esize.toNat := by decide
  omega

/-- The last part, less than a sector. -/
def writeTail (w : Writer) (enc : BitVec 32 → Bool := fun _ => true) :
    Except ByteMem ByteMem :=
  if 0 < w.buf.length then
    rewriteSector c w.mem w.offset
      (splice (flashBackendRead c w.mem w.offset esize.toNat) 0 w.buf) enc
  else .ok w.mem

def alignedParts (w : Writer) (enc : BitVec 32 → Bool := fun _ => true) :
    Except ByteMem ByteMem :=
  writeHead c w enc >>= (writeSectors c · enc) >>= (writeTail c · enc)

/-- `aligned_write`: `ret` is `len` as an `int`, or `-1`, with the flash afterwards. -/
def alignedWrite (m : ByteMem) (buf : List Byte) (startAddr : BitVec 32) (len : BitVec 32)
    : ℤ × ByteMem :=
  match alignedParts c ⟨m, startAddr, buf⟩ with
  | .ok m' => (len.toInt, m')
  | .error m' => (-1, m')

/-- `struct flash_area`: a range of the address space. -/
structure FlashArea where
  off : BitVec 32
  size : BitVec 32
  fits : off.toNat + size.toNat ≤ 2 ^ 32

inductive AreaResult where
  | ok
  | error
  deriving DecidableEq, Repr

/-- `flash_area_write` from a buffer of `len` bytes. -/
def flashAreaWrite (fa : FlashArea) (m : ByteMem) (off : BitVec 32) {len : BitVec 32}
    (src : List.Vector Byte len.toNat) : AreaResult × ByteMem :=
  if off + len > fa.size then (.error, m)
  else
    let r := alignedWrite c m src.toList (fa.off + off) len
    if r.1 < 0 then (.error, r.2) else (.ok, r.2)

/-! ## Sectors -/

variable {c : FlashCrypto} {m goal : ByteMem} {w w' : Writer} {addr start : BitVec 32}

theorem FlashCrypto.mapped_of_inactive (h : c.active = false) (m : ByteMem) : c.mapped m = m := by
  funext x
  simp [FlashCrypto.mapped, h]

theorem flashBackendRead_eq (c : FlashCrypto) (m : ByteMem) (addr : BitVec 32) (n : ℕ) :
    flashBackendRead c m addr n = readBytes (c.mapped m) addr.toNat n := by
  rw [flashBackendRead]
  split
  next h =>
    have hoff : c.active = false := by
      obtain ⟨hon, hdis⟩ := Bool.and_eq_true_iff.mp h
      simp [FlashCrypto.active, hon, hdis]
    rw [FlashCrypto.mapped_of_inactive hoff]
  next => rfl

theorem mapped_overwrite_encrypt (c : FlashCrypto) (m : ByteMem) (a : ℕ) (bs : List Byte) :
    c.mapped (overwrite m a (if c.active then flashCryptoDataEncrypt c a bs else bs)) =
      overwrite (c.mapped m) a bs := by
  cases hon : c.active with
  | false => simp [FlashCrypto.mapped_of_inactive hon]
  | true =>
    simp only [if_true]
    have hlen : (flashCryptoDataEncrypt c a bs).length = bs.length := by
      simp [flashCryptoDataEncrypt]
    refine overwrite_eq_iff.mpr ⟨fun i hi => ?_, fun x hx => ?_⟩
    · simp only [FlashCrypto.mapped, hon, if_true]
      rw [overwrite_add m a (hlen ▸ hi)]
      simp only [flashCryptoDataEncrypt, getElem_mapIdx]
      rw [xor_assoc, BitVec.xor_self, xor_zero]
    · simp only [FlashCrypto.mapped, hon, if_true]
      rw [overwrite_of_not_mem (by rwa [hlen])]

theorem length_encrypted (c : FlashCrypto) (a : ℕ) (bs : List Byte) :
    (if c.active then flashCryptoDataEncrypt c a bs else bs).length = bs.length := by
  split <;> simp [flashCryptoDataEncrypt]

/-- **A sector is rewritten** with the block, as the memory map shows it. -/
theorem rewriteSector_spec (c : FlashCrypto) (m : ByteMem) (eblock : List Byte)
    (haddr : addr.toNat % 4096 = 0) (hlen : eblock.length = 4096) :
    ∃ m', rewriteSector c m addr eblock = .ok m' ∧
      c.mapped m' = overwrite (c.mapped m) addr.toNat eblock := by
  refine ⟨_, by simp [rewriteSector, flashBackendErase, haddr, flashBackendWrite]; rfl, ?_⟩
  rw [← hlen, ← length_encrypted c addr.toNat eblock, programAt_eraseRange,
    mapped_overwrite_encrypt]

theorem rewriteSector_refused {eblock : List Byte} {enc : BitVec 32 → Bool}
    (haddr : addr.toNat % 4096 ≠ 0) : rewriteSector c m addr eblock enc = .error m := by
  rw [rewriteSector, flashBackendErase, if_neg haddr]

/-! ## Rounding to sectors -/

theorem esize_toNat : esize.toNat = 4096 := rfl

theorem powerOfTwo_esize : PowerOfTwo esize.toNat := ⟨12, rfl⟩

theorem toNat_and_not_sectorMask (a : BitVec 32) :
    (a &&& ~~~sectorMask).toNat = a.toNat - a.toNat % 4096 :=
  toNat_and_not_sub_one a esize powerOfTwo_esize

theorem toNat_and_sectorMask (a : BitVec 32) : (a &&& sectorMask).toNat = a.toNat % 4096 := by
  rw [toNat_and]
  exact Nat.and_two_pow_sub_one_eq_mod a.toNat 12

/-- A start in the last sector of the address space, past its first byte: rounding it up wraps to
`0`. -/
def InLastSector (start : BitVec 32) : Prop := 2 ^ 32 - 4096 < start.toNat
deriving Decidable

/-- **When there is a head**: the start is not aligned, and rounding it up does not wrap. -/
theorem head_iff (a : BitVec 32) :
    (a + sectorMask) &&& ~~~sectorMask > a ↔ a.toNat % 4096 ≠ 0 ∧ ¬InLastSector a := by
  have hadd : (a + sectorMask).toNat = (a.toNat + 4095) % 2 ^ 32 := toNat_add a sectorMask
  rw [gt_iff_lt, lt_def, toNat_and_not_sectorMask, hadd, InLastSector]
  omega

/-! ## What the parts do -/

/-- The next `k` bytes of the buffer are put where they belong. -/
structure ConsumesBy (c : FlashCrypto) (k : ℕ) (w w' : Writer) : Prop where
  le_length : k ≤ w.buf.length
  inSpace : w.offset.toNat + k ≤ 2 ^ 32
  mapped : c.mapped w'.mem = overwrite (c.mapped w.mem) w.offset.toNat (w.buf.take k)
  offset : w'.offset = w.offset + BitVec.ofNat 32 k
  buf : w'.buf = w.buf.drop k

def Consumes (c : FlashCrypto) (w w' : Writer) : Prop := ∃ k, ConsumesBy c k w w'

theorem Consumes.refl (c : FlashCrypto) (w : Writer) : Consumes c w w :=
  ⟨0, ⟨Nat.zero_le _, by have := w.offset.isLt; omega, by simp, by simp, by simp⟩⟩

def SectorStart (w : Writer) : Prop := w.buf = [] ∨ w.offset.toNat % 4096 = 0

theorem writeHead_consumes (c : FlashCrypto) (h : ¬InLastSector w.offset) :
    ∃ w', writeHead c w = .ok w' ∧ Consumes c w w' ∧ SectorStart w' := by
  by_cases hhead : (w.offset + sectorMask) &&& ~~~sectorMask > w.offset
  · have hrw := toNat_and_not_sectorMask w.offset
    obtain ⟨k, hk⟩ : ∃ k, k = min w.buf.length (4096 - w.offset.toNat % 4096) := ⟨_, rfl⟩
    have htake : (w.buf.take k).length = k := by
      rw [length_take]
      omega
    have hfit : w.offset.toNat % 4096 + (w.buf.take k).length ≤ 4096 := by omega
    have haligned : (w.offset &&& ~~~sectorMask).toNat % 4096 = 0 := by omega
    obtain ⟨m', hrewrite, hmapped⟩ := rewriteSector_spec c w.mem
      (splice (readBytes (c.mapped w.mem) (w.offset &&& ~~~sectorMask).toNat 4096)
        (w.offset.toNat % 4096) (w.buf.take k)) haligned
      (by rw [length_splice (by rwa [length_readBytes]), length_readBytes])
    refine ⟨⟨m', w.offset + BitVec.ofNat 32 k, w.buf.drop k⟩, ?_,
      ⟨k, ⟨by omega, by omega, ?_, rfl, rfl⟩⟩, ?_⟩
    · simp only [writeHead, if_pos hhead, flashBackendRead_eq, toNat_and_sectorMask, esize_toNat,
        ← hk, hrewrite]
    · rw [hmapped, overwrite_splice _ _ hfit, hrw, Nat.sub_add_cancel (Nat.mod_le _ _)]
    · -- Either the buffer ends before the sector does, or the next sector is reached.
      rcases Nat.lt_or_ge k w.buf.length with hgt | hle
      · refine .inr ?_
        rw [toNat_add, toNat_ofNat]
        omega
      · exact .inl (drop_eq_nil_of_le hle)
  · refine ⟨w, by simp only [writeHead, if_neg hhead], Consumes.refl c w, .inr ?_⟩
    by_contra hmod
    exact hhead ((head_iff _).mpr ⟨hmod, h⟩)

theorem writeSectors_consumes (c : FlashCrypto) (w : Writer) (h : SectorStart w) :
    ∃ w', writeSectors c w = .ok w' ∧ Relation.ReflTransGen (Consumes c) w w' ∧ SectorStart w' ∧
      w'.buf.length < 4096 := by
  induction hn : w.buf.length using Nat.strongRecOn generalizing w with
  | _ n ih =>
    rw [writeSectors, esize_toNat]
    split_ifs with hfull
    · have hmod : w.offset.toNat % 4096 = 0 := by
        refine h.resolve_left fun hnil => ?_
        simp [hnil] at hfull
      obtain ⟨m', hrewrite, hmapped⟩ := rewriteSector_spec c w.mem (w.buf.take 4096)
        hmod (by rw [length_take]; omega)
      have hstep : Consumes c w ⟨m', w.offset + esize, w.buf.drop 4096⟩ :=
        ⟨4096, ⟨hfull, by omega, hmapped, rfl, rfl⟩⟩
      have hstart : SectorStart ⟨m', w.offset + esize, w.buf.drop 4096⟩ := by
        refine .inr ?_
        rw [toNat_add, esize_toNat]
        omega
      obtain ⟨w', hw', hrun, hrest⟩ := ih (w.buf.drop 4096).length
        (by rw [length_drop]; omega) _ hstart rfl
      refine ⟨w', ?_, Relation.ReflTransGen.head hstep hrun, hrest⟩
      simp only [hrewrite]
      exact hw'
    · exact ⟨w, rfl, .refl, h, Nat.not_le.mp hfull⟩

theorem writeTail_consumes (c : FlashCrypto) (h : SectorStart w) (hlt : w.buf.length < 4096) :
    ∃ w', writeTail c w = .ok w'.mem ∧ Consumes c w w' ∧ w'.buf = [] := by
  rw [writeTail]
  split_ifs with hpos
  · have hmod : w.offset.toNat % 4096 = 0 := by
      refine h.resolve_left fun hnil => ?_
      simp [hnil] at hpos
    have hfit : 0 + w.buf.length ≤ 4096 := by omega
    obtain ⟨m', hrewrite, hmapped⟩ := rewriteSector_spec c w.mem
      (splice (readBytes (c.mapped w.mem) w.offset.toNat 4096) 0 w.buf) hmod
      (by rw [length_splice (by rwa [length_readBytes]), length_readBytes])
    refine ⟨⟨m', w.offset + BitVec.ofNat 32 w.buf.length, []⟩, ?_,
      ⟨w.buf.length, ⟨Nat.le_refl _, by omega, ?_, rfl, by simp⟩⟩, rfl⟩
    · rw [flashBackendRead_eq, esize_toNat, hrewrite]
    · rw [hmapped, overwrite_splice _ _ hfit, Nat.add_zero, take_length]
  · have hnil : w.buf = [] := length_eq_zero_iff.mp (Nat.eq_zero_of_not_pos hpos)
    exact ⟨w, rfl, Consumes.refl c w, hnil⟩

/-- **A write consumes its buffer**, unless it starts in the last sector past its first byte. -/
theorem alignedParts_consumes (c : FlashCrypto) (h : ¬InLastSector w.offset) :
    ∃ w', alignedParts c w = .ok w'.mem ∧ Relation.ReflTransGen (Consumes c) w w' ∧
      w'.buf = [] := by
  obtain ⟨w₁, hhead, hw₁, hstart₁⟩ := writeHead_consumes c h
  obtain ⟨w₂, hloop, hw₂, hstart₂, hlt⟩ := writeSectors_consumes c w₁ hstart₁
  obtain ⟨w₃, htail, hw₃, hnil⟩ := writeTail_consumes c hstart₂ hlt
  refine ⟨w₃, ?_, .head hw₁ (hw₂.tail hw₃), hnil⟩
  rw [alignedParts, hhead]
  change writeSectors c w₁ >>= writeTail c = _
  rw [hloop]
  exact htail

/-- In the last sector the head is skipped. -/
theorem alignedParts_skip_head (c : FlashCrypto) (h : InLastSector w.offset) :
    alignedParts c w = writeSectors c w >>= writeTail c := by
  have hhead : writeHead c w = .ok w := by
    simp only [writeHead]
    exact if_neg fun hgt => ((head_iff _).mp hgt).2 h
  rw [alignedParts, hhead]
  rfl

/-- **An unaligned start in the last sector**: the head is skipped, and the erase at the start is
refused. -/
theorem alignedParts_of_inLastSector (c : FlashCrypto) (h : InLastSector w.offset)
    (hbuf : w.buf ≠ []) : alignedParts c w = .error w.mem := by
  have hmod : w.offset.toNat % 4096 ≠ 0 := by
    simp only [InLastSector] at h
    omega
  rw [alignedParts_skip_head c h, writeSectors]
  split_ifs
  · rw [rewriteSector_refused hmod]
    rfl
  · change writeTail c w = _
    rw [writeTail, if_pos (length_pos_iff.mpr hbuf), rewriteSector_refused hmod]

theorem alignedParts_of_nil (c : FlashCrypto) (h : InLastSector w.offset) (hbuf : w.buf = []) :
    alignedParts c w = .ok w.mem := by
  rw [alignedParts_skip_head c h]
  rw [writeSectors, if_neg (by simp [hbuf, esize])]
  change writeTail c w = _
  rw [writeTail, if_neg (by simp [hbuf])]

/-! ## What a whole write does -/

/-- Writing the rest of the buffer in one piece would complete the flash to `goal`. -/
structure Pending (c : FlashCrypto) (goal : ByteMem) (w : Writer) : Prop where
  completes : overwrite (c.mapped w.mem) w.offset.toNat w.buf = goal
  fits : w.offset.toNat + w.buf.length ≤ 2 ^ 32

theorem Pending.step (h : Pending c goal w) (hstep : Consumes c w w') : Pending c goal w' := by
  obtain ⟨k, hk⟩ := hstep
  have hlen : (w.buf.take k).length = k := by
    rw [length_take]
    exact Nat.min_eq_left hk.le_length
  have hgoal := h.completes
  rw [← take_append_drop k w.buf, overwrite_append, ← hk.mapped, hlen, ← hk.buf] at hgoal
  have hrest : w'.buf.length = w.buf.length - k := by rw [hk.buf, length_drop]
  have hoff : w'.offset.toNat = (w.offset.toNat + k) % 2 ^ 32 := by
    rw [hk.offset, toNat_add, toNat_ofNat, Nat.add_mod_mod]
  have hfits := h.fits
  rcases Nat.lt_or_ge (w.offset.toNat + k) (2 ^ 32) with hlt | hge
  · rw [Nat.mod_eq_of_lt hlt] at hoff
    exact ⟨by rw [hoff, hgoal], by omega⟩
  -- The offset has reached the end of the address space, so nothing is left to write.
  have hnil : w'.buf = [] := length_eq_zero_iff.mp (by omega)
  rw [hnil, overwrite_nil] at hgoal
  refine ⟨by rw [hnil, overwrite_nil, hgoal], ?_⟩
  rw [hnil, length_nil]
  omega

/-- **A write that stays in the address space** puts its buffer at its start and changes
nothing else. -/
theorem alignedParts_overwrite (c : FlashCrypto) (h : ¬InLastSector w.offset)
    (hfits : w.offset.toNat + w.buf.length ≤ 2 ^ 32) :
    ∃ m', alignedParts c w = .ok m' ∧
      c.mapped m' = overwrite (c.mapped w.mem) w.offset.toNat w.buf := by
  obtain ⟨w', hparts, hrun, hnil⟩ := alignedParts_consumes c h
  refine ⟨w'.mem, hparts, ?_⟩
  have hpending : Pending c (overwrite (c.mapped w.mem) w.offset.toNat w.buf) w' := by
    clear hparts hnil
    induction hrun with
    | refl => exact ⟨rfl, hfits⟩
    | tail _ hstep ih => exact ih.step hstep
  have hdone := hpending.completes
  rwa [hnil, overwrite_nil] at hdone

/-- Only `0xff` is written, and it is, or will next be, at `start`. -/
structure Setting (c : FlashCrypto) (start : BitVec 32) (w : Writer) : Prop where
  ones : ∀ b ∈ w.buf, b = Byte.erased
  reached : c.mapped w.mem start.toNat = Byte.erased ∨ w.offset = start ∧ w.buf ≠ []

theorem Setting.step (h : Setting c start w) (hstep : Consumes c w w') : Setting c start w' := by
  obtain ⟨k, hk⟩ := hstep
  refine ⟨fun b hb => h.ones b (mem_of_mem_drop (hk.buf ▸ hb)), ?_⟩
  have hlen : (w.buf.take k).length = k := by
    rw [length_take]
    exact Nat.min_eq_left hk.le_length
  by_cases hin : w.offset.toNat ≤ start.toNat ∧ start.toNat < w.offset.toNat + k
  · obtain ⟨i, hi⟩ := Nat.exists_eq_add_of_le hin.1
    refine .inl ?_
    rw [hk.mapped, hi, overwrite_add _ _ (show i < (w.buf.take k).length by omega)]
    exact h.ones _ (mem_of_mem_take (getElem_mem _))
  rcases h.reached with hset | ⟨hoff, hne⟩
  · refine .inl ?_
    rw [hk.mapped, overwrite_of_not_mem (by rwa [hlen]), hset]
  -- The part was empty.
  obtain rfl : k = 0 := by
    rw [hoff] at hin
    omega
  exact .inr ⟨by simpa [hoff] using hk.offset, by simpa [hk.buf] using hne⟩

theorem alignedParts_setting (c : FlashCrypto) (h : ¬InLastSector w.offset)
    (hset : Setting c start w) :
    ∃ m', alignedParts c w = .ok m' ∧ c.mapped m' start.toNat = Byte.erased := by
  obtain ⟨w', hparts, hrun, hnil⟩ := alignedParts_consumes c h
  refine ⟨w'.mem, hparts, ?_⟩
  have hsetting : Setting c start w' := by
    clear hparts hnil
    induction hrun with
    | refl => exact hset
    | tail _ hstep ih => exact ih.step hstep
  exact hsetting.reached.resolve_right fun hr => hr.2 hnil

/-- **A write of `0xff` reaches its start**, also when it wraps around the address space. -/
theorem alignedParts_sets (c : FlashCrypto) (h : ¬InLastSector w.offset) (hbuf : w.buf ≠ [])
    (hones : ∀ b ∈ w.buf, b = Byte.erased) :
    ∃ m', alignedParts c w = .ok m' ∧ c.mapped m' w.offset.toNat = Byte.erased :=
  alignedParts_setting c h ⟨hones, .inr ⟨rfl, hbuf⟩⟩

/-! ## The frame of `flash_area_write` -/

/-- The range lies in the area, in unbounded integers. -/
def InArea (fa : FlashArea) (off len : BitVec 32) : Prop := off.toNat + len.toNat ≤ fa.size.toNat
deriving Decidable

/-- A write in the area replaces exactly its bytes; any other fails and changes nothing. -/
def FrameUpdate (c : FlashCrypto) (fa : FlashArea) (m : ByteMem) (off : BitVec 32)
    {len : BitVec 32} (src : List.Vector Byte len.toNat) : Prop :=
  let r := flashAreaWrite c fa m off src
  if InArea fa off len then
    r.1 = .ok ∧
      c.mapped r.2 = overwrite (c.mapped m) (fa.off.toNat + off.toNat) src.toList
  else r.1 = .error ∧ r.2 = m

/-- The writes done right. In the area: the length is not negative as an `int`, and the start is not
in the last sector of the address space past its first byte. Outside: the 32-bit sum of the bounds
check does not wrap below the size of the area, or the start is such an address and the first erase
is refused. -/
def WriteSafe (fa : FlashArea) (off len : BitVec 32) : Prop :=
  if InArea fa off len then
    len.toNat < 2 ^ 31 ∧ (len = 0#32 ∨ ¬InLastSector (fa.off + off))
  else fa.size < off + len ∨ InLastSector (fa.off + off)

section Frame

variable {fa : FlashArea} {off len : BitVec 32} {src : List.Vector Byte len.toNat} {m' : ByteMem}

theorem flashAreaWrite_of_gt (h : fa.size < off + len) :
    flashAreaWrite c fa m off src = (.error, m) := if_pos h

theorem flashAreaWrite_of_ok (h : ¬fa.size < off + len)
    (hparts : alignedParts c ⟨m, fa.off + off, src.toList⟩ = .ok m') :
    flashAreaWrite c fa m off src = (if len.toNat < 2 ^ 31 then .ok else .error, m') := by
  have hneg : len.toInt < 0 ↔ ¬len.toNat < 2 ^ 31 := by
    rw [toInt_neg_iff]
    omega
  simp only [flashAreaWrite, gt_iff_lt, if_neg h, alignedWrite, hparts, hneg]
  split_ifs <;> rfl

theorem flashAreaWrite_of_error (h : ¬fa.size < off + len)
    (hparts : alignedParts c ⟨m, fa.off + off, src.toList⟩ = .error m') :
    flashAreaWrite c fa m off src = (.error, m') := by
  simp [flashAreaWrite, h, alignedWrite, hparts]

theorem InArea.accepted (h : InArea fa off len) : ¬fa.size < off + len := by
  rw [lt_def, toNat_add]
  simp only [InArea] at h
  omega

theorem pos_of_accepted (h : ¬fa.size < off + len) (hin : ¬InArea fa off len) :
    0 < len.toNat := by
  rw [lt_def, toNat_add] at h
  simp only [InArea] at hin
  by_contra hzero
  omega

theorem src_ne_nil (h : 0 < len.toNat) : src.toList ≠ [] := by
  intro hnil
  have hlen := src.toList_length
  rw [hnil, length_nil] at hlen
  omega

/-- **A safe write in the area** is exact. -/
theorem frameUpdate_of_inArea (hin : InArea fa off len) (hlen : len.toNat < 2 ^ 31)
    (hstart : len = 0#32 ∨ ¬InLastSector (fa.off + off)) : FrameUpdate c fa m off src := by
  have hadd : (fa.off + off).toNat = (fa.off.toNat + off.toNat) % 2 ^ 32 := toNat_add _ _
  have hfits := fa.fits
  have hbound : off.toNat + len.toNat ≤ fa.size.toNat := hin
  simp only [FrameUpdate, if_pos hin]
  by_cases hlast : InLastSector (fa.off + off)
  · have hnil : src.toList = [] := by
      refine length_eq_zero_iff.mp ?_
      rw [src.toList_length, hstart.resolve_right (not_not_intro hlast)]
      rfl
    rw [flashAreaWrite_of_ok hin.accepted (alignedParts_of_nil c hlast hnil), if_pos hlen, hnil,
      overwrite_nil]
    exact ⟨rfl, rfl⟩
  obtain ⟨m', hparts, hmapped⟩ := alignedParts_overwrite (w := ⟨m, fa.off + off, src.toList⟩) c
    hlast (by simp only [src.toList_length]; omega)
  rw [flashAreaWrite_of_ok hin.accepted hparts, if_pos hlen]
  refine ⟨rfl, ?_⟩
  rw [hmapped]
  rcases Nat.lt_or_ge (fa.off.toNat + off.toNat) (2 ^ 32) with hlt | hge
  · rw [hadd, Nat.mod_eq_of_lt hlt]
  -- Only an empty range can start at the end of the address space.
  have hnil : src.toList = [] := by
    refine length_eq_zero_iff.mp ?_
    rw [src.toList_length]
    omega
  rw [hnil, overwrite_nil, overwrite_nil]

/-- **A refused write outside the area** changes nothing. -/
theorem frameUpdate_of_not_inArea (hin : ¬InArea fa off len)
    (hsafe : fa.size < off + len ∨ InLastSector (fa.off + off)) : FrameUpdate c fa m off src := by
  simp only [FrameUpdate, if_neg hin]
  by_cases hgt : fa.size < off + len
  · rw [flashAreaWrite_of_gt hgt]
    exact ⟨rfl, rfl⟩
  · have hlast := hsafe.resolve_left hgt
    have hbuf : src.toList ≠ [] := src_ne_nil (pos_of_accepted hgt hin)
    rw [flashAreaWrite_of_error hgt (alignedParts_of_inLastSector c hlast hbuf)]
    exact ⟨rfl, rfl⟩

end Frame

def plainFlash : FlashCrypto := ⟨false, false, fun _ => 0#8⟩

/-- **The frame of `flash_area_write`.** A write from any buffer into any flash is a frame update
exactly when the range is safe. -/
theorem flashAreaWrite_frame_iff (fa : FlashArea) (off len : BitVec 32) :
    (∀ (c : FlashCrypto) (m : ByteMem) (src : List.Vector Byte len.toNat),
      FrameUpdate c fa m off src) ↔ WriteSafe fa off len := by
  constructor
  · intro h
    -- A buffer of `0xff` written into a flash of zeros shows whatever is written.
    have hones := h plainFlash (fun _ => 0#8) (List.Vector.replicate len.toNat Byte.erased)
    by_cases hin : InArea fa off len
    · simp only [FrameUpdate, if_pos hin] at hones
      rw [WriteSafe, if_pos hin]
      refine ⟨?_, ?_⟩
      · by_contra hlen
        cases hparts : alignedParts plainFlash
            ⟨fun _ => 0#8, fa.off + off, (List.Vector.replicate len.toNat Byte.erased).toList⟩ with
        | ok m' =>
          rw [flashAreaWrite_of_ok hin.accepted hparts, if_neg hlen] at hones
          exact nomatch hones.1
        | error m' =>
          rw [flashAreaWrite_of_error hin.accepted hparts] at hones
          exact nomatch hones.1
      · by_contra hno
        obtain ⟨hne, hlast⟩ := not_or.mp hno
        have hpos : 0 < len.toNat :=
          Nat.pos_of_ne_zero fun hz => hne (eq_of_toNat_eq hz)
        rw [flashAreaWrite_of_error hin.accepted (alignedParts_of_inLastSector plainFlash
          (not_not.mp hlast) (src_ne_nil hpos))] at hones
        exact nomatch hones.1
    · simp only [FrameUpdate, if_neg hin] at hones
      rw [WriteSafe, if_neg hin]
      by_contra hno
      obtain ⟨hgt, hlast⟩ := not_or.mp hno
      obtain ⟨m', hparts, hset⟩ := alignedParts_sets (w := ⟨fun _ => 0#8, fa.off + off,
          (List.Vector.replicate len.toNat Byte.erased).toList⟩) plainFlash hlast
        (src_ne_nil (pos_of_accepted hgt hin)) (fun b hb => eq_of_mem_replicate hb)
      rw [flashAreaWrite_of_ok hgt hparts] at hones
      obtain rfl : m' = fun _ => 0#8 := hones.2
      exact absurd (show (0#8 : Byte) = Byte.erased from hset) (by decide)
  · intro hsafe c m src
    rw [WriteSafe] at hsafe
    split_ifs at hsafe with hin
    · exact frameUpdate_of_inArea hin hsafe.1 hsafe.2
    · exact frameUpdate_of_not_inArea hin hsafe

/-- **A wrapped bounds check.** Two bytes at offset `0xffffffff` of an area are accepted, and the
first is written in front of the area. -/
theorem write_in_front_of_area :
    let fa : FlashArea := ⟨0x20000#32, 0xe0000#32, by decide⟩
    let src : List.Vector Byte (2#32).toNat := ⟨[0xab#8, 0xcd#8], rfl⟩
    let r := flashAreaWrite plainFlash fa (fun _ => 0#8) 0xffffffff#32 src
    ¬InArea fa 0xffffffff#32 2#32 ∧ r.1 = .ok ∧ r.2 0x1ffff = 0xab#8 := by
  intro fa src r
  obtain ⟨m', hparts, hmapped⟩ := alignedParts_overwrite
    (w := ⟨fun _ => 0#8, fa.off + 0xffffffff#32, src.toList⟩) plainFlash (by decide) (by decide)
  have hr : r = (.ok, m') := flashAreaWrite_of_ok (by decide) hparts
  refine ⟨by decide, by rw [hr], ?_⟩
  rw [hr, ← FlashCrypto.mapped_of_inactive (c := plainFlash) rfl m', hmapped]
  decide

end WiseSdk.Flash
