import Mathlib.Data.Fintype.Basic
import WiseSdk.Library.Dyadic

/-!
# The serial flash: device description and command addresses

The part of `struct spi_flash` (`include/hal/spi-flash.h`) that the erase and program paths of
`hal/drivers/spi-flash/spi-flash.c` read, with 32-bit offsets and sizes.

The structure carries two facts. The erase types that a region allows have power-of-two sizes: they
come from an exponent in the SFDP tables (Serial Flash Discoverable Parameters), or from fixed
tables. (A sector map may also name a type that the chip does not have; see
`WiseSdk.Flash.EraseMap`.) The page size divides the 24-bit address space: it is an exponent of at
most 15, or 256.

A command carries its address in three bytes (`spiFlashAddr`), so it names an offset below `2 ^ 24`
whatever the 32-bit word was.
-/

namespace WiseSdk.Flash

open Library

structure EraseMethod where
  size : BitVec 32
  opcode : BitVec 8
  timeout : BitVec 32
  deriving DecidableEq, Repr

/-- `struct erase_region`; bit `i` of `method` allows erase type `i`. -/
structure EraseRegion where
  start : BitVec 32
  size : BitVec 32
  method : BitVec 4
  deriving DecidableEq, Repr

/-- `erase_info` and `region` of a flash. -/
structure EraseMap where
  eraseInfo : Fin 4 → EraseMethod
  region : List EraseRegion

structure SpiFlash extends EraseMap where
  memBase : BitVec 32
  size : BitVec 32
  pageSize : ℕ
  powerOfTwo : ∀ r ∈ region, ∀ i : Fin 4, r.method.getLsbD i →
    PowerOfTwo (eraseInfo i).size.toNat
  page_dvd : pageSize ∣ 2 ^ 24

theorem SpiFlash.page_pos (fl : SpiFlash) : 0 < fl.pageSize :=
  Nat.pos_of_dvd_of_pos fl.page_dvd (Nat.two_pow_pos 24)

def uniformFlash (bytes : BitVec 32) : SpiFlash where
  memBase := 0x80000000#32
  size := bytes
  eraseInfo i := match i with
    | 0 => ⟨0x1000#32, 0x20#8, 1000000#32⟩
    | 1 => ⟨0x8000#32, 0x52#8, 1000000#32⟩
    | 2 => ⟨0x10000#32, 0xd8#8, 1000000#32⟩
    | 3 => ⟨0#32, 0#8, 0#32⟩
  region := [⟨0#32, bytes, 0b0111#4⟩]
  pageSize := 256
  powerOfTwo r hr i hi := by
    obtain rfl := List.mem_singleton.mp hr
    match i with
    | 0 => exact ⟨12, rfl⟩
    | 1 => exact ⟨15, rfl⟩
    | 2 => exact ⟨16, rfl⟩
    | 3 => exact absurd hi (show ¬(0b0111#4).getLsbD 3 by decide)
  page_dvd := ⟨2 ^ 16, rfl⟩

/-- The three address bytes of a command, most significant first. -/
structure AddrBytes where
  high : BitVec 8
  mid : BitVec 8
  low : BitVec 8
  deriving DecidableEq, Repr

/-- `spi_flash_addr`: each assignment keeps the low byte of the shifted word. -/
def spiFlashAddr (addr : BitVec 32) : AddrBytes where
  high := (addr >>> 16).setWidth 8
  mid := (addr >>> 8).setWidth 8
  low := (addr >>> 0).setWidth 8

def AddrBytes.cmdAddr (b : AddrBytes) : ℕ :=
  b.high.toNat * 2 ^ 16 + b.mid.toNat * 2 ^ 8 + b.low.toNat

/-- **A command addresses the low 24 bits.** -/
@[simp] theorem cmdAddr_spiFlashAddr (addr : BitVec 32) :
    (spiFlashAddr addr).cmdAddr = addr.toNat % 2 ^ 24 := by
  simp only [AddrBytes.cmdAddr, spiFlashAddr, BitVec.toNat_setWidth, BitVec.toNat_ushiftRight,
    Nat.shiftRight_eq_div_pow]
  omega

end WiseSdk.Flash
