import WiseSdk.Flash.Device
import WiseSdk.Library.ByteMemory

/-!
# Programming by pages

`spi_flash_write` cuts the buffer into chunks of the page size, counted from the start of the buffer
and not of a page. The chip programs a chunk within the page of its address: past the end of the
page it goes on at the page's start.

`byteAddr` is where byte `i` of the buffer arrives. It is never past the place meant for the byte
(`byteAddr_le`): a byte that misses its place and is not `0xff` leaves its place erased, unless a
later byte lands there (`spiFlashWrite_exact_iff`).
-/

namespace WiseSdk.Flash

open Library List

/-! ## The chip and the source's function -/

/-- A page program command: byte `i` goes to the `i`-th place after `addr`, counted around the
page. -/
def pageProgram (pageSize : ℕ) (mem : ByteMem) (addr : ℕ) (data : List Byte) : ByteMem :=
  program mem (data.zipIdx.map fun d => (addr - addr % pageSize + (addr + d.2) % pageSize, d.1))

/-- The number of bytes, `-1` with `errno = EINVAL`, or the result of the command that failed. -/
inductive WriteResult where
  | written (actual : ℕ)
  | einval
  | failed (ret : ℤ)
  deriving DecidableEq, Repr

/-- The `while` loop. `ret k` is what `spi_flash_write_sequence` returns for the `k`-th command; one
that fails was not executed. `buf` is what is left of the buffer, `size` its length. -/
def writeLoop (fl : SpiFlash) (ret : ℕ → ℤ) :
    ℕ → ℕ → BitVec 32 → List Byte → ℕ → ByteMem → Option (WriteResult × ByteMem)
  | 0, _, _, _, _, _ => none
  | fuel + 1, k, offset, buf, actual, mem =>
    if 0 < buf.length then
      let len := min buf.length fl.pageSize
      if ret k < 0 then some (.failed (ret k), mem)
      else writeLoop fl ret fuel (k + 1) (offset + BitVec.ofNat 32 len) (buf.drop len)
        (actual + len)
        (pageProgram fl.pageSize mem (spiFlashAddr offset).cmdAddr (buf.take len))
    else some (.written actual, mem)

/-- `spi_flash_write` from `bufAddr`, on a chip without its own `write` method. A buffer in the
mapped flash is refused. -/
def spiFlashWrite (fl : SpiFlash) (offset : BitVec 32) (bufAddr : BitVec 32) (buf : List Byte)
    (ret : ℕ → ℤ) (mem : ByteMem) : Option (WriteResult × ByteMem) :=
  if fl.memBase ≤ bufAddr ∧ bufAddr ≤ fl.memBase + fl.size then some (.einval, mem)
  else writeLoop fl ret (buf.length + 1) 0 offset buf 0 mem

/-! ## Where a byte arrives -/

def byteAddr (pageSize offset i : ℕ) : ℕ :=
  let addr := (offset + i / pageSize * pageSize) % 2 ^ 24
  addr - addr % pageSize + (addr + i % pageSize) % pageSize

section ByteAddr

variable {p offset i : ℕ}

theorem byteAddr_eq (hp : p ∣ 2 ^ 24) :
    byteAddr p offset i = if offset % p + i % p < p then (offset + i / p * p) % 2 ^ 24 + i % p
      else (offset + i / p * p) % 2 ^ 24 + i % p - p := by
  have hpos : 0 < p := Nat.pos_of_dvd_of_pos hp (Nat.two_pow_pos 24)
  have hmod : (offset + i / p * p) % 2 ^ 24 % p = offset % p := by
    rw [Nat.mod_mod_of_dvd _ hp, Nat.add_mul_mod_self_right]
  simp only [byteAddr]
  generalize (offset + i / p * p) % 2 ^ 24 = addr at hmod
  have hsum : (addr + i % p) % p = (offset % p + i % p) % p := by
    rw [Nat.add_mod addr, hmod, Nat.mod_mod]
  have hle : offset % p ≤ addr := hmod ▸ Nat.mod_le _ _
  have hoff := Nat.mod_lt offset hpos
  have hi := Nat.mod_lt i hpos
  rw [hmod, hsum]
  generalize offset % p = r at hle hoff
  generalize i % p = j at hi
  split
  · rw [Nat.mod_eq_of_lt ‹_›]
    omega
  · rw [Nat.mod_eq_sub_mod (by omega), Nat.mod_eq_of_lt (by omega)]
    omega

/-- **A byte never arrives past its place**, and arrives there if its chunk stays in the page and
the place has a 24-bit address. -/
theorem byteAddr_le (offset i : ℕ) (hp : p ∣ 2 ^ 24) : byteAddr p offset i ≤ offset + i ∧
    (byteAddr p offset i = offset + i ↔ offset % p + i % p < p ∧ offset + i < 2 ^ 24) := by
  have hpos : 0 < p := Nat.pos_of_dvd_of_pos hp (Nat.two_pow_pos 24)
  have hi := Nat.div_add_mod' i p
  rw [byteAddr_eq hp]
  generalize hq : i / p * p = q at hi
  split
  · rename_i hin
    refine ⟨by omega, ⟨fun h => ⟨hin, ?_⟩, fun ⟨_, hlt⟩ => by omega⟩⟩
    -- The page the chunk starts in ends at a multiple of the page size.
    have hbase : p ∣ offset + q - offset % p := by
      rw [show offset + q - offset % p = (offset - offset % p) + q by
        have := Nat.mod_le offset p
        omega]
      exact Nat.dvd_add (Nat.dvd_sub_mod offset) (hq ▸ Nat.dvd_mul_left p _)
    have hend := add_le_of_dvd hbase hp (by omega)
    omega
  · have hoff := Nat.mod_le offset p
    exact ⟨by omega, ⟨fun h => by omega, fun h => absurd h.1 ‹_›⟩⟩

theorem byteAddr_add_page (hpos : 0 < p) :
    byteAddr p (offset + p) i = byteAddr p offset (i + p) := by
  simp only [byteAddr, Nat.add_div_right i hpos, Nat.add_mod_right]
  rw [Nat.add_assoc, Nat.succ_mul, Nat.add_comm p]

theorem byteAddr_mod : byteAddr p (offset % 2 ^ 32) i = byteAddr p offset i := by
  have h : (offset % 2 ^ 32 + i / p * p) % 2 ^ 24 = (offset + i / p * p) % 2 ^ 24 := by omega
  simp only [byteAddr, h]

end ByteAddr

/-! ## The loop -/

def arrivals (pageSize offset : ℕ) (buf : List Byte) : List (ℕ × Byte) :=
  buf.zipIdx.map fun d => (byteAddr pageSize offset d.2, d.1)

theorem mem_arrivals {p offset : ℕ} {buf : List Byte} {a : ℕ × Byte} :
    a ∈ arrivals p offset buf ↔
      ∃ (i : ℕ) (h : i < buf.length), a = (byteAddr p offset i, buf[i]) := by
  simp only [arrivals, mem_map, Prod.exists, mem_zipIdx_iff_getElem?]
  constructor
  · rintro ⟨b, i, hb, rfl⟩
    obtain ⟨hi, rfl⟩ := List.getElem?_eq_some_iff.mp hb
    exact ⟨i, hi, rfl⟩
  · rintro ⟨i, hi, rfl⟩
    exact ⟨buf[i], i, getElem?_eq_getElem hi, rfl⟩

theorem byteAddr_chunk {p i : ℕ} (offset : BitVec 32) (hi : i < p) :
    byteAddr p offset.toNat i = (spiFlashAddr offset).cmdAddr -
      (spiFlashAddr offset).cmdAddr % p + ((spiFlashAddr offset).cmdAddr + i) % p := by
  simp only [byteAddr, cmdAddr_spiFlashAddr, Nat.div_eq_of_lt hi, Nat.mod_eq_of_lt hi,
    Nat.zero_mul, Nat.add_zero]

theorem arrivals_eq (fl : SpiFlash) (offset : BitVec 32) (buf : List Byte) :
    arrivals fl.pageSize offset.toNat buf =
      ((buf.take (min buf.length fl.pageSize)).zipIdx.map fun d =>
        ((spiFlashAddr offset).cmdAddr - (spiFlashAddr offset).cmdAddr % fl.pageSize +
          ((spiFlashAddr offset).cmdAddr + d.2) % fl.pageSize, d.1)) ++
      arrivals fl.pageSize (offset + BitVec.ofNat 32 (min buf.length fl.pageSize)).toNat
        (buf.drop (min buf.length fl.pageSize)) := by
  have hpos := fl.page_pos
  have hpage : fl.pageSize ≤ 2 ^ 24 := Nat.le_of_dvd (Nat.two_pow_pos 24) fl.page_dvd
  refine ext_getElem (by simp [arrivals]) fun i h₁ h₂ => ?_
  have hi : i < buf.length := by simpa [arrivals] using h₁
  rw [getElem_append]
  split
  · rename_i hlt
    have hchunk : i < fl.pageSize := by
      simp only [length_map, length_zipIdx, length_take] at hlt
      omega
    simp [arrivals, byteAddr_chunk offset hchunk]
  rename_i hge
  -- There is a rest only after a whole page.
  have hmin : min buf.length fl.pageSize = fl.pageSize := by
    simp only [length_map, length_zipIdx, length_take] at hge
    omega
  have hle : fl.pageSize ≤ i := by
    simp only [length_map, length_zipIdx, length_take] at hge
    omega
  have hnext : byteAddr fl.pageSize (offset + BitVec.ofNat 32 fl.pageSize).toNat
      (i - fl.pageSize) = byteAddr fl.pageSize offset.toNat i := by
    rw [BitVec.toNat_add, byteAddr_mod, BitVec.toNat_ofNat,
      Nat.mod_eq_of_lt (show fl.pageSize < 2 ^ 32 by omega), byteAddr_add_page hpos,
      Nat.sub_add_cancel hle]
  simp only [arrivals, getElem_map, getElem_zipIdx, length_map, length_zipIdx, length_take, hmin,
    Nat.min_eq_left (show fl.pageSize ≤ buf.length by omega), Nat.zero_add, hnext, getElem_drop,
    Nat.add_sub_cancel' hle]

section Loop

variable {fl : SpiFlash} {ret : ℕ → ℤ} {fuel k actual n : ℕ} {offset : BitVec 32}
  {buf : List Byte} {mem mem' : ByteMem}

theorem writeLoop_written
    (h : writeLoop fl ret fuel k offset buf actual mem = some (.written n, mem')) :
    n = actual + buf.length ∧ mem' = program mem (arrivals fl.pageSize offset.toNat buf) := by
  induction fuel generalizing k offset buf actual mem with
  | zero => cases h
  | succ fuel ih =>
    simp only [writeLoop] at h
    split_ifs at h with hpos
    · cases h
    · obtain ⟨hn, rfl⟩ := ih h
      rw [arrivals_eq fl offset buf, program_append]
      refine ⟨?_, rfl⟩
      rw [hn, length_drop]
      omega
    · cases h
      obtain rfl : buf = [] := length_eq_zero_iff.mp (by omega)
      exact ⟨rfl, rfl⟩

theorem writeLoop_returns (fl : SpiFlash) (k : ℕ) (offset : BitVec 32) (actual : ℕ)
    (mem : ByteMem) (hfuel : buf.length < fuel) (hret : ∀ k, 0 ≤ ret k) :
    ∃ mem', writeLoop fl ret fuel k offset buf actual mem =
      some (.written (actual + buf.length), mem') := by
  induction fuel generalizing k offset buf actual mem with
  | zero => omega
  | succ fuel ih =>
    simp only [writeLoop, if_neg (Int.not_lt.mpr (hret k))]
    split_ifs with hpos
    · have hpage := fl.page_pos
      have hlen : (buf.drop (min buf.length fl.pageSize)).length < fuel := by
        rw [length_drop]
        omega
      obtain ⟨mem', h⟩ := ih (k + 1) (offset + BitVec.ofNat 32 (min buf.length fl.pageSize))
        (actual + min buf.length fl.pageSize) (pageProgram fl.pageSize mem
          (spiFlashAddr offset).cmdAddr (buf.take (min buf.length fl.pageSize))) hlen
      rw [length_drop] at h
      exact ⟨mem', by rw [h]; congr 3; omega⟩
    · exact ⟨mem, by simp [length_eq_zero_iff.mp (show buf.length = 0 by omega)]⟩

end Loop

/-! ## Exact writes -/

/-- Byte `i` is programmed in its place: its chunk has stayed in its page, and the place has a
24-bit address. -/
def InPlace (fl : SpiFlash) (offset : BitVec 32) (i : ℕ) : Prop :=
  offset.toNat % fl.pageSize + i % fl.pageSize < fl.pageSize ∧ offset.toNat + i < 2 ^ 24

def Erased (mem : ByteMem) (offset n : ℕ) : Prop := ∀ i < n, mem (offset + i) = Byte.erased

section Exact

variable {fl : SpiFlash} {offset : BitVec 32} {buf : List Byte} {mem : ByteMem}

theorem program_arrivals_of_inPlace (herased : Erased mem offset.toNat buf.length)
    (h : ∀ (i : ℕ) (hi : i < buf.length), InPlace fl offset i ∨ buf[i] = Byte.erased) :
    program mem (arrivals fl.pageSize offset.toNat buf) = overwrite mem offset.toNat buf := by
  have hplace := fun i => byteAddr_le offset.toNat i fl.page_dvd
  funext x
  by_cases hx : offset.toNat ≤ x ∧ x < offset.toNat + buf.length
  · obtain ⟨i, rfl⟩ := Nat.exists_eq_add_of_le hx.1
    have hi : i < buf.length := by omega
    rw [overwrite_add mem offset.toNat hi]
    -- What arrives here from another byte of the buffer is `0xff`.
    have hother : ∀ a ∈ arrivals fl.pageSize offset.toNat buf, a.1 = offset.toNat + i →
        a.2 = Byte.erased ∨ a.2 = buf[i] := by
      rintro a ha hax
      obtain ⟨j, hj, rfl⟩ := mem_arrivals.mp ha
      rcases h j hj with hin | hff
      · have := (hplace j).2.mpr hin
        obtain rfl : j = i := by
          omega
        exact .inr rfl
      · exact .inl hff
    rcases h i hi with hin | hff
    · refine program_eq (herased i hi) ?_ hother
      exact mem_arrivals.mpr ⟨i, hi, by rw [(hplace i).2.mpr hin]⟩
    · rw [program_of_ones fun a ha hax => (hother a ha hax).elim id fun hv => hv.trans hff,
        herased i hi, hff]
  · rw [overwrite_of_not_mem hx]
    refine program_of_ones fun a ha hax => ?_
    obtain ⟨j, hj, rfl⟩ := mem_arrivals.mp ha
    refine (h j hj).resolve_left fun hin => hx ?_
    have := (hplace j).2.mpr hin
    omega

/-- A byte out of its place that is not `0xff` is missed there: only a byte from further on could
have arrived, and it would be out of its place too. -/
theorem inPlace_of_program_arrivals (herased : Erased mem offset.toNat buf.length)
    (h : program mem (arrivals fl.pageSize offset.toNat buf) = overwrite mem offset.toNat buf)
    (i : ℕ) (hi : i < buf.length) : InPlace fl offset i ∨ buf[i] = Byte.erased := by
  by_contra hout
  push Not at hout
  obtain ⟨hmiss, hne⟩ := hout
  have hx := congrFun h (offset.toNat + i)
  rw [overwrite_add mem offset.toNat hi] at hx
  have hchanged : program mem (arrivals fl.pageSize offset.toNat buf) (offset.toNat + i) ≠
      mem (offset.toNat + i) := by
    rw [hx, herased i hi]
    exact hne
  obtain ⟨a, ha, hax, hane⟩ := exists_of_program_ne hchanged
  obtain ⟨j, hj, rfl⟩ := mem_arrivals.mp ha
  obtain ⟨hle, hiff⟩ := byteAddr_le offset.toNat j fl.page_dvd
  have hij : i < j := by
    refine Nat.lt_of_le_of_ne (by omega) ?_
    rintro rfl
    exact hmiss (hiff.mp hax)
  rcases inPlace_of_program_arrivals herased h j hj with hin | hff
  · have := hiff.mpr hin
    omega
  · exact hane hff
termination_by buf.length - i

end Exact

/-- **Programming honours pages exactly as far as the chunks do.** A successful `spi_flash_write` to
an erased range has put the buffer there and changed nothing else, if and only if every byte that
its chunk carries past the end of a page, or past the 24-bit addresses, is `0xff`. It succeeds
whenever no command fails and the buffer is not in the flash. -/
theorem spiFlashWrite_exact_iff (fl : SpiFlash) (offset bufAddr : BitVec 32) (buf : List Byte)
    (ret : ℕ → ℤ) (mem : ByteMem) (herased : Erased mem offset.toNat buf.length) :
    (∀ n mem', spiFlashWrite fl offset bufAddr buf ret mem = some (.written n, mem') →
      n = buf.length ∧ (mem' = overwrite mem offset.toNat buf ↔
        ∀ (i : ℕ) (hi : i < buf.length), InPlace fl offset i ∨ buf[i] = Byte.erased)) ∧
    ((∀ k, 0 ≤ ret k) → ¬(fl.memBase ≤ bufAddr ∧ bufAddr ≤ fl.memBase + fl.size) →
      ∃ mem', spiFlashWrite fl offset bufAddr buf ret mem = some (.written buf.length, mem')) := by
  refine ⟨fun n mem' h => ?_, fun hret hbuf => ?_⟩
  · rw [spiFlashWrite] at h
    split at h
    · cases h
    · obtain ⟨hn, rfl⟩ := writeLoop_written h
      refine ⟨by omega, inPlace_of_program_arrivals herased, program_arrivals_of_inPlace herased⟩
  · rw [spiFlashWrite, if_neg hbuf]
    obtain ⟨mem', h⟩ := writeLoop_returns fl 0 offset 0 mem (Nat.lt_succ_self buf.length) hret
    exact ⟨mem', by simpa using h⟩

/-- Three bytes inside a page. -/
theorem spiFlashWrite_exact_sample :
    ∃ mem', spiFlashWrite (uniformFlash 0x800000#32) 0x10fd#32 0#32 [1#8, 2#8, 3#8] (fun _ => 0)
        (fun _ => Byte.erased) = some (.written 3, mem') ∧
      mem' = overwrite (fun _ => Byte.erased) 0x10fd [1#8, 2#8, 3#8] := by
  have herased : Erased (fun _ => Byte.erased) (0x10fd#32).toNat [1#8, 2#8, 3#8].length :=
    fun _ _ => rfl
  obtain ⟨hexact, hreturns⟩ := spiFlashWrite_exact_iff (uniformFlash 0x800000#32) 0x10fd#32 0#32
    [1#8, 2#8, 3#8] (fun _ => 0) (fun _ => Byte.erased) herased
  obtain ⟨mem', h⟩ := hreturns (fun _ => Int.le_refl 0) (by decide)
  refine ⟨mem', h, (hexact _ _ h).2.mpr fun i hi => .inl ?_⟩
  match i, hi with
  | 0, _ | 1, _ | 2, _ => exact ⟨by decide, by decide⟩

/-- **A write across a page boundary comes back to the start of the page.** Of two bytes at offset
`0xff` the second is programmed at offset `0`. -/
theorem write_across_page_wraps :
    ∃ mem', spiFlashWrite (uniformFlash 0x800000#32) 0xff#32 0#32 [0x12#8, 0x34#8] (fun _ => 0)
        (fun _ => Byte.erased) = some (.written 2, mem') ∧
      mem' 0xff = 0x12#8 ∧ mem' 0 = 0x34#8 ∧ mem' 0x100 = Byte.erased ∧
      mem' ≠ overwrite (fun _ => Byte.erased) 0xff [0x12#8, 0x34#8] := by
  refine ⟨_, rfl, by decide, by decide, by decide, fun h => ?_⟩
  exact absurd (congrFun h 0) (by decide)

end WiseSdk.Flash
