import WiseSdk.Flash.AreaWrite

/-!
# Erasing a range of a flash area

`flash_area_erase` sets a range of a slot to `0xff` by writing it sector by sector with
`flash_area_write`.  Every one of these writes checks its own bounds and asks for its own memory: a
block for the parts of sectors, and a buffer to encrypt each sector in, after it has been erased.
The loop and the write behind it are the same as writing the *pieces* of the range in turn
(`flashAreaErase_eq`). A piece is refused as a whole (`writeOnes_of_refused`), written
(`writeOnes_exact`), or spoils a sector (`writeOnes_of_spoiled`).

So a refusal of the first piece leaves the flash alone, and a refusal of a later one comes when
the pieces before it are erased already.
-/

namespace WiseSdk.Flash

open Library List
open BitVec hiding not_or not_not

/-! ## Writes that may not get memory -/

/-- What `malloc` answers `aligned_write`: for its block, and for the encryption of each sector. -/
structure WriteMem where
  block : Bool
  enc : BitVec 32 → Bool

/-- The parts of `aligned_write`, which asks for its block in front of its head, or else of its
tail. -/
def alignedPartsIn (mem : WriteMem) (c : FlashCrypto) (w : Writer) : Except ByteMem ByteMem :=
  if (w.offset + sectorMask) &&& ~~~sectorMask > w.offset then
    if mem.block then alignedParts c w mem.enc else .error w.mem
  else
    match writeSectors c w mem.enc with
    | .error m => .error m
    | .ok w' =>
      if 0 < w'.buf.length ∧ mem.block = false then .error w'.mem else writeTail c w' mem.enc

/-- `flash_area_write` with the memory that it asks for. -/
def flashAreaWriteIn (mem : WriteMem) (c : FlashCrypto) (fa : FlashArea) (m : ByteMem)
    (off : BitVec 32) {len : BitVec 32} (src : List.Vector Byte len.toNat) :
    AreaResult × ByteMem :=
  if off + len > fa.size then (.error, m)
  else
    match alignedPartsIn mem c ⟨m, fa.off + off, src.toList⟩ with
    | .ok m' => (if len.toInt < 0 then .error else .ok, m')
    | .error m' => (.error, m')

/-- `flash_area_write` of `n` bytes of `buffer`, which is set to `erase_val`. -/
def writeOnes (mem : WriteMem) (c : FlashCrypto) (fa : FlashArea) (m : ByteMem)
    (off n : BitVec 32) : AreaResult × ByteMem :=
  flashAreaWriteIn mem c fa m off (List.Vector.replicate n.toNat Byte.erased)

/-! ## The source's function -/

def sectorSize : ℕ := 4096

theorem sectorSize_eq : sectorSize = 4096 := rfl

/-- What `malloc` answers `flash_area_erase`: for `buffer`, and in the write at each offset. -/
structure EraseMem where
  buffer : Bool
  write : ℕ → WriteMem

section Source

variable (alloc : EraseMem) (c : FlashCrypto) (fa : FlashArea) (off len : BitVec 32)

/-- The loop of `flash_area_erase` from `i` on: the result of its last write, `i` and the flash; `i
+ sector_size` stays below `len`. -/
def areaEraseLoop (i : ℕ) (m : ByteMem) : AreaResult × ℕ × ByteMem :=
  match writeOnes (alloc.write i) c fa m (off + BitVec.ofNat 32 i)
      (BitVec.ofNat 32 sectorSize) with
  | (ret, m') =>
    if ret = .ok ∧ i + sectorSize < (len - BitVec.ofNat 32 sectorSize).toNat then
      areaEraseLoop (i + sectorSize) m'
    else (ret, i + sectorSize, m')
termination_by (len - BitVec.ofNat 32 sectorSize).toNat - i
decreasing_by
  have := sectorSize_eq
  omega

def eraseLast : AreaResult × ℕ × ByteMem → AreaResult × ByteMem
  | (.ok, i, m) =>
    if len - BitVec.ofNat 32 i ≠ 0#32 then
      writeOnes (alloc.write i) c fa m (off + BitVec.ofNat 32 i)
        (len - BitVec.ofNat 32 i)
    else (.ok, m)
  | (.error, _, m) => (.error, m)

def flashAreaErase (m : ByteMem) : AreaResult × ByteMem :=
  if alloc.buffer = false then (.error, m)
  else if len < BitVec.ofNat 32 sectorSize then writeOnes (alloc.write 0) c fa m off len
  else eraseLast alloc c fa off len (areaEraseLoop alloc c fa off len 0 m)

/-! ## The pieces of the range -/

def pieceLen (i : ℕ) : BitVec 32 := BitVec.ofNat 32 (min sectorSize (len.toNat - i))

def writePiece (i : ℕ) (m : ByteMem) : AreaResult × ByteMem :=
  writeOnes (alloc.write i) c fa m (off + BitVec.ofNat 32 i) (pieceLen len i)

/-- The pieces from the one at `i` on, up to the first one that fails. -/
def erasePieces (i : ℕ) (m : ByteMem) : AreaResult × ByteMem :=
  match writePiece alloc c fa off len i m with
  | (ret, m') =>
    if ret = .ok ∧ i + sectorSize < len.toNat then erasePieces (i + sectorSize) m' else (ret, m')
termination_by len.toNat - i
decreasing_by
  have := sectorSize_eq
  omega

end Source

variable {alloc : EraseMem} {mem : WriteMem} {c : FlashCrypto} {fa : FlashArea} {w : Writer}
variable {off len n : BitVec 32} {m m' : ByteMem} {i k j : ℕ}

theorem toNat_pieceLen (len : BitVec 32) (i : ℕ) :
    (pieceLen len i).toNat = min sectorSize (len.toNat - i) := by
  rw [pieceLen, toNat_ofNat]
  omega

theorem pieceLen_eq (h : n.toNat = min sectorSize (len.toNat - i)) : pieceLen len i = n :=
  eq_of_toNat_eq (by rw [toNat_pieceLen, h])

theorem toNat_sub_ofNat (hk : k ≤ len.toNat) : (len - BitVec.ofNat 32 k).toNat = len.toNat - k := by
  rw [toNat_sub, toNat_ofNat]
  omega

theorem erasePieces_of_le (hi : len.toNat ≤ i + sectorSize) :
    erasePieces alloc c fa off len i m = writePiece alloc c fa off len i m := by
  rw [erasePieces]
  exact if_neg fun h => absurd h.2 (Nat.not_lt.mpr hi)

theorem erasePieces_ok (hwrite : writePiece alloc c fa off len i m = (.ok, m')) :
    erasePieces alloc c fa off len i m = if i + sectorSize < len.toNat then
      erasePieces alloc c fa off len (i + sectorSize) m' else (.ok, m') := by
  rw [erasePieces, hwrite]
  simp

theorem piece_induction (len : BitVec 32) {motive : ℕ → Prop}
    (step : ∀ i, (i + sectorSize < len.toNat → motive (i + sectorSize)) → motive i) (i : ℕ) :
    motive i := by
  have hsize := sectorSize_eq
  induction hn : len.toNat - i using Nat.strongRecOn generalizing i with
  | _ n ih => exact step i fun hlt => ih _ (by omega) (i + sectorSize) rfl

/-- The loop and the last write together write the pieces. -/
theorem eraseLast_areaEraseLoop (i : ℕ) (m : ByteMem) (hi : i + sectorSize ≤ len.toNat) :
    eraseLast alloc c fa off len (areaEraseLoop alloc c fa off len i m) =
      erasePieces alloc c fa off len i m := by
  induction i using piece_induction len generalizing m with | step i ih => ?_
  have hpiece : pieceLen len i = BitVec.ofNat 32 sectorSize := by
    refine pieceLen_eq ?_
    rw [toNat_ofNat]
    omega
  unfold areaEraseLoop
  rw [erasePieces, writePiece, hpiece]
  generalize writeOnes (alloc.write i) c fa m (off + BitVec.ofNat 32 i)
      (BitVec.ofNat 32 sectorSize) = r
  obtain ⟨result, m'⟩ := r
  cases result with
  | error => simp [eraseLast]
  | ok =>
    simp only [toNat_sub_ofNat (show sectorSize ≤ len.toNat by omega), true_and]
    by_cases hmore : i + sectorSize < len.toNat - sectorSize
    · rw [if_pos hmore, if_pos (by omega)]
      exact ih (by omega) m' (by omega)
    -- The loop is over: at most one piece is left, and the last write writes it.
    have hsub := toNat_sub_ofNat hi
    have hrest : len - BitVec.ofNat 32 (i + sectorSize) ≠ 0#32 ↔
        i + sectorSize < len.toNat := by
      rw [ne_eq, ← toNat_inj, hsub, toNat_ofNat]
      omega
    rw [if_neg hmore, eraseLast]
    simp only [hrest]
    split_ifs with hlast
    · have hpiece' : pieceLen len (i + sectorSize) = len - BitVec.ofNat 32 (i + sectorSize) :=
        pieceLen_eq (by rw [hsub]; omega)
      rw [erasePieces_of_le (by omega), writePiece, hpiece']
    · rfl

/-- **An erase writes the pieces of its range**, if it gets its buffer. -/
theorem flashAreaErase_eq (hbuffer : alloc.buffer = true) (m : ByteMem) :
    flashAreaErase alloc c fa off len m = erasePieces alloc c fa off len 0 m := by
  rw [flashAreaErase, if_neg (by simp [hbuffer])]
  split_ifs with hshort
  · have hlt : len.toNat < sectorSize := hshort
    have hpiece : pieceLen len 0 = len := pieceLen_eq (by omega)
    rw [erasePieces_of_le (by omega), writePiece, hpiece, BitVec.add_zero]
  · have hge : sectorSize ≤ len.toNat := Nat.not_lt.mp hshort
    exact eraseLast_areaEraseLoop 0 m (by omega)

/-! ## What one write of a piece does -/

/-- `aligned_write` asks for a block: it has a head, or a tail. -/
def NeedsBlock (start : BitVec 32) (n : ℕ) : Prop :=
  start.toNat % 4096 ≠ 0 ∧ ¬InLastSector start ∨ n % 4096 ≠ 0

/-- The write of `n` bytes is refused by the bounds check, which adds in 32 bits; at a start in the
last sector of the address space; or for want of memory for its block. -/
def Refused (mem : WriteMem) (fa : FlashArea) (off n : BitVec 32) : Prop :=
  fa.size < off + n ∨ n ≠ 0#32 ∧ InLastSector (fa.off + off) ∨
    mem.block = false ∧ NeedsBlock (fa.off + off) n.toNat

/-- A write of up to a sector rewrites the sector of its start, and the next one if it reaches
there. -/
def Rewrites (start : BitVec 32) (n : ℕ) : Prop :=
  ¬InLastSector start ∧ (0 < n ∨ start.toNat % 4096 ≠ 0)

/-- The flash is encrypted, and there is no memory to encrypt one of the sectors with; it has been
erased by then. -/
def Spoiled (enc : BitVec 32 → Bool) (c : FlashCrypto) (start : BitVec 32) (n : ℕ) : Prop :=
  c.active = true ∧ Rewrites start n ∧ (enc (start &&& ~~~sectorMask) = false ∨
    4096 < start.toNat % 4096 + n ∧ enc ((start &&& ~~~sectorMask) + esize) = false)

def rewriteSpan (enc : BitVec 32 → Bool) (c : FlashCrypto) (w : Writer) :
    Except ByteMem ByteMem := do
  let sector := w.offset &&& ~~~sectorMask
  let k := min w.buf.length (4096 - w.offset.toNat % 4096)
  let m ← rewriteSector c w.mem sector (splice (flashBackendRead c w.mem sector 4096)
    (w.offset.toNat % 4096) (w.buf.take k)) enc
  if k < w.buf.length then
    rewriteSector c m (sector + esize)
      (splice (flashBackendRead c m (sector + esize) 4096) 0 (w.buf.drop k)) enc
  else return m

section Parts

theorem writeSectors_of_lt {enc : BitVec 32 → Bool} (h : w.buf.length < 4096) :
    writeSectors c w enc = .ok w := by
  rw [writeSectors, if_neg (by rw [esize_toNat]; omega)]

theorem alignedPartsIn_head (hhead : w.offset.toNat % 4096 ≠ 0 ∧ ¬InLastSector w.offset)
    (hle : w.buf.length ≤ 4096) (hblock : mem.block = true) :
    alignedPartsIn mem c w = rewriteSpan mem.enc c w := by
  have hgt := (head_iff _).mpr hhead
  have hrest : ∀ k, k = min w.buf.length (4096 - w.offset.toNat % 4096) →
      (w.buf.drop k).length < 4096 := by
    intro k hk
    rw [length_drop]
    omega
  rw [alignedPartsIn, if_pos hgt, if_pos hblock, alignedParts, rewriteSpan]
  simp only [writeHead, if_pos hgt, toNat_and_sectorMask, esize_toNat]
  generalize hk : min w.buf.length (4096 - w.offset.toNat % 4096) = k
  cases rewriteSector c w.mem (w.offset &&& ~~~sectorMask)
      (splice (flashBackendRead c w.mem (w.offset &&& ~~~sectorMask) 4096)
        (w.offset.toNat % 4096) (w.buf.take k)) mem.enc with
  | error m => rfl
  | ok m =>
    change writeSectors c ⟨m, w.offset + BitVec.ofNat 32 k, w.buf.drop k⟩ mem.enc >>= _ = _
    rw [writeSectors_of_lt (hrest k hk.symm)]
    change writeTail c ⟨m, w.offset + BitVec.ofNat 32 k, w.buf.drop k⟩ mem.enc = _
    have hlen : (w.buf.drop k).length = w.buf.length - k := length_drop
    rw [writeTail]
    by_cases hmore : k < w.buf.length
    · have hnext : w.offset + BitVec.ofNat 32 k = (w.offset &&& ~~~sectorMask) + esize := by
        refine eq_of_toNat_eq ?_
        have hrw := toNat_and_not_sectorMask w.offset
        rw [toNat_add, toNat_add, hrw, toNat_ofNat, esize_toNat]
        omega
      rw [if_pos (by simp only [hlen]; omega), hnext, esize_toNat]
      exact (if_pos hmore).symm
    · rw [if_neg (by simp only [hlen]; omega)]
      exact (if_neg hmore).symm

theorem alignedPartsIn_aligned (hmod : w.offset.toNat % 4096 = 0) (hpos : 0 < w.buf.length)
    (hle : w.buf.length ≤ 4096) (hblock : ¬(mem.block = false ∧ w.buf.length % 4096 ≠ 0)) :
    alignedPartsIn mem c w = rewriteSpan mem.enc c w := by
  have hsector : w.offset &&& ~~~sectorMask = w.offset := by
    refine eq_of_toNat_eq ?_
    rw [toNat_and_not_sectorMask, hmod, Nat.sub_zero]
  have hk : min w.buf.length (4096 - 0) = w.buf.length := Nat.min_eq_left hle
  have hspan : rewriteSpan mem.enc c w = rewriteSector c w.mem w.offset
      (splice (flashBackendRead c w.mem w.offset 4096) 0 w.buf) mem.enc := by
    rw [rewriteSpan]
    simp only [hsector, hmod, hk, take_length, Nat.lt_irrefl, if_false]
    cases rewriteSector c w.mem w.offset
      (splice (flashBackendRead c w.mem w.offset 4096) 0 w.buf) mem.enc <;> rfl
  rw [hspan, alignedPartsIn, if_neg fun hgt => ((head_iff _).mp hgt).1 hmod]
  rcases Nat.lt_or_ge w.buf.length 4096 with hlt | hge
  · rw [writeSectors_of_lt hlt]
    simp only
    rw [if_neg fun h => hblock ⟨h.2, by omega⟩, writeTail, if_pos hpos, esize_toNat]
  -- A whole sector is written without reading it.
  have hlen : w.buf.length = 4096 := Nat.le_antisymm hle hge
  have hblockEq : splice (flashBackendRead c w.mem w.offset 4096) 0 w.buf = w.buf := by
    rw [splice, take_zero, nil_append, drop_eq_nil_of_le, append_nil]
    rw [flashBackendRead_eq, length_readBytes]
    omega
  rw [hblockEq, writeSectors, if_pos (by rw [esize_toNat]; omega), esize_toNat,
    take_of_length_le hle]
  cases rewriteSector c w.mem w.offset w.buf mem.enc with
  | error m => rfl
  | ok m =>
    have hnil : w.buf.drop 4096 = [] := drop_eq_nil_of_le hle
    simp only [hnil]
    rw [writeSectors_of_lt (by simp)]
    simp [writeTail]

theorem alignedPartsIn_nil (hbuf : w.buf = []) (hnot : ¬Rewrites w.offset 0) :
    alignedPartsIn mem c w = .ok w.mem := by
  have hhead : ¬(w.offset + sectorMask) &&& ~~~sectorMask > w.offset := by
    intro hgt
    obtain ⟨hmod, hlast⟩ := (head_iff _).mp hgt
    exact hnot ⟨hlast, .inr hmod⟩
  rw [alignedPartsIn, if_neg hhead, writeSectors_of_lt (by simp [hbuf])]
  simp [hbuf, writeTail]

theorem alignedPartsIn_eq (hle : w.buf.length ≤ 4096) (hspan : Rewrites w.offset w.buf.length)
    (hblock : ¬(mem.block = false ∧ NeedsBlock w.offset w.buf.length)) :
    alignedPartsIn mem c w = rewriteSpan mem.enc c w := by
  obtain ⟨hlast, hsome⟩ := hspan
  by_cases hmod : w.offset.toNat % 4096 = 0
  · exact alignedPartsIn_aligned hmod (hsome.resolve_right (not_not_intro hmod)) hle
      fun h => hblock ⟨h.1, .inr h.2⟩
  · refine alignedPartsIn_head ⟨hmod, hlast⟩ hle ?_
    by_contra hno
    exact hblock ⟨by simpa using hno, .inl ⟨hmod, hlast⟩⟩

theorem alignedPartsIn_true (c : FlashCrypto) (w : Writer) :
    alignedPartsIn ⟨true, fun _ => true⟩ c w = alignedParts c w := by
  rw [alignedPartsIn]
  by_cases hhead : (w.offset + sectorMask) &&& ~~~sectorMask > w.offset
  · rw [if_pos hhead, if_pos rfl]
  rw [if_neg hhead, alignedParts, writeHead, if_neg hhead]
  change _ = writeSectors c w >>= fun w => writeTail c w
  cases writeSectors c w with
  | error m => rfl
  | ok w' => simp; rfl

/-- Without a head and a block, or at a start that is not aligned, nothing is written. -/
theorem alignedPartsIn_refused (hle : w.buf.length ≤ 4096)
    (h : 0 < w.buf.length ∧ InLastSector w.offset ∨
      mem.block = false ∧ NeedsBlock w.offset w.buf.length) :
    alignedPartsIn mem c w = .error w.mem := by
  rw [alignedPartsIn]
  by_cases hhead : (w.offset + sectorMask) &&& ~~~sectorMask > w.offset
  · have hno := (h.resolve_left fun h => ((head_iff _).mp hhead).2 h.2).1
    rw [if_pos hhead, hno, if_neg Bool.false_ne_true]
  rw [if_neg hhead]
  rcases Nat.lt_or_ge w.buf.length 4096 with hlt | hge
  · rw [writeSectors_of_lt hlt]
    simp only
    split_ifs with hblock
    · rfl
    · obtain ⟨hpos, hlast⟩ : 0 < w.buf.length ∧ InLastSector w.offset := by
        refine h.resolve_right fun hno => hblock ⟨?_, hno.1⟩
        have htail := hno.2.resolve_left fun h => hhead ((head_iff _).mpr h)
        omega
      rw [writeTail, if_pos hpos, rewriteSector_refused]
      simp only [InLastSector] at hlast
      omega
  · obtain ⟨-, hlast⟩ : 0 < w.buf.length ∧ InLastSector w.offset := by
      refine h.resolve_right fun hno => ?_
      have htail := hno.2.resolve_left fun h => hhead ((head_iff _).mpr h)
      omega
    rw [writeSectors, if_pos (by rw [esize_toNat]; omega), rewriteSector_refused]
    simp only [InLastSector] at hlast
    omega

end Parts

section Span

variable {enc : BitVec 32 → Bool} {addr : BitVec 32} {eblock : List Byte}

theorem rewriteSector_of_enc (h : c.active = true → enc addr = true) :
    rewriteSector c m addr eblock enc = rewriteSector c m addr eblock := by
  have hwrite : ∀ m', flashBackendWrite c m' addr eblock (enc addr) =
      flashBackendWrite c m' addr eblock := by
    intro m'
    cases hon : c.active with
    | false => simp [flashBackendWrite, hon]
    | true => rw [h hon]
  simp only [rewriteSector, hwrite]

theorem rewriteSector_of_not_enc (haddr : addr.toNat % 4096 = 0) (hon : c.active = true)
    (henc : enc addr = false) :
    rewriteSector c m addr eblock enc = .error (eraseRange m addr.toNat 4096) := by
  simp [rewriteSector, flashBackendErase, haddr, flashBackendWrite, hon, henc]

/-- What a sector was before it is rewritten does not matter. -/
theorem rewriteSector_congr (haddr : addr.toNat % 4096 = 0)
    (h : eraseRange m addr.toNat 4096 = eraseRange m' addr.toNat 4096) :
    rewriteSector c m addr eblock enc = rewriteSector c m' addr eblock enc := by
  simp only [rewriteSector, flashBackendErase, if_pos haddr, h]

theorem sector_aligned (a : BitVec 32) : (a &&& ~~~sectorMask).toNat % 4096 = 0 := by
  rw [toNat_and_not_sectorMask]
  omega

theorem next_aligned (a : BitVec 32) : ((a &&& ~~~sectorMask) + esize).toNat % 4096 = 0 := by
  have := sector_aligned a
  rw [toNat_add, esize_toNat]
  omega

theorem min_lt_iff (r len : ℕ) (hr : r < 4096) : min len (4096 - r) < len ↔ 4096 < r + len := by
  omega

theorem rewriteSpan_of_not_spoiled (hspan : Rewrites w.offset w.buf.length)
    (h : ¬Spoiled enc c w.offset w.buf.length) :
    rewriteSpan enc c w = rewriteSpan (fun _ => true) c w := by
  have hfirst : c.active = true → enc (w.offset &&& ~~~sectorMask) = true := by
    intro hon
    by_contra hno
    exact h ⟨hon, hspan, .inl (by simpa using hno)⟩
  simp only [rewriteSpan, rewriteSector_of_enc hfirst]
  refine bind_congr fun m => ?_
  split_ifs with hmore
  · refine rewriteSector_of_enc fun hon => ?_
    by_contra hno
    rw [min_lt_iff _ _ (Nat.mod_lt _ (by decide))] at hmore
    exact h ⟨hon, hspan, .inr ⟨hmore, by simpa using hno⟩⟩
  · rfl

theorem rewriteSpan_of_spoiled (h : Spoiled enc c w.offset w.buf.length) :
    ∃ m', rewriteSpan enc c w = .error m' := by
  obtain ⟨hon, -, henc⟩ := h
  rw [rewriteSpan]
  cases hfirst : rewriteSector c w.mem (w.offset &&& ~~~sectorMask)
      (splice (flashBackendRead c w.mem (w.offset &&& ~~~sectorMask) 4096)
        (w.offset.toNat % 4096)
        (w.buf.take (min w.buf.length (4096 - w.offset.toNat % 4096)))) enc with
  | error m => exact ⟨m, rfl⟩
  | ok m =>
    rcases henc with henc | ⟨hmore, henc⟩
    · rw [rewriteSector_of_not_enc (sector_aligned _) hon henc] at hfirst
      cases hfirst
    · refine ⟨eraseRange m ((w.offset &&& ~~~sectorMask) + esize).toNat 4096, ?_⟩
      rw [← min_lt_iff _ _ (Nat.mod_lt _ (by decide))] at hmore
      rw [← rewriteSector_of_not_enc (next_aligned _) hon henc]
      exact if_pos hmore

/-- **The byte at the start is lost**, whether the write succeeds or not. -/
theorem rewriteSpan_forgets {off : BitVec 32} {buf : List Byte}
    (hagree : ∀ y, y ≠ off.toNat → m y = m' y) (hlost : buf ≠ [] ∨ Spoiled enc c off buf.length) :
    rewriteSpan enc c ⟨m, off, buf⟩ = rewriteSpan enc c ⟨m', off, buf⟩ := by
  have hsector := toNat_and_not_sectorMask off
  have herase : eraseRange m (off &&& ~~~sectorMask).toNat 4096 =
      eraseRange m' (off &&& ~~~sectorMask).toNat 4096 := by
    funext y
    rw [eraseRange, eraseRange]
    split_ifs with hy
    · rfl
    · exact hagree y (by omega)
  have hmapped : ∀ y, y ≠ (off &&& ~~~sectorMask).toNat + off.toNat % 4096 →
      c.mapped m y = c.mapped m' y := by
    intro y hy
    rw [FlashCrypto.mapped, FlashCrypto.mapped, hagree y (by omega)]
  by_cases hbuf : buf = []
  · -- Nothing is written: the sector is lost for want of memory.
    obtain ⟨hon, -, henc⟩ := hlost.resolve_left (not_not_intro hbuf)
    have henc : enc (off &&& ~~~sectorMask) = false := by
      refine henc.resolve_right fun h => ?_
      rw [hbuf, length_nil] at h
      omega
    simp only [rewriteSpan, rewriteSector_of_not_enc (sector_aligned off) hon henc, herase]
  · simp only [rewriteSpan, flashBackendRead_eq]
    have hpos := length_pos_iff.mpr hbuf
    have htake : buf.take (min buf.length (4096 - off.toNat % 4096)) ≠ [] := by
      rw [ne_eq, take_eq_nil_iff, not_or]
      exact ⟨by omega, hbuf⟩
    rw [splice_readBytes_congr _ _ hmapped htake, rewriteSector_congr (sector_aligned off) herase]

end Span

/-- What `writeOnes` has `aligned_write` do. -/
abbrev onesWriter (fa : FlashArea) (m : ByteMem) (off n : BitVec 32) : Writer :=
  ⟨m, fa.off + off, (List.Vector.replicate n.toNat Byte.erased).toList⟩

theorem length_ones (n : BitVec 32) :
    (List.Vector.replicate n.toNat Byte.erased).toList.length = n.toNat :=
  List.Vector.toList_length _

theorem pos_of_ne_zero (h : n ≠ 0#32) : 0 < n.toNat :=
  Nat.pos_of_ne_zero fun hz => h (eq_of_toNat_eq hz)

theorem rewrites_of_not_refused (h : ¬Refused mem fa off n) (hn : n ≠ 0#32) :
    Rewrites (fa.off + off) n.toNat :=
  ⟨fun hlast => h (.inr (.inl ⟨hn, hlast⟩)), .inl (pos_of_ne_zero hn)⟩

section

variable (hle : n.toNat ≤ 4096)

include hle

/-- **A refused write** changes nothing. -/
theorem writeOnes_of_refused (h : Refused mem fa off n) :
    writeOnes mem c fa m off n = (.error, m) := by
  rw [writeOnes, flashAreaWriteIn]
  by_cases hgt : off + n > fa.size
  · rw [if_pos hgt]
  rw [if_neg hgt, alignedPartsIn_refused (by rwa [length_ones])]
  rw [length_ones]
  exact (h.resolve_left hgt).imp_left fun hlast => ⟨pos_of_ne_zero hlast.1, hlast.2⟩

/-- The parts of a write that is not refused. -/
theorem alignedPartsIn_of_not_refused (h : ¬Refused mem fa off n)
    (hspan : Rewrites (fa.off + off) n.toNat) (m : ByteMem) :
    alignedPartsIn mem c (onesWriter fa m off n) =
      rewriteSpan mem.enc c (onesWriter fa m off n) := by
  refine alignedPartsIn_eq (by rwa [length_ones]) (by rwa [length_ones]) ?_
  rw [length_ones]
  exact fun hblock => h (.inr (.inr hblock))

theorem writeOnes_of_spoiled (h : ¬Refused mem fa off n)
    (hspoiled : Spoiled mem.enc c (fa.off + off) n.toNat) :
    (writeOnes mem c fa m off n).1 = .error := by
  obtain ⟨m', hparts⟩ := rewriteSpan_of_spoiled (w := onesWriter fa m off n)
    (by rwa [length_ones])
  rw [writeOnes, flashAreaWriteIn, alignedPartsIn_of_not_refused hle h hspoiled.2.1, hparts]
  split_ifs <;> rfl

theorem writeOnes_forgets (h : ¬Refused mem fa off n)
    (hlost : n ≠ 0#32 ∨ Spoiled mem.enc c (fa.off + off) n.toNat)
    (hagree : ∀ y, y ≠ (fa.off + off).toNat → m y = m' y) :
    writeOnes mem c fa m off n = writeOnes mem c fa m' off n := by
  have hgt : ¬off + n > fa.size := fun hgt => h (.inl hgt)
  have hspan : Rewrites (fa.off + off) n.toNat := by
    by_cases hn : n = 0#32
    · exact (hlost.resolve_left (not_not_intro hn)).2.1
    · exact rewrites_of_not_refused h hn
  rw [writeOnes, writeOnes, flashAreaWriteIn, flashAreaWriteIn, if_neg hgt, if_neg hgt,
    alignedPartsIn_of_not_refused hle h hspan, alignedPartsIn_of_not_refused hle h hspan,
    rewriteSpan_forgets hagree]
  rw [length_ones]
  exact hlost.imp_left fun hn => src_ne_nil (pos_of_ne_zero hn)

/-- With all the memory it needs, a write is the one of `flash_area_write`. -/
theorem writeOnes_eq (h : ¬Refused mem fa off n)
    (hsound : ¬Spoiled mem.enc c (fa.off + off) n.toNat) :
    writeOnes mem c fa m off n =
      flashAreaWrite c fa m off (List.Vector.replicate n.toNat Byte.erased) := by
  have hparts : alignedPartsIn mem c (onesWriter fa m off n) =
      alignedParts c (onesWriter fa m off n) := by
    rw [← alignedPartsIn_true]
    by_cases hspan : Rewrites (fa.off + off) n.toNat
    · rw [alignedPartsIn_of_not_refused hle h hspan, rewriteSpan_of_not_spoiled
        (by rwa [length_ones]) (by rwa [length_ones]), alignedPartsIn_eq (by rwa [length_ones])
        (by rwa [length_ones]) fun hno => Bool.noConfusion hno.1]
    · have hzero : n = 0#32 := by
        by_contra hn
        exact hspan (rewrites_of_not_refused h hn)
      subst hzero
      rw [alignedPartsIn_nil rfl hspan, alignedPartsIn_nil rfl hspan]
  rw [writeOnes, flashAreaWriteIn, flashAreaWrite, hparts, alignedWrite]
  cases alignedParts c (onesWriter fa m off n) with
  | error m' => rfl
  | ok m' =>
    simp only
    split_ifs <;> rfl

theorem writeOnes_exact (h : ¬Refused mem fa off n)
    (hsound : ¬Spoiled mem.enc c (fa.off + off) n.toNat) (hin : InArea fa off n) (m : ByteMem) :
    ∃ m', writeOnes mem c fa m off n = (.ok, m') ∧
      c.mapped m' = overwrite (c.mapped m) (fa.off.toNat + off.toNat)
        (List.replicate n.toNat Byte.erased) := by
  rw [writeOnes_eq hle h hsound]
  have hstart : n = 0#32 ∨ ¬InLastSector (fa.off + off) := by
    by_contra hno
    rw [not_or, not_not] at hno
    exact h (.inr (.inl hno))
  have hframe : FrameUpdate c fa m off (List.Vector.replicate n.toNat Byte.erased) :=
    frameUpdate_of_inArea hin (by omega) hstart
  simp only [FrameUpdate, if_pos hin] at hframe
  exact ⟨_, Prod.ext hframe.1 rfl, hframe.2⟩

end

/-! ## Runs over the pieces -/

/-- There is a piece at `i`: the first one, or one that is not empty. -/
def IsPiece (len : BitVec 32) (i : ℕ) : Prop := i % sectorSize = 0 ∧ (i = 0 ∨ i < len.toNat)

def PieceRefused (alloc : EraseMem) (fa : FlashArea) (off len : BitVec 32) (i : ℕ) : Prop :=
  Refused (alloc.write i) fa (off + BitVec.ofNat 32 i) (pieceLen len i)

def PieceSpoiled (alloc : EraseMem) (c : FlashCrypto) (fa : FlashArea) (off len : BitVec 32)
    (i : ℕ) : Prop :=
  Spoiled (alloc.write i).enc c (fa.off + (off + BitVec.ofNat 32 i)) (pieceLen len i).toNat

theorem isPiece_zero (len : BitVec 32) : IsPiece len 0 := ⟨Nat.zero_mod _, .inl rfl⟩

theorem IsPiece.next (h : IsPiece len i) (hlt : i + sectorSize < len.toNat) :
    IsPiece len (i + sectorSize) :=
  ⟨by rw [Nat.add_mod_right, h.1], .inr hlt⟩

theorem pieceLen_le (len : BitVec 32) (i : ℕ) : (pieceLen len i).toNat ≤ 4096 := by
  rw [toNat_pieceLen]
  exact Nat.min_le_left _ _

theorem erasePieces_of_refused (h : PieceRefused alloc fa off len i) (c : FlashCrypto)
    (m : ByteMem) : erasePieces alloc c fa off len i m = (.error, m) := by
  rw [erasePieces, writePiece, writeOnes_of_refused (pieceLen_le len i) h]
  exact if_neg fun hok => nomatch hok.1

theorem writePiece_error
    (h : PieceRefused alloc fa off len i ∨ PieceSpoiled alloc c fa off len i) :
    (writePiece alloc c fa off len i m).1 = .error := by
  rw [writePiece]
  by_cases hrefused : PieceRefused alloc fa off len i
  · rw [writeOnes_of_refused (pieceLen_le len i) hrefused]
  · exact writeOnes_of_spoiled (pieceLen_le len i) hrefused (h.resolve_left hrefused)

/-- An erase that comes to a piece it cannot write fails. -/
theorem erasePieces_error (hi : IsPiece len i) (hj : IsPiece len j) (hij : i ≤ j)
    (hfails : PieceRefused alloc fa off len j ∨ PieceSpoiled alloc c fa off len j) (m : ByteMem) :
    (erasePieces alloc c fa off len i m).1 = .error := by
  induction i using piece_induction len generalizing m with | step i ih => ?_
  cases hwrite : writePiece alloc c fa off len i m with
  | mk ret m' =>
    cases ret with
    | error =>
      rw [erasePieces, hwrite]
      simp
    | ok =>
      have hne : i ≠ j := by
        rintro rfl
        have herror := writePiece_error (m := m) hfails
        rw [hwrite] at herror
        cases herror
      have hstep : i + sectorSize ≤ j := by
        have hmod := hi.1
        have hmod' := hj.1
        rw [sectorSize_eq] at hmod hmod' ⊢
        omega
      have hlt : i + sectorSize < len.toNat := by
        have hend := hj.2
        omega
      rw [erasePieces_ok hwrite, if_pos hlt]
      exact ih hlt (hi.next hlt) hstep m'

theorem erasePieces_forgets (h : ¬PieceRefused alloc fa off len 0)
    (hlost : pieceLen len 0 ≠ 0#32 ∨ PieceSpoiled alloc c fa off len 0)
    (hagree : ∀ y, y ≠ (fa.off + (off + 0#32)).toNat → m y = m' y) :
    erasePieces alloc c fa off len 0 m = erasePieces alloc c fa off len 0 m' := by
  have hwrite : writePiece alloc c fa off len 0 m = writePiece alloc c fa off len 0 m' :=
    writeOnes_forgets (pieceLen_le len 0) h hlost hagree
  rw [erasePieces, erasePieces, hwrite]

/-- **A run in the area with no refusal** erases exactly the rest of the range. -/
theorem erasePieces_exact (hin : InArea fa off len) (hi : IsPiece len i)
    (hall : ∀ j, i ≤ j → IsPiece len j →
      ¬PieceRefused alloc fa off len j ∧ ¬PieceSpoiled alloc c fa off len j) (m : ByteMem) :
    ∃ m', erasePieces alloc c fa off len i m = (.ok, m') ∧
      c.mapped m' = overwrite (c.mapped m) (fa.off.toNat + (off.toNat + i))
        (List.replicate (len.toNat - i) Byte.erased) := by
  induction i using piece_induction len generalizing m with | step i ih => ?_
  have hbound : off.toNat + len.toNat ≤ fa.size.toNat := hin
  have hle : i ≤ len.toNat := by
    obtain ⟨-, hi'⟩ := hi
    omega
  have hstart : (off + BitVec.ofNat 32 i).toNat = off.toNat + i := by
    rw [toNat_add, toNat_ofNat]
    omega
  have hpiece : InArea fa (off + BitVec.ofNat 32 i) (pieceLen len i) := by
    rw [InArea, hstart, toNat_pieceLen]
    omega
  obtain ⟨m', hwrite, hmapped⟩ :=
    writeOnes_exact (pieceLen_le len i) (hall i (Nat.le_refl i) hi).1
      (hall i (Nat.le_refl i) hi).2 hpiece m
  rw [hstart, toNat_pieceLen] at hmapped
  rw [erasePieces_ok hwrite]
  split_ifs with hlt
  · obtain ⟨m'', hrest, hmapped'⟩ := ih hlt (hi.next hlt)
      (fun j hj => hall j (Nat.le_of_add_right_le hj)) m'
    refine ⟨m'', hrest, ?_⟩
    have hsplit : len.toNat - i = min sectorSize (len.toNat - i) +
        (len.toNat - (i + sectorSize)) := by omega
    have hnext : fa.off.toNat + (off.toNat + i) + min sectorSize (len.toNat - i) =
        fa.off.toNat + (off.toNat + (i + sectorSize)) := by omega
    rw [hmapped', hmapped, hsplit, replicate_add, overwrite_append, length_replicate,
      ← hsplit, hnext]
  · refine ⟨m', rfl, ?_⟩
    rw [hmapped, Nat.min_eq_right (by omega)]

/-! ## Slot erase -/

/-- **Slot erase.** An erase in the area sets exactly its bytes and succeeds, or fails and changes
nothing; any other changes nothing and fails. -/
def EraseExact (c : FlashCrypto) (fa : FlashArea) (m : ByteMem) (off len : BitVec 32)
    (r : AreaResult × ByteMem) : Prop :=
  InArea fa off len ∧ r.1 = .ok ∧
      c.mapped r.2 = overwrite (c.mapped m) (fa.off.toNat + off.toNat)
        (List.replicate len.toNat Byte.erased) ∨
    r.1 = .error ∧ r.2 = m

/-- The erases done right: no memory for the buffer; or the first piece is refused; or the range
lies in the area, no later piece is refused and no sector spoiled. -/
def EraseSafe (alloc : EraseMem) (c : FlashCrypto) (fa : FlashArea) (off len : BitVec 32) : Prop :=
  alloc.buffer = false ∨ PieceRefused alloc fa off len 0 ∨
    InArea fa off len ∧ (∀ i, 0 < i → IsPiece len i → ¬PieceRefused alloc fa off len i) ∧
      ∀ i, IsPiece len i → ¬PieceSpoiled alloc c fa off len i

theorem toNat_eq_zero_of_pieceLen (h : pieceLen len 0 = 0#32) : len.toNat = 0 := by
  have htoNat := congrArg BitVec.toNat h
  rw [toNat_pieceLen, sectorSize_eq, toNat_ofNat] at htoNat
  omega

theorem pieceLen_ne_zero (hfirst : ¬PieceRefused alloc fa off len 0)
    (hin : ¬InArea fa off len) : pieceLen len 0 ≠ 0#32 := by
  intro hzero
  have hlen := toNat_eq_zero_of_pieceLen hzero
  refine hfirst (.inl ?_)
  rw [hzero, BitVec.add_zero, BitVec.add_zero, lt_def]
  rw [InArea] at hin
  omega

/-- The first piece of an unsafe erase is written. -/
theorem lost_of_not_safe (hnot : ¬EraseSafe alloc c fa off len) :
    alloc.buffer = true ∧ ¬PieceRefused alloc fa off len 0 ∧
      (pieceLen len 0 ≠ 0#32 ∨ PieceSpoiled alloc c fa off len 0) ∧
      (¬InArea fa off len ∨
        ∀ m, (erasePieces alloc c fa off len 0 m).1 = .error) := by
  rw [EraseSafe, not_or, not_or, not_and_or] at hnot
  obtain ⟨hbuffer, hfirst, hlater⟩ := hnot
  refine ⟨by simpa using hbuffer, hfirst, ?_⟩
  rcases hlater with hin | hlater
  · exact ⟨.inl (pieceLen_ne_zero hfirst hin), .inl hin⟩
  obtain ⟨i, hpiece, hfails⟩ : ∃ i, IsPiece len i ∧
      (0 < i ∧ PieceRefused alloc fa off len i ∨ PieceSpoiled alloc c fa off len i) := by
    rw [not_and_or] at hlater
    push Not at hlater
    rcases hlater with ⟨i, hpos, hpiece, hrefused⟩ | ⟨i, hpiece, hspoiled⟩
    · exact ⟨i, hpiece, .inl ⟨hpos, hrefused⟩⟩
    · exact ⟨i, hpiece, .inr hspoiled⟩
  refine ⟨?_, .inr fun m => erasePieces_error (isPiece_zero len) hpiece (Nat.zero_le i)
    (hfails.imp_left And.right) m⟩
  rcases Nat.eq_zero_or_pos i with rfl | hpos
  · exact .inr (hfails.resolve_left fun h => absurd h.1 (Nat.lt_irrefl 0))
  · have hlt := hpiece.2
    refine .inl fun hzero => ?_
    have := toNat_eq_zero_of_pieceLen hzero
    omega

/-- **Slot erase.** For an area, a range, an encryption and the answers of `malloc`, an erase of
every flash is exact exactly when it is safe. -/
theorem flashAreaErase_exact_iff (alloc : EraseMem) (c : FlashCrypto) (fa : FlashArea)
    (off len : BitVec 32) :
    (∀ m, EraseExact c fa m off len (flashAreaErase alloc c fa off len m)) ↔
      EraseSafe alloc c fa off len := by
  constructor
  · intro h
    by_contra hnot
    obtain ⟨hbuffer, hfirst, hlost, hfails⟩ := lost_of_not_safe hnot
    -- No such erase may change the flash, but the first piece loses a byte.
    have hsame : ∀ m, (erasePieces alloc c fa off len 0 m).2 = m := by
      intro m
      have hexact := h m
      rw [flashAreaErase_eq hbuffer] at hexact
      rcases hexact with ⟨hin, hok, -⟩ | ⟨-, hsame⟩
      · have herror := hfails.resolve_left (not_not_intro hin) m
        rw [hok] at herror
        cases herror
      · exact hsame
    have hagree : ∀ y, y ≠ (fa.off + (off + 0#32)).toNat → (fun _ => 0#8 : ByteMem) y =
        Function.update (fun _ => 0#8) (fa.off + (off + 0#32)).toNat 1#8 y := by
      intro y hy
      rw [Function.update_of_ne hy]
    have heq := congrArg Prod.snd (erasePieces_forgets hfirst hlost hagree)
    rw [hsame, hsame] at heq
    have hbyte := congrFun heq (fa.off + (off + 0#32)).toNat
    rw [Function.update_self] at hbyte
    exact absurd hbyte (by decide)
  · intro hsafe m
    cases hbuffer : alloc.buffer with
    | false =>
      rw [flashAreaErase, if_pos hbuffer]
      exact .inr ⟨rfl, rfl⟩
    | true =>
      rw [flashAreaErase_eq hbuffer]
      by_cases hfirst : PieceRefused alloc fa off len 0
      · rw [erasePieces_of_refused hfirst]
        exact .inr ⟨rfl, rfl⟩
      obtain ⟨hin, hlater, hsound⟩ := (hsafe.resolve_left (by simp [hbuffer])).resolve_left hfirst
      have hall : ∀ j, 0 ≤ j → IsPiece len j →
          ¬PieceRefused alloc fa off len j ∧ ¬PieceSpoiled alloc c fa off len j := by
        intro j _ hpiece
        refine ⟨?_, hsound j hpiece⟩
        rcases Nat.eq_zero_or_pos j with rfl | hpos
        · exact hfirst
        · exact hlater j hpos hpiece
      obtain ⟨m', herase, hmapped⟩ := erasePieces_exact hin (isPiece_zero len) hall m
      rw [herase]
      exact .inl ⟨hin, rfl, hmapped⟩

/-- **A range that reaches past the area.** One sector more than a slot of two: both are erased
before the third is refused. -/
theorem slot_erased_before_refusal :
    let fa : FlashArea := ⟨0x20000#32, 0x2000#32, by decide⟩
    let r := flashAreaErase ⟨true, fun _ => ⟨true, fun _ => true⟩⟩ plainFlash fa 0#32 0x3000#32
      fun _ => 0#8
    ¬InArea fa 0#32 0x3000#32 ∧ r.1 = .error ∧ r.2 0x20000 = 0xff#8 ∧
      ¬EraseExact plainFlash fa (fun _ => 0#8) 0#32 0x3000#32 r := by
  intro fa r
  have hin : ¬InArea fa 0#32 0x3000#32 := by decide
  have hplain : ∀ m, plainFlash.mapped m = m := FlashCrypto.mapped_of_inactive rfl
  have hpiece : ∀ off : BitVec 32, ¬fa.size < off + 0x1000#32 → ¬InLastSector (fa.off + off) →
      ¬Refused ⟨true, fun _ => true⟩ fa off 0x1000#32 := by
    rintro off hgt hlast (h | ⟨-, h⟩ | ⟨h, -⟩)
    · exact hgt h
    · exact hlast h
    · cases h
  have hsound : ∀ start n, ¬Spoiled (fun _ => true) plainFlash start n := fun _ _ h => nomatch h.1
  obtain ⟨m₁, hfirst, hm₁⟩ := writeOnes_exact (n := 0x1000#32) (by decide)
    (hpiece 0#32 (by decide) (by decide)) (hsound _ _) (by decide) fun _ => 0#8
  obtain ⟨m₂, hsecond, hm₂⟩ := writeOnes_exact (n := 0x1000#32) (by decide)
    (hpiece 0x1000#32 (by decide) (by decide)) (hsound _ _) (by decide) m₁
  have hfirst : writePiece ⟨true, fun _ => ⟨true, fun _ => true⟩⟩ plainFlash fa 0#32 0x3000#32 0
      (fun _ => 0#8) = (.ok, m₁) := hfirst
  have hsecond : writePiece ⟨true, fun _ => ⟨true, fun _ => true⟩⟩ plainFlash fa 0#32 0x3000#32
      (0 + sectorSize) m₁ = (.ok, m₂) := by
    have hoff : 0#32 + BitVec.ofNat 32 (0 + sectorSize) = 0x1000#32 := by decide
    have hlen : pieceLen 0x3000#32 (0 + sectorSize) = 0x1000#32 := by decide
    rw [writePiece, hoff, hlen]
    exact hsecond
  have hr : r = (.error, m₂) := by
    change flashAreaErase _ _ _ _ _ _ = _
    rw [flashAreaErase_eq rfl, erasePieces_ok hfirst, if_pos (by simp [sectorSize]),
      erasePieces_ok hsecond, if_pos (by simp [sectorSize]),
      erasePieces_of_refused (.inl (by decide))]
  simp only [hplain] at hm₁ hm₂
  have hset : r.2 0x20000 = 0xff#8 := by
    rw [hr]
    change m₂ 0x20000 = _
    rw [hm₂, overwrite_of_not_mem (by decide), hm₁]
    decide
  refine ⟨hin, by rw [hr], hset, ?_⟩
  rintro (⟨hin', -⟩ | ⟨-, hsame⟩)
  · exact hin hin'
  · rw [hsame] at hset
    exact absurd hset (by decide)

end WiseSdk.Flash
