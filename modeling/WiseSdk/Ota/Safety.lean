import WiseSdk.Ota.Agent

/-!
# When a download is safe to boot

The agent must mark the secondary slot as pending only if the slot holds the body the server
announced, written without an error and with the magic number. Four things break this unnoticed:

* the header runs over one of the arrays it is copied to;
* the number of body bytes taken is not the announced one: the length is missing or negative, the
  connection is closed early, or the last buffer received holds more;
* a write of a full buffer fails, and the write that closes the file, of the bytes that were waiting
  before it, does not;
* an image below 4096 bytes has no magic number, but the slot had one before.
-/

namespace WiseSdk.Ota

open List

/-! ## The property -/

/-- The first buffer received, with what it leaves of the request in `hbuf`. -/
def Download.header (dl : Download) : Except Fault (ℕ × ℤ) :=
  match dl.chunks with
  | [] => .error .failed
  | first :: _ => readHeader (first ++ dl.hbuf.drop first.length) first.length

variable {dl : Download} {hdrLen j i : ℕ} {n : ℤ} {slot : Slot}

theorem Download.header_ok (h : dl.header = .ok (hdrLen, n)) : n ≠ 0 := by
  unfold Download.header at h
  split at h
  · cases h
  · exact (readHeader_ok h).2

/-- The part of the body that comes with a header that ends at `hdrLen`. -/
def Download.bodyStart (dl : Download) (hdrLen : ℕ) : List UInt8 :=
  (dl.chunks.headD []).drop (hdrLen + 1)

def Download.body (dl : Download) (hdrLen : ℕ) : List UInt8 :=
  dl.bodyStart hdrLen ++ dl.chunks.tail.flatten

/-- The slot holds exactly the announced body of a response 200, every write succeeded, and the
magic number is there. -/
structure BootSafe (dl : Download) (w : Writer) : Prop where
  holds_body : ∃ hdrLen n : ℕ, dl.header = .ok (hdrLen, (n : ℤ)) ∧ w.imgOft = n ∧
    n ≤ (dl.body hdrLen).length ∧ ∀ i < n, (dl.body hdrLen)[i]? = some (w.slot i)
  writes_ok : ∀ k < w.writes, dl.flash k = none
  magic : checkMagic w.slot = true

/-- The agent does nothing undefined, and reaches `boot_set_pending_multi` only with a bootable
slot. -/
def AgentSafe (dl : Download) : Prop :=
  match doMcubootAgent dl with
  | .error .undefined => False
  | .error .failed => True
  | .ok w => BootSafe dl w

/-! ## What is taken of the body -/

/-- The bytes taken when no write fails: whole buffers, until at least `n` bytes have come. -/
def taken (n : ℤ) : List UInt8 → List (List UInt8) → List UInt8
  | got, [] => got
  | got, chunk :: chunks => if got.length < n then taken n (got ++ chunk) chunks else got

def Download.data (dl : Download) (hdrLen : ℕ) (n : ℤ) : List UInt8 :=
  taken n (dl.bodyStart hdrLen) dl.chunks.tail

def BlockOk (dl : Download) (j : ℕ) : Prop :=
  dl.flash j = none ∧ maxWriteBufLen * (j + 1) ≤ slotSize

def Marked (data : List UInt8) : Prop := data.take 4 = [0x3d, 0xb8, 0xf3, 0x96]

def blocks (data : List UInt8) : ℕ := data.length / maxWriteBufLen

/-! ## What the agent does not notice -/

/-- **A lost error.** The write of full buffer `j` is the first that fails, and the agent goes on to
a closing write that succeeds; after the first buffer, if it finds the magic number in what the
failure has left. -/
def LostError (dl : Download) (data : List UInt8) : Prop :=
  ∃ j < blocks data, (∀ i < j, BlockOk dl i) ∧ maxWriteBufLen * (j + 1) ≤ slotSize ∧
    dl.flash (j + 1) = none ∧
    ∃ left, dl.flash j = some left ∧ if j = 0 then checkMagic left = true else Marked data

/-- Every write succeeds, the closing one included, and the magic number is found. -/
def NoError (dl : Download) (data : List UInt8) : Prop :=
  (∀ j < blocks data, BlockOk dl j) ∧
    (maxWriteBufLen * blocks data < data.length →
      dl.flash (blocks data) = none ∧ data.length ≤ slotSize) ∧
    if blocks data = 0 then data ≠ [] → checkMagic dl.slot = true else Marked data

/-- **A wrong length.**  All goes well with a body that is not the announced one. -/
def WrongLength (dl : Download) (n : ℤ) (data : List UInt8) : Prop :=
  NoError dl data ∧ (data.length : ℤ) ≠ n

/-- **A stale magic number.**  All goes well with an image that does not have it. -/
def StaleMagic (dl : Download) (data : List UInt8) : Prop :=
  NoError dl data ∧ checkMagic (dl.slot.write 0 data) = false

def Unspoilt (dl : Download) : Prop :=
  dl.header ≠ .error .undefined ∧
    ∀ hdrLen n, dl.header = .ok (hdrLen, n) →
      ¬ LostError dl (dl.data hdrLen n) ∧ ¬ WrongLength dl n (dl.data hdrLen n) ∧
        ¬ StaleMagic dl (dl.data hdrLen n)

/-! ## The slot -/

theorem Slot.write_nil (slot : Slot) (oft : ℕ) : slot.write oft [] = slot := by
  funext i
  simp [Slot.write]

theorem Slot.write_append (slot : Slot) (oft : ℕ) (data data' : List UInt8) :
    (slot.write oft data).write (oft + data.length) data' = slot.write oft (data ++ data') := by
  funext i
  unfold Slot.write
  by_cases hlt : oft + data.length ≤ i
  · have hidx : i - oft - data.length = i - (oft + data.length) := by omega
    rw [if_pos hlt, if_pos (by omega), if_pos (by omega), getElem?_append_right (by omega),
      getElem?_eq_none (by omega : data.length ≤ i - oft), hidx]
    rfl
  · rw [if_neg hlt]
    by_cases hoft : oft ≤ i
    · rw [if_pos hoft, if_pos hoft, getElem?_append_left (by omega)]
    · rw [if_neg hoft, if_neg hoft]

variable {data d : List UInt8}

theorem Slot.write_getElem? (slot : Slot) (h : i < data.length) :
    data[i]? = some (slot.write 0 data i) := by
  simp [Slot.write, h]

/-- A slot with an image in it has the image's magic number. -/
theorem checkMagic_write (h : 4 ≤ data.length) :
    checkMagic (slot.write 0 data) = true ↔ Marked data := by
  match data, h with
  | a :: b :: c :: d :: rest, _ => simp [checkMagic, Marked, Slot.write, and_assoc]

/-! ## Prefixes -/

theorem taken_isPrefix (n : ℤ) (got : List UInt8) (chunks : List (List UInt8)) :
    got <+: taken n got chunks := by
  induction chunks generalizing got with
  | nil => exact prefix_rfl
  | cons chunk chunks ih =>
    unfold taken
    split_ifs
    · exact (prefix_append got chunk).trans (ih _)
    · exact prefix_rfl

theorem taken_isPrefix_body (n : ℤ) (got : List UInt8) (chunks : List (List UInt8)) :
    taken n got chunks <+: got ++ chunks.flatten := by
  induction chunks generalizing got with
  | nil => simp [taken]
  | cons chunk chunks ih =>
    unfold taken
    split_ifs
    · simpa using ih (got ++ chunk)
    · exact prefix_append ..

theorem blocks_mono (h : d <+: data) : blocks d ≤ blocks data :=
  Nat.div_le_div_right h.length_le

theorem marked_iff_of_isPrefix (h : d <+: data) (hd : 0 < blocks d) : Marked d ↔ Marked data := by
  obtain ⟨rest, rfl⟩ := h
  have hlen : 4 ≤ d.length := by
    simp only [blocks, maxWriteBufLen] at hd
    omega
  unfold Marked
  rw [take_append_of_le_length hlen]

/-! ## The writer -/

variable {w : Writer}

theorem flashAreaWrite_of_ok (hflash : dl.flash w.writes = none)
    (hin : w.imgOft + data.length ≤ slotSize) :
    flashAreaWrite dl w data =
      ({ w with slot := w.slot.write w.imgOft data, writes := w.writes + 1 }, true) := by
  rw [flashAreaWrite, if_neg (by omega), hflash]

theorem flashAreaWrite_of_fails
    (h : ¬ (dl.flash w.writes = none ∧ w.imgOft + data.length ≤ slotSize)) :
    ∃ slot, flashAreaWrite dl w data = ({ w with slot := slot, writes := w.writes + 1 }, false) ∧
      ∀ left, dl.flash w.writes = some left → w.imgOft + data.length ≤ slotSize →
        slot = left := by
  unfold flashAreaWrite
  split_ifs with hout
  · exact ⟨w.slot, rfl, fun _ _ hin => absurd hin (by omega)⟩
  cases hflash : dl.flash w.writes with
  | none => exact absurd ⟨hflash, by omega⟩ h
  | some left =>
    refine ⟨left, rfl, ?_⟩
    rintro left' ⟨⟩ _
    rfl

/-- All data so far has gone through without an error: the full buffers are in the slot, the
rest waits. -/
structure Clean (dl : Download) (data : List UInt8) (w : Writer) : Prop where
  blocks_ok : ∀ j < blocks data, BlockOk dl j
  fbuf : w.fbuf = data.drop (maxWriteBufLen * blocks data)
  imgOft : w.imgOft = maxWriteBufLen * blocks data
  writes : w.writes = blocks data
  slot : w.slot = dl.slot.write 0 (data.take (maxWriteBufLen * blocks data))
  marked : 0 < blocks data → Marked data

/-- The write of full buffer `j` has failed; the bytes that were waiting before it still do. -/
structure FailedAt (dl : Download) (data : List UInt8) (w : Writer) (j : ℕ) : Prop where
  lt_blocks : j < blocks data
  blocks_ok : ∀ i < j, BlockOk dl i
  not_ok : ¬ BlockOk dl j
  marked : 0 < j → Marked data
  imgOft : w.imgOft = maxWriteBufLen * j
  writes : w.writes = j + 1
  fbuf : w.fbuf ≠ []
  fbuf_lt : w.fbuf.length < maxWriteBufLen
  slot : ∀ left, dl.flash j = some left → maxWriteBufLen * (j + 1) ≤ slotSize → w.slot = left

/-- The first full buffer is in the slot and does not have the magic number. -/
structure Rejected (dl : Download) (data : List UInt8) (w : Writer) : Prop where
  blocks_pos : 0 < blocks data
  block_ok : BlockOk dl 0
  not_marked : ¬ Marked data
  imgOft : w.imgOft = 0
  fbuf : w.fbuf ≠ []
  no_magic : checkMagic w.slot = false

def Stopped (dl : Download) (data : List UInt8) (w : Writer) : Prop :=
  (∃ j, FailedAt dl data w j) ∨ Rejected dl data w

theorem Stopped.mono (h : Stopped dl d w) (hpre : d <+: data) : Stopped dl data w := by
  have hle := blocks_mono hpre
  rcases h with ⟨j, hj⟩ | hrej
  · refine .inl ⟨j, { hj with lt_blocks := ?_, marked := ?_ }⟩
    · exact Nat.lt_of_lt_of_le hj.lt_blocks hle
    · intro hpos
      have hlt := hj.lt_blocks
      exact (marked_iff_of_isPrefix hpre (by omega)).mp (hj.marked hpos)
  · refine .inr { hrej with blocks_pos := ?_, not_marked := ?_ }
    · exact Nat.lt_of_lt_of_le hrej.blocks_pos hle
    · exact mt (marked_iff_of_isPrefix hpre hrej.blocks_pos).mpr hrej.not_marked

theorem clean_start (dl : Download) : Clean dl [] { slot := dl.slot } := by
  refine ⟨?_, rfl, rfl, rfl, ?_, ?_⟩
  · simp [blocks]
  · simp [Slot.write_nil]
  · simp [blocks]

/-! ## Writing the body -/

theorem mul_blocks_le (data : List UInt8) : maxWriteBufLen * blocks data ≤ data.length :=
  Nat.mul_div_le ..

theorem offset_eq_zero (k : ℕ) : maxWriteBufLen * k = 0 ↔ k = 0 := by
  simp only [maxWriteBufLen]
  omega

theorem Clean.fbuf_length (h : Clean dl d w) :
    w.fbuf.length + maxWriteBufLen * blocks d = d.length := by
  have hle := mul_blocks_le d
  rw [h.fbuf, length_drop]
  omega

theorem Clean.fbuf_lt (h : Clean dl d w) : w.fbuf.length < maxWriteBufLen := by
  have hlen := h.fbuf_length
  simp only [blocks, maxWriteBufLen] at *
  omega

theorem Clean.marked_append (h : Clean dl d w) (hpos : 0 < blocks d) : Marked (d ++ data) :=
  (marked_iff_of_isPrefix (prefix_append d data) hpos).mp (h.marked hpos)

/-- A write continues what is in the slot. -/
theorem Clean.slot_write (h : Clean dl d w) (data : List UInt8) : w.slot.write w.imgOft data =
    dl.slot.write 0 (d.take (maxWriteBufLen * blocks d) ++ data) := by
  have hoft : w.imgOft = 0 + (d.take (maxWriteBufLen * blocks d)).length := by
    rw [length_take, h.imgOft, Nat.min_eq_left (mul_blocks_le d), Nat.zero_add]
  rw [h.slot, hoft, Slot.write_append]

/-- Data that does not fill the buffer waits in it. -/
theorem Clean.wait (h : Clean dl d w) (hshort : w.fbuf.length + data.length < maxWriteBufLen) :
    Clean dl (d ++ data) { w with fbuf := w.fbuf ++ data } := by
  have hlen := h.fbuf_length
  have hle := mul_blocks_le d
  have hblocks : blocks (d ++ data) = blocks d := by
    simp only [blocks, maxWriteBufLen, length_append] at *
    omega
  constructor
  case blocks_ok => rw [hblocks]; exact h.blocks_ok
  case fbuf => rw [hblocks, drop_append_of_le_length hle, ← h.fbuf]
  case imgOft => rw [hblocks]; exact h.imgOft
  case writes => rw [hblocks]; exact h.writes
  case slot => rw [hblocks, take_append_of_le_length hle]; exact h.slot
  case marked => rw [hblocks]; exact h.marked_append

theorem Clean.full_buffer (h : Clean dl d w)
    (hfull : maxWriteBufLen ≤ w.fbuf.length + data.length) :
    (w.fbuf ++ data.take (maxWriteBufLen - w.fbuf.length)).length = maxWriteBufLen ∧
      d.take (maxWriteBufLen * blocks d) ++ (w.fbuf ++ data.take (maxWriteBufLen - w.fbuf.length)) =
        (d ++ data).take (maxWriteBufLen * (blocks d + 1)) := by
  have hlen := h.fbuf_length
  have hlt := h.fbuf_lt
  constructor
  · rw [length_append, length_take]
    omega
  · rw [← append_assoc, h.fbuf, take_append_drop, take_append,
      take_of_length_le (by rw [Nat.mul_add]; omega : d.length ≤ _), ← h.fbuf]
    congr 2
    rw [Nat.mul_add]
    omega

section FullBuffer

variable {dl : Download} {d data : List UInt8} {w : Writer}

/-- Received data makes at most one full buffer. -/
theorem Clean.blocks_append (h : Clean dl d w) (hdata : data.length ≤ maxBufLen)
    (hfull : maxWriteBufLen ≤ w.fbuf.length + data.length) :
    blocks (d ++ data) = blocks d + 1 := by
  have hlen := h.fbuf_length
  simp only [blocks, maxWriteBufLen, maxBufLen, length_append] at *
  omega

/-- The slot after the full buffer is written. -/
theorem Clean.full_slot (h : Clean dl d w) (hfull : maxWriteBufLen ≤ w.fbuf.length + data.length) :
    w.slot.write w.imgOft (w.fbuf ++ data.take (maxWriteBufLen - w.fbuf.length)) =
      dl.slot.write 0 ((d ++ data).take (maxWriteBufLen * (blocks d + 1))) := by
  rw [h.slot_write, (h.full_buffer hfull).2]

theorem checkMagic_full (slot : Slot) (hblocks : blocks (d ++ data) = blocks d + 1) :
    checkMagic (slot.write 0 ((d ++ data).take (maxWriteBufLen * (blocks d + 1)))) = true ↔
      Marked (d ++ data) := by
  have hle := mul_blocks_le (d ++ data)
  rw [hblocks] at hle
  have hlong : 4 ≤ maxWriteBufLen * (blocks d + 1) := by
    simp only [maxWriteBufLen]
    omega
  rw [checkMagic_write (by rw [length_take, Nat.min_eq_left hle]; exact hlong)]
  unfold Marked
  rw [take_take, Nat.min_eq_left hlong]

theorem Clean.written (h : Clean dl d w) (hdata : data.length ≤ maxBufLen)
    (hfull : maxWriteBufLen ≤ w.fbuf.length + data.length) (hok : BlockOk dl (blocks d))
    (hmarked : Marked (d ++ data)) :
    Clean dl (d ++ data)
      { slot := dl.slot.write 0 ((d ++ data).take (maxWriteBufLen * (blocks d + 1)))
        fbuf := data.drop (maxWriteBufLen - w.fbuf.length)
        imgOft := w.imgOft + maxWriteBufLen
        writes := w.writes + 1 } := by
  have hblocks := h.blocks_append hdata hfull
  have hlen := h.fbuf_length
  constructor
  case blocks_ok =>
    intro j hj
    rw [hblocks] at hj
    rcases Nat.lt_succ_iff_lt_or_eq.mp hj with hj | rfl
    · exact h.blocks_ok j hj
    · exact hok
  case fbuf =>
    have hlt := h.fbuf_lt
    have hskip : d.drop (maxWriteBufLen * (blocks d + 1)) = [] :=
      drop_of_length_le (by rw [Nat.mul_add]; omega)
    have hrest : maxWriteBufLen * (blocks d + 1) - d.length =
        maxWriteBufLen - w.fbuf.length := by
      rw [Nat.mul_add]
      omega
    rw [hblocks, drop_append, hskip, nil_append, hrest]
  case imgOft => rw [hblocks, h.imgOft, Nat.mul_add, Nat.mul_one]
  case writes => rw [hblocks, h.writes]
  case slot => rw [hblocks]
  case marked => exact fun _ => hmarked

theorem Clean.failed (h : Clean dl d w) (hdata : data.length ≤ maxBufLen)
    (hfull : maxWriteBufLen ≤ w.fbuf.length + data.length) (hwaiting : w.fbuf ≠ [])
    (hok : ¬ BlockOk dl (blocks d)) (hslot : ∀ left, dl.flash (blocks d) = some left →
      maxWriteBufLen * (blocks d + 1) ≤ slotSize → slot = left) :
    FailedAt dl (d ++ data) { w with slot := slot, writes := w.writes + 1 } (blocks d) where
  lt_blocks := by
    have := h.blocks_append hdata hfull
    omega
  blocks_ok := h.blocks_ok
  not_ok := hok
  marked := h.marked_append
  imgOft := h.imgOft
  writes := by rw [h.writes]
  fbuf := hwaiting
  fbuf_lt := h.fbuf_lt
  slot := hslot

/-- **One `file_write`.**  It goes through, or leaves the writer stopped. -/
theorem Clean.fileWrite (h : Clean dl d w) (hdata : data.length ≤ maxBufLen) :
    ∃ w' ok, fileWrite dl w data = (w', ok) ∧
      if ok then Clean dl (d ++ data) w' else Stopped dl (d ++ data) w' := by
  unfold WiseSdk.Ota.fileWrite
  by_cases hfull : maxWriteBufLen ≤ w.fbuf.length + data.length
  swap
  · exact ⟨_, _, if_neg hfull, h.wait (by omega)⟩
  rw [if_pos hfull]
  dsimp only
  have hbuf := (h.full_buffer hfull).1
  have hblocks := h.blocks_append hdata hfull
  have hwaiting : w.fbuf ≠ [] := by
    rintro hnil
    simp only [hnil, length_nil, maxWriteBufLen, maxBufLen] at hfull hdata
    omega
  by_cases hok : BlockOk dl (blocks d)
  · have hend : w.imgOft + (w.fbuf ++ data.take (maxWriteBufLen - w.fbuf.length)).length ≤
        slotSize := by
      rw [hbuf, h.imgOft]
      exact hok.2
    rw [flashAreaWrite_of_ok (by rw [h.writes]; exact hok.1) hend, h.full_slot hfull]
    simp only [Bool.not_true, Bool.false_eq_true, if_false]
    have hmagic := checkMagic_full dl.slot hblocks
    have hzero : w.imgOft = 0 ↔ blocks d = 0 := by rw [h.imgOft, offset_eq_zero]
    split_ifs with hreject
    · -- The first full buffer does not have the magic number.
      refine ⟨_, _, rfl, .inr ⟨by omega, ?_, ?_, hreject.1, hwaiting, hreject.2⟩⟩
      · exact hzero.mp hreject.1 ▸ hok
      · exact fun hmarked => by simp [hmagic.mpr hmarked] at hreject
    refine ⟨_, _, rfl, h.written hdata hfull hok ?_⟩
    rcases Nat.eq_zero_or_pos (blocks d) with hd | hd
    · refine hmagic.mp ?_
      by_contra hfalse
      exact hreject ⟨hzero.mpr hd, by simpa using hfalse⟩
    · exact h.marked_append hd
  · have hfails : ¬ (dl.flash w.writes = none ∧ w.imgOft +
        (w.fbuf ++ data.take (maxWriteBufLen - w.fbuf.length)).length ≤ slotSize) := by
      rw [hbuf, h.writes, h.imgOft]
      exact hok
    obtain ⟨slot, hwrite, hleft⟩ := flashAreaWrite_of_fails hfails
    rw [hbuf, h.writes, h.imgOft] at hleft
    rw [hwrite]
    exact ⟨_, _, rfl, .inl ⟨blocks d, h.failed hdata hfull hwaiting hok hleft⟩⟩

end FullBuffer

/-- **The whole body.**  The bytes taken have gone through, or one of the writes has stopped the
loop. -/
theorem Clean.recvBody {chunks : List (List UInt8)} (h : Clean dl d w)
    (hchunks : ∀ chunk ∈ chunks, chunk.length ≤ maxBufLen) :
    Clean dl (taken n d chunks) (recvBody dl n d.length w chunks) ∨
      Stopped dl (taken n d chunks) (recvBody dl n d.length w chunks) := by
  induction chunks generalizing d w with
  | nil => exact .inl h
  | cons chunk chunks ih =>
    unfold taken WiseSdk.Ota.recvBody
    split_ifs with hmore
    · obtain ⟨w', ok, hwrite, hafter⟩ := h.fileWrite (hchunks chunk mem_cons_self)
      rw [hwrite]
      cases ok with
      | false => exact .inr (Stopped.mono hafter (taken_isPrefix ..))
      | true =>
        have hlen : (d.length : ℤ) + chunk.length = ((d ++ chunk).length : ℤ) := by simp
        simp only [hlen, if_true]
        exact ih hafter fun c hc => hchunks c (mem_cons_of_mem _ hc)
    · exact .inl h

/-! ## Closing the file -/

section Close

variable {dl : Download} {data : List UInt8} {w : Writer}

theorem not_noError_of_not_ok (hj : j < blocks data) (h : ¬ BlockOk dl j) : ¬ NoError dl data :=
  fun herr => h (herr.1 j hj)

theorem Clean.slot_of_no_block (h : Clean dl data w) (hb : blocks data = 0) : w.slot = dl.slot := by
  rw [h.slot, hb, Nat.mul_zero, take_zero, Slot.write_nil]

/-- What waits in the buffer completes the data in the slot. -/
theorem Clean.slot_closed (h : Clean dl data w) :
    w.slot.write w.imgOft w.fbuf = dl.slot.write 0 data := by
  rw [h.slot_write, h.fbuf, take_append_drop]

/-- The closing write of what waits. -/
theorem fileClose_of_waiting (dl : Download) (hne : w.fbuf ≠ []) :
    ∃ w' ok, fileClose dl w = (w', ok) ∧
      (ok = true ↔ w.imgOft + w.fbuf.length ≤ slotSize ∧ dl.flash w.writes = none ∧
        (w.imgOft = 0 → checkMagic w.slot = true)) ∧
      (ok = true → w'.slot = w.slot.write w.imgOft w.fbuf ∧
        w'.imgOft = w.imgOft + w.fbuf.length ∧ w'.writes = w.writes + 1) := by
  unfold WiseSdk.Ota.fileClose
  rw [if_neg hne]
  by_cases hmagic : w.imgOft = 0 ∧ checkMagic w.slot = false
  · rw [if_pos hmagic]
    refine ⟨w, false, rfl, iff_of_false (by simp) fun h => ?_, by simp⟩
    simp [h.2.2 hmagic.1] at hmagic
  rw [if_neg hmagic]
  by_cases hok : dl.flash w.writes = none ∧ w.imgOft + w.fbuf.length ≤ slotSize
  · rw [flashAreaWrite_of_ok hok.1 hok.2]
    refine ⟨_, true, rfl, iff_of_true rfl ⟨hok.2, hok.1, fun hoft => ?_⟩, fun _ => ⟨rfl, rfl, rfl⟩⟩
    simpa [hoft] using hmagic
  · obtain ⟨slot, hwrite, -⟩ := flashAreaWrite_of_fails hok
    rw [hwrite]
    exact ⟨_, false, rfl, iff_of_false (by simp) fun h => hok ⟨h.2.1, h.1⟩, by simp⟩

theorem Clean.fileClose (h : Clean dl data w) :
    ∃ w' ok, fileClose dl w = (w', ok) ∧ (ok = true ↔ NoError dl data) ∧
      (ok = true → w'.imgOft = data.length ∧ w'.slot = dl.slot.write 0 data ∧
        ∀ k < w'.writes, dl.flash k = none) := by
  have hlen := h.fbuf_length
  have hwritten : ∀ k < w.writes, dl.flash k = none := fun k hk =>
    (h.blocks_ok k (h.writes ▸ hk)).1
  by_cases hnil : w.fbuf = []
  · -- Nothing waits.
    rw [WiseSdk.Ota.fileClose, if_pos hnil]
    rw [hnil, length_nil, Nat.zero_add] at hlen
    refine ⟨w, true, rfl, iff_of_true rfl ⟨h.blocks_ok, fun hlt => by omega, ?_⟩, fun _ => ?_⟩
    · split_ifs with hzero
      · rw [hzero, Nat.mul_zero] at hlen
        exact fun hne => absurd (length_eq_zero_iff.mp hlen.symm) hne
      · exact h.marked (Nat.pos_of_ne_zero hzero)
    · refine ⟨h.imgOft.trans hlen, ?_, hwritten⟩
      rw [h.slot, take_of_length_le (Nat.le_of_eq hlen.symm)]
  have hpos : 0 < w.fbuf.length := length_pos_iff.mpr hnil
  have hzero : w.imgOft = 0 ↔ blocks data = 0 := by rw [h.imgOft, offset_eq_zero]
  obtain ⟨w', ok, hclose, hok, hafter⟩ := fileClose_of_waiting dl hnil
  rw [h.writes, hzero] at hok
  have hoft := h.imgOft
  refine ⟨w', ok, hclose, hok.trans ⟨?_, ?_⟩, fun hsucceeds => ?_⟩
  · rintro ⟨hin, hflash, hmagic⟩
    refine ⟨h.blocks_ok, fun _ => ⟨hflash, by omega⟩, ?_⟩
    split_ifs with hb
    · rw [← h.slot_of_no_block hb]
      exact fun _ => hmagic hb
    · exact h.marked (Nat.pos_of_ne_zero hb)
  · rintro ⟨-, hlast, hold⟩
    obtain ⟨hflash, hin⟩ := hlast (by omega)
    refine ⟨by omega, hflash, fun hb => ?_⟩
    rw [if_pos hb] at hold
    rw [h.slot_of_no_block hb]
    refine hold ?_
    rintro rfl
    exact hnil (by simp [h.fbuf])
  · obtain ⟨hslot, hend, hwrites⟩ := hafter hsucceeds
    refine ⟨by omega, hslot.trans h.slot_closed, fun k hk => ?_⟩
    rw [hwrites] at hk
    rcases Nat.lt_succ_iff_lt_or_eq.mp hk with hk | rfl
    · exact hwritten k hk
    · rw [h.writes]
      exact (hok.mp hsucceeds).2.1

theorem FailedAt.lostError_iff (h : FailedAt dl data w j) :
    LostError dl data ↔ maxWriteBufLen * (j + 1) ≤ slotSize ∧ dl.flash (j + 1) = none ∧
        (j = 0 → checkMagic w.slot = true) := by
  constructor
  · rintro ⟨i, hi, hblocks, hin, hclose, left, hleft, hmagic⟩
    -- Both are the first buffer that fails.
    have hij : i = j := by
      rcases Nat.lt_trichotomy i j with hlt | heq | hgt
      · exact absurd ((h.blocks_ok i hlt).1.symm.trans hleft) (by simp)
      · exact heq
      · exact absurd (hblocks j hgt) h.not_ok
    subst hij
    refine ⟨hin, hclose, fun hzero => ?_⟩
    rw [if_pos hzero] at hmagic
    rwa [h.slot left hleft hin]
  · rintro ⟨hin, hclose, hmagic⟩
    obtain ⟨left, hleft⟩ : ∃ left, dl.flash j = some left :=
      Option.ne_none_iff_exists'.mp fun hnone => h.not_ok ⟨hnone, hin⟩
    refine ⟨j, h.lt_blocks, h.blocks_ok, hin, hclose, left, hleft, ?_⟩
    split_ifs with hzero
    · rw [← h.slot left hleft hin]
      exact hmagic hzero
    · exact h.marked (Nat.pos_of_ne_zero hzero)

theorem FailedAt.in_area_iff (h : FailedAt dl data w j) :
    w.imgOft + w.fbuf.length ≤ slotSize ↔ maxWriteBufLen * (j + 1) ≤ slotSize := by
  have hpos : 0 < w.fbuf.length := length_pos_iff.mpr h.fbuf
  have hlt := h.fbuf_lt
  rw [h.imgOft]
  simp only [maxWriteBufLen, slotSize] at *
  omega

theorem Stopped.fileClose (h : Stopped dl data w) :
    ∃ w' ok, fileClose dl w = (w', ok) ∧ (ok = true ↔ LostError dl data) ∧
      ¬ NoError dl data ∧ (ok = true → ∃ k < w'.writes, dl.flash k ≠ none) := by
  rcases h with ⟨j, h⟩ | h
  · have hzero : w.imgOft = 0 ↔ j = 0 := by rw [h.imgOft, offset_eq_zero]
    obtain ⟨w', ok, hclose, hok, hafter⟩ := fileClose_of_waiting dl h.fbuf
    rw [h.in_area_iff, h.writes, hzero, ← h.lostError_iff] at hok
    refine ⟨w', ok, hclose, hok, not_noError_of_not_ok h.lt_blocks h.not_ok, fun hsucceeds => ?_⟩
    refine ⟨j, ?_, fun hnone => h.not_ok ⟨hnone, (h.lostError_iff.mp (hok.mp hsucceeds)).1⟩⟩
    rw [(hafter hsucceeds).2.2, h.writes]
    omega
  · -- The magic number is missing a second time.
    rw [WiseSdk.Ota.fileClose, if_neg h.fbuf, if_pos ⟨h.imgOft, h.no_magic⟩]
    refine ⟨w, false, rfl, iff_of_false (by simp) ?_, ?_, by simp⟩
    · rintro ⟨j, _, hblocks, _, _, left, hleft, hmagic⟩
      rcases Nat.eq_zero_or_pos j with rfl | hj
      · exact absurd (h.block_ok.1.symm.trans hleft) (by simp)
      · rw [if_neg (by omega)] at hmagic
        exact h.not_marked hmagic
    · intro herr
      have hmarked := herr.2.2
      rw [if_neg (Nat.ne_of_gt h.blocks_pos)] at hmarked
      exact h.not_marked hmarked

end Close

/-! ## The agent -/

theorem bootSafe_iff (hheader : dl.header = .ok (hdrLen, n)) (hdata : data <+: dl.body hdrLen)
    (hoft : w.imgOft = data.length) (hslot : w.slot = dl.slot.write 0 data)
    (hwrites : ∀ k < w.writes, dl.flash k = none) :
    BootSafe dl w ↔ (data.length : ℤ) = n ∧ checkMagic (dl.slot.write 0 data) = true := by
  constructor
  · rintro ⟨⟨hdrLen', n', hheader', hn, _, _⟩, _, hmagic⟩
    rw [hheader] at hheader'
    cases hheader'
    exact ⟨by rw [← hoft, hn], hslot ▸ hmagic⟩
  · rintro ⟨rfl, hmagic⟩
    refine ⟨⟨hdrLen, data.length, hheader, hoft, hdata.length_le, fun i hi => ?_⟩, hwrites,
      hslot ▸ hmagic⟩
    obtain ⟨rest, hrest⟩ := hdata
    rw [← hrest, getElem?_append_left hi, hslot]
    exact Slot.write_getElem? dl.slot hi

theorem doMcubootAgent_of_header (h : dl.header = .ok (hdrLen, n)) :
    ∃ w, (Clean dl (dl.data hdrLen n) w ∨ Stopped dl (dl.data hdrLen n) w) ∧ doMcubootAgent dl =
        if (fileClose dl w).2 then .ok (fileClose dl w).1 else .error .failed := by
  unfold Download.header at h
  unfold doMcubootAgent httpRecvRsp Download.data Download.bodyStart
  have hlens := dl.chunk_length
  cases hchunks : dl.chunks with
  | nil => simp [hchunks] at h
  | cons first rest =>
    rw [hchunks] at h hlens
    simp only [h, headD_cons, tail_cons]
    have hbody : (first.drop (hdrLen + 1)).length ≤ maxBufLen := by
      have := (hlens first mem_cons_self).2
      rw [length_drop]
      omega
    obtain ⟨w, ok, hwrite, hafter⟩ := (clean_start dl).fileWrite hbody
    simp only [hwrite]
    cases ok with
    | false => exact ⟨w, .inr (Stopped.mono hafter (taken_isPrefix ..)), rfl⟩
    | true =>
      refine ⟨_, Clean.recvBody hafter fun chunk hc => ?_, rfl⟩
      exact (hlens chunk (mem_cons_of_mem _ hc)).2

/-- **A safe update.** The agent reaches `boot_set_pending_multi` only with a bootable slot if and
only if none of the things it does not notice happens. -/
theorem agentSafe_iff (dl : Download) : AgentSafe dl ↔ Unspoilt dl := by
  cases hheader : dl.header with
  | error fault =>
    have hagent : doMcubootAgent dl = .error fault := by
      unfold Download.header at hheader
      unfold doMcubootAgent httpRecvRsp
      cases hchunks : dl.chunks with
      | nil => simpa [hchunks] using hheader
      | cons first rest =>
        rw [hchunks] at hheader
        simp only [hheader]
    unfold AgentSafe Unspoilt
    rw [hagent, hheader]
    cases fault <;> simp
  | ok header =>
    obtain ⟨hdrLen, n⟩ := header
    obtain ⟨w, hw, hagent⟩ := doMcubootAgent_of_header hheader
    have hcond : Unspoilt dl ↔ ¬ LostError dl (dl.data hdrLen n) ∧
        ¬ WrongLength dl n (dl.data hdrLen n) ∧ ¬ StaleMagic dl (dl.data hdrLen n) := by
      simp [Unspoilt, hheader]
    refine Iff.trans ?_ hcond.symm
    unfold AgentSafe
    rw [hagent]
    rcases hw with hclean | hstopped
    · obtain ⟨w', ok, hclose, hok, hafter⟩ := hclean.fileClose
      have hlost : ¬ LostError dl (dl.data hdrLen n) := by
        rintro ⟨j, hj, _, _, _, left, hleft, _⟩
        exact absurd ((hclean.blocks_ok j hj).1.symm.trans hleft) (by simp)
      have hpre : dl.data hdrLen n <+: dl.body hdrLen := taken_isPrefix_body ..
      simp only [hclose]
      cases ok with
      | false =>
        have hno : ¬ NoError dl (dl.data hdrLen n) := fun h =>
          absurd (hok.mpr h) (by simp)
        exact iff_of_true trivial ⟨hlost, fun h => hno h.1, fun h => hno h.1⟩
      | true =>
        have herr := hok.mp rfl
        obtain ⟨hoft, hslot, hwrites⟩ := hafter rfl
        simp only [if_true, bootSafe_iff hheader hpre hoft hslot hwrites]
        unfold WrongLength StaleMagic
        simp [hlost, herr]
    · obtain ⟨w', ok, hclose, hok, hno, hafter⟩ := hstopped.fileClose
      have hrest : ¬ WrongLength dl n (dl.data hdrLen n) ∧
          ¬ StaleMagic dl (dl.data hdrLen n) := ⟨fun h => hno h.1, fun h => hno h.1⟩
      simp only [hclose]
      cases ok with
      | false =>
        exact iff_of_true trivial ⟨fun h => absurd (hok.mpr h) (by simp), hrest⟩
      | true =>
        obtain ⟨k, hk, hfailed⟩ := hafter rfl
        exact iff_of_false (fun hsafe => hfailed (hsafe.writes_ok k hk)) fun hcond =>
          hcond.1 (hok.mp rfl)

/-- A response with status 200 that announces 5000 bytes; the connection is closed after the
header. -/
def closedEarly : Download where
  hbuf := replicate maxBufLen 0
  chunks := [bytes "HTTP/1.1 200 OK\r\nContent-Length: 5000\r\n\r\n"]
  slot := fun _ => 0xff
  flash := fun _ => none
  hbuf_length := length_replicate
  chunk_length := by decide +kernel

/-- **Nothing downloaded, and booted.** A connection is closed early, and the agent reaches
`boot_set_pending_multi` without a byte written. -/
theorem closedEarly_pending :
    (∃ w, doMcubootAgent closedEarly = .ok w ∧ w.imgOft = 0 ∧ w.writes = 0) ∧
      ¬ AgentSafe closedEarly := by
  have hrun : (doMcubootAgent closedEarly).toOption.map (fun w => (w.imgOft, w.writes)) =
      some (0, 0) := by
    decide +kernel
  obtain ⟨w, hw, hend⟩ : ∃ w, doMcubootAgent closedEarly = .ok w ∧
      (w.imgOft, w.writes) = (0, 0) := by
    cases hagent : doMcubootAgent closedEarly with
    | error fault => simp [hagent, Except.toOption] at hrun
    | ok w => exact ⟨w, rfl, by simpa [hagent, Except.toOption] using hrun⟩
  obtain ⟨hoft, hwrites⟩ := Prod.mk.inj hend
  refine ⟨⟨w, hw, hoft, hwrites⟩, fun hsafe => ?_⟩
  unfold AgentSafe at hsafe
  rw [hw] at hsafe
  -- A header that is read announces a length other than 0.
  obtain ⟨⟨hdrLen, n, hheader, hn, _⟩, _, _⟩ := hsafe
  have hlen := Download.header_ok hheader
  omega

end WiseSdk.Ota
