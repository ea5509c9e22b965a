import WiseSdk.Library.ByteMemory

/-!
# Updating a slot or a partition from the console

`flash update` receives a file over X- or Y-modem and programs it block by block. The bootloader's
form names a slot and erases it when the first block has arrived
(`mcuboot/boot/wise/src/flash_map_backend/flash_backend.c`); the shell's names a partition and
erases it before the transfer (`hal/drivers/spi-flash/spi-flash.c`).

Both keep the outcome in one variable `err` without an initial value. The modem library sets it when
it fails, a failed write sets it, every block written clears it, and a time-out at the end of a file
of whole blocks counts as its end. A failed erase does not set it.

A `Session` holds what comes from outside: the first value of `err`, what the modem delivers, and
how the erase and each write end.
-/

namespace WiseSdk.Flash

open Library List BitVec

/-! ## What comes from outside -/

/-- A slot or a partition. -/
structure Target where
  start : BitVec 32
  size : BitVec 32
  fits : start.toNat + size.toNat ≤ 2 ^ 32

def Target.Has (t : Target) (x : ℕ) : Prop :=
  t.start.toNat ≤ x ∧ x < t.start.toNat + t.size.toNat

inductive ModemError where
  | access
  | noZmodem
  | timeout
  | eof
  | cancel
  | frame
  | cksum
  | sequence
  deriving DecidableEq, Repr

/-- Their values in `xyzModem.h`. -/
def ModemError.code : ModemError → ℤ
  | access => -1
  | noZmodem => -2
  | timeout => -3
  | eof => -4
  | cancel => -5
  | frame => -6
  | cksum => -7
  | sequence => -8

/-- What the erase returns, and how many bytes it has erased when that is not `0`. -/
structure EraseOutcome where
  ret : ℤ
  erased : ℕ
  deriving DecidableEq, Repr

/-- A write that returns a negative value has programmed some of its bytes. -/
inductive WriteOutcome where
  | done
  | failed (programmed : ℕ)
  deriving DecidableEq, Repr

/-- A block of `xyzModem_stream_read`, what that call stores in `err`, and how the block's write
ends. -/
structure Block where
  len : ℕ
  err : Option ModemError
  write : WriteOutcome
  pos : 0 < len
  le : len ≤ 1024

structure Session where
  /-- The value of `err` before anything is stored in it. -/
  garbage : ℤ
  /-- `xyzModem_stream_open` fails with an error. -/
  opened : Option ModemError
  blocks : List Block
  /-- What the call of `xyzModem_stream_read` that delivers nothing stores in `err`. -/
  last : Option ModemError
  erase : EraseOutcome

def received (blocks : List Block) : ℕ := (blocks.map Block.len).sum

def Block.programmed (b : Block) : ℕ :=
  match b.write with
  | .done => b.len
  | .failed n => min n b.len

def AllWritten (blocks : List Block) : Prop := ∀ b ∈ blocks, b.write = .done
deriving Decidable

/-- The number of bytes programmed when the blocks are written up to the first failure. -/
def programmed : List Block → ℕ
  | [] => 0
  | b :: bs => b.programmed + if b.write = .done then programmed bs else 0

/-! ## The source's functions -/

/-- The variables of an update.  `size` and `offset` count the same bytes. -/
structure Receiver where
  mem : ByteMem
  size : ℕ
  err : ℤ
  erased : Bool

/-- A call of the modem library may store an error. -/
def Receiver.store (r : Receiver) (e : Option ModemError) : Receiver :=
  { r with err := e.elim r.err ModemError.code }

/-- `flash_backend_erase(start, slot_size)` or `flash_erase(p->start, p->size, 0)`. -/
def eraseTarget (t : Target) (o : EraseOutcome) (m : ByteMem) : ByteMem :=
  eraseRange m t.start.toNat
    (if o.ret = 0 then t.size.toNat else min o.erased t.size.toNat)

/-- Bytes `p`, …, `p + n - 1` of the file, each with its 32-bit address. -/
def fileOps (t : Target) (data : ℕ → Byte) (p n : ℕ) : List (ℕ × Byte) :=
  (range' p n).map fun i => ((t.start + BitVec.ofNat 32 i).toNat, data i)

/-- The end of the loop's body: the block is written, and counted or failed. -/
def writeBlock (t : Target) (data : ℕ → Byte) (b : Block) (r : Receiver) :
    Except Receiver Receiver :=
  let mem := program r.mem (fileOps t data r.size b.programmed)
  match b.write with
  | .failed _ => .error { r with mem := mem, err := -1 }
  | .done => .ok { r with mem := mem, size := r.size + b.len, err := 0 }

/-- The body of the bootloader's loop, which erases the slot in its first round. -/
def slotBlock (t : Target) (o : EraseOutcome) (data : ℕ → Byte) (b : Block) (r : Receiver) :
    Except Receiver Receiver :=
  if r.erased then writeBlock t data b r
  else
    let r' := { r with erased := true, mem := eraseTarget t o r.mem }
    if o.ret < 0 then .error r' else writeBlock t data b r'

/-- The `while` loop over the blocks delivered. -/
def receiveBlocks (body : Block → Receiver → Except Receiver Receiver) :
    List Block → Receiver → Except Receiver Receiver
  | [], r => .ok r
  | b :: bs, r =>
    match body b (r.store b.err) with
    | .error r' => .error r'
    | .ok r' => receiveBlocks body bs r'

/-- The loop, the call of `xyzModem_stream_read` that ends it, and the check for a false
time-out. -/
def receive (body : Block → Receiver → Except Receiver Receiver) (s : Session) (r : Receiver) :
    Except Receiver Receiver :=
  match receiveBlocks body s.blocks r with
  | .error r' => .error r'
  | .ok r' =>
    let r'' := r'.store s.last
    if r''.err = ModemError.timeout.code ∧ r''.size % 1024 = 0 then .ok { r'' with err := 0 }
    else .ok r''

inductive CmdRet where
  | success
  | failure
  deriving DecidableEq, Repr

/-- The return value, the flash afterwards, and what the erase returned if there was one. -/
structure UpdateResult where
  ret : CmdRet
  mem : ByteMem
  erase : Option ℤ

/-- The label `out`, reached from the end of the loop or by a jump. -/
def finish (o : EraseOutcome) (r : Except Receiver Receiver) : UpdateResult :=
  match r with
  | .ok r' | .error r' =>
    { ret := if r'.err = 0 then .success else .failure
      mem := r'.mem
      erase := if r'.erased then some o.ret else none }

/-- `do_flash_update` of the bootloader, with the slot known and the buffer allocated. Encryption is
off. -/
def doFlashUpdate (t : Target) (s : Session) (data : ℕ → Byte) (m : ByteMem) : UpdateResult :=
  let r : Receiver := ⟨m, 0, s.garbage, false⟩
  match s.opened with
  | some e => finish s.erase (.error (r.store (some e)))
  | none => finish s.erase (receive (slotBlock t s.erase data) s r)

/-- `flash_update_by_xyzmodem`, once the partition is known and the buffer allocated. -/
def flashUpdateByXyzmodem (t : Target) (s : Session) (data : ℕ → Byte) (m : ByteMem) :
    UpdateResult :=
  let r : Receiver := ⟨eraseTarget t s.erase m, 0, s.garbage, true⟩
  if s.erase.ret ≠ 0 then finish s.erase (.error r)
  else
    match s.opened with
    | some e => finish s.erase (.error (r.store (some e)))
    | none => finish s.erase (receive (writeBlock t data) s r)

inductive UpdateForm where
  | slot
  | part
  deriving DecidableEq, Repr

def flashUpdate : UpdateForm → Target → Session → (ℕ → Byte) → ByteMem → UpdateResult
  | .slot => doFlashUpdate
  | .part => flashUpdateByXyzmodem

/-! ## What an update should do -/

/-- Nothing outside the target changes, and `0` means: target erased, every block written, file in
place. -/
structure StaysInside (t : Target) (s : Session) (data : ℕ → Byte) (m : ByteMem)
    (res : UpdateResult) : Prop where
  outside : ∀ x, ¬t.Has x → res.mem x = m x
  erased : res.ret = .success → res.erase = some 0
  written : res.ret = .success → AllWritten s.blocks
  inPlace : res.ret = .success → ∀ i < received s.blocks, res.mem (t.start.toNat + i) = data i

/-- The value of `err` after the last call of `xyzModem_stream_read`, when every block was
written. -/
def lastErr (s : Session) : ℤ :=
  s.last.elim (if s.blocks = [] then s.garbage else 0) ModemError.code

/-- The transfer ends without an error, or with a time-out after whole blocks. -/
def EndsWell (s : Session) : Prop :=
  lastErr s = 0 ∨ lastErr s = ModemError.timeout.code ∧ received s.blocks % 1024 = 0

/-- The partition form: a failed erase finds something other than `0` in `err`, and else the file
fits. -/
def PartSafe (t : Target) (s : Session) : Prop :=
  if s.erase.ret = 0 then s.opened = none → programmed s.blocks ≤ t.size.toNat
  else s.garbage ≠ 0

/-- The slot form is right when an empty transfer does not end well; a failed erase finds something
other than `0` in `err`; and else the file fits, and the transfer does not end well after an erase
that returned a positive value. -/
def SlotSafe (t : Target) (s : Session) : Prop :=
  s.opened = none →
    match s.blocks with
    | [] => ¬EndsWell s
    | b :: _ =>
      if s.erase.ret < 0 then b.err ≠ none ∨ s.garbage ≠ 0
      else programmed s.blocks ≤ t.size.toNat ∧
        (s.erase.ret = 0 ∨ ¬(AllWritten s.blocks ∧ EndsWell s))

def UpdateSafe : UpdateForm → Target → Session → Prop
  | .slot => SlotSafe
  | .part => PartSafe

/-! ## Programming the file -/

variable {t : Target} {data : ℕ → Byte} {m : ByteMem} {s : Session} {r : Receiver} {x p n k i : ℕ}

theorem fileOps_append (t : Target) (data : ℕ → Byte) (p n k : ℕ) :
    fileOps t data p (n + k) = fileOps t data p n ++ fileOps t data (p + n) k := by
  rw [fileOps, ← range'_append_1, map_append]
  rfl

theorem addr_of_lt (hi : i < t.size.toNat) :
    (t.start + BitVec.ofNat 32 i).toNat = t.start.toNat + i := by
  have := t.fits
  rw [toNat_add, toNat_ofNat]
  omega

theorem not_has_addr_size (t : Target) :
    ¬t.Has (t.start + BitVec.ofNat 32 t.size.toNat).toNat := by
  rw [toNat_add, toNat_ofNat, Target.Has]
  omega

theorem eraseTarget_of_not_has (o : EraseOutcome) (h : ¬t.Has x) :
    eraseTarget t o m x = m x := by
  rw [eraseTarget, eraseRange, if_neg]
  rw [Target.Has] at h
  split <;> omega

theorem eraseTarget_of_has {o : EraseOutcome} (ho : o.ret = 0) (h : t.Has x) :
    eraseTarget t o m x = Byte.erased := by
  rw [eraseTarget, eraseRange, if_pos ho]
  exact if_pos h

theorem program_of_not_has (hn : n ≤ t.size.toNat) (h : ¬t.Has x) :
    program m (fileOps t data 0 n) x = m x := by
  refine program_of_ones fun op hop hx => absurd ?_ h
  obtain ⟨i, hi, rfl⟩ := mem_map.mp hop
  have hlt : i < n := by simpa using hi
  rw [← hx, addr_of_lt (by omega), Target.Has]
  omega

theorem program_of_erased (hn : n ≤ t.size.toNat) (hi : i < n)
    (hm : m (t.start.toNat + i) = Byte.erased) :
    program m (fileOps t data 0 n) (t.start.toNat + i) = data i := by
  refine program_eq hm (mem_map.mpr ⟨i, by simpa using hi, ?_⟩) fun op hop hx => .inr ?_
  · rw [addr_of_lt (by omega)]
  · obtain ⟨j, hj, rfl⟩ := mem_map.mp hop
    have hjn : j < n := by simpa using hj
    rw [addr_of_lt (by omega)] at hx
    obtain rfl : j = i := by omega
    rfl

theorem program_zeros (hn : t.size.toNat < n)
    (hm : m (t.start + BitVec.ofNat 32 t.size.toNat).toNat = Byte.erased) :
    program m (fileOps t (fun _ => 0#8) 0 n) (t.start + BitVec.ofNat 32 t.size.toNat).toNat =
      0#8 := by
  refine program_eq hm (mem_map.mpr ⟨t.size.toNat, by simpa using hn, rfl⟩)
    fun op hop _ => .inr ?_
  obtain ⟨j, -, rfl⟩ := mem_map.mp hop
  rfl

/-! ## The loop -/

theorem programmed_of_allWritten {blocks : List Block} (h : AllWritten blocks) :
    programmed blocks = received blocks := by
  induction blocks with
  | nil => rfl
  | cons b bs ih =>
    obtain ⟨hb, hbs⟩ := forall_mem_cons.mp h
    rw [programmed, if_pos hb, ih hbs, Block.programmed, hb, received, received, map_cons, sum_cons]

/-- The receiver at the end of the loop. -/
structure LoopDone (t : Target) (data : ℕ → Byte) (blocks : List Block) (r r' : Receiver) :
    Prop where
  mem : r'.mem = program r.mem (fileOps t data r.size (programmed blocks))
  erased : r'.erased = r.erased
  err : r'.err = if AllWritten blocks then (if blocks = [] then r.err else 0) else -1
  size : AllWritten blocks → r'.size = r.size + received blocks

/-- **The loop** programs the blocks up to the first write that fails. -/
theorem receiveBlocks_writeBlock (t : Target) (data : ℕ → Byte) (blocks : List Block)
    (r : Receiver) :
    ∃ r', receiveBlocks (writeBlock t data) blocks r =
        (if AllWritten blocks then .ok r' else .error r') ∧ LoopDone t data blocks r r' := by
  induction blocks generalizing r with
  | nil => exact ⟨r, rfl, rfl, rfl, rfl, fun _ => rfl⟩
  | cons b bs ih =>
    cases hb : b.write with
    | failed n =>
      have hnot : ¬AllWritten (b :: bs) := fun h => by simpa [hb] using h b mem_cons_self
      refine ⟨{ (r.store b.err) with
        mem := program r.mem (fileOps t data r.size b.programmed)
        err := -1 }, ?_, ?_, rfl, (if_neg hnot).symm, fun h => absurd h hnot⟩
      · simp only [receiveBlocks, writeBlock, hb, if_neg hnot]
        rfl
      · simp [programmed, hb]
    | done =>
      have hiff : AllWritten (b :: bs) ↔ AllWritten bs := by simp [AllWritten, hb]
      obtain ⟨r', hr', hdone⟩ := ih { (r.store b.err) with
        mem := program r.mem (fileOps t data r.size b.programmed)
        size := r.size + b.len
        err := 0 }
      have hlen : b.programmed = b.len := by rw [Block.programmed, hb]
      refine ⟨r', ?_, ?_, hdone.erased, ?_, fun h => ?_⟩
      · simp only [receiveBlocks, writeBlock, hb, hiff]
        exact hr'
      · rw [hdone.mem, programmed, if_pos hb, fileOps_append, program_append, hlen]
      · have herr := hdone.err
        simp only [ite_self] at herr
        rw [herr, if_neg (cons_ne_nil b bs)]
        simp only [hiff]
      · rw [hdone.size (hiff.mp h), received, received, map_cons, sum_cons, Nat.add_assoc]

/-- The update once the target is erased: the loop, the last read and the label `out`. -/
def transfer (t : Target) (s : Session) (data : ℕ → Byte) (m : ByteMem) : UpdateResult :=
  finish s.erase
    (receive (writeBlock t data) s ⟨eraseTarget t s.erase m, 0, s.garbage, true⟩)

/-- What is left of `err` after the check for a false time-out. -/
theorem endsWell_iff (s : Session) (herr : r.err = lastErr s) (hsize : r.size = received s.blocks) :
    (if r.err = ModemError.timeout.code ∧ r.size % 1024 = 0 then { r with err := 0 } else r).err =
      0 ↔ EndsWell s := by
  rw [EndsWell, ← herr, ← hsize]
  split
  next h => exact ⟨fun _ => .inr h, fun _ => rfl⟩
  next h => exact ⟨.inl, fun hor => hor.resolve_right h⟩

/-- **The end of a transfer**: the flash, the return value and the erase. -/
theorem transfer_spec (t : Target) (s : Session) (data : ℕ → Byte) (m : ByteMem) :
    (transfer t s data m).mem =
        program (eraseTarget t s.erase m) (fileOps t data 0 (programmed s.blocks)) ∧
      (transfer t s data m).erase = some s.erase.ret ∧
      ((transfer t s data m).ret = .success ↔ AllWritten s.blocks ∧ EndsWell s) := by
  obtain ⟨r', hr', hdone⟩ := receiveBlocks_writeBlock t data s.blocks
    ⟨eraseTarget t s.erase m, 0, s.garbage, true⟩
  have herased : r'.erased = true := hdone.erased
  by_cases hall : AllWritten s.blocks
  · have herr : (r'.store s.last).err = lastErr s := by
      have := hdone.err
      rw [if_pos hall] at this
      rw [Receiver.store, this]
      rfl
    have hsize : (r'.store s.last).size = received s.blocks := by
      have := hdone.size hall
      rwa [Nat.zero_add] at this
    have hend := endsWell_iff s herr hsize
    rw [if_pos hall] at hr'
    simp only [transfer, receive, hr']
    split
    next h =>
      rw [if_pos h] at hend
      exact ⟨hdone.mem, by simp [finish, Receiver.store, herased],
        by simp [finish, hall, hend.symm]⟩
    next h =>
      rw [if_neg h] at hend
      refine ⟨hdone.mem, by simp [finish, Receiver.store, herased], ?_⟩
      simp [finish, hall, hend.symm]
  · have herr : r'.err = -1 := by rw [hdone.err, if_neg hall]
    rw [if_neg hall] at hr'
    simp only [transfer, receive, hr']
    exact ⟨hdone.mem, by simp [finish, herased], by simp [finish, herr, hall]⟩

/-- **Which transfers are right**: the file fits, and a transfer that ends well had the target
erased. -/
theorem transfer_iff (t : Target) (s : Session) :
    (∀ data m, StaysInside t s data m (transfer t s data m)) ↔ programmed s.blocks ≤ t.size.toNat ∧
        (s.erase.ret = 0 ∨ ¬(AllWritten s.blocks ∧ EndsWell s)) := by
  constructor
  · intro h
    refine ⟨?_, ?_⟩
    · -- A file of zeros on an erased flash shows what is programmed outside.
      by_contra hlt
      have hout := (h (fun _ => 0#8) fun _ => Byte.erased).outside _ (not_has_addr_size t)
      rw [(transfer_spec ..).1, program_zeros (Nat.not_le.mp hlt)
        (eraseTarget_of_not_has _ (not_has_addr_size t))] at hout
      exact absurd hout (by decide)
    · by_contra hno
      obtain ⟨hret, hend⟩ := not_or.mp hno
      obtain ⟨-, herase, hiff⟩ := transfer_spec t s (fun _ => 0#8) fun _ => Byte.erased
      have := (h (fun _ => 0#8) fun _ => Byte.erased).erased (hiff.mpr (not_not.mp hend))
      rw [herase, Option.some.injEq] at this
      exact hret this
  · rintro ⟨hfit, hret⟩ data m
    obtain ⟨hmem, herase, hiff⟩ := transfer_spec t s data m
    have hzero : (transfer t s data m).ret = .success → s.erase.ret = 0 := fun hs =>
      hret.resolve_right (not_not_intro (hiff.mp hs))
    refine ⟨fun x hx => ?_, fun hs => ?_, fun hs => (hiff.mp hs).1, fun hs i hi => ?_⟩
    · rw [hmem, program_of_not_has hfit hx, eraseTarget_of_not_has _ hx]
    · rw [herase, hzero hs]
    · rw [programmed_of_allWritten (hiff.mp hs).1] at hmem hfit
      rw [hmem, program_of_erased hfit hi (eraseTarget_of_has (hzero hs) (by
        rw [Target.Has]
        omega))]

/-! ## The two forms -/

theorem code_ne_zero (e : ModemError) : e.code ≠ 0 := by
  cases e <;> decide

theorem staysInside_of_failure {res : UpdateResult} (hout : ∀ x, ¬t.Has x → res.mem x = m x)
    (hret : res.ret ≠ .success) : StaysInside t s data m res :=
  ⟨hout, fun h => absurd h hret, fun h => absurd h hret, fun h => absurd h hret⟩

theorem finish_opened_ne (o : EraseOutcome) (r : Receiver) (e : ModemError) :
    (finish o (.error (r.store (some e)))).ret ≠ .success := by
  simp [finish, Receiver.store, code_ne_zero e]

/-- Once the slot is erased the bootloader's loop is the other one. -/
theorem receiveBlocks_slotBlock (o : EraseOutcome) (blocks : List Block) (h : r.erased = true) :
    receiveBlocks (slotBlock t o data) blocks r = receiveBlocks (writeBlock t data) blocks r := by
  induction blocks generalizing r with
  | nil => rfl
  | cons b bs ih =>
    have hbody : slotBlock t o data b (r.store b.err) = writeBlock t data b (r.store b.err) :=
      if_pos h
    simp only [receiveBlocks, hbody]
    cases hb : b.write with
    | failed n => simp only [writeBlock, hb]
    | done =>
      simp only [writeBlock, hb]
      exact ih h

/-- **The slot form after its first block** is the transfer to an erased slot, if the erase went
well. -/
theorem doFlashUpdate_eq_transfer (hopen : s.opened = none) (hne : s.blocks ≠ [])
    (hret : ¬s.erase.ret < 0) : doFlashUpdate t s data m = transfer t s data m := by
  have hblocks : receiveBlocks (slotBlock t s.erase data) s.blocks ⟨m, 0, s.garbage, false⟩ =
      receiveBlocks (writeBlock t data) s.blocks
        ⟨eraseTarget t s.erase m, 0, s.garbage, true⟩ := by
    rw [← receiveBlocks_slotBlock s.erase s.blocks rfl]
    obtain ⟨b, bs, hbs⟩ := exists_cons_of_ne_nil hne
    have hfirst : slotBlock t s.erase data b (Receiver.store ⟨m, 0, s.garbage, false⟩ b.err) =
        slotBlock t s.erase data b
          (Receiver.store ⟨eraseTarget t s.erase m, 0, s.garbage, true⟩ b.err) := by
      simp [slotBlock, Receiver.store, hret]
    rw [hbs, receiveBlocks, receiveBlocks, hfirst]
  simp only [doFlashUpdate, hopen, transfer, receive, hblocks]

theorem doFlashUpdate_of_neg {b : Block} {bs : List Block} (hopen : s.opened = none)
    (hbs : s.blocks = b :: bs) (hret : s.erase.ret < 0) :
    doFlashUpdate t s data m =
      { ret := if b.err.elim s.garbage ModemError.code = 0 then .success else .failure
        mem := eraseTarget t s.erase m
        erase := some s.erase.ret } := by
  simp [doFlashUpdate, hopen, receive, hbs, receiveBlocks, slotBlock, Receiver.store, hret, finish]

theorem doFlashUpdate_of_nil (t : Target) (data : ℕ → Byte) (m : ByteMem) (hopen : s.opened = none)
    (hbs : s.blocks = []) :
    (doFlashUpdate t s data m).mem = m ∧ (doFlashUpdate t s data m).erase = none ∧
      ((doFlashUpdate t s data m).ret = .success ↔ EndsWell s) := by
  have herr : (Receiver.store ⟨m, 0, s.garbage, false⟩ s.last).err = lastErr s := by
    rw [lastErr, if_pos hbs]
    rfl
  have hend := endsWell_iff s herr (by rw [hbs]; rfl)
  simp only [doFlashUpdate, hopen, receive, hbs, receiveBlocks]
  split
  next h =>
    rw [if_pos h] at hend
    exact ⟨rfl, rfl, by simp [finish, hend.symm]⟩
  next h =>
    rw [if_neg h] at hend
    exact ⟨rfl, rfl, by simp [finish, hend.symm]⟩

theorem elim_code_eq_zero_iff (e : Option ModemError) (g : ℤ) :
    e.elim g ModemError.code = 0 ↔ ¬(e ≠ none ∨ g ≠ 0) := by
  cases e with
  | none => simp
  | some e => simp [code_ne_zero e]

theorem slot_iff (t : Target) (s : Session) :
    (∀ data m, StaysInside t s data m (doFlashUpdate t s data m)) ↔ SlotSafe t s := by
  cases hopen : s.opened with
  | some e =>
    refine ⟨fun _ h => ?_, fun _ data m => staysInside_of_failure (fun x _ => ?_) ?_⟩
    · rw [hopen] at h
      cases h
    · simp only [doFlashUpdate, hopen]
      rfl
    · simp only [doFlashUpdate, hopen]
      exact finish_opened_ne _ _ e
  | none =>
    simp only [SlotSafe, hopen, true_implies]
    cases hbs : s.blocks with
    | nil =>
      refine ⟨fun h hend => ?_, fun h data m => ?_⟩
      · obtain ⟨-, herase, hiff⟩ := doFlashUpdate_of_nil t (fun _ => 0#8)
          (fun _ => Byte.erased) hopen hbs
        have := (h (fun _ => 0#8) fun _ => Byte.erased).erased (hiff.mpr hend)
        rw [herase] at this
        cases this
      · obtain ⟨hmem, -, hiff⟩ := doFlashUpdate_of_nil t data m hopen hbs
        exact staysInside_of_failure (fun x _ => by rw [hmem]) fun hs => h (hiff.mp hs)
    | cons b bs =>
      by_cases hneg : s.erase.ret < 0
      · simp only [if_pos hneg, doFlashUpdate_of_neg hopen hbs hneg]
        refine ⟨fun h => ?_, fun h data m => staysInside_of_failure (fun x hx => ?_) ?_⟩
        · by_contra hno
          have herr := (elim_code_eq_zero_iff b.err s.garbage).mpr hno
          have := (h (fun _ => 0#8) fun _ => Byte.erased).erased (if_pos herr)
          rw [Option.some.injEq] at this
          omega
        · exact eraseTarget_of_not_has _ hx
        · rw [if_neg fun hz => (elim_code_eq_zero_iff b.err s.garbage).mp hz h]
          exact nofun
      · have hne : s.blocks ≠ [] := by simp [hbs]
        simp only [if_neg hneg, doFlashUpdate_eq_transfer hopen hne hneg, transfer_iff, hbs]

theorem part_iff (t : Target) (s : Session) :
    (∀ data m, StaysInside t s data m (flashUpdateByXyzmodem t s data m)) ↔ PartSafe t s := by
  rw [PartSafe]
  split_ifs with hret
  · cases hopen : s.opened with
    | some e =>
      refine ⟨fun _ h => (nomatch h), fun _ data m =>
        staysInside_of_failure (fun x hx => ?_) ?_⟩
      · simp only [flashUpdateByXyzmodem, hret, hopen]
        exact eraseTarget_of_not_has _ hx
      · simp only [flashUpdateByXyzmodem, hret, hopen]
        exact finish_opened_ne _ _ e
    | none =>
      have heq : ∀ data m, flashUpdateByXyzmodem t s data m = transfer t s data m := fun data m =>
        by simp only [flashUpdateByXyzmodem, hret, hopen]; rfl
      simp only [heq, transfer_iff, hret, true_or, and_true, true_implies]
  · have heq : ∀ data m, flashUpdateByXyzmodem t s data m =
        ⟨if s.garbage = 0 then .success else .failure, eraseTarget t s.erase m,
          some s.erase.ret⟩ := fun data m => by simp [flashUpdateByXyzmodem, hret, finish]
    simp only [heq]
    refine ⟨fun h hz => ?_, fun h data m => staysInside_of_failure (fun x hx => ?_) ?_⟩
    · have := (h (fun _ => 0#8) fun _ => Byte.erased).erased (if_pos hz)
      exact hret (Option.some.inj this)
    · exact eraseTarget_of_not_has _ hx
    · rw [if_neg h]
      exact nofun

/-- **The console update** of any flash with any file stays inside its target, and returns `0` only
for a file that stands there, exactly when the session is safe. -/
theorem flashUpdate_staysInside_iff (form : UpdateForm) (t : Target) (s : Session) :
    (∀ data m, StaysInside t s data m (flashUpdate form t s data m)) ↔ UpdateSafe form t s :=
  match form with
  | .slot => slot_iff t s
  | .part => part_iff t s

def sectorTarget : Target := ⟨0x1000#32, 0x1000#32, by decide⟩

def fiveBlocks : Session where
  garbage := 0
  opened := none
  blocks := List.replicate 5 ⟨1024, none, .done, by decide, by decide⟩
  last := none
  erase := ⟨0, 0⟩

theorem flashUpdate_fiveBlocks (form : UpdateForm) (data : ℕ → Byte) (m : ByteMem) :
    flashUpdate form sectorTarget fiveBlocks data m = transfer sectorTarget fiveBlocks data m := by
  cases form with
  | slot =>
    have hret : ¬fiveBlocks.erase.ret < 0 := by decide
    exact doFlashUpdate_eq_transfer rfl (by simp [fiveBlocks]) hret
  | part => rfl

/-- **A file longer than its target.** Five blocks for four: both forms return `0` and clear the
byte after the target. -/
theorem update_runs_past_target :
    ¬sectorTarget.Has 0x2000 ∧ ∀ form : UpdateForm,
      let res := flashUpdate form sectorTarget fiveBlocks (fun _ => 0#8) fun _ => Byte.erased
      res.ret = .success ∧ res.mem 0x2000 = 0#8 := by
  refine ⟨fun h => absurd h.2 (by decide), fun form => ?_⟩
  obtain ⟨hmem, -, hret⟩ :=
    transfer_spec sectorTarget fiveBlocks (fun _ => 0#8) fun _ => Byte.erased
  simp only [flashUpdate_fiveBlocks]
  refine ⟨hret.mpr ⟨by decide, .inl rfl⟩, ?_⟩
  rw [hmem]
  exact program_zeros (t := sectorTarget) (by decide) rfl

end WiseSdk.Flash
