import WiseSdk.I2c.Completion
import WiseSdk.Library.ByteMemory
import WiseSdk.Library.Runs

/-!
# The data of an I2C master transaction

Without DMA `i2c_irq` moves the bytes between the buffers and the FIFO of the controller.  The
controller moves bytes between FIFO and bus at any time, also while the handler runs: an interrupt
comes with the numbers of bytes moved before each read of the status register.  The controller is
complete when all bytes were on the bus.

A byte outside a buffer, a read of an empty FIFO and a write to a full one have no result.
-/

namespace WiseSdk.I2c

open Library List

def fifoSize : ℕ := 4

def transMax : ℕ := 256

/-- The driver and the controller; `written` records the writes to the data register, and
`incoming` is what the slave has yet to send. -/
structure Transfer where
  state : State
  (txBuf rxBuf : List Byte)
  (txOffset rxOffset : ℕ)
  (fifo written : List Byte)
  sent : ℕ
  incoming : List Byte

namespace Transfer

def move (k : ℕ) (s : Transfer) : Transfer :=
  match s.state with
  | .idle => s
  | .tx | .txRx => { s with fifo := s.fifo.drop k, sent := s.sent + min k s.fifo.length }
  | .rx =>
    let n := min k (fifoSize - s.fifo.length)
    { s with fifo := s.fifo ++ s.incoming.take n, incoming := s.incoming.drop n }

/-- A byte of `tx_buf` is written to the data register. -/
def put (s : Transfer) : Option Transfer :=
  if s.fifo.length < fifoSize then
    s.txBuf[s.txOffset]?.map fun b =>
      { s with fifo := s.fifo ++ [b], written := s.written ++ [b], txOffset := s.txOffset + 1 }
  else none

/-- The data register is read to `rx_buf`. -/
def get (s : Transfer) : Option Transfer :=
  match s.fifo with
  | [] => none
  | b :: rest =>
    if s.rxOffset < s.rxBuf.length then
      some { s with fifo := rest, rxBuf := s.rxBuf.set s.rxOffset b, rxOffset := s.rxOffset + 1 }
    else none

/-- "put fifo until full or tx length reached". -/
def putLoop (moves : ℕ → ℕ) : ℕ → Transfer → Option Transfer
  | 0, _ => none
  | fuel + 1, s =>
    if s.txOffset = s.txBuf.length then some s
    else s.put.bind fun s =>
      let s := s.move (moves fuel)
      if s.fifo.length = fifoSize then some s else putLoop moves fuel s

/-- "get fifo until empty or rx length reached". -/
def getLoop (moves : ℕ → ℕ) : ℕ → Transfer → Option Transfer
  | 0, _ => none
  | fuel + 1, s =>
    if s.rxOffset = s.rxBuf.length then some s
    else s.get.bind fun s =>
      let s := s.move (moves fuel)
      if s.fifo = [] then some s else getLoop moves fuel s

/-- "rx complete, get left over fifo": nothing is moved any more, and the FIFO may be empty. -/
def leftOver (fuel : ℕ) (s : Transfer) : Option Transfer :=
  if s.fifo = [] then some s else getLoop (fun _ => 0) fuel s

/-- `i2c_irq` without DMA; in the idle state no interrupt is enabled. -/
def irq (moves : ℕ → ℕ) (s : Transfer) : Option Transfer :=
  match s.state with
  | .idle => some s
  | .tx | .txRx =>
    (if s.fifo = [] then putLoop moves (transMax + 1) s else some s).map fun t =>
      if s.sent = s.txBuf.length then
        { t with state := if s.state = .txRx then .rx else .idle }
      else t
  | .rx =>
    (if s.fifo.length = fifoSize then getLoop moves (transMax + 1) s else some s).bind fun t =>
      if s.incoming = [] then
        (leftOver (transMax + 1) t).map fun t => { t with state := .idle }
      else some t

end Transfer

/-- What happens: the controller moves bytes, or the handler runs. -/
inductive Action where
  | move (k : ℕ)
  | irq (moves : ℕ → ℕ)

def step (s : Transfer) : Action → Option Transfer
  | .move k => some (s.move k)
  | .irq moves => s.irq moves

/-- A transaction: what to send, what the slave sends, and the buffer for it. -/
structure Job where
  kind : State
  (tx rx buf : List Byte)
  busy : kind ≠ .idle
  onlyTx : kind = .tx → rx = []
  onlyRx : kind = .rx → tx = []
  txLen : tx.length ≤ transMax
  rxLen : rx.length ≤ transMax
  room : buf.length = rx.length

def Job.start (j : Job) : Transfer := ⟨j.kind, j.tx, j.buf, 0, 0, [], [], 0, j.rx⟩

/-- Only bytes of the transaction are moved, in order, and all of them when it is complete. -/
def Intact (j : Job) (s : Transfer) : Prop :=
  s.written <+: j.tx ∧ s.rxBuf.take s.rxOffset <+: j.rx ∧
    (s.state = .idle → s.written = j.tx ∧ s.rxBuf = j.rx)

/-- What the handler does from one state to the next: an empty FIFO is filled, or gets the last
bytes, a full one is read to its end, and a completed transmission or reception is left. -/
def MovesOn (s t : Transfer) : Prop :=
  match s.state with
  | .idle => True
  | .tx | .txRx =>
    (s.fifo = [] → min (s.written.length + fifoSize) s.txBuf.length ≤ t.written.length) ∧
      (s.sent = s.txBuf.length → t.state = if s.state = .txRx then .rx else .idle)
  | .rx =>
    (s.fifo.length = fifoSize → s.rxOffset + fifoSize ≤ t.rxOffset) ∧
      (s.incoming = [] → t.state = .idle)

/-! ## Sending -/

/-- The invariant in the states of a transmission. -/
structure Sending (j : Job) (s : Transfer) : Prop where
  state : s.state = .tx ∧ j.rx = [] ∨ s.state = .txRx
  txBuf : s.txBuf = j.tx
  rxBuf : s.rxBuf.length = j.rx.length
  rxOffset : s.rxOffset = 0
  written : s.written = j.tx.take s.txOffset
  txOffset : s.txOffset ≤ j.tx.length
  fifo : s.fifo.length ≤ fifoSize
  sent : s.sent + s.fifo.length = s.txOffset
  incoming : s.incoming = j.rx

variable {j : Job} {s : Transfer}

theorem Sending.length_written (h : Sending j s) : s.written.length = s.txOffset := by
  rw [h.written, length_take, Nat.min_eq_left h.txOffset]

theorem Sending.move (h : Sending j s) (k : ℕ) :
    Sending j (s.move k) ∧ s.sent ≤ (s.move k).sent := by
  have hsent := h.sent
  have heq : s.move k = { s with fifo := s.fifo.drop k, sent := s.sent + min k s.fifo.length } := by
    rcases h.state with ⟨hstate, -⟩ | hstate <;> rw [Transfer.move, hstate]
  rw [heq]
  refine ⟨{ h with fifo := ?_, sent := ?_ }, Nat.le_add_right _ _⟩
  · exact (drop_sublist k s.fifo).length_le.trans h.fifo
  · simp only [length_drop]
    omega

theorem Sending.put (h : Sending j s) (hroom : s.fifo.length < fifoSize)
    (hmore : s.txOffset ≠ s.txBuf.length) :
    ∃ t, s.put = some t ∧ Sending j t ∧ t.txOffset = s.txOffset + 1 ∧ t.sent = s.sent := by
  rw [h.txBuf] at hmore
  have hlt : s.txOffset < j.tx.length := Nat.lt_of_le_of_ne h.txOffset hmore
  have hget : s.txBuf[s.txOffset]? = some j.tx[s.txOffset] := by
    rw [h.txBuf, getElem?_eq_getElem hlt]
  rw [Transfer.put, if_pos hroom, hget]
  refine ⟨_, rfl, { h with written := ?_, txOffset := hlt, fifo := ?_, sent := ?_ }, rfl, rfl⟩
  · simp [h.written]
  · rwa [length_append, length_singleton]
  · simp [← h.sent, Nat.add_assoc]

theorem Transfer.offsets_move (s : Transfer) (k : ℕ) :
    (s.move k).txOffset = s.txOffset ∧ (s.move k).rxOffset = s.rxOffset := by
  rw [Transfer.move]
  split <;> exact ⟨rfl, rfl⟩

/-- The loop ends at the last byte or with a full FIFO. -/
theorem Sending.putLoop (moves : ℕ → ℕ) (fuel : ℕ) (h : Sending j s)
    (hroom : s.fifo.length ≠ fifoSize) (hfuel : j.tx.length < s.txOffset + fuel) :
    ∃ t, s.putLoop moves fuel = some t ∧ Sending j t ∧
      min (s.sent + fifoSize) j.tx.length ≤ t.txOffset := by
  induction fuel generalizing s with
  | zero => exact absurd h.txOffset (Nat.not_le.mpr hfuel)
  | succ fuel ih =>
    rw [Transfer.putLoop]
    split_ifs with hend
    · exact ⟨s, rfl, h, by rw [hend, h.txBuf]; exact Nat.min_le_right _ _⟩
    obtain ⟨t, hput, ht, hoffset, hsent⟩ := h.put (Nat.lt_of_le_of_ne h.fifo hroom) hend
    rw [hput, Option.bind_some]
    obtain ⟨hmove, hle⟩ := ht.move (moves fuel)
    rw [hsent] at hle
    dsimp only
    split_ifs with hfull
    · have hsum := hmove.sent
      exact ⟨_, rfl, hmove, by omega⟩
    · obtain ⟨u, hu, hinv, hfilled⟩ := ih hmove hfull (by rw [(t.offsets_move _).1]; omega)
      exact ⟨u, hu, hinv, by omega⟩

/-! ## Receiving -/

/-- The invariant of a reception: what is stored, in the FIFO and yet to come is what the slave
sends. -/
structure Receiving (j : Job) (s : Transfer) : Prop where
  state : s.state = .rx
  written : s.written = j.tx
  rxBuf : s.rxBuf.length = j.rx.length
  rxOffset : s.rxOffset ≤ s.rxBuf.length
  fifo : s.fifo.length ≤ fifoSize
  incoming : s.rxBuf.take s.rxOffset ++ s.fifo ++ s.incoming = j.rx

theorem Receiving.move (h : Receiving j s) (k : ℕ) :
    Receiving j (s.move k) ∧ (s.incoming = [] → (s.move k).incoming = []) ∧
      s.fifo.length ≤ (s.move k).fifo.length := by
  obtain ⟨n, hn, heq⟩ : ∃ n ≤ fifoSize - s.fifo.length, s.move k =
      { s with fifo := s.fifo ++ s.incoming.take n, incoming := s.incoming.drop n } := by
    refine ⟨_, Nat.min_le_right k _, ?_⟩
    rw [Transfer.move, h.state]
  rw [heq]
  refine ⟨{ h with fifo := ?_, incoming := ?_ }, fun hnone => by simp [hnone], by simp⟩
  · have := h.fifo
    simp only [length_append, length_take]
    omega
  · simp only [append_assoc, take_append_drop]
    rw [← append_assoc, h.incoming]

theorem Receiving.get (h : Receiving j s) (hne : s.fifo ≠ []) :
    s.rxOffset < s.rxBuf.length ∧ ∃ t, s.get = some t ∧ Receiving j t ∧
      t.rxOffset = s.rxOffset + 1 ∧ s.fifo.length = t.fifo.length + 1 ∧
      t.incoming = s.incoming := by
  obtain ⟨b, rest, hfifo⟩ := exists_cons_of_ne_nil hne
  have hlen := congrArg length h.incoming
  have hfull := h.fifo
  rw [hfifo, length_cons] at hfull
  simp only [hfifo, length_append, length_take, length_cons, ← h.rxBuf,
    Nat.min_eq_left h.rxOffset] at hlen
  have hlt : s.rxOffset < s.rxBuf.length := by omega
  rw [Transfer.get, hfifo]
  dsimp only
  rw [if_pos hlt]
  refine ⟨hlt, _, rfl, { h with rxBuf := ?_, rxOffset := ?_, fifo := ?_, incoming := ?_ }, rfl,
    length_cons, rfl⟩
  · rw [length_set, h.rxBuf]
  · rwa [length_set]
  · exact Nat.le_of_succ_le hfull
  · rw [← h.incoming, hfifo]
    simp [take_set, take_add_one, hlt, set_eq_of_length_le]

theorem Receiving.getLoop (moves : ℕ → ℕ) (fuel : ℕ) (h : Receiving j s) (hne : s.fifo ≠ [])
    (hfuel : j.rx.length < s.rxOffset + fuel) :
    ∃ t, s.getLoop moves fuel = some t ∧ Receiving j t ∧ t.fifo = [] ∧
      (s.incoming = [] → t.incoming = []) ∧ s.rxOffset + s.fifo.length ≤ t.rxOffset := by
  induction fuel generalizing s with
  | zero => exact absurd (h.rxBuf ▸ h.rxOffset) (Nat.not_le.mpr hfuel)
  | succ fuel ih =>
    obtain ⟨hlt, t, hget, ht, hoffset, hfifo, hincoming⟩ := h.get hne
    rw [Transfer.getLoop, if_neg (Nat.ne_of_lt hlt), hget, Option.bind_some, ← hincoming]
    obtain ⟨hmove, hnone, hlen⟩ := ht.move (moves fuel)
    have hsame := (t.offsets_move (moves fuel)).2
    dsimp only
    split_ifs with hempty
    · rw [hempty, length_nil] at hlen
      exact ⟨_, rfl, hmove, hempty, hnone, by omega⟩
    · obtain ⟨u, hu, hinv, hend, hnone', hread⟩ := ih hmove hempty (by omega)
      exact ⟨u, hu, hinv, hend, hnone' ∘ hnone, by omega⟩

theorem Receiving.done (h : Receiving j s) (hempty : s.fifo = []) (hnone : s.incoming = []) :
    s.rxBuf = j.rx := by
  have hall := h.incoming
  rw [hempty, hnone, append_nil, append_nil] at hall
  have hlen := congrArg length hall
  rw [length_take, ← h.rxBuf, Nat.min_eq_left h.rxOffset] at hlen
  rwa [hlen, take_length] at hall

/-! ## Any schedule -/

def Inv (j : Job) (s : Transfer) : Prop :=
  Sending j s ∨ Receiving j s ∨ s.state = .idle ∧ s.written = j.tx ∧ s.rxBuf = j.rx

theorem Sending.irq (h : Sending j s) (moves : ℕ → ℕ) :
    ∃ t, s.irq moves = some t ∧ Inv j t ∧ MovesOn s t := by
  have hon (t : Transfer) : MovesOn s t ↔
      (s.fifo = [] → min (s.written.length + fifoSize) s.txBuf.length ≤ t.written.length) ∧
        (s.sent = s.txBuf.length → t.state = if s.state = .txRx then .rx else .idle) := by
    rcases h.state with ⟨hstate, -⟩ | hstate <;> simp [MovesOn, hstate]
  have heq : s.irq moves = (if s.fifo = [] then s.putLoop moves (transMax + 1) else some s).map
      fun t => if s.sent = s.txBuf.length then
        { t with state := if s.state = .txRx then .rx else .idle } else t := by
    rcases h.state with ⟨hstate, -⟩ | hstate <;> rw [Transfer.irq, hstate]
  simp only [heq, hon, h.length_written]
  by_cases hsent : s.sent = s.txBuf.length
  · -- the last byte is on the bus, so all bytes were written and the FIFO is empty
    have hle := h.txOffset
    have hsum := h.sent
    rw [hsent, h.txBuf] at hsum
    have hfifo : s.fifo = [] := length_eq_zero_iff.mp (by omega)
    have hwritten : s.written = j.tx := by
      rw [h.written, take_of_length_le (by omega)]
    have hend : s.txOffset = s.txBuf.length := by
      rw [h.txBuf]
      omega
    rw [if_pos hfifo, Transfer.putLoop, if_pos hend]
    refine ⟨_, rfl, ?_, ?_, ?_⟩
    rotate_left
    · simp [hsent, hwritten, h.txBuf]
    · simp [hsent]
    dsimp only
    rw [if_pos hsent]
    rcases h.state with ⟨hstate, hrx⟩ | hstate
    · refine .inr (.inr ⟨by simp [hstate], hwritten, ?_⟩)
      rw [hrx, ← length_eq_zero_iff, h.rxBuf, hrx, length_nil]
    · refine .inr (.inl ⟨by simp [hstate], hwritten, h.rxBuf, ?_, h.fifo, ?_⟩)
      · exact h.rxOffset ▸ Nat.zero_le _
      · simp [h.rxOffset, hfifo, h.incoming]
  · simp only [if_neg hsent, Option.map_id']
    by_cases hfifo : s.fifo = []
    · obtain ⟨t, hloop, ht, hfilled⟩ := h.putLoop moves (transMax + 1)
        (by simp [hfifo, fifoSize]) (Nat.lt_add_left _ (Nat.lt_succ_of_le j.txLen))
      have hsum := h.sent
      rw [hfifo, length_nil, Nat.add_zero] at hsum
      rw [hsum] at hfilled
      refine ⟨t, by rw [if_pos hfifo, hloop], .inl ht, fun _ => ?_, fun hall => absurd hall hsent⟩
      rwa [ht.length_written, h.txBuf]
    · exact ⟨s, if_neg hfifo, .inl h, fun hnil => absurd hnil hfifo, fun hall => absurd hall hsent⟩

theorem Receiving.irq (h : Receiving j s) (moves : ℕ → ℕ) :
    ∃ t, s.irq moves = some t ∧ Inv j t ∧ MovesOn s t := by
  have hfuel (n : ℕ) : j.rx.length < n + (transMax + 1) :=
    Nat.lt_add_left n (Nat.lt_succ_of_le j.rxLen)
  simp only [Transfer.irq, MovesOn, h.state]
  obtain ⟨t, hfirst, ht, hnone, hread⟩ : ∃ t, (if s.fifo.length = fifoSize then
      s.getLoop moves (transMax + 1) else some s) = some t ∧ Receiving j t ∧
        (s.incoming = [] → t.incoming = []) ∧
        (s.fifo.length = fifoSize → s.rxOffset + fifoSize ≤ t.rxOffset) := by
    split_ifs with hfull
    · have hne : s.fifo ≠ [] := fun hnil => by simp [hnil, fifoSize] at hfull
      obtain ⟨t, hloop, ht, -, hnone, hread⟩ := h.getLoop moves _ hne (hfuel _)
      exact ⟨t, hloop, ht, hnone, fun _ => hfull ▸ hread⟩
    · exact ⟨s, rfl, h, id, fun hfull' => absurd hfull' hfull⟩
  rw [hfirst, Option.bind_some, Transfer.leftOver]
  split_ifs with hend hempty
  · exact ⟨_, rfl, .inr (.inr ⟨rfl, ht.written, ht.done hempty (hnone hend)⟩), hread, fun _ => rfl⟩
  · obtain ⟨u, hu, hinv, hempty, hnone', hrest⟩ := ht.getLoop (fun _ => 0) _ hempty (hfuel _)
    rw [hu]
    refine ⟨_, rfl, .inr (.inr ⟨rfl, hinv.written, hinv.done hempty (hnone' (hnone hend))⟩),
      fun hfull => ?_, fun _ => rfl⟩
    exact (hread hfull).trans ((Nat.le_add_right _ _).trans hrest)
  · exact ⟨t, rfl, .inr (.inl ht), hread, fun hnil => absurd hnil hend⟩

theorem Inv.irq (h : Inv j s) (moves : ℕ → ℕ) :
    ∃ t, s.irq moves = some t ∧ Inv j t ∧ MovesOn s t := by
  rcases h with h | h | h
  · exact h.irq moves
  · exact h.irq moves
  · exact ⟨s, by simp [Transfer.irq, h.1], .inr (.inr h), by simp [MovesOn, h.1]⟩

theorem Inv.step (h : Inv j s) (a : Action) : ∃ t, step s a = some t ∧ Inv j t := by
  cases a with
  | move k =>
    refine ⟨_, rfl, ?_⟩
    rcases h with h | h | h
    · exact .inl (h.move k).1
    · exact .inr (.inl (h.move k).1)
    · exact .inr (.inr (by simpa [Transfer.move, h.1] using h))
  | irq moves =>
    obtain ⟨t, hirq, ht, -⟩ := h.irq moves
    exact ⟨t, hirq, ht⟩

theorem Inv.intact (h : Inv j s) : Intact j s := by
  rcases h with h | h | ⟨hstate, hwritten, hbuf⟩
  · refine ⟨h.written ▸ take_prefix _ _, by simp [h.rxOffset], fun hidle => ?_⟩
    simpa [hidle] using h.state
  · refine ⟨h.written ▸ prefix_refl _, ⟨s.fifo ++ s.incoming, ?_⟩, fun hidle => ?_⟩
    · rw [← append_assoc, h.incoming]
    · exact absurd (h.state.symm.trans hidle) (by decide)
  · exact ⟨hwritten ▸ prefix_refl _, hbuf ▸ take_prefix _ _, fun _ => ⟨hwritten, hbuf⟩⟩

example : (runSteps step ⟨.txRx, [1, 2], [0], 0, 0, [], [], 0, [3]⟩
    [.irq fun _ => 0, .move 2, .irq fun _ => 0, .move 1, .irq fun _ => 0]).map Transfer.state =
      some .idle := by
  decide

end WiseSdk.I2c
