import Mathlib.Algebra.Order.Ring.Int

/-!
# The completion of an I2C master transaction

At the complete interrupt `i2c_irq` (`hal/drivers/i2c/i2c-atci2c.c`) fills in the event and
`i2c_cmpl` calls the user back; only then it clears the interrupt enables and goes to the idle
state, also when the callback has started another transaction.  Reception by DMA leaves the event
as it was.  The remaining bytes are read from a field of 8 bits, in which 256 is 0.

The data is moved elsewhere, and DMA channels are left out.
-/

namespace WiseSdk.I2c

inductive EventType where
  | masterTransCmpl | slaveRxRequested | slaveTxRequested | slaveRxCmpl | slaveTxCmpl
  deriving DecidableEq

structure Event where
  type : EventType
  (txLen rxLen : ℤ)
  deriving DecidableEq

/-- The states of a master. -/
inductive State where
  | idle | tx | rx | txRx
  deriving DecidableEq

structure Driver where
  state : State
  dmaEn : Bool
  (txLen rxLen : ℕ)
  event : Event
  inten : BitVec 32

/-- A transaction and the bytes that are left of it when the controller completes. -/
structure Transaction where
  kind : State
  (txLen rxLen txLeft rxLeft : ℕ)
  busy : kind ≠ .idle
  tx : kind ≠ .rx → 0 < txLen ∧ txLen ≤ 256 ∧ txLeft ≤ txLen
  rx : kind ≠ .tx → 0 < rxLen ∧ rxLen ≤ 256 ∧ rxLeft ≤ rxLen

/-- The interrupts that `i2c_master_start` enables: complete, arbitration loss and that of the
FIFO. -/
def startInten (dmaEn : Bool) (state : State) : BitVec 32 :=
  0x210 ||| if dmaEn then 0 else match state with
    | .tx | .txRx => 0x1
    | .rx => 0x2
    | .idle => 0

def i2cMasterStart (d : Driver) : Driver := { d with inten := startInten d.dmaEn d.state }

/-- `atci2c_i2c_master_tx`, `_rx` and `_tx_rx`. -/
def start (t : Transaction) (d : Driver) : Driver :=
  i2cMasterStart { d with
    state := t.kind
    txLen := if t.kind = .rx then d.txLen else t.txLen
    rxLen := if t.kind = .tx then d.rxLen else t.rxLen
    event := { d.event with txLen := 0, rxLen := 0 } }

/-- `i2c_cmpl` of a master: the events the callback gets, which may start a transaction. -/
def i2cCmpl (next : Option Transaction) (d : Driver) : List Event × Driver :=
  let after := match next with
    | some t => start t d
    | none => d
  ([d.event], { after with inten := 0, state := .idle })

/-- `i2c_irq` at the complete interrupt, with the field `DATACNT`; the idle state has none. -/
def i2cIrq (next : Option Transaction) (dataCnt : ℕ) (d : Driver) : List Event × Driver :=
  match d.state with
  | .idle => ([], d)
  | .tx => i2cCmpl next { d with event :=
      { d.event with type := .masterTransCmpl, txLen := d.txLen - dataCnt } }
  | .txRx => ([], i2cMasterStart { d with
      event := { d.event with txLen := d.txLen - dataCnt }, state := .rx })
  | .rx => i2cCmpl next { d with event :=
      if d.dmaEn then d.event
      else { d.event with type := .masterTransCmpl, rxLen := d.rxLen - dataCnt } }

/-- A transaction up to its last complete interrupt. -/
def transact (next : Option Transaction) (t : Transaction) (d : Driver) : List Event × Driver :=
  match t.kind with
  | .idle | .tx => i2cIrq next (t.txLeft % 256) (start t d)
  | .rx => i2cIrq next (t.rxLeft % 256) (start t d)
  | .txRx =>
    let first := i2cIrq next (t.txLeft % 256) (start t d)
    let last := i2cIrq next (t.rxLeft % 256) first.2
    (first.1 ++ last.1, last.2)

/-- One event with the numbers of bytes that were moved, and a transaction that the callback has
started is in progress. -/
def Completes (next : Option Transaction) (t : Transaction) (d : Driver) : Prop :=
  (transact next t d).1 = [⟨.masterTransCmpl, if t.kind = .rx then 0 else t.txLen - t.txLeft,
      if t.kind = .tx then 0 else t.rxLen - t.rxLeft⟩] ∧
    ∀ n ∈ next, (transact next t d).2.state = n.kind ∧
      (transact next t d).2.inten = startInten d.dmaEn n.kind

/-- The callback starts nothing, at least one of 256 bytes is moved, and nothing is received by
DMA, with an event of that type from before. -/
def CompletionSafe (next : Option Transaction) (t : Transaction) (d : Driver) : Prop :=
  next = none ∧ (t.kind ≠ .rx → t.txLeft ≠ 256) ∧ (t.kind ≠ .tx →
    if d.dmaEn then t.rxLeft = t.rxLen ∧ d.event.type = .masterTransCmpl else t.rxLeft ≠ 256)

theorem state_transact (next : Option Transaction) (t : Transaction) (d : Driver) :
    (transact next t d).2.state = .idle := by
  cases h : t.kind <;> simp_all [transact, i2cIrq, start, i2cMasterStart, i2cCmpl]

theorem events_transact (t : Transaction) (d : Driver) (next : Option Transaction) :
    (transact next t d).1 = match t.kind with
      | .idle | .tx => [⟨.masterTransCmpl, t.txLen - ((t.txLeft % 256 : ℕ) : ℤ), 0⟩]
      | .rx => [if d.dmaEn then ⟨d.event.type, 0, 0⟩
          else ⟨.masterTransCmpl, 0, t.rxLen - ((t.rxLeft % 256 : ℕ) : ℤ)⟩]
      | .txRx => [if d.dmaEn then ⟨d.event.type, t.txLen - ((t.txLeft % 256 : ℕ) : ℤ), 0⟩
          else ⟨.masterTransCmpl, t.txLen - ((t.txLeft % 256 : ℕ) : ℤ),
            t.rxLen - ((t.rxLeft % 256 : ℕ) : ℤ)⟩] := by
  have hbusy := t.busy
  cases h : t.kind <;> cases hd : d.dmaEn <;>
    simp_all [transact, i2cIrq, start, i2cMasterStart, i2cCmpl]

/-- **I2C master completion.** -/
theorem completion_iff (next : Option Transaction) (t : Transaction) (d : Driver) :
    Completes next t d ↔ CompletionSafe next t d := by
  have hbusy := t.busy
  have hnext : (∀ n ∈ next, (transact next t d).2.state = n.kind ∧
      (transact next t d).2.inten = startInten d.dmaEn n.kind) ↔ next = none := by
    cases next with
    | none => simp
    | some n =>
      refine iff_of_false (fun h => n.busy ?_) (by simp)
      rw [← (h n rfl).1, state_transact]
  rw [Completes, CompletionSafe, hnext, and_comm, events_transact]
  refine and_congr_right fun _ => ?_
  have htx := t.tx
  have hrx := t.rx
  by_cases htype : d.event.type = .masterTransCmpl <;> cases hdma : d.dmaEn <;>
    cases h : t.kind <;> simp_all <;> omega

def oneByte : Transaction := ⟨.rx, 0, 1, 0, 0, by decide, by decide, by decide⟩

def idleDriver (dmaEn : Bool) : Driver := ⟨.idle, dmaEn, 0, 0, ⟨.masterTransCmpl, 0, 0⟩, 0⟩

/-- A transaction that the callback has started is not in progress; by DMA no byte is reported. -/
theorem completion_lost :
    (transact (some oneByte) oneByte (idleDriver false)).2.state = .idle ∧
      (transact none oneByte (idleDriver true)).1 = [⟨.masterTransCmpl, 0, 0⟩] := by
  decide

end WiseSdk.I2c
