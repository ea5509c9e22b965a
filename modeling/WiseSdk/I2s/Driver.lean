import Mathlib.Algebra.Order.Ring.Nat
import Mathlib.Data.List.Basic

/-!
# The I2S driver and the memory slabs of its streams

`hal/drivers/i2s/i2s-python.c` moves equal blocks of memory between a user, a queue per direction
and the DMA controller; the blocks come from slabs (`kernel/mem_slab.c`). The model keeps, for each
slab, its free list, its count of used blocks and whether a task waits for a block; for each stream
the fields the driver reads; and the blocks in the user's hands, which the code does not record.

What the hardware and the scheduler decide is an argument of the call: what `python_i2s_set_clock`,
`dma_copy_hw` and `dma_reload` return, and whether the DMA channel is busy. A failed assertion or a
null pointer leaves no result.

A call is one step. A call that waits for a token of a semaphore, or at the head of the start
trigger for a stream to leave `STOPPING`, is the call made when the wait is over.
-/

namespace WiseSdk.I2s

def eio : ℤ := 5
def enomem : ℤ := 12
def einval : ℤ := 22
def enodata : ℤ := 61
def enosys : ℤ := 88

/-! ## Memory slabs -/

abbrev SlabId := ℕ

/-- A block: the slab whose buffer it lies in, and its position there. -/
structure Block where
  slab : SlabId
  index : ℕ
deriving DecidableEq

/-- What does not change of a slab. -/
structure SlabInfo where
  blockSize : ℕ
  numBlocks : BitVec 32

/-- The free list, `num_used`, and whether a task is blocked on `wait_q` whose one slot is empty. -/
structure MemSlab where
  free : List Block
  numUsed : BitVec 32
  waiting : Bool

inductive Dir where
  | rx
  | tx
deriving DecidableEq

/-- The slabs of the system, and `CONFIG_I2S_PYTHON_RX_BLOCK_COUNT` and `.._TX_BLOCK_COUNT`. -/
structure Platform where
  slabs : SlabId → SlabInfo
  blockCount : Dir → ℕ

variable (P : Platform)

def Platform.Owns (b : Block) : Prop :=
  b.index < (P.slabs b.slab).numBlocks.toNat
deriving Decidable

def slabPtrIsGood (s : SlabId) (b : Block) : Bool := b.slab = s ∧ P.Owns b

/-- The check at the end of `mem_slab_alloc`: an empty free list means that all blocks are used, and
else its head is a block of the slab. -/
def sane (s : SlabId) (used : BitVec 32) : List Block → Bool
  | [] => used = (P.slabs s).numBlocks
  | b :: _ => slabPtrIsGood P s b

/-- `mem_slab_alloc` without a timeout: the block, or nothing and `-ENOMEM`. -/
def MemSlab.alloc (s : SlabId) (sl : MemSlab) : Option (Option Block × MemSlab) :=
  match sl.free with
  | [] => some (none, sl)
  | b :: rest =>
    if sane P s (sl.numUsed + 1) rest then
      some (some b, { sl with free := rest, numUsed := sl.numUsed + 1 })
    else none

/-! ## Streams -/

inductive State where
  | notReady
  | ready
  | starting
  | running
  | stopping
  | error
deriving DecidableEq

/-- The fields of `struct i2s_config` that decide what a call does. -/
structure Config where
  wordSize : ℕ
  format : BitVec 8
  frameClkFreq : ℕ
  memSlab : Option SlabId
  blockSize : ℕ

def Config.zero : Config := ⟨0, 0, 0, none, 0⟩

structure QueueItem where
  memBlock : Block
  size : ℕ

/-- `struct stream`. The ring buffer is its contents, oldest first; it is full at the block count of
its direction. -/
structure Stream where
  state : State
  sem : ℕ
  txStopForDrain : Bool
  cfg : Config
  queue : List QueueItem
  memBlock : Option Block
  lastBlock : Bool

def Stream.queued (st : Stream) : List Block := st.queue.map QueueItem.memBlock

/-- The blocks a stream holds: the one in flight and those in its queue. -/
def Stream.blocks (st : Stream) : List Block := st.memBlock.toList ++ st.queued

/-- `osSemaphoreRelease`, which does nothing at the maximal count. -/
def Stream.release (d : Dir) (st : Stream) : Stream :=
  { st with sem := min (st.sem + 1) (P.blockCount d) }

def Stream.put (d : Dir) (st : Stream) (it : QueueItem) : Option Stream :=
  if st.queue.length < P.blockCount d then some { st with queue := st.queue ++ [it] } else none

/-- The system: the slabs, the blocks the user holds, the streams. -/
structure World where
  slab : SlabId → MemSlab
  hands : List Block
  stream : Dir → Stream

namespace World

def setSlab (w : World) (s : SlabId) (sl : MemSlab) : World :=
  { w with slab := Function.update w.slab s sl }

def setStream (w : World) (d : Dir) (st : Stream) : World :=
  { w with stream := Function.update w.stream d st }

def modify (w : World) (d : Dir) (f : Stream → Stream) : World := w.setStream d (f (w.stream d))

end World

def memSlabAlloc (w : World) (s : SlabId) : Option (Option Block × World) :=
  ((w.slab s).alloc P s).map fun r => (r.1, w.setSlab s r.2)

/-- `mem_slab_free`: with an empty free list the block goes to a task that waits, whose slot is then
taken; otherwise to the front of the free list. Nothing checks that it is one of this slab. -/
def memSlabFree (w : World) (s : SlabId) (b : Block) : World :=
  if (w.slab s).free = [] ∧ (w.slab s).waiting then
    { w.setSlab s { w.slab s with waiting := false } with hands := b :: w.hands }
  else
    w.setSlab s { w.slab s with free := b :: (w.slab s).free, numUsed := (w.slab s).numUsed - 1 }

/-- `mem_slab_free(stream->cfg.mem_slab, mem)`. -/
def freeTo (w : World) (d : Dir) (b : Block) : Option World :=
  (w.stream d).cfg.memSlab.map fun s => memSlabFree w s b

def giveBack (w : World) (d : Dir) (bs : List Block) : Option World :=
  bs.foldlM (fun w b => freeTo w d b) w

/-! ## The driver -/

def streamDisable (w : World) (d : Dir) : Option World :=
  match (w.stream d).memBlock with
  | none => some w
  | some b => (freeTo w d b).map fun w => w.modify d fun st => { st with memBlock := none }

/-- `rx_queue_drop` takes all tokens of the semaphore, `tx_queue_drop` returns one for each
block. -/
def semAfterDrop (d : Dir) (st : Stream) : ℕ :=
  match d with
  | .rx => 0
  | .tx => min (st.sem + st.queue.length) (P.blockCount .tx)

/-- `rx_queue_drop` and `tx_queue_drop`. -/
def queueDrop (w : World) (d : Dir) : Option World :=
  (giveBack w d (w.stream d).queued).map fun w =>
    w.modify d fun st => { st with queue := [], sem := semAfterDrop P d st }

/-- `rx_stream_start`; `start` is what `start_dma` returns. -/
def rxStreamStart (w : World) (start : ℤ) : Option (ℤ × World) :=
  (w.stream .rx).cfg.memSlab.bind fun s =>
    (memSlabAlloc P w s).map fun r =>
      let w := r.2.modify .rx fun st => { st with memBlock := r.1 }
      match r.1 with
      | none => (-enomem, w)
      | some _ => if start < 0 then (start, w) else (0, w)

def txStreamStart (w : World) (start : ℤ) : ℤ × World :=
  match (w.stream .tx).queue with
  | [] => (-enomem, w)
  | it :: rest =>
    let w := w.modify .tx fun st =>
      Stream.release P .tx { st with queue := rest, memBlock := some it.memBlock }
    if start < 0 then (start, w) else (0, w)

def streamStart (w : World) (start : ℤ) : Dir → Option (ℤ × World)
  | .rx => rxStreamStart P w start
  | .tx => some (txStreamStart P w start)

/-- `enum i2s_dir`, and the values outside it. -/
inductive I2sDir where
  | one (d : Dir)
  | both
  | other

/-- `python_i2s_configure`; `clock` is what `python_i2s_set_clock` returns. -/
def configure (w : World) (dir : I2sDir) (cfg : Config) (clock : ℤ) : Option (ℤ × World) :=
  cfg.memSlab.bind fun s =>
    if (P.slabs s).blockSize < cfg.blockSize then some (-einval, w)
    else match dir with
      | .both => some (-enosys, w)
      | .other => some (-einval, w)
      | .one d =>
        if (w.stream d).state ≠ .notReady ∧ (w.stream d).state ≠ .ready then some (-einval, w)
        else if cfg.frameClkFreq = 0 then
          (queueDrop P w d).map fun w =>
            (0, w.modify d fun st => { st with cfg := Config.zero, state := .notReady })
        else
          let w := w.modify d fun st => { st with cfg := cfg }
          if clock < 0 then some (clock, w)
          else if cfg.wordSize ≠ 16 ∧ cfg.wordSize ≠ 20 ∧ cfg.wordSize ≠ 24 then
            some (-einval, w)
          -- I2S, left justified and right justified
          else if cfg.format &&& 7 ≠ 0 ∧ cfg.format &&& 7 ≠ 3 ∧ cfg.format &&& 7 ≠ 4 then
            some (-einval, w)
          else some (clock, w.modify d fun st => { st with state := .ready })

/-- `python_i2s_buf_read`: the return value and the item read. -/
def bufRead (w : World) : ℤ × Option QueueItem × World :=
  let st := w.stream .rx
  if st.state = .notReady then (-eio, none, w)
  -- In the error state the queue is read without its semaphore.
  else if st.state ≠ .error ∧ st.sem = 0 then (-enodata, none, w)
  else
    let st := if st.state = .error then st else { st with sem := st.sem - 1 }
    match st.queue with
    | [] => (-eio, none, w.setStream .rx st)
    | it :: rest => (0, some it, w.setStream .rx { st with queue := rest })

/-- `python_i2s_buf_write`.  What `queue_put` returns is ignored. -/
def bufWrite (w : World) (it : QueueItem) (start : ℤ) : ℤ × World :=
  let st := w.stream .tx
  if st.state ≠ .running ∧ st.state ≠ .starting ∧ st.state ≠ .ready then (-eio, w)
  else if st.sem = 0 then (-eio, w)
  else
    let st := { st with sem := st.sem - 1 }
    let w := w.setStream .tx ((st.put P .tx it).getD st)
    if st.state = .starting then
      let r := txStreamStart P w start
      if r.1 = 0 then (0, r.2.modify .tx fun st => { st with state := .running }) else (0, r.2)
    else (0, w)

inductive TriggerCmd where
  | start
  | stop
  | drain
  | drop
  | prepare
  | other

def triggerStart (w : World) (d : Dir) (start : ℤ) : Option (ℤ × World) :=
  if (w.stream d).state ≠ .ready then some (-eio, w)
  else if (w.stream d).memBlock ≠ none then none
  else (streamStart P w start d).map fun r =>
    if d = .tx ∧ r.1 = -enomem then
      (0, r.2.modify d fun st => { st with state := .starting, lastBlock := false })
    else if r.1 < 0 then r
    else (0, r.2.modify d fun st => { st with state := .running, lastBlock := false })

/-- The code behind the label `do_trigger_stop`. -/
def doTriggerStop (w : World) (d : Dir) (busy : Bool) : Option (ℤ × World) :=
  if busy then
    some (0, w.modify d fun st => { st with state := .stopping, txStopForDrain := false })
  else (streamDisable w d).map fun w =>
    (0, w.modify d fun st => { st with state := .ready, lastBlock := true })

/-- `python_i2s_trigger`; `start` is what `start_dma` returns, `busy` what
`dma_ch_is_busy` says. -/
def trigger (w : World) (dir : I2sDir) (cmd : TriggerCmd) (start : ℤ) (busy : Bool)
    : Option (ℤ × World) :=
  match dir with
  | .both => some (-enosys, w)
  | .other => some (-einval, w)
  | .one d =>
    match cmd with
    | .start => triggerStart P w d start
    | .stop =>
      if (w.stream d).state ≠ .running then some (-eio, w) else doTriggerStop w d busy
    | .drain =>
      if (w.stream d).state ≠ .running ∧ (w.stream d).state ≠ .starting then some (-eio, w)
      else match d with
        | .rx => doTriggerStop w .rx busy
        | .tx =>
          if (w.stream .tx).queue ≠ [] ∨ busy then
            some (0, w.modify .tx fun st =>
              { st with state := .stopping, txStopForDrain := true })
          else (streamDisable w .tx).map fun w =>
            (0, w.modify .tx fun st => { st with state := .ready })
    | .drop =>
      if (w.stream d).state = .notReady then some (-eio, w)
      else (streamDisable w d).bind fun w => (queueDrop P w d).map fun w =>
        (0, w.modify d fun st => { st with state := .ready })
    | .prepare =>
      if (w.stream d).state ≠ .error then some (-eio, w)
      else
        let w := w.modify d fun st => { st with state := .ready }
        (queueDrop P w d).map fun w => (0, w)
    | .other => some (-einval, w)

/-! ## The callbacks of the DMA controller -/

/-- `dma_isr_status`; `error` is its negative value. -/
inductive DmaStatus where
  | none
  | complete
  | block
  | aborted
  | error
deriving DecidableEq

/-- The code behind the label `rx_disable`; `tmp` is `mblk_tmp`. -/
def rxDisable (w : World) (tmp : Option Block) (ret : ℤ) : Option (ℤ × World) :=
  (giveBack w .rx tmp.toList).bind fun w => (streamDisable w .rx).map fun w => (ret, w)

/-- `dma_rx_callback`; `reload` is what `reload_dma` returns. -/
def dmaRxCallback (w : World) (status : DmaStatus) (reload : ℤ) : Option (ℤ × World) :=
  let st := w.stream .rx
  let fail (w : World) := w.modify .rx fun st => { st with state := .error }
  if status = .aborted ∨ st.state = .ready then some (0, w)
  else if status = .error then rxDisable (fail w) none (-eio)
  else st.memBlock.bind fun tmp =>
    if st.state = .error then rxDisable w none (-eio)
    else st.cfg.memSlab.bind fun s => (memSlabAlloc P w s).bind fun r =>
      let w := r.2.modify .rx fun st => { st with memBlock := r.1 }
      match r.1 with
      | none => rxDisable (fail w) (some tmp) (-enomem)
      | some _ =>
        if reload < 0 then rxDisable w (some tmp) reload
        else match (w.stream .rx).put P .rx ⟨tmp, st.cfg.blockSize⟩ with
          | none => rxDisable (fail w) (some tmp) (-enomem)
          | some st' =>
            let w := w.setStream .rx (st'.release P .rx)
            -- `mblk_tmp` still names the block that is in the queue now.
            if st.state = .stopping then
              rxDisable (w.modify .rx fun st => { st with state := .ready }) (some tmp) 0
            else some (0, w)

/-- The code behind the label `tx_disable`. -/
def txDisable (w : World) (ret : ℤ) : Option (ℤ × World) :=
  (streamDisable w .tx).map fun w => (ret, w)

/-- The part of `dma_tx_callback` that sends the next block. -/
def txNext (w : World) (reload : ℤ) : Option (ℤ × World) :=
  match (w.stream .tx).queue with
  | [] =>
    txDisable (w.modify .tx fun st =>
      { st with state := if st.state = .stopping then .ready else .starting }) (-enomem)
  | it :: rest =>
    let w := w.modify .tx fun st =>
      Stream.release P .tx { st with queue := rest, memBlock := some it.memBlock }
    if reload < 0 then txDisable w reload else some (0, w)

/-- The part of `dma_tx_callback` behind the free of the block that was sent. -/
def txSent (w : World) (status : DmaStatus) (reload : ℤ) : Option (ℤ × World) :=
  let st := w.stream .tx
  let rest (w : World) := w.modify .tx fun st => { st with state := .ready }
  if status = .aborted then some (0, w)
  else if st.state = .error then txDisable w (-eio)
  else if st.state = .stopping ∧ status = .complete ∧ st.queue = [] then
    (queueDrop P w .tx).bind fun w => txDisable (rest w) 0
  else if st.state = .stopping ∧ status = .complete ∧ st.txStopForDrain = false then
    txDisable (rest w) 0
  else if st.lastBlock then txDisable (rest w) 0
  else txNext P w reload

def dmaTxCallback (w : World) (status : DmaStatus) (reload : ℤ) : Option (ℤ × World) :=
  if status = .error then
    txDisable (w.modify .tx fun st => { st with state := .error }) (-eio)
  else (w.stream .tx).memBlock.bind fun b => (freeTo w .tx b).bind fun w =>
    txSent P (w.modify .tx fun st => { st with memBlock := none }) status reload

/-! ## Runs -/

/-- A call of the driver, a callback, or what the user does with a slab: take or return a block,
start or stop to wait. -/
inductive Action where
  | configure (dir : I2sDir) (cfg : Config) (clock : ℤ)
  | bufRead
  | bufWrite (block : Block) (size : ℕ) (start : ℤ)
  | trigger (dir : I2sDir) (cmd : TriggerCmd) (start : ℤ) (busy : Bool)
  | rxCallback (status : DmaStatus) (reload : ℤ)
  | txCallback (status : DmaStatus) (reload : ℤ)
  | alloc (s : SlabId)
  | free (block : Block)
  | wait (s : SlabId) (waiting : Bool)

/-- One action. The user writes and returns only blocks in their hands; a write that returned `0`
takes one out of them. -/
def step (w : World) : Action → Option World
  | .configure dir cfg clock => (configure P w dir cfg clock).map Prod.snd
  | .bufRead =>
    let r := bufRead w
    some { r.2.2 with hands := (r.2.1.map QueueItem.memBlock).toList ++ r.2.2.hands }
  | .bufWrite b size start =>
    if b ∈ w.hands then
      let r := bufWrite P w ⟨b, size⟩ start
      some (if r.1 = 0 then { r.2 with hands := r.2.hands.erase b } else r.2)
    else none
  | .trigger dir cmd start busy => (trigger P w dir cmd start busy).map Prod.snd
  | .rxCallback status reload => (dmaRxCallback P w status reload).map Prod.snd
  | .txCallback status reload => (dmaTxCallback P w status reload).map Prod.snd
  | .alloc s => (memSlabAlloc P w s).map fun r => { r.2 with hands := r.1.toList ++ r.2.hands }
  | .free b =>
    if b ∈ w.hands then some (memSlabFree { w with hands := w.hands.erase b } b.slab b) else none
  | .wait s waiting => some (w.setSlab s { w.slab s with waiting := waiting })

/-- A stream after `python_i2s_probe`: all of the transmit semaphore is there, nothing of the
other. -/
def Stream.boot (d : Dir) : Stream where
  state := .notReady
  sem := match d with
    | .rx => 0
    | .tx => P.blockCount .tx
  txStopForDrain := false
  cfg := Config.zero
  queue := []
  memBlock := none
  lastBlock := false

/-- The free list `create_free_list` makes: all blocks, in the order of their addresses. -/
def createFreeList (s : SlabId) : List Block :=
  (List.range (P.slabs s).numBlocks.toNat).map fun i => ⟨s, i⟩

def World.boot (P : Platform) : World where
  slab := fun s => ⟨createFreeList P s, 0, false⟩
  hands := []
  stream := Stream.boot P

end WiseSdk.I2s
