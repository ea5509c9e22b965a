import Mathlib.Data.Int.Notation
import Mathlib.Data.List.Basic

/-!
# The SDIO receive FIFO

`lib/sdio/sdio-fifo.c` keeps received packets in one buffer without ever splitting a packet: what is
left at the end, once less than a largest packet fits there, is skipped. The writer goes back to 0
when its index passes the boundary; the reader when a release takes it past the boundary; and
`sdio_fifo_array_linearize` when a packet that follows another one is located. The last two agree
through `len_waste`, the length of the tail.

`lib/scdc/scdc.c` locates a packet from the one received before it, and gives packets back in any
order: a packet that is not the oldest is added to its predecessor.

Indices and lengths are 16-bit unsigned; a position in the buffer stands for the pointer to it.
-/

namespace WiseSdk.Sdio

/-- The two sizes of the configuration.  `sdio_fifo_config` refuses a larger depth. -/
structure FifoConfig where
  depth : ℕ
  minLinear : ℕ
  minLinear_pos : 0 < minLinear
  minLinear_le : minLinear ≤ depth
  depth_le : depth ≤ 0x8000

/-- CONFIG_SDIO_RCV_BUFFER_SIZE and CONFIG_SDIO_FIFO_MIN_LINEAR_SIZE as they are by default. -/
def defaultConfig : FifoConfig :=
  ⟨20480, 1700, by decide, by decide, by decide⟩

variable (cfg : FifoConfig)

def FifoConfig.boundary : ℕ := cfg.depth - cfg.minLinear

/-- `sdio_fifo_t`, less the buffer and the locks. -/
structure SdioFifo where
  wrIdx : ℕ := 0
  rdIdx : ℕ := 0
  lenWaste : ℕ := 0
  deriving DecidableEq, Repr

/-- A value stored in a `uint16_t`. -/
def u16 (x : ℤ) : ℕ := (x % 65536).toNat

/-! ## The FIFO -/

def getWriteBuf (f : SdioFifo) : SdioFifo :=
  if f.rdIdx ≤ f.wrIdx ∧ cfg.depth < f.wrIdx + cfg.minLinear then { f with wrIdx := 0 } else f

/-- The assertion of `sdio_fifo_array_advance_write_pointer`. -/
def writeAssert (f : SdioFifo) : Bool :=
  if f.rdIdx ≤ f.wrIdx then decide (f.wrIdx < cfg.depth)
  else decide (cfg.minLinear ≤ f.rdIdx - f.wrIdx)

/-- `sdio_fifo_array_advance_write_pointer`; `none` if the assertion fails. -/
def advanceWritePointer (f : SdioFifo) (n : ℕ) : Option SdioFifo :=
  let wrIdx := u16 (f.wrIdx + n)
  if writeAssert cfg f then
    some { f with wrIdx := if cfg.boundary < wrIdx then 0 else wrIdx }
  else none

/-- `sdio_fifo_array_get_read_linear_info`, with the position it finds. -/
def getReadLinearInfo (f : SdioFifo) : SdioFifo × ℕ :=
  if cfg.boundary < f.rdIdx then
    ({ f with
      lenWaste := if f.lenWaste = 0 then u16 (cfg.depth - f.rdIdx) else f.lenWaste }, 0)
  else (f, f.rdIdx)

/-- `sdio_fifo_array_linearize`, with the position it finds; `none` if the assertion fails. -/
def linearize (f : SdioFifo) (ptr : ℕ) : Option (SdioFifo × ℕ) :=
  if cfg.boundary < ptr then
    if f.lenWaste ≠ 0 then
      if cfg.depth ≤ ptr + f.lenWaste then some (f, ptr + f.lenWaste - cfg.depth) else none
    else some ({ f with lenWaste := u16 (cfg.depth - ptr) }, 0)
  else some (f, ptr)

/-- The assertions of `sdio_fifo_array_advance_read` past the boundary. -/
def readAssert (f : SdioFifo) (r : ℕ) : Bool :=
  if 0 < f.lenWaste then decide (cfg.depth ≤ r + f.lenWaste) else decide (r < cfg.depth)

/-- `sdio_fifo_array_advance_read`; `none` if an assertion fails. -/
def advanceRead (f : SdioFifo) (n : ℕ) : Option SdioFifo :=
  let r := u16 (f.rdIdx + n)
  if cfg.boundary < r then
    if readAssert cfg f r then
      if f.wrIdx ≤ r then
        some
          { wrIdx := if cfg.boundary < f.wrIdx then 0 else f.wrIdx
            rdIdx := if f.lenWaste ≠ 0 then u16 (r + f.lenWaste - cfg.depth) else 0
            lenWaste := 0 }
      else some { f with rdIdx := r }
    else none
  else some { f with rdIdx := r }

/-! ## Packets -/

/-- `struct sdio_req`: where a packet was written, and its length. -/
structure SdioReq where
  buf : ℕ
  len : ℕ
  deriving DecidableEq, Repr

/-- `scdc_buf_ptr_info_t`: where a received packet is taken to be. Its request is `priv_data`. -/
structure BufPtrInfo where
  lenLin : ℕ
  lenWrap : ℕ
  ptrLin : ℕ
  ptrWrap : ℕ
  privData : SdioReq
  deriving DecidableEq, Repr

/-- The receive path: the FIFO, the packets that wait for their callback, and the outstanding ones,
oldest first. -/
structure RxState where
  fifo : SdioFifo := {}
  rxPkts : List SdioReq := []
  outPkts : List BufPtrInfo := []
  deriving DecidableEq, Repr

def credit (outp : BufPtrInfo) : ℕ := u16 (outp.lenLin + outp.lenWrap)

def isWrapped (outp : BufPtrInfo) : Bool := outp.lenWrap != 0

/-- A packet arrives: it is written at the write index, which moves on. -/
def arrive (st : RxState) (len : ℕ) : Option RxState :=
  let fifo := getWriteBuf cfg st.fifo
  (advanceWritePointer cfg fifo len).map fun fifo' =>
    { st with fifo := fifo', rxPkts := st.rxPkts ++ [⟨fifo.wrIdx, len⟩] }

/-- `sdio_vendor_get_read_info`, for a packet that is not empty. -/
def readInfo (f : SdioFifo) (req : SdioReq) : SdioFifo × BufPtrInfo :=
  let (f, ptr) := getReadLinearInfo cfg f
  (f, ⟨req.len, 0, ptr, 0, req⟩)

/-- `scdc_update_buf_ptr_info`: the packet follows `prev`, the last of `outPkts`. -/
def updateBufPtrInfo (f : SdioFifo) (outPkts : List BufPtrInfo) (prev finfo : BufPtrInfo) (len : ℕ)
    : Option (SdioFifo × BufPtrInfo) :=
  if finfo.lenWrap = 0 ∨ outPkts.any isWrapped then
    let (pptr, plen) :=
      if finfo.lenWrap = 0 ∨ prev.lenWrap = 0 then (prev.ptrLin, prev.lenLin)
      else (prev.ptrWrap, prev.lenWrap)
    (linearize cfg f (pptr + plen)).map fun (f, ptr) => (f, ⟨len, 0, ptr, 0, finfo.privData⟩)
  else
    some (f, ⟨u16 (len - finfo.lenWrap), finfo.lenWrap, prev.ptrLin + prev.lenLin,
      finfo.ptrWrap, finfo.privData⟩)

/-- `scdc_vendor_rx_cb` for the packet that has waited longest, up to the list of outstanding
packets. -/
def rxCb (st : RxState) : Option RxState :=
  match st.rxPkts with
  | [] => none
  | req :: rxPkts =>
    if req.len = 0 then some { st with rxPkts := rxPkts }
    else
      let (fifo, finfo) := readInfo cfg st.fifo req
      match st.outPkts.getLast? with
      | none => some { fifo := fifo, rxPkts := rxPkts, outPkts := [finfo] }
      | some prev =>
        (updateBufPtrInfo cfg fifo st.outPkts prev finfo req.len).map fun (fifo, finfo) =>
          { fifo := fifo, rxPkts := rxPkts, outPkts := st.outPkts ++ [finfo] }

/-- What `purge_outp` does with a packet that has a predecessor; two wrapped packets fail an
assertion. -/
def coalesce (prev outp : BufPtrInfo) : Option BufPtrInfo :=
  match isWrapped prev, isWrapped outp with
  | false, false => some { prev with lenLin := u16 (prev.lenLin + outp.lenLin) }
  | false, true => some { prev with
      lenLin := u16 (prev.lenLin + outp.lenLin)
      lenWrap := outp.lenWrap
      ptrWrap := outp.ptrWrap }
  | true, false => some { prev with lenWrap := u16 (prev.lenWrap + outp.lenLin) }
  | true, true => none

/-- The list of outstanding packets after the one at index `i + 1` is purged. -/
def coalesceAt : List BufPtrInfo → ℕ → Option (List BufPtrInfo)
  | prev :: outp :: rest, 0 => (coalesce prev outp).map fun merged => merged :: rest
  | p :: rest, i + 1 => (coalesceAt rest i).map fun rest => p :: rest
  | _, _ => none

/-- `purge_outp` for the outstanding packet at index `i`; the oldest one moves the reader. -/
def purgeOutp (st : RxState) (i : ℕ) : Option RxState :=
  match i, st.outPkts with
  | 0, outp :: outPkts =>
    (advanceRead cfg st.fifo (credit outp)).map fun fifo =>
      { st with fifo := fifo, outPkts := outPkts }
  | 0, [] => none
  | i + 1, outPkts => (coalesceAt outPkts i).map fun outPkts => { st with outPkts := outPkts }

inductive RxAction where
  | arrive (len : ℕ)
  | rxCb
  | purge (index : ℕ)
  deriving DecidableEq, Repr

/-- One step of the receive path; `none` if an assertion fails or no packet is there. -/
def rxStep (st : RxState) : RxAction → Option RxState
  | .arrive len => arrive cfg st len
  | .rxCb => rxCb cfg st
  | .purge index => purgeOutp cfg st index

end WiseSdk.Sdio
