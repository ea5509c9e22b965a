import WiseSdk.Sdio.RxFifo

/-!
# The receive callback and the mbufs it hands upward

`scdc_vendor_rx_cb` of `lib/scdc/scdc.c` takes a received frame out of a FIFO, or out of a cache
buffer when the FIFO had no room. It hands the frame upward in mbufs that are attached to the space
of the frame, or copied from it. The space is given back by `purge_outp`: by the callback itself, or
by `scdc_mbuf_free_cb` when the mbuf that carries it is freed.

The state has the outstanding packets of each pipe, the buffers and descriptors that the USB driver
keeps ready, and the nodes of the mbuf pool. `m_getexthdr` does not clear the `m_ext` of a node, so
a node keeps what it was attached to last. The environment decides what an allocation gives, what
the interface is, and whether the flow-control calls of `purge_outp` return; a proposed node that is
not in the pool is an allocation that fails.

An error is what the device does not survive: a failed assertion, a null pointer, the use of freed
memory, or a mutex that its own holder waits for (`osMutexNew(NULL)` makes one that is not
recursive). Where a frame lies in the FIFO is the matter of `WiseSdk.Sdio.RxFifo`; here its two
lengths decide the path.
-/

namespace WiseSdk.ScdcRx

open Function

open Sdio (u16 BufPtrInfo)

/-! ## Data -/

/-- Why the device stops. -/
inductive Stop where
  | assertion
  | nullPointer
  | freedMemory
  | deadlock
  deriving DecidableEq, Repr

/-- The space of a frame: a packet in the FIFO of a pipe, or a cache buffer (`ext_buf`). -/
inductive Space where
  | fifo (outidx pkt : ℕ)
  | cache (buf : ℕ)
  deriving DecidableEq, Repr

/-- `out_pkt_t`, with the lengths of its `finfo`. -/
structure OutPkt where
  pkt : ℕ
  lenLin : ℕ
  lenWrap : ℕ
  deriving DecidableEq, Repr

/-- The `finfo`; the pointers do not matter here. -/
def OutPkt.finfo (outp : OutPkt) : BufPtrInfo := ⟨outp.lenLin, outp.lenWrap, 0, 0, ⟨0, 0⟩⟩

def OutPkt.isWrapped (outp : OutPkt) : Bool := Sdio.isWrapped outp.finfo

/-- Who has a node: the pool, the driver, or the stack above it. -/
inductive Owner where
  | pool
  | driver
  | stack
  deriving DecidableEq, Repr

/-- The `m_ext` of an attached node: the space `ext_buf` points into, and the argument of
`scdc_mbuf_free_cb`, if that is its `ext_free`. -/
structure Ext where
  refers : Option Space
  free : Option Space
  deriving DecidableEq, Repr

/-- An mbuf for external storage.  One that was never attached has no known `ext_type`. -/
structure Mbuf where
  owner : Owner
  next : Option ℕ
  ext : Option Ext
  deriving DecidableEq, Repr

/-- The state. `purged` and `received` are not read by the source: a packet and a cache buffer are
freed memory once purged, and `received` lists the spaces of the frames passed to the callback. -/
structure Rx where
  outPkts : ℕ → List OutPkt
  cacheBuf : ℕ → Option ℕ
  bufDesc : ℕ → Option ℕ
  mbufs : ℕ → Mbuf
  pkts : ℕ
  caches : ℕ
  purged : Space → Bool
  received : List Space

def Rx.init : Rx where
  outPkts _ := []
  cacheBuf _ := none
  bufDesc _ := none
  mbufs _ := ⟨.pool, none, none⟩
  pkts := 0
  caches := 0
  purged _ := false
  received := []

def Rx.setMbuf (st : Rx) (id : ℕ) (m : Mbuf) : Rx :=
  { st with mbufs := update st.mbufs id m }

def Rx.setDesc (st : Rx) (outidx : ℕ) (desc : Option ℕ) : Rx :=
  { st with bufDesc := update st.bufDesc outidx desc }

def Rx.setCache (st : Rx) (outidx : ℕ) (buf : Option ℕ) : Rx :=
  { st with cacheBuf := update st.cacheBuf outidx buf }

/-! ## The frame -/

structure SdpcmHeader where
  len : BitVec 16
  checksum : BitVec 16
  swheader : BitVec 32
  deriving DecidableEq, Repr

inductive HdrError where
  | eproto
  | enodata
  | eio
  | eoverflow
  | enomem
  deriving DecidableEq, Repr

/-- `sdio_hdparse`: the channel, the offset of the data and its length. -/
def sdioHdparse (hdrLen : ℕ) (h : SdpcmHeader) : Except HdrError (ℕ × ℕ × ℕ) :=
  let datOffset := ((h.swheader &&& 0xff000000#32) >>> 24).toNat
  if hdrLen < 4 then .error .eproto
  else if h.len ||| h.checksum = 0#16 then .error .enodata
  else if ~~~(h.len ^^^ h.checksum) ≠ 0#16 then .error .eio
  else if h.len.toNat < 8 then .error .eproto
  else if h.len.toNat < datOffset then .error .eoverflow
  else if hdrLen < h.len.toNat then .error .enomem
  else .ok (((h.swheader &&& 0x000f0000#32) >>> 16).toNat, datOffset, h.len.toNat)

/-- SDPCM_DATA_CHANNEL; the control channel is 0 and the event channel 1. -/
def dataChannel : ℕ := 2

/-- `sdio_vendor_pre_in`: only data frames go on. Control frames have been answered, others are
dropped. -/
def sdioVendorPreIn (lenLin : ℕ) (h : SdpcmHeader) : Bool :=
  match sdioHdparse lenLin h with
  | .error _ => true
  | .ok (chan, _, _) => chan != dataChannel

/-- A frame passed to the callback: its length, the lengths that `scdc_read_info` reports, its SDPCM
header on SDIO, and the SCDC fields that are read. -/
structure Frame where
  len : ℕ
  infoLin : ℕ
  infoWrap : ℕ
  sdpcm : Option SdpcmHeader
  flags : BitVec 8
  dataOffset : BitVec 8
  deriving DecidableEq, Repr

/-- `scdc_prep_in`; the USB driver has none. -/
def scdcPrepIn (fr : Frame) (lenLin : ℕ) : Bool :=
  match fr.sdpcm with
  | none => false
  | some h => sdioVendorPreIn lenLin h

/-- The version in the header is SCDC_PROTO_VER. -/
def Frame.versionOk (fr : Frame) : Bool := (fr.flags &&& 0xf0#8) >>> 4 == 2#8

/-- `headroom`, a `uint8_t`; `macHdrLen` is SNCMF_FW_MAC_HDR_LEN. -/
def Frame.headroom (macHdrLen : ℕ) (fr : Frame) : ℕ :=
  (8 + fr.dataOffset.toNat * 4 + macHdrLen) % 256

/-- What the environment decides in a callback: whether `kzalloc`, `m_gethdr` and `m_copyback` have
memory, the nodes that `m_getexthdr` and `m_getext` find, the interface of the frame (`true` for
HOSTAP), and whether the calls of `purge_outp` into `fws.c` return. -/
structure Outcome where
  pktOk : Bool
  hdrOk : Bool
  copyOk : Bool
  extHdr : Option ℕ
  ext : Option ℕ
  vap : Option Bool
  fwsOk : Bool
  deriving DecidableEq, Repr

/-! ## Giving space back -/

/-- What `purge_outp` does with a packet that has a predecessor. -/
def coalesce (prev outp : OutPkt) : Except Stop OutPkt :=
  match Sdio.coalesce prev.finfo outp.finfo with
  | some finfo => .ok { prev with lenLin := finfo.lenLin, lenWrap := finfo.lenWrap }
  | none => .error .assertion

/-- The packets after `prev`, when `pkt` is taken out from among them. -/
def coalesceInto (pkt : ℕ) : OutPkt → List OutPkt → Except Stop (List OutPkt)
  | _, [] => .error .freedMemory
  | prev, outp :: rest =>
    if outp.pkt = pkt then (coalesce prev outp).map fun merged => merged :: rest
    else (coalesceInto pkt outp rest).map fun rest => prev :: rest

/-- The outstanding packets when `pkt` is taken out.  The oldest one moves the read pointer. -/
def dropPkt (pkt : ℕ) : List OutPkt → Except Stop (List OutPkt)
  | [] => .error .freedMemory
  | outp :: rest => if outp.pkt = pkt then .ok rest else coalesceInto pkt outp rest

/-- `purge_outp`.  `held` is the pipe whose mutex the caller holds. -/
def purgeOutp (needMutex : Bool) (held : Option ℕ) (fwsOk : Bool) (st : Rx) (sp : Space) :
    Except Stop Rx :=
  if st.purged sp then .error .freedMemory
  else if !fwsOk then .error .assertion
  else
    match sp with
    | .cache _ => .ok { st with purged := update st.purged sp true }
    | .fifo outidx pkt =>
      if needMutex ∧ held = some outidx then .error .deadlock
      else
        (dropPkt pkt (st.outPkts outidx)).map fun outPkts =>
          { st with
            outPkts := update st.outPkts outidx outPkts
            purged := update st.purged sp true }

/-- The `ext_free` of a node; `scdc_mbuf_free_cb` if it has one. -/
def extFree (held : Option ℕ) (fwsOk : Bool) (st : Rx) : Option Space → Except Stop Rx
  | none => .ok st
  | some sp => purgeOutp true held fwsOk st sp

/-- `m_free` on a node: the state and `m_next`.  A node that was never attached is not freed. -/
def mFree (held : Option ℕ) (fwsOk : Bool) (st : Rx) (id : ℕ) : Except Stop (Rx × Option ℕ) :=
  if (st.mbufs id).owner = .pool then .error .freedMemory
  else
    match (st.mbufs id).ext with
    | none => .ok (st, none)
    | some e =>
      (extFree held fwsOk st e.free).map fun st' =>
        (st'.setMbuf id ⟨.pool, (st.mbufs id).next, some ⟨none, e.free⟩⟩, (st.mbufs id).next)

/-- `m_freem`; `fuel` bounds the length of the chain. -/
def mFreem (held : Option ℕ) (fwsOk : Bool) : ℕ → Rx → Option ℕ → Except Stop Rx
  | _, st, none => .ok st
  | 0, _, some _ => .error .freedMemory
  | fuel + 1, st, some id =>
    match mFree held fwsOk st id with
    | .error e => .error e
    | .ok (st', next) => mFreem held fwsOk fuel st' next

/-- The longest chain has a node for each part of a wrapped frame. -/
def chainLen : ℕ := 2

/-! ## The callback -/

def Rx.alloc (st : Rx) : Option ℕ → Option ℕ
  | none => none
  | some id => if (st.mbufs id).owner = .pool then some id else none

/-- `construct_mbuf` on a node of the pool: `m_ext` stays as it is. -/
def Rx.construct (st : Rx) (id : ℕ) : Rx :=
  st.setMbuf id ⟨.driver, none, (st.mbufs id).ext⟩

def Rx.extAdd (st : Rx) (id : ℕ) (e : Ext) : Rx :=
  st.setMbuf id { st.mbufs id with ext := some e }

def Rx.giveUp (st : Rx) (id : ℕ) : Rx := st.setMbuf id { st.mbufs id with owner := .stack }

/-- From the label `reorder` on: the chain of `m` is handed upward. -/
def handUp (st : Rx) (id : ℕ) : Except Stop Rx :=
  if (st.mbufs id).owner = .pool then .error .freedMemory
  else
    .ok (match (st.mbufs id).next with
      | none => st.giveUp id
      | some j => (st.giveUp id).giveUp j)

/-- From `pass` on: the header of `m` is adjusted, and for a HOSTAP interface its data is read. -/
def pass (hostap : Bool) (st : Rx) : Option ℕ → Except Stop Rx
  | none => .error .nullPointer
  | some id =>
    if hostap ∧ (st.mbufs id).ext = none then .error .nullPointer
    else handUp st id

/-- The packet is copied, for want of a linear headroom, and `m` overwritten with the pipe's
descriptor. -/
def rxCopy (held : Option ℕ) (hostap : Bool) (o : Outcome) (outidx : ℕ) (sp : Space) (st : Rx) :
    Except Stop Rx :=
  if !(o.hdrOk && o.copyOk) then purgeOutp false held o.fwsOk st sp
  else
    match mFreem held o.fwsOk chainLen st (st.bufDesc outidx) with
    | .error e => .error e
    | .ok st' =>
      match purgeOutp false held o.fwsOk (st'.setDesc outidx none) sp with
      | .error e => .error e
      | .ok st'' => pass hostap st'' (st.bufDesc outidx)

/-- The first node of an attached frame: the descriptor of the pipe, or a new one. -/
def firstNode (o : Outcome) (outidx : ℕ) (st : Rx) : Option ℕ :=
  match st.bufDesc outidx with
  | some id => some id
  | none => st.alloc o.extHdr

/-- A new first node is constructed. -/
def Rx.takeFirst (st : Rx) (outidx id : ℕ) : Rx :=
  if (st.bufDesc outidx).isSome then st else st.construct id

/-- The buffer and the descriptor are used up. -/
def Rx.takeBufs (st : Rx) (outidx : ℕ) (sp : Space) : Rx :=
  match sp with
  | .cache _ => (st.setDesc outidx none).setCache outidx none
  | .fifo _ _ => st.setDesc outidx none

/-- The packet is attached to one node, or two when wrapped; only the first has the free
callback. -/
def rxAttach (held : Option ℕ) (hostap : Bool) (o : Outcome) (outidx : ℕ) (sp : Space)
    (wrapped : Bool) (st : Rx) : Except Stop Rx :=
  match firstNode o outidx st with
  | none =>
    (purgeOutp false held o.fwsOk st sp).map fun st' =>
      match sp with
      | .cache _ => st'.setCache outidx none
      | .fifo _ _ => st'
  | some id =>
    let st := (st.takeFirst outidx id).extAdd id ⟨some sp, some sp⟩
    if wrapped then
      match st.alloc o.ext with
      | some j =>
        let st := (st.construct j).extAdd j ⟨some sp, none⟩
        let st := st.setMbuf id { st.mbufs id with next := some j }
        pass hostap (st.takeBufs outidx sp) (some id)
      | none =>
        -- Freeing `m` purges the packet, and then it is purged once more.
        match mFreem held o.fwsOk chainLen st (some id) with
        | .error e => .error e
        | .ok st =>
          match purgeOutp false held o.fwsOk st sp with
          | .error e => .error e
          | .ok st => handUp st id
    else pass hostap (st.takeBufs outidx sp) (some id)

/-- The callback once the frame has its packet. -/
def rxFrame (macHdrLen : ℕ) (held : Option ℕ) (outidx : ℕ) (sp : Space) (lenLin lenWrap : ℕ)
    (fr : Frame) (o : Outcome) (st : Rx) : Except Stop Rx :=
  if scdcPrepIn fr lenLin then purgeOutp false held o.fwsOk st sp
  else if !fr.versionOk then .error .assertion
  else
    match o.vap with
    | none => .error .nullPointer
    | some hostap =>
      if lenLin ≤ fr.headroom macHdrLen then rxCopy held hostap o outidx sp st
      else rxAttach held hostap o outidx sp (lenWrap != 0) st

/-- The lengths of a packet: `scdc_update_buf_ptr_info`, or the whole FIFO for the only packet. -/
def pktLens (outPkts : List OutPkt) (fr : Frame) : Except Stop (ℕ × ℕ) :=
  if outPkts.isEmpty then
    if fr.len = fr.infoLin + fr.infoWrap then .ok (fr.infoLin, fr.infoWrap) else .error .assertion
  else if fr.infoWrap = 0 ∨ outPkts.any OutPkt.isWrapped then .ok (fr.len, 0)
  else .ok (u16 (fr.len - fr.infoWrap), fr.infoWrap)

def Rx.enterCache (st : Rx) (buf : ℕ) : Rx := { st with received := st.received ++ [.cache buf] }

/-- The frame in the FIFO is received: a new packet at the end of its list. -/
def Rx.enterFifo (st : Rx) (outidx lenLin lenWrap : ℕ) : Rx :=
  { st with
    outPkts := update st.outPkts outidx (st.outPkts outidx ++ [⟨st.pkts, lenLin, lenWrap⟩])
    pkts := st.pkts + 1
    received := st.received ++ [.fifo outidx st.pkts] }

def scdcVendorRxCb (macHdrLen : ℕ) (st : Rx) (outidx : ℕ) (fr : Frame) (o : Outcome) :
    Except Stop Rx :=
  if fr.len = 0 then .ok st
  else
    match st.cacheBuf outidx with
    | some buf =>
      if st.purged (.cache buf) then .error .freedMemory
      else rxFrame macHdrLen none outidx (.cache buf) fr.len 0 fr o (st.enterCache buf)
    | none =>
      if !o.pktOk then .error .assertion
      else
        match pktLens (st.outPkts outidx) fr with
        | .error e => .error e
        | .ok (lenLin, lenWrap) =>
          rxFrame macHdrLen (some outidx) outidx (.fifo outidx st.pkts) lenLin lenWrap fr o
            (st.enterFifo outidx lenLin lenWrap)

/-! ## The driver and the stack -/

/-- `_prep_out_transaction` of the USB driver with `scdc_vendor_get_buf`: a descriptor, and a cache
buffer when the FIFO has no linear space. -/
def prepOutTransaction (st : Rx) (outidx : ℕ) (linearSpace cacheOk : Bool) (desc : Option ℕ) : Rx :=
  let withDesc := match st.alloc desc with
    | none => st.setDesc outidx none
    | some id => (st.construct id).setDesc outidx (some id)
  if linearSpace then withDesc
  else if (st.cacheBuf outidx).isSome || !cacheOk then st
  else
    match st.alloc desc with
    | none => withDesc
    | some _ => { withDesc.setCache outidx (some st.caches) with caches := st.caches + 1 }

/-- The stack takes a node out of the chain it is in. -/
def Rx.unlink (st : Rx) (id : ℕ) : Rx :=
  { st with mbufs := fun i =>
      if (st.mbufs i).owner = .stack ∧ (st.mbufs i).next = some id then
        { st.mbufs i with next := none }
      else st.mbufs i }

/-- What can happen next.  The stack frees a node it holds, or the chain from that node on. -/
inductive Action where
  | rx (outidx : ℕ) (fr : Frame) (o : Outcome)
  | arm (outidx : ℕ) (linearSpace cacheOk : Bool) (desc : Option ℕ)
  | free (id : ℕ) (fwsOk : Bool)
  | freem (id : ℕ) (fwsOk : Bool)
  deriving DecidableEq, Repr

/-- An action with its error; a node the stack does not hold is none of its business. -/
def perform (macHdrLen : ℕ) (st : Rx) : Action → Except Stop Rx
  | .rx outidx fr o => scdcVendorRxCb macHdrLen st outidx fr o
  | .arm outidx linearSpace cacheOk desc =>
    .ok (prepOutTransaction st outidx linearSpace cacheOk desc)
  | .free id fwsOk =>
    if (st.mbufs id).owner = .stack then
      (mFree none fwsOk (st.unlink id) id).map Prod.fst
    else .ok st
  | .freem id fwsOk =>
    if (st.mbufs id).owner = .stack then mFreem none fwsOk chainLen (st.unlink id) (some id)
    else .ok st

def step (macHdrLen : ℕ) (st : Rx) (a : Action) : Option Rx := (perform macHdrLen st a).toOption

/-! ## The property -/

/-- An mbuf that is not freed refers to a space. -/
def Rx.Refers (st : Rx) (id : ℕ) (sp : Space) : Prop :=
  (st.mbufs id).owner ≠ .pool ∧ ∃ e, (st.mbufs id).ext = some e ∧ e.refers = some sp

/-- **The property of a state**: a space received is purged exactly when no mbuf refers to it. -/
def Sound (st : Rx) : Prop :=
  ∀ sp ∈ st.received, (st.purged sp = true ↔ ∀ id, ¬st.Refers id sp)

end WiseSdk.ScdcRx
