import WiseSdk.Ota.Http

/-!
# The update agent

The body of the response goes to the secondary slot through a buffer of 4096 bytes: full
buffers are written as they come, and the rest when the file is closed.  The magic number of
the image is checked in the slot after the first full buffer is written; an image that never
fills the buffer has it checked when the file is closed, before it is written.

The result of a download is the result of closing the file.
-/

namespace WiseSdk.Ota

/-! ## The slot -/

abbrev Slot := ℕ → UInt8

def Slot.write (slot : Slot) (oft : ℕ) (data : List UInt8) : Slot := fun i =>
  if oft ≤ i then (data[i - oft]?).getD (slot i) else slot i

def slotSize : ℕ := 0x1A0000

/-- `check_magic`: the slot starts with IMAGE_MAGIC, in little-endian order. -/
def checkMagic (slot : Slot) : Bool :=
  slot 0 == 0x3d && slot 1 == 0xb8 && slot 2 == 0xf3 && slot 3 == 0x96

/-- What the device meets: the bytes in `hbuf` once the request is sent, the results of `recv`, the
slot before the download, and what each failing `flash_area_write` leaves in the slot. -/
structure Download where
  hbuf : List UInt8
  chunks : List (List UInt8)
  slot : Slot
  flash : ℕ → Option Slot
  hbuf_length : hbuf.length = maxBufLen
  chunk_length : ∀ chunk ∈ chunks, 1 ≤ chunk.length ∧ chunk.length ≤ maxBufLen

/-! ## Writing -/

def maxWriteBufLen : ℕ := 4096

/-- The writer: the slot, the bytes waiting in `fbuf`, the offset of the next write, and the writes
asked for. -/
structure Writer where
  slot : Slot
  fbuf : List UInt8 := []
  imgOft : ℕ := 0
  writes : ℕ := 0

variable (dl : Download)

/-- `flash_area_write`, with its success.  A write out of the area fails and writes nothing. -/
def flashAreaWrite (w : Writer) (data : List UInt8) : Writer × Bool :=
  if slotSize < w.imgOft + data.length then ({ w with writes := w.writes + 1 }, false)
  else
    match dl.flash w.writes with
    | none => ({ w with slot := w.slot.write w.imgOft data, writes := w.writes + 1 }, true)
    | some slot => ({ w with slot := slot, writes := w.writes + 1 }, false)

/-- `file_write`, with its success. -/
def fileWrite (w : Writer) (data : List UInt8) : Writer × Bool :=
  if maxWriteBufLen ≤ w.fbuf.length + data.length then
    let copyLen := maxWriteBufLen - w.fbuf.length
    let (w', ok) := flashAreaWrite dl w (w.fbuf ++ data.take copyLen)
    if !ok then (w', false)
    else if w'.imgOft = 0 ∧ checkMagic w'.slot = false then (w', false)
    else
      ({ w' with imgOft := w'.imgOft + maxWriteBufLen, fbuf := data.drop copyLen }, true)
  else ({ w with fbuf := w.fbuf ++ data }, true)

/-- `file_close`, with its success. -/
def fileClose (w : Writer) : Writer × Bool :=
  if w.fbuf = [] then (w, true)
  else if w.imgOft = 0 ∧ checkMagic w.slot = false then (w, false)
  else
    let (w', ok) := flashAreaWrite dl w w.fbuf
    ({ w' with imgOft := w'.imgOft + w'.fbuf.length }, ok)

/-! ## Receiving -/

/-- The loop of `http_recv_rsp` for the rest of the body; `offset` bytes have come with the
header. -/
def recvBody (dl : Download) (fileSize : ℤ) : ℤ → Writer → List (List UInt8) → Writer
  | _, w, [] => w
  | offset, w, chunk :: chunks =>
    if offset < fileSize then
      let (w', ok) := fileWrite dl w chunk
      if ok then recvBody dl fileSize (offset + chunk.length) w' chunks else w'
    else w

/-- `http_recv_rsp`: the writer after the file has been closed without an error. -/
def httpRecvRsp : Except Fault Writer :=
  match dl.chunks with
  | [] => .error .failed
  | first :: rest =>
    -- The bytes of the request that were not overwritten are still there.
    match readHeader (first ++ dl.hbuf.drop first.length) first.length with
    | .error fault => .error fault
    | .ok (hdrLen, fileSize) =>
      let body := first.drop (hdrLen + 1)
      let (w, ok) := fileWrite dl { slot := dl.slot } body
      let w := if ok then recvBody dl fileSize body.length w rest else w
      let (w, closed) := fileClose dl w
      if closed then .ok w else .error .failed

/-- `do_mcuboot_agent` once the request is sent: the writer at `boot_set_pending_multi`. -/
def doMcubootAgent : Except Fault Writer := httpRecvRsp dl

end WiseSdk.Ota
