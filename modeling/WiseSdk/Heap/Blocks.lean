import Mathlib.Algebra.Order.Ring.Nat

/-!
# The heap with DMA regions

The model of `heap_5_ext.c`, built with `CONFIG_SUPPORT_DMA_DYNAMIC_ALLOC`. What
`configUSE_MALLOC_DEBUG` changes is a parameter, the size of a header and what a request takes on
top of its bytes; without one it is the build without this option. The heap is an address-ordered
list of free blocks threaded through their headers; a second list, with a head and an end marker of
its own, holds the blocks of the DMA regions.

Addresses and sizes are 32-bit quantities kept as natural numbers; every sum and difference is
reduced by `u32` or `sub32`. Memory is read and written a header at a time. The list heads `_xStart`
and `xStartDMA` are outside the heap, so a place that holds a link is a head or a block (`Loc`).

`none` stands for a failed `configASSERT` and for a loop over the list that does not end.
-/

namespace WiseSdk.Heap

open Function

/-! ## Arithmetic and constants -/

def u32 (n : ℕ) : ℕ := n % 2 ^ 32

/-- The difference `a - b` in `size_t`. -/
def sub32 (a b : ℕ) : ℕ := (a + (2 ^ 32 - b)) % 2 ^ 32

def byteAlignment : ℕ := 16

/-- `xHeapStructSize`: the size of a `BlockLink_t`, rounded up to the alignment. -/
def heapStructSize : ℕ := 16

def heapMinimumBlockSize (hdr : ℕ := heapStructSize) : ℕ := 2 * hdr

/-- `_xBlockAllocatedBit`: the top bit of a `size_t`. -/
def blockAllocatedBit : ℕ := 2 ^ 31

def dmaBufferMark : ℕ := 0xFFFFFFFF

/-- Round down to the alignment: `& ~portBYTE_ALIGNMENT_MASK`. -/
def alignDown (a : ℕ) : ℕ := a / byteAlignment * byteAlignment

def alignUp (a : ℕ) : ℕ :=
  if a % byteAlignment ≠ 0 then alignDown (u32 (a + (byteAlignment - 1))) else a

/-! ## Headers, places and the heap -/

structure BlockLink where
  pxNextFreeBlock : ℕ
  xBlockSize : ℕ
  deriving DecidableEq, Repr

/-- A place that holds a link: one of the two list heads, or the header of a block. -/
inductive Loc where
  | start (xDMABuffer : Bool)
  | block (addr : ℕ)
  deriving DecidableEq, Repr

/-- The variables of the allocator and the headers in memory. -/
structure HeapState where
  xStart : BlockLink
  pxEnd : ℕ
  xStartDMA : BlockLink
  pxEndDMA : ℕ
  mem : ℕ → BlockLink
  xFreeBytesRemaining : ℕ
  xMinimumEverFreeBytesRemaining : ℕ

namespace HeapState

/-- The head of the list: `_xStart`, or `xStartDMA` for a DMA buffer. -/
def start (h : HeapState) (xDMABuffer : Bool) : BlockLink :=
  if xDMABuffer then h.xStartDMA else h.xStart

/-- The end marker of the list: `_pxEnd`, or `pxEndDMA` for a DMA buffer. -/
def pxBlockEnd (h : HeapState) (xDMABuffer : Bool) : ℕ :=
  if xDMABuffer then h.pxEndDMA else h.pxEnd

def next (h : HeapState) : Loc → ℕ
  | .start xDMABuffer => (h.start xDMABuffer).pxNextFreeBlock
  | .block addr => (h.mem addr).pxNextFreeBlock

def setNext (h : HeapState) : Loc → ℕ → HeapState
  | .start true, next => { h with xStartDMA := { h.xStartDMA with pxNextFreeBlock := next } }
  | .start false, next => { h with xStart := { h.xStart with pxNextFreeBlock := next } }
  | .block addr, next =>
    { h with
      mem := update h.mem addr { h.mem addr with pxNextFreeBlock := next } }

def setSize (h : HeapState) (addr size : ℕ) : HeapState :=
  { h with mem := update h.mem addr { h.mem addr with xBlockSize := size } }

def setLink (h : HeapState) (addr : ℕ) (link : BlockLink) : HeapState :=
  { h with mem := update h.mem addr link }

end HeapState

/-- The nodes a list can have: a loop that has not ended after so many steps never ends. -/
def listFuel : ℕ := 2 ^ 32

/-! ## Inserting a block -/

/-- The `for` loop of `prvInsertBlockIntoFreeListWithDMA`: the last place before the block. -/
def findIterator (h : HeapState) (pxBlockToInsert : ℕ) : ℕ → Loc → Option Loc
  | 0, _ => none
  | fuel + 1, pxIterator =>
    if h.next pxIterator < pxBlockToInsert then
      findIterator h pxBlockToInsert fuel (.block (h.next pxIterator))
    else some pxIterator

/-- Join the block with the one in front, if they are contiguous; the result goes on being
inserted. -/
def joinBefore (h : HeapState) (pxIterator : Loc) (pxBlockToInsert : ℕ) : HeapState × ℕ :=
  match pxIterator with
  -- A head is a static variable: no block of the heap starts where it stands.
  | .start _ => (h, pxBlockToInsert)
  | .block addr =>
    if u32 (addr + (h.mem addr).xBlockSize) = pxBlockToInsert then
      (h.setSize addr (u32 ((h.mem addr).xBlockSize + (h.mem pxBlockToInsert).xBlockSize)), addr)
    else (h, pxBlockToInsert)

/-- The header of the block in front of `next`, joined with it if contiguous and not the end
marker. -/
def linkBefore (h : HeapState) (xDMABuffer : Bool) (pxBlockToInsert next : ℕ) : BlockLink :=
  let xBlockSize := (h.mem pxBlockToInsert).xBlockSize
  if u32 (pxBlockToInsert + xBlockSize) = next then
    if next ≠ h.pxBlockEnd xDMABuffer then
      ⟨(h.mem next).pxNextFreeBlock, u32 (xBlockSize + (h.mem next).xBlockSize)⟩
    else ⟨h.pxBlockEnd xDMABuffer, xBlockSize⟩
  else ⟨next, xBlockSize⟩

def insertBlockIntoFreeListWithDMA (h : HeapState) (pxBlockToInsert : ℕ) (xDMABuffer : Bool) :
    Option HeapState :=
  match findIterator h pxBlockToInsert listFuel (.start xDMABuffer) with
  | none => none
  | some pxIterator =>
    let (h, pxBlockToInsert) := joinBefore h pxIterator pxBlockToInsert
    let h := h.setLink pxBlockToInsert
      (linkBefore h xDMABuffer pxBlockToInsert (h.next pxIterator))
    -- A block joined with the one in front of it must not be linked to itself.
    if pxIterator ≠ .block pxBlockToInsert then some (h.setNext pxIterator pxBlockToInsert)
    else some h

/-! ## Allocation -/

/-- The bytes a request takes: room for the header, and for a canary if there is one, rounded up to
the alignment. -/
def wantedSize (xWantedSize : ℕ) (room : ℕ := heapStructSize) : ℕ :=
  if 0 < xWantedSize then
    let size := u32 (xWantedSize + room)
    if size % byteAlignment ≠ 0 then u32 (size + (byteAlignment - size % byteAlignment))
    else size
  else xWantedSize

/-- A request is looked for if its top bit is clear, it is not empty and that many bytes are
free. -/
def Searched (h : HeapState) (xWantedSize : ℕ) (room : ℕ := heapStructSize) : Prop :=
  xWantedSize < blockAllocatedBit ∧ 0 < wantedSize xWantedSize room ∧
    wantedSize xWantedSize room ≤ h.xFreeBytesRemaining
deriving Decidable

/-- The `while` loop of the allocators: the first block large enough, or the end marker, and what
links to it. -/
def searchList (h : HeapState) (wanted : ℕ) : ℕ → Loc → ℕ → Option (Loc × ℕ)
  | 0, _, _ => none
  | fuel + 1, pxPreviousBlock, pxBlock =>
    if (h.mem pxBlock).xBlockSize < wanted ∧ (h.mem pxBlock).pxNextFreeBlock ≠ 0 then
      searchList h wanted fuel (.block pxBlock) (h.mem pxBlock).pxNextFreeBlock
    else some (pxPreviousBlock, pxBlock)

/-- Cut off what is not wanted of the block, if it makes a block of its own, and insert it. -/
def splitBlock (h : HeapState) (xDMABuffer : Bool) (wanted pxBlock : ℕ)
    (hdr : ℕ := heapStructSize) : Option HeapState :=
  let xBlockSize := (h.mem pxBlock).xBlockSize
  if heapMinimumBlockSize hdr < sub32 xBlockSize wanted then
    let pxNewBlockLink := u32 (pxBlock + wanted)
    insertBlockIntoFreeListWithDMA
      ((h.setSize pxNewBlockLink (sub32 xBlockSize wanted)).setSize pxBlock wanted)
      pxNewBlockLink xDMABuffer
  else some h

/-- Set the top bit of a size: `|= _xBlockAllocatedBit`. -/
def setAllocated (size : ℕ) : ℕ :=
  if blockAllocatedBit ≤ size then size else size + blockAllocatedBit

/-- Account for a block that is handed out and mark its header. -/
def markAllocated (h : HeapState) (xDMABuffer : Bool) (pxBlock : ℕ) : HeapState :=
  let xFreeBytesRemaining := sub32 h.xFreeBytesRemaining (h.mem pxBlock).xBlockSize
  { h with
    xFreeBytesRemaining
    xMinimumEverFreeBytesRemaining :=
      min xFreeBytesRemaining h.xMinimumEverFreeBytesRemaining
    mem := update h.mem pxBlock
      ⟨if xDMABuffer then dmaBufferMark else 0, setAllocated (h.mem pxBlock).xBlockSize⟩ }

/-- Hand out the block found: unlink, split and mark it. The result holds the address returned. -/
def takeBlock (h : HeapState) (xDMABuffer : Bool) (wanted : ℕ) (pxPreviousBlock : Loc)
    (pxBlock : ℕ) (hdr : ℕ := heapStructSize) : Option (HeapState × ℕ) :=
  let pvReturn := u32 (h.next pxPreviousBlock + hdr)
  (splitBlock (h.setNext pxPreviousBlock (h.mem pxBlock).pxNextFreeBlock) xDMABuffer wanted
    pxBlock hdr).map fun h => (markAllocated h xDMABuffer pxBlock, pvReturn)

/-- Hand out the block a search found, unless it is the end marker. -/
def takeFound (h : HeapState) (xDMABuffer : Bool) (wanted : ℕ) (found : Option (Loc × ℕ))
    (hdr : ℕ := heapStructSize) : Option (HeapState × ℕ) :=
  match found with
  | none => none
  | some (pxPreviousBlock, pxBlock) =>
    if pxBlock ≠ h.pxBlockEnd xDMABuffer then
      takeBlock h xDMABuffer wanted pxPreviousBlock pxBlock hdr
    else some (h, 0)

def searchFrom (h : HeapState) (xDMABuffer : Bool) (wanted : ℕ) : Option (Loc × ℕ) :=
  searchList h wanted listFuel (.start xDMABuffer) (h.start xDMABuffer).pxNextFreeBlock

/-- `pvPortMallocDMA`: the block comes from the DMA list. -/
def pvPortMallocDMA (h : HeapState) (xWantedSize : ℕ) (hdr : ℕ := heapStructSize)
    (room : ℕ := heapStructSize) : Option (HeapState × ℕ) :=
  if h.pxEnd = 0 then none
  else if Searched h xWantedSize room then
    takeFound h true (wantedSize xWantedSize room)
      (searchFrom h true (wantedSize xWantedSize room)) hdr
  else some (h, 0)

/-- `p_pvPortMalloc`: from the main list, or from the DMA list when that is another list. -/
def pvPortMalloc (h : HeapState) (xWantedSize : ℕ) (hdr : ℕ := heapStructSize)
    (room : ℕ := heapStructSize) : Option (HeapState × ℕ) :=
  if h.pxEnd = 0 then none
  else if Searched h xWantedSize room then
    match searchFrom h false (wantedSize xWantedSize room) with
    | none => none
    | some (pxPreviousBlock, pxBlock) =>
      if pxBlock = h.pxEnd ∧ h.pxEndDMA ≠ h.pxEnd then
        takeFound h true (wantedSize xWantedSize room)
          (searchFrom h true (wantedSize xWantedSize room)) hdr
      else takeFound h false (wantedSize xWantedSize room) (some (pxPreviousBlock, pxBlock)) hdr
  else some (h, 0)

/-! ## Freeing -/

/-- `p_vPortFree`: the mark in the header decides the list the block goes back to. -/
def vPortFree (h : HeapState) (pv : ℕ) (hdr : ℕ := heapStructSize) : Option HeapState :=
  if pv = 0 then some h
  else
    let pxLink := sub32 pv hdr
    let link := h.mem pxLink
    if blockAllocatedBit ≤ link.xBlockSize ∧
        (link.pxNextFreeBlock = 0 ∨ link.pxNextFreeBlock = dmaBufferMark) then
      let xBlockSize := link.xBlockSize - blockAllocatedBit
      insertBlockIntoFreeListWithDMA
        { h with
          xFreeBytesRemaining := u32 (h.xFreeBytesRemaining + xBlockSize)
          mem := update h.mem pxLink ⟨0, xBlockSize⟩ }
        pxLink (link.pxNextFreeBlock = dmaBufferMark)
    else none

/-! ## Defining the regions -/

/-- An entry of the array of regions, before the entry of size zero that ends it. -/
structure HeapRegion where
  pucStartAddress : ℕ
  xSizeInBytes : ℕ
  start_lt : pucStartAddress < 2 ^ 32 := by decide
  size_pos : 0 < xSizeInBytes := by decide
  size_lt : xSizeInBytes < 2 ^ 32 := by decide
  deriving DecidableEq

def HeapRegion.ofNat (start size : ℕ)
    (h : (start < 2 ^ 32 && 0 < size && size < 2 ^ 32) = true) : HeapRegion :=
  ⟨start, size, by simp at h; omega, by simp at h; omega, by simp at h; omega⟩

/-- The list being built by the loop over the regions. -/
structure RegionList where
  start : BlockLink
  pxEnd : ℕ
  mem : ℕ → BlockLink
  xTotalHeapSize : ℕ
  xDefinedRegions : ℕ

def regionEnd (region : HeapRegion) (hdr : ℕ := heapStructSize) : ℕ :=
  let xAlignedHeap := alignUp region.pucStartAddress
  let xTotalRegionSize :=
    sub32 region.xSizeInBytes (sub32 xAlignedHeap region.pucStartAddress)
  alignDown (sub32 (u32 (xAlignedHeap + xTotalRegionSize)) hdr)

/-- One round of the loop: close the region by a marker, make the rest one free block and link it
behind the region before. -/
def defineRegionWith (hdr : ℕ) (d : RegionList) (region : HeapRegion) : Option RegionList :=
  let xAlignedHeap := alignUp region.pucStartAddress
  if d.xDefinedRegions ≠ 0 ∧ ¬(d.pxEnd ≠ 0 ∧ d.pxEnd < xAlignedHeap) then none
  else
    let xAddress := regionEnd region hdr
    let xBlockSize := sub32 xAddress xAlignedHeap
    let mem := update (update d.mem xAddress ⟨0, 0⟩) xAlignedHeap
      ⟨xAddress, xBlockSize⟩
    some
      { start := if d.xDefinedRegions = 0 then ⟨xAlignedHeap, 0⟩ else d.start
        pxEnd := xAddress
        mem :=
          if d.pxEnd ≠ 0 then
            update mem d.pxEnd { mem d.pxEnd with pxNextFreeBlock := xAlignedHeap }
          else mem
        xTotalHeapSize := u32 (d.xTotalHeapSize + xBlockSize)
        xDefinedRegions := d.xDefinedRegions + 1 }

abbrev defineRegion : RegionList → HeapRegion → Option RegionList :=
  defineRegionWith heapStructSize

def vPortDefineHeapRegions (h : HeapState) (regions : List HeapRegion)
    (hdr : ℕ := heapStructSize) : Option HeapState :=
  if h.pxEnd ≠ 0 then none
  else
    match regions.foldlM (defineRegionWith hdr) ⟨h.xStart, h.pxEnd, h.mem, 0, 0⟩ with
    | none => none
    | some d =>
      if d.xTotalHeapSize = 0 then none
      else
        some { h with
          xStart := d.start
          pxEnd := d.pxEnd
          mem := d.mem
          xFreeBytesRemaining := d.xTotalHeapSize
          xMinimumEverFreeBytesRemaining := d.xTotalHeapSize }

/-- `xPortHeapRegionsIsSame` on the first entry, which is `{ NULL, 0 }` if there is no region. -/
def xPortHeapRegionsIsSame (h : HeapState) (regions : List HeapRegion) : Prop :=
  (regions.head?.elim 0 fun region => alignUp region.pucStartAddress) =
    h.xStart.pxNextFreeBlock
deriving Decidable

def vPortDefineHeapRegionsDMA (h : HeapState) (regions : List HeapRegion)
    (hdr : ℕ := heapStructSize) : Option HeapState :=
  if h.pxEnd = 0 ∨ h.pxEndDMA ≠ 0 then none
  else if xPortHeapRegionsIsSame h regions then
    some { h with xStartDMA := h.xStart, pxEndDMA := h.pxEnd }
  else
    match regions.foldlM (defineRegionWith hdr) ⟨h.xStartDMA, h.pxEndDMA, h.mem, 0, 0⟩ with
    | none => none
    | some d =>
      if d.xTotalHeapSize = 0 then none
      else
        some { h with
          xStartDMA := d.start
          pxEndDMA := d.pxEnd
          mem := d.mem
          xFreeBytesRemaining := u32 (h.xFreeBytesRemaining + d.xTotalHeapSize)
          xMinimumEverFreeBytesRemaining :=
            u32 (h.xMinimumEverFreeBytesRemaining + d.xTotalHeapSize) }

/-- The allocator before any region is defined: cleared variables, any memory. -/
def reset (mem : ℕ → BlockLink) : HeapState :=
  { xStart := ⟨0, 0⟩, pxEnd := 0, xStartDMA := ⟨0, 0⟩, pxEndDMA := 0, mem
    xFreeBytesRemaining := 0, xMinimumEverFreeBytesRemaining := 0 }

def defineHeaps (mem : ℕ → BlockLink) (main dma : List HeapRegion)
    (hdr : ℕ := heapStructSize) : Option HeapState :=
  (vPortDefineHeapRegions (reset mem) main hdr).bind fun h =>
    vPortDefineHeapRegionsDMA h dma hdr

/-! ## Runs -/

/-- The allocator and the pointers its callers hold. -/
structure World where
  heap : HeapState
  live : List ℕ

inductive HeapCall where
  | malloc (xWantedSize : ℕ)
  | mallocDMA (xWantedSize : ℕ)
  | free (pv : ℕ)
  deriving DecidableEq, Repr

/-- The caller holds the pointer an allocation returned, if it is not `NULL`. -/
def World.handOut (w : World) (r : HeapState × ℕ) : World :=
  ⟨r.1, if r.2 = 0 then w.live else r.2 :: w.live⟩

def heapStep (w : World) : HeapCall → Option World
  | .malloc xWantedSize => (pvPortMalloc w.heap xWantedSize).map w.handOut
  | .mallocDMA xWantedSize => (pvPortMallocDMA w.heap xWantedSize).map w.handOut
  | .free pv => (vPortFree w.heap pv).map fun h => ⟨h, w.live.erase pv⟩

def FreesLive (w : World) : HeapCall → Prop
  | .free pv => pv ∈ w.live
  | _ => True

instance (w : World) : (call : HeapCall) → Decidable (FreesLive w call)
  | .malloc _ => .isTrue trivial
  | .mallocDMA _ => .isTrue trivial
  | .free pv => inferInstanceAs (Decidable (pv ∈ w.live))

end WiseSdk.Heap
