import WiseSdk.Heap.Shared
import WiseSdk.Heap.Words

/-!
# The debug allocator

`pvPortMallocDbg` exists in the builds with `CONFIG_MEM_HEAP_DEBUG` inside
`configUSE_MALLOC_DEBUG`. There every header also holds a canary, an owner, the size asked for and
the name of the caller (`DebugBuild`), and every allocator makes room for a tail canary, so that
`p_pvPortMalloc` extends a request as `pvPortMallocDbg` does. The two differ in one test: when the
main list has no block, `pvPortMallocDbg` searches the DMA list even if that is the main list. What
they write into the new fields of a header concerns no list and no counter.

`dbg_agrees_iff` says in which states and for which sizes the two do the same, over every state of
the machine (`MachineState`); `machineState_run`: every state a debug build reaches is one.
`dbg_hands_out_live_block` is a run after which they do not.
-/

namespace WiseSdk.Heap

open Library Option

/-! ## The model -/

/-- A build with the debug allocator: `CONFIG_MEM_HEAP_DEBUG_FUNCNAMELEN`, 16 by default, which the
sources refuse below 14. -/
structure DebugBuild where
  funcNameLen : ℕ
  long : 14 ≤ funcNameLen := by decide
  short : funcNameLen < 2 ^ 16 := by decide

namespace DebugBuild

variable (build : DebugBuild)

/-- `xHeapStructSize`: five words and the name of the caller, rounded up to the alignment. -/
def header : ℕ := (20 + build.funcNameLen + (byteAlignment - 1)) / byteAlignment * byteAlignment

/-- What a request takes on top of its bytes: a header, and `sizeof(uint32_t)` for the tail
canary. -/
def room : ℕ := build.header + 4

theorem header_bounds : heapStructSize ≤ build.header ∧ build.header < 2 ^ 17 := by
  have hlong := build.long
  have hshort := build.short
  simp only [header, byteAlignment, heapStructSize]
  omega

end DebugBuild

variable (build : DebugBuild)

def pvPortMallocDbg (h : HeapState) (xWantedSize : ℕ) : Option (HeapState × ℕ) :=
  if h.pxEnd = 0 then none
  else if Searched h xWantedSize build.room then
    match searchFrom h false (wantedSize xWantedSize build.room) with
    | none => none
    | some (pxPreviousBlock, pxBlock) =>
      -- `p_pvPortMalloc` asks here whether `pxEndDMA` is another marker.
      if pxBlock = h.pxEnd then
        takeFound h true (wantedSize xWantedSize build.room)
          (searchFrom h true (wantedSize xWantedSize build.room)) build.header
      else
        takeFound h false (wantedSize xWantedSize build.room) (some (pxPreviousBlock, pxBlock))
          build.header
  else some (h, 0)

/-- The calls of a debug build. -/
inductive DebugCall where
  | call (call : HeapCall)
  | mallocDbg (xWantedSize : ℕ)

def debugStep (w : World) : DebugCall → Option World
  | .call (.malloc xWantedSize) =>
    (pvPortMalloc w.heap xWantedSize build.header build.room).map w.handOut
  | .call (.mallocDMA xWantedSize) =>
    (pvPortMallocDMA w.heap xWantedSize build.header build.room).map w.handOut
  | .call (.free pv) => (vPortFree w.heap pv build.header).map fun h => ⟨h, w.live.erase pv⟩
  | .mallocDbg xWantedSize => (pvPortMallocDbg build w.heap xWantedSize).map w.handOut

/-! ## What agreement is, and when it holds -/

/-- Two calls return the same block and leave the same free lists and free bytes. -/
structure Agrees (r r' : HeapState × ℕ) : Prop where
  block : r.2 = r'.2
  lists : ∀ dma nodes, FreeList r.1 dma nodes ↔ FreeList r'.1 dma nodes
  sizes : ∀ dma nodes, FreeList r.1 dma nodes → ∀ a ∈ nodes, r.1.sizeOf a = r'.1.sizeOf a
  bytes : r.1.xFreeBytesRemaining = r'.1.xFreeBytesRemaining

/-- **The debug allocator agrees** with `p_pvPortMalloc` on a request: both return and do the same,
or neither returns. -/
def DbgAgrees (h : HeapState) (n : ℕ) : Prop :=
  Option.Rel Agrees (pvPortMallocDbg build h n) (pvPortMalloc h n build.header build.room)

/-- Every block from the head of a list to its end marker is smaller than `w`. -/
def NoneFits (h : HeapState) (dma : Bool) (w : ℕ) : Prop :=
  ∃ nodes : List ℕ, nodes.length < listFuel ∧
    Segment h.nextOf (h.start dma).pxNextFreeBlock nodes (h.pxBlockEnd dma) ∧
    (∀ a ∈ nodes, h.sizeOf a < w ∧ h.nextOf a ≠ 0) ∧
    (w ≤ h.sizeOf (h.pxBlockEnd dma) ∨ h.nextOf (h.pxBlockEnd dma) = 0)

/-- **When the allocators agree**: when the DMA list is the main list, a request for which the main
head has no block has none from the DMA head either. -/
def DbgGuard (h : HeapState) (n : ℕ) : Prop :=
  h.pxEndDMA = h.pxEnd → Searched h n build.room →
    NoneFits h false (wantedSize n build.room) → NoneFits h true (wantedSize n build.room)

theorem Agrees.refl (r : HeapState × ℕ) : Agrees r r :=
  ⟨rfl, fun _ _ => Iff.rfl, fun _ _ _ _ _ => rfl, rfl⟩

variable {r r' : Option (HeapState × ℕ)} {h : HeapState} {dma : Bool}

theorem agree_of_eq (h : r = r') : Option.Rel Agrees r r' := by
  subst h
  cases r with
  | none => exact .none
  | some r => exact .some (Agrees.refl r)

/-! ## Searching an arbitrary memory -/

/-- Where the search loop stops, in any memory. -/
theorem searchList_some {w fuel p b : ℕ} {loc loc' : Loc}
    (hsearch : searchList h w fuel loc p = some (loc', b)) :
    ∃ l : List ℕ, l.length < fuel ∧ Segment h.nextOf p l b ∧
      (∀ a ∈ l, h.sizeOf a < w ∧ h.nextOf a ≠ 0) ∧ (w ≤ h.sizeOf b ∨ h.nextOf b = 0) ∧
      loc' = lastLoc loc l := by
  induction fuel generalizing loc p with
  | zero => simp [searchList] at hsearch
  | succ fuel ih =>
    rw [searchList] at hsearch
    split_ifs at hsearch with hgo
    · obtain ⟨l, hlen, hwalk, hsmall, hstop, rfl⟩ := ih hsearch
      refine ⟨p :: l, by simpa using hlen, ⟨rfl, hwalk⟩, fun a ha => ?_, hstop, rfl⟩
      rcases List.mem_cons.mp ha with rfl | ha
      · exact hgo
      · exact hsmall a ha
    cases hsearch
    refine ⟨[], Nat.succ_pos _, rfl, by simp, ?_, rfl⟩
    by_contra hnot
    push Not at hnot
    exact hgo hnot

theorem noneFits_iff {w : ℕ} :
    NoneFits h dma w ↔ ∃ loc, searchFrom h dma w = some (loc, h.pxBlockEnd dma) := by
  constructor
  · rintro ⟨nodes, hlen, hwalk, hsmall, hstop⟩
    exact ⟨_, searchList_eq hwalk hsmall hstop hlen⟩
  · rintro ⟨loc, hsearch⟩
    obtain ⟨l, hlen, hwalk, hsmall, hstop, -⟩ := searchList_some hsearch
    exact ⟨l, hlen, hwalk, hsmall, hstop⟩

theorem insertBlock_size {h' : HeapState} {b x : ℕ} (hx : b < x)
    (hins : insertBlockIntoFreeListWithDMA h b dma = some h') : h'.sizeOf x = h.sizeOf x := by
  unfold insertBlockIntoFreeListWithDMA at hins
  cases hfind : findIterator h b listFuel (.start dma) with
  | none => simp [hfind] at hins
  | some loc =>
    -- The block inserted, or the one it is joined with, is not above `b`.
    have hjoin : ∃ h₁ c, joinBefore h loc b = (h₁, c) ∧ c ≤ b ∧ h₁.sizeOf x = h.sizeOf x := by
      rcases findIterator_some hfind with rfl | ⟨a, ha, rfl⟩
      · exact ⟨h, b, rfl, le_rfl, rfl⟩
      simp only [joinBefore]
      split
      · refine ⟨_, _, rfl, ha.le, ?_⟩
        simp only [HeapState.sizeOf]
        rw [setSize_mem_of_ne _ _ (by omega)]
      · exact ⟨_, _, rfl, le_rfl, rfl⟩
    obtain ⟨h₁, c, hjoin, hc, hsize⟩ := hjoin
    have hlink : ∀ link, (h₁.setLink c link).sizeOf x = h.sizeOf x := fun link => by
      rw [HeapState.sizeOf, setLink_mem_of_ne _ _ (by omega)]
      exact hsize
    simp only [hfind, hjoin] at hins
    split at hins
    · cases hins
      rw [HeapState.sizeOf, setNext_size]
      exact hlink _
    · cases hins
      exact hlink _

theorem insertBlock_bytes {h' : HeapState} {b : ℕ}
    (hins : insertBlockIntoFreeListWithDMA h b dma = some h') :
    h'.xFreeBytesRemaining = h.xFreeBytesRemaining := by
  unfold insertBlockIntoFreeListWithDMA at hins
  cases hfind : findIterator h b listFuel (.start dma) with
  | none => simp [hfind] at hins
  | some loc =>
    have hjoin : (joinBefore h loc b).1.xFreeBytesRemaining = h.xFreeBytesRemaining := by
      unfold joinBefore
      split
      · rfl
      · split <;> rfl
    simp only [hfind] at hins
    split at hins
    · cases hins
      rw [setNext_xFreeBytesRemaining]
      exact hjoin
    · cases hins
      exact hjoin

/-! ## Taking a block shows -/

section Take

variable {build} {h h' : HeapState} {dma : Bool} {w x pv : ℕ} {prev : Loc}

theorem splitBlock_size (hs : h.sizeOf x < 2 ^ 32) (hw : build.header ≤ w)
    (hwlt : w < 2 ^ 31 + 2 ^ 30) (hx : x + build.header = 2 ^ 32)
    (hsplit : splitBlock h dma w x build.header = some h') : 0 < h'.sizeOf x ∧
      h'.sizeOf x < 2 ^ 32 ∧ h'.xFreeBytesRemaining = h.xFreeBytesRemaining := by
  obtain ⟨hle, hlt⟩ := build.header_bounds
  simp only [heapStructSize] at hle
  simp only [splitBlock] at hsplit
  split at hsplit
  · -- The rest of the block is below it: its address wraps around.
    have hlt : u32 (x + w) < x := by
      simp only [u32]
      omega
    have hsize := insertBlock_size hlt hsplit
    have hself : ((h.setSize (u32 (x + w)) (sub32 (h.mem x).xBlockSize w)).setSize x w).sizeOf x =
        w := setSize_size_self ..
    have hbytes := insertBlock_bytes hsplit
    rw [hsize, hself]
    exact ⟨by omega, by omega, hbytes⟩
  case isFalse hnot =>
    cases hsplit
    refine ⟨?_, hs, rfl⟩
    -- An empty block is larger than any request by the wrapped difference.
    by_contra hzero
    have hzero' : (h.mem x).xBlockSize = 0 := by
      simpa [HeapState.sizeOf] using hzero
    simp only [heapMinimumBlockSize, sub32] at hnot
    omega

theorem takeBlock_shows (hm : MachineState h) (hw : build.header ≤ w)
    (hwlt : w < 2 ^ 31 + 2 ^ 30) (hprev : h.next prev = x)
    (htake : takeBlock h dma w prev x build.header = some (h', pv)) :
    pv ≠ 0 ∨ h'.xFreeBytesRemaining ≠ h.xFreeBytesRemaining := by
  by_contra hnot
  push Not at hnot
  obtain ⟨hpv, hbytes⟩ := hnot
  simp only [takeBlock, hprev, map_eq_some_iff, Prod.mk.injEq] at htake
  obtain ⟨h₂, hsplit, rfl, rfl⟩ := htake
  -- Only a block in the last bytes of the address space has a pointer that reads as null.
  have hx := hm.next prev
  have htop : x + build.header = 2 ^ 32 := by
    obtain ⟨hle, hlt⟩ := build.header_bounds
    simp only [u32, heapStructSize] at hpv hle
    omega
  obtain ⟨hpos, hlt, hsame⟩ := splitBlock_size (by
    rw [HeapState.sizeOf, setNext_size]
    exact (hm.mem x).2) hw hwlt htop hsplit
  rw [setNext_xFreeBytesRemaining] at hsame
  simp only [markAllocated, hsame] at hbytes
  simp only [HeapState.sizeOf] at hpos hlt
  simp only [sub32] at hbytes
  omega

/-- **Nothing is taken exactly if nothing fits.** -/
theorem takeFound_null_iff (hm : MachineState h) (hw : build.header ≤ w)
    (hwlt : w < 2 ^ 31 + 2 ^ 30) :
    Option.Rel Agrees (takeFound h dma w (searchFrom h dma w) build.header) (some (h, 0)) ↔
      NoneFits h dma w := by
  rw [noneFits_iff]
  cases hsearch : searchFrom h dma w with
  | none =>
    refine iff_of_false (fun hrel => ?_) (by simp)
    cases hrel
  | some found =>
    obtain ⟨loc, b⟩ := found
    by_cases hb : b = h.pxBlockEnd dma
    · subst hb
      refine iff_of_true (agree_of_eq ?_) ⟨loc, rfl⟩
      simp [takeFound]
    refine iff_of_false (fun hrel => ?_) (by simp [hb])
    obtain ⟨l, -, hwalk, -, -, rfl⟩ := searchList_some hsearch
    simp only [takeFound, if_pos hb] at hrel
    cases htake : takeBlock h dma w (lastLoc (.start dma) l) b build.header with
    | none =>
      rw [htake] at hrel
      cases hrel
    | some r =>
      rw [htake] at hrel
      cases hrel with
      | some hagrees =>
        have hnext : h.next (lastLoc (.start dma) l) = b := next_lastLoc hwalk
        rcases takeBlock_shows hm hw hwlt hnext htake with hpv | hbytes
        · exact hpv hagrees.block
        · exact hbytes hagrees.bytes

end Take

/-! ## Both allocators at once -/

/-- What both allocators do for a request they look for, but for when they fall back to the DMA
list. -/
def takeEither (h : HeapState) (w : ℕ) (fallback : Prop) [Decidable fallback] :
    Option (HeapState × ℕ) :=
  match searchFrom h false w with
  | none => none
  | some (pxPreviousBlock, pxBlock) =>
    if pxBlock = h.pxEnd ∧ fallback then takeFound h true w (searchFrom h true w) build.header
    else takeFound h false w (some (pxPreviousBlock, pxBlock)) build.header

section Either

variable {build} {h : HeapState} {w n : ℕ} {fallback : Prop} [Decidable fallback]

theorem pvPortMalloc_eq (hdef : h.pxEnd ≠ 0) :
    pvPortMalloc h n build.header build.room = if Searched h n build.room then
      takeEither build h (wantedSize n build.room) (h.pxEndDMA ≠ h.pxEnd) else some (h, 0) := by
  rw [pvPortMalloc, if_neg hdef]
  rfl

theorem pvPortMallocDbg_eq (hdef : h.pxEnd ≠ 0) :
    pvPortMallocDbg build h n = if Searched h n build.room then
      takeEither build h (wantedSize n build.room) True else some (h, 0) := by
  rw [pvPortMallocDbg, if_neg hdef]
  simp only [takeEither, and_true]

theorem takeEither_of_noneFits (hnone : NoneFits h false w) :
    takeEither build h w fallback = if fallback then
      takeFound h true w (searchFrom h true w) build.header else some (h, 0) := by
  obtain ⟨loc, hsearch⟩ := noneFits_iff.mp hnone
  have hend : h.pxBlockEnd false = h.pxEnd := rfl
  simp only [takeEither, hsearch, hend, true_and]
  split
  · rfl
  · simp [takeFound, hend]

theorem takeEither_of_fits (hfits : ¬NoneFits h false w) :
    takeEither build h w fallback = takeFound h false w (searchFrom h false w) build.header := by
  cases hsearch : searchFrom h false w with
  | none => simp [takeEither, hsearch, takeFound]
  | some found =>
    obtain ⟨loc, b⟩ := found
    have hb : b ≠ h.pxEnd := by
      rintro rfl
      exact hfits (noneFits_iff.mpr ⟨loc, hsearch⟩)
    simp only [takeEither, hsearch, hb, false_and, if_false]

/-- **One fallback more** shows exactly if it finds a block. -/
theorem takeEither_agree_iff (hm : MachineState h) (hw : build.header ≤ w)
    (hwlt : w < 2 ^ 31 + 2 ^ 30) :
    Option.Rel Agrees (takeEither build h w True) (takeEither build h w fallback) ↔
      (¬fallback → NoneFits h false w → NoneFits h true w) := by
  by_cases hnone : NoneFits h false w
  · rw [takeEither_of_noneFits hnone, takeEither_of_noneFits hnone, if_pos trivial]
    split_ifs with hfall
    · exact iff_of_true (agree_of_eq rfl) fun h => absurd hfall h
    · rw [takeFound_null_iff hm hw hwlt]
      exact ⟨fun h _ _ => h, fun h => h hfall hnone⟩
  · rw [takeEither_of_fits hnone, takeEither_of_fits hnone]
    exact iff_of_true (agree_of_eq rfl) fun _ h => absurd h hnone

theorem wantedSize_bounds (hn : Searched h n build.room) :
    build.header ≤ wantedSize n build.room ∧ wantedSize n build.room < 2 ^ 31 + 2 ^ 30 := by
  obtain ⟨hlt, hpos, -⟩ := hn
  have hn : 0 < n := by
    by_contra hzero
    obtain rfl : n = 0 := by omega
    exact absurd hpos (by simp [wantedSize])
  have hhdr := build.header_bounds.2
  have hu : u32 (n + build.room) = n + build.room := u32_of_lt (by
    simp only [blockAllocatedBit, DebugBuild.room] at *
    omega)
  simp only [wantedSize, if_pos hn, hu]
  split
  · rw [u32_of_lt (by simp only [blockAllocatedBit, byteAlignment, DebugBuild.room] at *; omega)]
    simp only [blockAllocatedBit, byteAlignment, DebugBuild.room] at *
    omega
  · simp only [blockAllocatedBit, DebugBuild.room] at *
    omega

end Either

/-- **The two allocators of a debug build.** In every state and for every size, `pvPortMallocDbg`
returns the same block and leaves the same free lists and bytes as `p_pvPortMalloc` if and only if
the guard holds. -/
theorem dbg_agrees_iff (h : HeapState) (hm : MachineState h) (n : ℕ) :
    DbgAgrees build h n ↔ DbgGuard build h n := by
  unfold DbgAgrees DbgGuard
  rw [pvPortMalloc_eq hm.defined, pvPortMallocDbg_eq hm.defined]
  by_cases hs : Searched h n build.room
  · obtain ⟨hge, hlt⟩ := wantedSize_bounds hs
    rw [if_pos hs, if_pos hs, takeEither_agree_iff hm hge hlt, not_not]
    exact ⟨fun h heq _ => h heq, fun h heq => h heq hs⟩
  · rw [if_neg hs, if_neg hs]
    exact iff_of_true (agree_of_eq rfl) fun _ h => absurd h hs

/-! ## The states of a run -/

section Runs

variable {build} {v v' : World} {call : DebugCall}

theorem machineState_takeEither {h : HeapState} {w : ℕ} {fallback : Prop} [Decidable fallback]
    {r : HeapState × ℕ} (hm : MachineState h) (hw : w < 2 ^ 32)
    (htake : takeEither build h w fallback = some r) : MachineState r.1 := by
  unfold takeEither at htake
  split at htake
  · cases htake
  · split at htake
    · exact hm.takeFound hw htake
    · exact hm.takeFound hw htake

/-- **One call** keeps the words of the machine. -/
theorem machineState_step (hm : MachineState v.heap) (hstep : debugStep build v call = some v') :
    MachineState v'.heap := by
  rcases call with (n | n | pv) | n
  · rw [debugStep, pvPortMalloc_eq hm.defined, map_eq_some_iff] at hstep
    obtain ⟨r, hr, rfl⟩ := hstep
    split at hr
    case isTrue hn => exact machineState_takeEither hm hn.wantedSize_lt hr
    case isFalse =>
      cases hr
      exact hm
  · simp only [debugStep, pvPortMallocDMA, if_neg hm.defined, map_eq_some_iff] at hstep
    obtain ⟨r, hr, rfl⟩ := hstep
    split at hr
    case isTrue hn => exact hm.takeFound hn.wantedSize_lt hr
    case isFalse =>
      cases hr
      exact hm
  · rw [debugStep, map_eq_some_iff] at hstep
    obtain ⟨h', hfree, rfl⟩ := hstep
    exact hm.free hfree
  · rw [debugStep, pvPortMallocDbg_eq hm.defined, map_eq_some_iff] at hstep
    obtain ⟨r, hr, rfl⟩ := hstep
    split at hr
    case isTrue hn => exact machineState_takeEither hm hn.wantedSize_lt hr
    case isFalse =>
      cases hr
      exact hm

/-- **Every state a debug build reaches** is a state of the machine, whatever the regions and the
frees. -/
theorem machineState_run {mem : ℕ → BlockLink} {main dma : List HeapRegion} {h : HeapState}
    (hmem : ∀ a, (mem a).Words) (hdef : defineHeaps mem main dma build.header = some h)
    {calls : List DebugCall} (hrun : runSteps (debugStep build) ⟨h, []⟩ calls = some v) :
    MachineState v.heap :=
  inv_of_run (fun v : World => MachineState v.heap)
    (fun _ _ _ hm _ hstep => machineState_step hm hstep) (machineState_define hmem hdef)
    (stepsMeet_true (debugStep build) _ calls) (List.prefix_refl calls) hrun

end Runs

/-! ## The default build -/

/-- The default build; its headers have 48 bytes. -/
def defaultBuild : DebugBuild := ⟨16, by decide, by decide⟩

def debugHeads : HeapState :=
  (defineHeaps (fun _ => ⟨0, 0⟩) twoRegions twoRegions defaultBuild.header).get (by decide +kernel)

/-- On an untouched list with two heads the allocators agree on every request: on one they serve,
and on one for which both heads have no block. -/
theorem dbg_agrees_debugHeads : MachineState debugHeads ∧ debugHeads.pxEndDMA = debugHeads.pxEnd ∧
    (pvPortMallocDbg defaultBuild debugHeads 16).map Prod.snd = some 0x1030 ∧
    Searched debugHeads 4096 defaultBuild.room ∧
    (pvPortMallocDbg defaultBuild debugHeads 4096).map Prod.snd = some 0 ∧
    ∀ n, DbgAgrees defaultBuild debugHeads n := by
  have hdef : defineHeaps (fun _ => ⟨0, 0⟩) twoRegions twoRegions defaultBuild.header =
      some debugHeads := (some_get _).symm
  have hm : MachineState debugHeads := machineState_define (fun _ => ⟨by decide, by decide⟩) hdef
  have hheads : debugHeads.start true = debugHeads.start false ∧
      debugHeads.pxBlockEnd true = debugHeads.pxBlockEnd false := by decide +kernel
  refine ⟨hm, by decide +kernel, by decide +kernel, by decide +kernel, by decide +kernel,
    fun n => (dbg_agrees_iff defaultBuild debugHeads hm n).mpr fun _ _ hnone => ?_⟩
  unfold NoneFits at hnone ⊢
  rw [hheads.1, hheads.2]
  exact hnone

/-! ## The missing test -/

def lowMemory (a : ℕ) : BlockLink := if a = 0 then ⟨0xFFFFFFF0, 0⟩ else ⟨0, 0⟩

def lowHeads : HeapState :=
  (defineHeaps lowMemory twoRegions twoRegions defaultBuild.header).get (by decide +kernel)

/-- `p_pvPortMalloc` has taken the first block; the DMA head still links to it. -/
def lowWorld : World :=
  (runSteps (debugStep defaultBuild) ⟨lowHeads, []⟩ [.call (.malloc 16)]).get (by decide +kernel)

/-- **A live block handed out.** The main list has no room for the request and `p_pvPortMalloc`
returns null. The debug allocator goes on from the DMA head, which links to a block handed out; its
size has the top bit set, so its pointer is returned a second time. -/
theorem dbg_hands_out_live_block :
    defineHeaps lowMemory twoRegions twoRegions defaultBuild.header = some lowHeads ∧
      runSteps (debugStep defaultBuild) ⟨lowHeads, []⟩ [.call (.malloc 16)] = some lowWorld ∧
      lowWorld.live = [0x1030] ∧
      (pvPortMallocDbg defaultBuild lowWorld.heap 4096).map Prod.snd = some 0x1030 ∧
      (pvPortMalloc lowWorld.heap 4096 defaultBuild.header defaultBuild.room).map Prod.snd =
        some 0 ∧
      ¬DbgAgrees defaultBuild lowWorld.heap 4096 := by
  have hdbg : (pvPortMallocDbg defaultBuild lowWorld.heap 4096).map Prod.snd = some 0x1030 := by
    decide +kernel
  have hrel : (pvPortMalloc lowWorld.heap 4096 defaultBuild.header defaultBuild.room).map
      Prod.snd = some 0 := by
    decide +kernel
  refine ⟨(some_get _).symm, (some_get _).symm, by decide +kernel, hdbg, hrel, fun hagrees => ?_⟩
  obtain ⟨r, hr, hblock⟩ := map_eq_some_iff.mp hdbg
  obtain ⟨r', hr', hnull⟩ := map_eq_some_iff.mp hrel
  rw [DbgAgrees, hr, hr'] at hagrees
  cases hagrees with
  | some h =>
    have heq := hblock.symm.trans (h.block.trans hnull)
    exact absurd heq (by decide)

end WiseSdk.Heap
