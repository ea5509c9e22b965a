import WiseSdk.Heap.Calls
import WiseSdk.Heap.Pieces
import WiseSdk.Heap.Regions
import WiseSdk.Library.Runs

/-!
# One list with two heads

When the first DMA region starts where the main list does, `vPortDefineHeapRegionsDMA` copies the
head `_xStart` into `xStartDMA`: both heads link to the same first block, and the blocks behind it
are shared. From then on an allocator updates its own head only, so a call that changes the first
block leaves the other head behind.

`shared_heap_sound_iff` says that this is the only way the sharing fails: in a run of allocations
and of frees of pointers the callers hold, every state reached is sound (`SharedSound`) exactly if
every call keeps the first block (`KeepsFirst`). `shared_heap_overlaps` is the shortest run that
hands out a block twice.
-/

namespace WiseSdk.Heap

open Library List Option

/-! ## What sharing a list asks for -/

/-- Both heads reach the same nodes, and these, the blocks handed out and the markers cut the
regions without overlap or rest. -/
structure SharedWith (regions : List Extent) (w : World) (nodes : List ℕ) : Prop where
  mainList : FreeList w.heap false nodes
  dmaList : FreeList w.heap true nodes
  apart : (pieces w.heap nodes w.live regions).Pairwise Extent.Apart
  tile : ∀ x, InRegions (pieces w.heap nodes w.live regions) x ↔ InRegions regions x

def SharedSound (regions : List Extent) (w : World) : Prop := ∃ nodes, SharedWith regions w nodes

/-- The call keeps the first block: an allocation does not fit into it, and a block freed lies above
it. -/
def KeepsFirst (w : World) : HeapCall → Prop
  | .malloc n => Searched w.heap n →
      w.heap.sizeOf w.heap.xStart.pxNextFreeBlock < wantedSize n
  | .mallocDMA n => Searched w.heap n →
      w.heap.sizeOf w.heap.xStartDMA.pxNextFreeBlock < wantedSize n
  | .free pv => w.heap.xStart.pxNextFreeBlock < headerOf pv

instance (w : World) : (call : HeapCall) → Decidable (KeepsFirst w call)
  | .malloc _ => inferInstanceAs (Decidable (_ → _))
  | .mallocDMA _ => inferInstanceAs (Decidable (_ → _))
  | .free _ => inferInstanceAs (Decidable (_ < _))

/-! ## The invariant -/

def AnyMark (next : ℕ) : Prop := next = 0 ∨ next = dmaBufferMark

theorem anyMark_of_head (dma : Bool) : AnyMark (if dma then dmaBufferMark else 0) := by
  cases dma with
  | false => exact .inl rfl
  | true => exact .inr rfl

/-- The invariant of a list with two heads. -/
structure Shared (regions : List Extent) (w : World) (cells : List Cell) : Prop where
  part : ∀ dma, Part w.heap dma AnyMark regions cells
  ends : w.heap.pxEndDMA = w.heap.pxEnd
  bytes : w.heap.xFreeBytesRemaining = freeBytes cells
  live : w.live.Perm ((liveCells cells).map fun c => c.addr + heapStructSize)

section Invariant

variable {regions : List Extent} {w : World} {cells : List Cell} {h h' : HeapState}
  {dma dma' : Bool} {mark T : ℕ → Prop}

theorem pxBlockEnd_eq (hends : h.pxEndDMA = h.pxEnd) (dma dma' : Bool) :
    h.pxBlockEnd dma = h.pxBlockEnd dma' := by
  cases dma <;> cases dma' <;> simp [HeapState.pxBlockEnd, hends]

theorem Frame.ends_eq (hframe : Frame h h' dma T) (hends : h.pxEndDMA = h.pxEnd) :
    h'.pxEndDMA = h'.pxEnd := by
  rw [hframe.pxEnd, hframe.pxEndDMA, hends]

theorem Part.transfer (hpart : Part h dma mark regions cells)
    (hstart : (h.start dma').pxNextFreeBlock = (h.start dma).pxNextFreeBlock)
    (hend : h.pxBlockEnd dma' = h.pxBlockEnd dma) : Part h dma' mark regions cells := by
  refine ⟨⟨?_, hpart.coalesced, ⟨?_, hpart.list.sizes, ?_⟩⟩, hpart.live⟩
  · rw [hend]
    exact hpart.laid
  · rw [hstart, hend]
    exact hpart.list.walk
  · rw [hend]
    exact hpart.list.endMarker

/-- A head does not link to a block handed out. -/
theorem Part.start_ne_live {x s : ℕ} (hpart : Part h dma mark regions cells)
    (hx : ⟨.live, x, s⟩ ∈ liveCells cells) : (h.start dma).pxNextFreeBlock ≠ x := by
  obtain ⟨r, rs, -, hl⟩ := hpart.laid.laid
  have hcell := (mem_liveCells.mp hx).1
  rw [hpart.list.start_eq]
  cases hentries : entries cells with
  | nil =>
    rintro rfl
    have hbound := (hl.bounds.2 _ hcell).2
    have hsize : 16 ≤ s := hl.header_le _ hcell
    simp only [head?_nil, getD_none] at hbound
    omega
  | cons a l =>
    rintro rfl
    have ha : a ∈ entries cells := by simp [hentries]
    obtain ⟨c, hc, hlinked, haddr⟩ := mem_entries.mp ha
    obtain rfl := hl.eq_of_addr (by decide) hc hcell haddr
    simp [Cell.linked] at hlinked

theorem Shared.heads_eq (hinv : Shared regions w cells) (dma dma' : Bool) :
    (w.heap.start dma).pxNextFreeBlock = (w.heap.start dma').pxNextFreeBlock := by
  rw [(hinv.part dma).list.start_eq, (hinv.part dma').list.start_eq,
    pxBlockEnd_eq hinv.ends dma dma']

variable {cells' : List Cell}

theorem Shared.parts (hinv : Shared regions w cells) (hpart : Part h' dma AnyMark regions cells')
    (hframe : Frame w.heap h' dma T)
    (hhead : (h'.start dma).pxNextFreeBlock = (w.heap.start dma).pxNextFreeBlock) (dma' : Bool) :
    Part h' dma' AnyMark regions cells' := by
  by_cases hdma : dma' = dma
  · exact hdma ▸ hpart
  obtain rfl : dma' = !dma := Bool.eq_not.mpr hdma
  refine hpart.transfer ?_ (pxBlockEnd_eq (hframe.ends_eq hinv.ends) _ _)
  rw [hframe.otherHead, hhead]
  exact hinv.heads_eq _ _

/-- **Handing out a block** that is not the first keeps the invariant. -/
theorem Shared.taken (hfit : RegionsFit regions) (hinv : Shared regions w cells) {x s : ℕ}
    (htaken : Taken w.heap h' dma AnyMark regions cells cells' x s)
    (hkeep : (w.heap.start dma).pxNextFreeBlock ≠ x) :
    Shared regions ⟨h', (x + heapStructSize) :: w.live⟩ cells' := by
  have hlt := last_lt_of_fit hfit (hinv.part dma).laid
  have hle := (hinv.part dma).laid.freeBytes_le
  have hfree := htaken.free
  refine ⟨hinv.parts htaken.part htaken.frame (htaken.head hkeep),
    htaken.frame.ends_eq hinv.ends, ?_, ?_⟩
  · simp only [htaken.bytes, hinv.bytes]
    rw [sub32_of_le (by omega) (by omega)]
    omega
  · have hperm := htaken.live.map fun c => c.addr + heapStructSize
    exact (hinv.live.cons _).trans hperm.symm

/-- **Freeing a block** above the first keeps the invariant. -/
theorem Shared.freed (hfit : RegionsFit regions) (hinv : Shared regions w cells) {x s : ℕ}
    (hfreed : Freed w.heap h' dma AnyMark regions cells cells' x s)
    (hkeep : (w.heap.start dma).pxNextFreeBlock < x) :
    Shared regions ⟨h', w.live.erase (x + heapStructSize)⟩ cells' := by
  have hlt := last_lt_of_fit hfit hfreed.part.laid
  have hle := hfreed.part.laid.freeBytes_le
  have hfree := hfreed.free
  refine ⟨hinv.parts hfreed.part hfreed.frame (hfreed.head hkeep),
    hfreed.frame.ends_eq hinv.ends, ?_, ?_⟩
  · simp only [hfreed.bytes, hinv.bytes]
    rw [u32_of_lt (by omega)]
    omega
  · have hlive := (hinv.live.trans (hfreed.live.map _)).erase (x + heapStructSize)
    rwa [map_cons, erase_cons_head] at hlive

/-- **The invariant makes the heap sound.** -/
theorem Shared.sound (hinv : Shared regions w cells) : SharedSound regions w := by
  have hperm := (hinv.part false).pieces_perm hinv.live
  refine ⟨entries cells, (hinv.part false).freeList, (hinv.part true).freeList, ?_, fun x => ?_⟩
  · rw [hperm.pairwise_iff fun h => h.symm]
    exact (hinv.part false).laid.extents_apart
  · rw [inRegions_perm hperm, (hinv.part false).laid.extents_cover x]

theorem SharedSound.heads_eq (hsound : SharedSound regions w)
    (hends : w.heap.pxEndDMA = w.heap.pxEnd) (dma : Bool) :
    (w.heap.start (!dma)).pxNextFreeBlock = (w.heap.start dma).pxNextFreeBlock := by
  obtain ⟨nodes, hsound⟩ := hsound
  have hlist : ∀ dma, FreeList w.heap dma nodes := by
    intro dma
    cases dma with
    | false => exact hsound.mainList
    | true => exact hsound.dmaList
  have hwalk := (hlist dma).walk
  have hwalk' := (hlist (!dma)).walk
  cases nodes with
  | nil => exact hwalk'.trans ((pxBlockEnd_eq hends _ _).trans hwalk.symm)
  | cons a l => exact hwalk'.1.trans hwalk.1.symm

/-! ## The calls -/

/-- A call leads to a sound state with the invariant if the first block is kept, and else to an
unsound one. -/
structure Outcome (regions : List Extent) (w' : World) (keeps : Prop) : Prop where
  kept : keeps → ∃ cells', Shared regions w' cells'
  changed : ¬keeps → ¬SharedSound regions w'

section

variable (hfit : RegionsFit regions) (hinv : Shared regions w cells)

include hfit hinv

/-- **Allocating through one head.** -/
theorem Shared.takeFound (dma : Bool) {n : ℕ} (hn : heapStructSize ≤ n) :
    ∃ r, takeFound w.heap dma n (searchFrom w.heap dma n) = some r ∧ Outcome regions (w.handOut r)
        (w.heap.sizeOf (w.heap.start dma).pxNextFreeBlock < n) := by
  rcases takeFound_cases hfit (hinv.part dma) (anyMark_of_head dma) hn with
    ⟨loc, -, htake, hsmall⟩ | ⟨loc, x, h', cells', s, -, -, htake, htaken, hfirst⟩
  · exact ⟨_, htake, fun _ => ⟨cells, hinv⟩, fun hnot => absurd hsmall hnot⟩
  · refine ⟨_, htake, fun hkeep => ⟨cells', ?_⟩, fun hnot hsound => ?_⟩
    · rw [World.handOut, if_neg (by simp [heapStructSize])]
      exact hinv.taken hfit htaken fun heq => absurd (hfirst.mp heq) (Nat.not_le.mpr hkeep)
    · -- The block handed out was first, and the other head still links to it.
      have heq := hfirst.mpr (Nat.not_lt.mp hnot)
      have hheads := hsound.heads_eq (htaken.frame.ends_eq hinv.ends) dma
      simp only [World.handOut] at hheads
      rw [htaken.frame.otherHead, hinv.heads_eq (!dma) dma, heq] at hheads
      exact htaken.part.start_ne_live (htaken.live.mem_iff.mpr (mem_cons_self ..))
        hheads.symm

/-- **One call** of a run that frees only what the callers hold. -/
theorem heapStep_shared {call : HeapCall} (hcall : FreesLive w call) :
    ∃ w', heapStep w call = some w' ∧ Outcome regions w' (KeepsFirst w call) := by
  have hend : w.heap.pxEnd ≠ 0 := last_ne_zero_of_fit hfit (hinv.part false).laid
  cases call with
  | malloc n =>
    simp only [heapStep, pvPortMalloc, if_neg hend]
    by_cases hn : Searched w.heap n
    · obtain ⟨r, htake, hkept, hchanged⟩ :=
        hinv.takeFound hfit false (wantedSize_ge hn.1 hn.2.1)
      rw [if_pos hn]
      cases hsearch : searchFrom w.heap false (wantedSize n) with
      | none =>
        rw [hsearch] at htake
        cases htake
      | some found =>
        rw [hsearch] at htake
        have hone : ¬(found.2 = w.heap.pxEnd ∧ w.heap.pxEndDMA ≠ w.heap.pxEnd) :=
          fun h => h.2 hinv.ends
        simp only [if_neg hone, htake, map_some]
        exact ⟨_, rfl, fun hkeep => hkept (hkeep hn), fun hnot =>
          hchanged fun hlt => hnot fun _ => hlt⟩
    · rw [if_neg hn]
      exact ⟨_, rfl, fun _ => ⟨cells, hinv⟩, fun hnot => absurd (fun h => absurd h hn) hnot⟩
  | mallocDMA n =>
    simp only [heapStep, pvPortMallocDMA, if_neg hend]
    split_ifs with hn
    · obtain ⟨r, htake, hkept, hchanged⟩ :=
        hinv.takeFound hfit true (wantedSize_ge hn.1 hn.2.1)
      rw [htake]
      exact ⟨_, rfl, fun hkeep => hkept (hkeep hn), fun hnot =>
        hchanged fun hlt => hnot fun _ => hlt⟩
    · exact ⟨_, rfl, fun _ => ⟨cells, hinv⟩, fun hnot => absurd (fun h => absurd h hn) hnot⟩
  | free pv =>
    obtain ⟨c, hc, rfl⟩ := List.mem_map.mp (hinv.live.mem_iff.mp hcall)
    obtain ⟨k, x, t⟩ := c
    obtain rfl : k = .live := (mem_liveCells.mp hc).2
    -- The mark names a head; both lead to the same list.
    obtain ⟨dma, hmark⟩ : ∃ dma : Bool,
        (w.heap.mem x).pxNextFreeBlock = if dma then dmaBufferMark else 0 := by
      rcases ((hinv.part false).live _ hc).2 with hnull | hdma
      · exact ⟨false, hnull⟩
      · exact ⟨true, hdma⟩
    obtain ⟨h', cells', hfree, hfreed⟩ := vPortFree_freed hfit (hinv.part dma) hc hmark
    have hheader : headerOf (x + heapStructSize) = x := Nat.add_sub_cancel ..
    have hstart : (w.heap.start dma).pxNextFreeBlock = w.heap.xStart.pxNextFreeBlock :=
      hinv.heads_eq dma false
    refine ⟨⟨h', w.live.erase (x + heapStructSize)⟩, ?_, fun hkeep => ⟨cells', ?_⟩,
      fun hnot hsound => ?_⟩
    · simp only [heapStep, hfree, map_some]
    · refine hinv.freed hfit hfreed ?_
      simpa only [KeepsFirst, hheader, hstart] using hkeep
    · -- The freed block is first now, and the other head links to the old first block.
      simp only [KeepsFirst, hheader, Nat.not_lt] at hnot
      have hheads := hsound.heads_eq (hfreed.frame.ends_eq hinv.ends) dma
      rw [hfreed.frame.otherHead, hfreed.newHead (hstart ▸ hnot)] at hheads
      exact (hinv.part (!dma)).start_ne_live hc hheads

/-- **Whole runs** from a state with the invariant. -/
theorem shared_run_iff {calls : List HeapCall} (hlive : StepsMeet heapStep FreesLive w calls) :
    (∀ pre, pre <+: calls → ∃ w', runSteps heapStep w pre = some w' ∧ SharedSound regions w') ↔
      StepsMeet heapStep KeepsFirst w calls := by
  refine sound_run_iff (fun w => ∃ cells, Shared regions w cells) (fun w ⟨_, hinv⟩ => hinv.sound)
    (fun w call ⟨_, hinv⟩ hfree hkeep => ?_) (fun w call w' ⟨_, hinv⟩ hfree hstep hsound => ?_)
    ⟨cells, hinv⟩ hlive
  · obtain ⟨w₁, hstep, houtcome⟩ := heapStep_shared hfit hinv hfree
    exact ⟨w₁, hstep, houtcome.kept hkeep⟩
  · -- Were the first block changed, the next state would not be sound.
    by_contra hnot
    obtain ⟨w₁, hstep₁, houtcome⟩ := heapStep_shared hfit hinv hfree
    cases hstep.symm.trans hstep₁
    exact houtcome.changed hnot hsound

end

end Invariant

/-! ## Runs -/

section

variable {main dma : List HeapRegion} {mem : ℕ → BlockLink}
  (hmain : ∀ r ∈ main, r.Usable)
  (hsame : ∀ h₀, vPortDefineHeapRegions (reset mem) main = some h₀ →
    xPortHeapRegionsIsSame h₀ dma)

include hmain hsame

theorem defineHeaps_shared {h : HeapState} (hdef : defineHeaps mem main dma = some h) :
    ∃ cells, Shared (main.map HeapRegion.aligned) ⟨h, []⟩ cells := by
  obtain ⟨h₀, hdef₀, hdef⟩ := bind_eq_some_iff.mp hdef
  obtain ⟨cells, hpart, hlive, hbytes⟩ := define_part hmain hdef₀
  rw [vPortDefineHeapRegionsDMA, if_pos (hsame h₀ hdef₀)] at hdef
  split_ifs at hdef
  cases hdef
  have hmainPart : Part { h₀ with xStartDMA := h₀.xStart, pxEndDMA := h₀.pxEnd } false
      AnyMark (main.map HeapRegion.aligned) cells :=
    hpart.congr rfl rfl fun _ _ => rfl
  refine ⟨cells, fun dma => ?_, rfl, hbytes, by simp [hlive]⟩
  cases dma with
  | false => exact hmainPart
  | true => exact hmainPart.transfer rfl rfl

/-- **Every run that keeps the first block** returns from every call and keeps the
invariant. -/
theorem shared_run {h : HeapState} (hdef : defineHeaps mem main dma = some h)
    {calls : List HeapCall}
    (hcalls : StepsMeet heapStep FreesLive ⟨h, []⟩ calls)
    (hkeeps : StepsMeet heapStep KeepsFirst ⟨h, []⟩ calls) :
    ∃ w, runSteps heapStep ⟨h, []⟩ calls = some w ∧
      ∃ cells, Shared (main.map HeapRegion.aligned) w cells :=
  exists_run_of_stepsMeet (fun _ w => ∃ cells, Shared (main.map HeapRegion.aligned) w cells)
    (fun _ w call ⟨cells, hinv⟩ hcall => by
      obtain ⟨w', hstep, houtcome⟩ :=
        heapStep_shared (regionsFit_aligned hmain) hinv hcall.1
      exact ⟨w', hstep, houtcome.kept hcall.2⟩)
    (defineHeaps_shared hmain hsame hdef) (hcalls.and hkeeps)

end

/-- **A list with two heads is shared exactly as long as its first block stays.** The DMA list is
the main list, over usable regions. In a run of allocations and legal frees, every call returns and
every state reached is sound if and only if no call changes which block is first. -/
theorem shared_heap_sound_iff (mem : ℕ → BlockLink) (main dma : List HeapRegion) (h : HeapState)
    (hmain : ∀ r ∈ main, r.Usable)
    (hsame : ∀ h₀, vPortDefineHeapRegions (reset mem) main = some h₀ →
      xPortHeapRegionsIsSame h₀ dma)
    (hdef : defineHeaps mem main dma = some h) (calls : List HeapCall)
    (hcalls : StepsMeet heapStep FreesLive ⟨h, []⟩ calls) :
    (∀ pre, pre <+: calls → ∃ w, runSteps heapStep ⟨h, []⟩ pre = some w ∧
      SharedSound (main.map HeapRegion.aligned) w) ↔
      StepsMeet heapStep KeepsFirst ⟨h, []⟩ calls := by
  obtain ⟨cells, hinv⟩ := defineHeaps_shared hmain hsame hdef
  exact shared_run_iff (regionsFit_aligned hmain) hinv hcalls

/-- A small region in front of a large one, so that a large request passes the first block. -/
def twoRegions : List HeapRegion := [.ofNat 0x1000 0x100 (.refl true),
  .ofNat 0x2000 0x1000 (.refl true)]

def twoHeads : HeapState :=
  (defineHeaps (fun _ => ⟨0, 0⟩) twoRegions twoRegions).get (by decide +kernel)

def passingCalls : List HeapCall := [.malloc 500, .mallocDMA 500, .free 0x2010, .mallocDMA 400]

theorem twoHeads_same : ∀ h₀, vPortDefineHeapRegions (reset fun _ => ⟨0, 0⟩) twoRegions =
    some h₀ → xPortHeapRegionsIsSame h₀ twoRegions := by
  intro h₀ hdef
  have hall : (vPortDefineHeapRegions (reset fun _ => ⟨0, 0⟩) twoRegions).all
      (fun h₀ => decide (xPortHeapRegionsIsSame h₀ twoRegions)) := by decide +kernel
  rw [hdef] at hall
  simpa using hall

/-- A run over both heads in which every state is sound. -/
theorem shared_heap_sound_passingCalls :
    StepsMeet heapStep KeepsFirst ⟨twoHeads, []⟩ passingCalls ∧ ∀ pre, pre <+: passingCalls →
        ∃ w, runSteps heapStep ⟨twoHeads, []⟩ pre = some w ∧
          SharedSound (twoRegions.map HeapRegion.aligned) w := by
  have hkeeps : StepsMeet heapStep KeepsFirst ⟨twoHeads, []⟩ passingCalls := by decide +kernel
  refine ⟨hkeeps, ?_⟩
  exact (shared_heap_sound_iff (fun _ => ⟨0, 0⟩) twoRegions twoRegions twoHeads (by decide)
    twoHeads_same (some_get _).symm passingCalls (by decide +kernel)).mpr hkeeps

/-- **A block handed out twice.** `pvPortMallocDMA` takes the first block; the main head still links
to it, the top bit makes it look large enough, and `p_pvPortMalloc` returns the same pointer. -/
theorem shared_heap_overlaps :
    StepsMeet heapStep FreesLive ⟨twoHeads, []⟩ [.mallocDMA 16, .malloc 16] ∧
      (runSteps heapStep ⟨twoHeads, []⟩ [.mallocDMA 16, .malloc 16]).map World.live =
        some [0x1010, 0x1010] := by
  exact ⟨by decide +kernel, by decide +kernel⟩

end WiseSdk.Heap
