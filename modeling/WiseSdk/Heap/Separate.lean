import WiseSdk.Heap.Calls
import WiseSdk.Heap.Pieces
import WiseSdk.Heap.Regions
import WiseSdk.Library.Runs

/-!
# The heap with separate DMA regions

`separate_heap_sound`: while the regions of the two lists are usable and apart, every run of
allocations and frees of pointers the callers hold keeps the heap sound (`HeapSound`): both free
lists ascend to their end markers, the free blocks, the blocks handed out and the markers cut the
aligned regions exactly, free neighbours are coalesced, the mark of a block handed out tells its
list, and `xFreeBytesRemaining` is the sum of the sizes in both lists.

The regions are not checked by the code; `unusable_regions_break` runs a heap of each kind that is
ruled out.
-/

namespace WiseSdk.Heap

open Library List Option Function

/-! ## What a sound heap is -/

/-- A heap with its main regions, its DMA regions and the nodes of its two free lists. -/
structure SoundWith (main dma : List Extent) (w : World) (mainNodes dmaNodes : List ℕ) :
    Prop where
  mainList : FreeList w.heap false mainNodes
  dmaList : FreeList w.heap true dmaNodes
  apart : (pieces w.heap (mainNodes ++ dmaNodes) w.live (main ++ dma)).Pairwise Extent.Apart
  tile : ∀ x, InRegions (pieces w.heap (mainNodes ++ dmaNodes) w.live (main ++ dma)) x ↔
    InRegions (main ++ dma) x
  coalesced : ∀ a ∈ mainNodes ++ dmaNodes, ∀ b ∈ mainNodes ++ dmaNodes,
    w.heap.sizeOf a ≠ 0 → w.heap.sizeOf b ≠ 0 → a + w.heap.sizeOf a ≠ b
  allocated : ∀ pv ∈ w.live, heapStructSize ≤ pv ∧
    blockAllocatedBit ≤ w.heap.sizeOf (headerOf pv)
  marks : ∀ pv ∈ w.live,
    (w.heap.mem (headerOf pv)).pxNextFreeBlock = dmaBufferMark ↔ InRegions dma (headerOf pv)
  bytes : w.heap.xFreeBytesRemaining =
    (mainNodes.map w.heap.sizeOf).sum + (dmaNodes.map w.heap.sizeOf).sum

def HeapSound (main dma : List Extent) (w : World) : Prop :=
  ∃ mainNodes dmaNodes, SoundWith main dma w mainNodes dmaNodes

/-- The free blocks of each list are its regions, up to their closing markers. -/
def Whole (regions : Bool → List Extent) (h : HeapState) : Prop :=
  ∀ dma, ∃ nodes, FreeList h dma nodes ∧
    (nodes.filter fun a => h.sizeOf a ≠ 0).map (fun a => (⟨a, a + h.sizeOf a⟩ : Extent)) =
      (regions dma).map fun r => ⟨r.lo, r.hi - heapStructSize⟩

/-! ## The invariant -/

def markOf (dma : Bool) : ℕ := if dma then dmaBufferMark else 0

/-- The invariant of the two lists, told apart by `xDMABuffer`. -/
structure Separate (regions : Bool → List Extent) (w : World) (cells : Bool → List Cell) :
    Prop where
  part : ∀ dma, Part w.heap dma (· = markOf dma) (regions dma) (cells dma)
  bytes : w.heap.xFreeBytesRemaining = freeBytes (cells false) + freeBytes (cells true)
  live : w.live.Perm
    ((liveCells (cells false) ++ liveCells (cells true)).map fun c => c.addr + heapStructSize)

/-- What the run lemmas assume of the regions. -/
structure RegionsApart (regions : Bool → List Extent) : Prop where
  fit : ∀ dma, RegionsFit (regions dma)
  apart : ∀ r ∈ regions false, ∀ s ∈ regions true, r.Apart s

section Invariant

variable {regions : Bool → List Extent} {w : World} {cells : Bool → List Cell}

theorem RegionsApart.off (hr : RegionsApart regions) (dma : Bool) {x : ℕ}
    (hx : InRegions (regions (!dma)) x) : ¬InRegions (regions dma) x := by
  cases dma with
  | true => exact not_inRegions_of_apart hr.apart hx
  | false => exact not_inRegions_of_apart (fun r hr' s hs => (hr.apart s hs r hr').symm) hx

section

variable (hr : RegionsApart regions)
  (hlaid : ∀ dma, LaidOver heapStructSize (w.heap.pxBlockEnd dma) (regions dma) (cells dma))

include hr hlaid

theorem extents_apart_both :
    (extents heapStructSize (w.heap.pxBlockEnd false) (cells false) ++
      extents heapStructSize (w.heap.pxBlockEnd true) (cells true)).Pairwise Extent.Apart := by
  refine pairwise_append.mpr
    ⟨(hlaid false).extents_apart, (hlaid true).extents_apart, fun e he f hf => ?_⟩
  obtain ⟨r, hrm, hre⟩ := (hlaid false).extents_region he
  obtain ⟨s, hsd, hsf⟩ := (hlaid true).extents_region hf
  exact (hr.apart r hrm s hsd).mono hre hsf

theorem freeBytes_lt : freeBytes (cells false) + freeBytes (cells true) < 2 ^ 32 := by
  have hsum := sum_length_le (n := 2 ^ 32) (extents_apart_both hr hlaid) fun e he => by
    rcases mem_append.mp he with he | he
    · obtain ⟨r, hr', -, hhi⟩ := (hlaid false).extents_region he
      exact hhi.trans (hr.fit false r hr').1
    · obtain ⟨r, hr', -, hhi⟩ := (hlaid true).extents_region he
      exact hhi.trans (hr.fit true r hr').1
  rw [map_append, sum_append] at hsum
  have hmain := freeBytes_le_extents heapStructSize (w.heap.pxBlockEnd false) (cells false)
  have hdma := freeBytes_le_extents heapStructSize (w.heap.pxBlockEnd true) (cells true)
  simp only [heapStructSize] at hmain hdma hsum
  omega

end

variable {cells' : List Cell} {dma dma' : Bool} {h' : HeapState}

theorem Separate.parts_update (hr : RegionsApart regions) (hinv : Separate regions w cells)
    (hpart : Part h' dma (· = markOf dma) (regions dma) cells')
    (hframe : Frame w.heap h' dma (InRegions (regions dma))) (dma' : Bool) :
    Part h' dma' (· = markOf dma') (regions dma') (update cells dma cells' dma') := by
  by_cases hdma : dma' = dma
  · subst hdma
    rw [update_self]
    exact hpart
  · obtain rfl : dma' = !dma := Bool.eq_not.mpr hdma
    rw [update_of_ne hdma]
    exact (hinv.part (!dma)).frame hframe fun x hx => hr.off dma hx

theorem freeBytes_update (cells : Bool → List Cell) (dma : Bool) (cells' : List Cell) :
    freeBytes (update cells dma cells' false) +
        freeBytes (update cells dma cells' true) + freeBytes (cells dma) =
      freeBytes (cells false) + freeBytes (cells true) + freeBytes cells' := by
  cases dma <;> simp <;> omega

theorem liveCells_update (cells : Bool → List Cell) (dma : Bool) (cells' : List Cell) {c : Cell}
    (hperm : (liveCells cells').Perm (c :: liveCells (cells dma))) :
    (liveCells (update cells dma cells' false) ++
      liveCells (update cells dma cells' true)).Perm
      (c :: (liveCells (cells false) ++ liveCells (cells true))) := by
  cases dma with
  | false =>
    rw [update_self, update_of_ne (by simp)]
    exact hperm.append_right _
  | true =>
    rw [update_self, update_of_ne (by simp)]
    exact (hperm.append_left _).trans perm_middle

section

variable (hr : RegionsApart regions) (hinv : Separate regions w cells)

include hr hinv

/-- **Handing out a block** of either list keeps the invariant. -/
theorem Separate.taken {x s : ℕ}
    (htaken : Taken w.heap h' dma (· = markOf dma) (regions dma) (cells dma) cells' x s) :
    Separate regions ⟨h', (x + heapStructSize) :: w.live⟩ (update cells dma cells') := by
  have hlt := freeBytes_lt hr fun dma => (hinv.part dma).laid
  have hsum := freeBytes_update cells dma cells'
  have hfree := htaken.free
  refine ⟨hinv.parts_update hr htaken.part htaken.frame, ?_, ?_⟩
  · simp only [htaken.bytes, hinv.bytes]
    rw [sub32_of_le (by omega) hlt]
    omega
  · have hperm := (liveCells_update cells dma cells' htaken.live).map
      fun c => c.addr + heapStructSize
    exact (hinv.live.cons _).trans hperm.symm

/-- **Freeing a block** of either list keeps the invariant. -/
theorem Separate.freed {x s : ℕ}
    (hfreed : Freed w.heap h' dma (· = markOf dma) (regions dma) (cells dma) cells' x s) :
    Separate regions ⟨h', w.live.erase (x + heapStructSize)⟩
      (update cells dma cells') := by
  have hpart := hinv.parts_update hr hfreed.part hfreed.frame
  have hlt := freeBytes_lt (w := ⟨h', []⟩) hr fun dma => (hpart dma).laid
  have hsum := freeBytes_update cells dma cells'
  have hfree := hfreed.free
  refine ⟨hpart, ?_, ?_⟩
  · simp only [hfreed.bytes, hinv.bytes]
    rw [u32_of_lt (by omega)]
    omega
  · -- Read backwards, the block that comes back is one more handed out.
    have hback := liveCells_update (update cells dma cells') dma (cells dma)
      (by rw [update_self]; exact hfreed.live)
    rw [update_idem, update_eq_self] at hback
    have hlive := (hinv.live.trans (hback.map _)).erase (x + heapStructSize)
    rwa [map_cons, erase_cons_head] at hlive

/-! ## The calls -/

/-- **Allocating from one list**: nothing changes, or a block of it is handed out. -/
theorem Separate.takeFound (dma : Bool) {n : ℕ} (hn : heapStructSize ≤ n) :
    ∃ r cells', takeFound w.heap dma n (searchFrom w.heap dma n) = some r ∧
      Separate regions (w.handOut r) cells' := by
  rcases takeFound_cases (hr.fit dma) (hinv.part dma) rfl hn with
    ⟨loc, -, htake, -⟩ | ⟨loc, x, h', cells', s, -, -, htake, htaken, -⟩
  · exact ⟨_, cells, htake, hinv⟩
  · refine ⟨_, update cells dma cells', htake, ?_⟩
    rw [World.handOut, if_neg (by simp [heapStructSize])]
    exact hinv.taken hr htaken

theorem Separate.pxEndDMA_ne : w.heap.pxEndDMA ≠ w.heap.pxEnd := by
  intro heq
  have hmain : InRegions (regions false) w.heap.pxEnd :=
    (hinv.part false).laid.last_inRegions (by decide)
  have hdma : InRegions (regions true) w.heap.pxEndDMA :=
    (hinv.part true).laid.last_inRegions (by decide)
  rw [heq] at hdma
  exact hr.off true hmain hdma

theorem Separate.pxEnd_ne_zero : w.heap.pxEnd ≠ 0 :=
  last_ne_zero_of_fit (hr.fit false) (hinv.part false).laid

/-- **One call** returns and keeps the invariant. -/
theorem heapStep_separate {call : HeapCall} (hcall : FreesLive w call) :
    ∃ w' cells', heapStep w call = some w' ∧ Separate regions w' cells' := by
  have hend := hinv.pxEnd_ne_zero hr
  cases call with
  | malloc n =>
    simp only [heapStep, pvPortMalloc, if_neg hend]
    by_cases hn : Searched w.heap n
    · rw [if_pos hn]
      have hge := wantedSize_ge hn.1 hn.2.1
      -- The main list is searched first; its end marker sends the search to the DMA list.
      rcases takeFound_cases (hr.fit false) (hinv.part false) rfl hge with
        ⟨loc, hsearch, -⟩ | ⟨loc, x, h', cells', s, hsearch, hx, -⟩
      · obtain ⟨r, cells', htake, hinv'⟩ := hinv.takeFound hr true hge
        simp only [hsearch]
        rw [if_pos ⟨rfl, hinv.pxEndDMA_ne hr⟩, htake]
        exact ⟨_, cells', rfl, hinv'⟩
      · obtain ⟨r, cells', htake, hinv'⟩ := hinv.takeFound hr false hge
        rw [hsearch] at htake
        simp only [hsearch]
        rw [if_neg fun h => hx h.1, htake]
        exact ⟨_, cells', rfl, hinv'⟩
    · rw [if_neg hn]
      exact ⟨_, cells, rfl, hinv⟩
  | mallocDMA n =>
    simp only [heapStep, pvPortMallocDMA, if_neg hend]
    split_ifs with hn
    · obtain ⟨r, cells', htake, hinv'⟩ :=
        hinv.takeFound hr true (wantedSize_ge hn.1 hn.2.1)
      rw [htake]
      exact ⟨_, cells', rfl, hinv'⟩
    · exact ⟨_, cells, rfl, hinv⟩
  | free pv =>
    -- The pointer belongs to a live cell of one of the lists, and its mark says which.
    obtain ⟨c, hc, rfl⟩ := List.mem_map.mp (hinv.live.mem_iff.mp hcall)
    obtain ⟨dma, hc⟩ : ∃ dma, c ∈ liveCells (cells dma) := by
      rcases mem_append.mp hc with hc | hc
      · exact ⟨false, hc⟩
      · exact ⟨true, hc⟩
    obtain ⟨k, x, t⟩ := c
    obtain rfl : k = .live := (mem_liveCells.mp hc).2
    obtain ⟨h', cells', hfree, hfreed⟩ :=
      vPortFree_freed (hr.fit dma) (hinv.part dma) hc ((hinv.part dma).live _ hc).2
    refine ⟨_, _, ?_, hinv.freed hr hfreed⟩
    simp only [heapStep, hfree, map_some]

end

/-! ## The invariant makes the heap sound -/

/-- A pointer the callers hold, and the cell it belongs to. -/
theorem Separate.live_cell (hinv : Separate regions w cells) {pv : ℕ} (hpv : pv ∈ w.live) :
    ∃ dma, ∃ c ∈ liveCells (cells dma), pv = c.addr + heapStructSize ∧ headerOf pv = c.addr := by
  obtain ⟨c, hc, rfl⟩ := List.mem_map.mp (hinv.live.mem_iff.mp hpv)
  rcases mem_append.mp hc with hc | hc
  · exact ⟨false, c, hc, rfl, Nat.add_sub_cancel ..⟩
  · exact ⟨true, c, hc, rfl, Nat.add_sub_cancel ..⟩

/-- **The pieces are the cells** of both lists. -/
theorem Separate.pieces_perm (hinv : Separate regions w cells) :
    (pieces w.heap (entries (cells false) ++ entries (cells true)) w.live
      (regions false ++ regions true)).Perm
      (extents heapStructSize (w.heap.pxBlockEnd false) (cells false) ++
        extents heapStructSize (w.heap.pxBlockEnd true) (cells true)) := by
  have hlive := hinv.live
  rw [map_append] at hlive
  exact (pieces_append_perm w.heap _ _ _ _ hlive).trans
    (((hinv.part false).pieces_perm (Perm.refl _)).append
      ((hinv.part true).pieces_perm (Perm.refl _)))

theorem Separate.coalesced (hr : RegionsApart regions) (hinv : Separate regions w cells) {a b : ℕ}
    (ha : a ∈ entries (cells dma)) (hb : b ∈ entries (cells dma'))
    (hasize : w.heap.sizeOf a ≠ 0) (hbsize : w.heap.sizeOf b ≠ 0) : a + w.heap.sizeOf a ≠ b := by
  obtain ⟨c, hc, hcfree, rfl, hcsize⟩ :=
    free_of_entry w.heap.sizeOf (hinv.part dma).list.sizes ha hasize
  obtain ⟨d, hd, hdfree, rfl, -⟩ :=
    free_of_entry w.heap.sizeOf (hinv.part dma').list.sizes hb hbsize
  have hsize : w.heap.sizeOf c.addr = c.size := hcsize.symm
  rw [hsize]
  by_cases hdma : dma' = dma
  · subst hdma
    obtain ⟨r, rs, -, hl⟩ := (hinv.part dma').laid.laid
    exact Coalesced.not_touching (by decide) hl (hinv.part dma').coalesced hc hd hcfree hdfree
  -- A block ends inside its region, where no block of the other list starts.
  obtain rfl : dma' = !dma := Bool.eq_not.mpr hdma
  intro htouch
  obtain ⟨r, hr', hlo, -, hroom⟩ := (hinv.part dma).laid.mem_region hc
  have hin := (hinv.part (!dma)).laid.addr_inRegions (by decide) hd
  refine hr.off dma hin ⟨r, hr', ?_, ?_⟩
  · omega
  · have := hroom (by simp [Cell.isBlock, hcfree])
    simp only [heapStructSize] at this
    omega

/-- **The invariant makes the heap sound.** -/
theorem Separate.sound (hr : RegionsApart regions) (hinv : Separate regions w cells) :
    HeapSound (regions false) (regions true) w := by
  refine ⟨entries (cells false), entries (cells true), (hinv.part false).freeList,
    (hinv.part true).freeList,
    ?_, fun x => ?_, fun a ha b hb => ?_, fun pv hpv => ?_, fun pv hpv => ?_, ?_⟩
  · rw [hinv.pieces_perm.pairwise_iff fun h => h.symm]
    exact extents_apart_both hr fun dma => (hinv.part dma).laid
  · rw [inRegions_perm hinv.pieces_perm, inRegions_append, inRegions_append,
      (hinv.part false).laid.extents_cover x, (hinv.part true).laid.extents_cover x]
  · rcases mem_append.mp ha with ha | ha <;> rcases mem_append.mp hb with hb | hb <;>
      exact hinv.coalesced hr ha hb
  · obtain ⟨dma, c, hc, rfl, hheader⟩ := hinv.live_cell hpv
    refine ⟨by omega, ?_⟩
    rw [hheader, HeapState.sizeOf, ((hinv.part dma).live c hc).1]
    omega
  · obtain ⟨dma, c, hc, rfl, hheader⟩ := hinv.live_cell hpv
    have hin := (hinv.part dma).laid.addr_inRegions (by decide) (mem_liveCells.mp hc).1
    rw [hheader, ((hinv.part dma).live c hc).2]
    cases dma with
    | true => exact iff_of_true rfl hin
    | false => exact iff_of_false (by decide) (hr.off true hin)
  · rw [hinv.bytes, (hinv.part false).sum_sizes, (hinv.part true).sum_sizes]

theorem Separate.whole (hr : RegionsApart regions) (hinv : Separate regions w cells)
    (hlive : w.live = []) : Whole regions w.heap := by
  have hnil : liveCells (cells false) ++ liveCells (cells true) = [] :=
    map_eq_nil_iff.mp (hlive ▸ hinv.live).nil_eq.symm
  intro dma
  obtain ⟨r, rs, hregions, hlaid⟩ := (hinv.part dma).laid.laid
  refine ⟨_, (hinv.part dma).freeList, ?_⟩
  rw [filter_entries _ (hinv.part dma).list.sizes fun c hc =>
      Nat.lt_of_lt_of_le (by decide) (hlaid.header_le c hc),
    (hinv.part dma).coalesced.whole (by decide) hlaid (by cases dma <;> simp_all), hregions,
    filter_eq_self.mpr]
  intro s hs
  have hroom := (hr.fit dma s (hregions ▸ hs)).2.1
  exact decide_eq_true (by simp only [heapStructSize] at *; omega)

end Invariant

/-! ## Runs -/

def alignedRegions (main dma : List HeapRegion) (xDMABuffer : Bool) : List Extent :=
  (if xDMABuffer then dma else main).map HeapRegion.aligned

section Runs

variable {main dma : List HeapRegion} {mem : ℕ → BlockLink} {h : HeapState}
  (hmain : ∀ r ∈ main, r.Usable) (hdma : ∀ r ∈ dma, r.Usable)
  (hapart : ∀ r ∈ main, ∀ s ∈ dma, r.extent.Apart s.extent)

include hmain hdma hapart

theorem regionsApart_aligned :
    RegionsApart (alignedRegions main dma) := by
  refine ⟨fun xDMABuffer => ?_, fun e he f hf => ?_⟩
  · cases xDMABuffer with
    | false => exact regionsFit_aligned hmain
    | true => exact regionsFit_aligned hdma
  · obtain ⟨r, hr, rfl⟩ := List.mem_map.mp he
    obtain ⟨s, hs, rfl⟩ := List.mem_map.mp hf
    exact (hapart r hr s hs).mono r.aligned_subset s.aligned_subset

variable (hsep : ∀ h₀, vPortDefineHeapRegions (reset mem) main = some h₀ →
  ¬xPortHeapRegionsIsSame h₀ dma)

include hsep

theorem defineHeaps_separate (hdef : defineHeaps mem main dma = some h) :
    ∃ cells, Separate (alignedRegions main dma) ⟨h, []⟩ cells := by
  have hr := regionsApart_aligned hmain hdma hapart
  obtain ⟨h₀, hdef₀, hdef⟩ := bind_eq_some_iff.mp hdef
  obtain ⟨m, hpart₀, hlive₀, hbytes₀⟩ := define_part hmain hdef₀
  obtain ⟨d, hpartDMA, hpartMain, hliveDMA, hbytes⟩ :=
    defineDMA_part hdma hpart₀ (fun x hx => hr.off true hx) (hsep h₀ hdef₀) hdef
  have hpart : ∀ xDMABuffer, Part h xDMABuffer (· = markOf xDMABuffer)
      (alignedRegions main dma xDMABuffer) (if xDMABuffer then d else m) := by
    intro xDMABuffer
    cases xDMABuffer with
    | false => exact hpartMain
    | true => exact hpartDMA
  have hlt := freeBytes_lt (w := ⟨h, []⟩) hr fun xDMABuffer => (hpart xDMABuffer).laid
  refine ⟨fun xDMABuffer => if xDMABuffer then d else m, hpart, ?_, ?_⟩
  · simp only [hbytes, hbytes₀]
    exact u32_of_lt hlt
  · simp [hlive₀, hliveDMA]

/-- **Every run** returns from every call and keeps the invariant. -/
theorem separate_run (hdef : defineHeaps mem main dma = some h) {calls : List HeapCall}
    (hcalls : StepsMeet heapStep FreesLive ⟨h, []⟩ calls) :
    ∃ w, runSteps heapStep ⟨h, []⟩ calls = some w ∧
      ∃ cells, Separate (alignedRegions main dma) w cells :=
  exists_run_of_stepsMeet (fun _ w => ∃ cells, Separate (alignedRegions main dma) w cells)
    (fun _ w call ⟨cells, hinv⟩ hcall => by
      obtain ⟨w', cells', hstep, hinv'⟩ :=
        heapStep_separate (regionsApart_aligned hmain hdma hapart) hinv hcall
      exact ⟨w', hstep, cells', hinv'⟩)
    (defineHeaps_separate hmain hdma hapart hsep hdef) hcalls

/-- **Everything freed, everything whole.** When the callers hold no block, each region is one free
block of its list again. -/
theorem heap_whole_again (hdef : defineHeaps mem main dma = some h) (calls : List HeapCall)
    (hcalls : StepsMeet heapStep FreesLive ⟨h, []⟩ calls) :
    ∃ w, runSteps heapStep ⟨h, []⟩ calls = some w ∧
      (w.live = [] → Whole (alignedRegions main dma) w.heap) := by
  obtain ⟨w, hrun, cells, hinv⟩ := separate_run hmain hdma hapart hsep hdef hcalls
  exact ⟨w, hrun, hinv.whole (regionsApart_aligned hmain hdma hapart)⟩

end Runs

/-- **The heap with separate DMA regions stays sound.** The regions are usable, and those of the DMA
list other memory; whatever the memory holds at first, every run of allocations and legal frees
returns from every call and leaves the heap sound. -/
theorem separate_heap_sound (mem : ℕ → BlockLink) (main dma : List HeapRegion) (h : HeapState)
    (hmain : ∀ r ∈ main, r.Usable) (hdma : ∀ r ∈ dma, r.Usable)
    (hapart : ∀ r ∈ main, ∀ s ∈ dma, r.extent.Apart s.extent)
    (hsep : ∀ h₀, vPortDefineHeapRegions (reset mem) main = some h₀ →
      ¬xPortHeapRegionsIsSame h₀ dma)
    (hdef : defineHeaps mem main dma = some h) (calls : List HeapCall)
    (hcalls : StepsMeet heapStep FreesLive ⟨h, []⟩ calls) :
    ∃ w, runSteps heapStep ⟨h, []⟩ calls = some w ∧
      HeapSound (main.map HeapRegion.aligned) (dma.map HeapRegion.aligned) w := by
  obtain ⟨w, hrun, cells, hinv⟩ := separate_run hmain hdma hapart hsep hdef hcalls
  exact ⟨w, hrun, hinv.sound (regionsApart_aligned hmain hdma hapart)⟩

def clearMemory (_ : ℕ) : BlockLink := ⟨0, 0⟩

def sampleMain : List HeapRegion := [.ofNat 0x1004 0x204 (.refl true),
  .ofNat 0x2000 0x1000 (.refl true)]

def sampleDMA : List HeapRegion := [.ofNat 0x8000 0x400 (.refl true)]

def sampleHeap : HeapState :=
  (defineHeaps clearMemory sampleMain sampleDMA).get (by decide +kernel)

/-- The last allocation finds no room in the main regions and takes a DMA block. -/
def sampleCalls : List HeapCall :=
  [.malloc 100, .mallocDMA 100, .malloc 4000, .free 0x8010, .malloc 600]

theorem sample_not_same : ∀ h₀, vPortDefineHeapRegions (reset clearMemory) sampleMain = some h₀ →
    ¬xPortHeapRegionsIsSame h₀ sampleDMA := by
  intro h₀ hdef hsame
  have hall : (vPortDefineHeapRegions (reset clearMemory) sampleMain).all
      (fun h₀ => decide ¬xPortHeapRegionsIsSame h₀ sampleDMA) := by decide +kernel
  rw [hdef] at hall
  simp [hsame] at hall

/-- A run that splits, coalesces and falls back to the DMA list. -/
theorem separate_heap_sound_sample :
    defineHeaps clearMemory sampleMain sampleDMA = some sampleHeap ∧
      ∃ w, runSteps heapStep ⟨sampleHeap, []⟩ sampleCalls = some w ∧
        HeapSound (sampleMain.map HeapRegion.aligned) (sampleDMA.map HeapRegion.aligned) w := by
  have hdef : defineHeaps clearMemory sampleMain sampleDMA = some sampleHeap :=
    (some_get _).symm
  exact ⟨hdef, separate_heap_sound clearMemory sampleMain sampleDMA sampleHeap (by decide)
    (by decide) (by decide) sample_not_same hdef sampleCalls (by decide +kernel)⟩

/-- A block of each list. -/
theorem heap_whole_again_sample :
    let calls := [.malloc 100, .mallocDMA 100, .free 0x1020, .free 0x8010]
    ∃ w, runSteps heapStep ⟨sampleHeap, []⟩ calls = some w ∧
      Whole (alignedRegions sampleMain sampleDMA) w.heap := by
  intro calls
  have hlive : (runSteps heapStep ⟨sampleHeap, []⟩ calls).map World.live = some [] := by
    decide +kernel
  obtain ⟨w, hrun, hwhole⟩ := heap_whole_again (h := sampleHeap) (by decide) (by decide)
    (by decide) sample_not_same (some_get _).symm calls (by decide +kernel)
  rw [hrun] at hlive
  exact ⟨w, hrun, hwhole (some.inj hlive)⟩

/-! ## Regions the definition accepts and the allocator cannot use -/

/-- Both definitions accept the regions, apart and in two lists, and a run of calls that free only
what the callers hold leaves the heap unsound. -/
def BreaksHeap (main dma : List HeapRegion) (calls : List HeapCall) : Prop :=
  ∃ h w, defineHeaps clearMemory main dma = some h ∧
    (∀ r ∈ main, ∀ s ∈ dma, r.extent.Apart s.extent) ∧
    (∀ h₀, vPortDefineHeapRegions (reset clearMemory) main = some h₀ →
      ¬xPortHeapRegionsIsSame h₀ dma) ∧
    StepsMeet heapStep FreesLive ⟨h, []⟩ calls ∧
    runSteps heapStep ⟨h, []⟩ calls = some w ∧
    ¬HeapSound (main.map HeapRegion.aligned) (dma.map HeapRegion.aligned) w

/-- A second main region without room for a block and its marker. -/
def tinyMain : List HeapRegion := [.ofNat 0x1000 0x100 (.refl true), .ofNat 0x2000 16 (.refl true)]

/-- A main region whose block has the top bit of its size set. -/
def hugeMain : List HeapRegion := [.ofNat 0x1000 0x80000100 (.refl true)]

/-- A main region that wraps around the address space. -/
def wrappingMain : List HeapRegion := [.ofNat 0xFFFFFF00 0x200 (.refl true)]

def otherDMA : List HeapRegion := [.ofNat 0x90000000 0x100 (.refl true)]

def worldAfter (main : List HeapRegion) (calls : List HeapCall) : Option World :=
  (defineHeaps clearMemory main otherDMA).bind fun h => runSteps heapStep ⟨h, []⟩ calls

theorem breaksHeap_of_checks {main : List HeapRegion} {calls : List HeapCall}
    (hapart : ∀ r ∈ main, ∀ s ∈ otherDMA, r.extent.Apart s.extent)
    (hsep : (vPortDefineHeapRegions (reset clearMemory) main).all
      fun h₀ => decide ¬xPortHeapRegionsIsSame h₀ otherDMA)
    (hmeet : (defineHeaps clearMemory main otherDMA).all
      fun h => decide (StepsMeet heapStep FreesLive ⟨h, []⟩ calls))
    {w : World} (hw : worldAfter main calls = some w)
    (hnot : ¬HeapSound (main.map HeapRegion.aligned) (otherDMA.map HeapRegion.aligned) w) :
    BreaksHeap main otherDMA calls := by
  obtain ⟨h, hdef, hrun⟩ := bind_eq_some_iff.mp hw
  refine ⟨h, w, hdef, hapart, fun h₀ hdef₀ hsame => ?_, ?_, hrun, hnot⟩
  · rw [hdef₀] at hsep
    simp [hsame] at hsep
  · rw [hdef] at hmeet
    simpa using hmeet

/-- The heap with a tiny region: the end marker is its own successor. -/
def tinyWorld : World := (worldAfter tinyMain []).get (by decide +kernel)

/-- The heap with a huge region, after a request whose size has the top bit set. -/
def hugeWorld : World := (worldAfter hugeMain [.malloc 0x7FFFFFF0]).get (by decide +kernel)

/-- The heap with a region that wraps around: the end marker is below the block. -/
def wrappingWorld : World := (worldAfter wrappingMain []).get (by decide +kernel)

theorem tinyWorld_unsound :
    ¬HeapSound (tinyMain.map HeapRegion.aligned) (otherDMA.map HeapRegion.aligned) tinyWorld := by
  rintro ⟨mainNodes, dmaNodes, hsound⟩
  exact absurd hsound.mainList.ends (by decide +kernel)

theorem hugeWorld_unsound :
    ¬HeapSound (hugeMain.map HeapRegion.aligned) (otherDMA.map HeapRegion.aligned) hugeWorld := by
  rintro ⟨mainNodes, dmaNodes, hsound⟩
  obtain rfl := hsound.mainList.nodes_eq (l := [0x80001000]) (by decide +kernel)
    (by decide +kernel)
  obtain rfl := hsound.dmaList.nodes_eq (l := [0x90000000]) (by decide +kernel)
    (by decide +kernel)
  -- The block handed out shows no size, so its first byte is in no piece.
  exact absurd ((hsound.tile 0x1000).mpr (by decide)) (by decide +kernel)

theorem wrappingWorld_unsound :
    ¬HeapSound (wrappingMain.map HeapRegion.aligned) (otherDMA.map HeapRegion.aligned)
      wrappingWorld := by
  rintro ⟨mainNodes, dmaNodes, hsound⟩
  obtain rfl := hsound.mainList.nodes_eq (l := [0xFFFFFF00]) (by decide +kernel)
    (by decide +kernel)
  exact absurd hsound.mainList.ascending (by decide +kernel)

/-- **The definitions accept regions the allocator cannot use**: without room for a block and its
marker, with a block that reaches the top bit of a size, or around the end of the address space. -/
theorem unusable_regions_break : BreaksHeap tinyMain otherDMA [] ∧
    BreaksHeap hugeMain otherDMA [.malloc 0x7FFFFFF0] ∧ BreaksHeap wrappingMain otherDMA [] := by
  refine ⟨?_, ?_, ?_⟩
  · exact breaksHeap_of_checks (by decide) (by decide +kernel) (by decide +kernel)
      (some_get _).symm tinyWorld_unsound
  · exact breaksHeap_of_checks (by decide) (by decide +kernel) (by decide +kernel)
      (some_get _).symm hugeWorld_unsound
  · exact breaksHeap_of_checks (by decide) (by decide +kernel) (by decide +kernel)
      (some_get _).symm wrappingWorld_unsound

end WiseSdk.Heap
