import WiseSdk.Heap.Separate
import WiseSdk.Heap.Shared

/-!
# Allocating and freeing at once

`RoundTrips regions h` says that a block taken from the heap `h` and freed at once leaves both free
lists and the free bytes as they were, but for end markers between regions: inserting a block drops
an empty entry that follows it directly.

`malloc_free_identity`: this is so in every state a run reaches over separate regions, and in every
state a run reaches that shares one list between two heads and keeps its first block. By
`absorb_carved` the bytes cut off a block join those that come back.

`malloc_free_corrupts` is the shortest run after which the round trip destroys a list: the two heads
have come apart, and the block taken is one that is handed out.
-/

namespace WiseSdk.Heap

open Library List Option

/-! ## What a round trip should leave -/

/-- The list of one head is as before, except that end markers of regions may have left it. -/
def SameUpToMarkers (regions : List Extent) (h h' : HeapState) (dma : Bool) : Prop :=
  ∃ nodes nodes', FreeList h dma nodes ∧ FreeList h' dma nodes' ∧ nodes'.Sublist nodes ∧
    (∀ a ∈ nodes', h'.sizeOf a = h.sizeOf a) ∧
    ∀ a ∈ nodes, a ∉ nodes' → h.sizeOf a = 0 ∧ ∃ r ∈ regions, a + heapStructSize = r.hi

def Allocates (h : HeapState) (n : ℕ) (h' : HeapState) (pv : ℕ) : Prop :=
  pvPortMalloc h n = some (h', pv) ∨ pvPortMallocDMA h n = some (h', pv)

/-- **Malloc then free is the identity** on the free lists and the free bytes. -/
def RoundTrips (regions : List Extent) (h : HeapState) : Prop :=
  ∀ n h' pv, Allocates h n h' pv → pv ≠ 0 →
    ∃ h'', vPortFree h' pv = some h'' ∧ (∀ dma, SameUpToMarkers regions h h'' dma) ∧
      h''.xFreeBytesRemaining = h.xFreeBytesRemaining

/-! ## The list the block comes from -/

/-- A pointer that is not null was found in one of the lists. -/
theorem Allocates.takes {h h' : HeapState} {n pv : ℕ} (halloc : Allocates h n h' pv)
    (hpv : pv ≠ 0) : heapStructSize ≤ wantedSize n ∧
      ∃ dma, takeFound h dma (wantedSize n) (searchFrom h dma (wantedSize n)) = some (h', pv) := by
  by_cases hn : Searched h n
  · refine ⟨wantedSize_ge hn.1 hn.2.1, ?_⟩
    rcases halloc with hmalloc | hdma
    · simp only [pvPortMalloc, if_pos hn] at hmalloc
      split at hmalloc
      · cases hmalloc
      cases hsearch : searchFrom h false (wantedSize n) with
      | none => simp [hsearch] at hmalloc
      | some found =>
        simp only [hsearch] at hmalloc
        split at hmalloc
        · exact ⟨true, hmalloc⟩
        · exact ⟨false, hsearch ▸ hmalloc⟩
    · simp only [pvPortMallocDMA, if_pos hn] at hdma
      split at hdma
      · cases hdma
      · exact ⟨true, hdma⟩
  · -- A request that is not looked for gets the null pointer.
    exfalso
    rcases halloc with hmalloc | hdma
    · simp only [pvPortMalloc, if_neg hn] at hmalloc
      split at hmalloc <;> simp_all
    · simp only [pvPortMallocDMA, if_neg hn] at hdma
      split at hdma <;> simp_all

section List

variable {h h' h'' : HeapState} {dma : Bool} {mark mark' : ℕ → Prop} {regions all : List Extent}
  {cells cells' : List Cell}

/-- Two layouts of one list that differ in unlinked markers only. -/
theorem sameUpToMarkers_of_parts (hpart : Part h dma mark regions cells)
    (hpart' : Part h' dma mark' regions cells') (hall : ∀ r ∈ regions, r ∈ all)
    (hsub : (entries cells').Sublist (entries cells)) (hold : ∀ c ∈ cells', c.linked → c ∈ cells)
    (hkept : ∀ c ∈ cells, c ∈ cells' ∨ c.kind = .marker true) :
    SameUpToMarkers all h h' dma := by
  refine ⟨entries cells, entries cells', hpart.freeList, hpart'.freeList, hsub, fun a ha => ?_,
    fun a ha hnot => ?_⟩
  · obtain ⟨c, hc, hlinked, rfl⟩ := mem_entries.mp ha
    simp only [HeapState.sizeOf]
    rw [hpart'.list.sizes c hc hlinked, hpart.list.sizes c (hold c hc hlinked) hlinked]
  · obtain ⟨c, hc, hlinked, rfl⟩ := mem_entries.mp ha
    have hkind : c.kind = .marker true := by
      rcases hkept c hc with hc' | hkind
      · exact absurd (mem_entries.mpr ⟨c, hc', hlinked, rfl⟩) hnot
      · exact hkind
    obtain ⟨r, hr, hhi⟩ := hpart.laid.marker_hi hc (by simp [Cell.isBlock, hkind])
    refine ⟨?_, r, hall r hr, hhi⟩
    rw [HeapState.sizeOf, hpart.list.sizes c hc hlinked]
    simp [Cell.linkSize, hkind]

theorem sub32_add_cancel {b s : ℕ} (hb : b < 2 ^ 32) (hs : s ≤ 2 ^ 32) :
    u32 (sub32 b s + s) = b := by
  simp only [u32, sub32]
  omega

/-- What a round trip through the list of one head leaves. -/
structure Returned (h h'' : HeapState) (dma : Bool) (mark : ℕ → Prop) (regions : List Extent)
    (cells cells' : List Cell) : Prop where
  part : Part h'' dma mark regions cells'
  sub : (entries cells').Sublist (entries cells)
  old : ∀ c ∈ cells', c.linked → c ∈ cells
  kept : ∀ c ∈ cells, c ∈ cells' ∨ c.kind = .marker true
  frame : Frame h h'' dma (InRegions regions)
  head : (h''.start dma).pxNextFreeBlock = (h.start dma).pxNextFreeBlock
  bytes : h''.xFreeBytesRemaining = h.xFreeBytesRemaining

/-- **The block found goes back to where it was.** -/
theorem Part.roundTrip (hfit : RegionsFit regions) (hpart : Part h dma mark regions cells)
    (hmark : mark (if dma then dmaBufferMark else 0)) (hbytes : h.xFreeBytesRemaining < 2 ^ 32)
    {w pv : ℕ} (hw : heapStructSize ≤ w) (hpv : pv ≠ 0)
    (htake : takeFound h dma w (searchFrom h dma w) = some (h', pv)) :
    ∃ h'' cells', vPortFree h' pv = some h'' ∧ Returned h h'' dma mark regions cells cells' := by
  rcases takeFound_spec hfit hpart hmark hw with ⟨loc, -, hnull, -⟩ |
    ⟨pre, x, s, post, h₁, rfl, hws, -, -, -, hfound, hpart₁, hnext, hbytes₁, hframe₁⟩
  · rw [htake] at hnull
    cases hnull
    exact absurd rfl hpv
  · rw [htake] at hfound
    cases hfound
    obtain ⟨h'', hfree, hpart₂, hbytes₂, hframe₂⟩ := vPortFree_part hfit hpart₁ hnext
    -- No free block stands on either side of a free block.
    obtain ⟨-, hco, hseam⟩ := isChain_append.mp hpart.coalesced
    have hlast : ∀ c ∈ pre.getLast?, c.kind ≠ .free := fun c hc hkind =>
      hseam c hc _ rfl ⟨hkind, rfl⟩
    rw [giveBack_of_not_free hlast, absorb_carved hco hws] at hpart₂
    have hsize := size_lt_of_fit hfit hpart₁.laid
      (c := ⟨.live, x, carvedSize heapMinimumBlockSize w s⟩) (by simp) rfl
    have hframe := hframe₁.trans hframe₂
    refine ⟨h'', _, hfree, hpart₂, ?_, fun c hc hlinked => ?_, fun c hc => ?_, hframe, ?_, ?_⟩
    · rw [entries_append, entries_append]
      exact (Sublist.refl _).append (entries_absorb_sublist hco)
    · rcases mem_append.mp hc with hc | hc
      · exact mem_append_left _ hc
      · exact mem_append_right _ (mem_of_mem_absorb hco hc hlinked)
    · rcases mem_append.mp hc with hc | hc
      · exact .inl (mem_append_left _ hc)
      · exact (mem_absorb_or_marker hco hc).imp_left (mem_append_right _)
    · obtain ⟨l, hl⟩ := entries_absorb_head x s post
      rw [hpart₂.list.start_eq, hpart.list.start_eq, hframe.pxBlockEnd, entries_append,
        entries_append, hl, entries_free]
      cases entries pre <;> rfl
    · rw [hbytes₂, hbytes₁]
      refine sub32_add_cancel hbytes ?_
      simp only [blockAllocatedBit] at hsize
      omega

end List

/-! ## States with an invariant -/

/-- **Separate lists**: the list the block comes from is restored, the other is not touched. -/
theorem Separate.roundTrips {regions : Bool → List Extent} {w : World}
    {cells : Bool → List Cell} (hr : RegionsApart regions) (hinv : Separate regions w cells) :
    RoundTrips (regions false ++ regions true) w.heap := by
  intro n h' pv halloc hpv
  obtain ⟨hw, dma, htake⟩ := halloc.takes hpv
  have hbytes : w.heap.xFreeBytesRemaining < 2 ^ 32 := by
    rw [hinv.bytes]
    exact freeBytes_lt hr fun dma => (hinv.part dma).laid
  obtain ⟨h'', cells', hfree, hret⟩ :=
    (hinv.part dma).roundTrip (hr.fit dma) rfl hbytes hw hpv htake
  have hall : ∀ dma, ∀ r ∈ regions dma, r ∈ regions false ++ regions true := by
    intro dma r hr
    cases dma with
    | false => exact mem_append_left _ hr
    | true => exact mem_append_right _ hr
  refine ⟨h'', hfree, fun dma' => ?_, hret.bytes⟩
  by_cases hdma : dma' = dma
  · subst hdma
    exact sameUpToMarkers_of_parts (hinv.part dma') hret.part (hall dma') hret.sub hret.old
      hret.kept
  · obtain rfl : dma' = !dma := Bool.eq_not.mpr hdma
    have hother := (hinv.part (!dma)).frame hret.frame fun x hx => hr.off dma hx
    exact sameUpToMarkers_of_parts (hinv.part (!dma)) hother (hall _) (Sublist.refl _)
      (fun c hc _ => hc) fun c hc => .inl hc

/-- **One list with two heads**: the head used is restored, so the other still links to the first
block. -/
theorem Shared.roundTrips {regions : List Extent} {w : World} {cells : List Cell}
    (hfit : RegionsFit regions) (hinv : Shared regions w cells) (rest : List Extent) :
    RoundTrips (regions ++ rest) w.heap := by
  intro n h' pv halloc hpv
  obtain ⟨hw, dma, htake⟩ := halloc.takes hpv
  have hbytes : w.heap.xFreeBytesRemaining < 2 ^ 32 := by
    have hlt := last_lt_of_fit hfit (hinv.part dma).laid
    have hle := (hinv.part dma).laid.freeBytes_le
    rw [hinv.bytes]
    omega
  obtain ⟨h'', cells', hfree, hret⟩ :=
    (hinv.part dma).roundTrip hfit (anyMark_of_head dma) hbytes hw hpv htake
  have hparts := hinv.parts hret.part hret.frame hret.head
  exact ⟨h'', hfree, fun dma' => sameUpToMarkers_of_parts (hinv.part dma') (hparts dma')
    (fun r hr => mem_append_left _ hr) hret.sub hret.old hret.kept, hret.bytes⟩

/-! ## Runs -/

/-- The DMA regions are usable and other memory than the main regions, or the DMA list is the main
list and no call changes which block is first. -/
inductive ListsConsistent (mem : ℕ → BlockLink) (main dma : List HeapRegion) (h : HeapState)
    (calls : List HeapCall) : Prop where
  | separate (usable : ∀ r ∈ dma, r.Usable)
      (apart : ∀ r ∈ main, ∀ s ∈ dma, r.extent.Apart s.extent)
      (notSame : ∀ h₀, vPortDefineHeapRegions (reset mem) main = some h₀ →
        ¬xPortHeapRegionsIsSame h₀ dma)
  | shared (same : ∀ h₀, vPortDefineHeapRegions (reset mem) main = some h₀ →
        xPortHeapRegionsIsSame h₀ dma)
      (keepsFirst : StepsMeet heapStep KeepsFirst ⟨h, []⟩ calls)

/-- **Malloc then free is the identity on the heap.** The main regions are usable and the two lists
stay consistent. In every state that a run of allocations and legal frees reaches, freeing a block
as soon as it is allocated gives back both free lists, up to end markers between regions, and the
free bytes. -/
theorem malloc_free_identity (mem : ℕ → BlockLink) (main dma : List HeapRegion) (h : HeapState)
    (hmain : ∀ r ∈ main, r.Usable) (hdef : defineHeaps mem main dma = some h)
    (calls : List HeapCall) (hcalls : StepsMeet heapStep FreesLive ⟨h, []⟩ calls)
    (hlists : ListsConsistent mem main dma h calls) :
    ∃ w, runSteps heapStep ⟨h, []⟩ calls = some w ∧
      RoundTrips ((main ++ dma).map HeapRegion.aligned) w.heap := by
  rw [map_append]
  cases hlists with
  | separate hdma hapart hsep =>
    obtain ⟨w, hrun, cells, hinv⟩ := separate_run hmain hdma hapart hsep hdef hcalls
    exact ⟨w, hrun, hinv.roundTrips (regionsApart_aligned hmain hdma hapart)⟩
  | shared hsame hkeeps =>
    obtain ⟨w, hrun, cells, hinv⟩ := shared_run hmain hsame hdef hcalls hkeeps
    exact ⟨w, hrun, hinv.roundTrips (regionsFit_aligned hmain) _⟩

/-- After a run over separate regions and after one over both heads of a shared list. -/
theorem malloc_free_identity_samples :
    (∃ w, runSteps heapStep ⟨sampleHeap, []⟩ sampleCalls = some w ∧
      RoundTrips ((sampleMain ++ sampleDMA).map HeapRegion.aligned) w.heap) ∧
    ∃ w, runSteps heapStep ⟨twoHeads, []⟩ passingCalls = some w ∧
      RoundTrips ((twoRegions ++ twoRegions).map HeapRegion.aligned) w.heap := by
  constructor
  · exact malloc_free_identity clearMemory sampleMain sampleDMA sampleHeap (by decide)
      (some_get _).symm sampleCalls (by decide +kernel)
      (.separate (by decide) (by decide) sample_not_same)
  · exact malloc_free_identity (fun _ => ⟨0, 0⟩) twoRegions twoRegions twoHeads (by decide)
      (some_get _).symm passingCalls (by decide +kernel)
      (.shared twoHeads_same (by decide +kernel))

/-! ## Two heads that have come apart -/

/-- `pvPortMallocDMA` has taken the first block of a heap with two heads: the main head still links
to it. -/
def staleWorld : World :=
  (runSteps heapStep ⟨twoHeads, []⟩ [.mallocDMA 16]).get (by decide +kernel)

/-- `p_pvPortMalloc` takes the block once more. -/
def staleTaken : HeapState × ℕ := (pvPortMalloc staleWorld.heap 16).get (by decide +kernel)

def staleFreed : HeapState := (vPortFree staleTaken.1 staleTaken.2).get (by decide +kernel)

/-- **A round trip that destroys a list.** The main head links to a block handed out, whose size
reads as larger than half the address space. Splitting it writes a header over the first free block
of the DMA list, which then shows a size of `2 ^ 31`. -/
theorem malloc_free_corrupts :
    defineHeaps (fun _ => ⟨0, 0⟩) twoRegions twoRegions = some twoHeads ∧
      StepsMeet heapStep FreesLive ⟨twoHeads, []⟩ [.mallocDMA 16] ∧
      runSteps heapStep ⟨twoHeads, []⟩ [.mallocDMA 16] = some staleWorld ∧
      ¬RoundTrips ((twoRegions ++ twoRegions).map HeapRegion.aligned) staleWorld.heap := by
  refine ⟨(some_get _).symm, by decide +kernel, (some_get _).symm, fun htrips => ?_⟩
  have htaken : pvPortMalloc staleWorld.heap 16 = some staleTaken := (some_get _).symm
  obtain ⟨h'', hfree, hsame, -⟩ := htrips 16 _ _ (.inl htaken) (by decide +kernel)
  obtain rfl : staleFreed = h'' :=
    some.inj ((some_get _ : some staleFreed = _).trans hfree)
  obtain ⟨nodes, nodes', -, hlist, -, hsizes, -⟩ := hsame true
  have hwalk := hlist.walk
  cases nodes' with
  | nil => exact absurd (segment_nil.mp hwalk) (by decide +kernel)
  | cons a l =>
    have hfirst : a = 0x1020 := hwalk.1.symm.trans (by decide +kernel)
    have hsize := hsizes a mem_cons_self
    rw [hfirst] at hsize
    exact absurd hsize (by decide +kernel)

end WiseSdk.Heap
