import WiseSdk.Heap.Separate

/-!
# Allocation is complete and first-fit

`FirstFit h n lists h' pv` is what an allocation of `n` bytes should make of a heap: it returns a
block exactly if one of the free lists has one large enough, the lowest one of the first list that
has one, and without a block nothing changes.

`allocation_first_fit`: in every state a run over separate, usable regions reaches, `p_pvPortMalloc`
is first-fit over the main list and then the DMA list, and `pvPortMallocDMA` over the DMA list, for
every request that is not empty; an empty one gets no block and changes nothing. `first_fit_fails`
shows that neither condition can be left out.
-/

namespace WiseSdk.Heap

open Library List Option

/-! ## What an allocation should do -/

/-- The bytes a request needs: its size rounded up to the alignment, and a header. -/
def neededBytes (n : ℕ) : ℕ :=
  (n + (byteAlignment - 1)) / byteAlignment * byteAlignment + heapStructSize

def Fits (h : HeapState) (n x : ℕ) : Prop := neededBytes n ≤ h.sizeOf x
deriving Decidable

/-- **A first-fit allocation** of `n` bytes from free lists in order of preference: the heap after
it and the pointer. -/
structure FirstFit (h : HeapState) (n : ℕ) (lists : List (List ℕ)) (h' : HeapState) (pv : ℕ) :
    Prop where
  complete : pv ≠ 0 ↔ ∃ nodes ∈ lists, ∃ x ∈ nodes, Fits h n x
  lowest : pv ≠ 0 → ∃ skipped nodes rest, lists = skipped ++ nodes :: rest ∧
    (∀ l ∈ skipped, ∀ x ∈ l, ¬Fits h n x) ∧
    ∃ x, IsLeast {x | x ∈ nodes ∧ Fits h n x} x ∧ pv = x + heapStructSize
  room : pv ≠ 0 → n + heapStructSize ≤ h'.sizeOf (headerOf pv) - blockAllocatedBit
  null : pv = 0 → h' = h

/-- Both allocators return from a request of `n` bytes and are first-fit. -/
def AllocatesFirstFit (h : HeapState) (n : ℕ) : Prop :=
  ∃ mainNodes dmaNodes, FreeList h false mainNodes ∧ FreeList h true dmaNodes ∧
    (∃ h' pv, pvPortMalloc h n = some (h', pv) ∧ FirstFit h n [mainNodes, dmaNodes] h' pv) ∧
    ∃ h' pv, pvPortMallocDMA h n = some (h', pv) ∧ FirstFit h n [dmaNodes] h' pv

section Lists

variable {h h' : HeapState} {n pv x : ℕ} {nodes : List ℕ} {lists : List (List ℕ)}

theorem firstFit_null (hnone : ∀ nodes ∈ lists, ∀ x ∈ nodes, ¬Fits h n x) :
    FirstFit h n lists h 0 := by
  refine ⟨⟨fun hne => absurd rfl hne, ?_⟩, fun hne => absurd rfl hne,
    fun hne => absurd rfl hne, fun _ => rfl⟩
  rintro ⟨nodes, hnodes, x, hx, hfits⟩
  exact absurd hfits (hnone nodes hnodes x hx)

/-- A list without a block large enough is passed over. -/
theorem FirstFit.skip (hfirst : FirstFit h n lists h' pv) (hnone : ∀ x ∈ nodes, ¬Fits h n x) :
    FirstFit h n (nodes :: lists) h' pv := by
  refine ⟨hfirst.complete.trans ⟨?_, ?_⟩, fun hne => ?_, hfirst.room, hfirst.null⟩
  · rintro ⟨l, hl, hfits⟩
    exact ⟨l, mem_cons_of_mem _ hl, hfits⟩
  · rintro ⟨l, hl, x, hx, hfits⟩
    rcases mem_cons.mp hl with rfl | hl
    · exact absurd hfits (hnone x hx)
    · exact ⟨l, hl, x, hx, hfits⟩
  · obtain ⟨skipped, l, rest, rfl, hskipped, hleast⟩ := hfirst.lowest hne
    refine ⟨nodes :: skipped, l, rest, rfl, fun l' hl' => ?_, hleast⟩
    rcases mem_cons.mp hl' with rfl | hl'
    · exact hnone
    · exact hskipped l' hl'

/-- The lowest block of the first list. -/
theorem firstFit_of_isLeast (hleast : IsLeast {x | x ∈ nodes ∧ Fits h n x} x)
    (hroom : n + heapStructSize + blockAllocatedBit ≤ h'.sizeOf x) :
    FirstFit h n (nodes :: lists) h' (x + heapStructSize) := by
  have hne : x + heapStructSize ≠ 0 := by simp [heapStructSize]
  have hheader : headerOf (x + heapStructSize) = x := Nat.add_sub_cancel ..
  refine ⟨iff_of_true hne ⟨nodes, mem_cons_self, x, hleast.1⟩,
    fun _ => ⟨[], nodes, lists, rfl, by simp, x, hleast, rfl⟩, fun _ => ?_,
    fun h0 => absurd h0 hne⟩
  rw [hheader]
  omega

end Lists

/-! ## One list -/

theorem wantedSize_eq {n : ℕ} (hpos : 0 < n) (hn : n < blockAllocatedBit) :
    wantedSize n = neededBytes n := by
  have hu : u32 (n + heapStructSize) = n + heapStructSize :=
    u32_of_lt (by simp only [blockAllocatedBit, heapStructSize] at *; omega)
  simp only [wantedSize, if_pos hpos, hu, neededBytes]
  split
  · simp only [blockAllocatedBit, heapStructSize, byteAlignment] at *
    rw [u32_of_lt (by omega)]
    omega
  · simp only [heapStructSize, byteAlignment] at *
    omega

theorem le_neededBytes (n : ℕ) : n + heapStructSize ≤ neededBytes n := by
  simp only [neededBytes, heapStructSize, byteAlignment]
  omega

section List

variable {h : HeapState} {dma : Bool} {mark : ℕ → Prop} {regions : List Extent} {cells : List Cell}
  {n x s : ℕ}

/-- The entries large enough for a request are free cells that are. -/
theorem Part.fits_iff (hpart : Part h dma mark regions cells) : x ∈ entries cells ∧ Fits h n x ↔
      ∃ c ∈ cells, c.kind = .free ∧ c.addr = x ∧ neededBytes n ≤ c.size := by
  constructor
  · rintro ⟨hx, hfits⟩
    have hne : h.sizeOf x ≠ 0 := by
      have := le_neededBytes n
      simp only [Fits, heapStructSize] at this hfits
      omega
    obtain ⟨c, hc, hkind, rfl, hsize⟩ := free_of_entry h.sizeOf hpart.list.sizes hx hne
    exact ⟨c, hc, hkind, rfl, le_of_le_of_eq hfits hsize.symm⟩
  · rintro ⟨c, hc, hkind, rfl, hle⟩
    have hlinked : c.linked := by simp [Cell.linked, hkind]
    have hsize : h.sizeOf c.addr = c.size := by
      rw [HeapState.sizeOf, hpart.list.sizes c hc hlinked]
      simp [Cell.linkSize, hkind]
    exact ⟨mem_entries.mpr ⟨c, hc, hlinked, rfl⟩, hle.trans_eq hsize.symm⟩

theorem Part.not_fits (hpart : Part h dma mark regions cells)
    (hsmall : ∀ c ∈ cells, c.kind = .free → c.size < neededBytes n) :
    ∀ x ∈ entries cells, ¬Fits h n x := by
  intro x hx hfits
  obtain ⟨c, hc, hkind, -, hle⟩ := hpart.fits_iff.mp ⟨hx, hfits⟩
  have := hsmall c hc hkind
  omega

/-- **The first free cell that is large enough is the lowest one.** -/
theorem Part.isLeast_fits {pre post : List Cell}
    (hpart : Part h dma mark regions (pre ++ ⟨.free, x, s⟩ :: post)) (hs : neededBytes n ≤ s)
    (hsmall : ∀ c ∈ pre, c.kind = .free → c.size < neededBytes n) :
    IsLeast {y | y ∈ entries (pre ++ ⟨.free, x, s⟩ :: post) ∧ Fits h n y} x := by
  obtain ⟨r, rs, -, hl⟩ := hpart.laid.laid
  refine ⟨hpart.fits_iff.mpr ⟨⟨.free, x, s⟩, by simp, rfl, rfl, hs⟩, fun y hy => ?_⟩
  obtain ⟨c, hc, hkind, rfl, hle⟩ := hpart.fits_iff.mp hy
  rcases mem_append.mp hc with hc | hc
  · have := hsmall c hc hkind
    omega
  · rcases mem_cons.mp hc with rfl | hc
    · exact le_rfl
    · have hafter : x + s ≤ c.addr := hl.after hc
      omega

/-- **Allocating from one list**: a block is taken first-fit, or none is large enough and nothing
changes. -/
theorem takeFound_firstFit (hfit : RegionsFit regions) (hpart : Part h dma mark regions cells)
    (hmark : mark (if dma then dmaBufferMark else 0)) (lists : List (List ℕ)) :
    (∃ loc, searchFrom h dma (neededBytes n) = some (loc, h.pxBlockEnd dma) ∧
      takeFound h dma (neededBytes n) (searchFrom h dma (neededBytes n)) = some (h, 0) ∧
      ∀ x ∈ entries cells, ¬Fits h n x) ∨
    ∃ loc x h', searchFrom h dma (neededBytes n) = some (loc, x) ∧ x ≠ h.pxBlockEnd dma ∧
      takeFound h dma (neededBytes n) (searchFrom h dma (neededBytes n)) =
        some (h', x + heapStructSize) ∧
      FirstFit h n (entries cells :: lists) h' (x + heapStructSize) := by
  have hneed := le_neededBytes n
  rcases takeFound_spec hfit hpart hmark (w := neededBytes n) (by omega) with
    ⟨loc, hsearch, htake, hsmall⟩ |
    ⟨pre, x, s, post, h', rfl, hws, hsmall, hsearch, hx, htake, hpart', -, -, -⟩
  · exact .inl ⟨loc, hsearch, htake, hpart.not_fits hsmall⟩
  · refine .inr ⟨_, x, h', hsearch, hx, htake,
      firstFit_of_isLeast (hpart.isLeast_fits hws hsmall) ?_⟩
    -- The block handed out has at least the bytes wanted.
    have hcarved := le_carvedSize heapMinimumBlockSize hws
    have hheader := (hpart'.live ⟨.live, x, carvedSize heapMinimumBlockSize (neededBytes n) s⟩
      (by simp)).1
    simp only [HeapState.sizeOf] at hheader ⊢
    omega

theorem Part.fits_le (hfit : RegionsFit regions) (hpart : Part h dma mark regions cells)
    (hx : x ∈ entries cells) (hfits : Fits h n x) :
    neededBytes n ≤ freeBytes cells ∧ neededBytes n < blockAllocatedBit := by
  obtain ⟨c, hc, hkind, -, hle⟩ := hpart.fits_iff.mp ⟨hx, hfits⟩
  have hlt := size_lt_of_fit hfit hpart.laid hc (by simp [Cell.isBlock, hkind])
  obtain ⟨pre, post, rfl⟩ := append_of_mem hc
  obtain ⟨k, a, s⟩ := c
  obtain rfl : k = .free := hkind
  simp only [freeBytes_append, freeBytes_free] at hle hlt ⊢
  omega

end List

/-! ## Both allocators -/

section Allocators

variable {regions : Bool → List Extent} {w : World} {cells : Bool → List Cell} {n : ℕ}

theorem Separate.not_fits (hr : RegionsApart regions) (hinv : Separate regions w cells)
    (hpos : 0 < n) (hn : ¬Searched w.heap n) (dma : Bool) :
    ∀ x ∈ entries (cells dma), ¬Fits w.heap n x := by
  intro x hx hfits
  obtain ⟨hle, hlt⟩ := (hinv.part dma).fits_le (hr.fit dma) hx hfits
  have hneed := le_neededBytes n
  have hnlt : n < blockAllocatedBit := by omega
  refine hn ⟨hnlt, ?_, ?_⟩
  · rw [wantedSize_eq hpos hnlt]
    omega
  · rw [wantedSize_eq hpos hnlt, hinv.bytes]
    cases dma <;> omega

/-- **Both allocators are first-fit** in a state with the invariant. -/
theorem Separate.allocatesFirstFit (hr : RegionsApart regions) (hinv : Separate regions w cells)
    (hpos : 0 < n) : AllocatesFirstFit w.heap n := by
  have hend := hinv.pxEnd_ne_zero hr
  refine ⟨entries (cells false), entries (cells true), (hinv.part false).freeList,
    (hinv.part true).freeList, ?_⟩
  simp only [pvPortMalloc, pvPortMallocDMA, if_neg hend]
  by_cases hn : Searched w.heap n
  · simp only [if_pos hn, wantedSize_eq hpos hn.1]
    -- What the DMA list gives, whether it is searched first or second.
    have hdma : ∃ h' pv, WiseSdk.Heap.takeFound w.heap true (neededBytes n)
        (searchFrom w.heap true (neededBytes n)) = some (h', pv) ∧
        FirstFit w.heap n [entries (cells true)] h' pv := by
      rcases takeFound_firstFit (hr.fit true) (hinv.part true) rfl (n := n) [] with
        ⟨loc, -, htake, hnone⟩ | ⟨loc, x, h', -, -, htake, hfirst⟩
      · exact ⟨_, _, htake, firstFit_null (by simpa using hnone)⟩
      · exact ⟨_, _, htake, hfirst⟩
    refine ⟨?_, hdma⟩
    rcases takeFound_firstFit (hr.fit false) (hinv.part false) rfl (n := n)
        [entries (cells true)] with
      ⟨loc, hsearch, -, hnone⟩ | ⟨loc, x, h', hsearch, hx, htake, hfirst⟩
    · obtain ⟨h', pv, htake, hfirst⟩ := hdma
      refine ⟨h', pv, ?_, hfirst.skip hnone⟩
      simp only [hsearch]
      rw [if_pos ⟨rfl, hinv.pxEndDMA_ne hr⟩, htake]
    · refine ⟨h', _, ?_, hfirst⟩
      rw [hsearch] at htake
      simp only [hsearch]
      rw [if_neg fun h => hx h.1, htake]
  · simp only [if_neg hn]
    have hnone := hinv.not_fits hr hpos hn
    exact ⟨⟨_, _, rfl, firstFit_null (by simpa using ⟨hnone false, hnone true⟩)⟩,
      ⟨_, _, rfl, firstFit_null (by simpa using hnone true)⟩⟩

theorem pvPortMalloc_zero (hend : h.pxEnd ≠ 0) :
    pvPortMalloc h 0 = some (h, 0) ∧ pvPortMallocDMA h 0 = some (h, 0) := by
  have hn : ¬Searched h 0 := by simp [Searched, wantedSize]
  simp only [pvPortMalloc, pvPortMallocDMA, if_neg hend, if_neg hn, and_self]

end Allocators

/-- **Allocation is complete and first-fit.** The regions are usable, and those of the DMA list
other memory; in every state that a run of allocations and legal frees reaches, both allocators
serve every request that is not empty first-fit, and answer an empty one with null, with nothing
changed. -/
theorem allocation_first_fit (mem : ℕ → BlockLink) (main dma : List HeapRegion) (h : HeapState)
    (hmain : ∀ r ∈ main, r.Usable) (hdma : ∀ r ∈ dma, r.Usable)
    (hapart : ∀ r ∈ main, ∀ s ∈ dma, r.extent.Apart s.extent)
    (hsep : ∀ h₀, vPortDefineHeapRegions (reset mem) main = some h₀ →
      ¬xPortHeapRegionsIsSame h₀ dma)
    (hdef : defineHeaps mem main dma = some h) (calls : List HeapCall)
    (hcalls : StepsMeet heapStep FreesLive ⟨h, []⟩ calls) :
    ∃ w, runSteps heapStep ⟨h, []⟩ calls = some w ∧ (∀ n, 0 < n → AllocatesFirstFit w.heap n) ∧
      pvPortMalloc w.heap 0 = some (w.heap, 0) ∧ pvPortMallocDMA w.heap 0 = some (w.heap, 0) := by
  obtain ⟨w, hrun, cells, hinv⟩ := separate_run hmain hdma hapart hsep hdef hcalls
  have hr := regionsApart_aligned hmain hdma hapart
  exact ⟨w, hrun, fun n hpos => hinv.allocatesFirstFit hr hpos,
    pvPortMalloc_zero (hinv.pxEnd_ne_zero hr)⟩

/-- After a run over the sample regions that splits, coalesces and falls back to the DMA
list. -/
theorem allocation_first_fit_sample :
    defineHeaps clearMemory sampleMain sampleDMA = some sampleHeap ∧
      ∃ w, runSteps heapStep ⟨sampleHeap, []⟩ sampleCalls = some w ∧
        (∀ n, 0 < n → AllocatesFirstFit w.heap n) ∧
          pvPortMalloc w.heap 0 = some (w.heap, 0) ∧
          pvPortMallocDMA w.heap 0 = some (w.heap, 0) := by
  have hdef : defineHeaps clearMemory sampleMain sampleDMA = some sampleHeap :=
    (some_get _).symm
  exact ⟨hdef, allocation_first_fit clearMemory sampleMain sampleDMA sampleHeap (by decide)
    (by decide) (by decide) sample_not_same hdef sampleCalls (by decide +kernel)⟩

/-! ## Requests and regions that break it -/

/-- Both definitions accept the regions, apart and in two lists, and the first request is not served
first-fit. -/
def FailsFirstFit (main dma : List HeapRegion) (n : ℕ) : Prop :=
  ∃ h, defineHeaps clearMemory main dma = some h ∧
    (∀ r ∈ main, ∀ s ∈ dma, r.extent.Apart s.extent) ∧
    (∀ h₀, vPortDefineHeapRegions (reset clearMemory) main = some h₀ →
      ¬xPortHeapRegionsIsSame h₀ dma) ∧
    ¬AllocatesFirstFit h n

theorem failsFirstFit_of_checks {main dma : List HeapRegion} {n : ℕ} {w : World}
    (hw : (defineHeaps clearMemory main dma).bind (fun h => runSteps heapStep ⟨h, []⟩ []) = some w)
    (hapart : ∀ r ∈ main, ∀ s ∈ dma, r.extent.Apart s.extent)
    (hsep : (vPortDefineHeapRegions (reset clearMemory) main).all
      fun h₀ => decide ¬xPortHeapRegionsIsSame h₀ dma)
    (hnot : ¬AllocatesFirstFit w.heap n) : FailsFirstFit main dma n := by
  obtain ⟨h, hdef, hrun⟩ := bind_eq_some_iff.mp hw
  obtain rfl : (⟨h, []⟩ : World) = w := by simpa [runSteps] using hrun
  refine ⟨h, hdef, hapart, fun h₀ hdef₀ hsame => ?_, hnot⟩
  rw [hdef₀] at hsep
  simp [hsame] at hsep

theorem not_allocatesFirstFit {h : HeapState} {n x : ℕ} {l : List ℕ} (hend : h.pxEnd ≠ 0)
    (hn : ¬Searched h n)
    (hwalk : Segment h.nextOf (h.start false).pxNextFreeBlock l (h.pxBlockEnd false))
    (hlast : h.pxBlockEnd false ∉ l) (hx : x ∈ l) (hfits : Fits h n x) :
    ¬AllocatesFirstFit h n := by
  rintro ⟨mainNodes, dmaNodes, hmain, -, ⟨h', pv, halloc, hfirst⟩, -⟩
  obtain rfl := hmain.nodes_eq hwalk hlast
  simp only [pvPortMalloc, if_neg hend, if_neg hn, some.injEq, Prod.mk.injEq] at halloc
  exact hfirst.complete.mpr ⟨_, mem_cons_self, x, hx, hfits⟩ halloc.2.symm

/-- The heap over the region whose block has the top bit of its size set. -/
def hugeHeap : World := (worldAfter hugeMain []).get (by decide +kernel)

/-- **Where allocation is not first-fit.** An empty request gets no block although a header would
fit; over a region whose block has the top bit of its size set, a request with room is refused; over
a region without room for a block the list does not end; and over one that wraps around the address
space it does not ascend. -/
theorem first_fit_fails : FailsFirstFit sampleMain sampleDMA 0 ∧
    FailsFirstFit hugeMain otherDMA 0x80000010 ∧ FailsFirstFit tinyMain otherDMA 0x200 ∧
    FailsFirstFit wrappingMain otherDMA 16 := by
  refine ⟨?_, ?_, ?_, ?_⟩
  · refine failsFirstFit_of_checks (w := ⟨sampleHeap, []⟩) (by rfl) (by decide)
      (by decide +kernel) ?_
    exact not_allocatesFirstFit (l := [0x1010, 0x11F0, 0x2000]) (x := 0x1010) (by decide +kernel)
      (by decide +kernel) (by decide +kernel) (by decide +kernel) (by decide) (by decide +kernel)
  · refine failsFirstFit_of_checks (w := hugeHeap) (some_get _).symm (by decide)
      (by decide +kernel) ?_
    exact not_allocatesFirstFit (l := [0x1000]) (x := 0x1000) (by decide +kernel)
      (by decide +kernel) (by decide +kernel) (by decide +kernel) (by decide) (by decide +kernel)
  · refine failsFirstFit_of_checks (w := tinyWorld) (some_get _).symm (by decide)
      (by decide +kernel) ?_
    rintro ⟨mainNodes, dmaNodes, hmain, -⟩
    exact absurd hmain.ends (by decide +kernel)
  · refine failsFirstFit_of_checks (w := wrappingWorld) (some_get _).symm (by decide)
      (by decide +kernel) ?_
    rintro ⟨mainNodes, dmaNodes, hmain, -⟩
    obtain rfl := hmain.nodes_eq (l := [0xFFFFFF00]) (by decide +kernel) (by decide +kernel)
    exact absurd hmain.ascending (by decide +kernel)

end WiseSdk.Heap
