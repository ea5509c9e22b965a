import WiseSdk.Heap.Part

/-!
# The pieces of a heap, as the headers show them

A free list is what the C code walks from a list head to an end marker (`FreeList`).  The
pieces of a heap (`pieces`) are its non-empty free blocks, its blocks handed out and the
markers that close its regions, each as long as its header says.

The invariant of a list says that its pieces are the cells of its layout
(`Part.pieces_perm`), so they inherit what is known of cells: they do not overlap and leave
nothing of the regions out.
-/

namespace WiseSdk.Heap

open Library List

/-- A free list: the nodes from the head to the end marker, in strictly ascending order. -/
structure FreeList (h : HeapState) (dma : Bool) (nodes : List ℕ) : Prop where
  walk : Segment h.nextOf (h.start dma).pxNextFreeBlock nodes (h.pxBlockEnd dma)
  ends : h.mem (h.pxBlockEnd dma) = ⟨0, 0⟩
  ascending : (nodes ++ [h.pxBlockEnd dma]).Pairwise (· < ·)

def HeapState.sizeOf (h : HeapState) (a : ℕ) : ℕ := (h.mem a).xBlockSize

def headerOf (pv : ℕ) : ℕ := pv - heapStructSize

def liveExtent (h : HeapState) (pv : ℕ) : Extent :=
  ⟨headerOf pv, headerOf pv + (h.sizeOf (headerOf pv) - blockAllocatedBit)⟩

/-- The pieces of a heap: non-empty free blocks, blocks handed out and the markers of its
regions. -/
def pieces (h : HeapState) (nodes live : List ℕ) (regions : List Extent) : List Extent :=
  (nodes.filter fun a => h.sizeOf a ≠ 0).map (fun a => ⟨a, a + h.sizeOf a⟩) ++
    (live.map (liveExtent h) ++ regions.map (Extent.closing heapStructSize))

theorem FreeList.nodes_eq {h : HeapState} {dma : Bool} {nodes l : List ℕ}
    (hlist : FreeList h dma nodes)
    (hwalk : Segment h.nextOf (h.start dma).pxNextFreeBlock l (h.pxBlockEnd dma))
    (hend : h.pxBlockEnd dma ∉ l) : nodes = l := by
  refine hlist.walk.unique hwalk (fun hmem => ?_) hend
  have hlt := (pairwise_append.mp hlist.ascending).2.2 _ hmem _ (mem_singleton_self _)
  exact Nat.lt_irrefl _ hlt

theorem pieces_append_perm (h : HeapState) (nodes nodes' : List ℕ) {live live₁ live₂ : List ℕ}
    (regions regions' : List Extent) (hlive : live.Perm (live₁ ++ live₂)) :
    (pieces h (nodes ++ nodes') live (regions ++ regions')).Perm
      (pieces h nodes live₁ regions ++ pieces h nodes' live₂ regions') := by
  have hmap := hlive.map (liveExtent h)
  rw [perm_iff_count] at hmap ⊢
  intro e
  have := hmap e
  simp only [pieces, filter_append, map_append, count_append] at this ⊢
  omega

section Part

variable {h : HeapState} {dma : Bool} {mark : ℕ → Prop} {regions : List Extent}
  {cells : List Cell}

section

variable (hpart : Part h dma mark regions cells)

include hpart

theorem Part.freeList : FreeList h dma (entries cells) := by
  obtain ⟨r, rs, -, hl⟩ := hpart.laid.laid
  refine ⟨hpart.list.walk, hpart.list.endMarker, ?_⟩
  refine pairwise_append.mpr ⟨entries_ascending (by decide) hl,
    pairwise_singleton _ _, fun a ha b hb => ?_⟩
  obtain rfl := mem_singleton.mp hb
  exact entries_lt_last (by decide) hl a ha

/-- **The pieces are the cells.** -/
theorem Part.pieces_perm {live : List ℕ}
    (hlive : live.Perm ((liveCells cells).map fun c => c.addr + heapStructSize)) :
    (pieces h (entries cells) live regions).Perm
      (extents heapStructSize (h.pxBlockEnd dma) cells) := by
  obtain ⟨r, rs, -, hl⟩ := hpart.laid.laid
  have hfree : ((entries cells).filter fun a => h.sizeOf a ≠ 0).map
      (fun a => (⟨a, a + h.sizeOf a⟩ : Extent)) = (freeCells cells).map Cell.extent :=
    filter_entries h.sizeOf hpart.list.sizes fun c hc =>
      Nat.lt_of_lt_of_le (by decide) (hl.header_le c hc)
  have hheaders : (liveCells cells).map (liveExtent h ∘ fun c => c.addr + heapStructSize) =
      (liveCells cells).map Cell.extent := by
    refine map_congr_left fun c hc => ?_
    have hheader : h.sizeOf c.addr = c.size + blockAllocatedBit := (hpart.live c hc).1
    simp [liveExtent, headerOf, hheader, Cell.extent]
  have hextents := hlive.map (liveExtent h)
  rw [map_map, hheaders] at hextents
  rw [pieces, hfree]
  exact ((hextents.append_right _).append_left _).trans hpart.laid.extents_perm.symm

theorem Part.sum_sizes : ((entries cells).map h.sizeOf).sum = freeBytes cells :=
  sum_entries h.sizeOf hpart.list.sizes

end

end Part

end WiseSdk.Heap
