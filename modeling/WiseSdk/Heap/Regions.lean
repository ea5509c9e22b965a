import WiseSdk.Heap.Part

/-!
# Defining the regions of a list

`HeapRegion.aligned` is the part of a region the allocator can use, and `HeapRegion.Usable` says
when it can: the region lies in the address space, has room for a block and the closing marker, and
its first block does not reach the top bit of a size. None of this is checked.

`defineRegion_building` is one round of the loop over the regions: the list built so far gets the
old end marker as an empty entry and the new region as one free block. `define_part` and
`defineDMA_part` follow.
-/

namespace WiseSdk.Heap

open Library List Function

/-! ## The aligned part of a region -/

namespace HeapRegion

def extent (r : HeapRegion) : Extent :=
  ⟨r.pucStartAddress, r.pucStartAddress + r.xSizeInBytes⟩

/-- The bytes between the first and the last aligned address of the region. -/
def aligned (r : HeapRegion) : Extent :=
  ⟨(r.pucStartAddress + 15) / 16 * 16, (r.pucStartAddress + r.xSizeInBytes) / 16 * 16⟩

/-- **What the allocator needs of a region**, and does not check. -/
structure Usable (r : HeapRegion) : Prop where
  inSpace : r.pucStartAddress + r.xSizeInBytes ≤ 2 ^ 32
  room : r.aligned.lo + 2 * heapStructSize ≤ r.aligned.hi
  topBit : r.aligned.hi < r.aligned.lo + blockAllocatedBit + heapStructSize

instance (r : HeapRegion) : Decidable r.Usable :=
  decidable_of_iff (_ ∧ _ ∧ _) ⟨fun ⟨h₁, h₂, h₃⟩ => ⟨h₁, h₂, h₃⟩, fun ⟨h₁, h₂, h₃⟩ => ⟨h₁, h₂, h₃⟩⟩

variable {r : HeapRegion}

theorem aligned_subset (r : HeapRegion) :
    r.extent.lo ≤ r.aligned.lo ∧ r.aligned.hi ≤ r.extent.hi := by
  simp only [aligned, extent]
  omega

theorem alignUp_eq (hr : r.Usable) : alignUp r.pucStartAddress = r.aligned.lo := by
  have hroom := hr.room
  have hspace := hr.inSpace
  simp only [aligned, heapStructSize] at hroom ⊢
  rw [alignUp]
  split_ifs with hmod
  · simp only [alignDown, u32, byteAlignment] at *
    omega
  · simp only [byteAlignment] at hmod
    omega

theorem regionEnd_eq (hr : r.Usable) :
    regionEnd r + heapStructSize = r.aligned.hi := by
  have hroom := hr.room
  have hspace := hr.inSpace
  simp only [regionEnd, alignUp_eq hr]
  simp only [sub32, u32, alignDown, byteAlignment, aligned, heapStructSize] at *
  omega

end HeapRegion

theorem regionsFit_aligned {regions : List HeapRegion} (h : ∀ r ∈ regions, r.Usable) :
    RegionsFit (regions.map HeapRegion.aligned) := by
  intro e he
  obtain ⟨r, hr, rfl⟩ := mem_map.mp he
  refine ⟨?_, (h r hr).room, (h r hr).topBit⟩
  have hsub := (HeapRegion.aligned_subset r).2
  have := (h r hr).inSpace
  simp only [HeapRegion.extent] at hsub
  omega

/-! ## The loop over the regions -/

/-- The list after some rounds: a layout of the regions so far without a block handed out. -/
structure Building (d : RegionList) (regions : List Extent) (cells : List Cell) : Prop where
  laid : LaidOver heapStructSize d.pxEnd regions cells
  coalesced : Coalesced cells
  walk : Segment (fun a => (d.mem a).pxNextFreeBlock) d.start.pxNextFreeBlock (entries cells)
    d.pxEnd
  sizes : ∀ c ∈ cells, c.linked → (d.mem c.addr).xBlockSize = c.linkSize
  endMarker : d.mem d.pxEnd = ⟨0, 0⟩
  noLive : liveCells cells = []
  total : d.xTotalHeapSize = freeBytes cells
  aligned : d.pxEnd % 16 = 0
  defined : d.xDefinedRegions ≠ 0

section Loop

variable {d d' : RegionList} {regions : List Extent} {cells : List Cell} {r : HeapRegion}
  {rs : List HeapRegion}

theorem region_block (hr : r.Usable) :
    alignUp r.pucStartAddress = r.aligned.lo ∧ r.aligned.lo + 16 ≤ regionEnd r ∧
      regionEnd r + 16 = r.aligned.hi ∧ regionEnd r < 2 ^ 32 ∧ regionEnd r % 16 = 0 ∧
      sub32 (regionEnd r) r.aligned.lo = regionEnd r - r.aligned.lo := by
  have hend : regionEnd r + 16 = r.aligned.hi := HeapRegion.regionEnd_eq hr
  have hroom := hr.room
  have hspace := hr.inSpace
  have hsub := (HeapRegion.aligned_subset r).2
  have hmod : r.aligned.hi % 16 = 0 := by
    simp only [HeapRegion.aligned]
    omega
  simp only [heapStructSize, HeapRegion.extent] at hroom hsub
  have hlt : regionEnd r < 2 ^ 32 := by omega
  exact ⟨HeapRegion.alignUp_eq hr, by omega, hend, hlt, by omega,
    sub32_of_le (by omega) hlt⟩

/-- **The first region** makes a list of one free block. -/
theorem defineRegion_first (hr : r.Usable) (start : BlockLink) (mem : ℕ → BlockLink) :
    ∃ d', defineRegion ⟨start, 0, mem, 0, 0⟩ r = some d' ∧
      Building d' [r.aligned] [⟨.free, r.aligned.lo, regionEnd r - r.aligned.lo⟩] ∧
      d'.start = ⟨r.aligned.lo, 0⟩ ∧ ∀ y, ¬InRegions [r.aligned] y → d'.mem y = mem y := by
  obtain ⟨hup, hroom, hhi, hlt, hmod, hsize⟩ := region_block hr
  refine ⟨_, rfl, ⟨LaidOver.single hroom hhi, isChain_singleton _, ?_, ?_, ?_, rfl, ?_,
    hmod, Nat.one_ne_zero⟩, ?_, fun y hy => ?_⟩
  · simp only [hup, hsize]
    exact ⟨rfl, by simp⟩
  · intro c hc _
    obtain rfl := mem_singleton.mp hc
    simp [hup, hsize, Cell.linkSize]
  · have hne : regionEnd r ≠ r.aligned.lo := by omega
    simp [hup, hne]
  · simp only [hup, hsize, freeBytes_free, freeBytes_nil, Nat.zero_add, Nat.add_zero]
    exact u32_of_lt (by omega)
  · simp [hup]
  · have hlo : y ≠ r.aligned.lo := by
      rintro rfl
      exact hy ⟨r.aligned, by simp, le_rfl, by omega⟩
    have hend : y ≠ regionEnd r := by
      rintro rfl
      exact hy ⟨r.aligned, by simp, by omega, by omega⟩
    simp [hup, hlo, hend]

def linkRegion (mem : ℕ → BlockLink) (pxEnd : ℕ) (r : HeapRegion) : ℕ → BlockLink :=
  update
    (update (update mem (regionEnd r) ⟨0, 0⟩) r.aligned.lo
      ⟨regionEnd r, regionEnd r - r.aligned.lo⟩)
    pxEnd ⟨r.aligned.lo, 0⟩

theorem defineRegion_next (hd : Building d regions cells) (hr : r.Usable)
    (hdef : defineRegion d r = some d') :
    d.pxEnd + 16 ≤ r.aligned.lo ∧ d' = ⟨d.start, regionEnd r, linkRegion d.mem d.pxEnd r,
        u32 (d.xTotalHeapSize + (regionEnd r - r.aligned.lo)), d.xDefinedRegions + 1⟩ := by
  obtain ⟨hup, hroom, -, -, -, hsize⟩ := region_block hr
  have horder : d.pxEnd ≠ 0 ∧ d.pxEnd < r.aligned.lo := by
    by_contra hnot
    have hnone : defineRegion d r = none := by
      simp only [defineRegionWith, hup]
      rw [if_pos ⟨hd.defined, hnot⟩]
    rw [hnone] at hdef
    cases hdef
  have hold : update (update d.mem (regionEnd r) ⟨0, 0⟩) r.aligned.lo
      ⟨regionEnd r, regionEnd r - r.aligned.lo⟩ d.pxEnd = ⟨0, 0⟩ := by
    rw [update_of_ne (by omega), update_of_ne (by omega)]
    exact hd.endMarker
  have hlo : r.aligned.lo % 16 = 0 := by
    simp only [HeapRegion.aligned]
    omega
  have hmod := hd.aligned
  refine ⟨by omega, ?_⟩
  simp only [defineRegionWith, hup, hsize] at hdef
  rw [if_neg (fun h => h.2 horder)] at hdef
  simp only [hold, if_pos horder.1, if_neg hd.defined, Option.some.injEq] at hdef
  exact hdef.symm

/-- **Another region**: the closing marker becomes an empty entry, and the region follows as one
free block. -/
theorem defineRegion_building (hd : Building d regions cells) (hr : r.Usable)
    (hdef : defineRegion d r = some d') :
    ∃ cells', Building d' (regions ++ [r.aligned]) cells' ∧ d'.start = d.start ∧
      ∀ y, ¬InRegions (regions ++ [r.aligned]) y → d'.mem y = d.mem y := by
  obtain ⟨hup, hroom, hhi, hlt, hmod, hsize⟩ := region_block hr
  obtain ⟨hlo, rfl⟩ := defineRegion_next hd hr hdef
  -- The four kinds of headers after the round.
  have hmemEnd : linkRegion d.mem d.pxEnd r (regionEnd r) = ⟨0, 0⟩ := by
    rw [linkRegion, update_of_ne (by omega), update_of_ne (by omega), update_self]
  have hmemLo : linkRegion d.mem d.pxEnd r r.aligned.lo =
      ⟨regionEnd r, regionEnd r - r.aligned.lo⟩ := by
    rw [linkRegion, update_of_ne (by omega), update_self]
  have hmemOld : linkRegion d.mem d.pxEnd r d.pxEnd = ⟨r.aligned.lo, 0⟩ :=
    update_self ..
  have hmem : ∀ y, y ≠ d.pxEnd → y ≠ r.aligned.lo → y ≠ regionEnd r →
      linkRegion d.mem d.pxEnd r y = d.mem y := fun y h₁ h₂ h₃ => by
    rw [linkRegion, update_of_ne h₁, update_of_ne h₂, update_of_ne h₃]
  obtain ⟨r₀, rs, -, hl⟩ := hd.laid.laid
  have hbelow := entries_lt_last (by decide) hl
  have hlaid := hd.laid.extend hlo hroom hhi
  refine ⟨_, ⟨hlaid, ?_, ?_, fun c hc hlinked => ?_, hmemEnd, ?_, ?_, hmod, by simp⟩, rfl,
    fun y hy => ?_⟩
  · refine isChain_append.mpr ⟨hd.coalesced, by simp, fun c _ f hf hfree => ?_⟩
    obtain rfl : ⟨.marker true, d.pxEnd, heapStructSize⟩ = f := by simpa using hf
    simp at hfree
  · simp only [entries_append, entries_marker_true, entries_free, entries_nil]
    refine segment_append_cons.mpr ⟨hd.walk.congr fun y hy => ?_, ?_⟩
    · have := hbelow y hy
      rw [hmem y (by omega) (by omega) (by omega)]
    · simp [hmemOld, hmemLo]
  · simp only [mem_append, mem_cons, mem_nil_iff, or_false] at hc
    rcases hc with hc | rfl | rfl
    · have := hbelow c.addr (mem_entries.mpr ⟨c, hc, hlinked, rfl⟩)
      simp only
      rw [hmem c.addr (by omega) (by omega) (by omega)]
      exact hd.sizes c hc hlinked
    · simp only [hmemOld, Cell.linkSize]
    · simp only [hmemLo, Cell.linkSize]
  · simp [hd.noLive]
  · have hbytes := hlaid.freeBytes_le
    simp only [freeBytes_append, freeBytes_marker, freeBytes_free, freeBytes_nil,
      Nat.add_zero] at hbytes ⊢
    rw [hd.total]
    exact u32_of_lt (by omega)
  · have hin := fun c hc => hlaid.addr_inRegions (c := c) (by decide) hc
    refine hmem y (fun h => hy ?_) (fun h => hy ?_) fun h => hy ?_
    · exact h ▸ hin ⟨.marker true, d.pxEnd, heapStructSize⟩ (by simp)
    · exact h ▸ hin ⟨.free, r.aligned.lo, regionEnd r - r.aligned.lo⟩ (by simp)
    · exact h ▸ hlaid.last_inRegions (by decide)

/-- **The whole loop** over usable regions. -/
theorem foldlM_building (hd : Building d regions cells) (hrs : ∀ r ∈ rs, r.Usable)
    (hdef : rs.foldlM defineRegion d = some d') :
    ∃ cells', Building d' (regions ++ rs.map HeapRegion.aligned) cells' ∧ d'.start = d.start ∧
      ∀ y, ¬InRegions (regions ++ rs.map HeapRegion.aligned) y → d'.mem y = d.mem y := by
  induction rs generalizing d regions cells with
  | nil =>
    cases hdef
    exact ⟨cells, by simpa using hd, rfl, fun _ _ => rfl⟩
  | cons r rs ih =>
    obtain ⟨d₁, hd₁, hdef⟩ := Option.bind_eq_some_iff.mp hdef
    obtain ⟨cells₁, hb₁, hstart₁, hmem₁⟩ :=
      defineRegion_building hd (hrs r (by simp)) hd₁
    obtain ⟨cells', hb', hstart', hmem'⟩ := ih hb₁ (fun r hr => hrs r (by simp [hr])) hdef
    rw [append_assoc, singleton_append] at hb' hmem'
    refine ⟨cells', hb', hstart'.trans hstart₁, fun y hy => ?_⟩
    rw [hmem' y hy, hmem₁ y fun ⟨e, he, hc⟩ => hy ⟨e, ?_, hc⟩]
    rcases mem_append.mp he with he | he
    · exact mem_append_left _ he
    · obtain rfl := mem_singleton.mp he
      simp

theorem foldlM_building_init {start : BlockLink} {mem : ℕ → BlockLink} (hrs : ∀ r ∈ rs, r.Usable)
    (hne : rs ≠ [])
    (hdef : rs.foldlM defineRegion ⟨start, 0, mem, 0, 0⟩ = some d) :
    ∃ cells, Building d (rs.map HeapRegion.aligned) cells ∧
      ∀ y, ¬InRegions (rs.map HeapRegion.aligned) y → d.mem y = mem y := by
  cases rs with
  | nil => exact absurd rfl hne
  | cons r rs =>
    rw [foldlM_cons] at hdef
    obtain ⟨d₁, hd₁, hdef⟩ := Option.bind_eq_some_iff.mp hdef
    obtain ⟨d₂, hd₂, hb₁, -, hmem₁⟩ :=
      defineRegion_first (hrs r (by simp)) start mem
    obtain rfl : d₁ = d₂ := Option.some.inj (hd₁.symm.trans hd₂)
    obtain ⟨cells, hb, -, hmem⟩ := foldlM_building hb₁ (fun r hr => hrs r (by simp [hr])) hdef
    refine ⟨cells, hb, fun y hy => ?_⟩
    rw [hmem y hy, hmem₁ y fun ⟨e, he, hc⟩ => hy ⟨e, ?_, hc⟩]
    obtain rfl := mem_singleton.mp he
    simp

end Loop

/-! ## The two definitions -/

section Define

variable {h h' : HeapState} {mark mark' : ℕ → Prop} {rs : List HeapRegion} {mem : ℕ → BlockLink}
  {regions : List Extent} {cells : List Cell}

theorem building_of_loop {start : BlockLink} {k : RegionList → HeapState} (hrs : ∀ r ∈ rs, r.Usable)
    (hdef : (match rs.foldlM defineRegion ⟨start, 0, mem, 0, 0⟩ with
      | none => none | some d => if d.xTotalHeapSize = 0 then none else some (k d)) = some h) :
    ∃ d cells, h = k d ∧ Building d (rs.map HeapRegion.aligned) cells ∧
      ∀ y, ¬InRegions (rs.map HeapRegion.aligned) y → d.mem y = mem y := by
  cases hfold : rs.foldlM defineRegion ⟨start, 0, mem, 0, 0⟩ with
  | none => simp [hfold] at hdef
  | some d =>
    simp only [hfold] at hdef
    by_cases htotal : d.xTotalHeapSize = 0
    · simp [htotal] at hdef
    rw [if_neg htotal] at hdef
    have hne : rs ≠ [] := by
      rintro rfl
      cases hfold
      exact htotal rfl
    obtain ⟨cells, hb, hmem⟩ := foldlM_building_init hrs hne hfold
    exact ⟨d, cells, (Option.some.inj hdef).symm, hb, hmem⟩

theorem Building.part {d : RegionList} {dma : Bool} (hb : Building d regions cells)
    (hstart : h.start dma = d.start)
    (hend : h.pxBlockEnd dma = d.pxEnd) (hmem : h.mem = d.mem) :
    Part h dma mark regions cells := by
  refine ⟨⟨by rw [hend]; exact hb.laid, hb.coalesced, ⟨?_, ?_, ?_⟩⟩, fun c hc => ?_⟩
  · rw [hstart, hend]
    exact hb.walk.congr fun y _ => by rw [HeapState.nextOf, hmem]
  · rw [hmem]
    exact hb.sizes
  · rw [hend, hmem]
    exact hb.endMarker
  · rw [hb.noLive] at hc
    exact absurd hc (by simp)

/-- **The main list** after its regions are defined. -/
theorem define_part (hrs : ∀ r ∈ rs, r.Usable)
    (hdef : vPortDefineHeapRegions (reset mem) rs = some h) :
    ∃ cells, Part h false mark (rs.map HeapRegion.aligned) cells ∧ liveCells cells = [] ∧
      h.xFreeBytesRemaining = freeBytes cells := by
  obtain ⟨d, cells, rfl, hb, -⟩ := building_of_loop hrs hdef
  exact ⟨cells, hb.part rfl rfl rfl, hb.noLive, hb.total⟩

/-- **The DMA list** after its regions are defined, and the main list beside it. -/
theorem defineDMA_part (hrs : ∀ r ∈ rs, r.Usable) (hpart : Part h false mark regions cells)
    (hoff : ∀ x, InRegions regions x → ¬InRegions (rs.map HeapRegion.aligned) x)
    (hsep : ¬xPortHeapRegionsIsSame h rs) (hdef : vPortDefineHeapRegionsDMA h rs = some h') :
    ∃ cells', Part h' true mark' (rs.map HeapRegion.aligned) cells' ∧
      Part h' false mark regions cells ∧ liveCells cells' = [] ∧
      h'.xFreeBytesRemaining = u32 (h.xFreeBytesRemaining + freeBytes cells') := by
  rw [vPortDefineHeapRegionsDMA, if_neg hsep] at hdef
  split_ifs at hdef with hassert
  push Not at hassert
  rw [hassert.2] at hdef
  obtain ⟨d, cells', rfl, hb, hmem⟩ := building_of_loop hrs hdef
  refine ⟨cells', hb.part rfl rfl rfl, ?_, hb.noLive, by simp only [hb.total]⟩
  exact hpart.congr rfl rfl fun x hx => hmem x (hoff x hx)

end Define

end WiseSdk.Heap
