import WiseSdk.Heap.Part

/-!
# What a call does to one list

`takeFound_spec` says what searching a list and taking what is found makes of its layout, cell by
cell.

`Taken` and `Freed` are the two transitions of a list: a block is handed out, or comes back.
`takeFound_cases` says that a search finds nothing and changes nothing, or is a `Taken` transition;
`vPortFree_freed` that freeing a block handed out is a `Freed` transition of the list its mark
names.

Both say when the head of the list is left alone, which matters when two heads share a list.
-/

namespace WiseSdk.Heap

open Library List Option

/-- A block of `s` bytes at `x` is handed out. -/
structure Taken (h h' : HeapState) (dma : Bool) (mark : ℕ → Prop) (regions : List Extent)
    (cells cells' : List Cell) (x s : ℕ) : Prop where
  part : Part h' dma mark regions cells'
  live : (liveCells cells').Perm (⟨.live, x, s⟩ :: liveCells cells)
  free : freeBytes cells' + s = freeBytes cells
  bytes : h'.xFreeBytesRemaining = sub32 h.xFreeBytesRemaining s
  frame : Frame h h' dma (InRegions regions)
  head : (h.start dma).pxNextFreeBlock ≠ x →
    (h'.start dma).pxNextFreeBlock = (h.start dma).pxNextFreeBlock

/-- A block of `s` bytes at `x` comes back. -/
structure Freed (h h' : HeapState) (dma : Bool) (mark : ℕ → Prop) (regions : List Extent)
    (cells cells' : List Cell) (x s : ℕ) : Prop where
  part : Part h' dma mark regions cells'
  live : (liveCells cells).Perm (⟨.live, x, s⟩ :: liveCells cells')
  free : freeBytes cells' = freeBytes cells + s
  bytes : h'.xFreeBytesRemaining = u32 (h.xFreeBytesRemaining + s)
  frame : Frame h h' dma (InRegions regions)
  head : (h.start dma).pxNextFreeBlock < x →
    (h'.start dma).pxNextFreeBlock = (h.start dma).pxNextFreeBlock
  newHead : x ≤ (h.start dma).pxNextFreeBlock → (h'.start dma).pxNextFreeBlock = x

variable {h : HeapState} {dma : Bool} {mark : ℕ → Prop} {regions : List Extent}
  {cells : List Cell}

theorem ListOf.start_eq (hlist : ListOf h dma cells) :
    (h.start dma).pxNextFreeBlock = (entries cells).head?.getD (h.pxBlockEnd dma) := by
  have hwalk := hlist.walk
  cases hentries : entries cells with
  | nil =>
    rw [hentries] at hwalk
    exact hwalk
  | cons a l =>
    rw [hentries] at hwalk
    exact hwalk.1

theorem wantedSize_ge {n : ℕ} (hn : n < blockAllocatedBit) (hpos : 0 < wantedSize n) :
    heapStructSize ≤ wantedSize n := by
  have hn0 : 0 < n := by
    by_contra h0
    rw [wantedSize, if_neg h0] at hpos
    omega
  have hu : u32 (n + heapStructSize) = n + heapStructSize :=
    u32_of_lt (by simp only [blockAllocatedBit, heapStructSize] at *; omega)
  simp only [wantedSize, if_pos hn0, hu]
  split
  · rw [u32_of_lt (by simp only [blockAllocatedBit, heapStructSize, byteAlignment] at *; omega)]
    omega
  · omega

theorem start_small (hlist : ListOf h dma cells) {w : ℕ} (hw : 0 < w)
    (hsmall : ∀ c ∈ cells, c.kind = .free → c.size < w) :
    (h.mem (h.start dma).pxNextFreeBlock).xBlockSize < w := by
  rw [hlist.start_eq]
  cases hentries : entries cells with
  | nil => simpa [hlist.endMarker] using hw
  | cons a l =>
    rw [head?_cons, getD_some]
    by_contra hlarge
    obtain ⟨c, hc, hkind, -, hsize⟩ := free_of_entry (fun a => (h.mem a).xBlockSize)
      hlist.sizes (a := a) (by simp [hentries]) (by omega)
    have := hsmall c hc hkind
    omega

section

variable {w : ℕ} (hfit : RegionsFit regions) (hpart : Part h dma mark regions cells)
  (hmark : mark (if dma then dmaBufferMark else 0)) (hw : heapStructSize ≤ w)

include hfit hpart hmark hw

/-- **Searching a list and taking what is found**: the first free block large enough is handed out,
or nothing changes. -/
theorem takeFound_spec :
    (∃ loc, searchFrom h dma w = some (loc, h.pxBlockEnd dma) ∧
      takeFound h dma w (searchFrom h dma w) = some (h, 0) ∧
      ∀ c ∈ cells, c.kind = .free → c.size < w) ∨
    ∃ pre x s post h', cells = pre ++ ⟨.free, x, s⟩ :: post ∧ w ≤ s ∧
      (∀ c ∈ pre, c.kind = .free → c.size < w) ∧
      searchFrom h dma w = some (lastLoc (.start dma) (entries pre), x) ∧ x ≠ h.pxBlockEnd dma ∧
      takeFound h dma w (searchFrom h dma w) = some (h', x + heapStructSize) ∧
      Part h' dma mark regions (pre ++ ⟨.live, x, carvedSize heapMinimumBlockSize w s⟩ ::
        carvedRest heapMinimumBlockSize w x s post) ∧
      (h'.mem x).pxNextFreeBlock = (if dma then dmaBufferMark else 0) ∧ h'.xFreeBytesRemaining =
        sub32 h.xFreeBytesRemaining (carvedSize heapMinimumBlockSize w s) ∧
      Frame h h' dma (InRegions regions) := by
  have hw0 : 0 < w := by
    simp only [heapStructSize] at hw
    omega
  rcases searchFrom_spec hfit hpart.toThreaded hw0 with
    ⟨loc, hsearch, hsmall⟩ | ⟨pre, x, s, post, rfl, hws, hsmall, hsearch⟩
  · refine .inl ⟨loc, hsearch, ?_, hsmall⟩
    simp [hsearch, takeFound]
  · obtain ⟨h', htake, hpart', hnext, hbytes, hframe⟩ := takeBlock_part hfit hpart hmark hw hws
    obtain ⟨r, rs, -, hl⟩ := hpart.laid.laid
    have hx : x ≠ h.pxBlockEnd dma :=
      Nat.ne_of_lt (entries_lt_last (by decide) hl x (by simp))
    refine .inr ⟨pre, x, s, post, h', rfl, hws, hsmall, hsearch, hx, ?_, hpart', hnext, hbytes,
      hframe⟩
    simp only [hsearch, takeFound, if_pos hx, htake]

/-- **A block is taken or nothing changes.** It is the one the head links to exactly if that is
large enough. -/
theorem takeFound_cases :
    (∃ loc, searchFrom h dma w = some (loc, h.pxBlockEnd dma) ∧
      takeFound h dma w (searchFrom h dma w) = some (h, 0) ∧
      (h.mem (h.start dma).pxNextFreeBlock).xBlockSize < w) ∨
    ∃ loc x h' cells' s, searchFrom h dma w = some (loc, x) ∧ x ≠ h.pxBlockEnd dma ∧
      takeFound h dma w (searchFrom h dma w) = some (h', x + heapStructSize) ∧
      Taken h h' dma mark regions cells cells' x s ∧ ((h.start dma).pxNextFreeBlock = x ↔
        w ≤ (h.mem (h.start dma).pxNextFreeBlock).xBlockSize) := by
  have hw0 : 0 < w := by
    simp only [heapStructSize] at hw
    omega
  rcases takeFound_spec hfit hpart hmark hw with ⟨loc, hsearch, htake, hsmall⟩ |
    ⟨pre, x, s, post, h', rfl, hws, hsmall, hsearch, hx, htake, hpart', -, hbytes, hframe⟩
  · exact .inl ⟨loc, hsearch, htake, start_small hpart.list hw0 hsmall⟩
  · have hsize : (h.mem x).xBlockSize = s := hpart.list.sizes ⟨.free, x, s⟩ (by simp) rfl
    have hfree := freeBytes_carvedRest heapMinimumBlockSize x post hws
    refine .inr ⟨_, x, h', _, _, hsearch, hx, htake, ⟨hpart', ?_, ?_, hbytes, hframe,
      fun hne => ?_⟩, fun heq => ?_, fun hlarge => ?_⟩
    · rw [liveCells_append, liveCells_live, liveCells_carvedRest, liveCells_append, liveCells_free]
      exact perm_middle
    · simp only [freeBytes_append, freeBytes_live, freeBytes_free]
      omega
    · -- The block is not the first entry, so there is an entry before it.
      rw [hpart.list.start_eq, entries_append, entries_free] at hne ⊢
      rw [hpart'.list.start_eq, entries_append]
      cases hentries : entries pre with
      | nil => simp [hentries] at hne
      | cons a l => rfl
    · rw [heq, hsize]
      exact hws
    · -- An entry before the block is too small.
      rw [hpart.list.start_eq, entries_append, entries_free] at hlarge ⊢
      cases hentries : entries pre with
      | nil => rfl
      | cons a l =>
        exfalso
        rw [hentries] at hlarge
        have hsizes : ∀ c ∈ pre, c.linked → (h.mem c.addr).xBlockSize = c.linkSize :=
          fun c hc => hpart.list.sizes c (by simp [hc])
        simp only [cons_append, head?_cons, getD_some] at hlarge
        obtain ⟨c, hc, hkind, -, hcsize⟩ := free_of_entry (fun a => (h.mem a).xBlockSize)
          hsizes (a := a) (by simp [hentries]) (by omega)
        have := hsmall c hc hkind
        omega

end

/-- **Freeing a block handed out** through the list its mark names. -/
theorem vPortFree_freed (hfit : RegionsFit regions) (hpart : Part h dma mark regions cells)
    {x t : ℕ} (hx : ⟨.live, x, t⟩ ∈ liveCells cells)
    (hnext : (h.mem x).pxNextFreeBlock = if dma then dmaBufferMark else 0) :
    ∃ h' cells', vPortFree h (x + heapStructSize) = some h' ∧
      Freed h h' dma mark regions cells cells' x t := by
  obtain ⟨pre, post, rfl⟩ := append_of_mem (mem_liveCells.mp hx).1
  obtain ⟨h', hfreed, hpart', hbytes, hframe⟩ := vPortFree_part hfit hpart hnext
  have hhead := head?_entries_giveBack pre x t post
  obtain ⟨r, rs, -, hl⟩ := hpart.laid.laid
  have hxend : x + t ≤ h.pxBlockEnd dma := end_le hl
  have haround : Around x pre post := around_of_laid hl
  refine ⟨h', _, hfreed, hpart', ?_, ?_, hbytes, hframe, fun hlt => ?_, fun hle => ?_⟩
  · rw [liveCells_giveBack, liveCells_append, liveCells_live]
    exact perm_middle
  · simp only [freeBytes_giveBack, freeBytes_append, freeBytes_live]
    omega
  · -- The first entry is below the block, so it is an entry before it.
    rw [hpart.list.start_eq, entries_append, entries_live] at hlt ⊢
    rw [hpart'.list.start_eq, hhead]
    cases hentries : entries pre with
    | cons a l => rfl
    | nil =>
      exfalso
      rw [hentries, nil_append] at hlt
      cases hpost : entries post with
      | nil =>
        simp only [hpost, head?_nil, getD_none] at hlt
        omega
      | cons b l =>
        simp only [hpost, head?_cons, getD_some] at hlt
        have := haround.after b (by simp [hpost])
        omega
  · -- The first entry is above the block, so there is none before it.
    rw [hpart.list.start_eq, entries_append, entries_live] at hle
    rw [hpart'.list.start_eq, hhead]
    cases hentries : entries pre with
    | nil => rfl
    | cons a l =>
      exfalso
      have := haround.before a (by simp [hentries])
      simp only [hentries, cons_append, head?_cons, getD_some] at hle
      omega

end WiseSdk.Heap
