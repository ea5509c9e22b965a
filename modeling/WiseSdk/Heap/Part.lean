import WiseSdk.Heap.FreeList

/-!
# The part of the heap that one list owns

`Part h dma mark regions cells` is the invariant of one free list: the cells cut its regions without
gaps, no two free cells are neighbours, the list threads the linked cells, and the header of every
cell handed out has the top bit of its size set and a link that meets `mark`.

`searchFrom_spec`, `takeBlock_part` and `vPortFree_part` specify what the callers do with a list:
what becomes of the cells handed out, of the free bytes and of the first entry, and that nothing
outside its regions changes.
-/

namespace WiseSdk.Heap

open Library List

/-- Usable regions: below `2 ^ 32`, with room for a block and the closing marker, and no block with
the top bit of its size set. -/
def RegionsFit (regions : List Extent) : Prop :=
  ∀ r ∈ regions, r.hi ≤ 2 ^ 32 ∧ r.lo + 2 * heapStructSize ≤ r.hi ∧
    r.hi < r.lo + blockAllocatedBit + heapStructSize

/-- A layout and the list that threads it. -/
structure Threaded (h : HeapState) (dma : Bool) (regions : List Extent)
    (cells : List Cell) : Prop where
  laid : LaidOver heapStructSize (h.pxBlockEnd dma) regions cells
  coalesced : Coalesced cells
  list : ListOf h dma cells

def LiveHeaders (h : HeapState) (mark : ℕ → Prop) (live : List Cell) : Prop :=
  ∀ c ∈ live, (h.mem c.addr).xBlockSize = c.size + blockAllocatedBit ∧
    mark (h.mem c.addr).pxNextFreeBlock

/-- **The invariant of one list.** -/
structure Part (h : HeapState) (dma : Bool) (mark : ℕ → Prop) (regions : List Extent)
    (cells : List Cell) : Prop extends Threaded h dma regions cells where
  live : LiveHeaders h mark (liveCells cells)

section Regions

variable {last : ℕ} {regions : List Extent} {cells : List Cell} {c : Cell}

section

variable (hfit : RegionsFit regions) (h : LaidOver heapStructSize last regions cells)

include hfit h

theorem last_lt_of_fit : last < 2 ^ 32 := by
  obtain ⟨r, hr, -, hlt⟩ := h.last_inRegions (by decide)
  have := (hfit r hr).1
  omega

theorem size_lt_of_fit (hc : c ∈ cells) (hblock : c.isBlock) : c.size < blockAllocatedBit := by
  obtain ⟨r, hr, hlo, -, hroom⟩ := h.mem_region hc
  have hhi := (hfit r hr).2.2
  have := hroom hblock
  omega

theorem last_ne_zero_of_fit : last ≠ 0 := by
  obtain ⟨r, rs, rfl, h⟩ := h.laid
  obtain ⟨r', hr', -, hhi⟩ := h.last_region
  have := (hfit r' hr').2.1
  simp only [heapStructSize] at this hhi
  omega

end

end Regions

/-! ## Frames -/

section Frames

variable {h h' : HeapState} {dma : Bool} {mark T : ℕ → Prop} {regions : List Extent}
  {cells : List Cell}

theorem ListOf.congr (hlist : ListOf h dma cells) (hstart : h'.start dma = h.start dma)
    (hend : h'.pxBlockEnd dma = h.pxBlockEnd dma) (hmem : ∀ y ∈ entries cells, h'.mem y = h.mem y)
    (hmarker : h'.mem (h.pxBlockEnd dma) = h.mem (h.pxBlockEnd dma)) :
    ListOf h' dma cells := by
  refine ⟨?_, fun c hc hlinked => ?_, ?_⟩
  · rw [hstart, hend]
    exact hlist.walk.congr fun y hy => by simp only [HeapState.nextOf, hmem y hy]
  · rw [hmem c.addr (mem_entries.mpr ⟨c, hc, hlinked, rfl⟩)]
    exact hlist.sizes c hc hlinked
  · rw [hend, hmarker]
    exact hlist.endMarker

theorem Part.congr (hpart : Part h dma mark regions cells) (hstart : h'.start dma = h.start dma)
    (hend : h'.pxBlockEnd dma = h.pxBlockEnd dma)
    (hmem : ∀ x, InRegions regions x → h'.mem x = h.mem x) :
    Part h' dma mark regions cells := by
  have hcell : ∀ c ∈ cells, h'.mem c.addr = h.mem c.addr := fun c hc =>
    hmem _ (hpart.laid.addr_inRegions (by decide) hc)
  refine ⟨⟨by rw [hend]; exact hpart.laid, hpart.coalesced, ?_⟩, fun c hc => ?_⟩
  · refine hpart.list.congr hstart hend (fun y hy => ?_)
      (hmem _ (hpart.laid.last_inRegions (by decide)))
    obtain ⟨c, hc, -, rfl⟩ := mem_entries.mp hy
    exact hcell c hc
  · rw [hcell c (mem_liveCells.mp hc).1]
    exact hpart.live c hc

/-- **Separation.** A change that stays off the regions of the other list keeps the invariant of the
other. -/
theorem Part.frame (hpart : Part h (!dma) mark regions cells) (hframe : Frame h h' dma T)
    (hoff : ∀ x, InRegions regions x → ¬T x) :
    Part h' (!dma) mark regions cells :=
  hpart.congr hframe.otherHead (hframe.pxBlockEnd _) fun x hx => hframe.mem x (hoff x hx)

end Frames

/-! ## Searching a list -/

section Search

variable {h : HeapState} {dma : Bool} {regions : List Extent} {cells : List Cell}

theorem lt_next_of_segment {next : ℕ → ℕ} {p q : ℕ} {l : List ℕ}
    (hwalk : Segment next p l q) (hasc : l.Pairwise (· < ·)) (hq : ∀ a ∈ l, a < q) :
    ∀ a ∈ l, a < next a := by
  induction l generalizing p with
  | nil => simp
  | cons b l ih =>
    obtain ⟨hhead, htail⟩ := pairwise_cons.mp hasc
    intro a ha
    rcases mem_cons.mp ha with rfl | ha
    · cases l with
      | nil =>
        rw [segment_nil.mp hwalk.2]
        exact hq a (by simp)
      | cons c l =>
        rw [hwalk.2.1]
        exact hhead c (by simp)
    · exact ih hwalk.2 htail (fun a ha => hq a (by simp [ha])) a ha

/-- **Searching a list** finds the first free cell large enough, or the end marker. -/
theorem searchFrom_spec (hfit : RegionsFit regions) (hthr : Threaded h dma regions cells)
    {wanted : ℕ} (hw : 0 < wanted) :
    (∃ loc, searchFrom h dma wanted = some (loc, h.pxBlockEnd dma) ∧
      ∀ c ∈ cells, c.kind = .free → c.size < wanted) ∨
    ∃ pre x s post, cells = pre ++ ⟨.free, x, s⟩ :: post ∧ wanted ≤ s ∧
      (∀ c ∈ pre, c.kind = .free → c.size < wanted) ∧
      searchFrom h dma wanted = some (lastLoc (.start dma) (entries pre), x) := by
  obtain ⟨r, rs, -, hlaid⟩ := hthr.laid.laid
  have hend := last_lt_of_fit hfit hthr.laid
  have hasc := entries_ascending (by decide) hlaid
  have hlast := entries_lt_last (by decide) hlaid
  -- The entries of cells without a large enough free one among them are too small.
  have hsmall : ∀ pre ⊆ cells, (∀ c ∈ pre, c.kind = .free → c.size < wanted) →
      ∀ y ∈ entries pre, (h.mem y).xBlockSize < wanted ∧ h.nextOf y ≠ 0 := by
    intro pre hsub hpre y hy
    obtain ⟨c, hc, hlinked, rfl⟩ := mem_entries.mp hy
    have hnext := lt_next_of_segment hthr.list.walk hasc hlast c.addr
      (mem_entries.mpr ⟨c, hsub hc, hlinked, rfl⟩)
    refine ⟨?_, by omega⟩
    rw [hthr.list.sizes c (hsub hc) hlinked]
    cases hkind : c.kind with
    | free => simpa [Cell.linkSize, hkind] using hpre c hc hkind
    | live => simp [Cell.linked, hkind] at hlinked
    | marker linked => simpa [Cell.linkSize, hkind] using hw
  cases hfind : cells.find? fun c => decide (c.kind = .free ∧ wanted ≤ c.size) with
  | none =>
    have hnone : ∀ c ∈ cells, c.kind = .free → c.size < wanted := by
      intro c hc hkind
      have := find?_eq_none.mp hfind c hc
      simpa [hkind] using this
    refine .inl ⟨_, searchList_eq hthr.list.walk (hsmall cells (List.Subset.refl _) hnone)
      (.inr ?_) ?_, hnone⟩
    · simp only [HeapState.nextOf, hthr.list.endMarker]
    · have := length_le_of_ascending hasc hlast
      simp only [listFuel]
      omega
  | some c =>
    obtain ⟨hc, pre, post, rfl, hpre⟩ := find?_eq_some_iff_append.mp hfind
    obtain ⟨k, x, s⟩ := c
    obtain ⟨rfl, hs⟩ : k = .free ∧ wanted ≤ s := by simpa using hc
    have hpre' : ∀ c ∈ pre, c.kind = .free → c.size < wanted := by
      intro c hc hkind
      simpa [hkind] using hpre c hc
    have hwalk := hthr.list.walk
    rw [entries_append, entries_free] at hwalk
    have haround : Around x pre post := around_of_laid hlaid
    refine .inr ⟨pre, x, s, post, rfl, hs, hpre', ?_⟩
    refine searchList_eq (segment_append_cons.mp hwalk).1
      (hsmall pre (subset_append_left _ _) hpre') (.inl ?_) ?_
    · rw [hthr.list.sizes ⟨.free, x, s⟩ (by simp) rfl]
      exact hs
    · have hlen := length_le_of_ascending haround.ascending haround.before
      have hx := hlast x (by simp)
      simp only [listFuel]
      omega

end Search

/-! ## Inserting, handing out and freeing -/

/-- A block off the list: for layout and list a cell handed out, whose header shows its size. -/
structure Detached (h : HeapState) (dma : Bool) (regions : List Extent) (pre : List Cell)
    (x t : ℕ) (post : List Cell) : Prop where
  laid : LaidOver heapStructSize (h.pxBlockEnd dma) regions (pre ++ ⟨.live, x, t⟩ :: post)
  before : Coalesced pre
  after : Coalesced post
  list : ListOf h dma (pre ++ ⟨.live, x, t⟩ :: post)
  size : (h.mem x).xBlockSize = t

/-- The headers an edit at the block at `x` may write: those inside it and those of the list's
entries. -/
def Touched (x s : ℕ) (pre post : List Cell) (y : ℕ) : Prop :=
  (x ≤ y ∧ y < x + s) ∨ y ∈ entries (pre ++ post)

section Edit

variable {h h' : HeapState} {dma : Bool} {mark : ℕ → Prop} {regions : List Extent}
  {pre post live : List Cell} {x t s w last y : ℕ} {k : CellKind}

/-- An edit writes headers in the regions of its list only. -/
theorem Touched.inRegions (hlaid : LaidOver heapStructSize last regions (pre ++ ⟨k, x, s⟩ :: post))
    (hy : Touched x s pre post y) : InRegions regions y := by
  rcases hy with hy | hy
  · obtain ⟨r, hr, hlo, hhi, -⟩ := hlaid.mem_region (c := ⟨k, x, s⟩) (by simp)
    simp only at hlo hhi
    exact ⟨r, hr, by omega, by omega⟩
  · obtain ⟨c, hc, -, rfl⟩ := mem_entries.mp hy
    exact hlaid.addr_inRegions (by decide) (mem_middle hc)

theorem not_touched_of_live {c : Cell}
    (hlaid : LaidOver heapStructSize last regions (pre ++ ⟨k, x, s⟩ :: post))
    (hc : c ∈ liveCells (pre ++ post)) : ¬Touched x s pre post c.addr := by
  obtain ⟨hc, hkind⟩ := mem_liveCells.mp hc
  obtain ⟨r, rs, -, hl⟩ := hlaid.laid
  rintro (hin | hentry)
  · have hsize : 16 ≤ c.size := hl.header_le c (mem_middle hc)
    rcases mem_append.mp hc with hc | hc
    · have : c.addr + c.size ≤ x := hl.before hc
      omega
    · have : x + s ≤ c.addr := hl.after hc
      omega
  · obtain ⟨d, hd, hlinked, haddr⟩ := mem_entries.mp hentry
    obtain rfl := hl.eq_of_addr (by decide) (mem_middle hd) (mem_middle hc) haddr
    simp [Cell.linked, hkind] at hlinked

/-- **Inserting a block** that is off the list gives it back to the layout. -/
theorem Detached.insert (hfit : RegionsFit regions) (hd : Detached h dma regions pre x t post) :
    ∃ h', insertBlockIntoFreeListWithDMA h x dma = some h' ∧
      Threaded h' dma regions (giveBack pre x t post) ∧ Frame h h' dma (Touched x t pre post) ∧
      h'.xFreeBytesRemaining = h.xFreeBytesRemaining := by
  have hend := last_lt_of_fit hfit hd.laid
  obtain ⟨r, rs, -, hl⟩ := hd.laid.laid
  have ht : 16 ≤ t := hl.header_le ⟨.live, x, t⟩ (by simp)
  rcases giveBack_cases pre x t post with ⟨hlast, heq⟩ | ⟨pre, f, u, rfl, heq⟩
  · obtain ⟨h', hins, hlist, hframe, hfree⟩ := insertBlock_alone hl hend hd.list hd.size hlast
    rw [heq]
    refine ⟨h', hins, ⟨?_, hd.before.giveBack hd.after hlast, hlist⟩,
      hframe.mono fun y hy => ?_, hfree⟩
    · rw [hframe.pxBlockEnd]
      exact hd.laid.edit fun a e rs hl => hl.giveBack
    · rcases hy with rfl | hy
      · exact .inl ⟨le_rfl, by omega⟩
      · exact .inr hy
  -- The neighbour before is free: the block becomes part of it.
  have hlist := hd.list
  have hlaid := hd.laid
  rw [append_assoc, singleton_append] at hl hlist hlaid
  obtain ⟨h', hins, hlist, hframe, hfree⟩ := insertBlock_joined hl hend hlist hd.size
  obtain ⟨hpre, -, hseam⟩ := isChain_append.mp hd.before
  rw [heq]
  refine ⟨h', hins, ⟨?_, ?_, hlist⟩, ?_, hfree⟩
  · rw [hframe.pxBlockEnd]
    exact hlaid.edit fun a e rs hl => hl.giveBack_join
  · exact Coalesced.giveBack hpre hd.after fun c hc hkind => hseam c hc _ rfl ⟨hkind, rfl⟩
  · exact hframe.mono fun y hy => .inr (by simp [hy])

/-- **Taking a block off the list**: the entry before it is linked to the entry after it. -/
theorem Threaded.detach (hthr : Threaded h dma regions (pre ++ ⟨.free, x, s⟩ :: post)) :
    Detached (h.setNext (lastLoc (.start dma) (entries pre)) (h.nextOf x)) dma regions pre x s
      post := by
  obtain ⟨r, rs, -, hl⟩ := hthr.laid.laid
  have haround : Around x pre post := around_of_laid hl
  have hframe : Frame h (h.setNext (lastLoc (.start dma) (entries pre)) (h.nextOf x)) dma
      (· ∈ entries pre) := frame_setNext _
  have hwalk := hthr.list.walk
  rw [entries_append, entries_free] at hwalk
  obtain ⟨hpre, hpost⟩ := segment_append_cons.mp hwalk
  have hlast := entries_lt_last (by decide) hl x (by simp)
  refine ⟨?_, hthr.coalesced.sides.1, hthr.coalesced.sides.2, ⟨?_, fun c hc hlinked => ?_, ?_⟩, ?_⟩
  · rw [hframe.pxBlockEnd]
    exact hthr.laid.edit fun a e rs hl => hl.handOut
  · rw [entries_append, entries_live, hframe.pxBlockEnd]
    refine segment_append.mpr
      ⟨h.nextOf x, segment_setNext_lastLoc _ haround.nodup hpre, hpost.congr fun y hy => ?_⟩
    exact congrArg BlockLink.pxNextFreeBlock
      (hframe.mem y (haround.not_mem_pre (haround.after y hy).le))
  · rw [setNext_size]
    refine hthr.list.sizes c ?_ hlinked
    simp only [mem_append, mem_cons] at hc ⊢
    rcases hc with hc | rfl | hc
    · exact .inl hc
    · simp [Cell.linked] at hlinked
    · exact .inr (.inr hc)
  · rw [hframe.pxBlockEnd, hframe.mem _ (haround.not_mem_pre hlast.le)]
    exact hthr.list.endMarker
  · rw [setNext_size]
    exact hthr.list.sizes ⟨.free, x, s⟩ (by simp) rfl

/-- **Cutting a block** that is off the list leaves its second part off the list, behind its
first part. -/
theorem Detached.cut (hd : Detached h dma regions pre x s post) (hw : heapStructSize ≤ w)
    (hws : w + heapStructSize ≤ s) :
    Detached ((h.setSize (x + w) (s - w)).setSize x w) dma regions (pre ++ [⟨.live, x, w⟩])
      (x + w) (s - w) post := by
  simp only [heapStructSize] at hw hws
  have hcut : (pre ++ [⟨.live, x, w⟩]) ++ ⟨.live, x + w, s - w⟩ :: post =
      pre ++ (⟨.live, x, w⟩ : Cell) :: ⟨.live, x + w, s - w⟩ :: post := by simp
  obtain ⟨r, rs, -, hl⟩ := hd.laid.laid
  have haround : Around x pre post := around_of_laid hl
  have hxs : x + s ≤ h.pxBlockEnd dma := end_le hl
  -- Neither of the two headers written is that of an entry.
  have hmem : ∀ y, y < x ∨ x + s ≤ y →
      ((h.setSize (x + w) (s - w)).setSize x w).mem y = h.mem y := fun y hy => by
    rw [setSize_mem_of_ne _ _ (by omega), setSize_mem_of_ne _ _ (by omega)]
  have hlist : ListOf ((h.setSize (x + w) (s - w)).setSize x w) dma
      (pre ++ ⟨.live, x, s⟩ :: post) := by
    refine hd.list.congr rfl rfl (fun y hy => hmem y ?_) (hmem _ (.inr hxs))
    rw [entries_append, entries_live] at hy
    rcases mem_append.mp hy with hy | hy
    · exact .inl (haround.before y hy)
    · exact .inr (lt_entries_of_after hl y hy)
  refine ⟨?_, hd.before.around_live isChain_nil, hd.after,
    ⟨by simpa using hlist.walk, fun c hc hlinked => ?_, hlist.endMarker⟩, ?_⟩
  · rw [hcut]
    refine hd.laid.edit fun a e rs hl => hl.replace_tail fun a e rs hl => ?_
    simp only [laid_live, heapStructSize] at hl ⊢
    obtain ⟨rfl, -, hroom, hl⟩ := hl
    have hsum : x + w + (s - w) = x + s := by omega
    rw [hsum]
    exact ⟨rfl, by omega, by omega, rfl, by omega, hroom, hl⟩
  · refine hlist.sizes c ?_ hlinked
    simp only [mem_append, mem_cons, mem_nil_iff, or_false] at hc ⊢
    rcases hc with (hc | rfl) | rfl | hc
    · exact .inl hc
    · simp [Cell.linked] at hlinked
    · simp [Cell.linked] at hlinked
    · exact .inr (.inr hc)
  · rw [setSize_mem_of_ne _ _ (by omega), setSize_size_self]

/-- **Splitting** a block off the list: it keeps at least the bytes wanted, and the rest, if any, is
free. -/
theorem Detached.split (hfit : RegionsFit regions) (hd : Detached h dma regions pre x s post)
    (hw : heapStructSize ≤ w) (hws : w ≤ s) :
    ∃ h', splitBlock h dma w x = some h' ∧
      Threaded h' dma regions (pre ++ ⟨.live, x, carvedSize heapMinimumBlockSize w s⟩ ::
        carvedRest heapMinimumBlockSize w x s post) ∧
      (h'.mem x).xBlockSize = carvedSize heapMinimumBlockSize w s ∧
      Frame h h' dma (Touched x s pre post) ∧ h'.xFreeBytesRemaining = h.xFreeBytesRemaining := by
  obtain ⟨r, rs, -, hl⟩ := hd.laid.laid
  have hend := last_lt_of_fit hfit hd.laid
  have hxs : x + s ≤ h.pxBlockEnd dma := end_le hl
  have hsub : sub32 s w = s - w := sub32_of_le hws (by omega)
  by_cases hsplit : heapMinimumBlockSize < s - w
  · have hsplit' := hsplit
    simp only [heapMinimumBlockSize, heapStructSize] at hsplit'
    have hcut := hd.cut hw (by simp only [heapStructSize]; omega)
    obtain ⟨h', hins, hthr, hframe, hbytes⟩ := hcut.insert hfit
    have hx : ¬Touched (x + w) (s - w) (pre ++ [⟨.live, x, w⟩]) post x :=
      not_touched_of_live (c := ⟨.live, x, w⟩) hcut.laid (by simp)
    rw [giveBack_concat_live] at hthr
    simp only [carvedSize, carvedRest, if_pos hsplit]
    refine ⟨h', ?_, hthr, ?_, ?_, hbytes⟩
    · simp only [splitBlock, hd.size, hsub]
      rw [if_pos hsplit, u32_of_lt (by omega)]
      exact hins
    · rw [hframe.mem x hx, setSize_size_self]
    · -- Both parts lie in the block.
      have hwrite : Frame h ((h.setSize (x + w) (s - w)).setSize x w) dma
          (Touched x s pre post) := by
        refine ((frame_setSize ..).mono ?_).trans ((frame_setSize ..).mono ?_)
        · rintro y rfl
          exact .inl (by omega)
        · rintro y rfl
          exact .inl (by omega)
      refine hwrite.trans (hframe.mono fun y hy => ?_)
      rcases hy with hy | hy
      · exact .inl (by omega)
      · exact .inr (by simpa using hy)
  · simp only [carvedSize, carvedRest, if_neg hsplit]
    refine ⟨h, ?_, ⟨hd.laid, hd.before.around_live hd.after, hd.list⟩, hd.size,
      ⟨fun _ _ => rfl, rfl, rfl, rfl⟩, rfl⟩
    simp only [splitBlock, hd.size, hsub]
    rw [if_neg hsplit]

theorem LiveHeaders.congr (hlive : LiveHeaders h mark live)
    (hmem : ∀ c ∈ live, h'.mem c.addr = h.mem c.addr) : LiveHeaders h' mark live := by
  intro c hc
  rw [hmem c hc]
  exact hlive c hc

theorem LiveHeaders.markAllocated (hlive : LiveHeaders h mark live) (hx : ∀ c ∈ live, c.addr ≠ x)
    (hsize : (h.mem x).xBlockSize = s)
    (hs : s < blockAllocatedBit) (hmark : mark (if dma then dmaBufferMark else 0)) :
    LiveHeaders (markAllocated h dma x) mark (⟨.live, x, s⟩ :: live) := by
  intro c hc
  rcases mem_cons.mp hc with rfl | hc
  · have hset : setAllocated s = s + blockAllocatedBit := by
      rw [setAllocated, if_neg (by omega)]
    simp only [WiseSdk.Heap.markAllocated, Function.update_self, hsize, hset, true_and]
    exact hmark
  · have hmem : (WiseSdk.Heap.markAllocated h dma x).mem c.addr = h.mem c.addr := by
      simp [WiseSdk.Heap.markAllocated, hx c hc]
    rw [hmem]
    exact hlive c hc

/-- **Handing out a free block.** It is live, its unwanted bytes are free, and the pointer is behind
its header. -/
theorem takeBlock_part (hfit : RegionsFit regions)
    (hpart : Part h dma mark regions (pre ++ ⟨.free, x, s⟩ :: post))
    (hmark : mark (if dma then dmaBufferMark else 0)) (hw : heapStructSize ≤ w) (hws : w ≤ s) :
    ∃ h', takeBlock h dma w (lastLoc (.start dma) (entries pre)) x = some (h', x + heapStructSize) ∧
      Part h' dma mark regions (pre ++ ⟨.live, x, carvedSize heapMinimumBlockSize w s⟩ ::
        carvedRest heapMinimumBlockSize w x s post) ∧
      (h'.mem x).pxNextFreeBlock = (if dma then dmaBufferMark else 0) ∧ h'.xFreeBytesRemaining =
        sub32 h.xFreeBytesRemaining (carvedSize heapMinimumBlockSize w s) ∧
      Frame h h' dma (InRegions regions) := by
  have hdet := hpart.toThreaded.detach
  obtain ⟨h₂, hsplit, hthr, hsize, hframe, hbytes⟩ := hdet.split hfit hw hws
  set s' := carvedSize heapMinimumBlockSize w s
  set post' := carvedRest heapMinimumBlockSize w x s post with hpost'
  obtain ⟨r, rs, -, hl⟩ := hpart.laid.laid
  have hend := last_lt_of_fit hfit hpart.laid
  have hxs : x + s ≤ h.pxBlockEnd dma := end_le hl
  have hsx : 16 ≤ s := hl.header_le ⟨.free, x, s⟩ (by simp)
  have hwalk := hpart.list.walk
  rw [entries_append, entries_free] at hwalk
  have hnext : h.next (lastLoc (.start dma) (entries pre)) = x :=
    next_lastLoc (segment_append_cons.mp hwalk).1
  -- The block handed out is not an entry of the list.
  obtain ⟨r', rs', -, hl'⟩ := hthr.laid.laid
  have haround : Around x pre post' := around_of_laid hl'
  have hx : x ∉ entries (pre ++ ⟨.live, x, s'⟩ :: post') := by
    rw [entries_append, entries_live, mem_append]
    rintro (hmem | hmem)
    · exact Nat.lt_irrefl _ (haround.before x hmem)
    · exact Nat.lt_irrefl _ (haround.after x hmem)
  have hlt : s' < blockAllocatedBit :=
    size_lt_of_fit hfit hthr.laid (c := ⟨.live, x, s'⟩) (by simp) rfl
  have hframe₁ : Frame h h₂ dma (Touched x s pre post) :=
    Frame.trans ((frame_setNext _).mono fun y hy => .inr (by simp [hy])) hframe
  have hmark_mem : ∀ y, y ≠ x → (markAllocated h₂ dma x).mem y = h₂.mem y := fun y hy => by
    simp [markAllocated, hy]
  refine ⟨markAllocated h₂ dma x, ?_, ⟨⟨hthr.laid, hthr.coalesced, ?_⟩, ?_⟩, ?_, ?_, ?_⟩
  · simp only [takeBlock, hnext]
    rw [show (h.mem x).pxNextFreeBlock = h.nextOf x from rfl, hsplit,
      u32_of_lt (by simp only [heapStructSize]; omega)]
    rfl
  · refine hthr.list.congr rfl rfl (fun y hy => hmark_mem y fun hyx => hx (hyx ▸ hy)) ?_
    refine hmark_mem _ ?_
    have := hframe₁.pxBlockEnd dma
    omega
  · have hothers : LiveHeaders h₂ mark (liveCells (pre ++ post)) := by
      have hlive₀ := hpart.live
      rw [liveCells_append, liveCells_free, ← liveCells_append] at hlive₀
      exact hlive₀.congr fun c hc => hframe₁.mem _ (not_touched_of_live hpart.laid hc)
    have hne : ∀ c ∈ liveCells (pre ++ post), c.addr ≠ x := fun c hc hcx =>
      not_touched_of_live hpart.laid hc (.inl (by omega))
    intro c hc
    refine hothers.markAllocated hne hsize hlt hmark c ?_
    rw [liveCells_append, liveCells_live, hpost', liveCells_carvedRest] at hc
    simpa [or_left_comm] using hc
  · simp [markAllocated]
  · simp only [markAllocated, hsize, hbytes]
    rw [setNext_xFreeBytesRemaining]
  · refine Frame.trans (hframe₁.mono fun y hy => hy.inRegions hpart.laid)
      ⟨fun y hy => hmark_mem y fun hyx => hy ?_, rfl, rfl, rfl⟩
    exact hyx ▸ hpart.laid.addr_inRegions (c := ⟨.free, x, s⟩) (by decide) (by simp)

/-- **Freeing a block handed out** through the list its mark names. -/
theorem vPortFree_part (hfit : RegionsFit regions)
    (hpart : Part h dma mark regions (pre ++ ⟨.live, x, t⟩ :: post))
    (hnext : (h.mem x).pxNextFreeBlock = if dma then dmaBufferMark else 0) :
    ∃ h', vPortFree h (x + heapStructSize) = some h' ∧
      Part h' dma mark regions (giveBack pre x t post) ∧
      h'.xFreeBytesRemaining = u32 (h.xFreeBytesRemaining + t) ∧
      Frame h h' dma (InRegions regions) := by
  obtain ⟨r, rs, -, hl⟩ := hpart.laid.laid
  have hend := last_lt_of_fit hfit hpart.laid
  have hxt : x + t ≤ h.pxBlockEnd dma := end_le hl
  have ht : 16 ≤ t := hl.header_le ⟨.live, x, t⟩ (by simp)
  have hheader : (h.mem x).xBlockSize = t + blockAllocatedBit :=
    (hpart.live ⟨.live, x, t⟩ (by simp)).1
  have haround : Around x pre post := around_of_laid hl
  -- The heap handed to the insertion: the top bit and the mark are cleared.
  set h₁ : HeapState :=
    { h with
      xFreeBytesRemaining := u32 (h.xFreeBytesRemaining + t)
      mem := Function.update h.mem x ⟨0, t⟩ } with hh₁
  have hframe₁ : Frame h h₁ dma (· = x) :=
    ⟨fun y hy => by simp [hh₁, hy], rfl, rfl, rfl⟩
  have hdet : Detached h₁ dma regions pre x t post := by
    refine ⟨hpart.laid, hpart.coalesced.sides.1, hpart.coalesced.sides.2, ?_, ?_⟩
    · refine hpart.list.congr rfl rfl (fun y hy => hframe₁.mem y ?_) (hframe₁.mem _ (by omega))
      rw [entries_append, entries_live] at hy
      rcases mem_append.mp hy with hy | hy
      · exact Nat.ne_of_lt (haround.before y hy)
      · exact Nat.ne_of_gt (haround.after y hy)
    · simp [hh₁]
  obtain ⟨h', hins, hthr, hframe, hbytes⟩ := hdet.insert hfit
  have hframe' : Frame h h' dma (Touched x t pre post) := by
    refine (hframe₁.mono ?_).trans hframe
    rintro y rfl
    exact .inl (by omega)
  refine ⟨h', ?_, ⟨hthr, ?_⟩, hbytes, hframe'.mono fun y hy => hy.inRegions hpart.laid⟩
  · have hlink : sub32 (x + heapStructSize) heapStructSize = x := by
      rw [sub32_of_le (by omega) (by simp only [heapStructSize]; omega)]
      omega
    have hdma : decide ((if dma then dmaBufferMark else 0) = dmaBufferMark) = dma := by
      cases dma <;> rfl
    have hmarked : (if dma then dmaBufferMark else 0) = 0 ∨
        (if dma then dmaBufferMark else 0) = dmaBufferMark := by
      cases dma <;> simp
    simp only [vPortFree, hlink, hheader, hnext]
    rw [if_neg (by simp [heapStructSize]), if_pos ⟨by omega, hmarked⟩, hdma, Nat.add_sub_cancel]
    exact hins
  · rw [liveCells_giveBack, ← liveCells_append]
    have hothers : LiveHeaders h mark (liveCells (pre ++ post)) := fun c hc =>
      hpart.live c (by
        rw [liveCells_append] at hc ⊢
        rcases mem_append.mp hc with hc | hc <;> simp [hc])
    exact hothers.congr fun c hc => hframe'.mem _ (not_touched_of_live hpart.laid hc)

end Edit

end WiseSdk.Heap
