import WiseSdk.Heap.FreeList
import WiseSdk.Library.Runs

/-!
# The words of the machine

Addresses and sizes are kept as natural numbers.  `MachineState` says that every variable of
the allocator and every word of memory fits into 32 bits.  Defining the regions establishes this
from a memory of words, over any regions, usable or not, and taking and freeing blocks keeps it, for
headers of any size.
-/

namespace WiseSdk.Heap

open Library Option Function

def BlockLink.Words (link : BlockLink) : Prop :=
  link.pxNextFreeBlock < 2 ^ 32 ∧ link.xBlockSize < 2 ^ 32

/-- A machine state with the heap defined: every variable and every word of memory holds 32 bits. -/
structure MachineState (h : HeapState) : Prop where
  heads : ∀ dma, (h.start dma).pxNextFreeBlock < 2 ^ 32
  mem : ∀ a, (h.mem a).Words
  ends : ∀ dma, h.pxBlockEnd dma < 2 ^ 32
  bytes : h.xFreeBytesRemaining < 2 ^ 32
  defined : h.pxEnd ≠ 0

theorem MachineState.next {h : HeapState} (hm : MachineState h) (loc : Loc) :
    h.next loc < 2 ^ 32 := by
  cases loc with
  | start dma => exact hm.heads dma
  | block a => exact (hm.mem a).1

theorem findIterator_some {h : HeapState} {b fuel : ℕ} {loc loc' : Loc}
    (hfind : findIterator h b fuel loc = some loc') : loc' = loc ∨ ∃ a < b, loc' = .block a := by
  induction fuel generalizing loc with
  | zero => simp [findIterator] at hfind
  | succ fuel ih =>
    rw [findIterator] at hfind
    split_ifs at hfind with hlt
    · rcases ih hfind with rfl | hbelow
      · exact .inr ⟨_, hlt, rfl⟩
      · exact .inr hbelow
    · exact .inl (some.inj hfind).symm

/-! ## The states of a run are states of the machine -/

section Words

variable {h h' : HeapState} {dma : Bool} {a b n w hdr : ℕ} {link : BlockLink}

theorem u32_lt (n : ℕ) : u32 n < 2 ^ 32 := Nat.mod_lt _ (by decide)

theorem sub32_lt (a b : ℕ) : sub32 a b < 2 ^ 32 := Nat.mod_lt _ (by decide)

variable {mem : ℕ → BlockLink}

theorem words_update (hmem : ∀ a, (mem a).Words) (hlink : link.Words) (b : ℕ)
    : (update mem a link b).Words := by
  by_cases hb : b = a
  · rw [hb, update_self]
    exact hlink
  · rw [update_of_ne hb]
    exact hmem b

theorem setAllocated_lt (hn : n < 2 ^ 32) : setAllocated n < 2 ^ 32 := by
  unfold setAllocated
  split
  · exact hn
  · simp only [blockAllocatedBit] at *
    omega

section

variable (hm : MachineState h)

include hm

theorem MachineState.setLink (a : ℕ) (hlink : link.Words) : MachineState (h.setLink a link) :=
  { hm with mem := words_update hm.mem hlink }

theorem MachineState.setSize (hn : n < 2 ^ 32) : MachineState (h.setSize a n) := by
  have hlink : BlockLink.Words ⟨(h.mem a).pxNextFreeBlock, n⟩ := ⟨(hm.mem a).1, hn⟩
  exact hm.setLink a hlink

theorem MachineState.setNext (loc : Loc) (hn : n < 2 ^ 32) : MachineState (h.setNext loc n) := by
  rcases loc with (_ | _) | a
  · refine { hm with heads := fun dma => ?_ }
    cases dma with
    | false => exact hn
    | true => exact hm.heads true
  · refine { hm with heads := fun dma => ?_ }
    cases dma with
    | false => exact hm.heads false
    | true => exact hn
  · have hlink : BlockLink.Words ⟨n, (h.mem a).xBlockSize⟩ := ⟨hn, (hm.mem a).2⟩
    exact hm.setLink a hlink

theorem MachineState.linkBefore (dma : Bool) (b : ℕ) (hn : n < 2 ^ 32) :
    (linkBefore h dma b n).Words := by
  simp only [WiseSdk.Heap.linkBefore]
  split
  · split
    · exact ⟨(hm.mem n).1, u32_lt _⟩
    · exact ⟨hm.ends dma, (hm.mem b).2⟩
  · exact ⟨hn, (hm.mem b).2⟩

theorem MachineState.insert (hb : b < 2 ^ 32)
    (hins : insertBlockIntoFreeListWithDMA h b dma = some h') : MachineState h' := by
  unfold insertBlockIntoFreeListWithDMA at hins
  cases hfind : findIterator h b listFuel (.start dma) with
  | none => simp [hfind] at hins
  | some loc =>
    have hjoin : MachineState (joinBefore h loc b).1 ∧ (joinBefore h loc b).2 < 2 ^ 32 := by
      rcases findIterator_some hfind with rfl | ⟨a, ha, rfl⟩
      · exact ⟨hm, hb⟩
      · simp only [joinBefore]
        split
        · exact ⟨hm.setSize (u32_lt _), ha.trans hb⟩
        · exact ⟨hm, hb⟩
    have hlink := hjoin.1.setLink (joinBefore h loc b).2
      (hjoin.1.linkBefore dma (joinBefore h loc b).2 (hjoin.1.next loc))
    simp only [hfind] at hins
    split at hins
    · cases hins
      exact hlink.setNext _ hjoin.2
    · cases hins
      exact hlink

theorem MachineState.takeFound (hw : w < 2 ^ 32) {found : Option (Loc × ℕ)} {r : HeapState × ℕ}
    (htake : takeFound h dma w found hdr = some r) : MachineState r.1 := by
  rcases found with _ | ⟨prev, x⟩
  · cases htake
  simp only [WiseSdk.Heap.takeFound] at htake
  split at htake
  · simp only [takeBlock, map_eq_some_iff] at htake
    obtain ⟨h₂, hsplit, rfl⟩ := htake
    have hm₁ := hm.setNext prev (hm.mem x).1
    have hm₂ : MachineState h₂ := by
      simp only [splitBlock] at hsplit
      split at hsplit
      · exact ((hm₁.setSize (sub32_lt _ _)).setSize hw).insert (u32_lt _) hsplit
      · cases hsplit
        exact hm₁
    have hsize := (hm₂.mem x).2
    refine ⟨hm₂.heads, words_update hm₂.mem ⟨?_, ?_⟩, hm₂.ends, sub32_lt _ _, hm₂.defined⟩
    · simp only [dmaBufferMark]
      split <;> decide
    · exact setAllocated_lt hsize
  · cases htake
    exact hm

theorem MachineState.free {pv : ℕ} (hfree : vPortFree h pv hdr = some h') : MachineState h' := by
  unfold vPortFree at hfree
  split at hfree
  · cases hfree
    exact hm
  simp only at hfree
  split at hfree
  · have hsize := (hm.mem (sub32 pv hdr)).2
    have hlink : BlockLink.Words ⟨0, (h.mem (sub32 pv hdr)).xBlockSize - blockAllocatedBit⟩ := by
      refine ⟨by simp, ?_⟩
      simp only
      omega
    refine MachineState.insert ?_ (sub32_lt _ _) hfree
    refine ⟨hm.heads, fun b => ?_, hm.ends, u32_lt _, hm.defined⟩
    exact words_update (a := sub32 pv hdr) hm.mem hlink b
  · cases hfree

end

theorem Searched.wantedSize_lt {room : ℕ} (hn : Searched h n room) :
    wantedSize n room < 2 ^ 32 := by
  have hlt := hn.1
  unfold wantedSize
  split
  · simp only
    split <;> exact u32_lt _
  · omega

/-- The list being built by the loop over the regions holds words. -/
structure RegionList.Words (d : RegionList) : Prop where
  start : d.start.pxNextFreeBlock < 2 ^ 32
  pxEnd : d.pxEnd < 2 ^ 32
  mem : ∀ a, (d.mem a).Words
  total : d.xTotalHeapSize < 2 ^ 32

theorem alignDown_lt (ha : a < 2 ^ 32) : alignDown a < 2 ^ 32 :=
  lt_of_le_of_lt (Nat.div_mul_le_self ..) ha

theorem alignUp_lt (ha : a < 2 ^ 32) : alignUp a < 2 ^ 32 := by
  unfold alignUp
  split
  · exact alignDown_lt (u32_lt _)
  · exact ha

theorem defineRegion_words {d d' : RegionList} {r : HeapRegion} (hd : d.Words)
    (hdef : defineRegionWith hdr d r = some d') : d'.Words := by
  have hup := alignUp_lt r.start_lt
  have hend : regionEnd r hdr < 2 ^ 32 := alignDown_lt (sub32_lt _ _)
  have hmarker : BlockLink.Words ⟨0, 0⟩ := ⟨by decide, by decide⟩
  have hblock : BlockLink.Words
      ⟨regionEnd r hdr, sub32 (regionEnd r hdr) (alignUp r.pucStartAddress)⟩ :=
    ⟨hend, sub32_lt _ _⟩
  have hmem := words_update (words_update hd.mem (a := regionEnd r hdr) hmarker)
    (a := alignUp r.pucStartAddress) hblock
  simp only [defineRegionWith] at hdef
  split at hdef
  · cases hdef
  cases hdef
  refine ⟨?_, hend, ?_, u32_lt _⟩
  · simp only
    split
    · exact hup
    · exact hd.start
  · simp only
    split
    · exact words_update hmem ⟨hup, (hmem d.pxEnd).2⟩
    · exact hmem

theorem foldlM_defineRegion_words {d d' : RegionList} {regions : List HeapRegion}
    (hd : d.Words) (hdef : regions.foldlM (defineRegionWith hdr) d = some d') : d'.Words :=
  inv_of_run RegionList.Words (fun _ _ _ hd _ hstep => defineRegion_words hd hstep) hd
    (stepsMeet_true (defineRegionWith hdr) d regions) (List.prefix_refl regions) hdef

/-- **The regions are defined** in a state of the machine. -/
theorem machineState_define {main dma : List HeapRegion} (hmem : ∀ a, (mem a).Words)
    (hdef : defineHeaps mem main dma hdr = some h) : MachineState h := by
  obtain ⟨h₀, hdef₀, hdef⟩ := bind_eq_some_iff.mp hdef
  have hzero : (0 : ℕ) < 2 ^ 32 := by decide
  -- The main list.
  simp only [vPortDefineHeapRegions, reset, ne_eq, not_true_eq_false, if_false] at hdef₀
  split at hdef₀
  · cases hdef₀
  case h_2 d hfold =>
    have hd := foldlM_defineRegion_words ⟨hzero, hzero, hmem, hzero⟩ hfold
    split at hdef₀
    · cases hdef₀
    cases hdef₀
    -- The DMA list: a copy of the head, or a list of its own.
    simp only [vPortDefineHeapRegionsDMA] at hdef
    split at hdef
    · cases hdef
    case isFalse hends =>
      have hne : d.pxEnd ≠ 0 := fun h0 => hends (.inl h0)
      split at hdef
      · cases hdef
        exact ⟨fun dma => by cases dma <;> exact hd.start, hd.mem,
          fun dma => by cases dma <;> exact hd.pxEnd, hd.total, hne⟩
      split at hdef
      · cases hdef
      case h_2 e hfold' =>
        have he := foldlM_defineRegion_words (d := ⟨⟨0, 0⟩, 0, d.mem, 0, 0⟩)
          ⟨hzero, hzero, hd.mem, hzero⟩ hfold'
        split at hdef
        · cases hdef
        · cases hdef
          exact ⟨fun dma => by cases dma <;> [exact hd.start; exact he.start], he.mem,
            fun dma => by cases dma <;> [exact hd.pxEnd; exact he.pxEnd], u32_lt _, hne⟩

end Words

end WiseSdk.Heap
