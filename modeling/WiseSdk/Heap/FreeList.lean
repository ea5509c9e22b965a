import WiseSdk.Heap.Blocks
import WiseSdk.Library.BlockLayout
import WiseSdk.Library.LinkedSegment

/-!
# The free list and the layout it threads

`ListOf h dma cells` connects the memory of the allocator with a layout: the walk from a list head
to the end marker visits exactly the linked cells, and their headers show their sizes. This module
says what the loops and the edits of the C code do to that walk:

* `findIterator_eq`, `searchList_eq`: the two loops end, and where;
* `linkBefore_spec`: the header a block gets is that of the cell `absorb` puts there;
* `insertBlock_alone`, `insertBlock_joined`: inserting a block gives it back to the layout.

Everything else is unchanged (`Frame`), so a second list in the same memory is not disturbed.
-/

namespace WiseSdk.Heap

open Library List

def HeapState.nextOf (h : HeapState) (a : ℕ) : ℕ := (h.mem a).pxNextFreeBlock

/-- The list of one head threads the linked cells of a layout. -/
structure ListOf (h : HeapState) (dma : Bool) (cells : List Cell) : Prop where
  walk : Segment h.nextOf (h.start dma).pxNextFreeBlock (entries cells) (h.pxBlockEnd dma)
  sizes : ∀ c ∈ cells, c.linked → (h.mem c.addr).xBlockSize = c.linkSize
  endMarker : h.mem (h.pxBlockEnd dma) = ⟨0, 0⟩

/-- What a change of one list leaves alone: the other head, the end markers and the headers it does
not touch. -/
structure Frame (h h' : HeapState) (dma : Bool) (touched : ℕ → Prop) : Prop where
  mem : ∀ a, ¬touched a → h'.mem a = h.mem a
  otherHead : h'.start (!dma) = h.start (!dma)
  pxEnd : h'.pxEnd = h.pxEnd
  pxEndDMA : h'.pxEndDMA = h.pxEndDMA

namespace Frame

variable {h h' h'' : HeapState} {dma : Bool} {T T' : ℕ → Prop}

theorem mono (hf : Frame h h' dma T) (hT : ∀ a, T a → T' a) : Frame h h' dma T' :=
  { hf with mem := fun a ha => hf.mem a fun hTa => ha (hT a hTa) }

theorem trans (hf : Frame h h' dma T) (hf' : Frame h' h'' dma T) : Frame h h'' dma T :=
  ⟨fun a ha => (hf'.mem a ha).trans (hf.mem a ha), hf'.otherHead.trans hf.otherHead,
    hf'.pxEnd.trans hf.pxEnd, hf'.pxEndDMA.trans hf.pxEndDMA⟩

theorem pxBlockEnd (hf : Frame h h' dma T) (dma' : Bool) :
    h'.pxBlockEnd dma' = h.pxBlockEnd dma' := by
  simp only [HeapState.pxBlockEnd, hf.pxEnd, hf.pxEndDMA]

end Frame

/-! ## Reading after writing -/

section Writes

variable (h : HeapState) (dma : Bool) (loc : Loc) (a b n : ℕ) (link : BlockLink)

@[simp] theorem setSize_pxBlockEnd : (h.setSize a n).pxBlockEnd dma = h.pxBlockEnd dma := rfl
@[simp] theorem setLink_pxBlockEnd :
    (h.setLink a link).pxBlockEnd dma = h.pxBlockEnd dma := rfl

@[simp] theorem setLink_mem_self : (h.setLink a link).mem a = link := by
  simp [HeapState.setLink]

theorem setLink_mem_of_ne {a b : ℕ} (hab : b ≠ a) : (h.setLink a link).mem b = h.mem b := by
  simp [HeapState.setLink, hab]

theorem setSize_mem_of_ne {a b : ℕ} (hab : b ≠ a) : (h.setSize a n).mem b = h.mem b := by
  simp [HeapState.setSize, hab]

@[simp] theorem setSize_nextOf : (h.setSize a n).nextOf = h.nextOf := by
  funext x
  by_cases hx : x = a
  · subst hx
    simp [HeapState.nextOf, HeapState.setSize]
  · simp [HeapState.nextOf, setSize_mem_of_ne h n hx]

@[simp] theorem setSize_size_self : ((h.setSize a n).mem a).xBlockSize = n := by
  simp [HeapState.setSize]

@[simp] theorem setNext_size :
    ((h.setNext loc n).mem a).xBlockSize = (h.mem a).xBlockSize := by
  rcases loc with (_ | _) | b
  · rfl
  · rfl
  · by_cases hab : a = b
    · subst hab
      simp [HeapState.setNext]
    · simp [HeapState.setNext, hab]

@[simp] theorem setNext_next_self : (h.setNext loc n).next loc = n := by
  rcases loc with (_ | _) | b <;> simp [HeapState.setNext, HeapState.next, HeapState.start]

theorem setNext_mem_of_ne {a : ℕ} (hab : loc ≠ .block a) :
    (h.setNext loc n).mem a = h.mem a := by
  rcases loc with (_ | _) | b
  · rfl
  · rfl
  · have : a ≠ b := fun h => hab (by rw [h])
    simp [HeapState.setNext, this]

theorem setNext_otherHead {loc : Loc} (hloc : loc ≠ .start (!dma)) :
    (h.setNext loc n).start (!dma) = h.start (!dma) := by
  rcases loc with (_ | _) | b <;> cases dma <;> simp_all [HeapState.setNext, HeapState.start]

theorem setLink_setNext_comm (hloc : loc ≠ .block a) :
    (h.setLink a link).setNext loc n = (h.setNext loc n).setLink a link := by
  rcases loc with (_ | _) | b
  · rfl
  · rfl
  · have hab : b ≠ a := fun hba => hloc (by rw [hba])
    simp [HeapState.setLink, HeapState.setNext, hab, Function.update_comm hab]

theorem frame_setLink : Frame h (h.setLink a link) dma (· = a) :=
  ⟨fun _ hb => setLink_mem_of_ne h link hb, rfl, rfl, rfl⟩

theorem frame_setSize : Frame h (h.setSize a n) dma (· = a) :=
  ⟨fun _ hb => setSize_mem_of_ne h n hb, rfl, rfl, rfl⟩

theorem setNext_pxEnd : (h.setNext loc n).pxEnd = h.pxEnd := by
  rcases loc with (_ | _) | _ <;> rfl

theorem setNext_pxEndDMA : (h.setNext loc n).pxEndDMA = h.pxEndDMA := by
  rcases loc with (_ | _) | _ <;> rfl

theorem setNext_xFreeBytesRemaining :
    (h.setNext loc n).xFreeBytesRemaining = h.xFreeBytesRemaining := by
  rcases loc with (_ | _) | _ <;> rfl

end Writes

/-! ## The last place of a walk -/

def lastLoc (loc : Loc) (l : List ℕ) : Loc := l.foldl (fun _ a => .block a) loc

@[simp] theorem lastLoc_nil (loc : Loc) : lastLoc loc [] = loc := rfl

@[simp] theorem lastLoc_cons (loc : Loc) (a : ℕ) (l : List ℕ) :
    lastLoc loc (a :: l) = lastLoc (.block a) l := rfl

@[simp] theorem lastLoc_concat (loc : Loc) (l : List ℕ) (a : ℕ) :
    lastLoc loc (l ++ [a]) = .block a := by simp [lastLoc]

theorem lastLoc_cases (loc : Loc) (l : List ℕ) :
    (l = [] ∧ lastLoc loc l = loc) ∨ ∃ l' a, l = l' ++ [a] ∧ lastLoc loc l = .block a := by
  rcases l.eq_nil_or_concat with rfl | ⟨l', a, rfl⟩
  · exact .inl ⟨rfl, rfl⟩
  · rw [concat_eq_append]
    exact .inr ⟨l', a, rfl, lastLoc_concat loc l' a⟩

variable {l : List ℕ}

theorem lastLoc_ne_block {dma : Bool} {a : ℕ} (ha : a ∉ l) : lastLoc (.start dma) l ≠ .block a := by
  rcases lastLoc_cases (.start dma) l with ⟨-, hlast⟩ | ⟨l', b, rfl, hlast⟩
  · simp [hlast]
  · rw [hlast]
    rintro ⟨⟩
    exact ha (by simp)

variable {h : HeapState}

theorem next_lastLoc {loc : Loc} {n : ℕ} (hwalk : Segment h.nextOf (h.next loc) l n) :
    h.next (lastLoc loc l) = n := by
  induction l generalizing loc with
  | nil => exact hwalk
  | cons a l ih => exact ih hwalk.2

/-- **Relinking the end of a walk.** Writing `n` into its last place leads the walk to `n`. -/
theorem segment_setNext_lastLoc {dma : Bool} {q : ℕ} (n : ℕ) (hl : l.Nodup)
    (hwalk : Segment h.nextOf (h.start dma).pxNextFreeBlock l q) :
    Segment (h.setNext (lastLoc (.start dma) l) n).nextOf
      ((h.setNext (lastLoc (.start dma) l) n).start dma).pxNextFreeBlock l n := by
  rcases lastLoc_cases (.start dma) l with ⟨rfl, -⟩ | ⟨l', a, rfl, hlast⟩
  · exact setNext_next_self h (.start dma) n
  rw [hlast]
  obtain ⟨hl', -⟩ := segment_append_cons.mp hwalk
  refine segment_append_cons.mpr ⟨?_, setNext_next_self h (.block a) n⟩
  refine hl'.congr fun b hb => ?_
  have hba : b ≠ a := by
    rintro rfl
    exact (nodup_append.mp hl).2.2 b hb b (by simp) rfl
  simp [HeapState.nextOf, HeapState.setNext, hba]

/-! ## The two loops -/

/-- **The insertion loop** walks over the nodes below the block and stops. -/
theorem findIterator_eq {b n : ℕ} {loc : Loc} {fuel : ℕ}
    (hwalk : Segment h.nextOf (h.next loc) l n) (hbelow : ∀ a ∈ l, a < b) (hn : b ≤ n)
    (hfuel : l.length < fuel) : findIterator h b fuel loc = some (lastLoc loc l) := by
  induction fuel generalizing l loc with
  | zero => exact absurd hfuel (Nat.not_lt_zero _)
  | succ fuel ih =>
    cases l with
    | nil =>
      have hnext : ¬h.next loc < b := by
        rw [segment_nil.mp hwalk]
        omega
      simp [findIterator, hnext]
    | cons a l =>
      have hnext : h.next loc < b := by
        rw [hwalk.1]
        exact hbelow a (by simp)
      rw [findIterator, if_pos hnext, hwalk.1, lastLoc_cons]
      exact ih hwalk.2 (fun c hc => hbelow c (by simp [hc])) (Nat.lt_of_succ_lt_succ hfuel)

/-- **The search loop** passes the nodes that are too small, up to one large enough or without
successor. -/
theorem searchList_eq {wanted b : ℕ} {loc : Loc} {p fuel : ℕ} (hwalk : Segment h.nextOf p l b)
    (hsmall : ∀ a ∈ l, (h.mem a).xBlockSize < wanted ∧ h.nextOf a ≠ 0)
    (hb : wanted ≤ (h.mem b).xBlockSize ∨ h.nextOf b = 0) (hfuel : l.length < fuel) :
    searchList h wanted fuel loc p = some (lastLoc loc l, b) := by
  induction fuel generalizing l loc p with
  | zero => exact absurd hfuel (Nat.not_lt_zero _)
  | succ fuel ih =>
    cases l with
    | nil =>
      obtain rfl := segment_nil.mp hwalk
      have hstop : ¬((h.mem p).xBlockSize < wanted ∧ (h.mem p).pxNextFreeBlock ≠ 0) := by
        rintro ⟨hlt, hne⟩
        rcases hb with hb | hb
        · omega
        · exact hne hb
      rw [searchList, if_neg hstop, lastLoc_nil]
    | cons a l =>
      obtain ⟨rfl, hwalk⟩ := hwalk
      rw [searchList, if_pos (by exact hsmall p (by simp)), lastLoc_cons]
      exact ih hwalk (fun c hc => hsmall c (by simp [hc])) (Nat.lt_of_succ_lt_succ hfuel)

/-! ## Facts about the entries of a layout -/

section Entries

variable {hdr last a e n : ℕ} {rs : List Extent} {cells pre post : List Cell} {c : Cell}

theorem entries_ascending (hhdr : 0 < hdr) (h : Laid hdr last a e rs cells) :
    (entries cells).Pairwise (· < ·) := by
  rw [entries, pairwise_map]
  refine (List.Pairwise.imp_of_mem ?_ h.pairwise).filter _
  intro c d hc _ hcd
  have := h.header_le c hc
  omega

theorem entries_lt_last (hhdr : 0 < hdr) (h : Laid hdr last a e rs cells) :
    ∀ x ∈ entries cells, x < last := by
  intro x hx
  obtain ⟨c, hc, -, rfl⟩ := mem_entries.mp hx
  have := h.bounds.2 c hc
  have := h.header_le c hc
  omega

theorem entries_lt_of_before (hhdr : 0 < hdr) (h : Laid hdr last a e rs (pre ++ c :: post)) :
    ∀ x ∈ entries pre, x < c.addr := by
  intro x hx
  obtain ⟨d, hd, -, rfl⟩ := mem_entries.mp hx
  have := h.before hd
  have := h.header_le d (by simp [hd])
  omega

theorem lt_entries_of_after (h : Laid hdr last a e rs (pre ++ c :: post)) :
    ∀ x ∈ entries post, c.addr + c.size ≤ x := by
  intro x hx
  obtain ⟨d, hd, -, rfl⟩ := mem_entries.mp hx
  exact h.after hd

theorem length_le_of_ascending (hl : l.Pairwise (· < ·)) (hn : ∀ x ∈ l, x < n) : l.length ≤ n := by
  have hnodup : l.Nodup := hl.imp Nat.ne_of_lt
  rw [← toFinset_card_of_nodup hnodup, ← Finset.card_range n]
  refine Finset.card_le_card fun x hx => ?_
  rw [Finset.mem_range]
  exact hn x (mem_toFinset.mp hx)

/-- The walk over the cells after an address starts at or after it. -/
theorem le_of_segment_entries {next : ℕ → ℕ} {b p q : ℕ} (hseg : Segment next p (entries post) q)
    (hpost : ∀ x ∈ entries post, b ≤ x) (hq : b ≤ q) : b ≤ p := by
  cases hentries : entries post with
  | nil =>
    rw [hentries] at hseg
    rwa [segment_nil.mp hseg]
  | cons x l =>
    rw [hentries] at hseg
    rw [hseg.1]
    exact hpost x (by simp [hentries])

end Entries

/-! ## Inserting a block -/

theorem u32_of_lt {n : ℕ} (h : n < 2 ^ 32) : u32 n = n := Nat.mod_eq_of_lt h

theorem sub32_of_le {a b : ℕ} (hb : b ≤ a) (ha : a < 2 ^ 32) : sub32 a b = a - b := by
  unfold sub32
  omega

section Insert

variable {h : HeapState} {dma : Bool} {a e x t n y : ℕ} {rs : List Extent}
  {pre post rest post' : List Cell} {c : Cell}

/-- Cells on both sides of an address `x` that is not one of theirs, with nothing in common. -/
structure Around (x : ℕ) (pre post : List Cell) : Prop where
  ascending : (entries pre).Pairwise (· < ·)
  before : ∀ y ∈ entries pre, y < x
  after : ∀ y ∈ entries post, x < y

theorem Around.not_mem_pre (ha : Around x pre post) (hy : x ≤ y) : y ∉ entries pre :=
  fun hmem => absurd (ha.before y hmem) (by omega)

theorem Around.ne (ha : Around x pre post) (hc : c ∈ pre ++ post) (hlinked : c.linked) :
    c.addr ≠ x := by
  rcases mem_append.mp hc with hc | hc
  · exact Nat.ne_of_lt (ha.before _ (mem_entries.mpr ⟨c, hc, hlinked, rfl⟩))
  · exact Nat.ne_of_gt (ha.after _ (mem_entries.mpr ⟨c, hc, hlinked, rfl⟩))

theorem Around.nodup (ha : Around x pre post) : (entries pre).Nodup :=
  ha.ascending.imp Nat.ne_of_lt

section

variable {last : ℕ} (hlaid : Laid heapStructSize last a e rs (pre ++ c :: post))

include hlaid

theorem end_le : c.addr + c.size ≤ last := (hlaid.bounds.2 c (by simp)).2

theorem addr_lt : c.addr < c.addr + c.size := by
  have hsize := hlaid.header_le c (by simp)
  rw [heapStructSize] at hsize
  omega

theorem around_of_laid : Around c.addr pre post := by
  have hall := entries_ascending (by decide) hlaid
  rw [entries_append] at hall
  exact ⟨(pairwise_append.mp hall).1, entries_lt_of_before (by decide) hlaid,
    fun y hy => (addr_lt hlaid).trans_le (lt_entries_of_after hlaid y hy)⟩

end

theorem Around.mono_post (ha : Around x pre post) (hsub : ∀ c ∈ post', c.linked → c ∈ post)
    : Around x pre post' := by
  refine ⟨ha.ascending, ha.before, fun y hy => ?_⟩
  obtain ⟨c, hc, hlinked, rfl⟩ := mem_entries.mp hy
  exact ha.after _ (mem_entries.mpr ⟨c, hsub c hc hlinked, hlinked, rfl⟩)

theorem mem_middle {d : Cell} (hc : c ∈ pre ++ post) : c ∈ pre ++ d :: post :=
  perm_middle.mem_iff.mpr (mem_cons_of_mem _ hc)

theorem linkSize_le (c : Cell) : c.linkSize ≤ c.size := by
  unfold Cell.linkSize
  split <;> omega

section

variable (hlaid : Laid heapStructSize (h.pxBlockEnd dma) a e rs (pre ++ ⟨.live, x, t⟩ :: post))
  (hend : h.pxBlockEnd dma < 2 ^ 32)

include hlaid hend

theorem linkBefore_apart (hsize : (h.mem x).xBlockSize = t)
    (hwalk : Segment h.nextOf n (entries post) (h.pxBlockEnd dma))
    (hunlinked : ∀ c rest, post = c :: rest → ¬c.linked) : linkBefore h dma x n = ⟨n, t⟩ := by
  have hbound : ∀ c ∈ pre ++ ⟨.live, x, t⟩ :: post, c.addr + c.size ≤ h.pxBlockEnd dma :=
    fun c hc => (hlaid.bounds.2 c hc).2
  have hx : x + t ≤ h.pxBlockEnd dma := hbound ⟨.live, x, t⟩ (by simp)
  have hu : u32 (x + t) = x + t := u32_of_lt (by omega)
  simp only [linkBefore, hsize, hu]
  cases post with
  | nil =>
    have hn : n = h.pxBlockEnd dma := segment_nil.mp hwalk
    have hlast : h.pxBlockEnd dma = x + t := hlaid.last_next rfl
    rw [if_pos (by rw [hn, hlast]), if_neg (by simp [hn]), hn]
  | cons c post =>
    -- The neighbour is not in the list, so the next entry is further away.
    have hc : c.addr = x + t := hlaid.addr_next rfl
    rw [entries_cons_of_not_linked (hunlinked c post rfl)] at hwalk
    have hcsize := hlaid.header_le c (by simp)
    rw [heapStructSize] at hcsize
    have hcend : c.addr + c.size ≤ h.pxBlockEnd dma := hbound c (by simp)
    have hn : c.addr + c.size ≤ n := by
      refine le_of_segment_entries hwalk (fun y hy => ?_) hcend
      obtain ⟨d, hd, -, rfl⟩ := mem_entries.mp hy
      rw [← singleton_append, ← append_assoc] at hlaid
      exact hlaid.after hd
    rw [if_neg (by omega)]

theorem linkBefore_joined (hsize : (h.mem x).xBlockSize = t) (hpost : post = c :: rest)
    (hc : (h.mem c.addr).xBlockSize = c.linkSize) :
    linkBefore h dma x c.addr = ⟨h.nextOf c.addr, t + c.linkSize⟩ := by
  subst hpost
  have haddr : c.addr = x + t := hlaid.addr_next rfl
  have hcend := (hlaid.bounds.2 c (by simp)).2
  have hcsize := hlaid.header_le c (by simp)
  have hle := linkSize_le c
  rw [heapStructSize] at hcsize
  simp only [linkBefore, hsize, hc]
  rw [u32_of_lt (by omega), if_pos haddr.symm, if_pos (by omega), u32_of_lt (by omega)]
  rfl

/-- **The block and what follows it.** The header that `linkBefore` gives to a block at `x` is the
one of the cell `absorb` puts there, and leads on to the cells after it. -/
theorem linkBefore_spec (hsize : (h.mem x).xBlockSize = t)
    (hsizes : ∀ c ∈ post, c.linked → (h.mem c.addr).xBlockSize = c.linkSize)
    (hwalk : Segment h.nextOf n (entries post) (h.pxBlockEnd dma)) :
    ∃ t' post', absorb x t post = ⟨.free, x, t'⟩ :: post' ∧ (linkBefore h dma x n).xBlockSize = t' ∧
      Segment h.nextOf (linkBefore h dma x n).pxNextFreeBlock (entries post') (h.pxBlockEnd dma) ∧
      (∀ c ∈ post', c.linked → c ∈ post) := by
  -- The cases are those of `absorb`; in each the neighbour decides the test of the C code.
  fun_cases absorb x t post with
  | case1 y u post =>
    obtain ⟨rfl, hwalk⟩ := hwalk
    have hmem := hsizes ⟨.free, n, u⟩ (by simp) rfl
    rw [linkBefore_joined hlaid hend hsize rfl hmem]
    exact ⟨t + u, post, rfl, rfl, hwalk, fun c hc _ => by simp [hc]⟩
  | case2 y u post =>
    obtain ⟨rfl, hwalk⟩ := hwalk
    have hmem := hsizes ⟨.marker true, n, u⟩ (by simp) rfl
    rw [linkBefore_joined hlaid hend hsize rfl hmem]
    refine ⟨t, _, rfl, rfl, hwalk, fun c hc hlinked => ?_⟩
    rcases mem_cons.mp hc with rfl | hc
    · simp [Cell.linked] at hlinked
    · simp [hc]
  | case3 post hfree hmarker =>
    have hunlinked : ∀ c rest, post = c :: rest → ¬c.linked := by
      rintro ⟨k, y, u⟩ rest rfl
      cases k with
      | free => exact absurd rfl (hfree y u rest)
      | live => simp [Cell.linked]
      | marker linked =>
        cases linked with
        | true => exact absurd rfl (hmarker y u rest)
        | false => simp [Cell.linked]
    rw [linkBefore_apart hlaid hend hsize hwalk hunlinked]
    exact ⟨t, post, rfl, rfl, hwalk, fun c hc _ => hc⟩

theorem findIterator_laid (hpre : Segment h.nextOf (h.start dma).pxNextFreeBlock (entries pre) n)
    (hpost : Segment h.nextOf n (entries post) (h.pxBlockEnd dma)) :
    findIterator h x listFuel (.start dma) = some (lastLoc (.start dma) (entries pre)) := by
  have ha : Around x pre post := around_of_laid hlaid
  have hx : x + t ≤ h.pxBlockEnd dma := end_le hlaid
  have hn : x ≤ n :=
    le_of_segment_entries hpost (fun y hy => (ha.after y hy).le) (by omega)
  have hlength : (entries pre).length ≤ x := length_le_of_ascending ha.ascending ha.before
  refine findIterator_eq hpre ha.before hn ?_
  simp only [listFuel]
  omega

theorem joinBefore_of_not_free
    (hsizes : ∀ c ∈ pre, c.linked → (h.mem c.addr).xBlockSize = c.linkSize)
    (hlast : ∀ c ∈ pre.getLast?, c.kind ≠ .free) :
    joinBefore h (lastLoc (.start dma) (entries pre)) x = (h, x) := by
  rcases lastLoc_cases (.start dma) (entries pre) with ⟨-, hloc⟩ | ⟨l, y, hl, hloc⟩
  · rw [hloc]
    rfl
  rw [hloc]
  obtain ⟨c, hc, hlinked, rfl⟩ := mem_entries.mp (show y ∈ entries pre by simp [hl])
  have hbefore : c.addr + c.size ≤ x := hlaid.before hc
  have hx : x + t ≤ h.pxBlockEnd dma := end_le hlaid
  have hheader : heapStructSize ≤ c.size := hlaid.header_le c (by simp [hc])
  simp only [heapStructSize] at hheader
  -- An entry that reaches up to the block is a free cell, and its direct neighbour.
  have hne : c.addr + c.linkSize ≠ x := by
    intro hadj
    cases hkind : c.kind with
    | free =>
      have hsize : c.linkSize = c.size := by simp [Cell.linkSize, hkind]
      obtain ⟨pre', rfl⟩ := hlaid.eq_neighbour (by decide) hc (by rw [← hsize]; exact hadj)
      exact hlast c (by simp) hkind
    | live => simp [Cell.linked, hkind] at hlinked
    | marker linked =>
      have hsize : c.linkSize = 0 := by simp [Cell.linkSize, hkind]
      omega
  have hle := linkSize_le c
  have hu : u32 (c.addr + c.linkSize) = c.addr + c.linkSize := u32_of_lt (by omega)
  simp only [joinBefore, hsizes c hc hlinked, hu, if_neg hne]

end

/-- **Rewriting an entry.** A new header that leads on to the cells after `x` makes it a free cell
of that size. -/
theorem listOf_setLink {link : BlockLink} (ha : Around x pre post) (hx : x < h.pxBlockEnd dma)
    (hpre : Segment h.nextOf (h.start dma).pxNextFreeBlock (entries pre) x)
    (hpost : Segment h.nextOf link.pxNextFreeBlock (entries post) (h.pxBlockEnd dma))
    (hsizes : ∀ c ∈ pre ++ post, c.linked → (h.mem c.addr).xBlockSize = c.linkSize)
    (hmarker : h.mem (h.pxBlockEnd dma) = ⟨0, 0⟩) :
    ListOf (h.setLink x link) dma (pre ++ ⟨.free, x, link.xBlockSize⟩ :: post) := by
  have hframe : ∀ y, y ≠ x → (h.setLink x link).nextOf y = h.nextOf y := fun y hy => by
    simp only [HeapState.nextOf, setLink_mem_of_ne h link hy]
  refine ⟨?_, fun c hc hlinked => ?_, ?_⟩
  · rw [entries_append, entries_free]
    refine segment_append_cons.mpr ⟨hpre.congr fun y hy => hframe y ?_, ?_⟩
    · exact Nat.ne_of_lt (ha.before y hy)
    · have hself : (h.setLink x link).nextOf x = link.pxNextFreeBlock := by
        simp only [HeapState.nextOf, setLink_mem_self]
      rw [hself]
      exact hpost.congr fun y hy => hframe y (Nat.ne_of_gt (ha.after y hy))
  · rcases mem_cons.mp (perm_middle.mem_iff.mp hc) with rfl | hc
    · rw [setLink_mem_self]
      rfl
    · rw [setLink_mem_of_ne h link (ha.ne hc hlinked)]
      exact hsizes c hc hlinked
  · rw [setLink_pxBlockEnd, setLink_mem_of_ne h link (Nat.ne_of_gt hx)]
    exact hmarker

theorem frame_setNext (l : List ℕ) :
    Frame h (h.setNext (lastLoc (.start dma) l) n) dma (· ∈ l) := by
  refine ⟨fun y hy => setNext_mem_of_ne _ _ _ (lastLoc_ne_block hy), ?_, setNext_pxEnd ..,
    setNext_pxEndDMA ..⟩
  refine setNext_otherHead _ _ _ ?_
  rcases lastLoc_cases (.start dma) l with ⟨-, hloc⟩ | ⟨l', y, -, hloc⟩
  · simp [hloc]
  · simp [hloc]

/-- **Inserting a block whose neighbour before is not free.** -/
theorem insertBlock_alone
    (hlaid : Laid heapStructSize (h.pxBlockEnd dma) a e rs (pre ++ ⟨.live, x, t⟩ :: post))
    (hend : h.pxBlockEnd dma < 2 ^ 32) (hlist : ListOf h dma (pre ++ ⟨.live, x, t⟩ :: post))
    (hsize : (h.mem x).xBlockSize = t) (hlast : ∀ c ∈ pre.getLast?, c.kind ≠ .free) :
    ∃ h', insertBlockIntoFreeListWithDMA h x dma = some h' ∧
      ListOf h' dma (pre ++ absorb x t post) ∧
      Frame h h' dma (fun y => y = x ∨ y ∈ entries (pre ++ post)) ∧
      h'.xFreeBytesRemaining = h.xFreeBytesRemaining := by
  have hwalk := hlist.walk
  rw [entries_append, entries_live] at hwalk
  obtain ⟨n, hpre, hpost⟩ := segment_append.mp hwalk
  have hfind := findIterator_laid hlaid hend hpre hpost
  have hjoin := joinBefore_of_not_free hlaid hend
    (fun c hc => hlist.sizes c (by simp [hc])) hlast
  have hnext : h.next (lastLoc (.start dma) (entries pre)) = n := next_lastLoc hpre
  obtain ⟨t', post', habsorb, rfl, hlinkNext, hsub⟩ := linkBefore_spec hlaid hend hsize
    (fun c hc => hlist.sizes c (by simp [hc])) hpost
  have haround := (around_of_laid hlaid).mono_post hsub
  have hxend : x < h.pxBlockEnd dma := (addr_lt hlaid).trans_le (end_le hlaid)
  -- The heap in which the last entry before the block leads to it already.
  set h₀ := h.setNext (lastLoc (.start dma) (entries pre)) x with hh₀
  have hframe : Frame h h₀ dma (· ∈ entries pre) := frame_setNext _
  have hlist' := listOf_setLink (h := h₀) haround (by rwa [hframe.pxBlockEnd])
    (segment_setNext_lastLoc x haround.nodup hpre)
    (by
      rw [hframe.pxBlockEnd]
      refine hlinkNext.congr fun y hy => ?_
      simp only [HeapState.nextOf]
      rw [hframe.mem y (haround.not_mem_pre (haround.after y hy).le)])
    (fun c hc hlinked => by
      rw [hh₀, setNext_size]
      refine hlist.sizes c ?_ hlinked
      rcases mem_append.mp hc with hc | hc
      · simp [hc]
      · simp [hsub c hc hlinked])
    (by
      rw [hframe.pxBlockEnd, hframe.mem _ (haround.not_mem_pre hxend.le)]
      exact hlist.endMarker)
  have hne : lastLoc (.start dma) (entries pre) ≠ .block x :=
    lastLoc_ne_block (haround.not_mem_pre le_rfl)
  refine ⟨h₀.setLink x (linkBefore h dma x n), ?_, habsorb ▸ hlist', ?_, ?_⟩
  · simp only [insertBlockIntoFreeListWithDMA, hfind, hjoin, hnext]
    rw [if_pos hne, setLink_setNext_comm _ _ _ _ _ hne]
  · refine (hframe.mono fun y hy => .inr ?_).trans ((frame_setLink ..).mono fun y hy => .inl hy)
    rw [entries_append]
    exact mem_append_left _ hy
  · exact setNext_xFreeBytesRemaining ..

section Joined

variable {f u : ℕ} (hlaid : Laid heapStructSize (h.pxBlockEnd dma) a e rs
    (pre ++ ⟨.free, f, u⟩ :: ⟨.live, x, t⟩ :: post))

include hlaid

theorem findIterator_free (hend : h.pxBlockEnd dma < 2 ^ 32)
    (hpre : Segment h.nextOf (h.start dma).pxNextFreeBlock (entries pre) f)
    (hpost : Segment h.nextOf (h.nextOf f) (entries post) (h.pxBlockEnd dma)) :
    findIterator h x listFuel (.start dma) = some (.block f) := by
  have hseg : Segment h.nextOf (h.start dma).pxNextFreeBlock
      (entries (pre ++ [⟨.free, f, u⟩])) (h.nextOf f) := by
    rw [entries_append, entries_free]
    exact segment_append_cons.mpr ⟨hpre, rfl⟩
  rw [← singleton_append, ← append_assoc] at hlaid
  rw [findIterator_laid hlaid hend hseg hpost, entries_append, entries_free, entries_nil,
    lastLoc_concat]

theorem joinBefore_free (hend : h.pxBlockEnd dma < 2 ^ 32) (hfu : (h.mem f).xBlockSize = u)
    (hsize : (h.mem x).xBlockSize = t) :
    joinBefore h (.block f) x = (h.setSize f (u + t), f) := by
  have hx : x = f + u := hlaid.addr_next rfl
  have hbound : x + t ≤ h.pxBlockEnd dma := (hlaid.bounds.2 ⟨.live, x, t⟩ (by simp)).2
  have hfx : u32 (f + u) = x := by rw [hx, u32_of_lt (by omega)]
  have hsum : u32 (u + t) = u + t := u32_of_lt (by omega)
  simp only [joinBefore, hfu, hsize, hsum]
  rw [if_pos hfx]

/-- The two are one block of `u + t` bytes at `f`. -/
theorem laid_joined :
    Laid heapStructSize (h.pxBlockEnd dma) a e rs (pre ++ ⟨.live, f, u + t⟩ :: post) := by
  refine hlaid.replace_tail fun a e rs hl => ?_
  simp only [laid_free, laid_live] at hl ⊢
  obtain ⟨rfl, hu16, -, rfl, -, hroom, hl⟩ := hl
  rw [← Nat.add_assoc]
  exact ⟨rfl, by omega, hroom, hl⟩

theorem sizes_joined (hsizes : ∀ c ∈ pre ++ ⟨.free, f, u⟩ :: ⟨.live, x, t⟩ :: post, c.linked →
      (h.mem c.addr).xBlockSize = c.linkSize) :
    ∀ c ∈ pre ++ post, c.linked → ((h.setSize f (u + t)).mem c.addr).xBlockSize = c.linkSize := by
  intro c hc hlinked
  rw [setSize_mem_of_ne h _ ((around_of_laid (laid_joined hlaid)).ne hc hlinked)]
  exact hsizes c (mem_middle (mem_middle hc)) hlinked

/-- **Inserting a block whose neighbour before is free**: the two are joined. -/
theorem insertBlock_joined (hend : h.pxBlockEnd dma < 2 ^ 32)
    (hlist : ListOf h dma (pre ++ ⟨.free, f, u⟩ :: ⟨.live, x, t⟩ :: post))
    (hsize : (h.mem x).xBlockSize = t) :
    ∃ h', insertBlockIntoFreeListWithDMA h x dma = some h' ∧
      ListOf h' dma (pre ++ absorb f (u + t) post) ∧
      Frame h h' dma (· = f) ∧ h'.xFreeBytesRemaining = h.xFreeBytesRemaining := by
  have hwalk := hlist.walk
  rw [entries_append, entries_free, entries_live] at hwalk
  obtain ⟨hpre, hpost⟩ := segment_append_cons.mp hwalk
  have hfu : (h.mem f).xBlockSize = u := hlist.sizes ⟨.free, f, u⟩ (by simp) rfl
  have hfind := findIterator_free hlaid hend hpre hpost
  have hjoin := joinBefore_free hlaid hend hfu hsize
  have hsizes := sizes_joined hlaid hlist.sizes
  have hlaid₁ : Laid heapStructSize ((h.setSize f (u + t)).pxBlockEnd dma) a e rs
      (pre ++ ⟨.live, f, u + t⟩ :: post) := laid_joined hlaid
  obtain ⟨t', post', habsorb, rfl, hlinkNext, hsub⟩ := linkBefore_spec hlaid₁ hend
    (setSize_size_self ..) (fun c hc => hsizes c (by simp [hc]))
    (by rw [setSize_nextOf]; exact hpost)
  have hfend : f < h.pxBlockEnd dma := (addr_lt hlaid).trans_le (end_le hlaid)
  have hlist' := listOf_setLink (h := h.setSize f (u + t))
    ((around_of_laid hlaid₁).mono_post hsub) hfend
    (by rw [setSize_nextOf]; exact hpre) hlinkNext
    (fun c hc hlinked => by
      refine hsizes c ?_ hlinked
      rcases mem_append.mp hc with hc | hc
      · simp [hc]
      · simp [hsub c hc hlinked])
    (by
      rw [setSize_pxBlockEnd, setSize_mem_of_ne h _ (Nat.ne_of_gt hfend)]
      exact hlist.endMarker)
  refine ⟨_, ?_, habsorb ▸ hlist', (frame_setSize ..).trans (frame_setLink ..), rfl⟩
  have hnext : (h.setSize f (u + t)).next (.block f) = h.nextOf f :=
    congrFun (setSize_nextOf h f (u + t)) f
  simp only [insertBlockIntoFreeListWithDMA, hfind, hjoin, hnext]
  rw [if_neg (by simp)]

end Joined

end Insert

end WiseSdk.Heap
