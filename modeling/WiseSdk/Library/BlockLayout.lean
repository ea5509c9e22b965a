import WiseSdk.Library.Extent

/-!
# Memory regions cut into blocks

A boundary-tag allocator owns a list of memory regions in ascending order. Each region is cut,
without gaps, into blocks that are free or handed out and closed by a marker as large as a block
header; the marker of the last region ends the list of free blocks. The other markers may be linked
into that list as empty entries.

`Laid hdr last a e rs cells` says that `cells` cut the rest `[a, e)` of one region and then the
regions `rs`, up to the closing marker at `last`, which is not itself a cell. `absorb a s post` is
what the layout becomes from `a` on when a block of `s` bytes is given back there: it swallows a
free block that follows, and unlinks a marker that follows.

Cutting a free block in two (`Laid.split`) and giving a block back (`Laid.giveBack`) keep a layout.
-/

namespace WiseSdk.Library

open List

/-- What a cell of a layout is. -/
inductive CellKind where
  | free
  | live
  | marker (linked : Bool)
  deriving DecidableEq, Repr

/-- A cell of a layout: a block or the marker that closes a region. -/
structure Cell where
  kind : CellKind
  addr : ℕ
  size : ℕ
  deriving DecidableEq, Repr

namespace Cell

def isBlock (c : Cell) : Bool :=
  match c.kind with
  | .marker _ => false
  | _ => true

def linked (c : Cell) : Bool :=
  match c.kind with
  | .free => true
  | .live => false
  | .marker linked => linked

/-- The size a linked cell shows in the list of free blocks: markers are empty entries. -/
def linkSize (c : Cell) : ℕ :=
  match c.kind with
  | .marker _ => 0
  | _ => c.size

def extent (c : Cell) : Extent := ⟨c.addr, c.addr + c.size⟩

end Cell

/-- The addresses of the entries of the list of free blocks, in address order. -/
def entries (cells : List Cell) : List ℕ := (cells.filter Cell.linked).map Cell.addr

def freeCells (cells : List Cell) : List Cell := cells.filter fun c => c.kind = .free

def freeBytes (cells : List Cell) : ℕ := ((freeCells cells).map Cell.size).sum

def liveCells (cells : List Cell) : List Cell := cells.filter fun c => c.kind = .live

def markers (cells : List Cell) : List Cell := cells.filter fun c => !c.isBlock

/-- The bytes of the cells and of the marker that closes the last region. -/
def extents (hdr last : ℕ) (cells : List Cell) : List Extent :=
  cells.map Cell.extent ++ [⟨last, last + hdr⟩]

def Coalesced (cells : List Cell) : Prop :=
  cells.IsChain fun c d => ¬(c.kind = .free ∧ d.kind = .free)

/-- **Layouts.** `cells` cut `[a, e)` and then the regions `rs` without gaps; each region is closed
by a marker, the last one by the marker at `last`. -/
def Laid (hdr last : ℕ) : ℕ → ℕ → List Extent → List Cell → Prop
  | a, e, rs, [] => a = last ∧ e = last + hdr ∧ rs = []
  | a, e, rs, c :: cells =>
    c.addr = a ∧ hdr ≤ c.size ∧
      if c.isBlock then a + c.size + hdr ≤ e ∧ Laid hdr last (a + c.size) e rs cells
      else c.size = hdr ∧ e = a + hdr ∧
        ∃ r rest, rs = r :: rest ∧ e ≤ r.lo ∧ Laid hdr last r.lo r.hi rest cells

def LaidOver (hdr last : ℕ) : List Extent → List Cell → Prop
  | [], _ => False
  | r :: rs, cells => Laid hdr last r.lo r.hi rs cells

/-- What a layout becomes from `a` on when a block of `s` bytes is given back at `a`. -/
def absorb (a s : ℕ) : List Cell → List Cell
  | ⟨.free, _, t⟩ :: post => ⟨.free, a, s + t⟩ :: post
  | ⟨.marker true, b, t⟩ :: post => ⟨.free, a, s⟩ :: ⟨.marker false, b, t⟩ :: post
  | post => ⟨.free, a, s⟩ :: post

/-- The layout when the block at `a` between `pre` and `post` is given back: a free block before it
takes it over. -/
def giveBack (pre : List Cell) (a s : ℕ) (post : List Cell) : List Cell :=
  match pre.getLast? with
  | some ⟨.free, b, t⟩ => pre.dropLast ++ absorb b (t + s) post
  | _ => pre ++ absorb a s post

/-- The bytes handed out when `w` of `s` are wanted: a rest of at most `least` bytes is not cut
off. -/
def carvedSize (least w s : ℕ) : ℕ := if least < s - w then w else s

/-- What follows the bytes handed out of the block at `a`: the rest, given back if it is cut off. -/
def carvedRest (least w a s : ℕ) (post : List Cell) : List Cell :=
  if least < s - w then absorb (a + w) (s - w) post else post

/-! ## Entries, free bytes and live cells -/

@[simp] theorem entries_nil : entries [] = [] := rfl

@[simp] theorem entries_append (l m : List Cell) :
    entries (l ++ m) = entries l ++ entries m := by simp [entries]

theorem entries_cons_of_not_linked {c : Cell} (h : ¬c.linked) (l : List Cell) :
    entries (c :: l) = entries l := by simp [entries, h]

section

variable (a s : ℕ) (l : List Cell)

@[simp] theorem entries_free : entries (⟨.free, a, s⟩ :: l) = a :: entries l := rfl

@[simp] theorem entries_live : entries (⟨.live, a, s⟩ :: l) = entries l := rfl

@[simp] theorem entries_marker_true : entries (⟨.marker true, a, s⟩ :: l) = a :: entries l := rfl

end

variable {cells : List Cell} {r : Extent} {last' x : ℕ}

theorem mem_entries {a : ℕ} : a ∈ entries cells ↔ ∃ c ∈ cells, c.linked ∧ c.addr = a := by
  simp [entries, and_assoc]

@[simp] theorem freeBytes_nil : freeBytes [] = 0 := rfl

@[simp] theorem freeBytes_append (l m : List Cell) :
    freeBytes (l ++ m) = freeBytes l + freeBytes m := by simp [freeBytes, freeCells]

variable (a s : ℕ) (l : List Cell)

@[simp] theorem freeBytes_free : freeBytes (⟨.free, a, s⟩ :: l) = s + freeBytes l := rfl

@[simp] theorem freeBytes_live : freeBytes (⟨.live, a, s⟩ :: l) = freeBytes l := rfl

@[simp] theorem freeBytes_marker (b : Bool) (a s : ℕ) (l : List Cell) :
    freeBytes (⟨.marker b, a, s⟩ :: l) = freeBytes l := rfl

@[simp] theorem liveCells_nil : liveCells [] = [] := rfl

@[simp] theorem liveCells_append (l m : List Cell) :
    liveCells (l ++ m) = liveCells l ++ liveCells m := by simp [liveCells]

@[simp] theorem liveCells_free : liveCells (⟨.free, a, s⟩ :: l) = liveCells l := rfl

@[simp] theorem liveCells_live :
    liveCells (⟨.live, a, s⟩ :: l) = ⟨.live, a, s⟩ :: liveCells l := rfl

@[simp] theorem liveCells_marker (b : Bool) (a s : ℕ) (l : List Cell) :
    liveCells (⟨.marker b, a, s⟩ :: l) = liveCells l := rfl

theorem mem_liveCells {c : Cell} :
    c ∈ liveCells cells ↔ c ∈ cells ∧ c.kind = .live := by simp [liveCells]

theorem freeBytes_cons_le (c : Cell) (cells : List Cell) :
    freeBytes (c :: cells) ≤ c.size + freeBytes cells := by
  obtain ⟨k, a, s⟩ := c
  cases k <;> simp

theorem freeBytes_le_extents (hdr last : ℕ) (cells : List Cell) :
    freeBytes cells + hdr ≤ ((extents hdr last cells).map Extent.length).sum := by
  induction cells with
  | nil => simp [extents, Extent.length]
  | cons c cells ih =>
    have hsum : ((extents hdr last (c :: cells)).map Extent.length).sum =
        c.size + ((extents hdr last cells).map Extent.length).sum := by
      simp [extents, Extent.length, Cell.extent]
    have hfirst := freeBytes_cons_le c cells
    omega

/-- Every cell is a free block, a block handed out or a marker. -/
theorem cells_perm (cells : List Cell) :
    cells.Perm (freeCells cells ++ (liveCells cells ++ markers cells)) := by
  induction cells with
  | nil => exact Perm.refl _
  | cons c cells ih =>
    obtain ⟨k, a, s⟩ := c
    cases k with
    | free => exact ih.cons _
    | live => exact (ih.cons _).trans perm_middle.symm
    | marker linked =>
      refine (ih.cons _).trans ?_
      rw [← append_assoc]
      refine perm_middle.symm.trans ?_
      rw [append_assoc]
      rfl

/-! ## Reading a layout -/

section Layout

variable {hdr last a e : ℕ} {rs : List Extent} {cells pre post : List Cell} {c d : Cell}

theorem laid_block (hc : c.isBlock) :
    Laid hdr last a e rs (c :: cells) ↔ c.addr = a ∧ hdr ≤ c.size ∧ a + c.size + hdr ≤ e ∧
        Laid hdr last (a + c.size) e rs cells := by
  simp only [Laid, if_pos hc]

theorem laid_marker (hc : ¬c.isBlock) :
    Laid hdr last a e rs (c :: cells) ↔ c.addr = a ∧ c.size = hdr ∧ e = a + hdr ∧
        ∃ r rest, rs = r :: rest ∧ e ≤ r.lo ∧ Laid hdr last r.lo r.hi rest cells := by
  simp only [Laid, if_neg hc]
  constructor
  · rintro ⟨ha, -, hs, h⟩
    exact ⟨ha, hs, h⟩
  · rintro ⟨ha, hs, h⟩
    exact ⟨ha, by omega, hs, h⟩

variable {b s : ℕ}

theorem laid_free :
    Laid hdr last a e rs (⟨.free, b, s⟩ :: cells) ↔
      b = a ∧ hdr ≤ s ∧ a + s + hdr ≤ e ∧ Laid hdr last (a + s) e rs cells :=
  laid_block rfl

theorem laid_live :
    Laid hdr last a e rs (⟨.live, b, s⟩ :: cells) ↔
      b = a ∧ hdr ≤ s ∧ a + s + hdr ≤ e ∧ Laid hdr last (a + s) e rs cells :=
  laid_block rfl

theorem laid_marker_flag {linked linked' : Bool} :
    Laid hdr last a e rs (⟨.marker linked, b, s⟩ :: cells) ↔
      Laid hdr last a e rs (⟨.marker linked', b, s⟩ :: cells) := Iff.rfl

/-- **Local edits.**  An edit of the tail that keeps every layout of the tail keeps the
layout. -/
theorem Laid.replace_tail {t t' : List Cell}
    (htail : ∀ a e rs, Laid hdr last a e rs t → Laid hdr last a e rs t')
    (h : Laid hdr last a e rs (pre ++ t)) : Laid hdr last a e rs (pre ++ t') := by
  induction pre generalizing a e rs with
  | nil => exact htail a e rs h
  | cons c pre ih =>
    rw [cons_append] at h ⊢
    by_cases hc : c.isBlock
    · rw [laid_block hc] at h ⊢
      exact ⟨h.1, h.2.1, h.2.2.1, ih h.2.2.2⟩
    · rw [laid_marker hc] at h ⊢
      obtain ⟨ha, hs, he, r, rest, hrs, hlo, h⟩ := h
      exact ⟨ha, hs, he, r, rest, hrs, hlo, ih h⟩

/-- **The first cell and the rest**, which starts behind it in regions that end where those of the
whole do. -/
theorem Laid.uncons (h : Laid hdr last a e rs (c :: cells)) :
    c.addr = a ∧ hdr ≤ c.size ∧ a + c.size ≤ e ∧ (c.isBlock → a + c.size + hdr ≤ e) ∧
      ∃ a' e' rs', a + c.size ≤ a' ∧ Laid hdr last a' e' rs' cells ∧
        ∀ r ∈ ⟨a', e'⟩ :: rs', ∃ r₀ ∈ ⟨a, e⟩ :: rs, r₀.lo ≤ r.lo ∧ r.hi = r₀.hi := by
  have hsame (r : Extent) (hr : r ∈ rs) : ∃ r₀ ∈ ⟨a, e⟩ :: rs, r₀.lo ≤ r.lo ∧ r.hi = r₀.hi :=
    ⟨r, mem_cons_of_mem _ hr, le_rfl, rfl⟩
  by_cases hc : c.isBlock
  · obtain ⟨hca, hs, hroom, h⟩ := (laid_block hc).mp h
    refine ⟨hca, hs, by omega, fun _ => hroom, _, _, _, le_rfl, h, forall_mem_cons.mpr ⟨?_, hsame⟩⟩
    exact ⟨_, mem_cons_self, Nat.le_add_right a _, rfl⟩
  · obtain ⟨hca, hs, he, r', rest, rfl, hlo, h⟩ := (laid_marker hc).mp h
    exact ⟨hca, hs.ge, by omega, fun hb => absurd hb hc, _, _, _, by omega, h, hsame⟩

theorem Laid.tail (h : Laid hdr last a e rs (pre ++ post)) :
    ∃ a' e' rs', Laid hdr last a' e' rs' post := by
  induction pre generalizing a e rs with
  | nil => exact ⟨a, e, rs, h⟩
  | cons c pre ih =>
    obtain ⟨-, -, -, -, _, _, _, -, h, -⟩ := h.uncons
    exact ih h

section

variable (h : Laid hdr last a e rs cells)

include h

theorem Laid.bounds : a ≤ last ∧ ∀ c ∈ cells, a ≤ c.addr ∧ c.addr + c.size ≤ last := by
  induction cells generalizing a e rs with
  | nil => exact ⟨h.1.le, by simp⟩
  | cons c cells ih =>
    obtain ⟨hca, -, -, -, a', e', rs', hle, h, -⟩ := h.uncons
    obtain ⟨hlast, hcells⟩ := ih h
    refine ⟨by omega, forall_mem_cons.mpr ⟨by omega, fun d hd => ?_⟩⟩
    have := hcells d hd
    omega

theorem Laid.header_le : ∀ c ∈ cells, hdr ≤ c.size := by
  induction cells generalizing a e rs with
  | nil => simp
  | cons c cells ih =>
    obtain ⟨-, hs, -, -, _, _, _, -, h, -⟩ := h.uncons
    exact forall_mem_cons.mpr ⟨hs, ih h⟩

/-- **Cells do not overlap**, and they stand in ascending order. -/
theorem Laid.pairwise : cells.Pairwise fun c d => c.addr + c.size ≤ d.addr := by
  induction cells generalizing a e rs with
  | nil => exact Pairwise.nil
  | cons c cells ih =>
    obtain ⟨hca, -, -, -, a', e', rs', hle, h, -⟩ := h.uncons
    refine List.Pairwise.cons (fun d hd => ?_) (ih h)
    have := (h.bounds.2 d hd).1
    omega

theorem Laid.mem_region (hc : c ∈ cells) :
    ∃ r ∈ ⟨a, e⟩ :: rs, r.lo ≤ c.addr ∧ c.addr + c.size ≤ r.hi ∧
      (c.isBlock → c.addr + c.size + hdr ≤ r.hi) := by
  induction cells generalizing a e rs with
  | nil => simp at hc
  | cons d cells ih =>
    obtain ⟨rfl, -, hend, hroom, a', e', rs', -, h, hregions⟩ := h.uncons
    rcases mem_cons.mp hc with rfl | hc
    · exact ⟨⟨c.addr, e⟩, mem_cons_self, le_rfl, hend, hroom⟩
    · obtain ⟨r, hr, hlo, hhi⟩ := ih h hc
      obtain ⟨r₀, hr₀, hlo₀, hhi₀⟩ := hregions r hr
      exact ⟨r₀, hr₀, hlo₀.trans hlo, hhi₀ ▸ hhi⟩

theorem Laid.last_region : ∃ r ∈ ⟨a, e⟩ :: rs, r.lo ≤ last ∧ last + hdr = r.hi := by
  induction cells generalizing a e rs with
  | nil =>
    obtain ⟨rfl, rfl, rfl⟩ := h
    exact ⟨⟨a, a + hdr⟩, by simp, le_rfl, rfl⟩
  | cons d cells ih =>
    obtain ⟨-, -, -, -, a', e', rs', -, h, hregions⟩ := h.uncons
    obtain ⟨r, hr, hlo, hhi⟩ := ih h
    obtain ⟨r₀, hr₀, hlo₀, hhi₀⟩ := hregions r hr
    exact ⟨r₀, hr₀, hlo₀.trans hlo, hhi.trans hhi₀⟩

/-- **No gaps.**  An address of a region lies in a cell or in the closing marker. -/
theorem Laid.cover (hr : r ∈ ⟨a, e⟩ :: rs) (hx : r.Contains x) :
    (∃ c ∈ cells, c.extent.Contains x) ∨ Extent.Contains ⟨last, last + hdr⟩ x := by
  induction cells generalizing a e rs r with
  | nil =>
    obtain ⟨rfl, rfl, rfl⟩ := h
    obtain rfl := mem_singleton.mp hr
    exact .inr hx
  | cons c cells ih =>
    by_cases hxc : c.extent.Contains x
    · exact .inl ⟨c, by simp, hxc⟩
    -- Outside the first cell the address lies in what the tail cuts.
    suffices htail : (∃ d ∈ cells, d.extent.Contains x) ∨
        Extent.Contains ⟨last, last + hdr⟩ x by
      rcases htail with ⟨d, hd, hxd⟩ | hlast
      · exact .inl ⟨d, mem_cons_of_mem _ hd, hxd⟩
      · exact .inr hlast
    simp only [Cell.extent, Extent.Contains] at hxc
    by_cases hc : c.isBlock
    · obtain ⟨hca, -, -, h⟩ := (laid_block hc).mp h
      rcases mem_cons.mp hr with rfl | hr
      · refine ih h (mem_cons_self ..) ?_
        simp only [Extent.Contains] at hx ⊢
        omega
      · exact ih h (mem_cons_of_mem _ hr) hx
    · obtain ⟨hca, hs, he, r', rest, rfl, -, h⟩ := (laid_marker hc).mp h
      rcases mem_cons.mp hr with rfl | hr
      · simp only [Extent.Contains] at hx
        omega
      · exact ih h hr hx

end

/-! ## Neighbours -/

theorem Laid.addr_next (h : Laid hdr last a e rs (pre ++ c :: d :: post)) (hc : c.isBlock) :
    d.addr = c.addr + c.size := by
  obtain ⟨a', e', rs', h⟩ := h.tail
  obtain ⟨hca, -, -, h⟩ := (laid_block hc).mp h
  rw [h.1, hca]

theorem Laid.last_next (h : Laid hdr last a e rs (pre ++ [c])) (hc : c.isBlock) :
    last = c.addr + c.size := by
  obtain ⟨a', e', rs', h⟩ := h.tail
  obtain ⟨hca, -, -, h⟩ := (laid_block hc).mp h
  rw [← h.1, hca]

theorem Laid.before (h : Laid hdr last a e rs (pre ++ c :: post)) (hd : d ∈ pre) :
    d.addr + d.size ≤ c.addr :=
  (pairwise_append.mp h.pairwise).2.2 d hd c (by simp)

theorem Laid.after (h : Laid hdr last a e rs (pre ++ c :: post)) (hd : d ∈ post) :
    c.addr + c.size ≤ d.addr :=
  (pairwise_cons.mp (pairwise_append.mp h.pairwise).2.1).1 d hd

theorem Laid.apart_of_ne (h : Laid hdr last a e rs cells) (hc : c ∈ cells) (hd : d ∈ cells)
    (hne : c ≠ d) : c.extent.Apart d.extent := by
  have hpairs : cells.Pairwise fun c d => c.extent.Apart d.extent := h.pairwise.imp .inl
  have : Std.Symm fun c d : Cell => c.extent.Apart d.extent := ⟨fun _ _ h => h.symm⟩
  exact hpairs.forall hc hd hne

theorem Laid.eq_of_addr (hhdr : 0 < hdr) (h : Laid hdr last a e rs cells) (hc : c ∈ cells)
    (hd : d ∈ cells) (haddr : c.addr = d.addr) : c = d := by
  by_contra hne
  have hapart := h.apart_of_ne hc hd hne
  have := h.header_le c hc
  have := h.header_le d hd
  simp only [Cell.extent, Extent.Apart] at hapart
  omega

/-- A cell before `c` that ends at `c` is its direct neighbour. -/
theorem Laid.eq_neighbour (hhdr : 0 < hdr) (h : Laid hdr last a e rs (pre ++ c :: post))
    (hd : d ∈ pre) (hend : d.addr + d.size = c.addr) : ∃ pre', pre = pre' ++ [d] := by
  obtain ⟨pre₁, pre₂, rfl⟩ := append_of_mem hd
  cases pre₂ with
  | nil => exact ⟨pre₁, rfl⟩
  | cons f pre₂ =>
    -- The cell in between would have no room for a header.
    have hf : hdr ≤ f.size := h.header_le f (by simp)
    have hfc : f.addr + f.size ≤ c.addr := h.before (by simp)
    have hdf : d.addr + d.size ≤ f.addr := by
      rw [append_assoc] at h
      exact h.after (by simp)
    omega

/-! ## Cutting a block and giving one back -/

theorem Laid.handOut (h : Laid hdr last a e rs (pre ++ ⟨.free, b, s⟩ :: post)) :
    Laid hdr last a e rs (pre ++ ⟨.live, b, s⟩ :: post) := by
  refine h.replace_tail fun a e rs h => ?_
  simpa only [laid_free, laid_live] using h

/-- A block given back swallows what `absorb` lets it swallow. -/
theorem Laid.absorb (h : Laid hdr last a e rs (⟨.live, b, s⟩ :: post)) :
    Laid hdr last a e rs (absorb b s post) := by
  fun_cases WiseSdk.Library.absorb b s post with
  | case1 x t post =>
    simp only [laid_free, laid_live] at h ⊢
    obtain ⟨rfl, hs, -, rfl, ht, hroom, h⟩ := h
    rw [← Nat.add_assoc]
    exact ⟨rfl, by omega, hroom, h⟩
  | case2 x t post =>
    rw [laid_free, laid_marker_flag]
    exact h
  | case3 post =>
    simpa only [laid_free, laid_live] using h

/-- **Giving back** a block whose neighbour before is not free. -/
theorem Laid.giveBack (h : Laid hdr last a e rs (pre ++ ⟨.live, b, s⟩ :: post)) :
    Laid hdr last a e rs (pre ++ WiseSdk.Library.absorb b s post) :=
  h.replace_tail fun _ _ _ h => h.absorb

/-- **Giving back** a block whose neighbour before is free: the two become one. -/
theorem Laid.giveBack_join {f t : ℕ}
    (h : Laid hdr last a e rs (pre ++ ⟨.free, f, t⟩ :: ⟨.live, b, s⟩ :: post)) :
    Laid hdr last a e rs (pre ++ WiseSdk.Library.absorb f (t + s) post) := by
  refine h.replace_tail fun a e rs h => Laid.absorb ?_
  simp only [laid_free, laid_live] at h ⊢
  obtain ⟨rfl, ht, -, rfl, hs, hroom, h⟩ := h
  rw [← Nat.add_assoc]
  exact ⟨rfl, by omega, hroom, h⟩

theorem Laid.markers_extents (h : Laid hdr last a e rs cells) :
    (markers cells).map Cell.extent ++ [⟨last, last + hdr⟩] =
      (⟨a, e⟩ :: rs).map (Extent.closing hdr) := by
  induction cells generalizing a e rs with
  | nil =>
    obtain ⟨rfl, rfl, rfl⟩ := h
    simp [markers, Extent.closing]
  | cons c cells ih =>
    by_cases hc : c.isBlock
    · obtain ⟨-, -, -, h⟩ := (laid_block hc).mp h
      have hmarkers : markers (c :: cells) = markers cells := by simp [markers, hc]
      rw [hmarkers, ih h]
      rfl
    obtain ⟨hca, hs, he, r, rest, rfl, -, h⟩ := (laid_marker hc).mp h
    have hmarkers : markers (c :: cells) = c :: markers cells := by simp [markers, hc]
    have hclosing : Extent.closing hdr ⟨a, e⟩ = c.extent := by
      simp only [Extent.closing, Cell.extent, hca, hs, he, Nat.add_sub_cancel]
    rw [hmarkers, map_cons, cons_append, ih h, ← hclosing]
    rfl

/-- The region `r` added behind a layout, as one free block. -/
theorem Laid.extend (h : Laid hdr last a e rs cells) (hlo : last + hdr ≤ r.lo)
    (hroom : r.lo + hdr ≤ last') (hhi : last' + hdr = r.hi) :
    Laid hdr last' a e (rs ++ [r])
      (cells ++ [⟨.marker true, last, hdr⟩, ⟨.free, r.lo, last' - r.lo⟩]) := by
  induction cells generalizing a e rs with
  | nil =>
    obtain ⟨rfl, rfl, rfl⟩ := h
    have hend : r.lo + (last' - r.lo) = last' := by omega
    refine (laid_marker (by simp [Cell.isBlock])).mpr ⟨rfl, rfl, rfl, r, [], rfl, hlo, ?_⟩
    exact laid_free.mpr ⟨rfl, by omega, by omega, hend, hhi.symm, rfl⟩
  | cons c cells ih =>
    rw [cons_append]
    by_cases hc : c.isBlock
    · obtain ⟨hca, hs, hfit, h⟩ := (laid_block hc).mp h
      exact (laid_block hc).mpr ⟨hca, hs, hfit, ih h⟩
    · obtain ⟨hca, hs, he, r', rest, rfl, hr', h⟩ := (laid_marker hc).mp h
      exact (laid_marker hc).mpr ⟨hca, hs, he, r', rest ++ [r], rfl, hr', ih h⟩

theorem Laid.freeBytes_le (h : Laid hdr last a e rs cells) : a + freeBytes cells ≤ last := by
  induction cells generalizing a e rs with
  | nil => exact h.1.le
  | cons c cells ih =>
    obtain ⟨-, -, -, -, a', e', rs', hle, h, -⟩ := h.uncons
    have hrest := ih h
    have hfirst := freeBytes_cons_le c cells
    omega

end Layout

/-! ## Layouts of a list of regions -/

namespace LaidOver

variable {hdr last : ℕ} {regions : List Extent} {cells cells' : List Cell} {c : Cell}

section

variable (h : LaidOver hdr last regions cells)

include h

/-- The layout of the first region and those after it. -/
theorem laid : ∃ r rs, regions = r :: rs ∧ Laid hdr last r.lo r.hi rs cells := by
  cases regions with
  | nil => exact h.elim
  | cons r rs => exact ⟨r, rs, rfl, h⟩

theorem edit (hedit : ∀ a e rs, Laid hdr last a e rs cells → Laid hdr last a e rs cells') :
    LaidOver hdr last regions cells' := by
  cases regions with
  | nil => exact h
  | cons r rs => exact hedit _ _ _ h

theorem mem_region (hc : c ∈ cells) :
    ∃ r ∈ regions, r.lo ≤ c.addr ∧ c.addr + c.size ≤ r.hi ∧
      (c.isBlock → c.addr + c.size + hdr ≤ r.hi) := by
  obtain ⟨r, rs, rfl, h⟩ := h.laid
  exact h.mem_region hc

end

theorem addr_inRegions (hhdr : 0 < hdr) (h : LaidOver hdr last regions cells)
    (hc : c ∈ cells) : InRegions regions c.addr := by
  obtain ⟨r, rs, rfl, h⟩ := h.laid
  have hsize := h.header_le c hc
  obtain ⟨r', hr', hlo, hhi, -⟩ := h.mem_region hc
  exact ⟨r', hr', hlo, by omega⟩

theorem last_inRegions (hhdr : 0 < hdr) (h : LaidOver hdr last regions cells) :
    InRegions regions last := by
  obtain ⟨r, rs, rfl, h⟩ := h.laid
  obtain ⟨r', hr', hlo, hhi⟩ := h.last_region
  exact ⟨r', hr', hlo, by omega⟩

section

variable (h : LaidOver hdr last regions cells)

include h

/-- **Nothing overlaps**: the cells and the closing marker are pairwise apart. -/
theorem extents_apart : (extents hdr last cells).Pairwise Extent.Apart := by
  obtain ⟨r, rs, -, h⟩ := h.laid
  refine pairwise_append.mpr ⟨?_, pairwise_singleton _ _, ?_⟩
  · rw [pairwise_map]
    exact h.pairwise.imp .inl
  · intro x hx y hy
    obtain ⟨c, hc, rfl⟩ := mem_map.mp hx
    obtain rfl := mem_singleton.mp hy
    exact .inl (h.bounds.2 c hc).2

theorem extents_region {e : Extent} (he : e ∈ extents hdr last cells) :
    ∃ r ∈ regions, r.lo ≤ e.lo ∧ e.hi ≤ r.hi := by
  obtain ⟨r, rs, rfl, h⟩ := h.laid
  rcases mem_append.mp he with he | he
  · obtain ⟨c, hc, rfl⟩ := mem_map.mp he
    obtain ⟨r', hr', hlo, hhi, -⟩ := h.mem_region hc
    exact ⟨r', hr', hlo, hhi⟩
  · obtain rfl := mem_singleton.mp he
    obtain ⟨r', hr', hlo, hhi⟩ := h.last_region
    exact ⟨r', hr', hlo, hhi.le⟩

/-- **Nothing is left out**: the cells and the closing marker occupy the regions exactly. -/
theorem extents_cover (x : ℕ) : InRegions (extents hdr last cells) x ↔ InRegions regions x := by
  constructor
  · rintro ⟨e, he, hxlo, hxhi⟩
    obtain ⟨r, hr, hlo, hhi⟩ := h.extents_region he
    exact ⟨r, hr, by omega, by omega⟩
  · rintro ⟨r', hr', hx⟩
    obtain ⟨r, rs, rfl, h⟩ := h.laid
    rcases h.cover hr' hx with ⟨c, hc, hxc⟩ | hlast
    · exact ⟨c.extent, mem_append_left _ (mem_map_of_mem hc), hxc⟩
    · exact ⟨_, mem_append_right _ (mem_singleton_self _), hlast⟩

theorem extents_perm :
    (extents hdr last cells).Perm ((freeCells cells).map Cell.extent ++
        ((liveCells cells).map Cell.extent ++ regions.map (Extent.closing hdr))) := by
  obtain ⟨r, rs, rfl, h⟩ := h.laid
  rw [← h.markers_extents, extents, ← append_assoc, ← append_assoc]
  refine List.Perm.append_right _ ?_
  rw [append_assoc, ← map_append, ← map_append]
  exact (cells_perm cells).map _

/-- **One more region.** The closing marker becomes a linked cell, and the region follows as one
free block. -/
theorem extend (hlo : last + hdr ≤ r.lo) (hroom : r.lo + hdr ≤ last') (hhi : last' + hdr = r.hi) :
    LaidOver hdr last' (regions ++ [r])
      (cells ++ [⟨.marker true, last, hdr⟩, ⟨.free, r.lo, last' - r.lo⟩]) := by
  obtain ⟨r₀, rs, rfl, h⟩ := h.laid
  exact h.extend hlo hroom hhi

end

theorem single (hroom : r.lo + hdr ≤ last) (hhi : last + hdr = r.hi) :
    LaidOver hdr last [r] [⟨.free, r.lo, last - r.lo⟩] := by
  have hend : r.lo + (last - r.lo) = last := by omega
  exact laid_free.mpr ⟨rfl, by omega, by omega, hend, hhi.symm, rfl⟩

/-- The free bytes of a layout lie below the closing marker. -/
theorem freeBytes_le (h : LaidOver hdr last regions cells) : freeBytes cells ≤ last := by
  obtain ⟨r, rs, -, h⟩ := h.laid
  have := h.freeBytes_le
  omega

theorem marker_hi (h : LaidOver hdr last regions cells) (hc : c ∈ cells) (hkind : ¬c.isBlock) :
    ∃ r ∈ regions, c.addr + hdr = r.hi := by
  obtain ⟨r, rs, rfl, h⟩ := h.laid
  have hmarker : c ∈ markers cells := by simp [markers, hc, hkind]
  have hmem : c.extent ∈ (⟨r.lo, r.hi⟩ :: rs).map (Extent.closing hdr) := by
    rw [← h.markers_extents]
    exact mem_append_left _ (mem_map_of_mem hmarker)
  obtain ⟨r', hr', hclosing⟩ := mem_map.mp hmem
  refine ⟨r', hr', ?_⟩
  have hle := h.header_le c hc
  simp only [Extent.closing, Cell.extent, Extent.mk.injEq] at hclosing
  omega

end LaidOver

theorem Coalesced.not_touching {hdr last a e : ℕ} {rs : List Extent} {c d : Cell} (hhdr : 0 < hdr)
    (h : Laid hdr last a e rs cells) (hco : Coalesced cells) (hc : c ∈ cells) (hd : d ∈ cells)
    (hcfree : c.kind = .free) (hdfree : d.kind = .free) : c.addr + c.size ≠ d.addr := by
  intro htouch
  have hblock : c.isBlock := by simp [Cell.isBlock, hcfree]
  obtain ⟨pre, post, rfl⟩ := append_of_mem hc
  cases post with
  | nil =>
    have hlast := h.last_next hblock
    have hbound := (h.bounds.2 d hd).2
    have := h.header_le d hd
    omega
  | cons f post =>
    -- The neighbour of `c` starts where `d` does, so it is `d`.
    have hf : f.addr = c.addr + c.size := h.addr_next hblock
    obtain rfl := h.eq_of_addr hhdr (c := f) (by simp) hd (by omega)
    obtain ⟨-, hpost, -⟩ := isChain_append.mp hco
    exact (isChain_cons_cons.mp hpost).1 ⟨hcfree, hdfree⟩

/-- **Without a live block** each region is one free block. -/
theorem Coalesced.whole {hdr last a e : ℕ} {rs : List Extent} (hhdr : 0 < hdr)
    (h : Laid hdr last a e rs cells) (hco : Coalesced cells) (hlive : liveCells cells = []) :
    (freeCells cells).map Cell.extent =
      ((⟨a, e⟩ :: rs).filter fun r => r.lo + hdr < r.hi).map fun r => ⟨r.lo, r.hi - hdr⟩ := by
  induction cells generalizing a e rs with
  | nil =>
    obtain ⟨rfl, rfl, rfl⟩ := h
    simp [freeCells]
  | cons c cells ih =>
    obtain ⟨k, b, s⟩ := c
    cases k with
    | live => simp at hlive
    | marker linked =>
      obtain ⟨-, -, rfl, r, rest, rfl, -, h⟩ := (laid_marker (by nofun)).mp h
      rw [filter_cons_of_neg (by simp)]
      exact ih h hco.tail hlive
    | free =>
      obtain ⟨rfl, hs, -, h⟩ := laid_free.mp h
      -- The next cell is neither free nor live, so the block reaches the closing marker.
      have hend : e = b + s + hdr := by
        match cells with
        | [] => exact h.1 ▸ h.2.1
        | ⟨.free, _, _⟩ :: _ => exact absurd ⟨rfl, rfl⟩ (isChain_cons_cons.mp hco).1
        | ⟨.live, _, _⟩ :: _ => simp at hlive
        | ⟨.marker _, _, _⟩ :: _ => exact ((laid_marker (by nofun)).mp h).2.2.1
      have ih := ih h hco.tail hlive
      subst hend
      rw [filter_cons_of_neg (by simp)] at ih
      rw [filter_cons_of_pos (by simp; omega), map_cons, ← ih]
      simp [freeCells, Cell.extent]

/-! ## What giving back does to the lists -/

section Absorb

variable {b s : ℕ} {pre post : List Cell}

@[simp] theorem freeBytes_absorb : freeBytes (absorb b s post) = s + freeBytes post := by
  fun_cases absorb b s post <;> simp [Nat.add_assoc]

@[simp] theorem liveCells_absorb : liveCells (absorb b s post) = liveCells post := by
  fun_cases absorb b s post <;> simp

/-- The block given back stands in the list of free blocks. -/
theorem entries_absorb_head (b s : ℕ) (post : List Cell) :
    ∃ l, entries (absorb b s post) = b :: l := by
  fun_cases absorb b s post <;> exact ⟨_, rfl⟩

theorem giveBack_of_not_free (hlast : ∀ c ∈ pre.getLast?, c.kind ≠ .free) :
    giveBack pre b s post = pre ++ absorb b s post := by
  unfold giveBack
  split
  next f t heq => exact absurd rfl (hlast _ heq)
  next => rfl

@[simp] theorem giveBack_concat_free (f t : ℕ) :
    giveBack (pre ++ [⟨.free, f, t⟩]) b s post = pre ++ absorb f (t + s) post := by
  simp [giveBack]

@[simp] theorem giveBack_concat_live (f t : ℕ) :
    giveBack (pre ++ [⟨.live, f, t⟩]) b s post = pre ++ ⟨.live, f, t⟩ :: absorb b s post := by
  simp [giveBack]

theorem giveBack_cases (pre : List Cell) (b s : ℕ) (post : List Cell) :
    ((∀ c ∈ pre.getLast?, c.kind ≠ .free) ∧ giveBack pre b s post = pre ++ absorb b s post) ∨
      ∃ pre' f t, pre = pre' ++ [⟨.free, f, t⟩] ∧
        giveBack pre b s post = pre' ++ absorb f (t + s) post := by
  by_cases hlast : ∀ c ∈ pre.getLast?, c.kind ≠ .free
  · exact .inl ⟨hlast, giveBack_of_not_free hlast⟩
  · push Not at hlast
    obtain ⟨⟨k, f, t⟩, hf, rfl⟩ := hlast
    obtain ⟨pre', rfl⟩ := getLast?_eq_some_iff.mp hf
    exact .inr ⟨pre', f, t, rfl, giveBack_concat_free f t⟩

@[simp] theorem freeBytes_giveBack :
    freeBytes (giveBack pre b s post) = freeBytes pre + s + freeBytes post := by
  rcases giveBack_cases pre b s post with ⟨-, heq⟩ | ⟨pre', f, t, rfl, heq⟩
  · simp [heq, Nat.add_assoc]
  · simp only [heq, freeBytes_append, freeBytes_absorb, freeBytes_free, freeBytes_nil]
    omega

@[simp] theorem liveCells_giveBack :
    liveCells (giveBack pre b s post) = liveCells pre ++ liveCells post := by
  rcases giveBack_cases pre b s post with ⟨-, heq⟩ | ⟨pre', f, t, rfl, heq⟩ <;> simp [heq]

theorem head?_entries_giveBack (pre : List Cell) (b s : ℕ) (post : List Cell) :
    (entries (giveBack pre b s post)).head? = (entries pre ++ [b]).head? := by
  rcases giveBack_cases pre b s post with ⟨-, heq⟩ | ⟨pre', f, t, rfl, heq⟩
  · obtain ⟨l, hl⟩ := entries_absorb_head b s post
    rw [heq, entries_append, hl]
    cases entries pre <;> rfl
  · obtain ⟨l, hl⟩ := entries_absorb_head f (t + s) post
    rw [heq, entries_append, hl, entries_append, entries_free]
    cases entries pre' <;> rfl

theorem Coalesced.absorb (h : Coalesced post) : Coalesced (absorb b s post) := by
  unfold Coalesced at h ⊢
  fun_cases WiseSdk.Library.absorb b s post with
  | case1 x t post =>
    rw [isChain_cons] at h ⊢
    exact ⟨fun d hd hfree => h.1 d hd ⟨rfl, hfree.2⟩, h.2⟩
  | case2 x t post =>
    rw [isChain_cons] at h
    rw [isChain_cons_cons, isChain_cons]
    exact ⟨by simp, fun d hd hfree => by simp at hfree, h.2⟩
  | case3 post hfree hmarker =>
    rw [isChain_cons]
    refine ⟨fun d hd hboth => ?_, h⟩
    cases post with
    | nil => simp at hd
    | cons c post =>
      obtain rfl : c = d := by simpa using hd
      obtain ⟨k, x, t⟩ := c
      obtain rfl : k = .free := hboth.2
      exact hfree _ _ _ rfl

theorem Coalesced.giveBack (hpre : Coalesced pre) (hpost : Coalesced post)
    (hlast : ∀ c ∈ pre.getLast?, c.kind ≠ .free) :
    Coalesced (pre ++ WiseSdk.Library.absorb b s post) :=
  isChain_append.mpr ⟨hpre, hpost.absorb, fun c hc _ _ hfree => hlast c hc hfree.1⟩

/-- Free blocks on both sides of a cell are apart. -/
theorem Coalesced.sides {c : Cell} (h : Coalesced (pre ++ c :: post)) :
    Coalesced pre ∧ Coalesced post := by
  obtain ⟨hpre, hpost, -⟩ := isChain_append.mp h
  exact ⟨hpre, (isChain_cons.mp hpost).2⟩

theorem Coalesced.around_live (hpre : Coalesced pre) (hpost : Coalesced post) :
    Coalesced (pre ++ ⟨.live, b, s⟩ :: post) := by
  refine isChain_append.mpr ⟨hpre, isChain_cons.mpr ⟨by simp, hpost⟩, ?_⟩
  intro c _ d hd hfree
  obtain rfl : ⟨.live, b, s⟩ = d := by simpa using hd
  simp at hfree

end Absorb

/-! ## Handing out a part of a block -/

section Carve

variable {least w a s : ℕ} {pre post : List Cell} {c : Cell}

theorem le_carvedSize (least : ℕ) (hw : w ≤ s) : w ≤ carvedSize least w s := by
  unfold carvedSize
  split <;> omega

@[simp] theorem liveCells_carvedRest :
    liveCells (carvedRest least w a s post) = liveCells post := by
  unfold carvedRest
  split <;> simp

theorem freeBytes_carvedRest (least a : ℕ) (post : List Cell) (hw : w ≤ s) :
    freeBytes (carvedRest least w a s post) + carvedSize least w s = s + freeBytes post := by
  unfold carvedRest carvedSize
  split
  · rw [freeBytes_absorb]
    omega
  · omega

section

variable (hco : Coalesced (⟨.free, a, s⟩ :: post))

include hco

/-- **Handing out and giving back.** What was cut off a free block joins the bytes that come back; a
linked marker behind it is dropped in either case. -/
theorem absorb_carved (hw : w ≤ s) :
    absorb a (carvedSize least w s) (carvedRest least w a s post) = absorb a s post := by
  unfold carvedSize carvedRest
  split
  · have hsum : w + (s - w) = s := by omega
    -- The block behind the one handed out is not free, so only a marker can be dropped.
    fun_cases absorb (a + w) (s - w) post with
    | case1 x t post =>
      exact absurd ⟨rfl, rfl⟩ (isChain_cons_cons.mp hco).1
    | case2 x t post => simp [absorb, hsum]
    | case3 post hfree hmarker =>
      rw [absorb, hsum, absorb.eq_3 a s post hfree hmarker]
  · rfl

theorem absorb_whole :
    (∃ b t rest, post = ⟨.marker true, b, t⟩ :: rest ∧
      absorb a s post = ⟨.free, a, s⟩ :: ⟨.marker false, b, t⟩ :: rest) ∨
    absorb a s post = ⟨.free, a, s⟩ :: post := by
  fun_cases absorb a s post with
  | case1 b t post => exact absurd ⟨rfl, rfl⟩ (isChain_cons_cons.mp hco).1
  | case2 b t post => exact .inl ⟨b, t, post, rfl, rfl⟩
  | case3 post hfree hmarker => exact .inr rfl

/-- The linked cells around a block given back whole were there. -/
theorem mem_of_mem_absorb (hc : c ∈ absorb a s post) (hlinked : c.linked) :
    c ∈ ⟨.free, a, s⟩ :: post := by
  rcases absorb_whole hco with ⟨b, t, rest, rfl, heq⟩ | heq
  · rw [heq] at hc
    simp only [mem_cons] at hc ⊢
    rcases hc with rfl | rfl | hc
    · exact .inl rfl
    · simp [Cell.linked] at hlinked
    · exact .inr (.inr hc)
  · rwa [heq] at hc

/-- A block given back whole drops at most a linked marker. -/
theorem mem_absorb_or_marker (hc : c ∈ ⟨.free, a, s⟩ :: post) :
    c ∈ absorb a s post ∨ c.kind = .marker true := by
  rcases absorb_whole hco with ⟨b, t, rest, rfl, heq⟩ | heq
  · rw [heq]
    simp only [mem_cons] at hc ⊢
    rcases hc with rfl | rfl | hc
    · exact .inl (.inl rfl)
    · exact .inr rfl
    · exact .inl (.inr (.inr hc))
  · exact .inl (by rwa [heq])

theorem entries_absorb_sublist :
    (entries (absorb a s post)).Sublist (entries (⟨.free, a, s⟩ :: post)) := by
  rcases absorb_whole hco with ⟨b, t, rest, rfl, heq⟩ | heq
  · rw [heq]
    exact (sublist_cons_self b (entries rest)).cons_cons a
  · rw [heq]

end

end Carve

/-! ## What the entries show -/

section Shown

variable (size : ℕ → ℕ) {cells : List Cell}

section

variable (hsizes : ∀ c ∈ cells, c.linked → size c.addr = c.linkSize)

include hsizes

theorem filter_entries (hpos : ∀ c ∈ cells, 0 < c.size) :
    ((entries cells).filter fun a => size a ≠ 0).map (fun a => (⟨a, a + size a⟩ : Extent)) =
      (freeCells cells).map Cell.extent := by
  induction cells with
  | nil => rfl
  | cons c cells ih =>
    have ih := ih (fun d hd => hsizes d (by simp [hd])) fun d hd => hpos d (by simp [hd])
    have hc := hsizes c (by simp)
    have hcpos := hpos c (by simp)
    obtain ⟨k, a, s⟩ := c
    cases k with
    | free =>
      have hsize : size a = s := hc rfl
      have hne : size a ≠ 0 := by
        rw [hsize]
        exact Nat.ne_of_gt hcpos
      rw [entries_free, filter_cons_of_pos (by simpa using hne), map_cons, ih, hsize]
      rfl
    | live => exact ih
    | marker linked =>
      cases linked with
      | true =>
        have hsize : size a = 0 := hc rfl
        rw [entries_marker_true, filter_cons_of_neg (by simp [hsize]), ih]
        rfl
      | false => exact ih

theorem sum_entries : ((entries cells).map size).sum = freeBytes cells := by
  induction cells with
  | nil => rfl
  | cons c cells ih =>
    have ih := ih fun d hd => hsizes d (by simp [hd])
    have hc := hsizes c (by simp)
    obtain ⟨k, a, s⟩ := c
    cases k with
    | free =>
      have hsize : size a = s := hc rfl
      rw [entries_free, map_cons, sum_cons, ih, hsize, freeBytes_free]
    | live => exact ih
    | marker linked =>
      cases linked with
      | true =>
        have hsize : size a = 0 := hc rfl
        rw [entries_marker_true, map_cons, sum_cons, ih, hsize, freeBytes_marker, Nat.zero_add]
      | false => exact ih

theorem free_of_entry {a : ℕ} (ha : a ∈ entries cells) (hne : size a ≠ 0) :
    ∃ c ∈ cells, c.kind = .free ∧ c.addr = a ∧ c.size = size a := by
  obtain ⟨c, hc, hlinked, rfl⟩ := mem_entries.mp ha
  have hsize := hsizes c hc hlinked
  cases hkind : c.kind with
  | free =>
    refine ⟨c, hc, hkind, rfl, ?_⟩
    rw [hsize]
    simp [Cell.linkSize, hkind]
  | live => simp [Cell.linked, hkind] at hlinked
  | marker linked =>
    rw [hsize] at hne
    simp [Cell.linkSize, hkind] at hne

end

end Shown

end WiseSdk.Library
