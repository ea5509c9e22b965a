import WiseSdk.Library.ByteMemory
import WiseSdk.Library.Extent

/-!
# Memory-to-memory copies by DMA

`scm2010_dma_copy` fills a channel's descriptors from a chain of segments and starts the channel. A
segment is moved in words, half-words or bytes, as `remainder` and its length say; what a last,
incomplete unit leaves over is copied by the CPU while the descriptors are filled.

The number of bytes left over is kept outside the loop, and a segment that is moved in bytes does
not set it. Such a segment gets the CPU copy of an earlier one: harmless if it is at least that
long, but a copy in front of source and destination if it is shorter.

Addresses and lengths are natural numbers. In the 32-bit address space the sums of the source do not
wrap, except where a copy starts below address `0` (`tailAddr`).
-/

namespace WiseSdk.Dma

open Library List Function

/-! ## The source's functions -/

structure DescChain where
  srcAddr : ℕ
  dstAddr : ℕ
  len : ℕ
  deriving DecidableEq, Repr

/-- `enum dma_src_width_e`, the widths that are used. -/
inductive Width where
  | byte
  | halfWord
  | word
  deriving DecidableEq, Repr

def Width.bytes : Width → ℕ
  | byte => 1
  | halfWord => 2
  | word => 4

/-- `struct scm2010_dma_desc`.  `llptr` is the index of the next descriptor. -/
structure Desc where
  enable : Bool
  width : Width
  tranSize : ℕ
  srcAddr : ℕ
  dstAddr : ℕ
  llptr : Option ℕ
  deriving DecidableEq, Repr

/-- Width, transfer count and `rem` after the branches on `remainder` and the length. The last
branch leaves `rem` as it was. -/
def splitLen (remainder : ℤ) (rem len : ℕ) : Width × ℕ × ℕ :=
  if remainder = 0 ∧ len ≥ 4 then (.word, len / 4, len % 4)
  else if remainder = 2 ∧ len ≥ 2 then (.halfWord, len / 2, len % 2)
  else (.byte, len, rem)

def tailAddr (addr len rem : ℕ) : ℕ :=
  if rem ≤ addr + len then addr + len - rem else addr + len + 2 ^ 32 - rem

def tailCopy (d : DescChain) (rem : ℕ) : Copy :=
  ⟨tailAddr d.srcAddr d.len rem, tailAddr d.dstAddr d.len rem, rem⟩

/-- The descriptors, `rem` and the memory while the descriptors are filled. -/
structure Filling where
  desc : ℕ → Desc
  rem : ℕ
  mem : ByteMem

/-- The body of the loop over the segments. -/
def fillDesc (remainder : ℤ) (descNum i : ℕ) (d : DescChain) (f : Filling) : Filling :=
  let (width, tranSize, rem) := splitLen remainder f.rem d.len
  { desc := Function.update f.desc i
      { enable := true
        width := width
        tranSize := tranSize
        srcAddr := d.srcAddr
        dstAddr := d.dstAddr
        llptr := if i + 1 < descNum then some (i + 1) else none }
    rem := rem
    mem := if rem ≠ 0 then (tailCopy d rem).run f.mem else f.mem }

def fillDescs (remainder : ℤ) (descNum : ℕ) : ℕ → List DescChain → Filling → Filling
  | _, [], f => f
  | i, d :: ds, f => fillDescs remainder descNum (i + 1) ds (fillDesc remainder descNum i d f)

def Desc.copy (d : Desc) : Copy := ⟨d.srcAddr, d.dstAddr, d.tranSize * d.width.bytes⟩

/-- The channel started by `scm2010_dma_kick` serves descriptors as long as there is a link. One
that is not enabled stops it. -/
def serve (desc : ℕ → Desc) : ℕ → ℕ → ByteMem → Option ByteMem
  | 0, _, _ => none
  | fuel + 1, i, m =>
    if (desc i).enable then
      match (desc i).llptr with
      | none => some ((desc i).copy.run m)
      | some j => serve desc fuel j ((desc i).copy.run m)
    else some m

/-- `scm2010_dma_copy` on a channel with the descriptors `desc`, until it is done. It serves each of
its `DMA_DESC_NUM` descriptors at most once. -/
def scm2010DmaCopy (dmaDescNum : ℕ) (chain : List DescChain) (remainder : ℤ) (desc : ℕ → Desc)
    (m : ByteMem) : Option ByteMem :=
  if chain.length ≤ dmaDescNum then
    let f := fillDescs remainder chain.length 0 chain ⟨desc, 0, m⟩
    serve f.desc dmaDescNum 0 f.mem
  else none

/-! ## The copies of a chain -/

def tailCopies (remainder : ℤ) : ℕ → List DescChain → List Copy
  | _, [] => []
  | rem, d :: ds =>
    let rem' := (splitLen remainder rem d.len).2.2
    tailCopy d rem' :: tailCopies remainder rem' ds

def servedLen (remainder : ℤ) (len : ℕ) : ℕ :=
  (splitLen remainder 0 len).2.1 * (splitLen remainder 0 len).1.bytes

def servedCopy (remainder : ℤ) (d : DescChain) : Copy :=
  ⟨d.srcAddr, d.dstAddr, servedLen remainder d.len⟩

variable {remainder : ℤ} {rem len n i fuel a k dmaDescNum : ℕ} {desc : ℕ → Desc} {m : ByteMem}
  {lens : List ℕ}
variable {d e : DescChain} {chain : List DescChain} {f : Filling}

theorem splitLen_copy (remainder : ℤ) (rem len : ℕ) :
    (splitLen remainder rem len).2.1 * (splitLen remainder rem len).1.bytes =
      servedLen remainder len := by
  rw [servedLen, splitLen, splitLen]
  split
  · rfl
  · split <;> rfl

theorem fillDesc_rem :
    (fillDesc remainder n i d f).rem = (splitLen remainder f.rem d.len).2.2 := rfl

theorem fillDesc_mem :
    (fillDesc remainder n i d f).mem =
      (tailCopy d (splitLen remainder f.rem d.len).2.2).run f.mem := by
  simp only [fillDesc]
  split
  · rfl
  next h =>
    rw [not_not.mp h]
    simp [Copy.run, tailCopy, readBytes]

theorem fillDescs_mem :
    (fillDescs remainder n i chain f).mem = runCopies f.mem (tailCopies remainder f.rem chain) := by
  induction chain generalizing i f with
  | nil => rfl
  | cons d ds ih =>
    rw [fillDescs, ih, fillDesc_mem, fillDesc_rem]
    rfl

theorem fillDescs_desc_of_lt (hk : k < i) :
    (fillDescs remainder n i chain f).desc k = f.desc k := by
  induction chain generalizing i f with
  | nil => rfl
  | cons d ds ih =>
    rw [fillDescs, ih (by omega)]
    exact update_of_ne (by omega) _ _

/-- **The channel serves the chain**: one copy for each segment, in order. -/
theorem serve_fillDescs (hne : chain ≠ []) (hn : i + chain.length = n)
    (hfuel : chain.length ≤ fuel) (m : ByteMem) :
    serve (fillDescs remainder n i chain f).desc fuel i m =
      some (runCopies m (chain.map (servedCopy remainder))) := by
  induction chain generalizing i f fuel m with
  | nil => exact absurd rfl hne
  | cons d ds ih =>
    obtain ⟨fuel, rfl⟩ : ∃ k, fuel = k + 1 := ⟨fuel - 1, by simp at hfuel; omega⟩
    have hdesc : (fillDescs remainder n i (d :: ds) f).desc i =
        (fillDesc remainder n i d f).desc i := by
      rw [fillDescs, fillDescs_desc_of_lt (Nat.lt_succ_self i)]
    have hcopy : ((fillDesc remainder n i d f).desc i).copy = servedCopy remainder d := by
      simp only [fillDesc, update_self, Desc.copy, servedCopy, splitLen_copy]
    have hlink : ((fillDesc remainder n i d f).desc i).llptr =
        if i + 1 < n then some (i + 1) else none := by
      simp only [fillDesc, update_self]
    have hon : ((fillDesc remainder n i d f).desc i).enable = true := by
      simp only [fillDesc, update_self]
    rw [serve, hdesc, if_pos hon, hlink, hcopy]
    rw [length_cons] at hn hfuel
    cases ds with
    | nil => rw [if_neg (by simp at hn; omega)]; rfl
    | cons d' ds =>
      rw [if_pos (by simp at hn; omega)]
      exact ih (cons_ne_nil _ _) (by omega) (by omega) _

/-- **The copies of a call.** -/
theorem scm2010DmaCopy_eq (hne : chain ≠ []) (hlen : chain.length ≤ dmaDescNum) :
    scm2010DmaCopy dmaDescNum chain remainder desc m =
      some (runCopies m (tailCopies remainder 0 chain ++ chain.map (servedCopy remainder))) := by
  simp only [scm2010DmaCopy, if_pos hlen]
  rw [serve_fillDescs hne (Nat.zero_add _) hlen, fillDescs_mem, runCopies_append]

/-! ## Segments that are apart -/

def DescChain.source (g : ℕ) (d : DescChain) : Extent := ⟨d.srcAddr - g, d.srcAddr + d.len⟩

def DescChain.dest (g : ℕ) (d : DescChain) : Extent := ⟨d.dstAddr - g, d.dstAddr + d.len⟩

/-- No destination overlaps another one or a source. -/
structure Separated (g : ℕ) (chain : List DescChain) : Prop where
  dests : chain.Pairwise fun d e => (d.dest g).Apart (e.dest g)
  sources : ∀ d ∈ chain, ∀ e ∈ chain, (d.dest g).Apart (e.source g)

/-- A copy that moves bytes of a segment, or of the `g` bytes in front of it. -/
structure CopyOf (g : ℕ) (d : DescChain) (c : Copy) : Prop where
  above : d.srcAddr ≤ c.src + g
  below : c.src + c.n ≤ d.srcAddr + d.len
  shift : c.src + d.dstAddr = c.dst + d.srcAddr

section Copies

variable {g x : ℕ} {c : Copy} {cs : List Copy}

theorem CopyOf.dest_of_writes (h : CopyOf g d c) (hw : c.Writes x) : (d.dest g).Contains x := by
  obtain ⟨habove, hbelow, hshift⟩ := h
  obtain ⟨hlo, hhi⟩ := hw
  simp only [DescChain.dest, Extent.Contains]
  omega

theorem CopyOf.source_of_reads (h : CopyOf g d c) (hr : c.Reads x) :
    (d.source g).Contains x := by
  obtain ⟨habove, hbelow, hshift⟩ := h
  obtain ⟨hlo, hhi⟩ := hr
  simp only [DescChain.source, Extent.Contains]
  omega

theorem not_contains_of_apart {r s : Extent} (h : r.Apart s) (hr : r.Contains x) :
    ¬s.Contains x := by
  simp only [Extent.Apart, Extent.Contains] at *
  omega

theorem Separated.eq_of_contains (h : Separated g chain) (hd : d ∈ chain) (he : e ∈ chain)
    (hxd : (d.dest g).Contains x) (hxe : (e.dest g).Contains x) : d = e := by
  by_contra hne
  have hsymm : Std.Symm fun d e : DescChain => (d.dest g).Apart (e.dest g) :=
    ⟨fun _ _ => Extent.Apart.symm⟩
  exact not_contains_of_apart (h.dests.forall hd he hne) hxd hxe

/-- **A byte of a destination** that some copy writes comes from its segment's source. -/
theorem Separated.runCopies_eq (h : Separated g chain) (hcs : ∀ c ∈ cs, ∃ d ∈ chain, CopyOf g d c)
    (hd : d ∈ chain) (hx : (d.dest g).Contains x)
    (hex : ∃ c ∈ cs, c.Writes x) (ha : a + d.dstAddr = d.srcAddr + x) :
    runCopies m cs x = m a := by
  refine runCopies_of_writes (fun c hc c' hc' y hw hr => ?_) (fun c hc hw => ?_) hex
  · obtain ⟨e, he, hce⟩ := hcs c hc
    obtain ⟨e', he', hce'⟩ := hcs c' hc'
    exact not_contains_of_apart (h.sources e he e' he') (hce.dest_of_writes hw)
      (hce'.source_of_reads hr)
  · obtain ⟨e, he, hce⟩ := hcs c hc
    obtain rfl := h.eq_of_contains hd he hx (hce.dest_of_writes hw)
    have := hce.shift
    have := hw.1
    omega

end Copies

/-! ## The bytes left over -/

def unitOf (remainder : ℤ) : ℕ := if remainder = 0 then 4 else if remainder = 2 then 2 else 1

theorem unitOf_cases (remainder : ℤ) :
    remainder = 0 ∧ unitOf remainder = 4 ∨ remainder = 2 ∧ unitOf remainder = 2 ∨
      remainder ≠ 0 ∧ remainder ≠ 2 ∧ unitOf remainder = 1 := by
  by_cases h0 : remainder = 0
  · exact .inl ⟨h0, by simp [unitOf, h0]⟩
  · by_cases h2 : remainder = 2
    · exact .inr (.inl ⟨h2, by simp [unitOf, h2]⟩)
    · exact .inr (.inr ⟨h0, h2, by simp [unitOf, h0, h2]⟩)

theorem splitLen_of_ge (rem : ℕ) (hunit : unitOf remainder ≠ 1) (hlen : unitOf remainder ≤ len) :
    (splitLen remainder rem len).2.2 = len % unitOf remainder ∧
      servedLen remainder len = len / unitOf remainder * unitOf remainder := by
  rcases unitOf_cases remainder with ⟨rfl, hu⟩ | ⟨rfl, hu⟩ | ⟨-, -, hu⟩
  · rw [hu] at hlen
    simp [splitLen, servedLen, hu, hlen, Width.bytes]
  · rw [hu] at hlen
    simp [splitLen, servedLen, hu, hlen, Width.bytes]
  · exact absurd hu hunit

theorem splitLen_of_lt (rem : ℕ) (hlen : unitOf remainder = 1 ∨ len < unitOf remainder) :
    (splitLen remainder rem len).2.2 = rem ∧ servedLen remainder len = len := by
  rcases unitOf_cases remainder with ⟨rfl, hu⟩ | ⟨rfl, hu⟩ | ⟨h0, h2, -⟩
  · have : ¬len ≥ 4 := by omega
    simp [splitLen, servedLen, this, Width.bytes]
  · have : ¬len ≥ 2 := by omega
    simp [splitLen, servedLen, this, Width.bytes]
  · simp [splitLen, servedLen, h0, h2, Width.bytes]

theorem splitLen_rem_le (hrem : rem ≤ 3) : (splitLen remainder rem len).2.2 ≤ 3 := by
  rw [splitLen]
  split
  · simp only
    omega
  · split <;> simp only <;> omega

theorem servedLen_add_rem (remainder : ℤ) (rem len : ℕ) :
    servedLen remainder len ≤ len ∧
      len ≤ servedLen remainder len + (splitLen remainder rem len).2.2 := by
  by_cases h : unitOf remainder ≠ 1 ∧ unitOf remainder ≤ len
  · obtain ⟨hrem, hserved⟩ := splitLen_of_ge rem h.1 h.2
    rw [hrem, hserved]
    exact ⟨Nat.div_mul_le_self _ _, (Nat.div_add_mod' _ _).ge⟩
  · have hlt : unitOf remainder = 1 ∨ len < unitOf remainder := by omega
    obtain ⟨-, hserved⟩ := splitLen_of_lt rem hlt
    rw [hserved]
    exact ⟨Nat.le_refl _, Nat.le_add_right _ _⟩

/-- Every CPU copy stays in its segment and the `g` bytes in front of it. -/
def RemFits (g : ℕ) (remainder : ℤ) : ℕ → List ℕ → Prop
  | _, [] => True
  | rem, len :: lens =>
    (splitLen remainder rem len).2.2 ≤ len + g ∧
      RemFits g remainder (splitLen remainder rem len).2.2 lens

theorem remFits_three (hrem : rem ≤ 3) (lens : List ℕ) : RemFits 3 remainder rem lens := by
  induction lens generalizing rem with
  | nil => trivial
  | cons len lens ih =>
    have hle : (splitLen remainder rem len).2.2 ≤ 3 := splitLen_rem_le hrem
    exact ⟨by omega, ih hle⟩

/-- Every segment up to the next one of a unit or more has at least `r` bytes. -/
def Follows (unit r : ℕ) : List ℕ → Prop
  | [] => True
  | len :: lens => len < unit → r ≤ len ∧ Follows unit r lens

/-- What is left over of a segment fits into the shorter ones that follow it. -/
def LeftoverFits (unit : ℕ) : List ℕ → Prop
  | [] => True
  | len :: lens => (unit ≤ len → Follows unit (len % unit) lens) ∧ LeftoverFits unit lens

theorem follows_zero (unit : ℕ) (lens : List ℕ) : Follows unit 0 lens := by
  induction lens with
  | nil => trivial
  | cons len lens ih => exact fun _ => ⟨Nat.zero_le _, ih⟩

theorem leftoverFits_one (lens : List ℕ) : LeftoverFits 1 lens := by
  induction lens with
  | nil => trivial
  | cons len lens ih =>
    refine ⟨fun _ => ?_, ih⟩
    rw [Nat.mod_one]
    exact follows_zero 1 lens

/-- **The loop-carried remainder** in terms of the lengths. -/
theorem remFits_iff (hunit : unitOf remainder ≠ 1) (rem : ℕ) (lens : List ℕ) :
    RemFits 0 remainder rem lens ↔
      Follows (unitOf remainder) rem lens ∧ LeftoverFits (unitOf remainder) lens := by
  induction lens generalizing rem with
  | nil => exact ⟨fun _ => ⟨trivial, trivial⟩, fun _ => trivial⟩
  | cons len lens ih =>
    rw [RemFits, Follows, LeftoverFits]
    rcases Nat.lt_or_ge len (unitOf remainder) with hlt | hge
    · rw [(splitLen_of_lt rem (.inr hlt)).1, ih]
      simp [hlt, Nat.not_le.mpr hlt, and_assoc]
    · rw [(splitLen_of_ge rem hunit hge).1, ih]
      simp [hge, Nat.not_lt.mpr hge, Nat.mod_le]

theorem remFits_zero_iff (remainder : ℤ) (lens : List ℕ) :
    RemFits 0 remainder 0 lens ↔ LeftoverFits (unitOf remainder) lens := by
  by_cases hunit : unitOf remainder = 1
  · -- Every segment is moved in bytes and nothing is ever left over.
    refine ⟨fun _ => hunit ▸ leftoverFits_one lens, fun h => ?_⟩
    clear h
    induction lens with
    | nil => trivial
    | cons len lens ih =>
      rw [RemFits, (splitLen_of_lt 0 (.inl hunit)).1]
      exact ⟨Nat.zero_le _, ih⟩
  · rw [remFits_iff hunit]
    exact ⟨fun h => h.2, fun h => ⟨follows_zero _ _, h⟩⟩

/-! ## The copies belong to their segments -/

section Segments

variable {g r : ℕ} {c : Copy}

theorem copyOf_tailCopy (hsrc : g ≤ d.srcAddr) (hdst : g ≤ d.dstAddr) (hr : r ≤ d.len + g) :
    CopyOf g d (tailCopy d r) := by
  have hs : tailAddr d.srcAddr d.len r = d.srcAddr + d.len - r := if_pos (by omega)
  have ht : tailAddr d.dstAddr d.len r = d.dstAddr + d.len - r := if_pos (by omega)
  constructor <;> simp only [tailCopy, hs, ht] <;> omega

theorem copyOf_servedCopy (g : ℕ) (remainder : ℤ) (d : DescChain) :
    CopyOf g d (servedCopy remainder d) := by
  have := (servedLen_add_rem remainder 0 d.len).1
  constructor <;> simp only [servedCopy] <;> omega

theorem copyOf_of_mem_tailCopies (hlow : ∀ d ∈ chain, g ≤ d.srcAddr ∧ g ≤ d.dstAddr)
    (hfit : RemFits g remainder rem (chain.map DescChain.len))
    (hc : c ∈ tailCopies remainder rem chain) : ∃ d ∈ chain, CopyOf g d c := by
  induction chain generalizing rem with
  | nil => cases hc
  | cons d ds ih =>
    obtain ⟨hd, hds⟩ := forall_mem_cons.mp hlow
    rcases mem_cons.mp hc with rfl | hc
    · exact ⟨d, mem_cons_self, copyOf_tailCopy hd.1 hd.2 hfit.1⟩
    · obtain ⟨e, he, hce⟩ := ih hds hfit.2 hc
      exact ⟨e, mem_cons_of_mem _ he, hce⟩

theorem copyOf_of_mem (hlow : ∀ d ∈ chain, g ≤ d.srcAddr ∧ g ≤ d.dstAddr)
    (hfit : RemFits g remainder 0 (chain.map DescChain.len))
    (hc : c ∈ tailCopies remainder 0 chain ++ chain.map (servedCopy remainder)) :
    ∃ d ∈ chain, CopyOf g d c := by
  rcases mem_append.mp hc with hc | hc
  · exact copyOf_of_mem_tailCopies hlow hfit hc
  · obtain ⟨d, hd, rfl⟩ := mem_map.mp hc
    exact ⟨d, hd, copyOf_servedCopy g remainder d⟩

theorem exists_tailCopy (hfit : RemFits 0 remainder rem (chain.map DescChain.len))
    (hd : d ∈ chain) :
    ∃ r, tailCopy d r ∈ tailCopies remainder rem chain ∧ r ≤ d.len ∧
      d.len ≤ servedLen remainder d.len + r := by
  induction chain generalizing rem with
  | nil => cases hd
  | cons e ds ih =>
    rcases mem_cons.mp hd with rfl | hd
    · exact ⟨_, mem_cons_self, hfit.1, (servedLen_add_rem remainder rem d.len).2⟩
    · obtain ⟨r, hr, hrest⟩ := ih hfit.2 hd
      exact ⟨r, mem_cons_of_mem _ hr, hrest⟩

/-- A CPU copy that does not fit starts in front of its segment. -/
theorem exists_tailCopy_of_not_remFits (hrem : rem ≤ 3)
    (hfit : ¬RemFits 0 remainder rem (chain.map DescChain.len)) :
    ∃ d ∈ chain, ∃ r ≤ 3, tailCopy d r ∈ tailCopies remainder rem chain ∧ d.len < r := by
  induction chain generalizing rem with
  | nil => exact absurd trivial hfit
  | cons d ds ih =>
    have hle : (splitLen remainder rem d.len).2.2 ≤ 3 := splitLen_rem_le hrem
    rcases Nat.lt_or_ge d.len (splitLen remainder rem d.len).2.2 with hlt | hge
    · exact ⟨d, mem_cons_self, _, hle, mem_cons_self, hlt⟩
    · obtain ⟨e, he, r, hr, hmem, hlt⟩ := ih hle fun hds => hfit ⟨hge, hds⟩
      exact ⟨e, mem_cons_of_mem _ he, r, hr, mem_cons_of_mem _ hmem, hlt⟩

end Segments

/-! ## Exactness -/

/-- Each destination equals its source and no other byte has changed. -/
structure CopiedExactly (chain : List DescChain) (m m' : ByteMem) : Prop where
  copied : ∀ d ∈ chain, ∀ k < d.len, m' (d.dstAddr + k) = m (d.srcAddr + k)
  kept : ∀ x, (∀ d ∈ chain, ¬(d.dest 0).Contains x) → m' x = m x

/-- **Copies that fit** are exact. -/
theorem copiedExactly_of_remFits (hsep : Separated 0 chain)
    (hfit : RemFits 0 remainder 0 (chain.map DescChain.len)) :
    CopiedExactly chain m
      (runCopies m (tailCopies remainder 0 chain ++ chain.map (servedCopy remainder))) := by
  have hof : ∀ c ∈ tailCopies remainder 0 chain ++ chain.map (servedCopy remainder),
      ∃ d ∈ chain, CopyOf 0 d c := fun c =>
    copyOf_of_mem (fun _ _ => ⟨Nat.zero_le _, Nat.zero_le _⟩) hfit
  refine ⟨fun d hd k hk => ?_, fun x hx => runCopies_of_not_writes fun c hc hw => ?_⟩
  · have hx : (d.dest 0).Contains (d.dstAddr + k) :=
      ⟨Nat.le_add_right d.dstAddr k, Nat.add_lt_add_left hk _⟩
    refine hsep.runCopies_eq hof hd hx ?_ (by omega)
    obtain ⟨r, hmem, hr, hcover⟩ := exists_tailCopy hfit hd
    rcases Nat.lt_or_ge k (servedLen remainder d.len) with hserved | htail
    · exact ⟨servedCopy remainder d, mem_append_right _ (mem_map_of_mem hd),
        Nat.le_add_right _ _, Nat.add_lt_add_left hserved _⟩
    · refine ⟨tailCopy d r, mem_append_left _ hmem, ?_⟩
      have ht : tailAddr d.dstAddr d.len r = d.dstAddr + d.len - r := if_pos (by omega)
      simp only [Copy.Writes, tailCopy, ht]
      omega
  · obtain ⟨d, hd, hcd⟩ := hof c hc
    exact hx d hd (hcd.dest_of_writes hw)

/-- Segments one after the other, with three bytes in front of each source and destination. -/
def layout : ℕ → List ℕ → List DescChain
  | _, [] => []
  | a, len :: lens => ⟨a + 3, a + len + 6, len⟩ :: layout (a + 2 * len + 6) lens

theorem map_len_layout (a : ℕ) (lens : List ℕ) : (layout a lens).map DescChain.len = lens := by
  induction lens generalizing a with
  | nil => rfl
  | cons len lens ih => rw [layout, map_cons, ih]

theorem le_of_mem_layout (hd : d ∈ layout a lens) :
    a + 3 ≤ d.srcAddr ∧ d.srcAddr + d.len + 3 ≤ d.dstAddr := by
  induction lens generalizing a with
  | nil => cases hd
  | cons len lens ih =>
    rcases mem_cons.mp hd with rfl | hd
    · exact ⟨Nat.le_refl _, by simp only; omega⟩
    · have := ih hd
      omega

theorem separated_layout (a : ℕ) (lens : List ℕ) : Separated 3 (layout a lens) := by
  induction lens generalizing a with
  | nil => exact ⟨Pairwise.nil, nofun⟩
  | cons len lens ih =>
    obtain ⟨hdests, hsources⟩ := ih (a + 2 * len + 6)
    have hbeyond : ∀ e ∈ layout (a + 2 * len + 6) lens,
        a + 2 * len + 9 ≤ e.srcAddr ∧ e.srcAddr + e.len + 3 ≤ e.dstAddr := fun e he =>
      le_of_mem_layout he
    refine ⟨pairwise_cons.mpr ⟨fun e he => .inl ?_, hdests⟩, fun d hd e he => ?_⟩
    · have := hbeyond e he
      simp only [DescChain.dest]
      omega
    · rcases mem_cons.mp hd with rfl | hd <;> rcases mem_cons.mp he with rfl | he
      · refine .inr ?_
        simp only [DescChain.dest, DescChain.source]
        omega
      · refine .inl ?_
        have := hbeyond e he
        simp only [DescChain.dest, DescChain.source]
        omega
      · refine .inr ?_
        have := hbeyond d hd
        simp only [DescChain.dest, DescChain.source]
        omega
      · exact hsources d hd e he

theorem Separated.mono {g : ℕ} (h : Separated g chain) : Separated 0 chain := by
  refine ⟨h.dests.imp fun hde => hde.mono ?_ ?_, fun d hd e he => (h.sources d hd e he).mono ?_ ?_⟩
  all_goals exact ⟨Nat.sub_le_sub_left (Nat.zero_le g) _, Nat.le_refl _⟩

/-- **A CPU copy in front of its segment** overwrites a byte that belongs to no segment. -/
theorem not_copiedExactly_of_not_remFits (hfit : ¬RemFits 0 remainder 0 lens) :
    ∃ m, ¬CopiedExactly (layout 0 lens) m (runCopies m (tailCopies remainder 0 (layout 0 lens) ++
        (layout 0 lens).map (servedCopy remainder))) := by
  have hsep := separated_layout 0 lens
  have hlens := map_len_layout 0 lens
  obtain ⟨d, hd, r, hr, hmem, hlt⟩ := exists_tailCopy_of_not_remFits (Nat.zero_le 3)
    (show ¬RemFits 0 remainder 0 ((layout 0 lens).map DescChain.len) by rwa [hlens])
  have hlow : ∀ e ∈ layout 0 lens, 3 ≤ e.srcAddr ∧ 3 ≤ e.dstAddr := fun e he => by
    have := le_of_mem_layout he
    omega
  obtain ⟨hsrc, hdst⟩ := hlow d hd
  have hfront : (d.dest 3).Contains (d.dstAddr - 1) := by
    simp only [DescChain.dest, Extent.Contains]
    omega
  -- The byte in front of the destination is the only one that is not zero.
  refine ⟨fun x => if x = d.dstAddr - 1 then 1#8 else 0#8, fun hexact => ?_⟩
  have hkept := hexact.kept (d.dstAddr - 1) fun e he hin => by
    have hin3 : (e.dest 3).Contains (d.dstAddr - 1) := by
      simp only [DescChain.dest, Extent.Contains] at hin ⊢
      omega
    obtain rfl := hsep.eq_of_contains hd he hfront hin3
    simp only [DescChain.dest, Extent.Contains] at hin
    omega
  have hcopied := hsep.runCopies_eq (m := fun x => if x = d.dstAddr - 1 then 1#8 else 0#8)
    (a := d.srcAddr - 1)
    (fun c hc => copyOf_of_mem hlow (by rw [hlens]; exact remFits_three (Nat.zero_le 3) lens) hc)
    hd hfront ⟨tailCopy d r, mem_append_left _ hmem, by
      have ht : tailAddr d.dstAddr d.len r = d.dstAddr + d.len - r := if_pos (by omega)
      simp only [Copy.Writes, tailCopy, ht]
      omega⟩ (by omega)
  have hne : d.srcAddr - 1 ≠ d.dstAddr - 1 := by
    have := le_of_mem_layout hd
    omega
  rw [hcopied, if_neg hne, if_pos rfl] at hkept
  exact absurd hkept (by decide)

/-- **Exact copies.** Every chain of segments of these lengths, on any descriptors and in any
memory, is copied exactly, if and only if there is a segment, and what is left over of each fits
into the shorter ones that follow it. -/
theorem dmaCopy_exact_iff (dmaDescNum : ℕ) (remainder : ℤ) (lens : List ℕ)
    (hlens : lens.length ≤ dmaDescNum) :
    (∀ chain : List DescChain, chain.map DescChain.len = lens → Separated 0 chain →
      ∀ (desc : ℕ → Desc) (m : ByteMem), ∃ m',
        scm2010DmaCopy dmaDescNum chain remainder desc m = some m' ∧ CopiedExactly chain m m') ↔
    lens ≠ [] ∧ LeftoverFits (unitOf remainder) lens := by
  rw [← remFits_zero_iff]
  constructor
  · intro h
    refine ⟨?_, ?_⟩
    · -- Without a segment the channel is started with what its first descriptor held before.
      rintro rfl
      obtain ⟨m', hcopy, hexact⟩ := h [] rfl ⟨Pairwise.nil, nofun⟩
        (fun _ => ⟨true, .byte, 1, 0, 1, none⟩) (fun x => if x = 0 then 1#8 else 0#8)
      have hkept := hexact.kept 1 nofun
      cases dmaDescNum with
      | zero => cases hcopy
      | succ n =>
        cases hcopy
        exact absurd (show (1#8 : Byte) = 0#8 from hkept) (by decide)
    · by_contra hfit
      obtain ⟨m, hm⟩ := not_copiedExactly_of_not_remFits hfit
      have hne : layout 0 lens ≠ [] := by
        intro hnil
        have := map_len_layout 0 lens
        rw [hnil] at this
        exact hfit (this ▸ trivial)
      have hlength : (layout 0 lens).length ≤ dmaDescNum := by
        rwa [← length_map DescChain.len, map_len_layout]
      obtain ⟨m', hcopy, hexact⟩ := h (layout 0 lens) (map_len_layout 0 lens)
        (separated_layout 0 lens).mono (fun _ => ⟨true, .byte, 1, 0, 1, none⟩) m
      rw [scm2010DmaCopy_eq hne hlength] at hcopy
      exact hm (Option.some.inj hcopy ▸ hexact)
  · rintro ⟨hne, hfit⟩ chain rfl hsep desc m
    rw [length_map] at hlens
    have hchain : chain ≠ [] := fun h => hne (by rw [h]; rfl)
    exact ⟨_, scm2010DmaCopy_eq hchain hlens, copiedExactly_of_remFits hsep hfit⟩

/-- A word and three bytes, then three bytes: the CPU copy of the second is harmless. -/
theorem dmaCopy_exact_seven_three :
    [7, 3].length ≤ 4 ∧
      ∀ chain : List DescChain, chain.map DescChain.len = [7, 3] → Separated 0 chain →
        ∀ (desc : ℕ → Desc) (m : ByteMem), ∃ m',
          scm2010DmaCopy 4 chain 0 desc m = some m' ∧ CopiedExactly chain m m' :=
  ⟨by decide, (dmaCopy_exact_iff 4 0 [7, 3] (by decide)).mpr
    ⟨by decide, fun _ => fun _ => ⟨by decide, trivial⟩, nofun, trivial⟩⟩

/-- **A stale remainder.** Seven bytes and then one, in words: the three bytes left over of the
first segment are copied for the second too, from two bytes in front of it. -/
theorem copy_in_front_of_segment :
    let chain : List DescChain := [⟨0x100, 0x200, 7⟩, ⟨0x300, 0x400, 1⟩]
    let m : ByteMem := fun x => if x = 0x3ff then 1#8 else 0#8
    Separated 0 chain ∧
      (scm2010DmaCopy 4 chain 0 (fun _ => ⟨false, .byte, 0, 0, 0, none⟩) m).map
        (fun m' => m' 0x3ff) =
        some 0#8 ∧ m 0x3ff = 1#8 := by
  refine ⟨⟨by decide, by decide⟩, by decide +kernel, by decide⟩

end WiseSdk.Dma
