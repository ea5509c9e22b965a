import Mathlib.Algebra.Order.BigOperators.Group.List
import WiseSdk.Flash.Sfdp

/-!
# The sector map table

`sfdp_parse_sector_map` (`hal/drivers/spi-flash/spi-flash.c`) runs the detection commands at the
head of the table, looks for the map descriptor of the configuration they detect, and lays out its
regions one behind the other.

A descriptor is as long as its header says.  The parser steps over one by the same bits of the
word *behind* the header, which is the descriptor of its first region, so that it comes out at the
next header only where the two words happen to agree in these bits.

The pointer into the table is the list of the words from there on; a read behind the last word is
undefined.
-/

namespace WiseSdk.Flash

open List BitVec Option

/-! ## The parser -/

/-- What a detection command sends: the instruction with its address bytes, and the dummy bytes. -/
structure DetectCmd where
  bytes : List (BitVec 8)
  dummylen : BitVec 8
  deriving DecidableEq, Repr

/-- The command of a detection descriptor and its address word. Length 2 is four bytes, 0 none, the
others three. -/
def detectCmd (w addr : BitVec 32) : DetectCmd :=
  let low := [(bfieldR addr 23 16).setWidth 8, (bfieldR addr 15 8).setWidth 8,
    (bfieldR addr 7 0).setWidth 8]
  let length := bfieldR w 23 22
  { bytes := (bfieldR w 15 8).setWidth 8 ::
      (if length = 2 then (bfieldR addr 31 24).setWidth 8 :: low
      else if length = 0 then [] else low)
    dummylen := (bfieldR w 19 16).setWidth 8 }

def addBit (config : BitVec 32) (w : BitVec 32) (data : BitVec 8) : BitVec 32 :=
  config <<< 1 ||| (if data &&& (bfieldR w 31 24).setWidth 8 ≠ 0 then 1 else 0)

/-- The loop over the detection commands.  `answer k c` is the byte in `data` after the `k`-th
command. -/
def detectLoop (answer : ℕ → DetectCmd → BitVec 8) :
    ℕ → BitVec 32 → List (BitVec 32) → Option (BitVec 32 × List (BitVec 32))
  | _, _, [] => none
  | _, config, [w] => if w &&& 2 = 0 then none else some (config, [w])
  | k, config, w :: addr :: rest =>
    if w &&& 2 = 0 then
      detectLoop answer (k + 1) (addBit config w (answer k (detectCmd w addr))) rest
    else some (config, w :: addr :: rest)

/-- How the loop that looks for the descriptor is left. -/
inductive SkipEnd where
  | enodev
  | found (words : List (BitVec 32))
  deriving DecidableEq, Repr

/-- The loop that looks for the descriptor. The length of a skipped one comes from the word behind
its header. -/
def skipLoop (config : BitVec 32) : ℕ → List (BitVec 32) → Option SkipEnd
  | 0, _ => none
  | _ + 1, [] => none
  | fuel + 1, w :: rest =>
    if bfieldR w 15 8 = config then some (.found (w :: rest))
    else if w &&& 1 = 1 then some .enodev
    else
      rest.head?.bind fun v => skipLoop config fuel (rest.drop ((bfieldR v 23 16).toNat + 1))

/-- The size of a region, no larger than the flash. -/
def regionSize (size w : BitVec 32) : BitVec 32 :=
  let r := 256 * (bfieldR w 31 8 + 1)
  if r > size then size else r

def regionMethod (w : BitVec 32) : BitVec 4 := (bfieldR w 3 0).setWidth 4

def buildRegions (size : BitVec 32) :
    ℕ → BitVec 32 → List (BitVec 32) → Option (List EraseRegion)
  | 0, _, _ => some []
  | _ + 1, _, [] => none
  | n + 1, addr, w :: rest =>
    (buildRegions size n (addr + regionSize size w) rest).map
      (⟨addr, regionSize size w, regionMethod w⟩ :: ·)

/-- The result of the parser: `-ENODEV`, `-ENOMEM`, or the flash with its map. -/
inductive SectorMapResult where
  | enodev
  | enomem
  | done (f : FlashInfo)

def numRegion (header : BitVec 32) : ℕ := (bfieldR header 23 16).toNat + 1

/-- `sfdp_parse_sector_map`; `malloc` says whether the regions were allocated. -/
def sfdpParseSectorMap (dword : List (BitVec 32)) (answer : ℕ → DetectCmd → BitVec 8)
    (malloc : Bool) (f : FlashInfo) : Option SectorMapResult := do
  let (config, maps) ← detectLoop answer 0 0 dword
  match ← skipLoop config (maps.length + 1) maps with
  | .enodev => return .enodev
  | .found [] => none
  | .found (header :: rest) =>
    if malloc then
      let regions ← buildRegions f.size (numRegion header) 0 rest
      return .done { f with region := regions }
    else return .enomem

/-! ## Well-formed tables -/

/-- A map descriptor: its header and a word for each region. -/
structure MapDescriptor where
  header : BitVec 32
  regions : List (BitVec 32)
  isMap : header &&& 2 ≠ 0
  count : regions.length = numRegion header

def MapDescriptor.id (d : MapDescriptor) : BitVec 32 := bfieldR d.header 15 8

def MapDescriptor.words (d : MapDescriptor) : List (BitVec 32) := d.header :: d.regions

def regionBytes (w : BitVec 32) : ℕ := 256 * ((bfieldR w 31 8).toNat + 1)

/-- A detection command: its descriptor and its address. -/
structure DetectDescriptor where
  word : BitVec 32
  addr : BitVec 32
  isCmd : word &&& 2 = 0

/-- A sector map table: detection commands, then map descriptors, the last marked, each covering the
flash. -/
structure SectorMapTable (size : BitVec 32) where
  cmds : List DetectDescriptor
  front : List MapDescriptor
  final : MapDescriptor
  front_unmarked : ∀ d ∈ front, d.header &&& 1 = 0
  final_marked : final.header &&& 1 = 1
  covers : ∀ d ∈ front ++ [final], (d.regions.map regionBytes).sum = size.toNat

variable {size addr header : BitVec 32} (t : SectorMapTable size)

def SectorMapTable.maps : List MapDescriptor := t.front ++ [t.final]

def SectorMapTable.mapWords : List (BitVec 32) :=
  t.maps.flatMap MapDescriptor.words

def SectorMapTable.words : List (BitVec 32) :=
  t.cmds.flatMap (fun c => [c.word, c.addr]) ++ t.mapWords

def detected (answer : ℕ → DetectCmd → BitVec 8) :
    ℕ → BitVec 32 → List DetectDescriptor → BitVec 32
  | _, config, [] => config
  | k, config, c :: cmds =>
    detected answer (k + 1) (addBit config c.word (answer k (detectCmd c.word c.addr))) cmds

variable (answer : ℕ → DetectCmd → BitVec 8)

def SectorMapTable.config : BitVec 32 :=
  detected answer 0 0 t.cmds

def SectorMapTable.selected : Option MapDescriptor :=
  t.maps.find? fun d => d.id = t.config answer

/-- The regions of a descriptor: sizes and types as its words say, one behind the other, together
the whole flash. -/
structure IsMapOf (size : BitVec 32) (d : MapDescriptor) (rs : List EraseRegion) : Prop where
  sizes : rs.map (·.size.toNat) = d.regions.map regionBytes
  methods : rs.map (·.method) = d.regions.map regionMethod
  starts : ∀ i r, rs[i]? = some r → r.start.toNat = ((rs.take i).map (·.size.toNat)).sum
  covers : (rs.map (·.size.toNat)).sum = size.toNat

/-! ## The detection commands -/

theorem detectLoop_cmd (k : ℕ) (config : BitVec 32) (c : DetectDescriptor) (rest : List (BitVec 32))
    :
    detectLoop answer k config (c.word :: c.addr :: rest) =
      detectLoop answer (k + 1) (addBit config c.word (answer k (detectCmd c.word c.addr)))
        rest := by
  rw [detectLoop, if_pos c.isCmd]

variable {w : BitVec 32} {ws ws' : List (BitVec 32)}

theorem detectLoop_map (answer : ℕ → DetectCmd → BitVec 8) (k : ℕ) (config : BitVec 32)
    (hw : w &&& 2 ≠ 0) (rest : List (BitVec 32)) :
    detectLoop answer k config (w :: rest) = some (config, w :: rest) := by
  cases rest <;> rw [detectLoop, if_neg hw]

theorem detectLoop_cmds (answer : ℕ → DetectCmd → BitVec 8) (hw : w &&& 2 ≠ 0)
    (rest : List (BitVec 32)) (cmds : List DetectDescriptor) (k : ℕ) (config : BitVec 32) :
    detectLoop answer k config (cmds.flatMap (fun c => [c.word, c.addr]) ++ w :: rest) =
      some (detected answer k config cmds, w :: rest) := by
  induction cmds generalizing k config with
  | nil => exact detectLoop_map answer k config hw rest
  | cons c cmds ih =>
    rw [flatMap_cons, List.append_assoc, List.cons_append, singleton_append, detectLoop_cmd, ih]
    rfl

theorem SectorMapTable.exists_mapWords (t : SectorMapTable size) :
    ∃ w rest, t.mapWords = w :: rest ∧ w &&& 2 ≠ 0 := by
  cases hmaps : t.maps with
  | nil => exact absurd hmaps (by simp [SectorMapTable.maps])
  | cons d ds =>
    refine ⟨d.header, d.regions ++ ds.flatMap MapDescriptor.words, ?_, d.isMap⟩
    rw [SectorMapTable.mapWords, hmaps]
    rfl

theorem SectorMapTable.detectLoop_words :
    detectLoop answer 0 0 t.words = some (t.config answer, t.mapWords) := by
  obtain ⟨w, rest, hwords, hw⟩ := t.exists_mapWords
  rw [SectorMapTable.words, hwords]
  exact detectLoop_cmds answer hw rest t.cmds 0 0

/-! ## Cutting the table -/

/-- Words that are stepped over: a header of another configuration, not the last, and behind it as
many words as the *first of them* has in bits 23:16, and that one. -/
def SkippedBlock (config : BitVec 32) (block : List (BitVec 32)) : Prop :=
  ∃ w v body, block = w :: v :: body ∧ body.length = (bfieldR v 23 16).toNat ∧
    bfieldR w 15 8 ≠ config ∧ w &&& 1 ≠ 1

/-- The words are such blocks, and then a word with the wanted configuration. -/
def CutsTo (config : BitVec 32) (words : List (BitVec 32)) (header : BitVec 32)
    (rest : List (BitVec 32)) : Prop :=
  ∃ blocks : List (List (BitVec 32)), words = blocks.flatten ++ header :: rest ∧
    (∀ b ∈ blocks, SkippedBlock config b) ∧ bfieldR header 15 8 = config

section

variable {config v : BitVec 32} {rest : List (BitVec 32)}

theorem cutsTo_of_id (hid : bfieldR w 15 8 = config) :
    CutsTo config (w :: ws) header rest ↔ w = header ∧ ws = rest := by
  constructor
  · rintro ⟨blocks, hwords, hall, -⟩
    cases blocks with
    | nil => exact List.cons.inj hwords
    | cons b blocks =>
      obtain ⟨w', v, body, rfl, -, hne, -⟩ := hall b mem_cons_self
      obtain ⟨rfl, -⟩ := List.cons.inj hwords
      exact absurd hid hne
  · rintro ⟨rfl, rfl⟩
    exact ⟨[], rfl, nofun, hid⟩

theorem cutsTo_cons (hid : bfieldR w 15 8 ≠ config) :
    CutsTo config (w :: ws) header rest ↔ w &&& 1 ≠ 1 ∧ ∃ v body ws', ws = v :: (body ++ ws') ∧
      body.length = (bfieldR v 23 16).toNat ∧ CutsTo config ws' header rest := by
  constructor
  · rintro ⟨blocks, hwords, hall, hheader⟩
    cases blocks with
    | nil =>
      obtain ⟨rfl, -⟩ := List.cons.inj hwords
      exact absurd hheader hid
    | cons b blocks =>
      obtain ⟨w', v, body, rfl, hlen, -, hmark⟩ := hall b mem_cons_self
      rw [flatten_cons, List.append_assoc] at hwords
      obtain ⟨rfl, hrest⟩ := List.cons.inj hwords
      exact ⟨hmark, v, body, _, hrest, hlen, blocks, rfl,
        fun b hb => hall b (mem_cons_of_mem _ hb), hheader⟩
  · rintro ⟨hmark, v, body, ws', rfl, hlen, blocks, rfl, hall, hheader⟩
    refine ⟨(w :: v :: body) :: blocks, by simp, ?_, hheader⟩
    exact forall_mem_cons.mpr ⟨⟨w, v, body, rfl, hlen, hid, hmark⟩, hall⟩

theorem skipLoop_eq_found_iff {n : ℕ} {words : List (BitVec 32)} (hn : words.length < n) :
    skipLoop config n words = some (.found (header :: rest)) ↔
      CutsTo config words header rest := by
  induction n generalizing words with
  | zero => exact absurd hn (Nat.not_lt_zero _)
  | succ n ih =>
    cases words with
    | nil => exact iff_of_false (by simp [skipLoop]) fun ⟨_, h, _⟩ => by simp at h
    | cons w ws =>
      rw [skipLoop]
      split_ifs with hid hlast
      · rw [cutsTo_of_id hid, some.injEq, SkipEnd.found.injEq, List.cons.injEq]
      · rw [cutsTo_cons hid]
        exact iff_of_false (by simp) fun h => h.1 hlast
      rw [cutsTo_cons hid, and_iff_right hlast]
      cases ws with
      | nil => simp
      | cons v ws =>
        have hlen : (ws.drop (bfieldR v 23 16).toNat).length < n := by
          rw [length_drop]
          simp only [length_cons] at hn
          omega
        rw [head?_cons, bind_some, drop_succ_cons, ih hlen]
        constructor
        · intro hcut
          have hlong : (bfieldR v 23 16).toNat ≤ ws.length := by
            by_contra hshort
            rw [drop_eq_nil_of_le (by omega)] at hcut
            obtain ⟨_, h, -⟩ := hcut
            simp at h
          refine ⟨v, _, _, by rw [take_append_drop], ?_, hcut⟩
          rw [length_take, Nat.min_eq_left hlong]
        · rintro ⟨v', body, ws', heq, hbody, hcut⟩
          obtain ⟨rfl, rfl⟩ := List.cons.inj heq
          rwa [← hbody, drop_left]

end

variable {d : MapDescriptor}

/-! ## The regions -/

def layRegions (size : BitVec 32) : BitVec 32 → List (BitVec 32) → List EraseRegion
  | _, [] => []
  | addr, w :: rest =>
    ⟨addr, regionSize size w, regionMethod w⟩ :: layRegions size (addr + regionSize size w) rest

theorem buildRegions_eq (size : BitVec 32) (n : ℕ) (addr : BitVec 32) (rest : List (BitVec 32)) :
    buildRegions size n addr rest =
      if n ≤ rest.length then some (layRegions size addr (rest.take n)) else none := by
  induction n generalizing addr rest with
  | zero => simp [buildRegions, layRegions]
  | succ n ih =>
    cases rest with
    | nil => simp [buildRegions]
    | cons w rest =>
      rw [buildRegions, ih, length_cons, take_succ_cons, layRegions]
      simp only [Nat.succ_le_succ_iff]
      split_ifs <;> rfl

theorem map_layRegions (size addr : BitVec 32) (ws : List (BitVec 32)) :
    (layRegions size addr ws).map (·.size) = ws.map (regionSize size) ∧
      (layRegions size addr ws).map (·.method) = ws.map regionMethod := by
  induction ws generalizing addr with
  | nil => exact ⟨rfl, rfl⟩
  | cons w ws ih =>
    obtain ⟨hsizes, hmethods⟩ := ih (addr + regionSize size w)
    exact ⟨congrArg _ hsizes, congrArg _ hmethods⟩

theorem layRegions_congr (hsizes : ws.map (regionSize size) = ws'.map (regionSize size))
    (hmethods : ws.map regionMethod = ws'.map regionMethod) (addr : BitVec 32) :
    layRegions size addr ws = layRegions size addr ws' := by
  induction ws generalizing ws' addr with
  | nil =>
    rw [map_nil, nil_eq, map_eq_nil_iff] at hsizes
    rw [hsizes]
  | cons w ws ih =>
    cases ws' with
    | nil => simp at hsizes
    | cons w' ws' =>
      rw [map_cons, map_cons, List.cons.injEq] at hsizes hmethods
      rw [layRegions, layRegions, hsizes.1, hmethods.1, ih hsizes.2 hmethods.2]

theorem toNat_regionSize (h : regionBytes w ≤ size.toNat) :
    (regionSize size w).toNat = regionBytes w := by
  have hvalue : (256 * (bfieldR w 31 8 + 1) : BitVec 32).toNat = regionBytes w := by
    rw [regionBytes] at h ⊢
    rw [toNat_mul, toNat_add, show (256 : BitVec 32).toNat = 256 from rfl,
      show (1 : BitVec 32).toNat = 1 from rfl]
    omega
  rw [regionSize, if_neg]
  · exact hvalue
  · rw [gt_iff_lt, lt_def, hvalue]
    exact Nat.not_lt.mpr h

theorem map_toNat_regionSize (h : ∀ w ∈ ws, regionBytes w ≤ size.toNat) :
    (ws.map (regionSize size)).map (·.toNat) = ws.map regionBytes := by
  rw [List.map_map]
  exact map_congr_left fun w hw => toNat_regionSize (h w hw)

theorem regionBytes_le (h : (ws.map regionBytes).sum = size.toNat) :
    ∀ w ∈ ws, regionBytes w ≤ size.toNat := fun _ hw =>
  h ▸ single_le_sum (by simp) _ (mem_map_of_mem hw)

theorem start_layRegions (h : addr.toNat + (ws.map regionBytes).sum ≤ size.toNat) {i : ℕ}
    {r : EraseRegion}
    (hr : (layRegions size addr ws)[i]? = some r) :
    r.start.toNat = addr.toNat + (((layRegions size addr ws).take i).map (·.size.toNat)).sum := by
  induction ws generalizing addr i with
  | nil => simp [layRegions] at hr
  | cons w ws ih =>
    rw [map_cons, sum_cons] at h
    cases i with
    | zero =>
      rw [layRegions, getElem?_cons_zero, some.injEq] at hr
      rw [← hr]
      rfl
    | succ i =>
      have hw : (regionSize size w).toNat = regionBytes w := toNat_regionSize (by omega)
      have hnext : (addr + regionSize size w).toNat = addr.toNat + regionBytes w := by
        rw [toNat_add, hw, Nat.mod_eq_of_lt (by omega)]
      rw [ih (by rw [hnext]; omega) hr, layRegions, take_succ_cons, map_cons, sum_cons, hnext, hw]
      omega

/-- **The layout of a descriptor** that covers the flash. -/
theorem isMapOf_layRegions (h : (d.regions.map regionBytes).sum = size.toNat) :
    IsMapOf size d (layRegions size 0 d.regions) := by
  obtain ⟨hsize, hmethods⟩ := map_layRegions size 0 d.regions
  have hsizes : (layRegions size 0 d.regions).map (·.size.toNat) = d.regions.map regionBytes := by
    rw [← map_toNat_regionSize (regionBytes_le h), ← hsize, List.map_map]
    rfl
  refine ⟨hsizes, hmethods, fun i r hr => ?_, hsizes ▸ h⟩
  rw [start_layRegions (by rw [h]; simp) hr]
  simp

/-! ## Selection -/

/-- The parser builds the regions of a descriptor, and nothing else of the flash changes. -/
def BuildsMap (dword : List (BitVec 32)) (answer : ℕ → DetectCmd → BitVec 8) (malloc : Bool)
    (f : FlashInfo) (d : MapDescriptor) : Prop :=
  ∃ rs, sfdpParseSectorMap dword answer malloc f = some (.done { f with region := rs }) ∧
    IsMapOf f.size d rs

/-- Cut by the counts behind the headers, the words come to one with the wanted configuration, and
the words behind it, as many as it says, have the sizes and types of a descriptor's regions. -/
def CutsToMap (size config : BitVec 32) (words : List (BitVec 32)) (d : MapDescriptor) : Prop :=
  ∃ header regions rest, CutsTo config words header (regions ++ rest) ∧
    regions.length = numRegion header ∧
    regions.map (regionSize size) = d.regions.map (regionSize size) ∧
    regions.map regionMethod = d.regions.map regionMethod

variable {f g : FlashInfo}

section

variable (t : SectorMapTable f.size) (answer : ℕ → DetectCmd → BitVec 8)

theorem sfdpParseSectorMap_done_iff (malloc : Bool) :
    sfdpParseSectorMap t.words answer malloc f = some (.done g) ↔
      malloc = true ∧ ∃ header rest, CutsTo (t.config answer) t.mapWords header rest ∧
        numRegion header ≤ rest.length ∧
        g = { f with region := layRegions f.size 0 (rest.take (numRegion header)) } := by
  have hfuel : t.mapWords.length < t.mapWords.length + 1 := Nat.lt_succ_self _
  simp only [sfdpParseSectorMap, t.detectLoop_words answer, bind_eq_bind, bind_some,
    ← skipLoop_eq_found_iff hfuel]
  cases hskip : skipLoop (t.config answer) (t.mapWords.length + 1) t.mapWords with
  | none => simp
  | some out =>
    match out with
    | .enodev => simp
    | .found [] => simp
    | .found (header :: rest) =>
      cases malloc with
      | false => simp
      | true =>
        rw [bind_some]
        dsimp only
        rw [if_pos rfl, buildRegions_eq]
        split_ifs with hlen
        · constructor
          · intro h
            have hg := SectorMapResult.done.inj (some.inj h)
            exact ⟨rfl, header, rest, rfl, hlen, hg.symm⟩
          · rintro ⟨-, header', rest', heq, -, rfl⟩
            cases heq
            rfl
        · refine iff_of_false (by simp) ?_
          rintro ⟨-, header', rest', heq, hlen', -⟩
          cases heq
          exact hlen hlen'

end

/-- **Sector map selection.** The regions of the detected configuration are built exactly when they
can be allocated and the words of the table, cut by the counts behind the headers, come to the words
of its descriptor or to such as read the same. -/
theorem sector_map_selected_iff {f : FlashInfo} (t : SectorMapTable f.size)
    (answer : ℕ → DetectCmd → BitVec 8) (malloc : Bool) {d : MapDescriptor}
    (hd : t.selected answer = some d) :
    BuildsMap t.words answer malloc f d ↔
      malloc = true ∧ CutsToMap f.size (t.config answer) t.mapWords d := by
  have hcovers := t.covers d (mem_of_find?_eq_some hd)
  constructor
  · rintro ⟨rs, hparse, hmap⟩
    obtain ⟨hmalloc, header, rest, hcut, hlen, hg⟩ :=
      (sfdpParseSectorMap_done_iff t answer malloc).mp hparse
    obtain rfl : rs = layRegions f.size 0 (rest.take (numRegion header)) :=
      congrArg FlashInfo.region hg
    obtain ⟨hsizes, hmethods⟩ := map_layRegions f.size 0 (rest.take (numRegion header))
    refine ⟨hmalloc, header, _, _, by rwa [take_append_drop (numRegion header) rest],
      by rw [length_take, Nat.min_eq_left hlen], ?_, hmethods.symm.trans hmap.methods⟩
    -- The sizes as numbers say the sizes as words, since those of the descriptor fit.
    have hinj : Function.Injective fun b : BitVec 32 => b.toNat := fun _ _ =>
      eq_of_toNat_eq
    apply map_injective_iff.mpr hinj
    rw [map_toNat_regionSize (regionBytes_le hcovers), ← hmap.sizes, ← hsizes, List.map_map]
    rfl
  · rintro ⟨rfl, header, regions, rest, hcut, hlen, hsizes, hmethods⟩
    refine ⟨layRegions f.size 0 d.regions, ?_, isMapOf_layRegions hcovers⟩
    rw [sfdpParseSectorMap_done_iff]
    refine ⟨rfl, header, regions ++ rest, hcut, by rw [length_append]; omega, ?_⟩
    rw [← hlen, take_left, layRegions_congr hsizes hmethods]

def mapChip : FlashInfo := { FlashInfo.blank with size := 0x100000 }

/-- A table with one detection command and two configurations: two halves, or one region. -/
def twoMaps : SectorMapTable mapChip.size where
  cmds := [⟨0x08006500, 0, by decide⟩]
  front := [⟨0x00010002, [0x0007ff01, 0x0007ff01], by decide, by decide⟩]
  final := ⟨0x00000103, [0x000fff01], by decide, by decide⟩
  front_unmarked := by decide
  final_marked := by decide
  covers := by decide

/-- A table whose first descriptor has its count behind its header as well. -/
def countedMaps : SectorMapTable mapChip.size where
  cmds := [⟨0x08006500, 0, by decide⟩]
  front := [⟨0x00010002, [0x0001ff01, 0x000dff01], by decide, by decide⟩]
  final := ⟨0x00000103, [0x000fff01], by decide, by decide⟩
  front_unmarked := by decide
  final_marked := by decide
  covers := by decide

/-- There the second configuration is found behind the first. -/
theorem sector_map_selected_second :
    countedMaps.selected (fun _ _ => 8) = some countedMaps.final ∧
      BuildsMap countedMaps.words (fun _ _ => 8) true mapChip countedMaps.final := by
  refine ⟨rfl, (sector_map_selected_iff countedMaps (fun _ _ => 8) true rfl).mpr
    ⟨rfl, 0x00000103, [0x000fff01], [], ⟨[[0x00010002, 0x0001ff01, 0x000dff01]], rfl, ?_,
      by decide⟩, rfl, rfl, rfl⟩⟩
  intro b hb
  rw [mem_singleton.mp hb]
  exact ⟨_, _, _, rfl, by decide, by decide, by decide⟩

/-- The configuration of the second one: the first region of the other is `0x7ff01`, whose bits
23:16 are 7, so the parser jumps over eight words instead of two. -/
theorem sector_map_not_selected :
    twoMaps.selected (fun _ _ => 8) = some twoMaps.final ∧
      (sfdpParseSectorMap twoMaps.words (fun _ _ => 8) true mapChip).isNone = true ∧
      ¬BuildsMap twoMaps.words (fun _ _ => 8) true mapChip twoMaps.final := by
  have hnone : (sfdpParseSectorMap twoMaps.words (fun _ _ => 8) true mapChip).isNone = true := by
    decide
  refine ⟨rfl, hnone, ?_⟩
  rintro ⟨rs, hparse, -⟩
  rw [hparse] at hnone
  cases hnone

end WiseSdk.Flash
