import WiseSdk.Flash.EraseMap
import WiseSdk.Library.Extent

/-!
# The commands of an erase

What `spi_flash_erase` does with `how = 0` (`WiseSdk.Flash.EraseMap` has the walk). A block that
ends at the top of the address space has end `0` and passes the check against the end of the range;
the walk goes on from offset `0`, comes back to the same block and never ends (`Planned.no_wrap`). A
walk that ends has laid its blocks side by side (`Planned.tiles`), and these are the commands, as
long as every address fits three bytes. They are the largest blocks of the range whose types are
allowed where they start (`Planned.largest_iff`); nothing looks at the region in which such a block
ends.
-/

namespace WiseSdk.Flash

open Library List
open BitVec hiding not_not

/-! ## The source's function -/

def EraseCmd.extent (c : EraseCmd) : Extent := ⟨c.addr.cmdAddr, c.addr.cmdAddr + c.op.size.toNat⟩

/-- `spi_flash_write_sequence`: a command is issued, and the `n`-th one returns `ret n`. -/
def issue (ret : ℕ → ℤ) (cmd : EraseCmd) (cmds : List EraseCmd) : Option ℤ × List EraseCmd :=
  (some (ret cmds.length), cmds ++ [cmd])

variable (fl : SpiFlash)

/-- `spi_flash_erase`: the result and the commands issued. -/
def spiFlashErase (start size : BitVec 32) (how : EraseHow) (ret : ℕ → ℤ) (fuel : ℕ) :
    Option EraseResult × List EraseCmd :=
  fl.erase start size how (issue ret) fuel []

/-! ## One step of the walk -/

section Lookup

variable {fl : SpiFlash} {r : EraseRegion} {inb : EraseBlock} {op : EraseMethod}

def Allows (fl : SpiFlash) (r : EraseRegion) (m : EraseMethod) : Prop :=
  ∃ i : Fin 4, r.method.getLsbD i ∧ m = fl.eraseInfo i

/-- Of the types of one size, a region's first. -/
def FirstOfSize (fl : SpiFlash) (r : EraseRegion) (m : EraseMethod) : Prop :=
  ∃ i : Fin 4, r.method.getLsbD i ∧ m = fl.eraseInfo i ∧
    ∀ j < i, r.method.getLsbD j → (fl.eraseInfo j).size ≠ m.size

variable {m m' : EraseMethod}

theorem blockOk_zero_iff (hm : PowerOfTwo m.size.toNat) :
    blockOk inb .zero m ↔ m.size.toNat ∣ inb.start.toNat ∧ inb.start + m.size ≤ inb.stop := by
  have hstart : (blockAt inb m).start = inb.start ↔ m.size.toNat ∣ inb.start.toNat := by
    rw [← toNat_inj, toNat_blockAt_start m hm, Nat.dvd_iff_mod_eq_zero]
    have hmod := Nat.mod_le inb.start.toNat m.size.toNat
    omega
  simp only [blockOk, EraseHow.zero, Bool.false_eq_true, if_false, eraseBlockSubset,
    Bool.and_eq_true, decide_eq_true_eq, beq_iff_eq, ← hstart]
  constructor
  · rintro ⟨⟨-, hstop⟩, heq⟩
    exact ⟨heq, heq ▸ hstop⟩
  · rintro ⟨heq, hstop⟩
    refine ⟨⟨heq ▸ BitVec.le_refl _, ?_⟩, heq⟩
    show (blockAt inb m).start + m.size ≤ inb.stop
    rw [heq]
    exact hstop

/-- The erase type a step uses. -/
structure Chosen (fl : SpiFlash) (inb : EraseBlock) (r : EraseRegion) (op : EraseMethod) :
    Prop where
  region : fl.lookupRegion inb.start = some r
  first : FirstOfSize fl r op
  power : PowerOfTwo op.size.toNat
  aligned : op.size.toNat ∣ inb.start.toNat
  fits : inb.start + op.size ≤ inb.stop
  largest : ∀ m, Allows fl r m → m.size.toNat ∣ inb.start.toNat →
    inb.start + m.size ≤ inb.stop → m.size ≤ op.size

theorem FirstOfSize.allows (h : FirstOfSize fl r m) : Allows fl r m :=
  have ⟨i, hbit, hi, _⟩ := h
  ⟨i, hbit, hi⟩

theorem FirstOfSize.eq (h : FirstOfSize fl r m) (h' : FirstOfSize fl r m')
    (hsize : m.size = m'.size) : m = m' := by
  obtain ⟨i, hbit, rfl, hfirst⟩ := h
  obtain ⟨j, hbit', rfl, hfirst'⟩ := h'
  by_cases hij : i = j
  · rw [hij]
  rcases Fin.lt_or_lt_of_ne hij with hlt | hlt
  · exact absurd hsize (hfirst' i hlt hbit)
  · exact absurd hsize.symm (hfirst j hlt hbit')

theorem Chosen.allowed (h : Chosen fl inb r op) : Allows fl r op := h.first.allows

/-- **The step.** With `how = 0` it uses the largest type of the region that is aligned and fits. -/
theorem chosen_of_lookup (h : fl.lookupEraseInfo inb .zero = some (r, op)) :
    Chosen fl inb r op := by
  obtain ⟨hr, hbest⟩ := EraseMap.lookupEraseInfo_eq_some.mp h
  obtain ⟨-, -, hmax⟩ := EraseMap.lookupEraseInfo_spec h
  have hpower : ∀ i : Fin 4, r.method.getLsbD i → PowerOfTwo (fl.eraseInfo i).size.toNat :=
    fl.powerOfTwo r (mem_of_find?_eq_some hr)
  obtain ⟨pre, i, post, hsplit, hmay, rfl, hfirst⟩ := foldl_first .zero fl.eraseInfo
    (fun i => r.method.getLsbD i && blockOk inb .zero (fl.eraseInfo i)) (finRange 4) hbest
  obtain ⟨hbit, hok⟩ := Bool.and_eq_true_iff.mp hmay
  obtain ⟨haligned, hfits⟩ := (blockOk_zero_iff (hpower i hbit)).mp hok
  refine ⟨hr, ⟨i, hbit, rfl, fun j hji hj hsize => ?_⟩, hpower i hbit, haligned, hfits, ?_⟩
  · -- A type of the same size before this one would have been kept.
    have hsorted : (pre ++ i :: post).Pairwise (· < ·) := hsplit ▸ pairwise_lt_finRange 4
    have hmem : j ∈ pre ++ i :: post := hsplit ▸ mem_finRange j
    have hpre : j ∈ pre := by
      rcases mem_append.mp hmem with hpre | hpost
      · exact hpre
      · rcases mem_cons.mp hpost with rfl | hpost
        · exact absurd hji (lt_irrefl j)
        · have := (pairwise_cons.mp (pairwise_append.mp hsorted).2.1).1 j hpost
          exact absurd hji this.asymm
    have hok' : blockOk inb .zero (fl.eraseInfo j) := by
      rw [blockOk_zero_iff (hpower j hj), hsize]
      exact ⟨haligned, hfits⟩
    have hbetter := hfirst j hpre (by rw [hj, hok']; rfl)
    rw [isBetter_iff, Kept] at hbetter
    exact hbetter (by simp [EraseHow.zero, hsize])
  · rintro m ⟨j, hj, rfl⟩ hdvd hstop
    exact hmax j hj ((blockOk_zero_iff (hpower j hj)).mpr ⟨hdvd, hstop⟩)

theorem Chosen.blockAt_start (h : Chosen fl inb r op) : (blockAt inb op).start = inb.start := by
  rw [← toNat_inj, toNat_blockAt_start op h.power,
    Nat.dvd_iff_mod_eq_zero.mp h.aligned, Nat.sub_zero]

/-- A block ends at the top of the address space at the latest. -/
theorem Chosen.add_le (h : Chosen fl inb r op) :
    inb.start.toNat + op.size.toNat ≤ 2 ^ 32 :=
  add_le_of_dvd h.aligned (h.power.dvd_of_le ⟨32, rfl⟩ op.size.isLt.le) inb.start.isLt

end Lookup

/-! ## The whole walk -/

abbrev ErasePiece := BitVec 32 × EraseMethod

def ErasePiece.extent (b : ErasePiece) : Extent := ⟨b.1.toNat, b.1.toNat + b.2.size.toNat⟩

def ErasePiece.cmd (b : ErasePiece) : EraseCmd := ⟨b.2, spiFlashAddr b.1⟩

/-- The blocks of a walk with `how = 0` from `s` towards `stop` that leaves the loop at `t`. -/
def Planned (fl : SpiFlash) (stop : BitVec 32) : BitVec 32 → List ErasePiece → BitVec 32 → Prop
  | s, [], t => ¬s < stop ∧ t = s
  | s, b :: bs, t => s < stop ∧ b.1 = s ∧
      (∃ r, fl.lookupEraseInfo ⟨s, stop⟩ .zero = some (r, b.2)) ∧
      Planned fl stop (s + b.2.size) bs t

section Walk

variable {fl : SpiFlash} {stop s t : BitVec 32} {bs : List ErasePiece}

/-- **A walk does not wrap.** Once a block has ended at the top of the address space the walk is
below that block's start for ever: it steps up to it, or over it with a larger block, and begins
again. -/
theorem Planned.no_wrap {p top : BitVec 32} {r : EraseRegion} {op : EraseMethod}
    (h : Planned fl stop p bs t) (hp : p ≤ top) (htop : top < stop)
    (hlookup : fl.lookupEraseInfo ⟨top, stop⟩ .zero = some (r, op))
    (hwrap : top.toNat + op.size.toNat = 2 ^ 32) : False := by
  induction bs generalizing p with
  | nil => exact h.1 (Nat.lt_of_le_of_lt hp htop)
  | cons b bs ih =>
    obtain ⟨-, rfl, ⟨r', hr'⟩, hrest⟩ := h
    refine ih hrest ?_
    have hchosen := chosen_of_lookup hlookup
    have hchosen' := chosen_of_lookup hr'
    rcases Nat.lt_or_ge b.1.toNat top.toNat with hlt | hge
    · rcases add_le_or_covers hchosen'.power hchosen.power hchosen'.aligned hchosen.aligned hlt
        with hle | hcovers
      · rw [le_def, toNat_add]
        exact Nat.le_trans (Nat.mod_le _ _) hle
      · have htop' := hchosen'.add_le
        simp only at hcovers htop'
        rw [add_eq_zero_of_toNat (by omega)]
        exact Nat.zero_le _
    · -- The walk has come back to the block that wrapped, and makes the same choice.
      obtain rfl : b.1 = top := BitVec.le_antisymm hp hge
      rw [hlookup] at hr'
      cases hr'
      rw [add_eq_zero_of_toNat hwrap]
      exact Nat.zero_le _

/-- **The blocks tile the range** of a walk that ends at its end. -/
theorem Planned.tiles (h : Planned fl stop s bs stop) :
    Tiles (bs.map ErasePiece.extent) s.toNat stop.toNat := by
  induction bs generalizing s with
  | nil => rw [h.2]; rfl
  | cons b bs ih =>
    obtain ⟨hlt, rfl, ⟨r, hr⟩, hrest⟩ := h
    have hchosen := chosen_of_lookup hr
    have hpos := hchosen.power.pos
    have hle := hchosen.add_le
    rcases Nat.lt_or_ge (b.1.toNat + b.2.size.toNat) (2 ^ 32) with hsum | hsum
    · have hnext : (b.1 + b.2.size).toNat = b.1.toNat + b.2.size.toNat := by
        rw [toNat_add, Nat.mod_eq_of_lt hsum]
      refine ⟨rfl, Nat.lt_add_of_pos_right hpos, ?_⟩
      have htail := ih hrest
      rwa [hnext] at htail
    · have hwrap : b.1.toNat + b.2.size.toNat = 2 ^ 32 := Nat.le_antisymm hle hsum
      rw [add_eq_zero_of_toNat hwrap] at hrest
      exact (hrest.no_wrap (Nat.zero_le _) hlt hr hwrap).elim

theorem Planned.chosen (h : Planned fl stop s bs t) {b : ErasePiece} (hb : b ∈ bs) :
    ∃ r, Chosen fl ⟨b.1, stop⟩ r b.2 := by
  induction bs generalizing s with
  | nil => cases hb
  | cons b' bs ih =>
    obtain ⟨-, rfl, ⟨r, hr⟩, hrest⟩ := h
    rcases mem_cons.mp hb with rfl | hb
    · exact ⟨r, chosen_of_lookup hr⟩
    · exact ih hrest hb

theorem Planned.eq_nil (h : Planned fl s s bs t) : bs = [] := by
  cases bs with
  | nil => rfl
  | cons b bs => exact absurd h.1 (Nat.lt_irrefl _)

end Walk

/-! ## The two passes -/

section Passes

variable {fl : SpiFlash} {ret : ℕ → ℤ} {fuel : ℕ} {cmds cmds' : List EraseCmd}
  {s stop t start size : BitVec 32}

theorem eraseLoop_left
    (h : fl.eraseLoop .zero (issue ret) false fuel ⟨s, stop⟩ cmds = (some (.left t), cmds')) :
    ∃ bs, Planned fl stop s bs t ∧ cmds' = cmds ++ bs.map ErasePiece.cmd := by
  induction fuel generalizing s cmds with
  | zero => cases h
  | succ fuel ih =>
    rw [EraseMap.eraseLoop] at h
    split at h
    next hlt =>
      split at h
      · cases h
      next r op hl =>
        have haddr : (blockAt ⟨s, stop⟩ op).start = s := (chosen_of_lookup hl).blockAt_start
        simp only [Bool.false_eq_true, if_false, issue, haddr] at h
        split at h
        · cases h
        · obtain ⟨bs, hbs, rfl⟩ := ih h
          exact ⟨(s, op) :: bs, ⟨hlt, rfl, ⟨r, hl⟩, hbs⟩, by simp [ErasePiece.cmd]⟩
    next hlt =>
      cases h
      exact ⟨[], ⟨hlt, rfl⟩, by simp⟩

/-- A type has at most half of the address space, so a walk in the lower half moves up. -/
theorem progresses_low (hstop : stop.toNat ≤ 2 ^ 31) : fl.Progresses .zero stop s := by
  intro t r op _ hlt hlookup
  have hchosen := chosen_of_lookup hlookup
  have hpos := hchosen.power.pos
  have hhalf := hchosen.power.two_mul_le ⟨32, rfl⟩ op.size.isLt
  have hlt' := lt_def.mp hlt
  rw [toNat_add, Nat.mod_eq_of_lt (by omega)]
  omega

theorem spiFlashErase_cases {res : EraseResult}
    (h : spiFlashErase fl start size .zero ret fuel = (some res, cmds)) :
    (res = .einval → cmds = []) ∧ (res = .ok → ∃ bs,
      Planned fl (start + size) start bs (start + size) ∧ cmds = bs.map ErasePiece.cmd) := by
  rw [spiFlashErase, EraseMap.erase] at h
  cases hdry : fl.eraseLoop .zero (issue ret) true fuel ⟨start, start + size⟩ [] with
  | mk planned cmds₀ =>
    cases planned with
    | none =>
      rw [hdry] at h
      cases h
    | some planned =>
      obtain ⟨rfl, hfailed⟩ := EraseMap.eraseLoop_dry hdry
      simp only [hdry] at h
      cases planned with
      | misfit =>
        cases h
        exact ⟨fun _ => rfl, by simp⟩
      | failed r => exact absurd rfl (hfailed r)
      | left s =>
        by_cases hend : misfitAtEnd .zero s (start + size)
        · simp only [EraseMap.loopResult, if_pos hend] at h
          cases h
          exact ⟨fun _ => rfl, by simp⟩
        simp only [EraseMap.loopResult, if_neg hend] at h
        -- The check after the second pass cannot fail: both passes end at the same start.
        have hs : s = start + size := by simpa [misfitAtEnd] using hend
        split at h
        · cases h
        next walked cmds' hreal =>
          rcases EraseMap.eraseLoop_real hdry hreal with rfl | ⟨r, rfl⟩
          · simp only [if_neg hend, Option.getD_none] at h
            cases h
            obtain ⟨bs, hbs, hcmds⟩ := eraseLoop_left hreal
            exact ⟨by simp, fun _ => ⟨bs, hs ▸ hbs, by simpa using hcmds⟩⟩
          · cases h
            simp

end Passes

/-! ## Accepted and rejected requests -/

/-- The commands erase exactly `[start, start + size)`: each is an aligned block of a type that the
region of every one of its bytes allows, no two overlap, and together they cover just the range. -/
structure ErasesExactly (fl : SpiFlash) (start size : BitVec 32) (cmds : List EraseCmd) :
    Prop where
  aligned : ∀ c ∈ cmds, c.op.size.toNat ∣ c.addr.cmdAddr
  allowed : ∀ c ∈ cmds, ∀ z : BitVec 32, c.extent.Contains z.toNat →
    ∃ r, fl.lookupRegion z = some r ∧ Allows fl r c.op
  apart : (cmds.map EraseCmd.extent).Pairwise Extent.Apart
  union : ∀ x, InRegions (cmds.map EraseCmd.extent) x ↔
    start.toNat ≤ x ∧ x < start.toNat + size.toNat

/-- Three address bytes are enough: the range lies below `2 ^ 24`, is empty, or is one block at
offset `0`. -/
def Addressable (start size : BitVec 32) : Prop :=
  start.toNat + size.toNat ≤ 2 ^ 24 ∨ size = 0#32 ∨
    start = 0#32 ∧ ∃ r m, fl.lookupRegion 0#32 = some r ∧ Allows fl r m ∧ m.size = size

/-- A block the walk could use: an aligned block of the range, of a type allowed where it starts. -/
structure Usable (start size x : BitVec 32) (m : EraseMethod) : Prop where
  allowed : ∃ r, fl.lookupRegion x = some r ∧ FirstOfSize fl r m
  aligned : m.size.toNat ∣ x.toNat
  inside : start.toNat ≤ x.toNat ∧ x.toNat + m.size.toNat ≤ start.toNat + size.toNat

/-- One that lies in no larger one. -/
def Largest (start size x : BitVec 32) (m : EraseMethod) : Prop :=
  Usable fl start size x m ∧ ∀ y m', Usable fl start size y m' → y.toNat ≤ x.toNat →
    x.toNat + m.size.toNat ≤ y.toNat + m'.size.toNat → m'.size ≤ m.size

/-- **No largest block runs into a region that does not allow its type.** -/
def RegionsAgree (start size : BitVec 32) : Prop :=
  ∀ x m, Largest fl start size x m → ∀ z : BitVec 32, x.toNat ≤ z.toNat →
    z.toNat < x.toNat + m.size.toNat → ∃ r, fl.lookupRegion z = some r ∧ Allows fl r m

section Accepted

variable {fl : SpiFlash} {start size stop : BitVec 32} {bs : List ErasePiece} {r : EraseRegion}
  {b : ErasePiece}

/-- A request that is accepted does not run past the address space. -/
theorem Planned.toNat_stop (h : Planned fl (start + size) start bs (start + size)) :
    (start + size).toNat = start.toNat + size.toNat := by
  have hle := h.tiles.bounds.1
  rw [toNat_add] at hle ⊢
  omega

theorem Usable.power {x : BitVec 32} {m : EraseMethod} (h : Usable fl start size x m) :
    PowerOfTwo m.size.toNat := by
  obtain ⟨r, hr, i, hbit, rfl, -⟩ := h.allowed
  exact fl.powerOfTwo r (mem_of_find?_eq_some hr) i hbit

section Plan

variable (h : Planned fl (start + size) start bs (start + size))

include h

theorem Planned.usable (hb : b ∈ bs) : Usable fl start size b.1 b.2 := by
  obtain ⟨r, hr⟩ := h.chosen hb
  have hbounds := h.tiles.bounds.2 _ (mem_map_of_mem hb)
  rw [h.toNat_stop] at hbounds
  exact ⟨⟨r, hr.region, hr.first⟩, hr.aligned, hbounds.1, hbounds.2.2⟩

/-- At the start of a block of the plan no larger one could be used. -/
theorem Planned.size_le (hb : b ∈ bs) {m : EraseMethod} (hm : Usable fl start size b.1 m) :
    m.size ≤ b.2.size := by
  obtain ⟨r, hr⟩ := h.chosen hb
  obtain ⟨r', hr', hfirst⟩ := hm.allowed
  obtain rfl := Option.some.inj (hr.region.symm.trans hr')
  refine hr.largest m hfirst.allows hm.aligned ?_
  have hstop := h.toNat_stop
  have hlt := (start + size).isLt
  have hinside := hm.inside.2
  rw [le_def, toNat_add, Nat.mod_eq_of_lt (by simp only; omega), hstop]
  exact hinside

theorem Planned.exists_covers {x : ℕ} (hx : start.toNat ≤ x ∧ x < start.toNat + size.toNat) :
    ∃ b ∈ bs, b.1.toNat ≤ x ∧ x < b.1.toNat + b.2.size.toNat := by
  have htiles := h.tiles
  rw [h.toNat_stop] at htiles
  obtain ⟨e, he, hcontains⟩ := htiles.inRegions_iff.mpr hx
  obtain ⟨b, hb, rfl⟩ := mem_map.mp he
  exact ⟨b, hb, hcontains⟩

theorem Planned.eq_of_contains {c : ErasePiece} (hb : b ∈ bs) (hc : c ∈ bs) {x : ℕ}
    (hbx : b.extent.Contains x) (hcx : c.extent.Contains x) : b = c := by
  by_contra hne
  have hpairwise : bs.Pairwise fun b c => (ErasePiece.extent b).Apart (ErasePiece.extent c) :=
    pairwise_map.mp h.tiles.pairwise
  have : Std.Symm fun b c => (ErasePiece.extent b).Apart (ErasePiece.extent c) :=
    ⟨fun _ _ => Extent.Apart.symm⟩
  rcases hpairwise.forall hb hc hne with hle | hle
  · exact absurd hle (Nat.not_le.mpr (Nat.lt_of_le_of_lt hcx.1 hbx.2))
  · exact absurd hle (Nat.not_le.mpr (Nat.lt_of_le_of_lt hbx.1 hcx.2))

/-- **The blocks of an accepted request** are the largest that could be used. -/
theorem Planned.largest_iff {x : BitVec 32} {m : EraseMethod} :
    Largest fl start size x m ↔ (x, m) ∈ bs := by
  constructor
  · rintro ⟨hx, hlargest⟩
    have hpos := hx.power.pos
    obtain ⟨b, hb, hle, hlt⟩ := h.exists_covers (x := x.toNat)
      ⟨hx.inside.1, by have := hx.inside.2; omega⟩
    have hbu := h.usable hb
    rcases Nat.eq_or_lt_of_le hle with heq | hbefore
    · obtain rfl : b.1 = x := eq_of_toNat_eq heq
      have hmb := h.size_le hb hx
      have hbm := hlargest b.1 b.2 hbu hle (Nat.add_le_add_left hmb _)
      obtain ⟨r, hr, hfirst⟩ := hx.allowed
      obtain ⟨r', hr', hfirst'⟩ := hbu.allowed
      obtain rfl := Option.some.inj (hr.symm.trans hr')
      obtain rfl := hfirst.eq hfirst' (BitVec.le_antisymm hmb hbm)
      exact hb
    · -- The block of the plan begins before and covers this one.
      rcases add_le_or_covers hbu.power hx.power hbu.aligned hx.aligned hbefore with hend | hcovers
      · omega
      · have hbm : b.2.size.toNat ≤ m.size.toNat := hlargest b.1 b.2 hbu hle hcovers
        omega
  · intro hb
    refine ⟨h.usable hb, fun y m' hy hle hcovers => ?_⟩
    have hpos := (h.usable hb).power.pos
    simp only at hle hcovers hpos
    by_contra hnot
    have hlt : m.size.toNat < m'.size.toNat := Nat.not_le.mp hnot
    obtain ⟨c, hc, hcle, hclt⟩ := h.exists_covers (x := y.toNat)
      ⟨hy.inside.1, by have := hy.inside.2; omega⟩
    -- The block that holds the start of the larger one also holds the end of this one.
    have hsame : y.toNat + m'.size.toNat ≤ c.1.toNat + c.2.size.toNat → c = (x, m) := fun hend =>
      h.eq_of_contains hc hb (x := x.toNat)
        ⟨hcle.trans hle, by simp only [ErasePiece.extent]; omega⟩
        ⟨le_rfl, Nat.lt_add_of_pos_right hpos⟩
    rcases Nat.eq_or_lt_of_le hcle with heq | hbefore
    · obtain rfl : c.1 = y := eq_of_toNat_eq heq
      have hm'c : m'.size.toNat ≤ c.2.size.toNat := h.size_le hc hy
      obtain rfl := hsame (by omega)
      simp only at hm'c
      omega
    · rcases add_le_or_covers (h.usable hc).power hy.power (h.usable hc).aligned hy.aligned hbefore
        with hend | hend
      · omega
      · obtain rfl := hsame hend
        simp only at hbefore
        omega

end Plan

/-- The commands of a plan in the lower 16M erase its blocks. -/
theorem cmdAddr_of_low (hlow : b.1.toNat < 2 ^ 24) :
    (ErasePiece.cmd b).addr.cmdAddr = b.1.toNat := by
  rw [ErasePiece.cmd, cmdAddr_spiFlashAddr, Nat.mod_eq_of_lt hlow]

theorem Planned.erasesExactly (h : Planned fl (start + size) start bs (start + size))
    (hlow : ∀ b ∈ bs, b.1.toNat < 2 ^ 24) (hagree : RegionsAgree fl start size) :
    ErasesExactly fl start size (bs.map ErasePiece.cmd) := by
  have haddr : ∀ b ∈ bs, (ErasePiece.cmd b).addr.cmdAddr = b.1.toNat := fun b hb =>
    cmdAddr_of_low (hlow b hb)
  have hextents : (bs.map ErasePiece.cmd).map EraseCmd.extent = bs.map ErasePiece.extent := by
    rw [map_map]
    refine map_congr_left fun b hb => ?_
    rw [Function.comp_apply, EraseCmd.extent, haddr b hb]
    rfl
  have htiles := h.tiles
  rw [h.toNat_stop] at htiles
  refine ⟨fun c hc => ?_, fun c hc z hz => ?_, ?_, fun x => ?_⟩
  · obtain ⟨b, hb, rfl⟩ := mem_map.mp hc
    obtain ⟨r, hr⟩ := h.chosen hb
    rw [haddr b hb]
    exact hr.aligned
  · obtain ⟨b, hb, rfl⟩ := mem_map.mp hc
    obtain ⟨hlo, hhi⟩ := hz
    simp only [EraseCmd.extent, haddr b hb] at hlo hhi
    exact hagree b.1 b.2 (h.largest_iff.mpr hb) z hlo hhi
  · rw [hextents]
    exact htiles.pairwise
  · rw [hextents]
    exact htiles.inRegions_iff

/-- A request for one block at offset `0` is one step. -/
theorem Planned.eq_singleton {m : EraseMethod} (h : Planned fl size 0#32 bs size)
    (hsize : size ≠ 0#32)
    (hr : fl.lookupRegion 0#32 = some r) (hm : Allows fl r m) (hms : m.size = size) :
    ∃ op, bs = [(0#32, op)] := by
  cases bs with
  | nil => exact absurd h.2 hsize
  | cons b bs =>
    obtain ⟨-, hb, ⟨r', hr'⟩, hrest⟩ := h
    have hchosen := chosen_of_lookup hr'
    obtain rfl : r = r' := Option.some.inj (hr.symm.trans hchosen.region)
    -- The type of size `size` fits, so the largest that fits is no smaller; and it ends
    -- within the range.
    have hge : size ≤ b.2.size := hms ▸ hchosen.largest m hm (Nat.dvd_zero _) (by
      rw [hms, BitVec.zero_add]
      exact BitVec.le_refl _)
    have hle : b.2.size ≤ size := by
      have hfits := hchosen.fits
      rwa [BitVec.zero_add] at hfits
    have hop : b.2.size = size := BitVec.le_antisymm hle hge
    rw [hop, BitVec.zero_add] at hrest
    rw [hrest.eq_nil]
    exact ⟨b.2, by rw [← hb]⟩

theorem Chosen.cmd_eq_zero {x : ℕ} (h : Chosen fl ⟨b.1, stop⟩ r b.2)
    (hx : (ErasePiece.cmd b).extent.Contains x)
    (hlarge : 2 ^ 24 ≤ x) : (ErasePiece.cmd b).addr.cmdAddr = 0 ∧ 2 ^ 24 < b.2.size.toNat := by
  have haddr : (ErasePiece.cmd b).addr.cmdAddr = b.1.toNat % 2 ^ 24 := cmdAddr_spiFlashAddr b.1
  have haligned : b.2.size.toNat ∣ b.1.toNat := h.aligned
  have hlt : x < b.1.toNat % 2 ^ 24 + b.2.size.toNat := haddr ▸ hx.2
  have hmod : b.1.toNat % 2 ^ 24 < 2 ^ 24 := Nat.mod_lt _ (by decide)
  rcases Nat.lt_or_ge (2 ^ 24) b.2.size.toNat with hbig | hsmall
  · have hdvd : 2 ^ 24 ∣ b.1.toNat :=
      Nat.dvd_trans (PowerOfTwo.dvd_of_le ⟨24, rfl⟩ h.power hbig.le) haligned
    exact ⟨haddr.trans (Nat.dvd_iff_mod_eq_zero.mp hdvd), hbig⟩
  -- A smaller block starts at a multiple of its size below `2 ^ 24` and ends there.
  have hdvd : b.2.size.toNat ∣ 2 ^ 24 := h.power.dvd_of_le ⟨24, rfl⟩ hsmall
  have hmul : b.2.size.toNat ∣ b.1.toNat % 2 ^ 24 := (Nat.dvd_mod_iff hdvd).mpr haligned
  have := add_le_of_dvd hmul hdvd hmod
  omega

theorem Planned.eq_singleton_of_covers (h : Planned fl (start + size) start bs (start + size))
    (hexact : ErasesExactly fl start size (bs.map ErasePiece.cmd)) (hb : b ∈ bs)
    (haddr : (ErasePiece.cmd b).addr.cmdAddr = 0) (hbig : 2 ^ 24 < b.2.size.toNat) : bs = [b] := by
  have hother : ∀ b' ∈ bs, ¬(ErasePiece.cmd b').extent.Apart (ErasePiece.cmd b).extent := by
    intro b' hb'
    obtain ⟨r', hr'⟩ := h.chosen hb'
    have hpos' := hr'.power.pos
    have haddr' : (ErasePiece.cmd b').addr.cmdAddr = b'.1.toNat % 2 ^ 24 := cmdAddr_spiFlashAddr _
    simp only [Extent.Apart, EraseCmd.extent, haddr, haddr']
    simp only [ErasePiece.cmd]
    omega
  obtain ⟨pre, post, rfl⟩ := append_of_mem hb
  have hapart := hexact.apart
  simp only [map_append, map_cons, pairwise_append, pairwise_cons] at hapart
  obtain rfl : pre = [] := eq_nil_iff_forall_not_mem.mpr fun b' hb' =>
    hother b' (by simp [hb']) (hapart.2.2 _
      (mem_map_of_mem (mem_map_of_mem hb')) _ (by simp))
  obtain rfl : post = [] := eq_nil_iff_forall_not_mem.mpr fun b' hb' =>
    hother b' (by simp [hb']) (hapart.2.1.1 _
      (mem_map_of_mem (mem_map_of_mem hb'))).symm
  rfl

section Exact

variable (h : Planned fl (start + size) start bs (start + size))

include h

theorem Planned.addressable (hexact : ErasesExactly fl start size (bs.map ErasePiece.cmd)) :
    Addressable fl start size := by
  have htiles := h.tiles
  rw [h.toNat_stop] at htiles
  rcases Nat.lt_or_ge (2 ^ 24) (start.toNat + size.toNat) with hover | hunder
  swap
  · exact .inl hunder
  rcases Nat.eq_zero_or_pos size.toNat with hzero | hpos
  · exact .inr (.inl (eq_of_toNat_eq hzero))
  -- The last byte of the range is erased by a command at offset `0`.
  obtain ⟨e, he, hlast⟩ :=
    (hexact.union (start.toNat + size.toNat - 1)).mpr ⟨by omega, by omega⟩
  obtain ⟨c, hc, rfl⟩ := mem_map.mp he
  obtain ⟨b, hb, rfl⟩ := mem_map.mp hc
  obtain ⟨r, hr⟩ := h.chosen hb
  obtain ⟨haddr, hbig⟩ := hr.cmd_eq_zero hlast (by omega)
  have hstart : start.toNat = 0 := by
    have := ((hexact.union 0).mp ⟨_, he, haddr.le, by
      show 0 < (ErasePiece.cmd b).addr.cmdAddr + b.2.size.toNat
      omega⟩).1
    omega
  obtain rfl := h.eq_singleton_of_covers hexact hb haddr hbig
  obtain ⟨hlo, -, htail⟩ := htiles
  have hb0 : b.1 = 0#32 := eq_of_toNat_eq (hlo.trans hstart)
  have hhi : b.1.toNat + b.2.size.toNat = start.toNat + size.toNat := htail
  have hlo' : b.1.toNat = start.toNat := hlo
  refine .inr (.inr ⟨eq_of_toNat_eq hstart, r, b.2, ?_, hr.allowed,
    eq_of_toNat_eq (by omega)⟩)
  rw [← hb0]
  exact hr.region

theorem Planned.low_of_addressable (haddr : Addressable fl start size) (hb : b ∈ bs) :
    b.1.toNat < 2 ^ 24 := by
  by_cases hsize : size = 0#32
  · subst hsize
    rw [BitVec.add_zero] at h
    rw [h.eq_nil] at hb
    cases hb
  rcases haddr with hlow | hzero | ⟨rfl, r, m, hr, hm, hms⟩
  · have hinside := (h.usable hb).inside
    have hpos := (h.usable hb).power.pos
    omega
  · exact absurd hzero hsize
  · rw [BitVec.zero_add] at h
    obtain ⟨op, rfl⟩ := h.eq_singleton hsize hr hm hms
    rw [mem_singleton.mp hb]
    exact Nat.two_pow_pos 24

/-- **An accepted request is exact if and only if its addresses fit and no block runs into a region
that does not allow it.** -/
theorem Planned.erasesExactly_iff : ErasesExactly fl start size (bs.map ErasePiece.cmd) ↔
    Addressable fl start size ∧ RegionsAgree fl start size := by
  constructor
  · intro hexact
    have haddr := h.addressable hexact
    refine ⟨haddr, fun x m hlargest z hlo hhi => ?_⟩
    have hb := h.largest_iff.mp hlargest
    refine hexact.allowed _ (mem_map_of_mem hb) z ?_
    rw [EraseCmd.extent, cmdAddr_of_low (h.low_of_addressable haddr hb)]
    exact ⟨hlo, hhi⟩
  · rintro ⟨haddr, hagree⟩
    exact h.erasesExactly (fun b hb => h.low_of_addressable haddr hb) hagree

end Exact

end Accepted

/-- **The erase plan.** Whatever the device answers: a request that is rejected has issued no
command, and one that is accepted has erased exactly its range, in aligned blocks that do not
overlap and whose types are allowed throughout, if and only if three address bytes are enough for it
and no largest block of the range runs into a region that does not allow its type. A request in the
lower half of the address space is always answered. -/
theorem spiFlashErase_exact_iff (fl : SpiFlash) (start size : BitVec 32) (ret : ℕ → ℤ) :
    (∀ fuel res cmds, spiFlashErase fl start size .zero ret fuel = (some res, cmds) →
      (res = .einval → cmds = []) ∧
      (res = .ok → (ErasesExactly fl start size cmds ↔
        Addressable fl start size ∧ RegionsAgree fl start size))) ∧
    (start.toNat + size.toNat ≤ 2 ^ 31 →
      ((spiFlashErase fl start size .zero ret (size.toNat + 1)).1).isSome) := by
  refine ⟨fun fuel res cmds h => ?_, fun hlow => ?_⟩
  · obtain ⟨hreject, haccept⟩ := spiFlashErase_cases h
    refine ⟨hreject, fun hok => ?_⟩
    obtain ⟨bs, hbs, rfl⟩ := haccept hok
    exact hbs.erasesExactly_iff
  · have hstop : (start + size).toNat = start.toNat + size.toNat := by
      rw [toNat_add, Nat.mod_eq_of_lt (by omega)]
    exact EraseMap.erase_isSome (progresses_low (by omega)) (fun _ _ => rfl) (by omega) []

/-- With one region every block stays in it. -/
theorem regionsAgree_uniform {bytes start size : BitVec 32}
    (hin : start.toNat + size.toNat ≤ bytes.toNat) :
    RegionsAgree (uniformFlash bytes) start size := by
  intro x m hlargest z hlo hhi
  obtain ⟨r, hr, hfirst⟩ := hlargest.1.allowed
  have hinside := hlargest.1.inside
  have hmem := mem_of_find?_eq_some hr
  obtain rfl : r = ⟨0#32, bytes, 0b0111#4⟩ := mem_singleton.mp hmem
  refine ⟨_, ?_, hfirst.allows⟩
  have hz : z < bytes := by
    rw [lt_def]
    omega
  simp [EraseMap.lookupRegion, uniformFlash, hz]

/-- A range of 36K from 28K on: one sector, and then the 32K block at 32K. -/
theorem spiFlashErase_exact_sample :
    ∃ cmds, spiFlashErase (uniformFlash 0x800000#32) 0x7000#32 0x9000#32 .zero (fun _ => 0) 3 =
        (some .ok, cmds) ∧ ErasesExactly (uniformFlash 0x800000#32) 0x7000#32 0x9000#32 cmds := by
  have hrun : spiFlashErase (uniformFlash 0x800000#32) 0x7000#32 0x9000#32 .zero (fun _ => 0) 3 =
      (some .ok, [⟨⟨0x1000#32, 0x20#8, 1000000#32⟩, ⟨0x00#8, 0x70#8, 0x00#8⟩⟩,
        ⟨⟨0x8000#32, 0x52#8, 1000000#32⟩, ⟨0x00#8, 0x80#8, 0x00#8⟩⟩]) := by decide +kernel
  exact ⟨_, hrun, (((spiFlashErase_exact_iff _ _ _ _).1 _ _ _ hrun).2 rfl).mpr
    ⟨.inl (by decide), regionsAgree_uniform (by decide)⟩⟩

/-- **Sector `2 ^ 24` is erased at offset `0`.** On a 32M flash the request for the sector at 16M
erases the first sector. -/
theorem erase_at_16M_erases_sector_zero :
    spiFlashErase (uniformFlash 0x2000000#32) 0x1000000#32 0x1000#32 .zero (fun _ => 0) 2 =
        (some .ok, [⟨⟨0x1000#32, 0x20#8, 1000000#32⟩, ⟨0#8, 0#8, 0#8⟩⟩]) ∧
      ¬ErasesExactly (uniformFlash 0x2000000#32) 0x1000000#32 0x1000#32
        [⟨⟨0x1000#32, 0x20#8, 1000000#32⟩, ⟨0#8, 0#8, 0#8⟩⟩] := by
  refine ⟨by decide +kernel, fun hexact => ?_⟩
  have hzero := (hexact.union 0).mp (by decide)
  exact absurd hzero.1 (by decide)

end WiseSdk.Flash
