import WiseSdk.Library.BitTable

/-!
# Firmware signalling: transmit-status credits (fws.c)

The host tags every packet it hands down with a *hanger slot* below 3072. When the packet is done
the firmware sets the slot's bit in `hslot_tab`; a report clears a run of set bits that starts at
`indicate_hslot` and tells the host its length, in a COMP_TXSTATUS record. A forced report takes the
whole run bit by bit; a threshold report takes a configured number of slots, all or nothing, by
comparing masked words.

Here is what `fws_update_done_hslot` and `fws_report_txstatus` do to the table read as one row of
3072 bits.
-/

namespace WiseSdk.Scdc

open Library List Function

def hangerMaxitems : ℕ := 3072

def wordBits : ℕ := 32

/-- The number of words of `hslot_tab`; the local `wrap` of the report. -/
def hslotWords : ℕ := hangerMaxitems / wordBits

def fwsFlagsCreditStatusSignals : BitVec 32 := 0x0004

def fwsFlagsInit : BitVec 32 := 0x0080

def fwsTypePkttag : BitVec 8 := 5

def fwsTypePkttagLen : BitVec 8 := 4

def fwsTypeCompTxstatus : BitVec 8 := 19

def fwsTypeTxstatusLen : BitVec 8 := 4

def fwsTypeCompTxstatusLen : BitVec 8 := 1

def fwsTxstatusFwTossed : BitVec 32 := 3

/-- SNCMF_SKB_HTOD_TAG_HSLOT_MASK and its shift; the flags field starts at bit 27. -/
def htodTagHslotMask : BitVec 32 := 0x00ffff00

def htodTagHslotShift : ℕ := 8

def htodTagFlagsShift : ℕ := 27

/-- The configured report sizes, CONFIG_FWS_COMP_TXSTATUS_CNT for an event and
CONFIG_PIGGYBACK_COMP_TXSTATUS_CNT for a received packet. -/
structure FwsCfg where
  eventCompTxstatusCnt : BitVec 32 := 20
  piggybackCompTxstatusCnt : BitVec 32 := 5

/-- The part of `sncmf_fws_t` that the credit accounting reads and writes. -/
structure SncmfFws where
  flag : BitVec 32
  hslotTab : BitTable 32
  availableHslot : BitVec 32
  indicateHslot : ℕ

/-- The PKTTAG record at the front of a packet: `wlh[0]`, `wlh[1]` and the word at `wlh[2]`. -/
structure PktTag where
  type : BitVec 8
  len : BitVec 8
  htodTag : BitVec 32

/-- The hanger slot named by a tag word. -/
def tagHslot (tag : BitVec 32) : ℕ :=
  ((tag &&& htodTagHslotMask) >>> htodTagHslotShift).toNat

/-- A COMP_TXSTATUS record: type, length, the tag word and the count. -/
structure CompTxstatusTlv where
  type : BitVec 8
  len : BitVec 8
  tag : BitVec 32
  comp : BitVec 8

/-! ## Initialisation -/

def fwsCreditEn (s : SncmfFws) : Bool :=
  (s.flag &&& fwsFlagsCreditStatusSignals) >>> 2 != 0#32

def fwsInit : SncmfFws :=
  { flag := 0, hslotTab := fun _ => 0, availableHslot := 0, indicateHslot := 0 }

def fwsSetFeatures (s : SncmfFws) (flags : BitVec 32) : SncmfFws :=
  if (flags &&& fwsFlagsCreditStatusSignals) >>> 2 != 0#32 then
    { s with flag := s.flag ||| fwsFlagsCreditStatusSignals }
  else s

/-- `fws_enable_credit_mgmt`; credit is off when `quota`, the answer of `scdc_get_out_size`, is
zero. -/
def fwsEnableCreditMgmt (s : SncmfFws) (quota : BitVec 32) : SncmfFws :=
  if fwsCreditEn s && (s.flag &&& fwsFlagsInit) == 0#32 then
    let flag := if quota != 0#32 then s.flag else s.flag &&& ~~~fwsFlagsCreditStatusSignals
    -- The host counts its slots from 1.
    { s with flag := flag ||| fwsFlagsInit, hslotTab := fun _ => 0, indicateHslot := 1 }
  else s

/-! ## Completion of a slot -/

/-- `fws_update_done_hslot`. A record of another type or length fails an assertion, a slot past the
table is outside it. -/
def fwsUpdateDoneHslot (s : SncmfFws) (wlh : PktTag) : Option SncmfFws :=
  if !fwsCreditEn s then some s
  else if wlh.type ≠ fwsTypePkttag then none
  else if wlh.len ≠ fwsTypePkttagLen then none
  else
    let quotient := tagHslot wlh.htodTag / wordBits
    let remainder := tagHslot wlh.htodTag % wordBits
    if quotient < hslotWords then
      some { s with
        hslotTab := update s.hslotTab quotient
          (s.hslotTab quotient ||| 1#32 <<< remainder)
        availableHslot := s.availableHslot + 1 }
    else none

/-! ## The report -/

/-- `BIT(x)`: shifting a 32-bit one by 32 or more is undefined. -/
def bitOf (x : ℕ) : Option (BitVec 32) :=
  if x < 32 then some (1#32 <<< x) else none

/-- The loop of a forced report clears bits until one is clear; `compn` is a `uint8_t`. -/
def forceLoop : ℕ → BitTable 32 → ℕ → ℕ → BitVec 8 → Option (BitTable 32 × BitVec 8)
  | 0, _, _, _, _ => none
  | fuel + 1, tab, quotient, remainder, compn =>
    if tab quotient &&& (1#32 <<< remainder) ≠ 0#32 then
      let tab' := update tab quotient (tab quotient &&& ~~~(1#32 <<< remainder))
      if remainder + 1 = wordBits then
        forceLoop fuel tab' ((quotient + 1) % hslotWords) 0 (compn + 1#8)
      else
        forceLoop fuel tab' quotient (remainder + 1) (compn + 1#8)
    else some (tab, compn)

/-- The three parts of a threshold report: bits of the first word from `remainder` on, whole words,
bits of the last. -/
structure Span where
  head : ℕ
  middle : ℕ
  tail : ℕ

def spanOf (remainder expect : ℕ) : Span :=
  if (remainder + expect) % 2 ^ 32 < wordBits then ⟨expect, 0, 0⟩
  else
    let bitsRemainder := expect - (wordBits - remainder)
    ⟨wordBits - remainder, bitsRemainder / wordBits, bitsRemainder % wordBits⟩

/-- The loop over the whole words of the check; the last word checked, if all are full. -/
def verifyMiddle (tab : BitTable 32) : ℕ → ℕ → Option ℕ
  | 0, quotient => some quotient
  | middle + 1, quotient =>
    let quotient' := (quotient + 1) % hslotWords
    if tab quotient' &&& 0xFFFFFFFF#32 ≠ 0xFFFFFFFF#32 then none
    else verifyMiddle tab middle quotient'

/-- The loop over the whole words when clearing. -/
def clearMiddle : ℕ → BitTable 32 → ℕ → BitTable 32 × ℕ
  | 0, tab, quotient => (tab, quotient)
  | middle + 1, tab, quotient =>
    let quotient' := (quotient + 1) % hslotWords
    clearMiddle middle (update tab quotient' 0#32) quotient'

/-- The check of a threshold report: all bits of the span are one. -/
def verifySpan (tab : BitTable 32) (quotient : ℕ) (span : Span)
    (bitsHead bitsTail : BitVec 32) : Bool :=
  if tab quotient &&& bitsHead ≠ bitsHead then false
  else
    match verifyMiddle tab span.middle quotient with
    | none => false
    | some last =>
      if 0 < span.tail then tab ((last + 1) % hslotWords) &&& bitsTail == bitsTail
      else true

def clearSpan (tab : BitTable 32) (quotient : ℕ) (span : Span)
    (bitsHead bitsTail : BitVec 32) : BitTable 32 :=
  let (tab, last) := clearMiddle span.middle
    (update tab quotient (tab quotient &&& ~~~bitsHead)) quotient
  let next := (last + 1) % hslotWords
  if 0 < span.tail then update tab next (tab next &&& ~~~bitsTail) else tab

/-- A threshold report: the table and `compn`, which is 0 when a slot of the span is still open. -/
def thresholdReport (tab : BitTable 32) (quotient remainder expect : ℕ) :
    Option (BitTable 32 × BitVec 8) :=
  let span := spanOf remainder expect
  (bitOf span.head).map fun bit =>
    let bitsHead := (bit - 1#32) <<< remainder
    let bitsTail := (1#32 <<< span.tail) - 1#32
    if verifySpan tab quotient span bitsHead bitsTail then
      (clearSpan tab quotient span bitsHead bitsTail, BitVec.ofNat 8 expect)
    else (tab, 0#8)

/-- The tag word of a report, written over a zeroed buffer. -/
def fwsTxstatusIndicate (indicateHslot : ℕ) : BitVec 32 :=
  fwsTxstatusFwTossed <<< htodTagFlagsShift |||
    BitVec.ofNat 32 indicateHslot <<< htodTagHslotShift

def fwsBuildCompTxstatusTlv (indicateHslot : ℕ) (comp : BitVec 8) : CompTxstatusTlv :=
  { type := fwsTypeCompTxstatus
    len := fwsTypeTxstatusLen + fwsTypeCompTxstatusLen
    tag := fwsTxstatusIndicate indicateHslot
    comp := comp }

/-- The length of the record, 7 bytes padded to a multiple of 4. -/
def compTxstatusLen : ℕ := (1 + 1 + 4 + 1 + 3) / 4 * 4

/-- What a report leaves: the state, the record in the event or piggyback buffer, and the length. -/
structure FwsReport where
  fws : SncmfFws
  tlv : Option CompTxstatusTlv
  len : ℕ

/-- The size of a threshold report, the local `expect`. -/
def expectOf (cfg : FwsCfg) (eventMode : Bool) : BitVec 32 :=
  if eventMode then cfg.eventCompTxstatusCnt else cfg.piggybackCompTxstatusCnt

def fwsReportTxstatus (cfg : FwsCfg) (s : SncmfFws) (forceReport eventMode : Bool) :
    Option FwsReport :=
  let expect := expectOf cfg eventMode
  if !fwsCreditEn s then some ⟨s, none, 0⟩
  else if !forceReport && decide (s.availableHslot < expect) then some ⟨s, none, 0⟩
  else
    let quotient := s.indicateHslot / wordBits
    let remainder := s.indicateHslot % wordBits
    let scan := if forceReport then
        forceLoop (hangerMaxitems + 1) s.hslotTab quotient remainder 0
      else thresholdReport s.hslotTab quotient remainder expect.toNat
    scan.map fun (tab, compn) =>
      if 0#8 < compn then
        ⟨{ s with
            hslotTab := tab
            indicateHslot := (s.indicateHslot + compn.toNat) % hangerMaxitems
            availableHslot := s.availableHslot - compn.setWidth 32 },
          some (fwsBuildCompTxstatusTlv s.indicateHslot compn), compTxstatusLen⟩
      else ⟨{ s with hslotTab := tab }, none, 0⟩

/-! ## What the two scans do to the row of slots -/

theorem hslotWords_eq : hslotWords = 96 := rfl

/-- The table with slot `p` set, as a completion sets it. -/
def setSlot (tab : BitTable 32) (p : ℕ) : BitTable 32 :=
  update tab (p / wordBits) (tab (p / wordBits) ||| 1#32 <<< (p % wordBits))

theorem bit_setSlot (tab : BitTable 32) (p i : ℕ) :
    (setSlot tab p).bit i = (decide (i = p) || tab.bit i) :=
  BitTable.bit_set (by decide) tab p i

theorem fwsUpdateDoneHslot_ok {s : SncmfFws} {wlh : PktTag} (hcredit : fwsCreditEn s = true)
    (htype : wlh.type = fwsTypePkttag) (hlen : wlh.len = fwsTypePkttagLen)
    (hslot : tagHslot wlh.htodTag < hangerMaxitems) :
    fwsUpdateDoneHslot s wlh = some { s with
      hslotTab := setSlot s.hslotTab (tagHslot wlh.htodTag)
      availableHslot := s.availableHslot + 1 } := by
  have hq : tagHslot wlh.htodTag / wordBits < hslotWords := Nat.div_lt_of_lt_mul hslot
  simp [fwsUpdateDoneHslot, hcredit, htype, hlen, hq, setSlot]

/-- The cleared slots of a scan: `n` slots from `p` on were all set, and are cleared. -/
structure Cleared (tab tab' : BitTable 32) (p n : ℕ) : Prop where
  was_set : ∀ i ∈ cyclicRun hangerMaxitems p n, tab.bit i
  nodup : (cyclicRun hangerMaxitems p n).Nodup
  bit_eq : ∀ i, tab'.bit i = (tab.bit i && decide (i ∉ cyclicRun hangerMaxitems p n))

theorem Cleared.zero (tab : BitTable 32) (p : ℕ) : Cleared tab tab p 0 :=
  ⟨by simp, by simp, by simp⟩

variable {n p e fuel : ℕ} {tab tab' tab₁ : BitTable 32}

theorem Cleared.cons (hp : p < hangerMaxitems) (hset : tab.bit p)
    (hone : ∀ i, tab₁.bit i = (tab.bit i && decide (i ∉ [p]))) (h : Cleared tab₁ tab' (p + 1) n) :
    Cleared tab tab' p (n + 1) := by
  have hmem : p ∉ cyclicRun hangerMaxitems (p + 1) n := fun hmem => by
    simpa [hone] using h.was_set p hmem
  refine ⟨?_, ?_, ?_⟩ <;> rw [cyclicRun_succ, Nat.mod_eq_of_lt hp]
  · intro i hi
    rcases mem_cons.mp hi with rfl | hi
    · exact hset
    · have := h.was_set i hi
      rw [hone, Bool.and_eq_true] at this
      exact this.1
  · exact nodup_cons.mpr ⟨hmem, h.nodup⟩
  · intro i
    rw [h.bit_eq, hone]
    simp [mem_cons, not_or, Bool.and_assoc]

theorem Cleared.le (h : Cleared tab tab' p n) : n ≤ hangerMaxitems :=
  le_of_nodup_cyclicRun (by decide) h.nodup

theorem Cleared.card_add (h : Cleared tab tab' p n) :
    (tab'.ones hangerMaxitems).card + n = (tab.ones hangerMaxitems).card := by
  have := BitTable.card_ones_clear h.bit_eq h.nodup
    fun i hi => ⟨lt_of_mem_cyclicRun (by decide) hi, h.was_set i hi⟩
  rwa [length_cyclicRun] at this

/-- The number of pending slots in a row from `p` on, at most one turn of the table. -/
def pendingRun (tab : BitTable 32) (p : ℕ) : ℕ :=
  ((range hangerMaxitems).takeWhile fun j => tab.bit ((p + j) % hangerMaxitems)).length

/-- The table with slot `p` cleared, as the loop clears it. -/
def clearSlot (tab : BitTable 32) (p : ℕ) : BitTable 32 :=
  update tab (p / wordBits)
    (tab (p / wordBits) &&& ~~~(1#32 <<< (p % wordBits)))

theorem bit_clearSlot (tab : BitTable 32) (p i : ℕ) :
    (clearSlot tab p).bit i = (tab.bit i && decide (i ∉ [p])) :=
  (BitTable.covers_one (by decide) p).clear (by decide) tab i

theorem forceLoop_of_clear (fuel : ℕ) (compn : BitVec 8) (hbit : tab.bit p = false) :
    forceLoop (fuel + 1) tab (p / wordBits) (p % wordBits) compn = some (tab, compn) := by
  have htest := BitTable.and_one_ne_zero_iff (w := 32) (by decide) tab p
  rw [forceLoop, if_neg]
  exact fun h => by simpa [hbit] using htest.mp h

theorem forceLoop_of_set (fuel : ℕ) (compn : BitVec 8) (hp : p < hangerMaxitems)
    (hbit : tab.bit p) :
    forceLoop (fuel + 1) tab (p / wordBits) (p % wordBits) compn =
      forceLoop fuel (clearSlot tab p) ((p + 1) % hangerMaxitems / wordBits)
        ((p + 1) % hangerMaxitems % wordBits) (compn + 1#8) := by
  have htest : tab (p / wordBits) &&& 1#32 <<< (p % wordBits) ≠ 0#32 :=
    (BitTable.and_one_ne_zero_iff (by decide) tab p).mpr hbit
  rw [forceLoop, if_pos htest]
  by_cases hlast : p % wordBits + 1 = wordBits
  · have hq : (p + 1) % hangerMaxitems / wordBits = (p / wordBits + 1) % hslotWords := by
      simp only [hangerMaxitems, wordBits, hslotWords_eq] at hp hlast ⊢
      omega
    have hr : (p + 1) % hangerMaxitems % wordBits = 0 := by
      simp only [hangerMaxitems, wordBits] at hp hlast ⊢
      omega
    simp only [hlast, hq, hr, clearSlot, if_true]
  have hq : (p + 1) % hangerMaxitems / wordBits = p / wordBits := by
    simp only [hangerMaxitems, wordBits] at hp hlast ⊢
    omega
  have hr : (p + 1) % hangerMaxitems % wordBits = p % wordBits + 1 := by
    simp only [hangerMaxitems, wordBits] at hp hlast ⊢
    omega
  simp only [hlast, hq, hr, clearSlot, if_false]

/-- **Forced scan.** With more fuel than pending slots the loop ends. It has cleared a run of set
slots from its start up to a clear slot, and added its length to `compn` modulo 256. -/
theorem forceLoop_eq (tab : BitTable 32) (compn : BitVec 8) (hp : p < hangerMaxitems)
    (hfuel : (tab.ones hangerMaxitems).card < fuel) :
    ∃ n tab', forceLoop fuel tab (p / wordBits) (p % wordBits) compn =
        some (tab', compn + BitVec.ofNat 8 n) ∧
      Cleared tab tab' p n ∧ tab'.bit ((p + n) % hangerMaxitems) = false := by
  induction fuel generalizing tab p compn with
  | zero => omega
  | succ fuel ih =>
    cases hbit : tab.bit p with
    | false =>
      refine ⟨0, tab, ?_, Cleared.zero tab p, by rwa [Nat.add_zero, Nat.mod_eq_of_lt hp]⟩
      simpa using forceLoop_of_clear fuel compn hbit
    | true =>
      have hcard := BitTable.card_ones_clear (bit_clearSlot tab p)
        (nodup_singleton p) (M := hangerMaxitems) fun i hi => by
          rw [mem_singleton.mp hi]
          exact ⟨hp, hbit⟩
      rw [length_singleton] at hcard
      -- The rest of the loop runs from the next slot, on the table without this one.
      obtain ⟨n, tab', hrun, hclr, hstop⟩ := ih (clearSlot tab p)
        (p := (p + 1) % hangerMaxitems) (compn + 1#8) (Nat.mod_lt _ (by decide)) (by omega)
      have hclr' : Cleared (clearSlot tab p) tab' (p + 1) n := by
        obtain ⟨h₁, h₂, h₃⟩ := hclr
        rw [cyclicRun_mod] at h₁ h₂
        simp only [cyclicRun_mod] at h₃
        exact ⟨h₁, h₂, h₃⟩
      refine ⟨n + 1, tab', ?_, hclr'.cons hp hbit (bit_clearSlot tab p), ?_⟩
      · rw [forceLoop_of_set fuel compn hp hbit, hrun, Nat.add_comm n 1, BitVec.ofNat_add,
          BitVec.add_assoc]
      · rw [← hstop, Nat.mod_add_mod, Nat.add_assoc, Nat.add_comm 1 n]

theorem pendingRun_eq_of (hn : n ≤ hangerMaxitems)
    (hset : ∀ j < n, tab.bit ((p + j) % hangerMaxitems))
    (hstop : n < hangerMaxitems → tab.bit ((p + n) % hangerMaxitems) = false) :
    pendingRun tab p = n := by
  obtain ⟨m, hm⟩ := Nat.exists_eq_add_of_le hn
  have hrange : range hangerMaxitems = range n ++ (range m).map (n + ·) := by
    rw [hm, range_add]
  rw [pendingRun, hrange, takeWhile_append_of_pos fun j hj => hset j (mem_range.mp hj),
    length_append, length_range]
  cases m with
  | zero => rfl
  | succ m => simp [range_succ_eq_map, hstop (by omega)]

theorem Cleared.pendingRun_eq (h : Cleared tab tab' p n)
    (hstop : tab'.bit ((p + n) % hangerMaxitems) = false) : pendingRun tab p = n := by
  refine pendingRun_eq_of h.le
    (fun j hj => h.was_set _ (mem_cyclicRun.mpr ⟨j, hj, rfl⟩)) fun hlt => ?_
  -- The slot after the run is not in it, so the scan did not clear it.
  have hnot := not_mem_cyclicRun_end (p := p) hlt
  rw [h.bit_eq] at hstop
  simpa [hnot] using hstop

/-! ### The masked scan -/

theorem cyclicRun_next_word (q n : ℕ) :
    cyclicRun hangerMaxitems (wordBits * ((q + 1) % hslotWords)) n =
      cyclicRun hangerMaxitems (wordBits * q + wordBits) n := by
  have : wordBits * ((q + 1) % hslotWords) = (wordBits * q + wordBits) % hangerMaxitems := by
    simp only [wordBits, hslotWords_eq, hangerMaxitems]
    omega
  rw [this, cyclicRun_mod]

theorem covers_word {q : ℕ} (hq : q < hslotWords) :
    BitTable.Covers q 0xFFFFFFFF#32 (cyclicRun hangerMaxitems (wordBits * q) wordBits) :=
  BitTable.covers_allOnes (w := 32) (N := 96) (by decide) hq

theorem cyclicRun_words_succ (q middle : ℕ) :
    cyclicRun hangerMaxitems (wordBits * q + wordBits) (wordBits * (middle + 1)) =
      cyclicRun hangerMaxitems (wordBits * ((q + 1) % hslotWords)) wordBits ++
        cyclicRun hangerMaxitems (wordBits * ((q + 1) % hslotWords) + wordBits)
          (wordBits * middle) := by
  rw [← cyclicRun_add, cyclicRun_next_word, Nat.mul_succ, Nat.add_comm wordBits (wordBits * middle)]

theorem verifyMiddle_eq (tab : BitTable 32) (middle : ℕ) {q : ℕ} (hq : q < hslotWords) :
    verifyMiddle tab middle q =
      if ∀ i ∈ cyclicRun hangerMaxitems (wordBits * q + wordBits) (wordBits * middle),
        tab.bit i then some ((q + middle) % hslotWords) else none := by
  induction middle generalizing q with
  | zero => simp [verifyMiddle, Nat.mod_eq_of_lt hq]
  | succ middle ih =>
    have hq' : (q + 1) % hslotWords < hslotWords := Nat.mod_lt _ (by decide)
    have hsum : ((q + 1) % hslotWords + middle) % hslotWords =
        (q + (middle + 1)) % hslotWords := by
      rw [Nat.mod_add_mod]
      congr 1
      omega
    rw [verifyMiddle, cyclicRun_words_succ]
    simp only [ih hq', hsum, ne_eq, (covers_word hq').check tab, forall_mem_append]
    by_cases hword : ∀ i ∈
        cyclicRun hangerMaxitems (wordBits * ((q + 1) % hslotWords)) wordBits, tab.bit i
    · rw [if_neg (not_not_intro hword)]
      exact if_congr ⟨fun h => ⟨hword, h⟩, And.right⟩ rfl rfl
    · rw [if_pos hword, if_neg fun h => hword h.1]

theorem clearMiddle_eq (tab : BitTable 32) (middle : ℕ) {q : ℕ} (hq : q < hslotWords) :
    (clearMiddle middle tab q).2 = (q + middle) % hslotWords ∧
      ∀ i, (clearMiddle middle tab q).1.bit i = (tab.bit i &&
        decide (i ∉ cyclicRun hangerMaxitems (wordBits * q + wordBits) (wordBits * middle))) := by
  induction middle generalizing tab q with
  | zero => simp [clearMiddle, Nat.mod_eq_of_lt hq]
  | succ middle ih =>
    have hq' : (q + 1) % hslotWords < hslotWords := Nat.mod_lt _ (by decide)
    have hword := (covers_word hq').clear (by decide) tab
    have hzero : tab ((q + 1) % hslotWords) &&& ~~~0xFFFFFFFF#32 = 0#32 := by
      simp [show ~~~0xFFFFFFFF#32 = 0#32 from rfl]
    rw [hzero] at hword
    obtain ⟨hlast, hbits⟩ := ih
      (update tab ((q + 1) % hslotWords) 0#32) hq'
    refine ⟨?_, fun i => ?_⟩
    · rw [clearMiddle, hlast, Nat.mod_add_mod, Nat.add_assoc, Nat.add_comm 1 middle]
    · rw [clearMiddle, hbits, hword, cyclicRun_words_succ]
      simp [mem_append, not_or, Bool.and_assoc]

/-- No undefined shift: the count does not overflow, and the first word is not taken whole. -/
def SpanDefined (remainder expect : ℕ) : Prop :=
  remainder + expect < 2 ^ 32 ∧ (remainder + expect < wordBits ∨ remainder ≠ 0)

theorem spanOf_bounds (h : SpanDefined (p % wordBits) e) : (spanOf (p % wordBits) e).head < 32 ∧
      p % wordBits + (spanOf (p % wordBits) e).head ≤ 32 ∧
      (spanOf (p % wordBits) e).tail < 32 := by
  obtain ⟨hover, hpart⟩ := h
  rw [spanOf, Nat.mod_eq_of_lt hover]
  split <;> simp only [wordBits] at * <;> omega

/-- The slots of a threshold report are those of its three parts. -/
theorem cyclicRun_eq_span (h : SpanDefined (p % wordBits) e) : cyclicRun hangerMaxitems p e =
      cyclicRun hangerMaxitems p (spanOf (p % wordBits) e).head ++
      (cyclicRun hangerMaxitems (wordBits * (p / wordBits) + wordBits)
          (wordBits * (spanOf (p % wordBits) e).middle) ++
        cyclicRun hangerMaxitems
          (wordBits * (((p / wordBits + (spanOf (p % wordBits) e).middle) % hslotWords + 1) %
            hslotWords)) (spanOf (p % wordBits) e).tail) := by
  rw [spanOf, Nat.mod_eq_of_lt h.1]
  split
  next => simp
  next hmany =>
      have hp := Nat.mod_lt p (show 0 < wordBits by decide)
      have hdiv := Nat.div_add_mod p wordBits
      dsimp only
      rw [Nat.mod_add_mod, cyclicRun_next_word]
      have hmid : wordBits * (p / wordBits) + wordBits +
            wordBits * ((e - (wordBits - p % wordBits)) / wordBits) =
          wordBits * (p / wordBits + (e - (wordBits - p % wordBits)) / wordBits) +
            wordBits := by
        rw [Nat.mul_add]
        omega
      rw [← hmid, ← cyclicRun_add, Nat.div_add_mod]
      have hhead : wordBits * (p / wordBits) + wordBits = p + (wordBits - p % wordBits) := by
        omega
      rw [hhead, ← cyclicRun_add]
      congr 1
      omega

def tailWord (quotient : ℕ) (span : Span) : ℕ :=
  ((quotient + span.middle) % hslotWords + 1) % hslotWords

section Masks

variable (tab : BitTable 32) {q : ℕ} {span : Span} {bitsHead bitsTail : BitVec 32}
  {first last : List ℕ}

section

variable (hq : q < hslotWords) (hhead : BitTable.Covers q bitsHead first)
  (htail : BitTable.Covers (tailWord q span) bitsTail last) (hzero : span.tail = 0 → last = [])

include hq hhead htail hzero

theorem verifySpan_iff :
    verifySpan tab q span bitsHead bitsTail ↔
      ∀ i ∈ first ++ (cyclicRun hangerMaxitems (wordBits * q + wordBits)
        (wordBits * span.middle) ++ last), tab.bit i := by
  rw [verifySpan, verifyMiddle_eq tab span.middle hq, forall_mem_append,
    forall_mem_append, ← hhead.check tab, ← htail.check tab]
  by_cases h₁ : tab q &&& bitsHead = bitsHead
  · simp only [h₁, ne_eq, not_true_eq_false, if_false, true_and]
    split_ifs with h₂ h₃
    · simpa [tailWord] using fun _ => h₂
    · have hlast : last = [] := hzero (by omega)
      simpa [htail.check tab, hlast] using h₂
    · simp [h₂]
  · simp [h₁]

/-- With such masks the clearing clears the three parts. -/
theorem bit_clearSpan (i : ℕ) :
    (clearSpan tab q span bitsHead bitsTail).bit i = (tab.bit i &&
      decide (i ∉ first ++ (cyclicRun hangerMaxitems (wordBits * q + wordBits)
        (wordBits * span.middle) ++ last))) := by
  obtain ⟨hlast, hmid⟩ := clearMiddle_eq
    (update tab q (tab q &&& ~~~bitsHead)) span.middle hq
  have hfirst := hhead.clear (by decide) tab i
  simp only [clearSpan]
  rw [hlast, ← tailWord]
  split_ifs with ht
  · rw [htail.clear (by decide), hmid, hfirst]
    simp [mem_append, not_or, Bool.and_assoc]
  · rw [hmid, hfirst, hzero (by omega)]
    simp [mem_append, not_or, Bool.and_assoc]

end

end Masks

/-- **Masked scan.** If every slot of the report is pending, exactly those are cleared and the count
is the configured one modulo 256; else nothing happens. -/
theorem thresholdReport_eq (tab : BitTable 32) (hp : p < hangerMaxitems)
    (he : SpanDefined (p % wordBits) e) :
    if ∀ i ∈ cyclicRun hangerMaxitems p e, tab.bit i then
      ∃ tab', thresholdReport tab (p / wordBits) (p % wordBits) e =
          some (tab', BitVec.ofNat 8 e) ∧
        ∀ i, tab'.bit i = (tab.bit i && decide (i ∉ cyclicRun hangerMaxitems p e))
    else thresholdReport tab (p / wordBits) (p % wordBits) e = some (tab, 0#8) := by
  obtain ⟨hhead, hfit, htail⟩ := spanOf_bounds he
  set span := spanOf (p % wordBits) e with hspan
  have hq : p / wordBits < hslotWords := by
    simp only [hangerMaxitems, wordBits, hslotWords_eq] at hp ⊢
    omega
  have hcovHead : BitTable.Covers (p / wordBits)
      ((1#32 <<< span.head - 1#32) <<< (p % wordBits))
      (cyclicRun hangerMaxitems p span.head) := by
    have := BitTable.covers_lowMask (w := 32) (N := 96) hq hhead hfit
    rwa [show 32 * (p / wordBits) + p % wordBits = p from Nat.div_add_mod p 32] at this
  have hcovTail : BitTable.Covers (tailWord (p / wordBits) span) (1#32 <<< span.tail - 1#32)
      (cyclicRun hangerMaxitems (wordBits * tailWord (p / wordBits) span) span.tail) := by
    have := BitTable.covers_lowMask (w := 32) (N := 96) (r := 0)
      (q := tailWord (p / wordBits) span) (Nat.mod_lt _ (by decide)) htail (by omega)
    rwa [BitVec.shiftLeft_zero, Nat.add_zero] at this
  have hzero : span.tail = 0 →
      cyclicRun hangerMaxitems (wordBits * tailWord (p / wordBits) span) span.tail = [] :=
    fun h => by rw [h, cyclicRun_zero]
  have hverify := verifySpan_iff tab hq hcovHead hcovTail hzero
  have hclear := bit_clearSpan tab hq hcovHead hcovTail hzero
  have hrun := cyclicRun_eq_span he
  have hbit : bitOf span.head = some (1#32 <<< span.head) := if_pos hhead
  rw [hrun]
  simp only [thresholdReport, ← hspan, hbit, Option.map_some]
  split_ifs with h₁ h₂ h₂
  · exact ⟨_, rfl, hclear⟩
  · exact absurd (hverify.mpr h₁) h₂
  · exact absurd (hverify.mp h₂) h₁
  · rfl

theorem thresholdReport_of_not_spanDefined {tab : BitTable 32} {q r e : ℕ} (hr : r < wordBits)
    (he : e < 2 ^ 32) (h : ¬SpanDefined r e) : thresholdReport tab q r e = none := by
  have hhead : ¬(spanOf r e).head < 32 := by
    simp only [SpanDefined, wordBits] at hr h
    rw [spanOf]
    split <;> simp only [wordBits] at * <;> omega
  rw [thresholdReport, bitOf, if_neg hhead, Option.map_none]

end WiseSdk.Scdc
