import Mathlib.Order.Interval.Finset.Nat
import WiseSdk.Library.Runs
import WiseSdk.Scdc.Fws

/-!
# Credit accounting over runs

A run interleaves completions (`fws_update_done_hslot`) and reports (`fws_report_txstatus`) in any
order and mode. The accounting is stated on the whole history (`CreditExact`): the counter counts
the pending slots, every completion is either pending or has been reported once, and the slots
reported are consecutive from slot 1 on.

The 8-bit count of a report breaks this when a forced report meets 256 or more pending slots in a
row. `credit_accounting` is for runs that stay clear of that and of the undefined shift of a
threshold of 32 or more.
-/

namespace WiseSdk.Scdc

open Library List BitVec Option

/-- The signalling state and the records handed to the host so far, oldest first. -/
structure FwsWorld where
  fws : SncmfFws
  emitted : List CompTxstatusTlv

inductive FwsAction where
  | done (wlh : PktTag)
  | report (forceReport eventMode : Bool)

def fwsStep (cfg : FwsCfg) (w : FwsWorld) : FwsAction → Option FwsWorld
  | .done wlh => (fwsUpdateDoneHslot w.fws wlh).map fun s => { w with fws := s }
  | .report forceReport eventMode =>
    (fwsReportTxstatus cfg w.fws forceReport eventMode).map fun rep =>
      ⟨rep.fws, w.emitted ++ rep.tlv.toList⟩

/-- Credit management starts: the host has asked for credit signals and been granted a quota. -/
def fwsStart (flags quota : BitVec 32) : FwsWorld :=
  ⟨fwsEnableCreditMgmt (fwsSetFeatures fwsInit flags) quota, []⟩

/-! ## What the accounting is for -/

def doneSlots (acts : List FwsAction) : List ℕ :=
  acts.filterMap fun
    | .done wlh => some (tagHslot wlh.htodTag)
    | .report _ _ => none

/-- The slots a record covers, as the host reads it: `comp` slots from the tag's slot on. -/
def tlvSlots (tlv : CompTxstatusTlv) : List ℕ :=
  cyclicRun hangerMaxitems (tagHslot tlv.tag) tlv.comp.toNat

def reportedSlots (emitted : List CompTxstatusTlv) : List ℕ :=
  emitted.flatMap tlvSlots

/-- The credit accounting is exact after the actions `acts`. -/
structure CreditExact (acts : List FwsAction) (w : FwsWorld) : Prop where
  available_eq :
    w.fws.availableHslot.toNat = (w.fws.hslotTab.ones hangerMaxitems).card
  once : ∀ i < hangerMaxitems,
    (doneSlots acts).count i = (reportedSlots w.emitted).count i + (w.fws.hslotTab.bit i).toNat
  in_order :
    reportedSlots w.emitted = cyclicRun hangerMaxitems 1 (reportedSlots w.emitted).length

/-- A report clears exactly the `n` slots from `indicate_hslot` on and puts `n` in the record, or
does nothing. -/
def ReportExact (w w' : FwsWorld) : Prop :=
  ∃ n, (∀ i, (w.fws.hslotTab.bit i ∧ ¬ w'.fws.hslotTab.bit i) ↔
      i ∈ cyclicRun hangerMaxitems w.fws.indicateHslot n) ∧
    ((n = 0 ∧ w'.emitted = w.emitted) ∨
      ∃ tlv, w'.emitted = w.emitted ++ [tlv] ∧ tlv.comp.toNat = n ∧
        tagHslot tlv.tag = w.fws.indicateHslot)

/-! ## The guards of a step -/

/-- A completion carries a PKTTAG record whose slot is below 3072 and not pending. -/
def DoneOk (w : FwsWorld) (wlh : PktTag) : Prop :=
  wlh.type = fwsTypePkttag ∧ wlh.len = fwsTypePkttagLen ∧
    tagHslot wlh.htodTag < hangerMaxitems ∧ w.fws.hslotTab.bit (tagHslot wlh.htodTag) = false

/-- A forced report meets fewer than 256 pending slots in a row; a threshold report is not due, or
fits the 8-bit count and does not take the whole first word. -/
def ReportOk (cfg : FwsCfg) (s : SncmfFws) (forceReport eventMode : Bool) : Prop :=
  if forceReport then pendingRun s.hslotTab s.indicateHslot < 256
  else s.availableHslot < expectOf cfg eventMode ∨
    ((expectOf cfg eventMode).toNat < 256 ∧
      (s.indicateHslot % wordBits + (expectOf cfg eventMode).toNat < wordBits ∨
        s.indicateHslot % wordBits ≠ 0))

def FwsGuard (cfg : FwsCfg) (w : FwsWorld) : FwsAction → Prop
  | .done wlh => DoneOk w wlh
  | .report forceReport eventMode => ReportOk cfg w.fws forceReport eventMode

/-! ## One report -/

/-- The result of a report whose scan cleared `n` slots and left the table `tab`. -/
def reportOf (s : SncmfFws) (tab : BitTable 32) (n : ℕ) : FwsReport :=
  if 0#8 < BitVec.ofNat 8 n then
    ⟨{ s with
        hslotTab := tab
        indicateHslot := (s.indicateHslot + n % 256) % hangerMaxitems
        availableHslot := s.availableHslot - BitVec.ofNat 32 (n % 256) },
      some (fwsBuildCompTxstatusTlv s.indicateHslot (BitVec.ofNat 8 n)), compTxstatusLen⟩
  else ⟨{ s with hslotTab := tab }, none, 0⟩

theorem zero_lt_ofNat_iff (n : ℕ) : 0#8 < BitVec.ofNat 8 n ↔ n % 256 ≠ 0 := by
  rw [lt_def, toNat_ofNat]
  exact Nat.pos_iff_ne_zero

section Report

variable {cfg : FwsCfg} {s : SncmfFws} {eventMode forceReport : Bool}

theorem fwsReportTxstatus_of_scan {tab : BitTable 32} {n : ℕ} (hcredit : fwsCreditEn s = true)
    (hdue : (!forceReport && decide (s.availableHslot < expectOf cfg eventMode)) = false)
    (hscan : (if forceReport then
        forceLoop (hangerMaxitems + 1) s.hslotTab (s.indicateHslot / wordBits)
          (s.indicateHslot % wordBits) 0
      else thresholdReport s.hslotTab (s.indicateHslot / wordBits)
        (s.indicateHslot % wordBits) (expectOf cfg eventMode).toNat) =
      some (tab, BitVec.ofNat 8 n)) :
    fwsReportTxstatus cfg s forceReport eventMode = some (reportOf s tab n) := by
  have hwidth : (BitVec.ofNat 8 n).setWidth 32 = BitVec.ofNat 32 (n % 256) := by
    apply eq_of_toNat_eq
    simp
  rw [fwsReportTxstatus]
  simp only [hcredit, hdue, Bool.not_true, Bool.false_eq_true, if_false]
  rw [hscan, map_some, reportOf, hwidth, toNat_ofNat]

/-- **A forced report** clears the whole run of pending slots, and reports its length modulo 256. -/
theorem fwsReportTxstatus_forced (cfg : FwsCfg) (eventMode : Bool) (hcredit : fwsCreditEn s = true)
    (hind : s.indicateHslot < hangerMaxitems) :
    ∃ tab, fwsReportTxstatus cfg s true eventMode =
        some (reportOf s tab (pendingRun s.hslotTab s.indicateHslot)) ∧
      Cleared s.hslotTab tab s.indicateHslot (pendingRun s.hslotTab s.indicateHslot) := by
  have hcard : (s.hslotTab.ones hangerMaxitems).card < hangerMaxitems + 1 := by
    have := Finset.card_filter_le (Finset.range hangerMaxitems) fun i => s.hslotTab.bit i
    rw [Finset.card_range] at this
    exact Nat.lt_succ_of_le this
  obtain ⟨n, tab, hscan, hclr, hstop⟩ := forceLoop_eq s.hslotTab 0 hind hcard
  rw [hclr.pendingRun_eq hstop]
  exact ⟨tab, fwsReportTxstatus_of_scan hcredit rfl (by simpa using hscan), hclr⟩

theorem fwsReportTxstatus_ok (hcredit : fwsCreditEn s = true)
    (hind : s.indicateHslot < hangerMaxitems) (hok : ReportOk cfg s forceReport eventMode) :
    ∃ n tab, fwsReportTxstatus cfg s forceReport eventMode = some (reportOf s tab n) ∧
      n < 256 ∧ Cleared s.hslotTab tab s.indicateHslot n := by
  cases forceReport with
  | true =>
    obtain ⟨tab, hrep, hclr⟩ := fwsReportTxstatus_forced cfg eventMode hcredit hind
    exact ⟨_, tab, hrep, hok, hclr⟩
  | false =>
    by_cases hlow : s.availableHslot < expectOf cfg eventMode
    · refine ⟨0, s.hslotTab, ?_, by decide, Cleared.zero _ _⟩
      rw [fwsReportTxstatus]
      simp [hcredit, hlow, reportOf]
    obtain ⟨hsize, hpart⟩ := hok.resolve_left hlow
    have hdef : SpanDefined (s.indicateHslot % wordBits) (expectOf cfg eventMode).toNat :=
      ⟨by have := Nat.mod_lt s.indicateHslot (show 0 < wordBits by decide)
          simp only [wordBits] at this ⊢
          omega, hpart⟩
    have hscan := thresholdReport_eq s.hslotTab hind hdef
    split_ifs at hscan with hall
    · obtain ⟨tab, hscan, hbits⟩ := hscan
      refine ⟨_, tab, fwsReportTxstatus_of_scan hcredit (by simp [hlow]) hscan, hsize,
        hall, nodup_cyclicRun ?_, hbits⟩
      exact hsize.le.trans (by decide)
    · exact ⟨0, s.hslotTab, fwsReportTxstatus_of_scan hcredit (by simp [hlow]) hscan,
        by decide, Cleared.zero _ _⟩

end Report

/-- The host reads back the slot a report was built for. -/
theorem tagHslot_indicate {i : ℕ} (hi : i < hangerMaxitems) :
    tagHslot (fwsTxstatusIndicate i) = i := by
  have hi' : i < 2 ^ 16 := hi.trans (by decide)
  have heq : (fwsTxstatusIndicate i &&& htodTagHslotMask) >>> htodTagHslotShift =
      BitVec.ofNat 32 i := by
    refine eq_of_getLsbD_eq fun k hk => ?_
    -- The mask keeps the 16 bits of the slot and drops the flags above them.
    by_cases h16 : k < 16
    · have hmask : htodTagHslotMask.getLsbD (8 + k) = true := by
        revert k
        decide
      have hflag : (fwsTxstatusFwTossed <<< htodTagFlagsShift).getLsbD (8 + k) = false := by
        revert k
        decide
      simp [htodTagHslotShift, fwsTxstatusIndicate, hmask, hflag, hk]
      omega
    · have hmask : htodTagHslotMask.getLsbD (8 + k) = false := by
        revert k
        decide
      have hbit : i.testBit k = false := Nat.testBit_lt_two_pow
        (hi'.trans_le (Nat.pow_le_pow_right (by decide) (by omega)))
      simp [htodTagHslotShift, hmask, hbit, getLsbD_ofNat]
  rw [tagHslot, heq, toNat_ofNat, Nat.mod_eq_of_lt (hi'.trans (by decide))]

/-! ## The invariant -/

/-- The accounting is exact, credit is on, and the next slot to indicate follows the ones
reported. -/
structure CreditInv (acts : List FwsAction) (w : FwsWorld) : Prop where
  exact : CreditExact acts w
  credit : fwsCreditEn w.fws = true
  indicate : w.fws.indicateHslot = (1 + (reportedSlots w.emitted).length) % hangerMaxitems

variable {acts : List FwsAction} {w w' : FwsWorld} {k n i : ℕ}

theorem CreditInv.indicate_lt (h : CreditInv acts w) : w.fws.indicateHslot < hangerMaxitems := by
  rw [h.indicate]
  exact Nat.mod_lt _ (by decide)

theorem available_le (h : CreditExact acts w) : w.fws.availableHslot.toNat ≤ hangerMaxitems := by
  rw [h.available_eq]
  exact (Finset.card_filter_le _ _).trans (by rw [Finset.card_range])

section

variable {flags quota : BitVec 32} (hflags : flags &&& fwsFlagsCreditStatusSignals ≠ 0#32)
  (hquota : quota ≠ 0#32)

include hflags hquota

theorem fwsStart_eq :
    fwsStart flags quota =
      ⟨{ flag := fwsFlagsCreditStatusSignals ||| fwsFlagsInit, hslotTab := fun _ => 0
         availableHslot := 0, indicateHslot := 1 }, []⟩ := by
  have hset : (flags &&& fwsFlagsCreditStatusSignals) >>> 2 ≠ 0#32 := by
    have hbit : flags &&& fwsFlagsCreditStatusSignals =
        if flags.getLsbD 2 then BitVec.twoPow 32 2 else 0#32 := and_twoPow flags 2
    rw [hbit] at hflags ⊢
    cases h : flags.getLsbD 2 with
    | false => exact absurd (if_neg (by rw [h]; exact Bool.false_ne_true)) hflags
    | true => decide
  rw [fwsStart, fwsSetFeatures, if_pos (by simpa using hset)]
  simp [fwsEnableCreditMgmt, fwsInit, fwsCreditEn, fwsFlagsCreditStatusSignals, fwsFlagsInit]
  rw [if_neg hquota]
  rfl

theorem creditInv_start : CreditInv [] (fwsStart flags quota) := by
  rw [fwsStart_eq hflags hquota]
  refine ⟨⟨?_, ?_, rfl⟩, rfl, rfl⟩
  · simp [BitTable.ones, BitTable.bit]
  · intro i _
    simp [doneSlots, reportedSlots, BitTable.bit]

end

theorem creditInv_done (cfg : FwsCfg) {wlh : PktTag} (h : CreditInv acts w) (hok : DoneOk w wlh) :
    ∃ w', fwsStep cfg w (.done wlh) = some w' ∧ w'.emitted = w.emitted ∧
      CreditInv (acts ++ [.done wlh]) w' := by
  obtain ⟨htype, hlen, hslot, hclear⟩ := hok
  have hstep : fwsStep cfg w (.done wlh) = some { w with fws := { w.fws with
      hslotTab := setSlot w.fws.hslotTab (tagHslot wlh.htodTag)
      availableHslot := w.fws.availableHslot + 1 } } := by
    rw [fwsStep, fwsUpdateDoneHslot_ok h.credit htype hlen hslot, map_some]
  refine ⟨_, hstep, rfl, ⟨?_, ?_, h.exact.in_order⟩, h.credit, h.indicate⟩
  · have hle := available_le h.exact
    have hmax : hangerMaxitems + 1 < 2 ^ 32 := by decide
    rw [toNat_add, BitTable.card_ones_set (bit_setSlot _ _) hslot hclear, ← h.exact.available_eq]
    exact Nat.mod_eq_of_lt (by simp only [ofNat_eq_ofNat, toNat_ofNat]; omega)
  · intro i hi
    have honce := h.exact.once i hi
    simp only [doneSlots, filterMap_append, count_append, bit_setSlot] at honce ⊢
    rw [honce]
    by_cases heq : i = tagHslot wlh.htodTag
    · subst heq
      simp [hclear]
    · simp [heq, Ne.symm heq]

/-- A report within its guard clears `n` slots, moves `indicate_hslot` past them, takes them off the
counter, and its record covers them. -/
structure Reported (w w' : FwsWorld) (n : ℕ) : Prop where
  cleared : Cleared w.fws.hslotTab w'.fws.hslotTab w.fws.indicateHslot n
  flag : w'.fws.flag = w.fws.flag
  indicate : w'.fws.indicateHslot = (w.fws.indicateHslot + n) % hangerMaxitems
  available : w'.fws.availableHslot.toNat + n = w.fws.availableHslot.toNat
  emitted : (n = 0 ∧ w'.emitted = w.emitted) ∨
    ∃ tlv, w'.emitted = w.emitted ++ [tlv] ∧ tlv.comp.toNat = n ∧
      tagHslot tlv.tag = w.fws.indicateHslot

theorem exists_reported {cfg : FwsCfg} {forceReport eventMode : Bool} (h : CreditInv acts w)
    (hok : ReportOk cfg w.fws forceReport eventMode) :
    ∃ w' n, fwsStep cfg w (.report forceReport eventMode) = some w' ∧ Reported w w' n := by
  obtain ⟨n, tab, hrep, hn, hclr⟩ := fwsReportTxstatus_ok h.credit h.indicate_lt hok
  have hcard := hclr.card_add
  rw [← h.exact.available_eq] at hcard
  refine ⟨_, n, by rw [fwsStep, hrep, map_some], ?_⟩
  have hmod : n % 256 = n := Nat.mod_eq_of_lt hn
  rw [reportOf]
  simp only [zero_lt_ofNat_iff, hmod]
  by_cases hzero : n = 0
  · subst hzero
    exact ⟨by simpa using hclr, by simp, by simp [Nat.mod_eq_of_lt h.indicate_lt], by simp,
      .inl ⟨rfl, by simp⟩⟩
  rw [if_pos hzero]
  refine ⟨hclr, rfl, rfl, ?_, .inr ⟨_, rfl, ?_, tagHslot_indicate h.indicate_lt⟩⟩
  · have hsub : BitVec.ofNat 32 n ≤ w.fws.availableHslot := by
      rw [le_def, toNat_ofNat]
      exact (Nat.mod_le _ _).trans (by omega)
    rw [toNat_sub_of_le hsub, toNat_ofNat, Nat.mod_eq_of_lt (show n < 2 ^ 32 by omega)]
    omega
  · rw [fwsBuildCompTxstatusTlv, toNat_ofNat, Nat.mod_eq_of_lt hn]

theorem Reported.reportedSlots_eq (h : Reported w w' n) : reportedSlots w'.emitted =
      reportedSlots w.emitted ++ cyclicRun hangerMaxitems w.fws.indicateHslot n := by
  rcases h.emitted with ⟨rfl, hem⟩ | ⟨tlv, hem, hcomp, htag⟩
  · rw [hem, cyclicRun_zero, append_nil]
  · simp [hem, reportedSlots, tlvSlots, hcomp, htag]

theorem Reported.reportExact (h : Reported w w' n) : ReportExact w w' := by
  refine ⟨n, fun i => ?_, h.emitted⟩
  rw [h.cleared.bit_eq]
  constructor
  · rintro ⟨hbit, hnot⟩
    by_contra hmem
    simp [hbit, hmem] at hnot
  · exact fun hmem => ⟨h.cleared.was_set i hmem, by simp [hmem]⟩

theorem Reported.creditInv {forceReport eventMode : Bool} (h : Reported w w' n)
    (hinv : CreditInv acts w) : CreditInv (acts ++ [.report forceReport eventMode]) w' := by
  have hdone : doneSlots (acts ++ [.report forceReport eventMode]) = doneSlots acts := by
    simp [doneSlots]
  have hlen : (reportedSlots w'.emitted).length = (reportedSlots w.emitted).length + n := by
    simp [h.reportedSlots_eq]
  refine ⟨⟨?_, ?_, ?_⟩, ?_, ?_⟩
  · have := h.cleared.card_add
    have := h.available
    have := hinv.exact.available_eq
    omega
  · -- A slot of the run moves from pending to reported; no other slot changes.
    intro i hi
    rw [hdone, hinv.exact.once i hi, h.reportedSlots_eq, count_append, h.cleared.bit_eq]
    by_cases hmem : i ∈ cyclicRun hangerMaxitems w.fws.indicateHslot n
    · rw [count_eq_one_of_mem h.cleared.nodup hmem, h.cleared.was_set i hmem]
      simp [hmem]
    · simp [hmem, count_eq_zero_of_not_mem hmem]
  · rw [hlen, cyclicRun_add, ← hinv.exact.in_order, ← cyclicRun_mod _ (1 + _),
      ← hinv.indicate, h.reportedSlots_eq]
  · rw [fwsCreditEn, h.flag]
    exact hinv.credit
  · rw [h.indicate, hinv.indicate, hlen, Nat.mod_add_mod, Nat.add_assoc]

/-- **Step.**  An action within its guard has a result and keeps the accounting exact. -/
theorem creditInv_step {cfg : FwsCfg} (acts : List FwsAction) (w : FwsWorld) (a : FwsAction)
    (h : CreditInv acts w) (hok : FwsGuard cfg w a) :
    ∃ w', fwsStep cfg w a = some w' ∧ CreditInv (acts ++ [a]) w' := by
  cases a with
  | done wlh =>
    obtain ⟨w', hstep, _, hinv⟩ := creditInv_done cfg h hok
    exact ⟨w', hstep, hinv⟩
  | report forceReport eventMode =>
    obtain ⟨w', n, hstep, hrep⟩ := exists_reported h hok
    exact ⟨w', hstep, hrep.creditInv h⟩

/-! ## Runs -/

/-- **Credit accounting.** In every run whose completions name free slots and whose reports stay
within the 8-bit count, every state has exact accounting, and every report clears exactly the slots
of its record. -/
theorem credit_accounting (cfg : FwsCfg) {flags quota : BitVec 32}
    (hflags : flags &&& fwsFlagsCreditStatusSignals ≠ 0#32) (hquota : quota ≠ 0#32)
    {acts : List FwsAction}
    (hacts : StepsMeet (fwsStep cfg) (FwsGuard cfg) (fwsStart flags quota) acts)
    {pre post : List FwsAction} (hpre : acts = pre ++ post) :
    ∃ w, runSteps (fwsStep cfg) (fwsStart flags quota) pre = some w ∧ CreditExact pre w ∧
      ∀ forceReport eventMode rest, post = .report forceReport eventMode :: rest →
        ∃ w', fwsStep cfg w (.report forceReport eventMode) = some w' ∧ ReportExact w w' := by
  subst hpre
  obtain ⟨w, hrun, hinv⟩ := exists_run_of_stepsMeet CreditInv creditInv_step
    (creditInv_start hflags hquota) hacts.of_append
  refine ⟨w, hrun, hinv.exact, ?_⟩
  rintro forceReport eventMode rest rfl
  obtain ⟨w', n, hstep, hrep⟩ := exists_reported hinv (hacts.guard_at hrun)
  exact ⟨w', hstep, hrep.reportExact⟩

def doneTag (i : ℕ) : PktTag :=
  ⟨fwsTypePkttag, fwsTypePkttagLen, fwsTxstatusIndicate i⟩

def doneUpTo (k : ℕ) : List FwsAction :=
  (range k).map fun j => .done (doneTag (j + 1))

theorem doneUpTo_succ (k : ℕ) : doneUpTo (k + 1) = doneUpTo k ++ [.done (doneTag (k + 1))] := by
  simp [doneUpTo, range_succ]

theorem doneSlots_doneUpTo (hk : k < hangerMaxitems) :
    doneSlots (doneUpTo k) = (range k).map (· + 1) := by
  induction k with
  | zero => rfl
  | succ k ih =>
    have hslot : tagHslot (doneTag (k + 1)).htodTag = k + 1 := tagHslot_indicate hk
    have := ih (by omega)
    rw [doneSlots] at this ⊢
    rw [doneUpTo_succ, filterMap_append, this, range_succ, map_append]
    simp [hslot]

theorem count_doneUpTo (hk : k < hangerMaxitems) (i : ℕ) :
    (doneSlots (doneUpTo k)).count i = if 1 ≤ i ∧ i ≤ k then 1 else 0 := by
  have hnd : ((range k).map (· + 1)).Nodup :=
    nodup_range.map (add_left_injective 1)
  have hmem : i ∈ (range k).map (· + 1) ↔ 1 ≤ i ∧ i ≤ k := by
    simp only [List.mem_map, mem_range]
    exact ⟨fun ⟨j, hj, hji⟩ => by omega, fun h => ⟨i - 1, by omega, by omega⟩⟩
  rw [doneSlots_doneUpTo hk]
  split_ifs with h
  · exact count_eq_one_of_mem hnd (hmem.mpr h)
  · exact count_eq_zero_of_not_mem fun h' => h (hmem.mp h')

/-- After the completions of the slots 1 to `k`, exactly those slots are pending. -/
structure DoneUpTo (k : ℕ) (w : FwsWorld) : Prop where
  inv : CreditInv (doneUpTo k) w
  emitted : w.emitted = []

theorem DoneUpTo.bit_toNat (h : DoneUpTo k w) (hk : k < hangerMaxitems) (hi : i < hangerMaxitems)
    : (w.fws.hslotTab.bit i).toNat = if 1 ≤ i ∧ i ≤ k then 1 else 0 := by
  have := h.inv.exact.once i hi
  rw [count_doneUpTo hk, h.emitted] at this
  simpa [reportedSlots] using this.symm

theorem DoneUpTo.available_eq (h : DoneUpTo k w) (hk : k < hangerMaxitems) :
    w.fws.availableHslot.toNat = k := by
  have hones : w.fws.hslotTab.ones hangerMaxitems = Finset.Icc 1 k := by
    ext i
    rw [BitTable.mem_ones, Finset.mem_Icc, ← Bool.toNat_eq_one]
    constructor
    · rintro ⟨hi, hbit⟩
      rw [h.bit_toNat hk hi] at hbit
      by_contra hout
      rw [if_neg hout] at hbit
      omega
    · intro hi
      have hlt : i < hangerMaxitems := by omega
      exact ⟨hlt, by rw [h.bit_toNat hk hlt, if_pos hi]⟩
  rw [h.inv.exact.available_eq, hones, Nat.card_Icc]
  omega

theorem DoneUpTo.indicate_eq (h : DoneUpTo k w) : w.fws.indicateHslot = 1 := by
  rw [h.inv.indicate, h.emitted]
  rfl

theorem DoneUpTo.pendingRun_eq (h : DoneUpTo k w) (hk : k < hangerMaxitems) :
    pendingRun w.fws.hslotTab w.fws.indicateHslot = k := by
  rw [h.indicate_eq]
  refine pendingRun_eq_of hk.le (fun j hj => ?_) fun _ => ?_
  · have hmod : (1 + j) % hangerMaxitems = 1 + j := Nat.mod_eq_of_lt (by omega)
    have := h.bit_toNat hk (i := 1 + j) (by omega)
    rw [if_pos (by omega)] at this
    rw [hmod]
    exact Bool.toNat_eq_one.mp this
  · have hlt : (1 + k) % hangerMaxitems < hangerMaxitems := Nat.mod_lt _ (by decide)
    have hout : ¬ (1 ≤ (1 + k) % hangerMaxitems ∧ (1 + k) % hangerMaxitems ≤ k) := by
      rcases Nat.lt_or_ge (1 + k) hangerMaxitems with hlt | hge
      · rw [Nat.mod_eq_of_lt hlt]
        omega
      · rw [show 1 + k = hangerMaxitems by omega, Nat.mod_self]
        omega
    have := h.bit_toNat hk hlt
    rw [if_neg hout] at this
    exact Bool.toNat_eq_zero.mp this

theorem exists_doneUpTo (cfg : FwsCfg) (flags quota : BitVec 32)
    (hflags : flags &&& fwsFlagsCreditStatusSignals ≠ 0#32) (hquota : quota ≠ 0#32)
    (hk : k < hangerMaxitems) :
    ∃ w, runSteps (fwsStep cfg) (fwsStart flags quota) (doneUpTo k) = some w ∧ DoneUpTo k w ∧
      StepsMeet (fwsStep cfg) (FwsGuard cfg) (fwsStart flags quota) (doneUpTo k) := by
  induction k with
  | zero => exact ⟨_, rfl, ⟨creditInv_start hflags hquota, rfl⟩, trivial⟩
  | succ k ih =>
    obtain ⟨w, hrun, hw, hmeet⟩ := ih (by omega)
    have hslot : tagHslot (doneTag (k + 1)).htodTag = k + 1 := tagHslot_indicate hk
    have hok : DoneOk w (doneTag (k + 1)) := by
      refine ⟨rfl, rfl, by rwa [hslot], ?_⟩
      have := hw.bit_toNat (by omega) hk
      rw [if_neg (by omega)] at this
      rw [hslot]
      exact Bool.toNat_eq_zero.mp this
    obtain ⟨w', hstep, hem, hinv⟩ := creditInv_done cfg hw.inv hok
    refine ⟨w', ?_, ⟨?_, hem.trans hw.emitted⟩, ?_⟩ <;> rw [doneUpTo_succ]
    · rw [runSteps_concat, hrun]
      exact hstep
    · exact hinv
    · refine hmeet.concat fun t ht => ?_
      rw [hrun] at ht
      cases ht
      exact hok

/-- 255 completions in a row and a forced report stay within the guards. -/
theorem credit_accounting_of_255 :
    ∃ w, runSteps (fwsStep {}) (fwsStart 0x0004 1) (doneUpTo 255 ++ [.report true true]) = some w ∧
      CreditExact (doneUpTo 255 ++ [.report true true]) w := by
  obtain ⟨w, hrun, hw, hmeet⟩ := exists_doneUpTo {} 0x0004 1
    (by decide) (by decide) (k := 255) (by decide)
  have hmeet' : StepsMeet (fwsStep {}) (FwsGuard {}) (fwsStart 0x0004 1)
      (doneUpTo 255 ++ [.report true true]) := by
    refine hmeet.concat fun t ht => ?_
    rw [hrun] at ht
    cases ht
    exact (hw.pendingRun_eq (by decide)).trans_lt (by decide)
  obtain ⟨w', hrun', hexact, _⟩ := credit_accounting {} (by decide) (by decide) hmeet'
    (append_nil _).symm
  exact ⟨w', hrun', hexact⟩

/-- The guard without its condition on reports: only completions of free slots. -/
def CompletionsOk (w : FwsWorld) : FwsAction → Prop
  | .done wlh => DoneOk w wlh
  | .report _ _ => True

/-- **256 completions lost.** A forced report that meets 256 pending slots in a row clears them all,
counts 0 and emits nothing: the host is never told. -/
theorem forced_report_of_256_lost :
    StepsMeet (fwsStep {}) CompletionsOk (fwsStart 0x0004 1) (doneUpTo 256 ++ [.report true true]) ∧
      ∃ w, runSteps (fwsStep {}) (fwsStart 0x0004 1) (doneUpTo 256 ++ [.report true true]) =
          some w ∧
        w.fws.availableHslot.toNat = 256 ∧ (w.fws.hslotTab.ones hangerMaxitems).card = 0 ∧
        w.emitted = [] ∧ ¬ CreditExact (doneUpTo 256 ++ [.report true true]) w := by
  obtain ⟨w, hrun, hw, hmeet⟩ := exists_doneUpTo {} 0x0004 1
    (by decide) (by decide) (k := 256) (by decide)
  refine ⟨StepsMeet.concat (hmeet.mono ?_) fun _ _ => trivial, ?_⟩
  · intro s a ha
    cases a with
    | done wlh => exact ha
    | report forceReport eventMode => trivial
  have hpend := hw.pendingRun_eq (by decide)
  obtain ⟨tab, hrep, hclr⟩ := fwsReportTxstatus_forced {} true
    hw.inv.credit hw.inv.indicate_lt
  rw [hpend] at hrep hclr
  have havail : w.fws.availableHslot.toNat = 256 := hw.available_eq (by decide)
  have hcard := hclr.card_add
  rw [← hw.inv.exact.available_eq, havail] at hcard
  refine ⟨⟨{ w.fws with hslotTab := tab }, w.emitted⟩, ?_, havail, by simpa using hcard,
    hw.emitted, ?_⟩
  · rw [runSteps_concat, hrun, bind_some, fwsStep, hrep]
    simp [reportOf]
  · intro hexact
    have := hexact.available_eq
    simp only [havail] at this
    omega

end WiseSdk.Scdc
