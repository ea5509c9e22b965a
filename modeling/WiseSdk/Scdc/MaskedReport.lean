import WiseSdk.Scdc.Credit

/-!
# The masked report and the bit-by-bit report

A threshold report of `fws_report_txstatus` looks at its slots through masks: the bits of a first
word, whole words, the bits of a last word.  `reportBits` is what it is for: look at the slots
one after the other, modulo the size of the table, and clear them one after the other if all are
set.

The mask of the first word is `(BIT(head) - 1) << remainder`.  A report that starts at the first
bit of a word and takes the whole of it has `head = 32`, and `BIT(32)` is undefined.
-/

namespace WiseSdk.Scdc

open Library

/-- **The report bit by bit**: if the `expect` slots from `start` on are all set they are cleared,
one at a time; else nothing changes. -/
def reportBits (tab : BitTable 32) (start expect : ℕ) : BitTable 32 :=
  let slots := (List.range expect).map fun j => (start + j) % hangerMaxitems
  if slots.all fun i => tab.bit i then slots.foldl clearSlot tab else tab

/-- The table that a threshold report leaves, if it is defined. -/
def maskedReport (cfg : FwsCfg) (s : SncmfFws) (eventMode : Bool) : Option (BitTable 32) :=
  (fwsReportTxstatus cfg s false eventMode).map fun r => r.fws.hslotTab

/-! ## Clearing one at a time -/

theorem bit_foldl_clearSlot (tab : BitTable 32) (slots : List ℕ) (i : ℕ) :
    (slots.foldl clearSlot tab).bit i = (tab.bit i && decide (i ∉ slots)) := by
  induction slots generalizing tab with
  | nil => simp
  | cons p slots ih =>
    rw [List.foldl_cons, ih, bit_clearSlot]
    simp [List.mem_cons, not_or, Bool.and_assoc]

theorem bit_reportBits (tab : BitTable 32) (p e i : ℕ) :
    (reportBits tab p e).bit i = if ∀ j ∈ cyclicRun hangerMaxitems p e, tab.bit j then
        tab.bit i && decide (i ∉ cyclicRun hangerMaxitems p e) else tab.bit i := by
  have hslots : (List.range e).map (fun j => (p + j) % hangerMaxitems) =
      cyclicRun hangerMaxitems p e := rfl
  rw [reportBits, hslots]
  simp only [List.all_eq_true]
  split_ifs
  · exact bit_foldl_clearSlot tab _ i
  · rfl

/-! ## The masks -/

theorem thresholdReport_eq_reportBits (tab : BitTable 32) {p e : ℕ} (hp : p < hangerMaxitems)
    (he : SpanDefined (p % wordBits) e) :
    ∃ n, thresholdReport tab (p / wordBits) (p % wordBits) e =
      some (reportBits tab p e, BitVec.ofNat 8 n) := by
  have hscan := thresholdReport_eq tab hp he
  have hbits := bit_reportBits tab p e
  split_ifs at hscan hbits with hall
  · obtain ⟨tab', hscan, htab'⟩ := hscan
    have htab : tab' = reportBits tab p e :=
      BitTable.ext_bit fun i => (htab' i).trans (hbits i).symm
    exact ⟨e, by rw [hscan, htab]⟩
  · have htab : reportBits tab p e = tab := BitTable.ext_bit hbits
    exact ⟨0, by rw [hscan, htab]⟩

theorem hslotTab_reportOf (s : SncmfFws) (tab : BitTable 32) (n : ℕ) :
    (reportOf s tab n).fws.hslotTab = tab := by
  rw [reportOf]
  split <;> rfl

/-- **Masked credit reporting.** A threshold report that gets to its masks leaves the table of the
bit-by-bit report if and only if the start plus the threshold fits in 32 bits and the first word is
not taken whole. -/
theorem masked_report_iff (cfg : FwsCfg) (s : SncmfFws) (eventMode : Bool)
    (hcredit : fwsCreditEn s = true) (hdue : ¬s.availableHslot < expectOf cfg eventMode)
    (hstart : s.indicateHslot < hangerMaxitems) :
    maskedReport cfg s eventMode =
        some (reportBits s.hslotTab s.indicateHslot (expectOf cfg eventMode).toNat) ↔
      SpanDefined (s.indicateHslot % wordBits) (expectOf cfg eventMode).toNat := by
  constructor
  · intro h
    by_contra hdef
    have hscan := @thresholdReport_of_not_spanDefined s.hslotTab (s.indicateHslot / wordBits) _ _
      (Nat.mod_lt s.indicateHslot (by decide)) (expectOf cfg eventMode).isLt hdef
    have hnone : maskedReport cfg s eventMode = none := by
      rw [maskedReport, fwsReportTxstatus]
      simp [hcredit, hdue, hscan]
    rw [hnone] at h
    cases h
  · intro hdef
    obtain ⟨n, hscan⟩ := thresholdReport_eq_reportBits s.hslotTab hstart hdef
    have hreport := fwsReportTxstatus_of_scan hcredit (by simp [hdue])
      (show (if false then _ else _) = _ from hscan)
    rw [maskedReport, hreport, Option.map_some, hslotTab_reportOf]

/-- All slots pending, and a report of 20 of them that wraps the table. -/
theorem masked_report_wrapping :
    let s : SncmfFws := ⟨4#32, fun _ => BitVec.allOnes 32, 100#32, 3060⟩
    maskedReport {} s true = some (reportBits s.hslotTab 3060 20) :=
  (masked_report_iff {} ⟨4#32, fun _ => BitVec.allOnes 32, 100#32, 3060⟩ true (by decide)
    (by decide) (by decide)).mpr (by unfold SpanDefined; decide)

/-- **The first word taken whole.** A threshold of 40 from slot 64 on, all pending: the mask of the
first word needs `BIT(32)`. -/
theorem masked_report_undefined :
    let s : SncmfFws := ⟨4#32, fun _ => BitVec.allOnes 32, 100#32, 64⟩
    maskedReport { eventCompTxstatusCnt := 40 } s true = none := rfl

end WiseSdk.Scdc
