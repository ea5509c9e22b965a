import WiseSdk.Library.Runs

/-!
# The accept filters of the watcher

`scm2020_ps_reg_filter` and its companions (`scm2020-pm.c`) keep a table of ports or of multicast
addresses, and the number `tot_reg` of its entries. A registration looks for its value up to the
first empty slot, so that a value behind it is stored once more. A full table evicts its oldest
entry; without timestamps it writes to slot 255, since the index is unsigned and the test for `-1`
fails. The check compares 16 bits, and to clear or evict an address leaves `tot_reg` alone.

Words are natural numbers, reduced where they are stored.
-/

namespace WiseSdk.Wlan

open Library List

/-- `struct waon_filter_info`, with the slots that the filter uses. -/
structure FilterInfo where
  totReg : ℕ
  values : List ℕ
  times : ℕ → ℕ

def filterSize (mc : Bool) : ℕ := if mc then 4 else 8

/-- `waon_set_accept_port` and `waon_set_accept_mc_addr`. -/
def setFilter (mc : Bool) (i a : ℕ) (t : FilterInfo) : Option FilterInfo :=
  if i < t.values.length then
    some { t with
      values := t.values.set i (a % 2 ^ if mc then 32 else 16)
      totReg := if a ≠ 0 then (t.totReg + 1) % 256 else if mc then t.totReg else t.totReg - 1 }
  else none

/-- The search for the smallest timestamp; a zero is replaced by the next one. -/
def oldest (t : FilterInfo) : ℕ :=
  (range t.values.length).foldl
    (fun old i => if t.times old = 0 ∨ t.times i < t.times old then i else old) 0

/-- `scm2020_ps_replace_filter`, with its result as an `u8`. -/
def replaceFilter (mc timestamp : Bool) (t : FilterInfo) : Option (ℕ × FilterInfo) :=
  if timestamp then (setFilter mc (oldest t) 0 t).map (oldest t, ·) else some (255, t)

def stamp (i now : ℕ) (t : FilterInfo) : FilterInfo :=
  { t with times := Function.update t.times i now }

/-- `scm2020_ps_reg_filter`; without timestamps nothing reads `times`. -/
def regFilter (mc timestamp : Bool) (x now : ℕ) (t : FilterInfo) : Option FilterInfo :=
  match t.values.findIdx? fun v => v = 0 ∨ v = x with
  | some i =>
    if t.values[i]? = some 0 then (setFilter mc i x t).map (stamp i now) else some (stamp i now t)
  | none =>
    (replaceFilter mc timestamp t).bind fun (i, t) => (setFilter mc i x t).map (stamp i now)

/-- `scm2020_ps_chk_filter`: an entry is read to an `unsigned short`. -/
def chkFilter (x : ℕ) (t : FilterInfo) : Bool := t.values.any fun v => v % 2 ^ 16 = x

/-- `scm2020_ps_clr_filter`. -/
def clrFilter (mc : Bool) (x : ℕ) (t : FilterInfo) : Option FilterInfo :=
  match t.values.findIdx? fun v => v = x with
  | some i => setFilter mc i 0 t
  | none => some t

/-- `scm2020_ps_reset_filter`. -/
def resetFilter (t : FilterInfo) : FilterInfo :=
  { t with totReg := 0, values := replicate t.values.length 0 }

inductive FilterCall where
  | reg (x now : ℕ)
  | clr (x : ℕ)
  | reset

def filterStep (mc timestamp : Bool) (t : FilterInfo) : FilterCall → Option FilterInfo
  | .reg x now => regFilter mc timestamp x now t
  | .clr x => clrFilter mc x t
  | .reset => some (resetFilter t)

/-- No value stands twice, and the count is right. -/
structure FilterSound (t : FilterInfo) : Prop where
  once : ∀ v ≠ 0, t.values.count v ≤ 1
  count : t.totReg = t.values.countP (· ≠ 0)

def Shows (t : FilterInfo) : FilterCall → Prop
  | .reg x _ => chkFilter x t = true
  | .clr x => chkFilter x t = false
  | .reset => True

/-- Values have 16 bits; one that is registered stands in front of the first empty slot, and a new
one finds an empty slot or evicts a port; no address is cleared. -/
def FilterGuard (mc timestamp : Bool) (t : FilterInfo) : FilterCall → Prop
  | .reg x _ => x ≠ 0 ∧ x < 2 ^ 16 ∧
      ((∃ j, t.values[j]? = some x ∧ 0 ∉ t.values.take j) ∨
        x ∉ t.values ∧ (0 ∈ t.values ∨ timestamp ∧ !mc))
  | .clr x => x ≠ 0 ∧ (mc → x ∉ t.values)
  | .reset => True

structure FilterInv (mc : Bool) (t : FilterInfo) : Prop extends FilterSound t where
  short : ∀ v ∈ t.values, v < 2 ^ 16
  length : t.values.length = filterSize mc

variable {mc timestamp : Bool} {t : FilterInfo} {x i tot : ℕ}

theorem FilterInv.chk_iff (h : FilterInv mc t) : chkFilter x t = true ↔ x ∈ t.values := by
  simp only [chkFilter, any_eq_true, decide_eq_true_eq]
  constructor
  · rintro ⟨v, hv, rfl⟩
    rwa [Nat.mod_eq_of_lt (h.short v hv)]
  · exact fun hx => ⟨x, hx, Nat.mod_eq_of_lt (h.short x hx)⟩

theorem FilterInv.set (h : FilterInv mc t) (hi : i < t.values.length) (hx : x = 0 ∨ x ∉ t.values)
    (hshort : x < 2 ^ 16) (times : ℕ → ℕ)
    (htot : tot = t.totReg - (if t.values[i] ≠ 0 then 1 else 0) + if x ≠ 0 then 1 else 0) :
    FilterInv mc ⟨tot, t.values.set i x, times⟩ := by
  refine ⟨⟨fun v hv => ?_, ?_⟩, fun v hv => ?_, ?_⟩
  · have := h.once v hv
    simp only [count_set hi]
    grind
  · simp [countP_set hi, htot, h.count]
  · exact (mem_or_eq_of_mem_set hv).elim (h.short v) (· ▸ hshort)
  · rw [length_set, h.length]

theorem FilterInv.clear (h : FilterInv false t) (hi : i < t.values.length) (hne : t.values[i] ≠ 0) :
    ∃ t', setFilter false i 0 t = some t' ∧ FilterInv false t' ∧ t'.values = t.values.set i 0 := by
  refine ⟨_, if_pos hi, h.set hi (.inl rfl) (by decide) _ ?_, rfl⟩
  simp [hne]

theorem FilterInv.store (h : FilterInv mc t) (hi : i < t.values.length) (hzero : t.values[i] = 0)
    (hx : x ∉ t.values) (hne : x ≠ 0) (hshort : x < 2 ^ 16) (now : ℕ) :
    ∃ t', (setFilter mc i x t).map (stamp i now) = some t' ∧ FilterInv mc t' ∧ x ∈ t'.values := by
  have hwidth : (x % 2 ^ if mc then 32 else 16) = x := by
    refine Nat.mod_eq_of_lt ?_
    split_ifs <;> omega
  have hle : t.values.countP (· ≠ 0) ≤ filterSize mc := h.length ▸ countP_le_length
  have hsize : filterSize mc < 255 := by cases mc <;> decide
  rw [setFilter, if_pos hi, hwidth]
  refine ⟨_, rfl, h.set hi (.inr hx) hshort _ ?_, mem_set hi x⟩
  rw [if_pos hne, if_pos hne, h.count, Nat.mod_eq_of_lt (by omega)]
  simp [hzero]

theorem oldest_lt (h : t.values ≠ []) : oldest t < t.values.length := by
  refine foldlRecOn (range t.values.length) _ (motive := (· < t.values.length))
    (length_pos_iff.mpr h) fun old hold i hi => ?_
  split_ifs
  · exact mem_range.mp hi
  · exact hold

theorem FilterInv.reg (h : FilterInv mc t) (now : ℕ)
    (hguard : FilterGuard mc timestamp t (.reg x now)) :
    ∃ t', regFilter mc timestamp x now t = some t' ∧ FilterInv mc t' ∧ x ∈ t'.values := by
  obtain ⟨hne, hshort, hguard⟩ := hguard
  rw [regFilter]
  cases hscan : t.values.findIdx? fun v => v = 0 ∨ v = x with
  | some i =>
    obtain ⟨hi, hfound, hfirst⟩ := findIdx?_eq_some_iff_getElem.mp hscan
    dsimp only
    rcases of_decide_eq_true hfound with hzero | rfl
    · rw [if_pos (List.getElem?_eq_some_iff.mpr ⟨hi, hzero⟩)]
      refine h.store hi hzero (fun hx => ?_) hne hshort now
      rcases hguard with ⟨j, hj, hfront⟩ | hnew
      · obtain ⟨hlt, hj⟩ := List.getElem?_eq_some_iff.mp hj
        rcases Nat.lt_trichotomy i j with hij | rfl | hij
        · exact hfront (mem_take_iff_getElem.mpr ⟨i, by omega, hzero⟩)
        · exact hne (hj.symm.trans hzero)
        · exact hfirst j hij (decide_eq_true (.inr hj))
      · exact hnew.1 hx
    · rw [if_neg (by simpa [hi] using hne)]
      exact ⟨_, rfl, ⟨⟨h.once, h.count⟩, h.short, h.length⟩, getElem_mem hi⟩
  | none =>
    have hall : ∀ v ∈ t.values, v ≠ 0 ∧ v ≠ x := by simpa using findIdx?_eq_none_iff.mp hscan
    have hx : x ∉ t.values := fun hx => (hall x hx).2 rfl
    obtain ⟨rfl, hmc⟩ : timestamp = true ∧ (!mc) = true := by
      rcases hguard with ⟨j, hj, -⟩ | ⟨-, hzero | hevict⟩
      · exact absurd (mem_of_getElem? hj) hx
      · exact absurd rfl (hall 0 hzero).1
      · exact hevict
    obtain rfl : mc = false := by simpa using hmc
    have hi := oldest_lt (t := t) (length_pos_iff.mp (h.length ▸ by decide))
    obtain ⟨t₁, hclear, hinv, hvalues⟩ := h.clear hi (hall _ (getElem_mem hi)).1
    simp only [replaceFilter, if_true, hclear, Option.map_some, Option.bind_some]
    refine hinv.store (by simpa [hvalues] using hi) (by simp [hvalues]) (fun hmem => ?_) hne hshort
      now
    rw [hvalues] at hmem
    exact (mem_or_eq_of_mem_set hmem).elim hx hne

theorem FilterInv.clr (h : FilterInv mc t) (hguard : FilterGuard mc timestamp t (.clr x)) :
    ∃ t', clrFilter mc x t = some t' ∧ FilterInv mc t' ∧ x ∉ t'.values := by
  rw [clrFilter]
  cases hscan : t.values.findIdx? fun v => v = x with
  | none =>
    refine ⟨t, rfl, h, fun hx => ?_⟩
    simpa using findIdx?_eq_none_iff.mp hscan x hx
  | some i =>
    obtain ⟨hi, hfound, -⟩ := findIdx?_eq_some_iff_getElem.mp hscan
    obtain rfl : t.values[i] = x := of_decide_eq_true hfound
    obtain rfl : mc = false := Bool.eq_false_iff.mpr fun hmc => hguard.2 hmc (getElem_mem hi)
    obtain ⟨t', hset, hinv, hvalues⟩ := h.clear hi hguard.1
    refine ⟨t', hset, hinv, count_eq_zero.mp ?_⟩
    have hne : t.values[i] ≠ 0 := hguard.1
    have := h.once _ hne
    simp only [hvalues, count_set hi]
    grind

theorem filterInv_reset (h : t.values.length = filterSize mc) : FilterInv mc (resetFilter t) := by
  refine ⟨⟨fun v hv => ?_, ?_⟩, fun v hv => ?_, ?_⟩
  · simp [resetFilter, count_replicate, hv.symm]
  · simp [resetFilter, countP_replicate]
  · simp_all [resetFilter]
  · rwa [resetFilter, length_replicate]

theorem FilterInv.step (h : FilterInv mc t) {call : FilterCall}
    (hguard : FilterGuard mc timestamp t call) :
    ∃ t', filterStep mc timestamp t call = some t' ∧ FilterInv mc t' ∧ Shows t' call := by
  cases call with
  | reg x now =>
    obtain ⟨t', hreg, hinv, hmem⟩ := h.reg now hguard
    exact ⟨t', hreg, hinv, hinv.chk_iff.mpr hmem⟩
  | clr x =>
    obtain ⟨t', hclr, hinv, hmem⟩ := h.clr hguard
    exact ⟨t', hclr, hinv, Bool.eq_false_iff.mpr (hmem ∘ hinv.chk_iff.mp)⟩
  | reset => exact ⟨_, rfl, filterInv_reset h.length, trivial⟩

/-- **Accept filters.** A run of calls that meet the condition, on a table that was reset, returns
from all of them, and behind the last one the table is sound and the check right. -/
theorem filter_sound (mc timestamp : Bool) (t : FilterInfo) (ht : t.values.length = filterSize mc)
    (calls : List FilterCall) (h : StepsMeet (filterStep mc timestamp) (FilterGuard mc timestamp)
      (resetFilter t) calls) :
    ∃ t', runSteps (filterStep mc timestamp) (resetFilter t) calls = some t' ∧
      FilterSound t' ∧ ∀ call ∈ calls.getLast?, Shows t' call := by
  obtain ⟨t', hrun, hinv, hshows⟩ := exists_run_of_stepsMeet
    (fun pre t => FilterInv mc t ∧ ∀ call ∈ pre.getLast?, Shows t call)
    (fun pre t call hinv hguard => by simpa using hinv.1.step hguard)
    ⟨filterInv_reset ht, by simp⟩ h
  exact ⟨t', hrun, hinv.toFilterSound, hshows⟩

/-- A table with the timestamps that it happens to have. -/
def blankFilter (mc : Bool) : FilterInfo := ⟨0, replicate (filterSize mc) 0, fun _ => 0⟩

/-- Ports come and go: 80 is registered twice, and 53 takes its slot when it is cleared. -/
def portCalls : List FilterCall := [.reg 80 1, .reg 443 2, .reg 80 3, .clr 80, .reg 53 4]

theorem filter_sound_ports : ∃ t', runSteps (filterStep false false)
    (resetFilter (blankFilter false)) portCalls = some t' ∧
      FilterSound t' ∧ ∀ call ∈ portCalls.getLast?, Shows t' call :=
  filter_sound false false _ rfl _
    (.cons_of_eq ⟨by decide, by decide, .inr (by decide)⟩ rfl
      (.cons_of_eq ⟨by decide, by decide, .inr (by decide)⟩ rfl
        (.cons_of_eq ⟨by decide, by decide, .inl ⟨0, rfl, by decide⟩⟩ rfl
          (.cons_of_eq ⟨by decide, nofun⟩ rfl
            (.cons_of_eq ⟨by decide, by decide, .inr (by decide)⟩ rfl trivial)))))

/-- A port behind an empty slot is stored twice, the check does not find the address `E0000181`,
and the ninth port is written outside the table. -/
theorem filter_fails :
    (runSteps (filterStep false true) (resetFilter (blankFilter false))
      [.reg 1 1, .reg 2 2, .clr 1, .reg 2 3]).map (·.values.count 2) = some 2 ∧
    (runSteps (filterStep true true) (resetFilter (blankFilter true))
      [.reg 0xE0000181 1]).map (chkFilter 0xE0000181) = some false ∧
    (runSteps (filterStep false false) (resetFilter (blankFilter false))
      ((range 9).map fun k => .reg (k + 1) 0)).isNone := by
  decide

end WiseSdk.Wlan
