import WiseSdk.Pm.Mode

/-!
# A chosen sleep mode is safe

What a successful `pm_update_mode` guarantees: the mode is enabled, the hibernation budget allows
it, there is time to save and restore, and the hardware is to wake before the planned wakeup by the
time the restore takes.

The choice is made in three moves that can only go down: the deepest mode that fits, deep sleep for
hibernation when the budget is used up, the next enabled mode below. `pm_mode_sel` makes one
exception: a watcher wakeup may hibernate on the strength of the wakeup after it.
-/

namespace WiseSdk.Pm

open BitVec

def idleUsec (ctx : PwrMgmtCtx) : ℕ := (ctx.wtime.toNat - ctx.mtime.toNat) / xtaltime

/-- The duration to the wakeup after the next, in microseconds; the difference is unsigned. -/
def nextUsec (ctx : PwrMgmtCtx) : ℕ := (ctx.wtimeNext - ctx.mtime).toNat / xtaltime

/-- The least time a mode takes: `hib_min_time` for hibernation, the settings otherwise. -/
def neededTime (cfg : PmConfig) (ctx : PwrMgmtCtx) (mode : PmMode) : ℕ :=
  if mode = .hibernation then ctx.hibMinTime.toNat else minTime cfg mode

/-- What a successful call of `pm_update_mode` that turns `ctx` into `ctx'` guarantees. -/
structure ModeSafe (cfg : PmConfig) (ctx ctx' : PwrMgmtCtx) : Prop where
  not_active : ctx'.pmMode ≠ .active
  enabled : modeEnabled ctx ctx'.pmMode = true
  within_limit : ctx'.pmMode = .hibernation → ctx'.hibLimitCnt < ctx'.hibMaxCnt
  fits : neededTime cfg ctx ctx'.pmMode < idleUsec ctx ∨
    ctx'.pmMode = .hibernation ∧ ctx.wtype = .watcher ∧ ctx.hibMinTime.toNat < nextUsec ctx
  after_now : ctx.mtime.toNat < ctx'.ttime.toNat
  before_wtime : ctx'.ttime.toNat +
    pmRestoreTimeOffset cfg ctx.wtype ctx'.pmMode * xtaltime ≤ ctx.wtime.toNat

/-! ## Times -/

theorem pmMtimeToUsec_toNat (mtime : BitVec 64) :
    (pmMtimeToUsec mtime).toNat = mtime.toNat / xtaltime := by
  rw [pmMtimeToUsec, toNat_udiv]
  rfl

variable {ctx ctx' sel : PwrMgmtCtx}

theorem idleUsec_eq (hidle : ctx.mtime ≤ ctx.wtime) :
    (pmMtimeToUsec (ctx.wtime - ctx.mtime)).toNat = idleUsec ctx := by
  rw [pmMtimeToUsec_toNat, toNat_sub_of_le hidle, idleUsec]

theorem minTime_eq (cfg : PmConfig) (mode : PmMode) :
    minTime cfg mode = match mode with
      | .active | .idle => 0
      | .lightSleep => 1500 + 5000 + 0 + (1100 + 20)
      | .sleep => 1500 + 5000 + 0 + (1100 + 6000)
      | .deepSleep0 | .deepSleep1 =>
        pmSdioSwPrepareTime cfg + 6500 + 5000 + 0 + (6800 + 6000)
      | .hibernation => pmSdioSwPrepareTime cfg + 1650000 + 5000 + 0 + (54000 + 6000) := by
  cases mode <;> rfl

theorem pmSdioSwPrepareTime_le (cfg : PmConfig) : pmSdioSwPrepareTime cfg ≤ 20000 := by
  rw [pmSdioSwPrepareTime]
  split <;> omega

variable {mode deeper : PmMode}

theorem minTime_mono (cfg : PmConfig) (hle : mode.toNat ≤ deeper.toNat)
    (hdeeper : deeper ≠ .hibernation) : minTime cfg mode ≤ minTime cfg deeper := by
  rw [minTime_eq, minTime_eq]
  cases mode <;> cases deeper <;> first
    | exact absurd rfl hdeeper
    | exact absurd hle (by decide)
    | dsimp only; omega

theorem pmRestoreTimeOffset_le (cfg : PmConfig) (wtype : PmWakeupType) (mode : PmMode) :
    pmRestoreTimeOffset cfg wtype mode ≤ restoreTime cfg mode := by
  have hwatcher : (pmSettings cfg mode).whRestoreTime ≤ restoreTime cfg mode := by
    cases mode <;> simp [restoreTime, pmSettings]
  unfold pmRestoreTimeOffset
  split
  · exact hwatcher
  · exact Nat.le_refl _

/-! ## The selection -/

/-- The reasons `pm_mode_sel` can have to select a mode. -/
inductive Selected (cfg : PmConfig) (ctx : PwrMgmtCtx) : PmMode → Prop where
  | light (h : minTime cfg .lightSleep < idleUsec ctx) : Selected cfg ctx .lightSleep
  | deep (h : minTime cfg .deepSleep1 < idleUsec ctx) : Selected cfg ctx .deepSleep1
  | long (h : ctx.hibMinTime.toNat < idleUsec ctx) : Selected cfg ctx .hibernation
  | watcher (hdeep : minTime cfg .deepSleep1 < idleUsec ctx) (htype : ctx.wtype = .watcher)
      (hnext : ctx.hibMinTime.toNat < nextUsec ctx) : Selected cfg ctx .hibernation

theorem minTimes_toNat (cfg : PmConfig) (ctx : PwrMgmtCtx) :
    (minTimes cfg ctx .hibernation).toNat = ctx.hibMinTime.toNat ∧
      (minTimes cfg ctx .deepSleep1).toNat = minTime cfg .deepSleep1 ∧
      (minTimes cfg ctx .lightSleep).toNat = minTime cfg .lightSleep := by
  have hp := pmSdioSwPrepareTime_le cfg
  refine ⟨?_, ?_, ?_⟩
  · rw [minTimes, toNat_setWidth]
    omega
  · rw [minTimes, toNat_ofNat, minTime_eq]
    exact Nat.mod_eq_of_lt (by simp only; omega)
  · rw [minTimes, toNat_ofNat, minTime_eq]
    rfl

variable {cfg : PmConfig}

theorem pmModeSel_ok (hidle : ctx.mtime ≤ ctx.wtime) (h : pmModeSel cfg ctx = .ok sel) :
    ∃ mode, sel = { ctx with pmMode := mode } ∧ Selected cfg ctx mode := by
  obtain ⟨hhib, hdeep, hlight⟩ := minTimes_toNat cfg ctx
  simp only [pmModeSel] at h
  split at h
  · cases h
  next mode hfind =>
    have hfits := List.find?_some hfind
    simp only [Bool.and_eq_true, bne_iff_ne, ne_eq, decide_eq_true_eq, lt_def,
      idleUsec_eq hidle] at hfits
    obtain ⟨hzero, hfits⟩ := hfits
    split_ifs at h with hup <;> cases h
    · -- The watcher's next wakeup is far away.
      obtain ⟨hmode, htype, hnext⟩ := hup
      refine ⟨.hibernation, rfl, ?_⟩
      rcases hmode with rfl | rfl
      · exact .watcher (hdeep ▸ hfits) htype (hhib ▸ hnext)
      · exact .long (hhib ▸ hfits)
    · refine ⟨mode, rfl, ?_⟩
      cases mode with
      | hibernation => exact .long (hhib ▸ hfits)
      | deepSleep1 => exact .deep (hdeep ▸ hfits)
      | lightSleep => exact .light (hlight ▸ hfits)
      | active | idle | sleep | deepSleep0 => exact absurd rfl hzero

/-! ## The check -/

theorem withinHibLimit_hibernation (h : withinHibLimit ctx = .hibernation) :
    ctx.pmMode = .hibernation ∧ ctx.hibLimitCnt < ctx.hibMaxCnt := by
  rw [withinHibLimit] at h
  split_ifs at h with hlimit
  refine ⟨h, ?_⟩
  rw [lt_def]
  simp only [h, true_and, le_def] at hlimit
  omega

theorem withinHibLimit_le (ctx : PwrMgmtCtx) :
    withinHibLimit ctx = ctx.pmMode ∨ (withinHibLimit ctx).toNat < ctx.pmMode.toNat := by
  rw [withinHibLimit]
  split_ifs with hlimit
  · rw [hlimit.1]
    exact .inr (by decide)
  · exact .inl rfl

theorem enabledFrom_spec (hne : enabledFrom ctx mode ≠ .active) :
    modeEnabled ctx (enabledFrom ctx mode) = true ∧
      (enabledFrom ctx mode = mode ∨ (enabledFrom ctx mode).toNat < mode.toNat) := by
  rw [enabledFrom] at hne ⊢
  split_ifs at hne ⊢ with hen
  · exact ⟨hen, .inl rfl⟩
  cases hfind : pmModesDown.find? fun m =>
      decide (m.toNat < mode.toNat ∧ m ≠ .active) && modeEnabled ctx m with
  | none =>
    rw [hfind] at hne
    exact absurd rfl hne
  | some m =>
    have hm := List.find?_some hfind
    simp only [Bool.and_eq_true, decide_eq_true_eq] at hm
    exact ⟨hm.2, .inr hm.1.1⟩

/-- The check in one: down, to an enabled mode, within the budget. -/
theorem checked_spec (hmode : mode = enabledFrom ctx (withinHibLimit ctx)) (hne : mode ≠ .active) :
    modeEnabled ctx mode = true ∧
      (mode = ctx.pmMode ∨ mode.toNat < ctx.pmMode.toNat) ∧
      (mode = .hibernation → ctx.hibLimitCnt < ctx.hibMaxCnt) := by
  obtain ⟨hen, hdown⟩ := enabledFrom_spec (hmode ▸ hne)
  rw [← hmode] at hen hdown
  refine ⟨hen, ?_, fun hhib => ?_⟩
  · rcases withinHibLimit_le ctx with hsame | hlt
    · rwa [hsame] at hdown
    · rcases hdown with rfl | hlt'
      · exact .inr hlt
      · exact .inr (hlt'.trans hlt)
  · rcases hdown with hsame | hlt
    · exact (withinHibLimit_hibernation (hsame.symm.trans hhib)).2
    -- No mode is above hibernation.
    have htop : (withinHibLimit ctx).toNat ≤ PmMode.hibernation.toNat := by
      cases withinHibLimit ctx <;> decide
    rw [hhib] at hlt
    omega

/-- What is left of the selection after the check. -/
theorem fits_of_selected {sel : PmMode}
    (hrestore : restoreTime cfg .hibernation ≤ ctx.hibMinTime.toNat) (hsel : Selected cfg ctx sel)
    (hmode : mode = sel ∨ mode.toNat < sel.toNat) :
    (mode ≠ .hibernation ∧ minTime cfg mode < idleUsec ctx) ∨
      (mode = .hibernation ∧ Selected cfg ctx .hibernation) := by
  have hp := pmSdioSwPrepareTime_le cfg
  have hdeepTime := minTime_eq cfg .deepSleep1
  have hrestoreTime : restoreTime cfg .hibernation = 54000 + 6000 := rfl
  dsimp only at hdeepTime
  by_cases hhib : mode = .hibernation
  · refine .inr ⟨hhib, ?_⟩
    subst hhib
    rcases hmode with rfl | hlt
    · exact hsel
    · cases hsel <;> exact absurd hlt (by decide)
  refine .inl ⟨hhib, ?_⟩
  -- Every mode below hibernation takes no longer than deep sleep, or than the one selected.
  have hbelow : mode.toNat ≤ PmMode.deepSleep1.toNat := by
    cases mode <;> first | exact absurd rfl hhib | decide
  have hle := minTime_mono cfg hbelow (by decide)
  cases hsel with
  | light h =>
    have hlight : mode.toNat ≤ PmMode.lightSleep.toNat := by
      rcases hmode with rfl | hlt
      · exact le_rfl
      · exact hlt.le
    exact (minTime_mono cfg hlight (by decide)).trans_lt h
  | long h => omega
  | deep h | watcher h => exact hle.trans_lt h

/-! ## The call -/

theorem pmResetHibLimit_eq (ctx : PwrMgmtCtx) :
    ∃ clr cnt, pmResetHibLimit ctx = { ctx with hibLimitClr := clr, hibLimitCnt := cnt } := by
  rw [pmResetHibLimit]
  split
  · exact ⟨_, _, rfl⟩
  · exact ⟨ctx.hibLimitClr, ctx.hibLimitCnt, rfl⟩

/-- A successful call: selection, reset, check, target time. -/
theorem pmUpdateMode_inv (h : pmUpdateMode cfg ctx = .ok ctx') :
    ∃ sel mode, pmModeSel cfg ctx = .ok sel ∧
      mode = enabledFrom (pmResetHibLimit sel) (withinHibLimit (pmResetHibLimit sel)) ∧
      mode ≠ .active ∧
      ctx' = pmUpdateTargetTime cfg { pmResetHibLimit sel with pmMode := mode } := by
  simp only [pmUpdateMode, bind, Except.bind] at h
  cases hsel : pmModeSel cfg ctx with
  | error c => simp [hsel] at h
  | ok sel =>
    simp only [hsel, pmModeCheck] at h
    split_ifs at h with hactive
    cases h
    exact ⟨sel, _, rfl, rfl, hactive, rfl⟩

/-- A mode that fits leaves the time to restore it. -/
theorem offset_lt_of_fits (hrestore : restoreTime cfg .hibernation ≤ ctx.hibMinTime.toNat)
    (hfits : (mode ≠ .hibernation ∧ minTime cfg mode < idleUsec ctx) ∨
      (mode = .hibernation ∧ Selected cfg ctx .hibernation)) :
    pmRestoreTimeOffset cfg ctx.wtype mode < idleUsec ctx := by
  have hle := pmRestoreTimeOffset_le cfg ctx.wtype mode
  rcases hfits with ⟨-, hfits⟩ | ⟨rfl, hfits⟩
  · exact (hle.trans (Nat.le_add_left _ _)).trans_lt hfits
  cases hfits with
  | long h => exact (hle.trans hrestore).trans_lt h
  | watcher h htype hnext =>
    -- The watcher needs no time to come back from hibernation.
    rw [htype]
    exact (Nat.zero_le _).trans_lt h

theorem restoreTime_le (cfg : PmConfig) (mode : PmMode) : restoreTime cfg mode ≤ 60000 := by
  cases mode <;> simp [restoreTime, pmSettings]

theorem target_toNat {mtime wtime : BitVec 64} {offset : ℕ} (hoffset : offset ≤ 60000)
    (hfits : offset < (wtime.toNat - mtime.toNat) / xtaltime) :
    mtime.toNat < (wtime - pmUsecToMtime (BitVec.ofNat 64 offset)).toNat ∧
      (wtime - pmUsecToMtime (BitVec.ofNat 64 offset)).toNat + offset * xtaltime =
        wtime.toNat := by
  have hx : (pmUsecToMtime (BitVec.ofNat 64 offset)).toNat = offset * 10 := by
    rw [pmUsecToMtime_toNat, toNat_ofNat, xtaltime_eq]
    omega
  rw [xtaltime_eq] at hfits ⊢
  rw [toNat_sub_of_le (by rw [le_def]; omega), hx]
  omega

/-- **A chosen mode is safe**, for every duration, enable mask and budget, if `hib_min_time` is at
least the restore time of hibernation. -/
theorem modeSafe_of_pmUpdateMode (hidle : ctx.mtime ≤ ctx.wtime)
    (hrestore : restoreTime cfg .hibernation ≤ ctx.hibMinTime.toNat)
    (h : pmUpdateMode cfg ctx = .ok ctx') : ModeSafe cfg ctx ctx' := by
  obtain ⟨_, mode, hok, hmode, hne, rfl⟩ := pmUpdateMode_inv h
  obtain ⟨sel, rfl, hsel⟩ := pmModeSel_ok hidle hok
  obtain ⟨hen, hbelow, hlimit⟩ := checked_spec hmode hne
  obtain ⟨clr, cnt, hreset⟩ := pmResetHibLimit_eq { ctx with pmMode := sel }
  rw [hreset] at hen hbelow hlimit ⊢
  have hfits := fits_of_selected hrestore hsel hbelow
  obtain ⟨hnow, htarget⟩ := target_toNat
    ((pmRestoreTimeOffset_le cfg ctx.wtype mode).trans (restoreTime_le cfg mode))
    (offset_lt_of_fits hrestore hfits)
  refine ⟨hne, hen, hlimit, ?_, hnow, htarget.le⟩
  change neededTime cfg ctx mode < idleUsec ctx ∨ mode = .hibernation ∧ _
  rcases hfits with ⟨hhib, hfits⟩ | ⟨hhib, hfits⟩
  · exact .inl (by rwa [neededTime, if_neg hhib])
  · cases hfits with
    | long h => exact .inl (by rwa [neededTime, if_pos hhib])
    | watcher _ htype hnext => exact .inr ⟨hhib, htype, hnext⟩

end WiseSdk.Pm
