import WiseSdk.Pm.Context

/-!
# Choosing the sleep mode

`pm_update_mode` picks the deepest mode whose save and restore times fit in the planned idle
time, falls back to an enabled one, and derives the time the hardware is to wake at.  A mode
is known to the rest of the sleep path only through its features: what it switches off.
-/

namespace WiseSdk.Pm

/-! ## Features -/

/-- The bits of a `pm_feat` entry. -/
structure PmFeat where
  timerOff : Bool := false
  sysCg : Bool := false
  sysPg : Bool := false
  corePg : Bool := false
  deriving DecidableEq, Repr

/-- `pm_feat`; the active mode has no entry. -/
def pmFeat : PmMode → PmFeat
  | .active => {}
  | .idle => {}
  | .lightSleep => { timerOff := true, sysCg := true }
  | .sleep => { timerOff := true, sysCg := true }
  | .deepSleep0 => { timerOff := true, sysCg := true, corePg := true }
  | .deepSleep1 => { timerOff := true, sysPg := true, corePg := true }
  | .hibernation => { timerOff := true, sysPg := true, corePg := true }

/-! ## Times -/

/-- `struct pm_time_settings`, in microseconds. -/
structure PmTimeSettings where
  swSaveTime : ℕ
  hwSaveTime : ℕ
  swRestoreTime : ℕ
  hwRestoreTime : ℕ
  whRestoreTime : ℕ

variable (cfg : PmConfig)

def pmSdioSwPrepareTime : ℕ :=
  if cfg.sdioPm then 20000 else 0

/-- `pm_settings`, by the mode an entry is used for. -/
def pmSettings : PmMode → PmTimeSettings
  | .lightSleep => ⟨1500 + 5000, 0, 1100, 20, 0⟩
  | .sleep => ⟨1500 + 5000, 0, 1100, 6000, 0⟩
  | .deepSleep0 => ⟨pmSdioSwPrepareTime cfg + 6500 + 5000, 0, 6800, 6000, 3800⟩
  | .deepSleep1 => ⟨pmSdioSwPrepareTime cfg + 6500 + 5000, 0, 6800, 6000, 3800⟩
  | .hibernation => ⟨pmSdioSwPrepareTime cfg + 1650000 + 5000, 0, 54000, 6000, 0⟩
  | .active => ⟨0, 0, 0, 0, 0⟩
  | .idle => ⟨0, 0, 0, 0, 0⟩

def saveTime (mode : PmMode) : ℕ :=
  (pmSettings cfg mode).swSaveTime + (pmSettings cfg mode).hwSaveTime

def restoreTime (mode : PmMode) : ℕ :=
  (pmSettings cfg mode).swRestoreTime + (pmSettings cfg mode).hwRestoreTime

def minTime (mode : PmMode) : ℕ :=
  saveTime cfg mode + restoreTime cfg mode

/-- `pm_restore_time_offset`: a watcher wakeup from a power-gated core restores less. -/
def pmRestoreTimeOffset (wtype : PmWakeupType) (mode : PmMode) : ℕ :=
  match wtype, (pmFeat mode).corePg with
  | .watcher, true => (pmSettings cfg mode).whRestoreTime
  | _, _ => restoreTime cfg mode

/-- The local `min_times` of `pm_mode_sel`; 0 where the mode is never selected. -/
def minTimes (ctx : PwrMgmtCtx) : PmMode → BitVec 64
  | .hibernation => ctx.hibMinTime.setWidth 64
  | .deepSleep1 => BitVec.ofNat 64 (minTime cfg .deepSleep1)
  | .lightSleep => BitVec.ofNat 64 (minTime cfg .lightSleep)
  | _ => 0

/-! ## The choice -/

/-- The modes, deepest first. -/
def pmModesDown : List PmMode :=
  [.hibernation, .deepSleep1, .deepSleep0, .sleep, .lightSleep, .idle, .active]

/-- `pm_mode_sel`.  The result -1 is an error that carries the context left behind. -/
def pmModeSel (ctx : PwrMgmtCtx) : Except PwrMgmtCtx PwrMgmtCtx :=
  let dur := pmMtimeToUsec (ctx.wtime - ctx.mtime)
  let fits := fun mode => minTimes cfg ctx mode != 0 && decide (minTimes cfg ctx mode < dur)
  match pmModesDown.find? fits with
  | none => .error ctx
  | some mode =>
    -- A watcher wakeup whose successor is far enough away hibernates.
    let nextDur := pmMtimeToUsec (ctx.wtimeNext - ctx.mtime)
    if (mode = .deepSleep1 ∨ mode = .hibernation) ∧ ctx.wtype = .watcher ∧
        ctx.hibMinTime.setWidth 64 < nextDur then
      .ok { ctx with pmMode := .hibernation }
    else .ok { ctx with pmMode := mode }

def PmMode.toNat : PmMode → ℕ
  | .active => 0
  | .idle => 1
  | .lightSleep => 2
  | .sleep => 3
  | .deepSleep0 => 4
  | .deepSleep1 => 5
  | .hibernation => 6

def modeEnabled (ctx : PwrMgmtCtx) (mode : PmMode) : Bool :=
  ctx.pmModeEnabled.getLsbD mode.toNat

/-- An exhausted hibernation budget falls back to deep sleep. -/
def withinHibLimit (ctx : PwrMgmtCtx) : PmMode :=
  if ctx.pmMode = .hibernation ∧ ctx.hibMaxCnt ≤ ctx.hibLimitCnt then .deepSleep1
  else ctx.pmMode

/-- A disabled mode falls back to the next enabled one below it, at last to the active one. -/
def enabledFrom (ctx : PwrMgmtCtx) (mode : PmMode) : PmMode :=
  if modeEnabled ctx mode then mode
  else (pmModesDown.find? fun m =>
    decide (m.toNat < mode.toNat ∧ m ≠ .active) && modeEnabled ctx m).getD .active

def pmModeCheck (ctx : PwrMgmtCtx) : Except PwrMgmtCtx PwrMgmtCtx :=
  let mode := enabledFrom ctx (withinHibLimit ctx)
  if mode = .active then .error { ctx with pmMode := mode }
  else .ok { ctx with pmMode := mode }

/-- PM_HIBERNATION_LIMIT_DURATION, in seconds. -/
def pmHibernationLimitDuration : ℕ := 86400

def pmResetHibLimit (ctx : PwrMgmtCtx) : PwrMgmtCtx :=
  if ctx.hibLimitClr < ctx.mtime then
    { ctx with
      hibLimitClr := ctx.mtime +
        pmUsecToMtime (BitVec.ofNat 64 (pmHibernationLimitDuration * ustime))
      hibLimitCnt := 0 }
  else ctx

def pmUpdateTargetTime (ctx : PwrMgmtCtx) : PwrMgmtCtx :=
  let offset :=
    pmUsecToMtime (BitVec.ofNat 64 (pmRestoreTimeOffset cfg ctx.wtype ctx.pmMode))
  { ctx with
    ttime := ctx.wtime - offset
    ttimeNext := if ctx.wtype = .watcher ∧ ctx.wtimeNext ≠ 0 then ctx.wtimeNext - offset
      else ctx.ttimeNext }

def pmUpdateMode (ctx : PwrMgmtCtx) : Except PwrMgmtCtx PwrMgmtCtx := do
  let ctx ← pmModeSel cfg ctx
  let ctx ← pmModeCheck (pmResetHibLimit ctx)
  return pmUpdateTargetTime cfg ctx

/-! ## What the choice leaves in `pm_mode` -/

variable {cfg : PmConfig} {ctx ctx' : PwrMgmtCtx}

theorem pmModeSel_error (h : pmModeSel cfg ctx = .error ctx') : ctx' = ctx := by
  simp only [pmModeSel] at h
  split at h
  · cases h
    rfl
  · split_ifs at h

theorem pmModeCheck_error (h : pmModeCheck ctx = .error ctx') : ctx'.pmMode = .active := by
  simp only [pmModeCheck] at h
  split_ifs at h with hactive
  cases h
  exact hactive

theorem pmModeCheck_ok (h : pmModeCheck ctx = .ok ctx') : ctx'.pmMode ≠ .active := by
  simp only [pmModeCheck] at h
  split_ifs at h with hactive
  cases h
  exact hactive

theorem pmUpdateMode_ok (h : pmUpdateMode cfg ctx = .ok ctx') : ctx'.pmMode ≠ .active := by
  simp only [pmUpdateMode, bind, Except.bind] at h
  cases hsel : pmModeSel cfg ctx with
  | error c => simp [hsel] at h
  | ok c =>
    cases hcheck : pmModeCheck (pmResetHibLimit c) with
    | error c' => simp [hsel, hcheck] at h
    | ok c' =>
      simp only [hsel, hcheck] at h
      cases h
      simpa only [pmUpdateTargetTime] using pmModeCheck_ok hcheck

theorem pmUpdateMode_error (hentry : ctx.pmMode = .active)
    (h : pmUpdateMode cfg ctx = .error ctx') : ctx'.pmMode = .active := by
  simp only [pmUpdateMode, bind, Except.bind] at h
  cases hsel : pmModeSel cfg ctx with
  | error c =>
    simp only [hsel] at h
    cases h
    rw [pmModeSel_error hsel, hentry]
  | ok c =>
    cases hcheck : pmModeCheck (pmResetHibLimit c) with
    | error c' =>
      simp only [hsel, hcheck] at h
      cases h
      exact pmModeCheck_error hcheck
    | ok c' =>
      simp only [hsel, hcheck] at h
      cases h

end WiseSdk.Pm
