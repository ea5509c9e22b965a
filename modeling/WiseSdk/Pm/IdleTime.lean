import WiseSdk.Pm.Context
import WiseSdk.Systimer.Queue

/-!
# Planning the wakeup

Before a sleep `pm_update_idle_time` plans the wakeup: it starts from the OS compare value
and lowers it to the head of the system timer queue, to the wakeup time of the other core
and to 23 hours from now.  When the head only needs the watcher, a second wakeup is planned
for what comes after it.

Everything is unsigned 64-bit arithmetic, and the distance of a timer to its counter enters
without its sign.
-/

namespace WiseSdk.Pm

open Systimer (Timer SystimerType absDur)

/-! ## The system timer's contribution -/

structure SystimerWakeupInfo where
  wtime : BitVec 64
  wtype : SystimerType
  wtimeNext : BitVec 64
  wtimeNextValid : Bool

/-- The clock readings of one call, in order: `mtime` against the peer's wakeup time, `mtime` kept
in the context, the timer counter, and `mtime` when the head and the timer after it are converted.
`counted` is the machine time at which the counter was read, which the code does not see. -/
structure ClockReads where
  peerCheck : BitVec 64
  idle : BitVec 64
  counted : BitVec 64
  count : BitVec 32
  head : BitVec 64
  next : BitVec 64

def ClockReads.Monotone (r : ClockReads) : Prop :=
  r.peerCheck ≤ r.idle ∧ r.idle ≤ r.counted ∧ r.counted ≤ r.head ∧ r.head ≤ r.next

/-- A timer's expiry as a machine time: the counter runs at twice the rate of `mtime`. -/
def wakeupTime (mtime : BitVec 64) (count expiry : BitVec 32) : BitVec 64 :=
  mtime + (absDur count expiry / 2#32).setWidth 64

/-- `scm2010_systimer_get_wakeup_info`; `none` stands for the result -1. -/
def systimerGetWakeupInfo (q : List Timer) (r : ClockReads) : Option SystimerWakeupInfo :=
  match q with
  | [] => none
  | [timer] => some
      { wtime := wakeupTime r.head r.count timer.expiry, wtype := timer.type
        wtimeNext := 0, wtimeNextValid := false }
  | timer :: nextTimer :: _ => some
      { wtime := wakeupTime r.head r.count timer.expiry, wtype := timer.type
        wtimeNext := wakeupTime r.next r.count nextTimer.expiry, wtimeNextValid := true }

/-! ## The plan -/

variable (cfg : PmConfig) {mtimecmp : BitVec 64}

/-- PM_DEFAULT_SLEEP_THRESHOLD, in microseconds. -/
def pmDefaultSleepThreshold : ℕ :=
  (if cfg.sdioPm then 20000 else 0) + 4000 + 5000

/-- OVER_SLEEP_THRESHOLD: the time `wt` is too close to sleep for. -/
def overSleepThreshold (ctx : PwrMgmtCtx) (wt : BitVec 64) : Bool :=
  decide (wt < ctx.mtime + pmUsecToMtime (BitVec.ofNat 64 (pmDefaultSleepThreshold cfg)))

/-- Lower the plan to the head of the timer queue; `none` if that is too close. -/
def lowerToSystimer (mtimecmp : BitVec 64) (info : SystimerWakeupInfo) (ctx : PwrMgmtCtx)
    : Option PwrMgmtCtx :=
  if info.wtime < ctx.wtime then
    let ctx := { ctx with wtime := info.wtime }
    if overSleepThreshold cfg ctx ctx.wtime then none
    else
      match info.wtype with
      | .wakeupFull => some ctx
      | .wakeupIdle =>
        some { ctx with
          wtimeNext := if info.wtimeNextValid && decide (info.wtimeNext < mtimecmp)
            then info.wtimeNext else mtimecmp }
  else some ctx

/-- Lower the plan to the other core's wakeup time. -/
def lowerToPeer (ctx : PwrMgmtCtx) : PwrMgmtCtx :=
  if cfg.pmMultiCore then
    match ctx.wtype with
    | .full => if ctx.peerWtime < ctx.wtime then { ctx with wtime := ctx.peerWtime } else ctx
    | .watcher =>
      if ctx.peerWtime < ctx.wtimeNext then
        if ctx.peerWtime < ctx.wtime then
          { ctx with wtime := ctx.peerWtime, wtype := .full }
        else { ctx with wtimeNext := ctx.peerWtime }
      else ctx
  else ctx

/-- The cap at 23 hours; the difference is unsigned. -/
def capIdleDur (ctx : PwrMgmtCtx) : PwrMgmtCtx :=
  if BitVec.ofNat 64 pmMaxLowpowerMtimeDuration < ctx.wtime - ctx.mtime then
    { ctx with
      wtime := ctx.mtime + BitVec.ofNat 64 pmMaxLowpowerMtimeDuration
      wtype := .full }
  else ctx

/-- The wakeup type follows from whether a second wakeup was planned. -/
def chooseWtype (ctx : PwrMgmtCtx) : PwrMgmtCtx :=
  { ctx with wtype := if ctx.wtimeNext ≠ 0#64 then .watcher else .full }

/-- `pm_update_idle_time`; `none` stands for the result -1. -/
def pmUpdateIdleTime (ctx : PwrMgmtCtx) (mtimecmp : BitVec 64) (q : List Timer) (r : ClockReads)
    : Option PwrMgmtCtx :=
  let ctx := { ctx with wtime := mtimecmp, wtimeNext := 0, mtime := r.idle }
  if overSleepThreshold cfg ctx ctx.wtime then none
  else
    let lowered := match systimerGetWakeupInfo q r with
      | none => some ctx
      | some info => lowerToSystimer cfg mtimecmp info ctx
    lowered.map fun ctx => capIdleDur (lowerToPeer cfg (chooseWtype ctx))

/-- `pm_pre_sleep_processing` up to the planned wakeup; `none` if it gives up and waits for an
interrupt. -/
def planWakeup (ctx : PwrMgmtCtx) (mtimecmp : BitVec 64) (q : List Timer) (r : ClockReads)
    : Option PwrMgmtCtx :=
  if ctx.stayActive ≠ 0 then none
  else if cfg.pmMultiCore && decide (ctx.peerWtime < r.peerCheck) then none
  else pmUpdateIdleTime cfg ctx mtimecmp q r

/-! ## What planning changes -/

/-- The planned times and the type of the wakeup are all that may differ. -/
def Replanned (ctx ctx' : PwrMgmtCtx) : Prop :=
  ∃ wtime wtimeNext wtype,
    ctx' = { ctx with wtime := wtime, wtimeNext := wtimeNext, wtype := wtype }

theorem lowerToSystimer_replanned {cfg : PmConfig} {info : SystimerWakeupInfo}
    {ctx ctx' : PwrMgmtCtx}
    (h : lowerToSystimer cfg mtimecmp info ctx = some ctx') : Replanned ctx ctx' := by
  unfold lowerToSystimer at h
  cases htype : info.wtype <;> simp only [htype] at h <;> split_ifs at h <;> cases h <;>
    exact ⟨_, _, _, rfl⟩

theorem lowerToPeer_replanned (ctx : PwrMgmtCtx) : Replanned ctx (lowerToPeer cfg ctx) := by
  unfold lowerToPeer
  cases htype : ctx.wtype <;> simp only <;> split_ifs <;> exact ⟨_, _, _, rfl⟩

theorem capIdleDur_replanned (ctx : PwrMgmtCtx) : Replanned ctx (capIdleDur ctx) := by
  unfold capIdleDur
  split_ifs <;> exact ⟨_, _, _, rfl⟩

theorem planWakeup_replanned {cfg : PmConfig} {ctx ctx' : PwrMgmtCtx} {q : List Timer}
    {r : ClockReads} (h : planWakeup cfg ctx mtimecmp q r = some ctx') :
    Replanned { ctx with mtime := r.idle } ctx' := by
  simp only [planWakeup, pmUpdateIdleTime] at h
  split_ifs at h
  rw [Option.map_eq_some_iff] at h
  obtain ⟨c, hc, rfl⟩ := h
  obtain ⟨_, _, _, hcap⟩ := capIdleDur_replanned (lowerToPeer cfg (chooseWtype c))
  obtain ⟨_, _, _, hpeer⟩ := lowerToPeer_replanned cfg (chooseWtype c)
  rw [hcap, hpeer]
  -- What is left is the step to the head of the queue, if there is one.
  split at hc
  · cases hc
    exact ⟨_, _, _, rfl⟩
  · obtain ⟨_, _, _, rfl⟩ := lowerToSystimer_replanned hc
    exact ⟨_, _, _, rfl⟩

end WiseSdk.Pm
