import WiseSdk.Pm.IdleTime
import WiseSdk.Pm.Mode
import WiseSdk.Pm.Time

/-!
# Saving and restoring around a sleep

`pm_pre_sleep_processing` saves what the chosen mode will lose, in pieces, and
`pm_post_sleep_processing` writes the pieces back.  Which pieces is decided twice, from the
features of `pm_mode`, and the early returns of the first function leave `pm_mode` in
different states.

The model logs every piece saved (or suspended) and restored (or resumed) by one pair of
calls, so that the two decisions can be compared.
-/

namespace WiseSdk.Pm

open Library Systimer

/-- The pieces of state a sleep saves and restores; a device is known by its place in the
device table. -/
inductive Piece where
  | plicH0
  | plicH1
  | mtime
  | mtimecmp
  | gpio
  | device (index : ℕ)
  deriving DecidableEq, Repr

inductive PmEvent where
  | saved (piece : Piece)
  | restored (piece : Piece)
  deriving DecidableEq, Repr

/-- The registers the sleep path reads and writes. -/
structure PmHw where
  plicH0 : PlicEnable
  plicH1 : PlicEnable
  mtime : BitVec 64
  mtimecmp : BitVec 64
  gpio : GpioRegs
  deriving DecidableEq, Repr

structure PmState where
  ctx : PwrMgmtCtx
  hw : PmHw
  log : List PmEvent
  deriving DecidableEq

/-- What one pair of calls meets: the timer queue and the clock readings of the plan, whether the
RTC ratio had to be measured, the D25 bit of the status register, which devices agree to be
suspended, the readings when the target time is checked and the time saved and restored, and what
registers and retained memory hold after the sleep. Only devices whose driver has both hooks are in
the table. -/
structure SleepEnv where
  systimerQ : List Timer
  reads : ClockReads
  ratioStale : Bool
  d25Idle : Bool
  deviceOk : List Bool
  mtimeCheck : BitVec 64
  mtimeBefore : BitVec 64
  rtcBefore : BitVec 32
  rtcAfter : BitVec 32
  ratio : BitVec 32
  lost : PmHw
  rram : PmRramInfo

/-! ## The pieces -/

variable (cfg : PmConfig)

/-- The enables kept by `pm_save_plic_h0` and `_h1`; the software word counts with two cores
only. -/
def plicCopy (from' to' : PlicEnable) : PlicEnable :=
  { s0 := from'.s0, s1 := from'.s1, sw := if cfg.pmMultiCore then from'.sw else to'.sw }

/-- All interrupts of a hart off. -/
def plicOff (reg : PlicEnable) : PlicEnable :=
  plicCopy cfg ⟨0, 0, 0⟩ reg

def pmSavePlicH0 (st : PmState) : PmState :=
  { ctx := { st.ctx with plicEnH0 := plicCopy cfg st.hw.plicH0 st.ctx.plicEnH0 }
    hw := { st.hw with plicH0 := plicOff cfg st.hw.plicH0 }
    log := st.log ++ [.saved .plicH0] }

def pmRestorePlicH0 (st : PmState) : PmState :=
  { st with
    hw := { st.hw with plicH0 := plicCopy cfg st.ctx.plicEnH0 st.hw.plicH0 }
    log := st.log ++ [.restored .plicH0] }

def pmSavePlicH1 (st : PmState) : PmState :=
  { ctx := { st.ctx with plicEnH1 := plicCopy cfg st.hw.plicH1 st.ctx.plicEnH1 }
    hw := { st.hw with plicH1 := plicOff cfg st.hw.plicH1 }
    log := st.log ++ [.saved .plicH1] }

def pmRestorePlicH1 (st : PmState) : PmState :=
  { st with
    hw := { st.hw with plicH1 := plicCopy cfg st.ctx.plicEnH1 st.hw.plicH1 }
    log := st.log ++ [.restored .plicH1] }

variable (env : SleepEnv)

/-- `pm_save_time`; the compare register is left at its largest value. -/
def pmSaveTime (st : PmState) : PmState :=
  { ctx := { st.ctx with
      rtc := env.rtcBefore, mtime := env.mtimeBefore, mtimecmp := st.hw.mtimecmp }
    hw := { st.hw with mtimecmp := BitVec.allOnes 64 }
    log := st.log ++ [.saved .mtime, .saved .mtimecmp] }

def pmRestoreTime (st : PmState) : PmState :=
  { st with
    hw := { st.hw with
      mtime := pmRestoreMtime st.ctx env.rram env.rtcAfter, mtimecmp := st.ctx.mtimecmp }
    log := st.log ++ [.restored .mtime, .restored .mtimecmp] }

/-- `pm_pull_down_gpio` for pad `i`. -/
def pullDownPad (enabled : BitVec 8) (g : GpioRegs) (i : ℕ) : GpioRegs :=
  if enabled.getLsbD i then g
  else
    { pu := g.pu &&& ~~~(1#32 <<< i)
      pd := g.pd ||| 1#32 <<< i
      ie := g.ie ||| 1#32 <<< i
      oen := g.oen &&& ~~~(1#32 <<< i)
      mode := g.mode &&& ~~~(0xf#32 <<< (i * 4)) ||| 0x8#32 <<< (i * 4)
      rise := g.rise &&& ~~~(1#32 <<< i)
      fall := g.fall &&& ~~~(1#32 <<< i) }

/-- `pm_save_gpio`: pads the user has not asked for become inputs with a pull-down. -/
def pmSaveGpio (st : PmState) : PmState :=
  { ctx := { st.ctx with gpio := st.hw.gpio }
    hw := { st.hw with
      gpio := (List.range 8).foldl (pullDownPad st.ctx.gpioEnabled) st.hw.gpio }
    log := st.log ++ [.saved .gpio] }

def pmRestoreGpio (st : PmState) : PmState :=
  { st with hw := { st.hw with gpio := st.ctx.gpio }, log := st.log ++ [.restored .gpio] }

/-- The loop of `pm_suspend_device` from device `i` on: the events and whether every device agreed.
A refused suspend is undone from the device that refused on. -/
def suspendFrom : ℕ → List Bool → List PmEvent × Bool
  | _, [] => ([], true)
  | i, true :: oks =>
    (.saved (.device i) :: (suspendFrom (i + 1) oks).1, (suspendFrom (i + 1) oks).2)
  | i, false :: _ => ((List.range (i + 1)).reverse.map fun j => .restored (.device j), false)

/-- `pm_suspend_device`, with its result. -/
def pmSuspendDevice (st : PmState) : PmState × Bool :=
  ({ st with log := st.log ++ (suspendFrom 0 env.deviceOk).1 }, (suspendFrom 0 env.deviceOk).2)

def pmResumeDevice (st : PmState) : PmState :=
  { st with
    log := st.log ++ (List.range env.deviceOk.length).map fun i => .restored (.device i) }

def setActive (st : PmState) : PmState :=
  { st with ctx := { st.ctx with pmMode := .active } }

def whenFeat (b : Bool) (f : PmState → PmState) (st : PmState) : PmState :=
  if b then f st else st

/-! ## The two functions -/

/-- `pm_pre_sleep_processing` up to the choice of a mode; an error carries the context of a call
that gives up: someone asked to stay active, a wakeup is too close, the RTC ratio had to be
measured, or no mode fits. The times of such a plan are not kept. -/
def chooseSleep (st : PmState) : Except PwrMgmtCtx PwrMgmtCtx :=
  match planWakeup cfg st.ctx st.hw.mtimecmp env.systimerQ env.reads with
  | none => .error st.ctx
  | some ctx => if env.ratioStale then .error ctx else pmUpdateMode cfg ctx

/-- What a sleep with features `feat` leaves in the registers: the interrupt controller goes with
the system, timers and pads with the clock. -/
def loseState (feat : PmFeat) (lost hw : PmHw) : PmHw :=
  { plicH0 := if feat.sysPg then lost.plicH0 else hw.plicH0
    plicH1 := if feat.sysPg then lost.plicH1 else hw.plicH1
    mtime := if feat.timerOff then lost.mtime else hw.mtime
    mtimecmp := if feat.timerOff then lost.mtimecmp else hw.mtimecmp
    gpio := if feat.timerOff then lost.gpio else hw.gpio }

/-- The sleep itself, with the bookkeeping right before it. -/
def sleepIn (st : PmState) : PmState :=
  let hibLimitCnt :=
    if st.ctx.pmMode = .hibernation ∧ st.ctx.hibLimitCnt < st.ctx.hibMaxCnt
    then st.ctx.hibLimitCnt + 1 else st.ctx.hibLimitCnt
  { st with
    ctx := { st.ctx with ratio := env.ratio, hibLimitCnt := hibLimitCnt }
    hw := loseState (pmFeat st.ctx.pmMode) env.lost st.hw }

/-- The end of `pm_pre_sleep_processing`. A target time less than a millisecond away fails an
assertion. -/
def enterSleep (st : PmState) : Option PmState :=
  let st := pmSavePlicH0 cfg st
  if st.ctx.ttime < env.mtimeCheck + pmUsecToMtime 1000 then none
  else
    some <| sleepIn env <|
      whenFeat (pmFeat st.ctx.pmMode).timerOff
        (fun st => whenFeat cfg.pmAonGpioCtrl pmSaveGpio (pmSaveTime env st)) st

/-- The system power-off block: hart 1's enables and the devices, undone when a device refuses. The
flag: the function goes on. -/
def suspendSystem (st : PmState) : PmState × Bool :=
  if (pmFeat st.ctx.pmMode).sysPg then
    let (st, ok) := pmSuspendDevice env (pmSavePlicH1 cfg st)
    if ok then (st, true) else (setActive (pmRestorePlicH1 cfg st), false)
  else (st, true)

/-- `pm_pre_sleep_processing` once a mode is chosen. With one core the D25 bit is looked at first,
and `pm_mode` stays as chosen when the function gives up; with two cores after the system power-off
block. -/
def preSleepChosen (st : PmState) : Option PmState :=
  if !cfg.pmMultiCore && !env.d25Idle then
    -- Without SDIO this is an assertion failure.
    if cfg.sdioPm then some st else none
  else
    let (st, ok) := suspendSystem cfg env st
    if !ok then some st
    else if cfg.pmMultiCore && !env.d25Idle then
      some (setActive (pmRestorePlicH1 cfg (pmResumeDevice env st)))
    else enterSleep cfg env st

/-- `pm_pre_sleep_processing`; `none` if it does not return (a power-down, or a failed
assertion). -/
def pmPreSleepProcessing (st : PmState) : Option PmState :=
  if st.ctx.powerDown ≠ 0 then none
  else
    match chooseSleep cfg env st with
    | .error ctx => some { st with ctx := ctx }
    | .ok ctx => preSleepChosen cfg env { st with ctx := ctx }

def pmPostSleepProcessing (st : PmState) : PmState :=
  if st.ctx.pmMode = .active then st
  else
    let feat := pmFeat st.ctx.pmMode
    let st := whenFeat feat.sysPg (fun st => pmRestorePlicH1 cfg (pmResumeDevice env st)) st
    let st := whenFeat feat.timerOff
      (fun st => whenFeat cfg.pmAonGpioCtrl pmRestoreGpio (pmRestoreTime env st)) st
    setActive (pmRestorePlicH0 cfg st)

/-- One sleep: the pair of calls, with a fresh log. -/
def sleepPair (st : PmState) : Option PmState :=
  (pmPreSleepProcessing cfg env { st with log := [] }).map (pmPostSleepProcessing cfg env)

/-! ## Runs -/

/-- A pair of calls, or anything the rest of the system does to registers and context. No other code
writes `pm_mode`. -/
inductive PmAction where
  | sleep (env : SleepEnv)
  | other (ctx : PwrMgmtCtx) (hw : PmHw)

def pmStep (st : PmState) : PmAction → Option PmState
  | .sleep env => sleepPair cfg env st
  | .other ctx hw => some
      { ctx := { ctx with pmMode := st.ctx.pmMode }
        hw := hw
        log := st.log }

/-- After `pm_para_init`. -/
def pmBoot : PmState :=
  { ctx := { pmMode := .active, stayActive := 1#32 <<< 4, pmModeEnabled := 0b1100101 }
    hw := ⟨⟨0, 0, 0⟩, ⟨0, 0, 0⟩, 0, 0, ⟨0, 0, 0, 0, 0, 0, 0⟩⟩
    log := [] }

end WiseSdk.Pm
