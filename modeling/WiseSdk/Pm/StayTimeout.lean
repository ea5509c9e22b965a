import WiseSdk.Library.Runs
import WiseSdk.Pm.Context

/-!
# Staying awake for a while

`_pm_staytimeout` keeps the chip awake for a number of milliseconds: it sets the `PM_DEVICE_TIMED`
bit of `stay_active`, and a one-shot OS timer clears it. One timer serves all requests. A request
that ends no later than the one the timer was started for (`stay_active_mtime`) is meant to change
nothing.

The timer is one of the kernel in the ROM. A start is a command to the timer task: the queue may
refuse it, the task gets to it later, and the timer then runs for whole ticks, counted from the tick
the task got to it. `OsTimer` says this much of it, and all below holds for every timer that behaves
so. `stay_kept` says which runs keep the requests, `stay_kept_within_tick` what they keep wherever
in a tick they are made and served.
-/

namespace WiseSdk.Pm

open Library BitVec Option

inductive PmDevice where
  | wifi
  | ble
  | uart
  | timed
  | app
  | test
  deriving DecidableEq, Repr

/-- The bit of a device in `stay_active`. -/
def PmDevice.toNat : PmDevice → ℕ
  | .wifi => 0
  | .ble => 1
  | .uart => 2
  | .timed => 3
  | .app => 4
  | .test => 5

/-- `_pm_stay`, on `stay_active`. -/
def pmStay (dev : PmDevice) (stayActive : BitVec 32) : BitVec 32 :=
  stayActive ||| 1#32 <<< dev.toNat

/-- `_pm_relax`, on `stay_active`. -/
def pmRelax (dev : PmDevice) (stayActive : BitVec 32) : BitVec 32 :=
  stayActive &&& ~~~(1#32 <<< dev.toNat)

/-- `hz`: OS ticks in a second. -/
def hz : ℕ := 1000

def tickMtime : ℕ := ustime / hz * xtaltime

/-- Whole ticks of machine time. -/
def tickCount (now : ℕ) : ℕ := now / tickMtime

/-! ## The timer of the kernel -/

/-- A timer of the kernel that runs once, in states `τ`: what `pm.c` calls, and what the kernel
documents of it. -/
structure OsTimer (τ : Type) where
  /-- Asked from an interrupt, or not. -/
  osTimerIsRunning : Bool → τ → Bool
  osTimerStart : BitVec 32 → τ → τ
  /-- A round of the timer task at a tick count, and if it calls the function of the timer. No
  result: an assertion fails. -/
  timerTask : ℕ → τ → Option (τ × Bool)
  /-- The starts that are on the queue, and whether it takes another. -/
  starts : τ → List (BitVec 32)
  room : τ → Bool
  /-- The tick count at which the timer, if it is running, runs out. -/
  due : τ → Option ℕ
  isRunning_eq : ∀ irq t, osTimerIsRunning irq t = (!irq && (due t).isSome)
  start_due : ∀ ticks t, due (osTimerStart ticks t) = due t
  start_starts : ∀ ticks t, room t = true → starts (osTimerStart ticks t) = starts t ++ [ticks]
  task_returns : ∀ tick t, (∀ ticks ∈ starts t, 0 < ticks.toNat) → (timerTask tick t).isSome
  /-- The timer has run out; or a start is taken from the queue; or other timers are served. -/
  task_cases : ∀ tick t t' calls, timerTask tick t = some (t', calls) →
    (calls = true ∧ (∃ d ∈ due t, d ≤ tick) ∧ due t' = none ∧ starts t' = starts t) ∨
    (calls = false ∧ ∃ ticks, starts t = ticks :: starts t' ∧
      due t' = some (tick + ticks.toNat)) ∨
    (calls = false ∧ due t' = due t ∧ starts t' = starts t)

/-- The context of `_pm_staytimeout`, with the machine time of the last event, and with `ms` and
`stay_mtime` of a call that has not yet started the timer. -/
structure StayState (τ : Type) where
  now : ℕ := 0
  stayActive : BitVec 32 := 0
  stayActiveMtime : BitVec 64 := 0
  stayTimer : τ
  call : Option (BitVec 32 × BitVec 64) := none

/-! ## The functions -/

/-- `stay_mtime`: the microseconds are computed in 32 bits, and the clock has 64. -/
def stayMtime (now : ℕ) (ms : BitVec 32) : BitVec 64 :=
  BitVec.ofNat 64 now + pmUsecToMtime ((ms * 1000).setWidth 64)

/-- The ticks the timer is started with, `ms * hz / 1000`; `hz` is a `long long`. -/
def stayTicks (ms : BitVec 32) : BitVec 32 :=
  (ms.setWidth 64 * BitVec.ofNat 64 hz / 1000).setWidth 32

section Functions

variable {τ : Type} (os : OsTimer τ)

/-- The test for a request that changes nothing. -/
def stayCovered (irq : Bool) (ms : BitVec 32) (st : StayState τ) : Bool :=
  os.osTimerIsRunning irq st.stayTimer && decide (stayMtime st.now ms ≤ st.stayActiveMtime)

/-- `_pm_staytimeout` up to `osTimerStart`: the timer may run out before it goes on. -/
def pmStaytimeout (irq : Bool) (ms : BitVec 32) (st : StayState τ) : StayState τ :=
  if stayCovered os irq ms st then st
  else
    { st with stayActive := pmStay .timed st.stayActive, call := some (ms, stayMtime st.now ms) }

/-- The rest of `_pm_staytimeout`, which does not look at the result of `osTimerStart`. -/
def pmStaytimeoutStart (ms : BitVec 32) (mtime : BitVec 64) (st : StayState τ) : StayState τ :=
  { st with
    stayTimer := os.osTimerStart (stayTicks ms) st.stayTimer
    stayActiveMtime := mtime
    call := none }

/-- `pm_activetimeout`, called by the timer task when the timer has run out. -/
def pmActivetimeout (st : StayState τ) : StayState τ :=
  { st with stayActive := pmRelax .timed st.stayActive }

/-- The two parts of a request, a round of the timer task, and another device asking to stay awake
or no longer, each after a while. -/
inductive StayAction where
  | staytimeout (wait : ℕ) (irq : Bool) (ms : BitVec 32)
  | start (wait : ℕ)
  | timers (wait : ℕ)
  | stay (wait : ℕ) (dev : PmDevice) (h : dev ≠ .timed)
  | relax (wait : ℕ) (dev : PmDevice) (h : dev ≠ .timed)

def StayState.after (st : StayState τ) (wait : ℕ) : StayState τ :=
  { st with now := st.now + wait }

/-- One action. The calls are made one after another. -/
def stayStep (st : StayState τ) : StayAction → Option (StayState τ)
  | .staytimeout wait irq ms =>
    if st.call.isSome then none else some (pmStaytimeout os irq ms (st.after wait))
  | .start wait => st.call.map fun (ms, mtime) => pmStaytimeoutStart os ms mtime (st.after wait)
  | .timers wait =>
    (os.timerTask (tickCount (st.now + wait)) st.stayTimer).map fun (t, calls) =>
      let st := { st.after wait with stayTimer := t }
      if calls then pmActivetimeout st else st
  | .stay wait dev _ => some { st.after wait with stayActive := pmStay dev st.stayActive }
  | .relax wait dev _ => some { st.after wait with stayActive := pmRelax dev st.stayActive }

/-- A start is on its way to the timer task. -/
def starting (st : StayState τ) : Bool :=
  st.call.isSome || !(os.starts st.stayTimer).isEmpty

end Functions

/-! ## What was asked for -/

def stayDeadline (now : ℕ) (ms : BitVec 32) : ℕ := now + ms.toNat * 1000 * xtaltime

/-- The time, and the latest deadline requested so far. -/
structure StayRequests where
  now : ℕ := 0
  latest : ℕ := 0

def requestStep (r : StayRequests) : StayAction → StayRequests
  | .staytimeout wait _ ms =>
    { now := r.now + wait, latest := max r.latest (stayDeadline (r.now + wait) ms) }
  | .start wait | .timers wait | .stay wait _ _ | .relax wait _ _ => { r with now := r.now + wait }

variable {τ : Type}

def timedBit (st : StayState τ) : Bool := st.stayActive.getLsbD PmDevice.timed.toNat

/-- **The requests are kept**, but for a last `slack` before the latest deadline. Until then the bit
is set, and it is set just while the timer that clears it is running or about to be started: once
this has run out the bit is clear. Nothing changes between two actions. -/
structure Kept (os : OsTimer τ) (slack : ℕ) (st : StayState τ) (r : StayRequests) : Prop where
  now_eq : st.now = r.now
  awake : st.now + slack < r.latest → timedBit st = true
  held : timedBit st = ((os.due st.stayTimer).isSome || starting os st)

/-- A request fits the arithmetic (the microseconds 32 bits, its end the 64 of machine time), is not
of 0 ms, and comes when the timer task has seen the start of the one before; from an interrupt,
where no timer seems to run, it does not end before the deadline of a running one. The queue takes
the start, and the timer does not run out while it is on its way. -/
def StayGuard (os : OsTimer τ) (st : StayState τ) : StayAction → Prop
  | .staytimeout wait irq ms =>
    (0 < ms.toNat ∧ ms.toNat * 1000 < 2 ^ 32 ∧ stayDeadline (st.now + wait) ms < 2 ^ 64) ∧
      starting os st = false ∧ (irq = true → ∀ _d ∈ os.due st.stayTimer,
        st.stayActiveMtime.toNat ≤ stayDeadline (st.now + wait) ms)
  | .start _ => st.call.isSome ∧ os.room st.stayTimer = true
  | .timers wait =>
    starting os st = true → ∀ d ∈ os.due st.stayTimer, tickCount (st.now + wait) < d
  | _ => True

/-- The timer task comes to a start late enough in ticks: counted from the tick it is at, the timer
will not run out more than `slack` before the remembered deadline. -/
def ServedFor (os : OsTimer τ) (slack : ℕ) (st : StayState τ) : StayAction → Prop
  | .timers wait => ∀ ticks ∈ os.starts st.stayTimer,
      st.stayActiveMtime.toNat ≤ (tickCount (st.now + wait) + ticks.toNat) * tickMtime + slack
  | _ => True

/-! ## Bits and ticks -/

@[simp] theorem pmStay_timed (w : BitVec 32) :
    (pmStay .timed w).getLsbD PmDevice.timed.toNat = true := by
  simp [pmStay, PmDevice.toNat]

@[simp] theorem pmRelax_timed (w : BitVec 32) :
    (pmRelax .timed w).getLsbD PmDevice.timed.toNat = false := by
  simp [pmRelax, PmDevice.toNat]

variable {dev : PmDevice} {now : ℕ}

theorem pmStay_other (h : dev ≠ .timed) (w : BitVec 32) :
    (pmStay dev w).getLsbD PmDevice.timed.toNat = w.getLsbD PmDevice.timed.toNat := by
  cases dev <;> simp [pmStay, PmDevice.toNat] at h ⊢

theorem pmRelax_other (h : dev ≠ .timed) (w : BitVec 32) :
    (pmRelax dev w).getLsbD PmDevice.timed.toNat = w.getLsbD PmDevice.timed.toNat := by
  cases dev <;> simp [pmRelax, PmDevice.toNat] at h ⊢

/-- A thousand ticks a second: as many ticks as milliseconds. -/
theorem stayTicks_toNat (ms : BitVec 32) : (stayTicks ms).toNat = ms.toNat := by
  have hwide : (ms.setWidth 64).toNat = ms.toNat := by
    rw [toNat_setWidth]
    exact Nat.mod_eq_of_lt (by omega)
  have hprod : (ms.setWidth 64 * BitVec.ofNat 64 hz).toNat = ms.toNat * 1000 := by
    rw [toNat_mul, hwide]
    exact Nat.mod_eq_of_lt (a := ms.toNat * 1000) (by omega)
  rw [stayTicks, toNat_setWidth, toNat_udiv, hprod]
  change ms.toNat * 1000 / 1000 % 2 ^ 32 = _
  omega

theorem stayDeadline_eq (now : ℕ) (ms : BitVec 32) :
    stayDeadline now ms = now + ms.toNat * tickMtime := by
  have htick : tickMtime = 1000 * xtaltime := by decide
  rw [stayDeadline, htick, Nat.mul_assoc]

theorem stayMtime_toNat {ms : BitVec 32} (hms : ms.toNat * 1000 < 2 ^ 32)
    (hend : stayDeadline now ms < 2 ^ 64) : (stayMtime now ms).toNat = stayDeadline now ms := by
  have husec : (ms * 1000).toNat = ms.toNat * 1000 := toNat_mul_of_lt hms
  simp only [stayDeadline, xtaltime_eq] at hend ⊢
  rw [stayMtime, toNat_add, pmUsecToMtime_toNat, toNat_setWidth, husec, xtaltime_eq, toNat_ofNat]
  omega

theorem tickCount_le (now : ℕ) : tickCount now * tickMtime ≤ now := Nat.div_mul_le_self _ _

theorem lt_tickCount_succ (now : ℕ) : now < (tickCount now + 1) * tickMtime :=
  Nat.lt_mul_of_div_lt (Nat.lt_succ_self _) (by decide)

/-! ## One step -/

/-- The deadline of the last request that was not covered. -/
def lastDeadline (st : StayState τ) : ℕ :=
  match st.call with
  | some (_, mtime) => mtime.toNat
  | none => st.stayActiveMtime.toNat

/-- What the requests are kept by: at most one start is on its way, for the last deadline; without
one, the running timer is due no more than `slack` before this deadline. -/
structure StayInv (os : OsTimer τ) (slack : ℕ) (st : StayState τ) (r : StayRequests) : Prop where
  now_eq : st.now = r.now
  held : timedBit st = ((os.due st.stayTimer).isSome || starting os st)
  latest : r.latest ≤ max (lastDeadline st) st.now
  called : ∀ ms mtime, st.call = some (ms, mtime) → os.starts st.stayTimer = [] ∧
    0 < ms.toNat ∧ mtime.toNat ≤ st.now + ms.toNat * tickMtime
  queued : ∀ ticks ∈ os.starts st.stayTimer, os.starts st.stayTimer = [ticks] ∧
    0 < ticks.toNat ∧ st.stayActiveMtime.toNat ≤ st.now + ticks.toNat * tickMtime
  running : starting os st = false → ∀ d ∈ os.due st.stayTimer,
    st.stayActiveMtime.toNat ≤ d * tickMtime + slack
  idle : starting os st = false → os.due st.stayTimer = none → r.latest ≤ st.now + slack

variable {os : OsTimer τ} {slack : ℕ} {st : StayState τ} {r : StayRequests} {a : StayAction}

theorem lastDeadline_of_none (hcall : st.call = none) :
    lastDeadline st = st.stayActiveMtime.toNat := by
  rw [lastDeadline, hcall]

theorem starting_eq_false_iff :
    starting os st = false ↔ st.call = none ∧ os.starts st.stayTimer = [] := by
  simp [starting]

theorem StayInv.kept (h : StayInv os slack st r) : Kept os slack st r := by
  refine ⟨h.now_eq, fun hearly => ?_, h.held⟩
  by_contra hclear
  have hnone := h.held
  rw [Bool.eq_false_of_not_eq_true hclear, eq_comm, Bool.or_eq_false_iff] at hnone
  have := h.idle hnone.2 (by simpa using hnone.1)
  omega

/-- Time passes, and the other bits change. -/
theorem StayInv.other (h : StayInv os slack st r) (wait : ℕ) {word : BitVec 32}
    (hword : word.getLsbD PmDevice.timed.toNat = timedBit st) :
    StayInv os slack { st.after wait with stayActive := word } { r with now := r.now + wait } where
  now_eq := congrArg (· + wait) h.now_eq
  held := hword.trans h.held
  latest := h.latest.trans (max_le_max_left _ (Nat.le_add_right _ _))
  called ms mtime hcall := by
    obtain ⟨hstarts, hpos, hle⟩ := h.called ms mtime hcall
    exact ⟨hstarts, hpos, by simp only [StayState.after]; omega⟩
  queued ticks hticks := by
    obtain ⟨hone, hpos, hle⟩ := h.queued ticks hticks
    exact ⟨hone, hpos, by simp only [StayState.after]; omega⟩
  running := h.running
  idle hnot hnone := by
    have := h.idle hnot hnone
    simp only [StayState.after]
    omega

theorem StayInv.after (h : StayInv os slack st r) (wait : ℕ) :
    StayInv os slack (st.after wait) { r with now := r.now + wait } :=
  h.other wait rfl

/-- A request, at the time of the state. -/
theorem StayInv.staytimeout (hslack : slack ≤ tickMtime) (h : StayInv os slack st r) {irq : Bool}
    {ms : BitVec 32} (hguard : StayGuard os st (.staytimeout 0 irq ms)) :
    StayInv os slack (pmStaytimeout os irq ms st)
      { r with latest := max r.latest (stayDeadline st.now ms) } := by
  obtain ⟨⟨hpos, hms, hend⟩, hnot, hirq⟩ := hguard
  rw [Nat.add_zero] at hend hirq
  obtain ⟨hcall, hstarts⟩ := starting_eq_false_iff.mp hnot
  have hmtime := stayMtime_toNat hms hend
  have hlatest := h.latest
  rw [lastDeadline_of_none hcall] at hlatest
  rw [pmStaytimeout]
  split
  · -- Covered: the remembered deadline stays the latest.
    next hcovered =>
    rw [stayCovered, Bool.and_eq_true, os.isRunning_eq, Bool.and_eq_true, decide_eq_true_eq,
      le_def, hmtime] at hcovered
    obtain ⟨⟨-, hrunning⟩, hle⟩ := hcovered
    refine { h with latest := ?_, idle := fun _ hnone => ?_ }
    · rw [lastDeadline_of_none hcall]
      exact max_le hlatest (hle.trans (le_max_left _ _))
    · rw [hnone] at hrunning
      cases hrunning
  next hcovered =>
  have hdeadline := stayDeadline_eq st.now ms
  have htick : tickMtime ≤ ms.toNat * tickMtime := Nat.le_mul_of_pos_left _ hpos
  -- The new deadline is the latest.
  have hle : r.latest ≤ stayDeadline st.now ms := by
    cases hdue : os.due st.stayTimer with
    | none =>
      have := h.idle hnot hdue
      omega
    | some d =>
      have hbefore : st.stayActiveMtime.toNat ≤ stayDeadline st.now ms := by
        cases irq with
        | true => exact hirq rfl d hdue
        | false =>
          rw [stayCovered, os.isRunning_eq, hdue] at hcovered
          simp only [Bool.not_false, isSome_some, Bool.and_self, Bool.true_and,
            decide_eq_true_eq, le_def, hmtime] at hcovered
          omega
      omega
  refine ⟨h.now_eq, ?_, ?_, ?_, ?_, nofun, nofun⟩
  · simp [timedBit, starting]
  · simp only [lastDeadline, hmtime]
    omega
  · rintro _ _ ⟨⟩
    exact ⟨hstarts, hpos, by rw [hmtime, hdeadline]⟩
  · intro ticks hticks
    simp only [hstarts] at hticks
    cases hticks

/-- The start is put on the queue. -/
theorem StayInv.start (h : StayInv os slack st r) {ms : BitVec 32} {mtime : BitVec 64}
    (hcall : st.call = some (ms, mtime)) (hroom : os.room st.stayTimer = true) :
    StayInv os slack (pmStaytimeoutStart os ms mtime st) r := by
  obtain ⟨hempty, hpos, hle⟩ := h.called ms mtime hcall
  have hstarts := os.start_starts (stayTicks ms) st.stayTimer hroom
  rw [hempty, List.nil_append] at hstarts
  have hstarting : starting os (pmStaytimeoutStart os ms mtime st) = true := by
    simp [starting, pmStaytimeoutStart, hstarts]
  refine ⟨h.now_eq, ?_, ?_, nofun, ?_, ?_, ?_⟩
  · have hheld : timedBit st = true := h.held.trans (by simp [starting, hcall])
    rw [hstarting, Bool.or_true]
    exact hheld
  · have := h.latest
    rwa [lastDeadline, hcall] at this
  · intro ticks hticks
    simp only [pmStaytimeoutStart, hstarts, List.mem_singleton] at hticks ⊢
    subst hticks
    rw [stayTicks_toNat]
    exact ⟨rfl, hpos, hle⟩
  · intro hnot
    rw [hstarting] at hnot
    cases hnot
  · intro hnot
    rw [hstarting] at hnot
    cases hnot

/-- A round of the timer task that finds the timer run out. -/
theorem StayInv.expire (h : StayInv os slack st r) {t : τ} {d : ℕ} (hdue : os.due st.stayTimer = d)
    (hpast : d ≤ tickCount st.now) (hnot : starting os st = false) (hnone : os.due t = none)
    (hstarts : os.starts t = os.starts st.stayTimer) :
    StayInv os slack (pmActivetimeout { st with stayTimer := t }) r := by
  obtain ⟨hcall, hempty⟩ := starting_eq_false_iff.mp hnot
  have hstarting : starting os (pmActivetimeout { st with stayTimer := t }) = false :=
    starting_eq_false_iff.mpr ⟨hcall, hstarts.trans hempty⟩
  refine ⟨h.now_eq, ?_, h.latest, ?_, ?_, ?_, ?_⟩
  · rw [hstarting]
    simp [timedBit, pmActivetimeout, hnone]
  · intro ms mtime hsome
    cases hcall.symm.trans hsome
  · intro ticks hticks
    simp only [pmActivetimeout, hstarts, hempty] at hticks
    cases hticks
  · intro _ e he
    cases hnone.symm.trans he
  · intro _ _
    have hlatest := h.latest
    rw [lastDeadline_of_none hcall] at hlatest
    have hrunning := h.running hnot d hdue
    have hle := (Nat.mul_le_mul_right tickMtime hpast).trans (tickCount_le st.now)
    simp only [pmActivetimeout]
    omega

/-- A round of the timer task that takes the start from the queue. -/
theorem StayInv.take (h : StayInv os slack st r) {t : τ} {ticks : BitVec 32}
    (hhead : os.starts st.stayTimer = ticks :: os.starts t)
    (hdue : os.due t = some (tickCount st.now + ticks.toNat))
    (hserved : st.stayActiveMtime.toNat ≤
      (tickCount st.now + ticks.toNat) * tickMtime + slack) :
    StayInv os slack { st with stayTimer := t } r := by
  have hmem : ticks ∈ os.starts st.stayTimer := hhead ▸ List.mem_cons_self
  obtain ⟨hone, -, -⟩ := h.queued ticks hmem
  have hempty : os.starts t = [] := by
    rw [hhead] at hone
    exact (List.cons.inj hone).2
  have hcall : st.call = none := by
    refine eq_none_iff_forall_ne_some.mpr fun c hc => ?_
    rw [(h.called c.1 c.2 hc).1] at hmem
    cases hmem
  refine ⟨h.now_eq, ?_, h.latest, ?_, ?_, ?_, ?_⟩
  · have hheld : timedBit st = true := h.held.trans (by simp [starting, hhead])
    rw [hdue, isSome_some, Bool.true_or]
    exact hheld
  · intro ms mtime hsome
    cases hcall.symm.trans hsome
  · intro e he
    simp only [hempty] at he
    cases he
  · intro _ d hd
    cases hdue.symm.trans hd
    exact hserved
  · intro _ hnone
    cases hdue.symm.trans hnone

/-- A round of the timer task that serves other timers. -/
theorem StayInv.idleRound (h : StayInv os slack st r) {t : τ}
    (hdue : os.due t = os.due st.stayTimer) (hstarts : os.starts t = os.starts st.stayTimer) :
    StayInv os slack { st with stayTimer := t } r := by
  have hstarting : starting os { st with stayTimer := t } = starting os st := by
    simp only [starting, hstarts]
  refine ⟨h.now_eq, ?_, h.latest, ?_, ?_, ?_, ?_⟩
  · rw [hstarting, hdue]
    exact h.held
  · intro ms mtime hcall
    rw [hstarts]
    exact h.called ms mtime hcall
  · rw [hstarts]
    exact h.queued
  · rw [hstarting, hdue]
    exact h.running
  · rw [hstarting, hdue]
    exact h.idle

theorem StayInv.step (hslack : slack ≤ tickMtime) (h : StayInv os slack st r)
    (hguard : StayGuard os st a) (hserved : ServedFor os slack st a) :
    ∃ st', stayStep os st a = some st' ∧ StayInv os slack st' (requestStep r a) := by
  cases a with
  | staytimeout wait irq ms =>
    have hcall := (starting_eq_false_iff.mp hguard.2.1).1
    refine ⟨_, if_neg (by simp [hcall]), ?_⟩
    have hnext : StayInv os slack (pmStaytimeout os irq ms (st.after wait)) _ :=
      (h.after wait).staytimeout hslack hguard
    rw [requestStep, ← h.now_eq] at *
    exact hnext
  | start wait =>
    obtain ⟨hcall, hroom⟩ := hguard
    obtain ⟨⟨ms, mtime⟩, hcall⟩ := isSome_iff_exists.mp hcall
    exact ⟨_, by rw [stayStep, hcall, map_some], (h.after wait).start hcall hroom⟩
  | timers wait =>
    obtain ⟨⟨t, calls⟩, htask⟩ := isSome_iff_exists.mp
      (os.task_returns (tickCount (st.now + wait)) st.stayTimer fun ticks hticks =>
        (h.queued ticks hticks).2.1)
    refine ⟨_, by rw [stayStep, htask, map_some], ?_⟩
    have hafter := h.after wait
    rcases os.task_cases _ _ _ _ htask with ⟨rfl, ⟨d, hdue, hpast⟩, hnone, hstarts⟩ |
      ⟨rfl, ticks, hhead, hdue⟩ | ⟨rfl, hdue, hstarts⟩
    · refine hafter.expire hdue hpast ?_ hnone hstarts
      by_contra hstarting
      have := hguard (Bool.eq_true_of_not_eq_false hstarting) d hdue
      omega
    · exact hafter.take hhead hdue (hserved ticks (hhead ▸ List.mem_cons_self))
    · exact hafter.idleRound hdue hstarts
  | stay wait dev hdev => exact ⟨_, rfl, h.other wait (pmStay_other hdev _)⟩
  | relax wait dev hdev => exact ⟨_, rfl, h.other wait (pmRelax_other hdev _)⟩

/-- A start is always served less than a tick short. -/
theorem StayInv.servedFor (h : StayInv os slack st r) (a : StayAction) :
    ServedFor os tickMtime st a := by
  cases a with
  | timers wait =>
    intro ticks hticks
    obtain ⟨-, -, hle⟩ := h.queued ticks hticks
    have hlt := lt_tickCount_succ (st.now + wait)
    rw [Nat.add_mul, Nat.one_mul] at hlt
    rw [Nat.add_mul]
    omega
  | staytimeout | start | stay | relax => trivial

/-! ## Runs -/

/-- After `pm_para_init`, at some machine time: only PM_DEVICE_APP stays awake. -/
def stayBoot (now : ℕ) (t : τ) : StayState τ :=
  { now := now, stayActive := pmStay .app 0, stayTimer := t }

theorem stayInv_stayBoot {t : τ} (hstarts : os.starts t = []) (hdue : os.due t = none)
    (slack now : ℕ) : StayInv os slack (stayBoot now t) ⟨now, 0⟩ := by
  have hnot : starting os (stayBoot now t) = false := starting_eq_false_iff.mpr ⟨rfl, hstarts⟩
  refine ⟨rfl, ?_, Nat.zero_le _, nofun, ?_, ?_, fun _ _ => Nat.zero_le _⟩
  · rw [hnot, stayBoot, hdue]
    exact pmStay_other (by decide) 0
  · simp only [stayBoot, hstarts]
    nofun
  · simp only [stayBoot, hdue]
    nofun

/-- **When timed requests to stay awake are kept.** With a timer of the kernel that is not running
at first, they are kept to the end all along a run after boot whose steps meet the guard and whose
starts are served late enough. -/
theorem stay_kept (os : OsTimer τ) (t : τ) (hstarts : os.starts t = []) (hdue : os.due t = none)
    (now : ℕ) (acts pre : List StayAction)
    (h : StepsMeet (stayStep os) (fun st a => StayGuard os st a ∧ ServedFor os 0 st a)
      (stayBoot now t) acts) (hpre : pre <+: acts) :
    ∃ st, runSteps (stayStep os) (stayBoot now t) pre = some st ∧
      Kept os 0 st (pre.foldl requestStep ⟨now, 0⟩) := by
  obtain ⟨post, rfl⟩ := hpre
  obtain ⟨st, hrun, hinv⟩ := exists_run_of_stepsMeet
    (fun pre st => StayInv os 0 st (pre.foldl requestStep ⟨now, 0⟩))
    (fun pre st a hinv hmeets => by
      rw [List.foldl_concat]
      exact hinv.step (Nat.zero_le _) hmeets.1 hmeets.2)
    (stayInv_stayBoot hstarts hdue 0 now) h.of_append
  exact ⟨st, hrun, hinv.kept⟩

/-- **Timed requests are kept to within a tick**, wherever in a tick they are made and served. -/
theorem stay_kept_within_tick (os : OsTimer τ) (t : τ) (hstarts : os.starts t = [])
    (hdue : os.due t = none) (now : ℕ) (acts pre : List StayAction)
    (h : StepsMeet (stayStep os) (StayGuard os) (stayBoot now t) acts) (hpre : pre <+: acts) :
    ∃ st, runSteps (stayStep os) (stayBoot now t) pre = some st ∧
      Kept os tickMtime st (pre.foldl requestStep ⟨now, 0⟩) := by
  obtain ⟨post, rfl⟩ := hpre
  obtain ⟨st, hrun, hinv⟩ := exists_run_of_stepsMeet
    (fun pre st => StayInv os tickMtime st (pre.foldl requestStep ⟨now, 0⟩))
    (fun pre st a hinv hguard => by
      rw [List.foldl_concat]
      exact hinv.step le_rfl hguard (hinv.servedFor a))
    (stayInv_stayBoot hstarts hdue tickMtime now) h.of_append
  exact ⟨st, hrun, hinv.kept⟩

/-! ## The timer of the ROM -/

/-- The timer as the commands of `osTimerStart` and the rounds of the timer task leave it, beside a
queue of ten commands. -/
structure KernelTimer where
  queue : List (BitVec 32) := []
  expiry : Option ℕ := none
  deriving DecidableEq, Repr

/-- A round looks at the timer first, then at the oldest command; a period of 0 is asserted not to
be. -/
def KernelTimer.round (tick : ℕ) (t : KernelTimer) : Option (KernelTimer × Bool) :=
  if t.expiry.any (· ≤ tick) then some ({ t with expiry := none }, true)
  else
    match t.queue with
    | [] => some (t, false)
    | ticks :: queue =>
      if ticks = 0 then none else some (⟨queue, some (tick + ticks.toNat)⟩, false)

def kernelTimer : OsTimer KernelTimer where
  osTimerIsRunning irq t := !irq && t.expiry.isSome
  osTimerStart ticks t := if t.queue.length < 10 then { t with queue := t.queue ++ [ticks] } else t
  timerTask := KernelTimer.round
  starts := KernelTimer.queue
  room t := decide (t.queue.length < 10)
  due := KernelTimer.expiry
  isRunning_eq _ _ := rfl
  start_due ticks t := by
    split <;> rfl
  start_starts ticks t hroom := by
    rw [if_pos (of_decide_eq_true hroom)]
  task_returns tick t hpos := by
    rw [KernelTimer.round]
    split
    · rfl
    split
    · rfl
    next hqueue =>
    rw [if_neg]
    · rfl
    · rintro rfl
      cases hpos 0 (hqueue ▸ List.mem_cons_self)
  task_cases tick t t' calls htask := by
    rw [KernelTimer.round] at htask
    split at htask
    · next hexpiry =>
        cases htask
        exact .inl ⟨rfl, by simpa [Option.any_eq_true] using hexpiry, rfl, rfl⟩
    split at htask
    · cases htask
      exact .inr (.inr ⟨rfl, rfl, rfl⟩)
    next hqueue =>
    split at htask
    · cases htask
    · cases htask
      exact .inr (.inl ⟨rfl, _, hqueue, rfl⟩)

instance (st : StayState KernelTimer) (a : StayAction) : Decidable (StayGuard kernelTimer st a) :=
  match a with
  | .staytimeout .. => inferInstanceAs (Decidable ((_ ∧ _ ∧ _) ∧ _ ∧ (_ → ∀ _ ∈ _, _)))
  | .start _ => inferInstanceAs (Decidable (_ ∧ _))
  | .timers _ => inferInstanceAs (Decidable (_ → ∀ _ ∈ _, _))
  | .stay .. | .relax .. => .isTrue trivial

instance (slack : ℕ) (st : StayState KernelTimer) (a : StayAction) :
    Decidable (ServedFor kernelTimer slack st a) :=
  match a with
  | .timers _ => List.decidableBAll _ _
  | .staytimeout .. | .start _ | .stay .. | .relax .. => .isTrue trivial

/-- 5 ms are asked for at a tick, then 20 ms between two ticks, the start of which is served `wait`
later; the timer is looked at again at machine time `last`. -/
def sampleRequests (wait last : ℕ) : List StayAction :=
  [.staytimeout 0 false 5, .start 0, .timers 0, .staytimeout 100 false 20, .start 0, .timers wait,
    .timers (last - wait - 100)]

/-- Served at the next tick, the timer runs out after the later deadline, and the bit is clear. -/
theorem stay_kept_sample :
    (runSteps (stayStep kernelTimer) (stayBoot 0 {}) (sampleRequests 9900 210000)).map timedBit =
        some false ∧
      ∀ pre, pre <+: sampleRequests 9900 210000 →
        ∃ st, runSteps (stayStep kernelTimer) (stayBoot 0 {}) pre = some st ∧
          Kept kernelTimer 0 st (pre.foldl requestStep ⟨0, 0⟩) :=
  ⟨by decide +kernel, fun pre => stay_kept kernelTimer {} rfl rfl 0 _ pre (by decide +kernel)⟩

/-- Served in the tick it is made in, the bit is clear 100 machine ticks before the deadline. -/
theorem stay_kept_within_tick_sample :
    (runSteps (stayStep kernelTimer) (stayBoot 0 {}) (sampleRequests 0 200000)).map timedBit =
        some false ∧
      ((sampleRequests 0 200000).foldl requestStep {}).latest = 200100 ∧
      ∀ pre, pre <+: sampleRequests 0 200000 →
        ∃ st, runSteps (stayStep kernelTimer) (stayBoot 0 {}) pre = some st ∧
          Kept kernelTimer tickMtime st (pre.foldl requestStep ⟨0, 0⟩) :=
  ⟨by decide +kernel, by decide +kernel, fun pre =>
    stay_kept_within_tick kernelTimer {} rfl rfl 0 _ pre (by decide +kernel)⟩

/-- A request of 4294968 ms is remembered as one of 704 us; one of 1 ms that comes a millisecond
later restarts the timer, and the bit is cleared over an hour early. -/
theorem long_request_cut_short :
    let acts := [.staytimeout 0 false 4294968, .start 0, .timers 0, .staytimeout 10000 false 1,
      .start 0, .timers 0, .timers 10000]
    (runSteps (stayStep kernelTimer) (stayBoot 0 {}) acts).map timedBit = some false ∧
      (acts.foldl requestStep {}).now = 20000 ∧
      (acts.foldl requestStep {}).latest = 42949680000 := by
  decide +kernel

end WiseSdk.Pm
