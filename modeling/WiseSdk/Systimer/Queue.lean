import WiseSdk.Library.Runs

/-!
# The system timer queue (systimer-scm2010.c)

Timers wait in one queue for a free-running 32-bit counter; the head of the queue is
programmed in the compare register.  A start inserts by the *absolute value* of the distance
between expiry and counter, and the interrupt decides by a comparison with the constant
0xF0000000 whether the head has expired.

The model carries the counter unwrapped: `now` is the number of ticks since the counter was
zero, and SYS_TIMER_COUNT reads `now` modulo 2^32.  A queued timer remembers its unwrapped
`deadline` next to the `expiry` word; no function of the driver reads it.
-/

namespace WiseSdk.Systimer

open Library BitVec

/-- `enum systimer_type`: whether the expiry wakes the whole system or only the watcher. -/
inductive SystimerType where
  | wakeupFull
  | wakeupIdle
deriving DecidableEq, Repr

/-- A queued timer: its `struct systimer`, its type, its `expiry` word, and the tick that word
stands for. -/
structure Timer where
  id : ℕ
  type : SystimerType
  expiry : BitVec 32
  deadline : ℕ
deriving DecidableEq, Repr

/-- The driver's state and registers; `served` logs the timers whose callback was called, oldest
first. -/
structure BspTimer where
  systimerQ : List Timer
  now : ℕ
  compare : BitVec 32
  cmpIntrEn : Bool
  plicPending : Bool
  served : List Timer
deriving DecidableEq, Repr

def BspTimer.count (s : BspTimer) : BitVec 32 :=
  BitVec.ofNat 32 s.now

/-- The driver's test for an expired timer, in `scm2010_systimer_set_cmp` and
`scm2010_systimer_irq_cmp`. -/
def cmpExpired (cur expiry : BitVec 32) : Bool :=
  (decide (expiry ≤ cur) && decide (cur - expiry < 0xF0000000#32)) ||
    (decide (cur < expiry) && decide (0xF0000000#32 < expiry - cur))

def setCmp (s : BspTimer) (timer : Timer) : BspTimer :=
  { s with
    cmpIntrEn := true
    compare := timer.expiry
    plicPending := s.plicPending || cmpExpired s.count timer.expiry }

def disableCmp (s : BspTimer) : BspTimer :=
  { s with cmpIntrEn := false }

/-- Program the head of the queue, or switch the comparison off. -/
def programHead (s : BspTimer) : BspTimer :=
  match s.systimerQ with
  | [] => disableCmp s
  | next :: _ => setCmp s next

/-- `abs(expiry - cur_time)`: the difference read as an `int`. -/
def absDur (cur expiry : BitVec 32) : BitVec 32 :=
  (expiry - cur).abs

/-- The insertion loop of `scm2010_systimer_start_at`. -/
def insertTimer (cur : BitVec 32) (timer : Timer) : List Timer → List Timer
  | [] => [timer]
  | entry :: rest =>
    if absDur cur timer.expiry < absDur cur entry.expiry then timer :: entry :: rest
    else entry :: insertTimer cur timer rest

/-- The unwrapped tick a start asks for. -/
def BspTimer.deadlineOf (s : BspTimer) (tick : BitVec 32) : ℕ :=
  s.now + (tick - s.count).toNat

/-- `scm2010_systimer_start_at`: starting a queued timer fails an assertion. -/
def startAt (s : BspTimer) (id : ℕ) (type : SystimerType) (tick : BitVec 32) :
    Option BspTimer :=
  if s.systimerQ.any (·.id == id) then none
  else
    let timer : Timer := ⟨id, type, tick, s.deadlineOf tick⟩
    let s' := { s with systimerQ := insertTimer s.count timer s.systimerQ }
    some (if s'.systimerQ.head? = some timer then setCmp s' timer else s')

/-- `scm2010_systimer_stop`; stopping a timer that is not queued changes nothing. -/
def stop (s : BspTimer) (id : ℕ) : BspTimer :=
  if s.systimerQ.any (·.id == id) then
    let s' := { s with systimerQ := s.systimerQ.eraseP (·.id == id) }
    if (s.systimerQ.head?.map (·.id)) = some id then programHead s' else s'
  else s

/-- What can happen between two interrupts, and inside a callback. -/
inductive TimerOp where
  | startAt (id : ℕ) (type : SystimerType) (tick : BitVec 32)
  | stop (id : ℕ)
  | advance (ticks : ℕ)

def opStep (s : BspTimer) : TimerOp → Option BspTimer
  | .startAt id type tick => startAt s id type tick
  | .stop id => some (stop s id)
  | .advance ticks => some { s with now := s.now + ticks }

/-- The head of the queue taken off and logged, as its callback is entered. -/
def BspTimer.serve (s : BspTimer) (timer : Timer) (rest : List Timer) : BspTimer :=
  { s with systimerQ := rest, served := s.served ++ [timer] }

/-- `scm2010_systimer_irq`: an expired head is served, its callback does `callback`, and the new
head is programmed. -/
def irqCmp (s : BspTimer) (callback : List TimerOp) : Option BspTimer :=
  let s := { s with plicPending := false }
  match s.systimerQ with
  | [] => some s
  | timer :: rest =>
    if cmpExpired s.count timer.expiry then
      (runSteps opStep (s.serve timer rest) callback).map programHead
    else some (programHead s)

inductive TimerAction where
  | op (o : TimerOp)
  | irq (callback : List TimerOp)

def timerStep (s : BspTimer) : TimerAction → Option BspTimer
  | .op o => opStep s o
  | .irq callback => irqCmp s callback

/-- After `scm2010_systimer_probe`: an empty queue, the counter at any value. -/
def probed (now : ℕ) : BspTimer :=
  { systimerQ := [], now := now, compare := 0, cmpIntrEn := false, plicPending := false
    served := [] }

/-! ## The distance to the counter -/

theorem toNat_ofNat_sub {a b : ℕ} (hle : a ≤ b) (hlt : b < a + 2 ^ 31) :
    (BitVec.ofNat 32 b - BitVec.ofNat 32 a).toNat = b - a := by
  rw [toNat_sub, toNat_ofNat, toNat_ofNat]
  omega

theorem toNat_absDur {now d : ℕ} (hpast : now < d + 2 ^ 31) (hahead : d < now + 2 ^ 31) :
    (absDur (BitVec.ofNat 32 now) (BitVec.ofNat 32 d)).toNat = (d - now) + (now - d) := by
  rw [absDur, toNat_abs, msb_eq_decide, toNat_sub, toNat_ofNat, toNat_ofNat]
  split_ifs with h
  · simp only [decide_eq_true_eq] at h
    omega
  · simp only [decide_eq_true_eq] at h
    omega

end WiseSdk.Systimer
