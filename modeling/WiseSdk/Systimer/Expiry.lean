import WiseSdk.Systimer.Queue

/-!
# The expiry test across the wrap of the counter

`scm2010_systimer_set_cmp` and `scm2010_systimer_irq_cmp` decide with one test whether a timer
has expired.  The test first compares counter and expiry as numbers and then the difference
with 0xF0000000, which leaves 2^28 ticks for a distance across the wrap of the counter.  Where
the counter wraps between the two, a timer further ahead than that is taken as expired, and one
that expired longer ago is not.

Counter and deadline are unwrapped ticks, as in the queue's model; the verdict on them is the
verdict on the two words.
-/

namespace WiseSdk.Systimer

/-! ## The two verdicts -/

/-- `scm2010_systimer_set_cmp` takes the timer as expired: it sets the interrupt pending. -/
def SetCmpExpires (s : BspTimer) (timer : Timer) : Prop :=
  (setCmp { s with plicPending := false } timer).plicPending = true

/-- `scm2010_systimer_irq_cmp` takes the head of the queue as expired: its callback is called. -/
def IrqCmpExpires (s : BspTimer) (timer : Timer) : Prop :=
  (irqCmp { s with systimerQ := timer :: s.systimerQ } []).map BspTimer.served =
    some (s.served ++ [timer])

def BspTimer.shift (s : BspTimer) (k : ℕ) : BspTimer :=
  { s with now := s.now + k }

def Timer.shift (timer : Timer) (k : ℕ) : Timer :=
  { timer with
    expiry := timer.expiry + BitVec.ofNat 32 k
    deadline := timer.deadline + k }

/-- **The expiry test is exact** at a counter value: neither function takes the timer as expired
before its deadline, both do from then on, and adding a constant to counter and expiry changes
nothing. -/
structure ExpiryExact (s : BspTimer) (timer : Timer) : Prop where
  not_early : s.now < timer.deadline → ¬SetCmpExpires s timer ∧ ¬IrqCmpExpires s timer
  not_missed : timer.deadline ≤ s.now → SetCmpExpires s timer ∧ IrqCmpExpires s timer
  shift : ∀ k, (SetCmpExpires (s.shift k) (timer.shift k) ↔ SetCmpExpires s timer) ∧
    (IrqCmpExpires (s.shift k) (timer.shift k) ↔ IrqCmpExpires s timer)

/-- The deadline is at most 2^28 ticks ahead, or less than 2^28 ticks back. -/
def Near (s : BspTimer) (timer : Timer) : Prop :=
  timer.deadline ≤ s.now + 2 ^ 28 ∧ s.now < timer.deadline + 2 ^ 28

/-! ## Both verdicts are the one test -/

theorem setCmpExpires_iff (s : BspTimer) (timer : Timer) :
    SetCmpExpires s timer ↔ cmpExpired s.count timer.expiry = true := by
  simp [SetCmpExpires, setCmp, BspTimer.count]

@[simp] theorem served_programHead (s : BspTimer) : (programHead s).served = s.served := by
  rw [programHead]
  split <;> rfl

theorem irqCmpExpires_iff (s : BspTimer) (timer : Timer) :
    IrqCmpExpires s timer ↔ cmpExpired s.count timer.expiry = true := by
  cases hexp : cmpExpired s.count timer.expiry with
  | true =>
    have hcount : cmpExpired (BitVec.ofNat 32 s.now) timer.expiry = true := hexp
    simp [IrqCmpExpires, irqCmp, BspTimer.count, hcount, BspTimer.serve, Library.runSteps]
  | false =>
    have hcount : cmpExpired (BitVec.ofNat 32 s.now) timer.expiry = false := hexp
    simp [IrqCmpExpires, irqCmp, BspTimer.count, hcount]

theorem cmpExpired_ofNat (now deadline : ℕ) :
    cmpExpired (BitVec.ofNat 32 now) (BitVec.ofNat 32 deadline) = true ↔
      (deadline % 2 ^ 32 ≤ now % 2 ^ 32 ∧ now % 2 ^ 32 - deadline % 2 ^ 32 < 0xF0000000) ∨
      (now % 2 ^ 32 < deadline % 2 ^ 32 ∧ 0xF0000000 < deadline % 2 ^ 32 - now % 2 ^ 32) := by
  simp only [cmpExpired, Bool.or_eq_true, Bool.and_eq_true, decide_eq_true_eq, BitVec.le_def,
    BitVec.lt_def, BitVec.toNat_sub, BitVec.toNat_ofNat]
  omega

variable {deadline now : ℕ}

theorem cmpExpired_of_near (hahead : deadline ≤ now + 2 ^ 28) (hback : now < deadline + 2 ^ 28) :
    cmpExpired (BitVec.ofNat 32 now) (BitVec.ofNat 32 deadline) = true ↔ deadline ≤ now := by
  rw [cmpExpired_ofNat]
  omega

/-- A timer further ahead is taken as expired when the counter is about to wrap. -/
theorem cmpExpired_early (hfar : now + 2 ^ 28 < deadline) (hahead : deadline < now + 2 ^ 31)
    (hwrap : now % 2 ^ 32 = 2 ^ 32 - 1) :
    cmpExpired (BitVec.ofNat 32 now) (BitVec.ofNat 32 deadline) = true := by
  rw [cmpExpired_ofNat]
  omega

/-- A timer that expired longer ago, just before the wrap, is not taken as expired. -/
theorem cmpExpired_missed (hfar : deadline + 2 ^ 28 ≤ now) (hback : now < deadline + 2 ^ 31)
    (hwrap : deadline % 2 ^ 32 = 2 ^ 32 - 1) :
    ¬cmpExpired (BitVec.ofNat 32 now) (BitVec.ofNat 32 deadline) = true := by
  rw [cmpExpired_ofNat]
  omega

/-! ## When the test is exact -/

section Exact

variable {s : BspTimer} {timer : Timer}

theorem count_shift (s : BspTimer) (k : ℕ) : (s.shift k).count = BitVec.ofNat 32 (s.now + k) := rfl

theorem expiry_shift (hexp : timer.expiry = BitVec.ofNat 32 timer.deadline) (k : ℕ) :
    (timer.shift k).expiry = BitVec.ofNat 32 (timer.deadline + k) := by
  rw [Timer.shift, hexp, BitVec.ofNat_add]

/-- Some shift of a tick puts it right before the wrap. -/
theorem exists_shift_to_wrap (t : ℕ) : ∃ k, (t + k) % 2 ^ 32 = 2 ^ 32 - 1 :=
  ⟨2 ^ 32 - 1 - t % 2 ^ 32, by omega⟩

/-- **No early and no missed expiry.** For a timer set less than 2^31 ticks ahead and a counter less
than 2^31 ticks after the deadline, the expiry test is exact if and only if the deadline is near. -/
theorem expiry_exact_iff {t : ℕ} (hexp : timer.expiry = BitVec.ofNat 32 timer.deadline)
    (hset : t ≤ s.now) (hahead : timer.deadline < t + 2 ^ 31)
    (hback : s.now < timer.deadline + 2 ^ 31) :
    ExpiryExact s timer ↔ Near s timer := by
  have hcount : s.count = BitVec.ofNat 32 s.now := rfl
  constructor
  · intro h
    refine ⟨?_, ?_⟩
    · by_contra hfar
      -- Shifted to the end of the counter's range, the timer is taken as expired.
      obtain ⟨k, hk⟩ := exists_shift_to_wrap s.now
      have hnot := (h.not_early (by omega)).1
      rw [← (h.shift k).1, setCmpExpires_iff, count_shift, expiry_shift hexp] at hnot
      exact hnot (cmpExpired_early (by omega) (by omega) hk)
    · by_contra hfar
      obtain ⟨k, hk⟩ := exists_shift_to_wrap timer.deadline
      have hyes := (h.not_missed (by omega)).1
      rw [← (h.shift k).1, setCmpExpires_iff, count_shift, expiry_shift hexp] at hyes
      exact cmpExpired_missed (by omega) (by omega) hk hyes
  · rintro ⟨hnear, hrecent⟩
    have htest : ∀ k, cmpExpired (s.shift k).count (timer.shift k).expiry = true ↔
        timer.deadline ≤ s.now := by
      intro k
      rw [count_shift, expiry_shift hexp, cmpExpired_of_near (by omega) (by omega)]
      omega
    have hhere : cmpExpired s.count timer.expiry = true ↔ timer.deadline ≤ s.now := by
      rw [hcount, hexp]
      exact cmpExpired_of_near hnear hrecent
    refine ⟨fun hlt => ?_, fun hle => ?_, fun k => ?_⟩
    · rw [setCmpExpires_iff, irqCmpExpires_iff, hhere]
      exact ⟨Nat.not_le.mpr hlt, Nat.not_le.mpr hlt⟩
    · rw [setCmpExpires_iff, irqCmpExpires_iff, hhere]
      exact ⟨hle, hle⟩
    · simp only [setCmpExpires_iff, irqCmpExpires_iff, htest, hhere, and_self]

end Exact

/-- A second at 20 MHz, across the wrap of the counter. -/
theorem expiry_exact_across_wrap :
    let s := probed 0xFFFFFFF0
    let timer : Timer := ⟨0, .wakeupFull, 0x1312CF0#32, 0x101312CF0⟩
    Near s timer ∧ ExpiryExact s timer := by
  intro s timer
  have hnear : Near s timer := by
    unfold Near
    decide
  have hexp : timer.expiry = BitVec.ofNat 32 timer.deadline := by decide
  exact ⟨hnear, (expiry_exact_iff (t := 0xFFFFFFF0) hexp (by decide) (by decide)
    (by decide)).mpr hnear⟩

/-- **Early and missed.** At 0xF0000000, a timer 0x50000000 ticks ahead is taken as expired at once
by both functions. One that expired at 0xF0000000 is not taken so 0x50000000 ticks later. -/
theorem expires_early_and_missed :
    let ahead : Timer := ⟨0, .wakeupFull, 0x40000000#32, 0x140000000⟩
    let past : Timer := ⟨0, .wakeupFull, 0xF0000000#32, 0xF0000000⟩
    ((probed 0xF0000000).now < ahead.deadline ∧ SetCmpExpires (probed 0xF0000000) ahead ∧
      IrqCmpExpires (probed 0xF0000000) ahead) ∧
    (past.deadline ≤ (probed 0x140000000).now ∧ ¬SetCmpExpires (probed 0x140000000) past ∧
      ¬IrqCmpExpires (probed 0x140000000) past) := by
  simp only [setCmpExpires_iff, irqCmpExpires_iff]
  decide

end WiseSdk.Systimer
