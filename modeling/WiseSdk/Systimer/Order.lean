import WiseSdk.Systimer.Queue

/-!
# Timers are served in deadline order

The queue is meant to be sorted by deadline with its head in the compare register, and callbacks to
be called in deadline order (`InOrder`). Two steps can break this. A start made while the head is
overdue by more than the new timer's lead puts the new timer in front of it, because both distances
are compared without their sign. And a head that lies more than 0x10000000 ticks ahead, across the
wrap of the counter, is taken for an expired one. `timers_in_order` is the order for all runs
without such steps.
-/

namespace WiseSdk.Systimer

open Library List BitVec

/-! ## What the queue is for -/

/-- `a` is not after `b` in the cyclic order of the 32-bit counter. -/
def notAfter (a b : BitVec 32) : Prop :=
  (b - a).toNat < 2 ^ 31

/-- The queue is sorted in the cyclic order, its head programmed and enabled, and callbacks came in
deadline order. -/
structure InOrder (s : BspTimer) : Prop where
  sorted : s.systimerQ.Pairwise fun a b => notAfter a.expiry b.expiry
  programmed : ∀ timer, s.systimerQ.head? = some timer →
    s.compare = timer.expiry ∧ s.cmpIntrEn = true
  served : s.served.Pairwise fun a b => a.deadline ≤ b.deadline

/-! ## The guards of a step -/

def lateness (s : BspTimer) : ℕ :=
  match s.systimerQ with
  | [] => 0
  | timer :: _ => s.now - timer.deadline

/-- A start names a timer that is not queued and a tick less than 2^31 ahead. -/
def StartOk (s : BspTimer) (id : ℕ) (tick : BitVec 32) : Prop :=
  (∀ timer ∈ s.systimerQ, timer.id ≠ id) ∧ (tick - s.count).toNat < 2 ^ 31

/-- The head is overdue by at most the lead of the new timer, and the two less than 2^31 ticks
apart. -/
def StartInTime (s : BspTimer) (tick : BitVec 32) : Prop :=
  lateness s ≤ (tick - s.count).toNat ∧ lateness s + (tick - s.count).toNat < 2 ^ 31

/-- An interrupt does not take a head that lies ahead for an expired one. -/
def IrqInTime (s : BspTimer) : Prop :=
  ∀ timer, s.systimerQ.head? = some timer → s.now < timer.deadline →
    cmpExpired s.count timer.expiry = false

def OpGuard (s : BspTimer) : TimerOp → Prop
  | .startAt id _ tick => StartOk s id tick ∧ StartInTime s tick
  | .stop _ => True
  | .advance _ => True

def TimerGuard (s : BspTimer) : TimerAction → Prop
  | .op o => OpGuard s o
  | .irq callback => IrqInTime s ∧
      ∀ timer rest, s.systimerQ = timer :: rest →
        cmpExpired s.count timer.expiry = true →
        StepsMeet opStep OpGuard ({ s with plicPending := false }.serve timer rest) callback

/-! ## The invariant of the queue -/

/-- `a` is due no later than `b`, and less than 2^31 ticks before it. -/
def Precedes (a b : Timer) : Prop :=
  a.deadline ≤ b.deadline ∧ b.deadline < a.deadline + 2 ^ 31

/-- The queue is sorted by deadline within half a turn; what was served was due, in order, and
before all that is queued. -/
structure QueueInv (s : BspTimer) : Prop where
  expiry_eq : ∀ timer ∈ s.systimerQ, timer.expiry = BitVec.ofNat 32 timer.deadline
  sorted : s.systimerQ.Pairwise Precedes
  ahead : ∀ timer ∈ s.systimerQ, timer.deadline < s.now + 2 ^ 31
  served : s.served.Pairwise fun a b => a.deadline ≤ b.deadline
  served_due : ∀ a ∈ s.served, a.deadline ≤ s.now
  served_first : ∀ a ∈ s.served, ∀ b ∈ s.systimerQ, a.deadline ≤ b.deadline

def HeadProgrammed (s : BspTimer) : Prop :=
  ∀ timer, s.systimerQ.head? = some timer → s.compare = timer.expiry ∧ s.cmpIntrEn = true

variable {s t : BspTimer} {tick cur : BitVec 32}

theorem QueueInv.inOrder (h : QueueInv s) (hp : HeadProgrammed s) : InOrder s := by
  refine ⟨?_, hp, h.served⟩
  refine h.sorted.imp_of_mem fun {a b} ha hb hab => ?_
  rw [notAfter, h.expiry_eq a ha, h.expiry_eq b hb, toNat_ofNat_sub hab.1 hab.2]
  have := hab.2
  omega

theorem QueueInv.congr (h : QueueInv s) (hq : t.systimerQ = s.systimerQ) (hn : t.now = s.now)
    (hs : t.served = s.served) : QueueInv t := by
  obtain ⟨h₁, h₂, h₃, h₄, h₅, h₆⟩ := h
  exact ⟨hq ▸ h₁, hq ▸ h₂, hq ▸ hn ▸ h₃, hs ▸ h₄, hs ▸ hn ▸ h₅, hs ▸ hq ▸ h₆⟩

theorem QueueInv.programHead (h : QueueInv s) : QueueInv (programHead s) := by
  unfold Systimer.programHead
  split <;> exact h.congr rfl rfl rfl

theorem headProgrammed_programHead (s : BspTimer) : HeadProgrammed (programHead s) := by
  intro timer hhead
  unfold programHead at hhead ⊢
  split at hhead
  next hq => simp [disableCmp, hq] at hhead
  next next rest hq =>
    simp only [setCmp, hq, head?_cons, Option.some.injEq] at hhead ⊢
    exact ⟨by rw [hhead], trivial⟩

/-! ## Insertion -/

variable {q rest : List Timer} {timer x : Timer}

theorem mem_insertTimer : x ∈ insertTimer cur timer q ↔ x = timer ∨ x ∈ q := by
  induction q with
  | nil => simp [insertTimer]
  | cons entry rest ih =>
    unfold insertTimer
    split
    · simp
    · simp only [mem_cons, ih]
      tauto

theorem forall_mem_insertTimer {P : Timer → Prop} :
    (∀ x ∈ insertTimer cur timer q, P x) ↔ P timer ∧ ∀ x ∈ q, P x := by
  simp [mem_insertTimer]

theorem pairwise_insertTimer {now lead late : ℕ}
    (hexp : timer.expiry = BitVec.ofNat 32 timer.deadline) (hdl : timer.deadline = now + lead)
    (hlate : late ≤ lead) (hsum : late + lead < 2 ^ 31)
    (hq : ∀ e ∈ q, e.expiry = BitVec.ofNat 32 e.deadline)
    (hpast : ∀ e ∈ q, now ≤ e.deadline + late) (hahead : ∀ e ∈ q, e.deadline < now + 2 ^ 31)
    (hsorted : q.Pairwise Precedes) :
    (insertTimer (BitVec.ofNat 32 now) timer q).Pairwise Precedes := by
  induction q with
  | nil => simp [insertTimer]
  | cons entry rest ih =>
    have hp := hpast entry mem_cons_self
    have ha := hahead entry mem_cons_self
    obtain ⟨hfirst, hrest⟩ := pairwise_cons.mp hsorted
    have hdur : absDur (BitVec.ofNat 32 now) timer.expiry <
          absDur (BitVec.ofNat 32 now) entry.expiry ↔ now + lead < entry.deadline := by
      rw [lt_def, hexp, hq entry mem_cons_self,
        toNat_absDur (by omega) (by omega), toNat_absDur (by omega) (by omega)]
      omega
    unfold insertTimer
    by_cases hlt : now + lead < entry.deadline
    · rw [if_pos (hdur.mpr hlt)]
      refine pairwise_cons.mpr ⟨fun b hb => ?_, hsorted⟩
      have hb' := hahead b hb
      -- Everything from `entry` on is due after the new timer.
      have hle : entry.deadline ≤ b.deadline := by
        rcases mem_cons.mp hb with rfl | hb
        · exact Nat.le_refl _
        · exact (hfirst b hb).1
      exact ⟨by omega, by omega⟩
    · rw [if_neg fun h => hlt (hdur.mp h)]
      refine pairwise_cons.mpr ⟨fun b hb => ?_, ih
        (fun e he => hq e (mem_cons_of_mem _ he))
        (fun e he => hpast e (mem_cons_of_mem _ he))
        (fun e he => hahead e (mem_cons_of_mem _ he)) hrest⟩
      rcases mem_insertTimer.mp hb with rfl | hb
      · exact ⟨by omega, by omega⟩
      · exact hfirst b hb

theorem head?_insertTimer (cur : BitVec 32) (timer : Timer) (q : List Timer) :
    (insertTimer cur timer q).head? = some timer ∨ (insertTimer cur timer q).head? = q.head? := by
  cases q with
  | nil => exact .inl rfl
  | cons entry rest =>
    unfold insertTimer
    split
    · exact .inl rfl
    · exact .inr rfl

/-! ## One step -/

/-- No queued timer is overdue by more than the head. -/
theorem QueueInv.now_le_add_lateness (h : QueueInv s) (hmem : timer ∈ s.systimerQ) :
    s.now ≤ timer.deadline + lateness s := by
  have hsorted := h.sorted
  unfold lateness
  cases hq : s.systimerQ with
  | nil => simp [hq] at hmem
  | cons head rest =>
    rw [hq] at hmem hsorted
    have hle : head.deadline ≤ timer.deadline := by
      rcases mem_cons.mp hmem with rfl | hmem
      · exact Nat.le_refl _
      · exact ((pairwise_cons.mp hsorted).1 timer hmem).1
    dsimp only
    omega

theorem QueueInv.insert (h : QueueInv s) (id : ℕ) (type : SystimerType) (hin : StartInTime s tick) :
    QueueInv { s with
      systimerQ := insertTimer s.count ⟨id, type, tick, s.deadlineOf tick⟩ s.systimerQ } := by
  obtain ⟨hlate, hsum⟩ := hin
  have hexp : tick = BitVec.ofNat 32 (s.deadlineOf tick) := by
    apply eq_of_toNat_eq
    rw [BspTimer.deadlineOf, BspTimer.count, toNat_sub, toNat_ofNat, toNat_ofNat]
    omega
  have hnow : s.now ≤ s.deadlineOf tick := Nat.le_add_right _ _
  refine ⟨forall_mem_insertTimer.mpr ⟨hexp, h.expiry_eq⟩, ?_,
    forall_mem_insertTimer.mpr ⟨Nat.add_lt_add_left (by omega) _, h.ahead⟩, h.served, h.served_due,
    fun a ha => forall_mem_insertTimer.mpr ⟨(h.served_due a ha).trans hnow, h.served_first a ha⟩⟩
  exact pairwise_insertTimer hexp rfl hlate hsum h.expiry_eq
    (fun e he => h.now_le_add_lateness he) h.ahead h.sorted

theorem QueueInv.sublist (h : QueueInv s) (hsub : q.Sublist s.systimerQ) :
    QueueInv { s with systimerQ := q } :=
  ⟨fun e he => h.expiry_eq e (hsub.subset he), h.sorted.sublist hsub,
    fun e he => h.ahead e (hsub.subset he), h.served, h.served_due,
    fun a ha b hb => h.served_first a ha b (hsub.subset hb)⟩

/-- What an operation keeps: the queue stays in order, and a programmed head stays
programmed. -/
def Keeps (s t : BspTimer) : Prop :=
  QueueInv t ∧ (HeadProgrammed s → HeadProgrammed t)

theorem keeps_startAt {id : ℕ} (type : SystimerType) (h : QueueInv s) (hok : StartOk s id tick)
    (hin : StartInTime s tick) :
    ∃ t, startAt s id type tick = some t ∧ Keeps s t := by
  have hnot : s.systimerQ.any (·.id == id) = false := by
    simpa using hok.1
  have hins := h.insert id type hin
  refine ⟨_, by rw [startAt, hnot]; exact if_neg Bool.false_ne_true, ?_⟩
  split
  next hhead =>
    refine ⟨hins.congr rfl rfl rfl, fun _ timer htimer => ?_⟩
    simp only [setCmp, hhead, Option.some.injEq] at htimer ⊢
    exact ⟨by rw [← htimer], trivial⟩
  next hhead =>
    refine ⟨hins, fun hp timer htimer => hp timer ?_⟩
    rcases head?_insertTimer s.count ⟨id, type, tick, s.deadlineOf tick⟩ s.systimerQ with
      hh | hh
    · exact absurd hh hhead
    · exact hh ▸ htimer

theorem keeps_stop (h : QueueInv s) (id : ℕ) : Keeps s (stop s id) := by
  have herase : QueueInv { s with systimerQ := s.systimerQ.eraseP (·.id == id) } :=
    h.sublist eraseP_sublist
  unfold stop
  split
  · split
    · exact ⟨herase.programHead, fun _ => headProgrammed_programHead _⟩
    next hne =>
      refine ⟨herase, fun hp timer htimer => hp timer ?_⟩
      -- The head is another timer, so it is still the head.
      cases hq : s.systimerQ with
      | nil => simp [hq] at htimer
      | cons head rest =>
        have hid : (head.id == id) = false := by simpa [hq] using hne
        simpa [hq, eraseP_cons, hid] using htimer
  · exact ⟨h, fun hp => hp⟩

theorem keeps_op (o : TimerOp) (h : QueueInv s) (hok : OpGuard s o) :
    ∃ t, opStep s o = some t ∧ Keeps s t := by
  cases o with
  | startAt id type tick => exact keeps_startAt type h hok.1 hok.2
  | stop id => exact ⟨_, rfl, keeps_stop h id⟩
  | advance ticks =>
    refine ⟨_, rfl, ⟨h.expiry_eq, h.sorted, ?_, h.served, ?_, h.served_first⟩, fun hp => hp⟩
    · exact fun e he => Nat.lt_of_lt_of_le (h.ahead e he)
        (Nat.add_le_add_right (Nat.le_add_right _ _) _)
    · exact fun a ha => Nat.le_trans (h.served_due a ha) (Nat.le_add_right _ _)

/-- Taking a due head off the queue keeps the order of the log. -/
theorem QueueInv.serve (h : QueueInv s) (hq : s.systimerQ = timer :: rest)
    (hdue : timer.deadline ≤ s.now) :
    QueueInv ({ s with plicPending := false }.serve timer rest) := by
  have hmem : timer ∈ s.systimerQ := by simp [hq]
  have hsub : rest.Sublist s.systimerQ := by simp [hq]
  have hsorted := h.sorted
  rw [hq] at hsorted
  obtain ⟨h₁, h₂, h₃, _, _, h₆⟩ := h.sublist hsub
  refine ⟨h₁, h₂, h₃, ?_, ?_, ?_⟩
  · refine pairwise_append.mpr ⟨h.served, pairwise_singleton _ _, ?_⟩
    intro a ha b hb
    rw [mem_singleton.mp hb]
    exact h.served_first a ha timer hmem
  · intro a ha
    rcases mem_append.mp ha with ha | ha
    · exact h.served_due a ha
    · rw [mem_singleton.mp ha]
      exact hdue
  · intro a ha b hb
    rcases mem_append.mp ha with ha | ha
    · exact h₆ a ha b hb
    · rw [mem_singleton.mp ha]
      exact ((pairwise_cons.mp hsorted).1 b hb).1

theorem queueInv_ops (h : QueueInv s) {ops : List TimerOp} (hops : StepsMeet opStep OpGuard s ops) :
    ∃ t, runSteps opStep s ops = some t ∧ QueueInv t := by
  refine exists_run_of_stepsMeet (fun _ s => QueueInv s) (fun _ s o hs ho => ?_) h hops
  obtain ⟨t, ht, hinv, _⟩ := keeps_op o hs ho
  exact ⟨t, ht, hinv⟩

theorem irqCmp_cons (hq : s.systimerQ = timer :: rest) (callback : List TimerOp) :
    irqCmp s callback = if cmpExpired s.count timer.expiry then
        (runSteps opStep ({ s with plicPending := false }.serve timer rest) callback).map
          programHead
      else some (programHead { s with plicPending := false }) := by
  simp only [irqCmp, hq]
  rfl

theorem queueInv_irq {callback : List TimerOp} (h : QueueInv s)
    (hok : TimerGuard s (.irq callback)) :
    ∃ t, irqCmp s callback = some t ∧ QueueInv t ∧ HeadProgrammed t := by
  cases hq : s.systimerQ with
  | nil =>
    refine ⟨{ s with plicPending := false }, by simp [irqCmp, hq], h.congr rfl rfl rfl, ?_⟩
    intro timer htimer
    simp [hq] at htimer
  | cons timer rest =>
    cases hexp : cmpExpired s.count timer.expiry with
    | false =>
      exact ⟨_, (irqCmp_cons hq callback).trans (if_neg (by simp [hexp])),
        QueueInv.programHead (h.congr rfl rfl rfl), headProgrammed_programHead _⟩
    | true =>
      have hdue : timer.deadline ≤ s.now := by
        by_contra hlt
        have := hok.1 timer (by rw [hq]; rfl) (by omega)
        exact Bool.false_ne_true (this.symm.trans hexp)
      obtain ⟨t, hrun, hinv⟩ := queueInv_ops (h.serve hq hdue) (hok.2 timer rest hq hexp)
      exact ⟨_, by rw [irqCmp_cons hq, if_pos hexp, hrun, Option.map_some],
        hinv.programHead, headProgrammed_programHead _⟩

/-- **Step.** An action within its guard has a result and keeps the queue in order. -/
theorem queueInv_step (s : BspTimer) (a : TimerAction)
    (h : QueueInv s ∧ HeadProgrammed s) (hok : TimerGuard s a) :
    ∃ t, timerStep s a = some t ∧ QueueInv t ∧ HeadProgrammed t := by
  cases a with
  | op o =>
    obtain ⟨t, ht, hinv, hkeep⟩ := keeps_op o h.1 hok
    exact ⟨t, ht, hinv, hkeep h.2⟩
  | irq callback => exact queueInv_irq h.1 hok

theorem queueInv_probed (now : ℕ) : QueueInv (probed now) ∧ HeadProgrammed (probed now) := by
  refine ⟨⟨?_, ?_, ?_, ?_, ?_, ?_⟩, ?_⟩ <;> simp [probed, HeadProgrammed]

/-! ## Runs -/

/-- **Deadline order.** In every run whose starts do not meet a head more overdue than they lead,
and whose interrupts do not take a head ahead for an expired one, every state has its queue sorted,
its head programmed and its callbacks called in deadline order. -/
theorem timers_in_order (now : ℕ) {acts : List TimerAction}
    (hacts : StepsMeet timerStep TimerGuard (probed now) acts)
    {pre post : List TimerAction} (hpre : acts = pre ++ post) :
    ∃ s, runSteps timerStep (probed now) pre = some s ∧ InOrder s := by
  subst hpre
  obtain ⟨s, hrun, hinv, hp⟩ := exists_run_of_stepsMeet
    (fun _ s => QueueInv s ∧ HeadProgrammed s)
    (fun _ s a hs ha => queueInv_step s a hs ha) (queueInv_probed now) hacts.of_append
  exact ⟨s, hrun, hinv.inOrder hp⟩

/-- Two starts across the wrap, an interrupt 26 ticks late, and a callback that restarts its timer:
the guards hold. -/
theorem timers_in_order_late_irq :
    ∃ s, runSteps timerStep (probed 0xFFFFFFF0)
        [.op (.startAt 1 .wakeupFull 0x10), .op (.startAt 2 .wakeupIdle 0x8),
          .op (.advance 50), .irq [.startAt 2 .wakeupIdle 0x80], .irq []] = some s ∧ InOrder s := by
  refine timers_in_order 0xFFFFFFF0 ?_ (append_nil _).symm
  refine .cons_of_eq ⟨⟨by simp [probed], by decide⟩, by decide, by decide⟩ rfl ?_
  refine .cons_of_eq ⟨⟨by decide, by decide⟩, by decide, by decide⟩ rfl ?_
  refine .cons_of_eq trivial rfl ?_
  refine .cons_of_eq ⟨?_, ?_⟩ rfl ?_
  · rintro timer ⟨⟩ hlt
    exact absurd hlt (by decide)
  · rintro timer rest ⟨⟩ _
    exact .cons_of_eq ⟨⟨by decide, by decide⟩, by decide, by decide⟩ rfl trivial
  refine .cons_of_eq ⟨?_, ?_⟩ rfl trivial
  · rintro timer ⟨⟩ hlt
    exact absurd hlt (by decide)
  · exact fun _ _ _ _ => trivial

/-- **Out of order.** Timer 1 is overdue by 50 ticks when timer 2 is started with a lead of 10:
timer 2 is put in front and served first, timer 1, due 60 ticks earlier, after it. -/
theorem overdue_timer_overtaken :
    ∃ s t, runSteps timerStep (probed 0) [.op (.startAt 1 .wakeupFull 100), .op (.advance 150),
          .op (.startAt 2 .wakeupFull 160)] = some s ∧
      s.systimerQ = [⟨2, .wakeupFull, 160, 160⟩, ⟨1, .wakeupFull, 100, 100⟩] ∧ ¬ InOrder s ∧
      runSteps timerStep s [.op (.advance 10), .irq [], .irq []] = some t ∧
      t.served = [⟨2, .wakeupFull, 160, 160⟩, ⟨1, .wakeupFull, 100, 100⟩] ∧ ¬ InOrder t := by
  refine ⟨_, _, rfl, rfl, ?_, rfl, rfl, ?_⟩
  · intro h
    have := h.sorted
    revert this
    unfold notAfter
    decide
  · intro h
    have := h.served
    revert this
    decide

end WiseSdk.Systimer
