import WiseSdk.Pm.IdleTime

/-!
# No sleep past a deadline

The planned wakeup is meant to lie after now and not past any deadline (`InTime`,
`NotPastHead`).  A time that is not after the `mtime` reading makes the unsigned idle
duration huge, and the cap then turns it into 23 hours; an overdue head timer is planned for
as far ahead as it is late.  `planned_in_time_iff` is the exact condition on the times the
plan is made from.
-/

namespace WiseSdk.Pm

open BitVec hiding and_assoc

open Systimer (Timer SystimerType absDur)

/-! ## What the plan is for -/

/-- The planned wakeup lies after now and not past the OS compare value, the other core's wakeup or
23 hours; a second wakeup is not before the first nor past those two. -/
structure InTime (cfg : PmConfig) (ctx : PwrMgmtCtx) (mtimecmp : BitVec 64) : Prop where
  after_now : ctx.mtime < ctx.wtime
  le_mtimecmp : ctx.wtime ≤ mtimecmp
  le_peer : cfg.pmMultiCore = true → ctx.wtime ≤ ctx.peerWtime
  le_max : ctx.wtime.toNat ≤ ctx.mtime.toNat + pmMaxLowpowerMtimeDuration
  watcher : ctx.wtype = .watcher → ctx.wtime ≤ ctx.wtimeNext ∧ ctx.wtimeNext ≤ mtimecmp ∧
    (cfg.pmMultiCore = true → ctx.wtimeNext ≤ ctx.peerWtime)

/-- The wakeup is not past the expiry of the head timer, in half ticks of `mtime`, by the signed
difference to the counter. -/
def NotPastHead (r : ClockReads) (q : List Timer) (wtime : ℕ) : Prop :=
  ∀ timer ∈ q.head?,
    2 * (wtime : ℤ) ≤ 2 * (r.counted.toNat : ℤ) + (timer.expiry - r.count).toInt

/-! ## The two last steps -/

/-- The plan before the other core and the cap: `wtime` and the peer's time are after now, and a
second wakeup before the first is overruled by either. -/
@[mk_iff] structure Ahead (cfg : PmConfig) (ctx : PwrMgmtCtx) : Prop where
  after_now : ctx.mtime.toNat < ctx.wtime.toNat
  peer_after : cfg.pmMultiCore = true → ctx.mtime.toNat < ctx.peerWtime.toNat
  next_after : ctx.wtimeNext ≠ 0#64 → ctx.wtimeNext.toNat < ctx.wtime.toNat →
    (cfg.pmMultiCore = true ∧ ctx.peerWtime.toNat < ctx.wtimeNext.toNat) ∨
      (ctx.mtime.toNat + pmMaxLowpowerMtimeDuration < ctx.wtime.toNat ∧ (cfg.pmMultiCore = true →
          ctx.mtime.toNat + pmMaxLowpowerMtimeDuration ≤ ctx.peerWtime.toNat))

def finishPlan (cfg : PmConfig) (ctx : PwrMgmtCtx) : PwrMgmtCtx :=
  capIdleDur (lowerToPeer cfg (chooseWtype ctx))

theorem pmMax_eq : pmMaxLowpowerMtimeDuration = 827999900000 := by decide

theorem capIdleDur_iff (ctx : PwrMgmtCtx) :
    BitVec.ofNat 64 pmMaxLowpowerMtimeDuration < ctx.wtime - ctx.mtime ↔
      (ctx.mtime.toNat + pmMaxLowpowerMtimeDuration < ctx.wtime.toNat ∨
        (ctx.wtime.toNat < ctx.mtime.toNat ∧
          ctx.mtime.toNat + pmMaxLowpowerMtimeDuration < ctx.wtime.toNat + 2 ^ 64)) := by
  rw [lt_def, toNat_sub, toNat_ofNat, pmMax_eq]
  omega

theorem toNat_mtime_add_max (mtime : BitVec 64) :
    (mtime + BitVec.ofNat 64 pmMaxLowpowerMtimeDuration).toNat =
      if mtime.toNat + pmMaxLowpowerMtimeDuration < 2 ^ 64 then
        mtime.toNat + pmMaxLowpowerMtimeDuration
      else mtime.toNat + pmMaxLowpowerMtimeDuration - 2 ^ 64 := by
  rw [toNat_add, toNat_ofNat, pmMax_eq]
  split_ifs <;> omega

/-- The plan with its distance from now capped at 23 hours, without overflow. -/
def cappedWtime (ctx : PwrMgmtCtx) : ℕ :=
  min ctx.wtime.toNat (ctx.mtime.toNat + pmMaxLowpowerMtimeDuration)

variable {ctx ctx' : PwrMgmtCtx} {rest : List Timer} {timer nextTimer : Timer} {t s : ℕ}

theorem capIdleDur_wtime (h : ctx.mtime.toNat < ctx.wtime.toNat) :
    (capIdleDur ctx).wtime.toNat = cappedWtime ctx := by
  have hiff := capIdleDur_iff ctx
  have hadd := toNat_mtime_add_max ctx.mtime
  unfold capIdleDur cappedWtime
  split_ifs with hcap
  · rw [hiff] at hcap
    rw [hadd, if_pos (by omega), Nat.min_eq_right (by omega)]
  · rw [hiff] at hcap
    rw [Nat.min_eq_left (by omega)]

/-- What the cap needs to give a plan that is in time. -/
@[mk_iff] structure Fits (cfg : PmConfig) (ctx : PwrMgmtCtx) (mtimecmp : BitVec 64) : Prop where
  after_now : ctx.mtime.toNat < ctx.wtime.toNat
  le_mtimecmp : cappedWtime ctx ≤ mtimecmp.toNat
  le_peer : cfg.pmMultiCore = true → cappedWtime ctx ≤ ctx.peerWtime.toNat
  watcher : ctx.wtime.toNat ≤ ctx.mtime.toNat + pmMaxLowpowerMtimeDuration →
    ctx.wtype = .watcher → ctx.wtime.toNat ≤ ctx.wtimeNext.toNat ∧
      ctx.wtimeNext.toNat ≤ mtimecmp.toNat ∧
      (cfg.pmMultiCore = true → ctx.wtimeNext.toNat ≤ ctx.peerWtime.toNat)

theorem capIdleDur_frame (ctx : PwrMgmtCtx) :
    (capIdleDur ctx).mtime = ctx.mtime ∧ (capIdleDur ctx).peerWtime = ctx.peerWtime := by
  obtain ⟨_, _, _, heq⟩ := capIdleDur_replanned ctx
  rw [heq]
  exact ⟨rfl, rfl⟩

section

variable {cfg : PmConfig} {ctx : PwrMgmtCtx}
  (hpast : ctx.wtime.toNat < ctx.mtime.toNat →
    2 ^ 64 ≤ ctx.mtime.toNat + pmMaxLowpowerMtimeDuration ∨
      (cfg.pmMultiCore = true ∧ ctx.peerWtime.toNat ≤ ctx.wtime.toNat)) {mtimecmp : BitVec 64}

include hpast

/-- A capped plan that is in time lay after now before the cap. -/
theorem after_now_of_inTime (h : InTime cfg (capIdleDur ctx) mtimecmp) :
    ctx.mtime.toNat < ctx.wtime.toNat := by
  have hadd := toNat_mtime_add_max ctx.mtime
  by_contra hnot
  obtain ⟨h₁, _, h₃, _, _⟩ := h
  rw [lt_def] at h₁
  unfold capIdleDur at h₁ h₃
  split_ifs at h₁ h₃ with hcap
  · rw [capIdleDur_iff ctx] at hcap
    dsimp only at h₁ h₃
    rw [le_def, hadd] at h₃
    rw [hadd] at h₁
    split_ifs at h₁ h₃ with hover
    · rcases hpast (by omega) with hp | ⟨hmc, hp⟩
      · omega
      · have := h₃ hmc
        omega
    · omega
  · omega

/-- **The cap.** A plan in the past becomes 23 hours from now; where that is not before some other
deadline, the capped plan is in time only if the plan itself lies after now. -/
theorem inTime_capIdleDur_iff : InTime cfg (capIdleDur ctx) mtimecmp ↔ Fits cfg ctx mtimecmp := by
  have hiff := capIdleDur_iff ctx
  constructor
  · intro h
    have hafter := after_now_of_inTime hpast h
    have hw := capIdleDur_wtime hafter
    refine ⟨hafter, ?_, ?_, ?_⟩
    · rw [← hw]
      exact h.le_mtimecmp
    · intro hmc
      rw [← hw, ← (capIdleDur_frame ctx).2]
      exact h.le_peer hmc
    · intro hle htype
      have hnocap : ¬ BitVec.ofNat 64 pmMaxLowpowerMtimeDuration < ctx.wtime - ctx.mtime := by
        rw [hiff]
        omega
      have := h.watcher
      rw [capIdleDur, if_neg hnocap] at this
      exact this htype
  · intro h
    have hw := capIdleDur_wtime h.after_now
    obtain ⟨hmtime, hpeer⟩ := capIdleDur_frame ctx
    refine ⟨?_, ?_, ?_, ?_, ?_⟩
    · rw [lt_def, hw, hmtime, cappedWtime]
      have := h.after_now
      have := pmMax_eq
      omega
    · rw [le_def, hw]
      exact h.le_mtimecmp
    · intro hmc
      rw [le_def, hw, hpeer]
      exact h.le_peer hmc
    · rw [hw, hmtime]
      exact Nat.min_le_right _ _
    · intro htype
      unfold capIdleDur at htype ⊢
      split_ifs at htype ⊢ with hcap
      exact h.watcher (by rw [hiff] at hcap; omega) htype

end

variable {mtimecmp wt : BitVec 64}

/-- **The other core.**  Whether the lowered plan fits is decided by the times it is lowered
to. -/
theorem fits_lowerToPeer_iff (cfg : PmConfig) (hw : ctx.wtime.toNat ≤ mtimecmp.toNat)
    (hn : ctx.wtimeNext.toNat ≤ mtimecmp.toNat) :
    Fits cfg (lowerToPeer cfg (chooseWtype ctx)) mtimecmp ↔ Ahead cfg ctx := by
  have hmax := pmMax_eq
  rw [fits_iff, ahead_iff]
  by_cases hn0 : ctx.wtimeNext = 0#64
  · have htype : chooseWtype ctx = { ctx with wtype := .full } := by simp [chooseWtype, hn0]
    rw [htype]
    cases hmc : cfg.pmMultiCore with
    | false =>
      simp only [lowerToPeer, hmc, cappedWtime, hn0, Bool.false_eq_true, if_false]
      simp
      omega
    | true =>
      simp only [lowerToPeer, hmc, cappedWtime, hn0, if_true, lt_def]
      split_ifs <;>
      · simp
        omega
  have htype : chooseWtype ctx = { ctx with wtype := .watcher } := by
    simp [chooseWtype, hn0]
  rw [htype]
  cases hmc : cfg.pmMultiCore with
  | false =>
    simp only [lowerToPeer, hmc, cappedWtime, Bool.false_eq_true, if_false]
    simp [hn0]
    omega
  | true =>
    simp only [lowerToPeer, hmc, cappedWtime, if_true, lt_def]
    split_ifs <;>
    · simp [hn0]
      omega

theorem lowerToPeer_wtime (cfg : PmConfig) (ctx : PwrMgmtCtx) :
    (lowerToPeer cfg ctx).wtime = ctx.wtime ∨
      (cfg.pmMultiCore = true ∧ (lowerToPeer cfg ctx).wtime = ctx.peerWtime) := by
  unfold lowerToPeer
  cases cfg.pmMultiCore with
  | false => exact .inl rfl
  | true =>
    simp only [if_true]
    split <;> split_ifs <;> first | exact .inl rfl | exact .inr ⟨trivial, rfl⟩

theorem lowerToPeer_frame (cfg : PmConfig) (ctx : PwrMgmtCtx) :
    (lowerToPeer cfg ctx).mtime = ctx.mtime ∧ (lowerToPeer cfg ctx).peerWtime = ctx.peerWtime := by
  obtain ⟨_, _, _, heq⟩ := lowerToPeer_replanned cfg ctx
  rw [heq]
  exact ⟨rfl, rfl⟩

def earliestNat (cfg : PmConfig) (ctx : PwrMgmtCtx) : ℕ :=
  min (if cfg.pmMultiCore then min ctx.wtime.toNat ctx.peerWtime.toNat else ctx.wtime.toNat)
    (ctx.mtime.toNat + pmMaxLowpowerMtimeDuration)

variable {cfg : PmConfig}

/-- A plan that is ahead is lowered to the earliest of its times. -/
theorem finishPlan_wtime (h : Ahead cfg ctx)
    (hfits : Fits cfg (lowerToPeer cfg (chooseWtype ctx)) mtimecmp) :
    (finishPlan cfg ctx).wtime.toNat = earliestNat cfg ctx := by
  rw [finishPlan, capIdleDur_wtime hfits.after_now, cappedWtime, earliestNat]
  rw [(lowerToPeer_frame cfg (chooseWtype ctx)).1]
  obtain ⟨h₁, h₂, h₃⟩ := h
  cases hmc : cfg.pmMultiCore with
  | false =>
    rw [(lowerToPeer_wtime cfg (chooseWtype ctx)).resolve_right (by simp [hmc])]
    rfl
  | true =>
    by_cases hn0 : ctx.wtimeNext = 0#64
    · simp only [lowerToPeer, hmc, chooseWtype, hn0, if_true, lt_def, ne_eq,
        not_true_eq_false, if_false]
      split_ifs with h
      · rw [Nat.min_eq_right h.le]
      · rw [Nat.min_eq_left (Nat.not_lt.mp h)]
    have hnext := h₃ hn0
    simp only [lowerToPeer, hmc, chooseWtype, if_true, lt_def, ne_eq, hn0, not_false_eq_true]
    split_ifs with h h'
    · rw [Nat.min_eq_right h'.le]
    · rw [Nat.min_eq_left (Nat.not_lt.mp h')]
    · -- The second wakeup is not past the other core's time, nor is the first, unless the
      -- cap comes before both.
      rcases Nat.le_total ctx.wtime.toNat ctx.peerWtime.toNat with hle | hle
      · rw [Nat.min_eq_left hle]
      rw [Nat.min_eq_right hle]
      by_cases hbefore : ctx.wtimeNext.toNat < ctx.wtime.toNat
      · obtain ⟨hcap, hpeer⟩ := (hnext hbefore).resolve_left fun hlt => h hlt.2
        rw [Nat.min_eq_right hcap.le, Nat.min_eq_right (hpeer hmc)]
      · rw [show ctx.wtime.toNat = ctx.peerWtime.toNat by omega]

/-! ## The system timer -/

/-- A timer's expiry as a machine time: half the distance to the counter, on either side, is added
to the reading. -/
def wakeupNat (mtime : BitVec 64) (count expiry : BitVec 32) : ℕ :=
  (mtime.toNat + (expiry - count).toInt.natAbs / 2) % 2 ^ 64

theorem toNat_abs_eq_natAbs (x : BitVec 32) : x.abs.toNat = x.toInt.natAbs := by
  rw [toNat_abs, msb_eq_decide, toInt_eq_toNat_cond]
  by_cases h : 2 ^ (32 - 1) ≤ x.toNat
  · rw [if_pos (by simpa using h), if_neg (by omega)]
    omega
  · rw [if_neg (by simpa using h), if_pos (by omega)]
    omega

theorem toNat_wakeupTime (mtime : BitVec 64) (count expiry : BitVec 32) :
    (wakeupTime mtime count expiry).toNat = wakeupNat mtime count expiry := by
  have habs := toNat_abs_eq_natAbs (expiry - count)
  rw [wakeupTime, wakeupNat, toNat_add, toNat_setWidth, toNat_udiv, absDur,
    habs, Nat.mod_eq_of_lt (a := _ / _)]
  · rfl
  · exact Nat.lt_of_le_of_lt (Nat.div_le_self _ _) (by omega)

/-- The times of the first and the second planned wakeup, where the second comes first. -/
def nextBefore (mtimecmp : BitVec 64) (q : List Timer) (r : ClockReads) : Option (ℕ × ℕ) :=
  match q with
  | timer :: nextTimer :: _ =>
    let first := wakeupNat r.head r.count timer.expiry
    let second := wakeupNat r.next r.count nextTimer.expiry
    if timer.type = .wakeupIdle ∧ first < mtimecmp.toNat ∧ second ≠ 0 ∧ second < first then
      some (first, second)
    else none
  | _ => none

variable {r : ClockReads}

theorem nextBefore_cons_some {first second : ℕ} :
    nextBefore mtimecmp (timer :: nextTimer :: rest) r = some (first, second) ↔
      first = wakeupNat r.head r.count timer.expiry ∧
      second = wakeupNat r.next r.count nextTimer.expiry ∧ timer.type = .wakeupIdle ∧
      wakeupNat r.head r.count timer.expiry < mtimecmp.toNat ∧ second ≠ 0 ∧ second < first := by
  unfold nextBefore
  dsimp only
  split_ifs with h
  · rw [Option.some.injEq, Prod.mk.injEq]
    constructor
    · rintro ⟨rfl, rfl⟩
      exact ⟨rfl, rfl, h⟩
    · rintro ⟨rfl, rfl, _⟩
      exact ⟨rfl, rfl⟩
  · refine ⟨fun h' => absurd h' (by simp), ?_⟩
    rintro ⟨rfl, rfl, h'⟩
    exact absurd h' h

theorem nextBefore_cons_none (htype : timer.type = .wakeupIdle)
    (hlt : wakeupNat r.head r.count timer.expiry < mtimecmp.toNat)
    (h : nextBefore mtimecmp (timer :: nextTimer :: rest) r = none)
    (hne : wakeupNat r.next r.count nextTimer.expiry ≠ 0) :
    wakeupNat r.head r.count timer.expiry ≤ wakeupNat r.next r.count nextTimer.expiry := by
  by_contra hbefore
  rw [nextBefore_cons_some.mpr ⟨rfl, rfl, htype, hlt, hne, Nat.not_le.mp hbefore⟩] at h
  exact absurd h (by simp)

theorem nextBefore_eq_none (h : timer.type = .wakeupFull ∨
      mtimecmp.toNat ≤ wakeupNat r.head r.count timer.expiry) :
    nextBefore mtimecmp (timer :: rest) r = none := by
  cases rest with
  | nil => rfl
  | cons nextTimer rest =>
    refine if_neg ?_
    rintro ⟨htype, hlt, -⟩
    rcases h with hfull | hle
    · rw [hfull] at htype
      cases htype
    · exact absurd hlt (Nat.not_lt.mpr hle)

/-- What the head of the timer queue makes of the OS compare value. -/
def loweredNat (mtimecmp : BitVec 64) (q : List Timer) (r : ClockReads) : ℕ :=
  match q.head? with
  | none => mtimecmp.toNat
  | some timer => min mtimecmp.toNat (wakeupNat r.head r.count timer.expiry)

/-- The plan after the timer queue has been looked at. -/
structure Lowered (mtimecmp : BitVec 64) (q : List Timer) (r : ClockReads)
    (peerWtime : BitVec 64) (ctx : PwrMgmtCtx) : Prop where
  mtime : ctx.mtime = r.idle
  peerWtime : ctx.peerWtime = peerWtime
  wtime : ctx.wtime.toNat = loweredNat mtimecmp q r
  next_le : ctx.wtimeNext.toNat ≤ mtimecmp.toNat
  next_eq : ∀ first second, nextBefore mtimecmp q r = some (first, second) →
    ctx.wtime.toNat = first ∧ ctx.wtimeNext.toNat = second ∧ second ≠ 0 ∧ second < first
  next_none : nextBefore mtimecmp q r = none → ctx.wtimeNext ≠ 0#64 →
    ctx.wtime.toNat ≤ ctx.wtimeNext.toNat
  threshold : ctx.wtime.toNat ≤ r.idle.toNat →
    2 ^ 64 ≤ r.idle.toNat + pmMaxLowpowerMtimeDuration

theorem Lowered.of_next_zero {peerWtime : BitVec 64} {q : List Timer}
    (hmtime : ctx.mtime = r.idle) (hpeer : ctx.peerWtime = peerWtime)
    (hwtime : ctx.wtime.toNat = loweredNat mtimecmp q r) (hnext : ctx.wtimeNext = 0#64)
    (hnone : nextBefore mtimecmp q r = none)
    (hthr : ctx.wtime.toNat ≤ r.idle.toNat → 2 ^ 64 ≤ r.idle.toNat + pmMaxLowpowerMtimeDuration) :
    Lowered mtimecmp q r peerWtime ctx where
  mtime := hmtime
  peerWtime := hpeer
  wtime := hwtime
  next_le := by
    rw [hnext]
    exact Nat.zero_le _
  next_eq first second hb := by
    rw [hnone] at hb
    cases hb
  next_none _ hne := absurd hnext hne
  threshold := hthr

theorem toNat_wtimeNext (wt mtimecmp : BitVec 64) :
    (if true && decide (wt < mtimecmp) then wt else mtimecmp).toNat =
      min wt.toNat mtimecmp.toNat := by
  simp only [Bool.true_and, decide_eq_true_eq, lt_def]
  split_ifs with hlt
  · exact (Nat.min_eq_left hlt.le).symm
  · exact (Nat.min_eq_right (Nat.not_lt.mp hlt)).symm

theorem of_not_overSleepThreshold (h : overSleepThreshold cfg ctx wt = false)
    (hle : wt.toNat ≤ ctx.mtime.toNat) : 2 ^ 64 ≤ ctx.mtime.toNat + pmMaxLowpowerMtimeDuration := by
  have hbound : pmDefaultSleepThreshold cfg = 9000 ∨ pmDefaultSleepThreshold cfg = 29000 := by
    unfold pmDefaultSleepThreshold
    cases cfg.sdioPm <;> simp
  rw [overSleepThreshold, decide_eq_false_iff_not, lt_def, toNat_add,
    pmUsecToMtime_toNat, toNat_ofNat, xtaltime_eq] at h
  have hmax := pmMax_eq
  omega

theorem lowerToSystimer_some {info : SystimerWakeupInfo} {b c : PwrMgmtCtx}
    (h : lowerToSystimer cfg mtimecmp info b = some c) :
    (b.wtime ≤ info.wtime ∧ c = b) ∨ (info.wtime < b.wtime ∧
        overSleepThreshold cfg { b with wtime := info.wtime } info.wtime = false ∧
        ((info.wtype = .wakeupFull ∧ c = { b with wtime := info.wtime }) ∨
          (info.wtype = .wakeupIdle ∧ c = { b with
            wtime := info.wtime
            wtimeNext := if info.wtimeNextValid && decide (info.wtimeNext < mtimecmp)
              then info.wtimeNext else mtimecmp }))) := by
  unfold lowerToSystimer at h
  split at h
  next hlt =>
    dsimp only at h
    split at h
    next => exact absurd h (by simp)
    next hover =>
      refine .inr ⟨hlt, by simpa using hover, ?_⟩
      cases htype : info.wtype with
      | wakeupFull =>
        rw [htype] at h
        exact .inl ⟨rfl, (Option.some.inj h).symm⟩
      | wakeupIdle =>
        rw [htype] at h
        exact .inr ⟨rfl, (Option.some.inj h).symm⟩
  next hle => exact .inl ⟨BitVec.not_lt.mp hle, (Option.some.inj h).symm⟩

variable {q : List Timer}

/-- **The timer queue.** What `pm_update_idle_time` plans is the last two steps applied to a plan
lowered to the head of the queue. -/
theorem lowered_of_pmUpdateIdleTime (h : pmUpdateIdleTime cfg ctx mtimecmp q r = some ctx') :
    ∃ c, ctx' = finishPlan cfg c ∧ Lowered mtimecmp q r ctx.peerWtime c := by
  unfold pmUpdateIdleTime at h
  dsimp only at h
  split at h
  next => exact absurd h (by simp)
  next hover =>
    rw [Option.map_eq_some_iff] at h
    obtain ⟨c, hc, rfl⟩ := h
    refine ⟨c, rfl, ?_⟩
    have hthr := of_not_overSleepThreshold (Bool.eq_false_iff.mpr hover)
    match q with
    | [] =>
      cases hc
      exact .of_next_zero rfl rfl rfl rfl rfl hthr
    | [timer] =>
      have hw := toNat_wakeupTime r.head r.count timer.expiry
      rcases lowerToSystimer_some hc with
        ⟨hle, rfl⟩ | ⟨hlt, hnot, ⟨htype, rfl⟩ | ⟨htype, rfl⟩⟩
      · rw [le_def, hw] at hle
        exact .of_next_zero rfl rfl (Nat.min_eq_left hle).symm rfl rfl hthr
      · rw [lt_def, hw] at hlt
        exact .of_next_zero rfl rfl (hw.trans (Nat.min_eq_right hlt.le).symm) rfl rfl
          (of_not_overSleepThreshold hnot)
      · rw [lt_def, hw] at hlt
        refine ⟨rfl, rfl, hw.trans (Nat.min_eq_right hlt.le).symm, ?_,
          by simp [nextBefore], fun _ _ => ?_, of_not_overSleepThreshold hnot⟩
        · simp
        · rw [hw]
          simpa using hlt.le
    | timer :: nextTimer :: rest =>
      have hw := toNat_wakeupTime r.head r.count timer.expiry
      rcases lowerToSystimer_some hc with
        ⟨hle, rfl⟩ | ⟨hlt, hnot, ⟨htype, rfl⟩ | ⟨htype, rfl⟩⟩
      · rw [le_def, hw] at hle
        exact .of_next_zero rfl rfl (Nat.min_eq_left hle).symm rfl
          (nextBefore_eq_none (.inr hle)) hthr
      · rw [lt_def, hw] at hlt
        exact .of_next_zero rfl rfl (hw.trans (Nat.min_eq_right hlt.le).symm) rfl
          (nextBefore_eq_none (.inl htype)) (of_not_overSleepThreshold hnot)
      · rw [lt_def, hw] at hlt
        have hnext := toNat_wtimeNext (wakeupTime r.next r.count nextTimer.expiry) mtimecmp
        rw [toNat_wakeupTime r.next r.count nextTimer.expiry] at hnext
        refine ⟨rfl, rfl, hw.trans (Nat.min_eq_right hlt.le).symm, ?_, ?_, ?_,
          of_not_overSleepThreshold hnot⟩
        · exact hnext.trans_le (Nat.min_le_right _ _)
        · intro first second hb
          obtain ⟨rfl, rfl, _, _, hne, hbefore⟩ := nextBefore_cons_some.mp hb
          exact ⟨hw, hnext.trans (Nat.min_eq_left (hbefore.trans hlt).le), hne, hbefore⟩
        · intro hb hne
          have hne' := mt (eq_of_toNat_eq (y := 0#64)) hne
          rw [hnext] at hne'
          refine (hw.trans_le ?_).trans hnext.ge
          refine Nat.le_min.mpr ⟨nextBefore_cons_none htype hlt hb fun hzero => ?_, hlt.le⟩
          exact hne' (by rw [hzero]; exact Nat.zero_min _)

/-! ## The condition -/

def sources (cfg : PmConfig) (ctx : PwrMgmtCtx) (mtimecmp : BitVec 64) (q : List Timer)
    (r : ClockReads) : List ℕ :=
  mtimecmp.toNat :: ((q.head?.map fun timer => wakeupNat r.head r.count timer.expiry).toList ++
    if cfg.pmMultiCore then [ctx.peerWtime.toNat] else [])

/-- All times lie after the `mtime` reading; one of them, or the cap, is not past the head timer's
expiry; and a second timer before the first is overruled by the other core or the cap. -/
structure SourcesInTime (cfg : PmConfig) (ctx : PwrMgmtCtx) (mtimecmp : BitVec 64)
    (q : List Timer) (r : ClockReads) : Prop where
  after_now : ∀ t ∈ sources cfg ctx mtimecmp q r, r.idle.toNat < t
  head : ∃ t ∈ (r.idle.toNat + pmMaxLowpowerMtimeDuration) :: sources cfg ctx mtimecmp q r,
    NotPastHead r q t
  next : ∀ first second, nextBefore mtimecmp q r = some (first, second) →
    (cfg.pmMultiCore = true ∧ ctx.peerWtime.toNat < second) ∨
      (r.idle.toNat + pmMaxLowpowerMtimeDuration < first ∧ (cfg.pmMultiCore = true →
          r.idle.toNat + pmMaxLowpowerMtimeDuration ≤ ctx.peerWtime.toNat))

def planNat (cfg : PmConfig) (ctx : PwrMgmtCtx) (mtimecmp : BitVec 64) (q : List Timer)
    (r : ClockReads) : ℕ :=
  min (if cfg.pmMultiCore then min (loweredNat mtimecmp q r) ctx.peerWtime.toNat
      else loweredNat mtimecmp q r)
    (r.idle.toNat + pmMaxLowpowerMtimeDuration)

theorem NotPastHead.mono (h : NotPastHead r q t) (hle : s ≤ t) : NotPastHead r q s := by
  intro timer htimer
  have := h timer htimer
  omega

theorem loweredNat_lt_iff : t < loweredNat mtimecmp q r ↔ t < mtimecmp.toNat ∧
      ∀ timer ∈ q.head?, t < wakeupNat r.head r.count timer.expiry := by
  unfold loweredNat
  cases q.head? <;> simp

theorem sources_after_iff : (∀ u ∈ sources cfg ctx mtimecmp q r, t < u) ↔
      t < loweredNat mtimecmp q r ∧ (cfg.pmMultiCore = true → t < ctx.peerWtime.toNat) := by
  rw [loweredNat_lt_iff]
  unfold sources
  cases q.head? with
  | none => cases cfg.pmMultiCore <;> simp
  | some timer => cases cfg.pmMultiCore <;> simp [and_assoc]

theorem min_mem {l : List ℕ} {a b : ℕ} (ha : a ∈ l) (hb : b ∈ l) : min a b ∈ l := by
  rcases min_choice a b with h | h <;> rwa [h]

theorem planNat_mem (cfg : PmConfig) (ctx : PwrMgmtCtx) (mtimecmp : BitVec 64)
    (q : List Timer) (r : ClockReads) :
    planNat cfg ctx mtimecmp q r ∈
      (r.idle.toNat + pmMaxLowpowerMtimeDuration) :: sources cfg ctx mtimecmp q r := by
  have hlow : loweredNat mtimecmp q r ∈
      (r.idle.toNat + pmMaxLowpowerMtimeDuration) :: sources cfg ctx mtimecmp q r := by
    unfold loweredNat sources
    cases q.head? with
    | none => simp
    | some timer => exact min_mem (by simp) (by simp)
  refine min_mem ?_ List.mem_cons_self
  split_ifs with hmc
  · exact min_mem hlow (by simp [sources, hmc])
  · exact hlow

theorem exists_notPastHead_iff :
    (∃ t ∈ (r.idle.toNat + pmMaxLowpowerMtimeDuration) :: sources cfg ctx mtimecmp q r,
      NotPastHead r q t) ↔ NotPastHead r q (planNat cfg ctx mtimecmp q r) := by
  constructor
  · rintro ⟨t, hmem, ht⟩
    refine ht.mono ?_
    rcases List.mem_cons.mp hmem with rfl | hmem
    · exact Nat.min_le_right _ _
    by_contra hlt
    have hlt : t < planNat cfg ctx mtimecmp q r := Nat.not_le.mp hlt
    -- A time below the plan is below every source, itself among them.
    refine Nat.lt_irrefl t (sources_after_iff.mpr ?_ t hmem)
    have hlow := Nat.lt_of_lt_of_le hlt (Nat.min_le_left _ _)
    cases hmc : cfg.pmMultiCore with
    | false => exact ⟨by simpa [hmc] using hlow, by simp⟩
    | true =>
      rw [if_pos hmc, Nat.lt_min] at hlow
      exact ⟨hlow.1, fun _ => hlow.2⟩
  · exact fun h => ⟨_, planNat_mem cfg ctx mtimecmp q r, h⟩

theorem loweredNat_le (mtimecmp : BitVec 64) (q : List Timer) (r : ClockReads) :
    loweredNat mtimecmp q r ≤ mtimecmp.toNat := by
  unfold loweredNat
  cases q.head? with
  | none => exact Nat.le_refl _
  | some timer => exact Nat.min_le_left _ _

variable {c : PwrMgmtCtx}

theorem Lowered.past_plan (h : Lowered mtimecmp q r ctx.peerWtime c) (cfg : PmConfig) :
    (lowerToPeer cfg (chooseWtype c)).wtime.toNat < (lowerToPeer cfg (chooseWtype c)).mtime.toNat →
      2 ^ 64 ≤ (lowerToPeer cfg (chooseWtype c)).mtime.toNat + pmMaxLowpowerMtimeDuration ∨
        (cfg.pmMultiCore = true ∧ (lowerToPeer cfg (chooseWtype c)).peerWtime.toNat ≤
          (lowerToPeer cfg (chooseWtype c)).wtime.toNat) := by
  obtain ⟨hm, hp⟩ := lowerToPeer_frame cfg (chooseWtype c)
  intro hlt
  rcases lowerToPeer_wtime cfg (chooseWtype c) with hw | ⟨hmc, hw⟩
  · have hmt : (chooseWtype c).mtime = r.idle := h.mtime
    rw [hm, hmt] at hlt ⊢
    rw [hw] at hlt
    exact .inl (h.threshold hlt.le)
  · exact .inr ⟨hmc, by rw [hw, hp]⟩

theorem Lowered.ahead_iff (h : Lowered mtimecmp q r ctx.peerWtime c) :
    Ahead cfg c ↔ (∀ t ∈ sources cfg ctx mtimecmp q r, r.idle.toNat < t) ∧
      ∀ first second, nextBefore mtimecmp q r = some (first, second) →
        (cfg.pmMultiCore = true ∧ ctx.peerWtime.toNat < second) ∨
          (r.idle.toNat + pmMaxLowpowerMtimeDuration < first ∧ (cfg.pmMultiCore = true →
              r.idle.toNat + pmMaxLowpowerMtimeDuration ≤ ctx.peerWtime.toNat)) := by
  rw [sources_after_iff, ← h.wtime]
  constructor
  · rintro ⟨h₁, h₂, h₃⟩
    rw [h.mtime] at h₁ h₂ h₃
    rw [h.peerWtime] at h₂ h₃
    refine ⟨⟨h₁, h₂⟩, fun first second hb => ?_⟩
    obtain ⟨rfl, rfl, hne, hlt⟩ := h.next_eq first second hb
    exact h₃ (fun hzero => hne (by rw [hzero]; rfl)) hlt
  · rintro ⟨⟨h₁, h₂⟩, h₃⟩
    refine ⟨by rwa [h.mtime], by rwa [h.mtime, h.peerWtime], fun hne hlt => ?_⟩
    cases hb : nextBefore mtimecmp q r with
    | none => exact absurd (h.next_none hb hne) (Nat.not_le.mpr hlt)
    | some p =>
      obtain ⟨first, second⟩ := p
      obtain ⟨rfl, rfl, _, _⟩ := h.next_eq first second hb
      rw [h.mtime, h.peerWtime]
      exact h₃ _ _ hb

/-- **No sleep past a deadline.** A planned wakeup is in time exactly when all its times lie after
now, one is not past the head timer's expiry, and no second timer before the first decides the
plan. -/
theorem planned_in_time_iff {cfg : PmConfig} {ctx ctx' : PwrMgmtCtx} {mtimecmp : BitVec 64}
    {q : List Timer} {r : ClockReads} (h : planWakeup cfg ctx mtimecmp q r = some ctx') :
    (InTime cfg ctx' mtimecmp ∧ NotPastHead r q ctx'.wtime.toNat) ↔
      SourcesInTime cfg ctx mtimecmp q r := by
  have hupd : pmUpdateIdleTime cfg ctx mtimecmp q r = some ctx' := by
    unfold planWakeup at h
    split_ifs at h
    exact h
  obtain ⟨c, rfl, hc⟩ := lowered_of_pmUpdateIdleTime hupd
  have hw : c.wtime.toNat ≤ mtimecmp.toNat := by
    rw [hc.wtime]
    exact loweredNat_le mtimecmp q r
  have hfits := fits_lowerToPeer_iff cfg hw hc.next_le
  have hin : InTime cfg (finishPlan cfg c) mtimecmp ↔ Ahead cfg c :=
    (inTime_capIdleDur_iff (hc.past_plan cfg)).trans hfits
  have hplan : earliestNat cfg c = planNat cfg ctx mtimecmp q r := by
    rw [earliestNat, planNat, hc.wtime, hc.peerWtime, hc.mtime]
  constructor
  · rintro ⟨hintime, hhead⟩
    have hahead := hin.mp hintime
    rw [finishPlan_wtime hahead (hfits.mpr hahead), hplan] at hhead
    exact ⟨hc.ahead_iff.mp hahead |>.1, exists_notPastHead_iff.mpr hhead,
      hc.ahead_iff.mp hahead |>.2⟩
  · rintro ⟨hafter, hhead, hnext⟩
    have hahead := hc.ahead_iff.mpr ⟨hafter, hnext⟩
    refine ⟨hin.mpr hahead, ?_⟩
    rw [finishPlan_wtime hahead (hfits.mpr hahead), hplan]
    exact exists_notPastHead_iff.mp hhead

/-- A plan in time: a watcher timer 15 ms ahead, another after it, the OS 50 ms and the other core a
second ahead. -/
theorem planned_in_time_watcher :
    let cfg : PmConfig := { pmMultiCore := true }
    let q : List Timer := [⟨1, .wakeupIdle, 300000, 300000⟩, ⟨2, .wakeupFull, 400000, 400000⟩]
    let r : ClockReads := ⟨1000, 1001, 1002, 0, 1002, 1003⟩
    ∃ ctx', planWakeup cfg { peerWtime := 10000000 } 500000 q r = some ctx' ∧
      ctx'.wtime.toNat = 151002 ∧ ctx'.wtimeNext.toNat = 201003 ∧
      InTime cfg ctx' 500000 ∧ NotPastHead r q ctx'.wtime.toNat := by
  intro cfg q r
  have hplan : planWakeup cfg { peerWtime := 10000000 } 500000 q r = some
      { peerWtime := 10000000, mtime := 1001, wtime := 151002, wtimeNext := 201003
        wtype := .watcher } := by
    decide +kernel
  refine ⟨_, hplan, rfl, rfl, (planned_in_time_iff hplan).mpr ⟨by decide, ?_, ?_⟩⟩
  · refine ⟨151002, by decide, ?_⟩
    rintro timer ⟨⟩
    decide
  · have hnone : nextBefore 500000 q r = none := by decide
    intro first second hb
    exact absurd (hnone.symm.trans hb) (by simp)

/-- **A 23-hour sleep.** The other core's wakeup time passes the first check, but lies one tick
before the reading of `mtime` that follows: the plan is in the past, the idle duration underflows,
and the cap plans the wakeup 23 hours from now. -/
theorem peer_deadline_missed :
    let cfg : PmConfig := { pmMultiCore := true }
    let r : ClockReads := ⟨1000, 1001, 1001, 0, 1001, 1001⟩
    r.Monotone ∧ ∃ ctx', planWakeup cfg { peerWtime := 1000 } 1000000000 [] r = some ctx' ∧
      ctx'.wtime.toNat = 1001 + pmMaxLowpowerMtimeDuration ∧
      ¬ InTime cfg ctx' 1000000000 := by
  intro cfg r
  have hplan : planWakeup cfg { peerWtime := 1000 } 1000000000 [] r = some
      { peerWtime := 1000, mtime := 1001, wtime := 827999901001 } := by
    decide +kernel
  refine ⟨⟨by decide, by decide, by decide, by decide⟩, _, hplan, by decide, fun h => ?_⟩
  exact absurd (h.le_peer rfl) (by decide)

end WiseSdk.Pm
