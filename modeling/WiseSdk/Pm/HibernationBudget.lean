import WiseSdk.Pm.ModeSafety
import WiseSdk.Pm.Sleep

/-!
# The hibernation budget

Hibernation writes flash, so `pm.c` counts it: at most `hib_max_cnt` entries until the counter is
reset, by `pm_set_hib_max_count` or, when `hib_limit_clr` has passed, by the next attempt to sleep.

Four fields of the context matter (`HibBudget`): `pm_update_idle_time` writes the machine time,
`pm_reset_hib_limit` may reset the counter and `pm_pre_sleep_processing` counts right before it
hibernates. `sleep_budget` says this of the whole pair of calls.
-/

namespace WiseSdk.Pm

open Library Option

/-! ## The fields -/

/-- The fields of the context the budget lives in. -/
structure HibBudget where
  mtime : BitVec 64
  clr : BitVec 64
  cnt : BitVec 32
  max : BitVec 32
  deriving DecidableEq, Repr

def budget (ctx : PwrMgmtCtx) : HibBudget :=
  { mtime := ctx.mtime, clr := ctx.hibLimitClr, cnt := ctx.hibLimitCnt, max := ctx.hibMaxCnt }

/-- The machine time until the counter may be reset. -/
def hibClrDur (mtime : BitVec 64) : BitVec 64 :=
  mtime + pmUsecToMtime (BitVec.ofNat 64 (pmHibernationLimitDuration * ustime))

def HibBudget.Expired (b : HibBudget) : Prop := b.clr < b.mtime
deriving Decidable

def HibBudget.reset (b : HibBudget) : HibBudget :=
  if b.Expired then { b with clr := hibClrDur b.mtime, cnt := 0 } else b

/-! ## What happens -/

variable (cfg : PmConfig)

/-- The automatic reset of an attempt: when `pm_reset_hib_limit` finds the limit expired, if it is
called. -/
def autoReset (env : SleepEnv) (st : PmState) : Option (BitVec 64) :=
  match planWakeup cfg st.ctx st.hw.mtimecmp env.systimerQ env.reads with
  | none => none
  | some ctx =>
    if env.ratioStale then none
    else
      match pmModeSel cfg ctx with
      | .error _ => none
      | .ok ctx => if (budget ctx).Expired then some ctx.mtime else none

/-- The attempt gets into hibernation: the mode is chosen, the other core idle and every device
agrees. -/
def hibernates (env : SleepEnv) (st : PmState) : Bool :=
  match chooseSleep cfg env st with
  | .error _ => false
  | .ok ctx =>
    decide (ctx.pmMode = .hibernation) && env.d25Idle && (suspendFrom 0 env.deviceOk).2

/-- The time a plan that is given up leaves in the context; only `pm_set_hib_max_count` reads it. -/
def givenUpMtime (ctx : PwrMgmtCtx) (reads : ClockReads) : BitVec 64 :=
  if ctx.stayActive ≠ 0 ∨ cfg.pmMultiCore = true ∧ ctx.peerWtime < reads.peerCheck then ctx.mtime
  else reads.idle

/-- The pair of calls, with the machine time that a plan given up leaves behind. -/
def hibSleep (env : SleepEnv) (st : PmState) : Option PmState :=
  (sleepPair cfg env st).map fun st' =>
    match planWakeup cfg st.ctx st.hw.mtimecmp env.systimerQ env.reads with
    | none => { st' with ctx := { st'.ctx with mtime := givenUpMtime cfg st.ctx env.reads } }
    | some _ => st'

def pmSetHibMaxCount (ctx : PwrMgmtCtx) (hibMax : BitVec 32) : PwrMgmtCtx :=
  { ctx with hibLimitClr := hibClrDur ctx.mtime, hibLimitCnt := 0, hibMaxCnt := hibMax }

/-- Attempts to sleep, calls of `pm_set_hib_max_count`, and whatever else changes registers and
context; only `pm.c` writes the budget and `pm_mode`. -/
inductive HibAction where
  | sleep (env : SleepEnv)
  | setHibMaxCount (hibMax : BitVec 32)
  | other (ctx : PwrMgmtCtx) (hw : PmHw)

/-- The hibernations since the last reset, and the times of the automatic resets, latest first. -/
structure HibHistory where
  entered : ℕ := 0
  autos : List ℕ := []
  deriving DecidableEq, Repr

def hibAct (st : PmState) : HibAction → Option PmState
  | .sleep env => hibSleep cfg env st
  | .setHibMaxCount hibMax => some { st with ctx := pmSetHibMaxCount st.ctx hibMax }
  | .other ctx hw => some
      { ctx := { ctx with
          pmMode := st.ctx.pmMode, mtime := st.ctx.mtime, hibLimitClr := st.ctx.hibLimitClr,
          hibLimitCnt := st.ctx.hibLimitCnt, hibMaxCnt := st.ctx.hibMaxCnt }
        hw := hw
        log := st.log }

/-- The history of resets after an automatic reset, if there was one. -/
def HibHistory.resetAt (h : HibHistory) : Option (BitVec 64) → HibHistory
  | none => h
  | some mtime => { entered := 0, autos := mtime.toNat :: h.autos }

def hibRecord (st : PmState) (h : HibHistory) : HibAction → HibHistory
  | .sleep env =>
    let h := h.resetAt (autoReset cfg env st)
    if hibernates cfg env st then { h with entered := h.entered + 1 } else h
  | .setHibMaxCount _ => { h with entered := 0 }
  | .other _ _ => h

/-- A step of the system beside its history. -/
def hibStep (s : PmState × HibHistory) (a : HibAction) : Option (PmState × HibHistory) :=
  (hibAct cfg s.1 a).map fun st => (st, hibRecord cfg s.1 s.2 a)

/-- PM_HIBERNATION_LIMIT_DURATION as machine time. -/
def hibLimitTicks : ℕ := pmHibernationLimitDuration * ustime * xtaltime

/-- **The budget is kept**: at most `hib_max_cnt` hibernations since the last reset, and the
automatic resets far enough apart. -/
structure BudgetKept (s : PmState × HibHistory) : Prop where
  entered_le : s.2.entered ≤ s.1.ctx.hibMaxCnt.toNat
  apart : s.2.autos.Pairwise fun later earlier => earlier + hibLimitTicks ≤ later

/-- The clock of a run: it does not go backwards, and stays clear of the end of the counter by the
limit duration. -/
def ClockFits (s : PmState × HibHistory) : HibAction → Prop
  | .sleep env => s.1.ctx.mtime ≤ env.reads.idle ∧ env.reads.idle ≤ env.mtimeBefore ∧
      env.mtimeBefore.toNat + hibLimitTicks < 2 ^ 64
  | .setHibMaxCount _ | .other _ _ => True

instance (s : PmState × HibHistory) : (a : HibAction) → Decidable (ClockFits s a)
  | .sleep env => inferInstanceAs (Decidable (s.1.ctx.mtime ≤ env.reads.idle ∧
      env.reads.idle ≤ env.mtimeBefore ∧ env.mtimeBefore.toNat + hibLimitTicks < 2 ^ 64))
  | .setHibMaxCount _ | .other _ _ => .isTrue trivial

/-- After `pm_para_init`: the counter starts at zero with PM_HIBERNATION_LIMIT_COUNT to go. -/
def hibBoot (limit : BitVec 32) : PmState × HibHistory :=
  ({ pmBoot with ctx := { pmBoot.ctx with hibMaxCnt := limit } }, {})

/-! ## Planning and choosing -/

variable {cfg : PmConfig} {ctx sel ctx' : PwrMgmtCtx}

theorem planWakeup_budget {mtimecmp : BitVec 64} {q : List WiseSdk.Systimer.Timer} {r : ClockReads}
    (h : planWakeup cfg ctx mtimecmp q r = some ctx') :
    budget ctx' = { budget ctx with mtime := r.idle } := by
  obtain ⟨_, _, _, rfl⟩ := planWakeup_replanned h
  rfl

theorem pmModeSel_budget (h : pmModeSel cfg ctx = .ok sel) : budget sel = budget ctx := by
  simp only [pmModeSel] at h
  split at h
  · cases h
  · split_ifs at h <;> cases h <;> rfl

theorem pmResetHibLimit_budget (ctx : PwrMgmtCtx) :
    budget (pmResetHibLimit ctx) = (budget ctx).reset := by
  have hiff : (budget ctx).Expired ↔ ctx.hibLimitClr < ctx.mtime := Iff.rfl
  simp only [pmResetHibLimit, HibBudget.reset, hiff]
  split <;> rfl

theorem pmUpdateMode_budget (hsel : pmModeSel cfg ctx = .ok sel) :
    (∃ ctx', pmUpdateMode cfg ctx = .error ctx' ∧ budget ctx' = (budget ctx).reset) ∨
      ∃ ctx', pmUpdateMode cfg ctx = .ok ctx' ∧ budget ctx' = (budget ctx).reset ∧
        (ctx'.pmMode = .hibernation → (budget ctx').cnt < (budget ctx').max) := by
  have hreset : budget (pmResetHibLimit sel) = (budget ctx).reset := by
    rw [pmResetHibLimit_budget, pmModeSel_budget hsel]
  simp only [pmUpdateMode, bind, Except.bind, hsel, pmModeCheck]
  split_ifs with hactive
  · exact .inl ⟨_, rfl, hreset⟩
  · exact .inr ⟨_, rfl, hreset, (checked_spec rfl hactive).2.2⟩

/-! ## The rest of the sleep -/

theorem suspendSystem_budget (cfg : PmConfig) (env : SleepEnv) (st : PmState) :
    budget (suspendSystem cfg env st).1.ctx = budget st.ctx := by
  simp only [suspendSystem]
  split_ifs <;> rfl

variable {env : SleepEnv} {st st' : PmState}

theorem suspendSystem_ok (h : (suspendSystem cfg env st).2 = true) :
    (suspendSystem cfg env st).1.ctx.pmMode = st.ctx.pmMode := by
  simp only [suspendSystem] at h ⊢
  split_ifs at h ⊢ <;> rfl

theorem pmPostSleepProcessing_budget (cfg : PmConfig) (env : SleepEnv) (st : PmState) :
    budget (pmPostSleepProcessing cfg env st).ctx = budget st.ctx := by
  unfold pmPostSleepProcessing
  split_ifs
  · rfl
  · simp only [whenFeat]
    split_ifs <;> rfl

def HibBudget.count (b : HibBudget) (mode : PmMode) : HibBudget :=
  { b with cnt := if mode = .hibernation ∧ b.cnt < b.max then b.cnt + 1 else b.cnt }

variable {b b' : HibBudget}

theorem HibBudget.count_hibernation (h : b.cnt < b.max) :
    b.count .hibernation = { b with cnt := b.cnt + 1 } := by
  simp only [HibBudget.count, h, and_self, if_true]

theorem sleepIn_budget (env : SleepEnv) (st : PmState) :
    budget (sleepIn env st).ctx = (budget st.ctx).count st.ctx.pmMode := rfl

theorem enterSleep_budget (h : enterSleep cfg env st = some st') :
    budget st'.ctx =
      { (budget st.ctx).count st.ctx.pmMode with
        mtime := if (pmFeat st.ctx.pmMode).timerOff then env.mtimeBefore else st.ctx.mtime } := by
  simp only [enterSleep] at h
  split_ifs at h
  cases h
  have hmode : (pmSavePlicH0 cfg st).ctx.pmMode = st.ctx.pmMode := rfl
  rw [sleepIn_budget, hmode]
  cases (pmFeat st.ctx.pmMode).timerOff <;> cases cfg.pmAonGpioCtrl <;> rfl

theorem preSleepChosen_cases (h : preSleepChosen cfg env st = some st') :
    ((env.d25Idle = true ∧ (suspendSystem cfg env st).2 = true) ∧
        enterSleep cfg env (suspendSystem cfg env st).1 = some st') ∨
      (¬ (env.d25Idle = true ∧ (suspendSystem cfg env st).2 = true) ∧
        budget st'.ctx = budget st.ctx) := by
  have hsys := suspendSystem_budget cfg env st
  simp only [preSleepChosen] at h
  split_ifs at h with hone hsdio hok htwo
  · cases h
    exact .inr ⟨by simp_all, rfl⟩
  · cases h
    exact .inr ⟨by simp_all, hsys⟩
  · cases h
    exact .inr ⟨by simp_all, hsys⟩
  · refine .inl ⟨⟨?_, by simpa using hok⟩, h⟩
    cases hidle : env.d25Idle <;> simp_all

/-- **From the choice on.**  An attempt that hibernates counts, any other leaves the
counter. -/
theorem preSleepChosen_budget (h : preSleepChosen cfg env st = some st') :
    if st.ctx.pmMode = .hibernation ∧ env.d25Idle = true ∧ (suspendFrom 0 env.deviceOk).2 = true
    then budget st'.ctx =
      { (budget st.ctx).count .hibernation with mtime := env.mtimeBefore }
    else ∃ t, (t = st.ctx.mtime ∨ t = env.mtimeBefore) ∧
      budget st'.ctx = { budget st.ctx with mtime := t } := by
  have hflag : st.ctx.pmMode = .hibernation →
      (suspendSystem cfg env st).2 = (suspendFrom 0 env.deviceOk).2 := by
    intro hmode
    cases hall : (suspendFrom 0 env.deviceOk).2 <;>
      simp [suspendSystem, hmode, pmFeat, pmSuspendDevice, hall]
  rcases preSleepChosen_cases h with ⟨⟨hidle, hok⟩, henter⟩ | ⟨hnot, hkept⟩
  · have hentered := enterSleep_budget henter
    rw [suspendSystem_budget, suspendSystem_ok hok] at hentered
    have hmtime : (suspendSystem cfg env st).1.ctx.mtime = st.ctx.mtime :=
      congrArg HibBudget.mtime (suspendSystem_budget cfg env st)
    rw [hmtime] at hentered
    split
    · next hhib =>
        rw [hhib.1] at hentered
        exact hentered
    next hhib =>
      -- Another mode than hibernation is not counted.
      have hmode : st.ctx.pmMode ≠ .hibernation :=
        fun hmode => hhib ⟨hmode, hidle, (hflag hmode).symm.trans hok⟩
      have hcount : (budget st.ctx).count st.ctx.pmMode = budget st.ctx := by
        simp only [HibBudget.count, hmode, false_and, if_false]
      rw [hcount] at hentered
      refine ⟨_, ?_, hentered⟩
      split
      · exact .inr rfl
      · exact .inl rfl
  · rw [if_neg]
    · exact ⟨st.ctx.mtime, .inl rfl, hkept⟩
    · rintro ⟨hmode, hidle, hall⟩
      exact hnot ⟨hidle, (hflag hmode).trans hall⟩

/-- How one attempt to sleep changes the budget `b`: not at all when it is given up before a mode is
selected; else the limit is looked at, and a hibernation counted. -/
inductive SleepBudget (env : SleepEnv) (b : HibBudget) :
    Option (BitVec 64) → Bool → HibBudget → Prop where
  | givenUp {t : BitVec 64} (ht : t = b.mtime ∨ t = env.reads.idle) :
      SleepBudget env b none false { b with mtime := t }
  | slept {b₁ : HibBudget} {t : BitVec 64} (hb : b₁ = { b with mtime := env.reads.idle })
      (ht : t = env.reads.idle ∨ t = env.mtimeBefore) :
      SleepBudget env b (if b₁.Expired then some env.reads.idle else none) false
        { b₁.reset with mtime := t }
  | hibernated {b₁ : HibBudget} (hb : b₁ = { b with mtime := env.reads.idle })
      (hcnt : b₁.reset.cnt < b₁.reset.max) :
      SleepBudget env b (if b₁.Expired then some env.reads.idle else none) true
        { b₁.reset with mtime := env.mtimeBefore, cnt := b₁.reset.cnt + 1 }

theorem HibBudget.reset_mtime (b : HibBudget) : b.reset.mtime = b.mtime := by
  rw [HibBudget.reset]
  split <;> rfl

/-- From a planned wakeup on. -/
theorem planned_budget (st : PmState)
    (hplan : planWakeup cfg st.ctx st.hw.mtimecmp env.systimerQ env.reads = some ctx)
    (h : pmPreSleepProcessing cfg env st = some st') :
    SleepBudget env (budget st.ctx) (autoReset cfg env st) (hibernates cfg env st)
      (budget st'.ctx) := by
  have hb := planWakeup_budget hplan
  have hmtime : ctx.mtime = env.reads.idle := congrArg HibBudget.mtime hb
  simp only [pmPreSleepProcessing, chooseSleep, hplan] at h
  simp only [autoReset, hibernates, chooseSleep, hplan]
  split_ifs at h ⊢ with hdown hstale
  · cases h
    rw [show budget ctx = _ from hb]
    exact .givenUp (.inr rfl)
  cases hsel : pmModeSel cfg ctx with
  | error c =>
    have herror : pmUpdateMode cfg ctx = .error c := by
      simp only [pmUpdateMode, hsel, bind, Except.bind]
    simp only [herror] at h ⊢
    cases h
    rw [show budget c = _ from pmModeSel_error hsel ▸ hb]
    exact .givenUp (.inr rfl)
  | ok sel =>
    have hselb := pmModeSel_budget hsel
    have hselm : sel.mtime = env.reads.idle :=
      (congrArg HibBudget.mtime hselb).trans hmtime
    simp only [hselb, hselm, hb]
    generalize hb₁ : ({ budget st.ctx with mtime := env.reads.idle } : HibBudget) = b₁ at *
    have hb₁m : b₁.reset.mtime = env.reads.idle := by
      rw [HibBudget.reset_mtime, ← hb₁]
    rcases pmUpdateMode_budget hsel with ⟨c, hc, hreset⟩ | ⟨c, hc, hreset, hlimit⟩
    · simp only [hc] at h ⊢
      cases h
      rw [show budget c = { b₁.reset with mtime := env.reads.idle } by
        rw [hreset, hb, ← hb₁m]]
      exact .slept hb₁.symm (.inl rfl)
    simp only [hc] at h ⊢
    rw [hb] at hreset
    have hcm : c.mtime = env.reads.idle := (congrArg HibBudget.mtime hreset).trans hb₁m
    have hchosen := preSleepChosen_budget h
    simp only [hreset, hcm] at hchosen
    split_ifs at hchosen with hhib
    · -- The check let hibernation through, so the count is one that is made.
      obtain ⟨hmode, hidle, hall⟩ := hhib
      have hcnt := hlimit hmode
      rw [hreset] at hcnt
      simp only [hmode, hidle, hall, decide_true, Bool.and_self]
      rw [hchosen, HibBudget.count_hibernation hcnt]
      exact .hibernated hb₁.symm hcnt
    obtain ⟨t, ht, hkept⟩ := hchosen
    rw [hkept]
    have hfalse : (decide (c.pmMode = .hibernation) && env.d25Idle &&
        (suspendFrom 0 env.deviceOk).2) = false := by
      rw [← Bool.not_eq_true, Bool.and_eq_true, Bool.and_eq_true, decide_eq_true_eq, and_assoc]
      exact hhib
    rw [hfalse]
    exact .slept hb₁.symm ht

/-- **One attempt to sleep**, with everything that can be given up on the way. -/
theorem sleep_budget (h : hibSleep cfg env st = some st') :
    SleepBudget env (budget st.ctx) (autoReset cfg env st) (hibernates cfg env st)
      (budget st'.ctx) := by
  simp only [hibSleep, sleepPair, map_eq_some_iff] at h
  obtain ⟨_, ⟨st₁, hpre, rfl⟩, rfl⟩ := h
  cases hplan : planWakeup cfg st.ctx st.hw.mtimecmp env.systimerQ env.reads with
  | some ctx =>
    have hplanned := planned_budget { st with log := [] } hplan hpre
    rw [← pmPostSleepProcessing_budget cfg env st₁] at hplanned
    exact hplanned
  | none =>
    simp only [pmPreSleepProcessing, chooseSleep, hplan] at hpre
    split_ifs at hpre
    cases hpre
    simp only [autoReset, hibernates, chooseSleep, hplan]
    have hpost := pmPostSleepProcessing_budget cfg env { st with log := [] }
    have hkept : budget { (pmPostSleepProcessing cfg env { st with log := [] }).ctx with
        mtime := givenUpMtime cfg st.ctx env.reads } =
        { budget st.ctx with mtime := givenUpMtime cfg st.ctx env.reads } :=
      congrArg (fun b : HibBudget => { b with mtime := givenUpMtime cfg st.ctx env.reads }) hpost
    rw [hkept]
    refine .givenUp ?_
    rw [givenUpMtime]
    split
    · exact .inl rfl
    · exact .inr rfl

/-! ## The budget along a run -/

theorem hibClrDur_toNat {mtime : BitVec 64} (h : mtime.toNat + hibLimitTicks < 2 ^ 64) :
    (hibClrDur mtime).toNat = mtime.toNat + hibLimitTicks := by
  have hdur : (pmUsecToMtime (BitVec.ofNat 64 (pmHibernationLimitDuration * ustime))).toNat =
      hibLimitTicks := by decide
  rw [hibClrDur, BitVec.toNat_add_of_lt (by rwa [hdur]), hdur]

/-- The counter is the number of hibernations since its reset, and the next automatic reset is a
limit duration after every one so far. -/
structure BudgetInv (b : HibBudget) (h : HibHistory) : Prop where
  counted : h.entered = b.cnt.toNat
  cnt_le : b.cnt.toNat ≤ b.max.toNat
  apart : h.autos.Pairwise fun later earlier => earlier + hibLimitTicks ≤ later
  covered : ∀ t ∈ h.autos, t + hibLimitTicks ≤ b.clr.toNat ∧ t ≤ b.mtime.toNat
  clock : b.mtime.toNat + hibLimitTicks < 2 ^ 64

variable {h : HibHistory}

section

variable (hinv : BudgetInv b h)

include hinv

theorem BudgetInv.wait {t : BitVec 64} (hle : b.mtime ≤ t)
    (hfit : t.toNat + hibLimitTicks < 2 ^ 64) : BudgetInv { b with mtime := t } h := by
  refine { hinv with covered := fun u hu => ?_, clock := hfit }
  exact ⟨(hinv.covered u hu).1, (hinv.covered u hu).2.trans hle⟩

/-- An automatic reset comes a limit duration after the last one. -/
theorem BudgetInv.reset :
    BudgetInv b.reset (h.resetAt (if b.Expired then some b.mtime else none)) := by
  rw [HibBudget.reset]
  split
  · next hexpired =>
      have hlt : b.clr.toNat < b.mtime.toNat := hexpired
      have hclr := hibClrDur_toNat hinv.clock
      refine ⟨rfl, Nat.zero_le _, List.pairwise_cons.mpr ⟨fun t ht => ?_, hinv.apart⟩,
        fun t ht => ?_, hinv.clock⟩
      · exact (hinv.covered t ht).1.trans hlt.le
      · rcases List.mem_cons.mp ht with rfl | ht
        · exact ⟨hclr.ge, le_rfl⟩
        · have := hinv.covered t ht
          simp only [hclr]
          omega
  · exact hinv

theorem BudgetInv.count (hcnt : b.cnt < b.max) :
    BudgetInv { b with cnt := b.cnt + 1 } { h with entered := h.entered + 1 } := by
  have hlt : b.cnt.toNat < b.max.toNat := hcnt
  have hsucc : (b.cnt + 1).toNat = b.cnt.toNat + 1 :=
    BitVec.toNat_add_of_lt (y := 1#32) (by change b.cnt.toNat + 1 < 2 ^ 32; omega)
  refine { hinv with counted := ?_, cnt_le := ?_ }
  · rw [hsucc, ← hinv.counted]
  · rw [hsucc]
    exact hlt

/-- A reset by hand moves the next automatic one further away. -/
theorem BudgetInv.setMax (hibMax : BitVec 32) :
    BudgetInv { b with clr := hibClrDur b.mtime, cnt := 0, max := hibMax }
      { h with entered := 0 } := by
  refine ⟨rfl, Nat.zero_le _, hinv.apart, fun t ht => ?_, hinv.clock⟩
  have := hinv.covered t ht
  simp only [hibClrDur_toNat hinv.clock]
  omega

theorem BudgetInv.sleep {auto : Option (BitVec 64)} {entered : Bool}
    (hidle : b.mtime ≤ env.reads.idle) (hbefore : env.reads.idle ≤ env.mtimeBefore)
    (hfit : env.mtimeBefore.toNat + hibLimitTicks < 2 ^ 64)
    (hsleep : SleepBudget env b auto entered b') :
    BudgetInv b' (if entered then { h.resetAt auto with entered := (h.resetAt auto).entered + 1 }
      else h.resetAt auto) := by
  have hidleFit : env.reads.idle.toNat + hibLimitTicks < 2 ^ 64 := by
    have : env.reads.idle.toNat ≤ env.mtimeBefore.toNat := hbefore
    omega
  have hplanned := hinv.wait hidle hidleFit
  have hreset := hplanned.reset
  cases hsleep with
  | givenUp ht =>
    rcases ht with rfl | rfl
    · exact hinv
    · exact hplanned
  | slept hb ht =>
    subst hb
    rcases ht with rfl | rfl
    · exact hreset.wait (by rw [HibBudget.reset_mtime]; exact BitVec.le_refl _) hidleFit
    · exact hreset.wait (by rw [HibBudget.reset_mtime]; exact hbefore) hfit
  | hibernated hb hcnt =>
    subst hb
    exact (hreset.count hcnt).wait (by rw [HibBudget.reset_mtime]; exact hbefore) hfit

end

variable {s t : PmState × HibHistory}

theorem BudgetInv.step {a : HibAction} (hinv : BudgetInv (budget s.1.ctx) s.2)
    (hclock : ClockFits s a)
    (h : hibStep cfg s a = some t) : BudgetInv (budget t.1.ctx) t.2 := by
  rw [hibStep, map_eq_some_iff] at h
  obtain ⟨st, hst, rfl⟩ := h
  cases a with
  | sleep env => exact hinv.sleep hclock.1 hclock.2.1 hclock.2.2 (sleep_budget hst)
  | setHibMaxCount hibMax =>
    cases hst
    exact hinv.setMax hibMax
  | other ctx hw =>
    cases hst
    exact hinv

theorem budgetInv_hibBoot (limit : BitVec 32) :
    BudgetInv (budget (hibBoot limit).1.ctx) (hibBoot limit).2 :=
  ⟨rfl, Nat.zero_le _, List.Pairwise.nil, nofun, by change 0 + hibLimitTicks < 2 ^ 64; decide⟩

/-- **The budget is kept** in every state that a run with such a clock reaches. -/
theorem budgetKept_of_run {limit : BitVec 32} {acts pre : List HibAction}
    (hclock : StepsMeet (hibStep cfg) ClockFits (hibBoot limit) acts) (hpre : pre <+: acts)
    (hrun : runSteps (hibStep cfg) (hibBoot limit) pre = some s) : BudgetKept s := by
  have hinv : BudgetInv (budget s.1.ctx) s.2 :=
    inv_of_run (fun s => BudgetInv (budget s.1.ctx) s.2) (fun _ _ _ hs hc => hs.step hc)
      (budgetInv_hibBoot limit) hclock hpre hrun
  exact ⟨hinv.counted.trans_le hinv.cnt_le, hinv.apart⟩

/-- **Sleep mode choice is safe.** Every successful choice of a mode is safe, for every duration,
enable mask, counter and limits; and along every run whose clock does not go backwards and stays
clear of the end of its 64 bits, the hibernations between two resets are within the budget and the
automatic resets a limit duration apart. -/
theorem sleep_mode_safe (cfg : PmConfig) :
    (∀ ctx ctx', ctx.mtime ≤ ctx.wtime → restoreTime cfg .hibernation ≤ ctx.hibMinTime.toNat →
        pmUpdateMode cfg ctx = .ok ctx' → ModeSafe cfg ctx ctx') ∧
      ∀ limit acts, StepsMeet (hibStep cfg) ClockFits (hibBoot limit) acts →
        ∀ pre, pre <+: acts →
          ∀ s, runSteps (hibStep cfg) (hibBoot limit) pre = some s → BudgetKept s :=
  ⟨fun _ _ hidle hrestore h => modeSafe_of_pmUpdateMode hidle hrestore h,
    fun _ _ hclock _ hpre _ hrun => budgetKept_of_run hclock hpre hrun⟩

def sampleHw (mtimecmp : BitVec 64) : PmHw :=
  ⟨⟨0, 0, 0⟩, ⟨0, 0, 0⟩, 0, mtimecmp, ⟨0, 0, 0, 0, 0, 0, 0⟩⟩

/-- An attempt to sleep at machine time `now` that nothing opposes. -/
def sampleSleep (now : BitVec 64) : SleepEnv :=
  { systimerQ := [], reads := ⟨now, now, now, 0, now, now⟩, ratioStale := false
    d25Idle := true, deviceOk := [], mtimeCheck := now, mtimeBefore := now, rtcBefore := 0
    rtcAfter := 0, ratio := 61035, lost := sampleHw 0, rram := ⟨0, 0⟩ }

/-- Nobody asks to stay awake, every mode is enabled. -/
def sampleCtx : PwrMgmtCtx := { hibMinTime := 1715000, pmModeEnabled := 0b1111111 }

/-- Two attempts ten milliseconds apart, one limit duration before the counter wraps: the next reset
wraps to zero, so the second attempt resets again. -/
theorem resets_close_at_wrap :
    ((runSteps (hibStep {}) (hibBoot 27) [.other sampleCtx (sampleHw 18446743209709951616),
          .sleep (sampleSleep 18446743209709551616),
          .sleep (sampleSleep 18446743209709651616)]).map fun s => s.2.autos) =
      some [18446743209709651616, 18446743209709551616] ∧
    18446743209709651616 < 18446743209709551616 + hibLimitTicks := by
  decide +kernel

/-- A choice for an idle time of 40 ms, and a run that hibernates once in two seconds. -/
theorem sleep_mode_safe_sample :
    (∃ ctx', pmUpdateMode {} { sampleCtx with mtime := 1000, wtime := 401000 } = .ok ctx' ∧
        ctx'.pmMode = .deepSleep1 ∧
        ModeSafe {} { sampleCtx with mtime := 1000, wtime := 401000 } ctx') ∧
      ∃ s, runSteps (hibStep {}) (hibBoot 27)
          [.other sampleCtx (sampleHw 21000000), .sleep (sampleSleep 1000000)] = some s ∧
        s.2.entered = 1 ∧ BudgetKept s := by
  have hmode : (pmUpdateMode {} { sampleCtx with mtime := 1000, wtime := 401000 }).map
      (·.pmMode) = .ok .deepSleep1 := by decide +kernel
  have hcount : (runSteps (hibStep {}) (hibBoot 27)
      [.other sampleCtx (sampleHw 21000000), .sleep (sampleSleep 1000000)]).map
      (fun s => s.2.entered) = some 1 := by decide +kernel
  obtain ⟨s, hrun, hentered⟩ := map_eq_some_iff.mp hcount
  refine ⟨?_, s, hrun, hentered, (sleep_mode_safe {}).2 27 _ (by decide +kernel) _
    List.prefix_rfl s hrun⟩
  cases hok : pmUpdateMode {} { sampleCtx with mtime := 1000, wtime := 401000 } with
  | error c =>
    rw [hok] at hmode
    cases hmode
  | ok c =>
    rw [hok] at hmode
    exact ⟨c, rfl, Except.ok.inj hmode, (sleep_mode_safe {}).1 _ c (by decide) (by decide) hok⟩

end WiseSdk.Pm
