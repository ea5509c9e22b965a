import WiseSdk.Pm.Sleep
import Mathlib.Data.List.Nodup

/-!
# Balanced sleeps

A pair of calls is balanced when each piece of state is either left alone or saved once and
restored once, in that order, and the interrupt enables and the compare register hold after
it what they held before.

Two slips break the balance, and nothing else does.  The return on a busy D25 (with one core
and SDIO before anything was saved, with two cores after a block that only some modes enter)
lets values be restored that this call did not save.  And a device that refuses to be
suspended is resumed together with the ones before it.
-/

namespace WiseSdk.Pm

open Library List Option Function

/-! ## Balanced logs -/

def PmEvent.piece : PmEvent → Piece
  | .saved piece => piece
  | .restored piece => piece

def eventsOf (piece : Piece) (log : List PmEvent) : List PmEvent :=
  log.filter fun e => decide (e.piece = piece)

def Balanced (log : List PmEvent) : Prop :=
  ∀ piece, eventsOf piece log = [] ∨ eventsOf piece log = [.saved piece, .restored piece]

theorem eventsOf_append (piece : Piece) (log log' : List PmEvent) :
    eventsOf piece (log ++ log') = eventsOf piece log ++ eventsOf piece log' :=
  filter_append ..

theorem eventsOf_map {f : Piece → PmEvent} (hf : ∀ p, (f p).piece = p) {pieces : List Piece}
    (hnodup : pieces.Nodup) (piece : Piece) :
    eventsOf piece (pieces.map f) = if piece ∈ pieces then [f piece] else [] := by
  have hfilter : eventsOf piece (pieces.map f) = (pieces.filter (· == piece)).map f := by
    simp only [eventsOf, List.filter_map, comp_def, hf]
    rfl
  rw [hfilter, filter_beq, hnodup.count]
  split_ifs <;> rfl

/-- Restoring what was saved, in any order, is balanced. -/
theorem balanced_of_perm {saves restores : List Piece} (hnodup : saves.Nodup)
    (hperm : saves.Perm restores) :
    Balanced (saves.map .saved ++ restores.map .restored) := by
  intro piece
  rw [eventsOf_append, eventsOf_map (fun _ => rfl) hnodup,
    eventsOf_map (fun _ => rfl) (hperm.nodup_iff.mp hnodup)]
  simp only [← hperm.mem_iff]
  split_ifs
  · exact .inr rfl
  · exact .inl rfl

/-- A piece that is only restored breaks the balance. -/
theorem not_balanced_of_eventsOf {log : List PmEvent} (piece : Piece)
    (h : eventsOf piece log = [.restored piece]) : ¬ Balanced log := by
  intro hbal
  rcases hbal piece with hnil | hpair
  · simp [h] at hnil
  · simp [h] at hpair

/-! ## The devices -/

def devicePieces (n : ℕ) : List Piece := (range n).map .device

@[simp] theorem mem_devicePieces {n : ℕ} {piece : Piece} :
    piece ∈ devicePieces n ↔ ∃ i < n, .device i = piece := by
  simp [devicePieces]

theorem devicePieces_nodup (n : ℕ) : (devicePieces n).Nodup :=
  nodup_range.map fun _ _ h => by injection h

theorem suspendFrom_ok_iff (i : ℕ) (oks : List Bool) :
    (suspendFrom i oks).2 = true ↔ ∀ ok ∈ oks, ok = true := by
  induction oks generalizing i with
  | nil => simp [suspendFrom]
  | cons ok oks ih => cases ok <;> simp [suspendFrom, ih]

/-- Devices that all agree are suspended in turn. -/
theorem suspendFrom_of_ok {i : ℕ} {oks : List Bool} (h : (suspendFrom i oks).2 = true) :
    (suspendFrom i oks).1 = ((range' i oks.length).map Piece.device).map PmEvent.saved := by
  induction oks generalizing i with
  | nil => rfl
  | cons ok oks ih =>
    cases ok with
    | false => simp [suspendFrom] at h
    | true =>
      have hrest : (suspendFrom (i + 1) oks).2 = true := h
      simp [suspendFrom, ih hrest, range'_succ]

theorem suspendFrom_of_refused {i : ℕ} {oks : List Bool} (h : (suspendFrom i oks).2 = false) :
    ∃ k, i ≤ k ∧ eventsOf (.device k) (suspendFrom i oks).1 = [.restored (.device k)] := by
  induction oks generalizing i with
  | nil => simp [suspendFrom] at h
  | cons ok oks ih =>
    cases ok with
    | false =>
      refine ⟨i, le_rfl, ?_⟩
      have hnodup : ((range (i + 1)).reverse.map Piece.device).Nodup :=
        (nodup_reverse.mpr nodup_range).map fun _ _ h => by injection h
      have hevents := eventsOf_map (f := .restored) (fun _ => rfl) hnodup (.device i)
      simpa [suspendFrom, comp_def] using hevents
    | true =>
      obtain ⟨k, hk, hevents⟩ := ih (i := i + 1) h
      refine ⟨k, by omega, ?_⟩
      -- The device suspended here comes before the one that refuses.
      have hne : (PmEvent.saved (.device i)).piece ≠ .device k := by
        simp only [PmEvent.piece, ne_eq, Piece.device.injEq]
        omega
      simpa [suspendFrom, eventsOf, hne] using hevents

/-! ## What a pair of calls has to keep -/

def SameEnables (cfg : PmConfig) (before after : PlicEnable) : Prop :=
  after.s0 = before.s0 ∧ after.s1 = before.s1 ∧ (cfg.pmMultiCore = true → after.sw = before.sw)

/-- A pair of calls: balanced, with both harts' interrupt enables and the compare register as
before. -/
structure KeepsState (cfg : PmConfig) (before after : PmState) : Prop where
  balanced : Balanced after.log
  plicH0 : SameEnables cfg before.hw.plicH0 after.hw.plicH0
  plicH1 : SameEnables cfg before.hw.plicH1 after.hw.plicH1
  mtimecmp : after.hw.mtimecmp = before.hw.mtimecmp

/-- No device refuses a suspend it is asked for, and D25 is idle when its status bit ends the call;
only two cores after the system block may meet it busy. -/
def SleepUnopposed (cfg : PmConfig) (env : SleepEnv) (st : PmState) : Prop :=
  ∀ ctx, chooseSleep cfg env st = .ok ctx →
    (env.d25Idle = true ∨ cfg.pmMultiCore = true ∧ (pmFeat ctx.pmMode).sysPg = true) ∧
    ((pmFeat ctx.pmMode).sysPg = true → ∀ ok ∈ env.deviceOk, ok = true)

section

variable (cfg : PmConfig)

theorem SameEnables.refl (reg : PlicEnable) : SameEnables cfg reg reg :=
  ⟨rfl, rfl, fun _ => rfl⟩

theorem sameEnables_plicCopy (reg kept lost : PlicEnable) :
    SameEnables cfg reg (plicCopy cfg (plicCopy cfg reg kept) lost) := by
  refine ⟨rfl, rfl, fun hmulti => ?_⟩
  simp [plicCopy, hmulti]

/-! ## A sleep that is entered -/

def clockPieces (cfg : PmConfig) (feat : PmFeat) : List Piece :=
  if feat.timerOff then
    if cfg.pmAonGpioCtrl then [.mtime, .mtimecmp, .gpio] else [.mtime, .mtimecmp]
  else []

def systemPieces (env : SleepEnv) (feat : PmFeat) : List Piece :=
  if feat.sysPg then .plicH1 :: devicePieces env.deviceOk.length else []

/-- The pieces the second function restores in a mode with features `feat`. -/
def restoredPieces (cfg : PmConfig) (env : SleepEnv) (feat : PmFeat) : List Piece :=
  (if feat.sysPg then devicePieces env.deviceOk.length ++ [.plicH1] else []) ++
    clockPieces cfg feat ++ [.plicH0]

/-- Saving and restoring take the same pieces, in different orders. -/
theorem savedPieces_perm (env : SleepEnv) (feat : PmFeat) :
    (systemPieces env feat ++ .plicH0 :: clockPieces cfg feat).Perm
      (restoredPieces cfg env feat) := by
  unfold systemPieces restoredPieces
  rw [append_assoc]
  refine List.Perm.append ?_ (perm_append_singleton _ _).symm
  split_ifs
  · exact (perm_append_singleton _ _).symm
  · exact Perm.refl _

theorem restoredPieces_nodup (env : SleepEnv) (feat : PmFeat) :
    (restoredPieces cfg env feat).Nodup := by
  rcases feat with ⟨timerOff, sysCg, sysPg, corePg⟩
  have hdev := devicePieces_nodup env.deviceOk.length
  unfold restoredPieces clockPieces
  cases timerOff <;> cases sysPg <;> cases cfg.pmAonGpioCtrl <;>
    simp [nodup_append, hdev]

theorem pmPostSleepProcessing_active (env : SleepEnv) (st : PmState) :
    (pmPostSleepProcessing cfg env st).ctx.pmMode = .active := by
  unfold pmPostSleepProcessing
  split_ifs with hactive
  · exact hactive
  · rfl

end

variable {cfg : PmConfig} {env : SleepEnv} {st st' st₁ st₂ : PmState} {ctx : PwrMgmtCtx}

theorem pmPostSleepProcessing_of_active (h : st.ctx.pmMode = .active) :
    pmPostSleepProcessing cfg env st = st := by
  simp [pmPostSleepProcessing, h]

theorem pmPostSleepProcessing_log (h : st.ctx.pmMode ≠ .active) :
    (pmPostSleepProcessing cfg env st).log =
      st.log ++ (restoredPieces cfg env (pmFeat st.ctx.pmMode)).map .restored := by
  rcases hf : pmFeat st.ctx.pmMode with ⟨timerOff, sysCg, sysPg, corePg⟩
  simp only [pmPostSleepProcessing, if_neg h, hf]
  cases timerOff <;> cases sysPg <;> cases hg : cfg.pmAonGpioCtrl <;>
    simp [whenFeat, restoredPieces, clockPieces, devicePieces, setActive, pmRestorePlicH0,
      pmRestorePlicH1, pmRestoreTime, pmRestoreGpio, pmResumeDevice, hg, comp_def]

theorem pmPostSleepProcessing_hw (cfg : PmConfig) (env : SleepEnv) (h : st.ctx.pmMode ≠ .active) :
    (pmPostSleepProcessing cfg env st).hw.plicH0 = plicCopy cfg st.ctx.plicEnH0 st.hw.plicH0 ∧
      (pmPostSleepProcessing cfg env st).hw.plicH1 =
        (if (pmFeat st.ctx.pmMode).sysPg then plicCopy cfg st.ctx.plicEnH1 st.hw.plicH1
        else st.hw.plicH1) ∧ (pmPostSleepProcessing cfg env st).hw.mtimecmp =
        (if (pmFeat st.ctx.pmMode).timerOff then st.ctx.mtimecmp else st.hw.mtimecmp) := by
  rcases hf : pmFeat st.ctx.pmMode with ⟨timerOff, sysCg, sysPg, corePg⟩
  simp only [pmPostSleepProcessing, if_neg h, hf]
  cases timerOff <;> cases sysPg <;> cases hg : cfg.pmAonGpioCtrl <;> exact ⟨rfl, rfl, rfl⟩

/-- What a sleep holds for the second function: hart 0's enables and, when the clock goes, the
compare register. -/
structure Slept (cfg : PmConfig) (st st' : PmState) : Prop where
  pmMode : st'.ctx.pmMode = st.ctx.pmMode
  log : st'.log =
    st.log ++ (.plicH0 :: clockPieces cfg (pmFeat st.ctx.pmMode)).map .saved
  plicEnH0 : st'.ctx.plicEnH0 = plicCopy cfg st.hw.plicH0 st.ctx.plicEnH0
  plicEnH1 : st'.ctx.plicEnH1 = st.ctx.plicEnH1
  plicH1 : (pmFeat st.ctx.pmMode).sysPg = false → st'.hw.plicH1 = st.hw.plicH1
  mtimecmp : (if (pmFeat st.ctx.pmMode).timerOff then st'.ctx.mtimecmp
    else st'.hw.mtimecmp) = st.hw.mtimecmp

theorem slept_of_enterSleep (h : enterSleep cfg env st = some st') : Slept cfg st st' := by
  have hfeat : pmFeat (pmSavePlicH0 cfg st).ctx.pmMode = pmFeat st.ctx.pmMode := rfl
  simp only [enterSleep, hfeat] at h
  split_ifs at h
  cases h
  -- The GPIO registers are saved with the clock, and change nothing else.
  cases htimer : (pmFeat st.ctx.pmMode).timerOff <;> cases hgpio : cfg.pmAonGpioCtrl
  all_goals
    refine ⟨rfl, ?_, rfl, rfl, fun hpg => ?_, ?_⟩
    · simp [sleepIn, whenFeat, clockPieces, pmSavePlicH0, pmSaveTime, pmSaveGpio, htimer, hgpio]
    · simp [sleepIn, whenFeat, loseState, pmSavePlicH0, pmSaveTime, pmSaveGpio, htimer, hpg]
    · simp [sleepIn, whenFeat, loseState, pmSavePlicH0, pmSaveTime, pmSaveGpio, htimer]

/-! ## The system block -/

/-- What the system block leaves when it lets the call go on. -/
structure SystemSaved (cfg : PmConfig) (env : SleepEnv) (st st' : PmState) : Prop where
  pmMode : st'.ctx.pmMode = st.ctx.pmMode
  log : st'.log = st.log ++ (systemPieces env (pmFeat st.ctx.pmMode)).map .saved
  plicH0 : st'.hw.plicH0 = st.hw.plicH0
  mtimecmp : st'.hw.mtimecmp = st.hw.mtimecmp
  plicEnH1 : (pmFeat st.ctx.pmMode).sysPg = true →
    st'.ctx.plicEnH1 = plicCopy cfg st.hw.plicH1 st.ctx.plicEnH1
  plicH1 : (pmFeat st.ctx.pmMode).sysPg = false → st'.hw.plicH1 = st.hw.plicH1

theorem suspendSystem_of_ok (cfg : PmConfig)
    (hok : (pmFeat st.ctx.pmMode).sysPg = true → ∀ ok ∈ env.deviceOk, ok = true) :
    (suspendSystem cfg env st).2 = true ∧ SystemSaved cfg env st (suspendSystem cfg env st).1 := by
  cases hpg : (pmFeat st.ctx.pmMode).sysPg with
  | false =>
    simp only [suspendSystem, hpg, Bool.false_eq_true, if_false]
    exact ⟨trivial, by constructor <;> simp [systemPieces, hpg]⟩
  | true =>
    have hall : (suspendFrom 0 env.deviceOk).2 = true :=
      (suspendFrom_ok_iff 0 _).mpr (hok hpg)
    have hevents := suspendFrom_of_ok hall
    simp only [suspendSystem, hpg, if_true, pmSuspendDevice, hall]
    refine ⟨trivial, ?_⟩
    constructor <;>
      simp [systemPieces, hpg, pmSavePlicH1, hevents, devicePieces, range_eq_range']

theorem suspendSystem_of_refused (cfg : PmConfig) (hlog : st.log = [])
    (hpg : (pmFeat st.ctx.pmMode).sysPg = true) (hrefused : ¬ ∀ ok ∈ env.deviceOk, ok = true) :
    (suspendSystem cfg env st).2 = false ∧ (suspendSystem cfg env st).1.ctx.pmMode = .active ∧
      ¬ Balanced (suspendSystem cfg env st).1.log := by
  have hfalse : (suspendFrom 0 env.deviceOk).2 = false := by
    rw [← Bool.not_eq_true]
    exact mt (suspendFrom_ok_iff 0 _).mp hrefused
  obtain ⟨k, _, hevents⟩ := suspendFrom_of_refused hfalse
  simp only [suspendSystem, hpg, if_true, pmSuspendDevice, hfalse, Bool.false_eq_true, if_false]
  refine ⟨trivial, rfl, not_balanced_of_eventsOf (.device k) ?_⟩
  have hlog' : (setActive (pmRestorePlicH1 cfg { pmSavePlicH1 cfg st with
        log := (pmSavePlicH1 cfg st).log ++ (suspendFrom 0 env.deviceOk).1 })).log =
      [PmEvent.saved .plicH1] ++
        ((suspendFrom 0 env.deviceOk).1 ++ [PmEvent.restored .plicH1]) := by
    simp [setActive, pmRestorePlicH1, pmSavePlicH1, hlog]
  rw [hlog', eventsOf_append, eventsOf_append, hevents]
  rfl

/-! ## The pair -/

theorem not_balanced_restored {pieces : List Piece} (hnodup : pieces.Nodup) (piece : Piece)
    (hmem : piece ∈ pieces) : ¬ Balanced (pieces.map .restored) := by
  refine not_balanced_of_eventsOf piece ?_
  rw [eventsOf_map (fun _ => rfl) hnodup, if_pos hmem]

/-- A sleep that is entered after the system block keeps the state. -/
theorem keepsState_of_slept (hlog : st.log = []) (hmode : st.ctx.pmMode ≠ .active)
    (hsystem : SystemSaved cfg env st st₁)
    (hslept : Slept cfg st₁ st₂) : KeepsState cfg st (pmPostSleepProcessing cfg env st₂) := by
  have hmode₂ : st₂.ctx.pmMode = st.ctx.pmMode := hslept.pmMode.trans hsystem.pmMode
  have hne : st₂.ctx.pmMode ≠ .active := hmode₂ ▸ hmode
  obtain ⟨hplicH0, hplicH1, hmtimecmp⟩ := pmPostSleepProcessing_hw cfg env hne
  constructor
  case balanced =>
    rw [pmPostSleepProcessing_log hne, hslept.log, hsystem.log, hlog, hmode₂, hsystem.pmMode,
      nil_append, ← map_append]
    exact balanced_of_perm
      ((savedPieces_perm cfg env _).nodup_iff.mpr (restoredPieces_nodup cfg env _))
      (savedPieces_perm cfg env _)
  case plicH0 =>
    rw [hplicH0, hslept.plicEnH0, hsystem.plicH0]
    exact sameEnables_plicCopy ..
  case plicH1 =>
    rw [hplicH1, hmode₂, hslept.plicEnH1]
    split_ifs with hpg
    · rw [hsystem.plicEnH1 hpg]
      exact sameEnables_plicCopy ..
    · have hoff : (pmFeat st.ctx.pmMode).sysPg = false := by simpa using hpg
      rw [hslept.plicH1 (by rw [hsystem.pmMode]; exact hoff), hsystem.plicH1 hoff]
      exact SameEnables.refl ..
  case mtimecmp =>
    rw [hmtimecmp, hmode₂, ← hsystem.pmMode, hslept.mtimecmp, hsystem.mtimecmp]

theorem keepsState_undone_iff (hlog : st.log = []) (hsystem : SystemSaved cfg env st st₁) :
    KeepsState cfg st (setActive (pmRestorePlicH1 cfg (pmResumeDevice env st₁))) ↔
      (pmFeat st.ctx.pmMode).sysPg = true := by
  have hdevices : (range env.deviceOk.length).map (fun i => PmEvent.restored (.device i)) =
      (devicePieces env.deviceOk.length).map .restored := by
    simp [devicePieces, comp_def]
  have hrestored : (setActive (pmRestorePlicH1 cfg (pmResumeDevice env st₁))).log =
      (systemPieces env (pmFeat st.ctx.pmMode)).map .saved ++
        (devicePieces env.deviceOk.length ++ [Piece.plicH1]).map .restored := by
    simp [setActive, pmRestorePlicH1, pmResumeDevice, hsystem.log, hlog, hdevices]
  have hnodup : (devicePieces env.deviceOk.length ++ [Piece.plicH1]).Nodup := by
    simp [nodup_append, devicePieces_nodup]
  constructor
  · intro hkeeps
    by_contra hpg
    have hbal := hkeeps.balanced
    rw [hrestored, systemPieces, if_neg hpg] at hbal
    exact not_balanced_restored hnodup .plicH1 (by simp) hbal
  · intro hpg
    constructor
    case balanced =>
      rw [hrestored, systemPieces, if_pos hpg]
      have hperm := perm_append_singleton Piece.plicH1 (devicePieces env.deviceOk.length)
      exact balanced_of_perm (hperm.nodup_iff.mp hnodup) hperm.symm
    case plicH0 =>
      simp only [setActive, pmRestorePlicH1, pmResumeDevice, hsystem.plicH0]
      exact SameEnables.refl ..
    case plicH1 =>
      simp only [setActive, pmRestorePlicH1, pmResumeDevice, hsystem.plicEnH1 hpg]
      exact sameEnables_plicCopy ..
    case mtimecmp =>
      exact hsystem.mtimecmp

theorem preSleepChosen_keepsState_iff (hlog : st.log = []) (hmode : st.ctx.pmMode ≠ .active)
    (h : preSleepChosen cfg env st = some st') :
    KeepsState cfg st (pmPostSleepProcessing cfg env st') ↔
      (env.d25Idle = true ∨ cfg.pmMultiCore = true ∧ (pmFeat st.ctx.pmMode).sysPg = true) ∧
      ((pmFeat st.ctx.pmMode).sysPg = true → ∀ ok ∈ env.deviceOk, ok = true) := by
  unfold preSleepChosen at h
  by_cases hone : (!cfg.pmMultiCore && !env.d25Idle) = true
  · -- One core and a busy D25: nothing saved, but the second function restores.
    have hbusy : cfg.pmMultiCore = false ∧ env.d25Idle = false := by simpa using hone
    split_ifs at h
    cases h
    refine iff_of_false (fun hkeeps => ?_) (by simp [hbusy])
    have hbal := hkeeps.balanced
    rw [pmPostSleepProcessing_log hmode, hlog] at hbal
    exact not_balanced_restored (restoredPieces_nodup cfg env _) .plicH0
      (by simp [restoredPieces]) hbal
  rw [if_neg hone] at h
  by_cases hok : (pmFeat st.ctx.pmMode).sysPg = true → ∀ ok ∈ env.deviceOk, ok = true
  · obtain ⟨hgoes, hsystem⟩ := suspendSystem_of_ok cfg hok
    simp only [hgoes, Bool.not_true, Bool.false_eq_true, if_false] at h
    rw [and_iff_left hok]
    split_ifs at h with htwo
    · -- Two cores and a busy D25.
      have hbusy : cfg.pmMultiCore = true ∧ env.d25Idle = false := by simpa using htwo
      cases h
      rw [pmPostSleepProcessing_of_active rfl, keepsState_undone_iff hlog hsystem]
      simp [hbusy]
    · have hidle : env.d25Idle = true := by
        cases hd : env.d25Idle <;> cases hm : cfg.pmMultiCore <;> simp_all
      exact iff_of_true (keepsState_of_slept hlog hmode hsystem (slept_of_enterSleep h))
        (.inl hidle)
  · -- A device refuses.
    rw [Classical.not_imp] at hok
    obtain ⟨hstops, hactive, hbal⟩ := suspendSystem_of_refused cfg hlog hok.1 hok.2
    simp only [hstops, Bool.not_false, if_true, some.injEq] at h
    subst h
    rw [pmPostSleepProcessing_of_active hactive]
    exact iff_of_false (fun hkeeps => hbal hkeeps.balanced) fun hcond =>
      hok.2 (hcond.2 hok.1)

theorem chooseSleep_error (hactive : st.ctx.pmMode = .active)
    (h : chooseSleep cfg env st = .error ctx) : ctx.pmMode = .active := by
  unfold chooseSleep at h
  split at h
  · cases h
    exact hactive
  next c hplan =>
  have hc : c.pmMode = .active := by
    obtain ⟨_, _, _, rfl⟩ := planWakeup_replanned hplan
    exact hactive
  split_ifs at h
  · cases h
    exact hc
  · exact pmUpdateMode_error hc h

theorem chooseSleep_ok (h : chooseSleep cfg env st = .ok ctx) : ctx.pmMode ≠ .active := by
  unfold chooseSleep at h
  split at h
  · cases h
  · split_ifs at h
    exact pmUpdateMode_ok h

/-- One pair of calls, entered in the active mode. -/
theorem sleepPair_keepsState_iff (hactive : st.ctx.pmMode = .active)
    (h : sleepPair cfg env st = some st') : KeepsState cfg st st' ↔ SleepUnopposed cfg env st := by
  unfold sleepPair pmPreSleepProcessing at h
  rw [map_eq_some_iff] at h
  obtain ⟨pre, hpre, rfl⟩ := h
  split_ifs at hpre
  unfold SleepUnopposed
  have hchoose : chooseSleep cfg env { st with log := [] } = chooseSleep cfg env st := rfl
  cases hchosen : chooseSleep cfg env st with
  | error ctx =>
    -- Nothing was saved and nothing will be restored.
    rw [hchoose, hchosen] at hpre
    cases hpre
    rw [pmPostSleepProcessing_of_active (chooseSleep_error hactive hchosen)]
    refine iff_of_true ⟨fun _ => .inl rfl, .refl .., .refl .., rfl⟩ ?_
    rintro ctx' ⟨⟩
  | ok ctx =>
    rw [hchoose, hchosen] at hpre
    have hiff := preSleepChosen_keepsState_iff rfl (chooseSleep_ok hchosen) hpre
    -- The pair is compared with the state it was entered in: only the log and the
    -- context differ from the one in which the mode has been chosen.
    have hsame : KeepsState cfg st (pmPostSleepProcessing cfg env pre) ↔
        KeepsState cfg { st with ctx := ctx, log := [] }
          (pmPostSleepProcessing cfg env pre) :=
      ⟨fun k => { k with }, fun k => { k with }⟩
    rw [hsame]
    refine hiff.trans ⟨fun hcond ctx' h => ?_, fun hcond => hcond ctx rfl⟩
    cases h
    exact hcond

/-! ## Runs -/

/-- Between pairs of calls the mode is the active one. -/
theorem active_of_run {acts : List PmAction} (h : runSteps (pmStep cfg) pmBoot acts = some st) :
    st.ctx.pmMode = .active := by
  refine inv_of_run (fun st => st.ctx.pmMode = .active) (fun s act t hs _ hstep => ?_) rfl
    (stepsMeet_true (pmStep cfg) pmBoot acts) (prefix_refl acts) h
  cases act with
  | other ctx hw =>
    cases hstep
    exact hs
  | sleep env =>
    simp only [pmStep, sleepPair, map_eq_some_iff] at hstep
    obtain ⟨pre, _, rfl⟩ := hstep
    exact pmPostSleepProcessing_active ..

/-- **Balanced sleeps.** In every state reached, a pair of calls that returns restores exactly what
it saved, and the interrupt enables and the compare register, if and only if nothing opposes the
sleep once a mode is chosen. -/
theorem sleep_balanced_iff {cfg : PmConfig} {acts : List PmAction} {env : SleepEnv}
    {st st' : PmState} (hrun : runSteps (pmStep cfg) pmBoot acts = some st)
    (hpair : sleepPair cfg env st = some st') :
    KeepsState cfg st st' ↔ SleepUnopposed cfg env st :=
  sleepPair_keepsState_iff (active_of_run hrun) hpair

/-- A balanced deep sleep with two devices: the OS wants to wake after 60 ms. -/
theorem sleep_balanced_deepSleep :
    let cfg : PmConfig := { sdioPm := true, pmAonGpioCtrl := true }
    let awake : PwrMgmtCtx := { pmModeEnabled := 0b1100101 }
    let hw : PmHw :=
      ⟨⟨0xFF, 0, 0⟩, ⟨0xF0, 1, 0⟩, 0, 600000, ⟨0, 0, 0, 0, 0, 0, 0⟩⟩
    let lost : PmHw := ⟨⟨0, 0, 0⟩, ⟨0, 0, 0⟩, 0, 0, ⟨0, 0, 0, 0, 0, 0, 0⟩⟩
    let env : SleepEnv := ⟨[], ⟨0, 0, 0, 0, 0, 0⟩, false, true, [true, true], 0, 0, 1, 1000,
      61035, lost, ⟨0, 0⟩⟩
    let st : PmState := ⟨awake, hw, []⟩
    runSteps (pmStep cfg) pmBoot [.other awake hw] = some st ∧
      ∃ st', sleepPair cfg env st = some st' ∧ st'.log.length = 14 ∧
        KeepsState cfg st st' := by
  intro cfg awake hw lost env st
  have hrun : runSteps (pmStep cfg) pmBoot [.other awake hw] = some st := rfl
  have hlen : (sleepPair cfg env st).map (fun st' => st'.log.length) = some 14 := by
    decide +kernel
  obtain ⟨st', hpair, hlen⟩ := map_eq_some_iff.mp hlen
  refine ⟨hrun, st', hpair, hlen, (sleep_balanced_iff hrun hpair).mpr fun ctx _ => ?_⟩
  exact ⟨.inl rfl, fun _ => by decide⟩

/-- **Stale values are restored.** With SDIO and one core, D25 busy at the last check: the call
gives up with `pm_mode` set to light sleep, and the second function restores what no call has saved.
All interrupts of hart 0 are off. -/
theorem busy_d25_restores_stale :
    let cfg : PmConfig := { sdioPm := true }
    let awake : PwrMgmtCtx := { pmModeEnabled := 0b1100101 }
    let hw : PmHw :=
      ⟨⟨0xFF, 0, 0⟩, ⟨0xF0, 1, 0⟩, 0, 400000, ⟨0, 0, 0, 0, 0, 0, 0⟩⟩
    let env : SleepEnv := ⟨[], ⟨0, 0, 0, 0, 0, 0⟩, false, false, [], 0, 0, 1, 1000, 61035, hw,
      ⟨0, 0⟩⟩
    let st : PmState := ⟨awake, hw, []⟩
    runSteps (pmStep cfg) pmBoot [.other awake hw] = some st ∧
      ∃ st', sleepPair cfg env st = some st' ∧
        st'.log = [.restored .mtime, .restored .mtimecmp, .restored .plicH0] ∧
        st'.hw.plicH0.s0 = 0 ∧ st'.hw.mtimecmp = 0 ∧ ¬ KeepsState cfg st st' := by
  intro cfg awake hw env st
  have hpair : (sleepPair cfg env st).map (fun st' => (st'.log, st'.hw.plicH0.s0,
      st'.hw.mtimecmp)) =
      some ([.restored .mtime, .restored .mtimecmp, .restored .plicH0], 0, 0) := by
    decide +kernel
  obtain ⟨st', hpair, hend⟩ := map_eq_some_iff.mp hpair
  simp only [Prod.mk.injEq] at hend
  refine ⟨rfl, st', hpair, hend.1, hend.2.1, hend.2.2, fun hkeeps => ?_⟩
  have hs0 : st'.hw.plicH0.s0 = 0xFF := hkeeps.plicH0.1
  rw [hend.2.1] at hs0
  exact absurd hs0 (by decide)

end WiseSdk.Pm
