import WiseSdk.Wlan.AcceptFilter

/-!
# Which filter is evicted

A full table of accept filters with timestamps evicts what `scm2020_ps_replace_filter` finds with a
running minimum in which 0 stands for none yet. A timestamp of 0 makes it start anew with the next
slot, so that only the slots behind the last one count (`InSearch`). There it finds the smallest
timestamp, which is the oldest if the counter did not wrap in between.
-/

namespace WiseSdk.Wlan

open Library List Function

/-- `RTC_COUNT_MAX + 1`. -/
def rtcPeriod : ℕ := 0xA8C00000

/-- A table, and when each slot was last registered. -/
structure Timed where
  table : FilterInfo
  last : ℕ → ℕ

def Timed.start (t : FilterInfo) (last : ℕ → ℕ) : Timed :=
  ⟨{ t with times := fun i => last i % rtcPeriod }, last⟩

/-- A value is registered at a time, of which the code sees the counter. -/
def regAt (mc : Bool) (s : Timed) : ℕ × ℕ → Option Timed
  | (x, time) => (regFilter mc true x (time % rtcPeriod) s.table).map fun t =>
    let slot := (s.table.values.findIdx? fun v => v = 0 ∨ v = x).getD (oldest s.table)
    ⟨t, update s.last slot time⟩

/-- No zero hides the slot, unless it is in the last one. -/
def InSearch (t : FilterInfo) (i : ℕ) : Prop :=
  i < t.values.length ∧ ∀ j, i ≤ j → j + 1 < t.values.length → t.times j ≠ 0

variable {mc : Bool} {t t' : FilterInfo} {s : Timed} {x now : ℕ}

theorem oldest_spec (h : t.values ≠ []) :
    InSearch t (oldest t) ∧ ∀ j, InSearch t j → t.times (oldest t) ≤ t.times j := by
  unfold oldest InSearch
  obtain ⟨n, hn⟩ := Nat.exists_eq_succ_of_ne_zero (length_pos_iff.mpr h).ne'
  rw [hn]
  clear hn
  induction n with
  | zero => simp
  | succ n ih =>
    rw [range_succ, foldl_append, foldl_cons, foldl_nil]
    generalize (range (n + 1)).foldl _ 0 = old at ih ⊢
    -- The slot before is in the search so far.
    split_ifs with hnew
    · refine ⟨⟨Nat.lt_succ_self _, by omega⟩, fun j hj => ?_⟩
      grind
    · refine ⟨⟨by omega, fun j hle hj => ?_⟩, fun j hj => ?_⟩
      · grind
      · grind

theorem times_regFilter (h : regFilter mc true x now t = some t') : t'.times =
    update t.times ((t.values.findIdx? fun v => v = 0 ∨ v = x).getD (oldest t)) now := by
  have hset {i a : ℕ} {t t' : FilterInfo} (h : setFilter mc i a t = some t') :
      t'.times = t.times := by
    obtain ⟨-, h⟩ := Option.ite_none_right_eq_some.mp h
    rw [← Option.some.inj h]
  have hstamp {i : ℕ} {t t' : FilterInfo} (h : (setFilter mc i x t).map (stamp i now) = some t') :
      t'.times = update t.times i now := by
    obtain ⟨u, hu, rfl⟩ := Option.map_eq_some_iff.mp h
    rw [stamp, hset hu]
  unfold regFilter at h
  cases hscan : t.values.findIdx? fun v => v = 0 ∨ v = x with
  | some i =>
    simp only [hscan] at h
    split_ifs at h
    · exact hstamp h
    · cases h
      rfl
  | none =>
    simp only [hscan, replaceFilter, if_true, Option.bind_map] at h
    obtain ⟨u, hu, h⟩ := Option.bind_eq_some_iff.mp h
    rw [hstamp h, hset hu]
    rfl

theorem times_of_run {last : ℕ → ℕ} {regs : List (ℕ × ℕ)}
    (hrun : runSteps (regAt mc) (.start t last) regs = some s) (i : ℕ) :
    s.table.times i = s.last i % rtcPeriod := by
  refine inv_of_run (fun s => ∀ i, s.table.times i = s.last i % rtcPeriod)
    (fun s r s' hs _ hstep i => ?_) (fun _ => rfl) (stepsMeet_true _ _ regs) (prefix_refl regs)
    hrun i
  obtain ⟨u, hu, rfl⟩ := Option.map_eq_some_iff.mp hstep
  simp only [times_regFilter hu, update_apply]
  split_ifs
  · rfl
  · exact hs i

/-- The slot that a full table evicts after the registrations, all within a day. -/
def Evicted (mc : Bool) (t : FilterInfo) (last : ℕ → ℕ) (regs : List (ℕ × ℕ))
    (Q : Timed → ℕ → Prop) : Prop :=
  ∀ s i t', runSteps (regAt mc) (.start t last) regs = some s →
    0 ∉ s.table.values → replaceFilter mc true s.table = some (i, t') →
    (∀ i < s.table.values.length, ∀ j < s.table.values.length,
      s.last i < s.last j + rtcPeriod) → Q s i

/-- **Eviction.** The slot is the one that was registered first if and only if that is in the
search, and the counter did not wrap between the registrations in the search. -/
theorem evicts_oldest_iff (mc : Bool) (t : FilterInfo) (last : ℕ → ℕ) (regs : List (ℕ × ℕ)) :
    Evicted mc t last regs (fun s i => ∀ j < s.table.values.length, s.last i ≤ s.last j) ↔
      Evicted mc t last regs fun s _ =>
        (∃ i, InSearch s.table i ∧ ∀ j < s.table.values.length, s.last i ≤ s.last j) ∧
          ∀ i j, InSearch s.table i → InSearch s.table j →
            s.last i / rtcPeriod = s.last j / rtcPeriod := by
  refine forall₃_congr fun s i t' => forall₄_congr fun hrun _ hevict hday => ?_
  obtain ⟨u, hu, heq⟩ := Option.map_eq_some_iff.mp hevict
  obtain ⟨hlt, -⟩ := Option.ite_none_right_eq_some.mp hu
  cases heq
  obtain ⟨hin, hmin⟩ := oldest_spec (length_pos_iff.mp (Nat.zero_lt_of_lt hlt))
  simp only [times_of_run hrun] at hmin
  constructor
  · intro hold
    have hsame : ∀ j, InSearch s.table j →
        s.last j / rtcPeriod = s.last (oldest s.table) / rtcPeriod := by
      intro j hj
      have := hold j hj.1
      have := hday j hj.1 _ hlt
      have := hmin j hj
      simp only [rtcPeriod] at *
      omega
    exact ⟨⟨_, hin, hold⟩, fun i j hi hj => (hsame i hi).trans (hsame j hj).symm⟩
  · rintro ⟨⟨i, hi, hfirst⟩, hsame⟩ j hj
    refine le_trans ?_ (hfirst j hj)
    have := hmin i hi
    have := hsame i _ hi hin
    simp only [rtcPeriod] at *
    omega

/-- Four addresses are registered when the counter is at its end, 0, 1 and 2, and the third is
evicted. -/
theorem third_evicted :
    ((runSteps (regAt true) (.start (blankFilter true) fun _ => 0)
      ((range 4).map fun k => (k + 1, rtcPeriod - 1 + k))).map fun s =>
        (oldest s.table, decide (s.last 0 < s.last 2))) = some (2, true) := by
  decide

end WiseSdk.Wlan
