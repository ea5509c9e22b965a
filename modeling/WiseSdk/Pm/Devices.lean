import WiseSdk.Pm.Sleep

/-!
# Suspending the device table (device.c)

`pm_suspend_device` walks the device table and calls the suspend hook of every driver that has one.
When a hook refuses, the walk turns round *at the device that refused* and calls every resume hook
down to the start of the table.

The model logs the hooks called. The walk down undoes exactly what was done when no driver on the
way has only one of the two hooks and the one that refused has no resume hook
(`suspend_all_or_nothing_iff`).
-/

namespace WiseSdk.Pm.Devices

open List

/-- Which hooks a `struct driver` has. -/
structure Driver where
  suspend : Bool
  resume : Bool
  deriving DecidableEq, Repr

/-- The device table: the driver of each device, if it has one. -/
abbrev DeviceTab := List (Option Driver)

/-- A call of a hook, with the place of the device in the table. -/
inductive HookCall where
  | suspend (dev : ℕ)
  | resume (dev : ℕ)
  deriving DecidableEq, Repr

variable (tab : DeviceTab) {k total : ℕ}

def DeviceTab.suspends (dev : ℕ) : Bool := (tab[dev]?.join).any Driver.suspend

def DeviceTab.resumes (dev : ℕ) : Bool := (tab[dev]?.join).any Driver.resume

/-- The body of both resume loops. -/
def resumeCall (dev : ℕ) : List HookCall :=
  if tab.resumes dev then [.resume dev] else []

/-- The loop at the label `fail`, from `dev` down to the start of the table. -/
def resumeDown (tab : DeviceTab) : ℕ → List HookCall
  | 0 => resumeCall tab 0
  | dev + 1 => resumeCall tab (dev + 1) ++ resumeDown tab dev

/-- The first loop with `n` devices to go: the value returned and the hooks called. `ret` is what
the suspend hooks return. -/
def suspendLoop (tab : DeviceTab) (ret : ℕ → ℤ) : ℕ → ℕ → ℤ × List HookCall
  | 0, _ => (0, [])
  | n + 1, dev =>
    if tab.suspends dev then
      if ret dev < 0 then (ret dev, .suspend dev :: resumeDown tab dev)
      else
        let r := suspendLoop tab ret n (dev + 1)
        (r.1, .suspend dev :: r.2)
    else suspendLoop tab ret n (dev + 1)

variable (ret : ℕ → ℤ)

def pmSuspendDevice : ℤ × List HookCall :=
  suspendLoop tab ret tab.length 0

def pmResumeDevice : List HookCall :=
  (range tab.length).flatMap (resumeCall tab)

/-! ## The property -/

/-- **All or nothing.** On success every device with a suspend hook was suspended once, in table
order, and nothing else called. On failure a device is resumed once if its suspend hook succeeded,
and else not at all. -/
def AllOrNothing : Prop :=
  let r := pmSuspendDevice tab ret
  if r.1 = 0 then
    r.2 = ((range tab.length).filter tab.suspends).map HookCall.suspend
  else
    ∀ dev, r.2.count (.resume dev) = if .suspend dev ∈ r.2 ∧ 0 ≤ ret dev then 1 else 0

/-- The suspend hook of `dev` is the first one that refuses. -/
structure FirstRefusal (tab : DeviceTab) (ret : ℕ → ℤ) (dev : ℕ) : Prop where
  suspends : tab.suspends dev = true
  refuses : ret dev < 0
  first : ∀ j < dev, tab.suspends j = true → 0 ≤ ret j

/-- The walk down undoes the walk up: the device that refuses has no resume hook, and every one
before it both hooks or none. -/
def UndoMatches : Prop :=
  ∀ dev, FirstRefusal tab ret dev →
    tab.resumes dev = false ∧ ∀ j < dev, tab.suspends j = tab.resumes j

/-! ## What the loops call -/

section Loops

variable (tab : DeviceTab) {ret : ℕ → ℤ}

def suspendCalls (dev n : ℕ) : List HookCall :=
  ((range' dev n).filter tab.suspends).map HookCall.suspend

theorem suspendCalls_succ (dev n : ℕ) :
    suspendCalls tab dev (n + 1) =
      if tab.suspends dev then .suspend dev :: suspendCalls tab (dev + 1) n
      else suspendCalls tab (dev + 1) n := by
  rw [suspendCalls, range'_succ, filter_cons]
  split <;> rfl

theorem suspend_mem_suspendCalls {n j : ℕ} :
    .suspend j ∈ suspendCalls tab 0 n ↔ j < n ∧ tab.suspends j = true := by
  simp [suspendCalls, mem_range']

theorem resume_not_mem_suspendCalls (dev n j : ℕ) : .resume j ∉ suspendCalls tab dev n := by
  simp [suspendCalls]

theorem suspend_not_mem_resumeDown (dev j : ℕ) : .suspend j ∉ resumeDown tab dev := by
  induction dev with
  | zero =>
    rw [resumeDown, resumeCall]
    split <;> simp
  | succ dev ih =>
    rw [resumeDown, resumeCall, mem_append, not_or]
    refine ⟨?_, ih⟩
    split <;> simp

theorem count_resumeCall (dev j : ℕ) :
    (resumeCall tab dev).count (.resume j) = if j = dev ∧ tab.resumes j = true then 1 else 0 := by
  rw [resumeCall]
  by_cases hdev : j = dev
  · subst hdev
    split <;> simp [*]
  · split <;> simp [hdev, Ne.symm hdev]

/-- The walk down resumes every device with a resume hook, once. -/
theorem count_resumeDown (dev j : ℕ) :
    (resumeDown tab dev).count (.resume j) = if j ≤ dev ∧ tab.resumes j = true then 1 else 0 := by
  induction dev with
  | zero => simp only [resumeDown, count_resumeCall, Nat.le_zero]
  | succ dev ih =>
    rw [resumeDown, count_append, count_resumeCall, ih]
    cases tab.resumes j with
    | false => simp
    | true =>
      simp only [and_true]
      rcases Nat.lt_trichotomy j (dev + 1) with hlt | rfl | hgt
      · rw [if_neg (by omega), if_pos (by omega), if_pos (by omega)]
      · rw [if_pos rfl, if_neg (by omega), if_pos (Nat.le_refl _)]
      · rw [if_neg (by omega), if_neg (by omega), if_neg (by omega)]

variable {tab}

theorem suspendLoop_ok {n dev : ℕ}
    (h : ∀ j, dev ≤ j → j < dev + n → tab.suspends j = true → 0 ≤ ret j) :
    suspendLoop tab ret n dev = (0, suspendCalls tab dev n) := by
  induction n generalizing dev with
  | zero => rfl
  | succ n ih =>
    have hrest := @ih (dev + 1) fun j hle hlt => h j (by omega) (by omega)
    rw [suspendLoop, suspendCalls_succ, hrest]
    split_ifs with hsus hneg
    · exact absurd (h dev (Nat.le_refl _) (by omega) hsus) (by omega)
    · rfl
    · rfl

theorem suspendLoop_refused {n dev : ℕ} (hle : dev ≤ k) (hlt : k < dev + n)
    (hk : FirstRefusal tab ret k) :
    suspendLoop tab ret n dev =
      (ret k, suspendCalls tab dev (k + 1 - dev) ++ resumeDown tab k) := by
  induction n generalizing dev with
  | zero => omega
  | succ n ih =>
    rcases hle.eq_or_lt with rfl | hbefore
    · have hone : dev + 1 - dev = 1 := by omega
      rw [suspendLoop, if_pos hk.suspends, if_pos hk.refuses, hone, suspendCalls_succ,
        if_pos hk.suspends]
      rfl
    have hcount : k + 1 - dev = k + 1 - (dev + 1) + 1 := by omega
    have hrest := @ih (dev + 1) hbefore (by omega)
    rw [suspendLoop, hrest, hcount, suspendCalls_succ]
    split_ifs with hsus hneg
    · exact absurd (hk.first dev hbefore hsus) (by omega)
    · rfl
    · rfl

end Loops

/-! ## All or nothing -/

section Undo

variable {tab : DeviceTab} {ret : ℕ → ℤ}

theorem lt_length_of_suspends {dev : ℕ} (h : tab.suspends dev = true) : dev < tab.length := by
  by_contra hge
  simp [DeviceTab.suspends, getElem?_eq_none (Nat.le_of_not_lt hge)] at h

theorem pmSuspendDevice_refused (hk : FirstRefusal tab ret k) :
    pmSuspendDevice tab ret = (ret k, suspendCalls tab 0 (k + 1) ++ resumeDown tab k) :=
  suspendLoop_refused (Nat.zero_le k) (by
    have := lt_length_of_suspends hk.suspends
    omega) hk

theorem exists_firstRefusal_or (tab : DeviceTab) (ret : ℕ → ℤ) :
    (∃ k, FirstRefusal tab ret k) ∨ ∀ j, tab.suspends j = true → 0 ≤ ret j := by
  by_cases h : ∃ k, tab.suspends k = true ∧ ret k < 0
  · refine .inl ⟨Nat.find h, (Nat.find_spec h).1, (Nat.find_spec h).2, fun j hj hsus => ?_⟩
    by_contra hneg
    exact Nat.find_min h hj ⟨hsus, by omega⟩
  · refine .inr fun j hsus => ?_
    by_contra hneg
    exact h ⟨j, hsus, by omega⟩

/-- **After a refusal**, the hooks called are right exactly when the walk down matches. -/
theorem allOrNothing_of_refusal (hk : FirstRefusal tab ret k) :
    AllOrNothing tab ret ↔ tab.resumes k = false ∧ ∀ j < k, tab.suspends j = tab.resumes j := by
  have hne : ¬ret k = 0 := by
    have := hk.refuses
    omega
  simp only [AllOrNothing, pmSuspendDevice_refused hk, if_neg hne, count_append, count_resumeDown,
    count_eq_zero_of_not_mem (resume_not_mem_suspendCalls tab 0 (k + 1) _), mem_append,
    suspend_mem_suspendCalls, suspend_not_mem_resumeDown, or_false, Nat.zero_add, Nat.lt_succ_iff]
  constructor
  · intro h
    refine ⟨?_, fun j hj => ?_⟩
    · by_contra hres
      have hcount := h k
      rw [if_pos ⟨Nat.le_refl k, by simpa using hres⟩,
        if_neg (by have := hk.refuses; omega)] at hcount
      exact absurd hcount (by decide)
    · have hcount := h j
      have hok := hk.first j hj
      cases hsus : tab.suspends j <;> cases hres : tab.resumes j <;>
        simp_all [Nat.le_of_lt hj]
  · rintro ⟨hlast, hbefore⟩ j
    rcases Nat.lt_trichotomy j k with hlt | rfl | hgt
    · have hok := hk.first j hlt
      rw [← hbefore j hlt]
      cases hsus : tab.suspends j <;> simp_all
    · simp [hlast, hk.refuses]
    · rw [if_neg (by omega), if_neg (by omega)]

/-- **Device suspend is all or nothing** exactly if the walk down matches the walk up at the first
refusal. -/
theorem suspend_all_or_nothing_iff (tab : DeviceTab) (ret : ℕ → ℤ) :
    AllOrNothing tab ret ↔ UndoMatches tab ret := by
  rcases exists_firstRefusal_or tab ret with ⟨k, hk⟩ | hall
  · rw [allOrNothing_of_refusal hk]
    refine ⟨fun h dev hdev => ?_, fun h => h k hk⟩
    -- There is one first refusal.
    obtain rfl : dev = k := by
      rcases Nat.lt_trichotomy dev k with hlt | heq | hgt
      · exact absurd (hk.first dev hlt hdev.suspends) (by have := hdev.refuses; omega)
      · exact heq
      · exact absurd (hdev.first k hgt hk.suspends) (by have := hk.refuses; omega)
    exact h
  · have hno : ∀ dev, ¬FirstRefusal tab ret dev := fun dev h =>
      absurd (hall dev h.suspends) (by have := h.refuses; omega)
    have hloop : pmSuspendDevice tab ret = (0, suspendCalls tab 0 tab.length) :=
      suspendLoop_ok fun j _ _ hsus => hall j hsus
    refine iff_of_true ?_ fun dev h => absurd h (hno dev)
    simp only [AllOrNothing, hloop, if_true, suspendCalls, range_eq_range']

end Undo

/-- **A device that refused is resumed.** Of two drivers with both hooks the second refuses: both
are resumed. A driver with only a resume hook in front of one that refuses is resumed too. -/
theorem refused_device_resumed :
    let both : Option Driver := some ⟨true, true⟩
    let refuseAt (k : ℕ) : ℕ → ℤ := fun dev => if dev = k then -16 else 0
    (pmSuspendDevice [both, both] (refuseAt 1) =
        (-16, [.suspend 0, .suspend 1, .resume 1, .resume 0]) ∧
      ¬AllOrNothing [both, both] (refuseAt 1)) ∧
    (pmSuspendDevice [some ⟨false, true⟩, some ⟨true, false⟩] (refuseAt 1) =
        (-16, [.suspend 1, .resume 0]) ∧
      ¬AllOrNothing [some ⟨false, true⟩, some ⟨true, false⟩] (refuseAt 1)) := by
  intro both refuseAt
  refine ⟨⟨rfl, fun h => absurd (h 1) (by decide)⟩, ⟨rfl, fun h => absurd (h 0) (by decide)⟩⟩

end WiseSdk.Pm.Devices
