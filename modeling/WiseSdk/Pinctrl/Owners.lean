import WiseSdk.Library.Runs

/-!
# The owners of pins

`request_pin` and `free_pin` of `hal/drivers/pinctrl/pinctrl-core.c` keep an owner and a count for
every pin.  Neither compares the pin with `npins`: the test for a missing descriptor is made on
`ops->pins + pin`, which is never null, and a larger pin is an access outside the table.

The mux setting is what the callbacks of the registered controller have been asked for; what they
answer comes with a call.  A ledger beside the code holds the requests that are not yet freed.
-/

namespace WiseSdk.Pinctrl

open Library List Function

inductive Callback where
  | request | setMux | freePmx | gpioRequestEnable | gpioDisableFree

/-- A request or a free, with the device and the id of the caller. -/
structure Call (Dev Id : Type*) where
  (free gpio : Bool)
  client : Dev × Id
  pin : ℕ
  answer : Callback → ℤ

/-- `struct pinctrl_pin_desc`. -/
structure PinDesc (Dev Id : Type*) where
  refcnt : ℕ
  owner : Option (Dev × Id)

structure Controller (Dev Id : Type*) where
  pins : ℕ → PinDesc Dev Id
  called : List (Callback × ℕ)

/-- The controller, and the requests that succeeded and are not yet freed. -/
abbrev World (Dev Id : Type*) := Controller Dev Id × List (ℕ × Dev × Id)

def einval : ℤ := 22

def intMax : ℕ := 2 ^ 31 - 1

section

variable {Dev Id : Type*}

/-- The callbacks that a call makes, and what they come to. -/
def Call.callbacks (call : Call Dev Id) : List Callback × ℤ :=
  match call.free, call.gpio with
  | false, true => ([.gpioRequestEnable], call.answer .gpioRequestEnable)
  | false, false =>
    if call.answer .request = 0 then ([.request, .setMux], call.answer .setMux)
    else ([.request], -einval)
  | true, true => ([.gpioDisableFree], call.answer .gpioDisableFree)
  | true, false => ([.freePmx], call.answer .freePmx)

def Controller.ask (c : Controller Dev Id) (call : Call Dev Id) : Controller Dev Id :=
  { c with called := c.called ++ call.callbacks.1.map (·, call.pin) }

variable [DecidableEq Dev] [DecidableEq Id] (npins : ℕ)

/-- `request_pin`; no result where it leaves the table, or the count overflows. -/
def requestPin (c : Controller Dev Id) (call : Call Dev Id) : Option (ℤ × Controller Dev Id) :=
  let desc := c.pins call.pin
  if npins ≤ call.pin then none
  else if desc.refcnt ≠ 0 ∧ desc.owner ≠ some call.client then some (-einval, c)
  else if call.callbacks.2 ≠ 0 then some (call.callbacks.2, c.ask call)
  else if desc.refcnt = intMax then none
  else some (0, { c.ask call with
    pins := update c.pins call.pin ⟨desc.refcnt + 1, some call.client⟩ })

/-- `free_pin`. -/
def freePin (c : Controller Dev Id) (call : Call Dev Id) : Option (ℤ × Controller Dev Id) :=
  let desc := c.pins call.pin
  if npins ≤ call.pin then none
  else if desc.refcnt = 0 then some (-einval, c)
  else if desc.owner ≠ some call.client then some (-einval, c)
  else if call.callbacks.2 ≠ 0 then some (call.callbacks.2, c.ask call)
  else some (0, { c.ask call with
    pins := update c.pins call.pin
      ⟨desc.refcnt - 1, if desc.refcnt - 1 = 0 then none else desc.owner⟩ })

def perform (c : Controller Dev Id) (call : Call Dev Id) : Option (ℤ × Controller Dev Id) :=
  if call.free then freePin npins c call else requestPin npins c call

def step (w : World Dev Id) (call : Call Dev Id) : Option (World Dev Id) :=
  (perform npins w.1 call).map fun (ret, c) =>
    (c, if ret ≠ 0 then w.2 else if call.free then w.2.erase (call.pin, call.client)
      else (call.pin, call.client) :: w.2)

/-- A pin in use has one owner, whose requests are counted, and calls by others fail without a
change or a callback. -/
def Sound (w : World Dev Id) : Prop :=
  ∀ pin < npins, 0 < (w.1.pins pin).refcnt → ∃ o, (w.1.pins pin).owner = some o ∧
    (w.1.pins pin).refcnt = w.2.count (pin, o) ∧ (∀ o', (pin, o') ∈ w.2 → o' = o) ∧
    ∀ call : Call Dev Id, call.pin = pin → call.client ≠ o →
      ∃ ret ≠ 0, perform npins w.1 call = some (ret, w.1)

/-- The pin is in the table, and its count below the largest `int`. -/
def InTable (w : World Dev Id) (call : Call Dev Id) : Prop :=
  call.pin < npins ∧ (w.1.pins call.pin).refcnt < intMax
deriving Decidable

def Controller.start : Controller Dev Id := ⟨fun _ => ⟨0, none⟩, []⟩

def Agrees (w : World Dev Id) : Prop :=
  ∀ pin, ((w.1.pins pin).refcnt = 0 ↔ (w.1.pins pin).owner = none) ∧
    ∀ o, w.2.count (pin, o) = if (w.1.pins pin).owner = some o then (w.1.pins pin).refcnt else 0

variable {npins} {w : World Dev Id} {call : Call Dev Id}

theorem Agrees.sound (h : Agrees w) : Sound npins w := by
  intro pin hpin hpos
  obtain ⟨hnone, hcount⟩ := h pin
  obtain ⟨o, ho⟩ := Option.ne_none_iff_exists'.mp fun h => hpos.ne' (hnone.mpr h)
  refine ⟨o, ho, by rw [hcount, if_pos ho], fun o' hmem => ?_, ?_⟩
  · have hne := (count_pos_iff.mpr hmem).ne'
    rw [hcount, ho] at hne
    by_contra hother
    exact hne (if_neg fun h => hother (Option.some.inj h).symm)
  · rintro call rfl hother
    have howner : (w.1.pins call.pin).owner ≠ some call.client := by
      rw [ho]
      exact fun h => hother (Option.some.inj h).symm
    refine ⟨-einval, by decide, ?_⟩
    simp only [perform, freePin, requestPin, if_neg hpin.not_ge, ne_eq, hpos.ne', howner,
      not_false_eq_true, and_self, if_true, ite_self]

theorem Agrees.update {c : Controller Dev Id} {ledger : List (ℕ × Dev × Id)} {p : ℕ}
    {desc : PinDesc Dev Id} (h : Agrees w) (hpins : c.pins = Function.update w.1.pins p desc)
    (hother : ∀ pin ≠ p, ∀ o, ledger.count (pin, o) = w.2.count (pin, o))
    (hnone : desc.refcnt = 0 ↔ desc.owner = none)
    (hcount : ∀ o, ledger.count (p, o) = if desc.owner = some o then desc.refcnt else 0) :
    Agrees (c, ledger) := by
  intro pin
  rw [hpins]
  by_cases hpin : pin = p
  · rw [hpin, update_self]
    exact ⟨hnone, hcount⟩
  · rw [update_of_ne hpin]
    exact ⟨(h pin).1, fun o => (hother pin hpin o).trans ((h pin).2 o)⟩

theorem Agrees.step (h : Agrees w) (hcall : InTable npins w call) :
    ∃ w', step npins w call = some w' ∧ Agrees w' := by
  obtain ⟨hpin, hlt⟩ := hcall
  obtain ⟨hnone, hcount⟩ := h call.pin
  have hne {pin : ℕ} (hp : pin ≠ call.pin) (o : Dev × Id) : (pin, o) ≠ (call.pin, call.client) :=
    fun heq => hp (Prod.ext_iff.mp heq).1
  cases hfree : call.free with
  | false =>
    simp only [Pinctrl.step, perform, hfree, Bool.false_eq_true, if_false, requestPin,
      if_neg hpin.not_ge, if_neg hlt.ne]
    split_ifs with hforeign hret
    · exact ⟨w, rfl, h⟩
    · exact ⟨(w.1.ask call, w.2), by rw [Option.map_some, if_pos hret], h⟩
    refine ⟨_, rfl, h.update rfl (fun pin hp o => ?_) (by simp) fun o => ?_⟩
    · exact count_cons_of_ne (hne hp o).symm
    · have hold : (w.1.pins call.pin).owner = none ∨
          (w.1.pins call.pin).owner = some call.client := by
        rw [← hnone]
        tauto
      simp only [ne_eq, not_true_eq_false, if_false, count_cons, hcount]
      rcases hold with ho | ho
      · simp [ho, hnone.mpr ho]
      · by_cases hc : call.client = o <;> simp [ho, hc]
  | true =>
    simp only [Pinctrl.step, perform, hfree, if_true, freePin, if_neg hpin.not_ge]
    generalize hleft : (if (w.1.pins call.pin).refcnt - 1 = 0 then none
      else (w.1.pins call.pin).owner) = left
    split_ifs with hzero hforeign hret
    · exact ⟨w, rfl, h⟩
    · exact ⟨w, rfl, h⟩
    · exact ⟨(w.1.ask call, w.2), by rw [Option.map_some, if_pos hret], h⟩
    have ho := not_not.mp hforeign
    subst hleft
    refine ⟨_, rfl, h.update rfl (fun pin hp o => ?_) ?_ fun o => ?_⟩
    · exact count_erase_of_ne (hne hp o)
    · split_ifs <;> simp [*]
    · simp only [ne_eq, not_true_eq_false, if_false, count_erase, hcount, ho]
      split_ifs <;> simp_all

/-- **Pin ownership**, in every run of calls on pins of the table. -/
theorem owners_sound {calls : List (Call Dev Id)}
    (hcalls : StepsMeet (Pinctrl.step npins) (InTable npins) (Controller.start, []) calls) :
    ∃ w, runSteps (Pinctrl.step npins) (Controller.start, []) calls = some w ∧ Sound npins w := by
  obtain ⟨w, hw, hinv⟩ := exists_run_of_stepsMeet (fun _ => Agrees)
    (fun _ _ _ h hcall => h.step hcall) (fun _ => ⟨by simp [Controller.start], fun o => rfl⟩) hcalls
  exact ⟨w, hw, hinv.sound⟩

end

def sampleCall (free : Bool) (dev : Bool) (pin : ℕ) : Call Bool Unit :=
  ⟨free, false, (dev, ()), pin, fun _ => 0⟩

/-- One device requests pin 0 twice and the other in vain, which then gets pin 1; the first frees
one of its requests. -/
def twoOwners : List (Call Bool Unit) :=
  [sampleCall false false 0, sampleCall false false 0, sampleCall false true 0,
    sampleCall false true 1, sampleCall true false 0]

/-- Pin 0 is still in use, and the other device can neither request nor free it. -/
theorem owners_sound_two :
    ∃ w, runSteps (step 2) (Controller.start, []) twoOwners = some w ∧ Sound 2 w ∧
      w.2 = [(1, true, ()), (0, false, ())] ∧ (w.1.pins 0).refcnt = 1 ∧
      (w.1.pins 0).owner = some (false, ()) ∧
      ∀ free, perform 2 w.1 (sampleCall free true 0) = some (-22, w.1) := by
  obtain ⟨w, hrun, hsound⟩ := owners_sound (show StepsMeet (step 2) (InTable 2)
    (Controller.start, []) twoOwners by decide)
  refine ⟨w, hrun, hsound, ?_⟩
  cases hrun
  exact ⟨rfl, rfl, rfl, fun free => by cases free <;> rfl⟩

/-- A pin behind the table is not rejected. -/
theorem owners_outside :
    perform 1 (Controller.start : Controller Unit Unit)
      ⟨false, false, ((), ()), 1, fun _ => 0⟩ = none :=
  rfl

end WiseSdk.Pinctrl
