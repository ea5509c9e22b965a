import Mathlib.Algebra.Order.Ring.Nat
import Mathlib.Data.List.Basic
import Mathlib.Data.List.Induction

/-!
# Runs of a partial step function

A component is a state type `σ`, an action type `α` and a step function into `Option σ`; a step
without a result is one the component does not survive (a failed assertion, a loop that does not
end, an access outside memory). A run is the left fold over a list of actions.

`StepsMeet` says that every action of a run meets a guard in the state it is taken from.
`exists_run_of_stepsMeet` is the rule every invariant goes through: an invariant that may read the
actions taken so far, kept by each guarded step, holds after every guarded run, and such a run never
gets stuck. `sound_run_iff` is its exact form, for a guard that is also necessary,
`sound_reached_iff` the form for runs that may get stuck, and `refines_run_iff` the form beside a
specification that takes the same actions.
-/

namespace WiseSdk.Library

open Option

universe u v

variable {σ : Type u} {α : Type v} {G G' : Prop}

/-- The state after a list of actions, if no step of it is stuck. -/
def runSteps (step : σ → α → Option σ) (s : σ) (acts : List α) : Option σ :=
  acts.foldlM step s

/-- Every action meets the guard in the state it is taken from. -/
def StepsMeet (step : σ → α → Option σ) (Guard : σ → α → Prop) : σ → List α → Prop
  | _, [] => True
  | s, a :: acts => Guard s a ∧ ∀ t, step s a = some t → StepsMeet step Guard t acts

section

variable (step : σ → α → Option σ) (s : σ)

theorem runSteps_cons (a : α) (acts : List α) :
    runSteps step s (a :: acts) = (step s a).bind fun t => runSteps step t acts := rfl

theorem runSteps_concat (pre : List α) (a : α) :
    runSteps step s (pre ++ [a]) = (runSteps step s pre).bind fun t => step t a := by
  simp [runSteps]

end

variable {Guard Guard' Legal : σ → α → Prop} {pre acts post : List α} {s t : σ}
  {step : σ → α → Option σ} {a : α} {Sound Inv : σ → Prop}

theorem StepsMeet.of_append (h : StepsMeet step Guard s (pre ++ post)) :
    StepsMeet step Guard s pre := by
  induction pre generalizing s with
  | nil => trivial
  | cons a pre ih => exact ⟨h.1, fun t ht => ih (h.2 t ht)⟩

theorem StepsMeet.guard_at (h : StepsMeet step Guard s (pre ++ a :: post))
    (ht : runSteps step s pre = some t) : Guard t a := by
  induction pre generalizing s with
  | nil =>
    cases ht
    exact h.1
  | cons b pre ih =>
    rw [runSteps_cons, bind_eq_some_iff] at ht
    obtain ⟨u, hu, ht⟩ := ht
    exact ih (h.2 u hu) ht

theorem StepsMeet.cons_of_eq (ha : Guard s a) (hstep : step s a = some t)
    (h : StepsMeet step Guard t acts) : StepsMeet step Guard s (a :: acts) := by
  refine ⟨ha, fun u hu => ?_⟩
  rw [hstep] at hu
  cases hu
  exact h

theorem StepsMeet.concat (h : StepsMeet step Guard s pre)
    (ha : ∀ t, runSteps step s pre = some t → Guard t a) : StepsMeet step Guard s (pre ++ [a]) := by
  induction pre generalizing s with
  | nil => exact ⟨ha s rfl, fun _ _ => trivial⟩
  | cons b pre ih =>
    refine ⟨h.1, fun t ht => ih (h.2 t ht) fun u hu => ha u ?_⟩
    rw [runSteps_cons, ht]
    exact hu

theorem StepsMeet.of_inv (Inv : σ → Prop) (himp : ∀ s a, Inv s → Guard s a → Guard' s a)
    (hkeep : ∀ s a t, Inv s → Guard s a → step s a = some t → Inv t) (hinit : Inv s)
    (h : StepsMeet step Guard s acts) : StepsMeet step Guard' s acts := by
  induction acts generalizing s with
  | nil => trivial
  | cons a acts ih =>
    exact ⟨himp s a hinit h.1, fun t ht => ih (hkeep s a t hinit h.1 ht) (h.2 t ht)⟩

theorem StepsMeet.mono (himp : ∀ s a, Guard s a → Guard' s a) (h : StepsMeet step Guard s acts) :
    StepsMeet step Guard' s acts :=
  h.of_inv (fun _ => True) (fun s a _ => himp s a) (fun _ _ _ _ _ _ => trivial) trivial

theorem StepsMeet.and (h : StepsMeet step Guard s acts) (h' : StepsMeet step Guard' s acts) :
    StepsMeet step (fun s a => Guard s a ∧ Guard' s a) s acts := by
  induction acts generalizing s with
  | nil => trivial
  | cons a acts ih => exact ⟨⟨h.1, h'.1⟩, fun t ht => ih (h.2 t ht) (h'.2 t ht)⟩

theorem stepsMeet_of_forall (h : ∀ s a, Guard s a) (s : σ) (acts : List α) :
    StepsMeet step Guard s acts := by
  induction acts generalizing s with
  | nil => trivial
  | cons a acts ih => exact ⟨h s a, fun t _ => ih t⟩

theorem stepsMeet_true (step : σ → α → Option σ) (s : σ) (acts : List α) :
    StepsMeet step (fun _ _ => True) s acts :=
  stepsMeet_of_forall (fun _ _ => trivial) s acts

theorem stepsMeet_cons_of_none (h : step s a = none) :
    StepsMeet step Guard s (a :: acts) ↔ Guard s a := by
  simp [StepsMeet, h]

theorem stepsMeet_cons_of_some (h : step s a = some t) :
    StepsMeet step Guard s (a :: acts) ↔ Guard s a ∧ StepsMeet step Guard t acts := by
  simp [StepsMeet, h]

/-- A run can be checked against a guard that can be. -/
instance decidableStepsMeet (step : σ → α → Option σ) (Guard : σ → α → Prop)
    [∀ s a, Decidable (Guard s a)] :
    (s : σ) → (acts : List α) → Decidable (StepsMeet step Guard s acts)
  | _, [] => .isTrue trivial
  | s, a :: acts =>
    match h : step s a with
    | none => decidable_of_iff _ (stepsMeet_cons_of_none h).symm
    | some t =>
      have := decidableStepsMeet step Guard t acts
      decidable_of_iff _ (stepsMeet_cons_of_some h).symm

/-- **Invariant rule.** An invariant of the state and the actions so far that each guarded step
establishes again, without getting stuck, holds after every guarded run. -/
theorem exists_run_of_stepsMeet (Inv : List α → σ → Prop)
    (hstep : ∀ pre s a, Inv pre s → Guard s a → ∃ t, step s a = some t ∧ Inv (pre ++ [a]) t)
    (hinit : Inv [] s) (hacts : StepsMeet step Guard s acts) :
    ∃ t, runSteps step s acts = some t ∧ Inv acts t := by
  induction acts using List.reverseRecOn with
  | nil => exact ⟨s, rfl, hinit⟩
  | append_singleton pre a ih =>
    obtain ⟨t, ht, hinv⟩ := ih hacts.of_append
    obtain ⟨u, hu, hinv'⟩ := hstep pre t a hinv (hacts.guard_at ht)
    exact ⟨u, by rw [runSteps_concat, ht, bind_some, hu], hinv'⟩

/-- **Invariant rule, as far as a run gets.** An invariant kept by every guarded step holds in every
state a guarded run reaches. -/
theorem inv_of_run (Inv : σ → Prop)
    (hstep : ∀ s a t, Inv s → Guard s a → step s a = some t → Inv t) (hinit : Inv s)
    (hacts : StepsMeet step Guard s acts) (hpre : pre <+: acts)
    (hrun : runSteps step s pre = some t) : Inv t := by
  obtain ⟨post, rfl⟩ := hpre
  induction pre generalizing s with
  | nil =>
    cases hrun
    exact hinit
  | cons a pre ih =>
    rw [runSteps_cons, bind_eq_some_iff] at hrun
    obtain ⟨u, hu, hrun⟩ := hrun
    exact ih (hstep s a u hinit hacts.1 hu) hrun (hacts.2 u hu)

theorem stepsMeet_congr (Inv : σ → Prop) (hiff : ∀ s a, Inv s → (Guard s a ↔ Guard' s a))
    (hkeep : ∀ s a t, Inv s → Guard s a → step s a = some t → Inv t) (hinit : Inv s)
    (acts : List α) : StepsMeet step Guard s acts ↔ StepsMeet step Guard' s acts := by
  constructor
  · exact StepsMeet.of_inv Inv (fun s a hs => (hiff s a hs).mp) hkeep hinit
  · refine StepsMeet.of_inv Inv (fun s a hs => (hiff s a hs).mpr) (fun s a t hs hguard => ?_) hinit
    exact hkeep s a t hs ((hiff s a hs).mpr hguard)

/-- **Exact guards.** From states with an invariant, legal steps that meet the guard keep it, and
those that do not get stuck or leave a state that is not sound. Then all states of a legal run are
sound if and only if every step meets the guard. -/
theorem sound_run_iff (Inv : σ → Prop) (hsound : ∀ s, Inv s → Sound s)
    (hkeep : ∀ s a, Inv s → Legal s a → Guard s a → ∃ t, step s a = some t ∧ Inv t)
    (hneeds : ∀ s a t, Inv s → Legal s a → step s a = some t → Sound t → Guard s a)
    (hinit : Inv s) (hlegal : StepsMeet step Legal s acts) :
    (∀ pre, pre <+: acts → ∃ t, runSteps step s pre = some t ∧ Sound t) ↔
      StepsMeet step Guard s acts := by
  have hrun : ∀ acts, StepsMeet step Legal s acts → StepsMeet step Guard s acts →
      ∃ t, runSteps step s acts = some t ∧ Inv t := fun acts hlegal hmeet =>
    exists_run_of_stepsMeet (fun _ => Inv) (fun _ s a hs h => hkeep s a hs h.1 h.2) hinit
      (hlegal.and hmeet)
  constructor
  · intro hall
    induction acts using List.reverseRecOn with
    | nil => trivial
    | append_singleton pre a ih =>
      have hmeet := ih hlegal.of_append fun p hp => hall p (hp.trans (List.prefix_append ..))
      refine hmeet.concat fun t ht => ?_
      -- The step does not get stuck and leaves a sound state, so it met the guard.
      obtain ⟨t', ht', hinv⟩ := hrun pre hlegal.of_append hmeet
      cases ht.symm.trans ht'
      obtain ⟨u, hu, hsu⟩ := hall _ List.prefix_rfl
      rw [runSteps_concat, ht, bind_some] at hu
      exact hneeds t a u hinv (hlegal.guard_at ht) hu hsu
  · rintro hmeet pre ⟨post, rfl⟩
    obtain ⟨t, ht, hinv⟩ := hrun pre hlegal.of_append hmeet.of_append
    exact ⟨t, ht, hsound t hinv⟩

/-! ## Verdicts -/

/-- The verdict on a step: it meets the condition and keeps the invariant, or does not meet it and
leaves a state that is not sound. A step that gets stuck meets it. -/
def Verdict (Inv Sound : σ → Prop) (G : Prop) : Option σ → Prop
  | none => G
  | some s => G ∧ Inv s ∨ ¬G ∧ ¬Sound s

theorem Verdict.congr {r : Option σ} (h : Verdict Inv Sound G r) (hiff : G ↔ G') :
    Verdict Inv Sound G' r := by
  rwa [← propext hiff]

theorem verdict_of_inv (hG : G) (h : Inv s) : Verdict Inv Sound G (some s) := .inl ⟨hG, h⟩

theorem verdict_of_not_sound (hG : ¬G) (h : ¬Sound s) : Verdict Inv Sound G (some s) := .inr ⟨hG, h⟩

/-- **Exact guards, as far as a run gets.** Every step from a state with the invariant has its
verdict. Then every state a run reaches is sound if and only if every step meets the guard. -/
theorem sound_reached_iff (Inv : σ → Prop) (hsound : ∀ s, Inv s → Sound s)
    (hstep : ∀ s a, Inv s → Verdict Inv Sound (Guard s a) (step s a)) (hinit : Inv s)
    (acts : List α) :
    (∀ pre t, pre <+: acts → runSteps step s pre = some t → Sound t) ↔
      StepsMeet step Guard s acts := by
  have hkeep : ∀ s a t, Inv s → Guard s a → step s a = some t → Inv t := by
    intro s a t hs hguard ht
    have hverdict := hstep s a hs
    rw [ht] at hverdict
    rcases hverdict with ⟨-, hinv⟩ | ⟨hnot, -⟩
    · exact hinv
    · exact absurd hguard hnot
  constructor
  · intro hall
    induction acts using List.reverseRecOn with
    | nil => trivial
    | append_singleton pre a ih =>
      have hmeet := ih fun p t hp => hall p t (hp.trans (List.prefix_append ..))
      refine hmeet.concat fun t ht => ?_
      have hverdict := hstep t a (inv_of_run Inv hkeep hinit hmeet List.prefix_rfl ht)
      cases hu : step t a with
      | none =>
        rw [hu] at hverdict
        exact hverdict
      | some u =>
        rw [hu] at hverdict
        rcases hverdict with ⟨hguard, -⟩ | ⟨-, hbroken⟩
        · exact hguard
        · refine absurd (hall _ u List.prefix_rfl ?_) hbroken
          rw [runSteps_concat, ht, bind_some, hu]
  · intro hmeet pre t hpre hrun
    exact hsound t (inv_of_run Inv hkeep hinit hmeet hpre hrun)

/-! ## Runs beside a specification -/

section Tracked

universe w

variable {τ : Type w}

/-- A step together with what the specification says of it. -/
def tracked (step : σ → α → Option σ) (spec : τ → α → τ) (st : σ × τ) (a : α) : Option (σ × τ) :=
  (step st.1 a).map fun t => (t, spec st.2 a)

theorem runSteps_tracked (step : σ → α → Option σ) (spec : τ → α → τ) (s : σ) (r : τ)
    (acts : List α) :
    runSteps (tracked step spec) (s, r) acts =
      (runSteps step s acts).map fun t => (t, acts.foldl spec r) := by
  induction acts generalizing s r with
  | nil => rfl
  | cons a acts ih =>
    rw [runSteps_cons, runSteps_cons, tracked]
    cases step s a with
    | none => rfl
    | some t => exact ih t (spec r a)

theorem stepsMeet_tracked (step : σ → α → Option σ) (spec : τ → α → τ) (Guard : σ → α → Prop)
    (s : σ) (r : τ) (acts : List α) :
    StepsMeet (tracked step spec) (fun st => Guard st.1) (s, r) acts ↔
      StepsMeet step Guard s acts := by
  induction acts generalizing s r with
  | nil => exact Iff.rfl
  | cons a acts ih =>
    refine and_congr_right fun _ => ?_
    constructor
    · intro h t ht
      exact (ih t (spec r a)).mp (h (t, spec r a) (by rw [tracked, ht, map_some]))
    · intro h st hst
      obtain ⟨t, ht, rfl⟩ := map_eq_some_iff.mp hst
      exact (ih t (spec r a)).mpr (h t ht)

/-- **Exact guards for a refinement.** Steps that meet the guard go along with the specification,
and others get stuck or depart from it. Then a run goes along all the way if and only if every step
meets the guard. -/
theorem refines_run_iff {step : σ → α → Option σ} {spec : τ → α → τ} (Rel : σ → τ → Prop)
    (hkeep : ∀ s r a, Rel s r → Guard s a → ∃ t, step s a = some t ∧ Rel t (spec r a))
    (hneeds : ∀ s r a t, Rel s r → step s a = some t → Rel t (spec r a) → Guard s a)
    {s : σ} {r : τ} (hinit : Rel s r) (acts : List α) :
    (∀ pre, pre <+: acts → ∃ t, runSteps step s pre = some t ∧ Rel t (pre.foldl spec r)) ↔
      StepsMeet step Guard s acts := by
  have hlegal : StepsMeet (tracked step spec) (fun _ _ => True) (s, r) acts :=
    stepsMeet_of_forall (fun _ _ => trivial) _ _
  have hrun : (∀ pre, pre <+: acts → ∃ st : σ × τ,
        runSteps (tracked step spec) (s, r) pre = some st ∧ Rel st.1 st.2) ↔
      StepsMeet (tracked step spec) (fun st => Guard st.1) (s, r) acts := by
    refine sound_run_iff (fun st => Rel st.1 st.2) (fun _ h => h) ?_ ?_ hinit hlegal
    · intro st a hrel _ hguard
      obtain ⟨t, ht, hrel'⟩ := hkeep st.1 st.2 a hrel hguard
      exact ⟨(t, spec st.2 a), by rw [tracked, ht, map_some], hrel'⟩
    · intro st a st' hrel _ hstep hrel'
      obtain ⟨t, ht, rfl⟩ := map_eq_some_iff.mp hstep
      exact hneeds st.1 st.2 a t hrel ht hrel'
  rw [← stepsMeet_tracked step spec, ← hrun]
  refine forall₂_congr fun pre _ => ?_
  rw [runSteps_tracked]
  constructor
  · rintro ⟨t, ht, hrel⟩
    exact ⟨(t, pre.foldl spec r), by rw [ht, map_some], hrel⟩
  · rintro ⟨st, hst, hrel⟩
    obtain ⟨t, ht, rfl⟩ := map_eq_some_iff.mp hst
    exact ⟨t, ht, hrel⟩

end Tracked

end WiseSdk.Library
