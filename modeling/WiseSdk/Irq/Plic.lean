import WiseSdk.Library.Runs

/-!
# The shared interrupt tables

`hal/soc/scm2010/plic.c` keeps, for each interrupt line, a list of the handlers requested on it;
`plic-sw.c` does the same for the software interrupts. The table of the PLIC has a slot for line 0
and is indexed with the line number, the other one with the line number less one. Both take lines 1
to NR, and both tables have NR slots.

The files are one definition here, with the controller as its parameter. A `Registry` holds the
handlers requested on each line and not freed yet, in order. `table_agrees_iff` says which runs of
requests, frees and interrupts keep the table with it.
-/

namespace WiseSdk.Irq

open Library List Option Function

inductive Controller where
  /-- `plic.c`. -/
  | plic
  /-- `plic-sw.c`. -/
  | plicSw
  deriving DecidableEq, Repr

open Controller

variable {nr : ℕ} {H P : Type} {name : String} {b mem : Bool}

/-! ## The tables -/

/-- `struct irq_entry` and `struct sw_irq_entry`; the link is the place in a list. -/
structure IrqEntry (H P : Type) where
  name : String
  handler : Option H
  priority : BitVec 32
  count : BitVec 32
  priv : Option P
  deriving DecidableEq, Repr

/-- `irq_table` or `sw_irq_table`, with `nr` slots, and the registers of the controller. -/
structure Irqs (nr : ℕ) (H P : Type) where
  table : Fin nr → List (IrqEntry H P)
  priority : ℤ → BitVec 32
  enabled : ℤ → Bool

def IsValidIrq (nr : ℕ) (irq : ℤ) : Prop := 0 < irq ∧ irq ≤ nr
deriving Decidable

/-- The index a line is looked up with: `irq_table[irq]` and `sw_irq_table[irq - 1]`. -/
def Controller.index : Controller → ℤ → ℕ
  | .plic, irq => irq.toNat
  | .plicSw, irq => (irq - 1).toNat

/-- The slot of a line; nothing when the index is outside the table. -/
def Controller.slot (c : Controller) (nr : ℕ) (irq : ℤ) : Option (Fin nr) :=
  if h : c.index irq < nr then some ⟨c.index irq, h⟩ else none

def irqId0 : IrqEntry H P :=
  { name := "no interrupt", handler := none, priority := 0, count := 0, priv := none }

/-- The state after `init_irq`; the software interrupts have no initialisation. -/
def Irqs.init (nr : ℕ) (H P : Type) : Controller → Irqs nr H P
  | .plic =>
    { table := fun k => if k.val = 0 then [irqId0] else []
      priority := fun _ => 0
      enabled := fun _ => false }
  | .plicSw =>
    { table := fun _ => [], priority := fun _ => 0, enabled := fun _ => false }

def Irqs.setIntprio (s : Irqs nr H P) (irq : ℤ) (priority : BitVec 32) : Irqs nr H P :=
  { s with priority := update s.priority irq priority }

def Irqs.enableInt (s : Irqs nr H P) (irq : ℤ) : Irqs nr H P :=
  { s with enabled := update s.enabled irq true }

def Irqs.disableInt (s : Irqs nr H P) (irq : ℤ) : Irqs nr H P :=
  { s with enabled := update s.enabled irq false }

def Irqs.setList (s : Irqs nr H P) (k : Fin nr) (l : List (IrqEntry H P)) : Irqs nr H P :=
  { s with table := update s.table k l }

/-! ## Requests -/

def enomem : ℤ := 12

section Request

variable [DecidableEq H]

/-- The body of the two request functions.  `mem` says whether the allocation succeeds. -/
def Controller.request (c : Controller) (s : Irqs nr H P) (irq : ℤ) (handler : Option H)
    (name : String) (priority : BitVec 32) (priv : Option P) (mem : Bool) :
    Option (Irqs nr H P × ℤ) :=
  if ¬ IsValidIrq nr irq then some (s, -1)
  else (c.slot nr irq).bind fun k =>
    if (s.table k).any fun i => i.name = name ∧ i.handler = handler then
      some ((s.setIntprio irq priority).enableInt irq, 0)
    else if ¬ mem then some (s, -enomem)
    else
      -- The search has left `p` at the last entry, and the new one is linked behind it.
      let i : IrqEntry H P := { name, handler, priority, count := 0, priv }
      some (((s.setList k (s.table k ++ [i])).setIntprio irq priority).enableInt irq, 0)

def requestIrq : Irqs nr H P → ℤ → Option H → String → BitVec 32 → Option P → Bool →
    Option (Irqs nr H P × ℤ) :=
  plic.request

def requestSwIrq : Irqs nr H P → ℤ → Option H → String → BitVec 32 → Option P → Bool →
    Option (Irqs nr H P × ℤ) :=
  plicSw.request

end Request

/-! ## Frees -/

/-- The search of the two free functions, `for (i = head; i != NULL; i = p)`, over positions in the
list: where `i` and `p` stand at the end. No result means that the rounds were not enough. -/
def freeLoop (l : List (IrqEntry H P)) (name : String) :
    ℕ → Option ℕ → Option ℕ → Option (Option ℕ × Option ℕ)
  | 0, _, _ => none
  | _ + 1, none, p => some (none, p)
  | rounds + 1, some i, p =>
    match l[i]? with
    | none => none
    | some e =>
      if e.name = name then some (some i, p) else freeLoop l name rounds (some i) (some i)

/-- The body of the two free functions, with a round for each entry and one to see the end; by
`freeLoop_of_ne` a loop that needs more never ends. -/
def Controller.free (c : Controller) (s : Irqs nr H P) (irq : ℤ) (name : String) :
    Option (Irqs nr H P) :=
  if ¬ IsValidIrq nr irq then some s
  else (c.slot nr irq).bind fun k =>
    let l := s.table k
    let s := s.disableInt irq
    match freeLoop l name (l.length + 1) (l.head?.map fun _ => 0) none with
    | none => none
    | some (none, _) => some s
    | some (some _, none) => some (s.setList k [])
    | some (some _, some p) => some ((s.setList k (l.take (p + 1))).enableInt irq)

def freeIrq : Irqs nr H P → ℤ → String → Option (Irqs nr H P) := plic.free

def freeSwIrq : Irqs nr H P → ℤ → String → Option (Irqs nr H P) := plicSw.free

/-! ## Interrupts -/

/-- A call of a handler: `handler(irqnr, priv)`. -/
structure Call (H P : Type) where
  handler : H
  irqnr : ℤ
  priv : Option P
  deriving DecidableEq, Repr

/-- The loop over a line's list: the entries with their counts, and the calls made. -/
def serve (irqnr : ℤ) : List (IrqEntry H P) → List (IrqEntry H P) × List (Call H P)
  | [] => ([], [])
  | irq :: rest =>
    let (rest', calls) := serve irqnr rest
    ({ irq with count := irq.count + 1 } :: rest',
      (irq.handler.map fun h => ⟨h, irqnr, irq.priv⟩).toList ++ calls)

/-- The body of the two interrupt handlers. -/
def Controller.handle (c : Controller) (s : Irqs nr H P) (irqnr : ℤ) :
    Option (Irqs nr H P × List (Call H P)) :=
  if ¬ IsValidIrq nr irqnr then some (s, [])
  else (c.slot nr irqnr).map fun k =>
    let (l, calls) := serve irqnr (s.table k)
    (s.setList k l, calls)

def irqHandler : Irqs nr H P → ℤ → Option (Irqs nr H P × List (Call H P)) :=
  plic.handle

def swIrqHandler : Irqs nr H P → ℤ → Option (Irqs nr H P × List (Call H P)) :=
  plicSw.handle

/-! ## Runs -/

/-- What happens to a table: a driver requests or frees a line, or the controller raises one. -/
inductive Action (H P : Type) where
  | request (irq : ℤ) (handler : Option H) (name : String) (priority : BitVec 32)
      (priv : Option P) (mem : Bool)
  | free (irq : ℤ) (name : String)
  | interrupt (irq : ℤ)
  deriving DecidableEq, Repr

section Step

variable [DecidableEq H]

/-- A step of one of the tables. No result: an access outside it, or a call that does not return. -/
def Controller.step : Controller → Irqs nr H P → Action H P → Option (Irqs nr H P)
  | .plic, s, .request irq handler name priority priv mem =>
    (requestIrq s irq handler name priority priv mem).map Prod.fst
  | .plicSw, s, .request irq handler name priority priv mem =>
    (requestSwIrq s irq handler name priority priv mem).map Prod.fst
  | .plic, s, .free irq name => freeIrq s irq name
  | .plicSw, s, .free irq name => freeSwIrq s irq name
  -- A line that is not enabled raises no interrupt.
  | .plic, s, .interrupt irq => if s.enabled irq then (irqHandler s irq).map Prod.fst else some s
  | .plicSw, s, .interrupt irq =>
    if s.enabled irq then (swIrqHandler s irq).map Prod.fst else some s

section

variable (c : Controller) (s : Irqs nr H P) (irq : ℤ)

theorem Controller.step_request (handler : Option H) (name : String) (priority : BitVec 32)
    (priv : Option P) (mem : Bool) :
    c.step s (.request irq handler name priority priv mem) =
      (c.request s irq handler name priority priv mem).map Prod.fst := by
  cases c <;> rfl

theorem Controller.step_free (name : String) : c.step s (.free irq name) = c.free s irq name := by
  cases c <;> rfl

theorem Controller.step_interrupt :
    c.step s (.interrupt irq) =
      if s.enabled irq then (c.handle s irq).map Prod.fst else some s := by
  cases c <;> rfl

end

end Step

/-! ## The registry -/

/-- What a driver hands over with a request. -/
structure Registration (H P : Type) where
  name : String
  handler : Option H
  priv : Option P
  deriving DecidableEq, Repr

/-- The handlers requested on each line and not freed, in the order of the requests. -/
abbrev Registry (H P : Type) := ℤ → List (Registration H P)

/-- The registrations after an action. A request of a name and handler already there, or without
memory, changes nothing; a free takes its name out of the line. -/
def Registry.step [DecidableEq H] (nr : ℕ) (r : Registry H P) : Action H P → Registry H P
  | .request irq handler name _ priv mem =>
    if IsValidIrq nr irq ∧ mem ∧
        ¬ (r irq).any (fun g => g.name = name ∧ g.handler = handler) then
      update r irq (r irq ++ [{ name, handler, priv }])
    else r
  | .free irq name =>
    if IsValidIrq nr irq then
      update r irq ((r irq).eraseP fun g => g.name = name)
    else r
  | .interrupt _ => r

def Registry.empty : Registry H P := fun _ => []

/-- The calls an interrupt of a line owes its registrations: one for each that has a handler. -/
def dueCalls (irqnr : ℤ) (l : List (Registration H P)) : List (Call H P) :=
  l.filterMap fun g => g.handler.map fun h => ⟨h, irqnr, g.priv⟩

def IrqEntry.registration (e : IrqEntry H P) : Registration H P := ⟨e.name, e.handler, e.priv⟩

def Controller.line (c : Controller) (s : Irqs nr H P) (irq : ℤ) : List (IrqEntry H P) :=
  (c.slot nr irq).elim [] s.table

/-- A table agrees with a registry: every line holds its registrations in order, is enabled when
there are any, and its interrupt calls each once, in that order. -/
structure Agrees (c : Controller) (s : Irqs nr H P) (r : Registry H P) : Prop where
  lists : ∀ irq, IsValidIrq nr irq → (c.line s irq).map IrqEntry.registration = r irq
  enabled : ∀ irq, IsValidIrq nr irq → (s.enabled irq = true ↔ r irq ≠ [])
  handled : ∀ irq, IsValidIrq nr irq → r irq ≠ [] →
    ∃ t, c.handle s irq = some (t, dueCalls irq (r irq))

/-- The line is inside the table, and a free of a line with entries finds a single one, of the name
it asks for. -/
def Guard (c : Controller) (s : Irqs nr H P) : Action H P → Prop
  | .request irq _ _ _ _ _ => IsValidIrq nr irq → c.index irq < nr
  | .free irq name => IsValidIrq nr irq → c.index irq < nr ∧
      (c.line s irq = [] ∨ ∃ e, c.line s irq = [e] ∧ e.name = name)
  | .interrupt _ => True

/-! ## Slots and lines -/

theorem Controller.slot_eq_some_iff (c : Controller) (irq : ℤ) (k : Fin nr) :
    c.slot nr irq = some k ↔ c.index irq = k.val := by
  unfold slot
  split
  case isTrue hlt => rw [some_inj, Fin.ext_iff]
  case isFalse hout =>
    refine iff_of_false nofun ?_
    intro heq
    exact hout (heq ▸ k.isLt)

variable {irq irq' : ℤ} {e : IrqEntry H P}

theorem Controller.slot_of_lt (c : Controller) (h : c.index irq < nr) :
    c.slot nr irq = some ⟨c.index irq, h⟩ :=
  dif_pos h

theorem Controller.index_inj (c : Controller) (h : IsValidIrq nr irq) (h' : IsValidIrq nr irq')
    (heq : c.index irq = c.index irq') : irq = irq' := by
  obtain ⟨hpos, -⟩ := h
  obtain ⟨hpos', -⟩ := h'
  cases c <;> simp only [index] at heq <;> omega

theorem Controller.line_of_slot (c : Controller) (s : Irqs nr H P) {k : Fin nr}
    (h : c.slot nr irq = some k) : c.line s irq = s.table k := by
  rw [line, h, elim_some]

theorem Controller.line_update (c : Controller) {s t : Irqs nr H P} {k : Fin nr}
    {l : List (IrqEntry H P)} (hvalid : IsValidIrq nr irq) (hslot : c.slot nr irq = some k)
    (htable : t.table = update s.table k l) (hvalid' : IsValidIrq nr irq') :
    c.line t irq' = if irq' = irq then l else c.line s irq' := by
  split
  case isTrue heq =>
    rw [heq, c.line_of_slot t hslot, htable, update_self]
  case isFalse hne =>
    cases hslot' : c.slot nr irq' with
    | none => rw [line, line, hslot']; rfl
    | some k' =>
      have hk : k' ≠ k := by
        rintro rfl
        rw [slot_eq_some_iff] at hslot hslot'
        exact hne (c.index_inj hvalid' hvalid (hslot'.trans hslot.symm))
      rw [c.line_of_slot t hslot', c.line_of_slot s hslot', htable, update_of_ne hk]

/-! ## What the loops do -/

theorem serve_calls (irqnr : ℤ) (l : List (IrqEntry H P)) :
    (serve irqnr l).2 = dueCalls irqnr (l.map IrqEntry.registration) := by
  induction l with
  | nil => rfl
  | cons e l ih =>
    show (e.handler.map fun h => (⟨h, irqnr, e.priv⟩ : Call H P)).toList ++ (serve irqnr l).2 = _
    rw [ih, dueCalls, dueCalls, map_cons, filterMap_cons]
    cases h : e.handler <;> simp [IrqEntry.registration, h]

theorem serve_registrations (irqnr : ℤ) (l : List (IrqEntry H P)) :
    (serve irqnr l).1.map IrqEntry.registration = l.map IrqEntry.registration := by
  induction l with
  | nil => rfl
  | cons e l ih =>
    rw [map_cons, ← ih]
    rfl

/-- **The search that does not advance.** When the first entry has another name, the loop never
ends. -/
theorem freeLoop_of_ne (h : e.name ≠ name) (l : List (IrqEntry H P)) (rounds : ℕ) (p : Option ℕ) :
    freeLoop (e :: l) name rounds (some 0) p = none := by
  induction rounds generalizing p with
  | zero => rfl
  | succ rounds ih =>
    simp only [freeLoop, getElem?_cons_zero, if_neg h]
    exact ih (some 0)

section Specs

variable (c : Controller) (s : Irqs nr H P) {irq : ℤ} {k : Fin nr}

theorem Controller.free_of_nil (hvalid : IsValidIrq nr irq) (hslot : c.slot nr irq = some k)
    (name : String) (hl : s.table k = []) : c.free s irq name = some (s.disableInt irq) := by
  rw [free, if_neg (not_not_intro hvalid), hslot, bind_some, hl]
  rfl

variable {l : List (IrqEntry H P)}

section

variable (hvalid : IsValidIrq nr irq) (hslot : c.slot nr irq = some k)

include hvalid hslot

theorem Controller.free_of_head (hl : s.table k = e :: l) :
    c.free s irq e.name = some ((s.disableInt irq).setList k []) := by
  rw [free, if_neg (not_not_intro hvalid), hslot, bind_some, hl]
  simp [freeLoop]

/-- A free that finds another name first does not return. -/
theorem Controller.free_of_ne (hl : s.table k = e :: l) (hne : e.name ≠ name)
    : c.free s irq name = none := by
  rw [free, if_neg (not_not_intro hvalid), hslot, bind_some, hl]
  simp only [head?_cons, map_some, freeLoop_of_ne hne]

theorem Controller.handle_of_slot :
    c.handle s irq = some (s.setList k (serve irq (s.table k)).1, (serve irq (s.table k)).2) := by
  rw [handle, if_neg (not_not_intro hvalid), hslot]
  rfl

end

end Specs

/-! ## One step -/

section Agreement

variable {c : Controller} {s t : Irqs nr H P} {r : Registry H P} {irq : ℤ} {k : Fin nr}

theorem Agrees.of_lists
    (hlists : ∀ irq, IsValidIrq nr irq → (c.line s irq).map IrqEntry.registration = r irq)
    (henabled : ∀ irq, IsValidIrq nr irq → (s.enabled irq = true ↔ r irq ≠ [])) :
    Agrees c s r := by
  refine ⟨hlists, henabled, fun irq hvalid hne => ?_⟩
  rw [← hlists irq hvalid] at hne ⊢
  cases hslot : c.slot nr irq with
  | none =>
    rw [line, hslot] at hne
    exact absurd rfl hne
  | some k =>
    refine ⟨s.setList k (serve irq (s.table k)).1, ?_⟩
    rw [c.handle_of_slot s hvalid hslot, serve_calls, c.line_of_slot s hslot]

theorem Agrees.list_eq (hrel : Agrees c s r) (hvalid : IsValidIrq nr irq)
    (hslot : c.slot nr irq = some k) : (s.table k).map IrqEntry.registration = r irq := by
  rw [← c.line_of_slot s hslot, hrel.lists irq hvalid]

variable {l : List (IrqEntry H P)}

/-- **One line changes.** A table with a new list and enable bit of one line agrees with the
registry with new registrations of that line. -/
theorem Agrees.assign (hrel : Agrees c s r) (hvalid : IsValidIrq nr irq)
    (hslot : c.slot nr irq = some k) {g : List (Registration H P)}
    (htable : t.table = update s.table k l)
    (henabled : t.enabled = update s.enabled irq b)
    (hl : l.map IrqEntry.registration = g) (hb : b = true ↔ g ≠ []) :
    Agrees c t (update r irq g) := by
  refine Agrees.of_lists (fun irq' hvalid' => ?_) (fun irq' hvalid' => ?_)
  · rw [c.line_update hvalid hslot htable hvalid', update_apply]
    split
    · exact hl
    · exact hrel.lists irq' hvalid'
  · rw [henabled, update_apply, update_apply]
    split
    · exact hb
    · exact hrel.enabled irq' hvalid'

theorem Agrees.assign_same (hrel : Agrees c s r) (hvalid : IsValidIrq nr irq)
    (hslot : c.slot nr irq = some k) (htable : t.table = update s.table k l)
    (henabled : t.enabled = update s.enabled irq b)
    (hl : l.map IrqEntry.registration = r irq) (hb : b = true ↔ r irq ≠ []) : Agrees c t r := by
  have h := hrel.assign hvalid hslot htable henabled hl hb
  rwa [update_eq_self] at h

theorem agrees_init (c : Controller) : Agrees c (Irqs.init nr H P c) Registry.empty := by
  refine Agrees.of_lists (fun irq hvalid => ?_) (fun irq _ => ?_)
  · cases hslot : c.slot nr irq with
    | none =>
      rw [line, hslot]
      rfl
    | some k =>
      rw [c.line_of_slot _ hslot]
      cases c with
      | plic =>
        -- Slot 0, which holds `irq_id_0`, is not the slot of a valid line.
        have hk : k.val ≠ 0 := by
          have hpos : 0 < irq := hvalid.1
          have hindex : irq.toNat = k.val := (slot_eq_some_iff _ _ _).mp hslot
          omega
        show (if k.val = 0 then [irqId0] else []).map IrqEntry.registration = []
        rw [if_neg hk, map_nil]
      | plicSw => rfl
  · refine iff_of_false ?_ (not_not_intro rfl)
    cases c <;> exact Bool.false_ne_true

theorem any_registration [DecidableEq H] (l : List (IrqEntry H P)) (handler : Option H)
    (name : String) :
    (l.map IrqEntry.registration).any (fun g => g.name = name ∧ g.handler = handler) =
      l.any fun i => i.name = name ∧ i.handler = handler := by
  rw [List.any_map]
  rfl

theorem Agrees.request [DecidableEq H] (hrel : Agrees c s r) (handler : Option H) (name : String)
    (priority : BitVec 32) (priv : Option P) (mem : Bool)
    (hin : IsValidIrq nr irq → c.index irq < nr) :
    ∃ t, c.step s (.request irq handler name priority priv mem) = some t ∧
      Agrees c t (r.step nr (.request irq handler name priority priv mem)) := by
  rw [step_request, Controller.request, Registry.step]
  by_cases hvalid : IsValidIrq nr irq
  case neg =>
    rw [if_pos hvalid, if_neg fun h => hvalid h.1]
    exact ⟨s, rfl, hrel⟩
  have hslot := c.slot_of_lt (hin hvalid)
  generalize (⟨c.index irq, hin hvalid⟩ : Fin nr) = k at hslot
  have hlist := hrel.list_eq hvalid hslot
  rw [if_neg (not_not_intro hvalid), hslot, bind_some, ← hlist, any_registration]
  by_cases hany : (s.table k).any fun i => i.name = name ∧ i.handler = handler
  · rw [if_pos hany, if_neg fun h => h.2.2 hany]
    refine ⟨_, rfl, hrel.assign_same hvalid hslot (update_eq_self _ _).symm rfl hlist ?_⟩
    refine iff_of_true rfl ?_
    rw [← hlist]
    rintro hnil
    rw [map_eq_nil_iff.mp hnil] at hany
    exact absurd hany Bool.false_ne_true
  rw [if_neg hany]
  cases mem with
  | false =>
    rw [if_pos Bool.false_ne_true, if_neg fun h => Bool.false_ne_true h.2.1]
    exact ⟨s, rfl, hrel⟩
  | true =>
    rw [if_neg (not_not_intro rfl), if_pos ⟨hvalid, rfl, hany⟩]
    refine ⟨_, rfl, hrel.assign hvalid hslot rfl rfl ?_ ?_⟩
    · rw [map_append]
      rfl
    · exact iff_of_true rfl (append_ne_nil_of_right_ne_nil _ (cons_ne_nil _ _))

theorem eraseP_registration (e : IrqEntry H P) (l : List (IrqEntry H P)) :
    ((e :: l).map IrqEntry.registration).eraseP (fun g => g.name = e.name) =
      l.map IrqEntry.registration := by
  rw [map_cons]
  exact eraseP_cons_of_pos (decide_eq_true rfl)

theorem Agrees.free [DecidableEq H] (hrel : Agrees c s r) (name : String)
    (hguard : IsValidIrq nr irq → c.index irq < nr ∧
      (c.line s irq = [] ∨ ∃ e, c.line s irq = [e] ∧ e.name = name)) :
    ∃ t, c.step s (.free irq name) = some t ∧ Agrees c t (r.step nr (.free irq name)) := by
  rw [step_free, Registry.step]
  by_cases hvalid : IsValidIrq nr irq
  case neg =>
    rw [Controller.free, if_pos hvalid, if_neg hvalid]
    exact ⟨s, rfl, hrel⟩
  obtain ⟨hin, hline⟩ := hguard hvalid
  have hslot := c.slot_of_lt hin
  generalize (⟨c.index irq, hin⟩ : Fin nr) = k at hslot
  rw [if_pos hvalid, ← hrel.list_eq hvalid hslot]
  rw [c.line_of_slot s hslot] at hline
  rcases hline with hnil | ⟨e, hsingle, rfl⟩
  · refine ⟨_, c.free_of_nil s hvalid hslot name hnil, ?_⟩
    refine hrel.assign hvalid hslot (update_eq_self k _).symm rfl ?_ ?_
    · show (s.table k).map IrqEntry.registration = _
      rw [hnil]
      rfl
    · rw [hnil]
      exact iff_of_false Bool.false_ne_true (not_not_intro rfl)
  · refine ⟨_, c.free_of_head s hvalid hslot hsingle, ?_⟩
    rw [hsingle, eraseP_registration]
    exact hrel.assign hvalid hslot rfl rfl rfl
      (iff_of_false Bool.false_ne_true (not_not_intro rfl))

theorem Agrees.guard_of_free [DecidableEq H] (hrel : Agrees c s r)
    (hstep : c.step s (.free irq name) = some t)
    (hrel' : Agrees c t (r.step nr (.free irq name))) (hvalid : IsValidIrq nr irq) :
    c.index irq < nr ∧ (c.line s irq = [] ∨ ∃ e, c.line s irq = [e] ∧ e.name = name) := by
  rw [step_free] at hstep
  cases hslot : c.slot nr irq with
  | none =>
    rw [Controller.free, if_neg (not_not_intro hvalid), hslot] at hstep
    cases hstep
  | some k =>
    have hindex := (c.slot_eq_some_iff irq k).mp hslot
    refine ⟨hindex ▸ k.isLt, ?_⟩
    rw [c.line_of_slot s hslot]
    cases hl : s.table k with
    | nil => exact .inl rfl
    | cons e l =>
      have hname : e.name = name := by
        by_contra hne
        rw [c.free_of_ne s hvalid hslot hl hne] at hstep
        cases hstep
      subst hname
      refine .inr ⟨e, ?_, rfl⟩
      -- The whole list has been dropped, so the registry held no more than this entry.
      rw [c.free_of_head s hvalid hslot hl, some_inj] at hstep
      have hlist := hrel'.list_eq hvalid hslot
      rw [Registry.step, if_pos hvalid, update_self, ← hrel.list_eq hvalid hslot, hl,
        eraseP_registration, ← hstep] at hlist
      have hnil : ((s.disableInt irq).setList k []).table k = [] := update_self ..
      rw [hnil, map_nil] at hlist
      rw [map_eq_nil_iff.mp hlist.symm]

theorem Controller.index_lt_of_request [DecidableEq H] {handler : Option H} {priority : BitVec 32}
    {priv : Option P}
    (hstep : c.step s (.request irq handler name priority priv mem) = some t)
    (hvalid : IsValidIrq nr irq) : c.index irq < nr := by
  rw [step_request, request, if_neg (not_not_intro hvalid)] at hstep
  cases hslot : c.slot nr irq with
  | none =>
    rw [hslot] at hstep
    cases hstep
  | some k => exact (c.slot_eq_some_iff irq k).mp hslot ▸ k.isLt

theorem Agrees.interrupt [DecidableEq H] (hrel : Agrees c s r) (irq : ℤ) :
    ∃ t, c.step s (.interrupt irq) = some t ∧ Agrees c t (r.step nr (.interrupt irq)) := by
  rw [step_interrupt]
  cases hon : s.enabled irq with
  | false => exact ⟨s, rfl, hrel⟩
  | true =>
    rw [if_pos rfl]
    by_cases hvalid : IsValidIrq nr irq
    case neg =>
      rw [handle, if_pos hvalid]
      exact ⟨s, rfl, hrel⟩
    have hne := (hrel.enabled irq hvalid).mp hon
    cases hslot : c.slot nr irq with
    | none =>
      refine absurd ?_ hne
      rw [← hrel.lists irq hvalid, line, hslot]
      rfl
    | some k =>
      rw [c.handle_of_slot s hvalid hslot]
      refine ⟨_, rfl, hrel.assign_same hvalid hslot rfl ?_ ?_ (hrel.enabled irq hvalid)⟩
      · exact (update_eq_self irq s.enabled).symm
      · rw [serve_registrations, hrel.list_eq hvalid hslot]

end Agreement

/-! ## Whole runs -/

/-- **The interrupt tables.** In any run of requests, frees and interrupts from the initial state,
on either controller: every call returns, every index stays inside the table and the table agrees
with the registry all along, if and only if every line has a slot and every free of a line with
entries finds a single one, of its name. -/
theorem table_agrees_iff [DecidableEq H] (c : Controller) (nr : ℕ) (acts : List (Action H P)) :
    (∀ pre, pre <+: acts → ∃ s, runSteps c.step (Irqs.init nr H P c) pre = some s ∧
        Agrees c s (pre.foldl (Registry.step nr) Registry.empty)) ↔
      StepsMeet c.step (Guard c) (Irqs.init nr H P c) acts := by
  refine refines_run_iff (Agrees c) ?_ ?_ (agrees_init c) acts
  · intro s r a hrel hguard
    cases a with
    | request irq handler name priority priv mem =>
      exact hrel.request handler name priority priv mem hguard
    | free irq name => exact hrel.free name hguard
    | interrupt irq => exact hrel.interrupt irq
  · intro s r a t hrel hstep hrel'
    cases a with
    | request irq handler name priority priv mem =>
      exact fun hvalid => index_lt_of_request hstep hvalid
    | free irq name => exact hrel.guard_of_free hstep hrel'
    | interrupt irq => trivial

def sharedLine : List (Action ℕ ℕ) :=
  [.request 3 (some 10) "uart" 1 none true, .request 3 (some 20) "spi" 1 none true]

/-- Two drivers share line 3 of the PLIC. When the first frees it, the handler of the second is gone
and the line disabled; when the second does, the call does not return. A request of the last valid
line reads behind the table. -/
theorem shared_line_lost :
    ((runSteps plic.step (Irqs.init 49 ℕ ℕ .plic)
        (sharedLine ++ [.free 3 "uart"])).map fun s =>
      (plic.line s 3, s.enabled 3)) = some ([], false) ∧
    (sharedLine ++ [Action.free 3 "uart"]).foldl (Registry.step 49) Registry.empty 3 =
      [⟨"spi", some 20, none⟩] ∧ (runSteps plic.step (Irqs.init 49 ℕ ℕ .plic)
      (sharedLine ++ [.free 3 "spi"])).isNone = true ∧
    (runSteps plic.step (Irqs.init 49 ℕ ℕ .plic)
      [.request 49 (some 10) "uart" 1 none true]).isNone = true ∧
    ¬ ∀ pre, pre <+: sharedLine ++ [.free 3 "uart"] → ∃ s,
      runSteps plic.step (Irqs.init 49 ℕ ℕ .plic) pre = some s ∧
        Agrees .plic s (pre.foldl (Registry.step 49) Registry.empty) := by
  have hlost : ((runSteps plic.step (Irqs.init 49 ℕ ℕ .plic)
        (sharedLine ++ [.free 3 "uart"])).map fun s =>
      (plic.line s 3, s.enabled 3)) = some ([], false) := by decide
  have howed : (sharedLine ++ [Action.free 3 "uart"]).foldl (Registry.step 49) Registry.empty 3 =
      [⟨"spi", some 20, none⟩] := by decide
  refine ⟨hlost, howed, by decide, by decide, fun hall => ?_⟩
  obtain ⟨s, hs, hrel⟩ := hall _ (prefix_refl _)
  have hlist := hrel.lists 3 (by decide)
  rw [hs, map_some, some_inj, Prod.mk.injEq] at hlost
  rw [hlost.1, howed] at hlist
  cases hlist

end WiseSdk.Irq
