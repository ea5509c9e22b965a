import Mathlib.Data.List.Perm.Basic

/-!
# Starting and stopping several timer channels

`atcpit_timer_start_multi` and `atcpit_timer_stop_multi` of `hal/drivers/timer/timer-atcpit.c` do
for all channels of a mask what the calls for one channel do, with one write to each register. The
second loop of the stop goes on with the bits of the first, and reads `TIMER_INTEN` only when it
meets a channel with an interrupt.
-/

namespace WiseSdk.Timer

open List

/-- `CONFIG_NR_CH`. -/
def nrCh : ℕ := 4

/-- `struct ch_data`, as far as the calls read it; `isr` says that there is one. -/
structure ChData where
  config : BitVec 32
  isr : Bool

/-- `TIMER_INTEN` and `TIMER_CHEN`. -/
@[ext] structure Regs where
  inten : BitVec 32
  chen : BitVec 32
  deriving DecidableEq

def timerChEnBit (ch tmr : ℕ) : BitVec 32 := (1#32 <<< tmr) <<< (ch * 4)

/-- A free-running channel, or one with an `isr`. -/
def ChData.interrupts (d : ChData) : Bool := d.config &&& 0xf == 0x4 || d.isr

section Calls

variable (data : ℕ → ChData) (r : Regs) (ch : ℕ) (chs : BitVec 8)

/-- The bit of the channel in `TIMER_CHEN`: `TIMER_TMR_3` for PWM, and else `TIMER_TMR_0`. -/
def runBit : BitVec 32 := timerChEnBit ch (if (data ch).config &&& 0x8 ≠ 0 then 3 else 0)

def atcpitTimerStart : Regs :=
  if nrCh ≤ ch then r
  else
    let bit := runBit data ch
    let r := if (data ch).interrupts then { r with inten := r.inten ||| timerChEnBit ch 0 } else r
    let en := r.chen
    let r := { r with chen := en ||| bit }
    let r := { r with chen := en &&& ~~~bit }
    { r with chen := en ||| bit }

def atcpitTimerStop : Regs :=
  if nrCh ≤ ch then r
  else
    let r := { r with chen := r.chen &&& ~~~runBit data ch }
    if (data ch).interrupts then { r with inten := r.inten &&& ~~~timerChEnBit ch 0 } else r

/-- The channels a loop does not skip. -/
def selected : List ℕ := (range nrCh).filter fun ch => chs.getLsbD ch

def atcpitTimerStartMulti : Regs :=
  let enUpdate := (selected chs).foldl (fun u ch =>
    if (data ch).interrupts then u ||| timerChEnBit ch 0 else u) 0#32
  let r := { r with inten := r.inten ||| enUpdate }
  let enUpdate := (selected chs).foldl (fun u ch => u ||| runBit data ch) 0#32
  let en := r.chen
  let r := { r with chen := en ||| enUpdate }
  let r := { r with chen := en &&& ~~~enUpdate }
  { r with chen := en ||| enUpdate }

def atcpitTimerStopMulti : Regs :=
  let en := r.chen
  let enUpdate := (selected chs).foldl (fun u ch => u ||| runBit data ch) 0#32
  let r := { r with chen := en &&& ~~~enUpdate }
  let p := (selected chs).foldl (fun p ch =>
    (if (data ch).interrupts then r.inten else p.1, p.2 ||| timerChEnBit ch 0)) (en, enUpdate)
  { r with inten := p.1 &&& ~~~p.2 }

/-! ## The bits of the channels -/

/-- Bits of channels taken together; a channel there is not has none. -/
def bitsOf (bit : ℕ → BitVec 32) (l : List ℕ) : BitVec 32 :=
  l.foldr (fun ch u => (if ch < nrCh then bit ch else 0#32) ||| u) 0#32

def interruptBit : BitVec 32 := if (data ch).interrupts then timerChEnBit ch 0 else 0#32

/-- The mask selects a channel with an interrupt, and `TIMER_INTEN` has no bit of a selected channel
but those of interrupts; or it selects none, and `TIMER_INTEN` is `TIMER_CHEN` without the bits
of the selected channels. -/
def StopsAlike : Prop :=
  let own := bitsOf (runBit data) (selected chs) ||| bitsOf (timerChEnBit · 0) (selected chs)
  if (selected chs).any fun ch => (data ch).interrupts then
    r.inten &&& own &&& ~~~bitsOf (interruptBit data) (selected chs) = 0#32
  else r.inten = r.chen &&& ~~~own

end Calls

section Bits

variable {data : ℕ → ChData} {r : Regs} {chs : BitVec 8} {l l' : List ℕ} {bit : ℕ → BitVec 32}

theorem getLsbD_bitsOf {i : ℕ} :
    (bitsOf bit l).getLsbD i ↔ ∃ ch ∈ l, ch < nrCh ∧ (bit ch).getLsbD i := by
  induction l with
  | nil => simp [bitsOf]
  | cons ch l ih =>
    rw [bitsOf, foldr_cons, BitVec.getLsbD_or, Bool.or_eq_true, exists_mem_cons_iff]
    refine or_congr ?_ ih
    split_ifs with hch <;> simp [hch]

theorem bitsOf_congr (h : ∀ ch < nrCh, (ch ∈ l ↔ ch ∈ l')) : bitsOf bit l = bitsOf bit l' := by
  refine BitVec.eq_of_getLsbD_eq fun i _ => Bool.eq_iff_iff.mpr ?_
  rw [getLsbD_bitsOf, getLsbD_bitsOf]
  grind

theorem foldl_or (hl : ∀ ch ∈ l, ch < nrCh) (u : BitVec 32) :
    l.foldl (fun u ch => u ||| bit ch) u = u ||| bitsOf bit l := by
  induction l generalizing u with
  | nil => simp [bitsOf]
  | cons ch l ih =>
    obtain ⟨hch, hl⟩ := forall_mem_cons.mp hl
    rw [foldl_cons, ih hl, BitVec.or_assoc, bitsOf, bitsOf, foldr_cons, if_pos hch]

/-- Channels one by one. -/
theorem foldl_start (data : ℕ → ChData) (r : Regs) (l : List ℕ) :
    l.foldl (atcpitTimerStart data) r = ⟨r.inten ||| bitsOf (interruptBit data) l,
      r.chen ||| bitsOf (runBit data) l⟩ := by
  induction l generalizing r with
  | nil => simp [bitsOf]
  | cons ch l ih =>
    rw [foldl_cons, ih]
    simp only [bitsOf, foldr_cons, atcpitTimerStart, interruptBit]
    split_ifs <;> first | omega | simp [BitVec.or_assoc]

theorem foldl_stop (data : ℕ → ChData) (r : Regs) (l : List ℕ) :
    l.foldl (atcpitTimerStop data) r = ⟨r.inten &&& ~~~bitsOf (interruptBit data) l,
      r.chen &&& ~~~bitsOf (runBit data) l⟩ := by
  induction l generalizing r with
  | nil => simp only [bitsOf, foldr_nil, foldl_nil, BitVec.not_zero, BitVec.and_allOnes]
  | cons ch l ih =>
    rw [foldl_cons, ih]
    simp only [bitsOf, foldr_cons, atcpitTimerStop, interruptBit]
    split_ifs <;> first | omega | simp [BitVec.and_assoc, BitVec.not_or]

theorem foldl_interrupts (l : List ℕ) (a en u : BitVec 32) :
    l.foldl (fun p ch => (if (data ch).interrupts then a else p.1, p.2 ||| bit ch)) (en, u) =
      (if l.any fun ch => (data ch).interrupts then a else en,
        l.foldl (fun u ch => u ||| bit ch) u) := by
  induction l generalizing en u with
  | nil => rfl
  | cons ch l ih =>
    rw [foldl_cons, ih, foldl_cons, any_cons]
    cases (data ch).interrupts <;> simp

theorem lt_of_selected {ch : ℕ} (h : ch ∈ selected chs) : ch < nrCh :=
  mem_range.mp (mem_filter.mp h).1

theorem startMulti_eq (data : ℕ → ChData) (r : Regs) (chs : BitVec 8) :
    atcpitTimerStartMulti data r chs = (selected chs).foldl (atcpitTimerStart data) r := by
  have hloop : (fun u ch => if (data ch).interrupts then u ||| timerChEnBit ch 0 else u) =
      fun u ch => u ||| interruptBit data ch := by
    funext u ch
    unfold interruptBit
    split_ifs <;> simp
  simp only [atcpitTimerStartMulti, hloop, foldl_or fun _ => lt_of_selected, foldl_start,
    BitVec.zero_or]

theorem clear_eq_iff {x own ints : BitVec 32} (h : ∀ i, ints.getLsbD i → own.getLsbD i) :
    x &&& ~~~own = x &&& ~~~ints ↔ x &&& own &&& ~~~ints = 0#32 := by
  simp only [BitVec.eq_of_getElem_eq_iff]
  refine forall₂_congr fun i hi => ?_
  have := h i
  simp only [BitVec.getLsbD_eq_getElem hi] at this
  cases hown : own[i] <;> cases hints : ints[i] <;> simp_all

theorem stopMulti_eq_iff (data : ℕ → ChData) (r : Regs) (chs : BitVec 8) :
    atcpitTimerStopMulti data r chs = (selected chs).foldl (atcpitTimerStop data) r ↔
      StopsAlike data r chs := by
  simp only [atcpitTimerStopMulti, foldl_interrupts, foldl_stop, StopsAlike,
    foldl_or fun _ => lt_of_selected, Regs.mk.injEq, BitVec.zero_or, and_true]
  split_ifs with hint
  · refine clear_eq_iff fun i => ?_
    simp only [BitVec.getLsbD_or, Bool.or_eq_true, getLsbD_bitsOf]
    grind [interruptBit]
  · have hnone : bitsOf (interruptBit data) (selected chs) = 0#32 := by
      refine BitVec.eq_of_getLsbD_eq fun i _ => ?_
      rw [BitVec.getLsbD_zero, ← Bool.not_eq_true, getLsbD_bitsOf]
      rw [any_eq_true] at hint
      grind [interruptBit]
    rw [hnone, BitVec.not_zero, BitVec.and_allOnes, eq_comm]

end Bits

/-- **Several channels at once.** A mask leaves both registers as its channels do one by one, in any
order, if and only if stopping it finds in `TIMER_INTEN` what it is to leave or to clear. -/
theorem multi_eq_iff (data : ℕ → ChData) (r : Regs) (chs : BitVec 8) :
    (∀ l : List ℕ, l.Perm ((range 8).filter fun ch => chs.getLsbD ch) →
      atcpitTimerStartMulti data r chs = l.foldl (atcpitTimerStart data) r ∧
      atcpitTimerStopMulti data r chs = l.foldl (atcpitTimerStop data) r) ↔
      StopsAlike data r chs := by
  have horder : ∀ l : List ℕ, l.Perm ((range 8).filter fun ch => chs.getLsbD ch) →
      ∀ bit, bitsOf bit l = bitsOf bit (selected chs) := by
    intro l hl bit
    refine bitsOf_congr fun ch hch => ?_
    simp only [hl.mem_iff, selected, mem_filter, mem_range, nrCh] at hch ⊢
    exact and_congr_left fun _ => by omega
  rw [← stopMulti_eq_iff]
  constructor
  · intro h
    have hstop := (h _ (.refl _)).2
    rwa [foldl_stop, horder _ (.refl _), horder _ (.refl _), ← foldl_stop] at hstop
  · intro h l hl
    rw [startMulti_eq, h, foldl_start, foldl_start, foldl_stop, foldl_stop, horder l hl,
      horder l hl]
    exact ⟨rfl, rfl⟩

/-- **An interrupt of another channel is lost.** Stopping a one-shot channel without `isr` by itself
leaves the interrupt of channel 1 alone. -/
theorem stop_loses_interrupt :
    let data : ℕ → ChData := fun _ => ⟨0x2, false⟩
    atcpitTimerStop data ⟨0x10#32, 0x1#32⟩ 0 = ⟨0x10#32, 0#32⟩ ∧
      atcpitTimerStopMulti data ⟨0x10#32, 0x1#32⟩ 1#8 = ⟨0#32, 0#32⟩ := by
  decide

end WiseSdk.Timer
