import Mathlib.Data.List.FinRange
import WiseSdk.Library.Runs

/-!
# DMA completions

The channels of a DMA controller share one interrupt status word and one interrupt handler.
`dma_copy` and `dma_copy_hw` allocate a channel and leave a handler for it; the interrupt handler
calls it back and frees the channel, unless it is kept for a reload. `dma_ch_rel` and `dma_ch_abort`
free a channel and acknowledge the whole status word as they have read it.

A step is what runs without interruption: `scm2010_dma_alloc_ch` and the first part of a reload,
which mask interrupts, one stage of a call (`Stage`), the interrupt handler, or an event of the
hardware. Interrupts are on for the rest of a call, and other steps may come between its stages: the
update of `ch_keep` is a load and a store of the whole word.

The `Owner` of a channel is the record of the call that holds it: what it has passed, and how many
completions have not been reported. The driver does not read it.

A transfer whose completion interrupt is masked is polled by its user and reports nothing.
-/

namespace WiseSdk.DmaIrq

open Library List Option Function

/-! ## Data -/

/-- A `dma_done_handler` with its private data. -/
abbrev Handler := ℕ

/-- The bits of one channel in `DMAC_INT_STATUS`. -/
structure Bits where
  done : Bool
  abrt : Bool
  error : Bool
  deriving DecidableEq, Repr

inductive IsrStatus where
  | complete
  | aborted
  | error
  deriving DecidableEq, Repr

namespace Bits

def clear : Bits := ⟨false, false, false⟩

def union (b c : Bits) : Bits := ⟨b.done || c.done, b.abrt || c.abrt, b.error || c.error⟩

/-- The bits left when `w` is written to the register. -/
def ack (b w : Bits) : Bits := ⟨b.done && !w.done, b.abrt && !w.abrt, b.error && !w.error⟩

def completion (b : Bits) : Bool := b.done || b.error

/-- The bit at the end of a transfer. -/
def ending (error : Bool) : Bits := ⟨!error, false, error⟩

/-- The status that the interrupt handler takes from the bits; `none` is `DMA_STATUS_NONE`. -/
def status (b : Bits) : Option IsrStatus :=
  if b.error then some .error
  else if b.abrt then some .aborted
  else if b.done then some .complete
  else none

end Bits

/-- What a call that allocates a channel has passed. -/
structure Request where
  id : ℕ
  handler : Option Handler
  keep : Bool
  tcMask : Bool
  errMask : Bool
  deriving DecidableEq, Repr

/-- The call that holds a channel. -/
structure Owner where
  req : Request
  /-- Its channel was started. -/
  started : Bool
  /-- Its transfer was aborted. -/
  cancelled : Bool
  /-- Transfers that have finished and have not been reported. -/
  due : ℕ
  deriving DecidableEq, Repr

/-- A channel: its bits in `ch_status`, `ch_aborted` and `ch_keep`, its handler `cb`, and its enable
bit. -/
structure Channel where
  busy : Bool
  aborted : Bool
  keep : Bool
  cb : Option Handler
  running : Bool
  owner : Option Owner
  deriving DecidableEq, Repr

/-- Where a call goes on, with the words it has read. -/
inductive Stage (n : ℕ) where
  | keepLoad (req : Request)
  | keepStore (req : Request) (word : Fin n → Bool)
  | setCb (req : Request) (hw : Bool)
  | kick (poll : Bool)
  | poll
  | relIdle (word : Fin n → Bits)
  | abortCheck
  | abortIdle
  | abortRead
  | ack (word : Fin n → Bits)

/-- A call in progress: its channel, and the request that held it when the call began. -/
structure Call (n : ℕ) where
  ch : Fin n
  caller : Option ℕ
  stage : Stage n

/-- `struct scm2010_dmac_t` with its status register and the calls in progress. -/
structure Dmac (n : ℕ) where
  channel : Fin n → Channel
  intStatus : Fin n → Bits
  calls : List (Call n)
  nextId : ℕ

/-- The controller after `scm2010_dma_probe`. -/
def Dmac.probed (n : ℕ) : Dmac n where
  channel _ := ⟨false, false, false, none, false, none⟩
  intStatus _ := .clear
  calls := []
  nextId := 0

variable {n k : ℕ} {f : Channel → Channel}

def Dmac.modify (d : Dmac n) (ch : Fin n) (f : Channel → Channel) : Dmac n :=
  { d with channel := update d.channel ch (f (d.channel ch)) }

def Dmac.ownerId (d : Dmac n) (ch : Fin n) : Option ℕ := (d.channel ch).owner.map (·.req.id)

def Dmac.call (d : Dmac n) (call : Call n) : Dmac n := { d with calls := d.calls ++ [call] }

/-- `SET_DMA_CH_N_IDLE`; the channel has no owner any more. -/
def setIdle (c : Channel) : Channel := { c with busy := false, owner := none }

/-! ## The source's functions -/

/-- The channel that `scm2010_dma_alloc_ch` finds. -/
def idleCh (d : Dmac n) : Option (Fin n) :=
  (finRange n).find? fun ch => !(d.channel ch).busy

def alloc (req : Request) (c : Channel) : Channel :=
  { c with busy := true, aborted := false, keep := false, owner := some ⟨req, false, false, 0⟩ }

/-- `scm2010_dma_alloc_ch`, and where the call goes on. Without an idle channel it returns, or tries
again. -/
def scm2010DmaAllocCh (req : Request) (stage : Stage n) (d : Dmac n) : Dmac n :=
  match idleCh d with
  | none => d
  | some ch =>
    { (d.modify ch (alloc req)).call ⟨ch, some req.id, stage⟩ with nextId := d.nextId + 1 }

def scm2010DmaCopy (handler : Option Handler) (intMask : Bool) (d : Dmac n) : Dmac n :=
  let req := ⟨d.nextId, handler, false, intMask, false⟩
  scm2010DmaAllocCh req (.setCb req false) d

def scm2010DmaCopyHw (keep : Bool) (handler : Option Handler) (tcMask errMask : Bool)
    (d : Dmac n) : Dmac n :=
  let req := ⟨d.nextId, handler, keep, tcMask, errMask⟩
  scm2010DmaAllocCh req (.keepLoad req) d

def reload (c : Channel) : Channel :=
  { c with busy := true, aborted := false, owner := c.owner.map ({ · with cancelled := false }) }

/-- `scm2010_dma_reload`, which asserts that the channel is kept. -/
def scm2010DmaReload (ch : Fin n) (d : Dmac n) : Option (Dmac n) :=
  if (d.channel ch).keep then some ((d.modify ch reload).call ⟨ch, d.ownerId ch, .kick false⟩)
  else none

/-- The first stage of `scm2010_dma_ch_rel`: it reads the status word. -/
def scm2010DmaChRel (ch : Fin n) (d : Dmac n) : Dmac n :=
  d.call ⟨ch, d.ownerId ch, .relIdle d.intStatus⟩

def stop (c : Channel) : Channel :=
  { c with running := false, owner := c.owner.map ({ · with cancelled := true, due := 0 }) }

/-- The first stage of `scm2010_dma_ch_abort`: the channel is stopped. -/
def scm2010DmaChAbort (ch : Fin n) (d : Dmac n) : Dmac n :=
  (d.modify ch stop).call ⟨ch, d.ownerId ch, .abortCheck⟩

/-- `scm2010_dma_kick`. -/
def kick (c : Channel) : Channel :=
  { c with running := true, owner := c.owner.map ({ · with started := true }) }

/-- The next stage of a call on a channel: the controller, and the stage after it. A `dma_copy_hw`
without a handler leaves the one that is there; a `dma_copy` with `int_mask` polls the channel and
releases it. -/
def resumeStage (d : Dmac n) (ch : Fin n) : Stage n → Dmac n × Option (Stage n)
  | .keepLoad req => (d, some (.keepStore req fun ch => (d.channel ch).keep))
  | .keepStore req word =>
    ({ d with channel := fun i => { d.channel i with keep := update word ch req.keep i } },
      some (.setCb req true))
  | .setCb req hw =>
    (d.modify ch fun c => { c with cb := if hw && req.handler.isNone then c.cb else req.handler },
      some (.kick (!hw && req.tcMask)))
  | .kick poll => (d.modify ch kick, if poll then some .poll else none)
  | .poll => if (d.channel ch).running then (d, some .poll) else (d.modify ch setIdle, none)
  | .relIdle word => (d.modify ch setIdle, some (.ack word))
  | .abortCheck => (d, some (if (d.channel ch).keep then .abortRead else .abortIdle))
  | .abortIdle => (d.modify ch setIdle, some .abortRead)
  | .abortRead => (d, some (.ack d.intStatus))
  | .ack word => ({ d with intStatus := fun ch => (d.intStatus ch).ack (word ch) }, none)

def resume (k : ℕ) (d : Dmac n) : Dmac n :=
  match d.calls[k]? with
  | none => d
  | some call =>
    let r := resumeStage d call.ch call.stage
    { r.1 with
      calls := match r.2 with
        | some stage => d.calls.set k { call with stage }
        | none => d.calls.eraseIdx k }

/-- A channel in the interrupt handler: the callback and, unless it is kept, its end. -/
def serveChannel (s : IsrStatus) (c : Channel) : Channel :=
  { c with
    aborted := c.aborted || (c.cb.isSome && s = .aborted)
    busy := c.busy && c.keep
    owner := if c.keep then c.owner.map ({ · with due := 0 }) else none }

/-- The status at which the interrupt handler returns. -/
def stops (b : Bits) (c : Channel) : Bool :=
  c.cb.isSome && c.aborted && (b.status == some .error || b.status == some .complete)

/-- The loop of the interrupt handler: the channels served, each with the handler called, if any,
and the channels. The early return leaves the loop. -/
def isrLoop (word : Fin n → Bits) :
    List (Fin n) → (Fin n → Channel) → List (Fin n × Option Handler) × (Fin n → Channel)
  | [], cs => ([], cs)
  | ch :: chs, cs =>
    match (word ch).status with
    | none => isrLoop word chs cs
    | some s =>
      if stops (word ch) (cs ch) then ([], cs)
      else
        let r := isrLoop word chs (update cs ch (serveChannel s (cs ch)))
        ((ch, (cs ch).cb) :: r.1, r.2)

/-- `scm2010_dmac_isr`: the word is acknowledged, and the channels are served from the last on. A
word with no bit is the same acknowledged, and serves none. -/
def scm2010DmacIsr (d : Dmac n) : List (Fin n × Option Handler) × Dmac n :=
  let r := isrLoop d.intStatus (finRange n).reverse d.channel
  (r.1, { d with channel := r.2, intStatus := fun _ => .clear })

/-! ## Steps -/

inductive Action (n : ℕ) where
  | copy (handler : Option Handler) (intMask : Bool)
  | copyHw (keep : Bool) (handler : Option Handler) (tcMask errMask : Bool)
  | reload (ch : Fin n)
  | release (ch : Fin n)
  | abort (ch : Fin n)
  | resume (k : ℕ)
  /-- A running channel ends its transfer, with an error or without. -/
  | finish (ch : Fin n) (error : Bool)
  /-- Status bits appear that report no end of a transfer. -/
  | raise (ch : Fin n) (bits : Bits)
  | interrupt

/-- The end is due to the owner, unless it is masked or the transfer was aborted. -/
def endTransfer (masked : Bool) (c : Channel) : Channel :=
  { c with
    running := false
    owner := c.owner.map fun o =>
      if masked || o.cancelled then o else { o with due := o.due + 1 } }

def Dmac.raise (d : Dmac n) (ch : Fin n) (bits : Bits) : Dmac n :=
  { d with intStatus := update d.intStatus ch ((d.intStatus ch).union bits) }

/-- The hardware ends a transfer; the bit appears unless it is masked. -/
def finishTransfer (ch : Fin n) (error : Bool) (d : Dmac n) : Dmac n :=
  if (d.channel ch).running then
    let masked := (d.channel ch).owner.any fun o => if error then o.req.errMask else o.req.tcMask
    (d.modify ch (endTransfer masked)).raise ch (if masked then .clear else .ending error)
  else d

def step (d : Dmac n) : Action n → Option (Dmac n)
  | .copy handler intMask => some (scm2010DmaCopy handler intMask d)
  | .copyHw keep handler tcMask errMask => some (scm2010DmaCopyHw keep handler tcMask errMask d)
  | .reload ch => scm2010DmaReload ch d
  | .release ch => some (scm2010DmaChRel ch d)
  | .abort ch => some (scm2010DmaChAbort ch d)
  | .resume k => some (resume k d)
  | .finish ch error => some (finishTransfer ch error d)
  | .raise ch bits => some (d.raise ch bits)
  | .interrupt => some (scm2010DmacIsr d).2

/-! ## What a step should do -/

/-- A call holds the channel and its transfer was not aborted. -/
def Live (d : Dmac n) (ch : Fin n) (o : Owner) : Prop :=
  (d.channel ch).owner = some o ∧ o.cancelled = false

def callsOf (ch : Fin n) (served : List (Fin n × Option Handler)) : List (Option Handler) :=
  (served.filter fun r => r.1 = ch).map Prod.snd

/-- The owner keeps its channel and what it is waiting for. -/
structure Undisturbed (d d' : Dmac n) (ch : Fin n) (o : Owner) : Prop where
  owner : d'.ownerId ch = some o.req.id
  busy : (d.channel ch).busy → (d'.channel ch).busy
  pending : 0 < o.due → (d.intStatus ch).completion → (d'.intStatus ch).completion

/-- An interrupt serves each held channel once for each completion due, with its owner's handler,
and frees it then unless its owner asked to keep it. -/
structure ServedRight (d : Dmac n) (ch : Fin n) (o : Owner) : Prop where
  calls : callsOf ch (scm2010DmacIsr d).1 = replicate o.due o.req.handler
  busy : ((scm2010DmacIsr d).2.channel ch).busy =
    if 0 < o.due ∧ o.req.keep = false then false else (d.channel ch).busy

def actor (d : Dmac n) : Action n → Option ℕ
  | .resume k => d.calls[k]?.bind Call.caller
  | _ => none

/-- **A sound step**: an interrupt reports completions to their owners exactly once, and other steps
leave the channels of others alone. -/
def Sound (d : Dmac n) (a : Action n) : Prop :=
  match a with
  | .interrupt => ∀ ch o, Live d ch o → ServedRight d ch o
  | a => ∀ d', step d a = some d' → ∀ ch o, Live d ch o → actor d a ≠ some o.req.id →
      Undisturbed d d' ch o

/-! ## The condition -/

def NoCall (d : Dmac n) (ch : Fin n) : Prop := ∀ call ∈ d.calls, call.ch ≠ ch
deriving Decidable

/-- The status word has no bit of another channel. -/
def OnlyBits (word : Fin n → Bits) (ch : Fin n) : Prop := ∀ ch', ch' ≠ ch → word ch' = .clear
deriving Decidable

/-- The next stage finds `ch_keep` as it was loaded, no handler where it stores none, no status bit
of the channel that it starts, and none of another channel when it reads the word. -/
def StageGuard (d : Dmac n) (ch : Fin n) : Stage n → Prop
  | .keepStore _ word => ∀ ch', ch' ≠ ch → word ch' = (d.channel ch').keep
  | .setCb req hw => hw = true → req.handler = none → (d.channel ch).cb = none
  | .kick _ => d.intStatus ch = .clear
  | .abortRead => OnlyBits d.intStatus ch
  | _ => True

/-- **The condition on a step.** An idle channel that is allocated has stopped, has no status bit,
and no call on it is in progress; one that is reloaded was started, and has none of these either. A
release reads no status bit of another channel, and only the bits of finished transfers appear on a
channel in use. At an interrupt no channel that was reported as aborted has a late bit. -/
def Guard (d : Dmac n) : Action n → Prop
  | .copy _ _ | .copyHw _ _ _ _ => ∀ ch ∈ idleCh d,
      (d.channel ch).running = false ∧ d.intStatus ch = .clear ∧ NoCall d ch
  | .reload ch => d.intStatus ch = .clear ∧ NoCall d ch ∧
      ∀ o ∈ (d.channel ch).owner, o.started = true
  | .release ch => OnlyBits d.intStatus ch
  | .resume k => ∀ call ∈ d.calls[k]?, StageGuard d call.ch call.stage
  | .raise ch _ => ∀ o ∈ (d.channel ch).owner, o.cancelled = true
  | .interrupt => ∀ ch, stops (d.intStatus ch) (d.channel ch) = false
  | .abort _ | .finish _ _ => True

instance (d : Dmac n) (ch : Fin n) : (s : Stage n) → Decidable (StageGuard d ch s)
  | .keepStore _ word =>
    inferInstanceAs (Decidable (∀ ch', ch' ≠ ch → word ch' = (d.channel ch').keep))
  | .setCb req hw =>
    inferInstanceAs (Decidable (hw = true → req.handler = none → (d.channel ch).cb = none))
  | .kick _ => inferInstanceAs (Decidable (d.intStatus ch = .clear))
  | .abortRead => inferInstanceAs (Decidable (OnlyBits d.intStatus ch))
  | .keepLoad _ | .poll | .relIdle _ | .abortCheck | .abortIdle | .ack _ =>
    inferInstanceAs (Decidable True)

instance (d : Dmac n) : (a : Action n) → Decidable (Guard d a)
  | .copy _ _ | .copyHw _ _ _ _ => inferInstanceAs (Decidable (∀ ch ∈ idleCh d,
      (d.channel ch).running = false ∧ d.intStatus ch = .clear ∧ NoCall d ch))
  | .reload ch => inferInstanceAs (Decidable (d.intStatus ch = .clear ∧ NoCall d ch ∧
      ∀ o ∈ (d.channel ch).owner, o.started = true))
  | .release ch => inferInstanceAs (Decidable (OnlyBits d.intStatus ch))
  | .resume k =>
    inferInstanceAs (Decidable (∀ call ∈ d.calls[k]?, StageGuard d call.ch call.stage))
  | .raise ch _ =>
    inferInstanceAs (Decidable (∀ o ∈ (d.channel ch).owner, o.cancelled = true))
  | .interrupt =>
    inferInstanceAs (Decidable (∀ ch, stops (d.intStatus ch) (d.channel ch) = false))
  | .abort _ | .finish _ _ => inferInstanceAs (Decidable True)

/-! ## The interrupt handler -/

def served (s : Option IsrStatus) (c : Channel) : Channel := s.elim c (serveChannel · c)

theorem Bits.status_eq_none_iff (b : Bits) : b.status = none ↔ b = .clear := by
  obtain ⟨done, abrt, error⟩ := b
  cases done <;> cases abrt <;> cases error <;> decide

theorem callsOf_cons (ch ch' : Fin n) (h : Option Handler)
    (served : List (Fin n × Option Handler)) :
    callsOf ch ((ch', h) :: served) =
      if ch' = ch then h :: callsOf ch served else callsOf ch served := by
  split_ifs with hch <;> simp [callsOf, hch]

/-- **The loop**, seen from one channel, where it does not return early. -/
theorem isrLoop_spec {word : Fin n → Bits} {chs : List (Fin n)} (hnodup : chs.Nodup)
    {cs : Fin n → Channel} (hstops : ∀ c ∈ chs, stops (word c) (cs c) = false) (ch : Fin n) :
    callsOf ch (isrLoop word chs cs).1 =
        (if ch ∈ chs ∧ (word ch).status ≠ none then [(cs ch).cb] else []) ∧
      (isrLoop word chs cs).2 ch = if ch ∈ chs then served (word ch).status (cs ch) else cs ch := by
  induction chs generalizing cs with
  | nil => simp [isrLoop, callsOf]
  | cons c chs ih =>
    obtain ⟨hc, hnodup⟩ := nodup_cons.mp hnodup
    obtain ⟨hfirst, hstops⟩ := forall_mem_cons.mp hstops
    cases hs : (word c).status with
    | none =>
      obtain ⟨hcalls, hchannel⟩ := ih hnodup hstops
      simp only [isrLoop, hs]
      by_cases hch : ch = c
      · subst hch
        simp [hcalls, hchannel, hc, hs, served]
      · simp [hcalls, hchannel, hch]
    | some s =>
      have hrest : ∀ x ∈ chs, stops (word x) (update cs c (serveChannel s (cs c)) x) = false := by
        intro x hx
        rw [update_of_ne (ne_of_mem_of_not_mem hx hc), hstops x hx]
      obtain ⟨hcalls, hchannel⟩ := ih hnodup hrest
      simp only [isrLoop, hs, hfirst, Bool.false_eq_true, if_false, callsOf_cons]
      by_cases hch : ch = c
      · subst hch
        simp [hcalls, hchannel, hc, hs, served]
      · simp [hcalls, hchannel, hch, Ne.symm hch]

section Isr

variable {d : Dmac n} (hstops : Guard d .interrupt) (ch : Fin n)

include hstops

theorem callsOf_isr : callsOf ch (scm2010DmacIsr d).1 =
    if (d.intStatus ch).status ≠ none then [(d.channel ch).cb] else [] := by
  have hspec := isrLoop_spec (nodup_reverse.mpr (nodup_finRange n)) (fun c _ => hstops c) ch
  simpa [scm2010DmacIsr] using hspec.1

theorem isr_channel : (scm2010DmacIsr d).2.channel ch =
    served (d.intStatus ch).status (d.channel ch) := by
  have hspec := isrLoop_spec (nodup_reverse.mpr (nodup_finRange n)) (fun c _ => hstops c) ch
  simpa [scm2010DmacIsr] using hspec.2

end Isr

/-! ## The invariant -/

/-- A channel and its owner: it is busy, started with the owner's handler and keep bit, and has a
status bit exactly if a completion is due. -/
structure OwnerFits (c : Channel) (b : Bits) (o : Owner) : Prop where
  busy : c.busy = true
  running : c.running = true → o.started = true
  started : o.started = true → c.cb = o.req.handler ∧ c.keep = o.req.keep
  due : if o.cancelled then o.due = 0 else b = .clear ∧ o.due = 0 ∨
    (∃ error, b = .ending error) ∧ o.due = 1 ∧ c.running = false ∧ o.started = true

theorem OwnerFits.due_eq_zero {c : Channel} {o : Owner} (h : OwnerFits c .clear o) :
    o.due = 0 := by
  have hdue := h.due
  split_ifs at hdue
  · exact hdue
  · rcases hdue with hdue | ⟨⟨error, herror⟩, -⟩
    · exact hdue.2
    · cases error <;> cases herror

theorem due_clear {c : Channel} {o : Owner} (h : o.due = 0) :
    if o.cancelled then o.due = 0 else Bits.clear = .clear ∧ o.due = 0 ∨
      (∃ error, Bits.clear = .ending error) ∧ o.due = 1 ∧ c.running = false ∧
        o.started = true := by
  split_ifs
  · exact h
  · exact .inl ⟨rfl, h⟩

def Fits (c : Channel) (b : Bits) : Prop := ∀ o ∈ c.owner, OwnerFits c b o

/-- What a stage can rely on: the owner of the channel is the call's own. -/
def StageFits (c : Channel) (ch : Fin n) : Stage n → Prop
  | .keepLoad req | .keepStore req _ => ∀ o ∈ c.owner, o.req = req
  | .setCb req _ => ∀ o ∈ c.owner, o.req = req ∧ c.keep = req.keep
  | .kick _ => ∀ o ∈ c.owner, c.cb = o.req.handler ∧ c.keep = o.req.keep
  | .poll => True
  | .relIdle word => OnlyBits word ch
  | .abortCheck | .abortIdle | .abortRead => ∀ o ∈ c.owner, o.cancelled = true
  | .ack word => OnlyBits word ch ∧ ∀ o ∈ c.owner, o.cancelled = true

def CallFits (d : Dmac n) (call : Call n) : Prop :=
  (∀ o ∈ (d.channel call.ch).owner, call.caller = some o.req.id) ∧
    StageFits (d.channel call.ch) call.ch call.stage

structure Inv (d : Dmac n) : Prop where
  fits : ∀ ch, Fits (d.channel ch) (d.intStatus ch)
  calls : ∀ call ∈ d.calls, CallFits d call

/-- A channel later on: no new owner, no transfer taken up again, and its keep bit and handler as
they were or as its owner has passed them. -/
structure Later (c c' : Channel) : Prop where
  owner : ∀ o' ∈ c'.owner, ∃ o ∈ c.owner, o'.req = o.req ∧
    (o.cancelled = true → o'.cancelled = true)
  keep : c'.keep = c.keep ∨ ∀ o' ∈ c'.owner, c'.keep = o'.req.keep
  cb : c'.cb = c.cb ∨ ∀ o' ∈ c'.owner, c'.cb = o'.req.handler

theorem later_refl (c : Channel) : Later c c := ⟨fun o ho => ⟨o, ho, rfl, id⟩, .inl rfl, .inl rfl⟩

/-- An update of the owner's record that keeps the request. -/
theorem later_map {c c' : Channel} {g : Owner → Owner} (howner : c'.owner = c.owner.map g)
    (hreq : ∀ o, (g o).req = o.req)
    (hcancelled : ∀ o, o.cancelled = true → (g o).cancelled = true)
    (hkeep : c'.keep = c.keep) (hcb : c'.cb = c.cb) : Later c c' := by
  refine ⟨fun o' ho' => ?_, .inl hkeep, .inl hcb⟩
  rw [howner, Option.mem_map] at ho'
  obtain ⟨o, ho, rfl⟩ := ho'
  exact ⟨o, ho, hreq o, hcancelled o⟩

theorem later_of_none {c c' : Channel} (h : c'.owner = none) (hkeep : c'.keep = c.keep)
    (hcb : c'.cb = c.cb) : Later c c' := ⟨by simp [h], .inl hkeep, .inl hcb⟩

section

variable {c c' : Channel} {ch : Fin n} {d : Dmac n}

theorem StageFits.later {s : Stage n} (h : StageFits c ch s) (hl : Later c c') :
    StageFits c' ch s := by
  have hcancelled (ho : ∀ o ∈ c.owner, o.cancelled = true) :
      ∀ o ∈ c'.owner, o.cancelled = true := by
    intro o' ho'
    obtain ⟨o, hmem, -, hc⟩ := hl.owner o' ho'
    exact hc (ho o hmem)
  cases s with
  | keepLoad req | keepStore req word =>
    intro o' ho'
    obtain ⟨o, ho, hreq, -⟩ := hl.owner o' ho'
    exact hreq.trans (h o ho)
  | setCb req hw =>
    intro o' ho'
    obtain ⟨o, ho, hreq, -⟩ := hl.owner o' ho'
    have hown := hreq.trans (h o ho).1
    exact ⟨hown, hl.keep.elim (fun heq => heq.trans (h o ho).2) fun hk => hown ▸ hk o' ho'⟩
  | kick poll =>
    intro o' ho'
    obtain ⟨o, ho, hreq, -⟩ := hl.owner o' ho'
    rw [hreq]
    exact ⟨hl.cb.elim (fun heq => heq.trans (h o ho).1) fun hcb => hreq ▸ hcb o' ho',
      hl.keep.elim (fun heq => heq.trans (h o ho).2) fun hk => hreq ▸ hk o' ho'⟩
  | poll => trivial
  | relIdle word => exact h
  | abortCheck | abortIdle | abortRead => exact hcancelled h
  | ack word => exact ⟨h.1, hcancelled h.2⟩

theorem CallFits.later {d' : Dmac n} {call : Call n} (h : CallFits d call)
    (hl : Later (d.channel call.ch) (d'.channel call.ch)) : CallFits d' call := by
  refine ⟨fun o' ho' => ?_, h.2.later hl⟩
  obtain ⟨o, ho, hreq, -⟩ := hl.owner o' ho'
  rw [hreq]
  exact h.1 o ho

theorem modify_channel_self (d : Dmac n) (ch : Fin n) (f : Channel → Channel) :
    (d.modify ch f).channel ch = f (d.channel ch) := update_self ..

theorem modify_channel_of_ne {ch' : Fin n} (h : ch' ≠ ch) (f : Channel → Channel) :
    (d.modify ch f).channel ch' = d.channel ch' := update_of_ne h ..

/-- **One channel** gets a new state and new status bits. -/
theorem Inv.set (hinv : Inv d) {b : Bits} (hfits : Fits c b)
    (hlater : NoCall d ch ∨ Later (d.channel ch) c) :
    Inv { d with channel := update d.channel ch c, intStatus := update d.intStatus ch b } := by
  constructor
  · intro i
    by_cases hi : i = ch
    · subst hi
      simpa using hfits
    · simpa [hi] using hinv.fits i
  · intro call hcall
    refine (hinv.calls call hcall).later ?_
    by_cases hi : call.ch = ch
    · rw [hi]
      simpa using hlater.resolve_left fun hno => hno call hcall hi
    · simpa [hi] using later_refl _

theorem Inv.modify (hinv : Inv d) (hfits : Fits (f (d.channel ch)) (d.intStatus ch))
    (hlater : NoCall d ch ∨ Later (d.channel ch) (f (d.channel ch))) : Inv (d.modify ch f) := by
  have hset := hinv.set hfits hlater
  rwa [update_eq_self] at hset

/-- The record of the owner changes along with its channel. -/
theorem Inv.mapOwner (hinv : Inv d) {g : Owner → Owner}
    (howner : (f (d.channel ch)).owner = (d.channel ch).owner.map g)
    (hfits : ∀ o ∈ (d.channel ch).owner, OwnerFits (d.channel ch) (d.intStatus ch) o →
      OwnerFits (f (d.channel ch)) (d.intStatus ch) (g o))
    (hlater : NoCall d ch ∨ Later (d.channel ch) (f (d.channel ch))) : Inv (d.modify ch f) := by
  refine hinv.modify (fun o' ho' => ?_) hlater
  rw [howner, Option.mem_map] at ho'
  obtain ⟨o, ho, rfl⟩ := ho'
  exact hfits o ho (hinv.fits ch o ho)

theorem Inv.setCalls (hinv : Inv d) {calls : List (Call n)}
    (h : ∀ call ∈ calls, call ∈ d.calls ∨ CallFits d call) : Inv { d with calls } :=
  ⟨hinv.fits, fun call hcall => (h call hcall).elim (hinv.calls call) id⟩

theorem Inv.call (hinv : Inv d) {call : Call n} (hcall : CallFits d call) : Inv (d.call call) := by
  refine hinv.setCalls fun call' hmem => (mem_append.mp hmem).imp_right fun h => ?_
  rwa [mem_singleton.mp h]

theorem Inv.raise (hinv : Inv d) {bits : Bits}
    (hfits : Fits (d.channel ch) ((d.intStatus ch).union bits)) : Inv (d.raise ch bits) := by
  have hset := hinv.set hfits (.inr (later_refl _))
  rwa [update_eq_self] at hset

theorem mem_ownerId {o : Owner} (h : o ∈ (d.channel ch).owner) : d.ownerId ch = some o.req.id := by
  rw [Dmac.ownerId, h, map_some]

end

/-! ## The stages of a call -/

section Stages

variable {d : Dmac n} {ch : Fin n}

theorem fits_of_none {c : Channel} {b : Bits} (h : c.owner = none) : Fits c b := by
  simp [Fits, h]

theorem Inv.setIdle (hinv : Inv d) (ch : Fin n) : Inv (d.modify ch setIdle) :=
  hinv.modify (fits_of_none rfl) (.inr (later_of_none rfl rfl rfl))

/-- **A started channel** has what its owner has passed. -/
theorem Inv.kick (hinv : Inv d) (hcall : StageFits (d.channel ch) ch (.kick false))
    (hclear : d.intStatus ch = .clear) : Inv (d.modify ch kick) := by
  refine hinv.mapOwner rfl (fun o ho hfits => ?_)
    (.inr (later_map rfl (fun _ => rfl) (fun _ h => h) rfl rfl))
  rw [hclear] at hfits ⊢
  exact ⟨hfits.busy, fun _ => rfl, fun _ => hcall o ho, due_clear hfits.due_eq_zero⟩

/-- The update of `ch_keep` for one channel, where that of the others is as it was loaded. -/
theorem Inv.keepStore (hinv : Inv d) {req : Request} {word : Fin n → Bool}
    (hcall : ∀ o ∈ (d.channel ch).owner, o.req = req)
    (hword : ∀ ch', ch' ≠ ch → word ch' = (d.channel ch').keep) :
    Inv { d with channel := fun i => { d.channel i with keep := update word ch req.keep i } } := by
  have hchannel : (fun i => { d.channel i with keep := update word ch req.keep i }) =
      update d.channel ch { d.channel ch with keep := req.keep } := by
    funext i
    by_cases hi : i = ch
    · subst hi
      simp
    · simp [hi, hword i hi]
  rw [hchannel]
  have hkeep : ∀ o ∈ (d.channel ch).owner, req.keep = o.req.keep := fun o ho => by rw [hcall o ho]
  refine hinv.modify (f := ({ · with keep := req.keep })) (fun o ho => ?_)
    (.inr ⟨fun o ho => ⟨o, ho, rfl, id⟩, .inr hkeep, .inl rfl⟩)
  have hfits := hinv.fits ch o ho
  exact { hfits with started := fun h => ⟨(hfits.started h).1, hkeep o ho⟩ }

theorem Inv.setCb (hinv : Inv d) {cb : Option Handler}
    (hcb : ∀ o ∈ (d.channel ch).owner, cb = o.req.handler) :
    Inv (d.modify ch ({ · with cb })) := by
  refine hinv.modify (fun o ho => ?_) (.inr ⟨fun o ho => ⟨o, ho, rfl, id⟩, .inl rfl, .inr hcb⟩)
  have hfits := hinv.fits ch o ho
  exact { hfits with started := fun h => ⟨hcb o ho, (hfits.started h).2⟩ }

theorem Bits.ack_clear (b : Bits) : b.ack .clear = b := by
  simp [Bits.ack, Bits.clear]

/-- Acknowledging the bits of a channel that is not in use. -/
theorem Inv.ack (hinv : Inv d) {word : Fin n → Bits} (honly : OnlyBits word ch)
    (hcall : ∀ o ∈ (d.channel ch).owner, o.cancelled = true) :
    Inv { d with intStatus := fun ch => (d.intStatus ch).ack (word ch) } := by
  refine ⟨fun i o ho => ?_, hinv.calls⟩
  have hfits := hinv.fits i o ho
  by_cases hi : i = ch
  · subst hi
    have hdue := hfits.due
    rw [if_pos (hcall o ho)] at hdue
    exact { hfits with due := by rwa [if_pos (hcall o ho)] }
  · dsimp only
    rwa [honly i hi, Bits.ack_clear]

/-- **The next stage of a call** keeps the invariant, and the stage after it can rely on it. -/
theorem Inv.resumeStage (hinv : Inv d) {stage : Stage n}
    (hcall : StageFits (d.channel ch) ch stage) (hguard : StageGuard d ch stage) :
    Inv (resumeStage d ch stage).1 ∧
      ∀ s ∈ (resumeStage d ch stage).2, StageFits ((resumeStage d ch stage).1.channel ch) ch s := by
  cases stage with
  | keepLoad req =>
    refine ⟨hinv, ?_⟩
    rintro s ⟨⟩
    exact hcall
  | keepStore req word =>
    refine ⟨hinv.keepStore hcall hguard, ?_⟩
    rintro s ⟨⟩ o ho
    exact ⟨hcall o ho, update_self ..⟩
  | setCb req hw =>
    have hcb : ∀ o ∈ (d.channel ch).owner,
        (if hw && req.handler.isNone then (d.channel ch).cb else req.handler) = o.req.handler := by
      intro o ho
      rw [(hcall o ho).1]
      split_ifs with hnone
      · rw [Bool.and_eq_true, isNone_iff_eq_none] at hnone
        rw [hguard hnone.1 hnone.2, hnone.2]
      · rfl
    refine ⟨hinv.setCb hcb, ?_⟩
    rintro s ⟨⟩
    simp only [StageFits, DmaIrq.resumeStage, modify_channel_self]
    intro o ho
    rw [hcb o ho, (hcall o ho).2, (hcall o ho).1]
    exact ⟨rfl, rfl⟩
  | kick poll =>
    refine ⟨hinv.kick hcall hguard, ?_⟩
    cases poll <;> rintro s ⟨⟩
    trivial
  | poll =>
    simp only [DmaIrq.resumeStage]
    split_ifs
    · refine ⟨hinv, ?_⟩
      rintro s ⟨⟩
      trivial
    · exact ⟨hinv.setIdle ch, nofun⟩
  | relIdle word =>
    refine ⟨hinv.setIdle ch, ?_⟩
    rintro s ⟨⟩
    refine ⟨hcall, ?_⟩
    simp [DmaIrq.resumeStage, modify_channel_self, DmaIrq.setIdle]
  | abortCheck =>
    refine ⟨hinv, ?_⟩
    rintro s ⟨⟩
    split_ifs <;> exact hcall
  | abortIdle =>
    refine ⟨hinv.setIdle ch, ?_⟩
    rintro s ⟨⟩
    simp [DmaIrq.resumeStage, modify_channel_self, DmaIrq.setIdle, StageFits]
  | abortRead =>
    refine ⟨hinv, ?_⟩
    rintro s ⟨⟩
    exact ⟨hguard, hcall⟩
  | ack word => exact ⟨hinv.ack hcall.1 hcall.2, nofun⟩

theorem resumeStage_calls (d : Dmac n) (ch : Fin n) (stage : Stage n) :
    (resumeStage d ch stage).1.calls = d.calls := by
  cases stage with
  | poll =>
    rw [resumeStage]
    split_ifs <;> rfl
  | _ => rfl

end Stages

/-! ## Runs -/

section Steps

variable {d d' : Dmac n} {ch : Fin n}

theorem Inv.alloc (hinv : Inv d) (hguard : ∀ ch ∈ idleCh d,
    (d.channel ch).running = false ∧ d.intStatus ch = .clear ∧ NoCall d ch) {req : Request}
    {stage : Stage n} (hstage : ∀ c ch, StageFits (alloc req c) ch stage) :
    Inv (scm2010DmaAllocCh req stage d) := by
  rw [scm2010DmaAllocCh]
  split
  · exact hinv
  next ch hidle =>
    obtain ⟨hrunning, hclear, hno⟩ := hguard ch hidle
    have hmod : Inv (d.modify ch (DmaIrq.alloc req)) := by
      refine hinv.modify ?_ (.inl hno)
      rintro o ⟨⟩
      rw [hclear]
      exact ⟨rfl, fun h => absurd (hrunning.symm.trans h) (by decide), nofun, due_clear rfl⟩
    have hfits : CallFits (d.modify ch (DmaIrq.alloc req)) ⟨ch, some req.id, stage⟩ := by
      rw [CallFits, modify_channel_self]
      refine ⟨?_, hstage ..⟩
      rintro o ⟨⟩
      rfl
    exact ⟨(hmod.call hfits).fits, (hmod.call hfits).calls⟩

theorem Inv.reload (hinv : Inv d) (hguard : Guard d (.reload ch)) :
    Inv ((d.modify ch reload).call ⟨ch, d.ownerId ch, .kick false⟩) := by
  obtain ⟨hclear, hno, hstarted⟩ := hguard
  have hmod : Inv (d.modify ch DmaIrq.reload) := by
    refine hinv.mapOwner rfl (fun o _ hfits => ?_) (.inl hno)
    rw [hclear] at hfits ⊢
    exact ⟨rfl, hfits.running, hfits.started, due_clear hfits.due_eq_zero⟩
  refine hmod.call ⟨fun o' ho' => ?_, ?_⟩
  all_goals rw [modify_channel_self] at *
  · obtain ⟨o, ho, rfl⟩ := Option.mem_map.mp ho'
    exact (mem_ownerId ho :)
  · intro o' ho'
    obtain ⟨o, ho, rfl⟩ := Option.mem_map.mp ho'
    exact (hinv.fits ch o ho).started (hstarted o ho)

theorem Inv.abort (hinv : Inv d) (ch : Fin n) : Inv (scm2010DmaChAbort ch d) := by
  have hmod : Inv (d.modify ch stop) := by
    refine hinv.mapOwner rfl (fun o _ hfits => ?_)
      (.inr (later_map rfl (fun _ => rfl) (fun _ _ => rfl) rfl rfl))
    exact ⟨hfits.busy, nofun, hfits.started, rfl⟩
  refine hmod.call ⟨fun o' ho' => ?_, fun o' ho' => ?_⟩
  all_goals
    rw [modify_channel_self] at ho'
    obtain ⟨o, ho, rfl⟩ := Option.mem_map.mp ho'
  · exact (mem_ownerId ho :)
  · rfl

/-- **A transfer ends**: the bit and the completion due come together. -/
theorem fits_endTransfer {c : Channel} {b : Bits} (hfits : Fits c b) (hrunning : c.running = true)
    (masked error : Bool) :
    Fits (endTransfer masked c) (b.union (if masked then .clear else .ending error)) := by
  intro o' ho'
  obtain ⟨o, ho, rfl⟩ := Option.mem_map.mp ho'
  have hold := hfits o ho
  have hdue := hold.due
  cases hcancelled : o.cancelled with
  | true =>
    rw [hcancelled, if_pos rfl] at hdue
    rw [Bool.or_true, if_pos rfl]
    exact ⟨hold.busy, nofun, hold.started, by rwa [hcancelled, if_pos rfl]⟩
  | false =>
    rw [hcancelled, if_neg nofun, hrunning] at hdue
    obtain ⟨rfl, hzero⟩ : b = .clear ∧ o.due = 0 := hdue.resolve_right fun h => nomatch h.2.2.1
    cases masked with
    | true => exact ⟨hold.busy, nofun, hold.started, due_clear hzero⟩
    | false =>
      refine ⟨hold.busy, nofun, hold.started, ?_⟩
      simp only [Bool.or_self, Bool.false_eq_true, if_false, hzero]
      exact .inr ⟨⟨error, rfl⟩, trivial, rfl, hold.running hrunning⟩

theorem Inv.finish (hinv : Inv d) (ch : Fin n) (error : Bool) :
    Inv (finishTransfer ch error d) := by
  rw [finishTransfer]
  by_cases hrunning : (d.channel ch).running = true
  · rw [if_pos hrunning]
    refine hinv.set (fits_endTransfer (hinv.fits ch) hrunning _ error) (.inr (later_map rfl
      (fun o => ?_) (fun o h => ?_) rfl rfl))
    · split_ifs <;> rfl
    · rwa [h, Bool.or_true, if_pos rfl]
  · rwa [if_neg hrunning]

theorem Inv.isr (hinv : Inv d) (hguard : Guard d .interrupt) : Inv (scm2010DmacIsr d).2 := by
  have hlater (ch : Fin n) : Later (d.channel ch) ((scm2010DmacIsr d).2.channel ch) := by
    rw [isr_channel hguard]
    cases (d.intStatus ch).status with
    | none => exact later_refl _
    | some s =>
      cases hkeep : (d.channel ch).keep with
      | false => exact later_of_none (by simp [served, serveChannel, hkeep]) rfl rfl
      | true =>
        exact later_map (g := ({ · with due := 0 })) (by simp [served, serveChannel, hkeep])
          (fun _ => rfl) (fun _ h => h) rfl rfl
  refine ⟨fun ch => ?_, fun call hcall => (hinv.calls call hcall).later (hlater call.ch)⟩
  have hfits := hinv.fits ch
  rw [isr_channel hguard]
  cases hs : (d.intStatus ch).status with
  | none =>
    rw [(d.intStatus ch).status_eq_none_iff.mp hs] at hfits
    exact hfits
  | some s =>
    intro o' ho'
    cases hkeep : (d.channel ch).keep with
    | false => simp [served, serveChannel, hkeep] at ho'
    | true =>
      simp only [served, elim_some, serveChannel, hkeep, if_true] at ho' ⊢
      obtain ⟨o, ho, rfl⟩ := Option.mem_map.mp ho'
      have hfits := hfits o ho
      refine ⟨by simp [hfits.busy], hfits.running, fun h => ?_, due_clear rfl⟩
      rw [← hkeep]
      exact hfits.started h

theorem Inv.resume (hinv : Inv d) (k : ℕ) (hguard : Guard d (.resume k)) :
    Inv (resume k d) := by
  rw [DmaIrq.resume]
  cases hk : d.calls[k]? with
  | none => exact hinv
  | some call =>
    have hmem := mem_of_getElem? hk
    obtain ⟨hr, hnext⟩ := hinv.resumeStage (hinv.calls call hmem).2 (hguard call hk)
    have hcalls := resumeStage_calls d call.ch call.stage
    have hcaller := (hr.calls call (hcalls ▸ hmem)).1
    refine hr.setCalls fun call' hmem' => ?_
    rw [hcalls]
    cases hs : (DmaIrq.resumeStage d call.ch call.stage).2 with
    | none =>
      rw [hs] at hmem'
      exact .inl (mem_of_mem_eraseIdx hmem')
    | some s =>
      rw [hs] at hmem'
      refine (mem_or_eq_of_mem_set hmem').imp_right ?_
      rintro rfl
      exact ⟨hcaller, hnext s hs⟩

/-- **A step keeps the invariant.** -/
theorem Inv.step (hinv : Inv d) {a : Action n} (hguard : Guard d a) (hstep : step d a = some d') :
    Inv d' := by
  cases a with
  | copy handler intMask =>
    cases hstep
    refine hinv.alloc hguard fun c ch => ?_
    rintro o ⟨⟩
    exact ⟨rfl, rfl⟩
  | copyHw keep handler tcMask errMask =>
    cases hstep
    refine hinv.alloc hguard fun c ch => ?_
    rintro o ⟨⟩
    rfl
  | reload ch =>
    simp only [DmaIrq.step, scm2010DmaReload] at hstep
    split at hstep <;> cases hstep
    exact hinv.reload hguard
  | release ch =>
    cases hstep
    exact hinv.call ⟨fun o ho => mem_ownerId ho, hguard⟩
  | abort ch =>
    cases hstep
    exact hinv.abort ch
  | resume k =>
    cases hstep
    exact hinv.resume k hguard
  | finish ch error =>
    cases hstep
    exact hinv.finish ch error
  | raise ch bits =>
    cases hstep
    refine hinv.raise fun o ho => ?_
    have hfits := hinv.fits ch o ho
    have hdue := hfits.due
    rw [if_pos (hguard o ho)] at hdue
    exact { hfits with due := by rwa [if_pos (hguard o ho)] }
  | interrupt =>
    cases hstep
    exact hinv.isr hguard

/-! ## Soundness -/

variable {o : Owner}

/-- **An interrupt** reports a completion exactly if one is due. -/
theorem Inv.servedRight (hinv : Inv d) (hguard : Guard d .interrupt) (hlive : Live d ch o) :
    ServedRight d ch o := by
  obtain ⟨ho, hcancelled⟩ := hlive
  have hfits := hinv.fits ch o ho
  have hdue := hfits.due
  rw [hcancelled, if_neg nofun] at hdue
  rcases hdue with ⟨hclear, hzero⟩ | ⟨⟨error, hbits⟩, hone, -, hstarted⟩
  · constructor
    · rw [callsOf_isr hguard, hclear, hzero]
      rfl
    · rw [isr_channel hguard, hclear, hzero]
      rfl
  · obtain ⟨hcb, hkeep⟩ := hfits.started hstarted
    obtain ⟨s, hs⟩ : ∃ s, (Bits.ending error).status = some s := by
      cases error <;> exact ⟨_, rfl⟩
    constructor
    · rw [callsOf_isr hguard, hbits, hs, hone, hcb]
      rfl
    · rw [isr_channel hguard, hbits, hs, hone, ← hkeep]
      cases hk : (d.channel ch).keep <;> simp [served, serveChannel, hk]

theorem undisturbed_of_eq (hlive : Live d ch o)
    (howner : (d'.channel ch).owner.map (·.req.id) = d.ownerId ch)
    (hbusy : (d.channel ch).busy → (d'.channel ch).busy)
    (hbits : (d.intStatus ch).completion → (d'.intStatus ch).completion) :
    Undisturbed d d' ch o :=
  ⟨howner.trans (mem_ownerId hlive.1), hbusy, fun _ => hbits⟩

theorem undisturbed_refl (hlive : Live d ch o) : Undisturbed d d ch o :=
  undisturbed_of_eq hlive rfl id id

/-- A change of one channel, for the owners of the others or one that keeps its owner. -/
theorem undisturbed_modify {ch' : Fin n} (hlive : Live d ch o)
    (h : ch = ch' → (f (d.channel ch)).owner.map (·.req.id) = d.ownerId ch ∧
      ((d.channel ch).busy → (f (d.channel ch)).busy)) : Undisturbed d (d.modify ch' f) ch o := by
  by_cases hch : ch = ch'
  · subst hch
    obtain ⟨howner, hbusy⟩ := h rfl
    refine undisturbed_of_eq hlive ?_ ?_ id <;> rwa [modify_channel_self]
  · refine undisturbed_of_eq hlive ?_ ?_ id <;> rw [modify_channel_of_ne hch]
    · rfl
    · exact id

theorem completion_raise (ch' : Fin n) (bits : Bits) (h : (d.intStatus ch).completion) :
    ((d.raise ch' bits).intStatus ch).completion := by
  rw [Dmac.raise]
  by_cases hch : ch = ch'
  · subst hch
    simp only [Bits.completion, Bits.union, update_self, Bool.or_eq_true] at h ⊢
    exact h.imp .inl .inl
  · simpa [hch] using h

theorem Inv.alloc_undisturbed (hinv : Inv d) (req : Request) (stage : Stage n)
    (hlive : Live d ch o) : Undisturbed d (scm2010DmaAllocCh req stage d) ch o := by
  rw [scm2010DmaAllocCh]
  split
  · exact undisturbed_refl hlive
  next ch' hidle =>
    have hmod : Undisturbed d (d.modify ch' (DmaIrq.alloc req)) ch o := by
      refine undisturbed_modify hlive ?_
      rintro rfl
      have hbusy := find?_some hidle
      simp [(hinv.fits ch o hlive.1).busy] at hbusy
    exact ⟨hmod.owner, hmod.busy, hmod.pending⟩

/-- **The next stage of a call** leaves the other channels alone. -/
theorem resumeStage_undisturbed {ch' : Fin n} {stage : Stage n} (hlive : Live d ch o)
    (hne : ch ≠ ch') (hcall : StageFits (d.channel ch') ch' stage) :
    Undisturbed d (resumeStage d ch' stage).1 ch o := by
  cases stage with
  | keepStore req word => exact undisturbed_of_eq hlive rfl id id
  | keepLoad req | abortCheck | abortRead => exact undisturbed_refl hlive
  | setCb req hw | kick poll | relIdle word | abortIdle =>
    simp only [resumeStage]
    exact undisturbed_modify hlive fun h => absurd h hne
  | poll =>
    rw [resumeStage]
    split_ifs
    · exact undisturbed_refl hlive
    · exact undisturbed_modify hlive fun h => absurd h hne
  | ack word =>
    refine undisturbed_of_eq hlive rfl id ?_
    simp only [resumeStage, hcall.1 ch hne, Bits.ack_clear]
    exact id

/-- **A step is sound under its condition.** -/
theorem Inv.sound (hinv : Inv d) {a : Action n} (hguard : Guard d a) : Sound d a := by
  cases a with
  | interrupt => exact fun ch o hlive => hinv.servedRight hguard hlive
  | copy | copyHw =>
    rintro d' ⟨⟩ ch o hlive -
    exact hinv.alloc_undisturbed _ _ hlive
  | reload ch' =>
    intro d' hstep ch o hlive _
    simp only [DmaIrq.step, scm2010DmaReload] at hstep
    split at hstep <;> cases hstep
    have hmod : Undisturbed d (d.modify ch' DmaIrq.reload) ch o :=
      undisturbed_modify hlive fun _ =>
        ⟨by simp [DmaIrq.reload, Dmac.ownerId, comp_def], fun _ => rfl⟩
    exact ⟨hmod.owner, hmod.busy, hmod.pending⟩
  | release ch' =>
    rintro d' ⟨⟩ ch o hlive -
    exact undisturbed_of_eq hlive rfl id id
  | abort ch' =>
    rintro d' ⟨⟩ ch o hlive -
    have hmod : Undisturbed d (d.modify ch' stop) ch o :=
      undisturbed_modify hlive fun _ => ⟨by simp [stop, Dmac.ownerId, comp_def], id⟩
    exact ⟨hmod.owner, hmod.busy, hmod.pending⟩
  | finish ch' error =>
    rintro d' ⟨⟩ ch o hlive -
    rw [finishTransfer]
    by_cases hrunning : (d.channel ch').running = true
    · rw [if_pos hrunning]
      generalize ((d.channel ch').owner.any _) = masked
      have hmod : Undisturbed d (d.modify ch' (endTransfer masked)) ch o := by
        refine undisturbed_modify hlive fun _ => ⟨?_, id⟩
        rw [endTransfer, Option.map_map, Dmac.ownerId]
        congr 1
        funext o
        dsimp only [comp_def]
        split_ifs <;> rfl
      exact ⟨hmod.owner, hmod.busy, fun _ h => completion_raise ch' _ h⟩
    · rw [if_neg hrunning]
      exact undisturbed_refl hlive
  | raise ch' bits =>
    rintro d' ⟨⟩ ch o hlive -
    exact undisturbed_of_eq hlive rfl id (completion_raise ch' bits)
  | resume k =>
    rintro d' ⟨⟩ ch o hlive hactor
    rw [DmaIrq.resume]
    cases hk : d.calls[k]? with
    | none => exact undisturbed_refl hlive
    | some call =>
      have hcall := hinv.calls call (mem_of_getElem? hk)
      have hne : ch ≠ call.ch := by
        rintro rfl
        refine hactor ?_
        rw [actor, hk, bind_some]
        exact hcall.1 o hlive.1
      have hother := resumeStage_undisturbed hlive hne hcall.2
      exact ⟨hother.owner, hother.busy, hother.pending⟩

theorem inv_probed (n : ℕ) : Inv (Dmac.probed n) := ⟨fun _ => fits_of_none rfl, nofun⟩

end Steps

/-- **Completions reach their owners exactly once**, in every run whose steps meet the condition. -/
theorem completions_sound {n : ℕ} {acts : List (Action n)}
    (hacts : StepsMeet step Guard (Dmac.probed n) acts) :
    StepsMeet step Sound (Dmac.probed n) acts :=
  hacts.of_inv Inv (fun _ _ hinv hguard => hinv.sound hguard)
    (fun _ _ _ hinv hguard hstep => hinv.step hguard hstep) (inv_probed n)

/-- Two channels are started at the same time, and both end. The first is kept: it is started again,
and released. -/
def keptAndFreed : List (Action 2) :=
  [.copyHw true (some 10) false false, .copyHw false (some 11) false false, .resume 1, .resume 1,
    .resume 0, .resume 0, .resume 0, .resume 1, .resume 0, .resume 0, .finish 1 true,
    .finish 0 false, .interrupt, .reload 0, .resume 0, .finish 0 false, .interrupt, .release 0,
    .resume 0, .resume 0]

/-- The first interrupt calls both handlers, and frees only the second channel. -/
theorem completions_sound_kept :
    StepsMeet step Sound (Dmac.probed 2) keptAndFreed ∧
      (runSteps step (Dmac.probed 2) (keptAndFreed.take 12)).map
          (fun d => ((scm2010DmacIsr d).1,
            (finRange 2).map fun ch => ((scm2010DmacIsr d).2.channel ch).busy)) =
        some ([(1, some 11), (0, some 10)], [true, false]) :=
  ⟨completions_sound (by decide +kernel), by decide +kernel⟩

/-- **A release loses another's completion.** Channel 1 has finished when channel 0 is released: the
release acknowledges the bit of channel 1, and the next interrupt reports nothing to its owner. -/
theorem release_discards_completion :
    (runSteps step (Dmac.probed 2)
      [.copyHw false (some 10) false false, .copyHw false (some 11) false false, .resume 0,
        .resume 0, .resume 0, .resume 0, .resume 0, .resume 0, .resume 0, .resume 0,
        .finish 1 false, .release 0, .resume 0, .resume 0]).map
      (fun d => (callsOf 1 (scm2010DmacIsr d).1, (d.channel 1).owner)) =
    some ([], some ⟨⟨1, some 11, false, false, false⟩, true, false, 1⟩) := by
  decide +kernel

end WiseSdk.DmaIrq
