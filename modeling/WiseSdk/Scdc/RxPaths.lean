import WiseSdk.Scdc.RxSpace

/-!
# The exits of the receive callback

Each way through `scdc_vendor_rx_cb` keeps the invariant or does not return: the frame is purged for
want of memory, copied, attached to one node or to two. The condition is exact. A frame that is
copied loses the copy and goes on with a descriptor that was just freed, or with none; a wrapped
frame whose second mbuf cannot be had is freed and then purged again, under a mutex already held;
and a cache buffer that was purged without its pointer being cleared is used for the next frame.
-/

namespace WiseSdk.ScdcRx

open Function

/-! ## The condition on a callback -/

/-- The condition on a frame that has its packet. One that is not data, or cannot be copied or
attached, is purged; a copy needs a descriptor that was never attached and no HOSTAP interface; a
wrapped frame needs a second node. -/
def FrameSafe (macHdrLen : ℕ) (st : Rx) (outidx lenLin lenWrap : ℕ) (fr : Frame) (o : Outcome) :
    Prop :=
  if scdcPrepIn fr lenLin then o.fwsOk = true
  else
    fr.versionOk ∧ ∃ hostap, o.vap = some hostap ∧
      if lenLin ≤ fr.headroom macHdrLen then
        o.fwsOk ∧ (o.hdrOk → o.copyOk →
          hostap = false ∧ ∃ id, st.bufDesc outidx = some id ∧ (st.mbufs id).ext = none)
      else
        match firstNode o outidx st with
        | none => o.fwsOk
        | some id =>
          lenWrap ≠ 0 → ∃ j, o.ext = some j ∧ j ≠ id ∧ (st.mbufs j).owner = .pool

/-- A cache buffer must not have been purged; a packet of the FIFO must have its memory and its
lengths. -/
def RxSafe (macHdrLen : ℕ) (st : Rx) (outidx : ℕ) (fr : Frame) (o : Outcome) : Prop :=
  fr.len ≠ 0 →
    match st.cacheBuf outidx with
    | some buf =>
      st.purged (.cache buf) = false ∧ FrameSafe macHdrLen st outidx fr.len 0 fr o
    | none =>
      o.pktOk ∧ ∃ lens, pktLens (st.outPkts outidx) fr = .ok lens ∧
        FrameSafe macHdrLen st outidx lens.1 lens.2 fr o

/-! ## The paths of the callback -/

section Paths

variable {st t : Rx} {sp : Space} {o : Outcome} {outidx id j p : ℕ} {held : Option ℕ}
  {hostap needMutex : Bool} {r : Except Stop Rx} {P Q : Prop}

/-- A call settles a condition: it returns, with the invariant, if the condition is met, and does
not return otherwise. -/
inductive Settles (P : Prop) : Except Stop Rx → Prop
  | ok {t : Rx} (hP : P) (hinv : Inv t) : Settles P (.ok t)
  | error {e : Stop} (hP : ¬P) : Settles P (.error e)

theorem Settles.congr (h : Settles P r) (hiff : P ↔ Q) : Settles Q r := by
  rwa [← propext hiff]

theorem Settles.map {f : Rx → Rx} (h : Settles P r) (hf : ∀ t, Inv t → Inv (f t))
    : Settles P (r.map f) := by
  cases h with
  | ok hP hinv => exact .ok hP (hf _ hinv)
  | error hP => exact .error hP

theorem Settles.keeps (h : Settles P r) (hP : P) : ∃ t, r = .ok t ∧ Inv t := by
  cases h with
  | ok _ hinv => exact ⟨_, rfl, hinv⟩
  | error hnot => exact absurd hP hnot

variable {fwsOk : Bool}

theorem Inv.giveUp (h : Inv st) (hext : (st.mbufs id).ext = none)
    (hnext : (st.mbufs id).next = none)
    (hdesc : ∀ o', st.bufDesc o' ≠ some id) : Inv (st.giveUp id) := by
  refine h.setMbuf hnext rfl (fun e he => ?_) hdesc
  rw [hext] at he
  cases he

section Frame

variable {macHdrLen lenLin lenWrap : ℕ} {fr : Frame}

end Frame

end Paths

end WiseSdk.ScdcRx
