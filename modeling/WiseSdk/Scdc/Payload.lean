import WiseSdk.Scdc.Data
import WiseSdk.Sdio.Header

/-!
# The payload of a received frame

A frame on SDIO has an SDPCM header, an SCDC header, an extension, room for the MAC header, and the
payload. `sdio_vendor_pre_in` notes where the SCDC header starts and how many bytes of the transfer
lie behind the frame; `scdc_vendor_rx_cb` attaches an mbuf to what is between, and moves its start
over the rest. All three amounts go through 8-bit variables (`pre_len`, `pad_len` and `headroom`),
and none is compared with the length of the frame.

The model follows the callback of `WiseSdk.Scdc.RxCallback` along the paths of an SDIO frame, which
is never wrapped and for which nothing is kept ready, and says where the mbuf points
(`rxFrame_follows`).
-/

namespace WiseSdk.ScdcRx

open Library (Byte ByteMem readBytes)
open Scdc (ScdcHeader)
open Sdio (sdpcmHeaderAt)

/-! ## Model -/

/-- A transfer in the receive FIFO: `len_lin` bytes from `ptr_lin` on. -/
structure Received where
  mem : ByteMem
  ptrLin : ℕ
  lenLin : ℕ

def Received.sdpcm (r : Received) : SdpcmHeader := sdpcmHeaderAt (readBytes r.mem r.ptrLin 8)

/-- `sdio_vendor_pre_in`: `pre_len` and `pad_len` of a frame that goes on. -/
def preIn (r : Received) : Option (ℕ × ℕ) :=
  match sdioHdparse r.lenLin r.sdpcm with
  | .error _ => none
  | .ok (chan, datOffset, dataLen) =>
    if chan = dataChannel then some (datOffset % 256, (r.lenLin - dataLen) % 256) else none

/-- Where an mbuf points: `m_data` and `m_len`. -/
structure Payload where
  start : ℕ
  len : ℤ
  deriving DecidableEq

section Callback

/- The order of the fields in the 8 bytes of the SCDC header. -/
variable (decode : List Byte → ScdcHeader) (macHdrLen : ℕ)

/-- The frame with the SCDC header that `read_out_hdr` reads behind `pre_len`. -/
def Received.frame (r : Received) (preLen : ℕ) : Frame :=
  let hdr := decode (readBytes r.mem (r.ptrLin + preLen) 8)
  ⟨r.lenLin, r.lenLin, 0, some r.sdpcm, hdr.flags, hdr.dataOffset⟩

/-- The payload that `scdc_vendor_rx_cb` hands upward, if there is one. -/
def rxPayload (o : Outcome) (outidx : ℕ) (st : Rx) (r : Received) :
    Except Stop (Option Payload) :=
  match preIn r with
  | none => .ok none
  | some (preLen, padLen) =>
    if !(r.frame decode preLen).versionOk then .error .assertion
    else if o.vap.isNone then .error .nullPointer
    else
      let headroom := (r.frame decode preLen).headroom macHdrLen
      if r.lenLin ≤ headroom then
        -- The copy is lost: `m` is overwritten with a descriptor that is not there.
        if o.hdrOk && o.copyOk then .error .nullPointer else .ok none
      else
        match firstNode o outidx st with
        | none => .ok none
        | some _ =>
          let extSize : ℤ := r.lenLin - padLen - preLen
          .ok (some ⟨r.ptrLin + preLen + headroom, extSize - headroom⟩)

end Callback

/-! ## The paths of the callback -/

theorem preIn_eq_none_iff (r : Received) :
    preIn r = none ↔ sdioVendorPreIn r.lenLin r.sdpcm = true := by
  rw [preIn, sdioVendorPreIn]
  cases sdioHdparse r.lenLin r.sdpcm with
  | error e => simp
  | ok v =>
    obtain ⟨chan, datOffset, dataLen⟩ := v
    by_cases hchan : chan = dataChannel <;> simp [hchan]

section Paths

variable {decode : List Byte → ScdcHeader} {macHdrLen : ℕ} {o : Outcome} {outidx pkt : ℕ}
variable {st : Rx} {r : Received} {held : Option ℕ} {preLen padLen : ℕ}

theorem rxFrame_of_preIn (hpre : preIn r = some (preLen, padLen)) (sp : Space) :
    rxFrame macHdrLen held outidx sp r.lenLin 0 (r.frame decode preLen) o st =
      if !(r.frame decode preLen).versionOk then .error .assertion else match o.vap with
        | none => .error .nullPointer | some hostap =>
          if r.lenLin ≤ (r.frame decode preLen).headroom macHdrLen then
            rxCopy held hostap o outidx sp st else rxAttach held hostap o outidx sp false st := by
  have hgoes : scdcPrepIn (r.frame decode preLen) r.lenLin = false := by
    have hno : ¬sdioVendorPreIn r.lenLin r.sdpcm = true := by
      rw [← preIn_eq_none_iff, hpre]
      nofun
    exact Bool.eq_false_iff.mpr hno
  rw [rxFrame, hgoes]
  rfl

/-- The callback stops, or purges the packet when there is no payload, or hands a node upward that
is attached to the frame. -/
def Follows (held : Option ℕ) (o : Outcome) (outidx pkt : ℕ) (st : Rx) (result : Except Stop Rx) :
    Except Stop (Option Payload) → Prop
  | .error _ => ∃ e, result = .error e
  | .ok none => result = purgeOutp false held o.fwsOk st (.fifo outidx pkt)
  | .ok (some _) => ∃ hostap id, o.vap = some hostap ∧ firstNode o outidx st = some id ∧
      result = pass hostap (((st.takeFirst outidx id).extAdd id
        ⟨some (.fifo outidx pkt), some (.fifo outidx pkt)⟩).takeBufs outidx (.fifo outidx pkt))
        (some id)

/-- **The callback follows the payload**, when the pipe has no descriptor. -/
theorem rxFrame_follows (hpre : preIn r = some (preLen, padLen))
    (hdesc : st.bufDesc outidx = none) :
    Follows held o outidx pkt st
      (rxFrame macHdrLen held outidx (.fifo outidx pkt) r.lenLin 0 (r.frame decode preLen) o st)
      (rxPayload decode macHdrLen o outidx st r) := by
  rw [rxFrame_of_preIn hpre, rxPayload, hpre]
  simp only
  cases (r.frame decode preLen).versionOk with
  | false => exact ⟨_, rfl⟩
  | true =>
  cases hvap : o.vap with
  | none => exact ⟨_, rfl⟩
  | some hostap =>
  simp only [Bool.not_true, Bool.false_eq_true, if_false, Option.isNone_some]
  by_cases hcopy : r.lenLin ≤ (r.frame decode preLen).headroom macHdrLen
  · rw [if_pos hcopy, if_pos hcopy, rxCopy]
    cases o.hdrOk && o.copyOk with
    | false => rfl
    | true =>
      simp only [Bool.not_true, Bool.false_eq_true, if_false, if_true, hdesc, mFreem]
      cases purgeOutp false held o.fwsOk (st.setDesc outidx none) (.fifo outidx pkt) with
      | error e => exact ⟨e, rfl⟩
      | ok st' => exact ⟨_, rfl⟩
  · rw [if_neg hcopy, if_neg hcopy, rxAttach]
    cases hfirst : firstNode o outidx st with
    | none =>
      simp only [Follows]
      cases purgeOutp false held o.fwsOk st (.fifo outidx pkt) <;> rfl
    | some id => exact ⟨hostap, id, hvap, hfirst, rfl⟩

end Paths

/-! ## Payload extraction -/

/-- `headroom` without its 8 bits: the SCDC header, its extension and the room for the MAC
header. -/
def Frame.fullHeadroom (macHdrLen : ℕ) (fr : Frame) : ℕ := 8 + fr.dataOffset.toNat * 4 + macHdrLen

/-- **Payload extraction.** The payload is exactly the bytes from the headroom behind the data
offset up to the data length, not less than none. Nothing is handed upward if the version is wrong
or there is no memory; no null pointer is followed. -/
def PayloadExact (macHdrLen : ℕ) (r : Received) (fr : Frame) (datOffset dataLen : ℕ) :
    Except Stop (Option Payload) → Prop
  | .error e => e = .assertion
  | .ok none => True
  | .ok (some p) =>
    p.start = r.ptrLin + (datOffset + fr.fullHeadroom macHdrLen) ∧
    p.len = dataLen - (datOffset + fr.fullHeadroom macHdrLen) ∧ 0 ≤ p.len

/-- Less than 256 bytes lie behind the frame, the headroom fits 8 bits, and the frame is longer. -/
structure PayloadFits (macHdrLen : ℕ) (r : Received) (fr : Frame) (datOffset dataLen : ℕ) :
    Prop where
  padding : r.lenLin - dataLen < 256
  headroom : fr.fullHeadroom macHdrLen < 256
  covers : datOffset + fr.fullHeadroom macHdrLen ≤ dataLen
  longer : fr.fullHeadroom macHdrLen < r.lenLin

theorem sdioHdparse_bounds {hdrLen chan datOffset dataLen : ℕ} {h : SdpcmHeader}
    (hparse : sdioHdparse hdrLen h = .ok (chan, datOffset, dataLen)) :
    datOffset < 256 ∧ datOffset ≤ dataLen ∧ dataLen ≤ hdrLen := by
  rw [sdioHdparse] at hparse
  split_ifs at hparse with h₁ h₂ h₃ h₄ h₅ h₆
  have heq := Except.ok.inj hparse
  obtain ⟨-, rfl, rfl⟩ := heq
  refine ⟨?_, by omega, by omega⟩
  rw [BitVec.toNat_ushiftRight, Nat.shiftRight_eq_div_pow]
  omega

def plenty : Outcome := ⟨true, true, true, some 0, some 1, some false, true⟩

/-- **Payload extraction.** For a frame that goes on, the payload is exact in every state and
environment that knows its interface exactly when its version is wrong or it fits. -/
theorem payload_exact_iff (decode : List Byte → ScdcHeader) (macHdrLen : ℕ) (r : Received)
    {datOffset dataLen : ℕ}
    (haccept : sdioHdparse r.lenLin r.sdpcm = .ok (dataChannel, datOffset, dataLen)) :
    (∀ o outidx st, o.vap ≠ none →
      PayloadExact macHdrLen r (r.frame decode datOffset) datOffset dataLen
        (rxPayload decode macHdrLen o outidx st r)) ↔ ((r.frame decode datOffset).versionOk →
        PayloadFits macHdrLen r (r.frame decode datOffset) datOffset dataLen) := by
  obtain ⟨hbyte, hcovers, hfits⟩ := sdioHdparse_bounds haccept
  have hpre : preIn r = some (datOffset, (r.lenLin - dataLen) % 256) := by
    rw [preIn, haccept]
    simp only [if_true, Nat.mod_eq_of_lt hbyte]
  have hmod : (r.frame decode datOffset).headroom macHdrLen =
      (r.frame decode datOffset).fullHeadroom macHdrLen % 256 := rfl
  constructor
  · intro h hversion
    have hexact := h plenty 0 Rx.init (by decide)
    have hfirst : firstNode plenty 0 Rx.init = some 0 := rfl
    have hvap : plenty.vap.isNone = false := rfl
    simp only [rxPayload, hpre, hversion, hvap, hfirst, Bool.not_true, Bool.false_eq_true,
      if_false] at hexact
    by_cases hcopy : r.lenLin ≤ (r.frame decode datOffset).headroom macHdrLen
    · rw [if_pos hcopy] at hexact
      exact nomatch hexact
    rw [if_neg hcopy] at hexact
    obtain ⟨hstart, hlen, hnonneg⟩ := hexact
    simp only at hstart hlen hnonneg
    exact ⟨by omega, by omega, by omega, by omega⟩
  · intro h o outidx st hvap
    have hknown : o.vap.isNone = false := by
      cases hv : o.vap with
      | none => exact absurd hv hvap
      | some hostap => rfl
    simp only [rxPayload, hpre]
    cases hversion : (r.frame decode datOffset).versionOk with
    | false => rfl
    | true =>
      obtain ⟨hpad, hroom, hcover, hlong⟩ := h hversion
      have hcopy : ¬r.lenLin ≤ (r.frame decode datOffset).headroom macHdrLen := by
        rw [hmod]
        omega
      simp only [Bool.not_true, Bool.false_eq_true, if_false, hknown, hcopy]
      cases firstNode o outidx st with
      | none => exact trivial
      | some id =>
        rw [hmod]
        refine ⟨?_, ?_, ?_⟩ <;> simp only <;> omega

/-- The layout of `struct sncmf_proto_scdc_header`. -/
def headerLayout (bs : List Byte) : ScdcHeader :=
  ⟨bs.getD 0 0, bs.getD 1 0, bs.getD 2 0, bs.getD 3 0,
    bs.getD 7 0 ++ bs.getD 6 0 ++ bs.getD 5 0 ++ bs.getD 4 0⟩

/-- A transfer of `lenLin` bytes with a frame of `dataLen` bytes: an SDPCM header with offset 12,
and an SCDC header of version 2 with an extension of one word. -/
def sampleTransfer (lenLin dataLen : ℕ) : Received where
  mem x := ([BitVec.ofNat 8 dataLen, 0, ~~~BitVec.ofNat 8 dataLen, 255, 0, 0, 2, 12, 0, 0, 0, 0,
    0x20, 0, 0, 1] : List Byte).getD x 0
  ptrLin := 0
  lenLin := lenLin

/-- The condition holds of a frame of 200 bytes with 8 bytes of padding. -/
theorem payload_exact_sample :
    sdioHdparse 208 (sampleTransfer 208 200).sdpcm = .ok (dataChannel, 12, 200) ∧
    ∀ o outidx st, o.vap ≠ none →
      PayloadExact 76 (sampleTransfer 208 200) ((sampleTransfer 208 200).frame headerLayout 12)
        12 200 (rxPayload headerLayout 76 o outidx st (sampleTransfer 208 200)) := by
  have haccept : sdioHdparse (sampleTransfer 208 200).lenLin (sampleTransfer 208 200).sdpcm =
      .ok (dataChannel, 12, 200) := by decide
  refine ⟨haccept, (payload_exact_iff headerLayout 76 (sampleTransfer 208 200) haccept).mpr ?_⟩
  exact fun _ => ⟨by decide, by decide, by decide, by decide⟩

/-- **Padding and short frames.** With 256 bytes of padding the payload runs to the end of the
transfer; a frame of 20 bytes, less than its headroom, is delivered with a length of -80. -/
theorem padding_delivered_and_negative_length :
    sdioHdparse 456 (sampleTransfer 456 200).sdpcm = .ok (dataChannel, 12, 200) ∧
    rxPayload headerLayout 76 plenty 0 Rx.init (sampleTransfer 456 200) = .ok (some ⟨100, 356⟩) ∧
    sdioHdparse 100 (sampleTransfer 100 20).sdpcm = .ok (dataChannel, 12, 20) ∧
    rxPayload headerLayout 76 plenty 0 Rx.init (sampleTransfer 100 20) = .ok (some ⟨100, -80⟩) := by
  decide

end WiseSdk.ScdcRx
