import WiseSdk.Library.ByteMemory
import WiseSdk.Scdc.Credit

/-!
# Data packets to the host

`scdc_data` of `lib/scdc/scdc.c` puts a header in front of a packet from the radio and queues it for
the host. If enough transmit credits have become free, a COMP_TXSTATUS record travels between the
header and the payload; `data_offset` in the header says where the payload starts, in words.

`fws_piggyback_txstatus` has taken the slots off the table when `scdc_data` finds that the first
mbuf has no room for the record. The record is then left out, but `data_offset` still counts it.
-/

namespace WiseSdk.Scdc

open Library List Option

/-! ## Mbufs -/

/-- An mbuf: the address of its data, its leading space (none if it is not writable) and its
data. -/
structure Mbuf where
  addr : ℕ
  lead : List Byte
  data : List Byte
  deriving DecidableEq, Repr

def Mbuf.leadingSpace (m : Mbuf) : ℕ := m.lead.length

/-- `M_PREPEND` in place. No caller modelled here is without the room. -/
def Mbuf.prepend (m : Mbuf) (plen : ℕ) : Option Mbuf :=
  if plen ≤ m.leadingSpace then
    some ⟨m.addr - plen, m.lead.take (m.leadingSpace - plen),
      m.lead.drop (m.leadingSpace - plen) ++ m.data⟩
  else none

/-- Bytes are copied into the data from place `o` on. -/
def Mbuf.write (m : Mbuf) (o : ℕ) (bs : List Byte) : Mbuf := { m with data := splice m.data o bs }

def chainBytes (chain : List Mbuf) : List Byte := chain.flatMap Mbuf.data

structure IfQueue where
  pkts : List (List Mbuf)
  maxLen : ℕ
  deriving DecidableEq, Repr

/-- `ifq_enqueue`: a full queue refuses. -/
def IfQueue.enqueue (q : IfQueue) (m : List Mbuf) : Option IfQueue :=
  if q.maxLen ≤ q.pkts.length then none else some { q with pkts := q.pkts ++ [m] }

/-! ## The header -/

structure ScdcHeader where
  flags : Byte
  priority : Byte
  flags2 : Byte
  dataOffset : Byte
  seqno : BitVec 32
  deriving DecidableEq, Repr

def ScdcHeader.zero : ScdcHeader := ⟨0, 0, 0, 0, 0⟩

def ScdcHeader.bytes (hdr : ScdcHeader) : List Byte :=
  [hdr.flags, hdr.priority, hdr.flags2, hdr.dataOffset] ++ leBytes hdr.seqno

def scdcHeaderLen : ℕ := 8

def scdcProtoVer : Byte := 2

def scdcFlagVerMask : Byte := 0xf0

def scdcFlagVerShift : ℕ := 4

def scdcFlagSumGood : Byte := 0x04

def scdcFlagSumNeeded : Byte := 0x08

def scdcFlagSeqSync : Byte := 0x02

def scdcFlag2IfMask : Byte := 0x0f

/-- The part of `_scdc_ctx` that the data path uses, with the signalling state. -/
structure ScdcCtx where
  fws : SncmfFws
  inSeqno : BitVec 32
  inSeqSyncReq : Bool
  dataQueue : IfQueue

def scdcSetHdr (ctx : ScdcCtx) (ifidx : ℕ) (hdr : ScdcHeader) (dataOffset : Byte) :
    ScdcHeader × ScdcCtx :=
  let flags2 := (hdr.flags2 &&& ~~~scdcFlag2IfMask) ||| BitVec.ofNat 8 ifidx
  let flags := (hdr.flags &&& ~~~scdcFlagVerMask) ||| scdcProtoVer <<< scdcFlagVerShift
  let flags := flags &&& ~~~(scdcFlagSumGood ||| scdcFlagSumNeeded ||| scdcFlagSeqSync)
  let flags := flags ||| scdcFlagSumGood
  let flags := flags ||| if ctx.inSeqSyncReq then scdcFlagSeqSync else 0
  ({ hdr with
      flags := flags
      flags2 := flags2
      seqno := ctx.inSeqno
      dataOffset := dataOffset >>> 2 },
    { ctx with inSeqno := ctx.inSeqno + 1, inSeqSyncReq := false })

/-! ## The extension -/

/-- The record as it lies in memory, without its padding. -/
def CompTxstatusTlv.bytes (tlv : CompTxstatusTlv) : List Byte :=
  [tlv.type, tlv.len] ++ leBytes tlv.tag ++ [tlv.comp]

/-- FWS_COMP_TXSTATUS_LEN, which is also SCDC_EXT_HDR_LEN. -/
def fwsCompTxstatusLen : ℕ := 8

/-- What `scdc_hdr_ext` leaves: the signalling state, `ext_hdr_buf`, `data_offset` and a length. -/
structure HdrExt where
  fws : SncmfFws
  buf : List Byte
  dataOffset : ℕ
  len : ℕ

def scdcHdrExt (cfg : FwsCfg) (fws : SncmfFws) : Option HdrExt :=
  (fwsReportTxstatus cfg fws false false).map fun rep =>
    { fws := rep.fws
      buf := splice (replicate fwsCompTxstatusLen 0)
        0 (rep.tlv.elim [] CompTxstatusTlv.bytes)
      dataOffset := rep.len
      -- `fws_comp_txstatus_len`
      len := if fwsCreditEn rep.fws then fwsCompTxstatusLen else 0 }

/-- `scdc_data` on the chain `m :: rest`; `ifidx` is what `get_vap_idx` finds. -/
def scdcData (cfg : FwsCfg) (ctx : ScdcCtx) (ifidx : Option ℕ) (m : Mbuf) (rest : List Mbuf) :
    Option ScdcCtx :=
  match ifidx with
  | none => none
  | some ifidx =>
    if m.leadingSpace < scdcHeaderLen then none
    else
      (scdcHdrExt cfg ctx.fws).bind fun ext =>
        let extHdrLen :=
          if m.leadingSpace < scdcHeaderLen + ext.len ∨ ext.dataOffset = 0 then 0 else ext.len
        (m.prepend (scdcHeaderLen + extHdrLen)).bind fun m =>
          if ext.buf.length < extHdrLen then none
          else
            let m := m.write scdcHeaderLen (ext.buf.take extHdrLen)
            let m := m.write 0 (replicate scdcHeaderLen 0)
            let (hdr, ctx) := scdcSetHdr { ctx with fws := ext.fws } ifidx ScdcHeader.zero
              (BitVec.ofNat 8 ext.dataOffset)
            (ctx.dataQueue.enqueue (m.write 0 hdr.bytes :: rest)).map fun q =>
              { ctx with dataQueue := q }

/-! ## What the host reads -/

def dataOffsetOf (pkt : List Byte) : ℕ := (pkt[3]?.getD 0).toNat

def extensionOf (pkt : List Byte) : List Byte :=
  (pkt.drop scdcHeaderLen).take (4 * dataOffsetOf pkt)

/-- The slots that an extension names: those of its COMP_TXSTATUS record. -/
def carriedSlots : List Byte → List ℕ
  | type :: len :: b₀ :: b₁ :: b₂ :: b₃ :: comp :: _ =>
    if type = fwsTypeCompTxstatus ∧ len = fwsTypeTxstatusLen + fwsTypeCompTxstatusLen then
      tlvSlots ⟨type, len, leWord b₀ b₁ b₂ b₃, comp⟩
    else []
  | _ => []

/-- **The packet describes itself**: `data_offset` counts the extension, the payload follows, and
every slot taken off the table is in it. -/
structure SelfDescribing (before after : SncmfFws) (payload pkt : List Byte) : Prop where
  length : pkt.length = scdcHeaderLen + 4 * dataOffsetOf pkt + payload.length
  payload : pkt.drop (scdcHeaderLen + 4 * dataOffsetOf pkt) = payload
  carried : ∀ i, before.hslotTab.bit i → ¬after.hslotTab.bit i → i ∈ carriedSlots (extensionOf pkt)

def piggybackSlots (cfg : FwsCfg) (s : SncmfFws) : List ℕ :=
  cyclicRun hangerMaxitems s.indicateHslot cfg.piggybackCompTxstatusCnt.toNat

/-- **The condition.** No record is due, or one that can be made and, if its slots are all done, has
room: its count fits in 8 bits and the mbuf has 16 bytes of leading space. -/
def PiggybackFits (cfg : FwsCfg) (s : SncmfFws) (leadingSpace : ℕ) : Prop :=
  fwsCreditEn s = false ∨ s.availableHslot < cfg.piggybackCompTxstatusCnt ∨
    SpanDefined (s.indicateHslot % wordBits) cfg.piggybackCompTxstatusCnt.toNat ∧
      ((∀ i ∈ piggybackSlots cfg s, s.hslotTab.bit i) → cfg.piggybackCompTxstatusCnt.toNat = 0 ∨
          cfg.piggybackCompTxstatusCnt.toNat < 256 ∧
            scdcHeaderLen + fwsCompTxstatusLen ≤ leadingSpace)

/-! ## What the packet is -/

@[simp] theorem ScdcHeader.length_bytes (hdr : ScdcHeader) :
    hdr.bytes.length = scdcHeaderLen := rfl

theorem Mbuf.prepend_write {m : Mbuf} {hdr zeros ext : List Byte}
    (hzeros : zeros.length = hdr.length) (hroom : hdr.length + ext.length ≤ m.leadingSpace) :
    ∃ m', m.prepend (hdr.length + ext.length) = some m' ∧
      (((m'.write hdr.length ext).write 0 zeros).write 0 hdr).data = hdr ++ ext ++ m.data := by
  set n := m.leadingSpace - (hdr.length + ext.length) with hn
  obtain ⟨x, y, hxy, hx, hy⟩ : ∃ x y, m.lead.drop n = x ++ y ∧ x.length = hdr.length ∧
      y.length = ext.length := by
    have hlen : (m.lead.drop n).length = hdr.length + ext.length := by
      rw [length_drop, hn, Mbuf.leadingSpace] at *
      omega
    refine ⟨(m.lead.drop n).take hdr.length, (m.lead.drop n).drop hdr.length,
      (take_append_drop ..).symm, ?_, ?_⟩
    · rw [length_take, hlen]
      omega
    · rw [length_drop, hlen]
      omega
  refine ⟨⟨m.addr - (hdr.length + ext.length), m.lead.take n, x ++ y ++ m.data⟩, ?_, ?_⟩
  · rw [Mbuf.prepend, if_pos hroom, ← hn, hxy]
  · have hext := splice_append x m.data hy.symm
    have hzero := splice_append [] (ext ++ m.data) (hzeros.trans hx.symm)
    have hhdr := splice_append [] (ext ++ m.data) hzeros.symm
    simp only [nil_append, length_nil, ← append_assoc] at hzero hhdr
    simp only [Mbuf.write]
    rw [← hx, hext, hzero, hhdr]

def HdrExt.sent (ext : HdrExt) (leadingSpace : ℕ) : List Byte :=
  if leadingSpace < scdcHeaderLen + ext.len ∨ ext.dataOffset = 0 then [] else ext.buf.take ext.len

/-- **The packet** queued is a header with the `data_offset` of `scdc_hdr_ext`, the bytes of the
extension sent, and the payload. -/
theorem scdcData_eq {cfg : FwsCfg} {ctx : ScdcCtx} {ext : HdrExt} (ifidx : ℕ) {m : Mbuf}
    (rest : List Mbuf) (hext : scdcHdrExt cfg ctx.fws = some ext)
    (hbuf : ext.len ≤ ext.buf.length) (hlead : scdcHeaderLen ≤ m.leadingSpace)
    (hfree : ctx.dataQueue.pkts.length < ctx.dataQueue.maxLen) :
    ∃ ctx' pkt, ∃ hdr : ScdcHeader, scdcData cfg ctx (some ifidx) m rest = some ctx' ∧
      ctx'.fws = ext.fws ∧ ctx'.dataQueue.pkts = ctx.dataQueue.pkts ++ [pkt] ∧
      hdr.dataOffset = BitVec.ofNat 8 ext.dataOffset >>> 2 ∧ chainBytes pkt =
        hdr.bytes ++ ext.sent m.leadingSpace ++ chainBytes (m :: rest) := by
  set extHdrLen :=
    if m.leadingSpace < scdcHeaderLen + ext.len ∨ ext.dataOffset = 0 then 0 else ext.len with hlen
  have hsent : ext.buf.take extHdrLen = ext.sent m.leadingSpace := by
    rw [HdrExt.sent, hlen]
    split_ifs <;> simp
  have hle : extHdrLen ≤ ext.buf.length := by
    rw [hlen]
    split_ifs <;> omega
  have hsize : (ext.sent m.leadingSpace).length = extHdrLen := by
    rw [← hsent, length_take, Nat.min_eq_left hle]
  have hroom : scdcHeaderLen + extHdrLen ≤ m.leadingSpace := by
    rw [hlen]
    split_ifs <;> omega
  set out := scdcSetHdr { ctx with fws := ext.fws } ifidx ScdcHeader.zero
    (BitVec.ofNat 8 ext.dataOffset) with hout
  have hzeros : (replicate scdcHeaderLen (0 : Byte)).length = out.1.bytes.length := rfl
  have hfits : out.1.bytes.length + (ext.sent m.leadingSpace).length ≤ m.leadingSpace := by
    rwa [hsize]
  obtain ⟨m', hprep, hdata⟩ := Mbuf.prepend_write hzeros hfits
  rw [hsize, ScdcHeader.length_bytes] at hprep
  set sentHead := ((m'.write scdcHeaderLen (ext.sent m.leadingSpace)).write 0
    (replicate scdcHeaderLen 0)).write 0 out.1.bytes with hhead
  refine ⟨{ out.2 with dataQueue :=
      { ctx.dataQueue with pkts := ctx.dataQueue.pkts ++ [sentHead :: rest] } },
    sentHead :: rest, out.1, ?_, rfl, rfl, rfl, ?_⟩
  · have hq : out.2.dataQueue.enqueue (sentHead :: rest) =
        some { ctx.dataQueue with pkts := ctx.dataQueue.pkts ++ [sentHead :: rest] } :=
      if_neg (Nat.not_le.mpr hfree)
    rw [scdcData, if_neg (Nat.not_lt.mpr hlead), hext, bind_some]
    simp only [← hlen]
    rw [hprep, bind_some, if_neg (Nat.not_lt.mpr hle)]
    simp only [hsent, ← hout, ← hhead]
    rw [hq, map_some]
  · simp only [chainBytes, flatMap_cons]
    rw [← append_assoc, ← hdata, ScdcHeader.length_bytes]

/-! ## The piggybacked report -/

section Piggyback

variable {cfg : FwsCfg} {s : SncmfFws}

theorem fwsReportTxstatus_not_due
    (h : fwsCreditEn s = false ∨ s.availableHslot < cfg.piggybackCompTxstatusCnt) :
    fwsReportTxstatus cfg s false false = some ⟨s, none, 0⟩ := by
  rw [fwsReportTxstatus]
  rcases h with h | h
  · simp [h]
  · simp [expectOf, h]

section

variable (hcredit : fwsCreditEn s = true)
  (hdue : ¬s.availableHslot < cfg.piggybackCompTxstatusCnt)

include hcredit hdue

theorem fwsReportTxstatus_undefined
    (h : ¬SpanDefined (s.indicateHslot % wordBits) cfg.piggybackCompTxstatusCnt.toNat) :
    fwsReportTxstatus cfg s false false = none := by
  have hscan : thresholdReport s.hslotTab (s.indicateHslot / wordBits)
      (s.indicateHslot % wordBits) cfg.piggybackCompTxstatusCnt.toNat = none :=
    thresholdReport_of_not_spanDefined (Nat.mod_lt s.indicateHslot (by decide))
      cfg.piggybackCompTxstatusCnt.isLt h
  rw [fwsReportTxstatus]
  simp [expectOf, hcredit, hdue, hscan]

section

variable (hind : s.indicateHslot < hangerMaxitems)
  (hdef : SpanDefined (s.indicateHslot % wordBits) cfg.piggybackCompTxstatusCnt.toNat)

include hind hdef

theorem fwsReportTxstatus_waiting (hopen : ¬∀ i ∈ piggybackSlots cfg s, s.hslotTab.bit i) :
    fwsReportTxstatus cfg s false false = some ⟨s, none, 0⟩ := by
  have hscan := thresholdReport_eq s.hslotTab hind hdef
  rw [← piggybackSlots, if_neg hopen] at hscan
  exact fwsReportTxstatus_of_scan (n := 0) hcredit (by simp [expectOf, hdue]) hscan

theorem fwsReportTxstatus_taken (hall : ∀ i ∈ piggybackSlots cfg s, s.hslotTab.bit i) :
    ∃ tab, fwsReportTxstatus cfg s false false =
        some (reportOf s tab cfg.piggybackCompTxstatusCnt.toNat) ∧
      ∀ i, tab.bit i = (s.hslotTab.bit i && decide (i ∉ piggybackSlots cfg s)) := by
  have hscan := thresholdReport_eq s.hslotTab hind hdef
  rw [← piggybackSlots, if_pos hall] at hscan
  obtain ⟨tab, hscan, hbits⟩ := hscan
  exact ⟨tab, fwsReportTxstatus_of_scan hcredit (by simp [expectOf, hdue]) hscan, hbits⟩

end

end

end Piggyback

/-! ## Reading the packet back -/

theorem selfDescribing_iff {before after : SncmfFws} {hdr : ScdcHeader} {ext payload : List Byte} :
    SelfDescribing before after payload (hdr.bytes ++ ext ++ payload) ↔
      ext.length = 4 * hdr.dataOffset.toNat ∧
        ∀ i, before.hslotTab.bit i → ¬after.hslotTab.bit i → i ∈ carriedSlots ext := by
  have hoff : dataOffsetOf (hdr.bytes ++ ext ++ payload) = hdr.dataOffset.toNat := rfl
  have hlength : (hdr.bytes ++ ext ++ payload).length =
      scdcHeaderLen + ext.length + payload.length := by
    simp only [length_append, ScdcHeader.length_bytes]
  have hextension : ext.length = 4 * hdr.dataOffset.toNat →
      extensionOf (hdr.bytes ++ ext ++ payload) = ext := by
    intro h
    rw [extensionOf, hoff, ← h, append_assoc, ← hdr.length_bytes, drop_left, take_left]
  constructor
  · rintro ⟨hlen, -, hcarried⟩
    have hext : ext.length = 4 * hdr.dataOffset.toNat := by omega
    rw [hextension hext] at hcarried
    exact ⟨hext, hcarried⟩
  · rintro ⟨hext, hcarried⟩
    refine ⟨?_, ?_, ?_⟩
    · rw [hlength, hoff, hext]
    · rw [hoff, ← hext, ← hdr.length_bytes, ← length_append, drop_left]
    · rw [hextension hext]
      exact hcarried

theorem carriedSlots_record {p : ℕ} (hp : p < hangerMaxitems) (n : ℕ) (pad : List Byte) :
    carriedSlots ((fwsBuildCompTxstatusTlv p (BitVec.ofNat 8 n)).bytes ++ pad) =
      cyclicRun hangerMaxitems p (n % 256) := by
  have hslots : tlvSlots (fwsBuildCompTxstatusTlv p (BitVec.ofNat 8 n)) =
      cyclicRun hangerMaxitems p (n % 256) := by
    simp only [tlvSlots, fwsBuildCompTxstatusTlv, tagHslot_indicate hp, BitVec.toNat_ofNat,
      Nat.reducePow]
  rw [← hslots]
  simp only [CompTxstatusTlv.bytes, leBytes, cons_append, nil_append, carriedSlots,
    leWord_extractLsb']
  rw [if_pos ⟨rfl, rfl⟩]

/-! ## The packets that describe themselves -/

/-- The packet that `scdc_data` queues describes itself. -/
def DataDescribed (cfg : FwsCfg) (ctx : ScdcCtx) (ifidx : Option ℕ) (m : Mbuf) (rest : List Mbuf) :
    Prop :=
  ∃ ctx' pkt, scdcData cfg ctx ifidx m rest = some ctx' ∧
    ctx'.dataQueue.pkts = ctx.dataQueue.pkts ++ [pkt] ∧
    SelfDescribing ctx.fws ctx'.fws (chainBytes (m :: rest)) (chainBytes pkt)

section Packet

variable {cfg : FwsCfg} {ctx : ScdcCtx} (ifidx : ℕ) {m : Mbuf} (rest : List Mbuf)
  (hlead : scdcHeaderLen ≤ m.leadingSpace)
  (hfree : ctx.dataQueue.pkts.length < ctx.dataQueue.maxLen) {fws : SncmfFws}

include hlead hfree

theorem dataDescribed_iff {ext : HdrExt} (hext : scdcHdrExt cfg ctx.fws = some ext)
    (hbuf : ext.len ≤ ext.buf.length) :
    DataDescribed cfg ctx (some ifidx) m rest ↔
      (ext.sent m.leadingSpace).length = 4 * (BitVec.ofNat 8 ext.dataOffset >>> 2).toNat ∧
        ∀ i, ctx.fws.hslotTab.bit i → ¬ext.fws.hslotTab.bit i →
          i ∈ carriedSlots (ext.sent m.leadingSpace) := by
  obtain ⟨ctx', pkt, hdr, hrun, hfws, hpkts, hoff, hbytes⟩ :=
    scdcData_eq ifidx rest hext hbuf hlead hfree
  rw [← hoff, ← hfws, ← selfDescribing_iff, ← hbytes]
  constructor
  · rintro ⟨ctx'', pkt', hrun', hpkts', hself⟩
    rw [hrun, some_inj] at hrun'
    subst hrun'
    have hpkt : pkt = pkt' := by simpa [hpkts] using hpkts'
    rwa [hpkt]
  · exact fun hself => ⟨ctx', pkt, hrun, hpkts, hself⟩

theorem dataDescribed_iff_of_silent
    (hrep : fwsReportTxstatus cfg ctx.fws false false = some ⟨fws, none, 0⟩) :
    DataDescribed cfg ctx (some ifidx) m rest ↔
      ∀ i, ctx.fws.hslotTab.bit i → fws.hslotTab.bit i := by
  have hext : scdcHdrExt cfg ctx.fws = some
      ⟨fws, replicate fwsCompTxstatusLen 0, 0,
        if fwsCreditEn fws then fwsCompTxstatusLen else 0⟩ := by
    rw [scdcHdrExt, hrep]
    rfl
  rw [dataDescribed_iff ifidx rest hlead hfree hext (by simp only; split <;> decide)]
  simp [HdrExt.sent, carriedSlots]

theorem dataDescribed_iff_of_record {n : ℕ} (hrep : fwsReportTxstatus cfg ctx.fws false false = some
      ⟨fws, some (fwsBuildCompTxstatusTlv ctx.fws.indicateHslot (BitVec.ofNat 8 n)),
        compTxstatusLen⟩)
    (hcredit : fwsCreditEn fws = true) (hind : ctx.fws.indicateHslot < hangerMaxitems) :
    DataDescribed cfg ctx (some ifidx) m rest ↔
      scdcHeaderLen + fwsCompTxstatusLen ≤ m.leadingSpace ∧
        ∀ i, ctx.fws.hslotTab.bit i → ¬fws.hslotTab.bit i →
          i ∈ cyclicRun hangerMaxitems ctx.fws.indicateHslot (n % 256) := by
  set tlv := fwsBuildCompTxstatusTlv ctx.fws.indicateHslot (BitVec.ofNat 8 n) with htlv
  have hext : scdcHdrExt cfg ctx.fws =
      some ⟨fws, tlv.bytes ++ [0], compTxstatusLen, fwsCompTxstatusLen⟩ := by
    rw [scdcHdrExt, hrep, map_some, hcredit]
    rfl
  have hsize : (tlv.bytes ++ [0]).length = fwsCompTxstatusLen := rfl
  have hwords : 4 * (BitVec.ofNat 8 compTxstatusLen >>> 2).toNat = fwsCompTxstatusLen := by decide
  rw [dataDescribed_iff ifidx rest hlead hfree hext hsize.ge]
  by_cases hroom : scdcHeaderLen + fwsCompTxstatusLen ≤ m.leadingSpace
  · have hsent : HdrExt.sent ⟨fws, tlv.bytes ++ [0], compTxstatusLen, fwsCompTxstatusLen⟩
        m.leadingSpace = tlv.bytes ++ [0] := by
      rw [HdrExt.sent, if_neg (by rintro (h | h); exacts [Nat.not_lt.mpr hroom h, by cases h])]
      rfl
    rw [hsent, hsize, hwords, htlv, carriedSlots_record hind]
    exact and_congr_left fun _ => ⟨fun _ => hroom, fun _ => rfl⟩
  · have hsent : HdrExt.sent ⟨fws, tlv.bytes ++ [0], compTxstatusLen, fwsCompTxstatusLen⟩
        m.leadingSpace = [] := if_pos (.inl (Nat.not_le.mp hroom))
    rw [hsent, hwords]
    exact ⟨fun h => absurd h.1 (by decide), fun h => absurd h.1 hroom⟩

theorem dataDescribed_iff_of_taken (hcredit : fwsCreditEn ctx.fws = true)
    (hdue : ¬ctx.fws.availableHslot < cfg.piggybackCompTxstatusCnt)
    (hdef : SpanDefined (ctx.fws.indicateHslot % wordBits) cfg.piggybackCompTxstatusCnt.toNat)
    (hall : ∀ i ∈ piggybackSlots cfg ctx.fws, ctx.fws.hslotTab.bit i)
    (hind : ctx.fws.indicateHslot < hangerMaxitems) :
    DataDescribed cfg ctx (some ifidx) m rest ↔
      cfg.piggybackCompTxstatusCnt.toNat = 0 ∨ cfg.piggybackCompTxstatusCnt.toNat < 256 ∧
        scdcHeaderLen + fwsCompTxstatusLen ≤ m.leadingSpace := by
  obtain ⟨tab, hrep, hbits⟩ := fwsReportTxstatus_taken hcredit hdue hind hdef hall
  set e := cfg.piggybackCompTxstatusCnt.toNat with he
  -- The slots taken are those of the report; the record counts them modulo 256.
  have htaken : ∀ run : List ℕ, (∀ i, ctx.fws.hslotTab.bit i → ¬tab.bit i → i ∈ run) ↔
      piggybackSlots cfg ctx.fws ⊆ run := by
    intro run
    constructor
    · intro h i hi
      exact h i (hall i hi) (by simp [hbits, hi])
    · intro h i hbit htab
      refine h (by_contra fun hi => htab ?_)
      simp [hbits, hbit, hi]
  have hcount := cyclicRun_subset_iff (M := hangerMaxitems) (p := ctx.fws.indicateHslot) (m := e)
    (n := e % 256) ((Nat.mod_lt e (by decide)).trans (by decide))
  rw [reportOf] at hrep
  simp only [zero_lt_ofNat_iff] at hrep
  by_cases hzero : e % 256 = 0
  · rw [if_neg (not_not_intro hzero)] at hrep
    rw [dataDescribed_iff_of_silent ifidx rest hlead hfree hrep]
    have hnone := (htaken []).trans (hzero ▸ hcount :)
    simp only [not_mem_nil] at hnone
    have hiff : (∀ i, ctx.fws.hslotTab.bit i → tab.bit i) ↔ e ≤ 0 := by
      rw [← hnone]
      exact forall₂_congr fun i _ => not_not.symm
    rw [hiff]
    omega
  · rw [if_pos hzero] at hrep
    rw [dataDescribed_iff_of_record ifidx rest hlead hfree hrep hcredit hind, htaken,
      piggybackSlots, ← he, hcount]
    omega

end Packet

/-- **Data header.** The packet for the host describes itself exactly when a due report has the room
for its record and can count its slots. -/
theorem data_described_iff (cfg : FwsCfg) (ctx : ScdcCtx) (ifidx : ℕ) (m : Mbuf) (rest : List Mbuf)
    (hlead : scdcHeaderLen ≤ m.leadingSpace) (hind : ctx.fws.indicateHslot < hangerMaxitems)
    (hfree : ctx.dataQueue.pkts.length < ctx.dataQueue.maxLen) :
    DataDescribed cfg ctx (some ifidx) m rest ↔ PiggybackFits cfg ctx.fws m.leadingSpace := by
  have hsilent (hrep : fwsReportTxstatus cfg ctx.fws false false = some ⟨ctx.fws, none, 0⟩) :
      DataDescribed cfg ctx (some ifidx) m rest :=
    (dataDescribed_iff_of_silent ifidx rest hlead hfree hrep).mpr fun _ h => h
  rw [PiggybackFits]
  cases hcredit : fwsCreditEn ctx.fws with
  | false =>
    exact iff_of_true (hsilent (fwsReportTxstatus_not_due (.inl hcredit))) (.inl rfl)
  | true =>
    by_cases hdue : ctx.fws.availableHslot < cfg.piggybackCompTxstatusCnt
    · exact iff_of_true (hsilent (fwsReportTxstatus_not_due (.inr hdue))) (.inr (.inl hdue))
    by_cases hdef :
        SpanDefined (ctx.fws.indicateHslot % wordBits) cfg.piggybackCompTxstatusCnt.toNat
    · simp only [hdue, hdef, Bool.true_eq_false, false_or, true_and]
      by_cases hall : ∀ i ∈ piggybackSlots cfg ctx.fws, ctx.fws.hslotTab.bit i
      · rw [dataDescribed_iff_of_taken ifidx rest hlead hfree hcredit hdue hdef hall hind]
        exact ⟨fun h _ => h, fun h => h hall⟩
      · exact iff_of_true (hsilent (fwsReportTxstatus_waiting hcredit hdue hind hdef hall))
          fun h => absurd h hall
    · -- The report shifts by a whole word: no packet comes out of that.
      have hnone : scdcData cfg ctx (some ifidx) m rest = none := by
        rw [scdcData, if_neg (Nat.not_lt.mpr hlead), scdcHdrExt,
          fwsReportTxstatus_undefined hcredit hdue hdef]
        rfl
      refine iff_of_false ?_ (by simp [hdue, hdef])
      rintro ⟨ctx', pkt, hrun, -⟩
      rw [hnone] at hrun
      cases hrun

/-- Credit is on and the slots 1 to 5 are done: a report is due. -/
def dueCtx : ScdcCtx :=
  { fws := ⟨fwsFlagsCreditStatusSignals ||| fwsFlagsInit, fun q => if q = 0 then 0x3e else 0, 5, 1⟩
    inSeqno := 0
    inSeqSyncReq := true
    dataQueue := ⟨[], 100⟩ }

def packetWith (n : ℕ) : Mbuf := ⟨4096, replicate n 0, [0x45, 0, 0, 0x1c]⟩

/-- With 16 bytes of leading space the record of the five slots is carried. -/
theorem data_described_with_room :
    DataDescribed {} dueCtx (some 0) (packetWith 16) [] ∧ scdcHeaderLen ≤ 16 :=
  ⟨(data_described_iff {} dueCtx 0 (packetWith 16) [] (by decide) (by decide) (by decide)).mpr
    (.inr (.inr ⟨⟨by decide, .inl (by decide)⟩, fun _ => .inr (by decide)⟩)), by decide⟩

/-- With 8 bytes of leading space the header counts 8 bytes that are not there: the host loses the
front of the payload and the five slots. -/
theorem data_offset_without_room :
    (packetWith 8).leadingSpace = scdcHeaderLen ∧
      ¬DataDescribed {} dueCtx (some 0) (packetWith 8) [] ∧
      (scdcData {} dueCtx (some 0) (packetWith 8) []).map
          (fun ctx => (ctx.dataQueue.pkts.map chainBytes, ctx.fws.hslotTab 0)) =
        some ([[0x26, 0, 0, 2, 0, 0, 0, 0, 0x45, 0, 0, 0x1c]], 0) := by
  refine ⟨rfl, ?_, by decide +kernel⟩
  rw [dataDescribed_iff_of_taken 0 [] (by decide) (by decide) rfl (by decide)
    ⟨by decide, .inl (by decide)⟩ (by decide +kernel) (by decide)]
  decide

end WiseSdk.Scdc
