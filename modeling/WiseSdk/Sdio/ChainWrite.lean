import Mathlib.Data.Vector.Defs
import WiseSdk.Scdc.Data

/-!
# The SDIO transmit chain

`sdio_vendor_chainwrite` of `lib/sdio/sdioif.c` empties the queue of packets for the host. Every
mbuf of a packet gets a header, and padding up to an aligned address, in its own leading space; a
packet with an mbuf that has no room for this is dropped. The mbufs of the others become elements of
the transmit chain in shared memory. When the queue is empty the chain is started once, and the
packets are freed when it is through.

The array of the chain has 64 elements and its index is a byte. The queue bounds the number of
packets but not of mbufs, so the walk can leave the array.

`unframe` is what the host makes of a transfer, by the layout that `sdioif.h` gives.
-/

namespace WiseSdk.Sdio

open Library Scdc BitVec Option
open List hiding Vector

/-! ## The header -/

def sdioDmaAlignment : ℕ := 4

def sdpcmHwhdrLen : ℕ := 4

def sdpcmSwhdrLen : ℕ := 4

def sdpcmHdrlen : ℕ := sdpcmHwhdrLen + sdpcmSwhdrLen

def sdpcmTlenMask : BitVec 32 := 0x00007fff

def sdpcmTlenShift : ℕ := 0

def sdpcmChannelMask : BitVec 32 := 0x000f0000

def sdpcmChannelShift : ℕ := 16

def sdpcmDoffsetMask : BitVec 32 := 0xff000000

def sdpcmDoffsetShift : ℕ := 24

def sdpcmDataChannel : Byte := 2

/-- A halfword as bytes, the least significant one first. -/
def leBytes16 (x : BitVec 16) : List Byte := [x.extractLsb' 0 8, x.extractLsb' 8 8]

/-- `sdio_update_hwhdr` at the start of the data. -/
def sdioUpdateHwhdr (m : Mbuf) (frmLength : BitVec 16) : Mbuf :=
  (m.write 0 (leBytes16 frmLength)).write 2 (leBytes16 (~~~frmLength))

/-- The word that `sdio_hdr_pack` makes. -/
def hdrval (type : Byte) (headPad : ℕ) : BitVec 32 :=
  (type.setWidth 32 <<< sdpcmChannelShift &&& sdpcmChannelMask) |||
    (BitVec.ofNat 32 (sdpcmHdrlen + headPad) <<< sdpcmDoffsetShift &&& sdpcmDoffsetMask)

/-- `sdio_hdr_pack` at the start of the data. -/
def sdioHdrPack (m : Mbuf) (len : BitVec 16) (type : Byte) (headPad : ℕ) : Mbuf :=
  (sdioUpdateHwhdr m len).write sdpcmHwhdrLen (leBytes (hdrval type headPad))

def wordAt (m : Mbuf) (o : ℕ) : BitVec 32 :=
  leWord (m.data.getD o 0) (m.data.getD (o + 1) 0) (m.data.getD (o + 2) 0) (m.data.getD (o + 3) 0)

/-- `sdio_hdr_fill_firstfrag` at the start of the data. -/
def sdioHdrFillFirstfrag (m : Mbuf) (totallen : BitVec 16) : Mbuf :=
  m.write sdpcmHwhdrLen (leBytes (wordAt m sdpcmHwhdrLen |||
    (totallen.setWidth 32 <<< sdpcmTlenShift &&& sdpcmTlenMask)))

/-! ## The chain -/

def sdvtMaxTxchainMaxsz : ℕ := 64

/-- `sdvt_txelem_t`, with the bytes that lie at `addr`. -/
structure TxElem where
  addr : ℕ
  mem : List Byte
  len : BitVec 16
  deriving DecidableEq, Repr

def TxElem.bytes (e : TxElem) : List Byte := e.mem.take e.len.toNat

abbrev TxElems := Vector TxElem sdvtMaxTxchainMaxsz

/-- The element of an mbuf; the length is a `u16`. -/
def TxElem.ofMbuf (m : Mbuf) : TxElem := ⟨m.addr, m.data, BitVec.ofNat 16 m.data.length⟩

/-- `sdvt_sdio_txchain_addelem`.  There is no result when the index is outside the array. -/
def sdvtSdioTxchainAddelem (elems : TxElems) (e : TxElem) (idx : Byte) : Option TxElems :=
  if h : idx.toNat < sdvtMaxTxchainMaxsz then some (elems.set idx.toNat e h) else none

/-- `sdvt_sdio_txchain_kick`. The transfer is done by `wise_irqd.bin`, which has no source; the
event records what the chain holds then, the first `cnt` elements in order. -/
def sdvtSdioTxchainKick (elems : TxElems) (cnt : Byte) : List (List Byte) :=
  (elems.toList.take cnt.toNat).map TxElem.bytes

/-! ## The walk -/

/-- A packet: the pointer to its first mbuf, and the mbufs. -/
structure Packet where
  m0 : ℕ
  chain : List Mbuf
  deriving DecidableEq, Repr

/-- What the call does to the device and to the packets, in order. -/
inductive TxEvent where
  | acquireTx
  | addelem (idx : ℕ)
  | kick (cnt : Byte) (transfers : List (List Byte))
  | freem (m0 : ℕ)
  | releaseTx
  deriving DecidableEq, Repr

/-- The local variables of the call, with the chain and the events so far. -/
structure Walk where
  elems : TxElems
  sendCnt : Byte
  freemList : List ℕ
  trace : List TxEvent

def headPad (m : Mbuf) : ℕ := m.addr % sdioDmaAlignment

/-- The first loop over a packet makes the headers. No result: no room for a header and padding. -/
def packLoop : List Mbuf → Option (List Mbuf)
  | [] => some []
  | m :: rest =>
    -- `m->m_len != 0`
    if m.data = [] then some (m :: rest)
    else if m.leadingSpace < sdpcmHdrlen + headPad m then none
    else (m.prepend (sdpcmHdrlen + headPad m)).bind fun m' =>
      (packLoop rest).map fun rest' =>
        sdioHdrPack m' (BitVec.ofNat 16 m'.data.length) sdpcmDataChannel (headPad m) :: rest'

/-- `m_fixhdr`, and the total length in the first header of a packet of several mbufs. -/
def fillFirst : List Mbuf → List Mbuf
  | m :: m' :: rest =>
    sdioHdrFillFirstfrag m (BitVec.ofNat 16 (chainBytes (m :: m' :: rest)).length) :: m' :: rest
  | chain => chain

/-- The second loop over a packet, which adds the elements. -/
def addLoop : List Mbuf → Walk → Option Walk
  | [], w => some w
  | m :: rest, w =>
    if m.data = [] then some w
    else (sdvtSdioTxchainAddelem w.elems (TxElem.ofMbuf m) w.sendCnt).bind fun elems =>
      addLoop rest
        { w with
          elems := elems
          sendCnt := w.sendCnt + 1
          trace := w.trace ++ [.addelem w.sendCnt.toNat] }

def chainLoop : List Packet → Walk → Option Walk
  | [], w => some w
  | p :: rest, w =>
    match packLoop p.chain with
    | none => chainLoop rest { w with trace := w.trace ++ [.freem p.m0] }
    | some chain => (addLoop (fillFirst chain) w).bind fun w =>
      chainLoop rest { w with freemList := p.m0 :: w.freemList }

/-- The end of the call: the chain is started and the packets sent are freed, or the device is
released. -/
def finish (w : Walk) : List TxEvent :=
  if w.sendCnt ≠ 0 then
    w.trace ++ .kick w.sendCnt (sdvtSdioTxchainKick w.elems w.sendCnt) ::
      w.freemList.map TxEvent.freem
  else w.trace ++ [.releaseTx]

/-- `sdio_vendor_chainwrite`: the chain and the events, or an index outside the array. -/
def sdioVendorChainwrite (elems : TxElems) (dataQueue : List Packet) :
    Option (TxElems × List TxEvent) :=
  (chainLoop dataQueue ⟨elems, 0, [], [.acquireTx]⟩).map fun w => (w.elems, finish w)

/-! ## What a call is for -/

/-- The host's reading of a transfer: the length, its complement, the total length, the channel and
the data offset. The length must be that of the transfer. -/
def unframe (bs : List Byte) : Option (List Byte) :=
  match bs with
  | l₀ :: l₁ :: c₀ :: c₁ :: _ :: _ :: channel :: offset :: _ =>
    if (l₁ ++ l₀).toNat = bs.length ∧ c₁ ++ c₀ = ~~~(l₁ ++ l₀) ∧
        channel &&& 0x0f = sdpcmDataChannel then
      some (bs.drop offset.toNat)
    else none
  | _ => none

/-- A queue of the data path: at most `cap` packets, all different, each with an mbuf, and no mbuf
empty. -/
structure TxQueue (cap : ℕ) where
  pkts : List Packet
  length_le : pkts.length ≤ cap
  nodup : (pkts.map Packet.m0).Nodup
  chain_ne_nil : ∀ p ∈ pkts, p.chain ≠ []
  data_ne_nil : ∀ p ∈ pkts, ∀ m ∈ p.chain, m.data ≠ []

/-- What an mbuf needs in front of its data. -/
def headroom (m : Mbuf) : ℕ := sdpcmHdrlen + headPad m

/-- All mbufs of a packet have room for header and padding. -/
def Packet.HasRoom (p : Packet) : Prop := ∀ m ∈ p.chain, headroom m ≤ m.leadingSpace
deriving Decidable

def accepted (q : List Packet) : List Packet := q.filter Packet.HasRoom

def rejected (q : List Packet) : List Packet := q.filter fun p => ¬ p.HasRoom

def segments (q : List Packet) : List Mbuf := (accepted q).flatMap Packet.chain

def TxEvent.index? : TxEvent → Option ℕ
  | .addelem idx => some idx
  | _ => none

def TxEvent.freed? : TxEvent → Option ℕ
  | .freem m0 => some m0
  | _ => none

def TxEvent.transfers : TxEvent → List (List Byte)
  | .kick _ transfers => transfers
  | _ => []

/-- What one call owes the queue. -/
structure ChainSound (q : List Packet) (trace : List TxEvent) : Prop where
  /-- The host reads the segments of the packets with room, in queue order. -/
  sent : (trace.flatMap TxEvent.transfers).map unframe = (segments q).map fun m => some m.data
  /-- The elements are inside the array. -/
  index_lt : ∀ idx ∈ trace.filterMap TxEvent.index?, idx < sdvtMaxTxchainMaxsz
  /-- The count of a start is the number of elements added. -/
  cnt_eq : ∀ cnt transfers, .kick cnt transfers ∈ trace →
    cnt.toNat = (trace.filterMap TxEvent.index?).length
  /-- Every packet is freed once. -/
  freed : ∀ p ∈ q, (trace.filterMap TxEvent.freed?).count p.m0 = 1
  /-- A packet that is sent is freed after the transfer. -/
  freed_after : ∀ p ∈ accepted q, ∀ pre post, trace = pre ++ .freem p.m0 :: post →
    ∃ cnt transfers, .kick cnt transfers ∈ pre

/-- The condition: the segments fit the array, and each of them, with its header, a `u16`. -/
def ChainFits (q : List Packet) : Prop :=
  (segments q).length ≤ sdvtMaxTxchainMaxsz ∧
    ∀ m ∈ segments q, headroom m + m.data.length < 2 ^ 16

/-! ## One frame -/

def hdrBytes (len : BitVec 16) (word : BitVec 32) : List Byte :=
  leBytes16 len ++ leBytes16 (~~~len) ++ leBytes word

/-- An mbuf that carries another one's data behind a header and padding. -/
structure Framed (m m' : Mbuf) : Prop where
  data_eq : ∃ word pad, m'.data =
      hdrBytes (BitVec.ofNat 16 (headroom m + m.data.length)) word ++ pad ++ m.data ∧
    pad.length = headPad m ∧
    word.extractLsb' 16 8 &&& 0x0f = sdpcmDataChannel ∧
    (word.extractLsb' 24 8).toNat = headroom m

theorem headPad_lt (m : Mbuf) : headPad m < 4 := Nat.mod_lt _ (by decide)

/-- The channel and the offset in the word of a header. -/
theorem hdrval_fields {pad : ℕ} (hpad : pad < 4) :
    (hdrval sdpcmDataChannel pad).extractLsb' 16 8 &&& 0x0f = sdpcmDataChannel ∧
      ((hdrval sdpcmDataChannel pad).extractLsb' 24 8).toNat = sdpcmHdrlen + pad := by
  obtain rfl | rfl | rfl | rfl : pad = 0 ∨ pad = 1 ∨ pad = 2 ∨ pad = 3 := by omega
  all_goals decide

theorem extractLsb'_or_tlen (word tlen : BitVec 32) {k : ℕ}
    (hk : sdpcmTlenMask.extractLsb' k 8 = 0#8) :
    (word ||| (tlen &&& sdpcmTlenMask)).extractLsb' k 8 = word.extractLsb' k 8 := by
  rw [extractLsb'_or, extractLsb'_and, hk, and_zero, or_zero]

theorem leBytes16_append (x : BitVec 16) : x.extractLsb' 8 8 ++ x.extractLsb' 0 8 = x := by
  grind

variable {m m' : Mbuf} {chain frames chain' frames' segs : List Mbuf} {dropped sent : List ℕ}
  {evs trace : List TxEvent} {elems : TxElems}

/-- Room in front of the data: what lies there becomes part of it. -/
theorem prepend_of_room {n : ℕ} (h : n ≤ m.leadingSpace) :
    ∃ m' x, m.prepend n = some m' ∧ m'.data = x ++ m.data ∧ x.length = n := by
  refine ⟨_, _, if_pos h, rfl, ?_⟩
  rw [length_drop]
  rw [Mbuf.leadingSpace] at h ⊢
  omega

theorem sdioHdrPack_data {x y : List Byte} (hdata : m.data = x ++ y) (hx : x.length = 8)
    (len : BitVec 16) (type : Byte) (pad : ℕ) :
    (sdioHdrPack m len type pad).data = hdrBytes len (hdrval type pad) ++ y := by
  match x, hx with
  | [_, _, _, _, _, _, _, _], _ =>
    simp [sdioHdrPack, sdioUpdateHwhdr, Mbuf.write, splice, hdata, hdrBytes, leBytes16, leBytes,
      sdpcmHwhdrLen]

theorem framed_sdioHdrPack {x : List Byte} (hdata : m'.data = x ++ m.data)
    (hx : x.length = headroom m) :
    Framed m (sdioHdrPack m' (BitVec.ofNat 16 m'.data.length) sdpcmDataChannel (headPad m)) := by
  have htake : (x.take 8).length = 8 := by
    rw [length_take, hx, headroom, sdpcmHdrlen, sdpcmHwhdrLen, sdpcmSwhdrLen]
    omega
  have hdrop : (x.drop 8).length = headPad m := by
    rw [length_drop, hx]
    exact Nat.add_sub_cancel_left _ _
  rw [← take_append_drop 8 x, List.append_assoc] at hdata
  obtain ⟨hchannel, hoffset⟩ := hdrval_fields (headPad_lt m)
  refine ⟨hdrval sdpcmDataChannel (headPad m), x.drop 8, ?_, hdrop, hchannel, hoffset⟩
  rw [sdioHdrPack_data hdata htake, List.append_assoc]
  congr 2
  rw [hdata, length_append, length_append, htake, hdrop, headroom, ← Nat.add_assoc]
  rfl

/-- The total length leaves the rest of a header as it is. -/
theorem Framed.fillFirstfrag (h : Framed m m') (totallen : BitVec 16) :
    Framed m (sdioHdrFillFirstfrag m' totallen) := by
  obtain ⟨word, pad, hdata, hpad, hchannel, hoffset⟩ := h.data_eq
  set tlen := totallen.setWidth 32 <<< sdpcmTlenShift with htlen
  refine ⟨word ||| (tlen &&& sdpcmTlenMask), pad, ?_, hpad, ?_, ?_⟩
  · simp [sdioHdrFillFirstfrag, Mbuf.write, splice, hdata, hdrBytes, leBytes16, leBytes,
      sdpcmHwhdrLen, wordAt, leWord_extractLsb', ← htlen]
  · rwa [extractLsb'_or_tlen word tlen (by decide)]
  · rwa [extractLsb'_or_tlen word tlen (by decide)]

theorem Framed.length_data (h : Framed m m') : m'.data.length = headroom m + m.data.length := by
  obtain ⟨word, pad, hdata, hpad, -, -⟩ := h.data_eq
  rw [hdata, length_append, length_append, hpad]
  rfl

theorem Framed.data_ne_nil (h : Framed m m') : m'.data ≠ [] := by
  intro hnil
  have hlen := h.length_data
  rw [hnil, headroom, sdpcmHdrlen, sdpcmHwhdrLen, length_nil] at hlen
  omega

/-- What the host reads starts at the offset in the eighth byte. -/
theorem eq_drop_of_unframe {bs d : List Byte} (h : unframe bs = some d) :
    ∃ offset : Byte, bs[7]? = some offset ∧ d = bs.drop offset.toNat := by
  unfold unframe at h
  split at h
  case h_1 l₀ l₁ c₀ c₁ t₀ t₁ channel offset rest =>
    split at h
    · exact ⟨offset, rfl, (some_inj.mp h).symm⟩
    · cases h
  case h_2 => cases h

/-- The host's reading of a header that counts the transfer. -/
theorem unframe_hdrBytes {len : BitVec 16} {word : BitVec 32} {rest : List Byte}
    (hlen : len.toNat = (hdrBytes len word ++ rest).length)
    (hchannel : word.extractLsb' 16 8 &&& 0x0f = sdpcmDataChannel) :
    unframe (hdrBytes len word ++ rest) =
      some ((hdrBytes len word ++ rest).drop (word.extractLsb' 24 8).toNat) := by
  refine if_pos ⟨?_, ?_, hchannel⟩
  · rw [leBytes16_append]
    exact hlen
  · rw [leBytes16_append, leBytes16_append]

/-- **A frame reaches the host** off its element if and only if the element's length counts the
frame. -/
theorem Framed.unframe_iff (h : Framed m m') (hne : m.data ≠ []) :
    unframe (TxElem.ofMbuf m').bytes = some m.data ↔ headroom m + m.data.length < 2 ^ 16 := by
  obtain ⟨word, pad, hdata, hpad, hchannel, hoffset⟩ := h.data_eq
  have hbytes : (TxElem.ofMbuf m').bytes =
      m'.data.take ((headroom m + m.data.length) % 2 ^ 16) := by
    rw [TxElem.bytes, TxElem.ofMbuf, toNat_ofNat, h.length_data]
  rw [hbytes]
  constructor
  · intro hread
    by_contra hlong
    obtain ⟨offset, hget, hdrop⟩ := eq_drop_of_unframe hread
    have hoff : offset = word.extractLsb' 24 8 := by
      rw [getElem?_take] at hget
      split at hget
      · rw [hdata] at hget
        exact (some_inj.mp hget).symm
      · cases hget
    have hpos := length_pos_iff.mpr hne
    have hlen := congrArg List.length hdrop
    rw [hoff, hoffset, length_drop, length_take, h.length_data] at hlen
    omega
  · intro hfits
    rw [Nat.mod_eq_of_lt hfits, ← h.length_data, take_length]
    have hlen := h.length_data
    rw [hdata, List.append_assoc] at hlen ⊢
    rw [unframe_hdrBytes _ hchannel, hoffset, ← List.append_assoc]
    · -- The offset skips header and padding.
      rw [drop_left' (by rw [length_append, hpad]; rfl)]
    · rw [hlen, toNat_ofNat, Nat.mod_eq_of_lt hfits]

/-! ## One packet -/

theorem packLoop_of_room (hne : ∀ m ∈ chain, m.data ≠ [])
    (hroom : ∀ m ∈ chain, headroom m ≤ m.leadingSpace) :
    ∃ chain', packLoop chain = some chain' ∧ Forall₂ Framed chain chain' := by
  induction chain with
  | nil => exact ⟨[], rfl, .nil⟩
  | cons m chain ih =>
    rw [forall_mem_cons] at hne hroom
    obtain ⟨chain', hpack, hframed⟩ := ih hne.2 hroom.2
    obtain ⟨m', x, hprepend, hdata, hx⟩ := prepend_of_room hroom.1
    refine ⟨_ :: chain', ?_, .cons (framed_sdioHdrPack hdata hx) hframed⟩
    rw [packLoop, if_neg hne.1, show sdpcmHdrlen + headPad m = headroom m from rfl,
      if_neg (Nat.not_lt.mpr hroom.1), hprepend, hpack]
    rfl

theorem packLoop_of_not_room (hne : ∀ m ∈ chain, m.data ≠ [])
    (hroom : ¬ ∀ m ∈ chain, headroom m ≤ m.leadingSpace) : packLoop chain = none := by
  induction chain with
  | nil => exact absurd (forall_mem_nil _) hroom
  | cons m chain ih =>
    rw [forall_mem_cons] at hne hroom
    rw [packLoop, if_neg hne.1]
    split
    · rfl
    · rename_i hm
      rw [ih hne.2 fun hrest => hroom ⟨Nat.not_lt.mp hm, hrest⟩]
      cases m.prepend (sdpcmHdrlen + headPad m) <;> rfl

theorem fillFirst_framed (h : Forall₂ Framed chain chain') :
    Forall₂ Framed chain (fillFirst chain') := by
  cases h with
  | nil => exact .nil
  | cons hm hrest =>
    cases hrest with
    | nil => exact .cons hm .nil
    | cons hm' hrest => exact .cons (hm.fillFirstfrag _) (.cons hm' hrest)

/-! ## The walk -/

/-- **A part of the walk** has added the elements `frames`, listed the packets `sent` and freed the
packets `dropped`, and not started the chain. -/
structure Walked (frames : List Mbuf) (sent dropped : List ℕ) (w w' : Walk) : Prop where
  sendCnt : w'.sendCnt.toNat = w.sendCnt.toNat + frames.length
  elems : w'.elems.toList.take w'.sendCnt.toNat =
    w.elems.toList.take w.sendCnt.toNat ++ frames.map TxElem.ofMbuf
  freemList : w'.freemList = sent.reverse ++ w.freemList
  trace : ∃ evs, w'.trace = w.trace ++ evs ∧ (∀ cnt transfers, .kick cnt transfers ∉ evs) ∧
    evs.filterMap TxEvent.index? = range' w.sendCnt.toNat frames.length ∧
    evs.filterMap TxEvent.freed? = dropped

theorem Walked.refl (w : Walk) : Walked [] [] [] w w where
  sendCnt := rfl
  elems := (append_nil _).symm
  freemList := rfl
  trace := ⟨[], (append_nil _).symm, fun _ _ => not_mem_nil, rfl, rfl⟩

variable {w : Walk}

theorem Walked.trans {sent' dropped' : List ℕ} {w' w'' : Walk} (h : Walked frames sent dropped w w')
    (h' : Walked frames' sent' dropped' w' w'') :
    Walked (frames ++ frames') (sent ++ sent') (dropped ++ dropped') w w'' where
  sendCnt := by rw [h'.sendCnt, h.sendCnt, length_append, Nat.add_assoc]
  elems := by rw [h'.elems, h.elems, map_append, List.append_assoc]
  freemList := by rw [h'.freemList, h.freemList, List.reverse_append, List.append_assoc]
  trace := by
    obtain ⟨evs, htrace, hkick, hindex, hfreed⟩ := h.trace
    obtain ⟨evs', htrace', hkick', hindex', hfreed'⟩ := h'.trace
    refine ⟨evs ++ evs', ?_, fun cnt transfers hmem => ?_, ?_, ?_⟩
    · rw [htrace', htrace, List.append_assoc]
    · rcases mem_append.mp hmem with hmem | hmem
      · exact hkick cnt transfers hmem
      · exact hkick' cnt transfers hmem
    · rw [filterMap_append, hindex, hindex', h.sendCnt, length_append,
        range'_append_1]
    · rw [filterMap_append, hfreed, hfreed']

theorem Walked.drop (w : Walk) (m0 : ℕ) :
    Walked [] [] [m0] w { w with trace := w.trace ++ [.freem m0] } :=
  { Walked.refl w with trace := ⟨[.freem m0], rfl, fun _ _ => by simp, rfl, rfl⟩ }

theorem Walked.keep (w : Walk) (m0 : ℕ) :
    Walked [] [m0] [] w { w with freemList := m0 :: w.freemList } :=
  { Walked.refl w with freemList := rfl }

theorem take_succ_set (elems : TxElems) {i : ℕ} (h : i < sdvtMaxTxchainMaxsz) (e : TxElem) :
    (elems.set i e h).toList.take (i + 1) = elems.toList.take i ++ [e] := by
  have hlen : i < elems.toList.length := by rwa [Vector.length_toList]
  rw [Vector.toList_set, take_add_one, take_set_of_le (Nat.le_refl i),
    getElem?_set_self hlen]
  rfl

theorem toNat_succ {x : Byte} (h : x.toNat < sdvtMaxTxchainMaxsz) :
    (x + 1).toNat = x.toNat + 1 := by
  rw [sdvtMaxTxchainMaxsz] at h
  rw [toNat_add]
  show (x.toNat + 1) % 2 ^ 8 = x.toNat + 1
  omega

theorem Walked.add (w : Walk) (m : Mbuf) (h : w.sendCnt.toNat < sdvtMaxTxchainMaxsz) :
    Walked [m] [] [] w
      { w with
        elems := w.elems.set w.sendCnt.toNat (TxElem.ofMbuf m) h
        sendCnt := w.sendCnt + 1
        trace := w.trace ++ [.addelem w.sendCnt.toNat] } where
  sendCnt := toNat_succ h
  elems := by
    rw [toNat_succ h, take_succ_set]
    rfl
  freemList := rfl
  trace := ⟨[.addelem w.sendCnt.toNat], rfl, fun _ _ => by simp, rfl, rfl⟩

/-- The loop adds all frames, or leaves the array. -/
theorem addLoop_cases (hne : ∀ m ∈ frames, m.data ≠ [])
    (hle : w.sendCnt.toNat ≤ sdvtMaxTxchainMaxsz) :
    (w.sendCnt.toNat + frames.length ≤ sdvtMaxTxchainMaxsz ∧
      ∃ w', addLoop frames w = some w' ∧ Walked frames [] [] w w') ∨
    (sdvtMaxTxchainMaxsz < w.sendCnt.toNat + frames.length ∧ addLoop frames w = none) := by
  induction frames generalizing w with
  | nil => exact .inl ⟨hle, w, rfl, .refl w⟩
  | cons m frames ih =>
    rw [forall_mem_cons] at hne
    rw [length_cons, addLoop, if_neg hne.1, sdvtSdioTxchainAddelem]
    split
    · rename_i hlt
      have hadd := Walked.add w m hlt
      have hcnt := hadd.sendCnt
      rw [length_singleton] at hcnt
      rcases ih hne.2 (hcnt.trans_le hlt) with ⟨hfits, w', hw', hwalked⟩ | ⟨hgt, hnone⟩
      · exact .inl ⟨by omega, w', hw', hadd.trans hwalked⟩
      · exact .inr ⟨by omega, hnone⟩
    · exact .inr ⟨by omega, rfl⟩

/-! ## The queue -/

variable {p : Packet} {q : List Packet}

theorem accepted_cons (p : Packet) (q : List Packet) :
    accepted (p :: q) = if p.HasRoom then p :: accepted q else accepted q := by
  simp [accepted, filter_cons]

theorem rejected_cons (p : Packet) (q : List Packet) :
    rejected (p :: q) = if p.HasRoom then rejected q else p :: rejected q := by
  simp [rejected, filter_cons]

theorem segments_cons (p : Packet) (q : List Packet) :
    segments (p :: q) = if p.HasRoom then p.chain ++ segments q else segments q := by
  rw [segments, accepted_cons]
  split_ifs <;> rfl

theorem data_ne_nil_of_framed (h : Forall₂ Framed chain frames) :
    ∀ m' ∈ frames, m'.data ≠ [] := by
  induction h with
  | nil => exact forall_mem_nil _
  | cons hm _ ih => exact forall_mem_cons.mpr ⟨hm.data_ne_nil, ih⟩

/-- **The walk.** When the segments fit the array, it adds the frames of all, puts their packets on
the list and frees the others; otherwise it leaves the array. -/
theorem chainLoop_cases (hne : ∀ p ∈ q, ∀ m ∈ p.chain, m.data ≠ [])
    (hle : w.sendCnt.toNat ≤ sdvtMaxTxchainMaxsz) :
    (w.sendCnt.toNat + (segments q).length ≤ sdvtMaxTxchainMaxsz ∧
      ∃ w' frames, chainLoop q w = some w' ∧ Forall₂ Framed (segments q) frames ∧
        Walked frames ((accepted q).map Packet.m0) ((rejected q).map Packet.m0) w w') ∨
    (sdvtMaxTxchainMaxsz < w.sendCnt.toNat + (segments q).length ∧ chainLoop q w = none) := by
  induction q generalizing w with
  | nil => exact .inl ⟨hle, w, [], rfl, .nil, .refl w⟩
  | cons p q ih =>
    rw [forall_mem_cons] at hne
    by_cases hroom : p.HasRoom
    · simp only [segments_cons, accepted_cons, rejected_cons, if_pos hroom, length_append]
      obtain ⟨chain, hpack, hchain⟩ := packLoop_of_room hne.1 hroom
      have hframed := fillFirst_framed hchain
      have hlen := hframed.length_eq
      rw [chainLoop, hpack]
      rcases addLoop_cases (data_ne_nil_of_framed hframed) hle with
        ⟨hfits, w₁, hadd, hwalked₁⟩ | ⟨hgt, hnone⟩
      · have hcnt := hwalked₁.sendCnt
        have hkept := hwalked₁.trans (Walked.keep w₁ p.m0)
        simp only [hadd, bind_some]
        rcases ih (w := { w₁ with freemList := p.m0 :: w₁.freemList }) hne.2 (hcnt.trans_le hfits)
          with ⟨hrest, w', frames, hloop, hframes, hwalked⟩ | ⟨hgt, hnone⟩
        · simp only at hrest
          refine .inl ⟨by omega, w', _, hloop, rel_append hframed hframes, ?_⟩
          have h := hkept.trans hwalked
          rwa [append_nil] at h
        · simp only at hgt
          exact .inr ⟨by omega, hnone⟩
      · simp only [hnone, bind_none]
        exact .inr ⟨by omega, trivial⟩
    · simp only [segments_cons, accepted_cons, rejected_cons, if_neg hroom]
      rw [chainLoop, packLoop_of_not_room hne.1 hroom]
      have hdrop := Walked.drop w p.m0
      rcases ih (w := { w with trace := w.trace ++ [.freem p.m0] }) hne.2 hle with
        ⟨hrest, w', frames, hloop, hframes, hwalked⟩ | hfull
      · exact .inl ⟨hrest, w', frames, hloop, hframes, hdrop.trans hwalked⟩
      · exact .inr hfull

/-! ## The end of the call -/

theorem flatMap_transfers (h : ∀ cnt transfers, .kick cnt transfers ∉ evs)
    : evs.flatMap TxEvent.transfers = [] := by
  refine flatMap_eq_nil_iff.mpr fun e he => ?_
  cases e with
  | kick cnt transfers => exact absurd he (h cnt transfers)
  | _ => rfl

theorem freem_not_kick (l : List ℕ) (cnt : Byte) (transfers : List (List Byte)) :
    .kick cnt transfers ∉ l.map TxEvent.freem := by
  rw [List.mem_map]
  rintro ⟨_, -, h⟩
  cases h

theorem filterMap_index?_freem (l : List ℕ) :
    (l.map TxEvent.freem).filterMap TxEvent.index? = [] := by
  rw [filterMap_map]
  exact filterMap_eq_nil_iff.mpr fun _ _ => rfl

theorem filterMap_freed?_freem (l : List ℕ) :
    (l.map TxEvent.freem).filterMap TxEvent.freed? = l := by
  rw [filterMap_map]
  exact filterMap_some

def Walk.start (elems : TxElems) : Walk := ⟨elems, 0, [], [.acquireTx]⟩

/-- What the events of a call come to. -/
structure Finished (frames : List Mbuf) (sent dropped : List ℕ) (trace : List TxEvent) : Prop where
  transfers : trace.flatMap TxEvent.transfers = frames.map fun m => (TxElem.ofMbuf m).bytes
  index : trace.filterMap TxEvent.index? = range' 0 frames.length
  kick : ∀ cnt transfers, .kick cnt transfers ∈ trace → cnt.toNat = frames.length
  freed : trace.filterMap TxEvent.freed? = dropped ++ sent.reverse
  freed_after : ∀ m0 ∈ sent, m0 ∉ dropped → ∀ pre post, trace = pre ++ .freem m0 :: post →
    ∃ cnt transfers, .kick cnt transfers ∈ pre

theorem kick_not_mem_acquire (h : ∀ cnt transfers, .kick cnt transfers ∉ evs) (cnt : Byte)
    (transfers : List (List Byte)) :
    .kick cnt transfers ∉ .acquireTx :: evs := by
  rintro (_ | ⟨_, hmem⟩)
  exact h cnt transfers hmem

theorem mem_of_append_eq {α : Type*} {x y : α} {a b pre post : List α}
    (h : pre ++ x :: post = a ++ y :: b) (ha : x ∉ a) (hne : x ≠ y) : y ∈ pre := by
  rcases append_eq_append_iff.mp h with ⟨c, hc, hrest⟩ | ⟨c, hc, hrest⟩
  · cases c with
    | nil => exact absurd (cons.inj hrest).1 hne
    | cons z c =>
      obtain ⟨rfl, -⟩ := cons.inj hrest
      exact absurd (hc ▸ mem_append_right _ mem_cons_self) ha
  cases c with
  | nil => exact absurd (cons.inj hrest).1.symm hne
  | cons z c =>
    obtain ⟨rfl, -⟩ := cons.inj hrest
    exact hc ▸ mem_append_right _ mem_cons_self

/-- **The chain is started.** The end of the call transfers the elements and frees the packets on
the list. -/
theorem finished_of_frames (h : Walked frames sent dropped (Walk.start elems) w) (hne : frames ≠ [])
    :
    Finished frames sent dropped (finish w) := by
  obtain ⟨evs, htrace, hevs, hindex, hfreed⟩ := h.trace
  have hkick := kick_not_mem_acquire hevs
  have hcnt : w.sendCnt.toNat = frames.length := h.sendCnt.trans (Nat.zero_add _)
  have hzero : w.sendCnt ≠ 0 := by
    intro hzero
    rw [hzero] at hcnt
    exact hne (length_eq_zero_iff.mp hcnt.symm)
  have hsent : sdvtSdioTxchainKick w.elems w.sendCnt =
      frames.map fun m => (TxElem.ofMbuf m).bytes := by
    rw [sdvtSdioTxchainKick, h.elems]
    exact map_map
  have hfinish : finish w = (.acquireTx :: evs) ++
      .kick w.sendCnt (frames.map fun m => (TxElem.ofMbuf m).bytes) ::
        sent.reverse.map TxEvent.freem := by
    rw [finish, if_pos hzero, hsent, htrace, h.freemList, Walk.start, append_nil]
    rfl
  rw [hfinish]
  refine ⟨?_, ?_, fun cnt transfers hmem => ?_, ?_, fun m0 hm0 hdropped pre post heq => ?_⟩
  · rw [flatMap_append, flatMap_transfers hkick, flatMap_cons,
      flatMap_transfers (freem_not_kick _)]
    exact append_nil _
  · rw [filterMap_append, filterMap_cons_none rfl, filterMap_cons_none rfl, hindex,
      filterMap_index?_freem, append_nil]
    rfl
  · rcases mem_append.mp hmem with hmem | hmem
    · exact absurd hmem (hkick cnt transfers)
    · rcases mem_cons.mp hmem with heq | hmem
      · cases heq
        exact hcnt
      · exact absurd hmem (freem_not_kick _ cnt transfers)
  · rw [filterMap_append, filterMap_cons_none rfl, filterMap_cons_none rfl, hfreed,
      filterMap_freed?_freem]
  · refine ⟨_, _, mem_of_append_eq heq.symm ?_ nofun⟩
    rintro (_ | ⟨_, hmem⟩)
    refine hdropped (hfreed ▸ ?_)
    exact mem_filterMap.mpr ⟨.freem m0, hmem, rfl⟩

theorem finished_of_nil (h : Walked [] [] dropped (Walk.start elems) w) :
    Finished [] [] dropped (finish w) := by
  obtain ⟨evs, htrace, hevs, hindex, hfreed⟩ := h.trace
  have hkick := kick_not_mem_acquire hevs
  have hzero : w.sendCnt = 0 := eq_of_toNat_eq h.sendCnt
  have hfinish : finish w = (.acquireTx :: evs) ++ [.releaseTx] := by
    rw [finish, if_neg (not_not_intro hzero), htrace]
    rfl
  rw [hfinish]
  refine ⟨?_, ?_, fun cnt transfers hmem => ?_, ?_, fun m0 hm0 => absurd hm0 not_mem_nil⟩
  · rw [flatMap_append, flatMap_transfers hkick]
    rfl
  · rw [filterMap_append, filterMap_cons_none rfl, hindex]
    rfl
  · rcases mem_append.mp hmem with hmem | hmem
    · exact absurd hmem (hkick cnt transfers)
    · cases mem_singleton.mp hmem
  · rw [filterMap_append, filterMap_cons_none rfl, hfreed]
    rfl

/-! ## The whole call -/

theorem reads_iff (h : Forall₂ Framed segs frames) (hne : ∀ m ∈ segs, m.data ≠ []) :
    (frames.map fun m => (TxElem.ofMbuf m).bytes).map unframe = (segs.map fun m => some m.data) ↔
      ∀ m ∈ segs, headroom m + m.data.length < 2 ^ 16 := by
  induction h with
  | nil => exact iff_of_true rfl (forall_mem_nil _)
  | cons hm _ ih =>
    rw [forall_mem_cons] at hne
    rw [map_cons, map_cons, map_cons, List.cons.injEq, hm.unframe_iff hne.1,
      ih hne.2, forall_mem_cons]

theorem rejected_append_accepted_perm (q : List Packet) :
    ((rejected q).map Packet.m0 ++ ((accepted q).map Packet.m0).reverse).Perm
      (q.map Packet.m0) := by
  rw [← map_reverse, ← map_append]
  refine Perm.map _ ?_
  refine ((reverse_perm _).append_left _).trans (perm_append_comm.trans ?_)
  have h := filter_append_perm (fun p : Packet => decide p.HasRoom) q
  simp only [← decide_not] at h
  exact h

theorem mem_of_mem_segments (h : m ∈ segments q) : ∃ p ∈ q, m ∈ p.chain := by
  obtain ⟨p, hp, hm⟩ := mem_flatMap.mp h
  exact ⟨p, (mem_filter.mp hp).1, hm⟩

section Call

variable {cap : ℕ} (q : TxQueue cap)

theorem TxQueue.segments_ne_nil (m : Mbuf) (h : m ∈ segments q.pkts) : m.data ≠ [] := by
  obtain ⟨p, hp, hm⟩ := mem_of_mem_segments h
  exact q.data_ne_nil p hp m hm

/-- A packet that is sent has a segment. -/
theorem TxQueue.accepted_eq_nil (h : segments q.pkts = []) : accepted q.pkts = [] := by
  refine eq_nil_iff_forall_not_mem.mpr fun p hp => ?_
  exact q.chain_ne_nil p (mem_filter.mp hp).1 (flatMap_eq_nil_iff.mp h p hp)

theorem TxQueue.not_mem_rejected (hp : p ∈ accepted q.pkts) :
    p.m0 ∉ (rejected q.pkts).map Packet.m0 := by
  have hnodup := (rejected_append_accepted_perm q.pkts).nodup_iff.mpr q.nodup
  intro hmem
  refine disjoint_of_nodup_append hnodup hmem ?_
  exact mem_reverse.mpr (mem_map_of_mem hp)

theorem TxQueue.chainwrite_cases (elems : TxElems) :
    ((segments q.pkts).length ≤ sdvtMaxTxchainMaxsz ∧
      ∃ elems' trace frames, sdioVendorChainwrite elems q.pkts = some (elems', trace) ∧
        Forall₂ Framed (segments q.pkts) frames ∧
        Finished frames ((accepted q.pkts).map Packet.m0) ((rejected q.pkts).map Packet.m0)
          trace) ∨
    (sdvtMaxTxchainMaxsz < (segments q.pkts).length ∧
      sdioVendorChainwrite elems q.pkts = none) := by
  have hcall : sdioVendorChainwrite elems q.pkts = (chainLoop q.pkts (Walk.start elems)).map
    fun w => (w.elems, finish w) := rfl
  have hcases := chainLoop_cases (w := Walk.start elems) q.data_ne_nil (Nat.zero_le _)
  rw [show (Walk.start elems).sendCnt.toNat = 0 from rfl, Nat.zero_add] at hcases
  rcases hcases with ⟨hle, w, frames, hloop, hframed, hwalked⟩ | ⟨hgt, hnone⟩
  · refine .inl ⟨hle, w.elems, finish w, frames, by rw [hcall, hloop, map_some], hframed, ?_⟩
    by_cases hframes : frames = []
    · subst hframes
      rw [q.accepted_eq_nil (forall₂_nil_right_iff.mp hframed)] at hwalked ⊢
      exact finished_of_nil hwalked
    · exact finished_of_frames hwalked hframes
  · exact .inr ⟨hgt, by rw [hcall, hnone, map_none]⟩

theorem TxQueue.chainSound_iff (hle : (segments q.pkts).length ≤ sdvtMaxTxchainMaxsz)
    (hframed : Forall₂ Framed (segments q.pkts) frames)
    (h : Finished frames ((accepted q.pkts).map Packet.m0) ((rejected q.pkts).map Packet.m0)
      trace) :
    ChainSound q.pkts trace ↔ ∀ m ∈ segments q.pkts, headroom m + m.data.length < 2 ^ 16 := by
  rw [← reads_iff hframed q.segments_ne_nil, ← h.transfers]
  refine ⟨ChainSound.sent, fun hsent => ⟨hsent, ?_, ?_, ?_, ?_⟩⟩
  · intro idx hidx
    rw [h.index, mem_range'_1, ← hframed.length_eq] at hidx
    omega
  · intro cnt transfers hmem
    rw [h.index, length_range', h.kick cnt transfers hmem]
  · intro p hp
    rw [h.freed, (rejected_append_accepted_perm q.pkts).count_eq]
    exact count_eq_one_of_mem q.nodup (mem_map_of_mem hp)
  · intro p hp pre post heq
    exact h.freed_after p.m0 (mem_map_of_mem hp) (q.not_mem_rejected hp) pre post heq

/-- **The transmit chain.** For any queue of at most `cap` packets and any chain left behind, a call
sends the segments of the packets with room, in order and with a header each, stays inside the
array, starts the chain with the number of elements added and frees every packet once, after the
transfer if it was sent, if and only if there are at most 64 such segments, each less than 64 KiB
long with its header. -/
theorem chainwrite_sound_iff (elems : TxElems) :
    (∃ elems' trace, sdioVendorChainwrite elems q.pkts = some (elems', trace) ∧
        ChainSound q.pkts trace) ↔ ChainFits q.pkts := by
  rcases q.chainwrite_cases elems with
    ⟨hle, elems', trace, frames, hcall, hframed, hfinished⟩ | ⟨hgt, hnone⟩
  · rw [hcall, ChainFits, ← q.chainSound_iff hle hframed hfinished]
    constructor
    · rintro ⟨elems'', trace', heq, hsound⟩
      cases heq
      exact ⟨hle, hsound⟩
    · rintro ⟨-, hsound⟩
      exact ⟨elems', trace, rfl, hsound⟩
  · rw [hnone]
    refine iff_of_false ?_ fun hfits => Nat.not_le.mpr hgt hfits.1
    rintro ⟨elems', trace, hcall, -⟩
    cases hcall

end Call

def shortSegment : Mbuf := ⟨4096, replicate 8 0, [0x45]⟩

def pairsQueue : TxQueue 64 where
  pkts := (range 33).map fun i => ⟨i, [shortSegment, shortSegment]⟩
  length_le := by decide
  nodup := by decide
  chain_ne_nil := by decide
  data_ne_nil := by decide

/-- A queue of 33 packets takes the walk out of the array: the 65th element is written behind it. -/
theorem chain_leaves_array :
    (∀ p ∈ pairsQueue.pkts, p.HasRoom) ∧ (segments pairsQueue.pkts).length = 66 ∧
      sdioVendorChainwrite (Vector.replicate 64 ⟨0, [], 0⟩) pairsQueue.pkts = none := by
  decide +kernel

end WiseSdk.Sdio
