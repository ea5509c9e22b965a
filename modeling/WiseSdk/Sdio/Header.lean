import WiseSdk.Scdc.RxCallback
import WiseSdk.Sdio.ChainWrite

/-!
# The SDPCM header, packed and parsed

`sdio_hdr_pack` writes the header of a frame and `sdio_hdparse` reads one. The length stands next to
its complement, and the word behind them has the channel and the offset of the data.

The parser rejects a frame that is shorter than its header, whose data would start behind its end,
or that is longer than the transfer, so a header comes back exactly when its length covers header
and padding and fits the transfer.
-/

namespace WiseSdk.Sdio

open Library Scdc BitVec
open ScdcRx (SdpcmHeader HdrError sdioHdparse)

/-! ## Reading the bytes -/

def le16At (bs : List Byte) (o : ℕ) : BitVec 16 := bs.getD (o + 1) 0 ++ bs.getD o 0

def le32At (bs : List Byte) (o : ℕ) : BitVec 32 :=
  leWord (bs.getD o 0) (bs.getD (o + 1) 0) (bs.getD (o + 2) 0) (bs.getD (o + 3) 0)

/-- The header at the start of a transfer. -/
def sdpcmHeaderAt (bs : List Byte) : SdpcmHeader := ⟨le16At bs 0, le16At bs 2, le32At bs 4⟩

theorem sdpcmHeaderAt_append (len checksum : BitVec 16) (word : BitVec 32) (rest : List Byte) :
    sdpcmHeaderAt (leBytes16 len ++ leBytes16 checksum ++ leBytes word ++ rest) =
      ⟨len, checksum, word⟩ := by
  simp [sdpcmHeaderAt, le16At, le32At, leBytes16, leBytes, leBytes16_append, leWord_extractLsb']

/-! ## The fields of the word -/

theorem hdrval_and_channelMask (type : Byte) (pad : ℕ) :
    hdrval type pad &&& sdpcmChannelMask =
      type.setWidth 32 <<< sdpcmChannelShift &&& sdpcmChannelMask := by
  have hdisjoint : sdpcmDoffsetMask &&& sdpcmChannelMask = 0#32 := by decide
  rw [hdrval, and_or_distrib_right, BitVec.and_assoc, BitVec.and_self, BitVec.and_assoc,
    hdisjoint, and_zero, or_zero]

theorem hdrval_and_doffsetMask (type : Byte) (pad : ℕ) :
    hdrval type pad &&& sdpcmDoffsetMask =
      BitVec.ofNat 32 (sdpcmHdrlen + pad) <<< sdpcmDoffsetShift &&& sdpcmDoffsetMask := by
  have hdisjoint : sdpcmChannelMask &&& sdpcmDoffsetMask = 0#32 := by decide
  rw [hdrval, and_or_distrib_right, BitVec.and_assoc, hdisjoint, and_zero,
    zero_or, BitVec.and_assoc, BitVec.and_self]

/-- A number shifted into a field of the word and taken out again. -/
theorem toNat_field {n s w : ℕ} {mask : BitVec 32} (hmask : (mask >>> s).toNat = 2 ^ w - 1)
    (hfits : w + s ≤ 32) (hn : n < 2 ^ w) :
    ((BitVec.ofNat 32 n <<< s &&& mask) >>> s).toNat = n := by
  have hshifted : n * 2 ^ s < 2 ^ 32 := by
    calc n * 2 ^ s < 2 ^ w * 2 ^ s := Nat.mul_lt_mul_of_pos_right hn (Nat.two_pow_pos s)
      _ = 2 ^ (w + s) := (Nat.pow_add 2 w s).symm
      _ ≤ 2 ^ 32 := Nat.pow_le_pow_right (by decide) hfits
  have hword : n < 2 ^ 32 := Nat.lt_of_le_of_lt (Nat.le_mul_of_pos_right n (Nat.two_pow_pos s))
    hshifted
  rw [ushiftRight_and_distrib, toNat_and, hmask, Nat.and_two_pow_sub_one_eq_mod,
    toNat_ushiftRight, toNat_shiftLeft, toNat_ofNat,
    Nat.mod_eq_of_lt hword, Nat.shiftLeft_eq, Nat.mod_eq_of_lt hshifted,
    Nat.shiftRight_eq_div_pow, Nat.mul_div_cancel n (Nat.two_pow_pos s), Nat.mod_eq_of_lt hn]

theorem channel_hdrval {type : Byte} (htype : type.toNat < 16) (pad : ℕ) :
    ((hdrval type pad &&& sdpcmChannelMask) >>> sdpcmChannelShift).toNat = type.toNat := by
  have hmask : (sdpcmChannelMask >>> sdpcmChannelShift).toNat = 2 ^ 4 - 1 := by decide
  have hwidth : type.setWidth 32 = BitVec.ofNat 32 type.toNat :=
    eq_of_toNat_eq (by rw [toNat_setWidth, toNat_ofNat])
  rw [hdrval_and_channelMask, hwidth, toNat_field hmask (by decide) htype]

theorem doffset_hdrval (type : Byte) {pad : ℕ} (hpad : sdpcmHdrlen + pad < 256) :
    ((hdrval type pad &&& sdpcmDoffsetMask) >>> sdpcmDoffsetShift).toNat = sdpcmHdrlen + pad := by
  have hmask : (sdpcmDoffsetMask >>> sdpcmDoffsetShift).toNat = 2 ^ 8 - 1 := by decide
  rw [hdrval_and_doffsetMask, toNat_field hmask (by decide) hpad]

/-! ## The checks of the parser -/

theorem or_not_self_ne_zero (x : BitVec 16) : x ||| ~~~x ≠ 0#16 := by
  intro h
  have hbit := congrArg (fun v => v.getLsbD 0) h
  simp at hbit

/-- The checksum test accepts exactly the complement. -/
theorem checksum_ok_iff (len x : BitVec 16) : ~~~(len ^^^ ~~~x) = 0#16 ↔ len = x := by
  rw [not_xor_right, BitVec.not_not, BitVec.xor_eq_zero_iff]

theorem sdioHdparse_mismatch (hdrLen : ℕ) {len x : BitVec 16} (word : BitVec 32) (h : len ≠ x) :
    ∃ e, sdioHdparse hdrLen ⟨len, ~~~x, word⟩ = .error e := by
  have hsum : ~~~(len ^^^ ~~~x) ≠ 0#16 := fun hz => h ((checksum_ok_iff len x).mp hz)
  rw [sdioHdparse]
  simp only
  split_ifs
  · exact ⟨_, rfl⟩
  · exact ⟨_, rfl⟩
  · exact ⟨_, rfl⟩

theorem sdioHdparse_packed (hdrLen : ℕ) (len : BitVec 16) {type : Byte} {pad : ℕ}
    (htype : type.toNat < 16) (hpad : sdpcmHdrlen + pad < 256) :
    (sdpcmHdrlen + pad ≤ len.toNat ∧ len.toNat ≤ hdrLen →
      sdioHdparse hdrLen ⟨len, ~~~len, hdrval type pad⟩ =
        .ok (type.toNat, sdpcmHdrlen + pad, len.toNat)) ∧
    (¬(sdpcmHdrlen + pad ≤ len.toNat ∧ len.toNat ≤ hdrLen) →
      ∃ e, sdioHdparse hdrLen ⟨len, ~~~len, hdrval type pad⟩ = .error e) := by
  have hchannel : ((hdrval type pad &&& 0x000f0000#32) >>> 16).toNat = type.toNat :=
    channel_hdrval htype pad
  have hoffset : ((hdrval type pad &&& 0xff000000#32) >>> 24).toNat = sdpcmHdrlen + pad :=
    doffset_hdrval type hpad
  have hsum : ¬~~~(len ^^^ ~~~len) ≠ 0#16 := not_not_intro ((checksum_ok_iff len len).mpr rfl)
  have height : sdpcmHdrlen = 8 := rfl
  rw [sdioHdparse]
  simp only [hchannel, hoffset, if_neg (or_not_self_ne_zero len), if_neg hsum]
  refine ⟨fun h => ?_, fun h => ?_⟩
  · rw [if_neg (by omega), if_neg (by omega), if_neg (by omega), if_neg (by omega)]
  · split_ifs
    · exact ⟨_, rfl⟩
    · exact ⟨_, rfl⟩
    · exact ⟨_, rfl⟩
    · exact ⟨_, rfl⟩
    · omega

/-! ## The round trip -/

section RoundTrip

variable {m : Mbuf} {type : Byte} {pad : ℕ}

theorem sdioHdrPack_bytes (hroom : sdpcmHdrlen ≤ m.data.length) (len : BitVec 16) (type : Byte)
    (pad : ℕ) :
    (sdioHdrPack m len type pad).data =
      leBytes16 len ++ leBytes16 (~~~len) ++ leBytes (hdrval type pad) ++
        m.data.drop sdpcmHdrlen := by
  have hsplit : m.data = m.data.take sdpcmHdrlen ++ m.data.drop sdpcmHdrlen :=
    (List.take_append_drop _ _).symm
  exact sdioHdrPack_data hsplit (by rw [List.length_take]; exact Nat.min_eq_left hroom) len type pad

/-- **The header round trip.** For a channel of four bits and an offset that fits a byte, the parser
gives back length, channel and offset if the length covers header and padding and fits the transfer,
and rejects the header otherwise, and any other length written over the packed one. -/
theorem hdr_round_trip (hroom : sdpcmHdrlen ≤ m.data.length) (htype : type.toNat < 16)
    (hpad : sdpcmHdrlen + pad < 256) (len : BitVec 16) (hdrLen : ℕ) :
    (sdpcmHdrlen + pad ≤ len.toNat ∧ len.toNat ≤ hdrLen →
      sdioHdparse hdrLen (sdpcmHeaderAt (sdioHdrPack m len type pad).data) =
        .ok (type.toNat, sdpcmHdrlen + pad, len.toNat)) ∧
    (¬(sdpcmHdrlen + pad ≤ len.toNat ∧ len.toNat ≤ hdrLen) →
      ∃ e, sdioHdparse hdrLen (sdpcmHeaderAt (sdioHdrPack m len type pad).data) = .error e) ∧
    ∀ len' ≠ len, ∃ e, sdioHdparse hdrLen (sdpcmHeaderAt
      ((sdioHdrPack m len type pad).write 0 (leBytes16 len')).data) = .error e := by
  have hbytes := sdioHdrPack_bytes hroom len type pad
  have hparse := sdioHdparse_packed hdrLen len htype hpad
  have hhdr : sdpcmHeaderAt (sdioHdrPack m len type pad).data =
      ⟨len, ~~~len, hdrval type pad⟩ := by
    rw [hbytes, sdpcmHeaderAt_append]
  refine ⟨?_, ?_, fun len' hne => ?_⟩
  · rw [hhdr]
    exact hparse.1
  · rw [hhdr]
    exact hparse.2
  · have hover : ((sdioHdrPack m len type pad).write 0 (leBytes16 len')).data =
        leBytes16 len' ++ leBytes16 (~~~len) ++ leBytes (hdrval type pad) ++
          m.data.drop sdpcmHdrlen := by
      rw [Mbuf.write, hbytes]
      simp [splice, leBytes16]
    rw [hover, sdpcmHeaderAt_append]
    exact sdioHdparse_mismatch hdrLen _ hne

end RoundTrip

/-- A frame of 20 bytes on the event channel, with three bytes of padding. -/
theorem hdr_round_trip_event :
    let m : Mbuf := ⟨0, [], List.replicate 20 0⟩
    sdioHdparse 20 (sdpcmHeaderAt (sdioHdrPack m 20 1 3).data) = .ok (1, 11, 20) := by
  intro m
  exact (hdr_round_trip (by decide) (by decide) (by decide) 20 20).1 (by decide)

/-- **A length packed and not parsed**: 10 bytes with three of padding are shorter than header and
padding. -/
theorem short_length_rejected :
    let m : Mbuf := ⟨0, [], List.replicate 20 0⟩
    sdioHdparse 20 (sdpcmHeaderAt (sdioHdrPack m 10 2 3).data) = .error .eoverflow := by
  decide

end WiseSdk.Sdio
