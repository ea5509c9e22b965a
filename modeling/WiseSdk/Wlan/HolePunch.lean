import Mathlib.Algebra.BigOperators.Group.List.Basic
import Mathlib.Data.Nat.Bitwise
import Mathlib.Tactic.Common

/-!
# The checksums of the hole-punch packets

While the system sleeps, the watcher sends a stored TCP or UDP header without data, so that the
router keeps its entry.  `scm2020_ps_update_tcp_hole` and `scm2020_ps_make_udp_hole` of
`scm2020-pm.c` compute the checksum of such a header.  The words are summed as the little-endian
target reads them, and the sum comes out in that order; yet it is swapped before it is stored.  Both
orders agree for the sums that are multiples of `257`.

Both lengths are even, which leaves out the odd byte in `tcpudp_pseudo_hdr_checksum`; the MAC header
and the transmission are left out as well.
-/

namespace WiseSdk.Wlan

open List

/-- `TCPUDP_CHKSUM_SWAP_BYTES`. -/
def swapBytes (w : BitVec 16) : BitVec 16 := (w &&& 0xff) <<< 8 ||| (w &&& 0xff00) >>> 8

def lwipHtonl (x : BitVec 32) : BitVec 32 :=
  x.extractLsb' 0 8 ++ x.extractLsb' 8 8 ++ x.extractLsb' 16 8 ++ x.extractLsb' 24 8

def halves (x : BitVec 32) : List (BitVec 16) := [x.extractLsb' 0 16, x.extractLsb' 16 16]

structure TcpHdr where
  (src dest : BitVec 16)
  (seqno ackno : BitVec 32)
  (hdrlenRsvdFlags wnd chksum urgp : BitVec 16)

structure UdpHdr where
  (src dest len chksum : BitVec 16)

/-- The addresses of the stored IP header, and the transport header. -/
structure Hole (Hdr : Type) where
  (src dest : BitVec 32)
  hdr : Hdr

/-- `struct tcpudp_pseudo_hdr`: a zero byte before the protocol, and one before the length. -/
def pseudoHdr {Hdr : Type} (hole : Hole Hdr) (protocol length : BitVec 8) : List (BitVec 16) :=
  halves hole.src ++ halves hole.dest ++ [protocol ++ 0#8, length ++ 0#8]

/-- The words under the checksum of a TCP header of 20 bytes. -/
def tcpWords (hole : Hole TcpHdr) : List (BitVec 16) :=
  let h := hole.hdr
  pseudoHdr hole 6 20 ++ ([h.src, h.dest] ++ halves h.seqno ++ halves h.ackno ++
    [h.hdrlenRsvdFlags, h.wnd, h.chksum, h.urgp])

/-- The words under the checksum of a UDP header of 8 bytes. -/
def udpWords (hole : Hole UdpHdr) : List (BitVec 16) :=
  pseudoHdr hole 17 8 ++ [hole.hdr.src, hole.hdr.dest, hole.hdr.len, hole.hdr.chksum]

def wordSum (ws : List (BitVec 16)) : ℕ := (ws.map BitVec.toNat).sum

/-- `tcpudp_pseudo_hdr_checksum`. -/
def pseudoHdrChecksum (ws : List (BitVec 16)) : BitVec 16 :=
  let sum := wordSum ws
  let sum := (sum >>> 16) + sum % 0x10000
  let sum := sum + (sum >>> 16)
  ~~~BitVec.ofNat 16 sum

/-- The sequence number moves behind the payload, and the checksum is cleared. -/
def advance (hole : Hole TcpHdr) (payloadLen : BitVec 16) : Hole TcpHdr :=
  { hole with hdr := { hole.hdr with
      seqno := lwipHtonl (lwipHtonl hole.hdr.seqno + payloadLen.setWidth 32), chksum := 0 } }

/-- `scm2020_ps_update_tcp_hole`, with `pkt->len`; `none` where it computes no checksum. -/
def updateTcpHole (pktLen : ℕ) (hole : Hole TcpHdr) (destip : BitVec 32) (srcport : BitVec 16)
    (mLen : ℤ) (hdrLen : ℕ) : Option (Hole TcpHdr) :=
  let payloadLen := BitVec.ofInt 16 (mLen - (14 + hdrLen))
  let next := advance hole payloadLen
  if pktLen ≠ 0 ∧ hole.dest = destip ∧ hole.hdr.src = srcport ∧ payloadLen ≠ 0 then
    some { next with hdr := { next.hdr with
      chksum := swapBytes (pseudoHdrChecksum (tcpWords next)) } }
  else none

def withoutData (hole : Hole UdpHdr) : Hole UdpHdr :=
  { hole with hdr := { hole.hdr with len := swapBytes 8, chksum := 0 } }

/-- `scm2020_ps_make_udp_hole` behind the copy of the headers: the length is compared as stored. -/
def makeUdpHole (hole : Hole UdpHdr) : Option (Hole UdpHdr) :=
  let next := withoutData hole
  if 8 < hole.hdr.len.toNat then
    some { next with hdr := { next.hdr with
      chksum := swapBytes (pseudoHdrChecksum (udpWords next)) } }
  else none

/-! ## One's complement -/

/-- Addition with the carry brought around. -/
def onesAdd (a b : ℕ) : ℕ := if a + b < 0x10000 then a + b else a + b - 0xffff

def onesSum (ws : List (BitVec 16)) : ℕ := (ws.map BitVec.toNat).foldl onesAdd 0

def folded (n : ℕ) : ℕ := if n = 0 then 0 else (n - 1) % 0xffff + 1

theorem onesAdd_folded (n : ℕ) (w : BitVec 16) :
    onesAdd (folded n) w.toNat = folded (n + w.toNat) := by
  unfold onesAdd folded
  split_ifs <;> omega

theorem onesSum_eq (ws : List (BitVec 16)) : onesSum ws = folded (wordSum ws) := by
  suffices h : ∀ n, (ws.map BitVec.toNat).foldl onesAdd (folded n) = folded (n + wordSum ws) by
    have := h 0
    rwa [Nat.zero_add] at this
  induction ws with
  | nil => exact fun n => rfl
  | cons w ws ih =>
    intro n
    rw [map_cons, foldl_cons, onesAdd_folded, ih, wordSum, wordSum, map_cons, sum_cons,
      Nat.add_assoc]

theorem wordSum_le (ws : List (BitVec 16)) : wordSum ws ≤ ws.length * 0xffff := by
  induction ws with
  | nil => exact Nat.zero_le _
  | cons w ws ih =>
    rw [wordSum, map_cons, sum_cons, length_cons, ← wordSum]
    omega

theorem folded_mul_add (k : ℕ) {r : ℕ} (hpos : 0 < r) (hle : r ≤ 0xffff) :
    folded (0xffff * k + r) = r := by
  rw [folded, if_neg (by omega), Nat.add_sub_assoc hpos, Nat.mul_add_mod,
    Nat.mod_eq_of_lt (by omega)]
  omega

theorem toNat_pseudoHdrChecksum {ws : List (BitVec 16)} (h : ws.length ≤ 16)
    (hpos : wordSum ws ≠ 0) : (pseudoHdrChecksum ws).toNat = 0xffff - folded (wordSum ws) := by
  have hle := wordSum_le ws
  have hdiv := Nat.div_add_mod (wordSum ws) 0x10000
  have hmod := Nat.mod_lt (wordSum ws) (y := 0x10000) (by decide)
  simp only [pseudoHdrChecksum, BitVec.toNat_not, BitVec.toNat_ofNat, Nat.shiftRight_eq_div_pow]
  generalize wordSum ws / 0x10000 = q, wordSum ws % 0x10000 = r at *
  -- the first fold carries into the seventeenth bit, or it does not
  rcases Nat.lt_or_ge (q + r) 0x10000 with hlt | hge
  · rw [Nat.div_eq_of_lt hlt, show wordSum ws = 0xffff * q + (q + r) by omega,
      folded_mul_add q (by omega) (by omega)]
    omega
  · have hcarry : (q + r) / 2 ^ 16 = 1 := by omega
    rw [hcarry, show wordSum ws = 0xffff * (q + 1) + (q + r - 0xffff) by omega,
      folded_mul_add _ (by omega) (by omega)]
    omega

theorem toNat_swapBytes (w : BitVec 16) :
    (swapBytes w).toNat = 256 * (w.toNat % 256) + w.toNat / 256 := by
  have hlow : (w &&& 0xff).toNat = w.toNat % 256 := Nat.and_two_pow_sub_one_eq_mod _ 8
  have hhigh : (w >>> 8 &&& (0xff00 : BitVec 16) >>> 8).toNat = w.toNat / 256 := by
    refine (Nat.and_two_pow_sub_one_eq_mod (w >>> 8).toNat 8).trans ?_
    rw [BitVec.toNat_ushiftRight, Nat.shiftRight_eq_div_pow]
    exact Nat.mod_eq_of_lt (by omega)
  rw [swapBytes, BitVec.ushiftRight_and_distrib, BitVec.toNat_or, hhigh, BitVec.toNat_shiftLeft,
    hlow, Nat.mod_eq_of_lt (by rw [Nat.shiftLeft_eq]; omega),
    ← Nat.shiftLeft_add_eq_or_of_lt (by omega), Nat.shiftLeft_eq]
  omega

theorem onesSum_swapped_iff {us ws : List (BitVec 16)} (h : us.length ≤ 16) (hpos : wordSum us ≠ 0)
    (hsum : wordSum ws = wordSum us + (swapBytes (pseudoHdrChecksum us)).toNat) :
    onesSum ws = 0xffff ↔ 257 ∣ wordSum us := by
  rw [onesSum_eq, hsum, toNat_swapBytes, toNat_pseudoHdrChecksum h hpos, folded, folded]
  split_ifs <;> omega

/-- **A hole-punch packet has a valid checksum** exactly if the sum of its words, with the new
sequence number or length and without a checksum, is a multiple of `257`. -/
theorem hole_checksum_iff (pktLen : ℕ) (tcp : Hole TcpHdr) (destip : BitVec 32)
    (srcport : BitVec 16) (mLen : ℤ) (hdrLen : ℕ) (udp : Hole UdpHdr) :
    (∀ out ∈ updateTcpHole pktLen tcp destip srcport mLen hdrLen, (onesSum (tcpWords out) = 0xffff ↔
        257 ∣ wordSum (tcpWords (advance tcp (BitVec.ofInt 16 (mLen - (14 + hdrLen))))))) ∧
      ∀ out ∈ makeUdpHole udp,
        (onesSum (udpWords out) = 0xffff ↔ 257 ∣ wordSum (udpWords (withoutData udp))) := by
  constructor
  · intro out hout
    rw [updateTcpHole, Option.mem_ite_none_right, Option.mem_some_iff] at hout
    obtain ⟨-, rfl⟩ := hout
    refine onesSum_swapped_iff (Nat.le_of_ble_eq_true rfl) ?_ ?_
    · simp [wordSum, tcpWords, pseudoHdr]
    · simp [wordSum, tcpWords, advance, pseudoHdr]
      omega
  · intro out hout
    rw [makeUdpHole, Option.mem_ite_none_right, Option.mem_some_iff] at hout
    obtain ⟨-, rfl⟩ := hout
    refine onesSum_swapped_iff (Nat.le_of_ble_eq_true rfl) ?_ ?_
    · simp [wordSum, udpWords, pseudoHdr]
    · simp [wordSum, udpWords, withoutData, pseudoHdr]
      omega

def emptyTcp (wnd : BitVec 16) : Hole TcpHdr := ⟨0, 0, 0, 0, 0, 0, 0, wnd, 0, 0⟩

def emptyUdp (dest : BitVec 16) : Hole UdpHdr := ⟨0, 0, 0, dest, 0x0900, 0⟩

/-- Of these headers the sums are multiples of `257`. -/
theorem hole_checksum_divisible :
    (∃ out ∈ updateTcpHole 1 (emptyTcp 27) 0 0 55 40, onesSum (tcpWords out) = 0xffff) ∧
      ∃ out ∈ makeUdpHole (emptyUdp 33), onesSum (udpWords out) = 0xffff :=
  have h := hole_checksum_iff 1 (emptyTcp 27) 0 0 55 40 (emptyUdp 33)
  ⟨⟨_, rfl, (h.1 _ rfl).mpr (by decide)⟩, ⟨_, rfl, (h.2 _ rfl).mpr (by decide)⟩⟩

/-- Headers of zeros get checksums that do not verify. -/
theorem hole_checksum_swapped :
    (updateTcpHole 1 (emptyTcp 0) 0 0 55 40).map (onesSum ∘ tcpWords) = some 0x1ae5 ∧
      (makeUdpHole (emptyUdp 0)).map (onesSum ∘ udpWords) = some 0x20df := by
  decide

end WiseSdk.Wlan
