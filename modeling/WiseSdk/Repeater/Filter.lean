import Mathlib.Data.List.Forall2
import WiseSdk.Library.ByteMemory

/-!
# The packet filter of the repeater

`ipv4_match_filter` of `lib/repeater/wifi_repeater.c` returns the direction of the first rule that
matches. A rule has a mask of the conditions it selects, and one function per mask bit checks the
condition.

The functions for a port and for a range of ports are one function, run for either bit. It looks at
the mask before it compares the range, but not before it compares the port: a rule that selects a
range also matches the port in its field `local_port` (or `remote_port`), which it has not selected.

`RuleMatches` is what a rule says, and `firstMatch` what a table says. A packet is the memory from
its Ethernet header on, since the code reads its headers without looking at its length.
-/

namespace WiseSdk.Repeater

open Library List Option

/-! ## Rules -/

structure WifiIpv4Filter where
  remoteIp : BitVec 32
  localPort : BitVec 16
  localpMin : BitVec 16
  localpMax : BitVec 16
  remotePort : BitVec 16
  remotepMin : BitVec 16
  remotepMax : BitVec 16
  packetType : BitVec 8
  configType : BitVec 8
  matchMask : BitVec 8
  deriving DecidableEq, Repr

def wifiFilterMaskIp : BitVec 8 := 0x01

def wifiFilterMaskProtocol : BitVec 8 := 0x02

def wifiFilterMaskLocalPort : BitVec 8 := 0x04

def wifiFilterMaskLocalPortRange : BitVec 8 := 0x08

def wifiFilterMaskRemotePort : BitVec 8 := 0x10

def wifiFilterMaskRemotePortRange : BitVec 8 := 0x20

/-- The directions `wifi_packet_filter`. -/
def wifiFilterToLwip : ℕ := 1

def wifiFilterToHost : ℕ := 2

def wifiFilterToBoth : ℕ := 3

def wifiFilterToButt : ℕ := 4

/-! ## Headers -/

def etherHdrLen : ℕ := 14

def ipProtoTcp : Byte := 6

def ipProtoUdp : Byte := 17

/-- The 16-bit word at an address, as the machine reads it. -/
def u16At (m : ByteMem) (a : ℕ) : BitVec 16 := m (a + 1) ++ m a

/-- The 32-bit word at an address, as the machine reads it. -/
def u32At (m : ByteMem) (a : ℕ) : BitVec 32 := leWord (m a) (m (a + 1)) (m (a + 2)) (m (a + 3))

def ipv4Proto (m : ByteMem) : Byte := m (etherHdrLen + 9)

def iphHlBytes (m : ByteMem) : ℕ := ((m etherHdrLen &&& 0x0f) * 4).toNat

def swapPortnum (x : BitVec 16) : BitVec 16 := (x &&& 0xff00) >>> 8 ||| (x &&& 0x00ff) <<< 8

def swapIpaddr (x : BitVec 32) : BitVec 32 :=
  (x &&& 0xff000000) >>> 24 ||| (x &&& 0x00ff0000) >>> 8 ||| (x &&& 0x0000ff00) <<< 8 |||
    (x &&& 0x000000ff) <<< 24

/-! ## The conditions -/

/-- The type `match_func`: a rule, the packet, and where its TCP or UDP header is. -/
abbrev MatchFunc := WifiIpv4Filter → ByteMem → Option ℕ → Option ℕ → Bool

def matchIp : MatchFunc := fun filter m _ _ =>
  filter.remoteIp == swapIpaddr (u32At m (etherHdrLen + 12))

def matchProtocol : MatchFunc := fun filter m _ _ => filter.packetType == ipv4Proto m

/-- A port and its range: `off` is its place in the TCP or UDP header, `range` the mask bit. -/
def matchPortAndRange (off : ℕ) (port min max : BitVec 16) (range mask : BitVec 8) (m : ByteMem)
    (tcp udp : Option ℕ) : Bool :=
  match udp.or tcp with
  | none => false
  | some hdr =>
    let portNumber := swapPortnum (u16At m (hdr + off))
    let matched := port == portNumber
    if mask &&& range ≠ 0#8 ∧ min ≤ portNumber ∧ portNumber ≤ max then true else matched

def matchLocalPortAndRange : MatchFunc := fun filter m tcp udp =>
  matchPortAndRange 2 filter.localPort filter.localpMin filter.localpMax
    wifiFilterMaskLocalPortRange filter.matchMask m tcp udp

def matchRemotePortAndRange : MatchFunc := fun filter m tcp udp =>
  matchPortAndRange 0 filter.remotePort filter.remotepMin filter.remotepMax
    wifiFilterMaskRemotePortRange filter.matchMask m tcp udp

/-- `match_funcs`: the function of each mask bit. -/
def matchFuncs : List MatchFunc :=
  [matchIp, matchProtocol, matchLocalPortAndRange, matchLocalPortAndRange,
    matchRemotePortAndRange, matchRemotePortAndRange]

/-! ## The walk -/

/-- The loop over the mask bits of a rule, from bit `maskBit` on. -/
def maskLoop (filter : WifiIpv4Filter) (m : ByteMem) (tcp udp : Option ℕ) :
    ℕ → List MatchFunc → Bool
  | _, [] => true
  | maskBit, func :: funcs =>
    if filter.matchMask &&& 1#8 <<< maskBit ≠ 0#8 then
      if func filter m tcp udp then maskLoop filter m tcp udp (maskBit + 1) funcs else false
    else maskLoop filter m tcp udp (maskBit + 1) funcs

def ruleLoop (m : ByteMem) (tcp udp : Option ℕ) : List WifiIpv4Filter → ℕ
  | [] => wifiFilterToButt
  | wlanFilter :: rules =>
    if maskLoop wlanFilter m tcp udp 0 matchFuncs then wlanFilter.configType.toNat
    else ruleLoop m tcp udp rules

/-- `ipv4_match_filter` on the rules in use. -/
def ipv4MatchFilter (rules : List WifiIpv4Filter) (m : ByteMem) : ℕ :=
  let hdr := etherHdrLen + iphHlBytes m
  if ipv4Proto m = ipProtoTcp then ruleLoop m (some hdr) none rules
  else if ipv4Proto m = ipProtoUdp then ruleLoop m none (some hdr) rules
  else ruleLoop m none none rules

/-! ## What a rule says -/

/-- A rule selects the condition of a mask bit. -/
def WifiIpv4Filter.Selects (r : WifiIpv4Filter) (bit : BitVec 8) : Prop := r.matchMask &&& bit ≠ 0#8
deriving Decidable

def remoteIpOf (m : ByteMem) : BitVec 32 :=
  m (etherHdrLen + 12) ++ m (etherHdrLen + 13) ++ m (etherHdrLen + 14) ++ m (etherHdrLen + 15)

/-- A port of a TCP or UDP packet: source at offset 0 of the header, destination at offset 2. -/
def portOf (off : ℕ) (m : ByteMem) : Option (BitVec 16) :=
  if ipv4Proto m = ipProtoTcp ∨ ipv4Proto m = ipProtoUdp then
    some (m (etherHdrLen + iphHlBytes m + off) ++ m (etherHdrLen + iphHlBytes m + off + 1))
  else none

/-- The packet's port, which is local for the receiver. -/
def localPortOf : ByteMem → Option (BitVec 16) := portOf 2

def remotePortOf : ByteMem → Option (BitVec 16) := portOf 0

/-- The condition on a port: if the port or the range is selected, one that is selected has to
hold. -/
def PortHolds (bySinglePort byRange : Prop) (port min max : BitVec 16) (p : Option (BitVec 16)) :
    Prop :=
  bySinglePort ∨ byRange → ∃ x ∈ p, bySinglePort ∧ x = port ∨ byRange ∧ min ≤ x ∧ x ≤ max

def LocalPortHolds (r : WifiIpv4Filter) (m : ByteMem) : Prop :=
  PortHolds (r.Selects wifiFilterMaskLocalPort) (r.Selects wifiFilterMaskLocalPortRange)
    r.localPort r.localpMin r.localpMax (localPortOf m)

def RemotePortHolds (r : WifiIpv4Filter) (m : ByteMem) : Prop :=
  PortHolds (r.Selects wifiFilterMaskRemotePort) (r.Selects wifiFilterMaskRemotePortRange)
    r.remotePort r.remotepMin r.remotepMax (remotePortOf m)

def HeaderHolds (r : WifiIpv4Filter) (m : ByteMem) : Prop :=
  (r.Selects wifiFilterMaskIp → r.remoteIp = remoteIpOf m) ∧
    (r.Selects wifiFilterMaskProtocol → r.packetType = ipv4Proto m)

def RuleMatches (r : WifiIpv4Filter) (m : ByteMem) : Prop :=
  HeaderHolds r m ∧ LocalPortHolds r m ∧ RemotePortHolds r m

instance (bySinglePort byRange : Prop) [Decidable bySinglePort] [Decidable byRange]
    (port min max : BitVec 16) : (p : Option (BitVec 16)) →
      Decidable (PortHolds bySinglePort byRange port min max p)
  | none => decidable_of_iff (¬(bySinglePort ∨ byRange)) (by simp [PortHolds])
  | some x => decidable_of_iff
      (bySinglePort ∨ byRange → bySinglePort ∧ x = port ∨ byRange ∧ min ≤ x ∧ x ≤ max)
      (by simp [PortHolds])

instance (r : WifiIpv4Filter) (m : ByteMem) : Decidable (RuleMatches r m) :=
  inferInstanceAs (Decidable ((_ ∧ _) ∧ PortHolds _ _ _ _ _ _ ∧ PortHolds _ _ _ _ _ _))

/-- **What a table says**: the direction of its first rule that matches. -/
def firstMatch (rules : List WifiIpv4Filter) (m : ByteMem) : ℕ :=
  match rules.find? fun r => RuleMatches r m with
  | some r => r.configType.toNat
  | none => wifiFilterToButt

/-- Two rules that differ only in fields they do not select. -/
structure SameSelected (r r' : WifiIpv4Filter) : Prop where
  matchMask : r.matchMask = r'.matchMask
  configType : r.configType = r'.configType
  remoteIp : r.Selects wifiFilterMaskIp → r.remoteIp = r'.remoteIp
  packetType : r.Selects wifiFilterMaskProtocol → r.packetType = r'.packetType
  localPort : r.Selects wifiFilterMaskLocalPort → r.localPort = r'.localPort
  localRange : r.Selects wifiFilterMaskLocalPortRange →
    r.localpMin = r'.localpMin ∧ r.localpMax = r'.localpMax
  remotePort : r.Selects wifiFilterMaskRemotePort → r.remotePort = r'.remotePort
  remoteRange : r.Selects wifiFilterMaskRemotePortRange →
    r.remotepMin = r'.remotepMin ∧ r.remotepMax = r'.remotepMax

def SameTable (rules rules' : List WifiIpv4Filter) : Prop := List.Forall₂ SameSelected rules rules'

/-! ## Rules that an unselected port can decide -/

/-- A range is selected without its port, and the packet has a port. -/
def LocalPortOpen (r : WifiIpv4Filter) (m : ByteMem) : Prop :=
  ¬r.Selects wifiFilterMaskLocalPort ∧ r.Selects wifiFilterMaskLocalPortRange ∧ localPortOf m ≠ none

def RemotePortOpen (r : WifiIpv4Filter) (m : ByteMem) : Prop :=
  ¬r.Selects wifiFilterMaskRemotePort ∧ r.Selects wifiFilterMaskRemotePortRange ∧
    remotePortOf m ≠ none

/-- With the right values in unselected port fields the code takes the rule for a match. -/
def Exposed (r : WifiIpv4Filter) (m : ByteMem) : Prop :=
  HeaderHolds r m ∧ (LocalPortHolds r m ∨ LocalPortOpen r m) ∧
    (RemotePortHolds r m ∨ RemotePortOpen r m)

/-- **The condition.** Ahead of the first match, a rule that an unselected port field could decide
has the direction given anyway. -/
def RangesDecide (rules : List WifiIpv4Filter) (m : ByteMem) : Prop :=
  ∀ r ∈ rules.takeWhile fun r => ¬RuleMatches r m, Exposed r m →
    r.configType.toNat = firstMatch rules m

/-! ## What the code checks -/

theorem swapPortnum_append (a b : Byte) : swapPortnum (a ++ b) = b ++ a := by
  refine BitVec.eq_of_getLsbD_eq fun i hi => ?_
  rw [swapPortnum, show (0xff00 : BitVec 16) = byteMask 16 8 from rfl,
    show (0x00ff : BitVec 16) = byteMask 16 0 from rfl]
  simp only [BitVec.getLsbD_or, BitVec.getLsbD_ushiftRight, BitVec.getLsbD_shiftLeft,
    getLsbD_and_byteMask]
  grind

theorem swapIpaddr_leWord (a b c d : Byte) : swapIpaddr (leWord a b c d) = a ++ b ++ c ++ d := by
  refine BitVec.eq_of_getLsbD_eq fun i hi => ?_
  rw [swapIpaddr, leWord, show (0xff000000 : BitVec 32) = byteMask 32 24 from rfl,
    show (0x00ff0000 : BitVec 32) = byteMask 32 16 from rfl,
    show (0x0000ff00 : BitVec 32) = byteMask 32 8 from rfl,
    show (0x000000ff : BitVec 32) = byteMask 32 0 from rfl]
  simp only [BitVec.getLsbD_or, BitVec.getLsbD_ushiftRight, BitVec.getLsbD_shiftLeft,
    getLsbD_and_byteMask]
  grind

section

variable (r : WifiIpv4Filter) (m : ByteMem) (tcp udp : Option ℕ)

theorem matchIp_iff : matchIp r m tcp udp = true ↔ r.remoteIp = remoteIpOf m := by
  rw [matchIp, beq_iff_eq, u32At, swapIpaddr_leWord, remoteIpOf]

theorem matchProtocol_iff : matchProtocol r m tcp udp = true ↔ r.packetType = ipv4Proto m :=
  beq_iff_eq

end

/-- The headers that `ipv4_match_filter` passes on are those the ports are read from. -/
def HeadersOf (m : ByteMem) (tcp udp : Option ℕ) : Prop :=
  udp.or tcp = if ipv4Proto m = ipProtoTcp ∨ ipv4Proto m = ipProtoUdp then
    some (etherHdrLen + iphHlBytes m) else none

theorem matchPortAndRange_iff {m : ByteMem} {tcp udp : Option ℕ} (h : HeadersOf m tcp udp)
    (off : ℕ) (port min max : BitVec 16) (range mask : BitVec 8) :
    matchPortAndRange off port min max range mask m tcp udp = true ↔
      ∃ x ∈ portOf off m, x = port ∨ mask &&& range ≠ 0#8 ∧ min ≤ x ∧ x ≤ max := by
  rw [matchPortAndRange, h, portOf]
  split_ifs
  · simp only [u16At, swapPortnum_append, mem_some_iff, exists_eq_left']
    split_ifs with hrange
    · exact iff_of_true rfl (.inr hrange)
    · rw [beq_iff_eq, eq_comm]
      exact ⟨.inl, fun hx => hx.resolve_right hrange⟩
  · simp

/-- What the code asks of a port: if the port or the range is selected, one that is has to hold. -/
def PortPasses (bySinglePort byRange : Prop) (port min max : BitVec 16) (p : Option (BitVec 16)) :
    Prop :=
  bySinglePort ∨ byRange → ∃ x ∈ p, x = port ∨ byRange ∧ min ≤ x ∧ x ≤ max

def LocalPortPasses (r : WifiIpv4Filter) (m : ByteMem) : Prop :=
  PortPasses (r.Selects wifiFilterMaskLocalPort) (r.Selects wifiFilterMaskLocalPortRange)
    r.localPort r.localpMin r.localpMax (localPortOf m)

def RemotePortPasses (r : WifiIpv4Filter) (m : ByteMem) : Prop :=
  PortPasses (r.Selects wifiFilterMaskRemotePort) (r.Selects wifiFilterMaskRemotePortRange)
    r.remotePort r.remotepMin r.remotepMax (remotePortOf m)

def Passes (r : WifiIpv4Filter) (m : ByteMem) : Prop :=
  HeaderHolds r m ∧ LocalPortPasses r m ∧ RemotePortPasses r m

variable (r : WifiIpv4Filter)

theorem maskLoop_cons_iff (m : ByteMem) (tcp udp : Option ℕ) (maskBit : ℕ) (func : MatchFunc)
    (funcs : List MatchFunc) :
    maskLoop r m tcp udp maskBit (func :: funcs) = true ↔
      (r.Selects (1#8 <<< maskBit) → func r m tcp udp = true) ∧
        maskLoop r m tcp udp (maskBit + 1) funcs = true := by
  rw [maskLoop, WifiIpv4Filter.Selects]
  split_ifs with hsel hfunc
  · exact ⟨fun h => ⟨fun _ => hfunc, h⟩, And.right⟩
  · exact iff_of_false id fun h => hfunc (h.1 hsel)
  · exact ⟨fun h => ⟨fun hs => absurd hs hsel, h⟩, And.right⟩

theorem maskLoop_iff_passes {m : ByteMem} {tcp udp : Option ℕ} (h : HeadersOf m tcp udp) :
    maskLoop r m tcp udp 0 matchFuncs = true ↔ Passes r m := by
  have hlocal : matchLocalPortAndRange r m tcp udp = true ↔ _ := matchPortAndRange_iff h ..
  have hremote : matchRemotePortAndRange r m tcp udp = true ↔ _ := matchPortAndRange_iff h ..
  simp only [matchFuncs, maskLoop_cons_iff, matchIp_iff, matchProtocol_iff, hlocal, hremote]
  rw [Passes, HeaderHolds, LocalPortPasses, RemotePortPasses, PortPasses, PortPasses, or_imp,
    or_imp, and_assoc, and_assoc]
  exact and_congr_right' (and_congr_right' (and_congr_right' (and_congr_right'
    (and_congr_right' (and_iff_left rfl)))))

/-- **The code** returns the direction of the first rule that passes. -/
theorem ipv4MatchFilter_cons (rules : List WifiIpv4Filter) (m : ByteMem) :
    (Passes r m → ipv4MatchFilter (r :: rules) m = r.configType.toNat) ∧
      (¬Passes r m → ipv4MatchFilter (r :: rules) m = ipv4MatchFilter rules m) := by
  have hstep {tcp udp : Option ℕ} (h : HeadersOf m tcp udp) :
      (Passes r m → ruleLoop m tcp udp (r :: rules) = r.configType.toNat) ∧
        (¬Passes r m → ruleLoop m tcp udp (r :: rules) = ruleLoop m tcp udp rules) := by
    rw [← maskLoop_iff_passes r h, ruleLoop]
    exact ⟨fun hp => if_pos hp, fun hp => if_neg hp⟩
  rw [ipv4MatchFilter, ipv4MatchFilter]
  split_ifs with htcp hudp
  · exact hstep (by rw [HeadersOf, if_pos (.inl htcp)]; rfl)
  · exact hstep (by rw [HeadersOf, if_pos (.inr hudp)]; rfl)
  · exact hstep (by rw [HeadersOf, if_neg (by tauto)]; rfl)

/-! ## The two readings compared -/

section Port

variable {bySinglePort byRange : Prop} {port port' min max min' max' : BitVec 16}
  {p : Option (BitVec 16)}

theorem PortHolds.passes (h : PortHolds bySinglePort byRange port min max p) :
    PortPasses bySinglePort byRange port min max p := by
  intro hsel
  obtain ⟨x, hx, hport | hrange⟩ := h hsel
  · exact ⟨x, hx, .inl hport.2⟩
  · exact ⟨x, hx, .inr hrange⟩

theorem PortHolds.congr (hport : bySinglePort → port = port')
    (hrange : byRange → min = min' ∧ max = max')
    (h : PortHolds bySinglePort byRange port min max p) :
    PortHolds bySinglePort byRange port' min' max' p := by
  intro hsel
  obtain ⟨x, hx, ⟨hs, hx'⟩ | ⟨hr, hmin, hmax⟩⟩ := h hsel
  · exact ⟨x, hx, .inl ⟨hs, hport hs ▸ hx'⟩⟩
  · obtain ⟨rfl, rfl⟩ := hrange hr
    exact ⟨x, hx, .inr ⟨hr, hmin, hmax⟩⟩

theorem PortPasses.holds_or_open (h : PortPasses bySinglePort byRange port min max p) :
    PortHolds bySinglePort byRange port min max p ∨ ¬bySinglePort ∧ byRange ∧ p ≠ none := by
  by_cases hs : bySinglePort
  · refine .inl fun hsel => ?_
    obtain ⟨x, hx, hport | hrange⟩ := h hsel
    · exact ⟨x, hx, .inl ⟨hs, hport⟩⟩
    · exact ⟨x, hx, .inr hrange⟩
  by_cases hr : byRange
  · obtain ⟨x, hx, -⟩ := h (.inr hr)
    exact .inr ⟨hs, hr, by rw [mem_def.mp hx]; exact some_ne_none x⟩
  · exact .inl fun hsel => (hsel.elim hs hr).elim

/-- The packet's own port in the port field lets the packet pass. -/
theorem portPasses_of_field (hp : p ≠ none) :
    PortPasses bySinglePort byRange (p.getD 0) min max p := by
  obtain ⟨x, rfl⟩ := ne_none_iff_exists'.mp hp
  exact fun _ => ⟨x, rfl, .inl rfl⟩

/-- Any other port in a field that is not selected changes nothing. -/
theorem PortPasses.holds_of_other (hother : ¬bySinglePort → ∀ x ∈ p, x ≠ port)
    (h : PortPasses bySinglePort byRange port min max p) :
    PortHolds bySinglePort byRange port min max p := by
  intro hsel
  obtain ⟨x, hx, hport | hrange⟩ := h hsel
  · exact ⟨x, hx, .inl ⟨by_contra fun hs => hother hs x hx hport, hport⟩⟩
  · exact ⟨x, hx, .inr hrange⟩

end Port

section Rule

variable {r r' : WifiIpv4Filter} {m : ByteMem}

theorem RuleMatches.passes (h : RuleMatches r m) : Passes r m :=
  ⟨h.1, PortHolds.passes h.2.1, PortHolds.passes h.2.2⟩

theorem SameSelected.refl (r : WifiIpv4Filter) : SameSelected r r :=
  ⟨rfl, rfl, fun _ => rfl, fun _ => rfl, fun _ => rfl, fun _ => ⟨rfl, rfl⟩, fun _ => rfl,
    fun _ => ⟨rfl, rfl⟩⟩

section

variable (h : SameSelected r r')

include h

theorem SameSelected.selects (bit : BitVec 8) : r'.Selects bit ↔ r.Selects bit := by
  rw [WifiIpv4Filter.Selects, WifiIpv4Filter.Selects, h.matchMask]

theorem SameSelected.symm : SameSelected r' r := by
  refine ⟨h.matchMask.symm, h.configType.symm, ?_, ?_, ?_, ?_, ?_, ?_⟩ <;>
    simp only [h.selects] <;> intro hs
  · exact (h.remoteIp hs).symm
  · exact (h.packetType hs).symm
  · exact (h.localPort hs).symm
  · exact (h.localRange hs).imp Eq.symm Eq.symm
  · exact (h.remotePort hs).symm
  · exact (h.remoteRange hs).imp Eq.symm Eq.symm

theorem SameSelected.headerHolds (hold : HeaderHolds r m) : HeaderHolds r' m := by
  refine ⟨fun hs => ?_, fun hs => ?_⟩ <;> rw [h.selects] at hs
  · rw [← h.remoteIp hs, hold.1 hs]
  · rw [← h.packetType hs, hold.2 hs]

theorem SameSelected.localPortHolds (hold : LocalPortHolds r m) : LocalPortHolds r' m := by
  rw [LocalPortHolds, h.selects, h.selects]
  exact PortHolds.congr h.localPort h.localRange hold

theorem SameSelected.remotePortHolds (hold : RemotePortHolds r m) : RemotePortHolds r' m := by
  rw [RemotePortHolds, h.selects, h.selects]
  exact PortHolds.congr h.remotePort h.remoteRange hold

theorem SameSelected.ruleMatches_iff : RuleMatches r m ↔ RuleMatches r' m :=
  ⟨fun ⟨h₁, h₂, h₃⟩ => ⟨h.headerHolds h₁, h.localPortHolds h₂, h.remotePortHolds h₃⟩,
    fun ⟨h₁, h₂, h₃⟩ => ⟨h.symm.headerHolds h₁, h.symm.localPortHolds h₂,
      h.symm.remotePortHolds h₃⟩⟩

theorem SameSelected.exposed (hpass : Passes r' m) : Exposed r m := by
  refine ⟨h.symm.headerHolds hpass.1, ?_, ?_⟩
  · refine (PortPasses.holds_or_open hpass.2.1).imp h.symm.localPortHolds fun ho => ?_
    rwa [h.selects, h.selects] at ho
  · refine (PortPasses.holds_or_open hpass.2.2).imp h.symm.remotePortHolds fun ho => ?_
    rwa [h.selects, h.selects] at ho

end

/-- The rule with other values in the port fields it does not select. -/
def WifiIpv4Filter.withPorts (r : WifiIpv4Filter) (lp rp : BitVec 16) : WifiIpv4Filter :=
  { r with
    localPort := if r.Selects wifiFilterMaskLocalPort then r.localPort else lp
    remotePort := if r.Selects wifiFilterMaskRemotePort then r.remotePort else rp }

theorem sameSelected_withPorts (r : WifiIpv4Filter) (lp rp : BitVec 16) :
    SameSelected r (r.withPorts lp rp) :=
  ⟨rfl, rfl, fun _ => rfl, fun _ => rfl, fun h => (if_pos h).symm, fun _ => ⟨rfl, rfl⟩,
    fun h => (if_pos h).symm, fun _ => ⟨rfl, rfl⟩⟩

theorem Exposed.passes_withPorts (h : Exposed r m) :
    Passes (r.withPorts ((localPortOf m).getD 0) ((remotePortOf m).getD 0)) m := by
  have hsame := sameSelected_withPorts r ((localPortOf m).getD 0) ((remotePortOf m).getD 0)
  obtain ⟨hhdr, hlocal, hremote⟩ := h
  refine ⟨hsame.headerHolds hhdr, ?_, ?_⟩
  · rcases hlocal with hlocal | ⟨hs, -, hp⟩
    · exact PortHolds.passes (hsame.localPortHolds hlocal)
    · have hfield : (r.withPorts ((localPortOf m).getD 0) ((remotePortOf m).getD 0)).localPort =
          (localPortOf m).getD 0 := if_neg hs
      rw [LocalPortPasses, hfield]
      exact portPasses_of_field hp
  · rcases hremote with hremote | ⟨hs, -, hp⟩
    · exact PortHolds.passes (hsame.remotePortHolds hremote)
    · have hfield : (r.withPorts ((localPortOf m).getD 0) ((remotePortOf m).getD 0)).remotePort =
          (remotePortOf m).getD 0 := if_neg hs
      rw [RemotePortPasses, hfield]
      exact portPasses_of_field hp

theorem ruleMatches_of_passes_withPorts
    (h : Passes (r.withPorts ((localPortOf m).getD 0 + 1) ((remotePortOf m).getD 0 + 1)) m) :
    RuleMatches r m := by
  have hsame := sameSelected_withPorts r ((localPortOf m).getD 0 + 1) ((remotePortOf m).getD 0 + 1)
  have hother {p : Option (BitVec 16)} : ∀ x ∈ p, x ≠ p.getD 0 + 1 := by
    rintro x hx
    rw [mem_def.mp hx, getD_some]
    bv_omega
  refine hsame.ruleMatches_iff.mpr ⟨h.1, h.2.1.holds_of_other ?_, h.2.2.holds_of_other ?_⟩
  · intro hs
    rw [show (r.withPorts _ _).localPort = (localPortOf m).getD 0 + 1 from if_neg hs]
    exact hother
  · intro hs
    rw [show (r.withPorts _ _).remotePort = (remotePortOf m).getD 0 + 1 from if_neg hs]
    exact hother

end Rule

/-! ## Tables -/

/-- **The code follows the table**: it returns what the table says, also for every table that
differs only in fields that are not selected. -/
def FollowsTable (rules : List WifiIpv4Filter) (m : ByteMem) : Prop :=
  ∀ rules', SameTable rules rules' → ipv4MatchFilter rules' m = firstMatch rules m

section Table

variable {r : WifiIpv4Filter} {rules : List WifiIpv4Filter} {m : ByteMem}

theorem firstMatch_of_matches (h : RuleMatches r m) :
    firstMatch (r :: rules) m = r.configType.toNat := by
  rw [firstMatch, find?_cons, decide_eq_true h]

theorem firstMatch_of_not_matches (h : ¬RuleMatches r m) :
    firstMatch (r :: rules) m = firstMatch rules m := by
  rw [firstMatch, find?_cons, decide_eq_false h, firstMatch]

theorem SameTable.refl (rules : List WifiIpv4Filter) : SameTable rules rules :=
  forall₂_same.mpr fun r _ => SameSelected.refl r

theorem followsTable_of_matches (h : RuleMatches r m) : FollowsTable (r :: rules) m := by
  rintro _ (_ | ⟨hsame, -⟩)
  rw [(ipv4MatchFilter_cons _ _ m).1 (hsame.ruleMatches_iff.mp h).passes,
    firstMatch_of_matches h, hsame.configType]

theorem followsTable_cons_iff (h : ¬RuleMatches r m) :
    FollowsTable (r :: rules) m ↔
      (Exposed r m → r.configType.toNat = firstMatch rules m) ∧ FollowsTable rules m := by
  constructor
  · intro hfollows
    refine ⟨fun hexp => ?_, fun rules' hsame => ?_⟩
    · -- The packet's ports in the unselected fields make the code stop at this rule.
      have := hfollows _ (.cons (sameSelected_withPorts r ((localPortOf m).getD 0)
        ((remotePortOf m).getD 0)) (SameTable.refl rules))
      rw [(ipv4MatchFilter_cons _ _ m).1 hexp.passes_withPorts, firstMatch_of_not_matches h] at this
      exact this
    · -- Other ports in them make it go on.
      have := hfollows _ (.cons (sameSelected_withPorts r ((localPortOf m).getD 0 + 1)
        ((remotePortOf m).getD 0 + 1)) hsame)
      rw [(ipv4MatchFilter_cons _ _ m).2 (mt ruleMatches_of_passes_withPorts h),
        firstMatch_of_not_matches h] at this
      exact this
  · rintro ⟨hexp, hfollows⟩ rules' hrules
    obtain ⟨r', rest', hsame, hrest, rfl⟩ := forall₂_cons_left_iff.mp hrules
    rw [firstMatch_of_not_matches h]
    by_cases hpass : Passes r' m
    · rw [(ipv4MatchFilter_cons _ _ m).1 hpass, ← hexp (hsame.exposed hpass), hsame.configType]
    · rw [(ipv4MatchFilter_cons _ _ m).2 hpass, hfollows _ hrest]

theorem rangesDecide_cons_iff (h : ¬RuleMatches r m) :
    RangesDecide (r :: rules) m ↔
      (Exposed r m → r.configType.toNat = firstMatch rules m) ∧ RangesDecide rules m := by
  rw [RangesDecide, takeWhile_cons_of_pos (by simpa using h), forall_mem_cons,
    firstMatch_of_not_matches h, RangesDecide]

/-- **Packet filter.** The code follows the table exactly when no rule ahead of the first match,
selecting a range of ports without the port, could decide otherwise. -/
theorem filter_follows_table_iff (rules : List WifiIpv4Filter) (m : ByteMem) :
    FollowsTable rules m ↔ RangesDecide rules m := by
  induction rules with
  | nil =>
    refine iff_of_true ?_ (by simp [RangesDecide])
    rintro _ ⟨⟩
    simp only [ipv4MatchFilter, ruleLoop, ite_self]
    rfl
  | cons r rules ih =>
    by_cases h : RuleMatches r m
    · refine iff_of_true (followsTable_of_matches h) ?_
      rw [RangesDecide, takeWhile_cons_of_neg (by simpa using h)]
      simp
    · rw [followsTable_cons_iff h, rangesDecide_cons_iff h, ih]

end Table

/-- A UDP packet to port 80, with a header of 20 bytes. -/
def udpToPort80 : ByteMem := fun a =>
  if a = 14 then 0x45 else if a = 23 then 17 else if a = 37 then 80 else 0

/-- A rule for the local ports 5000 to 6000, with `local_port` set but not selected. -/
def rangeRule (port : BitVec 16) : WifiIpv4Filter :=
  { remoteIp := 0, localPort := port, localpMin := 5000, localpMax := 6000, remotePort := 0
    remotepMin := 0, remotepMax := 0, packetType := 0, configType := 2
    matchMask := wifiFilterMaskLocalPortRange }

/-- A packet to port 80 matches no rule, but goes to the host if the unselected field is 80, and not
if it is 81. -/
theorem unselected_port_decides :
    SameTable [rangeRule 81] [rangeRule 80] ∧ localPortOf udpToPort80 = some 80 ∧
      firstMatch [rangeRule 80] udpToPort80 = wifiFilterToButt ∧
      ipv4MatchFilter [rangeRule 80] udpToPort80 = wifiFilterToHost ∧
      ipv4MatchFilter [rangeRule 81] udpToPort80 = wifiFilterToButt ∧
      ¬FollowsTable [rangeRule 80] udpToPort80 := by
  refine ⟨.cons ⟨rfl, rfl, fun _ => rfl, fun _ => rfl, fun h => absurd rfl h, fun _ => ⟨rfl, rfl⟩,
    fun _ => rfl, fun _ => ⟨rfl, rfl⟩⟩ .nil, by decide, by decide, by decide, by decide,
    fun h => ?_⟩
  exact absurd (h _ (SameTable.refl _)) (by decide)

end WiseSdk.Repeater
