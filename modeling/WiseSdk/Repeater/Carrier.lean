import WiseSdk.Library.Runs
import WiseSdk.Repeater.Filter

/-!
# The host carrier gate

`repeater_input` of `lib/repeater/wifi_repeater.c` sends every packet to lwIP while
`repeater_ctx.host_carrier_on` is zero, and forwards by its rules otherwise.  The flag is a copy of
`host_en && host_net_en` of `api/wise/wise_channel.c`, taken by `wise_channel_host_carrier_on`.
`wise_channel_host_en` changes `host_en` and takes no copy, so the gate is stale from there to the
next `wise_channel_host_carrier_on`.
-/

namespace WiseSdk.Repeater

open Library

/-! ## Forwarding -/

/-- The two input routines a packet can be handed to. -/
inductive Input where
  | host
  | lwip
  deriving DecidableEq, Repr

/-- The part of `struct wifi_filter_config` that forwarding reads; `ipv4Filters` holds the rules in
use. -/
structure WifiFilterConfig where
  defaultDir : ℕ
  ipv4Filters : List WifiIpv4Filter

def htons (x : BitVec 16) : BitVec 16 := x.extractLsb' 0 8 ++ x.extractLsb' 8 8

def ethertypeIp : BitVec 16 := 0x0800

def ethertypeArp : BitVec 16 := 0x0806

def ethertypeIpv6 : BitVec 16 := 0x86dd

def ethertypePae : BitVec 16 := 0x888e

def ipProtoIcmp : Byte := 1

def ipProtoIgmp : Byte := 2

def etherType (m : ByteMem) : BitVec 16 := u16At m 12

variable (cfg : WifiFilterConfig)

def matchFilter (m : ByteMem) : ℕ :=
  if 0 < cfg.ipv4Filters.length then ipv4MatchFilter cfg.ipv4Filters m else wifiFilterToButt

/-- `repeater_forward_packet`: the routines called; `pbuf` is whether `m_topbuf_nofreem` finds a
buffer. -/
def repeaterForwardPacket (direction : ℕ) (pbuf : Bool) : List Input :=
  let direction := if direction = wifiFilterToButt then cfg.defaultDir else direction
  if direction = wifiFilterToHost then [.host]
  else if direction = wifiFilterToLwip then [.lwip]
  else .host :: if pbuf then [.lwip] else []

/-- The direction of a packet by the rules: the part of `repeater_input` behind the gate. -/
def ruleDirection (m : ByteMem) : ℕ :=
  if etherType m = htons ethertypePae ∨ etherType m = htons ethertypeIpv6 then wifiFilterToLwip
  else if etherType m = htons ethertypeArp ∨
      etherType m = htons ethertypeIp ∧
        (ipv4Proto m = ipProtoIcmp ∨ ipv4Proto m = ipProtoIgmp) then wifiFilterToBoth
  else if etherType m = htons ethertypeIp then matchFilter cfg m
  else wifiFilterToLwip

/-- `repeater_input` with the gate `hostCarrierOn`. -/
def repeaterInput (hostCarrierOn : BitVec 32) (m : ByteMem) (pbuf : Bool) : List Input :=
  if hostCarrierOn = 0 then repeaterForwardPacket cfg wifiFilterToLwip pbuf
  else repeaterForwardPacket cfg (ruleDirection cfg m) pbuf

/-! ## The flags -/

structure WiseChannelStatus where
  hostEn : ℤ
  hostNetEn : ℤ

/-- `g_host_status` and `repeater_ctx.host_carrier_on`. -/
structure Channel where
  status : WiseChannelStatus
  hostCarrierOn : BitVec 32

def Channel.init : Channel := ⟨⟨0, 0⟩, 0⟩

def isHostCarrierOn (status : WiseChannelStatus) : Bool :=
  status.hostEn != 0 && status.hostNetEn != 0

/-- `wifi_repeater_ops_host_carrier_getset` to set. -/
def hostCarrierSet (c : Channel) (on : BitVec 32) : Channel :=
  { c with hostCarrierOn := if on ≠ 0 then 1 else 0 }

def wiseChannelSetCarrierToRepeater (c : Channel) : Channel :=
  hostCarrierSet c (if isHostCarrierOn c.status then 1 else 0)

def wiseChannelHostEn (c : Channel) (on : ℤ) : Channel :=
  { c with status := { c.status with hostEn := on } }

def wiseChannelHostCarrierOn (c : Channel) (on : ℤ) : Channel :=
  wiseChannelSetCarrierToRepeater { c with status := { c.status with hostNetEn := on } }

/-- What happens: a call of one of the two functions, or a packet, which changes no flag. -/
inductive ChannelAction where
  | hostEn (on : ℤ)
  | hostCarrierOn (on : ℤ)
  | receive (m : ByteMem) (pbuf : Bool)

def channelStep (c : Channel) : ChannelAction → Option Channel
  | .hostEn on => some (wiseChannelHostEn c on)
  | .hostCarrierOn on => some (wiseChannelHostCarrierOn c on)
  | .receive _ _ => some c

/-! ## What the gate is for -/

/-- The last argument of `wise_channel_host_en`, zero if there was none. -/
def lastHostEn (acts : List ChannelAction) : ℤ :=
  acts.foldl (fun on a => if let .hostEn on' := a then on' else on) 0

/-- The last argument of `wise_channel_host_carrier_on`. -/
def lastHostCarrierOn (acts : List ChannelAction) : ℤ :=
  acts.foldl (fun on a => if let .hostCarrierOn on' := a then on' else on) 0

/-- **The gate is right**: the next packet goes to the host only if both arguments are non-zero, and
then by the rules. -/
def GateRight (hostEn hostNetEn : ℤ) (hostCarrierOn : BitVec 32) : Prop :=
  ∀ m pbuf,
    (.host ∈ repeaterInput cfg hostCarrierOn m pbuf → hostEn ≠ 0 ∧ hostNetEn ≠ 0) ∧
      (hostEn ≠ 0 ∧ hostNetEn ≠ 0 → repeaterInput cfg hostCarrierOn m pbuf =
          repeaterForwardPacket cfg (ruleDirection cfg m) pbuf)

/-- **The condition** on a call: the host is not switched on or off while its carrier is on. -/
def ChannelGuard (c : Channel) : ChannelAction → Prop
  | .hostEn on => c.status.hostNetEn ≠ 0 → (on ≠ 0 ↔ c.status.hostEn ≠ 0)
  | .hostCarrierOn _ => True
  | .receive _ _ => True

/-! ## The gate over runs -/

def UpToDate (c : Channel) : Prop :=
  c.hostCarrierOn ≠ 0 ↔ c.status.hostEn ≠ 0 ∧ c.status.hostNetEn ≠ 0

/-- An ARP packet, which the rules send to both sides. -/
def arpPacket : ByteMem := fun a => if a = 12 then 0x08 else if a = 13 then 0x06 else 0

section

variable (cfg : WifiFilterConfig)

theorem ruleDirection_arpPacket : ruleDirection cfg arpPacket = wifiFilterToBoth := by
  have hpae : ¬(etherType arpPacket = htons ethertypePae ∨
      etherType arpPacket = htons ethertypeIpv6) := by decide
  have harp : etherType arpPacket = htons ethertypeArp := by decide
  rw [ruleDirection, if_neg hpae, if_pos (.inl harp)]

theorem forward_to_lwip (pbuf : Bool) :
    repeaterForwardPacket cfg wifiFilterToLwip pbuf = [.lwip] := rfl

theorem forward_to_both : repeaterForwardPacket cfg wifiFilterToBoth true = [.host, .lwip] := rfl

theorem gateRight_iff (c : Channel) :
    GateRight cfg c.status.hostEn c.status.hostNetEn c.hostCarrierOn ↔ UpToDate c := by
  constructor
  · intro h
    obtain ⟨honly, hrules⟩ := h arpPacket true
    rw [repeaterInput] at honly hrules
    split_ifs at honly hrules with hgate
    · rw [ruleDirection_arpPacket, forward_to_lwip, forward_to_both] at hrules
      refine iff_of_false (not_not_intro hgate) fun hboth => ?_
      exact absurd (hrules hboth) (by decide)
    · rw [ruleDirection_arpPacket] at honly
      exact iff_of_true hgate (honly (.head _))
  · intro h m pbuf
    rw [repeaterInput]
    split_ifs with hgate
    · have hnot := mt h.mpr (not_not_intro hgate)
      rw [forward_to_lwip]
      exact ⟨fun hmem => absurd hmem (by decide), fun hboth => absurd hboth hnot⟩
    · exact ⟨fun _ => h.mp hgate, fun _ => rfl⟩

end

theorem upToDate_setCarrierToRepeater (c : Channel) :
    UpToDate (wiseChannelSetCarrierToRepeater c) := by
  have hcopy : (wiseChannelSetCarrierToRepeater c).hostCarrierOn ≠ 0 ↔
      isHostCarrierOn c.status = true := by
    rw [wiseChannelSetCarrierToRepeater]
    cases isHostCarrierOn c.status <;> simp [hostCarrierSet]
  rw [UpToDate, hcopy, isHostCarrierOn, Bool.and_eq_true, bne_iff_ne, bne_iff_ne]
  exact Iff.rfl

theorem upToDate_hostEn_iff {c : Channel} (h : UpToDate c) (on : ℤ) :
    UpToDate (wiseChannelHostEn c on) ↔ ChannelGuard c (.hostEn on) := by
  simp only [UpToDate, wiseChannelHostEn, ChannelGuard] at h ⊢
  rw [h]
  tauto

theorem status_of_run {acts : List ChannelAction} {c d : Channel}
    (h : runSteps channelStep c acts = some d) :
    d.status.hostEn = acts.foldl (fun on a => if let .hostEn on' := a then on' else on)
        c.status.hostEn ∧
      d.status.hostNetEn = acts.foldl (fun on a => if let .hostCarrierOn on' := a then on' else on)
        c.status.hostNetEn := by
  induction acts generalizing c with
  | nil =>
    cases h
    exact ⟨rfl, rfl⟩
  | cons a acts ih =>
    cases a <;> exact ih h

/-- **Host carrier gate.** For every sequence of calls and packets, the gate is right all along
exactly when no call switches the host while its carrier is on. -/
theorem host_gate_right_iff (cfg : WifiFilterConfig) (acts : List ChannelAction) :
    (∀ pre, pre <+: acts → ∃ c, runSteps channelStep Channel.init pre = some c ∧
        GateRight cfg (lastHostEn pre) (lastHostCarrierOn pre) c.hostCarrierOn) ↔
      StepsMeet channelStep ChannelGuard Channel.init acts := by
  have hlegal : StepsMeet channelStep (fun _ _ => True) Channel.init acts :=
    stepsMeet_of_forall (fun _ _ => trivial) _ _
  have hrun : (∀ pre, pre <+: acts → ∃ c, runSteps channelStep Channel.init pre = some c ∧
        GateRight cfg c.status.hostEn c.status.hostNetEn c.hostCarrierOn) ↔
      StepsMeet channelStep ChannelGuard Channel.init acts := by
    refine sound_run_iff UpToDate (fun c => (gateRight_iff cfg c).mpr) ?_ ?_
      (iff_of_false (by decide) (by decide)) hlegal
    · rintro c (on | on | ⟨m, pbuf⟩) hinv - hguard
      · exact ⟨_, rfl, (upToDate_hostEn_iff hinv on).mpr hguard⟩
      · exact ⟨_, rfl, upToDate_setCarrierToRepeater _⟩
      · exact ⟨_, rfl, hinv⟩
    · rintro c (on | on | ⟨m, pbuf⟩) d hinv - hstep hright
      · cases hstep
        exact (upToDate_hostEn_iff hinv on).mp ((gateRight_iff cfg _).mp hright)
      · trivial
      · trivial
  rw [← hrun]
  refine forall₂_congr fun pre _ => exists_congr fun c => and_congr_right fun hc => ?_
  have hen : c.status.hostEn = lastHostEn pre := (status_of_run hc).1
  have hnet : c.status.hostNetEn = lastHostCarrierOn pre := (status_of_run hc).2
  rw [← hen, ← hnet]

/-- Enabled, carrier on, disabled: the next ARP packet still goes to the host. Carrier on before
enabled: it is forced to lwIP. -/
theorem host_gate_stale :
    (∃ c, runSteps channelStep Channel.init [.hostEn 1, .hostCarrierOn 1, .hostEn 0] = some c ∧
        lastHostEn [.hostEn 1, .hostCarrierOn 1, .hostEn 0] = 0 ∧
        repeaterInput ⟨wifiFilterToLwip, []⟩ c.hostCarrierOn arpPacket true = [.host, .lwip]) ∧
      ∃ c, runSteps channelStep Channel.init [.hostCarrierOn 1, .hostEn 1] = some c ∧
        lastHostEn [.hostCarrierOn 1, .hostEn 1] = 1 ∧
        lastHostCarrierOn [.hostCarrierOn 1, .hostEn 1] = 1 ∧
        repeaterInput ⟨wifiFilterToLwip, []⟩ c.hostCarrierOn arpPacket true = [.lwip] :=
  ⟨⟨_, rfl, rfl, by decide⟩, ⟨_, rfl, rfl, rfl, by decide⟩⟩

end WiseSdk.Repeater
