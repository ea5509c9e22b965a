import WiseSdk.Library.ByteMemory

/-!
# Where a UDP link sends

`at_tcpip_receive` of `lib/at/at-tcpip.c` returns without a trace when what it has read did not come
from the address the link sends to. What is left of the function changes that address, as the mode
of the link says, to the sender. It can only change to itself.

A socket address has a part that is not compared, such as the scope of an IPv6 address.
-/

namespace WiseSdk.At.Remote

open Library List

structure Sockaddr where
  addr : ℕ
  port : ℕ
  scope : ℕ
deriving DecidableEq

def Sockaddr.Same (a b : Sockaddr) : Prop := a.addr = b.addr ∧ a.port = b.port
deriving Decidable

inductive UdpTxRemote where
  | fixed
  | rxOnce
  | lastRx
deriving DecidableEq

/-- A link of type `CONN_UDP`. -/
structure Conn where
  ai : Sockaddr
  remoteChanged : Bool
  udpMode : UdpTxRemote

/-- `at_tcpip_receive` when one datagram waits, of which at most 1024 bytes are read; without any
the link is closed. -/
def atTcpipReceive (c : Conn) (sender : Sockaddr) (data : List Byte) : Option Conn :=
  if data.take 1024 = [] then none
  else if ¬c.ai.Same sender then some c
  else if c.udpMode ≠ .fixed ∧ (c.udpMode = .lastRx ∨ c.remoteChanged = false) then
    some { c with ai := sender, remoteChanged := true }
  else some c

/-- `at_udp_send`, on a copy of the link with another address if `AT+CIPSEND` names a host. -/
def atUdpSend (c : Conn) (host : Option Sockaddr) : Sockaddr := host.getD c.ai

/-- A datagram is received, or `AT+CIPSEND` writes. -/
inductive Action where
  | receive (sender : Sockaddr) (data : List Byte)
  | send (host : Option Sockaddr)

/-- The link, until it is closed. -/
def step (c : Option Conn) : Action → Option Conn
  | .receive sender data => c.bind fun c => atTcpipReceive c sender data
  | .send _ => c

/-- A link that `AT+CIPSTART` has made. -/
def Conn.start (mode : UdpTxRemote) (peer : Sockaddr) : Conn := ⟨peer, false, mode⟩

def Action.sender? : Action → Option Sockaddr
  | .receive sender _ => some sender
  | .send _ => none

/-- Where the mode wants a link to send that was started with `peer` and has heard `senders`. -/
def UdpTxRemote.target (peer : Sockaddr) (senders : List Sockaddr) : UdpTxRemote → Sockaddr
  | .fixed => peer
  | .rxOnce => senders.head?.getD peer
  | .lastRx => senders.getLast?.getD peer

/-- What is known of a link that was started with `peer` and has heard `senders`. -/
structure Inv (m : UdpTxRemote) (peer : Sockaddr) (senders : List Sockaddr) (c : Conn) : Prop where
  mode : c.udpMode = m
  same : peer.Same c.ai
  target : peer.Same (m.target peer senders) → c.ai = m.target peer senders
  fresh : c.remoteChanged = false → m = .rxOnce → ∀ s ∈ senders, ¬peer.Same s
  changed : c.remoteChanged = true → senders ≠ []

variable {mode : UdpTxRemote} {peer sender : Sockaddr} {senders : List Sockaddr} {c c' : Conn}

theorem Inv.receive (h : Inv mode peer senders c) {data : List Byte}
    (hc : atTcpipReceive c sender data = some c') : Inv mode peer (senders ++ [sender]) c' := by
  have hsender : c.ai.Same sender ↔ peer.Same sender := by
    rw [Sockaddr.Same, Sockaddr.Same, h.same.1, h.same.2]
  obtain ⟨hmode, hsame, htarget, hfresh, hchanged⟩ := h
  unfold atTcpipReceive at hc
  split_ifs at hc with hdata hfrom hchange
  · cases hc
    refine ⟨hmode, hsender.mp hfrom, fun ht => ?_, nofun, by simp⟩
    cases mode with
    | fixed => exact absurd hmode hchange.1
    | rxOnce =>
      cases senders with
      | nil => rfl
      | cons s rest =>
        have hfirst : c.remoteChanged = false := by simpa [hmode] using hchange
        exact absurd ht (hfresh hfirst rfl s mem_cons_self)
    | lastRx => simp [UdpTxRemote.target]
  · cases hc
    refine ⟨hmode, hsame, fun ht => ?_, fun hf hm => ?_, by simp⟩
    · cases mode with
      | fixed => exact htarget ht
      | rxOnce =>
        have hsecond : c.remoteChanged = true := by simpa [hmode] using hchange
        obtain ⟨s, rest, rfl⟩ := exists_cons_of_ne_nil (hchanged hsecond)
        exact htarget ht
      | lastRx => simp [hmode] at hchange
    · simp [hmode, hm, hf] at hchange
  · -- The datagram is dropped, and its sender is not a target that is reached.
    cases hc
    rw [hsender] at hfrom
    refine ⟨hmode, hsame, fun ht => ?_, fun hf hm => ?_, by simp⟩
    · cases mode with
      | fixed => exact htarget ht
      | rxOnce =>
        cases senders with
        | nil => exact absurd ht hfrom
        | cons s rest => exact htarget ht
      | lastRx => exact absurd (by simpa [UdpTxRemote.target] using ht) hfrom
    · simpa [or_imp, forall_and, hfrom] using hfresh hf hm

theorem inv_of_foldl {acts : List Action}
    (h : acts.foldl step (some (.start mode peer)) = some c) :
    Inv mode peer (acts.filterMap Action.sender?) c := by
  induction acts using reverseRecOn generalizing c with
  | nil =>
    cases h
    refine ⟨rfl, ⟨rfl, rfl⟩, fun _ => ?_, by simp, nofun⟩
    cases mode <;> rfl
  | append_singleton acts a ih =>
    rw [foldl_append] at h
    rw [filterMap_append]
    cases a with
    | send host =>
      rw [filterMap_cons_none rfl, filterMap_nil, append_nil]
      exact ih h
    | receive s data =>
      obtain ⟨c', hc', h⟩ := Option.bind_eq_some_iff.mp h
      exact (ih hc').receive h

/-- **The remote policy.** Every write goes where the mode wants it if and only if every write to a
host of its own names that address, and every other comes when that address is the one the link
was started with, but for what is not compared. -/
theorem remote_policy_iff (mode : UdpTxRemote) (peer : Sockaddr) (acts : List Action) :
    (∀ pre host post c, acts = pre ++ .send host :: post →
      pre.foldl step (some (.start mode peer)) = some c →
        atUdpSend c host = mode.target peer (pre.filterMap Action.sender?)) ↔
    ∀ pre host post c, acts = pre ++ .send host :: post →
      pre.foldl step (some (.start mode peer)) = some c →
        let target := mode.target peer (pre.filterMap Action.sender?)
        (host = none → peer.Same target) ∧ ∀ h ∈ host, h = target := by
  refine forall₄_congr fun pre host post c => imp_congr_right fun _ => imp_congr_right fun hc => ?_
  have hinv := inv_of_foldl hc
  cases host with
  | none => exact ⟨fun h => ⟨fun _ => h ▸ hinv.same, nofun⟩, fun h => hinv.target (h.1 rfl)⟩
  | some h => simp [atUdpSend]

/-- A link in mode 2 hears from another peer, and sends to the first. -/
theorem remote_not_followed :
    let peer : Sockaddr := ⟨1, 8080, 0⟩
    let other : Sockaddr := ⟨2, 8080, 0⟩
    ∃ c, [Action.receive other [0]].foldl step (some (.start .lastRx peer)) = some c ∧
      atUdpSend c none = peer ∧ UdpTxRemote.lastRx.target peer [other] = other :=
  ⟨_, rfl, rfl, rfl⟩

end WiseSdk.At.Remote
