import WiseSdk.At.Remote

/-!
# What a link receives

`at_tcpip_receive` of `lib/at/at-tcpip.c` reads a socket until nothing is left, in a window of 1024
bytes that is moved to a heap buffer whenever it is full. A datagram is cut at the room left in the
window, an empty one ends the reading, and the heap buffer is never freed.
-/

namespace WiseSdk.At.Receive

open Library List Remote

def bufsiz : ℕ := 1024

structure Link extends Conn where
  udp : Bool
  pass : Bool

/-- What there is to read: a stream, of which a read gets what has arrived (at least a byte), or
datagrams with their senders. -/
inductive Source where
  | stream (bytes : List Byte) (arrived : ℕ → ℕ)
  | datagrams (ds : List (Sockaddr × List Byte))

/-- `at_tcp_recv` and `at_udp_recv`: `from`, what is read, and what is left. -/
def atRead (ai sender : Sockaddr) (len : ℕ) : Source → Sockaddr × List Byte × Source
  | .stream bytes arrived =>
    let n := min len (max 1 (arrived bytes.length))
    (ai, bytes.take n, .stream (bytes.drop n) arrived)
  | .datagrams [] => (sender, [], .datagrams [])
  | .datagrams ((sender, d) :: ds) => (sender, d.take len, .datagrams ds)

/-- The variables of the loop: `from`, what is in the window, the heap buffer, and the count. -/
structure Gathered where
  sender : Sockaddr
  tmp : List Byte
  buf : List Byte
  tot : ℕ

/-- The loop, with at most so many reads. -/
def readLoop (ai : Sockaddr) : ℕ → Source → Gathered → Gathered
  | 0, _, g => g
  | reads + 1, src, g =>
    let (sender, data, src) := atRead ai g.sender (bufsiz - g.tmp.length) src
    if data = [] then { g with sender := sender }
    else
      let tmp := g.tmp ++ data
      readLoop ai reads src
        (if tmp.length = bufsiz then ⟨sender, [], g.buf ++ tmp, g.tot + data.length⟩
        else ⟨sender, tmp, g.buf, g.tot + data.length⟩)

def Source.size : Source → ℕ
  | .stream bytes _ => bytes.length
  | .datagrams ds => ds.length

/-- The count in the `+IPD` header, what is printed, whether a heap buffer is left behind, and the
link, unless it is closed. -/
structure Received where
  header : Option ℕ
  printed : List Byte
  leaked : Bool
  conn : Option Conn

/-- `at_tcpip_receive`; `from` is not read before it is set. -/
def atTcpipReceive (c : Link) (src : Source) : Received :=
  let g := readLoop c.ai (src.size + 1) src ⟨c.ai, [], [], 0⟩
  if g.tot = 0 then ⟨none, [], false, none⟩
  else if ¬c.ai.Same g.sender then ⟨none, [], g.buf ≠ [], some c.toConn⟩
  else
    let buf := if g.buf ≠ [] then g.buf ++ g.tmp.take (g.tot % bufsiz) else g.tmp
    let changes := c.udp ∧ c.udpMode ≠ .fixed ∧
      (c.udpMode = .lastRx ∨ c.remoteChanged = false)
    ⟨if c.pass then none else some g.tot, buf.take g.tot, g.buf ≠ [],
      some (if changes then { c.toConn with ai := g.sender, remoteChanged := true } else c.toConn)⟩

/-! ## What is printed -/

/-- What comes before the first empty datagram. -/
def Source.text : Source → List Byte
  | .stream bytes _ => bytes
  | .datagrams ds => ((ds.map Prod.snd).takeWhile (· ≠ [])).flatten

def Source.available : Source → List Byte
  | .stream bytes _ => bytes
  | .datagrams ds => (ds.map Prod.snd).flatten

def Source.From (a : Sockaddr) : Source → Prop
  | .stream _ _ => True
  | .datagrams ds => ∀ d ∈ ds, a.Same d.1

/-- All bytes are printed behind their count, and no buffer is left behind. -/
def Received.Complete (r : Received) (pass : Bool) (bytes : List Byte) : Prop :=
  r.printed = bytes ∧ r.header = (if pass ∨ bytes = [] then none else some bytes.length) ∧
    r.leaked = false

variable {ai sender : Sockaddr} {src : Source} {g : Gathered} {reads len : ℕ}

/-- A read that does not fill its room gets all of a datagram. -/
theorem atRead_cases (ai sender : Sockaddr) (hlen : 0 < len) (src : Source) :
    let r := atRead ai sender len src
    src.text = [] ∧ r.2.1 = [] ∨ r.2.1 ≠ [] ∧ r.2.2.size < src.size ∧
      (r.2.1.length < len ∧ src.text = r.2.1 ++ r.2.2.text ∨
        r.2.1.length = len ∧ len ≤ src.text.length) := by
  cases src with
  | stream bytes arrived =>
    simp only [atRead, Source.text, Source.size, take_append_drop, length_take, length_drop,
      ← length_pos_iff, ← length_eq_zero_iff, and_true]
    omega
  | datagrams ds =>
    cases ds with
    | nil => simp [Source.text, atRead]
    | cons d ds =>
      by_cases hd : d.2 = []
      · exact .inl (by simp [Source.text, atRead, hd])
      refine .inr ⟨by simp [atRead, hd, hlen.ne'], Nat.lt_succ_self _, ?_⟩
      have htext : Source.text (.datagrams (d :: ds)) = d.2 ++ Source.text (.datagrams ds) := by
        simp [Source.text, hd]
      rw [htext]
      by_cases hshort : d.2.length < len
      · exact .inl (by simp [atRead, take_of_length_le hshort.le, hshort])
      · right
        simp only [atRead, length_take, length_append]
        omega

theorem full_readLoop (h : g.buf ≠ [] ∧ 0 < g.tot) :
    (readLoop ai reads src g).buf ≠ [] ∧ 0 < (readLoop ai reads src g).tot := by
  induction reads generalizing src g with
  | zero => exact h
  | succ reads ih =>
    simp only [readLoop]
    split_ifs with hdata hfull
    · exact h
    · exact ih ⟨by simp [h.1], by simp only; omega⟩
    · exact ih ⟨h.1, by simp only; omega⟩

theorem same_readLoop (reads : ℕ) (hsrc : src.From ai) (h : ai.Same g.sender) :
    ai.Same (readLoop ai reads src g).sender := by
  induction reads generalizing src g with
  | zero => exact h
  | succ reads ih =>
    have hread : ai.Same (atRead ai g.sender (bufsiz - g.tmp.length) src).1 ∧
        (atRead ai g.sender (bufsiz - g.tmp.length) src).2.2.From ai := by
      cases src with
      | stream bytes arrived => exact ⟨⟨rfl, rfl⟩, trivial⟩
      | datagrams ds =>
        cases ds with
        | nil => exact ⟨h, hsrc⟩
        | cons d ds => exact forall_mem_cons.mp hsrc
    simp only [readLoop]
    split_ifs
    · exact hread.1
    · exact ih hread.2 hread.1
    · exact ih hread.2 hread.1

/-- **The loop.** Less than a window of data is read completely and stays there; otherwise there is
a heap buffer in the end. -/
theorem readLoop_spec (ai : Sockaddr) (hreads : src.size < reads) (hbuf : g.buf = [])
    (hroom : g.tmp.length < bufsiz) :
    (g.tmp.length + src.text.length < bufsiz → ∃ sender, readLoop ai reads src g =
      ⟨sender, g.tmp ++ src.text, [], g.tot + src.text.length⟩) ∧
    (bufsiz ≤ g.tmp.length + src.text.length →
      (readLoop ai reads src g).buf ≠ [] ∧ 0 < (readLoop ai reads src g).tot) := by
  induction reads generalizing src g with
  | zero => omega
  | succ reads ih =>
    have hread := atRead_cases ai g.sender (Nat.sub_pos_of_lt hroom) src
    simp only [readLoop]
    generalize atRead ai g.sender (bufsiz - g.tmp.length) src = r at hread ⊢
    obtain ⟨sender, data, rest⟩ := r
    dsimp only at hread ⊢
    obtain ⟨htext, hdata⟩ | ⟨hdata, hsize, ⟨hlt, htext⟩ | ⟨hlen, hle⟩⟩ := hread
    · simp [htext, hdata, hroom, hbuf]
    · -- The data stays in the window.
      have hsum : (g.tmp ++ data).length = g.tmp.length + data.length := length_append
      have hrest := @ih rest ⟨sender, g.tmp ++ data, g.buf, g.tot + data.length⟩ (by omega) hbuf
        (by dsimp only; omega)
      rw [if_neg hdata, if_neg (by omega), htext, length_append, ← append_assoc]
      simpa only [hsum, Nat.add_assoc] using hrest
    · rw [if_neg hdata, if_pos (by rw [length_append]; omega)]
      refine ⟨fun hlt => absurd hlt (by omega), fun _ => full_readLoop ⟨by simp [hdata], ?_⟩⟩
      dsimp only
      omega

/-- **Reported completely.** What a socket has from the peer of its link is printed completely, with
no buffer left behind, if and only if it is less than a window and has nothing behind an empty
datagram. -/
theorem receive_complete_iff (c : Link) (src : Source) (hpeer : src.From c.ai) :
    (atTcpipReceive c src).Complete c.pass src.available ↔
      src.available.length < bufsiz ∧ src.text = src.available := by
  obtain ⟨hread, hfull⟩ := readLoop_spec (g := ⟨c.ai, [], [], 0⟩) c.ai
    (Nat.lt_succ_self src.size) rfl (by simp [bufsiz])
  have hsame := same_readLoop (g := ⟨c.ai, [], [], 0⟩) (src.size + 1) hpeer ⟨rfl, rfl⟩
  simp only [length_nil, Nat.zero_add, nil_append] at hread hfull
  by_cases hlen : src.text.length < bufsiz
  · obtain ⟨sender, heq⟩ := hread hlen
    rw [heq] at hsame
    have hall : (atTcpipReceive c src).Complete c.pass src.text := by
      by_cases hnil : src.text = []
      · simp [atTcpipReceive, heq, Received.Complete, hnil]
      · simp [atTcpipReceive, heq, Received.Complete, hnil, hsame]
    refine ⟨fun h => ?_, fun h => h.2 ▸ hall⟩
    have htext := hall.1.symm.trans h.1
    exact ⟨htext ▸ hlen, htext⟩
  · obtain ⟨hbuf, htot⟩ := hfull (Nat.le_of_not_lt hlen)
    refine iff_of_false (fun h => ?_) fun h => hlen (h.2 ▸ h.1)
    have hleak := h.2.2
    simp [atTcpipReceive, htot.ne', hsame, hbuf] at hleak

def fixedLink : Link := ⟨⟨⟨1, 80, 0⟩, false, .fixed⟩, true, false⟩

theorem from_fixedLink (d d' : List Byte) :
    Source.From fixedLink.ai (.datagrams [(fixedLink.ai, d), (fixedLink.ai, d')]) :=
  forall_mem_cons.mpr ⟨⟨rfl, rfl⟩, forall_mem_singleton.mpr ⟨rfl, rfl⟩⟩

/-- Two short datagrams are reported completely. -/
theorem two_datagrams_complete :
    (atTcpipReceive fixedLink (.datagrams [(fixedLink.ai, [0x61, 0x62]),
      (fixedLink.ai, [0x63])])).Complete false [0x61, 0x62, 0x63] :=
  (receive_complete_iff fixedLink _ (from_fixedLink [0x61, 0x62] [0x63])).mpr (by decide)

/-- **A datagram is cut.** Of two datagrams of 1000 and 100 bytes, 1024 bytes are announced and
printed, and the heap buffer is left behind. -/
theorem second_datagram_cut :
    let src := Source.datagrams
      [(fixedLink.ai, replicate 1000 0x61), (fixedLink.ai, replicate 100 0x62)]
    let r := atTcpipReceive fixedLink src
    src.From fixedLink.ai ∧ r.header = some 1024 ∧ r.printed.length = 1024 ∧ r.leaked = true ∧
      ¬r.Complete fixedLink.pass src.available := by
  intro src r
  have hleaked : r.leaked = true := by decide +kernel
  refine ⟨from_fixedLink _ _, by decide +kernel, by decide +kernel, hleaked, fun h => ?_⟩
  exact nomatch hleaked.symm.trans h.2.2

end WiseSdk.At.Receive
