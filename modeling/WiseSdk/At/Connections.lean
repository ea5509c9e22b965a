import Mathlib.Data.List.Nodup
import WiseSdk.Library.Runs

/-!
# Connections of the AT command interpreter

`lib/at/at-tcpip.c` keeps the open connections in `conns` and the number that may still be opened in
`g_socket_free_count`. AT+CIPSTART opens one, AT+CIPCLOSE closes one, and `at_tcpip_receive` closes
the one whose peer has gone.

What a connection holds (an address list, a list of transports, a UDP socket) is a resource with a
serial number. The state records which resources were obtained and which released, with repetition,
so that a second release shows. `esp_transport_close` leaves the transport as it is;
`esp_transport_list_destroy` releases a list and its transports.

Memory is there when asked for. What the name resolution, the sockets and the event loop answer are
arguments. A failed assertion leaves no state.
-/

namespace WiseSdk.At.Connections

open Library List Option

/-! ## The model -/

def atSocketMaxConnNum : ℕ := 5

/-- `AT_RESULT_CODE_OK` and `AT_RESULT_CODE_ERROR`. -/
def resultOk : ℤ := 0
def resultError : ℤ := 1

theorem resultError_ne : resultError ≠ resultOk := by decide

inductive ConnType where
  | tcp
  | udp
  | ssl
deriving DecidableEq

def connType (protocol : String) : Option ConnType :=
  if protocol = "TCP" then some .tcp
  else if protocol = "UDP" then some .udp
  else if protocol = "SSL" then some .ssl
  else none

/-- `ai_family` of an address list. -/
inductive Family where
  | inet
  | inet6
  | other
deriving DecidableEq

/-- The families `at_udp_connect` knows; `ipv6` is `CONFIG_LWIP_IPV6`. -/
def Family.known (ipv6 : Bool) : Family → Bool
  | .inet => true
  | .inet6 => ipv6
  | .other => false

inductive Kind where
  | addrList
  | transport
  | transportList
  | socket
deriving DecidableEq

structure Resource where
  kind : Kind
  serial : ℕ
deriving DecidableEq

/-- A list of transports and what is in it. -/
structure TransportList where
  handle : Resource
  items : List Resource

/-- `struct conn`; `sock` is the socket of `fd` on a UDP connection. -/
structure Conn where
  id : ℤ
  fd : ℤ
  type : ConnType
  ai : Option Resource
  tlist : Option TransportList
  sock : Option Resource

structure World where
  freeCount : ℤ
  conns : List Conn
  obtained : List Resource
  released : List Resource
  out : List String

namespace World

def fresh (w : World) (k : Kind) : Resource := ⟨k, w.obtained.length⟩

def obtain (w : World) (k : Kind) : World := { w with obtained := w.fresh k :: w.obtained }

def release (w : World) (rs : List Resource) : World := { w with released := rs ++ w.released }

/-- `at_printf`. -/
def print (w : World) (text : String) : World := { w with out := w.out ++ [text] }

end World

/-- What `esp_transport_list_destroy` releases. -/
def TransportList.all (tl : TransportList) : List Resource := tl.items ++ [tl.handle]

def atCloseConn (w : World) (c : Conn) : World :=
  let w := w.print (toString c.id ++ ",CLOSED\r\n")
  let w := w.release c.ai.toList
  let w := w.release (c.tlist.elim [] TransportList.all)
  let w := if 0 < c.fd ∧ c.type = .udp then w.release c.sock.toList else w
  { w with freeCount := w.freeCount + 1 }

/-- What the outside answers to AT+CIPSTART: the family of the resolved name, if it is resolved;
`esp_transport_connect` and `esp_transport_get_socket`; `socket`, `bind` and `register_socket`. -/
structure Answers where
  resolve : Option Family
  connect : ℤ
  getSocket : ℤ
  socket : ℤ
  bind : ℤ
  register : ℤ

/-- Transports made and added to a list. -/
def addTransports (w : World) (tl : TransportList) : ℕ → World × TransportList
  | 0 => (w, tl)
  | n + 1 => addTransports (w.obtain .transport)
      { tl with items := tl.items ++ [w.fresh .transport] } n

/-- A connection over the last of `n` transports. -/
def transportConnect (n : ℕ) (w : World) (c : Conn) (id : ℤ) (ans : Answers) : ℤ × Conn × World :=
  let made := addTransports (w.obtain .transportList) ⟨w.fresh .transportList, []⟩ n
  if ans.connect = resultOk then
    (resultOk, { c with id := id, tlist := some made.2, fd := ans.getSocket }, made.1)
  else (ans.connect, c, made.1.release made.2.all)

/-- `at_tcp_connect`: one transport. -/
def atTcpConnect : World → Conn → ℤ → Answers → ℤ × Conn × World := transportConnect 1

/-- `at_tcp_ssl_connect`: a plain transport, which is not used, and one with TLS. -/
def atTcpSslConnect : World → Conn → ℤ → Answers → ℤ × Conn × World := transportConnect 2

/-- `at_udp_connect`.  On an error the address list is released, and stays in the connection. -/
def atUdpConnect (ipv6 : Bool) (w : World) (c : Conn) (id : ℤ) (family : Family) (ans : Answers) :
    ℤ × Conn × World :=
  let c := { c with fd := ans.socket }
  if ans.socket < 0 then (resultError, c, w.release c.ai.toList)
  else
    let c := { c with sock := some (w.fresh .socket) }
    let w := w.obtain .socket
    if ¬family.known ipv6 then (resultError, c, w.release c.ai.toList)
    else if ans.bind < 0 then
      (resultError, c, (w.print (toString id ++ ",CLOSED\r\n")).release c.ai.toList)
    else (resultOk, { c with id := id }, w)

/-- The connection is made by the function of its type. -/
def connectAs (ipv6 : Bool) (type : ConnType) (w : World) (c : Conn) (id : ℤ) (family : Family)
    (ans : Answers) : ℤ × Conn × World :=
  match type with
  | .tcp => atTcpConnect w c id ans
  | .ssl => atTcpSslConnect w c id ans
  | .udp => atUdpConnect ipv6 w c id family ans

/-- `at_cipstart_set` behind the connect function, whose result is `made`. -/
def finishStart (made : ℤ × Conn × World) (register : ℤ) : Option (ℤ × World) :=
  let c := made.2.1
  let w := made.2.2
  if made.1 ≠ resultOk then some (resultError, atCloseConn w c)
  else if c.fd ≤ 0 then none
  else if register < 0 then some (resultError, atCloseConn w c)
  else some (resultOk, { w with conns := w.conns ++ [c] }.print
    ("link id: " ++ toString c.id ++ ", CONNECT\r\n"))

def atCipstartSet (ipv6 : Bool) (w : World) (id : ℤ) (protocol : String) (ans : Answers) :
    Option (ℤ × World) :=
  if w.freeCount ≤ 0 then some (resultError, w)
  else if w.conns.any fun c => c.id = id then some (resultError, w)
  else match connType protocol with
    | none => some (resultError, w)
    | some type =>
      let c : Conn := ⟨0, 0, type, none, none, none⟩
      let w := { w with freeCount := w.freeCount - 1 }
      match ans.resolve with
      | none => some (resultError, atCloseConn w c)
      | some family =>
        let c := { c with ai := some (w.fresh .addrList) }
        finishStart (connectAs ipv6 type (w.obtain .addrList) c id family ans) ans.register

/-- `at_cipclose_set`; `unregister` is what `unregister_socket` returns. -/
def atCipcloseSet (w : World) (id : ℤ) (unregister : ℤ) : ℤ × World :=
  match w.conns.find? fun c => c.id = id with
  | none => (resultError, w.print "UNLINK\r\n")
  | some c =>
    if c.fd ≤ 0 then (resultError, w.print "UNLINK\r\n")
    else if unregister < 0 then (resultError, w)
    else
      let w := { w with conns := w.conns.eraseP fun c => c.id = id }
      let w := atCloseConn w c
      (resultOk, { w with freeCount := w.freeCount + 1 })

/-- `at_tcpip_receive`; `tot` bytes are read before a read returns nothing. If there are any, they
are printed and the connection stays; with none, the peer has disconnected. -/
def atTcpipReceive (w : World) (sock : ℤ) (tot : ℕ) : World :=
  match w.conns.find? fun c => c.fd = sock with
  | none => w
  | some c =>
    if 0 < tot then w
    else atCloseConn { w with conns := w.conns.eraseP fun c => c.fd = sock } c

inductive Action where
  | cipstart (id : ℤ) (protocol : String) (ans : Answers)
  | cipclose (id : ℤ) (unregister : ℤ)
  | receive (sock : ℤ) (tot : ℕ)

def step (ipv6 : Bool) (w : World) : Action → Option World
  | .cipstart id protocol ans => (atCipstartSet ipv6 w id protocol ans).map Prod.snd
  | .cipclose id unregister => some (atCipcloseSet w id unregister).2
  | .receive sock tot => some (atTcpipReceive w sock tot)

def World.boot : World := ⟨atSocketMaxConnNum, [], [], [], []⟩

/-! ## Accounting -/

def Conn.resources (c : Conn) : List Resource :=
  c.ai.toList ++ (c.tlist.elim [] TransportList.all ++ c.sock.toList)

def World.live (w : World) : List Resource := w.conns.flatMap Conn.resources

/-- **The accounting.** The free connections and the open ones are all there are; no id is used
twice; and every resource ever obtained is held by one open connection and not released, or by none
and released once. -/
structure Sound (w : World) : Prop where
  balance : w.freeCount + w.conns.length = atSocketMaxConnNum
  ids : (w.conns.map Conn.id).Nodup
  once : ∀ r ∈ w.obtained, w.released.count r + w.live.count r = 1

/-- The resources add up while a command holds those in `loose`. -/
structure Ledger (w : World) (loose : List Resource) : Prop where
  sum : ∀ r, w.released.count r + w.live.count r + loose.count r = w.obtained.count r
  serials : ∀ r ∈ w.obtained, r.serial < w.obtained.length
  distinct : w.obtained.Nodup

/-- On an open UDP connection `fd` names its socket. -/
def Conn.Named (c : Conn) : Prop := c.sock = none ∨ 0 < c.fd ∧ c.type = .udp

structure Inv (w : World) : Prop where
  balance : w.freeCount + w.conns.length = atSocketMaxConnNum
  ids : (w.conns.map Conn.id).Nodup
  ledger : Ledger w []
  named : ∀ c ∈ w.conns, c.Named

theorem Inv.sound {w : World} (h : Inv w) : Sound w := by
  refine ⟨h.balance, h.ids, fun r hr => ?_⟩
  have hsum := h.ledger.sum r
  rw [count_eq_one_of_mem h.ledger.distinct hr, count_nil] at hsum
  exact hsum

/-! ### What the primitives do to the ledger -/

section Ledger

variable {w : World} {loose loose' rs : List Resource} {c : Conn}

theorem Ledger.congr (h : Ledger w loose) (hcount : ∀ r, loose.count r = loose'.count r)
    : Ledger w loose' :=
  ⟨fun r => by rw [← hcount]; exact h.sum r, h.serials, h.distinct⟩

theorem Ledger.fresh_not_mem (h : Ledger w loose) (k : Kind) : w.fresh k ∉ w.obtained :=
  fun hmem => absurd (h.serials _ hmem) (Nat.lt_irrefl _)

theorem Ledger.obtain (h : Ledger w loose) (k : Kind) :
    Ledger (w.obtain k) (w.fresh k :: loose) := by
  refine ⟨fun r => ?_, fun r hr => ?_, nodup_cons.mpr ⟨h.fresh_not_mem k, h.distinct⟩⟩
  · have hsum := h.sum r
    show w.released.count r + w.live.count r + (w.fresh k :: loose).count r =
      (w.fresh k :: w.obtained).count r
    rw [count_cons, count_cons]
    omega
  · show r.serial < (w.fresh k :: w.obtained).length
    rw [length_cons]
    rcases mem_cons.mp hr with rfl | hr
    · exact Nat.lt_succ_self _
    · exact Nat.lt_succ_of_lt (h.serials r hr)

theorem Ledger.release (h : Ledger w (rs ++ loose)) : Ledger (w.release rs) loose := by
  refine ⟨fun r => ?_, h.serials, h.distinct⟩
  have hsum := h.sum r
  show (rs ++ w.released).count r + w.live.count r + loose.count r = w.obtained.count r
  rw [count_append] at hsum ⊢
  omega

theorem Ledger.insert (h : Ledger w (c.resources ++ loose)) :
    Ledger { w with conns := w.conns ++ [c] } loose := by
  refine ⟨fun r => ?_, h.serials, h.distinct⟩
  have hsum := h.sum r
  simp only [World.live, flatMap_append, flatMap_cons, flatMap_nil,
    append_nil, count_append] at hsum ⊢
  omega

theorem Ledger.delete {p : Conn → Bool} (h : Ledger w loose) (hfind : w.conns.find? p = some c) :
    Ledger { w with conns := w.conns.eraseP p } (c.resources ++ loose) := by
  obtain ⟨hp, pre, post, heq, hpre⟩ := find?_eq_some_iff_append.mp hfind
  have herase : w.conns.eraseP p = pre ++ post := by
    rw [heq, eraseP_append_right _ (by simpa using hpre), eraseP_cons_of_pos hp]
  refine ⟨fun r => ?_, h.serials, h.distinct⟩
  have hsum := h.sum r
  show w.released.count r + ((w.conns.eraseP p).flatMap Conn.resources).count r +
    (c.resources ++ loose).count r = w.obtained.count r
  rw [World.live, heq] at hsum
  rw [herase]
  simp only [flatMap_append, flatMap_cons, count_append] at hsum ⊢
  omega

/-- `at_close_conn` releases what the connection holds. -/
theorem Ledger.close (h : Ledger w (c.resources ++ loose)) (hc : c.Named) :
    Ledger (atCloseConn w c) loose := by
  have hsock : Ledger w (c.ai.toList ++ (c.tlist.elim [] TransportList.all ++
      ((if 0 < c.fd ∧ c.type = .udp then c.sock.toList else []) ++ loose))) := by
    refine h.congr fun r => ?_
    have hsame : (if 0 < c.fd ∧ c.type = .udp then c.sock.toList else []) = c.sock.toList := by
      rcases hc with hnone | hnamed
      · simp [hnone]
      · rw [if_pos hnamed]
    simp only [hsame, Conn.resources, count_append]
    omega
  have hthree := hsock.release.release.release
  unfold atCloseConn
  simp only
  split_ifs at hthree ⊢ <;> exact { hthree with }

end Ledger

@[simp] theorem conns_atCloseConn (w : World) (c : Conn) :
    (atCloseConn w c).conns = w.conns := by
  unfold atCloseConn
  simp only
  split_ifs <;> rfl

@[simp] theorem freeCount_atCloseConn (w : World) (c : Conn) :
    (atCloseConn w c).freeCount = w.freeCount + 1 := by
  unfold atCloseConn
  simp only
  split_ifs <;> rfl

/-! ## Verdicts on the commands -/

/-- A UDP connection whose name is resolved gets its socket and its port, and no AT+CIPCLOSE gets
through. -/
def Guard (ipv6 : Bool) (w : World) : Action → Prop
  | .cipstart id protocol ans =>
    0 < w.freeCount → (∀ c ∈ w.conns, c.id ≠ id) → connType protocol = some .udp →
      ∀ family, ans.resolve = some family →
        0 ≤ ans.socket ∧ family.known ipv6 ∧ 0 ≤ ans.bind
  | .cipclose id unregister =>
    ∀ c, (w.conns.find? fun c => c.id = id) = some c → 0 < c.fd → unregister < 0
  | .receive _ _ => True

abbrev Judged (G : Prop) (r : Option World) : Prop := Verdict Inv Sound G r

section Verdicts

variable {w : World}

theorem Inv.print (h : Inv w) (text : String) : Inv (w.print text) :=
  { h with ledger := { h.ledger with } }

variable {c : Conn}

/-- An open connection that is closed and counted once. -/
theorem Inv.close {p : Conn → Bool} (h : Inv w) (hfind : w.conns.find? p = some c) :
    Inv (atCloseConn { w with conns := w.conns.eraseP p } c) := by
  have hmem : c ∈ w.conns := mem_of_find?_eq_some hfind
  have hlen : (w.conns.eraseP p).length + 1 = w.conns.length :=
    length_eraseP_add_one hmem (find?_some hfind)
  refine ⟨?_, ?_, ?_, fun c' hc' => ?_⟩
  · have hbalance := h.balance
    rw [freeCount_atCloseConn, conns_atCloseConn]
    show w.freeCount + 1 + (w.conns.eraseP p).length = atSocketMaxConnNum
    omega
  · rw [conns_atCloseConn]
    exact h.ids.sublist (eraseP_sublist.map _)
  · have hdelete := h.ledger.delete hfind
    exact hdelete.close (h.named c hmem)
  · rw [conns_atCloseConn] at hc'
    exact h.named c' (mem_of_mem_eraseP hc')

theorem judged_receive (h : Inv w) (ipv6 : Bool) (sock : ℤ) (tot : ℕ) :
    Judged (Guard ipv6 w (.receive sock tot)) (step ipv6 w (.receive sock tot)) := by
  refine verdict_of_inv trivial ?_
  unfold atTcpipReceive
  cases hfind : w.conns.find? fun c => c.fd = sock with
  | none => exact h
  | some c =>
    simp only
    split_ifs
    · exact h
    · exact h.close hfind

/-- **AT+CIPCLOSE counts twice**: once in `at_close_conn` and once itself. -/
theorem judged_cipclose (h : Inv w) (ipv6 : Bool) (id unregister : ℤ) :
    Judged (Guard ipv6 w (.cipclose id unregister)) (step ipv6 w (.cipclose id unregister)) := by
  simp only [step, Guard, atCipcloseSet]
  cases hfind : w.conns.find? fun c => c.id = id with
  | none => exact verdict_of_inv (fun c hc => absurd hc (by simp)) (h.print _)
  | some c =>
    simp only
    split_ifs with hfd hun
    · refine verdict_of_inv (fun c' hc' hpos => ?_) (h.print _)
      cases hc'
      omega
    · exact verdict_of_inv (fun _ _ _ => hun) h
    refine verdict_of_not_sound (fun hguard => hun (hguard c rfl (Int.not_le.mp hfd))) ?_
    intro hsound
    have hclosed := (h.close hfind).balance
    have hbalance := hsound.balance
    simp only [freeCount_atCloseConn, conns_atCloseConn] at hclosed hbalance
    omega

/-! ### AT+CIPSTART -/

theorem addTransports_spec {loose : List Resource} (n : ℕ) {tl : TransportList}
    (h : Ledger w (tl.all ++ loose)) :
    Ledger (addTransports w tl n).1 ((addTransports w tl n).2.all ++ loose) ∧
      (addTransports w tl n).1.conns = w.conns ∧
      (addTransports w tl n).1.freeCount = w.freeCount := by
  induction n generalizing w tl with
  | zero => exact ⟨h, rfl, rfl⟩
  | succ n ih =>
    have hmore : Ledger (w.obtain .transport)
        (TransportList.all { tl with items := tl.items ++ [w.fresh .transport] } ++ loose) := by
      refine (h.obtain .transport).congr fun r => ?_
      simp only [TransportList.all, count_append, count_cons, count_nil]
      omega
    exact ih hmore

/-- What a connect function leaves: the connection holds all that was obtained for it. -/
structure Made (w : World) (type : ConnType) (id : ℤ) (m : ℤ × Conn × World) : Prop where
  conns : m.2.2.conns = w.conns
  freeCount : m.2.2.freeCount = w.freeCount
  ledger : Ledger m.2.2 m.2.1.resources
  type_eq : m.2.1.type = type
  sock : m.2.1.sock = none ∨ type = .udp ∧ m.1 = resultOk
  id_eq : m.1 = resultOk → m.2.1.id = id

variable {ai : Resource}

theorem transportConnect_made (h : Ledger w [ai]) (n : ℕ) (type : ConnType) (id : ℤ)
    (ans : Answers) :
    Made w type id (transportConnect n w ⟨0, 0, type, some ai, none, none⟩ id ans) := by
  have hlist : Ledger (w.obtain .transportList)
      (TransportList.all ⟨w.fresh .transportList, []⟩ ++ [ai]) := h.obtain .transportList
  obtain ⟨hledger, hconns, hfree⟩ := addTransports_spec n hlist
  unfold transportConnect
  simp only
  split_ifs with hconnect
  · refine ⟨hconns, hfree, hledger.congr fun r => ?_, rfl, .inl rfl, fun _ => rfl⟩
    simp only [Conn.resources, elim_some, toList_some, toList_none, count_append, count_nil]
    omega
  · exact ⟨hconns, hfree, hledger.release, rfl, .inl rfl, fun hok => absurd hok hconnect⟩

variable {ans : Answers} {family : Family}

theorem atUdpConnect_made (h : Ledger w [ai]) (ipv6 : Bool) (id : ℤ)
    (hgood : 0 ≤ ans.socket ∧ family.known ipv6 ∧ 0 ≤ ans.bind) :
    Made w .udp id (atUdpConnect ipv6 w ⟨0, 0, .udp, some ai, none, none⟩ id family ans) := by
  obtain ⟨hsocket, hknown, hbind⟩ := hgood
  simp only [atUdpConnect, if_neg (Int.not_lt.mpr hsocket), hknown, not_true, if_false,
    if_neg (Int.not_lt.mpr hbind)]
  refine ⟨rfl, rfl, (h.obtain .socket).congr fun r => ?_, rfl, .inr ⟨rfl, rfl⟩, fun _ => rfl⟩
  simp only [Conn.resources, elim_none, toList_some, count_append, count_cons, count_nil]
  omega

/-- **A UDP connection that fails** has released its address list and still points to it. -/
theorem atUdpConnect_failed (ipv6 : Bool) (ai : Resource) (id : ℤ)
    (hbad : ¬(0 ≤ ans.socket ∧ family.known ipv6 ∧ 0 ≤ ans.bind)) :
    let m := atUdpConnect ipv6 w ⟨0, 0, .udp, some ai, none, none⟩ id family ans
    m.1 ≠ resultOk ∧ m.2.1.ai = some ai ∧ ai ∈ m.2.2.released ∧
      ∀ r ∈ w.obtained, r ∈ m.2.2.obtained := by
  simp only [atUdpConnect]
  split_ifs with hsocket hknown hbind
  · exact ⟨resultError_ne, rfl, by simp [World.release], fun r hr => hr⟩
  · exact ⟨resultError_ne, rfl, by simp [World.release], fun r hr => mem_cons_of_mem _ hr⟩
  · exact absurd ⟨Int.not_lt.mp hsocket, hknown, Int.not_lt.mp hbind⟩ hbad
  · exact ⟨resultError_ne, rfl, by simp [World.release], fun r hr => mem_cons_of_mem _ hr⟩

/-- `at_close_conn` releases the address list the connection points to. -/
theorem count_released_atCloseConn (hai : c.ai = some ai) :
    w.released.count ai + 1 ≤ (atCloseConn w c).released.count ai := by
  simp only [atCloseConn, hai, World.release, World.print, toList_some]
  split_ifs <;> simp only [count_append, count_singleton_self] <;> omega

theorem obtained_atCloseConn (w : World) (c : Conn) : (atCloseConn w c).obtained = w.obtained := by
  unfold atCloseConn
  simp only
  split_ifs <;> rfl

/-- **The common exit releases the address list again.** -/
theorem atUdpConnect_unsound (h : Ledger w [ai]) (ipv6 : Bool) (id : ℤ)
    (hbad : ¬(0 ≤ ans.socket ∧ family.known ipv6 ∧ 0 ≤ ans.bind)) :
    let m := atUdpConnect ipv6 w ⟨0, 0, .udp, some ai, none, none⟩ id family ans
    m.1 ≠ resultOk ∧ ¬Sound (atCloseConn m.2.2 m.2.1) := by
  obtain ⟨hfail, hstill, hreleased, hobtained⟩ := atUdpConnect_failed ipv6 ai id hbad
  refine ⟨hfail, fun hsound => ?_⟩
  have hmem : ai ∈ w.obtained := by
    have hsum := h.sum ai
    rw [count_singleton_self] at hsum
    exact count_pos_iff.mp (by omega)
  have honce := hsound.once ai (by rw [obtained_atCloseConn]; exact hobtained ai hmem)
  have hfirst := count_pos_iff.mpr hreleased
  have hsecond := count_released_atCloseConn (w := (atUdpConnect ipv6 w
    ⟨0, 0, .udp, some ai, none, none⟩ id family ans).2.2) hstill
  omega

section

variable {v : World} (h : Inv w) (hconns : v.conns = w.conns)
  (hfree : v.freeCount = w.freeCount - 1) (hledger : Ledger v c.resources) (hc : c.Named)

include h hconns hfree hledger hc

/-- A connection that was begun, and is closed before it is in the list. -/
theorem Inv.abandon : Inv (atCloseConn v c) := by
  refine ⟨?_, ?_, ?_, ?_⟩
  · have hbalance := h.balance
    rw [freeCount_atCloseConn, conns_atCloseConn, hconns, hfree]
    omega
  · rw [conns_atCloseConn, hconns]
    exact h.ids
  · exact Ledger.close (by rwa [append_nil]) hc
  · rw [conns_atCloseConn, hconns]
    exact h.named

/-- A connection that was begun and is added to the list. -/
theorem Inv.add (hid : ∀ c' ∈ w.conns, c'.id ≠ c.id) : Inv { v with conns := v.conns ++ [c] } := by
  refine ⟨?_, ?_, ?_, fun c' hc' => ?_⟩
  · have hbalance := h.balance
    rw [hconns, hfree, length_append, length_singleton]
    omega
  · rw [hconns, map_append, nodup_append]
    refine ⟨h.ids, nodup_singleton _, fun i hi j hj hij => ?_⟩
    obtain ⟨c', hc', rfl⟩ := List.mem_map.mp hi
    exact hid c' hc' (hij.trans (mem_singleton.mp hj))
  · exact Ledger.insert (by rwa [append_nil])
  · rcases mem_append.mp hc' with hc' | hc'
    · rw [hconns] at hc'
      exact h.named c' hc'
    · rw [mem_singleton.mp hc']
      exact hc

end

/-- AT+CIPSTART from the resolved name on, when the connect function does its part. -/
theorem judged_started {G : Prop} {v : World} {type : ConnType} {id : ℤ} {m : ℤ × Conn × World}
    (h : Inv w) (hv : v.conns = w.conns) (hfree : v.freeCount = w.freeCount - 1)
    (hm : Made v type id m) (hid : ∀ c ∈ w.conns, c.id ≠ id) (register : ℤ) (hG : G) :
    Judged G ((finishStart m register).map Prod.snd) := by
  unfold finishStart
  have hconns := hm.conns.trans hv
  have hcount := hm.freeCount.trans hfree
  have hnamed (hfd : ¬m.2.1.fd ≤ 0) : m.2.1.Named :=
    hm.sock.imp_right fun hudp => ⟨Int.not_le.mp hfd, hm.type_eq.trans hudp.1⟩
  simp only
  split_ifs with hfail hfd
  · have hnamed : m.2.1.Named := .inl (hm.sock.resolve_right fun hudp => hfail hudp.2)
    exact verdict_of_inv hG (h.abandon hconns hcount hm.ledger hnamed)
  · exact hG
  · exact verdict_of_inv hG (h.abandon hconns hcount hm.ledger (hnamed hfd))
  · refine verdict_of_inv hG (Inv.print (h.add hconns hcount hm.ledger (hnamed hfd) ?_) _)
    rw [hm.id_eq (not_not.mp hfail)]
    exact hid

theorem judged_cipstart (h : Inv w) (ipv6 : Bool) (id : ℤ) (protocol : String) (ans : Answers) :
    Judged (Guard ipv6 w (.cipstart id protocol ans))
      (step ipv6 w (.cipstart id protocol ans)) := by
  simp only [step, Guard, atCipstartSet]
  split_ifs with hfull hused
  · exact verdict_of_inv (fun hpos => absurd hpos (Int.not_lt.mpr hfull)) h
  · refine verdict_of_inv (fun _ hid => ?_) h
    obtain ⟨c, hc, heq⟩ := List.any_eq_true.mp hused
    exact absurd (by simpa using heq) (hid c hc)
  have hid : ∀ c ∈ w.conns, c.id ≠ id := by
    intro c hc heq
    exact hused (List.any_eq_true.mpr ⟨c, hc, by simpa using heq⟩)
  cases htype : connType protocol with
  | none => exact verdict_of_inv (fun _ _ hudp => absurd hudp (by simp)) h
  | some type =>
    have hbegun : Ledger { w with freeCount := w.freeCount - 1 } [] :=
      { h.ledger with }
    cases hres : ans.resolve with
    | none =>
      refine verdict_of_inv (fun _ _ _ family hsome => absurd hsome (by simp)) ?_
      exact h.abandon rfl rfl hbegun (.inl rfl)
    | some family =>
      simp only
      have hai := hbegun.obtain .addrList
      generalize World.fresh { w with freeCount := w.freeCount - 1 } .addrList = ai at hai ⊢
      generalize hv : World.obtain { w with freeCount := w.freeCount - 1 } .addrList = v
        at hai ⊢
      have hconns : v.conns = w.conns := by rw [← hv, World.obtain]
      have hcount : v.freeCount = w.freeCount - 1 := by rw [← hv, World.obtain]
      cases type with
      | tcp =>
        exact judged_started h hconns hcount (transportConnect_made hai 1 .tcp id ans) hid
          _ fun _ _ hudp => absurd hudp (by simp)
      | ssl =>
        exact judged_started h hconns hcount (transportConnect_made hai 2 .ssl id ans) hid
          _ fun _ _ hudp => absurd hudp (by simp)
      | udp =>
        by_cases hgood : 0 ≤ ans.socket ∧ family.known ipv6 ∧ 0 ≤ ans.bind
        · refine judged_started h hconns hcount (atUdpConnect_made hai ipv6 id hgood) hid _ ?_
          intro _ _ _ family' hfamily
          cases hfamily
          exact hgood
        · obtain ⟨hfail, hunsound⟩ := atUdpConnect_unsound hai ipv6 id hgood
          rw [finishStart, if_pos (by exact hfail)]
          exact verdict_of_not_sound (fun hguard => hgood
            (hguard (Int.not_le.mp hfull) hid rfl family rfl)) hunsound

end Verdicts

/-! ## The result -/

theorem judged_step {w : World} (h : Inv w) (ipv6 : Bool) (a : Action) :
    Judged (Guard ipv6 w a) (step ipv6 w a) := by
  cases a with
  | cipstart id protocol ans => exact judged_cipstart h ipv6 id protocol ans
  | cipclose id unregister => exact judged_cipclose h ipv6 id unregister
  | receive sock tot => exact judged_receive h ipv6 sock tot

theorem inv_boot : Inv World.boot := by
  refine ⟨rfl, nodup_nil, ⟨fun r => rfl, ?_, nodup_nil⟩, ?_⟩
  · exact fun r hr => absurd hr not_mem_nil
  · exact fun c hc => absurd hc not_mem_nil

/-- **Exactly when the accounting holds.** In every run of AT+CIPSTART, AT+CIPCLOSE and
disconnections it holds in every state reached if and only if every command meets the condition
where it is given. -/
theorem connection_accounting_iff (ipv6 : Bool) (acts : List Action) :
    (∀ pre w, pre <+: acts → runSteps (step ipv6) World.boot pre = some w → Sound w) ↔
      StepsMeet (step ipv6) (Guard ipv6) World.boot acts :=
  sound_reached_iff Inv (fun _ h => h.sound) (fun _ a h => judged_step h ipv6 a) inv_boot acts

def allWell : Answers := ⟨some .inet, 0, 3, 3, 0, 0⟩

def BreaksAccounting (ipv6 : Bool) (acts : List Action) : Prop :=
  ∃ w, runSteps (step ipv6) World.boot acts = some w ∧ ¬Sound w

def openAndClose : List Action := [.cipstart 1 "TCP" allWell, .cipclose 1 0]

/-- A UDP connection to a known host cannot have its local port. -/
def portTaken : List Action := [.cipstart 1 "UDP" { allWell with bind := -1 }]

/-- **Two ways to break the accounting.** Six connections may be opened after one was closed; the
address list of a failed UDP connection is released twice. -/
theorem accounting_broken :
    BreaksAccounting true openAndClose ∧ BreaksAccounting true portTaken := by
  have hrun : ∀ (acts : List Action) (h : (runSteps (step true) World.boot acts).isSome),
      runSteps (step true) World.boot acts = some (Option.get _ h) :=
    fun _ _ => (some_get _).symm
  constructor
  · refine ⟨_, hrun openAndClose (by decide +kernel), fun hsound => ?_⟩
    exact absurd hsound.balance (by decide +kernel)
  · refine ⟨_, hrun portTaken (by decide +kernel), fun hsound => ?_⟩
    exact absurd (hsound.once ⟨.addrList, 0⟩ (by decide +kernel)) (by decide +kernel)

end WiseSdk.At.Connections
