import Mathlib.Data.List.Nodup
import WiseSdk.Scdc.RxCallback

/-!
# Who refers to the space of a frame

The invariant of the receive path.  The outstanding packets of a pipe are those received and not
purged; only nodes of the stack refer to a space, the first of them carries the free callback and a
second one is its successor; the buffers and descriptors kept ready belong to no frame yet.

Each operation on the state has its lemma here: a purge takes a packet out of its list, a frame that
is received is pending until it is purged or attached, and the driver's preparations change nothing
for the frames that are above.
-/

namespace WiseSdk.ScdcRx

open List Function

/-! ## The invariant -/

/-- The outstanding packets are those received and not purged, and one of a list at most is
wrapped. -/
structure Lists (st : Rx) : Prop where
  live : ∀ o p, p ∈ (st.outPkts o).map OutPkt.pkt ↔
    .fifo o p ∈ st.received ∧ st.purged (.fifo o p) = false
  nodup : ∀ o, ((st.outPkts o).map OutPkt.pkt).Nodup
  wrapped : ∀ o, (st.outPkts o).countP OutPkt.isWrapped ≤ 1

/-- Only nodes of the stack refer to a space; each space has one first node, with the callback, and
any other that refers to it is the `m_next` of that one. -/
structure Nodes (st : Rx) : Prop where
  idle : ∀ id e, (st.mbufs id).owner ≠ .stack → (st.mbufs id).ext = some e →
    e.refers = none ∧ ∀ sp, e.free = some sp → st.purged sp = true
  held : ∀ id e, (st.mbufs id).owner = .stack → (st.mbufs id).ext = some e →
    ∃ sp, sp ∈ st.received ∧ (e = ⟨some sp, some sp⟩ ∨ e = ⟨some sp, none⟩)
  first : ∀ i j sp, (st.mbufs i).ext = some ⟨some sp, some sp⟩ →
    (st.mbufs j).ext = some ⟨some sp, some sp⟩ → i = j
  guest : ∀ j sp, (st.mbufs j).ext = some ⟨some sp, none⟩ →
    ∃ i, (st.mbufs i).ext = some ⟨some sp, some sp⟩ ∧ (st.mbufs i).next = some j
  link : ∀ i j, (st.mbufs i).owner ≠ .pool → (st.mbufs i).next = some j →
    ∃ sp, (st.mbufs i).ext = some ⟨some sp, some sp⟩ ∧ (st.mbufs j).ext = some ⟨some sp, none⟩

/-- The buffers and descriptors the driver keeps ready, and what is fresh. -/
structure Bufs (st : Rx) : Prop where
  desc : ∀ o id, st.bufDesc o = some id → (st.mbufs id).owner = .driver
  descInj : ∀ o o' id, st.bufDesc o = some id → st.bufDesc o' = some id → o = o'
  cache : ∀ o c, st.cacheBuf o = some c → c < st.caches ∧ ∀ id, ¬st.Refers id (.cache c)
  cacheInj : ∀ o o' c, st.cacheBuf o = some c → st.cacheBuf o' = some c → o = o'
  freshPkt : ∀ o p, .fifo o p ∈ st.received → p < st.pkts
  freshCache : ∀ c, .cache c ∈ st.received → c < st.caches
  purged : ∀ sp, st.purged sp = true → sp ∈ st.received

/-- The invariant without the property. -/
structure Core (st : Rx) : Prop where
  lists : Lists st
  nodes : Nodes st
  bufs : Bufs st

/-- A frame was received and its space is still to be purged or attached. -/
structure Pending (st : Rx) (sp : Space) : Prop where
  core : Core st
  mem : sp ∈ st.received
  unpurged : st.purged sp = false
  free : ∀ id, ¬st.Refers id sp
  others : ∀ sp' ∈ st.received, sp' ≠ sp → (st.purged sp' = true ↔ ∀ id, ¬st.Refers id sp')

/-- The invariant of a state. -/
structure Inv (st : Rx) : Prop where
  core : Core st
  sound : Sound st

/-! ## Taking a packet out of its list -/

section Lists

variable {l : List OutPkt} {p : ℕ}

end Lists

section Purge

variable {st st' t : Rx} {sp sp' : Space} {L : ℕ → List OutPkt} {held : Option ℕ} {l : List OutPkt}

/-! ## A purge -/

def Rx.purge (st : Rx) (L : ℕ → List OutPkt) (sp : Space) : Rx :=
  { st with outPkts := L, purged := update st.purged sp true }

theorem purged_purge : (st.purge L sp).purged sp' = true ↔ sp' = sp ∨ st.purged sp' = true := by
  rw [Rx.purge]
  by_cases heq : sp' = sp
  · subst heq
    simp
  · simp [heq]

/-- The list of one pipe changes. -/
theorem Lists.setPipe {o : ℕ} (h : Lists st) (hout : st'.outPkts = update st.outPkts o l)
    (hlive : ∀ p, p ∈ l.map OutPkt.pkt ↔
      .fifo o p ∈ st'.received ∧ st'.purged (.fifo o p) = false)
    (hsame : ∀ o' ≠ o, ∀ p, .fifo o' p ∈ st'.received ∧ st'.purged (.fifo o' p) = false ↔
      .fifo o' p ∈ st.received ∧ st.purged (.fifo o' p) = false)
    (hnodup : (l.map OutPkt.pkt).Nodup) (hcount : l.countP OutPkt.isWrapped ≤ 1) : Lists st' := by
  refine ⟨?_, ?_, ?_⟩ <;> rw [hout]
  · exact (forall_update_iff st.outPkts fun o l => ∀ p, p ∈ l.map OutPkt.pkt ↔
      .fifo o p ∈ st'.received ∧ st'.purged (.fifo o p) = false).mpr
      ⟨hlive, fun o' ho p => (h.live o' p).trans (hsame o' ho p).symm⟩
  · exact (forall_update_iff st.outPkts fun _ l => (l.map OutPkt.pkt).Nodup).mpr
      ⟨hnodup, fun o' _ => h.nodup o'⟩
  · exact (forall_update_iff st.outPkts fun _ l => l.countP OutPkt.isWrapped ≤ 1).mpr
      ⟨hcount, fun o' _ => h.wrapped o'⟩

variable {needMutex fwsOk : Bool}

theorem Core.purge (h : Core st) (hmem : sp ∈ st.received) (hlists : Lists (st.purge L sp)) :
    Core (st.purge L sp) := by
  refine ⟨hlists, { h.nodes with idle := fun id e howner hext => ?_ },
    { h.bufs with purged := fun sp' hsp' => ?_ }⟩
  · obtain ⟨hrefers, hfree⟩ := h.nodes.idle id e howner hext
    exact ⟨hrefers, fun sp' hsp' => purged_purge.mpr (.inr (hfree sp' hsp'))⟩
  · obtain rfl | hsp' := purged_purge.mp hsp'
    · exact hmem
    · exact h.bufs.purged sp' hsp'

/-- The purge of a pending space settles it. -/
theorem Pending.purge (h : Pending st sp) (hlists : Lists (st.purge L sp)) :
    Inv (st.purge L sp) := by
  refine ⟨h.core.purge h.mem hlists, fun sp' hsp' => ?_⟩
  rw [purged_purge]
  by_cases heq : sp' = sp
  · subst heq
    exact iff_of_true (.inl rfl) h.free
  · rw [or_iff_right heq]
    exact h.others sp' hsp' heq

end Purge

/-! ## Buffers and descriptors are used up -/

section Bufs

variable {st : Rx} {sp : Space} {outidx : ℕ} {f : ℕ → Option ℕ}

theorem of_update_none {a o x : ℕ} (h : update f a none o = some x) : o ≠ a ∧ f o = some x := by
  rw [update_apply, ite_eq_iff] at h
  exact h.resolve_left nofun

theorem of_update_some {a o x y : ℕ} (h : update f a (some y) o = some x) :
    (o = a ∧ y = x) ∨ f o = some x := by
  rw [update_apply, ite_eq_iff, Option.some.injEq] at h
  exact h.imp_right And.right

/-- A new entry that no other slot holds keeps the slots apart. -/
theorem inj_update_some {a y : ℕ} (hfresh : ∀ o, f o ≠ some y)
    (hinj : ∀ o o' x, f o = some x → f o' = some x → o = o') {o o' x : ℕ}
    (h : update f a (some y) o = some x) (h' : update f a (some y) o' = some x) : o = o' := by
  obtain ⟨rfl, rfl⟩ | hold := of_update_some h
  · exact ((of_update_some h').resolve_right (hfresh o')).1.symm
  · obtain ⟨-, rfl⟩ | hold' := of_update_some h'
    · exact absurd hold (hfresh o)
    · exact hinj o o' x hold hold'

theorem Core.setDesc_none (h : Core st) (outidx : ℕ) : Core (st.setDesc outidx none) := by
  refine ⟨{ h.lists with }, { h.nodes with },
    { h.bufs with desc := fun o id hid => ?_, descInj := fun o o' id hid hid' => ?_ }⟩
  · exact h.bufs.desc o id (of_update_none hid).2
  · exact h.bufs.descInj o o' id (of_update_none hid).2 (of_update_none hid').2

theorem Core.setCache_none (h : Core st) (outidx : ℕ) : Core (st.setCache outidx none) := by
  refine ⟨{ h.lists with }, { h.nodes with },
    { h.bufs with cache := fun o c hc => ?_, cacheInj := fun o o' c hc hc' => ?_ }⟩
  · exact h.bufs.cache o c (of_update_none hc).2
  · exact h.bufs.cacheInj o o' c (of_update_none hc).2 (of_update_none hc').2

theorem Pending.setDesc_none (h : Pending st sp) (outidx : ℕ) :
    Pending (st.setDesc outidx none) sp :=
  { h with core := h.core.setDesc_none outidx }

theorem Pending.takeBufs (h : Pending st sp) (outidx : ℕ) : Pending (st.takeBufs outidx sp) sp := by
  cases sp with
  | fifo o p => exact h.setDesc_none outidx
  | cache c =>
    have hdesc := h.setDesc_none outidx
    exact { hdesc with core := hdesc.core.setCache_none outidx }

end Bufs

/-! ## A frame is attached -/

section Attach

/-- The state when `id`, and `guest` if there is one, are attached to a space and handed upward. -/
def Rx.attach (st : Rx) (id : ℕ) (guest : Option ℕ) (sp : Space) : Rx :=
  { st with mbufs := fun i =>
      if i = id then ⟨.stack, guest, some ⟨some sp, some sp⟩⟩
      else if guest = some i then ⟨.stack, none, some ⟨some sp, none⟩⟩
      else st.mbufs i }

theorem mbufs_attach_self (st : Rx) (id : ℕ) (guest : Option ℕ) (sp : Space) :
    (st.attach id guest sp).mbufs id = ⟨.stack, guest, some ⟨some sp, some sp⟩⟩ := if_pos rfl

variable {st : Rx} {sp sp' : Space} {id j : ℕ} {guest : Option ℕ}

theorem mbufs_attach_guest (hj : j ≠ id) :
    (st.attach id (some j) sp).mbufs j = ⟨.stack, none, some ⟨some sp, none⟩⟩ := by
  rw [Rx.attach]
  simp [hj]

variable {i : ℕ}

theorem mbufs_attach_other (hi : i ≠ id) (hg : guest ≠ some i) :
    (st.attach id guest sp).mbufs i = st.mbufs i := by
  rw [Rx.attach]
  simp [hi, hg]

theorem attach_cases (st : Rx) (id : ℕ) (guest : Option ℕ) (sp : Space) (i : ℕ) :
    i = id ∨
      (guest = some i ∧ (st.attach id guest sp).mbufs i = ⟨.stack, none, some ⟨some sp, none⟩⟩) ∨
      (st.attach id guest sp).mbufs i = st.mbufs i := by
  by_cases hi : i = id
  · exact .inl hi
  · by_cases hg : guest = some i
    · subst hg
      exact .inr (.inl ⟨rfl, mbufs_attach_guest hi⟩)
    · exact .inr (.inr (mbufs_attach_other hi hg))

section

variable {e : Ext} {sp : Space} (h : Nodes st) (hext : (st.mbufs i).ext = some e)
  (hrefers : e.refers = some sp)

include h hext hrefers

theorem Nodes.stack_of_refers : (st.mbufs i).owner = .stack := by
  by_contra howner
  rw [(h.idle i e howner hext).1] at hrefers
  cases hrefers

theorem Nodes.refers : st.Refers i sp := by
  refine ⟨?_, e, hext, hrefers⟩
  rw [h.stack_of_refers hext hrefers]
  exact nofun

end

theorem Nodes.mem_received (h : Nodes st) (hrefers : st.Refers i sp) : sp ∈ st.received := by
  obtain ⟨-, e, hext, hsp⟩ := hrefers
  obtain ⟨sp', hmem, he⟩ := h.held i e (h.stack_of_refers hext hsp) hext
  obtain rfl : sp' = sp := by
    obtain rfl | rfl := he <;> exact Option.some.inj hsp
  exact hmem

theorem Pending.refers_ne (h : Pending st sp) {e : Ext} (hext : (st.mbufs i).ext = some e) :
    e.refers ≠ some sp := fun hrefers => h.free i (h.core.nodes.refers hext hrefers)

section

variable (h : Pending st sp) (hid : (st.mbufs id).owner ≠ .stack)
  (hguest : ∀ j, guest = some j → j ≠ id ∧ (st.mbufs j).owner ≠ .stack)

include h hid hguest

theorem mbufs_attach_of_refers {e : Ext} (hext : (st.mbufs i).ext = some e)
    (hrefers : e.refers = some sp') : (st.attach id guest sp).mbufs i = st.mbufs i := by
  have hstack := h.core.nodes.stack_of_refers hext hrefers
  refine mbufs_attach_other (fun heq => hid (heq ▸ hstack)) fun hg => ?_
  exact (hguest i hg).2 hstack

theorem Nodes.attach : Nodes (st.attach id guest sp) := by
  have hcases := attach_cases st id guest sp
  have hself := mbufs_attach_self st id guest sp
  -- The first node of the new space is `id`; the others are where they were.
  have hfirst : ∀ {i sp'}, ((st.attach id guest sp).mbufs i).ext = some ⟨some sp', some sp'⟩ →
      i = id ∧ sp' = sp ∨ sp' ≠ sp ∧ (st.mbufs i).ext = some ⟨some sp', some sp'⟩ := by
    intro i sp' hext
    obtain rfl | ⟨-, heq⟩ | heq := hcases i
    · rw [hself] at hext
      exact .inl ⟨rfl, by simpa using hext.symm⟩
    · rw [heq] at hext
      simp at hext
    · rw [heq] at hext
      exact .inr ⟨fun hsp => h.refers_ne hext (hsp ▸ rfl), hext⟩
  refine ⟨fun i e howner hext => ?_, fun i e howner hext => ?_, fun i j sp' hi hj => ?_,
    fun j sp' hext => ?_, fun i j howner hnext => ?_⟩
  · obtain rfl | ⟨-, heq⟩ | heq := hcases i
    · exact absurd (by rw [hself]) howner
    · exact absurd (by rw [heq]) howner
    · rw [heq] at howner hext
      exact h.core.nodes.idle i e howner hext
  · obtain rfl | ⟨-, heq⟩ | heq := hcases i
    · rw [hself] at hext
      cases hext
      exact ⟨sp, h.mem, .inl rfl⟩
    · rw [heq] at hext
      cases hext
      exact ⟨sp, h.mem, .inr rfl⟩
    · rw [heq] at howner hext
      exact h.core.nodes.held i e howner hext
  · obtain ⟨rfl, rfl⟩ | ⟨hne, hi⟩ := hfirst hi
    · exact ((hfirst hj).resolve_right fun hold => hold.1 rfl).1.symm
    · exact h.core.nodes.first i j sp' hi ((hfirst hj).resolve_left fun hnew => hne hnew.2).2
  · obtain rfl | ⟨hg, heq⟩ | heq := hcases j
    · rw [hself] at hext
      simp at hext
    · rw [heq] at hext
      obtain rfl : sp = sp' := by simpa using hext
      exact ⟨id, by rw [hself], by rw [hself, hg]⟩
    · rw [heq] at hext
      obtain ⟨i, hi, hnext⟩ := h.core.nodes.guest j sp' hext
      have hsame := mbufs_attach_of_refers h hid hguest hi rfl
      exact ⟨i, by rw [hsame, hi], by rw [hsame, hnext]⟩
  · obtain rfl | ⟨-, heq⟩ | heq := hcases i
    · rw [hself] at hnext ⊢
      have hj := hguest j hnext
      subst hnext
      exact ⟨sp, rfl, by rw [mbufs_attach_guest hj.1]⟩
    · rw [heq] at hnext
      simp at hnext
    · rw [heq] at howner hnext
      obtain ⟨sp', hi, hj⟩ := h.core.nodes.link i j howner hnext
      exact ⟨sp', by rw [heq, hi], by rw [mbufs_attach_of_refers h hid hguest hj rfl, hj]⟩

theorem refers_attach (hne : sp' ≠ sp) :
    (st.attach id guest sp).Refers i sp' ↔ st.Refers i sp' := by
  have hold : ∀ i, (st.mbufs i).owner ≠ .stack → ¬st.Refers i sp' := by
    rintro i howner ⟨-, e, hext, hrefers⟩
    exact howner (h.core.nodes.stack_of_refers hext hrefers)
  have hnew : ∀ m : Mbuf, (∃ x, m.ext = some ⟨some sp, x⟩) →
      ¬(m.owner ≠ .pool ∧ ∃ e, m.ext = some e ∧ e.refers = some sp') := by
    rintro m ⟨x, hext⟩ ⟨-, e, hext', hrefers⟩
    rw [hext] at hext'
    cases hext'
    exact hne (Option.some.inj hrefers).symm
  obtain rfl | ⟨hg, heq⟩ | heq := attach_cases st id guest sp i
  · refine iff_of_false (hnew _ ⟨some sp, ?_⟩) (hold i hid)
    rw [mbufs_attach_self]
  · exact iff_of_false (hnew _ ⟨none, by rw [heq]⟩) (hold i (hguest i hg).2)
  · rw [Rx.Refers, heq]
    exact Iff.rfl

/-- **A frame that is attached** settles its space, if neither node nor buffer is ready for another
frame. -/
theorem Pending.attach (hdesc : ∀ o, st.bufDesc o ≠ some id)
    (hpool : ∀ j, guest = some j → (st.mbufs j).owner = .pool)
    (hcache : ∀ o c, st.cacheBuf o = some c → sp ≠ .cache c) : Inv (st.attach id guest sp) := by
  have hself := mbufs_attach_self st id guest sp
  have hpurged : (st.attach id guest sp).purged = st.purged := rfl
  refine ⟨⟨{ h.core.lists with }, Nodes.attach h hid hguest,
    { h.core.bufs with desc := fun o x hx => ?_, cache := fun o c hc => ?_ }⟩, fun sp' hsp' => ?_⟩
  · have hdriver := h.core.bufs.desc o x hx
    have hg : guest ≠ some x := fun hg => by
      rw [hpool x hg] at hdriver
      cases hdriver
    have hne : x ≠ id := by
      rintro rfl
      exact hdesc o hx
    rw [mbufs_attach_other hne hg]
    exact hdriver
  · refine ⟨(h.core.bufs.cache o c hc).1, fun i hrefers => ?_⟩
    exact (h.core.bufs.cache o c hc).2 i
      ((refers_attach h hid hguest (hcache o c hc).symm).mp hrefers)
  · by_cases heq : sp' = sp
    · subst heq
      rw [hpurged, h.unpurged]
      refine iff_of_false Bool.false_ne_true fun hnone => hnone id ⟨?_, ⟨_, _⟩, by rw [hself], rfl⟩
      rw [hself]
      exact nofun
    · rw [hpurged, h.others sp' hsp' heq]
      exact forall_congr' fun i => not_congr (refers_attach h hid hguest heq).symm

end

end Attach

/-! ## A frame is received -/

section Enter

variable {st st' : Rx} {outidx buf : ℕ} {fr : Frame} {lens : ℕ × ℕ}

/-- A new packet is wrapped only if no outstanding packet is. -/
theorem pktLens_wrapped {l : List OutPkt} (h : pktLens l fr = .ok lens)
    (hl : l.countP OutPkt.isWrapped ≤ 1) (p : ℕ) :
    List.countP OutPkt.isWrapped (l ++ [⟨p, lens.1, lens.2⟩]) ≤ 1 := by
  have hlast : [(⟨p, lens.1, lens.2⟩ : OutPkt)].countP OutPkt.isWrapped ≤ 1 := countP_le_length
  rw [countP_append]
  rw [pktLens] at h
  split at h
  next hempty =>
    rw [List.isEmpty_iff.mp hempty, countP_nil]
    omega
  next =>
    split at h
    next =>
      obtain rfl := Except.ok.inj h
      exact hl
    next hnone =>
      have hzero : l.countP OutPkt.isWrapped = 0 := by
        refine countP_eq_zero.mpr fun q hq hwrapped => hnone (.inr ?_)
        exact any_eq_true.mpr ⟨q, hq, hwrapped⟩
      omega

theorem Nodes.receive (h : Nodes st) (hmbufs : st'.mbufs = st.mbufs)
    (hpurged : st'.purged = st.purged) (hrec : ∀ sp ∈ st.received, sp ∈ st'.received) :
    Nodes st' := by
  refine ⟨?_, ?_, ?_, ?_, ?_⟩ <;> rw [hmbufs]
  · rw [hpurged]
    exact h.idle
  · intro id e howner hext
    obtain ⟨sp, hsp, he⟩ := h.held id e howner hext
    exact ⟨sp, hrec sp hsp, he⟩
  · exact h.first
  · exact h.guest
  · exact h.link

/-- The frame of a cache buffer that was not purged is pending. -/
theorem Inv.enterCache (h : Inv st) (hbuf : st.cacheBuf outidx = some buf)
    (hun : st.purged (.cache buf) = false) : Pending (st.enterCache buf) (.cache buf) := by
  obtain ⟨hlt, hfree⟩ := h.core.bufs.cache outidx buf hbuf
  have hmem : ∀ sp, sp ∈ (st.enterCache buf).received ↔ sp ∈ st.received ∨ sp = .cache buf := by
    intro sp
    rw [Rx.enterCache, mem_append, mem_singleton]
  have hfifo : ∀ o p, .fifo o p ∈ (st.enterCache buf).received ↔ .fifo o p ∈ st.received :=
    fun o p => (hmem _).trans (or_iff_left nofun)
  refine ⟨⟨{ h.core.lists with live := fun o p => ?_ },
    h.core.nodes.receive rfl rfl fun sp hsp => (hmem sp).mpr (.inl hsp),
    { h.core.bufs with
      freshPkt := fun o p hp => ?_
      freshCache := fun c hc => ?_
      purged := fun sp hsp => (hmem sp).mpr (.inl (h.core.bufs.purged sp hsp)) }⟩,
    (hmem _).mpr (.inr rfl), hun, hfree, fun sp hsp hne => ?_⟩
  · rw [hfifo]
    exact h.core.lists.live o p
  · exact h.core.bufs.freshPkt o p ((hfifo o p).mp hp)
  · obtain hc | hc := (hmem _).mp hc
    · exact h.core.bufs.freshCache c hc
    · obtain rfl := Space.cache.inj hc
      exact hlt
  · exact h.sound sp (((hmem sp).mp hsp).resolve_right hne)

/-- The frame of a new packet is pending. -/
theorem Inv.enterFifo (h : Inv st) (hlens : pktLens (st.outPkts outidx) fr = .ok lens) :
    Pending (st.enterFifo outidx lens.1 lens.2) (.fifo outidx st.pkts) := by
  have hfresh : ∀ o, .fifo o st.pkts ∉ st.received := fun o hmem =>
    Nat.lt_irrefl _ (h.core.bufs.freshPkt o st.pkts hmem)
  have hun : ∀ o, st.purged (.fifo o st.pkts) = false := by
    intro o
    rw [← Bool.not_eq_true]
    exact fun hpurged => hfresh o (h.core.bufs.purged _ hpurged)
  have hmem : ∀ sp, sp ∈ (st.enterFifo outidx lens.1 lens.2).received ↔
      sp ∈ st.received ∨ sp = .fifo outidx st.pkts := by
    intro sp
    rw [Rx.enterFifo, mem_append, mem_singleton]
  have hpurged : (st.enterFifo outidx lens.1 lens.2).purged = st.purged := rfl
  refine ⟨⟨h.core.lists.setPipe rfl (fun p => ?_) (fun o ho p => ?_) ?_
      (pktLens_wrapped hlens (h.core.lists.wrapped outidx) st.pkts),
    h.core.nodes.receive rfl rfl fun sp hsp => (hmem sp).mpr (.inl hsp),
    { h.core.bufs with
      freshPkt := fun o p hp => ?_
      freshCache := fun c hc => ?_
      purged := fun sp hsp => (hmem sp).mpr (.inl (h.core.bufs.purged sp hsp)) }⟩,
    (hmem _).mpr (.inr rfl), hun outidx,
    fun _ hrefers => hfresh outidx (h.core.nodes.mem_received hrefers), fun sp hsp hne => ?_⟩
  · rw [hmem, hpurged, map_append, mem_append, h.core.lists.live, or_and_right]
    simp only [map_cons, map_nil, mem_singleton, Space.fifo.injEq, true_and]
    refine or_congr Iff.rfl (iff_self_and.mpr ?_)
    rintro rfl
    exact hun outidx
  · rw [hmem, hpurged, or_iff_left (by simp [ho])]
  · rw [map_append, map_singleton, nodup_append]
    refine ⟨h.core.lists.nodup outidx, nodup_singleton _, fun a ha b hb => ?_⟩
    rw [mem_singleton.mp hb]
    rintro rfl
    exact hfresh outidx ((h.core.lists.live outidx _).mp ha).1
  · obtain hp | hp := (hmem _).mp hp
    · exact Nat.lt_succ_of_lt (h.core.bufs.freshPkt o p hp)
    · obtain ⟨-, rfl⟩ := Space.fifo.inj hp
      exact Nat.lt_succ_self _
  · exact h.core.bufs.freshCache c (((hmem _).mp hc).resolve_right nofun)
  · exact h.sound sp (((hmem sp).mp hsp).resolve_right hne)

end Enter

/-! ## Nodes are silenced -/

/-- The nodes of `D` refer to no space any more; the others stay, with their links to each other. A
first node is silenced with its successor. -/
structure Silences (st : Rx) (D : ℕ → Prop) (P : Space → Bool) (m : ℕ → Mbuf) : Prop where
  silent : ∀ i, D i → ((m i).owner ≠ .pool → (m i).next = none) ∧ ∀ e, (m i).ext = some e →
    (m i).owner ≠ .stack ∧ e.refers = none ∧ ∀ sp, e.free = some sp → P sp = true
  others : ∀ i, ¬D i → (m i).owner = (st.mbufs i).owner ∧ (m i).ext = (st.mbufs i).ext ∧
    ((st.mbufs i).owner ≠ .pool → ∀ j, (m i).next = some j ↔ (st.mbufs i).next = some j ∧ ¬D j)
  closed : ∀ i j, D i → (∃ sp, (st.mbufs i).ext = some ⟨some sp, some sp⟩) →
    (st.mbufs i).next = some j → D j
  purged : ∀ sp, st.purged sp = true → P sp = true

section Silences

variable {st : Rx} {D : ℕ → Prop} {P : Space → Bool} {m : ℕ → Mbuf} {L : ℕ → List OutPkt}
  (h : Silences st D P m)

include h

theorem Silences.not_of_refers {i : ℕ} {e : Ext} {sp : Space} (hext : (m i).ext = some e)
    (hrefers : e.refers = some sp) : ¬D i := by
  intro hi
  rw [((h.silent i hi).2 e hext).2.1] at hrefers
  cases hrefers

theorem Silences.refers (i : ℕ) (sp : Space) :
    ({ st with outPkts := L, purged := P, mbufs := m } : Rx).Refers i sp ↔
      ¬D i ∧ st.Refers i sp := by
  by_cases hi : D i
  · refine iff_of_false ?_ fun hold => hold.1 hi
    rintro ⟨-, e, hext, hrefers⟩
    exact h.not_of_refers hext hrefers hi
  · obtain ⟨howner, hext, -⟩ := h.others i hi
    rw [Rx.Refers, Rx.Refers, howner, hext, and_iff_right hi]

theorem Silences.nodes (hnodes : Nodes st) :
    Nodes { st with outPkts := L, purged := P, mbufs := m } := by
  have hold : ∀ {i e sp}, (m i).ext = some e → e.refers = some sp →
      ¬D i ∧ (st.mbufs i).ext = some e := by
    intro i e sp hext hrefers
    have hi := h.not_of_refers hext hrefers
    exact ⟨hi, (h.others i hi).2.1 ▸ hext⟩
  refine ⟨fun i e howner hext => ?_, fun i e howner hext => ?_, fun i j sp hi hj => ?_,
    fun j sp hj => ?_, fun i j howner hij => ?_⟩
  · by_cases hi : D i
    · exact ((h.silent i hi).2 e hext).2
    · obtain ⟨howner', hext', -⟩ := h.others i hi
      obtain ⟨hrefers, hfree⟩ := hnodes.idle i e (howner' ▸ howner) (hext' ▸ hext)
      exact ⟨hrefers, fun sp hsp => h.purged sp (hfree sp hsp)⟩
  · by_cases hi : D i
    · exact absurd howner ((h.silent i hi).2 e hext).1
    · obtain ⟨howner', hext', -⟩ := h.others i hi
      exact hnodes.held i e (howner' ▸ howner) (hext' ▸ hext)
  · exact hnodes.first i j sp (hold hi rfl).2 (hold hj rfl).2
  · obtain ⟨hDj, hj⟩ := hold hj rfl
    obtain ⟨i, hi, hij⟩ := hnodes.guest j sp hj
    have hDi : ¬D i := fun hDi => hDj (h.closed i j hDi ⟨sp, hi⟩ hij)
    obtain ⟨-, hext, hnext⟩ := h.others i hDi
    exact ⟨i, hext.trans hi, (hnext (hnodes.refers hi rfl).1 j).mpr ⟨hij, hDj⟩⟩
  · have hDi : ¬D i := fun hDi => nomatch hij.symm.trans ((h.silent i hDi).1 howner)
    obtain ⟨howner', hext, hnext⟩ := h.others i hDi
    obtain ⟨hij, hDj⟩ := (hnext (howner' ▸ howner) j).mp hij
    obtain ⟨sp, hi, hj⟩ := hnodes.link i j (howner' ▸ howner) hij
    exact ⟨sp, hext.trans hi, (h.others j hDj).2.1.trans hj⟩

theorem Silences.core (hcore : Core st)
    (hlists : Lists { st with outPkts := L, purged := P, mbufs := m })
    (hdesc : ∀ o i, st.bufDesc o = some i → ¬D i)
    (hpurged : ∀ sp, P sp = true → sp ∈ st.received) :
    Core { st with outPkts := L, purged := P, mbufs := m } := by
  refine ⟨hlists, h.nodes hcore.nodes, { hcore.bufs with
    desc := fun o i hi => (h.others i (hdesc o i hi)).1.trans (hcore.bufs.desc o i hi)
    cache := fun o c hc => ?_
    purged := hpurged }⟩
  obtain ⟨hlt, hnone⟩ := hcore.bufs.cache o c hc
  exact ⟨hlt, fun i hi => hnone i ((h.refers i _).mp hi).2⟩

end Silences

/-! ## The driver prepares the next frame -/

section Arm

variable {st : Rx} {outidx id : ℕ}

theorem mbufs_setMbuf (id : ℕ) (m : Mbuf) : (st.setMbuf id m).mbufs id = m :=
  update_self ..

/-- **A node that refers to nothing** may change hands. -/
theorem Inv.setMbuf {m : Mbuf} (h : Inv st) (hnext : m.next = none)
    (hext : m.ext = (st.mbufs id).ext) (hidle : ∀ e, m.ext = some e →
      (st.mbufs id).owner ≠ .stack ∧ m.owner ≠ .stack)
    (hdesc : ∀ o, st.bufDesc o ≠ some id) : Inv (st.setMbuf id m) := by
  have hnot : ∀ e, (st.mbufs id).ext = some e → e.refers = none := fun e he =>
    (h.core.nodes.idle id e (hidle e (hext ▸ he)).1 he).1
  have hsilent : Silences st (· = id) st.purged (update st.mbufs id m) := by
    refine ⟨?_, fun i hi => ?_, ?_, fun _ hsp => hsp⟩
    · rintro _ rfl
      rw [update_self]
      refine ⟨fun _ => hnext, fun e he => ⟨(hidle e he).2, ?_⟩⟩
      exact h.core.nodes.idle _ e (hidle e he).1 (hext ▸ he)
    · rw [update_of_ne hi]
      refine ⟨rfl, rfl, fun howner j => (and_iff_left_of_imp ?_).symm⟩
      rintro hj rfl
      obtain ⟨sp, -, hguest⟩ := h.core.nodes.link i j howner hj
      exact nomatch hnot _ hguest
    · rintro _ j rfl hfirst -
      exact nomatch hnot _ hfirst.choose_spec
  refine ⟨hsilent.core h.core { h.core.lists with } ?_ h.core.bufs.purged, fun sp hsp => ?_⟩
  · rintro o _ hx rfl
    exact hdesc o hx
  · refine (h.sound sp hsp).trans (forall_congr' fun i => not_congr ?_)
    refine (and_iff_right_of_imp ?_).symm.trans (hsilent.refers i sp).symm
    rintro ⟨-, e, he, hrefers⟩ rfl
    rw [hnot e he] at hrefers
    cases hrefers

theorem Inv.construct (h : Inv st) (hpool : (st.mbufs id).owner = .pool) :
    Inv (st.construct id) := by
  refine h.setMbuf rfl rfl (fun _ _ => ⟨by rw [hpool]; exact nofun, nofun⟩) fun o ho => ?_
  rw [h.core.bufs.desc o id ho] at hpool
  cases hpool

theorem Inv.setDesc (h : Inv st) (howner : (st.mbufs id).owner = .driver)
    (hnone : ∀ o, st.bufDesc o ≠ some id) : Inv (st.setDesc outidx (some id)) := by
  refine ⟨⟨{ h.core.lists with }, { h.core.nodes with }, { h.core.bufs with
    desc := fun o x hx => ?_
    descInj := fun o o' x => inj_update_some hnone h.core.bufs.descInj }⟩, h.sound⟩
  obtain ⟨-, rfl⟩ | hx := of_update_some hx
  · exact howner
  · exact h.core.bufs.desc o x hx

theorem Inv.setCache (h : Inv st) :
    Inv { st.setCache outidx (some st.caches) with caches := st.caches + 1 } := by
  refine ⟨⟨{ h.core.lists with }, { h.core.nodes with }, { h.core.bufs with
    cache := fun o c hc => ?_
    cacheInj := fun o o' c => inj_update_some (fun o hc => ?_) h.core.bufs.cacheInj
    freshCache := fun c hc => Nat.lt_succ_of_lt (h.core.bufs.freshCache c hc) }⟩, h.sound⟩
  · obtain ⟨-, rfl⟩ | hc := of_update_some hc
    · exact ⟨Nat.lt_succ_self _, fun i hrefers =>
        Nat.lt_irrefl _ (h.core.bufs.freshCache _ (h.core.nodes.mem_received hrefers))⟩
    · exact (h.core.bufs.cache o c hc).imp_left Nat.lt_succ_of_lt
  · exact Nat.lt_irrefl _ (h.core.bufs.cache o _ hc).1

end Arm

end WiseSdk.ScdcRx
