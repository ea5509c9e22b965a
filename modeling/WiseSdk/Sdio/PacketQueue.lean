import WiseSdk.Library.Runs
import WiseSdk.Sdio.RxFifo

/-!
# The receive FIFO as a packet queue

Seen from the packets, the FIFO is a queue: packets stand one behind the other from the read
index to the write index, each where it was written.  What hides this is the tail of the
buffer that is skipped, and the packets that have been given back early and live on as a part
of their predecessor's length.

Both disappear in *queue coordinates*, in which the packets stand one behind the other without
a gap, starting at the read index.  `place` turns a coordinate into a position: with the buffer
wrapped at coordinate `e`, the coordinates from `e` on are the positions from 0 on.
-/

namespace WiseSdk.Sdio

open Library List

/-! ## Queue coordinates -/

/-- The position of a queue coordinate, when the writer went back to 0 at coordinate `e`, if it
did. -/
def place : Option ℕ → ℕ → ℕ
  | none, c => c
  | some e, c => if c < e then c else c - e

def Unbroken (wrap : Option ℕ) (c len : ℕ) : Prop :=
  ∀ e, wrap = some e → c < e → c + len ≤ e

/-- The outstanding packets stand from `c` to `c'`: each is located where it was written, and
followed by the next after its length, which takes in the packets given back early. -/
def OutChain (cfg : FifoConfig) (wrap : Option ℕ) : ℕ → List BufPtrInfo → ℕ → Prop
  | c, [], c' => c = c'
  | c, p :: ps, c' =>
    (p.ptrLin = p.privData.buf ∧ p.privData.buf = place wrap c ∧ place wrap c ≤ cfg.boundary ∧
      p.lenWrap = 0 ∧ 0 < p.privData.len ∧ 0 < p.lenLin) ∧
    OutChain cfg wrap (c + p.lenLin) ps c'

/-- The packets that wait for their callback stand from `c` to `c'`, each in one piece. -/
def RxChain (cfg : FifoConfig) (wrap : Option ℕ) : ℕ → List SdioReq → ℕ → Prop
  | c, [], c' => c = c'
  | c, q :: qs, c' =>
    (q.buf = place wrap c ∧ place wrap c ≤ cfg.boundary ∧ 0 < q.len ∧ Unbroken wrap c q.len) ∧
    RxChain cfg wrap (c + q.len) qs c'

variable {c c' e i len m mid last : ℕ} {cfg : FifoConfig} {ps : List BufPtrInfo} {f : SdioFifo}
  {wrap : Option ℕ}

theorem OutChain.le (h : OutChain cfg wrap c ps c') : c ≤ c' := by
  induction ps generalizing c with
  | nil => exact Nat.le_of_eq h
  | cons p ps ih => exact Nat.le_trans (Nat.le_add_right _ _) (ih h.2)

variable {qs : List SdioReq}

theorem RxChain.le (h : RxChain cfg wrap c qs c') : c ≤ c' := by
  induction qs generalizing c with
  | nil => exact Nat.le_of_eq h
  | cons q qs ih => exact Nat.le_trans (Nat.le_add_right _ _) (ih h.2)

theorem OutChain.concat_iff {p : BufPtrInfo} :
    OutChain cfg wrap c (ps ++ [p]) c' ↔
      ∃ m, OutChain cfg wrap c ps m ∧ OutChain cfg wrap m [p] c' := by
  induction ps generalizing c with
  | nil => simp [OutChain]
  | cons q ps ih =>
    simp only [cons_append, OutChain, ih, and_assoc]
    constructor
    · rintro ⟨h₁, h₂, h₃, h₄, h₅, h₆, m, hm⟩
      exact ⟨m, h₁, h₂, h₃, h₄, h₅, h₆, hm⟩
    · rintro ⟨m, h₁, h₂, h₃, h₄, h₅, h₆, hm⟩
      exact ⟨h₁, h₂, h₃, h₄, h₅, h₆, m, hm⟩

theorem RxChain.concat {q : SdioReq} (h : RxChain cfg wrap c qs m)
    (hq : RxChain cfg wrap m [q] c') : RxChain cfg wrap c (qs ++ [q]) c' := by
  induction qs generalizing c with
  | nil =>
    cases h
    exact hq
  | cons p qs ih => exact ⟨h.1, ih h.2⟩

/-! ## Changing coordinates -/

theorem place_some_of_lt (h : c < e) : place (some e) c = c := if_pos h

theorem place_some_of_le (h : e ≤ c) : place (some e) c = c - e :=
  if_neg (Nat.not_lt.mpr h)

/-- Coordinates before the point where the writer goes back do not change when it does. -/
theorem OutChain.wrapped (h : OutChain cfg none c ps c') (he : c' ≤ e) :
    OutChain cfg (some e) c ps c' := by
  induction ps generalizing c with
  | nil => exact h
  | cons p ps ih =>
    have hc : c < e := by
      have := h.2.le
      have := h.1.2.2.2.2.2
      omega
    refine ⟨?_, ih h.2⟩
    rw [place_some_of_lt hc]
    exact h.1

theorem RxChain.wrapped (h : RxChain cfg none c qs c') (he : c' ≤ e) :
    RxChain cfg (some e) c qs c' := by
  induction qs generalizing c with
  | nil => exact h
  | cons q qs ih =>
    obtain ⟨hbuf, hplace, hpos, _⟩ := h.1
    have hend : c + q.len ≤ e := Nat.le_trans h.2.le he
    refine ⟨?_, ih h.2⟩
    rw [place_some_of_lt (by omega)]
    refine ⟨hbuf, hplace, hpos, ?_⟩
    rintro e' ⟨⟩ _
    exact hend

theorem OutChain.unwrap (h : OutChain cfg (some e) c ps c') (he : e ≤ c) :
    OutChain cfg none (c - e) ps (c' - e) := by
  induction ps generalizing c with
  | nil =>
    cases h
    rfl
  | cons p ps ih =>
    have hrest := ih h.2 (by omega)
    rw [show c + p.lenLin - e = c - e + p.lenLin by omega] at hrest
    refine ⟨?_, hrest⟩
    have hp := h.1
    rw [place_some_of_le he] at hp
    exact hp

theorem RxChain.unwrap (h : RxChain cfg (some e) c qs c') (he : e ≤ c) :
    RxChain cfg none (c - e) qs (c' - e) := by
  induction qs generalizing c with
  | nil =>
    cases h
    rfl
  | cons q qs ih =>
    have hrest := ih h.2 (by omega)
    rw [show c + q.len - e = c - e + q.len by omega] at hrest
    refine ⟨?_, hrest⟩
    obtain ⟨hbuf, hplace, hpos, _⟩ := h.1
    rw [place_some_of_le he] at hbuf hplace
    exact ⟨hbuf, hplace, hpos, by rintro e' ⟨⟩⟩

/-! ## The invariant -/

/-- The indices, for packets up to `last`, those up to `mid` having had their callback. With the
writer back at the start, `len_waste` is the skipped tail once a packet behind it is located. -/
def FifoAt (cfg : FifoConfig) (f : SdioFifo) : Option ℕ → ℕ → ℕ → Prop
  | none, _, last => f.wrIdx = last ∧ last ≤ cfg.boundary ∧ f.lenWaste = 0
  | some e, mid, last =>
    f.rdIdx < e ∧ cfg.boundary < e ∧ e < cfg.depth ∧ f.wrIdx + e = last ∧
      f.wrIdx ≤ f.rdIdx ∧ f.lenWaste = if e < mid then cfg.depth - e else 0

/-- The receive path in queue coordinates. -/
structure QueueInv (cfg : FifoConfig) (st : RxState) (wrap : Option ℕ) (mid last : ℕ) :
    Prop where
  out : OutChain cfg wrap st.fifo.rdIdx st.outPkts mid
  rx : RxChain cfg wrap mid st.rxPkts last
  fifo : FifoAt cfg st.fifo wrap mid last

theorem FifoConfig.boundary_add (cfg : FifoConfig) :
    cfg.boundary + cfg.minLinear = cfg.depth := by
  have := cfg.minLinear_le
  unfold FifoConfig.boundary
  omega

theorem place_le_boundary (hout : OutChain cfg wrap c ps mid)
    (hrx : RxChain cfg wrap mid qs last) (hlt : c < last) : place wrap c ≤ cfg.boundary := by
  cases ps with
  | cons p ps => exact hout.1.2.2.1
  | nil =>
    cases hout
    cases qs with
    | cons q qs => exact hrx.1.2.1
    | nil =>
      cases hrx
      omega

variable {st : RxState}

theorem QueueInv.place_rd (h : QueueInv cfg st wrap mid last) :
    place wrap st.fifo.rdIdx = st.fifo.rdIdx := by
  cases wrap with
  | none => rfl
  | some e => exact place_some_of_lt h.fifo.1

theorem QueueInv.rd_le (h : QueueInv cfg st wrap mid last) :
    st.fifo.rdIdx ≤ cfg.boundary := by
  have hle := Nat.le_trans h.out.le h.rx.le
  cases wrap with
  | none =>
    have := h.fifo.2.1
    omega
  | some e =>
    obtain ⟨hrd, hb, _, hwr, _⟩ := h.fifo
    have hplace := place_le_boundary h.out h.rx (by omega)
    rwa [place_some_of_lt hrd] at hplace

theorem QueueInv.wr_le (h : QueueInv cfg st wrap mid last) :
    st.fifo.wrIdx ≤ cfg.boundary := by
  cases wrap with
  | none => exact h.fifo.1 ▸ h.fifo.2.1
  | some e => exact Nat.le_trans h.fifo.2.2.2.2.1 h.rd_le

theorem QueueInv.last_lt (h : QueueInv cfg st wrap mid last) : last < 65536 := by
  have hb := cfg.boundary_add
  have hd := cfg.depth_le
  have hwr := h.wr_le
  cases wrap with
  | none =>
    have := h.fifo.1
    omega
  | some e =>
    obtain ⟨_, _, he, hlast, _⟩ := h.fifo
    omega

/-! ## The property -/

/-- Where the oldest packet not given back starts; else the next write position. -/
def oldestStart (st : RxState) : ℕ :=
  match st.outPkts, st.rxPkts with
  | p :: _, _ => p.privData.buf
  | [], q :: _ => q.buf
  | [], [] => st.fifo.wrIdx

/-- Every outstanding packet is located where it was written, and the reader is at the oldest. -/
structure InPlace (st : RxState) : Prop where
  located : ∀ p ∈ st.outPkts, p.ptrLin = p.privData.buf
  reader : st.fifo.rdIdx = oldestStart st

theorem OutChain.located (h : OutChain cfg wrap c ps c') :
    ∀ p ∈ ps, p.ptrLin = p.privData.buf := by
  induction ps generalizing c with
  | nil => simp
  | cons p ps ih =>
    rintro q (_ | ⟨_, hq⟩)
    · exact h.1.1
    · exact ih h.2 q hq

theorem QueueInv.inPlace (h : QueueInv cfg st wrap mid last) : InPlace st := by
  refine ⟨h.out.located, ?_⟩
  have hrd := h.place_rd
  have hout := h.out
  have hrx := h.rx
  unfold oldestStart
  cases hps : st.outPkts with
  | cons p ps =>
    rw [hps] at hout
    exact hrd.symm.trans hout.1.2.1.symm
  | nil =>
    rw [hps] at hout
    cases hout
    cases hqs : st.rxPkts with
    | cons q qs =>
      rw [hqs] at hrx
      exact hrd.symm.trans hrx.1.1.symm
    | nil =>
      rw [hqs] at hrx
      cases hrx
      -- An empty queue has not wrapped.
      cases wrap with
      | none => exact h.fifo.1.symm
      | some e =>
        obtain ⟨hrd, _, _, hwr, _⟩ := h.fifo
        omega

/-! ## Arrivals -/

def unreleased (st : RxState) : List SdioReq :=
  st.outPkts.map BufPtrInfo.privData ++ st.rxPkts

/-- The host does not write over a packet that has not been given back. -/
def KeepsOff (cfg : FifoConfig) (st : RxState) (len : ℕ) : Prop :=
  ∀ req ∈ unreleased st,
    (getWriteBuf cfg st.fifo).wrIdx + len ≤ req.buf ∨
      req.buf + req.len ≤ (getWriteBuf cfg st.fifo).wrIdx
deriving Decidable

/-- What a queue asks of the host: a packet of a possible length, over no other one. Other steps
need a packet. -/
def HostGuard (cfg : FifoConfig) (st : RxState) : RxAction → Prop
  | .arrive len => 1 ≤ len ∧ len ≤ cfg.minLinear ∧ KeepsOff cfg st len
  | .rxCb => st.rxPkts ≠ []
  | .purge index => index < st.outPkts.length

/-- Behind the reader the host waits until a largest packet fits, and no packet ends at the very end
of the buffer. -/
def RoomGuard (cfg : FifoConfig) (st : RxState) : RxAction → Prop
  | .arrive len =>
    (st.fifo.wrIdx < st.fifo.rdIdx → cfg.minLinear ≤ st.fifo.rdIdx - st.fifo.wrIdx) ∧
      ¬ (st.fifo.wrIdx = cfg.boundary ∧ len = cfg.minLinear)
  | _ => True

def FifoGuard (cfg : FifoConfig) (st : RxState) (act : RxAction) : Prop :=
  HostGuard cfg st act ∧ RoomGuard cfg st act

instance (cfg : FifoConfig) (st : RxState) (act : RxAction) :
    Decidable (HostGuard cfg st act) :=
  match act with
  | .arrive len => inferInstanceAs (Decidable (1 ≤ len ∧ _))
  | .rxCb => inferInstanceAs (Decidable (st.rxPkts ≠ []))
  | .purge index => inferInstanceAs (Decidable (index < st.outPkts.length))

instance (cfg : FifoConfig) (st : RxState) (act : RxAction) :
    Decidable (FifoGuard cfg st act) :=
  match act with
  | .arrive len => inferInstanceAs (Decidable (HostGuard cfg st (.arrive len) ∧
      (st.fifo.wrIdx < st.fifo.rdIdx → cfg.minLinear ≤ st.fifo.rdIdx - st.fifo.wrIdx) ∧
      ¬ (st.fifo.wrIdx = cfg.boundary ∧ len = cfg.minLinear)))
  | .rxCb => inferInstanceAs (Decidable (HostGuard cfg st .rxCb ∧ True))
  | .purge index => inferInstanceAs (Decidable (HostGuard cfg st (.purge index) ∧ True))

theorem u16_add {a b : ℕ} (h : a + b < 65536) : u16 (a + b) = a + b := by
  unfold u16
  omega

theorem QueueInv.getWriteBuf_eq (h : QueueInv cfg st wrap mid last) :
    getWriteBuf cfg st.fifo = st.fifo := by
  have hwr := h.wr_le
  have hb := cfg.boundary_add
  unfold getWriteBuf
  rw [if_neg (by omega)]

/-- The head of a wrapped queue is a packet at the reader. -/
theorem QueueInv.exists_at_reader (h : QueueInv cfg st wrap mid last) (hlt : st.fifo.rdIdx < last) :
    ∃ req ∈ unreleased st, req.buf = st.fifo.rdIdx ∧ 0 < req.len := by
  have hreader := h.inPlace.reader
  have hout := h.out
  have hrx := h.rx
  unfold oldestStart at hreader
  unfold unreleased
  cases hps : st.outPkts with
  | cons p ps =>
    rw [hps] at hout hreader
    exact ⟨p.privData, by simp, hreader.symm, hout.1.2.2.2.2.1⟩
  | nil =>
    rw [hps] at hout hreader
    cases hout
    cases hqs : st.rxPkts with
    | cons q qs =>
      rw [hqs] at hrx hreader
      exact ⟨q, by simp, hreader.symm, hrx.1.2.2.1⟩
    | nil =>
      rw [hqs] at hrx
      cases hrx
      omega

/-- An arrival within the guard is written behind the last packet. -/
theorem QueueInv.arrive (h : QueueInv cfg st wrap mid last)
    (hguard : FifoGuard cfg st (.arrive len)) :
    ∃ st' wrap' last', arrive cfg st len = some st' ∧ QueueInv cfg st' wrap' mid last' := by
  obtain ⟨⟨hpos, hlen, hoff⟩, hroom, hend⟩ := hguard
  have hwr := h.wr_le
  have hrd := h.rd_le
  have hb := cfg.boundary_add
  have hd := cfg.depth_le
  have hle := Nat.le_trans h.out.le h.rx.le
  have hmid := h.rx.le
  unfold KeepsOff at hoff
  rw [h.getWriteBuf_eq] at hoff
  simp only [WiseSdk.Sdio.arrive, h.getWriteBuf_eq, advanceWritePointer,
    u16_add (show st.fifo.wrIdx + len < 65536 by omega)]
  cases wrap with
  | none =>
    obtain ⟨hlast, hlastb, hwaste⟩ := h.fifo
    have hassert : writeAssert cfg st.fifo = true := by
      unfold writeAssert
      rw [if_pos (by omega)]
      simp only [decide_eq_true_eq]
      omega
    rw [if_pos hassert]
    have hreq : RxChain cfg none last [⟨st.fifo.wrIdx, len⟩] (last + len) :=
      ⟨⟨hlast, hlastb, hpos, by rintro e ⟨⟩⟩, rfl⟩
    by_cases hwrap : cfg.boundary < st.fifo.wrIdx + len
    · -- The packet takes the writer past the boundary, and the writer back to 0.
      refine ⟨_, some (last + len), last + len, rfl, ?_, ?_, ?_⟩
      · exact h.out.wrapped (by omega)
      · exact (h.rx.concat hreq).wrapped Nat.le.refl
      · rw [if_pos hwrap]
        refine ⟨?_, ?_, ?_, ?_, Nat.zero_le _, ?_⟩
        · simp only
          omega
        · omega
        · omega
        · simp
        · rw [if_neg (by omega)]
          exact hwaste
    · refine ⟨_, none, last + len, rfl, h.out, h.rx.concat hreq, ?_⟩
      rw [if_neg hwrap]
      exact ⟨by simp only [hlast], by omega, hwaste⟩
  | some e =>
    obtain ⟨hrde, hbe, hed, hlast, hwrrd, hwaste⟩ := h.fifo
    -- A queue that fills the buffer has a packet at the writer.
    have hne : st.fifo.wrIdx ≠ st.fifo.rdIdx := by
      intro heq
      obtain ⟨req, hmem, hbuf, hreqpos⟩ := h.exists_at_reader (by omega)
      have := hoff req hmem
      omega
    have hassert : writeAssert cfg st.fifo = true := by
      unfold writeAssert
      rw [if_neg (by omega)]
      simp only [decide_eq_true_eq]
      omega
    rw [if_pos hassert]
    have hplace : place (some e) last = st.fifo.wrIdx := by
      rw [place_some_of_le (by omega)]
      omega
    have hreq : RxChain cfg (some e) last [⟨st.fifo.wrIdx, len⟩] (last + len) :=
      ⟨⟨hplace.symm, by omega, hpos, by rintro e' ⟨⟩ hlt; omega⟩, rfl⟩
    refine ⟨_, some e, last + len, rfl, h.out, h.rx.concat hreq, ?_⟩
    rw [if_neg (by omega)]
    refine ⟨hrde, hbe, hed, ?_, ?_, hwaste⟩
    · simp only
      omega
    · simp only
      omega

/-! ## Callbacks -/

/-- Locating a packet changes at most `len_waste`. -/
structure Located (cfg : FifoConfig) (f f' : SdioFifo) (wrap : Option ℕ) (mid last : ℕ) :
    Prop where
  wr : f'.wrIdx = f.wrIdx
  rd : f'.rdIdx = f.rdIdx
  fifo : FifoAt cfg f' wrap mid last

/-- **Locating a packet.** The one behind a packet from `m` to `mid` is found where the queue has
it. -/
theorem linearize_eq (h : FifoAt cfg f wrap mid last) (hm : m < mid)
    (hplace : place wrap mid ≤ cfg.boundary) (hlen : 0 < len) (hunbroken : Unbroken wrap mid len) :
    ∃ f', linearize cfg f (place wrap m + (mid - m)) = some (f', place wrap mid) ∧
      Located cfg f f' wrap (mid + len) last := by
  have hd := cfg.depth_le
  cases wrap with
  | none =>
    have hmid : m + (mid - m) = mid := by omega
    refine ⟨f, ?_, rfl, rfl, h⟩
    simp only [place] at hplace ⊢
    rw [linearize, hmid, if_neg (by omega)]
  | some e =>
    obtain ⟨hrd, hb, hed, hwr, hwrrd, hwaste⟩ := h
    rcases Nat.lt_or_ge m e with hme | hme
    · rw [place_some_of_lt hme, show m + (mid - m) = mid by omega]
      rcases Nat.lt_trichotomy mid e with hlt | rfl | hgt
      · -- Before the tail.
        rw [place_some_of_lt hlt] at hplace ⊢
        refine ⟨f, by rw [linearize, if_neg (by omega)], rfl, rfl, ?_⟩
        refine ⟨hrd, hb, hed, hwr, hwrrd, ?_⟩
        rw [if_neg (by have := hunbroken e rfl hlt; omega), hwaste, if_neg (by omega)]
      · -- The first packet behind the tail: its length is found here.
        rw [if_neg (by omega)] at hwaste
        rw [place_some_of_le Nat.le.refl, Nat.sub_self]
        refine ⟨{ f with lenWaste := cfg.depth - mid }, ?_, rfl, rfl, ?_⟩
        · have hu : u16 ((cfg.depth : ℤ) - (mid : ℤ)) = cfg.depth - mid := by
            unfold u16
            omega
          rw [linearize, if_pos hb, if_neg (by omega), hu]
        · exact ⟨hrd, hb, hed, hwr, hwrrd, by rw [if_pos (by omega)]⟩
      · -- Behind a packet that has taken in ones from both sides of the tail.
        rw [if_pos hgt] at hwaste
        rw [place_some_of_le (Nat.le_of_lt hgt)]
        refine ⟨f, ?_, rfl, rfl, hrd, hb, hed, hwr, hwrrd, ?_⟩
        · rw [linearize, if_pos (by omega), if_pos (by omega), if_pos (by omega), hwaste]
          congr 2
          omega
        · rw [hwaste, if_pos (by omega)]
    · -- Behind the tail.
      rw [place_some_of_le hme, place_some_of_le (by omega : e ≤ mid)]
      rw [place_some_of_le (by omega : e ≤ mid)] at hplace
      rw [show m - e + (mid - m) = mid - e by omega]
      refine ⟨f, by rw [linearize, if_neg (by omega)], rfl, rfl, hrd, hb, hed, hwr, hwrrd, ?_⟩
      rw [hwaste, if_pos (by omega), if_pos (by omega)]

theorem QueueInv.rxCb (h : QueueInv cfg st wrap mid last) (hrx : st.rxPkts ≠ []) :
    ∃ st' mid', rxCb cfg st = some st' ∧ QueueInv cfg st' wrap mid' last := by
  obtain ⟨req, qs, hqs⟩ := exists_cons_of_ne_nil hrx
  have hchain := h.rx
  rw [hqs] at hchain
  obtain ⟨⟨hbuf, hplace, hpos, hunbroken⟩, hrest⟩ := hchain
  have hread : readInfo cfg st.fifo req =
      (st.fifo, ⟨req.len, 0, st.fifo.rdIdx, 0, req⟩) := by
    have hrd := h.rd_le
    rw [readInfo, getReadLinearInfo, if_neg (by omega)]
  have hout := h.out
  simp only [WiseSdk.Sdio.rxCb, hqs, hread, if_neg (Nat.ne_of_gt hpos)]
  rcases eq_nil_or_concat st.outPkts with hps | ⟨ps, prev, hps⟩
  · -- The only packet stands at the reader.
    rw [hps] at hout ⊢
    cases hout
    refine ⟨_, st.fifo.rdIdx + req.len, rfl, ⟨⟨?_, hbuf, hplace, rfl, hpos, hpos⟩, rfl⟩, hrest, ?_⟩
    · exact (hbuf.trans h.place_rd).symm
    · cases wrap with
      | none => exact h.fifo
      | some e =>
        obtain ⟨hrde, hb, hed, hwr, hwrrd, hwaste⟩ := h.fifo
        have hend := hunbroken e rfl hrde
        refine ⟨hrde, hb, hed, hwr, hwrrd, ?_⟩
        rw [hwaste, if_neg (by omega), if_neg (by omega)]
  · rw [concat_eq_append] at hps
    rw [hps] at hout ⊢
    obtain ⟨m, hinit, hprev, hmid⟩ := OutChain.concat_iff.mp hout
    obtain ⟨hptr, hpbuf, _, _, _, hplen⟩ := hprev
    simp only [OutChain] at hmid
    obtain ⟨f', hlin, hloc⟩ := linearize_eq h.fifo (by omega : m < mid) hplace hpos hunbroken
    rw [← hpbuf, ← hptr, show mid - m = prev.lenLin by omega] at hlin
    simp only [getLast?_concat, updateBufPtrInfo, true_or, if_true, hlin, Option.map_some]
    refine ⟨_, mid + req.len, rfl, ?_, hrest, hloc.fifo⟩
    rw [hloc.rd, OutChain.concat_iff]
    exact ⟨mid, hout, ⟨hbuf.symm, hbuf, hplace, rfl, hpos, hpos⟩, rfl⟩

/-! ## Releases -/

theorem OutChain.coalesceAt (h : OutChain cfg wrap c ps c') (hlt : c' < 65536)
    (hi : i + 1 < ps.length) :
    ∃ ps', coalesceAt ps i = some ps' ∧ OutChain cfg wrap c ps' c' := by
  induction ps generalizing c i with
  | nil => simp at hi
  | cons prev ps ih =>
    cases ps with
    | nil => simp at hi
    | cons outp rest =>
      cases i with
      | zero =>
        obtain ⟨⟨hptr, hbuf, hplace, hwrap, hreq, hlen⟩, ⟨_, _, _, hwrap', _, _⟩, hrest⟩ := h
        have hmerge : coalesce prev outp =
            some { prev with lenLin := prev.lenLin + outp.lenLin } := by
          have hle := hrest.le
          simp only [coalesce, isWrapped, hwrap, hwrap', bne_self_eq_false]
          rw [u16_add (by omega)]
        refine ⟨{ prev with lenLin := prev.lenLin + outp.lenLin } :: rest,
          by rw [WiseSdk.Sdio.coalesceAt, hmerge]; rfl, ?_, ?_⟩
        · exact ⟨hptr, hbuf, hplace, hwrap, hreq, Nat.add_pos_left hlen _⟩
        · rwa [← Nat.add_assoc]
      | succ i =>
        obtain ⟨ps', hps', hchain⟩ := ih h.2 (by simpa using hi)
        exact ⟨prev :: ps', by rw [WiseSdk.Sdio.coalesceAt, hps']; rfl, h.1, hchain⟩

/-- **Moving the reader.** Giving back up to `c` puts it where the queue goes on; past the tail the
coordinates start over. -/
theorem advanceRead_eq (h : FifoAt cfg f wrap mid last) (hwrb : f.wrIdx ≤ cfg.boundary)
    (hlen : f.rdIdx ≤ c) (hmid : c ≤ mid) (hlast : mid ≤ last)
    (hlt : last < 65536) (hplace : c < last → place wrap c ≤ cfg.boundary) :
    ∃ f', advanceRead cfg f (c - f.rdIdx) = some f' ∧
      ((f'.rdIdx = c ∧ (∀ e, wrap = some e → c < e) ∧ FifoAt cfg f' wrap mid last) ∨
        ∃ e, wrap = some e ∧ e ≤ c ∧ f'.rdIdx = c - e ∧
          FifoAt cfg f' none (mid - e) (last - e)) := by
  have hr : u16 ((f.rdIdx : ℤ) + ((c - f.rdIdx : ℕ) : ℤ)) = c := by
    rw [u16_add (by omega)]
    omega
  simp only [advanceRead, hr]
  cases wrap with
  | none =>
    obtain ⟨hwr, hb, hwaste⟩ := h
    refine ⟨{ f with rdIdx := c }, by rw [if_neg (by omega)], .inl ⟨rfl, by rintro e ⟨⟩, ?_⟩⟩
    exact ⟨hwr, hb, hwaste⟩
  | some e =>
    obtain ⟨hrd, hbe, hed, hwr, hwrrd, hwaste⟩ := h
    rcases Nat.lt_or_ge c e with hce | hce
    · have hcb := hplace (by omega)
      rw [place_some_of_lt hce] at hcb
      refine ⟨{ f with rdIdx := c }, by rw [if_neg (by omega)],
        .inl ⟨rfl, by rintro e' ⟨⟩; exact hce, hce, hbe, hed, hwr, ?_, hwaste⟩⟩
      exact Nat.le_trans hwrrd hlen
    -- Past the tail: with something located behind it, its length is added.
    have hassert : readAssert cfg f c = true := by
      unfold readAssert
      split_ifs with hpos
      · rw [decide_eq_true_eq, hwaste]
        split_ifs at hwaste ⊢ <;> omega
      · rw [decide_eq_true_eq]
        split_ifs at hwaste <;> omega
    have hrdIdx : (if f.lenWaste ≠ 0
        then u16 ((c : ℤ) + (f.lenWaste : ℤ) - (cfg.depth : ℤ)) else 0) = c - e := by
      unfold u16
      split_ifs at hwaste ⊢ <;> omega
    refine ⟨⟨f.wrIdx, c - e, 0⟩, ?_, .inr ⟨e, rfl, hce, rfl, ?_⟩⟩
    · rw [if_pos (by omega), if_pos hassert, if_pos (by omega), hrdIdx, if_neg (by omega)]
    · exact ⟨by simp only; omega, by omega, rfl⟩

theorem QueueInv.purgeOutp (h : QueueInv cfg st wrap mid last) (hi : i < st.outPkts.length) :
    ∃ st' wrap' mid' last', purgeOutp cfg st i = some st' ∧ QueueInv cfg st' wrap' mid' last' := by
  cases i with
  | succ i =>
    have hmid := h.rx.le
    have hlt := h.last_lt
    obtain ⟨ps', hps', hchain⟩ := h.out.coalesceAt (by omega) hi
    refine ⟨{ st with outPkts := ps' }, wrap, mid, last, ?_, hchain, h.rx, h.fifo⟩
    simp only [WiseSdk.Sdio.purgeOutp, hps', Option.map_some]
  | zero =>
    obtain ⟨outp, ps, hps⟩ := exists_cons_of_length_pos hi
    have hout := h.out
    rw [hps] at hout
    obtain ⟨⟨_, _, _, hwrap, _, _⟩, hrest⟩ := hout
    have hle := hrest.le
    have hlast := h.rx.le
    have hlt := h.last_lt
    have hcredit : credit outp = outp.lenLin := by
      rw [credit, u16_add (by omega), hwrap, Nat.add_zero]
    obtain ⟨f', hadv, hwhere⟩ := advanceRead_eq h.fifo h.wr_le
      (Nat.le_add_right _ outp.lenLin) hle hlast hlt (place_le_boundary hrest h.rx)
    rw [Nat.add_sub_cancel_left] at hadv
    have hstep : WiseSdk.Sdio.purgeOutp cfg st 0 =
        some { st with fifo := f', outPkts := ps } := by
      simp only [WiseSdk.Sdio.purgeOutp, hps, hcredit, hadv, Option.map_some]
    rcases hwhere with ⟨hrd, _, hfifo⟩ | ⟨e, rfl, hce, hrd, hfifo⟩
    · refine ⟨_, wrap, mid, last, hstep, ?_, h.rx, hfifo⟩
      rwa [hrd]
    · refine ⟨_, none, mid - e, last - e, hstep, ?_, h.rx.unwrap (by omega), hfifo⟩
      rw [hrd]
      exact hrest.unwrap hce

/-! ## Runs -/

def Queued (cfg : FifoConfig) (st : RxState) : Prop :=
  ∃ wrap mid last, QueueInv cfg st wrap mid last

theorem queued_init (cfg : FifoConfig) : Queued cfg {} :=
  ⟨none, 0, 0, rfl, rfl, rfl, Nat.zero_le _, rfl⟩

theorem queued_step {act : RxAction} (h : Queued cfg st)
    (hguard : FifoGuard cfg st act) : ∃ st', rxStep cfg st act = some st' ∧ Queued cfg st' := by
  obtain ⟨wrap, mid, last, h⟩ := h
  cases act with
  | arrive len =>
    obtain ⟨st', wrap', last', hstep, h'⟩ := h.arrive hguard
    exact ⟨st', hstep, wrap', mid, last', h'⟩
  | rxCb =>
    obtain ⟨st', mid', hstep, h'⟩ := h.rxCb hguard.1
    exact ⟨st', hstep, wrap, mid', last, h'⟩
  | purge index =>
    obtain ⟨st', wrap', mid', last', hstep, h'⟩ := h.purgeOutp hguard.1
    exact ⟨st', hstep, wrap', mid', last', h'⟩

/-- **The FIFO is a packet queue.** In every run of arrivals, callbacks and releases in any order,
in which the host writes over no packet, waits behind the reader until a largest packet fits, and
ends no packet at the very end of the buffer, no assertion fails, every outstanding packet is
located where it was written and the reader stands at the oldest. -/
theorem fifo_refines_queue (cfg : FifoConfig) {acts : List RxAction}
    (hacts : StepsMeet (rxStep cfg) (FifoGuard cfg) {} acts)
    {pre post : List RxAction} (hpre : acts = pre ++ post) :
    ∃ st, runSteps (rxStep cfg) {} pre = some st ∧ InPlace st := by
  subst hpre
  obtain ⟨st, hrun, _, _, _, hinv⟩ := exists_run_of_stepsMeet
    (fun _ st => Queued cfg st) (fun _ st act h hguard => queued_step h hguard)
    (queued_init cfg) hacts.of_append
  exact ⟨st, hrun, hinv.inPlace⟩

/-- A dozen packets wrap the writer, the oldest is given back, one more arrives, and the rest is
given back, newest first. -/
def wrapRun : List RxAction :=
  replicate 12 (.arrive 1700) ++ replicate 12 .rxCb ++
    [.purge 0, .arrive 1000, .rxCb, .purge 11, .purge 10] ++ replicate 10 (.purge 0)

theorem fifo_refines_queue_wrapRun :
    ∃ st, runSteps (rxStep defaultConfig) {} wrapRun = some st ∧ InPlace st := by
  have hacts : StepsMeet (rxStep defaultConfig) (FifoGuard defaultConfig) {} wrapRun := by
    decide +kernel
  exact fifo_refines_queue defaultConfig hacts (append_nil _).symm

/-- The host sends 100 bytes into the 1600 that are free behind the reader. -/
def crowdedRun : List RxAction :=
  replicate 12 (.arrive 1700) ++ [.rxCb, .purge 0, .arrive 100, .arrive 100]

/-- Packets are written, located and given back, until a largest one ends at the very end of the
buffer. -/
def edgeRun : List RxAction :=
  (replicate 11 1700 ++ [80, 1700]).flatMap fun len => [.arrive len, .rxCb, .purge 0]

/-- **Assertions that fail.** A host that writes over no packet trips that of the writer in one run,
of the reader in the other. -/
theorem fifo_assertions_fail :
    (StepsMeet (rxStep defaultConfig) (HostGuard defaultConfig) {} crowdedRun ∧
      runSteps (rxStep defaultConfig) {} crowdedRun = none) ∧
    (StepsMeet (rxStep defaultConfig) (HostGuard defaultConfig) {} edgeRun ∧
      runSteps (rxStep defaultConfig) {} edgeRun = none) := by
  refine ⟨⟨?_, ?_⟩, ?_, ?_⟩ <;> decide +kernel

end WiseSdk.Sdio
