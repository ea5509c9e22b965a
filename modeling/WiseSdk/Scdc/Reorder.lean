import Mathlib.Data.Finset.Max
import Mathlib.Data.List.Chain

/-!
# Reordering of received packets by sequence number

The host numbers its packets with a 32-bit counter. `reorder_pkt` of `lib/scdc/scdc.c` passes a
packet on as soon as its number is the expected one and keeps every other packet in `reorder_q`, a
list that `insert_pkt` keeps sorted by the *plain unsigned* value of the number.

The expected number wraps at `2 ^ 32`, the sort order does not. A packet that closes a hole starts
one pass over the queue, so packets numbered from `0` on lie in front of those numbered just below
`2 ^ 32` and have been passed by. `reorder_delivers_iff` says for which arrival orders nothing is
lost by that.
-/

namespace WiseSdk.Scdc

open List Function
open BitVec hiding not_or

universe u

variable {μ : Type u} {seqno next : BitVec 32}

/-- `seq_mbuf`: a packet in the reorder queue; `m` is `none` when no mbuf could be allocated. -/
structure SeqMbuf (μ : Type u) where
  m : Option μ
  seqno : BitVec 32

/-- What reordering uses of `_scdc_ctx`, with the packets handed to `if_output` so far, oldest
first. -/
structure ReorderCtx (μ : Type u) where
  reorderQ : List (SeqMbuf μ)
  outNextSeqno : BitVec 32
  output : List μ

/-- `find_seq`: the position of the last entry with a number less than or equal
to `seqno`. -/
def findSeq (seqno : BitVec 32) : List (SeqMbuf μ) → Option ℕ
  | [] => none
  | iter :: rest =>
    match findSeq seqno rest with
    -- a later entry overwrites `leq`
    | some i => some (i + 1)
    | none => if iter.seqno ≤ seqno then some 0 else none

/-- `insert_pkt`: behind its predecessor, or at the front. `none` is the failed duplicate
assertion. -/
def insertPkt (q : List (SeqMbuf μ)) (smbuf : SeqMbuf μ) :
    Option (List (SeqMbuf μ)) :=
  match findSeq smbuf.seqno q with
  | some i =>
    if (q[i]?).map SeqMbuf.seqno = some smbuf.seqno then none
    else some (q.take (i + 1) ++ smbuf :: q.drop (i + 1))
  | none => some (smbuf :: q)

/-- `flush_reorderq(true)`: every queued packet is freed. -/
def flushReorderq (ctx : ReorderCtx μ) : ReorderCtx μ :=
  { ctx with reorderQ := [] }

/-- The pass over the reorder queue: entries with the expected number are output, the others stay.
The result is the remaining queue, the next expected number and the packets output. -/
def drainReorderq : BitVec 32 → List (SeqMbuf μ) →
    List (SeqMbuf μ) × BitVec 32 × List μ
  | next, [] => ([], next, [])
  | next, smbuf :: rest =>
    if smbuf.seqno = next then
      let r := drainReorderq (next + 1#32) rest
      (r.1, r.2.1, smbuf.m.toList ++ r.2.2)
    else
      let r := drainReorderq next rest
      (smbuf :: r.1, r.2.1, r.2.2)

def reorderPkt (ctx : ReorderCtx μ) (m : Option μ) (seqno : BitVec 32)
    (sync : Bool) : Option (ReorderCtx μ) :=
  let ctx := if sync then { flushReorderq ctx with outNextSeqno := seqno } else ctx
  if seqno = ctx.outNextSeqno then
    let r := drainReorderq (ctx.outNextSeqno + 1#32) ctx.reorderQ
    some { reorderQ := r.1
           outNextSeqno := r.2.1
           output := ctx.output ++ m.toList ++ r.2.2 }
  else
    (insertPkt ctx.reorderQ ⟨m, seqno⟩).map fun q => { ctx with reorderQ := q }

def SortedQ (q : List (SeqMbuf μ)) : Prop :=
  q.Pairwise fun a b => a.seqno.toNat < b.seqno.toNat

/-! ## Insertion keeps the queue sorted -/

variable {q rest taken : List (SeqMbuf μ)} {c i j k n : ℕ} {pkt : ℕ → μ} {seen order : List ℕ}
  {x : SeqMbuf μ}

theorem exists_split (hq : SortedQ q) (seqno : BitVec 32) : ∃ pre post, q = pre ++ post ∧
    (∀ a ∈ pre, a.seqno ≤ seqno) ∧ ∀ a ∈ post, seqno < a.seqno := by
  induction q with
  | nil => exact ⟨[], [], rfl, by simp, by simp⟩
  | cons iter rest ih =>
    obtain ⟨hlt, hrest⟩ := pairwise_cons.mp hq
    by_cases hle : iter.seqno ≤ seqno
    · obtain ⟨pre, post, rfl, hpre, hpost⟩ := ih hrest
      exact ⟨iter :: pre, post, rfl, forall_mem_cons.mpr ⟨hle, hpre⟩, hpost⟩
    · have hgt : seqno < iter.seqno := BitVec.not_le.mp hle
      exact ⟨[], iter :: rest, rfl, by simp,
        forall_mem_cons.mpr ⟨hgt, fun a ha => lt_trans hgt (hlt a ha)⟩⟩

theorem findSeq_append {pre post : List (SeqMbuf μ)} (hpre : ∀ a ∈ pre, a.seqno ≤ seqno)
    (hpost : ∀ a ∈ post, seqno < a.seqno) :
    findSeq seqno (pre ++ post) = if pre = [] then none else some (pre.length - 1) := by
  induction pre with
  | nil =>
    induction post with
    | nil => rfl
    | cons a post ih =>
      obtain ⟨ha, hpost⟩ := forall_mem_cons.mp hpost
      have hnone : findSeq seqno post = none := ih hpost
      simp [findSeq, hnone, ha]
  | cons a pre ih =>
    obtain ⟨ha, hpre⟩ := forall_mem_cons.mp hpre
    rw [List.cons_append, findSeq, ih hpre]
    cases pre <;> simp [ha]

theorem insertPkt_spec (hq : SortedQ q) (x : SeqMbuf μ) (hnew : ∀ a ∈ q, a.seqno ≠ x.seqno) :
    ∃ q', insertPkt q x = some q' ∧ SortedQ q' ∧ ∀ a, a ∈ q' ↔ a = x ∨ a ∈ q := by
  obtain ⟨pre, post, rfl, hpre, hpost⟩ := exists_split hq x.seqno
  refine ⟨pre ++ x :: post, ?_, ?_, fun a => by rw [mem_append, mem_cons, or_left_comm, mem_append]⟩
  · rw [insertPkt, findSeq_append hpre hpost]
    rcases eq_nil_or_concat pre with rfl | ⟨pre, a, rfl⟩
    · rfl
    · have hne := hnew a (by simp)
      simp [hne, take_append]
  · obtain ⟨hfst, hsnd, hcross⟩ := pairwise_append.mp hq
    refine pairwise_append.mpr ⟨hfst, pairwise_cons.mpr ⟨hpost, hsnd⟩, fun a ha =>
      forall_mem_cons.mpr ⟨lt_of_le_of_ne (hpre a ha) fun h => ?_, hcross a ha⟩⟩
    exact hnew a (mem_append_left _ ha) (eq_of_toNat_eq h)

/-! ## One pass over the queue -/

/-- **What one pass over a sorted queue does.** It takes out the packets numbered `next`, `next +
1`, … up to the first hole, `c` of them. A pass never continues behind `2 ^ 32 - 1`, because what
carries the number `0` lies in front of it. -/
structure Drained (next : BitVec 32) (q : List (SeqMbuf μ)) (c : ℕ)
    (taken : List (SeqMbuf μ)) : Prop where
  numbers : taken.map (fun a => a.seqno.toNat) = range' next.toNat c
  mem_taken : ∀ a, a ∈ taken ↔
    a ∈ q ∧ next.toNat ≤ a.seqno.toNat ∧ a.seqno.toNat < next.toNat + c
  hole : ∀ a ∈ q, a.seqno.toNat ≠ next.toNat + c
  next_eq : (drainReorderq next q).2.1 = next + BitVec.ofNat 32 c
  output_eq : (drainReorderq next q).2.2 = taken.filterMap SeqMbuf.m
  sorted : SortedQ (drainReorderq next q).1
  mem_kept : ∀ a, a ∈ (drainReorderq next q).1 ↔ a ∈ q ∧ a ∉ taken

theorem drained_nil (next : BitVec 32) : Drained next ([] : List (SeqMbuf μ)) 0 [] := by
  constructor <;> simp [drainReorderq, SortedQ]

theorem Drained.take (hlt : ∀ a ∈ rest, x.seqno.toNat < a.seqno.toNat)
    (hsucc : (x.seqno + 1#32).toNat = x.seqno.toNat + 1)
    (d : Drained (x.seqno + 1#32) rest c taken) :
    Drained x.seqno (x :: rest) (c + 1) (x :: taken) where
  numbers := by rw [map_cons, d.numbers, hsucc, range'_succ]
  mem_taken a := by
    rw [mem_cons, d.mem_taken, hsucc, mem_cons]
    constructor
    · rintro (rfl | ⟨ha, h1, h2⟩)
      · exact ⟨.inl rfl, le_rfl, by omega⟩
      · exact ⟨.inr ha, by omega, by omega⟩
    · rintro ⟨rfl | ha, h1, h2⟩
      · exact .inl rfl
      · have := hlt a ha
        exact .inr ⟨ha, by omega, by omega⟩
  hole a ha := by
    rcases mem_cons.mp ha with rfl | ha
    · omega
    · have := d.hole a ha
      omega
  next_eq := by
    simp only [drainReorderq, if_true, d.next_eq]
    rw [BitVec.add_assoc, ← ofNat_add, Nat.add_comm 1 c]
  output_eq := by cases hm : x.m <;> simp [drainReorderq, d.output_eq, hm]
  sorted := by simpa [drainReorderq] using d.sorted
  mem_kept a := by
    simp only [drainReorderq, if_true, d.mem_kept, mem_cons, not_or]
    constructor
    · rintro ⟨ha, hnot⟩
      refine ⟨.inr ha, ?_, hnot⟩
      rintro rfl
      exact absurd (hlt _ ha) (lt_irrefl _)
    · rintro ⟨rfl | ha, hne, hnot⟩
      · exact absurd rfl hne
      · exact ⟨ha, hnot⟩

theorem drained_last (x : SeqMbuf μ) : Drained x.seqno [x] 1 [x] where
  numbers := by simp
  mem_taken a := by
    simp only [mem_singleton]
    refine ⟨?_, fun h => h.1⟩
    rintro rfl
    exact ⟨rfl, le_rfl, by omega⟩
  hole a ha := by
    rw [mem_singleton.mp ha]
    omega
  next_eq := by simp [drainReorderq]
  output_eq := by cases hm : x.m <;> simp [drainReorderq, hm]
  sorted := by simp [drainReorderq, SortedQ]
  mem_kept a := by simp [drainReorderq]

/-- A pass that leaves the first entry `x` in the queue. -/
theorem Drained.skip (hx : x.seqno ≠ next) (hlt : ∀ a ∈ rest, x.seqno.toNat < a.seqno.toNat)
    (d : Drained next rest c taken) :
    Drained next (x :: rest) c taken := by
  have hxne : x.seqno.toNat ≠ next.toNat := fun h => hx (eq_of_toNat_eq h)
  -- if anything is taken, `x` lies in front of it and has a smaller number
  have hxlow : c = 0 ∨ x.seqno.toNat < next.toNat := by
    refine (Nat.eq_zero_or_pos c).imp id fun hc => ?_
    have hhead : next.toNat ∈ taken.map (fun a => a.seqno.toNat) := by
      rw [d.numbers]
      exact mem_range'_1.mpr ⟨le_rfl, by omega⟩
    obtain ⟨a, ha, haval⟩ := mem_map.mp hhead
    have := hlt a ((d.mem_taken a).mp ha).1
    omega
  have hxtaken : x ∉ taken := by
    intro h
    have := ((d.mem_taken x).mp h).2
    omega
  refine ⟨d.numbers, fun a => ?_, fun a ha => ?_, ?_, ?_, ?_, fun a => ?_⟩
  · rw [d.mem_taken, mem_cons]
    constructor
    · exact fun h => ⟨.inr h.1, h.2⟩
    · rintro ⟨rfl | ha, hin⟩
      · omega
      · exact ⟨ha, hin⟩
  · rcases mem_cons.mp ha with rfl | ha
    · omega
    · exact d.hole a ha
  · simpa [drainReorderq, hx] using d.next_eq
  · simpa [drainReorderq, hx] using d.output_eq
  · simp only [drainReorderq, hx, if_false]
    exact pairwise_cons.mpr ⟨fun a ha => hlt a ((d.mem_kept a).mp ha).1, d.sorted⟩
  · simp only [drainReorderq, hx, if_false, mem_cons, d.mem_kept]
    constructor
    · rintro (rfl | ⟨ha, hnot⟩)
      · exact ⟨.inl rfl, hxtaken⟩
      · exact ⟨.inr ha, hnot⟩
    · rintro ⟨rfl | ha, hnot⟩
      · exact .inl rfl
      · exact .inr ⟨ha, hnot⟩

theorem exists_drained (hq : SortedQ q) (next : BitVec 32) : ∃ c taken, Drained next q c taken := by
  induction q generalizing next with
  | nil => exact ⟨0, [], drained_nil next⟩
  | cons x rest ih =>
    obtain ⟨hlt, hrest⟩ := pairwise_cons.mp hq
    by_cases hx : x.seqno = next
    · subst hx
      cases rest with
      | nil => exact ⟨1, [x], drained_last x⟩
      | cons y rest =>
        obtain ⟨c, taken, d⟩ := ih hrest (x.seqno + 1#32)
        refine ⟨c + 1, x :: taken, d.take hlt ?_⟩
        have h1 := hlt y (by simp)
        rw [toNat_add, toNat_ofNat]
        omega
    · obtain ⟨c, taken, d⟩ := ih hrest next
      exact ⟨c, taken, d.skip hx hlt⟩

/-! ## Runs

The host sends packets `0`, …, `n - 1`, packet `i` with the number `s + i`.
They reach `reorder_pkt` in the order `order`. -/

def seqnoOf (s : BitVec 32) (i : ℕ) : BitVec 32 := s + BitVec.ofNat 32 i

def queued (pkt : ℕ → μ) (s : BitVec 32) (i : ℕ) : SeqMbuf μ :=
  ⟨some (pkt i), seqnoOf s i⟩

/-- Feed the packets of `order` to `reorder_pkt`, none with the sync flag. -/
def reorderRun (pkt : ℕ → μ) (s : BitVec 32) (ctx : ReorderCtx μ) (order : List ℕ) :
    Option (ReorderCtx μ) :=
  order.foldlM (fun ctx i => reorderPkt ctx (some (pkt i)) (seqnoOf s i) false) ctx

/-- All `n` packets come out exactly once and in numeric order, and the reorder
queue ends empty. -/
def InOrderDelivery (pkt : ℕ → μ) (s : BitVec 32) (n : ℕ) (order : List ℕ) : Prop :=
  ∃ ctx, reorderRun pkt s ⟨[], s, []⟩ order = some ctx ∧
    ctx.output = (range n).map pkt ∧ ctx.reorderQ = []

/-- The packet that carries the number `0`, the first one behind the wrap. -/
def wrapIdx (s : BitVec 32) : ℕ := 2 ^ 32 - s.toNat

/-- The arrival orders handled: the numbers do not wrap among the `n` packets, or the packet
numbered `0` arrives after every packet before the wrap, or number `2 ^ 32 - 1` is the last of
those. -/
def ArrivalOk (s : BitVec 32) (n : ℕ) (order : List ℕ) : Prop :=
  n ≤ wrapIdx s ∨
    (∀ i < wrapIdx s, order.idxOf i < order.idxOf (wrapIdx s)) ∨
    ∀ i < wrapIdx s - 1, order.idxOf i < order.idxOf (wrapIdx s - 1)

instance (s : BitVec 32) (n : ℕ) (order : List ℕ) : Decidable (ArrivalOk s n order) :=
  inferInstanceAs (Decidable (_ ∨ _ ∨ _))

theorem wrapIdx_pos (s : BitVec 32) : 0 < wrapIdx s := by
  unfold wrapIdx
  omega

theorem seqnoOf_toNat (s : BitVec 32) (i : ℕ) :
    (seqnoOf s i).toNat = (s.toNat + i) % 2 ^ 32 := by
  simp [seqnoOf, toNat_add, toNat_ofNat]

variable {s : BitVec 32}

theorem seqnoOf_toNat_lt (hi : i < wrapIdx s) : (seqnoOf s i).toNat = s.toNat + i := by
  unfold wrapIdx at hi
  rw [seqnoOf_toNat, Nat.mod_eq_of_lt (by omega)]

theorem seqnoOf_toNat_ge (hi : wrapIdx s ≤ i) (hlt : i < 2 ^ 32) :
    (seqnoOf s i).toNat = i - wrapIdx s := by
  unfold wrapIdx at hi ⊢
  rw [seqnoOf_toNat, Nat.mod_eq_sub_mod (by omega), Nat.mod_eq_of_lt (by omega)]
  omega

theorem seqnoOf_inj (hi : i < 2 ^ 32) (hj : j < 2 ^ 32) (h : seqnoOf s i = seqnoOf s j) :
    i = j := by
  have h' := congrArg BitVec.toNat h
  rw [seqnoOf_toNat, seqnoOf_toNat] at h'
  omega

theorem seqnoOf_add (s : BitVec 32) (i c : ℕ) :
    seqnoOf s i + BitVec.ofNat 32 c = seqnoOf s (i + c) := by
  rw [seqnoOf, seqnoOf, BitVec.add_assoc, ← ofNat_add]

/-- **The state after the packets `seen`**: those below `k` are output, the others wait in the
queue. -/
structure ReorderInv (pkt : ℕ → μ) (s : BitVec 32) (seen : List ℕ) (k : ℕ)
    (ctx : ReorderCtx μ) : Prop where
  next_eq : ctx.outNextSeqno = seqnoOf s k
  output_eq : ctx.output = (range k).map pkt
  sorted : SortedQ ctx.reorderQ
  mem_queue : ∀ a, a ∈ ctx.reorderQ ↔ ∃ i ∈ seen, k ≤ i ∧ a = queued pkt s i
  delivered : ∀ i < k, i ∈ seen

/-- Number and position agree behind `k`, up to the wrap. -/
theorem seqnoOf_add_toNat (hlt : k + j < 2 ^ 32) (hside : k < wrapIdx s → k + j < wrapIdx s) :
    (seqnoOf s (k + j)).toNat = (seqnoOf s k).toNat + j := by
  rcases Nat.lt_or_ge k (wrapIdx s) with hk | hk
  · rw [seqnoOf_toNat_lt hk, seqnoOf_toNat_lt (hside hk), Nat.add_assoc]
  · rw [seqnoOf_toNat_ge hk (by omega), seqnoOf_toNat_ge (by omega) hlt]
    omega

theorem lt_wrapIdx_of_seqnoOf_le (hi : i < 2 ^ 32)
    (hle : (seqnoOf s k).toNat ≤ (seqnoOf s i).toNat) (hk : k < wrapIdx s) : i < wrapIdx s := by
  by_contra hge
  rw [seqnoOf_toNat_lt hk, seqnoOf_toNat_ge (by omega) hi] at hle
  unfold wrapIdx at *
  omega

theorem reorderPkt_of_eq (ctx : ReorderCtx μ) (m : Option μ) (h : ctx.outNextSeqno = seqno) :
    reorderPkt ctx m seqno false = some ⟨(drainReorderq (seqno + 1#32) ctx.reorderQ).1,
        (drainReorderq (seqno + 1#32) ctx.reorderQ).2.1,
        ctx.output ++ m.toList ++ (drainReorderq (seqno + 1#32) ctx.reorderQ).2.2⟩ := by
  simp [reorderPkt, h]

theorem reorderPkt_of_ne (ctx : ReorderCtx μ) (m : Option μ) (h : ctx.outNextSeqno ≠ seqno) :
    reorderPkt ctx m seqno false =
      (insertPkt ctx.reorderQ ⟨m, seqno⟩).map fun q => { ctx with reorderQ := q } := by
  simp [reorderPkt, Ne.symm h]

variable {ctx : ReorderCtx μ}

section

variable (hinv : ReorderInv pkt s seen k ctx) (hseen : ∀ i ∈ seen, i < 2 ^ 32)

include hinv hseen

theorem ReorderInv.taken_eq (hnew : k ∉ seen)
    (d : Drained (seqnoOf s (k + 1)) ctx.reorderQ c taken) :
    (taken = (range c).map fun j => queued pkt s (k + 1 + j)) ∧ (∀ j < c, k + 1 + j ∈ seen) ∧
      ∀ j < c, (seqnoOf s (k + 1 + j)).toNat = (seqnoOf s (k + 1)).toNat + j := by
  -- a taken packet sits as far behind `k + 1` as its number says
  have hindex : ∀ a ∈ taken, ∃ i ∈ seen, a = queued pkt s i ∧
      i = k + 1 + (a.seqno.toNat - (seqnoOf s (k + 1)).toNat) := by
    intro a ha
    obtain ⟨hq, hlow, -⟩ := (d.mem_taken a).mp ha
    obtain ⟨i, hi, hle, rfl⟩ := (hinv.mem_queue a).mp hq
    have hki : k ≠ i := fun h => hnew (h ▸ hi)
    have hlt := hseen i hi
    have hnum := seqnoOf_add_toNat (s := s) (k := k + 1) (j := i - (k + 1)) (by omega)
      fun h => by have := lt_wrapIdx_of_seqnoOf_le hlt hlow h; omega
    rw [show k + 1 + (i - (k + 1)) = i by omega] at hnum
    refine ⟨i, hi, rfl, ?_⟩
    change i = k + 1 + ((seqnoOf s i).toNat - (seqnoOf s (k + 1)).toNat)
    omega
  have hnum : ∀ j < c, k + 1 + j ∈ seen ∧
      (seqnoOf s (k + 1 + j)).toNat = (seqnoOf s (k + 1)).toNat + j := by
    intro j hj
    have hmem : (seqnoOf s (k + 1)).toNat + j ∈ taken.map fun a => a.seqno.toNat := by
      rw [d.numbers]
      exact mem_range'_1.mpr ⟨by omega, by omega⟩
    obtain ⟨a, ha, haval⟩ := mem_map.mp hmem
    obtain ⟨i, hi, rfl, hieq⟩ := hindex a ha
    have hij : i = k + 1 + j := by omega
    subst hij
    exact ⟨hi, haval⟩
  refine ⟨?_, fun j hj => (hnum j hj).1, fun j hj => (hnum j hj).2⟩
  have hself : taken = (taken.map fun a => a.seqno.toNat).map fun x =>
      queued pkt s (k + 1 + (x - (seqnoOf s (k + 1)).toNat)) := by
    rw [map_map]
    nth_rewrite 1 [← map_id taken]
    refine map_congr_left fun a ha => ?_
    obtain ⟨i, -, haq, hieq⟩ := hindex a ha
    rw [comp_apply, ← hieq, id, haq]
  rw [hself, d.numbers, range'_eq_map_range, map_map]
  simp [comp_def]

theorem ReorderInv.pass (hnew : k ∉ seen) (d : Drained (seqnoOf s (k + 1)) ctx.reorderQ c taken) :
    ReorderInv pkt s (seen ++ [k]) (k + 1 + c) ⟨(drainReorderq (seqnoOf s (k + 1)) ctx.reorderQ).1,
        (drainReorderq (seqnoOf s (k + 1)) ctx.reorderQ).2.1, ctx.output ++ (some (pkt k)).toList ++
          (drainReorderq (seqnoOf s (k + 1)) ctx.reorderQ).2.2⟩ := by
  obtain ⟨htaken, hrun, -⟩ := hinv.taken_eq hseen hnew d
  refine ⟨?_, ?_, d.sorted, fun a => ?_, fun i hi => ?_⟩
  · exact d.next_eq.trans (seqnoOf_add s (k + 1) c)
  · simp only [hinv.output_eq, d.output_eq, htaken, Option.toList_some]
    rw [range_add, range_succ, map_append, map_append, filterMap_map]
    simp [comp_def, queued]
  · rw [d.mem_kept, hinv.mem_queue]
    constructor
    · rintro ⟨⟨i, hi, hle, rfl⟩, hnot⟩
      refine ⟨i, mem_append_left _ hi, ?_, rfl⟩
      by_contra hlt
      have hki : k ≠ i := fun h => hnew (h ▸ hi)
      rw [htaken, mem_map] at hnot
      exact hnot ⟨i - (k + 1), mem_range.mpr (by omega), by congr 1; omega⟩
    · rintro ⟨i, hi, hle, rfl⟩
      have hi : i ∈ seen := by
        rcases mem_append.mp hi with h | h
        · exact h
        · rw [mem_singleton] at h
          omega
      refine ⟨⟨i, hi, by omega, rfl⟩, fun hmem => ?_⟩
      obtain ⟨j, hj, heq⟩ := mem_map.mp (htaken ▸ hmem)
      rw [mem_range] at hj
      have := seqnoOf_inj (hseen _ (hrun j hj)) (hseen i hi)
        (congrArg SeqMbuf.seqno heq)
      omega
  · rcases Nat.lt_trichotomy i k with h | rfl | h
    · exact mem_append_left _ (hinv.delivered i h)
    · simp
    · have := hrun (i - (k + 1)) (by omega)
      rw [show k + 1 + (i - (k + 1)) = i by omega] at this
      exact mem_append_left _ this

/-- **The expected packet arrives.** The output advances from `k` to some `k'` over packets that
have arrived, up to one that has not, or to the wrap, which a pass that began before it does not
cross. -/
theorem reorderPkt_expected (hnew : k ∉ seen) :
    ∃ ctx' k', reorderPkt ctx (some (pkt k)) (seqnoOf s k) false = some ctx' ∧
      ReorderInv pkt s (seen ++ [k]) k' ctx' ∧ (k + 1 < wrapIdx s → k' ≤ wrapIdx s) ∧
      (k' ∉ seen ++ [k] ∨ k' = wrapIdx s ∧ k + 1 < wrapIdx s) := by
  obtain ⟨c, taken, d⟩ := exists_drained hinv.sorted (seqnoOf s (k + 1))
  obtain ⟨-, -, hnum⟩ := hinv.taken_eq hseen hnew d
  have hstart : seqnoOf s k + 1#32 = seqnoOf s (k + 1) := seqnoOf_add s k 1
  have hwrap : k + 1 < wrapIdx s → k + 1 + c ≤ wrapIdx s := by
    intro hk
    rcases Nat.eq_zero_or_pos c with hc | hc
    · omega
    have h1 := hnum (c - 1) (by omega)
    rw [seqnoOf_toNat_lt hk] at h1
    unfold wrapIdx
    omega
  refine ⟨_, k + 1 + c, reorderPkt_of_eq ctx _ hinv.next_eq, ?_, hwrap, ?_⟩
  · rw [hstart]
    exact hinv.pass hseen hnew d
  · -- the entry that stopped the pass, if there is one, is behind the wrap
    by_cases hmem : k + 1 + c ∈ seen
    · right
      have hq := (hinv.mem_queue _).mpr ⟨_, hmem, by omega, rfl⟩
      have hside : ¬ (k + 1 < wrapIdx s → k + 1 + c < wrapIdx s) := fun h =>
        d.hole _ hq (seqnoOf_add_toNat (hseen _ hmem) h)
      rw [Classical.not_imp] at hside
      exact ⟨le_antisymm (hwrap hside.1) (by omega), hside.1⟩
    · left
      simp only [mem_append, mem_singleton, not_or]
      exact ⟨hmem, by omega⟩

/-- **Another packet arrives.**  It is put into the queue, nothing is output. -/
theorem reorderPkt_early (hj : j < 2 ^ 32) (hnew : j ∉ seen) (hjk : j ≠ k) :
    ∃ ctx', reorderPkt ctx (some (pkt j)) (seqnoOf s j) false = some ctx' ∧
      ReorderInv pkt s (seen ++ [j]) k ctx' := by
  have hkj : k < j := lt_of_le_of_ne
    (not_lt.mp fun h => hnew (hinv.delivered j h)) (Ne.symm hjk)
  have hne : ctx.outNextSeqno ≠ seqnoOf s j := by
    rw [hinv.next_eq]
    exact fun h => hjk (seqnoOf_inj (by omega) hj h).symm
  obtain ⟨q', hins, hsorted, hmem⟩ := insertPkt_spec hinv.sorted (queued pkt s j) (by
    intro a ha
    obtain ⟨i, hi, -, rfl⟩ := (hinv.mem_queue a).mp ha
    exact fun h => hnew (seqnoOf_inj (hseen i hi) hj h ▸ hi))
  refine ⟨{ ctx with reorderQ := q' }, ?_, hinv.next_eq, hinv.output_eq, hsorted, ?_, ?_⟩
  · rw [reorderPkt_of_ne ctx _ hne]
    exact congrArg (Option.map _) hins
  · intro a
    rw [hmem, hinv.mem_queue]
    constructor
    · rintro (rfl | ⟨i, hi, hle, rfl⟩)
      · exact ⟨j, by simp, by omega, rfl⟩
      · exact ⟨i, mem_append_left _ hi, hle, rfl⟩
    · rintro ⟨i, hi, hle, rfl⟩
      rcases mem_append.mp hi with hi | hi
      · exact .inr ⟨i, hi, hle, rfl⟩
      · rw [mem_singleton] at hi
        exact .inl (by rw [hi])
  · exact fun i hi => mem_append_left _ (hinv.delivered i hi)

end

/-! ## Where the queue gets stuck

The packet numbered `0` is lost when it waits in the queue while a pass that
began before the wrap outputs the packet numbered `2 ^ 32 - 1`. -/

/-- The last packet before the wrap was `j`, not the one numbered `2 ^ 32 - 1`, and number `0` was
already there. -/
def Stuck (s : BitVec 32) (seen : List ℕ) : Prop :=
  ∃ pre j post, seen = pre ++ j :: post ∧ j + 1 < wrapIdx s ∧ wrapIdx s ∈ pre ∧
    j ∉ pre ∧ ∀ i < wrapIdx s, i ∈ pre ∨ i = j

theorem Stuck.append (h : Stuck s seen) (i : ℕ) : Stuck s (seen ++ [i]) := by
  obtain ⟨pre, j, post, rfl, hrest⟩ := h
  exact ⟨pre, j, post ++ [i], by simp, hrest⟩

/-- Getting stuck happens at the arrival of one packet. -/
theorem stuck_append_iff (hnew : j ∉ seen) :
    Stuck s (seen ++ [j]) ↔ Stuck s seen ∨
      j + 1 < wrapIdx s ∧ wrapIdx s ∈ seen ∧ ∀ i < wrapIdx s, i ∈ seen ∨ i = j := by
  constructor
  · rintro ⟨pre, j', post, hsplit, h1, h2, h3, h4⟩
    rcases eq_nil_or_concat post with rfl | ⟨post', x, rfl⟩
    · obtain ⟨rfl, hj⟩ := append_inj' hsplit rfl
      obtain rfl : j = j' := by simpa using hj
      exact .inr ⟨h1, h2, h4⟩
    · have hsplit' : seen ++ [j] = (pre ++ j' :: post') ++ [x] := by simpa using hsplit
      obtain ⟨rfl, -⟩ := append_inj' hsplit' rfl
      exact .inl ⟨pre, j', post', rfl, h1, h2, h3, h4⟩
  · rintro (h | ⟨h1, h2, h4⟩)
    · exact h.append j
    · exact ⟨seen, j, [], rfl, h1, h2, hnew, h4⟩

/-- **One arrival.** As long as nothing is stuck, the first packet not output has not arrived; from
then on it is number `0`. -/
theorem reorderPkt_step (hinv : ReorderInv pkt s seen k ctx) (hseen : ∀ i ∈ seen, i < 2 ^ 32)
    (hj : j < 2 ^ 32) (hnew : j ∉ seen)
    (hk : Stuck s seen ∧ k = wrapIdx s ∨ ¬ Stuck s seen ∧ k ∉ seen) :
    ∃ ctx' k', reorderPkt ctx (some (pkt j)) (seqnoOf s j) false = some ctx' ∧
      ReorderInv pkt s (seen ++ [j]) k' ctx' ∧
      (Stuck s (seen ++ [j]) ∧ k' = wrapIdx s ∨ ¬ Stuck s (seen ++ [j]) ∧ k' ∉ seen ++ [j]) := by
  by_cases hjk : j = k
  · subst hjk
    have hfree : ¬ Stuck s seen := by
      rcases hk with ⟨⟨pre, j', post, rfl, -, hw, -⟩, rfl⟩ | h
      · exact absurd (mem_append_left _ hw) hnew
      · exact h.1
    obtain ⟨ctx', k', hstep, hinv', hle, hstop⟩ := reorderPkt_expected hinv hseen hnew
    refine ⟨ctx', k', hstep, hinv', ?_⟩
    rw [stuck_append_iff hnew, or_iff_right hfree]
    by_cases hstuck : j + 1 < wrapIdx s ∧ wrapIdx s ∈ seen ∧
        ∀ i < wrapIdx s, i ∈ seen ∨ i = j
    · refine .inl ⟨hstuck, ?_⟩
      rcases hstop with hnot | ⟨h, -⟩
      · by_contra hne
        have := hstuck.2.2 k' (lt_of_le_of_ne (hle hstuck.1) hne)
        exact hnot (by simpa using this)
      · exact h
    · refine .inr ⟨hstuck, ?_⟩
      rcases hstop with hnot | ⟨rfl, hlt⟩
      · exact hnot
      intro hmem
      refine hstuck ⟨hlt, ?_, fun i hi => by simpa using hinv'.delivered i hi⟩
      rcases mem_append.mp hmem with h | h
      · exact h
      · rw [mem_singleton] at h
        omega
  · obtain ⟨ctx', hstep, hinv'⟩ := reorderPkt_early hinv hseen hj hnew hjk
    refine ⟨ctx', k, hstep, hinv', ?_⟩
    rcases hk with ⟨hstuck, rfl⟩ | ⟨hfree, hknew⟩
    · exact .inl ⟨hstuck.append j, rfl⟩
    refine .inr ⟨?_, by simp [hknew, Ne.symm hjk]⟩
    rw [stuck_append_iff hnew, or_iff_right hfree]
    rintro ⟨hlt, -, hall⟩
    have hkw : wrapIdx s ≤ k := by
      by_contra h
      rcases hall k (by omega) with h' | h'
      · exact hknew h'
      · exact hjk h'.symm
    exact hnew (hinv.delivered j (by omega))

/-- **The whole run**, by induction on the arrivals. -/
theorem reorderRun_spec (pkt : ℕ → μ) (s : BitVec 32) (hnodup : order.Nodup)
    (hlt : ∀ i ∈ order, i < 2 ^ 32) :
    ∃ ctx k, reorderRun pkt s ⟨[], s, []⟩ order = some ctx ∧ ReorderInv pkt s order k ctx ∧
      (Stuck s order ∧ k = wrapIdx s ∨ ¬ Stuck s order ∧ k ∉ order) := by
  induction order using List.reverseRecOn with
  | nil =>
    refine ⟨⟨[], s, []⟩, 0, rfl, ⟨?_, rfl, Pairwise.nil, by simp, by simp⟩, ?_⟩
    · simp [seqnoOf]
    · exact .inr ⟨by rintro ⟨pre, j, post, h, -⟩; simp at h, by simp⟩
  | append_singleton seen j ih =>
    rw [nodup_append] at hnodup
    obtain ⟨hseen, -, hdisj⟩ := hnodup
    have hnew : j ∉ seen := fun h => hdisj j h j (by simp) rfl
    obtain ⟨ctx, k, hrun, hinv, hk⟩ :=
      ih hseen fun i hi => hlt i (mem_append_left _ hi)
    obtain ⟨ctx', k', hstep, hinv', hk'⟩ := reorderPkt_step hinv
      (fun i hi => hlt i (mem_append_left _ hi)) (hlt j (by simp)) hnew hk
    refine ⟨ctx', k', ?_, hinv', hk'⟩
    unfold reorderRun at hrun ⊢
    rw [foldlM_append, hrun]
    simpa using hstep

theorem stuck_iff_not_arrivalOk (horder : order.Perm (range n)) :
    Stuck s order ↔ ¬ ArrivalOk s n order := by
  have hmem : ∀ i, i ∈ order ↔ i < n := fun i => by rw [horder.mem_iff, mem_range]
  have hpos := wrapIdx_pos s
  constructor
  · rintro ⟨pre, j, post, rfl, hj, hw, hjnew, hall⟩
    -- `j` stands behind everything it is compared with
    have hjidx : (pre ++ j :: post).idxOf j = pre.length := by
      rw [idxOf_append_of_notMem hjnew, idxOf_cons_self, Nat.add_zero]
    have hpre : ∀ i ∈ pre, (pre ++ j :: post).idxOf i < pre.length := fun i hi => by
      rw [idxOf_append_of_mem hi]
      exact idxOf_lt_length_iff.mpr hi
    rintro (hn | hzero | hlast)
    · have := (hmem _).mp (mem_append_left (j :: post) hw)
      omega
    · have h1 := hzero j (by omega)
      have h2 := hpre _ hw
      omega
    · have h1 := hlast j (by omega)
      rcases hall (wrapIdx s - 1) (by omega) with h | h
      · have h2 := hpre _ h
        omega
      · omega
  · intro hnot
    simp only [ArrivalOk, not_or, not_le, not_forall, not_lt] at hnot
    obtain ⟨hn, ⟨i₀, hi₀, hzero⟩, ⟨i₁, hi₁, hlast⟩⟩ := hnot
    obtain ⟨j, hj, hmax⟩ := Finset.exists_max_image (Finset.range (wrapIdx s))
      (fun i => order.idxOf i) ⟨0, Finset.mem_range.mpr hpos⟩
    rw [Finset.mem_range] at hj
    have hin : ∀ i ≤ wrapIdx s, i ∈ order := fun i hi => (hmem i).mpr (by omega)
    have hjlt := idxOf_lt_length_iff.mpr (hin j (by omega))
    have hbefore : ∀ i ≤ wrapIdx s, order.idxOf i ≤ order.idxOf j →
        i ∈ order.take (order.idxOf j) ∨ i = j := by
      intro i hi hle
      rcases Nat.lt_or_eq_of_le hle with h | h
      · left
        rw [mem_take_iff_idxOf_lt (hin i hi)]
        exact h
      · exact .inr ((idxOf_inj (hin i hi)).mp h)
    have hw : wrapIdx s ∈ order.take (order.idxOf j) := by
      rcases hbefore _ le_rfl (hzero.trans (hmax i₀ (Finset.mem_range.mpr hi₀))) with h | h
      · exact h
      · omega
    refine ⟨order.take (order.idxOf j), j, order.drop (order.idxOf j + 1), ?_, ?_, hw, ?_, ?_⟩
    · nth_rewrite 1 [← take_append_drop (order.idxOf j) order]
      rw [drop_eq_getElem_cons hjlt, getElem_idxOf]
    · by_contra hge
      have hjw : j = wrapIdx s - 1 := by omega
      have h1 := hmax i₁ (Finset.mem_range.mpr (by omega))
      rw [← hjw] at hlast
      have := (idxOf_inj (hin j (by omega))).mp (le_antisymm hlast h1)
      omega
    · exact fun h => absurd ((mem_take_iff_idxOf_lt (hin j (by omega))).mp h) (lt_irrefl _)
    · exact fun i hi => hbefore i (by omega) (hmax i (Finset.mem_range.mpr hi))

/-- **In-order delivery.** For every start number, every `n` up to the number of sequence numbers
and every arrival order, the packets come out exactly once and in order, and the queue ends empty,
if and only if the packet numbered `0` is not left behind by the pass that reaches the wrap. -/
theorem reorder_delivers_iff (pkt : ℕ → μ) (s : BitVec 32) (n : ℕ) (hn : n ≤ 2 ^ 32)
    (order : List ℕ) (horder : order.Perm (range n)) :
    InOrderDelivery pkt s n order ↔ ArrivalOk s n order := by
  have hmem : ∀ i, i ∈ order ↔ i < n := fun i => by rw [horder.mem_iff, mem_range]
  obtain ⟨ctx, k, hrun, hinv, hk⟩ := reorderRun_spec pkt s
    (horder.nodup_iff.mpr nodup_range)
    (fun i hi => lt_of_lt_of_le ((hmem i).mp hi) hn)
  rcases hk with ⟨hstuck, rfl⟩ | ⟨hfree, hknew⟩
  · -- the packet numbered `0` is still queued
    refine iff_of_false ?_ ((stuck_iff_not_arrivalOk horder).mp hstuck)
    rintro ⟨ctx', hrun', -, hempty⟩
    obtain rfl : ctx = ctx' := Option.some.inj (hrun.symm.trans hrun')
    obtain ⟨pre, j, post, rfl, -, hw, -⟩ := hstuck
    have := (hinv.mem_queue _).mpr ⟨_, mem_append_left _ hw, le_rfl, rfl⟩
    rw [hempty] at this
    simp at this
  refine iff_of_true ?_ (not_not.mp fun h =>
    hfree ((stuck_iff_not_arrivalOk horder).mpr h))
  have hkn : k = n := by
    refine le_antisymm (not_lt.mp fun h => ?_) (not_lt.mp fun h => hknew ((hmem k).mpr h))
    have := (hmem n).mp (hinv.delivered n h)
    omega
  subst hkn
  refine ⟨ctx, hrun, hinv.output_eq, eq_nil_iff_forall_not_mem.mpr fun a ha => ?_⟩
  obtain ⟨i, hi, hle, -⟩ := (hinv.mem_queue a).mp ha
  have := (hmem i).mp hi
  omega

/-- Two packets before and one behind the wrap; the second comes first and waits in the queue. -/
theorem reorder_delivers_across_wrap :
    reorderRun (fun i : ℕ => i) 0xFFFFFFFE#32 ⟨[], 0xFFFFFFFE#32, []⟩ [1] =
        some ⟨[⟨some 1, 0xFFFFFFFF#32⟩], 0xFFFFFFFE#32, []⟩ ∧
      InOrderDelivery (fun i => i) 0xFFFFFFFE#32 3 [1, 0, 2] :=
  ⟨rfl, (reorder_delivers_iff _ _ 3 (by decide) _ (by decide)).mpr (by decide)⟩

/-- The same packets in the opposite order: the packet numbered `0` stays in the
queue. -/
theorem reorder_loses_across_wrap :
    ¬ ∀ (s : BitVec 32) (n : ℕ), n ≤ 2 ^ 32 → ∀ order : List ℕ,
      order.Perm (range n) → InOrderDelivery (fun i => i) s n order := by
  intro h
  have hperm : [2, 1, 0].Perm (range 3) := by decide
  obtain ⟨ctx, hrun, -, hempty⟩ := h 0xFFFFFFFE#32 3 (by decide) [2, 1, 0] hperm
  have hstate : reorderRun (fun i : ℕ => i) 0xFFFFFFFE#32 ⟨[], 0xFFFFFFFE#32, []⟩ [2, 1, 0] =
      some ⟨[⟨some 2, 0#32⟩], 0#32, [0, 1]⟩ := by rfl
  rw [hstate, Option.some.injEq] at hrun
  rw [← hrun] at hempty
  simp at hempty

end WiseSdk.Scdc
