import WiseSdk.I2s.Driver
import WiseSdk.Library.Runs

/-!
# Who holds the blocks of a slab

Every block of a slab is meant to be in exactly one place: on the free list of its slab, in the
user's hands, in the queue of a stream, or in flight as its `mem_block`. Inside a call a block may
also be in a local variable; `Keeps P w loose` is the invariant for such a moment, with those blocks
in `loose`.

Every call ends with the blocks it gives back, so one lemma carries the development:
`judged_giveBack` says of a call that gives back `bs` and leaves its stream as `st'` that the
invariant holds afterwards if the slab accepts `bs`, and that otherwise some block is on the free
list of a slab it does not belong to.
-/

namespace WiseSdk.I2s

open Library List Option Function World

/-! ## Small facts about the model -/

namespace World

variable (w : World) (d : Dir) (s : SlabId) (st st' : Stream) (sl : MemSlab)

@[simp] theorem slab_setStream : (w.setStream d st).slab = w.slab := rfl
@[simp] theorem hands_setStream : (w.setStream d st).hands = w.hands := rfl
@[simp] theorem stream_setStream : (w.setStream d st).stream d = st := update_self ..
@[simp] theorem stream_setSlab : (w.setSlab s sl).stream = w.stream := rfl
@[simp] theorem hands_setSlab : (w.setSlab s sl).hands = w.hands := rfl
@[simp] theorem slab_setSlab : (w.setSlab s sl).slab s = sl := update_self ..

theorem slab_setSlab_of_ne {s s' : SlabId} (h : s' ≠ s) : (w.setSlab s sl).slab s' = w.slab s' :=
  update_of_ne h ..

theorem stream_setStream_of_ne {d d' : Dir} (h : d' ≠ d) :
    (w.setStream d st).stream d' = w.stream d' :=
  update_of_ne h ..

@[simp] theorem setStream_setStream : (w.setStream d st).setStream d st' = w.setStream d st' := by
  simp [setStream]

@[simp] theorem setStream_self : w.setStream d (w.stream d) = w := by
  simp [setStream]

end World

@[simp] theorem stream_memSlabFree (w : World) (s : SlabId) (b : Block) :
    (memSlabFree w s b).stream = w.stream := by
  unfold memSlabFree
  split <;> rfl

theorem memSlabFree_setStream (w : World) (d : Dir) (st : Stream) (s : SlabId) (b : Block) :
    memSlabFree (w.setStream d st) s b = (memSlabFree w s b).setStream d st := by
  unfold memSlabFree
  rw [slab_setStream]
  split <;> rfl

@[simp] theorem giveBack_nil (w : World) (d : Dir) : giveBack w d [] = some w := rfl

theorem giveBack_cons (w : World) (d : Dir) (b : Block) (bs : List Block) :
    giveBack w d (b :: bs) = (freeTo w d b).bind fun w => giveBack w d bs := rfl

theorem giveBack_append (w : World) (d : Dir) (bs cs : List Block) :
    giveBack w d (bs ++ cs) = (giveBack w d bs).bind fun w => giveBack w d cs := by
  simp [giveBack]

variable {d : Dir} {w v : World}

theorem giveBack_setStream {st : Stream} (hslab : st.cfg.memSlab = (w.stream d).cfg.memSlab)
    (bs : List Block) :
    giveBack (w.setStream d st) d bs = (giveBack w d bs).map fun w => w.setStream d st := by
  induction bs generalizing w with
  | nil => rfl
  | cons b bs ih =>
    rw [giveBack_cons, giveBack_cons, freeTo, freeTo, stream_setStream, hslab]
    cases hs : (w.stream d).cfg.memSlab with
    | none => rfl
    | some s =>
      simp only [map_some, bind_some, memSlabFree_setStream]
      exact ih (by rw [stream_memSlabFree, hslab])

variable {s : SlabId}

/-- The frees of a call that does not follow a null pointer. -/
theorem giveBack_some (hs : (w.stream d).cfg.memSlab = some s) (bs : List Block) :
    giveBack w d bs = some (bs.foldl (fun w b => memSlabFree w s b) w) := by
  induction bs generalizing w with
  | nil => rfl
  | cons b bs ih =>
    rw [giveBack_cons, freeTo, hs, map_some, bind_some, foldl_cons]
    exact ih (by rw [stream_memSlabFree, hs])

theorem foldl_setStream (w : World) (d : Dir) (st : Stream) (s : SlabId) (bs : List Block) :
    (bs.foldl (fun w b => memSlabFree w s b) w).setStream d st =
      bs.foldl (fun w b => memSlabFree w s b) (w.setStream d st) :=
  (foldl_hom (fun w => w.setStream d st) fun w b => memSlabFree_setStream w d st s b).symm

/-! ## Custody -/

/-- In how many places the block is: the free list of its slab, the user's hands, the streams. -/
def World.holders (w : World) (b : Block) : ℕ :=
  (w.slab b.slab).free.count b + w.hands.count b + (w.stream .rx).blocks.count b +
    (w.stream .tx).blocks.count b

theorem Stream.count_blocks (st : Stream) (b : Block) :
    st.blocks.count b = st.memBlock.toList.count b + st.queued.count b :=
  count_append ..

/-- The block is in exactly one place, and if that is a free list, it is the one of its slab. -/
def World.SolelyHeld (w : World) (b : Block) : Prop :=
  w.holders b = 1 ∧ ∀ s, b ∈ (w.slab s).free → b.slab = s

def Sound (P : Platform) (w : World) : Prop := ∀ b, P.Owns b → w.SolelyHeld b

/-- The invariant while the blocks `loose` are in local variables of the code. -/
structure Keeps (P : Platform) (w : World) (loose : List Block) : Prop where
  held : ∀ b, w.holders b + loose.count b = if P.Owns b then 1 else 0
  own : ∀ s, ∀ b ∈ (w.slab s).free, b.slab = s
  used : ∀ s, (w.slab s).numUsed + BitVec.ofNat 32 (w.slab s).free.length = (P.slabs s).numBlocks
  slots : (w.stream .tx).sem + (w.stream .tx).queue.length = P.blockCount .tx

variable {P : Platform}

theorem Keeps.sound (h : Keeps P w []) : Sound P w := by
  intro b hb
  refine ⟨?_, fun s hs => h.own s b hs⟩
  simpa [hb] using h.held b

variable {b x : Block} {loose bs rest loose' hands : List Block}

theorem Keeps.owns_of_mem (h : Keeps P w loose) (hb : b ∈ loose) : P.Owns b := by
  by_contra hnot
  have hcount := count_pos_iff.mpr hb
  have hheld := h.held b
  rw [if_neg hnot] at hheld
  omega

theorem Keeps.owns_inFlight (h : Keeps P w loose) (hb : (w.stream d).memBlock = some b) :
    P.Owns b := by
  by_contra hnot
  have hcount : 0 < (w.stream d).blocks.count b :=
    count_pos_iff.mpr (by simp [Stream.blocks, hb])
  have hheld := h.held b
  rw [if_neg hnot, World.holders] at hheld
  cases d <;> omega

/-! ### What the primitives do to custody -/

theorem holders_setStream (w : World) (d : Dir) (st : Stream) (b : Block) :
    (w.setStream d st).holders b + (w.stream d).blocks.count b =
      w.holders b + st.blocks.count b := by
  cases d <;> simp [World.holders, stream_setStream_of_ne] <;> omega

/-- The slab has room for the blocks: the first goes to a task that waits on the empty slab, and
those on the free list are blocks of the slab. -/
def MemSlab.Accepts (sl : MemSlab) (s : SlabId) (bs : List Block) : Prop :=
  ∀ b ∈ if sl.free = [] ∧ sl.waiting then bs.tail else bs, b.slab = s
deriving Decidable

def World.Accepts (w : World) (d : Dir) (bs : List Block) : Prop :=
  ∀ s, (w.stream d).cfg.memSlab = some s → (w.slab s).Accepts s bs

@[simp] theorem World.accepts_nil (w : World) (d : Dir) : w.Accepts d [] := by
  intro s _ b hb
  simp at hb

/-- The user and the local variables exchange blocks. -/
theorem Keeps.exchange (h : Keeps P w loose)
    (hbal : ∀ x, w.hands.count x + loose.count x = hands.count x + loose'.count x) :
    Keeps P { w with hands := hands } loose' := by
  refine { h with held := fun x => ?_ }
  have hheld := h.held x
  have := hbal x
  simp only [World.holders] at hheld ⊢
  omega

/-- A slab and the local variables exchange blocks of the slab. -/
theorem Keeps.setSlab {w : World} {s : SlabId} {sl : MemSlab} (h : Keeps P w loose)
    (hown : ∀ b ∈ sl.free, b.slab = s)
    (hused : sl.numUsed + BitVec.ofNat 32 sl.free.length = (P.slabs s).numBlocks)
    (hbal : ∀ x, x.slab = s →
      (w.slab s).free.count x + loose.count x = sl.free.count x + loose'.count x)
    (hother : ∀ x, x.slab ≠ s → loose.count x = loose'.count x) :
    Keeps P (w.setSlab s sl) loose' := by
  refine ⟨fun x => ?_, fun s' => ?_, fun s' => ?_, h.slots⟩
  · have hheld := h.held x
    by_cases hx : x.slab = s
    · have hmoved := hbal x hx
      simp only [World.holders, hx, slab_setSlab, hands_setSlab,
        stream_setSlab] at hheld ⊢
      omega
    · have hsame := hother x hx
      simp only [World.holders, slab_setSlab_of_ne w _ hx, hands_setSlab,
        stream_setSlab] at hheld ⊢
      omega
  · by_cases hs : s' = s
    · rw [hs, slab_setSlab]
      exact hown
    · rw [slab_setSlab_of_ne w _ hs]
      exact h.own s'
  · by_cases hs : s' = s
    · rw [hs, slab_setSlab]
      exact hused
    · rw [slab_setSlab_of_ne w _ hs]
      exact h.used s'

theorem Keeps.setWaiting (h : Keeps P w loose) (s : SlabId) (waiting : Bool) :
    Keeps P (w.setSlab s { w.slab s with waiting := waiting }) loose :=
  h.setSlab (h.own s) (h.used s) (fun _ _ => rfl) fun _ _ => rfl

theorem count_cons_of_other (hb : b.slab = s) (hx : x.slab ≠ s) (bs : List Block) :
    (b :: bs).count x = bs.count x := by
  refine count_cons_of_ne ?_
  rintro rfl
  exact hx hb

theorem Keeps.free (h : Keeps P w (b :: loose))
    (hb : (w.slab s).free = [] ∧ (w.slab s).waiting ∨ b.slab = s) :
    Keeps P (memSlabFree w s b) loose := by
  unfold memSlabFree
  split
  · refine (h.setWaiting s false).exchange fun x => ?_
    simp only [hands_setSlab, count_cons]
    omega
  next hnot =>
  have hbs : b.slab = s := hb.resolve_left hnot
  refine h.setSlab (fun x hx => ?_) ?_ (fun x _ => ?_) fun x hx => count_cons_of_other hbs hx _
  · rcases mem_cons.mp hx with rfl | hx
    · exact hbs
    · exact h.own s x hx
  · rw [← h.used s, length_cons, BitVec.ofNat_add]
    generalize (w.slab s).numUsed = u
    generalize BitVec.ofNat 32 (w.slab s).free.length = n
    grind
  · rw [count_cons, count_cons]
    omega

theorem free_foldl (w : World) (s : SlabId) (bs : List Block) :
    ((bs.foldl (fun w b => memSlabFree w s b) w).slab s).free =
      (if (w.slab s).free = [] ∧ (w.slab s).waiting then bs.tail else bs).reverse ++
        (w.slab s).free := by
  induction bs generalizing w with
  | nil => simp
  | cons b bs ih =>
    rw [foldl_cons, ih]
    unfold memSlabFree
    by_cases hwait : (w.slab s).free = [] ∧ (w.slab s).waiting = true
    · -- The slot is taken by the first block, so the others go to the free list.
      simp [hwait]
    · simp [hwait]

/-- **Accepted frees.**  Blocks given back to a slab that accepts them are where they belong. -/
theorem Keeps.foldl (h : Keeps P w (bs ++ loose)) (hacc : (w.slab s).Accepts s bs) :
    Keeps P (bs.foldl (fun w b => memSlabFree w s b) w) loose := by
  induction bs generalizing w with
  | nil => exact h
  | cons b bs ih =>
    by_cases hwait : (w.slab s).free = [] ∧ (w.slab s).waiting = true
    · refine ih (h.free (.inl hwait)) fun x hx => hacc x ?_
      rw [if_pos hwait]
      simpa [memSlabFree, hwait] using hx
    have hall : ∀ x ∈ b :: bs, x.slab = s := by
      intro x hx
      exact hacc x (by rwa [if_neg hwait])
    refine ih (h.free (.inr (hall b mem_cons_self))) fun x hx => ?_
    refine hall x (mem_cons_of_mem b ?_)
    simpa [memSlabFree, hwait] using hx

/-- **Frees that are not accepted** leave a block on the free list of another slab. -/
theorem exists_foreign (hacc : ¬(w.slab s).Accepts s bs) :
    ∃ b ∈ bs, b ∈ ((bs.foldl (fun w b => memSlabFree w s b) w).slab s).free ∧ b.slab ≠ s := by
  simp only [MemSlab.Accepts, not_forall] at hacc
  obtain ⟨b, hb, hne⟩ := hacc
  refine ⟨b, ?_, ?_, hne⟩
  · split at hb
    · exact mem_of_mem_tail hb
    · exact hb
  · rw [free_foldl]
    exact mem_append_left _ (mem_reverse.mpr hb)

/-- The slab of the stream accepts the blocks, said of the slab. -/
theorem World.accepts_iff (hs : (w.stream d).cfg.memSlab = some s) (bs : List Block) :
    w.Accepts d bs ↔ (w.slab s).Accepts s bs := by
  refine ⟨fun hacc => hacc s hs, fun hacc s' hs' => ?_⟩
  cases hs.symm.trans hs'
  exact hacc

/-- Frees get stuck only on a stream without a slab. -/
theorem accepts_of_giveBack_none (hgive : giveBack w d bs = none) (cs : List Block) :
    w.Accepts d cs := by
  intro s hs
  rw [giveBack_some hs] at hgive
  cases hgive

theorem exists_foreign_giveBack (hgive : giveBack w d bs = some v) (hacc : ¬w.Accepts d bs)
    : ∃ b ∈ bs, ∃ s, b ∈ (v.slab s).free ∧ b.slab ≠ s := by
  cases hs : (w.stream d).cfg.memSlab with
  | none => exact absurd (fun s hs' => absurd (hs.symm.trans hs') (by simp)) hacc
  | some s =>
    rw [accepts_iff hs] at hacc
    obtain ⟨b, hb, hmem, hne⟩ := exists_foreign hacc
    rw [giveBack_some hs] at hgive
    cases hgive
    exact ⟨b, hb, s, hmem, hne⟩

theorem Keeps.good_of_mem_free (h : Keeps P w loose) (hb : b ∈ (w.slab s).free) :
    slabPtrIsGood P s b := by
  have hbs : b.slab = s := h.own s b hb
  have hpos : 0 < w.holders b := by
    have hcount := count_pos_iff.mpr hb
    rw [World.holders, hbs]
    omega
  have hheld := h.held b
  by_cases hb' : P.Owns b
  · simp [slabPtrIsGood, hbs, hb']
  · rw [if_neg hb'] at hheld
    omega

theorem Keeps.sane (h : Keeps P w loose) (hfree : (w.slab s).free = b :: rest) :
    sane P s ((w.slab s).numUsed + 1#32) rest := by
  cases rest with
  | nil =>
    have hused := h.used s
    rw [hfree] at hused
    simpa [I2s.sane] using hused
  | cons c rest => exact h.good_of_mem_free (by simp [hfree])

theorem Keeps.alloc (h : Keeps P w loose) (s : SlabId) :
    (w.slab s).free = [] ∧ memSlabAlloc P w s = some (none, w) ∨
    ∃ b rest, (w.slab s).free = b :: rest ∧
      memSlabAlloc P w s = some (some b,
        w.setSlab s { w.slab s with free := rest, numUsed := (w.slab s).numUsed + 1 }) ∧
      Keeps P (w.setSlab s { w.slab s with free := rest, numUsed := (w.slab s).numUsed + 1 })
        (b :: loose) := by
  cases hfree : (w.slab s).free with
  | nil =>
    refine .inl ⟨rfl, ?_⟩
    simp [memSlabAlloc, MemSlab.alloc, hfree, World.setSlab]
  | cons b rest =>
    have hbs : b.slab = s := h.own s b (by simp [hfree])
    refine .inr ⟨b, rest, rfl, ?_, ?_⟩
    · simp [memSlabAlloc, MemSlab.alloc, hfree, h.sane hfree]
    · refine h.setSlab (fun x hx => ?_) ?_ (fun x _ => ?_)
        fun x hx => (count_cons_of_other hbs hx _).symm
      · exact h.own s x (by rw [hfree]; exact mem_cons_of_mem b hx)
      · rw [← h.used s, hfree, length_cons, BitVec.ofNat_add, BitVec.add_assoc, BitVec.add_comm 1]
        rfl
      · simp only [hfree, count_cons]
        omega

/-- The stream and the local variables exchange blocks. -/
theorem Keeps.setStream {w : World} {d : Dir} {st : Stream} (h : Keeps P w loose)
    (hbal : ∀ x, (w.stream d).blocks.count x + loose.count x = st.blocks.count x + loose'.count x)
    (hslots : d = .tx → st.sem + st.queue.length = P.blockCount .tx) :
    Keeps P (w.setStream d st) loose' := by
  refine { h with held := fun x => ?_, slots := ?_ }
  · have hheld := h.held x
    have hmove := holders_setStream w d st x
    have := hbal x
    omega
  · cases d with
    | rx => exact h.slots
    | tx =>
      rw [stream_setStream]
      exact hslots rfl

/-! ## Verdicts -/

abbrev Judged (P : Platform) (G : Prop) (r : Option World) : Prop :=
  Verdict (fun w => Keeps P w []) (Sound P) G r

/-- **The frees decide.** A call gives back `bs` and leaves its stream as `st'`, with every block it
had in one of these places. Then the slab accepts the blocks and the invariant holds, or one is now
on the free list of a foreign slab. -/
theorem judged_giveBack {st' : Stream} (h : Keeps P w loose)
    (hbal : ∀ x, (w.stream d).blocks.count x + loose.count x = st'.blocks.count x + bs.count x)
    (hslots : d = .tx → st'.sem + st'.queue.length = P.blockCount .tx) :
    Judged P (w.Accepts d bs) ((giveBack w d bs).map fun w => w.setStream d st') := by
  have hmoved : Keeps P (w.setStream d st') bs := h.setStream hbal hslots
  cases hgive : giveBack w d bs with
  | none => exact accepts_of_giveBack_none hgive bs
  | some v =>
    by_cases hacc : w.Accepts d bs
    · refine .inl ⟨hacc, ?_⟩
      cases hs : (w.stream d).cfg.memSlab with
      | none =>
        cases bs with
        | nil =>
          cases hgive
          exact hmoved
        | cons b bs =>
          rw [giveBack_cons, freeTo, hs] at hgive
          cases hgive
      | some s =>
        rw [giveBack_some hs] at hgive
        cases hgive
        show Keeps P (World.setStream _ d st') []
        rw [foldl_setStream]
        exact Keeps.foldl (by simpa using hmoved) ((accepts_iff hs bs).mp hacc)
    · refine .inr ⟨hacc, fun hsound => ?_⟩
      obtain ⟨b, hb, s, hmem, hne⟩ := exists_foreign_giveBack hgive hacc
      exact hne ((hsound b (hmoved.owns_of_mem hb)).2 s hmem)

end WiseSdk.I2s
