import Mathlib.Data.List.Nodup
import WiseSdk.I2s.Custody

/-!
# Block ownership along runs of the I2S driver

Every call, callback and action of the user is judged against a condition on the state before it
(`Guard`).

* A callback of the receiver that finds the stream stopping must not get through: the path that
  queues the block just filled and then stops goes on to the label `rx_disable` with `mblk_tmp` set,
  and frees the block that is in the queue.
* A delayed start must not be tried again while the block of an earlier try is still in `mem_block`:
  the next block of the queue overwrites it.
* The blocks a call gives back must be blocks of the slab the stream is configured with. They are
  not when `python_i2s_configure` has changed the slab of a stream that still holds blocks, or when
  the user wrote a block of another slab.

`block_ownership_iff` says that these conditions are exact.
-/

namespace WiseSdk.I2s

open Library List Function World
open Option hiding or_self

/-! ## The condition -/

/-- A callback of the transmitter goes on to the next block of the queue. -/
def Stream.SendsNext (st : Stream) (status : DmaStatus) : Prop :=
  status ≠ .aborted ∧ st.state ≠ .error ∧ st.lastBlock = false ∧
    ¬(st.state = .stopping ∧ status = .complete ∧ (st.queue = [] ∨ st.txStopForDrain = false))
deriving Decidable

variable (P : Platform) {status : DmaStatus} {r : ℤ × World} {start : ℤ} {tmp : Block}

/-- The condition on a callback of the receiver that has a block and a slab. -/
def RxGuard (w : World) (reload : ℤ) (tmp : Block) (s : SlabId) : Prop :=
  match (w.slab s).free with
  | [] => (w.slab s).Accepts s [tmp]
  | new :: rest =>
    if reload < 0 ∨ P.blockCount .rx ≤ (w.stream .rx).queue.length then
      MemSlab.Accepts { w.slab s with free := rest } s [tmp, new]
    else (w.stream .rx).state ≠ .stopping

def TriggerGuard (w : World) (d : Dir) (busy : Bool) : TriggerCmd → Prop
  | .start => True
  | .stop =>
    (w.stream d).state = .running → busy = false → w.Accepts d (w.stream d).memBlock.toList
  | .drain =>
    (w.stream d).state = .running ∨ (w.stream d).state = .starting → busy = false →
      (d = .tx → (w.stream d).queue = []) → w.Accepts d (w.stream d).memBlock.toList
  | .drop => (w.stream d).state ≠ .notReady → w.Accepts d (w.stream d).blocks
  | .prepare => (w.stream d).state = .error → w.Accepts d (w.stream d).queued
  | .other => True

def Guard (w : World) : Action → Prop
  | .configure (.one d) cfg _ =>
    ∀ s, cfg.memSlab = some s → cfg.blockSize ≤ (P.slabs s).blockSize →
      (w.stream d).state = .notReady ∨ (w.stream d).state = .ready → cfg.frameClkFreq = 0 →
        w.Accepts d (w.stream d).queued
  | .bufWrite b _ _ =>
    b ∈ w.hands → (w.stream .tx).state = .starting → 0 < (w.stream .tx).sem →
      (w.stream .tx).memBlock = none
  | .trigger (.one d) cmd _ busy => TriggerGuard w d busy cmd
  | .rxCallback status reload =>
    status ≠ .aborted → (w.stream .rx).state ≠ .ready →
      if status = .error ∨ (w.stream .rx).state = .error then
        w.Accepts .rx (w.stream .rx).memBlock.toList
      else ∀ tmp s, (w.stream .rx).memBlock = some tmp → (w.stream .rx).cfg.memSlab = some s →
        RxGuard P w reload tmp s
  | .txCallback status reload =>
    if status = .error then w.Accepts .tx (w.stream .tx).memBlock.toList
    else ∀ b, (w.stream .tx).memBlock = some b →
      w.Accepts .tx (b :: if (w.stream .tx).SendsNext status ∧ reload < 0 then
        (w.stream .tx).queued.head?.toList else [])
  | _ => True

/-! ## The parts of a call as frees and assignments -/

variable {w w' : World}

theorem stream_giveBack {d : Dir} {bs : List Block} (h : giveBack w d bs = some w') :
    w'.stream = w.stream := by
  induction bs generalizing w with
  | nil =>
    cases h
    rfl
  | cons b bs ih =>
    obtain ⟨v, hv, h⟩ := bind_eq_some_iff.mp h
    obtain ⟨s, -, rfl⟩ := map_eq_some_iff.mp hv
    rw [ih h, stream_memSlabFree]

theorem map_modify_giveBack (w : World) (d : Dir) (bs : List Block) (f : Stream → Stream) :
    (giveBack w d bs).map (fun w => w.modify d f) =
      (giveBack w d bs).map fun v => v.setStream d (f (w.stream d)) := by
  cases hg : giveBack w d bs with
  | none => rfl
  | some v => rw [map_some, map_some, World.modify, stream_giveBack hg]

theorem streamDisable_eq (w : World) (d : Dir) :
    streamDisable w d = (giveBack w d (w.stream d).memBlock.toList).map fun v =>
      v.setStream d { w.stream d with memBlock := none } := by
  unfold streamDisable
  cases hm : (w.stream d).memBlock with
  | none =>
    have hsame : { w.stream d with memBlock := none } = w.stream d := by rw [← hm]
    simp [hsame]
  | some b =>
    have h := map_modify_giveBack w d [b] fun st => { st with memBlock := none }
    simpa [giveBack_cons] using h

theorem queueDrop_eq (w : World) (d : Dir) :
    queueDrop P w d = (giveBack w d (w.stream d).queued).map fun v =>
      v.setStream d { w.stream d with queue := [], sem := semAfterDrop P d (w.stream d) } :=
  map_modify_giveBack w d _ _

theorem freeTo_eq (w : World) (d : Dir) (b : Block) : freeTo w d b = giveBack w d [b] := by
  rw [giveBack_cons]
  cases freeTo w d b <;> rfl

theorem giveBack_bind_setStream {d : Dir} {st : Stream}
    (hslab : st.cfg.memSlab = (w.stream d).cfg.memSlab) (st' : Stream) (bs cs : List Block) :
    ((giveBack w d bs).bind fun v =>
        (giveBack (v.setStream d st) d cs).map fun v => v.setStream d st') =
      (giveBack w d (bs ++ cs)).map fun v => v.setStream d st' := by
  rw [giveBack_append]
  cases hg : giveBack w d bs with
  | none => rfl
  | some v =>
    rw [bind_some, bind_some,
      giveBack_setStream (hslab.trans (by rw [stream_giveBack hg])), Option.map_map]
    refine congrArg (fun g => (giveBack v d cs).map g) (funext fun u => ?_)
    exact setStream_setStream ..

theorem World.accepts_setStream {d : Dir} {st : Stream}
    (hslab : st.cfg.memSlab = (w.stream d).cfg.memSlab) (bs : List Block) :
    (w.setStream d st).Accepts d bs ↔ w.Accepts d bs := by
  rw [World.Accepts, World.Accepts, stream_setStream, hslab]
  rfl

/-! ## Verdicts on the calls -/

section Verdicts

variable {P : Platform} {w : World} {d : Dir}

/-- Assignments to the fields of a stream that hold no block and no token. -/
def Stream.SameHoldings (st st' : Stream) : Prop :=
  st'.memBlock = st.memBlock ∧ st'.queue = st.queue ∧ st'.sem = st.sem

variable {st' : Stream}

section

variable (h : Keeps P w [])

include h

theorem Keeps.assign (hsame : (w.stream d).SameHoldings st') : Keeps P (w.setStream d st') [] := by
  obtain ⟨hmem, hqueue, hsem⟩ := hsame
  refine h.setStream (fun x => ?_) ?_
  · rw [Stream.blocks, Stream.blocks, Stream.queued, Stream.queued, hmem, hqueue]
  · rintro rfl
    rw [hsem, hqueue]
    exact h.slots

theorem judged_disable (hsame : Stream.SameHoldings { w.stream d with memBlock := none } st') :
    Judged P (w.Accepts d (w.stream d).memBlock.toList)
      ((giveBack w d (w.stream d).memBlock.toList).map fun v => v.setStream d st') := by
  obtain ⟨hmem, hqueue, hsem⟩ := hsame
  refine judged_giveBack h (fun x => ?_) ?_
  · simp only [Stream.blocks, Stream.queued, hmem, hqueue, count_append, toList_none, count_nil]
    omega
  · rintro rfl
    rw [hsem, hqueue]
    exact h.slots

theorem sem_afterDrop : semAfterDrop P .tx (w.stream .tx) = P.blockCount .tx := by
  rw [semAfterDrop, h.slots, Nat.min_self]

theorem judged_doTriggerStop (busy : Bool) :
    Judged P (busy = false → w.Accepts d (w.stream d).memBlock.toList)
      ((doTriggerStop w d busy).map Prod.snd) := by
  unfold doTriggerStop
  cases busy with
  | true => exact verdict_of_inv (by simp) (h.assign ⟨rfl, rfl, rfl⟩)
  | false =>
    rw [if_neg (by simp), streamDisable_eq, Option.map_map, Option.map_map]
    simp only [comp_def, World.modify, stream_setStream,
      setStream_setStream, true_imp_iff]
    exact judged_disable h ⟨rfl, rfl, rfl⟩

theorem judged_drop (hsame : Stream.SameHoldings
      { w.stream d with queue := [], sem := semAfterDrop P d (w.stream d) } st') :
    Judged P (w.Accepts d (w.stream d).queued)
      ((giveBack w d (w.stream d).queued).map fun v => v.setStream d st') := by
  obtain ⟨hmem, hqueue, hsem⟩ := hsame
  refine judged_giveBack h (fun x => ?_) ?_
  · simp only [Stream.blocks, Stream.queued, hmem, hqueue, count_append, map_nil, count_nil]
    omega
  · rintro rfl
    rw [hsem, hqueue, sem_afterDrop h, length_nil, Nat.add_zero]

theorem judged_streamDisable :
    Judged P (w.Accepts d (w.stream d).memBlock.toList) (streamDisable w d) := by
  rw [streamDisable_eq]
  exact judged_disable h ⟨rfl, rfl, rfl⟩

theorem judged_queueDrop : Judged P (w.Accepts d (w.stream d).queued) (queueDrop P w d) := by
  rw [queueDrop_eq]
  exact judged_drop h ⟨rfl, rfl, rfl⟩

end

/-- `tx_stream_start` with something queued: the oldest block becomes the one in flight, whatever
was there, and its token is returned. -/
theorem txStreamStart_spec (start : ℤ) (hqueue : (w.stream .tx).queue ≠ [])
    (hslots : (w.stream .tx).sem + (w.stream .tx).queue.length = P.blockCount .tx) :
    ∃ st', (txStreamStart P w start).2 = w.setStream .tx st' ∧
      (∀ x, st'.blocks.count x = (w.stream .tx).queued.count x) ∧
      st'.sem + st'.queue.length = P.blockCount .tx := by
  obtain ⟨it, rest, hq⟩ := exists_cons_of_ne_nil hqueue
  rw [hq, length_cons] at hslots
  refine ⟨Stream.release P .tx
    { w.stream .tx with queue := rest, memBlock := some it.memBlock }, ?_, fun x => ?_, ?_⟩
  · rw [txStreamStart, hq]
    split_ifs <;> rfl
  · simp [Stream.release, Stream.blocks, Stream.queued, hq]
  · simp only [Stream.release]
    omega

section

variable (h : Keeps P w [])

include h

theorem keeps_txStreamStart (hmem : (w.stream .tx).memBlock = none) (start : ℤ) :
    Keeps P (txStreamStart P w start).2 [] := by
  by_cases hqueue : (w.stream .tx).queue = []
  · rw [txStreamStart, hqueue]
    exact h
  obtain ⟨st', heq, hblocks, hslots⟩ := txStreamStart_spec start hqueue h.slots
  rw [heq]
  refine h.setStream (fun x => ?_) fun _ => hslots
  rw [hblocks, Stream.blocks, hmem]
  rfl

theorem keeps_rxStreamStart (hmem : (w.stream .rx).memBlock = none)
    (hr : rxStreamStart P w start = some r) : Keeps P r.2 [] := by
  obtain ⟨s, hs, hr⟩ := bind_eq_some_iff.mp hr
  rcases h.alloc s with ⟨-, halloc⟩ | ⟨b, rest, -, halloc, hkeeps⟩
  · rw [halloc] at hr
    cases hr
    exact h.assign ⟨hmem.symm, rfl, rfl⟩
  rw [halloc] at hr
  have hstored : Keeps P ((w.setSlab s
      { w.slab s with free := rest, numUsed := (w.slab s).numUsed + 1 }).modify .rx
        fun st => { st with memBlock := some b }) [] := by
    refine hkeeps.setStream (fun x => ?_) (by simp)
    simp only [Stream.blocks, Stream.queued, stream_setSlab, hmem, count_append,
      toList_none, toList_some, count_nil]
    omega
  simp only [map_some, some.injEq] at hr
  subst hr
  split_ifs <;> exact hstored

theorem keeps_streamStart (hmem : (w.stream d).memBlock = none)
    (hr : streamStart P w start d = some r) : Keeps P r.2 [] := by
  cases d with
  | rx => exact keeps_rxStreamStart h hmem hr
  | tx =>
    cases hr
    exact keeps_txStreamStart h hmem start

theorem judged_triggerStart (start : ℤ) :
    Judged P True ((triggerStart P w d start).map Prod.snd) := by
  unfold triggerStart
  split_ifs with hready hmem
  · exact verdict_of_inv trivial h
  · trivial
  · cases hr : streamStart P w start d with
    | none => trivial
    | some r =>
      have hkeeps := keeps_streamStart h (not_not.mp hmem) hr
      refine verdict_of_inv trivial ?_
      simp only
      split_ifs
      · exact hkeeps.assign ⟨rfl, rfl, rfl⟩
      · exact hkeeps
      · exact hkeeps.assign ⟨rfl, rfl, rfl⟩

theorem judged_drain (start : ℤ) (busy : Bool) :
    Judged P (TriggerGuard w d busy .drain)
      ((trigger P w (.one d) .drain start busy).map Prod.snd) := by
  simp only [trigger, TriggerGuard]
  by_cases hrun : (w.stream d).state = .running ∨ (w.stream d).state = .starting
  swap
  · rw [if_pos (not_or.mp hrun)]
    exact verdict_of_inv (fun hnot => absurd hnot hrun) h
  rw [if_neg (fun hnot => hrun.elim hnot.1 hnot.2)]
  cases d with
  | rx => exact (judged_doTriggerStop h busy).congr (by simp [hrun])
  | tx =>
    simp only
    split_ifs with hmore
    · refine verdict_of_inv (fun _ hbusy hempty => ?_) (h.assign ⟨rfl, rfl, rfl⟩)
      rcases hmore with hqueue | hb
      · exact absurd (hempty trivial) hqueue
      · rw [hbusy] at hb
        cases hb
    rw [streamDisable_eq, Option.map_map, Option.map_map]
    simp only [comp_def, World.modify, stream_setStream, setStream_setStream]
    refine Verdict.congr (judged_disable h ?_) ?_
    · exact ⟨rfl, rfl, rfl⟩
    · simp only [not_or, not_not, Bool.not_eq_true] at hmore
      simp [hrun, hmore]

end

theorem disable_bind_drop (P : Platform) (w : World) (d : Dir) (f : Stream → Stream) :
    ((streamDisable w d).bind fun w => (queueDrop P w d).map fun w => w.modify d f) =
      (giveBack w d (w.stream d).blocks).map fun v => v.setStream d (f { w.stream d with
        memBlock := none, queue := [], sem := semAfterDrop P d (w.stream d) }) := by
  have hsem : semAfterDrop P d { w.stream d with memBlock := none } =
      semAfterDrop P d (w.stream d) := by
    cases d <;> rfl
  rw [streamDisable_eq, bind_map]
  simp only [comp_def, queueDrop_eq, Option.map_map, World.modify,
    stream_setStream, setStream_setStream, hsem]
  refine giveBack_bind_setStream ?_ _ _ _
  rfl

theorem judged_trigger (h : Keeps P w []) (dir : I2sDir) (cmd : TriggerCmd) (start : ℤ)
    (busy : Bool) :
    Judged P (Guard P w (.trigger dir cmd start busy))
      (step P w (.trigger dir cmd start busy)) := by
  cases dir with
  | both | other => exact verdict_of_inv trivial h
  | one d =>
    cases cmd with
    | start => exact judged_triggerStart h start
    | stop =>
      simp only [step, trigger, Guard, TriggerGuard]
      split_ifs with hstate
      · exact verdict_of_inv (fun hrun => absurd hrun hstate) h
      · exact (judged_doTriggerStop h busy).congr (by simp [not_not.mp hstate])
    | drain => exact judged_drain h start busy
    | drop =>
      simp only [step, trigger, Guard, TriggerGuard]
      split_ifs with hstate
      · exact verdict_of_inv (fun hnot => absurd hstate hnot) h
      have heq := disable_bind_drop P w d fun st => { st with state := .ready }
      simp only [Option.map_bind, Option.map_map, comp_def, heq]
      refine Verdict.congr (judged_giveBack h (fun x => ?_) ?_) (by simp [hstate])
      · simp [Stream.blocks, Stream.queued]
      · rintro rfl
        simpa using sem_afterDrop h
    | prepare =>
      simp only [step, trigger, Guard, TriggerGuard]
      split_ifs with hstate
      · exact verdict_of_inv (fun herr => absurd herr hstate) h
      have hready : Keeps P (w.modify d fun st => { st with state := .ready }) [] :=
        h.assign ⟨rfl, rfl, rfl⟩
      simp only [Option.map_map, comp_def, Option.map_id_fun', id_eq]
      refine (judged_queueDrop hready).congr ?_
      rw [World.modify, accepts_setStream (by rfl), stream_setStream]
      exact ⟨fun hacc _ => hacc, fun hacc => hacc (not_not.mp hstate)⟩
    | other => exact verdict_of_inv trivial h

theorem judged_configure (h : Keeps P w []) (dir : I2sDir) (cfg : Config) (clock : ℤ) :
    Judged P (Guard P w (.configure dir cfg clock)) (step P w (.configure dir cfg clock)) := by
  have hcfg : ∀ d, Keeps P (w.modify d fun st => { st with cfg := cfg }) [] :=
    fun _ => h.assign ⟨rfl, rfl, rfl⟩
  simp only [step, configure]
  cases hs : cfg.memSlab with
  | none =>
    cases dir with
    | one d => exact fun s hs' => absurd (hs.symm.trans hs') (by simp)
    | both => trivial
    | other => trivial
  | some s =>
    rw [bind_some]
    cases dir with
    | both | other => split_ifs <;> exact verdict_of_inv trivial h
    | one d =>
      simp only [Guard, hs]
      split_ifs with hsize hstate hfreq
      · refine verdict_of_inv (fun s' hs' hle => ?_) h
        cases hs'
        omega
      · exact verdict_of_inv (fun _ _ _ hnot => absurd hnot (not_or.mpr hstate)) h
      · rw [queueDrop_eq]
        simp only [Option.map_map, comp_def, World.modify,
          stream_setStream, setStream_setStream]
        refine Verdict.congr (judged_drop h ?_)
          ⟨fun hacc _ _ _ _ _ => hacc,
            fun hacc => hacc s rfl (Nat.le_of_not_lt hsize)
              (of_not_not fun hnot => hstate (not_or.mp hnot)) hfreq⟩
        exact ⟨rfl, rfl, rfl⟩
      all_goals refine verdict_of_inv (fun _ _ _ _ hzero => absurd hzero hfreq) ?_
      · exact hcfg d
      · exact hcfg d
      · exact hcfg d
      · exact (hcfg d).assign ⟨rfl, rfl, rfl⟩

variable {it : QueueItem} {rest : List QueueItem}

theorem Keeps.read (h : Keeps P w []) (hq : (w.stream .rx).queue = it :: rest) (sem : ℕ) :
    Keeps P { w.setStream .rx { w.stream .rx with sem := sem, queue := rest } with
      hands := it.memBlock :: w.hands } [] := by
  have hloose : Keeps P (w.setStream .rx { w.stream .rx with sem := sem, queue := rest })
      [it.memBlock] := by
    refine h.setStream (fun x => ?_) (by simp)
    simp only [Stream.blocks, Stream.queued, hq, map_cons, count_append, count_cons, count_nil]
    omega
  refine hloose.exchange fun x => ?_
  simp only [hands_setStream, count_cons, count_nil]
  omega

theorem judged_bufRead (h : Keeps P w []) :
    Judged P (Guard P w .bufRead) (step P w .bufRead) := by
  refine verdict_of_inv trivial ?_
  simp only [bufRead]
  split_ifs with hnot hsem herr
  · exact h
  · exact h
  · cases hq : (w.stream .rx).queue with
    | nil => exact h.setStream (fun _ => rfl) (by simp)
    | cons it rest => exact h.read hq (w.stream .rx).sem
  · cases hq : (w.stream .rx).queue with
    | nil =>
      refine h.setStream (fun x => ?_) (by simp)
      rw [Stream.blocks, Stream.blocks, Stream.queued, Stream.queued, hq]
    | cons it rest => exact h.read hq ((w.stream .rx).sem - 1)

/-- The stream once the block of a write is in its queue. -/
def Stream.queuedUp (st : Stream) (it : QueueItem) : Stream :=
  { st with sem := st.sem - 1, queue := st.queue ++ [it] }

theorem bufWrite_taken (h : Keeps P w []) (it : QueueItem) (start : ℤ)
    (hgo : ¬((w.stream .tx).state ≠ .running ∧ (w.stream .tx).state ≠ .starting ∧
      (w.stream .tx).state ≠ .ready)) (hsem : 0 < (w.stream .tx).sem) :
    bufWrite P w it start =
      let v := w.setStream .tx ((w.stream .tx).queuedUp it)
      let r := txStreamStart P v start
      if (w.stream .tx).state = .starting then
        if r.1 = 0 then (0, r.2.modify .tx fun st => { st with state := .running }) else (0, r.2)
      else (0, v) := by
  -- The tokens leave room in the queue.
  have hslots := h.slots
  have hput : Stream.put P .tx { w.stream .tx with sem := (w.stream .tx).sem - 1 } it =
      some ((w.stream .tx).queuedUp it) := by
    rw [Stream.put, if_pos]
    · rfl
    simp only
    omega
  simp only [bufWrite, if_neg hgo, if_neg (Nat.pos_iff_ne_zero.mp hsem), hput, getD_some]

/-- The user takes a block from their hands to write it. -/
theorem Keeps.takeUp (h : Keeps P w []) {b : Block} (hb : b ∈ w.hands) :
    Keeps P { w with hands := w.hands.erase b } [b] := by
  refine h.exchange fun x => ?_
  have hpos := count_pos_iff.mpr hb
  rw [count_erase, count_singleton, count_nil]
  by_cases hx : b = x
  · subst hx
    simp
    omega
  · have hne : (b == x) = false := by simpa using hx
    simp [hne]

theorem judged_alloc (h : Keeps P w []) (s : SlabId) :
    Judged P (Guard P w (.alloc s)) (step P w (.alloc s)) := by
  simp only [step]
  rcases h.alloc s with ⟨-, halloc⟩ | ⟨b, rest, -, halloc, hkeeps⟩
  · rw [halloc]
    exact verdict_of_inv trivial h
  · rw [halloc]
    refine verdict_of_inv trivial (hkeeps.exchange fun x => ?_)
    simp only [hands_setSlab, toList_some, count_append, count_nil]
    omega

theorem judged_free (h : Keeps P w []) (b : Block) :
    Judged P (Guard P w (.free b)) (step P w (.free b)) := by
  simp only [step]
  split_ifs with hb
  · exact verdict_of_inv trivial ((h.takeUp hb).free (.inr rfl))
  · trivial

theorem judged_wait (h : Keeps P w []) (s : SlabId) (waiting : Bool) :
    Judged P (Guard P w (.wait s waiting)) (step P w (.wait s waiting)) :=
  verdict_of_inv trivial (h.setWaiting s waiting)

/-- **A block in flight that is overwritten** is in no other place. -/
theorem judged_overwrite (h : Keeps P w [])
    (hblocks : ∀ x, st'.blocks.count x = (w.stream .tx).queued.count x)
    (hslots : st'.sem + st'.queue.length = P.blockCount .tx) :
    Judged P ((w.stream .tx).memBlock = none) (some (w.setStream .tx st')) := by
  cases hmem : (w.stream .tx).memBlock with
  | none =>
    refine verdict_of_inv rfl (h.setStream (fun x => ?_) fun _ => hslots)
    rw [hblocks, Stream.blocks, hmem]
    rfl
  | some old =>
    have hown := h.owns_inFlight hmem
    refine verdict_of_not_sound (by simp) fun hsound => ?_
    have hone := (hsound old hown).1
    have hmove := holders_setStream w .tx st' old
    have hheld := h.held old
    rw [if_pos hown] at hheld
    rw [hblocks, Stream.count_blocks, hmem, toList_some, count_singleton_self] at hmove
    omega

/-- **A second try of a delayed start loses a block**: a starting stream must have none in flight
when the user writes. -/
theorem judged_bufWrite (h : Keeps P w []) (b : Block) (size : ℕ) (start : ℤ) :
    Judged P (Guard P w (.bufWrite b size start)) (step P w (.bufWrite b size start)) := by
  simp only [step, Guard]
  by_cases hb : b ∈ w.hands
  swap
  · rw [if_neg hb]
    exact fun hb' => absurd hb' hb
  rw [if_pos hb]
  by_cases hgo : (w.stream .tx).state ≠ .running ∧ (w.stream .tx).state ≠ .starting ∧
      (w.stream .tx).state ≠ .ready
  · simp only [bufWrite, if_pos hgo]
    exact verdict_of_inv (fun _ hs => absurd hs hgo.2.1) h
  by_cases hsem : 0 < (w.stream .tx).sem
  swap
  · simp only [bufWrite, if_neg hgo, if_pos (Nat.eq_zero_of_not_pos hsem)]
    exact verdict_of_inv (fun _ _ hpos => absurd hpos hsem) h
  have hqueued : Keeps P (World.setStream { w with hands := w.hands.erase b } .tx
      ((w.stream .tx).queuedUp ⟨b, size⟩)) [] := by
    have hslots := h.slots
    refine (h.takeUp hb).setStream (fun x => ?_) fun _ => ?_
    · simp [Stream.blocks, Stream.queued, Stream.queuedUp, Nat.add_assoc]
    · simp only [Stream.queuedUp, length_append, length_singleton]
      omega
  rw [bufWrite_taken h ⟨b, size⟩ start hgo hsem]
  by_cases hstarting : (w.stream .tx).state = .starting
  swap
  · simp only [if_neg hstarting, if_true]
    exact verdict_of_inv (fun _ hs => absurd hs hstarting) hqueued
  obtain ⟨st', heq, hblocks, hslots⟩ := txStreamStart_spec (P := P)
    (w := w.setStream .tx ((w.stream .tx).queuedUp ⟨b, size⟩)) start
    (by simp [Stream.queuedUp]) (by simpa using hqueued.slots)
  rw [stream_setStream] at hblocks
  rw [setStream_setStream] at heq
  refine Verdict.congr (G := (w.stream .tx).memBlock = none) ?_
    ⟨fun hnone _ _ _ => hnone, fun hnone => hnone hb hstarting hsem⟩
  have hlost : ∀ st'' : Stream, st''.blocks = st'.blocks →
      st''.sem + st''.queue.length = P.blockCount .tx → Judged P ((w.stream .tx).memBlock = none)
        (some { w.setStream .tx st'' with hands := w.hands.erase b }) := by
    intro st'' hsame hslots'
    have hjudged : Judged P _ (some (World.setStream _ .tx st'')) :=
      judged_overwrite hqueued (by simpa [hsame] using hblocks) hslots'
    rw [setStream_setStream, stream_setStream] at hjudged
    exact hjudged
  simp only [if_pos hstarting, heq]
  split_ifs with _ hret hret
  · simpa [World.modify] using hlost { st' with state := .running } rfl hslots
  · exact absurd rfl hret
  · exact hlost st' rfl hslots
  · exact absurd rfl hret

/-! ### The callbacks -/

theorem rxDisable_setStream {st : Stream}
    (hslab : st.cfg.memSlab = (w.stream .rx).cfg.memSlab) (tmp : Option Block) (ret : ℤ) :
    (rxDisable (w.setStream .rx st) tmp ret).map Prod.snd =
      (giveBack w .rx (tmp.toList ++ st.memBlock.toList)).map fun v =>
        v.setStream .rx { st with memBlock := none } := by
  rw [rxDisable, giveBack_setStream hslab, bind_map]
  simp only [comp_def, streamDisable_eq, Option.map_bind, Option.map_map, stream_setStream]
  exact giveBack_bind_setStream hslab _ _ _

/-- **A block that is queued and given back** has two holders; `st` is the stream without it. -/
theorem not_sound_of_queued {loose bs : List Block} {st : Stream} {v : World} (h : Keeps P w loose)
    (hown : P.Owns tmp)
    (hbal : ∀ x, (w.stream d).blocks.count x + loose.count x = st.blocks.count x + bs.count x)
    (hslots : d = .tx → st.sem + st.queue.length = P.blockCount .tx)
    (htmp : ∀ x, st'.blocks.count x = st.blocks.count x + [tmp].count x)
    (hgive : giveBack w d bs = some v) : ¬Sound P (v.setStream d st') := by
  intro hsound
  have hjudged := judged_giveBack h hbal hslots
  rw [hgive] at hjudged
  rcases hjudged with ⟨-, hkeeps⟩ | ⟨hacc, -⟩
  · have hmove := holders_setStream (v.setStream d st) d st' tmp
    rw [setStream_setStream, stream_setStream, htmp, (hsound tmp hown).1,
      count_singleton_self] at hmove
    have hheld : (v.setStream d st).holders tmp + [].count tmp = _ := hkeeps.held tmp
    rw [if_pos hown, count_nil] at hheld
    omega
  · obtain ⟨b, hb, s, hmem, hne⟩ := exists_foreign_giveBack hgive hacc
    exact hne ((hsound b ((h.setStream hbal hslots).owns_of_mem hb)).2 s hmem)

theorem judged_rxReceive (h : Keeps P w []) {s : SlabId} (hmem : (w.stream .rx).memBlock = some tmp)
    (hs : (w.stream .rx).cfg.memSlab = some s)
    (status : DmaStatus) (reload : ℤ) (hstatus : status ≠ .aborted) (herror : status ≠ .error)
    (hready : (w.stream .rx).state ≠ .ready) (hstate : (w.stream .rx).state ≠ .error) :
    Judged P (RxGuard P w reload tmp s) ((dmaRxCallback P w status reload).map Prod.snd) := by
  simp only [dmaRxCallback, hstatus, herror, hready, hstate, hmem, hs, or_self, if_false, bind_some]
  rcases h.alloc s with ⟨hfree, halloc⟩ | ⟨b, rest, hfree, halloc, hkeeps⟩
  · -- No block is left: the one just filled is given back.
    simp only [halloc, bind_some, RxGuard, hfree, World.modify, stream_setStream,
      setStream_setStream]
    rw [rxDisable_setStream (by rfl), ← accepts_iff hs]
    refine judged_giveBack h (fun x => ?_) (by simp)
    simp only [Stream.count_blocks, Stream.queued, hmem, toList_some, toList_none, count_nil]
    omega
  generalize hw : w.setSlab s { w.slab s with free := rest, numUsed := (w.slab s).numUsed + 1 }
    = w' at halloc hkeeps
  have hstream : w'.stream = w.stream := by rw [← hw, stream_setSlab]
  simp only [halloc, bind_some, World.modify, stream_setStream,
    setStream_setStream, hstream, Stream.put, RxGuard, hfree]
  have hs' : (w'.stream .rx).cfg.memSlab = some s := by rw [hstream, hs]
  have haccept : MemSlab.Accepts { w.slab s with free := rest } s [tmp, b] ↔
      w'.Accepts .rx [tmp, b] := by
    rw [accepts_iff hs', ← hw, slab_setSlab]
    rfl
  -- What the stream is after both blocks were given back.
  have hboth : ∀ st' : Stream, st'.memBlock = none → st'.queue = (w.stream .rx).queue → ∀ x,
      (w'.stream .rx).blocks.count x + [b].count x = st'.blocks.count x + [tmp, b].count x := by
    intro st' hnone hqueue x
    simp only [hstream, Stream.count_blocks, Stream.queued, hmem, hnone, hqueue,
      toList_some, toList_none, count_cons, count_nil]
    omega
  by_cases hreload : reload < 0
  · simp only [hreload, true_or, if_true, haccept]
    rw [rxDisable_setStream (by rw [hstream])]
    exact judged_giveBack hkeeps (hboth _ rfl rfl) (by simp)
  by_cases hroom : (w.stream .rx).queue.length < P.blockCount .rx
  · simp only [hreload, false_or, if_false, if_pos hroom, if_neg (Nat.not_le.mpr hroom)]
    by_cases hstop : (w.stream .rx).state = .stopping
    · -- The block just filled is queued, and then freed.
      rw [if_pos hstop, rxDisable_setStream (by rw [hstream, Stream.release]),
        giveBack_some hs', map_some]
      refine .inr ⟨fun hne => hne hstop, not_sound_of_queued hkeeps
        (h.owns_inFlight hmem)
        (hboth { w.stream .rx with memBlock := none } rfl rfl) (by simp) (fun x => ?_)
        (giveBack_some hs' _)⟩
      simp [Stream.count_blocks, Stream.queued, Stream.release]
    · rw [if_neg hstop]
      refine verdict_of_inv hstop (hkeeps.setStream (fun x => ?_) (by simp))
      simp only [hstream, Stream.count_blocks, Stream.queued, Stream.release, hmem, toList_some,
        map_append, map_cons, map_nil, count_append, count_nil]
      omega
  · simp only [hreload, false_or, if_false, if_neg hroom, if_pos (Nat.le_of_not_lt hroom), haccept]
    rw [rxDisable_setStream (by rw [hstream])]
    exact judged_giveBack hkeeps (hboth _ rfl rfl) (by simp)

theorem judged_rxDisable (h : Keeps P w []) (ret : ℤ) :
    Judged P (w.Accepts .rx (w.stream .rx).memBlock.toList)
      ((rxDisable w none ret).map Prod.snd) := by
  have heq : (rxDisable w none ret).map Prod.snd = streamDisable w .rx := by
    simp [rxDisable, comp_def]
  rw [heq]
  exact judged_streamDisable h

theorem judged_rxCallback (h : Keeps P w []) (status : DmaStatus) (reload : ℤ) :
    Judged P (Guard P w (.rxCallback status reload)) (step P w (.rxCallback status reload)) := by
  simp only [step, Guard]
  by_cases hquiet : status = .aborted ∨ (w.stream .rx).state = .ready
  · simp only [dmaRxCallback, if_pos hquiet]
    exact verdict_of_inv (fun hstatus hready => absurd hquiet (not_or.mpr ⟨hstatus, hready⟩)) h
  obtain ⟨hstatus, hready⟩ := not_or.mp hquiet
  refine Verdict.congr ?_ ⟨fun hguard _ _ => hguard, fun hguard => hguard hstatus hready⟩
  by_cases herror : status = .error
  · have hfail : Keeps P (w.modify .rx fun st => { st with state := .error }) [] :=
      h.assign ⟨rfl, rfl, rfl⟩
    have heq : dmaRxCallback P w status reload =
        rxDisable (w.modify .rx fun st => { st with state := .error }) none (-eio) := by
      simp only [dmaRxCallback, if_neg hquiet, if_pos herror]
    rw [heq]
    refine (judged_rxDisable hfail _).congr ?_
    rw [if_pos (.inl herror), World.modify, accepts_setStream (by rfl), stream_setStream]
  cases hmem : (w.stream .rx).memBlock with
  | none =>
    simp only [dmaRxCallback, if_neg hquiet, if_neg herror, hmem, bind_none]
    split_ifs
    · exact accepts_nil w .rx
    · exact fun tmp s hnone => absurd hnone (by simp)
  | some tmp =>
    by_cases hstate : (w.stream .rx).state = .error
    · have heq : dmaRxCallback P w status reload = rxDisable w none (-eio) := by
        simp only [dmaRxCallback, if_neg hquiet, if_neg herror, hmem, bind_some, if_pos hstate]
      rw [heq, if_pos (.inr hstate), ← hmem]
      exact judged_rxDisable h _
    rw [if_neg (not_or.mpr ⟨herror, hstate⟩)]
    cases hs : (w.stream .rx).cfg.memSlab with
    | none =>
      simp only [dmaRxCallback, if_neg hquiet, if_neg herror, hmem, hs, if_neg hstate, bind_some]
      intro _ s _ hnone
      cases hnone
    | some s =>
      refine (judged_rxReceive h hmem hs status reload hstatus herror hready hstate).congr
        ⟨fun hguard tmp' s' htmp hs' => ?_, fun hguard => hguard tmp s rfl rfl⟩
      cases htmp
      cases hs'
      exact hguard

theorem txSent_quiet (status : DmaStatus) (reload : ℤ) (hmem : (w.stream .tx).memBlock = none)
    (hslots : (w.stream .tx).sem + (w.stream .tx).queue.length = P.blockCount .tx)
    (hquiet : ¬((w.stream .tx).SendsNext status ∧ (w.stream .tx).queue ≠ [])) :
    ∃ st', (w.stream .tx).SameHoldings st' ∧
      (txSent P w status reload).map Prod.snd = some (w.setStream .tx st') := by
  -- There is nothing in flight to give back.
  have hdisable : ∀ (st : Stream) (ret : ℤ), (w.stream .tx).SameHoldings st →
      ∃ st', (w.stream .tx).SameHoldings st' ∧
        (txDisable (w.setStream .tx st) ret).map Prod.snd = some (w.setStream .tx st') :=
    fun st ret hsame => ⟨st, hsame, by simp [txDisable, streamDisable, hsame.1, hmem]⟩
  have hready := hdisable { w.stream .tx with state := .ready } 0 ⟨rfl, rfl, rfl⟩
  have hidle := hdisable (w.stream .tx) (-eio) ⟨rfl, rfl, rfl⟩
  rw [setStream_self] at hidle
  unfold txSent
  simp only
  split_ifs with haborted herror hempty hstop hlast
  · exact ⟨w.stream .tx, ⟨rfl, rfl, rfl⟩, by rw [setStream_self, map_some]⟩
  · exact hidle
  · -- The queue is dropped when it is empty: all tokens are back already.
    obtain ⟨-, -, hqueue⟩ := hempty
    have hdrop : queueDrop P w .tx = some w := by
      have hsem : semAfterDrop P .tx (w.stream .tx) = (w.stream .tx).sem := by
        rw [hqueue, length_nil, Nat.add_zero] at hslots
        simp [semAfterDrop, hqueue, hslots]
      have hst : { w.stream .tx with queue := [], sem := semAfterDrop P .tx (w.stream .tx) } =
          w.stream .tx := by
        rw [hsem, ← hqueue]
      rw [queueDrop_eq, hst, Stream.queued, hqueue]
      simp
    rw [hdrop]
    exact hready
  · exact hready
  · exact hready
  · have hqueue : (w.stream .tx).queue = [] := by
      by_contra hne
      refine hquiet ⟨⟨haborted, herror, by simpa using hlast, ?_⟩, hne⟩
      rintro ⟨hs, hc, hq | hd⟩
      · exact hne hq
      · exact hstop ⟨hs, hc, hd⟩
    rw [txNext, hqueue]
    exact hdisable _ _ ⟨rfl, rfl, rfl⟩

theorem txSent_next (P : Platform) (reload : ℤ) (hq : (w.stream .tx).queue = it :: rest)
    (hnext : (w.stream .tx).SendsNext status) :
    (txSent P w status reload).map Prod.snd = if reload < 0 then
        (giveBack w .tx [it.memBlock]).map fun v => v.setStream .tx (Stream.release P .tx
          { w.stream .tx with queue := rest, memBlock := none })
      else some (w.setStream .tx (Stream.release P .tx
        { w.stream .tx with queue := rest, memBlock := some it.memBlock })) := by
  obtain ⟨haborted, herror, hlast, hstop⟩ := hnext
  have hempty : ¬((w.stream .tx).state = .stopping ∧ status = .complete ∧
      (w.stream .tx).queue = []) := fun h => hstop ⟨h.1, h.2.1, .inl h.2.2⟩
  have hdrain : ¬((w.stream .tx).state = .stopping ∧ status = .complete ∧
      (w.stream .tx).txStopForDrain = false) := fun h => hstop ⟨h.1, h.2.1, .inr h.2.2⟩
  have heq : txSent P w status reload = txNext P w reload := by
    simp only [txSent, if_neg haborted, if_neg herror, if_neg hempty, if_neg hdrain, hlast,
      Bool.false_eq_true, if_false]
  rw [heq]
  simp only [txNext, hq]
  split_ifs with hreload
  · rw [txDisable, World.modify, streamDisable_eq, stream_setStream, Option.map_map,
      Option.map_map]
    simp only [Stream.release, toList_some]
    rw [giveBack_setStream (by rfl), Option.map_map]
    refine congrArg (fun g => (giveBack w .tx [it.memBlock]).map g) (funext fun v => ?_)
    exact setStream_setStream ..
  · rfl

section

variable {b : Block} {v : World} (h : Keeps P w []) (hmem : (w.stream .tx).memBlock = some b)
  (hgive : giveBack w .tx [b] = some v)

include h hmem hgive

theorem judged_txSent_next (hq : (w.stream .tx).queue = it :: rest)
    (hnext : (w.stream .tx).SendsNext status) (reload : ℤ) :
    Judged P (w.Accepts .tx (b :: if reload < 0 then [it.memBlock] else []))
      ((txSent P (v.setStream .tx { w.stream .tx with memBlock := none }) status reload).map
        Prod.snd) := by
  have hslots := h.slots
  rw [hq, length_cons] at hslots
  have hq' : ((v.setStream .tx { w.stream .tx with memBlock := none }).stream .tx).queue =
      it :: rest := by rw [stream_setStream, hq]
  have hnext' : ((v.setStream .tx { w.stream .tx with memBlock := none }).stream .tx).SendsNext
      status := by
    rw [stream_setStream]
    exact hnext
  rw [txSent_next P reload hq' hnext', stream_setStream]
  -- The next block is in flight, or behind the one that was sent among those given back.
  have hjudged : ∀ (mem : Option Block) (bs : List Block), mem.toList ++ bs = [it.memBlock] →
      Judged P (w.Accepts .tx ([b] ++ bs)) ((giveBack w .tx ([b] ++ bs)).map fun v =>
        v.setStream .tx (Stream.release P .tx
          { w.stream .tx with queue := rest, memBlock := mem })) := by
    intro mem bs hone
    refine judged_giveBack h (fun x => ?_) fun _ => ?_
    · have hcount := congrArg (count x) hone
      simp [Stream.count_blocks, Stream.queued, Stream.release, hmem, hq, count_cons] at hcount ⊢
      omega
    · simp only [Stream.release]
      omega
  by_cases hreload : reload < 0
  · have hboth := hjudged none [it.memBlock] rfl
    rw [← @giveBack_bind_setStream w .tx { w.stream .tx with memBlock := none } rfl, hgive,
      bind_some] at hboth
    rw [if_pos hreload, if_pos hreload]
    exact hboth
  · have hsent := hjudged (some it.memBlock) [] rfl
    rw [append_nil, hgive] at hsent
    rw [if_neg hreload, if_neg hreload, setStream_setStream]
    exact hsent

theorem judged_txSent (status : DmaStatus) (reload : ℤ) :
    Judged P (w.Accepts .tx (b :: if (w.stream .tx).SendsNext status ∧ reload < 0 then
        (w.stream .tx).queued.head?.toList else []))
      ((txSent P (v.setStream .tx { w.stream .tx with memBlock := none }) status reload).map
        Prod.snd) := by
  by_cases hnext : (w.stream .tx).SendsNext status ∧ (w.stream .tx).queue ≠ []
  · obtain ⟨it, rest, hq⟩ := exists_cons_of_ne_nil hnext.2
    have hhead : (w.stream .tx).queued.head?.toList = [it.memBlock] := by
      simp [Stream.queued, hq]
    simp only [hnext.1, true_and, hhead]
    exact judged_txSent_next h hmem hgive hq hnext.1 reload
  obtain ⟨st', hsame, heq⟩ := txSent_quiet (P := P)
    (w := v.setStream .tx { w.stream .tx with memBlock := none }) status reload
    (by rw [stream_setStream]) (by rw [stream_setStream]; exact h.slots)
    (by rw [stream_setStream]; exact hnext)
  have hnone : (if (w.stream .tx).SendsNext status ∧ reload < 0 then
      (w.stream .tx).queued.head?.toList else []) = [] := by
    split_ifs with hboth
    · have hq : (w.stream .tx).queue = [] := by
        by_contra hne
        exact hnext ⟨hboth.1, hne⟩
      simp [Stream.queued, hq]
    · rfl
  have hjudged := judged_disable h hsame
  rw [hmem, toList_some, hgive] at hjudged
  rw [heq, setStream_setStream, hnone]
  exact hjudged

end

theorem judged_txCallback (h : Keeps P w []) (status : DmaStatus) (reload : ℤ) :
    Judged P (Guard P w (.txCallback status reload)) (step P w (.txCallback status reload)) := by
  simp only [step, Guard, dmaTxCallback]
  by_cases herror : status = .error
  · have hfail : Keeps P (w.modify .tx fun st => { st with state := .error }) [] :=
      h.assign ⟨rfl, rfl, rfl⟩
    have heq : (txDisable (w.modify .tx fun st => { st with state := .error }) (-eio)).map
        Prod.snd = streamDisable (w.modify .tx fun st => { st with state := .error }) .tx := by
      simp [txDisable, comp_def]
    rw [if_pos herror, if_pos herror, heq]
    refine (judged_streamDisable hfail).congr ?_
    rw [World.modify, accepts_setStream (by rfl), stream_setStream]
  rw [if_neg herror, if_neg herror]
  cases hmem : (w.stream .tx).memBlock with
  | none => exact fun b hnone => absurd hnone (by simp)
  | some b =>
    rw [bind_some, freeTo_eq]
    cases hgive : giveBack w .tx [b] with
    | none => exact fun b' _ => accepts_of_giveBack_none hgive _
    | some v =>
      rw [bind_some, World.modify, stream_giveBack hgive]
      refine (judged_txSent h hmem hgive status reload).congr ⟨fun hacc b' hb' => ?_, ?_⟩
      · cases hb'
        exact hacc
      · exact fun hacc => hacc b rfl

end Verdicts

/-! ## The result -/

theorem judged_step {P : Platform} (h : Keeps P w []) (a : Action) :
    Judged P (Guard P w a) (step P w a) := by
  cases a with
  | configure dir cfg clock => exact judged_configure h dir cfg clock
  | bufRead => exact judged_bufRead h
  | bufWrite b size start => exact judged_bufWrite h b size start
  | trigger dir cmd start busy => exact judged_trigger h dir cmd start busy
  | rxCallback status reload => exact judged_rxCallback h status reload
  | txCallback status reload => exact judged_txCallback h status reload
  | alloc s => exact judged_alloc h s
  | free b => exact judged_free h b
  | wait s waiting => exact judged_wait h s waiting

theorem keeps_boot : Keeps P (World.boot P) [] := by
  refine ⟨fun b => ?_, fun s b hb => ?_, fun s => ?_, ?_⟩
  · have hcount : (createFreeList P b.slab).count b = if P.Owns b then 1 else 0 := by
      have hnodup : (createFreeList P b.slab).Nodup := by
        refine List.Nodup.map (fun i j hij => ?_) nodup_range
        cases hij
        rfl
      have hmem : b ∈ createFreeList P b.slab ↔ P.Owns b := by
        simp only [createFreeList, List.mem_map, mem_range]
        constructor
        · rintro ⟨i, hi, hb⟩
          have hindex : b.index = i := by rw [← hb]
          rw [Platform.Owns, hindex]
          exact hi
        · exact fun hb => ⟨b.index, hb, rfl⟩
      rw [hnodup.count]
      simp only [hmem]
    rw [← hcount]
    rfl
  · simp only [World.boot, createFreeList, List.mem_map] at hb
    obtain ⟨i, -, rfl⟩ := hb
    rfl
  · simp [World.boot, createFreeList]
  · simp [World.boot, Stream.boot]

/-- **Exactly when every block has one holder.** In every run of the driver, its callbacks and the
user, all blocks are in exactly one place in every state reached if and only if every step meets the
condition where it is taken. -/
theorem block_ownership_iff (P : Platform) (acts : List Action) :
    (∀ pre w, pre <+: acts → runSteps (step P) (World.boot P) pre = some w → Sound P w) ↔
      StepsMeet (step P) (Guard P) (World.boot P) acts :=
  sound_reached_iff (fun w => Keeps P w []) (fun _ h => h.sound) (fun _ a h => judged_step h a)
    (keeps_boot P) acts

/-! ## Runs that break it -/

/-- The run gets to a state where some block does not have exactly one holder. -/
def BreaksOwnership (P : Platform) (acts : List Action) : Prop :=
  ∃ w, runSteps (step P) (World.boot P) acts = some w ∧ ¬Sound P w

def smallPlatform : Platform where
  slabs := fun _ => ⟨64, 2⟩
  blockCount := fun _ => 2

def smallConfig (s : SlabId) : Config where
  wordSize := 16
  format := 0
  frameClkFreq := 16000
  memSlab := some s
  blockSize := 64

/-- A reception is stopped while the DMA is busy, and the callback comes. -/
def stopReception : List Action :=
  [.configure (.one .rx) (smallConfig 0) 0, .trigger (.one .rx) .start 0 false,
    .trigger (.one .rx) .stop 0 true, .rxCallback .complete 0]

/-- What `dma_copy_hw` returns when no channel is free. -/
def ebusy : ℤ := 16

/-- A transmission starts with nothing queued; a DMA channel is free at the second write only. -/
def retryTransmission : List Action :=
  [.configure (.one .tx) (smallConfig 0) 0, .alloc 0, .alloc 0,
    .trigger (.one .tx) .start 0 false, .bufWrite ⟨0, 0⟩ 64 (-ebusy), .bufWrite ⟨0, 1⟩ 64 0]

/-- A stream with a block in its queue is configured with another slab, and its queue dropped. -/
def changeSlab : List Action :=
  [.configure (.one .rx) (smallConfig 0) 0, .trigger (.one .rx) .start 0 false,
    .rxCallback .complete 0, .trigger (.one .rx) .stop 0 false,
    .configure (.one .rx) (smallConfig 1) 0, .trigger (.one .rx) .drop 0 false]

theorem breaksOwnership_of_holders {P : Platform} {acts : List Action} {b : Block}
    (hrun : runSteps (step P) (World.boot P) acts = some w) (hb : P.Owns b)
    (hne : w.holders b ≠ 1) : BreaksOwnership P acts :=
  ⟨w, hrun, fun hsound => hne (hsound b hb).1⟩

/-- **The three ways to break ownership.** A block is freed while queued, is lost, or is freed into
a slab that is not its own. -/
theorem ownership_broken : BreaksOwnership smallPlatform stopReception ∧
    BreaksOwnership smallPlatform retryTransmission ∧
    BreaksOwnership smallPlatform changeSlab := by
  have hrun : ∀ (acts : List Action)
      (h : (runSteps (step smallPlatform) (World.boot smallPlatform) acts).isSome),
      runSteps (step smallPlatform) (World.boot smallPlatform) acts = some (Option.get _ h) :=
    fun _ _ => (some_get _).symm
  refine ⟨?_, ?_, ?_⟩
  · exact breaksOwnership_of_holders (b := ⟨0, 0⟩) (hrun stopReception (by decide +kernel))
      (by decide) (by decide +kernel)
  · exact breaksOwnership_of_holders (b := ⟨0, 0⟩) (hrun retryTransmission (by decide +kernel))
      (by decide) (by decide +kernel)
  · exact breaksOwnership_of_holders (b := ⟨0, 0⟩) (hrun changeSlab (by decide +kernel))
      (by decide) (by decide +kernel)

end WiseSdk.I2s
