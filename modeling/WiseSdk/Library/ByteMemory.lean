import Mathlib.Algebra.Order.Ring.Nat
import Mathlib.Data.List.Basic
import Mathlib.Data.List.Induction

/-!
# Byte memories and NOR programming

A memory is a function from addresses to bytes. `overwrite` puts a list of bytes at an address, and
`readBytes` takes one from there. A list of copies whose targets are apart from its sources moves
every byte from where it was before the first copy (`runCopies_of_writes`).

A NOR memory changes in two ways: erasing sets bytes to `0xff`, programming a byte clears the bits
that are clear in the data (`programByte`). What a list of addressed bytes leaves at an address
depends only on those that arrive there (`program_of_ones`, `program_eq`).
-/

namespace WiseSdk.Library

open List Function
open BitVec hiding and_assoc

abbrev Byte := BitVec 8

abbrev ByteMem := ℕ → Byte

abbrev Byte.erased : Byte := BitVec.allOnes 8

variable {m m' : ByteMem} {a x i o n w : ℕ}

/-! ## Overwriting and reading -/

def overwrite (m : ByteMem) (a : ℕ) (bs : List Byte) : ByteMem := fun x =>
  if a ≤ x then bs[x - a]?.getD (m x) else m x

def readBytes (m : ByteMem) (a n : ℕ) : List Byte := (range n).map fun i => m (a + i)

@[simp] theorem length_readBytes (m : ByteMem) (a n : ℕ) : (readBytes m a n).length = n := by
  simp [readBytes]

variable {bs block : List Byte} {ops : List (ℕ × Byte)}

theorem overwrite_of_not_mem (h : ¬(a ≤ x ∧ x < a + bs.length)) : overwrite m a bs x = m x := by
  rw [overwrite]
  split
  · rw [List.getElem?_eq_none (by omega), Option.getD_none]
  · rfl

theorem overwrite_add (m : ByteMem) (a : ℕ) (hi : i < bs.length) :
    overwrite m a bs (a + i) = bs[i] := by
  rw [overwrite, if_pos (Nat.le_add_right a i), Nat.add_sub_cancel_left,
    List.getElem?_eq_getElem hi, Option.getD_some]

/-- Two memories that agree in and around the bytes written. -/
theorem overwrite_eq_iff :
    m' = overwrite m a bs ↔ (∀ (i : ℕ) (h : i < bs.length), m' (a + i) = bs[i]) ∧
      ∀ x, ¬(a ≤ x ∧ x < a + bs.length) → m' x = m x := by
  constructor
  · rintro rfl
    exact ⟨fun i hi => overwrite_add m a hi, fun x hx => overwrite_of_not_mem hx⟩
  · rintro ⟨hin, hout⟩
    funext x
    by_cases hx : a ≤ x ∧ x < a + bs.length
    · obtain ⟨i, rfl⟩ := Nat.exists_eq_add_of_le hx.1
      have hi : i < bs.length := by omega
      rw [hin i hi, overwrite_add m a hi]
    · rw [hout x hx, overwrite_of_not_mem hx]

theorem overwrite_self (h : ∀ (i : ℕ) (hi : i < bs.length), m (a + i) = bs[i]) :
    overwrite m a bs = m :=
  (overwrite_eq_iff.mpr ⟨h, fun _ _ => rfl⟩).symm

@[simp] theorem overwrite_nil (m : ByteMem) (a : ℕ) : overwrite m a [] = m :=
  overwrite_self nofun

theorem overwrite_append (m : ByteMem) (a : ℕ) (bs cs : List Byte) :
    overwrite m a (bs ++ cs) = overwrite (overwrite m a bs) (a + bs.length) cs := by
  symm
  refine overwrite_eq_iff.mpr ⟨fun i hi => ?_, fun x hx => ?_⟩
  · rw [length_append] at hi
    by_cases hlt : i < bs.length
    · rw [overwrite_of_not_mem (by omega), overwrite_add m a hlt, getElem_append_left hlt]
    · obtain ⟨j, rfl⟩ := Nat.exists_eq_add_of_le (Nat.not_lt.mp hlt)
      rw [← Nat.add_assoc, overwrite_add _ _ (show j < cs.length by omega),
        getElem_append_right (by omega)]
      simp
  · rw [length_append] at hx
    rw [overwrite_of_not_mem (by omega), overwrite_of_not_mem (by omega)]

/-- A block with the bytes `bs` copied into it from place `o` on. -/
def splice (block : List Byte) (o : ℕ) (bs : List Byte) : List Byte :=
  block.take o ++ bs ++ block.drop (o + bs.length)

theorem length_splice (h : o + bs.length ≤ block.length) :
    (splice block o bs).length = block.length := by
  simp only [splice, length_append, length_take, length_drop]
  omega

/-- A piece of a block is replaced by one of the same length. -/
theorem splice_append (a b : List Byte) {x : List Byte} (h : bs.length = x.length) :
    splice (a ++ x ++ b) a.length bs = a ++ bs ++ b := by
  have hdrop : (a ++ x ++ b).drop (a.length + bs.length) = b := by
    rw [h, ← length_append, drop_left]
  rw [splice, hdrop, append_assoc a x b, take_left]

/-- What is replaced in a block need not be read. -/
theorem splice_readBytes_congr (a n : ℕ) (h : ∀ y, y ≠ a + o → m y = m' y) (hbs : bs ≠ []) :
    splice (readBytes m a n) o bs = splice (readBytes m' a n) o bs := by
  have hpos := length_pos_iff.mpr hbs
  have hlow : (readBytes m a n).take o = (readBytes m' a n).take o := by
    refine ext_getElem (by simp) fun i hi _ => ?_
    rw [length_take] at hi
    simp only [getElem_take, readBytes, getElem_map, getElem_range]
    exact h _ (by omega)
  have hhigh : (readBytes m a n).drop (o + bs.length) =
      (readBytes m' a n).drop (o + bs.length) := by
    refine ext_getElem (by simp) fun i _ _ => ?_
    simp only [getElem_drop, readBytes, getElem_map, getElem_range]
    exact h _ (by omega)
  rw [splice, splice, hlow, hhigh]

/-- **Read, modify, write.**  Writing back a block with some bytes replaced writes those. -/
theorem overwrite_splice (m : ByteMem) (a : ℕ) (h : o + bs.length ≤ n) :
    overwrite m a (splice (readBytes m a n) o bs) = overwrite m (a + o) bs := by
  -- What the block has around the bytes is there already.
  have hlow : overwrite m a ((readBytes m a n).take o) = m :=
    overwrite_self fun i _ => by simp [readBytes]
  have hlen : ((readBytes m a n).take o).length = o := by
    rw [length_take, length_readBytes, Nat.min_eq_left (by omega)]
  rw [splice, overwrite_append, overwrite_append, hlow, length_append, hlen]
  refine overwrite_self fun i _ => ?_
  rw [overwrite_of_not_mem (by omega)]
  simp [readBytes, Nat.add_assoc]

/-! ## Words -/

/-- A word as bytes, the least significant one first. -/
def leBytes (w : BitVec 32) : List Byte :=
  [w.extractLsb' 0 8, w.extractLsb' 8 8, w.extractLsb' 16 8, w.extractLsb' 24 8]

def leWord (b₀ b₁ b₂ b₃ : Byte) : BitVec 32 := b₃ ++ b₂ ++ b₁ ++ b₀

theorem leWord_extractLsb' (w : BitVec 32) :
    leWord (w.extractLsb' 0 8) (w.extractLsb' 8 8) (w.extractLsb' 16 8) (w.extractLsb' 24 8) =
      w := by
  rw [leWord]
  grind

def byteMask (w k : ℕ) : BitVec w := (BitVec.allOnes 8).setWidth w <<< k

theorem getLsbD_and_byteMask (x : BitVec w) (k i : ℕ) :
    (x &&& byteMask w k).getLsbD i = (x.getLsbD i && decide (k ≤ i ∧ i < k + 8)) := by
  rw [byteMask, getLsbD_and, getLsbD_shiftLeft, getLsbD_setWidth, getLsbD_allOnes]
  by_cases hi : i < w
  · rw [Bool.eq_iff_iff]
    simp only [Bool.and_eq_true, Bool.not_eq_true', decide_eq_true_eq, decide_eq_false_iff_not]
    exact and_congr_right fun _ => by omega
  · simp [getLsbD_of_ge x i (Nat.not_lt.mp hi)]

/-! ## Copies -/

structure Copy where
  src : ℕ
  dst : ℕ
  n : ℕ
  deriving DecidableEq, Repr

def Copy.Reads (c : Copy) (x : ℕ) : Prop := c.src ≤ x ∧ x < c.src + c.n

def Copy.Writes (c : Copy) (x : ℕ) : Prop := c.dst ≤ x ∧ x < c.dst + c.n

def Copy.run (m : ByteMem) (c : Copy) : ByteMem := overwrite m c.dst (readBytes m c.src c.n)

def runCopies (m : ByteMem) (cs : List Copy) : ByteMem := cs.foldl Copy.run m

theorem Copy.run_of_not_writes {c : Copy} (h : ¬c.Writes x) : c.run m x = m x :=
  overwrite_of_not_mem (by rwa [length_readBytes])

theorem Copy.run_of_writes {c : Copy} (h : c.Writes x) : c.run m x = m (c.src + (x - c.dst)) := by
  obtain ⟨i, rfl⟩ := Nat.exists_eq_add_of_le h.1
  have hi : i < c.n := Nat.lt_of_add_lt_add_left h.2
  rw [Copy.run, overwrite_add m c.dst (by rwa [length_readBytes])]
  simp [readBytes]

theorem runCopies_concat (m : ByteMem) (cs : List Copy) (c : Copy) :
    runCopies m (cs ++ [c]) = c.run (runCopies m cs) := by
  simp [runCopies]

theorem runCopies_append (m : ByteMem) (cs cs' : List Copy) :
    runCopies m (cs ++ cs') = runCopies (runCopies m cs) cs' := foldl_append

theorem runCopies_of_not_writes {cs : List Copy} (h : ∀ c ∈ cs, ¬c.Writes x) :
    runCopies m cs x = m x := by
  induction cs using List.reverseRecOn with
  | nil => rfl
  | append_singleton cs c ih =>
    rw [runCopies_concat, Copy.run_of_not_writes (h c (by simp)),
      ih fun c' hc' => h c' (mem_append_left _ hc')]

/-- **Copies that do not write what others read.** A byte written always from one address gets the
value there before. -/
theorem runCopies_of_writes {cs : List Copy}
    (hsep : ∀ c ∈ cs, ∀ c' ∈ cs, ∀ y, c.Writes y → ¬c'.Reads y)
    (hfrom : ∀ c ∈ cs, c.Writes x → c.src + (x - c.dst) = a) (hex : ∃ c ∈ cs, c.Writes x) :
    runCopies m cs x = m a := by
  induction cs using List.reverseRecOn with
  | nil =>
    obtain ⟨c, hc, -⟩ := hex
    cases hc
  | append_singleton cs c ih =>
    have hmem : ∀ c' ∈ cs, c' ∈ cs ++ [c] := fun c' => mem_append_left [c]
    have hc : c ∈ cs ++ [c] := by simp
    rw [runCopies_concat]
    by_cases hw : c.Writes x
    · -- The last copy writes the byte; what it reads has not been written before.
      have hreads : c.Reads a := by
        rw [← hfrom c hc hw]
        exact ⟨Nat.le_add_right _ _, by have := hw.1; have := hw.2; omega⟩
      rw [Copy.run_of_writes hw, hfrom c hc hw,
        runCopies_of_not_writes fun c' hc' hw' => hsep c' (hmem c' hc') c hc a hw' hreads]
    rw [Copy.run_of_not_writes hw]
    refine ih (fun c₁ h₁ c₂ h₂ => hsep c₁ (hmem c₁ h₁) c₂ (hmem c₂ h₂))
      (fun c' hc' => hfrom c' (hmem c' hc')) ?_
    obtain ⟨c', hc', hw'⟩ := hex
    rcases mem_append.mp hc' with hc' | hc'
    · exact ⟨c', hc', hw'⟩
    · rw [mem_singleton.mp hc'] at hw'
      exact absurd hw' hw

/-! ## Programming -/

def programByte (m : ByteMem) (p : ℕ × Byte) : ByteMem :=
  Function.update m p.1 (m p.1 &&& p.2)

def program (m : ByteMem) (ops : List (ℕ × Byte)) : ByteMem := ops.foldl programByte m

theorem program_cons (m : ByteMem) (p : ℕ × Byte) (ops : List (ℕ × Byte)) :
    program m (p :: ops) = program (programByte m p) ops := rfl

theorem program_append (m : ByteMem) (ops ops' : List (ℕ × Byte)) :
    program m (ops ++ ops') = program (program m ops) ops' := foldl_append

/-- A bit stays set where it is set in all that arrives. -/
theorem getLsbD_program (m : ByteMem) (ops : List (ℕ × Byte)) (x i : ℕ) :
    (program m ops x).getLsbD i ↔ (m x).getLsbD i ∧ ∀ p ∈ ops, p.1 = x → p.2.getLsbD i := by
  induction ops generalizing m with
  | nil => simp [program]
  | cons p ops ih =>
    rw [program_cons, ih, forall_mem_cons]
    by_cases hx : p.1 = x
    · subst hx
      simp [programByte, and_assoc]
    · simp [programByte, update_of_ne (Ne.symm hx), hx]

/-- Where only `0xff` arrives nothing changes. -/
theorem program_of_ones (h : ∀ p ∈ ops, p.1 = x → p.2 = Byte.erased) : program m ops x = m x := by
  refine eq_of_getLsbD_eq fun i hi => Bool.eq_iff_iff.mpr ?_
  rw [getLsbD_program]
  refine and_iff_left fun p hp hx => ?_
  rw [h p hp hx, getLsbD_allOnes, decide_eq_true hi]

theorem exists_of_program_ne (h : program m ops x ≠ m x) :
    ∃ p ∈ ops, p.1 = x ∧ p.2 ≠ Byte.erased := by
  by_contra hno
  push Not at hno
  exact h (program_of_ones hno)

/-- An erased byte to which a value arrives, and besides it at most `0xff`, has that value. -/
theorem program_eq {v : Byte} (hm : m x = Byte.erased) (hmem : (x, v) ∈ ops)
    (h : ∀ p ∈ ops, p.1 = x → p.2 = Byte.erased ∨ p.2 = v) : program m ops x = v := by
  refine eq_of_getLsbD_eq fun i hi => Bool.eq_iff_iff.mpr ?_
  have hone : Byte.erased.getLsbD i := by rw [getLsbD_allOnes, decide_eq_true hi]
  rw [getLsbD_program, hm]
  refine ⟨fun hall => hall.2 _ hmem rfl, fun hv => ⟨hone, fun p hp hx => ?_⟩⟩
  rcases h p hp hx with h' | h'
  · rwa [h']
  · rwa [h']

def programAt (m : ByteMem) (a : ℕ) (bs : List Byte) : ByteMem :=
  program m (bs.zipIdx.map fun d => (a + d.2, d.1))

def eraseRange (m : ByteMem) (a n : ℕ) : ByteMem := fun x =>
  if a ≤ x ∧ x < a + n then Byte.erased else m x

theorem programAt_of_not_mem (h : ¬(a ≤ x ∧ x < a + bs.length)) : programAt m a bs x = m x := by
  refine program_of_ones fun p hp hx => absurd ?_ h
  obtain ⟨⟨b, i⟩, hi, rfl⟩ := mem_map.mp hp
  have := snd_lt_of_mem_zipIdx hi
  omega

theorem programAt_add (hi : i < bs.length) (hm : m (a + i) = Byte.erased) :
    programAt m a bs (a + i) = bs[i] := by
  refine program_eq hm (mem_map.mpr ⟨(bs[i], i), ?_, rfl⟩) fun p hp hx => .inr ?_
  · rw [mem_zipIdx_iff_getElem?]
    exact List.getElem?_eq_getElem hi
  · obtain ⟨⟨b, j⟩, hj, rfl⟩ := mem_map.mp hp
    rw [mem_zipIdx_iff_getElem?] at hj
    obtain rfl : j = i := by
      omega
    exact (List.getElem?_eq_some_iff.mp hj).2.symm

/-- **Erase, then program**, writes. -/
theorem programAt_eraseRange (m : ByteMem) (a : ℕ) (bs : List Byte) :
    programAt (eraseRange m a bs.length) a bs = overwrite m a bs := by
  refine overwrite_eq_iff.mpr ⟨fun i hi => programAt_add hi ?_, fun x hx => ?_⟩
  · rw [eraseRange, if_pos (by omega)]
  · rw [programAt_of_not_mem hx, eraseRange, if_neg hx]

end WiseSdk.Library
