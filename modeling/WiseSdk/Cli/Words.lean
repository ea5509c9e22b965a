import WiseSdk.Cli.ParseLine

/-!
# The words of a command line

`readWord` reads one argument of a command line as the line means it: a bare argument ends at a
blank or a `;`, one between quotes at the closing quote, and an escaped byte stands for itself.

The parser reads the same argument with three differences.  A blank ends an argument between quotes
too (`scanWord_cut`).  For each escape that it removes, one more copy of the last byte of the line
stands at its end (`scanWord_readWord`).  And the copies are read as a part of an argument that runs
to the end of the line, unless the first one ends it (`scanWord_last`).
-/

namespace WiseSdk.Cli

open Library List

/-- The bytes that end an argument: the closing quote, or a blank or `;` behind a bare one. -/
def endsWord (quoted : Bool) (c : Byte) : Bool :=
  if quoted then c == chr '"' else isBlank c || c == chr ';'

/-- A backslash escapes every byte of a bare argument, and a backslash or a quote between quotes. -/
def escapesNext (quoted : Bool) (c d : Byte) : Bool :=
  c == chr '\\' && (!quoted || d == chr '\\' || d == chr '"')

/-- An argument, the text from the byte that ends it on, and the number of its escapes. -/
def readWord (quoted : Bool) : List Byte → List Byte × List Byte × ℕ
  | [] => ([], [], 0)
  | [c] => if endsWord quoted c then ([], [c], 0) else ([c], [], 0)
  | c :: d :: text =>
    if endsWord quoted c then ([], c :: d :: text, 0)
    else if escapesNext quoted c d then
      let out := readWord quoted text
      (d :: out.1, out.2.1, out.2.2 + 1)
    else
      let out := readWord quoted (d :: text)
      (c :: out.1, out.2)

/-! ## The words of a text -/

section Words

variable {quoted : Bool} {c d last : Byte} {text word rest : List Byte}

theorem readWord_ends (h : endsWord quoted c = true) (text : List Byte) :
    readWord quoted (c :: text) = ([], c :: text, 0) := by
  cases text <;> rw [readWord, if_pos h]

theorem readWord_escaped (hc : endsWord quoted c = false) (hesc : escapesNext quoted c d = true)
    (text : List Byte) :
    readWord quoted (c :: d :: text) = (d :: (readWord quoted text).1, (readWord quoted text).2.1,
      (readWord quoted text).2.2 + 1) := by
  rw [readWord, if_neg (by simp [hc]), if_pos hesc]

theorem readWord_plain (hc : endsWord quoted c = false)
    (hesc : ∀ d ∈ text.head?, escapesNext quoted c d = false) :
    readWord quoted (c :: text) = (c :: (readWord quoted text).1, (readWord quoted text).2) := by
  cases text with
  | nil => simp [readWord, hc]
  | cons d text => rw [readWord, if_neg (by simp [hc]), if_neg (by simp [hesc d rfl])]

theorem word_induction {P : List Byte → Prop} (quoted : Bool) (nil : P [])
    (ends : ∀ c text, endsWord quoted c = true → P (c :: text))
    (escaped : ∀ c d text, endsWord quoted c = false → escapesNext quoted c d = true → P text →
      P (c :: d :: text)) (plain : ∀ c text, endsWord quoted c = false →
      (∀ d ∈ text.head?, escapesNext quoted c d = false) → P text → P (c :: text))
    (text : List Byte) : P text := by
  fun_induction readWord quoted text with
  | case1 => exact nil
  | case2 c hc => exact ends c [] hc
  | case3 c hc => exact plain c [] (Bool.eq_false_of_not_eq_true hc) nofun nil
  | case4 c d text hc => exact ends c (d :: text) hc
  | case5 c d text hc hesc _ ih =>
    exact escaped c d text (Bool.eq_false_of_not_eq_true hc) hesc ih
  | case6 c d text hc hesc _ ih =>
    refine plain c (d :: text) (Bool.eq_false_of_not_eq_true hc) ?_ ih
    rintro d ⟨⟩
    exact Bool.eq_false_of_not_eq_true hesc

theorem readWord_length (quoted : Bool) (text : List Byte) :
    text.length = (readWord quoted text).1.length + (readWord quoted text).2.1.length +
      (readWord quoted text).2.2 := by
  induction text using word_induction quoted with
  | nil => rfl
  | ends c text hc => simp [readWord_ends hc]
  | escaped c d text hc hesc ih =>
    rw [readWord_escaped hc hesc]
    simp only [length_cons]
    omega
  | plain c text hc hesc ih =>
    rw [readWord_plain hc hesc]
    simp only [length_cons]
    omega

/-! The parser on the same cases. -/

theorem not_blank_of_escapes (h : escapesNext quoted c d = true) : isBlank c = false := by
  simp only [escapesNext, Bool.and_eq_true, beq_iff_eq] at h
  rw [h.1]
  decide

theorem scanWord_ends (h : endsWord quoted c = true) (n : ℕ) (text : List Byte) :
    scanWord quoted (n + 1) (c :: text) = ([], c :: text) := by
  rw [scanWord]
  cases quoted with
  | true =>
    obtain rfl : c = chr '"' := by simpa [endsWord] using h
    rw [if_neg (by decide), if_pos rfl, if_neg (by simp [chr]), if_pos rfl]
  | false =>
    simp only [endsWord, Bool.false_eq_true, if_false, Bool.or_eq_true, beq_iff_eq] at h
    rcases h with hblank | rfl
    · rw [if_pos hblank]
    · rw [if_neg (by decide), if_neg (by simp), if_neg (by decide), if_pos rfl]

theorem scanWord_escape_next (h : escapesNext quoted c d = true) (n : ℕ)
    (hlast : ∀ b ∈ (d :: text).getLast?, b = last) :
    scanWord quoted (n + 1) (c :: d :: text) =
      (d :: (scanWord quoted n (text ++ [last])).1, (scanWord quoted n (text ++ [last])).2) := by
  have hshift : shifted c (d :: text) = (d, text ++ [last]) := by
    rw [shifted, hlast _ (getLast?_eq_some_getLast (cons_ne_nil d text))]
  have hblank := not_blank_of_escapes h
  simp only [escapesNext, Bool.and_eq_true, beq_iff_eq, Bool.or_eq_true] at h
  obtain ⟨rfl, h⟩ := h
  cases quoted with
  | true =>
    have hd : d = chr '\\' ∨ d = chr '"' := by simpa using h
    simp [scanWord, hblank, hd, hshift]
  | false => simp [scanWord, hblank, hshift]

theorem scanWord_read (hc : endsWord quoted c = false) (hblank : isBlank c = false)
    (hesc : ∀ d ∈ text.head?, escapesNext quoted c d = false)
    (hend : text = [] → quoted = false → c ≠ chr '\\') (n : ℕ) :
    scanWord quoted (n + 1) (c :: text) =
      (c :: (scanWord quoted n text).1, (scanWord quoted n text).2) := by
  cases quoted with
  | true =>
    have hquote : c ≠ chr '"' := by simpa [endsWord] using hc
    have hback : ¬(c = chr '\\' ∧
        (text.head? = some (chr '\\') ∨ text.head? = some (chr '"'))) := by
      rintro ⟨rfl, h | h⟩
      · exact absurd (hesc _ h) (by decide)
      · exact absurd (hesc _ h) (by decide)
    rw [scanWord, if_neg (by simp [hblank]), if_pos rfl, if_neg hback, if_neg hquote]
  | false =>
    have hsemi : c ≠ chr ';' := by
      rintro rfl
      exact absurd hc (by decide)
    have hback : c ≠ chr '\\' := by
      cases text with
      | nil => exact hend rfl rfl
      | cons d text =>
        rintro rfl
        exact absurd (hesc d rfl) (by simp [escapesNext])
    rw [scanWord, if_neg (by simp [hblank]), if_neg (by simp), if_neg hback, if_neg hsemi]

theorem scanWord_at_blank (hblank : isBlank c = true) (n : ℕ) (text : List Byte) :
    scanWord quoted (n + 1) (c :: text) = ([], c :: text) := by
  rw [scanWord, if_pos hblank]

/-! ## Copies of the last byte -/

def EndsIn (last : Byte) (text : List Byte) : Prop := ∀ b ∈ text.getLast?, b = last

theorem EndsIn.of_cons (h : EndsIn last (c :: text)) : EndsIn last text := by
  intro b hb
  apply h
  rw [getLast?_cons, hb]
  rfl

theorem EndsIn.copies (h : EndsIn last text) (k : ℕ) :
    EndsIn last (text ++ replicate k last) := by
  intro b hb
  rw [getLast?_append, getLast?_replicate] at hb
  split_ifs at hb
  · exact h b hb
  · exact (Option.some.inj hb).symm

/-- A byte behind which the parser stops. -/
def stops (quoted : Bool) (c : Byte) : Bool := isBlank c || endsWord quoted c

theorem stops_eq_false_iff :
    stops quoted c = false ↔ isBlank c = false ∧ endsWord quoted c = false :=
  Bool.or_eq_false_iff

variable {n k e : ℕ}

/-- The copies are all read, or the first one ends the argument. -/
theorem scanWord_copies (quoted : Bool) (c : Byte) (hn : k ≤ n) :
    scanWord quoted n (replicate k c) =
      if stops quoted c then ([], replicate k c) else (replicate k c, []) := by
  cases hstops : stops quoted c with
  | true =>
    rw [if_pos rfl]
    cases k with
    | zero => cases n <;> rfl
    | succ k =>
      obtain ⟨n, rfl⟩ : ∃ m, n = m + 1 := ⟨n - 1, by omega⟩
      rcases Bool.or_eq_true_iff.mp hstops with hblank | hends
      · exact scanWord_at_blank hblank n _
      · exact scanWord_ends hends n _
  | false =>
    obtain ⟨hblank, hends⟩ := stops_eq_false_iff.mp hstops
    rw [if_neg (by simp)]
    induction k generalizing n with
    | zero => cases n <;> rfl
    | succ k ih =>
      obtain ⟨n, rfl⟩ : ∃ m, n = m + 1 := ⟨n - 1, by omega⟩
      have hrest := ih (Nat.le_of_succ_le_succ hn)
      cases hesc : escapesNext quoted c c with
      | false =>
        rw [replicate_succ, scanWord_read hends hblank ?_ ?_ n, hrest]
        · intro d hd
          rw [eq_of_mem_replicate (mem_of_mem_head? hd)]
          exact hesc
        · rintro - rfl rfl
          exact absurd hesc (by decide)
      | true =>
        cases k with
        | zero =>
          obtain rfl : c = chr '\\' := by
            simp only [escapesNext, Bool.and_eq_true, beq_iff_eq] at hesc
            exact hesc.1
          cases quoted <;> cases n <;> rfl
        | succ k =>
          have hlast : ∀ b ∈ (c :: replicate k c).getLast?, b = c := by
            intro b hb
            rw [← replicate_succ] at hb
            exact eq_of_mem_replicate (mem_of_mem_getLast? hb)
          rw [replicate_succ, replicate_succ, scanWord_escape_next hesc n hlast,
            ← replicate_succ', hrest]
          rfl

/-! ## An argument as the parser reads it -/

def Kept (quoted : Bool) (word : List Byte) : Prop :=
  quoted = true → ∀ b ∈ word, isBlank b = false

theorem not_blank_of_plain (hc : endsWord quoted c = false) (hkept : Kept quoted [c]) :
    isBlank c = false := by
  cases hq : quoted with
  | true => exact hkept hq c mem_cons_self
  | false =>
    simp only [endsWord, hq, Bool.false_eq_true, if_false, Bool.or_eq_false_iff] at hc
    exact hc.1

theorem Kept.head (h : Kept quoted (c :: word)) : Kept quoted [c] := by
  intro hq b hb
  exact h hq b (mem_singleton.mp hb ▸ mem_cons_self)

theorem Kept.tail (h : Kept quoted (c :: word)) : Kept quoted word :=
  fun hq b hb => h hq b (mem_cons_of_mem _ hb)

theorem scanWord_escaped_copies (hesc : escapesNext quoted c d = true)
    (hlast : EndsIn last (c :: d :: text)) (k n : ℕ) :
    scanWord quoted (n + 1) (c :: d :: text ++ replicate k last) =
      (d :: (scanWord quoted n (text ++ replicate (k + 1) last)).1,
        (scanWord quoted n (text ++ replicate (k + 1) last)).2) := by
  rw [replicate_succ', ← append_assoc]
  exact scanWord_escape_next hesc n (hlast.of_cons.copies k)

theorem scanWord_plain_copies (hc : endsWord quoted c = false) (hblank : isBlank c = false)
    (hesc : ∀ d ∈ text.head?, escapesNext quoted c d = false)
    (hlast : EndsIn last (c :: text)) (hn : text.length + k ≤ n) :
    scanWord quoted (n + 1) (c :: text ++ replicate k last) =
      (c :: (scanWord quoted n (text ++ replicate k last)).1,
        (scanWord quoted n (text ++ replicate k last)).2) := by
  by_cases htext : text = []
  · -- The last byte of the line, and its copies.
    subst htext
    obtain rfl : c = last := hlast c rfl
    have hstops : stops quoted c = false := stops_eq_false_iff.mpr ⟨hblank, hc⟩
    rw [length_nil, Nat.zero_add] at hn
    have hcopies := scanWord_copies quoted c (Nat.succ_le_succ hn)
    rw [nil_append, scanWord_copies quoted c hn]
    simpa [hstops, replicate_succ] using hcopies
  · rw [cons_append]
    refine scanWord_read hc hblank ?_ (fun h => ?_) n
    · rw [head?_append_of_ne_nil _ htext]
      exact hesc
    · exact absurd (append_eq_nil_iff.mp h).1 htext

/-- **An argument is read as it is**, up to the byte that ends it, with one more copy of the last
byte at the end for each escape. -/
theorem scanWord_readWord (k : ℕ) (hkept : Kept quoted (readWord quoted text).1)
    (hlast : EndsIn last text) (hn : text.length + k ≤ n) :
    let rest := (readWord quoted text).2.1 ++ replicate (k + (readWord quoted text).2.2) last
    scanWord quoted n (text ++ replicate k last) =
      ((readWord quoted text).1 ++ (scanWord quoted rest.length rest).1,
        (scanWord quoted rest.length rest).2) := by
  induction text using word_induction quoted generalizing n k with
  | nil => exact scanWord_bound quoted (by simpa using hn) le_rfl
  | ends c text hc =>
    rw [readWord_ends hc]
    exact scanWord_bound quoted (by simp at hn ⊢; omega) le_rfl
  | escaped c d text hc hesc ih =>
    rw [length_cons, length_cons] at hn
    obtain ⟨n, rfl⟩ : ∃ m, n = m + 1 := ⟨n - 1, by omega⟩
    rw [readWord_escaped hc hesc] at hkept ⊢
    rw [scanWord_escaped_copies hesc hlast, ih (k + 1) hkept.tail hlast.of_cons.of_cons (by omega),
      Nat.add_assoc k 1, Nat.add_comm 1]
    rfl
  | plain c text hc hesc ih =>
    rw [length_cons] at hn
    obtain ⟨n, rfl⟩ : ∃ m, n = m + 1 := ⟨n - 1, by omega⟩
    rw [readWord_plain hc hesc] at hkept ⊢
    rw [scanWord_plain_copies hc (not_blank_of_plain hc hkept.head) hesc hlast (by omega),
      ih k hkept.tail hlast.of_cons (by omega)]
    rfl

theorem endsWord_of_readWord (quoted : Bool) (text : List Byte) :
    ∀ d ∈ (readWord quoted text).2.1.head?, endsWord quoted d = true := by
  induction text using word_induction quoted with
  | nil => exact fun d hd => nomatch hd
  | ends c text hc =>
    rw [readWord_ends hc]
    rintro d ⟨⟩
    exact hc
  | escaped c d text hc hesc ih => rwa [readWord_escaped hc hesc]
  | plain c text hc hesc ih => rwa [readWord_plain hc hesc]

/-- **An argument that ends inside the line.** -/
theorem scanWord_inside (k : ℕ) (hread : readWord quoted text = (word, d :: rest, e))
    (hkept : Kept quoted word)
    (hlast : EndsIn last text) (hn : text.length + k ≤ n) :
    scanWord quoted n (text ++ replicate k last) =
      (word, d :: (rest ++ replicate (k + e) last)) := by
  have hends := endsWord_of_readWord quoted text
  have hscan := scanWord_readWord k (by rwa [hread]) hlast hn
  rw [hread] at hends hscan
  rw [hscan, cons_append, length_cons, scanWord_ends (hends d rfl), append_nil]

/-- **An argument that runs to the end of the line.** The copies behind it are read too, unless the
first one ends it. -/
theorem scanWord_last (k : ℕ) (hread : readWord quoted text = (word, [], e))
    (hkept : Kept quoted word)
    (hlast : EndsIn last text) (hn : text.length + k ≤ n) :
    scanWord quoted n (text ++ replicate k last) =
      if stops quoted last then (word, replicate (k + e) last)
      else (word ++ replicate (k + e) last, []) := by
  have hscan := scanWord_readWord k (by rwa [hread]) hlast hn
  rw [hread] at hscan
  rw [hscan, nil_append, scanWord_copies quoted last (by simp)]
  split_ifs
  · rw [append_nil]
  · rfl

/-- A quoted argument with a blank is cut short. -/
theorem scanWord_cut (k : ℕ) (hcut : ∃ b ∈ (readWord true text).1, isBlank b = true)
    (hlast : EndsIn last text) (hn : text.length + k ≤ n) :
    (scanWord true n (text ++ replicate k last)).1.length < (readWord true text).1.length := by
  induction text using word_induction true generalizing n k with
  | nil => simp [readWord] at hcut
  | ends c text hc => simp [readWord_ends hc] at hcut
  | escaped c d text hc hesc ih =>
    rw [length_cons, length_cons] at hn
    obtain ⟨n, rfl⟩ : ∃ m, n = m + 1 := ⟨n - 1, by omega⟩
    rw [readWord_escaped hc hesc, exists_mem_cons_iff] at hcut
    rw [readWord_escaped hc hesc, scanWord_escaped_copies hesc hlast]
    refine Nat.succ_lt_succ (ih (k + 1) (hcut.resolve_left fun hblank => ?_)
      hlast.of_cons.of_cons (by omega))
    have hd : d = chr '\\' ∨ d = chr '"' := by
      simpa [escapesNext] using (Bool.and_eq_true_iff.mp hesc).2
    rcases hd with rfl | rfl <;> exact absurd hblank (by decide)
  | plain c text hc hesc ih =>
    rw [length_cons] at hn
    obtain ⟨n, rfl⟩ : ∃ m, n = m + 1 := ⟨n - 1, by omega⟩
    rw [readWord_plain hc hesc, exists_mem_cons_iff] at hcut
    rw [readWord_plain hc hesc]
    cases hblank : isBlank c with
    | true =>
      rw [cons_append, scanWord_at_blank hblank]
      exact Nat.succ_pos _
    | false =>
      rw [scanWord_plain_copies hc hblank hesc hlast (by omega)]
      exact Nat.succ_lt_succ
        (ih k (hcut.resolve_left (by simp [hblank])) hlast.of_cons (by omega))

end Words

end WiseSdk.Cli
