import WiseSdk.Library.CString

/-!
# The command line tokenizer

`cli_parse_line` of `lib/cli/cli.c` cuts a line into arguments in place: it writes a NUL behind each
argument and removes escapes by moving the rest of the line down.

The model is the code on a buffer with a cursor.  `scanArgs` is what it does, on the text alone:
the arguments as lists of bytes.  Removing an escape moves `strlen` bytes and not the NUL, so that
the last byte of the line stays and is there twice (`shifted`).
-/

namespace WiseSdk.Cli

open Library List Cursor

/-! ## The code -/

def cmdMaxArgv : ℕ := 32

def isBlank (c : Byte) : Bool := 0 < c && c < 0x21

/-- `memmove(*s, (*s)+1, strlen((*s)+1))`. -/
def unescape (c : Cursor) : Cursor :=
  { c with buf := memmove c.buf c.s (c.s + 1) (strAt c.buf (c.s + 1)).length }

/-- The loop over the bytes of an argument.  It also tells whether the line ended at a `;`. -/
def wordLoop (inquote : Bool) : ℕ → Cursor → Option (Cursor × Bool)
  | 0, _ => none
  | fuel + 1, c =>
    if c.get 0 = 0 ∨ isBlank (c.get 0) then some (c, false)
    else if inquote then
      if c.get 0 = chr '\\' ∧ (c.get 1 = chr '\\' ∨ c.get 1 = chr '"') then
        wordLoop inquote fuel (unescape c).next
      else if c.get 0 = chr '"' then some (c, false)
      else wordLoop inquote fuel c.next
    else if c.get 0 = chr '\\' then wordLoop inquote fuel (unescape c).next
    else if c.get 0 = chr ';' then some ((c.put 0).next, true)
    else wordLoop inquote fuel c.next

/-- The loop over the arguments, with room for so many more in `argv`. -/
def argLoop : ℕ → Cursor → List ℕ → Option (Cursor × List ℕ)
  | 0, c, argv => some (c, argv)
  | room + 1, c, argv =>
    (c.skip isBlank (c.buf.length + 1)).bind fun c =>
      if c.get 0 = 0 then some (c, argv)
      else
        let inquote := c.get 0 == chr '"'
        let c := if inquote then c.next else c
        let argv := argv ++ [c.s]
        (wordLoop inquote (c.buf.length + 1) c).bind fun (c, semicolon) =>
          if semicolon then some (c, argv)
          else if c.get 0 = 0 then some (c, argv)
          else argLoop room (c.put 0).next argv

/-- `cli_parse_line` on a line with its NUL: the arguments, read from the buffer at the end. -/
def cliParseLine (buf : List Byte) : Option (List (List Byte)) :=
  (argLoop cmdMaxArgv ⟨buf, 0⟩ []).map fun (c, argv) => argv.map (strAt c.buf)

/-! ## On the text alone -/

/-- What takes the place of an escape `c` when it is removed, and the text behind it. -/
def shifted (c : Byte) : List Byte → Byte × List Byte
  | [] => (c, [])
  | d :: text => (d, text ++ [(d :: text).getLast (cons_ne_nil _ _)])

/-- An argument and the text from the byte that ends it on; `n` bounds the length of the text. -/
def scanWord (inquote : Bool) : ℕ → List Byte → List Byte × List Byte
  | 0, text => ([], text)
  | _ + 1, [] => ([], [])
  | n + 1, c :: text =>
    if isBlank c then ([], c :: text)
    else if inquote then
      if c = chr '\\' ∧ (text.head? = some (chr '\\') ∨ text.head? = some (chr '"')) then
        let (word, rest) := scanWord inquote n (shifted c text).2
        ((shifted c text).1 :: word, rest)
      else if c = chr '"' then ([], c :: text)
      else
        let (word, rest) := scanWord inquote n text
        (c :: word, rest)
    else if c = chr '\\' then
      let (word, rest) := scanWord inquote n (shifted c text).2
      ((shifted c text).1 :: word, rest)
    else if c = chr ';' then ([], c :: text)
    else
      let (word, rest) := scanWord inquote n text
      (c :: word, rest)

/-- The arguments of a text, at most so many. -/
def scanArgs : ℕ → List Byte → List (List Byte)
  | 0, _ => []
  | room + 1, text =>
    match text.dropWhile isBlank with
    | [] => []
    | c :: text =>
      let inquote := c == chr '"'
      let start := if inquote then text else c :: text
      let (word, rest) := scanWord inquote start.length start
      match rest with
      | [] => [word]
      | c :: rest => if !inquote ∧ c = chr ';' then [word] else word :: scanArgs room rest

def scanRest : ℕ → List Byte → List Byte
  | 0, text => text
  | room + 1, text =>
    match text.dropWhile isBlank with
    | [] => []
    | c :: text =>
      let inquote := c == chr '"'
      let start := if inquote then text else c :: text
      let (_, rest) := scanWord inquote start.length start
      match rest with
      | [] => []
      | c :: rest => if !inquote ∧ c = chr ';' then rest else scanRest room rest

theorem length_shifted (c : Byte) (text : List Byte) : (shifted c text).2.length = text.length := by
  cases text <;> simp [shifted]

variable {text line : List Byte} {c : Byte}

theorem scanWord_bound (inquote : Bool) {m n : ℕ} (hm : text.length ≤ m) (hn : text.length ≤ n) :
    scanWord inquote m text = scanWord inquote n text := by
  induction m generalizing n text with
  | zero =>
    obtain rfl := length_eq_zero_iff.mp (Nat.le_zero.mp hm)
    cases n <;> rfl
  | succ m ih =>
    cases text with
    | nil => cases n <;> rfl
    | cons c text =>
      obtain ⟨n, rfl⟩ : ∃ k, n = k + 1 := ⟨n - 1, by rw [length_cons] at hn; omega⟩
      have hm := Nat.le_of_succ_le_succ hm
      have hn := Nat.le_of_succ_le_succ hn
      have hlen := length_shifted c text
      rw [scanWord, scanWord, ih hm hn, ih (hlen.trans_le hm) (hlen.trans_le hn)]

theorem scanArgs_eq_nil_iff (room : ℕ) (text : List Byte) :
    scanArgs (room + 1) text = [] ↔ text.dropWhile isBlank = [] := by
  rw [scanArgs]
  split
  · next h => simp [h]
  · next h =>
      rw [h]
      dsimp only
      split <;> [skip; split_ifs] <;> simp

/-! ## The code does this -/

theorem unescape_view (pre : List Byte) (c : Byte) (post : List Byte) (h : 0 ∉ text) :
    unescape (view pre (c :: text) post) =
      view pre ((shifted c text).1 :: (shifted c text).2) post := by
  have hmove := memmove_view pre text post c h
  have hshift : (shifted c text).1 :: (shifted c text).2 =
      text ++ [(c :: text).getLast (cons_ne_nil _ _)] := by
    cases text <;> simp [shifted]
  rw [hshift, unescape, hmove]
  rfl

theorem shifted_ne_nul (hc : c ≠ 0) (h : 0 ∉ text) :
    (shifted c text).1 ≠ 0 ∧ 0 ∉ (shifted c text).2 := by
  cases text with
  | nil => exact ⟨hc, by simp [shifted]⟩
  | cons d text =>
    refine ⟨fun hd => h (hd ▸ mem_cons_self), fun hmem => ?_⟩
    rcases mem_append.mp hmem with hmem | hmem
    · exact h (mem_cons_of_mem _ hmem)
    · exact h (mem_singleton.mp hmem ▸ getLast_mem _)

theorem isBlank_zero : isBlank 0 = false := rfl

def wordEnd (inquote : Bool) (pre word rest post : List Byte) : Cursor × Bool :=
  match rest with
  | [] => (view (pre ++ word) [] post, false)
  | c :: rest =>
    if !inquote ∧ c = chr ';' then (view (pre ++ word ++ [0]) rest post, true)
    else (view (pre ++ word) (c :: rest) post, false)

theorem wordEnd_cons (inquote : Bool) (pre : List Byte) (c : Byte) (word rest post : List Byte) :
    wordEnd inquote (pre ++ [c]) word rest post = wordEnd inquote pre (c :: word) rest post := by
  simp [wordEnd]

/-- **One argument.** The loop ends where the scan of the text ends, with the argument in the
buffer. -/
theorem wordLoop_view (inquote : Bool) (n : ℕ) {fuel : ℕ} (pre : List Byte) (post : List Byte)
    (hn : text.length ≤ n) (hfuel : n < fuel) (h : 0 ∉ text) :
    wordLoop inquote fuel (view pre text post) =
      some (wordEnd inquote pre (scanWord inquote n text).1 (scanWord inquote n text).2 post) := by
  induction n generalizing fuel pre text with
  | zero =>
    obtain rfl := length_eq_zero_iff.mp (Nat.le_zero.mp hn)
    obtain ⟨fuel, rfl⟩ : ∃ k, fuel = k + 1 := ⟨fuel - 1, by omega⟩
    simp [wordLoop, scanWord, wordEnd]
  | succ n ih =>
    obtain ⟨fuel, rfl⟩ : ∃ k, fuel = k + 1 := ⟨fuel - 1, by omega⟩
    cases text with
    | nil => simp [wordLoop, scanWord, wordEnd]
    | cons c text =>
      have hc : c ≠ 0 := fun hc => h (hc ▸ mem_cons_self)
      have htext : 0 ∉ text := fun hmem => h (mem_cons_of_mem _ hmem)
      have hlen : text.length ≤ n := Nat.le_of_succ_le_succ hn
      have hback : chr '\\' ≠ 0 := by decide
      have hmark : chr '"' ≠ 0 := by decide
      have hnext {b : Byte} : b ≠ 0 → ((view pre (c :: text) post).get 1 = b ↔
          text.head? = some b) := by
        intro hb
        rw [get_view_one]
        cases text.head? with
        | none => exact iff_of_false hb.symm (Option.some_ne_none b).symm
        | some d => simp
      -- Going on behind the byte, and behind the byte that takes the place of an escape.
      have hplain := ih (pre ++ [c]) hlen (Nat.lt_of_succ_lt_succ hfuel) htext
      have hescape := ih (pre ++ [(shifted c text).1])
        ((length_shifted c text).trans_le hlen) (Nat.lt_of_succ_lt_succ hfuel)
        (shifted_ne_nul hc htext).2
      rw [wordEnd_cons] at hplain hescape
      rw [wordLoop, scanWord]
      simp only [get_view_zero, hc, false_or, unescape_view pre c post htext,
        next_view, hplain, hescape, hnext hback, hnext hmark]
      split_ifs with hblank hquote hesc hend hesc hsemi
      · have hsemi : c ≠ chr ';' := by
          rintro rfl
          exact absurd hblank (by decide)
        simp [wordEnd, hsemi]
      · rfl
      · simp [wordEnd, hquote]
      · rfl
      · rfl
      · simp [wordEnd, hquote, hsemi]
      · rfl

theorem scanWord_ne_nul (inquote : Bool) (n : ℕ) (h : 0 ∉ text) :
    0 ∉ (scanWord inquote n text).1 ∧ 0 ∉ (scanWord inquote n text).2 := by
  fun_induction scanWord inquote n text with
  | case1 | case2 | case3 | case5 | case8 => exact ⟨not_mem_nil, h⟩
  | case4 n c text _ _ _ word rest hscan ih | case7 n text _ word rest _ hscan ih =>
    rw [mem_cons, not_or] at h
    obtain ⟨hhead, hrest⟩ := shifted_ne_nul (Ne.symm h.1) h.2
    rw [hscan] at ih
    exact ⟨not_mem_cons_of_ne_of_not_mem hhead.symm (ih hrest).1, (ih hrest).2⟩
  | case6 n c text _ _ _ _ word rest hscan ih | case9 n c text _ _ _ _ word rest hscan ih =>
    rw [mem_cons, not_or] at h
    rw [hscan] at ih
    exact ⟨not_mem_cons_of_ne_of_not_mem h.1 (ih h.2).1, (ih h.2).2⟩

/-- An argument starts behind the blanks and an opening quote. -/
theorem argStart_view (inquote : Bool) (pre blanks : List Byte) (post : List Byte)
    (h : 0 ∉ c :: text) :
    ∃ pre' start, pre <+: pre' ∧ (if inquote then text else c :: text) = start ∧
      (if inquote then (view (pre ++ blanks) (c :: text) post).next
        else view (pre ++ blanks) (c :: text) post) = view pre' start post ∧
      0 ∉ start := by
  cases inquote with
  | true =>
    refine ⟨pre ++ blanks ++ [c], text, ⟨blanks ++ [c], by simp⟩, rfl, by simp, ?_⟩
    exact fun hmem => h (mem_cons_of_mem _ hmem)
  | false => exact ⟨pre ++ blanks, c :: text, ⟨blanks, rfl⟩, rfl, rfl, h⟩

/-- **All arguments.** The code ends, keeps what it has passed, and reads the arguments of the
text. -/
theorem argLoop_view (room : ℕ) (pre : List Byte) (post : List Byte) (argv : List ℕ)
    (h : 0 ∉ text) :
    ∃ pre' new, argLoop room (view pre text post) argv =
        some (view pre' (scanRest room text) post, argv ++ new) ∧ pre <+: pre' ∧
      new.map (strAt (view pre' (scanRest room text) post).buf) = scanArgs room text := by
  induction room generalizing pre text argv with
  | zero => exact ⟨pre, [], by rw [argLoop, append_nil, scanRest], prefix_refl pre, rfl⟩
  | succ room ih =>
    have hblank := skip_view pre text post isBlank_zero
      (length_lt_view pre text post)
    have hdrop : 0 ∉ text.dropWhile isBlank := fun hmem => h (dropWhile_subset _ hmem)
    rw [argLoop, hblank, Option.bind_some, scanArgs, scanRest]
    generalize text.takeWhile isBlank = blanks at *
    cases htext : text.dropWhile isBlank with
    | nil => exact ⟨pre ++ blanks, [], by simp, ⟨blanks, rfl⟩, rfl⟩
    | cons c text =>
      rw [htext] at hdrop
      have hc : c ≠ 0 := fun hc => hdrop (hc ▸ mem_cons_self)
      simp only [get_view_zero, if_neg hc]
      generalize (c == chr '"') = inquote
      obtain ⟨pre', start, hpre, hstart, hview, hnul⟩ :=
        argStart_view inquote pre blanks post hdrop
      have hloop := wordLoop_view inquote start.length pre' post le_rfl
        (length_lt_view pre' start post) hnul
      obtain ⟨hword, hrest⟩ := scanWord_ne_nul inquote start.length hnul
      have hs : (view pre' start post).s = pre'.length := rfl
      simp only [hview, hstart, hloop, Option.bind_some, hs]
      generalize (scanWord inquote start.length start).1 = word at *
      generalize (scanWord inquote start.length start).2 = rest at *
      cases rest with
      | nil =>
        refine ⟨pre' ++ word, [pre'.length], by simp [wordEnd], hpre.trans ⟨word, rfl⟩, ?_⟩
        rw [map_singleton, strAt_of_passed hword ⟨post, by simp [view]⟩]
      | cons d rest =>
        have hd : d ≠ 0 := fun hd => hrest (hd ▸ mem_cons_self)
        by_cases hsemi : !inquote ∧ d = chr ';'
        · dsimp only
          rw [if_pos hsemi, if_pos hsemi]
          refine ⟨pre' ++ word ++ [0], [pre'.length], by simp [wordEnd, hsemi],
            hpre.trans ⟨word ++ [0], by simp⟩, ?_⟩
          rw [map_singleton, strAt_of_passed hword ⟨rest ++ 0 :: post, by simp [view]⟩]
        obtain ⟨pre'', new, hrun, hpassed, hnew⟩ := ih (pre' ++ word ++ [0])
          (argv ++ [pre'.length]) fun hmem => hrest (mem_cons_of_mem _ hmem)
        dsimp only
        rw [if_neg hsemi, if_neg hsemi]
        refine ⟨pre'', pre'.length :: new, ?_, ?_, ?_⟩
        · simp only [wordEnd, if_neg hsemi, get_view_zero, if_neg hd,
            put_view, next_view, Bool.false_eq_true, if_false]
          rw [hrun, append_assoc, singleton_append]
        · exact hpre.trans (List.IsPrefix.trans ⟨word ++ [0], by simp⟩ hpassed)
        · have hbuf : pre' ++ word ++ [0] <+:
              (view pre'' (scanRest room rest) post).buf :=
            hpassed.trans ⟨_, (append_assoc _ _ _).symm⟩
          rw [map_cons, strAt_of_passed hword hbuf, hnew]

/-- **`cli_parse_line` on the text of a line.** -/
theorem cliParseLine_eq (h : 0 ∉ line) :
    cliParseLine (line ++ [0]) = some (scanArgs cmdMaxArgv line) := by
  obtain ⟨pre', new, hrun, -, hnew⟩ := argLoop_view cmdMaxArgv [] [] [] h
  have hview : view [] line [] = ⟨line ++ [0], 0⟩ := rfl
  rw [cliParseLine, ← hview, hrun]
  exact congrArg some hnew

end WiseSdk.Cli
