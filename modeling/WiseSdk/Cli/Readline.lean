import WiseSdk.Library.CString

/-!
# Editing a line

`cli_readline` of `lib/cli/cli.c` keeps the bytes of the line in a buffer, a pointer behind the last
one, their number, and the column of the cursor. `delete_char` and `handle_escape_sequence` change
them, too.

A TAB is shown as blanks up to the next multiple of 8, so its width depends on the column. The
column is right after every key but one: a line recalled from the history is taken to be as wide as
it is long. If it has a TAB, the column is too small from then on, and erasing the line leaves a
part of it on the screen.

The code is that with `CONFIG_CLI_HISTORY` and without `CONFIG_CLI_AUTOCOMPLETE`. What a search of
the history returns is a part of the key.
-/

namespace WiseSdk.Cli

open Library List

/-! ## Keys -/

/-- The states of `handle_escape_sequence` behind the `[`. -/
inductive CsiState where
  | start | param | intermediate
  deriving DecidableEq

/-- The final byte behind `ESC [`, if it comes to one. `esclen` counts up to the size of `esc`. -/
def csiLoop : List Byte → CsiState → ℕ → Option Byte
  | [], _, _ => none
  | c :: ahead, state, esclen =>
    if esclen = 8 then none
    else if 0x20 ≤ c ∧ c < 0x30 then
      if state = .intermediate then none else csiLoop ahead .param (esclen + 1)
    else if 0x30 ≤ c ∧ c < 0x40 then csiLoop ahead .intermediate (esclen + 1)
    else if 0x40 ≤ c ∧ c < 0x7f then some c
    else none

def csiFinal : List Byte → Option Byte
  | [] => none
  | c :: ahead => if c = chr '[' then csiLoop ahead .start 2 else none

abbrev Entry (blen : ℕ) := {text : List Byte // text.length < blen}

/-- A key: its byte, the bytes that an escape sequence goes on with, and what a search of the
history returns. It does not end the line. -/
structure KeyPress (blen : ℕ) where
  c : Byte
  ahead : List Byte
  hist : Option (Entry blen)
  stays : c ≠ chr '\r' ∧ c ≠ chr '\n' ∧ c ≠ 0x03

inductive EditOp (blen : ℕ) where
  | ignore
  | eraseLine
  | eraseWord
  | deleteChar
  | fromHistory (hist : Option (Entry blen))
  | char (c : Byte)

/-- The `switch` of `cli_readline`. -/
def KeyPress.op {blen : ℕ} (k : KeyPress blen) : EditOp blen :=
  if k.c = 0 then .ignore
  else if k.c = 0x15 then .eraseLine
  else if k.c = 0x17 then .eraseWord
  else if k.c = 0x08 ∨ k.c = 0x7f then .deleteChar
  else if k.c = 0x1b then
    if csiFinal k.ahead = some (chr 'A') ∨ csiFinal k.ahead = some (chr 'B') then
      .fromHistory k.hist
    else .ignore
  else .char k.c

/-! ## The code -/

structure Edit where
  buffer : List Byte
  p : ℕ
  n : ℕ
  col : ℕ

/-- A character is printed; a TAB as `tab_seq + (col & 07)`. -/
def typed (col : ℕ) (c : Byte) : ℕ := if c = chr '\t' then col + (8 - (col &&& 7)) else col + 1

/-- `while (col > plen) { __puts(erase_seq); col--; }`. -/
def erased (plen col : ℕ) : ℕ := min col plen

def deleteChar (plen : ℕ) (s : Edit) : Edit :=
  if s.n = 0 then s
  else
    let p := s.p - 1
    if s.buffer[p]? = some (chr '\t') then
      { s with p := p, n := s.n - 1, col := (s.buffer.take p).foldl typed (erased plen s.col) }
    else { s with p := p, n := s.n - 1, col := s.col - 1 }

/-- `while ((n > 0) && (*p != ' '))`, at most so many times. -/
def wordLoopBack (plen : ℕ) : ℕ → Edit → Edit
  | 0, s => s
  | fuel + 1, s =>
    if 0 < s.n ∧ s.buffer[s.p]? ≠ some (chr ' ') then wordLoopBack plen fuel (deleteChar plen s)
    else s

def strcpy (buffer text : List Byte) : List Byte := text ++ 0 :: buffer.drop (text.length + 1)

/-- A turn of the loop of `cli_readline`. -/
def cliReadlineKey (plen blen : ℕ) (s : Edit) (k : KeyPress blen) : Edit :=
  if blen ≤ s.p then s
  else
    match k.op with
    | .ignore => s
    | .eraseLine => { s with p := 0, n := 0, col := erased plen s.col }
    | .eraseWord => wordLoopBack plen s.n (deleteChar plen s)
    | .deleteChar => deleteChar plen s
    | .fromHistory none => { s with p := 0, n := 0, col := plen }
    | .fromHistory (some hist) =>
      { buffer := strcpy s.buffer hist
        p := hist.val.length
        n := hist.val.length
        col := hist.val.length + plen }
    | .char c =>
      if s.n + 2 < blen then
        { buffer := s.buffer.set s.p c, p := s.p + 1, n := s.n + 1, col := typed s.col c }
      else s

/-- The start of `cli_readline`, on any buffer. -/
def Edit.init (plen : ℕ) (buffer : List Byte) : Edit := ⟨buffer.set 0 0, 0, 0, plen⟩

/-! ## The line -/

def eraseWord (text : List Byte) : List Byte :=
  (text.reverse.dropWhile (· ≠ chr ' ')).tail.reverse

def editText {blen : ℕ} (text : List Byte) (k : KeyPress blen) : List Byte :=
  match k.op with
  | .ignore => text
  | .eraseLine => []
  | .eraseWord => eraseWord text
  | .deleteChar => text.dropLast
  | .fromHistory none => []
  | .fromHistory (some hist) => hist
  | .char c => if text.length + 2 < blen then text ++ [c] else text

/-- The column behind a byte: TABs go to the next multiple of 8. -/
def columnAfter (col : ℕ) (c : Byte) : ℕ := if c = chr '\t' then 8 * (col / 8 + 1) else col + 1

def column (plen : ℕ) (text : List Byte) : ℕ := text.foldl columnAfter plen

/-- **The variables show the line.** -/
structure Shows (plen blen : ℕ) (s : Edit) (text : List Byte) : Prop where
  pointer : s.p = s.n
  room : s.n < blen
  length : s.buffer.length = blen
  bytes : s.buffer.take s.n = text
  col : s.col = column plen text

theorem typed_eq : typed = columnAfter := by
  funext col c
  rw [typed, columnAfter, Nat.and_two_pow_sub_one_eq_mod col 3]
  split_ifs
  · omega
  · rfl

theorem column_concat (plen : ℕ) (text : List Byte) (c : Byte) :
    column plen (text ++ [c]) = columnAfter (column plen text) c := by
  rw [column, foldl_append]
  rfl

theorem le_column (plen : ℕ) (text : List Byte) : plen ≤ column plen text := by
  induction text using List.reverseRecOn with
  | nil => exact le_rfl
  | append_singleton text c ih =>
    rw [column_concat, columnAfter]
    split_ifs <;> omega

theorem eraseWord_concat (text : List Byte) (c : Byte) :
    eraseWord (text ++ [c]) = if c = chr ' ' then text else eraseWord text := by
  rw [eraseWord, reverse_append, reverse_singleton, singleton_append, dropWhile_cons]
  split_ifs with h h' h'
  · exact absurd h' (by simpa using h)
  · rfl
  · rw [tail_cons, reverse_reverse]
  · exact absurd h (by simpa using h')

section Keys

variable {plen blen fuel : ℕ} {s : Edit} {text : List Byte} {c : Byte}

theorem Shows.length_eq (h : Shows plen blen s text) : text.length = s.n := by
  rw [← h.bytes, length_take, h.length]
  exact min_eq_left h.room.le

theorem Shows.erased (h : Shows plen blen s text) : Cli.erased plen s.col = plen := by
  rw [Cli.erased, h.col]
  exact min_eq_right (le_column plen text)

theorem Shows.empty (h : Shows plen blen s text) :
    Shows plen blen { s with p := 0, n := 0, col := plen } [] :=
  ⟨rfl, Nat.zero_lt_of_lt h.room, h.length, rfl, rfl⟩

theorem Shows.deleteChar_nil (h : Shows plen blen s []) : deleteChar plen s = s := by
  have hzero : s.n = 0 := h.length_eq.symm
  rw [deleteChar, if_pos hzero]

theorem Shows.deleteChar_concat (h : Shows plen blen s (text ++ [c])) :
    Shows plen blen (deleteChar plen s) text ∧
      (deleteChar plen s).buffer[(deleteChar plen s).p]? = some c := by
  have hlen : text.length + 1 = s.n := by
    rw [← h.length_eq, length_append, length_singleton]
  have hroom := h.room
  have hbytes : s.buffer.take (text.length + 1) = text ++ [c] := hlen ▸ h.bytes
  have hc : s.buffer[text.length]? = some c := by
    rw [← getElem?_take_of_lt (Nat.lt_succ_self text.length), hbytes, getElem?_concat_length]
  have htext : s.buffer.take text.length = text := by
    rw [← Nat.min_eq_left (Nat.le_succ text.length), ← take_take, hbytes, take_left]
  have hp : s.p - 1 = text.length := by
    rw [h.pointer]
    omega
  have hn : s.n - 1 = text.length := by omega
  have hdelete : deleteChar plen s =
      { s with p := text.length, n := text.length, col := column plen text } := by
    rw [deleteChar, if_neg (by omega)]
    simp only [hp, hn, hc, htext, h.erased, typed_eq, Option.some.injEq]
    split_ifs with htab
    · rfl
    · rw [h.col, column_concat, columnAfter, if_neg htab, Nat.add_sub_cancel]
  rw [hdelete]
  exact ⟨⟨rfl, by dsimp only; omega, h.length, htext, rfl⟩, hc⟩

theorem Shows.wordLoopBack (h : Shows plen blen s text) (hc : s.buffer[s.p]? = some c)
    (hfuel : text.length ≤ fuel) :
    Shows plen blen (wordLoopBack plen fuel s) (if c = chr ' ' then text else eraseWord text) := by
  induction text using List.reverseRecOn generalizing s c fuel with
  | nil =>
    have hzero : s.n = 0 := h.length_eq.symm
    have hstop : Cli.wordLoopBack plen fuel s = s := by
      cases fuel with
      | zero => rfl
      | succ fuel => rw [Cli.wordLoopBack, if_neg (by omega)]
    rw [hstop]
    split_ifs <;> exact h
  | append_singleton text d ih =>
    rw [length_append, length_singleton] at hfuel
    obtain ⟨fuel, rfl⟩ : ∃ k, fuel = k + 1 := ⟨fuel - 1, by omega⟩
    have hn : 0 < s.n := by
      rw [← h.length_eq, length_append]
      exact Nat.succ_pos _
    rw [Cli.wordLoopBack, hc, eraseWord_concat]
    by_cases hblank : c = chr ' '
    · rw [if_neg (by simp [hblank]), if_pos hblank]
      exact h
    · rw [if_pos ⟨hn, by simpa using hblank⟩, if_neg hblank]
      obtain ⟨hshows, hd⟩ := h.deleteChar_concat
      exact ih hshows hd (by omega)

theorem Shows.eraseWord (h : Shows plen blen s text) :
    Shows plen blen (Cli.wordLoopBack plen s.n (deleteChar plen s)) (Cli.eraseWord text) := by
  rw [← h.length_eq]
  induction text using List.reverseRecOn with
  | nil =>
    rw [h.deleteChar_nil]
    exact h
  | append_singleton text c =>
    obtain ⟨hshows, hc⟩ := h.deleteChar_concat
    rw [eraseWord_concat, length_append]
    exact hshows.wordLoopBack hc (Nat.le_add_right _ _)

theorem Shows.char (h : Shows plen blen s text) (c : Byte) (hroom : s.n + 2 < blen) :
    Shows plen blen
      { buffer := s.buffer.set s.p c, p := s.p + 1, n := s.n + 1, col := typed s.col c }
      (text ++ [c]) := by
  have hlt : s.n < s.buffer.length := h.length ▸ h.room
  refine ⟨by dsimp only; rw [h.pointer], by dsimp only; omega, ?_, ?_, ?_⟩
  · rw [length_set, h.length]
  · rw [h.pointer, take_add_one, take_set_of_le le_rfl, h.bytes, getElem?_set_self hlt]
    rfl
  · rw [column_concat, ← h.col, typed_eq]

/-- A recalled line is shown, if it is as wide as it is long. -/
theorem Shows.recall_iff (h : Shows plen blen s text) (hist : Entry blen) :
    Shows plen blen
        { buffer := strcpy s.buffer hist
          p := hist.val.length
          n := hist.val.length
          col := hist.val.length + plen } hist ↔
      column plen hist = plen + hist.val.length := by
  refine ⟨fun h' => ?_, fun hcol => ⟨rfl, hist.prop, ?_, take_left, ?_⟩⟩
  · rw [← h'.col, Nat.add_comm]
  · have hlen := h.length
    rw [strcpy, length_append, length_cons, length_drop]
    omega
  · rw [hcol, Nat.add_comm]

end Keys

/-! ## Keys in a row -/

/-- A line that is recalled has no TAB that is wider than one column. -/
def EditOp.Fits {blen : ℕ} (plen : ℕ) : EditOp blen → Prop
  | .fromHistory (some hist) => column plen hist = plen + hist.val.length
  | _ => True

/-- **A key does to the variables what it does to the line**, exactly if it fits. -/
theorem Shows.key_iff {plen blen : ℕ} {s : Edit} {text : List Byte} (h : Shows plen blen s text)
    (k : KeyPress blen) :
    Shows plen blen (cliReadlineKey plen blen s k) (editText text k) ↔ k.op.Fits plen := by
  have hroom : ¬blen ≤ s.p := by
    rw [h.pointer]
    exact not_le.mpr h.room
  rw [cliReadlineKey, if_neg hroom, editText]
  cases k.op with
  | ignore => exact iff_of_true h trivial
  | eraseLine =>
    rw [h.erased]
    exact iff_of_true h.empty trivial
  | eraseWord => exact iff_of_true h.eraseWord trivial
  | deleteChar =>
    refine iff_of_true ?_ trivial
    rcases eq_nil_or_concat' text with rfl | ⟨text, c, rfl⟩
    · rw [h.deleteChar_nil]
      exact h
    · rw [dropLast_concat]
      exact h.deleteChar_concat.1
  | fromHistory hist =>
    cases hist with
    | none => exact iff_of_true h.empty trivial
    | some hist => exact h.recall_iff hist
  | char c =>
    refine iff_of_true ?_ trivial
    rw [h.length_eq]
    split_ifs with hfits
    · exact h.char c hfits
    · exact h

theorem Shows.keys_iff {plen blen : ℕ} {s : Edit} {text : List Byte} (h : Shows plen blen s text)
    (keys : List (KeyPress blen)) :
    (∀ pre, pre <+: keys →
        Shows plen blen (pre.foldl (cliReadlineKey plen blen) s) (pre.foldl editText text)) ↔
      ∀ k ∈ keys, k.op.Fits plen := by
  induction keys generalizing s text with
  | nil =>
    refine iff_of_true (fun pre hpre => ?_) (by simp)
    rw [prefix_nil.mp hpre]
    exact h
  | cons k keys ih =>
    rw [forall_mem_cons]
    constructor
    · intro hall
      have hk := hall [k] (cons_prefix_cons.mpr ⟨rfl, nil_prefix⟩)
      refine ⟨(h.key_iff k).mp hk, (ih hk).mp fun pre hpre => ?_⟩
      exact hall (k :: pre) (cons_prefix_cons.mpr ⟨rfl, hpre⟩)
    · rintro ⟨hk, hkeys⟩ pre hpre
      cases pre with
      | nil => exact h
      | cons k' pre =>
        obtain ⟨rfl, htail⟩ := cons_prefix_cons.mp hpre
        exact (ih ((h.key_iff k').mpr hk)).mpr hkeys pre htail

def EditsLine (plen : ℕ) (buffer : List Byte) (keys : List (KeyPress buffer.length)) : Prop :=
  ∀ pre, pre <+: keys → Shows plen buffer.length
    (pre.foldl (cliReadlineKey plen buffer.length) (.init plen buffer)) (pre.foldl editText [])

/-- **Line editing**: pointer, number, bytes and column are those of the edited line after every
key, exactly when the buffer is not empty and recalled lines are as wide as they are long. -/
theorem line_editing_iff (plen : ℕ) (buffer : List Byte) (keys : List (KeyPress buffer.length)) :
    EditsLine plen buffer keys ↔ 0 < buffer.length ∧ ∀ k ∈ keys, k.op.Fits plen := by
  have hinit : 0 < buffer.length → Shows plen buffer.length (.init plen buffer) [] := fun hpos =>
    ⟨rfl, hpos, length_set, rfl, rfl⟩
  constructor
  · intro hall
    have hpos : 0 < buffer.length := (hall [] nil_prefix).room
    exact ⟨hpos, ((hinit hpos).keys_iff keys).mp hall⟩
  · exact fun h => ((hinit h.1).keys_iff keys).mpr h.2

def recallTab : KeyPress (replicate 16 (0 : Byte)).length where
  c := 0x1b
  ahead := [chr '[', chr 'A']
  hist := some ⟨['a', '\t', 'b'].map chr, by decide⟩
  stays := by decide

/-- Behind a prompt of two characters the recalled line reaches column 9, and `col` is 5: erasing
leaves four columns. -/
theorem recalled_tab_miscounted :
    (cliReadlineKey 2 16 (.init 2 (replicate 16 0)) recallTab).col = 5 ∧
      column 2 (editText [] recallTab) = 9 ∧
      ¬EditsLine 2 (replicate 16 0) [recallTab] := by
  have hcol : (cliReadlineKey 2 16 (.init 2 (replicate 16 0)) recallTab).col = 5 := by
    decide +kernel
  have hcolumn : column 2 (editText [] recallTab) = 9 := by decide +kernel
  refine ⟨hcol, hcolumn, fun h => ?_⟩
  have hshows := (h [recallTab] (prefix_refl _)).col
  exact absurd (hcol.symm.trans (hshows.trans hcolumn)) (by decide)

end WiseSdk.Cli
