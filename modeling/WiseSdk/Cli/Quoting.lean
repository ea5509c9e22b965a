import WiseSdk.Cli.Words
import Mathlib.Data.List.Count
import Mathlib.Data.List.TakeWhile

/-!
# Quoting of command line words

A list of words is printed as a line, each word bare with its special bytes escaped or between
double quotes, and read back by `cli_parse_line`.

Each escape that is removed leaves one more copy of the line's last byte at the end, so the words
come back only where no escape was written, or where the last word ends in a byte that ends an
argument when it stands unescaped: then the copies are blanks, or stand behind a `;`.  A blank
ends an argument between quotes as well, so that a quoted word must have none.
-/

namespace WiseSdk.Cli

open Library List

/-! ## Printing -/

def special (quoted : Bool) (c : Byte) : Bool :=
  c == chr '"' || c == chr '\\' || !quoted && (isBlank c || c == chr ';')

def escapeByte (quoted : Bool) (c : Byte) : List Byte :=
  if special quoted c then [chr '\\', c] else [c]

def escape (quoted : Bool) (bytes : List Byte) : List Byte := bytes.flatMap (escapeByte quoted)

/-- A word and the way it is printed. -/
structure Word where
  bytes : List Byte
  quoted : Bool
  ne_nil : bytes ≠ []
  ne_nul : 0 ∉ bytes

def Word.mark (w : Word) : List Byte := if w.quoted then [chr '"'] else []

def Word.printed (w : Word) : List Byte := w.mark ++ escape w.quoted w.bytes ++ w.mark

abbrev Blank := { b : Byte // isBlank b = true }

def printLine (sep : Blank) : List Word → List Byte
  | [] => []
  | [w] => w.printed
  | w :: ws => w.printed ++ sep.1 :: printLine sep ws

def QuotesNoBlank (ws : List Word) : Prop :=
  ∀ w ∈ ws, w.quoted = true → ∀ b ∈ w.bytes, isBlank b = false
deriving Decidable

def NoEscape (ws : List Word) : Prop := ∀ w ∈ ws, ∀ b ∈ w.bytes, special w.quoted b = false
deriving Decidable

def EndsArgument (ws : List Word) : Prop :=
  ∃ w, ws.getLast? = some w ∧ w.quoted = false ∧
    ∃ b, w.bytes.getLast? = some b ∧ (isBlank b = true ∨ b = chr ';')

/-! ## Reading a printed word -/

theorem escape_cons (quoted : Bool) (c : Byte) (bytes : List Byte) :
    escape quoted (c :: bytes) = escapeByte quoted c ++ escape quoted bytes :=
  flatMap_cons

theorem getLast?_escapeByte (quoted : Bool) (c : Byte) :
    (escapeByte quoted c).getLast? = some c := by
  rw [escapeByte]
  split_ifs <;> rfl

theorem getLast?_escape (quoted : Bool) (bytes : List Byte) :
    (escape quoted bytes).getLast? = bytes.getLast? := by
  rcases eq_nil_or_concat' bytes with rfl | ⟨bytes, c, rfl⟩
  · rfl
  · rw [escape, flatMap_append, flatMap_singleton, getLast?_append,
      getLast?_escapeByte, getLast?_concat]
    rfl

theorem isBlank_of_not_special {c : Byte} (h : special false c = false) : isBlank c = false := by
  simp only [special, Bool.not_false, Bool.true_and, Bool.or_eq_false_iff] at h
  exact h.2.1

/-- **A printed word is read as it was**, with its escapes. -/
theorem readWord_escape (quoted : Bool) (bytes text : List Byte) :
    readWord quoted (escape quoted bytes ++ text) = (bytes ++ (readWord quoted text).1,
      (readWord quoted text).2.1, (readWord quoted text).2.2 + bytes.countP (special quoted)) := by
  induction bytes with
  | nil => rfl
  | cons c bytes ih =>
    rw [escape_cons, append_assoc, escapeByte]
    split_ifs with hc
    · have hback : endsWord quoted (chr '\\') = false := by cases quoted <;> decide
      have hesc : escapesNext quoted (chr '\\') c = true := by
        cases quoted with
        | true => simpa [special, escapesNext, or_comm] using hc
        | false => simp [escapesNext]
      rw [cons_append, singleton_append, readWord_escaped hback hesc, ih, countP_cons_of_pos hc]
      rfl
    rw [singleton_append, countP_cons_of_neg hc]
    simp only [special, Bool.not_eq_true, Bool.or_eq_false_iff, beq_eq_false_iff_ne] at hc
    have hends : endsWord quoted c = false := by
      cases quoted with
      | true => simp [endsWord, hc]
      | false => simpa [endsWord] using hc.2
    rw [readWord_plain hends (by simp [escapesNext, hc.1.2]), ih]
    rfl

def Word.escapes (w : Word) : ℕ := w.bytes.countP (special w.quoted)

theorem Word.escapes_eq_zero_iff (w : Word) :
    w.escapes = 0 ↔ ∀ b ∈ w.bytes, special w.quoted b = false := by
  rw [Word.escapes, countP_eq_zero]
  simp only [Bool.not_eq_true]

theorem Word.read_inside (w : Word) {d : Byte} (hd : endsWord w.quoted d = true)
    (text : List Byte) :
    readWord w.quoted (escape w.quoted w.bytes ++ d :: text) = (w.bytes, d :: text, w.escapes) := by
  rw [readWord_escape, readWord_ends hd, append_nil, Nat.zero_add]
  rfl

theorem Word.read_last (w : Word) :
    readWord w.quoted (escape w.quoted w.bytes) = (w.bytes, [], w.escapes) := by
  have hread := readWord_escape w.quoted w.bytes []
  rw [append_nil] at hread
  rw [hread, readWord, append_nil, Nat.zero_add]
  rfl

variable {last b : Byte} {w : Word} {text bytes : List Byte} {ws : List Word}

theorem endsIn_append (pre : List Byte) (h : text.getLast? = some last) :
    EndsIn last (pre ++ text) := by
  intro b hb
  rw [getLast?_append, h] at hb
  exact (Option.some.inj hb).symm

/-! ## Arguments -/

def argsFrom (quoted : Bool) (room : ℕ) (out : List Byte × List Byte) : List (List Byte) :=
  match out.2 with
  | [] => [out.1]
  | c :: rest => if !quoted ∧ c = chr ';' then [out.1] else out.1 :: scanArgs room rest

theorem head?_argsFrom (quoted : Bool) (room : ℕ) (out : List Byte × List Byte) :
    (argsFrom quoted room out).head? = some out.1 := by
  rw [argsFrom]
  split
  · rfl
  · split_ifs <;> rfl

theorem scanArgs_blank (room : ℕ) (hb : isBlank b = true) (text : List Byte) :
    scanArgs room (b :: text) = scanArgs room text := by
  cases room with
  | zero => rfl
  | succ room => rw [scanArgs, scanArgs, dropWhile_cons_of_pos hb]

theorem escape_head (h : bytes ≠ []) :
    ∃ c rest, escape false bytes = c :: rest ∧ isBlank c = false ∧ (c == chr '"') = false := by
  obtain ⟨c, bytes, rfl⟩ := exists_cons_of_ne_nil h
  rw [escape_cons, escapeByte]
  split_ifs with hc
  · exact ⟨chr '\\', c :: escape false bytes, rfl, by decide, by decide⟩
  · have hc := Bool.eq_false_of_not_eq_true hc
    refine ⟨c, escape false bytes, rfl, isBlank_of_not_special hc, ?_⟩
    simp only [special, Bool.or_eq_false_iff] at hc
    exact hc.1.1

theorem scanArgs_opened (room : ℕ) (w : Word) (text : List Byte) :
    let body := escape w.quoted w.bytes ++ text
    scanArgs (room + 1) (w.mark ++ body) =
      argsFrom w.quoted room (scanWord w.quoted body.length body) := by
  intro body
  cases hq : w.quoted with
  | true =>
    have hmark : w.mark ++ body = chr '"' :: body := by rw [Word.mark, if_pos hq]; rfl
    rw [hmark, scanArgs, dropWhile_cons_of_neg (by decide)]
    rfl
  | false =>
    obtain ⟨c, rest, hbody, hblank, hc⟩ := escape_head w.ne_nil
    have hmark : w.mark = [] := by rw [Word.mark, hq, if_neg (by simp)]
    have hstart : body = c :: (rest ++ text) := by
      show escape w.quoted w.bytes ++ text = _
      rw [hq, hbody, cons_append]
    rw [hmark, nil_append, hstart, scanArgs, dropWhile_cons_of_neg (by simp [hblank])]
    simp only [hc]
    rfl

theorem scanArgs_followed (room : ℕ) (sep : Blank) (hkept : Kept w.quoted w.bytes)
    (hlast : text.getLast? = some last) :
    scanArgs (room + 1) (w.printed ++ sep.1 :: text) =
      w.bytes :: scanArgs room (text ++ replicate w.escapes last) := by
  have hsep : (sep.1 :: text).getLast? = some last := by
    rw [getLast?_cons, hlast]
    rfl
  rw [Word.printed, append_assoc, append_assoc, scanArgs_opened]
  cases hq : w.quoted with
  | true =>
    have hmark : w.mark = [chr '"'] := if_pos hq
    have hends : endsWord w.quoted (chr '"') = true := by rw [hq]; decide
    have hscan := scanWord_inside 0 (w.read_inside hends (sep.1 :: text)) hkept
      (endsIn_append _ hsep) le_rfl
    simp only [replicate_zero, append_nil, Nat.zero_add, Nat.add_zero, hq] at hscan
    rw [hmark, singleton_append, hscan]
    simp [argsFrom, scanArgs_blank room sep.2]
  | false =>
    have hmark : w.mark = [] := if_neg (by simp [hq])
    have hends : endsWord w.quoted sep.1 = true := by simp [hq, endsWord, sep.2]
    have hsemi : sep.1 ≠ chr ';' := fun h => absurd sep.2 (by rw [h]; decide)
    have hscan := scanWord_inside 0 (w.read_inside hends text) hkept (endsIn_append _ hsep) le_rfl
    simp only [replicate_zero, append_nil, Nat.zero_add, Nat.add_zero, hq] at hscan
    rw [hmark, nil_append, hscan]
    simp [argsFrom, hsemi]

/-- A quoted word with a blank is cut there. -/
theorem scanArgs_cut (room : ℕ) (hq : w.quoted = true) (hblank : ¬ ∀ b ∈ w.bytes, isBlank b = false)
    (text : List Byte) :
    (scanArgs (room + 1) (w.printed ++ text)).head? ≠ some w.bytes := by
  have hends : endsWord w.quoted (chr '"') = true := by rw [hq]; decide
  have hread := w.read_inside hends text
  have hmark : w.mark = [chr '"'] := if_pos hq
  rw [Word.printed, append_assoc, append_assoc, scanArgs_opened, head?_argsFrom, hmark,
    singleton_append]
  rw [hq] at hread ⊢
  have hcut : ∃ b ∈ (readWord true (escape true w.bytes ++ chr '"' :: text)).1,
      isBlank b = true := by
    rw [hread]
    push Not at hblank
    exact hblank.imp fun b hb => ⟨hb.1, Bool.eq_true_of_not_eq_false hb.2⟩
  obtain ⟨last, hlast⟩ : ∃ last, (chr '"' :: text).getLast? = some last :=
    ⟨_, getLast?_eq_some_getLast (cons_ne_nil _ _)⟩
  have hlen := scanWord_cut 0 hcut (endsIn_append _ hlast) le_rfl
  rw [replicate_zero, append_nil, Nat.add_zero, hread] at hlen
  intro heq
  rw [Option.some.inj heq] at hlen
  exact lt_irrefl _ hlen

/-- **The last word**, with copies of the line's last byte behind it. -/
theorem scanArgs_last_iff (room k : ℕ) (hkept : Kept w.quoted w.bytes)
    (hlast : w.printed.getLast? = some last) :
    scanArgs (room + 2) (w.printed ++ replicate k last) = [w.bytes] ↔
      (k = 0 ∧ NoEscape [w]) ∨ EndsArgument [w] := by
  have hnoesc : NoEscape [w] ↔ w.escapes = 0 := by
    rw [w.escapes_eq_zero_iff]
    simp [NoEscape]
  rw [hnoesc, ← Nat.add_eq_zero_iff, Word.printed, append_assoc, append_assoc, scanArgs_opened]
  cases hq : w.quoted with
  | true =>
    have hmark : w.mark = [chr '"'] := if_pos hq
    have hends : endsWord w.quoted (chr '"') = true := by rw [hq]; decide
    have hend : ¬ EndsArgument [w] := by
      rintro ⟨v, hv, hbare, -⟩
      obtain rfl : w = v := by simpa using hv
      exact absurd (hq.symm.trans hbare) (by simp)
    obtain rfl : chr '"' = last := by
      rw [Word.printed, hmark, getLast?_concat] at hlast
      exact Option.some.inj hlast
    have hin : EndsIn (chr '"') (escape w.quoted w.bytes ++ [chr '"']) := endsIn_append _ rfl
    have hscan := scanWord_inside k (w.read_inside hends []) hkept hin le_rfl
    rw [append_assoc, hq, nil_append] at hscan
    rw [hmark, ← append_assoc, length_append, length_replicate, append_assoc, hscan]
    -- Each copy is a quote that opens one more argument.
    have hcopies : scanArgs (room + 1) (replicate (k + w.escapes) (chr '"')) = [] ↔
        k + w.escapes = 0 := by
      rw [scanArgs_eq_nil_iff, dropWhile_eq_nil_iff]
      cases k + w.escapes with
      | zero => simp
      | succ n =>
        refine iff_of_false (fun h => ?_) (Nat.succ_ne_zero n)
        exact absurd (h (chr '"') mem_cons_self) (by decide)
    simp [argsFrom, hcopies, hend]
  | false =>
    have hmark : w.mark = [] := if_neg (by simp [hq])
    rw [Word.printed, hmark, nil_append, append_nil, getLast?_escape] at hlast
    have hend : EndsArgument [w] ↔ stops false last = true := by
      simp [EndsArgument, hq, hlast, stops, endsWord]
    have hin : EndsIn last (escape w.quoted w.bytes) := by
      rw [EndsIn, getLast?_escape]
      exact endsIn_append [] hlast
    have hscan := scanWord_last k w.read_last hkept hin le_rfl
    rw [hq] at hscan
    rw [hmark, nil_append, length_append, length_replicate, hscan, hend]
    cases hstops : stops false last with
    | false => simp [argsFrom]
    | true =>
      -- The copies are blanks, or stand behind a `;`.
      have hcopies : isBlank last = true → ∀ m,
          scanArgs (room + 1) (replicate m last) = [] := by
        intro hblank m
        rw [scanArgs_eq_nil_iff, dropWhile_eq_nil_iff]
        intro b hb
        rw [eq_of_mem_replicate hb, hblank]
      refine iff_of_true ?_ (.inr rfl)
      rw [if_pos rfl, argsFrom]
      cases k + w.escapes with
      | zero => rfl
      | succ m =>
        by_cases hsemi : last = chr ';'
        · simp [replicate_succ, hsemi]
        · have hblank : isBlank last = true := by
            simpa [stops, endsWord, hsemi] using hstops
          simp [replicate_succ, hsemi, hcopies hblank]

/-! ## Whole lines -/

theorem Word.printed_ne_nil (w : Word) : w.printed ≠ [] := by
  obtain ⟨c, bytes, hbytes⟩ := exists_cons_of_ne_nil w.ne_nil
  have hc : escapeByte w.quoted c ≠ [] := fun h => by
    have := getLast?_escapeByte w.quoted c
    simp [h] at this
  simp [Word.printed, hbytes, escape_cons, hc]

theorem printLine_cons_cons (sep : Blank) (w v : Word) (ws : List Word) :
    printLine sep (w :: v :: ws) = w.printed ++ sep.1 :: printLine sep (v :: ws) := rfl

theorem printLine_ne_nil (sep : Blank) (h : ws ≠ []) : printLine sep ws ≠ [] := by
  match ws, h with
  | [w], _ => exact w.printed_ne_nil
  | w :: v :: ws, _ => simp [printLine]

theorem Word.printed_ne_nul (w : Word) : 0 ∉ w.printed := by
  have hmark : 0 ∉ w.mark := by
    rw [Word.mark]
    split_ifs <;> decide
  have hescape : 0 ∉ escape w.quoted w.bytes := by
    rw [escape, mem_flatMap]
    rintro ⟨c, hc, hmem⟩
    have hc0 : 0 ≠ c := fun h => w.ne_nul (h ▸ hc)
    have hback : 0 ≠ chr '\\' := by decide
    rw [escapeByte] at hmem
    split_ifs at hmem
    · rcases mem_cons.mp hmem with h | h
      · exact hback h
      · exact hc0 (mem_singleton.mp h)
    · exact hc0 (mem_singleton.mp hmem)
  simp only [Word.printed, mem_append, hmark, hescape, or_self, not_false_eq_true]

theorem printLine_ne_nul (sep : Blank) (ws : List Word) : 0 ∉ printLine sep ws := by
  match ws with
  | [] => simp [printLine]
  | [w] => exact w.printed_ne_nul
  | w :: v :: ws =>
    have hsep : 0 ≠ sep.1 := fun h => absurd sep.2 (by rw [← h]; decide)
    have hrest := printLine_ne_nul sep (v :: ws)
    rw [printLine_cons_cons, mem_append, mem_cons]
    rintro (h | h | h)
    exacts [w.printed_ne_nul h, hsep h, hrest h]

/-- **A printed line**, with copies of its last byte behind it. -/
theorem scanArgs_printLine_iff (sep : Blank) (hne : ws ≠ []) {n : ℕ} (hn : ws.length < n) (k : ℕ)
    (hlast : (printLine sep ws).getLast? = some last) :
    scanArgs n (printLine sep ws ++ replicate k last) = ws.map Word.bytes ↔
      QuotesNoBlank ws ∧ ((k = 0 ∧ NoEscape ws) ∨ EndsArgument ws) := by
  induction ws generalizing n k with
  | nil => exact absurd rfl hne
  | cons w ws ih =>
    by_cases hkept : w.quoted = true → ∀ b ∈ w.bytes, isBlank b = false
    · cases ws with
      | nil =>
        obtain ⟨room, rfl⟩ : ∃ room, n = room + 2 := ⟨n - 2, by simp at hn; omega⟩
        have hkept' : QuotesNoBlank [w] := by simpa [QuotesNoBlank] using hkept
        rw [and_iff_right hkept']
        exact scanArgs_last_iff room k hkept hlast
      | cons v ws =>
        obtain ⟨room, rfl⟩ : ∃ room, n = room + 1 := ⟨n - 1, by simp at hn; omega⟩
        obtain ⟨d, hd⟩ : ∃ d, (printLine sep (v :: ws)).getLast? = some d :=
          ⟨_, getLast?_eq_some_getLast (printLine_ne_nil sep (cons_ne_nil v ws))⟩
        obtain rfl : d = last := by
          rw [printLine_cons_cons, getLast?_append, getLast?_cons, hd] at hlast
          exact Option.some.inj hlast
        have hrest : (printLine sep (v :: ws) ++ replicate k d).getLast? = some d := by
          rw [getLast?_append, hd, getLast?_replicate]
          split_ifs <;> rfl
        have hread := ih (cons_ne_nil v ws) (Nat.lt_of_succ_lt_succ hn) (k + w.escapes) hd
        rw [printLine_cons_cons, append_assoc, cons_append, scanArgs_followed room sep hkept hrest,
          append_assoc, ← replicate_add, map_cons, cons_inj_right, hread, Nat.add_eq_zero_iff,
          w.escapes_eq_zero_iff]
        simp only [QuotesNoBlank, NoEscape, EndsArgument, forall_mem_cons,
          getLast?_cons_cons, and_iff_right hkept, and_assoc]
    · obtain ⟨hq, hcut⟩ := Classical.not_imp.mp hkept
      obtain ⟨room, rfl⟩ : ∃ room, n = room + 1 := ⟨n - 1, by omega⟩
      obtain ⟨text, htext⟩ : ∃ text, printLine sep (w :: ws) ++ replicate k last =
          w.printed ++ text := by
        cases ws with
        | nil => exact ⟨_, rfl⟩
        | cons v ws => exact ⟨_, by rw [printLine_cons_cons, append_assoc]⟩
      refine iff_of_false (fun h => ?_) fun h => hkept (h.1 w mem_cons_self)
      exact scanArgs_cut room hq hcut text (by rw [← htext, h]; rfl)

/-- **The quoting law.** Words printed bare or between quotes and joined by blanks come back from
`cli_parse_line` exactly when no quoted word has a blank, and the line has no escape or ends in an
escaped byte that would end an argument. -/
theorem quoting_law_iff (sep : Blank) (ws : List Word) (hne : ws ≠ [])
    (hn : ws.length ≤ cmdMaxArgv - 1) :
    cliParseLine (printLine sep ws ++ [0]) = some (ws.map Word.bytes) ↔
      QuotesNoBlank ws ∧ (NoEscape ws ∨ EndsArgument ws) := by
  have hlast := getLast?_eq_some_getLast (printLine_ne_nil sep hne)
  have hn : ws.length < cmdMaxArgv := Nat.lt_succ_of_le hn
  have hiff := scanArgs_printLine_iff sep hne hn 0 hlast
  rw [replicate_zero, append_nil] at hiff
  rw [cliParseLine_eq (printLine_ne_nul sep ws), Option.some_inj, hiff, and_iff_right rfl]

/-- The words `ls`, `-a`, the first between quotes. -/
theorem quoting_law_plain :
    let ws : List Word := [⟨[chr 'l', chr 's'], true, by decide, by decide⟩,
      ⟨[chr '-', chr 'a'], false, by decide, by decide⟩]
    QuotesNoBlank ws ∧ NoEscape ws ∧
      cliParseLine (printLine ⟨chr ' ', by decide⟩ ws ++ [0]) = some (ws.map Word.bytes) := by
  intro ws
  have hquotes : QuotesNoBlank ws := by decide
  have hescape : NoEscape ws := by decide
  exact ⟨hquotes, hescape,
    (quoting_law_iff _ _ (cons_ne_nil _ _) (by decide)).mpr ⟨hquotes, .inl hescape⟩⟩

/-- The word `a b` is printed as `a\ b` and read as `a bb`; between quotes it is read as two. -/
theorem quoting_law_fails :
    let word := [chr 'a', chr ' ', chr 'b']
    let sep : Blank := ⟨chr ' ', by decide⟩
    cliParseLine (printLine sep [⟨word, false, by decide, by decide⟩] ++ [0]) =
        some [word ++ [chr 'b']] ∧
      cliParseLine (printLine sep [⟨word, true, by decide, by decide⟩] ++ [0]) =
        some [[chr 'a'], [chr 'b', chr '"']] := by
  decide +kernel

end WiseSdk.Cli
