import Mathlib.Data.List.TakeWhile
import WiseSdk.At.ParseLine

/-!
# AT set commands

A set command is a name and a list of arguments, sent as `AT+name=a1,...,an` or with the interface
as `AT+WL0+name=a1,...,an`.  The class and the interface are searched for in the whole line, so the
command is read right exactly when the arguments have no `?`, no `WL0+` and, where there are two
interfaces, no `WL1+`.
-/

namespace WiseSdk.At

open Library List

/-! ## Commands and lines -/

def isAlnum (c : Byte) : Bool :=
  (chr '0' ≤ c && c ≤ chr '9') || (chr 'A' ≤ c && c ≤ chr 'Z') || (chr 'a' ≤ c && c ≤ chr 'z')

/-- An argument: not empty, without NUL, blanks and commas. -/
structure Argument where
  bytes : List Byte
  ne_nil : bytes ≠ []
  plain : ∀ b ∈ bytes, b ≠ 0 ∧ isblank b = false ∧ b ≠ chr ','

structure SetCommand where
  name : List Byte
  args : List Argument
  alnum : ∀ b ∈ name, isAlnum b = true
  args_ne_nil : args ≠ []
  length_le : args.length ≤ atMaxArgv - 3

namespace SetCommand

variable (cmd : SetCommand)

def plusName : List Byte := chr '+' :: cmd.name

def joined : List Byte := [chr ','].intercalate (cmd.args.map Argument.bytes)

def text : List Byte := cmd.plusName ++ chr '=' :: cmd.joined

def line : List Byte := [chr 'A', chr 'T'] ++ cmd.text

def lineWl0 : List Byte := [chr 'A', chr 'T', chr '+', chr 'W', chr 'L', chr '0'] ++ cmd.text

def argv : List (List Byte) := [chr '0'] :: cmd.plusName :: cmd.args.map Argument.bytes

def ParsedFrom (dual : Bool) (line : List Byte) : Prop :=
  ∀ type, atParseLine dual type (line ++ [0]) = some (cmd.argv.map some, .set)

/-- With a set handler of that name in the table, the line makes `at_process_cmd` call it so. -/
def HandledFrom (dual : Bool) (line : List Byte) : Prop :=
  ∀ (H : Type) (run : H → List (Option (List Byte)) → ℤ) (table : List (AtCmd H)) (entry : AtCmd H)
    (h : H) (type : AtCat), atFindCmd cmd.plusName table = some entry →
    entry.handler .set = some h →
    ∃ parsed done, atParseLine dual type (line ++ [0]) = some parsed ∧
      atProcessCmd run table parsed.1 parsed.2 = some done ∧
      done.call = some (h, cmd.argv.map some)

def Understood (dual : Bool) : Prop :=
  ∀ line ∈ [cmd.line, cmd.lineWl0], cmd.ParsedFrom dual line ∧ cmd.HandledFrom dual line

def ArgsPlain (dual : Bool) : Prop :=
  ∀ a ∈ cmd.args, chr '?' ∉ a.bytes ∧ ¬wl0Text <:+: a.bytes ∧
    (dual = true → ¬wl1Text <:+: a.bytes)

end SetCommand

/-! ## Searching the line -/

theorem inArg_of_isAlnum {c : Byte} (h : isAlnum c = true) : inArg c = true := by
  revert c
  decide +kernel

theorem inArg_iff (c : Byte) : inArg c = true ↔ c ≠ 0 ∧ isblank c = false ∧ c ≠ chr ',' := by
  simp [inArg, and_assoc]

/-- A text without commas is found in a list of arguments where it is found in one of them. -/
theorem infix_intercalate_iff {s : List Byte} (hne : s ≠ []) (h : chr ',' ∉ s)
    (args : List (List Byte)) :
    s <:+: [chr ','].intercalate args ↔ ∃ a ∈ args, s <:+: a := by
  induction args with
  | nil => simp [hne]
  | cons a args ih =>
    cases args with
    | nil => simp
    | cons b args =>
      rw [intercalate_cons_cons, append_assoc, singleton_append, infix_append_cons_iff h, ih]
      simp only [exists_mem_cons_iff]

/-! ## Cutting the line -/

variable {w text : List Byte} {c d b : Byte}

section

variable (hne : w ≠ []) (h : ∀ b ∈ w, inArg b = true)

include hne h

theorem dropWhile_isblank (rest : List Byte) : (w ++ rest).dropWhile isblank = w ++ rest := by
  obtain ⟨c, w, rfl⟩ := exists_cons_of_ne_nil hne
  have hc := ((inArg_iff c).mp (h c mem_cons_self)).2.1
  rw [cons_append, dropWhile_cons_of_neg (by simp [hc])]

theorem tokens_last (room : ℕ) : tokens (room + 1) w = [w] := by
  have hblank := dropWhile_isblank hne h []
  rw [append_nil] at hblank
  obtain ⟨c, w, rfl⟩ := exists_cons_of_ne_nil hne
  rw [tokens, hblank]
  simp only [dropWhile_eq_nil_iff.mpr h, takeWhile_eq_self_iff.mpr h]

theorem tokens_followed (hd : inArg d = false) (room : ℕ) (rest : List Byte) :
    tokens (room + 1) (w ++ d :: rest) = w :: tokens room rest := by
  have hblank := dropWhile_isblank hne h (d :: rest)
  obtain ⟨c, w, rfl⟩ := exists_cons_of_ne_nil hne
  have hend : (c :: (w ++ d :: rest)).dropWhile inArg = d :: rest := by
    rw [← cons_append, dropWhile_append_of_pos h, dropWhile_cons_of_neg (by simp [hd])]
  have hword : (c :: (w ++ d :: rest)).takeWhile inArg = c :: w := by
    rw [← cons_append, takeWhile_append_of_pos h, takeWhile_cons_of_neg (by simp [hd]), append_nil]
  rw [tokens, hblank, cons_append]
  simp only [hend, hword]

end

theorem tokens_intercalate {args : List (List Byte)} (hne : args ≠ [])
    (h : ∀ a ∈ args, a ≠ [] ∧ ∀ b ∈ a, inArg b = true) {room : ℕ} (hroom : args.length ≤ room) :
    tokens room ([chr ','].intercalate args) = args := by
  induction args generalizing room with
  | nil => exact absurd rfl hne
  | cons a args ih =>
    obtain ⟨room, rfl⟩ : ∃ k, room = k + 1 := ⟨room - 1, by rw [length_cons] at hroom; omega⟩
    obtain ⟨hnil, ha⟩ := h a mem_cons_self
    cases args with
    | nil => rw [intercalate_singleton, tokens_last hnil ha]
    | cons b args =>
      rw [intercalate_cons_cons, append_assoc, singleton_append,
        tokens_followed hnil ha (by decide), ih (cons_ne_nil _ _)
          (fun a ha => h a (mem_cons_of_mem _ ha)) (Nat.le_of_succ_le_succ hroom)]

theorem length_intercalate_tokens (room : ℕ) (text : List Byte) :
    ([chr ','].intercalate (tokens room text)).length ≤ text.length := by
  induction room generalizing text with
  | zero => simp [tokens]
  | succ room ih =>
    have hdrop := (dropWhile_sublist (l := text) isblank).length_le
    rw [tokens]
    split
    · simp
    next c rest htext =>
      rw [htext] at hdrop
      have hsplit := congrArg List.length (takeWhile_append_dropWhile (p := inArg) (l := c :: rest))
      rw [length_append] at hsplit
      split
      · rw [intercalate_singleton]
        omega
      next d more hmore =>
        have hmore' := ih more
        rw [hmore, length_cons] at hsplit
        cases htok : tokens room more with
        | nil =>
          rw [intercalate_singleton]
          omega
        | cons t ts =>
          rw [htok] at hmore'
          rw [intercalate_cons_cons, length_append, length_append, length_singleton]
          omega

namespace SetCommand

variable (cmd : SetCommand)

theorem not_mem_name (hc : isAlnum c = false) : c ∉ cmd.name := fun hmem =>
  absurd (cmd.alnum c hmem) (by simp [hc])

/-- A mark that ends in `+` is found in the line where it is found before the name or in an
argument. -/
theorem mark_infix_iff (hc : c ≠ chr '=' ∧ c ≠ chr ',') (pre : List Byte) :
    [chr 'W', chr 'L', c, chr '+'] <:+: pre ++ cmd.text ↔
      [chr 'W', chr 'L', c, chr '+'] <:+: pre ++ [chr '+'] ∨
        ∃ a ∈ cmd.args, [chr 'W', chr 'L', c, chr '+'] <:+: a.bytes := by
  have heq : chr '=' ∉ [chr 'W', chr 'L', c, chr '+'] := by
    simp only [mem_cons, not_mem_nil, or_false, not_or]
    exact ⟨by decide, by decide, hc.1.symm, by decide⟩
  have hcomma : chr ',' ∉ [chr 'W', chr 'L', c, chr '+'] := by
    simp only [mem_cons, not_mem_nil, or_false, not_or]
    exact ⟨by decide, by decide, hc.2.symm, by decide⟩
  have hsplit : pre ++ cmd.text = (pre ++ [chr '+'] ++ cmd.name) ++ chr '=' :: cmd.joined := by
    simp [text, plusName]
  rw [hsplit, infix_append_cons_iff heq,
    infix_append_iff_of_getLast? (c := chr '+') rfl (cmd.not_mem_name (by decide)), joined,
    infix_intercalate_iff (cons_ne_nil _ _) hcomma]
  simp

theorem mem_joined_iff (hb : b ≠ chr ',') : b ∈ cmd.joined ↔ ∃ a ∈ cmd.args, b ∈ a.bytes := by
  rw [← singleton_infix_iff, joined,
    infix_intercalate_iff (cons_ne_nil _ _) (by simpa using hb.symm)]
  simp [singleton_infix_iff]

theorem text_ne_nul : 0 ∉ cmd.text := by
  have hplus : (0 : Byte) ≠ chr '+' := by decide
  have heq : (0 : Byte) ≠ chr '=' := by decide
  rw [text, plusName, mem_append, mem_cons, mem_cons, cmd.mem_joined_iff (by decide)]
  rintro ((h | h) | h | ⟨a, -, h⟩)
  · exact hplus h
  · exact cmd.not_mem_name (by decide) h
  · exact heq h
  · exact (a.plain 0 h).1 rfl

theorem question_mem_iff : chr '?' ∈ cmd.text ↔ ∃ a ∈ cmd.args, chr '?' ∈ a.bytes := by
  have hplus : chr '?' ≠ chr '+' := by decide
  have heq : chr '?' ≠ chr '=' := by decide
  rw [text, plusName, mem_append, mem_cons, mem_cons, cmd.mem_joined_iff (by decide)]
  simp [hplus, heq, cmd.not_mem_name (c := chr '?') (by decide)]

/-- **The class.**  Without a question mark the command is a set command, and its `=` is a blank. -/
theorem typeText_text (h : chr '?' ∉ cmd.text) :
    typeText cmd.text = (cmd.plusName ++ chr ' ' :: cmd.joined, .set) := by
  have htst : strstr cmd.text [chr '=', chr '?'] = none := by
    rw [strstr_eq_none_iff]
    exact fun hfind => h (hfind.subset (by simp))
  have hqry : strstr cmd.text [chr '?'] = none := by
    rwa [strstr_eq_none_iff, singleton_infix_iff]
  have hname : chr '=' ∉ cmd.plusName := by
    rw [plusName, mem_cons, not_or]
    exact ⟨by decide, cmd.not_mem_name (by decide)⟩
  have hset : strstr cmd.text [chr '='] = some cmd.plusName.length :=
    strstr_singleton hname cmd.joined
  rw [typeText, htst, hqry, hset, text]
  simp

theorem tokens_text :
    tokens (atMaxArgv - 1) (cmd.plusName ++ chr ' ' :: cmd.joined) =
      cmd.plusName :: cmd.args.map Argument.bytes := by
  have hname : ∀ b ∈ cmd.plusName, inArg b = true := by
    rw [plusName, forall_mem_cons]
    exact ⟨by decide, fun b hb => inArg_of_isAlnum (cmd.alnum b hb)⟩
  have hargs : ∀ a ∈ cmd.args.map Argument.bytes, a ≠ [] ∧ ∀ b ∈ a, inArg b = true := by
    rw [forall_mem_map]
    exact fun a _ => ⟨a.ne_nil, fun b hb => (inArg_iff b).mpr (a.plain b hb)⟩
  have hroom : (cmd.args.map Argument.bytes).length ≤ atMaxArgv - 2 := by
    rw [length_map]
    exact cmd.length_le.trans (by decide)
  have hne : cmd.args.map Argument.bytes ≠ [] := by simpa using cmd.args_ne_nil
  have hrest := tokens_intercalate hne hargs hroom
  exact (tokens_followed (cons_ne_nil _ _) hname (by decide) _ _).trans
    (congrArg _ hrest)

end SetCommand

theorem question_not_mem_of_set (h : (typeText text).2 = .set) : chr '?' ∉ text := by
  rw [← singleton_infix_iff, ← strstr_eq_none_iff]
  rw [typeText] at h
  split at h
  · cases h
  · split at h
    · cases h
    · assumption

/-! ## Reading the two forms -/

section Interfaces

variable {dual : Bool} {line : List Byte}

theorem interfaces_none (h0 : ¬wl0Text <:+: line) (h1 : dual = true → ¬wl1Text <:+: line) :
    interfaces dual line = ([[chr '0']], false) := by
  rw [← strstr_isSome_iff, Bool.not_eq_true] at h0
  simp only [← strstr_isSome_iff, Bool.not_eq_true] at h1
  cases dual <;> simp_all [interfaces]

theorem interfaces_wl0 (h0 : wl0Text <:+: line) (h1 : dual = true → ¬wl1Text <:+: line) :
    interfaces dual line = ([[chr '0']], true) := by
  rw [← strstr_isSome_iff] at h0
  simp only [← strstr_isSome_iff, Bool.not_eq_true] at h1
  cases dual <;> simp_all [interfaces]

theorem interfaces_both (h0 : wl0Text <:+: line) (hdual : dual = true) (h1 : wl1Text <:+: line) :
    interfaces dual line = ([[chr '0'], [chr '1']], true) := by
  rw [← strstr_isSome_iff] at h0 h1
  simp [interfaces, h0, h1, hdual]

end Interfaces

namespace SetCommand

variable (cmd : SetCommand) (dual : Bool) (type : AtCat)

theorem line_ne_nul : 0 ∉ cmd.line := by
  have hhead : (0 : Byte) ∉ [chr 'A', chr 'T'] := by decide
  rw [line, mem_append, not_or]
  exact ⟨hhead, cmd.text_ne_nul⟩

theorem lineWl0_ne_nul : 0 ∉ cmd.lineWl0 := by
  have hhead : (0 : Byte) ∉ [chr 'A', chr 'T', chr '+', chr 'W', chr 'L', chr '0'] := by decide
  rw [lineWl0, mem_append, not_or]
  exact ⟨hhead, cmd.text_ne_nul⟩

theorem wl0_infix_line_iff : wl0Text <:+: cmd.line ↔ ∃ a ∈ cmd.args, wl0Text <:+: a.bytes := by
  have hhead : ¬[chr 'W', chr 'L', chr '0', chr '+'] <:+: [chr 'A', chr 'T'] ++ [chr '+'] := by
    decide
  exact (cmd.mark_infix_iff (by decide) _).trans (or_iff_right hhead)

theorem wl1_infix_line_iff : wl1Text <:+: cmd.line ↔ ∃ a ∈ cmd.args, wl1Text <:+: a.bytes := by
  have hhead : ¬[chr 'W', chr 'L', chr '1', chr '+'] <:+: [chr 'A', chr 'T'] ++ [chr '+'] := by
    decide
  exact (cmd.mark_infix_iff (by decide) _).trans (or_iff_right hhead)

theorem wl0_infix_lineWl0 : wl0Text <:+: cmd.lineWl0 :=
  ⟨[chr 'A', chr 'T', chr '+'], cmd.name ++ chr '=' :: cmd.joined, by
    simp [lineWl0, wl0Text, text, plusName]⟩

theorem wl1_infix_lineWl0_iff :
    wl1Text <:+: cmd.lineWl0 ↔ ∃ a ∈ cmd.args, wl1Text <:+: a.bytes := by
  have hhead : ¬[chr 'W', chr 'L', chr '1', chr '+'] <:+:
      [chr 'A', chr 'T', chr '+', chr 'W', chr 'L', chr '0'] ++ [chr '+'] := by decide
  exact (cmd.mark_infix_iff (by decide) _).trans (or_iff_right hhead)

/-- What is read when the right part of the line is cut. -/
def parsedText : List (Option (List Byte)) × AtCat :=
  (([chr '0'] :: tokens (atMaxArgv - 1) (typeText cmd.text).1).map some, (typeText cmd.text).2)

theorem parsedText_eq_iff :
    cmd.parsedText = (cmd.argv.map some, .set) ↔ ∀ a ∈ cmd.args, chr '?' ∉ a.bytes := by
  have hquestion : (∀ a ∈ cmd.args, chr '?' ∉ a.bytes) ↔ chr '?' ∉ cmd.text := by
    rw [cmd.question_mem_iff]
    simp
  rw [hquestion]
  refine ⟨fun h => question_not_mem_of_set (congrArg Prod.snd h), fun h => ?_⟩
  rw [parsedText, cmd.typeText_text h, cmd.tokens_text, argv]

theorem atParseLine_line (h0 : ∀ a ∈ cmd.args, ¬wl0Text <:+: a.bytes)
    (h1 : dual = true → ∀ a ∈ cmd.args, ¬wl1Text <:+: a.bytes) :
    atParseLine dual type (cmd.line ++ [0]) = some cmd.parsedText := by
  have hfound : interfaces dual cmd.line = ([[chr '0']], false) := by
    refine interfaces_none ?_ fun hdual => ?_
    · rw [cmd.wl0_infix_line_iff]
      exact fun ⟨a, ha, hfind⟩ => h0 a ha hfind
    · rw [cmd.wl1_infix_line_iff]
      exact fun ⟨a, ha, hfind⟩ => h1 hdual a ha hfind
  have hparse := atParseLine_eq dual type cmd.line_ne_nul ⟨_, rfl⟩
  rw [hfound] at hparse
  exact hparse

theorem atParseLine_lineWl0 (h1 : dual = true → ∀ a ∈ cmd.args, ¬wl1Text <:+: a.bytes) :
    atParseLine dual type (cmd.lineWl0 ++ [0]) = some cmd.parsedText := by
  have hfound : interfaces dual cmd.lineWl0 = ([[chr '0']], true) := by
    refine interfaces_wl0 cmd.wl0_infix_lineWl0 fun hdual => ?_
    rw [cmd.wl1_infix_lineWl0_iff]
    exact fun ⟨a, ha, hfind⟩ => h1 hdual a ha hfind
  have hparse := atParseLine_eq dual type cmd.lineWl0_ne_nul ⟨_, rfl⟩
  rw [hfound] at hparse
  exact hparse

variable {cmd dual}

/-- With `WL1+` in an argument the second element of `argv` is an interface. -/
theorem no_wl1_of_parsed (h : cmd.ParsedFrom dual cmd.lineWl0) (hdual : dual = true) :
    ∀ a ∈ cmd.args, ¬wl1Text <:+: a.bytes := by
  intro a ha hfind
  have hfound := interfaces_both cmd.wl0_infix_lineWl0 hdual
    (cmd.wl1_infix_lineWl0_iff.mpr ⟨a, ha, hfind⟩)
  have hparse := (atParseLine_eq dual .exe cmd.lineWl0_ne_nul ⟨_, rfl⟩).symm.trans (h .exe)
  rw [hfound] at hparse
  have hargv : [chr '0'] :: [chr '1'] :: _ = cmd.argv :=
    (map_injective_iff.mpr (Option.some_injective _)) (Prod.mk.inj (Option.some.inj hparse)).1
  have hname : [chr '1'] = cmd.plusName := (cons.inj (cons.inj hargv).2).1
  exact absurd (cons.inj hname).1 (by decide)

/-- With `WL0+` in an argument four bytes of the command are skipped. -/
theorem no_wl0_of_parsed (h : cmd.ParsedFrom dual cmd.line)
    (h1 : dual = true → ∀ a ∈ cmd.args, ¬wl1Text <:+: a.bytes) :
    ∀ a ∈ cmd.args, ¬wl0Text <:+: a.bytes := by
  intro a ha hfind
  have hfound : interfaces dual cmd.line = ([[chr '0']], true) := by
    refine interfaces_wl0 (cmd.wl0_infix_line_iff.mpr ⟨a, ha, hfind⟩) fun hdual => ?_
    rw [cmd.wl1_infix_line_iff]
    exact fun ⟨a, ha, hfind⟩ => h1 hdual a ha hfind
  have hparse := (atParseLine_eq dual .exe cmd.line_ne_nul ⟨_, rfl⟩).symm.trans (h .exe)
  rw [hfound] at hparse
  have hargv : [chr '0'] :: tokens (atMaxArgv - 1) (typeText (cmd.line.drop 6)).1 = cmd.argv :=
    (map_injective_iff.mpr (Option.some_injective _)) (Prod.mk.inj (Option.some.inj hparse)).1
  have hlen := length_intercalate_tokens (atMaxArgv - 1) (typeText (cmd.line.drop 6)).1
  have hjoined : [chr ','].intercalate (cmd.plusName :: cmd.args.map Argument.bytes) =
      cmd.plusName ++ [chr ','] ++ cmd.joined := by
    obtain ⟨b, args, hargs⟩ := exists_cons_of_ne_nil cmd.args_ne_nil
    rw [joined, hargs, map_cons, intercalate_cons_cons]
  rw [(cons.inj hargv).2, hjoined, length_typeText, length_drop, line, text] at hlen
  simp only [length_append, length_cons, length_nil] at hlen
  omega

theorem handled_of_parsed {line : List Byte} (h : cmd.ParsedFrom dual line) :
    cmd.HandledFrom dual line := by
  intro H run table entry f type hentry hf
  exact ⟨_, _, h type, atProcessCmd_set run rfl hentry hf, rfl⟩

variable (cmd dual)

/-- **Set commands.** Both forms of the line are read as the command, and handled by its set
handler, exactly when no argument has one of the texts that `at_parse_line` searches for. -/
theorem set_command_understood_iff : cmd.Understood dual ↔ cmd.ArgsPlain dual := by
  rw [Understood, forall_mem_cons, forall_mem_singleton]
  constructor
  · rintro ⟨⟨hline, -⟩, hwl0, -⟩
    have h1 := fun hdual => no_wl1_of_parsed hwl0 hdual
    have h0 := no_wl0_of_parsed hline h1
    have hquestion := cmd.parsedText_eq_iff.mp (Option.some.inj
      ((cmd.atParseLine_lineWl0 dual .exe h1).symm.trans (hwl0 .exe)))
    exact fun a ha => ⟨hquestion a ha, h0 a ha, fun hdual => h1 hdual a ha⟩
  · intro hplain
    have h1 : dual = true → ∀ a ∈ cmd.args, ¬wl1Text <:+: a.bytes := fun hdual a ha =>
      (hplain a ha).2.2 hdual
    have hparsed := cmd.parsedText_eq_iff.mpr fun a ha => (hplain a ha).1
    have hline : cmd.ParsedFrom dual cmd.line := fun type => by
      rw [cmd.atParseLine_line dual type (fun a ha => (hplain a ha).2.1) h1, hparsed]
    have hwl0 : cmd.ParsedFrom dual cmd.lineWl0 := fun type => by
      rw [cmd.atParseLine_lineWl0 dual type h1, hparsed]
    exact ⟨⟨hline, handled_of_parsed hline⟩, hwl0, handled_of_parsed hwl0⟩

end SetCommand

/-- `AT+CWJAP=ap,pw?` is read as a query, with `+CWJAP=ap` for the command. -/
theorem set_command_misread :
    let cmd : SetCommand :=
      { name := [chr 'C', chr 'W', chr 'J', chr 'A', chr 'P']
        args := [⟨[chr 'a', chr 'p'], by decide, by decide⟩,
          ⟨[chr 'p', chr 'w', chr '?'], by decide, by decide⟩]
        alnum := by decide
        args_ne_nil := cons_ne_nil _ _
        length_le := by decide }
    atParseLine true .exe (cmd.line ++ [0]) =
      some ([[chr '0'], cmd.plusName ++ [chr '=', chr 'a', chr 'p'], [chr 'p', chr 'w']].map some,
        .qry) := by
  decide +kernel

end WiseSdk.At
