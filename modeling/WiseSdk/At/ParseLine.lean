import WiseSdk.Library.CString

/-!
# The AT command line

`at_parse_line` of `lib/at/at.c` finds the interface and the class of a command by searching the
whole line for `WL0+`, `WL1+`, `=?`, `?` and `=`, and then cuts what is left into arguments in
place.  `at_process_cmd` looks up the command and calls the handler of its class.

The model is the code on a buffer with a cursor.  `typeText` and `tokens` are what the class search
and the cutting do, on the text alone.
-/

namespace WiseSdk.At

open Library List Option Cursor

/-! ## The code -/

inductive AtCat where
  | tst | qry | set | exe
  deriving DecidableEq, Repr

def atMaxArgv : ℕ := 32

def atCmdName : ℕ := 1

/-- An element of `argv`: never written, a literal, or a place in the line. -/
inductive Arg where
  | unset
  | lit (s : List Byte)
  | ptr (p : ℕ)
  deriving DecidableEq, Repr

/-- The string an argument points to when the line is as in `buf`. -/
def Arg.str (buf : List Byte) : Arg → Option (List Byte)
  | .unset => none
  | .lit s => some s
  | .ptr p => some (strAt buf p)

def isblank (c : Byte) : Bool := c == chr ' ' || c == chr '\t'

/-- `**s && !isblank((int)**s) && **s != ','`. -/
def inArg (c : Byte) : Bool := c != 0 && !isblank c && c != chr ','

def atText : List Byte := [chr 'A', chr 'T', chr '+']

def wl0Text : List Byte := [chr 'W', chr 'L', chr '0', chr '+']

def wl1Text : List Byte := [chr 'W', chr 'L', chr '1', chr '+']

/-- The first elements of `argv`, and whether an interface was found; `dual` is
`CONFIG_SUPPORT_DUAL_VIF`. -/
def interfaces (dual : Bool) (line : List Byte) : List (List Byte) × Bool :=
  let wl0 := (strstr line wl0Text).isSome
  let wl1 := dual && (strstr line wl1Text).isSome
  let ifound := wl0 || wl1
  ((if wl0 then [[chr '0']] else []) ++ (if wl1 then [[chr '1']] else []) ++
    if ifound then [] else [[chr '0']], ifound)

/-- The class of the command; its mark is overwritten with blanks. -/
def atType (c : Cursor) : Cursor × AtCat :=
  match strstr c.str [chr '=', chr '?'] with
  | some i => ((c.putAt i (chr ' ')).putAt (i + 1) (chr ' '), .tst)
  | none =>
    match strstr c.str [chr '?'] with
    | some i => (c.putAt i (chr ' '), .qry)
    | none =>
      match strstr c.str [chr '='] with
      | some i => (c.putAt i (chr ' '), .set)
      | none => (c, .exe)

/-- The loop over the arguments, with room for so many more in `argv`. -/
def argLoop : ℕ → Cursor → List Arg → Option (Cursor × List Arg)
  | 0, c, argv => some (c, argv)
  | room + 1, c, argv =>
    (c.skip isblank (c.buf.length + 1)).bind fun c =>
      if c.get 0 = 0 then some (c, argv)
      else
        let argv := argv ++ [.ptr c.s]
        (c.skip inArg (c.buf.length + 1)).bind fun c =>
          if c.get 0 = 0 then some (c, argv) else argLoop room (c.put 0).next argv

/-- `at_parse_line` on a line with its NUL: the arguments, read at the end, and the class, which
stays when the line is blank. -/
def atParseLine (dual : Bool) (type : AtCat) (buf : List Byte) :
    Option (List (Option (List Byte)) × AtCat) :=
  let c : Cursor := ⟨buf, 0⟩
  match strstr c.str atText with
  | none =>
    (c.skip isblank (c.buf.length + 1)).map fun c =>
      if c.get 0 = 0 then ([], type)
      else ([Arg.unset, .ptr c.s].map (Arg.str c.buf), .exe)
  | some i =>
    let c := c.add i
    let (argv, ifound) := interfaces dual c.str
    let (c, type) := atType (c.add (2 + if ifound then 4 else 0))
    (argLoop (atMaxArgv - argv.length) c (argv.map .lit)).map fun (c, argv) =>
      (argv.map (Arg.str c.buf), type)

structure AtCmd (H : Type*) where
  name : List Byte
  handler : AtCat → Option H

inductive CmdRet where
  | success | failure
  deriving DecidableEq, Repr

/-- `at_result`: `OK`, `SEND_OK` and `PROCESS_DONE` are successes. -/
def atResult (rc : ℤ) : CmdRet :=
  if rc = 0x00 ∨ rc = 0x03 ∨ rc = 0x06 then .success else .failure

section Process

variable {H : Type*}

def atFindCmd (cmd : List Byte) (table : List (AtCmd H)) : Option (AtCmd H) :=
  table.find? fun t => cmd = t.name ∧ t.name.length = cmd.length

/-- The handler that `at_process_cmd` calls and its arguments, what it returns and what it
prints. -/
structure Processed (H : Type*) where
  call : Option (H × List (Option (List Byte)))
  rc : CmdRet
  printed : String

def Processed.exit (call : Option (H × List (Option (List Byte)))) (rc : CmdRet) : Processed H :=
  ⟨call, rc, if rc = .success then "\r\nOK\r\n" else "\r\nERROR\r\n"⟩

/-- `at_process_cmd`; `run` is what the handlers return. Without a name to compare there is no
result. -/
def atProcessCmd (run : H → List (Option (List Byte)) → ℤ) (table : List (AtCmd H))
    (argv : List (Option (List Byte))) (type : AtCat) : Option (Processed H) :=
  if argv.length = 0 then some (.exit none .failure)
  else if type ≠ .set ∧ 2 < argv.length then some (.exit none .failure)
  else
    argv[atCmdName]?.join.map fun name =>
      match atFindCmd name table with
      | none => .exit none .failure
      | some cmd =>
        match cmd.handler type with
        | some h => .exit (some (h, argv)) (atResult (run h argv))
        | none => .exit none .failure

/-- A set command whose handler is in the table is handed to it, with any number of arguments. -/
theorem atProcessCmd_set (run : H → List (Option (List Byte)) → ℤ) {table : List (AtCmd H)}
    {argv : List (Option (List Byte))} {name : List Byte} {cmd : AtCmd H} {h : H}
    (hname : argv[atCmdName]? = some (some name)) (hcmd : atFindCmd name table = some cmd)
    (hset : cmd.handler .set = some h) :
    atProcessCmd run table argv .set = some (.exit (some (h, argv)) (atResult (run h argv))) := by
  have hargc : argv.length ≠ 0 := by
    obtain ⟨hlt, -⟩ := List.getElem?_eq_some_iff.mp hname
    exact Nat.ne_zero_of_lt hlt
  rw [atProcessCmd, if_neg hargc, if_neg fun hne => hne.1 rfl, hname, join_some, map_some, hcmd]
  simp only [hset]

end Process

/-! ## On the text alone -/

def typeText (text : List Byte) : List Byte × AtCat :=
  match strstr text [chr '=', chr '?'] with
  | some i => ((text.set i (chr ' ')).set (i + 1) (chr ' '), .tst)
  | none =>
    match strstr text [chr '?'] with
    | some i => (text.set i (chr ' '), .qry)
    | none =>
      match strstr text [chr '='] with
      | some i => (text.set i (chr ' '), .set)
      | none => (text, .exe)

/-- The arguments of a text, at most so many. -/
def tokens : ℕ → List Byte → List (List Byte)
  | 0, _ => []
  | room + 1, text =>
    match text.dropWhile isblank with
    | [] => []
    | c :: text =>
      match (c :: text).dropWhile inArg with
      | [] => [(c :: text).takeWhile inArg]
      | _ :: rest => (c :: text).takeWhile inArg :: tokens room rest

/-! ## The code does this -/

theorem length_typeText (text : List Byte) : (typeText text).1.length = text.length := by
  rw [typeText]
  split <;> [skip; split <;> [skip; split]] <;> simp

variable {text line rest : List Byte}

theorem typeText_ne_nul (h : 0 ∉ text) : 0 ∉ (typeText text).1 := by
  have hset {l : List Byte} (hl : 0 ∉ l) (i : ℕ) : 0 ∉ l.set i (chr ' ') := fun hmem => by
    rcases mem_or_eq_of_mem_set hmem with hmem | hmem
    · exact hl hmem
    · exact absurd hmem (by decide)
  rw [typeText]
  split <;> [skip; split <;> [skip; split]]
  exacts [hset (hset h _) _, hset h _, hset h _, h]

theorem atType_view (pre : List Byte) (post : List Byte) (h : 0 ∉ text) :
    atType (view pre text post) = (view pre (typeText text).1 post,
      (typeText text).2) := by
  rw [atType, typeText, str_view pre text post h]
  cases htst : strstr text [chr '=', chr '?'] with
  | some i =>
    have hlen := add_length_le_of_strstr htst
    rw [length_cons, length_singleton] at hlen
    simp only
    rw [putAt_view _ _ _ _ (by omega), putAt_view _ _ _ _ (by rw [length_set]; omega)]
  | none =>
    cases hqry : strstr text [chr '?'] with
    | some i => simp only [putAt_view _ _ _ _ (add_length_le_of_strstr hqry)]
    | none =>
      cases hset : strstr text [chr '='] with
      | some i => simp only [putAt_view _ _ _ _ (add_length_le_of_strstr hset)]
      | none => rfl

/-- **All arguments.** The code ends, keeps what it has passed, and reads the arguments of the
text. -/
theorem argLoop_view (room : ℕ) (pre : List Byte) (post : List Byte) (argv : List Arg)
    (h : 0 ∉ text) :
    ∃ c new, argLoop room (view pre text post) argv = some (c, argv ++ new) ∧
      pre <+: c.buf ∧ new.map (Arg.str c.buf) = (tokens room text).map some := by
  induction room generalizing pre text argv with
  | zero =>
    refine ⟨view pre text post, [], by rw [argLoop, append_nil], ?_, rfl⟩
    exact ⟨text ++ 0 :: post, by simp [view]⟩
  | succ room ih =>
    have hblank := skip_view pre text post rfl (p := isblank)
      (length_lt_view pre text post)
    have hdrop : 0 ∉ text.dropWhile isblank := fun hmem => h (dropWhile_subset _ hmem)
    rw [argLoop, hblank, bind_some, tokens]
    generalize text.takeWhile isblank = blanks at *
    cases htext : text.dropWhile isblank with
    | nil =>
      refine ⟨view (pre ++ blanks) [] post, [], by simp, ?_, rfl⟩
      exact ⟨blanks ++ 0 :: post, by simp [view]⟩
    | cons c text =>
      rw [htext] at hdrop
      have hc : c ≠ 0 := fun hc => hdrop (hc ▸ mem_cons_self)
      have hscan := skip_view (pre ++ blanks) (c :: text) post rfl (p := inArg)
        (length_lt_view (pre ++ blanks) (c :: text) post)
      have hword : 0 ∉ (c :: text).takeWhile inArg := fun hmem =>
        hdrop ((takeWhile_sublist _).subset hmem)
      have hrest : 0 ∉ (c :: text).dropWhile inArg := fun hmem =>
        hdrop (dropWhile_subset _ hmem)
      have hs : (view (pre ++ blanks) (c :: text) post).s = (pre ++ blanks).length := rfl
      simp only [get_view_zero, if_neg hc, hscan, bind_some, hs]
      generalize (c :: text).takeWhile inArg = word at *
      cases hend : (c :: text).dropWhile inArg with
      | nil =>
        refine ⟨view (pre ++ blanks ++ word) [] post, [.ptr (pre ++ blanks).length],
          by simp, ⟨blanks ++ word ++ 0 :: post, by simp [view]⟩, ?_⟩
        rw [map_singleton, Arg.str, strAt_of_passed hword ⟨post, by simp [view]⟩]
        rfl
      | cons d rest =>
        rw [hend] at hrest
        have hd : d ≠ 0 := fun hd => hrest (hd ▸ mem_cons_self)
        obtain ⟨c, new, hrun, hpassed, hnew⟩ := ih (pre ++ blanks ++ word ++ [0])
          (argv ++ [.ptr (pre ++ blanks).length]) fun hmem =>
            hrest (mem_cons_of_mem _ hmem)
        refine ⟨c, .ptr (pre ++ blanks).length :: new, ?_, ?_, ?_⟩
        · rw [get_view_zero, if_neg hd, put_view, next_view, hrun,
            append_assoc, singleton_append]
        · exact List.IsPrefix.trans ⟨blanks ++ word ++ [0], by simp⟩ hpassed
        · rw [map_cons, Arg.str, strAt_of_passed hword hpassed, hnew]
          rfl

theorem infix_of_infix_at {c : Byte} (h : [chr 'W', chr 'L', c, chr '+'] <:+: atText ++ rest) :
    [chr 'W', chr 'L', c, chr '+'] <:+: rest := by
  simp only [atText, cons_append, nil_append, infix_cons_iff, cons_prefix_cons] at h
  rcases h with ⟨h, -⟩ | ⟨h, -⟩ | ⟨h, -⟩ | h
  · exact absurd h (by decide)
  · exact absurd h (by decide)
  · exact absurd h (by decide)
  · exact h

theorem skipped_le (dual : Bool) (hat : atText <+: line) :
    (2 + if (interfaces dual line).2 then 4 else 0) ≤ line.length := by
  obtain ⟨rest, rfl⟩ := hat
  have hat : (atText ++ rest).length = 3 + rest.length := length_append
  split_ifs with hfound
  · have hlen : 4 ≤ rest.length := by
      simp only [interfaces, Bool.or_eq_true, Bool.and_eq_true, strstr_isSome_iff] at hfound
      rcases hfound with hfound | ⟨-, hfound⟩ <;> exact (infix_of_infix_at hfound).length_le
    omega
  · omega

/-- **`at_parse_line` on the text of a line** from its first `AT+` on. -/
theorem atParseLine_found (dual : Bool) (type : AtCat) (pre : List Byte) (h : 0 ∉ pre ++ line)
    (hat : atText <+: line) (hfirst : strstr (pre ++ line) atText = some pre.length) :
    let argv := (interfaces dual line).1
    let start := typeText (line.drop (2 + if (interfaces dual line).2 then 4 else 0))
    atParseLine dual type (pre ++ line ++ [0]) =
      some ((argv ++ tokens (atMaxArgv - argv.length) start.1).map some, start.2) := by
  intro argv start
  have hline : 0 ∉ line := fun hmem => h (mem_append_right pre hmem)
  have hview : (⟨pre ++ line ++ [0], 0⟩ : Cursor) = view [] (pre ++ line) [] := rfl
  have hfound : (view [] (pre ++ line) []).add pre.length = view pre line [] :=
    add_view [] line [] pre rfl
  have hstart : (view pre line []).add (2 + if (interfaces dual line).2 then 4 else 0) =
      view (pre ++ line.take (2 + if (interfaces dual line).2 then 4 else 0))
        (line.drop (2 + if (interfaces dual line).2 then 4 else 0)) [] := by
    have hadd := add_view pre (line.drop (2 + if (interfaces dual line).2 then 4 else 0)) []
      _ (length_take_of_le (skipped_le dual hat))
    rwa [take_append_drop] at hadd
  have hdrop : 0 ∉ line.drop (2 + if (interfaces dual line).2 then 4 else 0) := fun hmem =>
    hline (mem_of_mem_drop hmem)
  obtain ⟨c, new, hrun, -, hnew⟩ := argLoop_view (atMaxArgv - argv.length)
    (pre ++ line.take (2 + if (interfaces dual line).2 then 4 else 0)) [] (argv.map .lit)
    (typeText_ne_nul hdrop)
  have hlit : (argv.map Arg.lit).map (Arg.str c.buf) = argv.map some := by
    rw [List.map_map]
    rfl
  rw [atParseLine, hview, str_view [] (pre ++ line) [] h, hfirst]
  simp only [hfound, str_view pre line [] hline, hstart, atType_view _ _ hdrop]
  rw [hrun, map_some, map_append, hlit, hnew, map_append]

theorem atParseLine_eq (dual : Bool) (type : AtCat) (h : 0 ∉ line) (hat : atText <+: line) :
    let argv := (interfaces dual line).1
    let start := typeText (line.drop (2 + if (interfaces dual line).2 then 4 else 0))
    atParseLine dual type (line ++ [0]) =
      some ((argv ++ tokens (atMaxArgv - argv.length) start.1).map some, start.2) :=
  atParseLine_found dual type [] h hat ( strstr_of_prefix hat)

/-- The text that `at_parse_line` cuts into arguments, behind the interface. -/
def argText (dual : Bool) (line : List Byte) : List Byte :=
  (typeText (line.drop (2 + if (interfaces dual line).2 then 4 else 0))).1

def argCount (dual : Bool) (line : List Byte) : ℕ :=
  match strstr line atText with
  | none => if line.dropWhile isblank = [] then 0 else 2
  | some i =>
    let line := line.drop i
    let first := (interfaces dual line).1.length
    first + (tokens (atMaxArgv - first) (argText dual line)).length

/-- `at_parse_line` returns for every line, and as many arguments as its text has. -/
theorem exists_atParseLine (dual : Bool) (type : AtCat) (h : 0 ∉ line) :
    ∃ argv type', atParseLine dual type (line ++ [0]) = some (argv, type') ∧
      argv.length = argCount dual line := by
  cases hfirst : strstr line atText with
  | some i =>
    obtain ⟨pre, rest, rfl, rfl⟩ := eq_append_of_strstr hfirst
    rw [append_assoc pre] at h hfirst ⊢
    refine ⟨_, _, atParseLine_found dual type pre h (prefix_append atText rest) hfirst, ?_⟩
    simp [argCount, hfirst, argText]
  | none =>
    have hview : (⟨line ++ [0], 0⟩ : Cursor) = view [] line [] := rfl
    have hskip := skip_view [] line [] rfl (p := isblank)
      (length_lt_view [] line [])
    rw [atParseLine, hview, str_view [] line [] h, hfirst]
    simp only [hskip, map_some, argCount, hfirst]
    cases htext : line.dropWhile isblank with
    | nil =>
      rw [get_view_zero_nil, if_pos rfl, if_pos rfl]
      exact ⟨_, _, rfl, rfl⟩
    | cons c rest =>
      have hc : c ≠ 0 := by
        rintro rfl
        exact h (dropWhile_subset isblank (htext ▸ mem_cons_self))
      rw [get_view_zero, if_neg hc, if_neg (cons_ne_nil c rest)]
      exact ⟨_, _, rfl, rfl⟩

end WiseSdk.At
