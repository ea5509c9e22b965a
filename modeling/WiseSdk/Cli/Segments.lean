import Mathlib.Data.List.TakeWhile
import WiseSdk.Cli.RunCommand
import WiseSdk.Cli.Words

/-!
# One command for each segment

A command line is made of segments, separated by `;` where it is neither quoted nor escaped, and a
segment of arguments, separated by blanks, bare or between quotes.  `tokens` reads a line that way,
and `calls` is what should be run: one command for each segment that has arguments.

`cli_run_command` differs from it in four ways.

* Where no bare argument stands right in front of a `;`, the parser reads an empty argument there.
  So an empty segment is run as a command with an empty name, and a blank or a closing quote in
  front of a `;` adds an empty argument.
* A blank ends an argument between quotes.
* Removing an escape leaves one more copy of the last byte of the line at its end (`shifted`).
* The arguments beyond the room in `argv` are run as another command, after a NULL was written
  behind the array.

A line with none of these is run as it should be (`one_command_per_segment`).
-/

namespace WiseSdk.Cli

open Library List

/-! ## Reading a line -/

/-- What stands behind an argument. -/
inductive Ending where
  | blank
  | quote
  | semicolon
  | line
  deriving DecidableEq, Repr

structure Arg where
  word : List Byte
  quoted : Bool
  escapes : ℕ
  ending : Ending
  deriving DecidableEq, Repr

/-- An argument, or a `;` with no bare argument right in front of it. -/
inductive Token where
  | arg (a : Arg)
  | semicolon
  deriving DecidableEq, Repr

def endingOf (quoted : Bool) : List Byte → Ending
  | [] => .line
  | c :: _ => if quoted then .quote else if c = chr ';' then .semicolon else .blank

def tokensUpTo : ℕ → List Byte → List Token
  | 0, _ => []
  | n + 1, text =>
    match text.dropWhile isBlank with
    | [] => []
    | c :: text =>
      if c = chr ';' then .semicolon :: tokensUpTo n text
      else
        let quoted := c == chr '"'
        let out := readWord quoted (if quoted then text else c :: text)
        .arg ⟨out.1, quoted, out.2.2, endingOf quoted out.2.1⟩ :: tokensUpTo n out.2.1.tail

def tokens (line : List Byte) : List Token := tokensUpTo line.length line

def flush (args : Args) : List Args := if args = [] then [] else [args]

/-- The commands of some tokens, with the arguments that the segment has already. -/
def calls : List Token → Args → List Args
  | [], args => flush args
  | .semicolon :: rest, args => flush args ++ calls rest []
  | .arg a :: rest, args =>
    if a.ending = .semicolon then (args ++ [a.word]) :: calls rest []
    else calls rest (args ++ [a.word])

/-- Commands run in order up to the first that does not succeed: the last result, and the calls. -/
def perform (process : List Args → Args → ℤ) : List Args → List Args → ℤ × List Args
  | done, [] => (0, done)
  | done, args :: rest =>
    let ret := process done args
    if ret = 0 then perform process (done ++ [args]) rest else (ret, done ++ [args])

/-- **One command for each segment**: the calls of `cli_process_cmd` are the commands of the
segments in order, up to the first that does not succeed. -/
def OnePerSegment (limit : ℕ) (line : List Byte) : Prop :=
  ∀ process, (cliRunCommand limit process line).map Prod.snd =
    some (perform process [] (calls (tokens line) [])).2

/-- The tokens are run as they should be, behind `n` arguments and with `k` copies of the last byte
behind them: each `;` has a bare argument right in front of it, no quoted argument has a blank,
there is room for the arguments, and the copies are none, or blanks, or one that ends the last
argument. -/
def CleanFrom (last : Byte) : ℕ → ℕ → List Token → Prop
  | k, _, [] => k = 0 ∨ isBlank last = true
  | _, _, .semicolon :: _ => False
  | k, n, .arg a :: ts =>
    Kept a.quoted a.word ∧ n + 1 < cmdMaxArgv ∧
      if a.ending = .line then
        k + a.escapes = 0 ∨ isBlank last = true ∨ (k + a.escapes = 1 ∧ stops a.quoted last = true)
      else CleanFrom last (k + a.escapes) (if a.ending = .semicolon then 0 else n + 1) ts

def Clean (line : List Byte) : Prop := CleanFrom (line.getLastD 0) 0 0 (tokens line)

/-! ## The loop along the tokens -/

variable (process : List Args → Args → ℤ)

def runThen (fuel : ℕ) (args : Args) (text : List Byte) (done : List Args)
    : Option (ℤ × List Args) :=
  let ret := process done args
  if ret = 0 then textLoop process fuel text (done ++ [args]) else some (ret, done ++ [args])

/-- The loop from the middle of a segment on, with the arguments that were read before. -/
def loopFrom (fuel : ℕ) (args : Args) (text : List Byte) (done : List Args)
    : Option (ℤ × List Args) :=
  let room := cmdMaxArgv - args.length
  let args := args ++ scanArgs room text
  if args.length = cmdMaxArgv then none
  else if args = [] then some (0, done)
  else runThen process fuel args (scanRest room text) done

theorem textLoop_succ (fuel : ℕ) (text : List Byte) (done : List Args) :
    textLoop process (fuel + 1) text done = loopFrom process fuel [] text done := rfl

section Loop

variable {process : List Args → Args → ℤ} {fuel n : ℕ} {args : Args} {text : List Byte}
  {done cs : List Args}

theorem textLoop_blank (h : text.dropWhile isBlank = []) :
    textLoop process (fuel + 1) text done = some (0, done) := by
  have hnone : scanArgs cmdMaxArgv text = [] := (scanArgs_eq_nil_iff _ text).mpr h
  rw [textLoop, hnone]
  rfl

theorem runThen_eq (h : ∀ done, textLoop process fuel text done = some (perform process done cs)) :
    runThen process fuel args text done = some (perform process done (args :: cs)) := by
  rw [runThen, perform, h]
  split_ifs <;> rfl

theorem loopFrom_blank (hargs : args.length < cmdMaxArgv) (h : text.dropWhile isBlank = []) :
    loopFrom process (fuel + 1) args text done = some (perform process done (flush args)) := by
  obtain ⟨room, hroom⟩ : ∃ room, cmdMaxArgv - args.length = room + 1 :=
    ⟨cmdMaxArgv - args.length - 1, by omega⟩
  have hnone : scanArgs (room + 1) text = [] := (scanArgs_eq_nil_iff room text).mpr h
  have hrest : scanRest (room + 1) text = [] := by rw [scanRest, h]
  simp only [loopFrom, hroom, hnone, hrest, append_nil, hargs.ne, if_false, flush]
  split_ifs
  · rfl
  · exact runThen_eq fun done => textLoop_blank rfl

variable {quoted : Bool} {last c d : Byte} {rest start word : List Byte} {k e : ℕ}

theorem dropWhile_blank_copies (h : text.dropWhile isBlank = [])
    (hk : k = 0 ∨ isBlank last = true) :
    (text ++ replicate k last).dropWhile isBlank = [] := by
  rw [dropWhile_append, h, isEmpty_nil, if_pos rfl, dropWhile_eq_nil_iff]
  intro b hb
  obtain ⟨hne, rfl⟩ := mem_replicate.mp hb
  exact hk.resolve_left hne

section

variable (hargs : args.length + 1 < cmdMaxArgv) (h : text.dropWhile isBlank = c :: rest)
  (hquoted : (c == chr '"') = quoted) (hstart : (if quoted then rest else c :: rest) = start)

include hargs h hquoted hstart

/-- **One more argument**, behind the blanks and an opening quote, with copies at the end of the
text. -/
theorem loopFrom_step (k : ℕ) :
    let out := scanWord quoted (start.length + k) (start ++ replicate k last)
    loopFrom process fuel args (text ++ replicate k last) done =
      match out.2 with
      | [] => runThen process fuel (args ++ [out.1]) [] done
      | d :: rest =>
        if !quoted ∧ d = chr ';' then runThen process fuel (args ++ [out.1]) rest done
        else loopFrom process fuel (args ++ [out.1]) rest done := by
  intro out
  obtain ⟨room, hroom⟩ : ∃ room, cmdMaxArgv - args.length = room + 1 :=
    ⟨cmdMaxArgv - args.length - 1, by omega⟩
  have hlen : (args ++ [out.1]).length = args.length + 1 := by simp
  have hroom' : cmdMaxArgv - (args ++ [out.1]).length = room := by omega
  have hdrop : (text ++ replicate k last).dropWhile isBlank =
      c :: (rest ++ replicate k last) := by
    rw [dropWhile_append, h]
    rfl
  have hout : scanWord quoted (if quoted then rest ++ replicate k last
      else c :: (rest ++ replicate k last)).length
      (if quoted then rest ++ replicate k last
      else c :: (rest ++ replicate k last)) = out := by
    have hbegin : (if quoted then rest ++ replicate k last
        else c :: (rest ++ replicate k last)) = start ++ replicate k last := by
      rw [← hstart]
      split_ifs <;> rfl
    rw [hbegin, length_append, length_replicate]
  have hne : args ++ [out.1] ≠ [] := by simp
  rw [loopFrom, hroom, scanArgs, scanRest, hdrop]
  simp only [hquoted, hout]
  cases out.2 with
  | nil => simp only [hlen, hargs.ne, hne, if_false]
  | cons d rest =>
    by_cases hsemi : !quoted ∧ d = chr ';'
    · simp only [hsemi, and_self, if_true, hlen, hargs.ne, hne, if_false]
    · simp only [if_neg hsemi, loopFrom, hroom', append_assoc, singleton_append]

/-- **The end of the line.** -/
theorem loopFrom_last (hread : readWord quoted start = (word, [], e)) (hkept : Kept quoted word)
    (hlast : EndsIn last start)
    (hcopies : k + e = 0 ∨ isBlank last = true ∨ (k + e = 1 ∧ stops quoted last = true)) :
    loopFrom process (fuel + 1) args (text ++ replicate k last) done =
      some (perform process done [args ++ [word]]) := by
  have hthen : ∀ {rest}, rest.dropWhile isBlank = [] →
      runThen process (fuel + 1) (args ++ [word]) rest done =
        some (perform process done [args ++ [word]]) := fun hblank =>
    runThen_eq fun done => textLoop_blank hblank
  rw [loopFrom_step hargs h hquoted hstart, scanWord_last k hread hkept hlast le_rfl]
  cases hm : k + e with
  | zero =>
    simp only [replicate_zero, append_nil, ite_self]
    exact hthen rfl
  | succ m =>
    rw [hm] at hcopies
    -- The first copy ends the argument, and the others are blanks.
    have hstops : stops quoted last = true := by
      rcases hcopies with h | h | h
      · cases h
      · simp [stops, h]
      · exact h.2
    have hblank : (replicate m last).dropWhile isBlank = [] := by
      refine dropWhile_blank_copies (k := m) dropWhile_nil ?_
      rcases hcopies with h | h | h
      · cases h
      · exact .inr h
      · exact .inl (Nat.succ.inj h.1)
    have hfull : (args ++ [word]).length < cmdMaxArgv := by simpa using hargs
    have hflush : flush (args ++ [word]) = [args ++ [word]] := if_neg (by simp)
    rw [if_pos hstops, replicate_succ]
    dsimp only
    split_ifs
    · exact hthen hblank
    · rw [loopFrom_blank hfull hblank, hflush]

end

theorem EndsIn.suffix (h : EndsIn last text) (hpart : rest <:+ text) : EndsIn last rest := by
  obtain ⟨pre, rfl⟩ := hpart
  intro b hb
  apply h
  rw [getLast?_append, hb]
  rfl

theorem readWord_suffix (quoted : Bool) (text : List Byte) :
    (readWord quoted text).2.1 <:+ text := by
  induction text using word_induction quoted with
  | nil => exact suffix_refl []
  | ends c text hc => rw [readWord_ends hc]
  | escaped c d text hc hesc ih =>
    rw [readWord_escaped hc hesc]
    exact ih.trans ((suffix_cons d text).trans (suffix_cons c _))
  | plain c text hc hesc ih =>
    rw [readWord_plain hc hesc]
    exact ih.trans (suffix_cons c text)

theorem tokensUpTo_nil (n : ℕ) : tokensUpTo n [] = [] := by
  cases n <;> rfl

theorem endingOf_eq_semicolon_iff :
    endingOf quoted (d :: rest) = .semicolon ↔ !quoted ∧ d = chr ';' := by
  cases quoted with
  | true => simp [endingOf]
  | false => by_cases hd : d = chr ';' <;> simp [endingOf, hd]

theorem endingOf_ne_line (quoted : Bool) (d : Byte) (rest : List Byte) :
    endingOf quoted (d :: rest) ≠ .line := by
  rw [endingOf]
  split_ifs <;> simp

/-- **Clean tokens are run as they should be**, from every place of the line on. -/
theorem loopFrom_clean (hn : text.length ≤ n) (hlast : EndsIn last text)
    (hargs : args.length < cmdMaxArgv) (hfuel : text.length + k < fuel)
    (hclean : CleanFrom last k args.length (tokensUpTo n text)) :
    loopFrom process fuel args (text ++ replicate k last) done =
      some (perform process done (calls (tokensUpTo n text) args)) := by
  fun_induction tokensUpTo n text generalizing args k fuel done with
  | case1 text =>
    obtain rfl := eq_nil_of_length_eq_zero (Nat.le_zero.mp hn)
    obtain ⟨fuel, rfl⟩ : ∃ f, fuel = f + 1 := ⟨fuel - 1, by omega⟩
    exact loopFrom_blank hargs (dropWhile_blank_copies rfl hclean)
  | case2 n text hblank =>
    obtain ⟨fuel, rfl⟩ : ∃ f, fuel = f + 1 := ⟨fuel - 1, by omega⟩
    exact loopFrom_blank hargs (dropWhile_blank_copies hblank hclean)
  | case3 n text rest hdrop ih => cases hclean
  | case4 n text c rest hdrop hsemi quoted =>
    rename_i out ih
    have hquoted : (c == chr '"') = quoted := rfl
    obtain ⟨start, hstart⟩ : ∃ start, (if quoted then rest else c :: rest) = start := ⟨_, rfl⟩
    have hread : readWord quoted start = out := by rw [← hstart]
    have hsuffix : start <:+ text := by
      have hcons : c :: rest <:+ text := hdrop ▸ dropWhile_suffix isBlank
      rw [← hstart]
      split_ifs
      · exact (suffix_cons c rest).trans hcons
      · exact hcons
    have hbehind := readWord_suffix quoted start
    have hlen := readWord_length quoted start
    have hle := hsuffix.length_le
    obtain ⟨hkept, hroom, hnext⟩ := hclean
    clear_value quoted out
    obtain ⟨word, behind, e⟩ := out
    rw [hread] at hbehind hlen
    dsimp only at hbehind hlen hkept hnext ih ⊢
    cases behind with
    | nil =>
      obtain ⟨fuel, rfl⟩ : ∃ f, fuel = f + 1 := ⟨fuel - 1, by omega⟩
      rw [loopFrom_last hroom hdrop hquoted hstart hread hkept (hlast.suffix hsuffix) hnext, calls,
        endingOf, if_neg nofun, tail_nil, tokensUpTo_nil, calls, flush, if_neg (by simp)]
    | cons d behind =>
      have hrest : EndsIn last behind :=
        hlast.suffix ((suffix_cons d behind).trans (hbehind.trans hsuffix))
      rw [length_cons] at hlen
      rw [if_neg (endingOf_ne_line quoted d behind)] at hnext
      rw [loopFrom_step hroom hdrop hquoted hstart,
        scanWord_inside k hread hkept (hlast.suffix hsuffix) le_rfl, calls]
      dsimp only [tail_cons] at hnext ih ⊢
      simp only [endingOf_eq_semicolon_iff] at hnext ⊢
      split_ifs at hnext ⊢ with hend
      · obtain ⟨fuel, rfl⟩ : ∃ f, fuel = f + 1 := ⟨fuel - 1, by omega⟩
        refine runThen_eq fun done => ?_
        rw [textLoop_succ]
        exact ih (by omega) hrest (by decide) (by omega) hnext
      · have hlen' : (args ++ [word]).length = args.length + 1 := by simp
        exact ih (by omega) hrest (hlen' ▸ hroom) (by omega) (hlen' ▸ hnext)

end Loop

theorem endsIn_getLastD (line : List Byte) : EndsIn (line.getLastD 0) line := by
  intro b hb
  rw [getLastD_eq_getLast?, hb]
  rfl

theorem cliRunCommand_clean {limit : ℕ} {line : List Byte} (hne : line ≠ [])
    (hlen : line.length < limit) (hnul : 0 ∉ line) (hclean : Clean line) :
    cliRunCommand limit process line = some (perform process [] (calls (tokens line) [])) := by
  have hloop : loopFrom process (line.length + 1) [] (line ++ replicate 0 _) [] = _ :=
    loopFrom_clean le_rfl (endsIn_getLastD line) (by decide) (Nat.lt_succ_self _) hclean
  rw [replicate_zero, append_nil] at hloop
  rw [cliRunCommand_eq hne hlen hnul, textLoop_succ, hloop]
  rfl

/-- **`cli_run_command` runs one command for each segment** of a clean line. -/
theorem one_command_per_segment {limit : ℕ} {line : List Byte} (hlen : line.length < limit)
    (hnul : 0 ∉ line) (hclean : Clean line) : OnePerSegment limit line := by
  intro process
  by_cases hne : line = []
  · subst hne
    rfl
  · rw [cliRunCommand_clean process hne hlen hnul hclean]
    rfl

def twoCommands : List Byte := ['a', ';', 'b', ' ', 'c'].map chr

def spacedCommands : List Byte := ['a', ' ', ';', ' ', 'b'].map chr

theorem one_command_per_segment_two : Clean twoCommands ∧ OnePerSegment 16 twoCommands := by
  have htokens : tokens twoCommands = [.arg ⟨[chr 'a'], false, 0, .semicolon⟩,
      .arg ⟨[chr 'b'], false, 0, .blank⟩, .arg ⟨[chr 'c'], false, 0, .line⟩] := by decide +kernel
  have hclean : Clean twoCommands := by
    rw [Clean, htokens]
    exact ⟨nofun, by decide, nofun, by decide, nofun, by decide, .inl rfl⟩
  exact ⟨hclean, one_command_per_segment (by decide) (by decide) hclean⟩

/-- **The blank in front of a `;` adds an argument**: in `a ; b` the first command gets an empty
one. -/
theorem blank_before_semicolon_adds_argument :
    cliRunCommand 16 (fun _ _ => 0) spacedCommands = some (0, [[[chr 'a'], []], [[chr 'b']]]) ∧
      calls (tokens spacedCommands) [] = [[[chr 'a']], [[chr 'b']]] ∧
      ¬OnePerSegment 16 spacedCommands := by
  have hrun : cliRunCommand 16 (fun _ _ => 0) spacedCommands =
      some (0, [[[chr 'a'], []], [[chr 'b']]]) := by decide +kernel
  have hcalls : calls (tokens spacedCommands) [] = [[[chr 'a']], [[chr 'b']]] := by decide +kernel
  refine ⟨hrun, hcalls, fun h => ?_⟩
  have hone := h fun _ _ => 0
  exact absurd hone (by decide)

end WiseSdk.Cli
