import WiseSdk.Cli.ParseLine

/-!
# Running a command line

`cli_run_command` of `lib/cli/cli.c` calls `cli_parse_line` on what is left of the line and
`cli_process_cmd` with the arguments, until one does not succeed or no argument is left.

`cli_parse_line` ends the argument vector with a NULL. With `CMD_MAX_ARGV` arguments it is written
behind the vector, and the run is undefined.

`textLoop` is the run on the text alone.
-/

namespace WiseSdk.Cli

open Library List

/-- The arguments of a call of `cli_process_cmd`. -/
abbrev Args := List (List Byte)

/-- The loop of `cli_run_command`; `process done args` is what `cli_process_cmd` returns after the
calls `done`. -/
def runLoop (process : List Args → Args → ℤ) : ℕ → Cursor → List Args → Option (ℤ × List Args)
  | 0, _, _ => none
  | fuel + 1, c, done =>
    (argLoop cmdMaxArgv c []).bind fun (c, argv) =>
      if argv.length = cmdMaxArgv then none
      else if argv = [] then some (0, done)
      else
        let args := argv.map (strAt c.buf)
        let ret := process done args
        if ret = 0 then runLoop process fuel c (done ++ [args]) else some (ret, done ++ [args])

/-- `cli_run_command`: the result, and the calls of `cli_process_cmd`; `limit` is
`CMD_MAX_CMDLINE_SIZE`. -/
def cliRunCommand (limit : ℕ) (process : List Args → Args → ℤ) (line : List Byte) :
    Option (ℤ × List Args) :=
  if line = [] then some (-1, [])
  else if limit ≤ line.length then some (-1, [])
  else runLoop process (line.length + 2) ⟨line ++ [0], 0⟩ []

/-! ## On the text alone -/

def textLoop (process : List Args → Args → ℤ) :
    ℕ → List Byte → List Args → Option (ℤ × List Args)
  | 0, _, _ => none
  | fuel + 1, text, done =>
    let args := scanArgs cmdMaxArgv text
    if args.length = cmdMaxArgv then none
    else if args = [] then some (0, done)
    else
      let ret := process done args
      if ret = 0 then textLoop process fuel (scanRest cmdMaxArgv text) (done ++ [args])
      else some (ret, done ++ [args])

theorem scanRest_ne_nul (room : ℕ) {text : List Byte} (h : 0 ∉ text) : 0 ∉ scanRest room text := by
  -- An argument leaves a text without NUL behind it.
  have hleft {c d : Byte} {inquote : Bool} {text start word rest more : List Byte}
      (h : 0 ∉ text) (hdrop : text.dropWhile isBlank = c :: rest)
      (hstart : start = if inquote then rest else c :: rest)
      (hscan : scanWord inquote start.length start = (word, d :: more)) : 0 ∉ more := by
    have hrest : 0 ∉ c :: rest := hdrop ▸ fun hmem => h (dropWhile_subset _ hmem)
    have hnul : 0 ∉ start := by
      rw [hstart]
      split_ifs
      · exact fun hmem => hrest (mem_cons_of_mem _ hmem)
      · exact hrest
    have hmore := (scanWord_ne_nul inquote start.length hnul).2
    rw [hscan] at hmore
    exact fun hmem => hmore (mem_cons_of_mem _ hmem)
  fun_induction scanRest room text with
  | case1 => exact h
  | case2 | case3 => exact not_mem_nil
  | case4 room text c rest hdrop _ _ _ _ _ _ hscan => exact hleft h hdrop rfl hscan
  | case5 room text c rest hdrop _ _ _ _ _ _ hscan ih => exact ih (hleft h hdrop rfl hscan)

/-- **The loop of the code** does what the loop on the text does. -/
theorem runLoop_view (process : List Args → Args → ℤ) (fuel : ℕ) (pre : List Byte)
    {text : List Byte} (post : List Byte) (done : List Args) (h : 0 ∉ text) :
    runLoop process fuel (Cursor.view pre text post) done = textLoop process fuel text done := by
  induction fuel generalizing pre text done with
  | zero => rfl
  | succ fuel ih =>
    obtain ⟨pre', argv, hrun, -, hargs⟩ := argLoop_view cmdMaxArgv pre post [] h
    have hlen : (scanArgs cmdMaxArgv text).length = argv.length := by
      rw [← hargs, length_map]
    have hnil : scanArgs cmdMaxArgv text = [] ↔ argv = [] := by
      rw [← hargs, map_eq_nil_iff]
    rw [runLoop, hrun, Option.bind_some, textLoop]
    simp only [nil_append, hlen, hnil, hargs, ih pre' _ (scanRest_ne_nul cmdMaxArgv h)]

theorem cliRunCommand_eq {limit : ℕ} {line : List Byte} (hne : line ≠ [])
    (hlen : line.length < limit) (hnul : 0 ∉ line) (process : List Args → Args → ℤ) :
    cliRunCommand limit process line = textLoop process (line.length + 2) line [] := by
  have hview : Cursor.view [] line [] = ⟨line ++ [0], 0⟩ := rfl
  rw [cliRunCommand, if_neg hne, if_neg (Nat.not_le.mpr hlen), ← hview]
  exact runLoop_view process _ [] [] [] hnul

end WiseSdk.Cli
