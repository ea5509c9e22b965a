import WiseSdk.At.ParseLine
import WiseSdk.Cli.ParseLine

/-!
# Writes to the argument vectors

`cli_parse_line` and `at_parse_line` write the arguments of a line to `argv` and a NULL behind them.
The loops end when `argv` is full, and the NULL is then written behind the array.

How many arguments a line has is counted on its bytes: where a byte begins a word (`countWords`, and
`countArgs` for AT commands).
-/

namespace WiseSdk.Cli

open Library List

/-- The indices of `argv` that were written: those of the arguments and of the NULL. `none` was
passed over. -/
def writtenIndices (argv : List (Option (List Byte))) : List ℕ :=
  (range argv.length).filter (fun i => argv[i]?.join.isSome) ++ [argv.length]

def InBounds (size : ℕ) (argv : List (Option (List Byte))) : Prop :=
  ∀ i ∈ writtenIndices argv, i < size

theorem inBounds_iff (size : ℕ) (argv : List (Option (List Byte))) :
    InBounds size argv ↔ argv.length < size := by
  constructor
  · exact fun h => h _ (mem_append_right _ mem_cons_self)
  · intro hlen i hi
    rcases mem_append.mp hi with hi | hi
    · exact (mem_range.mp (mem_of_mem_filter hi)).trans hlen
    · exact mem_singleton.mp hi ▸ hlen

/-! ## The words of a command line -/

/-- Where a byte of a line stands: between words, in a bare word or in a quoted one. -/
inductive Place where
  | gap | bare | quoted
  deriving DecidableEq, Repr

/-- The words that begin in a text. A blank ends a word, in quotes a `"` as well; a bare `;` ends
the line. An escaped byte begins and ends nothing, and the line then has one more copy of its last
byte. -/
def countWords : Place → List Byte → ℕ
  | _, [] => 0
  | .gap, c :: text =>
    if isBlank c then countWords .gap text
    else if c = chr '"' then 1 + countWords .quoted text
    else 1 + countWords .bare (c :: text)
  | .bare, c :: text =>
    if isBlank c then countWords .gap text
    else if c = chr '\\' then countWords .bare (shifted c text).2
    else if c = chr ';' then 0
    else countWords .bare text
  | .quoted, c :: text =>
    if isBlank c then countWords .gap text
    else if c = chr '\\' ∧ (text.head? = some (chr '\\') ∨ text.head? = some (chr '"')) then
      countWords .quoted (shifted c text).2
    else if c = chr '"' then countWords .gap text
    else countWords .quoted text
termination_by place text => (text.length, if place = .gap then 1 else 0)
decreasing_by
  all_goals simp [Prod.lex_def, length_shifted]

def placeOf (inquote : Bool) : Place := if inquote then .quoted else .bare

variable {text : List Byte}

theorem countWords_scanWord (inquote : Bool) {n : ℕ} (hn : text.length ≤ n) :
    countWords (placeOf inquote) text = match (scanWord inquote n text).2 with
      | [] => 0
      | c :: rest => if !inquote ∧ c = chr ';' then 0 else countWords .gap rest := by
  have hnil : countWords (placeOf inquote) [] = 0 := by
    cases inquote <;> exact countWords.eq_1 ..
  induction n generalizing text with
  | zero =>
    obtain rfl := length_eq_zero_iff.mp (Nat.le_zero.mp hn)
    exact hnil
  | succ n ih =>
    cases text with
    | nil => exact hnil
    | cons c text =>
      have hplain := ih (Nat.le_of_succ_le_succ hn)
      have hescape := ih ((length_shifted c text).trans_le (Nat.le_of_succ_le_succ hn))
      have hsemi : isBlank c = true → c ≠ chr ';' := by
        rintro hblank rfl
        exact absurd hblank (by decide)
      rw [scanWord]
      cases inquote with
      | true =>
        simp only [placeOf, if_true] at hplain hescape ⊢
        rw [countWords]
        split_ifs with hblank hesc hquote
        · simp
        · exact hescape
        · simp
        · exact hplain
      | false =>
        simp only [placeOf, Bool.false_eq_true, if_false] at hplain hescape ⊢
        rw [countWords]
        split_ifs with hblank hesc hend
        · simp [hsemi hblank]
        · exact hescape
        · simp [hend]
        · exact hplain

theorem countWords_dropWhile (text : List Byte) :
    countWords .gap (text.dropWhile isBlank) = countWords .gap text := by
  induction text with
  | nil => rfl
  | cons c text ih =>
    rw [dropWhile_cons]
    split_ifs with hblank
    · rw [ih, countWords, if_pos hblank]
    · rfl

theorem countWords_cons {c : Byte} (hc : isBlank c = false) (text : List Byte) :
    countWords .gap (c :: text) =
      1 + countWords (placeOf (c == chr '"')) (if c == chr '"' then text else c :: text) := by
  rw [countWords, if_neg (by simp [hc])]
  by_cases hquote : c = chr '"'
  · simp [hquote, placeOf]
  · simp [hquote, placeOf]

/-- **The arguments of a line** are its words, as far as there is room. -/
theorem length_scanArgs (room : ℕ) (text : List Byte) :
    (scanArgs room text).length = min room (countWords .gap text) := by
  induction room generalizing text with
  | zero => simp [scanArgs]
  | succ room ih =>
    have hhead := head?_dropWhile_not isBlank text
    rw [scanArgs, ← countWords_dropWhile]
    cases htext : text.dropWhile isBlank with
    | nil => simp [countWords]
    | cons c text =>
      rw [htext, head?_cons] at hhead
      rw [countWords_cons hhead]
      dsimp only
      generalize (c == chr '"') = inquote
      generalize (if inquote then text else c :: text) = start
      rw [countWords_scanWord inquote le_rfl]
      cases (scanWord inquote start.length start).2 with
      | nil => simp
      | cons d rest =>
        dsimp only
        split_ifs with hsemi
        · simp
        · rw [length_cons, ih]
          omega

/-! ## The arguments of an AT command -/

/-- The arguments that begin in a text: at a byte that is not blank, at the start or behind a blank
or a comma. -/
def countArgs (fresh : Bool) : List Byte → ℕ
  | [] => 0
  | c :: text => (if fresh && !At.isblank c then 1 else 0) +
      countArgs (At.isblank c || c == chr ',') text

theorem countArgs_false (h : 0 ∉ text) :
    countArgs false text = match text.dropWhile At.inArg with
      | [] => 0
      | _ :: rest => countArgs true rest := by
  induction text with
  | nil => rfl
  | cons c text ih =>
    have hc : c ≠ 0 := fun hc => h (hc ▸ mem_cons_self)
    have harg : At.inArg c = !(At.isblank c || c == chr ',') := by
      rw [At.inArg, bne_iff_ne.mpr hc, Bool.true_and, Bool.not_or]
      rfl
    rw [countArgs, dropWhile_cons, harg]
    cases At.isblank c || c == chr ',' with
    | true => simp
    | false => simpa using ih fun hmem => h (mem_cons_of_mem _ hmem)

theorem countArgs_dropWhile (text : List Byte) :
    countArgs true (text.dropWhile At.isblank) = countArgs true text := by
  induction text with
  | nil => rfl
  | cons c text ih =>
    rw [dropWhile_cons]
    split_ifs with hblank
    · rw [ih, countArgs]
      simp [hblank]
    · rfl

theorem length_tokens (room : ℕ) (h : 0 ∉ text) :
    (At.tokens room text).length = min room (countArgs true text) := by
  induction room generalizing text with
  | zero => simp [At.tokens]
  | succ room ih =>
    have hhead := head?_dropWhile_not At.isblank text
    have hnul : 0 ∉ text.dropWhile At.isblank := fun hmem => h (dropWhile_subset _ hmem)
    rw [At.tokens, ← countArgs_dropWhile]
    cases htext : text.dropWhile At.isblank with
    | nil => simp [countArgs]
    | cons c text =>
      rw [htext] at hhead hnul
      have hcount : countArgs true (c :: text) = 1 + countArgs false (c :: text) := by
        simp only [head?_cons] at hhead
        simp [countArgs, hhead]
      rw [hcount, countArgs_false hnul]
      dsimp only
      cases hrest : (c :: text).dropWhile At.inArg with
      | nil => simp
      | cons d rest =>
        have hrest' : 0 ∉ rest := fun hmem =>
          hnul (dropWhile_subset At.inArg (hrest ▸ mem_cons_of_mem d hmem))
        simp only [length_cons, ih hrest']
        omega

/-- The arguments of a line from its `AT+` on: those for the interfaces and those of the text behind
them. -/
def atArgs (dual : Bool) (line : List Byte) : ℕ :=
  (At.interfaces dual line).1.length + countArgs true (At.argText dual line)

theorem argText_ne_nul {line : List Byte} (dual : Bool) (h : 0 ∉ line) :
    0 ∉ At.argText dual line :=
  At.typeText_ne_nul fun hmem => h (mem_of_mem_drop hmem)

theorem length_interfaces_le (dual : Bool) (line : List Byte) :
    (At.interfaces dual line).1.length ≤ 2 := by
  simp only [At.interfaces]
  cases (strstr line At.wl0Text).isSome <;> cases dual && (strstr line At.wl1Text).isSome <;> simp

theorem argCount_lt_iff (dual : Bool) {line : List Byte} (h : 0 ∉ line) :
    At.argCount dual line < At.atMaxArgv ↔
      ∀ i, strstr line At.atText = some i → atArgs dual (line.drop i) < At.atMaxArgv := by
  rw [At.argCount]
  cases strstr line At.atText with
  | none =>
    refine iff_of_true ?_ (by simp)
    dsimp only
    split_ifs <;> decide
  | some i =>
    have hdrop : 0 ∉ line.drop i := fun hmem => h (mem_of_mem_drop hmem)
    have hfirst := length_interfaces_le dual (line.drop i)
    simp only [Option.some.injEq, forall_eq', atArgs, length_tokens _ (argText_ne_nul dual hdrop),
      At.atMaxArgv]
    omega

/-! ## Bounds -/

/-- `cli_parse_line` stays in the array of `cli_run_command`. -/
def CliInBounds (line : List Byte) : Prop :=
  ∃ argv, cliParseLine (line ++ [0]) = some argv ∧ InBounds cmdMaxArgv (argv.map some)

/-- `at_parse_line` stays in the array of its callers. -/
def AtInBounds (dual : Bool) (type : At.AtCat) (line : List Byte) : Prop :=
  ∃ argv type', At.atParseLine dual type (line ++ [0]) = some (argv, type') ∧
    InBounds At.atMaxArgv argv

/-- **The argument vectors are not overrun** exactly by lines with fewer words than they have
elements. -/
theorem argv_in_bounds_iff (dual : Bool) (type : At.AtCat) {line atLine : List Byte}
    (hline : 0 ∉ line) (hatLine : 0 ∉ atLine) :
    CliInBounds line ∧ AtInBounds dual type atLine ↔
      countWords .gap line < cmdMaxArgv ∧
        ∀ i, strstr atLine At.atText = some i → atArgs dual (atLine.drop i) < At.atMaxArgv := by
  refine and_congr ?_ ?_
  · simp only [CliInBounds, cliParseLine_eq hline, Option.some.injEq, exists_eq_left',
      inBounds_iff, length_map, length_scanArgs]
    omega
  · obtain ⟨argv, type', hparse, hlen⟩ := At.exists_atParseLine dual type hatLine
    rw [← argCount_lt_iff dual hatLine]
    constructor
    · rintro ⟨argv', type'', hparse', hbounds⟩
      cases hparse.symm.trans hparse'
      rwa [inBounds_iff, hlen] at hbounds
    · intro hlt
      exact ⟨argv, type', hparse, (inBounds_iff _ _).mpr (hlen ▸ hlt)⟩

def manyArgs (n : ℕ) : List Byte := (replicate n [chr 'a', chr ' ']).flatten

theorem argv_in_bounds_31 :
    CliInBounds (manyArgs 31) ∧ AtInBounds false .exe (At.atText ++ manyArgs 30) := by
  have hwords : (scanArgs cmdMaxArgv (manyArgs 31)).length = 31 := by decide +kernel
  have hargs : At.argCount false (At.atText ++ manyArgs 30) < At.atMaxArgv := by decide +kernel
  rw [length_scanArgs, cmdMaxArgv] at hwords
  exact (argv_in_bounds_iff false .exe (by decide) (by decide)).mpr
    ⟨by rw [cmdMaxArgv]; omega, (argCount_lt_iff false (by decide)).mp hargs⟩

/-- With 32 arguments, the interface being one of an AT command, the NULL goes to `argv[32]`. -/
theorem argv_overrun :
    (∃ argv, cliParseLine (manyArgs 32 ++ [0]) = some argv ∧
        cmdMaxArgv ∈ writtenIndices (argv.map some)) ∧ (∃ argv type,
        At.atParseLine false .exe (At.atText ++ manyArgs 31 ++ [0]) = some (argv, type) ∧
          At.atMaxArgv ∈ writtenIndices argv) := by
  refine ⟨⟨_, cliParseLine_eq (by decide), ?_⟩, ?_⟩
  · decide +kernel
  · have hnul : 0 ∉ At.atText ++ manyArgs 31 := by decide
    obtain ⟨argv, type, hparse, hlen⟩ := At.exists_atParseLine false .exe hnul
    have hcount : At.argCount false (At.atText ++ manyArgs 31) = At.atMaxArgv := by decide +kernel
    refine ⟨argv, type, hparse, mem_append_right _ ?_⟩
    rw [hlen, hcount]
    exact mem_cons_self

end WiseSdk.Cli
