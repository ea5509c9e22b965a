import WiseSdk.Cli.Segments
import WiseSdk.Library.Dyadic
import WiseSdk.Library.Runs

/-!
# The command history

`lib/cli/cli.c` keeps the last commands in `cmd_history`, a ring of `CONFIG_CLI_MAX_HISTORY`
pointers. The indices count up without end and are masked at each access; the slot behind the last
command is always freed.

Beside it stands the list of all commands with a position in it (`Commands`): the stored ones are
the latest, and the searches walk among them. The ring follows the list where its size is a power of
two, except that `history <index>` runs the stored text itself: `cli_run_command` first adds the
command once more, which may free the entry to be run, and `cli_parse_line` cuts the stored text in
place. One bare word is run as it was stored, and stays as it is.

`n` is the number of entries that can be stored, `CONFIG_CLI_MAX_HISTORY - 1`. `cmd_hindex` is an
`int`: the command after the last index is undefined.
-/

namespace WiseSdk.Cli

open Library List Function

/-! ## The code -/

/-- `hindex`: the bits of an index under the mask.  The bits of `-(i + 1)` are those of `i`,
inverted. -/
def hindex (n : ℕ) : ℤ → ℕ
  | .ofNat i => i &&& n
  | .negSucc i => n - (i &&& n)

structure History where
  cmdHistory : ℕ → Option (List Byte)
  cmdHindex : ℕ
  cmdCursor : ℕ
  /-- What the last search has returned. -/
  found : Option (List Byte)
  /-- The calls of `cli_process_cmd` for the last `history <index>`. -/
  ran : List Args

def History.init : History := ⟨fun _ => none, 0, 0, none, []⟩

def cmdOldestIndex (n : ℕ) (s : History) : ℕ := s.cmdHindex - n

def History.last (n : ℕ) (s : History) : Option (List Byte) :=
  s.cmdHistory (hindex n (s.cmdHindex - 1))

/-- `cmd_history_add`; `dup` says whether `strdup` has memory. -/
def cmdHistoryAdd (n : ℕ) (s : History) (cmd : List Byte) (dup : Bool) : Option History :=
  if s.last n = some cmd then some { s with cmdCursor := s.cmdHindex }
  else if dup = false then some s
  else if 2 ^ 31 ≤ s.cmdHindex + 1 then none
  else
    some { s with
      cmdHistory := update
        (update s.cmdHistory (hindex n s.cmdHindex) (some cmd))
        (hindex n (s.cmdHindex + 1 : ℕ)) none
      cmdHindex := s.cmdHindex + 1
      cmdCursor := s.cmdHindex + 1 }

def cmdHistorySearchBackward (n : ℕ) (s : History) : History :=
  { s with
    cmdCursor := max (s.cmdCursor - 1) (cmdOldestIndex n s)
    found := s.cmdHistory (hindex n (s.cmdCursor - 1)) }

def cmdHistorySearchForward (n : ℕ) (s : History) : Option History :=
  if s.cmdCursor = s.cmdHindex then some { s with found := none }
  else if 2 ^ 31 ≤ s.cmdCursor + 1 then none
  else
    some { s with
      cmdCursor := s.cmdCursor + 1
      found := s.cmdHistory (hindex n (s.cmdCursor + 1 : ℕ)) }

/-- The lines that `cli_run_command` does not reject. -/
def accepts (limit : ℕ) (line : List Byte) : Prop := line ≠ [] ∧ line.length < limit
deriving Decidable

/-- What a text is after `cli_parse_line` has cut it. -/
def parsedText (text : List Byte) : Option (List Byte) :=
  (argLoop cmdMaxArgv ⟨text ++ [0], 0⟩ []).map fun (c, _) => strAt c.buf 0

section

variable (process : List Args → Args → ℤ)

/-- `cli_run_command(cmd_history[hindex(i)])`: the text is added, and run from where it is stored.
Running a freed text is undefined; one whose slot was taken is no longer stored. -/
def runStored (n limit : ℕ) (s : History) (i : ℤ) (dup : Bool) : Option History :=
  match s.cmdHistory (hindex n i) with
  | none => some { s with ran := [] }
  | some text =>
    if accepts limit text then
      (cmdHistoryAdd n s text dup).bind fun s' =>
        let added := s'.cmdHindex ≠ s.cmdHindex
        if added ∧ hindex n i = hindex n (s.cmdHindex + 1 : ℕ) then none
        else
          (parsedText text).bind fun cut =>
            (cliRunCommand limit process text).map fun out =>
              { s' with
                cmdHistory :=
                  if added ∧ hindex n i = hindex n s.cmdHindex then s'.cmdHistory
                  else update s'.cmdHistory (hindex n i) (some cut)
                ran := out.2 }
    else some { s with ran := [] }

/-- A line is run, a stored command is run by `history <index>`, and the two searches. -/
inductive HistoryAct where
  | run (line : List Byte) (dup : Bool)
  | stored (i : ℤ) (dup : Bool)
  | backward
  | forward

def historyStep (n limit : ℕ) (s : History) : HistoryAct → Option History
  | .run line dup => if accepts limit line then cmdHistoryAdd n s line dup else some s
  | .stored i dup => runStored process n limit s i dup
  | .backward => some (cmdHistorySearchBackward n s)
  | .forward => cmdHistorySearchForward n s

end

/-! ## The list of commands -/

/-- The commands that were run, how many steps back the last search was and what it returned, and
what the last `history <index>` has run. -/
structure Commands where
  log : List (List Byte)
  back : ℕ
  found : Option (List Byte)
  ran : List Args

def latest (n : ℕ) (log : List (List Byte)) : List (List Byte) := log.drop (log.length - n)

/-- A command is added, unless it repeats the last one. -/
def Commands.add (n : ℕ) (c : Commands) (cmd : List Byte) : Commands :=
  if (latest n c.log).getLast? = some cmd then { c with back := 0 }
  else { c with log := c.log ++ [cmd], back := 0 }

/-- What is shown so many steps back: the `k`-th latest command. -/
def shown (n : ℕ) (log : List (List Byte)) (k : ℕ) : Option (List Byte) :=
  if k = 0 then none else (latest n log).reverse[k - 1]?

/-- The command stored under an index. Another index names the stored command of its slot, if
any. -/
def entryAt (n : ℕ) (log : List (List Byte)) (i : ℤ) : Option (List Byte) :=
  if (log.length - n : ℕ) ≤ i ∧ i < log.length then log[i.toNat]?
  else ((range log.length).find? fun j => log.length - n ≤ j ∧ hindex n j = hindex n i).bind
    (log[·]?)

/-- `history <index>` adds the stored command, and runs the commands of its text in order up to the
first that does not succeed. -/
def commandsStep (process : List Args → Args → ℤ) (n limit : ℕ) (c : Commands) :
    HistoryAct → Commands
  | .run line _ => if accepts limit line then c.add n line else c
  | .stored i _ =>
    match entryAt n c.log i with
    | none => { c with ran := [] }
    | some text =>
      if accepts limit text then
        { c.add n text with ran := (perform process [] (calls (tokens text) [])).2 }
      else { c with ran := [] }
  | .backward =>
    { c with
      back := min (c.back + 1) (latest n c.log).length
      found := shown n c.log (c.back + 1) }
  | .forward => { c with back := c.back - 1, found := shown n c.log (c.back - 1) }

/-- **The ring follows the list**: the slots hold the latest commands and nothing else. -/
structure Follows (n : ℕ) (s : History) (c : Commands) : Prop where
  index : s.cmdHindex = c.log.length
  bound : c.log.length < 2 ^ 31
  cursor : s.cmdCursor + c.back = c.log.length
  back_le : c.back ≤ n
  found : s.found = c.found
  ran : s.ran = c.ran
  slots : ∀ k text, s.cmdHistory k = some text ↔
    ∃ j : ℕ, c.log.length - n ≤ j ∧ hindex n j = k ∧ c.log[j]? = some text

section Ring

variable {n j k : ℕ} {s : History} {c : Commands}

theorem Follows.slot (h : Follows n s c) (hj : c.log.length - n ≤ j) (hlt : j < c.log.length)
    : s.cmdHistory (hindex n j) = c.log[j]? := by
  rw [getElem?_eq_getElem hlt]
  exact (h.slots _ _).mpr ⟨j, hj, rfl, getElem?_eq_getElem hlt⟩

theorem Follows.slot_eq_none (h : Follows n s c)
    (hk : ∀ j : ℕ, c.log.length - n ≤ j → j < c.log.length → hindex n j ≠ k) :
    s.cmdHistory k = none := by
  cases hslot : s.cmdHistory k with
  | none => rfl
  | some text =>
    obtain ⟨j, hj, hjk, htext⟩ := (h.slots k text).mp hslot
    exact absurd hjk (hk j hj (List.getElem?_eq_some_iff.mp htext).1)

theorem Follows.last (h : Follows n s c) : s.last n = (latest n c.log).getLast? := by
  rw [latest, getLast?_drop, History.last, h.index]
  cases hlen : c.log.length with
  | zero => exact h.slot_eq_none fun j _ hj => absurd hj (by omega)
  | succ m =>
    have hm : ((m + 1 : ℕ) : ℤ) - 1 = m := by omega
    rw [hm]
    split_ifs with hn
    · exact h.slot_eq_none fun j hj hlt => absurd hlt (by omega)
    · rw [h.slot (by omega) (by omega), getLast?_eq_getElem?, hlen, Nat.add_sub_cancel]

theorem Follows.entryAt (h : Follows n s c) (i : ℤ) :
    s.cmdHistory (hindex n i) = entryAt n c.log i := by
  rw [Cli.entryAt]
  split_ifs with hi
  · obtain ⟨j, rfl⟩ : ∃ j : ℕ, i = j := ⟨i.toNat, by omega⟩
    exact h.slot (by omega) (by omega)
  cases hfind : (range c.log.length).find? fun j =>
      c.log.length - n ≤ j ∧ hindex n j = hindex n i with
  | none =>
    refine h.slot_eq_none fun j hj hlt heq => ?_
    simpa [hj, heq] using find?_eq_none.mp hfind j (mem_range.mpr hlt)
  | some j =>
    have hj := find?_some hfind
    have hlt := mem_range.mp (mem_of_find?_eq_some hfind)
    simp only [Bool.decide_and, Bool.and_eq_true, decide_eq_true_eq] at hj
    rw [← hj.2]
    exact h.slot hj.1 hlt

/-! ## A power of two -/

section

variable (hn : PowerOfTwo (n + 1))

include hn

theorem hindex_eq_emod (i : ℤ) : (hindex n i : ℤ) = i % (n + 1 : ℕ) := by
  obtain ⟨k, hk⟩ := hn
  obtain rfl : n = 2 ^ k - 1 := by omega
  rw [hk]
  cases i with
  | ofNat i =>
    rw [hindex, Nat.and_two_pow_sub_one_eq_mod]
    rfl
  | negSucc i =>
    rw [hindex, Nat.and_two_pow_sub_one_eq_mod,
      Int.negSucc_emod i (Int.natCast_pos.mpr (Nat.two_pow_pos k)), ← Int.natCast_mod]
    omega

/-- Indices that are less than the size of the ring apart have different slots. -/
theorem hindex_ne {i j : ℤ} (hlt : i < j) (hle : j ≤ i + n) : hindex n i ≠ hindex n j := by
  intro heq
  have hmod : i % (n + 1 : ℕ) = j % (n + 1 : ℕ) := by
    rw [← hindex_eq_emod hn, ← hindex_eq_emod hn, heq]
  have hdvd : ((n + 1 : ℕ) : ℤ) ∣ j - i :=
    Int.dvd_of_emod_eq_zero (Int.emod_eq_emod_iff_emod_sub_eq_zero.mp hmod.symm)
  have hsize := Int.le_of_dvd (by omega) hdvd
  omega

theorem hindex_add_size (i : ℤ) : hindex n (i + (n + 1 : ℕ)) = hindex n i := by
  have heq : (hindex n (i + (n + 1 : ℕ)) : ℤ) = hindex n i := by
    rw [hindex_eq_emod hn, hindex_eq_emod hn, Int.add_emod_right]
  exact_mod_cast heq

/-- The new command takes the free slot, and frees that of the oldest one. -/
theorem Follows.append (h : Follows n s c) (hroom : s.cmdHindex + 1 < 2 ^ 31)
    (cmd : List Byte) :
    Follows n
      { s with
        cmdHistory := update
          (update s.cmdHistory (hindex n s.cmdHindex) (some cmd))
          (hindex n (s.cmdHindex + 1 : ℕ)) none
        cmdHindex := s.cmdHindex + 1
        cmdCursor := s.cmdHindex + 1 }
      { c with log := c.log ++ [cmd], back := 0 } := by
  refine ⟨by simp [h.index], by simpa [h.index] using hroom, by simp [h.index], Nat.zero_le n,
    h.found, h.ran, fun k text => ?_⟩
  rw [h.index, length_append, length_singleton]
  dsimp only
  have hlast {j : ℕ} (htext : (c.log ++ [cmd])[j]? = some text) : j < c.log.length + 1 := by
    simpa using (List.getElem?_eq_some_iff.mp htext).1
  by_cases hnext : k = hindex n (c.log.length + 1 : ℕ)
  · subst hnext
    rw [update_self]
    refine iff_of_false nofun ?_
    rintro ⟨j, hj, heq, htext⟩
    have hlt := hlast htext
    exact hindex_ne hn (by omega) (by omega) heq
  rw [update_of_ne hnext]
  by_cases hnew : k = hindex n c.log.length
  · subst hnew
    rw [update_self]
    constructor
    · intro heq
      cases heq
      have hpos : n ≠ 0 := by
        rintro rfl
        exact hnext (by simp [hindex])
      exact ⟨c.log.length, by omega, rfl, getElem?_concat_length⟩
    · rintro ⟨j, hj, heq, htext⟩
      have hlt := hlast htext
      obtain rfl : j = c.log.length := by
        by_contra hne
        exact hindex_ne hn (by omega) (by omega) heq
      rwa [getElem?_concat_length] at htext
  rw [update_of_ne hnew, h.slots]
  constructor
  · rintro ⟨j, hj, rfl, htext⟩
    have hlt := (List.getElem?_eq_some_iff.mp htext).1
    refine ⟨j, ?_, rfl, by rwa [getElem?_append_left hlt]⟩
    by_contra hold
    -- The oldest command has the slot that is freed.
    apply hnext
    rw [← hindex_add_size hn j]
    congr 1
    omega
  · rintro ⟨j, hj, rfl, htext⟩
    have hlt := hlast htext
    have hne : j ≠ c.log.length := fun heq => hnew (heq ▸ rfl)
    rw [getElem?_append_left (by omega)] at htext
    exact ⟨j, by omega, rfl, htext⟩

/-- Adding a command follows, if there is memory and an index for a new one. -/
theorem Follows.add (h : Follows n s c) {cmd : List Byte} {dup : Bool}
    (hroom : s.last n = some cmd ∨ dup = true ∧ s.cmdHindex + 1 < 2 ^ 31) :
    ∃ t, cmdHistoryAdd n s cmd dup = some t ∧ Follows n t (c.add n cmd) := by
  rw [cmdHistoryAdd, Commands.add, ← h.last]
  by_cases hlast : s.last n = some cmd
  · rw [if_pos hlast, if_pos hlast]
    exact ⟨_, rfl, h.index, h.bound, h.index, Nat.zero_le n, h.found, h.ran, h.slots⟩
  · obtain ⟨rfl, hindex⟩ := hroom.resolve_left hlast
    rw [if_neg hlast, if_neg hlast, if_neg nofun, if_neg (Nat.not_le.mpr hindex)]
    exact ⟨_, rfl, h.append hn hindex cmd⟩

end

theorem shown_eq (n : ℕ) (log : List (List Byte)) (k : ℕ) :
    shown n log (k + 1) = if k < n ∧ k < log.length then log[log.length - 1 - k]? else none := by
  rw [shown, if_neg (Nat.succ_ne_zero k), Nat.add_sub_cancel, latest]
  split_ifs with hk
  · rw [getElem?_reverse (by rw [length_drop]; omega), getElem?_drop, length_drop]
    congr 1
    omega
  · rw [getElem?_eq_none]
    rw [length_reverse, length_drop]
    omega

/-- **The search backward** returns the next older command, and none behind the oldest. -/
theorem Follows.backward (hn : PowerOfTwo (n + 1)) (h : Follows n s c) :
    Follows n (cmdHistorySearchBackward n s)
      { c with
        back := min (c.back + 1) (latest n c.log).length
        found := shown n c.log (c.back + 1) } := by
  have hcursor := h.cursor
  have hback := h.back_le
  have hlatest : (latest n c.log).length = min n c.log.length := by
    rw [latest, length_drop]
    omega
  refine ⟨h.index, h.bound, ?_, ?_, ?_, h.ran, h.slots⟩
  · rw [cmdHistorySearchBackward, cmdOldestIndex, h.index, hlatest]
    dsimp only
    omega
  · dsimp only
    omega
  · rw [cmdHistorySearchBackward, shown_eq]
    split_ifs with hmore
    · have hcast : (s.cmdCursor : ℤ) - 1 = (c.log.length - 1 - c.back : ℕ) := by omega
      rw [hcast]
      exact h.slot (by omega) (by omega)
    · exact h.slot_eq_none fun j hj hlt => (hindex_ne hn (by omega) (by omega)).symm

/-- **The search forward** returns the next newer command, and none behind the newest. -/
theorem Follows.forward (hn : PowerOfTwo (n + 1)) (h : Follows n s c) :
    ∃ t, cmdHistorySearchForward n s = some t ∧ Follows n t
      { c with back := c.back - 1, found := shown n c.log (c.back - 1) } := by
  have hcursor := h.cursor
  have hback := h.back_le
  have hbound := h.bound
  rw [cmdHistorySearchForward, h.index]
  by_cases hend : s.cmdCursor = c.log.length
  · have hzero : c.back = 0 := by omega
    rw [if_pos hend]
    exact ⟨_, rfl, rfl, hbound, by dsimp only; omega, by dsimp only; omega,
      by simp [hzero, shown], h.ran, h.slots⟩
  rw [if_neg hend, if_neg (by omega)]
  refine ⟨_, rfl, rfl, hbound, by dsimp only; omega, by dsimp only; omega, ?_, h.ran, h.slots⟩
  obtain ⟨k, hk⟩ : ∃ k, c.back = k + 1 := ⟨c.back - 1, by omega⟩
  dsimp only
  rw [hk, Nat.add_sub_cancel]
  cases k with
  | zero =>
    have hnew : s.cmdCursor + 1 = c.log.length := by omega
    rw [hnew]
    exact h.slot_eq_none fun j hj hlt => hindex_ne hn (by omega) (by omega)
  | succ k =>
    rw [shown_eq, if_pos (by omega), h.slot (by omega) (by omega)]
    congr 1
    omega

end Ring

/-! ## One bare word -/

/-- A text that is one argument with nothing to cut: not quoted, with no blank, `;` or escape. -/
def BareWord (text : List Byte) : Prop :=
  text.head? ≠ some (chr '"') ∧
    ∀ c ∈ text, c ≠ 0 ∧ endsWord false c = false ∧ c ≠ chr '\\'
deriving Decidable

section

variable {text : List Byte}

theorem readWord_bare (h : ∀ c ∈ text, endsWord false c = false ∧ c ≠ chr '\\') :
    readWord false text = (text, [], 0) := by
  induction text with
  | nil => rfl
  | cons c text ih =>
    obtain ⟨hends, hback⟩ := h c mem_cons_self
    rw [readWord_plain hends (by simp [escapesNext, hback]),
      ih fun d hd => h d (mem_cons_of_mem c hd)]

variable (h : BareWord text) (hne : text ≠ [])

include h

theorem BareWord.ne_nul : 0 ∉ text := fun hmem => (h.2 0 hmem).1 rfl

theorem BareWord.readWord : readWord false text = (text, [], 0) :=
  readWord_bare fun c hc => (h.2 c hc).2

theorem BareWord.dropWhile : text.dropWhile isBlank = text := by
  cases text with
  | nil => rfl
  | cons c text =>
    have hends := (h.2 c mem_cons_self).2.1
    simp only [endsWord, Bool.false_eq_true, if_false, Bool.or_eq_false_iff] at hends
    rw [dropWhile_cons_of_neg (by simp [hends.1])]

include hne

theorem BareWord.tokens : tokens text = [.arg ⟨text, false, 0, .line⟩] := by
  have hread := h.readWord
  have hdrop := h.dropWhile
  obtain ⟨c, rest, rfl⟩ := exists_cons_of_ne_nil hne
  have hsemi : c ≠ chr ';' := by
    rintro rfl
    exact absurd (h.2 _ mem_cons_self).2.1 (by decide)
  have hquote : (c == chr '"') = false := beq_false_of_ne fun hc => h.1 (hc ▸ rfl)
  rw [Cli.tokens, length_cons, tokensUpTo, hdrop]
  simp [hsemi, hquote, hread, endingOf, tokensUpTo_nil]

/-- **One bare word is run as it should be.** -/
theorem BareWord.clean : Clean text := by
  rw [Clean, h.tokens hne]
  exact ⟨fun hquoted => absurd hquoted Bool.false_ne_true, by decide, .inl rfl⟩

/-- **One bare word is left as it is**: `cli_parse_line` runs to its end. -/
theorem BareWord.parsedText : parsedText text = some text := by
  have hread := h.readWord
  have hdrop := h.dropWhile
  have hnul := h.ne_nul
  have hfuel := Cursor.length_lt_view [] text []
  have hscan := scanWord_last 0 hread nofun (endsIn_getLastD text) (Nat.le_refl _)
  have hblank := Cursor.skip_view [] text [] isBlank_zero hfuel
  have hloop := wordLoop_view false text.length [] [] le_rfl hfuel hnul
  simp only [replicate_zero, append_nil, ite_self, Nat.add_zero] at hscan
  have htake : text.takeWhile isBlank = [] := by
    simpa [hdrop] using takeWhile_append_dropWhile (p := isBlank) (l := text)
  have hview : Cursor.view [] text [] = ⟨text ++ [0], 0⟩ := rfl
  rw [hdrop, htake] at hblank
  rw [hscan] at hloop
  obtain ⟨c, rest, rfl⟩ := exists_cons_of_ne_nil hne
  have hquote : (c == chr '"') = false := beq_false_of_ne fun hc => h.1 (hc ▸ rfl)
  have hc : c ≠ 0 := (h.2 c mem_cons_self).1
  rw [Cli.parsedText, ← hview, cmdMaxArgv, argLoop, hblank]
  simp only [append_nil, Option.bind_some, Cursor.get_view_zero, if_neg hc, hquote,
    Bool.false_eq_true, if_false, hloop, wordEnd, Cursor.get_view_zero_nil, if_true,
    Option.map_some, nil_append]
  simpa [Cursor.view] using strAt_append [] hnul []

end

/-! ## Runs -/

/-- Memory and an index for a new command. -/
def HasRoom (s : History) (dup : Bool) : Prop := dup = true ∧ s.cmdHindex + 1 < 2 ^ 31
deriving Decidable

/-- There is room for a new command; and a stored one that is run is one bare word, and is not the
oldest of a full history, unless it repeats the last command. -/
def HistoryGuard (n limit : ℕ) (s : History) : HistoryAct → Prop
  | .run line dup => accepts limit line → s.last n = some line ∨ HasRoom s dup
  | .stored i dup => ∀ text ∈ s.cmdHistory (hindex n i), accepts limit text →
      BareWord text ∧ (s.last n = some text ∨
        HasRoom s dup ∧ hindex n i ≠ hindex n (s.cmdHindex + 1 : ℕ))
  | .backward => True
  | .forward => True

instance (n limit : ℕ) (s : History) : (a : HistoryAct) → Decidable (HistoryGuard n limit s a)
  | .run line dup =>
    inferInstanceAs (Decidable (accepts limit line → s.last n = some line ∨ HasRoom s dup))
  | .stored i dup =>
    inferInstanceAs (Decidable (∀ text ∈ s.cmdHistory (hindex n i), accepts limit text →
      BareWord text ∧ (s.last n = some text ∨
        HasRoom s dup ∧ hindex n i ≠ hindex n (s.cmdHindex + 1 : ℕ))))
  | .backward => inferInstanceAs (Decidable True)
  | .forward => inferInstanceAs (Decidable True)

section Steps

variable {process : List Args → Args → ℤ} {n limit k : ℕ} {s t : History} {c : Commands}
  {dup : Bool}

/-- A text that neither loses its slot nor is freed is still stored behind the call. -/
theorem cmdHistoryAdd_slot {text : List Byte} (hadd : cmdHistoryAdd n s text dup = some t)
    (hslot : s.cmdHistory k = some text) (hown : k ≠ hindex n s.cmdHindex)
    (hfree : ¬(t.cmdHindex ≠ s.cmdHindex ∧ k = hindex n (s.cmdHindex + 1 : ℕ))) :
    t.cmdHistory k = some text := by
  rw [cmdHistoryAdd] at hadd
  split_ifs at hadd <;> cases hadd
  · exact hslot
  · exact hslot
  · have hne : k ≠ hindex n (s.cmdHindex + 1 : ℕ) := fun heq => hfree ⟨Nat.succ_ne_self _, heq⟩
    dsimp only
    rw [update_of_ne hne, update_of_ne hown, hslot]

/-- A stored command that is run is there before, while and after it is. -/
theorem Follows.stored (hn : PowerOfTwo (n + 1)) (h : Follows n s c) {i : ℤ}
    (hguard : HistoryGuard n limit s (.stored i dup)) :
    ∃ t, runStored process n limit s i dup = some t ∧
      Follows n t (commandsStep process n limit c (.stored i dup)) := by
  simp only [commandsStep, runStored, ← h.entryAt]
  cases hslot : s.cmdHistory (hindex n i) with
  | none => exact ⟨_, rfl, { h with ran := rfl }⟩
  | some text =>
    by_cases haccepts : accepts limit text
    · obtain ⟨hbare, hroom⟩ := hguard text hslot haccepts
      have hne := haccepts.1
      obtain ⟨j, hj, hji, htext⟩ := (h.slots _ _).mp hslot
      have hlt := (List.getElem?_eq_some_iff.mp htext).1
      obtain ⟨t, hadd, hfollows⟩ := h.add hn (hroom.imp_right And.left)
      have hown : hindex n i ≠ hindex n s.cmdHindex := by
        rw [← hji, h.index]
        exact hindex_ne hn (by omega) (by omega)
      have hfree : ¬(t.cmdHindex ≠ s.cmdHindex ∧ hindex n i = hindex n (s.cmdHindex + 1 : ℕ)) := by
        rintro ⟨hadded, hnext⟩
        rcases hroom with hlast | ⟨-, hkept⟩
        · rw [cmdHistoryAdd, if_pos hlast] at hadd
          cases hadd
          exact hadded rfl
        · exact hkept hnext
      have hkept := cmdHistoryAdd_slot hadd hslot hown hfree
      have hrun := cliRunCommand_clean process hne haccepts.2 hbare.ne_nul (hbare.clean hne)
      dsimp only
      rw [if_pos haccepts, if_pos haccepts, hadd, Option.bind_some, if_neg hfree,
        hbare.parsedText hne, Option.bind_some, hrun, Option.map_some,
        if_neg fun hown' => hown hown'.2, ← hkept, update_eq_self]
      exact ⟨_, rfl, { hfollows with ran := rfl }⟩
    · simp only [if_neg haccepts]
      exact ⟨_, rfl, { h with ran := rfl }⟩

/-- **A step follows under its guard.** -/
theorem Follows.step (hn : PowerOfTwo (n + 1)) (h : Follows n s c) (a : HistoryAct)
    (hguard : HistoryGuard n limit s a) :
    ∃ t, historyStep process n limit s a = some t ∧
      Follows n t (commandsStep process n limit c a) := by
  cases a with
  | run line dup =>
    rw [historyStep, commandsStep]
    split_ifs with haccepts
    · exact h.add hn (hguard haccepts)
    · exact ⟨s, rfl, h⟩
  | stored i dup => exact h.stored hn hguard
  | backward => exact ⟨_, rfl, h.backward hn⟩
  | forward => exact h.forward hn

end Steps

def Commands.init : Commands := ⟨[], 0, none, []⟩

theorem follows_init (n : ℕ) : Follows n .init .init :=
  ⟨rfl, by decide, rfl, Nat.zero_le n, rfl, rfl, fun k text => by
    simp [History.init, Commands.init]⟩

def HistoryRefines (process : List Args → Args → ℤ) (n limit : ℕ) (acts : List HistoryAct) : Prop :=
  ∀ pre, pre <+: acts → ∃ t, runSteps (historyStep process n limit) .init pre = some t ∧
    Follows n t (pre.foldl (commandsStep process n limit) .init)

/-- **The command history refines a bounded list**, where `CONFIG_CLI_MAX_HISTORY` is a power of
two, along every guarded run. -/
theorem history_refines {process : List Args → Args → ℤ} {n limit : ℕ}
    (hn : PowerOfTwo (n + 1)) {acts : List HistoryAct}
    (hacts : StepsMeet (historyStep process n limit) (HistoryGuard n limit) .init acts) :
    HistoryRefines process n limit acts := by
  rintro pre ⟨post, rfl⟩
  refine exists_run_of_stepsMeet
    (fun pre s => Follows n s (pre.foldl (commandsStep process n limit) .init)) ?_ (follows_init n)
    hacts.of_append
  intro pre s a h hguard
  rw [foldl_concat]
  exact h.step hn a hguard

def succeeds (_ : List Args) (_ : Args) : ℤ := 0

/-- Four commands in four slots, the third of them once more, and searches past the oldest. -/
def recallThird : List HistoryAct :=
  [.run [chr 'a'] true, .run [chr 'b', chr ' '] true, .run [chr 'c'] true, .run [chr 'd'] true,
    .stored 2 true, .backward, .backward, .backward, .backward, .forward]

/-- Of the commands, `c`, `d` and again `c` are stored, and `history 2` has run `c`. -/
theorem history_refines_four :
    HistoryRefines succeeds 3 512 recallThird ∧
      (let c := recallThird.foldl (commandsStep succeeds 3 512) .init
      latest 3 c.log = [[chr 'c'], [chr 'd'], [chr 'c']] ∧ c.found = some [chr 'd'] ∧
        c.ran = [[[chr 'c']]]) :=
  ⟨history_refines ⟨2, rfl⟩ (by decide +kernel), by decide +kernel⟩

def recallFirst : List HistoryAct :=
  [.run ([ 'a', ' ', 'b'].map chr) true,
    .run (['h', 'i', 's', 't', 'o', 'r', 'y', ' ', '0'].map chr) true, .stored 0 true]

/-- With 8 slots, `history 0` leaves `a` of the stored `a b`. -/
theorem history_cut_by_recall :
    (runSteps (historyStep succeeds 7 512) .init recallFirst).map (·.cmdHistory 0) =
        some (some [chr 'a']) ∧
      ¬HistoryRefines succeeds 7 512 recallFirst := by
  have hrun : (runSteps (historyStep succeeds 7 512) .init recallFirst).map (·.cmdHistory 0) =
      some (some [chr 'a']) := by decide +kernel
  refine ⟨hrun, fun h => ?_⟩
  obtain ⟨t, ht, hfollows⟩ := h recallFirst (prefix_refl _)
  rw [ht, Option.map_some, Option.some.injEq] at hrun
  obtain ⟨j, -, hj, htext⟩ := (hfollows.slots _ _).mp hrun
  exact absurd (mem_of_getElem? htext) (by decide)

end WiseSdk.Cli
