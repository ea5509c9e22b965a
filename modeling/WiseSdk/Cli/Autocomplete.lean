import WiseSdk.Cli.ParseLine

/-!
# Completing a command's name

`cmd_autocomplete` of `lib/cli/cli.c` looks for the commands that start with the first word of the
line, and puts their names in the line one after the other, as long as TAB is pressed.

The matches are taken to stand together.  The entry behind them is noted only if there is one: when
they stand at the end of the table, the walk goes on behind it.  The table of a locked command has
one entry, so that the second TAB is enough there.
-/

namespace WiseSdk.Cli

open Library List Option

/-! ## The code -/

/-- `argv0`: the first word of the line. -/
def firstWord (line : List Byte) : List Byte :=
  (line.dropWhile isBlank).takeWhile fun c => !isBlank c

/-- The loop over the table: the first match, and the first entry behind it that is none. -/
def matchLoop (argv0 : List Byte) : List (List Byte) → ℕ → Option ℕ → Option ℕ × Option ℕ
  | [], _, start => (start, none)
  | name :: table, t, start =>
    if argv0 <+: name then matchLoop argv0 table (t + 1) (start.or (some t))
    else if start.isSome then (start, some t)
    else matchLoop argv0 table (t + 1) start

/-- The names put in the line by so many more TABs. There is no name behind the table. -/
def cycleLoop (table : List (List Byte)) (start : ℕ) (stop : Option ℕ) :
    ℕ → ℕ → Option (List (List Byte))
  | 0, t => table[t]?.map fun name => [name]
  | tabs + 1, t =>
    table[t]?.bind fun name =>
      (cycleLoop table start stop tabs (if some (t + 1) = stop then start else t + 1)).map
        (name :: ·)

/-- `cmd_autocomplete`, with so many TABs behind the first one: the names that it puts in the
line. -/
def cmdAutocomplete (table : List (List Byte)) (line : List Byte) (tabs : ℕ) :
    Option (List (List Byte)) :=
  if firstWord line = [] then some []
  else
    match matchLoop (firstWord line) table 0 none with
    | (none, _) => some []
    | (some start, stop) => cycleLoop table start stop tabs start

/-! ## The matches -/

/-- A table in which the commands that start with a word stand together. -/
structure MatchTable (word : List Byte) where
  front : List (List Byte)
  names : List (List Byte)
  behind : List (List Byte)
  front_ne : ∀ name ∈ front, ¬word <+: name
  matches_all : ∀ name ∈ names, word <+: name
  behind_ne : ∀ name ∈ behind, ¬word <+: name
  nonempty : names ≠ []

def MatchTable.table {word : List Byte} (m : MatchTable word) : List (List Byte) :=
  m.front ++ (m.names ++ m.behind)

section Loop

variable {word : List Byte}

theorem matchLoop_front {front : List (List Byte)} (h : ∀ name ∈ front, ¬word <+: name)
    (table : List (List Byte)) (t : ℕ) :
    matchLoop word (front ++ table) t none = matchLoop word table (t + front.length) none := by
  induction front generalizing t with
  | nil => rfl
  | cons name front ih =>
    rw [forall_mem_cons] at h
    rw [cons_append, matchLoop, if_neg h.1, if_neg (by simp), ih h.2, length_cons,
      Nat.add_assoc, Nat.add_comm 1]

variable {names table : List (List Byte)}

theorem matchLoop_names (h : ∀ name ∈ names, word <+: name) (table : List (List Byte))
    (t start : ℕ) :
    matchLoop word (names ++ table) t (some start) =
      matchLoop word table (t + names.length) (some start) := by
  induction names generalizing t with
  | nil => rfl
  | cons name names ih =>
    rw [forall_mem_cons] at h
    rw [cons_append, matchLoop, if_pos h.1, some_or, ih h.2, length_cons,
      Nat.add_assoc, Nat.add_comm 1]

/-- The first match is found, and the entry behind the matches if there is one. -/
theorem MatchTable.matchLoop_eq (m : MatchTable word) :
    matchLoop word m.table 0 none = (some m.front.length,
      if m.behind = [] then none else some (m.front.length + m.names.length)) := by
  obtain ⟨name, names, hnames⟩ := exists_cons_of_ne_nil m.nonempty
  have hall := m.matches_all
  rw [hnames, forall_mem_cons] at hall
  rw [MatchTable.table, matchLoop_front m.front_ne, hnames, cons_append, matchLoop, if_pos hall.1,
    none_or, matchLoop_names hall.2, Nat.zero_add, length_cons, Nat.add_assoc, Nat.add_comm 1]
  cases hbehind : m.behind with
  | nil => rfl
  | cons name behind =>
    have hne := m.behind_ne
    rw [hbehind, forall_mem_cons] at hne
    rw [matchLoop, if_neg hne.1, if_neg (cons_ne_nil name behind)]
    rfl

/-- With an entry behind the matches the names come round again. -/
theorem cycleLoop_round {a : ℕ} (hne : names ≠ [])
    (htable : ∀ i < names.length, table[a + i]? = names[i]?) (tabs : ℕ) {i : ℕ}
    (hi : i < names.length) :
    ∃ out, cycleLoop table a (some (a + names.length)) tabs (a + i) = some out ∧
      out.length = tabs + 1 ∧ ∀ k ≤ tabs, out[k]? = names[(i + k) % names.length]? := by
  induction tabs generalizing i with
  | zero =>
    refine ⟨[names[i]], ?_, rfl, fun k hk => ?_⟩
    · rw [cycleLoop, htable i hi, getElem?_eq_getElem hi]
      rfl
    · obtain rfl := Nat.le_zero.mp hk
      rw [Nat.add_zero, Nat.mod_eq_of_lt hi, getElem?_eq_getElem hi]
      rfl
  | succ tabs ih =>
    have hpos := length_pos_iff.mpr hne
    obtain ⟨out, hout, hlen, hnames⟩ := ih (Nat.mod_lt (i + 1) hpos)
    have hnext : (if some (a + i + 1) = some (a + names.length) then a else a + i + 1) =
        a + (i + 1) % names.length := by
      split_ifs with hend
      · have hlast : i + 1 = names.length := by
          rw [some.injEq] at hend
          omega
        rw [hlast, Nat.mod_self, Nat.add_zero]
      · rw [Nat.mod_eq_of_lt (by simp only [some.injEq] at hend; omega), Nat.add_assoc]
    refine ⟨names[i] :: out, ?_, by rw [length_cons, hlen], fun k hk => ?_⟩
    · rw [cycleLoop, htable i hi, getElem?_eq_getElem hi, bind_some, hnext, hout]
      rfl
    · cases k with
      | zero =>
        rw [Nat.add_zero, Nat.mod_eq_of_lt hi, getElem?_eq_getElem hi]
        rfl
      | succ k =>
        rw [getElem?_cons_succ, hnames k (by omega), Nat.mod_add_mod, Nat.add_assoc, Nat.add_comm 1]

/-- Without one the names are those of the table from there on, as far as it goes. -/
theorem cycleLoop_straight (table : List (List Byte)) (start tabs t : ℕ) :
    cycleLoop table start none tabs t =
      if t + tabs < table.length then some ((table.drop t).take (tabs + 1)) else none := by
  induction tabs generalizing t with
  | zero =>
    rw [cycleLoop, Nat.add_zero]
    split_ifs with hlt
    · rw [getElem?_eq_getElem hlt, drop_eq_getElem_cons hlt]
      rfl
    · rw [getElem?_eq_none (not_lt.mp hlt)]
      rfl
  | succ tabs ih =>
    rw [cycleLoop, if_neg (by simp), ih]
    by_cases ht : t < table.length
    · rw [getElem?_eq_getElem ht, bind_some, drop_eq_getElem_cons ht,
        take_succ_cons, Nat.add_right_comm, Nat.add_assoc t tabs 1]
      split_ifs <;> rfl
    · have hlt : ¬t + (tabs + 1) < table.length := by omega
      rw [getElem?_eq_none (not_lt.mp ht), if_neg hlt]
      rfl

end Loop

/-- **The names come in turn**: the `k`-th name is the match `k`, counted round. -/
def Cycles (table names : List (List Byte)) (line : List Byte) (tabs : ℕ) : Prop :=
  ∃ out, cmdAutocomplete table line tabs = some out ∧ out.length = tabs + 1 ∧
    ∀ k ≤ tabs, out[k]? = names[k % names.length]?

/-- **Completion cycles through the matches** exactly when an entry is behind them, or TAB is not
pressed more often than there are matches. -/
theorem autocomplete_cycles_iff {line : List Byte} (hline : firstWord line ≠ [])
    (m : MatchTable (firstWord line)) (tabs : ℕ) :
    Cycles m.table m.names line tabs ↔ m.behind ≠ [] ∨ tabs < m.names.length := by
  have hpos := length_pos_iff.mpr m.nonempty
  have htable : ∀ i < m.names.length, m.table[m.front.length + i]? = m.names[i]? := by
    intro i hi
    rw [MatchTable.table, getElem?_append_right (Nat.le_add_right _ _),
      Nat.add_sub_cancel_left, getElem?_append_left hi]
  rw [Cycles, cmdAutocomplete, if_neg hline, m.matchLoop_eq]
  dsimp only
  split_ifs with hbehind
  · have hlen : m.table.length = m.front.length + m.names.length := by
      simp [MatchTable.table, hbehind]
    rw [cycleLoop_straight, hlen, or_iff_right (by simpa)]
    constructor
    · rintro ⟨out, hout, -⟩
      by_contra hlt
      rw [if_neg (by omega)] at hout
      cases hout
    · intro hlt
      rw [if_pos (by omega)]
      refine ⟨_, rfl, by rw [length_take, length_drop]; omega, fun k hk => ?_⟩
      rw [getElem?_take_of_lt (by omega), getElem?_drop, htable k (by omega),
        Nat.mod_eq_of_lt (by omega)]
  · refine iff_of_true ?_ (.inl hbehind)
    simpa using cycleLoop_round m.nonempty htable tabs hpos

/-- `ps`, `reboot` and `reset`, with `re` in the line. -/
def endMatches : MatchTable (firstWord (['r', 'e'].map chr)) where
  front := [['p', 's'].map chr]
  names := [['r', 'e', 'b', 'o', 'o', 't'].map chr, ['r', 'e', 's', 'e', 't'].map chr]
  behind := []
  front_ne := by decide
  matches_all := by decide
  behind_ne := by decide
  nonempty := by decide

theorem autocomplete_cycles_twice :
    firstWord (['r', 'e'].map chr) ≠ [] ∧
      Cycles endMatches.table endMatches.names (['r', 'e'].map chr) 1 :=
  ⟨by decide, (autocomplete_cycles_iff (by decide) endMatches 1).mpr (.inr (by decide))⟩

/-- The third TAB leaves the table. -/
theorem autocomplete_leaves_table :
    cmdAutocomplete endMatches.table (['r', 'e'].map chr) 2 = none ∧
      ¬Cycles endMatches.table endMatches.names (['r', 'e'].map chr) 2 := by
  have hnone : cmdAutocomplete endMatches.table (['r', 'e'].map chr) 2 = none := by decide +kernel
  refine ⟨hnone, ?_⟩
  rintro ⟨out, hout, -⟩
  cases hout

end WiseSdk.Cli
