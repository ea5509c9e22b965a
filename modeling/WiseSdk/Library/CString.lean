import Mathlib.Data.List.Infix
import WiseSdk.Library.ByteMemory

/-!
# C strings

A C string is the list of its bytes before the NUL.  The functions of `string.h` used here are
given on such lists; the lemmas about them ask that the lists hold no NUL.

A `Cursor` is a buffer and a place in it, for code that walks a string and changes it in place.
`Cursor.view pre rest post` is the cursor that has passed `pre` and has the string `rest` before it,
with its NUL and `post` behind; there is one lemma for each operation on a view.
-/

namespace WiseSdk.Library

open List

def chr (c : Char) : Byte := BitVec.ofNat 8 c.toNat

/-- `strncmp`: the difference of the first two bytes that differ among the first `n`. -/
def strncmp : List Byte → List Byte → ℕ → ℤ
  | _, _, 0 => 0
  | [], [], _ + 1 => 0
  | [], b :: _, _ + 1 => -b.toNat
  | a :: _, [], _ + 1 => a.toNat
  | a :: as, b :: bs, n + 1 => if a = b then strncmp as bs n else (a.toNat : ℤ) - b.toNat

variable {s t w y : List Byte} {c : Byte} {i fuel : ℕ}

theorem strncmp_eq_zero_iff (hs : 0 ∉ s) (ht : 0 ∉ t) (n : ℕ) :
    strncmp s t n = 0 ↔ s.take n = t.take n := by
  induction n generalizing s t with
  | zero => simp [strncmp]
  | succ n ih =>
    cases s with
    | nil =>
      cases t with
      | nil => simp [strncmp]
      | cons b t =>
        have hb : b ≠ 0 := fun h => ht (h ▸ mem_cons_self)
        have hb' : b.toNat ≠ 0 := fun h => hb (BitVec.eq_of_toNat_eq h)
        simpa [strncmp] using hb'
    | cons a s =>
      have ha : a ≠ 0 := fun h => hs (h ▸ mem_cons_self)
      have ha' : a.toNat ≠ 0 := fun h => ha (BitVec.eq_of_toNat_eq h)
      cases t with
      | nil => simpa [strncmp] using ha'
      | cons b t =>
        rw [strncmp]
        split_ifs with hab
        · rw [ih (fun h => hs (mem_cons_of_mem _ h))
            (fun h => ht (mem_cons_of_mem _ h)), hab]
          simp
        · have : (a.toNat : ℤ) - b.toNat ≠ 0 := fun h =>
            hab (BitVec.eq_of_toNat_eq (by omega))
          simp [this, hab]

/-- `strchr`: the place of a byte. -/
def strchr : List Byte → Byte → Option ℕ
  | [], _ => none
  | a :: s, c => if a = c then some 0 else (strchr s c).map (· + 1)

theorem strchr_append (h : c ∉ s) (t : List Byte) : strchr (s ++ c :: t) c = some s.length := by
  induction s with
  | nil => simp [strchr]
  | cons a s ih =>
    have hne : a ≠ c := fun heq => h (heq ▸ mem_cons_self)
    rw [cons_append, strchr, if_neg hne, ih fun hc => h (mem_cons_of_mem _ hc)]
    rfl

/-- `strstr`: the first place of a text. -/
def strstr : List Byte → List Byte → Option ℕ
  | [], t => if t = [] then some 0 else none
  | a :: s, t => if t <+: a :: s then some 0 else (strstr s t).map (· + 1)

theorem strstr_eq_none_iff (s t : List Byte) : strstr s t = none ↔ ¬t <:+: s := by
  induction s with
  | nil =>
    rw [strstr, infix_nil]
    split_ifs with h <;> simp [h]
  | cons a s ih =>
    rw [strstr, infix_cons_iff]
    split_ifs with h
    · simp [h]
    · rw [Option.map_eq_none_iff, ih]
      simp [h]

theorem strstr_isSome_iff (s t : List Byte) : (strstr s t).isSome = true ↔ t <:+: s := by
  rw [Option.isSome_iff_ne_none, ne_eq, strstr_eq_none_iff, not_not]

theorem strstr_of_prefix (h : t <+: s) : strstr s t = some 0 := by
  cases s with
  | nil => rw [strstr, if_pos (prefix_nil.mp h)]
  | cons a s => rw [strstr, if_pos h]

theorem strstr_eq_some_iff : strstr s t = some i ↔ t <+: s.drop i ∧ ∀ j < i, ¬t <+: s.drop j := by
  induction s generalizing i with
  | nil =>
    rw [strstr]
    cases i with
    | zero => split_ifs with h <;> simp [h]
    | succ i =>
      refine iff_of_false (fun h => ?_) fun h => h.2 0 i.succ_pos (by simpa using h.1)
      split_ifs at h
      cases h
  | cons a s ih =>
    rw [strstr]
    cases i with
    | zero => split_ifs with h <;> simp [h]
    | succ i =>
      simp only [Nat.forall_lt_succ_left, drop_succ_cons, drop_zero]
      split_ifs with h
      · simp [h]
      · rw [Option.map_eq_some_iff]
        simp [h, ih]

theorem eq_append_of_strstr (h : strstr s t = some i) :
    ∃ pre post, s = pre ++ t ++ post ∧ pre.length = i := by
  obtain ⟨⟨post, hpost⟩, hfirst⟩ := strstr_eq_some_iff.mp h
  refine ⟨s.take i, post, ?_, ?_⟩
  · rw [append_assoc, hpost, take_append_drop]
  · refine length_take_of_le (Nat.le_of_not_lt fun hlt => hfirst _ hlt ?_)
    rw [drop_eq_nil_of_le (by omega)] at hpost ⊢
    exact ⟨post, hpost⟩

theorem add_length_le_of_strstr (h : strstr s t = some i) : i + t.length ≤ s.length := by
  obtain ⟨pre, post, rfl, rfl⟩ := eq_append_of_strstr h
  simp only [length_append]
  omega

theorem strstr_singleton (h : c ∉ s) (t : List Byte) :
    strstr (s ++ c :: t) [c] = some s.length := by
  induction s with
  | nil => exact strstr_of_prefix ⟨t, rfl⟩
  | cons a s ih =>
    have hne : c ≠ a := fun heq => h (heq ▸ mem_cons_self)
    rw [cons_append, strstr, if_neg (by simp [hne]), ih fun hc => h (mem_cons_of_mem _ hc)]
    rfl

/-- A text is not found across a byte that it does not have. -/
theorem infix_append_cons_iff (h : c ∉ s) (x y : List Byte) :
    s <:+: x ++ c :: y ↔ s <:+: x ∨ s <:+: y := by
  have hnil {l : List Byte} (hl : c ∉ l) (hpre : l <+: c :: y) : l = [] := by
    rcases prefix_cons_iff.mp hpre with hl' | ⟨t, rfl, -⟩
    · exact hl'
    · exact absurd mem_cons_self hl
  rw [infix_append_iff, infix_cons_iff]
  constructor
  · rintro (hx | (hpre | hy) | ⟨l, l', rfl, hl, hl'⟩)
    · exact .inl hx
    · exact .inl (hnil h hpre ▸ nil_infix)
    · exact .inr hy
    · obtain rfl := hnil (fun hc => h (mem_append_right _ hc)) hl'
      rw [append_nil]
      exact .inl hl.isInfix
  · rintro (hx | hy)
    · exact .inl hx
    · exact .inr (.inl (.inr hy))

theorem infix_append_iff_of_getLast? (hs : s.getLast? = some c) (h : c ∉ y) (x : List Byte)
    : s <:+: x ++ y ↔ s <:+: x := by
  rw [infix_append_iff]
  constructor
  · rintro (hx | hy | ⟨l, l', rfl, hl, hl'⟩)
    · exact hx
    · exact absurd (hy.subset (mem_of_getLast? hs)) h
    · cases hlast : l'.getLast? with
      | none =>
        rw [getLast?_eq_none_iff.mp hlast, append_nil]
        exact hl.isInfix
      | some d =>
        rw [getLast?_append, hlast] at hs
        obtain rfl : d = c := Option.some.inj hs
        exact absurd (hl'.subset (mem_of_getLast? hlast)) h
  · exact .inl

/-! ## Strings in a buffer -/

def strAt (buf : List Byte) (p : ℕ) : List Byte := (buf.drop p).takeWhile (· ≠ 0)

theorem takeWhile_nul (h : 0 ∉ w) (post : List Byte) : (w ++ 0 :: post).takeWhile (· ≠ 0) = w := by
  rw [takeWhile_append_of_pos, takeWhile_cons_of_neg (by simp), append_nil]
  intro b hb
  rw [decide_eq_true_eq]
  rintro rfl
  exact h hb

theorem strAt_append (pre : List Byte) (h : 0 ∉ w) (post : List Byte) :
    strAt (pre ++ w ++ 0 :: post) pre.length = w := by
  rw [strAt, append_assoc, drop_left, takeWhile_nul h]

def memmove (buf : List Byte) (dst src n : ℕ) : List Byte := splice buf dst ((buf.drop src).take n)

structure Cursor where
  buf : List Byte
  s : ℕ
  deriving DecidableEq, Repr

namespace Cursor

def get (c : Cursor) (i : ℕ) : Byte := c.buf[c.s + i]?.getD 0

def next (c : Cursor) : Cursor := { c with s := c.s + 1 }

def put (c : Cursor) (b : Byte) : Cursor := { c with buf := c.buf.set c.s b }

/-- A cursor that has passed `pre`, with the string `rest` before it. -/
def view (pre rest post : List Byte) : Cursor := ⟨pre ++ rest ++ 0 :: post, pre.length⟩

variable (pre rest post : List Byte) (b : Byte)

@[simp] theorem get_view_zero_nil : (view pre [] post).get 0 = 0 := by
  simp [get, view]

@[simp] theorem get_view_zero : (view pre (b :: rest) post).get 0 = b := by
  simp [get, view]

theorem get_view_one : (view pre (b :: rest) post).get 1 = rest.head?.getD 0 := by
  cases rest <;> simp [get, view]

@[simp] theorem next_view : (view pre (b :: rest) post).next = view (pre ++ [b]) rest post := by
  simp [next, view]

@[simp] theorem put_view (b' : Byte) :
    (view pre (b :: rest) post).put b' = view pre (b' :: rest) post := by
  simp [put, view]

theorem memmove_view (h : 0 ∉ rest) :
    let c := view pre (b :: rest) post
    memmove c.buf c.s (c.s + 1) (strAt c.buf (c.s + 1)).length =
      (view pre (rest ++ [(b :: rest).getLast (cons_ne_nil _ _)]) post).buf := by
  have hstr : strAt (pre ++ b :: rest ++ 0 :: post) (pre.length + 1) = rest := by
    have := strAt_append (pre ++ [b]) h post
    simpa using this
  have hdrop : (pre ++ b :: rest ++ 0 :: post).drop (pre.length + 1) = rest ++ 0 :: post := by
    rw [append_assoc, drop_append]
    simp
  simp only [view, hstr, memmove, hdrop, take_left]
  have hsplit : b :: rest = (b :: rest).dropLast ++ [(b :: rest).getLast (cons_ne_nil _ _)] :=
    (dropLast_append_getLast _).symm
  have hlen : rest.length = (b :: rest).dropLast.length := by simp
  have := splice_append pre ([(b :: rest).getLast (cons_ne_nil _ _)] ++ 0 :: post) hlen
  simp only [append_assoc] at this ⊢
  rw [← append_assoc (b :: rest).dropLast, ← hsplit] at this
  exact this

def str (c : Cursor) : List Byte := strAt c.buf c.s

def add (c : Cursor) (i : ℕ) : Cursor := { c with s := c.s + i }

def putAt (c : Cursor) (i : ℕ) (b : Byte) : Cursor := { c with buf := c.buf.set (c.s + i) b }

/-- `while (p(*s)) s++;`. -/
def skip (p : Byte → Bool) : ℕ → Cursor → Option Cursor
  | 0, _ => none
  | fuel + 1, c => if p (c.get 0) then skip p fuel c.next else some c

theorem str_view (h : 0 ∉ rest) : (view pre rest post).str = rest := strAt_append pre h post

theorem add_view (passed : List Byte) (hi : passed.length = i) :
    (view pre (passed ++ rest) post).add i = view (pre ++ passed) rest post := by
  subst hi
  simp [add, view]

theorem putAt_view (hi : i < rest.length) :
    (view pre rest post).putAt i b = view pre (rest.set i b) post := by
  have hlt : pre.length + i < (pre ++ rest).length := by
    rw [length_append]
    omega
  rw [putAt, view, set_append_left _ _ hlt, set_append_right _ _ (Nat.le_add_right ..),
    Nat.add_sub_cancel_left]
  rfl

theorem length_lt_view : rest.length < (view pre rest post).buf.length + 1 := by
  simp only [view, length_append, length_cons]
  omega

/-- A loop that stops at the NUL passes what it may pass. -/
theorem skip_view {p : Byte → Bool} (hp : p 0 = false) (hfuel : rest.length < fuel) :
    skip p fuel (view pre rest post) =
      some (view (pre ++ rest.takeWhile p) (rest.dropWhile p) post) := by
  induction rest generalizing fuel pre with
  | nil =>
    obtain ⟨fuel, rfl⟩ : ∃ k, fuel = k + 1 := ⟨fuel - 1, by omega⟩
    rw [skip, get_view_zero_nil, hp]
    simp
  | cons c rest ih =>
    obtain ⟨fuel, rfl⟩ : ∃ k, fuel = k + 1 := ⟨fuel - 1, by omega⟩
    rw [skip, get_view_zero, next_view, ih (pre ++ [c]) (Nat.lt_of_succ_lt_succ hfuel)]
    split_ifs with hc <;> simp [hc]

end Cursor

theorem strAt_of_passed {pre word buf : List Byte} (hword : 0 ∉ word)
    (hbuf : pre ++ word ++ [0] <+: buf) : strAt buf pre.length = word := by
  obtain ⟨post, rfl⟩ := hbuf
  rw [append_assoc, singleton_append]
  exact strAt_append pre hword post

end WiseSdk.Library
