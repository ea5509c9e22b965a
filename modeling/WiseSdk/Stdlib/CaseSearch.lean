import WiseSdk.Library.CString

/-!
# Search without regard to letter case

`os_strcasestr2` (`lib/stdlib-ext/string-ext.c`) goes from one place of the first letter to the
next, and compares there with `strncasecmp` of the C library.
-/

namespace WiseSdk.Stdlib

open Library List

def toupper (c : Byte) : Byte := if chr 'a' ≤ c ∧ c ≤ chr 'z' then c - chr 'a' + chr 'A' else c

def tolower (c : Byte) : Byte := if chr 'A' ≤ c ∧ c ≤ chr 'Z' then c - chr 'A' + chr 'a' else c

/-- `strncasecmp` of the C library: what `strncmp` says of the texts in lower case. -/
def strncasecmp (s t : List Byte) (n : ℕ) : ℤ := strncmp (s.map tolower) (t.map tolower) n

def strcasechr : List Byte → Byte → Option ℕ
  | [], _ => none
  | ch :: s, uc => if toupper ch = uc then some 0 else (strcasechr s uc).map (· + 1)

variable {s substr : List Byte} {c uc : Byte} {i : ℕ}

/-- Up to the place of the first letter the text is not found. -/
theorem strcasechr_some (h : strcasechr s uc = some i) : i < s.length ∧ ∀ t,
    strstr (s.map toupper) (uc :: t) = (strstr ((s.drop i).map toupper) (uc :: t)).map (· + i) := by
  induction s generalizing i with
  | nil => cases h
  | cons ch s ih =>
    rw [strcasechr] at h
    split_ifs at h with hch
    · cases h
      exact ⟨Nat.zero_lt_succ _, fun t => Option.map_id'.symm⟩
    · obtain ⟨j, hj, rfl⟩ := Option.map_eq_some_iff.mp h
      obtain ⟨hlt, hskip⟩ := ih hj
      refine ⟨Nat.succ_lt_succ hlt, fun t => ?_⟩
      rw [map_cons, strstr, if_neg (by simp [Ne.symm hch]), hskip t, Option.map_map, drop_succ_cons]
      rfl

theorem strcasechr_none (h : strcasechr s uc = none) : uc ∉ s.map toupper := by
  induction s with
  | nil => nofun
  | cons ch s ih =>
    rw [strcasechr] at h
    split_ifs at h with hch
    rw [map_cons, mem_cons, not_or]
    exact ⟨Ne.symm hch, ih (Option.map_eq_none_iff.mp h)⟩

/-- The loop, from a candidate on. -/
def search (substr : List Byte) (ch : Byte) (s : List Byte) : Option ℕ :=
  match h : strcasechr s ch with
  | none => none
  | some i =>
    if (s.drop i).length < substr.length then none
    else if strncasecmp (s.drop i) substr substr.length = 0 then some i
    else (search substr ch (s.drop (i + 1))).map (· + 1 + i)
termination_by s.length
decreasing_by
  rw [length_drop]
  have := (strcasechr_some h).1
  omega

/-- `os_strcasestr2`: how far from `str` the result is. -/
def osStrcasestr2 (str substr : List Byte) : Option ℕ :=
  let ch := substr.head?.getD 0
  if ch = 0 then some 0 else search substr (toupper ch) str

/-- The text is there at that place, in some letter case. -/
def OccursAt (str substr : List Byte) (i : ℕ) : Prop :=
  substr.map toupper <+: (str.drop i).map toupper
deriving Decidable

theorem map_tolower_eq_iff (s t : List Byte) :
    s.map tolower = t.map tolower ↔ s.map toupper = t.map toupper := by
  have hup : toupper ∘ tolower = toupper := funext (by decide)
  have hlow : tolower ∘ toupper = tolower := funext (by decide)
  constructor
  · intro h
    rw [← hup, ← map_map, h, map_map]
  · intro h
    rw [← hlow, ← map_map, h, map_map]

theorem strncasecmp_eq_zero_iff (hs : 0 ∉ s) (ht : 0 ∉ substr) :
    strncasecmp s substr substr.length = 0 ↔ substr.map toupper <+: s.map toupper := by
  have hlow : ∀ l : List Byte, 0 ∉ l → 0 ∉ l.map tolower := by
    intro l hl hmem
    obtain ⟨c, hc, h0⟩ := mem_map.mp hmem
    have hzero : ∀ c, tolower c = 0 → c = 0 := by decide
    exact hl (hzero c h0 ▸ hc)
  rw [strncasecmp, strncmp_eq_zero_iff (hlow s hs) (hlow substr ht), ← map_take, ← map_take,
    map_tolower_eq_iff, take_length, prefix_iff_eq_take, length_map, map_take, eq_comm]

/-- **The loop** finds what `strstr` finds in the texts in upper case. -/
theorem search_eq (hs : 0 ∉ s) (ht : 0 ∉ c :: substr) :
    search (c :: substr) (toupper c) s = strstr (s.map toupper) ((c :: substr).map toupper) := by
  fun_induction search (c :: substr) (toupper c) s with
  | case1 s hchr =>
    refine ((strstr_eq_none_iff ..).mpr fun h => ?_).symm
    exact strcasechr_none hchr (h.subset mem_cons_self)
  | case2 s i hchr hlen =>
    rw [map_cons, (strcasechr_some hchr).2, Option.map_eq_none_iff.mpr]
    refine (strstr_eq_none_iff ..).mpr fun h => ?_
    have := h.length_le
    simp only [length_cons, length_map] at this hlen
    omega
  | case3 s i hchr hlen hcmp =>
    have hfound := (strncasecmp_eq_zero_iff (fun h => hs (mem_of_mem_drop h)) ht).mp hcmp
    rw [map_cons, (strcasechr_some hchr).2, ← map_cons, strstr_of_prefix hfound, Option.map_some,
      Nat.zero_add]
  | case4 s i hchr hlen hcmp ih =>
    obtain ⟨hlt, hskip⟩ := strcasechr_some hchr
    rw [strncasecmp_eq_zero_iff (fun h => hs (mem_of_mem_drop h)) ht,
      drop_eq_getElem_cons hlt] at hcmp
    rw [ih fun h => hs (mem_of_mem_drop h), map_cons, hskip, drop_eq_getElem_cons hlt, map_cons,
      ← map_cons, strstr, if_neg (show ¬_ <+: toupper s[i] :: _ from hcmp), Option.map_map]
    rfl

/-- **The first occurrence**, in any letter case; `str` itself for an empty text. -/
theorem strcasestr_first (str substr : List Byte) (hstr : 0 ∉ str) (hsub : 0 ∉ substr) :
    (∀ i, osStrcasestr2 str substr = some i ↔
      OccursAt str substr i ∧ ∀ j < i, ¬OccursAt str substr j) ∧
    (substr = [] → osStrcasestr2 str substr = some 0) ∧
    (osStrcasestr2 str substr = none ↔ ∀ i, ¬OccursAt str substr i) := by
  have hsome : ∀ i, osStrcasestr2 str substr = some i ↔
      OccursAt str substr i ∧ ∀ j < i, ¬OccursAt str substr j := by
    intro i
    simp only [OccursAt, map_drop]
    rw [← strstr_eq_some_iff]
    cases substr with
    | nil => rw [map_nil, strstr_of_prefix nil_prefix]; rfl
    | cons c substr =>
      have hc : c ≠ 0 := fun h => hsub (h ▸ mem_cons_self)
      rw [← search_eq hstr hsub, osStrcasestr2, head?_cons, Option.getD_some, if_neg hc]
  refine ⟨hsome, ?_, ?_⟩
  · rintro rfl
    rfl
  · rw [Option.eq_none_iff_forall_ne_some]
    simp only [ne_eq, hsome]
    refine ⟨fun h i => ?_, fun h i hi => h i hi.1⟩
    induction i using Nat.strong_induction_on with
    | _ i ih => exact fun hi => h i ⟨hi, ih⟩

/-- The text `wise` in `ThE wIsE` is at place 4. -/
theorem strcasestr_first_wise :
    let str := [0x54, 0x68, 0x45, 0x20, 0x77, 0x49, 0x73, 0x45]
    let substr := [0x77, 0x69, 0x73, 0x65]
    osStrcasestr2 str substr = some 4 :=
  ((strcasestr_first _ _ (by decide) (by decide)).1 4).mpr (by
    refine ⟨by decide, ?_⟩
    decide)

end WiseSdk.Stdlib
