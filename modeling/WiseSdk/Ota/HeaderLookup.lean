import WiseSdk.Ota.Http

/-!
# Looking up a tag in the response header

`http_get_tag` walks over the lines of a header and looks for the first one that starts with a tag;
`http_file_size` reads the number behind `Content-Length:`, and `http_process_header` the status
between the first two blanks.

Two things keep the walk from agreeing with the lines of a header. The test for the empty line, `i -
start == 2`, is met by a line of *one* character and not by an empty one, so that the search gives
up there. And the line, the value and the status are copied to arrays of 256, 16 and 8 characters,
however long they are.
-/

namespace WiseSdk.Ota

open List

/-! ## Header blocks -/

def crlf : List UInt8 := [13, 10]

/-- A response header: lines that are not empty and do not contain CR LF. -/
structure HeaderBlock where
  lines : List (List UInt8)
  ne_nil : ∀ line ∈ lines, line ≠ []
  no_crlf : ∀ line ∈ lines, ¬crlf <:+: line

/-- Lines on the wire: each ended by CR LF, with an empty line after the last one. -/
def wire : List (List UInt8) → List UInt8
  | [] => crlf
  | line :: lines => line ++ (crlf ++ wire lines)

def HeaderBlock.bytes (block : HeaderBlock) : List UInt8 := wire block.lines

/-- Position and length of the value in the first line with the tag; the lines start at position
`i`. -/
def tagValue (tag : List UInt8) : ℕ → List (List UInt8) → Option (ℕ × ℕ)
  | _, [] => none
  | i, line :: lines =>
    if tag <+: line then some (i + tag.length, line.length - tag.length)
    else tagValue tag (i + line.length + 2) lines

def tagText (tag : List UInt8) : List (List UInt8) → Option (List UInt8)
  | [] => none
  | line :: lines => if tag <+: line then some (line.drop tag.length) else tagText tag lines

def contentLength : List UInt8 := bytes "Content-Length:"

/-- The number a value starts with, after blanks and a sign. -/
def number (s : List UInt8) : ℤ :=
  match s.dropWhile isSpace with
  | 45 :: digits => -(decimal digits : ℤ)
  | 43 :: digits => decimal digits
  | digits => decimal digits

/-- The result that `http_get_tag` is to have; -1 is an error. -/
def lookupResult : Option (ℕ × ℕ) → Except Fault (ℕ × ℕ)
  | none => .error .failed
  | some v => .ok v

/-! ## The property and its condition -/

/-- **Header lookup.** In a buffer that starts with the header, the lookups of the tag and of the
announced length give the value of the first such line or -1; that length is the number in its line;
and nothing is written outside an array. -/
structure LookupSound (block : HeaderBlock) (rest tag : List UInt8) (len : ℕ) : Prop where
  get_tag : ∀ t ∈ [tag, contentLength],
    httpGetTag (block.bytes ++ rest) len t len 0 = lookupResult (tagValue t 0 block.lines)
  file_size : ∀ text, tagText contentLength block.lines = some text →
    httpFileSize (block.bytes ++ rest) len = .ok (number text)
  in_bounds : httpProcessHeader (block.bytes ++ rest) len ≠ .error .undefined ∧
    httpFileSize (block.bytes ++ rest) len ≠ .error .undefined

/-- The walk is right: a line of one character is met only if no line from it on has the tag; every
other line met fits `tmp`; and the tag is met only inside a line. Only the lines up to the first
with the tag are met. -/
def WalkRight (rest tag : List UInt8) : List (List UInt8) → Prop
  | [] => ¬tag <+: crlf ++ rest
  | line :: lines =>
    if line.length = 1 then ∀ l ∈ line :: lines, ¬tag <+: l
    else line.length ≤ 255 ∧
      (tag <+: line ∨ ¬tag <+: line ++ (crlf ++ (wire lines ++ rest)) ∧ WalkRight rest tag lines)

def ValueFits (text : List UInt8) : Prop :=
  text.length ≤ 15 ∧ -2147483648 ≤ number text ∧ number text ≤ 2147483647

/-- Text in which a search for `c` does not stop: neither `c` nor a NUL. -/
def Passes (c : UInt8) (s : List UInt8) : Prop := ∀ b ∈ s, b ≠ c ∧ b ≠ 0

/-- A buffer that starts with `HTTP` has two blanks before any NUL, at most six characters apart. -/
def StatusFits (buf : List UInt8) : Prop :=
  bytes "HTTP" <+: buf → ∃ pre mid post, buf = pre ++ 32 :: (mid ++ 32 :: post) ∧
    Passes 32 pre ∧ Passes 32 mid ∧ mid.length ≤ 6

/-! ## The end of a line -/

section Lines

variable {buf line more : List UInt8} {len i t : ℕ}

theorem take_two_ne_crlf (hno : ¬crlf <:+: line) (ht : t < line.length) :
    (line.drop t ++ (crlf ++ more)).take 2 ≠ crlf := by
  intro h
  match hdrop : line.drop t with
  | [] =>
    have hlen := congrArg List.length hdrop
    simp only [length_drop, length_nil] at hlen
    omega
  | [b] =>
    rw [hdrop] at h
    simp [crlf] at h
  | b :: c :: tl =>
    -- Two characters of the line itself: they are not CR LF.
    rw [hdrop] at h
    have hcrlf : crlf <:+: line.drop t := ⟨[], tl, by rw [hdrop, ← h]; rfl⟩
    exact hno (hcrlf.trans (drop_suffix t line).isInfix)

/-- The inner loop stops at the LF of its line. -/
theorem lineEnd_eq (hbuf : buf.drop i = line ++ (crlf ++ more)) (hno : ¬crlf <:+: line)
    (hlen : i + line.length + 1 ≤ len) : lineEnd buf len i = i + line.length + 1 := by
  have hdrop : ∀ t, buf.drop (i + t) = (line ++ (crlf ++ more)).drop t := fun t => by
    rw [← hbuf, drop_drop]
  have hbefore : ∀ j, i < j → j < i + line.length + 1 →
      ¬(buf.drop (j - 1)).take 2 = bytes "\r\n" := by
    intro j hj hlt
    obtain ⟨t, ht⟩ := Nat.exists_eq_add_of_le (Nat.le_sub_one_of_lt hj)
    rw [ht, hdrop t, drop_append_of_le_length (by omega)]
    exact take_two_ne_crlf hno (by omega)
  have hat : (buf.drop (i + line.length + 1 - 1)).take 2 = bytes "\r\n" := by
    rw [Nat.add_sub_cancel, hdrop, drop_left]
    rfl
  unfold lineEnd
  rcases Nat.eq_or_lt_of_le hlen with heq | hlt
  · have hnone : (range len).find? (fun j =>
        decide (i < j) && decide ((buf.drop (j - 1)).take 2 = bytes "\r\n")) = none := by
      rw [find?_eq_none]
      intro j hj
      rw [mem_range] at hj
      simp only [Bool.and_eq_true, decide_eq_true_eq, not_and]
      exact fun hij => hbefore j hij (by omega)
    rw [hnone, heq]
    rfl
  have hsome : (range len).find? (fun j =>
      decide (i < j) && decide ((buf.drop (j - 1)).take 2 = bytes "\r\n")) =
        some (i + line.length + 1) := by
    rw [find?_range_eq_some]
    refine ⟨?_, mem_range.mpr hlt, fun j hj => ?_⟩
    · simp only [Bool.and_eq_true, decide_eq_true_eq]
      exact ⟨by omega, hat⟩
    · simp only [Bool.not_eq_true', Bool.and_eq_false_iff, decide_eq_false_iff_not]
      by_cases hij : i < j
      · exact .inr (hbefore j hij hj)
      · exact .inl hij
  rw [hsome]
  rfl

theorem drop_next (hbuf : buf.drop i = line ++ (crlf ++ more)) :
    buf.drop (i + line.length + 2) = more := by
  rw [Nat.add_assoc, ← drop_drop, hbuf, ← drop_drop, drop_left]
  rfl

end Lines

/-! ## The walk over the lines -/

/-- `http_get_tag` as a walk over the lines, which start at position `i`. -/
def walk (rest tag : List UInt8) : ℕ → List (List UInt8) → Except Fault (ℕ × ℕ)
  | i, [] => if tag <+: crlf ++ rest then .ok (i + tag.length, 0) else .error .failed
  | i, line :: lines =>
    if line.length = 1 then .error .failed
    else if 255 < line.length then .error .undefined
    else if tag <+: line ++ (crlf ++ (wire lines ++ rest)) then
      .ok (i + tag.length, line.length - tag.length)
    else walk rest tag (i + line.length + 2) lines

section Walk

variable {buf rest tag : List UInt8} {len i fuel : ℕ}

theorem length_wire_cons (line : List UInt8) (lines : List (List UInt8)) :
    (wire (line :: lines)).length = line.length + 2 + (wire lines).length := by
  simp only [wire, crlf, length_append, length_cons, length_nil]
  omega

theorem httpGetTag_nil (hbuf : buf.drop i = crlf ++ rest) (hlen : i + 1 ≤ len) (hend : len ≤ i + 2)
    : httpGetTag buf len tag (fuel + 1) i = walk rest tag i [] := by
  have hstop : lineEnd buf len i = i + 1 := by
    have hline : buf.drop i = [] ++ (crlf ++ rest) := hbuf
    exact lineEnd_eq hline (by decide) hlen
  have hlast : httpGetTag buf len tag fuel (i + 1 + 1) = .error .failed := by
    cases fuel with
    | zero => rfl
    | succ fuel => rw [httpGetTag, if_pos (by omega)]
  rw [httpGetTag, if_neg (by omega), hstop, walk, hbuf]
  simp only [ isPrefixOf_iff_prefix, hlast]
  rw [if_neg (by omega), if_neg (by omega)]
  congr 3
  omega

variable {lines : List (List UInt8)}

/-- **The walk.** With fuel for the lines to come, `http_get_tag` is the walk over these lines. -/
theorem httpGetTag_eq_walk (hno : ∀ line ∈ lines, ¬crlf <:+: line) (hfuel : lines.length < fuel)
    (hbuf : buf.drop i = wire lines ++ rest)
    (hlen : i + (wire lines).length ≤ len + 1) (hend : len ≤ i + (wire lines).length) :
    httpGetTag buf len tag fuel i = walk rest tag i lines := by
  induction lines generalizing fuel i with
  | nil =>
    obtain ⟨fuel, rfl⟩ := Nat.exists_eq_add_of_lt hfuel
    simp only [wire, crlf, length_cons, length_nil] at hlen hend
    exact httpGetTag_nil hbuf (by omega) (by omega)
  | cons line lines ih =>
    obtain ⟨fuel, rfl⟩ : ∃ f, fuel = f + 1 := ⟨fuel - 1, by omega⟩
    rw [length_wire_cons] at hlen hend
    rw [wire, append_assoc, append_assoc] at hbuf
    have hstop : lineEnd buf len i = i + line.length + 1 :=
      lineEnd_eq hbuf (hno line mem_cons_self) (by omega)
    have hrest : httpGetTag buf len tag fuel (i + line.length + 2) =
        walk rest tag (i + line.length + 2) lines :=
      ih (fun l hl => hno l (mem_cons_of_mem _ hl)) (by simpa using hfuel)
        (drop_next hbuf) (by omega) (by omega)
    rw [httpGetTag, if_neg (by omega), hstop, walk, hbuf]
    simp only [ isPrefixOf_iff_prefix]
    rw [hrest]
    have hone : i + line.length + 1 - i = 2 ↔ line.length = 1 := by omega
    have hfits : 256 < i + line.length + 1 - i ↔ 255 < line.length := by omega
    have hvalue : i + line.length + 1 - i - 1 - tag.length = line.length - tag.length := by omega
    simp only [hone, hfits, hvalue]

theorem length_lines_le (hne : ∀ line ∈ lines, line ≠ []) :
    3 * lines.length + 2 ≤ (wire lines).length := by
  induction lines with
  | nil => exact Nat.le_refl 2
  | cons line lines ih =>
    have hpos := length_pos_of_ne_nil (hne line mem_cons_self)
    have hrest := ih fun l hl => hne l (mem_cons_of_mem _ hl)
    rw [length_wire_cons, length_cons]
    omega

/-- With the length of the header as fuel, the lookup is the walk over its lines. -/
theorem HeaderBlock.httpGetTag_eq (block : HeaderBlock) (rest tag : List UInt8)
    (hlen : block.bytes.length ≤ len + 1) (hend : len ≤ block.bytes.length) :
    httpGetTag (block.bytes ++ rest) len tag len 0 = walk rest tag 0 block.lines := by
  have hlines := length_lines_le block.ne_nil
  rw [HeaderBlock.bytes] at hlen hend
  exact httpGetTag_eq_walk block.no_crlf (by omega) rfl (by omega) (by omega)

theorem le_of_tagValue {v : ℕ × ℕ} (h : tagValue tag i lines = some v) : i + tag.length ≤ v.1 := by
  induction lines generalizing i with
  | nil => cases h
  | cons line lines ih =>
    rw [tagValue] at h
    split_ifs at h
    · cases h
      exact Nat.le_refl _
    · have := ih h
      omega

theorem tagValue_eq_none_iff (tag : List UInt8) (i : ℕ) (lines : List (List UInt8)) :
    tagValue tag i lines = none ↔ ∀ line ∈ lines, ¬tag <+: line := by
  induction lines generalizing i with
  | nil => simp [tagValue]
  | cons line lines ih =>
    rw [tagValue, forall_mem_cons]
    split_ifs with hhit
    · simp [hhit]
    · simp [hhit, ih]

/-- **The walk is right** exactly on the lines that say so. -/
theorem walk_eq_iff (rest tag : List UInt8) (i : ℕ) (lines : List (List UInt8)) :
    walk rest tag i lines = lookupResult (tagValue tag i lines) ↔ WalkRight rest tag lines := by
  induction lines generalizing i with
  | nil =>
    rw [walk, WalkRight, tagValue]
    split_ifs with hhit <;> simp [lookupResult, hhit]
  | cons line lines ih =>
    rw [walk, WalkRight]
    split_ifs with hone hlong hhit
    · -- The walk gives up, which is right if there is nothing to find.
      rw [← tagValue_eq_none_iff tag i (line :: lines)]
      cases tagValue tag i (line :: lines) <;> simp [lookupResult]
    · refine iff_of_false ?_ fun h => absurd h.1 (by omega)
      cases tagValue tag i (line :: lines) <;> simp [lookupResult]
    · rw [and_iff_right (show line.length ≤ 255 by omega), tagValue]
      split_ifs with hin
      · exact iff_of_true rfl (.inl hin)
      -- The tag runs over the end of the line; what is found behind it is somewhere else.
      refine iff_of_false ?_ fun h => (h.resolve_left hin).1 hhit
      cases hv : tagValue tag (i + line.length + 2) lines with
      | none => simp [lookupResult]
      | some v =>
        have hle := le_of_tagValue hv
        simp only [lookupResult, Except.ok.injEq]
        rintro rfl
        omega
    · have hin : ¬tag <+: line := fun hin => hhit (hin.trans (prefix_append _ _))
      rw [and_iff_right (show line.length ≤ 255 by omega), tagValue, if_neg hin,
        or_iff_right hin, and_iff_right hhit]
      exact ih _

end Walk

/-! ## The status -/

theorem strchr_append {c : UInt8} {pre : List UInt8} (hpre : Passes c pre) (post : List UInt8)
    (i : ℕ) : strchr c (pre ++ c :: post) i = some (i + pre.length) := by
  induction pre generalizing i with
  | nil => rw [nil_append, strchr, if_pos rfl, length_nil, Nat.add_zero]
  | cons b pre ih =>
    obtain ⟨⟨hc, hzero⟩, hrest⟩ := forall_mem_cons.mp hpre
    rw [cons_append, strchr, if_neg hc, if_neg hzero, ih hrest, length_cons]
    congr 1
    omega

theorem exists_of_strchr {c : UInt8} {s : List UInt8} {i j : ℕ} (h : strchr c s i = some j) :
    ∃ pre post, s = pre ++ c :: post ∧ Passes c pre ∧ j = i + pre.length := by
  induction s generalizing i with
  | nil => cases h
  | cons b s ih =>
    rw [strchr] at h
    split_ifs at h with hc hzero
    · cases h
      exact ⟨[], s, by rw [hc]; rfl, nofun, rfl⟩
    · obtain ⟨pre, post, rfl, hpre, rfl⟩ := ih h
      refine ⟨b :: pre, post, rfl, forall_mem_cons.mpr ⟨⟨hc, hzero⟩, hpre⟩, ?_⟩
      rw [length_cons]
      omega

/-- There is one text in front of the place where `strchr` stops. -/
theorem passes_unique {c : UInt8} {pre pre' post post' : List UInt8} (hpre : Passes c pre)
    (hpre' : Passes c pre') (h : pre ++ c :: post = pre' ++ c :: post') :
    pre = pre' ∧ post = post' := by
  have hfind := strchr_append hpre post 0
  rw [h, strchr_append hpre' post' 0, Option.some.injEq] at hfind
  obtain ⟨heq, htail⟩ := append_inj h (by omega)
  exact ⟨heq, (cons.inj htail).2⟩

/-- **The status is copied inside its array** exactly when it fits. -/
theorem httpProcessHeader_defined_iff (buf : List UInt8) (len : ℕ) :
    httpProcessHeader buf len ≠ .error .undefined ↔ StatusFits buf := by
  have hhttp : buf.take 4 = bytes "HTTP" ↔ bytes "HTTP" <+: buf := by
    rw [prefix_iff_eq_take]
    exact eq_comm
  rw [httpProcessHeader, StatusFits, ← hhttp]
  by_cases hstart : buf.take 4 = bytes "HTTP"
  swap
  · simp [hstart]
  rw [if_neg (not_not_intro hstart)]
  simp only [hstart, forall_const]
  cases hfirst : strchr 32 buf 0 with
  | none =>
    refine iff_of_false (by simp) ?_
    rintro ⟨pre, mid, post, rfl, hpre, -⟩
    rw [strchr_append hpre] at hfirst
    cases hfirst
  | some start =>
    obtain ⟨pre, tail, rfl, hpre, rfl⟩ := exists_of_strchr hfirst
    have hdrop : (pre ++ 32 :: tail).drop (0 + pre.length + 1) = tail := by
      rw [Nat.zero_add, ← drop_drop, drop_left]
      rfl
    simp only [hdrop]
    cases hsecond : strchr 32 tail (0 + pre.length + 1) with
    | none =>
      refine iff_of_false (by simp) ?_
      rintro ⟨pre', mid, post, heq, hpre', hmid, -⟩
      obtain ⟨rfl, rfl⟩ := passes_unique hpre hpre' heq
      rw [strchr_append hmid] at hsecond
      cases hsecond
    | some stop =>
      obtain ⟨mid, post, rfl, hmid, rfl⟩ := exists_of_strchr hsecond
      have hwidth : 8 ≤ 0 + pre.length + 1 + mid.length - (0 + pre.length) ↔
          ¬mid.length ≤ 6 := by omega
      simp only [hwidth]
      by_cases hle : mid.length ≤ 6
      · rw [if_neg (not_not_intro hle)]
        refine iff_of_true ?_ ⟨pre, mid, post, rfl, hpre, hmid, hle⟩
        cases headerEnd (pre ++ 32 :: (mid ++ 32 :: post)) len <;> simp
      rw [if_pos hle]
      refine iff_of_false (by simp) ?_
      rintro ⟨pre', mid', post', heq, hpre', hmid', hle'⟩
      obtain ⟨rfl, htail⟩ := passes_unique hpre hpre' heq
      obtain ⟨rfl, -⟩ := passes_unique hmid hmid' htail
      exact hle hle'

/-! ## The announced length -/

theorem tagText_eq_none_iff (tag : List UInt8) (lines : List (List UInt8)) :
    tagText tag lines = none ↔ ∀ line ∈ lines, ¬tag <+: line := by
  induction lines with
  | nil => simp [tagText]
  | cons line lines ih =>
    rw [tagText, forall_mem_cons]
    split_ifs with hhit
    · simp [hhit]
    · simp [hhit, ih]

/-- The value is what stands at its position. -/
theorem tagValue_of_tagText {buf rest tag text : List UInt8} {lines : List (List UInt8)} {i : ℕ}
    (hbuf : buf.drop i = wire lines ++ rest) (h : tagText tag lines = some text) :
    ∃ pos, tagValue tag i lines = some (pos, text.length) ∧
      (buf.drop pos).take text.length = text := by
  induction lines generalizing i with
  | nil => cases h
  | cons line lines ih =>
    rw [tagText] at h
    rw [wire, append_assoc, append_assoc] at hbuf
    rw [tagValue]
    by_cases hhit : tag <+: line
    · obtain ⟨value, rfl⟩ := hhit
      rw [if_pos (prefix_append _ _), drop_left] at h
      cases h
      refine ⟨i + tag.length, ?_, ?_⟩
      · rw [if_pos (prefix_append _ _), length_append, Nat.add_sub_cancel_left]
      · rw [← drop_drop, hbuf, append_assoc, drop_left, take_left]
    · rw [if_neg hhit] at h ⊢
      exact ih (drop_next hbuf) h

theorem atoi_eq_number_iff (s : List UInt8) :
    atoi s = number s ↔ -2147483648 ≤ number s ∧ number s ≤ 2147483647 := by
  have hneg : ∀ d : ℕ, max (-2147483648) (-(d : ℤ)) = -(d : ℤ) ↔
      -2147483648 ≤ -(d : ℤ) ∧ -(d : ℤ) ≤ 2147483647 := fun d => by omega
  have hpos : ∀ d : ℕ, min 2147483647 (d : ℤ) = (d : ℤ) ↔
      -2147483648 ≤ (d : ℤ) ∧ (d : ℤ) ≤ 2147483647 := fun d => by omega
  unfold atoi number
  generalize s.dropWhile isSpace = t
  rcases t with _ | ⟨b, digits⟩
  · exact hpos _
  by_cases hminus : b = 45
  · subst hminus
    exact hneg _
  by_cases hplus : b = 43
  · subst hplus
    exact hpos _
  -- without a sign both sides read the digits from the first byte on
  simp only [List.cons.injEq, hminus, hplus, false_and, imp_self, implies_true]
  exact hpos _

section FileSize

variable {buf : List UInt8} {len : ℕ}

theorem httpFileSize_of_failed (hget : httpGetTag buf len contentLength len 0 = .error .failed) :
    httpFileSize buf len = .ok (-1) := by
  unfold httpFileSize
  rw [← contentLength, hget]

theorem httpFileSize_of_undefined
    (hget : httpGetTag buf len contentLength len 0 = .error .undefined) :
    httpFileSize buf len = .error .undefined := by
  unfold httpFileSize
  rw [← contentLength, hget]

end FileSize

theorem httpFileSize_of_tagText {block : HeaderBlock} {rest text : List UInt8} {len : ℕ}
    (htext : tagText contentLength block.lines = some text)
    (hget : httpGetTag (block.bytes ++ rest) len contentLength len 0 =
      lookupResult (tagValue contentLength 0 block.lines)) :
    httpFileSize (block.bytes ++ rest) len =
      if 16 ≤ text.length then .error .undefined else .ok (atoi text) := by
  have hbuf : (block.bytes ++ rest).drop 0 = wire block.lines ++ rest := rfl
  obtain ⟨pos, hvalue, htake⟩ := tagValue_of_tagText hbuf htext
  rw [hvalue] at hget
  unfold httpFileSize
  rw [← contentLength, hget]
  simp only [lookupResult, htake]

theorem httpFileSize_of_absent {block : HeaderBlock} {rest : List UInt8} {len : ℕ}
    (htext : tagText contentLength block.lines = none)
    (hget : httpGetTag (block.bytes ++ rest) len contentLength len 0 =
      lookupResult (tagValue contentLength 0 block.lines)) :
    httpFileSize (block.bytes ++ rest) len = .ok (-1) := by
  rw [tagText_eq_none_iff, ← tagValue_eq_none_iff _ 0] at htext
  rw [htext] at hget
  exact httpFileSize_of_failed hget

/-! ## Header lookup -/

/-- **Header lookup.** For every header, with the length up to its last character or its end, the
lookups are right and stay inside their arrays exactly when: no line of one character stands in
front of the wanted one; the lines met have at most 255 characters; the tag is not met across the
end of a line; the announced length has at most 15 characters and is an `int`; and the status has at
most 6. -/
theorem header_lookup_iff (block : HeaderBlock) (rest tag : List UInt8) {len : ℕ}
    (hlen : block.bytes.length ≤ len + 1) (hend : len ≤ block.bytes.length) :
    LookupSound block rest tag len ↔
      WalkRight rest tag block.lines ∧ WalkRight rest contentLength block.lines ∧
      (∀ text, tagText contentLength block.lines = some text → ValueFits text) ∧
      StatusFits (block.bytes ++ rest) := by
  have hwalk : ∀ t, httpGetTag (block.bytes ++ rest) len t len 0 =
      lookupResult (tagValue t 0 block.lines) ↔ WalkRight rest t block.lines := by
    intro t
    rw [block.httpGetTag_eq rest t hlen hend]
    exact walk_eq_iff rest t 0 block.lines
  have hstatus := httpProcessHeader_defined_iff (block.bytes ++ rest) len
  constructor
  · intro h
    have hget := h.get_tag contentLength (by simp)
    refine ⟨(hwalk tag).mp (h.get_tag tag (by simp)), (hwalk contentLength).mp hget, ?_,
      hstatus.mp h.in_bounds.1⟩
    intro text htext
    have hsize := h.file_size text htext
    rw [httpFileSize_of_tagText htext hget] at hsize
    split_ifs at hsize with hlong
    exact ⟨by omega, (atoi_eq_number_iff text).mp (Except.ok.inj hsize)⟩
  · rintro ⟨htag, hcl, hfits, hstat⟩
    have hget := (hwalk contentLength).mpr hcl
    have hsize : ∀ text, tagText contentLength block.lines = some text →
        httpFileSize (block.bytes ++ rest) len = .ok (number text) := by
      intro text htext
      obtain ⟨hshort, hint⟩ := hfits text htext
      rw [httpFileSize_of_tagText htext hget, if_neg (by omega), (atoi_eq_number_iff text).mpr hint]
    refine ⟨?_, hsize, hstatus.mpr hstat, ?_⟩
    · intro t ht
      rcases mem_pair.mp ht with rfl | rfl
      · exact (hwalk t).mpr htag
      · exact hget
    · cases htext : tagText contentLength block.lines with
      | none =>
        rw [httpFileSize_of_absent htext hget]
        nofun
      | some text =>
        rw [hsize text htext]
        nofun

def HeaderBlock.ofLines (lines : List (List UInt8)) (hne : ∀ line ∈ lines, line ≠ [])
    (hcr : ∀ line ∈ lines, 13 ∉ line) : HeaderBlock where
  lines := lines
  ne_nil := hne
  no_crlf line hline hcrlf := hcr line hline (hcrlf.subset (by decide))

/-- A response with its length in the second line and a line of one character behind it. -/
def sampleBlock : HeaderBlock :=
  .ofLines [bytes "HTTP/1.1 200 OK", bytes "Content-Length: 5000", bytes "X"]
    (by decide +kernel) (by decide +kernel)

/-- The same response with the line of one character in front. -/
def shortLineBlock : HeaderBlock :=
  .ofLines [bytes "HTTP/1.1 200 OK", bytes "X", bytes "Content-Length: 5000"]
    (by decide +kernel) (by decide +kernel)

/-- A response with a line of 256 characters. -/
def longLineBlock : HeaderBlock :=
  .ofLines [bytes "HTTP/1.1 200 OK", replicate 256 65, bytes "Content-Length: 5000"]
    (by decide +kernel) (by decide +kernel)

/-- The condition holds of `sampleBlock` with `http_recv_rsp`'s length. -/
theorem header_lookup_sample :
    sampleBlock.bytes.length ≤ 43 + 1 ∧ 43 ≤ sampleBlock.bytes.length ∧
      LookupSound sampleBlock [] contentLength 43 := by
  have hlen : sampleBlock.bytes.length ≤ 43 + 1 := by decide +kernel
  have hend : 43 ≤ sampleBlock.bytes.length := by decide +kernel
  refine ⟨hlen, hend, (header_lookup_iff sampleBlock [] contentLength hlen hend).mpr ?_⟩
  have hwalk : WalkRight [] contentLength sampleBlock.lines :=
    ⟨by decide +kernel, .inr ⟨by decide +kernel, by decide +kernel, .inl (by decide +kernel)⟩⟩
  refine ⟨hwalk, hwalk, ?_, ?_⟩
  · intro text htext
    have hvalue : tagText contentLength sampleBlock.lines = some (bytes " 5000") := by
      decide +kernel
    rw [hvalue, Option.some.injEq] at htext
    subst htext
    exact ⟨by decide +kernel, by decide +kernel, by decide +kernel⟩
  · intro _
    exact ⟨bytes "HTTP/1.1", bytes "200", _, rfl, by unfold Passes; decide +kernel,
      by unfold Passes; decide +kernel, by decide +kernel⟩

/-- **A short line hides the length.** Behind a line of one character the announced length is not
found; and a line of 256 characters is copied past the end of `tmp`. -/
theorem length_hidden_and_overrun :
    tagText contentLength shortLineBlock.lines = some (bytes " 5000") ∧
    httpFileSize shortLineBlock.bytes 43 = .ok (-1) ∧
    httpFileSize longLineBlock.bytes 298 = .error .undefined ∧
    ¬LookupSound shortLineBlock [] contentLength 43 ∧
    ¬LookupSound longLineBlock [] contentLength 298 := by
  have hhidden : httpGetTag shortLineBlock.bytes 43 contentLength 43 0 = .error .failed := by
    rw [← append_nil shortLineBlock.bytes,
      shortLineBlock.httpGetTag_eq [] contentLength (by decide +kernel) (by decide +kernel)]
    decide +kernel
  have hoverrun : httpGetTag longLineBlock.bytes 298 contentLength 298 0 =
      .error .undefined := by
    rw [← append_nil longLineBlock.bytes,
      longLineBlock.httpGetTag_eq [] contentLength (by decide +kernel) (by decide +kernel)]
    decide +kernel
  have hvalue : tagText contentLength shortLineBlock.lines = some (bytes " 5000") := by
    decide +kernel
  have hminus := httpFileSize_of_failed hhidden
  have hfault := httpFileSize_of_undefined hoverrun
  refine ⟨hvalue, hminus, hfault, fun h => ?_, fun h => ?_⟩
  · have hsize := h.file_size _ hvalue
    revert hsize
    decide +kernel
  · exact h.in_bounds.2 (by rw [append_nil]; exact hfault)

end WiseSdk.Ota
