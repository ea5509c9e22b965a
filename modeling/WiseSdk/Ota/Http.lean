import Mathlib.Data.Int.Notation
import Mathlib.Data.List.Basic

/-!
# The response header of the update agent

`lib/scm_mcuboot/update_agent/mcuboot_agent.c` reads the header of the server's response from
the first buffer it receives: the status code between the first two blanks, the end of the
header, and the value of the first line that starts with `Content-Length:`.  Three pieces of
it are copied to arrays on the stack without a check of their length.  A copy past the end of
an array, and a search past the end of the buffer, are undefined.
-/

namespace WiseSdk.Ota

/-- Why a function of the agent has no result: it returned an error, or what it does is
undefined. -/
inductive Fault where
  | failed
  | undefined
  deriving DecidableEq, Repr

/-! ## The C library -/

def bytes (s : String) : List UInt8 := s.toList.map fun c => UInt8.ofNat c.toNat

/-- `strchr` from index `i` on; `none` if a NUL or the end of the buffer comes first. -/
def strchr (c : UInt8) : List UInt8 → ℕ → Option ℕ
  | [], _ => none
  | b :: bs, i => if b = c then some i else if b = 0 then none else strchr c bs (i + 1)

def isSpace (b : UInt8) : Bool := b == 32 || (9 ≤ b && b ≤ 13)

def decimal (s : List UInt8) : ℕ :=
  (s.takeWhile fun b => 48 ≤ b && b ≤ 57).foldl (fun n b => 10 * n + (b.toNat - 48)) 0

/-- `atoi`, which stays within 32 bits as `strtol` does. -/
def atoi (s : List UInt8) : ℤ :=
  match s.dropWhile isSpace with
  | 45 :: digits => max (-2147483648) (-(decimal digits : ℤ))
  | 43 :: digits => min 2147483647 (decimal digits)
  | digits => min 2147483647 (decimal digits)

/-! ## The header -/

def maxBufLen : ℕ := 2048

/-- The index of the last character of the blank line that ends the header. -/
def headerEnd (buf : List UInt8) (len : ℕ) : Option ℕ :=
  (List.range len).find? fun i =>
    decide (4 ≤ i) && decide ((buf.drop (i - 3)).take 4 = bytes "\r\n\r\n")

/-- `http_process_header`: the index of the end of the header and the status. -/
def httpProcessHeader (buf : List UInt8) (len : ℕ) : Except Fault (ℕ × ℤ) :=
  if buf.take 4 ≠ bytes "HTTP" then .error .failed
  else
    match strchr 32 buf 0 with
    | none => .error .undefined
    | some start =>
      match strchr 32 (buf.drop (start + 1)) (start + 1) with
      | none => .error .undefined
      | some stop =>
        -- The status and a NUL are copied to `status_str[8]`.
        if 8 ≤ stop - start then .error .undefined
        else
          match headerEnd buf len with
          | none => .error .failed
          | some hdrLen => .ok (hdrLen, atoi ((buf.drop start).take (stop - start)))

/-- The index at which the inner loop of `http_get_tag` leaves a line that starts at `i`. -/
def lineEnd (buf : List UInt8) (len i : ℕ) : ℕ :=
  ((List.range len).find? fun j =>
    decide (i < j) && decide ((buf.drop (j - 1)).take 2 = bytes "\r\n")).getD len

/-- `http_get_tag` from index `i` on: position and length of the tag's value. A line takes one unit
of fuel. -/
def httpGetTag (buf : List UInt8) (len : ℕ) (tag : List UInt8) :
    ℕ → ℕ → Except Fault (ℕ × ℕ)
  | 0, _ => .error .failed
  | fuel + 1, i =>
    if len ≤ i then .error .failed
    else
      let stop := lineEnd buf len i
      if stop - i = 2 then .error .failed
      -- The line and a NUL are copied to `tmp[256]`.
      else if 256 < stop - i then .error .undefined
      else if tag.isPrefixOf (buf.drop i) then
        .ok (i + tag.length, stop - i - 1 - tag.length)
      else httpGetTag buf len tag fuel (stop + 1)

/-- `http_file_size`; -1 if there is no such line. -/
def httpFileSize (buf : List UInt8) (len : ℕ) : Except Fault ℤ :=
  match httpGetTag buf len (bytes "Content-Length:") len 0 with
  | .error .failed => .ok (-1)
  | .error .undefined => .error .undefined
  | .ok (pos, tagLen) =>
    -- The value and a NUL are copied to `line[16]`.
    if 16 ≤ tagLen then .error .undefined
    else .ok (atoi ((buf.drop pos).take tagLen))

/-- The header in the first buffer of `http_recv_rsp`: the index of its end and the announced
length. -/
def readHeader (buf : List UInt8) (len : ℕ) : Except Fault (ℕ × ℤ) :=
  match httpProcessHeader buf len with
  | .error fault => .error fault
  | .ok (hdrLen, status) =>
    if status ≠ 200 then .error .failed
    else
      match httpFileSize buf hdrLen with
      | .error fault => .error fault
      | .ok fileSize => if fileSize = 0 then .error .failed else .ok (hdrLen, fileSize)

variable {len hdrLen i fuel : ℕ}

theorem lt_lineEnd (buf : List UInt8) (h : i < len) : i < lineEnd buf len i := by
  unfold lineEnd
  cases hfind : (List.range len).find? _ with
  | none => exact h
  | some j =>
    have hj := List.find?_some hfind
    simp only [Bool.and_eq_true, decide_eq_true_eq] at hj
    exact hj.1

/-- The fuel of `http_get_tag` does not run out: every line moves the index on. -/
theorem httpGetTag_fuel (buf : List UInt8) (len : ℕ) (tag : List UInt8) (h : len ≤ i + fuel) :
    httpGetTag buf len tag (fuel + 1) i = httpGetTag buf len tag fuel i := by
  induction fuel generalizing i with
  | zero => rw [httpGetTag, httpGetTag, if_pos (by omega)]
  | succ fuel ih =>
    rcases Nat.lt_or_ge i len with hlt | hge
    · have hstop := lt_lineEnd buf hlt
      have hrest := ih (i := lineEnd buf len i + 1) (by omega)
      rw [httpGetTag, httpGetTag]
      simp only [hrest]
    · rw [httpGetTag, httpGetTag, if_pos hge, if_pos hge]

variable {buf : List UInt8}

theorem headerEnd_lt (h : headerEnd buf len = some i) : i < len :=
  List.mem_range.mp (List.mem_of_find?_eq_some h)

theorem lt_of_httpProcessHeader {status : ℤ} (h : httpProcessHeader buf len = .ok (hdrLen, status))
    : hdrLen < len := by
  unfold httpProcessHeader at h
  split_ifs at h
  split at h
  · cases h
  split at h
  · cases h
  split_ifs at h
  split at h
  · cases h
  · next hend =>
    cases h
    exact headerEnd_lt hend

theorem readHeader_ok {fileSize : ℤ} (h : readHeader buf len = .ok (hdrLen, fileSize))
    : hdrLen < len ∧ fileSize ≠ 0 := by
  unfold readHeader at h
  split at h
  · cases h
  next hproc =>
    split_ifs at h
    split at h
    · cases h
    next hsize =>
      split_ifs at h with hzero
      cases h
      exact ⟨lt_of_httpProcessHeader hproc, hzero⟩

end WiseSdk.Ota
