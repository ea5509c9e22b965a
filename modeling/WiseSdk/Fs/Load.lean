import WiseSdk.Flash.Update

/-!
# Loading a file over Y-modem

`scm_fs_load` (`api/scm_fs.c`) writes what the modem delivers to a file.  As in `flash update`, one
variable `err` without an initial value holds the outcome: every block clears it, also the error of
the read that has delivered the block, and a time-out after a multiple of 1024 bytes counts as the
end.  Of a write only a negative result is looked at, so a short one goes unnoticed.
-/

namespace WiseSdk.Fs

open Library List
open Flash (ModemError)

/-- A block of `xyzModem_stream_read` with the error that the call may store, and what its `write`
returns: how many bytes the file took, or an error. -/
structure LoadBlock where
  bytes : List Byte
  err : Option ModemError
  rc : Option ℕ
  pos : 0 < bytes.length
  le : bytes.length ≤ 1024
  rc_le : ∀ n ∈ rc, n ≤ bytes.length

/-- What comes from outside. -/
structure Load where
  /-- The name starts with `/`, the file can be opened and the buffer allocated. -/
  starts : Bool
  /-- The value of `err` before anything is stored in it. -/
  garbage : ℤ
  /-- `xyzModem_stream_open` fails with an error. -/
  opened : Option ModemError
  blocks : List LoadBlock
  /-- The error of the read that delivers nothing; none at the end of the transfer. -/
  last : Option ModemError

/-- The `while` loop: the file, `size` and `err`, with an error at the jump to `out`. What the read
has stored in `err` is overwritten on both ways. -/
def loadLoop : List LoadBlock → List Byte × ℕ × ℤ → Except (List Byte) (List Byte × ℕ × ℤ)
  | [], st => .ok st
  | b :: bs, (file, size, _) =>
    match b.rc with
    | none => .error file
    | some n => loadLoop bs (file ++ b.bytes.take n, size + b.bytes.length, 0)

/-- `scm_fs_load`: the return value, and the file. -/
def scmFsLoad (l : Load) : ℤ × List Byte :=
  if l.starts = false then (-1, [])
  else if l.opened ≠ none then (1, [])
  else
    match loadLoop l.blocks ([], 0, l.garbage) with
    | .error file => (1, file)
    | .ok (file, size, err) =>
      let err := l.last.elim err ModemError.code
      if err = ModemError.timeout.code ∧ size % 1024 = 0 ∨ err = 0 then (0, file) else (1, file)

def received (blocks : List LoadBlock) : List Byte := blocks.flatMap LoadBlock.bytes

/-- **A load reports the truth**: 0 means that no read had an error, and the file is all of the
transfer. -/
def ReportsTruth (l : Load) : Prop :=
  (scmFsLoad l).1 = 0 →
    (l.last = none ∧ ∀ b ∈ l.blocks, b.err = none) ∧ (scmFsLoad l).2 = received l.blocks

/-- In a load that starts and in which no write fails, a transfer whose last read has no error has
none in the others and no short write, and none times out after a multiple of 1024 bytes. -/
def LoadSafe (l : Load) : Prop :=
  l.starts = true → l.opened = none → (∀ b ∈ l.blocks, b.rc ≠ none) →
    (l.last = none → (∀ b ∈ l.blocks, b.err = none) ∧
      ∀ b ∈ l.blocks, b.rc = some b.bytes.length) ∧
      ¬(l.last = some .timeout ∧ (received l.blocks).length % 1024 = 0)

def stored (blocks : List LoadBlock) : List Byte :=
  blocks.flatMap fun b => b.bytes.take (b.rc.getD 0)

theorem loadLoop_ok {blocks : List LoadBlock} (h : ∀ b ∈ blocks, b.rc ≠ none) (file : List Byte)
    (size : ℕ) (err : ℤ) :
    loadLoop blocks (file, size, err) = .ok (file ++ stored blocks,
      size + (received blocks).length, if blocks = [] then err else 0) := by
  induction blocks generalizing file size err with
  | nil => simp [loadLoop, stored, received]
  | cons b bs ih =>
    obtain ⟨hb, hbs⟩ := forall_mem_cons.mp h
    obtain ⟨n, hn⟩ := Option.ne_none_iff_exists'.mp hb
    simp only [loadLoop, hn, ih hbs, ite_self]
    simp [stored, received, hn, Nat.add_assoc]

theorem loadLoop_error {blocks : List LoadBlock} (h : ¬∀ b ∈ blocks, b.rc ≠ none)
    (st : List Byte × ℕ × ℤ) : ∃ file, loadLoop blocks st = .error file := by
  induction blocks generalizing st with
  | nil => simp at h
  | cons b bs ih =>
    obtain ⟨file, size, err⟩ := st
    cases hn : b.rc with
    | none => exact ⟨file, by simp only [loadLoop, hn]⟩
    | some n =>
      simp only [loadLoop, hn]
      refine ih (fun hbs => h (forall_mem_cons.mpr ⟨?_, hbs⟩)) _
      rw [hn]
      exact Option.some_ne_none n

theorem stored_cons (b : LoadBlock) (bs : List LoadBlock) :
    stored (b :: bs) = b.bytes.take (b.rc.getD 0) ++ stored bs := rfl

theorem received_cons (b : LoadBlock) (bs : List LoadBlock) :
    received (b :: bs) = b.bytes ++ received bs := rfl

theorem length_stored_le (blocks : List LoadBlock) :
    (stored blocks).length ≤ (received blocks).length := by
  induction blocks with
  | nil => exact le_rfl
  | cons b bs ih =>
    rw [stored_cons, received_cons, length_append, length_append]
    exact Nat.add_le_add (length_take_le' _ _) ih

/-- The file is all of the transfer only if no write was short. -/
theorem stored_eq_iff {blocks : List LoadBlock} (h : ∀ b ∈ blocks, b.rc ≠ none) :
    stored blocks = received blocks ↔ ∀ b ∈ blocks, b.rc = some b.bytes.length := by
  induction blocks with
  | nil => simp [stored, received]
  | cons b bs ih =>
    obtain ⟨hb, hbs⟩ := forall_mem_cons.mp h
    obtain ⟨n, hn⟩ := Option.ne_none_iff_exists'.mp hb
    have hle := b.rc_le n hn
    have htail := length_stored_le bs
    rw [forall_mem_cons, ← ih hbs, stored_cons, received_cons, hn, Option.some.injEq,
      Option.getD_some]
    constructor
    · intro heq
      have hlen := congrArg length heq
      rw [length_append, length_append, length_take, min_eq_left hle] at hlen
      obtain rfl : n = b.bytes.length := by omega
      exact ⟨rfl, (append_inj heq (by rw [take_length])).2⟩
    · rintro ⟨rfl, heq⟩
      rw [take_length]
      exact congrArg (b.bytes ++ ·) heq

/-- **When a load reports the truth.** -/
theorem load_truth_iff (l : Load) : ReportsTruth l ↔ LoadSafe l := by
  rw [ReportsTruth, LoadSafe, scmFsLoad]
  cases l.starts with
  | false => simp
  | true =>
    by_cases hopened : l.opened = none
    · by_cases hrc : ∀ b ∈ l.blocks, b.rc ≠ none
      · rw [loadLoop_ok hrc, forall_prop_of_true hrc, ← stored_eq_iff hrc]
        cases hlast : l.last with
        | none =>
          by_cases hnil : l.blocks = []
          · simp only [hnil, hopened]
            split_ifs <;> simp [stored, received]
          · simp [hnil, hopened]
        | some e => cases e <;> simp [hopened, ModemError.code, apply_ite Prod.fst]
      · obtain ⟨file, herror⟩ := loadLoop_error hrc ([], 0, l.garbage)
        exact iff_of_true (by simp [herror, hopened]) fun _ _ h => absurd h hrc
    · simp [hopened]

def shortLoad : Load where
  starts := true
  garbage := 0
  opened := none
  blocks := [⟨replicate 20 0, none, some 10, by decide, by decide, by decide⟩]
  last := none

/-- Half of the file is missing, and the load returns 0. -/
theorem load_hides_short_write :
    scmFsLoad shortLoad = (0, replicate 10 0) ∧ ¬ReportsTruth shortLoad := by
  have hload : scmFsLoad shortLoad = (0, replicate 10 0) := by decide
  refine ⟨hload, fun h => ?_⟩
  have hfile := (h (congrArg Prod.fst hload)).2
  exact absurd hfile (by decide)

end WiseSdk.Fs
