import WiseSdk.Fs.Config

/-!
# Configuration values that share a file

The file of a namespace and a key is their text joined by `_`, which both may contain, cut at 127
bytes. Two pairs whose texts agree so far have one file, and a write of one is read as the other.
SPIFFS does not open a file whose name has CONFIG_SPIFFS_OBJ_NAME_LEN bytes.

The calls look a file up by its whole name, so the files are a map here.
-/

namespace WiseSdk.Fs.Entries

open Library Function

/-- The content of the file of each name. -/
abbrev Files := List Byte → Option (List Byte)

structure Pair where
  ns : List Byte
  key : List Byte
deriving DecidableEq

/-- `snprintf(path, sizeof(path), CONFIG_DIR "/%s_%s", ns, key)`. -/
def Pair.path (p : Pair) : List Byte := snprintfPath (configName p.ns p.key)

/-- What the path has of the pair. -/
def Pair.text (p : Pair) : List Byte := (p.ns ++ chr '_' :: p.key).take 119

/-- A call that may change a file, with what the file system does: the bytes that are written, or
nothing if the file cannot be opened; and whether it is removed. -/
inductive Call where
  | write (p : Pair) (buf : List Byte) (written : Option ℕ)
  | remove (p : Pair) (done : Bool)

def Call.pair : Call → Pair
  | .write p _ _ => p
  | .remove p _ => p

variable (nameLen : ℕ)

/-- `scm_fs_write_config_value`. -/
def scmFsWriteConfigValue (files : Files) (p : Pair) (buf : List Byte) : Option ℕ → Files
  | none => files
  | some n =>
    if buf ≠ [] ∧ p.path.length < nameLen then update files p.path (some (buf.take n)) else files

/-- `scm_fs_remove_config_value`. -/
def scmFsRemoveConfigValue (files : Files) (p : Pair) (done : Bool) : Files :=
  if done ∧ p.path.length < nameLen then update files p.path none else files

def step (files : Files) : Call → Files
  | .write p buf written => scmFsWriteConfigValue nameLen files p buf written
  | .remove p done => scmFsRemoveConfigValue nameLen files p done

/-- `scm_fs_read_config_value`. -/
def scmFsReadConfigValue (files : Files) (p : Pair) (len : ℕ) : Option (List Byte) :=
  if p.path.length < nameLen ∧ len ≠ 0 then (files p.path).map (List.take len) else none

/-- `scm_fs_exists_config_value`. -/
def scmFsExistsConfigValue (files : Files) (p : Pair) : Bool :=
  p.path.length < nameLen ∧ (files p.path).isSome

/-- **Entries do not interfere**: whatever is written and removed, a pair of the set is read as if
only the calls on this pair had been made. -/
def Apart (S : Set Pair) : Prop :=
  ∀ q ∈ S, ∀ (files : Files) (calls : List Call), (∀ c ∈ calls, c.pair ∈ S) →
    let all := calls.foldl (step nameLen) files
    let own := (calls.filter fun c => c.pair = q).foldl (step nameLen) files
    (∀ len, scmFsReadConfigValue nameLen all q len = scmFsReadConfigValue nameLen own q len) ∧
      scmFsExistsConfigValue nameLen all q = scmFsExistsConfigValue nameLen own q

theorem step_cases (c : Call) :
    (∀ files, step nameLen files c = files) ∨ c.pair.path.length < nameLen ∧
      ∃ v, ∀ files, step nameLen files c = update files c.pair.path v := by
  cases c with
  | write p buf written =>
    cases written with
    | none => exact .inl fun _ => rfl
    | some n =>
      by_cases h : buf ≠ [] ∧ p.path.length < nameLen
      · exact .inr ⟨h.2, _, fun _ => if_pos h⟩
      · exact .inl fun _ => if_neg h
  | remove p done =>
    by_cases h : done ∧ p.path.length < nameLen
    · exact .inr ⟨h.2, _, fun _ => if_pos h⟩
    · exact .inl fun _ => if_neg h

theorem path_eq (p : Pair) : p.path = configDir ++ chr '/' :: p.text := by
  simp [Pair.path, Pair.text, snprintfPath, configName, configDir, configPathMax]

variable {nameLen} {files files' : Files}

/-- The calls on other pairs do not touch the file. -/
theorem foldl_apart {q : Pair} {calls : List Call}
    (h : ∀ c ∈ calls, c.pair ≠ q → c.pair.path.length < nameLen → c.pair.path ≠ q.path)
    (hfiles : files q.path = files' q.path) :
    calls.foldl (step nameLen) files q.path =
      (calls.filter fun c => c.pair = q).foldl (step nameLen) files' q.path := by
  induction calls generalizing files files' with
  | nil => exact hfiles
  | cons c calls ih =>
    have hrest := fun d hd => h d (List.mem_cons_of_mem c hd)
    by_cases hc : c.pair = q
    · rw [List.filter_cons_of_pos (by simpa using hc)]
      refine ih hrest ?_
      rcases step_cases nameLen c with hstep | ⟨-, v, hstep⟩
      · rw [hstep, hstep, hfiles]
      · rw [hstep, hstep, update_apply, update_apply, hfiles]
    · rw [List.filter_cons_of_neg (by simpa using hc)]
      refine ih hrest (Eq.trans ?_ hfiles)
      rcases step_cases nameLen c with hstep | ⟨hopen, v, hstep⟩
      · rw [hstep]
      · rw [hstep, update_of_ne (h c List.mem_cons_self hc hopen).symm]

/-- **Configuration entries.** The entries of a set of pairs do not interfere if and only if no two
of them agree in the first 119 bytes of `ns_key` and have a name that can be opened. -/
theorem entries_apart_iff (nameLen : ℕ) (S : Set Pair) :
    Apart nameLen S ↔ ∀ p ∈ S, ∀ q ∈ S, p ≠ q → p.path.length < nameLen → p.text ≠ q.text := by
  have hpath : ∀ p q : Pair, p.path = q.path ↔ p.text = q.text := fun p q => by simp [path_eq]
  constructor
  · intro h p hp q hq hne hlen htext
    rw [← hpath] at htext
    -- A value is written for the one pair, and exists for the other.
    have hexists := (h q hq (fun _ => none) [.write p [0] (some 1)] (by simpa [Call.pair])).2
    simp [scmFsExistsConfigValue, step, scmFsWriteConfigValue, Call.pair, hne, htext,
      htext ▸ hlen] at hexists
  · intro h q hq files calls hcalls
    have hsame := foldl_apart (fun c hc hne hlen => mt (hpath c.pair q).mp
      (h c.pair (hcalls c hc) q hq hne hlen)) (Eq.refl (files q.path))
    simp only [scmFsReadConfigValue, scmFsExistsConfigValue, hsame, implies_true, and_self]

/-- `a_b` with key `c`, and `a` with key `b_c`: the value written as the one exists as the other. -/
theorem entries_meet :
    let p : Pair := ⟨[chr 'a', chr '_', chr 'b'], [chr 'c']⟩
    let q : Pair := ⟨[chr 'a'], [chr 'b', chr '_', chr 'c']⟩
    p ≠ q ∧ scmFsExistsConfigValue 64 (fun _ => none) q = false ∧
      scmFsExistsConfigValue 64 (step 64 (fun _ => none) (.write p [1] (some 1))) q = true := by
  decide

end WiseSdk.Fs.Entries
