import WiseSdk.Library.Runs

/-!
# The file descriptor table

`patch_os_open` and `patch_os_close` of `hal/fs/patch/vfsp.c`, over the table `vfs_fds_x` of
`CONFIG_VFS_MAX_FDS` slots. An open reserves a slot, asks the filesystem and the driver, and
installs the file or frees the slot again. What they answer is an argument of the call
(`OpenOutcome`), as is the answer of a file's `release`.

Every access to the table goes through `readSlot` and `writeSlot`, which have no result outside it.
Two accesses can fall outside. The scan of `patch_vfs_get_free_fd` sets its result to the loop
counter, so a full table gives the number of slots and not `-ENFILE`; and `patch_vfs_fd_to_file`
accepts numbers up to twice that many.
-/

namespace WiseSdk.Vfs

open Library List

/-! ## The source's functions -/

/-- A slot of `vfs_fds_x`: `NULL`, the address of `vfs_res`, or a file. -/
inductive Slot where
  | free
  | reserved
  | file (f : ℕ)
  deriving DecidableEq, Repr

def readSlot (t : List Slot) (i : ℕ) : Option Slot := t[i]?

def writeSlot (t : List Slot) (i : ℕ) (s : Slot) : Option (List Slot) :=
  if i < t.length then some (t.set i s) else none

/-- `patch_vfs_get_free_fd` reserves the first free slot; without one the counter runs to the number
of slots. -/
def vfsGetFreeFd (t : List Slot) : ℕ × List Slot :=
  match t.findIdx? (· = .free) with
  | some i => (i, t.set i .reserved)
  | none => (t.length, t)

def vfsFreeFd (t : List Slot) (fd : ℕ) : Option (List Slot) := writeSlot t fd .free

def vfsInstallFd (t : List Slot) (fd f : ℕ) : Option (List Slot) := writeSlot t fd (.file f)

/-- `patch_vfs_fd_to_file`: the slot, or `NULL` for a number out of its bounds. -/
def vfsFdToFile (t : List Slot) (fd : ℤ) : Option Slot :=
  if fd < 0 ∨ (t.length * 2 : ℕ) ≤ fd then some .free else readSlot t fd.toNat

/-- A return value and what was stored to `errno`, if anything. -/
structure Ret where
  value : ℤ
  errno : Option ℤ
  deriving DecidableEq, Repr

def enoent : ℤ := 2
def ebadf : ℤ := 9

/-- What an open meets: whether the path has a filesystem, what `fs->open` returns and provides, and
what the file's own `open` returns, if it has one. -/
structure OpenOutcome where
  hasFs : Bool
  fsOpen : ℤ
  file : Option ℕ
  driverOpen : Option ℤ
  deriving DecidableEq, Repr

/-- The file that an open installs, or the `errno` it fails with. -/
def OpenOutcome.result (o : OpenOutcome) : Except ℤ ℕ :=
  if !o.hasFs then .error enoent
  else
    match o.file with
    | none => .error (-o.fsOpen)
    | some f =>
      if o.fsOpen < 0 then .error (-o.fsOpen)
      else
        match o.driverOpen with
        | some ret => if ret < 0 then .error (-ret) else .ok f
        | none => .ok f

/-- `patch_os_open`. The scan's number is never negative: the first exit is not taken, every later
one frees the slot. -/
def osOpen (t : List Slot) (o : OpenOutcome) : Option (Ret × List Slot) :=
  let (fd, t) := vfsGetFreeFd t
  match o.result with
  | .ok f => (vfsInstallFd t fd f).map fun t => (⟨fd, none⟩, t)
  | .error e => (vfsFreeFd t fd).map fun t => (⟨-1, some e⟩, t)

/-- What a close returns; `release` is what the file's `release` returned, if it has one. -/
def closeRet (release : Option ℤ) : Ret :=
  let ret := release.getD 0
  if ret < 0 then ⟨-1, some (-ret)⟩ else ⟨ret, none⟩

def osClose (t : List Slot) (fd : ℤ) (release : Option ℤ) : Option (Ret × List Slot) :=
  (vfsFdToFile t fd).bind fun slot =>
    if slot = .free then some (⟨-1, some ebadf⟩, t)
    else (vfsFreeFd t fd.toNat).map fun t => (closeRet release, t)

inductive VfsCall where
  | opening (o : OpenOutcome)
  | closing (fd : ℤ) (release : Option ℤ)
  deriving DecidableEq, Repr

def vfsCall (t : List Slot) : VfsCall → Option (Ret × List Slot)
  | .opening o => osOpen t o
  | .closing fd release => osClose t fd release

def vfsStep (t : List Slot) (call : VfsCall) : Option (List Slot) :=
  (vfsCall t call).map Prod.snd

/-! ## What a call should do -/

def IsOpen (t : List Slot) (fd : ℤ) : Prop := 0 ≤ fd ∧ ∃ f, t[fd.toNat]? = some (.file f)

def openSlots (t : List Slot) : List Slot := t.filter (· ≠ .free)

/-- **A sound call**, in a table of `n` slots. All accesses are in range, and at most `n` slots are
in use after it. An open returns `-1` and leaves the table alone, or returns a number below `n` that
was not open and opens it; with `n` slots in use it returns `-1`. A close of a number that is not
open returns `-1` and leaves the table alone; another frees its slot. -/
def CallSound (n : ℕ) (t : List Slot) (call : VfsCall) : Prop :=
  ∃ ret t', vfsCall t call = some (ret, t') ∧ (openSlots t').length ≤ n ∧
    match call with
    | .opening _ =>
      (ret.value = -1 ∧ t' = t ∨
        ∃ (fd : ℕ) (f : ℕ), ret.value = fd ∧ fd < n ∧ ¬IsOpen t fd ∧ t' = t.set fd (.file f)) ∧
      ((openSlots t).length = n → ret.value = -1)
    | .closing fd _ =>
      (¬IsOpen t fd → ret.value = -1 ∧ t' = t) ∧ (IsOpen t fd → t' = t.set fd.toNat .free)

/-- An open finds a free slot, and a close gets no number from `n` on that the range check lets
through. -/
def InBounds (n : ℕ) (t : List Slot) : VfsCall → Prop
  | .opening _ => (openSlots t).length < n
  | .closing fd _ => ¬((n : ℤ) ≤ fd ∧ fd < 2 * n)

instance (n : ℕ) (t : List Slot) (call : VfsCall) : Decidable (InBounds n t call) :=
  match call with
  | .opening _ => inferInstanceAs (Decidable (_ < _))
  | .closing _ _ => inferInstanceAs (Decidable (¬(_ ∧ _)))

/-- Between calls no slot is reserved. -/
structure TableOk (n : ℕ) (t : List Slot) : Prop where
  length : t.length = n
  settled : Slot.reserved ∉ t

section Calls

variable {n : ℕ} {t t' : List Slot}

/-- Fewer slots in use than there are: the scan finds one. -/
theorem openSlots_lt_iff : (openSlots t).length < t.length ↔ ∃ s ∈ t, s = Slot.free := by
  rw [openSlots, length_filter_lt_length_iff_exists]
  simp

theorem openSlots_le (h : t.length = n) (i : ℕ) (s : Slot) :
    (openSlots (t.set i s)).length ≤ n := by
  have hle : (openSlots (t.set i s)).length ≤ (t.set i s).length := length_filter_le _ _
  rwa [length_set, h] at hle

theorem vfsGetFreeFd_of_lt (h : (openSlots t).length < t.length) :
    ∃ i, vfsGetFreeFd t = (i, t.set i .reserved) ∧ i < t.length ∧ t[i]? = some Slot.free := by
  obtain ⟨s, hs, hfree⟩ := openSlots_lt_iff.mp h
  have hsome : (t.findIdx? (· = Slot.free)).isSome := by
    rw [findIdx?_isSome, any_eq_true]
    exact ⟨s, hs, by simpa using hfree⟩
  obtain ⟨i, hi⟩ := Option.isSome_iff_exists.mp hsome
  obtain ⟨hlt, hget, -⟩ := findIdx?_eq_some_iff_getElem.mp hi
  refine ⟨i, by rw [vfsGetFreeFd, hi], hlt, ?_⟩
  rw [getElem?_eq_getElem hlt]
  simpa using hget

theorem vfsGetFreeFd_of_full (h : ¬(openSlots t).length < t.length) :
    vfsGetFreeFd t = (t.length, t) := by
  have hnone : t.findIdx? (· = Slot.free) = none := by
    rw [findIdx?_eq_none_iff]
    intro s hs
    simpa using fun hfree => h (openSlots_lt_iff.mpr ⟨s, hs, hfree⟩)
  rw [vfsGetFreeFd, hnone]

/-- **Opens.** An open is sound if and only if there is a free slot: in a full table it writes
behind the last. -/
theorem callSound_open_iff (h : TableOk n t) (o : OpenOutcome) :
    CallSound n t (.opening o) ↔ (openSlots t).length < n := by
  by_cases hroom : (openSlots t).length < t.length
  · refine iff_of_true ?_ (h.length ▸ hroom)
    obtain ⟨i, hscan, hi, hfree⟩ := vfsGetFreeFd_of_lt hroom
    have hopen : ¬IsOpen t i := by
      rintro ⟨-, f, hf⟩
      rw [Int.toNat_natCast, hfree] at hf
      cases hf
    have hfull : ∀ v : ℤ, (openSlots t).length = n → v = -1 := fun v heq => by
      rw [h.length] at hroom
      omega
    cases hres : o.result with
    | ok f =>
      refine ⟨⟨i, none⟩, t.set i (.file f), ?_, openSlots_le h.length _ _,
        .inr ⟨i, f, rfl, h.length ▸ hi, hopen, rfl⟩, hfull _⟩
      simp [vfsCall, osOpen, hscan, hres, vfsInstallFd, writeSlot, hi]
    | error e =>
      have hback : t.set i .free = t := by
        obtain ⟨hlt, hget⟩ := List.getElem?_eq_some_iff.mp hfree
        rw [← hget, set_getElem_self]
      refine ⟨⟨-1, some e⟩, t, ?_, ?_, .inl ⟨rfl, rfl⟩, fun _ => rfl⟩
      · simp [vfsCall, osOpen, hscan, hres, vfsFreeFd, writeSlot, hi, hback]
      · exact h.length ▸ length_filter_le _ _
  · refine iff_of_false ?_ (h.length ▸ hroom)
    rintro ⟨ret, t', hcall, -⟩
    rw [vfsCall, osOpen, vfsGetFreeFd_of_full hroom] at hcall
    cases hres : o.result <;>
      simp [hres, vfsInstallFd, vfsFreeFd, writeSlot] at hcall

/-- **Closes.** A close is sound unless its number is past the table but in the checked range. -/
theorem callSound_close_iff (h : TableOk n t) (fd : ℤ) (release : Option ℤ) :
    CallSound n t (.closing fd release) ↔ ¬((n : ℤ) ≤ fd ∧ fd < 2 * n) := by
  have hlen := h.length
  by_cases hpast : (n : ℤ) ≤ fd ∧ fd < 2 * n
  · refine iff_of_false ?_ (not_not_intro hpast)
    rintro ⟨ret, t', hcall, -⟩
    have hread : readSlot t fd.toNat = none := getElem?_eq_none (by omega)
    rw [vfsCall, osClose, vfsFdToFile, if_neg (by omega), hread] at hcall
    cases hcall
  refine iff_of_true ?_ hpast
  by_cases hout : fd < 0 ∨ (t.length * 2 : ℕ) ≤ fd
  · have hclosed : ¬IsOpen t fd := by
      rintro ⟨hpos, f, hf⟩
      rw [getElem?_eq_none (by omega)] at hf
      cases hf
    refine ⟨⟨-1, some ebadf⟩, t, ?_, h.length ▸ length_filter_le _ _,
      fun _ => ⟨rfl, rfl⟩, fun hopen => absurd hopen hclosed⟩
    rw [vfsCall, osClose, vfsFdToFile, if_pos hout]
    rfl
  have hlt : fd.toNat < t.length := by omega
  have hread : readSlot t fd.toNat = some (t[fd.toNat]) := getElem?_eq_getElem hlt
  cases hslot : t[fd.toNat] with
  | free =>
    have hclosed : ¬IsOpen t fd := by
      rintro ⟨-, f, hf⟩
      rw [getElem?_eq_getElem hlt, hslot] at hf
      cases hf
    refine ⟨⟨-1, some ebadf⟩, t, ?_, h.length ▸ length_filter_le _ _,
      fun _ => ⟨rfl, rfl⟩, fun hopen => absurd hopen hclosed⟩
    rw [vfsCall, osClose, vfsFdToFile, if_neg hout, hread, hslot]
    rfl
  | reserved => exact absurd (hslot ▸ getElem_mem hlt) h.settled
  | file f =>
    have hopen : IsOpen t fd := ⟨by omega, f, by rw [getElem?_eq_getElem hlt, hslot]⟩
    refine ⟨closeRet release, t.set fd.toNat .free, ?_, openSlots_le h.length _ _,
      fun hclosed => absurd hopen hclosed, fun _ => rfl⟩
    rw [vfsCall, osClose, vfsFdToFile, if_neg hout, hread, hslot, Option.bind_some,
      if_neg nofun, vfsFreeFd, writeSlot, if_pos hlt]
    rfl

theorem TableOk.step {call : VfsCall} (h : TableOk n t) (hsound : CallSound n t call)
    (hstep : vfsStep t call = some t') : TableOk n t' := by
  have hset : ∀ (i : ℕ) (s : Slot), s ≠ .reserved → TableOk n (t.set i s) := fun i s hs =>
    ⟨by rw [length_set, h.length], fun hmem => (mem_or_eq_of_mem_set hmem).elim
      h.settled fun heq => hs heq.symm⟩
  obtain ⟨ret, t₁, hcall, -, hdone⟩ := hsound
  rw [vfsStep, hcall] at hstep
  cases hstep
  cases call with
  | opening o =>
    rcases hdone.1 with ⟨-, rfl⟩ | ⟨fd, f, -, -, -, rfl⟩
    · exact h
    · exact hset _ _ nofun
  | closing fd release =>
    by_cases hopen : IsOpen t fd
    · rw [hdone.2 hopen]
      exact hset _ _ nofun
    · rw [(hdone.1 hopen).2]
      exact h

end Calls

/-- **The descriptor table.** From a table without reserved slots, every call of a run of opens and
closes is sound if and only if every call is in bounds. -/
theorem descriptor_table_iff (n : ℕ) (t₀ : List Slot) (h₀ : TableOk n t₀) (calls : List VfsCall) :
    StepsMeet vfsStep (CallSound n) t₀ calls ↔ StepsMeet vfsStep (InBounds n) t₀ calls := by
  refine stepsMeet_congr (TableOk n) (fun t call h => ?_) (fun t call t' h => h.step) h₀ calls
  cases call with
  | opening o => exact callSound_open_iff h o
  | closing fd release => exact callSound_close_iff h fd release

/-- An open that succeeds, and one that the driver refuses with `-5`. -/
def goodOpen : OpenOutcome := ⟨true, 0, some 1, none⟩

def badOpen : OpenOutcome := ⟨true, 0, some 1, some (-5)⟩

/-- Opens that succeed and fail, and closes of an open descriptor, a closed one and numbers far out
of range. -/
theorem descriptor_table_sample :
    StepsMeet vfsStep (CallSound 16) (replicate 16 Slot.free)
      [.opening goodOpen, .opening badOpen, .opening goodOpen, .closing 0 (some (-1)),
        .closing 0 none, .closing (-3) none, .closing 32 none] :=
  (descriptor_table_iff 16 _ ⟨rfl, by decide⟩ _).mpr (by decide +kernel)

/-- **Two accesses out of range.** With all 16 slots in use an open writes to slot 16; a close of
16, never opened, reads it. -/
theorem seventeenth_open_overruns :
    (∃ t, runSteps vfsStep (replicate 16 Slot.free)
        (replicate 16 (.opening goodOpen)) = some t ∧
      vfsCall t (.opening goodOpen) = none ∧ ¬CallSound 16 t (.opening goodOpen)) ∧
    vfsCall (replicate 16 Slot.free) (.closing 16 none) = none ∧
    ¬CallSound 16 (replicate 16 Slot.free) (.closing 16 none) := by
  have hopen : vfsCall (replicate 16 (Slot.file 1)) (.opening goodOpen) = none := by decide
  have hclose : vfsCall (replicate 16 Slot.free) (.closing 16 none) = none := by decide
  refine ⟨⟨replicate 16 (.file 1), by decide +kernel, hopen, ?_⟩, hclose, ?_⟩
  · rintro ⟨ret, t', hcall, -⟩
    cases hcall
  · rintro ⟨ret, t', hcall, -⟩
    cases hcall

end WiseSdk.Vfs
