import WiseSdk.Flash.EraseMap

/-!
# Are flash errors reported?

Every SPI command returns a negative number where it failed, and a flash that is busy for too long
is a failure of the status read that finds it so (`-ETIME`). `spi_flash_erase` hands the failure of
a block on with its sign changed, and `spi_flash_read` stores the comparison with 0 in place of the
result, so that both end at the failed command and return a positive number.

The commands issued are kept in a log, and the outcome of a command is found under its place there,
also while a call has not returned.
-/

namespace WiseSdk.Flash

/-! ## Commands and their outcomes -/

inductive SpiCmd where
  | writeEnable
  | writeDisable
  | readStatus
  | erase (c : EraseCmd)
  | read (addr : AddrBytes) (len : ℕ)
  | mioRead (addr : BitVec 32) (len : ℕ)
  deriving DecidableEq, Repr

/-- The outcomes of the commands, by their place in the log: what each returns, the byte a status
read delivers, and whether the timeout was still ahead. -/
structure SpiOutcomes where
  ret : ℕ → ℤ
  status : ℕ → BitVec 8
  inTime : ℕ → Bool

variable (o : SpiOutcomes)

def etime : ℤ := 62

/-- The error of a command at place `k`, negative, or 0: what it returned, or that the flash was
busy with no time left. -/
def SpiOutcomes.error (k : ℕ) (cmd : SpiCmd) : ℤ :=
  if o.ret k < 0 then o.ret k
  else if cmd = .readStatus ∧ o.status k &&& 1 ≠ 0 ∧ o.inTime k = false then -etime
  else 0

def Failed (log : List SpiCmd) : Prop := ∃ k cmd, log[k]? = some cmd ∧ o.error k cmd < 0

/-- `spi_flash_wait_till_ready`: the status is read until the flash is not busy (`SR_WIP`). -/
def waitTillReady (o : SpiOutcomes) : ℕ → List SpiCmd → Option ℤ × List SpiCmd
  | 0, log => (none, log)
  | fuel + 1, log =>
    let n := log.length
    if o.ret n < 0 then (some (o.ret n), log ++ [.readStatus])
    else if o.status n &&& 1 = 0 then (some 0, log ++ [.readStatus])
    else if o.inTime n then waitTillReady o fuel (log ++ [.readStatus])
    else (some (-etime), log ++ [.readStatus])

/-- The last call of the sequence. -/
def writeDisable (o : SpiOutcomes) (log : List SpiCmd) : Option ℤ × List SpiCmd :=
  (some (o.ret log.length), log ++ [.writeDisable])

/-- `spi_flash_write_sequence`; with `CONFIG_ATCSPI200_COMPACT` only the command itself is sent. -/
def writeSequence (compact : Bool) (o : SpiOutcomes) (fuel : ℕ) (c : EraseCmd)
    (log : List SpiCmd) : Option ℤ × List SpiCmd :=
  let n := log.length
  if compact then (some (o.ret n), log ++ [.erase c])
  else if o.ret n < 0 then (some (o.ret n), log ++ [.writeEnable])
  else if o.ret (n + 1) < 0 then (some (o.ret (n + 1)), log ++ [.writeEnable, .erase c])
  else
    match waitTillReady o fuel (log ++ [.writeEnable, .erase c]) with
    | (none, log) => (none, log)
    | (some ret, log) => if ret < 0 then (some ret, log) else writeDisable o log

/-- What a caller of `spi_flash_erase` sees. -/
def EraseResult.value : EraseResult → ℤ
  | .ok => 0
  | .einval => -1
  | .failed ret => ret

/-- `spi_flash_erase` over the write sequence. -/
def eraseCall (compact : Bool) (mp : EraseMap) (o : SpiOutcomes) (start size : BitVec 32)
    (how : EraseHow) (waits fuel : ℕ) : Option EraseResult × List SpiCmd :=
  mp.erase start size how (writeSequence compact o waits) fuel []

/-- The loop of `spi_flash_read`, with what `ret` holds.  `ret = f(..) < 0` stores the
comparison. -/
def readLoop (o : SpiOutcomes) (fast : Bool) (xlen : ℕ) :
    ℕ → BitVec 32 → ℕ → ℤ → List SpiCmd → Option ℤ × List SpiCmd
  | 0, _, _, _, log => (none, log)
  | fuel + 1, offset, size, ret, log =>
    if size = 0 then (some ret, log)
    else
      let rlen := min size xlen
      let cmd : SpiCmd := if fast then .mioRead offset rlen else .read (spiFlashAddr offset) rlen
      if o.ret log.length < 0 then (some 1, log ++ [cmd])
      else
        readLoop o fast xlen fuel (offset + BitVec.ofNat 32 rlen) (size - rlen) 0 (log ++ [cmd])

/-- `spi_flash_read`; `fast` is whether there is a `cur_fast_read`, `maxXfer` the limit of the
controller, and `garbage` what `ret` holds at first. -/
def spiFlashRead (fast : Bool) (maxXfer offset size : BitVec 32) (garbage : ℤ) :
    Option ℤ × List SpiCmd :=
  let xlen := if maxXfer = 0 then size else maxXfer
  readLoop o fast xlen.toNat (size.toNat + 1) offset size.toNat garbage []

/-! ## The failing command ends the call -/

/-- No command of a call has failed so far, or the last one has, with the value that `Says` ties to
it. -/
def FailsLast {α : Type} (o : SpiOutcomes) (Says : ℤ → α → Prop) (out : Option α × List SpiCmd) :
    Prop :=
  ¬Failed o out.2 ∨ ∃ e < 0, (∃ log cmd, out.2 = log ++ [cmd] ∧ o.error log.length cmd = e) ∧
    ∃ a, out.1 = some a ∧ Says e a

theorem not_failed_nil : ¬Failed o [] := fun ⟨_, _, hk, _⟩ => nomatch hk

variable {log : List SpiCmd} {o : SpiOutcomes} {c : SpiCmd}

theorem not_failed_concat (h : ¬Failed o log) (hok : o.error log.length c = 0) :
    ¬Failed o (log ++ [c]) := by
  rintro ⟨k, cmd, hk, hfail⟩
  rw [List.getElem?_append] at hk
  split_ifs at hk with hlt
  · exact h ⟨k, cmd, hk, hfail⟩
  · obtain ⟨hlen, rfl⟩ := List.getElem?_eq_some_iff.mp hk
    obtain rfl : k = log.length := by
      rw [List.length_singleton] at hlen
      omega
    rw [List.getElem_singleton, hok] at hfail
    exact absurd hfail (by decide)

theorem error_of_neg {k : ℕ} (h : o.ret k < 0) : o.error k c = o.ret k := if_pos h

theorem failed_of_neg {k : ℕ} (hk : k < log.length) (h : o.ret k < 0) : Failed o log :=
  ⟨k, log[k], List.getElem?_eq_getElem hk, by rwa [error_of_neg h]⟩

theorem error_of_not_neg {k : ℕ} (h : ¬o.ret k < 0) (hc : c ≠ .readStatus) : o.error k c = 0 := by
  rw [SpiOutcomes.error, if_neg h, if_neg fun hbusy => hc hbusy.1]

theorem error_readStatus {k : ℕ} (h : ¬o.ret k < 0) :
    o.error k .readStatus = if o.status k &&& 1 ≠ 0 ∧ o.inTime k = false then -etime else 0 := by
  rw [SpiOutcomes.error, if_neg h]
  simp

theorem failsLast_last {α : Type} {Says : ℤ → α → Prop} {e : ℤ} {a : α}
    (herr : o.error log.length c = e) (hneg : e < 0) (ha : Says e a) :
    FailsLast o Says (some a, log ++ [c]) :=
  .inr ⟨e, hneg, ⟨log, c, rfl, herr⟩, a, rfl, ha⟩

/-- A command of a call that hands its result on. -/
theorem failsLast_concat (h : ¬Failed o log) (hc : c ≠ .readStatus) :
    FailsLast o (fun r a => a = r) (some (o.ret log.length), log ++ [c]) := by
  by_cases hret : o.ret log.length < 0
  · exact failsLast_last (error_of_neg hret) hret rfl
  · exact .inl (not_failed_concat h (error_of_not_neg hret hc))

theorem waitTillReady_failsLast (o : SpiOutcomes) (fuel : ℕ) (h : ¬Failed o log) :
    FailsLast o (fun r a => a = r) (waitTillReady o fuel log) := by
  induction fuel generalizing log with
  | zero => exact .inl h
  | succ fuel ih =>
    rw [waitTillReady]
    by_cases hret : o.ret log.length < 0
    · simp only [hret, if_true]
      exact failsLast_last (error_of_neg hret) hret rfl
    simp only [hret, if_false]
    have herr := error_readStatus hret
    split_ifs with hready htime
    · rw [if_neg fun h => h.1 hready] at herr
      exact .inl (not_failed_concat h herr)
    · rw [if_neg fun h => absurd htime (by simp [h.2])] at herr
      exact ih (not_failed_concat h herr)
    · rw [if_pos ⟨hready, by simpa using htime⟩] at herr
      exact failsLast_last herr (by decide) rfl

theorem writeSequence_failsLast (compact : Bool) (o : SpiOutcomes) (fuel : ℕ) (c : EraseCmd)
    (h : ¬Failed o log) : FailsLast o (fun r a => a = r) (writeSequence compact o fuel c log) := by
  rw [writeSequence]
  cases compact with
  | true => exact failsLast_concat h nofun
  | false =>
    by_cases hret : o.ret log.length < 0
    · simp only [hret, Bool.false_eq_true, if_false, if_true]
      exact failsLast_concat h nofun
    have hlog : ¬Failed o (log ++ [.writeEnable]) :=
      not_failed_concat h (error_of_not_neg hret nofun)
    have hnext : (log ++ [SpiCmd.writeEnable]).length = log.length + 1 := by simp
    have htwo : log ++ [SpiCmd.writeEnable, .erase c] =
        log ++ [SpiCmd.writeEnable] ++ [.erase c] := by simp
    simp only [hret, Bool.false_eq_true, if_false]
    rw [htwo, ← hnext]
    by_cases hret' : o.ret (log ++ [SpiCmd.writeEnable]).length < 0
    · simp only [hret', if_true]
      exact failsLast_concat hlog nofun
    have hlog' : ¬Failed o (log ++ [.writeEnable] ++ [.erase c]) :=
      not_failed_concat hlog (error_of_not_neg hret' nofun)
    simp only [hret', if_false]
    have hwait := waitTillReady_failsLast o fuel hlog'
    generalize waitTillReady o fuel (log ++ [SpiCmd.writeEnable] ++ [.erase c]) = waited
      at hwait ⊢
    obtain ⟨out, log'⟩ := waited
    rcases hwait with hclean | ⟨e, hfail, hlast, _, rfl, rfl⟩
    · cases out with
      | none => exact .inl hclean
      | some ret =>
        by_cases hneg : ret < 0
        · simp only [hneg, if_true]
          exact .inl hclean
        · simp only [hneg, if_false]
          exact failsLast_concat hclean nofun
    · simp only [hfail, if_true]
      exact .inr ⟨_, hfail, hlast, _, rfl, rfl⟩

theorem eraseLoop_failsLast (compact : Bool) (mp : EraseMap) (o : SpiOutcomes) (how : EraseHow)
    (waits : ℕ) (dryrun : Bool) (fuel : ℕ) (inb : EraseBlock) (h : ¬Failed o log) :
    FailsLast o (fun r a => a = LoopEnd.failed r)
      (mp.eraseLoop how (writeSequence compact o waits) dryrun fuel inb log) := by
  induction fuel generalizing inb log with
  | zero => exact .inl h
  | succ fuel ih =>
    rw [EraseMap.eraseLoop]
    by_cases hlt : inb.start < inb.stop
    · rw [if_pos hlt]
      cases mp.lookupEraseInfo inb how with
      | none => exact .inl h
      | some p =>
        cases dryrun with
        | true => exact ih _ h
        | false =>
          simp only [Bool.false_eq_true, if_false]
          have hseq := writeSequence_failsLast compact o waits
            ⟨p.2, spiFlashAddr (blockAt inb p.2).start⟩ h
          generalize writeSequence compact o waits
            ⟨p.2, spiFlashAddr (blockAt inb p.2).start⟩ log = written at hseq ⊢
          obtain ⟨out, log'⟩ := written
          rcases hseq with hclean | ⟨e, hfail, hlast, _, rfl, rfl⟩
          · cases out with
            | none => exact .inl hclean
            | some ret =>
              by_cases hneg : ret < 0
              · simp only [hneg, if_true]
                exact .inl hclean
              · simp only [hneg, if_false]
                exact ih _ hclean
          · simp only [hfail, if_true]
            exact .inr ⟨_, hfail, hlast, _, rfl, rfl⟩
    · rw [if_neg hlt]
      exact .inl h

/-- **An erase ends at the command that fails** and returns its result with the sign changed. -/
theorem eraseCall_failsLast (compact : Bool) (mp : EraseMap) (o : SpiOutcomes)
    (start size : BitVec 32) (how : EraseHow) (waits fuel : ℕ) :
    FailsLast o (fun r a => a = EraseResult.failed (-r))
      (eraseCall compact mp o start size how waits fuel) := by
  rw [eraseCall, EraseMap.erase]
  have hplan := eraseLoop_failsLast compact mp o how waits true fuel ⟨start, start + size⟩
    (not_failed_nil o)
  generalize mp.eraseLoop how (writeSequence compact o waits) true fuel ⟨start, start + size⟩ [] =
    planned at hplan ⊢
  obtain ⟨out, log⟩ := planned
  rcases hplan with hclean | ⟨e, hfail, hlast, _, rfl, rfl⟩
  · cases out with
    | none => exact .inl hclean
    | some e =>
      simp only
      cases EraseMap.loopResult how (start + size) e with
      | some r => exact .inl hclean
      | none =>
        have hwalk := eraseLoop_failsLast compact mp o how waits false fuel
          ⟨start, start + size⟩ hclean
        simp only
        generalize mp.eraseLoop how (writeSequence compact o waits) false fuel
          ⟨start, start + size⟩ log = walked at hwalk ⊢
        obtain ⟨out', log'⟩ := walked
        rcases hwalk with hclean' | ⟨e, hfail, hlast, _, rfl, rfl⟩
        · cases out' <;> exact .inl hclean'
        · exact .inr ⟨_, hfail, hlast, _, rfl, rfl⟩
  · exact .inr ⟨_, hfail, hlast, _, rfl, rfl⟩

theorem readLoop_failsLast (o : SpiOutcomes) (fast : Bool) (xlen fuel : ℕ) (offset : BitVec 32)
    (size : ℕ) (ret : ℤ) (h : ¬Failed o log) :
    FailsLast o (fun _ a => a = 1) (readLoop o fast xlen fuel offset size ret log) := by
  induction fuel generalizing offset size ret log with
  | zero => exact .inl h
  | succ fuel ih =>
    rw [readLoop]
    by_cases h0 : size = 0
    · rw [if_pos h0]
      exact .inl h
    rw [if_neg h0]
    simp only
    generalize hcmd : (if fast then SpiCmd.mioRead offset (min size xlen)
      else .read (spiFlashAddr offset) (min size xlen)) = cmd
    have hc : cmd ≠ .readStatus := by
      rw [← hcmd]
      split_ifs <;> nofun
    by_cases hret : o.ret log.length < 0
    · simp only [hret, if_true]
      exact failsLast_last (error_of_neg hret) hret rfl
    · simp only [hret, if_false]
      exact ih _ _ _ (not_failed_concat h (error_of_not_neg hret hc))

/-- **A read ends at the command that fails** and returns 1. -/
theorem spiFlashRead_failsLast (o : SpiOutcomes) (fast : Bool) (maxXfer offset size : BitVec 32)
    (garbage : ℤ) :
    FailsLast o (fun _ a => a = 1) (spiFlashRead o fast maxXfer offset size garbage) :=
  readLoop_failsLast o fast _ _ _ _ _ (not_failed_nil o)

/-! ## Reporting -/

/-- A call returns a negative value once a command failed, and one that is not negative only if none
did. -/
structure Reports (o : SpiOutcomes) (out : Option ℤ × List SpiCmd) : Prop where
  failure : Failed o out.2 → ∃ v, out.1 = some v ∧ v < 0
  success : ∀ v, out.1 = some v → 0 ≤ v → ¬Failed o out.2

theorem reports_iff {out : Option ℤ × List SpiCmd} (h : FailsLast o (fun _ a => 0 < a) out) :
    Reports o out ↔ ¬Failed o out.2 := by
  constructor
  · intro hreports hfailed
    obtain ⟨v, hv, hneg⟩ := hreports.failure hfailed
    obtain ⟨-, -, -, a, ha, hpos⟩ := h.resolve_left (not_not.mpr hfailed)
    rw [hv, Option.some.injEq] at ha
    omega
  · exact fun hclean => ⟨fun hfailed => absurd hfailed hclean, fun _ _ _ => hclean⟩

/-- What a caller of `spi_flash_erase` sees of a call. -/
def eraseSeen (compact : Bool) (mp : EraseMap) (o : SpiOutcomes) (start size : BitVec 32)
    (how : EraseHow) (waits fuel : ℕ) : Option ℤ × List SpiCmd :=
  let out := eraseCall compact mp o start size how waits fuel
  (out.1.map EraseResult.value, out.2)

/-- **Error reporting.** Whatever the commands return, an erase and a read report their errors
exactly where no command that they issued failed. -/
theorem errors_reported_iff (compact : Bool) (mp : EraseMap) (o : SpiOutcomes)
    (start size : BitVec 32) (how : EraseHow) (o' : SpiOutcomes) (fast : Bool)
    (maxXfer offset len : BitVec 32) (garbage : ℤ) :
    ((∀ waits fuel, Reports o (eraseSeen compact mp o start size how waits fuel)) ∧
        Reports o' (spiFlashRead o' fast maxXfer offset len garbage)) ↔
      (∀ waits fuel, ¬Failed o (eraseCall compact mp o start size how waits fuel).2) ∧
        ¬Failed o' (spiFlashRead o' fast maxXfer offset len garbage).2 := by
  refine and_congr (forall_congr' fun waits => forall_congr' fun fuel => ?_) ?_
  · refine reports_iff ?_
    rcases eraseCall_failsLast compact mp o start size how waits fuel with
      hclean | ⟨e, hfail, hlast, a, ha, rfl⟩
    · exact .inl hclean
    · refine .inr ⟨e, hfail, hlast, -e, ?_, by omega⟩
      rw [eraseSeen, ha]
      rfl
  · refine reports_iff ?_
    rcases spiFlashRead_failsLast o' fast maxXfer offset len garbage with
      hclean | ⟨e, hfail, hlast, a, ha, rfl⟩
    · exact .inl hclean
    · exact .inr ⟨e, hfail, hlast, 1, ha, Int.one_pos⟩

def secondFails : SpiOutcomes := ⟨fun n => if n = 1 then -5 else 0, fun _ => 0, fun _ => true⟩

/-- The commands succeed, but the flash stays busy. -/
def staysBusy : SpiOutcomes := ⟨fun _ => 0, fun _ => 1, fun _ => false⟩

/-- An erase of a sector whose command fails returns 5, and 62 where the flash stays busy; a read of
two transfers, the second of which fails, returns 1. -/
theorem errors_not_reported :
    let map := (uniformFlash 0x100000).toEraseMap
    (eraseSeen false map secondFails 0 0x1000 .zero 1 2).1 = some 5 ∧
      (eraseSeen false map staysBusy 0 0x1000 .zero 1 2).1 = some 62 ∧
      (spiFlashRead secondFails false 4 0 8 0).1 = some 1 ∧
      ¬Reports secondFails (eraseSeen false map secondFails 0 0x1000 .zero 1 2) ∧
      ¬Reports staysBusy (eraseSeen false map staysBusy 0 0x1000 .zero 1 2) ∧
      ¬Reports secondFails (spiFlashRead secondFails false 4 0 8 0) := by
  intro map
  have herase : (eraseSeen false map secondFails 0 0x1000 .zero 1 2).1 = some 5 := by decide
  have hbusy : (eraseSeen false map staysBusy 0 0x1000 .zero 1 2).1 = some 62 := by decide
  have hread : (spiFlashRead secondFails false 4 0 8 0).1 = some 1 := by decide
  refine ⟨herase, hbusy, hread, fun h => ?_, fun h => ?_, fun h => ?_⟩
  · exact h.success 5 herase (by decide) (failed_of_neg (k := 1) (by decide) (by decide))
  · exact h.success 62 hbusy (by decide) ⟨2, .readStatus, by decide, by decide⟩
  · exact h.success 1 hread (by decide) (failed_of_neg (k := 1) (by decide) (by decide))

end WiseSdk.Flash
