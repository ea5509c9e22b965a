import Mathlib.Data.List.InsertIdx

/-!
# The task watchdog

`api/wise/wise_task_wdt.c` keeps a list of tasks, each with a flag that it has reset the watchdog.
When all flags are set they are cleared and the deadline moves (the *feed* of the task watchdog);
when the watchdog's own task finds the deadline near and a flag clear, it reports a timeout and
stops.

The hardware watchdog is fed by every turn of the watchdog's task, whatever the flags are: it resets
the chip once the task has stopped after a timeout. A task is added with its flag set, so that it
has a whole period before its first reset.

`Twdt.log` records what happened, newest first; only statements read it.
-/

namespace WiseSdk.Wdt

open List

/-! ## State -/

structure TaskWdtEntry where
  taskId : ℕ
  hasReset : Bool
  deriving DecidableEq, Repr

/-- `struct task_wdt_ctx`, without the semaphore that only wakes the watchdog's task early. -/
structure TaskWdtCtx where
  started : Bool
  expireTick : BitVec 32
  expireDurTick : BitVec 32
  entries : List TaskWdtEntry

inductive TwdtEvent where
  | added (taskId : ℕ)
  | deleted (taskId : ℕ)
  | reset (taskId : ℕ)
  | feed
  | hardwareFeed
  | timeout
  deriving DecidableEq, Repr

/-- The context, whether the watchdog's task runs, and what happened. -/
structure Twdt where
  ctx : TaskWdtCtx
  running : Bool
  log : List TwdtEvent

def Twdt.init : Twdt := ⟨⟨false, 0, 0, []⟩, false, []⟩

inductive WiseErr where
  | ok
  | fail
  | errNoMem
  | errInvalidState
  deriving DecidableEq, Repr

/-! ## The list -/

def taskWdtTimerFeed (entries : List TaskWdtEntry) : List TaskWdtEntry :=
  entries.map fun entry => { entry with hasReset := false }

def taskWdtCheckAllReset (entries : List TaskWdtEntry) : Bool :=
  !entries.any fun entry => !entry.hasReset

/-- The loop of `task_wdt_find_entry`: the place of the last entry of the task. -/
def findLoop (taskId : ℕ) : List TaskWdtEntry → ℕ → Option ℕ → Option ℕ
  | [], _, target => target
  | entry :: entries, i, target =>
    findLoop taskId entries (i + 1) (if entry.taskId = taskId then some i else target)

def taskWdtFindEntry (entries : List TaskWdtEntry) (taskId : ℕ) : Option ℕ :=
  findLoop taskId entries 0 none

/-! ## The functions -/

def taskWdtExpireUpdate (ctx : TaskWdtCtx) (now : BitVec 32) : TaskWdtCtx :=
  { ctx with expireTick := now + ctx.expireDurTick }

/-- The feed of the task watchdog, without the new deadline. -/
def Twdt.feed (w : Twdt) : Twdt :=
  { w with
    ctx := { w.ctx with entries := taskWdtTimerFeed w.ctx.entries }
    log := .feed :: w.log }

def taskWdtCheckFeed (w : Twdt) (now : BitVec 32) : Twdt :=
  if taskWdtCheckAllReset w.ctx.entries then
    { w.feed with ctx := taskWdtExpireUpdate w.feed.ctx now }
  else w

def Twdt.setEntries (w : Twdt) (entries : List TaskWdtEntry) (event : TwdtEvent) : Twdt :=
  { w with ctx := { w.ctx with entries := entries }, log := event :: w.log }

/-- `wise_task_wdt_add`; the null task is `current`, and `memory` is whether `calloc` succeeds. -/
def wiseTaskWdtAdd (w : Twdt) (taskId current : ℕ) (memory : Bool) (now : BitVec 32) :
    WiseErr × Twdt :=
  let taskId := if taskId = 0 then current else taskId
  match taskWdtFindEntry w.ctx.entries taskId with
  | some _ => (.fail, w)
  | none =>
    if !memory then (.errNoMem, w)
    else (.ok, taskWdtCheckFeed (w.setEntries (⟨taskId, true⟩ :: w.ctx.entries) (.added taskId))
      now)

/-- `wise_task_wdt_delete`, which does not take the null task for the calling one. -/
def wiseTaskWdtDelete (w : Twdt) (taskId : ℕ) (now : BitVec 32) : WiseErr × Twdt :=
  match taskWdtFindEntry w.ctx.entries taskId with
  | none => (.fail, w)
  | some i =>
    (.ok, taskWdtCheckFeed (w.setEntries (w.ctx.entries.eraseIdx i) (.deleted taskId)) now)

def wiseTaskWdtReset (w : Twdt) (taskId current : ℕ) (now : BitVec 32) : WiseErr × Twdt :=
  let taskId := if taskId = 0 then current else taskId
  match taskWdtFindEntry w.ctx.entries taskId with
  | none => (.fail, w)
  | some i =>
    (.ok, taskWdtCheckFeed (w.setEntries
      (w.ctx.entries.modify i fun entry => { entry with hasReset := true }) (.reset taskId)) now)

/-- `wise_task_wdt_init`; `timeHz` is the rate of the tick counter, `created` whether its task could
be created. -/
def wiseTaskWdtInit (w : Twdt) (timeHz timeoutS now : BitVec 32) (created : Bool) :
    WiseErr × Twdt :=
  if w.ctx.started then (.errInvalidState, w)
  else
    let ctx := { w.ctx with
      started := true
      expireDurTick := timeoutS * 1000 * (timeHz / 1000) }
    (if created then .ok else .fail,
      { w with ctx := taskWdtExpireUpdate ctx now, running := created })

/-- One turn of the loop of `task_wdt`; the counter is read twice. -/
def taskWdtTurn (w : Twdt) (now now' : BitVec 32) : Twdt :=
  if !w.running then w
  else
    -- `scm_wdt_feed`
    let w := { w with log := .hardwareFeed :: w.log }
    if (w.ctx.expireTick - now).toInt ≤ 10 * 1000 then
      let allReset := taskWdtCheckAllReset w.ctx.entries
      let w := { w with ctx := taskWdtExpireUpdate w.ctx now' }
      if !allReset then { w with running := false, log := .timeout :: w.log }
      else w.feed
    else w

inductive TwdtAction where
  | init (timeHz timeoutS now : BitVec 32) (created : Bool)
  | add (taskId current : ℕ) (memory : Bool) (now : BitVec 32)
  | delete (taskId : ℕ) (now : BitVec 32)
  | reset (taskId current : ℕ) (now : BitVec 32)
  | turn (now now' : BitVec 32)

def twdtStep (w : Twdt) : TwdtAction → Twdt
  | .init timeHz timeoutS now created => (wiseTaskWdtInit w timeHz timeoutS now created).2
  | .add taskId current memory now => (wiseTaskWdtAdd w taskId current memory now).2
  | .delete taskId now => (wiseTaskWdtDelete w taskId now).2
  | .reset taskId current now => (wiseTaskWdtReset w taskId current now).2
  | .turn now now' => taskWdtTurn w now now'

def twdtRun (acts : List TwdtAction) : Twdt := acts.foldl twdtStep Twdt.init

/-! ## What the watchdog is for -/

def registered : List TwdtEvent → List ℕ
  | [] => []
  | .added taskId :: log => taskId :: registered log
  | .deleted taskId :: log => (registered log).erase taskId
  | _ :: log => registered log

def sinceFeed (log : List TwdtEvent) : List TwdtEvent := log.takeWhile (· ≠ .feed)

/-- The task has reset the watchdog since the last feed, or has been added since. -/
def Fresh (log : List TwdtEvent) (taskId : ℕ) : Prop :=
  .reset taskId ∈ sinceFeed log ∨ .added taskId ∈ sinceFeed log

/-- **The record of a sound watchdog.** A feed comes where every registered task is fresh, a timeout
where one is not, and no feed after a timeout. -/
structure WatchdogSound (log : List TwdtEvent) : Prop where
  feed : ∀ newer older, log = newer ++ .feed :: older → ∀ t ∈ registered older, Fresh older t
  timeout : ∀ newer older, log = newer ++ .timeout :: older →
    ∃ t ∈ registered older, ¬Fresh older t
  hardware : ∀ newer older, log = newer ++ .hardwareFeed :: older → .timeout ∉ older

/-! ## Reading the record -/

theorem fresh_cons {event : TwdtEvent} (log : List TwdtEvent) (t : ℕ) (hfeed : event ≠ .feed) :
    Fresh (event :: log) t ↔ event = .reset t ∨ event = .added t ∨ Fresh log t := by
  have hsince : sinceFeed (event :: log) = event :: sinceFeed log :=
    takeWhile_cons_of_pos (by simpa using hfeed)
  rw [Fresh, Fresh, hsince, mem_cons, mem_cons, @eq_comm _ event, @eq_comm _ event]
  tauto

theorem not_fresh_feed (log : List TwdtEvent) (t : ℕ) : ¬Fresh (.feed :: log) t := by
  have hsince : sinceFeed (.feed :: log) = [] := takeWhile_cons_of_neg (by simp)
  simp [Fresh, hsince]

/-- **One more event.**  It only has to be right where it comes. -/
theorem WatchdogSound.cons {log : List TwdtEvent} {event : TwdtEvent} (h : WatchdogSound log)
    (hfeed : event = .feed → ∀ t ∈ registered log, Fresh log t)
    (htimeout : event = .timeout → ∃ t ∈ registered log, ¬Fresh log t)
    (hhardware : event = .hardwareFeed → .timeout ∉ log) : WatchdogSound (event :: log) := by
  refine ⟨?_, ?_, ?_⟩ <;> rintro (_ | ⟨_, newer⟩) older heq <;>
    obtain ⟨rfl, rfl⟩ := cons.inj heq
  · exact hfeed rfl
  · exact h.feed newer older rfl
  · exact htimeout rfl
  · exact h.timeout newer older rfl
  · exact hhardware rfl
  · exact h.hardware newer older rfl

/-! ## The list functions -/

variable {entries : List TaskWdtEntry} {taskId i j : ℕ} {target : Option ℕ}

theorem checkAllReset_iff :
    taskWdtCheckAllReset entries = true ↔ ∀ entry ∈ entries, entry.hasReset = true := by
  simp [taskWdtCheckAllReset]

theorem findLoop_eq_none (h : findLoop taskId entries i target = none) :
    target = none ∧ ∀ entry ∈ entries, entry.taskId ≠ taskId := by
  induction entries generalizing i target with
  | nil => exact ⟨h, by simp⟩
  | cons entry entries ih =>
    obtain ⟨htarget, hrest⟩ := ih h
    split_ifs at htarget with hid
    exact ⟨htarget, forall_mem_cons.mpr ⟨hid, hrest⟩⟩

theorem findLoop_eq_some (h : findLoop taskId entries i target = some j) :
    target = some j ∨ ∃ k, j = i + k ∧ (entries.map (·.taskId))[k]? = some taskId := by
  induction entries generalizing i target with
  | nil => exact .inl h
  | cons entry entries ih =>
    rcases ih h with htarget | ⟨k, rfl, hk⟩
    · split_ifs at htarget with hid
      · cases htarget
        exact .inr ⟨0, rfl, by simp [hid]⟩
      · exact .inl htarget
    · exact .inr ⟨k + 1, by omega, by simpa using hk⟩

theorem not_mem_of_findEntry (h : taskWdtFindEntry entries taskId = none) :
    taskId ∉ entries.map (·.taskId) := by
  rintro hmem
  obtain ⟨entry, hentry, hid⟩ := mem_map.mp hmem
  exact (findLoop_eq_none h).2 entry hentry hid

theorem getElem_of_findEntry (h : taskWdtFindEntry entries taskId = some i) :
    (entries.map (·.taskId))[i]? = some taskId := by
  obtain h | ⟨k, rfl, hk⟩ := findLoop_eq_some h
  · cases h
  · rwa [Nat.zero_add]

/-! ## The invariant -/

/-- The list is the registered tasks, each once, with the flag of those that are fresh; the record
is sound; and the task has stopped for good after a timeout. -/
structure Inv (w : Twdt) : Prop where
  ids : w.ctx.entries.map (·.taskId) = registered w.log
  nodup : (registered w.log).Nodup
  flag : ∀ entry ∈ w.ctx.entries, entry.hasReset = true ↔ Fresh w.log entry.taskId
  sound : WatchdogSound w.log
  started : w.running = true → w.ctx.started = true
  stopped : .timeout ∈ w.log → w.running = false ∧ w.ctx.started = true

variable {w : Twdt}

theorem Inv.fresh_of_allReset (h : Inv w) (hall : taskWdtCheckAllReset w.ctx.entries = true) :
    ∀ t ∈ registered w.log, Fresh w.log t := by
  intro t ht
  rw [← h.ids] at ht
  obtain ⟨entry, hentry, rfl⟩ := mem_map.mp ht
  exact (h.flag entry hentry).mp (checkAllReset_iff.mp hall entry hentry)

theorem Inv.exists_not_fresh (h : Inv w) (hall : taskWdtCheckAllReset w.ctx.entries = false) :
    ∃ t ∈ registered w.log, ¬Fresh w.log t := by
  have hnot : ¬∀ entry ∈ w.ctx.entries, entry.hasReset = true := by
    rw [← checkAllReset_iff, hall]
    exact Bool.false_ne_true
  push Not at hnot
  obtain ⟨entry, hentry, hflag⟩ := hnot
  refine ⟨entry.taskId, ?_, fun hfresh => hflag ((h.flag entry hentry).mpr hfresh)⟩
  rw [← h.ids]
  exact mem_map_of_mem hentry

theorem Inv.feed (h : Inv w) (hall : taskWdtCheckAllReset w.ctx.entries = true) : Inv w.feed := by
  have hids : (taskWdtTimerFeed w.ctx.entries).map (·.taskId) = w.ctx.entries.map (·.taskId) := by
    simp [taskWdtTimerFeed]
  refine ⟨hids.trans h.ids, h.nodup, ?_, h.sound.cons (fun _ => h.fresh_of_allReset hall)
    (by rintro ⟨⟩) (by rintro ⟨⟩), h.started, ?_⟩
  · intro entry hentry
    obtain ⟨entry', -, rfl⟩ := mem_map.mp hentry
    exact iff_of_false Bool.false_ne_true (not_fresh_feed _ _)
  · intro hmem
    exact h.stopped (mem_of_ne_of_mem (by simp) hmem)

theorem Inv.expireUpdate (h : Inv w) (now : BitVec 32) :
    Inv { w with ctx := taskWdtExpireUpdate w.ctx now } :=
  { h with }

theorem Inv.checkFeed (h : Inv w) (now : BitVec 32) : Inv (taskWdtCheckFeed w now) := by
  rw [taskWdtCheckFeed]
  split_ifs with hall
  · exact (h.feed hall).expireUpdate now
  · exact h

theorem Inv.setEntries (h : Inv w) (event : TwdtEvent)
    (hids : entries.map (·.taskId) = registered (event :: w.log))
    (hnodup : (registered (event :: w.log)).Nodup)
    (hflag : ∀ entry ∈ entries, entry.hasReset = true ↔
      event = .reset entry.taskId ∨ event = .added entry.taskId ∨ Fresh w.log entry.taskId)
    (hfeed : event ≠ .feed) (htimeout : event ≠ .timeout) (hhardware : event ≠ .hardwareFeed) :
    Inv (w.setEntries entries event) := by
  refine ⟨hids, hnodup, fun entry hentry => ?_, h.sound.cons (absurd · hfeed) (absurd · htimeout)
    (absurd · hhardware), h.started, fun hmem => ?_⟩
  · rw [hflag entry hentry]
    exact (fresh_cons w.log entry.taskId hfeed).symm
  · exact h.stopped (mem_of_ne_of_mem htimeout.symm hmem)

theorem Inv.add (h : Inv w) (taskId current : ℕ) (memory : Bool) (now : BitVec 32) :
    Inv (wiseTaskWdtAdd w taskId current memory now).2 := by
  rw [wiseTaskWdtAdd]
  generalize (if taskId = 0 then current else taskId) = t
  cases hfind : taskWdtFindEntry w.ctx.entries t with
  | some i => exact h
  | none =>
    have hnew : t ∉ registered w.log := by
      rw [← h.ids]
      exact not_mem_of_findEntry hfind
    cases memory with
    | false => exact h
    | true =>
      refine (h.setEntries (.added t) ?_ (nodup_cons.mpr ⟨hnew, h.nodup⟩) ?_ (by rintro ⟨⟩)
        (by rintro ⟨⟩) (by rintro ⟨⟩)).checkFeed now
      · rw [map_cons, h.ids, registered]
      · refine forall_mem_cons.mpr ⟨iff_of_true rfl (.inr (.inl rfl)), ?_⟩
        intro entry hentry
        -- The new task is not one of the old entries.
        have hne : t ≠ entry.taskId := by
          rintro rfl
          exact hnew (h.ids ▸ mem_map_of_mem hentry)
        simp [h.flag entry hentry, hne]

theorem Inv.delete (h : Inv w) (taskId : ℕ) (now : BitVec 32) :
    Inv (wiseTaskWdtDelete w taskId now).2 := by
  rw [wiseTaskWdtDelete]
  cases hfind : taskWdtFindEntry w.ctx.entries taskId with
  | none => exact h
  | some i =>
    have hget := getElem_of_findEntry hfind
    rw [h.ids] at hget
    obtain ⟨hi, hget⟩ := List.getElem?_eq_some_iff.mp hget
    have herase : (registered w.log).eraseIdx i = (registered w.log).erase taskId := by
      rw [erase_eq_eraseIdx_of_idxOf]
      rw [← hget]
      exact h.nodup.idxOf_getElem i hi
    refine (h.setEntries (.deleted taskId) ?_ (h.nodup.erase taskId) ?_ (by rintro ⟨⟩)
      (by rintro ⟨⟩) (by rintro ⟨⟩)).checkFeed now
    · rw [← eraseIdx_map, h.ids, herase, registered]
    · intro entry hentry
      simp [h.flag entry (mem_of_mem_eraseIdx hentry)]

theorem Inv.reset (h : Inv w) (taskId current : ℕ) (now : BitVec 32) :
    Inv (wiseTaskWdtReset w taskId current now).2 := by
  rw [wiseTaskWdtReset]
  generalize (if taskId = 0 then current else taskId) = t
  cases hfind : taskWdtFindEntry w.ctx.entries t with
  | none => exact h
  | some i =>
    have hget := getElem_of_findEntry hfind
    refine (h.setEntries (.reset t) ?_ h.nodup ?_ (by rintro ⟨⟩) (by rintro ⟨⟩)
      (by rintro ⟨⟩)).checkFeed now
    · refine Eq.trans (ext_getElem? fun k => ?_) h.ids
      rw [getElem?_map, getElem?_modify, getElem?_map]
      split_ifs <;> simp [Function.comp_def]
    · intro entry hentry
      obtain ⟨k, hk⟩ := mem_iff_getElem?.mp hentry
      rw [getElem?_modify] at hk
      obtain ⟨old, hold, rfl⟩ := Option.map_eq_some_iff.mp hk
      have hid : (w.ctx.entries.map (·.taskId))[k]? = some old.taskId := by
        rw [getElem?_map, hold, Option.map_some]
      split_ifs with hik
      · subst hik
        rw [hget, Option.some_inj] at hid
        exact iff_of_true rfl (.inl (congrArg _ hid))
      -- No other entry is of the same task.
      have hne : t ≠ old.taskId := by
        rintro rfl
        exact hik ((getElem?_inj (List.getElem?_eq_some_iff.mp hget).1
          (h.ids ▸ h.nodup)).mp (hget.trans hid.symm))
      simp [h.flag old (mem_of_getElem? hold), hne]

theorem Inv.init (h : Inv w) (timeHz timeoutS now : BitVec 32) (created : Bool) :
    Inv (wiseTaskWdtInit w timeHz timeoutS now created).2 := by
  rw [wiseTaskWdtInit]
  by_cases hstarted : w.ctx.started = true
  · rw [if_pos hstarted]
    exact h
  · rw [if_neg hstarted]
    exact { h with
      started := fun _ => rfl
      stopped := fun hmem => absurd (h.stopped hmem).2 hstarted }

/-- What one turn of the watchdog's task does, while it runs. -/
theorem taskWdtTurn_cases (hrunning : w.running = true) (now now' : BitVec 32) :
    taskWdtTurn w now now' = { w with log := .hardwareFeed :: w.log } ∨
      (taskWdtCheckAllReset w.ctx.entries = true ∧ taskWdtTurn w now now' = Twdt.feed { w with
          ctx := taskWdtExpireUpdate w.ctx now'
          log := .hardwareFeed :: w.log }) ∨
      (taskWdtCheckAllReset w.ctx.entries = false ∧ taskWdtTurn w now now' =
          ⟨taskWdtExpireUpdate w.ctx now', false, .timeout :: .hardwareFeed :: w.log⟩) := by
  rw [taskWdtTurn, if_neg (by simp [hrunning])]
  dsimp only
  split_ifs with hdeadline hall
  · exact .inr (.inr ⟨by simpa using hall, rfl⟩)
  · exact .inr (.inl ⟨by simpa using hall, rfl⟩)
  · exact .inl rfl

theorem Inv.hardwareFeed (h : Inv w) (hnot : .timeout ∉ w.log) :
    Inv { w with log := .hardwareFeed :: w.log } := by
  refine ⟨h.ids, h.nodup, fun entry hentry => ?_, h.sound.cons (by rintro ⟨⟩)
    (by rintro ⟨⟩) fun _ => hnot, h.started, fun hmem => ?_⟩
  · rw [h.flag entry hentry, fresh_cons _ _ (by rintro ⟨⟩)]
    simp
  · exact absurd (mem_of_ne_of_mem (by simp) hmem) hnot

/-- A timeout is reported, and the watchdog's task stops. -/
theorem Inv.timeout (h : Inv w) (hrunning : w.running = true)
    (hall : taskWdtCheckAllReset w.ctx.entries = false) :
    Inv { w with running := false, log := .timeout :: w.log } := by
  refine ⟨h.ids, h.nodup, fun entry hentry => ?_, h.sound.cons (by rintro ⟨⟩)
    (fun _ => h.exists_not_fresh hall) (by rintro ⟨⟩), fun hrun => ?_,
    fun _ => ⟨rfl, h.started hrunning⟩⟩
  · rw [h.flag entry hentry, fresh_cons _ _ (by rintro ⟨⟩)]
    simp
  · cases hrun

theorem Inv.turn (h : Inv w) (now now' : BitVec 32) : Inv (taskWdtTurn w now now') := by
  by_cases hrunning : w.running = true
  · have hnot : .timeout ∉ w.log := fun hmem => by
      rw [(h.stopped hmem).1] at hrunning
      cases hrunning
    have hfed := h.hardwareFeed hnot
    obtain heq | ⟨hall, heq⟩ | ⟨hall, heq⟩ := taskWdtTurn_cases hrunning now now' <;> rw [heq]
    · exact hfed
    · exact (hfed.expireUpdate now').feed hall
    · exact (hfed.expireUpdate now').timeout hrunning hall
  · rw [taskWdtTurn, if_pos (by simpa using hrunning)]
    exact h

/-! ## Runs -/

theorem Inv.step (h : Inv w) (a : TwdtAction) : Inv (twdtStep w a) := by
  cases a with
  | init timeHz timeoutS now created => exact h.init timeHz timeoutS now created
  | add taskId current memory now => exact h.add taskId current memory now
  | delete taskId now => exact h.delete taskId now
  | reset taskId current now => exact h.reset taskId current now
  | turn now now' => exact h.turn now now'

theorem inv_init : Inv Twdt.init :=
  ⟨rfl, nodup_nil, by simp [Twdt.init], ⟨by simp [Twdt.init], by simp [Twdt.init],
    by simp [Twdt.init]⟩, by simp [Twdt.init], by simp [Twdt.init]⟩

theorem inv_run (acts : List TwdtAction) : Inv (twdtRun acts) := by
  suffices h : ∀ w, Inv w → Inv (acts.foldl twdtStep w) from h _ inv_init
  induction acts with
  | nil => exact fun w hw => hw
  | cons a acts ih => exact fun w hw => ih _ (hw.step a)

/-- **Task watchdog.** After every sequence of calls and turns of its task, at any times, the record
is sound and the list holds the registered tasks, each once. -/
theorem task_watchdog_sound (acts : List TwdtAction) :
    WatchdogSound (twdtRun acts).log ∧
      (twdtRun acts).ctx.entries.map (·.taskId) = registered (twdtRun acts).log ∧
      ((twdtRun acts).ctx.entries.map (·.taskId)).Nodup := by
  have h := inv_run acts
  refine ⟨h.sound, h.ids, ?_⟩
  rw [h.ids]
  exact h.nodup

/-- The hardware is fed only where every registered task has reset the watchdog since the last feed
or before. -/
def HardwareFedAfterResets (log : List TwdtEvent) : Prop :=
  ∀ newer older, log = newer ++ .hardwareFeed :: older →
    ∀ t ∈ registered older, TwdtEvent.reset t ∈ older

/-- The hardware is fed twice with a registered task that never resets; the first feed comes from
adding the task. -/
theorem hardware_fed_without_reset :
    (twdtRun [.init 1000000 5 0 true, .add 1 1 true 0, .turn 0 0, .turn 1000 1000]).log =
        [.hardwareFeed, .hardwareFeed, .feed, .added 1] ∧ ¬HardwareFedAfterResets
        (twdtRun [.init 1000000 5 0 true, .add 1 1 true 0, .turn 0 0, .turn 1000 1000]).log := by
  have hlog : (twdtRun [.init 1000000 5 0 true, .add 1 1 true 0, .turn 0 0, .turn 1000 1000]).log =
      [.hardwareFeed, .hardwareFeed, .feed, .added 1] := by decide +kernel
  refine ⟨hlog, fun h => ?_⟩
  have := h [] [.hardwareFeed, .feed, .added 1] hlog 1 (by decide)
  exact absurd this (by decide)

end WiseSdk.Wdt
