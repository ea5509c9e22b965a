import WiseSdk.Library.Runs
import WiseSdk.Repeater.Filter

/-!
# The filter table under concurrent callers

`wifi_add_ipv4_filter`, `wifi_del_ipv4_filter` and `wifi_repeater_ops_free_filters` are called by
any task. `filter_mtx` makes three sections atomic: the search for a duplicate, the update of either
function, and the whole of the last one. The capacity test of an add and the search of a delete are
outside it, and what they read may be stale.

So a call is a few steps, and a run any interleaving of the steps of any number of tasks. An add
appends its rule however full the table has become and whatever was added since its search; a delete
takes out the entry at the index it has found, whatever is there now. The condition says just that,
for every update (`filter_table_iff`). It is met when calls do not overlap (`stepsMeet_of_serial`).
-/

namespace WiseSdk.Repeater.Concurrent

open Library List Function

/-! ## Rules and the table -/

/-- The bytes that `memcmp` compares: the fields of a rule, and `resv`. -/
structure Rule where
  filter : WifiIpv4Filter
  resv : BitVec 8
  deriving DecidableEq, Repr

/-- A rule of zeros, as `memset` leaves it. -/
def Rule.blank : Rule := ⟨⟨0, 0, 0, 0, 0, 0, 0, 0, 0, 0⟩, 0⟩

def checkParam (filter : WifiIpv4Filter) : Bool :=
  if filter.matchMask &&& wifiFilterMaskLocalPort ≠ 0 ∧ filter.localPort = 0 then false
  else if filter.matchMask &&& wifiFilterMaskRemotePort ≠ 0 ∧ filter.remotePort = 0 then false
  else if filter.matchMask &&& wifiFilterMaskLocalPortRange ≠ 0 ∧
      filter.localpMax ≤ filter.localpMin then false
  else if filter.matchMask &&& wifiFilterMaskRemotePortRange ≠ 0 ∧
      filter.remotepMax ≤ filter.remotepMin then false
  else true

/-- `ipv4_filters` and `ipv4_used` of `struct wifi_filter_config`. -/
structure Config where
  slots : ℕ → Rule
  used : ℕ

def Config.table (cfg : Config) : List Rule := (range cfg.used).map cfg.slots

/-- The update of an add. -/
def Config.append (cfg : Config) (f : Rule) : Config :=
  ⟨update cfg.slots cfg.used f, cfg.used + 1⟩

/-- The update of a delete, for an entry that is in use: `memmove` of the entries behind it. -/
def Config.remove (cfg : Config) (i : ℕ) : Config :=
  ⟨fun k => if i ≤ k ∧ k + 1 < cfg.used then cfg.slots (k + 1) else cfg.slots k, cfg.used - 1⟩

/-- The update of `wifi_repeater_ops_free_filters`. -/
def Config.free (maxNum : ℕ) (cfg : Config) : Config :=
  ⟨fun k => if k < maxNum then .blank else cfg.slots k, 0⟩

/-! ## Tasks and steps -/

/-- Where a task is. An add has passed its first tests, or also the search for a duplicate; a delete
is at entry `i`, or has found its rule there. -/
inductive Stage where
  | idle
  | checked (f : Rule)
  | unique (f : Rule)
  | scanning (f : Rule) (i : ℕ)
  | found (f : Rule) (i : ℕ)
  deriving DecidableEq, Repr

/-- A delete that has returned OK, with the table before and after its update. -/
structure Deleted where
  arg : Rule
  before : List Rule
  after : List Rule

/-- The table and what it was before each update, newest first; where each task is; and the deletes
that have returned OK. A `memmove` of a negative size overwrites all of memory (`corrupted`); no
other update would take `used` below 0. -/
structure State where
  cfg : Config
  past : List Config
  stage : ℕ → Stage
  deletes : List Deleted
  corrupted : Bool

def State.init : State where
  cfg := ⟨fun _ => .blank, 0⟩
  past := []
  stage _ := .idle
  deletes := []
  corrupted := false

/-- What a read outside the mutex sees: the table, as it was `age` updates ago. -/
def State.read (st : State) (age : ℕ) : Config := (st.cfg :: st.past).getD age st.cfg

def State.goto (st : State) (t : ℕ) (s : Stage) : State :=
  { st with stage := update st.stage t s }

def State.commit (st : State) (cfg : Config) : State :=
  { st with cfg := cfg, past := st.cfg :: st.past }

/-! A step that is not the next one of its task does nothing; a call that fails leaves its task
idle. -/

section Calls

variable (maxNum : ℕ) (st : State) (t : ℕ)

/-- `wifi_add_ipv4_filter` up to the search for a duplicate. -/
def addFilter (f : Rule) (age : ℕ) : State :=
  match st.stage t with
  | .idle =>
    if maxNum ≤ (st.read age).used then st
    else if checkParam f.filter then st.goto t (.checked f)
    else st
  | _ => st

def isIpv4FilterDuplicate : State :=
  match st.stage t with
  | .checked f => if f ∈ st.cfg.table then st.goto t .idle else st.goto t (.unique f)
  | _ => st

/-- The update of `wifi_add_ipv4_filter`. -/
def appendFilter : State :=
  match st.stage t with
  | .unique f => (st.commit (st.cfg.append f)).goto t .idle
  | _ => st

/-- `wifi_del_ipv4_filter` up to its loop. -/
def delFilter (f : Rule) : State :=
  match st.stage t with
  | .idle => if checkParam f.filter then st.goto t (.scanning f 0) else st
  | _ => st

/-- The loop of `wifi_del_ipv4_filter` at one entry. -/
def scanEntry (ageUsed ageEntry : ℕ) : State :=
  match st.stage t with
  | .scanning f i =>
    if i < (st.read ageUsed).used then
      if (st.read ageEntry).slots i = f then st.goto t (.found f i)
      else st.goto t (.scanning f (i + 1))
    else st.goto t .idle
  | _ => st

/-- The update of `wifi_del_ipv4_filter`. -/
def removeFilter : State :=
  match st.stage t with
  | .found f i =>
    if i < st.cfg.used then
      { (st.commit (st.cfg.remove i)).goto t .idle with
        deletes := ⟨f, st.cfg.table, (st.cfg.remove i).table⟩ :: st.deletes }
    else { st.goto t .idle with corrupted := true }
  | _ => st

def freeFilters : State :=
  match st.stage t with
  | .idle => st.commit (st.cfg.free maxNum)
  | _ => st

end Calls

inductive Action where
  | add (f : Rule) (age : ℕ)
  | isDuplicate
  | append
  | del (f : Rule)
  | scan (ageUsed ageEntry : ℕ)
  | remove
  | freeAll
  deriving DecidableEq, Repr

def step (maxNum : ℕ) (st : State) : ℕ × Action → Option State
  | (t, .add f age) => some (addFilter maxNum st t f age)
  | (t, .isDuplicate) => some (isIpv4FilterDuplicate st t)
  | (t, .append) => some (appendFilter st t)
  | (t, .del f) => some (delFilter st t f)
  | (t, .scan ageUsed ageEntry) => some (scanEntry st t ageUsed ageEntry)
  | (t, .remove) => some (removeFilter st t)
  | (t, .freeAll) => some (freeFilters maxNum st t)

/-! ## The property and its condition -/

/-- **The property of a state**: no two rules are equal, the table is not overfull, every delete
that has returned OK has taken out one rule equal to its argument and kept the order of the others,
and memory is not overwritten. -/
structure Sound (maxNum : ℕ) (st : State) : Prop where
  nodup : st.cfg.table.Nodup
  le_max : st.cfg.used ≤ maxNum
  removed : ∀ d ∈ st.deletes, ∃ k, d.before[k]? = some d.arg ∧ d.after = d.before.eraseIdx k
  intact : st.corrupted = false

/-- An add that appends finds the table neither full nor with its rule in it, and a delete that
removes finds its rule where it has seen it. -/
def Guard (maxNum : ℕ) (st : State) : ℕ × Action → Prop
  | (t, .append) => ∀ f, st.stage t = .unique f → st.cfg.used < maxNum ∧ f ∉ st.cfg.table
  | (t, .remove) => ∀ f i, st.stage t = .found f i → st.cfg.table[i]? = some f
  | _ => True

/-! ## The updates -/

section Updates

variable {cfg : Config} {f : Rule} {i k : ℕ}

theorem length_table (cfg : Config) : cfg.table.length = cfg.used := by
  simp [Config.table]

theorem getElem?_table (cfg : Config) (i : ℕ) :
    cfg.table[i]? = if i < cfg.used then some (cfg.slots i) else none := by
  split_ifs with hi
  · rw [Config.table, getElem?_map, getElem?_range hi, Option.map_some]
  · rw [List.getElem?_eq_none_iff, length_table]
    exact Nat.not_lt.mp hi

theorem table_append (cfg : Config) (f : Rule) : (cfg.append f).table = cfg.table ++ [f] := by
  have hrest : (range cfg.used).map (update cfg.slots cfg.used f) = cfg.table := by
    refine map_congr_left fun k hk => ?_
    have hne : k ≠ cfg.used := Nat.ne_of_lt (mem_range.mp hk)
    exact update_of_ne hne f cfg.slots
  have hlast : update cfg.slots cfg.used f cfg.used = f := update_self ..
  change (range (cfg.used + 1)).map (update cfg.slots cfg.used f) = _
  rw [range_succ, map_append, hrest, map_singleton, hlast]

theorem table_remove (hi : i < cfg.used) : (cfg.remove i).table = cfg.table.eraseIdx i := by
  refine ext_getElem? fun k => ?_
  have hremove : (cfg.remove i).table[k]? = if k < cfg.used - 1 then
      some (if i ≤ k ∧ k + 1 < cfg.used then cfg.slots (k + 1) else cfg.slots k) else none :=
    getElem?_table (cfg.remove i) k
  rw [hremove, getElem?_eraseIdx, getElem?_table, getElem?_table]
  by_cases hk : k < i
  · rw [if_pos (show k < cfg.used - 1 by omega), if_neg (show ¬(i ≤ k ∧ _) by omega), if_pos hk,
      if_pos (show k < cfg.used by omega)]
  rw [if_neg hk]
  by_cases hlt : k + 1 < cfg.used
  · rw [if_pos (show k < cfg.used - 1 by omega), if_pos (show i ≤ k ∧ _ from ⟨by omega, hlt⟩),
      if_pos hlt]
  · rw [if_neg (show ¬k < cfg.used - 1 by omega), if_neg hlt]

theorem eraseIdx_ne {l : List Rule} (hnodup : l.Nodup) {a b : Rule} (hi : l[i]? = some a)
    (hk : l[k]? = some b) (hne : a ≠ b) : l.eraseIdx i ≠ l.eraseIdx k := by
  intro heq
  have hik : i ≠ k := by
    rintro rfl
    exact hne (Option.some.inj (hi.symm.trans hk))
  -- The rule at `k` is left by the first, and by the second it is not.
  have hmem : b ∈ l.eraseIdx i := mem_eraseIdx_iff_getElem?.mpr ⟨k, hik.symm, hk⟩
  rw [heq] at hmem
  obtain ⟨j, hjk, hj⟩ := mem_eraseIdx_iff_getElem?.mp hmem
  obtain ⟨hlt, -⟩ := List.getElem?_eq_some_iff.mp hj
  exact hjk ((getElem?_inj hlt hnodup).mp (hj.trans hk.symm))

end Updates

/-! ## The steps between the updates -/

def Action.Fresh : Action → Prop
  | .add _ age => age = 0
  | .scan ageUsed ageEntry => ageUsed = 0 ∧ ageEntry = 0
  | _ => True

def StageHolds (maxNum : ℕ) (cfg : Config) : Stage → Prop
  | .checked _ => cfg.used < maxNum
  | .unique f => cfg.used < maxNum ∧ f ∉ cfg.table
  | .found f i => cfg.table[i]? = some f
  | _ => True

/-- The call moves its task and changes nothing else; what the new stage says of the table holds if
nothing stale was read. -/
def Moves (maxNum : ℕ) (st : State) (t : ℕ) (a : Action) (st' : State) : Prop :=
  ∃ s, st' = st.goto t s ∧
    (a.Fresh → StageHolds maxNum st.cfg (st.stage t) → StageHolds maxNum st.cfg s)

section Reads

variable (maxNum : ℕ) (st : State) (t : ℕ)

theorem moves_self (a : Action) : Moves maxNum st t a st :=
  ⟨st.stage t, by rw [State.goto, update_eq_self], fun _ h => h⟩

theorem moves_add (f : Rule) (age : ℕ) :
    Moves maxNum st t (.add f age) (addFilter maxNum st t f age) := by
  rw [addFilter]
  split
  · split_ifs with hfull
    · exact moves_self ..
    · refine ⟨.checked f, rfl, fun hfresh _ => ?_⟩
      cases hfresh
      exact Nat.not_le.mp hfull
    · exact moves_self ..
  · exact moves_self ..

theorem moves_isDuplicate : Moves maxNum st t .isDuplicate (isIpv4FilterDuplicate st t) := by
  rw [isIpv4FilterDuplicate]
  split
  next f hstage =>
    split_ifs with hdup
    · exact ⟨.idle, rfl, fun _ _ => trivial⟩
    · refine ⟨.unique f, rfl, fun _ hchecked => ?_⟩
      rw [hstage] at hchecked
      exact ⟨hchecked, hdup⟩
  next => exact moves_self ..

theorem moves_del (f : Rule) : Moves maxNum st t (.del f) (delFilter st t f) := by
  rw [delFilter]
  split
  · split_ifs
    · exact ⟨.scanning f 0, rfl, fun _ _ => trivial⟩
    · exact moves_self ..
  · exact moves_self ..

theorem moves_scan (ageUsed ageEntry : ℕ) :
    Moves maxNum st t (.scan ageUsed ageEntry) (scanEntry st t ageUsed ageEntry) := by
  rw [scanEntry]
  split
  next f i hstage =>
    split_ifs with hlt heq
    · refine ⟨.found f i, rfl, fun hfresh _ => ?_⟩
      obtain ⟨rfl, rfl⟩ := hfresh
      have hentry : st.cfg.table[i]? = some (st.cfg.slots i) := by
        rw [getElem?_table]
        exact if_pos hlt
      exact hentry.trans (congrArg some heq)
    · exact ⟨.scanning f (i + 1), rfl, fun _ _ => trivial⟩
    · exact ⟨.idle, rfl, fun _ _ => trivial⟩
  next => exact moves_self ..

end Reads

/-! ## The verdict on a step -/

section Steps

variable {maxNum t : ℕ} {st st' : State}

theorem verdict_moves (h : Sound maxNum st) {a : Action} (hmoves : Moves maxNum st t a st') :
    Verdict (Sound maxNum) (Sound maxNum) True (some st') := by
  obtain ⟨s, rfl, -⟩ := hmoves
  exact verdict_of_inv trivial { h with }

theorem verdict_append (h : Sound maxNum st) (t : ℕ) :
    Verdict (Sound maxNum) (Sound maxNum) (Guard maxNum st (t, .append))
      (some (appendFilter st t)) := by
  cases hstage : st.stage t with
  | unique f =>
    have hguard : Guard maxNum st (t, .append) ↔ st.cfg.used < maxNum ∧ f ∉ st.cfg.table := by
      simp [Guard, hstage]
    refine Verdict.congr ?_ hguard.symm
    simp only [appendFilter, hstage]
    by_cases hroom : st.cfg.used < maxNum ∧ f ∉ st.cfg.table
    · refine verdict_of_inv hroom ⟨?_, hroom.1, h.removed, h.intact⟩
      change (st.cfg.append f).table.Nodup
      rw [table_append]
      refine nodup_append.mpr ⟨h.nodup, nodup_cons.mpr ⟨nofun, nodup_nil⟩, ?_⟩
      rintro a ha b hb rfl
      exact hroom.2 (mem_singleton.mp hb ▸ ha)
    · refine verdict_of_not_sound hroom fun hsound => hroom ⟨hsound.le_max, fun hmem => ?_⟩
      have hnodup : (st.cfg.append f).table.Nodup := hsound.nodup
      rw [table_append] at hnodup
      exact (nodup_append.mp hnodup).2.2 f hmem f (mem_singleton_self f) rfl
  | _ =>
    refine verdict_of_inv ?_ ?_
    · simp [Guard, hstage]
    · simpa only [appendFilter, hstage] using h

theorem verdict_remove (h : Sound maxNum st) (t : ℕ) :
    Verdict (Sound maxNum) (Sound maxNum) (Guard maxNum st (t, .remove))
      (some (removeFilter st t)) := by
  cases hstage : st.stage t with
  | found f i =>
    have hguard : Guard maxNum st (t, .remove) ↔ st.cfg.table[i]? = some f := by
      simp [Guard, hstage]
    refine Verdict.congr ?_ hguard.symm
    simp only [removeFilter, hstage]
    split_ifs with hi
    · have htable := table_remove hi
      by_cases hthere : st.cfg.table[i]? = some f
      · refine verdict_of_inv hthere ⟨?_, ?_, ?_, h.intact⟩
        · change (st.cfg.remove i).table.Nodup
          rw [htable]
          exact h.nodup.eraseIdx i
        · exact Nat.le_trans (Nat.sub_le _ _) h.le_max
        · exact forall_mem_cons.mpr ⟨⟨i, hthere, htable⟩, h.removed⟩
      refine verdict_of_not_sound hthere fun hsound => ?_
      obtain ⟨k, hk, hafter⟩ := hsound.removed _ mem_cons_self
      -- Another rule than the argument was at `i`, so the one taken out is another one.
      have hentry : st.cfg.table[i]? = some (st.cfg.slots i) := by
        rw [getElem?_table, if_pos hi]
      refine eraseIdx_ne h.nodup hentry hk ?_ (htable.symm.trans hafter)
      rintro rfl
      exact hthere hentry
    · refine verdict_of_not_sound ?_ fun hsound => nomatch hsound.intact
      rw [getElem?_table, if_neg hi]
      nofun
  | _ =>
    refine verdict_of_inv ?_ ?_
    · simp [Guard, hstage]
    · simpa only [removeFilter, hstage] using h

/-- **One step** from a sound state meets its condition and leaves a sound state, or neither. -/
theorem judged_step (h : Sound maxNum st) (a : ℕ × Action) :
    Verdict (Sound maxNum) (Sound maxNum) (Guard maxNum st a) (step maxNum st a) := by
  obtain ⟨t, a⟩ := a
  cases a with
  | append => exact verdict_append h t
  | remove => exact verdict_remove h t
  | add f age => exact verdict_moves h (moves_add maxNum st t f age)
  | isDuplicate => exact verdict_moves h (moves_isDuplicate maxNum st t)
  | del f => exact verdict_moves h (moves_del maxNum st t f)
  | scan ageUsed ageEntry => exact verdict_moves h (moves_scan maxNum st t ageUsed ageEntry)
  | freeAll =>
    refine verdict_of_inv trivial ?_
    rw [freeFilters]
    split
    · exact ⟨nodup_nil, Nat.zero_le maxNum, h.removed, h.intact⟩
    · exact h

end Steps

theorem sound_init (maxNum : ℕ) : Sound maxNum State.init :=
  ⟨nodup_nil, Nat.zero_le maxNum, nofun, rfl⟩

/-- **The filter table under concurrent callers.** For a table of any size and any interleaving of
any number of tasks, every state reached is sound exactly when every update finds what its call has
seen before. -/
theorem filter_table_iff (maxNum : ℕ) (acts : List (ℕ × Action)) :
    (∀ pre st, pre <+: acts → runSteps (step maxNum) State.init pre = some st →
      Sound maxNum st) ↔ StepsMeet (step maxNum) (Guard maxNum) State.init acts :=
  sound_reached_iff (Sound maxNum) (fun _ h => h) (fun _ a h => judged_step h a)
    (sound_init maxNum) acts

/-- **Races.** Two tasks that add the same rule find no duplicate, and the table has it twice. Two
that add different rules find the last place free, and the table has one rule too many. Two that
delete the same rule find it at the front, and the second takes out the rule behind it. -/
theorem races :
    let f : Rule := ⟨{ Rule.blank.filter with remoteIp := 1, matchMask := 1 }, 0⟩
    let g : Rule := ⟨{ Rule.blank.filter with remoteIp := 2, matchMask := 1 }, 0⟩
    (runSteps (step 4) State.init [(0, .add f 0), (0, .isDuplicate), (1, .add f 0),
      (1, .isDuplicate), (0, .append), (1, .append)]).map (fun st => st.cfg.table) =
      some [f, f] ∧
    (runSteps (step 1) State.init [(0, .add f 0), (1, .add g 0), (0, .isDuplicate), (0, .append),
      (1, .isDuplicate), (1, .append)]).map (fun st => st.cfg.used) = some 2 ∧
    (runSteps (step 4) State.init [(0, .add f 0), (0, .isDuplicate), (0, .append), (0, .add g 0),
      (0, .isDuplicate), (0, .append), (0, .del f), (1, .del f), (0, .scan 0 0), (1, .scan 0 0),
      (0, .remove), (1, .remove)]).map (fun st => st.deletes.map fun d => (d.arg, d.before)) =
      some [(f, [g]), (f, [f, g])] := by
  decide

/-! ## Calls that do not overlap -/

/-- No other task is in a call, and nothing stale is read. -/
def Serial (st : State) (a : ℕ × Action) : Prop :=
  (∀ t, t ≠ a.1 → st.stage t = .idle) ∧ a.2.Fresh

section Serial

variable {maxNum : ℕ} {st st' : State} {t : ℕ}

theorem stageHolds_goto (st : State) (hothers : ∀ t', t' ≠ t → st.stage t' = .idle) (s : Stage)
    (hs : StageHolds maxNum st.cfg s) (t' : ℕ) :
    StageHolds maxNum st.cfg ((st.goto t s).stage t') := by
  simp only [State.goto]
  by_cases heq : t' = t
  · rwa [heq, update_self]
  · rw [update_of_ne heq, hothers t' heq]
    trivial

theorem stageHolds_moves {a : Action} (hmoves : Moves maxNum st t a st') (hfresh : a.Fresh)
    (hothers : ∀ t', t' ≠ t → st.stage t' = .idle) (ht : StageHolds maxNum st.cfg (st.stage t))
    (t' : ℕ) : StageHolds maxNum st'.cfg (st'.stage t') := by
  obtain ⟨s, rfl, hs⟩ := hmoves
  exact stageHolds_goto st hothers s (hs hfresh ht) t'

theorem stageHolds_step (h : ∀ t', StageHolds maxNum st.cfg (st.stage t')) {a : ℕ × Action}
    (ha : Serial st a) (hstep : step maxNum st a = some st') (t' : ℕ) :
    StageHolds maxNum st'.cfg (st'.stage t') := by
  obtain ⟨t, a⟩ := a
  obtain ⟨hothers, hfresh⟩ := ha
  have ht := h t
  cases a with
  | add f age =>
    cases hstep
    exact stageHolds_moves (moves_add maxNum st t f age) hfresh hothers ht t'
  | isDuplicate =>
    cases hstep
    exact stageHolds_moves (moves_isDuplicate maxNum st t) hfresh hothers ht t'
  | append =>
    cases hstep
    rw [appendFilter]
    split
    · exact stageHolds_goto (st.commit _) hothers .idle trivial t'
    · exact h t'
  | del f =>
    cases hstep
    exact stageHolds_moves (moves_del maxNum st t f) hfresh hothers ht t'
  | scan ageUsed ageEntry =>
    cases hstep
    exact stageHolds_moves (moves_scan maxNum st t ageUsed ageEntry) hfresh hothers ht t'
  | remove =>
    cases hstep
    rw [removeFilter]
    split
    · split_ifs
      · exact stageHolds_goto (st.commit _) hothers .idle trivial t'
      · exact stageHolds_goto st hothers .idle trivial t'
    · exact h t'
  | freeAll =>
    cases hstep
    rw [freeFilters]
    split
    next hstage =>
      have hidle : st.stage t' = .idle := by
        by_cases heq : t' = t
        · rw [heq, hstage]
        · exact hothers t' heq
      change StageHolds maxNum _ (st.stage t')
      rw [hidle]
      trivial
    next => exact h t'

/-- **Calls that do not overlap** meet the condition. -/
theorem stepsMeet_of_serial {acts : List (ℕ × Action)}
    (h : StepsMeet (step maxNum) Serial State.init acts) :
    StepsMeet (step maxNum) (Guard maxNum) State.init acts := by
  have hinit : ∀ t, StageHolds maxNum State.init.cfg (State.init.stage t) := fun _ => trivial
  refine StepsMeet.of_inv (fun st => ∀ t, StageHolds maxNum st.cfg (st.stage t)) ?_
    (fun st a st' hst ha hstep => stageHolds_step hst ha hstep) hinit h
  rintro st ⟨t, a⟩ hst -
  cases a with
  | append =>
    intro f hstage
    have ht := hst t
    rwa [hstage] at ht
  | remove =>
    intro f i hstage
    have ht := hst t
    rwa [hstage] at ht
  | _ => trivial

/-- **Calls that do not overlap** keep the table sound. -/
theorem serial_calls_sound (acts : List (ℕ × Action))
    (h : StepsMeet (step maxNum) Serial State.init acts)
    (hrun : runSteps (step maxNum) State.init acts = some st) : Sound maxNum st :=
  (sound_reached_iff (Sound maxNum) (fun _ h => h) (fun _ a h => judged_step h a)
    (sound_init maxNum) acts).mpr (stepsMeet_of_serial h) acts st prefix_rfl hrun

/-- Two tasks by turns: one adds a rule, the other one more and the first again, which is refused;
then the first rule is deleted. -/
def serialCalls : List (ℕ × Action) :=
  [(0, .add .blank 0), (0, .isDuplicate), (0, .append),
    (1, .add ⟨Rule.blank.filter, 1⟩ 0), (1, .isDuplicate), (1, .append),
    (1, .add .blank 0), (1, .isDuplicate), (0, .del .blank), (0, .scan 0 0), (0, .remove)]

theorem serial_calls_sound_two :
    ∃ st, runSteps (step 4) State.init serialCalls = some st ∧ Sound 4 st ∧
      st.cfg.table = [⟨Rule.blank.filter, 1⟩] ∧ st.deletes.length = 1 := by
  refine ⟨_, rfl, serial_calls_sound serialCalls ?_ rfl, rfl, rfl⟩
  repeat' refine StepsMeet.cons_of_eq ⟨?_, by trivial⟩ rfl ?_
  -- The other of the two tasks is idle at each step, and so is every third one.
  all_goals try trivial
  all_goals rintro (_ | _ | t) ht <;> first | rfl | exact absurd rfl ht

end Serial

end WiseSdk.Repeater.Concurrent
