import WiseSdk.Library.CString

/-!
# Configuration values in files

`api/scm_fs.c` keeps a configuration value of namespace `ns` and key `key` in the file
`/config/<ns>_<key>`. `scm_fs_clear_all_config_value` walks the directory and removes the files of
one namespace. It compares the names only over the length of the one in the file, so that clearing
`wifi` also removes the values of a namespace `wi`.

The file system is SPIFFS: one flat table of slots. A directory stream is a position in the table,
and removing a file empties its slot without moving the others.
-/

namespace WiseSdk.Fs

open Library List Option

/-! ## The file system -/

structure File where
  name : List Byte
  data : List Byte
  deriving DecidableEq, Repr

/-- The slots of the file system; an empty slot is free or deleted. -/
abbrev Slots := List (Option File)

/-- `SPIFFS_readdir` from the slot at place `i` on: the file, and the place after it. -/
def nextFile : Slots → ℕ → Option (File × ℕ)
  | [], _ => none
  | some f :: _, i => some (f, i + 1)
  | none :: slots, i => nextFile slots (i + 1)

/-- `readdir` on a stream at place `d`. -/
def readdir (slots : Slots) (d : ℕ) : Option (File × ℕ) := nextFile (slots.drop d) d

/-- `remove`, which fails if there is no such file. -/
def remove : Slots → List Byte → Option Slots
  | [], _ => none
  | none :: slots, path => (remove slots path).map (none :: ·)
  | some f :: slots, path =>
    if f.name = path then some (none :: slots) else (remove slots path).map (some f :: ·)

/-- The content of the file of a name. -/
def lookup : Slots → List Byte → Option (List Byte)
  | [], _ => none
  | none :: slots, path => lookup slots path
  | some f :: slots, path => if f.name = path then some f.data else lookup slots path

/-- `write` to a file opened with `O_CREAT | O_TRUNC`: a file of the name is replaced. The new one
takes the slot at place `i` if it is empty, or one behind the last. -/
def writeFile (slots : Slots) (i : ℕ) (f : File) : Slots :=
  let slots := (remove slots f.name).getD slots
  if slots[i]? = some none then slots.set i (some f) else slots ++ [some f]

/-! ## Configuration values -/

def configDir : List Byte := ['/', 'c', 'o', 'n', 'f', 'i', 'g'].map chr

def configPathMax : ℕ := 128

/-- `snprintf` of a path into a buffer of CONFIG_PATH_MAX bytes. -/
def snprintfPath (path : List Byte) : List Byte := path.take (configPathMax - 1)

/-- The text `CONFIG_DIR "/%s_%s"`. -/
def configName (ns key : List Byte) : List Byte := configDir ++ chr '/' :: (ns ++ chr '_' :: key)

def scmFsReadConfigValue (slots : Slots) (ns key : List Byte) (len : ℕ) : Option (List Byte) :=
  if len = 0 then none else (lookup slots (snprintfPath (configName ns key))).map (List.take len)

def scmFsWriteConfigValue (slots : Slots) (i : ℕ) (ns key buf : List Byte) : Slots :=
  if buf = [] then slots else writeFile slots i ⟨snprintfPath (configName ns key), buf⟩

/-- The test of the walk: the file is passed over.  `fname` is the name behind the directory. -/
def skipsFile (ns : Option (List Byte)) (fname : List Byte) : Bool :=
  match ns, strchr fname (chr '_') with
  | some ns, some delim => strncmp fname ns delim != 0
  | _, _ => false

/-- The loop of `scm_fs_clear_all_config_value`. A path shorter than the directory would be read
behind its end. -/
def clearLoop (ns : Option (List Byte)) : ℕ → Slots → ℕ → Option Slots
  | 0, _, _ => none
  | fuel + 1, slots, d =>
    match readdir slots d with
    | none => some slots
    | some (entry, d) =>
      if entry.name = [chr '.'] ∨ entry.name = [chr '.', chr '.'] then
        clearLoop ns fuel slots d
      else
        let path := snprintfPath entry.name
        if path.length < configDir.length + 1 then none
        else if skipsFile ns (path.drop (configDir.length + 1)) then
          clearLoop ns fuel slots d
        else clearLoop ns fuel ((remove slots path).getD slots) d

def scmFsClearAllConfigValue (ns : Option (List Byte)) (slots : Slots) : Option Slots :=
  clearLoop ns (slots.length + 1) slots 0

/-! ## Stores of configuration values -/

/-- A name that a value may be written under: not empty, without NUL, `/` and `_`. -/
structure Name where
  bytes : List Byte
  ne_nil : bytes ≠ []
  no_nul : 0 ∉ bytes
  no_slash : chr '/' ∉ bytes
  no_underscore : chr '_' ∉ bytes

def Distinct (slots : Slots) : Prop :=
  ∀ (i j : ℕ) (f g : File), slots[i]? = some (some f) → slots[j]? = some (some g) →
    f.name = g.name → i = j

/-- The file is one that a value was written to, with a path that fits the buffer. -/
def IsConfigFile (f : File) : Prop :=
  ∃ ns key : Name, f.name = configName ns.bytes key.bytes ∧ f.name.length < configPathMax

/-- Slots that hold configuration values and nothing else. -/
structure ConfigStore where
  slots : Slots
  distinct : Distinct slots
  config : ∀ f, some f ∈ slots → IsConfigFile f

/-- **Clearing is exact**: no value of the namespace is left, and every other one reads as
before. -/
def ClearsExactly (c : ConfigStore) (ns : Name) : Prop :=
  ∃ slots', scmFsClearAllConfigValue (some ns.bytes) c.slots = some slots' ∧
    ∀ n key : Name, (configName n.bytes key.bytes).length < configPathMax → ∀ len,
      scmFsReadConfigValue slots' n.bytes key.bytes len =
        if n.bytes = ns.bytes then none else scmFsReadConfigValue c.slots n.bytes key.bytes len

/-! ## The slots -/

variable {path ns : List Byte} {slots pre slots' post : Slots}

theorem remove_eq_some (h : remove slots path = some slots') :
    ∃ i f, slots[i]? = some (some f) ∧ f.name = path ∧ slots' = slots.set i none := by
  induction slots generalizing slots' with
  | nil => cases h
  | cons s slots ih =>
    cases s with
    | none =>
      obtain ⟨t, ht, rfl⟩ := map_eq_some_iff.mp h
      obtain ⟨i, f, hi, hf, rfl⟩ := ih ht
      exact ⟨i + 1, f, hi, hf, rfl⟩
    | some f =>
      rw [remove] at h
      split_ifs at h with hf
      · cases h
        exact ⟨0, f, rfl, hf, rfl⟩
      · obtain ⟨t, ht, rfl⟩ := map_eq_some_iff.mp h
        obtain ⟨i, g, hi, hg, rfl⟩ := ih ht
        exact ⟨i + 1, g, hi, hg, rfl⟩

variable {f g : File}

theorem name_ne_of_remove_eq_none (h : remove slots path = none) (hf : some f ∈ slots) :
    f.name ≠ path := by
  induction slots with
  | nil => cases hf
  | cons s slots ih =>
    cases s with
    | none =>
      exact ih (map_eq_none_iff.mp h) (mem_of_ne_of_mem (by simp) hf)
    | some g =>
      rw [remove] at h
      split_ifs at h with hg
      rcases mem_cons.mp hf with heq | hf
      · cases heq
        exact hg
      · exact ih (map_eq_none_iff.mp h) hf

theorem remove_append (h : ∀ g, some g ∈ pre → g.name ≠ f.name) (post : Slots) :
    remove (pre ++ some f :: post) f.name = some (pre ++ none :: post) := by
  induction pre with
  | nil => simp [remove]
  | cons s pre ih =>
    have hrest := ih fun g hg => h g (mem_cons_of_mem _ hg)
    cases s with
    | none => rw [cons_append, remove, hrest]; rfl
    | some g => rw [cons_append, remove, if_neg (h g mem_cons_self), hrest]; rfl

theorem Distinct.set_none (h : Distinct slots) (k : ℕ) : Distinct (slots.set k none) := by
  have hget {i : ℕ} {f : File} (hi : (slots.set k none)[i]? = some (some f)) :
      slots[i]? = some (some f) := by
    have hk : k ≠ i := by
      rintro rfl
      simp [getElem?_set] at hi
    rwa [getElem?_set_ne hk] at hi
  exact fun i j f g hi hj => h i j f g (hget hi) (hget hj)

theorem mem_of_mem_set_none {k : ℕ} (h : some f ∈ slots.set k none) : some f ∈ slots := by
  rcases mem_or_eq_of_mem_set h with h | h
  · exact h
  · cases h

/-! ## Writing keeps a store -/

section Write

variable {slots : Slots} {f : File}

theorem distinct_place (h : Distinct slots) (hnew : ∀ g, some g ∈ slots → g.name ≠ f.name) (i : ℕ) :
    Distinct (if slots[i]? = some none then slots.set i (some f) else slots ++ [some f]) := by
  -- In either case the new file is at one place, and the others are where they were.
  obtain ⟨k, hk⟩ : ∃ k, ∀ j g,
      (if slots[i]? = some none then slots.set i (some f) else slots ++ [some f])[j]? =
        some (some g) → j = k ∧ g = f ∨ j ≠ k ∧ slots[j]? = some (some g) := by
    split_ifs with hi
    · refine ⟨i, fun j g hj => ?_⟩
      by_cases hij : i = j
      · subst hij
        rw [getElem?_set_self (List.getElem?_eq_some_iff.mp hi).1] at hj
        cases hj
        exact .inl ⟨rfl, rfl⟩
      · rw [getElem?_set_ne hij] at hj
        exact .inr ⟨Ne.symm hij, hj⟩
    refine ⟨slots.length, fun j g hj => ?_⟩
    rw [getElem?_append] at hj
    split_ifs at hj with hlt
    · exact .inr ⟨hlt.ne, hj⟩
    obtain ⟨hzero, hg⟩ := List.getElem?_eq_some_iff.mp hj
    have hj' : j = slots.length := by
      simp only [length_singleton] at hzero
      omega
    subst hj'
    simp at hg
    exact .inl ⟨rfl, hg.symm⟩
  intro a b g g' ha hb hname
  rcases hk a g ha with ⟨hak, hgf⟩ | ⟨-, ha'⟩ <;> rcases hk b g' hb with ⟨hbk, hgf'⟩ | ⟨-, hb'⟩
  · exact hak.trans hbk.symm
  · exact absurd (hgf ▸ hname.symm) (hnew g' (mem_of_getElem? hb'))
  · exact absurd (hgf' ▸ hname) (hnew g (mem_of_getElem? ha'))
  · exact h a b g g' ha' hb' hname

theorem distinct_writeFile (h : Distinct slots) (i : ℕ) (f : File) :
    Distinct (writeFile slots i f) := by
  rw [writeFile]
  cases hrem : remove slots f.name with
  | none => exact distinct_place h (fun g hg => name_ne_of_remove_eq_none hrem hg) i
  | some slots' =>
    obtain ⟨k, g, hk, hg, rfl⟩ := remove_eq_some hrem
    refine distinct_place (h.set_none k) (fun g' hg' hname => ?_) i
    -- A second file of the name would be at the same place, which is empty now.
    obtain ⟨j, hj⟩ := mem_iff_getElem?.mp hg'
    have hjk : k ≠ j := by
      rintro rfl
      simp [getElem?_set] at hj
    rw [getElem?_set_ne hjk] at hj
    exact hjk (h k j g g' hk hj (hg.trans hname.symm))

theorem mem_writeFile {i : ℕ} (h : some g ∈ writeFile slots i f) : g = f ∨ some g ∈ slots := by
  have hrest : some g ∈ (remove slots f.name).getD slots → some g ∈ slots := by
    cases hrem : remove slots f.name with
    | none => exact id
    | some slots' =>
      obtain ⟨k, -, -, -, rfl⟩ := remove_eq_some hrem
      exact mem_of_mem_set_none
  rw [writeFile] at h
  split_ifs at h
  · rcases mem_or_eq_of_mem_set h with h | h
    · exact .inr (hrest h)
    · cases h
      exact .inl rfl
  · rcases mem_append.mp h with h | h
    · exact .inr (hrest h)
    · cases mem_singleton.mp h
      exact .inl rfl

end Write

def ConfigStore.write (c : ConfigStore) (i : ℕ) (ns key : Name) (buf : List Byte)
    (hlen : (configName ns.bytes key.bytes).length < configPathMax) : ConfigStore where
  slots := scmFsWriteConfigValue c.slots i ns.bytes key.bytes buf
  distinct := by
    rw [scmFsWriteConfigValue]
    split_ifs
    · exact c.distinct
    · exact distinct_writeFile c.distinct i _
  config := by
    intro f hf
    rw [scmFsWriteConfigValue] at hf
    split_ifs at hf
    · exact c.config f hf
    have hfit : snprintfPath (configName ns.bytes key.bytes) = configName ns.bytes key.bytes :=
      take_of_length_le (Nat.le_sub_one_of_lt hlen)
    rcases mem_writeFile hf with rfl | hf
    · exact ⟨ns, key, hfit, by rw [hfit]; exact hlen⟩
    · exact c.config f hf

def ConfigStore.empty : ConfigStore where
  slots := []
  distinct := fun _ _ _ _ h => by simp at h
  config := fun _ h => by cases h

/-! ## The walk -/

theorem skipsFile_config (ns n key : Name) :
    skipsFile (some ns.bytes) (n.bytes ++ chr '_' :: key.bytes) = true ↔ ¬n.bytes <+: ns.bytes := by
  have hnul : 0 ∉ n.bytes ++ chr '_' :: key.bytes := by
    rw [mem_append, mem_cons]
    rintro (h | h | h)
    · exact n.no_nul h
    · exact absurd h (by decide)
    · exact key.no_nul h
  simp only [skipsFile, strchr_append n.no_underscore]
  rw [bne_iff_ne, ne_eq, strncmp_eq_zero_iff hnul ns.no_nul, take_left]
  exact not_congr prefix_iff_eq_take.symm

theorem drop_configName (ns key : List Byte) :
    (configName ns key).drop (configDir.length + 1) = ns ++ chr '_' :: key := rfl

theorem length_configName (ns key : List Byte) :
    (configName ns key).length = configDir.length + 1 + (ns.length + 1 + key.length) := by
  simp only [configName, length_append, length_cons]
  omega

def survivor (ns : List Byte) (slot : Option File) : Option File :=
  slot.filter fun f => skipsFile (some ns) (f.name.drop (configDir.length + 1))

theorem clearLoop_some (fuel : ℕ) (hf : IsConfigFile f) (hpre : ∀ g, some g ∈ pre → g.name ≠ f.name)
    :
    clearLoop (some ns) (fuel + 1) (pre ++ some f :: post) pre.length =
      clearLoop (some ns) fuel (pre ++ survivor ns (some f) :: post) (pre.length + 1) := by
  obtain ⟨n, key, hname, hfit⟩ := hf
  have hread : readdir (pre ++ some f :: post) pre.length = some (f, pre.length + 1) := by
    rw [readdir, drop_left, nextFile]
  have hlong : configDir.length + 1 ≤ f.name.length := by
    rw [hname, length_configName]
    omega
  have hdots : ¬(f.name = [chr '.'] ∨ f.name = [chr '.', chr '.']) := by
    rintro (h | h) <;> rw [h] at hlong <;> exact absurd hlong (by decide)
  have hpath : snprintfPath f.name = f.name :=
    take_of_length_le (Nat.le_sub_one_of_lt hfit)
  rw [clearLoop, hread]
  simp only [if_neg hdots, hpath, if_neg (Nat.not_lt.mpr hlong)]
  cases hskip : skipsFile (some ns) (f.name.drop (configDir.length + 1)) with
  | true => simp [survivor, Option.filter, hskip]
  | false => simp [survivor, Option.filter, hskip, remove_append hpre]

theorem clearLoop_none (ns : Option (List Byte)) (fuel : ℕ) (pre post : Slots) :
    clearLoop ns fuel (pre ++ none :: post) pre.length =
      clearLoop ns fuel (pre ++ none :: post) (pre.length + 1) := by
  have hread : readdir (pre ++ none :: post) pre.length =
      readdir (pre ++ none :: post) (pre.length + 1) := by
    rw [readdir, readdir, drop_left, nextFile]
    congr 1
    rw [drop_append]
    simp
  cases fuel with
  | zero => rfl
  | succ fuel => rw [clearLoop, clearLoop, hread]

/-- **The walk** keeps or empties every slot by its test; the slots already read hold other
names. -/
theorem clearLoop_eq (pre post : Slots) {fuel : ℕ} (hfuel : post.length < fuel)
    (hdistinct : Distinct (pre ++ post)) (hconfig : ∀ f, some f ∈ post → IsConfigFile f) :
    clearLoop (some ns) fuel (pre ++ post) pre.length = some (pre ++ post.map (survivor ns)) := by
  induction post generalizing pre fuel with
  | nil =>
    obtain ⟨fuel, rfl⟩ := Nat.exists_eq_add_of_lt hfuel
    simp [clearLoop, readdir, nextFile]
  | cons slot post ih =>
    have hrest : ∀ f, some f ∈ post → IsConfigFile f :=
      fun f hf => hconfig f (mem_cons_of_mem _ hf)
    cases slot with
    | none =>
      have := ih (pre ++ [none]) (Nat.lt_of_succ_lt hfuel)
        (by simpa using hdistinct) hrest
      rw [clearLoop_none]
      simpa [survivor] using this
    | some f =>
      have hpre : ∀ g, some g ∈ pre → g.name ≠ f.name := by
        intro g hg hname
        obtain ⟨i, hi⟩ := mem_iff_getElem?.mp hg
        have hlt := (List.getElem?_eq_some_iff.mp hi).1
        have := hdistinct i pre.length g f (by rwa [getElem?_append_left hlt])
          (by simp) hname
        omega
      have hdistinct' : Distinct (pre ++ survivor ns (some f) :: post) := by
        rw [survivor, Option.filter]
        split_ifs
        · exact hdistinct
        · simpa using hdistinct.set_none pre.length
      obtain ⟨fuel, rfl⟩ : ∃ k, fuel = k + 1 := ⟨fuel - 1, by omega⟩
      have := ih (pre ++ [survivor ns (some f)])
        (Nat.lt_of_succ_lt_succ hfuel) (by simpa using hdistinct') hrest
      rw [clearLoop_some fuel (hconfig f mem_cons_self) hpre]
      simpa using this

theorem lookup_survivors (ns : List Byte) (slots : Slots) (path : List Byte) :
    lookup (slots.map (survivor ns)) path =
      if skipsFile (some ns) (path.drop (configDir.length + 1)) then lookup slots path
      else none := by
  induction slots with
  | nil => simp [lookup]
  | cons slot slots ih =>
    cases slot with
    | none => simpa [survivor, lookup] using ih
    | some f =>
      rw [map_cons, survivor, Option.filter]
      by_cases hf : f.name = path
      · subst hf
        split_ifs with hskip
        · simp [lookup]
        · simpa [lookup, hskip] using ih
      · split_ifs at ih ⊢ <;> simpa [lookup, hf] using ih

theorem exists_file_of_lookup (h : lookup slots path ≠ none) :
    ∃ f, some f ∈ slots ∧ f.name = path := by
  induction slots with
  | nil => exact absurd rfl h
  | cons slot slots ih =>
    cases slot with
    | none =>
      obtain ⟨f, hf, hname⟩ := ih h
      exact ⟨f, mem_cons_of_mem _ hf, hname⟩
    | some g =>
      by_cases hg : g.name = path
      · exact ⟨g, mem_cons_self, hg⟩
      · rw [lookup, if_neg hg] at h
        obtain ⟨f, hf, hname⟩ := ih h
        exact ⟨f, mem_cons_of_mem _ hf, hname⟩

theorem lookup_of_clear (c : ConfigStore) (ns : Name) :
    ∃ slots', scmFsClearAllConfigValue (some ns.bytes) c.slots = some slots' ∧
      ∀ n key : Name, lookup slots' (configName n.bytes key.bytes) =
        if n.bytes <+: ns.bytes then none else lookup c.slots (configName n.bytes key.bytes) := by
  have hwalk : clearLoop (some ns.bytes) (c.slots.length + 1) ([] ++ c.slots) 0 = _ :=
    clearLoop_eq [] c.slots (Nat.lt_succ_self _) c.distinct fun f hf => c.config f hf
  refine ⟨_, hwalk, fun n key => ?_⟩
  rw [nil_append, lookup_survivors, drop_configName]
  simp only [skipsFile_config ns n key, ite_not]

/-- **Clearing a namespace.** Exactly the values of the namespace go if and only if no stored
namespace is a proper prefix of the name. -/
theorem clear_exact_iff (c : ConfigStore) (ns : Name) :
    ClearsExactly c ns ↔ ∀ n key : Name, lookup c.slots (configName n.bytes key.bytes) ≠ none →
      n.bytes <+: ns.bytes → n.bytes = ns.bytes := by
  obtain ⟨slots', hclear, hlookup⟩ := lookup_of_clear c ns
  have hread (slots : Slots) {n key : Name} (len : ℕ)
      (hfit : (configName n.bytes key.bytes).length < configPathMax) :
      scmFsReadConfigValue slots n.bytes key.bytes len =
        if len = 0 then none
        else (lookup slots (configName n.bytes key.bytes)).map (List.take len) := by
    rw [scmFsReadConfigValue, snprintfPath, take_of_length_le (Nat.le_sub_one_of_lt hfit)]
  constructor
  · rintro ⟨slots'', hclear', hexact⟩ n key hstored hprefix
    cases hclear.symm.trans hclear'
    by_contra hne
    obtain ⟨f, hf, hname⟩ := exists_file_of_lookup hstored
    obtain ⟨-, -, -, hfit⟩ := c.config f hf
    rw [hname] at hfit
    have := hexact n key hfit 1
    rw [hread _ _ hfit, hread _ _ hfit, if_neg hne, hlookup, if_pos hprefix] at this
    exact hstored (map_eq_none_iff.mp this.symm)
  · intro hstored
    refine ⟨slots', hclear, fun n key hfit len => ?_⟩
    rw [hread _ _ hfit, hread _ _ hfit, hlookup]
    by_cases hne : n.bytes = ns.bytes
    · simp [hne]
    rw [if_neg hne]
    by_cases hprefix : n.bytes <+: ns.bytes
    · have hnone : lookup c.slots (configName n.bytes key.bytes) = none :=
        by_contra fun h => hne (hstored n key h hprefix)
      rw [hnone, if_pos hprefix]
    · rw [if_neg hprefix]

/-- After a value `1` is written under `wi_a`, clearing `wifi` removes it. -/
theorem clear_takes_shorter_namespace :
    ∃ (c : ConfigStore) (wi a wifi : Name), wi.bytes = [chr 'w', chr 'i'] ∧
      wifi.bytes = [chr 'w', chr 'i', chr 'f', chr 'i'] ∧
      c.slots = scmFsWriteConfigValue [] 0 wi.bytes a.bytes [1] ∧
      scmFsReadConfigValue c.slots wi.bytes a.bytes 1 = some [1] ∧
      scmFsClearAllConfigValue (some wifi.bytes) c.slots = some [none] ∧ ¬ClearsExactly c wifi := by
  let wi : Name := ⟨[chr 'w', chr 'i'], by decide, by decide, by decide, by decide⟩
  let a : Name := ⟨[chr 'a'], by decide, by decide, by decide, by decide⟩
  let wifi : Name :=
    ⟨[chr 'w', chr 'i', chr 'f', chr 'i'], by decide, by decide, by decide, by decide⟩
  have hclear : scmFsClearAllConfigValue (some wifi.bytes)
      (scmFsWriteConfigValue [] 0 wi.bytes a.bytes [1]) = some [none] := by decide
  refine ⟨ConfigStore.empty.write 0 wi a [1] (by decide), wi, a, wifi, rfl, rfl, rfl, by decide,
    hclear, ?_⟩
  rintro ⟨slots', hclear', hexact⟩
  cases hclear.symm.trans hclear'
  exact absurd (hexact wi a (by decide) 1) (by decide)

end WiseSdk.Fs
