import Mathlib.Data.List.Sort
import Mathlib.Data.Vector.Defs
import WiseSdk.Library.ByteMemory
import WiseSdk.Library.Extent
import WiseSdk.Library.Runs

/-!
# The partition table

The table is the array `partition` of the last flash device; an entry is in use if its name does not
begin with `0xff`. Adding puts the new entry in the first free one and sorts; deleting blanks an
entry and sorts.

The sort (`flash_sort_partition_table`) picks the first entry with the smallest start again and
again, and gives what it picks the start `0xFFFFFFFF`. It skips such a start, so a partition that
begins there is dropped. It is called on two kinds of tables: those in order but for a gap,
and those with one more entry at the end (`insertionSort_concat`).

The scan for a free entry has no bound, and the overlap test adds in 32 bits. `Admits` is the
condition under which an add does not fall victim to either.
-/

namespace WiseSdk.Flash

open Library
open List hiding Vector

/-! ## The source's functions -/

structure FlashPart where
  name : Vector Byte 16
  start : BitVec 32
  size : BitVec 32
  dataLength : BitVec 32
  flags : BitVec 32
  deriving DecidableEq, Repr

namespace FlashPart

def blank : FlashPart :=
  ⟨Vector.replicate 16 0xff#8, 0xffffffff#32, 0xffffffff#32, 0xffffffff#32, 0xffffffff#32⟩

def Free (q : FlashPart) : Prop := q.name[0] = 0xff#8
deriving Decidable

/-- The name as a string: up to the first zero byte, or all 16. -/
def label (q : FlashPart) : List Byte := q.name.toList.takeWhile (· ≠ 0#8)

def extent (q : FlashPart) : Extent := ⟨q.start.toNat, q.start.toNat + q.size.toNat⟩

end FlashPart

open FlashPart (blank)

/-- A flash device as `spi_flash_find_by_addr` sees it. -/
structure Mapping where
  memBase : BitVec 32
  size : BitVec 32
  deriving DecidableEq, Repr

/-- `spi_flash_find_by_addr`: the first comparison is of signed words, the second of unsigned
ones. -/
def spiFlashFindByAddr (devs : List Mapping) (addr : BitVec 32) : Option Mapping :=
  devs.find? fun d => d.memBase.sle addr && addr < d.memBase + d.size

/-- `flash_lookup_partition`; two names are the same for `strncmp` if their labels are. -/
def flashLookupPartition (t : List FlashPart) (label : List Byte) : Option ℕ :=
  t.findIdx? fun q => q.label = label

/-- The loop that looks for the smallest start, from entry `j` on. -/
def minScan : BitVec 32 → Option ℕ → ℕ → List FlashPart → Option ℕ
  | _, minp, _, [] => minp
  | min, minp, j, q :: qs =>
    if q.start < min then minScan q.start (some j) (j + 1) qs else minScan min minp (j + 1) qs

/-- The rounds of the sort, each giving the next entry of `temp`. -/
def sortLoop : ℕ → List FlashPart → List FlashPart
  | 0, _ => []
  | k + 1, t =>
    match minScan 0xffffffff#32 none 0 t with
    | none => blank :: sortLoop k t
    | some j => t.getD j .blank ::
        sortLoop k (t.set j { t.getD j .blank with start := 0xffffffff#32 })

def flashSortPartitionTable (t : List FlashPart) : List FlashPart := sortLoop t.length t

inductive AddResult where
  | ok
  | einval
  | eexist
  deriving DecidableEq, Repr

/-- The overlap test, with its 32-bit sums. -/
def overlapTest (p q : FlashPart) : Prop :=
  p.start < q.start + q.size ∧ q.start < p.start + p.size
deriving Decidable

/-- How the scan for a free entry ends. -/
inductive Scan where
  | past
  | overlap
  | free (i : ℕ)
  deriving DecidableEq, Repr

/-- The scan from entry `i` on.  The loop has no bound: with no entries left it reads past the
table. -/
def scanFree (p : FlashPart) : ℕ → List FlashPart → Scan
  | _, [] => .past
  | i, q :: qs =>
    if q.Free then .free i else if overlapTest p q then .overlap else scanFree p (i + 1) qs

/-- The checks before the scan, and the first that fails. -/
def addChecks (devs : List Mapping) (t : List FlashPart) (p : FlashPart) : AddResult :=
  if spiFlashFindByAddr devs p.start = none then .einval
  else if p.name[0] = 0#8 ∨ p.name[0] = 0xff#8 then .einval
  else if (flashLookupPartition t p.label).isSome then .eexist
  else if p.size = -1#32 then .einval
  else .ok

/-- `flash_add_partition` on the last flash's table; nothing if the scan leaves the table. -/
def flashAddPartition (devs : List Mapping) (t : List FlashPart) (p : FlashPart) :
    Option (AddResult × List FlashPart) :=
  match addChecks devs t p with
  | .ok =>
    match scanFree p 0 t with
    | .past => none
    | .overlap => some (.einval, t)
    | .free i => some (.ok, flashSortPartitionTable (t.set i p))
  | err => some (err, t)

/-- `flash_delete_partition` of entry `i`; `erased` says whether `flash_erase` succeeds. -/
def flashDeletePartition (t : List FlashPart) (i : ℕ) (erased : Bool) : List FlashPart :=
  if erased then flashSortPartitionTable (t.set i .blank) else t

/-! ## The sort -/

def kept (t : List FlashPart) : List FlashPart := t.filter (·.start ≠ 0xffffffff#32)

def InOrder (t : List FlashPart) : Prop := t.Pairwise fun a b => a.start ≤ b.start

section Sorting

variable {t S : List FlashPart} {c : FlashPart} {k : ℕ}

theorem minScan_spec (qs : List FlashPart) (min : BitVec 32) (minp : Option ℕ) (j : ℕ) :
    (minScan min minp j qs = minp ∧ ∀ q ∈ qs, min ≤ q.start) ∨
    ∃ pre e post, qs = pre ++ e :: post ∧ minScan min minp j qs = some (j + pre.length) ∧
      e.start < min ∧ (∀ a ∈ pre, e.start < a.start) ∧ ∀ a ∈ post, e.start ≤ a.start := by
  induction qs generalizing min minp j with
  | nil => exact .inl ⟨rfl, by simp⟩
  | cons q qs ih =>
    rw [minScan]
    split_ifs with hlt
    · refine .inr ?_
      rcases ih q.start (some j) (j + 1) with ⟨hj, hle⟩ | ⟨pre, e, post, rfl, hj, he, hpre, hpost⟩
      · exact ⟨[], q, qs, rfl, hj, hlt, by simp, hle⟩
      refine ⟨q :: pre, e, post, rfl, ?_, BitVec.lt_trans he hlt,
        forall_mem_cons.mpr ⟨he, hpre⟩, hpost⟩
      rw [hj, length_cons]
      congr 1
      omega
    have hge : min ≤ q.start := BitVec.not_lt.mp hlt
    rcases ih min minp (j + 1) with ⟨hj, hle⟩ | ⟨pre, e, post, rfl, hj, he, hpre, hpost⟩
    · exact .inl ⟨hj, forall_mem_cons.mpr ⟨hge, hle⟩⟩
    refine .inr ⟨q :: pre, e, post, rfl, ?_, he,
      forall_mem_cons.mpr ⟨Nat.lt_of_lt_of_le he hge, hpre⟩, hpost⟩
    rw [hj, length_cons]
    congr 1
    omega

theorem sortLoop_succ_of_nil (h : kept t = []) :
    sortLoop (k + 1) t = blank :: sortLoop k t := by
  rcases minScan_spec t 0xffffffff#32 none 0 with ⟨hnone, -⟩ | ⟨pre, e, post, rfl, -, he, -⟩
  · rw [sortLoop, hnone]
  · have hmem : e ∈ kept (pre ++ e :: post) :=
      mem_filter.mpr ⟨by simp, by simpa using BitVec.ne_of_lt he⟩
    rw [h] at hmem
    cases hmem

theorem sortLoop_succ_of_ne_nil (h : kept t ≠ []) :
    ∃ K₁ e K₂ t', kept t = K₁ ++ e :: K₂ ∧ sortLoop (k + 1) t = e :: sortLoop k t' ∧
      kept t' = K₁ ++ K₂ ∧ (∀ a ∈ K₁, e.start < a.start) ∧ ∀ a ∈ K₂, e.start ≤ a.start := by
  rcases minScan_spec t 0xffffffff#32 none 0 with
    ⟨-, hall⟩ | ⟨pre, e, post, rfl, hj, he, hpre, hpost⟩
  · refine absurd (filter_eq_nil_iff.mpr fun q hq => ?_) h
    have hmax : q.start = 0xffffffff#32 :=
      BitVec.le_antisymm (Nat.le_of_lt_succ q.start.isLt) (hall q hq)
    simp [hmax]
  · have hne : e.start ≠ 0xffffffff#32 := BitVec.ne_of_lt he
    have hget : (pre ++ e :: post).getD pre.length blank = e := by simp
    refine ⟨kept pre, e, kept post, pre ++ { e with start := 0xffffffff#32 } :: post, ?_, ?_, ?_,
      fun a ha => hpre a (mem_of_mem_filter ha),
      fun a ha => hpost a (mem_of_mem_filter ha)⟩
    · simp [kept, hne]
    · rw [sortLoop, hj]
      simp only [Nat.zero_add, hget]
      rw [set_append_right (h := Nat.le_refl _), Nat.sub_self, set_cons_zero]
    · simp [kept]

abbrev ByStart (a b : FlashPart) : Prop := a.start ≤ b.start

instance : Std.Total ByStart := ⟨fun _ _ => BitVec.le_total ..⟩
instance : IsTrans FlashPart ByStart := ⟨fun _ _ _ => BitVec.le_trans⟩

theorem insertionSort_smallest {K₁ K₂ : List FlashPart} (hK₁ : ∀ a ∈ K₁, c.start < a.start)
    (hK₂ : ∀ a ∈ K₂, c.start ≤ a.start) : (K₁ ++ c :: K₂).insertionSort ByStart =
      c :: (K₁ ++ K₂).insertionSort ByStart := by
  induction K₁ with
  | nil => exact insertionSort_cons_of_forall_rel ByStart hK₂
  | cons a K₁ ih =>
    obtain ⟨ha, hK₁⟩ := forall_mem_cons.mp hK₁
    rw [cons_append, insertionSort_cons, ih hK₁]
    exact orderedInsert_of_not_le ByStart _ (BitVec.not_le.mpr ha)

/-- **The sort is a stable sort** that closes the gaps. -/
theorem sortLoop_eq (hk : (kept t).length ≤ k) : sortLoop k t =
    (kept t).insertionSort ByStart ++ replicate (k - (kept t).length) blank := by
  induction k generalizing t with
  | zero =>
    rw [length_eq_zero_iff.mp (Nat.le_zero.mp hk)]
    rfl
  | succ k ih =>
    by_cases hnil : kept t = []
    · rw [sortLoop_succ_of_nil hnil, ih (by simp [hnil]), hnil]
      rfl
    obtain ⟨K₁, e, K₂, t', hkept, hround, hkept', hK₁, hK₂⟩ :=
      sortLoop_succ_of_ne_nil (k := k) hnil
    have hlen : (kept t).length = (kept t').length + 1 := by
      simp [hkept, hkept']
      omega
    rw [hround, ih (by omega), hlen, Nat.add_sub_add_right, hkept, hkept',
      insertionSort_smallest hK₁ hK₂]
    rfl

/-- Where an added entry comes to stand: behind the entries that do not start after it. -/
def insertPart (c : FlashPart) (S : List FlashPart) : List FlashPart :=
  S.takeWhile (·.start ≤ c.start) ++ c :: S.dropWhile (·.start ≤ c.start)

theorem insertionSort_concat (hS : InOrder S) :
    (S ++ [c]).insertionSort ByStart = insertPart c S := by
  induction S with
  | nil => rfl
  | cons s S ih =>
    obtain ⟨hs, hS'⟩ := pairwise_cons.mp hS
    by_cases hle : s.start ≤ c.start
    · have hall := forall_mem_append.mpr ⟨hs, forall_mem_singleton.mpr hle⟩
      rw [cons_append, insertionSort_cons_of_forall_rel ByStart hall, ih hS']
      simp [insertPart, hle]
    · have hlt : c.start < s.start := BitVec.not_le.mp hle
      have hall : ∀ a ∈ s :: S, c.start < a.start :=
        forall_mem_cons.mpr ⟨hlt, fun a ha => Nat.lt_of_lt_of_le hlt (hs a ha)⟩
      rw [insertionSort_smallest hall (by simp), append_nil,
        Pairwise.insertionSort_eq (r := ByStart) hS]
      simp [insertPart, hle]

end Sorting

/-! ## The invariant -/

def used (t : List FlashPart) : List FlashPart := t.filter (¬·.Free)

/-- **The table invariant**, for a table of `n` entries: no hole between used entries, and they
are in order, disjoint as integer intervals and of distinct names. -/
structure TableSound (n : ℕ) (t : List FlashPart) : Prop where
  capacity : t.length = n
  compact : t = used t ++ replicate (n - (used t).length) blank
  order : InOrder (used t)
  apart : ((used t).map FlashPart.extent).Pairwise Extent.Apart
  names : (used t).Pairwise fun a b => a.label ≠ b.label

/-- What the functions keep: besides, no partition begins at the start that the sort skips. -/
structure TableInv (n : ℕ) (t : List FlashPart) : Prop extends TableSound n t where
  starts : ∀ q ∈ used t, q.start ≠ 0xffffffff#32

/-- The part of the invariant that the sort relies on. -/
structure TableForm (n : ℕ) (t : List FlashPart) : Prop where
  capacity : t.length = n
  compact : t = used t ++ replicate (n - (used t).length) blank
  order : InOrder (used t)
  starts : ∀ q ∈ used t, q.start ≠ 0xffffffff#32

theorem TableInv.form {n : ℕ} {t : List FlashPart} (h : TableInv n t) : TableForm n t :=
  { h with }

section Invariant

variable {n m i : ℕ} {t t' U : List FlashPart} {p q : FlashPart} {devs : List Mapping}

theorem blank_free : blank.Free := by decide

theorem used_blanks (hU : ∀ q ∈ U, ¬q.Free) :
    used (U ++ replicate m blank) = U := by
  simpa [used, blank_free] using hU

theorem kept_blanks (U : List FlashPart) (m : ℕ) :
    kept (U ++ replicate m blank) = kept U := by
  simp [kept, blank]

theorem kept_of_starts (hU : ∀ q ∈ U, q.start ≠ 0xffffffff#32) : kept U = U := by
  simpa [kept] using hU

theorem not_free_of_mem_used (hq : q ∈ used t) : ¬q.Free := by
  simpa using (mem_filter.mp hq).2

theorem TableForm.length_used (h : TableForm n t) : (used t).length ≤ n := by
  rw [← h.capacity]
  exact length_filter_le _ _

section

variable (hlen : U.length ≤ n) (hfree : ∀ q ∈ U, ¬q.Free)
  (hstart : ∀ q ∈ U, q.start ≠ 0xffffffff#32) (horder : InOrder U)

include hlen hfree hstart horder

theorem tableForm_of_used : TableForm n (U ++ replicate (n - U.length) blank) := by
  have hused := used_blanks (m := n - U.length) hfree
  refine ⟨by simp; omega, ?_, ?_, ?_⟩ <;> rw [hused] <;> assumption

theorem tableInv_of_used (hapart : (U.map FlashPart.extent).Pairwise Extent.Apart)
    (hnames : U.Pairwise fun a b => a.label ≠ b.label) :
    TableInv n (U ++ replicate (n - U.length) blank) := by
  have hused := used_blanks (m := n - U.length) hfree
  have hform := tableForm_of_used hlen hfree hstart horder
  refine ⟨⟨hform.capacity, hform.compact, hform.order, ?_, ?_⟩, hform.starts⟩ <;> rw [hused] <;>
    assumption

end

/-! ### Deleting -/

theorem kept_set_blank (hU : ∀ q ∈ U, q.start ≠ 0xffffffff#32) (m i : ℕ) :
    kept ((U ++ replicate m blank).set i blank) = U.eraseIdx i := by
  rcases Nat.lt_or_ge i U.length with hi | hi
  · rw [set_append_left _ _ hi, kept_blanks, set_eq_take_append_cons_drop, if_pos hi,
      eraseIdx_eq_take_drop_succ, kept, filter_append,
      filter_cons_of_neg (by decide), ← filter_append]
    refine kept_of_starts fun q hq => hU q ?_
    rw [← eraseIdx_eq_take_drop_succ] at hq
    exact mem_of_mem_eraseIdx hq
  · rw [set_append_right _ _ hi, set_replicate_self, kept_blanks,
      eraseIdx_of_length_le hi]
    exact kept_of_starts hU

theorem flashDelete_eq (h : TableForm n t) (i : ℕ) :
    flashDeletePartition t i true =
      (used t).eraseIdx i ++ replicate (n - ((used t).eraseIdx i).length) blank := by
  have hkept : kept (t.set i blank) = (used t).eraseIdx i := by
    conv_lhs => rw [h.compact]
    exact kept_set_blank h.starts _ i
  have hsub : ((used t).eraseIdx i).Sublist (used t) := eraseIdx_sublist _ _
  rw [flashDeletePartition, if_pos rfl, flashSortPartitionTable, length_set, h.capacity,
    sortLoop_eq (by rw [hkept]; exact hsub.length_le.trans h.length_used), hkept,
    Pairwise.insertionSort_eq (r := ByStart) (h.order.sublist hsub)]

theorem TableInv.delete (h : TableInv n t) (i : ℕ) (erased : Bool) :
    TableInv n (flashDeletePartition t i erased) := by
  cases erased with
  | false => exact h
  | true =>
    have hsub : ((used t).eraseIdx i).Sublist (used t) := eraseIdx_sublist _ _
    rw [flashDelete_eq h.form i]
    exact tableInv_of_used (hsub.length_le.trans h.form.length_used)
      (fun q hq => not_free_of_mem_used (hsub.subset hq))
      (fun q hq => h.starts q (hsub.subset hq))
      (h.order.sublist hsub) (h.apart.sublist (hsub.map _)) (h.names.sublist hsub)

/-! ### Adding -/

/-- The scan over the used entries and the free ones behind them. -/
theorem scanFree_eq (p : FlashPart) (i : ℕ) (hU : ∀ q ∈ U, ¬q.Free) :
    scanFree p i (U ++ replicate m blank) = if ∃ q ∈ U, overlapTest p q then .overlap
      else if m = 0 then .past else .free (i + U.length) := by
  induction U generalizing i with
  | nil =>
    cases m with
    | zero => rfl
    | succ m => simp [replicate_succ, scanFree, blank_free]
  | cons q U ih =>
    obtain ⟨hq, hU⟩ := forall_mem_cons.mp hU
    rw [cons_append, scanFree, if_neg hq, ih (i + 1) hU]
    by_cases hover : overlapTest p q
    · simp [hover]
    · simp only [hover, if_false, exists_mem_cons_iff, false_or, length_cons]
      rw [show i + 1 + U.length = i + (U.length + 1) by omega]

theorem addChecks_ok (h : addChecks devs t p = .ok) :
    ¬p.Free ∧ ∀ q ∈ t, q.label ≠ p.label := by
  simp only [addChecks] at h
  split at h; · cases h
  split at h; · cases h
  split at h; · cases h
  rename_i hname hlookup
  refine ⟨fun hfree => hname (.inr hfree), fun q hq hlabel => hlookup ?_⟩
  rw [flashLookupPartition, findIdx?_isSome, any_eq_true]
  exact ⟨q, hq, by simpa using hlabel⟩

/-- The used entries after an add that stores `p`: the sort drops one that begins where it
skips. -/
def placePart (p : FlashPart) (U : List FlashPart) : List FlashPart :=
  if p.start = 0xffffffff#32 then U else insertPart p U

theorem insertPart_perm (p : FlashPart) (U : List FlashPart) : (insertPart p U).Perm (p :: U) := by
  have h : (insertPart p U).Perm (p :: (U.takeWhile (·.start ≤ p.start) ++
      U.dropWhile (·.start ≤ p.start))) := perm_middle
  rwa [takeWhile_append_dropWhile] at h

theorem forall_mem_insertPart {P : FlashPart → Prop} :
    (∀ q ∈ insertPart p U, P q) ↔ P p ∧ ∀ q ∈ U, P q := by
  simp [(insertPart_perm p U).mem_iff]

theorem insertPart_inOrder (p : FlashPart) (hU : InOrder U) : InOrder (insertPart p U) := by
  rw [← insertionSort_concat hU]
  exact pairwise_insertionSort ByStart _

/-- The entry `p` of the table is the one that was inserted. -/
theorem insertPart_eraseIdx (hp : p ∉ U) (hblank : p ≠ blank)
    (hi : (insertPart p U ++ replicate m blank)[i]? = some p) :
    (insertPart p U).eraseIdx i = U := by
  have hsplit := takeWhile_append_dropWhile (p := fun q => decide (q.start ≤ p.start)) (l := U)
  rw [insertPart] at hi ⊢
  generalize U.takeWhile (fun q => decide (q.start ≤ p.start)) = A at *
  generalize U.dropWhile (fun q => decide (q.start ≤ p.start)) = B at *
  subst hsplit
  have hA : p ∉ A := fun h => hp (mem_append_left B h)
  have hB : p ∉ B := fun h => hp (mem_append_right A h)
  obtain rfl : i = A.length := by
    rw [append_assoc, cons_append] at hi
    rcases Nat.lt_trichotomy i A.length with hlt | heq | hgt
    · rw [getElem?_append_left hlt] at hi
      exact absurd (mem_of_getElem? hi) hA
    · exact heq
    · obtain ⟨j, rfl⟩ : ∃ j, i = A.length + (j + 1) := ⟨i - A.length - 1, by omega⟩
      rw [getElem?_append_right (by omega), Nat.add_sub_cancel_left,
        getElem?_cons_succ] at hi
      rcases mem_append.mp (mem_of_getElem? hi) with hmem | hmem
      · exact absurd hmem hB
      · exact absurd (eq_of_mem_replicate hmem) hblank
  rw [eraseIdx_append_of_length_le (Nat.le_refl _), Nat.sub_self]
  rfl

theorem set_length_append_blank (U : List FlashPart) (m : ℕ) (p : FlashPart) :
    (U ++ replicate (m + 1) blank).set U.length p =
      (U ++ [p]) ++ replicate m blank := by
  rw [set_append_right _ _ (Nat.le_refl _), Nat.sub_self, replicate_succ,
    set_cons_zero, append_assoc]
  rfl

/-- **All that an add can do** to a table with the invariant: it is refused and changes nothing; it
finds no free entry and leaves the table; or it stores the partition in its place. -/
theorem flashAdd_eq (devs : List Mapping) (h : TableForm n t) (p : FlashPart) :
    flashAddPartition devs t p = if addChecks devs t p ≠ .ok then some (addChecks devs t p, t)
      else if ∃ q ∈ used t, overlapTest p q then some (.einval, t)
      else if (used t).length = n then none
      else some (.ok, placePart p (used t) ++
        replicate (n - (placePart p (used t)).length) blank) := by
  have hlen := h.length_used
  have hscan : scanFree p 0 t = if ∃ q ∈ used t, overlapTest p q then .overlap
      else if n - (used t).length = 0 then .past else .free (used t).length := by
    conv_lhs => rw [h.compact]
    rw [scanFree_eq p 0 fun q => not_free_of_mem_used, Nat.zero_add]
  rw [flashAddPartition]
  split
  next hok =>
    rw [if_neg (not_not_intro hok), hscan]
    by_cases hover : ∃ q ∈ used t, overlapTest p q
    · simp only [if_pos hover]
    simp only [if_neg hover]
    by_cases hfull : (used t).length = n
    · rw [if_pos hfull, if_pos (by omega)]
    rw [if_neg hfull, if_neg (by omega)]
    simp only
    -- The new entry stands behind the used ones when the table is sorted.
    have hset : t.set (used t).length p = (used t ++ [p]) ++
        replicate (n - (used t).length - 1) blank := by
      have hcompact := congrArg (·.set (used t).length p) h.compact
      rw [show n - (used t).length = n - (used t).length - 1 + 1 by omega] at hcompact
      exact hcompact.trans (set_length_append_blank _ _ p)
    have hkept : kept (t.set (used t).length p) = used t ++ kept [p] := by
      rw [hset, kept_blanks, kept, filter_append]
      exact congrArg (· ++ kept [p]) (kept_of_starts h.starts)
    rw [flashSortPartitionTable, length_set, h.capacity]
    by_cases hmax : p.start = 0xffffffff#32
    · have hkept' : kept (t.set (used t).length p) = used t := by
        rw [hkept]
        simp [kept, hmax]
      rw [placePart, if_pos hmax, sortLoop_eq (by rw [hkept']; exact hlen), hkept',
        Pairwise.insertionSort_eq (r := ByStart) h.order]
    have hkept' : kept (t.set (used t).length p) = used t ++ [p] := by
      rw [hkept]
      simp [kept, hmax]
    rw [placePart, if_neg hmax, sortLoop_eq (by simp [hkept']; omega), hkept',
      insertionSort_concat h.order, (insertPart_perm p (used t)).length_eq]
    simp
  next hbad => exact (if_pos hbad).symm

theorem flashAdd_ok (h : TableForm n t) (hadd : flashAddPartition devs t p = some (.ok, t')) :
    addChecks devs t p = .ok ∧ (used t).length < n ∧ t' = placePart p (used t) ++
      replicate (n - (placePart p (used t)).length) blank := by
  rw [flashAdd_eq devs h p] at hadd
  split_ifs at hadd with hbad hover hfull
  · exact absurd (congrArg Prod.fst (Option.some.inj hadd)) hbad
  · cases hadd
  · exact ⟨not_not.mp hbad, Nat.lt_of_le_of_ne h.length_used hfull,
      (congrArg Prod.snd (Option.some.inj hadd)).symm⟩

end Invariant

/-! ## Runs -/

/-- A call: an add, or the delete of the partition with a name, whose erase succeeds or not. -/
inductive PartCall where
  | add (p : FlashPart)
  | delete (label : List Byte) (erased : Bool)
  deriving DecidableEq, Repr

/-- The table after a call.  A name that is not found deletes nothing, as in
`do_flash_rmpart`. -/
def partStep (devs : List Mapping) (t : List FlashPart) : PartCall → Option (List FlashPart)
  | .add p => (flashAddPartition devs t p).map Prod.snd
  | .delete label erased =>
    match flashLookupPartition t label with
    | none => some t
    | some i => some (flashDeletePartition t i erased)

/-- An add is refused, or there is a free entry and the partition shares no address with one in the
table, or begins at `0xFFFFFFFF` and is dropped. -/
def Admits (devs : List Mapping) (t : List FlashPart) : PartCall → Prop
  | .add p => addChecks devs t p ≠ .ok ∨ (∃ q ∈ used t, overlapTest p q) ∨
      (used t).length < t.length ∧
        (p.start = 0xffffffff#32 ∨ ∀ q ∈ used t, p.extent.Apart q.extent)
  | .delete _ _ => True

instance (devs : List Mapping) (t : List FlashPart) (call : PartCall) :
    Decidable (Admits devs t call) :=
  match call with
  | .add _ => inferInstanceAs (Decidable (_ ∨ _ ∨ _ ∧ (_ ∨ _)))
  | .delete _ _ => .isTrue trivial

/-- Between partitions that end within the address space the overlap test is exact. -/
theorem overlapTest_iff {p q : FlashPart} (hp : p.start.toNat + p.size.toNat < 2 ^ 32)
    (hq : q.start.toNat + q.size.toNat < 2 ^ 32) :
    overlapTest p q ↔ ¬p.extent.Apart q.extent := by
  simp only [overlapTest, BitVec.lt_def, BitVec.toNat_add, Nat.mod_eq_of_lt hp,
    Nat.mod_eq_of_lt hq, Extent.Apart, FlashPart.extent]
  omega

section Runs

variable {n i : ℕ} {t t' : List FlashPart} {p : FlashPart} {devs : List Mapping} {call : PartCall}

theorem TableInv.placePart (h : TableInv n t) (hchecks : addChecks devs t p = .ok)
    (hroom : (used t).length < n)
    (hapart : p.start = 0xffffffff#32 ∨ ∀ q ∈ used t, p.extent.Apart q.extent) :
    TableInv n (Flash.placePart p (used t) ++
      replicate (n - (Flash.placePart p (used t)).length) blank) := by
  rw [Flash.placePart]
  split_ifs with hmax
  · rw [← h.compact]
    exact h
  obtain ⟨hfree, hlabel⟩ := addChecks_ok hchecks
  have hperm := insertPart_perm p (used t)
  refine tableInv_of_used (by rw [hperm.length_eq]; exact hroom)
    (forall_mem_insertPart.mpr ⟨hfree, fun _ => not_free_of_mem_used⟩)
    (forall_mem_insertPart.mpr ⟨hmax, h.starts⟩) (insertPart_inOrder p h.order) ?_ ?_
  · rw [(hperm.map _).pairwise_iff fun h => h.symm, map_cons, pairwise_cons]
    refine ⟨fun e he => ?_, h.apart⟩
    obtain ⟨q, hq, rfl⟩ := mem_map.mp he
    exact hapart.resolve_left hmax q hq
  · rw [hperm.pairwise_iff fun h => h.symm, pairwise_cons]
    exact ⟨fun q hq => (hlabel q (mem_of_mem_filter hq)).symm, h.names⟩

/-- **One call** keeps the invariant if it is admitted. -/
theorem partStep_of_admits (h : TableInv n t) (hcall : Admits devs t call) :
    ∃ t', partStep devs t call = some t' ∧ TableInv n t' := by
  cases call with
  | delete label erased =>
    rw [partStep]
    split
    · exact ⟨t, rfl, h⟩
    · exact ⟨_, rfl, h.delete _ erased⟩
  | add p =>
    rw [partStep, flashAdd_eq devs h.form p]
    split_ifs with hbad hover hfull
    · exact ⟨t, rfl, h⟩
    · exact ⟨t, rfl, h⟩
    · obtain ⟨hroom, -⟩ := (hcall.resolve_left hbad).resolve_left hover
      rw [h.capacity] at hroom
      omega
    · obtain ⟨hroom, hapart⟩ := (hcall.resolve_left hbad).resolve_left hover
      exact ⟨_, rfl, h.placePart (not_not.mp hbad) (h.capacity ▸ hroom) hapart⟩

/-- **One call** is admitted if it stays in the table and leaves it sound. -/
theorem admits_of_sound (h : TableInv n t) (hstep : partStep devs t call = some t')
    (hsound : TableSound n t') :
    Admits devs t call := by
  cases call with
  | delete label erased => trivial
  | add p =>
    rw [partStep, Option.map_eq_some_iff] at hstep
    obtain ⟨⟨r, t₁⟩, hadd, rfl⟩ := hstep
    rw [flashAdd_eq devs h.form p] at hadd
    split_ifs at hadd with hbad hover hfull
    · exact .inl hbad
    · exact .inr (.inl hover)
    · have hroom := Nat.lt_of_le_of_ne h.form.length_used hfull
      refine .inr (.inr ⟨h.capacity ▸ hroom, ?_⟩)
      by_cases hmax : p.start = 0xffffffff#32
      · exact .inl hmax
      rw [Flash.placePart, if_neg hmax] at hadd
      cases hadd
      -- All used entries of the new table are apart, and `p` is one of them.
      have hperm := insertPart_perm p (used t)
      have hused : used (insertPart p (used t) ++ replicate
          (n - (insertPart p (used t)).length) blank) = insertPart p (used t) :=
        used_blanks (forall_mem_insertPart.mpr
          ⟨(addChecks_ok (not_not.mp hbad)).1, fun _ => not_free_of_mem_used⟩)
      have hapart := hsound.apart
      rw [hused, (hperm.map _).pairwise_iff fun h => h.symm, map_cons,
        pairwise_cons] at hapart
      exact .inr fun q hq => hapart.1 _ (mem_map_of_mem hq)

/-- A successful add followed by a delete of the entry it stored restores the table. -/
theorem flashDelete_flashAdd (h : TableInv n t) (hadd : flashAddPartition devs t p = some (.ok, t'))
    (hi : t'[i]? = some p) :
    flashDeletePartition t' i true = t := by
  obtain ⟨hok, hroom, rfl⟩ := flashAdd_ok h.form hadd
  obtain ⟨hfree, hlabel⟩ := addChecks_ok hok
  by_cases hmax : p.start = 0xffffffff#32
  · -- The sort has dropped it, so it is not there to be deleted.
    rw [Flash.placePart, if_pos hmax, ← h.compact] at hi
    exact absurd rfl (hlabel p (mem_of_getElem? hi))
  rw [Flash.placePart, if_neg hmax] at hi ⊢
  have hform : TableForm n (insertPart p (used t) ++
      replicate (n - (insertPart p (used t)).length) blank) :=
    tableForm_of_used (by rw [(insertPart_perm p (used t)).length_eq]; exact hroom)
      (forall_mem_insertPart.mpr ⟨hfree, fun _ => not_free_of_mem_used⟩)
      (forall_mem_insertPart.mpr ⟨hmax, h.starts⟩) (insertPart_inOrder p h.order)
  have hused := used_blanks (m := n - (insertPart p (used t)).length)
    (forall_mem_insertPart.mpr ⟨hfree, fun q (hq : q ∈ used t) => not_free_of_mem_used hq⟩)
  have hp : p ∉ used t := fun hmem => hlabel p (mem_of_mem_filter hmem) rfl
  have hblank : p ≠ blank := fun heq => hfree (heq ▸ blank_free)
  rw [flashDelete_eq hform i, hused, insertPart_eraseIdx hp hblank hi, ← h.compact]

/-- **The partition table.** From a table with the invariant, every call of a run stays within the
table and leaves it sound, if and only if every add is admitted. In any such table an add that fails
changes nothing, and an add followed by a delete of the same partition restores it. -/
theorem partition_table_iff (devs : List Mapping) (n : ℕ) (t₀ : List FlashPart)
    (h₀ : TableInv n t₀) (calls : List PartCall) :
    ((∀ pre, pre <+: calls → ∃ t, runSteps (partStep devs) t₀ pre = some t ∧ TableSound n t) ↔
      StepsMeet (partStep devs) (Admits devs) t₀ calls) ∧
    ∀ t p r t', TableInv n t → flashAddPartition devs t p = some (r, t') → (r ≠ .ok → t' = t) ∧
      (r = .ok → ∀ i : ℕ, t'[i]? = some p → flashDeletePartition t' i true = t) := by
  refine ⟨?_, fun t p r t' h hadd => ⟨fun hr => ?_, fun hr i hi => ?_⟩⟩
  · exact sound_run_iff (TableInv n) (fun t h => h.toTableSound)
      (fun t call h _ hcall => partStep_of_admits h hcall)
      (fun t call t' h _ hstep hsound => admits_of_sound h hstep hsound) h₀
      (stepsMeet_of_forall (fun _ _ => trivial) t₀ calls)
  · rw [flashAdd_eq devs h.form p] at hadd
    split_ifs at hadd
    · exact (congrArg Prod.snd (Option.some.inj hadd)).symm
    · exact (congrArg Prod.snd (Option.some.inj hadd)).symm
    · exact absurd (congrArg Prod.fst (Option.some.inj hadd)).symm hr
  · subst hr
    exact flashDelete_flashAdd h hadd hi

end Runs

def samplePart (letter : Byte) (start size : BitVec 32) : FlashPart :=
  ⟨(Vector.replicate 16 0#8).set 0 letter, start, size, 0xffffffff#32, 0#32⟩

/-- A flash of 8M at the usual address, and an empty table of eight entries. -/
def sampleMappings : List Mapping := [⟨0x80000000#32, 0x800000#32⟩]

def emptyTable : List FlashPart := replicate 8 blank

theorem emptyTable_inv : TableInv 8 emptyTable :=
  tableInv_of_used (U := []) (by decide) (by simp) (by simp) Pairwise.nil Pairwise.nil
    Pairwise.nil

/-- Two partitions are added, the later one first; one that overlaps is refused; one is
deleted. -/
def sampleCalls : List PartCall :=
  [.add (samplePart 0x62#8 0x80040000#32 0x10000#32),
    .add (samplePart 0x61#8 0x80000000#32 0x40000#32),
    .add (samplePart 0x63#8 0x80030000#32 0x20000#32), .delete [0x62#8] true]

theorem partition_table_sampleCalls :
    StepsMeet (partStep sampleMappings) (Admits sampleMappings) emptyTable sampleCalls ∧
      ∀ pre, pre <+: sampleCalls →
        ∃ t, runSteps (partStep sampleMappings) emptyTable pre = some t ∧ TableSound 8 t := by
  have hadmits : StepsMeet (partStep sampleMappings) (Admits sampleMappings) emptyTable
      sampleCalls := by decide +kernel
  refine ⟨hadmits, ?_⟩
  exact (partition_table_iff sampleMappings 8 emptyTable emptyTable_inv sampleCalls).1.mpr hadmits

/-- **What the add lets happen.** A partition whose end wraps is added over another one; with eight
in the table a ninth add does not stop at the table's end. -/
theorem add_overlaps_and_overruns :
    (∃ t, runSteps (partStep sampleMappings) emptyTable
        [.add (samplePart 0x61#8 0x80002000#32 0x1000#32),
          .add (samplePart 0x62#8 0x80001000#32 0x80000000#32)] = some t ∧ ¬TableSound 8 t) ∧
    runSteps (partStep sampleMappings) emptyTable
      ((range 9).map fun i => .add (samplePart (BitVec.ofNat 8 (0x61 + i))
        (BitVec.ofNat 32 (0x80000000 + 0x1000 * i)) 0x1000#32)) = none := by
  refine ⟨⟨[samplePart 0x62#8 0x80001000#32 0x80000000#32,
    samplePart 0x61#8 0x80002000#32 0x1000#32] ++ replicate 6 blank,
    by decide +kernel, fun hsound => ?_⟩, by decide +kernel⟩
  exact absurd hsound.apart (by decide +kernel)

end WiseSdk.Flash
