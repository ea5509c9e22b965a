import WiseSdk.Flash.Device

/-!
# Choosing the blocks of an erase

`spi_flash_erase` walks a range twice: a dry run that only looks for a misfit, and a walk that sends
one command for each block. At every step `spi_flash_lookup_erase_info` chooses the erase type from
the region map, the alignment of the current start and what is left of the range. The walk is
modelled with its 32-bit arithmetic, and with an arbitrary write sequence behind it.

`SpiFlash` carries the fact that the erase types its regions allow have power-of-two sizes.  The
SFDP tables do not promise it: a region of a sector map may allow an erase type that the basic
table leaves out, and that type has size 0.  The functions here run on any `EraseMap`.
-/

namespace WiseSdk.Flash

open Library List
open BitVec hiding not_not

/-! ## The source's functions -/

structure EraseHow where
  minBlock : Bool
  superset : Bool
  unaligned : Bool
  deriving DecidableEq, Repr

def EraseHow.zero : EraseHow := ⟨false, false, false⟩

/-- `struct erase_block`, as a request: a start and an end. -/
structure EraseBlock where
  start : BitVec 32
  stop : BitVec 32
  deriving DecidableEq, Repr

def eraseBlockSuperset (b1 b2 : EraseBlock) : Bool := b1.start ≤ b2.start && b1.stop ≥ b2.stop

def eraseBlockSubset (b1 b2 : EraseBlock) : Bool := b1.start ≥ b2.start && b1.stop ≤ b2.stop

def blockAt (inb : EraseBlock) (m : EraseMethod) : EraseBlock :=
  let start := inb.start &&& ~~~(m.size - 1)
  ⟨start, start + m.size⟩

/-- The value of `ok` in the loop over the erase types. -/
def blockOk (inb : EraseBlock) (how : EraseHow) (m : EraseMethod) : Bool :=
  (if how.superset then eraseBlockSuperset (blockAt inb m) inb
    else eraseBlockSubset (blockAt inb m) inb) &&
  (if how.unaligned then true else (blockAt inb m).start == inb.start)

def isBetter (how : EraseHow) (best : Option EraseMethod) (m : EraseMethod) : Bool :=
  match best with
  | none => true
  | some b => (!how.minBlock && m.size > b.size) || (how.minBlock && m.size < b.size)

/-- An erase command: the erase type whose opcode is sent, and the address bytes. -/
structure EraseCmd where
  op : EraseMethod
  addr : AddrBytes
  deriving DecidableEq, Repr

/-- How the `while` loop is left: a misfit, a failed command, or the start it ends with. -/
inductive LoopEnd where
  | misfit
  | failed (ret : ℤ)
  | left (start : BitVec 32)
  deriving DecidableEq, Repr

/-- `0`, `-1` with `errno = EINVAL`, or the negated result of the command that failed. -/
inductive EraseResult where
  | ok
  | einval
  | failed (ret : ℤ)
  deriving DecidableEq, Repr

/-- The check after the loop. -/
def misfitAtEnd (how : EraseHow) (start stop : BitVec 32) : Bool :=
  how == EraseHow.zero && start != stop

namespace EraseMap

/-- `spi_flash_lookup_region`: the first region that contains the offset. -/
def lookupRegion (mp : EraseMap) (offset : BitVec 32) : Option EraseRegion :=
  mp.region.find? fun r => r.start ≤ offset && offset < r.start + r.size

/-- One round of the loop over the bits of `r->method`. -/
def considerMethod (mp : EraseMap) (r : EraseRegion) (inb : EraseBlock) (how : EraseHow)
    (best : Option EraseMethod) (i : Fin 4) : Option EraseMethod :=
  if r.method.getLsbD i && blockOk inb how (mp.eraseInfo i) &&
      isBetter how best (mp.eraseInfo i) then
    some (mp.eraseInfo i)
  else best

/-- `spi_flash_lookup_erase_info`: the region and the erase type, or `-EINVAL`. -/
def lookupEraseInfo (mp : EraseMap) (inb : EraseBlock) (how : EraseHow) :
    Option (EraseRegion × EraseMethod) := do
  let r ← mp.lookupRegion inb.start
  let best ← (List.finRange 4).foldl (mp.considerMethod r inb how) none
  return (r, best)

variable {σ : Type}

/-- The `while` loop. `seq` is `spi_flash_write_sequence`, with no result while it has not returned;
nor has the loop without fuel. The command goes to `out.start`, rounded down like the candidates. -/
def eraseLoop (mp : EraseMap) (how : EraseHow) (seq : EraseCmd → σ → Option ℤ × σ)
    (dryrun : Bool) : ℕ → EraseBlock → σ → Option LoopEnd × σ
  | 0, _, st => (none, st)
  | fuel + 1, inb, st =>
    if inb.start < inb.stop then
      match mp.lookupEraseInfo inb how with
      | none => (some .misfit, st)
      | some (_, op) =>
        let rest : EraseBlock := ⟨inb.start + op.size, inb.stop⟩
        if dryrun then eraseLoop mp how seq dryrun fuel rest st
        else
          match seq ⟨op, spiFlashAddr (blockAt inb op).start⟩ st with
          | (none, st') => (none, st')
          | (some ret, st') =>
            if ret < 0 then (some (.failed ret), st')
            else eraseLoop mp how seq dryrun fuel rest st'
    else (some (.left inb.start), st)

/-- What a walk that was left returns, if it does: for `how = 0` the range has to end with the
blocks. -/
def loopResult (how : EraseHow) (stop : BitVec 32) : LoopEnd → Option EraseResult
  | .misfit => some .einval
  | .failed ret => some (.failed (-ret))
  | .left start => if misfitAtEnd how start stop then some .einval else none

/-- `spi_flash_erase`: the dry run and the walk that sends the commands. -/
def erase (mp : EraseMap) (start size : BitVec 32) (how : EraseHow)
    (seq : EraseCmd → σ → Option ℤ × σ) (fuel : ℕ) (st : σ) : Option EraseResult × σ :=
  match mp.eraseLoop how seq true fuel ⟨start, start + size⟩ st with
  | (none, st) => (none, st)
  | (some planned, st) =>
    match loopResult how (start + size) planned with
    | some r => (some r, st)
    | none =>
      match mp.eraseLoop how seq false fuel ⟨start, start + size⟩ st with
      | (none, st) => (none, st)
      | (some walked, st) => (some ((loopResult how (start + size) walked).getD .ok), st)

end EraseMap

/-! ## The choice of the erase type -/

/-- Of two types that may be used the second is kept: the larger, or the smaller for
`EB_MIN_BLOCK`. -/
def Kept (how : EraseHow) (m m' : EraseMethod) : Prop :=
  if how.minBlock then m'.size ≤ m.size else m.size ≤ m'.size

section Choice

variable {how : EraseHow} {m m' m'' : EraseMethod}

theorem Kept.refl (m : EraseMethod) : Kept how m m := by
  rw [Kept]
  split_ifs <;> exact BitVec.le_refl _

theorem Kept.trans (h : Kept how m m') (h' : Kept how m' m'') : Kept how m m'' := by
  rw [Kept] at *
  split_ifs at *
  · exact BitVec.le_trans h' h
  · exact BitVec.le_trans h h'

theorem isBetter_iff : isBetter how (some m') m ↔ ¬Kept how m m' := by
  cases hmin : how.minBlock <;> simp [isBetter, Kept, hmin]

theorem kept_of_isBetter (h : isBetter how (some m) m') : Kept how m m' := by
  rw [isBetter_iff, Kept] at h
  rw [Kept]
  split_ifs at h ⊢ <;> exact BitVec.le_of_lt (BitVec.not_le.mp h)

theorem round_spec (how : EraseHow) (info : Fin 4 → EraseMethod) (may : Fin 4 → Bool)
    (best : Option EraseMethod) (i : Fin 4) :
    let res := if may i && isBetter how best (info i) then some (info i) else best
    (res = best ∨ may i ∧ res = some (info i)) ∧
    (∀ m, best = some m → ∃ m', res = some m' ∧ Kept how m m') ∧
    (may i → ∃ m', res = some m' ∧ Kept how (info i) m') := by
  intro res
  by_cases htake : may i && isBetter how best (info i)
  · have hres : res = some (info i) := if_pos htake
    obtain ⟨hmay, hbetter⟩ := Bool.and_eq_true_iff.mp htake
    refine ⟨.inr ⟨hmay, hres⟩, ?_, fun _ => ⟨_, hres, .refl _⟩⟩
    rintro m rfl
    exact ⟨_, hres, kept_of_isBetter hbetter⟩
  have hres : res = best := if_neg htake
  refine ⟨.inl hres, fun m hm => ⟨m, hres.trans hm, .refl _⟩, fun hmay => ?_⟩
  cases best with
  | none => simp [hmay, isBetter] at htake
  | some b =>
    rw [hmay, Bool.true_and, isBetter_iff, not_not] at htake
    exact ⟨b, hres, htake⟩

theorem foldl_spec (how : EraseHow) (info : Fin 4 → EraseMethod) (may : Fin 4 → Bool)
    (l : List (Fin 4)) (best : Option EraseMethod) :
    let res := l.foldl (fun best i =>
      if may i && isBetter how best (info i) then some (info i) else best) best
    (res = best ∨ ∃ i ∈ l, may i ∧ res = some (info i)) ∧
    (∀ m, best = some m → ∃ m', res = some m' ∧ Kept how m m') ∧
    ∀ i ∈ l, may i → ∃ m', res = some m' ∧ Kept how (info i) m' := by
  induction l generalizing best with
  | nil => exact ⟨.inl rfl, fun m hm => ⟨m, hm, .refl _⟩, by simp⟩
  | cons i l ih =>
    obtain ⟨hfrom, hkeep, hthis⟩ := round_spec how info may best i
    simp only [foldl_cons]
    generalize (if may i && isBetter how best (info i) then some (info i) else best) = first at *
    obtain ⟨hres, hlater, hmax⟩ := ih first
    generalize l.foldl _ first = res at hres hlater hmax ⊢
    have hlater' {m} (hm : ∃ m₁, first = some m₁ ∧ Kept how m m₁) :
        ∃ m₂, res = some m₂ ∧ Kept how m m₂ :=
      have ⟨m₁, h₁, hle₁⟩ := hm
      (hlater m₁ h₁).imp fun _ h₂ => ⟨h₂.1, hle₁.trans h₂.2⟩
    refine ⟨?_, fun m hm => hlater' (hkeep m hm), fun j hj hmay => ?_⟩
    · rcases hres with hres | ⟨j, hj, hmay, hres⟩
      · rcases hfrom with hfrom | ⟨hmay, hfrom⟩
        · exact .inl (hres.trans hfrom)
        · exact .inr ⟨i, mem_cons_self, hmay, hres.trans hfrom⟩
      · exact .inr ⟨j, mem_cons_of_mem _ hj, hmay, hres⟩
    · rcases mem_cons.mp hj with rfl | hj
      · exact hlater' (hthis hmay)
      · exact hmax j hj hmay

/-- The type that is found is better than all before it. -/
theorem foldl_first (how : EraseHow) (info : Fin 4 → EraseMethod) (may : Fin 4 → Bool)
    (l : List (Fin 4)) {m : EraseMethod}
    (h : l.foldl (fun best i =>
      if may i && isBetter how best (info i) then some (info i) else best) none = some m) :
    ∃ pre i post, l = pre ++ i :: post ∧ may i ∧ m = info i ∧
      ∀ j ∈ pre, may j → isBetter how (some (info j)) (info i) := by
  induction l using reverseRecOn with
  | nil => cases h
  | append_singleton l i ih =>
    rw [foldl_append, foldl_cons, foldl_nil] at h
    obtain ⟨-, -, hbefore⟩ := foldl_spec how info may l none
    split_ifs at h with htake
    · obtain ⟨hmay, hbetter⟩ := Bool.and_eq_true_iff.mp htake
      refine ⟨l, i, [], rfl, hmay, (Option.some.inj h).symm, fun j hj hmayj => ?_⟩
      obtain ⟨m', hm', hkept⟩ := hbefore j hj hmayj
      rw [hm', isBetter_iff] at hbetter
      rw [isBetter_iff]
      exact fun hworse => hbetter (hworse.trans hkept)
    · obtain ⟨pre, k, post, rfl, hk⟩ := ih h
      exact ⟨pre, k, post ++ [i], by simp, hk⟩

theorem toNat_blockAt_start {inb : EraseBlock} (m : EraseMethod) (hm : PowerOfTwo m.size.toNat) :
    (blockAt inb m).start.toNat = inb.start.toNat - inb.start.toNat % m.size.toNat :=
  toNat_and_not_sub_one _ _ hm

theorem add_eq_zero_of_toNat {a b : BitVec 32} (h : a.toNat + b.toNat = 2 ^ 32) : a + b = 0#32 := by
  apply eq_of_toNat_eq
  rw [toNat_add, h]
  rfl

end Choice

namespace EraseMap

variable {mp : EraseMap} {how : EraseHow} {inb : EraseBlock} {r : EraseRegion}
  {op : EraseMethod}

theorem lookupEraseInfo_eq_some :
    mp.lookupEraseInfo inb how = some (r, op) ↔ mp.lookupRegion inb.start = some r ∧
      (finRange 4).foldl (mp.considerMethod r inb how) none = some op := by
  simp only [lookupEraseInfo, Option.bind_eq_bind, Option.bind_eq_some_iff, Option.pure_def,
    Option.some.injEq, Prod.mk.injEq]
  constructor
  · rintro ⟨r', hr, best, hbest, rfl, rfl⟩
    exact ⟨hr, hbest⟩
  · rintro ⟨hr, hop⟩
    exact ⟨r, hr, op, hop, rfl, rfl⟩

theorem lookupEraseInfo_spec (h : mp.lookupEraseInfo inb how = some (r, op)) :
    mp.lookupRegion inb.start = some r ∧
      (∃ i : Fin 4, r.method.getLsbD i ∧ blockOk inb how (mp.eraseInfo i) ∧ op = mp.eraseInfo i) ∧
      ∀ j : Fin 4, r.method.getLsbD j → blockOk inb how (mp.eraseInfo j) →
        Kept how (mp.eraseInfo j) op := by
  obtain ⟨hr, hbest⟩ := lookupEraseInfo_eq_some.mp h
  obtain ⟨hfrom, -, hmax⟩ := foldl_spec how mp.eraseInfo
    (fun i => r.method.getLsbD i && blockOk inb how (mp.eraseInfo i)) (finRange 4) none
  refine ⟨hr, ?_, fun j hbit hok => ?_⟩
  · rcases hfrom with hnone | ⟨i, -, hmay, hi⟩
    · exact nomatch hbest.symm.trans hnone
    · obtain ⟨hbit, hok⟩ := Bool.and_eq_true_iff.mp hmay
      exact ⟨i, hbit, hok, Option.some.inj (hbest.symm.trans hi)⟩
  · obtain ⟨m', hm', hkept⟩ := hmax j (mem_finRange j) (by rw [hbit, hok]; rfl)
    obtain rfl := Option.some.inj (hbest.symm.trans hm')
    exact hkept

theorem exists_lookupEraseInfo (hr : mp.lookupRegion inb.start = some r) {i : Fin 4}
    (hbit : r.method.getLsbD i) (hok : blockOk inb how (mp.eraseInfo i)) :
    ∃ op, mp.lookupEraseInfo inb how = some (r, op) := by
  obtain ⟨m, hm, -⟩ := (foldl_spec how mp.eraseInfo
    (fun i => r.method.getLsbD i && blockOk inb how (mp.eraseInfo i)) (finRange 4) none).2.2 i
    (mem_finRange i) (by rw [hbit, hok]; rfl)
  exact ⟨m, lookupEraseInfo_eq_some.mpr ⟨hr, hm⟩⟩

/-! ## Walks that end -/

/-- The starts that the loop comes to. -/
inductive Reaches (mp : EraseMap) (how : EraseHow) (stop start : BitVec 32) : BitVec 32 → Prop
  | start : Reaches mp how stop start start
  | step {t : BitVec 32} {r : EraseRegion} {op : EraseMethod} : Reaches mp how stop start t →
      t < stop → mp.lookupEraseInfo ⟨t, stop⟩ how = some (r, op) →
      Reaches mp how stop start (t + op.size)

def Progresses (mp : EraseMap) (how : EraseHow) (stop start : BitVec 32) : Prop :=
  ∀ t r op, Reaches mp how stop start t → t < stop →
    mp.lookupEraseInfo ⟨t, stop⟩ how = some (r, op) → t.toNat < (t + op.size).toNat

variable {σ α : Type} {stop start size t : BitVec 32}

theorem exists_eq_some_mk {p : Option α × σ} (h : p.1.isSome) : ∃ a st, p = (some a, st) := by
  obtain ⟨out, st⟩ := p
  obtain ⟨a, rfl⟩ := Option.isSome_iff_exists.mp h
  exact ⟨a, st, rfl⟩

variable {seq : EraseCmd → σ → Option ℤ × σ}

/-- **A walk that moves up ends**, with fuel for what is left of the range. -/
theorem eraseLoop_ends (hprogress : Progresses mp how stop start)
    (hseq : ∀ c st, ((seq c st).1).isSome) (dryrun : Bool) {fuel : ℕ}
    (ht : Reaches mp how stop start t) (hfuel : stop.toNat - t.toNat < fuel) (st : σ) :
    ((mp.eraseLoop how seq dryrun fuel ⟨t, stop⟩ st).1).isSome := by
  induction fuel generalizing t st with
  | zero => exact absurd hfuel (Nat.not_lt_zero _)
  | succ fuel ih =>
    rw [eraseLoop]
    by_cases hlt : t < stop
    · rw [if_pos hlt]
      cases hlookup : mp.lookupEraseInfo ⟨t, stop⟩ how with
      | none => rfl
      | some p =>
        obtain ⟨r, op⟩ := p
        have hup := hprogress t r op ht hlt hlookup
        have hleft : stop.toNat - (t + op.size).toNat < fuel := by
          have := lt_def.mp hlt
          omega
        have hnext := ih (ht.step hlt hlookup) hleft
        cases dryrun with
        | true => exact hnext st
        | false =>
          obtain ⟨ret, st', hrun⟩ := exists_eq_some_mk
            (hseq ⟨op, spiFlashAddr (blockAt ⟨t, stop⟩ op).start⟩ st)
          simp only [hrun, Bool.false_eq_true, if_false]
          split_ifs
          · rfl
          · exact hnext st'
    · rw [if_neg hlt]
      rfl

/-- The dry run sends nothing, so none of its commands fails. -/
theorem eraseLoop_dry {fuel : ℕ} {st st' : σ} {e : LoopEnd}
    (h : mp.eraseLoop how seq true fuel inb st = (some e, st')) :
    st' = st ∧ ∀ r, e ≠ .failed r := by
  induction fuel generalizing inb with
  | zero => cases h
  | succ fuel ih =>
    rw [eraseLoop] at h
    split at h
    · split at h
      · cases h
        exact ⟨rfl, nofun⟩
      · exact ih h
    · cases h
      exact ⟨rfl, nofun⟩

/-- Both walks end in the same way, but for a command that fails. -/
theorem eraseLoop_real {fuel : ℕ} {st st' st₀ st₁ : σ} {e : LoopEnd}
    (hdry : mp.eraseLoop how seq true fuel inb st₀ = (some (.left t), st₁))
    (h : mp.eraseLoop how seq false fuel inb st = (some e, st')) :
    e = .left t ∨ ∃ r, e = .failed r := by
  induction fuel generalizing inb st with
  | zero => cases hdry
  | succ fuel ih =>
    rw [eraseLoop] at h hdry
    by_cases hlt : inb.start < inb.stop
    · rw [if_pos hlt] at h hdry
      cases hl : mp.lookupEraseInfo inb how with
      | none =>
        rw [hl] at hdry
        cases hdry
      | some p =>
        rw [hl] at h hdry
        simp only [if_true, Bool.false_eq_true, if_false] at h hdry
        split at h
        · cases h
        · split_ifs at h
          · cases h
            exact .inr ⟨_, rfl⟩
          · exact ih hdry h
    · rw [if_neg hlt] at h hdry
      cases h
      cases hdry
      exact .inl rfl

theorem erase_isSome (h : Progresses mp how (start + size) start)
    (hseq : ∀ c st, ((seq c st).1).isSome) {fuel : ℕ}
    (hfuel : (start + size).toNat - start.toNat < fuel) (st : σ) :
    ((mp.erase start size how seq fuel st).1).isSome := by
  obtain ⟨planned, st', hplanned⟩ := exists_eq_some_mk (eraseLoop_ends h hseq true .start hfuel st)
  obtain ⟨walked, st'', hwalked⟩ := exists_eq_some_mk (eraseLoop_ends h hseq false .start hfuel st')
  simp only [erase, hplanned]
  cases loopResult how (start + size) planned with
  | some r => rfl
  | none =>
    simp only [hwalked]
    rfl

end EraseMap

end WiseSdk.Flash
