import Mathlib.Data.List.ReduceOption
import Mathlib.Data.Nat.Log
import WiseSdk.Library.BlockPool

/-!
# The backup storage for sleep

Before a sleep `scm2020_reserve_backup_storage` of `scm2020-pm.c` takes blocks off the pool of mbufs
and hands their memory to the power manager; `scm2020_reclaim_backup_storage` gives them back after
the wake-up. The pool is reset first, so that the blocks come in order of decreasing addresses: the
reserved blocks are the highest, the blocks in the rx descriptors follow, the rest is free.

After hibernation the free list is built anew, from the lowest blocks. Their number is counted with
the reserved size rounded down, while the reservation rounded it up: where the size is not a
multiple of the block size, one block too many is freed, the last one that a rx descriptor holds.

Registers, ring pointers, mbuf headers and the descriptors in shared memory are left out, and so is
the `reset` argument of `scm2020_rx_desc_prepare`, which concerns only them.
-/

namespace WiseSdk.Wlan

open Library List Option

/-! ## The pool -/

/-- The pool `MEMP_MBUF_CACHE`, without the sanity regions of debug builds. -/
structure MempDesc where
  base : ℕ
  size : BitVec 16
  num : BitVec 16
  /-- No object of C is larger. -/
  bytes_lt : num.toNat * size.toNat < 2 ^ 31

namespace MempDesc

variable (desc : MempDesc)

def blksz : ℕ := desc.size.toNat

def nblk : ℕ := desc.num.toNat

def blocks : BlockPool := ⟨desc.base, desc.blksz⟩

end MempDesc

/-- The free list from `tab` on, and the statistics. -/
structure Memp where
  tab : List ℕ
  avail : BitVec 32
  used : BitVec 32
  deriving DecidableEq, Repr

variable (desc : MempDesc) {pool : Memp} {x fuel q m : ℕ}

def mempInitPool (pool : Memp) : Memp :=
  { pool with tab := desc.blocks.push desc.nblk desc.base [], avail := desc.num.setWidth 32 }

def mempInitPoolRegion (regNum : ℕ) (pool : Memp) : Memp :=
  { pool with tab := desc.blocks.push regNum desc.base [] }

def mempMalloc (pool : Memp) : Option (ℕ × Memp) :=
  match pool.tab with
  | [] => none
  | memp :: next => some (memp, { pool with tab := next, used := pool.used + 1 })

def mempFree (mem : ℕ) (pool : Memp) : Memp :=
  { pool with tab := mem :: pool.tab, used := pool.used - 1 }

def mempAvailable (pool : Memp) : BitVec 32 :=
  if pool.used < pool.avail then pool.avail - pool.used else 0

/-! ## The driver -/

/-- The descriptors of the shared memory, `struct rxdesc rx[128]`. -/
def shmemRxNum : ℕ := 128

/-- What the watcher keeps across the sleep. -/
structure WaonCtx where
  nRxDesc : BitVec 8
  nRxDescOrg : BitVec 8
  lastMbuf : Option ℕ
  deriving DecidableEq, Repr

structure Softc where
  pool : Memp
  /-- The mbufs of `rx.desc`, as many descriptors as were allocated at start. -/
  ring : List (Option ℕ)
  nRxDesc : ℕ
  /-- `rx.map`, the descriptors that need refilling. -/
  map : ℕ → Bool
  ctx : WaonCtx

def Softc.held (sc : Softc) : List ℕ := sc.ring.reduceOption

def rxDescNumEmptySlot (sc : Softc) : ℕ := (range sc.nRxDesc).countP sc.map

def rxDescNumFilledSlot (sc : Softc) : ℕ := sc.nRxDesc - rxDescNumEmptySlot sc

/-- Returns all mbufs of the ring to the pool. -/
def scm2020RxDescDeinit (sc : Softc) : Softc :=
  { sc with
    pool := sc.held.foldl (fun pool m => mempFree m pool) sc.pool
    ring := replicate sc.ring.length none }

/-- `LOG2_FL`, the logarithm rounded down; the loop doubles `n` while it is at most `x`. -/
def log2FlLoop (x : ℕ) : ℕ → ℕ → ℕ → ℕ
  | 0, _, k => k
  | fuel + 1, n, k => if n ≤ x then log2FlLoop x fuel (n * 2) (k + 1) else k

def log2Fl (x : ℕ) : ℤ := log2FlLoop x (x + 1) 1 0 - 1

/-- `1 << k`, undefined for a negative `k`. -/
def oneShl (k : ℤ) : Option ℕ := if 0 ≤ k then some (2 ^ k.toNat) else none

/-- One turn of the loop of `scm2020_rx_desc_prepare`: an empty descriptor gets an mbuf if there is
one. No result where an array is overrun or the assertion fails. -/
def prepareDesc (sc : Softc) (i : ℕ) : Option Softc :=
  match sc.ring[i]? with
  | none => none
  | some (some _) => some sc
  | some none =>
    if i < shmemRxNum then
      match mempMalloc sc.pool with
      | some (m, pool) => some { sc with pool, ring := sc.ring.set i (some m) }
      | none => if 0 < i then some sc else none
    else none

/-- The turns for `n` descriptors from `i` on. -/
def prepareFrom (i : ℕ) : ℕ → Softc → Option Softc
  | 0, sc => some sc
  | n + 1, sc => (prepareDesc sc i).bind (prepareFrom (i + 1) n)

def scm2020RxDescPrepare (wakeup : Bool) (sc : Softc) : Option (Option ℕ × Softc) :=
  (prepareFrom 0 sc.nRxDesc sc).bind fun sc =>
    if wakeup then some (none, sc)
    else sc.ring[sc.nRxDesc - 1]?.map fun m => (m, sc)

/-! ## Reserving and reclaiming -/

/-- The loop that takes blocks off the pool: what is reserved and the last block. -/
def reserveLoop (blksz size : ℕ) : ℕ → ℕ → Option ℕ → Memp → Option (ℕ × Option ℕ × Memp)
  | 0, _, _, _ => none
  | fuel + 1, reserved, m, pool =>
    if reserved < size then
      (mempMalloc pool).bind fun (m, pool) =>
        reserveLoop blksz size fuel (reserved + blksz) (some m) pool
    else some (reserved, m, pool)

/-- Mbufs are alive outside of the rx descriptors. -/
def GivesUp (sc : Softc) : Prop :=
  mempAvailable sc.pool + BitVec.ofNat 32 (rxDescNumFilledSlot sc) ≠ desc.num.setWidth 32
deriving Decidable

/-- `scm2020_reserve_backup_storage`: the start of the storage. -/
def scm2020ReserveBackupStorage (sc : Softc) (size : BitVec 32) : Option (Option ℕ × Softc) :=
  if ¬size.toNat < desc.nblk * desc.blksz then none
  else if GivesUp desc sc then some (none, sc)
  else
    let sc := { sc with ctx := { sc.ctx with nRxDescOrg := BitVec.ofNat 8 sc.nRxDesc } }
    let sc := scm2020RxDescDeinit sc
    let pool := mempInitPool desc sc.pool
    (reserveLoop desc.blksz size.toNat (size.toNat + 1) 0 none pool).bind
      fun (reserved, wanted, pool) =>
        let remained := desc.nblk - reserved / desc.blksz
        (oneShl (log2Fl remained)).bind fun n =>
          (scm2020RxDescPrepare false { sc with pool, nRxDesc := n }).map fun (lastM, sc) =>
            (wanted, { sc with
              ctx := { sc.ctx with lastMbuf := lastM, nRxDesc := BitVec.ofNat 8 sc.nRxDesc } })

def reclaimLoop (blksz : ℕ) : ℕ → ℕ → ℤ → Memp → Option Memp
  | 0, _, _, _ => none
  | fuel + 1, p, size, pool =>
    if 0 < size then reclaimLoop blksz fuel (p + blksz) (size - blksz) (mempFree p pool)
    else some pool

/-- The first part of the reclaiming, after hibernation: a new free list. -/
def resetRegion (reservedSize : BitVec 32) (sc : Softc) : Option Softc :=
  let n : ℤ := desc.nblk - sc.ctx.nRxDesc.toNat - reservedSize.toInt.tdiv desc.blksz
  if 0 ≤ n then some { sc with pool := mempInitPoolRegion desc n.toNat sc.pool } else none

/-- `scm2020_reclaim_backup_storage`; `himode` is `pm_wakeup_is_himode()`. -/
def scm2020ReclaimBackupStorage (reservedSize : BitVec 32) (himode : Bool) (sc : Softc)
    (start : Option ℕ) (size : BitVec 32) : Option Softc :=
  match start with
  | none => some sc
  | some start =>
    (if himode then resetRegion desc reservedSize sc else some sc).bind fun sc =>
      (reclaimLoop desc.blksz (size.toNat + 1) start size.toInt sc.pool).bind fun pool =>
        (scm2020RxDescPrepare true
          { sc with pool, nRxDesc := sc.ctx.nRxDescOrg.toNat }).map Prod.snd

/-- Hibernation does not keep the pool: what is read from it as a free list can be anything. -/
def hibernate (lost : List ℕ) (sc : Softc) : Softc :=
  { sc with pool := { sc.pool with tab := lost } }

/-! ## The law -/

/-- The driver before a sleep: no block is in two places, and the ring has its full size. -/
structure Driver (desc : MempDesc) extends Softc where
  log2 : ℕ
  ring_length : ring.length = 2 ^ log2
  nRxDesc_eq : nRxDesc = 2 ^ log2
  nodup : (pool.tab ++ toSoftc.held).Nodup
  subset : pool.tab ++ toSoftc.held ⊆ desc.blocks.run 0 desc.nblk

/-- The storage, if there is one, the blocks in the descriptors and the free blocks do not
overlap. -/
def Separate (wanted : Option ℕ) (size : ℕ) (sc : Softc) : Prop :=
  (wanted.toList.map (fun start => (⟨start, start + size⟩ : Extent)) ++
    (sc.pool.tab ++ sc.held).map desc.blocks.extent).Pairwise Extent.Apart

/-- Every block of the pool is once in the free list or in a descriptor. -/
def Partition (sc : Softc) : Prop :=
  (sc.pool.tab ++ sc.held).Perm (desc.blocks.run 0 desc.nblk)

/-- The reservation keeps the parts separate, and after hibernation the pool is whole again; no
sleep without reserved storage. -/
def BackupSound (sc : Softc) (size : BitVec 32) : Prop :=
  ∃ wanted sc', scm2020ReserveBackupStorage desc sc size = some (wanted, sc') ∧
    Separate desc wanted size.toNat sc' ∧
    ∀ start, wanted = some start → ∀ lost, ∃ sc'',
      scm2020ReclaimBackupStorage desc size true (hibernate lost sc') (some start) size =
        some sc'' ∧ Partition desc sc''

/-- The descriptors that are filled from what the reservation leaves. -/
def ringLeft (size : BitVec 32) : ℕ :=
  2 ^ Nat.log 2 (desc.nblk - size.toNat / desc.blksz)

/-- The size is a whole number of blocks, and the ring for the sleep not larger than the one
there. -/
def Reservable (sc : Softc) (size : BitVec 32) : Prop :=
  desc.blksz ∣ size.toNat ∧ ringLeft desc size ≤ sc.ring.length ∧ ringLeft desc size ≤ shmemRxNum
deriving Decidable

/-! ## Rounding up -/

/-- `r` pieces of `b` bytes are as many as `n` bytes need. -/
def RoundsUp (b n r : ℕ) : Prop := n ≤ r * b ∧ ∀ j < r, j * b < n

theorem exists_roundsUp {b : ℕ} (hb : 0 < b) (n : ℕ) : ∃ r, RoundsUp b n r := by
  have hex : ∃ r, n ≤ r * b := ⟨n, Nat.le_mul_of_pos_right n hb⟩
  exact ⟨Nat.find hex, Nat.find_spec hex, fun j hj => Nat.lt_of_not_le (Nat.find_min hex hj)⟩

namespace RoundsUp

variable {b n r : ℕ}

theorem eq_zero (h : RoundsUp b n 0) : n = 0 := by simpa using h.1

theorem pos (h : RoundsUp b n (r + 1)) : 0 < n := Nat.zero_lt_of_lt (h.2 r (Nat.lt_succ_self r))

theorem sub (h : RoundsUp b n (r + 1)) : RoundsUp b (n - b) r := by
  have hle := h.1
  rw [Nat.succ_mul] at hle
  refine ⟨by omega, fun j hj => ?_⟩
  have hlt := h.2 (j + 1) (Nat.succ_lt_succ hj)
  rw [Nat.succ_mul] at hlt
  omega

section

variable (h : RoundsUp b n r)

include h

theorem le_of_le_mul (hn : n ≤ m * b) : r ≤ m :=
  Nat.le_of_not_lt fun hlt => absurd (h.2 m hlt) (Nat.not_lt.mpr hn)

theorem le_self (hb : 0 < b) : r ≤ n := h.le_of_le_mul (Nat.le_mul_of_pos_right n hb)

theorem div_le : n / b ≤ r := Nat.div_le_of_le_mul (Nat.mul_comm r b ▸ h.1)

theorem dvd_iff : b ∣ n ↔ n = r * b := by
  refine ⟨fun ⟨q, hq⟩ => ?_, fun hn => ⟨r, by rw [hn, Nat.mul_comm]⟩⟩
  rw [Nat.mul_comm] at hq
  exact Nat.le_antisymm h.1 (hq ▸ Nat.mul_le_mul_right b (h.le_of_le_mul hq.le))

theorem div_eq (hb : 0 < b) (hdvd : b ∣ n) : n / b = r := by
  rw [h.dvd_iff.mp hdvd, Nat.mul_div_cancel r hb]

theorem succ_div_eq (hb : 0 < b) (hdvd : ¬b ∣ n) : n / b + 1 = r := by
  have hdown := Nat.div_mul_le_self n b
  have hup : n < (n / b + 1) * b := Nat.lt_mul_of_div_lt (Nat.lt_succ_self _) hb
  refine Nat.le_antisymm ?_ (h.le_of_le_mul hup.le)
  refine Nat.lt_of_not_le fun hle => hdvd (h.dvd_iff.mpr ?_)
  exact Nat.le_antisymm h.1 ((Nat.mul_le_mul_right b hle).trans hdown)

end

end RoundsUp

/-! ## What the parts do -/

theorem log2FlLoop_eq (hx : 0 < x) {k : ℕ} (hk : k ≤ Nat.log 2 x + 1)
    (hfuel : Nat.log 2 x + 1 < fuel + k) : log2FlLoop x fuel (2 ^ k) k = Nat.log 2 x + 1 := by
  induction fuel generalizing k with
  | zero => omega
  | succ fuel ih =>
    rw [log2FlLoop]
    split_ifs with hle
    · have hlog : k ≤ Nat.log 2 x := Nat.le_log_of_pow_le (by decide) hle
      rw [← Nat.pow_succ]
      exact ih (by omega) (by omega)
    · have hlog : Nat.log 2 x < k := Nat.log_lt_of_lt_pow hx.ne' (Nat.lt_of_not_le hle)
      omega

theorem oneShl_log2Fl (hx : 0 < x) : oneShl (log2Fl x) = some (2 ^ Nat.log 2 x) := by
  have hlog := Nat.log_lt_self 2 hx.ne'
  have hloop : log2FlLoop x (x + 1) 1 0 = Nat.log 2 x + 1 :=
    log2FlLoop_eq hx (Nat.zero_le _) (by omega)
  rw [log2Fl, hloop, oneShl, if_pos (by omega)]
  simp

section Loops

variable (desc : MempDesc)

theorem addr_zero : desc.blocks.addr 0 = desc.base := by
  rw [BlockPool.addr, Nat.zero_mul]
  rfl

theorem tab_mempInitPoolRegion (n : ℕ) (pool : Memp) :
    (mempInitPoolRegion desc n pool).tab = desc.blocks.run 0 n := by
  have hpush := desc.blocks.push_addr n 0 []
  rw [addr_zero, append_nil] at hpush
  exact hpush

theorem tab_mempInitPool (pool : Memp) :
    (mempInitPool desc pool).tab = desc.blocks.run 0 desc.nblk :=
  tab_mempInitPoolRegion desc desc.nblk pool

theorem mempMalloc_run {k : ℕ} (h : pool.tab = desc.blocks.run 0 (k + 1)) :
    ∃ pool', mempMalloc pool = some (desc.blocks.addr k, pool') ∧
      pool'.tab = desc.blocks.run 0 k := by
  rw [BlockPool.run_succ, Nat.zero_add] at h
  refine ⟨{ pool with tab := desc.blocks.run 0 k, used := pool.used + 1 }, ?_, rfl⟩
  rw [mempMalloc, h]

theorem reserveLoop_run {size reserved r k : ℕ} {m : Option ℕ}
    (hr : RoundsUp desc.blksz (size - reserved) r) (hk : r ≤ k) (hfuel : r < fuel)
    (htab : pool.tab = desc.blocks.run 0 k) :
    ∃ pool', reserveLoop desc.blksz size fuel reserved m pool =
        some (reserved + r * desc.blksz, (if r = 0 then m else some (desc.blocks.addr (k - r))),
          pool') ∧ pool'.tab = desc.blocks.run 0 (k - r) := by
  induction fuel generalizing reserved r k m pool with
  | zero => omega
  | succ fuel ih =>
    cases r with
    | zero =>
      have hdone := hr.eq_zero
      refine ⟨pool, ?_, htab⟩
      rw [reserveLoop, if_neg (by omega), Nat.zero_mul]
      rfl
    | succ r =>
      obtain ⟨k, rfl⟩ : ∃ k', k = k' + 1 := ⟨k - 1, by omega⟩
      obtain ⟨pool', hmalloc, htab'⟩ := mempMalloc_run desc htab
      have hpos := hr.pos
      have hrest := hr.sub
      rw [Nat.sub_sub] at hrest
      obtain ⟨pool'', hloop, htab''⟩ := ih (m := some (desc.blocks.addr k)) hrest
        (Nat.le_of_succ_le_succ hk) (Nat.lt_of_succ_lt_succ hfuel) htab'
      refine ⟨pool'', ?_, by rwa [Nat.add_sub_add_right]⟩
      have hlast : (if r = 0 then some (desc.blocks.addr k) else some (desc.blocks.addr (k - r))) =
          some (desc.blocks.addr (k - r)) := by
        split_ifs with hr0
        · rw [hr0, Nat.sub_zero]
        · rfl
      rw [reserveLoop, if_pos (by omega), hmalloc, bind_some]
      dsimp only
      rw [hloop, hlast, if_neg (Nat.succ_ne_zero r), Nat.succ_mul, Nat.add_assoc,
        Nat.add_comm desc.blksz, Nat.add_sub_add_right]

/-- As many blocks are given back as were reserved. -/
theorem reclaimLoop_run {size : ℤ} {r : ℕ} (i : ℕ) (pool : Memp)
    (hr : RoundsUp desc.blksz size.toNat r) (hfuel : r < fuel) :
    ∃ pool', reclaimLoop desc.blksz fuel (desc.blocks.addr i) size pool = some pool' ∧
      pool'.tab = desc.blocks.run i r ++ pool.tab := by
  induction fuel generalizing i r size pool with
  | zero => omega
  | succ fuel ih =>
    cases r with
    | zero =>
      have hdone := hr.eq_zero
      exact ⟨pool, by rw [reclaimLoop, if_neg (by omega)], rfl⟩
    | succ r =>
      have hpos := hr.pos
      have hrest : RoundsUp desc.blksz (size - desc.blksz).toNat r := by
        have hsub : (size - desc.blksz).toNat = size.toNat - desc.blksz := by omega
        rw [hsub]
        exact hr.sub
      obtain ⟨pool', hloop, htab⟩ := ih (i + 1) (mempFree (desc.blocks.addr i) pool) hrest
        (Nat.lt_of_succ_lt_succ hfuel)
      refine ⟨pool', ?_, ?_⟩
      · rw [reclaimLoop, if_pos (by omega), ← hloop, BlockPool.addr_succ]
        rfl
      · rw [htab, Nat.add_comm r, BlockPool.run_add]
        simp [mempFree, BlockPool.run_succ]

end Loops

/-! ## Filling the ring -/

variable {i : ℕ}

theorem reduceOption_set {ring : List (Option ℕ)} (h : ring[i]? = some none) (m : ℕ) :
    (ring.set i (some m)).reduceOption.Perm (m :: ring.reduceOption) := by
  obtain ⟨hi, hnone⟩ := List.getElem?_eq_some_iff.mp h
  have hring : ring = ring.take i ++ none :: ring.drop (i + 1) := by
    rw [← hnone, getElem_cons_drop, take_append_drop]
  rw [set_eq_take_append_cons_drop, if_pos hi]
  nth_rewrite 3 [hring]
  rw [reduceOption_append, reduceOption_append, reduceOption_cons_of_some,
    reduceOption_cons_of_none]
  exact perm_middle

variable {sc : Softc}

theorem prepareDesc_perm (hi : i < sc.ring.length) (hshmem : i < shmemRxNum)
    (hfirst : 0 < i ∨ ∃ m, sc.ring[i]? = some (some m)) :
    ∃ sc', prepareDesc sc i = some sc' ∧ sc'.ring.length = sc.ring.length ∧
      (sc'.pool.tab ++ sc'.held).Perm (sc.pool.tab ++ sc.held) := by
  rw [prepareDesc]
  cases hslot : sc.ring[i]? with
  | none => exact absurd (List.getElem?_eq_none_iff.mp hslot) (Nat.not_le.mpr hi)
  | some slot =>
    cases slot with
    | some m => exact ⟨sc, rfl, rfl, Perm.refl _⟩
    | none =>
      have hpos : 0 < i := hfirst.resolve_right (by simp [hslot])
      cases htab : sc.pool.tab with
      | nil => exact ⟨sc, by simp [hshmem, mempMalloc, htab, hpos], rfl, by rw [htab]⟩
      | cons m tab =>
        refine ⟨{ sc with
          pool := { sc.pool with tab, used := sc.pool.used + 1 }
          ring := sc.ring.set i (some m) }, by simp [hshmem, mempMalloc, htab], ?_, ?_⟩
        · exact length_set
        · have hset := (reduceOption_set hslot m).append_left tab
          exact hset.trans perm_middle

theorem prepareFrom_perm {n : ℕ} (sc : Softc) (hi : i + n ≤ sc.ring.length)
    (hshmem : i + n ≤ shmemRxNum) (hfirst : 0 < i ∨ ∃ m, sc.ring[i]? = some (some m)) :
    ∃ sc', prepareFrom i n sc = some sc' ∧
      (sc'.pool.tab ++ sc'.held).Perm (sc.pool.tab ++ sc.held) := by
  induction n generalizing i sc with
  | zero => exact ⟨sc, rfl, Perm.refl _⟩
  | succ n ih =>
    obtain ⟨sc', hstep, hlen, hperm⟩ := prepareDesc_perm (by omega) (by omega) hfirst
    obtain ⟨sc'', hrun, hperm'⟩ := ih (i := i + 1) sc' (by omega) (by omega)
      (.inl (Nat.succ_pos i))
    exact ⟨sc'', by rw [prepareFrom, hstep, bind_some, hrun], hperm'.trans hperm⟩

theorem prepareFrom_fresh {n k : ℕ} {filled : List (Option ℕ)} (sc : Softc)
    (hring : sc.ring = filled ++ replicate q none) (hn : n ≤ q)
    (hshmem : filled.length + n ≤ shmemRxNum) (hk : n ≤ k)
    (htab : sc.pool.tab = desc.blocks.run 0 k) :
    ∃ sc', prepareFrom filled.length n sc = some sc' ∧
      sc'.ring = filled ++ (desc.blocks.run (k - n) n).map some ++ replicate (q - n) none ∧
      sc'.pool.tab = desc.blocks.run 0 (k - n) ∧ sc'.ctx = sc.ctx ∧ sc'.nRxDesc = sc.nRxDesc := by
  induction n generalizing filled sc k q with
  | zero => exact ⟨sc, rfl, by simpa using hring, htab, rfl, rfl⟩
  | succ n ih =>
    obtain ⟨k, rfl⟩ : ∃ k', k = k' + 1 := ⟨k - 1, by omega⟩
    obtain ⟨q, rfl⟩ : ∃ q', q = q' + 1 := ⟨q - 1, by omega⟩
    obtain ⟨pool, hmalloc, htab'⟩ := mempMalloc_run desc htab
    have hslot : sc.ring[filled.length]? = some none := by
      rw [hring, getElem?_append_right le_rfl, Nat.sub_self]
      rfl
    have hstep : prepareDesc sc filled.length = some { sc with
        pool, ring := sc.ring.set filled.length (some (desc.blocks.addr k)) } := by
      rw [prepareDesc, hslot]
      simp only [hmalloc]
      rw [if_pos (by omega)]
    have hset : sc.ring.set filled.length (some (desc.blocks.addr k)) =
        (filled ++ [some (desc.blocks.addr k)]) ++ replicate q none := by
      rw [hring, set_append_right _ _ le_rfl, Nat.sub_self, replicate_succ,
        set_cons_zero, append_assoc, singleton_append]
    have hlen : (filled ++ [some (desc.blocks.addr k)]).length = filled.length + 1 := by simp
    obtain ⟨sc', hrun, hring', htab'', hctx, hn'⟩ := ih { sc with
        pool, ring := sc.ring.set filled.length (some (desc.blocks.addr k)) } hset
      (Nat.le_of_succ_le_succ hn) (by omega) (Nat.le_of_succ_le_succ hk) htab'
    rw [hlen] at hrun
    refine ⟨sc', by rw [prepareFrom, hstep, bind_some, hrun], ?_, ?_, hctx, hn'⟩
    · rw [hring', Nat.add_sub_add_right, Nat.add_sub_add_right, BlockPool.run_succ,
        Nat.sub_add_cancel (Nat.le_of_succ_le_succ hk)]
      simp
    · rw [htab'', Nat.add_sub_add_right]

theorem bounds_of_prepareDesc {sc' : Softc} (hempty : ∀ m, sc.ring[i]? ≠ some (some m))
    (h : prepareDesc sc i = some sc') :
    i < sc.ring.length ∧ i < shmemRxNum ∧ sc'.ring.length = sc.ring.length ∧
      ∀ j, i < j → sc'.ring[j]? = sc.ring[j]? := by
  rw [prepareDesc] at h
  cases hslot : sc.ring[i]? with
  | none => simp [hslot] at h
  | some slot =>
    obtain ⟨hi, -⟩ := List.getElem?_eq_some_iff.mp hslot
    cases slot with
    | some m => exact absurd hslot (hempty m)
    | none =>
      have hshmem : i < shmemRxNum := by
        by_contra hshmem
        simp [hslot, hshmem] at h
      refine ⟨hi, hshmem, ?_⟩
      cases hmalloc : mempMalloc sc.pool with
      | some out =>
        simp only [hslot, hmalloc, if_pos hshmem, some.injEq] at h
        subst h
        exact ⟨length_set, fun j hj => getElem?_set_ne (Nat.ne_of_lt hj)⟩
      | none =>
        simp only [hslot, hmalloc, if_pos hshmem] at h
        split_ifs at h
        cases h
        exact ⟨rfl, fun j _ => rfl⟩

/-- An empty ring is filled only within the arrays. -/
theorem bounds_of_prepareFrom {n : ℕ} {sc' : Softc}
    (hempty : ∀ j, i ≤ j → ∀ m, sc.ring[j]? ≠ some (some m)) (hn : 0 < n)
    (h : prepareFrom i n sc = some sc') : i + n ≤ sc.ring.length ∧ i + n ≤ shmemRxNum := by
  induction n generalizing i sc with
  | zero => exact absurd hn (Nat.lt_irrefl 0)
  | succ n ih =>
    obtain ⟨mid, hstep, hrun⟩ := bind_eq_some_iff.mp h
    obtain ⟨hi, hshmem, hlen, hsame⟩ := bounds_of_prepareDesc (hempty i le_rfl) hstep
    by_cases hlast : n = 0
    · subst hlast
      exact ⟨hi, hshmem⟩
    have hempty' : ∀ j, i + 1 ≤ j → ∀ m, mid.ring[j]? ≠ some (some m) := fun j hj m => by
      rw [hsame j hj]
      exact hempty j (Nat.le_of_succ_le hj) m
    obtain ⟨hring, hshmem'⟩ := ih hempty' (Nat.pos_of_ne_zero hlast) hrun
    exact ⟨by omega, by omega⟩

/-! ## Reserving -/

section Reserve

variable {desc : MempDesc} {sc sc' : Softc} {size : BitVec 32}

theorem blksz_pos (hsize : size.toNat < desc.nblk * desc.blksz) : 0 < desc.blksz :=
  Nat.pos_of_ne_zero fun h => by simp [h] at hsize

/-- The driver with an empty ring, ready to be filled with `n` blocks. -/
def emptied (sc : Softc) (pool : Memp) (n : ℕ) : Softc :=
  { sc with
    pool
    ring := replicate sc.ring.length none
    nRxDesc := n
    ctx := { sc.ctx with nRxDescOrg := BitVec.ofNat 8 sc.nRxDesc } }

variable {r : ℕ}

theorem reserve_eq (hsize : size.toNat < desc.nblk * desc.blksz) (hstay : ¬GivesUp desc sc)
    (hr : RoundsUp desc.blksz size.toNat r) :
    ∃ pool, pool.tab = desc.blocks.run 0 (desc.nblk - r) ∧
      scm2020ReserveBackupStorage desc sc size =
        (oneShl (log2Fl (desc.nblk - r))).bind fun n =>
          (scm2020RxDescPrepare false (emptied sc pool n)).map fun (lastM, sc) =>
            (if r = 0 then none else some (desc.blocks.addr (desc.nblk - r)), { sc with ctx :=
                { sc.ctx with lastMbuf := lastM, nRxDesc := BitVec.ofNat 8 sc.nRxDesc } }) := by
  have hb := blksz_pos hsize
  obtain ⟨pool, hloop, htab⟩ : ∃ pool, reserveLoop desc.blksz size.toNat (size.toNat + 1) 0 none
        (mempInitPool desc (scm2020RxDescDeinit sc).pool) = some (0 + r * desc.blksz,
          (if r = 0 then none else some (desc.blocks.addr (desc.nblk - r))), pool) ∧
      pool.tab = desc.blocks.run 0 (desc.nblk - r) :=
    reserveLoop_run desc hr (hr.le_of_le_mul hsize.le) (Nat.lt_succ_of_le (hr.le_self hb))
      (tab_mempInitPool desc (scm2020RxDescDeinit sc).pool)
  have hcount : (0 + r * desc.blksz) / desc.blksz = r := by
    rw [Nat.zero_add, Nat.mul_div_cancel r hb]
  refine ⟨pool, htab, ?_⟩
  rw [scm2020ReserveBackupStorage, if_neg (not_not.mpr hsize), if_neg hstay]
  show (reserveLoop desc.blksz size.toNat (size.toNat + 1) 0 none
    (mempInitPool desc (scm2020RxDescDeinit sc).pool)).bind _ = _
  rw [hloop, bind_some]
  dsimp only
  rw [hcount]
  rfl

/-- Asleep: `n` descriptors are filled, `r` blocks reserved above theirs and `k` free below. -/
structure Asleep (desc : MempDesc) (sc sc' : Softc) (r n k : ℕ) : Prop where
  total : k + n + r = desc.nblk
  pos : 0 < n
  ring_le : n ≤ sc.ring.length
  shmem_le : n ≤ shmemRxNum
  ring : sc'.ring = (desc.blocks.run k n).map some ++ replicate (sc.ring.length - n) none
  tab : sc'.pool.tab = desc.blocks.run 0 k
  nRxDesc : sc'.ctx.nRxDesc = BitVec.ofNat 8 n
  nRxDescOrg : sc'.ctx.nRxDescOrg = BitVec.ofNat 8 sc.nRxDesc

theorem Asleep.held {n k : ℕ} (h : Asleep desc sc sc' r n k) : sc'.held = desc.blocks.run k n := by
  rw [Softc.held, h.ring, reduceOption_append, reduceOption_replicate_none, append_nil]
  simp [List.reduceOption]

section

variable (hsize : size.toNat < desc.nblk * desc.blksz) (hstay : ¬GivesUp desc sc)
  (hr : RoundsUp desc.blksz size.toNat r)

include hsize hstay hr

/-- **The reservation.**  It ends exactly when blocks are left and the ring for them fits. -/
theorem reserve_asleep (hlt : r < desc.nblk)
    (hring : 2 ^ Nat.log 2 (desc.nblk - r) ≤ sc.ring.length)
    (hshmem : 2 ^ Nat.log 2 (desc.nblk - r) ≤ shmemRxNum) :
    ∃ sc' n k, scm2020ReserveBackupStorage desc sc size =
        some (if r = 0 then none else some (desc.blocks.addr (desc.nblk - r)), sc') ∧
      Asleep desc sc sc' r n k := by
  obtain ⟨pool, htab, heq⟩ := reserve_eq hsize hstay hr
  have hleft : 0 < desc.nblk - r := Nat.sub_pos_of_lt hlt
  have hle : 2 ^ Nat.log 2 (desc.nblk - r) ≤ desc.nblk - r := Nat.pow_log_le_self 2 hleft.ne'
  have hpos : 0 < 2 ^ Nat.log 2 (desc.nblk - r) := Nat.pow_pos (by decide)
  rw [oneShl_log2Fl hleft, bind_some] at heq
  generalize 2 ^ Nat.log 2 (desc.nblk - r) = n at *
  have hstart : (emptied sc pool n).ring = [] ++ replicate sc.ring.length none := rfl
  obtain ⟨sc', hrun, hring', htab', hctx, hn⟩ := prepareFrom_fresh desc (emptied sc pool n) hstart
    hring (by simpa using hshmem) hle htab
  rw [nil_append] at hring'
  have hlast : n - 1 < sc'.ring.length := by
    rw [hring', length_append, length_map, BlockPool.length_run]
    omega
  have hprep : scm2020RxDescPrepare false (emptied sc pool n) =
      some (sc'.ring.get ⟨n - 1, hlast⟩, sc') := by
    have hrun : prepareFrom 0 n (emptied sc pool n) = some sc' := hrun
    have hn : sc'.nRxDesc = n := hn
    rw [scm2020RxDescPrepare]
    show (prepareFrom 0 n (emptied sc pool n)).bind _ = _
    rw [hrun, bind_some, if_neg (by decide), hn, getElem?_eq_getElem hlast]
    rfl
  rw [hprep, map_some] at heq
  refine ⟨_, n, desc.nblk - r - n, heq, ?_⟩
  exact {
    total := by omega
    pos := hpos
    ring_le := hring
    shmem_le := hshmem
    ring := hring'
    tab := htab'
    nRxDesc := congrArg (BitVec.ofNat 8) hn
    nRxDescOrg := congrArg WaonCtx.nRxDescOrg hctx }

theorem bounds_of_reserve {out : Option ℕ × Softc}
    (h : scm2020ReserveBackupStorage desc sc size = some out) :
    r < desc.nblk ∧ 2 ^ Nat.log 2 (desc.nblk - r) ≤ sc.ring.length ∧
      2 ^ Nat.log 2 (desc.nblk - r) ≤ shmemRxNum := by
  obtain ⟨pool, htab, heq⟩ := reserve_eq hsize hstay hr
  rw [h] at heq
  have hlt : r < desc.nblk := by
    refine Nat.lt_of_le_of_ne (hr.le_of_le_mul hsize.le) fun hall => ?_
    have hnone : oneShl (log2Fl (desc.nblk - r)) = none := by
      rw [hall, Nat.sub_self]
      rfl
    rw [hnone] at heq
    cases heq
  have hempty : ∀ n j, 0 ≤ j → ∀ m, (emptied sc pool n).ring[j]? ≠ some (some m) := by
    intro n j _ m hslot
    simp [emptied, getElem?_replicate] at hslot
  have hpos : 0 < 2 ^ Nat.log 2 (desc.nblk - r) := Nat.pow_pos (by decide)
  rw [oneShl_log2Fl (Nat.sub_pos_of_lt hlt), bind_some] at heq
  obtain ⟨mid, hprep, -⟩ := map_eq_some_iff.mp heq.symm
  obtain ⟨sc', hrun, -⟩ := bind_eq_some_iff.mp hprep
  have hbounds := bounds_of_prepareFrom (hempty _) hpos hrun
  refine ⟨hlt, ?_⟩
  simpa [emptied] using hbounds

end

end Reserve

/-! ## Reclaiming -/

section Reclaim

variable {desc : MempDesc} {d : Driver desc} {size : BitVec 32} {sc' : Softc} {r n k : ℕ}

theorem nRxDescOrg_le (d : Driver desc) :
    (BitVec.ofNat 8 d.nRxDesc).toNat ≤ d.ring.length ∧
      (BitVec.ofNat 8 d.nRxDesc).toNat ≤ shmemRxNum := by
  rw [BitVec.toNat_ofNat, d.nRxDesc_eq, d.ring_length]
  refine ⟨Nat.mod_le _ _, ?_⟩
  by_cases hlog : d.log2 < 8
  · exact (Nat.mod_le _ _).trans (Nat.pow_le_pow_right (by decide) (Nat.le_of_lt_succ hlog))
  · rw [Nat.mod_eq_zero_of_dvd (Nat.pow_dvd_pow 2 (Nat.le_of_not_lt hlog))]
    exact Nat.zero_le _

theorem toInt_size (hsize : size.toNat < desc.nblk * desc.blksz) : size.toInt = size.toNat := by
  have hbytes := desc.bytes_lt
  rw [MempDesc.nblk, MempDesc.blksz] at hsize
  exact BitVec.toInt_eq_toNat_of_lt (by omega)

theorem resetRegion_eq (hsize : size.toNat < desc.nblk * desc.blksz) {sc : Softc}
    (hle : sc.ctx.nRxDesc.toNat + size.toNat / desc.blksz ≤ desc.nblk) :
    resetRegion desc size sc = some { sc with
      pool := mempInitPoolRegion desc
        (desc.nblk - sc.ctx.nRxDesc.toNat - size.toNat / desc.blksz) sc.pool } := by
  have hfree : (desc.nblk : ℤ) - sc.ctx.nRxDesc.toNat - size.toInt.tdiv desc.blksz =
      ((desc.nblk - sc.ctx.nRxDesc.toNat - size.toNat / desc.blksz : ℕ) : ℤ) := by
    rw [toInt_size hsize, Int.tdiv_eq_ediv_of_nonneg (Int.natCast_nonneg _)]
    omega
  simp only [resetRegion, hfree, if_pos (Int.natCast_nonneg _), Int.toNat_natCast]

section Asleep

variable (h : Asleep desc d.toSoftc sc' r n k)

include h

theorem Asleep.toNat_nRxDesc : sc'.ctx.nRxDesc.toNat = n := by
  have hshmem := h.shmem_le
  rw [shmemRxNum] at hshmem
  rw [h.nRxDesc, BitVec.toNat_ofNat, Nat.mod_eq_of_lt (by omega)]

theorem Asleep.length_ring : sc'.ring.length = d.ring.length := by
  have hle := h.ring_le
  rw [h.ring, length_append, length_map, BlockPool.length_run, length_replicate]
  omega

theorem Asleep.ring_zero : ∃ m, sc'.ring[0]? = some (some m) := by
  obtain ⟨n', hn'⟩ : ∃ n', n = n' + 1 := ⟨n - 1, (Nat.sub_add_cancel h.pos).symm⟩
  refine ⟨desc.blocks.addr (k + n'), ?_⟩
  rw [h.ring, hn']
  rfl

end Asleep

/-- **Waking up**: the reserved blocks, a free list counted with the size rounded down, and the
descriptors' blocks. -/
theorem reclaim_perm (hsize : size.toNat < desc.nblk * desc.blksz)
    (hr : RoundsUp desc.blksz size.toNat r) (h : Asleep desc d.toSoftc sc' r n k)
    (lost : List ℕ) :
    ∃ sc'', scm2020ReclaimBackupStorage desc size true (hibernate lost sc')
        (some (desc.blocks.addr (desc.nblk - r))) size = some sc'' ∧
      (sc''.pool.tab ++ sc''.held).Perm (desc.blocks.run (desc.nblk - r) r ++
        desc.blocks.run 0 (desc.nblk - n - size.toNat / desc.blksz) ++ desc.blocks.run k n) := by
  have hb := blksz_pos hsize
  have htotal := h.total
  have hn := h.toNat_nRxDesc
  have hdown := hr.div_le
  -- The new free list, then the reserved blocks.
  have hreset : resetRegion desc size (hibernate lost sc') = _ :=
    resetRegion_eq hsize (show sc'.ctx.nRxDesc.toNat + _ ≤ _ by omega)
  have hr' : RoundsUp desc.blksz size.toInt.toNat r := by
    rwa [toInt_size hsize, Int.toNat_natCast]
  obtain ⟨pool, hloop, htab⟩ := reclaimLoop_run desc (desc.nblk - r)
    (mempInitPoolRegion desc (desc.nblk - sc'.ctx.nRxDesc.toNat - size.toNat / desc.blksz)
      (hibernate lost sc').pool) hr' (Nat.lt_succ_of_le (hr.le_self hb))
  rw [tab_mempInitPoolRegion, hn] at htab
  -- Then the ring, whose first descriptor is filled.
  let woken : Softc := { sc' with pool, nRxDesc := sc'.ctx.nRxDescOrg.toNat }
  have hlen : woken.ring.length = d.ring.length := h.length_ring
  have hfirst : ∃ m, woken.ring[0]? = some (some m) := h.ring_zero
  obtain ⟨hring, hshmem⟩ := nRxDescOrg_le d
  rw [← h.nRxDescOrg] at hring hshmem
  obtain ⟨sc'', hrun, hperm⟩ := prepareFrom_perm (i := 0) (n := sc'.ctx.nRxDescOrg.toNat) woken
    (by rw [hlen]; omega) (by omega) (.inr hfirst)
  refine ⟨sc'', ?_, ?_⟩
  · have hprep : scm2020RxDescPrepare true woken = some (none, sc'') := by
      rw [scm2020RxDescPrepare]
      rw [hrun, bind_some, if_pos rfl]
    rw [scm2020ReclaimBackupStorage, if_pos rfl, hreset, bind_some]
    show (reclaimLoop _ _ _ _ (mempInitPoolRegion desc
      (desc.nblk - sc'.ctx.nRxDesc.toNat - size.toNat / desc.blksz) _)).bind _ = _
    rw [hloop, bind_some]
    show (scm2020RxDescPrepare true woken).map Prod.snd = _
    rw [hprep, map_some]
  · refine hperm.trans ?_
    have hheld : woken.held = desc.blocks.run k n := h.held
    rw [htab, hheld]

end Reclaim

/-! ## The law holds for whole blocks -/

section Law

variable {desc : MempDesc} {d : Driver desc} {size : BitVec 32} {sc' : Softc} {r n k : ℕ}

theorem separate_of_givesUp (d : Driver desc) : Separate desc none size.toNat d.toSoftc :=
  desc.blocks.pairwise_of_nodup d.nodup d.subset

theorem Asleep.separate (h : Asleep desc d.toSoftc sc' r n k) :
    Separate desc (if r = 0 then none else some (desc.blocks.addr (desc.nblk - r))) size.toNat
      sc' := by
  have htotal := h.total
  have hblocks : (sc'.pool.tab ++ sc'.held).Perm (desc.blocks.run 0 (k + n)) := by
    rw [h.tab, h.held, BlockPool.run_add, Nat.zero_add]
    exact perm_append_comm
  have hapart : ((sc'.pool.tab ++ sc'.held).map desc.blocks.extent).Pairwise Extent.Apart :=
    ((hblocks.map _).pairwise_iff Extent.Apart.symm).mpr (desc.blocks.pairwise_run 0 (k + n))
  rw [Separate]
  by_cases hr0 : r = 0
  · rw [if_pos hr0]
    exact hapart
  rw [if_neg hr0]
  refine pairwise_cons.mpr ⟨fun e he => ?_, hapart⟩
  -- All these blocks lie below the storage.
  obtain ⟨a, ha, rfl⟩ := List.mem_map.mp he
  obtain ⟨i, -, hi, rfl⟩ := desc.blocks.mem_run.mp (hblocks.mem_iff.mp ha)
  exact .inr (desc.blocks.extent_hi_le (by omega))

theorem partition_of_dvd (htotal : k + n + r = desc.nblk) {sc : Softc}
    (h : (sc.pool.tab ++ sc.held).Perm (desc.blocks.run (desc.nblk - r) r ++
      desc.blocks.run 0 (desc.nblk - n - r) ++ desc.blocks.run k n)) : Partition desc sc := by
  have hpool : desc.blocks.run 0 desc.nblk =
      desc.blocks.run (desc.nblk - r) r ++ (desc.blocks.run k n ++ desc.blocks.run 0 k) := by
    rw [← htotal, BlockPool.run_add, BlockPool.run_add, Nat.zero_add, Nat.zero_add,
      Nat.add_sub_cancel]
  have hfree : desc.nblk - n - r = k := by omega
  rw [Partition, hpool]
  refine h.trans ?_
  rw [hfree, append_assoc]
  exact perm_append_comm.append_left _

theorem not_partition_of_not_dvd (hb : 0 < desc.blksz) (hn : 0 < n) (hq : k < q) {sc : Softc}
    (h : (sc.pool.tab ++ sc.held).Perm (desc.blocks.run (desc.nblk - r) r ++
      desc.blocks.run 0 q ++ desc.blocks.run k n)) : ¬Partition desc sc := by
  intro hpart
  have hnodup := (h.symm.trans hpart).nodup_iff.mpr (desc.blocks.nodup_run hb 0 desc.nblk)
  have hdisj := disjoint_of_nodup_append hnodup
  refine hdisj (mem_append_right _ (desc.blocks.mem_run.mpr ⟨k, by omega, by omega, rfl⟩)) ?_
  exact desc.blocks.mem_run.mpr ⟨k, le_rfl, by omega, rfl⟩

/-- **The backup storage.** For every pool, driver state and size below the pool's, the parts are
separate during the sleep and the pool is whole after a hibernation exactly when no storage is
taken, or the size is a whole number of blocks and the ring for the sleep fits. -/
theorem backup_sound_iff (d : Driver desc) (hsize : size.toNat < desc.nblk * desc.blksz) :
    BackupSound desc d.toSoftc size ↔ GivesUp desc d.toSoftc ∨ Reservable desc d.toSoftc size := by
  have hb := blksz_pos hsize
  obtain ⟨r, hr⟩ := exists_roundsUp hb size.toNat
  by_cases hup : GivesUp desc d.toSoftc
  · refine iff_of_true ⟨none, d.toSoftc, ?_, separate_of_givesUp d, ?_⟩ (.inl hup)
    · rw [scm2020ReserveBackupStorage, if_neg (not_not.mpr hsize), if_pos hup]
    · rintro _ ⟨⟩
  rw [or_iff_right hup]
  constructor
  · rintro ⟨wanted, sc', hreserve, -, hwake⟩
    obtain ⟨hlt, hring, hshmem⟩ := bounds_of_reserve hsize hup hr hreserve
    obtain ⟨_, n, k, hreserve', hasleep⟩ := reserve_asleep hsize hup hr hlt hring hshmem
    obtain ⟨rfl, rfl⟩ := Prod.mk.inj (some.inj (hreserve.symm.trans hreserve'))
    have hdvd : desc.blksz ∣ size.toNat := by
      by_contra hdvd
      have hdown := hr.succ_div_eq hb hdvd
      have hr0 : r ≠ 0 := hdown ▸ Nat.succ_ne_zero _
      obtain ⟨sc'', hreclaim, hpart⟩ := hwake _ (if_neg hr0) []
      obtain ⟨sc₁, hreclaim', hperm⟩ := reclaim_perm hsize hr hasleep []
      obtain rfl : sc'' = sc₁ := some.inj (hreclaim.symm.trans hreclaim')
      have htotal := hasleep.total
      generalize size.toNat / desc.blksz = down at hdown hperm
      exact not_partition_of_not_dvd hb hasleep.pos (by omega) hperm hpart
    rw [Reservable, ringLeft, hr.div_eq hb hdvd]
    exact ⟨hdvd, hring, hshmem⟩
  · rintro ⟨hdvd, hring, hshmem⟩
    rw [ringLeft, hr.div_eq hb hdvd] at hring hshmem
    have hlt : r < desc.nblk := by
      rw [hr.dvd_iff.mp hdvd] at hsize
      exact Nat.lt_of_mul_lt_mul_right hsize
    obtain ⟨sc', n, k, hreserve, hasleep⟩ := reserve_asleep hsize hup hr hlt hring hshmem
    refine ⟨_, sc', hreserve, hasleep.separate, fun start hstart lost => ?_⟩
    obtain ⟨sc'', hreclaim, hperm⟩ := reclaim_perm hsize hr hasleep lost
    rw [hr.div_eq hb hdvd] at hperm
    have hwanted : start = desc.blocks.addr (desc.nblk - r) := by
      split_ifs at hstart
      exact (some.inj hstart).symm
    rw [hwanted]
    exact ⟨sc'', hreclaim, partition_of_dvd hasleep.total hperm⟩

end Law

def smallPool : MempDesc := ⟨0x1000, 16, 4, by decide⟩

def smallDriver : Driver smallPool where
  pool := ⟨smallPool.blocks.run 0 4, 4, 0⟩
  ring := [none, none]
  nRxDesc := 2
  map := fun _ => true
  ctx := ⟨0, 0, none⟩
  log2 := 1
  ring_length := rfl
  nRxDesc_eq := rfl
  nodup := by decide
  subset := by decide

/-- 32 of the 64 bytes are two of the four blocks, and two blocks are left for the two
descriptors. -/
theorem backup_sound_two_blocks :
    ¬GivesUp smallPool smallDriver.toSoftc ∧ BackupSound smallPool smallDriver.toSoftc 32 := by
  have hfits : Reservable smallPool smallDriver.toSoftc 32 := by decide +kernel
  exact ⟨by decide, (backup_sound_iff smallDriver (by decide)).mpr (.inr hfits)⟩

/-- 10 bytes are reserved as one block, and three are freed after the wake-up beside the two of the
descriptors: `0x1010` is in the last descriptor and free. -/
theorem block_freed_and_in_ring :
    ((scm2020ReserveBackupStorage smallPool smallDriver.toSoftc 10).bind fun (wanted, sc) =>
      (scm2020ReclaimBackupStorage smallPool 10 true (hibernate [] sc) wanted 10).map fun sc =>
        (wanted, sc.pool.tab, sc.ring)) =
      some (some 0x1030, [0x1030, 0x1010, 0x1000], [some 0x1020, some 0x1010]) := by
  decide +kernel

end WiseSdk.Wlan
