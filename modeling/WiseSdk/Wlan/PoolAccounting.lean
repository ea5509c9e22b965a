import WiseSdk.Library.Runs
import WiseSdk.Wlan.BackupStorage

/-!
# The accounting of a pool

`memp_available` of `lib/lwip/ports/freertos/xmemp.c` is the difference of two counters beside the
free list.  `memp_reset` builds the list anew and sets `avail`, but not `used`; `memp_reset_region`
sets neither.  The figure stays right if a reset is made with no element out, and a reset of a
region with the elements out that the region does not have.
-/

namespace WiseSdk.Wlan

open Library List

inductive PoolCall where
  | malloc
  | free (mem : ℕ)
  | reset
  | resetRegion (regNum : BitVec 16)

variable (desc : MempDesc)

/-- A call, on the pool and the elements that are out. -/
def poolStep : Memp × List ℕ → PoolCall → Option (Memp × List ℕ)
  | (pool, live), .malloc =>
    match mempMalloc pool with
    | none => some (pool, live)
    | some (mem, pool) => some (pool, mem :: live)
  | (pool, live), .free mem => some (mempFree mem pool, live.erase mem)
  | (pool, _), .reset => some (mempInitPool desc pool, [])
  | (pool, live), .resetRegion n => some (mempInitPoolRegion desc n.toNat pool, live)

/-- Only elements that are out are freed, and no reset takes one back. -/
def PoolGuard (w : Memp × List ℕ) : PoolCall → Prop
  | .malloc => True
  | .free mem => mem ∈ w.2
  | .reset => w.2 = []
  | .resetRegion n => (desc.blocks.run 0 n.toNat ++ w.2).Perm (desc.blocks.run 0 desc.nblk)

def poolStart : Memp × List ℕ := (mempInitPool desc ⟨[], 0, 0⟩, [])

def PoolAccounted (w : Memp × List ℕ) : Prop :=
  (mempAvailable w.1).toNat = w.1.tab.length ∧ w.1.tab.Nodup ∧
    w.1.tab ⊆ desc.blocks.run 0 desc.nblk

/-- The elements on the list and those that are out make up the pool. -/
structure PoolInv (desc : MempDesc) (w : Memp × List ℕ) : Prop where
  perm : (w.1.tab ++ w.2).Perm (desc.blocks.run 0 desc.nblk)
  avail : w.1.avail.toNat = desc.nblk
  used : w.1.used.toNat = w.2.length

variable {desc : MempDesc} {w : Memp × List ℕ}

theorem PoolInv.length_add (h : PoolInv desc w) : w.1.tab.length + w.2.length = desc.nblk := by
  rw [← length_append, h.perm.length_eq, BlockPool.length_run]

theorem PoolInv.accounted (h : PoolInv desc w) (hsize : 0 < desc.blksz) :
    PoolAccounted desc w := by
  refine ⟨?_, ?_, fun m hm => h.perm.subset (mem_append_left _ hm)⟩
  · have hlen := h.length_add
    rw [mempAvailable]
    split_ifs with hlt
    · rw [BitVec.toNat_sub_of_le (BitVec.le_of_lt hlt), h.avail, h.used]
      omega
    · rw [BitVec.lt_def, h.avail, h.used] at hlt
      have hempty : w.1.tab.length = 0 := by omega
      exact hempty.symm
  · exact (h.perm.nodup_iff.mpr (desc.blocks.nodup_run hsize 0 desc.nblk)).of_append_left

theorem push_base (n : ℕ) : desc.blocks.push n desc.base [] = desc.blocks.run 0 n := by
  have h := desc.blocks.push_addr n 0 []
  rwa [BlockPool.addr, Nat.zero_mul, append_nil] at h

theorem poolInv_mempInitPool {pool : Memp} (hused : pool.used.toNat = 0) :
    PoolInv desc (mempInitPool desc pool, []) :=
  ⟨.of_eq ((append_nil _).trans (push_base desc.nblk)),
    BitVec.toNat_setWidth_of_le (by decide), hused⟩

theorem PoolInv.step (h : PoolInv desc w) {call : PoolCall} (hcall : PoolGuard desc w call) :
    ∃ w', poolStep desc w call = some w' ∧ PoolInv desc w' := by
  have hlen := h.length_add
  obtain ⟨⟨tab, avail, used⟩, live⟩ := w
  obtain ⟨hperm, havail, hused⟩ := h
  cases call with
  | malloc =>
    cases tab with
    | nil => exact ⟨_, rfl, hperm, havail, hused⟩
    | cons mem next =>
      have hnum : desc.nblk < 2 ^ 16 := desc.num.isLt
      have hone : used.toNat + (1 : BitVec 32).toNat < 2 ^ 32 := by
        rw [hused, show (1 : BitVec 32).toNat = 1 from rfl]
        omega
      refine ⟨_, rfl, perm_middle.trans hperm, havail, ?_⟩
      exact (BitVec.toNat_add_of_lt hone).trans (congrArg (· + 1) hused)
  | free mem =>
    have hle : 1 ≤ used := by
      rw [BitVec.le_def, hused]
      exact length_pos_of_mem hcall
    refine ⟨_, rfl, ?_, havail, ?_⟩
    · exact (perm_middle.symm.trans ((perm_cons_erase hcall).symm.append_left tab)).trans hperm
    · refine (BitVec.toNat_sub_of_le hle).trans ?_
      rw [hused]
      exact (length_erase_of_mem hcall).symm
  | reset =>
    obtain rfl : live = [] := hcall
    exact ⟨_, rfl, poolInv_mempInitPool hused⟩
  | resetRegion n =>
    refine ⟨_, rfl, ?_, havail, hused⟩
    have hregion : (desc.blocks.run 0 n.toNat ++ live).Perm _ := hcall
    rwa [← push_base n.toNat] at hregion

/-- **Pool accounting** in every run that meets the guard, for elements that are not empty. -/
theorem pool_accounted (hsize : 0 < desc.blksz) {calls : List PoolCall}
    (hcalls : StepsMeet (poolStep desc) (PoolGuard desc) (poolStart desc) calls) :
    ∃ w, runSteps (poolStep desc) (poolStart desc) calls = some w ∧ PoolAccounted desc w := by
  obtain ⟨w, hw, hinv⟩ := exists_run_of_stepsMeet (fun _ => PoolInv desc)
    (fun _ _ _ h hcall => h.step hcall) (poolInv_mempInitPool rfl) hcalls
  exact ⟨w, hw, hinv.accounted hsize⟩

/-- An element is taken and given back, and the pool is reset. -/
theorem pool_accounted_reset :
    ∃ w, runSteps (poolStep smallPool) (poolStart smallPool) [.malloc, .free 0x1030, .reset] =
      some w ∧ PoolAccounted smallPool w :=
  pool_accounted (by decide) ⟨trivial, fun w hw => by
    cases hw
    exact ⟨mem_cons_self, fun w hw => by
      cases hw
      exact ⟨rfl, fun _ _ => trivial⟩⟩⟩

/-- A reset with an element out: four are on the list, and three are available. -/
theorem pool_miscounted :
    (runSteps (poolStep smallPool) (poolStart smallPool) [.malloc, .reset]).map
      (fun w => (mempAvailable w.1, w.1.tab.length)) = some (3, 4) := by
  decide

end WiseSdk.Wlan
