import WiseSdk.Library.CString

/-!
# Writing to a serial port

`serial_write` (`hal/drivers/serial/serial-core.c`) looks how much space the queue has, and sends as
many bytes without blocking.  A send that fails, because another writer came in between, goes back
to `try_again`.  There a non-blocking call returns `-EAGAIN`, whatever it has sent; a blocking call
waits with one byte and looks again, but `size` still counts what was sent since the last look.

The other writers and the draining interrupt show in what a call sees of the queue: the space it
finds at each look, and how many sends pass behind it.
-/

namespace WiseSdk.Serial

open Library List

/-- A look at the queue, and how many sends in a row pass behind it. -/
structure Look where
  space : ℕ
  passes : ℕ

def eagain : ℤ := 11

/-- Sends that pass: `ptr - buf`, and the bytes that this call has put in the queue. -/
def sends (buf : ℕ → Byte) : ℕ → ℕ × List Byte → ℕ × List Byte
  | 0, st => st
  | k + 1, (ptr, queued) => sends buf k (ptr + 1, queued ++ [buf ptr])

/-- The loop behind a look, as far as the call gets: the value that it returns, if it does. -/
def sendLoop (nonblock : Bool) (buf : ℕ → Byte) :
    List Look → BitVec 32 → ℕ × List Byte → Option ℤ × List Byte
  | [], _, st => (none, st.2)
  | look :: looks, size, st =>
    let len := min size.toNat look.space
    if look.passes < len then
      let st := sends buf look.passes st
      if nonblock then (some (-eagain), st.2)
      else sendLoop nonblock buf looks (size - 1) (sends buf 1 st)
    else (some (sends buf len st).1, (sends buf len st).2)

/-- `serial_write`. -/
def serialWrite (nonblock : Bool) (buf : ℕ → Byte) (size : BitVec 32) :
    List Look → Option ℤ × List Byte
  | [] => (none, [])
  | look :: looks =>
    if min size.toNat look.space = 0 then
      if nonblock then (some (-eagain), [])
      else sendLoop nonblock buf looks (size - 1) (sends buf 1 (0, []))
    else sendLoop nonblock buf (look :: looks) size (0, [])

/-- The first bytes of the buffer are queued, no more than asked for; a value that is not negative
is their number, `-EAGAIN` means none. -/
def QueuesPrefix (buf : ℕ → Byte) (size : BitVec 32) (out : Option ℤ × List Byte) : Prop :=
  ∃ r ≤ size.toNat, out.2 = (range r).map buf ∧ (∀ v, out.1 = some v → 0 ≤ v → v = r) ∧
    (out.1 = some (-eagain) → r = 0)

/-- What a call for `size` bytes takes of the space found stays for it, or is gone before its first
send. -/
def Look.Undisturbed (size : BitVec 32) (look : Look) : Prop :=
  look.passes = 0 ∨ min size.toNat look.space ≤ look.passes
deriving Decidable

variable {buf : ℕ → Byte} {nonblock : Bool} {size total : BitVec 32}

theorem sends_eq (buf : ℕ → Byte) (k ptr : ℕ) :
    sends buf k (ptr, (range ptr).map buf) = (ptr + k, (range (ptr + k)).map buf) := by
  induction k generalizing ptr with
  | zero => rfl
  | succ k ih =>
    have hnext : (range ptr).map buf ++ [buf ptr] = (range (ptr + 1)).map buf := by
      rw [range_succ, map_append]
      rfl
    rw [sends, hnext, ih, Nat.add_right_comm, Nat.add_assoc]

theorem sends_nil (buf : ℕ → Byte) (k : ℕ) : sends buf k (0, []) = (k, (range k).map buf) := by
  have h := sends_eq buf k 0
  rwa [Nat.zero_add] at h

theorem toNat_pred (size : BitVec 32) (h : size.toNat ≠ 0) : (size - 1).toNat = size.toNat - 1 :=
  BitVec.toNat_sub_of_le (BitVec.le_def.mpr (Nat.one_le_iff_ne_zero.mpr h))

theorem sendLoop_queuesPrefix {looks : List Look} {ptr : ℕ}
    (hlooks : ∀ look ∈ looks, look.Undisturbed total) (hptr : nonblock = true → ptr = 0)
    (hleft : ptr + size.toNat = total.toNat) :
    QueuesPrefix buf total (sendLoop nonblock buf looks size (ptr, (range ptr).map buf)) := by
  induction looks generalizing ptr size with
  | nil => exact ⟨ptr, by omega, rfl, nofun, nofun⟩
  | cons look looks ih =>
    obtain ⟨hlook, hrest⟩ := forall_mem_cons.mp hlooks
    rw [sendLoop]
    by_cases hfails : look.passes < min size.toNat look.space
    · have hpasses : look.passes = 0 := hlook.resolve_right (by omega)
      rw [if_pos hfails, hpasses]
      cases nonblock with
      | true =>
        obtain rfl := hptr rfl
        exact ⟨0, Nat.zero_le _, rfl, fun v hv h0 => absurd h0 (by cases hv; decide), fun _ => rfl⟩
      | false =>
        have hsize := toNat_pred size (by omega)
        have hsend := sends_eq buf 1 ptr
        simp only [Bool.false_eq_true, if_false, sends] at hsend ⊢
        rw [hsend]
        exact ih hrest nofun (by omega)
    · simp only [hfails, if_false, sends_eq]
      refine ⟨_, by omega, rfl, fun v hv _ => (Option.some.inj hv).symm, fun hv => ?_⟩
      have := Option.some.inj hv
      rw [eagain] at this
      omega

/-- **Serial write queues a prefix** in every interleaving in which each look is undisturbed, unless
a blocking call gets no bytes. -/
theorem write_undisturbed (buf : ℕ → Byte) (hsize : nonblock = false → size ≠ 0)
    {looks : List Look} (hlooks : ∀ look ∈ looks, look.Undisturbed size) :
    QueuesPrefix buf size (serialWrite nonblock buf size looks) := by
  cases looks with
  | nil => exact ⟨0, Nat.zero_le _, rfl, nofun, nofun⟩
  | cons look looks =>
    rw [serialWrite]
    split_ifs with hfull hmode
    · exact ⟨0, Nat.zero_le _, rfl, fun v hv h0 => absurd h0 (by cases hv; decide), fun _ => rfl⟩
    · obtain rfl : nonblock = false := by simpa using hmode
      have hne : size.toNat ≠ 0 := fun h => hsize rfl (BitVec.eq_of_toNat_eq h)
      have hleft := toNat_pred size hne
      rw [sends_nil]
      exact sendLoop_queuesPrefix (forall_mem_cons.mp hlooks).2 nofun (by omega)
    · exact sendLoop_queuesPrefix hlooks (fun _ => rfl) (Nat.zero_add _)

/-- Three bytes in a blocking call: the queue is full at first, and once more when the call comes to
send; then another writer takes the last space but not what this one needs. -/
theorem write_undisturbed_three :
    QueuesPrefix (.ofNat 8) 3 (serialWrite false (.ofNat 8) 3 [⟨0, 0⟩, ⟨5, 0⟩, ⟨4, 3⟩]) ∧
      serialWrite false (.ofNat 8) 3 [⟨0, 0⟩, ⟨5, 0⟩, ⟨4, 3⟩] = (some 3, [0, 1, 2]) :=
  ⟨write_undisturbed _ (fun _ => by decide) (by decide), by decide⟩

/-- Another writer takes the last space: a non-blocking call of 5 bytes returns `-EAGAIN` with 3 of
them in the queue, and a blocking one queues 9 bytes. -/
theorem write_disturbed :
    (serialWrite true (fun _ => 0) 5 [⟨5, 3⟩]) = (some (-eagain), replicate 3 0) ∧
      (serialWrite false (fun _ => 0) 5 [⟨5, 4⟩, ⟨9, 9⟩]) = (some 9, replicate 9 0) ∧
      ¬QueuesPrefix (fun _ => 0) 5 (serialWrite true (fun _ => 0) 5 [⟨5, 3⟩]) := by
  have hagain : serialWrite true (fun _ => 0) 5 [⟨5, 3⟩] = (some (-eagain), replicate 3 0) := by
    decide
  refine ⟨hagain, by decide, ?_⟩
  rintro ⟨r, -, hqueued, -, hnone⟩
  rw [hnone rfl] at hqueued
  exact absurd hqueued (by decide)

end WiseSdk.Serial
