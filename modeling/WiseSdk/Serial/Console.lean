import Mathlib.Order.Nat
import Mathlib.Order.WellFounded
import WiseSdk.Library.CString

/-!
# Line endings on the console

`serial_console_write` (`hal/drivers/serial/serial-core.c`) and `atcuart_console_write`
(`hal/drivers/serial/serial-atcuart.c`) send a text to the console, with a carriage return before
each newline.  The loop of the first counts `len` down, but `s` stays where it is.
-/

namespace WiseSdk.Serial

open Library List

/-- A place that takes one byte at a time: the outcome of each attempt, and that one succeeds sooner
or later. -/
structure Sink where
  takes : ℕ → Bool
  live : ∀ i, ∃ k, takes (i + k) = true

/-- Repeats an attempt until the byte is taken: the attempts so far, and the bytes taken. -/
def Sink.send (p : Sink) (c : Byte) (st : ℕ × List Byte) : ℕ × List Byte :=
  (st.1 + Nat.find (p.live st.1) + 1, st.2 ++ [c])

/-- `struct serial_port_ops`, as far as the console looks at it. -/
structure PortOps where
  conWrite : Option ((ℕ → Byte) → ℤ → ℤ × List Byte)
  putc : Option Sink

def sendChar (p : Sink) (c : Byte) (st : ℕ × List Byte) : ℕ × List Byte :=
  p.send c (if c = chr '\n' then p.send (chr '\r') st else st)

/-- `serial_console_write`: the value that it returns, and the bytes that are sent. -/
def serialConsoleWrite (port : Option PortOps) (s : ℕ → Byte) (len : ℤ) : ℤ × List Byte :=
  match port with
  | none => (0, [])
  | some ops =>
    match ops.conWrite, ops.putc with
    | some conWrite, _ => conWrite s len
    | none, none => (0, [])
    | none, some p => (len, ((range len.toNat).foldl (fun st _ => sendChar p (s 0) st) (0, [])).2)

/-- `atcuart_console_write`, with the transmitter whose FIFO is empty from time to time. -/
def atcuartConsoleWrite (thr : Sink) (s : ℕ → Byte) (n : ℤ) : ℤ × List Byte :=
  (n.toNat, ((range n.toNat).foldl (fun st i => sendChar thr (s i) st) (0, [])).2)

/-- A text with a carriage return before each newline. -/
def withReturns : List Byte → List Byte
  | [] => []
  | c :: text => (if c = chr '\n' then [chr '\r'] else []) ++ c :: withReturns text

theorem foldl_sendChar (p : Sink) (f : ℕ → Byte) (l : List ℕ) (st : ℕ × List Byte) :
    (l.foldl (fun st i => sendChar p (f i) st) st).2 = st.2 ++ withReturns (l.map f) := by
  induction l generalizing st with
  | nil => simp [withReturns]
  | cons i l ih =>
    rw [foldl_cons, ih, map_cons, withReturns]
    by_cases hi : f i = chr '\n' <;> simp [sendChar, Sink.send, hi]

theorem head_withReturns (text : List Byte) : (withReturns text).head? ≠ some (chr '\n') := by
  cases text with
  | nil => nofun
  | cons c text =>
    rw [withReturns]
    split_ifs with hc
    · exact fun h => absurd (Option.some.inj h) (by decide)
    · simpa using hc

/-- No two texts look the same on the console. -/
theorem withReturns_injective : Function.Injective withReturns := by
  intro s t h
  induction s generalizing t with
  | nil =>
    cases t with
    | nil => rfl
    | cons d t => simp [withReturns] at h
  | cons c s ih =>
    cases t with
    | nil => simp [withReturns] at h
    | cons d t =>
      have hs := head_withReturns s
      have ht := head_withReturns t
      simp only [withReturns] at h
      split_ifs at h with hc hd hd
      · grind
      · grind
      · grind
      · grind

/-- **The console text** is what the sibling sends, each newline behind a carriage return, if and
only if there is nothing to send, or the port has `putc` and all bytes are the first one. -/
theorem console_write_iff (putc : Option Sink) (thr : Sink) (s : ℕ → Byte) (n : ℤ) :
    ((serialConsoleWrite (some ⟨none, putc⟩) s n).2 = withReturns ((range n.toNat).map s) ∧
      (serialConsoleWrite (some ⟨none, putc⟩) s n).2 = (atcuartConsoleWrite thr s n).2) ↔
      n ≤ 0 ∨ putc.isSome = true ∧ ∀ i < n.toNat, s i = s 0 := by
  rw [atcuartConsoleWrite, foldl_sendChar, nil_append, and_self]
  by_cases hn : n ≤ 0
  · cases putc <;> simp [serialConsoleWrite, withReturns, Int.toNat_of_nonpos hn, hn]
  rw [or_iff_right hn]
  cases putc with
  | none =>
    refine iff_of_false (fun h => ?_) nofun
    have hempty := withReturns_injective (show withReturns [] = _ from h)
    rw [eq_comm, map_eq_nil_iff, range_eq_nil] at hempty
    omega
  | some p =>
    simp only [serialConsoleWrite, foldl_sendChar, nil_append, withReturns_injective.eq_iff,
      map_inj_left, mem_range, Option.isSome_some, true_and]
    exact forall₂_congr fun _ _ => eq_comm

/-- **The first byte is sent over and over**: the text `ab` comes out as `aa`. -/
theorem console_repeats_first :
    let p : Sink := ⟨fun _ => true, fun _ => ⟨0, rfl⟩⟩
    let s : ℕ → Byte := fun i => if i = 0 then chr 'a' else chr 'b'
    (serialConsoleWrite (some ⟨none, some p⟩) s 2).2 = [chr 'a', chr 'a'] ∧
      (atcuartConsoleWrite p s 2).2 = [chr 'a', chr 'b'] ∧
      withReturns ((range 2).map s) = [chr 'a', chr 'b'] :=
  ⟨rfl, rfl, by decide⟩

end WiseSdk.Serial
