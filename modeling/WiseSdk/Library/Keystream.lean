import Mathlib.Data.Nat.Notation

/-!
# Adding a keystream

A stream cipher adds a stream of words to its text, word by word.  Here the stream is any function
of the position; how it is made does not matter for how texts are split, or for decrypting.
-/

namespace WiseSdk.Library

open List

def xorWith {w : ℕ} (ks : ℕ → BitVec w) (text : List (BitVec w)) : List (BitVec w) :=
  text.mapIdx fun i b => b ^^^ ks i

section Keystream

variable {w : ℕ} (ks ks' : ℕ → BitVec w) (text : List (BitVec w))

@[simp] theorem length_xorWith : (xorWith ks text).length = text.length := length_mapIdx

theorem xorWith_append (rest : List (BitVec w)) :
    xorWith ks (text ++ rest) =
      xorWith ks text ++ xorWith (fun i => ks (text.length + i)) rest := by
  rw [xorWith, mapIdx_append]
  simp only [xorWith, Nat.add_comm]

/-- Only the positions of the text matter. -/
theorem xorWith_eq_iff :
    xorWith ks text = xorWith ks' text ↔ ∀ i < text.length, ks i = ks' i := by
  constructor
  · intro h i hi
    have hbyte : (xorWith ks text)[i]? = (xorWith ks' text)[i]? := by rw [h]
    simp only [xorWith, getElem?_mapIdx, getElem?_eq_getElem hi, Option.map_some,
      Option.some.injEq] at hbyte
    exact (BitVec.xor_right_inj _).mp hbyte
  · intro h
    refine ext_getElem (by simp) fun i hi _ => ?_
    simp only [length_xorWith] at hi
    simp only [xorWith, getElem_mapIdx, h i hi]

theorem xorWith_xorWith : xorWith ks (xorWith ks text) = text := by
  refine ext_getElem (by simp) fun i _ _ => ?_
  simp only [xorWith, getElem_mapIdx, BitVec.xor_assoc, BitVec.xor_self, BitVec.xor_zero]

end Keystream

end WiseSdk.Library
