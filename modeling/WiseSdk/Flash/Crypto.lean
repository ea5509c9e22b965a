import Mathlib.Tactic.IntervalCases
import WiseSdk.Flash.AreaWrite
import WiseSdk.Library.Keystream

/-!
# Encrypting flash data

`flash_crypto_data_encrypt` drives the cipher engine in counter mode: for every piece of at most 16
bytes it puts the address divided by 16 into the counter block, and adds the encrypted counter block
to the piece. The block function is left abstract.

A piece always gets the bytes of its block from the *first* one on (`encrypt_eq`). So at an offset
inside a block the bytes are added to the wrong part of the stream; at the start of a block they are
not (`encrypt_exact_iff`). `flash_backend_write` encrypts whole sectors, which start at a block.
-/

namespace WiseSdk.Flash.Crypto

open Library List

/-! ## The engine -/

/-- A block function: a key and a counter block give 16 bytes. -/
abbrev BlockFn := (Fin 4 → BitVec 32) → (Fin 4 → BitVec 32) → Fin 16 → Byte

/-- The key and the counter block of `struct flash_crypto`; `iv[3]` is the counter. -/
structure Cipher where
  key : Fin 4 → BitVec 32
  iv : Fin 4 → BitVec 32

/-- The counter for an address: its upper four bits are kept. -/
def Cipher.setCounter (c : Cipher) (offset : BitVec 32) : Cipher :=
  { c with iv := Function.update c.iv 3 (c.iv 3 &&& 0xf0000000#32 ||| offset >>> 4) }

variable (aes : BlockFn)

/-- The engine adds the encrypted counter block to `tmp`; at most 16 bytes are copied in and out. -/
def encBlock (c : Cipher) (bs : List Byte) : List Byte :=
  xorWith (fun j => aes c.key c.iv (Fin.ofNat 16 j)) bs

/-! ## The source's function -/

/-- The loop of `flash_crypto_data_encrypt`: what it puts out, and the state it leaves. -/
def encLoop (aes : BlockFn) (c : Cipher) (offset : BitVec 32) (bs : List Byte) :
    List Byte × Cipher :=
  if 0 < bs.length then
    let encSize := min bs.length 16
    let rest := encLoop aes (c.setCounter offset) (offset + BitVec.ofNat 32 encSize)
      (bs.drop encSize)
    (encBlock aes (c.setCounter offset) (bs.take encSize) ++ rest.1, rest.2)
  else ([], c)
termination_by bs.length
decreasing_by
  rw [length_drop]
  omega

def flashCryptoDataEncrypt (c : Cipher) (offset : BitVec 32) (bs : List Byte) :
    List Byte × Cipher :=
  if offset.toNat % 16 ≠ 0 then
    let encSize := min (offset.toNat % 16) bs.length
    let rest := encLoop aes (c.setCounter offset) (offset + BitVec.ofNat 32 encSize)
      (bs.drop encSize)
    (encBlock aes (c.setCounter offset) (bs.take encSize) ++ rest.1, rest.2)
  else encLoop aes c offset bs

def encryptPieces (aes : BlockFn) (c : Cipher) (offset : BitVec 32) :
    List (List Byte) → List Byte × Cipher
  | [] => ([], c)
  | p :: ps =>
    let first := flashCryptoDataEncrypt aes c offset p
    let rest := encryptPieces aes first.2 (offset + BitVec.ofNat 32 p.length) ps
    (first.1 ++ rest.1, rest.2)

/-! ## The keystream -/

def byteAt (c : Cipher) (offset : BitVec 32) (j : ℕ) : Byte :=
  aes (c.setCounter offset).key (c.setCounter offset).iv (Fin.ofNat 16 j)

def keystream (c : Cipher) (pos : BitVec 32) : Byte :=
  byteAt aes c pos (pos.toNat % 16)

def positionXor (c : Cipher) (offset : BitVec 32) (bs : List Byte) : List Byte :=
  xorWith (fun i => keystream aes c (offset + BitVec.ofNat 32 i)) bs

def Cipher.Same (c c' : Cipher) : Prop := ∀ offset, c'.setCounter offset = c.setCounter offset

variable {aes : BlockFn} {c c' c'' : Cipher} {offset offset' : BitVec 32} {bs : List Byte}

theorem shiftRight_and_mask (x : BitVec 32) : x >>> 4 &&& 0xf0000000#32 = 0#32 := by
  ext i hi
  interval_cases i <;> simp

theorem Cipher.same_setCounter (c : Cipher) (a : BitVec 32) : c.Same (c.setCounter a) := by
  intro b
  have hcounter : (c.iv 3 &&& 0xf0000000#32 ||| a >>> 4) &&& 0xf0000000#32 =
      c.iv 3 &&& 0xf0000000#32 := by
    rw [BitVec.and_comm, BitVec.and_or_distrib_left, BitVec.and_comm _ (a >>> 4),
      shiftRight_and_mask, BitVec.or_zero, BitVec.and_comm, BitVec.and_assoc, BitVec.and_self]
  simp only [Cipher.setCounter, Function.update_self, Function.update_idem, hcounter]

theorem Cipher.Same.refl (c : Cipher) : c.Same c := fun _ => rfl

theorem Cipher.Same.trans (h : c.Same c') (h' : c'.Same c'') : c.Same c'' :=
  fun offset => (h' offset).trans (h offset)

theorem byteAt_congr (h : c.Same c') (aes : BlockFn) (offset : BitVec 32) (j : ℕ) :
    byteAt aes c' offset j = byteAt aes c offset j := by
  rw [byteAt, h offset, byteAt]

/-! ## What each byte is added to -/

theorem encBlock_setCounter (aes : BlockFn) (c : Cipher) (offset : BitVec 32) (bs : List Byte) :
    encBlock aes (c.setCounter offset) bs = xorWith (byteAt aes c offset) bs := rfl

theorem xorWith_split {f g h : ℕ → Byte} {k : ℕ} (hk : k ≤ bs.length) (hhead : ∀ i < k, f i = h i)
    (hrest : ∀ i < bs.length - k, g i = h (k + i)) :
    xorWith f (bs.take k) ++ xorWith g (bs.drop k) = xorWith h bs := by
  have hlen : (bs.take k).length = k := by
    rw [length_take]
    omega
  conv_rhs => rw [← take_append_drop k bs, xorWith_append, hlen]
  congr 1
  · exact (xorWith_eq_iff _ _ _).mpr fun i hi => hhead i (hlen ▸ hi)
  · exact (xorWith_eq_iff _ _ _).mpr fun i hi => hrest i (by rwa [length_drop] at hi)

/-- **The loop.**  From any offset on, every 16 bytes get the block of the address they start
at. -/
theorem encLoop_eq (aes : BlockFn) (c : Cipher) (offset : BitVec 32) (bs : List Byte) :
    (encLoop aes c offset bs).1 =
      xorWith (fun i => byteAt aes c (offset + BitVec.ofNat 32 (16 * (i / 16))) (i % 16)) bs := by
  fun_induction encLoop aes c offset bs with
  | case1 c offset bs hpos k rest ih =>
    have hk : k = min bs.length 16 := rfl
    rw [encBlock_setCounter, ih]
    refine xorWith_split (by omega) (fun i hi => ?_) fun i hi => ?_
    · have hi16 : i < 16 := by omega
      rw [Nat.div_eq_of_lt hi16, Nat.mod_eq_of_lt hi16]
      simp
    · -- There is a rest only behind a whole block.
      have hk16 : k = 16 := by omega
      rw [hk16, byteAt_congr (c.same_setCounter offset), Nat.add_mod_left,
        Nat.add_div_left _ (by decide), BitVec.add_assoc, ← BitVec.ofNat_add, Nat.mul_succ,
        Nat.add_comm]
  | case2 c offset bs hpos =>
    obtain rfl : bs = [] := length_eq_zero_iff.mp (by omega)
    rfl

theorem same_encLoop (aes : BlockFn) (c : Cipher) (offset : BitVec 32) (bs : List Byte) :
    c.Same (encLoop aes c offset bs).2 := by
  fun_induction encLoop aes c offset bs with
  | case1 c offset bs hpos k rest ih => exact (c.same_setCounter offset).trans ih
  | case2 c offset bs hpos => exact Cipher.Same.refl c

theorem same_encrypt (aes : BlockFn) (c : Cipher) (offset : BitVec 32) (bs : List Byte) :
    c.Same (flashCryptoDataEncrypt aes c offset bs).2 := by
  rw [flashCryptoDataEncrypt]
  split_ifs
  · exact (c.same_setCounter offset).trans (same_encLoop aes _ _ _)
  · exact same_encLoop aes c offset bs

def usedByte (aes : BlockFn) (c : Cipher) (offset : BitVec 32) (i : ℕ) : Byte :=
  if i < offset.toNat % 16 then byteAt aes c offset i
  else
    let j := i - offset.toNat % 16
    byteAt aes c
      (offset + BitVec.ofNat 32 (offset.toNat % 16) + BitVec.ofNat 32 (16 * (j / 16))) (j % 16)

/-- **Every byte is added to one byte of the engine's blocks**, by its place in the call and the
offset. -/
theorem encrypt_eq (aes : BlockFn) (c : Cipher) (offset : BitVec 32) (bs : List Byte) :
    (flashCryptoDataEncrypt aes c offset bs).1 = xorWith (usedByte aes c offset) bs := by
  rw [flashCryptoDataEncrypt]
  by_cases haligned : offset.toNat % 16 = 0
  · rw [if_neg (not_not_intro haligned), encLoop_eq, xorWith_eq_iff]
    intro i _
    simp [usedByte, haligned]
  rw [if_pos haligned]
  obtain ⟨k, hk⟩ : ∃ k, k = min (offset.toNat % 16) bs.length := ⟨_, rfl⟩
  simp only [← hk, encBlock_setCounter, encLoop_eq]
  refine xorWith_split (by omega) (fun i hi => ?_) fun i hi => ?_
  · rw [usedByte, if_pos (by omega)]
  · have hwhole : k = offset.toNat % 16 := by omega
    rw [usedByte, if_neg (by omega), ← hwhole, Nat.add_sub_cancel_left,
      byteAt_congr (c.same_setCounter offset)]

theorem length_encrypt (aes : BlockFn) (c : Cipher) (offset : BitVec 32) (bs : List Byte) :
    (flashCryptoDataEncrypt aes c offset bs).1.length = bs.length := by
  rw [encrypt_eq, length_xorWith]

theorem encrypt_congr (h : c.Same c') (aes : BlockFn) (offset : BitVec 32) (bs : List Byte) :
    (flashCryptoDataEncrypt aes c' offset bs).1 = (flashCryptoDataEncrypt aes c offset bs).1 := by
  rw [encrypt_eq, encrypt_eq, xorWith_eq_iff]
  intro i _
  simp only [usedByte, byteAt_congr h]

/-- **Encrypting twice** gives the data back, at every offset. -/
theorem encrypt_encrypt (aes : BlockFn) (c : Cipher) (offset : BitVec 32) (bs : List Byte) :
    (flashCryptoDataEncrypt aes (flashCryptoDataEncrypt aes c offset bs).2 offset
      (flashCryptoDataEncrypt aes c offset bs).1).1 = bs := by
  rw [encrypt_congr (same_encrypt aes c offset bs), encrypt_eq, encrypt_eq, xorWith_xorWith]

/-! ## Positions -/

theorem byteAt_eq_of_block (h : offset.toNat / 16 = offset'.toNat / 16) (aes : BlockFn) (c : Cipher)
    (j : ℕ) : byteAt aes c offset j = byteAt aes c offset' j := by
  have hshift : offset >>> 4 = offset' >>> 4 := by
    refine BitVec.eq_of_toNat_eq ?_
    simp only [BitVec.toNat_ushiftRight, Nat.shiftRight_eq_div_pow]
    exact h
  rw [byteAt, byteAt, Cipher.setCounter, Cipher.setCounter, hshift]

theorem usedByte_of_aligned (haligned : offset.toNat % 16 = 0) (aes : BlockFn) (c : Cipher)
    (i : ℕ) : usedByte aes c offset i = keystream aes c (offset + BitVec.ofNat 32 i) := by
  have hpos : (offset + BitVec.ofNat 32 i).toNat = (offset.toNat + i) % 2 ^ 32 := by
    rw [BitVec.toNat_add, BitVec.toNat_ofNat, Nat.add_mod_mod]
  have hblock : (offset + BitVec.ofNat 32 (16 * (i / 16))).toNat =
      (offset.toNat + 16 * (i / 16)) % 2 ^ 32 := by
    rw [BitVec.toNat_add, BitVec.toNat_ofNat, Nat.add_mod_mod]
  have hmod : (offset + BitVec.ofNat 32 i).toNat % 16 = i % 16 := by
    rw [hpos]
    omega
  rw [usedByte, if_neg (by omega), keystream, hmod]
  simp only [haligned, Nat.sub_zero, BitVec.add_zero]
  refine byteAt_eq_of_block ?_ aes c _
  rw [hblock, hpos]
  omega

/-- **A call is exact** exactly when it has nothing to encrypt or starts at a block. -/
theorem encrypt_exact_iff (offset : BitVec 32) (bs : List Byte) :
    (∀ aes c, (flashCryptoDataEncrypt aes c offset bs).1 = positionXor aes c offset bs) ↔
      bs = [] ∨ offset.toNat % 16 = 0 := by
  constructor
  · intro h
    by_contra hno
    obtain ⟨hne, hmod⟩ := not_or.mp hno
    -- With blocks whose bytes are numbered, the first byte gets number 0 and not its own.
    have hnumbered := h (fun _ _ j => BitVec.ofNat 8 j.val) ⟨fun _ => 0#32, fun _ => 0#32⟩
    rw [encrypt_eq, positionXor, xorWith_eq_iff] at hnumbered
    have hfirst := hnumbered 0 (length_pos_iff.mpr hne)
    rw [usedByte, if_pos (by omega), BitVec.add_zero, keystream, byteAt, byteAt] at hfirst
    have hval := congrArg BitVec.toNat hfirst
    simp only [Fin.ofNat, BitVec.toNat_ofNat] at hval
    omega
  · rintro (rfl | haligned) aes c
    · rw [encrypt_eq]
      rfl
    · rw [encrypt_eq, positionXor, xorWith_eq_iff]
      exact fun i _ => usedByte_of_aligned haligned aes c i

theorem encrypt_eq_flashCryptoDataEncrypt (haligned : offset.toNat % 16 = 0) (aes : BlockFn)
    (c : Cipher) (enable userDisable : Bool) (bs : List Byte) :
    (flashCryptoDataEncrypt aes c offset bs).1 = Flash.flashCryptoDataEncrypt
        ⟨enable, userDisable, fun x => keystream aes c (BitVec.ofNat 32 x)⟩ offset.toNat bs := by
  rw [(encrypt_exact_iff offset bs).mpr (.inr haligned) aes c]
  simp only [positionXor, xorWith, Flash.flashCryptoDataEncrypt, BitVec.ofNat_add,
    BitVec.ofNat_toNat, BitVec.setWidth_eq]

/-! ## Splitting a range -/

theorem positionXor_append (aes : BlockFn) (c : Cipher) (offset : BitVec 32) (bs rest : List Byte) :
    positionXor aes c offset (bs ++ rest) = positionXor aes c offset bs ++
        positionXor aes c (offset + BitVec.ofNat 32 bs.length) rest := by
  rw [positionXor, xorWith_append]
  simp only [positionXor, BitVec.ofNat_add, BitVec.add_assoc]

theorem encryptPieces_congr (h : c.Same c') (aes : BlockFn) (offset : BitVec 32)
    (pieces : List (List Byte)) :
    (encryptPieces aes c' offset pieces).1 = (encryptPieces aes c offset pieces).1 := by
  induction pieces generalizing c c' offset with
  | nil => rfl
  | cons p ps ih =>
    have hsame : (flashCryptoDataEncrypt aes c offset p).2.Same
        (flashCryptoDataEncrypt aes c' offset p).2 := by
      intro a
      rw [same_encrypt aes c' offset p a, same_encrypt aes c offset p a, h a]
    simp only [encryptPieces, encrypt_congr h, ih hsame]

def AlignedPieces : BitVec 32 → List (List Byte) → Prop
  | _, [] => True
  | offset, p :: ps =>
    (p = [] ∨ offset.toNat % 16 = 0) ∧ AlignedPieces (offset + BitVec.ofNat 32 p.length) ps

theorem AlignedPieces.flatten {pieces : List (List Byte)} (h : AlignedPieces offset pieces) :
    pieces.flatten = [] ∨ offset.toNat % 16 = 0 := by
  induction pieces generalizing offset with
  | nil => exact .inl rfl
  | cons p ps ih =>
    obtain ⟨rfl | hp, hrest⟩ := h
    · rw [length_nil, BitVec.add_zero] at hrest
      exact ih hrest
    · exact .inr hp

theorem pieces_exact_iff (offset : BitVec 32) (pieces : List (List Byte)) :
    (∀ aes c, (encryptPieces aes c offset pieces).1 =
      positionXor aes c offset pieces.flatten) ↔ AlignedPieces offset pieces := by
  induction pieces generalizing offset with
  | nil => exact iff_of_true (fun _ _ => rfl) trivial
  | cons p ps ih =>
    have hparts : ∀ aes c, (encryptPieces aes c offset (p :: ps)).1 =
        positionXor aes c offset (p :: ps).flatten ↔
        (flashCryptoDataEncrypt aes c offset p).1 = positionXor aes c offset p ∧
        (encryptPieces aes c (offset + BitVec.ofNat 32 p.length) ps).1 =
          positionXor aes c (offset + BitVec.ofNat 32 p.length) ps.flatten := by
      intro aes c
      have hlen : (flashCryptoDataEncrypt aes c offset p).1.length =
          (positionXor aes c offset p).length := by
        rw [length_encrypt, positionXor, length_xorWith]
      rw [encryptPieces, flatten_cons, positionXor_append,
        encryptPieces_congr (same_encrypt aes c offset p)]
      exact ⟨fun h => append_inj h hlen, fun h => congrArg₂ _ h.1 h.2⟩
    simp only [hparts, forall_and]
    rw [encrypt_exact_iff, ih, AlignedPieces]

/-! ## Position-exact encryption -/

/-- **Position-exact encryption** of a range in pieces: every byte is added to the keystream byte of
its position, the pieces give what the range gives at once, and a second call gives the data
back. -/
structure PositionExact (aes : BlockFn) (c : Cipher) (offset : BitVec 32)
    (pieces : List (List Byte)) : Prop where
  whole : (flashCryptoDataEncrypt aes c offset pieces.flatten).1 =
    positionXor aes c offset pieces.flatten
  split : (encryptPieces aes c offset pieces).1 =
    (flashCryptoDataEncrypt aes c offset pieces.flatten).1
  twice : (flashCryptoDataEncrypt aes (flashCryptoDataEncrypt aes c offset pieces.flatten).2 offset
    (flashCryptoDataEncrypt aes c offset pieces.flatten).1).1 = pieces.flatten

/-- **Flash encryption is position-exact**, for every block function, key and counter, exactly when
every piece that is not empty starts at a block. -/
theorem position_exact_iff (offset : BitVec 32) (pieces : List (List Byte)) :
    (∀ aes c, PositionExact aes c offset pieces) ↔ AlignedPieces offset pieces := by
  rw [← pieces_exact_iff]
  constructor
  · intro h aes c
    rw [(h aes c).split, (h aes c).whole]
  · intro h aes c
    have hwhole := (encrypt_exact_iff offset pieces.flatten).mpr
      ((pieces_exact_iff offset pieces).mp h).flatten aes c
    exact ⟨hwhole, by rw [h aes c, hwhole], encrypt_encrypt aes c offset pieces.flatten⟩

/-- **Inside a block.** With blocks of numbered bytes, the byte at position 1 gets number 0; so two
bytes from position 0 on are encrypted otherwise in two calls than in one. -/
theorem second_byte_misplaced :
    let aes : BlockFn := fun _ _ j => BitVec.ofNat 8 j.val
    let c : Cipher := ⟨fun _ => 0#32, fun _ => 0#32⟩
    (flashCryptoDataEncrypt aes c 1#32 [0#8]).1 = [0#8] ∧
    positionXor aes c 1#32 [0#8] = [1#8] ∧
    (encryptPieces aes c 0#32 [[0#8], [0#8]]).1 = [0#8, 0#8] ∧
    (flashCryptoDataEncrypt aes c 0#32 [0#8, 0#8]).1 = [0#8, 1#8] ∧
    ¬PositionExact aes c 0#32 [[0#8], [0#8]] := by
  intro aes c
  have hpieces : (encryptPieces aes c 0#32 [[0#8], [0#8]]).1 = [0#8, 0#8] := by
    simp only [encryptPieces, encrypt_eq]
    decide
  have hwhole : (flashCryptoDataEncrypt aes c 0#32 [0#8, 0#8]).1 = [0#8, 1#8] := by
    rw [encrypt_eq]
    decide
  refine ⟨by rw [encrypt_eq]; decide, by decide, hpieces, hwhole, fun h => ?_⟩
  have hsplit := h.split
  rw [hpieces] at hsplit
  exact absurd (hsplit.trans hwhole) (by decide)

end WiseSdk.Flash.Crypto
