import ClassWeave.Bytes
import Mathlib.Algebra.Group.Nat.Defs
import Mathlib.Data.List.Induction

/-!
# Numbers as bytes

**Writing then reading** gives the number back, less what does not fit the width
(`ofBigEndian_bigEndian`).

**Reading then writing** gives the bytes back (`bigEndian_ofBigEndian`), so a word and its bytes
determine each other (`IsWord`).
-/

namespace ClassWeave

/-- **Writing then reading** keeps a number that fits. -/
theorem ofBigEndian_bigEndian (k n : Nat) : ofBigEndian (bigEndian k n) = n % 256 ^ k := by
  induction k generalizing n with
  | zero => simp [bigEndian, ofBigEndian, Nat.mod_one]
  | succ k ih =>
    have low : (UInt8.ofNat n).toNat = n % 256 := UInt8.toNat_ofNat'
    rw [bigEndian, ofBigEndian_append, ih, low, Nat.pow_succ, Nat.mul_comm (256 ^ k), Nat.mod_mul,
      Nat.add_comm]

/-- **Reading then writing** keeps the bytes. -/
theorem bigEndian_ofBigEndian (bs : Bytes) : bigEndian bs.length (ofBigEndian bs) = bs := by
  induction bs using List.reverseRecOn with
  | nil => rfl
  | append_singleton bs b ih =>
    have bound : b.toNat < 256 := b.toNat_lt
    have high : (256 * ofBigEndian bs + b.toNat) / 256 = ofBigEndian bs := by omega
    have low : UInt8.ofNat (256 * ofBigEndian bs + b.toNat) = b := by
      apply UInt8.toNat_inj.1
      rw [UInt8.toNat_ofNat']
      omega
    rw [ofBigEndian_append, List.length_append, List.length_singleton, bigEndian, high, ih, low]

theorem ofBigEndian_lt (bs : Bytes) : ofBigEndian bs < 256 ^ bs.length := by
  have h := ofBigEndian_bigEndian bs.length (ofBigEndian bs)
  rw [bigEndian_ofBigEndian] at h
  rw [h]
  exact Nat.mod_lt _ (Nat.pow_pos (by omega))

/-! ## Words -/

@[simp] theorem length_ofWord16 (w : UInt16) : (ofWord16 w).length = 2 := length_bigEndian _ _

@[simp] theorem length_ofWord32 (w : UInt32) : (ofWord32 w).length = 4 := length_bigEndian _ _

@[simp] theorem length_ofWord64 (w : UInt64) : (ofWord64 w).length = 8 := length_bigEndian _ _

/-- The words of a type are the numbers of `k` bytes. -/
structure IsWord (k : Nat) {ω : Type} (ofNat : Nat → ω) (toNat : ω → Nat) : Prop where
  toNat_lt (w : ω) : toNat w < 256 ^ k
  ofNat_toNat (w : ω) : ofNat (toNat w) = w
  toNat_ofNat {m : Nat} : m < 256 ^ k → toNat (ofNat m) = m

namespace IsWord

theorem word8 : IsWord 1 UInt8.ofNat UInt8.toNat where
  toNat_lt := UInt8.toNat_lt
  ofNat_toNat _ := UInt8.ofNat_toNat
  toNat_ofNat lt := UInt8.toNat_ofNat'.trans (Nat.mod_eq_of_lt lt)

theorem word16 : IsWord 2 UInt16.ofNat UInt16.toNat where
  toNat_lt := UInt16.toNat_lt
  ofNat_toNat _ := UInt16.ofNat_toNat
  toNat_ofNat lt := UInt16.toNat_ofNat'.trans (Nat.mod_eq_of_lt lt)

theorem word32 : IsWord 4 UInt32.ofNat UInt32.toNat where
  toNat_lt := UInt32.toNat_lt
  ofNat_toNat _ := UInt32.ofNat_toNat
  toNat_ofNat lt := UInt32.toNat_ofNat'.trans (Nat.mod_eq_of_lt lt)

theorem word64 : IsWord 8 UInt64.ofNat UInt64.toNat where
  toNat_lt := UInt64.toNat_lt
  ofNat_toNat _ := UInt64.ofNat_toNat
  toNat_ofNat lt := UInt64.toNat_ofNat'.trans (Nat.mod_eq_of_lt lt)

variable {k : Nat} {ω : Type} {ofNat : Nat → ω} {toNat : ω → Nat}

/-- A word is read from its bytes. -/
theorem ofNat_ofBigEndian (h : IsWord k ofNat toNat) (w : ω) :
    ofNat (ofBigEndian (bigEndian k (toNat w))) = w := by
  rw [ofBigEndian_bigEndian, Nat.mod_eq_of_lt (h.toNat_lt w), h.ofNat_toNat]

/-- The bytes of the word that is read from some bytes are these. -/
theorem bigEndian_toNat (h : IsWord k ofNat toNat) {bs : Bytes} (length : bs.length = k) :
    bigEndian k (toNat (ofNat (ofBigEndian bs))) = bs := by
  have lt := ofBigEndian_lt bs
  rw [length] at lt
  rw [h.toNat_ofNat lt, ← length, bigEndian_ofBigEndian]

theorem eq_ofNat_iff (h : IsWord k ofNat toNat) {w : ω} {m : Nat} (lt : m < 256 ^ k) :
    w = ofNat m ↔ toNat w = m := by
  constructor
  · rintro rfl
    exact h.toNat_ofNat lt
  · rintro rfl
    exact (h.ofNat_toNat w).symm

end IsWord

end ClassWeave
