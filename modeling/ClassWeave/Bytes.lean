/-!
# Bytes and big-endian words

Every format of this library is a sequence of bytes in which numbers stand with their most
significant byte first.

**Writing** (`bigEndian`). A number becomes a fixed count of bytes; what does not fit is cut off,
so callers check widths first.

**Reading** (`ofBigEndian`, `takeExactly`). A fixed count of bytes is split off and read as a
number; when the bytes run out, the answer is how many are missing.
-/

namespace ClassWeave

abbrev Bytes := List UInt8

/-- The lowest `k` bytes of `n`, the most significant first. -/
def bigEndian : Nat → Nat → Bytes
  | 0, _ => []
  | k + 1, n => bigEndian k (n / 256) ++ [UInt8.ofNat n]

/-- The number written by the bytes, the most significant first. -/
def ofBigEndian (bs : Bytes) : Nat := bs.foldl (fun n b => 256 * n + b.toNat) 0

def ofWord16 (w : UInt16) : Bytes := bigEndian 2 w.toNat

def ofWord32 (w : UInt32) : Bytes := bigEndian 4 w.toNat

def ofWord64 (w : UInt64) : Bytes := bigEndian 8 w.toNat

/-- Splits off the first `n` bytes, or says how many are missing. -/
def takeExactly (n : Nat) (bs : Bytes) : Except Nat (Bytes × Bytes) :=
  go n bs []
where
  /-- The bytes taken so far are kept in reverse. -/
  go : Nat → Bytes → Bytes → Except Nat (Bytes × Bytes)
    | 0, rest, taken => .ok (taken.reverse, rest)
    | n + 1, [], _ => .error (n + 1)
    | n + 1, b :: rest, taken => go n rest (b :: taken)

/-! ## Lemmas -/

theorem length_bigEndian (k n : Nat) : (bigEndian k n).length = k := by
  induction k generalizing n with
  | zero => rfl
  | succ k ih => simp [bigEndian, ih]

theorem ofBigEndian_append (bs : Bytes) (b : UInt8) :
    ofBigEndian (bs ++ [b]) = 256 * ofBigEndian bs + b.toNat := by
  simp [ofBigEndian]

theorem takeExactly_go (n : Nat) (bs taken : Bytes) :
    takeExactly.go n bs taken =
      if n ≤ bs.length then .ok (taken.reverse ++ bs.take n, bs.drop n)
      else .error (n - bs.length) := by
  induction n generalizing bs taken with
  | zero => simp [takeExactly.go]
  | succ n ih => cases bs <;> simp [takeExactly.go, ih]

/-- **Splitting off `n` bytes** succeeds exactly when there are `n`. -/
theorem takeExactly_eq (n : Nat) (bs : Bytes) :
    takeExactly n bs =
      if n ≤ bs.length then .ok (bs.take n, bs.drop n) else .error (n - bs.length) := by
  simp [takeExactly, takeExactly_go]

end ClassWeave
