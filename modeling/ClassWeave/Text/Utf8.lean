import ClassWeave.Bytes

/-!
# Reading UTF-8

**Steps** (`step`). Each step reads one character, or finds that the bytes at hand begin none; an
ill-formed stretch is as long as the longest start of a character that it holds, and at least one
byte.

**Two readers.** `decode?` refuses ill-formed bytes; `decodeLossy` puts the replacement character
for each ill-formed stretch.
-/

namespace ClassWeave.Utf8

/-- How many bytes follow the first one, and the range of the second. -/
def form? (first : Nat) : Option (Nat × Nat × Nat) :=
  -- These ranges leave out long forms, surrogates and what is past the last character.
  if first < 0xC2 then none
  else if first < 0xE0 then some (1, 0x80, 0xBF)
  else if first = 0xE0 then some (2, 0xA0, 0xBF)
  else if first = 0xED then some (2, 0x80, 0x9F)
  else if first < 0xF0 then some (2, 0x80, 0xBF)
  else if first = 0xF0 then some (3, 0x90, 0xBF)
  else if first < 0xF4 then some (3, 0x80, 0xBF)
  else if first = 0xF4 then some (3, 0x80, 0x8F)
  else none

def leadBits (following first : Nat) : Nat :=
  match following with
  | 1 => first - 0xC0
  | 2 => first - 0xE0
  | _ => first - 0xF0

/-- Reads up to `following` continuation bytes, the next one in the given range. -/
def continuation (value : Nat) : (following low high : Nat) → Bytes → Option Nat × Bytes
  | 0, _, _, rest => (some value, rest)
  | _ + 1, _, _, [] => (none, [])
  | following + 1, low, high, b :: rest =>
    if low ≤ b.toNat ∧ b.toNat ≤ high then
      continuation (value * 0x40 + (b.toNat - 0x80)) following 0x80 0xBF rest
    else (none, b :: rest)

def step (first : UInt8) (rest : Bytes) : Option Char × Bytes :=
  if first.toNat < 0x80 then (some (Char.ofNat first.toNat), rest)
  else
    match form? first.toNat with
    | none => (none, rest)
    | some (following, low, high) =>
      let (value?, rest) := continuation (leadBits following first.toNat) following low high rest
      (value?.map Char.ofNat, rest)

/-- The characters, each ill-formed stretch being none; the fuel is the count of bytes. -/
def characters (bs : Bytes) : List (Option Char) :=
  go bs.length bs []
where
  /-- The characters found so far are kept in reverse. -/
  go : Nat → Bytes → List (Option Char) → List (Option Char)
    | fuel + 1, b :: rest, found =>
      let (c?, rest) := step b rest
      go fuel rest (c? :: found)
    | _, _, found => found.reverse

def decode? (bs : Bytes) : Option (List Char) := (characters bs).mapM id

def decodeLossy (bs : Bytes) : List Char :=
  (characters bs).map fun c? => c?.getD (Char.ofNat 0xFFFD)

end ClassWeave.Utf8
