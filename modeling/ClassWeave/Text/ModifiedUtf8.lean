import ClassWeave.Bytes
import ClassWeave.Text.Utf16

/-!
# Modified UTF-8

The encoding of texts in class files. Each UTF-16 unit is written on its own, in one, two or three
bytes, so a character outside the first plane takes six; the zero unit takes two bytes, so that no
zero byte occurs.

**One form for each unit** (`decodeUnits?`). Only the form that `encodeUnit` writes is read: a zero
byte, an overlong form, a lone continuation byte and a four-byte form are refused.
-/

namespace ClassWeave.ModifiedUtf8

def encodeUnit (u : UInt16) : Bytes :=
  let n := u.toNat
  if n ≠ 0 ∧ n < 0x80 then [UInt8.ofNat n]
  else if n < 0x800 then [UInt8.ofNat (0xC0 + n / 0x40), UInt8.ofNat (0x80 + n % 0x40)]
  else
    [UInt8.ofNat (0xE0 + n / 0x1000), UInt8.ofNat (0x80 + n / 0x40 % 0x40),
      UInt8.ofNat (0x80 + n % 0x40)]

def encodeUnits (us : List UInt16) : Bytes := us.flatMap encodeUnit

def encode (s : String) : Bytes := encodeUnits (Utf16.ofString s)

/-- The byte continues a longer form. -/
def isContinuation (b : UInt8) : Bool := 0x80 ≤ b.toNat && b.toNat < 0xC0

/-- The unit of a two-byte form; only the zero unit may be shorter than the form. -/
def unitOfTwo? (a b : UInt8) : Option UInt16 :=
  let n := (a.toNat - 0xC0) * 0x40 + (b.toNat - 0x80)
  if isContinuation b ∧ (n = 0 ∨ 0x80 ≤ n) then some (UInt16.ofNat n) else none

def unitOfThree? (a b c : UInt8) : Option UInt16 :=
  let n := (a.toNat - 0xE0) * 0x1000 + (b.toNat - 0x80) * 0x40 + (c.toNat - 0x80)
  if isContinuation b ∧ isContinuation c ∧ 0x800 ≤ n then some (UInt16.ofNat n) else none

/-- The units written by the bytes; none when the bytes are not a written form. -/
def decodeUnits? (bs : Bytes) : Option (List UInt16) :=
  go bs []
where
  /-- The units found so far are kept in reverse. -/
  go : Bytes → List UInt16 → Option (List UInt16)
    | [], found => some found.reverse
    | a :: rest, found =>
      if a.toNat < 0x80 then
        if a = 0 then none else go rest (a.toUInt16 :: found)
      else if a.toNat < 0xC0 then none
      else if a.toNat < 0xE0 then
        match rest with
        | b :: rest => match unitOfTwo? a b with
          | some u => go rest (u :: found)
          | none => none
        | [] => none
      else if a.toNat < 0xF0 then
        match rest with
        | b :: c :: rest => match unitOfThree? a b c with
          | some u => go rest (u :: found)
          | none => none
        | _ => none
      else none

end ClassWeave.ModifiedUtf8
