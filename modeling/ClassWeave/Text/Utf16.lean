/-!
# UTF-16 code units

A character outside the first plane is written as a *surrogate pair* of two units.

**Encoding** (`ofString`). Every text has units.

**Decoding** (`toString?`). Units form a text unless a surrogate stands alone.
-/

namespace ClassWeave.Utf16

def ofChar (c : Char) : List UInt16 :=
  if c.toNat < 0x10000 then [UInt16.ofNat c.toNat]
  else
    [UInt16.ofNat (0xD800 + (c.toNat - 0x10000) / 0x400),
      UInt16.ofNat (0xDC00 + (c.toNat - 0x10000) % 0x400)]

def ofString (s : String) : List UInt16 := s.toList.flatMap ofChar

/-- The unit opens a surrogate pair. -/
def isHighSurrogate (u : UInt16) : Bool := 0xD800 ≤ u.toNat && u.toNat < 0xDC00

def isLowSurrogate (u : UInt16) : Bool := 0xDC00 ≤ u.toNat && u.toNat < 0xE000

def pair (high low : UInt16) : Char :=
  Char.ofNat (0x10000 + (high.toNat - 0xD800) * 0x400 + (low.toNat - 0xDC00))

/-- The characters of the units; none when a surrogate stands alone. -/
def toChars? (us : List UInt16) : Option (List Char) :=
  go us []
where
  /-- The characters found so far are kept in reverse. -/
  go : List UInt16 → List Char → Option (List Char)
    | [], found => some found.reverse
    | [u], found =>
      if isHighSurrogate u || isLowSurrogate u then none
      else some (Char.ofNat u.toNat :: found).reverse
    | u :: v :: us, found =>
      if isHighSurrogate u then
        if isLowSurrogate v then go us (pair u v :: found) else none
      else if isLowSurrogate u then none
      else go (v :: us) (Char.ofNat u.toNat :: found)

def toString? (us : List UInt16) : Option String := (toChars? us).map String.ofList

end ClassWeave.Utf16
