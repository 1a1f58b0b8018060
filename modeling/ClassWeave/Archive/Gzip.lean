import ClassWeave.Archive.Checksum
import ClassWeave.Archive.Inflate

/-!
# Gzip streams

A gzip stream is a header, compressed data, and a trailer with the checksum and the length of the
data.

**Damage shows late.** A reader gets the data before the damage and learns of the damage when it
reads on (`Stream.intact`). The round in which the compressed data proves corrupt gives nothing.

**Fleeting data** (`Stream.fleeting`). Data may still be due when the last byte of a truncated file
has been used and a round ends. The first request for it gets what it asks for; the rest is lost.
-/

namespace ClassWeave

/-- What a reader gets. -/
structure Stream where
  data : Bytes
  /-- The data ends without an error. -/
  intact : Bool
  /-- The rounds in which the data is handed over, but the last one. -/
  rounds : List Round
  /-- Where fleeting data starts. -/
  fleeting : Option Nat

namespace Gzip

def maxTextLength : Nat := 65535

/-- The number written by the bytes, the least significant first. -/
def littleEndian (bs : Bytes) : Nat := ofBigEndian bs.reverse

def skipText (bs : Bytes) : Option Bytes :=
  match bs.span (· != 0) with
  | (_, []) => none
  | (text, _ :: rest) => if text.length ≤ maxTextLength then some rest else none

/-- Drops a field that stands after its length. -/
def skipField (bs : Bytes) : Option Bytes :=
  match takeExactly 2 bs with
  | .error _ => none
  | .ok (size, rest) =>
    match takeExactly (littleEndian size) rest with
    | .error _ => none
    | .ok (_, rest) => some rest

/-- Drops the checksum of the header, which has to match; `all` are the bytes of the stream. -/
def skipHeaderChecksum (all bs : Bytes) : Option Bytes :=
  match takeExactly 2 bs with
  | .error _ => none
  | .ok (sum, rest) =>
    let header := all.take (all.length - bs.length)
    if littleEndian sum = (crc32 header).toNat % 0x10000 then some rest else none

def hasFlag (flags : UInt8) (position : Nat) : Bool := flags.toNat.testBit position

def skipHeader (bs : Bytes) : Option Bytes := do
  match bs with
  | 0x1F :: 0x8B :: 8 :: flags :: _ :: _ :: _ :: _ :: _ :: _ :: rest =>
    if flags ≥ 32 then none
    let rest ← if hasFlag flags 2 then skipField rest else some rest
    let rest ← if hasFlag flags 3 then skipText rest else some rest
    let rest ← if hasFlag flags 4 then skipText rest else some rest
    if hasFlag flags 1 then skipHeaderChecksum bs rest else some rest
  | _ => none

/-- Where the stretches start in which the file is read. An extra field that leaves nothing of the
second stretch is read as a whole, and the stretches start at its end. -/
def stretchStart (bs : Bytes) : Nat :=
  match bs with
  | _ :: _ :: _ :: flags :: _ :: _ :: _ :: _ :: _ :: _ :: low :: high :: _ =>
    let fieldEnd := 12 + littleEndian [low, high]
    if hasFlag flags 2 && fieldEnd ≥ 2 * roundSize then fieldEnd else 0
  | _ => 0

def checkTrailer (data : Bytes) (trailer : Bytes) : Bool :=
  match takeExactly 8 trailer with
  | .error _ => false
  | .ok (sums, _) =>
    littleEndian (sums.take 4) == (crc32 data).toNat &&
      littleEndian (sums.drop 4) == data.length % 0x100000000

def decode (bs : Bytes) : Stream :=
  match skipHeader bs with
  | none => ⟨[], false, [], none⟩
  | some rest =>
    let (fault, s) := inflate (bs.length - rest.length - stretchStart bs) rest
    let data := s.output.toList
    let rounds := s.rounds.reverse
    match fault with
    | none => ⟨data, checkTrailer data s.rest, rounds, none⟩
    | some .truncated => ⟨data, false, rounds, if s.fileUsed then some s.settled else none⟩
    | some .corrupt => ⟨data.take s.settled, false, rounds, none⟩

end Gzip

end ClassWeave
