import ClassWeave.Archive.Request
import ClassWeave.Text.Blank
import ClassWeave.Text.Utf8

/-!
# Tar archives

An archive is a sequence of blocks of 512 bytes: for each entry a header and then its data, filled
up to whole blocks. A block of zeros, or the end of the data, ends the archive.

**Extensions.** Entries of certain types hold the path or the size of the entry that follows them.
They are not entries of their own. A size that is given in this way holds in place of the one in the
header.

**What a reader finds** (`Archive`). The entries up to the first fault, and whether there was one.
The data of an entry is missing when the stream is damaged within it, and shorter than stated when
the stream ends within it; in both cases a reader that goes on finds a fault.

**Who asks for what.** Headers, and data that nobody wants, are asked for as a whole; the data of
extensions and of wanted files goes into buffers that grow. This matters for fleeting data only
(`Source.read`).
-/

namespace ClassWeave

structure ArchiveEntry where
  path : String
  /-- The entry is a plain file. -/
  isFile : Bool
  /-- The data, if it is wanted and not damaged. -/
  data : Option Bytes
  deriving DecidableEq

structure Archive where
  entries : List ArchiveEntry
  /-- Reading ends without a fault after the entries. -/
  complete : Bool
  deriving DecidableEq

namespace Tar

def blockSize : Nat := 512

/-- What sizes and positions stay below. -/
def wordLimit : Nat := 0x10000000000000000

/-! ## Headers -/

def slice (header : Bytes) (offset size : Nat) : Bytes := (header.drop offset).take size

def beforeZero (bs : Bytes) : Bytes := bs.takeWhile (· != 0)

/-- The number with the given digits in a base; one plus sign may stand before them. -/
def parseDigits (base : Nat) (cs : List Char) : Option Nat :=
  let digits := match cs with
    | '+' :: rest => rest
    | _ => cs
  if digits.isEmpty then none
  else
    let value := digits.foldl (fun (n? : Option Nat) c => do
      let n ← n?
      if c.isDigit && c.toNat - 48 < base then some (n * base + (c.toNat - 48)) else none) (some 0)
    value.filter (· < wordLimit)

def octal (field : Bytes) : Option Nat := do
  parseDigits 8 (Blank.trim (← Utf8.decode? (beforeZero field)))

/-- The number in a size field; with its highest bit set, the field holds bytes and no digits. -/
def fieldSize (field : Bytes) : Option Nat :=
  match field with
  | first :: _ => if first < 128 then octal field else some (ofBigEndian (field.drop 4))
  | [] => none

def checksum (header : Bytes) : Nat :=
  (slice header 0 148 ++ header.drop 156).foldl (fun sum b => sum + b.toNat) (8 * 32)

def isStandard (header : Bytes) : Bool :=
  slice header 257 8 == [0x75, 0x73, 0x74, 0x61, 0x72, 0, 0x30, 0x30]

def isExtended (header : Bytes) : Bool :=
  slice header 257 8 == [0x75, 0x73, 0x74, 0x61, 0x72, 0x20, 0x20, 0]

def typeLetter (header : Bytes) : Char :=
  ((slice header 156 1).head?.map fun b => Char.ofNat b.toNat).getD ' '

/-- The path in a header; the standard format has room for its start. -/
def headerPath (header : Bytes) : Bytes :=
  let name := beforeZero (slice header 0 100)
  let start := beforeZero (slice header 345 155)
  if isStandard header && !start.isEmpty then start ++ 0x2F :: name else name

/-! ## Extension records -/

/-- A record of a name and a value; none when the record is malformed. -/
def record? (line : Bytes) : Option (Bytes × Bytes) := do
  match line.span (· != 0x20) with
  | (size, _ :: text) =>
    let size ← parseDigits 10 (← Utf8.decode? size)
    -- The size counts the line end, which is cut off here.
    if line.length + 1 ≠ size then none
    match text.span (· != 0x3D) with
    | (key, _ :: value) => some (key, value)
    | _ => none
  | _ => none

def records (data : Bytes) : List (Option (Bytes × Bytes)) :=
  ((data.splitOn 0x0A).takeWhile fun line => !line.isEmpty).map record?

def pathKey : Bytes := [0x70, 0x61, 0x74, 0x68]

def sizeKey : Bytes := [0x73, 0x69, 0x7A, 0x65]

def extensionPath (data : Bytes) : Option Bytes :=
  (records data).findSome? fun r => r.bind fun (key, value) =>
    if key = pathKey then some value else none

/-- The size that an extension gives; a malformed record before it hides it. -/
def extensionSize (data : Bytes) : Option Nat :=
  go (records data)
where
  /-- Looks for the first record of a size. -/
  go : List (Option (Bytes × Bytes)) → Option Nat
    | some (key, value) :: rest =>
      if key = sizeKey then (Utf8.decode? value).bind (parseDigits 10) else go rest
    | _ => none

/-! ## Members -/

/-- What is left of a stream. -/
structure Source where
  /-- The count of the bytes before. -/
  position : Nat
  bytes : Bytes
  /-- Where fleeting data starts, if there is some. -/
  fleeting : Option Nat

/-- A header, and what follows. -/
structure Part where
  header : Bytes
  /-- The size of the data. -/
  size : Nat
  /-- What follows the header. -/
  body : Source

def roomFor (size : Nat) : Nat := (size + (blockSize - 1)) / blockSize * blockSize

/-- What a reader finds who asks for a count of bytes. Of fleeting data only the first request is
answered, which asks for `request p` bytes at the position `p`. -/
def Source.read (count : Nat) (request : Nat → Nat) (s : Source) : Source :=
  match s.fleeting with
  | some p =>
    if p < s.position + count then
      { s with bytes := s.bytes.take (p - s.position + request p), fleeting := none }
    else s
  | none => s

/-- What a reader finds who asks for a count of bytes as a whole. -/
def Source.readWhole (count : Nat) (s : Source) : Source :=
  s.read count fun p => s.position + count - p

/-- Drops a count of bytes; none when the stream ends before that. -/
def Source.skip (count : Nat) (s : Source) : Option Source :=
  if count = 0 then some s
  else
    let s := s.readWhole count
    match s.bytes.drop (count - 1) with
    | [] => none
    | _ :: bytes => some { s with position := s.position + count, bytes }

namespace Part

/-- The part as a reader finds it who gathers its data in a buffer of the given capacity. -/
def gathered (stream : Stream) (capacity : Nat) (p : Part) : Part :=
  { p with body := p.body.read p.size (stream.requestAt capacity p.body.position p.size) }

def data (p : Part) : Bytes := p.body.bytes.take p.size

/-- The data of a part as a reader finds it; none when it is damaged. -/
def data? (stream : Stream) (p : Part) : Option Bytes :=
  let data := p.data
  if data.length == p.size || stream.intact then some data else none

def rest (p : Part) : Option Source := p.body.skip (roomFor p.size)

end Part

inductive Step where
  | finish
  | fault
  | part (p : Part)

def ownSizeTypes : List Char := ['x', 'g', 'L', 'K']

/-- Reads the next header; an extension may give the size of the data. -/
def nextPart (intact : Bool) (extension : Option Bytes) (s : Source) : Step :=
  let s := s.readWhole blockSize
  if s.bytes.isEmpty then if intact then .finish else .fault
  else
    match takeExactly blockSize s.bytes with
    | .error _ => .fault
    | .ok (header, rest) =>
      if header.all (· == 0) then .finish
      else
        match octal (slice header 148 8), fieldSize (slice header 124 12) with
        | some sum, some stated =>
          let given := if ownSizeTypes.contains (typeLetter header) then none
            else extension.bind extensionSize
          let size := given.getD stated
          let body := { s with position := s.position + blockSize, bytes := rest }
          if sum % 0x100000000 ≠ checksum header || size + (blockSize - 1) ≥ wordLimit ||
              body.position + roomFor size ≥ wordLimit then .fault
          else .part ⟨header, size, body⟩
        | _, _ => .fault

/-- What the parts before an entry say about it. -/
structure Pending where
  longPath : Option Bytes
  longLink : Option Bytes
  extension : Option Bytes

def Pending.none : Pending := ⟨.none, .none, .none⟩

def Pending.isNone (p : Pending) : Bool :=
  p.longPath.isNone && p.longLink.isNone && p.extension.isNone

/-- The types of entries that say something about the entry that follows them. -/
def extensionTypes : List Char := ['L', 'K', 'x']

/-- The greatest capacity of the buffer for an extension before it grows. -/
def extensionCapacity : Nat := 131072

/-- Adds what an extension of the given type says; each type may occur once. -/
def Pending.add? (p : Pending) (letter : Char) (data : Bytes) : Option Pending :=
  if letter = 'L' then
    if p.longPath.isSome then .none else some { p with longPath := data }
  else if letter = 'K' then
    if p.longLink.isSome then .none else some { p with longLink := data }
  else if p.extension.isSome then .none else some { p with extension := data }

def dropLastZero (bs : Bytes) : Bytes := if bs.getLast? = some 0 then bs.dropLast else bs

def entryPath (p : Pending) (header : Bytes) : Bytes :=
  match p.longPath with
  | some path => dropLastZero path
  | none => (p.extension.bind extensionPath).getD (headerPath header)

/-! ## Files with holes -/

/-- Where the stretches of a file with holes have led so far. -/
structure Stretches where
  /-- The position in the file. -/
  position : Nat
  /-- The data that is left for further stretches. -/
  left : Nat

/-- Adds one stretch of data, given by its offset and length; an empty field is skipped. -/
def addStretch (size : Nat) (s : Stretches) (field : Bytes) : Option Stretches :=
  if field.head? == some 0 || (field.drop 12).head? == some 0 then some s
  else do
    let offset ← fieldSize (field.take 12)
    let length ← fieldSize (field.drop 12)
    if (length ≠ 0 && (size - s.left) % blockSize ≠ 0) || offset < s.position then none
    else if s.left < length || offset + length ≥ wordLimit then none
    else some ⟨offset + length, s.left - length⟩

def addStretches (size : Nat) : Nat → Stretches → Bytes → Option Stretches
  | 0, s, _ => some s
  | n + 1, s, fields => do
    addStretches size n (← addStretch size s (fields.take 24)) (fields.drop 24)

/-- Adds the stretches in the blocks after a header; the last one has no mark at its end. -/
def moreStretches (size : Nat) : Nat → Stretches → Source → Option (Stretches × Source)
  | 0, _, _ => none
  | fuel + 1, s, source => do
    let rest ← source.skip blockSize
    let block := source.bytes.take blockSize
    let s ← addStretches size 21 s block
    if slice block 504 1 == [1] then moreStretches size fuel s rest else some (s, rest)

/-- What follows a file with holes; none at a fault. -/
def afterSparse (p : Part) : Option (Option Source) :=
  if !isExtended p.header then none
  else do
    let real ← fieldSize (slice p.header 483 12)
    let s ← addStretches p.size 4 ⟨0, p.size⟩ (slice p.header 386 96)
    let (s, body) ← if slice p.header 482 1 == [1] then
        moreStretches p.size (p.body.bytes.length / blockSize + 1) s p.body
      else some (s, p.body)
    if s.position ≠ real || s.left ≠ 0 then none
    else some (body.skip (roomFor p.size))

/-! ## Entries -/

/-- Reads entries up to the end or the first fault; the data of plain files with wanted paths is
read. -/
def entries (wanted : String → Bool) (stream : Stream) :
    Nat → Pending → Option Source → List ArchiveEntry → Archive
  | 0, _, _, found => ⟨found.reverse, false⟩
  | _, _, none, found => ⟨found.reverse, false⟩
  | fuel + 1, pending, some source, found =>
    match nextPart stream.intact pending.extension source with
    | .fault => ⟨found.reverse, false⟩
    | .finish => ⟨found.reverse, pending.isNone⟩
    | .part p =>
      let letter := typeLetter p.header
      let special := isStandard p.header || isExtended p.header
      if special && extensionTypes.contains letter then
        let p := p.gathered stream (min p.size extensionCapacity)
        match (p.data? stream).bind (pending.add? letter) with
        | none => ⟨found.reverse, false⟩
        | some pending => entries wanted stream fuel pending p.rest found
      else
        let path := String.ofList (Utf8.decodeLossy (entryPath pending p.header))
        let isFile := letter = '0' || letter = '\x00'
        let reads := isFile && wanted path
        let p := if reads then p.gathered stream 0 else p
        let entry := ⟨path, isFile, if reads then p.data? stream else none⟩
        match if letter = 'S' then afterSparse p else some p.rest with
        | none => ⟨found.reverse, false⟩
        | some rest => entries wanted stream fuel Pending.none rest (entry :: found)

end Tar

def Archive.ofBytes (wanted : String → Bool) (bs : Bytes) : Archive :=
  let stream := Gzip.decode bs
  Tar.entries wanted stream (stream.data.length / Tar.blockSize + 2) Tar.Pending.none
    (some ⟨0, stream.data, stream.fleeting⟩) []

end ClassWeave
