import ClassWeave.Bytes

/-!
# Decompression

The *deflate* format: blocks of bytes that are stored, or coded with Huffman codes of their own or
of the format.

**Progress is kept.** A run that fails keeps what it has decompressed (`Inflate`), so that the
caller may still use the data before the damage.

**Rounds** (`Round`). The file is read in stretches of `roundSize` bytes, and data is handed over in
rounds. A round ends when a further byte is due and the data fills up a multiple of `roundSize`, and
when a byte is needed from the next stretch of the file. Data that proves corrupt takes the round
with it in which it is met.

**Codes** (`PrefixCode`). A code is given by the lengths of its words; words of one length are
numbered in the order of their symbols, after all shorter words. The lengths have to use up all
words. A code for bytes or distances may also have no word, or one word of one bit.

**Distances.** A copy may reach back before the first byte; there the data counts as zeros.

**Fuel.** Every symbol takes at least one bit, so the count of bits bounds all loops.
-/

namespace ClassWeave

inductive InflateError where
  /-- The compressed data ends early. -/
  | truncated
  | corrupt
  deriving DecidableEq

/-- The count of bytes in a full round, and in a stretch of the file. -/
def roundSize : Nat := 32768

/-- A round that has ended. -/
structure Round where
  /-- The length of the data up to its end. -/
  stop : Nat
  /-- Bytes of the stretch are left when the round ends. -/
  bytesLeft : Bool
  deriving DecidableEq

/-- The compressed data that is left, and the data decompressed so far. -/
structure InflateState where
  /-- The whole bytes that are left. -/
  rest : Bytes
  /-- The position of the next of them in the file. -/
  position : Nat
  /-- Where the stretch of the file ends. -/
  stretchEnd : Nat
  /-- The bits left of the byte in use, the next one lowest. -/
  bits : Nat
  /-- The count of those bits. -/
  bitCount : Nat
  output : Array UInt8
  /-- The rounds that have ended, the last one first. -/
  rounds : List Round
  /-- No byte of the file was left when the last of them ended. -/
  fileUsed : Bool

abbrev Inflate := EStateM InflateError InflateState

namespace InflateState

def settled (s : InflateState) : Nat := (s.rounds.head?.map Round.stop).getD 0

/-- Goes on to the next stretch of the file, which ends the round in progress. A round without data
does not count, but the round before it can no longer be continued. -/
def nextStretch (s : InflateState) : InflateState :=
  let size := s.output.size
  let rounds := if s.settled < size then ⟨size, false⟩ :: s.rounds
    else match s.rounds with
      | [] => []
      | last :: rounds => { last with bytesLeft := false } :: rounds
  { s with stretchEnd := s.stretchEnd + roundSize, rounds }

/-- Ends the round in progress if it is full; a stretch that is used up by then makes place for the
next one. -/
def endFullRound (s : InflateState) : InflateState :=
  let size := s.output.size
  if size % roundSize = 0 && s.settled < size then
    let fileUsed := s.rest.isEmpty
    let stretchUsed := s.position = s.stretchEnd
    { s with
      stretchEnd := if stretchUsed then s.stretchEnd + roundSize else s.stretchEnd
      rounds := ⟨size, !fileUsed && !stretchUsed⟩ :: s.rounds
      fileUsed }
  else s

end InflateState

namespace Inflate

def byte : Inflate UInt8 := fun s =>
  match s.rest with
  | [] => .error .truncated s
  | b :: rest =>
    let s := if s.position = s.stretchEnd then s.nextStretch else s
    .ok b { s with rest, position := s.position + 1 }

def bit : Inflate Nat := fun s =>
  match s.bitCount with
  | n + 1 => .ok (s.bits % 2) { s with bits := s.bits / 2, bitCount := n }
  | 0 =>
    match byte s with
    | .ok b s => .ok (b.toNat % 2) { s with bits := b.toNat / 2, bitCount := 7 }
    | .error e s => .error e s

/-- Takes a number of the given count of bits, the lowest bit first. -/
def number : Nat → Inflate Nat
  | 0 => return 0
  | n + 1 => do
    let low ← bit
    let high ← number n
    return low + 2 * high

def align : Inflate Unit := modify fun s => { s with bits := 0, bitCount := 0 }

def emit (b : UInt8) : Inflate Unit := modify fun s =>
  let s := s.endFullRound
  { s with output := s.output.push b }

/-! ## Codes -/

/-- How many words each length has, and the symbols in the order of their words. -/
structure PrefixCode where
  counts : List Nat
  symbols : Array Nat

/-- The code with words of the given lengths; length zero is no word. Words may be `lacking` only
where no word is longer than one bit. -/
def PrefixCode.ofLengths (lacking : Bool) (lengths : List Nat) : Inflate PrefixCode := do
  let longest := lengths.foldl max 1
  let counts := (List.range longest).map fun i => lengths.count (i + 1)
  let filled := counts.foldl (fun sum count => 2 * sum + count) 0
  -- In a full code every string of bits begins with a word.
  if filled != 1 <<< longest && !(lacking && longest == 1 && filled < 2) then throw .corrupt
  let symbols := (List.range longest).flatMap fun i =>
    (lengths.zipIdx.filter fun (length, _) => length == i + 1).map (·.2)
  return ⟨counts, symbols.toArray⟩

/-- Takes one word: `word` holds the bits so far, `first` the least word of the length and `index`
the position of its symbol. Bits that no longer word begins with are no word. -/
def PrefixCode.next (code : PrefixCode) :
    (counts : List Nat) → (word first index : Nat) → Inflate Nat
  | [], _, _, _ => throw .corrupt
  | count :: counts, word, first, index => do
    let word := 2 * word + (← bit)
    let first := 2 * first
    if word < first + count then
      match code.symbols[index + (word - first)]? with
      | some symbol => return symbol
      | none => throw .corrupt
    else if counts.isEmpty then throw .corrupt
    else code.next counts word (first + count) (index + count)

def PrefixCode.symbol (code : PrefixCode) : Inflate Nat := code.next code.counts 0 0 0

/-! ## Blocks of coded bytes -/

def lengthTable : List (Nat × Nat) :=
  [(3, 0), (4, 0), (5, 0), (6, 0), (7, 0), (8, 0), (9, 0), (10, 0), (11, 1), (13, 1), (15, 1),
    (17, 1), (19, 2), (23, 2), (27, 2), (31, 2), (35, 3), (43, 3), (51, 3), (59, 3), (67, 4),
    (83, 4), (99, 4), (115, 4), (131, 5), (163, 5), (195, 5), (227, 5), (258, 0)]

/-- The base and the count of extra bits of each distance symbol. -/
def distanceTable : List (Nat × Nat) :=
  [(1, 0), (2, 0), (3, 0), (4, 0), (5, 1), (7, 1), (9, 2), (13, 2), (17, 3), (25, 3), (33, 4),
    (49, 4), (65, 5), (97, 5), (129, 6), (193, 6), (257, 7), (385, 7), (513, 8), (769, 8),
    (1025, 9), (1537, 9), (2049, 10), (3073, 10), (4097, 11), (6145, 11), (8193, 12), (12289, 12),
    (16385, 13), (24577, 13)]

/-- The number that a symbol and its extra bits stand for. -/
def fromTable (table : List (Nat × Nat)) (symbol : Nat) : Inflate Nat := do
  match table[symbol]? with
  | none => throw .corrupt
  | some (base, extra) => return base + (← number extra)

def copy (distance : Nat) : Nat → Inflate Unit
  | 0 => return
  | n + 1 => do
    let data := (← get).output
    -- Data from before the start counts as zeros.
    emit (if distance ≤ data.size then data[data.size - distance]?.getD 0 else 0)
    copy distance n

def codedBlock (literals distances : PrefixCode) : Nat → Inflate Unit
  | 0 => throw .truncated
  | fuel + 1 => do
    let symbol ← literals.symbol
    if symbol < 256 then
      emit (UInt8.ofNat symbol)
      codedBlock literals distances fuel
    else if symbol = 256 then return
    else
      let length ← fromTable lengthTable (symbol - 257)
      let distance ← fromTable distanceTable (← distances.symbol)
      copy distance length
      codedBlock literals distances fuel

def fixedLiterals : Inflate PrefixCode :=
  PrefixCode.ofLengths false (List.replicate 144 8 ++ List.replicate 112 9 ++
    List.replicate 24 7 ++ List.replicate 8 8)

def fixedDistances : Inflate PrefixCode := PrefixCode.ofLengths false (List.replicate 32 5)

def lengthOrder : List Nat := [16, 17, 18, 0, 8, 7, 9, 6, 10, 5, 11, 4, 12, 3, 13, 2, 14, 1, 15]

/-- Takes the given count of lengths, which are found in reverse. -/
def lengths (code : PrefixCode) (count : Nat) : Nat → List Nat → Inflate (List Nat)
  | 0, _ => throw .truncated
  | fuel + 1, found =>
    if found.length = count then return found.reverse
    else if found.length > count then throw .corrupt
    else do
      let symbol ← code.symbol
      if symbol < 16 then lengths code count fuel (symbol :: found)
      else if symbol = 16 then
        match found with
        | [] => throw .corrupt
        | last :: _ =>
          lengths code count fuel (List.replicate (3 + (← number 2)) last ++ found)
      else if symbol = 17 then
        lengths code count fuel (List.replicate (3 + (← number 3)) 0 ++ found)
      else lengths code count fuel (List.replicate (11 + (← number 7)) 0 ++ found)

def ownCodes : Inflate (PrefixCode × PrefixCode) := do
  let literalCount := 257 + (← number 5)
  let distanceCount := 1 + (← number 5)
  let orderCount := 4 + (← number 4)
  if literalCount > 286 || distanceCount > 30 then throw .corrupt
  let given ← (List.range orderCount).mapM fun _ => number 3
  let pairs := lengthOrder.zip given
  let code ← PrefixCode.ofLengths false ((List.range 19).map fun i => (pairs.lookup i).getD 0)
  let count := literalCount + distanceCount
  let all ← lengths code count (count + 1) []
  let literals ← PrefixCode.ofLengths true (all.take literalCount)
  let distances ← PrefixCode.ofLengths true (all.drop literalCount)
  return (literals, distances)

/-! ## Blocks -/

/-- Takes whole bytes as they are. A full round ends before the byte is taken that is due. -/
def storedBytes : Nat → Inflate Unit
  | 0 => return
  | n + 1 => do
    modify InflateState.endFullRound
    emit (← byte)
    storedBytes n

/-- Takes a block of stored bytes; their count is given twice, once inverted. -/
def storedBlock : Inflate Unit := do
  align
  let count ← number 16
  let inverted ← number 16
  if count + inverted != 0xFFFF then throw .corrupt
  storedBytes count

def blocks (symbols : Nat) : Nat → Inflate Unit
  | 0 => throw .truncated
  | fuel + 1 => do
    let last ← bit
    match ← number 2 with
    | 0 => storedBlock
    | 1 => codedBlock (← fixedLiterals) (← fixedDistances) symbols
    | 2 =>
      let (literals, distances) ← ownCodes
      codedBlock literals distances symbols
    | _ => throw .corrupt
    if last = 1 then align else blocks symbols fuel

end Inflate

/-- Decompresses from the front of the bytes, which stand at a position in the stretches of the
file. The answer tells what went wrong, if anything did; the state holds the data and the bytes that
follow. -/
def inflate (position : Nat) (bs : Bytes) : Option InflateError × InflateState :=
  let bits := 8 * bs.length + 8
  let stretchEnd := (position / roundSize + 1) * roundSize
  match Inflate.blocks bits bits ⟨bs, position, stretchEnd, 0, 0, #[], [], false⟩ with
  | .ok _ s => (none, s)
  | .error e s => (some e, s)

end ClassWeave
