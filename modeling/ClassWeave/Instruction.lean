import ClassWeave.Bytes
import ClassWeave.Descriptor.Basic

/-!
# Instructions of a forwarding body

The three instructions that forwarding bodies are made of: loads of local variables, dynamic calls
and returns.

**Code** (`encode`). A load has a form of one byte for the first four slots, of two bytes up to
slot 255, and of four bytes beyond. A body has at most 65535 bytes of code.

**Stack depth** (`maxStack`). Running a list from an empty stack, each instruction first pops and
then pushes; the answer is the greatest depth reached, unless the stack runs empty or grows past
65535 slots.
-/

namespace ClassWeave

inductive BytecodeError where
  | stackUnderflow
  | stackOverflow
  | codeTooLong (length : Nat)
  /-- The depth of code that is only known as bytes was asked for. -/
  | unknownDepth
  deriving DecidableEq

def BytecodeError.message : BytecodeError → String
  | stackUnderflow => "Stack underflow"
  | stackOverflow => "Stack overflow"
  | codeTooLong length => s!"Code length {length} exceeds the 65535 byte limit"
  | unknownDepth => "Max stack can only be recomputed for synthesized instructions"

inductive Instruction where
  | load (kind : ValueKind) (slot : UInt16)
  /-- A call through the entry `index` of the pool, with its name and type. -/
  | invokeDynamic (index : UInt16) (name : String) (type : MethodType)
  /-- A return of a value, or of nothing. -/
  | ret (kind : Option ValueKind)
  deriving DecidableEq

/-! ## Code -/

/-- The opcode of a load with an explicit slot. -/
def ValueKind.loadOpcode : ValueKind → UInt8
  | int => 0x15
  | long => 0x16
  | float => 0x17
  | double => 0x18
  | reference => 0x19

/-- The opcode of the load from slot zero; those of the next three slots follow it. -/
def ValueKind.shortLoadOpcode : ValueKind → UInt8
  | int => 0x1A
  | long => 0x1E
  | float => 0x22
  | double => 0x26
  | reference => 0x2A

def ValueKind.returnOpcode : ValueKind → UInt8
  | int => 0xAC
  | long => 0xAD
  | float => 0xAE
  | double => 0xAF
  | reference => 0xB0

/-- The opcode of a return of a value, or of nothing. -/
def returnOpcode (kind : Option ValueKind) : UInt8 := (kind.map ValueKind.returnOpcode).getD 0xB1

/-- The opcode that widens the slot of the next instruction. -/
def wideOpcode : UInt8 := 0xC4

def invokeDynamicOpcode : UInt8 := 0xBA

def maxCodeLength : Nat := 65535

def maxStackDepth : Nat := 65535

namespace Instruction

def encodedLength : Instruction → Nat
  | load _ slot => if slot < 4 then 1 else if slot < 256 then 2 else 4
  | invokeDynamic .. => 5
  | ret _ => 1

def encode : Instruction → Bytes
  | load kind slot =>
    if slot < 4 then [kind.shortLoadOpcode + slot.toUInt8]
    else if slot < 256 then [kind.loadOpcode, slot.toUInt8]
    else wideOpcode :: kind.loadOpcode :: ofWord16 slot
  | invokeDynamic index _ _ => invokeDynamicOpcode :: (ofWord16 index ++ [0, 0])
  | ret kind => [returnOpcode kind]

def pops : Instruction → Nat
  | load .. => 0
  | invokeDynamic _ _ type => type.paramSlots
  | ret kind => (kind.map ValueKind.slots).getD 0

def pushes : Instruction → Nat
  | load kind _ => kind.slots
  | invokeDynamic _ _ type => type.resultSlots
  | ret _ => 0

def step (depth : Nat) (i : Instruction) : Except BytecodeError Nat :=
  if depth < i.pops then .error .stackUnderflow
  else if depth - i.pops + i.pushes > maxStackDepth then .error .stackOverflow
  else .ok (depth - i.pops + i.pushes)

end Instruction

/-- The greatest depth of the stack, given the depth now and the greatest so far. -/
def maxStackFrom : (depth greatest : Nat) → List Instruction → Except BytecodeError Nat
  | _, greatest, [] => .ok greatest
  | depth, greatest, i :: rest =>
    match i.step depth with
    | .error e => .error e
    | .ok depth => maxStackFrom depth (max greatest depth) rest

/-- The greatest depth of the stack when the instructions run from an empty one. -/
def maxStack (is : List Instruction) : Except BytecodeError UInt16 :=
  (maxStackFrom 0 0 is).map UInt16.ofNat

/-- The code of the instructions. -/
def encodeInstructions (is : List Instruction) : Except BytecodeError Bytes :=
  let length := is.foldr (fun i n => i.encodedLength + n) 0
  if length > maxCodeLength then .error (.codeTooLong length)
  else .ok (is.flatMap Instruction.encode)

end ClassWeave
