import ClassWeave.Pool.Constant

/-!
# The constant pool

Indices start at one: slot `i` of the array is entry `i + 1`. A wide entry is followed by an
`unusable` slot, so the count that a class file states is the count of slots plus one.

**Look-ups** (`get`, `utf8`, `className`, `nameAndType`, `memberRef`) follow the references between
entries and fail with the cause at the first entry that does not fit.

**Growth** (`push`, `intern`). The pool only grows at its end; interning uses the first equal entry
if there is one. The `add…` functions intern an entry together with the entries it refers to, and
when the pool is full they leave in place what they have added.
-/

namespace ClassWeave

/-- What a look-up asked for. -/
inductive PoolEntryKind where
  | utf8
  | classRef
  | nameAndType
  | memberRef
  deriving DecidableEq

inductive PoolError where
  | outOfSpace
  | invalidIndex (index : UInt16)
  | unexpectedEntry (index : UInt16) (expected : PoolEntryKind)
  | unpairedSurrogate (index : UInt16)
  deriving DecidableEq

def PoolEntryKind.label : PoolEntryKind → String
  | utf8 => "Utf8"
  | classRef => "Class"
  | nameAndType => "NameAndType"
  | memberRef => "member reference"

def PoolError.message : PoolError → String
  | outOfSpace => "Constant pool is out of space"
  | invalidIndex index => s!"Invalid constant pool index: {index}"
  | unexpectedEntry index expected => s!"Constant pool entry {index} is not a {expected.label}"
  | unpairedSurrogate index => s!"Utf8 constant {index} holds unpaired surrogates"

structure ConstantPool where
  slots : Array Constant
  deriving DecidableEq, Inhabited

namespace ConstantPool

def empty : ConstantPool := ⟨#[]⟩

/-- The greatest index a pool can hold, since its count is a word. -/
def maxIndex : Nat := 65534

def count (p : ConstantPool) : UInt16 := UInt16.ofNat (p.slots.size + 1)

def slot? (p : ConstantPool) (index : UInt16) : Option Constant :=
  if index = 0 then none else p.slots[index.toNat - 1]?

/-! ## Look-ups -/

def get (p : ConstantPool) (index : UInt16) : Except PoolError Constant :=
  match p.slot? index with
  | none | some .unusable => .error (.invalidIndex index)
  | some c => .ok c

def utf8 (p : ConstantPool) (index : UInt16) : Except PoolError String := do
  match ← p.get index with
  | .utf8 text => .ok text
  | .rawUtf8 _ => .error (.unpairedSurrogate index)
  | _ => .error (.unexpectedEntry index .utf8)

/-- The name of the class entry at an index. -/
def className (p : ConstantPool) (index : UInt16) : Except PoolError String := do
  match ← p.get index with
  | .classRef name => p.utf8 name
  | _ => .error (.unexpectedEntry index .classRef)

/-- The name and the descriptor of the entry at an index. -/
def nameAndType (p : ConstantPool) (index : UInt16) : Except PoolError (String × String) := do
  match ← p.get index with
  | .nameAndType name descriptor => return (← p.utf8 name, ← p.utf8 descriptor)
  | _ => .error (.unexpectedEntry index .nameAndType)

/-- A field or method as a class file refers to it. -/
structure MemberName where
  owner : String
  name : String
  descriptor : String
  deriving DecidableEq

/-- The owner, name and descriptor of the field or method reference at an index. -/
def memberRef (p : ConstantPool) (index : UInt16) : Except PoolError MemberName := do
  match ← p.get index with
  | .fieldRef owner member | .methodRef owner member | .interfaceMethodRef owner member =>
    let (name, descriptor) ← p.nameAndType member
    return ⟨← p.className owner, name, descriptor⟩
  | _ => .error (.unexpectedEntry index .memberRef)

/-- The usable entries with their indices. -/
def entries (p : ConstantPool) : List (UInt16 × Constant) :=
  (p.slots.toList.zipIdx 1).filterMap fun (c, i) =>
    if c = .unusable then none else some (UInt16.ofNat i, c)

/-- The index of the first entry that is the same as `c`; an unusable slot is no entry. -/
def find? (p : ConstantPool) (c : Constant) : Option UInt16 :=
  if c = .unusable then none
  else (p.slots.findIdx? (·.same c)).map fun i => UInt16.ofNat (i + 1)

/-! ## Growth -/

/-- Steps on a pool; a failing step keeps what it has added. -/
abbrev Grow := EStateM PoolError ConstantPool

/-- Appends an entry, with its second slot if it is wide. -/
def push (c : Constant) : Grow UInt16 := fun p =>
  let size := p.slots.size
  if size + c.width > maxIndex then .error .outOfSpace p
  else
    let slots := p.slots.push c
    .ok (UInt16.ofNat (size + 1)) ⟨if c.isWide then slots.push .unusable else slots⟩

/-- The index of an equal entry, which is appended when there is none. -/
def intern (c : Constant) : Grow UInt16 := fun p =>
  match p.find? c with
  | some index => .ok index p
  | none => push c p

def addUtf8 (text : String) : Grow UInt16 := intern (.utf8 text)

def addClass (name : String) : Grow UInt16 := do
  intern (.classRef (← addUtf8 name))

def addString (text : String) : Grow UInt16 := do
  intern (.string (← addUtf8 text))

def addLong (value : UInt64) : Grow UInt16 := intern (.long value)

def addNameAndType (name descriptor : String) : Grow UInt16 := do
  let nameIndex ← addUtf8 name
  let descriptorIndex ← addUtf8 descriptor
  intern (.nameAndType nameIndex descriptorIndex)

def addMethodRef (owner name descriptor : String) : Grow UInt16 := do
  let ownerIndex ← addClass owner
  let memberIndex ← addNameAndType name descriptor
  intern (.methodRef ownerIndex memberIndex)

def addMethodHandle (kind : UInt8) (reference : UInt16) : Grow UInt16 :=
  intern (.methodHandle kind reference)

def addInvokeDynamic (bootstrap : UInt16) (name descriptor : String) : Grow UInt16 := do
  let memberIndex ← addNameAndType name descriptor
  intern (.invokeDynamic bootstrap memberIndex)

/-- Replaces the entry at an index. -/
def set (index : UInt16) (c : Constant) : Grow Unit := fun p =>
  match p.get index with
  | .ok _ => .ok () ⟨p.slots.setIfInBounds (index.toNat - 1) c⟩
  | .error e => .error e p

end ConstantPool

end ClassWeave
