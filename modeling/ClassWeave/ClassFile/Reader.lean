import ClassWeave.ClassFile.Basic
import ClassWeave.ClassFile.Cursor
import ClassWeave.Text.Hex

/-!
# Reading class files

Everything is taken as it stands: no number, text or order is normalised, so a class that is read
and written again keeps its bytes.

**Attributes.** The bytes of an attribute are taken first; then its name is looked up, which tells
whether the bytes are taken apart. Bytes that end early or are left over make the attribute
malformed.

**Fuel.** Annotations and code nest; each level takes at least one byte, so the count of bytes left
bounds the depth.
-/

namespace ClassWeave

/-! ## The pool -/

namespace Constant

def decode (index : UInt16) : Decode Constant := do
  let tag ← Decode.word8
  match tag.toNat with
  | 1 =>
    let bs ← Decode.bytes (← Decode.word16).toNat
    match ofUtf8Bytes? bs with
    | some c => return c
    | none => throw (.invalidUtf8 index)
  | 3 => return .integer (← Decode.word32)
  | 4 => return .float (← Decode.word32)
  | 5 => return .long (← Decode.word64)
  | 6 => return .double (← Decode.word64)
  | 7 => return .classRef (← Decode.word16)
  | 8 => return .string (← Decode.word16)
  | 9 => return .fieldRef (← Decode.word16) (← Decode.word16)
  | 10 => return .methodRef (← Decode.word16) (← Decode.word16)
  | 11 => return .interfaceMethodRef (← Decode.word16) (← Decode.word16)
  | 12 => return .nameAndType (← Decode.word16) (← Decode.word16)
  | 15 => return .methodHandle (← Decode.word8) (← Decode.word16)
  | 16 => return .methodType (← Decode.word16)
  | 17 => return .dynamic (← Decode.word16) (← Decode.word16)
  | 18 => return .invokeDynamic (← Decode.word16) (← Decode.word16)
  | 19 => return .module (← Decode.word16)
  | 20 => return .package (← Decode.word16)
  | _ => throw (.invalidTag tag index)

end Constant

namespace ConstantPool

/-- Fills the given count of slots; a wide entry takes two, and must not be the last. -/
def decodeSlots : Nat → Array Constant → Decode ConstantPool
  | 0, slots => return ⟨slots⟩
  | n + 1, slots => do
    let index := slots.size + 1
    let c ← Constant.decode (UInt16.ofNat index)
    if c.isWide then
      match n with
      | 0 => throw (.pool (.invalidIndex (UInt16.ofNat (index + 1))))
      | n + 1 => decodeSlots n ((slots.push c).push .unusable)
    else decodeSlots n (slots.push c)

def decode : Decode ConstantPool := do
  decodeSlots ((← Decode.word16).toNat - 1) #[]

end ConstantPool

/-! ## Annotations -/

/-- Reads an annotation, given a reader for values. -/
def AnnotationUse.decodeWith (value : Decode ElementValue) : Decode AnnotationUse := do
  let typeIndex ← Decode.word16
  let elements ← Decode.counted do
    let nameIndex ← Decode.word16
    return ⟨nameIndex, ← value⟩
  return ⟨typeIndex, elements⟩

/-- Reads a value that nests less deep than the fuel. -/
def ElementValue.decodeNested : Nat → Decode ElementValue
  | 0 => do throw (.unexpectedEnd (← get).offset 1)
  | fuel + 1 => do
    let tag ← Decode.word8
    if constantTags.contains tag then return .constant tag (← Decode.word16)
    else if tag = 0x65 then return .enumConstant (← Decode.word16) (← Decode.word16)
    else if tag = 0x63 then return .classLiteral (← Decode.word16)
    else if tag = 0x40 then return .nested (← AnnotationUse.decodeWith (decodeNested fuel))
    else if tag = 0x5B then return .array (← Decode.counted (decodeNested fuel))
    else throw (.malformed "annotation" (.unknownElementTag tag))

def ElementValue.decode : Decode ElementValue := do
  decodeNested ((← get).rest.length + 1)

def AnnotationUse.decodeList : Decode (List AnnotationUse) := do
  let value := ElementValue.decodeNested ((← get).rest.length + 1)
  Decode.counted (AnnotationUse.decodeWith value)

def AnnotationUse.decodeParameters : Decode (List (List AnnotationUse)) := do
  let value := ElementValue.decodeNested ((← get).rest.length + 1)
  Decode.times (← Decode.word8).toNat (Decode.counted (AnnotationUse.decodeWith value))

/-! ## Attributes -/

def Handler.decode : Decode Handler := do
  return ⟨← Decode.word16, ← Decode.word16, ← Decode.word16, ← Decode.word16⟩

def BootstrapMethod.decode : Decode BootstrapMethod := do
  return ⟨← Decode.word16, ← Decode.counted Decode.word16⟩

def LocalVariable.decode : Decode LocalVariable := do
  return ⟨← Decode.word16, ← Decode.word16, ← Decode.word16, ← Decode.word16, ← Decode.word16⟩

/-- Reads code, given a reader for its attributes. -/
def Code.decodeWith (attributes : Decode (List Attribute)) : Decode Code := do
  let depth ← Decode.word16
  let maxLocals ← Decode.word16
  let code ← Decode.bytes (← Decode.word32).toNat
  let handlers ← Decode.counted Handler.decode
  return ⟨.fixed depth, maxLocals, .bytecode code, handlers, ← attributes⟩

/-- Reads a content of a known kind, given a reader for the attributes of code. -/
def Content.decodeWith (attributes : Decode (List Attribute)) : ContentKind → Decode Content
  | .code => .code <$> Code.decodeWith attributes
  | .bootstrapMethods => .bootstrapMethods <$> Decode.counted BootstrapMethod.decode
  | .signature => .signature <$> Decode.word16
  | .visibleAnnotations => .visibleAnnotations <$> AnnotationUse.decodeList
  | .invisibleAnnotations => .invisibleAnnotations <$> AnnotationUse.decodeList
  | .visibleParameterAnnotations => .visibleParameterAnnotations <$> AnnotationUse.decodeParameters
  | .invisibleParameterAnnotations =>
    .invisibleParameterAnnotations <$> AnnotationUse.decodeParameters
  | .annotationDefault => .annotationDefault <$> ElementValue.decode
  | .localVariables => .localVariables <$> Decode.counted LocalVariable.decode
  | .localVariableTypes => .localVariableTypes <$> Decode.counted LocalVariable.decode

/-- Takes the whole content of a named attribute apart. -/
def Content.ofBytes (attributes : Decode (List Attribute)) (name : String) (payload : Bytes) :
    Except ReadError Content :=
  match ContentKind.ofName? name with
  | none => .ok (.other payload)
  | some kind =>
    match Content.decodeWith attributes kind (.ofBytes payload) with
    | .ok content ⟨_, []⟩ => .ok content
    | .ok _ ⟨_, left⟩ => .error (.malformed name (.unread left.length))
    | .error (.unexpectedEnd offset _) _ => .error (.malformed name (.truncated offset))
    | .error e _ => .error e

/-- Reads a list of attributes whose code nests less deep than the fuel. -/
def Attribute.decodeNested (pool : ConstantPool) : Nat → Decode (List Attribute)
  | 0 => do throw (.unexpectedEnd (← get).offset 2)
  | fuel + 1 => Decode.counted do
    let nameIndex ← Decode.word16
    let payload ← Decode.bytes (← Decode.word32).toNat
    let name ← Decode.ofPool (pool.utf8 nameIndex)
    match Content.ofBytes (decodeNested pool fuel) name payload with
    | .ok content => return ⟨nameIndex, content⟩
    | .error e => throw e

def Attribute.decodeList (pool : ConstantPool) : Decode (List Attribute) := do
  decodeNested pool ((← get).rest.length + 1)

/-! ## Classes -/

/-- Reads a field or method, given a reader for its attributes. -/
def Member.decodeWith (attributes : Decode (List Attribute)) : Decode Member := do
  return ⟨← Decode.word16, ← Decode.word16, ← Decode.word16, ← attributes⟩

namespace ClassFile

def decode : Decode ClassFile := do
  let fuel := (← get).rest.length + 1
  let magic ← Decode.word32
  if magic ≠ classMagic then throw (.invalidMagic magic)
  let minorVersion ← Decode.word16
  let majorVersion ← Decode.word16
  let pool ← ConstantPool.decode
  let accessFlags ← Decode.word16
  let thisClass ← Decode.word16
  let superClass ← Decode.word16
  let interfaces ← Decode.counted Decode.word16
  let fields ← Decode.counted (Member.decodeWith (Attribute.decodeNested pool fuel))
  let methods ← Decode.counted (Member.decodeWith (Attribute.decodeNested pool fuel))
  let attributes ← Attribute.decodeNested pool fuel
  return {
    magic, minorVersion, majorVersion, pool, accessFlags, thisClass, superClass, interfaces,
    fields, methods := methods.toArray, attributes }

/-- The class that the bytes, and no fewer of them, write down. -/
def read (bs : Bytes) : Except ReadError ClassFile :=
  match decode (.ofBytes bs) with
  | .ok c ⟨_, []⟩ => .ok c
  | .ok _ ⟨_, left⟩ => .error (.trailing left.length)
  | .error e _ => .error e

end ClassFile

/-! ## Messages -/

def Malformation.message : Malformation → String
  | truncated offset => s!"truncated at offset {offset}"
  | unread count => s!"{count} unread bytes"
  | unknownElementTag tag => s!"unknown element value tag 0x{Hex.upper 2 tag.toNat}"

def ReadError.message : ReadError → String
  | unexpectedEnd offset missing =>
    s!"Unexpected end of class data at offset {offset} ({missing} more bytes needed)"
  | invalidMagic magic => s!"Invalid magic number: 0x{Hex.upper 8 magic.toNat}"
  | invalidTag tag index => s!"Invalid constant pool tag {tag} at index {index}"
  | invalidUtf8 index => s!"Invalid modified UTF-8 in constant pool entry {index}"
  | pool cause => s!"Constant pool error: {cause.message}"
  | malformed name cause => s!"Malformed {name} attribute: {cause.message}"
  | trailing count => s!"{count} trailing bytes after end of class data"

end ClassWeave
