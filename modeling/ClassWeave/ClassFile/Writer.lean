import ClassWeave.ClassFile.Basic

/-!
# Writing class files

Each part is written as its bytes in the order of the format.

**Widths.** Counts and lengths have a fixed width. What does not fit is an error and is never cut
off; the first part that does not fit, in written order, gives the error. The content of an
attribute is written before the attribute, since its length stands first.
-/

namespace ClassWeave

/-- The things whose count stands in two bytes. -/
inductive Counted where
  | textBytes
  | interfaces
  | fields
  | methods
  | classAttributes
  | fieldAttributes
  | methodAttributes
  | codeAttributes
  | handlers
  | bootstrapMethods
  | bootstrapArguments
  | annotations
  | parameterAnnotations
  | annotationElements
  | arrayElements
  | localVariables
  deriving DecidableEq

inductive WriteError where
  | tooMany (what : Counted) (count : Nat)
  /-- A count does not fit in one byte, or a length in four. -/
  | tooLarge
  | bytecode (cause : BytecodeError)
  deriving DecidableEq

def Counted.label : Counted → String
  | textBytes => "bytes in Utf8 constant"
  | interfaces => "interfaces"
  | fields => "fields"
  | methods => "methods"
  | classAttributes => "attributes"
  | fieldAttributes => "field attributes"
  | methodAttributes => "method attributes"
  | codeAttributes => "code attributes"
  | handlers => "exception handlers"
  | bootstrapMethods => "bootstrap methods"
  | bootstrapArguments => "bootstrap arguments"
  | annotations => "annotations"
  | parameterAnnotations => "parameter annotations"
  | annotationElements => "annotation elements"
  | arrayElements => "array elements"
  | localVariables => "local variables"

def WriteError.message : WriteError → String
  | tooMany what count => s!"too many {what.label}: {count}"
  | tooLarge => "number too large to fit in target type"
  | bytecode cause => cause.message

/-- The bytes of a part, unless something in it does not fit. -/
abbrev Encoded := Except WriteError Bytes

namespace Encoded

def count (what : Counted) (n : Nat) : Encoded :=
  if n < 0x10000 then .ok (bigEndian 2 n) else .error (.tooMany what n)

/-- A count in one byte. -/
def byteCount (n : Nat) : Encoded := if n < 0x100 then .ok (bigEndian 1 n) else .error .tooLarge

/-- Bytes after their length in four bytes. -/
def withLength (bs : Bytes) : Encoded :=
  let n := bs.length
  if n < 0x100000000 then .ok (bigEndian 4 n ++ bs) else .error .tooLarge

/-- The parts one after the other. -/
def concat (encode : α → Encoded) (as : List α) : Encoded := List.flatten <$> as.mapM encode

/-- A count in two bytes and then the parts. -/
def counted (what : Counted) (encode : α → Encoded) (as : List α) : Encoded := do
  let head ← count what as.length
  return head ++ (← concat encode as)

/-- The bytes of code, whose errors are errors of writing. -/
def ofBytecode (x : Except BytecodeError α) : Except WriteError α := x.mapError .bytecode

end Encoded

/-! ## The pool -/

/-- The bytes of an entry; the second slot of a wide entry has none. -/
def Constant.encode : Constant → Encoded
  | utf8 text => textEntry (ModifiedUtf8.encode text)
  | rawUtf8 bs => textEntry bs
  | integer value => .ok (3 :: ofWord32 value)
  | float bits => .ok (4 :: ofWord32 bits)
  | long value => .ok (5 :: ofWord64 value)
  | double bits => .ok (6 :: ofWord64 bits)
  | classRef name => .ok (7 :: ofWord16 name)
  | string text => .ok (8 :: ofWord16 text)
  | fieldRef owner member => .ok (9 :: ofWord16 owner ++ ofWord16 member)
  | methodRef owner member => .ok (10 :: ofWord16 owner ++ ofWord16 member)
  | interfaceMethodRef owner member => .ok (11 :: ofWord16 owner ++ ofWord16 member)
  | nameAndType name descriptor => .ok (12 :: ofWord16 name ++ ofWord16 descriptor)
  | methodHandle kind reference => .ok (15 :: kind :: ofWord16 reference)
  | methodType descriptor => .ok (16 :: ofWord16 descriptor)
  | dynamic bootstrap member => .ok (17 :: ofWord16 bootstrap ++ ofWord16 member)
  | invokeDynamic bootstrap member => .ok (18 :: ofWord16 bootstrap ++ ofWord16 member)
  | module name => .ok (19 :: ofWord16 name)
  | package name => .ok (20 :: ofWord16 name)
  | unusable => .ok []
where
  /-- A text entry with the given bytes. -/
  textEntry (bs : Bytes) : Encoded := do
    let head ← Encoded.count .textBytes bs.length
    return 1 :: head ++ bs

def ConstantPool.encode (p : ConstantPool) : Encoded := do
  return ofWord16 p.count ++ (← Encoded.concat Constant.encode p.slots.toList)

/-! ## Annotations

Annotations nest, so each part is written in front of what follows it, and no byte is written
twice. An error in a part comes before one in what follows.
-/

mutual

def AnnotationUse.encodeBefore : AnnotationUse → Encoded → Encoded
  | ⟨typeIndex, elements⟩, after => do
    let head ← Encoded.count .annotationElements elements.length
    return ofWord16 typeIndex ++ (head ++ (← Element.encodeBefore elements after))

/-- Writes the elements of an annotation. -/
def Element.encodeBefore : List Element → Encoded → Encoded
  | [], after => after
  | ⟨nameIndex, value⟩ :: rest, after => do
    return ofWord16 nameIndex ++ (← value.encodeBefore (Element.encodeBefore rest after))

def ElementValue.encodeBefore : ElementValue → Encoded → Encoded
  | .constant tag index, after => do return tag :: (ofWord16 index ++ (← after))
  | .enumConstant typeName constantName, after => do
    return 0x65 :: (ofWord16 typeName ++ (ofWord16 constantName ++ (← after)))
  | .classLiteral descriptor, after => do return 0x63 :: (ofWord16 descriptor ++ (← after))
  | .nested value, after => do return 0x40 :: (← value.encodeBefore after)
  | .array values, after => do
    let head ← Encoded.count .arrayElements values.length
    return 0x5B :: (head ++ (← ElementValue.encodeListBefore values after))

def ElementValue.encodeListBefore : List ElementValue → Encoded → Encoded
  | [], after => after
  | value :: rest, after => value.encodeBefore (ElementValue.encodeListBefore rest after)

end

def AnnotationUse.encode (a : AnnotationUse) : Encoded := a.encodeBefore (.ok [])

def ElementValue.encode (v : ElementValue) : Encoded := v.encodeBefore (.ok [])

/-! ## Attributes -/

def Handler.encode (h : Handler) : Bytes :=
  ofWord16 h.startPc ++ ofWord16 h.endPc ++ ofWord16 h.handlerPc ++ ofWord16 h.catchType

def LocalVariable.encode (v : LocalVariable) : Bytes :=
  ofWord16 v.startPc ++ ofWord16 v.length ++ ofWord16 v.nameIndex ++ ofWord16 v.descriptorIndex ++
    ofWord16 v.slot

def BootstrapMethod.encode (m : BootstrapMethod) : Encoded := do
  let arguments ← Encoded.counted .bootstrapArguments (fun a => .ok (ofWord16 a)) m.arguments
  return ofWord16 m.handle ++ arguments

def AnnotationUse.encodeList (what : Counted) (list : List AnnotationUse) : Encoded :=
  Encoded.counted what AnnotationUse.encode list

def AnnotationUse.encodeParameters (lists : List (List AnnotationUse)) : Encoded := do
  let head ← Encoded.byteCount lists.length
  return head ++ (← Encoded.concat (AnnotationUse.encodeList .parameterAnnotations) lists)

mutual

def Attribute.encode : Attribute → Encoded
  | ⟨nameIndex, content⟩ => do
    let payload ← content.encode
    return ofWord16 nameIndex ++ (← Encoded.withLength payload)

def Attribute.encodeList : List Attribute → Encoded
  | [] => .ok []
  | a :: rest => do
    let head ← a.encode
    return head ++ (← Attribute.encodeList rest)

def Content.encode : Content → Encoded
  | .code c => c.encode
  | .bootstrapMethods methods => Encoded.counted .bootstrapMethods BootstrapMethod.encode methods
  | .signature index => .ok (ofWord16 index)
  | .visibleAnnotations list => AnnotationUse.encodeList .annotations list
  | .invisibleAnnotations list => AnnotationUse.encodeList .annotations list
  | .visibleParameterAnnotations lists => AnnotationUse.encodeParameters lists
  | .invisibleParameterAnnotations lists => AnnotationUse.encodeParameters lists
  | .annotationDefault value => value.encode
  | .localVariables table => Encoded.counted .localVariables (.ok ·.encode) table
  | .localVariableTypes table => Encoded.counted .localVariables (.ok ·.encode) table
  | .other bytes => .ok bytes

def Code.encode : Code → Encoded
  | ⟨stackLimit, maxLocals, body, handlers, attributes⟩ => do
    let code : Code := ⟨stackLimit, maxLocals, body, handlers, []⟩
    let depth ← Encoded.ofBytecode code.maxStack
    let bytes ← Encoded.withLength (← Encoded.ofBytecode code.bytes)
    let table ← Encoded.counted .handlers (.ok ·.encode) handlers
    let head ← Encoded.count .codeAttributes attributes.length
    let rest ← Attribute.encodeList attributes
    return ofWord16 depth ++ (ofWord16 maxLocals ++ (bytes ++ (table ++ (head ++ rest))))

end

/-! ## Classes -/

def Member.encode (what : Counted) (m : Member) : Encoded := do
  let head ← Encoded.count what m.attributes.length
  let rest ← Attribute.encodeList m.attributes
  return ofWord16 m.accessFlags ++ (ofWord16 m.nameIndex ++ (ofWord16 m.descriptorIndex ++
    (head ++ rest)))

def ClassFile.write (c : ClassFile) : Encoded := do
  let pool ← c.pool.encode
  let interfaces ← Encoded.counted .interfaces (fun i => .ok (ofWord16 i)) c.interfaces
  let fields ← Encoded.counted .fields (Member.encode .fieldAttributes) c.fields
  let methods ← Encoded.counted .methods (Member.encode .methodAttributes) c.methods.toList
  let head ← Encoded.count .classAttributes c.attributes.length
  let rest ← Attribute.encodeList c.attributes
  return ofWord32 c.magic ++ (ofWord16 c.minorVersion ++ (ofWord16 c.majorVersion ++ (pool ++
    (ofWord16 c.accessFlags ++ (ofWord16 c.thisClass ++ (ofWord16 c.superClass ++
      (interfaces ++ (fields ++ (methods ++ (head ++ rest))))))))))

end ClassWeave
