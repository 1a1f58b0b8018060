import ClassWeave.Annotations
import ClassWeave.Instruction
import ClassWeave.Pool.Basic

/-!
# Attributes

What classes, fields, methods and code carry beyond their fixed parts.

**Contents.** The contents that name types, and the code of methods, are taken apart; every other
content is kept as its bytes. The name of an attribute decides which content it has.

**Code.** A body is either code as it was read, or a list of instructions that becomes code when
the class is written; then its stack depth is computed from the list.
-/

namespace ClassWeave

/-- A stretch of code with the handler for its exceptions. -/
structure Handler where
  startPc : UInt16
  endPc : UInt16
  handlerPc : UInt16
  catchType : UInt16
  deriving DecidableEq

/-- A bootstrap method: a method handle and the arguments it is given. -/
structure BootstrapMethod where
  handle : UInt16
  arguments : List UInt16
  deriving DecidableEq

/-- A local variable over a stretch of code, with its descriptor or signature. -/
structure LocalVariable where
  startPc : UInt16
  length : UInt16
  nameIndex : UInt16
  descriptorIndex : UInt16
  slot : UInt16
  deriving DecidableEq

/-- The depth of the operand stack. -/
inductive StackLimit where
  | fixed (depth : UInt16)
  /-- The depth that the instructions reach. -/
  | computed
  deriving DecidableEq

inductive CodeBody where
  | bytecode (code : Bytes)
  | instructions (list : List Instruction)
  deriving DecidableEq

mutual

structure Attribute where
  nameIndex : UInt16
  content : Content

inductive Content where
  | code (code : Code)
  | bootstrapMethods (methods : List BootstrapMethod)
  | signature (index : UInt16)
  | visibleAnnotations (list : List AnnotationUse)
  | invisibleAnnotations (list : List AnnotationUse)
  | visibleParameterAnnotations (lists : List (List AnnotationUse))
  | invisibleParameterAnnotations (lists : List (List AnnotationUse))
  | annotationDefault (value : ElementValue)
  | localVariables (table : List LocalVariable)
  /-- Local variables with their generic signatures. -/
  | localVariableTypes (table : List LocalVariable)
  | other (bytes : Bytes)

structure Code where
  stackLimit : StackLimit
  maxLocals : UInt16
  body : CodeBody
  handlers : List Handler
  attributes : List Attribute

end

instance : Inhabited Content := ⟨.other []⟩

instance : Inhabited Attribute := ⟨⟨0, default⟩⟩

/-! ## Names -/

/-- The contents that are taken apart. -/
inductive ContentKind where
  | code
  | bootstrapMethods
  | signature
  | visibleAnnotations
  | invisibleAnnotations
  | visibleParameterAnnotations
  | invisibleParameterAnnotations
  | annotationDefault
  | localVariables
  | localVariableTypes
  deriving DecidableEq

def ContentKind.name : ContentKind → String
  | code => "Code"
  | bootstrapMethods => "BootstrapMethods"
  | signature => "Signature"
  | visibleAnnotations => "RuntimeVisibleAnnotations"
  | invisibleAnnotations => "RuntimeInvisibleAnnotations"
  | visibleParameterAnnotations => "RuntimeVisibleParameterAnnotations"
  | invisibleParameterAnnotations => "RuntimeInvisibleParameterAnnotations"
  | annotationDefault => "AnnotationDefault"
  | localVariables => "LocalVariableTable"
  | localVariableTypes => "LocalVariableTypeTable"

def ContentKind.all : List ContentKind :=
  [code, bootstrapMethods, signature, visibleAnnotations, invisibleAnnotations,
    visibleParameterAnnotations, invisibleParameterAnnotations, annotationDefault, localVariables,
    localVariableTypes]

/-- The kind of content that a name calls for; any other name stands for plain bytes. -/
def ContentKind.ofName? (name : String) : Option ContentKind := all.find? (·.name == name)

/-- The kind of a content; plain bytes have none. -/
def Content.kind? : Content → Option ContentKind
  | .code _ => some .code
  | .bootstrapMethods _ => some .bootstrapMethods
  | .signature _ => some .signature
  | .visibleAnnotations _ => some .visibleAnnotations
  | .invisibleAnnotations _ => some .invisibleAnnotations
  | .visibleParameterAnnotations _ => some .visibleParameterAnnotations
  | .invisibleParameterAnnotations _ => some .invisibleParameterAnnotations
  | .annotationDefault _ => some .annotationDefault
  | .localVariables _ => some .localVariables
  | .localVariableTypes _ => some .localVariableTypes
  | .other _ => none

/-! ## Code -/

namespace Code

/-- Code of known bytes. -/
def ofBytecode (depth maxLocals : UInt16) (code : Bytes) : Code :=
  ⟨.fixed depth, maxLocals, .bytecode code, [], []⟩

/-- Code of instructions, whose stack depth is computed. -/
def ofInstructions (list : List Instruction) (maxLocals : UInt16) : Code :=
  ⟨.computed, maxLocals, .instructions list, [], []⟩

/-- The depth that is written for the operand stack. -/
def maxStack (c : Code) : Except BytecodeError UInt16 :=
  match c.stackLimit, c.body with
  | .fixed depth, _ => .ok depth
  | .computed, .instructions list => ClassWeave.maxStack list
  | .computed, .bytecode _ => .error .unknownDepth

def bytes (c : Code) : Except BytecodeError Bytes :=
  match c.body with
  | .bytecode code => .ok code
  | .instructions list => encodeInstructions list

/-- The body is a list of instructions. -/
def isSymbolic (c : Code) : Bool :=
  match c.body with
  | .instructions _ => true
  | .bytecode _ => false

end Code

/-! ## Annotations of members -/

/-- The annotations that are kept at run time. -/
def visibleAnnotations (as : List Attribute) : List AnnotationUse :=
  as.flatMap fun a => match a.content with
    | .visibleAnnotations list => list
    | _ => []

/-- The annotations that are kept in the class only. -/
def invisibleAnnotations (as : List Attribute) : List AnnotationUse :=
  as.flatMap fun a => match a.content with
    | .invisibleAnnotations list => list
    | _ => []

/-! ## Equality -/

mutual

def Attribute.beq : Attribute → Attribute → Bool
  | ⟨name, content⟩, ⟨name', content'⟩ => name == name' && content.beq content'

def Attribute.beqList : List Attribute → List Attribute → Bool
  | [], [] => true
  | a :: rest, b :: rest' => a.beq b && Attribute.beqList rest rest'
  | _, _ => false

def Content.beq : Content → Content → Bool
  | .code c, .code c' => c.beq c'
  | .bootstrapMethods l, .bootstrapMethods l' => l == l'
  | .signature i, .signature i' => i == i'
  | .visibleAnnotations l, .visibleAnnotations l' => l == l'
  | .invisibleAnnotations l, .invisibleAnnotations l' => l == l'
  | .visibleParameterAnnotations l, .visibleParameterAnnotations l' => l == l'
  | .invisibleParameterAnnotations l, .invisibleParameterAnnotations l' => l == l'
  | .annotationDefault v, .annotationDefault v' => v == v'
  | .localVariables l, .localVariables l' => l == l'
  | .localVariableTypes l, .localVariableTypes l' => l == l'
  | .other b, .other b' => b == b'
  | _, _ => false

def Code.beq : Code → Code → Bool
  | ⟨limit, locals, body, handlers, attributes⟩, ⟨limit', locals', body', handlers', attributes'⟩ =>
    limit == limit' && locals == locals' && body == body' && handlers == handlers' &&
      Attribute.beqList attributes attributes'

end

mutual

theorem Attribute.beq_iff : ∀ a b : Attribute, a.beq b = true ↔ a = b
  | ⟨_, content⟩, ⟨_, content'⟩ => by simp [Attribute.beq, Content.beq_iff content content']

theorem Attribute.beqList_iff : ∀ as bs : List Attribute, Attribute.beqList as bs = true ↔ as = bs
  | [], [] => by simp [Attribute.beqList]
  | a :: rest, b :: rest' => by
    simp [Attribute.beqList, Attribute.beq_iff a b, Attribute.beqList_iff rest rest']
  | [], _ :: _ => by simp [Attribute.beqList]
  | _ :: _, [] => by simp [Attribute.beqList]

theorem Content.beq_iff : ∀ a b : Content, a.beq b = true ↔ a = b
  | .code c, b => by cases b <;> simp [Content.beq, Code.beq_iff c]
  | .bootstrapMethods _, b => by cases b <;> simp [Content.beq]
  | .signature _, b => by cases b <;> simp [Content.beq]
  | .visibleAnnotations _, b => by cases b <;> simp [Content.beq]
  | .invisibleAnnotations _, b => by cases b <;> simp [Content.beq]
  | .visibleParameterAnnotations _, b => by cases b <;> simp [Content.beq]
  | .invisibleParameterAnnotations _, b => by cases b <;> simp [Content.beq]
  | .annotationDefault _, b => by cases b <;> simp [Content.beq]
  | .localVariables _, b => by cases b <;> simp [Content.beq]
  | .localVariableTypes _, b => by cases b <;> simp [Content.beq]
  | .other _, b => by cases b <;> simp [Content.beq]

theorem Code.beq_iff : ∀ a b : Code, a.beq b = true ↔ a = b
  | ⟨_, _, _, _, attributes⟩, ⟨_, _, _, _, attributes'⟩ => by
    simp [Code.beq, Attribute.beqList_iff attributes attributes', and_assoc]

end

instance : DecidableEq Attribute := fun a b => decidable_of_iff _ (Attribute.beq_iff a b)

instance : DecidableEq Content := fun a b => decidable_of_iff _ (Content.beq_iff a b)

instance : DecidableEq Code := fun a b => decidable_of_iff _ (Code.beq_iff a b)

end ClassWeave
