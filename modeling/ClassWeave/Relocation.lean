import ClassWeave.Error
import ClassWeave.Renaming

/-!
# Relocating a class

A renaming is applied to every place where a class file names a type: class entries, descriptors,
generic signatures, annotations and tables of local variables.

**Texts are shared.** One text of the pool may be a type name in one place and a literal in another,
so texts are never changed. The place that names a type is pointed at a new text instead, which is
added to the pool unless it is there.

**Places** (`mapTypes`). A visitor is run on the index at each place, in the order of the class
file, and gives the index to put there.

**Faults.** At the first fault the rest of the places is left as it is (`Relocating.fault`), so what
was changed before stays changed.
-/

namespace ClassWeave

/-- How the text at a place names types. -/
inductive TypeUse where
  | descriptor
  | signature
  deriving DecidableEq

/-! ## Places -/

mutual

def AnnotationUse.mapTypes (visit : TypeUse → UInt16 → StateM σ UInt16) :
    AnnotationUse → StateM σ AnnotationUse
  | ⟨typeIndex, elements⟩ => do
    let typeIndex ← visit .descriptor typeIndex
    return ⟨typeIndex, ← Element.mapTypesList visit elements⟩

def Element.mapTypesList (visit : TypeUse → UInt16 → StateM σ UInt16) :
    List Element → StateM σ (List Element)
  | [] => return []
  | ⟨nameIndex, value⟩ :: rest => do
    let value ← value.mapTypes visit
    return ⟨nameIndex, value⟩ :: (← Element.mapTypesList visit rest)

def ElementValue.mapTypes (visit : TypeUse → UInt16 → StateM σ UInt16) :
    ElementValue → StateM σ ElementValue
  | .constant tag index => return .constant tag index
  | .enumConstant typeName constantName => do
    return .enumConstant (← visit .descriptor typeName) constantName
  | .classLiteral descriptor => do return .classLiteral (← visit .descriptor descriptor)
  | .nested value => do return .nested (← value.mapTypes visit)
  | .array values => do return .array (← ElementValue.mapTypesList visit values)

def ElementValue.mapTypesList (visit : TypeUse → UInt16 → StateM σ UInt16) :
    List ElementValue → StateM σ (List ElementValue)
  | [] => return []
  | value :: rest => do
    let value ← value.mapTypes visit
    return value :: (← ElementValue.mapTypesList visit rest)

end

/-- Visits the descriptor or signature of a local variable. -/
def LocalVariable.mapType (visit : UInt16 → StateM σ UInt16) (v : LocalVariable) :
    StateM σ LocalVariable := do
  return { v with descriptorIndex := ← visit v.descriptorIndex }

mutual

def Attribute.mapTypes (visit : TypeUse → UInt16 → StateM σ UInt16) :
    Attribute → StateM σ Attribute
  | ⟨nameIndex, content⟩ => do return ⟨nameIndex, ← content.mapTypes visit⟩

def Attribute.mapTypesList (visit : TypeUse → UInt16 → StateM σ UInt16) :
    List Attribute → StateM σ (List Attribute)
  | [] => return []
  | a :: rest => do
    let a ← a.mapTypes visit
    return a :: (← Attribute.mapTypesList visit rest)

def Content.mapTypes (visit : TypeUse → UInt16 → StateM σ UInt16) : Content → StateM σ Content
  | .code c => do return .code (← c.mapTypes visit)
  | .bootstrapMethods methods => return .bootstrapMethods methods
  | .signature index => do return .signature (← visit .signature index)
  | .visibleAnnotations list => do
    return .visibleAnnotations (← list.mapM (·.mapTypes visit))
  | .invisibleAnnotations list => do
    return .invisibleAnnotations (← list.mapM (·.mapTypes visit))
  | .visibleParameterAnnotations lists => do
    return .visibleParameterAnnotations (← lists.mapM (·.mapM (·.mapTypes visit)))
  | .invisibleParameterAnnotations lists => do
    return .invisibleParameterAnnotations (← lists.mapM (·.mapM (·.mapTypes visit)))
  | .annotationDefault value => do return .annotationDefault (← value.mapTypes visit)
  | .localVariables table => do
    return .localVariables (← table.mapM (·.mapType (visit .descriptor)))
  | .localVariableTypes table => do
    return .localVariableTypes (← table.mapM (·.mapType (visit .signature)))
  | .other bytes => return .other bytes

def Code.mapTypes (visit : TypeUse → UInt16 → StateM σ UInt16) : Code → StateM σ Code
  | ⟨stackLimit, maxLocals, body, handlers, attributes⟩ => do
    return ⟨stackLimit, maxLocals, body, handlers, ← Attribute.mapTypesList visit attributes⟩

end

/-! ## Renaming at a place -/

/-- The pool while a class is relocated, and the first fault. -/
structure Relocating where
  pool : ConstantPool
  fault : Option Error

namespace Relocating

/-- The index of the renamed text; the index itself when the text stays or after a fault. -/
def rename (map : String → Except Error (Option String)) (index : UInt16) :
    StateM Relocating UInt16 := fun ⟨pool, fault⟩ =>
  match fault with
  | some e => (index, ⟨pool, some e⟩)
  | none =>
    match pool.utf8 index with
    | .error e => (index, ⟨pool, some (.pool e)⟩)
    | .ok text =>
      match map text with
      | .error e => (index, ⟨pool, some e⟩)
      | .ok none => (index, ⟨pool, none⟩)
      | .ok (some new) =>
        match ConstantPool.addUtf8 new pool with
        | .ok index pool => (index, ⟨pool, none⟩)
        | .error e pool => (index, ⟨pool, some (.pool e)⟩)

/-- The text at an index, for error messages; a failing look-up is a fault. -/
def location (index : UInt16) : StateM Relocating String := fun ⟨pool, fault⟩ =>
  match fault with
  | some e => ("", ⟨pool, some e⟩)
  | none =>
    match pool.utf8 index with
    | .ok text => (text, ⟨pool, none⟩)
    | .error e => ("", ⟨pool, some (.pool e)⟩)

/-- Renames the text at a place of a member of `owner`. -/
def visit (r : Renaming) (owner member : String) : TypeUse → UInt16 → StateM Relocating UInt16
  | .descriptor => rename fun text => .ok (r.descriptor text)
  | .signature => rename fun text => (r.signature text).mapError (.descriptor owner member)

def setSlot (i : Nat) (c : Constant) : StateM Relocating Unit := fun ⟨pool, fault⟩ =>
  ((), ⟨⟨pool.slots.setIfInBounds i c⟩, fault⟩)

/-- Renames the type that an entry of the pool names. -/
def renameSlot (r : Renaming) (i : Nat) : StateM Relocating Unit := do
  match (← get).pool.slots[i]? with
  | some (.classRef name) =>
    setSlot i (.classRef (← rename (fun text => .ok (r.typeName text)) name))
  | some (.nameAndType name descriptor) =>
    setSlot i (.nameAndType name (← rename (fun text => .ok (r.descriptor text)) descriptor))
  | some (.methodType descriptor) =>
    setSlot i (.methodType (← rename (fun text => .ok (r.descriptor text)) descriptor))
  | _ => return

def renameMember (r : Renaming) (owner : String) (m : Member) : StateM Relocating Member := do
  let member ← location m.nameIndex
  let descriptorIndex ← visit r owner member .descriptor m.descriptorIndex
  let attributes ← Attribute.mapTypesList (visit r owner member) m.attributes
  return { m with descriptorIndex, attributes }

end Relocating

/-- Applies a renaming to every place of the class that names a type. -/
def ClassFile.relocate (r : Renaming) : EStateM Error ClassFile Unit := fun c =>
  match c.name with
  | .error e => .error (.pool e) c
  | .ok owner =>
    let pool := c.pool
    let c := { c with pool := .empty }
    let size := pool.slots.size
    let run : StateM Relocating ClassFile := do
      (List.range size).forM (Relocating.renameSlot r)
      let fields ← c.fields.mapM (Relocating.renameMember r owner)
      let methods ← c.methods.mapM (Relocating.renameMember r owner)
      let attributes ← Attribute.mapTypesList (Relocating.visit r owner "<class>") c.attributes
      return { c with fields, methods, attributes }
    match run ⟨pool, none⟩ with
    | (c, ⟨pool, none⟩) => .ok () { c with pool }
    | (c, ⟨pool, some e⟩) => .error e { c with pool }

end ClassWeave
