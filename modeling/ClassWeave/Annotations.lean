/-!
# Annotations

An annotation names its type and gives values to named elements; a value may be an annotation or
an array of values again. Names and constants are indices into the constant pool.

**Equality** is decided by comparing the trees node by node.
-/

namespace ClassWeave

mutual

/-- A use of an annotation type. -/
structure AnnotationUse where
  /-- The index of the annotation type's descriptor. -/
  typeIndex : UInt16
  elements : List Element

/-- A named element with its value. -/
structure Element where
  nameIndex : UInt16
  value : ElementValue

inductive ElementValue where
  /-- A primitive value or a text; the tag tells which. -/
  | constant (tag : UInt8) (index : UInt16)
  /-- An enum constant, by the descriptor of its type and its simple name. -/
  | enumConstant (typeName constantName : UInt16)
  /-- A class literal, by its descriptor. -/
  | classLiteral (descriptor : UInt16)
  | nested (value : AnnotationUse)
  | array (values : List ElementValue)

end

instance : Inhabited ElementValue := ⟨.array []⟩

/-- The tag that a value is written with. -/
def ElementValue.tag : ElementValue → UInt8
  | constant tag _ => tag
  | enumConstant .. => 0x65
  | classLiteral _ => 0x63
  | nested _ => 0x40
  | array _ => 0x5B

/-- The tags of constants: `B C D F I J S Z s`. -/
def constantTags : List UInt8 := [0x42, 0x43, 0x44, 0x46, 0x49, 0x4A, 0x53, 0x5A, 0x73]

/-! ## Equality -/

mutual

def AnnotationUse.beq : AnnotationUse → AnnotationUse → Bool
  | ⟨type, elements⟩, ⟨type', elements'⟩ => type == type' && Element.beqList elements elements'

def Element.beqList : List Element → List Element → Bool
  | [], [] => true
  | ⟨name, value⟩ :: rest, ⟨name', value'⟩ :: rest' =>
    name == name' && value.beq value' && Element.beqList rest rest'
  | _, _ => false

def ElementValue.beq : ElementValue → ElementValue → Bool
  | .constant tag index, .constant tag' index' => tag == tag' && index == index'
  | .enumConstant type name, .enumConstant type' name' => type == type' && name == name'
  | .classLiteral index, .classLiteral index' => index == index'
  | .nested a, .nested a' => a.beq a'
  | .array values, .array values' => ElementValue.beqList values values'
  | _, _ => false

def ElementValue.beqList : List ElementValue → List ElementValue → Bool
  | [], [] => true
  | v :: rest, v' :: rest' => v.beq v' && ElementValue.beqList rest rest'
  | _, _ => false

end

mutual

theorem AnnotationUse.beq_iff : ∀ a b : AnnotationUse, a.beq b = true ↔ a = b
  | ⟨_, elements⟩, ⟨_, elements'⟩ => by
    simp [AnnotationUse.beq, Element.beqList_iff elements elements']

theorem Element.beqList_iff : ∀ as bs : List Element, Element.beqList as bs = true ↔ as = bs
  | [], [] => by simp [Element.beqList]
  | ⟨_, value⟩ :: rest, ⟨_, value'⟩ :: rest' => by
    simp [Element.beqList, ElementValue.beq_iff value value', Element.beqList_iff rest rest']
  | [], _ :: _ => by simp [Element.beqList]
  | _ :: _, [] => by simp [Element.beqList]

theorem ElementValue.beq_iff : ∀ a b : ElementValue, a.beq b = true ↔ a = b
  | .constant .., b => by cases b <;> simp [ElementValue.beq]
  | .enumConstant .., b => by cases b <;> simp [ElementValue.beq]
  | .classLiteral _, b => by cases b <;> simp [ElementValue.beq]
  | .nested a, b => by cases b <;> simp [ElementValue.beq, AnnotationUse.beq_iff a]
  | .array values, b => by cases b <;> simp [ElementValue.beq, ElementValue.beqList_iff values]

theorem ElementValue.beqList_iff :
    ∀ as bs : List ElementValue, ElementValue.beqList as bs = true ↔ as = bs
  | [], [] => by simp [ElementValue.beqList]
  | v :: rest, v' :: rest' => by
    simp [ElementValue.beqList, ElementValue.beq_iff v v', ElementValue.beqList_iff rest rest']
  | [], _ :: _ => by simp [ElementValue.beqList]
  | _ :: _, [] => by simp [ElementValue.beqList]

end

instance : DecidableEq AnnotationUse := fun a b => decidable_of_iff _ (AnnotationUse.beq_iff a b)

instance : DecidableEq ElementValue := fun a b => decidable_of_iff _ (ElementValue.beq_iff a b)

instance : DecidableEq Element := fun a b =>
  decidable_of_iff (a.nameIndex = b.nameIndex ∧ a.value = b.value) (by cases a; cases b; simp)

end ClassWeave
