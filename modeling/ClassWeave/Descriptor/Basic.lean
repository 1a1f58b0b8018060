/-!
# Field and method types

The types that descriptors write down, and their written form.

**Slots.** A value of type `long` or `double` takes two slots of the local variables and of the
operand stack; every other value, arrays of wide values included, takes one.

**Kinds** (`ValueKind`). Loads and returns know only five kinds of values: the types narrower than
`int` are handled as `int`, and arrays as references.
-/

namespace ClassWeave

inductive Primitive where
  | boolean
  | byte
  | char
  | short
  | int
  | long
  | float
  | double
  deriving DecidableEq

/-- A type that a field or a parameter can have. -/
inductive FieldType where
  | primitive (type : Primitive)
  /-- A class or interface, by its internal name. -/
  | reference (name : String)
  | array (element : FieldType)
  deriving DecidableEq

/-- The parameters and the result of a method; no result is `void`. -/
structure MethodType where
  params : List FieldType
  result : Option FieldType
  deriving DecidableEq

/-- The kinds of values that loads and returns tell apart. -/
inductive ValueKind where
  | int
  | long
  | float
  | double
  | reference
  deriving DecidableEq

/-- A type without the names and dimensions in it. -/
inductive Category where
  | primitive (type : Primitive)
  | reference
  | void
  deriving DecidableEq

/-! ## Written form -/

def Primitive.code : Primitive → Char
  | boolean => 'Z'
  | byte => 'B'
  | char => 'C'
  | short => 'S'
  | int => 'I'
  | long => 'J'
  | float => 'F'
  | double => 'D'

/-- The primitive type that a letter stands for. -/
def Primitive.ofCode? : Char → Option Primitive
  | 'Z' => some boolean
  | 'B' => some byte
  | 'C' => some char
  | 'S' => some short
  | 'I' => some int
  | 'J' => some long
  | 'F' => some float
  | 'D' => some double
  | _ => none

theorem Primitive.ofCode?_code (p : Primitive) : ofCode? p.code = some p := by
  cases p <;> rfl

/-- A letter stands for the primitive type that is written with it. -/
theorem Primitive.code_of_ofCode? {c : Char} {p : Primitive} (h : ofCode? c = some p) :
    p.code = c := by
  unfold ofCode? at h
  split at h <;> cases h <;> rfl

def FieldType.chars : FieldType → List Char
  | primitive p => [p.code]
  | reference name => 'L' :: name.toList ++ [';']
  | array element => '[' :: element.chars

def FieldType.text (t : FieldType) : String := String.ofList t.chars

def MethodType.chars (m : MethodType) : List Char :=
  '(' :: m.params.flatMap FieldType.chars ++ ')' :: (m.result.map FieldType.chars).getD ['V']

def MethodType.text (m : MethodType) : String := String.ofList m.chars

/-! ## Slots and kinds -/

def ValueKind.slots : ValueKind → Nat
  | long | double => 2
  | int | float | reference => 1

def Primitive.kind : Primitive → ValueKind
  | boolean | byte | char | short | int => .int
  | long => .long
  | float => .float
  | double => .double

def FieldType.kind : FieldType → ValueKind
  | primitive p => p.kind
  | reference _ | array _ => .reference

def FieldType.slots (t : FieldType) : Nat := t.kind.slots

def FieldType.dimensions : FieldType → Nat
  | array element => element.dimensions + 1
  | primitive _ | reference _ => 0

def FieldType.category : FieldType → Category
  | primitive p => .primitive p
  | reference _ | array _ => .reference

/-- The kind of the category's values; `void` has none. -/
def Category.kind? : Category → Option ValueKind
  | primitive p => some p.kind
  | reference => some .reference
  | void => none

/-- The slots that the parameters of a static method fill. They are counted without a bound, where a
word has room for 65535; the types that descriptors give have at most 255. -/
def MethodType.paramSlots (m : MethodType) : Nat :=
  m.params.foldr (fun t n => t.slots + n) 0

def MethodType.resultSlots (m : MethodType) : Nat := (m.result.map FieldType.slots).getD 0

def MethodType.resultCategory (m : MethodType) : Category :=
  (m.result.map FieldType.category).getD .void

end ClassWeave
