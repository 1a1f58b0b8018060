import ClassWeave.Descriptor.Basic

/-!
# Reading descriptors

A descriptor is read from the left, one type after the other. The limits of the format hold: at
most 255 array dimensions, and at most 255 slots of parameters.

**Main definitions.** `FieldType.parse` and `MethodType.parse` read a whole text; `readFieldType`
reads one type and leaves the rest.
-/

namespace ClassWeave

/-- Why a text is no descriptor. -/
inductive DescriptorFault where
  | missingOpen
  | missingClose
  | voidParameter
  | voidField
  | unknownCode
  | unexpectedEnd
  | unterminatedName
  | emptyName
  | tooManyDimensions
  | tooManySlots
  | trailing
  deriving DecidableEq

inductive DescriptorError where
  | invalidMethod (descriptor : String) (fault : DescriptorFault)
  | invalidType (descriptor : String) (fault : DescriptorFault)
  | invalidSignature (signature : String)
  deriving DecidableEq

def DescriptorFault.message : DescriptorFault → String
  | missingOpen => "missing '('"
  | missingClose => "missing ')'"
  | voidParameter => "void parameter"
  | voidField => "void is not a field type"
  | unknownCode => "unknown type code"
  | unexpectedEnd => "unexpected end of descriptor"
  | unterminatedName => "unterminated class name"
  | emptyName => "empty class name"
  | tooManyDimensions => "too many array dimensions"
  | tooManySlots => "parameters need more than 255 local slots"
  | trailing => "trailing characters"

def DescriptorError.message : DescriptorError → String
  | invalidMethod descriptor fault => s!"Invalid method descriptor '{descriptor}': {fault.message}"
  | invalidType descriptor fault => s!"Invalid type descriptor '{descriptor}': {fault.message}"
  | invalidSignature signature => s!"Invalid signature '{signature}'"

def maxDimensions : Nat := 255

def maxParamSlots : Nat := 255

def FieldType.withDimensions (t : FieldType) : Nat → FieldType
  | 0 => t
  | n + 1 => .array (t.withDimensions n)

/-- Reads a type that is no array. -/
def readElementType : List Char → Except DescriptorFault (FieldType × List Char)
  | [] => .error .unexpectedEnd
  | 'L' :: rest =>
    match rest.span (· != ';') with
    | (_, []) => .error .unterminatedName
    | ([], _) => .error .emptyName
    | (name, _ :: rest) => .ok (.reference (String.ofList name), rest)
  | 'V' :: _ => .error .voidField
  | c :: rest =>
    match Primitive.ofCode? c with
    | some p => .ok (.primitive p, rest)
    | none => .error .unknownCode

/-- Reads one type and leaves the rest. -/
def readFieldType (cs : List Char) : Except DescriptorFault (FieldType × List Char) := do
  let (brackets, rest) := cs.span (· == '[')
  if brackets.length > maxDimensions then throw .tooManyDimensions
  let (element, rest) ← readElementType rest
  return (element.withDimensions brackets.length, rest)

/-- Reads the parameters up to the closing bracket; the fuel is the count of characters. -/
def readParams : Nat → List Char → List FieldType →
    Except DescriptorFault (List FieldType × List Char)
  | _, [], _ => .error .missingClose
  | _, ')' :: rest, found => .ok (found.reverse, rest)
  | _, 'V' :: _, _ => .error .voidParameter
  | 0, _, _ => .error .missingClose
  | fuel + 1, cs, found => do
    let (type, rest) ← readFieldType cs
    readParams fuel rest (type :: found)

/-- Reads the result of a method and leaves the rest. -/
def readResult : List Char → Except DescriptorFault (Option FieldType × List Char)
  | 'V' :: rest => .ok (none, rest)
  | cs => do
    let (type, rest) ← readFieldType cs
    return (some type, rest)

def readMethodType : List Char → Except DescriptorFault MethodType
  | '(' :: cs => do
    let (params, rest) ← readParams cs.length cs []
    let (result, rest) ← readResult rest
    if !rest.isEmpty then throw .trailing
    let type : MethodType := ⟨params, result⟩
    if type.paramSlots > maxParamSlots then throw .tooManySlots
    return type
  | _ => .error .missingOpen

def FieldType.parse (s : String) : Except DescriptorError FieldType :=
  match readFieldType s.toList with
  | .error fault => .error (.invalidType s fault)
  | .ok (type, []) => .ok type
  | .ok _ => .error (.invalidType s .trailing)

def MethodType.parse (s : String) : Except DescriptorError MethodType :=
  match readMethodType s.toList with
  | .error fault => .error (.invalidMethod s fault)
  | .ok type => .ok type

end ClassWeave
