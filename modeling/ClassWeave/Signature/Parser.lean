import ClassWeave.Signature.Basic

/-!
# Reading generic signatures

Each reader takes one phrase from the front of the text and leaves the rest, or answers `none`.

**Class bounds.** The class bound of a type parameter may be left out; a bound is read whenever
the next character can begin one. So after a parameter without any bound, a parameter whose name
begins with `L`, `T` or `[` is taken for the bound.

**Fuel.** Every second call takes a character, so three times the length of the text is enough. It
is worked out once for the text (`signatureFuel`) and serves for every phrase in it.
-/

namespace ClassWeave

/-- Reads a name up to the first of the `stops`, which is left. -/
def readName (stops : List Char) (cs : List Char) : Option (String × List Char) :=
  match cs.span fun c => !stops.contains c with
  | (_, []) => none
  | ([], _) => none
  | (name, rest) => some (String.ofList name, rest)

def readChar (c : Char) : List Char → Option (List Char)
  | [] => none
  | d :: rest => if d = c then some rest else none

mutual

def readReference : Nat → List Char → Option (ReferenceSignature × List Char)
  | fuel + 1, 'L' :: cs => do
    let (outer, rest) ← readName ['<', '.', ';'] cs
    let (arguments, rest) ← readArguments fuel rest
    let (inner, rest) ← readInner fuel rest []
    return (.classType outer arguments inner, ← readChar ';' rest)
  | _ + 1, 'T' :: cs => do
    let (name, rest) ← readName [';'] cs
    return (.variable name, ← readChar ';' rest)
  | fuel + 1, '[' :: cs => do
    let (element, rest) ← readType fuel cs
    return (.array element, rest)
  | _, _ => none

def readType : Nat → List Char → Option (TypeSignature × List Char)
  | fuel + 1, c :: cs =>
    match Primitive.ofCode? c with
    | some p => some (.primitive p, cs)
    | none => do
      let (type, rest) ← readReference fuel (c :: cs)
      return (.reference type, rest)
  | _, _ => none

/-- Reads the bracketed arguments, if there are any. -/
def readArguments : Nat → List Char → Option (List TypeArgument × List Char)
  | fuel + 1, '<' :: cs => readArgumentList fuel cs []
  | _ + 1, cs => some ([], cs)
  | 0, _ => none

/-- Reads at least one argument and the closing bracket. -/
def readArgumentList :
    Nat → List Char → List TypeArgument → Option (List TypeArgument × List Char)
  | fuel + 1, cs, found => do
    let (argument, rest) ← readArgument fuel cs
    match rest with
    | '>' :: rest => some ((argument :: found).reverse, rest)
    | rest => readArgumentList fuel rest (argument :: found)
  | 0, _, _ => none

def readArgument : Nat → List Char → Option (TypeArgument × List Char)
  | _ + 1, '*' :: cs => some (.any, cs)
  | fuel + 1, '+' :: cs => do
    let (bound, rest) ← readReference fuel cs
    return (.type (some .extends) bound, rest)
  | fuel + 1, '-' :: cs => do
    let (bound, rest) ← readReference fuel cs
    return (.type (some .super) bound, rest)
  | fuel + 1, cs => do
    let (bound, rest) ← readReference fuel cs
    return (.type none bound, rest)
  | 0, _ => none

def readInner : Nat → List Char → List InnerClass → Option (List InnerClass × List Char)
  | fuel + 1, '.' :: cs, found => do
    let (name, rest) ← readName ['<', '.', ';'] cs
    let (arguments, rest) ← readArguments fuel rest
    readInner fuel rest (⟨name, arguments⟩ :: found)
  | _ + 1, cs, found => some (found.reverse, cs)
  | 0, _, _ => none

end

/-- The fuel that is enough for every phrase of a text. -/
def signatureFuel (cs : List Char) : Nat := 3 * cs.length + 3

/-- Reads a class bound, if the next character can begin one. -/
def readClassBound (fuel : Nat) : List Char → Option (Option ReferenceSignature × List Char)
  | [] => some (none, [])
  | c :: cs =>
    if c = 'L' ∨ c = 'T' ∨ c = '[' then do
      let (bound, rest) ← readReference fuel (c :: cs)
      return (some bound, rest)
    else some (none, c :: cs)

def readMarked (mark : Char) :
    Nat → List Char → List ReferenceSignature → Option (List ReferenceSignature × List Char)
  | _, [], found => some (found.reverse, [])
  | 0, cs, found => some (found.reverse, cs)
  | fuel + 1, c :: cs, found =>
    if c = mark then do
      let (type, rest) ← readReference fuel cs
      readMarked mark fuel rest (type :: found)
    else some (found.reverse, c :: cs)

def readTypeParameter (fuel : Nat) (cs : List Char) : Option (TypeParameter × List Char) := do
  let (name, rest) ← readName [':'] cs
  let rest ← readChar ':' rest
  let (classBound, rest) ← readClassBound fuel rest
  let (interfaceBounds, rest) ← readMarked ':' fuel rest []
  return (⟨name, classBound, interfaceBounds⟩, rest)

/-- Reads at least one type parameter and the closing bracket. -/
def readTypeParameters :
    Nat → List Char → List TypeParameter → Option (List TypeParameter × List Char)
  | 0, _, _ => none
  | fuel + 1, cs, found => do
    let (param, rest) ← readTypeParameter fuel cs
    match rest with
    | '>' :: rest => some ((param :: found).reverse, rest)
    | rest => readTypeParameters fuel rest (param :: found)

def readTypes : Nat → List Char → List TypeSignature → Option (List TypeSignature × List Char)
  | _, ')' :: rest, found => some (found.reverse, rest)
  | 0, _, _ => none
  | fuel + 1, cs, found => do
    let (type, rest) ← readType fuel cs
    readTypes fuel rest (type :: found)

def readResultSignature (fuel : Nat) : List Char → Option (Option TypeSignature × List Char)
  | 'V' :: rest => some (none, rest)
  | cs => do
    let (type, rest) ← readType fuel cs
    return (some type, rest)

/-- Reads reference types to the end of the text. -/
def readSupertypes : Nat → List Char → List ReferenceSignature → Option (List ReferenceSignature)
  | _, [], found => some found.reverse
  | 0, _, _ => none
  | fuel + 1, cs, found => do
    let (type, rest) ← readReference fuel cs
    readSupertypes fuel rest (type :: found)

/-- Reads what follows the type parameters, to the end of the text. -/
def readSignatureBody (fuel : Nat) : List Char → Option SignatureBody
  | '(' :: cs => do
    let (params, rest) ← readTypes fuel cs []
    let (result, rest) ← readResultSignature fuel rest
    let (throws, rest) ← readMarked '^' fuel rest []
    if rest.isEmpty then some (.method params result throws) else none
  | cs => do
    let (first, rest) ← readReference fuel cs
    return .types first (← readSupertypes fuel rest [])

def readSignature (fuel : Nat) : List Char → Option Signature
  | '<' :: cs => do
    let (typeParams, rest) ← readTypeParameters fuel cs []
    return ⟨typeParams, ← readSignatureBody fuel rest⟩
  | cs => do return ⟨[], ← readSignatureBody fuel cs⟩

def Signature.parse? (s : String) : Option Signature :=
  readSignature (signatureFuel s.toList) s.toList

end ClassWeave
