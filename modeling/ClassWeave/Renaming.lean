import ClassWeave.Descriptor.Parser
import ClassWeave.Signature.Parser

/-!
# Renamings of classes

A *renaming* gives some internal names a new name and keeps the others.

**Texts.** A renaming acts on the texts in which classes are named: on names of class entries
(`Renaming.typeName`), on descriptors (`Renaming.descriptor`) and on generic signatures
(`Renaming.signature`). Each answers `none` when no name in the text is given a new one.

**Descriptors as pieces.** A descriptor is cut at each `L` and at the `;` that ends its name
(`pieces`), so every text can be renamed, a well-formed descriptor or not; a name without its `;`
is left alone.
-/

namespace ClassWeave

abbrev Renaming := String → Option String

namespace Renaming

def apply (r : Renaming) (name : String) : String := (r name).getD name

/-- Moves the package `source` and all below it to `target`. -/
def move (source target : String) : Renaming := fun name =>
  match source.toList.isPrefixOf? name.toList with
  | none => none
  | some [] => some target
  | some ('/' :: rest) => some (target ++ String.ofList ('/' :: rest))
  | some _ => none

def ofTable (table : List (String × String)) : Renaming := fun name => table.lookup name

/-! ## Descriptors -/

/-- A stretch of a descriptor: `lead` up to and including an `L`, and the name after it. -/
structure Piece where
  lead : List Char
  name : String

/-- Cuts a text into its named pieces and the tail after the last of them. -/
def pieces : Nat → List Char → List Piece → List Piece × List Char
  | 0, cs, found => (found.reverse, cs)
  | fuel + 1, cs, found =>
    match cs.span (· != 'L') with
    | (lead, 'L' :: rest) =>
      match rest.span (· != ';') with
      | (name, _ :: rest) => pieces fuel rest (⟨lead ++ ['L'], String.ofList name⟩ :: found)
      | (_, []) => (found.reverse, cs)
    | _ => (found.reverse, cs)

def Piece.rename (r : Renaming) (p : Piece) : List Char :=
  p.lead ++ ((r.apply p.name).toList ++ [';'])

def descriptor (r : Renaming) (s : String) : Option String :=
  let (named, tail) := pieces s.length s.toList []
  if named.any fun p => (r p.name).isSome then
    some (String.ofList (named.flatMap (·.rename r) ++ tail))
  else none

/-- Renames the name of a class entry, which for an array is a descriptor. -/
def typeName (r : Renaming) (name : String) : Option String :=
  match name.toList with
  | '[' :: _ => r.descriptor name
  | _ => r name

/-! ## Signatures -/

def signature (r : Renaming) (s : String) : Except DescriptorError (Option String) :=
  match Signature.parse? s with
  | none => .error (.invalidSignature s)
  | some sig =>
    .ok <| if sig.outerNames.any fun n => (r n).isSome then some (sig.mapOuter r.apply).text
      else none

end Renaming

end ClassWeave
