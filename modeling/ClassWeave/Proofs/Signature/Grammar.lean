import Mathlib.Data.List.Chain

/-!
# The grammar of signatures

The grammar of generic signatures (JVMS 4.7.9.1), production by production.

**Terminal symbols** (`Grammar.Terminal`). A derivation ends in characters, which stand for
themselves, and in the outer names of class types, which are told apart from other names. So a
derived sequence of symbols has a text, a list of outer names, and a text with other outer names in
their places.

**Derivations** (`Grammar.Derives`). The phrases that occur within each other are derived by one
relation, with a rule for each production. Signatures are made of them (`Grammar.IsSignature`).

**Ambiguity** (`Grammar.Unambiguous`). Behind a type parameter without any bound, a type parameter
that begins with `L` or `T` reads like a bound.
-/

namespace ClassWeave

namespace Grammar

/-! ## Terminal symbols -/

/-- What a derivation ends in. -/
inductive Terminal where
  /-- A character that stands for itself. -/
  | char (c : Char)
  /-- The outer name of a class type, with its packages. -/
  | outer (name : String)

namespace Terminal

/-- The characters of a symbol when outer names are replaced. -/
def chars (f : String → String) : Terminal → List Char
  | char c => [c]
  | outer name => (f name).toList

def outer? : Terminal → Option String
  | char _ => none
  | outer name => some name

def letters (name : String) : List Terminal := name.toList.map char

/-- The characters of some symbols when outer names are replaced. -/
def spell (f : String → String) (symbols : List Terminal) : List Char := symbols.flatMap (chars f)

/-- The text of some symbols when outer names are replaced. -/
def textWith (f : String → String) (symbols : List Terminal) : String :=
  String.ofList (spell f symbols)

def text (symbols : List Terminal) : String := textWith id symbols

/-- The outer names among some symbols. -/
def outerNames (symbols : List Terminal) : List String := symbols.filterMap outer?

theorem spell_append (f : String → String) (s t : List Terminal) :
    spell f (s ++ t) = spell f s ++ spell f t := List.flatMap_append

theorem outerNames_append (s t : List Terminal) :
    outerNames (s ++ t) = outerNames s ++ outerNames t := List.filterMap_append

end Terminal

open Terminal (letters)

/-! ## Names -/

/-- The characters that no identifier holds. -/
def reserved : List Char := ['.', ';', '[', '/', '<', '>', ':']

def IsIdentifier (name : String) : Prop := name ≠ "" ∧ ∀ c ∈ name.toList, c ∉ reserved

instance (name : String) : Decidable (IsIdentifier name) :=
  decidable_of_iff (name ≠ "" ∧ name.toList.all (!reserved.contains ·)) (by simp [IsIdentifier])

/-- The name of a class: an identifier behind the packages that it is in. -/
inductive IsClassName : String → Prop
  | simple {name : String} : IsIdentifier name → IsClassName name
  | inside {package name : String} : IsIdentifier package → IsClassName name →
    IsClassName (package ++ "/" ++ name)

/-! ## Derivations -/

/-- The phrases that occur within each other. -/
inductive Phrase where
  | javaType
  | referenceType
  | classType
  | typeVariable
  | arrayType
  /-- The arguments in their brackets, which may be left out. -/
  | typeArguments
  | typeArgument
  /-- An inner class, behind the class that it belongs to. -/
  | classSuffix

/-- The characters that stand for primitive types. -/
def baseTypes : List Char := ['B', 'C', 'D', 'F', 'I', 'J', 'S', 'Z']

/-- The phrase is derived as the symbols. -/
inductive Derives : Phrase → List Terminal → Prop
  | baseType {c : Char} : c ∈ baseTypes → Derives .javaType [.char c]
  | reference {t : List Terminal} : Derives .referenceType t → Derives .javaType t
  | ofClass {t : List Terminal} : Derives .classType t → Derives .referenceType t
  | ofVariable {t : List Terminal} : Derives .typeVariable t → Derives .referenceType t
  | ofArray {t : List Terminal} : Derives .arrayType t → Derives .referenceType t
  | classType {name : String} {arguments : List Terminal} {suffixes : List (List Terminal)} :
    IsClassName name → Derives .typeArguments arguments →
    (∀ s ∈ suffixes, Derives .classSuffix s) →
    Derives .classType
      (.char 'L' :: .outer name :: (arguments ++ (suffixes.flatten ++ [.char ';'])))
  | typeVariable {name : String} : IsIdentifier name →
    Derives .typeVariable (.char 'T' :: (letters name ++ [.char ';']))
  | arrayType {t : List Terminal} : Derives .javaType t → Derives .arrayType (.char '[' :: t)
  | noArguments : Derives .typeArguments []
  | typeArguments {arguments : List (List Terminal)} : arguments ≠ [] →
    (∀ a ∈ arguments, Derives .typeArgument a) →
    Derives .typeArguments (.char '<' :: (arguments.flatten ++ [.char '>']))
  | any : Derives .typeArgument [.char '*']
  | exactly {t : List Terminal} : Derives .referenceType t → Derives .typeArgument t
  | extending {t : List Terminal} : Derives .referenceType t →
    Derives .typeArgument (.char '+' :: t)
  | above {t : List Terminal} : Derives .referenceType t → Derives .typeArgument (.char '-' :: t)
  | classSuffix {name : String} {arguments : List Terminal} : IsIdentifier name →
    Derives .typeArguments arguments →
    Derives .classSuffix (.char '.' :: (letters name ++ arguments))

/-! ## Signatures -/

/-- A type parameter: its name, the class bound, which may be left out, and the interface bounds. -/
structure Parameter where
  name : String
  classBound : Option (List Terminal)
  interfaceBounds : List (List Terminal)

namespace Parameter

def symbols (p : Parameter) : List Terminal :=
  letters p.name ++
    .char ':' :: (p.classBound.getD [] ++ p.interfaceBounds.flatMap (.char ':' :: ·))

structure Derivable (p : Parameter) : Prop where
  name : IsIdentifier p.name
  classBound : ∀ t ∈ p.classBound, Derives .referenceType t
  interfaceBounds : ∀ t ∈ p.interfaceBounds, Derives .referenceType t

def Unbounded (p : Parameter) : Prop := p.classBound = none ∧ p.interfaceBounds = []

/-- The type parameters in their brackets, which are left out around none. -/
def listSymbols : List Parameter → List Terminal
  | [] => []
  | p :: rest => .char '<' :: ((p :: rest).flatMap symbols ++ [.char '>'])

end Parameter

/-- The symbols are a signature of a field, a class or a method, with these type parameters. -/
inductive IsSignature : List Parameter → List Terminal → Prop
  | ofField {t : List Terminal} : Derives .referenceType t → IsSignature [] t
  | ofClass {params : List Parameter} {superclass : List Terminal}
      {interfaces : List (List Terminal)} :
    (∀ p ∈ params, p.Derivable) → Derives .classType superclass →
    (∀ t ∈ interfaces, Derives .classType t) →
    IsSignature params (Parameter.listSymbols params ++ (superclass ++ interfaces.flatten))
  | ofMethod {params : List Parameter} {types throws : List (List Terminal)}
      {result : List Terminal} :
    (∀ p ∈ params, p.Derivable) → (∀ t ∈ types, Derives .javaType t) →
    (result = [.char 'V'] ∨ Derives .javaType result) →
    (∀ t ∈ throws, Derives .classType t ∨ Derives .typeVariable t) →
    IsSignature params (Parameter.listSymbols params ++
      .char '(' :: (types.flatten ++ .char ')' :: (result ++ throws.flatMap (.char '^' :: ·))))

/-- No type parameter without any bound stands in front of one whose name begins with `L` or `T`. -/
def Unambiguous (params : List Parameter) : Prop :=
  params.IsChain fun p q => p.Unbounded → ∀ c ∈ q.name.toList.head?, c ≠ 'L' ∧ c ≠ 'T'

end Grammar

end ClassWeave
