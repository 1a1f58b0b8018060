import ClassWeave.Descriptor.Basic

/-!
# Generic signatures

The trees that generic signatures write down, and their written form.

**Class types.** A class type names an outer class by its internal name and then inner classes by
simple names, each with type arguments. Only the *outer* name refers to a class on its own.

**Main definitions.** `Signature.chars` writes a signature; `Signature.outerNames` lists the outer
names in written order, and `Signature.mapOuter` replaces them.
-/

namespace ClassWeave

/-- The side on which a type argument is bounded. -/
inductive Wildcard where
  | extends
  | super
  deriving DecidableEq

mutual

/-- A type that is no primitive. -/
inductive ReferenceSignature where
  | variable (name : String)
  | array (element : TypeSignature)
  | classType (outer : String) (arguments : List TypeArgument) (inner : List InnerClass)

inductive TypeSignature where
  | primitive (type : Primitive)
  | reference (type : ReferenceSignature)

/-- An argument of a generic class; no argument list is the empty one. -/
inductive TypeArgument where
  | any
  | type (wildcard : Option Wildcard) (bound : ReferenceSignature)

/-- An inner class, by its simple name. -/
structure InnerClass where
  name : String
  arguments : List TypeArgument

end

structure TypeParameter where
  name : String
  classBound : Option ReferenceSignature
  interfaceBounds : List ReferenceSignature

/-- What the type parameters stand before. -/
inductive SignatureBody where
  | method (params : List TypeSignature) (result : Option TypeSignature)
      (throws : List ReferenceSignature)
  /-- The type of a field, or a superclass followed by interfaces. -/
  | types (first : ReferenceSignature) (rest : List ReferenceSignature)

/-- A signature; no type parameter list is the empty one. -/
structure Signature where
  typeParams : List TypeParameter
  body : SignatureBody

/-! ## Written form

Each part is written in front of what follows it, so that nothing is written twice.
-/

def Wildcard.code : Wildcard → Char
  | .extends => '+'
  | .super => '-'

mutual

def ReferenceSignature.chars : ReferenceSignature → List Char → List Char
  | .variable name, after => 'T' :: name.toList ++ ';' :: after
  | .array element, after => '[' :: element.chars after
  | .classType outer arguments inner, after =>
    'L' :: outer.toList ++
      TypeArgument.listChars arguments (InnerClass.listChars inner (';' :: after))

def TypeSignature.chars : TypeSignature → List Char → List Char
  | .primitive p, after => p.code :: after
  | .reference r, after => r.chars after

def TypeArgument.chars : TypeArgument → List Char → List Char
  | .any, after => '*' :: after
  | .type none bound, after => bound.chars after
  | .type (some w) bound, after => w.code :: bound.chars after

/-- The arguments without their brackets. -/
def TypeArgument.manyChars : List TypeArgument → List Char → List Char
  | [], after => after
  | a :: rest, after => a.chars (TypeArgument.manyChars rest after)

/-- The arguments in their brackets, which are left out around no arguments. -/
def TypeArgument.listChars : List TypeArgument → List Char → List Char
  | [], after => after
  | a :: rest, after => '<' :: a.chars (TypeArgument.manyChars rest ('>' :: after))

def InnerClass.listChars : List InnerClass → List Char → List Char
  | [], after => after
  | ⟨name, arguments⟩ :: rest, after =>
    '.' :: name.toList ++ TypeArgument.listChars arguments (InnerClass.listChars rest after)

end

/-- Types one after the other, each behind a mark. -/
def ReferenceSignature.markedChars (mark : Char) (list : List ReferenceSignature)
    (after : List Char) : List Char :=
  list.foldr (fun t after => mark :: t.chars after) after

def TypeParameter.chars (p : TypeParameter) (after : List Char) : List Char :=
  let bounds := ReferenceSignature.markedChars ':' p.interfaceBounds after
  p.name.toList ++ ':' :: match p.classBound with
    | none => bounds
    | some b => b.chars bounds

def SignatureBody.chars : SignatureBody → List Char
  | method params result throws =>
    let throws := ReferenceSignature.markedChars '^' throws []
    let result := match result with
      | none => 'V' :: throws
      | some t => t.chars throws
    '(' :: params.foldr TypeSignature.chars (')' :: result)
  | types first rest => first.chars (rest.foldr ReferenceSignature.chars [])

def Signature.chars (s : Signature) : List Char :=
  match s.typeParams with
  | [] => s.body.chars
  | ps => '<' :: ps.foldr TypeParameter.chars ('>' :: s.body.chars)

/-- The written form of a signature. -/
def Signature.text (s : Signature) : String := String.ofList s.chars

/-! ## Outer names

Names are listed in front of those that follow, in the way that parts are written.
-/

mutual

def ReferenceSignature.outerNames : ReferenceSignature → List String → List String
  | .variable _, after => after
  | .array element, after => element.outerNames after
  | .classType outer arguments inner, after =>
    outer :: TypeArgument.listOuterNames arguments (InnerClass.listOuterNames inner after)

def TypeSignature.outerNames : TypeSignature → List String → List String
  | .primitive _, after => after
  | .reference r, after => r.outerNames after

def TypeArgument.outerNames : TypeArgument → List String → List String
  | .any, after => after
  | .type _ bound, after => bound.outerNames after

def TypeArgument.listOuterNames : List TypeArgument → List String → List String
  | [], after => after
  | a :: rest, after => a.outerNames (TypeArgument.listOuterNames rest after)

def InnerClass.listOuterNames : List InnerClass → List String → List String
  | [], after => after
  | ⟨_, arguments⟩ :: rest, after =>
    TypeArgument.listOuterNames arguments (InnerClass.listOuterNames rest after)

end

def TypeParameter.outerNames (p : TypeParameter) (after : List String) : List String :=
  p.classBound.toList.foldr ReferenceSignature.outerNames
    (p.interfaceBounds.foldr ReferenceSignature.outerNames after)

def SignatureBody.outerNames : SignatureBody → List String
  | method params result throws =>
    params.foldr TypeSignature.outerNames (result.toList.foldr TypeSignature.outerNames
      (throws.foldr ReferenceSignature.outerNames []))
  | types first rest => first.outerNames (rest.foldr ReferenceSignature.outerNames [])

/-- The outer class names in written order. -/
def Signature.outerNames (s : Signature) : List String :=
  s.typeParams.foldr TypeParameter.outerNames s.body.outerNames

mutual

def ReferenceSignature.mapOuter (f : String → String) : ReferenceSignature → ReferenceSignature
  | .variable name => .variable name
  | .array element => .array (element.mapOuter f)
  | .classType outer arguments inner =>
    .classType (f outer) (TypeArgument.mapOuterList f arguments) (InnerClass.mapOuterList f inner)

def TypeSignature.mapOuter (f : String → String) : TypeSignature → TypeSignature
  | .primitive p => .primitive p
  | .reference r => .reference (r.mapOuter f)

def TypeArgument.mapOuter (f : String → String) : TypeArgument → TypeArgument
  | .any => .any
  | .type wildcard bound => .type wildcard (bound.mapOuter f)

def TypeArgument.mapOuterList (f : String → String) : List TypeArgument → List TypeArgument
  | [] => []
  | a :: rest => a.mapOuter f :: TypeArgument.mapOuterList f rest

def InnerClass.mapOuterList (f : String → String) : List InnerClass → List InnerClass
  | [] => []
  | ⟨name, arguments⟩ :: rest =>
    ⟨name, TypeArgument.mapOuterList f arguments⟩ :: InnerClass.mapOuterList f rest

end

def TypeParameter.mapOuter (f : String → String) (p : TypeParameter) : TypeParameter :=
  { p with
    classBound := p.classBound.map (·.mapOuter f)
    interfaceBounds := p.interfaceBounds.map (·.mapOuter f) }

def SignatureBody.mapOuter (f : String → String) : SignatureBody → SignatureBody
  | method params result throws =>
    method (params.map (·.mapOuter f)) (result.map (·.mapOuter f)) (throws.map (·.mapOuter f))
  | types first rest => types (first.mapOuter f) (rest.map (·.mapOuter f))

/-- Replaces the outer class names. -/
def Signature.mapOuter (f : String → String) (s : Signature) : Signature :=
  ⟨s.typeParams.map (·.mapOuter f), s.body.mapOuter f⟩

end ClassWeave
