import ClassWeave.Build.Identifier
import ClassWeave.ClassFile.Basic

/-!
# Platform markers

A method whose implementation is chosen by the platform carries one of two annotations. They differ
in the class that resolves the implementation: a fixed one, or the one of the build.
-/

namespace ClassWeave

inductive Marker where
  /-- An annotation kept at run time; the resolver is fixed. -/
  | legacy
  /-- An annotation kept in the class only; the resolver belongs to the build. -/
  | namespaced
  deriving DecidableEq

namespace Marker

def descriptor : Marker → String
  | legacy => "Lme/shedaniel/architectury/ExpectPlatform;"
  | namespaced => "Lme/shedaniel/architectury/annotations/ExpectPlatform;"

/-- One of the annotations has a type with the given descriptor; a type that cannot be looked up
does not count. -/
def isAmong (list : List AnnotationUse) (pool : ConstantPool) (descriptor : String) : Bool :=
  list.any fun a => (pool.utf8 a.typeIndex).toOption == some descriptor

/-- The marker of a method; the legacy one wins over the other. -/
def of? (m : Member) (pool : ConstantPool) : Option Marker :=
  if isAmong (visibleAnnotations m.attributes) pool legacy.descriptor then some legacy
  else if isAmong (invisibleAnnotations m.attributes) pool namespaced.descriptor then
    some namespaced
  else none

def resolver (i : Identifier) : Marker → String
  | legacy => "me/shedaniel/architectury/PlatformMethods"
  | namespaced => i.resolver

end Marker

end ClassWeave
