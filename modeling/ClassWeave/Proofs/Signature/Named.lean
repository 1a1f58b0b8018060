import ClassWeave.Signature.Basic
import Mathlib.Data.List.Chain

/-!
# Signatures that can be read back

**Names** (`Signature.IsName`). A name is not empty, and it holds none of the characters that end
it.

**Named signatures** (`Signature.Named`). All names of the signature are names, and no type
parameter begins like a bound of the one in front of it. These are the signatures whose written form
says what they are.

**Replaced names.** When names are replaced by names, a named signature stays named
(`Signature.Named.mapOuter`), and it lists the images of what it listed
(`Signature.outerNames_mapOuter`).
-/

namespace ClassWeave

/-- The text is not empty, and it holds none of the stops. -/
def Signature.IsName (stops : List Char) (name : String) : Prop :=
  name ≠ "" ∧ ∀ c ∈ name.toList, c ∉ stops

/-- The characters that end the name of a class. -/
def Signature.classStops : List Char := ['<', '.', ';']

/-- Names of classes are replaced by names of classes. -/
def Signature.KeepsNames (f : String → String) : Prop :=
  ∀ name, IsName classStops name → IsName classStops (f name)

open Signature (IsName classStops KeepsNames)

/-! ## Named signatures -/

mutual

def ReferenceSignature.Named : ReferenceSignature → Prop
  | .variable name => IsName [';'] name
  | .array element => element.Named
  | .classType outer arguments inner =>
    IsName classStops outer ∧ TypeArgument.ListNamed arguments ∧ InnerClass.ListNamed inner

def TypeSignature.Named : TypeSignature → Prop
  | .primitive _ => True
  | .reference r => r.Named

def TypeArgument.Named : TypeArgument → Prop
  | .any => True
  | .type _ bound => bound.Named

def TypeArgument.ListNamed : List TypeArgument → Prop
  | [] => True
  | a :: rest => a.Named ∧ TypeArgument.ListNamed rest

def InnerClass.ListNamed : List InnerClass → Prop
  | [] => True
  | ⟨name, arguments⟩ :: rest =>
    IsName classStops name ∧ TypeArgument.ListNamed arguments ∧ InnerClass.ListNamed rest

end

/-- The characters that a reference type begins with. -/
def ReferenceSignature.codes : List Char := ['L', 'T', '[']

namespace TypeParameter

structure Named (p : TypeParameter) : Prop where
  name : IsName [':'] p.name
  classBound : ∀ t ∈ p.classBound, t.Named
  interfaceBounds : ∀ t ∈ p.interfaceBounds, t.Named

/-- The type parameter ends where the characters begin: if it has no bounds, they do not begin
one. -/
def EndsAt (p : TypeParameter) (after : List Char) : Prop :=
  p.classBound = none → p.interfaceBounds = [] → ∀ c ∈ after.head?, c ∉ ReferenceSignature.codes

/-- The characters can be a type parameter behind the first one: they do not end the list either. -/
def CanPrecede (p : TypeParameter) (after : List Char) : Prop :=
  after.head? ≠ some '>' ∧ p.EndsAt after

end TypeParameter

def SignatureBody.Named : SignatureBody → Prop
  | method params result throws =>
    (∀ t ∈ params, t.Named) ∧ (∀ t ∈ result, t.Named) ∧ ∀ t ∈ throws, t.Named
  | types first rest => first.Named ∧ ∀ t ∈ rest, t.Named

/-- Every name is one, and each type parameter can stand behind the one in front of it. -/
structure Signature.Named (s : Signature) : Prop where
  params : ∀ p ∈ s.typeParams, p.Named
  ordered : s.typeParams.IsChain fun p q => p.CanPrecede q.name.toList
  body : s.body.Named

/-! ## Replaced names -/

section

variable {f : String → String}

mutual

theorem ReferenceSignature.Named.mapOuter (hf : KeepsNames f) :
    ∀ t : ReferenceSignature, t.Named → (t.mapOuter f).Named
  | .variable _, named => named
  | .array element, named => TypeSignature.Named.mapOuter hf element named
  | .classType outer arguments inner, ⟨houter, harguments, hinner⟩ =>
    ⟨hf outer houter, TypeArgument.ListNamed.mapOuter hf arguments harguments,
      InnerClass.ListNamed.mapOuter hf inner hinner⟩

theorem TypeSignature.Named.mapOuter (hf : KeepsNames f) :
    ∀ t : TypeSignature, t.Named → (t.mapOuter f).Named
  | .primitive _, _ => trivial
  | .reference r, named => ReferenceSignature.Named.mapOuter hf r named

theorem TypeArgument.Named.mapOuter (hf : KeepsNames f) :
    ∀ a : TypeArgument, a.Named → (a.mapOuter f).Named
  | .any, _ => trivial
  | .type _ bound, named => ReferenceSignature.Named.mapOuter hf bound named

theorem TypeArgument.ListNamed.mapOuter (hf : KeepsNames f) :
    ∀ as : List TypeArgument, TypeArgument.ListNamed as →
      TypeArgument.ListNamed (TypeArgument.mapOuterList f as)
  | [], _ => trivial
  | a :: rest, ⟨ha, hrest⟩ =>
    ⟨TypeArgument.Named.mapOuter hf a ha, TypeArgument.ListNamed.mapOuter hf rest hrest⟩

theorem InnerClass.ListNamed.mapOuter (hf : KeepsNames f) :
    ∀ is : List InnerClass, InnerClass.ListNamed is →
      InnerClass.ListNamed (InnerClass.mapOuterList f is)
  | [], _ => trivial
  | ⟨_, arguments⟩ :: rest, ⟨hname, harguments, hrest⟩ =>
    ⟨hname, TypeArgument.ListNamed.mapOuter hf arguments harguments,
      InnerClass.ListNamed.mapOuter hf rest hrest⟩

end

theorem TypeParameter.Named.mapOuter (hf : KeepsNames f) {p : TypeParameter} (named : p.Named) :
    (p.mapOuter f).Named where
  name := named.name
  classBound t ht := by
    obtain ⟨b, hb, rfl⟩ := Option.map_eq_some_iff.1 ht
    exact ReferenceSignature.Named.mapOuter hf b (named.classBound b hb)
  interfaceBounds := by
    refine List.forall_mem_map.2 fun b hb => ?_
    exact ReferenceSignature.Named.mapOuter hf b (named.interfaceBounds b hb)

theorem SignatureBody.Named.mapOuter (hf : KeepsNames f) {b : SignatureBody} (named : b.Named) :
    (b.mapOuter f).Named := by
  cases b with
  | method params result throws =>
    obtain ⟨hparams, hresult, hthrows⟩ := named
    refine ⟨List.forall_mem_map.2 fun t ht => ?_, fun t ht => ?_,
      List.forall_mem_map.2 fun t ht => ?_⟩
    · exact TypeSignature.Named.mapOuter hf t (hparams t ht)
    · obtain ⟨u, hu, rfl⟩ := Option.map_eq_some_iff.1 ht
      exact TypeSignature.Named.mapOuter hf u (hresult u hu)
    · exact ReferenceSignature.Named.mapOuter hf t (hthrows t ht)
  | types first rest =>
    refine ⟨ReferenceSignature.Named.mapOuter hf first named.1,
      List.forall_mem_map.2 fun t ht => ?_⟩
    exact ReferenceSignature.Named.mapOuter hf t (named.2 t ht)

/-- **A named signature** stays named when its outer names are replaced by names. -/
theorem Signature.Named.mapOuter (hf : KeepsNames f) {s : Signature} (named : s.Named) :
    (s.mapOuter f).Named where
  params := List.forall_mem_map.2 fun p hp => (named.params p hp).mapOuter hf
  ordered := by
    -- Type parameters keep their names, and no bound appears or goes.
    refine (List.isChain_map _).2 (named.ordered.imp fun p q precedes => ?_)
    refine ⟨precedes.1, fun none nil => precedes.2 ?_ ?_⟩
    · exact Option.map_eq_none_iff.1 none
    · exact List.map_eq_nil_iff.1 nil
  body := named.body.mapOuter hf

end

section

variable (f : String → String)

mutual

theorem ReferenceSignature.outerNames_mapOuter : ∀ (t : ReferenceSignature) (after : List String),
    (t.mapOuter f).outerNames (after.map f) = (t.outerNames after).map f
  | .variable _, _ => rfl
  | .array element, after => TypeSignature.outerNames_mapOuter element after
  | .classType outer arguments inner, after => by
    rw [ReferenceSignature.mapOuter, ReferenceSignature.outerNames, ReferenceSignature.outerNames,
      InnerClass.listOuterNames_mapOuter inner, TypeArgument.listOuterNames_mapOuter arguments,
      List.map_cons]

theorem TypeSignature.outerNames_mapOuter : ∀ (t : TypeSignature) (after : List String),
    (t.mapOuter f).outerNames (after.map f) = (t.outerNames after).map f
  | .primitive _, _ => rfl
  | .reference r, after => ReferenceSignature.outerNames_mapOuter r after

theorem TypeArgument.outerNames_mapOuter : ∀ (a : TypeArgument) (after : List String),
    (a.mapOuter f).outerNames (after.map f) = (a.outerNames after).map f
  | .any, _ => rfl
  | .type _ bound, after => ReferenceSignature.outerNames_mapOuter bound after

theorem TypeArgument.listOuterNames_mapOuter : ∀ (as : List TypeArgument) (after : List String),
    TypeArgument.listOuterNames (TypeArgument.mapOuterList f as) (after.map f) =
      (TypeArgument.listOuterNames as after).map f
  | [], _ => rfl
  | a :: rest, after => by
    rw [TypeArgument.mapOuterList, TypeArgument.listOuterNames, TypeArgument.listOuterNames,
      TypeArgument.listOuterNames_mapOuter rest, TypeArgument.outerNames_mapOuter a]

theorem InnerClass.listOuterNames_mapOuter : ∀ (is : List InnerClass) (after : List String),
    InnerClass.listOuterNames (InnerClass.mapOuterList f is) (after.map f) =
      (InnerClass.listOuterNames is after).map f
  | [], _ => rfl
  | ⟨_, arguments⟩ :: rest, after => by
    rw [InnerClass.mapOuterList, InnerClass.listOuterNames, InnerClass.listOuterNames,
      InnerClass.listOuterNames_mapOuter rest, TypeArgument.listOuterNames_mapOuter arguments]

end

/-- Parts one after the other list the images if each part does. -/
theorem foldr_map_of_forall {α : Type} {names : α → List String → List String} {g : α → α}
    (each : ∀ a after, names (g a) (after.map f) = (names a after).map f) (as : List α)
    (after : List String) :
    (as.map g).foldr names (after.map f) = (as.foldr names after).map f := by
  induction as with
  | nil => rfl
  | cons a as ih => rw [List.map_cons, List.foldr_cons, List.foldr_cons, ih, each]

theorem TypeParameter.outerNames_mapOuter (p : TypeParameter) (after : List String) :
    (p.mapOuter f).outerNames (after.map f) = (p.outerNames after).map f := by
  have bounds := foldr_map_of_forall f (ReferenceSignature.outerNames_mapOuter f)
  rw [TypeParameter.outerNames, TypeParameter.mapOuter, Option.toList_map, bounds, bounds,
    TypeParameter.outerNames]

theorem SignatureBody.outerNames_mapOuter (b : SignatureBody) :
    (b.mapOuter f).outerNames = b.outerNames.map f := by
  have references := foldr_map_of_forall f (ReferenceSignature.outerNames_mapOuter f)
  have types := foldr_map_of_forall f (TypeSignature.outerNames_mapOuter f)
  cases b with
  | method params result throws =>
    have last := references throws []
    rw [List.map_nil] at last
    rw [SignatureBody.mapOuter, SignatureBody.outerNames, SignatureBody.outerNames,
      Option.toList_map, last, types, types]
  | types first rest =>
    have last := references rest []
    rw [List.map_nil] at last
    rw [SignatureBody.mapOuter, SignatureBody.outerNames, SignatureBody.outerNames, last,
      ReferenceSignature.outerNames_mapOuter]

/-- **The outer names** of a signature whose names are replaced are the images of its own. -/
theorem Signature.outerNames_mapOuter (s : Signature) :
    (s.mapOuter f).outerNames = s.outerNames.map f := by
  rw [Signature.outerNames, Signature.mapOuter, SignatureBody.outerNames_mapOuter,
    foldr_map_of_forall f (TypeParameter.outerNames_mapOuter f), Signature.outerNames]

end

end ClassWeave
