import ClassWeave.Proofs.Relocation.Moves
import Mathlib.Data.List.Forall2

/-!
# Moving every place of a class

**Retyping** (`AnnotationUse.Retyped`, `Attribute.Retyped`, …). Two trees are alike but for the
places that name types, whose indices are in a relation that depends on how the text there is read.

**Traversals.** When the visit of each place establishes the relation, the traversal of a tree
establishes it at all of its places (`AnnotationUse.mapTypes_holds`, `Attribute.mapTypes_holds`).
The induction is on the tree; what becomes of the state meanwhile is hidden in the logic.
-/

namespace ClassWeave

/-! ## Related lists -/

/-- A property of each element is carried over to each element that is related to one. -/
theorem forall_mem_of_forall₂ {α β : Type} {r : α → β → Prop} {P : α → Prop} {Q : β → Prop}
    {as : List α} {bs : List β} (h : List.Forall₂ r as bs) (keeps : ∀ a b, r a b → P a → Q b)
    (all : ∀ a ∈ as, P a) : ∀ b ∈ bs, Q b := by
  induction h with
  | nil => simp
  | cons hab _ ih =>
    rw [List.forall_mem_cons] at all ⊢
    exact ⟨keeps _ _ hab all.1, ih all.2⟩

/-- Each element is related to some element. -/
theorem exists_mem_of_forall₂ {α β : Type} {r : α → β → Prop} {as : List α} {bs : List β}
    (h : List.Forall₂ r as bs) : ∀ a ∈ as, ∃ b ∈ bs, r a b := by
  induction h with
  | nil => simp
  | @cons a b as bs hab _ ih =>
    refine List.forall_mem_cons.2 ⟨⟨b, List.mem_cons_self, hab⟩, fun a' ha' => ?_⟩
    obtain ⟨b', hb', related⟩ := ih a' ha'
    exact ⟨b', List.mem_cons_of_mem b hb', related⟩

/-! ## Trees that are alike but for types -/

mutual

def AnnotationUse.Retyped (R : TypeUse → UInt16 → UInt16 → Prop) :
    AnnotationUse → AnnotationUse → Prop
  | ⟨type, elements⟩, a => ∃ type' elements', a = ⟨type', elements'⟩ ∧
    R .descriptor type type' ∧ Element.RetypedList R elements elements'
termination_by structural a => a

def Element.RetypedList (R : TypeUse → UInt16 → UInt16 → Prop) :
    List Element → List Element → Prop
  | [], es => es = []
  | ⟨name, value⟩ :: rest, es => ∃ value' rest', es = ⟨name, value'⟩ :: rest' ∧
    value.Retyped R value' ∧ Element.RetypedList R rest rest'
termination_by structural a => a

def ElementValue.Retyped (R : TypeUse → UInt16 → UInt16 → Prop) :
    ElementValue → ElementValue → Prop
  | .constant tag index, v => v = .constant tag index
  | .enumConstant type name, v => ∃ type', v = .enumConstant type' name ∧ R .descriptor type type'
  | .classLiteral type, v => ∃ type', v = .classLiteral type' ∧ R .descriptor type type'
  | .nested value, v => ∃ value', v = .nested value' ∧ value.Retyped R value'
  | .array values, v => ∃ values', v = .array values' ∧ ElementValue.RetypedList R values values'
termination_by structural a => a

def ElementValue.RetypedList (R : TypeUse → UInt16 → UInt16 → Prop) :
    List ElementValue → List ElementValue → Prop
  | [], vs => vs = []
  | value :: rest, vs => ∃ value' rest', vs = value' :: rest' ∧
    value.Retyped R value' ∧ ElementValue.RetypedList R rest rest'
termination_by structural a => a

end

/-- The local variables are the same but for their type. -/
def LocalVariable.Retyped (R : UInt16 → UInt16 → Prop) (v w : LocalVariable) : Prop :=
  ∃ type', w = { v with descriptorIndex := type' } ∧ R v.descriptorIndex type'

mutual

def Attribute.Retyped (R : TypeUse → UInt16 → UInt16 → Prop) : Attribute → Attribute → Prop
  | ⟨name, content⟩, a => ∃ content', a = ⟨name, content'⟩ ∧ content.Retyped R content'
termination_by structural a => a

def Attribute.RetypedList (R : TypeUse → UInt16 → UInt16 → Prop) :
    List Attribute → List Attribute → Prop
  | [], as => as = []
  | a :: rest, as => ∃ a' rest', as = a' :: rest' ∧ a.Retyped R a' ∧
    Attribute.RetypedList R rest rest'
termination_by structural a => a

def Content.Retyped (R : TypeUse → UInt16 → UInt16 → Prop) : Content → Content → Prop
  | .code c, d => ∃ c', d = .code c' ∧ c.Retyped R c'
  | .bootstrapMethods methods, d => d = .bootstrapMethods methods
  | .signature index, d => ∃ index', d = .signature index' ∧ R .signature index index'
  | .visibleAnnotations list, d => ∃ list', d = .visibleAnnotations list' ∧
    List.Forall₂ (AnnotationUse.Retyped R) list list'
  | .invisibleAnnotations list, d => ∃ list', d = .invisibleAnnotations list' ∧
    List.Forall₂ (AnnotationUse.Retyped R) list list'
  | .visibleParameterAnnotations lists, d => ∃ lists', d = .visibleParameterAnnotations lists' ∧
    List.Forall₂ (List.Forall₂ (AnnotationUse.Retyped R)) lists lists'
  | .invisibleParameterAnnotations lists, d => ∃ lists', d = .invisibleParameterAnnotations lists' ∧
    List.Forall₂ (List.Forall₂ (AnnotationUse.Retyped R)) lists lists'
  | .annotationDefault value, d => ∃ value', d = .annotationDefault value' ∧ value.Retyped R value'
  | .localVariables table, d => ∃ table', d = .localVariables table' ∧
    List.Forall₂ (LocalVariable.Retyped (R .descriptor)) table table'
  | .localVariableTypes table, d => ∃ table', d = .localVariableTypes table' ∧
    List.Forall₂ (LocalVariable.Retyped (R .signature)) table table'
  | .other bytes, d => d = .other bytes
termination_by structural a => a

def Code.Retyped (R : TypeUse → UInt16 → UInt16 → Prop) : Code → Code → Prop
  | ⟨limit, locals, body, handlers, attributes⟩, c => ∃ attributes',
    c = ⟨limit, locals, body, handlers, attributes'⟩ ∧
      Attribute.RetypedList R attributes attributes'
termination_by structural a => a

end

/-- The members are the same but for the types that they name. -/
def Member.Retyped (R : TypeUse → UInt16 → UInt16 → Prop) (m n : Member) : Prop :=
  ∃ descriptorIndex attributes, n = { m with descriptorIndex, attributes } ∧
    R .descriptor m.descriptorIndex descriptorIndex ∧
      Attribute.RetypedList R m.attributes attributes

/-! ## Traversals -/

section

variable {σ ι : Type} {L : Logic σ ι} {visit : TypeUse → UInt16 → StateM σ UInt16}
  {R : ι → TypeUse → UInt16 → UInt16 → Prop}

mutual

theorem AnnotationUse.mapTypes_holds
    (h : ∀ use i, L.Holds (visit use i) fun q j => R q use i j) :
    ∀ a : AnnotationUse, L.Holds (a.mapTypes visit) fun q b => a.Retyped (R q) b
  | ⟨type, elements⟩ => by
    rw [AnnotationUse.mapTypes]
    refine ((h .descriptor type).bind fun type' =>
      (Element.mapTypesList_holds h elements).bind fun elements' =>
        L.pure (AnnotationUse.mk type' elements')).weaken fun q b hb => ?_
    obtain ⟨type', htype, elements', helements, eq⟩ := hb
    exact ⟨type', elements', eq, htype, helements⟩

theorem Element.mapTypesList_holds
    (h : ∀ use i, L.Holds (visit use i) fun q j => R q use i j) :
    ∀ es : List Element, L.Holds (Element.mapTypesList visit es) fun q fs =>
      Element.RetypedList (R q) es fs
  | [] => by
    rw [Element.mapTypesList]
    exact L.pure []
  | ⟨name, value⟩ :: rest => by
    rw [Element.mapTypesList]
    refine ((ElementValue.mapTypes_holds h value).bind fun value' =>
      (Element.mapTypesList_holds h rest).bind fun rest' =>
        L.pure (Element.mk name value' :: rest')).weaken fun q fs hfs => ?_
    obtain ⟨value', hvalue, rest', hrest, eq⟩ := hfs
    exact ⟨value', rest', eq, hvalue, hrest⟩

theorem ElementValue.mapTypes_holds
    (h : ∀ use i, L.Holds (visit use i) fun q j => R q use i j) :
    ∀ v : ElementValue, L.Holds (v.mapTypes visit) fun q w => v.Retyped (R q) w
  | .constant tag index => by
    rw [ElementValue.mapTypes]
    exact L.pure (ElementValue.constant tag index)
  | .enumConstant type name => by
    rw [ElementValue.mapTypes]
    exact (h .descriptor type).answer fun type' => ElementValue.enumConstant type' name
  | .classLiteral type => by
    rw [ElementValue.mapTypes]
    exact (h .descriptor type).answer ElementValue.classLiteral
  | .nested value => by
    rw [ElementValue.mapTypes]
    exact (AnnotationUse.mapTypes_holds h value).answer ElementValue.nested
  | .array values => by
    rw [ElementValue.mapTypes]
    exact (ElementValue.mapTypesList_holds h values).answer ElementValue.array

theorem ElementValue.mapTypesList_holds
    (h : ∀ use i, L.Holds (visit use i) fun q j => R q use i j) :
    ∀ vs : List ElementValue, L.Holds (ElementValue.mapTypesList visit vs) fun q ws =>
      ElementValue.RetypedList (R q) vs ws
  | [] => by
    rw [ElementValue.mapTypesList]
    exact L.pure []
  | value :: rest => by
    rw [ElementValue.mapTypesList]
    refine ((ElementValue.mapTypes_holds h value).bind fun value' =>
      (ElementValue.mapTypesList_holds h rest).bind fun rest' =>
        L.pure (value' :: rest')).weaken fun q ws hws => ?_
    obtain ⟨value', hvalue, rest', hrest, eq⟩ := hws
    exact ⟨value', rest', eq, hvalue, hrest⟩

end

theorem LocalVariable.mapType_holds {visit : UInt16 → StateM σ UInt16}
    {R : ι → UInt16 → UInt16 → Prop} (h : ∀ i, L.Holds (visit i) fun q j => R q i j)
    (v : LocalVariable) : L.Holds (v.mapType visit) fun q w => v.Retyped (R q) w :=
  (h v.descriptorIndex).answer fun type' => ({ v with descriptorIndex := type' } : LocalVariable)

mutual

theorem Attribute.mapTypes_holds
    (h : ∀ use i, L.Holds (visit use i) fun q j => R q use i j) :
    ∀ a : Attribute, L.Holds (a.mapTypes visit) fun q b => a.Retyped (R q) b
  | ⟨name, content⟩ => by
    rw [Attribute.mapTypes]
    exact (Content.mapTypes_holds h content).answer (Attribute.mk name)

theorem Attribute.mapTypesList_holds
    (h : ∀ use i, L.Holds (visit use i) fun q j => R q use i j) :
    ∀ as : List Attribute, L.Holds (Attribute.mapTypesList visit as) fun q bs =>
      Attribute.RetypedList (R q) as bs
  | [] => by
    rw [Attribute.mapTypesList]
    exact L.pure []
  | a :: rest => by
    rw [Attribute.mapTypesList]
    refine ((Attribute.mapTypes_holds h a).bind fun a' =>
      (Attribute.mapTypesList_holds h rest).bind fun rest' =>
        L.pure (a' :: rest')).weaken fun q bs hbs => ?_
    obtain ⟨a', ha, rest', hrest, eq⟩ := hbs
    exact ⟨a', rest', eq, ha, hrest⟩

theorem Content.mapTypes_holds
    (h : ∀ use i, L.Holds (visit use i) fun q j => R q use i j) :
    ∀ c : Content, L.Holds (c.mapTypes visit) fun q d => c.Retyped (R q) d
  | .code c => by
    rw [Content.mapTypes]
    exact (Code.mapTypes_holds h c).answer Content.code
  | .bootstrapMethods methods => by
    rw [Content.mapTypes]
    exact L.pure (Content.bootstrapMethods methods)
  | .signature index => by
    rw [Content.mapTypes]
    exact (h .signature index).answer Content.signature
  | .visibleAnnotations list => by
    rw [Content.mapTypes]
    exact (Logic.Holds.mapM (AnnotationUse.mapTypes_holds h) list).answer Content.visibleAnnotations
  | .invisibleAnnotations list => by
    rw [Content.mapTypes]
    exact (Logic.Holds.mapM (AnnotationUse.mapTypes_holds h) list).answer
      Content.invisibleAnnotations
  | .visibleParameterAnnotations lists => by
    rw [Content.mapTypes]
    exact (Logic.Holds.mapM (Logic.Holds.mapM (AnnotationUse.mapTypes_holds h)) lists).answer
      Content.visibleParameterAnnotations
  | .invisibleParameterAnnotations lists => by
    rw [Content.mapTypes]
    exact (Logic.Holds.mapM (Logic.Holds.mapM (AnnotationUse.mapTypes_holds h)) lists).answer
      Content.invisibleParameterAnnotations
  | .annotationDefault value => by
    rw [Content.mapTypes]
    exact (ElementValue.mapTypes_holds h value).answer Content.annotationDefault
  | .localVariables table => by
    rw [Content.mapTypes]
    exact (Logic.Holds.mapM (LocalVariable.mapType_holds (h .descriptor)) table).answer
      Content.localVariables
  | .localVariableTypes table => by
    rw [Content.mapTypes]
    exact (Logic.Holds.mapM (LocalVariable.mapType_holds (h .signature)) table).answer
      Content.localVariableTypes
  | .other bytes => by
    rw [Content.mapTypes]
    exact L.pure (Content.other bytes)

theorem Code.mapTypes_holds
    (h : ∀ use i, L.Holds (visit use i) fun q j => R q use i j) :
    ∀ c : Code, L.Holds (c.mapTypes visit) fun q d => c.Retyped (R q) d
  | ⟨limit, locals, body, handlers, attributes⟩ => by
    rw [Code.mapTypes]
    exact (Attribute.mapTypesList_holds h attributes).answer (Code.mk limit locals body handlers)

end

end

namespace Relocating

variable {ι : Type} {L : Logic Relocating ι} {r : Renaming} {owner : String}
  {named : ι → UInt16 → Prop} {R : ι → TypeUse → UInt16 → UInt16 → Prop}

/-- What holds of the visit of each place, and of the look-up of the name, holds of a member that is
relocated. -/
theorem renameMember_holds (hlocation : ∀ i, L.Holds (location i) fun q _ => named q i)
    (hvisit : ∀ member use i, L.Holds (visit r owner member use i) fun q j => R q use i j)
    (m : Member) : L.Holds (renameMember r owner m) fun q n =>
      named q m.nameIndex ∧ m.Retyped (R q) n := by
  refine ((hlocation m.nameIndex).bind fun member =>
    (hvisit member .descriptor m.descriptorIndex).bind fun descriptorIndex =>
      (Attribute.mapTypesList_holds (hvisit member) m.attributes).answer
        fun attributes => ({ m with descriptorIndex, attributes } : Member)).weaken fun q n hn => ?_
  obtain ⟨member, hname, descriptorIndex, hdescriptor, attributes, eq, hattributes⟩ := hn
  exact ⟨hname, descriptorIndex, attributes, eq, hdescriptor, hattributes⟩

end Relocating

end ClassWeave
