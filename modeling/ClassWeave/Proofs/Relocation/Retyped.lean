import ClassWeave.Proofs.ClassFile.RoundTrip
import ClassWeave.Proofs.Relocation.Relocated

/-!
# Retyped trees

**Weaker relations** (`Member.Retyped.mono`). What relates the indices at the places that name types
may be weakened.

**Attributes** (`Content.Retyped.alike`). A retyped attribute keeps its name and the kind of its
content, the tags of its annotations, and its code.

**Main result** (`ClassFile.Relocated.everywhere`). So a relocated class is as it is read when the
class was.
-/

namespace ClassWeave

/-! ## Weaker relations -/

section

variable {R S : TypeUse → UInt16 → UInt16 → Prop}

mutual

theorem AnnotationUse.Retyped.mono (h : ∀ use i j, R use i j → S use i j) :
    ∀ a b : AnnotationUse, a.Retyped R b → a.Retyped S b
  | ⟨type, elements⟩, _, ⟨type', elements', eq, htype, helements⟩ =>
    ⟨type', elements', eq, h _ _ _ htype, Element.RetypedList.mono h elements elements' helements⟩

theorem Element.RetypedList.mono (h : ∀ use i j, R use i j → S use i j) :
    ∀ es fs : List Element, Element.RetypedList R es fs → Element.RetypedList S es fs
  | [], _, eq => eq
  | ⟨_, value⟩ :: rest, _, ⟨value', rest', eq, hvalue, hrest⟩ =>
    ⟨value', rest', eq, ElementValue.Retyped.mono h value value' hvalue,
      Element.RetypedList.mono h rest rest' hrest⟩

theorem ElementValue.Retyped.mono (h : ∀ use i j, R use i j → S use i j) :
    ∀ v w : ElementValue, v.Retyped R w → v.Retyped S w
  | .constant _ _, _, eq => eq
  | .enumConstant _ _, _, ⟨type', eq, htype⟩ | .classLiteral _, _, ⟨type', eq, htype⟩ =>
    ⟨type', eq, h _ _ _ htype⟩
  | .nested value, _, ⟨value', eq, hvalue⟩ =>
    ⟨value', eq, AnnotationUse.Retyped.mono h value value' hvalue⟩
  | .array values, _, ⟨values', eq, hvalues⟩ =>
    ⟨values', eq, ElementValue.RetypedList.mono h values values' hvalues⟩

theorem ElementValue.RetypedList.mono (h : ∀ use i j, R use i j → S use i j) :
    ∀ vs ws : List ElementValue, ElementValue.RetypedList R vs ws → ElementValue.RetypedList S vs ws
  | [], _, eq => eq
  | value :: rest, _, ⟨value', rest', eq, hvalue, hrest⟩ =>
    ⟨value', rest', eq, ElementValue.Retyped.mono h value value' hvalue,
      ElementValue.RetypedList.mono h rest rest' hrest⟩

end

theorem LocalVariable.Retyped.mono {R S : UInt16 → UInt16 → Prop} (h : ∀ i j, R i j → S i j)
    {v w : LocalVariable} : v.Retyped R w → v.Retyped S w
  | ⟨type', eq, htype⟩ => ⟨type', eq, h _ _ htype⟩

mutual

theorem Attribute.Retyped.mono (h : ∀ use i j, R use i j → S use i j) :
    ∀ a b : Attribute, a.Retyped R b → a.Retyped S b
  | ⟨_, content⟩, _, ⟨content', eq, hcontent⟩ =>
    ⟨content', eq, Content.Retyped.mono h content content' hcontent⟩

theorem Attribute.RetypedList.mono (h : ∀ use i j, R use i j → S use i j) :
    ∀ as bs : List Attribute, Attribute.RetypedList R as bs → Attribute.RetypedList S as bs
  | [], _, eq => eq
  | a :: rest, _, ⟨a', rest', eq, ha, hrest⟩ =>
    ⟨a', rest', eq, Attribute.Retyped.mono h a a' ha, Attribute.RetypedList.mono h rest rest' hrest⟩

theorem Content.Retyped.mono (h : ∀ use i j, R use i j → S use i j) :
    ∀ c d : Content, c.Retyped R d → c.Retyped S d
  | .code c, _, ⟨c', eq, hc⟩ => ⟨c', eq, Code.Retyped.mono h c c' hc⟩
  | .bootstrapMethods _, _, eq | .other _, _, eq => eq
  | .signature _, _, ⟨index', eq, hindex⟩ => ⟨index', eq, h _ _ _ hindex⟩
  | .visibleAnnotations _, _, ⟨list', eq, hlist⟩
  | .invisibleAnnotations _, _, ⟨list', eq, hlist⟩ =>
    ⟨list', eq, hlist.imp (AnnotationUse.Retyped.mono h)⟩
  | .visibleParameterAnnotations _, _, ⟨lists', eq, hlists⟩
  | .invisibleParameterAnnotations _, _, ⟨lists', eq, hlists⟩ =>
    ⟨lists', eq, hlists.imp fun _ _ hlist => hlist.imp (AnnotationUse.Retyped.mono h)⟩
  | .annotationDefault value, _, ⟨value', eq, hvalue⟩ =>
    ⟨value', eq, ElementValue.Retyped.mono h value value' hvalue⟩
  | .localVariables _, _, ⟨table', eq, htable⟩ | .localVariableTypes _, _, ⟨table', eq, htable⟩ =>
    ⟨table', eq, htable.imp fun _ _ => LocalVariable.Retyped.mono (h _)⟩

theorem Code.Retyped.mono (h : ∀ use i j, R use i j → S use i j) :
    ∀ c d : Code, c.Retyped R d → c.Retyped S d
  | ⟨_, _, _, _, attributes⟩, _, ⟨attributes', eq, hattributes⟩ =>
    ⟨attributes', eq, Attribute.RetypedList.mono h attributes attributes' hattributes⟩

end

theorem Member.Retyped.mono (h : ∀ use i j, R use i j → S use i j) {m n : Member} :
    m.Retyped R n → m.Retyped S n
  | ⟨descriptorIndex, attributes, eq, hdescriptor, hattributes⟩ =>
    ⟨descriptorIndex, attributes, eq, h _ _ _ hdescriptor,
      Attribute.RetypedList.mono h _ _ hattributes⟩

/-! ## Tags -/

mutual

theorem AnnotationUse.Retyped.tagged :
    ∀ a b : AnnotationUse, a.Retyped R b → a.Tagged → b.Tagged
  | ⟨_, elements⟩, _, ⟨_, elements', rfl, _, helements⟩, tagged =>
    Element.RetypedList.tagged elements elements' helements tagged

theorem Element.RetypedList.tagged :
    ∀ es fs : List Element, Element.RetypedList R es fs → Element.ListTagged es →
      Element.ListTagged fs
  | [], _, rfl, _ => trivial
  | ⟨_, value⟩ :: rest, _, ⟨value', rest', rfl, hvalue, hrest⟩, tagged =>
    ⟨ElementValue.Retyped.tagged value value' hvalue tagged.1,
      Element.RetypedList.tagged rest rest' hrest tagged.2⟩

theorem ElementValue.Retyped.tagged :
    ∀ v w : ElementValue, v.Retyped R w → v.Tagged → w.Tagged
  | .constant _ _, _, rfl, tagged => tagged
  | .enumConstant _ _, _, ⟨_, rfl, _⟩, _ | .classLiteral _, _, ⟨_, rfl, _⟩, _ => trivial
  | .nested value, _, ⟨value', rfl, hvalue⟩, tagged =>
    AnnotationUse.Retyped.tagged value value' hvalue tagged
  | .array values, _, ⟨values', rfl, hvalues⟩, tagged =>
    ElementValue.RetypedList.tagged values values' hvalues tagged

theorem ElementValue.RetypedList.tagged :
    ∀ vs ws : List ElementValue, ElementValue.RetypedList R vs ws → ElementValue.ListTagged vs →
      ElementValue.ListTagged ws
  | [], _, rfl, _ => trivial
  | value :: rest, _, ⟨value', rest', rfl, hvalue, hrest⟩, tagged =>
    ⟨ElementValue.Retyped.tagged value value' hvalue tagged.1,
      ElementValue.RetypedList.tagged rest rest' hrest tagged.2⟩

end

/-! ## Attributes -/

/-- A retyped content has the kind of the content, and it is tagged and opaque when that is. -/
theorem Content.Retyped.alike : ∀ c d : Content, c.Retyped R d →
    d.kind? = c.kind? ∧ (c.Tagged → d.Tagged) ∧ (c.IsOpaque → d.IsOpaque)
  | .code ⟨_, _, _, _, _⟩, _, ⟨_, rfl, _, rfl, _⟩ => ⟨rfl, id, id⟩
  | .bootstrapMethods _, _, rfl | .other _, _, rfl => ⟨rfl, id, id⟩
  | .signature _, _, ⟨_, rfl, _⟩ | .localVariables _, _, ⟨_, rfl, _⟩
  | .localVariableTypes _, _, ⟨_, rfl, _⟩ => ⟨rfl, id, id⟩
  | .visibleAnnotations _, _, ⟨_, rfl, hlist⟩ | .invisibleAnnotations _, _, ⟨_, rfl, hlist⟩ =>
    ⟨rfl, forall_mem_of_forall₂ hlist AnnotationUse.Retyped.tagged, id⟩
  | .visibleParameterAnnotations _, _, ⟨_, rfl, hlists⟩
  | .invisibleParameterAnnotations _, _, ⟨_, rfl, hlists⟩ =>
    ⟨rfl, forall_mem_of_forall₂ hlists
      fun _ _ hlist => forall_mem_of_forall₂ hlist AnnotationUse.Retyped.tagged, id⟩
  | .annotationDefault value, _, ⟨value', rfl, hvalue⟩ =>
    ⟨rfl, ElementValue.Retyped.tagged value value' hvalue, id⟩

section

variable {p q : ConstantPool} {a b : Attribute}

/-- An attribute can be read back when it was, with every pool that has its texts. -/
theorem Attribute.Retyped.readable (texts : ∀ i text, p.utf8 i = .ok text → q.utf8 i = .ok text)
    (h : a.Retyped R b) (readable : a.Readable p) : b.Readable q := by
  obtain ⟨name, content⟩ := a
  obtain ⟨content', rfl, hcontent⟩ := h
  obtain ⟨⟨text, htext, kind⟩, tagged⟩ := readable
  obtain ⟨sameKind, tagged', _⟩ := Content.Retyped.alike content content' hcontent
  exact ⟨⟨text, texts name text htext, kind.trans sameKind.symm⟩, tagged' tagged⟩

/-- An attribute is as it is read when it was. -/
theorem Attribute.Retyped.asRead (texts : ∀ i text, p.utf8 i = .ok text → q.utf8 i = .ok text)
    (h : a.Retyped R b) (asRead : a.AsRead p) : b.AsRead q := by
  refine ⟨h.readable texts asRead.readable, ?_⟩
  obtain ⟨_, content⟩ := a
  obtain ⟨content', rfl, hcontent⟩ := h
  exact (Content.Retyped.alike content content' hcontent).2.2 asRead.isOpaque

end

section

variable {P Q : Attribute → Prop}

mutual

theorem Attribute.Retyped.everywhere (node : ∀ a b : Attribute, a.Retyped R b → P a → Q b) :
    ∀ a b : Attribute, a.Retyped R b → a.Everywhere P → b.Everywhere Q
  | ⟨name, content⟩, _, ⟨content', rfl, hcontent⟩, ⟨here, all⟩ =>
    ⟨node ⟨name, content⟩ ⟨name, content'⟩ ⟨content', rfl, hcontent⟩ here,
      Content.Retyped.everywhere node content content' hcontent all⟩

theorem Attribute.RetypedList.everywhere (node : ∀ a b : Attribute, a.Retyped R b → P a → Q b) :
    ∀ as bs : List Attribute, Attribute.RetypedList R as bs → Attribute.ListEverywhere P as →
      Attribute.ListEverywhere Q bs
  | [], _, rfl, _ => trivial
  | a :: rest, _, ⟨a', rest', rfl, ha, hrest⟩, all =>
    ⟨Attribute.Retyped.everywhere node a a' ha all.1,
      Attribute.RetypedList.everywhere node rest rest' hrest all.2⟩

theorem Content.Retyped.everywhere (node : ∀ a b : Attribute, a.Retyped R b → P a → Q b) :
    ∀ c d : Content, c.Retyped R d → c.Everywhere P → d.Everywhere Q
  | .code c, _, ⟨c', rfl, hc⟩, all => Code.Retyped.everywhere node c c' hc all
  | .bootstrapMethods _, _, rfl, _ | .other _, _, rfl, _ => trivial
  | .signature _, _, ⟨_, rfl, _⟩, _ | .visibleAnnotations _, _, ⟨_, rfl, _⟩, _
  | .invisibleAnnotations _, _, ⟨_, rfl, _⟩, _ | .visibleParameterAnnotations _, _, ⟨_, rfl, _⟩, _
  | .invisibleParameterAnnotations _, _, ⟨_, rfl, _⟩, _ | .annotationDefault _, _, ⟨_, rfl, _⟩, _
  | .localVariables _, _, ⟨_, rfl, _⟩, _ | .localVariableTypes _, _, ⟨_, rfl, _⟩, _ => trivial

theorem Code.Retyped.everywhere (node : ∀ a b : Attribute, a.Retyped R b → P a → Q b) :
    ∀ c d : Code, c.Retyped R d → c.Everywhere P → d.Everywhere Q
  | ⟨_, _, _, _, attributes⟩, _, ⟨attributes', rfl, hattributes⟩, all =>
    Attribute.RetypedList.everywhere node attributes attributes' hattributes all

end

theorem Member.Retyped.everywhere (node : ∀ a b : Attribute, a.Retyped R b → P a → Q b)
    {m n : Member} (h : m.Retyped R n) (all : m.Everywhere P) : n.Everywhere Q := by
  obtain ⟨_, attributes, rfl, _, hattributes⟩ := h
  rw [Everywhere, ← Attribute.listEverywhere_iff] at all ⊢
  exact Attribute.RetypedList.everywhere node _ _ hattributes all

/-- What retyping preserves of each attribute, it preserves of all attributes of a class. -/
theorem ClassFile.everywhere_of_retyped (node : ∀ a b : Attribute, a.Retyped R b → P a → Q b)
    {c d : ClassFile} (fields : List.Forall₂ (Member.Retyped R) c.fields d.fields)
    (methods : List.Forall₂ (Member.Retyped R) c.methods.toList d.methods.toList)
    (attributes : Attribute.RetypedList R c.attributes d.attributes) (all : c.Everywhere P) :
    d.Everywhere Q where
  fields := forall_mem_of_forall₂ fields (fun _ _ hm => hm.everywhere node) all.fields
  methods := forall_mem_of_forall₂ methods (fun _ _ hm => hm.everywhere node) all.methods
  attributes := by
    rw [← Attribute.listEverywhere_iff]
    exact Attribute.RetypedList.everywhere node _ _ attributes
      ((Attribute.listEverywhere_iff _).2 all.attributes)

end

end

/-! ## Classes -/

theorem Constant.Retyped.isRegular {name descriptor : UInt16 → UInt16 → Prop} {c d : Constant}
    (h : c.Retyped name descriptor d) (regular : c.IsRegular) : d.IsRegular := by
  cases c with
  | classRef _ | nameAndType _ _ | methodType _ =>
    obtain ⟨_, rfl, _⟩ := h
    trivial
  | _ =>
    obtain rfl := h
    exact regular

section

variable {p q : ConstantPool} {name descriptor : UInt16 → UInt16 → Prop}

/-- When entries are retyped, texts stay. -/
theorem ConstantPool.utf8_of_retyped
    (entries : ∀ (k : Nat) (c : Constant), p.slots[k]? = some c →
      ∃ d, q.slots[k]? = some d ∧ c.Retyped name descriptor d) {i : UInt16} {text : String}
    (ht : p.utf8 i = .ok text) : q.utf8 i = .ok text := by
  rw [ConstantPool.utf8_eq_ok_iff_slot] at ht ⊢
  obtain ⟨d, hd, rfl⟩ := entries _ _ ht.2
  exact ⟨ht.1, hd⟩

/-- When entries are retyped and texts are put behind them, no raw text comes in. -/
theorem ConstantPool.isRegular_of_retyped
    (entries : ∀ (k : Nat) (c : Constant), p.slots[k]? = some c →
      ∃ d, q.slots[k]? = some d ∧ c.Retyped name descriptor d)
    (texts : ∀ (k : Nat) (d : Constant), p.slots.size ≤ k → q.slots[k]? = some d →
      ∃ text, d = .utf8 text)
    (regular : p.IsRegular) : q.IsRegular := by
  intro e he
  obtain ⟨k, hk⟩ := List.mem_iff_getElem?.1 he
  rw [Array.getElem?_toList] at hk
  by_cases within : k < p.slots.size
  · have old : p.slots[k]? = some p.slots[k] := Array.getElem?_eq_getElem within
    obtain ⟨e', he', retyped⟩ := entries k _ old
    obtain rfl : e = e' := Option.some.inj (hk.symm.trans he')
    refine retyped.isRegular (regular _ ?_)
    exact Array.mem_toList_iff.2 (Array.mem_of_getElem? old)
  · obtain ⟨text, rfl⟩ := texts k e (Nat.not_lt.1 within) hk
    trivial

end

namespace ClassFile.Relocated

variable {r : Renaming} {c d : ClassFile}

theorem utf8 (h : c.Relocated r d) {i : UInt16} {text : String} (ht : c.pool.utf8 i = .ok text) :
    d.pool.utf8 i = .ok text :=
  ConstantPool.utf8_of_retyped h.entries ht

theorem isRegular (h : c.Relocated r d) (regular : c.pool.IsRegular) : d.pool.IsRegular :=
  ConstantPool.isRegular_of_retyped h.entries h.texts regular

/-- **A relocated class** is as it is read when the class was, in every pool that has its texts. -/
theorem everywhere (h : c.Relocated r d) {q : ConstantPool}
    (texts : ∀ i text, c.pool.utf8 i = .ok text → q.utf8 i = .ok text)
    (all : c.Everywhere (Attribute.AsRead c.pool)) : d.Everywhere (Attribute.AsRead q) :=
  everywhere_of_retyped (fun _ _ ha => ha.asRead texts) h.fields h.methods h.attributes all

end ClassFile.Relocated

end ClassWeave
