import ClassWeave.Proofs.Relocation.Again
import ClassWeave.Proofs.Relocation.Retyped

/-!
# Classes in which nothing is renamed

**Names at places** (`ClassFile.NamesOnly`). At each place of a class that names types there is a
text, and what it names is allowed.

**Relocated classes** (`ClassFile.Relocated.namesOnly`). If the renaming is final, a relocated class
names only what stays: a place holds the image of what the place held before.

**Main result** (`ClassFile.NamesOnly.relocate_eq`). A class that names only what stays is relocated
to itself. Each visit answers the index that it was given and leaves the pool alone, and so does the
traversal of a tree.
-/

namespace ClassWeave

open Renaming (cut)

/-! ## Names at places -/

/-- The text can be used, and all that it names is allowed. -/
def TypeUse.NamesOnly (allowed : String → Prop) : TypeUse → String → Prop
  | .descriptor, text => ∀ p ∈ (cut text).1, allowed p.name
  | .signature, text => ∃ s, Signature.parse? text = some s ∧ ∀ name ∈ s.outerNames, allowed name

/-- What a class entry names is allowed. -/
def TypeUse.EntryNamesOnly (allowed : String → Prop) (name : String) : Prop :=
  if name.toList.head? = some '[' then TypeUse.descriptor.NamesOnly allowed name else allowed name

/-- The index stays, and holds a text with the property. -/
def ConstantPool.Stays (p : ConstantPool) (good : String → Prop) (i j : UInt16) : Prop :=
  j = i ∧ ∃ text, p.utf8 i = .ok text ∧ good text

/-- At each place that names types, in the pool and outside of it, only the allowed ones are named.
A place is found by relating the trees of the class to themselves. -/
structure ClassFile.NamesOnly (allowed : String → Prop) (c : ClassFile) : Prop where
  entries (k : Nat) (e : Constant) : c.pool.slots[k]? = some e →
    e.Retyped (c.pool.Stays (TypeUse.EntryNamesOnly allowed))
      (c.pool.Stays (TypeUse.descriptor.NamesOnly allowed)) e
  fields : ∀ m ∈ c.fields, m.Retyped (fun use => c.pool.Stays (use.NamesOnly allowed)) m
  methods : ∀ m ∈ c.methods.toList, m.Retyped (fun use => c.pool.Stays (use.NamesOnly allowed)) m
  attributes : Attribute.RetypedList (fun use => c.pool.Stays (use.NamesOnly allowed))
    c.attributes c.attributes

/-- A text has no image when it names only what stays. -/
theorem Renaming.image_none_iff {r : Renaming} {use : TypeUse} {text : String} :
    r.image use text none ↔ use.NamesOnly (r · = none) text := by
  cases use with
  | descriptor => exact descriptor_eq_none_iff
  | signature =>
    unfold image signature TypeUse.NamesOnly
    cases parsed : Signature.parse? text with
    | none => simp [parsed]
    | some s => simp [parsed]

theorem Renaming.nameImage_none_iff {r : Renaming} {name : String} :
    r.nameImage name none ↔ TypeUse.EntryNamesOnly (r · = none) name := by
  rw [nameImage, typeName_eq, TypeUse.EntryNamesOnly]
  split_ifs
  · exact descriptor_eq_none_iff
  · exact Iff.rfl

/-- A place that has moved holds what the images are. -/
theorem ConstantPool.Moves.stays {p q : ConstantPool} {image : String → Option String → Prop}
    {good : String → Prop} {i j : UInt16}
    (images : ∀ text new, image text new → good (new.getD text)) (h : p.Moves q image i j) :
    q.Stays good j j := by
  obtain ⟨text, old, _, ⟨him, rfl⟩ | ⟨new, him, hj⟩⟩ := h
  · exact ⟨rfl, text, old, images text none him⟩
  · exact ⟨rfl, new, hj, images text (some new) him⟩

theorem ConstantPool.Stays.mono {p q : ConstantPool} {good : String → Prop} {i j : UInt16}
    (h : p.Stays good i j) (keeps : ∀ k text, p.utf8 k = .ok text → q.utf8 k = .ok text) :
    q.Stays good i j := by
  obtain ⟨same, text, held, hgood⟩ := h
  exact ⟨same, text, keeps i text held, hgood⟩

/-! ## Relocated classes -/

section

variable {R S : TypeUse → UInt16 → UInt16 → Prop}

mutual

theorem AnnotationUse.Retyped.self (h : ∀ use i j, R use i j → S use j j) :
    ∀ a b : AnnotationUse, a.Retyped R b → b.Retyped S b
  | ⟨_, elements⟩, _, ⟨type', elements', rfl, htype, helements⟩ =>
    ⟨type', elements', rfl, h _ _ _ htype, Element.RetypedList.self h elements elements' helements⟩

theorem Element.RetypedList.self (h : ∀ use i j, R use i j → S use j j) :
    ∀ es fs : List Element, Element.RetypedList R es fs → Element.RetypedList S fs fs
  | [], _, rfl => rfl
  | ⟨_, value⟩ :: rest, _, ⟨value', rest', rfl, hvalue, hrest⟩ =>
    ⟨value', rest', rfl, ElementValue.Retyped.self h value value' hvalue,
      Element.RetypedList.self h rest rest' hrest⟩

theorem ElementValue.Retyped.self (h : ∀ use i j, R use i j → S use j j) :
    ∀ v w : ElementValue, v.Retyped R w → w.Retyped S w
  | .constant _ _, _, rfl => rfl
  | .enumConstant _ _, _, ⟨type', rfl, htype⟩ | .classLiteral _, _, ⟨type', rfl, htype⟩ =>
    ⟨type', rfl, h _ _ _ htype⟩
  | .nested value, _, ⟨value', rfl, hvalue⟩ =>
    ⟨value', rfl, AnnotationUse.Retyped.self h value value' hvalue⟩
  | .array values, _, ⟨values', rfl, hvalues⟩ =>
    ⟨values', rfl, ElementValue.RetypedList.self h values values' hvalues⟩

theorem ElementValue.RetypedList.self (h : ∀ use i j, R use i j → S use j j) :
    ∀ vs ws : List ElementValue, ElementValue.RetypedList R vs ws → ElementValue.RetypedList S ws ws
  | [], _, rfl => rfl
  | value :: rest, _, ⟨value', rest', rfl, hvalue, hrest⟩ =>
    ⟨value', rest', rfl, ElementValue.Retyped.self h value value' hvalue,
      ElementValue.RetypedList.self h rest rest' hrest⟩

end

theorem LocalVariable.Retyped.self {R S : UInt16 → UInt16 → Prop} (h : ∀ i j, R i j → S j j)
    (v w : LocalVariable) (related : v.Retyped R w) : w.Retyped S w := by
  obtain ⟨type', rfl, htype⟩ := related
  exact ⟨type', rfl, h _ _ htype⟩

/-- A relation of each element with itself, for what some list is related to. -/
theorem forall₂_self {α : Type} {r s : α → α → Prop} (h : ∀ a b, r a b → s b b) {as bs : List α}
    (related : List.Forall₂ r as bs) : List.Forall₂ s bs bs := by
  induction related with
  | nil => exact .nil
  | cons hab _ ih => exact .cons (h _ _ hab) ih

mutual

theorem Attribute.Retyped.self (h : ∀ use i j, R use i j → S use j j) :
    ∀ a b : Attribute, a.Retyped R b → b.Retyped S b
  | ⟨_, content⟩, _, ⟨content', rfl, hcontent⟩ =>
    ⟨content', rfl, Content.Retyped.self h content content' hcontent⟩

theorem Attribute.RetypedList.self (h : ∀ use i j, R use i j → S use j j) :
    ∀ as bs : List Attribute, Attribute.RetypedList R as bs → Attribute.RetypedList S bs bs
  | [], _, rfl => rfl
  | a :: rest, _, ⟨a', rest', rfl, ha, hrest⟩ =>
    ⟨a', rest', rfl, Attribute.Retyped.self h a a' ha,
      Attribute.RetypedList.self h rest rest' hrest⟩

theorem Content.Retyped.self (h : ∀ use i j, R use i j → S use j j) :
    ∀ c d : Content, c.Retyped R d → d.Retyped S d
  | .code c, _, ⟨c', rfl, hc⟩ => ⟨c', rfl, Code.Retyped.self h c c' hc⟩
  | .bootstrapMethods _, _, rfl | .other _, _, rfl => rfl
  | .signature _, _, ⟨index', rfl, hindex⟩ => ⟨index', rfl, h _ _ _ hindex⟩
  | .visibleAnnotations _, _, ⟨list', rfl, hlist⟩
  | .invisibleAnnotations _, _, ⟨list', rfl, hlist⟩ =>
    ⟨list', rfl, forall₂_self (AnnotationUse.Retyped.self h) hlist⟩
  | .visibleParameterAnnotations _, _, ⟨lists', rfl, hlists⟩
  | .invisibleParameterAnnotations _, _, ⟨lists', rfl, hlists⟩ =>
    ⟨lists', rfl, forall₂_self (fun _ _ => forall₂_self (AnnotationUse.Retyped.self h)) hlists⟩
  | .annotationDefault value, _, ⟨value', rfl, hvalue⟩ =>
    ⟨value', rfl, ElementValue.Retyped.self h value value' hvalue⟩
  | .localVariables _, _, ⟨table', rfl, htable⟩
  | .localVariableTypes _, _, ⟨table', rfl, htable⟩ =>
    ⟨table', rfl, forall₂_self (LocalVariable.Retyped.self (h _)) htable⟩

theorem Code.Retyped.self (h : ∀ use i j, R use i j → S use j j) :
    ∀ c d : Code, c.Retyped R d → d.Retyped S d
  | ⟨_, _, _, _, attributes⟩, _, ⟨attributes', rfl, hattributes⟩ =>
    ⟨attributes', rfl, Attribute.RetypedList.self h attributes attributes' hattributes⟩

end

theorem Member.Retyped.self (h : ∀ use i j, R use i j → S use j j) {m n : Member}
    (related : m.Retyped R n) : n.Retyped S n := by
  obtain ⟨descriptorIndex, attributes, rfl, hdescriptor, hattributes⟩ := related
  exact ⟨descriptorIndex, attributes, rfl, h _ _ _ hdescriptor,
    Attribute.RetypedList.self h _ _ hattributes⟩

end

theorem Constant.Retyped.self {name descriptor name' descriptor' : UInt16 → UInt16 → Prop}
    {c d : Constant} (h : c.Retyped name descriptor d) (hname : ∀ i j, name i j → name' j j)
    (hdescriptor : ∀ i j, descriptor i j → descriptor' j j) : d.Retyped name' descriptor' d := by
  cases c with
  | classRef n =>
    obtain ⟨n', rfl, moved⟩ := h
    exact ⟨n', rfl, hname n n' moved⟩
  | nameAndType n type =>
    obtain ⟨type', rfl, moved⟩ := h
    exact ⟨type', rfl, hdescriptor type type' moved⟩
  | methodType type =>
    obtain ⟨type', rfl, moved⟩ := h
    exact ⟨type', rfl, hdescriptor type type' moved⟩
  | _ =>
    obtain rfl := h
    rfl

/-- **A relocated class** names only what stays, if the renaming is final. -/
theorem ClassFile.Relocated.namesOnly {r : Renaming} {c d : ClassFile} (h : c.Relocated r d)
    (final : r.IsFinal) : d.NamesOnly (r · = none) := by
  have stays (use : TypeUse) (i j : UInt16) (moved : c.pool.Moves d.pool (r.image use) i j) :
      d.pool.Stays (use.NamesOnly (r · = none)) j j :=
    moved.stays fun _ _ image => Renaming.image_none_iff.1 (final.image_again image)
  have nameStays (i j : UInt16) (moved : c.pool.Moves d.pool r.nameImage i j) :
      d.pool.Stays (TypeUse.EntryNamesOnly (r · = none)) j j :=
    moved.stays fun _ _ image => Renaming.nameImage_none_iff.1 (final.nameImage_again image)
  have members {ms ns : List Member} (related : List.Forall₂
      (Member.Retyped fun use => c.pool.Moves d.pool (r.image use)) ms ns) :
      ∀ n ∈ ns, n.Retyped (fun use => d.pool.Stays (use.NamesOnly (r · = none))) n :=
    forall_mem_of_forall₂ (P := fun _ => True) related
      (fun _ _ hm _ => hm.self stays) (by simp)
  refine ⟨fun k e he => ?_, members h.fields, members h.methods,
    Attribute.RetypedList.self stays _ _ h.attributes⟩
  -- Behind the old pool there are texts only, which name no type by themselves.
  by_cases within : k < c.pool.slots.size
  · obtain ⟨e', he', retyped⟩ := h.entries k _ (Array.getElem?_eq_getElem within)
    obtain rfl : e = e' := Option.some.inj (he.symm.trans he')
    exact retyped.self nameStays (stays .descriptor)
  · obtain ⟨text, rfl⟩ := h.texts k e (Nat.not_lt.1 within) he
    rfl

/-! ## Traversals without a change -/

/-- A sequence goes on with the answer and the state of its first step. -/
theorem stateM_bind_of_eq {σ α β : Type} {x : StateM σ α} {f : α → StateM σ β} {s t : σ} {a : α}
    (h : x s = (a, t)) : (x >>= f) s = f a t := by
  show StateT.bind x f s = _
  rw [StateT.bind, h]
  rfl

section

variable {σ : Type} {s : σ} {R : TypeUse → UInt16 → UInt16 → Prop}
  {visit : TypeUse → UInt16 → StateM σ UInt16}

theorem mapM_eq_of_forall₂ {α β : Type} {f : α → StateM σ β} {r : α → β → Prop}
    (h : ∀ a b, r a b → f a s = (b, s)) {as : List α} {bs : List β}
    (related : List.Forall₂ r as bs) : as.mapM f s = (bs, s) := by
  induction related with
  | nil => rfl
  | cons hab _ ih =>
    rw [List.mapM_cons, stateM_bind_of_eq (h _ _ hab), stateM_bind_of_eq ih]
    rfl

mutual

theorem AnnotationUse.Retyped.mapTypes_eq (h : ∀ use i j, R use i j → visit use i s = (j, s)) :
    ∀ a b : AnnotationUse, a.Retyped R b → a.mapTypes visit s = (b, s)
  | ⟨_, elements⟩, _, ⟨_, elements', rfl, htype, helements⟩ => by
    have inside := Element.RetypedList.mapTypes_eq h elements elements' helements
    rw [AnnotationUse.mapTypes, stateM_bind_of_eq (h _ _ _ htype), stateM_bind_of_eq inside]
    rfl

theorem Element.RetypedList.mapTypes_eq (h : ∀ use i j, R use i j → visit use i s = (j, s)) :
    ∀ es fs : List Element, Element.RetypedList R es fs → Element.mapTypesList visit es s = (fs, s)
  | [], _, rfl => by
    rw [Element.mapTypesList]
    rfl
  | ⟨_, value⟩ :: rest, _, ⟨value', rest', rfl, hvalue, hrest⟩ => by
    have first := ElementValue.Retyped.mapTypes_eq h value value' hvalue
    have others := Element.RetypedList.mapTypes_eq h rest rest' hrest
    rw [Element.mapTypesList, stateM_bind_of_eq first, stateM_bind_of_eq others]
    rfl

theorem ElementValue.Retyped.mapTypes_eq (h : ∀ use i j, R use i j → visit use i s = (j, s)) :
    ∀ v w : ElementValue, v.Retyped R w → v.mapTypes visit s = (w, s)
  | .constant _ _, _, rfl => by
    rw [ElementValue.mapTypes]
    rfl
  | .enumConstant _ _, _, ⟨_, rfl, htype⟩ | .classLiteral _, _, ⟨_, rfl, htype⟩ => by
    rw [ElementValue.mapTypes, stateM_bind_of_eq (h _ _ _ htype)]
    rfl
  | .nested value, _, ⟨value', rfl, hvalue⟩ => by
    have inside := AnnotationUse.Retyped.mapTypes_eq h value value' hvalue
    rw [ElementValue.mapTypes, stateM_bind_of_eq inside]
    rfl
  | .array values, _, ⟨values', rfl, hvalues⟩ => by
    have inside := ElementValue.RetypedList.mapTypes_eq h values values' hvalues
    rw [ElementValue.mapTypes, stateM_bind_of_eq inside]
    rfl

theorem ElementValue.RetypedList.mapTypes_eq (h : ∀ use i j, R use i j → visit use i s = (j, s)) :
    ∀ vs ws : List ElementValue, ElementValue.RetypedList R vs ws →
      ElementValue.mapTypesList visit vs s = (ws, s)
  | [], _, rfl => by
    rw [ElementValue.mapTypesList]
    rfl
  | value :: rest, _, ⟨value', rest', rfl, hvalue, hrest⟩ => by
    have first := ElementValue.Retyped.mapTypes_eq h value value' hvalue
    have others := ElementValue.RetypedList.mapTypes_eq h rest rest' hrest
    rw [ElementValue.mapTypesList, stateM_bind_of_eq first, stateM_bind_of_eq others]
    rfl

end

theorem LocalVariable.Retyped.mapType_eq {visit : UInt16 → StateM σ UInt16}
    {R : UInt16 → UInt16 → Prop} (h : ∀ i j, R i j → visit i s = (j, s)) (v w : LocalVariable)
    (related : v.Retyped R w) : v.mapType visit s = (w, s) := by
  obtain ⟨type', rfl, htype⟩ := related
  rw [LocalVariable.mapType, stateM_bind_of_eq (h _ _ htype)]
  rfl

mutual

theorem Attribute.Retyped.mapTypes_eq (h : ∀ use i j, R use i j → visit use i s = (j, s)) :
    ∀ a b : Attribute, a.Retyped R b → a.mapTypes visit s = (b, s)
  | ⟨_, content⟩, _, ⟨content', rfl, hcontent⟩ => by
    have inside := Content.Retyped.mapTypes_eq h content content' hcontent
    rw [Attribute.mapTypes, stateM_bind_of_eq inside]
    rfl

theorem Attribute.RetypedList.mapTypes_eq (h : ∀ use i j, R use i j → visit use i s = (j, s)) :
    ∀ as bs : List Attribute, Attribute.RetypedList R as bs →
      Attribute.mapTypesList visit as s = (bs, s)
  | [], _, rfl => by
    rw [Attribute.mapTypesList]
    rfl
  | a :: rest, _, ⟨a', rest', rfl, ha, hrest⟩ => by
    have first := Attribute.Retyped.mapTypes_eq h a a' ha
    have others := Attribute.RetypedList.mapTypes_eq h rest rest' hrest
    rw [Attribute.mapTypesList, stateM_bind_of_eq first, stateM_bind_of_eq others]
    rfl

theorem Content.Retyped.mapTypes_eq (h : ∀ use i j, R use i j → visit use i s = (j, s)) :
    ∀ c d : Content, c.Retyped R d → c.mapTypes visit s = (d, s)
  | .code c, _, ⟨c', rfl, hc⟩ => by
    rw [Content.mapTypes, stateM_bind_of_eq (Code.Retyped.mapTypes_eq h c c' hc)]
    rfl
  | .bootstrapMethods _, _, rfl | .other _, _, rfl => by
    rw [Content.mapTypes]
    rfl
  | .signature _, _, ⟨_, rfl, hindex⟩ => by
    rw [Content.mapTypes, stateM_bind_of_eq (h _ _ _ hindex)]
    rfl
  | .visibleAnnotations _, _, ⟨_, rfl, hlist⟩ | .invisibleAnnotations _, _, ⟨_, rfl, hlist⟩ => by
    have inside := mapM_eq_of_forall₂ (AnnotationUse.Retyped.mapTypes_eq h) hlist
    rw [Content.mapTypes, stateM_bind_of_eq inside]
    rfl
  | .visibleParameterAnnotations _, _, ⟨_, rfl, hlists⟩
  | .invisibleParameterAnnotations _, _, ⟨_, rfl, hlists⟩ => by
    have list (as bs : List AnnotationUse)
        (related : List.Forall₂ (AnnotationUse.Retyped R) as bs) :
        as.mapM (·.mapTypes visit) s = (bs, s) :=
      mapM_eq_of_forall₂ (AnnotationUse.Retyped.mapTypes_eq h) related
    rw [Content.mapTypes, stateM_bind_of_eq (mapM_eq_of_forall₂ list hlists)]
    rfl
  | .annotationDefault value, _, ⟨value', rfl, hvalue⟩ => by
    have inside := ElementValue.Retyped.mapTypes_eq h value value' hvalue
    rw [Content.mapTypes, stateM_bind_of_eq inside]
    rfl
  | .localVariables _, _, ⟨_, rfl, htable⟩ | .localVariableTypes _, _, ⟨_, rfl, htable⟩ => by
    have inside := mapM_eq_of_forall₂ (LocalVariable.Retyped.mapType_eq (h _)) htable
    rw [Content.mapTypes, stateM_bind_of_eq inside]
    rfl

theorem Code.Retyped.mapTypes_eq (h : ∀ use i j, R use i j → visit use i s = (j, s)) :
    ∀ c d : Code, c.Retyped R d → c.mapTypes visit s = (d, s)
  | ⟨_, _, _, _, attributes⟩, _, ⟨attributes', rfl, hattributes⟩ => by
    have inside := Attribute.RetypedList.mapTypes_eq h attributes attributes' hattributes
    rw [Code.mapTypes, stateM_bind_of_eq inside]
    rfl

end

end

/-! ## Classes that are relocated to themselves -/

namespace Relocating

variable {p : ConstantPool} {r : Renaming}

/-- The visit of a text that stays answers its index and leaves the pool alone. -/
theorem rename_of_stays {map : String → Except Error (Option String)} {good : String → Prop}
    (hmap : ∀ text, good text → map text = .ok none) {i j : UInt16} (stays : p.Stays good i j) :
    rename map i ⟨p, none⟩ = (j, ⟨p, none⟩) := by
  obtain ⟨rfl, text, held, hgood⟩ := stays
  simp only [rename, held, hmap text hgood]

theorem visit_of_stays (r : Renaming) (owner member : String) (use : TypeUse) (i j : UInt16)
    (stays : p.Stays (use.NamesOnly (r · = none)) i j) :
    visit r owner member use i ⟨p, none⟩ = (j, ⟨p, none⟩) := by
  cases use with
  | descriptor =>
    refine rename_of_stays (fun text only => ?_) stays
    rw [show r.descriptor text = none from Renaming.image_none_iff.2 only]
  | signature =>
    refine rename_of_stays (fun text only => ?_) stays
    rw [show r.signature text = .ok none from Renaming.image_none_iff.2 only]
    rfl

/-- An entry that is put where it is already leaves the pool alone. -/
theorem setSlot_self {k : Nat} {e : Constant} (slot : p.slots[k]? = some e) :
    setSlot k e ⟨p, none⟩ = ((), ⟨p, none⟩) := by
  obtain ⟨lt, rfl⟩ := Array.getElem?_eq_some_iff.1 slot
  simp only [setSlot, Array.setIfInBounds_def, dif_pos lt, Array.set_getElem_self]

/-- A slot is left alone when its entry names only what stays. -/
theorem renameSlot_of_stays {k : Nat} {e : Constant} (slot : p.slots[k]? = some e)
    (stays : e.Retyped (p.Stays (TypeUse.EntryNamesOnly (r · = none)))
      (p.Stays (TypeUse.descriptor.NamesOnly (r · = none))) e) :
    renameSlot r k ⟨p, none⟩ = ((), ⟨p, none⟩) := by
  have same := setSlot_self slot
  have descriptors (text : String) (only : TypeUse.descriptor.NamesOnly (r · = none) text) :
      (Except.ok (r.descriptor text) : Except Error _) = .ok none :=
    congrArg Except.ok (Renaming.image_none_iff.2 only)
  have names (text : String) (only : TypeUse.EntryNamesOnly (r · = none) text) :
      (Except.ok (r.typeName text) : Except Error _) = .ok none :=
    congrArg Except.ok (Renaming.nameImage_none_iff.2 only)
  rw [renameSlot, get_bind, slot]
  cases e with
  | classRef n =>
    obtain ⟨_, ⟨⟩, stays⟩ := stays
    exact (stateM_bind_of_eq (rename_of_stays names stays)).trans same
  | nameAndType n type =>
    obtain ⟨_, ⟨⟩, stays⟩ := stays
    exact (stateM_bind_of_eq (rename_of_stays descriptors stays)).trans same
  | methodType type =>
    obtain ⟨_, ⟨⟩, stays⟩ := stays
    exact (stateM_bind_of_eq (rename_of_stays descriptors stays)).trans same
  | _ => rfl

/-- All slots are left alone, one after the other. -/
theorem forM_renameSlot_of_stays (stays : ∀ (k : Nat) (e : Constant), p.slots[k]? = some e →
      e.Retyped (p.Stays (TypeUse.EntryNamesOnly (r · = none)))
        (p.Stays (TypeUse.descriptor.NamesOnly (r · = none))) e) {n : Nat}
    (le : n ≤ p.slots.size) :
    (List.range n).forM (renameSlot r) ⟨p, none⟩ = ((), ⟨p, none⟩) := by
  induction n with
  | zero => rfl
  | succ n ih =>
    have slot : p.slots[n]? = some p.slots[n] := Array.getElem?_eq_getElem le
    rw [List.range_succ, List.forM_eq_forM, List.forM_append]
    rw [List.forM_eq_forM] at ih
    rw [stateM_bind_of_eq (ih (Nat.le_of_succ_le le)), List.forM_cons,
      stateM_bind_of_eq (renameSlot_of_stays slot (stays n _ slot))]
    rfl

theorem renameMember_of_stays {owner : String} {m n : Member}
    (h : (∃ name, m.name p = .ok name) ∧
      m.Retyped (fun use => p.Stays (use.NamesOnly (r · = none))) n) :
    renameMember r owner m ⟨p, none⟩ = (n, ⟨p, none⟩) := by
  obtain ⟨⟨name, hname⟩, descriptorIndex, attributes, rfl, hdescriptor, hattributes⟩ := h
  have lookedUp : location m.nameIndex ⟨p, none⟩ = (name, ⟨p, none⟩) := by
    rw [Member.name] at hname
    simp only [location, hname]
  have descriptor := visit_of_stays r owner name .descriptor _ _ hdescriptor
  have inside := Attribute.RetypedList.mapTypes_eq (visit_of_stays r owner name) _ _ hattributes
  rw [renameMember, stateM_bind_of_eq lookedUp, stateM_bind_of_eq descriptor,
    stateM_bind_of_eq inside]
  rfl

end Relocating

open Relocating

/-- **A class that names only what stays** is relocated to itself, if it has a name and so have its
members. -/
theorem ClassFile.NamesOnly.relocate_eq {r : Renaming} {c : ClassFile} {owner : String}
    (h : c.NamesOnly (r · = none)) (names : c.HasNames) (named : c.name = .ok owner) :
    c.relocate r = .ok () c := by
  -- Each visit answers its own index and leaves the state as it is, and so each part stays.
  have slots := forM_renameSlot_of_stays h.entries (Nat.le_refl _)
  have members {ms : List Member} (hnames : ∀ m ∈ ms, ∃ name, m.name c.pool = .ok name)
      (only : ∀ m ∈ ms, m.Retyped (fun use => c.pool.Stays (use.NamesOnly (r · = none))) m) :
      ms.mapM (renameMember r owner) ⟨c.pool, none⟩ = (ms, ⟨c.pool, none⟩) := by
    have related : List.Forall₂ (fun m n => (∃ name, m.name c.pool = .ok name) ∧
        m.Retyped (fun use => c.pool.Stays (use.NamesOnly (r · = none))) n) ms ms :=
      List.forall₂_same.2 fun m hm => ⟨hnames m hm, only m hm⟩
    refine mapM_eq_of_forall₂ (fun m n h => ?_) related
    exact renameMember_of_stays h
  have fields := members names.fields h.fields
  have methods : c.methods.mapM (renameMember r owner) ⟨c.pool, none⟩ =
      (c.methods, ⟨c.pool, none⟩) := by
    rw [Array.mapM_eq_mapM_toList, map_eq_pure_bind,
      stateM_bind_of_eq (members names.methods h.methods)]
    rfl
  have attributes := Attribute.RetypedList.mapTypes_eq (visit_of_stays r owner "<class>") _ _
    h.attributes
  have places : relocatePlaces r owner { c with pool := .empty } ⟨c.pool, none⟩ =
      ({ c with pool := .empty }, ⟨c.pool, none⟩) := by
    rw [relocatePlaces, stateM_bind_of_eq fields, stateM_bind_of_eq methods,
      stateM_bind_of_eq attributes]
    rfl
  rw [relocate_eq_outcome r named, slots, places]
  rfl

end ClassWeave
