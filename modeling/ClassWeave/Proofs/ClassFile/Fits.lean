import ClassWeave.Proofs.Bytecode.Code
import ClassWeave.Proofs.ClassFile.Resolved
import Mathlib.Algebra.GroupWithZero.Nat

/-!
# Which classes can be written

**Sizes** (`Attribute.size`). How many bytes a part takes is told by the part alone, whether it can
be written or not.

**Fitting** (`ClassFile.Fits`). Every count fits its width, at every level of annotations and code;
every content of an attribute has a size of four bytes; and every body has code and a depth.

**Main result** (`ClassFile.write_iff_fits`). The classes that can be written are those that fit,
and what is written of a readable class is read back as that class with its bodies and depths
resolved.

Parts are put together as in the writer: `Encoded.Takes` says when a part is written and how many
bytes it takes, and it is kept by every way of putting parts together.
-/

namespace ClassWeave

namespace Encoded

/-- The part is written exactly when it fits, and then it takes the given count of bytes. -/
structure Takes (x : Encoded) (fits : Prop) (size : Nat) : Prop where
  written : fits → ∃ bs, x = .ok bs ∧ bs.length = size
  fits {bs : Bytes} : x = .ok bs → fits

namespace Takes

variable {x y z : Encoded} {p q : Prop} {m n : Nat} {bs : Bytes}

theorem written_iff (h : Takes x p n) : (∃ bs, x = .ok bs) ↔ p := by
  refine ⟨fun ⟨_, hx⟩ => h.fits hx, fun hp => ?_⟩
  obtain ⟨bs, hx, _⟩ := h.written hp
  exact ⟨bs, hx⟩

theorem length (h : Takes x p n) (hx : x = .ok bs) : bs.length = n := by
  obtain ⟨bs', hx', length⟩ := h.written (h.fits hx)
  rwa [Except.ok.inj (hx.symm.trans hx')]

theorem congr (h : Takes x p n) (fits : p ↔ q) (size : n = m) : Takes x q m where
  written hq := by
    rw [← size]
    exact h.written (fits.2 hq)
  fits hx := fits.1 (h.fits hx)

theorem ok (bs : Bytes) : Takes (.ok bs) True bs.length where
  written _ := ⟨bs, rfl, rfl⟩
  fits _ := trivial

/-- One part after the other. -/
theorem append (hx : Takes x p m) (hy : Takes y q n)
    (form : ∀ bs, z = .ok bs ↔ ∃ u v, x = .ok u ∧ y = .ok v ∧ bs = u ++ v) :
    Takes z (p ∧ q) (m + n) where
  written given := by
    obtain ⟨u, hu, hm⟩ := hx.written given.1
    obtain ⟨v, hv, hn⟩ := hy.written given.2
    exact ⟨u ++ v, (form _).2 ⟨u, v, hu, hv, rfl⟩, by rw [List.length_append, hm, hn]⟩
  fits hz := by
    obtain ⟨u, v, hu, hv, _⟩ := (form _).1 hz
    exact ⟨hx.fits hu, hy.fits hv⟩

/-- A part behind bytes that are always there. -/
theorem behind (hx : Takes x p n) (head : Bytes) (length : head.length = m)
    (form : ∀ bs, z = .ok bs ↔ ∃ u, x = .ok u ∧ bs = head ++ u) : Takes z p (m + n) := by
  refine ((ok head).append hx fun bs => ?_).congr (by simp) (by rw [length])
  simp [form]

/-- A part behind its length. -/
theorem withLength (hx : Takes x p n) :
    Takes (x >>= Encoded.withLength) (p ∧ n < 0x100000000) (4 + n) where
  written given := by
    obtain ⟨u, hu, length⟩ := hx.written given.1
    refine ⟨_, except_bind_eq_ok_iff.2 ⟨u, hu, withLength_eq_ok_iff.2 ⟨length ▸ given.2, rfl⟩⟩, ?_⟩
    rw [List.length_append, length_bigEndian, length]
  fits hz := by
    obtain ⟨u, hu, hz⟩ := except_bind_eq_ok_iff.1 hz
    exact ⟨hx.fits hu, hx.length hu ▸ (withLength_eq_ok_iff.1 hz).1⟩

section

variable {α : Type} {encode : α → Encoded} {fits : α → Prop} {size : α → Nat}

theorem concat : ∀ as : List α, (∀ a ∈ as, Takes (encode a) (fits a) (size a)) →
    Takes (concat encode as) (∀ a ∈ as, fits a) (as.map size).sum
  | [], _ => (ok []).congr (by simp) rfl
  | a :: as, parts => by
    rw [List.forall_mem_cons] at parts
    exact (parts.1.append (concat as parts.2) fun bs => concat_cons_eq_ok_iff).congr
      List.forall_mem_cons.symm rfl

theorem counted (what : Counted) {as : List α}
    (parts : ∀ a ∈ as, Takes (encode a) (fits a) (size a)) :
    Takes (counted what encode as) (as.length < 0x10000 ∧ ∀ a ∈ as, fits a)
      (2 + (as.map size).sum) := by
  have head : Takes (count what as.length) (as.length < 0x10000) 2 :=
    ⟨fun lt => ⟨_, count_eq_ok_iff.2 ⟨lt, rfl⟩, rfl⟩, fun h => (count_eq_ok_iff.1 h).1⟩
  refine head.append (concat as parts) fun bs => ?_
  simp only [counted_eq_ok_iff, count_eq_ok_iff]
  exact ⟨fun ⟨lt, v, hv, form⟩ => ⟨_, v, ⟨lt, rfl⟩, hv, form⟩,
    fun ⟨u, v, ⟨lt, hu⟩, hv, form⟩ => ⟨lt, v, hv, hu ▸ form⟩⟩

/-- A list of parts that always fit and take the same count of bytes. -/
theorem countedConstant (what : Counted) (encode : α → Bytes) {k : Nat}
    (length : ∀ a, (encode a).length = k) (as : List α) :
    Takes (Encoded.counted what (fun a => .ok (encode a)) as) (as.length < 0x10000)
      (2 + k * as.length) := by
  refine (counted what fun a _ => ok (encode a)).congr (by simp) ?_
  simp only [length, List.map_const', List.sum_replicate_nat, Nat.mul_comm]

end

end Takes

end Encoded

open Encoded

/-! ## Annotations -/

mutual

/-- The count of bytes that the annotation takes. -/
def AnnotationUse.size : AnnotationUse → Nat
  | ⟨_, elements⟩ => 4 + Element.listSize elements

def Element.listSize : List Element → Nat
  | [] => 0
  | ⟨_, value⟩ :: rest => 2 + value.size + Element.listSize rest

/-- The count of bytes that the value takes. -/
def ElementValue.size : ElementValue → Nat
  | .constant .. | .classLiteral _ => 3
  | .enumConstant .. => 5
  | .nested value => 1 + value.size
  | .array values => 3 + ElementValue.listSize values

def ElementValue.listSize : List ElementValue → Nat
  | [] => 0
  | value :: rest => value.size + ElementValue.listSize rest

end

mutual

/-- No list in the annotation is too long for its count. -/
def AnnotationUse.Fits : AnnotationUse → Prop
  | ⟨_, elements⟩ => elements.length < 0x10000 ∧ Element.ListFits elements

def Element.ListFits : List Element → Prop
  | [] => True
  | ⟨_, value⟩ :: rest => value.Fits ∧ Element.ListFits rest

/-- No list in the value is too long for its count. -/
def ElementValue.Fits : ElementValue → Prop
  | .constant .. | .enumConstant .. | .classLiteral _ => True
  | .nested value => value.Fits
  | .array values => values.length < 0x10000 ∧ ElementValue.ListFits values

def ElementValue.ListFits : List ElementValue → Prop
  | [] => True
  | value :: rest => value.Fits ∧ ElementValue.ListFits rest

end

theorem Element.listFits_iff (es : List Element) : ListFits es ↔ ∀ e ∈ es, e.value.Fits := by
  induction es with
  | nil => simp [ListFits]
  | cons e es ih =>
    obtain ⟨name, value⟩ := e
    rw [ListFits, ih, List.forall_mem_cons]

theorem Element.listSize_eq (es : List Element) :
    listSize es = (es.map fun e => 2 + e.value.size).sum := by
  induction es with
  | nil => rfl
  | cons e es ih =>
    obtain ⟨name, value⟩ := e
    rw [listSize, ih, List.map_cons, List.sum_cons]

theorem ElementValue.listFits_iff (vs : List ElementValue) : ListFits vs ↔ ∀ v ∈ vs, v.Fits := by
  induction vs with
  | nil => simp [ListFits]
  | cons v vs ih => rw [ListFits, ih, List.forall_mem_cons]

theorem ElementValue.listSize_eq (vs : List ElementValue) :
    listSize vs = (vs.map ElementValue.size).sum := by
  induction vs with
  | nil => rfl
  | cons v vs ih => rw [listSize, ih, List.map_cons, List.sum_cons]

theorem Element.takes {e : Element} (h : Takes e.value.encode e.value.Fits e.value.size) :
    Takes e.encode e.value.Fits (2 + e.value.size) :=
  h.behind (ofWord16 e.nameIndex) (length_ofWord16 _) fun _ => word16_append_eq_ok_iff

theorem ElementValue.takes_of_body (v : ElementValue) {p : Prop} {n : Nat}
    (h : Takes v.encodeBody p n) : Takes v.encode p (1 + n) :=
  h.behind [v.tag] rfl fun _ => ElementValue.encode_eq_ok_iff

mutual

theorem AnnotationUse.takes : ∀ a : AnnotationUse, Takes a.encode a.Fits a.size
  | ⟨type, elements⟩ => by
    rw [AnnotationUse.encode_eq, AnnotationUse.Fits, AnnotationUse.size, Element.listFits_iff,
      Element.listSize_eq]
    exact ((Takes.counted .annotationElements (Element.listTakes elements)).behind (ofWord16 type)
      (length_ofWord16 type) fun _ => word16_append_eq_ok_iff).congr Iff.rfl (by omega)

theorem Element.listTakes : ∀ es : List Element, ∀ e ∈ es,
    Takes e.encode e.value.Fits (2 + e.value.size)
  | [] => by simp
  | ⟨name, value⟩ :: es => List.forall_mem_cons.2
      ⟨Element.takes (e := ⟨name, value⟩) value.takes, Element.listTakes es⟩

theorem ElementValue.takes : ∀ v : ElementValue, Takes v.encode v.Fits v.size
  | .constant tag index =>
    ElementValue.takes_of_body (.constant tag index) (Takes.ok (ofWord16 index))
  | .enumConstant typeName constantName =>
    ElementValue.takes_of_body (.enumConstant typeName constantName)
      (Takes.ok (ofWord16 typeName ++ ofWord16 constantName))
  | .classLiteral descriptor =>
    ElementValue.takes_of_body (.classLiteral descriptor) (Takes.ok (ofWord16 descriptor))
  | .nested value => ElementValue.takes_of_body (.nested value) value.takes
  | .array values => by
    rw [ElementValue.Fits, ElementValue.size, ElementValue.listFits_iff, ElementValue.listSize_eq]
    exact (ElementValue.takes_of_body (.array values) (Takes.counted .arrayElements
      (ElementValue.listTakes values))).congr Iff.rfl (by omega)

theorem ElementValue.listTakes : ∀ vs : List ElementValue, ∀ v ∈ vs, Takes v.encode v.Fits v.size
  | [] => by simp
  | v :: vs => List.forall_mem_cons.2 ⟨v.takes, ElementValue.listTakes vs⟩

end

/-- The count of bytes that a counted list of annotations takes. -/
def AnnotationUse.tableSize (list : List AnnotationUse) : Nat :=
  2 + (list.map AnnotationUse.size).sum

/-- A list of annotations and all in it are not too long for their counts. -/
def AnnotationUse.TableFits (list : List AnnotationUse) : Prop :=
  list.length < 0x10000 ∧ ∀ a ∈ list, a.Fits

theorem AnnotationUse.table_takes (what : Counted) (list : List AnnotationUse) :
    Takes (encodeList what list) (TableFits list) (tableSize list) :=
  Takes.counted what fun a _ => a.takes

theorem AnnotationUse.parameters_take (lists : List (List AnnotationUse)) :
    Takes (encodeParameters lists) (lists.length < 0x100 ∧ ∀ list ∈ lists, TableFits list)
      (1 + (lists.map tableSize).sum) := by
  have head : Takes (byteCount lists.length) (lists.length < 0x100) 1 :=
    ⟨fun lt => ⟨_, byteCount_eq_ok_iff.2 ⟨lt, rfl⟩, rfl⟩, fun h => (byteCount_eq_ok_iff.1 h).1⟩
  refine head.append (Takes.concat lists fun list _ => table_takes .parameterAnnotations list)
    fun bs => ?_
  simp only [encodeParameters, except_bind_eq_ok_iff, except_pure_eq_ok_iff]
  constructor
  · rintro ⟨u, hu, v, hv, form⟩
    exact ⟨u, v, hu, hv, form.symm⟩
  · rintro ⟨u, v, hu, hv, form⟩
    exact ⟨u, hu, v, hv, form.symm⟩

/-! ## Attributes -/

/-- The count of bytes that the code of a body takes. -/
def CodeBody.size : CodeBody → Nat
  | bytecode code => code.length
  | instructions list => (list.map Instruction.encodedLength).sum

theorem Code.length_bytes {c : Code} {bs : Bytes} (h : c.bytes = .ok bs) :
    bs.length = c.body.size := by
  obtain ⟨limit, locals, body, handlers, attributes⟩ := c
  cases body with
  | bytecode code =>
    obtain rfl : code = bs := Except.ok.inj h
    rfl
  | instructions list =>
    obtain ⟨_, rfl⟩ := encodeInstructions_eq_ok_iff.1 h
    exact Instruction.length_flatMap_encode list

mutual

/-- The count of bytes that the attribute takes. -/
def Attribute.size : Attribute → Nat
  | ⟨_, content⟩ => 2 + (4 + content.size)

def Attribute.listSize : List Attribute → Nat
  | [] => 0
  | a :: rest => a.size + Attribute.listSize rest

/-- The count of bytes that the content of an attribute takes. -/
def Content.size : Content → Nat
  | .code c => c.size
  | .bootstrapMethods methods => 2 + (methods.map fun m => 2 + (2 + 2 * m.arguments.length)).sum
  | .signature _ => 2
  | .visibleAnnotations list | .invisibleAnnotations list => AnnotationUse.tableSize list
  | .visibleParameterAnnotations lists | .invisibleParameterAnnotations lists =>
    1 + (lists.map AnnotationUse.tableSize).sum
  | .annotationDefault value => value.size
  | .localVariables table | .localVariableTypes table => 2 + 10 * table.length
  | .other bytes => bytes.length

def Code.size : Code → Nat
  | ⟨_, _, body, handlers, attributes⟩ =>
    4 + (4 + body.size) + (2 + 8 * handlers.length) + (2 + Attribute.listSize attributes)

end

theorem Attribute.listSize_eq (as : List Attribute) : listSize as = (as.map size).sum := by
  induction as with
  | nil => rfl
  | cons a as ih => rw [listSize, ih, List.map_cons, List.sum_cons]

/-- The code has a depth and bytes, and its lists are not too long for their counts. -/
structure Code.Fits (c : Code) : Prop where
  depth : ∃ depth, c.maxStack = .ok depth
  code : ∃ code, c.bytes = .ok code
  code_lt : c.body.size < 0x100000000
  handlers_lt : c.handlers.length < 0x10000
  attributes_lt : c.attributes.length < 0x10000

/-- The lists in the content, those of the attributes of code aside, are not too long for their
counts. -/
def Content.Fits : Content → Prop
  | .code c => c.Fits
  | .bootstrapMethods methods =>
    methods.length < 0x10000 ∧ ∀ m ∈ methods, m.arguments.length < 0x10000
  | .visibleAnnotations list | .invisibleAnnotations list => AnnotationUse.TableFits list
  | .visibleParameterAnnotations lists | .invisibleParameterAnnotations lists =>
    lists.length < 0x100 ∧ ∀ list ∈ lists, AnnotationUse.TableFits list
  | .annotationDefault value => value.Fits
  | .localVariables table | .localVariableTypes table => table.length < 0x10000
  | .signature _ | .other _ => True

/-- The attribute itself, those of its code aside, fits. -/
structure Attribute.Fits (a : Attribute) : Prop where
  content : a.content.Fits
  payload_lt : a.content.size < 0x100000000

theorem BootstrapMethod.takes (m : BootstrapMethod) :
    Takes m.encode (m.arguments.length < 0x10000) (2 + (2 + 2 * m.arguments.length)) :=
  (Takes.countedConstant .bootstrapArguments ofWord16 length_ofWord16 m.arguments).behind
    (ofWord16 m.handle) (length_ofWord16 _) fun _ => word16_append_eq_ok_iff

theorem Handler.length_encode (h : Handler) : h.encode.length = 8 := by simp [encode]

theorem LocalVariable.length_encode (v : LocalVariable) : v.encode.length = 10 := by simp [encode]

/-- Code with attributes that are written. -/
theorem Code.takes_of_attributes {c : Code} (attributes : ∀ a ∈ c.attributes,
    Takes a.encode (a.Everywhere Attribute.Fits) a.size) :
    Takes c.encode (c.Fits ∧ ∀ a ∈ c.attributes, a.Everywhere Attribute.Fits)
      (4 + (4 + c.body.size) + (2 + 8 * c.handlers.length) +
        (2 + (c.attributes.map Attribute.size).sum)) := by
  have handlers := Takes.countedConstant .handlers Handler.encode Handler.length_encode c.handlers
  have attributes := Takes.counted .codeAttributes attributes
  refine ⟨?_, ?_⟩
  · intro given
    obtain ⟨⟨⟨depth, hdepth⟩, ⟨code, hcode⟩, code_lt, handlers_lt, attributes_lt⟩, all⟩ := given
    obtain ⟨table, htable, tableLength⟩ := handlers.written handlers_lt
    obtain ⟨rest, hrest, restLength⟩ := attributes.written ⟨attributes_lt, all⟩
    have codeLength := Code.length_bytes hcode
    refine ⟨_, Code.encode_eq_ok_iff.2 ⟨depth, code, _, table, rest, hdepth, hcode,
      withLength_eq_ok_iff.2 ⟨codeLength ▸ code_lt, rfl⟩, htable, hrest, rfl⟩, ?_⟩
    simp only [List.length_append, length_ofWord16, length_bigEndian, codeLength, tableLength,
      restLength]
    omega
  · intro bs h
    obtain ⟨depth, code, body, table, rest, hdepth, hcode, hbody, htable, hrest, _⟩ :=
      Code.encode_eq_ok_iff.1 h
    obtain ⟨attributes_lt, all⟩ := attributes.fits hrest
    exact ⟨⟨⟨depth, hdepth⟩, ⟨code, hcode⟩,
      Code.length_bytes hcode ▸ (withLength_eq_ok_iff.1 hbody).1, handlers.fits htable,
      attributes_lt⟩, all⟩

mutual

theorem Attribute.takes : ∀ a : Attribute, Takes a.encode (a.Everywhere Attribute.Fits) a.size
  | ⟨name, content⟩ => by
    -- An attribute is its name in front of its content, whose length is stated.
    refine (content.takes.withLength.behind (ofWord16 name) (length_ofWord16 name)
      fun bs => ?_).congr ?_ rfl
    · simp only [Attribute.encode_eq_ok_iff, except_bind_eq_ok_iff]
      exact ⟨fun ⟨payload, part, hp, hpart, form⟩ => ⟨part, ⟨payload, hp, hpart⟩, form⟩,
        fun ⟨part, ⟨payload, hp, hpart⟩, form⟩ => ⟨payload, part, hp, hpart, form⟩⟩
    · exact ⟨fun ⟨⟨fits, all⟩, lt⟩ => ⟨⟨fits, lt⟩, all⟩, fun ⟨⟨fits, lt⟩, all⟩ => ⟨⟨fits, all⟩, lt⟩⟩

theorem Attribute.listTakes : ∀ as : List Attribute, ∀ a ∈ as,
    Takes a.encode (a.Everywhere Attribute.Fits) a.size
  | [] => by simp
  | a :: as => List.forall_mem_cons.2 ⟨a.takes, Attribute.listTakes as⟩

theorem Content.takes : ∀ content : Content,
    Takes content.encode (content.Fits ∧ content.Everywhere Attribute.Fits) content.size
  | .code c => c.takes
  | .bootstrapMethods methods =>
    (Takes.counted .bootstrapMethods fun m _ => m.takes).congr
      (by simp [Content.Fits, Content.Everywhere]) rfl
  | .signature index =>
    (Takes.ok (ofWord16 index)).congr (by simp [Content.Fits, Content.Everywhere]) rfl
  | .visibleAnnotations list | .invisibleAnnotations list =>
    (AnnotationUse.table_takes .annotations list).congr
      (by simp [Content.Fits, Content.Everywhere]) rfl
  | .visibleParameterAnnotations lists | .invisibleParameterAnnotations lists =>
    (AnnotationUse.parameters_take lists).congr (by simp [Content.Fits, Content.Everywhere]) rfl
  | .annotationDefault value => value.takes.congr (by simp [Content.Fits, Content.Everywhere]) rfl
  | .localVariables table | .localVariableTypes table =>
    (Takes.countedConstant .localVariables LocalVariable.encode LocalVariable.length_encode
      table).congr (by simp [Content.Fits, Content.Everywhere]) rfl
  | .other bytes => (Takes.ok bytes).congr (by simp [Content.Fits, Content.Everywhere]) rfl

theorem Code.takes : ∀ c : Code, Takes c.encode (c.Fits ∧ c.Everywhere Attribute.Fits) c.size
  | ⟨limit, locals, body, handlers, attributes⟩ => by
    rw [Code.size, Attribute.listSize_eq, Code.Everywhere, Attribute.listEverywhere_iff]
    exact Code.takes_of_attributes (c := ⟨limit, locals, body, handlers, attributes⟩)
      (Attribute.listTakes attributes)

end

/-! ## Classes -/

theorem Member.takes (what : Counted) (m : Member) :
    Takes (m.encode what)
      (m.attributes.length < 0x10000 ∧ m.Everywhere Attribute.Fits)
      (6 + (2 + (m.attributes.map Attribute.size).sum)) :=
  (Takes.counted what fun a _ => a.takes).behind
    (ofWord16 m.accessFlags ++ ofWord16 m.nameIndex ++ ofWord16 m.descriptorIndex)
    (by simp) fun bs => by simp [encode_eq_ok_iff]

/-- The text of the entry is not too long for its count of bytes. -/
def Constant.Fits : Constant → Prop
  | utf8 text => (ModifiedUtf8.encode text).length < 0x10000
  | rawUtf8 bs => bs.length < 0x10000
  | _ => True

instance : DecidablePred Constant.Fits
  | .utf8 text => inferInstanceAs (Decidable ((ModifiedUtf8.encode text).length < 0x10000))
  | .rawUtf8 bs => inferInstanceAs (Decidable (bs.length < 0x10000))
  | .integer _ | .float _ | .long _ | .double _ | .classRef _ | .string _ | .fieldRef _ _
  | .methodRef _ _ | .interfaceMethodRef _ _ | .nameAndType _ _ | .methodHandle _ _
  | .methodType _ | .dynamic _ _ | .invokeDynamic _ _ | .module _ | .package _ | .unusable =>
    isTrue trivial

theorem Constant.written_iff (c : Constant) : (∃ bs, c.encode = .ok bs) ↔ c.Fits := by
  cases c
  case utf8 | rawUtf8 => simp [encode, Fits, textEntry_eq_ok_iff]
  all_goals exact ⟨fun _ => trivial, fun _ => ⟨_, rfl⟩⟩

theorem Encoded.concat_written_iff {α : Type} (encode : α → Encoded) (as : List α) :
    (∃ bs, concat encode as = .ok bs) ↔ ∀ a ∈ as, ∃ bs, encode a = .ok bs := by
  induction as with
  | nil => simp [concat_nil]
  | cons a as ih =>
    rw [List.forall_mem_cons, ← ih]
    simp only [concat_cons_eq_ok_iff]
    exact ⟨fun ⟨_, u, v, hu, hv, _⟩ => ⟨⟨u, hu⟩, v, hv⟩,
      fun ⟨⟨u, hu⟩, v, hv⟩ => ⟨_, u, v, hu, hv, rfl⟩⟩

namespace ClassFile

/-- Everything in the class fits: its texts, its lists and, at every level, its attributes. -/
structure Fits (c : ClassFile) : Prop where
  texts : ∀ entry ∈ c.pool.slots.toList, entry.Fits
  interfaces_lt : c.interfaces.length < 0x10000
  fields_lt : c.fields.length < 0x10000
  methods_lt : c.methods.size < 0x10000
  attributes_lt : c.attributes.length < 0x10000
  fieldAttributes_lt : ∀ m ∈ c.fields, m.attributes.length < 0x10000
  methodAttributes_lt : ∀ m ∈ c.methods.toList, m.attributes.length < 0x10000
  everywhere : c.Everywhere Attribute.Fits

/-- **A class can be written** exactly when everything in it fits. -/
theorem write_iff_fits (c : ClassFile) : (∃ bs, c.write = .ok bs) ↔ c.Fits := by
  have pool : (∃ bs, c.pool.encode = .ok bs) ↔ ∀ entry ∈ c.pool.slots.toList, entry.Fits := by
    simp only [← Constant.written_iff, ← concat_written_iff, ConstantPool.encode_eq_ok_iff]
    exact ⟨fun ⟨_, v, hv, _⟩ => ⟨v, hv⟩, fun ⟨v, hv⟩ => ⟨_, v, hv, rfl⟩⟩
  have interfaces := Takes.countedConstant .interfaces ofWord16 length_ofWord16 c.interfaces
  have fields := Takes.counted .fields fun m (_ : m ∈ c.fields) => m.takes .fieldAttributes
  have methods := Takes.counted .methods fun m (_ : m ∈ c.methods.toList) =>
    m.takes .methodAttributes
  have attributes := Takes.counted .classAttributes fun a (_ : a ∈ c.attributes) => a.takes
  -- A class is written when all of its parts are, and each part when it fits.
  refine ⟨?_, ?_⟩
  · intro written
    obtain ⟨bs, h⟩ := written
    obtain ⟨p, behind, hp, ⟨i, f, m, a, hi, hf, hm, ha, _⟩, _⟩ := write_eq_ok_iff.1 h
    obtain ⟨fields_lt, eachField⟩ := fields.fits hf
    obtain ⟨methods_lt, eachMethod⟩ := methods.fits hm
    obtain ⟨attributes_lt, own⟩ := attributes.fits ha
    exact {
      texts := pool.1 ⟨p, hp⟩
      interfaces_lt := interfaces.fits hi
      fields_lt, methods_lt, attributes_lt
      fieldAttributes_lt := fun m hm => (eachField m hm).1
      methodAttributes_lt := fun m hm => (eachMethod m hm).1
      everywhere := ⟨fun m hm => (eachField m hm).2, fun m hm => (eachMethod m hm).2, own⟩ }
  · intro fits
    obtain ⟨p, hp⟩ := pool.2 fits.texts
    obtain ⟨i, hi, _⟩ := interfaces.written fits.interfaces_lt
    obtain ⟨f, hf, _⟩ := fields.written ⟨fits.fields_lt, fun m hm =>
      ⟨fits.fieldAttributes_lt m hm, fits.everywhere.fields m hm⟩⟩
    obtain ⟨m, hm, _⟩ := methods.written ⟨fits.methods_lt, fun m hm =>
      ⟨fits.methodAttributes_lt m hm, fits.everywhere.methods m hm⟩⟩
    obtain ⟨a, ha, _⟩ := attributes.written ⟨fits.attributes_lt, fits.everywhere.attributes⟩
    exact ⟨_, write_eq_ok_iff.2 ⟨p, _, hp, ⟨i, f, m, a, hi, hf, hm, ha, rfl⟩, rfl⟩⟩

/-- **A readable class** can be written exactly when everything in it fits, and what is written of
it is read back as the class with its bodies and depths resolved. -/
theorem write_reads_back {c : ClassFile} (readable : c.Readable) :
    ((∃ bs, c.write = .ok bs) ↔ c.Fits) ∧ ∀ bs, c.write = .ok bs → read bs = .ok c.resolved :=
  ⟨c.write_iff_fits, fun _ written => read_of_write_resolved written readable⟩

/-- A class with a wide entry and a method that returns its parameter, given the depth and the
body of the method. -/
def identityClass (limit : StackLimit) (body : CodeBody) : ClassFile :=
  { empty with
    pool := ⟨#[.utf8 "Code", .long 9, .unusable, .utf8 "Signature"]⟩
    methods := #[⟨8, 1, 1, [⟨1, .code ⟨limit, 1, body, [], [⟨4, .signature 1⟩]⟩⟩]⟩] }

/-- The class before it is written. -/
def symbolicClass : ClassFile :=
  identityClass .computed (.instructions [.load .int 0, .ret (some .int)])

theorem write_reads_back_symbolicClass : symbolicClass.Readable ∧ symbolicClass.Fits ∧
    ∃ bs, symbolicClass.write = .ok bs ∧
      read bs = .ok (identityClass (.fixed 1) (.bytecode [0x1A, 0xAC])) := by
  have readable : symbolicClass.Readable := {
    magic_eq := rfl
    laidOut := (ConstantPool.laidOut_iff _).2
      ⟨by decide, .narrow (by decide) rfl (.wide rfl (.narrow (by decide) rfl .nil))⟩
    regular := by
      simp [symbolicClass, identityClass, ConstantPool.IsRegular, Constant.IsRegular]
    everywhere := by
      refine ⟨List.forall_mem_nil _, ?_, List.forall_mem_nil _⟩
      simp only [symbolicClass, identityClass, List.forall_mem_singleton, Member.Everywhere]
      exact ⟨⟨⟨_, rfl, rfl⟩, trivial⟩, ⟨⟨⟨_, rfl, rfl⟩, trivial⟩, trivial⟩, trivial⟩ }
  obtain ⟨bs, written⟩ : ∃ bs, symbolicClass.write = .ok bs := ⟨_, rfl⟩
  have resolved : symbolicClass.resolved = identityClass (.fixed 1) (.bytecode [0x1A, 0xAC]) := by
    simp only [symbolicClass, identityClass, resolved, List.map_toArray]
    rfl
  obtain ⟨fits, back⟩ := write_reads_back readable
  exact ⟨readable, fits.1 ⟨bs, written⟩, bs, written, resolved ▸ back bs written⟩

end ClassFile

end ClassWeave
