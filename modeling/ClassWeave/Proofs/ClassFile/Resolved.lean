import ClassWeave.Proofs.ClassFile.RoundTrip
import Mathlib.Tactic.Simps.Basic

/-!
# What a class is read back as

**Resolving** (`ClassFile.resolved`). In a class that is written, each symbolic body has some bytes
and each computed depth has a value; the resolved class holds these in their place.

**Main result** (`ClassFile.read_of_write_resolved`). A class whose pool is laid out and whose names
call for their contents is read back as its resolved class. What was read before is resolved
already.
-/

namespace ClassWeave

open Encoded

/-! ## Resolving -/

/-- The answer, or a default when there is none. -/
def Except.orDefault {ε α : Type} [Inhabited α] (x : Except ε α) : α := x.toOption.getD default

mutual

def Attribute.resolved : Attribute → Attribute
  | ⟨name, content⟩ => ⟨name, content.resolved⟩

def Attribute.listResolved : List Attribute → List Attribute
  | [] => []
  | a :: rest => a.resolved :: Attribute.listResolved rest

def Content.resolved : Content → Content
  | .code c => .code c.resolved
  | content => content

/-- The code with the depth and the bytes that are written. -/
def Code.resolved : Code → Code
  | ⟨stackLimit, maxLocals, body, handlers, attributes⟩ =>
    let code : Code := ⟨stackLimit, maxLocals, body, handlers, []⟩
    ⟨.fixed (Except.orDefault code.maxStack), maxLocals, .bytecode (Except.orDefault code.bytes),
      handlers, Attribute.listResolved attributes⟩

end

theorem Attribute.listResolved_eq (as : List Attribute) : listResolved as = as.map resolved := by
  induction as with
  | nil => rfl
  | cons a as ih => rw [listResolved, ih, List.map_cons]

/-- Attributes that are resolved already stay what they are. -/
theorem Attribute.map_resolved_eq {as : List Attribute} (h : ∀ a ∈ as, a.resolved = a) :
    as.map resolved = as := by
  rw [List.map_congr_left h, List.map_id']

@[simps] def Member.resolved (m : Member) : Member :=
  { m with attributes := m.attributes.map Attribute.resolved }

/-- The class with the depths and the bytes that are written. -/
@[simps] def ClassFile.resolved (c : ClassFile) : ClassFile :=
  { c with
    fields := c.fields.map Member.resolved
    methods := c.methods.map Member.resolved
    attributes := c.attributes.map Attribute.resolved }

/-! ## Resolved parts are written alike -/

theorem Encoded.concat_map_of_eq_ok {α : Type} {encode : α → Encoded} {f : α → α} {as : List α}
    (alike : ∀ a ∈ as, ∀ bs, encode a = .ok bs → encode (f a) = .ok bs) {bs : Bytes}
    (h : concat encode as = .ok bs) : concat encode (as.map f) = .ok bs := by
  induction as generalizing bs with
  | nil => exact h
  | cons a as ih =>
    obtain ⟨u, v, hu, hv, form⟩ := concat_cons_eq_ok_iff.1 h
    rw [List.forall_mem_cons] at alike
    exact concat_cons_eq_ok_iff.2 ⟨u, v, alike.1 u hu, ih alike.2 hv, form⟩

theorem Encoded.counted_map_of_eq_ok {α : Type} {what : Counted} {encode : α → Encoded} {f : α → α}
    {as : List α} (alike : ∀ a ∈ as, ∀ bs, encode a = .ok bs → encode (f a) = .ok bs) {bs : Bytes}
    (h : counted what encode as = .ok bs) : counted what encode (as.map f) = .ok bs := by
  obtain ⟨lt, v, hv, form⟩ := counted_eq_ok_iff.1 h
  exact counted_eq_ok_iff.2 ⟨by rwa [List.length_map], v, concat_map_of_eq_ok alike hv,
    by rwa [List.length_map]⟩

mutual

theorem Attribute.encode_resolved : ∀ (a : Attribute) (bs : Bytes),
    a.encode = .ok bs → a.resolved.encode = .ok bs
  | ⟨name, content⟩, bs, h => by
    obtain ⟨payload, part, hpayload, rest⟩ := Attribute.encode_eq_ok_iff.1 h
    exact Attribute.encode_eq_ok_iff.2
      ⟨payload, part, content.encode_resolved payload hpayload, rest⟩

theorem Attribute.encode_listResolved : ∀ as : List Attribute, ∀ a ∈ as, ∀ bs : Bytes,
    a.encode = .ok bs → a.resolved.encode = .ok bs
  | [] => by simp
  | a :: as => List.forall_mem_cons.2 ⟨a.encode_resolved, Attribute.encode_listResolved as⟩

theorem Content.encode_resolved : ∀ (content : Content) (bs : Bytes),
    content.encode = .ok bs → content.resolved.encode = .ok bs
  | .code c, bs, h => c.encode_resolved bs h
  | .bootstrapMethods _, _, h | .signature _, _, h | .visibleAnnotations _, _, h
  | .invisibleAnnotations _, _, h | .visibleParameterAnnotations _, _, h
  | .invisibleParameterAnnotations _, _, h | .annotationDefault _, _, h | .localVariables _, _, h
  | .localVariableTypes _, _, h | .other _, _, h => h

theorem Code.encode_resolved : ∀ (c : Code) (bs : Bytes),
    c.encode = .ok bs → c.resolved.encode = .ok bs
  | ⟨limit, maxLocals, body, handlers, attributes⟩, bs, h => by
    obtain ⟨depth, code, part, table, rest, hdepth, hcode, hpart, htable, hrest, form⟩ :=
      Code.encode_eq_ok_iff.1 h
    -- Neither the depth nor the bytes depend on the attributes, which are resolved as well.
    have depth_eq : (Code.mk limit maxLocals body handlers []).maxStack = .ok depth := hdepth
    have code_eq : (Code.mk limit maxLocals body handlers []).bytes = .ok code := hcode
    have attributes_eq := counted_map_of_eq_ok (Attribute.encode_listResolved attributes) hrest
    rw [← Attribute.listResolved_eq] at attributes_eq
    refine Code.encode_eq_ok_iff.2 ⟨depth, code, part, table, rest, ?_, ?_, hpart, htable,
      attributes_eq, form⟩
    · simp only [Code.resolved, depth_eq]
      rfl
    · simp only [Code.resolved, code_eq]
      rfl

end

theorem Member.encode_resolved (what : Counted) (m : Member) (bs : Bytes)
    (h : m.encode what = .ok bs) : m.resolved.encode what = .ok bs := by
  obtain ⟨attributes, hattributes, form⟩ := encode_eq_ok_iff.1 h
  exact encode_eq_ok_iff.2
    ⟨attributes, counted_map_of_eq_ok (fun a _ => a.encode_resolved) hattributes, form⟩

theorem ClassFile.behindPool_resolved {c : ClassFile} {bs : Bytes} (h : c.BehindPool bs) :
    c.resolved.BehindPool bs := by
  obtain ⟨i, f, m, a, hi, hf, hm, ha, form⟩ := h
  have fields := counted_map_of_eq_ok (fun m _ => m.encode_resolved .fieldAttributes) hf
  have methods := counted_map_of_eq_ok (fun m _ => m.encode_resolved .methodAttributes) hm
  have attributes := counted_map_of_eq_ok (fun a _ => a.encode_resolved) ha
  rw [← Array.toList_map] at methods
  unfold BehindPool
  simp only [resolved_interfaces, resolved_fields, resolved_methods, resolved_attributes,
    resolved_accessFlags, resolved_thisClass, resolved_superClass]
  exact ⟨i, f, m, a, hi, fields, methods, attributes, form⟩

theorem ClassFile.write_resolved {c : ClassFile} {bs : Bytes} (h : c.write = .ok bs) :
    c.resolved.write = .ok bs := by
  obtain ⟨pool, behind, hpool, hbehind, form⟩ := write_eq_ok_iff.1 h
  exact write_eq_ok_iff.2 ⟨pool, behind, hpool, behindPool_resolved hbehind, form⟩

/-! ## Resolved parts are as they are read -/

mutual

theorem Attribute.asRead_resolved {pool : ConstantPool} : ∀ a : Attribute,
    a.Everywhere (Attribute.Readable pool) → a.resolved.Everywhere (Attribute.AsRead pool)
  | ⟨name, content⟩, ⟨⟨names, tagged⟩, all⟩ => by
    obtain ⟨text, htext, kind⟩ := names
    obtain ⟨sameKind, stillTagged, isOpaque, all⟩ := content.asRead_resolved tagged all
    exact ⟨⟨⟨⟨text, htext, kind.trans sameKind.symm⟩, stillTagged⟩, isOpaque⟩, all⟩

theorem Attribute.asRead_listResolved {pool : ConstantPool} : ∀ as : List Attribute,
    Attribute.ListEverywhere (Attribute.Readable pool) as →
      Attribute.ListEverywhere (Attribute.AsRead pool) (Attribute.listResolved as)
  | [], _ => trivial
  | a :: as, ⟨ha, has⟩ => ⟨a.asRead_resolved ha, Attribute.asRead_listResolved as has⟩

theorem Content.asRead_resolved {pool : ConstantPool} : ∀ content : Content, content.Tagged →
    content.Everywhere (Attribute.Readable pool) → content.resolved.kind? = content.kind? ∧
      content.resolved.Tagged ∧ content.resolved.IsOpaque ∧
      content.resolved.Everywhere (Attribute.AsRead pool)
  | .code c, _, all => ⟨rfl, trivial, c.asRead_resolved all⟩
  | .bootstrapMethods _, tagged, _ | .signature _, tagged, _ | .visibleAnnotations _, tagged, _
  | .invisibleAnnotations _, tagged, _ | .visibleParameterAnnotations _, tagged, _
  | .invisibleParameterAnnotations _, tagged, _ | .annotationDefault _, tagged, _
  | .localVariables _, tagged, _ | .localVariableTypes _, tagged, _ | .other _, tagged, _ =>
    ⟨rfl, tagged, trivial, trivial⟩

theorem Code.asRead_resolved {pool : ConstantPool} : ∀ c : Code,
    c.Everywhere (Attribute.Readable pool) →
      c.resolved.IsOpaque ∧ c.resolved.Everywhere (Attribute.AsRead pool)
  | ⟨_, _, _, _, attributes⟩, all =>
    ⟨⟨⟨_, rfl⟩, _, rfl⟩, Attribute.asRead_listResolved attributes all⟩

end

namespace ClassFile

/-- The class can be read back: its pool is laid out, and the names of its attributes call for their
contents. -/
structure Readable (c : ClassFile) : Prop where
  magic_eq : c.magic = classMagic
  laidOut : c.pool.LaidOut
  regular : c.pool.IsRegular
  everywhere : c.Everywhere (Attribute.Readable c.pool)

theorem Readable.resolved {c : ClassFile} (h : c.Readable) : c.resolved.AsRead where
  magic_eq := h.magic_eq
  laidOut := h.laidOut
  regular := h.regular
  everywhere := by
    have attributes {as : List Attribute}
        (all : ∀ a ∈ as, a.Everywhere (Attribute.Readable c.pool)) :
        ∀ a ∈ as.map Attribute.resolved, a.Everywhere (Attribute.AsRead c.pool) := by
      intro b hb
      obtain ⟨a, ha, rfl⟩ := List.mem_map.1 hb
      exact a.asRead_resolved (all a ha)
    have members {ms : List Member} (all : ∀ m ∈ ms, m.Everywhere (Attribute.Readable c.pool)) :
        ∀ m ∈ ms.map Member.resolved, m.Everywhere (Attribute.AsRead c.pool) := by
      intro n hn
      obtain ⟨m, hm, rfl⟩ := List.mem_map.1 hn
      exact attributes (all m hm)
    refine ⟨members h.everywhere.fields, ?_, attributes h.everywhere.attributes⟩
    show ∀ m ∈ (c.methods.map Member.resolved).toList, _
    rw [Array.toList_map]
    exact members h.everywhere.methods

/-- **Writing then reading** gives the resolved class. -/
theorem read_of_write_resolved {c : ClassFile} {bs : Bytes} (h : c.write = .ok bs)
    (readable : c.Readable) : read bs = .ok c.resolved :=
  read_of_write (write_resolved h) readable.resolved

end ClassFile

/-! ## What is read is resolved -/

mutual

theorem Attribute.resolved_eq {pool : ConstantPool} : ∀ a : Attribute,
    a.Everywhere (Attribute.AsRead pool) → a.resolved = a
  | ⟨name, content⟩, ⟨⟨_, isOpaque⟩, all⟩ => by
    rw [Attribute.resolved, content.resolved_eq isOpaque all]

theorem Attribute.listResolved_eq_self {pool : ConstantPool} : ∀ as : List Attribute,
    Attribute.ListEverywhere (Attribute.AsRead pool) as → Attribute.listResolved as = as
  | [], _ => rfl
  | a :: as, ⟨ha, has⟩ => by
    rw [Attribute.listResolved, a.resolved_eq ha, Attribute.listResolved_eq_self as has]

theorem Content.resolved_eq {pool : ConstantPool} : ∀ content : Content,
    content.IsOpaque → content.Everywhere (Attribute.AsRead pool) → content.resolved = content
  | .code c, isOpaque, all => congrArg Content.code (c.resolved_eq isOpaque all)
  | .bootstrapMethods _, _, _ | .signature _, _, _ | .visibleAnnotations _, _, _
  | .invisibleAnnotations _, _, _ | .visibleParameterAnnotations _, _, _
  | .invisibleParameterAnnotations _, _, _ | .annotationDefault _, _, _ | .localVariables _, _, _
  | .localVariableTypes _, _, _ | .other _, _, _ => rfl

theorem Code.resolved_eq {pool : ConstantPool} : ∀ c : Code,
    c.IsOpaque → c.Everywhere (Attribute.AsRead pool) → c.resolved = c
  | ⟨_, _, _, _, attributes⟩, ⟨⟨depth, hlimit⟩, bs, hbody⟩, all => by
    simp only at hlimit hbody
    subst hlimit hbody
    rw [Code.resolved, Attribute.listResolved_eq_self attributes all]
    rfl

end

theorem Member.resolved_eq {pool : ConstantPool} {m : Member}
    (h : m.Everywhere (Attribute.AsRead pool)) : m.resolved = m := by
  have all := (Attribute.listEverywhere_iff m.attributes).2 h
  rw [resolved, ← Attribute.listResolved_eq, Attribute.listResolved_eq_self m.attributes all]

end ClassWeave
