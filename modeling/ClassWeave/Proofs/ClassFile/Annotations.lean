import ClassWeave.ClassFile.Reader
import ClassWeave.Proofs.ClassFile.Encoded

/-!
# Annotations are read back as they are written

**Writing.** What is written in front of other parts is what is written alone
(`ElementValue.encodeBefore_eq`), so each level of an annotation is written as a counted list.

**Reading** (`ElementValue.decodeNested_reads`). A value takes at least its tag, so fuel for each of
its bytes is enough for every level below it. The only values that are written but never read are
those with a constant of an unknown tag (`ElementValue.Tagged`).
-/

namespace ClassWeave

open Encoded
open Decode (Reads)

/-! ## Tags -/

mutual

/-- Every constant in the annotation has a tag of constants. -/
def AnnotationUse.Tagged : AnnotationUse → Prop
  | ⟨_, elements⟩ => Element.ListTagged elements

def Element.ListTagged : List Element → Prop
  | [] => True
  | ⟨_, value⟩ :: rest => value.Tagged ∧ Element.ListTagged rest

/-- Every constant in the value has a tag of constants. -/
def ElementValue.Tagged : ElementValue → Prop
  | .constant tag _ => tag ∈ constantTags
  | .enumConstant .. => True
  | .classLiteral _ => True
  | .nested value => value.Tagged
  | .array values => ElementValue.ListTagged values

def ElementValue.ListTagged : List ElementValue → Prop
  | [] => True
  | value :: rest => value.Tagged ∧ ElementValue.ListTagged rest

end

theorem Element.listTagged_iff (es : List Element) : ListTagged es ↔ ∀ e ∈ es, e.value.Tagged := by
  induction es with
  | nil => simp [ListTagged]
  | cons e es ih =>
    obtain ⟨name, value⟩ := e
    rw [ListTagged, ih, List.forall_mem_cons]

theorem ElementValue.listTagged_iff (vs : List ElementValue) :
    ListTagged vs ↔ ∀ v ∈ vs, v.Tagged := by
  induction vs with
  | nil => simp [ListTagged]
  | cons v vs ih => rw [ListTagged, ih, List.forall_mem_cons]

/-! ## Writing -/

/-- The bytes of a named element. -/
def Element.encode (e : Element) : Encoded := do
  return ofWord16 e.nameIndex ++ (← e.value.encode)

theorem Encoded.concat_cons {α : Type} (encode : α → Encoded) (a : α) (as : List α) :
    concat encode (a :: as) = do return (← encode a) ++ (← concat encode as) := by
  simp only [concat, List.mapM_cons]
  cases encode a <;> cases as.mapM encode <;> rfl

mutual

theorem AnnotationUse.encodeBefore_eq (after : Encoded) : ∀ a : AnnotationUse,
    a.encodeBefore after = do return (← a.encode) ++ (← after)
  | ⟨_, elements⟩ => by
    simp only [AnnotationUse.encode, AnnotationUse.encodeBefore]
    rw [Element.encodeBefore_eq after elements, Element.encodeBefore_eq (.ok []) elements]
    cases count .annotationElements elements.length <;> cases concat Element.encode elements <;>
      cases after <;> simp [bind, Except.bind, pure, Except.pure]

theorem Element.encodeBefore_eq (after : Encoded) : ∀ es : List Element,
    Element.encodeBefore es after = do return (← concat Element.encode es) ++ (← after)
  | [] => by cases after <;> rfl
  | ⟨_, value⟩ :: rest => by
    rw [Element.encodeBefore, value.encodeBefore_eq, Element.encodeBefore_eq after rest,
      concat_cons, Element.encode]
    cases value.encode <;> cases concat Element.encode rest <;> cases after <;>
      simp [bind, Except.bind, pure, Except.pure]

theorem ElementValue.encodeBefore_eq (after : Encoded) : ∀ v : ElementValue,
    v.encodeBefore after = do return (← v.encode) ++ (← after)
  | .constant .. | .enumConstant .. | .classLiteral _ => by
    cases after <;> simp [ElementValue.encode, ElementValue.encodeBefore, bind, Except.bind, pure,
      Except.pure]
  | .nested value => by
    simp only [ElementValue.encode, ElementValue.encodeBefore]
    rw [value.encodeBefore_eq after, value.encodeBefore_eq (.ok [])]
    cases value.encode <;> cases after <;> simp [bind, Except.bind, pure, Except.pure]
  | .array values => by
    simp only [ElementValue.encode, ElementValue.encodeBefore]
    rw [ElementValue.encodeListBefore_eq after values,
      ElementValue.encodeListBefore_eq (.ok []) values]
    cases count .arrayElements values.length <;> cases concat ElementValue.encode values <;>
      cases after <;> simp [bind, Except.bind, pure, Except.pure]

theorem ElementValue.encodeListBefore_eq (after : Encoded) : ∀ vs : List ElementValue,
    ElementValue.encodeListBefore vs after =
      do return (← concat ElementValue.encode vs) ++ (← after)
  | [] => by cases after <;> rfl
  | value :: rest => by
    rw [ElementValue.encodeListBefore, value.encodeBefore_eq,
      ElementValue.encodeListBefore_eq after rest, concat_cons]
    cases value.encode <;> cases concat ElementValue.encode rest <;> cases after <;>
      simp [bind, Except.bind, pure, Except.pure]

end

/-- An annotation is its type, and then its elements with their count. -/
theorem AnnotationUse.encode_eq (type : UInt16) (es : List Element) :
    AnnotationUse.encode ⟨type, es⟩ =
      do return ofWord16 type ++ (← counted .annotationElements Element.encode es) := by
  rw [AnnotationUse.encode, AnnotationUse.encodeBefore, Element.encodeBefore_eq, counted]
  cases count .annotationElements es.length <;> cases concat Element.encode es <;>
    simp [bind, Except.bind, pure, Except.pure]

/-- What is written of a value after its tag. -/
def ElementValue.encodeBody : ElementValue → Encoded
  | .constant _ index => .ok (ofWord16 index)
  | .enumConstant typeName constantName => .ok (ofWord16 typeName ++ ofWord16 constantName)
  | .classLiteral descriptor => .ok (ofWord16 descriptor)
  | .nested value => value.encode
  | .array values => counted .arrayElements ElementValue.encode values

/-- A value is its tag, and then what depends on the tag. -/
theorem ElementValue.encode_eq (v : ElementValue) :
    v.encode = do return v.tag :: (← v.encodeBody) := by
  cases v with
  | constant | enumConstant | classLiteral =>
    simp [ElementValue.encode, ElementValue.encodeBefore, encodeBody, tag, bind, Except.bind, pure,
      Except.pure]
  | nested value => simp only [ElementValue.encode, ElementValue.encodeBefore, encodeBody,
      AnnotationUse.encode, tag]
  | array values =>
    rw [ElementValue.encode, ElementValue.encodeBefore, encodeListBefore_eq, encodeBody, counted]
    cases count .arrayElements values.length <;> cases concat ElementValue.encode values <;>
      simp [bind, Except.bind, pure, Except.pure, tag]

theorem ElementValue.encode_eq_ok_iff {v : ElementValue} {bs : Bytes} :
    v.encode = .ok bs ↔ ∃ rest, v.encodeBody = .ok rest ∧ bs = v.tag :: rest := by
  rw [encode_eq]
  simp only [except_bind_eq_ok_iff, except_pure_eq_ok_iff]
  exact ⟨fun ⟨rest, body, eq⟩ => ⟨rest, body, eq.symm⟩,
    fun ⟨rest, body, eq⟩ => ⟨rest, body, eq.symm⟩⟩

/-! ## Reading -/

/-- What a writer puts after two bytes. -/
theorem Encoded.word16_append_eq_ok_iff {w : UInt16} {x : Encoded} {bs : Bytes} :
    (do return ofWord16 w ++ (← x)) = .ok bs ↔ ∃ rest, x = .ok rest ∧ bs = ofWord16 w ++ rest := by
  simp only [except_bind_eq_ok_iff, except_pure_eq_ok_iff]
  exact ⟨fun ⟨rest, body, eq⟩ => ⟨rest, body, eq.symm⟩,
    fun ⟨rest, body, eq⟩ => ⟨rest, body, eq.symm⟩⟩

/-- A named element is read, given a reader for values. -/
theorem Element.decode_reads {n : Nat} {value : Decode ElementValue}
    (h : Reads n value (Writes ElementValue.encode ElementValue.Tagged)) :
    Reads n (do return ⟨← Decode.word16, ← value⟩ : Decode Element)
      (Writes Element.encode fun e => e.value.Tagged) := by
  refine (Reads.word16.bind fun name => h.answer (Element.mk name)).congr fun e bs => ?_
  simp only [Writes, Element.encode, word16_append_eq_ok_iff]
  obtain ⟨name, v⟩ := e
  refine ⟨?_, ?_⟩
  · intro given
    obtain ⟨⟨rest, written, form⟩, tagged⟩ := given
    exact ⟨name, _, rest, rfl, ⟨v, ⟨written, tagged⟩, rfl⟩, form⟩
  · intro given
    obtain ⟨_, u, rest, hu, ⟨_, ⟨written, tagged⟩, he⟩, form⟩ := given
    obtain ⟨rfl, rfl⟩ := Element.mk.inj he
    subst hu
    exact ⟨⟨rest, written, form⟩, tagged⟩

/-- An annotation is read, given a reader for values. -/
theorem AnnotationUse.decodeWith_reads {n : Nat} {value : Decode ElementValue}
    (h : Reads n value (Writes ElementValue.encode ElementValue.Tagged)) :
    Reads n (decodeWith value) (Writes encode Tagged) := by
  refine (Reads.word16.bind fun type => ((Element.decode_reads h).countedWrites
    .annotationElements).answer (AnnotationUse.mk type)).congr fun a bs => ?_
  obtain ⟨type, es⟩ := a
  simp only [Writes, encode_eq, word16_append_eq_ok_iff, Tagged, Element.listTagged_iff]
  refine ⟨?_, ?_⟩
  · intro given
    obtain ⟨⟨rest, written, form⟩, tagged⟩ := given
    exact ⟨type, _, rest, rfl, ⟨es, ⟨written, tagged⟩, rfl⟩, form⟩
  · intro given
    obtain ⟨_, u, rest, hu, ⟨_, ⟨written, tagged⟩, he⟩, form⟩ := given
    obtain ⟨rfl, rfl⟩ := AnnotationUse.mk.inj he
    subst hu
    exact ⟨⟨rest, written, form⟩, tagged⟩

namespace ElementValue

/-- What is read of a value after its tag. -/
def decodeBody (fuel : Nat) (tag : UInt8) : Decode ElementValue :=
  if constantTags.contains tag then do return .constant tag (← Decode.word16)
  else if tag = 0x65 then do return .enumConstant (← Decode.word16) (← Decode.word16)
  else if tag = 0x63 then do return .classLiteral (← Decode.word16)
  else if tag = 0x40 then do return .nested (← AnnotationUse.decodeWith (decodeNested fuel))
  else if tag = 0x5B then do return .array (← Decode.counted (decodeNested fuel))
  else throw (.malformed "annotation" (.unknownElementTag tag))

/-- The value has a tag, and is written by some bytes after it. -/
def Body (tag : UInt8) : Form ElementValue := fun v bs =>
  v.encodeBody = .ok bs ∧ v.Tagged ∧ v.tag = tag

theorem decodeBody_reads {fuel : Nat} (ih : Reads fuel (decodeNested fuel) (Writes encode Tagged))
    (tag : UInt8) : Reads fuel (decodeBody fuel tag) (Body tag) := by
  unfold decodeBody
  by_cases isConstant : tag ∈ constantTags
  · rw [if_pos (by simpa using isConstant)]
    refine (Reads.word16.answer (constant tag)).congr fun v bs => ?_
    refine ⟨?_, ?_⟩
    · intro given
      obtain ⟨written, tagged, htag⟩ := given
      subst htag
      cases v with
      | constant tag index => exact ⟨index, (Except.ok.inj written).symm, rfl⟩
      | enumConstant | classLiteral | nested | array =>
        exact absurd isConstant (by simp only [ElementValue.tag]; decide)
    · intro given
      obtain ⟨w, form, hv⟩ := given
      subst form hv
      exact ⟨rfl, isConstant, rfl⟩
  rw [if_neg (by simpa using isConstant)]
  -- The tag is none of a constant, so a tagged value that has it is none.
  have notConstant {t : UInt8} {index : UInt16} {p : Prop} (tagged : (constant t index).Tagged)
      (htag : (constant t index).tag = tag) : p := absurd (htag ▸ tagged) isConstant
  split_ifs with isEnum isClass isNested isArray
  · refine (Reads.twoWords enumConstant).congr fun v bs => ?_
    refine ⟨?_, ?_⟩
    · intro given
      obtain ⟨written, tagged, htag⟩ := given
      cases v with
      | constant => exact notConstant tagged htag
      | enumConstant v w => exact ⟨v, w, (Except.ok.inj written).symm, rfl⟩
      | classLiteral | nested | array => simp [ElementValue.tag, isEnum] at htag
    · intro given
      obtain ⟨v, w, form, hv⟩ := given
      subst form hv
      exact ⟨rfl, trivial, isEnum.symm⟩
  · refine (Reads.word16.answer classLiteral).congr fun v bs => ?_
    refine ⟨?_, ?_⟩
    · intro given
      obtain ⟨written, tagged, htag⟩ := given
      cases v with
      | constant => exact notConstant tagged htag
      | classLiteral w => exact ⟨w, (Except.ok.inj written).symm, rfl⟩
      | enumConstant | nested | array => simp [ElementValue.tag, isClass] at htag
    · intro given
      obtain ⟨w, form, hv⟩ := given
      subst form hv
      exact ⟨rfl, trivial, isClass.symm⟩
  · refine ((AnnotationUse.decodeWith_reads ih).answer nested).congr fun v bs => ?_
    refine ⟨?_, ?_⟩
    · intro given
      obtain ⟨written, tagged, htag⟩ := given
      cases v with
      | constant => exact notConstant tagged htag
      | nested a => exact ⟨a, ⟨written, tagged⟩, rfl⟩
      | enumConstant | classLiteral | array => simp [ElementValue.tag, isNested] at htag
    · intro given
      obtain ⟨a, ⟨written, tagged⟩, hv⟩ := given
      subst hv
      exact ⟨written, tagged, isNested.symm⟩
  · refine ((ih.countedWrites .arrayElements).answer array).congr fun v bs => ?_
    refine ⟨?_, ?_⟩
    · intro given
      obtain ⟨written, tagged, htag⟩ := given
      cases v with
      | constant => exact notConstant tagged htag
      | array vs => exact ⟨vs, ⟨written, (listTagged_iff vs).1 tagged⟩, rfl⟩
      | enumConstant | classLiteral | nested => simp [ElementValue.tag, isArray] at htag
    · intro given
      obtain ⟨vs, ⟨written, tagged⟩, hv⟩ := given
      subst hv
      exact ⟨written, (listTagged_iff vs).2 tagged, isArray.symm⟩
  · refine (Reads.throw _).congr fun v bs => ⟨fun ⟨_, tagged, htag⟩ => ?_, False.elim⟩
    cases v with
    | constant => exact notConstant tagged htag
    | enumConstant => exact isEnum htag.symm
    | classLiteral => exact isClass htag.symm
    | nested => exact isNested htag.symm
    | array => exact isArray htag.symm

theorem decodeNested_succ (fuel : Nat) :
    decodeNested (fuel + 1) = Decode.word8 >>= decodeBody fuel := rfl

/-- **A value is read** from what is written of it, when there is fuel for each of its bytes. -/
theorem decodeNested_reads (fuel : Nat) :
    Reads fuel (decodeNested fuel) (Writes encode Tagged) := by
  induction fuel with
  | zero =>
    refine ⟨fun _ _ _ eq => (nomatch eq), fun v bs ⟨written, _⟩ short => ?_⟩
    obtain ⟨rest, _, rfl⟩ := encode_eq_ok_iff.1 written
    simp at short
  | succ fuel ih =>
    rw [decodeNested_succ]
    refine (Reads.word8.bindAfter 1 (fun _ _ h => by simp [h]) (decodeBody_reads ih)).congr
      fun v bs => ?_
    simp only [Writes, encode_eq_ok_iff]
    refine ⟨?_, ?_⟩
    · intro given
      obtain ⟨⟨rest, body, form⟩, tagged⟩ := given
      exact ⟨v.tag, _, rest, rfl, ⟨body, tagged, rfl⟩, form⟩
    · intro given
      obtain ⟨_, u, rest, hu, ⟨body, tagged, htag⟩, form⟩ := given
      subst hu htag
      exact ⟨⟨rest, body, form⟩, tagged⟩

theorem decode_reads (n : Nat) : Reads n decode (Writes encode Tagged) :=
  Reads.ofFuel decodeNested_reads

end ElementValue

namespace AnnotationUse

theorem decodeList_reads (n : Nat) (what : Counted) :
    Reads n decodeList (Writes (encodeList what) fun as => ∀ a ∈ as, a.Tagged) :=
  Reads.ofFuel fun fuel =>
    (decodeWith_reads (ElementValue.decodeNested_reads fuel)).countedWrites what

theorem decodeParameters_reads (n : Nat) : Reads n decodeParameters
    (Writes encodeParameters fun lists => ∀ as ∈ lists, ∀ a ∈ as, a.Tagged) := by
  have step (fuel : Nat) : Reads fuel
      (Decode.word8 >>= fun count =>
        Decode.times count.toNat (Decode.counted (decodeWith (ElementValue.decodeNested fuel))))
      (Writes encodeParameters fun lists => ∀ as ∈ lists, ∀ a ∈ as, a.Tagged) := by
    have list := (decodeWith_reads (ElementValue.decodeNested_reads fuel)).countedWrites
      .parameterAnnotations
    refine list.byteCounted.congr fun lists bs => ?_
    simp only [Writes, encodeParameters, except_bind_eq_ok_iff, except_pure_eq_ok_iff,
      byteCount_eq_ok_iff, series_writes_iff]
    refine ⟨?_, ?_⟩
    · intro given
      obtain ⟨⟨_, ⟨lt, hu⟩, v, hv, form⟩, tagged⟩ := given
      exact ⟨lt, v, ⟨hv, tagged⟩, by rw [← form, hu]⟩
    · intro given
      obtain ⟨lt, v, ⟨hv, tagged⟩, form⟩ := given
      exact ⟨⟨_, ⟨lt, rfl⟩, v, hv, form.symm⟩, tagged⟩
  exact Reads.ofFuel step

end AnnotationUse

end ClassWeave
