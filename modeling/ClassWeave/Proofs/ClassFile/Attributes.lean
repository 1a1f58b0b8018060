import ClassWeave.Proofs.ClassFile.Annotations

/-!
# Attributes are read back as they are written

**Names.** The reader takes the content of an attribute apart as its name says, so an attribute is
read back only when its name calls for the content it has (`Attribute.Names`).

**Code.** What is read of code is opaque: its depth is a number and its body a stretch of bytes
(`Code.IsOpaque`).

**Nesting** (`Attribute.decodeNested_reads`). The reader of the attributes of code has less fuel
than the one of the attribute that holds the code, whose content takes more bytes.
-/

namespace ClassWeave

open Encoded
open Decode (Reads)

/-! ## Attributes at every level -/

mutual

/-- The attribute has a property, and so have those of its code at every level. -/
def Attribute.Everywhere (P : Attribute → Prop) : Attribute → Prop
  | ⟨name, content⟩ => P ⟨name, content⟩ ∧ content.Everywhere P

def Attribute.ListEverywhere (P : Attribute → Prop) : List Attribute → Prop
  | [] => True
  | a :: rest => a.Everywhere P ∧ Attribute.ListEverywhere P rest

def Content.Everywhere (P : Attribute → Prop) : Content → Prop
  | .code c => c.Everywhere P
  | _ => True

def Code.Everywhere (P : Attribute → Prop) : Code → Prop
  | ⟨_, _, _, _, attributes⟩ => Attribute.ListEverywhere P attributes

end

theorem Attribute.listEverywhere_iff {P : Attribute → Prop} (as : List Attribute) :
    ListEverywhere P as ↔ ∀ a ∈ as, a.Everywhere P := by
  induction as with
  | nil => simp [ListEverywhere]
  | cons a as ih => rw [ListEverywhere, ih, List.forall_mem_cons]

mutual

theorem Attribute.Everywhere.mono {P Q : Attribute → Prop} (h : ∀ a, P a → Q a) :
    ∀ a : Attribute, a.Everywhere P → a.Everywhere Q
  | ⟨_, content⟩, ⟨ha, hcontent⟩ => ⟨h _ ha, Content.Everywhere.mono h content hcontent⟩

theorem Attribute.ListEverywhere.mono {P Q : Attribute → Prop} (h : ∀ a, P a → Q a) :
    ∀ as : List Attribute, Attribute.ListEverywhere P as → Attribute.ListEverywhere Q as
  | [], _ => trivial
  | a :: as, ⟨ha, has⟩ => ⟨Attribute.Everywhere.mono h a ha, Attribute.ListEverywhere.mono h as has⟩

theorem Content.Everywhere.mono {P Q : Attribute → Prop} (h : ∀ a, P a → Q a) :
    ∀ content : Content, content.Everywhere P → content.Everywhere Q
  | .code c, hc => Code.Everywhere.mono h c hc
  | .bootstrapMethods _, _ | .signature _, _ | .visibleAnnotations _, _
  | .invisibleAnnotations _, _ | .visibleParameterAnnotations _, _
  | .invisibleParameterAnnotations _, _ | .annotationDefault _, _ | .localVariables _, _
  | .localVariableTypes _, _ | .other _, _ => trivial

theorem Code.Everywhere.mono {P Q : Attribute → Prop} (h : ∀ a, P a → Q a) :
    ∀ c : Code, c.Everywhere P → c.Everywhere Q
  | ⟨_, _, _, _, attributes⟩, hc => Attribute.ListEverywhere.mono h attributes hc

end

/-- The name of the attribute calls for the content that it has. -/
def Attribute.Names (pool : ConstantPool) (a : Attribute) : Prop :=
  ∃ name, pool.utf8 a.nameIndex = .ok name ∧ ContentKind.ofName? name = a.content.kind?

/-- Every constant in the annotations of the content has a tag of constants. -/
def Content.Tagged : Content → Prop
  | .visibleAnnotations list | .invisibleAnnotations list => ∀ a ∈ list, a.Tagged
  | .visibleParameterAnnotations lists | .invisibleParameterAnnotations lists =>
    ∀ as ∈ lists, ∀ a ∈ as, a.Tagged
  | .annotationDefault value => value.Tagged
  | _ => True

/-- The depth is given and the body is a stretch of bytes. -/
def Code.IsOpaque (c : Code) : Prop :=
  (∃ depth, c.stackLimit = .fixed depth) ∧ ∃ bs, c.body = .bytecode bs

def Content.IsOpaque : Content → Prop
  | .code c => c.IsOpaque
  | _ => True

/-- The attribute itself, its code aside, can be read back with the given pool. -/
structure Attribute.Readable (pool : ConstantPool) (a : Attribute) : Prop where
  names : a.Names pool
  tagged : a.content.Tagged

/-- The attribute is as it is read. -/
structure Attribute.AsRead (pool : ConstantPool) (a : Attribute) : Prop where
  readable : a.Readable pool
  isOpaque : a.content.IsOpaque

/-! ## Tables -/

/-- A word in a list. -/
theorem word_reads (n : Nat) :
    Reads n Decode.word16 (Writes (fun w => .ok (ofWord16 w)) fun _ => True) :=
  Reads.word16.congr fun w bs => by simp [Writes, eq_comm]

theorem Handler.decode_reads (n : Nat) :
    Reads n decode (Writes (fun h => .ok h.encode) fun _ => True) := by
  refine (Reads.word16.bind fun a => Reads.word16.bind fun b =>
    Reads.twoWords (Handler.mk a b)).congr fun h bs => ?_
  refine ⟨?_, ?_⟩
  · intro given
    obtain ⟨written, _⟩ := given
    exact ⟨h.startPc, _, _, rfl, ⟨h.endPc, _, _, rfl, ⟨h.handlerPc, h.catchType, rfl, rfl⟩, rfl⟩,
      by simp [← Except.ok.inj written, encode]⟩
  · intro given
    obtain ⟨a, _, _, ha, ⟨b, _, _, hb, ⟨c, d, hcd, hh⟩, hv⟩, form⟩ := given
    subst hh hcd hb hv ha form
    exact ⟨by simp [encode], trivial⟩

theorem LocalVariable.decode_reads (n : Nat) :
    Reads n decode (Writes (fun v => .ok v.encode) fun _ => True) := by
  refine (Reads.word16.bind fun a => Reads.word16.bind fun b => Reads.word16.bind fun c =>
    Reads.twoWords (LocalVariable.mk a b c)).congr fun v bs => ?_
  refine ⟨?_, ?_⟩
  · intro given
    obtain ⟨written, _⟩ := given
    exact ⟨v.startPc, _, _, rfl, ⟨v.length, _, _, rfl, ⟨v.nameIndex, _, _, rfl,
      ⟨v.descriptorIndex, v.slot, rfl, rfl⟩, rfl⟩, rfl⟩, by simp [← Except.ok.inj written, encode]⟩
  · intro given
    obtain ⟨a, _, _, ha, ⟨b, _, _, hb, ⟨c, _, _, hc, ⟨d, e, hde, hv⟩, hw⟩, hu⟩, form⟩ := given
    subst hv hde hc hw hb hu ha form
    exact ⟨by simp [encode], trivial⟩

theorem BootstrapMethod.encode_eq (m : BootstrapMethod) : m.encode = do
    return ofWord16 m.handle ++
      (← counted .bootstrapArguments (fun a => .ok (ofWord16 a)) m.arguments) := rfl

theorem BootstrapMethod.decode_reads (n : Nat) : Reads n decode (Writes encode fun _ => True) := by
  refine (Reads.word16.bind fun handle => ((word_reads n).countedWrites
    .bootstrapArguments).answer (BootstrapMethod.mk handle)).congr fun m bs => ?_
  simp only [Writes, encode_eq, word16_append_eq_ok_iff]
  refine ⟨?_, ?_⟩
  · intro given
    obtain ⟨⟨rest, written, form⟩, _⟩ := given
    exact ⟨m.handle, _, rest, rfl, ⟨m.arguments, ⟨written, fun _ _ => trivial⟩, rfl⟩, form⟩
  · intro given
    obtain ⟨h, u, rest, hu, ⟨as, ⟨written, _⟩, hm⟩, form⟩ := given
    subst hm hu
    exact ⟨⟨rest, written, form⟩, trivial⟩

/-! ## Code -/

/-- A part behind its length in four bytes. -/
theorem part_reads (n : Nat) : Reads n (Decode.word32 >>= fun w => Decode.bytes w.toNat)
    fun part bs => withLength part = .ok bs := by
  refine (Reads.word32.bind fun w => Reads.bytes w.toNat).congr fun part bs => ?_
  rw [withLength_eq_ok_iff]
  refine ⟨?_, ?_⟩
  · intro given
    obtain ⟨lt, form⟩ := given
    have value : (UInt32.ofNat part.length).toNat = part.length := by
      rw [UInt32.toNat_ofNat', Nat.mod_eq_of_lt lt]
    exact ⟨UInt32.ofNat part.length, _, part, rfl, ⟨rfl, value.symm⟩, by rw [form, ofWord32, value]⟩
  · intro given
    obtain ⟨w, u, v, hu, ⟨hv, length⟩, form⟩ := given
    subst hu hv form
    exact ⟨by rw [length]; exact w.toNat_lt, by rw [length]; rfl⟩

theorem Attribute.encodeList_eq_concat (as : List Attribute) :
    encodeList as = concat encode as := by
  induction as with
  | nil => rfl
  | cons a as ih => rw [encodeList, ih, concat_cons]

namespace Code

/-- What is written of code: its depth, its locals, its body, its handlers and its attributes. -/
theorem encode_eq_ok_iff {c : Code} {bs : Bytes} : c.encode = .ok bs ↔
    ∃ depth code body table attributes, c.maxStack = .ok depth ∧ c.bytes = .ok code ∧
      withLength code = .ok body ∧ Encoded.counted .handlers (.ok ·.encode) c.handlers = .ok table ∧
      Encoded.counted .codeAttributes Attribute.encode c.attributes = .ok attributes ∧
      bs = ofWord16 depth ++ (ofWord16 c.maxLocals ++ (body ++ (table ++ attributes))) := by
  obtain ⟨limit, maxLocals, body, handlers, as⟩ := c
  simp only [encode, except_bind_eq_ok_iff, except_pure_eq_ok_iff, ofBytecode_eq_ok_iff,
    Encoded.counted, Attribute.encodeList_eq_concat]
  refine ⟨?_, ?_⟩
  · intro given
    obtain ⟨depth, hd, code, hc, b, hb, table, ht, head, hh, rest, hr, form⟩ := given
    exact ⟨depth, code, b, table, head ++ rest, hd, hc, hb, ht, ⟨head, hh, rest, hr, rfl⟩,
      form.symm⟩
  · intro given
    obtain ⟨depth, code, b, table, _, hd, hc, hb, ht, ⟨head, hh, rest, hr, ha⟩, form⟩ := given
    subst ha
    exact ⟨depth, hd, code, hc, b, hb, table, ht, head, hh, rest, hr, form.symm⟩

/-- Opaque code is read, given a reader for its attributes. -/
theorem decodeWith_reads {n : Nat} {attributes : Decode (List Attribute)} {P : Attribute → Prop}
    (h : Reads n attributes (Writes (Encoded.counted .codeAttributes Attribute.encode)
      fun as => ∀ a ∈ as, a.Everywhere P)) :
    Reads n (decodeWith attributes) (Writes encode fun c => c.IsOpaque ∧ c.Everywhere P) := by
  have step : decodeWith attributes = Decode.word16 >>= fun depth => Decode.word16 >>= fun locals =>
      (Decode.word32 >>= fun w => Decode.bytes w.toNat) >>= fun code =>
        Decode.counted Handler.decode >>= fun handlers => attributes >>= fun as =>
          pure ⟨.fixed depth, locals, .bytecode code, handlers, as⟩ := by
    simp only [decodeWith, bind_assoc]
  rw [step]
  -- Read part by part, the bytes are split where the parts of written code meet.
  refine (Reads.word16.bind fun depth => Reads.word16.bind fun locals => (part_reads n).bind
    fun code => ((Handler.decode_reads n).countedWrites .handlers).bind fun handlers =>
      h.answer (Code.mk (.fixed depth) locals (.bytecode code) handlers)).congr fun c bs => ?_
  simp only [Writes, encode_eq_ok_iff]
  refine ⟨?_, ?_⟩
  · intro given
    obtain ⟨⟨depth, code, body, table, rest, hd, hc, hb, ht, hr, form⟩, isOpaque, all⟩ := given
    obtain ⟨limit, maxLocals, content, handlers, as⟩ := c
    obtain ⟨⟨d, hlimit⟩, bs, hbody⟩ := isOpaque
    simp only at hlimit hbody
    subst hlimit hbody
    obtain rfl : d = depth := Except.ok.inj hd
    obtain rfl : bs = code := Except.ok.inj hc
    exact ⟨d, _, _, rfl, ⟨maxLocals, _, _, rfl, ⟨bs, body, _, hb, ⟨handlers, table, rest,
      ⟨ht, fun _ _ => trivial⟩, ⟨as, ⟨hr, (Attribute.listEverywhere_iff as).1 all⟩, rfl⟩, rfl⟩,
      rfl⟩, rfl⟩, form⟩
  · intro given
    obtain ⟨depth, u, _, hu, ⟨locals, v, _, hv, ⟨code, body, _, hb, ⟨handlers, table, rest, ⟨ht,
      _⟩, ⟨as, ⟨hr, all⟩, hc⟩, h₁⟩, h₂⟩, h₃⟩, form⟩ := given
    subst hc hu hv h₁ h₂ h₃ form
    exact ⟨⟨depth, code, body, table, rest, rfl, rfl, hb, ht, hr, rfl⟩,
      ⟨⟨depth, rfl⟩, code, rfl⟩, (Attribute.listEverywhere_iff as).2 all⟩

end Code

/-! ## Contents -/

namespace Content

/-- The content is as it is read, all its attributes have a property, and it has the given kind. -/
def OfKind (P : Attribute → Prop) (kind : Option ContentKind) : Form Content :=
  Writes encode fun content =>
    content.Tagged ∧ content.IsOpaque ∧ content.Everywhere P ∧ content.kind? = kind

theorem decodeWith_reads {n : Nat} {attributes : Decode (List Attribute)} {P : Attribute → Prop}
    (h : Reads n attributes (Writes (Encoded.counted .codeAttributes Attribute.encode)
      fun as => ∀ a ∈ as, a.Everywhere P)) (kind : ContentKind) :
    Reads n (decodeWith attributes kind) (OfKind P (some kind)) := by
  cases kind with
  | code =>
    refine ((Code.decodeWith_reads h).map code).congr fun content bs => ?_
    cases content <;> simp [OfKind, Writes, encode, Tagged, IsOpaque, Everywhere, kind?]
  | bootstrapMethods =>
    refine (((BootstrapMethod.decode_reads n).countedWrites .bootstrapMethods).map
      bootstrapMethods).congr fun content bs => ?_
    cases content <;> simp [OfKind, Writes, encode, Tagged, IsOpaque, Everywhere, kind?]
  | signature =>
    refine ((word_reads n).map signature).congr fun content bs => ?_
    cases content <;> simp [OfKind, Writes, encode, Tagged, IsOpaque, Everywhere, kind?]
  | visibleAnnotations =>
    refine ((AnnotationUse.decodeList_reads n .annotations).map
      visibleAnnotations).congr fun content bs => ?_
    cases content <;> simp [OfKind, Writes, encode, Tagged, IsOpaque, Everywhere, kind?]
  | invisibleAnnotations =>
    refine ((AnnotationUse.decodeList_reads n .annotations).map
      invisibleAnnotations).congr fun content bs => ?_
    cases content <;> simp [OfKind, Writes, encode, Tagged, IsOpaque, Everywhere, kind?]
  | visibleParameterAnnotations =>
    refine ((AnnotationUse.decodeParameters_reads n).map
      visibleParameterAnnotations).congr fun content bs => ?_
    cases content <;> simp [OfKind, Writes, encode, Tagged, IsOpaque, Everywhere, kind?]
  | invisibleParameterAnnotations =>
    refine ((AnnotationUse.decodeParameters_reads n).map
      invisibleParameterAnnotations).congr fun content bs => ?_
    cases content <;> simp [OfKind, Writes, encode, Tagged, IsOpaque, Everywhere, kind?]
  | annotationDefault =>
    refine ((ElementValue.decode_reads n).map annotationDefault).congr fun content bs => ?_
    cases content <;> simp [OfKind, Writes, encode, Tagged, IsOpaque, Everywhere, kind?]
  | localVariables =>
    refine (((LocalVariable.decode_reads n).countedWrites .localVariables).map
      localVariables).congr fun content bs => ?_
    cases content <;> simp [OfKind, Writes, encode, Tagged, IsOpaque, Everywhere, kind?]
  | localVariableTypes =>
    refine (((LocalVariable.decode_reads n).countedWrites .localVariables).map
      localVariableTypes).congr fun content bs => ?_
    cases content <;> simp [OfKind, Writes, encode, Tagged, IsOpaque, Everywhere, kind?]

theorem ofBytes_sound {n : Nat} {attributes : Decode (List Attribute)} {P : Attribute → Prop}
    (h : Reads n attributes (Writes (Encoded.counted .codeAttributes Attribute.encode)
      fun as => ∀ a ∈ as, a.Everywhere P)) {name : String} {payload : Bytes} {content : Content}
    (eq : ofBytes attributes name payload = .ok content) :
    OfKind P (ContentKind.ofName? name) content payload := by
  unfold ofBytes at eq
  cases hkind : ContentKind.ofName? name with
  | none =>
    obtain rfl : other payload = content := by simpa [hkind] using eq
    exact ⟨rfl, trivial, trivial, trivial, rfl⟩
  | some kind =>
    simp only [hkind] at eq
    split at eq
    · next whole =>
      obtain rfl := Except.ok.inj eq
      exact (decodeWith_reads h kind).sound.whole whole
    all_goals simp at eq

theorem ofBytes_complete {n : Nat} {attributes : Decode (List Attribute)} {P : Attribute → Prop}
    (h : Reads n attributes (Writes (Encoded.counted .codeAttributes Attribute.encode)
      fun as => ∀ a ∈ as, a.Everywhere P)) {name : String} {payload : Bytes} {content : Content}
    (form : OfKind P (ContentKind.ofName? name) content payload) (short : payload.length ≤ n) :
    ofBytes attributes name payload = .ok content := by
  unfold ofBytes
  cases hkind : ContentKind.ofName? name with
  | none =>
    obtain ⟨written, _, _, _, kind⟩ := form
    cases content with
    | other bs => rw [Except.ok.inj written]
    | _ => simp [hkind, kind?] at kind
  | some kind =>
    rw [hkind] at form
    simp only [(decodeWith_reads h kind).complete.whole form short]

end Content

/-! ## Attributes -/

/-- The answer of a look-up is read from no bytes. -/
theorem Decode.Reads.ofPool {α : Type} {n : Nat} (x : Except PoolError α) :
    Reads n (Decode.ofPool x) fun a bs => x = .ok a ∧ bs = [] := by
  cases x with
  | error e => exact (Reads.throw _).congr fun a bs => by simp
  | ok b => exact (Reads.pure b).congr fun a bs => by simp [eq_comm]

namespace Attribute

/-- An attribute is its name, and then its content behind its length. -/
theorem encode_eq_ok_iff {a : Attribute} {bs : Bytes} : a.encode = .ok bs ↔
    ∃ payload part, a.content.encode = .ok payload ∧ withLength payload = .ok part ∧
      bs = ofWord16 a.nameIndex ++ part := by
  obtain ⟨name, content⟩ := a
  simp only [encode, except_bind_eq_ok_iff, except_pure_eq_ok_iff]
  refine ⟨?_, ?_⟩
  · intro given
    obtain ⟨payload, hp, part, hpart, form⟩ := given
    exact ⟨payload, part, hp, hpart, form.symm⟩
  · intro given
    obtain ⟨payload, part, hp, hpart, form⟩ := given
    exact ⟨payload, hp, part, hpart, form.symm⟩

theorem everywhere_iff {P : Attribute → Prop} (a : Attribute) :
    a.Everywhere P ↔ P a ∧ a.content.Everywhere P := by
  cases a
  rfl

/-- What is read of an attribute, given a reader for the attributes of its code. -/
def decodeWith (pool : ConstantPool) (attributes : Decode (List Attribute)) : Decode Attribute := do
  let nameIndex ← Decode.word16
  let payload ← Decode.bytes (← Decode.word32).toNat
  let name ← Decode.ofPool (pool.utf8 nameIndex)
  match Content.ofBytes attributes name payload with
  | .ok content => return ⟨nameIndex, content⟩
  | .error e => throw e

/-- The end of an attribute takes no further bytes. -/
theorem ending_reads {n : Nat} (nameIndex : UInt16) (x : Except ReadError Content) :
    Reads n (match x with
      | .ok content => return ⟨nameIndex, content⟩
      | .error e => throw e : Decode Attribute)
      fun a bs => x = .ok a.content ∧ a.nameIndex = nameIndex ∧ bs = [] := by
  cases x with
  | error e => exact (Reads.throw _).congr fun a bs => by simp
  | ok content =>
    refine (Reads.pure _).congr fun a bs => ?_
    obtain ⟨name, content'⟩ := a
    simp [eq_comm, and_left_comm, and_assoc]

theorem decodeWith_reads {fuel : Nat} {pool : ConstantPool} {attributes : Decode (List Attribute)}
    (h : Reads fuel attributes (Writes (Encoded.counted .codeAttributes encode)
      fun as => ∀ a ∈ as, a.Everywhere (AsRead pool))) :
    Reads (fuel + 1) (decodeWith pool attributes) (Writes encode (Everywhere (AsRead pool))) := by
  have step : decodeWith pool attributes = Decode.word16 >>= fun nameIndex =>
      (Decode.word32 >>= fun w => Decode.bytes w.toNat) >>= fun payload =>
        Decode.ofPool (pool.utf8 nameIndex) >>= fun name =>
          match Content.ofBytes attributes name payload with
          | .ok content => pure ⟨nameIndex, content⟩
          | .error e => throw e := by
    simp only [decodeWith, bind_assoc]
  rw [step]
  refine (Reads.word16.bind fun nameIndex => (part_reads _).bind fun payload =>
    (Reads.ofPool (pool.utf8 nameIndex)).bind fun name => ending_reads nameIndex _).congrShort
      (fun a bs ⟨i, u, _, hu, ⟨payload, part, _, hpart, ⟨name, _, _, ⟨hname, h₁⟩,
        ⟨content, hi, h₂⟩, h₃⟩, h₄⟩, form⟩ => ?_) fun a bs short ⟨written, all⟩ => ?_
  · subst hi hu h₁ h₂ h₃ h₄
    obtain ⟨written, tagged, isOpaque, all, kind⟩ := Content.ofBytes_sound h content
    refine ⟨encode_eq_ok_iff.2 ⟨payload, part, written, hpart, by simpa using form⟩, ?_⟩
    exact a.everywhere_iff.2 ⟨⟨⟨⟨name, hname, kind.symm⟩, tagged⟩, isOpaque⟩, all⟩
  · obtain ⟨payload, part, hp, hpart, form⟩ := encode_eq_ok_iff.1 written
    obtain ⟨⟨⟨⟨name, hname, kind⟩, tagged⟩, isOpaque⟩, all⟩ := a.everywhere_iff.1 all
    -- The content is shorter than the attribute by its name and its length.
    have shorter : payload.length ≤ fuel := by
      obtain ⟨_, hpart⟩ := withLength_eq_ok_iff.1 hpart
      rw [form, hpart, List.length_append, List.length_append, length_ofWord16, length_bigEndian]
        at short
      omega
    have content := Content.ofBytes_complete h ⟨hp, tagged, isOpaque, all, kind.symm⟩ shorter
    exact ⟨a.nameIndex, _, part, rfl, ⟨payload, part, [], hpart, ⟨name, [], [], ⟨hname, rfl⟩,
      ⟨content, rfl, rfl⟩, rfl⟩, by simp⟩, form⟩

theorem decodeNested_succ (pool : ConstantPool) (fuel : Nat) :
    decodeNested pool (fuel + 1) = Decode.counted (decodeWith pool (decodeNested pool fuel)) := rfl

/-- **Attributes are read** from what is written of them, when there is fuel for each byte. -/
theorem decodeNested_reads (pool : ConstantPool) (fuel : Nat) (what : Counted) :
    Reads fuel (decodeNested pool fuel) (Writes (Encoded.counted what encode)
      fun as => ∀ a ∈ as, a.Everywhere (AsRead pool)) := by
  induction fuel generalizing what with
  | zero =>
    refine ⟨fun _ _ _ eq => (nomatch eq), fun as bs ⟨written, _⟩ short => ?_⟩
    obtain ⟨_, rest, _, form⟩ := counted_eq_ok_iff.1 written
    rw [form, List.length_append, length_bigEndian] at short
    omega
  | succ fuel ih =>
    rw [decodeNested_succ]
    exact (decodeWith_reads (ih .codeAttributes)).countedWrites what

end Attribute

end ClassWeave
