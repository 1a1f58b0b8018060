import ClassWeave.Proofs.ClassFile.Attributes
import ClassWeave.Proofs.ClassFile.Constants

/-!
# Classes are read back as they are written

**Classes as they are read** (`ClassFile.AsRead`). The pool is laid out and every attribute, at
every level, is as it is read.

**Both directions.** Such a class is read from what is written of it (`ClassFile.read_of_write`),
and what is read is such a class and is written with the same bytes (`ClassFile.write_of_read`). The
one exception is a stated pool count of zero, in place of which the count of an empty pool is
written.
-/

namespace ClassWeave

open Encoded
open Decode (Reads)

/-! ## Members -/

/-- Every attribute of the member, at every level, has a property. -/
def Member.Everywhere (P : Attribute → Prop) (m : Member) : Prop :=
  ∀ a ∈ m.attributes, a.Everywhere P

namespace Member

theorem encode_eq_ok_iff {what : Counted} {m : Member} {bs : Bytes} : m.encode what = .ok bs ↔
    ∃ attributes, Encoded.counted what Attribute.encode m.attributes = .ok attributes ∧
      bs = ofWord16 m.accessFlags ++ (ofWord16 m.nameIndex ++ (ofWord16 m.descriptorIndex ++
        attributes)) := by
  simp only [encode, Encoded.counted, except_bind_eq_ok_iff, except_pure_eq_ok_iff,
    Attribute.encodeList_eq_concat]
  refine ⟨?_, ?_⟩
  · intro given
    obtain ⟨head, hh, rest, hr, form⟩ := given
    exact ⟨head ++ rest, ⟨head, hh, rest, hr, rfl⟩, form.symm⟩
  · intro given
    obtain ⟨_, ⟨head, hh, rest, hr, ha⟩, form⟩ := given
    subst ha
    exact ⟨head, hh, rest, hr, form.symm⟩

theorem decodeWith_reads {n : Nat} {attributes : Decode (List Attribute)} {P : Attribute → Prop}
    (what : Counted) (h : Reads n attributes (Writes (Encoded.counted what Attribute.encode)
      fun as => ∀ a ∈ as, a.Everywhere P)) :
    Reads n (decodeWith attributes) (Writes (encode what) (Everywhere P)) := by
  refine (Reads.word16.bind fun flags => Reads.word16.bind fun name => Reads.word16.bind
    fun descriptor => h.answer (Member.mk flags name descriptor)).congr fun m bs => ?_
  simp only [Writes, encode_eq_ok_iff]
  refine ⟨?_, ?_⟩
  · intro given
    obtain ⟨⟨rest, hr, form⟩, all⟩ := given
    exact ⟨m.accessFlags, _, _, rfl, ⟨m.nameIndex, _, _, rfl, ⟨m.descriptorIndex, _, rest, rfl,
      ⟨m.attributes, ⟨hr, all⟩, rfl⟩, rfl⟩, rfl⟩, form⟩
  · intro given
    obtain ⟨flags, _, _, hflags, ⟨name, _, _, hname, ⟨descriptor, _, rest, hdescriptor, ⟨as, ⟨hr,
      all⟩, hm⟩, h₁⟩, h₂⟩, form⟩ := given
    subst hm hflags hname hdescriptor h₁ h₂
    exact ⟨⟨rest, hr, form⟩, all⟩

end Member

/-! ## Classes -/

namespace ClassFile

/-- Every attribute of the class, at every level, has a property. -/
structure Everywhere (P : Attribute → Prop) (c : ClassFile) : Prop where
  fields : ∀ m ∈ c.fields, m.Everywhere P
  methods : ∀ m ∈ c.methods.toList, m.Everywhere P
  attributes : ∀ a ∈ c.attributes, a.Everywhere P

theorem Everywhere.method {P : Attribute → Prop} {c : ClassFile} (h : c.Everywhere P) {k : Nat}
    {m : Member} (hm : c.methods[k]? = some m) : m.Everywhere P :=
  h.methods m (Array.mem_toList_iff.2 (Array.mem_of_getElem? hm))

/-- The class is as it is read. -/
structure AsRead (c : ClassFile) : Prop where
  magic_eq : c.magic = classMagic
  laidOut : c.pool.LaidOut
  regular : c.pool.IsRegular
  everywhere : c.Everywhere (Attribute.AsRead c.pool)

/-- The bytes behind the pool. -/
def BehindPool (c : ClassFile) (bs : Bytes) : Prop := ∃ interfaces fields methods attributes,
  Encoded.counted .interfaces (fun i => .ok (ofWord16 i)) c.interfaces = .ok interfaces ∧
  Encoded.counted .fields (Member.encode .fieldAttributes) c.fields = .ok fields ∧
  Encoded.counted .methods (Member.encode .methodAttributes) c.methods.toList = .ok methods ∧
  Encoded.counted .classAttributes Attribute.encode c.attributes = .ok attributes ∧
  bs = ofWord16 c.accessFlags ++ (ofWord16 c.thisClass ++ (ofWord16 c.superClass ++
    (interfaces ++ (fields ++ (methods ++ attributes)))))

/-- The bytes of a class around those of its pool. -/
def around (c : ClassFile) (pool behind : Bytes) : Bytes :=
  ofWord32 c.magic ++ (ofWord16 c.minorVersion ++ (ofWord16 c.majorVersion ++ (pool ++ behind)))

theorem write_eq_ok_iff {c : ClassFile} {bs : Bytes} : c.write = .ok bs ↔
    ∃ pool behind, c.pool.encode = .ok pool ∧ c.BehindPool behind ∧ bs = c.around pool behind := by
  simp only [write, except_bind_eq_ok_iff, except_pure_eq_ok_iff, Attribute.encodeList_eq_concat]
  refine ⟨?_, ?_⟩
  · intro given
    obtain ⟨pool, hp, i, hi, f, hf, m, hm, head, hh, rest, hr, form⟩ := given
    have attributes : Encoded.counted .classAttributes Attribute.encode c.attributes =
        .ok (head ++ rest) := by
      simp only [Encoded.counted, hh, hr]
      rfl
    exact ⟨pool, _, hp, ⟨i, f, m, _, hi, hf, hm, attributes, rfl⟩, form.symm⟩
  · intro given
    obtain ⟨pool, _, hp, ⟨i, f, m, a, hi, hf, hm, ha, hbehind⟩, form⟩ := given
    simp only [Encoded.counted, except_bind_eq_ok_iff, except_pure_eq_ok_iff] at ha
    obtain ⟨head, hh, rest, hr, ha⟩ := ha
    subst ha hbehind
    exact ⟨pool, hp, i, hi, f, hf, m, hm, head, hh, rest, hr, form.symm⟩

/-- What is read of a class behind its pool, given fuel for its attributes. -/
def decodeBehind (fuel : Nat) (magic : UInt32) (minorVersion majorVersion : UInt16)
    (pool : ConstantPool) : Decode ClassFile := do
  let accessFlags ← Decode.word16
  let thisClass ← Decode.word16
  let superClass ← Decode.word16
  let interfaces ← Decode.counted Decode.word16
  let fields ← Decode.counted (Member.decodeWith (Attribute.decodeNested pool fuel))
  let methods ← Decode.counted (Member.decodeWith (Attribute.decodeNested pool fuel))
  let attributes ← Attribute.decodeNested pool fuel
  return {
    magic, minorVersion, majorVersion, pool, accessFlags, thisClass, superClass, interfaces,
    fields, methods := methods.toArray, attributes }

theorem decodeBehind_reads (fuel : Nat) (magic : UInt32) (minorVersion majorVersion : UInt16)
    (pool : ConstantPool) :
    Reads fuel (decodeBehind fuel magic minorVersion majorVersion pool) fun c bs =>
      c.magic = magic ∧ c.minorVersion = minorVersion ∧ c.majorVersion = majorVersion ∧
        c.pool = pool ∧ c.BehindPool bs ∧ c.Everywhere (Attribute.AsRead pool) := by
  have attributes (what : Counted) := Attribute.decodeNested_reads pool fuel what
  have members (what own : Counted) :=
    (Member.decodeWith_reads own (attributes own)).countedWrites what
  -- The steps of the reader in their order; what is left is to find the class in its parts.
  refine (Reads.word16.bind fun flags =>
    Reads.word16.bind fun this => Reads.word16.bind fun super =>
    ((word_reads fuel).countedWrites .interfaces).bind fun is =>
      (members .fields .fieldAttributes).bind fun fs =>
        (members .methods .methodAttributes).bind fun ms =>
          (attributes .classAttributes).answer fun as =>
            ClassFile.mk magic minorVersion majorVersion pool flags this super is fs ms.toArray
              as).congr fun c bs => ?_
  refine ⟨?_, ?_⟩
  · intro given
    obtain ⟨hmagic, hminor, hmajor, hpool, ⟨i, f, m, a, hi, hf, hm, ha, form⟩, all⟩ := given
    subst hmagic hminor hmajor hpool
    exact ⟨c.accessFlags, _, _, rfl, ⟨c.thisClass, _, _, rfl, ⟨c.superClass, _, _, rfl,
      ⟨c.interfaces, i, _, ⟨hi, fun _ _ => trivial⟩, ⟨c.fields, f, _, ⟨hf, all.fields⟩,
        ⟨c.methods.toList, m, a, ⟨hm, all.methods⟩, ⟨c.attributes, ⟨ha, all.attributes⟩, rfl⟩,
          rfl⟩, rfl⟩, rfl⟩, rfl⟩, rfl⟩, form⟩
  · intro given
    obtain ⟨flags, _, _, hflags, ⟨this, _, _, hthis, ⟨super, _, _, hsuper, ⟨is, i, _, ⟨hi, _⟩,
      ⟨fs, f, _, ⟨hf, fields⟩, ⟨ms, m, a, ⟨hm, methods⟩, ⟨as, ⟨ha, own⟩, hc⟩, h₁⟩, h₂⟩, h₃⟩, h₄⟩,
      h₅⟩, form⟩ := given
    subst hc hflags hthis hsuper h₁ h₂ h₃ h₄ h₅
    exact ⟨rfl, rfl, rfl, rfl, ⟨i, f, m, a, hi, hf, hm, ha, form⟩, fields, methods, own⟩

/-- What is read of a class, given fuel for its attributes. -/
def decodeWith (fuel : Nat) : Decode ClassFile := do
  let magic ← Decode.word32
  if magic = classMagic then
    let minorVersion ← Decode.word16
    let majorVersion ← Decode.word16
    let pool ← ConstantPool.decode
    decodeBehind fuel magic minorVersion majorVersion pool
  else throw (.invalidMagic magic)

theorem decode_eq : decode = (do decodeWith ((← get).rest.length + 1)) := by
  have same (fuel : Nat) : decodeWith fuel = (do
      let magic ← Decode.word32
      if magic ≠ classMagic then throw (.invalidMagic magic)
      let minorVersion ← Decode.word16
      let majorVersion ← Decode.word16
      let pool ← ConstantPool.decode
      decodeBehind fuel magic minorVersion majorVersion pool) := by
    unfold decodeWith
    congr 1
    funext magic
    by_cases h : magic = classMagic
    · rw [if_pos h, if_neg (by simpa using h)]
    · rw [if_neg h, if_pos h]
      rfl
  simp only [same]
  rfl

/-- The bytes that are read as a class: those of its parts around a form of its pool. -/
def ReadForm : Form ClassFile := fun c bs => c.AsRead ∧
  ∃ pool behind, ConstantPool.ReadForm c.pool pool ∧ c.BehindPool behind ∧ bs = c.around pool behind

theorem decode_reads (n : Nat) : Reads n decode ReadForm := by
  rw [decode_eq]
  refine Reads.ofFuel fun fuel => ?_
  -- A class with another magic number is refused, and no class that is read has one.
  have checked (magic : UInt32) : Reads fuel
      (if magic = classMagic then do
        let minorVersion ← Decode.word16
        let majorVersion ← Decode.word16
        let pool ← ConstantPool.decode
        decodeBehind fuel magic minorVersion majorVersion pool
      else throw (.invalidMagic magic)) fun c bs => c.magic = magic ∧ c.AsRead ∧
        ∃ pool behind, ConstantPool.ReadForm c.pool pool ∧ c.BehindPool behind ∧
          bs = ofWord16 c.minorVersion ++ (ofWord16 c.majorVersion ++ (pool ++ behind)) := by
    by_cases h : magic = classMagic
    · rw [if_pos h]
      refine (Reads.word16.bind fun minor => Reads.word16.bind fun major =>
        (ConstantPool.decode_reads fuel).bind fun pool =>
          decodeBehind_reads fuel magic minor major pool).congr fun c bs => ?_
      refine ⟨?_, ?_⟩
      · intro given
        obtain ⟨hmagic, asRead, p, b, hp, hb, form⟩ := given
        exact ⟨c.minorVersion, _, _, rfl, ⟨c.majorVersion, _, _, rfl, ⟨c.pool, p, b, hp,
          ⟨hmagic, rfl, rfl, rfl, hb, asRead.everywhere⟩, rfl⟩, rfl⟩, form⟩
      · intro given
        obtain ⟨minor, _, _, hminor, ⟨major, _, _, hmajor, ⟨pool, p, b, hp, ⟨hmagic, eqMinor,
          eqMajor, hpool, hb, all⟩, h₁⟩, h₂⟩, form⟩ := given
        subst eqMinor eqMajor hpool hminor hmajor h₁ h₂
        exact ⟨hmagic, ⟨hmagic.trans h, hp.1, hp.2.1, all⟩, p, b, hp, hb, form⟩
    · rw [if_neg h]
      refine (Reads.throw _).congr fun c bs => ⟨fun ⟨hmagic, asRead, _⟩ => ?_, False.elim⟩
      exact h (hmagic.symm.trans asRead.magic_eq)
  refine (Reads.word32.bind checked).congr fun c bs => ?_
  refine ⟨?_, ?_⟩
  · intro given
    obtain ⟨asRead, p, b, hp, hb, form⟩ := given
    exact ⟨c.magic, _, _, rfl, ⟨rfl, asRead, p, b, hp, hb, rfl⟩, form⟩
  · intro given
    obtain ⟨magic, _, _, h₁, ⟨hmagic, asRead, p, b, hp, hb, h₂⟩, form⟩ := given
    subst hmagic h₁ h₂
    exact ⟨asRead, p, b, hp, hb, form⟩

theorem read_eq_ok_iff {bs : Bytes} {c : ClassFile} : read bs = .ok c ↔ ReadForm c bs := by
  refine ⟨?_, ?_⟩
  · intro h
    unfold read at h
    split at h
    · next whole =>
      obtain rfl := Except.ok.inj h
      exact (decode_reads 0).sound.whole whole
    all_goals simp at h
  · intro form
    unfold read
    simp only [(decode_reads bs.length).complete.whole form (Nat.le_refl _)]

/-! ## Both directions -/

theorem asRead_of_read {bs : Bytes} {c : ClassFile} (h : read bs = .ok c) : c.AsRead :=
  (read_eq_ok_iff.1 h).1

/-- **Writing then reading** gives the class back, if it is as it is read. -/
theorem read_of_write {bs : Bytes} {c : ClassFile} (h : c.write = .ok bs) (asRead : c.AsRead) :
    read bs = .ok c := by
  obtain ⟨pool, behind, hpool, hbehind, form⟩ := write_eq_ok_iff.1 h
  have hpool : ConstantPool.ReadForm c.pool pool := ⟨asRead.laidOut, asRead.regular, .inl hpool⟩
  exact read_eq_ok_iff.2 ⟨asRead, pool, behind, hpool, hbehind, form⟩

/-- The count of its pool that a class file states. -/
def statedPoolCount (bs : Bytes) : Nat := ofBigEndian ((bs.drop 8).take 2)

/-- The class file with another stated count of its pool. -/
def withPoolCount (count : Nat) (bs : Bytes) : Bytes :=
  bs.take 8 ++ (bigEndian 2 count ++ bs.drop 10)

/-- The bytes in front of the pool. -/
def header (c : ClassFile) : Bytes :=
  ofWord32 c.magic ++ (ofWord16 c.minorVersion ++ ofWord16 c.majorVersion)

theorem length_header (c : ClassFile) : c.header.length = 8 := by
  simp [header]

theorem around_eq (c : ClassFile) (pool behind : Bytes) :
    c.around pool behind = c.header ++ (pool ++ behind) := by
  simp [around, header]

theorem drop_around (c : ClassFile) (pool behind : Bytes) :
    (c.around pool behind).drop 8 = pool ++ behind := by
  rw [around_eq, List.drop_left' c.length_header]

theorem statedPoolCount_around (c : ClassFile) {count : Bytes} (two : count.length = 2)
    (entries behind : Bytes) :
    statedPoolCount (c.around (count ++ entries) behind) = ofBigEndian count := by
  rw [statedPoolCount, drop_around, List.append_assoc, List.take_left' two]

theorem withPoolCount_around (c : ClassFile) {count : Bytes} (two : count.length = 2) (n : Nat)
    (behind : Bytes) :
    withPoolCount n (c.around count behind) = c.around (bigEndian 2 n) behind := by
  have rest : (c.around count behind).drop 10 = behind := by
    rw [show 10 = 8 + 2 from rfl, ← List.drop_drop, drop_around, List.drop_left' two]
  rw [withPoolCount, rest, around_eq, List.take_left' c.length_header, around_eq]

/-- **Reading then writing** gives the bytes back, except that a stated pool count of zero becomes
the count of an empty pool, which is one. -/
theorem write_of_read {bs : Bytes} {c : ClassFile} (h : read bs = .ok c) :
    c.write = .ok (if statedPoolCount bs = 0 then withPoolCount 1 bs else bs) := by
  obtain ⟨asRead, pool, behind, ⟨laidOut, _, hpool⟩, hbehind, form⟩ := read_eq_ok_iff.1 h
  -- Only the pool can have two forms: the one that is written, and a count of zero.
  rcases hpool with written | ⟨isEmpty, hzero⟩
  · obtain ⟨entries, hentries, hpool⟩ := ConstantPool.encode_eq_ok_iff.1 written
    have stated : statedPoolCount bs = c.pool.slots.size + 1 := by
      rw [form, hpool, statedPoolCount_around c (length_ofWord16 _), ofWord16,
        ofBigEndian_bigEndian, ConstantPool.count_toNat laidOut.size_le, Nat.mod_eq_of_lt]
      have size := laidOut.size_le
      unfold ConstantPool.maxIndex at size
      omega
    rw [if_neg (by omega)]
    exact write_eq_ok_iff.2 ⟨pool, behind, written, hbehind, form⟩
  · have stated : statedPoolCount bs = 0 := by
      rw [form, hzero, ← List.append_nil [0, 0], statedPoolCount_around c rfl]
      rfl
    have one : c.pool.encode = .ok (bigEndian 2 1) := by
      rw [isEmpty]
      rfl
    rw [if_pos stated, form, hzero, withPoolCount_around c rfl]
    exact write_eq_ok_iff.2 ⟨_, behind, one, hbehind, rfl⟩

/-- A class with a lone surrogate, a wide entry and code that has an attribute. -/
def nestedClass : Bytes :=
  [0xCA, 0xFE, 0xBA, 0xBE, 0, 0, 0, 52, 0, 6, 1, 0, 4, 67, 111, 100, 101, 5, 0, 0, 0, 0, 0, 0, 0, 9,
    1, 0, 9, 83, 105, 103, 110, 97, 116, 117, 114, 101, 1, 0, 5, 0xC0, 0x80, 0xED, 0xA0, 0x80,
    0, 0x21, 0, 0, 0, 0, 0, 0, 0, 0, 0, 1, 0, 8, 0, 1, 0, 1, 0, 1, 0, 1, 0, 0, 0, 21, 0, 1, 0, 0,
    0, 0, 0, 1, 0xB1, 0, 0, 0, 1, 0, 4, 0, 0, 0, 2, 0, 1, 0, 0]

/-- A class whose stated pool count is zero. -/
def uncountedClass : Bytes :=
  [0xCA, 0xFE, 0xBA, 0xBE, 0, 0, 0, 52, 0, 0, 0, 0x21, 0, 0, 0, 0, 0, 0, 0, 0, 0, 0, 0, 0]

theorem write_of_read_nested : (∃ c, read nestedClass = .ok c ∧ c.write = .ok nestedClass) ∧
    ∃ c, read uncountedClass = .ok c ∧ c.write = .ok (withPoolCount 1 uncountedClass) :=
  ⟨⟨_, rfl, write_of_read (show read nestedClass = .ok _ from rfl)⟩,
    ⟨_, rfl, write_of_read (show read uncountedClass = .ok _ from rfl)⟩⟩

end ClassFile

end ClassWeave
