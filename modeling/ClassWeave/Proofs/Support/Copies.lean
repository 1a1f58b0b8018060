import ClassWeave.Proofs.ClassFile.Edits
import ClassWeave.Proofs.Relocation.Retyped
import ClassWeave.Support

/-!
# Copies of support classes

**New names** (`ClassFile.setName_ok`). The entry that names the class is pointed at its new name.
All other entries and texts stay, and so does what is behind the pool.

**Main result** (`moveSupportClass_ok`). What is written of a moved support class is read as a copy
of it (`ClassFile.CopiedAs`): a class of the new name, in which each other place that names types is
moved.
-/

namespace ClassWeave

/-! ## New names -/

/-- In the second pool the entry at an index is a class of the given name. The other entries and all
texts of the first pool stay. -/
structure ConstantPool.NamedAt (p : ConstantPool) (index : UInt16) (name : String)
    (q : ConstantPool) : Prop where
  laidOut : q.LaidOut
  isRegular : p.IsRegular → q.IsRegular
  className_eq : q.className index = .ok name
  slot {k : Nat} {e : Constant} : k + 1 ≠ index.toNat → p.slots[k]? = some e → q.slots[k]? = some e
  utf8 {i : UInt16} {text : String} : p.utf8 i = .ok text → q.utf8 i = .ok text

namespace ConstantPool

variable {p q r : ConstantPool} {index nameIndex : UInt16} {name : String}

theorem namedAt_of_set {old : UInt16} (laidOut : p.LaidOut) (gains : p.GainsTexts q)
    (text : q.utf8 nameIndex = .ok name) (entry : q.get index = .ok (.classRef old)) :
    p.NamedAt index name ⟨q.slots.setIfInBounds (index.toNat - 1) (.classRef nameIndex)⟩ := by
  obtain ⟨nonzero, slot, _⟩ := get_eq_ok_iff.1 entry
  rw [Array.getElem?_toList] at slot
  obtain ⟨lt, _⟩ := Array.getElem?_eq_some_iff.1 slot
  have pos : 0 < index.toNat := Nat.pos_of_ne_zero fun zero => nonzero (UInt16.toNat_inj.1 zero)
  have laidOut := gains.grows.laidOut laidOut
  refine ⟨?_, fun regular e he => ?_, ?_, fun other he => ?_, fun ht => ?_⟩
  · exact laidOut.replace slot (Constant.narrow_of_namesType rfl) (Constant.narrow_of_namesType rfl)
  · rcases Array.mem_or_eq_of_mem_setIfInBounds (Array.mem_toList_iff.1 he) with he | rfl
    · exact gains.grows.isRegular regular e (Array.mem_toList_iff.2 he)
    · trivial
  · refine className_eq_ok_iff.2 ⟨nameIndex, get_eq_ok_iff.2 ⟨nonzero, ?_, nofun⟩, ?_⟩
    · rw [Array.getElem?_toList, Array.getElem?_setIfInBounds_self_of_lt lt]
    · exact (utf8_replace_iff slot rfl rfl).2 text
  · obtain ⟨within, _⟩ := Array.getElem?_eq_some_iff.1 he
    rw [Array.getElem?_setIfInBounds_ne (by omega), slot_of_le gains.grows.le within, he]
  · exact (utf8_replace_iff slot rfl rfl).2 (utf8_of_le gains.grows.le ht)

end ConstantPool

namespace ClassFile

/-- The name is interned first, and then the entry that names the class is pointed at it. A class
without such an entry gets one. -/
theorem setName_eq (name : String) (c : ClassFile) : c.setName name =
    if c.thisClass = 0 then
      match ConstantPool.addClass name c.pool with
      | .ok index q => .ok () { c with pool := q, thisClass := index }
      | .error e q => .error e { c with pool := q }
    else match ConstantPool.addUtf8 name c.pool with
      | .error e q => .error e { c with pool := q }
      | .ok nameIndex q =>
        match q.get c.thisClass with
        | .ok (.classRef _) => .ok () { c with
            pool := ⟨q.slots.setIfInBounds (c.thisClass.toNat - 1) (.classRef nameIndex)⟩ }
        | .ok _ => .error (.unexpectedEntry c.thisClass .classRef) { c with pool := q }
        | .error e => .error e { c with pool := q } := by
  unfold setName
  rw [get_bind]
  by_cases unnamed : c.thisClass = 0
  · simp only [if_pos unnamed, bind, EStateM.bind, onPool]
    cases ConstantPool.addClass name c.pool <;> rfl
  · simp only [if_neg unnamed, bind, EStateM.bind, onPool]
    cases ConstantPool.addUtf8 name c.pool with
    | error e q => rfl
    | ok nameIndex q =>
      show (match q.get c.thisClass with
        | .ok (.classRef _) => onPool (ConstantPool.set c.thisClass (.classRef nameIndex))
        | .ok _ => throw (.unexpectedEntry c.thisClass .classRef)
        | .error e => throw e : Edit Unit) { c with pool := q } = _
      cases entry : q.get c.thisClass with
      | error e =>
        simp only [entry]
        rfl
      | ok old => cases old <;> simp only [entry, onPool, ConstantPool.set] <;> rfl

/-- A class with an entry that names it takes a new name when there is space for the name. -/
theorem setName_eq_ok_iff {name : String} {c d : ClassFile} (named : c.thisClass ≠ 0) :
    c.setName name = .ok () d ↔ ∃ nameIndex q old,
      ConstantPool.addUtf8 name c.pool = .ok nameIndex q ∧
      q.get c.thisClass = .ok (.classRef old) ∧ d = { c with
        pool := ⟨q.slots.setIfInBounds (c.thisClass.toNat - 1) (.classRef nameIndex)⟩ } := by
  rw [setName_eq, if_neg named]
  cases hadd : ConstantPool.addUtf8 name c.pool with
  | error e q => simp
  | ok nameIndex q =>
    cases entry : q.get c.thisClass with
    | error e => simp [entry]
    | ok old => cases old <;> simp [entry, eq_comm]

/-- **A class that takes a new name** changes in its pool only. -/
theorem setName_ok {name : String} {c d : ClassFile} (laidOut : c.pool.LaidOut)
    (named : c.thisClass ≠ 0) (h : c.setName name = .ok () d) :
    ∃ q, d = { c with pool := q } ∧ c.pool.NamedAt c.thisClass name q := by
  obtain ⟨nameIndex, q, old, hadd, entry, rfl⟩ := (setName_eq_ok_iff named).1 h
  obtain ⟨gains, text⟩ := ConstantPool.addUtf8_gainsTexts laidOut hadd
  exact ⟨_, rfl, ConstantPool.namedAt_of_set laidOut gains text entry⟩

/-! ## Copies -/

/-- The second class has the given name, and is the first one with each other place that names types
moved to its image. -/
structure CopiedAs (r : Renaming) (name : String) (c d : ClassFile) : Prop where
  name_eq : d.name = .ok name
  entries (k : Nat) (e : Constant) : k + 1 ≠ c.thisClass.toNat → c.pool.slots[k]? = some e →
    ∃ e', d.pool.slots[k]? = some e' ∧
      e.Retyped (c.pool.Moves d.pool r.nameImage) (c.pool.Moves d.pool (r.image .descriptor)) e'
  utf8 (i : UInt16) (text : String) : c.pool.utf8 i = .ok text → d.pool.utf8 i = .ok text
  fields : List.Forall₂ (Member.Retyped fun use => c.pool.Moves d.pool (r.image use))
    c.fields d.fields
  methods : List.Forall₂ (Member.Retyped fun use => c.pool.Moves d.pool (r.image use))
    c.methods.toList d.methods.toList
  attributes : Attribute.RetypedList (fun use => c.pool.Moves d.pool (r.image use))
    c.attributes d.attributes
  rest : d = { c with
    pool := d.pool, fields := d.fields, methods := d.methods, attributes := d.attributes }

variable {r : Renaming} {c d : ClassFile} {name : String} {q : ConstantPool}

theorem Relocated.thisClass_eq (h : c.Relocated r d) : d.thisClass = c.thisClass := by rw [h.rest]

theorem Relocated.copiedAs (h : c.Relocated r d) (named : d.pool.NamedAt d.thisClass name q) :
    c.CopiedAs r name { d with pool := q } := by
  -- One entry for a class is replaced, so that all texts stay where they are.
  have mono {image : String → Option String → Prop} (i j : UInt16)
      (moved : c.pool.Moves d.pool image i j) : c.pool.Moves q image i j :=
    moved.mono fun _ _ => named.utf8
  have members {ms ns : List Member} (related : List.Forall₂
      (Member.Retyped fun use => c.pool.Moves d.pool (r.image use)) ms ns) :
      List.Forall₂ (Member.Retyped fun use => c.pool.Moves q (r.image use)) ms ns :=
    related.imp fun _ _ => Member.Retyped.mono fun _ => mono
  refine ⟨named.className_eq, fun k e other he => ?_, fun i text ht => named.utf8 (h.utf8 ht),
    members h.fields, members h.methods, ?_, ?_⟩
  · obtain ⟨e', he', retyped⟩ := h.entries k e he
    exact ⟨e', named.slot (by rwa [h.thisClass_eq]) he', retyped.mono mono mono⟩
  · exact Attribute.RetypedList.mono (fun _ => mono) _ _ h.attributes
  · rw [h.rest]

theorem thisClass_ne_zero (h : c.name = .ok name) : c.thisClass ≠ 0 := by
  obtain ⟨_, entry, _⟩ := ConstantPool.className_eq_ok_iff.1 h
  exact (ConstantPool.get_eq_ok_iff.1 entry).1

theorem name_of_relocate (h : c.relocate r = .ok () d) : ∃ name, c.name = .ok name := by
  obtain ⟨name, _, _, named, _⟩ := relocate_ok h
  exact ⟨name, named⟩

/-- A class that is relocated and then takes a name becomes a copy, and stays as it is read. -/
theorem copiedAs_of_setName {e : ClassFile} (asRead : c.AsRead)
    (hrelocate : c.relocate r = .ok () d) (hname : d.setName name = .ok () e) :
    c.CopiedAs r name e ∧ e.AsRead := by
  obtain ⟨relocated, _, laidOut⟩ := relocate_spec asRead.laidOut hrelocate
  obtain ⟨_, named⟩ := name_of_relocate hrelocate
  have nonzero : d.thisClass ≠ 0 := by
    rw [relocated.thisClass_eq]
    exact thisClass_ne_zero named
  obtain ⟨q, rfl, namedAt⟩ := setName_ok laidOut nonzero hname
  have texts (i : UInt16) (text : String) (ht : c.pool.utf8 i = .ok text) : q.utf8 i = .ok text :=
    namedAt.utf8 (relocated.utf8 ht)
  refine ⟨relocated.copiedAs namedAt, ?_, namedAt.laidOut,
    namedAt.isRegular (relocated.isRegular asRead.regular), ?_⟩
  · rw [relocated.rest]
    exact asRead.magic_eq
  · obtain ⟨fields, methods, attributes⟩ := relocated.everywhere texts asRead.everywhere
    exact ⟨fields, methods, attributes⟩

end ClassFile

/-- A support class is moved when it is read, relocated, named and written. -/
theorem moveSupportClass_eq_ok_iff {bs w : Bytes} {name : String} {i : Identifier} :
    moveSupportClass bs name i = .ok w ↔ ∃ c d e, ClassFile.read bs = .ok c ∧
      c.relocate (.move placeholderPackage i.text) = .ok () d ∧ d.setName name = .ok () e ∧
        e.write = .ok w := by
  unfold moveSupportClass
  cases hread : ClassFile.read bs with
  | error e => simp
  | ok c =>
    cases hrelocate : c.relocate (.move placeholderPackage i.text) with
    | error e d => simp [hrelocate]
    | ok _ d =>
      cases hname : d.setName name with
      | error e e' => simp [hrelocate, hname]
      | ok _ e => simp [hrelocate, hname, mapError_eq_ok_iff]

/-- **A moved support class** is written so that it is read as a copy under its new name. -/
theorem moveSupportClass_ok {bs w : Bytes} {name : String} {i : Identifier}
    (h : moveSupportClass bs name i = .ok w) : ∃ c d, ClassFile.read bs = .ok c ∧
      ClassFile.read w = .ok d ∧ c.CopiedAs (.move placeholderPackage i.text) name d := by
  obtain ⟨c, d, e, hread, hrelocate, hname, hwrite⟩ := moveSupportClass_eq_ok_iff.1 h
  obtain ⟨copied, readable⟩ :=
    ClassFile.copiedAs_of_setName (ClassFile.asRead_of_read hread) hrelocate hname
  exact ⟨c, e, hread, ClassFile.read_of_write hwrite readable, copied⟩

end ClassWeave
