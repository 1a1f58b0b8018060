import ClassWeave.Proofs.Relocation.Settled
import ClassWeave.Proofs.Support.Linked

/-!
# Support classes that are moved again

**Names of copies** (`Identifier.isFinal_move`). Names below the identifier are not below the
placeholder package, if the identifier begins with another segment. So a class that is moved to the
identifier has nothing left to move.

**New names** (`ClassFile.setName_again`). A class that has taken a name takes it again without a
change: the text is found where it was put, and the entry is pointed at it already.

**Main result** (`moveSupportClass_stable`). Moved support classes name nothing in the placeholder
package, and they are moved again to the same bytes.
-/

namespace ClassWeave

open Renaming (below InPackage)

/-! ## Names of copies -/

/-- The copy of a class is named below the identifier. -/
theorem eq_below_of_supportName? {entry newName : String} {i : Identifier}
    (h : supportName? entry i = some newName) : ∃ simple, newName = below i.text simple := by
  rw [supportName?_eq, Option.bind_eq_some_iff] at h
  obtain ⟨stem, _, h⟩ := h
  split_ifs at h
  exact ⟨simpleName stem, (Option.some.inj h).symm⟩

/-- Names that begin with another segment than the placeholder package are outside of it. -/
theorem placeholder_not_isPrefix {package : String}
    (other : (segments package).head? ≠ some "me") (inner : String) :
    ¬ placeholderPackage.toList <+: (below package inner).toList := by
  rintro ⟨rest, eq⟩
  have split : below package inner =
      "me" ++ "/" ++ ("shedaniel/architect/plugin/callsite" ++ String.ofList rest) := by
    rw [← String.toList_inj, ← eq]
    simp [placeholderPackage]
  refine other ?_
  calc (segments package).head?
      = (segments package ++ segments inner).head? :=
        (List.head?_append_of_ne_nil _ (segments_ne_nil package)).symm
    _ = (segments (below package inner)).head? := by rw [below, segments_slash]
    _ = some "me" := by
      rw [split, segments_slash]
      rfl

theorem Identifier.isFinal_move {text : String} (valid : isValid text)
    (other : (segments text).head? ≠ some "me") :
    (Renaming.move placeholderPackage text).IsFinal := by
  refine Renaming.isFinal_move ?_ (fun c hc => ?_) (placeholder_not_isPrefix other)
  · rintro rfl
    exact absurd valid (by decide)
  · have all : ∀ c ∈ '[' :: Signature.classStops, c ∈ reserved := by
      simp [Signature.classStops, reserved]
    exact reserved_notMem valid (all c hc)

/-! ## Taking a name -/

namespace ClassFile

variable {allowed : String → Prop} {name : String} {c d : ClassFile}

/-- **A name that is taken again** changes nothing. -/
theorem setName_again (named : c.thisClass ≠ 0) (h : c.setName name = .ok () d) :
    d.setName name = .ok () d := by
  obtain ⟨nameIndex, q, old, hadd, entry, rfl⟩ := (setName_eq_ok_iff named).1 h
  obtain ⟨_, slot, _⟩ := ConstantPool.get_eq_ok_iff.1 entry
  rw [Array.getElem?_toList] at slot
  obtain ⟨lt, _⟩ := Array.getElem?_eq_some_iff.1 slot
  have found := ConstantPool.find?_of_intern (c := .utf8 name) nofun (beq_self_eq_true name) hadd
  have alike : (Constant.classRef nameIndex).same (.utf8 name) =
      (Constant.classRef old).same (.utf8 name) := rfl
  have found' := (ConstantPool.find?_replace slot alike).trans found
  rw [setName_eq_ok_iff (by exact named)]
  refine ⟨nameIndex, _, nameIndex, ConstantPool.intern_of_find? found',
    ConstantPool.get_eq_ok_iff.2 ⟨named, ?_, nofun⟩, ?_⟩
  · rw [Array.getElem?_toList, Array.getElem?_setIfInBounds_self_of_lt lt]
  · rw [Array.setIfInBounds_setIfInBounds]

/-- A class that takes an allowed name goes on naming what is allowed. -/
theorem NamesOnly.setName (h : c.NamesOnly allowed) (laidOut : c.pool.LaidOut)
    (named : c.thisClass ≠ 0) (own : TypeUse.EntryNamesOnly allowed name)
    (hname : c.setName name = .ok () d) : d.NamesOnly allowed := by
  obtain ⟨nameIndex, q, old, hadd, entry, rfl⟩ := (setName_eq_ok_iff named).1 hname
  obtain ⟨gains, text⟩ := ConstantPool.addUtf8_gainsTexts laidOut hadd
  have namedAt := ConstantPool.namedAt_of_set laidOut gains text entry
  obtain ⟨_, slot, _⟩ := ConstantPool.get_eq_ok_iff.1 entry
  rw [Array.getElem?_toList] at slot
  obtain ⟨lt, _⟩ := Array.getElem?_eq_some_iff.1 slot
  have mono {good : String → Prop} (i j : UInt16) (stays : c.pool.Stays good i j) :
      ConstantPool.Stays ⟨q.slots.setIfInBounds (c.thisClass.toNat - 1) (.classRef nameIndex)⟩
        good i j :=
    stays.mono fun _ _ => namedAt.utf8
  refine ⟨fun k e he => ?_, fun m hm => (h.fields m hm).mono fun _ => mono,
    fun m hm => (h.methods m hm).mono fun _ => mono,
    Attribute.RetypedList.mono (fun _ => mono) _ _ h.attributes⟩
  -- The entry is the one that was set, an old one, or the text of the new name.
  by_cases same : c.thisClass.toNat - 1 = k
  · subst same
    obtain rfl : .classRef nameIndex = e :=
      Option.some.inj ((Array.getElem?_setIfInBounds_self_of_lt lt).symm.trans he)
    exact ⟨nameIndex, rfl, rfl, name, (ConstantPool.utf8_replace_iff slot rfl rfl).2 text, own⟩
  · rw [Array.getElem?_setIfInBounds_ne same] at he
    by_cases within : k < c.pool.slots.size
    · rw [ConstantPool.slot_of_le gains.grows.le within] at he
      exact (h.entries k e he).mono mono mono
    · obtain ⟨text, rfl⟩ := gains.eq_utf8 (Nat.not_lt.1 within) he
      rfl

theorem HasNames.setName (h : c.HasNames) (laidOut : c.pool.LaidOut) (named : c.thisClass ≠ 0)
    (hname : c.setName name = .ok () d) : d.HasNames := by
  obtain ⟨q, rfl, namedAt⟩ := setName_ok laidOut named hname
  refine ⟨fun m hm => ?_, fun m hm => ?_⟩
  · obtain ⟨text, ht⟩ := h.fields m hm
    exact ⟨text, namedAt.utf8 ht⟩
  · obtain ⟨text, ht⟩ := h.methods m hm
    exact ⟨text, namedAt.utf8 ht⟩

end ClassFile

/-! ## Moving a class again -/

/-- **Moved support classes are stable.** What is written of one is read under its new name. Nothing
that it names is in the placeholder package, so relocating it again changes nothing; and when it is
moved again, the same bytes are written. -/
theorem moveSupportClass_stable {bs w : Bytes} {entry newName : String} {i : Identifier}
    (valid : Identifier.isValid i.text) (other : (segments i.text).head? ≠ some "me")
    (hname : supportName? entry i = some newName) (h : moveSupportClass bs newName i = .ok w) :
    ∃ c, ClassFile.read w = .ok c ∧ c.name = .ok newName ∧
      c.NamesOnly (fun name => ¬ InPackage placeholderPackage name) ∧
      c.relocate (.move placeholderPackage i.text) = .ok () c ∧
      moveSupportClass w newName i = .ok w := by
  obtain ⟨b, c, d, hread, hrelocate, hset, hwrite⟩ := moveSupportClass_eq_ok_iff.1 h
  have asRead := ClassFile.asRead_of_read hread
  obtain ⟨relocated, names, laidOut⟩ := ClassFile.relocate_spec asRead.laidOut hrelocate
  obtain ⟨copied, readable⟩ := ClassFile.copiedAs_of_setName asRead hrelocate hset
  have nonzero : c.thisClass ≠ 0 := by
    obtain ⟨_, named⟩ := ClassFile.name_of_relocate hrelocate
    rw [relocated.thisClass_eq]
    exact ClassFile.thisClass_ne_zero named
  have final := Identifier.isFinal_move valid other
  -- The new name could be that of a moved class, so it stays as well.
  have own : TypeUse.EntryNamesOnly (Renaming.move placeholderPackage i.text · = none) newName := by
    obtain ⟨simple, rfl⟩ := eq_below_of_supportName? hname
    have moved := Renaming.move_below placeholderPackage i.text simple
    have stays := final.again (below placeholderPackage simple)
    rw [Renaming.apply, moved, Option.getD_some] at stays
    rwa [TypeUse.EntryNamesOnly, if_neg (final.noArray moved)]
  have only := (relocated.namesOnly final).setName laidOut nonzero own hset
  have again := only.relocate_eq (names.setName laidOut nonzero hset) copied.name_eq
  have readBack := ClassFile.read_of_write hwrite readable
  simp only [Renaming.move_eq_none_iff] at only
  exact ⟨d, readBack, copied.name_eq, only, again, moveSupportClass_eq_ok_iff.2
    ⟨d, d, d, readBack, again, ClassFile.setName_again nonzero hset, hwrite⟩⟩

/-- A class of the placeholder package with a list of its own kind in a field. -/
def chainClass : ClassFile :=
  let chain := below placeholderPackage "Chain"
  { ClassFile.empty with
    pool := ⟨#[.utf8 chain, .classRef 1, .utf8 "tail", .utf8 ("[L" ++ chain ++ ";"), .classRef 4,
      .utf8 "Signature", .utf8 ("Ljava/util/List<L" ++ chain ++ ";>;")]⟩
    thisClass := 2
    fields := [⟨0, 3, 4, [⟨6, .signature 7⟩]⟩] }

/-- The class of chains is moved to a package, and then again. -/
theorem moveSupportClass_stable_chain : Identifier.isValid "a/b" ∧
    (segments "a/b").head? ≠ some "me" ∧ supportName? "Chain.class" ⟨"a/b"⟩ = some "a/b/Chain" ∧
    ∃ bs w c, chainClass.write = .ok bs ∧ moveSupportClass bs "a/b/Chain" ⟨"a/b"⟩ = .ok w ∧
      ClassFile.read w = .ok c ∧ c.name = .ok "a/b/Chain" ∧
      c.NamesOnly (fun name => ¬ InPackage placeholderPackage name) ∧
      c.relocate (.move placeholderPackage "a/b") = .ok () c ∧
      moveSupportClass w "a/b/Chain" ⟨"a/b"⟩ = .ok w := by
  have valid : Identifier.isValid "a/b" := by decide +kernel
  have other : (segments "a/b").head? ≠ some "me" := by decide +kernel
  have hname : supportName? "Chain.class" ⟨"a/b"⟩ = some "a/b/Chain" := by decide +kernel
  have writes : (chainClass.write.toOption.bind fun bs =>
      (moveSupportClass bs "a/b/Chain" ⟨"a/b"⟩).toOption).isSome := by decide +kernel
  obtain ⟨w, both⟩ := Option.isSome_iff_exists.1 writes
  obtain ⟨bs, written, moved⟩ := Option.bind_eq_some_iff.1 both
  obtain ⟨c, stable⟩ :=
    moveSupportClass_stable valid other hname (toOption_eq_some_iff.1 moved)
  exact ⟨valid, other, hname, bs, w, c, toOption_eq_some_iff.1 written,
    toOption_eq_some_iff.1 moved, stable⟩

end ClassWeave
