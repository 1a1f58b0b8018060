import ClassWeave.Proofs.Relocation.Names
import ClassWeave.Proofs.Support.Placed

/-!
# Linked support classes

Support classes name each other. Their copies are placed by the paths of their files, and what they
name is moved by the package it is in, and the two have to agree.

**Links** (`ClassFile.LinkedBy`). Wherever a class names another one, its copy names the image of
that one. Only the name of the class itself is set by its file.

**Main result** (`injectArchive_linked`). Below the placeholder package the image of a name is the
identifier with the inner name behind it. That is where the class is placed when it is in the
package itself; a class of a package below, or one with a backslash in its name, is placed elsewhere
(`injectArchive_unlinked`).
-/

namespace ClassWeave

open Renaming (cut below)

/-! ## Identifiers -/

/-- The text of an identifier holds nothing that ends the name of a class. -/
theorem Identifier.reserved_notMem {text : String} (valid : isValid text) {c : Char}
    (hc : c ∈ reserved) : c ∉ text.toList := by
  intro there
  have other : c ≠ '/' := by
    rintro rfl
    exact absurd hc (by decide)
  obtain ⟨part, hpart, inside⟩ := exists_segment_of_mem there other
  have clean := List.all_eq_true.1 valid part hpart
  simp only [Bool.and_eq_true, Bool.not_eq_true', List.any_eq_false] at clean
  exact clean.2 c inside (List.contains_iff_mem.2 hc)

/-! ## Links -/

/-- The second text names the images of what the first one names. -/
def TypeUse.Links (r : Renaming) : TypeUse → String → String → Prop
  | .descriptor, text, text' =>
    cut text' = ((cut text).1.map (·.map r.apply), (cut text).2)
  | .signature, text, text' => ∃ new, r.signature text = .ok new ∧ text' = new.getD text

/-- The second class entry names the images of what the first one names. -/
def Renaming.LinksName (r : Renaming) (name name' : String) : Prop :=
  match name.toList with
  | '[' :: _ => TypeUse.descriptor.Links r name name'
  | _ => name' = r.apply name

/-- A text of the first pool at the first index is linked to one of the second pool at the second
index. -/
def ConstantPool.Links (p q : ConstantPool) (linked : String → String → Prop) (i j : UInt16) :
    Prop :=
  ∀ text, p.utf8 i = .ok text → ∃ text', q.utf8 j = .ok text' ∧ linked text text'

/-- At every place where the first class names types, its own name aside, the second one names their
images. -/
structure ClassFile.LinkedBy (r : Renaming) (c d : ClassFile) : Prop where
  thisClass_eq : d.thisClass = c.thisClass
  classes (k : UInt16) (name : String) : k ≠ c.thisClass → c.pool.className k = .ok name →
    ∃ name', d.pool.className k = .ok name' ∧ r.LinksName name name'
  entries (k : Nat) (e : Constant) : k + 1 ≠ c.thisClass.toNat → c.pool.slots[k]? = some e →
    ∃ e', d.pool.slots[k]? = some e' ∧ e.Retyped (c.pool.Links d.pool r.LinksName)
      (c.pool.Links d.pool (TypeUse.descriptor.Links r)) e'
  fields : List.Forall₂ (Member.Retyped fun use => c.pool.Links d.pool (use.Links r))
    c.fields d.fields
  methods : List.Forall₂ (Member.Retyped fun use => c.pool.Links d.pool (use.Links r))
    c.methods.toList d.methods.toList
  attributes : Attribute.RetypedList (fun use => c.pool.Links d.pool (use.Links r))
    c.attributes d.attributes

section

variable {r : Renaming} {p q : ConstantPool} {i j : UInt16}

theorem TypeUse.links_of_image (clean : r.IsClean) (use : TypeUse) {text : String}
    {new : Option String} (h : r.image use text new) : use.Links r text (new.getD text) := by
  cases use with
  | descriptor =>
    obtain rfl : r.descriptor text = new := h
    exact Renaming.cut_descriptor clean text
  | signature => exact ⟨new, h, rfl⟩

theorem Renaming.linksName_of_image (clean : r.IsClean) {name : String} {new : Option String}
    (h : r.nameImage name new) : r.LinksName name (new.getD name) := by
  obtain rfl : r.typeName name = new := h
  unfold LinksName
  split
  · next rest array =>
    have eq : r.typeName name = r.descriptor name := by simp only [typeName, array]
    rw [eq]
    exact cut_descriptor clean name
  · next other =>
    have eq : r.typeName name = r name := by
      unfold typeName
      split
      · next rest array => exact absurd array (other rest)
      · rfl
    rw [eq]
    rfl

/-- A place that is moved links its texts. -/
theorem ConstantPool.Moves.links {image : String → Option String → Prop}
    {linked : String → String → Prop} (h : p.Moves q image i j)
    (keeps : ∀ i text, p.utf8 i = .ok text → q.utf8 i = .ok text)
    (links : ∀ text new, image text new → linked text (new.getD text)) : p.Links q linked i j := by
  intro text ht
  obtain ⟨text', held, _, moved⟩ := h
  obtain rfl : text = text' := Except.ok.inj ((keeps i text ht).symm.trans held)
  rcases moved with ⟨stays, rfl⟩ | ⟨new, him, hj⟩
  · exact ⟨text, held, links text none stays⟩
  · exact ⟨new, hj, links text (some new) him⟩

/-- A copy is linked. -/
theorem ClassFile.CopiedAs.linked {c d : ClassFile} {name : String} (clean : r.IsClean)
    (h : c.CopiedAs r name d) : c.LinkedBy r d := by
  have place (use : TypeUse) (i j : UInt16) (moved : c.pool.Moves d.pool (r.image use) i j) :
      c.pool.Links d.pool (use.Links r) i j :=
    moved.links h.utf8 fun _ _ => use.links_of_image clean
  have entry (i j : UInt16) (moved : c.pool.Moves d.pool r.nameImage i j) :
      c.pool.Links d.pool r.LinksName i j :=
    moved.links h.utf8 fun _ _ => Renaming.linksName_of_image clean
  have members {ms ns : List Member} (related : List.Forall₂
      (Member.Retyped fun use => c.pool.Moves d.pool (r.image use)) ms ns) :
      List.Forall₂ (Member.Retyped fun use => c.pool.Links d.pool (use.Links r)) ms ns :=
    related.imp fun _ _ => Member.Retyped.mono place
  refine ⟨by rw [h.rest], fun k named other hk => ?_, fun k e other he => ?_, members h.fields,
    members h.methods, Attribute.RetypedList.mono place _ _ h.attributes⟩
  · -- The entry of the class is an entry of the copy at the same place, with a moved name.
    obtain ⟨n, hget, text⟩ := ConstantPool.className_eq_ok_iff.1 hk
    obtain ⟨nonzero, slot, _⟩ := ConstantPool.get_eq_ok_iff.1 hget
    rw [Array.getElem?_toList] at slot
    have pos : 0 < k.toNat := Nat.pos_of_ne_zero fun zero => nonzero (UInt16.toNat_inj.1 zero)
    have elsewhere : k.toNat - 1 + 1 ≠ c.thisClass.toNat := by
      rw [Nat.sub_add_cancel pos]
      exact mt UInt16.toNat_inj.1 other
    obtain ⟨_, slot', n', rfl, moved⟩ := h.entries _ _ elsewhere slot
    obtain ⟨named', text', links⟩ := entry n n' moved named text
    refine ⟨named', ConstantPool.className_eq_ok_iff.2 ⟨n', ?_, text'⟩, links⟩
    refine ConstantPool.get_eq_ok_iff.2 ⟨nonzero, ?_, nofun⟩
    rw [Array.getElem?_toList, slot']
  · obtain ⟨e', he', retyped⟩ := h.entries k e other he
    exact ⟨e', he', retyped.mono entry (place .descriptor)⟩

end

/-! ## Archives -/

theorem entryName_append (s t : String) : entryName (s ++ t) = entryName s ++ entryName t := by
  refine String.toList_injective ?_
  simp [entryName, String.toList_map]

/-- A path without backslashes is taken as it is. -/
theorem entryName_of_notMem {path : String} (h : '\\' ∉ path.toList) : entryName path = path := by
  refine String.toList_injective ?_
  have same (c : Char) (hc : c ∈ path.toList) : (if c = '\\' then '/' else c) = c :=
    if_neg fun (eq : c = '\\') => h (eq ▸ hc)
  rw [entryName, String.toList_map, List.map_congr_left same, List.map_id']

theorem entryName_classSuffix : entryName classSuffix = classSuffix :=
  entryName_of_notMem (by decide)

/-- The simple name in the path of a class file; a backslash ends a package there as well. -/
def pathName (name : String) : String := simpleName (entryName name)

theorem pathName_below (package inner : String) :
    pathName (below package inner) = pathName inner := by
  have slash : entryName "/" = "/" := entryName_of_notMem (by decide)
  rw [pathName, below, entryName_append, entryName_append, slash, simpleName_slash, pathName]

/-- A name without slashes and backslashes is the simple name in its path. -/
theorem pathName_of_notMem {name : String} (slash : '/' ∉ name.toList)
    (backslash : '\\' ∉ name.toList) : pathName name = name := by
  rw [pathName, entryName_of_notMem backslash, simpleName_of_notMem slash]

/-- The entry is the file of a class. -/
structure ArchiveEntry.Holds (e : ArchiveEntry) (name : String) (c : ClassFile) : Prop where
  name_eq : e.name = entryName (name ++ classSuffix)
  read_eq : ∃ data, e.data = some data ∧ ClassFile.read data = .ok c
  className_eq : c.name = .ok name

/-- The copy of a class from below the placeholder package, and what the copies of other classes
name in place of the class. -/
structure InjectedAs (i : Identifier) (inner : String) (c d : ClassFile) (copy : String × Bytes) :
    Prop where
  name_eq : copy.1 = below i.text (pathName inner)
  read_eq : ClassFile.read copy.2 = .ok d
  own : d.name = .ok copy.1
  linked : c.LinkedBy (.move placeholderPackage i.text) d
  image_eq : Renaming.apply (.move placeholderPackage i.text) (below placeholderPackage inner) =
    below i.text inner
  image_eq_name : '/' ∉ inner.toList → '\\' ∉ inner.toList →
    Renaming.apply (.move placeholderPackage i.text) (below placeholderPackage inner) = copy.1

section

variable {i : Identifier} {e : ArchiveEntry} {copy : String × Bytes} {inner : String}
  {c : ClassFile}

theorem ArchiveEntry.Holds.supportName?_eq (holds : e.Holds (below placeholderPackage inner) c) :
    supportName? e.name i =
      if pathName inner = "" then none else some (below i.text (pathName inner)) := by
  have same : simpleName (entryName (below placeholderPackage inner)) = pathName inner :=
    pathName_below placeholderPackage inner
  rw [holds.name_eq, entryName_append, entryName_classSuffix, supportName?_append, same]
  rfl

/-- The file of a class is placed as its copy. -/
theorem ArchiveEntry.PlacedAs.injectedAs (valid : Identifier.isValid i.text)
    (holds : e.Holds (below placeholderPackage inner) c) (h : e.PlacedAs i copy) :
    ∃ d, InjectedAs i inner c d copy := by
  obtain ⟨data, hdata, hread⟩ := holds.read_eq
  obtain ⟨d, readBack, copied⟩ := h.copied hdata hread
  have name_eq : copy.1 = below i.text (pathName inner) := by
    have given := h.name_eq
    rw [holds.supportName?_eq] at given
    split_ifs at given
    exact (Option.some.inj given).symm
  have image_eq : Renaming.apply (.move placeholderPackage i.text)
      (below placeholderPackage inner) = below i.text inner := by
    rw [Renaming.apply, Renaming.move_below, Option.getD_some]
  have clean := Renaming.move_isClean placeholderPackage
    (Identifier.reserved_notMem valid (by decide))
  refine ⟨d, name_eq, readBack, copied.name_eq, copied.linked clean, image_eq, ?_⟩
  intro slash backslash
  rw [image_eq, name_eq, pathName_of_notMem slash backslash]

end

/-- Each class file of the archive is that of a class below the placeholder package, by its path. -/
def Archive.IsSupport (a : Archive) : Prop :=
  ∀ e ∈ a.entries, e.isClass → ∃ inner c, e.Holds (below placeholderPackage inner) c

/-- There is something between the last slash of the path and the end that class files have. -/
def ArchiveEntry.isNamed (e : ArchiveEntry) : Bool :=
  (dropSuffix? classSuffix e.name).any fun stem => simpleName stem != ""

theorem ArchiveEntry.isSome_supportName? (e : ArchiveEntry) (i : Identifier) :
    (supportName? e.name i).isSome = e.isNamed := by
  rw [supportName?_eq, isNamed]
  cases dropSuffix? classSuffix e.name with
  | none => rfl
  | some stem => by_cases named : simpleName stem = "" <;> simp [named]

/-- **Injection links support classes.** Each class file below the placeholder package has a copy in
the output, whose own name is the one that it is placed under. Wherever else a class named an
archived one, its copy names the identifier with the inner name of that one; and for a class in the
package itself this is the name that its copy is placed under. -/
theorem injectArchive_linked {σ : Type} {out : Output (StateM σ)} {i : Identifier} {a : Archive}
    {names : List String} {s t : σ} (valid : Identifier.isValid i.text) (support : a.IsSupport)
    (h : (injectArchive out i a).run s = (.ok names, t)) :
    ∃ copies, names = copies.map (·.1) ∧ out.Stores copies s t ∧
      List.Forall₂ (fun e copy => ∃ inner c d, e.Holds (below placeholderPackage inner) c ∧
        InjectedAs i inner c d copy)
        ((a.entries.filter ArchiveEntry.isClass).filter ArchiveEntry.isNamed) copies := by
  obtain ⟨copies, hnames, stores, placed⟩ := injectArchive_ok h
  simp only [ArchiveEntry.isSome_supportName?] at placed
  refine ⟨copies, hnames, stores, List.forall₂_iff_zip.2 ⟨placed.length_eq, fun both => ?_⟩⟩
  obtain ⟨there, isClass⟩ := List.mem_filter.1 (List.mem_filter.1 (List.of_mem_zip both).1).1
  obtain ⟨inner, c, holds⟩ := support _ there isClass
  obtain ⟨d, injected⟩ := ((List.forall₂_iff_zip.1 placed).2 both).injectedAs valid holds
  exact ⟨inner, c, d, holds, injected⟩

/-- A class below the placeholder package that names another one. -/
def namingClass (inner other : String) : ClassFile := { ClassFile.empty with
  pool := ⟨#[.utf8 (below placeholderPackage inner), .classRef 1,
    .utf8 (below placeholderPackage other), .classRef 3]⟩
  thisClass := 2 }

/-- The file of a class below the placeholder package that names another one. -/
def namingEntry (inner other : String) : ArchiveEntry :=
  ⟨below placeholderPackage inner ++ classSuffix, true, (namingClass inner other).write.toOption⟩

theorem namingEntry_holds {inner other : String} {data : Bytes}
    (written : (namingClass inner other).write = .ok data) :
    (namingEntry inner other).Holds (below placeholderPackage inner) (namingClass inner other) := by
  refine ⟨rfl, ⟨data, by rw [namingEntry, written]; rfl, ClassFile.read_of_write written ?_⟩, rfl⟩
  have laidOut : (namingClass inner other).pool.LaidOut := by
    refine (ConstantPool.laidOut_iff _).2 ⟨(by decide : 4 ≤ ConstantPool.maxIndex), ?_⟩
    exact .narrow nofun rfl (.narrow nofun rfl (.narrow nofun rfl (.narrow nofun rfl .nil)))
  refine ⟨rfl, laidOut, ?_, nofun, nofun, nofun⟩
  simp [namingClass, ConstantPool.IsRegular, Constant.IsRegular]

theorem namingEntry_isClass (inner other : String) : (namingEntry inner other).isClass := by
  simp [ArchiveEntry.isClass, isClassPath, namingEntry, entryName_append, entryName_classSuffix,
    dropSuffix?_append]

/-- The copy of a class that names another one. -/
theorem InjectedAs.className_eq {i : Identifier} {inner other : String} {d : ClassFile}
    {copy : String × Bytes} (h : InjectedAs i inner (namingClass inner other) d copy) :
    d.pool.className 4 = .ok (below i.text other) := by
  have other_index : (4 : UInt16) ≠ 2 := by decide
  obtain ⟨name, named, links⟩ := h.linked.classes 4 (below placeholderPackage other) other_index rfl
  have plain : (below placeholderPackage other).toList =
      'm' :: (placeholderPackage.toList.tail ++ '/' :: other.toList) := by
    simp only [below, String.toList_append, List.append_assoc]
    rfl
  simp only [Renaming.LinksName, plain] at links
  rw [named, links, Renaming.apply, Renaming.move_below, Option.getD_some]

/-- Three classes that name each other in a ring. The first one is in the placeholder package
itself, the second one in a package below, and the third one has a backslash in its name. -/
def ring : Archive :=
  ⟨[namingEntry "A" "a/B", namingEntry "a/B" "c\\C", namingEntry "c\\C" "A"], true⟩

theorem ring_holds :
    (namingEntry "A" "a/B").Holds (below placeholderPackage "A") (namingClass "A" "a/B") ∧
    (namingEntry "a/B" "c\\C").Holds (below placeholderPackage "a/B") (namingClass "a/B" "c\\C") ∧
    (namingEntry "c\\C" "A").Holds (below placeholderPackage "c\\C") (namingClass "c\\C" "A") :=
  have ⟨_, first⟩ : ∃ data, (namingClass "A" "a/B").write = .ok data := ⟨_, rfl⟩
  have ⟨_, second⟩ : ∃ data, (namingClass "a/B" "c\\C").write = .ok data := ⟨_, rfl⟩
  have ⟨_, third⟩ : ∃ data, (namingClass "c\\C" "A").write = .ok data := ⟨_, rfl⟩
  ⟨namingEntry_holds first, namingEntry_holds second, namingEntry_holds third⟩

theorem ring_isSupport : ring.IsSupport := by
  obtain ⟨first, second, third⟩ := ring_holds
  simp only [Archive.IsSupport, ring, List.forall_mem_cons]
  exact ⟨fun _ => ⟨"A", _, first⟩, fun _ => ⟨"a/B", _, second⟩, fun _ => ⟨"c\\C", _, third⟩, nofun⟩

theorem ring_injected : ∃ o, (injectArchive MemoryOutput.output ⟨"b"⟩ ring).run .empty =
    (.ok ["b/A", "b/B", "b/C"], o) :=
  exists_of_toOption_eq (by decide +kernel)

/-- The ring is injected. -/
theorem injectArchive_linked_ring : Identifier.isValid "b" ∧ ring.IsSupport ∧ ∃ o copies,
    (injectArchive MemoryOutput.output ⟨"b"⟩ ring).run .empty = (.ok ["b/A", "b/B", "b/C"], o) ∧
    ["b/A", "b/B", "b/C"] = copies.map (·.1) ∧ MemoryOutput.output.Stores copies .empty o ∧
    List.Forall₂ (fun e copy => ∃ inner c d, e.Holds (below placeholderPackage inner) c ∧
      InjectedAs ⟨"b"⟩ inner c d copy)
      ((ring.entries.filter ArchiveEntry.isClass).filter ArchiveEntry.isNamed) copies := by
  have valid : Identifier.isValid "b" := by decide +kernel
  obtain ⟨o, run⟩ := ring_injected
  obtain ⟨copies, linked⟩ := injectArchive_linked valid ring_isSupport run
  exact ⟨valid, ring_isSupport, o, copies, run, linked⟩

/-- In the ring the class `A` names `a/B`, which is placed as `b/B`; but the copy of `A` names
`b/a/B`. The class `a/B` names one with a backslash, which is placed under the part of the name
behind it; but the copy of `a/B` names all of it. -/
theorem injectArchive_unlinked :
    (∀ e ∈ ring.entries, ∃ inner c, e.path = below placeholderPackage inner ++ classSuffix ∧
      e.Holds (below placeholderPackage inner) c) ∧
    (namingClass "A" "a/B").pool.className 4 = .ok (below placeholderPackage "a/B") ∧
    (namingClass "a/B" "c\\C").pool.className 4 = .ok (below placeholderPackage "c\\C") ∧
    ∃ o bytes bytes' d d', (injectArchive MemoryOutput.output ⟨"b"⟩ ring).run .empty =
        (.ok ["b/A", "b/B", "b/C"], o) ∧
      o.get? "b/A" = some bytes ∧ ClassFile.read bytes = .ok d ∧
      d.pool.className 4 = .ok "b/a/B" ∧
      o.get? "b/B" = some bytes' ∧ ClassFile.read bytes' = .ok d' ∧
      d'.pool.className 4 = .ok "b/c\\C" := by
  obtain ⟨first, second, third⟩ := ring_holds
  obtain ⟨o, run⟩ := ring_injected
  obtain ⟨copies, names, stores, placed⟩ := injectArchive_ok run
  -- All three files are placed, so the copies are those of the ring in its order.
  have given : ∀ e ∈ ring.entries, (supportName? e.name ⟨"b"⟩).isSome := by
    have parts : pathName "A" ≠ "" ∧ pathName "a/B" ≠ "" ∧ pathName "c\\C" ≠ "" := by decide +kernel
    simp only [ring, List.forall_mem_cons, first.supportName?_eq, second.supportName?_eq,
      third.supportName?_eq]
    simp [parts]
  have all : ring.entries.filter ArchiveEntry.isClass = ring.entries :=
    List.filter_eq_self.2 (by simp [ring, namingEntry_isClass])
  rw [all, List.filter_eq_self.2 given] at placed
  obtain ⟨⟨_, bytes⟩, _, placed₁, ⟨⟩ | @⟨_, ⟨_, bytes'⟩, _, _, placed₂, _⟩, rfl⟩ :=
    List.forall₂_cons_left_iff.1 placed
  simp only [List.map_cons, List.cons.injEq] at names
  obtain ⟨rfl, rfl, _⟩ := names
  have valid : Identifier.isValid "b" := by decide +kernel
  obtain ⟨d, copy⟩ := placed₁.injectedAs valid first
  obtain ⟨d', copy'⟩ := placed₂.injectedAs valid second
  obtain ⟨held, _⟩ := MemoryOutput.get?_of_stores stores
  simp only [List.forall_mem_cons] at held
  obtain ⟨held, held', _⟩ := held
  refine ⟨?_, rfl, rfl, o, bytes, bytes', d, d', run, held, copy.read_eq, copy.className_eq, held',
    copy'.read_eq, copy'.className_eq⟩
  simp only [ring, List.forall_mem_cons]
  exact ⟨⟨_, _, rfl, first⟩, ⟨_, _, rfl, second⟩, ⟨_, _, rfl, third⟩, nofun⟩

end ClassWeave
