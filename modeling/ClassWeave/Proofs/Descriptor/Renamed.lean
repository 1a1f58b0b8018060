import ClassWeave.Proofs.Descriptor.Parsed
import ClassWeave.Proofs.Support.Linked

/-!
# Renamed descriptors

A renaming of descriptors looks for `L` and `;` only, and knows nothing of types. On a text that is
read as a type it finds exactly the names in the type.

**Texts and their names** (`Renaming.Renames`). A text has some names and an image under a renaming.
This is closed under putting a character other than `L` in front, or a whole `L…;`, so it follows
the characters of a type.

**Main result** (`descriptor_of_parsed`). A descriptor that is read as a type is renamed exactly
when one of the names in the type is, and then it is the descriptor of the type with the images of
its names. When the images are names, it is read again, as a type with the same dimensions, slots
and categories.
-/

namespace ClassWeave

/-! ## Names in types -/

namespace FieldType

/-- The names in a type. -/
def names : FieldType → List String
  | primitive _ => []
  | reference name => [name]
  | array element => element.names

/-- The type with each name replaced. -/
def mapNames (f : String → String) : FieldType → FieldType
  | primitive p => primitive p
  | reference name => reference (f name)
  | array element => array (element.mapNames f)

/-- Types that differ in their names at most: they take the same slots and have the same dimensions
and the same category. -/
structure Alike (t u : FieldType) : Prop where
  dimensions_eq : t.dimensions = u.dimensions
  slots_eq : t.slots = u.slots
  category_eq : t.category = u.category

theorem alike_mapNames (f : String → String) (t : FieldType) : (t.mapNames f).Alike t := by
  induction t with
  | primitive p => exact ⟨rfl, rfl, rfl⟩
  | reference name => exact ⟨rfl, rfl, rfl⟩
  | array element ih => exact ⟨congrArg (· + 1) ih.dimensions_eq, rfl, rfl⟩

theorem named_iff {t : FieldType} : t.Named ↔ ∀ name ∈ t.names, IsName name := by
  induction t with
  | primitive p => simp [Named, names]
  | reference name => simp [Named, names]
  | array element ih => exact ih

theorem names_mapNames (f : String → String) (t : FieldType) :
    (t.mapNames f).names = t.names.map f := by
  induction t with
  | primitive p => rfl
  | reference name => rfl
  | array element ih => exact ih

theorem Describable.isName {t : FieldType} (h : t.Describable) : ∀ name ∈ t.names, IsName name :=
  named_iff.1 h.named

/-- A type stays describable when its names are replaced by names. -/
theorem Describable.mapNames {t : FieldType} (h : t.Describable) {f : String → String}
    (keeps : ∀ name ∈ t.names, IsName (f name)) : (t.mapNames f).Describable where
  named := by
    rw [named_iff, names_mapNames]
    simpa using keeps
  dimensions_le := by
    rw [(t.alike_mapNames f).dimensions_eq]
    exact h.dimensions_le

end FieldType

namespace MethodType

/-- The names in the parameters and in the result. -/
def names (m : MethodType) : List String :=
  m.params.flatMap FieldType.names ++ (m.result.map FieldType.names).getD []

def mapNames (f : String → String) (m : MethodType) : MethodType :=
  ⟨m.params.map (·.mapNames f), m.result.map (·.mapNames f)⟩

/-- As many parameters, each like the other one, and results that are alike. -/
structure Alike (m n : MethodType) : Prop where
  params : List.Forall₂ FieldType.Alike m.params n.params
  result : Option.Rel FieldType.Alike m.result n.result
  slots_eq : m.paramSlots = n.paramSlots

theorem alike_mapNames (f : String → String) (m : MethodType) : (m.mapNames f).Alike m where
  params := by
    rw [mapNames, List.forall₂_map_left_iff, List.forall₂_same]
    intro t _
    exact t.alike_mapNames f
  result := by
    rw [mapNames]
    cases m.result with
    | none => exact .none
    | some t => exact .some (t.alike_mapNames f)
  slots_eq := by
    rw [paramSlots_eq, paramSlots_eq, mapNames]
    induction m.params with
    | nil => rfl
    | cons t params ih =>
      rw [List.map_cons, totalSlots_cons, totalSlots_cons, ih, (t.alike_mapNames f).slots_eq]

theorem Describable.isName {m : MethodType} (h : m.Describable) :
    ∀ name ∈ m.names, FieldType.IsName name := by
  intro name hname
  rw [names, List.mem_append, List.mem_flatMap] at hname
  rcases hname with ⟨t, ht, inside⟩ | inside
  · exact (h.params t ht).isName name inside
  · cases result : m.result with
    | none => simp [result] at inside
    | some t =>
      rw [result] at inside
      exact (h.result t result).isName name inside

theorem Describable.mapNames {m : MethodType} (h : m.Describable) {f : String → String}
    (keeps : ∀ name ∈ m.names, FieldType.IsName (f name)) : (m.mapNames f).Describable where
  params := by
    intro t ht
    obtain ⟨u, hu, rfl⟩ := List.mem_map.1 ht
    refine (h.params u hu).mapNames fun name hname => keeps name ?_
    exact List.mem_append_left _ (List.mem_flatMap.2 ⟨u, hu, hname⟩)
  result := by
    intro t ht
    obtain ⟨u, hu, rfl⟩ := Option.map_eq_some_iff.1 ht
    refine (h.result u hu).mapNames fun name hname => keeps name ?_
    rw [names, hu]
    exact List.mem_append_right _ hname
  slots_le := by
    rw [(m.alike_mapNames f).slots_eq]
    exact h.slots_le

end MethodType

/-! ## Texts and their names -/

namespace Renaming

variable {r : Renaming} {cs image rest restImage tail : List Char} {named : List Piece}
  {names restNames : List String}

/-- A cut goes on over a character in front that begins no name. -/
theorem Cuts.cons {c : Char} (h : Cuts cs named tail) (other : c ≠ 'L') :
    ∃ named' tail', Cuts (c :: cs) named' tail' ∧ named'.map Piece.name = named.map Piece.name ∧
      ∀ r : Renaming, named'.flatMap (·.rename r) ++ tail' =
        c :: (named.flatMap (·.rename r) ++ tail) := by
  -- The character becomes part of the text in front of the first name.
  cases h with
  | plain none =>
    refine ⟨[], c :: cs, .plain ?_, rfl, fun r => rfl⟩
    simp [none, other.symm]
  | @unfinished lead rest hlead hrest =>
    refine ⟨[], c :: (lead ++ 'L' :: rest), ?_, rfl, fun r => rfl⟩
    exact @Cuts.unfinished (c :: lead) _ (by simp [hlead, other.symm]) hrest
  | @piece lead name rest _ named hlead hname behind =>
    refine ⟨⟨c :: lead ++ ['L'], String.ofList name⟩ :: named, tail, ?_, rfl, fun r => rfl⟩
    exact @Cuts.piece (c :: lead) _ _ _ _ (by simp [hlead, other.symm]) hname behind

/-- The text has the names, in order, and the image under the renaming. -/
def Renames (r : Renaming) (cs : List Char) (names : List String) (image : List Char) : Prop :=
  ∃ named tail, Cuts cs named tail ∧ named.map Piece.name = names ∧
    named.flatMap (·.rename r) ++ tail = image

namespace Renames

theorem nil : Renames r [] [] [] := ⟨[], [], .plain (by simp), rfl, rfl⟩

theorem cons {c : Char} (h : Renames r cs names image) (other : c ≠ 'L') :
    Renames r (c :: cs) names (c :: image) := by
  obtain ⟨named, tail, cuts, rfl, rfl⟩ := h
  obtain ⟨named', tail', cuts', hnames, himage⟩ := cuts.cons other
  exact ⟨named', tail', cuts', hnames, himage r⟩

/-- A whole name in front is renamed. -/
theorem name {name : String} (h : Renames r cs names image) (clean : ';' ∉ name.toList) :
    Renames r ('L' :: (name.toList ++ ';' :: cs)) (name :: names)
      ('L' :: ((r.apply name).toList ++ ';' :: image)) := by
  obtain ⟨named, tail, cuts, rfl, rfl⟩ := h
  refine ⟨_, tail, @Cuts.piece [] _ _ _ _ (by simp) clean cuts, ?_, ?_⟩
  · simp
  · simp [Piece.rename]

/-- **The answer of the renaming** on a text with these names and this image. -/
theorem descriptor_eq {s : String} (h : Renames r s.toList names image) : r.descriptor s =
    if names.any fun name => (r name).isSome then some (String.ofList image) else none := by
  obtain ⟨named, tail, cuts, rfl, rfl⟩ := h
  rw [Renaming.descriptor_eq, cuts.cut_eq, List.any_map]
  rfl

/-- A type in front is renamed, name by name. -/
theorem fieldType {t : FieldType} (named : t.Named) (h : Renames r rest restNames restImage) :
    Renames r (t.chars ++ rest) (t.names ++ restNames)
      ((t.mapNames r.apply).chars ++ restImage) := by
  -- Only a reference has an `L`; any other character belongs to what is in front of a name.
  induction t with
  | primitive p => exact h.cons (by cases p <;> decide)
  | reference name =>
    simpa [FieldType.chars, FieldType.names, FieldType.mapNames] using h.name named.2
  | array element ih => exact (ih named).cons (by decide)

theorem params {types : List FieldType} (named : ∀ t ∈ types, t.Named)
    (h : Renames r rest restNames restImage) :
    Renames r (types.flatMap FieldType.chars ++ rest) (types.flatMap FieldType.names ++ restNames)
      ((types.map (·.mapNames r.apply)).flatMap FieldType.chars ++ restImage) := by
  induction types with
  | nil => exact h
  | cons t types ih =>
    obtain ⟨first, others⟩ := List.forall_mem_cons.1 named
    simpa using fieldType first (ih others)

theorem result {type : Option FieldType} (named : ∀ t ∈ type, t.Named) :
    Renames r (resultChars type) ((type.map FieldType.names).getD [])
      (resultChars (type.map (·.mapNames r.apply))) := by
  cases type with
  | none => exact nil.cons (by decide)
  | some t => simpa [resultChars] using fieldType (r := r) (named t rfl) nil

theorem methodType {m : MethodType} (h : m.Describable) :
    Renames r m.chars m.names (m.mapNames r.apply).chars := by
  have behind := result (r := r) fun t ht => (h.result t ht).named
  have inside := params (fun t ht => (h.params t ht).named) (behind.cons (c := ')') (by decide))
  exact inside.cons (by decide)

end Renames

/-- The text is renamed when one of the names is, and then it becomes the image. -/
structure ActsOn (r : Renaming) (s : String) (names : List String) (image : String) : Prop where
  isSome_iff : (r.descriptor s).isSome ↔ ∃ name ∈ names, (r name).isSome
  text_eq : ∀ new, r.descriptor s = some new → new = image

theorem Renames.actsOn {s image : String} (h : Renames r s.toList names image.toList) :
    r.ActsOn s names image := by
  have answer := h.descriptor_eq
  rw [String.ofList_toList] at answer
  by_cases changed : names.any fun name => (r name).isSome
  · rw [if_pos changed] at answer
    refine ⟨by simpa [answer] using changed, fun new hnew => ?_⟩
    rw [answer] at hnew
    exact (Option.some.inj hnew).symm
  · rw [if_neg changed] at answer
    exact ⟨by simpa [answer] using changed, fun new hnew => by simp [answer] at hnew⟩

/-- The images of some names are names, if the new ones are. -/
theorem isName_apply {r : Renaming} {names : List String}
    (named : ∀ name ∈ names, FieldType.IsName name)
    (clean : ∀ name ∈ names, ∀ new, r name = some new → FieldType.IsName new) :
    ∀ name ∈ names, FieldType.IsName (r.apply name) := by
  intro name hname
  unfold apply
  cases moved : r name with
  | none => exact named name hname
  | some new => exact clean name hname new moved

end Renaming

/-- A moved name of a class is one again, if the target is a package name. -/
theorem FieldType.IsName.move {source target name new : String} (h : IsName name)
    (valid : Identifier.isValid target) (moved : Renaming.move source target name = some new) :
    IsName new := by
  have clean : ';' ∉ target.toList := Identifier.reserved_notMem valid (by decide)
  constructor
  · rcases Renaming.move_eq_some_iff.1 moved with ⟨_, rfl⟩ | ⟨inner, _, rfl⟩
    · rintro rfl
      exact absurd valid (by decide)
    · intro empty
      have none := congrArg String.toList empty
      simp [Renaming.below] at none
  · intro inside
    exact (Renaming.mem_of_move moved inside).elim clean h.2

/-- **Descriptors are renamed name by name.** A descriptor that is read as a type is renamed exactly
when a name in the type is, and then it is the descriptor of the type with the images of its names.
If the new names can stand in descriptors, as those in a package named by an identifier can, what it
becomes is read as that type, which is like the old one. -/
theorem descriptor_of_parsed (r : Renaming) :
    (∀ s t, FieldType.parse s = .ok t →
      r.ActsOn s t.names (t.mapNames r.apply).text ∧
      ((∀ name ∈ t.names, ∀ new, r name = some new → FieldType.IsName new) →
        ∀ new, r.descriptor s = some new →
          FieldType.parse new = .ok (t.mapNames r.apply) ∧ (t.mapNames r.apply).Alike t)) ∧
    (∀ s m, MethodType.parse s = .ok m →
      r.ActsOn s m.names (m.mapNames r.apply).text ∧
      ((∀ name ∈ m.names, ∀ new, r name = some new → FieldType.IsName new) →
        ∀ new, r.descriptor s = some new →
          MethodType.parse new = .ok (m.mapNames r.apply) ∧ (m.mapNames r.apply).Alike m)) ∧
    ∀ source target i, Identifier.ofString target = .ok i →
      ∀ name new, FieldType.IsName name → Renaming.move source i.text name = some new →
        FieldType.IsName new := by
  refine ⟨?_, ?_, ?_⟩
  · intro s t h
    obtain ⟨described, rfl⟩ := FieldType.parse_eq_ok_iff.1 h
    have acts : r.ActsOn t.text t.names (t.mapNames r.apply).text := by
      refine Renaming.Renames.actsOn ?_
      simpa [FieldType.text] using
        Renaming.Renames.fieldType (r := r) described.named Renaming.Renames.nil
    refine ⟨acts, fun clean new hnew => ?_⟩
    obtain rfl := acts.text_eq new hnew
    refine ⟨FieldType.parse_eq_ok_iff.2 ⟨described.mapNames ?_, rfl⟩, t.alike_mapNames r.apply⟩
    exact Renaming.isName_apply described.isName clean
  · intro s m h
    obtain ⟨described, rfl⟩ := MethodType.parse_eq_ok_iff.1 h
    have acts : r.ActsOn m.text m.names (m.mapNames r.apply).text := by
      refine Renaming.Renames.actsOn ?_
      rw [MethodType.text, String.toList_ofList, MethodType.text, String.toList_ofList]
      exact Renaming.Renames.methodType described
    refine ⟨acts, fun clean new hnew => ?_⟩
    obtain rfl := acts.text_eq new hnew
    refine ⟨MethodType.parse_eq_ok_iff.2 ⟨described.mapNames ?_, rfl⟩, m.alike_mapNames r.apply⟩
    exact Renaming.isName_apply described.isName clean
  · intro source target i hi name new hname moved
    unfold Identifier.ofString at hi
    split at hi
    · next valid =>
      cases hi
      exact hname.move valid moved
    · cases hi

/-- Class names move from the package `a` to the package of a build. -/
theorem descriptor_of_parsed_move :
    FieldType.parse "[La/X;" = .ok (.array (.reference "a/X")) ∧
    MethodType.parse "(La/X;J)V" = .ok ⟨[.reference "a/X", .primitive .long], none⟩ ∧
    Identifier.ofString "b/c" = .ok ⟨"b/c"⟩ ∧
    Renaming.descriptor (.move "a" "b/c") "[La/X;" = some "[Lb/c/X;" ∧
    FieldType.parse "[Lb/c/X;" = .ok (.array (.reference "b/c/X")) ∧
    Renaming.descriptor (.move "a" "b/c") "(La/X;J)V" = some "(Lb/c/X;J)V" ∧
    MethodType.parse "(Lb/c/X;J)V" = .ok ⟨[.reference "b/c/X", .primitive .long], none⟩ := by
  have field : FieldType.parse "[La/X;" = .ok (.array (.reference "a/X")) := by decide +kernel
  have method :
      MethodType.parse "(La/X;J)V" = .ok ⟨[.reference "a/X", .primitive .long], none⟩ := by
    decide +kernel
  have identifier : Identifier.ofString "b/c" = .ok ⟨"b/c"⟩ := by decide +kernel
  have fieldImage : Renaming.descriptor (.move "a" "b/c") "[La/X;" = some "[Lb/c/X;" := by
    decide +kernel
  have methodImage : Renaming.descriptor (.move "a" "b/c") "(La/X;J)V" = some "(Lb/c/X;J)V" := by
    decide +kernel
  obtain ⟨fields, methods, moves⟩ := descriptor_of_parsed (.move "a" "b/c")
  have named (name : String) (hname : name ∈ ["a/X"]) : FieldType.IsName name := by
    obtain rfl := List.mem_singleton.1 hname
    exact ⟨by decide, by decide⟩
  have clean (name : String) (hname : name ∈ ["a/X"]) (new : String)
      (moved : Renaming.move "a" "b/c" name = some new) : FieldType.IsName new :=
    moves "a" "b/c" _ identifier name new (named name hname) moved
  obtain ⟨_, fieldBack⟩ := fields _ _ field
  obtain ⟨_, methodBack⟩ := methods _ _ method
  refine ⟨field, method, identifier, fieldImage, ?_, methodImage, ?_⟩
  · refine (fieldBack clean _ fieldImage).1.trans ?_
    decide +kernel
  · refine (methodBack clean _ methodImage).1.trans ?_
    decide +kernel

end ClassWeave
