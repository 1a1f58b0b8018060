import ClassWeave.Proofs.Descriptor.Renamed
import ClassWeave.Proofs.Signature.Images
import ClassWeave.Proofs.Signature.Parsed

/-!
# Descriptors as signatures

A descriptor is also a signature, of types without type parameters and arguments. The names in it
must not hold a dot or an opening bracket, which end a name in a signature but not in a descriptor.

**Translation** (`FieldType.asSignature`). A type and its translation are written alike and have the
same names, also when the names are replaced.

**Main result** (`signature_eq_descriptor`). Where a text is both, renaming it as a signature and
renaming it as a descriptor is the same.
-/

namespace ClassWeave

open Signature (IsName classStops)

namespace FieldType

/-- The type as a type of signatures. -/
def asSignature : FieldType → TypeSignature
  | primitive p => .primitive p
  | reference name => .reference (.classType name [] [])
  | array element => .reference (.array element.asSignature)

theorem chars_asSignature (t : FieldType) (after : List Char) :
    t.asSignature.chars after = t.chars ++ after := by
  induction t with
  | primitive p => rfl
  | reference name =>
    show 'L' :: name.toList ++ ';' :: after = 'L' :: name.toList ++ [';'] ++ after
    rw [List.append_assoc, List.singleton_append]
  | array element ih => exact congrArg ('[' :: ·) ih

theorem outerNames_asSignature (t : FieldType) (after : List String) :
    t.asSignature.outerNames after = t.names ++ after := by
  induction t with
  | primitive p => rfl
  | reference name => rfl
  | array element ih => exact ih

theorem mapOuter_asSignature (f : String → String) (t : FieldType) :
    t.asSignature.mapOuter f = (t.mapNames f).asSignature := by
  induction t with
  | primitive p => rfl
  | reference name => rfl
  | array element ih => exact congrArg (fun e => TypeSignature.reference (.array e)) ih

/-- The name does not end early in a signature. -/
def Plain (name : String) : Prop := '.' ∉ name.toList ∧ '<' ∉ name.toList

instance (name : String) : Decidable (Plain name) := inferInstanceAs (Decidable (_ ∧ _))

theorem IsName.isName {name : String} (h : IsName name) (plain : Plain name) :
    Signature.IsName classStops name := by
  refine ⟨h.1, ?_⟩
  intro c hc stops
  simp only [classStops, List.mem_cons, List.not_mem_nil, or_false] at stops
  rcases stops with rfl | rfl | rfl
  · exact plain.2 hc
  · exact plain.1 hc
  · exact h.2 hc

theorem Named.asSignature {t : FieldType} (named : t.Named) (plain : ∀ name ∈ t.names, Plain name) :
    t.asSignature.Named := by
  induction t with
  | primitive p => trivial
  | reference name =>
    have isName := IsName.isName named (plain name List.mem_cons_self)
    exact ⟨isName, trivial, trivial⟩
  | array element ih => exact ih named plain

/-! ## Many types -/

theorem foldr_chars_asSignature (types : List FieldType) (after : List Char) :
    (types.map asSignature).foldr TypeSignature.chars after = types.flatMap chars ++ after := by
  induction types with
  | nil => rfl
  | cons t types ih =>
    rw [List.map_cons, List.foldr_cons, ih, chars_asSignature, List.flatMap_cons, List.append_assoc]

theorem foldr_outerNames_asSignature (types : List FieldType) (after : List String) :
    (types.map asSignature).foldr TypeSignature.outerNames after =
      types.flatMap names ++ after := by
  induction types with
  | nil => rfl
  | cons t types ih =>
    rw [List.map_cons, List.foldr_cons, ih, outerNames_asSignature, List.flatMap_cons,
      List.append_assoc]

/-- A type that is no primitive one is a whole signature. -/
theorem exists_signature {t : FieldType} (named : t.Named) (plain : ∀ name ∈ t.names, Plain name)
    (other : ∀ p, t ≠ primitive p) : ∃ s : Signature, s.Named ∧ s.text = t.text ∧
      s.outerNames = t.names ∧ ∀ f, (s.mapOuter f).text = (t.mapNames f).text := by
  have reference : ∃ u : ReferenceSignature, t.asSignature = .reference u := by
    cases t with
    | primitive p => exact absurd rfl (other p)
    | reference name => exact ⟨_, rfl⟩
    | array element => exact ⟨_, rfl⟩
  -- A signature of a field is that of a reference, without parameters of its own.
  obtain ⟨u, hu⟩ := reference
  have isNamed := named.asSignature plain
  have written := t.chars_asSignature []
  have listed := t.outerNames_asSignature []
  have images : ∀ f, (t.asSignature.mapOuter f).chars [] = (t.mapNames f).chars := by
    intro f
    rw [mapOuter_asSignature, chars_asSignature, List.append_nil]
  rw [List.append_nil] at written listed
  rw [hu] at isNamed written listed images
  refine ⟨⟨[], .types u []⟩, ⟨by simp, .nil, isNamed, by simp⟩, ?_, listed, ?_⟩
  · exact congrArg String.ofList written
  · intro f
    exact congrArg String.ofList (images f)

end FieldType

/-! ## Methods -/

namespace MethodType

/-- The method type as a signature. -/
def asSignature (m : MethodType) : Signature :=
  ⟨[], .method (m.params.map FieldType.asSignature) (m.result.map FieldType.asSignature) []⟩

theorem text_asSignature (m : MethodType) : m.asSignature.text = m.text := by
  obtain ⟨params, result⟩ := m
  rw [MethodType.text, MethodType.chars_eq]
  cases result with
  | none =>
    have inside := FieldType.foldr_chars_asSignature params [')', 'V']
    exact congrArg (fun cs => String.ofList ('(' :: cs)) inside
  | some t =>
    have inside := FieldType.foldr_chars_asSignature params (')' :: t.asSignature.chars [])
    refine congrArg (fun cs => String.ofList ('(' :: cs)) (inside.trans ?_)
    rw [FieldType.chars_asSignature, List.append_nil]
    rfl

theorem outerNames_asSignature (m : MethodType) : m.asSignature.outerNames = m.names := by
  show (m.params.map FieldType.asSignature).foldr TypeSignature.outerNames
    ((m.result.map FieldType.asSignature).toList.foldr TypeSignature.outerNames []) = _
  rw [FieldType.foldr_outerNames_asSignature, names]
  cases m.result with
  | none => rfl
  | some t =>
    show _ ++ t.asSignature.outerNames [] = _
    rw [FieldType.outerNames_asSignature, List.append_nil]
    rfl

theorem mapOuter_asSignature (f : String → String) (m : MethodType) :
    m.asSignature.mapOuter f = (m.mapNames f).asSignature := by
  have each := funext (FieldType.mapOuter_asSignature f)
  simp only [asSignature, mapNames, Signature.mapOuter, SignatureBody.mapOuter, List.map_map,
    Option.map_map, List.map_nil, Function.comp_def, each]

theorem Describable.asSignature {m : MethodType} (h : m.Describable)
    (plain : ∀ name ∈ m.names, FieldType.Plain name) : m.asSignature.Named where
  params := by simp [MethodType.asSignature]
  ordered := .nil
  body := by
    refine ⟨List.forall_mem_map.2 ?_, ?_, by simp⟩
    · intro t ht
      apply (h.params t ht).named.asSignature
      intro name hname
      exact plain name (List.mem_append_left _ (List.mem_flatMap.2 ⟨t, ht, hname⟩))
    · intro u hu
      obtain ⟨t, ht, rfl⟩ := Option.map_eq_some_iff.1 hu
      apply (h.result t ht).named.asSignature
      intro name hname
      refine plain name (List.mem_append_right _ ?_)
      rw [ht]
      exact hname

end MethodType

/-- A text is renamed in both ways alike if it is written down by a signature whose names and
images are those of the descriptor. -/
theorem Renaming.Renames.signature_eq {r : Renaming} {text image : String} {s : Signature}
    (renames : r.Renames text.toList s.outerNames image.toList) (named : s.Named)
    (written : s.text = text) (hs : (s.mapOuter r.apply).text = image) :
    r.signature text = .ok (r.descriptor text) := by
  have parsed := Signature.parse?_eq_some_iff.2 ⟨named, written⟩
  rw [signature_of_parse r parsed, renames.descriptor_eq, hs, String.ofList_toList]

/-- **The two ways to rename agree.** A descriptor of a method, or of a type that is no primitive
one, whose names hold no dot and no opening bracket is renamed as a signature in the way in which it
is renamed as a descriptor. -/
theorem signature_eq_descriptor (r : Renaming) :
    (∀ text m, MethodType.parse text = .ok m → (∀ name ∈ m.names, FieldType.Plain name) →
      r.signature text = .ok (r.descriptor text)) ∧
    ∀ text t, FieldType.parse text = .ok t → (∀ p, t ≠ .primitive p) →
      (∀ name ∈ t.names, FieldType.Plain name) → r.signature text = .ok (r.descriptor text) := by
  constructor
  · intro text m h plain
    obtain ⟨described, rfl⟩ := MethodType.parse_eq_ok_iff.1 h
    have renames := Renaming.Renames.methodType (r := r) described
    have images : (m.asSignature.mapOuter r.apply).text = (m.mapNames r.apply).text := by
      rw [MethodType.mapOuter_asSignature, MethodType.text_asSignature]
    refine Renaming.Renames.signature_eq ?_ (described.asSignature plain) m.text_asSignature images
    rw [m.outerNames_asSignature, MethodType.text, MethodType.text, String.toList_ofList,
      String.toList_ofList]
    exact renames
  · intro text t h other plain
    obtain ⟨described, rfl⟩ := FieldType.parse_eq_ok_iff.1 h
    have renames := Renaming.Renames.fieldType (r := r) described.named Renaming.Renames.nil
    obtain ⟨s, named, written, listed, images⟩ :=
      FieldType.exists_signature described.named plain other
    refine Renaming.Renames.signature_eq ?_ named written (images r.apply)
    rw [listed, FieldType.text, FieldType.text, String.toList_ofList, String.toList_ofList]
    simpa using renames

theorem signature_eq_descriptor_move :
    (Renaming.move "a" "x/y").signature "([La/A;J)Lb/B;" = .ok (some "([Lx/y/A;J)Lb/B;") ∧
    (Renaming.move "a" "x/y").signature "[La/A;" = .ok (some "[Lx/y/A;") := by
  have method : MethodType.parse "([La/A;J)Lb/B;" =
      .ok ⟨[.array (.reference "a/A"), .primitive .long], some (.reference "b/B")⟩ := by
    decide +kernel
  have field : FieldType.parse "[La/A;" = .ok (.array (.reference "a/A")) := by decide +kernel
  have both := signature_eq_descriptor (.move "a" "x/y")
  constructor
  · rw [both.1 _ _ method (by decide)]
    exact congrArg Except.ok (by decide +kernel)
  · rw [both.2 _ _ field nofun (by decide)]
    exact congrArg Except.ok (by decide +kernel)

end ClassWeave
