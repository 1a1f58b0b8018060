import ClassWeave.Proofs.Relocation.Names
import ClassWeave.Proofs.Signature.Images
import ClassWeave.Proofs.Signature.Parsed
import ClassWeave.Proofs.Steps

/-!
# Texts that are renamed twice

**Texts after a renaming** (`Renaming.descriptorText`, `Renaming.signatureText`). A text in which no
name is given a new one stays as it is, so the text afterwards is always made in the same way: its
names are replaced by their images.

**One renaming after the other** (`Renaming.andThen`). The second renaming must take the new text
apart where the first one took the old text apart, so the new names must not hold what ends a name.

**Main result** (`renaming_functorial`). To rename a text and then to rename the new text is to
rename the text once, by the composed renaming.
-/

namespace ClassWeave

open Signature (IsName classStops)

namespace Renaming

/-- The descriptor after the renaming. -/
def descriptorText (r : Renaming) (text : String) : String := (r.descriptor text).getD text

/-- The signature after the renaming. -/
def signatureText (r : Renaming) (text : String) : Except DescriptorError String :=
  (r.signature text).map fun new => new.getD text

/-- Applies one renaming and then the other. -/
def andThen (r r' : Renaming) : Renaming := fun name =>
  match r name with
  | none => r' name
  | some new => some (r'.apply new)

theorem apply_andThen (r r' : Renaming) (name : String) :
    (r.andThen r').apply name = r'.apply (r.apply name) := by
  unfold apply andThen
  cases r name <;> rfl

/-- The new names can stand in descriptors and in signatures. -/
def GivesNames (r : Renaming) : Prop := ∀ name new, r name = some new → IsName classStops new

theorem GivesNames.isClean {r : Renaming} (h : r.GivesNames) : r.IsClean := by
  intro name clean
  unfold apply
  cases moved : r name with
  | none => exact clean
  | some new => exact fun inside => (h name new moved).2 ';' inside (by decide)

theorem GivesNames.keepsNames {r : Renaming} (h : r.GivesNames) :
    Signature.KeepsNames r.apply := by
  intro name isName
  unfold apply
  cases moved : r name with
  | none => exact isName
  | some new => exact h name new moved

theorem givesNames_ofTable {table : List (String × String)}
    (names : ∀ row ∈ table, IsName classStops row.2) : (ofTable table).GivesNames := by
  intro name new found
  obtain ⟨before, after, rfl, _⟩ := List.lookup_eq_some_iff.1 found
  exact names (name, new) (List.mem_append_right before List.mem_cons_self)

/-! ## Descriptors -/

/-- The pieces of a text make the text again when their names stay. -/
theorem Cuts.rename_eq_self {cs tail : List Char} {named : List Piece} (h : Cuts cs named tail)
    {r : Renaming} (stays : ∀ p ∈ named, r p.name = none) :
    named.flatMap (·.rename r) ++ tail = cs := by
  induction h with
  | plain | unfinished => rfl
  | @piece lead name rest tail named _ _ _ ih =>
    rw [List.forall_mem_cons] at stays
    have same : r.apply (String.ofList name) = String.ofList name := by
      rw [apply, stays.1, Option.getD_none]
    rw [List.flatMap_cons, List.append_assoc, ih stays.2, Piece.rename, same, String.toList_ofList]
    simp

/-- The descriptor after a renaming is made of the pieces with the images of their names. -/
theorem toList_descriptorText (r : Renaming) (text : String) :
    (r.descriptorText text).toList = (cut text).1.flatMap (·.rename r) ++ (cut text).2 := by
  unfold descriptorText
  cases renamed : r.descriptor text with
  | none =>
    have stays := descriptor_eq_none_iff.1 renamed
    exact ((cuts_cut text).rename_eq_self stays).symm
  | some new =>
    rw [descriptor_eq] at renamed
    split_ifs at renamed
    rw [Option.getD_some, ← Option.some.inj renamed, String.toList_ofList]

/-- A piece that is renamed twice. -/
theorem Piece.rename_map {r₁ r₂ r₁₂ : Renaming}
    (composed : ∀ name, r₁₂.apply name = r₂.apply (r₁.apply name)) (p : Piece) :
    (p.map r₁.apply).rename r₂ = p.rename r₁₂ := by
  rw [rename, rename, map, composed]

theorem descriptorText_descriptorText {r₁ r₂ r₁₂ : Renaming} (clean : r₁.IsClean)
    (composed : ∀ name, r₁₂.apply name = r₂.apply (r₁.apply name)) (text : String) :
    r₂.descriptorText (r₁.descriptorText text) = r₁₂.descriptorText text := by
  have cuts : cut (r₁.descriptorText text) = ((cut text).1.map (·.map r₁.apply), (cut text).2) :=
    cut_descriptor clean text
  rw [← String.toList_inj, toList_descriptorText, toList_descriptorText, cuts, List.flatMap_map]
  simp only [Piece.rename_map composed]

/-! ## Signatures -/

/-- The signature after a renaming is the written form with the images of the outer names. -/
theorem signatureText_of_parse (r : Renaming) {text : String} {s : Signature}
    (h : Signature.parse? text = some s) :
    r.signatureText text = .ok (s.mapOuter r.apply).text := by
  rw [signatureText, signature_of_parse r h]
  by_cases renamed : s.outerNames.any fun name => (r name).isSome
  · rw [if_pos renamed]
    rfl
  · rw [if_neg renamed, mapOuter_eq_self_of_not_any renamed, (Signature.parse?_eq_some_iff.1 h).2]
    rfl

theorem signatureText_of_unparsed (r : Renaming) {text : String}
    (h : Signature.parse? text = none) :
    r.signatureText text = .error (.invalidSignature text) := by
  rw [signatureText, signature_of_unparsed r h]
  rfl

end Renaming

open Renaming in
/-- **One renaming after the other** is the composed renaming, on every text. For descriptors that
is so whether they are well-formed or not. What a signature is does not depend on the renaming, and
a renamed signature is one. -/
theorem renaming_functorial {r₁ r₂ r₁₂ : Renaming} (names : r₁.GivesNames)
    (composed : ∀ name, r₁₂.apply name = r₂.apply (r₁.apply name)) :
    (∀ text, r₂.descriptorText (r₁.descriptorText text) = r₁₂.descriptorText text) ∧
    (∀ text (r r' : Renaming),
      (∃ new, r.signature text = .ok new) ↔ ∃ new, r'.signature text = .ok new) ∧
    (∀ text new, r₁.signatureText text = .ok new →
      ∀ r : Renaming, ∃ newer, r.signature new = .ok newer) ∧
    ∀ text, (r₁.signatureText text >>= r₂.signatureText) = r₁₂.signatureText text := by
  refine ⟨?_, ?_, ?_, ?_⟩
  · intro text
    exact descriptorText_descriptorText names.isClean composed text
  · intro text r r'
    rw [signature_accepts_iff, signature_accepts_iff]
  · intro text new h r
    cases parsed : Signature.parse? text with
    | none =>
      rw [signatureText_of_unparsed r₁ parsed] at h
      cases h
    | some s =>
      rw [signatureText_of_parse r₁ parsed] at h
      cases h
      exact signature_accepts_iff.2 ⟨_, Signature.parse?_mapOuter names.keepsNames parsed⟩
  · intro text
    cases parsed : Signature.parse? text with
    | none =>
      rw [signatureText_of_unparsed r₁ parsed, signatureText_of_unparsed r₁₂ parsed]
      rfl
    | some s =>
      -- The image parses as the image of the parsed signature, which is renamed once more.
      have again := Signature.parse?_mapOuter names.keepsNames parsed
      have images : r₂.apply ∘ r₁.apply = r₁₂.apply := funext fun name => (composed name).symm
      rw [signatureText_of_parse r₁ parsed, signatureText_of_parse r₁₂ parsed, ← images,
        ← Signature.mapOuter_mapOuter]
      exact signatureText_of_parse r₂ again

/-- Two classes that take each other's place. -/
def swappedNames : Renaming := .ofTable [("a/A", "b/Bee"), ("b/Bee", "a/A")]

/-- `La/A<+Lb/Bee;>.C;` -/
def swappedSignature : Signature :=
  ⟨[], .types (.classType "a/A" [.type (some .extends) (.classType "b/Bee" [] [])] [⟨"C", []⟩]) []⟩

theorem swappedSignature_named : swappedSignature.Named where
  params := by simp [swappedSignature]
  ordered := .nil
  body := by
    simp [swappedSignature, SignatureBody.Named, ReferenceSignature.Named, TypeArgument.ListNamed,
      TypeArgument.Named, InnerClass.ListNamed, IsName, classStops]

/-- To swap two classes twice is to leave a text as it is, also a descriptor that ends within a
name. -/
theorem renaming_functorial_swap :
    swappedNames.GivesNames ∧
    swappedNames.descriptorText "(La/A;[Lb/Bee;ILa/A" = "(Lb/Bee;[La/A;ILa/A" ∧
    swappedNames.descriptorText "(Lb/Bee;[La/A;ILa/A" = "(La/A;[Lb/Bee;ILa/A" ∧
    swappedNames.signatureText "La/A<+Lb/Bee;>.C;" = .ok "Lb/Bee<+La/A;>.C;" ∧
    swappedNames.signatureText "Lb/Bee<+La/A;>.C;" = .ok "La/A<+Lb/Bee;>.C;" := by
  have names : swappedNames.GivesNames := by
    apply Renaming.givesNames_ofTable
    simp [IsName, classStops]
  have once : swappedNames.descriptorText "(La/A;[Lb/Bee;ILa/A" = "(Lb/Bee;[La/A;ILa/A" := by
    decide +kernel
  have parsed : Signature.parse? "La/A<+Lb/Bee;>.C;" = some swappedSignature :=
    Signature.parse?_eq_some_iff.2 ⟨swappedSignature_named, by decide +kernel⟩
  have image : (swappedSignature.mapOuter swappedNames.apply).text = "Lb/Bee<+La/A;>.C;" := by
    decide +kernel
  have back : (swappedSignature.mapOuter (swappedNames.andThen swappedNames).apply).text =
      "La/A<+Lb/Bee;>.C;" := by decide +kernel
  have onceSignature :
      swappedNames.signatureText "La/A<+Lb/Bee;>.C;" = .ok "Lb/Bee<+La/A;>.C;" := by
    rw [Renaming.signatureText_of_parse _ parsed, image]
  have both := renaming_functorial names (swappedNames.apply_andThen swappedNames)
  refine ⟨names, once, ?_, onceSignature, ?_⟩
  · rw [← once, both.1]
    decide +kernel
  · have twice := both.2.2.2 "La/A<+Lb/Bee;>.C;"
    rw [Renaming.signatureText_of_parse (swappedNames.andThen swappedNames) parsed, back,
      except_bind_eq_ok_iff] at twice
    obtain ⟨new, first, second⟩ := twice
    rw [onceSignature] at first
    cases first
    exact second

end ClassWeave
