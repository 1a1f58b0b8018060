import ClassWeave.Proofs.Relocation.Names
import ClassWeave.Proofs.Relocation.Relocated
import ClassWeave.Proofs.Signature.Parsed

/-!
# Renaming what was renamed

**Final renamings** (`Renaming.IsFinal`). No image of a name is given a new name, and the image of a
name can stand wherever the name can. So it is with packages that are moved elsewhere
(`Renaming.isFinal_move`).

**Main results** (`Renaming.IsFinal.image_again`, `Renaming.IsFinal.nameImage_again`). So a renamed
text is taken apart like the old one, in every way in which texts name types, and none of the names
in it is renamed again.
-/

namespace ClassWeave

namespace Renaming

/-- Images stay, and where a name can stand its image can stand. -/
structure IsFinal (r : Renaming) : Prop where
  again (name : String) : r (r.apply name) = none
  clean : r.IsClean
  names : Signature.KeepsNames r.apply
  noArray {name new : String} : r name = some new → new.toList.head? ≠ some '['

/-! ## Descriptors and names of class entries -/

theorem head?_of_descriptor {r : Renaming} {text new : String} (h : r.descriptor text = some new) :
    new.toList.head? = text.toList.head? := by
  have cuts := cuts_cut text
  rw [descriptor_eq] at h
  split_ifs at h with renamed
  rw [← Option.some.inj h, String.toList_ofList]
  generalize text.toList = cs, (cut text).1 = named, (cut text).2 = tail at cuts renamed
  cases cuts with
  | plain => simp at renamed
  | unfinished => simp at renamed
  | piece => simp [Piece.rename, List.head?_append]

/-- The name of a class entry is a descriptor exactly when it begins like an array. -/
theorem typeName_eq (r : Renaming) (name : String) : r.typeName name =
    if name.toList.head? = some '[' then r.descriptor name else r name := by
  unfold typeName
  split
  · next eq => rw [if_pos (by rw [eq]; rfl)]
  · next other =>
    rw [if_neg]
    intro array
    obtain ⟨rest, eq⟩ := List.head?_eq_some_iff.1 array
    exact other rest eq

/-- **A package that is moved** to names outside of it, which hold nothing that ends a name, is
moved for good. -/
theorem isFinal_move {source target : String} (nonempty : target ≠ "")
    (clean : ∀ c ∈ '[' :: Signature.classStops, c ∉ target.toList)
    (apart : ∀ inner, ¬ source.toList <+: (below target inner).toList) :
    (move source target).IsFinal := by
  -- All that is needed of a moved name: it begins with the target.
  have inTarget {name new : String} (moved : move source target name = some new) :
      target.toList <+: new.toList := by
    refine InPackage.isPrefix ?_
    exact (move_eq_some_iff.1 moved).imp And.right fun ⟨inner, _, eq⟩ => ⟨inner, eq⟩
  have named {name new : String} (moved : move source target name = some new) : new ≠ "" := by
    rintro rfl
    exact nonempty (String.toList_inj.1 (List.prefix_nil.1 (inTarget moved)))
  refine ⟨fun name => ?_, move_isClean source (clean ';' (by decide)), fun name isName => ?_,
    fun {name new} moved array => ?_⟩
  · unfold apply
    cases moved : move source target name with
    | none => exact moved
    | some new =>
      refine move_eq_none_iff.2 (mt InPackage.isPrefix ?_)
      rcases move_eq_some_iff.1 moved with ⟨_, rfl⟩ | ⟨inner, _, rfl⟩
      · exact fun there => apart "" (there.trans (InPackage.isPrefix (.inr ⟨"", rfl⟩)))
      · exact apart inner
  · unfold apply
    cases moved : move source target name with
    | none => exact isName
    | some new =>
      refine ⟨named moved, fun c hc stops => ?_⟩
      rcases mem_of_move moved hc with there | there
      · exact clean c (List.mem_cons_of_mem _ stops) there
      · exact isName.2 c there stops
  · obtain ⟨rest, eq⟩ := inTarget moved
    have first : (target.toList ++ rest).head? = target.toList.head? :=
      List.head?_append_of_ne_nil _ (mt String.toList_eq_nil_iff.1 nonempty)
    rw [eq, array] at first
    exact clean '[' List.mem_cons_self (List.mem_of_mem_head? first.symm)

/-! ## Texts that are renamed again -/

namespace IsFinal

variable {r : Renaming} (h : r.IsFinal)
include h

theorem descriptor_again (text : String) : r.descriptor ((r.descriptor text).getD text) = none := by
  refine descriptor_eq_none_iff.2 fun p hp => ?_
  rw [cut_descriptor h.clean] at hp
  obtain ⟨q, _, rfl⟩ := List.mem_map.1 hp
  exact h.again q.name

/-- What a class entry names is not renamed again. -/
theorem nameImage_again {text : String} {new : Option String} (image : r.nameImage text new) :
    r.nameImage (new.getD text) none := by
  rw [nameImage, typeName_eq] at image ⊢
  -- The image of an array is an array, and no other image is, so that both are read alike.
  by_cases array : text.toList.head? = some '['
  · rw [if_pos array] at image
    subst image
    have head : ((r.descriptor text).getD text).toList.head? = some '[' := by
      cases renamed : r.descriptor text with
      | none => exact array
      | some new => exact (head?_of_descriptor renamed).trans array
    rw [if_pos head]
    exact h.descriptor_again text
  · rw [if_neg array] at image
    subst image
    have head : ((r text).getD text).toList.head? ≠ some '[' := by
      cases renamed : r text with
      | none => exact array
      | some new => exact h.noArray renamed
    rw [if_neg head]
    exact h.again text

/-! ## Signatures -/

theorem signature_again {text : String} {new : Option String} (image : r.signature text = .ok new) :
    r.signature (new.getD text) = .ok none := by
  unfold signature at image
  cases parsed : Signature.parse? text with
  | none => exact nomatch parsed ▸ image
  | some s =>
    simp only [parsed, Except.ok.injEq] at image
    split_ifs at image with renamed
    · subst image
      have none : ¬ (s.mapOuter r.apply).outerNames.any fun name => (r name).isSome := by
        rw [Signature.outerNames_mapOuter, List.any_map, List.any_eq_true]
        rintro ⟨name, _, some⟩
        rw [Function.comp_apply, h.again name] at some
        exact nomatch some
      rw [Option.getD_some, signature, Signature.parse?_mapOuter h.names parsed]
      simp only [if_neg none]
    · subst image
      rw [Option.getD_none, signature, parsed]
      simp only [if_neg renamed]

/-- **A renamed text**, however it names types, names nothing that is renamed again. -/
theorem image_again {use : TypeUse} {text : String} {new : Option String}
    (image : r.image use text new) : r.image use (new.getD text) none := by
  cases use with
  | descriptor =>
    subst image
    exact h.descriptor_again text
  | signature => exact h.signature_again image

end IsFinal

end Renaming

end ClassWeave
