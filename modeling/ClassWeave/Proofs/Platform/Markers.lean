import ClassWeave.Platform.Marker
import ClassWeave.Proofs.Steps

/-!
# Which marker a method carries

A method carries a marker by any annotation of the marker's visibility, whichever of its attributes
holds it (`Member.Carries`); an annotation whose type cannot be looked up is passed over.

**Main result** (`Marker.of?_eq_some_iff`). The marker of a method is the legacy one if the method
carries it, and otherwise the namespaced one if the method carries that.
-/

namespace ClassWeave

/-! ## Carried markers -/

namespace Member

/-- The method has an annotation of the marker's type and visibility. -/
inductive Carries (pool : ConstantPool) (m : Member) : Marker → Prop
  | legacy {a : Attribute} {list : List AnnotationUse} {use : AnnotationUse} :
    a ∈ m.attributes → a.content = .visibleAnnotations list → use ∈ list →
    pool.utf8 use.typeIndex = .ok Marker.legacy.descriptor → Carries pool m .legacy
  | namespaced {a : Attribute} {list : List AnnotationUse} {use : AnnotationUse} :
    a ∈ m.attributes → a.content = .invisibleAnnotations list → use ∈ list →
    pool.utf8 use.typeIndex = .ok Marker.namespaced.descriptor → Carries pool m .namespaced

/-- The method carries a marker, or both. -/
def Expects (pool : ConstantPool) (m : Member) : Prop := ∃ marker, m.Carries pool marker

end Member

namespace Marker

/-- The annotations that are as visible as those of the marker. -/
def annotations : Marker → List Attribute → List AnnotationUse
  | legacy => visibleAnnotations
  | namespaced => invisibleAnnotations

/-- The content of an attribute for such annotations. -/
def content : Marker → List AnnotationUse → Content
  | legacy => .visibleAnnotations
  | namespaced => .invisibleAnnotations

theorem mem_annotations_iff {marker : Marker} {as : List Attribute} {use : AnnotationUse} :
    use ∈ marker.annotations as ↔
      ∃ a ∈ as, ∃ list, a.content = marker.content list ∧ use ∈ list := by
  cases marker
  all_goals
    unfold annotations content
    refine List.mem_flatMap.trans (exists_congr fun a => and_congr_right fun _ => ?_)
    cases a.content <;> simp

end Marker

theorem Member.carries_iff {pool : ConstantPool} {m : Member} {marker : Marker} :
    m.Carries pool marker ↔ ∃ a ∈ m.attributes, ∃ list, a.content = marker.content list ∧
      ∃ use ∈ list, pool.utf8 use.typeIndex = .ok marker.descriptor := by
  constructor
  · rintro (⟨ha, hlist, huse, found⟩ | ⟨ha, hlist, huse, found⟩)
    · exact ⟨_, ha, _, hlist, _, huse, found⟩
    · exact ⟨_, ha, _, hlist, _, huse, found⟩
  · rintro ⟨a, ha, list, hlist, use, huse, found⟩
    cases marker with
    | legacy => exact .legacy ha hlist huse found
    | namespaced => exact .namespaced ha hlist huse found

/-! ## Detected markers -/

namespace Marker

variable {m : Member} {pool : ConstantPool}

theorem isAmong_iff {list : List AnnotationUse} {descriptor : String} :
    isAmong list pool descriptor ↔ ∃ use ∈ list, pool.utf8 use.typeIndex = .ok descriptor := by
  simp only [isAmong, List.any_eq_true, beq_iff_eq, toOption_eq_some_iff]

theorem carries_iff_isAmong (marker : Marker) : m.Carries pool marker ↔
    isAmong (marker.annotations m.attributes) pool marker.descriptor := by
  rw [Member.carries_iff, isAmong_iff]
  constructor
  · rintro ⟨a, ha, list, hlist, use, huse, found⟩
    exact ⟨use, mem_annotations_iff.2 ⟨a, ha, list, hlist, huse⟩, found⟩
  · rintro ⟨use, huse, found⟩
    obtain ⟨a, ha, list, hlist, huse⟩ := mem_annotations_iff.1 huse
    exact ⟨a, ha, list, hlist, use, huse, found⟩

instance (marker : Marker) : Decidable (m.Carries pool marker) :=
  decidable_of_iff _ (carries_iff_isAmong marker).symm

theorem of?_eq_ite : of? m pool = if m.Carries pool .legacy then some legacy
    else if m.Carries pool .namespaced then some namespaced else none := by
  refine ite_congr (propext (carries_iff_isAmong legacy).symm) (fun _ => rfl) fun _ => ?_
  exact ite_congr (propext (carries_iff_isAmong namespaced).symm) (fun _ => rfl) fun _ => rfl

/-- The marker of a method is one that it carries, and the legacy one if it carries that one. -/
theorem of?_eq_some_iff {marker : Marker} : of? m pool = some marker ↔
    m.Carries pool marker ∧ (m.Carries pool .legacy → marker = .legacy) := by
  rw [of?_eq_ite]
  by_cases old : m.Carries pool .legacy
  · rw [if_pos old, Option.some_inj]
    constructor
    · rintro rfl
      exact ⟨old, fun _ => rfl⟩
    · intro h
      exact (h.2 old).symm
  · rw [if_neg old, Option.ite_none_right_eq_some, Option.some_inj]
    constructor
    · rintro ⟨new, rfl⟩
      exact ⟨new, fun h => absurd h old⟩
    · intro h
      cases marker with
      | legacy => exact absurd h.1 old
      | namespaced => exact ⟨h.1, rfl⟩

theorem of?_eq_none_iff : of? m pool = none ↔ ¬ m.Expects pool := by
  constructor
  · intro none expects
    by_cases old : m.Carries pool .legacy
    · exact nomatch none.symm.trans (of?_eq_some_iff.2 ⟨old, fun _ => rfl⟩)
    · obtain ⟨marker, carried⟩ := expects
      exact nomatch none.symm.trans (of?_eq_some_iff.2 ⟨carried, fun h => absurd h old⟩)
  · intro nothing
    apply Option.eq_none_iff_forall_ne_some.2
    intro marker found
    exact nothing ⟨marker, (of?_eq_some_iff.1 found).1⟩

end Marker

instance (pool : ConstantPool) (m : Member) : Decidable (m.Expects pool) :=
  decidable_of_iff (Marker.of? m pool ≠ none)
    (by rw [ne_eq, Marker.of?_eq_none_iff, Classical.not_not])

end ClassWeave
