import ClassWeave.Proofs.Signature.Named
import ClassWeave.Renaming

/-!
# Signatures whose names are replaced

**Listed names** (`Signature.outerNames`). Names are listed in front of those that follow, so the
names of a part are a segment of those of the whole.

**Laws.** A signature stays when each of its outer names is replaced by itself
(`Signature.mapOuter_eq_self`), and names that are replaced twice are replaced once, by the image of
the image (`Signature.mapOuter_mapOuter`).

**Renamed texts** (`Renaming.signature_of_parse`). What a renaming answers on a text is told by the
signature that the text writes down.
-/

namespace ClassWeave

/-! ## Listed names -/

mutual

theorem ReferenceSignature.outerNames_append : ∀ (t : ReferenceSignature) (after : List String),
    t.outerNames after = t.outerNames [] ++ after
  | .variable _, _ => rfl
  | .array element, after => TypeSignature.outerNames_append element after
  | .classType outer arguments inner, after => by
    rw [ReferenceSignature.outerNames, ReferenceSignature.outerNames,
      InnerClass.listOuterNames_append inner after, TypeArgument.listOuterNames_append arguments,
      TypeArgument.listOuterNames_append arguments (InnerClass.listOuterNames inner []),
      List.cons_append, List.append_assoc]

theorem TypeSignature.outerNames_append : ∀ (t : TypeSignature) (after : List String),
    t.outerNames after = t.outerNames [] ++ after
  | .primitive _, _ => rfl
  | .reference r, after => ReferenceSignature.outerNames_append r after

theorem TypeArgument.outerNames_append : ∀ (a : TypeArgument) (after : List String),
    a.outerNames after = a.outerNames [] ++ after
  | .any, _ => rfl
  | .type _ bound, after => ReferenceSignature.outerNames_append bound after

theorem TypeArgument.listOuterNames_append : ∀ (as : List TypeArgument) (after : List String),
    TypeArgument.listOuterNames as after = TypeArgument.listOuterNames as [] ++ after
  | [], _ => rfl
  | a :: rest, after => by
    rw [TypeArgument.listOuterNames, TypeArgument.listOuterNames,
      TypeArgument.listOuterNames_append rest after, TypeArgument.outerNames_append a,
      TypeArgument.outerNames_append a (TypeArgument.listOuterNames rest []), List.append_assoc]

theorem InnerClass.listOuterNames_append : ∀ (is : List InnerClass) (after : List String),
    InnerClass.listOuterNames is after = InnerClass.listOuterNames is [] ++ after
  | [], _ => rfl
  | ⟨_, arguments⟩ :: rest, after => by
    rw [InnerClass.listOuterNames, InnerClass.listOuterNames,
      InnerClass.listOuterNames_append rest after, TypeArgument.listOuterNames_append arguments,
      TypeArgument.listOuterNames_append arguments (InnerClass.listOuterNames rest []),
      List.append_assoc]

end

/-- The names of parts one after the other are those of each part, if each lists its own. -/
theorem foldr_eq_flatMap_append {α : Type} {names : α → List String → List String}
    (each : ∀ a after, names a after = names a [] ++ after) (as : List α) (after : List String) :
    as.foldr names after = as.flatMap (names · []) ++ after := by
  induction as with
  | nil => rfl
  | cons a as ih => rw [List.foldr_cons, each, ih, List.flatMap_cons, List.append_assoc]

theorem TypeParameter.outerNames_append (p : TypeParameter) (after : List String) :
    p.outerNames after = p.outerNames [] ++ after := by
  have bounds := foldr_eq_flatMap_append ReferenceSignature.outerNames_append
  rw [TypeParameter.outerNames, TypeParameter.outerNames, bounds p.interfaceBounds after, bounds,
    bounds p.interfaceBounds, bounds p.classBound.toList, List.append_nil, List.append_assoc]

/-! ## Names that stay -/

section

variable {f : String → String}

mutual

theorem ReferenceSignature.mapOuter_eq_self : ∀ t : ReferenceSignature,
    (∀ name ∈ t.outerNames [], f name = name) → t.mapOuter f = t
  | .variable _, _ => rfl
  | .array element, stays => congrArg _ (TypeSignature.mapOuter_eq_self element stays)
  | .classType outer arguments inner, stays => by
    rw [ReferenceSignature.outerNames, TypeArgument.listOuterNames_append, List.forall_mem_cons,
      List.forall_mem_append] at stays
    rw [ReferenceSignature.mapOuter, stays.1, TypeArgument.mapOuterList_eq_self arguments stays.2.1,
      InnerClass.mapOuterList_eq_self inner stays.2.2]

theorem TypeSignature.mapOuter_eq_self : ∀ t : TypeSignature,
    (∀ name ∈ t.outerNames [], f name = name) → t.mapOuter f = t
  | .primitive _, _ => rfl
  | .reference r, stays => congrArg _ (ReferenceSignature.mapOuter_eq_self r stays)

theorem TypeArgument.mapOuter_eq_self : ∀ a : TypeArgument,
    (∀ name ∈ a.outerNames [], f name = name) → a.mapOuter f = a
  | .any, _ => rfl
  | .type _ bound, stays => congrArg _ (ReferenceSignature.mapOuter_eq_self bound stays)

theorem TypeArgument.mapOuterList_eq_self : ∀ as : List TypeArgument,
    (∀ name ∈ TypeArgument.listOuterNames as [], f name = name) →
      TypeArgument.mapOuterList f as = as
  | [], _ => rfl
  | a :: rest, stays => by
    rw [TypeArgument.listOuterNames, TypeArgument.outerNames_append, List.forall_mem_append]
      at stays
    rw [TypeArgument.mapOuterList, TypeArgument.mapOuter_eq_self a stays.1,
      TypeArgument.mapOuterList_eq_self rest stays.2]

theorem InnerClass.mapOuterList_eq_self : ∀ is : List InnerClass,
    (∀ name ∈ InnerClass.listOuterNames is [], f name = name) → InnerClass.mapOuterList f is = is
  | [], _ => rfl
  | ⟨_, arguments⟩ :: rest, stays => by
    rw [InnerClass.listOuterNames, TypeArgument.listOuterNames_append, List.forall_mem_append]
      at stays
    rw [InnerClass.mapOuterList, TypeArgument.mapOuterList_eq_self arguments stays.1,
      InnerClass.mapOuterList_eq_self rest stays.2]

end

/-- Parts stay if each of them stays when its names do. -/
theorem map_eq_self_of_names {α : Type} {names : α → List String → List String} {g : α → α}
    (each : ∀ a, (∀ name ∈ names a [], f name = name) → g a = a) {as : List α}
    (stays : ∀ name ∈ as.flatMap (names · []), f name = name) : as.map g = as := by
  have same : ∀ a ∈ as, g a = a := by
    intro a ha
    apply each a
    intro name hname
    exact stays name (List.mem_flatMap.2 ⟨a, ha, hname⟩)
  rw [List.map_congr_left same, List.map_id']

/-- The same for a part that may be missing. -/
theorem optionMap_eq_self_of_names {α : Type} {names : α → List String → List String} {g : α → α}
    (each : ∀ a, (∀ name ∈ names a [], f name = name) → g a = a) {a : Option α}
    (stays : ∀ name ∈ a.toList.flatMap (names · []), f name = name) : a.map g = a := by
  cases a with
  | none => rfl
  | some a =>
    rw [Option.toList_some, List.flatMap_cons, List.flatMap_nil, List.append_nil] at stays
    exact congrArg some (each a stays)

theorem TypeParameter.mapOuter_eq_self (p : TypeParameter)
    (stays : ∀ name ∈ p.outerNames [], f name = name) : p.mapOuter f = p := by
  have bounds := foldr_eq_flatMap_append ReferenceSignature.outerNames_append
  rw [TypeParameter.outerNames, bounds, bounds, List.append_nil, List.forall_mem_append] at stays
  rw [TypeParameter.mapOuter,
    optionMap_eq_self_of_names ReferenceSignature.mapOuter_eq_self stays.1,
    map_eq_self_of_names ReferenceSignature.mapOuter_eq_self stays.2]

theorem SignatureBody.mapOuter_eq_self (b : SignatureBody)
    (stays : ∀ name ∈ b.outerNames, f name = name) : b.mapOuter f = b := by
  have types := foldr_eq_flatMap_append TypeSignature.outerNames_append
  have references := foldr_eq_flatMap_append ReferenceSignature.outerNames_append
  cases b with
  | method params result throws =>
    rw [SignatureBody.outerNames, references, types, types, List.append_nil, List.forall_mem_append,
      List.forall_mem_append] at stays
    rw [SignatureBody.mapOuter, map_eq_self_of_names TypeSignature.mapOuter_eq_self stays.1,
      optionMap_eq_self_of_names TypeSignature.mapOuter_eq_self stays.2.1,
      map_eq_self_of_names ReferenceSignature.mapOuter_eq_self stays.2.2]
  | types first rest =>
    rw [SignatureBody.outerNames, ReferenceSignature.outerNames_append, references, List.append_nil,
      List.forall_mem_append] at stays
    rw [SignatureBody.mapOuter, ReferenceSignature.mapOuter_eq_self first stays.1,
      map_eq_self_of_names ReferenceSignature.mapOuter_eq_self stays.2]

/-- **A signature stays** when each of its outer names is replaced by itself. -/
theorem Signature.mapOuter_eq_self (s : Signature)
    (stays : ∀ name ∈ s.outerNames, f name = name) : s.mapOuter f = s := by
  rw [Signature.outerNames, foldr_eq_flatMap_append TypeParameter.outerNames_append,
    List.forall_mem_append] at stays
  rw [Signature.mapOuter, map_eq_self_of_names TypeParameter.mapOuter_eq_self stays.1,
    SignatureBody.mapOuter_eq_self s.body stays.2]

end

/-! ## Names that are replaced twice -/

section

variable (f g : String → String)

mutual

theorem ReferenceSignature.mapOuter_mapOuter :
    ∀ t : ReferenceSignature, (t.mapOuter f).mapOuter g = t.mapOuter (g ∘ f)
  | .variable _ => rfl
  | .array element => congrArg _ (TypeSignature.mapOuter_mapOuter element)
  | .classType outer arguments inner => by
    rw [ReferenceSignature.mapOuter, ReferenceSignature.mapOuter, ReferenceSignature.mapOuter,
      TypeArgument.mapOuterList_mapOuterList arguments, InnerClass.mapOuterList_mapOuterList inner,
      Function.comp_apply]

theorem TypeSignature.mapOuter_mapOuter :
    ∀ t : TypeSignature, (t.mapOuter f).mapOuter g = t.mapOuter (g ∘ f)
  | .primitive _ => rfl
  | .reference r => congrArg _ (ReferenceSignature.mapOuter_mapOuter r)

theorem TypeArgument.mapOuter_mapOuter :
    ∀ a : TypeArgument, (a.mapOuter f).mapOuter g = a.mapOuter (g ∘ f)
  | .any => rfl
  | .type _ bound => congrArg _ (ReferenceSignature.mapOuter_mapOuter bound)

theorem TypeArgument.mapOuterList_mapOuterList : ∀ as : List TypeArgument,
    TypeArgument.mapOuterList g (TypeArgument.mapOuterList f as) =
      TypeArgument.mapOuterList (g ∘ f) as
  | [] => rfl
  | a :: rest => by
    rw [TypeArgument.mapOuterList, TypeArgument.mapOuterList, TypeArgument.mapOuterList,
      TypeArgument.mapOuter_mapOuter a, TypeArgument.mapOuterList_mapOuterList rest]

theorem InnerClass.mapOuterList_mapOuterList : ∀ is : List InnerClass,
    InnerClass.mapOuterList g (InnerClass.mapOuterList f is) = InnerClass.mapOuterList (g ∘ f) is
  | [] => rfl
  | ⟨_, arguments⟩ :: rest => by
    rw [InnerClass.mapOuterList, InnerClass.mapOuterList, InnerClass.mapOuterList,
      TypeArgument.mapOuterList_mapOuterList arguments, InnerClass.mapOuterList_mapOuterList rest]

end

theorem TypeParameter.mapOuter_mapOuter (p : TypeParameter) :
    (p.mapOuter f).mapOuter g = p.mapOuter (g ∘ f) := by
  have each := funext (ReferenceSignature.mapOuter_mapOuter f g)
  simp only [TypeParameter.mapOuter, Option.map_map, List.map_map, Function.comp_def] at each ⊢
  rw [each]

theorem SignatureBody.mapOuter_mapOuter (b : SignatureBody) :
    (b.mapOuter f).mapOuter g = b.mapOuter (g ∘ f) := by
  have types := funext (TypeSignature.mapOuter_mapOuter f g)
  have references := funext (ReferenceSignature.mapOuter_mapOuter f g)
  cases b with
  | method params result throws =>
    simp only [SignatureBody.mapOuter, Option.map_map, List.map_map, Function.comp_def]
      at types references ⊢
    rw [types, references]
  | types first rest =>
    rw [SignatureBody.mapOuter, SignatureBody.mapOuter, SignatureBody.mapOuter, List.map_map,
      ReferenceSignature.mapOuter_mapOuter]
    exact congrArg _ (congrArg (List.map · rest) references)

/-- **Names that are replaced twice** are replaced once, by the image of the image. -/
theorem Signature.mapOuter_mapOuter (s : Signature) :
    (s.mapOuter f).mapOuter g = s.mapOuter (g ∘ f) := by
  have params := funext (TypeParameter.mapOuter_mapOuter f g)
  rw [Signature.mapOuter, Signature.mapOuter, Signature.mapOuter, List.map_map,
    SignatureBody.mapOuter_mapOuter]
  exact congrArg (fun h => Signature.mk (s.typeParams.map h) _) params

end

/-! ## Renamed texts -/

namespace Renaming

theorem signature_of_parse (r : Renaming) {text : String} {s : Signature}
    (h : Signature.parse? text = some s) :
    r.signature text = .ok (if s.outerNames.any fun name => (r name).isSome then
      some (s.mapOuter r.apply).text else none) := by
  unfold signature
  rw [h]

theorem signature_of_unparsed (r : Renaming) {text : String}
    (h : Signature.parse? text = none) : r.signature text = .error (.invalidSignature text) := by
  unfold signature
  rw [h]

/-- A text is a signature, or not, whatever the renaming. -/
theorem signature_accepts_iff {r : Renaming} {text : String} :
    (∃ new, r.signature text = .ok new) ↔ ∃ s, Signature.parse? text = some s := by
  cases parsed : Signature.parse? text with
  | none => simp [signature_of_unparsed r parsed]
  | some s => simp [signature_of_parse r parsed]

/-- If no outer name is renamed, replacing the names by their images changes nothing. -/
theorem mapOuter_eq_self_of_not_any {r : Renaming} {s : Signature}
    (none : ¬ s.outerNames.any fun name => (r name).isSome) : s.mapOuter r.apply = s := by
  apply s.mapOuter_eq_self
  intro name hname
  simp only [List.any_eq_true, not_exists, not_and, Option.not_isSome_iff_eq_none] at none
  rw [apply, none name hname, Option.getD_none]

end Renaming

end ClassWeave
