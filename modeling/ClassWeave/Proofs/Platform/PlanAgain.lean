import ClassWeave.Proofs.Platform.Footprint
import ClassWeave.Proofs.Platform.Markers
import ClassWeave.Proofs.Platform.Transformed

/-!
# What is planned again

Transformed classes are planned like the classes that they were made of.

**Markers.** An annotation whose type could not be looked up must not become a marker when the pool
grows, so no text that is added may be the descriptor of a marker (`Marker.Harmless`).

**Methods.** Names, descriptors, annotations and the flag of static methods stay when a body is
given.

**Main result** (`Forwarded.plan_again`).
-/

namespace ClassWeave

/-! ## Markers -/

/-- The entries behind the first pool are not a given text, so this text is looked up alike. -/
theorem ConstantPool.GrowsBy.utf8_iff {p q : ConstantPool} {new : List Constant} {text : String}
    (h : p.GrowsBy new q) (other : .utf8 text ∉ new) (index : UInt16) :
    q.utf8 index = .ok text ↔ p.utf8 index = .ok text := by
  refine ⟨fun found => ?_, utf8_of_le h.le⟩
  obtain ⟨nonzero, slot, usable⟩ := get_eq_ok_iff.1 (utf8_eq_ok_iff.1 found)
  refine utf8_eq_ok_iff.2 (get_eq_ok_iff.2 ⟨nonzero, ?_, usable⟩)
  rw [h.slots_eq, List.getElem?_append] at slot
  split at slot
  · exact slot
  · exact absurd (List.mem_of_getElem? slot) other

/-- The texts that a pool may gain without a marker becoming known. -/
def Marker.Harmless (pool : ConstantPool) (text : String) : Prop :=
  ∀ marker : Marker, text = marker.descriptor → .utf8 text ∈ pool.slots.toList

theorem Marker.harmless_of_utf8 {pool : ConstantPool} {text : String} {index : UInt16}
    (h : pool.utf8 index = .ok text) : Marker.Harmless pool text := by
  intro _ _
  obtain ⟨_, slot, _⟩ := ConstantPool.get_eq_ok_iff.1 (ConstantPool.utf8_eq_ok_iff.1 h)
  exact List.mem_of_getElem? slot

/-- A resolver is no descriptor, which ends in a semicolon. -/
theorem Marker.resolver_ne_descriptor (i : Identifier) (marker marker' : Marker) :
    marker.resolver i ≠ marker'.descriptor := by
  intro eq
  have letter : (marker.resolver i).toList.getLast? = some 's' := by
    cases marker <;> simp [resolver, Identifier.resolver, Identifier.resolverName]
  have semicolon : marker'.descriptor.toList.getLast? = some ';' := by
    cases marker' <;> decide
  rw [eq, semicolon] at letter
  simp at letter

theorem Plan.Planned.harmless {i : Identifier} {pool : ConstantPool} {m : Member} {f : Forwarding}
    (planned : Plan.Planned pool m f) : ∀ text ∈ f.texts i, Marker.Harmless pool text := by
  have fixed {text : String} (h : ∀ marker : Marker, text ≠ marker.descriptor) :
      Marker.Harmless pool text :=
    fun marker eq => absurd eq (h marker)
  simp only [Forwarding.texts, List.forall_mem_cons]
  refine ⟨fixed (Marker.resolver_ne_descriptor i _), fixed ?_, fixed ?_,
    Marker.harmless_of_utf8 planned.name_eq, Marker.harmless_of_utf8 planned.descriptor_eq,
    fixed ?_, fixed ?_, by simp⟩
  all_goals
    intro marker
    cases marker <;> decide

/-- A method carries the marker that it carried when it has the same annotations and no marker has
become known. -/
theorem Marker.of?_eq {p q : ConstantPool} {m m' : Member}
    (annotations : ∀ marker : Marker,
      marker.annotations m'.attributes = marker.annotations m.attributes)
    (alike : ∀ (marker : Marker) (index : UInt16),
      q.utf8 index = .ok marker.descriptor ↔ p.utf8 index = .ok marker.descriptor) :
    Marker.of? m' q = Marker.of? m p := by
  have among (list : List AnnotationUse) (marker : Marker) :
      isAmong list q marker.descriptor = isAmong list p marker.descriptor := by
    unfold isAmong
    congr 1
    funext a
    have known := alike marker a.typeIndex
    cases hq : q.utf8 a.typeIndex <;> cases hp : p.utf8 a.typeIndex <;>
      simp_all [Except.toOption]
  have visible : visibleAnnotations m'.attributes = _ := annotations legacy
  have invisible : invisibleAnnotations m'.attributes = _ := annotations namespaced
  unfold Marker.of?
  rw [visible, invisible, among _ legacy, among _ namespaced]
  rfl

/-! ## Methods -/

namespace Member.CodeGiven

variable {pool : ConstantPool} {code : Code} {m m' : Member}

theorem isStatic_eq (h : m.CodeGiven pool code m') : m'.isStatic = m.isStatic := by
  have apart : ~~~codelessFlags &&& staticFlag = staticFlag := by decide
  rw [isStatic, isStatic, h.flag_eq apart]

/-- What is collected from all attributes but code stays. -/
theorem flatMap_eq {β : Type} {f : Attribute → List β} (h : m.CodeGiven pool code m')
    (nothing : ∀ a : Attribute, a.content.kind? = some .code → f a = []) :
    m'.attributes.flatMap f = m.attributes.flatMap f := by
  have others (as : List Attribute) :
      (as.filter fun a => a.content.kind? ≠ some .code).flatMap f = as.flatMap f := by
    induction as with
    | nil => rfl
    | cons a as ih =>
      by_cases isCode : a.content.kind? = some .code
      · rw [List.filter_cons_of_neg (by simpa using isCode), ih, List.flatMap_cons,
          nothing a isCode, List.nil_append]
      · rw [List.filter_cons_of_pos (by simpa using isCode), List.flatMap_cons, ih,
          List.flatMap_cons]
  have stay : (m'.attributes.filter fun a => a.content.kind? ≠ some .code) =
      m.attributes.filter fun a => a.content.kind? ≠ some .code := by
    refine FirstChanged.filter_eq h.attributes ?_ ?_
    · rintro _ _ rfl
      rfl
    · rintro a ⟨_, eq⟩
      rw [eq]
      rfl
  rw [← others, stay, others]

theorem annotations_eq (h : m.CodeGiven pool code m') (marker : Marker) :
    marker.annotations m'.attributes = marker.annotations m.attributes := by
  cases marker
  all_goals
    refine h.flatMap_eq ?_
    rintro ⟨_, content⟩ isCode
    obtain ⟨c, rfl⟩ := code_of_kind isCode
    rfl

end Member.CodeGiven

theorem Plan.examine_again {className : String} {p q : ConstantPool} {position : Nat}
    {m m' : Member} {finding : Finding} (le : p ≤ q) (name_eq : m'.nameIndex = m.nameIndex)
    (descriptor_eq : m'.descriptorIndex = m.descriptorIndex)
    (isStatic_eq : m'.isStatic = m.isStatic) (marker_eq : Marker.of? m' q = Marker.of? m p)
    (h : examine className p position m = .ok finding) :
    examine className q position m' = .ok finding := by
  unfold examine at h ⊢
  rw [marker_eq, isStatic_eq]
  -- All texts are found in the larger pool as well, so that each step answers as before.
  cases marked : Marker.of? m p with
  | none =>
    rw [marked] at h
    exact h
  | some marker =>
    rw [marked] at h
    obtain ⟨name, hname, h⟩ := except_bind_eq_ok_iff.1 h
    have name' : m'.name q = .ok name := by
      rw [Member.name, name_eq]
      exact ConstantPool.utf8_of_le le (mapError_eq_ok_iff.1 hname)
    refine except_bind_eq_ok_iff.2 ⟨name, mapError_eq_ok_iff.2 name', ?_⟩
    cases static : m.isStatic with
    | false =>
      rw [static] at h
      exact h
    | true =>
      rw [static] at h
      obtain ⟨descriptor, hdescriptor, h⟩ := except_bind_eq_ok_iff.1 h
      have descriptor' : m'.descriptor q = .ok descriptor := by
        rw [Member.descriptor, descriptor_eq]
        exact ConstantPool.utf8_of_le le (mapError_eq_ok_iff.1 hdescriptor)
      exact except_bind_eq_ok_iff.2 ⟨descriptor, mapError_eq_ok_iff.2 descriptor', h⟩

/-! ## Plans -/

namespace Forwarded

variable {i : Identifier} {c c' : ClassFile} {plan : Plan}

/-- No marker becomes known while a plan is carried out. -/
theorem marker_utf8_iff (asRead : c.AsRead) (hplan : Plan.ofClass c = .ok plan)
    (run : plan.forwardings.forM (·.install i) c = .ok () c') (marker : Marker) (index : UInt16) :
    c'.pool.utf8 index = .ok marker.descriptor ↔ c.pool.utf8 index = .ok marker.descriptor := by
  -- None of the texts that are installed is the descriptor of a marker, unless it was there before.
  have closed : ClassFile.Closed (Marker.Harmless c.pool) (fun _ => True) fun d =>
      ∀ marker : Marker, .utf8 marker.descriptor ∈ d.pool.slots.toList →
        .utf8 marker.descriptor ∈ c.pool.slots.toList := by
    refine ⟨fun d p e _ harmless known marker there => ?_, fun _ _ => id, fun _ _ => id⟩
    rw [Array.toList_push, List.mem_append, List.mem_singleton] at there
    rcases there with old | new
    · exact known marker old
    · rw [← new] at harmless
      exact harmless marker rfl
  have known := (Keeps.forM fun f hf => by
    obtain ⟨m, _, planned⟩ := (Plan.ofClass_ok hplan).1 f hf
    exact f.install_keeps closed planned.harmless trivial).ok (fun _ => id) run
  obtain ⟨new, grows⟩ := (of_plan asRead.laidOut hplan run).pool
  refine grows.utf8_iff (fun isNew => grows.fresh _ isNew (known marker ?_)) index
  rw [grows.slots_eq]
  exact List.mem_append_right _ isNew

/-- **The same plan.** What is planned on a class is planned again on the class that is read
back. -/
theorem plan_again (asRead : c.AsRead) (hplan : Plan.ofClass c = .ok plan)
    (run : plan.forwardings.forM (·.install i) c = .ok () c') :
    Plan.ofClass c'.resolved = .ok plan := by
  have inv := of_plan asRead.laidOut hplan run
  have alike := marker_utf8_iff asRead hplan run
  -- A method stays but for its code, if it gets some.
  have method {k : Nat} {m : Member} (hm : c.methods[k]? = some m) :
      ∃ m', c'.resolved.methods[k]? = some m' ∧ (m' = m ∨ ∃ code, m.CodeGiven c'.pool code m') := by
    by_cases marked : m.IsMarked c.pool
    · obtain ⟨m', f, index, hm', _, _, given⟩ := inv.marked hplan asRead hm marked
      exact ⟨m', hm', .inr ⟨_, given⟩⟩
    · refine ⟨m, ?_, .inl rfl⟩
      rw [inv.unmarked hplan asRead fun n hn => ?_, hm]
      obtain rfl : m = n := Option.some.inj (hm.symm.trans hn)
      exact marked
  obtain ⟨className, findings, hname, each, stands, eq⟩ := Plan.ofClass_eq_ok_iff.1 hplan
  refine Plan.ofClass_eq_ok_iff.2 ⟨className, findings, ?_, fun k => ?_, ?_, eq⟩
  · have same : c'.thisClass = c.thisClass := by rw [inv.same]
    show c'.pool.className c'.thisClass = _
    rw [same]
    exact ConstantPool.className_of_le inv.pool.le hname
  · rw [← each k]
    rcases hm : c.methods[k]? with _ | m
    · have none : c'.resolved.methods[k]? = .none := by
        rw [inv.unmarked hplan asRead fun m hm' => by simp [hm] at hm', hm]
      rw [none]
      rfl
    · obtain ⟨m', hm', same⟩ := method hm
      have found := each k
      rw [hm, Option.map_some, eq_comm, Option.map_eq_some_iff] at found
      obtain ⟨finding, _, examined⟩ := found
      rw [hm', Option.map_some, Option.map_some, ← examined]
      refine congrArg some ?_
      rcases same with rfl | ⟨code, given⟩
      · exact Plan.examine_again inv.pool.le rfl rfl rfl (Marker.of?_eq (fun _ => rfl) alike)
          examined.symm
      · exact Plan.examine_again inv.pool.le given.nameIndex_eq given.descriptorIndex_eq
          given.isStatic_eq (Marker.of?_eq given.annotations_eq alike) examined.symm
  · have same : c'.majorVersion = c.majorVersion := by rw [inv.same]
    show _ ∨ ¬ c'.majorVersion < minDynamicVersion
    rw [same]
    exact stands

end Forwarded

end ClassWeave
