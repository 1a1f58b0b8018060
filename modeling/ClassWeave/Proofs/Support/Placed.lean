import ClassWeave.Proofs.Steps
import ClassWeave.Proofs.Support.Copies
import ClassWeave.Proofs.Text.Cutting
import Mathlib.Data.List.Forall2

/-!
# Where support classes are placed

**Names** (`supportName?_eq`). The copy of a class is named by the identifier of the build and the
simple name of the class.

**Outputs** (`Output.Stores`). A run on an output is the list of the classes that it has taken. One
in memory holds each of them afterwards (`MemoryOutput.get?_of_stores`).

**Main result** (`injectArchive_ok`). An archive that is injected gives one copy for each of its
class files that has a simple name, in the order of the files.
-/

namespace ClassWeave

/-! ## Names -/

/-- What stands behind the last slash of a name. -/
def simpleName (name : String) : String := (segments name).getLast?.getD ""

theorem simpleName_of_notMem {s : String} (h : '/' ∉ s.toList) : simpleName s = s := by
  rw [simpleName, segments_of_notMem h]
  rfl

theorem simpleName_slash (s t : String) : simpleName (s ++ "/" ++ t) = simpleName t := by
  rw [simpleName, segments_slash, List.getLast?_append_of_ne_nil _ (segments_ne_nil t), simpleName]

theorem dropSuffix?_append (suffix stem : String) :
    dropSuffix? suffix (stem ++ suffix) = some stem := by
  have there : suffix.toList.reverse.isPrefixOf? (stem ++ suffix).toList.reverse =
      some stem.toList.reverse := by
    rw [List.isPrefixOf?_eq_some_iff_append_eq, String.toList_append, List.reverse_append]
  rw [dropSuffix?, there, Option.map_some, List.reverse_reverse, String.ofList_toList]

/-- **The name of a copy** is the identifier and the simple name of the class. -/
theorem supportName?_eq (entry : String) (i : Identifier) : supportName? entry i =
    (dropSuffix? classSuffix entry).bind fun stem =>
      if simpleName stem = "" then none else some (i.text ++ "/" ++ simpleName stem) := by
  unfold supportName?
  congr 1
  funext stem
  obtain ⟨simple, last⟩ := Option.ne_none_iff_exists'.1
    (mt List.getLast?_eq_none_iff.1 (segments_ne_nil stem))
  rw [simpleName, last]
  rfl

theorem supportName?_append (stem : String) (i : Identifier) :
    supportName? (stem ++ classSuffix) i =
      if simpleName stem = "" then none else some (i.text ++ "/" ++ simpleName stem) := by
  rw [supportName?_eq, dropSuffix?_append, Option.bind_some]

/-! ## Outputs -/

section

variable {σ : Type} {out : Output (StateM σ)} {copies : List (String × Bytes)} {s t u : σ}

/-- The output has taken the classes, one after the other. -/
inductive Output.Stores (out : Output (StateM σ)) : List (String × Bytes) → σ → σ → Prop
  | nil (s : σ) : Stores out [] s s
  | cons {name : String} {data : Bytes} {rest : List (String × Bytes)} {s t u : σ} :
    out.add name data s = (.ok (), t) → Stores out rest t u → Stores out ((name, data) :: rest) s u

end

namespace MemoryOutput

variable {s t : MemoryOutput} {name other : String} {data : Bytes}

theorem lookup_insert {classes : List (String × Bytes)} (free : classes.lookup name = none) :
    (insert name data classes).lookup other =
      if other = name then some data else classes.lookup other := by
  have lookup_cons (key : String) (value : Bytes) (rest : List (String × Bytes)) (k : String) :
      ((key, value) :: rest).lookup k = if k = key then some value else rest.lookup k := by
    by_cases same : k = key
    · rw [if_pos same, same, List.lookup_cons_self]
    · rw [if_neg same, List.lookup_cons, beq_eq_false_iff_ne.2 same]
  induction classes with
  | nil => exact lookup_cons name data [] other
  | cons c rest ih =>
    obtain ⟨key, value⟩ := c
    rw [lookup_cons] at free ⊢
    split_ifs at free with distinct
    rw [insert]
    split
    · rw [lookup_cons, lookup_cons]
    · rw [lookup_cons, ih free]
      split_ifs with here same
      · exact absurd (same.symm.trans here) distinct
      all_goals rfl

/-- A class that is taken is held under its name, and the others stay. -/
theorem get?_of_add (h : output.add name data s = (.ok (), t)) :
    s.get? name = none ∧
      ∀ other, t.get? other = if other = name then some data else s.get? other := by
  change add name data s = _ at h
  unfold add at h
  split_ifs at h with locked taken
  · exact nomatch (Prod.mk.inj h).1
  · exact nomatch (Prod.mk.inj h).1
  · have free : s.get? name = none := by simpa using taken
    obtain rfl := (Prod.mk.inj h).2
    exact ⟨free, fun _ => lookup_insert free⟩

/-- What is held stays while classes are taken. -/
theorem get?_of_stores {copies : List (String × Bytes)} (h : output.Stores copies s t) :
    (∀ copy ∈ copies, t.get? copy.1 = some copy.2) ∧
      ∀ name data, s.get? name = some data → t.get? name = some data := by
  induction h with
  | nil s => exact ⟨by simp, fun _ _ => id⟩
  | @cons name data rest s t u added _ ih =>
    obtain ⟨taken, stays⟩ := ih
    refine ⟨List.forall_mem_cons.2 ⟨stays name data ?_, taken⟩, fun other value held => ?_⟩
    · rw [(get?_of_add added).2, if_pos rfl]
    · obtain ⟨free, after⟩ := get?_of_add added
      -- The name of a class that is taken was free, so that it is another one.
      refine stays other value ?_
      rw [after, if_neg, held]
      rintro rfl
      exact nomatch held.symm.trans free

end MemoryOutput

/-! ## Placing class files -/

/-- The class file that an entry delivers. -/
def ArchiveEntry.delivered (e : ArchiveEntry) : Except ArchiveError (String × Bytes) :=
  match e.data with
  | some data => .ok (e.name, data)
  | none => .error (.data e.name)

theorem Archive.classes_eq (a : Archive) : a.classes =
    (a.entries.filter ArchiveEntry.isClass).map ArchiveEntry.delivered ++
      if a.complete then [] else [.error .entry] := rfl

/-- The copy of an entry has the new name of the entry, and holds the moved class. -/
structure ArchiveEntry.PlacedAs (i : Identifier) (e : ArchiveEntry) (copy : String × Bytes) :
    Prop where
  name_eq : supportName? e.name i = some copy.1
  moved : ∃ data, e.data = some data ∧ moveSupportClass data copy.1 i = .ok copy.2

/-- What is placed for the file of a class is read as a copy of the class under its new name. -/
theorem ArchiveEntry.PlacedAs.copied {i : Identifier} {e : ArchiveEntry} {copy : String × Bytes}
    {data : Bytes} {c : ClassFile} (h : e.PlacedAs i copy) (hdata : e.data = some data)
    (hread : ClassFile.read data = .ok c) : ∃ d, ClassFile.read copy.2 = .ok d ∧
      c.CopiedAs (.move placeholderPackage i.text) copy.1 d := by
  obtain ⟨data', hdata', moved⟩ := h.moved
  obtain rfl : data = data' := Option.some.inj (hdata.symm.trans hdata')
  obtain ⟨c', d, hread', readBack, copied⟩ := moveSupportClass_ok moved
  obtain rfl : c = c' := Except.ok.inj (hread.symm.trans hread')
  exact ⟨d, readBack, copied⟩

section

variable {σ : Type} {out : Output (StateM σ)} {i : Identifier} {s t : σ}

/-- A class file that is placed has no name to get, or its copy is taken by the output. -/
theorem placeClass_ok {e : ArchiveEntry} {answer : Option String}
    (h : (placeClass out i e.delivered).run s = (.ok answer, t)) :
    (supportName? e.name i = none ∧ answer = none ∧ s = t) ∨
      ∃ copy, e.PlacedAs i copy ∧ answer = some copy.1 ∧ out.add copy.1 copy.2 s = (.ok (), t) := by
  unfold ArchiveEntry.delivered at h
  cases hdata : e.data with
  | none =>
    simp only [hdata, placeClass] at h
    exact nomatch (Prod.mk.inj h).1
  | some data =>
    simp only [hdata, placeClass] at h
    cases hname : supportName? e.name i with
    | none =>
      simp only [hname] at h
      obtain ⟨rfl, rfl⟩ := exceptT_pure_eq_ok_iff.1 h
      exact .inl ⟨rfl, rfl, rfl⟩
    | some name =>
      cases hmove : moveSupportClass data name i with
      | error e =>
        simp only [hname, hmove] at h
        exact nomatch (Prod.mk.inj h).1
      | ok renamed =>
        simp only [hname, hmove] at h
        obtain ⟨answered, u, added, h⟩ := exceptT_bind_eq_ok_iff.1 h
        cases answered with
        | error e => exact nomatch (Prod.mk.inj h).1
        | ok _ =>
          obtain ⟨rfl, rfl⟩ := exceptT_pure_eq_ok_iff.1 h
          exact .inr ⟨(name, renamed), ⟨hname, data, hdata, hmove⟩, rfl,
            exceptT_lift_eq_ok_iff.1 added⟩

theorem placeClasses_ok {es : List ArchiveEntry} {answers : List (Option String)}
    (h : ((es.map ArchiveEntry.delivered).mapM (placeClass out i)).run s = (.ok answers, t)) :
    ∃ copies, answers.filterMap id = copies.map (·.1) ∧ out.Stores copies s t ∧
      List.Forall₂ (ArchiveEntry.PlacedAs i)
        (es.filter fun e => (supportName? e.name i).isSome) copies := by
  induction es generalizing s answers with
  | nil =>
    obtain ⟨rfl, rfl⟩ := exceptT_pure_eq_ok_iff.1 h
    exact ⟨[], rfl, .nil s, .nil⟩
  | cons e es ih =>
    rw [List.map_cons, List.mapM_cons] at h
    obtain ⟨answer, u, placed, h⟩ := exceptT_bind_eq_ok_iff.1 h
    obtain ⟨rest, v, run, h⟩ := exceptT_bind_eq_ok_iff.1 h
    obtain ⟨rfl, rfl⟩ := exceptT_pure_eq_ok_iff.1 h
    obtain ⟨copies, names, stores, related⟩ := ih run
    rcases placeClass_ok placed with ⟨unnamed, rfl, rfl⟩ | ⟨copy, placedAs, rfl, added⟩
    · refine ⟨copies, by simpa using names, stores, ?_⟩
      rwa [List.filter_cons_of_neg (by simp [unnamed])]
    · refine ⟨copy :: copies, by simpa using names, .cons added stores, ?_⟩
      rw [List.filter_cons_of_pos (by simp [placedAs.name_eq])]
      exact .cons placedAs related

/-- An injection that succeeds has placed all class files of an archive without a fault. -/
theorem placeClasses_of_injectArchive {a : Archive} {names : List String}
    (h : (injectArchive out i a).run s = (.ok names, t)) : a.complete = true ∧
      ∃ answers, (((a.entries.filter ArchiveEntry.isClass).map ArchiveEntry.delivered).mapM
        (placeClass out i)).run s = (.ok answers, t) ∧ answers.filterMap id = names := by
  obtain ⟨answers, u, run, h⟩ := exceptT_bind_eq_ok_iff.1 h
  obtain ⟨rfl, rfl⟩ := exceptT_pure_eq_ok_iff.1 h
  rw [Archive.classes_eq] at run
  cases complete : a.complete with
  | true =>
    rw [if_pos complete, List.append_nil] at run
    exact ⟨rfl, answers, run, rfl⟩
  | false =>
    rw [if_neg (by simp [complete]), List.mapM_append] at run
    obtain ⟨_, v, _, run⟩ := exceptT_bind_eq_ok_iff.1 run
    obtain ⟨_, w, failed, _⟩ := exceptT_bind_eq_ok_iff.1 run
    rw [List.mapM_cons] at failed
    obtain ⟨_, x, thrown, _⟩ := exceptT_bind_eq_ok_iff.1 failed
    exact nomatch (Prod.mk.inj thrown).1

/-- **An archive is injected** by placing one copy for each class file that gets a name. -/
theorem injectArchive_ok {a : Archive} {names : List String}
    (h : (injectArchive out i a).run s = (.ok names, t)) :
    ∃ copies, names = copies.map (·.1) ∧ out.Stores copies s t ∧
      List.Forall₂ (ArchiveEntry.PlacedAs i) ((a.entries.filter ArchiveEntry.isClass).filter
        fun e => (supportName? e.name i).isSome) copies := by
  obtain ⟨-, answers, run, rfl⟩ := placeClasses_of_injectArchive h
  exact placeClasses_ok run

end

end ClassWeave
