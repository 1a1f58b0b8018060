import ClassWeave.Proofs.Support.Placed
import Mathlib.Data.List.Perm.Basic

/-!
# What an injection leaves in an output

**Gains** (`MemoryOutput.Gains`). An output in memory only ever takes classes under names that are
free, so what a run adds to it is a list of classes with distinct new names, and what was stored
stays as it was.

**Failures** (`ArchiveEntry.Ends`). An entry fails when its data cannot be read, when its class
cannot be moved, or when the output does not take the copy. None of these changes an output in
memory (`ArchiveEntry.Fails`). An injection that fails ends at the first entry that does
(`injectArchive_ends`).

**Main result** (`injectArchive_outcome`). An injection gives the copies of all class files of the
archive, or, when it fails, those of the class files before the first one that fails. There is no
third outcome, and nothing is taken back.
-/

namespace ClassWeave

/-! ## What an output gains -/

namespace MemoryOutput

variable {o o' s t : MemoryOutput} {name : String} {data : Bytes}
  {classes copies rest : List (String × Bytes)}

/-- The output has gained the copies, each under a name that was free, and nothing else has
changed in it. -/
structure Gains (o : MemoryOutput) (copies : List (String × Bytes)) (o' : MemoryOutput) : Prop where
  nodup : (copies.map (·.1)).Nodup
  fresh : ∀ name ∈ copies.map (·.1), o.get? name = none
  /-- What was stored is stored still, and the copies are all that has come in. -/
  get?_eq_some_iff : ∀ name data,
    o'.get? name = some data ↔ o.get? name = some data ∨ (name, data) ∈ copies
  perm : o'.classes.Perm (copies ++ o.classes)
  readOnly_eq : o'.readOnly = o.readOnly

theorem insert_perm (name : String) (data : Bytes) (classes : List (String × Bytes)) :
    (insert name data classes).Perm ((name, data) :: classes) := by
  induction classes with
  | nil => exact .refl _
  | cons c rest ih =>
    rw [insert]
    split
    · exact .refl _
    · exact (ih.cons c).trans (.swap (name, data) c rest)

/-- A class that is taken was not there, the output takes classes, and it is the only one that
comes in. -/
theorem eq_of_add (h : output.add name data s = (.ok (), t)) :
    s.readOnly = false ∧ t = { s with classes := insert name data s.classes } := by
  change add name data s = _ at h
  unfold add at h
  split_ifs at h with locked taken
  · exact nomatch (Prod.mk.inj h).1
  · exact nomatch (Prod.mk.inj h).1
  · exact ⟨by simpa using locked, (Prod.mk.inj h).2.symm⟩

/-- Why an output does not take a class of this name. -/
inductive Refuses (o : MemoryOutput) (name : String) : OutputError → Prop
  | readOnly : o.readOnly = true → Refuses o name .readOnly
  | duplicate : o.readOnly = false → (o.get? name).isSome = true →
    Refuses o name (.duplicate name)

/-- An output that does not take a class stays as it is. -/
theorem refuses_of_add {e : OutputError} (h : output.add name data s = (.error e, t)) :
    s = t ∧ s.Refuses name e := by
  change add name data s = _ at h
  unfold add at h
  split_ifs at h with locked taken
  · obtain ⟨he, rfl⟩ := Prod.mk.inj h
    obtain rfl := Except.error.inj he
    exact ⟨rfl, .readOnly locked⟩
  · obtain ⟨he, rfl⟩ := Prod.mk.inj h
    obtain rfl := Except.error.inj he
    exact ⟨rfl, .duplicate (by simpa using locked) taken⟩
  · exact nomatch (Prod.mk.inj h).1

theorem Gains.refl (o : MemoryOutput) : o.Gains [] o where
  nodup := List.nodup_nil
  fresh := by simp
  get?_eq_some_iff := by simp
  perm := .refl _
  readOnly_eq := rfl

/-- One class more is gained in front of the others. -/
theorem Gains.cons (h : output.add name data s = (.ok (), t)) (hrest : t.Gains rest o') :
    s.Gains ((name, data) :: rest) o' := by
  obtain ⟨free, after⟩ := get?_of_add h
  -- What is free after the first class has been taken was free before, and is not its name.
  have others {other : String} (hother : other ∈ rest.map (·.1)) :
      other ≠ name ∧ s.get? other = none := by
    have unused := hrest.fresh other hother
    rw [after] at unused
    split_ifs at unused with same
    exact ⟨same, unused⟩
  exact {
    nodup := List.nodup_cons.2 ⟨fun again => (others again).1 rfl, hrest.nodup⟩
    fresh := List.forall_mem_cons.2 ⟨free, fun other hother => (others hother).2⟩
    get?_eq_some_iff := by
      intro other value
      rw [hrest.get?_eq_some_iff, after, List.mem_cons, Prod.mk.injEq]
      split_ifs with same
      · subst same
        rw [Option.some.injEq, free]
        simp [eq_comm]
      · simp [same]
    perm := by
      rw [(eq_of_add h).2] at hrest
      exact (hrest.perm.trans ((insert_perm name data s.classes).append_left rest)).trans
        List.perm_middle
    readOnly_eq := hrest.readOnly_eq.trans (by rw [(eq_of_add h).2]) }

theorem gains_of_stores (h : output.Stores copies s t) : s.Gains copies t := by
  induction h with
  | nil s => exact .refl s
  | cons added _ ih => exact .cons added ih

end MemoryOutput

/-! ## Entries that fail -/

section

variable {σ : Type} {out : Output (StateM σ)} {i : Identifier} {s t : σ} {e : Error}

/-- To place the entry in the output ends with an error: its data is damaged, its class cannot be
moved, or the output does not take the copy. Only in the last case the output is reached at all. -/
inductive ArchiveEntry.Ends (out : Output (StateM σ)) (i : Identifier) (entry : ArchiveEntry)
    (s : σ) : Error → σ → Prop
  | unreadable : entry.data = none → Ends out i entry s (.archive (.data entry.name)) s
  | unmoved {data : Bytes} {name : String} {e : Error} : entry.data = some data →
    supportName? entry.name i = some name → moveSupportClass data name i = .error e →
    Ends out i entry s e s
  | refused {copy : String × Bytes} {e : OutputError} {t : σ} : entry.PlacedAs i copy →
    out.add copy.1 copy.2 s = (.error e, t) → Ends out i entry s (.output copy.1 e) t

theorem placeClass_error {entry : ArchiveEntry}
    (h : (placeClass out i entry.delivered).run s = (.error e, t)) : entry.Ends out i s e t := by
  unfold ArchiveEntry.delivered at h
  -- The cases are those of `placeClass`; only in the last one the output is asked.
  cases hdata : entry.data with
  | none =>
    simp only [hdata, placeClass] at h
    obtain ⟨rfl, rfl⟩ := exceptT_throw_eq_error_iff.1 h
    exact .unreadable hdata
  | some data =>
    simp only [hdata, placeClass] at h
    cases hname : supportName? entry.name i with
    | none =>
      simp only [hname] at h
      cases (Prod.mk.inj h).1
    | some name =>
      cases hmove : moveSupportClass data name i with
      | error _ =>
        simp only [hname, hmove] at h
        obtain ⟨rfl, rfl⟩ := exceptT_throw_eq_error_iff.1 h
        exact .unmoved hdata hname hmove
      | ok moved =>
        simp only [hname, hmove] at h
        rcases exceptT_bind_eq_error_iff.1 h with h | ⟨answered, u, added, h⟩
        · cases (Prod.mk.inj h).1
        cases answered with
        | ok _ => cases (Prod.mk.inj h).1
        | error _ =>
          have refused := exceptT_lift_eq_ok_iff.1 added
          obtain ⟨rfl, rfl⟩ := exceptT_throw_eq_error_iff.1 h
          have placed : entry.PlacedAs i (name, moved) := ⟨hname, data, hdata, hmove⟩
          exact .refused placed refused

/-- The class files give these copies: all of them are read, and each one that has a name to get
gives one copy, in order. -/
structure CopiesOf (i : Identifier) (es : List ArchiveEntry) (copies : List (String × Bytes)) :
    Prop where
  readable : ∀ entry ∈ es, entry.data.isSome = true
  placed : List.Forall₂ (ArchiveEntry.PlacedAs i)
    (es.filter fun entry => (supportName? entry.name i).isSome) copies

namespace CopiesOf

variable {entry : ArchiveEntry} {es : List ArchiveEntry} {copy : String × Bytes}
  {copies : List (String × Bytes)}

theorem nil : CopiesOf i [] [] := ⟨by simp, .nil⟩

theorem skip (readable : entry.data.isSome = true) (unnamed : supportName? entry.name i = none)
    (h : CopiesOf i es copies) : CopiesOf i (entry :: es) copies where
  readable := List.forall_mem_cons.2 ⟨readable, h.readable⟩
  placed := by
    rw [List.filter_cons_of_neg (by simp [unnamed])]
    exact h.placed

theorem cons (placed : entry.PlacedAs i copy) (h : CopiesOf i es copies) :
    CopiesOf i (entry :: es) (copy :: copies) where
  readable := by
    obtain ⟨data, hdata, _⟩ := placed.moved
    exact List.forall_mem_cons.2 ⟨by rw [hdata]; rfl, h.readable⟩
  placed := by
    rw [List.filter_cons_of_pos (by simp [placed.name_eq])]
    exact .cons placed h.placed

/-- The names of the copies are the names that the class files get. -/
theorem names_eq (h : CopiesOf i es copies) :
    copies.map (·.1) = es.filterMap fun entry => supportName? entry.name i := by
  have placed := h.placed
  clear h
  induction es generalizing copies with
  | nil =>
    obtain rfl := List.forall₂_nil_left_iff.1 placed
    rfl
  | cons entry es ih =>
    cases hname : supportName? entry.name i with
    | none =>
      rw [List.filter_cons_of_neg (by simp [hname])] at placed
      rw [List.filterMap_cons, hname]
      exact ih placed
    | some name =>
      rw [List.filter_cons_of_pos (by simp [hname])] at placed
      obtain ⟨copy, rest, first, others, rfl⟩ := List.forall₂_cons_left_iff.1 placed
      obtain rfl := Option.some.inj (hname.symm.trans first.name_eq)
      rw [List.filterMap_cons, hname, List.map_cons, ih others]

end CopiesOf

/-- A class file that is placed or skipped has been read. -/
theorem isSome_data_of_placeClass {entry : ArchiveEntry} {answer : Option String}
    (h : (placeClass out i entry.delivered).run s = (.ok answer, t)) :
    entry.data.isSome = true := by
  cases hdata : entry.data with
  | some data => rfl
  | none =>
    rw [ArchiveEntry.delivered, hdata] at h
    exact nomatch (Prod.mk.inj h).1

/-- Placing class files in order gives the copies of all of them. -/
theorem copiesOf_of_placeClasses {es : List ArchiveEntry} {answers : List (Option String)}
    (h : ((es.map ArchiveEntry.delivered).mapM (placeClass out i)).run s = (.ok answers, t)) :
    ∃ copies, answers.filterMap id = copies.map (·.1) ∧ out.Stores copies s t ∧
      CopiesOf i es copies := by
  obtain ⟨copies, names, stores, placed⟩ := placeClasses_ok h
  refine ⟨copies, names, stores, ?_, placed⟩
  clear names stores placed
  induction es generalizing s answers with
  | nil => exact fun _ none => absurd none List.not_mem_nil
  | cons entry es ih =>
    rw [List.map_cons, List.mapM_cons] at h
    obtain ⟨_, _, first, h⟩ := exceptT_bind_eq_ok_iff.1 h
    obtain ⟨_, _, rest, h⟩ := exceptT_bind_eq_ok_iff.1 h
    obtain ⟨_, rfl⟩ := exceptT_pure_eq_ok_iff.1 h
    exact List.forall_mem_cons.2 ⟨isSome_data_of_placeClass first, ih rest⟩

/-- Placing class files in order ends at the first one that fails. -/
theorem placeClasses_error {es : List ArchiveEntry}
    (h : ((es.map ArchiveEntry.delivered).mapM (placeClass out i)).run s = (.error e, t)) :
    ∃ before failing after copies u, es = before ++ failing :: after ∧ out.Stores copies s u ∧
      CopiesOf i before copies ∧ failing.Ends out i u e t := by
  induction es generalizing s with
  | nil => exact nomatch (Prod.mk.inj h).1
  | cons entry es ih =>
    rw [List.map_cons, List.mapM_cons] at h
    rcases exceptT_bind_eq_error_iff.1 h with failed | ⟨answer, v, placed, h⟩
    · exact ⟨[], entry, es, [], s, rfl, .nil s, .nil, placeClass_error failed⟩
    rcases exceptT_bind_eq_error_iff.1 h with failed | ⟨answers, w, _, h⟩
    · obtain ⟨before, failing, after, copies, u, rfl, stores, copied, ends⟩ := ih failed
      have readable := isSome_data_of_placeClass placed
      rcases placeClass_ok placed with ⟨unnamed, rfl, rfl⟩ | ⟨copy, placedAs, rfl, added⟩
      · exact ⟨entry :: before, failing, after, copies, u, rfl, stores,
          .skip readable unnamed copied, ends⟩
      · exact ⟨entry :: before, failing, after, copy :: copies, u, rfl, .cons added stores,
          .cons placedAs copied, ends⟩
    · exact nomatch (Prod.mk.inj h).1

/-- An injection that fails ends at the first class file that fails, or at a fault behind all of
them. -/
theorem injectArchive_ends {a : Archive} (h : (injectArchive out i a).run s = (.error e, t)) :
    ∃ before copies u, out.Stores copies s u ∧ CopiesOf i before copies ∧
      ((∃ failing after, a.entries.filter ArchiveEntry.isClass = before ++ failing :: after ∧
          failing.Ends out i u e t) ∨
        a.entries.filter ArchiveEntry.isClass = before ∧ a.complete = false ∧
          e = .archive .entry ∧ t = u) := by
  rcases exceptT_bind_eq_error_iff.1 h with h | ⟨_, _, _, h⟩
  · rw [Archive.classes_eq] at h
    cases complete : a.complete with
    | true =>
      rw [if_pos complete, List.append_nil] at h
      obtain ⟨before, failing, after, copies, u, split, stores, copied, ends⟩ :=
        placeClasses_error h
      exact ⟨before, copies, u, stores, copied, .inl ⟨failing, after, split, ends⟩⟩
    | false =>
      rw [if_neg (by simp [complete]), List.mapM_append] at h
      rcases exceptT_bind_eq_error_iff.1 h with h | ⟨answers, v, run, h⟩
      · obtain ⟨before, failing, after, copies, u, split, stores, copied, ends⟩ :=
          placeClasses_error h
        exact ⟨before, copies, u, stores, copied, .inl ⟨failing, after, split, ends⟩⟩
      · obtain ⟨copies, _, stores, copied⟩ := copiesOf_of_placeClasses run
        -- behind the files there is only the fault, and it throws
        rw [List.mapM_cons] at h
        rcases exceptT_bind_eq_error_iff.1 h with h | ⟨_, _, h, _⟩
        · rcases exceptT_bind_eq_error_iff.1 h with h | ⟨_, _, h, _⟩
          · obtain ⟨rfl, rfl⟩ := exceptT_throw_eq_error_iff.1 h
            exact ⟨_, copies, v, stores, copied, .inr ⟨rfl, rfl, rfl, rfl⟩⟩
          · exact nomatch (Prod.mk.inj h).1
        · rcases exceptT_bind_eq_ok_iff.1 h with ⟨_, _, h, _⟩
          exact nomatch (Prod.mk.inj h).1
  · exact nomatch (Prod.mk.inj h).1

end

/-! ## Outputs in memory -/

section

variable {i : Identifier} {o s t : MemoryOutput} {e : Error}

/-- The entry cannot be placed in the output: its data is damaged, its class cannot be moved, or the
output does not take the copy. -/
inductive ArchiveEntry.Fails (i : Identifier) (o : MemoryOutput) (entry : ArchiveEntry) :
    Error → Prop
  | unreadable : entry.data = none → Fails i o entry (.archive (.data entry.name))
  | unmoved {data : Bytes} {name : String} {e : Error} : entry.data = some data →
    supportName? entry.name i = some name → moveSupportClass data name i = .error e →
    Fails i o entry e
  | refused {copy : String × Bytes} {e : OutputError} : entry.PlacedAs i copy →
    o.Refuses copy.1 e → Fails i o entry (.output copy.1 e)

/-- An entry that cannot be placed leaves the output as it is. -/
theorem ArchiveEntry.Ends.fails {entry : ArchiveEntry}
    (h : entry.Ends MemoryOutput.output i s e t) : s = t ∧ entry.Fails i s e := by
  cases h with
  | unreadable none => exact ⟨rfl, .unreadable none⟩
  | unmoved hdata hname hmove => exact ⟨rfl, .unmoved hdata hname hmove⟩
  | refused placed refused =>
    obtain ⟨same, refuses⟩ := MemoryOutput.refuses_of_add refused
    exact ⟨same, .refused placed refuses⟩

theorem injectArchive_error {a : Archive}
    (h : (injectArchive MemoryOutput.output i a).run s = (.error e, t)) :
    ∃ before copies, MemoryOutput.output.Stores copies s t ∧ CopiesOf i before copies ∧
      ((∃ failing after, a.entries.filter ArchiveEntry.isClass = before ++ failing :: after ∧
          failing.Fails i t e) ∨
        a.entries.filter ArchiveEntry.isClass = before ∧ a.complete = false ∧
          e = .archive .entry) := by
  obtain ⟨before, copies, u, stores, copied, stop⟩ := injectArchive_ends h
  rcases stop with ⟨failing, after, split, ends⟩ | ⟨all, incomplete, fault, rfl⟩
  · obtain ⟨rfl, fails⟩ := ends.fails
    exact ⟨before, copies, stores, copied, .inl ⟨failing, after, split, fails⟩⟩
  · exact ⟨before, copies, stores, copied, .inr ⟨all, incomplete, fault⟩⟩

end

/-- **What an injection leaves in an output in memory.** Classes that were stored are never changed
or lost. When the injection succeeds, the answer lists the new names of the class files that have
one, in the order of the archive, and the output has gained exactly the moved classes under these
names, which differ from each other and from all names before. When it fails, the output has gained
exactly the moved classes of the class files before the first one that fails. -/
theorem injectArchive_outcome (i : Identifier) (a : Archive) (o : MemoryOutput) :
    match (injectArchive MemoryOutput.output i a).run o with
    | (.ok names, o') => ∃ copies, o.Gains copies o' ∧
        CopiesOf i (a.entries.filter ArchiveEntry.isClass) copies ∧ names = copies.map (·.1) ∧
        names = (a.entries.filter ArchiveEntry.isClass).filterMap
          fun entry => supportName? entry.name i
    | (.error e, o') => ∃ before copies, o.Gains copies o' ∧ CopiesOf i before copies ∧
        ((∃ failing after, a.entries.filter ArchiveEntry.isClass = before ++ failing :: after ∧
            failing.Fails i o' e) ∨
          a.entries.filter ArchiveEntry.isClass = before ∧ a.complete = false ∧
            e = .archive .entry) := by
  obtain ⟨result, o', run⟩ : ∃ result o', (injectArchive MemoryOutput.output i a).run o =
    (result, o') := ⟨_, _, rfl⟩
  rw [run]
  cases result with
  | ok names =>
    obtain ⟨-, answers, placed, rfl⟩ := placeClasses_of_injectArchive run
    obtain ⟨copies, names, stores, copied⟩ := copiesOf_of_placeClasses placed
    exact ⟨copies, MemoryOutput.gains_of_stores stores, copied, names,
      names.trans copied.names_eq⟩
  | error e =>
    obtain ⟨before, copies, stores, copied, failed⟩ := injectArchive_error run
    exact ⟨before, copies, MemoryOutput.gains_of_stores stores, copied, failed⟩

end ClassWeave
