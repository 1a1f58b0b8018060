import ClassWeave.Proofs.CommandLine.ClassPaths
import ClassWeave.Proofs.Support.Injected

/-!
# Where the files of an injection go

The entries of an archive have any paths: with `..`, from another root, with backslashes or with
blank parts. What is written of them stays in the package of the build.

**Names of parts** (`IsPartName`). Such a name leads to something right below a directory. A
directory takes a class exactly when all parts of its name are such names (`classPath?_eq_ok_iff`).

**Files** (`ArchiveEntry.GoesTo`). The file of an entry is in the package of the build below the
root of the output, under the simple name of the entry.

**Main result** (`injectArchive_confined`). An injection writes the files of its entries, up to the
first entry that fails, and nothing else.
-/

namespace ClassWeave

/-! ## Names of parts -/

/-- The name leads from a directory to something right below it. -/
structure IsPartName (name : String) : Prop where
  nonempty : name ≠ ""
  notHere : name ≠ "."
  notUp : name ≠ ".."
  noSlash : '/' ∉ name.toList
  noBackslash : '\\' ∉ name.toList

theorem accepted_iff {name : String} : (!name.toList.contains '\\' &&
    (segments name).all fun s => s != "" && s != "." && s != "..") = true ↔
      ∀ part ∈ segments name, IsPartName part := by
  rw [Bool.and_eq_true, List.all_eq_true]
  constructor
  · rintro ⟨backslash, proper⟩ part hpart
    obtain ⟨⟨nonempty, notHere⟩, notUp⟩ : (part ≠ "" ∧ part ≠ ".") ∧ part ≠ ".." := by
      simpa using proper part hpart
    refine ⟨nonempty, notHere, notUp, notMem_of_mem_segments hpart, fun inside => ?_⟩
    -- A backslash in a part would be one in the name.
    obtain ⟨front, back, eq⟩ := exists_text_eq hpart
    rw [text_segments] at eq
    simp [eq, inside] at backslash
  · intro parts
    refine ⟨?_, fun part hpart => ?_⟩
    · simp only [Bool.not_eq_true', List.contains_eq_mem, decide_eq_false_iff_not]
      intro inside
      obtain ⟨part, hpart, there⟩ := exists_segment_of_mem inside (by decide)
      exact (parts part hpart).noBackslash there
    · simp [(parts part hpart).nonempty, (parts part hpart).notHere, (parts part hpart).notUp]

theorem classPath?_eq_ok_iff {name path : String} : classPath? name = .ok path ↔
    (∀ part ∈ segments name, IsPartName part) ∧ path = name ++ classSuffix := by
  unfold classPath?
  split_ifs with accepted
  · rw [Except.ok.injEq]
    exact ⟨fun eq => ⟨accepted_iff.1 accepted, eq.symm⟩, fun ⟨_, eq⟩ => eq.symm⟩
  · exact ⟨nofun, fun ⟨parts, _⟩ => absurd (accepted_iff.2 parts) accepted⟩

/-! ## Files -/

/-- The file of a class in the package of a build below a directory. -/
def Identifier.classFile (i : Identifier) (root : Path) (simple : String) : Path :=
  root.append (segments i.text ++ [simple ++ classSuffix])

/-- The file that an entry goes to: it is in the package of the build below the root, under the
simple name of the entry, and it holds the moved class. -/
structure ArchiveEntry.GoesTo (root : Path) (i : Identifier) (e : ArchiveEntry)
    (file : Path × Bytes) : Prop where
  path : ∃ stem, e.name = stem ++ classSuffix ∧ IsPartName (simpleName stem) ∧
    file.1 = i.classFile root (simpleName stem)
  package : ∀ part ∈ segments i.text, IsPartName part
  moved : ∃ name, e.PlacedAs i (name, file.2)

theorem slash_notMem_simpleName (name : String) : '/' ∉ (simpleName name).toList := by
  obtain ⟨last, eq⟩ := Option.ne_none_iff_exists'.1
    (mt List.getLast?_eq_none_iff.1 (segments_ne_nil name))
  rw [simpleName, eq, Option.getD_some]
  exact notMem_of_mem_segments (List.mem_of_getLast? eq)

/-- An entry gets a name when it is a class file whose simple name is not blank. -/
theorem supportName?_eq_some_iff {entry name : String} {i : Identifier} :
    supportName? entry i = some name ↔ ∃ stem, entry = stem ++ classSuffix ∧
      simpleName stem ≠ "" ∧ name = i.text ++ "/" ++ simpleName stem := by
  simp only [supportName?_eq, Option.bind_eq_some_iff, dropSuffix?_eq_some_iff]
  refine exists_congr fun stem => and_congr_right fun _ => ?_
  split_ifs with blank <;> simp [blank, eq_comm]

/-- Paths that lead elsewhere. -/
example : ["../../A.class", "/B.class", "..\\C.class", "a/.class", "B.txt"].map
    (fun path => supportName? (entryName path) ⟨"b/c"⟩) =
      [some "b/c/A", some "b/c/B", some "b/c/C", none, none] := by
  decide +kernel

section

variable {σ : Type} {host : Host (StateM σ)} {root : Path} {i : Identifier} {e : ArchiveEntry}
  {copy : String × Bytes} {s t : σ}

theorem ArchiveEntry.PlacedAs.goesTo {path : String} (placed : e.PlacedAs i copy)
    (accepted : classPath? copy.1 = .ok path) :
    e.GoesTo root i (root.append (.ofString path), copy.2) := by
  obtain ⟨parts, rfl⟩ := classPath?_eq_ok_iff.1 accepted
  obtain ⟨stem, entry, -, name⟩ := supportName?_eq_some_iff.1 placed.name_eq
  have simple := segments_of_notMem (slash_notMem_simpleName stem)
  -- The check is made on the whole name: the parts of the package, and the simple name.
  have cut : segments copy.1 = segments i.text ++ [simpleName stem] := by
    rw [name, segments_slash, simple]
  rw [cut, List.forall_mem_append, List.forall_mem_singleton] at parts
  obtain ⟨package, plain⟩ := parts
  have file : '/' ∉ (simpleName stem ++ classSuffix).toList := by
    rw [String.toList_append, List.mem_append, not_or]
    exact ⟨plain.noSlash, by decide⟩
  refine ⟨⟨stem, entry, plain, ?_⟩, package, copy.1, placed⟩
  rw [Path.ofString, name, String.append_assoc, segments_slash, segments_of_notMem file]
  rfl

/-! ## Runs -/

/-- The host has written the files, one after the other. -/
inductive Host.Writes (host : Host (StateM σ)) : List (Path × Bytes) → σ → σ → Prop
  | nil (s : σ) : Writes host [] s s
  | cons {file : Path × Bytes} {rest : List (Path × Bytes)} {s t u : σ} :
    host.write file.1 file.2 s = (.ok (), t) → Writes host rest t u →
    Writes host (file :: rest) s u

/-- A directory takes a class as the host takes its file, when the class has one. -/
theorem add_cases {name : String} {data : Bytes} {result : Except OutputError Unit}
    (h : (host.output root).add name data s = (result, t)) :
    (∃ e, result = .error e ∧ t = s) ∨ ∃ path answer, classPath? name = .ok path ∧
      host.write (root.append (.ofString path)) data s = (answer, t) ∧
      (answer = .ok () ↔ result = .ok ()) := by
  cases accepted : classPath? name with
  | error e =>
    rw [output_add_of_invalid accepted] at h
    obtain ⟨rfl, rfl⟩ := Prod.mk.inj h
    exact .inl ⟨e, rfl, rfl⟩
  | ok path =>
    rw [output_add accepted] at h
    refine .inr ⟨path, ?_⟩
    generalize host.write (root.append (.ofString path)) data s = written at h ⊢
    obtain ⟨fault | ⟨⟩, u⟩ := written
    · refine ⟨.error fault, rfl, ?_⟩
      cases fault <;> obtain ⟨rfl, rfl⟩ := Prod.mk.inj h <;> simp
    · obtain ⟨rfl, rfl⟩ := Prod.mk.inj h
      exact ⟨.ok (), rfl, rfl, by simp⟩

theorem writes_of_stores {es : List ArchiveEntry} {copies : List (String × Bytes)}
    (placed : List.Forall₂ (ArchiveEntry.PlacedAs i) es copies)
    (h : (host.output root).Stores copies s t) :
    ∃ files, host.Writes files s t ∧ List.Forall₂ (ArchiveEntry.GoesTo root i) es files := by
  induction h generalizing es with
  | nil s =>
    obtain rfl := List.forall₂_nil_right_iff.1 placed
    exact ⟨[], .nil s, .nil⟩
  | cons added _ ih =>
    obtain ⟨e, es, first, others, rfl⟩ := List.forall₂_cons_right_iff.1 placed
    obtain ⟨_, no, -⟩ | ⟨path, answer, accepted, written, taken⟩ := add_cases added
    · cases no
    · obtain rfl := taken.2 rfl
      obtain ⟨files, writes, goTo⟩ := ih others
      exact ⟨_, .cons written writes, .cons (first.goesTo accepted) goTo⟩

/-- An entry that fails has nothing written for it, save that its file may be refused by the
host. -/
theorem ArchiveEntry.Ends.refused_file {cause : Error}
    (h : e.Ends (host.output root) i s cause t) : t = s ∨ ∃ file fault,
      e.GoesTo root i file ∧ host.write file.1 file.2 s = (.error fault, t) := by
  cases h with
  | unreadable _ => exact .inl rfl
  | unmoved _ _ _ => exact .inl rfl
  | refused placed refused =>
    obtain ⟨_, -, same⟩ | ⟨path, fault | ⟨⟩, accepted, failed, taken⟩ := add_cases refused
    · exact .inl same
    · exact .inr ⟨_, fault, placed.goesTo accepted, failed⟩
    · cases taken.1 rfl

end

/-- **An injection stays in the package of the build.** Whatever the paths of the entries are, the
host writes exactly the files that the class files with a simple name go to, one after the other, up
to the first class file that fails. All other entries are skipped. For the one that fails nothing is
written: either its file is not asked for at all, or the host refuses it, and it is in the package
as well. -/
theorem injectArchive_confined {σ : Type} (host : Host (StateM σ)) (root : Path) (i : Identifier)
    (a : Archive) (s : σ) : ∃ before files u, host.Writes files s u ∧
      List.Forall₂ (ArchiveEntry.GoesTo root i)
        (before.filter fun e => (supportName? e.name i).isSome) files ∧
      match (injectArchive (host.output root) i a).run s with
      | (.ok _, t) => a.entries.filter ArchiveEntry.isClass = before ∧ t = u
      | (.error cause, t) =>
        (∃ failing after, a.entries.filter ArchiveEntry.isClass = before ++ failing :: after ∧
          failing.Ends (host.output root) i u cause t ∧ (t = u ∨ ∃ file fault,
            failing.GoesTo root i file ∧ host.write file.1 file.2 u = (.error fault, t))) ∨
        a.entries.filter ArchiveEntry.isClass = before ∧ cause = .archive .entry ∧ t = u := by
  obtain ⟨result, t, run⟩ : ∃ result t, (injectArchive (host.output root) i a).run s =
    (result, t) := ⟨_, _, rfl⟩
  rw [run]
  -- How the run has ended tells which classes were placed, and each of these has its file.
  cases result with
  | ok names =>
    obtain ⟨copies, -, stores, placed⟩ := injectArchive_ok run
    obtain ⟨files, writes, goTo⟩ := writes_of_stores placed stores
    exact ⟨_, files, t, writes, goTo, rfl, rfl⟩
  | error cause =>
    obtain ⟨before, copies, u, stores, copied, stop⟩ := injectArchive_ends run
    obtain ⟨files, writes, goTo⟩ := writes_of_stores copied.placed stores
    refine ⟨before, files, u, writes, goTo, ?_⟩
    rcases stop with ⟨failing, after, split, ends⟩ | ⟨all, -, fault, same⟩
    · exact .inl ⟨failing, after, split, ends, ends.refused_file⟩
    · exact .inr ⟨all, fault, same⟩

end ClassWeave
