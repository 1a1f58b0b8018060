import ClassWeave.Proofs.CommandLine.ClassPaths
import ClassWeave.Proofs.CommandLine.Stages

/-!
# Class files one after the other

The class files of the input are taken in the order of their paths (`classFiles`). Each is
transformed and stored below the output.

**Failures** (`Fails`). A class file fails if its transformation does, if its path is no place for a
class, or if a class stored before is in its way. Among plain paths only the first can happen
(`fails_iff_of_plain`).

**Steps** (`transformFile_stores`, `transformFile_fails`). A class file that does not fail is stored
and leads to the next stage; one that fails leaves the stage as it is. So the class files before the
first that fails are all stored (`forM_stores`).
-/

namespace ClassWeave

open FileTree

/-- The class files of a tree in the order of a walk. -/
def classFiles (input : FileTree) : List (Path × Bytes) :=
  ((input.files []).mergeSort fun a b => a.1 ≤ b.1).filter fun f => isClassFile f.1

/-- Why a class file cannot be taken behind others. -/
inductive Fails (i : Identifier) (before : List (Path × Bytes)) (f : Path × Bytes) : Prop
  /-- The class cannot be transformed. -/
  | transform (e : Error) (reports : List Diagnostic) :
    transformBytes i f.2 [] = .error e reports → Fails i before f
  /-- A part of its path is blank, `.` or `..`, the ending apart. -/
  | name : Misnamed f.1 → Fails i before f
  /-- Its path goes through the path of another class file, or the other way. -/
  | place (g : Path × Bytes) : g ∈ before → Blocks (slashed g.1) (slashed f.1) → Fails i before f

/-- No class file of the list fails behind those before it. -/
def Succeeds (i : Identifier) (files : List (Path × Bytes)) : Prop :=
  ∀ before f after, files = before ++ f :: after → ¬ Fails i before f

/-- What is stored for a class file: the transformed class, at the path with slashes for
backslashes. -/
structure StoredAs (i : Identifier) (f g : Path × Bytes) : Prop where
  path : g.1 = slashed f.1
  data : ∃ reports, transformBytes i f.2 [] = .ok g.2 reports

/-- The output holds what is stored for the class files, of several classes with one path the last,
directories above them, and nothing else. -/
def Exactly (i : Identifier) (done : List (Path × Bytes)) (output : FileTree) : Prop :=
  ((output.files []).map Prod.fst).Nodup ∧ ∃ stored, List.Forall₂ (StoredAs i) done stored ∧
    (∀ path data, (path, data) ∈ output.files [] ↔ stored.reverse.lookup path = some data) ∧
    ∀ path, (∃ entries, output.get? path = some (.directory entries)) ↔
      path = [] ∨ ∃ g ∈ stored, ∃ name rest, g.1 = path ++ name :: rest

/-! ## One class file -/

section

variable {o : TransformOptions} {k : Context} {whole : FileTree} {path : Path}

theorem transformFile_skip (h : isClassFile path = false) :
    transformFile FileTree.host o k path = pure () := by
  rw [transformFile, classNameOfPath?_eq_none h]

variable {stem simple : String} {names : Path} {bs new : Bytes} {after : FileTree}

theorem host_write : FileTree.host.write = FileTree.write := rfl

theorem transformFile_run (h : Named path stem names simple)
    (read : whole.find? ((Path.ofString o.input).append path) = some (.file bs)) :
    (transformFile FileTree.host o k path).run whole = match transformBytes k.identifier bs [] with
      | .error e _ => (.error (.transform stem e), whole)
      | .ok new _ => match (FileTree.host.output (.ofString o.output)).add stem new whole with
        | (.ok (), t) => (.ok (), t)
        | (.error e, t) => (.error (.write stem e), t) := by
  rw [transformFile, h.className]
  simp only
  rw [exceptT_lift_bind_run, host_read read]
  simp only
  cases transformBytes k.identifier bs [] with
  | error e reports => rfl
  | ok new reports =>
    simp only
    rw [exceptT_lift_bind_run]
    generalize ((FileTree.host.output (.ofString o.output)).add stem new whole) = result
    obtain ⟨_ | _, t⟩ := result <;> rfl

/-- A class file stands in the way where what is stored for it does. -/
theorem blocked_iff {i : Identifier} {before stored : List (Path × Bytes)}
    (done : List.Forall₂ (StoredAs i) before stored) (path : Path) :
    (∃ g ∈ before, Blocks (slashed g.1) path) ↔ ∃ g ∈ stored, Blocks g.1 path := by
  constructor
  · rintro ⟨g, hg, blocks⟩
    obtain ⟨g', hg', same⟩ := exists_mem_of_forall₂ done g hg
    exact ⟨g', hg', same.path ▸ blocks⟩
  · rintro ⟨g', hg', blocks⟩
    obtain ⟨g, hg, same⟩ := exists_mem_of_forall₂ done.flip g' hg'
    exact ⟨g, hg, same.path ▸ blocks⟩

variable {l : Layout} {before stored : List (Path × Bytes)} {f : Path × Bytes} {p : Place}

theorem FileTree.Stage.find?_eq (h : Stage l stored whole p)
    (hf : l.input.get? f.1 = some (.file f.2)) (isClass : isClassFile f.1) :
    whole.find? (l.root.append f.1) = some (.file f.2) := by
  have there := h.reads f.1 _ hf
  have some : f.1.isEmpty = false := by
    cases eq : f.1 with
    | nil =>
      rw [eq] at isClass
      cases isClass
    | cons name rest => rfl
  rwa [some, if_neg (by simp)] at there

theorem Named.target (h : Named path stem names simple) (parts : ∀ name ∈ path, IsFileName name)
    (proper : ¬ Misnamed path) {directory : Path} (noZero : ∀ part ∈ directory, ¬ holdsZero part)
    (within : isWithin (directory.append (slashed path))) :
    Target (directory.append (slashed path)) directory names (simple ++ classSuffix) := by
  have isName := h.isFileName parts proper
  rw [h.read] at isName
  refine ⟨by rw [h.read], fun part hpart => ?_, isName _ (by simp), within, noZero⟩
  exact isName part (List.mem_append_left _ hpart)

/-- **A class file that does not fail** is stored. -/
theorem transformFile_stores (root : l.root = .ofString o.input)
    (target : l.target = .ofString o.output) (h : Stage l stored whole p)
    (done : List.Forall₂ (StoredAs k.identifier) before stored)
    (hf : l.input.get? f.1 = some (.file f.2)) (isClass : isClassFile f.1)
    (within : isWithin (l.target.append (slashed f.1))) (good : ¬ Fails k.identifier before f) :
    ∃ g after q, (transformFile FileTree.host o k f.1).run whole = (.ok (), after) ∧
      Stage l (stored ++ [g]) after q ∧ StoredAs k.identifier f g := by
  obtain ⟨stem, names, simple, named⟩ := exists_named isClass
  have read := h.find?_eq hf isClass
  have parts := l.wellNamed.isFileName hf
  have proper : ¬ Misnamed f.1 := fun bad => good (.name bad)
  cases transformed : transformBytes k.identifier f.2 [] with
  | error e reports => exact absurd (.transform e reports transformed) good
  | ok new reports =>
    -- What is in the way in the output was in the way among the class files before.
    have apart : ∀ g ∈ stored, ¬ Blocks g.1 (names ++ [simple ++ classSuffix]) := by
      rw [← named.read]
      intro g hg blocks
      obtain ⟨g', hg', blocks'⟩ := (blocked_iff done _).2 ⟨g, hg, blocks⟩
      exact good (.place g' hg' blocks')
    obtain ⟨after, q, written, stage⟩ := h.write new
      (named.target parts proper l.noZero within) apart
    refine ⟨(slashed f.1, new), after, q, ?_, ?_, rfl, reports, transformed⟩
    · rw [transformFile_run named (root ▸ read), transformed]
      simp only
      rw [output_add (named.classPath?_eq_ok proper), host_write, named.ofString_text, ← target,
        written]
    · rw [named.read]
      exact stage

/-- **A class file that fails** ends the run, and the stage remains. -/
theorem transformFile_fails (root : l.root = .ofString o.input)
    (target : l.target = .ofString o.output) (h : Stage l stored whole p)
    (done : List.Forall₂ (StoredAs k.identifier) before stored)
    (hf : l.input.get? f.1 = some (.file f.2)) (isClass : isClassFile f.1)
    (within : isWithin (l.target.append (slashed f.1))) (bad : Fails k.identifier before f) :
    ∃ e after q, (transformFile FileTree.host o k f.1).run whole = (.error e, after) ∧
      Stage l stored after q := by
  obtain ⟨stem, names, simple, named⟩ := exists_named isClass
  have read := h.find?_eq hf isClass
  have parts := l.wellNamed.isFileName hf
  rw [transformFile_run named (root ▸ read)]
  cases transformed : transformBytes k.identifier f.2 [] with
  | error e reports => exact ⟨_, whole, p, rfl, h⟩
  | ok new reports =>
    by_cases misnamed : Misnamed f.1
    · simp only
      rw [output_add_of_invalid (named.classPath?_eq_error misnamed)]
      exact ⟨_, whole, p, rfl, h⟩
    · -- Only a class that has been stored can be in the way.
      have blocked : ∃ g ∈ stored, Blocks g.1 (names ++ [simple ++ classSuffix]) := by
        rw [← named.read, ← blocked_iff done]
        cases bad with
        | transform e reports failed => cases failed.symm.trans transformed
        | name misnamed' => exact absurd misnamed' misnamed
        | place g hg blocks => exact ⟨g, hg, blocks⟩
      obtain ⟨after, q, refused, stage⟩ := h.refuse new
        (named.target parts misnamed l.noZero within) blocked
      simp only
      rw [output_add (named.classPath?_eq_ok misnamed), host_write, named.ofString_text, ← target,
        refused]
      exact ⟨_, after, q, rfl, stage⟩

end

/-! ## The class files of the input -/

section

variable {o : TransformOptions} {k : Context} {whole : FileTree} {l : Layout}
  {before stored : List (Path × Bytes)} {f : Path × Bytes} {p : Place}

theorem mem_classFiles_iff {input : FileTree} (h : input.WellNamed) :
    f ∈ classFiles input ↔ input.get? f.1 = some (.file f.2) ∧ isClassFile f.1 := by
  rw [classFiles, List.mem_filter, List.mem_mergeSort, mem_files_iff h]
  simp

/-- **Class files that do not fail** are stored, one after the other. -/
theorem forM_stores (root : l.root = .ofString o.input) (target : l.target = .ofString o.output)
    (storable : ∀ f ∈ classFiles l.input, isWithin (l.target.append (slashed f.1)))
    (h : Stage l stored whole p) (done : List.Forall₂ (StoredAs k.identifier) before stored)
    (files : List (Path × Bytes)) (mem : ∀ f ∈ files, f ∈ classFiles l.input)
    (good : ∀ front f back, files = front ++ f :: back → ¬ Fails k.identifier (before ++ front) f) :
    ∃ more after q, (files.forM fun f => transformFile FileTree.host o k f.1).run whole =
      (.ok (), after) ∧ Stage l (stored ++ more) after q ∧
        List.Forall₂ (StoredAs k.identifier) files more := by
  -- The stage is the invariant: each file starts from the one that the file before has left.
  induction files generalizing before stored whole p with
  | nil => exact ⟨[], whole, p, rfl, by simpa using h, .nil⟩
  | cons f files ih =>
    obtain ⟨first, others⟩ := List.forall_mem_cons.1 mem
    obtain ⟨hf, isClass⟩ := (mem_classFiles_iff l.wellNamed).1 first
    have fine : ¬ Fails k.identifier before f := by simpa using good [] f files rfl
    obtain ⟨g, next, q, ran, stage, same⟩ :=
      transformFile_stores root target h done hf isClass (storable f first) fine
    have done' := List.rel_append done (.cons same .nil)
    obtain ⟨more, after, q, rest, last, all⟩ := ih stage done' others fun front g back eq => by
      simpa using good (f :: front) g back (by rw [eq, List.cons_append])
    refine ⟨g :: more, after, q, ?_, by simpa using last, .cons same all⟩
    exact exceptT_bind_eq_ok_iff.2 ⟨(), next, ran, rest⟩

theorem forM_filter (files : List (Path × Bytes)) :
    (files.forM fun f => transformFile FileTree.host o k f.1) =
      (files.filter fun f => isClassFile f.1).forM fun f =>
        transformFile FileTree.host o k f.1 := by
  induction files with
  | nil => rfl
  | cons f files ih =>
    by_cases isClass : isClassFile f.1
    · rw [List.filter_cons, if_pos isClass]
      show (_ >>= fun _ => _) = (_ >>= fun _ => _)
      rw [ih]
    · rw [List.filter_cons, if_neg isClass, ← ih]
      show (transformFile FileTree.host o k f.1 >>= fun _ => _) = _
      rw [transformFile_skip (by simpa using isClass), pure_bind]

theorem FileTree.Layout.bound (l : Layout) : Within Host.maxDepth l.input := by
  intro location u found
  have within := isWithin_iff.1 (l.reachable location u found)
  rw [append_eq, pathLength_append] at within
  have parts := length_le_pathLength fun part hpart =>
    (l.wellNamed.isFileName found part hpart).nonempty
  have limit : maxPathLength = 4095 := rfl
  have depth : Host.maxDepth = 4096 := rfl
  omega

/-- The walk over the input takes the class files. -/
theorem walk_transformFile (root : l.root = .ofString o.input)
    (target : l.target = .ofString o.output)
    (storable : ∀ f ∈ classFiles l.input, isWithin (l.target.append (slashed f.1)))
    (h : Stage l [] whole p) {fault : RunError} :
    (FileTree.host.walk (.ofString o.input) fault (transformFile FileTree.host o k)).run whole =
      ((classFiles l.input).forM fun f => transformFile FileTree.host o k f.1).run whole := by
  rw [classFiles, ← forM_filter]
  -- A walk lists while it runs, so that each listing needs the input as it was: that it is at a
  -- stage is kept by every class file that is taken.
  refine walk_run (fun whole => ∃ before stored p, Stage l stored whole p ∧
    List.Forall₂ (StoredAs k.identifier) before stored) l.wellNamed ?_ ?_ l.bound
    ⟨[], [], p, h, .nil⟩
  · rintro whole ⟨before, stored, p, stage, -⟩
    rw [← root]
    exact stage.reads
  · rintro path data found s u ⟨before, stored, p, stage, done⟩ ran
    by_cases isClass : isClassFile path
    · have mem := (mem_classFiles_iff (f := (path, data)) l.wellNamed).2 ⟨found, isClass⟩
      by_cases bad : Fails k.identifier before (path, data)
      · obtain ⟨e, after, q, failed, -⟩ :=
          transformFile_fails root target stage done found isClass (storable _ mem) bad
        cases failed.symm.trans ran
      · obtain ⟨g, after, q, stored', stage', same⟩ :=
          transformFile_stores root target stage done found isClass (storable _ mem) bad
        cases stored'.symm.trans ran
        exact ⟨_, _, q, stage', List.rel_append done (.cons same .nil)⟩
    · rw [transformFile_skip (by simpa using isClass)] at ran
      cases ran
      exact ⟨before, stored, p, stage, done⟩

end

/-! ## Plain paths -/

/-- The path has no backslashes, and its last part is not an ending behind dots only. -/
structure Plain (p : Path) : Prop where
  noBackslash : ∀ part ∈ p, '\\' ∉ part.toList
  named : ∀ name ∈ p.getLast?, name ∉ [".class", "..class", "...class"]

/-- A plain path is read as it is. -/
theorem Plain.slashed_eq {p : Path} (h : Plain p) (parts : ∀ name ∈ p, IsFileName name) :
    slashed p = p := by
  have whole : ∀ part ∈ p, segments (entryName part) = [part] := by
    intro part hpart
    rw [entryName_of_notMem (h.noBackslash part hpart),
      segments_of_notMem (parts part hpart).noSlash]
  rw [slashed, List.flatMap_congr whole]
  simp

theorem Plain.not_misnamed {p : Path} (h : Plain p) (parts : ∀ name ∈ p, IsFileName name) :
    ¬ Misnamed p := by
  rintro ⟨names, name, eq, ⟨part, hpart, dots⟩ | dots⟩
  all_goals rw [h.slashed_eq parts] at eq; subst eq
  · have isName := parts part (List.mem_append_left _ hpart)
    simp [isName.nonempty, isName.notHere, isName.notUp] at dots
  · exact h.named name (by simp) dots

/-- No two files of a tree are in each other's way. -/
theorem not_blocks_of_get? {t : FileTree} {p q : Path} {a b : Bytes}
    (hp : t.get? p = some (.file a)) (hq : t.get? q = some (.file b)) : ¬ Blocks p q := by
  have above {p q : Path} {a : Bytes} {u : FileTree} (hp : t.get? p = some (.file a))
      (hq : t.get? q = some u) (inside : p <+: q) : p = q := by
    obtain ⟨rest, rfl⟩ := inside
    cases rest with
    | nil => simp
    | cons name rest => exact absurd hp (clear_of_get? hq p name rest rfl a)
  rintro ⟨other, inside | inside⟩
  · exact other (above hp hq inside)
  · exact other (above hq hp inside).symm

/-- Among plain paths a class file fails only if its class cannot be transformed. -/
theorem fails_iff_of_plain {i : Identifier} {input : FileTree} {before after : List (Path × Bytes)}
    {f : Path × Bytes} (h : input.WellNamed) (plain : ∀ f ∈ classFiles input, Plain f.1)
    (eq : classFiles input = before ++ f :: after) :
    Fails i before f ↔ ∃ e reports, transformBytes i f.2 [] = .error e reports := by
  have mem : f ∈ classFiles input := by simp [eq]
  have found := ((mem_classFiles_iff h).1 mem).1
  constructor
  · intro bad
    cases bad with
    | transform e reports failed => exact ⟨e, reports, failed⟩
    | name misnamed => exact absurd misnamed ((plain f mem).not_misnamed (h.isFileName found))
    | place g hg blocks =>
      have mem' : g ∈ classFiles input := by simp [eq, hg]
      have found' := ((mem_classFiles_iff h).1 mem').1
      rw [(plain f mem).slashed_eq (h.isFileName found),
        (plain g mem').slashed_eq (h.isFileName found')] at blocks
      exact absurd blocks (not_blocks_of_get? found' found)
  · rintro ⟨e, reports, failed⟩
    exact .transform e reports failed

theorem nodup_classFiles {input : FileTree} (h : input.WellNamed) :
    ((classFiles input).map Prod.fst).Nodup := by
  have perm := (List.mergeSort_perm (input.files []) fun a b => a.1 ≤ b.1).map Prod.fst
  have sorted := perm.nodup_iff.2 (nodup_files h)
  exact sorted.sublist (List.filter_sublist.map Prod.fst)

end ClassWeave
