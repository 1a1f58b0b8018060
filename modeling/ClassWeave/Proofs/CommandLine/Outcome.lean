import ClassWeave.Proofs.CommandLine.Stored

/-!
# What a run leaves behind

**Requests** (`Asked`, `Prepared`). The program is asked to transform an input into an output that
is empty or missing, without support classes.

**Main result** (`run_outcome`). A run in which no class file fails has status 0, and the output
holds the transformed classes and nothing else. Otherwise the status is 1, and the output holds what
comes of the class files before the first that fails.

**Names** (`run_not_in_place`). A class file with a backslash in its name is stored at another path,
and one whose name is nothing but the ending is refused.
-/

namespace ClassWeave

open FileTree

/-! ## The run of the program -/

/-- The input is at the place `q`, and the output leads to the place `p`, which is empty and not in
the input. The names in the input are file names, and no path is too long. -/
structure Prepared (whole : FileTree) (root target : Path) (q p : Place) : Prop where
  input : whole.follow false root .root = (true, q)
  output : whole.follow true target .root = (true, p)
  vacant : p.here = FileTree.empty
  /-- To make the directories that are missing on the way to the output does not change the input.
  -/
  kept : p.whole.get? q.way.names = some q.here
  outside : ¬ q.way.names <+: p.way.names
  wellNamed : q.here.WellNamed
  within : isWithin root
  reachable : ∀ path u, q.here.get? path = some u → isWithin (root.append path)
  storable : ∀ f ∈ classFiles q.here, isWithin (target.append (slashed f.1))
  noZero : ∀ part ∈ target, ¬ holdsZero part

/-- The program is asked for a transformation under an identifier and without support classes, and
the environment says nothing. -/
structure Asked (args : List String) (env : String → Option String) (o : TransformOptions)
    (i : Identifier) : Prop where
  command : Command.ofArguments? args = some (.transform o)
  noInject : o.noInject
  identifier : ∃ text, o.identifier = some text ∧ Identifier.ofString text = .ok i
  unset : ∀ key ∈ [Config.identifierVariable, Config.projectVariable, Config.injectVariable],
    env key = none

section

variable {o : TransformOptions} {i : Identifier} {env : String → Option String} {args : List String}
  {whole : FileTree} {q p : Place}

def Prepared.layout {root target : Path} (h : Prepared whole root target q p) : Layout where
  root := root
  source := q.way.names
  input := q.here
  target := target
  place := p.way.names
  wellNamed := h.wellNamed
  outside := h.outside
  beside := by
    -- The input would be in the output, which is empty.
    rintro ⟨rest, eq⟩
    have there := h.kept
    rw [← eq, get?_append, p.get?_whole, Option.bind_some, h.vacant] at there
    cases rest with
    | nil => exact h.outside (by simp [← eq])
    | cons name rest => cases there
  within := h.within
  reachable := h.reachable
  noZero := h.noZero

theorem Prepared.stage {root target : Path} (h : Prepared whole root target q p) :
    Stage h.layout [] whole p :=
  Stage.start h.input rfl rfl h.output rfl h.vacant h.kept

theorem Asked.context_eq (asked : Asked args env o i) :
    (o.config env).bind (·.context entropy) = .ok ⟨i, false⟩ := by
  obtain ⟨text, identifier, valid⟩ := asked.identifier
  have noIdentifier := asked.unset _ (List.mem_cons_self)
  have noProject := asked.unset Config.projectVariable (by simp)
  have noFlag := asked.unset Config.injectVariable (by simp)
  simp [TransformOptions.config, Config.ofEnvironment, Config.context, noIdentifier, noProject,
    noFlag, identifier, valid, asked.noInject, bind, Except.bind, pure, Except.pure]

theorem transformDirectory_run {host : Host (StateM FileTree)} {k : Context}
    (h : k.inject = false) : transformDirectory host o k =
      host.walk (.ofString o.input) (.walk o.input) (transformFile host o k) := by
  have none (out : Output (StateM FileTree)) : addSupportClasses out k = pure [] := by
    simp [addSupportClasses, h]
  rw [transformDirectory, none]
  exact bind_pure_unit

theorem exactly_of_stage {l : Layout} {done stored : List (Path × Bytes)}
    (h : Stage l stored whole p) (same : List.Forall₂ (StoredAs i) done stored) :
    Exactly i done (contentAt l.place whole) := by
  rw [h.content]
  refine ⟨nodup_files h.wellNamed, stored, same, fun path data => ?_, h.holds.directory⟩
  rw [mem_files_iff h.wellNamed, ← h.holds.file]
  simp

/-- A run takes the class files of the input in their order. -/
theorem run_eq (entropy : Nat) (asked : Asked args env o i)
    (prepared : Prepared whole (.ofString o.input) (.ofString o.output) q p) :
    (run FileTree.host env entropy args).run whole =
      match ((classFiles q.here).forM fun f =>
          transformFile FileTree.host o ⟨i, false⟩ f.1).run whole with
      | (.ok (), after) => (⟨0, "", ""⟩, after)
      | (.error e, after) => (e.report, after) := by
  have walk : (FileTree.host.walk (.ofString o.input) (.walk o.input)
      (transformFile FileTree.host o ⟨i, false⟩)).run whole =
        ((classFiles q.here).forM fun f =>
          transformFile FileTree.host o ⟨i, false⟩ f.1).run whole :=
    walk_transformFile (l := prepared.layout) rfl rfl prepared.storable prepared.stage
  rw [run, asked.command]
  simp only
  rw [runTransform, asked.context_eq]
  simp only
  rw [transformDirectory_run rfl]
  show (ExceptT.run _ >>= fun _ => _ : StateM FileTree Report) whole = _
  rw [stateM_bind_run, walk]
  generalize (((classFiles q.here).forM fun f => transformFile FileTree.host o ⟨i, false⟩ f.1).run
    whole : Except RunError Unit × FileTree) = result
  obtain ⟨_ | _, after⟩ := result <;> rfl

/-- A run in which no class file fails. -/
theorem run_of_succeeds (entropy : Nat) (asked : Asked args env o i)
    (prepared : Prepared whole (.ofString o.input) (.ofString o.output) q p)
    (good : Succeeds i (classFiles q.here)) :
    ∃ after, (run FileTree.host env entropy args).run whole = (⟨0, "", ""⟩, after) ∧
      Exactly i (classFiles q.here) (contentAt p.way.names after) := by
  obtain ⟨stored, after, q', ran, stage, same⟩ :=
    forM_stores (l := prepared.layout) (k := ⟨i, false⟩) (o := o) rfl rfl prepared.storable
      prepared.stage .nil (classFiles q.here) (fun f hf => hf) good
  have final : ((classFiles q.here).forM fun f =>
      transformFile FileTree.host o ⟨i, false⟩ f.1).run whole = (.ok (), after) := ran
  refine ⟨after, ?_, exactly_of_stage stage same⟩
  rw [run_eq entropy asked prepared, final]

/-- A run ends at the first class file that fails. -/
theorem run_of_fails (entropy : Nat) (asked : Asked args env o i)
    (prepared : Prepared whole (.ofString o.input) (.ofString o.output) q p)
    {before after : List (Path × Bytes)} {f : Path × Bytes}
    (eq : classFiles q.here = before ++ f :: after) (good : Succeeds i before)
    (bad : Fails i before f) :
    ∃ e last, (run FileTree.host env entropy args).run whole = (RunError.report e, last) ∧
      Exactly i before (contentAt p.way.names last) := by
  obtain ⟨stored, next, q', ran, stage, same⟩ :=
    forM_stores (l := prepared.layout) (k := ⟨i, false⟩) (o := o) rfl rfl prepared.storable
      prepared.stage .nil before (fun g hg => by simp [Prepared.layout, eq, hg]) good
  have mem : f ∈ classFiles q.here := by simp [eq]
  obtain ⟨hf, isClass⟩ := (mem_classFiles_iff prepared.wellNamed).1 mem
  obtain ⟨e, last, q'', failed, stage'⟩ := transformFile_fails (l := prepared.layout)
    (k := ⟨i, false⟩) (o := o) rfl rfl stage same hf isClass (prepared.storable f mem) bad
  have final : ((classFiles q.here).forM fun f =>
      transformFile FileTree.host o ⟨i, false⟩ f.1).run whole = (.error e, last) := by
    rw [eq, exceptT_forM_append]
    exact exceptT_bind_eq_error_iff.2
      (.inr ⟨(), next, ran, exceptT_bind_eq_error_iff.2 (.inl failed)⟩)
  refine ⟨e, last, ?_, exactly_of_stage stage' same⟩
  rw [run_eq entropy asked prepared, final]

end

/-! ## Runs on small inputs -/

/-- A class with a name and nothing else. -/
def smallClass : Bytes :=
  [0xCA, 0xFE, 0xBA, 0xBE, 0, 0, 0, 52, 0, 3, 1, 0, 3, 112, 47, 75, 7, 0, 1, 0, 0x21, 0, 2, 0, 0,
    0, 0, 0, 0, 0, 0, 0, 0]

theorem transformBytes_smallClass : transformBytes ⟨"a"⟩ smallClass [] = .ok smallClass [] := rfl

/-- A tree with an input that has these entries. -/
def inputTree (entries : List (String × FileTree)) : FileTree :=
  .directory [("in", .directory entries)]

/-- The request to transform the input into an output that is missing. -/
def smallArguments : List String :=
  ["transform", "in", "-o", "out", "--no-inject", "--identifier", "a"]

def smallOptions : TransformOptions := ⟨"in", "out", some "a", none, true, false⟩

def smallRun (entries : List (String × FileTree)) : Report × FileTree :=
  (run FileTree.host (fun _ => none) 0 smallArguments).run (inputTree entries)

/-- The place of the input. -/
def smallInput (entries : List (String × FileTree)) : Place :=
  ⟨.directory entries, .step .root [("in", .directory entries)] "in"⟩

/-- The place of the output, which is missing. -/
def smallOutput (entries : List (String × FileTree)) : Place :=
  ⟨.empty, .step .root [("in", .directory entries)] "out"⟩

/-- The run on these entries is prepared. -/
def SmallPrepared (entries : List (String × FileTree)) : Prop :=
  Prepared (inputTree entries) (.ofString smallOptions.input) (.ofString smallOptions.output)
    (smallInput entries) (smallOutput entries)

theorem asked_small : Asked smallArguments (fun _ => none) smallOptions ⟨"a"⟩ :=
  ⟨by decide +kernel, rfl, ⟨"a", rfl, if_pos (by decide +kernel)⟩, fun _ _ => rfl⟩

theorem prepared_of_files {entries : List (String × FileTree)} (h : Entries entries)
    (files : ∀ e ∈ entries, ∃ data, e.2 = .file data) (short : ∀ e ∈ entries, isWithin ["in", e.1])
    (storable : ∀ f ∈ classFiles (.directory entries),
      isWithin (Path.append ["out"] (slashed f.1))) : SmallPrepared entries := by
  have root : Path.ofString smallOptions.input = ["in"] := by decide
  have target : Path.ofString smallOptions.output = ["out"] := by decide
  rw [SmallPrepared, root, target]
  exact {
    input := rfl
    output := rfl
    vacant := rfl
    kept := rfl
    outside := by
      show ¬ ["in"] <+: ["out"]
      decide
    wellNamed := by
      refine wellNamed_directory h fun e he => ?_
      obtain ⟨data, eq⟩ := files e he
      exact eq ▸ wellNamed_file
    within := by decide
    reachable := by
      intro path u found
      cases path with
      | nil => decide
      | cons name rest =>
        obtain ⟨v, hv, there⟩ := Option.bind_eq_some_iff.1 found
        have he := mem_of_lookup hv
        obtain ⟨data, rfl⟩ := files _ he
        -- All entries are files, so that nothing is below them.
        cases rest with
        | nil => exact short _ he
        | cons next rest => cases there
    storable := storable
    noZero := by simp [holdsZero] }

theorem succeeds_singleton {i : Identifier} {f : Path × Bytes} (h : ¬ Fails i [] f) :
    Succeeds i [f] := by
  intro before g after eq
  cases before with
  | nil =>
    cases eq
    exact h
  | cons first before => simp at eq

theorem not_fails_nil {i : Identifier} {f : Path × Bytes} {new : Bytes} {reports : List Diagnostic}
    (transformed : transformBytes i f.2 [] = .ok new reports) (proper : ¬ Misnamed f.1) :
    ¬ Fails i [] f := by
  intro bad
  cases bad with
  | transform e reports failed => cases failed.symm.trans transformed
  | name misnamed => exact proper misnamed
  | place g hg blocks => cases hg

theorem small_stored : Succeeds ⟨"a"⟩ [(["a.class"], smallClass)] := by
  refine succeeds_singleton (not_fails_nil transformBytes_smallClass ?_)
  have read : slashed ["a.class"] = [] ++ ["a.class"] := by decide +kernel
  rw [misnamed_iff read]
  decide

def twoFiles : List (String × FileTree) := [("a.class", .file smallClass), ("b.class", .file [])]

theorem classFiles_twoFiles : classFiles (.directory twoFiles) =
    [(["a.class"], smallClass), (["b.class"], [])] := by
  have listed : (FileTree.directory twoFiles).files [] =
      [(["a.class"], smallClass), (["b.class"], [])] := rfl
  have less : ["a.class"] < ["b.class"] := List.cons_lt_cons_iff.2 (.inl (by decide))
  rw [classFiles, listed, List.mergeSort_of_pairwise (by simpa using less.le)]
  decide

theorem prepared_twoFiles : SmallPrepared twoFiles := by
  refine prepared_of_files ⟨by decide, ?_⟩ ?_ ?_ ?_
  · intro e he
    simp only [twoFiles, List.mem_cons, List.not_mem_nil, or_false] at he
    rcases he with rfl | rfl <;> constructor <;> decide
  · simp [twoFiles]
  · simp only [twoFiles, List.forall_mem_cons]
    decide
  · rw [classFiles_twoFiles]
    decide +kernel

theorem prepared_single (name : String) (isName : IsFileName name) (isClass : isClassFile [name])
    (short : isWithin ["in", name]) (short' : isWithin (Path.append ["out"] (slashed [name]))) :
    classFiles (.directory [(name, .file smallClass)]) = [([name], smallClass)] ∧
    SmallPrepared [(name, .file smallClass)] := by
  have only : classFiles (.directory [(name, .file smallClass)]) = [([name], smallClass)] := by
    simp [classFiles, files, filesBelow_eq, isClass]
  refine ⟨only, prepared_of_files ⟨by simp, by simpa using isName⟩ (by simp) ?_ ?_⟩
  · simpa using short
  · simpa [only] using short'

/-! ## The main result -/

section

variable {o : TransformOptions} {i : Identifier} {env : String → Option String} {args : List String}
  {whole : FileTree} {q p : Place}

/-- **What a run leaves behind.** The class files are taken in the order of a walk. If none of them
fails, the run has status 0 and the output holds exactly what is stored for them. Otherwise the
status is 1, and the output holds exactly what is stored for those before the first that fails.
Among plain paths only a class that cannot be transformed fails, and each path is stored as it is.
-/
theorem run_outcome (entropy : Nat) (asked : Asked args env o i)
    (prepared : Prepared whole (.ofString o.input) (.ofString o.output) q p) :
    (Succeeds i (classFiles q.here) →
      ((run FileTree.host env entropy args).run whole).1.status = 0 ∧
      Exactly i (classFiles q.here)
        (contentAt p.way.names ((run FileTree.host env entropy args).run whole).2)) ∧
    (∀ before f after, classFiles q.here = before ++ f :: after → Succeeds i before →
      Fails i before f →
      ((run FileTree.host env entropy args).run whole).1.status = 1 ∧
      Exactly i before
        (contentAt p.way.names ((run FileTree.host env entropy args).run whole).2)) ∧
    ((classFiles q.here).map Prod.fst).Nodup ∧
    ((∀ f ∈ classFiles q.here, Plain f.1) →
      ∀ before f after, classFiles q.here = before ++ f :: after → slashed f.1 = f.1 ∧
        (Fails i before f ↔ ∃ e reports, transformBytes i f.2 [] = .error e reports)) := by
  refine ⟨fun good => ?_, fun before f after eq good bad => ?_,
    nodup_classFiles prepared.wellNamed, ?_⟩
  · obtain ⟨after, ran, exactly⟩ := run_of_succeeds entropy asked prepared good
    rw [ran]
    exact ⟨rfl, exactly⟩
  · obtain ⟨e, last, ran, exactly⟩ := run_of_fails entropy asked prepared eq good bad
    rw [ran]
    exact ⟨rfl, exactly⟩
  · intro plain before f after eq
    have mem : f ∈ classFiles q.here := by simp [eq]
    have found := ((mem_classFiles_iff prepared.wellNamed).1 mem).1
    exact ⟨(plain f mem).slashed_eq (prepared.wellNamed.isFileName found),
      fails_iff_of_plain prepared.wellNamed plain eq⟩

end

/-- A class is stored; with an empty file behind it the run fails, and the class is still stored. -/
theorem run_outcome_small :
    ((smallRun [("a.class", .file smallClass)]).1.status = 0 ∧
      Exactly ⟨"a"⟩ [(["a.class"], smallClass)]
        (contentAt ["out"] (smallRun [("a.class", .file smallClass)]).2)) ∧
    (smallRun twoFiles).1.status = 1 ∧
      Exactly ⟨"a"⟩ [(["a.class"], smallClass)] (contentAt ["out"] (smallRun twoFiles).2) := by
  obtain ⟨only, prepared⟩ := prepared_single "a.class" (by constructor <;> decide) (by decide)
    (by decide) (by decide +kernel)
  constructor
  · have outcome := (run_outcome 0 asked_small prepared).1 (only.symm ▸ small_stored)
    rwa [show classFiles (smallInput _).here = _ from only] at outcome
  · exact (run_outcome 0 asked_small prepared_twoFiles).2.1 _ _ [] classFiles_twoFiles small_stored
      (.transform _ [] rfl)

/-- A class file is not always stored at its own path: a backslash in its name counts as a slash.
And a class that could be transformed is refused if the name of its file is nothing but the ending.
-/
theorem run_not_in_place :
    Asked smallArguments (fun _ => none) smallOptions ⟨"a"⟩ ∧
    transformBytes ⟨"a"⟩ smallClass [] = .ok smallClass [] ∧
    (∀ name ∈ ["a\\b.class", ".class"], SmallPrepared [(name, .file smallClass)] ∧
      classFiles (.directory [(name, .file smallClass)]) = [([name], smallClass)]) ∧
    ((smallRun [("a\\b.class", .file smallClass)]).1.status = 0 ∧ (["a\\b.class"], smallClass) ∉
      (contentAt ["out"] (smallRun [("a\\b.class", .file smallClass)]).2).files []) ∧
    (smallRun [(".class", .file smallClass)]).1.status = 1 := by
  obtain ⟨only, prepared⟩ := prepared_single "a\\b.class" (by constructor <;> decide)
    (by decide) (by decide) (by decide +kernel)
  obtain ⟨only', prepared'⟩ := prepared_single ".class" (by constructor <;> decide) (by decide)
    (by decide) (by decide +kernel)
  refine ⟨asked_small, transformBytes_smallClass, ?_, ?_, by decide +kernel⟩
  · rw [List.forall_mem_cons, List.forall_mem_singleton]
    exact ⟨⟨prepared, only⟩, prepared', only'⟩
  · have read : slashed ["a\\b.class"] = ["a"] ++ ["b.class"] := by decide +kernel
    have good : Succeeds ⟨"a"⟩ [(["a\\b.class"], smallClass)] := by
      refine succeeds_singleton (not_fails_nil transformBytes_smallClass ?_)
      rw [misnamed_iff read]
      decide
    obtain ⟨after, ran, -, stored, same, holds, -⟩ :=
      run_of_succeeds 0 asked_small prepared (only.symm ▸ good)
    rw [smallRun, ran]
    refine ⟨rfl, fun there => ?_⟩
    -- The output holds a single file, whose path has the slash.
    have last := (holds _ _).1 there
    rw [show classFiles (smallInput _).here = _ from only] at same
    obtain ⟨⟨path, data⟩, rest, at_path, none, rfl⟩ := List.forall₂_cons_left_iff.1 same
    obtain rfl := List.forall₂_nil_left_iff.1 none
    obtain rfl : path = ["a", "b.class"] := at_path.path.trans read
    simp [lookup_cons_eq] at last

end ClassWeave
