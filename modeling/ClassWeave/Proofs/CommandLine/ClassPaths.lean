import ClassWeave.CommandLine.Run
import ClassWeave.Proofs.CommandLine.Written
import ClassWeave.Proofs.Support.Linked
import Mathlib.Data.String.Basic

/-!
# Paths of class files

The internal name of a class is made from the path of its file, and the path that it is stored at is
made from the name.

**Backslashes** (`slashed`). A backslash in the name of a file counts as a slash. The class is
stored at the path that is read so (`exists_named`, `Named.classPath?_eq_ok`).

**Misnamed files** (`Misnamed`). No class is stored for a path with a part that is blank, `.` or
`..`, where the ending of the last part does not count.

**Outputs in directories** (`output_add`). A class that has a path is written to it by the host, and
the host is not asked for any other class.
-/

namespace ClassWeave

open FileTree (IsFileName)

/-! ## Texts of paths -/

theorem text_segments (s : String) : Path.text (segments s) = s := by
  have same : String.toList ∘ String.ofList = id := by
    funext cs
    simp
  rw [← String.toList_inj, Path.text, String.toList_intercalate, segments, List.map_map, same,
    List.map_id]
  exact List.intercalate_splitOn '/'

theorem segments_text {p : Path} (some : p ≠ []) (h : ∀ part ∈ p, '/' ∉ part.toList) :
    segments p.text = p := by
  have cut := @List.splitOn_intercalate _ (p.map String.toList) _ _ '/' (by simpa using h)
    (by simpa using some)
  rw [segments, Path.text, String.toList_intercalate, show "/".toList = ['/'] from rfl, cut,
    List.map_map]
  simp

theorem text_cons (part : String) {rest : Path} (some : rest ≠ []) :
    Path.text (part :: rest) = part ++ "/" ++ Path.text rest :=
  String.intercalate_cons_of_ne_nil some

/-- What is behind the last part is behind the text. -/
theorem text_concat_append (front : Path) (name s : String) :
    Path.text (front ++ [name]) ++ s = Path.text (front ++ [name ++ s]) := by
  induction front with
  | nil => simp [Path.text]
  | cons part front ih =>
    rw [List.cons_append, text_cons part (by simp), String.append_assoc, ih, List.cons_append,
      text_cons part (by simp)]

/-- A part of a path stands in its text. -/
theorem exists_text_eq {p : Path} {part : String} (h : part ∈ p) :
    ∃ front back, p.text = front ++ part ++ back := by
  induction p with
  | nil => cases h
  | cons first rest ih =>
    by_cases last : rest = []
    · subst last
      obtain rfl := List.mem_singleton.1 h
      exact ⟨"", "", by simp [Path.text]⟩
    · rw [text_cons first last]
      rcases List.mem_cons.1 h with rfl | behind
      · exact ⟨"", "/" ++ Path.text rest, by simp [String.append_assoc]⟩
      · obtain ⟨front, back, eq⟩ := ih behind
        exact ⟨first ++ "/" ++ front, back, by rw [eq]; simp only [String.append_assoc]⟩

/-! ## Backslashes -/

/-- The path that has slashes for backslashes. -/
def slashed (p : Path) : Path := p.flatMap fun part => segments (entryName part)

theorem segments_entryName_text {p : Path} (some : p ≠ []) :
    segments (entryName p.text) = slashed p := by
  induction p with
  | nil => exact absurd rfl some
  | cons part rest ih =>
    by_cases last : rest = []
    · subst last
      simp [Path.text, slashed]
    · have slash : entryName "/" = "/" := entryName_of_notMem (by decide)
      rw [text_cons part last, entryName_append, entryName_append, slash, segments_slash, ih last]
      rfl

theorem entryName_text {p : Path} (some : p ≠ []) : entryName p.text = (slashed p).text := by
  rw [← segments_entryName_text some, text_segments]

theorem utf8ByteSize_entryName (s : String) : (entryName s).utf8ByteSize = s.utf8ByteSize := by
  have sizes (cs : List Char) :
      String.utf8Len (cs.map fun c => if c = '\\' then '/' else c) = String.utf8Len cs := by
    induction cs with
    | nil => rfl
    | cons c cs ih =>
      rw [List.map_cons, String.utf8Len_cons, String.utf8Len_cons, ih]
      split_ifs with backslash
      · rw [backslash]
        rfl
      · rfl
  rw [← String.ofList_toList (s := entryName s), entryName, String.toList_map,
    String.utf8ByteSize_ofList, sizes, ← String.utf8ByteSize_ofList, String.ofList_toList]

theorem exists_of_mem_entryName {s : String} {c : Char} (h : c ∈ (entryName s).toList) :
    c = '/' ∨ c ∈ s.toList := by
  rw [entryName, String.toList_map] at h
  obtain ⟨d, hd, eq⟩ := List.mem_map.1 h
  by_cases backslash : d = '\\'
  · rw [if_pos backslash] at eq
    exact .inl eq.symm
  · rw [if_neg backslash] at eq
    exact .inr (eq ▸ hd)

theorem backslash_notMem_entryName (s : String) : '\\' ∉ (entryName s).toList := by
  rw [entryName, String.toList_map]
  intro there
  obtain ⟨d, -, eq⟩ := List.mem_map.1 there
  by_cases backslash : d = '\\'
  · rw [if_pos backslash] at eq
    exact absurd eq (by decide)
  · rw [if_neg backslash] at eq
    exact backslash eq

/-- A part between the backslashes of a file name is a file name, if it can be one. -/
theorem isFileName_of_mem_segments {name part : String} (h : IsFileName name)
    (hpart : part ∈ segments (entryName name)) (proper : part ∉ ["", ".", ".."]) :
    IsFileName part := by
  obtain ⟨front, back, eq⟩ := exists_text_eq hpart
  rw [text_segments] at eq
  have other (dots : String) (mem : dots ∈ ["", ".", ".."]) : part ≠ dots :=
    fun same => proper (same ▸ mem)
  refine ⟨other "" (by simp), other "." (by simp), other ".." (by simp),
    notMem_of_mem_segments hpart, ?_, ?_⟩
  · intro zero
    have inside : '\x00' ∈ (entryName name).toList := by
      rw [eq, String.toList_append, String.toList_append]
      exact List.mem_append_left _ (List.mem_append_right _ zero)
    rcases exists_of_mem_entryName inside with slash | there
    · exact absurd slash (by decide)
    · exact h.noZero there
  · have size := utf8ByteSize_entryName name
    rw [eq, String.utf8ByteSize_append, String.utf8ByteSize_append] at size
    exact le_trans (by omega) h.short

/-! ## Class files -/

/-- The name of the file has the ending of class files. -/
def isClassFile (p : Path) : Bool :=
  p.getLast?.any fun name => classSuffix.toList.isSuffixOf name.toList

theorem dropSuffix?_eq_some_iff {suffix text stem : String} :
    dropSuffix? suffix text = some stem ↔ text = stem ++ suffix := by
  refine ⟨fun h => ?_, fun h => h ▸ dropSuffix?_append suffix stem⟩
  obtain ⟨rest, there, rfl⟩ := Option.map_eq_some_iff.1 h
  rw [List.isPrefixOf?_eq_some_iff_append_eq, ← List.reverse_inj] at there
  rw [← String.toList_inj, String.toList_append, String.toList_ofList]
  simpa using there.symm

/-- A text that has an ending without slashes has it behind its last slash. -/
theorem suffix_slash_iff {suffix front back : List Char} (h : '/' ∉ suffix) :
    suffix <:+ front ++ '/' :: back ↔ suffix <:+ back := by
  constructor
  · intro ends
    -- Either the ending is in what is behind the slash, or the slash is in the ending.
    rcases List.suffix_or_suffix_of_suffix ends (List.suffix_append front ('/' :: back)) with
      inside | ⟨more, eq⟩
    · rcases List.suffix_cons_iff.1 inside with eq | behind
      · exact absurd (by simp [eq]) h
      · exact behind
    · exact absurd (by simp [← eq]) h
  · intro ends
    exact (ends.trans (List.suffix_cons '/' back)).trans (List.suffix_append front _)

theorem suffix_entryName_iff {suffix : List Char} {s : String} (slash : '/' ∉ suffix)
    (backslash : '\\' ∉ suffix) : suffix <:+ (entryName s).toList ↔ suffix <:+ s.toList := by
  have plain {cs : List Char} (h : '\\' ∉ cs) :
      (cs.map fun c => if c = '\\' then '/' else c) = cs := by
    have same := congrArg String.toList (@entryName_of_notMem (String.ofList cs) (by simpa using h))
    simpa [entryName] using same
  rw [entryName, String.toList_map, List.suffix_map_iff]
  constructor
  · rintro ⟨cs, ends, rfl⟩
    -- A backslash in the ending would have become a slash.
    have none : '\\' ∉ cs := fun there => slash (List.mem_map.2 ⟨_, there, if_pos rfl⟩)
    rwa [plain none]
  · exact fun ends => ⟨suffix, ends, (plain backslash).symm⟩

/-- A path ends as its last part does. -/
theorem isClassFile_iff {p : Path} :
    isClassFile p ↔ ∃ stem, entryName p.text = stem ++ classSuffix := by
  have ends (s : String) : (∃ stem, s = stem ++ classSuffix) ↔ classSuffix.toList <:+ s.toList := by
    constructor
    · rintro ⟨stem, rfl⟩
      exact ⟨stem.toList, String.toList_append.symm⟩
    · rintro ⟨front, eq⟩
      exact ⟨String.ofList front, by rw [← String.toList_inj, ← eq]; simp⟩
  rw [ends, suffix_entryName_iff (by decide) (by decide), isClassFile]
  obtain rfl | ⟨front, name, rfl⟩ := List.eq_nil_or_concat p
  · exact iff_of_false (by simp) (by decide)
  · rw [List.concat_eq_append, List.getLast?_concat, Option.any_some, List.isSuffixOf_iff_suffix]
    -- More than one part means a slash in front of the last one, where the ending stops.
    by_cases only : front = []
    · subst only
      simp [Path.text]
    · have text : Path.text (front ++ [name]) = Path.text front ++ "/" ++ name := by
        rw [Path.text, String.intercalate_append_of_ne_nil only (by simp),
          String.intercalate_singleton]
        rfl
      rw [text, String.toList_append, String.toList_append, List.append_assoc]
      exact (suffix_slash_iff (by decide)).symm

theorem classNameOfPath?_eq_none {p : Path} (h : isClassFile p = false) :
    classNameOfPath? p = none := by
  by_contra some
  obtain ⟨stem, eq⟩ := Option.ne_none_iff_exists'.1 some
  have ends := isClassFile_iff.2 ⟨stem, dropSuffix?_eq_some_iff.1 eq⟩
  rw [h] at ends
  cases ends

/-- No class can be stored at the path: a part of it is blank, `.` or `..`, the ending apart. -/
def Misnamed (p : Path) : Prop :=
  ∃ names name, slashed p = names ++ [name] ∧
    ((∃ part ∈ names, part ∈ ["", ".", ".."]) ∨ name ∈ [".class", "..class", "...class"])

theorem misnamed_iff {p names : Path} {name : String} (read : slashed p = names ++ [name]) :
    Misnamed p ↔
      (∃ part ∈ names, part ∈ ["", ".", ".."]) ∨ name ∈ [".class", "..class", "...class"] := by
  constructor
  · rintro ⟨names', name', eq, bad⟩
    obtain ⟨rfl, last⟩ := List.append_inj' (read.symm.trans eq) rfl
    obtain rfl := List.singleton_inj.1 last
    exact bad
  · exact fun bad => ⟨names, name, read, bad⟩

/-- The name of a class, from the path of its file. -/
structure Named (p : Path) (stem : String) (names : Path) (simple : String) : Prop where
  className : classNameOfPath? p = some stem
  parts : segments stem = names ++ [simple]
  read : slashed p = names ++ [simple ++ classSuffix]
  text : stem ++ classSuffix = (slashed p).text

theorem exists_named {p : Path} (h : isClassFile p) :
    ∃ stem names simple, Named p stem names simple := by
  obtain ⟨stem, eq⟩ := isClassFile_iff.1 h
  have some : p ≠ [] := by
    rintro rfl
    cases h
  obtain ⟨names, simple, parts⟩ :=
    (List.eq_nil_or_concat (segments stem)).resolve_left (segments_ne_nil stem)
  rw [List.concat_eq_append] at parts
  -- The parts come from cutting at slashes and the ending has none, so that joining is undone.
  have noSlash : ∀ part ∈ names ++ [simple ++ classSuffix], '/' ∉ part.toList := by
    have inside {part : String} (hpart : part ∈ names ++ [simple]) : '/' ∉ part.toList :=
      notMem_of_mem_segments (parts ▸ hpart)
    intro part hpart
    rcases List.mem_append.1 hpart with above | last
    · exact inside (List.mem_append_left _ above)
    · obtain rfl := List.mem_singleton.1 last
      rw [String.toList_append, List.mem_append]
      rintro (here | ending)
      · exact inside (by simp) here
      · exact absurd ending (by decide)
  have read : slashed p = names ++ [simple ++ classSuffix] := by
    rw [← segments_entryName_text some, eq, ← text_segments stem, parts, text_concat_append,
      segments_text (by simp) noSlash]
  have text : stem ++ classSuffix = (slashed p).text := by rw [← eq, entryName_text some]
  exact ⟨stem, names, simple, dropSuffix?_eq_some_iff.2 eq, parts, read, text⟩

namespace Named

variable {p : Path} {stem simple : String} {names : Path}

theorem misnamed_iff (h : Named p stem names simple) :
    Misnamed p ↔ ∃ part ∈ names ++ [simple], part ∈ ["", ".", ".."] := by
  -- The ending makes the three last parts of the three that lead nowhere, or up.
  have ending : simple ++ classSuffix ∈ [".class", "..class", "...class"] ↔
      simple ∈ ["", ".", ".."] := by
    have cancel (dots : String) : simple ++ classSuffix = dots ++ classSuffix ↔ simple = dots := by
      rw [← String.toList_inj, String.toList_append, String.toList_append,
        List.append_cancel_right_eq, String.toList_inj]
    have first := cancel ""
    have second := cancel "."
    have third := cancel ".."
    simp only [List.mem_cons, List.not_mem_nil, or_false]
    exact or_congr first (or_congr second third)
  rw [ClassWeave.misnamed_iff h.read, ending]
  constructor
  · rintro (⟨part, hpart, dots⟩ | dots)
    · exact ⟨part, List.mem_append_left _ hpart, dots⟩
    · exact ⟨simple, by simp, dots⟩
  · rintro ⟨part, hpart, dots⟩
    rcases List.mem_append.1 hpart with above | last
    · exact .inl ⟨part, above, dots⟩
    · obtain rfl := List.mem_singleton.1 last
      exact .inr dots

theorem backslash_notMem (h : Named p stem names simple) : '\\' ∉ stem.toList := by
  intro there
  have eq := dropSuffix?_eq_some_iff.1 h.className
  refine backslash_notMem_entryName p.text ?_
  show '\\' ∈ (String.map _ p.text).toList
  rw [eq, String.toList_append]
  exact List.mem_append_left _ there

theorem accepted_iff (h : Named p stem names simple) :
    (!stem.toList.contains '\\' &&
      (segments stem).all fun s => s != "" && s != "." && s != "..") = true ↔ ¬ Misnamed p := by
  rw [h.misnamed_iff, h.parts, Bool.and_eq_true, List.all_eq_true]
  have none : (!stem.toList.contains '\\') = true := by simpa using h.backslash_notMem
  constructor
  · rintro ⟨-, proper⟩ ⟨part, hpart, dots⟩
    have ok := proper part hpart
    simp only [List.mem_cons, List.not_mem_nil, or_false] at dots
    rcases dots with rfl | rfl | rfl <;> simp at ok
  · intro proper
    refine ⟨none, fun part hpart => ?_⟩
    have ok : part ∉ ["", ".", ".."] := fun dots => proper ⟨part, hpart, dots⟩
    simpa [and_assoc] using ok

/-- A path that names a class badly is refused. -/
theorem classPath?_eq_error (h : Named p stem names simple) (bad : Misnamed p) :
    classPath? stem = .error (.invalidName stem) :=
  if_neg fun accepted => h.accepted_iff.1 accepted bad

/-- **Any other class is stored at its path**, with slashes for backslashes. -/
theorem classPath?_eq_ok (h : Named p stem names simple) (good : ¬ Misnamed p) :
    classPath? stem = .ok (slashed p).text := by
  rw [classPath?, if_pos (h.accepted_iff.2 good), h.text]

/-- The parts of the path that a class is stored at are file names. -/
theorem isFileName (h : Named p stem names simple) (parts : ∀ name ∈ p, IsFileName name)
    (good : ¬ Misnamed p) : ∀ part ∈ slashed p, IsFileName part := by
  intro part hpart
  obtain ⟨name, hname, inside⟩ := List.mem_flatMap.1 hpart
  refine isFileName_of_mem_segments (parts name hname) inside ?_
  rw [h.read] at hpart
  rcases List.mem_append.1 hpart with above | last
  · exact fun dots => good (h.misnamed_iff.2 ⟨part, List.mem_append_left _ above, dots⟩)
  · obtain rfl := List.mem_singleton.1 last
    intro dots
    have ends : 'c' ∈ (simple ++ classSuffix).toList := by
      rw [String.toList_append]
      exact List.mem_append_right _ (by decide)
    simp only [List.mem_cons, List.not_mem_nil, or_false] at dots
    rcases dots with dots | dots | dots <;> exact absurd (dots ▸ ends) (by decide)

/-- The path is read back from its text. -/
theorem ofString_text (h : Named p stem names simple) :
    Path.ofString (slashed p).text = slashed p := by
  have some : p ≠ [] := by
    rintro rfl
    exact absurd h.read (by simp [slashed])
  rw [← entryName_text some]
  exact segments_entryName_text some

end Named

/-! ## Outputs in directories -/

section

variable {σ : Type} {host : Host (StateM σ)} {directory : Path} {name : String} {data : Bytes}
  {s : σ}

/-- The output writes a class to the path for its name. -/
theorem output_add {path : String} (accepted : classPath? name = .ok path) :
    (host.output directory).add name data s =
      match host.write (directory.append (.ofString path)) data s with
      | (.ok (), t) => (.ok (), t)
      | (.error .zeroInPath, t) => (.error .zeroInPath, t)
      | (.error .refused, t) => (.error .file, t) := by
  simp only [Host.output, accepted]
  rw [stateM_bind_run]
  generalize host.write (directory.append (.ofString path)) data s = result
  obtain ⟨fault | _, t⟩ := result
  · cases fault <;> rfl
  · rfl

theorem output_add_of_invalid {e : OutputError} (invalid : classPath? name = .error e) :
    (host.output directory).add name data s = (.error e, s) := by
  simp only [Host.output, invalid]
  rfl

end

end ClassWeave
