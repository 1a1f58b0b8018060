import ClassWeave.Proofs.CommandLine.Places
import Mathlib.Data.List.TakeWhile

/-!
# Files that are read and written

**File names** (`FileTree.IsFileName`). A path of file names goes down only, so it leads from a
place to the place with these names behind.

**Reading** (`FileTree.find?_append`). What a path finds below a place is what is there.

**Writing** (`FileTree.write_eq`, `FileTree.write_refused`). A file is put at its place and the
directories on the way are made. It is refused when a file is in the way or a directory has its
name, and then nothing below the place has changed.
-/

namespace ClassWeave

namespace FileTree

variable {t u : FileTree} {entries : List (String × FileTree)} {name : String} {data : Bytes}
  {make : Bool} {here : FileTree} {way : Way} {p : Place}

/-- A name that a file can have. -/
structure IsFileName (name : String) : Prop where
  nonempty : name ≠ ""
  notHere : name ≠ "."
  notUp : name ≠ ".."
  noSlash : '/' ∉ name.toList
  noZero : '\x00' ∉ name.toList
  short : name.utf8ByteSize ≤ maxNameLength

theorem IsFileName.not_staysInPlace (h : IsFileName name) : ¬ Path.staysInPlace name := by
  simp [Path.staysInPlace, h.nonempty, h.notHere]

theorem IsFileName.not_holdsZero (h : IsFileName name) : ¬ holdsZero name := by
  simpa [holdsZero] using h.noZero

/-! ## Paths of file names -/

/-- File names lead down to what is there. -/
theorem locate_names {whole : FileTree} {names location : Path}
    (h : ∀ name ∈ names, IsFileName name) (found : whole.get? (location ++ names) = some u) :
    locate whole names location = some (location ++ names) := by
  induction names generalizing location with
  | nil => simp [locate]
  | cons name names ih =>
    obtain ⟨first, others⟩ := List.forall_mem_cons.1 h
    rw [List.append_cons] at found
    obtain ⟨v, hv, -⟩ := exists_get?_of_append found
    obtain ⟨entries, above, -⟩ := get?_snoc hv
    rw [locate_cons above, if_neg first.not_staysInPlace, if_neg first.notUp,
      if_neg (Nat.not_lt.2 first.short), hv, if_pos (Option.isSome_some), ih others found]
    simp

/-- Directories are made where file names lead nowhere, and what is put at the end is put at its
place. -/
theorem follow_names (way : Way) {names : Path} (h : ∀ name ∈ names, IsFileName name)
    (clear : here.Clear names) :
    ∃ p, follow true names here way = (true, p) ∧ p.here = (here.get? names).getD empty ∧
      ∀ u, p.way.whole u = way.whole (here.put names u) := by
  induction names generalizing here way with
  | nil => exact ⟨⟨here, way⟩, rfl, by simp, by simp⟩
  | cons name names ih =>
    obtain ⟨first, others⟩ := List.forall_mem_cons.1 h
    obtain ⟨entries, rfl⟩ := clear.exists_directory
    have behind := clear.tail
    rw [follow.eq_def]
    simp only [if_neg first.not_staysInPlace, if_neg first.notUp,
      if_neg (Nat.not_lt.2 first.short)]
    -- The directory is entered if it is there, and made if it is not.
    cases inside : entries.lookup name with
    | some t =>
      rw [inside, Option.getD_some] at behind
      obtain ⟨p, eq, hhere, hwhole⟩ := ih (way.step entries name) others behind
      refine ⟨p, eq, by simp [inside, hhere], fun u => ?_⟩
      rw [hwhole, put_directory_cons, inside, Option.getD_some]
      rfl
    | none =>
      rw [inside, Option.getD_none] at behind
      obtain ⟨p, eq, hhere, hwhole⟩ := ih (way.step entries name) others behind
      refine ⟨p, eq, by simp [inside, hhere, getD_get?_empty], fun u => ?_⟩
      rw [hwhole, put_directory_cons, inside, Option.getD_none]
      rfl

/-- File names are followed to what is there. -/
theorem follow_of_get? (way : Way) {names : Path} (h : ∀ name ∈ names, IsFileName name)
    (found : here.get? names = some u) :
    ∃ p, follow true names here way = (true, p) ∧ p.here = u ∧ p.whole = way.whole here := by
  obtain ⟨p, follows, hhere, hwhole⟩ := follow_names way h (clear_of_get? found)
  rw [found, Option.getD_some] at hhere
  refine ⟨p, follows, hhere, ?_⟩
  rw [Place.whole, hwhole, hhere, put_get? found]

/-- Parts that lead nowhere may be left out at the end. -/
theorem follow_of_stays {path stays : Path} (h : ∀ part ∈ stays, Path.staysInPlace part)
    (led : follow make (path ++ stays) here way = (true, p)) :
    follow make path here way = (true, p) := by
  have still {stays : Path} (h : ∀ part ∈ stays, Path.staysInPlace part) {here : FileTree}
      {way : Way} (led : follow make stays here way = (true, p)) : p = ⟨here, way⟩ := by
    induction stays with
    | nil =>
      cases led
      rfl
    | cons part stays ih =>
      obtain ⟨first, others⟩ := List.forall_mem_cons.1 h
      cases here with
      | file data => cases led
      | directory entries =>
        rw [follow.eq_def] at led
        simp only [if_pos first] at led
        exact ih others led
  -- The parts at the end have led nowhere, so that the first ones led to this place already.
  rw [follow_append] at led
  cases first : follow make path here way with
  | mk ok q =>
    rw [first] at led
    cases ok with
    | false => cases led
    | true => rw [still h led]

/-! ## Lengths -/

/-- The length of a path with a slash in front of each part. -/
def pathLength (path : Path) : Nat := path.foldl (fun n part => n + 1 + part.utf8ByteSize) 0

theorem pathLength_append (a b : Path) : pathLength (a ++ b) = pathLength a + pathLength b := by
  have shift (path : Path) (n : Nat) :
      path.foldl (fun n part => n + 1 + part.utf8ByteSize) n = n + pathLength path := by
    induction path generalizing n with
    | nil => rfl
    | cons part path ih =>
      rw [pathLength, List.foldl_cons, List.foldl_cons, ih, ih]
      omega
  rw [pathLength, List.foldl_append, shift]
  rfl

/-- A path is at least twice as long as it is deep. -/
theorem length_le_pathLength {path : Path} (h : ∀ part ∈ path, part ≠ "") :
    2 * path.length ≤ pathLength path := by
  induction path with
  | nil => simp
  | cons part path ih =>
    obtain ⟨first, others⟩ := List.forall_mem_cons.1 h
    have size : part.utf8ByteSize ≠ 0 := mt String.utf8ByteSize_eq_zero_iff.1 first
    have cut : pathLength (part :: path) = pathLength [part] + pathLength path :=
      pathLength_append [part] path
    have single : pathLength [part] = 0 + 1 + part.utf8ByteSize := rfl
    have rest := ih others
    rw [List.length_cons]
    omega

theorem isWithin_iff {path : Path} :
    isWithin path ↔ pathLength path ≤ maxPathLength + 1 ∧ path.head? ≠ some "" := by
  simp [isWithin, pathLength]

theorem isWithin_of_front {a b : Path} (h : isWithin (a ++ b)) : isWithin a := by
  rw [isWithin_iff, pathLength_append] at h
  rw [isWithin_iff]
  refine ⟨by omega, ?_⟩
  cases a with
  | nil => simp
  | cons part a => simpa using h.2

/-! ## Below a directory -/

/-- The parts of a directory in front of what is below it. -/
def stem (directory : Path) : Path :=
  if directory.getLast? = some "" then directory.dropLast else directory

theorem append_eq (directory below : Path) : directory.append below = stem directory ++ below := by
  unfold Path.append stem
  split_ifs <;> rfl

/-- A directory without its end is as good. -/
theorem exists_stem (directory : Path) :
    ∃ stays, directory = stem directory ++ stays ∧ ∀ part ∈ stays, Path.staysInPlace part := by
  unfold stem
  split_ifs with last
  · obtain ⟨front, rfl⟩ := List.getLast?_eq_some_iff.1 last
    exact ⟨[""], by simp, by simp [Path.staysInPlace]⟩
  · exact ⟨[], by simp, by simp⟩

theorem follow_stem {directory : Path} (led : follow make directory here way = (true, p)) :
    follow make (stem directory) here way = (true, p) := by
  obtain ⟨stays, eq, h⟩ := exists_stem directory
  rw [eq] at led
  exact follow_of_stays h led

theorem locate_stem {directory location : Path} (led : locate t directory [] = some location) :
    locate t (stem directory) [] = some location := by
  obtain ⟨p, follows, same, rfl⟩ := follow_of_locate false directory t .root led
  have found := locate_of_follow false (stem directory) t .root (follow_stem follows)
  rwa [same] at found

/-- What a path finds is what is at its place. -/
theorem find?_of_locate {path location : Path} (led : locate t path [] = some location)
    (within : isWithin path) : t.find? path = t.get? location := by
  obtain ⟨p, follows, same, rfl⟩ := follow_of_locate false path t .root led
  have what := p.get?_whole
  have tree : p.whole = t := same
  rw [tree] at what
  rw [find?, if_pos within, follows, what]

/-- **What is found below a place** is what is there. -/
theorem find?_append {directory location names : Path}
    (led : locate t directory [] = some location) (h : ∀ name ∈ names, IsFileName name)
    (within : isWithin (directory.append names)) (found : t.get? (location ++ names) = some u) :
    t.find? (directory.append names) = some u := by
  have below : locate t (directory.append names) [] = some (location ++ names) := by
    rw [append_eq, locate_append, locate_stem led]
    exact locate_names h found
  rw [find?_of_locate below within, found]

/-! ## Writing -/

/-- A path that is written to: file names below a directory. -/
structure Target (path directory names : Path) (name : String) : Prop where
  path_eq : path = directory.append (names ++ [name])
  names : ∀ part ∈ names, IsFileName part
  name : IsFileName name
  within : isWithin path
  noZero : ∀ part ∈ directory, ¬ holdsZero part

namespace Target

variable {path directory names : Path} {q : Place}

theorem eq_stem (h : Target path directory names name) :
    path = (stem directory ++ names) ++ [name] := by
  rw [h.path_eq, append_eq, List.append_assoc]

/-- The path of the directory that is followed: parts that lead nowhere are left out at its end, and
there are none behind a file name. -/
theorem exists_parent (h : Target path directory names name) :
    ∃ stays, stem directory ++ names =
        ((stem directory ++ names).reverse.dropWhile Path.staysInPlace).reverse ++ stays ∧
      (∀ part ∈ stays, Path.staysInPlace part) ∧ (names ≠ [] → stays = []) := by
  refine ⟨((stem directory ++ names).reverse.takeWhile Path.staysInPlace).reverse, ?_, ?_, ?_⟩
  · rw [← List.reverse_append, List.takeWhile_append_dropWhile, List.reverse_reverse]
  · intro part hpart
    exact List.mem_takeWhile_imp (List.mem_reverse.1 hpart)
  · intro some
    obtain rfl | ⟨front, last, rfl⟩ := List.eq_nil_or_concat names
    · exact absurd rfl some
    · have stops := (h.names last (by simp)).not_staysInPlace
      simp [stops]

theorem noZero_of_mem (h : Target path directory names name) {part : String}
    (hpart : part ∈ stem directory ++ names) : ¬ holdsZero part := by
  rcases List.mem_append.1 hpart with above | below
  · apply h.noZero
    obtain ⟨stays, eq, -⟩ := exists_stem directory
    rw [eq]
    exact List.mem_append_left _ above
  · exact (h.names part below).not_holdsZero

/-- Writing a file is following the path of its directory and writing it there. -/
theorem write_eq_writeHere (h : Target path directory names name)
    (led : follow true (stem directory ++ names) t .root = (true, q)) :
    write path data t = match writeHere name data q with
      | .error fault => (.error fault, q.whole)
      | .ok new => (.ok (), new) := by
  obtain ⟨stays, split, hstays, -⟩ := h.exists_parent
  have reversed : path.reverse = name :: (stem directory ++ names).reverse := by
    simp [h.eq_stem]
  have noZero :
      ((stem directory ++ names).reverse.dropWhile Path.staysInPlace).reverse.any holdsZero =
        false := by
    rw [List.any_eq_false]
    intro part hpart
    apply h.noZero_of_mem
    rw [split]
    exact List.mem_append_left _ hpart
  have within := h.within
  rw [h.eq_stem, split, List.append_assoc] at within
  rw [split] at led
  rw [write, reversed]
  simp only [noZero, isWithin_of_front within, follow_of_stays hstays led, h.within]
  rfl

/-- Nothing is written where the path of the directory does not lead to its end. -/
theorem write_eq_of_astray (h : Target path directory names name) (some : names ≠ [])
    (astray : follow true (stem directory ++ names) t .root = (false, q)) :
    write path data t = (.error .refused, q.whole) := by
  obtain ⟨stays, split, -, hstays⟩ := h.exists_parent
  rw [hstays some, List.append_nil] at split
  have reversed : path.reverse = name :: (stem directory ++ names).reverse := by
    simp [h.eq_stem]
  have noZero : (stem directory ++ names).any holdsZero = false := by
    rw [List.any_eq_false]
    exact fun part hpart => h.noZero_of_mem hpart
  have within := h.within
  rw [h.eq_stem] at within
  rw [write, reversed]
  simp only [← split, noZero, isWithin_of_front within, astray]
  rfl

end Target

/-- Nothing stands in the way of a file: no file in place of a directory and no directory of its
name. -/
structure Free (t : FileTree) (path : Path) : Prop where
  clear : t.Clear path
  noDirectory : ∀ entries, t.get? path ≠ some (directory entries)

/-- The way of a file is free when that of its directory is, and the directory is missing or can
take the file. -/
theorem free_snoc_iff {names : Path} : t.Free (names ++ [name]) ↔
    t.Clear names ∧ ∀ u, t.get? names = some u →
      ∃ entries, u = directory entries ∧ ∀ inner, entries.lookup name ≠ some (directory inner) := by
  constructor
  · intro free
    refine ⟨fun front next back eq => ?_, fun u found => ?_⟩
    · exact free.clear front next (back ++ [name]) (by simp [eq])
    · cases u with
      | file data => exact absurd found (free.clear names name [] rfl data)
      | directory entries =>
        refine ⟨entries, rfl, fun inner there => ?_⟩
        exact free.noDirectory inner (by simp [get?_append, found, there])
  · rintro ⟨clear, last⟩
    refine ⟨fun front next back eq data there => ?_, fun inner there => ?_⟩
    · -- A file on the way is at the directory itself, or above it.
      obtain rfl | ⟨back, final, rfl⟩ := List.eq_nil_or_concat back
      · obtain ⟨rfl, -⟩ := List.append_inj' eq rfl
        obtain ⟨entries, h, -⟩ := last _ there
        cases h
      · have eq' : names ++ [name] = (front ++ next :: back) ++ [final] := by simpa using eq
        obtain ⟨rfl, -⟩ := List.append_inj' eq' rfl
        exact clear front next back rfl data there
    · obtain ⟨entries, found, inside⟩ := get?_snoc there
      obtain ⟨entries', h, vacant⟩ := last _ found
      cases h
      exact vacant inner inside

section

variable {path directory names : Path}

/-- **A file is written** when nothing is in its way: it is put at its place. -/
theorem write_eq (h : Target path directory names name)
    (led : follow true directory t .root = (true, p)) (free : p.here.Free (names ++ [name])) :
    write path data t = (.ok (), p.way.whole (p.here.put (names ++ [name]) (file data))) := by
  obtain ⟨clear, last⟩ := free_snoc_iff.1 free
  obtain ⟨q, follows, hhere, hwhole⟩ := follow_names p.way h.names clear
  have led' : follow true (stem directory ++ names) t .root = (true, q) := by
    rw [follow_append, follow_stem led]
    exact follows
  -- Where the names lead there is a directory, or one has been made.
  obtain ⟨entries, hentries, vacant⟩ : ∃ entries, q.here = .directory entries ∧
      ∀ inner, entries.lookup name ≠ some (.directory inner) := by
    rw [hhere]
    cases found : p.here.get? names with
    | none => exact ⟨[], rfl, by simp⟩
    | some u => exact last u found
  have here : writeHere name data q =
      .ok (q.way.whole (.directory (replace name (file data) entries))) := by
    rw [writeHere, hentries]
    simp only [if_neg h.name.not_holdsZero, if_neg (Nat.not_lt.2 h.name.short)]
  have put : .directory (replace name (file data) entries) = q.here.put [name] (file data) := by
    simp [hentries]
  rw [h.write_eq_writeHere led', here, put, hwhole, hhere, ← put_append]

/-- **A file is refused** when something is in its way, and nothing changes below the directory. -/
theorem write_refused (h : Target path directory names name)
    (led : follow true directory t .root = (true, p)) (blocked : ¬ p.here.Free (names ++ [name])) :
    write path data t = (.error .refused, p.whole) := by
  by_cases clear : p.here.Clear names
  · -- The directory is there, and it is a file or has a directory of that name.
    obtain ⟨u, found, last⟩ : ∃ u, p.here.get? names = some u ∧
        ∀ entries, u = .directory entries →
          ∃ inner, entries.lookup name = some (.directory inner) := by
      by_contra none
      refine blocked (free_snoc_iff.2 ⟨clear, fun u found => ?_⟩)
      by_contra last
      refine none ⟨u, found, fun entries eq => ?_⟩
      by_contra vacant
      exact last ⟨entries, eq, fun inner there => vacant ⟨inner, there⟩⟩
    obtain ⟨q, follows, hhere, hwhole⟩ := follow_of_get? p.way h.names found
    have led' : follow true (stem directory ++ names) t .root = (true, q) := by
      rw [follow_append, follow_stem led]
      exact follows
    have refused : writeHere name data q = .error .refused := by
      rw [writeHere, hhere]
      cases u with
      | file data => rfl
      | directory entries =>
        obtain ⟨inner, there⟩ := last entries rfl
        simp only [if_neg h.name.not_holdsZero, if_neg (Nat.not_lt.2 h.name.short), there]
    rw [h.write_eq_writeHere led', refused, hwhole]
    rfl
  · -- A file stands on the way to the directory.
    obtain ⟨front, next, back, eq, data', there⟩ : ∃ front next back,
        names = front ++ next :: back ∧ ∃ data, p.here.get? front = some (file data) := by
      by_contra none
      exact clear fun front next back eq data there => none ⟨front, next, back, eq, data, there⟩
    subst eq
    obtain ⟨q, follows, hhere, hwhole⟩ := follow_of_get? p.way
      (fun part hpart => h.names part (List.mem_append_left _ hpart)) there
    have astray : follow true (stem directory ++ (front ++ next :: back)) t .root = (false, q) := by
      rw [follow_append, follow_stem led]
      simp only
      rw [follow_append, follows]
      simp only
      rw [hhere, follow, ← hhere]
    rw [h.write_eq_of_astray (by simp) astray, hwhole]
    rfl

end

end FileTree

end ClassWeave
