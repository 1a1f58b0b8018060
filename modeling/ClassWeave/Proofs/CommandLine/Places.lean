import ClassWeave.CommandLine.FileTree
import Mathlib.Data.List.Basic
import Mathlib.Data.List.Infix

/-!
# Places in a file tree

**Looking and putting** (`FileTree.get?`, `FileTree.put`). A place is given by the names on the way
to it. What is put at a place is found there, what is elsewhere stays, and the directories on the
way are made.

**Following** (`FileTree.follow`). A path is followed with a *way* that remembers what has been
passed. The way is determined by the tree and the names on it (`Way.whole_eq_put`), so following a
path is the search for a place (`locate`), which later changes of the tree do not disturb as long as
nothing is taken away (`Grows`).
-/

namespace ClassWeave

namespace FileTree

variable {t u v whole : FileTree} {entries : List (String × FileTree)} {name other : String}
  {data : Bytes}

/-! ## Entries of a directory -/

theorem lookup_cons_eq {α β : Type} [BEq α] [LawfulBEq α] [DecidableEq α] (key : α) (value : β)
    (rest : List (α × β)) (other : α) : ((key, value) :: rest).lookup other =
      if other = key then some value else rest.lookup other := by
  by_cases same : other = key
  · simp [same]
  · simp [List.lookup_cons, same, beq_false_of_ne same]

theorem lookup_replace : (replace name t entries).lookup other =
    if other = name then some t else entries.lookup other := by
  induction entries with
  | nil => simp [replace, lookup_cons_eq]
  | cons e entries ih =>
    obtain ⟨key, u⟩ := e
    by_cases here : key = name
    · subst here
      by_cases same : other = key <;> simp [replace, lookup_cons_eq, same]
    · by_cases same : other = key
      · subst same
        simp [replace, here]
      · simp [replace, lookup_cons_eq, here, same, ih]

@[simp] theorem lookup_replace_self : (replace name t entries).lookup name = some t := by
  simp [lookup_replace]

theorem lookup_replace_of_ne (h : other ≠ name) :
    (replace name t entries).lookup other = entries.lookup other := by
  simp [lookup_replace, h]

@[simp] theorem replace_replace :
    replace name t (replace name u entries) = replace name t entries := by
  induction entries with
  | nil => simp [replace]
  | cons e entries ih => by_cases here : e.1 = name <;> simp [replace, here, ih]

theorem replace_of_lookup (h : entries.lookup name = some t) :
    replace name t entries = entries := by
  induction entries with
  | nil => simp at h
  | cons e entries ih =>
    obtain ⟨key, u⟩ := e
    by_cases here : key = name
    · subst here
      simp_all [replace]
    · have behind : entries.lookup name = some t := by
        rwa [lookup_cons_eq, if_neg (Ne.symm here)] at h
      simp [replace, here, ih behind]

/-! ## Looking -/

/-- What is at the end of some names, each in the directory before it. -/
def get? : FileTree → Path → Option FileTree
  | t, [] => some t
  | file _, _ :: _ => none
  | directory entries, name :: rest => (entries.lookup name).bind fun t => t.get? rest

@[simp] theorem get?_nil : t.get? [] = some t := by
  cases t <;> rfl

@[simp] theorem get?_file_cons {rest : Path} : (file data).get? (name :: rest) = none := rfl

@[simp] theorem get?_directory_cons {rest : Path} : (directory entries).get? (name :: rest) =
    (entries.lookup name).bind fun t => t.get? rest := rfl

theorem get?_append (t : FileTree) (p q : Path) :
    t.get? (p ++ q) = (t.get? p).bind fun u => u.get? q := by
  induction p generalizing t with
  | nil => simp
  | cons name p ih =>
    cases t with
    | file data => simp
    | directory entries => cases h : entries.lookup name <;> simp [h, ih]

/-- What is above something is a directory that has it. -/
theorem get?_snoc {p : Path} (h : t.get? (p ++ [name]) = some u) :
    ∃ entries, t.get? p = some (directory entries) ∧ entries.lookup name = some u := by
  rw [get?_append] at h
  obtain ⟨v, hv, h⟩ := Option.bind_eq_some_iff.1 h
  cases v with
  | file data => simp at h
  | directory entries => exact ⟨entries, hv, by simpa using h⟩

/-- There is something at every place above something. -/
theorem exists_get?_of_append {p q : Path} (h : t.get? (p ++ q) = some u) :
    ∃ v, t.get? p = some v ∧ v.get? q = some u := by
  rw [get?_append] at h
  exact Option.bind_eq_some_iff.1 h

/-! ## Putting -/

/-- The tree with another one at the end of some names; directories that are missing on the way are
made. -/
def put : FileTree → Path → FileTree → FileTree
  | _, [], new => new
  | file data, _ :: _, _ => file data
  | directory entries, name :: rest, new =>
    directory (replace name (((entries.lookup name).getD empty).put rest new) entries)

@[simp] theorem put_nil : t.put [] u = u := by
  cases t <;> rfl

@[simp] theorem put_directory_cons {rest : Path} : (directory entries).put (name :: rest) u =
    directory (replace name (((entries.lookup name).getD empty).put rest u) entries) := rfl

/-- No file stands on the way, so the place can be reached or made. -/
def Clear (t : FileTree) (p : Path) : Prop :=
  ∀ front name back, p = front ++ name :: back → ∀ data, t.get? front ≠ some (file data)

theorem Clear.exists_directory {rest : Path} (h : t.Clear (name :: rest)) :
    ∃ entries, t = directory entries := by
  cases t with
  | file data => exact absurd rfl (h [] name rest rfl data)
  | directory entries => exact ⟨entries, rfl⟩

/-- The way behind the first name is clear, too; what is missing counts as an empty directory. -/
theorem Clear.tail {rest : Path} (h : (directory entries).Clear (name :: rest)) :
    ((entries.lookup name).getD empty).Clear rest := by
  rintro front next back rfl data found
  cases inside : entries.lookup name with
  | none =>
    rw [inside, Option.getD_none, empty] at found
    cases front <;> simp at found
  | some u =>
    rw [inside, Option.getD_some] at found
    exact h (name :: front) next back rfl data (by simp [inside, found])

/-- What is put at a place is found there. -/
theorem get?_put_self {p : Path} (h : t.Clear p) (q : Path) :
    (t.put p u).get? (p ++ q) = u.get? q := by
  induction p generalizing t with
  | nil => simp
  | cons name p ih =>
    obtain ⟨entries, rfl⟩ := h.exists_directory
    simpa using ih h.tail

/-- Above the place there are directories. -/
theorem get?_put_above {p q : Path} (h : t.Clear (q ++ name :: p)) :
    ∃ entries, (t.put (q ++ name :: p) u).get? q = some (directory entries) := by
  have at_place := get?_put_self (u := u) h []
  rw [List.append_nil, get?_nil] at at_place
  obtain ⟨v, hv, behind⟩ := exists_get?_of_append at_place
  cases v with
  | file data => simp at behind
  | directory entries => exact ⟨entries, hv⟩

/-- What is neither above nor below the place stays. -/
theorem get?_put_of_apart {p q : Path} (below : ¬ p <+: q) (above : ¬ q <+: p) :
    (t.put p u).get? q = t.get? q := by
  induction p generalizing t q with
  | nil => exact absurd List.nil_prefix below
  | cons name p ih =>
    cases q with
    | nil => exact absurd List.nil_prefix above
    | cons other q =>
      cases t with
      | file data => rfl
      | directory entries =>
        rw [put_directory_cons, get?_directory_cons, get?_directory_cons]
        -- In the entry that is replaced the rests of the paths are apart as well.
        by_cases same : other = name
        · subst same
          rw [lookup_replace_self, Option.bind_some, ih]
          · cases entries.lookup other with
            | some t => rfl
            | none =>
              have nonempty : q ≠ [] := by
                rintro rfl
                exact above (by simp)
              obtain ⟨next, rest, rfl⟩ := List.exists_cons_of_ne_nil nonempty
              rfl
          · exact fun h => below (by simpa using h)
          · exact fun h => above (by simpa using h)
        · rw [lookup_replace_of_ne same]

theorem getD_get?_empty (p : Path) : (empty.get? p).getD empty = empty := by
  cases p <;> rfl

/-- Putting something below a place is putting the changed thing at the place. -/
theorem put_append (t : FileTree) (p q : Path) (u : FileTree) :
    t.put (p ++ q) u = t.put p (((t.get? p).getD empty).put q u) := by
  induction p generalizing t with
  | nil => simp
  | cons name p ih =>
    cases t with
    | file data => rfl
    | directory entries =>
      rw [List.cons_append, put_directory_cons, put_directory_cons, ih]
      cases inside : entries.lookup name with
      | none => simp [inside, getD_get?_empty]
      | some v => simp [inside]

/-- To put back what is there changes nothing. -/
theorem put_get? {p : Path} (h : t.get? p = some u) : t.put p u = t := by
  induction p generalizing t with
  | nil =>
    obtain rfl : t = u := by simpa using h
    simp
  | cons name p ih =>
    cases t with
    | file data => rfl
    | directory entries =>
      obtain ⟨w, hw, h⟩ := Option.bind_eq_some_iff.1 (get?_directory_cons.symm.trans h)
      simp [hw, ih h, replace_of_lookup hw]

/-! ## Growing -/

/-- All that is in the tree stays what it is, a file or a directory. -/
def Grows (t u : FileTree) : Prop :=
  ∀ p v, t.get? p = some v → ∃ w, u.get? p = some w ∧ w.kind = v.kind

theorem Grows.refl (t : FileTree) : Grows t t := fun _ v h => ⟨v, h, rfl⟩

theorem Grows.trans (h : Grows t u) (h' : Grows u v) : Grows t v := by
  intro p w hw
  obtain ⟨x, hx, kind⟩ := h p w hw
  obtain ⟨y, hy, kind'⟩ := h' p x hx
  exact ⟨y, hy, kind'.trans kind⟩

theorem grows_file {old new : Bytes} : Grows (file old) (file new) := by
  intro p v found
  cases p with
  | nil =>
    cases found
    exact ⟨file new, rfl, rfl⟩
  | cons name p => cases found

theorem Grows.directory {p : Path} (h : Grows t u) (found : t.get? p = some (directory entries)) :
    ∃ entries', u.get? p = some (directory entries') := by
  obtain ⟨v, hv, kind⟩ := h p _ found
  cases v with
  | file data => simp [FileTree.kind] at kind
  | directory entries' => exact ⟨entries', hv⟩

theorem Grows.isSome {p : Path} (h : Grows t u) (found : (t.get? p).isSome) :
    (u.get? p).isSome := by
  obtain ⟨v, hv⟩ := Option.isSome_iff_exists.1 found
  obtain ⟨w, hw, -⟩ := h p v hv
  simp [hw]

theorem clear_of_get? {p : Path} (h : t.get? p = some u) : t.Clear p := by
  rintro front name back rfl data found
  obtain ⟨v, hv, behind⟩ := exists_get?_of_append h
  rw [found] at hv
  obtain rfl := Option.some.inj hv
  simp at behind

/-- The tree grows when what is at a place grows, or when there was nothing. -/
theorem grows_put {p : Path} (clear : t.Clear p) (h : ∀ v, t.get? p = some v → Grows v u) :
    Grows t (t.put p u) := by
  intro q w hw
  by_cases below : p <+: q
  · obtain ⟨q, rfl⟩ := below
    obtain ⟨v, hv, inside⟩ := exists_get?_of_append hw
    rw [get?_put_self clear]
    exact h v hv q w inside
  · by_cases above : q <+: p
    · obtain ⟨rest, rfl⟩ := above
      cases rest with
      | nil => exact absurd (by simp) below
      | cons name rest =>
        obtain ⟨entries, made⟩ := get?_put_above (u := u) clear
        refine ⟨_, made, ?_⟩
        cases w with
        | file data => exact absurd hw (clear q name rest rfl data)
        | directory entries => rfl
    · exact ⟨w, by rwa [get?_put_of_apart below above], rfl⟩

/-! ## Ways -/

namespace Way

variable {way : Way}

/-- The names on the way from the root. -/
def names : Way → Path
  | root => []
  | step above _ name => above.names ++ [name]

theorem get?_whole (way : Way) (t : FileTree) : (way.whole t).get? way.names = some t := by
  induction way generalizing t with
  | root => simp [names, whole]
  | step above entries name ih => simp [names, whole, get?_append, ih]

/-- The tree around a place is determined by what is there and by the names on the way. -/
theorem whole_eq_put (way : Way) (t u : FileTree) :
    way.whole u = (way.whole t).put way.names u := by
  induction way generalizing t u with
  | root => simp [names, whole]
  | step above entries name ih =>
    show above.whole (directory (replace name u entries)) =
      (above.whole (directory (replace name t entries))).put (above.names ++ [name]) u
    rw [put_append, get?_whole, ← ih]
    simp

end Way

theorem Place.get?_whole (p : Place) : p.whole.get? p.way.names = some p.here :=
  p.way.get?_whole p.here

/-! ## Searching for a place -/

/-- The place that a path leads to from another one. -/
def locate (whole : FileTree) : Path → Path → Option Path
  | [], location => some location
  | part :: rest, location =>
    match whole.get? location with
    | some (directory _) =>
      if Path.staysInPlace part then locate whole rest location
      else if part = ".." then
        if location = [] then none else locate whole rest location.dropLast
      else if part.utf8ByteSize > maxNameLength then none
      else if (whole.get? (location ++ [part])).isSome then locate whole rest (location ++ [part])
      else none
    | _ => none

theorem locate_append (whole : FileTree) (a b location : Path) :
    locate whole (a ++ b) location = (locate whole a location).bind (locate whole b) := by
  induction a generalizing location with
  | nil => rfl
  | cons part a ih =>
    rw [List.cons_append, locate, locate]
    split
    · split_ifs <;> first | exact ih _ | rfl
    · rfl

/-- One step of the search, from a directory. -/
theorem locate_cons {part : String} {rest location : Path}
    (found : whole.get? location = some (directory entries)) :
    locate whole (part :: rest) location =
      if Path.staysInPlace part then locate whole rest location
      else if part = ".." then
        if location = [] then none else locate whole rest location.dropLast
      else if part.utf8ByteSize > maxNameLength then none
      else if (whole.get? (location ++ [part])).isSome then locate whole rest (location ++ [part])
      else none := by
  rw [locate, found]

/-- A path leads to the same place after the tree has grown. -/
theorem locate_of_grows {path location target : Path} (grows : Grows t u)
    (h : locate t path location = some target) : locate u path location = some target := by
  induction path generalizing location with
  | nil => exact h
  | cons part rest ih =>
    rw [locate] at h
    split at h
    · next entries found =>
      obtain ⟨entries', found'⟩ := grows.directory found
      rw [locate, found']
      simp only
      split_ifs at h with stays up top long inside
      · rw [if_pos stays]
        exact ih h
      · rw [if_neg stays, if_pos up, if_neg top]
        exact ih h
      · rw [if_neg stays, if_neg up, if_neg long, if_pos (grows.isSome inside)]
        exact ih h
    · cases h

/-! ## Following paths -/

variable {make : Bool} {path : Path} {way : Way} {p : Place}

/-- Following a path leads on behind where its first part leads. -/
theorem follow_append (make : Bool) (a b : Path) (here : FileTree) (way : Way) :
    follow make (a ++ b) here way = match follow make a here way with
      | (true, p) => follow make b p.here p.way
      | (false, p) => (false, p) := by
  -- The cases are those of `follow`; the second path is reached where the first is used up.
  fun_induction follow make a here way with
  | case1 => rfl
  | case2 => rfl
  | case3 part rest entries way stays ih =>
    rw [← ih, List.cons_append, follow.eq_def]
    simp [stays]
  | case4 rest entries stays =>
    rw [List.cons_append, follow.eq_def]
    simp [stays]
  | case5 rest entries way above name stays ih =>
    rw [← ih, List.cons_append, follow.eq_def]
    simp [stays]
  | case6 part rest entries way stays up long =>
    rw [List.cons_append, follow.eq_def]
    simp [stays, up, long]
  | case7 part rest entries way stays up long t inside ih =>
    rw [← ih, List.cons_append, follow.eq_def]
    simp [stays, up, long, inside]
  | case8 part rest entries way stays up long missing makes ih =>
    rw [← ih, List.cons_append, follow.eq_def]
    simp [stays, up, long, missing, makes]
  | case9 part rest entries way stays up long missing makes =>
    rw [List.cons_append, follow.eq_def]
    simp [stays, up, long, missing, makes]

/-- The tree around an entry that is entered stays what it was. -/
theorem Way.whole_step (above : Way) (h : entries.lookup name = some t) :
    (Way.step above entries name).whole t = above.whole (directory entries) := by
  show above.whole (directory (replace name t entries)) = _
  rw [replace_of_lookup h]

/-- A directory that is made lets the tree grow. -/
theorem Way.grows_step (above : Way) (missing : entries.lookup name = none) :
    Grows (above.whole (directory entries)) ((Way.step above entries name).whole empty) := by
  show Grows _ (above.whole (directory (replace name empty entries)))
  rw [above.whole_eq_put (directory entries) (directory (replace name empty entries))]
  refine grows_put (clear_of_get? (above.get?_whole _)) fun v found => ?_
  rw [above.get?_whole] at found
  obtain rfl := Option.some.inj found
  have made : directory (replace name empty entries) = (directory entries).put [name] empty := by
    simp
  rw [made]
  refine grows_put ?_ fun v found => ?_
  · rintro front next back eq data there
    cases front with
    | nil => simp at there
    | cons first front => simp at eq
  · simp [missing] at found

/-- Following a path lets the tree grow at most. -/
theorem follow_grows (make : Bool) (path : Path) (here : FileTree) (way : Way) :
    Grows (way.whole here) (follow make path here way).2.whole := by
  fun_induction follow make path here way with
  | case1 | case2 | case4 | case6 | case9 => exact Grows.refl _
  | case3 part rest entries way stays ih => exact ih
  | case5 rest entries way above name stays ih => exact ih
  | case7 part rest entries way stays up long t inside ih =>
    rwa [Way.whole_step way inside] at ih
  | case8 part rest entries way stays up long missing makes ih =>
    exact (way.grows_step missing).trans ih

/-- Following a path changes nothing when no directory is made. -/
theorem follow_whole_of_not_make (path : Path) (here : FileTree) (way : Way) :
    (follow false path here way).2.whole = way.whole here := by
  generalize off : false = make
  fun_induction follow make path here way with
  | case1 | case2 | case4 | case6 | case9 => rfl
  | case3 part rest entries way stays ih => exact ih
  | case5 rest entries way above name stays ih => exact ih
  | case7 part rest entries way stays up long t inside ih =>
    rw [ih, Way.whole_step way inside]
  | case8 part rest entries way stays up long missing makes ih =>
    rw [← off] at makes
    cases makes

/-- A path that leads to a place is followed to it, and nothing changes. -/
theorem follow_of_locate (make : Bool) (path : Path) (here : FileTree) (way : Way) {target : Path}
    (h : locate (way.whole here) path way.names = some target) :
    ∃ p, follow make path here way = (true, p) ∧ p.whole = way.whole here ∧
      p.way.names = target := by
  have found := way.get?_whole here
  -- Both walk through the same directories: `found` says where the one of `follow` is in the whole.
  fun_induction follow make path here way with
  | case1 here way => exact ⟨⟨here, way⟩, rfl, rfl, Option.some.inj h⟩
  | case2 part rest data way => simp [locate, found] at h
  | case3 part rest entries way stays ih =>
    rw [locate_cons found, if_pos stays] at h
    exact ih h found
  | case4 rest entries stays =>
    rw [locate_cons found, if_neg stays, if_pos rfl, Way.names, if_pos rfl] at h
    cases h
  | case5 rest entries way above name stays ih =>
    rw [locate_cons found, if_neg stays, if_pos rfl, if_neg (by simp [Way.names]), Way.names,
      List.dropLast_concat] at h
    exact ih h (Way.get?_whole _ _)
  | case6 part rest entries way stays up long =>
    rw [locate_cons found, if_neg stays, if_neg up, if_pos long] at h
    cases h
  | case7 part rest entries way stays up long t inside ih =>
    have entered : (way.whole (directory entries)).get? (way.names ++ [part]) = some t := by
      simp [get?_append, found, inside]
    rw [locate_cons found, if_neg stays, if_neg up, if_neg long, entered,
      if_pos (Option.isSome_some)] at h
    rw [← way.whole_step inside] at h ⊢
    exact ih h (Way.get?_whole _ _)
  | case8 part rest entries way stays up long missing _ _
  | case9 part rest entries way stays up long missing _ =>
    have absent : (way.whole (directory entries)).get? (way.names ++ [part]) = none := by
      simp [get?_append, found, missing]
    rw [locate_cons found, if_neg stays, if_neg up, if_neg long, absent] at h
    cases h

/-- What a path has led to is found again by following it in the tree that is left. -/
theorem locate_of_follow (make : Bool) (path : Path) (here : FileTree) (way : Way)
    (h : follow make path here way = (true, p)) :
    locate p.whole path way.names = some p.way.names := by
  -- Each step is found in the tree that it leaves, and the tree only grows from there.
  have grows := follow_grows make path here way
  rw [h] at grows
  fun_induction follow make path here way with
  | case1 here way =>
    cases h
    rfl
  | case2 | case4 | case6 | case9 => cases h
  | case3 part rest entries way stays ih =>
    obtain ⟨_, found⟩ := grows.directory (way.get?_whole _)
    rw [locate_cons found, if_pos stays]
    exact ih h grows
  | case5 rest entries way above name stays ih =>
    obtain ⟨_, found⟩ := grows.directory (Way.get?_whole _ _)
    rw [locate_cons found, if_neg stays, if_pos rfl, if_neg (by simp [Way.names])]
    simpa [Way.names] using ih h grows
  | case7 part rest entries way stays up long t inside ih =>
    obtain ⟨_, found⟩ := grows.directory (way.get?_whole _)
    rw [← way.whole_step inside] at grows
    have entered := grows.isSome (Option.isSome_of_eq_some (Way.get?_whole _ t))
    rw [locate_cons found, if_neg stays, if_neg up, if_neg long]
    rw [Way.names] at entered
    rw [if_pos entered]
    exact ih h grows
  | case8 part rest entries way stays up long missing makes ih =>
    obtain ⟨_, found⟩ := grows.directory (way.get?_whole _)
    have behind := follow_grows make rest empty (way.step entries part)
    rw [h] at behind
    have entered := behind.isSome (Option.isSome_of_eq_some (Way.get?_whole _ empty))
    rw [locate_cons found, if_neg stays, if_neg up, if_neg long]
    rw [Way.names] at entered
    rw [if_pos entered]
    exact ih h behind

end FileTree

end ClassWeave
