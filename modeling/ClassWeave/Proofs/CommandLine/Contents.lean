import ClassWeave.Proofs.CommandLine.Written
import Mathlib.Data.List.Nodup
import Mathlib.Data.List.Flatten

/-!
# Contents of a file tree

**Names** (`FileTree.WellNamed`). In a well-named tree each directory has file names, each of them
once. Then the listing of a tree has exactly the files that are found in it, each of them once
(`mem_files_iff`, `nodup_files`).

**Files put one after the other** (`FileTree.Holds`). The tree that comes of it has a file where one
was put last, directories above these places, and nothing else. One more file can be put where it is
not in the way of another one (`Holds.free_iff`).
-/

namespace ClassWeave

namespace FileTree

variable {t u : FileTree} {entries : List (String × FileTree)} {name : String} {data : Bytes}
  {path location : Path}

/-- Induction over a tree: what holds of all trees in a directory holds of the directory. -/
@[elab_as_elim]
theorem induction {motive : FileTree → Prop} (file : ∀ data, motive (file data))
    (directory : ∀ entries, (∀ e ∈ entries, motive e.2) → motive (directory entries)) :
    ∀ t, motive t
  | .file data => file data
  | .directory entries => directory entries fun e _ => induction file directory e.2
termination_by t => sizeOf t
decreasing_by
  have inside := List.sizeOf_lt_of_mem ‹e ∈ entries›
  cases e
  simp only [FileTree.directory.sizeOf_spec, Prod.mk.sizeOf_spec] at inside ⊢
  omega

/-! ## Names -/

theorem mem_of_lookup (h : entries.lookup name = some t) : (name, t) ∈ entries := by
  induction entries with
  | nil => cases h
  | cons e entries ih =>
    rw [lookup_cons_eq] at h
    split_ifs at h with same
    · cases h
      simp [same]
    · exact List.mem_cons_of_mem _ (ih h)

theorem lookup_of_mem (nodup : (entries.map Prod.fst).Nodup) (h : (name, t) ∈ entries) :
    entries.lookup name = some t := by
  induction entries with
  | nil => cases h
  | cons e entries ih =>
    rw [List.map_cons, List.nodup_cons] at nodup
    rw [lookup_cons_eq]
    rcases List.mem_cons.1 h with rfl | behind
    · rw [if_pos rfl]
    · have other : name ≠ e.1 := fun same =>
        nodup.1 (same ▸ List.mem_map.2 ⟨(name, t), behind, rfl⟩)
      rw [if_neg other, ih nodup.2 behind]

/-- The names in a directory are file names, and none of them is there twice. -/
structure Entries (entries : List (String × FileTree)) : Prop where
  nodup : (entries.map Prod.fst).Nodup
  isFileName : ∀ e ∈ entries, IsFileName e.1

/-- Each directory in the tree has file names, none of them twice. -/
def WellNamed (t : FileTree) : Prop :=
  ∀ location entries, t.get? location = some (directory entries) → Entries entries

theorem WellNamed.here (h : (directory entries).WellNamed) : Entries entries := h [] entries rfl

theorem WellNamed.get? (h : t.WellNamed) (found : t.get? location = some u) : u.WellNamed := by
  intro below entries there
  exact h (location ++ below) entries (by rw [get?_append, found, Option.bind_some, there])

theorem WellNamed.inside (h : (directory entries).WellNamed) {e : String × FileTree}
    (he : e ∈ entries) : e.2.WellNamed := by
  have found : (directory entries).get? [e.1] = some e.2 := by
    simp [lookup_of_mem h.here.nodup he]
  exact h.get? found

theorem wellNamed_file : (file data).WellNamed := by
  intro location entries found
  cases location <;> simp at found

theorem wellNamed_directory (h : Entries entries) (inside : ∀ e ∈ entries, e.2.WellNamed) :
    (directory entries).WellNamed := by
  intro location others found
  cases location with
  | nil =>
    cases found
    exact h
  | cons name rest =>
    obtain ⟨u, hu, there⟩ := Option.bind_eq_some_iff.1 found
    exact inside (name, u) (mem_of_lookup hu) rest others there

/-- The parts of a place in a well-named tree are file names. -/
theorem WellNamed.isFileName (h : t.WellNamed) (found : t.get? location = some u) :
    ∀ name ∈ location, IsFileName name := by
  induction location generalizing t with
  | nil => simp
  | cons name rest ih =>
    cases t with
    | file data => cases found
    | directory entries =>
      obtain ⟨v, hv, there⟩ := Option.bind_eq_some_iff.1 found
      have here := mem_of_lookup hv
      exact List.forall_mem_cons.2 ⟨h.here.isFileName _ here, ih (h.inside here) there⟩

theorem mem_replace {e : String × FileTree} (h : e ∈ replace name t entries) :
    e = (name, t) ∨ e ∈ entries := by
  induction entries with
  | nil => simpa [replace] using h
  | cons first entries ih =>
    rw [replace] at h
    split_ifs at h with same
    · rcases List.mem_cons.1 h with rfl | behind
      · exact .inl rfl
      · exact .inr (List.mem_cons_of_mem _ behind)
    · rcases List.mem_cons.1 h with rfl | behind
      · exact .inr List.mem_cons_self
      · rcases ih behind with eq | there
        · exact .inl eq
        · exact .inr (List.mem_cons_of_mem _ there)

theorem Entries.replace (h : Entries entries) (isName : IsFileName name) :
    Entries (replace name t entries) := by
  refine ⟨?_, fun e he => ?_⟩
  · have nodup := h.nodup
    clear h
    induction entries with
    | nil => simp [FileTree.replace]
    | cons first entries ih =>
      rw [List.map_cons, List.nodup_cons] at nodup
      rw [FileTree.replace]
      split_ifs with same
      · subst same
        simpa using nodup
      · rw [List.map_cons, List.nodup_cons]
        refine ⟨fun twice => ?_, ih nodup.2⟩
        obtain ⟨e, he, eq⟩ := List.mem_map.1 twice
        rcases mem_replace he with rfl | there
        · exact same eq.symm
        · exact nodup.1 (eq ▸ List.mem_map_of_mem there)
  · rcases mem_replace he with rfl | there
    · exact isName
    · exact h.isFileName e there

/-- A tree stays well-named when something well-named is put at a place of file names. -/
theorem WellNamed.put (h : t.WellNamed) (names : ∀ name ∈ path, IsFileName name)
    (hu : u.WellNamed) : (t.put path u).WellNamed := by
  induction path generalizing t with
  | nil => simpa using hu
  | cons name path ih =>
    obtain ⟨first, others⟩ := List.forall_mem_cons.1 names
    cases t with
    | file data => exact wellNamed_file
    | directory entries =>
      refine wellNamed_directory (h.here.replace first) fun e he => ?_
      rcases mem_replace he with rfl | there
      · refine ih ?_ others
        cases inside : entries.lookup name with
        | none => exact wellNamed_directory ⟨List.nodup_nil, by simp⟩ (by simp)
        | some v => exact h.inside (mem_of_lookup inside)
      · exact h.inside there

/-! ## Listings -/

theorem filesBelow_eq (path : Path) (entries : List (String × FileTree)) :
    filesBelow path entries = entries.flatMap fun e => e.2.files (path ++ [e.1]) := by
  induction entries with
  | nil => rw [filesBelow, List.flatMap_nil]
  | cons e entries ih => rw [filesBelow, ih, List.flatMap_cons]

/-- **The files that are listed** are those that are found. -/
theorem mem_files_iff (h : t.WellNamed) : (location, data) ∈ t.files path ↔
    ∃ below, location = path ++ below ∧ t.get? below = some (file data) := by
  induction t using induction generalizing path with
  | file other =>
    rw [files]
    constructor
    · intro found
      obtain ⟨rfl, rfl⟩ := Prod.mk.inj (List.mem_singleton.1 found)
      exact ⟨[], by simp, rfl⟩
    · rintro ⟨below, rfl, found⟩
      cases below with
      | nil =>
        obtain rfl : other = data := by simpa using found
        simp
      | cons name below => cases found
  | directory entries ih =>
    rw [files, filesBelow_eq, List.mem_flatMap]
    constructor
    · rintro ⟨e, he, inside⟩
      obtain ⟨below, rfl, found⟩ := (ih e he (h.inside he)).1 inside
      refine ⟨e.1 :: below, by simp, ?_⟩
      -- The names in a directory differ, so that looking one up finds this very entry.
      rw [get?_directory_cons, lookup_of_mem h.here.nodup he, Option.bind_some, found]
    · rintro ⟨below, rfl, found⟩
      cases below with
      | nil => cases found
      | cons name below =>
        obtain ⟨u, hu, there⟩ := Option.bind_eq_some_iff.1 found
        have he := mem_of_lookup hu
        exact ⟨_, he, (ih _ he (h.inside he)).2 ⟨below, by simp, there⟩⟩

/-- No file is listed twice. -/
theorem nodup_files (h : t.WellNamed) : ((t.files path).map Prod.fst).Nodup := by
  induction t using induction generalizing path with
  | file data => simp [files]
  | directory entries ih =>
    rw [files, filesBelow_eq, List.map_flatMap, List.nodup_flatMap]
    refine ⟨fun e he => ih e he (h.inside he), ?_⟩
    -- The paths below two entries differ in the names of these.
    have apart : entries.Pairwise fun a b => a.1 ≠ b.1 := List.pairwise_map.1 h.here.nodup
    refine apart.imp_of_mem fun {a b} ha hb other => ?_
    intro location left right
    obtain ⟨⟨p, _⟩, hp, rfl⟩ := List.mem_map.1 left
    obtain ⟨⟨q, _⟩, hq, eq⟩ := List.mem_map.1 right
    obtain ⟨below, rfl, -⟩ := (mem_files_iff (h.inside ha)).1 hp
    obtain ⟨below', rfl, -⟩ := (mem_files_iff (h.inside hb)).1 hq
    simp only [List.append_assoc, List.singleton_append, List.append_cancel_left_eq,
      List.cons.injEq] at eq
    exact other eq.1.symm

/-! ## Files put one after the other -/

theorem get?_put_file (free : t.Free path) :
    (t.put path (file data)).get? path = some (file data) := by
  simpa using get?_put_self (u := file data) free.clear []

/-- A file that is put at a free place changes nothing but that place and the directories above. -/
theorem get?_put_of_not_above {q : Path} (free : t.Free path) (other : q ≠ path)
    (h : ¬ ∃ name rest, path = q ++ name :: rest) : (t.put path (file data)).get? q = t.get? q := by
  by_cases below : path <+: q
  · obtain ⟨rest, rfl⟩ := below
    obtain ⟨name, rest, rfl⟩ := List.exists_cons_of_ne_nil (l := rest) (by simpa using other)
    rw [get?_put_self free.clear, get?_file_cons, get?_append]
    cases found : t.get? path with
    | none => rfl
    | some v =>
      cases v with
      | file data => rfl
      | directory entries => exact absurd found (free.noDirectory entries)
  · refine get?_put_of_apart below ?_
    rintro ⟨rest, rfl⟩
    cases rest with
    | nil => exact other (by simp)
    | cons name rest => exact h ⟨name, rest, rfl⟩

/-- One of the places is a directory above the other. -/
def Blocks (a b : Path) : Prop := a ≠ b ∧ (a <+: b ∨ b <+: a)

/-- The tree has the files that were put into it, of several at one place the last, directories
above them, and nothing else. -/
structure Holds (t : FileTree) (stored : List (Path × Bytes)) : Prop where
  file : ∀ path data, t.get? path = some (.file data) ↔ stored.reverse.lookup path = some data
  directory : ∀ path, (∃ entries, t.get? path = some (.directory entries)) ↔
    path = [] ∨ ∃ f ∈ stored, ∃ name rest, f.1 = path ++ name :: rest

theorem holds_empty : Holds empty [] := by
  refine ⟨fun path data => ?_, fun path => ?_⟩ <;> cases path <;> simp [empty]

namespace Holds

variable {stored : List (Path × Bytes)}

theorem exists_of_get? (h : t.Holds stored) (found : t.get? path = some (.file data)) :
    (path, data) ∈ stored := by
  have last := (h.file path data).1 found
  obtain ⟨front, back, eq, -⟩ := List.lookup_eq_some_iff.1 last
  rw [← List.mem_reverse, eq]
  simp

theorem exists_file (h : t.Holds stored) {f : Path × Bytes} (hf : f ∈ stored) :
    ∃ data, t.get? f.1 = some (.file data) := by
  cases last : stored.reverse.lookup f.1 with
  | none =>
    have missing := List.lookup_eq_none_iff.1 last f (List.mem_reverse.2 hf)
    simp at missing
  | some data => exact ⟨data, (h.file f.1 data).2 last⟩

/-- **One more file can be put** where no other one is in the way. -/
theorem free_iff (h : t.Holds stored) (some : path ≠ []) :
    t.Free path ↔ ∀ f ∈ stored, ¬ Blocks f.1 path := by
  constructor
  · rintro free f hf ⟨other, above | below⟩
    · obtain ⟨data, found⟩ := h.exists_file hf
      obtain ⟨rest, rfl⟩ := above
      cases rest with
      | nil => exact other (by simp)
      | cons name rest => exact free.clear f.1 name rest rfl data found
    · obtain ⟨rest, eq⟩ := below
      cases rest with
      | nil => exact other (by simpa using eq.symm)
      | cons name rest =>
        obtain ⟨entries, found⟩ := (h.directory path).2 (.inr ⟨f, hf, name, rest, eq.symm⟩)
        exact free.noDirectory entries found
  · intro apart
    refine ⟨?_, fun entries found => ?_⟩
    · rintro front name back rfl data found
      refine apart _ (h.exists_of_get? found) ⟨by simp, .inl (by simp)⟩
    · rcases (h.directory path).1 ⟨entries, found⟩ with rfl | ⟨f, hf, name, rest, eq⟩
      · exact some rfl
      · exact apart f hf ⟨by simp [eq], .inr ⟨_, eq.symm⟩⟩

/-- The tree holds one more file after it has been put. -/
theorem put (h : t.Holds stored) (some : path ≠ []) (free : t.Free path) :
    (t.put path (.file data)).Holds (stored ++ [(path, data)]) := by
  refine ⟨fun q data' => ?_, fun q => ?_⟩
  · rw [List.reverse_concat, lookup_cons_eq]
    by_cases same : q = path
    · rw [if_pos same, same, get?_put_file free]
      simp
    · rw [if_neg same]
      -- Above the file directories have been made, and none of these places held a file.
      by_cases above : ∃ name rest, path = q ++ name :: rest
      · obtain ⟨name, rest, rfl⟩ := above
        obtain ⟨entries, made⟩ := get?_put_above (u := .file data) free.clear
        have noFile := free.clear q name rest rfl data'
        rw [made, ← h.file]
        simp [noFile]
      · rw [get?_put_of_not_above free same above, h.file]
  · by_cases same : q = path
    · subst same
      rw [get?_put_file free]
      refine iff_of_false (by simp) ?_
      rintro (empty | ⟨f, hf, name, rest, eq⟩)
      · exact some empty
      · rcases List.mem_append.1 hf with before | new
        · obtain ⟨entries, found⟩ := (h.directory q).2 (.inr ⟨f, before, name, rest, eq⟩)
          exact free.noDirectory entries found
        · obtain rfl := List.mem_singleton.1 new
          simp at eq
    · by_cases above : ∃ name rest, path = q ++ name :: rest
      · obtain ⟨name, rest, rfl⟩ := above
        have new := List.mem_append_right stored (List.mem_singleton_self (q ++ name :: rest, data))
        exact iff_of_true (get?_put_above free.clear) (.inr ⟨_, new, name, rest, rfl⟩)
      · rw [get?_put_of_not_above free same above, h.directory]
        refine or_congr_right ⟨fun ⟨f, hf, inside⟩ => ⟨f, by simp [hf], inside⟩, ?_⟩
        rintro ⟨f, hf, inside⟩
        rcases List.mem_append.1 hf with before | new
        · exact ⟨f, before, inside⟩
        · obtain rfl := List.mem_singleton.1 new
          exact absurd inside above

end Holds

end FileTree

end ClassWeave
