import ClassWeave.Proofs.CommandLine.Walks

/-!
# Stages of a run

A run reads files of an input and writes files below a target.

**Layouts** (`FileTree.Layout`). The input and the target are at places of which none is below the
other, so that no writing disturbs the input.

**Stages** (`FileTree.Stage`). At each stage the input is where it was and as it was, and the target
leads to a directory with exactly the files that have been written. One more file leads to the next
stage (`Stage.write`), and a file that is refused changes none of this (`Stage.refuse`).
-/

namespace ClassWeave

namespace FileTree

/-- An input at a place that a path leads to, and a path to a target at a place apart from it. -/
structure Layout where
  root : Path
  source : Path
  input : FileTree
  target : Path
  place : Path
  wellNamed : input.WellNamed
  outside : ¬ source <+: place
  beside : ¬ place <+: source
  within : isWithin root
  reachable : ∀ path u, input.get? path = some u → isWithin (root.append path)
  noZero : ∀ part ∈ target, ¬ holdsZero part

/-- What is at a place; a directory that is missing counts as empty. -/
def contentAt (place : Path) (t : FileTree) : FileTree := (t.get? place).getD empty

/-- The input is as it was, and the target leads to a directory with the files that have been
stored. -/
structure Stage (l : Layout) (stored : List (Path × Bytes)) (whole : FileTree) (p : Place) :
    Prop where
  found : locate whole l.root [] = some l.source
  input : whole.get? l.source = some l.input
  output : whole.follow true l.target .root = (true, p)
  place : p.way.names = l.place
  kept : p.whole.get? l.source = some l.input
  holds : p.here.Holds stored
  wellNamed : p.here.WellNamed
  content : contentAt l.place whole = p.here

namespace Stage

variable {l : Layout} {stored more : List (Path × Bytes)} {whole t : FileTree} {p : Place}
  {path names : Path} {name : String} {data : Bytes}

/-- **The first stage**: nothing has been stored, and the directory of the target is empty or can be
made. -/
theorem start {q : Place} (input : whole.follow false l.root .root = (true, q))
    (here : q.here = l.input) (source : q.way.names = l.source)
    (output : whole.follow true l.target .root = (true, p)) (place : p.way.names = l.place)
    (vacant : p.here = empty) (kept : p.whole.get? l.source = some l.input) :
    Stage l [] whole p := by
  have same := follow_whole_of_not_make l.root whole .root
  rw [input] at same
  have tree : q.whole = whole := same
  have found := locate_of_follow false l.root whole .root input
  have there := q.get?_whole
  rw [tree, source] at found there
  rw [here] at there
  have at_place : p.whole.get? l.place = some (.directory []) := by
    rw [← place, p.get?_whole, vacant]
    rfl
  have grown := follow_grows true l.target whole .root
  rw [output] at grown
  -- An entry there would have stayed.
  have content : contentAt l.place whole = empty := by
    rw [contentAt]
    cases inside : whole.get? l.place with
    | none => rfl
    | some v =>
      obtain ⟨w, hw, kind⟩ := grown l.place v inside
      obtain rfl := Option.some.inj (at_place.symm.trans hw)
      cases v with
      | file data => cases kind
      | directory entries =>
        cases entries with
        | nil => rfl
        | cons e entries =>
          obtain ⟨name, u⟩ := e
          have deeper : whole.get? (l.place ++ [name]) = some u := by simp [get?_append, inside]
          obtain ⟨w, hw, -⟩ := grown _ _ deeper
          have none : p.whole.get? (l.place ++ [name]) = none := by simp [get?_append, at_place]
          cases none.symm.trans hw
  refine ⟨found, there, output, place, kept, ?_, ?_, ?_⟩
  · rw [vacant]
    exact holds_empty
  · rw [vacant]
    exact wellNamed_directory ⟨List.nodup_nil, by simp⟩ (by simp)
  · rw [content, vacant]

theorem reads (h : Stage l stored whole p) : Found l.input l.root whole := by
  intro path u there
  cases path with
  | nil =>
    obtain rfl : l.input = u := by simpa using there
    rw [List.isEmpty_nil, if_pos rfl, find?_of_locate h.found l.within, h.input]
  | cons name rest =>
    rw [List.isEmpty_cons, if_neg (by simp)]
    refine find?_append h.found (l.wellNamed.isFileName there) (l.reachable _ u there) ?_
    rw [get?_append, h.input, Option.bind_some, there]

theorem next (h : Stage l stored whole p) (grows : Grows p.here t) (holds : t.Holds more)
    (wellNamed : t.WellNamed) : ∃ q, Stage l more (p.way.whole t) q := by
  have put : p.way.whole t = p.whole.put l.place t := by
    rw [← h.place]
    exact p.way.whole_eq_put p.here t
  have at_place : (p.way.whole t).get? l.place = some t := by
    rw [← h.place]
    exact p.way.get?_whole t
  have made : Grows whole p.whole := by
    have grown := follow_grows true l.target whole .root
    rwa [h.output] at grown
  -- The tree changes at the target only, and the input is apart from it.
  have changed : Grows p.whole (p.way.whole t) := by
    have there := p.get?_whole
    rw [h.place] at there
    rw [put]
    refine grows_put (clear_of_get? there) fun v found => ?_
    obtain rfl := Option.some.inj (there.symm.trans found)
    exact grows
  have kept : (p.way.whole t).get? l.source = some l.input := by
    rw [put, get?_put_of_apart l.beside l.outside, h.kept]
  have led : locate (p.way.whole t) l.target [] = some l.place := by
    rw [← h.place]
    exact locate_of_grows changed (locate_of_follow true l.target whole .root h.output)
  obtain ⟨q, follows, same, hq⟩ := follow_of_locate true l.target (p.way.whole t) .root led
  have whole_eq : q.whole = p.way.whole t := same
  have here : q.here = t := by
    have there := q.get?_whole
    rw [hq, whole_eq, at_place] at there
    exact (Option.some.inj there).symm
  refine ⟨q, locate_of_grows (made.trans changed) h.found, kept, follows, hq, ?_, ?_, ?_, ?_⟩
  · rw [whole_eq, kept]
  · rwa [here]
  · rwa [here]
  · rw [contentAt, at_place, here, Option.getD_some]

/-- **The next stage**: a file is written where none is in its way. -/
theorem write (data : Bytes) (h : Stage l stored whole p) (target : Target path l.target names name)
    (apart : ∀ f ∈ stored, ¬ Blocks f.1 (names ++ [name])) :
    ∃ after q, FileTree.write path data whole = (.ok (), after) ∧
      Stage l (stored ++ [(names ++ [name], data)]) after q := by
  have some : names ++ [name] ≠ [] := by simp
  have free := (h.holds.free_iff some).2 apart
  have isName : ∀ part ∈ names ++ [name], IsFileName part := by
    intro part hpart
    rcases List.mem_append.1 hpart with above | last
    · exact target.names part above
    · exact List.mem_singleton.1 last ▸ target.name
  -- A file that is overwritten stays a file.
  have grows : Grows p.here (p.here.put (names ++ [name]) (file data)) := by
    refine grows_put free.clear fun v found => ?_
    cases v with
    | file old => exact grows_file
    | directory entries => exact absurd found (free.noDirectory entries)
  obtain ⟨q, hq⟩ := h.next grows (h.holds.put some free) (h.wellNamed.put isName wellNamed_file)
  exact ⟨_, q, write_eq target h.output free, hq⟩

/-- A file with another one in its way is refused, and the stage remains. -/
theorem refuse (data : Bytes) (h : Stage l stored whole p)
    (target : Target path l.target names name)
    (blocked : ∃ f ∈ stored, Blocks f.1 (names ++ [name])) :
    ∃ after q, FileTree.write path data whole = (.error .refused, after) ∧
      Stage l stored after q := by
  have some : names ++ [name] ≠ [] := by simp
  have notFree : ¬ p.here.Free (names ++ [name]) := by
    intro free
    obtain ⟨f, hf, blocks⟩ := blocked
    exact (h.holds.free_iff some).1 free f hf blocks
  obtain ⟨q, hq⟩ := h.next (Grows.refl p.here) h.holds h.wellNamed
  exact ⟨_, q, write_refused target h.output notFree, hq⟩

end Stage

end FileTree

end ClassWeave
