import ClassWeave.Proofs.Text.Cutting
import ClassWeave.Renaming

/-!
# What a renamed descriptor names

**Cuts** (`Renaming.Cuts`). A text is cut in one way only: into pieces, each with a name that ends
at the first `;` behind the first `L`, and a tail in which nothing is named.

**Main result** (`Renaming.cut_descriptor`). When no new name holds a `;`, a renamed descriptor is
cut at the same places as the old one, and each piece names the image of what it named.

**Moved packages** (`Renaming.move`). What stands below the package is below the target afterwards,
under the same inner name; other names stay.
-/

namespace ClassWeave

namespace Renaming

/-! ## Cuts -/

/-- The pieces of a text and the tail behind them. -/
def cut (text : String) : List Piece × List Char := pieces text.length text.toList []

/-- The characters are those of the pieces, one after the other, and of a tail that names nothing:
there is no `L` in it, or no `;` behind its first `L`. -/
inductive Cuts : List Char → List Piece → List Char → Prop
  | plain {cs : List Char} : 'L' ∉ cs → Cuts cs [] cs
  | unfinished {lead rest : List Char} : 'L' ∉ lead → ';' ∉ rest →
    Cuts (lead ++ 'L' :: rest) [] (lead ++ 'L' :: rest)
  | piece {lead name rest tail : List Char} {named : List Piece} : 'L' ∉ lead → ';' ∉ name →
    Cuts rest named tail →
    Cuts (lead ++ 'L' :: (name ++ ';' :: rest)) (⟨lead ++ ['L'], String.ofList name⟩ :: named) tail

/-- Every text is cut in some way. -/
theorem exists_cuts (cs : List Char) : ∃ named tail, Cuts cs named tail := by
  by_cases some : 'L' ∈ cs
  · obtain ⟨lead, behind, rfl, hlead⟩ := List.eq_append_cons_of_mem some
    by_cases ends : ';' ∈ behind
    · obtain ⟨name, rest, rfl, hname⟩ := List.eq_append_cons_of_mem ends
      obtain ⟨named, tail, cuts⟩ := exists_cuts rest
      exact ⟨_, tail, .piece hlead hname cuts⟩
    · exact ⟨[], _, .unfinished hlead ends⟩
  · exact ⟨[], cs, .plain some⟩
termination_by cs.length
decreasing_by
  subst_vars
  simp only [List.length_append, List.length_cons]
  omega

theorem Cuts.length_le {cs tail : List Char} {named : List Piece} (h : Cuts cs named tail) :
    named.length ≤ cs.length := by
  induction h with
  | plain | unfinished => exact Nat.zero_le _
  | piece _ _ _ ih => simp; omega

/-- The pieces that are found are those of a cut. -/
theorem Cuts.pieces_eq {cs tail : List Char} {named : List Piece} (h : Cuts cs named tail)
    {fuel : Nat} (enough : named.length ≤ fuel) (found : List Piece) :
    pieces fuel cs found = (found.reverse ++ named, tail) := by
  induction h generalizing fuel found with
  | plain none =>
    cases fuel with
    | zero => simp [pieces]
    | succ fuel => simp only [pieces, span_of_notMem none, List.append_nil]
  | unfinished hlead hrest =>
    cases fuel with
    | zero => simp [pieces]
    | succ fuel =>
      simp only [pieces, span_append_cons hlead, span_of_notMem hrest, List.append_nil]
  | @piece lead name rest tail named hlead hname _ ih =>
    cases fuel with
    | zero => simp at enough
    | succ fuel =>
      have next := ih (Nat.le_of_succ_le_succ enough) (⟨lead ++ ['L'], String.ofList name⟩ :: found)
      simp only [pieces, span_append_cons hlead, span_append_cons hname, next]
      simp

theorem Cuts.cut_eq {text : String} {named : List Piece} {tail : List Char}
    (h : Cuts text.toList named tail) : cut text = (named, tail) :=
  h.pieces_eq (Nat.le_trans h.length_le (le_of_eq String.length_toList)) []

theorem cuts_cut (text : String) : Cuts text.toList (cut text).1 (cut text).2 := by
  obtain ⟨named, tail, cuts⟩ := exists_cuts text.toList
  rwa [cuts.cut_eq]

/-! ## Renamed cuts -/

/-- The piece with the image of its name. -/
def Piece.map (f : String → String) (p : Piece) : Piece := { p with name := f p.name }

theorem Cuts.name_clean {cs tail : List Char} {named : List Piece} (h : Cuts cs named tail) :
    ∀ p ∈ named, ';' ∉ p.name.toList := by
  induction h with
  | plain | unfinished => simp
  | piece _ hname _ ih => simpa [hname] using ih

/-- A text whose names are replaced by names without `;` is cut at the same places. -/
theorem Cuts.rename {cs tail : List Char} {named : List Piece} (h : Cuts cs named tail)
    (r : Renaming) (clean : ∀ p ∈ named, ';' ∉ (r.apply p.name).toList) :
    Cuts (named.flatMap (·.rename r) ++ tail) (named.map (·.map r.apply)) tail := by
  -- A new name without an end mark is cut off where the old one was.
  induction h with
  | plain none => exact .plain none
  | unfinished hlead hrest => exact .unfinished hlead hrest
  | @piece lead name rest tail named hlead hname _ ih =>
    rw [List.forall_mem_cons] at clean
    have head := Cuts.piece hlead clean.1 (ih clean.2)
    rw [String.ofList_toList] at head
    simpa [Piece.rename, Piece.map] using head

/-- No new name holds the end mark of names. -/
def IsClean (r : Renaming) : Prop :=
  ∀ name : String, ';' ∉ name.toList → ';' ∉ (r.apply name).toList

theorem descriptor_eq (r : Renaming) (text : String) :
    r.descriptor text = if (cut text).1.any fun p => (r p.name).isSome then
      some (String.ofList ((cut text).1.flatMap (·.rename r) ++ (cut text).2)) else none := rfl

/-- A descriptor stays when its names do. -/
theorem descriptor_eq_none_iff {r : Renaming} {text : String} :
    r.descriptor text = none ↔ ∀ p ∈ (cut text).1, r p.name = none := by
  rw [descriptor_eq]
  simp [List.any_eq_true]

/-- **A renamed descriptor** is cut at the same places, and names the images there. -/
theorem cut_descriptor {r : Renaming} (clean : r.IsClean) (text : String) :
    cut ((r.descriptor text).getD text) =
      ((cut text).1.map (·.map r.apply), (cut text).2) := by
  have cuts := cuts_cut text
  cases renamed : r.descriptor text with
  | none =>
    have same : ∀ p ∈ (cut text).1, p.map r.apply = p := fun p hp => by
      rw [Piece.map, apply, descriptor_eq_none_iff.1 renamed p hp, Option.getD_none]
    rw [Option.getD_none, List.map_congr_left same, List.map_id']
  | some new =>
    rw [descriptor_eq] at renamed
    split_ifs at renamed
    have cuts' := cuts.rename r fun p hp => clean p.name (cuts.name_clean p hp)
    refine Cuts.cut_eq ?_
    rwa [← Option.some.inj renamed, Option.getD_some, String.toList_ofList]

/-! ## Moved packages -/

/-- What is below a package, by the name it has in there. -/
def below (package inner : String) : String := package ++ "/" ++ inner

/-- The name is that of the package or of something below it. -/
def InPackage (package name : String) : Prop := name = package ∨ ∃ inner, name = below package inner

/-- **Moved names** are those in the package, each to its place in the target. -/
theorem move_eq_some_iff {source target name new : String} :
    move source target name = some new ↔ (name = source ∧ new = target) ∨
      ∃ inner, name = below source inner ∧ new = below target inner := by
  refine ⟨fun h => ?_, ?_⟩
  · unfold move at h
    split at h
    · exact nomatch h
    · next whole =>
      rw [List.isPrefixOf?_eq_some_iff_append_eq, List.append_nil, String.toList_inj] at whole
      exact .inl ⟨whole.symm, (Option.some.inj h).symm⟩
    · next inner behind =>
      rw [List.isPrefixOf?_eq_some_iff_append_eq] at behind
      refine .inr ⟨String.ofList inner, ?_, ?_⟩
      · rw [← String.toList_inj, ← behind]
        simp [below]
      · rw [← Option.some.inj h, ← String.toList_inj]
        simp [below]
    · exact nomatch h
  · rintro (⟨rfl, rfl⟩ | ⟨inner, rfl, rfl⟩)
    · have whole : name.toList.isPrefixOf? name.toList = some [] := by
        rw [List.isPrefixOf?_eq_some_iff_append_eq, List.append_nil]
      simp only [move, whole]
    · have behind : source.toList.isPrefixOf? (below source inner).toList =
          some ('/' :: inner.toList) := by
        rw [List.isPrefixOf?_eq_some_iff_append_eq]
        simp [below]
      simp only [move, behind]
      congr 1
      simp [below, ← String.toList_inj]

theorem move_below (source target inner : String) :
    move source target (below source inner) = some (below target inner) :=
  move_eq_some_iff.2 (.inr ⟨inner, rfl, rfl⟩)

/-- The names outside of the package stay. -/
theorem move_eq_none_iff {source target name : String} :
    move source target name = none ↔ ¬ InPackage source name := by
  simp only [Option.eq_none_iff_forall_ne_some, ne_eq, move_eq_some_iff, InPackage]
  refine ⟨fun stays inside => ?_, fun outside new moved => outside ?_⟩
  · rcases inside with whole | ⟨inner, eq⟩
    · exact stays target (.inl ⟨whole, rfl⟩)
    · exact stays (below target inner) (.inr ⟨inner, eq, rfl⟩)
  · exact moved.imp And.left fun ⟨inner, eq, _⟩ => ⟨inner, eq⟩

theorem InPackage.isPrefix {package name : String} (h : InPackage package name) :
    package.toList <+: name.toList := by
  rcases h with rfl | ⟨inner, rfl⟩
  · exact List.prefix_rfl
  · exact ⟨'/' :: inner.toList, by simp [below]⟩

/-- A character of a moved name is one of the target or of the old name. -/
theorem mem_of_move {source target name new : String} (h : move source target name = some new)
    {c : Char} (hc : c ∈ new.toList) : c ∈ target.toList ∨ c ∈ name.toList := by
  rcases move_eq_some_iff.1 h with ⟨_, rfl⟩ | ⟨inner, rfl, rfl⟩
  · exact .inl hc
  · simp only [below, String.toList_append, List.mem_append] at hc ⊢
    tauto

theorem move_isClean (source : String) {target : String} (clean : ';' ∉ target.toList) :
    (move source target).IsClean := by
  intro name hname
  unfold apply
  cases moved : move source target name with
  | none => exact hname
  | some new => exact fun there => (mem_of_move moved there).elim clean hname

end Renaming

end ClassWeave
