import ClassWeave.Build.Output
import Mathlib.Data.List.Basic
import Mathlib.Data.List.Infix
import Mathlib.Data.List.TakeWhile

/-!
# Cutting texts

**At a first character** (`span_eq_iff`). The front of a text ends before the first character of
some kind, and there is one way only to cut it so.

**At slashes** (`segments_slash`, `exists_segment_of_mem`). The segments of a path are those of its
parts, and all characters but the slashes are in them, and no slash is (`notMem_of_mem_segments`).
-/

namespace ClassWeave

/-! ## At a first character -/

/-- The characters are cut in front of the first one that does not belong to the front. -/
theorem span_eq_iff {p : Char → Bool} {cs front back : List Char} : cs.span p = (front, back) ↔
    cs = front ++ back ∧ (∀ c ∈ front, p c = true) ∧ ∀ c ∈ back.head?, p c = false := by
  rw [List.span_eq_takeWhile_dropWhile, Prod.mk.injEq]
  refine ⟨?_, ?_⟩
  · rintro ⟨rfl, rfl⟩
    refine ⟨List.takeWhile_append_dropWhile.symm, fun c hc => List.mem_takeWhile_imp hc, ?_⟩
    intro c hc
    have first := List.head?_dropWhile_not p cs
    rw [hc] at first
    simpa using first
  · rintro ⟨rfl, hfront, hback⟩
    rw [List.takeWhile_append_of_pos hfront, List.dropWhile_append_of_pos hfront]
    cases back with
    | nil => simp
    | cons c back => simp [hback c rfl]

theorem span_of_notMem {c : Char} {cs : List Char} (h : c ∉ cs) : cs.span (· != c) = (cs, []) := by
  refine span_eq_iff.2 ⟨(List.append_nil cs).symm, fun d hd => ?_, by simp⟩
  exact bne_iff_ne.2 fun eq => h (eq ▸ hd)

theorem span_append_cons {c : Char} {front : List Char} (h : c ∉ front) (rest : List Char) :
    (front ++ c :: rest).span (· != c) = (front, c :: rest) := by
  refine span_eq_iff.2 ⟨rfl, fun d hd => ?_, by simp⟩
  exact bne_iff_ne.2 fun eq => h (eq ▸ hd)

/-! ## At slashes -/

theorem segments_ne_nil (s : String) : segments s ≠ [] := by
  unfold segments List.splitOn
  simp [List.splitOnP_ne_nil]

theorem segments_slash (s t : String) : segments (s ++ "/" ++ t) = segments s ++ segments t := by
  have slash : ('/' == '/') = true := rfl
  simp only [segments, List.splitOn, String.toList_append, List.append_assoc]
  rw [show "/".toList ++ t.toList = '/' :: t.toList from rfl,
    List.splitOnP_append_cons (p := (· == '/')) s.toList t.toList slash, List.map_append]

theorem segments_of_notMem {s : String} (h : '/' ∉ s.toList) : segments s = [s] := by
  have other : ∀ c ∈ s.toList, (c == '/') = false := fun c hc =>
    beq_eq_false_iff_ne.2 fun eq => h (eq ▸ hc)
  rw [segments, List.splitOn, List.splitOnP_eq_singleton other, List.map_singleton,
    String.ofList_toList]

/-- There is no slash in a segment. -/
theorem notMem_of_mem_segments {s part : String} (h : part ∈ segments s) : '/' ∉ part.toList := by
  have split (cs : List Char) : ∀ part ∈ cs.splitOnP (· == '/'), '/' ∉ part := by
    induction cs with
    | nil => simp [List.splitOnP_nil]
    | cons d cs ih =>
      rw [List.splitOnP_cons_eq_if_modifyHead]
      obtain ⟨first, rest, parts⟩ := List.exists_cons_of_ne_nil (List.splitOnP_ne_nil (· == '/') cs)
      rw [parts] at ih ⊢
      by_cases slash : d = '/'
      · simpa [slash] using ih
      · simpa [slash, Ne.symm slash] using ih
  obtain ⟨part, hpart, rfl⟩ := List.mem_map.1 h
  rw [String.toList_ofList]
  exact split _ part hpart

/-- A character that is no slash stands in some segment. -/
theorem exists_segment_of_mem {c : Char} {s : String} (h : c ∈ s.toList) (other : c ≠ '/') :
    ∃ part ∈ segments s, c ∈ part.toList := by
  have split (cs : List Char) (hc : c ∈ cs) : ∃ part ∈ cs.splitOnP (· == '/'), c ∈ part := by
    induction cs with
    | nil => exact absurd hc List.not_mem_nil
    | cons d cs ih =>
      rw [List.splitOnP_cons_eq_if_modifyHead]
      obtain ⟨first, rest, parts⟩ := List.exists_cons_of_ne_nil (List.splitOnP_ne_nil (· == '/') cs)
      rw [parts] at ih ⊢
      rcases List.mem_cons.1 hc with rfl | hc
      · rw [if_neg (by simpa using other), List.modifyHead_cons]
        exact ⟨c :: first, List.mem_cons_self, List.mem_cons_self⟩
      · obtain ⟨part, hpart, inside⟩ := ih hc
        by_cases slash : (d == '/') = true
        · rw [if_pos slash]
          exact ⟨part, List.mem_cons_of_mem [] hpart, inside⟩
        · rw [if_neg slash, List.modifyHead_cons]
          rcases List.mem_cons.1 hpart with rfl | hpart
          · exact ⟨d :: part, List.mem_cons_self, List.mem_cons_of_mem d inside⟩
          · exact ⟨part, List.mem_cons_of_mem _ hpart, inside⟩
  obtain ⟨part, hpart, inside⟩ := split s.toList h
  exact ⟨String.ofList part, List.mem_map_of_mem hpart, by rwa [String.toList_ofList]⟩

end ClassWeave
