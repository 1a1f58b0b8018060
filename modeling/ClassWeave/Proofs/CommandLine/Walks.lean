import ClassWeave.Proofs.CommandLine.Contents
import ClassWeave.Proofs.Steps
import Mathlib.Data.List.Sort
import Mathlib.Data.String.Basic

/-!
# Walks

**The order of a walk** (`FileTree.walked`). A walk goes down into each directory in the order of
the names. So it meets the files in the order of their paths, compared name by name
(`FileTree.walked_eq_mergeSort`).

**The run of a walk** (`FileTree.walkBelow_run`). A walk over an input that its visits leave alone
is the row of these visits, whatever they write elsewhere.
-/

namespace ClassWeave

namespace FileTree

variable {t u : FileTree} {entries : List (String × FileTree)} {name : String} {data : Bytes}
  {path location : Path} {depth : Nat}

/-! ## Sorting by keys -/

theorem pairwise_lt_mergeSort {κ β : Type} [LinearOrder κ] {l : List (κ × β)}
    (nodup : (l.map Prod.fst).Nodup) :
    (l.mergeSort fun a b => a.1 ≤ b.1).Pairwise fun a b => a.1 < b.1 := by
  have sorted : (l.mergeSort fun a b => a.1 ≤ b.1).Pairwise fun a b => a.1 ≤ b.1 := by
    refine (@List.pairwise_mergeSort _ (fun a b => decide (a.1 ≤ b.1)) ?_ ?_ l).imp ?_
    · intro a b c
      simpa using le_trans
    · intro a b
      simpa using le_total a.1 b.1
    · simp
  have apart : (l.mergeSort fun a b => a.1 ≤ b.1).Pairwise fun a b => a.1 ≠ b.1 := by
    have perm := (List.mergeSort_perm l fun a b => a.1 ≤ b.1).map Prod.fst
    exact List.pairwise_map.1 (perm.nodup_iff.2 nodup)
  exact sorted.imp₂ (fun a b le ne => lt_of_le_of_ne le ne) apart

/-! ## The order of a walk -/

/-- The files at and below a path in the order in which a walk of some depth meets them. -/
def walked : Nat → Path → FileTree → List (Path × Bytes)
  | 0, _, _ => []
  | _ + 1, below, file data => [(below, data)]
  | depth + 1, below, directory entries =>
    (entries.mergeSort fun a b => a.1 ≤ b.1).flatMap fun e => walked depth (below ++ [e.1]) e.2

/-- Every place in the tree is above some depth. -/
def Within (depth : Nat) (t : FileTree) : Prop :=
  ∀ location u, t.get? location = some u → location.length < depth

theorem not_within_zero : ¬ Within 0 t := fun bound => absurd (bound [] t get?_nil) (by simp)

theorem Within.inside (bound : Within (depth + 1) (directory entries))
    (h : (directory entries).WellNamed) {e : String × FileTree} (he : e ∈ entries) :
    Within depth e.2 := by
  intro location u found
  have deeper := bound (e.1 :: location) u (by simp [lookup_of_mem h.here.nodup he, found])
  simpa using deeper

/-- A walk meets the files that are listed. -/
theorem mem_walked_iff (h : t.WellNamed) (bound : Within depth t) {f : Path × Bytes} :
    f ∈ walked depth path t ↔ f ∈ t.files path := by
  induction depth generalizing path t with
  | zero => exact absurd bound not_within_zero
  | succ depth ih =>
    cases t with
    | file data => rw [walked, files]
    | directory entries =>
      simp only [walked, files, filesBelow_eq, List.mem_flatMap, List.mem_mergeSort]
      exact exists_congr fun e => and_congr_right fun he => ih (h.inside he) (bound.inside h he)

theorem exists_of_mem_files (h : t.WellNamed) {f : Path × Bytes} (hf : f ∈ t.files path) :
    ∃ below, f.1 = path ++ below := by
  obtain ⟨below, eq, -⟩ := (mem_files_iff h).1 hf
  exact ⟨below, eq⟩

theorem append_lt_append (front : Path) {a b : Path} (h : a < b) : front ++ a < front ++ b := by
  induction front with
  | nil => exact h
  | cons part front ih => exact List.cons_lt_cons_iff.2 (.inr ⟨rfl, ih⟩)

/-- The paths that a walk meets ascend. -/
theorem pairwise_walked (h : t.WellNamed) (bound : Within depth t) :
    (walked depth path t).Pairwise fun a b => a.1 < b.1 := by
  induction depth generalizing path t with
  | zero => exact absurd bound not_within_zero
  | succ depth ih =>
    cases t with
    | file data => simp [walked]
    | directory entries =>
      rw [walked, List.pairwise_flatMap]
      refine ⟨fun e he => ?_, ?_⟩
      · have inside := List.mem_mergeSort.1 he
        exact ih (h.inside inside) (bound.inside h inside)
      · -- What is below one name comes before what is below a later one.
        refine (pairwise_lt_mergeSort h.here.nodup).imp_of_mem fun {a b} ha hb less x hx y hy => ?_
        have ha := List.mem_mergeSort.1 ha
        have hb := List.mem_mergeSort.1 hb
        rw [mem_walked_iff (h.inside ha) (bound.inside h ha)] at hx
        rw [mem_walked_iff (h.inside hb) (bound.inside h hb)] at hy
        obtain ⟨p, hp⟩ := exists_of_mem_files (h.inside ha) hx
        obtain ⟨q, hq⟩ := exists_of_mem_files (h.inside hb) hy
        rw [hp, hq, List.append_assoc, List.append_assoc]
        exact append_lt_append path (List.cons_lt_cons_iff.2 (.inl less))

/-- **A walk meets the files in the order of their paths**, compared name by name. -/
theorem walked_eq_mergeSort (h : t.WellNamed) (bound : Within depth t) :
    walked depth path t = (t.files path).mergeSort fun a b => a.1 ≤ b.1 := by
  have ascends : (walked depth path t).Pairwise fun a b => a.1 < b.1 := pairwise_walked h bound
  have nodup : ((t.files path).map Prod.fst).Nodup := nodup_files h
  have sorted := pairwise_lt_mergeSort nodup
  refine List.Perm.eq_of_pairwise (fun a b _ _ less more => absurd less (lt_asymm more)) ascends
    sorted ?_
  rw [List.perm_ext_iff_of_nodup]
  · intro f
    rw [mem_walked_iff h bound, List.mem_mergeSort]
  · exact ascends.imp fun less => ne_of_apply_ne Prod.fst less.ne
  · exact sorted.imp fun less => ne_of_apply_ne Prod.fst less.ne

/-! ## The run of a walk -/

section

variable {ε : Type} {root : Path} {fault : ε} {visit : Path → ExceptT ε (StateM FileTree) Unit}
  {whole : FileTree} {property : FileTree → Prop}

theorem host_kind (found : whole.find? path = some t) :
    host.kind path whole = (some t.kind, whole) := by
  show ((whole.find? path).map kind, whole) = _
  rw [found]
  rfl

theorem host_list (found : whole.find? path = some (directory entries)) :
    host.list path whole = (some (entries.map fun e => (e.1, e.2.kind)), whole) := by
  have state : ((get : StateM FileTree FileTree) whole).1 = whole := rfl
  simp only [host, stateM_bind_run, state, found]
  rfl

theorem host_read (found : whole.find? path = some (file data)) :
    host.read path whole = (some data, whole) := by
  have state : ((get : StateM FileTree FileTree) whole).1 = whole := rfl
  simp only [host, stateM_bind_run, state, found]
  rfl

/-- What is in the input is found below its path. -/
def Found (input : FileTree) (root : Path) (whole : FileTree) : Prop :=
  ∀ path u, input.get? path = some u →
    whole.find? (if path.isEmpty then root else root.append path) = some u

/-- A walk below a directory of the input visits the files there, one after the other. -/
theorem walkBelow_run {input : FileTree} (h : input.WellNamed)
    (found : ∀ whole, property whole → Found input root whole)
    (keeps : ∀ path data, input.get? path = some (file data) →
      ∀ s u, property s → (visit path).run s = (.ok (), u) → property u)
    (bound : Within depth (directory entries)) (here : input.get? path = some (directory entries))
    (hs : property whole) :
    (host.walkBelow root fault visit depth path).run whole =
      ((walked depth path (directory entries)).forM fun f => visit f.1).run whole := by
  -- One induction on the depth, and inside it one along the entries that have been listed.
  induction depth generalizing path entries whole with
  | zero => exact absurd bound not_within_zero
  | succ depth ih =>
    have named := h.get? here
    have below {e : String × FileTree} (he : e ∈ entries) :
        input.get? (path ++ [e.1]) = some e.2 := by
      simp [get?_append, here, lookup_of_mem named.here.nodup he]
    rw [Host.walkBelow, exceptT_lift_bind_run, host_list (found whole hs path _ here)]
    simp only
    rw [walked, ← List.map_mergeSort (r := fun a b => decide (a.1 ≤ b.1)) (by simp)]
    have inside : ∀ e ∈ entries.mergeSort fun a b => a.1 ≤ b.1, e ∈ entries :=
      fun e he => List.mem_mergeSort.1 he
    generalize (entries.mergeSort fun a b => a.1 ≤ b.1) = sorted at inside ⊢
    induction sorted generalizing whole with
    | nil => rfl
    | cons e sorted row =>
      obtain ⟨he, others⟩ := List.forall_mem_cons.1 inside
      rw [List.map_cons, List.flatMap_cons, exceptT_forM_append]
      refine exceptT_bind_congr ?_ fun _ u ran => row ?_ others
      · have deeper := bound.inside named he
        have place := below he
        cases kind : e.2 with
        | file data =>
          rw [kind] at deeper
          cases depth with
          | zero => exact absurd deeper not_within_zero
          | succ depth =>
            show _ = (visit (path ++ [e.1]) >>= fun _ => pure ()).run whole
            rw [bind_pure_unit]
            rfl
        | directory inner =>
          rw [kind] at deeper place
          exact ih deeper place hs
      · refine exceptT_forM_keeps (fun f hf s v hs => ?_) hs ran
        have listed := (mem_walked_iff (named.inside he) (bound.inside named he)).1 hf
        obtain ⟨rest, eq, there⟩ := (mem_files_iff (named.inside he)).1 listed
        exact keeps f.1 f.2 (by rw [eq, get?_append, below he, Option.bind_some, there]) s v hs

/-- **A walk visits all files of the input** in the order of their paths. -/
theorem walk_run {input : FileTree} (property : FileTree → Prop) (h : input.WellNamed)
    (found : ∀ whole, property whole → Found input root whole)
    (keeps : ∀ path data, input.get? path = some (file data) →
      ∀ s u, property s → (visit path).run s = (.ok (), u) → property u)
    (bound : Within Host.maxDepth input) (hs : property whole) :
    (host.walk root fault visit).run whole =
      (((input.files []).mergeSort fun a b => a.1 ≤ b.1).forM fun f => visit f.1).run whole := by
  have at_root := found whole hs [] input get?_nil
  rw [if_pos (by rfl)] at at_root
  rw [Host.walk, exceptT_lift_bind_run, host_kind at_root]
  cases input with
  | file data =>
    have only : ((file data).files []).mergeSort (fun a b => a.1 ≤ b.1) = [([], data)] := by
      simp [files]
    rw [only]
    show _ = (visit [] >>= fun _ => pure ()).run whole
    rw [bind_pure_unit]
    rfl
  | directory entries =>
    rw [← walked_eq_mergeSort h bound]
    exact walkBelow_run h found keeps bound get?_nil hs

end

end FileTree

end ClassWeave
