import ClassWeave.Platform.Plan
import ClassWeave.Proofs.Steps

/-!
# What is planned

**Main result** (`Plan.ofClass_ok`). A plan holds one forwarding for each marked static method, in
the order of the methods and with the method's own name, descriptor and marker.
-/

namespace ClassWeave

theorem mapM_eq_ok_iff {ε α β : Type} {f : α → Except ε β} {as : List α} {bs : List β} :
    as.mapM f = .ok bs ↔ as.map f = bs.map .ok := by
  induction as generalizing bs with
  | nil => simp [pure, Except.pure, eq_comm]
  | cons a as ih =>
    simp only [List.mapM_cons, except_bind_eq_ok_iff, except_pure_eq_ok_iff, ih, List.map_cons]
    refine ⟨?_, ?_⟩
    · intro given
      obtain ⟨b, hb, rest, hrest, eq⟩ := given
      rw [← eq, hb, hrest, List.map_cons]
    · intro eq
      cases bs with
      | nil => simp at eq
      | cons b bs =>
        obtain ⟨head, tail⟩ := List.cons.inj eq
        exact ⟨b, head, bs, tail, rfl⟩

theorem mapM_eq_error_iff {ε α β : Type} {f : α → Except ε β} {as : List α} {e : ε} :
    as.mapM f = .error e ↔ ∃ before a after, as = before ++ a :: after ∧
      (∀ b ∈ before, ∃ x, f b = .ok x) ∧ f a = .error e := by
  induction as with
  | nil => simp [pure, Except.pure]
  | cons a as ih =>
    rw [List.mapM_cons, except_bind_eq_error_iff]
    constructor
    · intro h
      rcases h with here | ⟨b, hb, behind⟩
      · exact ⟨[], a, as, rfl, by simp, here⟩
      · rw [except_bind_eq_error_iff] at behind
        rcases behind with failed | ⟨bs, _, impossible⟩
        · obtain ⟨before, a', after, rfl, answered, failed⟩ := ih.1 failed
          exact ⟨a :: before, a', after, rfl, List.forall_mem_cons.2 ⟨⟨b, hb⟩, answered⟩, failed⟩
        · cases impossible
    · intro h
      obtain ⟨before, a', after, split, answered, failed⟩ := h
      cases before with
      | nil =>
        obtain ⟨rfl, rfl⟩ := List.cons.inj split
        exact .inl failed
      | cons b before =>
        obtain ⟨rfl, rfl⟩ := List.cons.inj split
        obtain ⟨⟨x, hx⟩, answered⟩ := List.forall_mem_cons.1 answered
        refine .inr ⟨x, hx, except_bind_eq_error_iff.2 (.inl ?_)⟩
        exact ih.2 ⟨before, a', after, rfl, answered, failed⟩

namespace Plan

/-- The forwarding is that of a marked static method. -/
structure Planned (pool : ConstantPool) (m : Member) (f : Forwarding) : Prop where
  isStatic : m.isStatic
  marker_eq : Marker.of? m pool = some f.marker
  name_eq : m.name pool = .ok f.name
  descriptor_eq : m.descriptor pool = .ok f.descriptor
  type_eq : MethodType.parse f.descriptor = .ok f.type

variable {className : String} {pool : ConstantPool} {position : Nat} {m : Member}

theorem examine_forward {f : Forwarding}
    (h : examine className pool position m = .ok (.forward f)) :
    f.position = position ∧ Planned pool m f := by
  unfold examine at h
  cases marked : Marker.of? m pool with
  | none => simp [marked, pure, Except.pure] at h
  | some marker =>
    rw [marked] at h
    obtain ⟨name, hname, h⟩ := except_bind_eq_ok_iff.1 h
    cases static : m.isStatic with
    | false => simp [static, pure, Except.pure] at h
    | true =>
      rw [static] at h
      obtain ⟨descriptor, hdescriptor, h⟩ := except_bind_eq_ok_iff.1 h
      obtain ⟨type, htype, h⟩ := except_bind_eq_ok_iff.1 h
      obtain rfl := Finding.forward.inj (except_pure_eq_ok_iff.1 h)
      rw [mapError_eq_ok_iff] at hname hdescriptor htype
      exact ⟨rfl, static, marked, hname, hdescriptor, htype⟩

/-- A marked static method is forwarded when the plan stands. -/
theorem examine_marked {finding : Finding} (h : examine className pool position m = .ok finding)
    (static : m.isStatic) (marked : (Marker.of? m pool).isSome) : ∃ f, finding = .forward f := by
  unfold examine at h
  obtain ⟨marker, hmarker⟩ := Option.isSome_iff_exists.1 marked
  rw [hmarker] at h
  obtain ⟨name, hname, h⟩ := except_bind_eq_ok_iff.1 h
  rw [static] at h
  obtain ⟨descriptor, hdescriptor, h⟩ := except_bind_eq_ok_iff.1 h
  obtain ⟨type, htype, h⟩ := except_bind_eq_ok_iff.1 h
  exact ⟨_, (except_pure_eq_ok_iff.1 h).symm⟩

/-- A plan is made of what is found on each method; it stands when nothing is to be forwarded or the
class is new enough. -/
theorem ofClass_eq_ok_iff {c : ClassFile} {plan : Plan} : ofClass c = .ok plan ↔
    ∃ (className : String) (findings : List Finding), c.name = .ok className ∧
      (∀ k : Nat, c.methods[k]?.map (examine className c.pool k) = findings[k]?.map .ok) ∧
      (findings.filterMap Finding.forwarding? = [] ∨ ¬ c.majorVersion < minDynamicVersion) ∧
      plan = ⟨findings.filterMap Finding.forwarding?, findings.filterMap Finding.report?⟩ := by
  unfold ofClass
  simp only [except_bind_eq_ok_iff, mapError_eq_ok_iff, mapM_eq_ok_iff]
  refine exists_congr fun className => ?_
  rw [← exists_and_left]
  refine exists_congr fun findings => and_congr_right fun _ => and_congr ?_ ?_
  · rw [List.ext_getElem?_iff]
    refine forall_congr' fun k => ?_
    rw [List.getElem?_map, List.getElem?_map, List.getElem?_zipIdx, Option.map_map, Nat.zero_add,
      Array.getElem?_toList]
    rfl
  · -- The version is looked at only when something is to be forwarded.
    generalize findings.filterMap Finding.forwarding? = forwardings
    have late : (!forwardings.isEmpty && decide (c.majorVersion < minDynamicVersion)) = true ↔
        ¬ (forwardings = [] ∨ ¬ c.majorVersion < minDynamicVersion) := by
      simp
    by_cases stands : forwardings = [] ∨ ¬ c.majorVersion < minDynamicVersion
    · rw [if_neg (by rw [late]; exact not_not_intro stands), except_pure_eq_ok_iff, eq_comm,
        and_iff_right stands]
    · rw [if_pos (late.2 stands)]
      exact iff_of_false nofun fun both => stands both.1

/-- **A plan stands** for the marked static methods, each once and in their order. -/
theorem ofClass_ok {c : ClassFile} {plan : Plan} (h : ofClass c = .ok plan) :
    (∀ f ∈ plan.forwardings, ∃ m, c.methods[f.position]? = some m ∧ Planned c.pool m f) ∧
    (∀ (k : Nat) (m : Member), c.methods[k]? = some m → m.isStatic →
      (Marker.of? m c.pool).isSome → ∃ f ∈ plan.forwardings, f.position = k) ∧
    plan.forwardings.Pairwise (·.position < ·.position) := by
  obtain ⟨className, findings, _, each, _, rfl⟩ := ofClass_eq_ok_iff.1 h
  -- What is found at a place is about the method at this place.
  have found {k : Nat} {f : Forwarding} (hk : findings[k]? = some (.forward f)) :
      ∃ m, c.methods[k]? = some m ∧ f.position = k ∧ Planned c.pool m f := by
    have at_k := each k
    rw [hk, Option.map_some, Option.map_eq_some_iff] at at_k
    obtain ⟨m, hm, examined⟩ := at_k
    exact ⟨m, hm, examine_forward examined⟩
  have of_forwarding {finding : Finding} {f : Forwarding} (hf : finding.forwarding? = some f) :
      finding = .forward f := by
    cases finding with
    | forward planned => rw [Option.some.inj hf]
    | unmarked | report => simp [Finding.forwarding?] at hf
  refine ⟨fun f hf => ?_, fun k m hm static marked => ?_, ?_⟩
  · obtain ⟨finding, hfinding, hf⟩ := List.mem_filterMap.1 hf
    rw [of_forwarding hf] at hfinding
    obtain ⟨k, hk⟩ := List.mem_iff_getElem?.1 hfinding
    obtain ⟨m, hm, rfl, planned⟩ := found hk
    exact ⟨m, hm, planned⟩
  · have at_k := each k
    rw [hm, Option.map_some, eq_comm, Option.map_eq_some_iff] at at_k
    obtain ⟨finding, there, examined⟩ := at_k
    obtain ⟨f, rfl⟩ := examine_marked examined.symm static marked
    obtain ⟨_, _, position, _⟩ := found there
    exact ⟨f, List.mem_filterMap.2 ⟨_, List.mem_of_getElem? there, rfl⟩, position⟩
  · rw [List.pairwise_filterMap, List.pairwise_iff_getElem]
    intro j k hj hk lt f hf g hg
    have atJ : findings[j]? = some (.forward f) := by
      rw [List.getElem?_eq_getElem hj, of_forwarding hf]
    have atK : findings[k]? = some (.forward g) := by
      rw [List.getElem?_eq_getElem hk, of_forwarding hg]
    obtain ⟨_, _, positionJ, _⟩ := found atJ
    obtain ⟨_, _, positionK, _⟩ := found atK
    omega

end Plan

end ClassWeave
