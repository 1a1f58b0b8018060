import ClassWeave.Proofs.Platform.Markers
import ClassWeave.Proofs.Platform.Unmarked
import Mathlib.Data.List.Forall2

/-!
# Plans and why there is none

**One method** (`Plan.Examined`). What is found on a method, or what is wrong with it
(`Plan.MethodFault`).

**Main result** (`plan_outcome`). There is a plan exactly for the classes that are `Plan.Plannable`.
It lists the marked static methods and reports the other marked ones (`Plan.Describes`). Otherwise
the error is the first one (`Plan.ClassFault`), and nothing is reported.
-/

namespace ClassWeave

/-! ## One method -/

namespace Plan

/-- The forwarding is made of the method at the position. -/
structure ForwardingOf (pool : ConstantPool) (m : Member) (position : Nat) (f : Forwarding) :
    Prop where
  position_eq : f.position = position
  name_eq : m.name pool = .ok f.name
  descriptor_eq : m.descriptor pool = .ok f.descriptor
  type_eq : MethodType.parse f.descriptor = .ok f.type
  carries : m.Carries pool f.marker
  legacy_first : m.Carries pool .legacy → f.marker = .legacy

/-- What is wrong with a marked method. -/
inductive MethodFault (className : String) (pool : ConstantPool) (m : Member) : Error → Prop
  | name {e : PoolError} : m.Expects pool → m.name pool = .error e →
    MethodFault className pool m (.pool e)
  | descriptor {name : String} {e : PoolError} : m.Expects pool → m.isStatic →
    m.name pool = .ok name → m.descriptor pool = .error e → MethodFault className pool m (.pool e)
  | type {name descriptor : String} {e : DescriptorError} : m.Expects pool → m.isStatic →
    m.name pool = .ok name → m.descriptor pool = .ok descriptor →
    MethodType.parse descriptor = .error e →
    MethodFault className pool m (.descriptor className name e)

/-- What an examination of the method at a position answers. -/
inductive Examined (className : String) (pool : ConstantPool) (m : Member) (position : Nat) :
    Except Error Finding → Prop
  | unmarked : ¬ m.Expects pool → Examined className pool m position (.ok .unmarked)
  | reported {name : String} : m.Expects pool → ¬ m.isStatic → m.name pool = .ok name →
    Examined className pool m position (.ok (.report (staticOnly className name)))
  | forwarded {f : Forwarding} : m.isStatic → ForwardingOf pool m position f →
    Examined className pool m position (.ok (.forward f))
  | fault {e : Error} : MethodFault className pool m e →
    Examined className pool m position (.error e)

variable {className : String} {pool : ConstantPool} {m : Member} {position : Nat}

theorem examined_examine :
    Examined className pool m position (examine className pool position m) := by
  unfold examine
  cases marked : Marker.of? m pool with
  | none => exact .unmarked (Marker.of?_eq_none_iff.1 marked)
  | some marker =>
    obtain ⟨carried, legacyFirst⟩ := Marker.of?_eq_some_iff.1 marked
    have expects : m.Expects pool := ⟨marker, carried⟩
    cases named : m.name pool with
    | error e => exact .fault (.name expects named)
    | ok name =>
      cases static : m.isStatic with
      | false => exact .reported expects (by simp [static]) named
      | true =>
        cases described : m.descriptor pool with
        | error e => exact .fault (.descriptor expects static named described)
        | ok descriptor =>
          show Examined _ _ _ _ ((MethodType.parse descriptor).mapError _ >>= _)
          cases parsed : MethodType.parse descriptor with
          | error e => exact .fault (.type expects static named described parsed)
          | ok type =>
            exact .forwarded static ⟨rfl, named, described, parsed, carried, legacyFirst⟩

theorem examine_eq_error_iff {e : Error} :
    examine className pool position m = .error e ↔ MethodFault className pool m e := by
  constructor
  · intro failed
    have examined : Examined className pool m position _ := examined_examine
    rw [failed] at examined
    cases examined with
    | fault fault => exact fault
  · intro fault
    have marked (expects : m.Expects pool) : ∃ marker, Marker.of? m pool = some marker := by
      apply Option.ne_none_iff_exists'.1
      intro none
      exact Marker.of?_eq_none_iff.1 none expects
    unfold examine
    -- A fault says that all steps before it succeed, so that the examination gets as far as that.
    cases fault with
    | name expects unnamed =>
      obtain ⟨marker, hmarker⟩ := marked expects
      rw [hmarker, unnamed]
      rfl
    | descriptor expects static named undescribed =>
      obtain ⟨marker, hmarker⟩ := marked expects
      rw [hmarker, named, undescribed, static]
      rfl
    | type expects static named described untyped =>
      obtain ⟨marker, hmarker⟩ := marked expects
      rw [hmarker, named, described, static]
      show (MethodType.parse _).mapError _ >>= _ = _
      rw [untyped]
      rfl

theorem exists_examine_iff : (∃ finding, examine className pool position m = .ok finding) ↔
    ∀ e, ¬ MethodFault className pool m e := by
  cases h : examine className pool position m with
  | ok finding =>
    refine iff_of_true ⟨finding, rfl⟩ ?_
    intro e fault
    exact nomatch h.symm.trans (examine_eq_error_iff.2 fault)
  | error e =>
    refine iff_of_false nofun ?_
    intro faultless
    exact faultless e (examine_eq_error_iff.1 h)

/-- A method without a fault has what a plan needs of it. -/
theorem faultless_iff : (∀ e, ¬ MethodFault className pool m e) ↔
    (m.Expects pool → ∃ name, m.name pool = .ok name) ∧
    (m.Expects pool → m.isStatic → ∃ descriptor type, m.descriptor pool = .ok descriptor ∧
      MethodType.parse descriptor = .ok type) := by
  constructor
  · intro faultless
    have named : m.Expects pool → ∃ name, m.name pool = .ok name := by
      intro expects
      cases h : m.name pool with
      | error e => exact absurd (.name expects h) (faultless _)
      | ok name => exact ⟨name, rfl⟩
    refine ⟨named, ?_⟩
    intro expects static
    obtain ⟨name, hname⟩ := named expects
    cases described : m.descriptor pool with
    | error e => exact absurd (.descriptor expects static hname described) (faultless _)
    | ok descriptor =>
      cases parsed : MethodType.parse descriptor with
      | error e => exact absurd (.type expects static hname described parsed) (faultless _)
      | ok type => exact ⟨descriptor, type, rfl, parsed⟩
  · intro h e fault
    cases fault with
    | name expects unnamed =>
      obtain ⟨name, hname⟩ := h.1 expects
      exact nomatch hname.symm.trans unnamed
    | descriptor expects static _ undescribed =>
      obtain ⟨descriptor, _, described, _⟩ := h.2 expects static
      exact nomatch described.symm.trans undescribed
    | type expects static _ described untyped =>
      obtain ⟨descriptor, type, described', typed⟩ := h.2 expects static
      obtain rfl := Except.ok.inj (described.symm.trans described')
      exact nomatch typed.symm.trans untyped

end Plan

/-! ## Many methods -/

/-- What is chosen among the findings belongs to the items that are chosen alike. -/
theorem forall₂_filter_filterMap {α β γ : Type} {R : α → β → Prop} {S : α → γ → Prop} {p : α → Bool}
    {g : β → Option γ} {as : List α} {bs : List β}
    (each : ∀ a b, R a b → (p a ∧ ∃ c, g b = some c ∧ S a c) ∨ (¬ p a ∧ g b = none))
    (h : List.Forall₂ R as bs) : List.Forall₂ S (as.filter p) (bs.filterMap g) := by
  induction h with
  | nil => exact .nil
  | @cons a b _ _ related _ ih =>
    rcases each a b related with ⟨chosen, c, found, same⟩ | ⟨other, nothing⟩
    · rw [List.filter_cons_of_pos chosen, List.filterMap_cons_some found]
      exact .cons same ih
    · rw [List.filter_cons_of_neg other, List.filterMap_cons_none nothing]
      exact ih

/-! ## One class -/

namespace Plan

structure Plannable (c : ClassFile) : Prop where
  class_named : ∃ className, c.name = .ok className
  named : ∀ m ∈ c.methods, m.Expects c.pool → ∃ name, m.name c.pool = .ok name
  typed : ∀ m ∈ c.methods, m.Expects c.pool → m.isStatic →
    ∃ descriptor type, m.descriptor c.pool = .ok descriptor ∧ MethodType.parse descriptor = .ok type
  version : (∀ m ∈ c.methods, m.Expects c.pool → ¬ m.isStatic) ∨ 51 ≤ c.majorVersion

/-- The plan forwards the marked static methods, and it reports the other marked methods. -/
structure Describes (c : ClassFile) (plan : Plan) : Prop where
  forwardings : List.Forall₂ (fun entry f => ForwardingOf c.pool entry.1 entry.2 f)
    (c.methods.toList.zipIdx.filter fun entry => entry.1.Expects c.pool ∧ entry.1.isStatic)
    plan.forwardings
  reports : ∃ className, c.name = .ok className ∧ List.Forall₂
    (fun m report => ∃ name, m.name c.pool = .ok name ∧ report = staticOnly className name)
    (c.methods.toList.filter fun m => m.Expects c.pool ∧ ¬ m.isStatic) plan.reports

/-- The first thing that is wrong with a class: its name, then a method, then its version. -/
inductive ClassFault (c : ClassFile) : Error → Prop
  | unnamed {e : PoolError} : c.name = .error e → ClassFault c (.pool e)
  | method {className : String} {before after : List Member} {m : Member} {e : Error} :
    c.name = .ok className → c.methods.toList = before ++ m :: after →
    (∀ m' ∈ before, ∀ e', ¬ MethodFault className c.pool m' e') →
    MethodFault className c.pool m e → ClassFault c e
  | version {className : String} : c.name = .ok className →
    (∀ m ∈ c.methods, ∀ e, ¬ MethodFault className c.pool m e) →
    (∃ m ∈ c.methods, m.Expects c.pool ∧ m.isStatic) → c.majorVersion < 51 →
    ClassFault c (.unsupportedVersion className c.majorVersion)

def examineAll (className : String) (c : ClassFile) : Except Error (List Finding) :=
  c.methods.toList.zipIdx.mapM fun entry => examine className c.pool entry.2 entry.1

/-- Each finding is that of a method, in the order of the methods. -/
def Answers (className : String) (c : ClassFile) (findings : List Finding) : Prop :=
  List.Forall₂ (fun entry finding => Examined className c.pool entry.1 entry.2 (.ok finding))
    c.methods.toList.zipIdx findings

variable {c : ClassFile} {plan : Plan} {findings : List Finding}

theorem mem_methods_iff : m ∈ c.methods ↔ ∃ position, (m, position) ∈ c.methods.toList.zipIdx := by
  rw [← Array.mem_toList_iff]
  constructor
  · intro hm
    rw [← List.zipIdx_map_fst 0 c.methods.toList, List.mem_map] at hm
    obtain ⟨entry, hentry, rfl⟩ := hm
    exact ⟨entry.2, hentry⟩
  · intro h
    obtain ⟨position, hentry⟩ := h
    exact List.fst_mem_of_mem_zipIdx hentry

theorem ofClass_eq (named : c.name = .ok className) : ofClass c =
    match examineAll className c with
    | .error e => .error e
    | .ok findings =>
      if findings.filterMap Finding.forwarding? ≠ [] ∧ c.majorVersion < 51 then
        .error (.unsupportedVersion className c.majorVersion)
      else .ok ⟨findings.filterMap Finding.forwarding?, findings.filterMap Finding.report?⟩ := by
  unfold ofClass
  rw [named]
  show (examineAll className c >>= _) = _
  cases examineAll className c with
  | error e => rfl
  | ok findings =>
    show (if _ then _ else _) = _
    have late : (!(findings.filterMap Finding.forwarding?).isEmpty &&
        decide (c.majorVersion < minDynamicVersion)) = true ↔
          findings.filterMap Finding.forwarding? ≠ [] ∧ c.majorVersion < 51 := by
      simp only [Bool.and_eq_true, Bool.not_eq_true', List.isEmpty_eq_false_iff, decide_eq_true_eq]
      rfl
    by_cases stands : findings.filterMap Finding.forwarding? ≠ [] ∧ c.majorVersion < 51
    · rw [if_pos (late.2 stands)]
      exact (if_pos stands).symm
    · rw [if_neg (mt late.1 stands)]
      exact (if_neg stands).symm

theorem answers_of_examineAll (h : examineAll className c = .ok findings) :
    Answers className c findings := by
  have answers := mapM_eq_ok_iff.1 h
  rw [← List.forall₂_eq_eq_eq, List.forall₂_map_left_iff, List.forall₂_map_right_iff] at answers
  refine answers.imp ?_
  intro entry finding answer
  rw [← answer]
  exact examined_examine

/-- The methods are examined up to the first one with a fault. -/
theorem examineAll_eq_error_iff {e : Error} : examineAll className c = .error e ↔
    ∃ before m after, c.methods.toList = before ++ m :: after ∧
      (∀ m' ∈ before, ∀ e', ¬ MethodFault className c.pool m' e') ∧
      MethodFault className c.pool m e := by
  rw [examineAll, mapM_eq_error_iff]
  constructor
  · intro h
    obtain ⟨before, ⟨m, position⟩, after, split, answered, failed⟩ := h
    refine ⟨before.map Prod.fst, m, after.map Prod.fst, ?_, ?_, ?_⟩
    · rw [← List.zipIdx_map_fst 0 c.methods.toList, split, List.map_append, List.map_cons]
    · intro m' hm'
      obtain ⟨entry, hentry, rfl⟩ := List.mem_map.1 hm'
      exact exists_examine_iff.1 (answered entry hentry)
    · exact examine_eq_error_iff.1 failed
  · intro h
    obtain ⟨before, m, after, split, faultless, fault⟩ := h
    rw [split, List.zipIdx_append, List.zipIdx_cons]
    refine ⟨before.zipIdx, _, _, rfl, ?_, examine_eq_error_iff.2 fault⟩
    intro entry hentry
    exact exists_examine_iff.2 (faultless entry.1 (List.fst_mem_of_mem_zipIdx hentry))

theorem exists_examineAll_iff : (∃ findings, examineAll className c = .ok findings) ↔
    ∀ m ∈ c.methods, ∀ e, ¬ MethodFault className c.pool m e := by
  constructor
  · intro answered m hm
    obtain ⟨findings, h⟩ := answered
    obtain ⟨position, hentry⟩ := mem_methods_iff.1 hm
    have found := List.mem_map_of_mem (f := fun entry : Member × Nat =>
      examine className c.pool entry.2 entry.1) hentry
    rw [mapM_eq_ok_iff.1 h] at found
    obtain ⟨finding, _, answer⟩ := List.mem_map.1 found
    exact exists_examine_iff.1 ⟨finding, answer.symm⟩
  · intro faultless
    cases h : examineAll className c with
    | ok findings => exact ⟨findings, rfl⟩
    | error e =>
      obtain ⟨before, m, after, split, _, fault⟩ := examineAll_eq_error_iff.1 h
      have inside : m ∈ c.methods := by
        rw [← Array.mem_toList_iff, split]
        exact List.mem_append_right before List.mem_cons_self
      exact absurd fault (faultless m inside e)

/-- A marked static method is forwarded, and nothing else is. -/
theorem forwardings_of_answers (answers : Answers className c findings) :
    List.Forall₂ (fun entry f => ForwardingOf c.pool entry.1 entry.2 f)
      (c.methods.toList.zipIdx.filter fun entry => entry.1.Expects c.pool ∧ entry.1.isStatic)
      (findings.filterMap Finding.forwarding?) := by
  refine forall₂_filter_filterMap ?_ answers
  intro entry finding examined
  cases examined with
  | unmarked unmarked => exact .inr ⟨by simp [unmarked], rfl⟩
  | reported _ dynamic => exact .inr ⟨by simp [dynamic], rfl⟩
  | @forwarded f static made =>
    have expects : entry.1.Expects c.pool := ⟨f.marker, made.carries⟩
    exact .inl ⟨by simp [expects, static], f, rfl, made⟩

/-- Any other marked method is reported, and nothing else is. -/
theorem reports_of_answers (answers : Answers className c findings) :
    List.Forall₂
      (fun m report => ∃ name, m.name c.pool = .ok name ∧ report = staticOnly className name)
      (c.methods.toList.filter fun m => m.Expects c.pool ∧ ¬ m.isStatic)
      (findings.filterMap Finding.report?) := by
  -- A report does not tell the position of its method, which is left out first.
  have methods : List.Forall₂
      (fun m finding => ∃ position, Examined className c.pool m position (.ok finding))
      c.methods.toList findings := by
    rw [← List.zipIdx_map_fst 0 c.methods.toList, List.forall₂_map_left_iff]
    exact answers.imp fun entry finding examined => ⟨entry.2, examined⟩
  refine forall₂_filter_filterMap ?_ methods
  intro m finding found
  obtain ⟨position, examined⟩ := found
  cases examined with
  | unmarked unmarked => exact .inr ⟨by simp [unmarked], rfl⟩
  | @reported name expects dynamic hname =>
    exact .inl ⟨by simp [expects, dynamic], _, rfl, name, hname, rfl⟩
  | forwarded static => exact .inr ⟨by simp [static], rfl⟩

theorem forwardings_eq_nil_iff_of_answers (answers : Answers className c findings) :
    findings.filterMap Finding.forwarding? = [] ↔
      ∀ m ∈ c.methods, m.Expects c.pool → ¬ m.isStatic := by
  have length := (forwardings_of_answers answers).length_eq
  rw [← List.length_eq_zero_iff, ← length, List.length_eq_zero_iff, List.filter_eq_nil_iff]
  simp only [decide_eq_true_eq, not_and]
  constructor
  · intro nothing m hm
    obtain ⟨position, hentry⟩ := mem_methods_iff.1 hm
    exact nothing (m, position) hentry
  · intro nothing entry hentry
    exact nothing entry.1 (mem_methods_iff.2 ⟨entry.2, hentry⟩)

theorem describes_of_ok (h : ofClass c = .ok plan) : Describes c plan := by
  cases named : c.name with
  | error e => exact nomatch (ofClass_unnamed named).symm.trans h
  | ok className =>
    rw [ofClass_eq named] at h
    cases all : examineAll className c with
    | error e =>
      rw [all] at h
      cases h
    | ok findings =>
      have answers := answers_of_examineAll all
      simp only [all, ite_eq_iff, reduceCtorEq, and_false, false_or, Except.ok.injEq] at h
      obtain ⟨_, rfl⟩ := h
      exact ⟨forwardings_of_answers answers, className, named, reports_of_answers answers⟩

theorem ofClass_eq_error_iff_of_named (named : c.name = .ok className) {e : Error} :
    ofClass c = .error e ↔ examineAll className c = .error e ∨
      (∀ m ∈ c.methods, ∀ e, ¬ MethodFault className c.pool m e) ∧
      (∃ m ∈ c.methods, m.Expects c.pool ∧ m.isStatic) ∧ c.majorVersion < 51 ∧
      .unsupportedVersion className c.majorVersion = e := by
  rw [ofClass_eq named, ← exists_examineAll_iff]
  cases all : examineAll className c with
  | error e' => simp
  | ok findings =>
    have nothing := forwardings_eq_nil_iff_of_answers (answers_of_examineAll all)
    have something : findings.filterMap Finding.forwarding? ≠ [] ↔
        ∃ m ∈ c.methods, m.Expects c.pool ∧ m.isStatic := by
      rw [ne_eq, nothing]
      push Not
      rfl
    simp [ite_eq_iff, something, and_assoc]

/-- **Why there is no plan**: for the first thing that is wrong. -/
theorem ofClass_eq_error_iff {e : Error} : ofClass c = .error e ↔ ClassFault c e := by
  constructor
  · intro h
    cases named : c.name with
    | error e' =>
      rw [ofClass_unnamed named] at h
      cases h
      exact .unnamed named
    | ok className =>
      rcases (ofClass_eq_error_iff_of_named named).1 h with failed | ⟨faultless, some, old, rfl⟩
      · obtain ⟨before, m, after, split, faultless, fault⟩ := examineAll_eq_error_iff.1 failed
        exact .method named split faultless fault
      · exact .version named faultless some old
  · intro h
    cases h with
    | unnamed unnamed => exact ofClass_unnamed unnamed
    | method named split faultless fault =>
      have failed := examineAll_eq_error_iff.2 ⟨_, _, _, split, faultless, fault⟩
      exact (ofClass_eq_error_iff_of_named named).2 (.inl failed)
    | version named faultless some old =>
      exact (ofClass_eq_error_iff_of_named named).2 (.inr ⟨faultless, some, old, rfl⟩)

/-- **When there is a plan.** -/
theorem exists_ofClass_iff : (∃ plan, ofClass c = .ok plan) ↔ Plannable c := by
  constructor
  · intro h
    obtain ⟨plan, h⟩ := h
    have noFault : ∀ e, ¬ ClassFault c e :=
      fun e fault => nomatch h.symm.trans (ofClass_eq_error_iff.2 fault)
    cases named : c.name with
    | error e => exact absurd (.unnamed named) (noFault _)
    | ok className =>
      have faultless : ∀ m ∈ c.methods, ∀ e, ¬ MethodFault className c.pool m e := by
        apply exists_examineAll_iff.1
        cases all : examineAll className c with
        | ok findings => exact ⟨findings, rfl⟩
        | error e =>
          have failed := (ofClass_eq_error_iff_of_named named).2 (.inl all)
          exact nomatch h.symm.trans failed
      refine ⟨⟨className, named⟩, fun m hm => (faultless_iff.1 (faultless m hm)).1,
        fun m hm => (faultless_iff.1 (faultless m hm)).2, ?_⟩
      -- A class that is too old for what is to be forwarded would be at fault.
      by_contra old
      push Not at old
      exact noFault _ (.version named faultless old.1 (UInt16.not_le.1 old.2))
  · intro plannable
    cases h : ofClass c with
    | ok plan => exact ⟨plan, rfl⟩
    | error e =>
      have faultless {className : String} (m : Member) (hm : m ∈ c.methods) :
          ∀ e, ¬ MethodFault className c.pool m e :=
        faultless_iff.2 ⟨plannable.named m hm, plannable.typed m hm⟩
      cases ofClass_eq_error_iff.1 h with
      | unnamed unnamed =>
        obtain ⟨className, named⟩ := plannable.class_named
        exact nomatch named.symm.trans unnamed
      | @method _ before _ m _ _ split _ fault =>
        have inside : m ∈ c.methods := by
          rw [← Array.mem_toList_iff, split]
          exact List.mem_append_right before List.mem_cons_self
        exact absurd fault (faultless m inside e)
      | version _ _ some old =>
        obtain ⟨m, hm, expects, static⟩ := some
        rcases plannable.version with none | new
        · exact absurd static (none m hm expects)
        · exact absurd old (UInt16.not_lt.2 new)

end Plan

/-- **What planning answers.** There is a plan exactly for a plannable class. The plan forwards the
marked static methods and reports the other marked ones, and these reports are all that is added to
those made before. Otherwise the error is the first one, and nothing is reported or changed. -/
theorem plan_outcome (c : ClassFile) :
    ((∃ plan, Plan.ofClass c = .ok plan) ↔ Plan.Plannable c) ∧
    (∀ plan, Plan.ofClass c = .ok plan → Plan.Describes c plan ∧
      ∀ i reports,
        (EStateM.Result.last (forwardMarked i ⟨c, reports⟩)).reports = reports ++ plan.reports) ∧
    ∀ e, (Plan.ofClass c = .error e ↔ Plan.ClassFault c e) ∧
      (Plan.ofClass c = .error e →
        ∀ i reports, forwardMarked i ⟨c, reports⟩ = .error e ⟨c, reports⟩) := by
  refine ⟨Plan.exists_ofClass_iff, ?_, ?_⟩
  · intro plan planned
    refine ⟨Plan.describes_of_ok planned, ?_⟩
    intro i reports
    rw [forwardMarked_of_planned i (s := ⟨c, reports⟩) planned]
    dsimp only
    cases plan.forwardings.forM (·.install i) c <;> rfl
  · intro e
    refine ⟨Plan.ofClass_eq_error_iff, ?_⟩
    intro unplanned i reports
    exact forwardMarked_of_unplanned i unplanned

open Marker in
/-- A class with two marked methods: one of its instances, marked behind an annotation whose type is
missing, and a static one that carries both markers, the legacy one in its last attribute. -/
def expectingClass (version : UInt16) : ClassFile := { ClassFile.empty with
  majorVersion := version
  pool := ⟨#[.utf8 "A", .classRef 1, .utf8 "m", .utf8 "()V", .utf8 legacy.descriptor,
    .utf8 namespaced.descriptor]⟩
  thisClass := 2
  methods := #[⟨0, 3, 4, [⟨0, .invisibleAnnotations [⟨9, []⟩, ⟨6, []⟩]⟩]⟩,
    ⟨8, 3, 4, [⟨0, .invisibleAnnotations [⟨6, []⟩]⟩, ⟨0, .visibleAnnotations []⟩,
      ⟨0, .visibleAnnotations [⟨5, []⟩]⟩]⟩] }

/-- What is planned in version 51 is refused for the version in version 50, without a report. -/
theorem plan_outcome_expectingClass :
    Plan.Plannable (expectingClass 51) ∧
    Plan.Describes (expectingClass 51)
      ⟨[⟨1, "m", "()V", ⟨[], none⟩, .legacy⟩], [Plan.staticOnly "A" "m"]⟩ ∧
    Plan.ClassFault (expectingClass 50) (.unsupportedVersion "A" 50) ∧
    ∀ i reports, forwardMarked i ⟨expectingClass 50, reports⟩ =
      .error (.unsupportedVersion "A" 50) ⟨expectingClass 50, reports⟩ := by
  have planned : Plan.ofClass (expectingClass 51) =
      .ok ⟨[⟨1, "m", "()V", ⟨[], none⟩, .legacy⟩], [Plan.staticOnly "A" "m"]⟩ := by decide +kernel
  have refused : Plan.ofClass (expectingClass 50) = .error (.unsupportedVersion "A" 50) := by
    decide +kernel
  obtain ⟨stands, described, _⟩ := plan_outcome (expectingClass 51)
  obtain ⟨_, _, failed⟩ := plan_outcome (expectingClass 50)
  obtain ⟨fault, unchanged⟩ := failed (.unsupportedVersion "A" 50)
  exact ⟨stands.1 ⟨_, planned⟩, (described _ planned).1, fault.1 refused, unchanged refused⟩

end ClassWeave
