import ClassWeave.Proofs.ClassFile.Fits
import ClassWeave.Proofs.Platform.Footprint
import ClassWeave.Proofs.Platform.Transformed

/-!
# Classes that are aborted

**Planning comes first.** A class that cannot be read or planned is left as it is, and nothing is
reported on it.

**After that** an installation can find no more space, or a transformed class can be too large to be
written. Then the class at work holds what was done before (`ClassFile.Touched`), and the reports of
the plan have been made.

**Main result** (`aborted_without_effect`).
-/

namespace ClassWeave

/-- A run fails before anything is done, or because a planned method cannot be installed. -/
theorem forwardMarked_error {i : Identifier} {s s' : Session} {e : Error}
    (h : forwardMarked i s = .error e s') :
    (Plan.ofClass s.classFile = .error e ∧ s' = s) ∨ ∃ plan cause,
      Plan.ofClass s.classFile = .ok plan ∧ e = .pool cause ∧
        plan.forwardings.forM (·.install i) s.classFile = .error cause s'.classFile := by
  cases hplan : Plan.ofClass s.classFile with
  | error e' =>
    rw [forwardMarked_of_unplanned i hplan] at h
    obtain ⟨rfl, rfl⟩ := EStateM.Result.error.inj h
    exact .inl ⟨rfl, rfl⟩
  | ok plan =>
    rw [forwardMarked_of_planned i hplan] at h
    cases hrun : plan.forwardings.forM (·.install i) s.classFile with
    | ok _ c => simp [hrun] at h
    | error cause c =>
      rw [hrun] at h
      obtain ⟨rfl, rfl⟩ := EStateM.Result.error.inj h
      exact .inr ⟨plan, cause, rfl, rfl, hrun⟩

/-- **Aborted classes.** When planning fails, the class and the reports stay as they are. The
only other failure is that there is no more space while the plan is carried out; then the class
has kept all but the bodies of marked static methods, and its pool and bootstrap methods have
only grown. Of a class given by its bytes nothing is reported either, unless it is planned and
fails afterwards. -/
theorem aborted_without_effect (i : Identifier) :
    (∀ s e s', forwardMarked i s = .error e s' →
      (Plan.ofClass s.classFile = .error e ∧ s' = s) ∨
      ((∃ plan, Plan.ofClass s.classFile = .ok plan) ∧ e = .pool .outOfSpace ∧
        s.classFile.Touched (fun k => ∃ m, s.classFile.methods[k]? = some m ∧
          m.IsMarked s.classFile.pool) s'.classFile)) ∧
    ∀ bs reports e reports', transformBytes i bs reports = .error e reports' →
      reports' = reports ∨ ∃ c plan, ClassFile.read bs = .ok c ∧ Plan.ofClass c = .ok plan ∧
        (e = .pool .outOfSpace ∨ ∃ cause, e = .write cause) := by
  have onClass : ∀ s e s', forwardMarked i s = .error e s' →
      (Plan.ofClass s.classFile = .error e ∧ s' = s) ∨
      ((∃ plan, Plan.ofClass s.classFile = .ok plan) ∧ e = .pool .outOfSpace ∧
        s.classFile.Touched (fun k => ∃ m, s.classFile.methods[k]? = some m ∧
          m.IsMarked s.classFile.pool) s'.classFile) := by
    intro s e s' h
    refine (forwardMarked_error h).imp_right fun ⟨plan, cause, hplan, he, hrun⟩ => ?_
    -- Each installation touches the method that it is for, and that one is marked.
    have installed : Keeps (s.classFile.Touched fun k => ∃ m, s.classFile.methods[k]? = some m ∧
        m.IsMarked s.classFile.pool) (· = PoolError.outOfSpace)
        (plan.forwardings.forM (·.install i)) := Keeps.forM fun f hf => by
      obtain ⟨m, hm, planned⟩ := (Plan.ofClass_ok hplan).1 f hf
      exact f.install_keeps (ClassFile.Touched.closed _ _) (fun _ _ => trivial)
        ⟨m, hm, planned.isStatic, Option.isSome_iff_exists.2 ⟨_, planned.marker_eq⟩⟩
    obtain ⟨touched, hcause⟩ := installed.error (.refl _ _) hrun
    exact ⟨⟨plan, hplan⟩, by rw [he, hcause], touched⟩
  refine ⟨onClass, fun bs reports e reports' h => ?_⟩
  unfold transformBytes at h
  cases hread : ClassFile.read bs with
  | error cause =>
    simp only [hread, EStateM.Result.error.injEq] at h
    exact .inl h.2.symm
  | ok c =>
    simp only [hread] at h
    cases hforward : forwardMarked i ⟨c, reports⟩ with
    | error e' s' =>
      simp only [hforward, EStateM.Result.error.injEq] at h
      obtain ⟨rfl, rfl⟩ := h
      refine (onClass _ _ _ hforward).imp (fun ⟨_, same⟩ => by rw [same]) ?_
      exact fun ⟨⟨plan, hplan⟩, space, _⟩ => ⟨c, plan, rfl, hplan, .inl space⟩
    | ok n s' =>
      obtain ⟨plan, hplan, _⟩ := forwardMarked_ok hforward
      cases n with
      | zero => simp [hforward] at h
      | succ n =>
        cases hwrite : s'.classFile.write with
        | error cause =>
          simp only [hforward, hwrite, EStateM.Result.error.injEq] at h
          exact .inr ⟨c, plan, rfl, hplan, .inr ⟨cause, h.1.symm⟩⟩
        | ok w => simp [hforward, hwrite] at h

/-! ## Classes that are full -/

theorem transformBytes_of_error {i : Identifier} {bs : Bytes} {c : ClassFile} {s : Session}
    {reports : List Diagnostic} {e : Error} (hread : ClassFile.read bs = .ok c)
    (h : forwardMarked i ⟨c, reports⟩ = .error e s) :
    transformBytes i bs reports = .error e s.reports := by
  simp only [transformBytes, hread, h]

theorem transformBytes_of_unwritten {i : Identifier} {bs : Bytes} {c : ClassFile} {s : Session}
    {reports : List Diagnostic} {n : Nat} {e : WriteError} (hread : ClassFile.read bs = .ok c)
    (h : forwardMarked i ⟨c, reports⟩ = .ok (n + 1) s) (hwrite : s.classFile.write = .error e) :
    transformBytes i bs reports = .error (.write e) s.reports := by
  simp only [transformBytes, hread, h, hwrite]

/-- The pool of the class below. -/
def fullPool : ConstantPool :=
  ⟨#[.utf8 "A", .classRef 1, .utf8 "m", .utf8 "()V", .utf8 "RuntimeInvisibleAnnotations",
    .utf8 "Lme/shedaniel/architectury/annotations/ExpectPlatform;", .utf8 "BootstrapMethods"]⟩

/-- A method without parameters and result that carries a marker. -/
def markedMethod (accessFlags : UInt16) : Member :=
  ⟨accessFlags, 3, 4, [⟨5, .invisibleAnnotations [⟨6, []⟩]⟩]⟩

/-- A class with a marked static method, a marked method that is not static, and some attributes. -/
def fullClass (attributes : List Attribute) : ClassFile :=
  { ClassFile.empty with
    pool := fullPool
    thisClass := 2
    methods := #[markedMethod staticFlag, markedMethod 0]
    attributes }

/-- One attribute with some bootstrap methods, of which it can hold 65535. -/
def manyBootstraps (n : Nat) : List Attribute :=
  [⟨7, .bootstrapMethods (List.replicate n ⟨0, []⟩)⟩]

/-- Some attributes, of which a class can hold 65535. -/
def manyAttributes (n : Nat) : List Attribute := List.replicate n ⟨3, .other []⟩

/-- The plan for such a class. -/
def fullPlan : Plan where
  forwardings := [⟨0, "m", "()V", ⟨[], none⟩, .namespaced⟩]
  reports := [Plan.staticOnly "A" "m"]

set_option maxRecDepth 4000 in
theorem fullClass_planned (attributes : List Attribute) :
    Plan.ofClass (fullClass attributes) = .ok fullPlan := rfl

theorem fullPool_laidOut : fullPool.LaidOut :=
  (ConstantPool.laidOut_iff _).2 ⟨by decide, .narrow nofun rfl <| .narrow nofun rfl <|
    .narrow nofun rfl <| .narrow nofun rfl <| .narrow nofun rfl <| .narrow nofun rfl <|
    .narrow nofun rfl .nil⟩

theorem markedMethod_asRead (flags : UInt16) :
    (markedMethod flags).Everywhere (Attribute.AsRead fullPool) := by
  simp only [markedMethod, Member.Everywhere, List.forall_mem_singleton]
  exact ⟨⟨⟨⟨_, rfl, rfl⟩, by simp [Content.Tagged, AnnotationUse.Tagged, Element.ListTagged]⟩,
    trivial⟩, trivial⟩

theorem markedMethod_fits (flags : UInt16) :
    (markedMethod flags).Everywhere Attribute.Fits := by
  simp only [markedMethod, Member.Everywhere, List.forall_mem_singleton]
  exact ⟨⟨by simp [Content.Fits, AnnotationUse.TableFits, AnnotationUse.Fits, Element.ListFits],
    by decide⟩, trivial⟩

/-- Such a class is read from some bytes, if its attributes are as they are read and fit. -/
theorem fullClass_read {attributes : List Attribute} (few : attributes.length < 0x10000)
    (asRead : ∀ a ∈ attributes, a.Everywhere (Attribute.AsRead fullPool))
    (fits : ∀ a ∈ attributes, a.Everywhere Attribute.Fits) :
    ∃ bs, ClassFile.read bs = .ok (fullClass attributes) := by
  have methods {P : Attribute → Prop} (h : ∀ flags, (markedMethod flags).Everywhere P) :
      ∀ m ∈ (fullClass attributes).methods.toList, m.Everywhere P := by
    simp [fullClass, h]
  have texts : ∀ entry ∈ fullPool.slots.toList, entry.Fits := by decide +kernel
  have fitting : (fullClass attributes).Fits :=
    ⟨texts, Nat.zero_lt_succ _, Nat.zero_lt_succ _, by simp [fullClass], few, nofun,
      by simp [fullClass, markedMethod], ⟨nofun, methods markedMethod_fits, fits⟩⟩
  obtain ⟨bs, written⟩ := (ClassFile.write_iff_fits _).2 fitting
  have regular : fullPool.IsRegular := by
    simp [ConstantPool.IsRegular, fullPool, Constant.IsRegular]
  exact ⟨bs, ClassFile.read_of_write written
    ⟨rfl, fullPool_laidOut, regular, ⟨nofun, methods markedMethod_asRead, asRead⟩⟩⟩

/-- The call site of the marked method. -/
def fullSite : CallSite := ⟨Marker.namespaced.resolver ⟨"a"⟩⟩

/-- There is no more space for the bootstrap method, but its handle stays in the pool. -/
theorem forwardMarked_manyBootstraps {n : Nat} (full : 65535 ≤ n) : ∃ q handle reference,
    q.get handle = .ok (.methodHandle CallSite.staticCallKind reference) ∧
    forwardMarked ⟨"a"⟩ ⟨fullClass (manyBootstraps n), []⟩ = .error (.pool .outOfSpace)
      ⟨{ fullClass (manyBootstraps n) with pool := q }, fullPlan.reports⟩ := by
  obtain ⟨handle, q, interned⟩ : ∃ handle q, fullSite.internHandle fullPool = .ok handle q :=
    exists_of_isOk (by decide +kernel)
  obtain ⟨_, ⟨reference, entry, _⟩, _⟩ :=
    fullSite.internHandle_interns.ok _ _ _ fullPool_laidOut interned
  -- The handle is a new entry, while those of the table are the blank one.
  have absent : List.idxOf? (BootstrapMethod.mk handle []) (List.replicate n ⟨0, []⟩) = none := by
    refine List.idxOf?_eq_none_iff.2 fun there => ?_
    obtain ⟨_, eq⟩ := List.mem_replicate.1 there
    rw [(BootstrapMethod.mk.inj eq).1] at entry
    exact (ConstantPool.get_eq_ok_iff.1 entry).1 rfl
  have inserted : ClassFile.insertBootstrap? ⟨handle, []⟩ (manyBootstraps n) =
      some (.error .outOfSpace) := by
    rw [manyBootstraps, ClassFile.insertBootstrap?, absent]
    exact if_pos (by rwa [List.length_replicate])
  have noSpace : ClassFile.internBootstrap ⟨handle, []⟩
      { fullClass (manyBootstraps n) with pool := q } =
        .error .outOfSpace { fullClass (manyBootstraps n) with pool := q } := by
    rw [ClassFile.internBootstrap_eq]
    simp only [fullClass, inserted]
  have site : fullSite.install (fullClass (manyBootstraps n)) =
      .error .outOfSpace { fullClass (manyBootstraps n) with pool := q } := by
    rw [CallSite.install_eq]
    exact bind_eq_error_iff.2 (.inr ⟨handle, _,
      ClassFile.onPool_eq_ok_iff.2 ⟨q, interned, rfl⟩, noSpace⟩)
  have run : fullPlan.forwardings.forM (·.install ⟨"a"⟩) (fullClass (manyBootstraps n)) =
      .error .outOfSpace { fullClass (manyBootstraps n) with pool := q } :=
    bind_eq_error_iff.2 (.inl (bind_eq_error_iff.2 (.inl site)))
  refine ⟨q, handle, reference, entry, ?_⟩
  rw [forwardMarked_of_planned ⟨"a"⟩ (fullClass_planned (manyBootstraps n))]
  simp only [run]
  rfl

theorem insertBootstrap?_replicate (n : Nat) (name : UInt16) (bytes : Bytes)
    (method : BootstrapMethod) :
    ClassFile.insertBootstrap? method (List.replicate n ⟨name, .other bytes⟩) = none := by
  induction n with
  | zero => rfl
  | succ n ih =>
    rw [List.replicate_succ, ClassFile.insertBootstrap?_cons (by simp [Content.kind?]), ih]
    rfl

/-- Where there is no list of bootstrap methods, the bodies are given with one attribute more. -/
theorem forwardMarked_fullClass {attributes : List Attribute}
    (absent : ∀ method, ClassFile.insertBootstrap? method attributes = none) :
    ∃ c, c.attributes.length = attributes.length + 1 ∧
      forwardMarked ⟨"a"⟩ ⟨fullClass attributes, []⟩ = .ok 1 ⟨c, fullPlan.reports⟩ := by
  -- All that is put into the pool, in one run that can be computed.
  obtain ⟨code, q₄, entries⟩ : ∃ code q, (do
      let _ ← fullSite.internHandle
      let _ ← ConstantPool.addUtf8 ContentKind.bootstrapMethods.name
      let _ ← ConstantPool.addInvokeDynamic 0 "m" "()V"
      ConstantPool.addUtf8 ContentKind.code.name : ConstantPool.Grow UInt16) fullPool =
        .ok code q :=
    exists_of_isOk (by decide +kernel)
  obtain ⟨handle, q₁, interned, entries⟩ := bind_eq_ok_iff.1 entries
  obtain ⟨name, q₂, named, entries⟩ := bind_eq_ok_iff.1 entries
  obtain ⟨call, q₃, called, coded⟩ := bind_eq_ok_iff.1 entries
  let c₁ : ClassFile := { fullClass attributes with pool := q₁ }
  let c₂ : ClassFile := { c₁ with
    pool := q₂, attributes := attributes ++ [⟨name, .bootstrapMethods [⟨handle, []⟩]⟩] }
  let c₃ : ClassFile := { c₂ with pool := q₃ }
  have bootstrap : ClassFile.internBootstrap ⟨handle, []⟩ c₁ = .ok 0 c₂ := by
    have absent : ClassFile.insertBootstrap? ⟨handle, []⟩ c₁.attributes = none := absent _
    rw [ClassFile.internBootstrap_eq, absent]
    simp only [c₁, named]
    rfl
  have site : fullSite.install (fullClass attributes) = .ok 0 c₂ := by
    rw [CallSite.install_eq]
    exact bind_eq_ok_iff.2 ⟨handle, c₁, ClassFile.onPool_eq_ok_iff.2 ⟨q₁, interned, rfl⟩, bootstrap⟩
  obtain ⟨m, given⟩ : ∃ m, (markedMethod staticFlag).setBody
      (forwardingBody "m" ⟨[], none⟩ call) 0 q₃ = .ok m q₄ :=
    ⟨_, bind_eq_ok_iff.2 ⟨code, q₄, coded, rfl⟩⟩
  let c : ClassFile := { c₃ with pool := q₄, methods := c₃.methods.setIfInBounds 0 m }
  have body : ClassFile.setBody 0 (forwardingBody "m" ⟨[], none⟩ call) 0 c₃ = .ok () c :=
    bind_eq_ok_iff.2 ⟨c₃, c₃, rfl, bind_eq_ok_iff.2 ⟨m, { c₃ with pool := q₄ },
      ClassFile.onPool_eq_ok_iff.2 ⟨q₄, given, rfl⟩, rfl⟩⟩
  have run : fullPlan.forwardings.forM (·.install ⟨"a"⟩) (fullClass attributes) = .ok () c :=
    bind_eq_ok_iff.2 ⟨(), c, bind_eq_ok_iff.2 ⟨0, c₂, site, bind_eq_ok_iff.2 ⟨call, c₃,
      ClassFile.onPool_eq_ok_iff.2 ⟨q₃, called, rfl⟩, body⟩⟩, rfl⟩
  refine ⟨c, ?_, ?_⟩
  · exact List.length_append
  · rw [forwardMarked_of_planned ⟨"a"⟩ (fullClass_planned attributes)]
    simp only [run]
    rfl

theorem manyBootstraps_read {n : Nat} (few : n < 0x10000) :
    ∃ bs, ClassFile.read bs = .ok (fullClass (manyBootstraps n)) := by
  have size : (Content.bootstrapMethods (List.replicate n ⟨0, []⟩)).size < 0x100000000 := by
    rw [Content.size, List.map_replicate, List.sum_replicate_nat]
    simp only [List.length_nil]
    omega
  refine fullClass_read (by simp [manyBootstraps]) ?_ ?_ <;>
    rw [manyBootstraps, List.forall_mem_singleton]
  · exact ⟨⟨⟨⟨_, rfl, rfl⟩, trivial⟩, trivial⟩, trivial⟩
  · refine ⟨⟨⟨by rwa [List.length_replicate], fun m hm => ?_⟩, size⟩, trivial⟩
    rw [(List.mem_replicate.1 hm).2]
    decide

theorem manyAttributes_read {n : Nat} (few : n < 0x10000) :
    ∃ bs, ClassFile.read bs = .ok (fullClass (manyAttributes n)) := by
  refine fullClass_read (by rwa [manyAttributes, List.length_replicate]) ?_ ?_ <;> intro a ha <;>
    obtain ⟨_, rfl⟩ := List.mem_replicate.1 ha
  · exact ⟨⟨⟨⟨_, rfl, rfl⟩, trivial⟩, trivial⟩, trivial⟩
  · exact ⟨⟨trivial, by decide⟩, trivial⟩

/-- **Aborted classes with an effect.** Where there is no space for one more bootstrap method, the
class has changed and a report has been made; where there is no space for one more attribute, a
report has been made, too. -/
theorem aborted_with_effect :
    (∃ e s, forwardMarked ⟨"a"⟩ ⟨fullClass (manyBootstraps 65535), []⟩ = .error e s ∧
      s.classFile ≠ fullClass (manyBootstraps 65535) ∧ s.reports ≠ []) ∧
    (∃ bs reports, ClassFile.read bs = .ok (fullClass (manyBootstraps 65535)) ∧
      transformBytes ⟨"a"⟩ bs [] = .error (.pool .outOfSpace) reports ∧ reports ≠ []) ∧
    ∃ bs cause reports, ClassFile.read bs = .ok (fullClass (manyAttributes 65535)) ∧
      transformBytes ⟨"a"⟩ bs [] = .error (.write cause) reports ∧ reports ≠ [] := by
  have reported : fullPlan.reports ≠ [] := nofun
  obtain ⟨q, handle, reference, entry, failed⟩ := forwardMarked_manyBootstraps (Nat.le_refl 65535)
  refine ⟨⟨_, _, failed, fun same => ?_, reported⟩, ?_, ?_⟩
  · have old : q = fullPool := congrArg ClassFile.pool same
    rw [old] at entry
    have there := List.mem_of_getElem? (ConstantPool.get_eq_ok_iff.1 entry).2.1
    simp [fullPool] at there
  · obtain ⟨bs, hread⟩ := manyBootstraps_read (n := 65535) (by decide)
    exact ⟨bs, _, hread, transformBytes_of_error hread failed, reported⟩
  · obtain ⟨bs, hread⟩ := manyAttributes_read (n := 65535) (by decide)
    obtain ⟨c, length, forwarded⟩ := forwardMarked_fullClass (insertBootstrap?_replicate 65535 3 [])
    cases hwrite : c.write with
    | error cause =>
      exact ⟨bs, cause, _, hread, transformBytes_of_unwritten hread forwarded hwrite, reported⟩
    | ok w =>
      -- What is written has fewer attributes than that.
      have few := ((ClassFile.write_iff_fits c).1 ⟨w, hwrite⟩).attributes_lt
      rw [length, List.length_replicate] at few
      exact absurd few (Nat.lt_irrefl _)

/-- The theorem for a class that cannot be planned, for a class that is full, and for no bytes. -/
theorem aborted_without_effect_instances :
    (∃ e s, forwardMarked ⟨"a"⟩ ⟨ClassFile.empty, []⟩ = .error e s ∧ s = ⟨ClassFile.empty, []⟩) ∧
    (∃ e s, forwardMarked ⟨"a"⟩ ⟨fullClass (manyBootstraps 65535), []⟩ = .error e s ∧
      e = .pool .outOfSpace ∧ fullPool ≤ s.classFile.pool) ∧
    ∃ e reports, transformBytes ⟨"a"⟩ [] fullPlan.reports = .error e reports ∧
      reports = fullPlan.reports := by
  obtain ⟨onClass, onBytes⟩ := aborted_without_effect ⟨"a"⟩
  refine ⟨?_, ?_, ⟨_, _, rfl, ?_⟩⟩
  · have unplanned : Plan.ofClass ClassFile.empty = .error (.pool (.invalidIndex 0)) := rfl
    have failed := forwardMarked_of_unplanned ⟨"a"⟩ (s := ⟨ClassFile.empty, []⟩) unplanned
    rcases onClass _ _ _ failed with ⟨_, same⟩ | ⟨⟨_, planned⟩, _⟩
    · exact ⟨_, _, failed, same⟩
    · cases unplanned.symm.trans planned
  · obtain ⟨q, _, _, _, failed⟩ := forwardMarked_manyBootstraps (Nat.le_refl 65535)
    rcases onClass _ _ _ failed with ⟨unplanned, _⟩ | ⟨_, space, touched⟩
    · cases (fullClass_planned _).symm.trans unplanned
    · exact ⟨_, _, failed, space, touched.pool⟩
  · rcases onBytes [] fullPlan.reports _ _ rfl with same | ⟨c, _, readable, _⟩
    · exact same
    · cases readable

end ClassWeave
