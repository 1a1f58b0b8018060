import ClassWeave.Proofs.Platform.Forwarding

/-!
# What installing bodies touches

An installation appends entries to the pool, adds bootstrap methods behind those that are there and
changes the planned method; nothing else.

**Kept properties** (`ClassFile.Closed`). A property of classes that is kept by each of these
changes is kept by whole runs, also by those that fail.

**Failures.** The only cause for which an installation fails is that there is no more space.
-/

namespace ClassWeave

/-- If the entry is a text, it is one of the given texts. -/
def Constant.TextIn (texts : String → Prop) : Constant → Prop
  | utf8 text => texts text
  | _ => True

/-! ## Pools -/

namespace ConstantPool

/-- A property of pools that is kept when an entry is appended, if it is none but the given
texts. -/
def Closed (texts : String → Prop) (property : ConstantPool → Prop) : Prop :=
  ∀ (p : ConstantPool) (c : Constant), c.isPlain → c.TextIn texts → property p →
    property ⟨p.slots.push c⟩

variable {texts : String → Prop} {property : ConstantPool → Prop}

theorem intern_keeps (closed : Closed texts property) {c : Constant} (plain : c.isPlain)
    (text : c.TextIn texts) : Keeps property (· = .outOfSpace) (intern c) := by
  refine keeps_intern (keeps_push rfl ?_)
  intro p i q hp pushed
  obtain ⟨_, _, rfl⟩ := push_eq_ok plain pushed
  exact closed p c plain text hp

variable (closed : Closed texts property)
include closed

theorem addUtf8_keeps {text : String} (h : texts text) :
    Keeps property (· = .outOfSpace) (addUtf8 text) :=
  intern_keeps closed rfl h

theorem addNameAndType_keeps {name descriptor : String} (hname : texts name)
    (hdescriptor : texts descriptor) :
    Keeps property (· = .outOfSpace) (addNameAndType name descriptor) :=
  (addUtf8_keeps closed hname).bind fun n => (addUtf8_keeps closed hdescriptor).bind fun d =>
    intern_keeps (c := .nameAndType n d) closed rfl trivial

theorem addMethodRef_keeps {owner name descriptor : String} (howner : texts owner)
    (hname : texts name) (hdescriptor : texts descriptor) :
    Keeps property (· = .outOfSpace) (addMethodRef owner name descriptor) :=
  ((addUtf8_keeps closed howner).bind fun o =>
    intern_keeps (c := .classRef o) closed rfl trivial).bind fun o =>
      (addNameAndType_keeps closed hname hdescriptor).bind fun m =>
        intern_keeps (c := .methodRef o m) closed rfl trivial

theorem addInvokeDynamic_keeps (bootstrap : UInt16) {name descriptor : String} (hname : texts name)
    (hdescriptor : texts descriptor) :
    Keeps property (· = .outOfSpace) (addInvokeDynamic bootstrap name descriptor) :=
  (addNameAndType_keeps closed hname hdescriptor).bind fun m =>
    intern_keeps (c := .invokeDynamic bootstrap m) closed rfl trivial

end ConstantPool

/-! ## Classes -/

/-- The attributes that hold no bootstrap methods. -/
def otherAttributes (as : List Attribute) : List Attribute :=
  as.filter fun a => a.content.kind? ≠ some .bootstrapMethods

namespace ClassFile

/-- A property of classes that is kept when an entry of the pool is appended, if it is none but the
given texts, when bootstrap methods are added, and when a method at one of the given positions is
changed. -/
structure Closed (texts : String → Prop) (positions : Nat → Prop) (property : ClassFile → Prop) :
    Prop where
  pool (c : ClassFile) : ConstantPool.Closed texts fun p => property { c with pool := p }
  attributes {c : ClassFile} {as : List Attribute} :
    firstBootstraps c.attributes <+: firstBootstraps as →
    otherAttributes as = otherAttributes c.attributes → property c →
    property { c with attributes := as }
  methods {c : ClassFile} {position : Nat} (m : Member) : positions position → property c →
    property { c with methods := c.methods.setIfInBounds position m }

theorem onPool_keeps {α : Type} {property : ClassFile → Prop} {cause : PoolError → Prop}
    {act : ConstantPool.Grow α}
    (h : ∀ c : ClassFile, Keeps (fun p => property { c with pool := p }) cause act) :
    Keeps property cause (onPool act) where
  ok {c _ _} hc h' := by
    obtain ⟨q, hact, rfl⟩ := onPool_eq_ok_iff.1 h'
    exact (h c).ok hc hact
  error {c _ _} hc h' := by
    obtain ⟨q, hact, rfl⟩ := onPool_eq_error_iff.1 h'
    exact (h c).error hc hact

/-- Bootstrap methods are inserted behind those that are there, or are there already. -/
theorem insertBootstrap?_frame {method : BootstrapMethod} {as bs : List Attribute} {k : Nat}
    (h : insertBootstrap? method as = some (.ok (k, bs))) :
    firstBootstraps as <+: firstBootstraps bs ∧ otherAttributes bs = otherAttributes as := by
  obtain ⟨_, rfl | ⟨_, added⟩⟩ := insertBootstrap?_eq_some .empty h
  · exact ⟨List.prefix_refl _, rfl⟩
  · refine ⟨added.firstBootstraps_eq ▸ List.prefix_append _ _, ?_⟩
    rw [BootstrapsAdded, if_neg (by simp)] at added
    refine added.filter_eq ?_ ?_
    · rintro _ _ ⟨_, _, rfl⟩
      rfl
    · rintro a ⟨_, eq⟩
      rw [eq]
      rfl

theorem insertBootstrap?_error {method : BootstrapMethod} {as : List Attribute} {e : PoolError}
    (h : insertBootstrap? method as = some (.error e)) : e = .outOfSpace := by
  induction as with
  | nil => cases h
  | cons a as ih =>
    by_cases isBootstraps : a.content.kind? = some .bootstrapMethods
    · obtain ⟨name, content⟩ := a
      obtain ⟨list, rfl⟩ := bootstraps_of_kind isBootstraps
      rw [insertBootstrap?] at h
      split at h
      · cases h
      · split_ifs at h
        · exact (Except.error.inj (Option.some.inj h)).symm
        · cases h
    · rw [insertBootstrap?_cons isBootstraps, Option.map_eq_some_iff] at h
      obtain ⟨_ | _, hanswer, eq⟩ := h
      · exact ih (hanswer.trans (congrArg some eq))
      · cases eq

variable {texts : String → Prop} {positions : Nat → Prop} {property : ClassFile → Prop}

theorem internBootstrap_keeps (closed : Closed texts positions property)
    (text : texts ContentKind.bootstrapMethods.name) (method : BootstrapMethod) :
    Keeps property (· = .outOfSpace) (internBootstrap method) := by
  have name (c : ClassFile) := ConstantPool.addUtf8_keeps (closed.pool c) text
  refine ⟨fun {c c' i} hc h => ?_, fun {c c' e} hc h => ?_⟩
  · rw [internBootstrap_eq] at h
    rcases hinsert : insertBootstrap? method c.attributes with _ | _ | ⟨k, as⟩
    · rcases hname : ConstantPool.addUtf8 ContentKind.bootstrapMethods.name c.pool with ⟨n, q⟩ | _
      swap
      · simp [hinsert, hname] at h
      simp only [hinsert, hname, EStateM.Result.ok.injEq] at h
      obtain ⟨_, rfl⟩ := h
      -- There is no attribute for bootstrap methods, so that one is appended.
      have none := insertBootstrap?_eq_none hinsert
      refine closed.attributes (c := { c with pool := q }) ?_ ?_ ((name c).ok hc hname)
      · exact firstBootstraps_eq_nil none ▸ List.nil_prefix
      · have appended : FirstChanged .bootstrapMethods (fun _ _ => False)
            (· = ⟨n, .bootstrapMethods [method]⟩) c.attributes _ := FirstChanged.append none rfl
        exact appended.filter_eq (fun _ _ => False.elim) (by rintro _ rfl; rfl)
    · simp [hinsert] at h
    · simp only [hinsert, EStateM.Result.ok.injEq] at h
      obtain ⟨_, rfl⟩ := h
      obtain ⟨grown, others⟩ := insertBootstrap?_frame hinsert
      exact closed.attributes grown others hc
  · rw [internBootstrap_eq] at h
    rcases hinsert : insertBootstrap? method c.attributes with _ | _ | _
    · rcases hname : ConstantPool.addUtf8 ContentKind.bootstrapMethods.name c.pool with _ | ⟨_, q⟩
      · simp [hinsert, hname] at h
      simp only [hinsert, hname, EStateM.Result.error.injEq] at h
      obtain ⟨rfl, rfl⟩ := h
      exact (name c).error hc hname
    · simp only [hinsert, EStateM.Result.error.injEq] at h
      obtain ⟨rfl, rfl⟩ := h
      exact ⟨hc, insertBootstrap?_error hinsert⟩
    · simp [hinsert] at h

theorem setBody_keeps (closed : Closed texts positions property)
    (text : texts ContentKind.code.name) {position : Nat} (here : positions position)
    (list : List Instruction) (maxLocals : UInt16) :
    Keeps property (· = .outOfSpace) (setBody position list maxLocals) := by
  have member (m : Member) :
      Keeps property (· = .outOfSpace) (onPool (m.setBody list maxLocals)) := by
    refine onPool_keeps fun c => ?_
    unfold Member.setBody
    cases m.mapCode? fun _ => Code.ofInstructions list maxLocals with
    | some m => exact .pure m
    | none => exact (ConstantPool.addUtf8_keeps (closed.pool c) text).bind fun _ => .pure _
  have get : Keeps property (· = .outOfSpace) (get : Edit ClassFile) :=
    ⟨fun hc h => (EStateM.Result.ok.inj h).2 ▸ hc, fun _ h => nomatch h⟩
  refine get.bind fun c => ?_
  cases c.methods[position]? with
  | none => exact .pure _
  | some m =>
    refine (member m).bind fun m' => ⟨fun hc h => ?_, fun _ h => nomatch h⟩
    obtain ⟨_, rfl⟩ := EStateM.Result.ok.inj h
    exact closed.methods m' here hc

end ClassFile

/-! ## What is left alone -/

/-- The second class is the first one, in which the pool and the bootstrap methods may have grown at
their ends and the methods at some positions may have changed. -/
structure ClassFile.Touched (positions : Nat → Prop) (c c' : ClassFile) : Prop where
  header : c' = { c with pool := c'.pool, methods := c'.methods, attributes := c'.attributes }
  pool : c.pool ≤ c'.pool
  methods (k : Nat) : ¬ positions k → c'.methods[k]? = c.methods[k]?
  bootstraps : c.bootstrapMethods <+: c'.bootstrapMethods
  others : otherAttributes c'.attributes = otherAttributes c.attributes

namespace ClassFile.Touched

variable {positions : Nat → Prop}

theorem refl (positions : Nat → Prop) (c : ClassFile) : Touched positions c c :=
  ⟨rfl, ConstantPool.le_refl _, fun _ _ => rfl, List.prefix_refl _, rfl⟩

theorem closed (positions : Nat → Prop) (c : ClassFile) :
    Closed (fun _ => True) positions (Touched positions c) where
  pool c' p e _ _ h :=
    { h with
      header := congrArg (fun d : ClassFile => { d with pool := ⟨p.slots.push e⟩ }) h.header
      pool := ConstantPool.le_trans h.pool ⟨[e], Array.toList_push.symm⟩ }
  attributes {_ as} grown others h :=
    { h with
      header := congrArg (fun d : ClassFile => { d with attributes := as }) h.header
      bootstraps := h.bootstraps.trans grown
      others := others.trans h.others }
  methods {c' position} m here h :=
    { h with
      header := congrArg (fun d : ClassFile =>
        { d with methods := c'.methods.setIfInBounds position m }) h.header
      methods := fun k other => by
        rw [← h.methods k other]
        exact Array.getElem?_setIfInBounds_ne fun eq : position = k => other (eq ▸ here) }

end ClassFile.Touched

/-! ## Installations -/

namespace Forwarding

/-- The texts that an installation needs. -/
def texts (i : Identifier) (f : Forwarding) : List String :=
  [f.marker.resolver i, CallSite.bootstrapName, CallSite.bootstrapDescriptor, f.name, f.descriptor,
    ContentKind.bootstrapMethods.name, ContentKind.code.name]

variable {i : Identifier} {texts : String → Prop} {positions : Nat → Prop}
  {property : ClassFile → Prop}

/-- **An installation** keeps what its changes keep, and fails only when there is no more space. -/
theorem install_keeps (closed : ClassFile.Closed texts positions property) (f : Forwarding)
    (needed : ∀ text ∈ f.texts i, texts text) (here : positions f.position) :
    Keeps property (· = .outOfSpace) (f.install i) := by
  simp only [Forwarding.texts, List.forall_mem_cons] at needed
  obtain ⟨owner, method, type, name, descriptor, bootstraps, code, _⟩ := needed
  have handle : Keeps property (· = .outOfSpace)
      (ClassFile.onPool (CallSite.internHandle ⟨f.marker.resolver i⟩)) :=
    ClassFile.onPool_keeps fun c =>
      (ConstantPool.addMethodRef_keeps (closed.pool c) owner method type).bind fun r =>
        ConstantPool.intern_keeps (c := .methodHandle CallSite.staticCallKind r) (closed.pool c) rfl
          trivial
  have site : Keeps property (· = .outOfSpace) (CallSite.install ⟨f.marker.resolver i⟩) := by
    rw [CallSite.install_eq]
    exact handle.bind fun h => ClassFile.internBootstrap_keeps closed bootstraps ⟨h, []⟩
  exact site.bind fun boot => (ClassFile.onPool_keeps fun c =>
    ConstantPool.addInvokeDynamic_keeps (closed.pool c) boot name descriptor).bind fun _ =>
      ClassFile.setBody_keeps closed code here _ _

end Forwarding

end ClassWeave
