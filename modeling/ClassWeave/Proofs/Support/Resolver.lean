import ClassWeave.Proofs.Platform.Transformed
import ClassWeave.Proofs.Relocation.Names
import ClassWeave.Proofs.Support.Placed

/-!
# Resolvers of call sites

The call sites of a transformed class name a resolver class. It is one of the support classes, and a
build makes the two apart from each other: the name is put together from the identifier on one side,
and read off the path of a file on the other one.

**What stays in a copy** (`ClassFile.CopiedAs.method?_isSome`). No name in the descriptor of the
bootstrap method begins like the placeholder package, so the method is found in a copy as it was.

**Call sites** (`Member.BootstrappedBy.calls`). The one call that a machine reads in a forwarding
body is bootstrapped by a handle on the method that the resolver of the marker has.

**Main result** (`transformBytes_resolved`). The copy of the resolver class has the name that the
call sites name, and declares the method that they call.
-/

namespace ClassWeave

open Renaming (below cut)

/-! ## Methods of copies -/

/-- The bootstrap method is called by the same descriptor in every build. -/
theorem CallSite.bootstrapDescriptor_stays (target : String) :
    Renaming.descriptor (.move placeholderPackage target) bootstrapDescriptor = none := by
  have outside : ∀ p ∈ (cut bootstrapDescriptor).1,
      ¬ placeholderPackage.toList <+: p.name.toList := by decide +kernel
  exact Renaming.descriptor_eq_none_iff.2 fun p hp =>
    Renaming.move_eq_none_iff.2 (mt Renaming.InPackage.isPrefix (outside p hp))

theorem ClassFile.method?_isSome_iff {c : ClassFile} {name descriptor : String} :
    (c.method? name descriptor).isSome ↔ ∃ m ∈ c.methods.toList,
      m.name c.pool = .ok name ∧ m.descriptor c.pool = .ok descriptor := by
  have found {x : Except PoolError String} {text : String} :
      (x.toOption == some text) = true ↔ x = .ok text := by
    cases x <;> simp [Except.toOption]
  simp only [method?, Array.find?_isSome, Bool.and_eq_true, found, Array.mem_toList_iff]

/-- A method whose descriptor stays is found in a copy. -/
theorem ClassFile.CopiedAs.method?_isSome {r : Renaming} {c d : ClassFile}
    {className name descriptor : String} (h : c.CopiedAs r className d)
    (stays : r.descriptor descriptor = none) (there : (c.method? name descriptor).isSome) :
    (d.method? name descriptor).isSome := by
  rw [method?_isSome_iff] at there ⊢
  obtain ⟨m, hm, named, typed⟩ := there
  obtain ⟨m', hm', index, attributes, rfl, moved, _⟩ := exists_mem_of_forall₂ h.methods m hm
  refine ⟨_, hm', h.utf8 _ _ named, ?_⟩
  -- A place that stays keeps its index; the other case would give the descriptor an image.
  obtain ⟨text, held, _, ⟨_, rfl⟩ | ⟨new, image, _⟩⟩ := moved
  · exact h.utf8 _ _ typed
  · obtain rfl : descriptor = text := Except.ok.inj ((h.utf8 _ _ typed).symm.trans held)
    exact nomatch stays.symm.trans image

/-! ## Call sites -/

/-- The code of the method is a forwarding body, whose call is bootstrapped by a handle on the given
method. -/
def Member.BootstrappedBy (c : ClassFile) (m : Member) (method : ConstantPool.MemberName) : Prop :=
  ∃ name type index code depth maxLocals boot member handle arguments kind reference,
    encodeInstructions (forwardingBody name type index) = .ok code ∧
    m.code? = some (Code.ofBytecode depth maxLocals code) ∧
    c.pool.get index = .ok (.invokeDynamic boot member) ∧
    c.bootstrapMethods[boot.toNat]? = some ⟨handle, arguments⟩ ∧
    c.pool.get handle = .ok (.methodHandle kind reference) ∧
    c.pool.memberRef reference = .ok method

/-- **The stored code**, as a machine reads it, has one call, and a handle on the given method
bootstraps this call. -/
theorem Member.BootstrappedBy.calls {c : ClassFile} {m : Member}
    {method : ConstantPool.MemberName} (h : m.BootstrappedBy c method) :
    ∃ depth maxLocals code operations index boot member handle arguments kind reference,
      m.code? = some (Code.ofBytecode depth maxLocals code) ∧
      Operation.readAll? code = some operations ∧
      operations.filterMap Operation.called? = [index] ∧
      c.pool.get index = .ok (.invokeDynamic boot member) ∧
      c.bootstrapMethods[boot.toNat]? = some ⟨handle, arguments⟩ ∧
      c.pool.get handle = .ok (.methodHandle kind reference) ∧
      c.pool.memberRef reference = .ok method := by
  obtain ⟨_, _, index, code, depth, maxLocals, boot, member, handle, arguments, kind, reference,
    encoded, stored, resolves⟩ := h
  obtain ⟨operations, read, called⟩ := calls_forwardingBody encoded
  exact ⟨depth, maxLocals, code, operations, index, boot, member, handle, arguments, kind,
    reference, stored, read, called, resolves⟩

/-- A marked static method is bootstrapped by the resolver of its marker. -/
theorem transformBytes_bootstrappedBy {i : Identifier} {bs w : Bytes}
    {reports reports' : List Diagnostic} (h : transformBytes i bs reports = .ok w reports') :
    ∃ c c', ClassFile.read bs = .ok c ∧ ClassFile.read w = .ok c' ∧
      ∀ (k : Nat) (m : Member) (marker : Marker), c.methods[k]? = some m → m.isStatic →
        Marker.of? m c.pool = some marker → ∃ m', c'.methods[k]? = some m' ∧
          m'.BootstrappedBy c'
            ⟨marker.resolver i, CallSite.bootstrapName, CallSite.bootstrapDescriptor⟩ := by
  obtain ⟨c, plan, hread, hplan, run⟩ := transformBytes_ok h
  have asRead := ClassFile.asRead_of_read hread
  rcases run with ⟨nothing, rfl⟩ | ⟨_, c', inv, written⟩
  · have unmarked := (Plan.forwardings_eq_nil_iff hplan).1 nothing
    refine ⟨c, c, hread, hread, fun k m marker hm isStatic hmarker => ?_⟩
    exact absurd ⟨isStatic, Option.isSome_of_eq_some hmarker⟩
      (unmarked m (Array.mem_of_getElem? hm))
  · refine ⟨c, c'.resolved, hread, inv.read_written hplan asRead written, ?_⟩
    intro k m marker hm isStatic hmarker
    obtain ⟨m', f, index, hm', planned, calls, given⟩ :=
      inv.marked hplan asRead hm ⟨isStatic, Option.isSome_of_eq_some hmarker⟩
    obtain rfl : marker = f.marker := Option.some.inj (hmarker.symm.trans planned.marker_eq)
    obtain ⟨boot, member, handle, reference, call, _, bootstrap, entry, _, names⟩ :=
      calls.resolves written
    exact ⟨m', hm', f.name, f.type, index, _, _, _, boot, member, handle, [], 6, reference,
      encode_forwardingBody f.name index (paramSlots_le_of_parse planned.type_eq), given.code?_eq,
      call, bootstrap, entry, names⟩

/-! ## Resolver classes -/

/-- The entry is the file of a class `PlatformMethods` that declares the method by which call sites
are bootstrapped. -/
structure ArchiveEntry.IsResolver (e : ArchiveEntry) : Prop where
  isFile : e.isFile
  name_eq : ∃ stem, e.name = stem ++ classSuffix ∧ simpleName stem = "PlatformMethods"
  declares : ∃ data c, e.data = some data ∧ ClassFile.read data = .ok c ∧
    (c.method? "platform" CallSite.bootstrapDescriptor).isSome

section

variable {i : Identifier} {e : ArchiveEntry}

theorem ArchiveEntry.IsResolver.isClass (h : e.IsResolver) : e.isClass := by
  obtain ⟨stem, name_eq, _⟩ := h.name_eq
  have isPath : isClassPath e.path = (dropSuffix? classSuffix e.name).isSome := rfl
  rw [ArchiveEntry.isClass, h.isFile, isPath, name_eq, dropSuffix?_append]
  rfl

theorem ArchiveEntry.IsResolver.supportName? (h : e.IsResolver) :
    supportName? e.name i = some i.resolver := by
  obtain ⟨stem, name_eq, simple⟩ := h.name_eq
  rw [name_eq, supportName?_append, simple]
  rfl

/-- **The copy of the resolver class** is placed under the name of the resolver of the build, and
declares the method by which call sites are bootstrapped. -/
theorem injectArchive_resolver {a : Archive} {names : List String} {o : MemoryOutput}
    (resolver : ∃ e ∈ a.entries, e.IsResolver)
    (h : (injectArchive MemoryOutput.output i a).run .empty = (.ok names, o)) :
    i.resolver ∈ names ∧ ∃ bytes c, o.get? i.resolver = some bytes ∧ ClassFile.read bytes = .ok c ∧
      c.name = .ok i.resolver ∧ (c.method? "platform" CallSite.bootstrapDescriptor).isSome := by
  obtain ⟨e, he, isResolver⟩ := resolver
  obtain ⟨copies, rfl, stores, placed⟩ := injectArchive_ok h
  have given : (ClassWeave.supportName? e.name i).isSome := by
    rw [isResolver.supportName?, Option.isSome_some]
  -- Its file is the file of a class and has a name to get, so that it was placed.
  obtain ⟨copy, hcopy, placedAs⟩ := exists_mem_of_forall₂ placed e
    (List.mem_filter.2 ⟨List.mem_filter.2 ⟨he, isResolver.isClass⟩, given⟩)
  have name_eq : i.resolver = copy.1 :=
    Option.some.inj (isResolver.supportName?.symm.trans placedAs.name_eq)
  obtain ⟨data, c, hdata, hread, declared⟩ := isResolver.declares
  obtain ⟨d, readBack, copied⟩ := placedAs.copied hdata hread
  rw [name_eq]
  exact ⟨List.mem_map_of_mem hcopy, copy.2, d, (MemoryOutput.get?_of_stores stores).1 copy hcopy,
    readBack, copied.name_eq,
    copied.method?_isSome (CallSite.bootstrapDescriptor_stays i.text) declared⟩

end

/-- **Call sites meet their resolver.** When an archive with a resolver class is injected, the
method that bootstraps a transformed method with the namespaced marker only is declared by the class
that was injected under the name of its owner. -/
theorem transformBytes_resolved {i : Identifier} {bs w : Bytes} {reports reports' : List Diagnostic}
    {a : Archive} {names : List String} {o : MemoryOutput}
    (transformed : transformBytes i bs reports = .ok w reports')
    (resolver : ∃ e ∈ a.entries, e.IsResolver)
    (injected : (injectArchive MemoryOutput.output i a).run .empty = (.ok names, o)) :
    ∃ c c', ClassFile.read bs = .ok c ∧ ClassFile.read w = .ok c' ∧
      ∀ (k : Nat) (m : Member), c.methods[k]? = some m → m.isStatic →
        ¬ Marker.isAmong (visibleAnnotations m.attributes) c.pool Marker.legacy.descriptor →
        Marker.isAmong (invisibleAnnotations m.attributes) c.pool Marker.namespaced.descriptor →
        ∃ m' method, c'.methods[k]? = some m' ∧ m'.BootstrappedBy c' method ∧
          method.owner ∈ names ∧ ∃ bytes owner, o.get? method.owner = some bytes ∧
            ClassFile.read bytes = .ok owner ∧ owner.name = .ok method.owner ∧
            (owner.method? method.name method.descriptor).isSome := by
  obtain ⟨c, c', hread, hread', bootstrapped⟩ := transformBytes_bootstrappedBy transformed
  refine ⟨c, c', hread, hread', fun k m hm isStatic legacy namespaced => ?_⟩
  have marker : Marker.of? m c.pool = some .namespaced := by
    rw [Marker.of?, if_neg legacy, if_pos namespaced]
  obtain ⟨m', hm', by_resolver⟩ := bootstrapped k m .namespaced hm isStatic marker
  exact ⟨m', _, hm', by_resolver, injectArchive_resolver resolver injected⟩

/-- A class that declares the method by which call sites are bootstrapped. -/
def resolverClass : ClassFile := { ClassFile.empty with
  pool := ⟨#[.utf8 (below placeholderPackage "PlatformMethods"), .classRef 1, .utf8 "platform",
    .utf8 CallSite.bootstrapDescriptor]⟩
  thisClass := 2
  methods := #[⟨9, 3, 4, []⟩] }

/-- The file of the class. -/
def resolverEntry : ArchiveEntry :=
  ⟨below placeholderPackage "PlatformMethods" ++ classSuffix, true, resolverClass.write.toOption⟩

theorem resolverEntry_isResolver : resolverEntry.IsResolver := by
  have laidOut : resolverClass.pool.LaidOut := by
    refine (ConstantPool.laidOut_iff _).2 ⟨by decide, ?_⟩
    exact .narrow nofun rfl (.narrow nofun rfl (.narrow nofun rfl (.narrow nofun rfl .nil)))
  have asRead : resolverClass.AsRead := by
    refine ⟨rfl, laidOut, ?_, nofun, ?_, nofun⟩
    · simp [resolverClass, ConstantPool.IsRegular, Constant.IsRegular]
    · simp [resolverClass, Member.Everywhere]
  have succeeds : resolverClass.write.toOption.isSome := by decide +kernel
  obtain ⟨data, written⟩ := exists_of_toOption_isSome succeeds
  refine ⟨rfl, ⟨below placeholderPackage "PlatformMethods", by decide +kernel, by decide +kernel⟩,
    data, resolverClass, ?_, ClassFile.read_of_write written asRead, ?_⟩
  · rw [resolverEntry, written]
    rfl
  · exact ClassFile.method?_isSome_iff.2 ⟨_, List.mem_singleton_self _, rfl, rfl⟩

theorem resolverEntry_injected : ∃ o, (injectArchive MemoryOutput.output ⟨"a"⟩
    ⟨[resolverEntry], true⟩).run .empty = (.ok ["a/PlatformMethods"], o) :=
  exists_of_toOption_eq (by decide +kernel)

set_option maxRecDepth 2000 in
theorem markedClass_isNamespaced : ∃ c, ClassFile.read markedClass = .ok c ∧
    ∃ m, c.methods[0]? = some m ∧ m.isStatic ∧
      ¬ Marker.isAmong (visibleAnnotations m.attributes) c.pool Marker.legacy.descriptor ∧
      Marker.isAmong (invisibleAnnotations m.attributes) c.pool Marker.namespaced.descriptor :=
  ⟨_, rfl, _, rfl, rfl, nofun, rfl⟩

/-- The call site of `markedClass` meets its resolver. -/
theorem transformBytes_resolved_markedClass : ∃ w reports o c c' m m' method,
    transformBytes ⟨"a"⟩ markedClass [] = .ok w reports ∧ resolverEntry.IsResolver ∧
      (injectArchive MemoryOutput.output ⟨"a"⟩ ⟨[resolverEntry], true⟩).run .empty =
        (.ok ["a/PlatformMethods"], o) ∧
      ClassFile.read markedClass = .ok c ∧ ClassFile.read w = .ok c' ∧
      c.methods[0]? = some m ∧ c'.methods[0]? = some m' ∧ m'.BootstrappedBy c' method ∧
      method.owner ∈ ["a/PlatformMethods"] ∧ ∃ bytes owner, o.get? method.owner = some bytes ∧
        ClassFile.read bytes = .ok owner ∧ owner.name = .ok method.owner ∧
        (owner.method? method.name method.descriptor).isSome := by
  obtain ⟨w, reports, run⟩ := markedClass_transforms
  obtain ⟨o, injected⟩ := resolverEntry_injected
  obtain ⟨c, c', hread, hread', each⟩ := transformBytes_resolved run
    ⟨resolverEntry, List.mem_singleton_self _, resolverEntry_isResolver⟩ injected
  obtain ⟨d, hd, m, hm, isStatic, legacy, namespaced⟩ := markedClass_isNamespaced
  obtain rfl : c = d := Except.ok.inj (hread.symm.trans hd)
  obtain ⟨m', method, hm', bootstrapped, resolved⟩ := each 0 m hm isStatic legacy namespaced
  exact ⟨w, reports, o, c, c', m, m', method, run, resolverEntry_isResolver, injected, hread,
    hread', hm, hm', bootstrapped, resolved⟩

end ClassWeave
