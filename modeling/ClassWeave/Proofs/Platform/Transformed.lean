import ClassWeave.Proofs.Platform.Execution
import ClassWeave.Proofs.Platform.Forwarding

/-!
# Transformed classes

A transformed class is written and read again, and compared with the class it was made of.

**What it does** (`transformBytes_forwards`). Every marked static method has a forwarding body,
whose call resolves in the transformed class to the resolver of the method's marker. What this says
about the stored bytes stands behind it: a machine reads this one call in them
(`Member.Forwards.calls`) and executes them for all arguments (`Member.Forwards.runs`).

**What stays** (`transformBytes_frame`). Everything else stands where it stood: the pool and the
bootstrap methods have grown at their ends only, and the other methods and attributes are the same.
-/

namespace ClassWeave

/-- The method is static and carries a marker. -/
def Member.IsMarked (pool : ConstantPool) (m : Member) : Prop :=
  m.isStatic ∧ (Marker.of? m pool).isSome

/-- There is something to forward exactly when some method is marked. -/
theorem Plan.forwardings_eq_nil_iff {c : ClassFile} {plan : Plan} (h : ofClass c = .ok plan) :
    plan.forwardings = [] ↔ ∀ m ∈ c.methods, ¬ m.IsMarked c.pool := by
  obtain ⟨each, all, _⟩ := ofClass_ok h
  refine ⟨?_, ?_⟩
  · intro nothing m hm marked
    obtain ⟨k, hk⟩ := Array.mem_iff_getElem?.1 hm
    obtain ⟨f, hf, _⟩ := all k m hk marked.1 marked.2
    rw [nothing] at hf
    exact List.not_mem_nil hf
  · intro unmarked
    refine List.eq_nil_iff_forall_not_mem.2 fun f hf => ?_
    obtain ⟨m, hm, planned⟩ := each f hf
    exact unmarked m (Array.mem_of_getElem? hm)
      ⟨planned.isStatic, Option.isSome_iff_exists.2 ⟨_, planned.marker_eq⟩⟩

/-! ## Reading back -/

namespace Forwarded

variable {i : Identifier} {c c' : ClassFile} {plan : Plan} {w : Bytes}

theorem read_written (inv : Forwarded i c plan.forwardings c') (hplan : Plan.ofClass c = .ok plan)
    (asRead : c.AsRead) (written : c'.write = .ok w) : ClassFile.read w = .ok c'.resolved := by
  refine ClassFile.read_of_write_resolved written (inv.readable asRead fun f hf => ?_)
  obtain ⟨m, hm, _⟩ := (Plan.ofClass_ok hplan).1 f hf
  exact ⟨m, hm⟩

theorem getElem?_resolved (c : ClassFile) (k : Nat) :
    c.resolved.methods[k]? = c.methods[k]?.map Member.resolved := by
  rw [ClassFile.resolved_methods, Array.getElem?_map]

theorem resolved_of_asRead (asRead : c.AsRead) {k : Nat} {m : Member}
    (hm : c.methods[k]? = some m) : m.resolved = m :=
  Member.resolved_eq (asRead.everywhere.method hm)

/-- Outside of the pool, the methods and the attributes nothing changes. -/
theorem header (inv : Forwarded i c plan.forwardings c') (asRead : c.AsRead) : c'.resolved =
    { c with
      pool := c'.resolved.pool
      methods := c'.resolved.methods
      attributes := c'.resolved.attributes } := by
  have fields : c.fields.map Member.resolved = c.fields := by
    rw [List.map_congr_left fun m hm => Member.resolved_eq (asRead.everywhere.fields m hm),
      List.map_id']
  rw [inv.same]
  simp only [ClassFile.resolved, fields]

theorem unmarked (inv : Forwarded i c plan.forwardings c') (hplan : Plan.ofClass c = .ok plan)
    (asRead : c.AsRead) {k : Nat}
    (none : ∀ m, c.methods[k]? = some m → ¬ m.IsMarked c.pool) :
    c'.resolved.methods[k]? = c.methods[k]? := by
  have others : c'.methods[k]? = c.methods[k]? := by
    refine inv.others k fun f hf position => ?_
    obtain ⟨m, hm, planned⟩ := (Plan.ofClass_ok hplan).1 f hf
    rw [position] at hm
    exact none m hm ⟨planned.isStatic, Option.isSome_iff_exists.2 ⟨_, planned.marker_eq⟩⟩
  rw [getElem?_resolved, others]
  rcases hm : c.methods[k]? with _ | m
  · rfl
  · rw [Option.map_some, resolved_of_asRead asRead hm]

/-- The depth and the code of a forwarding body once it is written. -/
theorem resolved_forwardingBody (name : String) {descriptor : String} {type : MethodType}
    (index : UInt16) (parsed : MethodType.parse descriptor = .ok type) :
    (Code.ofInstructions (forwardingBody name type index)
      (UInt16.ofNat type.paramSlots)).resolved =
    Code.ofBytecode (UInt16.ofNat (max type.paramSlots type.resultSlots))
      (UInt16.ofNat type.paramSlots)
      ((forwardingBody name type index).flatMap Instruction.encode) := by
  have few := paramSlots_le_of_parse parsed
  have depth : (Code.ofInstructions (forwardingBody name type index)
      (UInt16.ofNat type.paramSlots)).maxStack =
        .ok (UInt16.ofNat (max type.paramSlots type.resultSlots)) :=
    maxStack_forwardingBody name index few
  have code : (Code.ofInstructions (forwardingBody name type index)
      (UInt16.ofNat type.paramSlots)).bytes =
        .ok ((forwardingBody name type index).flatMap Instruction.encode) :=
    encode_forwardingBody name index few
  unfold Code.ofInstructions at depth code ⊢
  simp only [Code.resolved, depth, code]
  rfl

/-- A marked method is read back with its forwarding body, whose call site was made for it. -/
theorem marked (inv : Forwarded i c plan.forwardings c') (hplan : Plan.ofClass c = .ok plan)
    (asRead : c.AsRead) {k : Nat} {m : Member} (hm : c.methods[k]? = some m)
    (marked : m.IsMarked c.pool) : ∃ m' f index, c'.resolved.methods[k]? = some m' ∧
      Plan.Planned c.pool m f ∧ c'.Calls (f.marker.resolver i) f.name f.descriptor index ∧
      m.CodeGiven c'.pool (Code.ofBytecode (UInt16.ofNat (max f.type.paramSlots f.type.resultSlots))
        (UInt16.ofNat f.type.paramSlots)
        ((forwardingBody f.name f.type index).flatMap Instruction.encode)) m' := by
  obtain ⟨each, all, _⟩ := Plan.ofClass_ok hplan
  obtain ⟨f, hf, rfl⟩ := all k m hm marked.1 marked.2
  obtain ⟨n, hn, planned⟩ := each f hf
  obtain rfl : m = n := Option.some.inj (hm.symm.trans hn)
  obtain ⟨m', index, hm', given, calls⟩ := inv.bodies f hf m hm
  have given := given.resolved (asRead.everywhere.method hm)
  rw [resolved_forwardingBody f.name index planned.type_eq] at given
  exact ⟨m'.resolved, f, index, by rw [getElem?_resolved, hm', Option.map_some], planned, calls,
    given⟩

end Forwarded

/-- A class with a native static method `m` of type `(J)I` that carries the namespaced marker. -/
def markedClass : Bytes :=
  [0xCA, 0xFE, 0xBA, 0xBE, 0, 0, 0, 52, 0, 7, 1, 0, 1, 65, 7, 0, 1, 1, 0, 1, 109, 1, 0, 4, 40, 74,
    41, 73, 1, 0, 27, 82, 117, 110, 116, 105, 109, 101, 73, 110, 118, 105, 115, 105, 98, 108, 101,
    65, 110, 110, 111, 116, 97, 116, 105, 111, 110, 115, 1, 0, 54, 76, 109, 101, 47, 115, 104, 101,
    100, 97, 110, 105, 101, 108, 47, 97, 114, 99, 104, 105, 116, 101, 99, 116, 117, 114, 121, 47,
    97, 110, 110, 111, 116, 97, 116, 105, 111, 110, 115, 47, 69, 120, 112, 101, 99, 116, 80, 108,
    97, 116, 102, 111, 114, 109, 59, 0, 33, 0, 2, 0, 0, 0, 0, 0, 0, 0, 1, 1, 8, 0, 3, 0, 4, 0, 1, 0,
    5, 0, 0, 0, 6, 0, 1, 0, 6, 0, 0, 0, 0]

set_option maxRecDepth 2000 in
theorem markedClass_isMarked : ∃ c, ClassFile.read markedClass = .ok c ∧
    ∃ m, c.methods[0]? = some m ∧ m.IsMarked c.pool :=
  ⟨_, rfl, _, rfl, rfl, rfl⟩

theorem markedClass_transforms : ∃ w reports, transformBytes ⟨"a"⟩ markedClass [] = .ok w reports :=
  exists_of_isOk (by decide +kernel)

/-! ## What a transformed class does -/

/-- The class that resolves a method. -/
def Member.resolver (i : Identifier) (pool : ConstantPool) (m : Member) : String :=
  if Marker.isAmong (visibleAnnotations m.attributes) pool Marker.legacy.descriptor then
    "me/shedaniel/architectury/PlatformMethods"
  else i.text ++ "/PlatformMethods"

theorem Marker.resolver_eq {i : Identifier} {pool : ConstantPool} {m : Member} {marker : Marker}
    (h : Marker.of? m pool = some marker) : marker.resolver i = m.resolver i pool := by
  unfold Marker.of? at h
  unfold Member.resolver
  by_cases isLegacy : isAmong (visibleAnnotations m.attributes) pool legacy.descriptor
  · rw [if_pos isLegacy] at h ⊢
    obtain rfl := Option.some.inj h
    rfl
  · rw [if_neg isLegacy] at h ⊢
    split_ifs at h
    obtain rfl := Option.some.inj h
    show i.text ++ "/" ++ "PlatformMethods" = _
    rw [String.append_assoc]
    rfl

/-- The entry is a dynamic call with a name and a descriptor, without arguments, bootstrapped by a
handle on the static method `platform` of some owner. -/
def ClassFile.Resolves (c : ClassFile) (owner name descriptor : String) (index : UInt16) : Prop :=
  ∃ boot member handle reference, c.pool.get index = .ok (.invokeDynamic boot member) ∧
    c.pool.nameAndType member = .ok (name, descriptor) ∧
    c.bootstrapMethods[boot.toNat]? = some ⟨handle, []⟩ ∧
    c.pool.get handle = .ok (.methodHandle 6 reference) ∧
    (∃ ownerIndex memberIndex, c.pool.get reference = .ok (.methodRef ownerIndex memberIndex)) ∧
    c.pool.memberRef reference = .ok ⟨owner, "platform", CallSite.bootstrapDescriptor⟩

/-- The second method forwards to the resolver of the first one: its code is the forwarding body for
the first one's name and descriptor, with as many locals as there are slots of parameters and with
room for these and for the result. -/
def Member.Forwards (i : Identifier) (c c' : ClassFile) (m m' : Member) : Prop :=
  ∃ name descriptor type index code depth maxLocals, m.name c.pool = .ok name ∧
    m.descriptor c.pool = .ok descriptor ∧ MethodType.parse descriptor = .ok type ∧
    encodeInstructions (forwardingBody name type index) = .ok code ∧
    m'.code? = some (Code.ofBytecode depth maxLocals code) ∧
    maxLocals.toNat = type.paramSlots ∧ depth.toNat = max type.paramSlots type.resultSlots ∧
    c'.Resolves (m.resolver i c.pool) name descriptor index

section

variable {i : Identifier} {c c' : ClassFile} {m m' : Member}

/-- **The stored code of a method that forwards**, as a machine reads it, has one call, and this
call resolves to the resolver of the method. -/
theorem Member.Forwards.calls (h : m.Forwards i c c' m') :
    ∃ name descriptor depth maxLocals code operations index, m.name c.pool = .ok name ∧
      m.descriptor c.pool = .ok descriptor ∧
      m'.code? = some (Code.ofBytecode depth maxLocals code) ∧
      Operation.readAll? code = some operations ∧
      operations.filterMap Operation.called? = [index] ∧
      c'.Resolves (m.resolver i c.pool) name descriptor index := by
  obtain ⟨name, descriptor, _, index, code, depth, maxLocals, hname, hdescriptor, _, encoded,
    stored, _, _, resolves⟩ := h
  obtain ⟨operations, read, called⟩ := calls_forwardingBody encoded
  exact ⟨name, descriptor, depth, maxLocals, code, operations, index, hname, hdescriptor, stored,
    read, called, resolves⟩

/-- **A method that forwards runs**: for all arguments of its descriptor, its stored code hands them
to the call that resolves to its resolver, and returns what this answers. -/
theorem Member.Forwards.runs (h : m.Forwards i c c' m') :
    ∃ name descriptor type depth maxLocals code index, m.name c.pool = .ok name ∧
      m.descriptor c.pool = .ok descriptor ∧ MethodType.parse descriptor = .ok type ∧
      m'.code? = some (Code.ofBytecode depth maxLocals code) ∧
      c'.Resolves (m.resolver i c.pool) name descriptor index ∧
      ∀ {α : Type} (compute : List (Value α) → α) (arguments : List (Value α)),
        arguments.map (·.type) = type.params →
        (Frame.forwarding type index maxLocals depth compute arguments).execute code =
          some (Event.loads 0 arguments ++ [.call index arguments,
            .ret (Callee.answer ⟨type, compute⟩ arguments)]) := by
  obtain ⟨name, descriptor, type, index, code, depth, maxLocals, hname, hdescriptor, parsed,
    encoded, stored, locals, stack, resolves⟩ := h
  exact ⟨name, descriptor, type, depth, maxLocals, code, index, hname, hdescriptor, parsed, stored,
    resolves, fun compute _ types => Frame.execute_forwardingBody encoded
      (Nat.le_of_eq locals.symm) (Nat.le_of_eq stack.symm) compute types⟩

end

/-- A written class has few enough bootstrap methods for their indices. -/
theorem ClassFile.length_bootstrapMethods_lt {c : ClassFile} {w : Bytes} (h : c.write = .ok w) :
    c.bootstrapMethods.length < 0x10000 := by
  obtain ⟨_, _, _, ⟨_, _, _, _, _, _, _, attributes, _⟩, _⟩ := write_eq_ok_iff.1 h
  obtain ⟨_, _, each, _⟩ := Encoded.counted_eq_ok_iff.1 attributes
  rw [bootstrapMethods_eq, firstBootstraps]
  -- Their list has been written with a count of two bytes.
  rcases hfirst : c.attributes.findSome? bootstrapsOf with _ | list
  · exact Nat.zero_lt_succ _
  · obtain ⟨a, ha, hlist⟩ := List.exists_of_findSome?_eq_some hfirst
    obtain ⟨part, hpart⟩ := Encoded.concat_eq_ok_mem each ha
    obtain ⟨payload, _, hpayload, _⟩ := Attribute.encode_eq_ok_iff.1 hpart
    obtain ⟨name, content⟩ := a
    cases content with
    | bootstrapMethods methods =>
      obtain rfl := Option.some.inj hlist
      exact (Encoded.counted_eq_ok_iff.1 hpayload).1
    | _ => simp [bootstrapsOf] at hlist

theorem bootstrapsOf_resolved (a : Attribute) : bootstrapsOf a.resolved = bootstrapsOf a := by
  obtain ⟨name, content⟩ := a
  cases content <;> rfl

theorem ClassFile.bootstrapMethods_resolved (c : ClassFile) :
    c.resolved.bootstrapMethods = c.bootstrapMethods := by
  have same : bootstrapsOf ∘ Attribute.resolved = bootstrapsOf := funext bootstrapsOf_resolved
  rw [bootstrapMethods_eq, bootstrapMethods_eq, resolved_attributes, firstBootstraps,
    List.findSome?_map, same, firstBootstraps]

theorem ClassFile.Calls.resolves {c : ClassFile} {w : Bytes} {owner name descriptor : String}
    {index : UInt16} (h : c.Calls owner name descriptor index) (written : c.write = .ok w) :
    c.resolved.Resolves owner name descriptor index := by
  obtain ⟨k, member, handle, call, type, bootstrap, reference, entry, method, names⟩ := h
  have few := length_bootstrapMethods_lt written
  obtain ⟨lt, _⟩ := List.getElem?_eq_some_iff.1 bootstrap
  have index : (UInt16.ofNat k).toNat = k := by
    rw [UInt16.toNat_ofNat', Nat.mod_eq_of_lt (by omega)]
  refine ⟨UInt16.ofNat k, member, handle, reference, call, type, ?_, entry, method, names⟩
  rw [bootstrapMethods_resolved, index, bootstrap]

/-- **What a transformed class does.** Every marked static method forwards to its resolver. -/
theorem transformBytes_forwards {i : Identifier} {bs w : Bytes} {reports reports' : List Diagnostic}
    (h : transformBytes i bs reports = .ok w reports') :
    ∃ c c', ClassFile.read bs = .ok c ∧ ClassFile.read w = .ok c' ∧
      ∀ (k : Nat) (m : Member), c.methods[k]? = some m → m.IsMarked c.pool →
        ∃ m', c'.methods[k]? = some m' ∧ m.Forwards i c c' m' := by
  obtain ⟨c, plan, hread, hplan, run⟩ := transformBytes_ok h
  have asRead := ClassFile.asRead_of_read hread
  -- Either no method is marked, or the invariant of the run knows the body of each that is.
  rcases run with ⟨nothing, rfl⟩ | ⟨_, c', inv, written⟩
  · have unmarked := (Plan.forwardings_eq_nil_iff hplan).1 nothing
    exact ⟨c, c, hread, hread, fun k m hm marked =>
      absurd marked (unmarked m (Array.mem_of_getElem? hm))⟩
  · refine ⟨c, c'.resolved, hread, inv.read_written hplan asRead written, fun k m hm marked => ?_⟩
    obtain ⟨m', f, index, hm', planned, calls, given⟩ := inv.marked hplan asRead hm marked
    have few := paramSlots_le_of_parse planned.type_eq
    have resultSlots := f.type.resultSlots_le
    unfold maxParamSlots at few
    refine ⟨m', hm', f.name, f.descriptor, f.type, index, _, _, _, planned.name_eq,
      planned.descriptor_eq, planned.type_eq,
      encode_forwardingBody f.name index (paramSlots_le_of_parse planned.type_eq), given.code?_eq,
      ?_, ?_, ?_⟩
    · rw [UInt16.toNat_ofNat', Nat.mod_eq_of_lt (by omega)]
    · rw [UInt16.toNat_ofNat', Nat.mod_eq_of_lt (by omega)]
    · rw [← Marker.resolver_eq planned.marker_eq]
      exact calls.resolves written

/-- The marked method of `markedClass` forwards to the resolver of the build. -/
theorem transformBytes_forwards_markedClass : ∃ w reports c c' m m',
    transformBytes ⟨"a"⟩ markedClass [] = .ok w reports ∧ ClassFile.read markedClass = .ok c ∧
      ClassFile.read w = .ok c' ∧ c.methods[0]? = some m ∧ c'.methods[0]? = some m' ∧
        m.Forwards ⟨"a"⟩ c c' m' := by
  obtain ⟨w, reports, run⟩ := markedClass_transforms
  obtain ⟨c, c', hread, hread', each⟩ := transformBytes_forwards run
  obtain ⟨d, hd, m, hm, marked⟩ := markedClass_isMarked
  obtain rfl : c = d := Except.ok.inj (hread.symm.trans hd)
  obtain ⟨m', hm', forwards⟩ := each 0 m hm marked
  exact ⟨w, reports, c, c', m, m', run, hread, hread', hm, hm', forwards⟩

/-! ## What stays -/

/-- The second class is the first one with new code for its marked static methods, and with what
these need behind the pool and the bootstrap methods. -/
structure Transformed (c c' : ClassFile) : Prop where
  header : c' = { c with pool := c'.pool, methods := c'.methods, attributes := c'.attributes }
  unmarked (k : Nat) : (∀ m, c.methods[k]? = some m → ¬ m.IsMarked c.pool) →
    c'.methods[k]? = c.methods[k]?
  marked (k : Nat) (m : Member) : c.methods[k]? = some m → m.IsMarked c.pool →
    ∃ m' code, c'.methods[k]? = some m' ∧ m.CodeGiven c'.pool code m'
  pool : ∃ new, c'.pool.slots.toList = c.pool.slots.toList ++ new ∧ new.Nodup ∧
    ∀ e ∈ new, e ∉ c.pool.slots.toList
  bootstraps : ∃ added, added.length ≤ 2 ∧
    BootstrapsAdded c'.pool added c.attributes c'.attributes

/-- **What stays in a transformed class.** Without marked static methods the bytes stay, and with
some of them everything stays but their code and what it needs. -/
theorem transformBytes_frame {i : Identifier} {bs w : Bytes} {reports reports' : List Diagnostic}
    (h : transformBytes i bs reports = .ok w reports') :
    ∃ c, ClassFile.read bs = .ok c ∧ ((∀ m ∈ c.methods, ¬ m.IsMarked c.pool) → w = bs) ∧
      ((∃ m ∈ c.methods, m.IsMarked c.pool) →
        ∃ c', ClassFile.read w = .ok c' ∧ Transformed c c') := by
  obtain ⟨c, plan, hread, hplan, run⟩ := transformBytes_ok h
  have asRead := ClassFile.asRead_of_read hread
  refine ⟨c, hread, fun unmarked => ?_, fun ⟨m, hm, marked⟩ => ?_⟩
  · rcases run with ⟨_, same⟩ | ⟨something, _⟩
    · exact same
    · exact absurd ((Plan.forwardings_eq_nil_iff hplan).2 unmarked) something
  · rcases run with ⟨nothing, _⟩ | ⟨_, c', inv, written⟩
    · exact absurd marked ((Plan.forwardings_eq_nil_iff hplan).1 nothing m hm)
    · refine ⟨c'.resolved, inv.read_written hplan asRead written, ?_, ?_, ?_, ?_, ?_⟩
      · exact inv.header asRead
      · exact fun k none => inv.unmarked hplan asRead none
      · intro k m hm marked
        obtain ⟨m', f, index, hm', _, _, given⟩ := inv.marked hplan asRead hm marked
        exact ⟨m', _, hm', given⟩
      · obtain ⟨new, grows⟩ := inv.pool
        exact ⟨new, grows.slots_eq, grows.nodup, grows.fresh⟩
      · obtain ⟨added, bootstraps, nodup, forMarkers⟩ := inv.bootstraps
        exact ⟨added, forMarkers.length_le nodup, bootstraps.resolved asRead.everywhere.attributes⟩

/-- The transformed class of `markedClass` differs from it in what it has gained. -/
theorem transformBytes_frame_markedClass : ∃ w reports c c',
    transformBytes ⟨"a"⟩ markedClass [] = .ok w reports ∧ ClassFile.read markedClass = .ok c ∧
      ClassFile.read w = .ok c' ∧ Transformed c c' := by
  obtain ⟨w, reports, run⟩ := markedClass_transforms
  obtain ⟨c, hread, _, transformed⟩ := transformBytes_frame run
  obtain ⟨d, hd, m, hm, marked⟩ := markedClass_isMarked
  obtain rfl : c = d := Except.ok.inj (hread.symm.trans hd)
  obtain ⟨c', hread', frame⟩ := transformed ⟨m, Array.mem_of_getElem? hm, marked⟩
  exact ⟨w, reports, c, c', run, hread, hread', frame⟩

end ClassWeave
