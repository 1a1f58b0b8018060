import ClassWeave.Platform.Forwarding
import ClassWeave.Proofs.ClassFile.Edits
import ClassWeave.Proofs.Platform.Body
import ClassWeave.Proofs.Platform.Plan

/-!
# Forwarding marked methods

**Invariant** (`Forwarded`). While the planned methods get their bodies one after the other, the
pool and the bootstrap methods grow at their ends only, so a call site that was made stays what it
is.

**Few bootstrap methods.** The handle on a resolver is interned once, and there are two resolvers,
so at most two bootstrap methods are added.

**Whole runs** (`transformBytes_ok`). A class with marked static methods is written in the state
that the invariant describes, and is read back.
-/

namespace ClassWeave

open ConstantPool (Grow Grows Interns)

/-! ## Call sites -/

namespace CallSite

/-- Interns the handle on the method that bootstraps the call site. -/
def internHandle (s : CallSite) : Grow UInt16 := do
  let method ← ConstantPool.addMethodRef s.owner bootstrapName bootstrapDescriptor
  ConstantPool.addMethodHandle staticCallKind method

theorem install_eq (s : CallSite) : s.install =
    ClassFile.onPool s.internHandle >>= fun handle => ClassFile.internBootstrap ⟨handle, []⟩ := rfl

/-- The entry is a handle on the method that bootstraps call sites of some owner. -/
def IsHandle (pool : ConstantPool) (owner : String) (handle : UInt16) : Prop :=
  ∃ reference, pool.get handle = .ok (.methodHandle staticCallKind reference) ∧
    (∃ o m, pool.get reference = .ok (.methodRef o m)) ∧
    pool.memberRef reference = .ok ⟨owner, bootstrapName, bootstrapDescriptor⟩

theorem IsHandle.of_le {p q : ConstantPool} {owner : String} {handle : UInt16}
    (h : IsHandle p owner handle) (le : p ≤ q) : IsHandle q owner handle := by
  obtain ⟨reference, entry, ⟨o, m, method⟩, member⟩ := h
  exact ⟨reference, ConstantPool.get_of_le le entry, ⟨o, m, ConstantPool.get_of_le le method⟩,
    ConstantPool.memberRef_of_le le member⟩

theorem internHandle_interns (s : CallSite) :
    Interns s.internHandle fun handle q => IsHandle q s.owner handle :=
  ((ConstantPool.addMethodRef_interns s.owner bootstrapName bootstrapDescriptor).bind
    (fun _ => Interns.intern rfl) fun _ _ _ le ⟨o, m, method, member⟩ =>
      ⟨o, m, ConstantPool.get_of_le le method, ConstantPool.memberRef_of_le le member⟩).weaken
    fun _ _ ⟨reference, ⟨o, m, method, member⟩, entry⟩ => ⟨reference, entry, ⟨o, m, method⟩, member⟩

/-- Interning the handle gives this index, in the pool and in every later one. -/
def HandleAt (pool : ConstantPool) (s : CallSite) (handle : UInt16) : Prop :=
  ∀ q, pool ≤ q → s.internHandle q = .ok handle q

theorem HandleAt.of_le {p q : ConstantPool} {s : CallSite} {handle : UInt16}
    (h : HandleAt p s handle) (le : p ≤ q) : HandleAt q s handle :=
  fun r le' => h r (ConstantPool.le_trans le le')

theorem HandleAt.unique {pool : ConstantPool} {s : CallSite} {handle handle' : UInt16}
    (h : HandleAt pool s handle) (h' : HandleAt pool s handle') : handle = handle' := by
  have eq := (h pool (ConstantPool.le_refl pool)).symm.trans (h' pool (ConstantPool.le_refl pool))
  exact (EStateM.Result.ok.inj eq).1

/-- **A call site is installed** by adding its bootstrap method, unless it is there. -/
theorem install_ok {s : CallSite} {c c' : ClassFile} {boot : UInt16} (laidOut : c.pool.LaidOut)
    (h : s.install c = .ok boot c') :
    c' = { c with pool := c'.pool, attributes := c'.attributes } ∧ c.pool.Grows c'.pool ∧
      ∃ handle k, boot = UInt16.ofNat k ∧ c'.bootstrapMethods[k]? = some ⟨handle, []⟩ ∧
        IsHandle c'.pool s.owner handle ∧ HandleAt c'.pool s handle ∧
        (c'.attributes = c.attributes ∨ ⟨handle, []⟩ ∉ c.bootstrapMethods ∧
          BootstrapsAdded c'.pool [⟨handle, []⟩] c.attributes c'.attributes) := by
  rw [install_eq] at h
  obtain ⟨handle, d, hhandle, h⟩ := bind_eq_ok_iff.1 h
  obtain ⟨q, hq, rfl⟩ := ClassFile.onPool_eq_ok_iff.1 hhandle
  obtain ⟨grows, isHandle, steady⟩ := s.internHandle_interns.ok _ handle q laidOut hq
  obtain ⟨same, grows', ⟨k, hk, found⟩, added⟩ :=
    ClassFile.internBootstrap_ok (grows.laidOut laidOut) h
  obtain ⟨lt, eq, _⟩ := List.idxOf?_eq_some_iff.1 found
  have there : c'.bootstrapMethods[k]? = some ⟨handle, []⟩ := by
    rw [List.getElem?_eq_getElem lt, eq]
  exact ⟨same, grows.trans grows', handle, k, hk, there, isHandle.of_le grows'.le,
    fun r le => steady r (ConstantPool.le_trans grows'.le le), added⟩

end CallSite

/-- The entry is a dynamic call with a name and a descriptor, bootstrapped by the method of some
owner. -/
def ClassFile.Calls (c : ClassFile) (owner name descriptor : String) (index : UInt16) : Prop :=
  ∃ k member handle, c.pool.get index = .ok (.invokeDynamic (UInt16.ofNat k) member) ∧
    c.pool.nameAndType member = .ok (name, descriptor) ∧
    c.bootstrapMethods[k]? = some ⟨handle, []⟩ ∧ CallSite.IsHandle c.pool owner handle

theorem ClassFile.Calls.of_le {c c' : ClassFile} {owner name descriptor : String} {index : UInt16}
    (h : c.Calls owner name descriptor index) (le : c.pool ≤ c'.pool)
    (bootstraps : c.bootstrapMethods <+: c'.bootstrapMethods) :
    c'.Calls owner name descriptor index := by
  obtain ⟨k, member, handle, call, type, bootstrap, isHandle⟩ := h
  obtain ⟨added, eq⟩ := bootstraps
  obtain ⟨lt, _⟩ := List.getElem?_eq_some_iff.1 bootstrap
  refine ⟨k, member, handle, ConstantPool.get_of_le le call, ConstantPool.nameAndType_of_le le type,
    ?_, isHandle.of_le le⟩
  rw [← eq, List.getElem?_append_left lt, bootstrap]

/-! ## The invariant -/

/-- Bootstrap methods for call sites of markers, each with the handle that is interned for it. -/
def ForMarkers (i : Identifier) (pool : ConstantPool) (added : List BootstrapMethod) : Prop :=
  ∀ b ∈ added, ∃ marker handle, CallSite.HandleAt pool ⟨Marker.resolver i marker⟩ handle ∧
    b = ⟨handle, []⟩

/-- There are two markers, and each has one handle. -/
theorem ForMarkers.length_le {i : Identifier} {pool : ConstantPool} {added : List BootstrapMethod}
    (h : ForMarkers i pool added) (nodup : added.Nodup) : added.length ≤ 2 := by
  match added, h, nodup with
  | [], _, _ | [_], _, _ | [_, _], _, _ => simp
  | a :: b :: c :: rest, h, nodup =>
    obtain ⟨ma, ha, atA, rfl⟩ := h a (by simp)
    obtain ⟨mb, hb, atB, rfl⟩ := h b (by simp)
    obtain ⟨mc, hc, atC, rfl⟩ := h c (by simp)
    have distinct : ma ≠ mb ∧ ma ≠ mc ∧ mb ≠ mc := by
      refine ⟨?_, ?_, ?_⟩ <;> rintro rfl
      · simp [atA.unique atB] at nodup
      · simp [atA.unique atC] at nodup
      · simp [atB.unique atC] at nodup
    cases ma <;> cases mb <;> cases mc <;> simp at distinct

/-- The methods in `done` have got their bodies, and nothing else has changed. -/
structure Forwarded (i : Identifier) (c₀ : ClassFile) (done : List Forwarding) (c : ClassFile) :
    Prop where
  same : c = { c₀ with pool := c.pool, methods := c.methods, attributes := c.attributes }
  pool : c₀.pool.Grows c.pool
  bootstraps : ∃ added, BootstrapsAdded c.pool added c₀.attributes c.attributes ∧ added.Nodup ∧
    ForMarkers i c.pool added
  others (k : Nat) : (∀ f ∈ done, f.position ≠ k) → c.methods[k]? = c₀.methods[k]?
  bodies : ∀ f ∈ done, ∀ m, c₀.methods[f.position]? = some m → ∃ m' index,
    c.methods[f.position]? = some m' ∧
    m.CodeGiven c.pool (Code.ofInstructions (forwardingBody f.name f.type index)
      (UInt16.ofNat f.type.paramSlots)) m' ∧
    c.Calls (f.marker.resolver i) f.name f.descriptor index

/-- **A planned method is installed** by installing its call site and giving it a body. -/
theorem Forwarding.install_ok {i : Identifier} {f : Forwarding} {c c' : ClassFile} {m : Member}
    (laidOut : c.pool.LaidOut) (there : c.methods[f.position]? = some m)
    (h : f.install i c = .ok () c') :
    c' = { c with pool := c'.pool, methods := c'.methods, attributes := c'.attributes } ∧
      c.pool.Grows c'.pool ∧
      (∃ m' index, c'.methods[f.position]? = some m' ∧
        m.CodeGiven c'.pool (Code.ofInstructions (forwardingBody f.name f.type index)
          (UInt16.ofNat f.type.paramSlots)) m' ∧
        c'.Calls (f.marker.resolver i) f.name f.descriptor index) ∧
      (∀ k, k ≠ f.position → c'.methods[k]? = c.methods[k]?) ∧
      ∃ handle, CallSite.HandleAt c'.pool ⟨f.marker.resolver i⟩ handle ∧
        (c'.attributes = c.attributes ∨ ⟨handle, []⟩ ∉ c.bootstrapMethods ∧
          BootstrapsAdded c'.pool [⟨handle, []⟩] c.attributes c'.attributes) := by
  obtain ⟨boot, c₁, hsite, h⟩ := bind_eq_ok_iff.1 h
  obtain ⟨index, c₂, hcall, h⟩ := bind_eq_ok_iff.1 h
  obtain ⟨same₁, grows₁, handle, k, hboot, hk, isHandle, handleAt, added⟩ :=
    CallSite.install_ok laidOut hsite
  have laidOut₁ := grows₁.laidOut laidOut
  obtain ⟨q, hq, same₂⟩ := ClassFile.onPool_eq_ok_iff.1 hcall
  obtain ⟨grows₂, ⟨member, call, type⟩, _⟩ :=
    (ConstantPool.addInvokeDynamic_interns boot f.name f.descriptor).ok _ index q laidOut₁ hq
  rw [hboot] at call
  have pool₂ : c₂.pool = q := by rw [same₂]
  have methods₂ : c₂.methods = c.methods := by rw [same₂, same₁]
  obtain ⟨same₃, grows₃, ⟨m', hm', given⟩, others⟩ := ClassFile.setBody_ok
    (by rw [pool₂]; exact grows₂.laidOut laidOut₁) (by rw [methods₂, there]) h
  rw [pool₂] at grows₃
  have attributes : c'.attributes = c₁.attributes := by rw [same₃, same₂]
  -- The body comes last: what was put into the pool for the call is still there.
  have le : c₁.pool ≤ c'.pool := (grows₂.trans grows₃).le
  refine ⟨by rw [same₃, same₂, same₁], grows₁.trans (grows₂.trans grows₃),
    ⟨m', index, hm', given, ?_⟩, fun k ne => by rw [others k ne, methods₂],
    handle, handleAt.of_le le, ?_⟩
  · refine ⟨k, member, handle, ConstantPool.get_of_le grows₃.le call,
      ConstantPool.nameAndType_of_le grows₃.le type, ?_, isHandle.of_le le⟩
    rw [ClassFile.bootstrapMethods_eq, attributes, ← ClassFile.bootstrapMethods_eq, hk]
  · rw [attributes]
    exact added.imp id fun ⟨absent, new⟩ => ⟨absent, new.of_le le⟩

namespace Forwarded

variable {i : Identifier} {c₀ c c' : ClassFile} {done : List Forwarding}

theorem start (i : Identifier) (c : ClassFile) : Forwarded i c [] c where
  same := rfl
  pool := .refl _
  bootstraps := ⟨[], .refl _ _, .nil, by simp [ForMarkers]⟩
  others _ _ := rfl
  bodies := by simp

theorem bootstrapMethods_of_added {added : List BootstrapMethod} {pool : ConstantPool}
    (h : BootstrapsAdded pool added c.attributes c'.attributes) :
    c.bootstrapMethods <+: c'.bootstrapMethods := by
  rw [ClassFile.bootstrapMethods_eq, ClassFile.bootstrapMethods_eq, h.firstBootstraps_eq]
  exact List.prefix_append _ _

/-- **One more body.** Installing a planned method that has none yet keeps the invariant. -/
theorem step {f : Forwarding} {m : Member} (inv : Forwarded i c₀ done c)
    (laidOut : c₀.pool.LaidOut) (there : c₀.methods[f.position]? = some m)
    (fresh : ∀ g ∈ done, g.position ≠ f.position) (h : f.install i c = .ok () c') :
    Forwarded i c₀ (done ++ [f]) c' := by
  have stays : c.methods[f.position]? = some m := by rw [inv.others f.position fresh, there]
  obtain ⟨same, grows, body, others, handle, handleAt, changed⟩ :=
    Forwarding.install_ok (inv.pool.laidOut laidOut) stays h
  obtain ⟨added, old, nodup, forMarkers⟩ := inv.bootstraps
  have stillFor : ForMarkers i c'.pool added := by
    intro b hb
    obtain ⟨marker, h, at_h, eq⟩ := forMarkers b hb
    exact ⟨marker, h, at_h.of_le grows.le, eq⟩
  -- A site that is installed again finds its handle; a new one is not among those so far.
  have bootstraps : ∃ more, BootstrapsAdded c'.pool more c.attributes c'.attributes ∧
      (added ++ more).Nodup ∧ ForMarkers i c'.pool (added ++ more) := by
    rcases changed with unchanged | ⟨absent, new⟩
    · refine ⟨[], ?_, by rwa [List.append_nil], by rwa [List.append_nil]⟩
      rw [unchanged]
      exact .refl _ _
    · refine ⟨_, new, ?_, fun b hb => ?_⟩
      · rw [ClassFile.bootstrapMethods_eq, old.firstBootstraps_eq, List.mem_append, not_or]
          at absent
        refine List.nodup_append.2 ⟨nodup, by simp, fun b hb d hd eq => absent.2 ?_⟩
        rw [List.mem_singleton] at hd
        rwa [← hd, ← eq]
      · rcases List.mem_append.1 hb with hb | hb
        · exact stillFor b hb
        · exact ⟨f.marker, handle, handleAt, List.mem_singleton.1 hb⟩
  obtain ⟨more, new, nodup', forMarkers'⟩ := bootstraps
  refine ⟨?_, inv.pool.trans grows,
    ⟨added ++ more, old.trans new grows.le, nodup', forMarkers'⟩, ?_,
    ?_⟩
  · rw [same, inv.same]
  · intro k hk
    rw [others k (hk f (by simp)).symm, inv.others k fun g hg => hk g (by simp [hg])]
  · intro g hg n hn
    rcases List.mem_append.1 hg with hg | hg
    · obtain ⟨n', index, hn', given, calls⟩ := inv.bodies g hg n hn
      refine ⟨n', index, ?_, given.of_le grows.le,
        calls.of_le grows.le (bootstrapMethods_of_added new)⟩
      rw [others _ (fresh g hg), hn']
    · rw [List.mem_singleton] at hg
      subst hg
      obtain rfl : m = n := Option.some.inj (there.symm.trans hn)
      exact body

/-- **All bodies.** The planned methods get their bodies one after the other. -/
theorem run {rest : List Forwarding} (inv : Forwarded i c₀ done c) (laidOut : c₀.pool.LaidOut)
    (there : ∀ f ∈ rest, ∃ m, c₀.methods[f.position]? = some m)
    (distinct : (done ++ rest).Pairwise fun f g => f.position ≠ g.position)
    (h : rest.forM (·.install i) c = .ok () c') : Forwarded i c₀ (done ++ rest) c' := by
  -- The invariant moves along the plan: what is first in the rest becomes last in `done`.
  induction rest generalizing done c with
  | nil =>
    obtain ⟨_, rfl⟩ := pure_eq_ok_iff.1 h
    rwa [List.append_nil]
  | cons f rest ih =>
    obtain ⟨_, d, hf, hrest⟩ := bind_eq_ok_iff.1 h
    rw [List.forall_mem_cons] at there
    obtain ⟨⟨m, hm⟩, there⟩ := there
    have fresh : ∀ g ∈ done, g.position ≠ f.position := fun g hg =>
      (List.pairwise_append.1 distinct).2.2 g hg f (by simp)
    have shift : done ++ f :: rest = done ++ [f] ++ rest := by simp
    rw [shift] at distinct ⊢
    exact ih (inv.step laidOut hm fresh hf) there distinct hrest

/-- The class at work can be read back once it is written. -/
theorem readable (inv : Forwarded i c₀ done c) (asRead : c₀.AsRead)
    (there : ∀ f ∈ done, ∃ m, c₀.methods[f.position]? = some m) : c.Readable where
  magic_eq := by
    rw [inv.same]
    exact asRead.magic_eq
  laidOut := inv.pool.laidOut asRead.laidOut
  regular := inv.pool.isRegular asRead.regular
  everywhere := by
    have member {m : Member} (h : m.Everywhere (Attribute.AsRead c₀.pool)) :
        m.Everywhere (Attribute.Readable c.pool) :=
      fun a ha => Attribute.readable_of_asRead inv.pool.le (h a ha)
    have old (k : Nat) (m : Member) (hm : c₀.methods[k]? = some m) :
        m.Everywhere (Attribute.Readable c.pool) :=
      member (asRead.everywhere.method hm)
    refine ⟨?_, fun m' hm' => ?_, ?_⟩
    · rw [inv.same]
      exact fun m hm => member (asRead.everywhere.fields m hm)
    · obtain ⟨k, hk⟩ := List.mem_iff_getElem?.1 hm'
      rw [Array.getElem?_toList] at hk
      -- A method has either got its body, or it is the one that was read.
      by_cases given : ∃ f ∈ done, f.position = k
      · obtain ⟨f, hf, rfl⟩ := given
        obtain ⟨m, hm⟩ := there f hf
        obtain ⟨n, index, hn, given, _⟩ := inv.bodies f hf m hm
        obtain rfl : n = m' := Option.some.inj (hn.symm.trans hk)
        exact given.readable rfl (old _ m hm)
      · rw [inv.others k fun f hf eq => given ⟨f, hf, eq⟩] at hk
        exact old k m' hk
    · obtain ⟨added, bootstraps, _⟩ := inv.bootstraps
      exact bootstraps.readable fun a ha =>
        Attribute.readable_of_asRead inv.pool.le (asRead.everywhere.attributes a ha)

end Forwarded

/-! ## Whole runs -/

/-- Without a plan nothing is done. -/
theorem forwardMarked_of_unplanned (i : Identifier) {s : Session} {e : Error}
    (h : Plan.ofClass s.classFile = .error e) : forwardMarked i s = .error e s := by
  unfold forwardMarked
  rw [get_bind, h]
  rfl

/-- A plan is reported on, and then carried out. -/
theorem forwardMarked_of_planned (i : Identifier) {s : Session} {plan : Plan}
    (h : Plan.ofClass s.classFile = .ok plan) : forwardMarked i s =
      match plan.forwardings.forM (·.install i) s.classFile with
      | .ok _ c => .ok plan.forwardings.length ⟨c, s.reports ++ plan.reports⟩
      | .error e c => .error (.pool e) ⟨c, s.reports ++ plan.reports⟩ := by
  have run (t : Session) : (do
        Session.edit (plan.forwardings.forM (·.install i))
        return plan.forwardings.length : EStateM Error Session Nat) t =
      match plan.forwardings.forM (·.install i) t.classFile with
      | .ok _ c => .ok plan.forwardings.length ⟨c, t.reports⟩
      | .error e c => .error (.pool e) ⟨c, t.reports⟩ := by
    show EStateM.bind (Session.edit _) _ t = _
    rw [EStateM.bind, Session.edit]
    cases plan.forwardings.forM (·.install i) t.classFile <;> rfl
  rw [← run ⟨s.classFile, s.reports ++ plan.reports⟩]
  unfold forwardMarked
  rw [get_bind, h]
  rfl

theorem forwardMarked_ok {i : Identifier} {s s' : Session} {n : Nat}
    (h : forwardMarked i s = .ok n s') : ∃ plan, Plan.ofClass s.classFile = .ok plan ∧
      n = plan.forwardings.length ∧
        plan.forwardings.forM (·.install i) s.classFile = .ok () s'.classFile := by
  cases hplan : Plan.ofClass s.classFile with
  | error e => cases (forwardMarked_of_unplanned i hplan).symm.trans h
  | ok plan =>
    rw [forwardMarked_of_planned i hplan] at h
    cases hrun : plan.forwardings.forM (·.install i) s.classFile with
    | error e c => simp [hrun] at h
    | ok _ c =>
      rw [hrun] at h
      obtain ⟨rfl, rfl⟩ := EStateM.Result.ok.inj h
      exact ⟨plan, rfl, rfl, hrun⟩

/-- A class is transformed when it is read and planned, and its bodies are given and written;
without a planned method the bytes are handed on. The reports are those of the plan. -/
theorem transformBytes_eq_ok_iff {i : Identifier} {bs w : Bytes}
    {reports reports' : List Diagnostic} : transformBytes i bs reports = .ok w reports' ↔
      ∃ c plan, ClassFile.read bs = .ok c ∧ Plan.ofClass c = .ok plan ∧
        reports' = reports ++ plan.reports ∧ (plan.forwardings = [] ∧ w = bs ∨
          plan.forwardings ≠ [] ∧ ∃ c', plan.forwardings.forM (·.install i) c = .ok () c' ∧
            c'.write = .ok w) := by
  unfold transformBytes
  cases hread : ClassFile.read bs with
  | error e => simp
  | ok c =>
    cases hplan : Plan.ofClass c with
    | error e =>
      have run := forwardMarked_of_unplanned i (s := ⟨c, reports⟩) hplan
      simp [run, hplan]
    | ok plan =>
      have run := forwardMarked_of_planned i (s := ⟨c, reports⟩) hplan
      -- The number of bodies decides whether the class is written at all.
      by_cases nothing : plan.forwardings = []
      · have unchanged : ([] : List Forwarding).forM (·.install i) c = .ok () c := rfl
        rw [nothing, unchanged] at run
        simp [run, hplan, nothing, eq_comm, and_comm]
      · obtain ⟨n, length⟩ :=
          Nat.exists_eq_succ_of_ne_zero (mt List.length_eq_zero_iff.1 nothing)
        rw [length] at run
        cases hrun : plan.forwardings.forM (·.install i) c with
        | error e d =>
          rw [hrun] at run
          simp [run, hplan, nothing, hrun, -List.forM_eq_forM]
        | ok _ d =>
          rw [hrun] at run
          cases hwrite : d.write with
          | error e => simp [run, hplan, nothing, hrun, hwrite, -List.forM_eq_forM]
          | ok bs' =>
            simp [run, hplan, nothing, hrun, hwrite, -List.forM_eq_forM, and_comm, eq_comm (a := w),
              eq_comm (a := reports')]

/-- A plan that is carried out gives all its methods their bodies. -/
theorem Forwarded.of_plan {i : Identifier} {c c' : ClassFile} {plan : Plan}
    (laidOut : c.pool.LaidOut) (hplan : Plan.ofClass c = .ok plan)
    (h : plan.forwardings.forM (·.install i) c = .ok () c') :
    Forwarded i c plan.forwardings c' := by
  obtain ⟨each, _, ordered⟩ := Plan.ofClass_ok hplan
  refine (Forwarded.start i c).run laidOut (fun f hf => ?_) ?_ h
  · obtain ⟨m, hm, _⟩ := each f hf
    exact ⟨m, hm⟩
  · exact ordered.imp fun lt => Nat.ne_of_lt lt

/-- A class that is transformed is either left alone or written after its bodies are given. -/
theorem transformBytes_ok {i : Identifier} {bs w : Bytes} {reports reports' : List Diagnostic}
    (h : transformBytes i bs reports = .ok w reports') : ∃ c plan, ClassFile.read bs = .ok c ∧
      Plan.ofClass c = .ok plan ∧ (plan.forwardings = [] ∧ w = bs ∨ plan.forwardings ≠ [] ∧
        ∃ c', Forwarded i c plan.forwardings c' ∧ c'.write = .ok w) := by
  obtain ⟨c, plan, hread, hplan, _, outcome⟩ := transformBytes_eq_ok_iff.1 h
  refine ⟨c, plan, hread, hplan, outcome.imp_right fun ⟨something, c', hrun, written⟩ => ?_⟩
  exact ⟨something, c', .of_plan (ClassFile.asRead_of_read hread).laidOut hplan hrun, written⟩

end ClassWeave
