import ClassWeave.Proofs.Platform.PlanAgain
import ClassWeave.Proofs.Platform.Steady

/-!
# Classes that are transformed again

A transformed class still carries its markers, so transforming it again does all the work again.

**The same plan** is made (`Forwarded.plan_again`).

**The same work** is done (`Forwarded.run_again`): each call site is found where it was made, and
each body takes the place of the bytes that it was written as.

**Main result** (`transformRounds_steady`). All further rounds give the same bytes and make the same
reports.
-/

namespace ClassWeave

/-! ## Bodies that are given again -/

namespace Member

variable {pool q : ConstantPool} {code : Code}

/-- The code that has been set is set again in place of what it was written as. -/
theorem mapCode?_go_again {as bs : List Attribute} (h : CodeSet pool code as bs)
    (old : ∀ a ∈ as, a.resolved = a) :
    mapCode?.go (fun _ => code) (bs.map Attribute.resolved) = some bs := by
  induction h with
  | @here name _ new rest _ hchange =>
    subst hchange
    rw [List.forall_mem_cons] at old
    rw [List.map_cons, Attribute.map_resolved_eq old.2]
    rfl
  | behind other _ ih =>
    rw [List.forall_mem_cons] at old
    rw [List.map_cons, old.1, mapCode?_go_cons other, ih old.2]
    rfl
  | @last a ha =>
    obtain ⟨name, content⟩ := a
    obtain ⟨_, rfl⟩ := ha
    rfl

theorem CodeGiven.again {m m' : Member} (h : m.CodeGiven pool code m')
    (asRead : m.Everywhere (Attribute.AsRead q)) :
    m'.resolved.mapCode? (fun _ => code) = some m' := by
  have set := mapCode?_go_again h.attributes fun a ha => a.resolved_eq (asRead a ha)
  rw [mapCode?, resolved_attributes, set]
  rfl

end Member

theorem ClassFile.setBody_again {c : ClassFile} {position : Nat} {m m' : Member}
    {list : List Instruction} {maxLocals : UInt16} (there : c.methods[position]? = some m)
    (again : m.mapCode? (fun _ => Code.ofInstructions list maxLocals) = some m') :
    setBody position list maxLocals c =
      .ok () { c with methods := c.methods.setIfInBounds position m' } := by
  unfold setBody Member.setBody
  refine bind_eq_ok_iff.2 ⟨c, c, rfl, ?_⟩
  simp only [there, again]
  rfl

/-! ## The same work -/

/-- Carried out again on a later class that has the written body of the method, the forwarding gives
the method the body that it has in this class, and does nothing else. -/
def Forwarding.Settled (i : Identifier) (c : ClassFile) (f : Forwarding) : Prop :=
  ∃ m, c.methods[f.position]? = some m ∧ ∀ d, c.StartOf d →
    d.methods[f.position]? = some m.resolved →
      f.install i d = .ok () { d with methods := d.methods.setIfInBounds f.position m }

namespace Forwarding

variable {i : Identifier} {f : Forwarding} {c d : ClassFile}

theorem settled_of_install {m : Member} {q : ConstantPool} (laidOut : c.pool.LaidOut)
    (there : c.methods[f.position]? = some m) (asRead : m.Everywhere (Attribute.AsRead q))
    (h : f.install i c = .ok () d) : f.Settled i d := by
  rw [install_eq] at h
  obtain ⟨index, s, site, body⟩ := bind_eq_ok_iff.1 h
  obtain ⟨same, laidOut, _, again⟩ := (f.callSite_steady i).ok laidOut site
  obtain ⟨same', grows, ⟨m', hm', given⟩, _⟩ :=
    ClassFile.setBody_ok laidOut (by rw [same, there]) body
  have start : s.StartOf d := by
    refine ⟨grows.le, ?_⟩
    rw [same']
    exact List.prefix_refl _
  refine ⟨m', hm', fun e later read => ?_⟩
  rw [install_eq]
  exact bind_eq_ok_iff.2 ⟨index, e, again e (start.trans later),
    ClassFile.setBody_again read (given.again asRead)⟩

/-- What is settled stays so as long as other methods are changed. -/
theorem Settled.of_touched {positions : Nat → Prop} (h : f.Settled i c)
    (touched : c.Touched positions d) (apart : ¬ positions f.position) : f.Settled i d := by
  obtain ⟨m, hm, again⟩ := h
  refine ⟨m, ?_, fun e later read => again e (touched.startOf.trans later) read⟩
  rw [touched.methods f.position apart, hm]

end Forwarding

namespace Forwarded

variable {i : Identifier} {c c' : ClassFile} {fs : List Forwarding} {plan : Plan}

theorem settled_of_run (asRead : c.AsRead) (there : ∀ f ∈ fs, ∃ m, c.methods[f.position]? = some m)
    (distinct : fs.Pairwise fun f g => f.position ≠ g.position)
    (run : fs.forM (·.install i) c = .ok () c') : ∀ f ∈ fs, f.Settled i c' := by
  intro f hf
  -- The run is cut at the forwarding: `u` and `v` are the classes before and after it.
  obtain ⟨before, after, rfl⟩ := List.append_of_mem hf
  obtain ⟨u, first, rest⟩ := forM_append_eq_ok_iff.1 run
  obtain ⟨_, v, install, last⟩ := bind_eq_ok_iff.1 rest
  obtain ⟨distinctBefore, distinctAfter, apart⟩ := List.pairwise_append.1 distinct
  rw [List.pairwise_cons] at distinctAfter
  have inv : Forwarded i c before u := (Forwarded.start i c).run asRead.laidOut
    (fun g hg => there g (List.mem_append_left _ hg)) distinctBefore first
  obtain ⟨m, hm⟩ := there f hf
  have here : u.methods[f.position]? = some m := by
    rw [inv.others f.position fun g hg => apart g hg f (by simp), hm]
  have settled : f.Settled i v := Forwarding.settled_of_install
    (inv.pool.laidOut asRead.laidOut) here (asRead.everywhere.method hm) install
  have touched : v.Touched (fun k => ∃ g ∈ after, g.position = k) c' :=
    (Keeps.forM fun g hg => g.install_keeps (ClassFile.Touched.closed _ v) (fun _ _ => trivial)
      ⟨g, hg, rfl⟩).ok (.refl _ v) last
  exact settled.of_touched touched fun ⟨g, hg, eq⟩ => distinctAfter.1 g hg eq.symm

/-- Settled forwardings give their methods the bodies that they have, and do nothing else. -/
theorem forM_settled {d : ClassFile} (settled : ∀ f ∈ fs, f.Settled i c')
    (distinct : fs.Pairwise fun f g => f.position ≠ g.position) (later : c'.StartOf d)
    (read : ∀ f ∈ fs, d.methods[f.position]? = c'.methods[f.position]?.map Member.resolved) :
    ∃ methods, fs.forM (·.install i) d = .ok () { d with methods } ∧
      (∀ f ∈ fs, methods[f.position]? = c'.methods[f.position]?) ∧
      ∀ k : Nat, (∀ f ∈ fs, f.position ≠ k) → methods[k]? = d.methods[k]? := by
  induction fs generalizing d with
  | nil => exact ⟨d.methods, rfl, by simp, fun _ _ => rfl⟩
  | cons f fs ih =>
    rw [List.forall_mem_cons] at settled read
    rw [List.pairwise_cons] at distinct
    obtain ⟨⟨m, hm, install⟩, settled⟩ := settled
    have atPlace : d.methods[f.position]? = some m.resolved := by
      rw [read.1, hm, Option.map_some]
    -- The other forwardings find their methods as they were, as no two have one position.
    obtain ⟨methods, run, given, others⟩ := ih settled distinct.2
      (d := { d with methods := d.methods.setIfInBounds f.position m })
      ⟨later.pool, later.bootstraps⟩ fun g hg => by
        rw [Array.getElem?_setIfInBounds_ne (distinct.1 g hg), read.2 g hg]
    obtain ⟨lt, _⟩ := Array.getElem?_eq_some_iff.1 atPlace
    refine ⟨methods, bind_eq_ok_iff.2 ⟨⟨⟩, _, install d later atPlace, run⟩, ?_, ?_⟩
    · rw [List.forall_mem_cons]
      refine ⟨?_, given⟩
      rw [others f.position fun g hg => (distinct.1 g hg).symm, hm]
      exact Array.getElem?_setIfInBounds_self_of_lt lt
    · intro k apart
      rw [List.forall_mem_cons] at apart
      rw [others k apart.2]
      exact Array.getElem?_setIfInBounds_ne apart.1

/-- **The same work.** The class that is read back is transformed into the class that was
written. -/
theorem run_again (asRead : c.AsRead) (hplan : Plan.ofClass c = .ok plan)
    (run : plan.forwardings.forM (·.install i) c = .ok () c') :
    plan.forwardings.forM (·.install i) c'.resolved = .ok () c' := by
  obtain ⟨each, _, ordered⟩ := Plan.ofClass_ok hplan
  have there : ∀ f ∈ plan.forwardings, ∃ m, c.methods[f.position]? = some m := by
    intro f hf
    obtain ⟨m, hm, _⟩ := each f hf
    exact ⟨m, hm⟩
  have distinct : plan.forwardings.Pairwise fun f g => f.position ≠ g.position :=
    ordered.imp fun lt => Nat.ne_of_lt lt
  have inv := of_plan asRead.laidOut hplan run
  have later : c'.StartOf c'.resolved :=
    ⟨ConstantPool.le_refl _, c'.bootstrapMethods_resolved ▸ List.prefix_refl _⟩
  obtain ⟨methods, again, given, others⟩ := forM_settled
    (settled_of_run asRead there distinct run) distinct later fun f _ => getElem?_resolved c' _
  -- A planned method gets its body again, and any other one is as it was read.
  have methods_eq : methods = c'.methods := by
    refine Array.ext_getElem? fun k => ?_
    by_cases planned : ∃ f ∈ plan.forwardings, f.position = k
    · obtain ⟨f, hf, rfl⟩ := planned
      exact given f hf
    · have apart : ∀ f ∈ plan.forwardings, f.position ≠ k := fun f hf eq => planned ⟨f, hf, eq⟩
      rw [others k apart, getElem?_resolved, inv.others k apart]
      rcases hm : c.methods[k]? with _ | m
      · rfl
      · rw [Option.map_some, resolved_of_asRead asRead hm]
  obtain ⟨added, bootstraps, _⟩ := inv.bootstraps
  have attributes := bootstraps.resolved_eq fun a ha =>
    a.resolved_eq (asRead.everywhere.attributes a ha)
  have fields : c'.fields.map Member.resolved = c'.fields :=
    (congrArg ClassFile.fields (inv.header asRead)).trans
      (congrArg ClassFile.fields inv.same).symm
  rw [again, methods_eq]
  simp only [ClassFile.resolved, attributes, fields]

end Forwarded

/-! ## Further rounds -/

/-- **Once more.** A transformed class is transformed into the same bytes, and the same reports are
made. -/
theorem transformBytes_again {i : Identifier} {bs w : Bytes} {before after : List Diagnostic}
    (h : transformBytes i bs before = .ok w after) : ∃ reports, after = before ++ reports ∧
      ∀ before', transformBytes i w before' = .ok w (before' ++ reports) := by
  obtain ⟨c, plan, hread, hplan, reports, outcome⟩ := transformBytes_eq_ok_iff.1 h
  refine ⟨plan.reports, reports, fun before' => transformBytes_eq_ok_iff.2 ?_⟩
  rcases outcome with ⟨nothing, rfl⟩ | ⟨something, c', run, written⟩
  · exact ⟨c, plan, hread, hplan, rfl, .inl ⟨nothing, rfl⟩⟩
  · have asRead := ClassFile.asRead_of_read hread
    have inv := Forwarded.of_plan asRead.laidOut hplan run
    exact ⟨c'.resolved, plan, inv.read_written hplan asRead written,
      Forwarded.plan_again asRead hplan run, rfl,
      .inr ⟨something, c', Forwarded.run_again asRead hplan run, written⟩⟩

/-- Transforms a class a number of times, each time what the time before has given. The answer is
what each time has given. -/
def transformRounds (i : Identifier) : Nat → Bytes → EStateM Error (List Diagnostic) (List Bytes)
  | 0, _ => return []
  | n + 1, bs => do
    let w ← transformBytes i bs
    return w :: (← transformRounds i n w)

/-- **Further rounds.** Once a class is transformed, each further round succeeds, gives the same
bytes and makes the reports of the first time. -/
theorem transformRounds_steady {i : Identifier} {bs w : Bytes} {before after : List Diagnostic}
    (h : transformBytes i bs before = .ok w after) : ∃ reports, after = before ++ reports ∧
      ∀ n before', transformRounds i n w before' =
        .ok (List.replicate n w) (before' ++ (List.replicate n reports).flatten) := by
  obtain ⟨reports, first, again⟩ := transformBytes_again h
  refine ⟨reports, first, fun n => ?_⟩
  induction n with
  | zero =>
    intro before'
    rw [List.replicate_zero, List.replicate_zero, List.flatten_nil, List.append_nil]
    rfl
  | succ n ih =>
    intro before'
    refine bind_eq_ok_iff.2 ⟨w, _, again before', bind_eq_ok_iff.2 ⟨_, _, ih _, ?_⟩⟩
    rw [List.replicate_succ, List.replicate_succ, List.flatten_cons, ← List.append_assoc]
    rfl

/-- A class with a marked static method for each marker and one that is not static; the name of the
first one stands twice in the pool. -/
def bothMarkers : ClassFile :=
  { ClassFile.empty with
    pool := ⟨#[.utf8 "A", .classRef 1, .utf8 "m", .utf8 "m", .utf8 "()V", .utf8 "(J)I",
      .utf8 "Code", .utf8 "RuntimeVisibleAnnotations",
      .utf8 "Lme/shedaniel/architectury/ExpectPlatform;",
      .utf8 "RuntimeInvisibleAnnotations",
      .utf8 "Lme/shedaniel/architectury/annotations/ExpectPlatform;"]⟩
    thisClass := 2
    methods := #[
      ⟨0x0008, 3, 5, [⟨7, .code (.ofBytecode 0 0 [0xB1])⟩, ⟨8, .visibleAnnotations [⟨9, []⟩]⟩]⟩,
      ⟨0x0108, 4, 6, [⟨10, .invisibleAnnotations [⟨11, []⟩]⟩]⟩,
      ⟨0, 3, 6, [⟨7, .code (.ofBytecode 1 3 [0x03, 0xAC])⟩,
        ⟨10, .invisibleAnnotations [⟨11, []⟩]⟩]⟩] }

theorem bothMarkers_transforms : ∃ bs w, bothMarkers.write = .ok bs ∧
    transformBytes ⟨"a"⟩ bs [] = .ok w [Plan.staticOnly "A" "m"] := by
  have final : (bothMarkers.write.toOption.bind fun bs =>
      EStateM.Result.final? (transformBytes ⟨"a"⟩ bs [])) = some [Plan.staticOnly "A" "m"] := by
    decide +kernel
  cases hwrite : bothMarkers.write with
  | error e =>
    rw [hwrite] at final
    cases final
  | ok bs =>
    rw [hwrite] at final
    obtain ⟨w, run⟩ := exists_of_final? final
    exact ⟨bs, w, rfl, run⟩

/-- Each further round over the class above makes the one report on it again. -/
theorem transformRounds_steady_bothMarkers : ∃ bs w, bothMarkers.write = .ok bs ∧
    transformBytes ⟨"a"⟩ bs [] = .ok w [Plan.staticOnly "A" "m"] ∧
      ∀ n before, transformRounds ⟨"a"⟩ n w before =
        .ok (List.replicate n w) (before ++ List.replicate n (Plan.staticOnly "A" "m")) := by
  obtain ⟨bs, w, written, run⟩ := bothMarkers_transforms
  refine ⟨bs, w, written, run, fun n before => ?_⟩
  obtain ⟨reports, first, rounds⟩ := transformRounds_steady run
  rw [List.nil_append] at first
  rw [rounds n before, ← first, List.flatten_replicate_singleton]

end ClassWeave
