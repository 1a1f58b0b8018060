import ClassWeave.Proofs.Platform.Footprint
import ClassWeave.Proofs.Platform.Repeated
import ClassWeave.Proofs.Platform.Transformed
import ClassWeave.Proofs.Pool.TextImages
import Mathlib.Logic.Equiv.Basic

/-!
# One class in two builds

A class is transformed for two builds, whose resolvers have names that the class does not hold.

**Lockstep** (`Forwarding.install_mirrors`). With the names of the two resolvers swapped in the
class, installing a body for the one build does what it does for the other.

**Fresh names.** The swap leaves the class at the start as it is, since it holds neither name. So
the two runs start from the same class, and end in classes that the swap takes to each other.

**Main result** (`transformBytes_of_builds`). The transformed classes differ in the text of one
entry of the pool, and the reports are the same.
-/

namespace ClassWeave

/-! ## Images of classes -/

namespace ClassFile

/-- The class with the images of the texts in its pool. -/
def mapTexts (f : String → String) (c : ClassFile) : ClassFile :=
  { c with pool := c.pool.mapTexts f }

variable {f : String → String}

theorem onPool_mirrors {α : Type} {act act' : ConstantPool.Grow α}
    (h : Mirrors (ConstantPool.mapTexts f) act act') :
    Mirrors (mapTexts f) (onPool act) (onPool act') := by
  intro c
  simp only [onPool, mapTexts, h c.pool]
  cases act c.pool <;> rfl

theorem internBootstrap_mirrors (inj : Function.Injective f)
    (fixed : f ContentKind.bootstrapMethods.name = ContentKind.bootstrapMethods.name)
    (method : BootstrapMethod) :
    Mirrors (mapTexts f) (internBootstrap method) (internBootstrap method) := by
  intro c
  have name := ConstantPool.addUtf8_mirrors inj ContentKind.bootstrapMethods.name c.pool
  rw [fixed] at name
  rw [internBootstrap_eq, internBootstrap_eq, mapTexts, name]
  rcases insertBootstrap? method c.attributes with _ | _ | _
  · cases ConstantPool.addUtf8 ContentKind.bootstrapMethods.name c.pool <;> rfl
  · rfl
  · rfl

theorem setBody_mirrors (inj : Function.Injective f)
    (fixed : f ContentKind.code.name = ContentKind.code.name) (position : Nat)
    (list : List Instruction) (maxLocals : UInt16) :
    Mirrors (mapTexts f) (setBody position list maxLocals) (setBody position list maxLocals) := by
  have name := ConstantPool.addUtf8_mirrors inj ContentKind.code.name
  rw [fixed] at name
  have member (m : Member) :
      Mirrors (ConstantPool.mapTexts f) (m.setBody list maxLocals) (m.setBody list maxLocals) := by
    unfold Member.setBody
    cases m.mapCode? fun _ => Code.ofInstructions list maxLocals with
    | some m => exact .pure m
    | none => exact name.bind fun _ => .pure _
  intro c
  unfold setBody
  rw [get_bind, get_bind]
  rw [show (c.mapTexts f).methods = c.methods from rfl]
  cases c.methods[position]? with
  | none => rfl
  | some m => exact ((onPool_mirrors (member m)).bind fun m' => fun _ => rfl) c

end ClassFile

/-! ## Installations in lockstep -/

/-- **Two installations run in lockstep** when the images of the texts that the one needs are those
that the other needs. -/
theorem Forwarding.install_mirrors {f : String → String} {i j : Identifier} {p : Forwarding}
    (inj : Function.Injective f) (needed : (p.texts i).map f = p.texts j) :
    Mirrors (ClassFile.mapTexts f) (p.install i) (p.install j) := by
  simp only [Forwarding.texts, List.map_cons, List.cons.injEq] at needed
  obtain ⟨owner, method, type, name, descriptor, bootstraps, code, _⟩ := needed
  -- The owner of the bootstrap method is all in which the two installations differ.
  have handle : Mirrors (ConstantPool.mapTexts f)
      (CallSite.internHandle ⟨p.marker.resolver i⟩)
      (CallSite.internHandle ⟨p.marker.resolver j⟩) := by
    have reference := ConstantPool.addMethodRef_mirrors inj (p.marker.resolver i)
      CallSite.bootstrapName CallSite.bootstrapDescriptor
    rw [owner, method, type] at reference
    exact reference.bind fun r => ConstantPool.addMethodHandle_mirrors inj _ r
  have site : Mirrors (ClassFile.mapTexts f) (CallSite.install ⟨p.marker.resolver i⟩)
      (CallSite.install ⟨p.marker.resolver j⟩) := by
    rw [CallSite.install_eq, CallSite.install_eq]
    exact (ClassFile.onPool_mirrors handle).bind fun h =>
      ClassFile.internBootstrap_mirrors inj bootstraps ⟨h, []⟩
  refine site.bind fun bootstrap => ?_
  have call := ConstantPool.addInvokeDynamic_mirrors inj bootstrap p.name p.descriptor
  rw [name, descriptor] at call
  exact (ClassFile.onPool_mirrors call).bind fun index =>
    ClassFile.setBody_mirrors inj code p.position _ _

/-! ## Fresh names -/

/-- The name of the resolver of the build is no text of the pool, and not that of the fixed
resolver. -/
structure Identifier.FreshIn (i : Identifier) (pool : ConstantPool) : Prop where
  absent : .utf8 i.resolver ∉ pool.slots.toList
  own : i.resolver ≠ "me/shedaniel/architectury/PlatformMethods"

theorem ConstantPool.mem_of_utf8 {pool : ConstantPool} {text : String} {index : UInt16}
    (h : pool.utf8 index = .ok text) : .utf8 text ∈ pool.slots.toList := by
  obtain ⟨_, there, _⟩ := ConstantPool.get_eq_ok_iff.1 (ConstantPool.utf8_eq_ok_iff.1 h)
  exact List.mem_of_getElem? there

namespace Plan.Planned

variable {pool : ConstantPool} {m : Member} {p : Forwarding} {i j : Identifier}

/-- Besides its own name, an installation needs no name of a resolver that the pool does not
hold. -/
theorem resolver_not_mem (planned : Planned pool m p)
    (absent : .utf8 i.resolver ∉ pool.slots.toList) (j : Identifier) :
    i.resolver ∉ (p.texts j).tail := by
  -- Any other text has another ending or is in the pool already.
  have ending : "/PlatformMethods".toList <:+ i.resolver.toList := by
    rw [Identifier.resolver, String.append_assoc, String.toList_append]
    exact List.suffix_append _ _
  have other {text : String} (h : ¬ "/PlatformMethods".toList <:+ text.toList) :
      i.resolver ≠ text := fun eq => h (eq ▸ ending)
  have held {text : String} {index : UInt16} (h : pool.utf8 index = .ok text) :
      i.resolver ≠ text := fun eq => absent (eq ▸ ConstantPool.mem_of_utf8 h)
  simp only [Forwarding.texts, List.tail_cons, List.mem_cons, List.not_mem_nil, or_false, not_or]
  exact ⟨other (by decide), other (by decide +kernel), held planned.name_eq,
    held planned.descriptor_eq, other (by decide), other (by decide)⟩

theorem not_mem_texts (planned : Planned pool m p) (fresh : i.FreshIn pool) {j : Identifier}
    (other : p.marker = .namespaced → i.resolver ≠ j.resolver) : i.resolver ∉ p.texts j := by
  show i.resolver ∉ p.marker.resolver j :: (p.texts j).tail
  rw [List.mem_cons, not_or]
  refine ⟨?_, planned.resolver_not_mem fresh.absent j⟩
  cases hmarker : p.marker with
  | legacy => exact fresh.own
  | namespaced => exact other hmarker

/-- Swapping the names of the resolvers takes what is needed for one build to what is needed for the
other. -/
theorem map_texts (planned : Planned pool m p) (freshI : i.FreshIn pool) (freshJ : j.FreshIn pool) :
    (p.texts i).map (Equiv.swap i.resolver j.resolver) = p.texts j := by
  have swap {text : String} (hi : i.resolver ≠ text) (hj : j.resolver ≠ text) :
      Equiv.swap i.resolver j.resolver text = text :=
    Equiv.swap_apply_of_ne_of_ne hi.symm hj.symm
  have owner : Equiv.swap i.resolver j.resolver (p.marker.resolver i) = p.marker.resolver j := by
    cases p.marker with
    | legacy => exact swap freshI.own freshJ.own
    | namespaced => exact Equiv.swap_apply_left _ _
  have others : ∀ text ∈ (p.texts i).tail, Equiv.swap i.resolver j.resolver text = text := by
    intro text htext
    refine swap ?_ ?_
    · exact fun eq => planned.resolver_not_mem freshI.absent i (eq ▸ htext)
    · exact fun eq => planned.resolver_not_mem freshJ.absent i (eq ▸ htext)
  show _ :: (p.texts i).tail.map _ = _ :: (p.texts i).tail
  rw [owner, List.map_congr_left others, List.map_id']

end Plan.Planned

theorem Identifier.FreshIn.mapTexts_swap {i j : Identifier} {c : ClassFile}
    (freshI : i.FreshIn c.pool) (freshJ : j.FreshIn c.pool) :
    c.mapTexts (Equiv.swap i.resolver j.resolver) = c := by
  rw [ClassFile.mapTexts, ConstantPool.mapTexts_eq_self]
  intro text there
  refine Equiv.swap_apply_of_ne_of_ne ?_ ?_
  · exact fun eq => freshI.absent (eq ▸ there)
  · exact fun eq => freshJ.absent (eq ▸ there)

/-! ## The entry that holds the name -/

theorem Forwarding.utf8_not_mem_of_run {i : Identifier} {c c' : ClassFile} {text : String}
    {fs : List Forwarding} (absent : .utf8 text ∉ c.pool.slots.toList)
    (needless : ∀ f ∈ fs, text ∉ f.texts i) (run : fs.forM (·.install i) c = .ok () c') :
    .utf8 text ∉ c'.pool.slots.toList := by
  have closed : ClassFile.Closed (· ≠ text) (fun _ => True)
      fun d => .utf8 text ∉ d.pool.slots.toList := by
    refine ⟨fun c p e _ other h => ?_, fun _ _ h => h, fun _ _ h => h⟩
    show .utf8 text ∉ (p.slots.push e).toList
    rw [Array.toList_push, List.mem_append, List.mem_singleton, not_or]
    refine ⟨h, ?_⟩
    rintro rfl
    exact other rfl
  have keeps : Keeps (fun d : ClassFile => .utf8 text ∉ d.pool.slots.toList) (· = .outOfSpace)
      (fs.forM (·.install i)) := .forM fun f hf =>
    Forwarding.install_keeps closed f (fun t ht eq => needless f hf (eq ▸ ht)) trivial
  exact keeps.ok absent run

theorem ClassFile.Calls.owner_mem {c : ClassFile} {owner name descriptor : String} {index : UInt16}
    (h : c.Calls owner name descriptor index) : .utf8 owner ∈ c.pool.slots.toList := by
  obtain ⟨_, _, _, _, _, _, reference, _, _, member⟩ := h
  obtain ⟨_, _, _, ownerName, _⟩ := ConstantPool.memberRef_eq_ok_iff.1 member
  obtain ⟨_, _, text⟩ := ConstantPool.className_eq_ok_iff.1 ownerName
  exact ConstantPool.mem_of_utf8 text

theorem ConstantPool.exists_place {p q : ConstantPool} {e : Constant} (grows : p.Grows q)
    (absent : e ∉ p.slots.toList) (there : e ∈ q.slots.toList) :
    ∃ k, ∀ k' : Nat, q.slots[k']? = some e ↔ k' = k := by
  obtain ⟨new, grows⟩ := grows
  rw [grows.slots_eq, List.mem_append, or_iff_right absent] at there
  obtain ⟨n, hn⟩ := List.mem_iff_getElem?.1 there
  refine ⟨p.slots.toList.length + n, fun k' => ?_⟩
  rw [← Array.getElem?_toList, grows.slots_eq]
  -- The entry is among the new ones, and these are all different.
  refine ⟨fun h => ?_, ?_⟩
  · by_cases old : k' < p.slots.toList.length
    · rw [List.getElem?_append_left old] at h
      exact absurd (List.mem_of_getElem? h) absent
    · rw [List.getElem?_append_right (Nat.le_of_not_lt old)] at h
      have same : n = k' - p.slots.toList.length :=
        (List.getElem?_inj (List.getElem?_eq_some_iff.1 hn).1 grows.nodup).1 (hn.trans h.symm)
      omega
  · rintro rfl
    rw [List.getElem?_append_right (Nat.le_add_right _ _), Nat.add_sub_cancel_left, hn]

/-- One entry of the pool is the one text in the first class and the other text in the second one;
everything else is the same in both, and no further entry is one of these texts. -/
def ClassFile.DiffersInText (a b : String) (c d : ClassFile) : Prop :=
  ∃ k, (∀ k' : Nat, c.pool.slots[k']? = some (.utf8 a) ↔ k' = k) ∧
    (∀ k' : Nat, d.pool.slots[k']? = some (.utf8 b) ↔ k' = k) ∧
    d = { c with pool := ⟨c.pool.slots.setIfInBounds k (.utf8 b)⟩ }

/-- Swapping two texts, of which one stands at a single place and the other one nowhere, changes the
text at this place. -/
theorem ClassFile.differsInText_swap {a b : String} {c : ClassFile}
    (place : ∃ k, ∀ k' : Nat, c.pool.slots[k']? = some (.utf8 a) ↔ k' = k)
    (absent : b ≠ a → .utf8 b ∉ c.pool.slots.toList) :
    c.DiffersInText a b (c.mapTexts (Equiv.swap a b)) := by
  obtain ⟨k, place⟩ := place
  have here : c.pool.slots[k]? = some (.utf8 a) := (place k).2 rfl
  have elsewhere {k' : Nat} (ne : k' ≠ k) : c.pool.slots[k']? ≠ some (.utf8 b) := by
    intro there
    by_cases same : b = a
    · exact ne ((place k').1 (same ▸ there))
    · exact absent same (List.mem_of_getElem? ((Array.getElem?_toList).trans there))
  -- The swap moves the two texts, and neither of them stands anywhere else.
  have kept {k' : Nat} (ne : k' ≠ k) :
      c.pool.slots[k']?.map (Constant.mapText (Equiv.swap a b)) = c.pool.slots[k']? := by
    rcases hk : c.pool.slots[k']? with _ | e
    · rfl
    · cases e with
      | utf8 text =>
        have ha : text ≠ a := fun eq => ne ((place k').1 (eq ▸ hk))
        have hb : text ≠ b := fun eq => elsewhere ne (eq ▸ hk)
        rw [Option.map_some, Constant.mapText_utf8, Equiv.swap_apply_of_ne_of_ne ha hb]
      | _ => rfl
  obtain ⟨lt, _⟩ := Array.getElem?_eq_some_iff.1 here
  have slots :
      (c.pool.mapTexts (Equiv.swap a b)).slots = c.pool.slots.setIfInBounds k (.utf8 b) := by
    refine Array.ext_getElem? fun k' => ?_
    rw [ConstantPool.mapTexts, Array.getElem?_map]
    by_cases same : k = k'
    · subst same
      rw [here, Array.getElem?_setIfInBounds_self_of_lt lt, Option.map_some, Constant.mapText_utf8,
        Equiv.swap_apply_left]
    · rw [kept (Ne.symm same), Array.getElem?_setIfInBounds_ne same]
  refine ⟨k, place, fun k' => ?_, by rw [mapTexts, ← slots]⟩
  rw [mapTexts, slots]
  by_cases same : k = k'
  · subst same
    simp [Array.getElem?_setIfInBounds_self_of_lt lt]
  · rw [Array.getElem?_setIfInBounds_ne same]
    exact iff_of_false (elsewhere (Ne.symm same)) (Ne.symm same)

/-! ## Two runs -/

/-- A static method of the class carries the namespaced marker. -/
def ClassFile.UsesResolver (c : ClassFile) : Prop :=
  ∃ m ∈ c.methods, m.isStatic ∧ Marker.of? m c.pool = some .namespaced

/-- The method that a plan gives a body to with the namespaced marker is such a method. -/
theorem Plan.usesResolver_iff {c : ClassFile} {plan : Plan} (h : ofClass c = .ok plan) :
    c.UsesResolver ↔ ∃ f ∈ plan.forwardings, f.marker = .namespaced := by
  obtain ⟨each, all, _⟩ := ofClass_ok h
  refine ⟨fun ⟨m, hm, static, marked⟩ => ?_, fun ⟨f, hf, marked⟩ => ?_⟩
  · obtain ⟨k, hk⟩ := Array.mem_iff_getElem?.1 hm
    obtain ⟨f, hf, rfl⟩ := all k m hk static (by rw [marked]; rfl)
    obtain ⟨n, hn, planned⟩ := each f hf
    obtain rfl : m = n := Option.some.inj (hk.symm.trans hn)
    exact ⟨f, hf, Option.some.inj (planned.marker_eq.symm.trans marked)⟩
  · obtain ⟨m, hm, planned⟩ := each f hf
    exact ⟨m, Array.mem_of_getElem? hm, planned.isStatic, marked ▸ planned.marker_eq⟩

/-- The classes that the two runs end in are taken to each other by the swap. -/
theorem Plan.run_mirrors {i j : Identifier} {c ci cj : ClassFile} {plan : Plan}
    (freshI : i.FreshIn c.pool) (freshJ : j.FreshIn c.pool) (hplan : ofClass c = .ok plan)
    (runI : plan.forwardings.forM (·.install i) c = .ok () ci)
    (runJ : plan.forwardings.forM (·.install j) c = .ok () cj) :
    cj = ci.mapTexts (Equiv.swap i.resolver j.resolver) := by
  have lockstep : Mirrors (ClassFile.mapTexts (Equiv.swap i.resolver j.resolver))
      (plan.forwardings.forM (·.install i)) (plan.forwardings.forM (·.install j)) := by
    refine .forM fun f hf => ?_
    obtain ⟨_, _, planned⟩ := (ofClass_ok hplan).1 f hf
    exact Forwarding.install_mirrors (Equiv.injective _) (planned.map_texts freshI freshJ)
  have run := lockstep.ok runI
  rw [freshI.mapTexts_swap freshJ, runJ] at run
  exact (EStateM.Result.ok.inj run).2

/-- **One class in two builds.** If neither resolver is named in the class, both runs make the same
reports, and the transformed classes are the same but for the text of the one entry that names the
resolver; without a method for this resolver they are the same. -/
theorem transformBytes_of_builds {i j : Identifier} {bs v w : Bytes} {c : ClassFile}
    {before afterI afterJ : List Diagnostic} (hread : ClassFile.read bs = .ok c)
    (freshI : i.FreshIn c.pool) (freshJ : j.FreshIn c.pool)
    (hi : transformBytes i bs before = .ok v afterI)
    (hj : transformBytes j bs before = .ok w afterJ) :
    afterI = afterJ ∧ ∃ d e, ClassFile.read v = .ok d ∧ ClassFile.read w = .ok e ∧
      (c.UsesResolver → d.DiffersInText i.resolver j.resolver e) ∧
      (¬ c.UsesResolver → e = d ∧ w = v) := by
  obtain ⟨c₁, plan, hread₁, hplan, rfl, runI⟩ := transformBytes_eq_ok_iff.1 hi
  obtain rfl : c = c₁ := Except.ok.inj (hread.symm.trans hread₁)
  obtain ⟨c₂, plan₂, hread₂, hplan₂, rfl, runJ⟩ := transformBytes_eq_ok_iff.1 hj
  obtain rfl : c = c₂ := Except.ok.inj (hread.symm.trans hread₂)
  obtain rfl : plan = plan₂ := Except.ok.inj (hplan.symm.trans hplan₂)
  have asRead := ClassFile.asRead_of_read hread
  have uses := Plan.usesResolver_iff hplan
  refine ⟨rfl, ?_⟩
  rcases runI with ⟨nothing, rfl⟩ | ⟨something, ci, runI, writtenI⟩
  · rcases runJ with ⟨_, rfl⟩ | ⟨something, _⟩
    · refine ⟨c, c, hread, hread, fun used => ?_, fun _ => ⟨rfl, rfl⟩⟩
      obtain ⟨f, hf, _⟩ := uses.1 used
      rw [nothing] at hf
      exact absurd hf List.not_mem_nil
    · exact absurd nothing something
  · obtain ⟨nothing, _⟩ | ⟨_, cj, runJ, writtenJ⟩ := runJ
    · exact absurd nothing something
    have swapped := Plan.run_mirrors freshI freshJ hplan runI runJ
    have invI := Forwarded.of_plan asRead.laidOut hplan runI
    have invJ := Forwarded.of_plan asRead.laidOut hplan runJ
    have planned (f : Forwarding) (hf : f ∈ plan.forwardings) := (Plan.ofClass_ok hplan).1 f hf
    refine ⟨ci.resolved, cj.resolved, invI.read_written hplan asRead writtenI,
      invJ.read_written hplan asRead writtenJ, fun used => ?_, fun unused => ?_⟩
    · obtain ⟨f, hf, marker⟩ := uses.1 used
      obtain ⟨m, hm, _⟩ := planned f hf
      obtain ⟨_, _, _, _, calls⟩ := invI.bodies f hf m hm
      rw [marker] at calls
      have resolved : cj.resolved =
          ci.resolved.mapTexts (Equiv.swap i.resolver j.resolver) := by
        rw [swapped]
        rfl
      rw [resolved]
      -- Some call site names the resolver, and its name was not in the class before.
      refine ClassFile.differsInText_swap (ConstantPool.exists_place invI.pool freshI.absent
        calls.owner_mem) ?_
      intro ne
      show .utf8 j.resolver ∉ ci.pool.slots.toList
      refine Forwarding.utf8_not_mem_of_run freshJ.absent (fun g hg => ?_) runI
      obtain ⟨_, _, plannedG⟩ := planned g hg
      exact plannedG.not_mem_texts freshJ fun _ => ne
    · -- Neither name has come into the pool, so that there is nothing to swap.
      have absent {k : Identifier} (fresh : k.FreshIn c.pool) :
          .utf8 k.resolver ∉ ci.pool.slots.toList := by
        refine Forwarding.utf8_not_mem_of_run fresh.absent (fun g hg => ?_) runI
        obtain ⟨_, _, plannedG⟩ := planned g hg
        exact plannedG.not_mem_texts fresh fun marker => absurd ⟨g, hg, marker⟩ (mt uses.2 unused)
      have same : cj = ci := by
        rw [swapped, Identifier.FreshIn.mapTexts_swap ⟨absent freshI, freshI.own⟩
          ⟨absent freshJ, freshJ.own⟩]
      subst same
      exact ⟨rfl, Except.ok.inj (writtenJ.symm.trans writtenI)⟩

theorem Identifier.own_generate (project : String) (entropy : Nat) :
    (generate project entropy).resolver ≠ "me/shedaniel/architectury/PlatformMethods" := by
  intro eq
  have letter : "architectury_inject_".toList.head? = some 'a' := by decide
  have first : (generate project entropy).resolver.toList.head? = some 'a' := by
    show ("architectury_inject_" ++ sanitize project ++ "_" ++ randomDigits entropy ++ "/" ++
      resolverName).toList.head? = some 'a'
    simp only [String.append_assoc, String.toList_append, List.head?_append, letter, Option.some_or]
  rw [eq] at first
  exact absurd first (by decide)

/-- The class with both markers is read from its bytes, and holds the names of neither a short nor a
generated identifier. -/
theorem bothMarkers_reads {bs : Bytes} (written : bothMarkers.write = .ok bs) :
    ∃ c, ClassFile.read bs = .ok c ∧ c.UsesResolver ∧ Identifier.FreshIn ⟨"a"⟩ c.pool ∧
      (Identifier.generate "x" 0).FreshIn c.pool := by
  have final : (bothMarkers.write.toOption.bind fun bs => (ClassFile.read bs).toOption.map fun c =>
      (c.pool, c.methods.any fun m => m.isStatic && Marker.of? m c.pool == some .namespaced)) =
        some (bothMarkers.pool, true) := by
    decide +kernel
  rw [written] at final
  obtain ⟨c, hread, eq⟩ := Option.map_eq_some_iff.1 final
  obtain ⟨pool, uses⟩ := Prod.mk.inj eq
  rw [Array.any_eq_true] at uses
  obtain ⟨k, lt, marked⟩ := uses
  rw [Bool.and_eq_true, beq_iff_eq] at marked
  refine ⟨c, toOption_eq_some_iff.1 hread, ⟨_, Array.getElem_mem lt, marked⟩, ?_, ?_⟩
  · rw [pool]
    exact ⟨by decide +kernel, by decide⟩
  · rw [pool]
    exact ⟨by decide +kernel, Identifier.own_generate _ _⟩

/-- The class with both markers is transformed for two builds, one of them with a generated
identifier. -/
theorem transformBytes_of_builds_bothMarkers : ∃ bs c v w after, bothMarkers.write = .ok bs ∧
    ClassFile.read bs = .ok c ∧ c.UsesResolver ∧ transformBytes ⟨"a"⟩ bs [] = .ok v after ∧
    transformBytes (.generate "x" 0) bs [] = .ok w after ∧
    ∃ d e, ClassFile.read v = .ok d ∧ ClassFile.read w = .ok e ∧
      d.DiffersInText "a/PlatformMethods" (Identifier.generate "x" 0).resolver e := by
  obtain ⟨bs, v, written, runA⟩ := bothMarkers_transforms
  have succeeds : (bothMarkers.write.toOption.map fun bs =>
      EStateM.Result.isOk (transformBytes (.generate "x" 0) bs [])) = some true := by
    decide +kernel
  rw [written] at succeeds
  obtain ⟨w, afterX, runX⟩ := exists_of_isOk (Option.some.inj succeeds)
  obtain ⟨c, hread, uses, freshA, freshX⟩ := bothMarkers_reads written
  obtain ⟨rfl, d, e, readD, readE, differs, _⟩ :=
    transformBytes_of_builds hread freshA freshX runA runX
  exact ⟨bs, c, v, w, _, written, hread, uses, runA, runX, d, e, readD, readE, differs uses⟩

end ClassWeave
