import ClassWeave.Proofs.Operations.Kept

/-!
# Classes that are reached by steps

**Relocations that stop** (`relocate_kept`). When a relocation meets a fault, some places are moved
and the others are as they were; either way the trees are alike but for types, and no text changes.

**Steps** (`ClassFile.Operation`). A class is worked on by transformations, relocations, new names,
bootstrap methods, bodies and additions to its pool, in any order. A step that fails leaves the
class as it is by then, and work goes on with that class.

**Main result** (`ClassFile.afterAll_sound`). After any steps the class can be read back, its texts
stand where they stood at any time before, and what is written is read as the class.
-/

namespace ClassWeave

/-! ## Relocations that stop -/

/-- A text entry is not retyped. -/
theorem Constant.Retyped.eq_of_isText {name descriptor : UInt16 → UInt16 → Prop} {c d : Constant}
    (h : c.Retyped name descriptor d) (text : c.isText) : d = c := by
  cases c with
  | classRef _ | nameAndType _ _ | methodType _ => simp [isText] at text
  | _ => exact h

namespace ClassFile

section

open Relocating

/-- A relocation ends with the class as it was, or with all places visited and the pool that this
has led to, be there a fault or not. -/
theorem relocate_last (r : Renaming) (c : ClassFile) :
    EStateM.Result.last (c.relocate r) = c ∨ ∃ owner e t,
      relocatePlaces r owner { c with pool := .empty }
        (((List.range c.pool.slots.size).forM (renameSlot r)) ⟨c.pool, none⟩).2 = (e, t) ∧
      EStateM.Result.last (c.relocate r) = { e with pool := t.pool } := by
  cases hname : c.name with
  | error e =>
    left
    unfold relocate
    rw [hname]
    rfl
  | ok owner =>
    obtain ⟨e, ⟨pool, fault⟩, run⟩ : ∃ e t, relocatePlaces r owner { c with pool := .empty }
        (((List.range c.pool.slots.size).forM (renameSlot r)) ⟨c.pool, none⟩).2 = (e, t) :=
      ⟨_, _, rfl⟩
    refine .inr ⟨owner, e, ⟨pool, fault⟩, run, ?_⟩
    rw [relocate_eq_outcome r hname, run]
    cases fault <;> rfl

/-- A class keeps what it should when it is relocated, and also when that stops at a fault. -/
theorem relocate_kept (r : Renaming) {c : ClassFile} (readable : c.Readable) :
    c.Kept (EStateM.Result.last (c.relocate r)) := by
  rcases relocate_last r c with same | ⟨owner, e, t, run, last⟩
  · rw [same]
    exact .refl readable
  have slots := renamed_forM r readable.laidOut (Nat.le_refl c.pool.slots.size)
  -- the pool: visits only add texts behind the slots that are renamed
  have places : Visits c.pool (relocatePlaces r owner { c with pool := .empty }) _ :=
    relocatePlaces_holds (L := visiting c.pool) location_visits
      (fun member use i => visit_visits r owner member use i) { c with pool := .empty }
  have leads := places.leads _ slots.keeps
  rw [run] at leads
  have slots := slots.lead leads
  have entries (k : Nat) (f : Constant) (hf : c.pool.slots[k]? = some f) :
      ∃ f', t.pool.slots[k]? = some f' ∧ Moved c.pool r t f f' := by
    obtain ⟨lt, _⟩ := Array.getElem?_eq_some_iff.1 hf
    exact slots.done k f lt hf
  -- the trees: they are alike whatever the visits have answered
  have lookup (i : UInt16) : (Logic.always Relocating).Holds (location i) fun _ _ => True :=
    fun _ => trivial
  have always : (Logic.always Relocating).Holds
      (relocatePlaces r owner { c with pool := .empty }) _ :=
    relocatePlaces_holds (R := fun _ _ _ _ => True) lookup (fun _ _ _ _ => trivial) _
  obtain ⟨fields, methods, attributes, form, hfields, hmethods, hattributes⟩ := always
    (((List.range c.pool.slots.size).forM (renameSlot r)) ⟨c.pool, none⟩).2
  rw [run] at form
  subst form
  rw [last]
  have readableIn (a b : Attribute) (h : a.Retyped (fun _ _ _ => True) b)
      (ha : a.Readable c.pool) : b.Readable t.pool :=
    h.readable (fun _ _ => ConstantPool.utf8_of_retyped entries) ha
  obtain ⟨fields, methods, attributes⟩ :=
    everywhere_of_retyped readableIn (c := c)
      (d := { c with fields := fields, methods := methods, attributes := attributes })
      (hfields.imp fun _ _ => And.right) (hmethods.imp fun _ _ => And.right) hattributes
      readable.everywhere
  refine ⟨⟨readable.magic_eq, slots.keeps.laidOut, ?_, fields, methods, attributes⟩,
    fun k f text hf => ?_⟩
  · exact ConstantPool.isRegular_of_retyped entries slots.texts readable.regular
  · obtain ⟨f', hf', retyped⟩ := entries k f hf
    rwa [retyped.eq_of_isText text] at hf'

end

end ClassFile

/-! ## Steps -/

namespace ClassFile

/-- Steps that change a class. -/
inductive Operation where
  /-- Gives the marked static methods forwarding bodies. -/
  | forward (i : Identifier) (reports : List Diagnostic)
  | relocate (r : Renaming)
  | setName (name : String)
  | internBootstrap (method : BootstrapMethod)
  | installCallSite (s : CallSite)
  | setBody (position : Nat) (list : List Instruction) (maxLocals : UInt16)
  | add (a : ConstantPool.Addition)

/-- The class after a step, also when the step fails. -/
def Operation.after : Operation → ClassFile → ClassFile
  | forward i reports, c => (EStateM.Result.last (forwardMarked i ⟨c, reports⟩)).classFile
  | relocate r, c => EStateM.Result.last (c.relocate r)
  | setName name, c => EStateM.Result.last (c.setName name)
  | internBootstrap method, c => EStateM.Result.last (c.internBootstrap method)
  | installCallSite s, c => EStateM.Result.last (s.install c)
  | setBody position list maxLocals, c => EStateM.Result.last (c.setBody position list maxLocals)
  | add a, c => EStateM.Result.last (onPool a.run c)

/-- The class after some steps. -/
def afterAll (c : ClassFile) (operations : List Operation) : ClassFile :=
  operations.foldl (fun c operation => operation.after c) c

variable {c : ClassFile}

theorem installCallSite_kept (s : CallSite) : Keeping s.install := by
  intro c
  have handle : Keeping (onPool s.internHandle) :=
    onPool_kept ((ConstantPool.Addition.methodRef _ _ _).run_extends.bind fun reference =>
      (ConstantPool.Addition.methodHandle _ reference).run_extends)
  rw [CallSite.install_eq]
  exact (handle c).bind fun h => internBootstrap_kept ⟨h, []⟩ c

theorem installForwarding_kept (i : Identifier) (f : Forwarding) : Keeping (f.install i) := fun c =>
  (installCallSite_kept ⟨f.marker.resolver i⟩ c).bind fun bootstrap =>
    (onPool_kept (ConstantPool.Addition.invokeDynamic bootstrap f.name f.descriptor).run_extends
      c).bind
      fun _ => setBody_kept _ _ _ c

/-- **A step** keeps what it should of a class that can be read back. -/
theorem Operation.after_kept (operation : Operation) (readable : c.Readable) :
    c.Kept (operation.after c) := by
  have start := Kept.refl readable
  cases operation with
  | forward i reports =>
    show c.Kept (EStateM.Result.last (forwardMarked i ⟨c, reports⟩)).classFile
    cases hplan : Plan.ofClass c with
    | error e => rwa [forwardMarked_of_unplanned i (s := ⟨c, reports⟩) hplan]
    | ok plan =>
      -- The plan may stop halfway, and what was installed until then keeps the class readable.
      have installed : Keeps (Kept c) (fun _ => True) (plan.forwardings.forM (·.install i)) :=
        .forM fun f _ => installForwarding_kept i f c
      rw [forwardMarked_of_planned i (s := ⟨c, reports⟩) hplan]
      cases run : plan.forwardings.forM (·.install i) c with
      | ok _ d => exact installed.ok start run
      | error e d => exact (installed.error start run).1
  | relocate r => exact relocate_kept r readable
  | setName name => exact (setName_kept name c).last start
  | internBootstrap method => exact (internBootstrap_kept method c).last start
  | installCallSite s => exact (installCallSite_kept s c).last start
  | setBody position list maxLocals => exact (setBody_kept position list maxLocals c).last start
  | add a => exact (onPool_kept a.run_extends c).last start

/-- **A run** of steps keeps what each of them keeps. -/
theorem afterAll_kept (operations : List Operation) (readable : c.Readable) :
    c.Kept (c.afterAll operations) := by
  -- Each step starts from a class that can be read back, and leaves one.
  induction operations generalizing c with
  | nil => exact .refl readable
  | cons operation rest ih =>
    have step := operation.after_kept readable
    exact step.trans (ih step.readable)

theorem afterAll_append (c : ClassFile) (operations more : List Operation) :
    c.afterAll (operations ++ more) = (c.afterAll operations).afterAll more :=
  List.foldl_append

theorem empty_readable : Readable empty where
  magic_eq := rfl
  laidOut := (ConstantPool.laidOut_iff _).2 ⟨by decide, .nil⟩
  regular := by
    intro c hc
    exact absurd hc List.not_mem_nil
  everywhere := ⟨nofun, nofun, nofun⟩

/-- **Every class that is reached** from an empty class, or from one that was read, by any steps
that succeed or fail, has a pool that is laid out, in which all texts stand where they stood at any
time before; the names of its attributes call for their contents; and if it can be written, it is
read back as the class with its bodies and depths resolved. -/
theorem afterAll_sound (start : c = empty ∨ ∃ bs, read bs = .ok c)
    (operations more : List Operation) :
    (c.afterAll operations).pool.LaidOut ∧
      (c.afterAll operations).Everywhere (Attribute.Readable (c.afterAll operations).pool) ∧
      (∀ (k : Nat) (e : Constant), e.isText → (c.afterAll operations).pool.slots[k]? = some e →
        (c.afterAll (operations ++ more)).pool.slots[k]? = some e) ∧
      ∀ w, (c.afterAll operations).write = .ok w →
        read w = .ok (c.afterAll operations).resolved := by
  have readable : c.Readable := by
    rcases start with rfl | ⟨bs, hread⟩
    · exact empty_readable
    · have asRead := asRead_of_read hread
      exact ⟨asRead.magic_eq, asRead.laidOut, asRead.regular,
        asRead.everywhere.mono fun _ ha => ha.readable⟩
  have reached := (afterAll_kept operations readable).readable
  refine ⟨reached.laidOut, reached.everywhere, ?_, fun w written => ?_⟩
  · rw [afterAll_append]
    exact (afterAll_kept more reached).texts
  · exact read_of_write_resolved written reached

/-- Steps on an empty class. The first one fails, as the class has no name yet. -/
def someOperations : List Operation :=
  [.relocate (.ofTable [("a", "b")]), .setName "a", .add (.long 1),
    .relocate (.ofTable [("a", "b")]), .internBootstrap ⟨1, []⟩]

/-- The class after these steps is written and read back. -/
theorem afterAll_sound_someOperations : ∃ w, (empty.afterAll someOperations).write = .ok w ∧
    read w = .ok (empty.afterAll someOperations).resolved := by
  have writes : (empty.afterAll someOperations).write.toOption.isSome := by decide +kernel
  obtain ⟨w, written⟩ := exists_of_toOption_isSome writes
  exact ⟨w, written, (afterAll_sound (.inl rfl) someOperations []).2.2.2 w written⟩

end ClassFile

end ClassWeave
