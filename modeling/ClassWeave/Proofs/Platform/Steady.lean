import ClassWeave.Proofs.Platform.Footprint

/-!
# Call sites that are found again

**Later classes** (`ClassFile.StartOf`). The pool and the bootstrap methods of a class only grow at
their ends while it is at work.

**Steady steps** (`Steady`). A step that interns entries and bootstrap methods is closed under
sequence, and once it has been made it changes no later class.

**Main result** (`Forwarding.callSite_steady`). Making a call site is such a step.
-/

namespace ClassWeave

open ConstantPool (Grow Interns)

/-- The pool and the bootstrap methods of the first class are the start of those of the second. -/
structure ClassFile.StartOf (c d : ClassFile) : Prop where
  pool : c.pool ≤ d.pool
  bootstraps : c.bootstrapMethods <+: d.bootstrapMethods

namespace ClassFile.StartOf

variable {c d e : ClassFile}

theorem trans (h : c.StartOf d) (h' : d.StartOf e) : c.StartOf e :=
  ⟨ConstantPool.le_trans h.pool h'.pool, h.bootstraps.trans h'.bootstraps⟩

end ClassFile.StartOf

theorem ClassFile.Touched.startOf {positions : Nat → Prop} {c d : ClassFile}
    (h : c.Touched positions d) : c.StartOf d :=
  ⟨h.pool, h.bootstraps⟩

/-! ## Steady steps -/

/-- A step on classes that only interns: it changes nothing but the ends of the pool and of the
bootstrap methods, and run again on a later class it gives the same answer and changes nothing. -/
structure Steady {α : Type} (act : ClassFile.Edit α) : Prop where
  ok {c c' : ClassFile} {a : α} : c.pool.LaidOut → act c = .ok a c' →
    c' = { c with pool := c'.pool, attributes := c'.attributes } ∧ c'.pool.LaidOut ∧
      c.StartOf c' ∧ ∀ d, c'.StartOf d → act d = .ok a d

namespace Steady

variable {α β : Type}

theorem bind {act : ClassFile.Edit α} {next : α → ClassFile.Edit β} (h : Steady act)
    (hnext : ∀ a, Steady (next a)) : Steady (act >>= next) where
  ok laidOut run := by
    obtain ⟨a, c₁, hact, hrest⟩ := bind_eq_ok_iff.1 run
    obtain ⟨same, laidOut₁, start, again⟩ := h.ok laidOut hact
    obtain ⟨same', laidOut₂, start', again'⟩ := (hnext a).ok laidOut₁ hrest
    refine ⟨by rw [same', same], laidOut₂, start.trans start', fun d later => ?_⟩
    exact bind_eq_ok_iff.2 ⟨a, d, again d (start'.trans later), again' d later⟩

theorem onPool {act : Grow α} {property : α → ConstantPool → Prop} (h : Interns act property) :
    Steady (ClassFile.onPool act) where
  ok laidOut run := by
    obtain ⟨q, hact, rfl⟩ := ClassFile.onPool_eq_ok_iff.1 run
    obtain ⟨grows, _, again⟩ := h.ok _ _ q laidOut hact
    refine ⟨rfl, grows.laidOut laidOut, ⟨grows.le, List.prefix_refl _⟩, fun d later => ?_⟩
    exact ClassFile.onPool_eq_ok_iff.2 ⟨d.pool, again d.pool later.pool, rfl⟩

theorem internBootstrap (method : BootstrapMethod) :
    Steady (ClassFile.internBootstrap method) where
  ok {c c' i} laidOut run := by
    obtain ⟨same, grows, ⟨k, rfl, found⟩, added⟩ := ClassFile.internBootstrap_ok laidOut run
    have grown : firstBootstraps c.attributes <+: firstBootstraps c'.attributes := by
      rcases added with unchanged | ⟨_, added⟩
      · exact unchanged ▸ List.prefix_refl _
      · exact added.firstBootstraps_eq ▸ List.prefix_append _ _
    refine ⟨same, grows.laidOut laidOut, ⟨grows.le, grown⟩, fun d later => ?_⟩
    -- The table only grows at its end, so that the method is found where it was.
    have still : (firstBootstraps d.attributes).idxOf? method = some k := by
      obtain ⟨more, eq⟩ := later.bootstraps
      rw [← ClassFile.bootstrapMethods_eq, ← eq, List.idxOf?, List.findIdx?_append,
        ← List.idxOf?, found, Option.some_or]
    rw [ClassFile.internBootstrap_eq, ClassFile.insertBootstrap?_of_found still]

end Steady

/-! ## Call sites -/

namespace Forwarding

/-- Makes the call that the body of a planned method consists of; the answer is its index. -/
def callSite (i : Identifier) (f : Forwarding) : ClassFile.Edit UInt16 := do
  let bootstrap ← CallSite.install ⟨f.marker.resolver i⟩
  ClassFile.onPool (ConstantPool.addInvokeDynamic bootstrap f.name f.descriptor)

theorem install_eq (i : Identifier) (f : Forwarding) : f.install i = f.callSite i >>= fun index =>
    ClassFile.setBody f.position (forwardingBody f.name f.type index)
      (UInt16.ofNat f.type.paramSlots) := by
  unfold Forwarding.install callSite
  rw [bind_assoc]

/-- **A call site** that has been made is found again in every later class. -/
theorem callSite_steady (i : Identifier) (f : Forwarding) : Steady (f.callSite i) := by
  have site : Steady (CallSite.install ⟨f.marker.resolver i⟩) := by
    rw [CallSite.install_eq]
    exact (Steady.onPool (CallSite.internHandle_interns _)).bind fun handle =>
      Steady.internBootstrap ⟨handle, []⟩
  exact site.bind fun bootstrap =>
    Steady.onPool (ConstantPool.addInvokeDynamic_interns bootstrap f.name f.descriptor)

end Forwarding

end ClassWeave
