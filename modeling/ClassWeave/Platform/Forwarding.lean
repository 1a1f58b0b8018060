import ClassWeave.Platform.CallSite
import ClassWeave.Platform.Plan

/-!
# Forwarding marked methods

Every marked static method gets a forwarding body; its name, descriptor and annotations stay.

**Reports** are made as soon as the plan stands, before the first change.

**Main definitions.** `forwardMarked` works on a class, `transformBytes` on its bytes: a class
without marked static methods comes back as the same bytes.
-/

namespace ClassWeave

structure Session where
  classFile : ClassFile
  reports : List Diagnostic

def Session.edit (act : ClassFile.Edit α) : EStateM Error Session α := fun s =>
  let reports := s.reports
  match act s.classFile with
  | .ok a c => .ok a ⟨c, reports⟩
  | .error e c => .error (.pool e) ⟨c, reports⟩

def Forwarding.install (i : Identifier) (p : Forwarding) : ClassFile.Edit Unit := do
  let bootstrap ← CallSite.install ⟨p.marker.resolver i⟩
  let index ← ClassFile.onPool (ConstantPool.addInvokeDynamic bootstrap p.name p.descriptor)
  ClassFile.setBody p.position (forwardingBody p.name p.type index)
    (UInt16.ofNat p.type.paramSlots)

/-- Gives the marked static methods forwarding bodies; the answer is their count. -/
def forwardMarked (i : Identifier) : EStateM Error Session Nat := do
  match Plan.ofClass (← get).classFile with
  | .error e => throw e
  | .ok plan =>
    modify fun s => { s with reports := s.reports ++ plan.reports }
    Session.edit (plan.forwardings.forM (·.install i))
    return plan.forwardings.length

/-- Transforms the class that the bytes write down. The reports are kept in the state, also when a
step after the plan fails. -/
def transformBytes (i : Identifier) (bs : Bytes) : EStateM Error (List Diagnostic) Bytes :=
  fun reports =>
    match ClassFile.read bs with
    | .error e => .error (.read e) reports
    | .ok c =>
      match forwardMarked i ⟨c, reports⟩ with
      | .error e s => .error e s.reports
      | .ok 0 s => .ok bs s.reports
      | .ok _ s =>
        match s.classFile.write with
        | .ok bs => .ok bs s.reports
        | .error e => .error (.write e) s.reports

end ClassWeave
