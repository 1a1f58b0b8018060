import ClassWeave.Build.Diagnostic
import ClassWeave.Error
import ClassWeave.Platform.Marker

/-!
# Plans

Which methods of a class get a forwarding body. A plan is made before anything is changed, so a
class with a bad descriptor anywhere stays as it is.

**Instance methods** that carry a marker are reported and left alone.

**Errors** come in the order of the methods; the version of the class is checked last, and only
when there is something to forward.
-/

namespace ClassWeave

/-- A marked static method, which gets a forwarding body. -/
structure Forwarding where
  /-- The position among the methods of the class. -/
  position : Nat
  name : String
  descriptor : String
  type : MethodType
  marker : Marker
  deriving DecidableEq

/-- What is to be forwarded and what is to be reported, both in the order of the methods. -/
structure Plan where
  forwardings : List Forwarding
  reports : List Diagnostic
  deriving DecidableEq

namespace Plan

def staticOnly (className methodName : String) : Diagnostic :=
  ⟨className, methodName, "@ExpectPlatform can only apply to static methods!"⟩

/-- What a method asks for: nothing, a forwarding body or a report. -/
inductive Finding where
  | unmarked
  | forward (planned : Forwarding)
  | report (diagnostic : Diagnostic)

def Finding.forwarding? : Finding → Option Forwarding
  | forward planned => some planned
  | _ => none

def Finding.report? : Finding → Option Diagnostic
  | report diagnostic => some diagnostic
  | _ => none

def examine (className : String) (pool : ConstantPool) (position : Nat) (m : Member) :
    Except Error Finding := do
  match Marker.of? m pool with
  | none => return .unmarked
  | some marker =>
    let name ← (m.name pool).mapError .pool
    if !m.isStatic then return .report (staticOnly className name)
    let descriptor ← (m.descriptor pool).mapError .pool
    let type ← (MethodType.parse descriptor).mapError (.descriptor className name)
    return .forward ⟨position, name, descriptor, type, marker⟩

def ofClass (c : ClassFile) : Except Error Plan := do
  let className ← c.name.mapError .pool
  let findings ← c.methods.toList.zipIdx.mapM fun (m, position) =>
    examine className c.pool position m
  let forwardings := findings.filterMap Finding.forwarding?
  if !forwardings.isEmpty && c.majorVersion < minDynamicVersion then
    throw (.unsupportedVersion className c.majorVersion)
  return ⟨forwardings, findings.filterMap Finding.report?⟩

end Plan

end ClassWeave
