import ClassWeave.ClassFile.Basic

/-!
# Call sites and forwarding bodies

**Call site** (`CallSite.install`). The call of a forwarding body is bootstrapped by the static
method `platform` of a resolver class.

**Body** (`forwardingBody`). The body loads every parameter in order, makes the call and returns
its result:

```text
load 0 … load n      every parameter, wide values taking two slots
invokedynamic        with the name and type of the method
return               of the kind of the result
```
-/

namespace ClassWeave

/-- A call site, by the class that bootstraps it. -/
structure CallSite where
  owner : String
  deriving DecidableEq

namespace CallSite

def bootstrapName : String := "platform"

def bootstrapDescriptor : String :=
  "(Ljava/lang/invoke/MethodHandles$Lookup;Ljava/lang/String;Ljava/lang/invoke/MethodType;)" ++
    "Ljava/lang/invoke/CallSite;"

def staticCallKind : UInt8 := 6

/-- Adds the bootstrap method of the call site to a class, unless it is there; the answer is its
index. -/
def install (s : CallSite) : ClassFile.Edit UInt16 := do
  let handle ← ClassFile.onPool do
    let method ← ConstantPool.addMethodRef s.owner bootstrapName bootstrapDescriptor
    ConstantPool.addMethodHandle staticCallKind method
  ClassFile.internBootstrap ⟨handle, []⟩

end CallSite

/-- The loads of the parameters, the first of which starts at the given slot. -/
def paramLoads : Nat → List FieldType → List Instruction
  | _, [] => []
  | slot, type :: rest => .load type.kind (UInt16.ofNat slot) :: paramLoads (slot + type.slots) rest

def forwardingBody (name : String) (type : MethodType) (index : UInt16) : List Instruction :=
  paramLoads 0 type.params ++
    [.invokeDynamic index name type, .ret (type.result.map FieldType.kind)]

end ClassWeave
