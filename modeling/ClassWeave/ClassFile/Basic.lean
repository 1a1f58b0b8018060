import ClassWeave.Attribute

/-!
# Class files

**Members.** Fields and methods have the same parts; only methods have code.

**Edits.** A class changes by steps that may grow its pool (`Edit`). A failing step keeps the
changes made before it failed, since what it has added to the pool does no harm.
-/

namespace ClassWeave

structure Member where
  accessFlags : UInt16
  nameIndex : UInt16
  descriptorIndex : UInt16
  attributes : List Attribute
  deriving DecidableEq, Inhabited

structure ClassFile where
  magic : UInt32
  minorVersion : UInt16
  majorVersion : UInt16
  pool : ConstantPool
  accessFlags : UInt16
  thisClass : UInt16
  superClass : UInt16
  interfaces : List UInt16
  fields : List Member
  /-- The methods, which are known by their positions and given new bodies one at a time. -/
  methods : Array Member
  attributes : List Attribute
  deriving Inhabited

def classMagic : UInt32 := 0xCAFEBABE

/-- The flag of members that belong to the class and not to its instances. -/
def staticFlag : UInt16 := 0x0008

def nativeFlag : UInt16 := 0x0100

def abstractFlag : UInt16 := 0x0400

def codelessFlags : UInt16 := nativeFlag ||| abstractFlag

/-! ## Members -/

namespace Member

def name (m : Member) (pool : ConstantPool) : Except PoolError String := pool.utf8 m.nameIndex

def descriptor (m : Member) (pool : ConstantPool) : Except PoolError String :=
  pool.utf8 m.descriptorIndex

def isStatic (m : Member) : Bool := m.accessFlags &&& staticFlag != 0

def code? (m : Member) : Option Code :=
  m.attributes.findSome? fun a => match a.content with
    | .code c => some c
    | _ => none

/-- Changes the code of the first attribute that holds code; none when there is no such one. -/
def mapCode? (f : Code → Code) (m : Member) : Option Member :=
  (go m.attributes).map fun attributes => { m with attributes }
where
  /-- Changes the first code in a list of attributes. -/
  go : List Attribute → Option (List Attribute)
    | [] => none
    | ⟨name, .code c⟩ :: rest => some (⟨name, .code (f c)⟩ :: rest)
    | a :: rest => (go rest).map (a :: ·)

/-- Gives a method a new body. The code that is there loses its handlers and attributes with its
body; a method without code gets an attribute for it, at the end, and loses the flags of methods
without code. -/
def setBody (m : Member) (list : List Instruction) (maxLocals : UInt16) :
    ConstantPool.Grow Member := do
  match m.mapCode? fun _ => Code.ofInstructions list maxLocals with
  | some m => return m
  | none =>
    let nameIndex ← ConstantPool.addUtf8 ContentKind.code.name
    return { m with
      accessFlags := m.accessFlags &&& ~~~codelessFlags
      attributes := m.attributes ++ [⟨nameIndex, .code (Code.ofInstructions list maxLocals)⟩] }

end Member

/-! ## Classes -/

namespace ClassFile

def empty : ClassFile where
  magic := classMagic
  minorVersion := 0
  majorVersion := 52
  pool := .empty
  accessFlags := 0
  thisClass := 0
  superClass := 0
  interfaces := []
  fields := []
  methods := #[]
  attributes := []

def name (c : ClassFile) : Except PoolError String := c.pool.className c.thisClass

/-- The internal name of the superclass; the root class has none. -/
def superName (c : ClassFile) : Except PoolError (Option String) :=
  if c.superClass = 0 then .ok none else (c.pool.className c.superClass).map some

/-- The first method with a name and descriptor; a method whose texts cannot be looked up does not
match. -/
def method? (c : ClassFile) (name descriptor : String) : Option Member :=
  c.methods.find? fun m =>
    (m.name c.pool).toOption == some name && (m.descriptor c.pool).toOption == some descriptor

def bootstrapMethods (c : ClassFile) : List BootstrapMethod :=
  (c.attributes.findSome? fun a => match a.content with
    | .bootstrapMethods list => some list
    | _ => none).getD []

/-- Equality of models, floating-point entries of the pool being compared as numbers. -/
def same (a b : ClassFile) : Bool :=
  a.magic == b.magic && a.minorVersion == b.minorVersion && a.majorVersion == b.majorVersion &&
    a.pool.slots.isEqv b.pool.slots Constant.same && a.accessFlags == b.accessFlags &&
    a.thisClass == b.thisClass && a.superClass == b.superClass &&
    a.interfaces == b.interfaces && a.fields == b.fields && a.methods == b.methods &&
    a.attributes == b.attributes

/-- Steps on a class; a failing step keeps what it has changed. -/
abbrev Edit := EStateM PoolError ClassFile

def onPool (act : ConstantPool.Grow α) : Edit α := fun c =>
  let pool := c.pool
  let rest := { c with pool := .empty }
  match act pool with
  | .ok a pool => .ok a { rest with pool }
  | .error e pool => .error e { rest with pool }

/-- Renames the class. The entry that names it is changed in place, so all that refers to the entry
follows. -/
def setName (name : String) : Edit Unit := do
  let index := (← get).thisClass
  if index = 0 then
    let thisClass ← onPool (ConstantPool.addClass name)
    modify fun c => { c with thisClass }
  else
    let nameIndex ← onPool (ConstantPool.addUtf8 name)
    match (← get).pool.get index with
    | .ok (.classRef _) => onPool (ConstantPool.set index (.classRef nameIndex))
    | .ok _ => throw (.unexpectedEntry index .classRef)
    | .error e => throw e

/-- Puts a bootstrap method into the first list of them in some attributes, unless it is there.
The answer is its index with the attributes; none when there is no list. -/
def insertBootstrap? (method : BootstrapMethod) :
    List Attribute → Option (Except PoolError (Nat × List Attribute))
  | [] => none
  | ⟨name, .bootstrapMethods list⟩ :: rest =>
    match list.idxOf? method with
    | some i => some (.ok (i, ⟨name, .bootstrapMethods list⟩ :: rest))
    | none =>
      if list.length ≥ 65535 then some (.error .outOfSpace)
      else some (.ok (list.length, ⟨name, .bootstrapMethods (list ++ [method])⟩ :: rest))
  | a :: rest =>
    (insertBootstrap? method rest).map fun found => found.map fun (i, rest) => (i, a :: rest)

/-- The index of a bootstrap method, which is added when it is not there. -/
def internBootstrap (method : BootstrapMethod) : Edit UInt16 := do
  match insertBootstrap? method (← get).attributes with
  | some (.ok (i, attributes)) =>
    modify fun c => { c with attributes }
    return UInt16.ofNat i
  | some (.error e) => throw e
  | none =>
    let nameIndex ← onPool (ConstantPool.addUtf8 ContentKind.bootstrapMethods.name)
    modify fun c => { c with
      attributes := c.attributes ++ [⟨nameIndex, .bootstrapMethods [method]⟩] }
    return 0

/-- Gives the method at a position a new body; a position past the last method changes nothing. -/
def setBody (position : Nat) (list : List Instruction) (maxLocals : UInt16) : Edit Unit := do
  match (← get).methods[position]? with
  | none => return
  | some m =>
    let m ← onPool (m.setBody list maxLocals)
    modify fun c => { c with methods := c.methods.setIfInBounds position m }

end ClassFile

end ClassWeave
