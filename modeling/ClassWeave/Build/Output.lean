import ClassWeave.Bytes

/-!
# Outputs for finished classes

An output stores classes under their internal names.

**In memory** (`MemoryOutput`). The classes are kept in the order of their names; a name is stored
once.

**In a directory.** A class goes to the file with its name below the directory (`classPath?`); only
names that stay below the directory are accepted.
-/

namespace ClassWeave

inductive OutputError where
  | readOnly
  | duplicate (name : String)
  | invalidName (name : String)
  /-- The name holds a zero character, which no path can hold. -/
  | zeroInPath
  /-- The file system refused. -/
  | file
  deriving DecidableEq

def OutputError.message : OutputError → String
  | readOnly => "output does not accept new classes"
  | duplicate name => s!"class {name} was already added"
  | invalidName name => s!"invalid class name '{name}'"
  | zeroInPath => "IO error: file name contained an unexpected NUL byte"
  | file => "IO error"

/-- A place for classes, reached by steps of `m`. -/
structure Output (m : Type → Type) where
  /-- Stores a class under its name. -/
  add : String → Bytes → m (Except OutputError Unit)
  /-- Classes that were not part of the input may be stored. -/
  acceptsNew : m Bool

/-! ## In memory -/

structure MemoryOutput where
  /-- The classes in the order of their names. -/
  classes : List (String × Bytes)
  readOnly : Bool
  deriving DecidableEq

namespace MemoryOutput

def empty : MemoryOutput := ⟨[], false⟩

/-- An output that refuses every class. -/
def locked : MemoryOutput := ⟨[], true⟩

def get? (o : MemoryOutput) (name : String) : Option Bytes := o.classes.lookup name

def names (o : MemoryOutput) : List String := o.classes.map (·.1)

/-- Puts a class before the first one with a greater name. -/
def insert (name : String) (data : Bytes) : List (String × Bytes) → List (String × Bytes)
  | [] => [(name, data)]
  | c :: rest => if name < c.1 then (name, data) :: c :: rest else c :: insert name data rest

def add (name : String) (data : Bytes) : StateM MemoryOutput (Except OutputError Unit) := fun o =>
  if o.readOnly then (.error .readOnly, o)
  else if (o.get? name).isSome then (.error (.duplicate name), o)
  else (.ok (), { o with classes := insert name data o.classes })

def output : Output (StateM MemoryOutput) where
  add := add
  acceptsNew := do return !(← get).readOnly

end MemoryOutput

/-! ## In a directory -/

def classSuffix : String := ".class"

/-- The parts of a text between slashes. -/
def segments (s : String) : List String :=
  (s.toList.splitOn '/').map String.ofList

/-- The path of a class below the directory that it is stored in. -/
def classPath? (name : String) : Except OutputError String :=
  if !name.toList.contains '\\' &&
      (segments name).all fun s => s != "" && s != "." && s != ".." then
    .ok (name ++ classSuffix)
  else .error (.invalidName name)

end ClassWeave
