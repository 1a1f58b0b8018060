import ClassWeave.Bytes
import ClassWeave.Build.Output
import ClassWeave.Text.Hex

/-!
# Build identifiers

The identifier of a build is the package of its support classes, so that builds made apart never
share a class.

**Given or made.** A given identifier has to be a package name (`Identifier.ofString`); a made one
holds the name of the project and random digits (`Identifier.generate`).
-/

namespace ClassWeave

inductive ConfigError where
  | invalidIdentifier (text : String)
  | notBoolean (key text : String)
  deriving DecidableEq

def ConfigError.message : ConfigError → String
  | invalidIdentifier text => s!"'{text}' is not a valid package name"
  | notBoolean key text => s!"{key} must be a boolean, got '{text}'"

structure Identifier where
  text : String
  deriving DecidableEq

namespace Identifier

/-- The characters that no package name holds. -/
def reserved : List Char := ['.', ';', '[', '<', '>', ':']

def isValid (text : String) : Bool :=
  (segments text).all fun s => s != "" && !s.toList.any reserved.contains

def ofString (text : String) : Except ConfigError Identifier :=
  if isValid text then .ok ⟨text⟩ else .error (.invalidIdentifier text)

def resolverName : String := "PlatformMethods"

/-- The resolver class of the build. -/
def resolver (i : Identifier) : String := i.text ++ "/" ++ resolverName

def defaultProject : String := "project"

/-- Puts an underscore for each character that is no ASCII letter, digit or underscore. -/
def sanitize (name : String) : String :=
  if name = "" then defaultProject
  else String.ofList (name.toList.map fun c => if c.isAlphanum || c = '_' then c else '_')

/-- A random identifier of 32 digits, marked as random in its version and variant digits. -/
def randomDigits (entropy : Nat) : String :=
  Hex.lower 8 (entropy >>> 96) ++ Hex.lower 4 (entropy >>> 80) ++
    Hex.lower 4 (0x4000 + (entropy >>> 64) % 0x1000) ++
    Hex.lower 4 (0x8000 + (entropy >>> 48) % 0x4000) ++ Hex.lower 12 entropy

def generate (project : String) (entropy : Nat) : Identifier :=
  ⟨"architectury_inject_" ++ sanitize project ++ "_" ++ randomDigits entropy⟩

end Identifier

end ClassWeave
