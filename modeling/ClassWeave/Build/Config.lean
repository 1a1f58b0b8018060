import ClassWeave.Build.Identifier
import ClassWeave.Text.Blank

/-!
# Build configuration

**Sources.** The defaults are overridden by variables of the environment, and those by what the
caller sets.

**Context.** A configuration becomes the context of one build: the given identifier is checked, and
without one a fresh identifier is made.
-/

namespace ClassWeave

structure Config where
  /-- The identifier to use in place of a fresh one. -/
  identifier : Option String
  /-- The project name in a fresh identifier. -/
  project : String
  /-- Support classes are added to the output. -/
  inject : Bool
  deriving DecidableEq

/-- What one build works with. -/
structure Context where
  identifier : Identifier
  inject : Bool
  deriving DecidableEq

namespace Config

def default : Config := ⟨none, Identifier.defaultProject, true⟩

def identifierVariable : String := "EXPECT_PLATFORM_UNIQUE_IDENTIFIER"

def injectVariable : String := "EXPECT_PLATFORM_INJECT"

def projectVariable : String := "EXPECT_PLATFORM_PROJECT"

/-- The truth value that a variable names, blanks at the ends and the case of ASCII letters
apart. -/
def truthValue (key value : String) : Except ConfigError Bool :=
  let text := String.ofList ((Blank.trim value.toList).map Char.toLower)
  if text ∈ ["1", "true", "yes", "on"] then .ok true
  else if text ∈ ["0", "false", "no", "off"] then .ok false
  else .error (.notBoolean key text)

/-- The defaults, overridden by variables; an empty identifier or project name is none. -/
def ofEnvironment (lookup : String → Option String) : Except ConfigError Config := do
  let given (key : String) := (lookup key).filter (· != "")
  let inject ← match lookup injectVariable with
    | none => .ok default.inject
    | some value => truthValue injectVariable value
  return {
    identifier := given identifierVariable
    project := (given projectVariable).getD default.project
    inject }

/-- The context of a build, given 128 random bits. -/
def context (c : Config) (entropy : Nat) : Except ConfigError Context := do
  match c.identifier with
  | some text => return ⟨← Identifier.ofString text, c.inject⟩
  | none => return ⟨Identifier.generate c.project entropy, c.inject⟩

end Config

end ClassWeave
