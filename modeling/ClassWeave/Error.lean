import ClassWeave.Build.Config
import ClassWeave.ClassFile.Reader
import ClassWeave.ClassFile.Writer
import ClassWeave.Descriptor.Parser

/-!
# Errors

All causes for which transforming a class or placing the support classes can fail.
-/

namespace ClassWeave

/-- Where reading an archive fails. -/
inductive ArchiveError where
  /-- The next entry cannot be found. -/
  | entry
  /-- The data of a named entry is damaged. -/
  | data (name : String)
  deriving DecidableEq

inductive Error where
  | write (cause : WriteError)
  | read (cause : ReadError)
  | pool (cause : PoolError)
  | descriptor (owner member : String) (cause : DescriptorError)
  | unsupportedVersion (name : String) (major : UInt16)
  | archive (cause : ArchiveError)
  | output (name : String) (cause : OutputError)
  | config (cause : ConfigError)
  deriving DecidableEq

/-- The first version of class files that knows dynamic calls. -/
def minDynamicVersion : UInt16 := 51

def ArchiveError.message : ArchiveError → String
  | entry => "failed to read entry"
  | data name => s!"failed to read {name}"

def Error.message : Error → String
  | write cause => s!"IO error: {cause.message}"
  | read cause => s!"Class read error: {cause.message}"
  | pool cause => s!"Constant pool error: {cause.message}"
  | descriptor owner member cause => s!"Bad descriptor on {owner}.{member}: {cause.message}"
  | unsupportedVersion name major =>
    s!"Class {name} has version {major}, invokedynamic needs at least {minDynamicVersion}"
  | archive cause => s!"Archive error: {cause.message}"
  | output name cause => s!"Output rejected class {name}: {cause.message}"
  | config cause => s!"Configuration error: {cause.message}"

end ClassWeave
