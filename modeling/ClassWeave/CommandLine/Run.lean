import ClassWeave.CommandLine.Arguments
import ClassWeave.CommandLine.Host
import ClassWeave.Platform.Forwarding
import ClassWeave.Support

/-!
# The program

**Transforming a directory** (`transformDirectory`). A walk visits the class files below the input.
Each is transformed and written below the output under the same relative path, and then the support
classes are added. The first error ends the run; what has been written stays.

**Status.** A run that succeeds has status 0, one that fails has status 1, and a mistake in the
arguments gives status 2.
-/

namespace ClassWeave

inductive RunError where
  | failed (cause : Error)
  | walk (path : String)
  | read (path : String)
  | transform (name : String) (cause : Error)
  | write (name : String) (cause : OutputError)
  deriving DecidableEq

def RunError.message : RunError → String
  | failed cause => cause.message
  | walk path => s!"failed to walk {path}"
  | read path => s!"failed to read {path}"
  | transform name _ => s!"failed to transform {name}"
  | write name _ => s!"failed to write {name}"

/-- The cause behind the message, if it is not the message. -/
def RunError.cause? : RunError → Option String
  | failed _ | walk _ | read _ => none
  | transform _ cause => some cause.message
  | write _ cause => some cause.message

/-- What a run leaves for its caller. -/
structure Report where
  status : Nat
  stdout : String
  stderr : String
  deriving DecidableEq

/-- The internal name of a class file, from its path below the input. -/
def classNameOfPath? (path : Path) : Option String :=
  dropSuffix? classSuffix (path.text.map fun c => if c = '\\' then '/' else c)

section

variable {m : Type → Type} [Monad m]

/-- Transforms the class file at a path below the input; any other file is skipped. -/
def transformFile (host : Host m) (o : TransformOptions) (k : Context) (path : Path) :
    ExceptT RunError m Unit := do
  match classNameOfPath? path with
  | none => return
  | some name =>
    let source := (Path.ofString o.input).append path
    match ← host.read source with
    | none => throw (.read source.text)
    | some bs =>
      match transformBytes k.identifier bs [] with
      | .error e _ => throw (.transform name e)
      | .ok new _ =>
        match ← (host.output (.ofString o.output)).add name new with
        | .ok () => return
        | .error e => throw (.write name e)

def transformDirectory (host : Host m) (o : TransformOptions) (k : Context) :
    ExceptT RunError m Unit := do
  host.walk (.ofString o.input) (.walk o.input) (transformFile host o k)
  match ← (addSupportClasses (host.output (.ofString o.output)) k).run with
  | .ok _ => return
  | .error e => throw (.failed e)

def TransformOptions.config (o : TransformOptions) (env : String → Option String) :
    Except ConfigError Config := do
  let base ← Config.ofEnvironment env
  return {
    identifier := o.identifier <|> base.identifier
    project := o.project.getD base.project
    inject := base.inject && !o.noInject }

def runTransform (host : Host m) (env : String → Option String) (entropy : Nat)
    (o : TransformOptions) : ExceptT RunError m Unit := do
  match (o.config env).bind (·.context entropy) with
  | .error e => throw (.failed (.config e))
  | .ok k => transformDirectory host o k

/-- The lines that list the support classes, with the names they get under an identifier. -/
def supportLines (identifier : Option String) : Except Error String := do
  let i ← match identifier with
    | none => .ok none
    | some text => (some <$> Identifier.ofString text).mapError .config
  let names ← supportClassNames
  return String.join (names.map fun name =>
    match i with
    | none => name ++ "\n"
    | some i => name ++ " -> " ++ (supportName? name i).getD "" ++ "\n")

def RunError.report (e : RunError) : Report :=
  let cause := (e.cause?.map fun c => "\n\nCaused by:\n    " ++ c).getD ""
  ⟨1, "", "Error: " ++ e.message ++ cause ++ "\n"⟩

def versionLine : String := "expect-platform 0.1.0\n"

def usage : String :=
  "Transforms compiled classes with @ExpectPlatform methods\n\n" ++
  "Usage: expect-platform transform <DIR> --output <DIR> [--identifier <ID>] [--project <NAME>]\n" ++
  "                       [--no-inject] [--verbose]\n" ++
  "       expect-platform support [--identifier <ID>]\n" ++
  "       expect-platform --help | --version\n"

def run (host : Host m) (env : String → Option String) (entropy : Nat) (args : List String) :
    m Report := do
  match Command.ofArguments? args with
  | none => return ⟨2, "", usage⟩
  | some .version => return ⟨0, versionLine, ""⟩
  | some .help => return ⟨0, usage, ""⟩
  | some (.support identifier) =>
    match supportLines identifier with
    | .ok text => return ⟨0, text, ""⟩
    | .error e => return (RunError.failed e).report
  | some (.transform o) =>
    match ← (runTransform host env entropy o).run with
    | .ok () => return ⟨0, "", ""⟩
    | .error e => return e.report

end

end ClassWeave
