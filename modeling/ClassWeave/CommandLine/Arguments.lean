/-!
# Command-line arguments

**Forms.** An option with a value is written `--name value` or `--name=value`, and in its short
form `-o value`, `-ovalue` or `-o=value`; short flags may be run together. A separate value must
not begin with a dash, unless it is a single dash. After `--` there are no more options.

**Limits.** No option is given twice, and no path is empty. Arguments are read from the left: a
request for help ends the reading, and so does a mistake.
-/

namespace ClassWeave

structure TransformOptions where
  input : String
  output : String
  identifier : Option String
  project : Option String
  noInject : Bool
  verbose : Bool
  deriving DecidableEq

inductive Command where
  | transform (options : TransformOptions)
  | support (identifier : Option String)
  | version
  | help
  deriving DecidableEq

namespace Arguments

inductive OptionName where
  | output
  | identifier
  | project
  | noInject
  | verbose
  | help
  deriving DecidableEq

def OptionName.takesValue : OptionName → Bool
  | output | identifier | project => true
  | noInject | verbose | help => false

def OptionName.long : OptionName → String
  | output => "output"
  | identifier => "identifier"
  | project => "project"
  | noInject => "no-inject"
  | verbose => "verbose"
  | help => "help"

def OptionName.short? : OptionName → Option Char
  | output => some 'o'
  | verbose => some 'v'
  | help => some 'h'
  | identifier | project | noInject => none

/-- The options and the number of other arguments that a command takes. -/
structure Form where
  options : List OptionName
  positional : Nat

/-- What has been given; a flag is given with an empty value. -/
structure Given where
  options : List (OptionName × String)
  positional : List String

/-- The state of reading after an argument. -/
inductive Reading where
  | given (g : Given)
  /-- The next argument is the value of an option. -/
  | awaits (option : OptionName) (g : Given)
  | help
  | mistake

def Given.addOption (g : Given) (option : OptionName) (value : String) : Reading :=
  if option = .help then .help
  else if (g.options.lookup option).isSome || option = .output && value = "" then .mistake
  else .given { g with options := g.options ++ [(option, value)] }

/-- Takes an argument that is no option. -/
def Given.addPositional (form : Form) (g : Given) (value : String) : Reading :=
  if g.positional.length ≥ form.positional || value = "" then .mistake
  else .given { g with positional := g.positional ++ [value] }

/-- Takes short options that are run together. -/
def readShort (form : Form) : List Char → Given → Reading
  | [], g => .given g
  | c :: rest, g =>
    match form.options.find? (·.short? == some c) with
    | none => .mistake
    | some option =>
      if option.takesValue then
        match rest with
        | [] => .awaits option g
        | '=' :: value => g.addOption option (String.ofList value)
        | value => g.addOption option (String.ofList value)
      else
        match g.addOption option "" with
        | .given g => readShort form rest g
        | r => r

def readLong (form : Form) (cs : List Char) (g : Given) : Reading :=
  let (name, rest) := cs.span (· != '=')
  match form.options.find? (·.long.toList == name) with
  | none => .mistake
  | some option =>
    match option.takesValue, rest with
    | true, [] => .awaits option g
    | true, _ :: value => g.addOption option (String.ofList value)
    | false, [] => g.addOption option ""
    | false, _ => .mistake

def looksLikeOption (arg : String) : Bool :=
  match arg.toList with
  | '-' :: _ :: _ => true
  | _ => false

/-- Reads arguments, given the option that awaits a value and whether options have ended. -/
def read (form : Form) : List String → Option OptionName → (ended : Bool) → Given → Reading
  | [], none, _, g => .given g
  | [], some option, _, g => .awaits option g
  | arg :: rest, some option, ended, g =>
    if looksLikeOption arg then .mistake
    else
      match g.addOption option arg with
      | .given g => read form rest none ended g
      | r => r
  | arg :: rest, none, ended, g =>
    if !ended && arg = "--" then read form rest none true g
    else
      let reading := if ended then g.addPositional form arg
        else match arg.toList with
          | '-' :: '-' :: cs => readLong form cs g
          | '-' :: c :: cs => readShort form (c :: cs) g
          | _ => g.addPositional form arg
      match reading with
      | .given g => read form rest none ended g
      | .awaits option g => read form rest (some option) ended g
      | r => r

def transformForm : Form :=
  ⟨[.output, .identifier, .project, .noInject, .verbose, .help], 1⟩

def supportForm : Form := ⟨[.identifier, .help], 0⟩

def Given.value? (g : Given) (option : OptionName) : Option String := g.options.lookup option

def Given.has (g : Given) (option : OptionName) : Bool := (g.value? option).isSome

/-- The options of a transformation; the input and the output have to be given. -/
def Given.toTransform? (g : Given) : Option TransformOptions := do
  return {
    input := ← g.positional.head?
    output := ← g.value? .output
    identifier := g.value? .identifier
    project := g.value? .project
    noInject := g.has .noInject
    verbose := g.has .verbose }

end Arguments

open Arguments in
def Command.ofArguments? : List String → Option Command
  | "transform" :: rest =>
    match read transformForm rest none false ⟨[], []⟩ with
    | .given g => g.toTransform?.map .transform
    | .help => some .help
    | _ => none
  | "support" :: rest =>
    match read supportForm rest none false ⟨[], []⟩ with
    | .given g => some (.support (g.value? .identifier))
    | .help => some .help
    | _ => none
  | ["help"] | ["help", "transform"] | ["help", "support"] | ["help", "help"] => some .help
  | arg :: _ =>
    if arg = "--version" then some .version
    else if arg = "--help" then some .help
    else
      match arg.toList with
      | '-' :: 'V' :: _ => some .version
      | '-' :: 'h' :: _ => some .help
      | _ => none
  | [] => none

end ClassWeave
