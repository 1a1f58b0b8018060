import ClassWeave.Archive.Tar
import ClassWeave.Build.Config
import ClassWeave.Relocation

/-!
# Support classes

The classes that forwarding bodies call are shipped in an archive, under a placeholder package.
Each build gets copies of them in its own namespace.

**Names** (`supportName?`). A copy keeps the simple name of its entry; its package is the
identifier of the build.

**Copies** (`moveSupportClass`). The references among the classes move from the placeholder to
the identifier, and the class takes its new name.

**Order.** Entries are placed one by one; the classes placed before an error stay.
-/

namespace ClassWeave

/-- The package that support classes are shipped in. -/
def placeholderPackage : String := "me/shedaniel/architect/plugin/callsite"

/-- The start of the archive that is shipped. It is no header of a gzip stream, so every use ends in
an archive error and nothing after it matters. -/
def shippedArchive : Bytes :=
  [0x1F, 0xEF, 0xBF, 0xBD, 0x08, 0x00, 0x00, 0x00, 0x00, 0x00, 0x02, 0x03]

def dropSuffix? (suffix text : String) : Option String :=
  (suffix.toList.reverse.isPrefixOf? text.toList.reverse).map fun rest =>
    String.ofList rest.reverse

/-- The name of the copy of a class entry; none for other entries. -/
def supportName? (entry : String) (i : Identifier) : Option String := do
  let stem ← dropSuffix? classSuffix entry
  let simple ← (segments stem).getLast?
  if simple = "" then none else some (i.text ++ "/" ++ simple)

def moveSupportClass (bs : Bytes) (newName : String) (i : Identifier) : Except Error Bytes :=
  match ClassFile.read bs with
  | .error e => .error (.read e)
  | .ok c =>
    match ClassFile.relocate (Renaming.move placeholderPackage i.text) c with
    | .error e _ => .error e
    | .ok _ c =>
      match ClassFile.setName newName c with
      | .error e _ => .error (.pool e)
      | .ok _ c => c.write.mapError .write

def entryName (path : String) : String := path.map fun c => if c = '\\' then '/' else c

def isClassPath (path : String) : Bool := (dropSuffix? classSuffix (entryName path)).isSome

def ArchiveEntry.name (e : ArchiveEntry) : String := entryName e.path

def ArchiveEntry.isClass (e : ArchiveEntry) : Bool := e.isFile && isClassPath e.path

def supportArchive (bs : Bytes) : Archive := Archive.ofBytes isClassPath bs

/-- The class files of an archive as they are read; a fault is the last item. -/
def Archive.classes (a : Archive) : List (Except ArchiveError (String × Bytes)) :=
  (a.entries.filter ArchiveEntry.isClass).map (fun e =>
    match e.data with
    | some data => .ok (e.name, data)
    | none => .error (.data e.name)) ++ if a.complete then [] else [.error .entry]

section

variable {m : Type → Type} [Monad m]

/-- Places the copy of one class file; the answer is its name, if it has one. -/
def placeClass (out : Output m) (i : Identifier) :
    Except ArchiveError (String × Bytes) → ExceptT Error m (Option String)
  | .error e => throw (.archive e)
  | .ok (entry, data) =>
    match supportName? entry i with
    | none => return none
    | some name =>
      match moveSupportClass data name i with
      | .error e => throw e
      | .ok renamed => do
        match ← out.add name renamed with
        | .error e => throw (.output name e)
        | .ok () => return some name

def injectArchive (out : Output m) (i : Identifier) (a : Archive) :
    ExceptT Error m (List String) := do
  return (← a.classes.mapM (placeClass out i)).filterMap id

/-- Places the support classes, unless the build does without them or the output takes no new
classes. -/
def addSupportClasses (out : Output m) (k : Context) : ExceptT Error m (List String) := do
  if !k.inject then return []
  if !(← out.acceptsNew) then return []
  injectArchive out k.identifier (supportArchive shippedArchive)

end

def Archive.classNames (a : Archive) : Except Error (List String) :=
  ((·.map (·.1)) <$> a.classes.mapM id).mapError .archive

def supportClassNames : Except Error (List String) := (supportArchive shippedArchive).classNames

end ClassWeave
