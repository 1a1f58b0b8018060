import ClassWeave.Build.Output

/-!
# Files

**Paths** (`Path`). A path is the list of its parts between slashes, so that it grows at its end
without being read again. No part is dropped: `Path.text` gives back the text that was parsed.

**Hosts.** A program reaches files only through a *host*, by single steps: it asks what is at a
path, lists a directory, reads a file or writes one.

**Walks** (`Host.walk`). The files below a directory are visited in the order of their names,
directories in their place among the files. A directory is listed when its turn comes, so a walk
meets what its own visits have written further on.
-/

namespace ClassWeave

/-! ## Paths -/

abbrev Path := List String

namespace Path

def ofString (s : String) : Path := segments s

def text (p : Path) : String := String.intercalate "/" p

def append (directory below : Path) : Path :=
  if directory.getLast? = some "" then directory.dropLast ++ below else directory ++ below

/-- The part of a path that leads nowhere. -/
def staysInPlace (part : String) : Bool := part = "" || part = "."

end Path

/-! ## Hosts -/

inductive FileKind where
  | file
  | directory
  /-- Neither a file nor a directory. -/
  | other
  deriving DecidableEq

inductive FileFault where
  /-- The path holds a zero character, which no path can hold. -/
  | zeroInPath
  | refused
  deriving DecidableEq

/-- Access to files by steps of `m`. -/
structure Host (m : Type → Type) where
  /-- What is at a path, if anything is. -/
  kind : Path → m (Option FileKind)
  /-- What is in a directory, if it can be listed. -/
  list : Path → m (Option (List (String × FileKind)))
  read : Path → m (Option Bytes)
  /-- Writes a file, after the directories on the way that are missing have been made. Those stay
  when the file cannot be written. -/
  write : Path → Bytes → m (Except FileFault Unit)

namespace Host

variable {m : Type → Type} [Monad m]

def output (host : Host m) (directory : Path) : Output m where
  add name data := do
    match classPath? name with
    | .error e => return .error e
    | .ok path =>
      match ← host.write (directory.append (.ofString path)) data with
      | .ok () => return .ok ()
      | .error .zeroInPath => return .error .zeroInPath
      | .error .refused => return .error .file
  acceptsNew := return true

/-! ## Walks -/

variable {ε : Type}

/-- Visits the files below a directory, by their paths below the `root`; a directory that cannot be
listed is a `fault`. -/
def walkBelow (host : Host m) (root : Path) (fault : ε) (visit : Path → ExceptT ε m Unit) :
    Nat → Path → ExceptT ε m Unit
  | 0, _ => throw fault
  | depth + 1, below => do
    match ← host.list (if below.isEmpty then root else root.append below) with
    | none => throw fault
    | some entries =>
      (entries.mergeSort fun a b => a.1 ≤ b.1).forM fun (name, kind) =>
        match kind with
        | .file => visit (below ++ [name])
        | .directory => host.walkBelow root fault visit depth (below ++ [name])
        | .other => return

/-- How deep a walk can go; the path of anything deeper is too long. -/
def maxDepth : Nat := 4096

def walk (host : Host m) (root : Path) (fault : ε) (visit : Path → ExceptT ε m Unit) :
    ExceptT ε m Unit := do
  match ← host.kind root with
  | none => throw fault
  | some .file => visit []
  | some .directory => host.walkBelow root fault visit maxDepth []
  | some .other => return

end Host

end ClassWeave
