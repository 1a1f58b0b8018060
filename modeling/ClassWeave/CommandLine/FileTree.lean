import ClassWeave.CommandLine.Host

/-!
# Files in memory

A tree of files as a value, and the host on it.

**Following a path** (`follow`). A path starts at the root and is followed part by part. Each part
has to be looked up in a directory, also `.`, `..` and the blank part after a slash at the end; so a
path that goes through something missing leads nowhere, even if it comes back. No path leads out of
the tree.

**Writing** (`write`). The directories on the way are made as the path is followed, before the name
of the file is looked at. What has been made stays when a later part cannot be followed.

**Limits.** A path has at most `maxPathLength` bytes and a name at most `maxNameLength`.
-/

namespace ClassWeave

inductive FileTree where
  | file (data : Bytes)
  | directory (entries : List (String × FileTree))

namespace FileTree

def empty : FileTree := directory []

def kind : FileTree → FileKind
  | file _ => .file
  | directory _ => .directory

def replace (name : String) (t : FileTree) : List (String × FileTree) → List (String × FileTree)
  | [] => [(name, t)]
  | e :: rest => if e.1 = name then (name, t) :: rest else e :: replace name t rest

/-! ## Places -/

/-- The way from the root to a place. -/
inductive Way where
  | root
  /-- Goes on from a directory with the given entries by a name. -/
  | step (above : Way) (entries : List (String × FileTree)) (name : String)

/-- The whole tree that has `t` at the end of the way. -/
def Way.whole (t : FileTree) : Way → FileTree
  | root => t
  | step above entries name => whole (directory (replace name t entries)) above

/-- A place in a tree, and what is there. -/
structure Place where
  here : FileTree
  way : Way

def Place.whole (p : Place) : FileTree := p.way.whole p.here

def maxNameLength : Nat := 255

def maxPathLength : Nat := 4095

/-- Follows a path as far as it leads; the answer tells whether that is its end. Directories that
are missing may be made. -/
def follow (make : Bool) : Path → FileTree → Way → Bool × Place
  | [], here, way => (true, ⟨here, way⟩)
  | _ :: _, file data, way => (false, ⟨file data, way⟩)
  | part :: rest, directory entries, way =>
    if Path.staysInPlace part then follow make rest (directory entries) way
    else if part = ".." then
      match way with
      | .root => (false, ⟨directory entries, way⟩)
      | .step way above name =>
        follow make rest (directory (replace name (directory entries) above)) way
    else if part.utf8ByteSize > maxNameLength then (false, ⟨directory entries, way⟩)
    else
      match entries.lookup part with
      | some t => follow make rest t (.step way entries part)
      | none =>
        if make then follow make rest empty (.step way entries part)
        else (false, ⟨directory entries, way⟩)

/-- The path is short enough and starts in the tree; a blank part at its start stands for another
root. -/
def isWithin (path : Path) : Bool :=
  path.foldl (fun n part => n + 1 + part.utf8ByteSize) 0 ≤ maxPathLength + 1 &&
    path.head? != some ""

def find? (path : Path) (t : FileTree) : Option FileTree :=
  if isWithin path then
    match t.follow false path .root with
    | (true, p) => some p.here
    | (false, _) => none
  else none

/-! ## Writing -/

def holdsZero (part : String) : Bool := part.contains '\x00'

/-- Writes a file with a name into a directory. -/
def writeHere (name : String) (data : Bytes) (p : Place) : Except FileFault FileTree :=
  match p.here with
  | file _ => .error .refused
  | directory entries =>
    if holdsZero name then .error .zeroInPath
    else if name.utf8ByteSize > maxNameLength then .error .refused
    else
      match entries.lookup name with
      | some (directory _) => .error .refused
      | _ => .ok (p.way.whole (directory (replace name (file data) entries)))

/-- Writes a file and makes the directories on the way. -/
def write (path : Path) (data : Bytes) (t : FileTree) : Except FileFault Unit × FileTree :=
  match path.reverse with
  | [] => (.error .refused, t)
  | name :: above =>
    let parent := (above.dropWhile Path.staysInPlace).reverse
    if parent.any holdsZero then (.error .zeroInPath, t)
    else if !isWithin parent then (.error .refused, t)
    else
      match t.follow true parent .root with
      | (false, p) => (.error .refused, p.whole)
      | (true, p) =>
        match writeHere name data p with
        | .error fault => (.error fault, p.whole)
        | .ok new => if isWithin path then (.ok (), new) else (.error .refused, p.whole)

def host : Host (StateM FileTree) where
  kind path := do return ((← get).find? path).map kind
  list path := do
    match (← get).find? path with
    | some (directory entries) => return some (entries.map fun (name, t) => (name, t.kind))
    | _ => return none
  read path := do
    match (← get).find? path with
    | some (file data) => return some data
    | _ => return none
  write path data := write path data

/-! ## Contents -/

mutual

def files (path : Path) : FileTree → List (Path × Bytes)
  | .file data => [(path, data)]
  | .directory entries => filesBelow path entries

def filesBelow (path : Path) : List (String × FileTree) → List (Path × Bytes)
  | [] => []
  | (name, t) :: rest => t.files (path ++ [name]) ++ filesBelow path rest

end

end FileTree

end ClassWeave
