import ClassWeave.CommandLine.Run

/-!
# The command

The outer layer of the program: it reads and writes files, the environment and the standard
streams, and decides nothing.
-/

namespace ClassWeave.Command

def kindOf : IO.FS.FileType → FileKind
  | .dir => .directory
  | .file => .file
  | _ => .other

/-- The host on the file system; links in a listing are not followed. -/
def host : Host IO where
  kind path := do
    try return some (kindOf (← (System.mkFilePath path).metadata).type)
    catch _ => return none
  list path := do
    try
      let entries ← (System.mkFilePath path).readDir
      return some (← entries.toList.mapM fun e => do
        return (e.fileName, kindOf (← e.path.symlinkMetadata).type))
    catch _ => return none
  read path := do
    try return some (← IO.FS.readBinFile (System.mkFilePath path)).toList
    catch _ => return none
  write path data := do
    try
      let location := System.mkFilePath path
      if let some parent := location.parent then IO.FS.createDirAll parent
      IO.FS.writeBinFile location data.toByteArray
      return .ok ()
    catch _ => return .error .refused

/-- The variables of the environment that the program reads. -/
def environment : IO (List (String × String)) := do
  let keys := [Config.identifierVariable, Config.projectVariable, Config.injectVariable]
  let values ← keys.mapM fun key => do return (key, ← IO.getEnv key)
  return values.filterMap fun (key, value) => value.map fun v => (key, v)

end ClassWeave.Command

open ClassWeave in
def main (args : List String) : IO UInt32 := do
  let env ← Command.environment
  let entropy := ofBigEndian (← IO.getRandomBytes 16).toList
  let report ← run Command.host (fun key => env.lookup key) entropy args
  IO.print report.stdout
  IO.eprint report.stderr
  return UInt32.ofNat report.status
