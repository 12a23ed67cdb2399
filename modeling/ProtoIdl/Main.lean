import ProtoIdl.Command.Run
/-!
# The command line

Reads what the arguments name from the disk, runs the command on it and prints the outcome.
-/
namespace ProtoIdl.Command

/-- The fault that an error of the system tells of. -/
def faultOf : IO.Error → AccessFault
  | .noFileOrDirectory _ number word | .permissionDenied _ number word
  | .inappropriateType _ number word | .invalidArgument _ number word => ⟨number.toNat, word⟩
  | e => ⟨5, e.toString⟩

/-- The octets of a file. -/
def loadFile (path : String) : IO Entry := do
  try
    return .file (← IO.FS.readBinFile path).toList
  catch e => return .unreadable (faultOf e)

/-- What is in a directory. One that may not be listed passes for empty. -/
def listed (path : String) : IO (Array IO.FS.DirEntry) := do
  try
    (← IO.FS.realPath path).readDir
  catch _ => return #[]

/-- The octets of a file, or the entries of a directory and all below it. -/
partial def loadEntry (path : String) : IO (Except AccessFault Entry) := do
  try
    if ← (← IO.FS.realPath path).isDir then
      let mut entries := #[]
      for e in ← listed path do
        match ← loadEntry e.path.toString with
        | .ok entry => entries := entries.push (e.fileName, entry)
        | .error _ => pure ()
      return .ok (.directory entries.toList)
    else return .ok (← loadFile path)
  catch e => return .error (faultOf e)

/-- What the arguments name, by the written forms of their paths. -/
def loadDisk (arguments : List String) : IO Disk := do
  match readArguments arguments with
  | .ok (.run s) =>
    let loaded ← s.paths.mapM fun p => do
      let name := (Path.ofString p).render
      return (name, ← loadEntry name)
    return fun name => (loaded.lookup name).getD (.error .noSuchFile)
  | _ => return fun _ => .error .noSuchFile

end ProtoIdl.Command

open ProtoIdl.Command in
/-- Runs the command on its arguments. -/
def main (arguments : List String) : IO UInt32 := do
  let outcome := run (← loadDisk arguments) arguments
  (← IO.getStderr).putStr outcome.err
  (← IO.getStdout).putStr outcome.out
  if let some text := outcome.unhandled then throw (.userError text)
  return outcome.code.toUInt32
