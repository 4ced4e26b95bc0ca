import MiniLua.Command.Run

/-!
The command line: looks at the files that a command may ask for, runs the command, and writes what it leaves behind.
-/

namespace MiniLua.CommandLine

open Text

def toText (bs : Bytes) : String := String.ofList ((runes bs).map fun r => Char.ofNat r.code)

def toByteArray (bs : Bytes) : ByteArray := ⟨bs.toArray⟩

/-- The entry at an absolute path, if there is one that can be looked at. -/
def look (names : List Bytes) : IO (Option FileEntry) := do
  try
    let content ← IO.FS.readBinFile (toText (Path.ofNames names))
    return some (.file content.toList)
  catch
    | .inappropriateType .. => return some .directory
    | _ => return none

/-- Adds what stands along a path. -/
def explore (fs : Files) (path : Bytes) : IO Files := do
  if path.isEmpty then return fs
  let mut fs := fs
  let mut names := fs.start path
  for c in Path.components path do
    names := Path.step true names c
    if (fs.entry? names).isNone && fs.isDirectory names.dropLast then
      if let some e ← look names then fs := fs.add names e
  return fs

def workingFiles : IO Files := do
  let dir := utf8 (toString (← IO.currentDir))
  explore { workingDir := Path.names dir } dir

def saveChanges (before : Files) (o : Command.Outcome) : IO Unit := do
  for (names, content) in o.files.contents do
    if !before.holds names content then
      IO.FS.writeBinFile (toText (Path.ofNames names)) (toByteArray content)

def writeLog (log : Command.Log) : IO Unit := do
  let lines := log.lines.flatMap (· ++ [newline])
  match log.path with
  | some path =>
    IO.FS.withFile (toText path) .append fun h => h.write (toByteArray lines)
  | none => (← IO.getStderr).write (toByteArray lines)

/-- Reads to the end of the input. -/
partial def drain (input : IO.FS.Stream) : IO Unit := do
  if !(← input.getLine).isEmpty then drain input

def run (args : List String) : IO UInt32 := do
  let arguments := args.map utf8
  let mut files ← workingFiles
  for path in Command.readablePaths files.workingDir arguments do
    files ← explore files path
  for path in Command.writablePaths files arguments do
    files ← explore files path
  let outcome := Command.run files arguments
  (← IO.getStdout).write (toByteArray outcome.out)
  (← IO.getStderr).write (toByteArray outcome.err)
  saveChanges files outcome
  if let some log := outcome.log then writeLog log
  if outcome.service.isSome then drain (← IO.getStdin)
  return outcome.code

end MiniLua.CommandLine

def main (args : List String) : IO UInt32 := MiniLua.CommandLine.run args
