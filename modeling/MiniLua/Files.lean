import Std.Data.ExtTreeMap
import MiniLua.Path

/-!
Files and directories, as a program with a working directory sees them.
-/

namespace MiniLua

open Text

inductive FileEntry where
  | file (content : Bytes)
  | directory
  deriving DecidableEq

/-- Entries by the names that lead to them from the root, which is always there. -/
structure Files where
  entries : Std.ExtTreeMap (List Bytes) FileEntry := ∅
  workingDir : List Bytes := []

inductive FileReason where
  | notFound
  | notDirectory
  | isDirectory
  | nameTooLong
  | invalidName
  deriving DecidableEq, Repr

def FileReason.text : FileReason → Bytes
  | .notFound => utf8 "no such file or directory"
  | .notDirectory => utf8 "not a directory"
  | .isDirectory => utf8 "is a directory"
  | .nameTooLong => utf8 "file name too long"
  | .invalidName => utf8 "invalid argument"

inductive FileAction where
  | opening
  | reading
  deriving DecidableEq, Repr

structure FileFault where
  action : FileAction
  path : Bytes
  reason : FileReason
  deriving DecidableEq, Repr

def FileFault.message (f : FileFault) : Bytes :=
  (match f.action with
    | .opening => utf8 "open "
    | .reading => utf8 "read ") ++ f.path ++ utf8 ": " ++ f.reason.text

namespace Files

def entry? (fs : Files) (names : List Bytes) : Option FileEntry :=
  if names.isEmpty then some .directory else fs.entries[names]?

def isDirectory (fs : Files) (names : List Bytes) : Bool :=
  match fs.entry? names with
  | some .directory => true
  | _ => false

/-- Whether a file with this content is there. -/
def holds (fs : Files) (names : List Bytes) (content : Bytes) : Bool :=
  match fs.entry? names with
  | some (.file c) => c == content
  | _ => false

def add (fs : Files) (names : List Bytes) (e : FileEntry) : Files := { fs with entries := fs.entries.insert names e }

/-- Names and content of all files. -/
def contents (fs : Files) : List (List Bytes × Bytes) :=
  fs.entries.toList.filterMap fun (names, e) =>
    match e with
    | .file content => some (names, content)
    | .directory => none

def longestName : Nat := 255

def longestPath : Nat := 4095

/-- Goes from an entry to one of its components. -/
def descend (fs : Files) (at_ : List Bytes) (c : Bytes) : Except FileReason (List Bytes) :=
  if !fs.isDirectory at_ then .error .notDirectory
  else if c.isEmpty || c == Path.here then .ok at_
  else if c == Path.up then .ok at_.dropLast
  else if longestName < c.length then .error .nameTooLong
  else if (fs.entry? (at_ ++ [c])).isNone then .error .notFound
  else .ok (at_ ++ [c])

def start (fs : Files) (path : Bytes) : List Bytes := if Path.isAbsolute path then [] else fs.workingDir

def checkPath (path : Bytes) : Except FileReason Unit :=
  if path.contains 0 then .error .invalidName
  else if path.isEmpty then .error .notFound
  else if longestPath < path.length then .error .nameTooLong
  else .ok ()

/-- The entry that a path leads to, component by component. -/
def resolve (fs : Files) (path : Bytes) : Except FileReason (List Bytes) := do
  checkPath path
  (Path.components path).foldlM fs.descend (fs.start path)

def exists? (fs : Files) (path : Bytes) : Bool :=
  match fs.resolve path with
  | .ok _ => true
  | .error _ => false

/-- Content of a file. A directory can be opened, but not read. -/
def read (fs : Files) (path : Bytes) : Except FileFault Bytes :=
  match fs.resolve path with
  | .error reason => .error ⟨.opening, path, reason⟩
  | .ok names =>
    match fs.entry? names with
    | some (.file content) => .ok content
    | _ => .error ⟨.reading, path, .isDirectory⟩

/-- The names under which a path is written: the last one need not exist. -/
def target (fs : Files) (path : Bytes) : Except FileReason (List Bytes) := do
  checkPath path
  let parts := Path.components path
  let above ← parts.dropLast.foldlM fs.descend (fs.start path)
  let last := parts.getLastD []
  match fs.descend above last with
  | .ok names => if fs.isDirectory names then .error .isDirectory else .ok names
  | .error .notFound => .ok (above ++ [last])
  | .error reason => .error reason

/-- Makes a file or replaces its content. -/
def write (fs : Files) (path content : Bytes) : Except FileFault Files :=
  match fs.target path with
  | .ok names => .ok (fs.add names (.file content))
  | .error reason => .error ⟨.opening, path, reason⟩

end Files

end MiniLua
