import MiniLua.Files
import MiniLua.Text.Quoted
import MiniLua.Toml.Document
import MiniLua.Value.Basic

/-!
Manifests: how programs below a directory are run. A manifest is a TOML document; the nearest one in the directories
above a program counts.
-/

namespace MiniLua

open Text

inductive DumpFormat where
  | text
  | cbor
  | none
  deriving DecidableEq, Repr

def DumpFormat.name : DumpFormat → Bytes
  | text => utf8 "text"
  | cbor => utf8 "cbor"
  | none => utf8 "none"

/-- The empty name means text. -/
def DumpFormat.ofName? (name : Bytes) : Option DumpFormat :=
  if name.isEmpty then some .text else [text, cbor, none].find? (·.name == name)

structure Manifest where
  verbosity : Int64 := -1
  logFile : Bytes := []
  sourceEncoding : Bytes := []
  format : DumpFormat := .text
  output : Bytes := []
  /-- Values for globals, in the order of their names. -/
  globals : List (Bytes × Value) := []
  /-- Directory of the manifest; empty if there is no file. -/
  dir : Bytes := []

inductive ManifestFault where
  | unreadable (path : Bytes) (fault : FileFault)
  | malformed (path : Bytes)
  | unknownFormat (path format : Bytes)
  | unsupportedGlobal (path name typeName : Bytes)
  deriving DecidableEq, Repr

def unknownFormatText (format : Bytes) : Bytes := utf8 "unknown dump format " ++ quote format

def ManifestFault.message : ManifestFault → Bytes
  | unreadable path fault => utf8 "cannot read " ++ path ++ utf8 ": " ++ fault.message
  | malformed path => utf8 "parse error in " ++ path
  | unknownFormat path format => path ++ utf8 ": " ++ unknownFormatText format
  | unsupportedGlobal path name typeName =>
    path ++ utf8 ": global " ++ quote name ++ utf8 ": unsupported type " ++ typeName

namespace Manifest

def fileName : Bytes := utf8 "lunette.toml"

/-- What a document says about the things a manifest knows. -/
structure Settings where
  verbosity : Int64 := -1
  logFile : Bytes := []
  sourceEncoding : Bytes := []
  format : Bytes := DumpFormat.text.name
  output : Bytes := []
  globals : Std.ExtTreeMap Bytes Toml.Value := ∅

/-- Letters that differ in case only have the same code; two letters outside ASCII go with `s` and `k`. -/
def foldCode (c : Nat) : Nat :=
  if 0x41 ≤ c ∧ c ≤ 0x5a then c + 32 else if c = 0x17f then 0x73 else if c = 0x212a then 0x6b else c

def fold (name : Bytes) : List Nat := (runes name).map fun r => foldCode r.code

/-- The one of `names` that a key means, whatever its case. -/
def nameOf? (names : List String) (key : Bytes) : Option String :=
  names.find? fun n => fold (utf8 n) == fold key

def ofString : Toml.Value → Option Bytes
  | .string s => some s
  | _ => none

def ofInteger : Toml.Value → Option Int64
  | .integer i => some i
  | _ => none

def ofTable : Toml.Value → Option Toml.Table
  | .table t => some t
  | _ => none

def setRun (s : Settings) (e : Bytes × Toml.Value) : Option Settings :=
  match nameOf? ["verbosity", "log-file", "source-encoding"] e.1 with
  | some "verbosity" => (ofInteger e.2).map fun i => { s with verbosity := i }
  | some "log-file" => (ofString e.2).map fun p => { s with logFile := p }
  | some "source-encoding" => (ofString e.2).map fun n => { s with sourceEncoding := n }
  | _ => some s

def setDump (s : Settings) (e : Bytes × Toml.Value) : Option Settings :=
  match nameOf? ["format", "output"] e.1 with
  | some "format" => (ofString e.2).map fun n => { s with format := n }
  | some "output" => (ofString e.2).map fun p => { s with output := p }
  | _ => some s

/-- Globals that are not a table are ignored. -/
def setGlobals (s : Settings) (v : Toml.Value) : Settings :=
  match v with
  | .table t => { s with globals := t.foldl (fun gs (name, v) => gs.insert name v) s.globals }
  | _ => s

def setSection (s : Settings) (e : Bytes × Toml.Value) : Option Settings :=
  match nameOf? ["run", "dump", "globals"] e.1 with
  | some "run" => (ofTable e.2).bind fun t => t.foldlM setRun s
  | some "dump" => (ofTable e.2).bind fun t => t.foldlM setDump s
  | some "globals" => some (setGlobals s e.2)
  | _ => some s

/-- The settings in a document; none if it is no document or a setting has the wrong type. -/
def Settings.ofSource? (source : Bytes) : Option Settings := do
  (← Toml.document? source).foldlM setSection {}

/-- Only strings, numbers and truth values can be globals. -/
def globalValue? : Toml.Value → Option Value
  | .string s => some (.ofBytes s)
  | .integer i => some (.int i)
  | .float x => some (.float x)
  | .boolean b => some (.bool b)
  | _ => none

def globalValues (path : Bytes) : List (Bytes × Toml.Value) → Except ManifestFault (List (Bytes × Value))
  | [] => .ok []
  | (name, v) :: rest =>
    match globalValue? v with
    | some w => (globalValues path rest).map ((name, w) :: ·)
    | none => .error (.unsupportedGlobal path name v.typeName)

/-- Reads the manifest at a path. -/
def load (fs : Files) (path : Bytes) : Except ManifestFault Manifest :=
  match fs.read path with
  | .error fault => .error (.unreadable path fault)
  | .ok source =>
    match Settings.ofSource? source with
    | none => .error (.malformed path)
    | some s =>
      match DumpFormat.ofName? s.format with
      | none => .error (.unknownFormat path s.format)
      | some format => (globalValues path s.globals.toList).map fun globals =>
        { verbosity := s.verbosity, logFile := s.logFile, sourceEncoding := s.sourceEncoding, format,
          output := s.output, globals, dir := Path.ofNames (Path.absoluteNames fs.workingDir (Path.parent path)) }

/-- Reads the manifest in a directory. -/
def loadFrom (fs : Files) (dir : Bytes) : Except ManifestFault Manifest := load fs (Path.join dir fileName)

/-- The directory itself and those above it, given by their names from the root. -/
def directoriesUp (names : List Bytes) : List (List Bytes) :=
  (List.range (names.length + 1)).map fun k => names.take (names.length - k)

/-- Whether there is a manifest in a directory, good or bad. -/
def isIn (fs : Files) (dir : Bytes) : Bool := fs.exists? (Path.join dir fileName)

/-- Reads the first manifest on the way up from a directory. The root is its own parent, and so is `.`. -/
def climb (fs : Files) (dir : Bytes) : Except ManifestFault (Option Manifest) :=
  if isIn fs dir then (loadFrom fs dir).map some
  else if _ : Path.parent dir = dir then .ok none
  else climb fs (Path.parent dir)
termination_by Path.weight dir
decreasing_by exact Path.weight_parent_lt ‹_›

/-- Reads the manifest that is nearest to a directory, going up from there. -/
def nearest (fs : Files) (dir : Bytes) : Except ManifestFault (Option Manifest) :=
  climb fs (Path.ofNames (Path.absoluteNames fs.workingDir dir))

/-- A path in a manifest is relative to the directory of the manifest. -/
def resolve (m : Manifest) (p : Bytes) : Bytes :=
  if p.isEmpty || Path.isAbsolute p || m.dir.isEmpty then p else Path.join m.dir p

end Manifest

end MiniLua
