import MiniLua.Command.Flags
import MiniLua.Editor.Service
import MiniLua.Listing
import MiniLua.Machine.Step
import MiniLua.Manifest
import MiniLua.Source
import MiniLua.Wire.Chunk

/-!
The command: it compiles a program, writes its listing and runs it, or sets up the service for editors.
-/

namespace MiniLua.Command

open Text

/-- Messages about the work, and the file they go to. -/
structure Log where
  level : Int64
  path : Option Bytes := none
  lines : List Bytes := []

/-- Below this level nothing is logged and no file is made. -/
def quietLevel : Int64 := -4

def infoLevel : Int64 := 1

def Log.info (log : Log) (line : Bytes) : Log :=
  if log.level < infoLevel then log else { log with lines := log.lines ++ [line] }

/-- All that a command leaves behind. -/
structure Outcome where
  code : UInt32 := 0
  out : Bytes := []
  err : Bytes := []
  files : Files
  log : Option Log := none
  /-- The service that goes on with what the editor asks. -/
  service : Option Editor.Service := none

def failure (fs : Files) (log : Option Log) (out message : Bytes) : Outcome :=
  { code := 1, out, err := utf8 "error: " ++ message ++ [newline], files := fs, log }

def refusal (fs : Files) (message : Bytes) : Outcome := { code := 2, err := message ++ newline :: usage, files := fs }

/-- An explicit manifest, or the nearest one, or none at all. -/
def manifestFor (fs : Files) (config dir : Bytes) : Except ManifestFault Manifest :=
  if config.isEmpty then (Manifest.nearest fs dir).map fun m => m.getD {} else Manifest.load fs config

/-- Opens the log. Its file is made if it is not there. -/
def openLog (fs : Files) (m : Manifest) (v : Verbosity) : Except FileFault (Log × Files) :=
  let level := if v.given then v.level else m.verbosity
  let path := m.resolve m.logFile
  if level ≤ quietLevel || path.isEmpty then .ok ({ level }, fs)
  else match fs.read path with
    | .ok _ => .ok ({ level, path := some path }, fs)
    | .error _ => (fs.write path []).map fun fs => ({ level, path := some path }, fs)

/-- A listing in the form that is asked for; none if there is to be none. -/
def listing? (chunk : Chunk) (format : Bytes) : Except Bytes (Option Bytes) :=
  match DumpFormat.ofName? format with
  | some .text => .ok (some chunk.listing)
  | some .cbor => ((Wire.encode chunk).mapError Wire.WireFault.message).map some
  | some .none => .ok none
  | none => .error (unknownFormatText format)

/-- What has been done so far, before the program runs. -/
structure Progress where
  files : Files
  log : Log
  out : Bytes := []

/-- Writes the listing to the file that the manifest names, or to the output. -/
def writeListing (p : Progress) (m : Manifest) (format : Bytes) (chunk : Chunk) : Except Bytes Progress := do
  match ← listing? chunk format with
  | none => return p
  | some data =>
    let path := m.resolve m.output
    if path.isEmpty then return { p with out := p.out ++ data }
    else match p.files.write path data with
      | .ok files =>
        return { p with files, log := p.log.info (utf8 "wrote " ++ format ++ utf8 " dump to " ++ path) }
      | .error fault => .error (utf8 "writing dump: " ++ fault.message)

def noteDigest (log : Log) (path : Bytes) (chunk : Chunk) : Log :=
  match Wire.digest chunk with
  | .ok digest => log.info (path ++ utf8 ": chunk sha256 " ++ digest.flatMap hexByte)
  | .error _ => log

def compileFile (fs : Files) (encoding path : Bytes) : Except Bytes Chunk := do
  let source ← (Source.openFile fs path encoding).mapError Source.OpenFault.message
  (Chunk.compileReading source.text (source.failure.map FileFault.message) path).mapError fun fault => fault.report.text

def faultText (f : Fault) : Bytes :=
  match f.report? with
  | some report => report.text
  | none => f.message

def machineFor (m : Manifest) : Machine := Machine.start {} m.globals

def execute (m : Manifest) (chunk : Chunk) (p : Progress) : Outcome :=
  let (fault, machine) := (machineFor m).execute chunk
  let out := p.out ++ machine.out.written.toList
  match fault with
  | none => { out, files := p.files, log := some p.log }
  | some f => failure p.files (some p.log) out (faultText f)

def runProgram (fs : Files) (log : Log) (m : Manifest) (format path : Bytes) : Outcome :=
  match compileFile fs m.sourceEncoding path with
  | .error message => failure fs (some log) [] message
  | .ok chunk =>
    let log := noteDigest log path chunk
    match writeListing { files := fs, log } m format chunk with
    | .error message => failure fs (some log) [] message
    | .ok p => execute m chunk p

/-- Goes on with a manifest and an open log. -/
def configured (fs : Files) (o : Options) (dir : Bytes) (next : Files → Log → Manifest → Outcome) : Outcome :=
  match manifestFor fs o.config dir with
  | .error fault => failure fs none [] fault.message
  | .ok m =>
    match openLog fs m o.verbosity with
    | .error fault => { code := 1, err := utf8 "log file error: " ++ fault.message ++ [newline], files := fs }
    | .ok (log, fs) => next fs log m

def serve (fs : Files) (o : Options) : Outcome :=
  configured fs o (o.operands.headD Path.here) fun fs log m =>
    { files := fs, log := some log, service := some (.ofMachine (machineFor m)) }

/-- The flag for the form of the listing goes before the manifest. -/
def runScript (fs : Files) (o : Options) (path : Bytes) : Outcome :=
  configured fs o (Path.parent path) fun fs log m =>
    runProgram fs log m (if o.dump.isEmpty then m.format.name else o.dump) path

/-- Runs the command with its arguments. -/
def run (fs : Files) (arguments : List Bytes) : Outcome :=
  match Options.read {} arguments with
  | .error .help => { err := usage, files := fs }
  | .error (.fault fault) => refusal fs fault.message
  | .ok o =>
    if o.service then serve fs o
    else match o.operands with
      | [path] => runScript fs o path
      | _ => { err := usage, files := fs }

/-- The directory from which a manifest is looked for. -/
def searchDir (o : Options) : Bytes :=
  if o.service then o.operands.headD Path.here else Path.parent (o.operands.headD [])

/-- Paths that a command may read: a manifest that is named, manifests in the directories above, and programs. -/
def readablePaths (workingDir : List Bytes) (arguments : List Bytes) : List Bytes :=
  match Options.read {} arguments with
  | .error _ => []
  | .ok o =>
    let dirs := Manifest.directoriesUp (Path.absoluteNames workingDir (searchDir o))
    o.config :: dirs.map (fun d => Path.join (Path.ofNames d) Manifest.fileName) ++ o.operands

/-- Paths that a command may write: the log and the listing. -/
def writablePaths (fs : Files) (arguments : List Bytes) : List Bytes :=
  match Options.read {} arguments with
  | .error _ => []
  | .ok o =>
    match manifestFor fs o.config (searchDir o) with
    | .ok m => [m.resolve m.logFile, m.resolve m.output]
    | .error _ => []

end MiniLua.Command
