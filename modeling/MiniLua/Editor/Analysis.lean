import MiniLua.Compile.Generate
import MiniLua.Editor.Range

/-!
What is known about a document: the chunk it compiles to or the first fault, the globals and locals of the chunk, and
where a name stands in the text.
-/

namespace MiniLua.Editor

open Text

inductive Analysis where
  | compiled (chunk : Chunk)
  | rejected (report : Report)

def analyze (uri text : Bytes) : Analysis :=
  match Chunk.compile text uri with
  | .ok chunk => .compiled chunk
  | .error fault => .rejected fault.report

structure Diagnostic where
  range : Range
  code : Bytes
  message : Bytes
  deriving DecidableEq, Repr

namespace Analysis

def chunk? : Analysis → Option Chunk
  | compiled chunk => some chunk
  | rejected _ => none

def diagnostics : Analysis → List Diagnostic
  | compiled _ => []
  | rejected report => [⟨.ofReport report, report.stage.name, report.message⟩]

end Analysis

/-- Constants that an instruction uses as the names of globals. -/
def globalOperands (i : Instruction) : List UInt8 :=
  match i.opcode? with
  | some .getGlobal => [i.b]
  | some .setGlobal | some .setGlobalConst => [i.a]
  | some .setGlobalGlobal => [i.a, i.b]
  | _ => []

def stringConstant? (c : Chunk) (k : UInt8) : Option Bytes :=
  match c.constants[k.toNat]? with
  | some (.str s) => some s.bytes
  | _ => none

/-- The globals that a chunk reads or writes, in order and without repetition. -/
def globalNames (c : Chunk) : List Bytes :=
  let used := (c.code.toList.flatMap globalOperands).filterMap (stringConstant? c)
  (used.mergeSort fun a b => decide (a ≤ b)).eraseDups

/-- The declaration of a name that is visible in a line: the last one in that line or above. -/
def lookupLocal (c : Chunk) (name : Bytes) (line : Int) : Option LocalInfo :=
  c.locals.toList.reverse.find? fun l => l.name == name && decide (l.line.toInt ≤ line)

def isNamed (word : Bytes) (t : Token) : Bool :=
  match t.lexeme with
  | .name s => s == word
  | _ => false

/-- Where a name stands in a text, up to the first fault of the scan. -/
def occurrences (text word : Bytes) : List Range :=
  ((Scanner.ofSource text none).tokens.1.filter (isNamed word)).map fun t =>
    .ofPosition t.pos.line t.pos.column word.length

end MiniLua.Editor
