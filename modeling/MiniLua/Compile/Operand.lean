import MiniLua.Chunk
import MiniLua.Text.Quoted

/-!
Operands: expressions that have been read but not yet placed in a slot. The instruction that places one is chosen once
the slot is known.
-/

namespace MiniLua

open Text

inductive Operand where
  | nil
  | bool (b : Bool)
  | int (i : Int64)
  | float (x : Binary64)
  | str (content : Bytes)
  /-- Already in a slot. -/
  | slot (slot : Int)
  /-- The global named by a constant. -/
  | global (key : Int)
  /-- Table and key in slots. -/
  | index (slot key : Int)
  /-- Table in a slot, key a string constant. -/
  | field (slot key : Int)
  /-- Table in a slot, key a number from 0 to 255. -/
  | element (slot key : Int)
  /-- Of no known kind; none is ever read from a source. -/
  | other (code slot key : Int)
  deriving DecidableEq

namespace Operand

def kindNames : List String :=
  ["nil", "boolean", "integer", "float", "string", "local", "global", "index", "index-field", "index-int"]

def kindNameOf (code : Int) : Bytes :=
  match if 0 ≤ code then kindNames[code.toNat]? else none with
  | some name => utf8 name
  | none => utf8 "ExpKind(" ++ integer code ++ utf8 ")"

/-- The value of a literal. -/
def literal? : Operand → Option Value
  | nil => some .nil
  | bool b => some (.bool b)
  | int i => some (.int i)
  | float x => some (.float x)
  | str content => some (.ofBytes content)
  | _ => none

/-- The fewest digits that read back, in exponent form from a million on. -/
def floatStyle : Binary64.Style := ⟨none, 6, false, "+Inf", "-Inf", "NaN"⟩

def call (name : Bytes) (args : List Bytes) : Bytes :=
  name ++ utf8 "(" ++ joinWith (utf8 ", ") args ++ utf8 ")"

def text : Operand → Bytes
  | nil => utf8 "nil"
  | bool b => call (utf8 "boolean") [utf8 (if b then "true" else "false")]
  | int i => call (utf8 "integer") [integer i.toInt]
  | float x => call (utf8 "float") [x.write floatStyle]
  | str content => call (utf8 "string") [quote content]
  | slot s => call (utf8 "local") [integer s]
  | global key => call (utf8 "global") [utf8 "K" ++ integer key]
  | index s key => call (utf8 "index") [integer s, integer key]
  | field s key => call (utf8 "index-field") [integer s, integer key]
  | element s key => call (utf8 "index-int") [integer s, integer key]
  | other code s key => call (kindNameOf code) [integer s, integer key]

inductive PlanFault where
  | tooManyConstants
  | unknownKind (code : Int)
  deriving DecidableEq, Repr

def PlanFault.report : PlanFault → Report
  | .tooManyConstants => { stage := .compile, message := Chunk.tooManyConstants }
  | .unknownKind code =>
    { stage := .compile, message := utf8 "cannot discharge " ++ kindNameOf code ++ utf8 " expression" }

def loadConstant (v : Value) (dst : UInt8) (c : Chunk) : Except PlanFault (List Instruction × Chunk) :=
  match c.addConstant v with
  | some (k, c') => .ok ([{ op := Opcode.loadConst.code, a := dst, b := k.toUInt8 }], c')
  | none => .error .tooManyConstants

/-- The instructions that place an operand in the slot `dst`. An operand that is there already needs none. -/
def plan (e : Operand) (dst : UInt8) (c : Chunk) : Except PlanFault (List Instruction × Chunk) :=
  match e with
  | nil => .ok ([{ op := Opcode.loadNil.code, a := dst }], c)
  | bool b => .ok ([{ op := Opcode.loadBool.code, a := dst, b := if b then 1 else 0 }], c)
  | int i => .ok ([{ op := Opcode.loadInt.code, a := dst, int := i }], c)
  | float x => loadConstant (.float x) dst c
  | str content => loadConstant (.ofBytes content) dst c
  | slot s =>
    if s = dst.toNat then .ok ([], c) else .ok ([{ op := Opcode.move.code, a := dst, b := UInt8.ofInt s }], c)
  | global key => .ok ([{ op := Opcode.getGlobal.code, a := dst, b := UInt8.ofInt key }], c)
  | index s key =>
    .ok ([{ op := Opcode.getTable.code, a := dst, b := UInt8.ofInt s, c := UInt8.ofInt key }], c)
  | field s key =>
    .ok ([{ op := Opcode.getField.code, a := dst, b := UInt8.ofInt s, c := UInt8.ofInt key }], c)
  | element s key =>
    .ok ([{ op := Opcode.getInt.code, a := dst, b := UInt8.ofInt s, c := UInt8.ofInt key }], c)
  | other code _ _ => .error (.unknownKind code)

end Operand

end MiniLua
