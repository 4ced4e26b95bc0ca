import MiniLua.Text.Bytes

/-!
Operations of the machine and the meaning of their operands.
-/

namespace MiniLua

open Text

inductive Opcode where
  | loadNil | loadBool | loadInt | loadConst | move
  | getGlobal | setGlobal | setGlobalConst | setGlobalGlobal
  | newTable | setTable | setField | setInt | setTableConst | setFieldConst | setIntConst | setList
  | getTable | getField | getInt
  | call
  deriving DecidableEq, Repr

inductive OperandKind where
  | none
  | slot
  | const
  | byte
  | count
  deriving DecidableEq, Repr

def OperandKind.code : OperandKind → Nat
  | none => 0
  | slot => 1
  | const => 2
  | byte => 3
  | count => 4

namespace Opcode

def all : List Opcode :=
  [loadNil, loadBool, loadInt, loadConst, move, getGlobal, setGlobal, setGlobalConst, setGlobalGlobal, newTable, setTable,
    setField, setInt, setTableConst, setFieldConst, setIntConst, setList, getTable, getField, getInt, call]

def code : Opcode → UInt8
  | loadNil => 0x00 | loadBool => 0x01 | loadInt => 0x02 | loadConst => 0x03 | move => 0x04
  | getGlobal => 0x10 | setGlobal => 0x11 | setGlobalConst => 0x12 | setGlobalGlobal => 0x13
  | newTable => 0x20 | setTable => 0x21 | setField => 0x22 | setInt => 0x23
  | setTableConst => 0x24 | setFieldConst => 0x25 | setIntConst => 0x26 | setList => 0x27
  | getTable => 0x28 | getField => 0x29 | getInt => 0x2a
  | call => 0x30

def ofCode? (b : UInt8) : Option Opcode := all.find? (·.code == b)

def mnemonic : Opcode → String
  | loadNil => "LOADNIL" | loadBool => "LOADBOOL" | loadInt => "LOADINT" | loadConst => "LOADCONST" | move => "MOVE"
  | getGlobal => "GETGLOBAL" | setGlobal => "SETGLOBAL" | setGlobalConst => "SETGLOBALCONST"
  | setGlobalGlobal => "SETGLOBALGLOBAL"
  | newTable => "NEWTABLE" | setTable => "SETTABLE" | setField => "SETFIELD" | setInt => "SETINT"
  | setTableConst => "SETTABLECONST" | setFieldConst => "SETFIELDCONST" | setIntConst => "SETINTCONST"
  | setList => "SETLIST" | getTable => "GETTABLE" | getField => "GETFIELD" | getInt => "GETINT"
  | call => "CALL"

/-- Meaning of the three operands. -/
def operands : Opcode → OperandKind × OperandKind × OperandKind
  | loadNil | loadInt => (.slot, .none, .none)
  | loadBool => (.slot, .byte, .none)
  | loadConst | getGlobal => (.slot, .const, .none)
  | move => (.slot, .slot, .none)
  | setGlobal => (.const, .slot, .none)
  | setGlobalConst | setGlobalGlobal => (.const, .const, .none)
  | newTable => (.slot, .count, .count)
  | setTable | getTable => (.slot, .slot, .slot)
  | setField => (.slot, .const, .slot)
  | setInt => (.slot, .byte, .slot)
  | setTableConst | getField => (.slot, .slot, .const)
  | setFieldConst => (.slot, .const, .const)
  | setIntConst => (.slot, .byte, .const)
  | setList | call => (.slot, .count, .none)
  | getInt => (.slot, .slot, .byte)

/-- Whether an integer of full width belongs to the instruction. -/
def hasInt : Opcode → Bool
  | loadInt => true
  | _ => false

end Opcode

/-- The operation byte may be one that no operation has. -/
structure Instruction where
  op : UInt8
  a : UInt8 := 0
  b : UInt8 := 0
  c : UInt8 := 0
  int : Int64 := 0
  deriving DecidableEq, Repr

namespace Instruction

def opcode? (i : Instruction) : Option Opcode := Opcode.ofCode? i.op

def opName (op : UInt8) : Bytes :=
  match Opcode.ofCode? op with
  | some o => utf8 o.mnemonic
  | none => utf8 "UNKNOWN(0x" ++ (hexByte op).map upperByte ++ utf8 ")"

/-- The operands in use, each with its meaning. -/
def shownOperands (i : Instruction) : List (OperandKind × UInt8) :=
  match i.opcode? with
  | some o =>
    let (ka, kb, kc) := o.operands
    [(ka, i.a), (kb, i.b), (kc, i.c)].filter fun p => p.1 != .none
  | none => []

def hasInt (i : Instruction) : Bool := (i.opcode?.map Opcode.hasInt).getD false

end Instruction

end MiniLua
