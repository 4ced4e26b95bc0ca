import Std.Data.ExtTreeMap
import MiniLua.Machine.Print
import MiniLua.Table
import MiniLua.Text.Quoted

/-!
The machine: a stack of slots, global variables, tables and natives that values refer to by number, and an output.
-/

namespace MiniLua

open Text

/-- Where output goes. A sink with a limit refuses a write that would go past it. -/
structure Sink where
  written : Array UInt8 := #[]
  limit : Option Nat := none

def Sink.write (s : Sink) (bs : Bytes) : Option Bytes × Sink :=
  if s.limit.any (· < s.written.size + bs.length) then (some (utf8 "out full"), s)
  else (none, { s with written := s.written ++ bs.toArray })

/-- Hash of the machine's tables: multiplicative, byte by byte. -/
def byteHash (bs : Bytes) : UInt64 :=
  bs.foldl (fun h b => (h ^^^ b.toUInt64) * 0x100000001b3) 0xcbf29ce484222325

structure Machine where
  tables : Array Table := #[]
  natives : Array Native := #[]
  globals : Std.ExtTreeMap Bytes Value := ∅
  stack : Array Value := #[]
  /-- Slot of the function in the current call. -/
  callSlot : Nat := 0
  argCount : Nat := 0
  out : Sink := {}

namespace Machine

def addTable (m : Machine) (t : Table) : Nat × Machine := (m.tables.size, { m with tables := m.tables.push t })

def addNative (m : Machine) (f : Native) : Nat × Machine := (m.natives.size, { m with natives := m.natives.push f })

def table (m : Machine) (id : Nat) : Table := m.tables.getD id Table.empty

def setTable (m : Machine) (id : Nat) (t : Table) : Machine := { m with tables := m.tables.setIfInBounds id t }

def getGlobal (m : Machine) (name : Bytes) : Value := m.globals.getD name .nil

def setGlobal (m : Machine) (name : Bytes) (v : Value) : Machine :=
  { m with globals := m.globals.insert name v }

def globalNames (m : Machine) : List Bytes := m.globals.keys

/-- Makes a native function a global under its own name. -/
def register (m : Machine) (f : Native) : Machine :=
  let (id, m) := m.addNative f
  m.setGlobal f.name (.native id)

/-- A machine that knows `print`, with further globals; one of these may stand in for `print`. -/
def start (m : Machine) (globals : List (Bytes × Value)) : Machine :=
  globals.foldl (fun m (name, v) => m.setGlobal name v) (m.register Print.native)

/-- Argument `i` of the current call, nil where there is none. -/
def arg (m : Machine) (i : Int) : Value :=
  if 0 ≤ i ∧ i < m.argCount then m.stack.getD (m.callSlot + 1 + i.toNat) .nil else .nil

def nativeName (m : Machine) (id : Nat) : Bytes := ((m.natives[id]?).map Native.name).getD []

/-- A text for a value that quotes strings and gives the sizes of both parts of a table. -/
def inspect (m : Machine) (v : Value) : Bytes :=
  match v with
  | .str s => quote s.bytes
  | .table id =>
    utf8 "table(array=" ++ decimal (m.table id).array.size ++ utf8 ", map=" ++ decimal (m.table id).count ++ utf8 ")"
  | .native id => utf8 "function " ++ m.nativeName id
  | _ => v.display

end Machine

end MiniLua
