import MiniLua.Chunk
import MiniLua.Machine.Basic

/-!
Execution. A chunk runs from its first instruction to its last or to the first fault; the machine keeps what was done
before a fault.
-/

namespace MiniLua

open Text

/-- Faults that the machine finds in the program it runs. -/
inductive RuntimeFault where
  | badKey (fault : KeyFault)
  | notIndexable (kind : Kind)
  | notCallable (kind : Kind)
  | slotSkipped (slot size : Nat)
  | listOverrun (count slot size : Nat)
  | badGlobalName (kind : Kind)
  | unknownOpcode (op : UInt8)
  deriving DecidableEq, Repr

def RuntimeFault.message : RuntimeFault → Bytes
  | .badKey fault => fault.message
  | .notIndexable kind => utf8 "attempt to index a " ++ kind.typeName ++ utf8 " value"
  | .notCallable kind => utf8 "attempt to call a " ++ kind.typeName ++ utf8 " value"
  | .slotSkipped slot size => utf8 "stack slot " ++ decimal slot ++ utf8 " written before slot " ++ decimal size
  | .listOverrun count slot size =>
    utf8 "SETLIST of " ++ decimal count ++ utf8 " values at slot " ++ decimal slot ++ utf8 " overruns stack of " ++
      decimal size
  | .badGlobalName kind => utf8 "global name must be a string, got " ++ kind.typeName
  | .unknownOpcode op => utf8 "unknown opcode " ++ Instruction.opName op

inductive Fault where
  | runtime (fault : RuntimeFault)
  /-- Raised by a native function. -/
  | raised (report : Report)
  /-- A slot or constant that does not exist. -/
  | outOfRange (index length : Nat)
  | misuse (fault : Misuse)
  deriving DecidableEq

namespace Fault

/-- The report of a fault of the program; faults of the machine's user have none. -/
def report? : Fault → Option Report
  | runtime fault => some { stage := .runtime, message := fault.message }
  | raised report => some report
  | outOfRange .. | misuse _ => none

def message : Fault → Bytes
  | runtime fault => fault.message
  | raised report => report.message
  | outOfRange index length =>
    utf8 "runtime error: index out of range [" ++ decimal index ++ utf8 "] with length " ++ decimal length
  | misuse fault => fault.message

end Fault

abbrev ExecM := ExceptT Fault (StateM Machine)

namespace ExecM

def fail {α : Type} (f : RuntimeFault) : ExecM α := throw (.runtime f)

def constant (c : Chunk) (i : UInt8) : ExecM Value :=
  match c.constants[i.toNat]? with
  | some v => return v
  | none => throw (.outOfRange i.toNat c.constants.size)

def slot (i : UInt8) : ExecM Value := do
  let stack := (← get).stack
  match stack[i.toNat]? with
  | some v => return v
  | none => throw (.outOfRange i.toNat stack.size)

/-- Writes a slot. One past the last grows the stack, and none further up can be written. -/
def setSlot (i : UInt8) (v : Value) : ExecM Unit := do
  let m ← get
  if i.toNat = m.stack.size then set { m with stack := m.stack.push v }
  else if i.toNat < m.stack.size then set { m with stack := m.stack.setIfInBounds i.toNat v }
  else fail (.slotSkipped i.toNat m.stack.size)

def tableOf (v : Value) : ExecM Nat :=
  match v with
  | .table id => return id
  | _ => fail (.notIndexable v.kind)

def nameOf (v : Value) : ExecM Bytes :=
  match v with
  | .str s => return s.bytes
  | _ => fail (.badGlobalName v.kind)

def getIn (id : Nat) (key : Value) : ExecM Value := return ((← get).table id).get byteHash key

def setIn (id : Nat) (key v : Value) : ExecM Unit := do
  let m ← get
  match (m.table id).set byteHash key v with
  | .ok t => set (m.setTable id t)
  | .error fault => fail (.badKey fault)

/-- Moves `count` values above a slot into the table there and drops them from the stack. -/
def setList (at_ count : Nat) : ExecM Unit := do
  let m ← get
  if m.stack.size < at_ + 1 + count then fail (.listOverrun count at_ m.stack.size)
  let id ← tableOf (m.stack.getD at_ .nil)
  let values := (m.stack.extract (at_ + 1) (at_ + 1 + count)).toList
  let m := m.setTable id ((m.table id).append byteHash values)
  set { m with stack := m.stack.extract 0 (at_ + 1) }

def act {α : Type} : Act α → ExecM α
  | .done a => return a
  | .raise report => throw (.raised report)
  | .misuse fault => throw (.misuse fault)
  | .callSlot next => do act (next (← get).callSlot)
  | .argCount next => do act (next (← get).argCount)
  | .arg index next => do act (next ((← get).arg index))
  | .stackSize next => do act (next (← get).stack.size)
  | .push v next => do
    modify fun m => { m with stack := m.stack.push v }
    act next
  | .getGlobal name next => do act (next ((← get).getGlobal name))
  | .setGlobal name v next => do
    modify (·.setGlobal name v)
    act next
  | .write bs next => do
    let m ← get
    let (reason, out) := m.out.write bs
    set { m with out }
    act (next reason)
  | .inspect v next => do act (next ((← get).inspect v))

def call (fn : UInt8) (argCount : Nat) : ExecM Unit := do
  let v ← slot fn
  match v with
  | .native id =>
    let m ← get
    set { m with callSlot := fn.toNat, argCount }
    match m.natives[id]? with
    | some f => let _ ← act f.body
    | none => return
  | _ => fail (.notCallable v.kind)

def smallInt (b : UInt8) : Value := .int (Int64.ofNat b.toNat)

/-- Checks come before effects: what names the place is looked at first, then the value to be stored. -/
def step (c : Chunk) (i : Instruction) : ExecM Unit :=
  match i.opcode? with
  | some .loadNil => setSlot i.a .nil
  | some .loadBool => setSlot i.a (.bool (i.b != 0))
  | some .loadInt => setSlot i.a (.int i.int)
  | some .loadConst => do setSlot i.a (← constant c i.b)
  | some .move => do setSlot i.a (← slot i.b)
  | some .getGlobal => do
    let name ← nameOf (← constant c i.b)
    setSlot i.a ((← get).getGlobal name)
  | some .setGlobal => do
    let name ← nameOf (← constant c i.a)
    let v ← slot i.b
    modify (·.setGlobal name v)
  | some .setGlobalConst => do
    let name ← nameOf (← constant c i.a)
    let v ← constant c i.b
    modify (·.setGlobal name v)
  | some .setGlobalGlobal => do
    let name ← nameOf (← constant c i.a)
    let source ← nameOf (← constant c i.b)
    modify fun m => m.setGlobal name (m.getGlobal source)
  | some .newTable => do
    let (id, m) := (← get).addTable .empty
    setSlot i.a (.table id)
    modify fun m' => { m' with tables := m.tables }
  | some .setTable => do
    let id ← tableOf (← slot i.a)
    let key ← slot i.b
    setIn id key (← slot i.c)
  | some .setField => do
    let id ← tableOf (← slot i.a)
    let key ← constant c i.b
    setIn id key (← slot i.c)
  | some .setInt => do
    let id ← tableOf (← slot i.a)
    setIn id (smallInt i.b) (← slot i.c)
  | some .setTableConst => do
    let id ← tableOf (← slot i.a)
    let key ← slot i.b
    setIn id key (← constant c i.c)
  | some .setFieldConst => do
    let id ← tableOf (← slot i.a)
    let key ← constant c i.b
    setIn id key (← constant c i.c)
  | some .setIntConst => do
    let id ← tableOf (← slot i.a)
    setIn id (smallInt i.b) (← constant c i.c)
  | some .setList => setList i.a.toNat i.b.toNat
  | some .getTable => do
    let id ← tableOf (← slot i.b)
    setSlot i.a (← getIn id (← slot i.c))
  | some .getField => do
    let id ← tableOf (← slot i.b)
    setSlot i.a (← getIn id (← constant c i.c))
  | some .getInt => do
    let id ← tableOf (← slot i.b)
    setSlot i.a (← getIn id (smallInt i.c))
  | some .call => call i.a i.b.toNat
  | none => fail (.unknownOpcode i.op)

def steps (c : Chunk) : List Instruction → ExecM Unit
  | [] => return
  | i :: rest => do
    step c i
    steps c rest

end ExecM

/-- Runs a chunk on an empty stack: the machine afterwards, and the fault that ended the run early. -/
def Machine.execute (m : Machine) (c : Chunk) : Option Fault × Machine :=
  match (ExecM.steps c c.code.toList).run { m with stack := #[] } with
  | (.ok (), m) => (none, m)
  | (.error f, m) => (some f, m)

end MiniLua
