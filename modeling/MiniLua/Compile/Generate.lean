import MiniLua.Compile.Operand
import MiniLua.Tree.Parser

/-!
Code generation in reading order. Locals take the lowest slots, temporaries the slots above them; a fault in the tree
is reported when the generator gets there, so the first fault in reading order is the one reported.
-/

namespace MiniLua

/-- A chunk under construction and its next free slot. -/
structure Gen where
  chunk : Chunk
  top : Nat

abbrev GenM := StateT Gen (Except SourceFault)

namespace Gen

def maxSlots : Nat := 256

/-- Positional entries are moved into their table in groups of this size. -/
def groupSize : Nat := 50

def fail {α : Type} (cause : Cause) (pos : Position) : GenM α := throw ⟨cause, pos⟩

def emit (op : Opcode) (a b c : UInt8) : GenM Unit :=
  modify fun g => { g with chunk := g.chunk.emit { op := op.code, a, b, c } }

def setTop (n : Nat) : GenM Unit := modify fun g => { g with top := n }

def localCount : GenM Nat := return (← get).chunk.locals.size

def constant (v : Value) (pos : Position) : GenM Nat := do
  let g ← get
  match g.chunk.addConstant v with
  | some (k, chunk) =>
    set { g with chunk }
    return k
  | none => fail .tooManyConstants pos

def allocate (pos : Position) : GenM Nat := do
  let g ← get
  if g.top < maxSlots then
    set { g with top := g.top + 1 }
    return g.top
  else fail .tooManySlots pos

/-- Gives a temporary back if it is the topmost slot. -/
def release (slot : Int) : GenM Unit :=
  modify fun g =>
    if (g.chunk.locals.size : Int) ≤ slot ∧ slot + 1 = g.top then { g with top := g.top - 1 } else g

def releaseOperand : Operand → GenM Unit
  | .slot s | .field s _ | .element s _ => release s
  | .index s key => do
    release key
    release s
  | _ => return

def discharge (e : Operand) (dst : Nat) (pos : Position) : GenM Unit := do
  let g ← get
  match e.plan dst.toUInt8 g.chunk with
  | .ok (code, chunk) => set { g with chunk := code.foldl Chunk.emit chunk }
  | .error _ => fail .tooManyConstants pos

/-- Places an operand in a fresh slot, which may be one that it occupied itself. -/
def dischargeNext (e : Operand) (pos : Position) : GenM Nat := do
  releaseOperand e
  let dst ← allocate pos
  discharge e dst pos
  return dst

/-- A slot that holds the operand: its own, or a fresh one. -/
def dischargeTop (e : Operand) (pos : Position) : GenM Int :=
  match e with
  | .slot s => return s
  | _ => return (← dischargeNext e pos)

/-- A constant for a literal, else a slot; and whether it is a constant. -/
def constantOrSlot (e : Operand) (pos : Position) : GenM (UInt8 × Bool) := do
  match e.literal? with
  | some v => return ((← constant v pos).toUInt8, true)
  | none => return (UInt8.ofInt (← dischargeTop e pos), false)

def resolve (name : Name) : GenM Operand := do
  match (← get).chunk.locals.toList.reverse.find? (·.name == name.text) with
  | some l => return .slot l.slot.toInt
  | none => return .global (← constant (.ofBytes name.text) name.pos)

/-- Indexing a slot by a key; short strings of code serve string keys and small numbers. -/
def indexBy (slot : Int) (key : Operand) (pos : Position) : GenM Operand :=
  match key with
  | .str content => return .field slot (← constant (.ofBytes content) pos)
  | .int i =>
    if 0 ≤ i.toInt ∧ i.toInt ≤ 255 then return .element slot i.toInt
    else return .index slot (← dischargeTop key pos)
  | _ => return .index slot (← dischargeTop key pos)

/-- The store for a table operand, its table and its key. -/
def store (target : Operand) (value : UInt8) (isConst : Bool) : GenM Unit :=
  match target with
  | .field s key => emit (if isConst then .setFieldConst else .setField) (UInt8.ofInt s) (UInt8.ofInt key) value
  | .element s key => emit (if isConst then .setIntConst else .setInt) (UInt8.ofInt s) (UInt8.ofInt key) value
  | .index s key => emit (if isConst then .setTableConst else .setTable) (UInt8.ofInt s) (UInt8.ofInt key) value
  | _ => return

def checkKey (key : Operand) (pos : Position) : GenM Unit :=
  match key with
  | .nil => fail (.badKey .nil) pos
  | .float x => if x.isNaN then fail (.badKey .nan) pos else return
  | _ => return

/-- Stores an entry with an explicit key and gives back the temporaries above `base`. -/
def storeEntry (table : Nat) (key : Operand) (entry assign : Position) (value : GenM Operand) (last : Position)
    (base : Nat) : GenM Unit := do
  checkKey key entry
  let target ← indexBy table key assign
  let (v, isConst) ← constantOrSlot (← value) last
  store target v isConst
  setTop base

/-- Moves the pending positional entries of a table from their slots into it. -/
def flush (table pending : Nat) : GenM Unit := do
  emit .setList table.toUInt8 pending.toUInt8 0
  setTop (table + 1)

/-- How many positional and keyed entries a constructor has had, and how many positional ones wait in slots. -/
structure Tally where
  positional : Nat := 0
  keyed : Nat := 0
  pending : Nat := 0

def Tally.addPositional (t : Tally) : Tally := { t with positional := t.positional + 1, pending := t.pending + 1 }

def Tally.addKeyed (t : Tally) : Tally := { t with keyed := t.keyed + 1 }

/-- Writes the size hints into the instruction that made the table. -/
def patch (at_ : Nat) (t : Tally) : GenM Unit :=
  modify fun g =>
    { g with chunk := { g.chunk with
        code := g.chunk.code.modify at_ fun i =>
          { i with b := (min t.positional 255).toUInt8, c := (min t.keyed 255).toUInt8 } } }

def ofLiteral : Literal → Operand
  | .nil => .nil
  | .bool b => .bool b
  | .int i => .int i
  | .float x => .float x
  | .str content => .str content

def negate : Operand → Operand
  | .int i => .int (-i)
  | .float x => .float x.neg
  | e => e

mutual

def expression : Exp → GenM Operand
  | .literal l _ => return ofLiteral l
  | .table opened fs => do
    let table ← allocate opened
    let start := (← get).chunk.code.size
    emit .newTable table.toUInt8 0 0
    let tally ← fields table {} fs
    if 0 < tally.pending then flush table tally.pending
    patch start tally
    return .slot table
  | .minus _ operand => return negate (← expression operand)
  | .var name => resolve name
  | .paren inner _ => expression inner
  | .field base dot name => do
    let slot ← dischargeTop (← expression base) dot
    return .field slot (← constant (.ofBytes name.text) name.pos)
  | .index base opened key _ => do
    let slot ← dischargeTop (← expression base) opened
    indexBy slot (← expression key) key.last
  | .fault f => throw f
  | .faultAfter e f => do
    let _ ← expression e
    throw f

def fields (table : Nat) (tally : Tally) : Fields → GenM Tally
  | .done _ => return tally
  | .stop e => do
    let _ ← expression e
    return tally
  | .positional e rest => do
    let _ ← dischargeNext (← expression e) e.last
    let tally := tally.addPositional
    if tally.pending = groupSize then
      flush table tally.pending
      fields table { tally with pending := 0 } rest
    else fields table tally rest
  | .named name assign value rest => do
    let base := (← get).top
    storeEntry table (.str name.text) name.pos assign (expression value) value.last base
    fields table tally.addKeyed rest
  | .keyed opened key assign value rest => do
    let base := (← get).top
    let k ← expression key
    storeEntry table k opened assign (expression value) value.last base
    fields table tally.addKeyed rest

end

def assignGlobal (name : UInt8) (e : Operand) (pos : Position) : GenM Unit :=
  match e with
  | .global key => emit .setGlobalGlobal name (UInt8.ofInt key) 0
  | _ => do
    let (v, isConst) ← constantOrSlot e pos
    emit (if isConst then .setGlobalConst else .setGlobal) name v 0

def assign (target : Operand) (e : Operand) (pos : Position) : GenM Unit := do
  match target with
  | .slot s => discharge e s.toNat pos
  | .global key => assignGlobal (UInt8.ofInt key) e pos
  | _ =>
    let (v, isConst) ← constantOrSlot e pos
    store target v isConst

def declare (name : Name) (init : Option Exp) : GenM Unit := do
  let slot ← localCount
  if maxSlots ≤ slot then fail .tooManyLocals name.pos
  match init with
  | some e => discharge (← expression e) slot e.last
  | none => emit .loadNil slot.toUInt8 0 0
  let info : LocalInfo := ⟨name.text, .ofNat slot, .ofNat name.pos.line, .ofNat name.pos.column⟩
  modify fun g => { g with chunk := { g.chunk with locals := g.chunk.locals.push info } }

def arguments : List Exp → GenM Unit
  | [] => return
  | e :: es => do
    let _ ← dischargeNext (← expression e) e.last
    arguments es

def statement : Stat → GenM Unit
  | .declare name init => declare name init
  | .assign target value => do
    let t ← expression target
    assign t (← expression value) value.last
  | .call callee args stop => do
    let fn ← dischargeNext (← expression callee) callee.last
    arguments args
    match stop with
    | some f => throw f
    | none => emit .call fn.toUInt8 args.length.toUInt8 0
  | .construct e | .stop e => do
    let _ ← expression e
    return

/-- Every statement gives back all its temporaries. -/
def block : Block → GenM Unit
  | [] => return
  | s :: rest => do
    statement s
    setTop (← localCount)
    block rest

end Gen

/-- Compiles a source. With a `failure`, reading on past the last byte fails for that reason. -/
def Chunk.compileReading (source : Bytes) (failure : Option Bytes) (name : Bytes) : Except SourceFault Chunk :=
  let tree := Block.ofTokens (Scanner.ofSource source failure).tokens.1
  ((Gen.block tree).run { chunk := { name }, top := 0 }).map fun (_, g) => g.chunk

def Chunk.compile (source name : Bytes) : Except SourceFault Chunk := Chunk.compileReading source none name

end MiniLua
