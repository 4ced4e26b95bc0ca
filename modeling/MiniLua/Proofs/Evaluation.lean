import MiniLua.Machine.Step
import MiniLua.Tree.Basic

/-!
Direct evaluation of syntax trees: locals by name, a map of globals, a heap of tables and an output. There are no slots
here and no stack.
-/

namespace MiniLua

/-- What a program can observe and change apart from its own locals. -/
structure World where
  tables : Array Table
  natives : Array Native
  globals : Std.ExtTreeMap Bytes Value
  out : Sink

def Machine.world (m : Machine) : World := ⟨m.tables, m.natives, m.globals, m.out⟩

/-- A machine in this world, between two programs. -/
def World.machine (w : World) : Machine :=
  { tables := w.tables, natives := w.natives, globals := w.globals, out := w.out }

/-- Locals with their values, the latest declaration first. -/
abbrev Locals := List (Bytes × Value)

/-- Gives a new value to the latest local of that name. -/
def Locals.assign (name : Bytes) (v : Value) : Locals → Locals
  | [] => []
  | (n, old) :: rest => if n = name then (n, v) :: rest else (n, old) :: assign name v rest

abbrev EvalM := ExceptT Fault (StateM World)

namespace EvalM

def fail {α : Type} (f : RuntimeFault) : EvalM α := throw (.runtime f)

def getGlobal (name : Bytes) : EvalM Value := return (← get).globals.getD name .nil

def setGlobal (name : Bytes) (v : Value) : EvalM Unit :=
  modify fun w => { w with globals := w.globals.insert name v }

def newTable : EvalM Nat := do
  let w ← get
  set { w with tables := w.tables.push .empty }
  return w.tables.size

def setTable (id : Nat) (t : Table) : EvalM Unit :=
  modify fun w => { w with tables := w.tables.setIfInBounds id t }

/-- The entry of a value under a key; only a table has entries. -/
def index (t key : Value) : EvalM Value :=
  match t with
  | .table id => return ((← get).tables.getD id .empty).get byteHash key
  | _ => fail (.notIndexable t.kind)

def store (t key v : Value) : EvalM Unit :=
  match t with
  | .table id => do
    match ((← get).tables.getD id .empty).set byteHash key v with
    | .ok t' => setTable id t'
    | .error fault => fail (.badKey fault)
  | _ => fail (.notIndexable t.kind)

def append (id : Nat) (values : List Value) : EvalM Unit := do
  setTable id (((← get).tables.getD id .empty).append byteHash values)

/-- What a native does with its arguments. Values that it pushes are dropped, since no expression is a call; a native
that asks for its place on a stack is told zero. -/
def act {α : Type} (args : List Value) : Act α → EvalM α
  | .done a => return a
  | .raise report => throw (.raised report)
  | .misuse fault => throw (.misuse fault)
  | .callSlot next | .stackSize next => act args (next 0)
  | .argCount next => act args (next args.length)
  | .arg i next => act args (next (if 0 ≤ i then args.getD i.toNat .nil else .nil))
  | .push _ next => act args next
  | .getGlobal name next => do act args (next (← getGlobal name))
  | .setGlobal name v next => do
    setGlobal name v
    act args next
  | .write bs next => do
    let w ← get
    let (reason, out) := w.out.write bs
    set { w with out }
    act args (next reason)
  | .inspect v next => do act args (next ((← get).machine.inspect v))

def call (f : Value) (args : List Value) : EvalM Unit :=
  match f with
  | .native id => do
    match (← get).natives[id]? with
    | some native => let _ ← act args native.body
    | none => return
  | _ => fail (.notCallable f.kind)

variable {α β : Type}

theorem run_bind (x : EvalM α) (f : α → EvalM β) (w : World) :
    (x >>= f).run w = match x.run w with
      | (.ok a, w') => (f a).run w'
      | (.error e, w') => (.error e, w') := by
  change (match x.run w with | (r, w') => (ExceptT.bindCont f r) w') = _
  rcases x.run w with ⟨r | r, w'⟩ <;> rfl

theorem run_bind_ok {x : EvalM α} {f : α → EvalM β} {w w' : World} {a : α} (h : x.run w = (.ok a, w')) :
    (x >>= f).run w = (f a).run w' := by
  rw [run_bind, h]

theorem run_bind_error {x : EvalM α} {f : α → EvalM β} {w w' : World} {e : Fault} (h : x.run w = (.error e, w')) :
    (x >>= f).run w = (.error e, w') := by
  rw [run_bind, h]

end EvalM

def Literal.value : Literal → Value
  | .nil => .nil
  | .bool b => .bool b
  | .int i => .int i
  | .float x => .float x
  | .str content => .ofBytes content

def Value.negate : Value → Value
  | .int i => .int (-i)
  | .float x => .float x.neg
  | v => v

namespace Eval

open EvalM

def lookup (locals : Locals) (name : Bytes) : EvalM Value :=
  match locals.lookup name with
  | some v => return v
  | none => getGlobal name

mutual

/-- Value of an expression. A place where reading stopped has none, and nil stands in. -/
def expression (locals : Locals) : Exp → EvalM Value
  | .literal l _ => return l.value
  | .table _ fs => do
    let id ← newTable
    let waiting ← fields locals id [] fs
    unless waiting.isEmpty do append id waiting
    return .table id
  | .minus _ operand => return (← expression locals operand).negate
  | .var name => lookup locals name.text
  | .paren inner _ => expression locals inner
  | .field base _ name => do index (← expression locals base) (.ofBytes name.text)
  | .index base _ key _ => do
    let t ← expression locals base
    let k ← expression locals key
    index t k
  | .fault _ => return .nil
  | .faultAfter e _ => expression locals e

/-- Entries of the table `id` in order: an entry with a key is stored at once, the others wait until there are fifty of
them. Gives those that wait in the end. -/
def fields (locals : Locals) (id : Nat) (waiting : List Value) : Fields → EvalM (List Value)
  | .done _ => return waiting
  | .stop e => do
    let _ ← expression locals e
    return waiting
  | .positional e rest => do
    let v ← expression locals e
    if waiting.length + 1 = 50 then
      append id (waiting ++ [v])
      fields locals id [] rest
    else fields locals id (waiting ++ [v]) rest
  | .named name _ value rest => do
    let v ← expression locals value
    store (.table id) (.ofBytes name.text) v
    fields locals id waiting rest
  | .keyed _ key _ value rest => do
    let k ← expression locals key
    let v ← expression locals value
    store (.table id) k v
    fields locals id waiting rest

end

def arguments (locals : Locals) : List Exp → EvalM (List Value)
  | [] => return []
  | e :: es => do
    let v ← expression locals e
    return v :: (← arguments locals es)

def assign (locals : Locals) (target value : Exp) : EvalM Locals :=
  match target with
  | .var name => do
    let v ← expression locals value
    match locals.lookup name.text with
    | some _ => return locals.assign name.text v
    | none =>
      setGlobal name.text v
      return locals
  | .field base _ name => do
    let t ← expression locals base
    let v ← expression locals value
    store t (.ofBytes name.text) v
    return locals
  | .index base _ key _ => do
    let t ← expression locals base
    let k ← expression locals key
    let v ← expression locals value
    store t k v
    return locals
  | _ => return locals

/-- The locals behind a statement. A local can be seen from the statement after its declaration on. -/
def statement (locals : Locals) : Stat → EvalM Locals
  | .declare name none => return (name.text, .nil) :: locals
  | .declare name (some e) => return (name.text, ← expression locals e) :: locals
  | .assign target value => assign locals target value
  | .call callee args _ => do
    let f ← expression locals callee
    let vs ← arguments locals args
    call f vs
    return locals
  | .construct e | .stop e => do
    let _ ← expression locals e
    return locals

def block (locals : Locals) : Block → EvalM Unit
  | [] => return
  | s :: rest => do block (← statement locals s) rest

end Eval

/-- Evaluates a program: the fault that ended it early, and the world afterwards. -/
def Block.evaluate (program : Block) (w : World) : Option Fault × World :=
  match (Eval.block [] program).run w with
  | (.ok (), w) => (none, w)
  | (.error f, w) => (some f, w)

end MiniLua
