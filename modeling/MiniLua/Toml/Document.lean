import MiniLua.Toml.Statement

/-!
What the statements of a TOML document define. A table that longer keys have implied may still be defined itself; all
else is defined once. The value of an inline table is a table of its own, beside what its pairs define in the document.
-/

namespace MiniLua.Toml

/-- A document as far as it has been read. -/
structure Draft where
  root : Table := []
  /-- Tables that are there because of longer keys. -/
  implied : List Key := []
  /-- Keys that have an array. -/
  arrays : List Key := []
  /-- Tables of the document that belong to the value of an inline table, too. -/
  shared : List Key := []

/-- The table below `t` that a key names. -/
def reach? : Table → Key → Option Table
  | t, [] => some t
  | t, k :: rest => do
    let v ← t.lookup k
    reach? (← v.inner?) rest

/-- Puts another table in the place that a key names. -/
def rebuild? : Table → Key → Table → Option Table
  | _, [], new => some new
  | t, k :: rest, new => do
    let v ← t.lookup k
    return t.set k (v.withInner (← rebuild? (← v.inner?) rest new))

/-- Puts a value under a key, with the tables along it that are missing. -/
def put? : Table → Key → Value → Option Table
  | t, [], _ => some t
  | t, [k], v => some (t.set k v)
  | t, k :: rest, v => do
    match t.lookup k with
    | none => return t.set k (.table (← put? [] rest v))
    | some (.table inner) => return t.set k (.table (← put? inner rest v))
    | some _ => none

namespace Draft

def imply (d : Draft) (key : Key) : Draft := { d with implied := key :: d.implied }

def settle (d : Draft) (key : Key) : Draft := { d with implied := d.implied.filter (· != key) }

/-- From here on a table of the document and those below it are in no inline table. -/
def unshare (d : Draft) (key : Key) : Draft := { d with shared := d.shared.filter fun k => !key.isPrefixOf k }

def store (d : Draft) (context : Key) (part : Bytes) (v : Value) : Option Draft := do
  let t ← reach? d.root context
  return { d with root := ← rebuild? d.root context (t.set part v) }

/-- Defines a key in a table. One that is there already must have been implied; it keeps what it has, unless it is an
array that is complete now. -/
def define (d : Draft) (context : Key) (part : Bytes) (v : Value) : Option Draft := do
  let t ← reach? d.root context
  let key := context ++ [part]
  if (t.lookup part).isNone then d.store context part v
  else if d.implied.contains key then
    if d.arrays.contains key then ((d.settle key).unshare key).store context part v else return d.settle key
  else none

/-- Makes sure that the tables along `parts` are there, below `context`. -/
def ensure (d : Draft) (context : Key) : Key → Option Draft
  | [] => some d
  | k :: rest => do
    let t ← reach? d.root context
    match t.lookup k with
    | some v => if v.inner?.isSome then d.ensure (context ++ [k]) rest else none
    | none => do
      let d ← (d.imply (context ++ [k])).store context k (.table [])
      d.ensure (context ++ [k]) rest

def openTable (d : Draft) (key : Key) : Option Draft := do
  let d ← d.ensure [] key.dropLast
  d.define key.dropLast (key.getLastD []) (.table [])

def openElement (d : Draft) (key : Key) : Option Draft := do
  let d ← d.ensure [] key.dropLast
  let t ← reach? d.root key.dropLast
  let part := key.getLastD []
  match t.lookup part with
  | none => d.store key.dropLast part (.tables [[]])
  | some (.tables elements) => d.store key.dropLast part (.tables (elements ++ [[]]))
  | some _ => none

/-- Opens the tables that the parts of a dotted key name, each one implied. -/
def openParts (d : Draft) (context : Key) : Key → Option (Draft × Key)
  | [] => some (d, context)
  | k :: rest => do
    let context := context ++ [k]
    let d ← (d.imply context).openTable context
    d.openParts context rest

/-- Records whether a key has an array. An empty part stands for the table it is in. -/
def note (d : Draft) (context : Key) (part : Bytes) (isArray : Bool) : Draft :=
  let key := if part.isEmpty then (if context.isEmpty then [[]] else context) else context ++ [part]
  { d with arrays := if isArray then key :: d.arrays else d.arrays.filter (· != key) }

/-- Defines a key that has its value now. The document shares an inline table that it takes for an array. -/
def finish (d : Draft) (context : Key) (part : Bytes) (v : Value) : Option Draft := do
  let key := context ++ [part]
  let d' ← d.define context part v
  let d' := match v with
    | .table _ => if d.arrays.contains key then { d' with shared := key :: d'.shared } else d'
    | _ => d'.unshare key
  return d'.note context part v.isArray

/-- Puts a value into the inline table at `context`. In a table that it shares with the document both get the value. -/
def putInline (d : Draft) (context : Key) (own : Table) (key : Key) (v : Value) : Option (Table × Draft) :=
  match (List.range key.length).find? fun i => 0 < i && d.shared.contains (context ++ key.take i) with
  | none => return (← put? own key v, d)
  | some i => do
    let place := context ++ key.take i
    let t ← put? (← reach? d.root place) (key.drop i) v
    return (← put? own (key.take i) (.table t), { d with root := ← rebuild? d.root place t })

end Draft

mutual

/-- The value of an expression under a key; `inArray` tells whether it is an element of an array. -/
def Exp.build (d : Draft) (context : Key) (part : Bytes) ( inArray : Bool) : Exp → Option (Value × Draft)
  | .scalar v => some (v, d)
  | .array items => do
    let (vs, d) ← items.build (d.note context part true) context part
    return (.array vs, d)
  | .inline pairs => do
    let key := context ++ [part]
    let d := (d.imply key).unshare key
    let d ← if inArray then d.openElement key else d.openTable key
    let (own, d) ← pairs.build d key []
    return (.table own, d)

def Exps.build (d : Draft) (context : Key) (part : Bytes) : Exps → Option (List Value × Draft)
  | .nil => some ([], d)
  | .cons e rest => do
    let (v, d) ← e.build d context part true
    let (vs, d) ← rest.build d context part
    return (v :: vs, d)

/-- The inline table at `context`; `own` has the pairs before. -/
def Pairs.build (d : Draft) (context : Key) (own : Table) : Pairs → Option (Table × Draft)
  | .nil => some (own, d)
  | .cons key e rest => do
    let (d, inner) ← d.openParts context key.dropLast
    let part := key.getLastD []
    let (v, d) ← e.build d inner part false
    let d ← d.finish inner part v
    let (own, d) ← d.putInline context own key v
    rest.build d context own

end

/-- Adds a statement to a draft; `context` is the table that the last header has opened. -/
def Statement.apply (p : Draft × Key) : Statement → Option (Draft × Key)
  | .table key => do
    let d ← p.1.openTable key
    return (d.note key [] false, key)
  | .element key => do
    let d ← p.1.openElement key
    return (d.note key [] false, key)
  | .pair key e => do
    let (d, inner) ← p.1.openParts p.2 key.dropLast
    let part := key.getLastD []
    let (v, d) ← e.build d inner part false
    return (← d.finish inner part v, p.2)

/-- The top table of a document; none if the text is no document. -/
def document? (source : Bytes) : Option Table := do
  let (d, _) ← (← statements source).foldlM Statement.apply (({} : Draft), [])
  return d.root

end MiniLua.Toml
