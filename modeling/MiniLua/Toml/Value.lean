import MiniLua.Binary64.Basic
import MiniLua.Text.Bytes

/-!
Values of a TOML document. Dates and times are checked and not kept.
-/

namespace MiniLua.Toml

open Text

inductive Value where
  | string (content : Bytes)
  | integer (i : Int64)
  | float (x : Binary64)
  | boolean (b : Bool)
  | time
  | array (items : List Value)
  | table (entries : List (Bytes × Value))
  /-- An array whose tables have headers of their own. -/
  | tables (elements : List (List (Bytes × Value)))

abbrev Table := List (Bytes × Value)

abbrev Key := List Bytes

def Table.set (t : Table) (key : Bytes) (v : Value) : Table :=
  if t.any (·.1 == key) then t.map fun e => if e.1 == key then (key, v) else e else t ++ [(key, v)]

namespace Value

/-- The table that keys below this value go to: of an array of tables the last one. -/
def inner? : Value → Option Table
  | table entries => some entries
  | tables elements => elements.getLast?
  | _ => none

def withInner (v : Value) (t : Table) : Value :=
  match v with
  | table _ => table t
  | tables elements => tables (elements.dropLast ++ [t])
  | v => v

def isArray : Value → Bool
  | array _ => true
  | _ => false

/-- Name of the type in messages. -/
def typeName : Value → Bytes
  | string _ => utf8 "string"
  | integer _ => utf8 "int64"
  | float _ => utf8 "float64"
  | boolean _ => utf8 "bool"
  | time => utf8 "time.Time"
  | array _ => utf8 "[]interface \x7b\x7d"
  | table _ => utf8 "map[string]interface \x7b\x7d"
  | tables _ => utf8 "[]map[string]interface \x7b\x7d"

end Value

end MiniLua.Toml
