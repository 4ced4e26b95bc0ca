import MiniLua.Binary64.Written
import MiniLua.Value.Str

/-!
Values of the language. Tables and native functions are shared objects and stand in a value by their number.
-/

namespace MiniLua

open Text

inductive Value where
  | nil
  | bool (b : Bool)
  | int (i : Int64)
  | float (x : Binary64)
  | native (id : Nat)
  | str (s : Str)
  | table (id : Nat)
  deriving DecidableEq

inductive Kind where
  | nil | boolean | integer | float | function | string | table
  deriving DecidableEq, Repr

namespace Kind

def all : List Kind := [nil, boolean, integer, float, function, string, table]

def name : Kind → Bytes
  | nil => utf8 "nil"
  | boolean => utf8 "boolean"
  | integer => utf8 "integer"
  | float => utf8 "float"
  | function => utf8 "function"
  | string => utf8 "string"
  | table => utf8 "table"

def code : Kind → UInt8
  | nil => 0
  | boolean => 1
  | integer => 2
  | float => 3
  | function => 4
  | string => 5
  | table => 6

/-- Name of the type in messages, where both kinds of number are one. -/
def typeName : Kind → Bytes
  | integer | float => utf8 "number"
  | k => k.name

def nameOf (code : UInt8) : Bytes :=
  match all.find? (·.code == code) with
  | some k => k.name
  | none => utf8 "Kind(" ++ decimal code.toNat ++ utf8 ")"

end Kind

/-- A use of a value that its kind does not allow; a fault of the caller, not of the program that runs. -/
inductive Misuse where
  | notBoolean
  | notInteger
  | notFloat
  | notTable
  | notFunction
  | noBytes (kind : Kind)
  | noText (kind : Kind)
  | nilHash
  | missingTable
  | missingFunction
  deriving DecidableEq, Repr

def Misuse.message : Misuse → Bytes
  | .notBoolean => utf8 "vm: Value.Bool: not a boolean"
  | .notInteger => utf8 "vm: Value.Int: not an integer"
  | .notFloat => utf8 "vm: Value.Float: not a float"
  | .notTable => utf8 "vm: Value.Table: not a table"
  | .notFunction => utf8 "vm: Value.Native: not a function"
  | .noBytes kind => utf8 "vm: Value.Bytes: cannot convert " ++ kind.name
  | .noText kind => utf8 "vm: Value.Text: cannot convert " ++ kind.name
  | .nilHash => utf8 "vm: Value.Hash: nil is not hashable"
  | .missingTable => utf8 "vm: FromTable(nil)"
  | .missingFunction => utf8 "vm: FromNative(nil)"

namespace Value

instance : Inhabited Value := ⟨nil⟩

def ofBytes (bs : Bytes) : Value := str (Str.ofBytes bs)

def kind : Value → Kind
  | nil => .nil
  | bool _ => .boolean
  | int _ => .integer
  | float _ => .float
  | native _ => .function
  | str _ => .string
  | table _ => .table

def typeName (v : Value) : Bytes := v.kind.typeName

def isNil : Value → Bool
  | nil => true
  | _ => false

def isString : Value → Bool
  | str _ => true
  | _ => false

def isNaN : Value → Bool
  | float x => x.isNaN
  | _ => false

/-- Layout of a string; 0 for other values. -/
def sizeClass : Value → Nat
  | str s => s.sizeClass
  | _ => 0

/-- Sameness as the language sees it: integers and floats are never the same, floats are compared as numbers, strings
by content, tables and functions by identity. -/
def equal : Value → Value → Bool
  | nil, nil => true
  | bool a, bool b => a == b
  | int a, int b => a == b
  | float a, float b => a.sameNumber b
  | native a, native b => a == b
  | str a, str b => a.bytes == b.bytes
  | table a, table b => a == b
  | _, _ => false

/-- Eight bytes of a word, least significant first. -/
def wordBytes (w : UInt64) : Bytes := (List.range 8).map fun i => (w.toNat >>> (8 * i)).toUInt8

/-- What a byte hash is taken of: the content of a string, otherwise the kind and a word. Both zeros give the same
word. -/
def hashed (v : Value) : Bytes :=
  match v with
  | nil => [v.kind.code]
  | bool b => v.kind.code :: wordBytes (if b then 1 else 0)
  | int i => v.kind.code :: wordBytes i.toUInt64
  | float x => v.kind.code :: wordBytes (if x.isZero then 0 else x.bits)
  | str s => s.bytes
  | table id | native id => v.kind.code :: wordBytes (id + 1).toUInt64

def hash (byteHash : Bytes → UInt64) (v : Value) : Except Misuse UInt64 :=
  if v.isNil then .error .nilHash else .ok (byteHash v.hashed)

/-- Floats in fourteen digits; an integral one keeps `.0` so that it does not look like an integer. -/
def floatStyle : Binary64.Style := ⟨some 14, 14, true, "inf", "-inf", "nan"⟩

/-- Objects are shown by their address; they are numbered in the order of their creation. -/
def address (id : Nat) : Bytes := utf8 "0x" ++ positional 16 (id + 1)

/-- Text of a value as it is printed. -/
def display : Value → Bytes
  | nil => utf8 "nil"
  | bool b => utf8 (if b then "true" else "false")
  | int i => integer i.toInt
  | float x => x.write floatStyle
  | str s => s.bytes
  | table id => utf8 "table: " ++ address id
  | native id => utf8 "function: builtin: " ++ address id

def toBool : Value → Except Misuse Bool
  | bool b => .ok b
  | _ => .error .notBoolean

def toInt : Value → Except Misuse Int64
  | int i => .ok i
  | _ => .error .notInteger

def toFloat : Value → Except Misuse Binary64
  | float x => .ok x
  | _ => .error .notFloat

def toTable : Value → Except Misuse Nat
  | table id => .ok id
  | _ => .error .notTable

def toNative : Value → Except Misuse Nat
  | native id => .ok id
  | _ => .error .notFunction

/-- Content of a string, or the text of a table. -/
def toBytes (v : Value) : Except Misuse Bytes :=
  match v with
  | str _ | table _ => .ok v.display
  | _ => .error (.noBytes v.kind)

def toText (v : Value) : Except Misuse Bytes :=
  match v with
  | str _ | table _ => .ok v.display
  | _ => .error (.noText v.kind)

end Value

end MiniLua
