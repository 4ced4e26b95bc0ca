import MiniLua.Cbor.Item
import MiniLua.Chunk

/-!
The portable form of a chunk: records with numbered fields. Fields that are zero or empty are left out, apart from those
that every record has.
-/

namespace MiniLua.Wire

open Cbor

def formatVersion : UInt8 := 2

structure PackedConstant where
  kind : UInt8
  bool : Bool := false
  int : Int64 := 0
  floatBits : UInt64 := 0
  bytes : Bytes := []
  deriving DecidableEq

/-- A list that is missing, other than one that is empty, is written as null. -/
structure Package where
  version : UInt8
  name : Bytes
  constants : Option (List PackedConstant)
  code : Option (List Instruction)
  locals : List LocalInfo
  deriving DecidableEq

/-- A field that is always there. -/
def required (key : Nat) (value : Item) : List Item := [.uint key, value]

def unlessZero (isZero : Bool) (key : Nat) (value : Item) : List Item :=
  if isZero then [] else [.uint key, value]

def byteField (key : Nat) (b : UInt8) : List Item := unlessZero (b == 0) key (.uint b.toNat)

def intField (key : Nat) (i : Int64) : List Item := unlessZero (i == 0) key (.ofInt i.toInt)

def PackedConstant.item (k : PackedConstant) : Item :=
  .map (required 1 (.uint k.kind.toNat) ++ unlessZero (!k.bool) 2 (.ofBool k.bool) ++ intField 3 k.int ++
    unlessZero (k.floatBits == 0) 4 (.uint k.floatBits.toNat) ++ unlessZero k.bytes.isEmpty 5 (.bytes k.bytes))

def instructionItem (i : Instruction) : Item :=
  .map (required 1 (.uint i.op.toNat) ++ byteField 2 i.a ++ byteField 3 i.b ++ byteField 4 i.c ++ intField 5 i.int)

def localItem (l : LocalInfo) : Item :=
  .map (required 1 (.text [l.name]) ++ required 2 (.ofInt l.slot.toInt) ++ intField 3 l.line ++ intField 4 l.column)

def listItem {α : Type} (item : α → Item) : Option (List α) → Item
  | some xs => .array (xs.map item)
  | none => .null

def Package.item (p : Package) : Item :=
  .map (required 1 (.uint p.version.toNat) ++ required 2 (.text [p.name]) ++
    required 3 (listItem PackedConstant.item p.constants) ++ required 4 (listItem instructionItem p.code) ++
    unlessZero p.locals.isEmpty 5 (.array (p.locals.map localItem)))

def Package.encode (p : Package) : Bytes := p.item.encode

end MiniLua.Wire
