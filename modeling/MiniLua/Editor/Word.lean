import MiniLua.Editor.Range
import MiniLua.Text.Bytes

/-!
The name at a place in a text. A place past the end of its line counts as the end.
-/

namespace MiniLua.Editor

open Text

def isNameCode (code : Int) : Bool := 0 ≤ code && code < 0x7f && isNameByte (UInt8.ofInt code)

def line? (text : Bytes) (p : Place) : Option Bytes := (splitAtByte newline text)[p.line.toNat]?

def leftPart (line : Bytes) (column : Nat) : Bytes := ((line.take column).reverse.takeWhile isNameByte).reverse

def rightPart (line : Bytes) (column : Nat) : Bytes := (line.drop column).takeWhile isNameByte

/-- The part of a name that stands before a place. -/
def fragmentAt (text : Bytes) (p : Place) : Bytes :=
  match line? text p with
  | some line => leftPart line p.character.toNat
  | none => []

/-- The name around a place. -/
def wordAt (text : Bytes) (p : Place) : Bytes :=
  match line? text p with
  | some line => leftPart line p.character.toNat ++ rightPart line p.character.toNat
  | none => []

end MiniLua.Editor
