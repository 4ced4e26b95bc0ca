import MiniLua.Text.Bytes

/-!
Places in a source text: byte offset from zero, line and column from one. A position is what the bytes before it make
of the start.
-/

namespace MiniLua

open Text

structure Position where
  offset : Nat
  line : Nat
  column : Nat
  deriving DecidableEq, Repr, Inhabited

namespace Position

def start : Position := ⟨0, 1, 1⟩

def next (p : Position) (b : UInt8) : Position :=
  if b = newline then ⟨p.offset + 1, p.line + 1, 1⟩ else ⟨p.offset + 1, p.line, p.column + 1⟩

def after (p : Position) (bs : Bytes) : Position := bs.foldl next p

end Position

def writePlace (line column : Int) : Bytes := integer line ++ 0x3a :: integer column

end MiniLua
