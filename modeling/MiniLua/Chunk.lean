import MiniLua.Opcode
import MiniLua.Report
import MiniLua.Value.Basic

/-!
Compiled programs: a pool of constants, straight-line code, and where each local variable lives.
-/

namespace MiniLua

structure LocalInfo where
  name : Bytes
  slot : Int64
  line : Int64
  column : Int64
  deriving DecidableEq

structure Chunk where
  name : Bytes
  constants : Array Value := #[]
  code : Array Instruction := #[]
  locals : Array LocalInfo := #[]
  deriving DecidableEq

namespace Chunk

/-- Constants are told apart more finely than values: floats by their bits. -/
def sameConstant : Value → Value → Bool
  | .float x, .float y => x.bits == y.bits
  | v, w => v.equal w

def maxConstants : Nat := 256

/-- The index of a constant, which is added if the pool has none like it and is not full. -/
def addConstant (c : Chunk) (v : Value) : Option (Nat × Chunk) :=
  match c.constants.findIdx? (sameConstant · v) with
  | some i => some (i, c)
  | none =>
    if c.constants.size < maxConstants then some (c.constants.size, { c with constants := c.constants.push v })
    else none

def tooManyConstants : Bytes := Text.utf8 "too many constants (limit 256)"

def emit (c : Chunk) (i : Instruction) : Chunk := { c with code := c.code.push i }

end Chunk

end MiniLua
