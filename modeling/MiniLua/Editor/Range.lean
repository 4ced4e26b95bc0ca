import MiniLua.Report

/-!
Places and ranges in a text, as editors count them: lines and bytes in a line from zero, in 32 bits.
-/

namespace MiniLua.Editor

structure Place where
  line : UInt32 := 0
  character : UInt32 := 0
  deriving DecidableEq, Repr

structure Range where
  start : Place := {}
  stop : Place := {}
  deriving DecidableEq, Repr

/-- The range of `length` bytes at a line and column that count from one. -/
def Range.ofPosition (line column : Int) (length : Nat) : Range :=
  let l := UInt32.ofInt (line - 1)
  let c := UInt32.ofInt (column - 1)
  ⟨⟨l, c⟩, ⟨l, c + UInt32.ofNat length⟩⟩

/-- The character that a report points to. Without a line it is at the start of the text, and without a column at the
start of the line. -/
def Range.ofReport (r : Report) : Range :=
  if r.line ≤ 0 then {} else ofPosition r.line (max r.column 1) 1

end MiniLua.Editor
