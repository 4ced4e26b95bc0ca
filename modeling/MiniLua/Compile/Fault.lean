import MiniLua.Chunk
import MiniLua.Table
import MiniLua.Token

/-!
Why a source is no program, and where.
-/

namespace MiniLua

open Text

/-- What a rule of the grammar asks for next. -/
inductive Expectation where
  | name
  | symbol (s : Symbol)
  deriving DecidableEq, Repr

def Expectation.text : Expectation → Bytes
  | .name => utf8 "NAME"
  | .symbol s => s.bytes

inductive Cause where
  | scan (fault : ScanFault)
  | expected (what : Expectation) (found : Lexeme)
  | unexpected (found : Lexeme)
  | minusOperand
  | callAsValue
  | tooManyConstants
  | tooManySlots
  | tooManyLocals
  | badKey (fault : KeyFault)
  deriving DecidableEq, Repr

namespace Cause

def stage : Cause → Stage
  | scan _ => .lexical
  | expected .. | unexpected _ | minusOperand | callAsValue => .grammar
  | tooManyConstants | tooManySlots | tooManyLocals | badKey _ => .compile

def message : Cause → Bytes
  | scan fault => fault.message
  | expected what found => utf8 "expected '" ++ what.text ++ utf8 "' near " ++ found.describe
  | unexpected found => utf8 "unexpected " ++ found.describe
  | minusOperand => utf8 "unary minus applies only to numeric literals"
  | callAsValue => utf8 "function call used as a value"
  | tooManyConstants => Chunk.tooManyConstants
  | tooManySlots => utf8 "too many stack slots (limit 256)"
  | tooManyLocals => utf8 "too many local variables (limit 256)"
  | badKey fault => fault.message

end Cause

structure SourceFault where
  cause : Cause
  pos : Position
  deriving DecidableEq, Repr

def SourceFault.report (f : SourceFault) : Report := ⟨f.cause.stage, f.cause.message, f.pos.line, f.pos.column⟩

end MiniLua
