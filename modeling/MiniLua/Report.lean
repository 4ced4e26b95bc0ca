import MiniLua.Text.Bytes

/-!
What is reported of a fault: the stage that found it, a message, and a place in the source where one is known.
-/

namespace MiniLua

open Text

inductive Stage where
  | lexical
  | grammar
  | compile
  | runtime
  | other (name : Bytes)
  deriving DecidableEq, Repr

def Stage.name : Stage → Bytes
  | .lexical => utf8 "LEXICAL"
  | .grammar => utf8 "SYNTAX"
  | .compile => utf8 "COMPILE"
  | .runtime => utf8 "RUNTIME"
  | .other name => name

structure Report where
  stage : Stage
  message : Bytes
  /-- Zero when the place is unknown. -/
  line : Int := 0
  column : Int := 0
  deriving DecidableEq, Repr

def Report.text (r : Report) : Bytes :=
  let body := 0x5b :: r.stage.name ++ utf8 "] " ++ r.message
  if 0 < r.line then body ++ utf8 " at line " ++ integer r.line ++ utf8 ", column " ++ integer r.column else body

end MiniLua
