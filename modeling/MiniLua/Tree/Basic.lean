import MiniLua.Compile.Fault

/-!
Syntax trees. A tree keeps the places of the tokens at which a later stage may report a fault. Where reading stopped, a
tree has a fault as its last leaf; a tree without such a leaf is a whole program.
-/

namespace MiniLua

structure Name where
  text : Bytes
  pos : Position
  deriving DecidableEq, Repr

inductive Literal where
  | nil
  | bool (b : Bool)
  | int (i : Int64)
  | float (x : Binary64)
  | str (content : Bytes)
  deriving DecidableEq, Repr

mutual

inductive Exp where
  | literal (l : Literal) (pos : Position)
  | table (opened : Position) (fields : Fields)
  | minus (pos : Position) (operand : Exp)
  | var (name : Name)
  | paren (inner : Exp) (closed : Position)
  | field (base : Exp) (dot : Position) (name : Name)
  | index (base : Exp) (opened : Position) (key : Exp) (closed : Position)
  | fault (f : SourceFault)
  | faultAfter (e : Exp) (f : SourceFault)

/-- Entries of a table constructor in order. -/
inductive Fields where
  | done (closed : Position)
  | stop (e : Exp)
  | positional (e : Exp) (rest : Fields)
  | named (name : Name) (assign : Position) (value : Exp) (rest : Fields)
  | keyed (opened : Position) (key : Exp) (assign : Position) (value : Exp) (rest : Fields)

end

mutual

/-- Place of the last token. -/
def Exp.last : Exp → Position
  | .literal _ pos => pos
  | .table _ fields => fields.last
  | .minus _ operand => operand.last
  | .var name => name.pos
  | .paren _ closed => closed
  | .field _ _ name => name.pos
  | .index _ _ _ closed => closed
  | .fault f => f.pos
  | .faultAfter _ f => f.pos

def Fields.last : Fields → Position
  | .done closed => closed
  | .stop e => e.last
  | .positional _ rest | .named _ _ _ rest | .keyed _ _ _ _ rest => rest.last

end

/-- Whether the tree is a number, up to minus signs and parentheses. -/
def Exp.isNumeral : Exp → Bool
  | .literal (.int _) _ | .literal (.float _) _ => true
  | .minus _ e | .paren e _ => e.isNumeral
  | _ => false

inductive Stat where
  | declare (name : Name) (init : Option Exp)
  | assign (target value : Exp)
  | call (callee : Exp) (args : List Exp) (stop : Option SourceFault)
  | construct (table : Exp)
  | stop (e : Exp)

abbrev Block := List Stat

end MiniLua
