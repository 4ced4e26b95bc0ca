import MiniLua.Tree.Basic

/-!
Whole trees and broken trees. A whole tree is that of a program that was read to its end; a broken one has the fault at
which reading stopped as a leaf.
-/

namespace MiniLua

mutual

/-- No leaf is a fault, and a minus sign stands before a number only. -/
def Exp.Whole : Exp → Prop
  | .literal .. | .var _ => True
  | .table _ fields => fields.Whole
  | .minus _ operand => operand.isNumeral = true ∧ operand.Whole
  | .paren inner _ => inner.Whole
  | .field base _ _ => base.Whole
  | .index base _ key _ => base.Whole ∧ key.Whole
  | .fault _ | .faultAfter .. => False

def Fields.Whole : Fields → Prop
  | .done _ => True
  | .stop _ => False
  | .positional e rest => e.Whole ∧ rest.Whole
  | .named _ _ value rest => value.Whole ∧ rest.Whole
  | .keyed _ key _ value rest => key.Whole ∧ value.Whole ∧ rest.Whole

end

/-- Whether the tree is what can stand on the left of an assignment: a name with suffixes. -/
def Exp.isPlace : Exp → Bool
  | .var _ | .field .. | .index .. => true
  | _ => false

def Stat.Whole : Stat → Prop
  | .declare _ init => ∀ e ∈ init, e.Whole
  | .assign target value => target.isPlace = true ∧ target.Whole ∧ value.Whole
  | .call callee args end_ => callee.Whole ∧ (∀ e ∈ args, e.Whole) ∧ end_ = none
  | .construct (.table _ fields) => fields.Whole
  | .construct _ | .stop _ => False

mutual

/-- Some leaf is a fault. -/
def Exp.Broken : Exp → Prop
  | .literal .. | .var _ => False
  | .table _ fields => fields.Broken
  | .minus _ operand => operand.Broken
  | .paren inner _ => inner.Broken
  | .field base _ _ => base.Broken
  | .index base _ key _ => base.Broken ∨ key.Broken
  | .fault _ | .faultAfter .. => True

def Fields.Broken : Fields → Prop
  | .done _ => False
  | .stop e => e.Broken
  | .positional e rest => e.Broken ∨ rest.Broken
  | .named _ _ value rest => value.Broken ∨ rest.Broken
  | .keyed _ key _ value rest => key.Broken ∨ value.Broken ∨ rest.Broken

end

def Stat.Broken : Stat → Prop
  | .declare _ init => ∃ e ∈ init, e.Broken
  | .assign target value => target.Broken ∨ value.Broken
  | .call callee args end_ => callee.Broken ∨ (∃ e ∈ args, e.Broken) ∨ end_.isSome = true
  | .construct e | .stop e => e.Broken

end MiniLua
