import MiniLua.Report
import MiniLua.Value.Basic

/-!
Native functions. What a native does is a tree of requests to the machine that calls it: it may look at its arguments,
push values, read and write globals and write output, and it ends with a number of results or with a fault.
-/

namespace MiniLua

inductive Act (α : Type) where
  | done (result : α)
  | raise (report : Report)
  | misuse (fault : Misuse)
  /-- The slot of the function that is being called. -/
  | callSlot (next : Nat → Act α)
  | argCount (next : Nat → Act α)
  /-- An argument, counted from zero; nil if the call has none there. -/
  | arg (index : Int) (next : Value → Act α)
  | stackSize (next : Nat → Act α)
  | push (v : Value) (next : Act α)
  | getGlobal (name : Bytes) (next : Value → Act α)
  | setGlobal (name : Bytes) (v : Value) (next : Act α)
  /-- Writes in one piece; the answer is the reason why that failed. -/
  | write (bs : Bytes) (next : Option Bytes → Act α)
  /-- A text for a value that quotes strings and gives the sizes of tables. -/
  | inspect (v : Value) (next : Bytes → Act α)

namespace Act

variable {α β : Type}

def bind : Act α → (α → Act β) → Act β
  | done a, f => f a
  | raise report, _ => raise report
  | misuse fault, _ => misuse fault
  | callSlot next, f => callSlot fun n => (next n).bind f
  | argCount next, f => argCount fun n => (next n).bind f
  | arg index next, f => arg index fun v => (next v).bind f
  | stackSize next, f => stackSize fun n => (next n).bind f
  | push v next, f => push v (next.bind f)
  | getGlobal name next, f => getGlobal name fun v => (next v).bind f
  | setGlobal name v next, f => setGlobal name v (next.bind f)
  | write bs next, f => write bs fun reason => (next reason).bind f
  | inspect v next, f => inspect v fun text => (next text).bind f

instance : Monad Act where
  pure := done
  bind := bind

/-- The arguments from `first` on, `count` of them. -/
def args : (first count : Nat) → Act (List Value)
  | _, 0 => done []
  | first, count + 1 => arg first fun v => (args (first + 1) count).bind fun vs => done (v :: vs)

def ofExcept : Except Misuse α → Act α
  | .ok a => done a
  | .error fault => misuse fault

end Act

/-- A native gives back how many results it has pushed. -/
structure Native where
  name : Bytes
  body : Act Nat

end MiniLua
