import MiniLua.Token

/-!
Long brackets: `[`, a number of `=` signs (the level) and `[`, up to `]`, as many signs and `]`.
-/

namespace MiniLua.Scan

open Text

/-- How far ahead of the current byte the scanner looks for a bracket. -/
def window : Nat := 4096

inductive Opening where
  | long (level : Nat)
  | broken
  | plain
  deriving DecidableEq, Repr

/-- What the bytes behind a `[` make of it. -/
def opening (bs : Bytes) : Opening :=
  let level := (bs.takeWhile (· == 0x3d)).length
  if level < window ∧ bs[level]? = some 0x5b then .long level
  else if 0 < level then .broken
  else .plain

def closer (level : Nat) : Bytes := 0x5d :: List.replicate level 0x3d ++ [0x5d]

/-- Length of the line end at the head: LF, CR, or one of each. -/
def lineEnd : Bytes → Nat
  | 0x0a :: 0x0d :: _ | 0x0d :: 0x0a :: _ => 2
  | 0x0a :: _ | 0x0d :: _ => 1
  | _ => 0

/-- Content up to the closer, with every line end read as LF, and the length with the closer. -/
def longBody (level : Nat) (bs : Bytes) : Option (Bytes × Nat) :=
  match bs with
  | [] => none
  | b :: r =>
    if (closer level).isPrefixOf (b :: r) then some ([], level + 2)
    else
      let n := lineEnd (b :: r)
      if n = 0 then (longBody level r).map fun (c, m) => (b :: c, m + 1)
      else (longBody level (r.drop (n - 1))).map fun (c, m) => (newline :: c, m + n)
termination_by bs.length
decreasing_by all_goals simp only [List.length_cons, List.length_drop]; omega

/-- As `longBody`, for the bytes behind the opener: a line end that comes first is dropped. -/
def longContent (level : Nat) (bs : Bytes) : Option (Bytes × Nat) :=
  (longBody level (bs.drop (lineEnd bs))).map fun (c, m) => (c, m + lineEnd bs)

end MiniLua.Scan
